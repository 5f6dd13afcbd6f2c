import FmhaNative.RoundingError

/-!
Relative closeness of non-negative numbers, and what the rounded operations of a format lose of it:
every operation costs one factor `1 - u`, away from the least unit and from the overflow.
-/

namespace FmhaNative.Ieee

open XReal

/-- Each of two numbers is at least the part `a` of the other. -/
structure Near (a x y : ℝ) : Prop where
  lo : a * x ≤ y
  hi : a * y ≤ x

namespace Near

variable {a b x y z x' y' : ℝ}

lemma rfl' (hx : 0 ≤ x) (ha : a ≤ 1) : Near a x x :=
  ⟨mul_le_of_le_one_left hx ha, mul_le_of_le_one_left hx ha⟩

lemma trans (h : Near a x y) (h' : Near b y z) (ha : 0 ≤ a) (hb : 0 ≤ b) : Near (a * b) x z where
  lo := by
    calc a * b * x = b * (a * x) := by ring
      _ ≤ b * y := mul_le_mul_of_nonneg_left h.lo hb
      _ ≤ z := h'.lo
  hi := by
    calc a * b * z = a * (b * z) := by ring
      _ ≤ a * y := mul_le_mul_of_nonneg_left h'.hi ha
      _ ≤ x := h.hi

lemma add (h : Near a x y) (h' : Near a x' y') : Near a (x + x') (y + y') :=
  ⟨by rw [mul_add]; exact add_le_add h.lo h'.lo, by rw [mul_add]; exact add_le_add h.hi h'.hi⟩

lemma mul (h : Near a x y) (h' : Near b x' y') (hb : 0 ≤ b) (hx : 0 ≤ x) (hy : 0 ≤ y)
    (hx' : 0 ≤ x') (hy' : 0 ≤ y') : Near (a * b) (x * x') (y * y') where
  lo := by
    rw [mul_mul_mul_comm]
    exact mul_le_mul h.lo h'.lo (mul_nonneg hb hx') hy
  hi := by
    rw [mul_mul_mul_comm]
    exact mul_le_mul h.hi h'.hi (mul_nonneg hb hy') hx

lemma sqrt (h : Near a x y) (ha : 0 ≤ a) (ha1 : a ≤ 1) : Near a (√x) (√y) := by
  have hroot : a ≤ √a := Real.le_sqrt_of_sq_le (by nlinarith)
  have hstep : ∀ {u v : ℝ}, a * u ≤ v → a * √u ≤ √v := fun {u v} huv => by
    calc a * √u ≤ √a * √u := mul_le_mul_of_nonneg_right hroot (Real.sqrt_nonneg u)
      _ = √(a * u) := (Real.sqrt_mul ha u).symm
      _ ≤ √v := Real.sqrt_le_sqrt huv
  exact ⟨hstep h.lo, hstep h.hi⟩

lemma mono (h : Near a x y) (hb : b ≤ a) (hx : 0 ≤ x) (hy : 0 ≤ y) : Near b x y :=
  ⟨(mul_le_mul_of_nonneg_right hb hx).trans h.lo, (mul_le_mul_of_nonneg_right hb hy).trans h.hi⟩

end Near

variable {f : Format} {a x y : ℝ}

/-- Nothing, or a number that keeps all its bits with room below and above. -/
def Format.Ample (f : Format) (x : ℝ) : Prop :=
  x = 0 ∨ 2 ^ (f.emin + f.prec) ≤ x ∧ x ≤ 2 ^ (f.emax - 3)

lemma Format.Ample.nonneg (h : f.Ample x) : 0 ≤ x := by
  rcases h with rfl | ⟨h, -⟩
  · exact le_rfl
  · exact (zpow_pos two_pos _).le.trans h

/-- A number not far below the ample ones is normal. -/
lemma normal_of_le (h : 2 ^ (f.emin + f.prec - 1) ≤ y) : f.Normal y := by
  have hy : 0 < y := (zpow_pos two_pos _).trans_le h
  have hlog : f.emin + f.prec - 1 ≤ Int.log 2 y :=
    (Int.zpow_le_iff_le_log one_lt_two hy).mp (by exact_mod_cast h)
  unfold Format.Normal Format.ulpExp
  rw [abs_of_pos hy]
  exact max_eq_left (by omega)

/-- Rounding a normal number costs one factor. -/
lemma near_nearest (hp : 1 ≤ f.prec) (hy : 0 < y) (h : f.Normal y) :
    Near (1 - f.unit) y (f.nearest y) := by
  have hu := unit_pos (f := f)
  have hhalf := unit_le_half hp
  obtain ⟨hlo, hhi⟩ := abs_le.mp (abs_nearest_sub_le_unit hy h)
  refine ⟨by linarith, ?_⟩
  nlinarith [mul_pos hu hy, mul_pos (mul_pos hu hu) hy]

/-- **A rounded result** of an operation whose operands are close is close. -/
lemma Near.round (hp : 1 ≤ f.prec) (h : Near a x y) (ha : 1 / 2 ≤ a) (hx : f.Ample x) :
    ∃ z, f.round (fin y) = fin z ∧ 0 ≤ z ∧ Near (a * (1 - f.unit)) x z := by
  have hu := unit_pos (f := f)
  have hhalf := unit_le_half hp
  rcases hx with rfl | ⟨hlo, hhi⟩
  · have hy : y = 0 := by
      obtain ⟨h1, h2⟩ := h
      nlinarith
    refine ⟨0, by rw [hy, round_zero], le_rfl, by rw [mul_zero], by rw [mul_zero]⟩
  · have hpow : (2 : ℝ) ^ (f.emin + f.prec) = 2 * 2 ^ (f.emin + f.prec - 1) := by
      rw [zpow_sub_one₀ two_ne_zero]
      ring
    have hxpos : 0 < x := (zpow_pos two_pos _).trans_le hlo
    have hyx : x / 2 ≤ y := by
      have := h.lo
      nlinarith
    have hy : 0 < y := by linarith
    have hyx' : y ≤ 2 * x := by
      have := h.hi
      nlinarith
    have hnear := near_nearest hp hy (normal_of_le (f := f) (by linarith))
    have hz : f.nearest y ≤ 4 * x := by
      have := hnear.hi
      nlinarith [nearest_nonneg (f := f) hy.le]
    have hmax : (2 : ℝ) ^ f.emax = 8 * 2 ^ (f.emax - 3) := by
      rw [zpow_sub₀ two_ne_zero]
      norm_num
      ring
    have hfin : |f.nearest y| < 2 ^ f.emax := by
      rw [abs_of_nonneg (nearest_nonneg hy.le), hmax]
      have : (0 : ℝ) < 2 ^ (f.emax - 3) := zpow_pos two_pos _
      linarith
    exact ⟨f.nearest y, if_pos hfin, nearest_nonneg hy.le,
      h.trans hnear (by linarith) (by linarith)⟩

/-- Many factors are still close to one. -/
lemma pow_unit_ge (f : Format) (n : ℕ) (hp : 1 ≤ f.prec) : 1 - n * f.unit ≤ (1 - f.unit) ^ n := by
  have hhalf := unit_le_half hp
  have h := one_add_mul_le_pow (a := -f.unit) (by linarith) n
  rwa [mul_neg, ← sub_eq_add_neg, ← sub_eq_add_neg] at h

end FmhaNative.Ieee
