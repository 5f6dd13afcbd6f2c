import FmhaNative.Ieee

/-!
How far rounding moves a number: half a last place, which is a small part of the number unless it is
below the least unit of the format; and the square of a rounded square root.
-/

namespace FmhaNative.Ieee

variable {x : ℝ} {n : ℤ}

lemma abs_nearestEven_sub_le (x : ℝ) : |nearestEven x - x| ≤ 1 / 2 := by
  have h0 := Int.floor_le x
  have h1 := Int.lt_floor_add_one x
  unfold nearestEven
  rw [abs_le]
  split_ifs <;> push_cast <;> constructor <;> linarith

/-- Closer than a half to an integer, a number rounds to it. -/
lemma nearestEven_eq (h : |x - n| < 1 / 2) : nearestEven x = n := by
  have hround := abs_nearestEven_sub_le x
  rw [abs_lt] at h
  rw [abs_le] at hround
  have hlo : ((n - 1 : ℤ) : ℝ) < nearestEven x := by
    push_cast
    linarith
  have hhi : (nearestEven x : ℝ) < (n + 1 : ℤ) := by
    push_cast
    linarith
  have := Int.cast_lt.mp hlo
  have := Int.cast_lt.mp hhi
  omega

variable {f : Format} {r s : ℝ}

/-- The unit roundoff. -/
noncomputable def Format.unit (f : Format) : ℝ := 2 ^ (-(f.prec : ℤ))

lemma unit_pos : 0 < f.unit := zpow_pos two_pos _

lemma unit_le_half (hp : 1 ≤ f.prec) : f.unit ≤ 1 / 2 := by
  calc f.unit ≤ 2 ^ (-1 : ℤ) := zpow_le_zpow_right₀ one_le_two (by omega)
    _ = 1 / 2 := by norm_num

/-- Rounding moves a number by half a last place. -/
lemma abs_nearest_sub_le (f : Format) (r : ℝ) : |f.nearest r - r| ≤ 2 ^ f.ulpExp r / 2 := by
  have hpow : (0 : ℝ) < 2 ^ f.ulpExp r := zpow_pos two_pos _
  have h := abs_nearestEven_sub_le (r / 2 ^ f.ulpExp r)
  have hfactor : f.nearest r - r
      = (nearestEven (r / 2 ^ f.ulpExp r) - r / 2 ^ f.ulpExp r) * 2 ^ f.ulpExp r := by
    rw [sub_mul, div_mul_cancel₀ _ hpow.ne']
    rfl
  rw [hfactor, abs_mul, abs_of_pos hpow]
  calc |nearestEven (r / 2 ^ f.ulpExp r) - r / 2 ^ f.ulpExp r| * 2 ^ f.ulpExp r
      ≤ 1 / 2 * 2 ^ f.ulpExp r := mul_le_mul_of_nonneg_right h hpow.le
    _ = 2 ^ f.ulpExp r / 2 := by ring

/-- All significant bits of the number fit above the least unit. -/
def Format.Normal (f : Format) (r : ℝ) : Prop := f.ulpExp r = Int.log 2 |r| - (f.prec - 1)

lemma normal_or (f : Format) (r : ℝ) : f.Normal r ∨ f.ulpExp r = f.emin := max_choice _ _

/-- Of a normal number, half a last place is a small part. -/
lemma abs_nearest_sub_le_unit (hr : 0 < r) (h : f.Normal r) : |f.nearest r - r| ≤ f.unit * r := by
  rw [Format.Normal, abs_of_pos hr] at h
  have hlog : (2 : ℝ) ^ Int.log 2 r ≤ r := by
    have := Int.zpow_log_le_self (b := 2) one_lt_two hr
    exact_mod_cast this
  have hexp : f.ulpExp r = -(f.prec : ℤ) + Int.log 2 r + 1 := by
    rw [h]
    ring
  calc |f.nearest r - r| ≤ 2 ^ f.ulpExp r / 2 := abs_nearest_sub_le f r
    _ = f.unit * 2 ^ Int.log 2 r := by
        rw [hexp, zpow_add_one₀ two_ne_zero, mul_div_assoc, div_self two_ne_zero, mul_one,
          zpow_add₀ two_ne_zero, Format.unit]
    _ ≤ f.unit * r := mul_le_mul_of_nonneg_left hlog unit_pos.le

/-- A rounded number is a number of least units. -/
lemma exists_units (f : Format) (r : ℝ) : ∃ n : ℤ, f.nearest r = n * 2 ^ f.emin := by
  obtain ⟨c, hc⟩ : ∃ c : ℕ, f.ulpExp r = f.emin + c :=
    ⟨(f.ulpExp r - f.emin).toNat, by
      have : f.emin ≤ f.ulpExp r := le_max_right _ _
      omega⟩
  refine ⟨nearestEven (r / 2 ^ f.ulpExp r) * 2 ^ c, ?_⟩
  rw [Format.nearest]
  nth_rewrite 2 [hc]
  rw [zpow_add₀ two_ne_zero, zpow_natCast]
  push_cast
  ring

/-- The root of a number not below the least unit is normal. -/
lemma normal_sqrt (hf : f.emin + 2 * f.prec ≤ 0) (hs : 2 ^ f.emin ≤ s) : f.Normal √s := by
  have hpos : 0 < s := (zpow_pos two_pos _).trans_le hs
  have hlog : √s < 2 ^ (Int.log 2 √s + 1) := by
    have := Int.lt_zpow_succ_log_self (b := 2) one_lt_two √s
    exact_mod_cast this
  have hsq : s < 2 ^ (2 * (Int.log 2 √s + 1)) := by
    rw [two_mul, zpow_add₀ two_ne_zero]
    calc s = √s * √s := (Real.mul_self_sqrt hpos.le).symm
      _ < _ := mul_lt_mul'' hlog hlog (Real.sqrt_nonneg _) (Real.sqrt_nonneg _)
  have hexp : f.emin < 2 * (Int.log 2 √s + 1) :=
    (zpow_lt_zpow_iff_right₀ one_lt_two).mp (hs.trans_lt hsq)
  unfold Format.Normal Format.ulpExp
  rw [abs_of_pos (Real.sqrt_pos.mpr hpos)]
  omega

/-- A square of a rounded root is close to the number. -/
lemma abs_sq_nearest_sqrt_sub_le (hf : f.emin + 2 * f.prec ≤ 0) (hp : 1 ≤ f.prec)
    (hs : 2 ^ f.emin ≤ s) : |f.nearest √s * f.nearest √s - s| ≤ 3 * f.unit * s := by
  have hpos : 0 < s := (zpow_pos two_pos _).trans_le hs
  have hroot := Real.sqrt_pos.mpr hpos
  have hsq := Real.mul_self_sqrt hpos.le
  have hu := unit_pos (f := f)
  have hhalf := unit_le_half hp
  have herr := abs_nearest_sub_le_unit hroot (normal_sqrt hf hs)
  rw [abs_le] at herr ⊢
  obtain ⟨h1, h2⟩ := herr
  have hlo : (1 - f.unit) * √s ≤ f.nearest √s := by linarith
  have hhi : f.nearest √s ≤ (1 + f.unit) * √s := by linarith
  have hlo0 : 0 ≤ (1 - f.unit) * √s := mul_nonneg (by linarith) hroot.le
  have hlo2 : (1 - f.unit) * (1 - f.unit) * s ≤ f.nearest √s * f.nearest √s := by
    calc (1 - f.unit) * (1 - f.unit) * s = (1 - f.unit) * (1 - f.unit) * (√s * √s) := by rw [hsq]
      _ = (1 - f.unit) * √s * ((1 - f.unit) * √s) := by ring
      _ ≤ _ := mul_le_mul hlo hlo hlo0 (hlo0.trans hlo)
  have hhi2 : f.nearest √s * f.nearest √s ≤ (1 + f.unit) * (1 + f.unit) * s := by
    calc f.nearest √s * f.nearest √s ≤ (1 + f.unit) * √s * ((1 + f.unit) * √s) :=
          mul_le_mul hhi hhi (hlo0.trans hlo) (hlo0.trans (hlo.trans hhi))
      _ = (1 + f.unit) * (1 + f.unit) * (√s * √s) := by ring
      _ = _ := by rw [hsq]
  constructor <;> nlinarith [mul_pos hu hpos, mul_pos (mul_pos hu hu) hpos]

/-- **The rounded square of a rounded root**, of a number of least units. -/
lemma abs_nearest_sq_sqrt_sub_le (hf : f.emin + 2 * f.prec ≤ 0) (hp : 1 ≤ f.prec) {n : ℤ}
    (hn : 0 < n) (hs : s = n * 2 ^ f.emin) :
    |f.nearest (f.nearest √s * f.nearest √s) - s| ≤ 8 * f.unit * s := by
  have hpow : (0 : ℝ) < 2 ^ f.emin := zpow_pos two_pos _
  have hn1 : (1 : ℝ) ≤ n := by exact_mod_cast hn
  have hle : 2 ^ f.emin ≤ s := by
    rw [hs]
    exact le_mul_of_one_le_left hpow.le hn1
  have hpos : 0 < s := hpow.trans_le hle
  have hu := unit_pos (f := f)
  have hhalf := unit_le_half hp
  have hsq := abs_sq_nearest_sqrt_sub_le hf hp hle
  set w := f.nearest √s * f.nearest √s
  rcases normal_or f w with hnorm | hemin
  · rcases eq_or_lt_of_le (mul_self_nonneg (f.nearest √s)) with h0 | hw
    · have hw0 : w = 0 := h0.symm
      rw [hw0, nearest_zero]
      rw [hw0] at hsq
      exact hsq.trans (by nlinarith [mul_pos hu hpos])
    · have herr := abs_nearest_sub_le_unit hw hnorm
      have htri := abs_sub_le (f.nearest w) w s
      have hus : f.unit * s ≤ 1 / 2 * s := mul_le_mul_of_nonneg_right hhalf hpos.le
      have hwle : w ≤ 5 / 2 * s := by
        have := (abs_le.mp hsq).2
        linarith
      have huw : f.unit * w ≤ f.unit * (5 / 2 * s) := mul_le_mul_of_nonneg_left hwle hu.le
      have := mul_pos hu hpos
      linarith
  · -- below the normal numbers, the square is within half a unit, or the number is large
    have hw : w / 2 ^ f.ulpExp w - n = (w - s) / 2 ^ f.emin := by
      rw [hemin, hs, sub_div, mul_div_cancel_right₀ _ hpow.ne']
    by_cases hclose : |w / 2 ^ f.ulpExp w - n| < 1 / 2
    · have hround := nearestEven_eq hclose
      rw [Format.nearest, hround, hemin, ← hs, sub_self, abs_zero]
      positivity
    · have hfar : 2 ^ f.emin / 2 ≤ |w - s| := by
        rw [hw, abs_div, abs_of_pos hpow, not_lt, le_div_iff₀ hpow] at hclose
        linarith
      have herr := abs_nearest_sub_le f w
      rw [hemin] at herr
      have htri := abs_sub_le (f.nearest w) w s
      nlinarith [mul_pos hu hpos]

end FmhaNative.Ieee
