import FmhaNative.ExactFloat

/-!
Rounding to a binary format of IEEE 754, to nearest and ties to even: what a `float` or a
`double` keeps of an exact result. Zero carries no sign.
-/

namespace FmhaNative.Ieee

open XReal

/-! ### Integers -/

/-- The nearest integer, the even one of two. -/
noncomputable def nearestEven (x : ℝ) : ℤ :=
  if x - ⌊x⌋ < 1 / 2 then ⌊x⌋
  else if 1 / 2 < x - ⌊x⌋ then ⌊x⌋ + 1
  else if Even ⌊x⌋ then ⌊x⌋ else ⌊x⌋ + 1

variable {x : ℝ} {n : ℤ}

lemma nearestEven_le (h : x ≤ n) : nearestEven x ≤ n := by
  have hfloor : ⌊x⌋ ≤ n := Int.cast_le.mp ((Int.floor_le x).trans h)
  -- above the floor the next integer is still no more than `n`
  have hnext : ¬ x - ⌊x⌋ < 1 / 2 → ⌊x⌋ + 1 ≤ n := by
    intro hx
    have hlt : (⌊x⌋ : ℝ) < n := by linarith
    exact Int.cast_lt.mp hlt
  unfold nearestEven
  split_ifs with h1
  · exact hfloor
  · exact hnext h1
  · exact hfloor
  · exact hnext h1

lemma le_nearestEven (h : n ≤ x) : n ≤ nearestEven x := by
  have hfloor : n ≤ ⌊x⌋ := Int.le_floor.mpr h
  unfold nearestEven
  split_ifs <;> omega

lemma nearestEven_nonneg (h : 0 ≤ x) : 0 ≤ nearestEven x :=
  le_nearestEven (by exact_mod_cast h)

/-! ### Formats -/

/-- `prec` significant bits, the last one never below `2 ^ emin`, and numbers below `2 ^ emax`. -/
structure Format where
  prec : ℕ
  (emin emax : ℤ)

def binary32 : Format := ⟨24, -149, 128⟩
def binary64 : Format := ⟨53, -1074, 1024⟩

variable {f : Format} {r : ℝ}

/-- The exponent of the last place of `r`. -/
noncomputable def Format.ulpExp (f : Format) (r : ℝ) : ℤ := max (Int.log 2 |r| - (f.prec - 1)) f.emin

/-- The rounded number, before the overflow. -/
noncomputable def Format.nearest (f : Format) (r : ℝ) : ℝ :=
  nearestEven (r / 2 ^ f.ulpExp r) * 2 ^ f.ulpExp r

open Classical in
noncomputable def Format.round (f : Format) : XReal → XReal
  | fin r => if |f.nearest r| < 2 ^ f.emax then fin (f.nearest r) else inf (decide (r < 0))
  | x => x

lemma round_ne_nan {x : XReal} (hx : x ≠ nan) : f.round x ≠ nan := by
  rcases x with _ | s | r
  · exact absurd rfl hx
  · exact hx
  · simp only [Format.round]
    split_ifs <;> simp

lemma nearest_nonneg (h : 0 ≤ r) : 0 ≤ f.nearest r := by
  have hpow : (0 : ℝ) < 2 ^ f.ulpExp r := by positivity
  have hn := nearestEven_nonneg (div_nonneg h hpow.le)
  exact mul_nonneg (by exact_mod_cast hn) hpow.le

lemma ulpExp_le {k : ℤ} (hk : f.emin ≤ k) (hr : r ≠ 0) (h : |r| < 2 ^ k * 2 ^ f.prec) :
    f.ulpExp r ≤ k := by
  have hlog : Int.log 2 |r| < k + f.prec := by
    refine (Int.lt_zpow_iff_log_lt one_lt_two (abs_pos.mpr hr)).mp ?_
    rwa [Nat.cast_ofNat, zpow_add₀ two_ne_zero, zpow_natCast]
  exact max_le (by omega) hk

/-- A unit no smaller than the last place is a number of last places. -/
lemma exists_places {k : ℤ} (hk : f.ulpExp r ≤ k) (n : ℤ) :
    ∃ m : ℤ, (n : ℝ) * 2 ^ k = m * 2 ^ f.ulpExp r := by
  obtain ⟨c, hc⟩ : ∃ c : ℕ, k = f.ulpExp r + c := ⟨(k - f.ulpExp r).toNat, by omega⟩
  refine ⟨n * 2 ^ c, ?_⟩
  rw [hc, zpow_add₀ two_ne_zero, zpow_natCast]
  push_cast
  ring

/-- Rounding does not cross a number of the format. -/
lemma nearest_le {k n : ℤ} (hk : f.ulpExp r ≤ k) (h : r ≤ n * 2 ^ k) : f.nearest r ≤ n * 2 ^ k := by
  have hpow : (0 : ℝ) < 2 ^ f.ulpExp r := by positivity
  obtain ⟨m, hm⟩ := exists_places hk n
  rw [hm] at h ⊢
  have hround := nearestEven_le ((div_le_iff₀ hpow).mpr h)
  exact mul_le_mul_of_nonneg_right (by exact_mod_cast hround) hpow.le

lemma le_nearest {k n : ℤ} (hk : f.ulpExp r ≤ k) (h : n * 2 ^ k ≤ r) : n * 2 ^ k ≤ f.nearest r := by
  have hpow : (0 : ℝ) < 2 ^ f.ulpExp r := by positivity
  obtain ⟨m, hm⟩ := exists_places hk n
  rw [hm] at h ⊢
  have hround := le_nearestEven ((le_div_iff₀ hpow).mpr h)
  exact mul_le_mul_of_nonneg_right (by exact_mod_cast hround) hpow.le

lemma nearest_zero : f.nearest 0 = 0 := by
  have hzero : nearestEven 0 = 0 := by norm_num [nearestEven]
  rw [Format.nearest, zero_div, hzero, Int.cast_zero, zero_mul]

lemma round_zero : f.round (fin 0) = fin 0 := by
  have h : |f.nearest 0| < 2 ^ f.emax := by
    rw [nearest_zero, abs_zero]
    positivity
  simp only [Format.round]
  rw [if_pos h, nearest_zero]

/-- A bound of `n` units `2 ^ k` stays, and the rounded number does not overflow. -/
lemma round_within {n : ℕ} {k : ℤ} (hk : f.emin ≤ k) (hn : n < 2 ^ f.prec)
    (hmax : (n : ℝ) * 2 ^ k < 2 ^ f.emax) (h : |r| ≤ n * 2 ^ k) :
    ∃ y, f.round (fin r) = fin y ∧ |y| ≤ n * 2 ^ k := by
  have hle : |f.nearest r| ≤ n * 2 ^ k := by
    rcases eq_or_ne r 0 with rfl | hr
    · rw [nearest_zero, abs_zero]
      positivity
    · have hexp : f.ulpExp r ≤ k := by
        refine ulpExp_le hk hr (h.trans_lt ?_)
        rw [mul_comm]
        exact mul_lt_mul_of_pos_left (by exact_mod_cast hn) (by positivity)
      obtain ⟨h1, h2⟩ := abs_le.mp h
      have hlow := le_nearest (n := -n) hexp (by push_cast; linarith)
      have hhigh := nearest_le (n := n) hexp (by push_cast; exact h2)
      push_cast at hlow hhigh
      exact abs_le.mpr ⟨by linarith, hhigh⟩
  exact ⟨f.nearest r, if_pos (hle.trans_lt hmax), hle⟩

lemma not_round_lt_zero (h : 0 ≤ r) : ¬ lt (f.round (fin r)) (fin 0) := by
  simp only [Format.round]
  split_ifs with hlt
  · exact not_lt.mpr (nearest_nonneg h)
  · rw [decide_eq_false (not_lt.mpr h)]
    exact id

/-- A number of at least one last place does not vanish. -/
lemma zero_lt_round {k : ℤ} (hk : f.emin ≤ k) (h : 2 ^ k ≤ r) (h' : r < 2 ^ k * 2 ^ f.prec) :
    lt (fin 0) (f.round (fin r)) := by
  have hpow : (0 : ℝ) < 2 ^ k := by positivity
  have hr : 0 < r := hpow.trans_le h
  have hexp := ulpExp_le hk hr.ne' (by rwa [abs_of_pos hr])
  have hle := le_nearest (n := 1) hexp (by rw [Int.cast_one, one_mul]; exact h)
  rw [Int.cast_one, one_mul] at hle
  simp only [Format.round]
  split_ifs with hlt
  · exact hpow.trans_le hle
  · rw [decide_eq_false (not_lt.mpr hr.le)]
    trivial

end FmhaNative.Ieee
