import FmhaNative.FloatFields
import FmhaNative.OpLds
import FmhaNative.TruncatedOutputs

/-!
bf16 on the bits: the conversions of the sources as shifts, what a `float` keeps when its lower half
is dropped, and `v_perm_b32` byte by byte.
-/

namespace FmhaNative.Bf16Bits

open FloatFields TruncatedOutputs OpLds
open CpuVerify (bf16ToFloat)
open XReal (fin inf nan)

/-! ### The conversions -/

/-- `float_to_bf16` and `f32_to_bf16_trunc`: `(uint16_t)(u >> 16)` -/
def floatToBf16 (u : BitVec 32) : BitVec 16 := (u >>> 16).setWidth 16

/-- `bf16_to_float` and `bf16_to_f32`, on the bits: `(uint32_t)b << 16` -/
def floatBits (b : BitVec 16) : BitVec 32 := b.setWidth 32 <<< 16

/-- What the bits of a `float` stand for: one sign bit, eight of exponent and 23 of fraction. -/
noncomputable def floatValue (u : BitVec 32) : XReal :=
  let exponent := (u.extractLsb' 23 8).toNat
  let fraction := (u.extractLsb' 0 23).toNat
  if exponent = 255 then if fraction = 0 then inf u.msb else nan
  else
    let magnitude : ℝ := if exponent = 0 then fraction * 2 ^ (-149 : ℤ)
      else (8388608 + fraction : ℕ) * 2 ^ (exponent - 150 : ℤ)
    fin (if u.msb then -magnitude else magnitude)

/-- What a word stands for: its sign, and the fields above `w` bits of fraction. -/
noncomputable def fieldsValue (w : ℕ) (sign : Bool) (m : ℕ) : XReal :=
  if m / 2 ^ w = 255 then if m % 2 ^ w = 0 then inf sign else nan
  else
    let r : ℝ := magnitude w m * 2 ^ (-126 - w : ℤ)
    fin (if sign then -r else r)

/-- The word without its sign. -/
def fields32 (u : BitVec 32) : ℕ := u.toNat % 2 ^ 31
def fields16 (b : BitVec 16) : ℕ := b.toNat % 2 ^ 15

/-- The two cases of the magnitude, in units of one. -/
lemma magnitude_cast (w m : ℕ) :
    (magnitude w m : ℝ) * 2 ^ (-126 - w : ℤ)
      = if m / 2 ^ w = 0 then ((m % 2 ^ w : ℕ) : ℝ) * 2 ^ (-126 - w : ℤ)
        else ((2 ^ w + m % 2 ^ w : ℕ) : ℝ) * 2 ^ (((m / 2 ^ w : ℕ) : ℤ) - (127 + w)) := by
  unfold magnitude
  split_ifs with h0
  · rfl
  · have hexp : ((m / 2 ^ w - 1 : ℕ) : ℤ) = (m / 2 ^ w : ℕ) - 1 :=
      Nat.cast_pred (Nat.pos_of_ne_zero h0)
    rw [Nat.cast_mul, mul_assoc, Nat.cast_pow 2 (_ - 1), Nat.cast_ofNat,
      ← zpow_natCast (2 : ℝ) (m / 2 ^ w - 1), ← zpow_add₀ two_ne_zero, hexp]
    congr 2
    ring

lemma floatValue_eq (u : BitVec 32) : floatValue u = fieldsValue 23 u.msb (fields32 u) := by
  have hexp : (u.extractLsb' 23 8).toNat = fields32 u / 2 ^ 23 := by
    rw [BitVec.extractLsb'_toNat, Nat.shiftRight_eq_div_pow, fields32]
    omega
  have hfrac : (u.extractLsb' 0 23).toNat = fields32 u % 2 ^ 23 := by
    rw [BitVec.extractLsb'_toNat, Nat.shiftRight_eq_div_pow, fields32]
    omega
  have h := magnitude_cast 23 (fields32 u)
  norm_num only at h
  simp only [floatValue, fieldsValue, hexp, hfrac]
  norm_num only [h]

lemma bf16ToFloat_eq (b : BitVec 16) : bf16ToFloat b = fieldsValue 7 b.msb (fields16 b) := by
  have hexp : (b.extractLsb' 7 8).toNat = fields16 b / 2 ^ 7 := by
    rw [BitVec.extractLsb'_toNat, Nat.shiftRight_eq_div_pow, fields16]
    omega
  have hfrac : (b.extractLsb' 0 7).toNat = fields16 b % 2 ^ 7 := by
    rw [BitVec.extractLsb'_toNat, Nat.shiftRight_eq_div_pow, fields16]
    omega
  have h := magnitude_cast 7 (fields16 b)
  norm_num only at h
  simp only [bf16ToFloat, fieldsValue, hexp, hfrac]
  norm_num only [h]

/-! ### The conversions, on the fields -/

lemma fields16_floatToBf16 (u : BitVec 32) : fields16 (floatToBf16 u) = fields32 u / 2 ^ 16 := by
  rw [fields16, fields32, floatToBf16, BitVec.toNat_setWidth, BitVec.toNat_ushiftRight,
    Nat.shiftRight_eq_div_pow]
  omega

lemma msb_floatToBf16 (u : BitVec 32) : (floatToBf16 u).msb = u.msb := by
  rw [BitVec.msb_eq_decide, BitVec.msb_eq_decide, floatToBf16, BitVec.toNat_setWidth,
    BitVec.toNat_ushiftRight, Nat.shiftRight_eq_div_pow, decide_eq_decide]
  have := u.isLt
  omega

lemma toNat_floatBits (b : BitVec 16) : (floatBits b).toNat = b.toNat * 2 ^ 16 := by
  have := b.isLt
  rw [floatBits, BitVec.toNat_shiftLeft, BitVec.toNat_setWidth, Nat.shiftLeft_eq]
  omega

lemma fields32_floatBits (b : BitVec 16) : fields32 (floatBits b) = fields16 b * 2 ^ 16 := by
  rw [fields16, fields32, toNat_floatBits]
  omega

lemma msb_floatBits (b : BitVec 16) : (floatBits b).msb = b.msb := by
  rw [BitVec.msb_eq_decide, BitVec.msb_eq_decide, toNat_floatBits, decide_eq_decide]
  omega

/-! ### What truncation keeps -/

/-- `k` is `x` rounded toward zero: no bf16 between them, and less than one part in 128 lost of a
normal number. -/
structure TowardZero (x k : ℝ) : Prop where
  sign : 0 ≤ x * k
  le : |k| ≤ |x|
  greatest : ∀ (b : BitVec 16) (k' : ℝ), bf16ToFloat b = fin k' → |k'| ≤ |x| → |k'| ≤ |k|
  normal : 2 ^ (-126 : ℤ) ≤ |x| → Truncated x k
  subnormal : |x| < 2 ^ (-126 : ℤ) → |x - k| < 2 ^ (-133 : ℤ)

lemma TowardZero.neg {x k : ℝ} (h : TowardZero x k) : TowardZero (-x) (-k) where
  sign := by
    rw [neg_mul_neg]
    exact h.sign
  le := by
    rw [abs_neg, abs_neg]
    exact h.le
  greatest b k' hb := by
    rw [abs_neg, abs_neg]
    exact h.greatest b k' hb
  normal := by
    rw [abs_neg]
    intro hx
    obtain ⟨δ, h0, h1, hk⟩ := h.normal hx
    exact ⟨δ, h0, h1, by rw [hk, mul_neg]⟩
  subnormal := by
    rw [abs_neg, neg_sub_neg, abs_sub_comm]
    exact h.subnormal

/-- A magnitude of bf16, in units of `float`. -/
lemma bf16_units (n : ℕ) : (n : ℝ) * 2 ^ (-133 : ℤ) = (n * 2 ^ 16 : ℕ) * 2 ^ (-149 : ℤ) := by
  have hunit : (2 : ℝ) ^ (-133 : ℤ) = 2 ^ 16 * 2 ^ (-149 : ℤ) := by
    rw [← zpow_natCast, ← zpow_add₀ two_ne_zero]
    norm_num
  rw [hunit, ← mul_assoc, Nat.cast_mul, Nat.cast_pow, Nat.cast_ofNat]

/-- The finite values, by their magnitudes. -/
lemma fieldsValue_fin {w : ℕ} {s : Bool} {m : ℕ} {x : ℝ} (h : fieldsValue w s m = fin x) :
    m / 2 ^ w ≠ 255 ∧ |x| = magnitude w m * 2 ^ (-126 - w : ℤ) ∧
      x = if s then -|x| else |x| := by
  rw [fieldsValue] at h
  split_ifs at h with h255 h0 hs
  all_goals
    obtain rfl := fin.inj h
    refine ⟨h255, ?_, ?_⟩
  · rw [abs_neg, abs_of_nonneg (by positivity)]
  · rw [if_pos hs, abs_neg, abs_of_nonneg (by positivity)]
  · rw [abs_of_nonneg (by positivity)]
  · rw [if_neg hs, abs_of_nonneg (by positivity)]

lemma bf16ToFloat_abs {b : BitVec 16} {k : ℝ} (hb : bf16ToFloat b = fin k) :
    |k| = (magnitude 7 (fields16 b) * 2 ^ 16 : ℕ) * 2 ^ (-149 : ℤ) := by
  rw [bf16ToFloat_eq] at hb
  rw [(fieldsValue_fin hb).2.1, ← bf16_units]
  norm_num only

/-- A `float` is normal when its exponent field is not zero. -/
lemma normal_iff (m : ℕ) : 2 ^ 23 ≤ magnitude 23 m ↔ m / 2 ^ 23 ≠ 0 := by
  refine ⟨fun h h0 => ?_, fun h => ?_⟩
  · rw [magnitude, if_pos h0] at h
    exact absurd h (not_le.mpr (Nat.mod_lt _ (Nat.two_pow_pos 23)))
  · exact le_trans (Nat.le_mul_of_pos_right _ (Nat.two_pow_pos _)) (pow_le_magnitude h)

/-- The magnitude of a `float` with its lower half dropped. -/
lemma towardZero_magnitude (m : ℕ) :
    TowardZero (magnitude 23 m * 2 ^ (-149 : ℤ)) (magnitude 7 (m / 2 ^ 16) * 2 ^ (-133 : ℤ)) := by
  have hle : magnitude 7 (m / 2 ^ 16) * 2 ^ 16 ≤ magnitude 23 m := magnitude_div_le 7 16 m
  have hle' : ((magnitude 7 (m / 2 ^ 16) * 2 ^ 16 : ℕ) : ℝ) ≤ magnitude 23 m := by exact_mod_cast hle
  have hmin : (2 : ℝ) ^ (-126 : ℤ) = (2 ^ 23 : ℕ) * 2 ^ (-149 : ℤ) := by
    rw [Nat.cast_pow, Nat.cast_ofNat, ← zpow_natCast, ← zpow_add₀ two_ne_zero]
    norm_num
  have hunit : (0 : ℝ) < 2 ^ (-149 : ℤ) := zpow_pos two_pos _
  rw [bf16_units]
  constructor
  case sign => positivity
  case le =>
    rw [abs_of_nonneg (by positivity), abs_of_nonneg (by positivity)]
    exact mul_le_mul_of_nonneg_right hle' hunit.le
  case greatest =>
    intro b k' hb
    rw [bf16ToFloat_abs hb, abs_of_nonneg (by positivity), abs_of_nonneg (by positivity),
      mul_le_mul_iff_of_pos_right hunit, mul_le_mul_iff_of_pos_right hunit, Nat.cast_le, Nat.cast_le]
    intro h
    exact Nat.mul_le_mul_right _ ((magnitude_strictMono 7).monotone
      ((magnitude_le_iff (w := 7) (n := 16)).mp h))
  case normal =>
    rw [abs_of_nonneg (by positivity), hmin, mul_le_mul_iff_of_pos_right hunit, Nat.cast_le, normal_iff]
    intro h
    have hlost : 2 ^ 7 * magnitude 23 m
        ≤ 2 ^ 7 * (magnitude 7 (m / 2 ^ 16) * 2 ^ 16) + magnitude 23 m := magnitude_lost (w := 7) (n := 16) h
    have hpos : (0 : ℝ) < magnitude 23 m :=
      Nat.cast_pos.mpr (lt_of_lt_of_le (Nat.two_pow_pos 23) ((normal_iff m).mpr h))
    have hlost' : 2 ^ 7 * (magnitude 23 m : ℝ)
        ≤ 2 ^ 7 * (magnitude 7 (m / 2 ^ 16) * 2 ^ 16 : ℕ) + magnitude 23 m := by exact_mod_cast hlost
    refine truncated_iff.mpr ⟨1 - (magnitude 7 (m / 2 ^ 16) * 2 ^ 16 : ℕ) / magnitude 23 m, ?_, ?_, ?_⟩
    · rw [sub_nonneg, div_le_one hpos]
      exact hle'
    · rw [sub_le_comm, le_div_iff₀ hpos]
      linarith
    · rw [sub_sub_cancel, ← mul_assoc, div_mul_cancel₀ _ hpos.ne']
  case subnormal =>
    rw [abs_of_nonneg (by positivity), hmin, mul_lt_mul_iff_of_pos_right hunit, Nat.cast_lt, ← not_le,
      normal_iff, not_not]
    intro h
    have hlt : magnitude 23 m < (magnitude 7 (m / 2 ^ 16) + 2 ^ (m / 2 ^ 23 - 1)) * 2 ^ 16 :=
      magnitude_lt_div 7 16 m
    rw [h, Nat.zero_sub, pow_zero, add_mul, one_mul] at hlt
    have hlt' : (magnitude 23 m : ℝ) < (magnitude 7 (m / 2 ^ 16) * 2 ^ 16 : ℕ) + (2 ^ 16 : ℕ) := by
      exact_mod_cast hlt
    have hone : (2 : ℝ) ^ (-133 : ℤ) = (2 ^ 16 : ℕ) * 2 ^ (-149 : ℤ) := by
      have := bf16_units 1
      rwa [Nat.cast_one, one_mul, one_mul] at this
    rw [← sub_mul, abs_of_nonneg (mul_nonneg (sub_nonneg.mpr hle') hunit.le), hone,
      mul_lt_mul_iff_of_pos_right hunit]
    linarith

/-! ### The format, for numbers that need not be `float`s -/

/-- The fields of the largest finite bf16 that is no larger than `x`. -/
noncomputable def fieldsBelow (x : ℝ) : ℕ :=
  Nat.findGreatest (fun m => magnitude 7 m * 2 ^ (-133 : ℤ) ≤ x) 0x7F7F

/-- `x` without what a bf16 has no room for. -/
noncomputable def bf16Trunc (x : ℝ) : ℝ :=
  if x < 0 then -(magnitude 7 (fieldsBelow |x|) * 2 ^ (-133 : ℤ))
  else magnitude 7 (fieldsBelow |x|) * 2 ^ (-133 : ℤ)

noncomputable def bf16Below (x : ℝ) : BitVec 16 :=
  BitVec.ofNat 16 (fieldsBelow |x| + if x < 0 then 0x8000 else 0)

lemma fieldsBelow_le (x : ℝ) : fieldsBelow x ≤ 0x7F7F := Nat.findGreatest_le _

lemma magnitude_fieldsBelow {x : ℝ} (hx : 0 ≤ x) :
    (magnitude 7 (fieldsBelow x) : ℝ) * 2 ^ (-133 : ℤ) ≤ x := by
  have h0 : (magnitude 7 0 : ℝ) * 2 ^ (-133 : ℤ) ≤ x := by
    rw [show magnitude 7 0 = 0 from rfl, Nat.cast_zero, zero_mul]
    exact hx
  exact Nat.findGreatest_spec (P := fun m => (magnitude 7 m : ℝ) * 2 ^ (-133 : ℤ) ≤ x)
    (Nat.zero_le _) h0

lemma le_fieldsBelow {x : ℝ} {m : ℕ} (hm : m ≤ 0x7F7F)
    (h : (magnitude 7 m : ℝ) * 2 ^ (-133 : ℤ) ≤ x) : m ≤ fieldsBelow x :=
  Nat.le_findGreatest (P := fun m => (magnitude 7 m : ℝ) * 2 ^ (-133 : ℤ) ≤ x) hm h

/-- The first magnitude that is not finite is `2 ^ 128`. -/
lemma magnitude_top : (magnitude 7 (0x7F7F + 1) : ℝ) * 2 ^ (-133 : ℤ) = 2 ^ (128 : ℤ) := by
  have h : magnitude 7 (255 * 2 ^ 7 + 0) = 2 ^ (7 + 254) := by
    rw [magnitude_add (Nat.two_pow_pos 7), if_neg (by norm_num), add_zero, pow_add]
  rw [show 0x7F7F + 1 = 255 * 2 ^ 7 + 0 from rfl, h, Nat.cast_pow, Nat.cast_ofNat, ← zpow_natCast,
    ← zpow_add₀ two_ne_zero]
  norm_num

/-- The next magnitude is above a number in the range of the format. -/
lemma lt_magnitude_fieldsBelow {x : ℝ} (hx : x < 2 ^ (128 : ℤ)) :
    x < (magnitude 7 (fieldsBelow x + 1) : ℝ) * 2 ^ (-133 : ℤ) := by
  rcases lt_or_eq_of_le (fieldsBelow_le x) with hlt | htop
  · by_contra hc
    have := le_fieldsBelow (Nat.succ_le_of_lt hlt) (not_lt.mp hc)
    omega
  · rw [htop, magnitude_top]
    exact hx

/-- The bits that are kept stand for what is kept. -/
lemma bf16ToFloat_bf16Below (x : ℝ) : bf16ToFloat (bf16Below x) = fin (bf16Trunc x) := by
  have hle := fieldsBelow_le |x|
  have hnat : (bf16Below x).toNat = fieldsBelow |x| + if x < 0 then 0x8000 else 0 := by
    rw [bf16Below, BitVec.toNat_ofNat]
    split_ifs <;> omega
  have hfields : fields16 (bf16Below x) = fieldsBelow |x| := by
    rw [fields16, hnat]
    split_ifs <;> omega
  have hsign : (bf16Below x).msb = decide (x < 0) := by
    rw [BitVec.msb_eq_decide, hnat, decide_eq_decide]
    split_ifs with hneg
    · exact ⟨fun _ => hneg, fun _ => by omega⟩
    · exact ⟨fun h => by omega, fun h => absurd h hneg⟩
  have hexp : fieldsBelow |x| / 2 ^ 7 ≠ 255 := by omega
  rw [bf16ToFloat_eq, hfields, hsign, fieldsValue, if_neg hexp, bf16Trunc]
  norm_num only
  simp only [decide_eq_true_eq]

lemma towardZero_fieldsBelow {x : ℝ} (h0 : 0 ≤ x) (hx : x < 2 ^ (128 : ℤ)) :
    TowardZero x (magnitude 7 (fieldsBelow x) * 2 ^ (-133 : ℤ)) := by
  have hle := magnitude_fieldsBelow h0
  have hunit : (0 : ℝ) < 2 ^ (-133 : ℤ) := zpow_pos two_pos _
  have hmin : (magnitude 7 (2 ^ 7) : ℝ) * 2 ^ (-133 : ℤ) = 2 ^ (-126 : ℤ) := by
    norm_num [magnitude]
  have hkept : (0 : ℝ) ≤ magnitude 7 (fieldsBelow x) * 2 ^ (-133 : ℤ) := by positivity
  -- what is lost is less than the step to the next magnitude
  have hlost : x < (magnitude 7 (fieldsBelow x) : ℝ) * 2 ^ (-133 : ℤ)
      + (2 ^ (fieldsBelow x / 2 ^ 7 - 1) : ℕ) * 2 ^ (-133 : ℤ) := by
    have hlt := lt_magnitude_fieldsBelow hx
    rwa [magnitude_succ, Nat.cast_add, add_mul] at hlt
  constructor
  case sign => exact mul_nonneg h0 hkept
  case le =>
    rw [abs_of_nonneg hkept, abs_of_nonneg h0]
    exact hle
  case greatest =>
    intro b k' hb hk'
    rw [bf16ToFloat_eq] at hb
    obtain ⟨h255, hmag, -⟩ := fieldsValue_fin hb
    rw [show (-126 - (7 : ℕ) : ℤ) = -133 by norm_num] at hmag
    have hfields : fields16 b < 2 ^ 15 := Nat.mod_lt _ (Nat.two_pow_pos 15)
    have hfinite : fields16 b ≤ 0x7F7F := by omega
    rw [abs_of_nonneg h0, hmag] at hk'
    rw [hmag, abs_of_nonneg hkept]
    gcongr
    exact (magnitude_strictMono 7).monotone (le_fieldsBelow hfinite hk')
  case normal =>
    rw [abs_of_nonneg h0]
    intro hnormal
    have hm : 2 ^ 7 ≤ fieldsBelow x := le_fieldsBelow (by norm_num) (hmin.le.trans hnormal)
    have hpos : 0 < x := (zpow_pos two_pos _).trans_le hnormal
    have hlead : 128 * ((2 ^ (fieldsBelow x / 2 ^ 7 - 1) : ℕ) * (2 : ℝ) ^ (-133 : ℤ))
        ≤ magnitude 7 (fieldsBelow x) * 2 ^ (-133 : ℤ) := by
      have hnat : ((2 ^ 7 * 2 ^ (fieldsBelow x / 2 ^ 7 - 1) : ℕ) : ℝ) ≤ magnitude 7 (fieldsBelow x) := by
        exact_mod_cast pow_le_magnitude (w := 7) (m := fieldsBelow x) (by omega)
      rw [← mul_assoc]
      refine mul_le_mul_of_nonneg_right (le_trans (le_of_eq ?_) hnat) hunit.le
      push_cast
      norm_num
    generalize ((2 ^ (fieldsBelow x / 2 ^ 7 - 1) : ℕ) : ℝ) * 2 ^ (-133 : ℤ) = step at hlost hlead
    generalize (magnitude 7 (fieldsBelow x) : ℝ) * 2 ^ (-133 : ℤ) = kept at hle hkept hlost hlead ⊢
    refine truncated_iff.mpr ⟨1 - kept / x, ?_, ?_, ?_⟩
    · rw [sub_nonneg, div_le_one hpos]
      exact hle
    · rw [sub_le_comm, le_div_iff₀ hpos]
      linarith
    · rw [sub_sub_cancel, div_mul_cancel₀ _ hpos.ne']
  case subnormal =>
    rw [abs_of_nonneg h0]
    intro hsubn
    have hm : fieldsBelow x < 2 ^ 7 := by
      by_contra hc
      have hge : (magnitude 7 (2 ^ 7) : ℝ) * 2 ^ (-133 : ℤ)
          ≤ magnitude 7 (fieldsBelow x) * 2 ^ (-133 : ℤ) := by
        gcongr
        exact (magnitude_strictMono 7).monotone (not_lt.mp hc)
      linarith
    rw [Nat.div_eq_of_lt hm, Nat.zero_sub, pow_zero, Nat.cast_one, one_mul] at hlost
    rw [abs_of_nonneg (sub_nonneg.mpr hle)]
    linarith

/-- **The format rounds toward zero**, in its range. -/
lemma towardZero_bf16Trunc {x : ℝ} (hx : |x| < 2 ^ (128 : ℤ)) : TowardZero x (bf16Trunc x) := by
  have h := towardZero_fieldsBelow (abs_nonneg x) hx
  unfold bf16Trunc
  split_ifs with hneg
  · rw [abs_of_neg hneg] at h ⊢
    simpa only [neg_neg] using h.neg
  · rw [abs_of_nonneg (not_lt.mp hneg)] at h ⊢
    exact h

/-- Two roundings toward zero are one. -/
lemma TowardZero.unique {x k k' : ℝ} {b b' : BitVec 16} (h : TowardZero x k) (h' : TowardZero x k')
    (hb : bf16ToFloat b = fin k) (hb' : bf16ToFloat b' = fin k') : k = k' := by
  have habs : |k| = |k'| := le_antisymm (h'.greatest b k hb h.le) (h.greatest b' k' hb' h'.le)
  have hs := h.sign
  have hs' := h'.sign
  rcases lt_trichotomy x 0 with hneg | rfl | hpos
  · have hk : k ≤ 0 := nonpos_of_mul_nonneg_right hs hneg
    have hk' : k' ≤ 0 := nonpos_of_mul_nonneg_right hs' hneg
    rw [abs_of_nonpos hk, abs_of_nonpos hk'] at habs
    exact neg_inj.mp habs
  · have hk : k = 0 := abs_nonpos_iff.mp (h.le.trans abs_zero.le)
    have hk' : k' = 0 := abs_nonpos_iff.mp (h'.le.trans abs_zero.le)
    rw [hk, hk']
  · have hk : 0 ≤ k := nonneg_of_mul_nonneg_right hs hpos
    have hk' : 0 ≤ k' := nonneg_of_mul_nonneg_right hs' hpos
    rwa [abs_of_nonneg hk, abs_of_nonneg hk'] at habs

lemma fieldsBelow_zero : fieldsBelow 0 = 0 := by
  by_contra hne
  have hpos : 0 < magnitude 7 (fieldsBelow 0) := magnitude_strictMono 7 (Nat.pos_of_ne_zero hne)
  have hpos' : (0 : ℝ) < magnitude 7 (fieldsBelow 0) * 2 ^ (-133 : ℤ) := by positivity
  exact absurd (magnitude_fieldsBelow le_rfl) (not_le.mpr hpos')

lemma bf16Below_zero : bf16Below 0 = 0 := by
  rw [bf16Below, abs_zero, fieldsBelow_zero, if_neg (lt_irrefl 0)]
  rfl

lemma bf16Trunc_zero : bf16Trunc 0 = 0 := by
  have h : TowardZero 0 (bf16Trunc 0) := towardZero_bf16Trunc (by rw [abs_zero]; exact zpow_pos two_pos _)
  exact abs_nonpos_iff.mp (h.le.trans abs_zero.le)

/-- The storage format of the sources, for the numbers of exact arithmetic. -/
noncomputable def bf16Format : Bf16 XReal (BitVec 16) where
  toFloat := bf16ToFloat
  ofFloat
    | fin x => bf16Below x
    | inf s => if s then 0xFF80#16 else 0x7F80#16
    | nan => 0x7FC0#16
  toFloat_zero := by
    rw [← bf16Below_zero, bf16ToFloat_bf16Below, bf16Trunc_zero]
    rfl
  ofFloat_zero := bf16Below_zero

@[simp] lemma bf16Format_toFloat (b : BitVec 16) : bf16Format.toFloat b = bf16ToFloat b := rfl

/-! ### `v_perm_b32` -/

def byte (u : BitVec 32) (i : ℕ) : ℕ := u.toNat / 256 ^ i % 256

/-- One byte of the result: bytes 0..3 are those of `s1`, 4..7 those of `s0`; the further selectors
replicate the sign of every other byte, or are constants. -/
def permByte (s0 s1 : BitVec 32) (sel : ℕ) : ℕ :=
  if sel < 4 then byte s1 sel
  else if sel < 8 then byte s0 (sel - 4)
  else if sel < 12 then if 128 ≤ byte (if sel < 10 then s1 else s0) (sel % 2 * 2 + 1) then 255 else 0
  else if sel = 12 then 0
  else 255

/-- `__builtin_amdgcn_perm` -/
def amdgcnPerm (s0 s1 sel : BitVec 32) : BitVec 32 :=
  BitVec.ofNat 32 (permByte s0 s1 (byte sel 0) + 256 * permByte s0 s1 (byte sel 1)
    + 65536 * (permByte s0 s1 (byte sel 2) + 256 * permByte s0 s1 (byte sel 3)))

/-- `kFp32ToBf16Sel`, and `kBf16TruncSel` in the epilogue -/
def kFp32ToBf16Sel : BitVec 32 := 0x07060302

/-- A register as a pair of bf16. -/
def halves (u : BitVec 32) : Dword (BitVec 16) := ⟨u.setWidth 16, floatToBf16 u⟩

/-- A selector that moves whole halves. -/
def HalfSelector (sel : BitVec 32) : Prop :=
  ∃ j k, j < 4 ∧ k < 4 ∧ byte sel 0 = 2 * j ∧ byte sel 1 = 2 * j + 1 ∧ byte sel 2 = 2 * k ∧
    byte sel 3 = 2 * k + 1

/-- The selectors of the kernel. -/
lemma halfSelector_sel0 : HalfSelector (BitVec.ofNat 32 kPermSel0) := ⟨2, 0, by decide⟩
lemma halfSelector_sel1 : HalfSelector (BitVec.ofNat 32 kPermSel1) := ⟨3, 1, by decide⟩
lemma halfSelector_fp32ToBf16 : HalfSelector kFp32ToBf16Sel := ⟨1, 3, by decide⟩

/-- Two neighbouring bytes are a half. -/
lemma permByte_pair (s0 s1 : BitVec 32) {k : ℕ} (hk : k < 4) :
    permByte s0 s1 (2 * k) + 256 * permByte s0 s1 (2 * k + 1)
      = (permHalf (halves s0) (halves s1) (2 * k)).toNat := by
  have h0 := s0.isLt
  have h1 := s1.isLt
  interval_cases k
  all_goals
    simp [permByte, byte, permHalf, halves, floatToBf16, Nat.shiftRight_eq_div_pow]
    omega

/-- **The permutation moves bf16 values**, when its selector moves whole halves. -/
lemma halves_amdgcnPerm (s0 s1 : BitVec 32) {sel : BitVec 32} (hsel : HalfSelector sel) :
    halves (amdgcnPerm s0 s1 sel) = perm (halves s0) (halves s1) sel.toNat := by
  obtain ⟨j, k, hj, hk, h0, h1, h2, h3⟩ := hsel
  have hlo := permByte_pair s0 s1 hj
  have hhi := permByte_pair s0 s1 hk
  have hj' : permHalf (halves s0) (halves s1) (sel.toNat % 65536)
      = permHalf (halves s0) (halves s1) (2 * j) := by
    have : sel.toNat % 65536 % 256 / 2 = 2 * j % 256 / 2 := by
      rw [byte] at h0
      omega
    simp only [permHalf, this]
  have hk' : permHalf (halves s0) (halves s1) (sel.toNat / 65536)
      = permHalf (halves s0) (halves s1) (2 * k) := by
    have : sel.toNat / 65536 % 256 / 2 = 2 * k % 256 / 2 := by
      rw [byte] at h2
      omega
    simp only [permHalf, this]
  rw [perm, hj', hk', amdgcnPerm, h0, h1, h2, h3, hlo, hhi, halves, floatToBf16, Dword.mk.injEq]
  generalize permHalf (halves s0) (halves s1) (2 * j) = lo
  generalize permHalf (halves s0) (halves s1) (2 * k) = hi
  have hlt := lo.isLt
  have hlt' := hi.isLt
  refine ⟨BitVec.eq_of_toNat_eq ?_, BitVec.eq_of_toNat_eq ?_⟩
  · rw [BitVec.toNat_setWidth, BitVec.toNat_ofNat]
    omega
  · rw [BitVec.toNat_setWidth, BitVec.toNat_ushiftRight, BitVec.toNat_ofNat, Nat.shiftRight_eq_div_pow]
    omega

/-! ### The conversions, for every word -/

/-- The `float` with its lower half dropped. -/
lemma floatToBf16_fin {u : BitVec 32} {x : ℝ} (hu : floatValue u = fin x) :
    ∃ k, bf16ToFloat (floatToBf16 u) = fin k ∧ TowardZero x k := by
  rw [floatValue_eq] at hu
  obtain ⟨h255, hmag, hx⟩ := fieldsValue_fin hu
  have hexp : fields32 u / 2 ^ 16 / 2 ^ 7 ≠ 255 := by
    rw [Nat.div_div_eq_div_mul]
    exact h255
  have h := towardZero_magnitude (fields32 u)
  norm_num only at hmag
  norm_num only at h
  rw [hx, hmag, bf16ToFloat_eq, msb_floatToBf16, fields16_floatToBf16, fieldsValue, if_neg hexp]
  norm_num only
  cases u.msb
  · exact ⟨_, rfl, h⟩
  · exact ⟨_, rfl, h.neg⟩

lemma upperFraction_eq_zero (u : BitVec 32) :
    u.extractLsb' 16 7 = 0 ↔ u.toNat / 2 ^ 16 % 2 ^ 7 = 0 := by
  rw [← BitVec.toNat_inj, BitVec.extractLsb'_toNat, Nat.shiftRight_eq_div_pow]
  rfl

/-- An all-ones exponent stays, above what is left of the fraction. -/
lemma floatToBf16_special {u : BitVec 32} (h : fields32 u / 2 ^ 23 = 255) :
    bf16ToFloat (floatToBf16 u) = if u.extractLsb' 16 7 = 0 then inf u.msb else nan := by
  have hexp : fields32 u / 2 ^ 16 / 2 ^ 7 = 255 := by
    rw [Nat.div_div_eq_div_mul]
    exact h
  have hfrac : fields32 u / 2 ^ 16 % 2 ^ 7 = 0 ↔ u.extractLsb' 16 7 = 0 := by
    rw [upperFraction_eq_zero, fields32]
    omega
  simp only [bf16ToFloat_eq, msb_floatToBf16, fields16_floatToBf16, fieldsValue, if_pos hexp, hfrac]

lemma floatToBf16_inf {u : BitVec 32} {s : Bool} (hu : floatValue u = inf s) :
    bf16ToFloat (floatToBf16 u) = inf s := by
  rw [floatValue_eq, fieldsValue] at hu
  split_ifs at hu with h255 h0
  have hfrac : u.extractLsb' 16 7 = 0 := by
    rw [fields32] at h0
    rw [upperFraction_eq_zero]
    omega
  rw [floatToBf16_special h255, if_pos hfrac]
  exact hu

lemma floatToBf16_nan {u : BitVec 32} (hu : floatValue u = nan) :
    bf16ToFloat (floatToBf16 u) = if u.extractLsb' 16 7 = 0 then inf u.msb else nan := by
  rw [floatValue_eq, fieldsValue] at hu
  split_ifs at hu with h255 h0
  exact floatToBf16_special h255

/-- A bf16 is a `float`, and comes back. -/
lemma floatToBf16_floatBits (b : BitVec 16) : floatToBf16 (floatBits b) = b := by
  apply BitVec.eq_of_toNat_eq
  have := b.isLt
  rw [floatToBf16, BitVec.toNat_setWidth, BitVec.toNat_ushiftRight, Nat.shiftRight_eq_div_pow,
    toNat_floatBits]
  omega

lemma floatValue_floatBits (b : BitVec 16) : floatValue (floatBits b) = bf16ToFloat b := by
  have hdiv : fields16 b * 2 ^ 16 / 2 ^ 23 = fields16 b / 2 ^ 7 := by omega
  have hmod : fields16 b * 2 ^ 16 % 2 ^ 23 = 0 ↔ fields16 b % 2 ^ 7 = 0 := by omega
  have hmag : (magnitude 23 (fields16 b * 2 ^ 16) : ℝ) * 2 ^ (-149 : ℤ)
      = magnitude 7 (fields16 b) * 2 ^ (-133 : ℤ) := by
    rw [bf16_units, ← magnitude_mul_pow]
  have hmin : (-126 - (23 : ℕ) : ℤ) = -149 := by norm_num
  have hmin' : (-126 - (7 : ℕ) : ℤ) = -133 := by norm_num
  simp only [floatValue_eq, bf16ToFloat_eq, msb_floatBits, fields32_floatBits, fieldsValue, hdiv, hmod,
    hmin, hmin', hmag]

/-- The finite `float`s are in the range of bf16. -/
lemma abs_floatValue_lt {u : BitVec 32} {x : ℝ} (hu : floatValue u = fin x) : |x| < 2 ^ (128 : ℤ) := by
  rw [floatValue_eq] at hu
  obtain ⟨h255, hmag, -⟩ := fieldsValue_fin hu
  have hfields : fields32 u < 2 ^ 31 := Nat.mod_lt _ (Nat.two_pow_pos 31)
  have hlt : magnitude 23 (fields32 u) < magnitude 23 (255 * 2 ^ 23 + 0) :=
    magnitude_strictMono 23 (by omega)
  have htop : magnitude 23 (255 * 2 ^ 23 + 0) = 2 ^ (23 + 254) := by
    rw [magnitude_add (Nat.two_pow_pos 23), if_neg (by norm_num), add_zero, pow_add]
  rw [htop] at hlt
  have hlt' : (magnitude 23 (fields32 u) : ℝ) < 2 ^ (23 + 254) := by exact_mod_cast hlt
  calc |x| = magnitude 23 (fields32 u) * 2 ^ (-126 - (23 : ℕ) : ℤ) := hmag
    _ < 2 ^ (23 + 254) * 2 ^ (-126 - (23 : ℕ) : ℤ) :=
        mul_lt_mul_of_pos_right hlt' (zpow_pos two_pos _)
    _ = 2 ^ (128 : ℤ) := by
        rw [← zpow_natCast, ← zpow_add₀ two_ne_zero]
        norm_num

/-- **The format is that of the sources**: a `float` is stored as it is with its lower half dropped. -/
lemma bf16Format_float {u : BitVec 32} {x : ℝ} (hu : floatValue u = fin x) :
    bf16ToFloat (bf16Format.ofFloat (fin x)) = bf16ToFloat (floatToBf16 u) := by
  obtain ⟨k, hk, h⟩ := floatToBf16_fin hu
  have hbelow := bf16ToFloat_bf16Below x
  have heq := (towardZero_bf16Trunc (abs_floatValue_lt hu)).unique h hbelow hk
  exact hbelow.trans (heq ▸ hk.symm)

/-- At most one part in 128 is lost, and less than the least bf16. -/
lemma TowardZero.lost {x k : ℝ} (h : TowardZero x k) : |x - k| ≤ |x| / 128 + 2 ^ (-133 : ℤ) := by
  have hunit : (0 : ℝ) < 2 ^ (-133 : ℤ) := zpow_pos two_pos _
  rcases le_or_gt (2 ^ (-126 : ℤ)) |x| with hx | hx
  · exact (h.normal hx).abs_sub_le.trans (le_add_of_nonneg_right hunit.le)
  · exact (h.subnormal hx).le.trans (le_add_of_nonneg_left (by positivity))

/-- `Stored`, for a reference that is zero or a normal number. -/
lemma TowardZero.stored {x k : ℝ} (h : TowardZero x k) (hx : x = 0 ∨ 2 ^ (-126 : ℤ) ≤ |x|)
    (hle : |x| ≤ 1 / 8) : Stored x k := by
  refine ⟨?_, hx.imp_right (le_trans (zpow_le_zpow_right₀ one_le_two (by norm_num))), hle⟩
  rcases hx with rfl | hx
  · rw [abs_nonpos_iff.mp (h.le.trans abs_zero.le)]
    exact truncated_iff.mpr ⟨0, le_rfl, by norm_num, by norm_num⟩
  · exact h.normal hx

/-- **bf16 on the bits.** Dropping the lower half of a `float` rounds a finite number toward zero,
keeps the infinities, and keeps a NaN unless its fraction has no bit above the lower half; a bf16
comes back from the `float` it is extended to; `v_perm_b32` packs the truncations of two, and moves
the halves of V as `store_v_to_lds` means it to. -/
theorem float_to_bf16_truncates (u : BitVec 32) :
    (∀ x, floatValue u = fin x → ∃ k, bf16ToFloat (floatToBf16 u) = fin k ∧ TowardZero x k) ∧
    (∀ s, floatValue u = inf s → bf16ToFloat (floatToBf16 u) = inf s) ∧
    (floatValue u = nan → bf16ToFloat (floatToBf16 u)
      = if u.extractLsb' 16 7 = 0 then inf u.msb else nan) ∧
    (∀ b, floatToBf16 (floatBits b) = b ∧ floatValue (floatBits b) = bf16ToFloat b) ∧
    (∀ v, halves (amdgcnPerm v u kFp32ToBf16Sel) = ⟨floatToBf16 u, floatToBf16 v⟩) ∧
    ∀ v, ∀ sel ∈ [kPermSel0, kPermSel1],
      halves (amdgcnPerm v u (BitVec.ofNat 32 sel)) = perm (halves v) (halves u) sel := by
  refine ⟨fun x => floatToBf16_fin, fun s => floatToBf16_inf, floatToBf16_nan, fun b => ?_, fun v => ?_,
    fun v sel hsel => ?_⟩
  · exact ⟨floatToBf16_floatBits b, floatValue_floatBits b⟩
  · rw [halves_amdgcnPerm v u halfSelector_fp32ToBf16]
    rfl
  · rcases List.mem_pair.mp hsel with rfl | rfl
    · exact halves_amdgcnPerm v u halfSelector_sel0
    · exact halves_amdgcnPerm v u halfSelector_sel1

end FmhaNative.Bf16Bits
