import FmhaNative.EqualOutputs
import FmhaNative.RelativeError

/-!
The tolerances of the CPU verifier leave room for the storage format: an output that is the
reference without its last bits passes, with the roundings of the verifier's own arithmetic.

Truncation to eight significant bits loses less than one part in 128. The absolute tolerance then
holds below 1/8, the relative one everywhere, and the cosine of such rows is at least
`2 sqrt(1 - 1/128) / (2 - 1/128)`.
-/

namespace FmhaNative.TruncatedOutputs

open Host CpuVerify Verdict EqualOutputs XReal Ieee HostFp

/-- A number without some of its last bits. -/
def Truncated (r k : ℝ) : Prop := ∃ δ : ℝ, 0 ≤ δ ∧ δ ≤ 1 / (128 : ℕ) ∧ k = (1 - δ) * r

lemma truncated_iff {r k : ℝ} : Truncated r k ↔ ∃ δ, 0 ≤ δ ∧ δ ≤ 1 / 128 ∧ k = (1 - δ) * r := by
  rw [Truncated, Nat.cast_ofNat]

/-- A `float` of the reference, no larger than 1/8, and the element stored for it. -/
structure Stored (r k : ℝ) : Prop where
  truncated : Truncated r k
  float : r = 0 ∨ 2 ^ (-149 : ℤ) ≤ |r|
  le : |r| ≤ 1 / 8

namespace Truncated

variable {r k : ℝ}

lemma abs_sub_le (h : Truncated r k) : |r - k| ≤ |r| / 128 := by
  obtain ⟨δ, h0, h1, rfl⟩ := truncated_iff.mp h
  have hsub : r - (1 - δ) * r = δ * r := by ring
  rw [hsub, abs_mul, abs_of_nonneg h0]
  calc δ * |r| ≤ 1 / 128 * |r| := mul_le_mul_of_nonneg_right h1 (abs_nonneg r)
    _ = |r| / 128 := by ring

lemma abs_le (h : Truncated r k) : |k| ≤ |r| := by
  obtain ⟨δ, h0, h1, rfl⟩ := truncated_iff.mp h
  rw [abs_mul, abs_of_nonneg (by linarith : 0 ≤ 1 - δ)]
  exact mul_le_of_le_one_left (abs_nonneg r) (by linarith)

/-- The products with the stored element, from the square of the reference. -/
lemma products (h : Truncated r k) : r * r / 2 ≤ r * k ∧ r * k ≤ r * r ∧ r * r / 4 ≤ k * k ∧
    k * k ≤ r * r := by
  obtain ⟨δ, h0, h1, rfl⟩ := truncated_iff.mp h
  have hr := mul_self_nonneg r
  have hδ : 0 ≤ δ * (r * r) := mul_nonneg h0 hr
  have hδ1 : δ * (r * r) ≤ 1 / 128 * (r * r) := mul_le_mul_of_nonneg_right h1 hr
  have hδδ : δ * (δ * (r * r)) ≤ 1 / 128 * (δ * (r * r)) := mul_le_mul_of_nonneg_right h1 hδ
  have hδδ0 : 0 ≤ δ * (δ * (r * r)) := mul_nonneg h0 hδ
  have hrk : r * ((1 - δ) * r) = r * r - δ * (r * r) := by ring
  have hkk : (1 - δ) * r * ((1 - δ) * r) = r * r - 2 * (δ * (r * r)) + δ * (δ * (r * r)) := by ring
  rw [hrk, hkk]
  refine ⟨?_, ?_, ?_, ?_⟩ <;> linarith

/-- The stored element lies between the reference and `127/128` of it. -/
lemma between (h : Truncated r k) : 127 / 128 * (r * r) + k * k ≤ 255 / 128 * (r * k) := by
  obtain ⟨δ, h0, h1, rfl⟩ := truncated_iff.mp h
  have hprod : 0 ≤ δ * (1 / 128 - δ) * (r * r) :=
    mul_nonneg (mul_nonneg h0 (by linarith)) (mul_self_nonneg r)
  linarith

end Truncated

/-! ### Elements -/

section Elements

variable {r k : ℝ}

/-- The rounded difference. -/
lemma rawErr_stored (h : Stored r k) :
    ∃ e, rawErr (fin r) (fin k) = fin e ∧ e ≤ 2 ^ (-10 : ℤ) ∧ e ≤ |r| / 128 + 2 ^ (-34 : ℤ) := by
  have hle : |r - k| ≤ (1 : ℕ) * 2 ^ (-10 : ℤ) := by
    have := h.truncated.abs_sub_le
    have := h.le
    norm_num
    linarith
  obtain ⟨y, hy, hbound⟩ := round_within (f := binary32) (by norm_num [binary32])
    (by norm_num [binary32]) (by norm_num [binary32]) hle
  have hraw : rawErr (fin r) (fin k) = fin |y| := by
    have hsub : Fp.sub (fin r) (fin k) = fin (r - k) := sub_fin r k
    change fabs (binary32.round (Fp.sub (fin r) (fin k))) = _
    rw [hsub, hy, fabs]
  refine ⟨|y|, hraw, by simpa using hbound, ?_⟩
  -- half a last place of a number below `2 ^ -10`
  have hulp : binary32.ulpExp (r - k) ≤ -33 ∨ r - k = 0 := by
    by_cases h0 : r - k = 0
    · exact Or.inr h0
    · refine Or.inl (ulpExp_le (by norm_num [binary32]) h0 (hle.trans_lt ?_))
      norm_num [binary32]
  rw [round_eq_nearest hy]
  rcases hulp with hulp | h0
  · have hpow : (2 : ℝ) ^ binary32.ulpExp (r - k) ≤ 2 ^ (-33 : ℤ) :=
      zpow_le_zpow_right₀ one_le_two hulp
    calc |binary32.nearest (r - k)|
        ≤ |binary32.nearest (r - k) - (r - k)| + |r - k| := by
          have := abs_sub_abs_le_abs_sub (binary32.nearest (r - k)) (r - k)
          linarith
      _ ≤ 2 ^ binary32.ulpExp (r - k) / 2 + |r| / 128 :=
          add_le_add (abs_nearest_sub_le binary32 (r - k)) h.truncated.abs_sub_le
      _ ≤ 2 ^ (-33 : ℤ) / 2 + |r| / 128 := by gcongr
      _ = |r| / 128 + 2 ^ (-34 : ℤ) := by
          norm_num
          ring
  · rw [h0, nearest_zero, abs_zero]
    positivity

/-- A tolerance, from a power of two below it. -/
lemma le_litF {q : ℚ} {j : ℤ} (hlo : 2 ^ j ≤ (q : ℝ)) (hhi : (q : ℝ) ≤ 2 ^ (0 : ℤ))
    (hj : -20 ≤ j) : ∃ t, (litF q : XReal) = fin t ∧ 2 ^ j ≤ t := by
  have hq : 0 < (q : ℝ) := (zpow_pos two_pos j).trans_le hlo
  obtain ⟨t, ht, -⟩ : ∃ t, binary32.round (fin (q : ℝ)) = fin t ∧ |t| ≤ (1 : ℕ) * 2 ^ (0 : ℤ) := by
    refine round_within (by norm_num [binary32]) (by norm_num [binary32]) (by norm_num [binary32]) ?_
    rwa [abs_of_pos hq, Nat.cast_one, one_mul]
  have hexp : binary32.ulpExp (q : ℝ) ≤ j := by
    have hk : binary32.ulpExp (q : ℝ) ≤ -20 := by
      refine ulpExp_le (by norm_num [binary32]) hq.ne' ?_
      rw [abs_of_pos hq]
      refine hhi.trans_lt ?_
      norm_num [binary32]
    omega
  have hle := le_nearest (n := 1) hexp (by rwa [Int.cast_one, one_mul])
  refine ⟨t, ht, ?_⟩
  rwa [Int.cast_one, one_mul, ← round_eq_nearest ht] at hle

lemma finite_stored (h : Stored r k) : isfinite (rawErr (fin r : XReal) (fin k)) = true := by
  obtain ⟨e, he, -⟩ := rawErr_stored h
  rw [he]
  rfl

/-- The absolute error is within the tolerance. -/
lemma absErr_stored (h : Stored r k) : ¬ HostFp.lt (tolAbs : XReal) (absErr (fin r) (fin k)) = true := by
  obtain ⟨e, he, hle, -⟩ := rawErr_stored h
  obtain ⟨t, ht, htl⟩ := le_litF (q := 1 / 1000) (j := -10) (by norm_num) (by norm_num) (by norm_num)
  rw [absErr_of_finite (finite_stored h), he, tolAbs, ht, lt_iff]
  exact not_lt.mpr (hle.trans htl)

/-- Where the relative error counts, it is within the tolerance. -/
lemma relErr_stored (h : Stored r k) (hc : relCounts (fin r : XReal) = true) :
    ¬ HostFp.lt (tolRel : XReal) (relErr (fin r) (fin k)) = true := by
  obtain ⟨e, he, -, hle⟩ := rawErr_stored h
  obtain ⟨t, ht, htl⟩ := le_litF (q := 5 / 100) (j := -5) (by norm_num) (by norm_num) (by norm_num)
  obtain ⟨s, hs, hsl⟩ := le_litF (q := 1 / 100) (j := -7) (by norm_num) (by norm_num) (by norm_num)
  have hr : 2 ^ (-7 : ℤ) ≤ |r| := by
    have hnot := not_lt_of_le hc
    rw [relFloor, hs, lt_iff] at hnot
    exact hsl.trans (not_lt.mp hnot)
  have hpos : 0 < |r| := (zpow_pos two_pos _).trans_le hr
  have he0 : 0 ≤ e := by
    have hfabs : fabs (subF (fin r : XReal) (fin k)) = fin e := he
    unfold fabs at hfabs
    split at hfabs
    · cases hfabs
    · cases hfabs
    · obtain rfl := fin.inj hfabs
      exact abs_nonneg _
  have hq : |e * |r|⁻¹| ≤ (1 : ℕ) * 2 ^ (-6 : ℤ) := by
    rw [abs_of_nonneg (mul_nonneg he0 (inv_nonneg.mpr hpos.le)), ← div_eq_mul_inv, div_le_iff₀ hpos]
    norm_num at hr hle ⊢
    linarith
  obtain ⟨z, hz, hzl⟩ := round_within (f := binary32) (by norm_num [binary32])
    (by norm_num [binary32]) (by norm_num [binary32]) hq
  have hrel : relErr (fin r : XReal) (fin k) = fin z := by
    change binary32.round (absErr (fin r) (fin k) * recip (fin |r|)) = fin z
    rw [absErr_of_finite (finite_stored h), he, recip_fin hpos.ne', fin_mul, hz]
  rw [hrel, tolRel, ht, lt_iff]
  refine not_lt.mpr ((le_abs_self z).trans (hzl.trans (le_trans ?_ htl)))
  norm_num

end Elements

/-! ### Sums of products -/

section Sums

/-- `1 - u` for a `double`. -/
noncomputable def loss : ℝ := 1 - binary64.unit

lemma prec64 : 1 ≤ binary64.prec := by norm_num [binary64]

lemma loss_nonneg : 0 ≤ loss := by
  have := unit_le_half prec64
  unfold loss
  linarith

lemma loss_le_one : loss ≤ 1 := by
  have := unit_pos (f := binary64)
  unfold loss
  linarith

/-- As many operations as an `int` counts, three times over, lose next to nothing. -/
lemma loss_pow {n : ℕ} (hn : n < 2 ^ 33) : 1 - 2 ^ (-20 : ℤ) ≤ loss ^ n := by
  have hpow := pow_unit_ge binary64 n prec64
  have hn' : (n : ℝ) ≤ 2 ^ (33 : ℤ) := by exact_mod_cast hn.le
  have hmul : (n : ℝ) * binary64.unit ≤ 2 ^ (33 : ℤ) * binary64.unit :=
    mul_le_mul_of_nonneg_right hn' unit_pos.le
  have hunit : (2 : ℝ) ^ (33 : ℤ) * binary64.unit = 2 ^ (-20 : ℤ) := by
    rw [Format.unit, ← zpow_add₀ two_ne_zero]
    norm_num [binary64]
  unfold loss
  linarith

lemma half_le_loss_pow {n : ℕ} (hn : n < 2 ^ 33) : 1 / 2 ≤ loss ^ n := by
  have := loss_pow hn
  norm_num at this ⊢
  linarith

lemma ample_of_mid {x : ℝ} (h0 : 2 ^ (-300 : ℤ) ≤ x) (h1 : x ≤ 2 ^ (300 : ℤ)) : binary64.Ample x :=
  Or.inr ⟨(zpow_le_zpow_right₀ one_le_two (by norm_num [binary64])).trans h0,
    h1.trans (zpow_le_zpow_right₀ one_le_two (by norm_num [binary64]))⟩

/-- A term of a sum: nothing, or well above the least unit. -/
def Term (x : ℝ) : Prop := x = 0 ∨ 2 ^ (-300 : ℤ) ≤ x ∧ x ≤ 1

lemma Term.nonneg {x : ℝ} (h : Term x) : 0 ≤ x := by
  rcases h with rfl | ⟨h, -⟩
  · exact le_rfl
  · exact (zpow_pos two_pos _).le.trans h

/-- A sum of terms. -/
lemma sum_terms {x : ℕ → ℝ} {m : ℕ} (h : ∀ d < m, Term (x d)) :
    (∑ d ∈ Finset.range m, x d = 0 ∨ 2 ^ (-300 : ℤ) ≤ ∑ d ∈ Finset.range m, x d) ∧
      ∑ d ∈ Finset.range m, x d ≤ m := by
  induction m with
  | zero => simp
  | succ m ih =>
    obtain ⟨hlo, hhi⟩ := ih fun d hd => h d (by omega)
    have hx := h m (Nat.lt_succ_self m)
    have hx0 := hx.nonneg
    have hsum : 0 ≤ ∑ d ∈ Finset.range m, x d :=
      Finset.sum_nonneg fun d hd => (h d (by have := Finset.mem_range.mp hd; omega)).nonneg
    rw [Finset.sum_range_succ]
    constructor
    · rcases hlo with h0 | hlo
      · rw [h0, zero_add]
        exact hx.imp id And.left
      · exact Or.inr (by linarith)
    · push_cast
      rcases hx with h0 | ⟨-, h1⟩ <;> linarith

lemma ample_sum {x : ℕ → ℝ} {m : ℕ} (hm : m < 2 ^ 33) (h : ∀ d < m, Term (x d)) :
    binary64.Ample (∑ d ∈ Finset.range m, x d) := by
  obtain ⟨hlo, hhi⟩ := sum_terms h
  rcases hlo with h0 | hlo
  · exact Or.inl h0
  · refine ample_of_mid hlo (hhi.trans ?_)
    have hm' : (m : ℝ) ≤ 2 ^ (33 : ℤ) := by exact_mod_cast hm.le
    exact hm'.trans (zpow_le_zpow_right₀ one_le_two (by norm_num))

/-- **A rounded sum of rounded products** is close to the sum: one factor for each term, and one for
the products. -/
lemma sum_near {s : ℕ → XReal} {a b : ℕ → ℝ} {n : ℕ} (hn : n < 2 ^ 31) (h0 : s 0 = fin 0)
    (hs : ∀ m < n, s (m + 1) = addD (s m) (mulD (fin (a m)) (fin (b m))))
    (hterm : ∀ m < n, Term (a m * b m)) :
    ∀ m ≤ n, ∃ y, s m = fin y ∧ 0 ≤ y ∧
      Near (loss ^ (m + 1)) (∑ d ∈ Finset.range m, a d * b d) y := by
  intro m hm
  induction m with
  | zero => exact ⟨0, h0, le_rfl, by simp, by simp⟩
  | succ m ih =>
    obtain ⟨y, hy, hy0, hnear⟩ := ih (by omega)
    have ht := hterm m (by omega)
    have hsum : 0 ≤ ∑ d ∈ Finset.range m, a d * b d :=
      Finset.sum_nonneg fun d hd => (hterm d (by have := Finset.mem_range.mp hd; omega)).nonneg
    have hone : Near 1 (a m * b m) (a m * b m) := Near.rfl' ht.nonneg le_rfl
    obtain ⟨z, hz, hz0, hznear⟩ := hone.round prec64 (by norm_num)
      (ht.imp id fun h => ⟨(zpow_le_zpow_right₀ one_le_two (by norm_num [binary64])).trans h.1,
        h.2.trans (one_le_zpow₀ one_le_two (by norm_num [binary64]))⟩)
    rw [one_mul] at hznear
    have hprod : mulD (fin (a m)) (fin (b m)) = fin z := hz
    have hle : loss ^ (m + 1) ≤ loss := by
      simpa using pow_le_pow_of_le_one loss_nonneg loss_le_one (Nat.le_add_left 1 m)
    have hadd := hnear.add (hznear.mono hle ht.nonneg hz0)
    rw [← Finset.sum_range_succ] at hadd
    obtain ⟨w, hw, hw0, hwnear⟩ := hadd.round prec64 (half_le_loss_pow (by omega))
      (ample_sum (by omega) fun d hd => hterm d (by omega))
    refine ⟨w, ?_, hw0, ?_⟩
    · rw [hs m (by omega), hy, hprod]
      exact hw
    · rwa [pow_succ]

end Sums

/-! ### Cosines -/

section Cosines

/-- The exact cosine of a row of stored elements. -/
lemma cosine_ge {n : ℕ} {r k : ℕ → ℝ} (h : ∀ d < n, Truncated (r d) (k d)) :
    99998 / 100000 * (√(∑ d ∈ Finset.range n, r d * r d) * √(∑ d ∈ Finset.range n, k d * k d))
      ≤ ∑ d ∈ Finset.range n, r d * k d := by
  have hsum : 127 / 128 * ∑ d ∈ Finset.range n, r d * r d + ∑ d ∈ Finset.range n, k d * k d
      ≤ 255 / 128 * ∑ d ∈ Finset.range n, r d * k d := by
    rw [Finset.mul_sum, Finset.mul_sum, ← Finset.sum_add_distrib]
    exact Finset.sum_le_sum fun d hd => (h d (Finset.mem_range.mp hd)).between
  have hR : 0 ≤ ∑ d ∈ Finset.range n, r d * r d := Finset.sum_nonneg fun d _ => mul_self_nonneg _
  have hK : 0 ≤ ∑ d ∈ Finset.range n, k d * k d := Finset.sum_nonneg fun d _ => mul_self_nonneg _
  generalize ∑ d ∈ Finset.range n, r d * r d = R at *
  generalize ∑ d ∈ Finset.range n, k d * k d = K at *
  generalize ∑ d ∈ Finset.range n, r d * k d = D at *
  -- the means of `K` and `127/128 R`; the root of `127/128` is above `0.99608`
  have hmean : 2 * (99608 / 100000) * (√R * √K) ≤ 127 / 128 * R + K := by
    have hsq := mul_self_nonneg (√K - 99608 / 100000 * √R)
    have hRR := Real.mul_self_sqrt hR
    have hKK := Real.mul_self_sqrt hK
    nlinarith
  have hroots : 0 ≤ √R * √K := mul_nonneg (Real.sqrt_nonneg R) (Real.sqrt_nonneg K)
  linarith

lemma sum_le_roots (n : ℕ) (r k : ℕ → ℝ) : ∑ d ∈ Finset.range n, r d * k d
    ≤ √(∑ d ∈ Finset.range n, r d * r d) * √(∑ d ∈ Finset.range n, k d * k d) := by
  have h := Real.sum_mul_le_sqrt_mul_sqrt (Finset.range n) r k
  simpa only [sq] using h

variable {n : ℕ} {ref kern : Row → ℕ → XReal} {row : Row} {r k : ℕ → ℝ}

/-- The least product of two stored floats. -/
lemma term_of_stored {a b : ℝ} (h : Stored a b) : Term (a * b) ∧ Term (a * a) ∧ Term (b * b) := by
  obtain ⟨h1, h2, h3, h4⟩ := h.truncated.products
  have hle : a * a ≤ 1 := by
    have habs : |a| * |a| ≤ 1 / 8 * (1 / 8) := mul_le_mul h.le h.le (abs_nonneg a) (by norm_num)
    rw [abs_mul_abs_self] at habs
    linarith
  rcases h.float with h0 | hlo
  · have hb : b = 0 := by
      rw [h0, mul_zero] at h4
      exact mul_self_eq_zero.mp (le_antisymm h4 (mul_self_nonneg b))
    rw [h0, hb, mul_zero]
    exact ⟨Or.inl rfl, Or.inl rfl, Or.inl rfl⟩
  · have hsq : (2 : ℝ) ^ (-298 : ℤ) ≤ a * a := by
      rw [← abs_mul_abs_self, show (-298 : ℤ) = -149 + -149 by norm_num, zpow_add₀ two_ne_zero]
      exact mul_le_mul hlo hlo (by positivity) (abs_nonneg a)
    have hpow : (2 : ℝ) ^ (-298 : ℤ) = 4 * 2 ^ (-300 : ℤ) := by
      rw [show (-298 : ℤ) = 2 + -300 by norm_num, zpow_add₀ two_ne_zero]
      norm_num
    have hmin : (0 : ℝ) < 2 ^ (-300 : ℤ) := zpow_pos two_pos _
    exact ⟨Or.inr ⟨by linarith, by linarith⟩, Or.inr ⟨by linarith, hle⟩,
      Or.inr ⟨by linarith, by linarith⟩⟩

/-- The three sums of a row of stored elements. -/
lemma dots_near (hn : n < 2 ^ 31) (hr : ∀ d < n, ref row d = fin (r d))
    (hk : ∀ d < n, kern row d = fin (k d)) (h : ∀ d < n, Stored (r d) (k d)) :
    ∃ D R K, rowDots n ref kern row = ⟨fin D, fin R, fin K⟩ ∧ 0 ≤ D ∧ 0 ≤ R ∧ 0 ≤ K ∧
      Near (loss ^ (n + 1)) (∑ d ∈ Finset.range n, r d * k d) D ∧
      Near (loss ^ (n + 1)) (∑ d ∈ Finset.range n, r d * r d) R ∧
      Near (loss ^ (n + 1)) (∑ d ∈ Finset.range n, k d * k d) K := by
  have hsnoc : ∀ m, rowDots (m + 1) ref kern row
      = (rowDots m ref kern row).add (ref row m) (kern row m) := fun m => by
    rw [rowDots, List.range_succ, List.foldl_append]
    rfl
  obtain ⟨D, hD, hD0, hDn⟩ := sum_near (s := fun m => (rowDots m ref kern row).dotRk) hn litD_zero
    (fun m hm => by simp only [hsnoc, Dots.add, hr m hm, hk m hm])
    (fun m hm => (term_of_stored (h m hm)).1) n le_rfl
  obtain ⟨R, hR, hR0, hRn⟩ := sum_near (s := fun m => (rowDots m ref kern row).normR) hn litD_zero
    (fun m hm => by simp only [hsnoc, Dots.add, hr m hm])
    (fun m hm => (term_of_stored (h m hm)).2.1) n le_rfl
  obtain ⟨K, hK, hK0, hKn⟩ := sum_near (s := fun m => (rowDots m ref kern row).normK) hn litD_zero
    (fun m hm => by simp only [hsnoc, Dots.add, hk m hm])
    (fun m hm => (term_of_stored (h m hm)).2.2) n le_rfl
  refine ⟨D, R, K, ?_, hD0, hR0, hK0, hDn, hRn, hKn⟩
  calc rowDots n ref kern row = ⟨(rowDots n ref kern row).dotRk, (rowDots n ref kern row).normR,
        (rowDots n ref kern row).normK⟩ := rfl
    _ = ⟨fin D, fin R, fin K⟩ := congr (congr (congrArg Dots.mk hD) hR) hK

/-- The root of a sum in the middle of the range. -/
lemma mid_sqrt {x : ℝ} (h0 : 2 ^ (-300 : ℤ) ≤ x) (h1 : x ≤ 2 ^ (300 : ℤ)) :
    2 ^ (-150 : ℤ) ≤ √x ∧ √x ≤ 2 ^ (150 : ℤ) := by
  have hroot : ∀ e : ℤ, √((2 : ℝ) ^ (2 * e)) = 2 ^ e := fun e => by
    rw [mul_comm, zpow_mul, zpow_ofNat, Real.sqrt_sq (zpow_pos two_pos e).le]
  exact ⟨(hroot (-150)).symm.le.trans (Real.sqrt_le_sqrt h0),
    (Real.sqrt_le_sqrt h1).trans (hroot 150).le⟩

/-- The rounded product of the rounded roots. -/
lemma denom_near {D R K R' K' : ℝ} (hn : n < 2 ^ 31) (hR : Near (loss ^ (n + 1)) R' R)
    (hK : Near (loss ^ (n + 1)) K' K) (hR0 : 0 ≤ R) (hK0 : 0 ≤ K) (hRlo : 2 ^ (-300 : ℤ) ≤ R')
    (hRhi : R' ≤ 2 ^ (300 : ℤ)) (hKlo : 2 ^ (-300 : ℤ) ≤ K') (hKhi : K' ≤ 2 ^ (300 : ℤ)) :
    ∃ c, (⟨fin D, fin R, fin K⟩ : Dots XReal).denom = fin c ∧
      Near (loss ^ (2 * n + 5)) (√R' * √K') c := by
  have hA : 0 ≤ loss ^ (n + 1) := pow_nonneg loss_nonneg _
  have hA1 : loss ^ (n + 1) ≤ 1 := pow_le_one₀ loss_nonneg loss_le_one
  have hhalf := half_le_loss_pow (n := n + 1) (by omega)
  obtain ⟨hr0, hr1⟩ := mid_sqrt hRlo hRhi
  obtain ⟨hk0, hk1⟩ := mid_sqrt hKlo hKhi
  have hwide : ∀ {x : ℝ}, 2 ^ (-150 : ℤ) ≤ x → x ≤ 2 ^ (150 : ℤ) → binary64.Ample x := fun h h' =>
    ample_of_mid ((zpow_le_zpow_right₀ one_le_two (by norm_num)).trans h)
      (h'.trans (zpow_le_zpow_right₀ one_le_two (by norm_num)))
  obtain ⟨ρ, hρ, hρ0, hρn⟩ := (hR.sqrt hA hA1).round prec64 hhalf (hwide hr0 hr1)
  obtain ⟨κ, hκ, hκ0, hκn⟩ := (hK.sqrt hA hA1).round prec64 hhalf (hwide hk0 hk1)
  have hAl : 0 ≤ loss ^ (n + 1) * loss := mul_nonneg hA loss_nonneg
  have hprod := hρn.mul hκn hAl (Real.sqrt_nonneg R') hρ0 (Real.sqrt_nonneg K') hκ0
  have hpow : loss ^ (n + 1) * loss * (loss ^ (n + 1) * loss) = loss ^ (2 * n + 4) := by ring
  have hmid : binary64.Ample (√R' * √K') := by
    refine ample_of_mid ?_ ?_
    · rw [show (-300 : ℤ) = -150 + -150 by norm_num, zpow_add₀ two_ne_zero]
      exact mul_le_mul hr0 hk0 (by positivity) (Real.sqrt_nonneg R')
    · rw [show (300 : ℤ) = 150 + 150 by norm_num, zpow_add₀ two_ne_zero]
      exact mul_le_mul hr1 hk1 (Real.sqrt_nonneg K') (by positivity)
  change Near (loss ^ (n + 1) * loss * (loss ^ (n + 1) * loss)) _ _ at hprod
  rw [hpow] at hprod
  obtain ⟨c, hc, -, hcn⟩ := hprod.round prec64 (half_le_loss_pow (by omega)) hmid
  refine ⟨c, ?_, ?_⟩
  · change binary64.round (binary64.round (sqrt (fin R)) * binary64.round (sqrt (fin K))) = fin c
    rw [sqrt_fin hR0, sqrt_fin hK0, hρ, hκ, fin_mul, hc]
  · rwa [pow_succ]

/-- The quotient of close numbers whose exact quotient is close to one. -/
lemma quotient_near {D D' S c : ℝ} (hn : n < 2 ^ 31) (hD : Near (loss ^ (n + 1)) D' D)
    (hc : Near (loss ^ (2 * n + 5)) S c) (hlo : 99998 / 100000 * S ≤ D') (hhi : D' ≤ S)
    (hc0 : 0 < c) : 32767 * 2 ^ (-15 : ℤ) ≤ D / c ∧ D / c ≤ 2 := by
  have hA : 0 ≤ loss ^ (n + 1) := pow_nonneg loss_nonneg _
  have hB : 0 ≤ loss ^ (2 * n + 5) := pow_nonneg loss_nonneg _
  have hAB : loss ^ (n + 1) * loss ^ (2 * n + 5) = loss ^ (3 * n + 6) := by ring
  have hpow := loss_pow (n := 3 * n + 6) (by omega)
  have hhalf := half_le_loss_pow (n := 3 * n + 6) (by omega)
  constructor
  · rw [le_div_iff₀ hc0]
    calc 32767 * 2 ^ (-15 : ℤ) * c ≤ 99998 / 100000 * (loss ^ (3 * n + 6) * c) := by
          norm_num at hpow ⊢
          nlinarith
      _ = loss ^ (n + 1) * (99998 / 100000 * (loss ^ (2 * n + 5) * c)) := by
          rw [← hAB]
          ring
      _ ≤ loss ^ (n + 1) * (99998 / 100000 * S) := by
          have := hc.hi
          gcongr
      _ ≤ loss ^ (n + 1) * D' := mul_le_mul_of_nonneg_left hlo hA
      _ ≤ D := hD.lo
  · rw [div_le_iff₀ hc0]
    have hle : loss ^ (3 * n + 6) * D ≤ c := by
      calc loss ^ (3 * n + 6) * D = loss ^ (2 * n + 5) * (loss ^ (n + 1) * D) := by
            rw [← hAB]
            ring
        _ ≤ loss ^ (2 * n + 5) * S := mul_le_mul_of_nonneg_left (hD.hi.trans hhi) hB
        _ ≤ c := hc.lo
    nlinarith

/-- **The cosine of a row of stored elements** does not fall below the tolerance. -/
lemma cosine_stored (hn : n < 2 ^ 31) (hr : ∀ d < n, ref row d = fin (r d))
    (hk : ∀ d < n, kern row d = fin (k d)) (h : ∀ d < n, Stored (r d) (k d))
    (hc : rowCounts n ref kern row = true) :
    ¬ HostFp.lt (rowCosine n ref kern row) (tolCos : XReal) = true := by
  obtain ⟨D, R, K, hdots, hD0, hR0, hK0, hD, hR, hK⟩ := dots_near hn hr hk h
  have hcos := cosine_ge fun d hd => (h d hd).truncated
  have hcs := sum_le_roots n r k
  obtain ⟨hRlo, hRhi⟩ := sum_terms fun d hd => (term_of_stored (h d hd)).2.1
  obtain ⟨hKlo, hKhi⟩ := sum_terms fun d hd => (term_of_stored (h d hd)).2.2
  have hRK : ∑ d ∈ Finset.range n, r d * r d ≤ 4 * ∑ d ∈ Finset.range n, k d * k d := by
    rw [Finset.mul_sum]
    refine Finset.sum_le_sum fun d hd => ?_
    have := (h d (Finset.mem_range.mp hd)).truncated.products.2.2.1
    linarith
  have hKR : ∑ d ∈ Finset.range n, k d * k d ≤ ∑ d ∈ Finset.range n, r d * r d :=
    Finset.sum_le_sum fun d hd => (h d (Finset.mem_range.mp hd)).truncated.products.2.2.2
  have hn' : (n : ℝ) ≤ 2 ^ (300 : ℤ) := by
    have h31 : (n : ℝ) ≤ 2 ^ (31 : ℤ) := by exact_mod_cast hn.le
    exact h31.trans (zpow_le_zpow_right₀ one_le_two (by norm_num))
  have hpow : (0 : ℝ) < 2 ^ (-300 : ℤ) := zpow_pos two_pos _
  generalize ∑ d ∈ Finset.range n, r d * k d = D' at *
  generalize ∑ d ∈ Finset.range n, r d * r d = R' at *
  generalize ∑ d ∈ Finset.range n, k d * k d = K' at *
  rw [rowCounts, hdots, Dots.counts, litD_zero, lt_iff] at hc
  rcases hRlo with hR'0 | hRlo
  · -- a row of zeros does not count
    have hzero : ∀ {x y : ℝ}, Near (loss ^ (n + 1)) x y → x ≤ 0 → 0 ≤ y → y = 0 := by
      intro x y hxy hx hy
      have hhalf := half_le_loss_pow (n := n + 1) (by omega)
      have := hxy.hi
      nlinarith
    have hdenom : (⟨fin D, fin R, fin K⟩ : Dots XReal).denom = fin 0 := by
      change binary64.round (binary64.round (sqrt (fin R)) * binary64.round (sqrt (fin K))) = _
      rw [hzero hR hR'0.le hR0, hzero hK (by linarith) hK0, sqrt_fin le_rfl, Real.sqrt_zero,
        round_zero, fin_mul, mul_zero, round_zero]
    rw [hdenom] at hc
    exact absurd hc (lt_irrefl _)
  · have hKlo : 2 ^ (-300 : ℤ) ≤ K' := hKlo.resolve_left fun h0 => by linarith
    obtain ⟨c, hdenom, hcn⟩ := denom_near (D := D) hn hR hK hR0 hK0 hRlo (hRhi.trans hn') hKlo
      (hKhi.trans hn')
    have hc0 : 0 < c := by
      rwa [hdenom] at hc
    obtain ⟨hq1, hq2⟩ := quotient_near hn hD hcn hcos hcs hc0
    have hcosine : rowCosine n ref kern row = binary64.round (fin (D / c)) := by
      rw [rowCosine, hdots, Dots.cosine, hdenom]
      change binary64.round (fin D * recip (fin c)) = _
      rw [recip_fin hc0.ne', fin_mul, ← div_eq_mul_inv]
    rw [hcosine]
    exact not_round_lt_tolCos hq1 hq2

end Cosines

/-! ### The verdict -/

/-- What the threads accumulate of stored rows passes. -/
lemma runThreads_stored {n : ℕ} (hn : n < 2 ^ 31) {ref kern : Row → ℕ → XReal} {L : List Row}
    (h : ∀ row ∈ L, ∀ d < n, ∃ r k, ref row d = fin r ∧ kern row d = fin k ∧ Stored r k)
    {threads : List (List Row)} (hs : threads.flatten.Perm L) :
    (runThreads n ref kern threads).result.pass = true := by
  have hsum := (runThreads_summary n ref kern threads).perm hs
  have helem : ∀ x ∈ elems n L, ∃ r k, ref x.1 x.2 = fin r ∧ kern x.1 x.2 = fin k ∧ Stored r k :=
    fun x hx => h x.1 (mem_elems.mp hx).1 x.2 (mem_elems.mp hx).2
  rw [result_pass_iff, relFail_iff hsum.elems]
  refine ⟨?_, ?_, ?_, ?_⟩
  · rw [hsum.elems.mismatch, List.countP_eq_zero]
    intro x hx
    obtain ⟨r, k, hr, hk, hst⟩ := helem x hx
    rw [elemErr, hr, hk]
    exact absErr_stored hst
  · rw [hsum.elems.nonfinite, List.countP_eq_zero]
    intro x hx
    obtain ⟨r, k, hr, hk, hst⟩ := helem x hx
    rw [elemFinite, hr, hk, finite_stored hst]
    exact Bool.false_ne_true
  · rw [hsum.cos.cosFail, List.countP_eq_zero]
    intro row hrow hfail
    rw [Bool.and_eq_true] at hfail
    choose! r k hr hk hst using h row hrow
    exact cosine_stored hn hr hk hst hfail.1 hfail.2
  · rintro ⟨x, hx, hc, hlt⟩
    obtain ⟨r, k, hr, hk, hst⟩ := helem x hx
    rw [elemCounts, hr] at hc
    rw [elemRel, hr, hk] at hlt
    exact relErr_stored hst hc hlt

/-- **A truncated output passes**: when every stored element is the reference `float` toward zero, by
at most one part in 128, and no reference is larger than 1/8, the verdict is a pass, however the
threads share the rows and in whatever order they merge, with the roundings of the verifier's own
`float`s and `double`s. -/
theorem truncated_outputs_pass {β : Type*} (toFloat : β → XReal) (p : FmhaParams)
    (hd : IsInt p.headDim) {ref : Row → ℕ → XReal} {hO : Mem β}
    (h : ∀ row ∈ rows p, ∀ d < p.headDim.toNat, ∃ r k, ref row d = fin r ∧
      oKern toFloat p hO row d = fin k ∧ Stored r k)
    {threads : List (List Row)} (hs : threads.flatten.Perm (rows p)) :
    (cpuRefVerify toFloat p ref hO threads).pass = true := by
  have hn : p.headDim.toNat < 2 ^ 31 := by
    have := hd.2
    omega
  exact runThreads_stored hn h hs

/-- Two rows of `1/10`, stored as the bf16 `51/512`. -/
theorem truncated_outputs_pass_tenths :
    (cpuRefVerify bf16ToFloat twoQueries (fun _ _ => fin (1 / 10)) (fun _ => 0x3DCC#16)
      [[secondQuery], [firstQuery]]).pass = true := by
  have hstored : bf16ToFloat 0x3DCC#16 = fin (51 / 512) := by
    have hexp : ((0x3DCC#16).extractLsb' 7 8).toNat = 123 := by decide
    have hfrac : ((0x3DCC#16).extractLsb' 0 7).toNat = 76 := by decide
    have hsign : (0x3DCC#16).msb = false := by decide
    simp only [bf16ToFloat, hexp, hfrac, hsign]
    norm_num
  refine truncated_outputs_pass bf16ToFloat twoQueries ⟨by decide, by decide⟩ (fun row _ d _ => ?_)
    (rows_twoQueries ▸ List.Perm.swap firstQuery secondQuery [])
  refine ⟨1 / 10, 51 / 512, rfl, hstored, ⟨1 / 256, by norm_num, by norm_num, by norm_num⟩, ?_, ?_⟩
  · right
    norm_num
  · norm_num

end FmhaNative.TruncatedOutputs
