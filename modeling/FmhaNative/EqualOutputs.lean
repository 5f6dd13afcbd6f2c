import FmhaNative.RoundingError
import FmhaNative.Verdict

/-!
The CPU verifier raises no false alarm: an output equal to the reference passes, with the roundings
of its own arithmetic.

The errors of such an output are 0. Its cosines are not 1: each is a sum over the rounded square of
its rounded root.
-/

namespace FmhaNative.EqualOutputs

open Host CpuVerify Verdict XReal Ieee HostFp

/-! ### Elements -/

section Elements

variable {a : ℝ}

lemma rawErr_self (a : ℝ) : rawErr (fin a) (fin a) = fin 0 := by
  have hsub : Fp.sub (fin a) (fin a) = fin 0 := by rw [sub_fin, sub_self]
  change fabs (binary32.round (Fp.sub (fin a) (fin a))) = fin 0
  rw [hsub, round_zero, fabs, abs_zero]

lemma absErr_self (a : ℝ) : absErr (fin a) (fin a) = fin 0 := by
  have hfin : isfinite (rawErr (fin a) (fin a)) = true := by
    rw [rawErr_self]
    rfl
  rw [absErr_of_finite hfin, rawErr_self]

lemma not_tolAbs_lt_zero : ¬ HostFp.lt (tolAbs : XReal) (fin 0) = true := by
  rw [lt_iff]
  exact not_round_lt_zero (by norm_num)

lemma not_tolRel_lt_zero : ¬ HostFp.lt (tolRel : XReal) (fin 0) = true := by
  rw [lt_iff]
  exact not_round_lt_zero (by norm_num)

/-- Where the relative error counts, it is 0. -/
lemma relErr_self (hc : relCounts (fin a : XReal) = true) : relErr (fin a) (fin a) = fin 0 := by
  have hpos : |a| ≠ 0 := by
    intro h0
    have hfloor : XReal.lt (fin 0) (relFloor : XReal) := by
      refine zero_lt_round (f := binary32) (k := -7) ?_ ?_ ?_ <;> norm_num [binary32]
    have hle := not_lt_of_le hc
    rw [lt_iff] at hle
    refine hle ?_
    change XReal.lt (fin |a|) _
    rwa [h0]
  change binary32.round (absErr (fin a) (fin a) * recip (fin |a|)) = fin 0
  rw [absErr_self, recip_fin hpos, fin_mul, zero_mul, round_zero]

end Elements

/-! ### Cosines -/

section Cosines

variable {f : Format} {r y : ℝ}

/-- A rounded number that does not overflow. -/
lemma round_eq_nearest (h : f.round (fin r) = fin y) : y = f.nearest r := by
  simp only [Format.round] at h
  split_ifs at h
  exact (fin.inj h).symm

variable {n : ℕ} {ref kern : Row → ℕ → XReal} {row : Row}

/-- The three sums are one. -/
lemma rowDots_self (h : ∀ d < n, kern row d = ref row d) :
    (rowDots n ref kern row).dotRk = (rowDots n ref kern row).normR ∧
      (rowDots n ref kern row).normK = (rowDots n ref kern row).normR := by
  induction n with
  | zero => exact ⟨rfl, rfl⟩
  | succ n ih =>
    obtain ⟨h1, h2⟩ := ih fun d hd => h d (by omega)
    have hsnoc : rowDots (n + 1) ref kern row
        = (rowDots n ref kern row).add (ref row n) (kern row n) := by
      rw [rowDots, List.range_succ, List.foldl_append]
      rfl
    rw [hsnoc, h n (Nat.lt_succ_self n)]
    simp only [Dots.add, h1, h2, and_self]

/-- A sum of products is a number of the format. -/
lemma dotRk_units (hn : n < 2 ^ 53)
    (h : ∀ d < n, ∃ a b, ref row d = fin a ∧ kern row d = fin b ∧
      |a| < 2 ^ binary32.emax ∧ |b| < 2 ^ binary32.emax) :
    ∃ k : ℤ, (rowDots n ref kern row).dotRk = fin (k * 2 ^ binary64.emin) := by
  cases n with
  | zero => exact ⟨0, by rw [Int.cast_zero, zero_mul]; exact litD_zero⟩
  | succ m =>
    obtain ⟨a, b, ha, hb, hra, hrb⟩ := h m (Nat.lt_succ_self m)
    have hsnoc : (rowDots (m + 1) ref kern row).dotRk
        = addD (rowDots m ref kern row).dotRk (mulD (ref row m) (kern row m)) := by
      rw [rowDots, List.range_succ, List.foldl_append]
      rfl
    have hprev : Within m (rowDots m ref kern row).dotRk :=
      dotRk_within (by omega) fun d hd => h d (by omega)
    obtain ⟨u, hu, -⟩ := hprev
    obtain ⟨v, hv, -⟩ := within_mulD hra hrb
    obtain ⟨y, hy, -⟩ := dotRk_within hn h
    rw [hsnoc, ha, hb, hu, hv] at hy
    change binary64.round (fin (u + v)) = fin y at hy
    obtain ⟨k, hk⟩ := exists_units binary64 (u + v)
    refine ⟨k, ?_⟩
    rw [hsnoc, ha, hb, hu, hv]
    change binary64.round (fin (u + v)) = _
    rw [hy, round_eq_nearest hy, hk]

/-- The norm that counts is positive. -/
lemma pos_of_counts {s : Dots XReal} {S : ℝ} (h2 : s.normK = s.normR) (hs : s.normR = fin S)
    (hc : s.counts = true) : 0 < S := by
  have hdenom : s.denom = binary64.round (binary64.round (sqrt (fin S)) * binary64.round (sqrt (fin S))) := by
    rw [Dots.denom, h2, hs]
    rfl
  rw [Dots.counts, litD_zero, lt_iff, hdenom] at hc
  rcases lt_trichotomy S 0 with hneg | rfl | hpos
  · have hnan : sqrt (fin S) = nan := if_pos hneg
    rw [hnan] at hc
    exact absurd rfl (ne_nan_of_lt hc).2
  · rw [sqrt_fin le_rfl, Real.sqrt_zero, round_zero, fin_mul, mul_zero, round_zero] at hc
    exact absurd hc (lt_irrefl _)
  · exact hpos

/-- The root of a bounded number does not overflow, nor does its square. -/
lemma denom_self {s : Dots XReal} (h2 : s.normK = s.normR) {k : ℤ} (hk : 0 < k)
    (hs : s.normR = fin (k * 2 ^ binary64.emin))
    (hbound : (k : ℝ) * 2 ^ binary64.emin ≤ 2 ^ (310 : ℤ)) :
    ∃ c, s.denom = fin c ∧
      |c - k * 2 ^ binary64.emin| ≤ 8 * binary64.unit * (k * 2 ^ binary64.emin) := by
  have hk' : (0 : ℝ) < k := Int.cast_pos.mpr hk
  have hpos : (0 : ℝ) < k * 2 ^ binary64.emin := mul_pos hk' (zpow_pos two_pos _)
  have hle : (2 : ℝ) ^ binary64.emin ≤ k * 2 ^ binary64.emin :=
    le_mul_of_one_le_left (zpow_pos two_pos _).le (by exact_mod_cast hk)
  have hemin : binary64.emin + 2 * binary64.prec ≤ 0 := by norm_num [binary64]
  have hprec : 1 ≤ binary64.prec := by norm_num [binary64]
  have hunit := unit_le_half (f := binary64) hprec
  have hsq := abs_sq_nearest_sqrt_sub_le hemin hprec hle
  have herr := abs_nearest_sq_sqrt_sub_le hemin hprec hk rfl
  generalize hS : (k : ℝ) * 2 ^ binary64.emin = S at *
  have hroot : √S ≤ 2 ^ (155 : ℤ) := by
    have hpow : (2 : ℝ) ^ (310 : ℤ) = (2 ^ (155 : ℤ)) ^ 2 := by
      rw [← zpow_natCast, ← zpow_mul]
      rfl
    rw [Real.sqrt_le_left (by positivity), ← hpow]
    exact hbound
  obtain ⟨w, hw, -⟩ : ∃ w, binary64.round (fin √S) = fin w ∧ |w| ≤ (1 : ℕ) * 2 ^ (155 : ℤ) := by
    refine round_within (by norm_num [binary64]) (by norm_num [binary64]) ?_ ?_
    · rw [Nat.cast_one, one_mul]
      exact zpow_lt_zpow_right₀ one_lt_two (by norm_num [binary64])
    · rwa [Nat.cast_one, one_mul, abs_of_nonneg (Real.sqrt_nonneg _)]
  have hwsq : |w * w| ≤ (1 : ℕ) * 2 ^ (312 : ℤ) := by
    rw [round_eq_nearest hw, Nat.cast_one, one_mul, abs_of_nonneg (mul_self_nonneg _)]
    have hupper := (abs_le.mp hsq).2
    have hus : binary64.unit * S ≤ 1 / 2 * S := mul_le_mul_of_nonneg_right hunit hpos.le
    have hpow : (2 : ℝ) ^ (312 : ℤ) = 4 * 2 ^ (310 : ℤ) := by
      rw [show (312 : ℤ) = 2 + 310 by norm_num, zpow_add₀ two_ne_zero]
      congr 1
      norm_num
    rw [hpow]
    calc binary64.nearest √S * binary64.nearest √S ≤ S + 3 * binary64.unit * S := by linarith
      _ ≤ 4 * S := by linarith
      _ ≤ 4 * 2 ^ (310 : ℤ) := mul_le_mul_of_nonneg_left hbound (by norm_num)
  obtain ⟨c, hc, -⟩ : ∃ c, binary64.round (fin (w * w)) = fin c ∧ |c| ≤ (1 : ℕ) * 2 ^ (312 : ℤ) := by
    refine round_within (by norm_num [binary64]) (by norm_num [binary64]) ?_ hwsq
    rw [Nat.cast_one, one_mul]
    exact zpow_lt_zpow_right₀ one_lt_two (by norm_num [binary64])
  refine ⟨c, ?_, ?_⟩
  · rw [Dots.denom, h2, hs]
    change binary64.round (binary64.round (sqrt (fin S)) * binary64.round (sqrt (fin S))) = fin c
    rw [sqrt_fin hpos.le, hw, fin_mul, hc]
  · rwa [round_eq_nearest hc, round_eq_nearest hw]

/-- A quotient close to 1 is not below the tolerance. -/
lemma not_round_lt_tolCos {q : ℝ} (hlo : 32767 * 2 ^ (-15 : ℤ) ≤ q) (hhi : q ≤ 2) :
    ¬ HostFp.lt (binary64.round (fin q)) (tolCos : XReal) = true := by
  have hq : 0 < q := lt_of_lt_of_le (by positivity) hlo
  obtain ⟨z, hz, -⟩ : ∃ z, binary64.round (fin q) = fin z ∧ |z| ≤ (1 : ℕ) * 2 ^ (1 : ℤ) := by
    refine round_within (by norm_num [binary64]) (by norm_num [binary64]) ?_ ?_
    · rw [Nat.cast_one, one_mul]
      exact zpow_lt_zpow_right₀ one_lt_two (by norm_num [binary64])
    · rw [abs_of_pos hq, Nat.cast_one, one_mul, zpow_one]
      exact hhi
  obtain ⟨t, ht, -⟩ : ∃ t, (tolCos : XReal) = fin t ∧ |t| ≤ (1 : ℕ) * 2 ^ (0 : ℤ) := by
    refine round_within (f := binary64) (by norm_num [binary64]) (by norm_num [binary64]) ?_ ?_
    · rw [Nat.cast_one, one_mul]
      exact zpow_lt_zpow_right₀ one_lt_two (by norm_num [binary64])
    · rw [abs_of_nonneg (by norm_num)]
      norm_num
  have hexp : ∀ r : ℝ, 0 < r → r ≤ 2 → binary64.ulpExp r ≤ -15 := by
    intro r h0 h2
    refine ulpExp_le (by norm_num [binary64]) h0.ne' ?_
    rw [abs_of_pos h0]
    refine h2.trans_lt ?_
    norm_num [binary64]
  have hzlo : ((32767 : ℤ) : ℝ) * 2 ^ (-15 : ℤ) ≤ z := by
    rw [round_eq_nearest hz]
    exact le_nearest (hexp q hq hhi) (by exact_mod_cast hlo)
  have hthi : t ≤ ((32767 : ℤ) : ℝ) * 2 ^ (-15 : ℤ) := by
    have hround : binary64.round (fin ((99995 / 100000 : ℚ) : ℝ)) = fin t := ht
    rw [round_eq_nearest hround]
    refine nearest_le (hexp _ ?_ ?_) ?_ <;> norm_num
  rw [hz, ht, lt_iff]
  exact not_lt.mpr (hthi.trans hzlo)

/-- The cosine of a sum that counts with itself. -/
lemma cosine_self {s : Dots XReal} (h1 : s.dotRk = s.normR) (h2 : s.normK = s.normR) {k : ℤ}
    (hs : s.normR = fin (k * 2 ^ binary64.emin))
    (hbound : (k : ℝ) * 2 ^ binary64.emin ≤ 2 ^ (310 : ℤ)) (hc : s.counts = true) :
    ¬ HostFp.lt s.cosine (tolCos : XReal) = true := by
  have hpos := pos_of_counts h2 hs hc
  have hk : 0 < k := by
    have hk' : (0 : ℝ) < k := (mul_pos_iff_of_pos_right (zpow_pos two_pos _)).mp hpos
    exact_mod_cast hk'
  obtain ⟨c, hdenom, herr⟩ := denom_self h2 hk hs hbound
  have hunit : 8 * binary64.unit ≤ 2 ^ (-16 : ℤ) := by norm_num [Format.unit, binary64]
  generalize (k : ℝ) * 2 ^ binary64.emin = S at *
  have herr' : |c - S| ≤ 2 ^ (-16 : ℤ) * S := herr.trans (mul_le_mul_of_nonneg_right hunit hpos.le)
  obtain ⟨hlo, hhi⟩ := abs_le.mp herr'
  have hcpos : 0 < c := by
    norm_num at hlo
    linarith
  have hcos : s.cosine = binary64.round (fin (S / c)) := by
    rw [Dots.cosine, h1, hs, hdenom]
    change binary64.round (fin S * recip (fin c)) = _
    rw [recip_fin hcpos.ne', fin_mul, ← div_eq_mul_inv]
  rw [hcos]
  refine not_round_lt_tolCos ?_ ?_
  · rw [le_div_iff₀ hcpos]
    norm_num at hhi ⊢
    linarith
  · rw [div_le_iff₀ hcpos]
    norm_num at hlo
    linarith

end Cosines

/-! ### The verdict -/

/-- What the threads accumulate of equal rows passes. -/
lemma runThreads_pass {n : ℕ} (hn : n < 2 ^ 53) {ref kern : Row → ℕ → XReal} {L : List Row}
    (heq : ∀ row ∈ L, ∀ d < n, ∃ a, ref row d = fin a ∧ kern row d = fin a ∧
      |a| < 2 ^ binary32.emax)
    {threads : List (List Row)} (hs : threads.flatten.Perm L) :
    (runThreads n ref kern threads).result.pass = true := by
  have h := (runThreads_summary n ref kern threads).perm hs
  have hself : ∀ x ∈ elems n L, ∃ a, ref x.1 x.2 = fin a ∧ kern x.1 x.2 = fin a := by
    intro x hx
    obtain ⟨hrow, hd⟩ := mem_elems.mp hx
    obtain ⟨a, ha, hb, -⟩ := heq x.1 hrow x.2 hd
    exact ⟨a, ha, hb⟩
  rw [result_pass_iff, relFail_iff h.elems]
  refine ⟨?_, ?_, ?_, ?_⟩
  · rw [h.elems.mismatch, List.countP_eq_zero]
    intro x hx
    obtain ⟨a, ha, hb⟩ := hself x hx
    rw [elemErr, ha, hb, absErr_self]
    exact not_tolAbs_lt_zero
  · rw [h.elems.nonfinite, List.countP_eq_zero]
    intro x hx
    obtain ⟨a, ha, hb⟩ := hself x hx
    rw [elemFinite, ha, hb, rawErr_self]
    exact Bool.false_ne_true
  · rw [h.cos.cosFail, List.countP_eq_zero]
    intro row hrow hfail
    rw [Bool.and_eq_true] at hfail
    have hsame : ∀ d < n, kern row d = ref row d := by
      intro d hd
      obtain ⟨a, ha, hb, -⟩ := heq row hrow d hd
      rw [ha, hb]
    obtain ⟨h1, h2⟩ := rowDots_self hsame
    have hfloat : ∀ d < n, ∃ a b, ref row d = fin a ∧ kern row d = fin b ∧
        |a| < 2 ^ binary32.emax ∧ |b| < 2 ^ binary32.emax := by
      intro d hd
      obtain ⟨a, ha, hb, hlt⟩ := heq row hrow d hd
      exact ⟨a, a, ha, hb, hlt, hlt⟩
    obtain ⟨k, hk⟩ := dotRk_units hn hfloat
    obtain ⟨r, hr, hle⟩ := dotRk_within hn hfloat
    rw [hk] at hr
    have hbound : (k : ℝ) * 2 ^ binary64.emin ≤ 2 ^ (310 : ℤ) := by
      rw [fin.inj hr]
      have hlt : (n : ℝ) ≤ 2 ^ (53 : ℤ) := by exact_mod_cast hn.le
      calc r ≤ n * 2 ^ (256 : ℤ) := (le_abs_self r).trans hle
        _ ≤ 2 ^ (53 : ℤ) * 2 ^ (256 : ℤ) := mul_le_mul_of_nonneg_right hlt (by positivity)
        _ ≤ 2 ^ (310 : ℤ) := by
          rw [← zpow_add₀ two_ne_zero]
          exact zpow_le_zpow_right₀ one_le_two (by norm_num)
    exact cosine_self h1 h2 (h1.symm.trans hk) hbound hfail.1 hfail.2
  · rintro ⟨x, hx, hc, hlt⟩
    obtain ⟨a, ha, hb⟩ := hself x hx
    rw [elemCounts, ha] at hc
    rw [elemRel, ha, hb, relErr_self hc] at hlt
    exact not_tolRel_lt_zero hlt

/-- **An output equal to the reference passes**, however the threads share the rows and in whatever
order they merge: the roundings of the verifier's own `float`s and `double`s stay far within the
tolerances. -/
theorem equal_outputs_pass {β : Type*} (toFloat : β → XReal) (p : FmhaParams) (hd : IsInt p.headDim)
    {ref : Row → ℕ → XReal} {hO : Mem β}
    (heq : ∀ row ∈ rows p, ∀ d < p.headDim.toNat, ∃ a, ref row d = fin a ∧
      oKern toFloat p hO row d = fin a ∧ |a| < 2 ^ binary32.emax)
    {threads : List (List Row)} (hs : threads.flatten.Perm (rows p)) :
    (cpuRefVerify toFloat p ref hO threads).pass = true := by
  have hn : p.headDim.toNat < 2 ^ 53 := by
    have := hd.2
    omega
  exact runThreads_pass hn heq hs

/-- The bits of `1`. -/
lemma bf16ToFloat_one : bf16ToFloat 0x3F80#16 = fin 1 := by
  have hexp : ((0x3F80#16).extractLsb' 7 8).toNat = 127 := by decide
  have hfrac : ((0x3F80#16).extractLsb' 0 7).toNat = 0 := by decide
  have hsign : (0x3F80#16).msb = false := by decide
  simp only [bf16ToFloat, hexp, hfrac, hsign]
  norm_num

/-- Two rows of 1, on two threads. -/
theorem equal_outputs_pass_ones :
    (cpuRefVerify bf16ToFloat twoQueries (fun _ _ => bf16ToFloat 0x3F80#16) (fun _ => 0x3F80#16)
      [[secondQuery], [firstQuery]]).pass = true := by
  refine equal_outputs_pass bf16ToFloat twoQueries ⟨by decide, by decide⟩ (fun row _ d _ => ?_)
    (rows_twoQueries ▸ List.Perm.swap firstQuery secondQuery [])
  refine ⟨1, bf16ToFloat_one, bf16ToFloat_one, ?_⟩
  rw [abs_one]
  exact one_lt_zpow₀ one_lt_two (by norm_num [binary32])

end FmhaNative.EqualOutputs
