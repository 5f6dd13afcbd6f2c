import FmhaNative.Bf16Bits
import FmhaNative.SuiteRun

/-!
One case of the oracle-against-oracle suite, with truncation: the reference kernel is launched on the
buffers of the host, the CPU oracle computes its own rows, and the CPU verifier compares them.

Both oracles truncate the probabilities alike; the kernel truncates once more when it stores.
-/

namespace FmhaNative.RefSuite

open Host CpuVerify Oracles GpuRef GpuRefExact Loops Stores TruncatedOutputs Bf16Bits
open CpuRef (getSq getSkv)
open XReal (fin)

/-! ### The case -/

section Case

variable (hQ hK hV : Mem (BitVec 16))

/-- `o_ref` -/
noncomputable def refVal (p : FmhaParams) (row : Row) (d : ℕ) : XReal :=
  (CpuRef.oRef bf16Format p hQ hK hV row.b row.hq row.i).elim .nan fun o => o d

variable {hQ hK hV} {p : FmhaParams}

/-- What the case assumes of the contents. -/
structure Contents (hQ hK hV : Mem (BitVec 16)) : Prop where
  q : RealContents bf16Format hQ
  k : RealContents bf16Format hK
  v : ∀ e, ∃ v, bf16ToFloat (hV e) = fin v ∧ |v| ≤ 1 / 8

/-- The keys of a row. -/
def rowKeys (p : FmhaParams) (row : Row) : Finset ℕ :=
  Attention.keys (p.mask ≠ 0) (getSkv p row.b) (getSkv p row.b - getSq p row.b) row.i

lemma card_rowKeys_le (p : FmhaParams) (row : Row) : (rowKeys p row).card ≤ (getSkv p row.b).toNat :=
  (Finset.card_filter_le _ _).trans (Finset.card_range _).le

/-- The weights are in the range of the format. -/
lemma towardZero_softmax {A : Finset ℕ} (x : ℕ → ℝ) {j : ℕ} (hj : j ∈ A) :
    TowardZero (Attention.softmax A x j) (bf16Trunc (Attention.softmax A x j)) := by
  have hle := Finset.single_le_sum (fun l _ => Attention.softmax_nonneg A x l) hj
  rw [Attention.sum_softmax ⟨j, hj⟩ x] at hle
  apply towardZero_bf16Trunc
  rw [abs_of_nonneg (Attention.softmax_nonneg A x j)]
  exact hle.trans_lt (one_lt_zpow₀ one_lt_two (by norm_num))

/-- The CPU oracle's elements: sums of values, each weight truncated. -/
lemma refVal_eq (hp : WellFormed p) (hct : Contents hQ hK hV) {row : Row}
    (hc : Checked p row.b row.hq row.i) {v : ℤ → ℝ} (hv : ∀ e, bf16ToFloat (hV e) = fin (v e))
    (d : ℕ) : ∃ (x : ℕ → ℝ) (e : ℕ → ℤ), refVal hQ hK hV p row d
      = fin (∑ j ∈ rowKeys p row, bf16Trunc (Attention.softmax (rowKeys p row) x j) * v (e j)) := by
  obtain ⟨hk, hle⟩ := hc.keys hp
  obtain ⟨x, hs⟩ := cpuScores hp bf16Format row.b row.hq row.i hct.q hct.k
  change Scores _ _ (rowKeys p row) x at hs
  generalize rowKeys p row = A at hs
  refine ⟨x, fun j => CpuRef.kIndex p (CpuRef.vBase p row.b (row.hq.tdiv p.gqa)) j d, ?_⟩
  have hprob : ∀ j < (getSkv p row.b).toNat, CpuRef.prob bf16Format (getSkv p row.b).toNat
      (cpuScore bf16Format hQ hK p row.b row.hq row.i) j
        = fin (if j ∈ A then bf16Trunc (Attention.softmax A x j) else 0) := fun j hj => by
    rw [CpuRef.prob_eq bf16Format hs hj, pTrunc, hs.prob hj]
    refine (bf16ToFloat_bf16Below _).trans (congrArg fin ?_)
    split_ifs
    · rfl
    · exact bf16Trunc_zero
  unfold refVal CpuRef.oRef
  rw [if_neg (by omega), Option.elim_some, ← hs.sum_range, ← XReal.sum_fin]
  beta_reduce
  rw [sumLoop_eq]
  refine Finset.sum_congr rfl fun j hj => ?_
  have hj := hprob j (Finset.mem_range.mp hj)
  unfold cpuScore at hj
  have hvj : bf16Format.toFloat (hV (CpuRef.kIndex p (CpuRef.vBase p row.b (row.hq.tdiv p.gqa)) j d))
      = fin (v (CpuRef.kIndex p (CpuRef.vBase p row.b (row.hq.tdiv p.gqa)) j d)) := hv _
  rw [hj, hvj, XReal.fin_mul]
  split_ifs
  · rfl
  · rw [zero_mul]

/-- A sum of values up to 1/8 is no larger. -/
lemma abs_sum_le (A : Finset ℕ) (x : ℕ → ℝ) {v : ℕ → ℝ} (hv : ∀ j, |v j| ≤ 1 / 8) :
    |∑ j ∈ A, bf16Trunc (Attention.softmax A x j) * v j| ≤ 1 / 8 := by
  rcases A.eq_empty_or_nonempty with rfl | hA
  · rw [Finset.sum_empty, abs_zero]
    norm_num
  calc |∑ j ∈ A, bf16Trunc (Attention.softmax A x j) * v j|
      ≤ ∑ j ∈ A, |bf16Trunc (Attention.softmax A x j) * v j| := Finset.abs_sum_le_sum_abs _ _
    _ ≤ ∑ j ∈ A, Attention.softmax A x j * (1 / 8) := by
        refine Finset.sum_le_sum fun j hj => ?_
        have hle := (towardZero_softmax x hj).le
        rw [abs_of_nonneg (Attention.softmax_nonneg A x j)] at hle
        rw [abs_mul]
        exact mul_le_mul hle (hv j) (abs_nonneg _) (Attention.softmax_nonneg A x j)
    _ = (∑ j ∈ A, Attention.softmax A x j) * (1 / 8) := (Finset.sum_mul _ _ _).symm
    _ = 1 / 8 := by rw [Attention.sum_softmax hA, one_mul]

/-- The truncated weights still sum to nearly one. -/
lemma one_sub_le_sum_trunc {A : Finset ℕ} (hA : A.Nonempty) (x : ℕ → ℝ) :
    1 - (1 / 128 + A.card * 2 ^ (-133 : ℤ)) ≤ ∑ j ∈ A, bf16Trunc (Attention.softmax A x j) := by
  have hlost : ∑ j ∈ A, (Attention.softmax A x j - bf16Trunc (Attention.softmax A x j))
      ≤ ∑ j ∈ A, (Attention.softmax A x j / 128 + 2 ^ (-133 : ℤ)) := by
    refine Finset.sum_le_sum fun j hj => (le_abs_self _).trans ?_
    have hle := (towardZero_softmax x hj).lost
    rwa [abs_of_nonneg (Attention.softmax_nonneg A x j)] at hle
  rw [Finset.sum_sub_distrib, Finset.sum_add_distrib, ← Finset.sum_div, Attention.sum_softmax hA,
    Finset.sum_const, nsmul_eq_mul] at hlost
  linarith

/-- **A case of the oracle suite passes**, with truncation, on the bits of bf16: for every admissible
case within the 32-bit products and with a head dimension that the reference kernel's accumulator
holds, finite Q and K, values of V up to 1/8, every order of the stores and every schedule of the
verifier, what the reference kernel leaves in O passes `cpu_ref_verify`. The results of the CPU
oracle are zero or normal numbers. Results that are no `float`s are stored toward zero; those that
are, as `float_to_bf16` stores them. -/
theorem ref_case_passes {tc : TestCase} (ht : Admissible tc) (hw : NoOverflow (makeParams tc))
    (hD : tc.d ≤ 256) (hct : Contents hQ hK hV)
    (hfloat : ∀ row ∈ rows (makeParams tc), ∀ d r, refVal hQ hK hV (makeParams tc) row d = fin r →
      r = 0 ∨ 2 ^ (-126 : ℤ) ≤ |r|)
    {order : List (ℤ × BitVec 16)}
    (horder : order.Perm (gpuRefFmhaFwd bf16Format ((makeParams tc).gpuRefParams hQ hK hV)))
    (m : Mem (BitVec 16)) {threads : List (List Row)} (hs : threads.flatten.Perm (rows (makeParams tc))) :
    (cpuRefVerify bf16ToFloat (makeParams tc) (refVal hQ hK hV (makeParams tc)) (stores m order)
      threads).pass = true ∧
    ∀ u x, floatValue u = fin x →
      bf16ToFloat (bf16Format.ofFloat (fin x)) = bf16ToFloat (floatToBf16 u) := by
  have hp : WellFormed (makeParams tc) := makeParams_wellFormed ht hw.count
  have hdim : (makeParams tc).headDim ≤ 256 := hD
  refine ⟨runThreads_stored (by omega) (fun row hrow d hd => ?_) hs, fun u x => bf16Format_float⟩
  have hd' : (d : ℤ) < (makeParams tc).headDim := Int.lt_toNat.mp hd
  have hc := SuiteRun.mem_rows_checked hrow
  obtain ⟨hk, hle⟩ := hc.keys hp
  choose v hv hv8 using hct.v
  obtain ⟨x, e, hr⟩ := refVal_eq hp hct hc hv d
  have hr8 := abs_sum_le (rowKeys (makeParams tc) row) x fun j => hv8 (e j)
  generalize (Finset.sum (rowKeys (makeParams tc) row) _ : ℝ) = r at hr hr8
  obtain ⟨o, ho, hcell⟩ := oCell_eq hp hw bf16Format hV hct.q hct.k hc hk hle
  have hod : o d = fin r := by
    have := hr
    rwa [refVal, ho, Option.elim_some] at this
  have hkern : oKern bf16ToFloat (makeParams tc) (stores m order) row d = fin (bf16Trunc r) := by
    rw [oKern, CpuRef.oOff, qIndex_eq hp hw hc (Int.natCast_nonneg d) hd',
      stores_gpuRefFmhaFwd hp hw bf16Format hQ hK hV hdim hc hd' m horder, hcell d hd', hod]
    exact bf16ToFloat_bf16Below r
  have hrange : |r| < 2 ^ (128 : ℤ) :=
    hr8.trans_lt (lt_of_lt_of_le (by norm_num) (one_le_zpow₀ one_le_two (by norm_num)))
  exact ⟨r, bf16Trunc r, hr, hkern, (towardZero_bf16Trunc hrange).stored (hfloat row hrow d r hr) hr8⟩

/-- The bits of `1 / 8`. -/
lemma bf16ToFloat_eighth : bf16ToFloat 0x3E00#16 = fin (1 / 8) := by
  have hsign : (0x3E00#16).msb = false := by decide
  have hfields : fields16 0x3E00#16 = 0x3E00 := by decide
  rw [bf16ToFloat_eq, hsign, hfields]
  norm_num [fieldsValue, FloatFields.magnitude]

/-- Ones in Q and K and values 1/8, two causal sequences, two verifier threads. -/
theorem ref_case_passes_eighths :
    let p := makeParams packedPair
    let one : Mem (BitVec 16) := fun _ => 0x3F80#16
    let eighth : Mem (BitVec 16) := fun _ => 0x3E00#16
    (cpuRefVerify bf16ToFloat p (refVal one one eighth p)
      (stores (fun _ => 0x7FC0#16) (gpuRefFmhaFwd bf16Format (p.gpuRefParams one one eighth)))
      [(rows p).drop 1, (rows p).take 1]).pass = true := by
  intro p one eighth
  have ht : Admissible packedPair :=
    { h_pos := by decide, d_pos := by decide, kvHeads_nonneg := by decide
      kvSeq_nonneg := by decide, dvd := by decide, dense := by decide
      length_nonneg := by decide, length_le := by decide }
  have hw : NoOverflow p :=
    { qStride := by decide, kStride := by decide, packed := by decide, threads := by decide
      count := by decide }
  have hone (e : ℤ) : bf16Format.toFloat (one e) = fin 1 :=
    (bf16Format_toFloat _).trans EqualOutputs.bf16ToFloat_one
  have height (e : ℤ) : bf16ToFloat (eighth e) = fin (1 / 8) := bf16ToFloat_eighth
  have hct : Contents one one eighth :=
    ⟨fun e => ⟨1, hone e⟩, fun e => ⟨1, hone e⟩, fun e => ⟨1 / 8, height e, by norm_num⟩⟩
  refine (ref_case_passes ht hw (by decide) hct (fun row hrow d r hr => ?_) (List.Perm.refl _) _ ?_).1
  · have hc := SuiteRun.mem_rows_checked hrow
    obtain ⟨x, e, he⟩ := refVal_eq (makeParams_wellFormed ht hw.count) hct hc (v := fun _ => 1 / 8)
      height d
    obtain rfl := XReal.fin.inj (hr.symm.trans he)
    rcases (rowKeys p row).eq_empty_or_nonempty with hA | hA
    · exact Or.inl (by rw [hA, Finset.sum_empty])
    -- the weights sum to one, and little of it is lost
    have hcard : ((rowKeys p row).card : ℝ) ≤ (3 : ℕ) := by
      have hkeys : getSkv p row.b ≤ p.kvSeqLen := (hc.keys (makeParams_wellFormed ht hw.count)).2
      have hlen : p.kvSeqLen ≤ 3 := by decide
      have hle := card_rowKeys_le p row
      exact Nat.cast_le.mpr (by omega)
    have hkept := one_sub_le_sum_trunc hA x
    change _ ∨ _ ≤ |∑ j ∈ rowKeys p row, bf16Trunc (Attention.softmax (rowKeys p row) x j) * (1 / 8)|
    rw [← Finset.sum_mul]
    generalize (∑ j ∈ rowKeys p row, bf16Trunc (Attention.softmax (rowKeys p row) x j)) = kept at hkept ⊢
    generalize ((rowKeys p row).card : ℝ) = n at hcard hkept
    refine Or.inr (le_trans ?_ (le_abs_self _))
    norm_num at hcard hkept ⊢
    linarith
  · rw [List.flatten_cons, List.flatten_singleton]
    exact List.perm_append_comm.trans (by rw [List.take_append_drop])

end Case

end FmhaNative.RefSuite
