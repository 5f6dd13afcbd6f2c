import FmhaNative.Oracles

/-!
The agreement of the two oracles, in exact arithmetic: every row that the CPU oracle checks
holds the truncation of the row it computes.
-/

namespace FmhaNative.Oracles

open Host CpuRef GpuRef GpuRefExact Indexing Loops Stores XReal

/-! ### The parameters of a test -/

/-- A test case as the suites write them: positive dimensions, query heads in whole groups, and
with packed sequences as many keys as the longest one. -/
structure Admissible (tc : TestCase) : Prop where
  h_pos : 0 < tc.h
  d_pos : 0 < tc.d
  kvHeads_nonneg : 0 ≤ tc.kvHeads
  kvSeq_nonneg : 0 ≤ tc.kvSeq
  dvd : (makeParams tc).kvHeads ∣ (makeParams tc).qHeads
  dense : tc.varlenSeqs = [] → 0 < tc.b ∧ 0 < tc.s
  length_nonneg : ∀ s ∈ tc.varlenSeqs, 0 ≤ s
  length_le : ∀ s ∈ tc.varlenSeqs, s ≤ (makeParams tc).kvSeqLen

/-- `make_params` fills in a problem. -/
lemma makeParams_wellFormed {tc : TestCase} (h : Admissible tc)
    (hcount : tc.varlenSeqs.length < 2147483648) : WellFormed (makeParams tc) := by
  obtain ⟨hgqa, hq⟩ := makeParams_groups h.h_pos h.kvHeads_nonneg h.dvd
  refine
    { headDim_pos := h.d_pos
      hdim := if_pos h.d_pos
      kvHeads_pos := makeParams_kvHeads_pos h.h_pos h.kvHeads_nonneg
      gqa_pos := hgqa
      qHeads_eq := hq
      dense := fun hv => ?_
      batch_eq := fun hv => ?_
      length_nonneg := h.length_nonneg
      length_le := fun s hs => ⟨?_, h.length_le s hs⟩ }
  · have hnil := (makeParams_varlenMode tc).mp hv
    obtain ⟨hb, hs⟩ := h.dense hnil
    have := h.kvSeq_nonneg
    rw [makeParams_kvSeqLen, makeParams_batch, makeParams_seqLen, if_pos hnil, if_pos hnil]
    refine ⟨hb, hs, ?_⟩
    split_ifs <;> omega
  · have hne : tc.varlenSeqs ≠ [] := fun hnil => by
      rw [(makeParams_varlenMode tc).mpr hnil] at hv
      exact Bool.false_ne_true hv
    rw [makeParams_batch, if_neg hne]
    exact toInt_eq ⟨by omega, by omega⟩
  · have hne : tc.varlenSeqs ≠ [] := List.ne_nil_of_mem hs
    rw [makeParams_seqLen, if_neg hne]
    exact le_maxSeq hs

/-! ### One row -/

section Row

variable {p : FmhaParams} (hp : WellFormed p) (hw : NoOverflow p) {b hq i : ℤ}
variable {α β : Type*} [Fp α] [Zero β] (bf : Bf16 α β) (hQ hK hV : Mem β)

/-- The score that the CPU oracle computes for a key. -/
def cpuScore (p : FmhaParams) (b hq i : ℤ) (j : ℕ) : α :=
  CpuRef.score bf p hQ hK b hq (hq.tdiv p.gqa) i j

/-- The score that the thread of the row computes for a key. -/
def gpuScore (p : FmhaParams) (b hq i : ℤ) (j : ℕ) : α :=
  GpuRef.score bf (p.gpuRefParams hQ hK hV) (place p b hq i) j

include hp hw

/-- The two oracles read the same elements of Q and K. -/
lemma gpuScore_eq (hc : Checked p b hq i) {j : ℕ} (hj : (j : ℤ) < getSkv p b) :
    gpuScore bf hQ hK hV p b hq i j = cpuScore bf hQ hK p b hq i j := by
  obtain ⟨hkv0, hkv1⟩ := hp.kvHead hc.hq_nonneg hc.hq_lt
  have hsum : ∀ d ∈ Finset.range p.headDim.toNat,
      bf.toFloat (hQ (toSizeT (qOff p b hq i + d)))
          * bf.toFloat (hK (kIndex p (CpuRef.kBase p b (hq.tdiv p.gqa)) j d))
        = bf.toFloat (hQ (rowIndex p b hq i * p.headDim + d))
          * bf.toFloat (hK (keyIndex p b (hq.tdiv p.gqa) 0 * p.headDim + (j * p.headDim + d))) := by
    intro d hd
    have hd' : (d : ℤ) < p.headDim := Int.lt_toNat.mp (Finset.mem_range.mp hd)
    rw [qIndex_eq hp hw hc (Int.natCast_nonneg d) hd', kIndex_eq hp hw hc hkv0 hkv1 hj hd',
      keyIndex_row]
  unfold gpuScore cpuScore GpuRef.score CpuRef.score
  simp only [sumLoop_eq]
  rw [Finset.sum_congr rfl hsum]
  simp only [FmhaParams.gpuRefParams, hp.hdim, decide_eq_true_eq]
  rfl

/-- They read the same elements of V. -/
lemma value_eq (hc : Checked p b hq i) {j d : ℕ} (hj : (j : ℤ) < getSkv p b)
    (hd : (d : ℤ) < p.headDim) :
    kIndex p (CpuRef.vBase p b (hq.tdiv p.gqa)) j d
      = (place p b hq i).vBase + (j * p.headDim + d) := by
  obtain ⟨hkv0, hkv1⟩ := hp.kvHead hc.hq_nonneg hc.hq_lt
  rw [CpuRef.vBase, kIndex_eq hp hw hc hkv0 hkv1 hj hd, ← keyIndex_row]
  rfl

end Row

section Exact

variable {p : FmhaParams} (hp : WellFormed p) (hw : NoOverflow p) {b hq i : ℤ}
variable {β : Type*} [Zero β] (bf : Bf16 XReal β) {hQ hK : Mem β} (hV : Mem β)

/-- A tensor without special values. -/
def RealContents (m : Mem β) : Prop := ∀ e, ∃ r, bf.toFloat (m e) = fin r

include hp

/-- Scores of real contents are real for the attended keys. -/
lemma cpuScores (b hq i : ℤ) (hQr : RealContents bf hQ) (hKr : RealContents bf hK) :
    ∃ x, Scores (getSkv p b).toNat (cpuScore bf hQ hK p b hq i)
      (Attention.keys (p.mask ≠ 0) (getSkv p b) (getSkv p b - getSq p b) i) x := by
  choose q hq' using hQr
  choose k hk using hKr
  have hD : (0 : ℝ) < p.headDim := Int.cast_pos.mpr hp.headDim_pos
  have hscalar : (p.scalar : XReal) = fin (√(p.headDim : ℝ))⁻¹ := by
    unfold FmhaParams.scalar
    rw [lit_def, sqrtf_def, sqrt_fin hD.le, recip_def, recip_fin (Real.sqrt_pos.mpr hD).ne']
  refine ⟨fun j => (∑ d ∈ Finset.range p.headDim.toNat, q (toSizeT (qOff p b hq i + d))
      * k (kIndex p (CpuRef.kBase p b (hq.tdiv p.gqa)) j d)) * (√(p.headDim : ℝ))⁻¹,
    fun j hj => ?_, fun j hj => ?_⟩
  · exact Int.lt_toNat.mpr (Attention.mem_keys.mp hj).1
  · have hmask : (p.mask ≠ 0 ∧ (j : ℤ) > i + (getSkv p b - getSq p b)) ↔
        ¬ j ∈ Attention.keys (p.mask ≠ 0) (getSkv p b) (getSkv p b - getSq p b) i := by
      have hj' : (j : ℤ) < getSkv p b := Int.lt_toNat.mp hj
      rw [Attention.mem_keys]
      simp [hj']
    unfold cpuScore CpuRef.score
    simp only [hmask, hq', hk, sumLoop_eq, fin_mul, sum_fin, hscalar, ite_not, negInf_def]

include hw

/-- **One element**: the thread's output is the truncation of the CPU oracle's. -/
lemma oCell_eq (hQr : RealContents bf hQ) (hKr : RealContents bf hK) (hc : Checked p b hq i)
    (hk : 0 < getSkv p b) (hle : getSkv p b ≤ p.kvSeqLen) :
    ∃ o, oRef bf p hQ hK hV b hq i = some o ∧
      ∀ d : ℕ, (d : ℤ) < p.headDim → oCell bf hQ hK hV p b hq i d = bf.ofFloat (o d) := by
  obtain ⟨x, hcpu⟩ := cpuScores hp bf b hq i hQr hKr
  have hgpu : Scores (getSkv p b).toNat (gpuScore bf hQ hK hV p b hq i)
      (Attention.keys (p.mask ≠ 0) (getSkv p b) (getSkv p b - getSq p b) i) x :=
    ⟨hcpu.subset, fun j hj =>
      (gpuScore_eq hp hw bf hQ hK hV hc (Int.lt_toNat.mp hj)).trans (hcpu.score j hj)⟩
  -- both sides truncate the same normalised weight
  have hprob : ∀ j < (getSkv p b).toNat, pTrunc bf (getSkv p b).toNat (gpuScore bf hQ hK hV p b hq i) j
      = CpuRef.prob bf (getSkv p b).toNat (cpuScore bf hQ hK p b hq i) j := by
    intro j hj
    rw [prob_eq bf hcpu hj]
    unfold pTrunc
    rw [hgpu.prob hj, hcpu.prob hj]
  refine ⟨fun d => sumLoop (getSkv p b).toNat fun j =>
    CpuRef.prob bf (getSkv p b).toNat (cpuScore bf hQ hK p b hq i) j
      * bf.toFloat (hV (kIndex p (CpuRef.vBase p b (hq.tdiv p.gqa)) j d)), ?_, fun d hd => ?_⟩
  · unfold oRef
    exact if_neg (by omega)
  · unfold oCell
    rw [oAcc_eq]
    simp only [sumLoop_eq]
    congr 1
    refine Finset.sum_congr rfl fun j hj => ?_
    have hj' := Finset.mem_range.mp hj
    rw [value_eq hp hw hc (Int.lt_toNat.mp hj') hd, ← hprob j hj']
    rfl

end Exact

/-! ### The launch -/

section Launch

variable {p : FmhaParams} {β : Type*} [Zero β]

/-- What the oracles' agreement is about, for one set of contents: no thread indexes past its
accumulator, and every element that the CPU oracle reads from O lies in the buffer, was written
by the row's thread with the truncation of the CPU oracle's value, and holds it after the
launch, whatever the order of the stores. -/
structure OraclesAgree (bf : Bf16 XReal β) (p : FmhaParams) (hQ hK hV : Mem β) : Prop where
  inBounds : ∀ tid ∈ gridThreads (p.gpuRefParams hQ hK hV : GpuRefParams XReal β),
    gpuRefFmhaKernel bf (p.gpuRefParams hQ hK hV) tid ≠ .outOfBounds
  row : ∀ b hq i, Checked p b hq i → ∃ o, oRef bf p hQ hK hV b hq i = some o ∧
    ∃ tid ∈ gridThreads (p.gpuRefParams hQ hK hV : GpuRefParams XReal β), ∃ ws,
      (tid : ℤ) = (b * p.qHeads + hq) * p.seqLen + i ∧
      gpuRefFmhaKernel bf (p.gpuRefParams hQ hK hV) tid = .wrote ws ∧
      ∀ d : ℕ, (d : ℤ) < p.headDim →
        toSizeT (oOff p b hq i + d) < p.buffers.szO ∧
        (toSizeT (oOff p b hq i + d), bf.ofFloat (o d)) ∈ ws.o ∧
        ∀ (m : Mem β) (order : List (ℤ × β)),
          order.Perm (gpuRefFmhaFwd bf (p.gpuRefParams hQ hK hV)) →
          stores m order (toSizeT (oOff p b hq i + d)) = bf.ofFloat (o d)

/-- A checked row has keys, and the score row has room for them. -/
lemma Checked.keys (hp : WellFormed p) {b hq i : ℤ} (hc : Checked p b hq i) :
    0 < getSkv p b ∧ getSkv p b ≤ p.kvSeqLen := by
  have hi := hc.i_lt
  have hi0 := hc.i_nonneg
  unfold getSq at hi
  unfold getSkv
  cases hv : p.varlenMode
  · exact ⟨(hp.dense hv).2.2, le_rfl⟩
  · simp only [hv, if_true] at hi ⊢
    rcases getD_mem p.varlenSeqs b.toNat with hmem | h0
    · exact ⟨by omega, (hp.length_le _ hmem).2⟩
    · omega

/-- **The oracles agree.** For every test case within the 32-bit products and with a head
dimension that the reference kernel's accumulator holds, and all real contents of Q and K. -/
theorem oracles_agree {tc : TestCase} (ht : Admissible tc) (hw : NoOverflow (makeParams tc))
    (hD : tc.d ≤ 256) (bf : Bf16 XReal β) (hQ hK hV : Mem β) (hQr : RealContents bf hQ)
    (hKr : RealContents bf hK) : OraclesAgree bf (makeParams tc) hQ hK hV := by
  have hp : WellFormed (makeParams tc) := makeParams_wellFormed ht hw.count
  have hD' : ¬ 256 < (makeParams tc).headDim := not_lt.mpr hD
  refine ⟨fun tid _ => ?_, fun b hq i hc => ?_⟩
  · by_cases hchk : ∃ b hq i, Checked (makeParams tc) b hq i ∧ (tid : ℤ) = thread (makeParams tc) b hq i
    · obtain ⟨b, hq, i, hc, he⟩ := hchk
      rw [he, gpuRefFmhaKernel_eq hp hw bf hQ hK hV hc, if_neg hD']
      exact nofun
    · rw [gpuRefFmhaKernel_returned hp hw bf hQ hK hV (Int.natCast_nonneg tid) hchk]
      exact nofun
  · obtain ⟨hk, hle⟩ := hc.keys hp
    obtain ⟨o, ho, hcell⟩ := oCell_eq hp hw bf hV hQr hKr hc hk hle
    obtain ⟨tid, htid, he⟩ : ∃ tid : ℕ, tid ∈ gridThreads
        ((makeParams tc).gpuRefParams hQ hK hV : GpuRefParams XReal β) ∧
        (tid : ℤ) = thread (makeParams tc) b hq i := mem_gridThreads hp hQ hK hV hc
    have hwrote := gpuRefFmhaKernel_eq hp hw bf hQ hK hV hc
    rw [if_neg hD', ← he] at hwrote
    refine ⟨o, ho, tid, htid, _, he, hwrote, fun d hd => ?_⟩
    obtain ⟨-, -, hsz, -⟩ := rowIndex_mem hp hw hc (Int.natCast_nonneg d) hd
    rw [oOff, qIndex_eq hp hw hc (Int.natCast_nonneg d) hd, ← hcell d hd]
    refine ⟨hsz, ?_, fun m order horder => ?_⟩
    · exact List.mem_map.mpr ⟨d, List.mem_range.mpr (Int.lt_toNat.mpr hd), rfl⟩
    · exact stores_gpuRefFmhaFwd hp hw bf hQ hK hV hD hc hd m horder

end Launch

/-- Two causal sequences of two and no rows, one key head for two query heads. -/
def packedPair : TestCase :=
  { b := 1, h := 2, s := 1, d := 2, kvHeads := 1, kvSeq := 3, mask := 1, lse := 0
    varlenSeqs := [2, 0] }

theorem oracles_agree_packedPair :
    OraclesAgree exact (makeParams packedPair) (fun e => fin e) (fun e => fin (-e)) (fun e => fin e) :=
  oracles_agree
    { h_pos := by decide, d_pos := by decide, kvHeads_nonneg := by decide
      kvSeq_nonneg := by decide, dvd := by decide, dense := by decide
      length_nonneg := by decide, length_le := by decide }
    { qStride := by decide, kStride := by decide, packed := by decide, threads := by decide
      count := by decide }
    (by decide) exact _ _ _ (fun e => ⟨e, rfl⟩) fun e => ⟨-e, rfl⟩

/-- One row of 257 columns. -/
def wideHead : TestCase :=
  { b := 1, h := 1, s := 1, d := 257, kvHeads := 0, kvSeq := 0, mask := 0, lse := 0
    varlenSeqs := [] }

/-- A wider head does not fit the accumulator of the reference kernel. -/
theorem oracles_agree_fails_wideHead :
    Admissible wideHead ∧ NoOverflow (makeParams wideHead) ∧
      ¬ OraclesAgree exact (makeParams wideHead) (fun _ => fin 0) (fun _ => fin 0) fun _ => fin 0 := by
  have ht : Admissible wideHead :=
    { h_pos := by decide, d_pos := by decide, kvHeads_nonneg := by decide
      kvSeq_nonneg := by decide, dvd := by decide, dense := by decide
      length_nonneg := by decide, length_le := by decide }
  have hw : NoOverflow (makeParams wideHead) :=
    { qStride := by decide, kStride := by decide, packed := by decide, threads := by decide
      count := by decide }
  refine ⟨ht, hw, fun h => ?_⟩
  have hp := makeParams_wellFormed ht hw.count
  have hc : Checked (makeParams wideHead) 0 0 0 := ⟨by decide, by decide, by decide, by decide,
    by decide, by decide⟩
  obtain ⟨o, -, tid, -, ws, he, hwrote, -⟩ := h.row 0 0 0 hc
  have hout := gpuRefFmhaKernel_eq hp hw exact (fun _ => fin 0) (fun _ => fin 0) (fun _ => fin 0) hc
  rw [if_pos (by decide)] at hout
  rw [he] at hwrote
  exact absurd (hwrote.symm.trans hout) nofun

end FmhaNative.Oracles
