import FmhaNative.DeviceMemory
import FmhaNative.EqualOutputs
import FmhaNative.RefLaunch

/-!
One case of the full-kernel suite, in exact arithmetic: the fused kernel is launched on the buffers
of the host, and what it leaves is compared with the CPU oracle and with the reference kernel.

The suite fills the argument block as the benchmark does.
-/

namespace FmhaNative.SuiteRun

open Host Pipeline Kernel Launch GpuRef GpuRefExact Oracles DeviceMemory RefLaunch Loops Stores
open LseSlots (slot SlotsApart)
open Offsets32 (OffsetsExact exact_of_lastByte)
open CpuRef (getSq getSkv vlOffset)
open XReal (fin exact)

/-- Real numbers, as values of exact arithmetic. -/
def reals (m : Mem ℝ) : Mem XReal := fun e => fin (m e)

/-! ### The argument block -/

section Block

variable (p : FmhaParams) (hQ hK hV : Mem ℝ)

/-- The argument block over the real numbers. -/
noncomputable def realParams : FmhaFwdParams ℝ ℝ :=
  { (p.benchParams (reals hQ) (reals hK) (reals hV) : FmhaFwdParams XReal XReal) with
    q := hQ, k := hK, v := hV
    scale := Real.logb 2 (Real.exp 1) * (√(p.headDim : ℝ))⁻¹ }

lemma realParams_exact {p : FmhaParams} (h : 0 < p.headDim) :
    (realParams p hQ hK hV).exact = p.benchParams (reals hQ) (reals hK) (reals hV) := by
  have hD : (0 : ℝ) < p.headDim := Int.cast_pos.mpr h
  have hscale : (Fp.log2e * Fp.recip (Fp.sqrtf (Fp.lit p.headDim)) : XReal)
      = fin (Real.logb 2 (Real.exp 1) * (√(p.headDim : ℝ))⁻¹) := by
    rw [XReal.lit_def, XReal.sqrtf_def, XReal.sqrt_fin hD.le, XReal.recip_def,
      XReal.recip_fin (Real.sqrt_pos.mpr hD).ne']
    exact XReal.fin_mul _ _
  unfold FmhaFwdParams.exact realParams FmhaParams.benchParams
  simp only [hscale]
  rfl

end Block

section Fields

variable {p : FmhaParams} (hp : WellFormed p) (hw : NoOverflow p) (hQ hK hV : Mem ℝ)
include hp hw

/-- The running starts fit an `int32_t`. -/
lemma vlOffset_isInt (hv : p.varlenMode = true) {b : ℤ} (h0 : 0 ≤ b) (h : b ≤ p.batch) :
    toInt (vlOffset p b) = vlOffset p b := by
  have hpk := vlOffset_packed hp hw hv
  have hlo := hpk.mono le_rfl h0 h
  have hhi := hpk.mono h0 h le_rfl
  have hzero : vlOffset p 0 = 0 := vlOffset_eq hp hw hv 0
  rw [vlOffset_batch hp hw hv] at hhi
  have := (sum_lt hp hw hv).2
  exact toInt_eq ⟨by omega, by omega⟩

/-- The place of a sequence. -/
def seqInfo (p : FmhaParams) (b : ℤ) : SeqInfo :=
  let off := if p.varlenMode then vlOffset p b else 0
  ⟨getSq p b, getSkv p b, off, off⟩

lemma resolveSeq_eq {b : ℤ} (h0 : 0 ≤ b) (h : b < p.batch) :
    resolveSeq p.varlenMode (realParams p hQ hK hV) b = seqInfo p b := by
  unfold resolveSeq seqInfo getSq getSkv realParams FmhaParams.benchParams
  cases hv : p.varlenMode
  · rfl
  · have hseq : p.buffers.seqstart = some (vlOffset p) := by
      unfold FmhaParams.buffers
      simp only [hv, if_true]
      rfl
    have hlen : vlOffset p (b + 1) - vlOffset p b = p.varlenSeqs.getD b.toNat 0 := by
      rw [vlOffset_succ hp hw hv h0, getSq, if_pos hv]
      ring
    simp only [hseq, Option.getD_some, if_true, vlOffset_isInt hp hw hv h0 h.le,
      vlOffset_isInt hp hw hv (by omega : 0 ≤ b + 1) h, hlen]

variable (h64 : p.headDim = 64)
include h64

/-- The strides of the block are those of contiguous tensors. -/
lemma strides_eq :
    let bp := realParams p hQ hK hV
    let rows := fun n => if p.varlenMode then p.varlenSeqs.sum else n
    (bp.strideQ = 64 ∧ bp.strideK = 64 ∧ bp.strideV = 64 ∧ bp.strideO = 64) ∧
      (bp.nheadStrideQ = rows p.seqLen * 64 ∧ bp.nheadStrideK = rows p.kvSeqLen * 64 ∧
        bp.nheadStrideV = rows p.kvSeqLen * 64 ∧ bp.nheadStrideO = rows p.seqLen * 64) ∧
      (p.varlenMode = false → bp.batchStrideQ = p.qHeads * p.seqLen * 64 ∧
        bp.batchStrideK = p.kvHeads * p.kvSeqLen * 64 ∧
        bp.batchStrideV = p.kvHeads * p.kvSeqLen * 64 ∧
        bp.batchStrideO = p.qHeads * p.seqLen * 64) := by
  have hdim : p.hdimDispatch = 64 := hp.hdim.trans h64
  unfold realParams FmhaParams.benchParams
  simp only [hdim]
  refine ⟨⟨trivial, trivial, trivial, trivial⟩, ?_, fun hv => ?_⟩
  · cases hv : p.varlenMode
    · obtain ⟨-, hS, hK0⟩ := hp.dense hv
      have hq := hw.qStride hv
      have hk := hw.kStride hv
      rw [h64] at hq hk
      have hq1 : p.seqLen * 1 ≤ p.seqLen * p.qHeads := mul_le_mul_of_nonneg_left hp.qHeads_pos hS.le
      have hk1 : p.kvSeqLen * 1 ≤ p.kvSeqLen * p.kvHeads :=
        mul_le_mul_of_nonneg_left hp.kvHeads_pos hK0.le
      have hqs : toInt (p.seqLen * 64) = p.seqLen * 64 := toInt_eq ⟨by omega, by nlinarith⟩
      have hks : toInt (p.kvSeqLen * 64) = p.kvSeqLen * 64 := toInt_eq ⟨by omega, by nlinarith⟩
      simp only [Bool.false_eq_true, if_false, hqs, hks, and_self]
    · obtain ⟨h0, -⟩ := sum_lt hp hw hv
      have hpk := hw.packed hv
      rw [h64] at hpk
      have hs : toInt (toUint32 (p.buffers.totalSeqlen * 64)) = p.varlenSeqs.sum * 64 := by
        rw [total_eq hp hw hv, toUint32_eq (by omega) (by omega), toInt_eq ⟨by omega, by omega⟩]
      simp only [if_true, hs, and_self]
  · obtain ⟨-, hS, hK0⟩ := hp.dense hv
    have hq := hw.qStride hv
    have hk := hw.kStride hv
    rw [h64] at hq hk
    have hqp := mul_pos hp.qHeads_pos hS
    have hkp := mul_pos hp.kvHeads_pos hK0
    have hqr : toInt (p.qHeads * p.seqLen) = p.qHeads * p.seqLen := toInt_eq ⟨by omega, by omega⟩
    have hkr : toInt (p.kvHeads * p.kvSeqLen) = p.kvHeads * p.kvSeqLen :=
      toInt_eq ⟨by omega, by omega⟩
    have hqs : toInt (toInt (p.qHeads * p.seqLen) * 64) = p.qHeads * p.seqLen * 64 := by
      rw [hqr, toInt_eq ⟨by omega, by omega⟩]
    have hks : toInt (toInt (p.kvHeads * p.kvSeqLen) * 64) = p.kvHeads * p.kvSeqLen * 64 := by
      rw [hkr, toInt_eq ⟨by omega, by omega⟩]
    simp only [hv, Bool.false_eq_true, if_false, hqs, hks, and_self]

end Fields

/-! ### The launch -/

section Launch

variable {p : FmhaParams} (hp : WellFormed p) (hw : NoOverflow p) (hQ hK hV : Mem ℝ) {b h i : ℤ}

lemma seqLen_nonneg (hp : WellFormed p) (b : ℤ) : 0 ≤ getSq p b ∧ 0 ≤ getSkv p b := by
  unfold getSq getSkv
  cases hv : p.varlenMode
  · obtain ⟨-, hS, hK⟩ := hp.dense hv
    exact ⟨hS.le, hK.le⟩
  · exact ⟨hp.length_mem b, hp.length_mem b⟩

lemma maxLen (hp : WellFormed p) (hbatch : 0 < p.batch) (b : ℤ) : getSq p b ≤ p.seqLen := by
  unfold getSq
  cases hv : p.varlenMode
  · exact le_rfl
  · rw [if_pos rfl]
    have hne : 0 < p.varlenSeqs.length := by
      have := hp.batch_eq hv
      omega
    rcases Indexing.getD_mem p.varlenSeqs b.toNat with hmem | h0
    · exact (hp.length_le _ hmem).1
    · rw [h0]
      have hmem := List.getElem_mem hne
      exact (hp.length_nonneg _ hmem).trans (hp.length_le _ hmem).1

/-- The launch of the suite. -/
noncomputable def suiteLaunch : Launch ℝ ℝ where
  hasMask := p.mask ≠ 0
  isVarlen := p.varlenMode
  params := realParams p hQ hK hV
  batch := p.batch
  nheadK_pos := hp.kvHeads_pos
  nheadQ_pos := hp.qHeads_pos
  gqa := Dvd.intro _ hp.qHeads_eq.symm
  seqlenQ_nonneg b h0 h := by
    rw [resolveSeq_eq hp hw hQ hK hV h0 h]
    exact (seqLen_nonneg hp b).1
  seqlenK_nonneg b h0 h := by
    rw [resolveSeq_eq hp hw hQ hK hV h0 h]
    exact (seqLen_nonneg hp b).2
  seqlenQ_le b h0 h := by
    rw [resolveSeq_eq hp hw hQ hK hV h0 h]
    exact maxLen hp (h0.trans_lt h) b

lemma suite_seq (h0 : 0 ≤ b) (h : b < p.batch) :
    (suiteLaunch hp hw hQ hK hV).seq b = seqInfo p b := resolveSeq_eq hp hw hQ hK hV h0 h

/-- The query rows of the launch are those that the CPU oracle checks. -/
lemma suite_inRange : (suiteLaunch hp hw hQ hK hV).InRange b h i ↔ Checked p b h i := by
  constructor
  · rintro ⟨hb, hbB, hh, hhH, hi, hlt⟩
    rw [suite_seq hp hw hQ hK hV hb hbB] at hlt
    exact ⟨hb, hbB, hh, hhH, hi, hlt⟩
  · rintro ⟨hb, hbB, hh, hhH, hi, hlt⟩
    refine ⟨hb, hbB, hh, hhH, hi, ?_⟩
    rw [suite_seq hp hw hQ hK hV hb hbB]
    exact hlt

include hp hw in
/-- A sequence has no more keys than a 32-bit product allows. -/
lemma getSkv_le (h64 : p.headDim = 64) (h0 : 0 ≤ b) (hB : b < p.batch) : getSkv p b ≤ 2 ^ 25 := by
  cases hv : p.varlenMode
  · have hlen : getSkv p b = p.kvSeqLen := by rw [getSkv, hv, if_neg Bool.false_ne_true]
    have hk := hw.kStride hv
    have hkv := (hp.dense hv).2.2
    have hheads : 1 * p.kvSeqLen ≤ p.kvHeads * p.kvSeqLen :=
      mul_le_mul_of_nonneg_right hp.kvHeads_pos hkv.le
    rw [h64] at hk
    omega
  · have hpk := vlOffset_packed hp hw hv
    have hlo := hpk.mono le_rfl h0 hB.le
    have hhi := hpk.mono (by omega) (by omega : b + 1 ≤ p.batch) le_rfl
    have hzero : vlOffset p 0 = 0 := vlOffset_eq hp hw hv 0
    have hlen : getSkv p b = getSq p b := by rw [getSkv, getSq, hv, if_pos rfl, if_pos rfl]
    have hsum := hw.packed hv
    rw [vlOffset_batch hp hw hv, vlOffset_succ hp hw hv h0] at hhi
    rw [h64] at hsum
    omega

variable (h64 : p.headDim = 64)
include h64

/-- Sequences of at most `2 ^ 24` query rows have exact offsets. -/
lemma suite_exact (hrows : ∀ b, 0 ≤ b → b < p.batch → getSq p b ≤ 2 ^ 24) :
    OffsetsExact (suiteLaunch hp hw hQ hK hV) := by
  obtain ⟨⟨hsQ, hsK, hsV, hsO⟩, -⟩ := strides_eq hp hw hQ hK hV h64
  have hlen : ∀ b, 0 ≤ b → b < (suiteLaunch hp hw hQ hK hV).batch →
      ((suiteLaunch hp hw hQ hK hV).seq b).seqlenQ ≤ 2 ^ 24 ∧
        ((suiteLaunch hp hw hQ hK hV).seq b).seqlenK ≤ 2 ^ 25 := by
    intro b h0 hB
    rw [suite_seq hp hw hQ hK hV h0 hB]
    exact ⟨hrows b h0 hB, getSkv_le hp hw h64 h0 hB⟩
  refine exact_of_lastByte hlen ?_ ?_ ?_ ?_ <;> unfold suiteLaunch <;> dsimp only
  · rw [hsQ]
    decide
  · rw [hsK]
    decide
  · rw [hsV]
    decide
  · rw [hsO]
    decide

/-- A row of Q and of O is where the oracles look for it. -/
lemma suite_qOff (hc : Checked p b h i) :
    (suiteLaunch hp hw hQ hK hV).qOff b h i = rowIndex p b h i * 64 ∧
      (suiteLaunch hp hw hQ hK hV).oOff b h i = rowIndex p b h i * 64 := by
  obtain ⟨⟨hsQ, -, -, hsO⟩, ⟨hnQ, -, -, hnO⟩, hbatch⟩ := strides_eq hp hw hQ hK hV h64
  have hseq := resolveSeq_eq hp hw hQ hK hV hc.b_nonneg hc.b_lt
  unfold Launch.qOff Launch.oOff qBase oBase baseOffset suiteLaunch rowIndex
  simp only [hsQ, hsO, hnQ, hnO, hseq, seqInfo]
  cases hv : p.varlenMode
  · obtain ⟨hbQ, -, -, hbO⟩ := hbatch hv
    simp only [hbQ, hbO, Bool.false_eq_true, if_false]
    constructor <;> ring
  · simp only [if_true]
    constructor <;> ring

/-- A key is where the oracles look for it. -/
lemma suite_kOff (hc : Checked p b h i) (j : ℤ) :
    (suiteLaunch hp hw hQ hK hV).kOff b h j = keyIndex p b (h.tdiv p.gqa) j * 64 ∧
      (suiteLaunch hp hw hQ hK hV).vOff b h j = keyIndex p b (h.tdiv p.gqa) j * 64 := by
  obtain ⟨⟨-, hsK, hsV, -⟩, ⟨-, hnK, hnV, -⟩, hbatch⟩ := strides_eq hp hw hQ hK hV h64
  have hseq := resolveSeq_eq hp hw hQ hK hV hc.b_nonneg hc.b_lt
  have hratio : p.qHeads.tdiv p.kvHeads = p.gqa := by
    rw [hp.qHeads_eq]
    exact Int.mul_tdiv_cancel_left _ hp.kvHeads_pos.ne'
  have hhead : kvHeadIdx (realParams p hQ hK hV) h = h.tdiv p.gqa := by
    unfold kvHeadIdx realParams FmhaParams.benchParams
    simp only [hratio]
  unfold Launch.kOff Launch.vOff kBase vBase baseOffset suiteLaunch keyIndex
  simp only [hsK, hsV, hnK, hnV, hseq, seqInfo, hhead]
  cases hv : p.varlenMode
  · obtain ⟨-, hbK, hbV, -⟩ := hbatch hv
    simp only [hbK, hbV, Bool.false_eq_true, if_false]
    constructor <;> ring
  · simp only [if_true]
    constructor <;> ring

lemma suite_oInjective : (suiteLaunch hp hw hQ hK hV).OInjective := by
  intro b h i b' h' i' d d' hr hd hr' hd' he
  have hc := (suite_inRange hp hw hQ hK hV).mp hr
  have hc' := (suite_inRange hp hw hQ hK hV).mp hr'
  rw [(suite_qOff hp hw hQ hK hV h64 hc).2, (suite_qOff hp hw hQ hK hV h64 hc').2] at he
  obtain ⟨hrow, hcol⟩ := Indexing.radix_inj (Int.natCast_nonneg d) (by omega)
    (Int.natCast_nonneg d') (by omega) he
  obtain ⟨hb, hh, hi⟩ := rowIndex_inj hp hw hc hc' hrow
  exact ⟨hb, hh, hi, Int.ofNat_inj.mp hcol⟩

end Launch

/-! ### The rows of the oracles -/

section Rows

variable {p : FmhaParams} (hp : WellFormed p) (hw : NoOverflow p) (hQ hK hV : Mem ℝ) {b h i : ℤ}

lemma suite_keys (hc : Checked p b h i) : (suiteLaunch hp hw hQ hK hV).keys b i
    = Attention.keys (p.mask ≠ 0) (getSkv p b) (getSkv p b - getSq p b) i := by
  unfold Launch.keys
  rw [suite_seq hp hw hQ hK hV hc.b_nonneg hc.b_lt]
  rfl

/-- The base-2 scale of the block is the scale of the oracles, times `log 2`. -/
lemma suite_scale : (suiteLaunch hp hw hQ hK hV).params.scale * Real.log 2
    = (√(p.headDim : ℝ))⁻¹ := by
  have hlog : Real.logb 2 (Real.exp 1) * Real.log 2 = 1 := by
    rw [Real.logb, Real.log_exp, one_div, inv_mul_cancel₀ (Real.log_pos one_lt_two).ne']
  change Real.logb 2 (Real.exp 1) * (√(p.headDim : ℝ))⁻¹ * Real.log 2 = _
  rw [mul_right_comm, hlog, one_mul]

lemma suite_scale_pos : 0 < (suiteLaunch hp hw hQ hK hV).params.scale := by
  have hD : (0 : ℝ) < p.headDim := Int.cast_pos.mpr hp.headDim_pos
  have hlogb : 0 < Real.logb 2 (Real.exp 1) :=
    Real.logb_pos one_lt_two (Real.one_lt_exp_iff.mpr one_pos)
  exact mul_pos hlogb (inv_pos.mpr (Real.sqrt_pos.mpr hD))

variable (h64 : p.headDim = 64)
include h64

/-- The CPU oracle's scores are those of the launch. -/
lemma suite_scores (hc : Checked p b h i) :
    Scores (getSkv p b).toNat (cpuScore exact (reals hQ) (reals hK) p b h i)
      ((suiteLaunch hp hw hQ hK hV).keys b i) ((suiteLaunch hp hw hQ hK hV).score b h i) := by
  obtain ⟨hkv0, hkv1⟩ := hp.kvHead hc.hq_nonneg hc.hq_lt
  have hD : (0 : ℝ) < p.headDim := Int.cast_pos.mpr hp.headDim_pos
  have hscalar : (p.scalar : XReal) = fin (√(p.headDim : ℝ))⁻¹ := by
    unfold FmhaParams.scalar
    rw [XReal.lit_def, XReal.sqrtf_def, XReal.sqrt_fin hD.le, XReal.recip_def,
      XReal.recip_fin (Real.sqrt_pos.mpr hD).ne']
  rw [suite_keys hp hw hQ hK hV hc]
  refine ⟨fun j hj => Int.lt_toNat.mpr (Attention.mem_keys.mp hj).1, fun j hj => ?_⟩
  have hj' : (j : ℤ) < getSkv p b := Int.lt_toNat.mp hj
  have hdot : sumLoop p.headDim.toNat (fun d =>
      exact.toFloat (reals hQ (toSizeT (CpuRef.qOff p b h i + d))) *
        exact.toFloat (reals hK (CpuRef.kIndex p (CpuRef.kBase p b (h.tdiv p.gqa)) j d)))
      = fin (∑ d ∈ Finset.range 64, (suiteLaunch hp hw hQ hK hV).params.q
          ((suiteLaunch hp hw hQ hK hV).qOff b h i + d) * (suiteLaunch hp hw hQ hK hV).params.k
          ((suiteLaunch hp hw hQ hK hV).kOff b h j + d)) := by
    rw [sumLoop_eq, ← XReal.sum_fin, h64]
    refine Finset.sum_congr rfl fun d hd => ?_
    have hd' : (d : ℤ) < p.headDim := by
      have := Finset.mem_range.mp hd
      omega
    rw [qIndex_eq hp hw hc (Int.natCast_nonneg d) hd', kIndex_eq hp hw hc hkv0 hkv1 hj' hd', h64,
      (suite_qOff hp hw hQ hK hV h64 hc).1, (suite_kOff hp hw hQ hK hV h64 hc j).1]
    exact XReal.fin_mul _ _
  have hmask : (p.mask ≠ 0 ∧ (j : ℤ) > i + (getSkv p b - getSq p b)) ↔
      ¬ j ∈ Attention.keys (p.mask ≠ 0) (getSkv p b) (getSkv p b - getSq p b) i := by
    rw [Attention.mem_keys]
    simp [hj']
  unfold cpuScore CpuRef.score
  simp only [hmask, hdot, hscalar, XReal.fin_mul, ite_not, XReal.negInf_def]
  unfold Launch.score
  rw [suite_scale, mul_comm (√(p.headDim : ℝ))⁻¹]

/-- **The CPU oracle computes the attention.** -/
lemma oRef_attention (hc : Checked p b h i) :
    ∃ o, CpuRef.oRef exact p (reals hQ) (reals hK) (reals hV) b h i = some o ∧
      ∀ d < 64, o d = fin (Attention.output ((suiteLaunch hp hw hQ hK hV).keys b i)
        ((suiteLaunch hp hw hQ hK hV).score b h i) ((suiteLaunch hp hw hQ hK hV).value b h) d) := by
  obtain ⟨hk, hle⟩ := hc.keys hp
  obtain ⟨hkv0, hkv1⟩ := hp.kvHead hc.hq_nonneg hc.hq_lt
  have hs := suite_scores hp hw hQ hK hV h64 hc
  refine ⟨_, if_neg (by omega), fun d hd => ?_⟩
  have hd' : (d : ℤ) < p.headDim := by omega
  rw [sumLoop_eq, Attention.output, ← hs.sum_range, ← XReal.sum_fin]
  refine Finset.sum_congr rfl fun j hj => ?_
  have hj := Finset.mem_range.mp hj
  have hprob : CpuRef.prob exact (getSkv p b).toNat
      (CpuRef.score exact p (reals hQ) (reals hK) b h (h.tdiv p.gqa) i) j
        = fin (if j ∈ (suiteLaunch hp hw hQ hK hV).keys b i then
          Attention.softmax ((suiteLaunch hp hw hQ hK hV).keys b i)
            ((suiteLaunch hp hw hQ hK hV).score b h i) j else 0) :=
    (CpuRef.prob_eq exact hs hj).trans (hs.prob hj)
  have hv : (suiteLaunch hp hw hQ hK hV).value b h j d
      = hV (CpuRef.kIndex p (CpuRef.vBase p b (h.tdiv p.gqa)) j d) := by
    rw [CpuRef.vBase, kIndex_eq hp hw hc hkv0 hkv1 (Int.lt_toNat.mp hj) hd', h64,
      ← (suite_kOff hp hw hQ hK hV h64 hc j).2]
    rfl
  rw [hprob, hv]
  split_ifs
  · exact XReal.fin_mul _ _
  · exact (XReal.fin_mul _ _).trans (by rw [zero_mul])

/-- **The reference thread computes the log-sum-exp.** -/
lemma refLse_attention (hc : Checked p b h i) :
    lseVal (getSkv p b).toNat (GpuRef.score exact
      (p.gpuRefParams (reals hQ) (reals hK) (reals hV)) (place p b h i))
      = Attention.lse ((suiteLaunch hp hw hQ hK hV).keys b i)
          ((suiteLaunch hp hw hQ hK hV).score b h i) := by
  have hs := suite_scores hp hw hQ hK hV h64 hc
  have hgpu : Scores (getSkv p b).toNat (gpuScore exact (reals hQ) (reals hK) (reals hV) p b h i)
      ((suiteLaunch hp hw hQ hK hV).keys b i) ((suiteLaunch hp hw hQ hK hV).score b h i) :=
    ⟨hs.subset, fun j hj =>
      (gpuScore_eq hp hw exact (reals hQ) (reals hK) (reals hV) hc (Int.lt_toNat.mp hj)).trans
        (hs.score j hj)⟩
  exact hgpu.lseVal

end Rows

/-- The output is an average of values. -/
lemma abs_output_lt {A : Finset ℕ} {x : ℕ → ℝ} {v : ℕ → ℕ → ℝ} {B : ℝ} (hB : 0 < B) {d : ℕ}
    (hv : ∀ j, |v j d| < B) : |Attention.output A x v d| < B := by
  rcases A.eq_empty_or_nonempty with rfl | hA
  · rwa [Attention.output, Finset.sum_empty, abs_zero]
  have hpos := Attention.sum_exp_pos hA x
  calc |Attention.output A x v d| ≤ ∑ j ∈ A, |Attention.softmax A x j * v j d| :=
        Finset.abs_sum_le_sum_abs _ _
    _ < ∑ j ∈ A, Attention.softmax A x j * B := by
        refine Finset.sum_lt_sum_of_nonempty hA fun j _ => ?_
        have hweight : 0 < Attention.softmax A x j := div_pos (Real.exp_pos _) hpos
        rw [abs_mul, abs_of_pos hweight]
        exact mul_lt_mul_of_pos_left (hv j) hweight
    _ = B := by rw [← Finset.sum_mul, Attention.sum_softmax hA, one_mul]

/-! ### The two checks -/

section Checks

open CpuVerify HostFp Ieee

/-- `o_ref` -/
noncomputable def oRefVal (p : FmhaParams) (hQ hK hV : Mem ℝ) (row : Row) (d : ℕ) : XReal :=
  (CpuRef.oRef exact p (reals hQ) (reals hK) (reals hV) row.b row.hq row.i).elim .nan fun o => o d

/-- Whether a slot counts as a mismatch; two values of `-inf` do not. -/
noncomputable def lseMismatch (kernVal refVal : XReal) : Bool :=
  !(Fp.eq kernVal Fp.negInf && Fp.eq refVal Fp.negInf) &&
    HostFp.lt (litF (1 / 1000)) (fabsF (subF kernVal refVal))

/-- `lse_mismatches` -/
noncomputable def lseMismatches (n : ℤ) (kern ref : Mem XReal) : ℕ :=
  (List.range n.toNat).countP fun idx : ℕ => lseMismatch (kern idx) (ref idx)

variable {p : FmhaParams} (hp : WellFormed p) (hw : NoOverflow p) (hQ hK hV : Mem ℝ)

lemma mem_rows_checked {row : Row} (h : row ∈ rows p) : Checked p row.b row.hq row.i := by
  simp only [rows, List.mem_flatMap, List.mem_map, List.mem_range] at h
  obtain ⟨b, hb, hq, hhq, i, hi, rfl⟩ := h
  exact ⟨Int.natCast_nonneg b, Int.lt_toNat.mp hb, Int.natCast_nonneg hq, Int.lt_toNat.mp hhq,
    Int.natCast_nonneg i, Int.lt_toNat.mp hi⟩

lemma lseMismatch_self (A : Finset ℕ) (x : ℕ → ℝ) :
    lseMismatch (Attention.lse A x) (Attention.lse A x) = false := by
  rcases A.eq_empty_or_nonempty with rfl | hA
  · have hinf : Fp.eq (Attention.lse ∅ x) (Fp.negInf : XReal) = true :=
      (XReal.eq_def _ _).mpr ⟨if_pos rfl, XReal.noConfusion⟩
    rw [lseMismatch, hinf]
    rfl
  · have hlse : Attention.lse A x = fin (Real.log (∑ j ∈ A, Real.exp (x j))) := if_neg hA.ne_empty
    have herr : fabsF (subF (Attention.lse A x) (Attention.lse A x)) = fin 0 := by
      rw [hlse]
      exact EqualOutputs.rawErr_self _
    have hlt : HostFp.lt (litF (1 / 1000) : XReal) (fin 0) = false :=
      Bool.eq_false_iff.mpr EqualOutputs.not_tolAbs_lt_zero
    rw [lseMismatch, herr, hlt, Bool.and_false]

include hp hw in
/-- A slot of the log-sum-exp is the index of its row. -/
lemma suite_slot (h64 : p.headDim = 64) {b h i : ℤ} (hc : Checked p b h i) :
    slot (suiteLaunch hp hw hQ hK hV) b h i = rowIndex p b h i := by
  obtain ⟨⟨hsQ, -, -, -⟩, ⟨hnQ, -, -, -⟩, -⟩ := strides_eq hp hw hQ hK hV h64
  unfold slot rowIndex suiteLaunch
  simp only [hsQ, hnQ]
  cases hv : p.varlenMode
  · unfold realParams FmhaParams.benchParams
    simp only [Bool.false_eq_true, if_false]
    ring
  · have hseq : (realParams p hQ hK hV).seqstartQ b = vlOffset p b := by
      have hinfo := resolveSeq_eq hp hw hQ hK hV hc.b_nonneg hc.b_lt
      rw [hv, resolveSeq, if_pos rfl] at hinfo
      have hoff := congrArg SeqInfo.offsetQ hinfo
      simp only [seqInfo, hv, if_true] at hoff
      exact hoff
    simp only [if_true, hseq, Int.mul_tdiv_cancel _ (by norm_num : (64 : ℤ) ≠ 0)]
    ring

include hp hw

/-- Two rows have two slots. -/
lemma suite_slotsApart (h64 : p.headDim = 64) : SlotsApart (suiteLaunch hp hw hQ hK hV) := by
  intro b h i b' h' i' hr hr' he
  have hc := (suite_inRange hp hw hQ hK hV).mp hr
  have hc' := (suite_inRange hp hw hQ hK hV).mp hr'
  rw [suite_slot hp hw hQ hK hV h64 hc, suite_slot hp hw hQ hK hV h64 hc'] at he
  exact rowIndex_inj hp hw hc hc' he

/-- What the fused launch leaves in O is what the CPU oracle computes. -/
lemma suite_oElem (h64 : p.headDim = 64) (hrows : ∀ b, 0 ≤ b → b < p.batch → getSq p b ≤ 2 ^ 24)
    {ws : List (ℤ × XReal)} (hws : OStores exact (suiteLaunch hp hw hQ hK hV).exact ws) (m : Mem XReal) {row : Row}
    (hc : Checked p row.b row.hq row.i) {d : ℕ} (hd : d < 64) :
    ∃ L : Finset ℕ, ∃ x : ℕ → ℝ,
      oRefVal p hQ hK hV row d = fin (Attention.output L x
        ((suiteLaunch hp hw hQ hK hV).value row.b row.hq) d) ∧
      oKern exact.toFloat p (stores m ws) row d = fin (Attention.output L x
        ((suiteLaunch hp hw hQ hK hV).value row.b row.hq) d) := by
  refine ⟨(suiteLaunch hp hw hQ hK hV).keys row.b row.i,
    (suiteLaunch hp hw hQ hK hV).score row.b row.hq row.i, ?_, ?_⟩
  · obtain ⟨o, ho, hval⟩ := oRef_attention hp hw hQ hK hV h64 hc
    rw [oRefVal, ho]
    exact hval d hd
  · obtain ⟨hholds, -⟩ := oStores_leave (suiteLaunch hp hw hQ hK hV)
      (suite_scale_pos hp hw hQ hK hV) (suite_exact hp hw hQ hK hV h64 hrows)
      (suite_oInjective hp hw hQ hK hV h64) (List.cons_ne_nil ws []) (by simpa using hws) m
    have helem := hholds _ _ _ d ((suite_inRange hp hw hQ hK hV).mpr hc) hd
    rw [List.flatten_singleton, (suite_qOff hp hw hQ hK hV h64 hc).2] at helem
    rw [oKern, CpuRef.oOff, qIndex_eq hp hw hc (Int.natCast_nonneg d) (by omega), h64]
    exact helem

/-- What the fused launch leaves in its log-sum-exp. -/
lemma suite_lseElem (h64 : p.headDim = 64) (hlse : p.lse ≠ 0) {ws : List (ℤ × XReal)}
    (hws : LseStores exact (suiteLaunch hp hw hQ hK hV).exact ws) (m : Mem XReal) {b h i : ℤ}
    (hc : Checked p b h i) : stores m ws (rowIndex p b h i)
      = Attention.lse ((suiteLaunch hp hw hQ hK hV).keys b i)
          ((suiteLaunch hp hw hQ hK hV).score b h i) := by
  have hon : (suiteLaunch hp hw hQ hK hV).params.lse = true := decide_eq_true hlse
  obtain ⟨hholds, -⟩ := lseStores_leave (suiteLaunch hp hw hQ hK hV)
    (suite_scale_pos hp hw hQ hK hV) hon (suite_slotsApart hp hw hQ hK hV h64) (List.cons_ne_nil ws [])
    (by simpa using hws) m
  have helem := hholds _ _ _ ((suite_inRange hp hw hQ hK hV).mpr hc)
  rwa [List.flatten_singleton, suite_slot hp hw hQ hK hV h64 hc] at helem

/-- What the reference launch leaves in its log-sum-exp. -/
lemma ref_lseElem (h64 : p.headDim = 64) (hlse : p.lse ≠ 0) {rs : List (ℤ × XReal)}
    (hrs : rs.Perm (gpuRefLse exact (p.gpuRefParams (reals hQ) (reals hK) (reals hV))))
    (m : Mem XReal) {b h i : ℤ} (hc : Checked p b h i) : stores m rs (rowIndex p b h i)
      = Attention.lse ((suiteLaunch hp hw hQ hK hV).keys b i)
          ((suiteLaunch hp hw hQ hK hV).score b h i) := by
  have hthread : ∀ {b h i}, Checked p b h i →
      lseStores (gpuRefFmhaKernel exact (p.gpuRefParams (reals hQ) (reals hK) (reals hV))
        (thread p b h i)) = [(rowIndex p b h i, Attention.lse
          ((suiteLaunch hp hw hQ hK hV).keys b i) ((suiteLaunch hp hw hQ hK hV).score b h i))] := by
    intro b h i hc
    rw [gpuRefFmhaKernel_eq hp hw exact (reals hQ) (reals hK) (reals hV) hc, if_neg (by omega),
      lseStores, if_pos hlse, refLse_attention hp hw hQ hK hV h64 hc]
    rfl
  refine stores_of_mem ?_ fun v hv => ?_
  · obtain ⟨tid, htid, ht⟩ : ∃ tid : ℕ, tid ∈ gridThreads (p.gpuRefParams (reals hQ) (reals hK)
      (reals hV) : GpuRefParams XReal XReal) ∧ (tid : ℤ) = thread p b h i :=
        mem_gridThreads hp (reals hQ) (reals hK) (reals hV) hc
    refine hrs.mem_iff.mpr (List.mem_flatMap.mpr ⟨tid, htid, ?_⟩)
    rw [ht, hthread hc]
    exact List.mem_singleton.mpr rfl
  · obtain ⟨tid, -, hmem⟩ := List.mem_flatMap.mp (hrs.mem_iff.mp hv)
    by_cases hchk : ∃ b hq i, Checked p b hq i ∧ (tid : ℤ) = thread p b hq i
    · obtain ⟨b', h', i', hc', ht⟩ := hchk
      rw [ht, hthread hc', List.mem_singleton] at hmem
      obtain ⟨hrow, rfl⟩ := Prod.mk.inj hmem
      obtain ⟨rfl, rfl, rfl⟩ := rowIndex_inj hp hw hc hc' hrow
      rfl
    · rw [(thread_returned hp hw exact (reals hQ) (reals hK) (reals hV) hchk).2] at hmem
      exact absurd hmem List.not_mem_nil

end Checks

/-! ### The case -/

section Case

open CpuVerify Ieee

/-- **A case of the suite passes.** In exact arithmetic, for every admissible case within the 32-bit
products, of at most `2 ^ 24` query rows a sequence, all contents in the range of a `float`, every
interleaving of the waves, every order of the stores and every schedule of the verifier: what the
fused kernel leaves in O passes `cpu_ref_verify`, and its log-sum-exp has no mismatch against that of
the reference kernel. -/
theorem suite_case_passes {tc : TestCase} (ht : Admissible tc) (hw : NoOverflow (makeParams tc))
    (h64 : tc.d = 64)
    (hrows : ∀ b, 0 ≤ b → b < (makeParams tc).batch → getSq (makeParams tc) b ≤ 2 ^ 24)
    (hQ hK hV : Mem ℝ) (hfloat : ∀ e, |hV e| < 2 ^ binary32.emax) :
    let p := makeParams tc
    let L := suiteLaunch (makeParams_wellFormed ht hw.count) hw hQ hK hV
    L.exact.params = p.benchParams (reals hQ) (reals hK) (reals hV) ∧
      (∀ ws, OStores exact L.exact ws → ∀ m threads, threads.flatten.Perm (rows p) →
        (cpuRefVerify exact.toFloat p (oRefVal p hQ hK hV) (stores m ws) threads).pass = true) ∧
      (tc.lse ≠ 0 → ∀ ws rs, LseStores exact L.exact ws →
        rs.Perm (gpuRefLse exact (p.gpuRefParams (reals hQ) (reals hK) (reals hV))) →
        ∀ m m', lseMismatches (szLse p) (stores m ws) (stores m' rs) = 0) := by
  intro p L
  have hp : WellFormed p := makeParams_wellFormed ht hw.count
  have hdim : p.headDim = 64 := h64
  refine ⟨realParams_exact hQ hK hV hp.headDim_pos, fun ws hws m threads hs => ?_,
    fun hlse ws rs hws hrs m m' => ?_⟩
  · refine EqualOutputs.runThreads_pass (by rw [hdim]; norm_num) (fun row hrow d hd => ?_) hs
    rw [hdim] at hd
    obtain ⟨A, x, href, hkern⟩ := suite_oElem hp hw hQ hK hV hdim hrows hws m (mem_rows_checked hrow) hd
    exact ⟨_, href, hkern, abs_output_lt (zpow_pos two_pos _) fun j => hfloat _⟩
  · refine List.countP_eq_zero.mpr fun idx hidx => ?_
    obtain ⟨h0, hsize⟩ := rowCount_mul_lt hp hw
    have hle : p.rowCount p.qHeads p.seqLen * 1 ≤ p.rowCount p.qHeads p.seqLen * p.headDim :=
      mul_le_mul_of_nonneg_left hp.headDim_pos h0
    have hlt : (idx : ℤ) < p.rowCount p.qHeads p.seqLen := by
      have hlt := Int.lt_toNat.mp (List.mem_range.mp hidx)
      rwa [szLse, toSizeT_eq h0 (by omega)] at hlt
    obtain ⟨b, h, i, hc, hrow⟩ := exists_checked hp hw (Int.natCast_nonneg idx) hlt
    rw [← hrow, suite_lseElem hp hw hQ hK hV hdim hlse hws m hc,
      ref_lseElem hp hw hQ hK hV hdim hlse hrs m' hc, lseMismatch_self]
    exact Bool.false_ne_true

/-- Two causal sequences of two and three rows, one key head for two query heads, with the
log-sum-exp. -/
def packedCase : TestCase :=
  { b := 1, h := 2, s := 1, d := 64, kvHeads := 1, kvSeq := 3, mask := 1, lse := 1
    varlenSeqs := [2, 3] }

lemma packedCase_admissible : Admissible packedCase :=
  { h_pos := by decide, d_pos := by decide, kvHeads_nonneg := by decide
    kvSeq_nonneg := by decide, dvd := by decide, dense := by decide
    length_nonneg := by decide, length_le := by decide }

lemma packedCase_noOverflow : NoOverflow (makeParams packedCase) :=
  { qStride := by decide, kStride := by decide, packed := by decide, threads := by decide
    count := by decide }

lemma packedCase_rows (b : ℤ) (h0 : 0 ≤ b) (hB : b < (makeParams packedCase).batch) :
    getSq (makeParams packedCase) b ≤ 2 ^ 24 := by
  have hbatch : (makeParams packedCase).batch = 2 := by decide
  obtain rfl | rfl : b = 0 ∨ b = 1 := by omega
  · decide
  · decide

/-- Ones everywhere, one thread: some launch of the waves passes. -/
theorem suite_case_passes_ones :
    let L := suiteLaunch (makeParams_wellFormed packedCase_admissible packedCase_noOverflow.count)
      packedCase_noOverflow (fun _ => 1) (fun _ => 1) fun _ => 1
    ∃ ws, OStores exact L.exact ws ∧
      (cpuRefVerify exact.toFloat (makeParams packedCase)
        (oRefVal (makeParams packedCase) (fun _ => 1) (fun _ => 1) fun _ => 1)
        (stores (fun _ => .nan) ws) [rows (makeParams packedCase)]).pass = true := by
  intro L
  choose outs houts using fun blk : Dim3 => exists_outcome exact L.exact blk.z blk.x
    (mTile L.exact.hasMask L.exact.grid blk)
  have ho : OStores exact L.exact (launchWrites L.exact.grid fun blk => some (outs blk)) :=
    ⟨outs, fun blk _ => houts blk, List.Perm.refl _⟩
  have hone : ∀ _ : ℤ, |(1 : ℝ)| < 2 ^ binary32.emax := fun _ => by
    rw [abs_one]
    exact one_lt_zpow₀ one_lt_two (by norm_num [binary32])
  refine ⟨_, ho, ?_⟩
  exact (suite_case_passes packedCase_admissible packedCase_noOverflow rfl packedCase_rows
    (fun _ => 1) (fun _ => 1) (fun _ => 1) hone).2.1 _ ho _ _ (by rw [List.flatten_singleton])

end Case

end FmhaNative.SuiteRun
