import FmhaNative.CpuRef
import FmhaNative.Indexing

/-!
Where the host and the two kernels look for an element of Q, K, V or O, in the integer widths
of the sources, and when they agree.
-/

namespace FmhaNative.HostLayouts

open Host CpuRef Indexing

inductive Tensor
  | q
  | k
  | v
  | o

section Elements

variable (p : FmhaParams)

def heads : Tensor → ℤ
  | .q | .o => p.qHeads
  | .k | .v => p.kvHeads

/-- The length of sequence `b`. -/
def rows (b : ℤ) : Tensor → ℤ
  | .q | .o => getSq p b
  | .k | .v => getSkv p b

/-- `sz_Q`, `sz_K`, `sz_V` and `sz_O` -/
def size : Tensor → ℤ
  | .q => p.buffers.szQ
  | .k => p.buffers.szK
  | .v => p.buffers.szV
  | .o => p.buffers.szO

/-- The byte strides of `FmhaBuffers`; V has those of K, and O those of Q. -/
def strideSeq : Tensor → ℤ
  | .q | .o => p.buffers.strideQSeq
  | .k | .v => p.buffers.strideKSeq
def strideHead : Tensor → ℤ
  | .q | .o => p.buffers.strideQHead
  | .k | .v => p.buffers.strideKHead
def strideBatch : Tensor → ℤ
  | .q | .o => p.buffers.strideQBatch
  | .k | .v => p.buffers.strideKBatch

/-- The row of a packed sequence counts from the sequence's start. -/
def bufsElem (t : Tensor) (b h s d : ℤ) : ℤ :=
  toSizeT (b * (strideBatch p t / 2) + h * (strideHead p t / 2)
    + ((p.buffers.seqstart.getD (fun _ => 0) b) + s) * (strideSeq p t / 2) + d)

/-- The element index of the CPU oracle. -/
def cpuElem (t : Tensor) (b h s d : ℤ) : ℤ :=
  match t with
  | .q => toSizeT (qOff p b h s + d)
  | .o => toSizeT (oOff p b h s + d)
  | .k => toSizeT (CpuRef.kBase p b h + s * p.hdimDispatch + d)
  | .v => toSizeT (CpuRef.vBase p b h + s * p.hdimDispatch + d)

end Elements

section Kernel

variable {α β : Type*} (isVarlen : Bool) (fp : FmhaFwdParams α β)

/-- The base pointer of the fused kernel for one batch and head of a tensor. -/
def kernBase (t : Tensor) (b h : ℤ) : ℤ :=
  let seq := Pipeline.resolveSeq isVarlen fp b
  match t with
  | .q => Pipeline.baseOffset isVarlen b h seq.offsetQ fp.strideQ fp.nheadStrideQ fp.batchStrideQ
  | .k => Pipeline.baseOffset isVarlen b h seq.offsetK fp.strideK fp.nheadStrideK fp.batchStrideK
  | .v => Pipeline.baseOffset isVarlen b h seq.offsetK fp.strideV fp.nheadStrideV fp.batchStrideV
  | .o => Pipeline.baseOffset isVarlen b h seq.offsetQ fp.strideO fp.nheadStrideO fp.batchStrideO

/-- The row stride of a tensor. -/
def kernStride : Tensor → ℤ
  | .q => fp.strideQ
  | .k => fp.strideK
  | .v => fp.strideV
  | .o => fp.strideO

/-- The element that the fused kernel addresses. -/
def kernElem (t : Tensor) (b h s d : ℤ) : ℤ := kernBase isVarlen fp t b h + s * kernStride fp t + d

/-- The key head is the one that the query head maps to. -/
lemma kernBase_eq (b h : ℤ) :
    kernBase isVarlen fp .q b h = Pipeline.qBase isVarlen fp b h ∧
    kernBase isVarlen fp .k b (Pipeline.kvHeadIdx fp h) = Pipeline.kBase isVarlen fp b h ∧
    kernBase isVarlen fp .v b (Pipeline.kvHeadIdx fp h) = Pipeline.vBase isVarlen fp b h ∧
    kernBase isVarlen fp .o b h = Pipeline.oBase isVarlen fp b h :=
  ⟨rfl, rfl, rfl, rfl⟩

end Kernel

/-! ### Agreement -/

/-- An index of a tensor. -/
structure InRange (p : FmhaParams) (t : Tensor) (b h s d : ℤ) : Prop where
  b_nonneg : 0 ≤ b
  b_lt : b < p.batch
  h_nonneg : 0 ≤ h
  h_lt : h < heads p t
  s_nonneg : 0 ≤ s
  s_lt : s < rows p b t
  d_nonneg : 0 ≤ d
  d_lt : d < p.hdimDispatch

/-- The three address computations select one element, inside the buffer, and distinct indices
have distinct elements. -/
structure Agree {α β : Type*} (p : FmhaParams) (fp : FmhaFwdParams α β) (t : Tensor) : Prop where
  bufs : ∀ b h s d, InRange p t b h s d → bufsElem p t b h s d = cpuElem p t b h s d
  kern : ∀ b h s d, InRange p t b h s d → kernElem p.varlenMode fp t b h s d = cpuElem p t b h s d
  lt_size : ∀ b h s d, InRange p t b h s d → cpuElem p t b h s d < size p t
  inj : ∀ b h s d b' h' s' d', InRange p t b h s d → InRange p t b' h' s' d' →
    cpuElem p t b h s d = cpuElem p t b' h' s' d' → b = b' ∧ h = h' ∧ s = s' ∧ d = d'

/-- The products that the 32-bit widths hold, for a tensor with `H` heads in dense mode. -/
def DenseOk (p : FmhaParams) (H : ℤ) : Prop :=
  0 < p.batch → 0 < H → 0 < p.seqLen → 0 < p.headDim →
    (p.batch = 1 ∨ H * p.seqLen * p.headDim < 2147483648) ∧
      (H = 1 ∨ p.seqLen * p.headDim < 2147483648)

/-- The lengths of packed sequences, their sum and their partial sums, modulo `2 ^ 32`. -/
def seqLength (p : FmhaParams) (b : ℤ) : ℤ := p.varlenSeqs.getD b.toNat 0
def total (p : FmhaParams) : ℤ := p.varlenSeqs.sum % 4294967296
def start (p : FmhaParams) (b : ℤ) : ℤ := (p.varlenSeqs.take b.toNat).sum % 4294967296

/-- The same in varlen mode: every sequence that is not empty lies below the total, starts
below `2 ^ 31`, and overlaps no other. -/
def VarlenOk (p : FmhaParams) (H : ℤ) : Prop :=
  0 < H → 0 < p.headDim → ∀ b, 0 ≤ b → b < p.batch → 0 < seqLength p b →
    (H = 1 ∨ total p * p.headDim < 2147483648) ∧
      start p b < 2147483648 ∧ start p b + seqLength p b ≤ total p ∧
      ∀ b', 0 ≤ b' → b' < p.batch → b' ≠ b → 0 < seqLength p b' →
        start p b + seqLength p b ≤ start p b' ∨ start p b' + seqLength p b' ≤ start p b

def WidthsOk (p : FmhaParams) (H : ℤ) : Prop :=
  if p.varlenMode then VarlenOk p H else DenseOk p H

/-! ### The elements in closed form -/

section Closed

variable {p : FmhaParams} (hp : Accepted p)
include hp

lemma hdimDispatch_eq : p.hdimDispatch = p.headDim := by
  unfold FmhaParams.hdimDispatch
  rw [hp.hdimPadded, if_neg (lt_irrefl 0)]

lemma rows_eq (b : ℤ) (t : Tensor) : rows p b t = if p.varlenMode then seqLength p b else p.seqLen := by
  unfold rows getSq getSkv seqLength
  rw [hp.kvSeqLen]
  cases t <;> rfl

lemma size_eq (t : Tensor) : size p t = toSizeT (if p.varlenMode then heads p t * total p * p.headDim
    else p.batch * heads p t * p.seqLen * p.headDim) := by
  have hsize : size p t = toSizeT (p.rowCount (heads p t) p.seqLen * p.headDim) := by
    rw [← hdimDispatch_eq hp]
    cases t with
    | q | o => exact p.szQ_eq
    | k | v => rw [← hp.kvSeqLen]; exact p.szK_eq
  rw [hsize, FmhaParams.rowCount]
  split_ifs with hv
  · rw [totalSeqlen_eq hv]
    rfl
  · rfl

omit hp in
lemma seqOffsets_start (b : ℤ) : seqOffsets p.varlenSeqs b.toNat = start p b := seqOffsets_eq _ _

lemma cpuElem_eq (t : Tensor) (b h s d : ℤ) : cpuElem p t b h s d
    = toSizeT (if p.varlenMode then (h * total p + (start p b + s)) * p.headDim + d
        else ((b * heads p t + h) * p.seqLen + s) * p.headDim + d) := by
  cases hv : p.varlenMode
  · have hq : qOff p b h s = toSizeT (((b * p.qHeads + h) * p.seqLen + s) * p.headDim) := by
      simp only [qOff, hv, hdimDispatch_eq hp, Bool.false_eq_true, if_false]
    have hk : CpuRef.kBase p b h = toSizeT ((b * p.kvHeads + h) * p.seqLen * p.headDim) := by
      simp only [CpuRef.kBase, hv, hdimDispatch_eq hp, hp.kvSeqLen, Bool.false_eq_true, if_false]
    simp only [Bool.false_eq_true, if_false]
    cases t
    · rw [cpuElem, hq, toSizeT_add]
      rfl
    · rw [cpuElem, hk, hdimDispatch_eq hp, add_assoc, toSizeT_add]
      congr 1
      simp only [heads]
      ring
    · rw [cpuElem, CpuRef.vBase, hk, hdimDispatch_eq hp, add_assoc, toSizeT_add]
      congr 1
      simp only [heads]
      ring
    · rw [cpuElem, oOff, hq, toSizeT_add]
      rfl
  · have htot : p.buffers.totalSeqlen = total p := totalSeqlen_eq hv
    have hvl : vlOffset p b = start p b := seqOffsets_start b
    have hq : qOff p b h s = toSizeT ((h * total p + start p b + s) * p.headDim) := by
      simp only [qOff, hv, hdimDispatch_eq hp, htot, hvl, if_true]
    have hk : CpuRef.kBase p b h = toSizeT ((h * total p + start p b) * p.headDim) := by
      simp only [CpuRef.kBase, hv, hdimDispatch_eq hp, htot, hvl, if_true]
    simp only [if_true]
    cases t
    · rw [cpuElem, hq, toSizeT_add, add_assoc (h * total p)]
    · rw [cpuElem, hk, hdimDispatch_eq hp, add_assoc, toSizeT_add]
      congr 1
      ring
    · rw [cpuElem, CpuRef.vBase, hk, hdimDispatch_eq hp, add_assoc, toSizeT_add]
      congr 1
      ring
    · rw [cpuElem, oOff, hq, toSizeT_add, add_assoc (h * total p)]

/-- The strides of the benchmark, and the element that the fused kernel finds with them. -/
lemma kernElem_eq {α β : Type*} [Fp α] (hQ hK hV : Mem β) (t : Tensor) (b h s d : ℤ) :
    kernElem p.varlenMode (p.benchParams hQ hK hV : FmhaFwdParams α β) t b h s d
      = if p.varlenMode then h * toInt (total p * p.headDim) + toInt (start p b) * p.headDim
            + s * p.headDim + d
        else b * toInt (heads p t * p.seqLen * p.headDim) + h * toInt (p.seqLen * p.headDim)
            + s * p.headDim + d := by
  cases hv : p.varlenMode
  · have hbatch : ∀ x y : ℤ, toInt (toInt (x * y) * p.headDim) = toInt (x * y * p.headDim) :=
      fun x y => toInt_mul _ _
    simp only [Bool.false_eq_true, if_false, ← hbatch]
    cases t <;> simp only [kernElem, kernBase, kernStride, Pipeline.baseOffset, heads,
      FmhaParams.benchParams, hv, hdimDispatch_eq hp, hp.kvSeqLen, Bool.false_eq_true, if_false]
  · have htot : p.buffers.totalSeqlen = total p := totalSeqlen_eq hv
    have hseq : p.buffers.seqstart = some fun b => seqOffsets p.varlenSeqs b.toNat := by
      unfold FmhaParams.buffers
      simp only [hv, if_true]
    simp only [if_true, ← toInt_toUint32 (total p * p.headDim), ← seqOffsets_start b]
    cases t <;> simp only [kernElem, kernBase, kernStride, Pipeline.baseOffset,
      Pipeline.resolveSeq, FmhaParams.benchParams, hv, hdimDispatch_eq hp, htot, hseq,
      Option.getD_some, if_true]

/-- The element that the byte strides select, halved. -/
lemma bufsElem_eq (hD : 0 < p.headDim) (t : Tensor) (b h s d : ℤ) : bufsElem p t b h s d
    = toSizeT (if p.varlenMode then h * (toUint32 (total p * p.headDim * 2) / 2)
          + (start p b + s) * p.headDim + d
        else b * (toUint32 (heads p t * p.seqLen * p.headDim * 2) / 2)
          + h * (toUint32 (p.seqLen * p.headDim * 2) / 2) + s * p.headDim + d) := by
  have hseq : toUint32 (toInt (p.headDim * 2)) = p.headDim * 2 := by
    have := hp.headDim.2
    rw [toUint32_toInt, toUint32_eq] <;> omega
  have hrow : ∀ t, strideSeq p t / 2 = p.headDim := by
    intro t
    have : strideSeq p t = p.headDim * 2 := by
      rw [← hseq, ← hdimDispatch_eq hp]
      cases t <;> rfl
    omega
  cases hv : p.varlenMode
  · have hhead : ∀ t, strideHead p t = toUint32 (p.seqLen * p.headDim * 2) := by
      intro t
      rw [mul_assoc, ← hseq]
      cases t <;> simp only [strideHead, FmhaParams.buffers, hv, hdimDispatch_eq hp, hp.kvSeqLen,
        Bool.false_eq_true, if_false]
    have hbatch : strideBatch p t = toUint32 (heads p t * p.seqLen * p.headDim * 2) := by
      have : heads p t * p.seqLen * p.headDim * 2 = heads p t * (p.seqLen * p.headDim * 2) := by ring
      rw [this, ← toUint32_mul, ← hhead t]
      cases t <;> simp only [strideBatch, strideHead, heads, FmhaParams.buffers, hv,
        Bool.false_eq_true, if_false]
    have hstart : p.buffers.seqstart = none := by
      unfold FmhaParams.buffers
      simp only [hv, Bool.false_eq_true, if_false]
    simp only [bufsElem, hhead, hbatch, hrow, hstart, Option.getD_none, zero_add,
      Bool.false_eq_true, if_false]
  · have htot : p.buffers.totalSeqlen = total p := totalSeqlen_eq hv
    have hhead : ∀ t, strideHead p t = toUint32 (total p * p.headDim * 2) := by
      intro t
      rw [mul_assoc, ← hseq, ← htot]
      cases t <;> simp only [strideHead, FmhaParams.buffers, hv, hdimDispatch_eq hp, if_true]
    have hbatch : strideBatch p t = 0 := by
      cases t <;> simp only [strideBatch, FmhaParams.buffers, hv, if_true]
    have hstart : p.buffers.seqstart = some fun b => seqOffsets p.varlenSeqs b.toNat := by
      unfold FmhaParams.buffers
      simp only [hv, if_true]
    simp only [bufsElem, hhead, hbatch, hrow, hstart, Option.getD_some, seqOffsets_start b,
      if_true]
    congr 1
    ring

end Closed

/-! ### Dense mode -/

section Dense

variable {p : FmhaParams} (hp : Accepted p) {t : Tensor}
include hp

lemma heads_isInt (t : Tensor) : IsInt (heads p t) := by
  cases t
  · exact hp.qHeads
  · exact hp.kvHeads
  · exact hp.kvHeads
  · exact hp.qHeads

/-- What the widths allow for a tensor that has an element. -/
lemma dense_size_lt (hB : 0 < p.batch) (hH : 0 < heads p t) (hS : 0 < p.seqLen) (hD : 0 < p.headDim)
    (hok : DenseOk p (heads p t)) :
    p.batch * heads p t * p.seqLen * p.headDim < 4611686018427387904 := by
  obtain ⟨hbatch, hhead⟩ := hok hB hH hS hD
  have hrow : 0 ≤ p.seqLen * p.headDim := (mul_pos hS hD).le
  have hseq : 0 ≤ heads p t * p.seqLen * p.headDim := (mul_pos (mul_pos hH hS) hD).le
  rcases hbatch with h1 | hlt
  · rw [h1, one_mul, mul_assoc]
    rcases hhead with h1 | hlt
    · rw [h1, one_mul]
      exact mul_lt_of_int hS.le hp.seqLen.2 hD.le hp.headDim.2
    · exact mul_lt_of_int hH.le (heads_isInt hp t).2 hrow hlt
  · rw [mul_assoc, mul_assoc, ← mul_assoc (heads p t)]
    exact mul_lt_of_int hB.le hp.batch.2 hseq hlt

variable (hv : p.varlenMode = false)
include hv

lemma dense_bounds {b h s d : ℤ} (hr : InRange p t b h s d) : s < p.seqLen ∧ d < p.headDim := by
  have hs := hr.s_lt
  have hd := hr.d_lt
  rw [rows_eq hp, hv] at hs
  rw [hdimDispatch_eq hp] at hd
  exact ⟨hs, hd⟩

/-- An index of a dense tensor is a mixed-radix number. -/
lemma dense_radix {b h s d : ℤ} (hr : InRange p t b h s d) :
    0 ≤ ((b * heads p t + h) * p.seqLen + s) * p.headDim + d ∧
      ((b * heads p t + h) * p.seqLen + s) * p.headDim + d
        < p.batch * heads p t * p.seqLen * p.headDim := by
  obtain ⟨hs, hd⟩ := dense_bounds hp hv hr
  have hb := hr.b_nonneg
  have hh := hr.h_nonneg
  have hs0 := hr.s_nonneg
  have hd0 := hr.d_nonneg
  have hH : 0 ≤ heads p t := hh.trans hr.h_lt.le
  have hS : 0 ≤ p.seqLen := hs0.trans hs.le
  have hD : 0 ≤ p.headDim := hd0.trans hd.le
  refine ⟨by positivity, ?_⟩
  exact radix_lt hd0 hd (radix_lt hs0 hs (radix_lt hh hr.h_lt hr.b_lt))

/-- What the widths allow for the tensor that an index belongs to. -/
structure DenseIndex (p : FmhaParams) (t : Tensor) (b h : ℤ) : Prop where
  headDim_pos : 0 < p.headDim
  batch : b = 0 ∨ heads p t * p.seqLen * p.headDim < 2147483648
  head : h = 0 ∨ p.seqLen * p.headDim < 2147483648
  batch_nonneg : 0 ≤ heads p t * p.seqLen * p.headDim
  head_nonneg : 0 ≤ p.seqLen * p.headDim
  size : p.batch * heads p t * p.seqLen * p.headDim < 4611686018427387904

lemma denseIndex (hok : DenseOk p (heads p t)) {b h s d : ℤ} (hr : InRange p t b h s d) :
    DenseIndex p t b h := by
  obtain ⟨hs, hd⟩ := dense_bounds hp hv hr
  have hB : 0 < p.batch := lt_of_le_of_lt hr.b_nonneg hr.b_lt
  have hH : 0 < heads p t := lt_of_le_of_lt hr.h_nonneg hr.h_lt
  have hS : 0 < p.seqLen := lt_of_le_of_lt hr.s_nonneg hs
  have hD : 0 < p.headDim := lt_of_le_of_lt hr.d_nonneg hd
  obtain ⟨hbatch, hhead⟩ := hok hB hH hS hD
  have hb := hr.b_lt
  have hb0 := hr.b_nonneg
  have hh := hr.h_lt
  have hh0 := hr.h_nonneg
  refine ⟨hD, hbatch.imp_left fun h1 => ?_, hhead.imp_left fun h1 => ?_,
    (mul_pos (mul_pos hH hS) hD).le, (mul_pos hS hD).le, dense_size_lt hp hB hH hS hD hok⟩
  · omega
  · omega

omit hp hv in
/-- The strides are the weights of the mixed-radix number. -/
lemma dense_strides (p : FmhaParams) (t : Tensor) (b h s d : ℤ) :
    b * (heads p t * p.seqLen * p.headDim) + h * (p.seqLen * p.headDim) + s * p.headDim + d
      = ((b * heads p t + h) * p.seqLen + s) * p.headDim + d := by
  ring

lemma dense_cpuElem (hok : DenseOk p (heads p t)) {b h s d : ℤ} (hr : InRange p t b h s d) :
    cpuElem p t b h s d = ((b * heads p t + h) * p.seqLen + s) * p.headDim + d := by
  obtain ⟨h0, hlt⟩ := dense_radix hp hv hr
  have hsize := (denseIndex hp hv hok hr).size
  rw [cpuElem_eq hp, hv, if_neg Bool.false_ne_true]
  exact toSizeT_eq h0 (by omega)

lemma dense_agree {α β : Type*} [Fp α] (hQ hK hV : Mem β) (hok : DenseOk p (heads p t)) :
    Agree p (p.benchParams hQ hK hV : FmhaFwdParams α β) t := by
  refine ⟨fun b h s d hr => ?_, fun b h s d hr => ?_, fun b h s d hr => ?_,
    fun b h s d b' h' s' d' hr hr' he => ?_⟩
  · have hi := denseIndex hp hv hok hr
    rw [bufsElem_eq hp hi.headDim_pos, cpuElem_eq hp, hv]
    simp only [Bool.false_eq_true, if_false]
    rw [mul_half_toUint32 hi.batch hi.batch_nonneg, mul_half_toUint32 hi.head hi.head_nonneg,
      dense_strides]
  · have hi := denseIndex hp hv hok hr
    rw [kernElem_eq hp, dense_cpuElem hp hv hok hr, hv, if_neg Bool.false_ne_true,
      mul_toInt hi.batch hi.batch_nonneg, mul_toInt hi.head hi.head_nonneg, dense_strides]
  · obtain ⟨h0, hlt⟩ := dense_radix hp hv hr
    have hsize := (denseIndex hp hv hok hr).size
    rw [dense_cpuElem hp hv hok hr, size_eq hp, hv, if_neg Bool.false_ne_true]
    rwa [toSizeT_eq (h0.trans hlt.le) (by omega)]
  · rw [dense_cpuElem hp hv hok hr, dense_cpuElem hp hv hok hr'] at he
    obtain ⟨hs, hd⟩ := dense_bounds hp hv hr
    obtain ⟨hs', hd'⟩ := dense_bounds hp hv hr'
    obtain ⟨hrow, hcol⟩ := radix_inj hr.d_nonneg hd hr'.d_nonneg hd' he
    obtain ⟨hhead, hs⟩ := radix_inj hr.s_nonneg hs hr'.s_nonneg hs' hrow
    obtain ⟨hb, hh⟩ := radix_inj hr.h_nonneg hr.h_lt hr'.h_nonneg hr'.h_lt hhead
    exact ⟨hb, hh, hs, hcol⟩

/-- The first element of the second head, and of the second batch, tell when a product wraps. -/
lemma denseOk_of_agree {α β : Type*} [Fp α] {hQ hK hV : Mem β}
    (h : Agree p (p.benchParams hQ hK hV : FmhaFwdParams α β) t) : DenseOk p (heads p t) := by
  intro hB hH hS hD
  have hin : ∀ b h, 0 ≤ b → b < p.batch → 0 ≤ h → h < heads p t → InRange p t b h 0 0 := by
    intro b h hb hbB hh hhH
    refine ⟨hb, hbB, hh, hhH, le_rfl, ?_, le_rfl, ?_⟩
    · rw [rows_eq hp, hv]
      exact hS
    · rwa [hdimDispatch_eq hp]
  have hSD := mul_lt_of_int hS.le hp.seqLen.2 hD.le hp.headDim.2
  have hSD0 : 0 < p.seqLen * p.headDim := mul_pos hS hD
  have hhead : heads p t = 1 ∨ p.seqLen * p.headDim < 2147483648 := by
    by_contra hc
    push Not at hc
    have he := h.kern 0 1 0 0 (hin 0 1 le_rfl hB zero_le_one (by omega))
    rw [kernElem_eq hp, cpuElem_eq hp, hv] at he
    simp only [Bool.false_eq_true, if_false, zero_mul, zero_add, one_mul, add_zero] at he
    rw [toSizeT_eq hSD0.le (by omega)] at he
    exact absurd (toInt_eq_iff.mp he).2 (not_lt.mpr hc.2)
  refine ⟨?_, hhead⟩
  by_contra hc
  push Not at hc
  have hHSD : heads p t * p.seqLen * p.headDim < 4611686018427387904 := by
    rw [mul_assoc]
    rcases hhead with h1 | hlt
    · rwa [h1, one_mul]
    · exact mul_lt_of_int hH.le (heads_isInt hp t).2 hSD0.le hlt
  have he := h.kern 1 0 0 0 (hin 1 0 zero_le_one (by omega) le_rfl hH)
  rw [kernElem_eq hp, cpuElem_eq hp, hv] at he
  simp only [Bool.false_eq_true, if_false, zero_mul, one_mul, add_zero] at he
  rw [toSizeT_eq (mul_pos (mul_pos hH hS) hD).le (by omega)] at he
  exact absurd (toInt_eq_iff.mp he).2 (not_lt.mpr hc.2)

end Dense

/-! ### Varlen mode -/

section Varlen

variable {p : FmhaParams} (hp : Accepted p) (hv : p.varlenMode = true) {t : Tensor}

lemma seqLength_mem (p : FmhaParams) (b : ℤ) : seqLength p b ∈ p.varlenSeqs ∨ seqLength p b = 0 :=
  getD_mem _ _

lemma seqLength_lt_of_forall {p : FmhaParams} (h : ∀ s ∈ p.varlenSeqs, s < 2147483648) (b : ℤ) :
    seqLength p b < 2147483648 := by
  rcases seqLength_mem p b with hmem | h0
  · exact h _ hmem
  · rw [h0]
    norm_num

lemma total_mem (p : FmhaParams) : 0 ≤ total p ∧ total p < 4294967296 :=
  ⟨Int.emod_nonneg _ (by norm_num), Int.emod_lt_of_pos _ (by norm_num)⟩

lemma start_mem (p : FmhaParams) (b : ℤ) : 0 ≤ start p b ∧ start p b < 4294967296 :=
  ⟨Int.emod_nonneg _ (by norm_num), Int.emod_lt_of_pos _ (by norm_num)⟩

include hp hv

/-- An index of a packed tensor, with what the widths allow for its sequence. -/
structure PackedIndex (p : FmhaParams) (t : Tensor) (b h s d : ℤ) : Prop where
  headDim_pos : 0 < p.headDim
  head : h = 0 ∨ total p * p.headDim < 2147483648
  start_lt : start p b < 2147483648
  row_nonneg : 0 ≤ start p b + s
  row_lt : start p b + s < total p
  d_lt : d < p.headDim
  size : heads p t * total p * p.headDim < 9223372036854775808
  apart : ∀ b', 0 ≤ b' → b' < p.batch → b' ≠ b → 0 < seqLength p b' →
    start p b + seqLength p b ≤ start p b' ∨ start p b' + seqLength p b' ≤ start p b

omit hv in
/-- A packed tensor has less than `2 ^ 63` elements when its head stride does not wrap. -/
lemma varlen_size_lt (hH : 0 < heads p t) (hD : 0 < p.headDim)
    (hhead : heads p t = 1 ∨ total p * p.headDim < 2147483648) :
    heads p t * total p * p.headDim < 9223372036854775808 := by
  obtain ⟨ht0, ht1⟩ := total_mem p
  rw [mul_assoc]
  rcases hhead with h1 | hlt
  · rw [h1, one_mul]
    calc total p * p.headDim < 4294967296 * 2147483648 :=
          mul_lt_mul'' ht1 hp.headDim.2 ht0 hD.le
      _ = 9223372036854775808 := by norm_num
  · have := mul_lt_of_int hH.le (heads_isInt hp t).2 (mul_nonneg ht0 hD.le) hlt
    omega

lemma packedIndex (hok : VarlenOk p (heads p t)) {b h s d : ℤ} (hr : InRange p t b h s d) :
    PackedIndex p t b h s d := by
  have hs := hr.s_lt
  have hd := hr.d_lt
  rw [rows_eq hp, hv, if_pos rfl] at hs
  rw [hdimDispatch_eq hp] at hd
  have hH : 0 < heads p t := lt_of_le_of_lt hr.h_nonneg hr.h_lt
  have hD : 0 < p.headDim := lt_of_le_of_lt hr.d_nonneg hd
  obtain ⟨hhead, hstart, hle, hapart⟩ := hok hH hD b hr.b_nonneg hr.b_lt
    (lt_of_le_of_lt hr.s_nonneg hs)
  have hs0 := hr.s_nonneg
  have hh := hr.h_lt
  have hh0 := hr.h_nonneg
  have hst := (start_mem p b).1
  exact ⟨hD, hhead.imp_left fun h1 => by omega, hstart, by omega, by omega, hd,
    varlen_size_lt hp hH hD hhead, hapart⟩

/-- An index of a packed tensor is a mixed-radix number. -/
lemma packed_radix (hok : VarlenOk p (heads p t)) {b h s d : ℤ} (hr : InRange p t b h s d) :
    0 ≤ (h * total p + (start p b + s)) * p.headDim + d ∧
      (h * total p + (start p b + s)) * p.headDim + d < heads p t * total p * p.headDim := by
  have hi := packedIndex hp hv hok hr
  have hh := hr.h_nonneg
  have hd := hr.d_nonneg
  have hrow := hi.row_nonneg
  have hD := hi.headDim_pos.le
  have ht := (total_mem p).1
  refine ⟨by positivity, ?_⟩
  exact radix_lt hr.d_nonneg hi.d_lt (radix_lt hi.row_nonneg hi.row_lt hr.h_lt)

lemma packed_cpuElem (hok : VarlenOk p (heads p t)) {b h s d : ℤ} (hr : InRange p t b h s d) :
    cpuElem p t b h s d = (h * total p + (start p b + s)) * p.headDim + d := by
  obtain ⟨h0, hlt⟩ := packed_radix hp hv hok hr
  have hsize := (packedIndex hp hv hok hr).size
  rw [cpuElem_eq hp, hv, if_pos rfl]
  exact toSizeT_eq h0 (by omega)

/-- The digits of a packed element, of which the row belongs to one sequence. -/
lemma packed_inj (hok : VarlenOk p (heads p t)) {b h s d b' h' s' d' : ℤ} (hr : InRange p t b h s d)
    (hr' : InRange p t b' h' s' d')
    (he : (h * total p + (start p b + s)) * p.headDim + d
      = (h' * total p + (start p b' + s')) * p.headDim + d') :
    b = b' ∧ h = h' ∧ s = s' ∧ d = d' := by
  have hi := packedIndex hp hv hok hr
  have hi' := packedIndex hp hv hok hr'
  have hs := hr.s_lt
  have hs' := hr'.s_lt
  rw [rows_eq hp, hv, if_pos rfl] at hs hs'
  obtain ⟨hrow, hcol⟩ := radix_inj hr.d_nonneg hi.d_lt hr'.d_nonneg hi'.d_lt he
  obtain ⟨hhead, hpos⟩ := radix_inj hi.row_nonneg hi.row_lt hi'.row_nonneg hi'.row_lt hrow
  have hs0 := hr.s_nonneg
  have hs0' := hr'.s_nonneg
  -- a row of two sequences would make them overlap
  have hb : b = b' := by
    by_contra hne
    have := hi.apart b' hr'.b_nonneg hr'.b_lt (Ne.symm hne) (by omega)
    omega
  subst hb
  exact ⟨rfl, hhead, by omega, hcol⟩

lemma varlen_agree {α β : Type*} [Fp α] (hQ hK hV : Mem β) (hok : VarlenOk p (heads p t)) :
    Agree p (p.benchParams hQ hK hV : FmhaFwdParams α β) t := by
  refine ⟨fun b h s d hr => ?_, fun b h s d hr => ?_, fun b h s d hr => ?_,
    fun b h s d b' h' s' d' hr hr' he => ?_⟩
  · have hi := packedIndex hp hv hok hr
    have hTD : 0 ≤ total p * p.headDim := mul_nonneg (total_mem p).1 hi.headDim_pos.le
    rw [bufsElem_eq hp hi.headDim_pos, cpuElem_eq hp, hv, if_pos rfl, if_pos rfl,
      mul_half_toUint32 hi.head hTD]
    congr 1
    ring
  · have hi := packedIndex hp hv hok hr
    have hTD : 0 ≤ total p * p.headDim := mul_nonneg (total_mem p).1 hi.headDim_pos.le
    rw [kernElem_eq hp, packed_cpuElem hp hv hok hr, hv, if_pos rfl, mul_toInt hi.head hTD,
      toInt_eq ⟨by have := (start_mem p b).1; omega, hi.start_lt⟩]
    ring
  · obtain ⟨h0, hlt⟩ := packed_radix hp hv hok hr
    have hsize := (packedIndex hp hv hok hr).size
    rw [packed_cpuElem hp hv hok hr, size_eq hp, hv, if_pos rfl]
    rwa [toSizeT_eq (h0.trans hlt.le) (by omega)]
  · rw [packed_cpuElem hp hv hok hr, packed_cpuElem hp hv hok hr'] at he
    exact packed_inj hp hv hok hr hr' he

omit hv in
lemma seqLength_lt (b : ℤ) : seqLength p b < 2147483648 :=
  seqLength_lt_of_forall (fun s hs => (hp.varlenSeqs s hs).2) b

lemma inRange_packed {b h s : ℤ} (hb : 0 ≤ b) (hbB : b < p.batch) (hh : 0 ≤ h) (hhH : h < heads p t)
    (hs : 0 ≤ s) (hsl : s < seqLength p b) (hD : 0 < p.headDim) : InRange p t b h s 0 := by
  refine ⟨hb, hbB, hh, hhH, hs, ?_, le_rfl, ?_⟩
  · rwa [rows_eq hp, hv, if_pos rfl]
  · rwa [hdimDispatch_eq hp]

/-! The first rows and the last rows of the sequences tell when a sum or a product wraps. -/

section Needs

variable {α β : Type*} [Fp α] {hQ hK hV : Mem β}
  (h : Agree p (p.benchParams hQ hK hV : FmhaFwdParams α β) t) (hH : 0 < heads p t)
  (hD : 0 < p.headDim) {b : ℤ} (hb : 0 ≤ b) (hbB : b < p.batch) (hlen : 0 < seqLength p b)
include h hH hD hb hbB hlen

/-- The first row of a sequence needs its start. -/
lemma start_lt_of_agree : start p b < 2147483648 := by
  obtain ⟨hs0, hs1⟩ := start_mem p b
  have he := h.kern b 0 0 0 (inRange_packed hp hv hb hbB le_rfl hH le_rfl hlen hD)
  have hlt : start p b * p.headDim < 4294967296 * 2147483648 :=
    mul_lt_mul'' hs1 hp.headDim.2 hs0 hD.le
  rw [kernElem_eq hp, cpuElem_eq hp, hv, if_pos rfl, if_pos rfl] at he
  simp only [zero_mul, zero_add, add_zero] at he
  rw [toSizeT_eq (mul_nonneg hs0 hD.le) (by omega)] at he
  exact (toInt_eq_iff.mp (mul_right_cancel₀ hD.ne' he)).2

/-- The second head needs the head stride. -/
lemma head_of_agree : heads p t = 1 ∨ total p * p.headDim < 2147483648 := by
  by_contra hc
  push Not at hc
  obtain ⟨ht0, ht1⟩ := total_mem p
  obtain ⟨hs0, -⟩ := start_mem p b
  have hstart := start_lt_of_agree hp hv h hH hD hb hbB hlen
  have he := h.kern b 1 0 0 (inRange_packed hp hv hb hbB zero_le_one (by omega) le_rfl hlen hD)
  have hlt : (total p + start p b) * p.headDim < 6442450944 * 2147483648 :=
    mul_lt_mul'' (by omega) hp.headDim.2 (by omega) hD.le
  rw [kernElem_eq hp, cpuElem_eq hp, hv, if_pos rfl, if_pos rfl] at he
  simp only [zero_mul, one_mul, add_zero] at he
  rw [toSizeT_eq (mul_nonneg (by omega) hD.le) (by omega),
    toInt_eq ⟨by omega, hstart⟩, add_mul] at he
  exact absurd (toInt_eq_iff.mp (add_right_cancel he)).2 (not_lt.mpr hc.2)

/-- The last row of the last head needs the total. -/
lemma end_le_of_agree : start p b + seqLength p b ≤ total p := by
  obtain ⟨ht0, ht1⟩ := total_mem p
  have hstart := start_lt_of_agree hp hv h hH hD hb hbB hlen
  have hsize := varlen_size_lt hp hH hD (head_of_agree hp hv h hH hD hb hbB hlen)
  have hlast := h.lt_size b (heads p t - 1) (seqLength p b - 1) 0
    (inRange_packed hp hv hb hbB (by omega) (by omega) (by omega) (by omega) hD)
  have hL := seqLength_lt hp b
  obtain ⟨hs0, -⟩ := start_mem p b
  have hr : (start p b + (seqLength p b - 1)) * p.headDim < 4294967296 * 2147483648 :=
    mul_lt_mul'' (by omega) hp.headDim.2 (by omega) hD.le
  have hTD : 0 ≤ total p * p.headDim := mul_nonneg ht0 hD.le
  have hform : ((heads p t - 1) * total p + (start p b + (seqLength p b - 1))) * p.headDim
      = heads p t * total p * p.headDim - total p * p.headDim
        + (start p b + (seqLength p b - 1)) * p.headDim := by ring
  have h0 : 0 ≤ ((heads p t - 1) * total p + (start p b + (seqLength p b - 1))) * p.headDim :=
    mul_nonneg (add_nonneg (mul_nonneg (by omega) ht0) (by omega)) hD.le
  rw [cpuElem_eq hp, size_eq hp, hv, if_pos rfl, if_pos rfl, add_zero,
    toSizeT_eq h0 (by omega), toSizeT_eq (mul_nonneg (mul_nonneg hH.le ht0) hD.le) (by omega)]
    at hlast
  have hrow := lt_of_mul_lt_mul_right hlast hD.le
  have : (heads p t - 1) * total p = heads p t * total p - total p := by ring
  omega

/-- A common row of two sequences would have one element. -/
lemma apart_of_agree {b' : ℤ} (hb' : 0 ≤ b') (hbB' : b' < p.batch) (hne : b' ≠ b)
    (hlen' : 0 < seqLength p b') :
    start p b + seqLength p b ≤ start p b' ∨ start p b' + seqLength p b' ≤ start p b := by
  by_contra hc
  push Not at hc
  obtain ⟨s, s', hs, hsl, hs', hsl', he⟩ := exists_common hlen hlen' hc.1 hc.2
  have hinj := h.inj b 0 s 0 b' 0 s' 0 (inRange_packed hp hv hb hbB le_rfl hH hs hsl hD)
    (inRange_packed hp hv hb' hbB' le_rfl hH hs' hsl' hD)
    (by rw [cpuElem_eq hp, cpuElem_eq hp, hv, if_pos rfl, if_pos rfl, he])
  exact hne hinj.1.symm

end Needs

lemma varlenOk_of_agree {α β : Type*} [Fp α] {hQ hK hV : Mem β}
    (h : Agree p (p.benchParams hQ hK hV : FmhaFwdParams α β) t) : VarlenOk p (heads p t) :=
  fun hH hD _ hb hbB hlen => ⟨head_of_agree hp hv h hH hD hb hbB hlen,
    start_lt_of_agree hp hv h hH hD hb hbB hlen, end_le_of_agree hp hv h hH hD hb hbB hlen,
    fun _ hb' hbB' hne hlen' => apart_of_agree hp hv h hH hD hb hbB hlen hb' hbB' hne hlen'⟩

end Varlen

/-! ### All tensors -/

/-- The layouts agree for all four tensors. -/
def LayoutsAgree {α β : Type*} (p : FmhaParams) (fp : FmhaFwdParams α β) : Prop :=
  ∀ t, Agree p fp t

lemma agree_iff {p : FmhaParams} (hp : Accepted p) {α β : Type*} [Fp α] (hQ hK hV : Mem β)
    (t : Tensor) :
    Agree p (p.benchParams hQ hK hV : FmhaFwdParams α β) t ↔ WidthsOk p (heads p t) := by
  unfold WidthsOk
  split_ifs with hv
  · exact ⟨varlenOk_of_agree hp hv, varlen_agree hp hv hQ hK hV⟩
  · have hv' : p.varlenMode = false := by simpa using hv
    exact ⟨denseOk_of_agree hp hv', dense_agree hp hv' hQ hK hV⟩

/-- **When the host layouts agree**: exactly when the 32-bit widths hold the products and sums,
for the query heads and for the key heads. -/
theorem layoutsAgree_iff {α β : Type*} [Fp α] (hQ hK hV : Mem β) {args : List Arg} {p : FmhaParams}
    (h : parseArgs args = some p) :
    LayoutsAgree p (p.benchParams hQ hK hV : FmhaFwdParams α β) ↔
      WidthsOk p p.qHeads ∧ WidthsOk p p.kvHeads := by
  have hp := parseArgs_accepted h
  unfold LayoutsAgree
  simp only [agree_iff hp]
  constructor
  · intro hall
    exact ⟨hall .q, hall .k⟩
  · rintro ⟨hq, hk⟩ t
    cases t
    · exact hq
    · exact hk
    · exact hk
    · exact hq

/-- The benchmark's defaults: two batches of 16 heads over 4096 rows. -/
theorem layoutsAgree_iff_default :
    ∃ p, parseArgs [] = some p ∧ LayoutsAgree p
      (p.benchParams (fun _ => 0) (fun _ => 0) (fun _ => 0) : FmhaFwdParams XReal XReal) := by
  refine ⟨_, rfl, (layoutsAgree_iff _ _ _ (rfl : parseArgs [] = some _)).mpr ⟨?_, ?_⟩⟩
  · exact fun _ _ _ _ => ⟨Or.inr (by decide), Or.inr (by decide)⟩
  · exact fun _ _ _ _ => ⟨Or.inr (by decide), Or.inr (by decide)⟩

/-- One batch of two heads over `2 ^ 25` rows: the head stride of `2 ^ 31` elements wraps. -/
theorem layoutsAgree_fails_longRows :
    ∃ p, parseArgs [.batch 1, .heads 2, .seq 33554432, .hdim 64] = some p ∧
      ¬ LayoutsAgree p (p.benchParams (fun _ => 0) (fun _ => 0) (fun _ => 0) :
        FmhaFwdParams XReal XReal) := by
  obtain ⟨p, hp⟩ : ∃ p, parseArgs [.batch 1, .heads 2, .seq 33554432, .hdim 64] = some p := ⟨_, rfl⟩
  refine ⟨p, hp, fun hall => ?_⟩
  have hok := (agree_iff (parseArgs_accepted hp) _ _ _ .q).mp (hall .q)
  cases hp
  rcases (hok (by decide) (by decide) (by decide) (by decide)).2 with h | h
  · exact absurd h (by decide)
  · exact absurd h (by decide)

end FmhaNative.HostLayouts
