import FmhaNative.GpuRef
import FmhaNative.HostParams
import FmhaNative.Pipeline

/-!
The buffers of the host, and the argument blocks filled from them: the reference kernel's by
the oracle test, the fused kernel's by the benchmark.
-/

namespace FmhaNative.Host

open Words

/-- The table of running starts, in `uint32_t`. -/
def seqOffsets (seqs : List ℤ) : ℕ → ℤ
  | 0 => 0
  | i + 1 => toUint32 (seqOffsets seqs i + seqs.getD i 0)

/-- Element counts, strides in bytes, and the table; `none` for null pointers. -/
structure FmhaBuffers where
  totalSeqlen : ℤ
  (szQ szK szV szO : ℤ)
  (strideQSeq strideQHead strideQBatch : ℤ)
  (strideKSeq strideKHead strideKBatch : ℤ)
  seqstart : Option (ℤ → ℤ)

/-- `FmhaBuffers::FmhaBuffers` -/
def FmhaParams.buffers (p : FmhaParams) : FmhaBuffers :=
  let dpad := p.hdimDispatch
  let total := if p.varlenMode then p.varlenSeqs.foldl (fun t s => toUint32 (t + s)) 0 else 0
  let size := fun heads rows => toSizeT (if p.varlenMode then heads * total * dpad
    else p.batch * heads * rows * dpad)
  let strideSeq := toUint32 (toInt (dpad * 2))
  let strideHead := fun rows => toUint32 ((if p.varlenMode then total else rows) * strideSeq)
  let strideBatch := fun heads rows =>
    if p.varlenMode then 0 else toUint32 (heads * strideHead rows)
  { totalSeqlen := total
    szQ := size p.qHeads p.seqLen
    szK := size p.kvHeads p.kvSeqLen
    szV := size p.kvHeads p.kvSeqLen
    szO := size p.qHeads p.seqLen
    strideQSeq := strideSeq
    strideQHead := strideHead p.seqLen
    strideQBatch := strideBatch p.qHeads p.seqLen
    strideKSeq := strideSeq
    strideKHead := strideHead p.kvSeqLen
    strideKBatch := strideBatch p.kvHeads p.kvSeqLen
    seqstart := if p.varlenMode then some fun b => seqOffsets p.varlenSeqs b.toNat else none }

/-- The rows that a tensor has. -/
def FmhaParams.rowCount (p : FmhaParams) (heads rows : ℤ) : ℤ :=
  if p.varlenMode then heads * p.buffers.totalSeqlen else p.batch * heads * rows

lemma FmhaParams.szQ_eq (p : FmhaParams) :
    p.buffers.szQ = toSizeT (p.rowCount p.qHeads p.seqLen * p.hdimDispatch) := by
  unfold FmhaParams.buffers FmhaParams.rowCount
  simp only [ite_mul]
  rfl

lemma FmhaParams.szK_eq (p : FmhaParams) :
    p.buffers.szK = toSizeT (p.rowCount p.kvHeads p.kvSeqLen * p.hdimDispatch) := by
  unfold FmhaParams.buffers FmhaParams.rowCount
  simp only [ite_mul]
  rfl

lemma FmhaParams.szV_eq (p : FmhaParams) :
    p.buffers.szV = toSizeT (p.rowCount p.kvHeads p.kvSeqLen * p.hdimDispatch) := p.szK_eq

/-- The most elements of so many bytes that a `std::vector` takes. -/
def maxSize (bytes : ℤ) : ℤ := 9223372036854775807 / bytes

/-- The host vectors could be made; `h_O` is made when O is downloaded. -/
structure FmhaBuffers.Constructed (bufs : FmhaBuffers) : Prop where
  szQ : bufs.szQ ≤ maxSize 2
  szK : bufs.szK ≤ maxSize 2
  szV : bufs.szV ≤ maxSize 2
  szO : bufs.szO ≤ maxSize 2

section Args

variable {α β : Type*} [Fp α]

/-- `FmhaParams::scalar` -/
def FmhaParams.scalar (p : FmhaParams) : α := Fp.recip (Fp.sqrtf (Fp.lit p.headDim))

/-- The argument block that the oracle test gives the reference kernel. -/
def FmhaParams.gpuRefParams (p : FmhaParams) (hQ hK hV : Mem β) : GpuRef.GpuRefParams α β :=
  let bufs := p.buffers
  let dpad := p.hdimDispatch
  { dQ := hQ, dK := hK, dV := hV
    dLSE := p.lse ≠ 0
    batch := p.batch, qHeads := p.qHeads, kvHeads := p.kvHeads, gqa := p.gqa
    seqLen := p.seqLen, kvSeqLen := p.kvSeqLen, headDim := p.headDim
    strideQSeq := dpad
    strideQHead := bufs.strideQHead / 2, strideQBatch := bufs.strideQBatch / 2
    strideKSeq := dpad
    strideKHead := bufs.strideKHead / 2, strideKBatch := bufs.strideKBatch / 2
    strideVSeq := dpad
    strideVHead := bufs.strideKHead / 2, strideVBatch := bufs.strideKBatch / 2
    strideOSeq := dpad
    strideOHead := bufs.strideQHead / 2, strideOBatch := bufs.strideQBatch / 2
    mask := p.mask ≠ 0
    scalar := p.scalar
    dSeqstartQ := bufs.seqstart
    dSeqstartK := bufs.seqstart.getD fun _ => 0 }

/-- The argument block that the benchmark gives the fused kernel; its tables are read as
`int32_t`. -/
def FmhaParams.benchParams (p : FmhaParams) (hQ hK hV : Mem β) : FmhaFwdParams α β :=
  let bufs := p.buffers
  let d := p.hdimDispatch
  let nheadStride := fun rows =>
    if p.varlenMode then toInt (toUint32 (bufs.totalSeqlen * d)) else toInt (rows * d)
  let batchStride := fun heads rows =>
    if p.varlenMode then 0 else toInt (toInt (heads * rows) * d)
  let seqstart := fun b => toInt (bufs.seqstart.getD (fun _ => 0) b)
  { q := hQ, k := hK, v := hV
    lse := p.lse ≠ 0
    seqlenQ := p.seqLen, seqlenK := p.kvSeqLen
    nheadQ := p.qHeads, nheadK := p.kvHeads
    scale := Fp.log2e * Fp.recip (Fp.sqrtf (Fp.lit p.headDim))
    strideQ := d, nheadStrideQ := nheadStride p.seqLen
    batchStrideQ := batchStride p.qHeads p.seqLen
    strideK := d, nheadStrideK := nheadStride p.kvSeqLen
    batchStrideK := batchStride p.kvHeads p.kvSeqLen
    strideV := d, nheadStrideV := nheadStride p.kvSeqLen
    batchStrideV := batchStride p.kvHeads p.kvSeqLen
    strideO := d, nheadStrideO := nheadStride p.seqLen
    batchStrideO := batchStride p.qHeads p.seqLen
    seqstartQ := seqstart, seqstartK := seqstart }

end Args

/-! ### The starts -/

/-- A start is the sum of the lengths before it, modulo `2 ^ 32`. -/
lemma seqOffsets_eq (seqs : List ℤ) (i : ℕ) : seqOffsets seqs i = toUint32 (seqs.take i).sum := by
  induction i with
  | zero => rfl
  | succ i ih =>
    rw [seqOffsets, ih, toUint32_add]
    congr 1
    rw [List.take_add_one, List.sum_append]
    cases h : seqs[i]? with
    | none => simp [List.getD, h]
    | some s => simp [List.getD, h]

lemma totalSeqlen_eq {p : FmhaParams} (h : p.varlenMode) :
    p.buffers.totalSeqlen = toUint32 p.varlenSeqs.sum := by
  have key : ∀ (l : List ℤ) (a : ℤ), l.foldl (fun t s => toUint32 (t + s)) (toUint32 a)
      = toUint32 (a + l.sum) := by
    intro l
    induction l with
    | nil =>
      intro a
      rw [List.foldl_nil, List.sum_nil, add_zero]
    | cons s l ih =>
      intro a
      rw [List.foldl_cons, toUint32_add, ih, List.sum_cons, add_assoc]
  unfold FmhaParams.buffers
  simp only [h, if_true]
  exact (key p.varlenSeqs 0).trans (by rw [zero_add])

end FmhaNative.Host
