import FmhaNative.Loops
import FmhaNative.Params

/-!
The naive reference kernel: one thread a query row, three passes over the keys.
-/

namespace FmhaNative.GpuRef

open Loops Fp

variable {α β : Type*}

structure GpuRefParams (α β : Type*) where
  (dQ dK dV : Mem β)
  /-- whether `d_LSE` is a non-null pointer -/
  dLSE : Bool
  (batch qHeads kvHeads gqa : ℤ)
  (seqLen kvSeqLen headDim : ℤ)
  (strideQSeq strideQHead strideQBatch : ℤ)
  (strideKSeq strideKHead strideKBatch : ℤ)
  (strideVSeq strideVHead strideVBatch : ℤ)
  (strideOSeq strideOHead strideOBatch : ℤ)
  mask : Bool
  scalar : α
  /-- `none` for a null pointer -/
  dSeqstartQ : Option (ℤ → ℤ)
  dSeqstartK : ℤ → ℤ

/-- What a thread writes to O and to LSE. -/
structure RefStores (α β : Type*) where
  o : List (ℤ × β)
  lse : Option (ℤ × α)

/-- How a thread ends: it leaves without writing, it indexes past `O_acc[256]`, or it writes
its row. -/
inductive Outcome (γ : Type*)
  | returned
  | outOfBounds
  | wrote (stores : γ)

/-- The place of a row: lengths, row indices and the offsets of its Q, K, V and O rows. -/
structure RowPlace where
  (i sqB skvB iQ iK : ℤ)
  (qRow kBase vBase oRow : ℤ)
  lseIdx : ℤ

/-- The decoding of the thread index and the address setup; `none` on an early exit. -/
def rowPlace (p : GpuRefParams α β) (tid : ℤ) : Option RowPlace :=
  let totalRows := p.batch * p.qHeads * p.seqLen
  if totalRows ≤ tid then none
  else
    let b := tid.tdiv (p.qHeads * p.seqLen)
    let hq := (tid.tdiv p.seqLen).tmod p.qHeads
    let i := tid.tmod p.seqLen
    let hkv := hq.tdiv p.gqa
    let place := fun (sqB skvB iQ iK : ℤ) =>
      { i := i, sqB := sqB, skvB := skvB, iQ := iQ, iK := iK
        qRow := b * p.strideQBatch + hq * p.strideQHead + iQ * p.strideQSeq
        kBase := b * p.strideKBatch + hkv * p.strideKHead + iK * p.strideKSeq
        vBase := b * p.strideVBatch + hkv * p.strideVHead + iK * p.strideVSeq
        oRow := b * p.strideOBatch + hq * p.strideOHead + iQ * p.strideOSeq
        lseIdx := b * p.strideQBatch.tdiv p.strideQSeq + hq * p.strideQHead.tdiv p.strideQSeq + iQ
        : RowPlace }
    match p.dSeqstartQ with
    | none => some (place p.seqLen p.kvSeqLen i 0)
    | some seqstartQ =>
      let qstart := seqstartQ b
      let sqB := seqstartQ (b + 1) - qstart
      if sqB ≤ i then none
      else
        let kstart := p.dSeqstartK b
        some (place sqB (p.dSeqstartK (b + 1) - kstart) (qstart + i) kstart)

variable [Fp α] [Zero β]

/-- The score of a key, recomputed in each pass. -/
def score (bf : Bf16 α β) (p : GpuRefParams α β) (r : RowPlace) (j : ℕ) : α :=
  let s := sumLoop p.headDim.toNat fun d =>
    bf.toFloat (p.dQ (r.qRow + d)) * bf.toFloat (p.dK (r.kBase + (j * p.strideKSeq + d)))
  let s := s * p.scalar
  if p.mask ∧ (j : ℤ) > r.i + (r.skvB - r.sqB) then negInf else s

/-- Pass 1. -/
def maxS (n : ℕ) (s : ℕ → α) : α :=
  (List.range n).foldl (fun m j => if lt m (s j) then s j else m) negInf

def expS (s : ℕ → α) (m : α) (j : ℕ) : α := if eq (s j) negInf then 0 else expf (sub (s j) m)

/-- Pass 2. -/
def sumExp (n : ℕ) (s : ℕ → α) : α := sumLoop n (expS s (maxS n s))

def invSum (n : ℕ) (s : ℕ → α) : α := if lt 0 (sumExp n s) then recip (sumExp n s) else 0

/-- The probability of a key, truncated to bf16 and widened back. -/
def pTrunc (bf : Bf16 α β) (n : ℕ) (s : ℕ → α) (j : ℕ) : α :=
  bf.toFloat (bf.ofFloat (expS s (maxS n s) j * invSum n s))

/-- Pass 3. -/
def oAcc (bf : Bf16 α β) (n : ℕ) (s : ℕ → α) (v : ℕ → ℕ → α) : ℕ → α :=
  (List.range n).foldl (fun acc j d => acc d + pTrunc bf n s j * v j d) fun _ => 0

def lseVal (n : ℕ) (s : ℕ → α) : α :=
  if lt 0 (sumExp n s) then logf (sumExp n s) + maxS n s else negInf

def gpuRefFmhaKernel (bf : Bf16 α β) (p : GpuRefParams α β) (tid : ℤ) :
    Outcome (RefStores α β) :=
  match rowPlace p tid with
  | none => .returned
  | some r =>
    if 256 < p.headDim then .outOfBounds
    else
      let n := r.skvB.toNat
      let s := score bf p r
      let v := fun (j d : ℕ) => bf.toFloat (p.dV (r.vBase + (j * p.strideVSeq + d)))
      .wrote
        { o := (List.range p.headDim.toNat).map fun d : ℕ => (r.oRow + d, bf.ofFloat (oAcc bf n s v d))
          lse := if p.dLSE then some (r.lseIdx, lseVal n s) else none }

/-- The threads that `gpu_ref_fmha_fwd` launches. -/
def gridThreads (p : GpuRefParams α β) : List ℕ :=
  let totalRows := p.batch * p.qHeads * p.seqLen
  let block := 256
  let grid := (totalRows + block - 1).tdiv block
  List.range (grid * block).toNat

/-- The O stores of a thread. -/
def Outcome.oStores : Outcome (RefStores α β) → List (ℤ × β)
  | .wrote s => s.o
  | _ => []

/-- The O stores of the launch. -/
def gpuRefFmhaFwd (bf : Bf16 α β) (p : GpuRefParams α β) : List (ℤ × β) :=
  (gridThreads p).flatMap fun tid : ℕ => (gpuRefFmhaKernel bf p tid).oStores

/-! ### Loops as sums -/

lemma oAcc_eq (bf : Bf16 α β) (n : ℕ) (s : ℕ → α) (v : ℕ → ℕ → α) (d : ℕ) :
    oAcc bf n s v d = ∑ j ∈ Finset.range n, pTrunc bf n s j * v j d := by
  have h : ∀ (l : List ℕ) (acc : ℕ → α),
      l.foldl (fun acc j d => acc d + pTrunc bf n s j * v j d) acc d
        = l.foldl (fun x j => x + pTrunc bf n s j * v j d) (acc d) := by
    intro l
    induction l with
    | nil => exact fun _ => rfl
    | cons j l ih => exact fun acc => ih _
  rw [oAcc, h, ← sumLoop_eq]
  rfl

end FmhaNative.GpuRef
