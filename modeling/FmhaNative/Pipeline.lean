import FmhaNative.Loops
import FmhaNative.OpEpilog
import FmhaNative.OpSoftmax

/-!
The forward pass of one block: the setup, the query load, the tile loop and the epilogue.

The four waves advance in lockstep here, an LDS write taking effect where it is issued; that
every interleaving the barriers allow reads the same data is proved on the wave programs.
-/

namespace FmhaNative.Pipeline

open OpLds OpGemm OpSoftmax OpEpilog Loops Fp

variable {α β : Type*}

/-- Which buffer stages K half 0, K half 1, V half 0 and V half 1 of a tile. -/
def ldsSeq : Fin 4 → ℤ := ![1, 2, 1, 0]

/-- Pointer arithmetic. -/
def makeBufferResource (base : Mem β) (offset : ℤ) : Mem β := fun e => base (offset + e)

/-! ### Setup -/

/-- The lengths of one sequence and its row offsets into the tensors. -/
structure SeqInfo where
  (seqlenQ seqlenK : ℤ)
  (offsetQ offsetK : ℤ)

def resolveSeq (isVarlen : Bool) (p : FmhaFwdParams α β) (batchIdx : ℤ) : SeqInfo :=
  if isVarlen then
    let offsetQ := p.seqstartQ batchIdx
    let offsetK := p.seqstartK batchIdx
    ⟨p.seqstartQ (batchIdx + 1) - offsetQ, p.seqstartK (batchIdx + 1) - offsetK, offsetQ, offsetK⟩
  else ⟨p.seqlenQ, p.seqlenK, 0, 0⟩

def kvHeadIdx (p : FmhaFwdParams α β) (headIdx : ℤ) : ℤ :=
  let nheadRatio := p.nheadQ.tdiv p.nheadK
  headIdx.tdiv nheadRatio

/-- The base of a tensor for one batch and head, from its strides. -/
def baseOffset (isVarlen : Bool) (batchIdx headIdx rowOffset stride nheadStride batchStride : ℤ) : ℤ :=
  if isVarlen then headIdx * nheadStride + rowOffset * stride
  else batchIdx * batchStride + headIdx * nheadStride

def qBase (isVarlen : Bool) (p : FmhaFwdParams α β) (batchIdx headIdx : ℤ) : ℤ :=
  baseOffset isVarlen batchIdx headIdx (resolveSeq isVarlen p batchIdx).offsetQ
    p.strideQ p.nheadStrideQ p.batchStrideQ
def kBase (isVarlen : Bool) (p : FmhaFwdParams α β) (batchIdx headIdx : ℤ) : ℤ :=
  baseOffset isVarlen batchIdx (kvHeadIdx p headIdx) (resolveSeq isVarlen p batchIdx).offsetK
    p.strideK p.nheadStrideK p.batchStrideK
def vBase (isVarlen : Bool) (p : FmhaFwdParams α β) (batchIdx headIdx : ℤ) : ℤ :=
  baseOffset isVarlen batchIdx (kvHeadIdx p headIdx) (resolveSeq isVarlen p batchIdx).offsetK
    p.strideV p.nheadStrideV p.batchStrideV
def oBase (isVarlen : Bool) (p : FmhaFwdParams α β) (batchIdx headIdx : ℤ) : ℤ :=
  baseOffset isVarlen batchIdx headIdx (resolveSeq isVarlen p batchIdx).offsetQ
    p.strideO p.nheadStrideO p.batchStrideO

/-- The last query row that the M-tile owns. -/
def lastQRow (seqlenQ mTileIdx : ℤ) : ℤ :=
  let row := mTileIdx * kM0 + kM0 - 1
  if seqlenQ ≤ row then seqlenQ - 1 else row

def seqlenKEnd (hasMask : Bool) (seqlenQ seqlenK mTileIdx : ℤ) : ℤ :=
  if hasMask then
    let maskShift := seqlenK - seqlenQ
    let rawEnd := lastQRow seqlenQ mTileIdx + maskShift + 1
    let rawEnd := if seqlenK < rawEnd then seqlenK else rawEnd
    let tileEnd := (rawEnd + kN0 - 1).tdiv kN0 * kN0
    if seqlenK < tileEnd then seqlenK else tileEnd
  else seqlenK

/-- The number of 64-key tiles that the block walks. -/
def numTotalLoop (hasMask : Bool) (seqlenQ seqlenK mTileIdx : ℤ) : ℤ :=
  let seqlenKStart := 0
  (seqlenKEnd hasMask seqlenQ seqlenK mTileIdx - seqlenKStart + kN0 - 1).tdiv kN0

def lseBase (isVarlen : Bool) (p : FmhaFwdParams α β) (batchIdx headIdx : ℤ) : Option ℤ :=
  if p.lse then
    if isVarlen then
      let nheadStrideLse := p.nheadStrideQ.tdiv p.strideQ
      some (headIdx * nheadStrideLse + (resolveSeq isVarlen p batchIdx).offsetQ)
    else some (batchIdx * (p.nheadQ * p.seqlenQ) + headIdx * p.seqlenQ)
  else none

/-! ### Query load -/

/-- The head dimension of the first element of a query register. -/
def qCol (t : Thread) (kstep : Fin 4) : ℕ := kstep.val * 16 + kSub t * 8

/-- `voff` of a query load. -/
def qVoff {ι : Type*} [CommRing ι] (strideQ absMRow : ι) (t : Thread) (kstep : Fin 4) : ι :=
  absMRow * (strideQ * 2) + (qCol t kstep : ι) * 2

def loadQ [Zero β] (srdQ : Mem β) (strideQ seqlenQ mTileIdx : ℤ) (t : Thread) (kstep : Fin 4) :
    V4i β :=
  let absMRow := mTileIdx * kM0 + mRow t
  if absMRow < seqlenQ then loadB128 srdQ (qVoff strideQ absMRow t kstep)
  else fun _ => ⟨0, 0⟩

/-! ### The tile loop -/

/-- The induction variables of the tile loop. -/
structure Ivs (ι : Type*) where
  (kvOffset kvVByte kvKByte : ι)

def Ivs.init {ι : Type*} [CommRing ι] (strideK strideV : ι) : Ivs ι :=
  let seqlenKStart := 0
  ⟨seqlenKStart, seqlenKStart * (strideV * 2), seqlenKStart * (strideK * 2)⟩

def Ivs.next {ι : Type*} [CommRing ι] (strideK strideV : ι) (iv : Ivs ι) : Ivs ι :=
  ⟨iv.kvOffset + 64, iv.kvVByte + 64 * (strideV * 2), iv.kvKByte + 64 * (strideK * 2)⟩

/-- What stays fixed while a block walks its tiles. -/
structure BlockCtx (α β : Type*) where
  hasMask : Bool
  (srdK srdV : Mem β)
  (strideK strideV : ℤ)
  scale : α
  (seqlenK maskShift mTileIdx numTotalLoop : ℤ)
  qRegs : Thread → Fin 4 → V4i β

structure TileState (α β : Type*) where
  lds : Mem β
  (rmax rsum : Thread → α)
  (oAccD0 oAccD1 : Thread → V16f α)
  iv : Ivs ℤ
  (kColOffset iTotalLoops : ℤ)

variable [Fp α] [Zero β]

/-- LDS once K half 1 of the tile is staged. -/
def tileK (c : BlockCtx α β) (s : TileState α β) : Mem β :=
  asyncCopyKSubtile s.lds c.srdK c.strideK s.iv.kvKByte s.kColOffset (ldsSeq 1)

/-- GEMM0 over both head-dimension halves. -/
def tileScores (bf : Bf16 α β) (c : BlockCtx α β) (s : TileState α β) :
    (Thread → V16f α) × (Thread → V16f α) :=
  let lds := tileK c s
  let sAcc := gemm0Subtile bf (fun _ => clearAcc) (fun _ => clearAcc) (sliceQ c.qRegs 0) lds (ldsSeq 0)
  gemm0Subtile bf sAcc.1 sAcc.2 (sliceQ c.qRegs 1) lds (ldsSeq 1)

def tileMasked (bf : Bf16 α β) (c : BlockCtx α β) (s : TileState α β) (t : Thread) :
    V16f α × V16f α :=
  let sAcc := tileScores bf c s
  let absMRow := c.mTileIdx * kM0 + mRow t
  softmaxMask c.hasMask (sAcc.1 t) (sAcc.2 t) c.seqlenK s.iv.kvOffset absMRow c.maskShift
    (c.mTileIdx * kM0) t

def tileMax (bf : Bf16 α β) (c : BlockCtx α β) (s : TileState α β) : Thread → α :=
  softmaxRowMax (fun t => (tileMasked bf c s t).1) (fun t => (tileMasked bf c s t).2) s.rmax

def tileP0 (bf : Bf16 α β) (c : BlockCtx α β) (s : TileState α β) (t : Thread) : V16f α :=
  softmaxExp2 (tileMasked bf c s t).1 c.scale (c.scale * tileMax bf c s t)

def tileP1 (bf : Bf16 α β) (c : BlockCtx α β) (s : TileState α β) (t : Thread) : V16f α :=
  softmaxExp2 (tileMasked bf c s t).2 c.scale (c.scale * tileMax bf c s t)

/-- One round of the loop. -/
def tileBody (bf : Bf16 α β) (c : BlockCtx α β) (s : TileState α β) : TileState α β :=
  let mNew := tileMax bf c s
  let vK3 := loadVFromDram c.srdV c.strideV s.iv.kvVByte
  let lds := storeVToLds (tileK c s) vK3 (ldsSeq 2)
  let v1K3 := loadVFromDram c.srdV c.strideV (s.iv.kvVByte + 32 * (c.strideV * 2))
  let p0 := tileP0 bf c s
  let p1 := tileP1 bf c s
  let lNew := softmaxRowSum p0 p1
  let rescale := fun t => exp2f (c.scale * sub (s.rmax t) (mNew t))
  let oAccD0 := fun t => rescaleOAcc (s.oAccD0 t) (rescale t)
  let oAccD1 := fun t => rescaleOAcc (s.oAccD1 t) (rescale t)
  let oAcc := gemm1Subtile bf oAccD0 oAccD1 p0 lds (ldsSeq 2)
  let lds := storeVToLds lds v1K3 (ldsSeq 3)
  let iTotalLoops := s.iTotalLoops + 1
  let more := iTotalLoops < c.numTotalLoop
  let iv := if more then s.iv.next c.strideK c.strideV else s.iv
  let lds := if more then asyncCopyKSubtile lds c.srdK c.strideK iv.kvKByte 0 (ldsSeq 0) else lds
  let oAcc := gemm1Subtile bf oAcc.1 oAcc.2 p1 lds (ldsSeq 3)
  { lds := lds
    rmax := mNew
    rsum := fun t => rescale t * s.rsum t + lNew t
    oAccD0 := oAcc.1
    oAccD1 := oAcc.2
    iv := iv
    kColOffset := if more then 0 + kK0 else s.kColOffset + kK0
    iTotalLoops := iTotalLoops }

/-- The state that enters the loop, with K half 0 of the first tile staged. -/
def tileInit (c : BlockCtx α β) (lds : Mem β) : TileState α β :=
  let iv := Ivs.init c.strideK c.strideV
  { lds := asyncCopyKSubtile lds c.srdK c.strideK iv.kvKByte 0 (ldsSeq 0)
    rmax := fun _ => lit (-5000)
    rsum := fun _ => 0
    oAccD0 := fun _ => clearAcc
    oAccD1 := fun _ => clearAcc
    iv := iv
    kColOffset := 0 + kK0
    iTotalLoops := 0 }

/-- The block's constants. -/
def blockCtx (hasMask isVarlen : Bool) (p : FmhaFwdParams α β) (batchIdx headIdx mTileIdx : ℤ) :
    BlockCtx α β :=
  let seq := resolveSeq isVarlen p batchIdx
  { hasMask := hasMask
    srdK := makeBufferResource p.k (kBase isVarlen p batchIdx headIdx)
    srdV := makeBufferResource p.v (vBase isVarlen p batchIdx headIdx)
    strideK := p.strideK
    strideV := p.strideV
    scale := p.scale
    seqlenK := seq.seqlenK
    maskShift := seq.seqlenK - seq.seqlenQ
    mTileIdx := mTileIdx
    numTotalLoop := numTotalLoop hasMask seq.seqlenQ seq.seqlenK mTileIdx
    qRegs := loadQ (makeBufferResource p.q (qBase isVarlen p batchIdx headIdx)) p.strideQ
      seq.seqlenQ mTileIdx }

/-- The tile loop; the fuel is the number of tiles. -/
def tileLoop (bf : Bf16 α β) (c : BlockCtx α β) (lds : Mem β) : Option (TileState α β) :=
  doWhile (tileBody bf c) (fun s => s.iTotalLoops < c.numTotalLoop) c.numTotalLoop.toNat
    (tileInit c lds)

/-- One block's forward pass over its M-tile: what each lane stores. `lds` is the content of
shared memory at entry. -/
def fmhaFwdD64Device (bf : Bf16 α β) (hasMask isVarlen : Bool) (p : FmhaFwdParams α β)
    (lds : Mem β) (batchIdx headIdx mTileIdx : ℤ) : Option (Thread → LaneStores α β) :=
  let seq := resolveSeq isVarlen p batchIdx
  if isVarlen ∧ seq.seqlenQ ≤ mTileIdx * kM0 then some fun _ => LaneStores.none
  else
    let c := blockCtx hasMask isVarlen p batchIdx headIdx mTileIdx
    let store := fun (oAccD0 oAccD1 : Thread → V16f α) (rsum rmax : Thread → α) t =>
      epilogStore bf (oAccD0 t) (oAccD1 t) (rsum t) (rmax t) p.scale p.strideO
        (lseBase isVarlen p batchIdx headIdx) seq.seqlenQ mTileIdx
        (oBase isVarlen p batchIdx headIdx) t
    if c.numTotalLoop ≤ 0 then
      some (store (fun _ => clearAcc) (fun _ => clearAcc) (fun _ => 0) (fun _ => negInf))
    else
      (tileLoop bf c lds).map fun s => store s.oAccD0 s.oAccD1 s.rsum s.rmax

end FmhaNative.Pipeline
