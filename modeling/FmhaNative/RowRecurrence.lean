import FmhaNative.Pipeline
import FmhaNative.Staging

/-!
The block's tile loop, one query row at a time.

A row carries a maximum, a denominator and a numerator through the tiles; the registers of
its two lanes, the LDS buffers and the induction variables are gone. The loop of the block
computes this recurrence on all 128 rows.
-/

namespace FmhaNative.RowRecurrence

open OpLds OpGemm OpSoftmax OpEpilog Pipeline Staging Loops Fp

variable {α β : Type*} [Fp α] [Zero β]

/-- What a row carries from tile to tile. -/
structure RowState (α : Type*) where
  (rmax rsum : α)
  oAcc : ℕ → α

def RowState.init : RowState α := ⟨lit (-5000), 0, fun _ => 0⟩

/-- One tile of 64 masked scores and 64 value rows. -/
def rowTile (bf : Bf16 α β) (scale : α) (S : ℕ → α) (V : ℕ → ℕ → β) (s : RowState α) : RowState α :=
  let mNew := maxOver s.rmax ((List.range 64).map S)
  let p := fun j => exp2f (fmaf scale (S j) (-(scale * mNew)))
  let rescale := exp2f (scale * sub s.rmax mNew)
  { rmax := mNew
    rsum := rescale * s.rsum + ∑ j ∈ Finset.range 64, p j
    oAcc := fun d => s.oAcc d * rescale +
      ∑ j ∈ Finset.range 64, bf.toFloat (V j d) * bf.toFloat (bf.ofFloat (p j)) }

/-- The tiles of a row in order: key `j` of tile `k` is key `64 k + j`. -/
def rowRun (bf : Bf16 α β) (scale : α) (S : ℤ → α) (V : ℤ → ℕ → β) : ℕ → RowState α
  | 0 => RowState.init
  | k + 1 => rowTile bf scale (fun j => S (64 * k + j)) (fun j => V (64 * k + j))
      (rowRun bf scale S V k)

/-- The masked score of row `absRow` against key `j`. -/
def rowScore (bf : Bf16 α β) (hasMask : Bool) (seqlenK maskShift absRow : ℤ) (Q : ℕ → β)
    (K : ℤ → ℕ → β) (j : ℤ) : α :=
  if attends hasMask seqlenK maskShift absRow j then
    ∑ d ∈ Finset.range 64, bf.toFloat (K j d) * bf.toFloat (Q d)
  else negInf

/-- The maximum and the denominator of a row depend on its scores only. -/
lemma rowRun_congr (bf : Bf16 α β) (scale : α) {S S' : ℤ → α} (V V' : ℤ → ℕ → β) {n : ℕ}
    (hS : ∀ j : ℕ, j < 64 * n → S j = S' j) :
    (rowRun bf scale S V n).rmax = (rowRun bf scale S' V' n).rmax ∧
      (rowRun bf scale S V n).rsum = (rowRun bf scale S' V' n).rsum := by
  induction n with
  | zero => exact ⟨rfl, rfl⟩
  | succ n ih =>
    obtain ⟨hm, hs⟩ := ih fun j hj => hS j (by omega)
    have ht : ∀ j : ℕ, j < 64 → S (64 * n + j) = S' (64 * n + j) := fun j hj => by
      exact_mod_cast hS (64 * n + j) (by omega)
    have hl : (List.range 64).map (fun j : ℕ => S (64 * n + j))
        = (List.range 64).map fun j : ℕ => S' (64 * n + j) :=
      List.map_congr_left fun j hj => ht j (List.mem_range.mp hj)
    simp only [rowRun, rowTile, hl, hm, hs, true_and]
    congr 1
    exact Finset.sum_congr rfl fun j hj => by rw [ht j (Finset.mem_range.mp hj)]

/-- A column of the numerator depends on the scores and on that column of the values. -/
lemma rowRun_oAcc_congr (bf : Bf16 α β) (scale : α) {S S' : ℤ → α} {V V' : ℤ → ℕ → β} {n d : ℕ}
    (hS : ∀ j : ℕ, j < 64 * n → S j = S' j) (hV : ∀ j : ℕ, j < 64 * n → V j d = V' j d) :
    (rowRun bf scale S V n).oAcc d = (rowRun bf scale S' V' n).oAcc d := by
  induction n with
  | zero => rfl
  | succ n ih =>
    have hS' : ∀ j : ℕ, j < 64 * n → S j = S' j := fun j hj => hS j (by omega)
    obtain ⟨hm, -⟩ := rowRun_congr bf scale V V' hS'
    have ht : ∀ j : ℕ, j < 64 → S (64 * n + j) = S' (64 * n + j) := fun j hj => by
      exact_mod_cast hS (64 * n + j) (by omega)
    have hv : ∀ j : ℕ, j < 64 → V (64 * n + j) d = V' (64 * n + j) d := fun j hj => by
      exact_mod_cast hV (64 * n + j) (by omega)
    have hl : (List.range 64).map (fun j : ℕ => S (64 * n + j))
        = (List.range 64).map fun j : ℕ => S' (64 * n + j) :=
      List.map_congr_left fun j hj => ht j (List.mem_range.mp hj)
    simp only [rowRun, rowTile, hl, hm, ih hS' fun j hj => hV j (by omega)]
    congr 1
    refine Finset.sum_congr rfl fun j hj => ?_
    rw [ht j (Finset.mem_range.mp hj), hv j (Finset.mem_range.mp hj)]

/-! ### The block computes it -/

/-- The query registers hold the 64 columns of the rows of `Q`. -/
def HoldsRows (q : Thread → Fin 4 → V4i β) (Q : ℕ → ℕ → β) : Prop :=
  ∀ t kstep x, x < 8 → v4iElem (q t kstep) x = Q (mRow t) (qCol t kstep + x)

omit [Fp α] [Zero β] in
lemma HoldsRows.slice0 {q : Thread → Fin 4 → V4i β} {Q : ℕ → ℕ → β} (hq : HoldsRows q Q) :
    HoldsQ (sliceQ q 0) Q := by
  intro t kstep x hx
  rw [sliceQ, hq t _ x hx, qCol]
  simp

omit [Fp α] [Zero β] in
lemma HoldsRows.slice1 {q : Thread → Fin 4 → V4i β} {Q : ℕ → ℕ → β} (hq : HoldsRows q Q) :
    HoldsQ (sliceQ q 1) fun m d => Q m (32 + d) := by
  intro t kstep x hx
  rw [sliceQ, hq t _ x hx, qCol]
  congr 1
  simp only [Fin.val_one]
  ring

def ctxK (c : BlockCtx α β) (j : ℤ) (d : ℕ) : β := c.srdK (j * c.strideK + d)
def ctxV (c : BlockCtx α β) (j : ℤ) (d : ℕ) : β := c.srdV (j * c.strideV + d)

/-- The masked scores of row `m` of the M-tile. -/
def ctxScore (bf : Bf16 α β) (c : BlockCtx α β) (Q : ℕ → ℕ → β) (m : ℕ) : ℤ → α :=
  rowScore bf c.hasMask c.seqlenK c.maskShift (c.mTileIdx * 128 + m) (Q m) (ctxK c)

def ctxRun (bf : Bf16 α β) (c : BlockCtx α β) (Q : ℕ → ℕ → β) (m k : ℕ) : RowState α :=
  rowRun bf c.scale (ctxScore bf c Q m) (ctxV c) k

/-- The loop invariant at the head of tile `k`. -/
structure TileInv (bf : Bf16 α β) (c : BlockCtx α β) (Q : ℕ → ℕ → β) (k : ℕ) (s : TileState α β) :
    Prop where
  loops : s.iTotalLoops = k
  rmax : ∀ t, s.rmax t = (ctxRun bf c Q (mRow t) k).rmax
  rsum : ∀ t, s.rsum t = (ctxRun bf c Q (mRow t) k).rsum
  oAccD0 : Holds dCol s.oAccD0 fun m d => (ctxRun bf c Q m k).oAcc d
  oAccD1 : Holds dCol s.oAccD1 fun m d => (ctxRun bf c Q m k).oAcc (d + 32)
  kvOffset : (k : ℤ) < c.numTotalLoop → s.iv.kvOffset = 64 * k
  kvVByte : (k : ℤ) < c.numTotalLoop → s.iv.kvVByte = 2 * (64 * k * c.strideV)
  kvKByte : (k : ℤ) < c.numTotalLoop → s.iv.kvKByte = 2 * (64 * k * c.strideK)
  kColOffset : (k : ℤ) < c.numTotalLoop → s.kColOffset = 32
  /-- K half 0 of the tile is staged -/
  lds : (k : ℤ) < c.numTotalLoop → ∀ j < 64, ∀ d < 32,
    s.lds (bufBaseElems (ldsSeq 0) + ldsElemOffset j d) = ctxK c (64 * k + j) d

variable {bf : Bf16 α β} {c : BlockCtx α β} {Q : ℕ → ℕ → β} {k : ℕ} {s : TileState α β}

omit [Fp α] [Zero β] in
/-- A K copy stages one head-dimension half of the tile. -/
lemma kCopy_layout (c : BlockCtx α β) (lds : Mem β) (k : ℕ) (kColOffset : ℕ) (bufIdx : ℤ) {j d : ℕ}
    (hj : j < 64) (hd : d < 32) :
    asyncCopyKSubtile lds c.srdK c.strideK (2 * (64 * k * c.strideK)) kColOffset bufIdx
        (bufBaseElems bufIdx + ldsElemOffset j d) = ctxK c (64 * k + j) (kColOffset + d) := by
  rw [asyncCopyKSubtile_row rfl kColOffset hj hd]
  rfl

omit [Fp α] [Zero β] in
/-- The V path stages one half of the tile's value rows. -/
lemma vStore_layout (c : BlockCtx α β) (lds : Mem β) (k half : ℕ) (bufIdx : ℤ) {n d : ℕ}
    (hn : n < 32) (hd : d < 64) :
    storeVToLds lds (loadVFromDram c.srdV c.strideV
        (2 * (64 * k * c.strideV) + half * (c.strideV * 2))) bufIdx
        (bufBaseElems bufIdx + vLdsElemOffset n d) = ctxV c (64 * k + (half + n : ℕ)) d := by
  have he : 2 * (64 * k * c.strideV) + half * (c.strideV * 2)
      = 2 * ((64 * k + half) * c.strideV) := by ring
  rw [storeVToLds_row he hn hd, ctxV, Nat.cast_add, add_assoc]

/-- GEMM0 leaves the raw scores of the tile. -/
lemma tileScores_holds (hq : HoldsRows c.qRegs Q) (h : TileInv bf c Q k s)
    (hk : (k : ℤ) < c.numTotalLoop) :
    let S : ℕ → ℕ → α := fun m n => ∑ d ∈ Finset.range 64,
      bf.toFloat (ctxK c (64 * k + n) d) * bf.toFloat (Q m d)
    Holds nCol (tileScores bf c s).1 (fun m n => S m n) ∧
      Holds nCol (tileScores bf c s).2 (fun m n => S m (32 + n)) := by
  intro S
  -- half 1 goes to another buffer than half 0
  have hk0 : ∀ j < 64, ∀ d < 32, tileK c s (bufBaseElems (ldsSeq 0) + ldsElemOffset j d)
      = ctxK c (64 * k + j) d := fun j hj d hd => by
    have hlt := ldsElemOffset_lt hj hd
    rw [tileK, asyncCopyKSubtile_frame (by rw [h.kvKByte hk]; exact Dvd.intro _ rfl), h.lds hk j hj d hd]
    left
    simp only [bufBaseElems, ldsSeq, Matrix.cons_val_zero, Matrix.cons_val_one]
    omega
  have hk1 : ∀ j < 64, ∀ d < 32, tileK c s (bufBaseElems (ldsSeq 1) + ldsElemOffset j d)
      = ctxK c (64 * k + j) (32 + d) := fun j hj d hd => by
    rw [tileK, h.kvKByte hk, h.kColOffset hk]
    exact kCopy_layout c _ k 32 _ hj hd
  exact gemm0_holds bf.toBf16Conv hq.slice0 hq.slice1 hk0 hk1

/-- The masked scores of the tile. -/
lemma tileMasked_holds (hq : HoldsRows c.qRegs Q) (h : TileInv bf c Q k s)
    (hk : (k : ℤ) < c.numTotalLoop) :
    Holds nCol (fun t => (tileMasked bf c s t).1) (fun m n => ctxScore bf c Q m (64 * k + n)) ∧
      Holds nCol (fun t => (tileMasked bf c s t).2)
        fun m n => ctxScore bf c Q m (64 * k + (32 + n : ℕ)) := by
  obtain ⟨h0, h1⟩ := tileScores_holds hq h hk
  have hbase : ∀ t, c.mTileIdx * kM0 ≤ c.mTileIdx * kM0 + mRow t := fun t => by omega
  have hm := fun t i => softmaxMask_apply c.hasMask ((tileScores bf c s).1 t)
    ((tileScores bf c s).2 t) c.seqlenK s.iv.kvOffset c.maskShift (hbase t) t i
  constructor <;> intro t i
  · refine (hm t i).1.trans ?_
    simp only [h.kvOffset hk, kM0_eq, ctxScore, rowScore, h0 t i]
  · refine (hm t i).2.trans ?_
    simp only [h.kvOffset hk, kM0_eq, ctxScore, rowScore, h1 t i]

/-- The state the row reaches after this tile. -/
lemma ctxRun_succ (bf : Bf16 α β) (c : BlockCtx α β) (Q : ℕ → ℕ → β) (m k : ℕ) :
    ctxRun bf c Q m (k + 1) = rowTile bf c.scale (fun j => ctxScore bf c Q m (64 * k + j))
      (fun j => ctxV c (64 * k + j)) (ctxRun bf c Q m k) := rfl

lemma tileMax_eq (hq : HoldsRows c.qRegs Q) (h : TileInv bf c Q k s)
    (hk : (k : ℤ) < c.numTotalLoop) (t : Thread) :
    tileMax bf c s t = (ctxRun bf c Q (mRow t) (k + 1)).rmax := by
  obtain ⟨h0, h1⟩ := tileMasked_holds hq h hk
  rw [tileMax, softmaxRowMax_apply (S := fun m n => ctxScore bf c Q m (64 * k + n))
    (R := fun m => (ctxRun bf c Q m k).rmax) h0 h1 h.rmax t, ctxRun_succ, rowTile]

/-- The probabilities of the tile. -/
def ctxP (bf : Bf16 α β) (c : BlockCtx α β) (Q : ℕ → ℕ → β) (k m n : ℕ) : α :=
  exp2f (fmaf c.scale (ctxScore bf c Q m (64 * k + n))
    (-(c.scale * (ctxRun bf c Q m (k + 1)).rmax)))

lemma tileP_holds (hq : HoldsRows c.qRegs Q) (h : TileInv bf c Q k s)
    (hk : (k : ℤ) < c.numTotalLoop) :
    Holds nCol (tileP0 bf c s) (ctxP bf c Q k) ∧
      Holds nCol (tileP1 bf c s) fun m n => ctxP bf c Q k m (32 + n) := by
  obtain ⟨h0, h1⟩ := tileMasked_holds hq h hk
  constructor <;> intro t i
  · simp only [tileP0, softmaxExp2, tileMax_eq hq h hk, ctxP, ← h0 t i]
  · simp only [tileP1, softmaxExp2, tileMax_eq hq h hk, ctxP, ← h1 t i]

/-- The factor by which the tile corrects what the row carries. -/
def ctxRescale (bf : Bf16 α β) (c : BlockCtx α β) (Q : ℕ → ℕ → β) (k m : ℕ) : α :=
  exp2f (c.scale * sub (ctxRun bf c Q m k).rmax (ctxRun bf c Q m (k + 1)).rmax)

lemma rescale_eq (hq : HoldsRows c.qRegs Q) (h : TileInv bf c Q k s)
    (hk : (k : ℤ) < c.numTotalLoop) (t : Thread) :
    exp2f (c.scale * sub (s.rmax t) (tileMax bf c s t)) = ctxRescale bf c Q k (mRow t) := by
  rw [h.rmax, tileMax_eq hq h hk, ctxRescale]

lemma ctxRun_rsum (bf : Bf16 α β) (c : BlockCtx α β) (Q : ℕ → ℕ → β) (m k : ℕ) :
    (ctxRun bf c Q m (k + 1)).rsum = ctxRescale bf c Q k m * (ctxRun bf c Q m k).rsum
      + ∑ n ∈ Finset.range 64, ctxP bf c Q k m n := by
  rw [ctxRun_succ, rowTile]
  rfl

/-- The numerators of a row inside a tile: rescaled, and with the tile's first `n` keys in. -/
def ctxPartial (bf : Bf16 α β) (c : BlockCtx α β) (Q : ℕ → ℕ → β) (k n m d : ℕ) : α :=
  (ctxRun bf c Q m k).oAcc d * ctxRescale bf c Q k m
    + ∑ j ∈ Finset.range n, bf.toFloat (ctxV c (64 * k + j) d) *
        bf.toFloat (bf.ofFloat (ctxP bf c Q k m j))

lemma ctxPartial_zero (bf : Bf16 α β) (c : BlockCtx α β) (Q : ℕ → ℕ → β) (k m d : ℕ) :
    ctxPartial bf c Q k 0 m d = (ctxRun bf c Q m k).oAcc d * ctxRescale bf c Q k m := by
  rw [ctxPartial, Finset.range_zero, Finset.sum_empty, add_zero]

lemma ctxRun_oAcc (bf : Bf16 α β) (c : BlockCtx α β) (Q : ℕ → ℕ → β) (m k d : ℕ) :
    (ctxRun bf c Q m (k + 1)).oAcc d = ctxPartial bf c Q k 64 m d := rfl

lemma ctxRun_oAcc_half (bf : Bf16 α β) (c : BlockCtx α β) (Q : ℕ → ℕ → β) (m k d : ℕ) :
    (ctxRun bf c Q m (k + 1)).oAcc d = ctxPartial bf c Q k 32 m d
      + ∑ n ∈ Finset.range 32, bf.toFloat (ctxV c (64 * k + (32 + n : ℕ)) d) *
          bf.toFloat (bf.ofFloat (ctxP bf c Q k m (32 + n))) := by
  rw [ctxRun_oAcc, ctxPartial, ctxPartial, add_assoc, ← Finset.sum_range_add
    (fun n : ℕ => bf.toFloat (ctxV c (64 * k + n) d) * bf.toFloat (bf.ofFloat (ctxP bf c Q k m n)))
    32 32]

/-- V half 0 replaces K half 0. -/
lemma vHalf0 (h : TileInv bf c Q k s) (hk : (k : ℤ) < c.numTotalLoop) {n d : ℕ} (hn : n < 32)
    (hd : d < 64) :
    storeVToLds (tileK c s) (loadVFromDram c.srdV c.strideV s.iv.kvVByte) (ldsSeq 2)
      (bufBaseElems (ldsSeq 2) + vLdsElemOffset n d) = ctxV c (64 * k + n) d := by
  have := vStore_layout c (tileK c s) k 0 (ldsSeq 2) hn hd
  rwa [Nat.cast_zero, zero_mul, add_zero, zero_add, ← h.kvVByte hk] at this

/-- The prefetch of the next K half 0 leaves V half 1 in its buffer. -/
lemma vHalf1 (h : TileInv bf c Q k s) (hk : (k : ℤ) < c.numTotalLoop) (lds : Mem β) {cond : Prop}
    [Decidable cond] {kvKByte : ℤ} (hb : 2 ∣ kvKByte) {n d : ℕ} (hn : n < 32) (hd : d < 64) :
    (if cond then
        asyncCopyKSubtile (storeVToLds lds (loadVFromDram c.srdV c.strideV
          (s.iv.kvVByte + 32 * (c.strideV * 2))) (ldsSeq 3)) c.srdK c.strideK kvKByte 0 (ldsSeq 0)
      else storeVToLds lds (loadVFromDram c.srdV c.strideV
          (s.iv.kvVByte + 32 * (c.strideV * 2))) (ldsSeq 3))
      (bufBaseElems (ldsSeq 3) + vLdsElemOffset n d) = ctxV c (64 * k + (32 + n : ℕ)) d := by
  have hlt := vLdsElemOffset_lt (n := n) hd
  have hv := vStore_layout c lds k 32 (ldsSeq 3) hn hd
  rw [← h.kvVByte hk] at hv
  split_ifs
  · rw [asyncCopyKSubtile_frame hb]
    · exact hv
    · simp only [bufBaseElems, ldsSeq, Matrix.cons_val]
      omega
  · exact hv

/-- The numerators that GEMM1 starts from. -/
def tileRescaled (bf : Bf16 α β) (c : BlockCtx α β) (s : TileState α β) :
    (Thread → V16f α) × (Thread → V16f α) :=
  let rescale := fun t => exp2f (c.scale * sub (s.rmax t) (tileMax bf c s t))
  (fun t => rescaleOAcc (s.oAccD0 t) (rescale t), fun t => rescaleOAcc (s.oAccD1 t) (rescale t))

/-- The numerators after V half 0. -/
def tileHalf0 (bf : Bf16 α β) (c : BlockCtx α β) (s : TileState α β) :
    (Thread → V16f α) × (Thread → V16f α) :=
  let lds := storeVToLds (tileK c s) (loadVFromDram c.srdV c.strideV s.iv.kvVByte) (ldsSeq 2)
  gemm1Subtile bf (tileRescaled bf c s).1 (tileRescaled bf c s).2 (tileP0 bf c s) lds (ldsSeq 2)

lemma tileRescaled_holds (hq : HoldsRows c.qRegs Q) (h : TileInv bf c Q k s)
    (hk : (k : ℤ) < c.numTotalLoop) :
    Holds dCol (tileRescaled bf c s).1 (ctxPartial bf c Q k 0) ∧
      Holds dCol (tileRescaled bf c s).2 fun m d => ctxPartial bf c Q k 0 m (d + 32) := by
  constructor <;> intro t i
  · simp only [tileRescaled, rescaleOAcc, rescale_eq hq h hk, h.oAccD0 t i, ctxPartial_zero]
  · simp only [tileRescaled, rescaleOAcc, rescale_eq hq h hk, h.oAccD1 t i, ctxPartial_zero]

lemma tileHalf0_holds (hq : HoldsRows c.qRegs Q) (h : TileInv bf c Q k s)
    (hk : (k : ℤ) < c.numTotalLoop) :
    Holds dCol (tileHalf0 bf c s).1 (ctxPartial bf c Q k 32) ∧
      Holds dCol (tileHalf0 bf c s).2 fun m d => ctxPartial bf c Q k 32 m (d + 32) := by
  obtain ⟨p0, -⟩ := tileP_holds hq h hk
  obtain ⟨r0, r1⟩ := tileRescaled_holds hq h hk
  refine gemm1Subtile_holds bf.toBf16Conv r0 r1 p0 (fun n hn d hd => vHalf0 h hk hn hd) _
    fun m d => ?_
  rw [ctxPartial_zero]
  rfl

/-- The numerators after the tile. -/
lemma tileBody_oAcc (hq : HoldsRows c.qRegs Q) (h : TileInv bf c Q k s)
    (hk : (k : ℤ) < c.numTotalLoop) :
    Holds dCol (tileBody bf c s).oAccD0 (fun m d => (ctxRun bf c Q m (k + 1)).oAcc d) ∧
      Holds dCol (tileBody bf c s).oAccD1
        fun m d => (ctxRun bf c Q m (k + 1)).oAcc (d + 32) := by
  obtain ⟨-, p1⟩ := tileP_holds hq h hk
  obtain ⟨g0, g1⟩ := tileHalf0_holds hq h hk
  refine gemm1Subtile_holds bf.toBf16Conv g0 g1 p1 (fun n hn d hd => vHalf1 h hk _ ?_ hn hd) _
    fun m d => ctxRun_oAcc_half bf c Q m k d
  split_ifs
  · exact ⟨64 * k * c.strideK + 64 * c.strideK, by rw [Ivs.next, h.kvKByte hk]; ring⟩
  · rw [h.kvKByte hk]
    exact Dvd.intro _ rfl

/-- **One round**: the loop body carries the invariant from tile `k` to tile `k + 1`. -/
theorem tileBody_inv (hq : HoldsRows c.qRegs Q) (h : TileInv bf c Q k s)
    (hk : (k : ℤ) < c.numTotalLoop) : TileInv bf c Q (k + 1) (tileBody bf c s) := by
  obtain ⟨p0, p1⟩ := tileP_holds hq h hk
  obtain ⟨o0, o1⟩ := tileBody_oAcc hq h hk
  have hmore : ((k + 1 : ℕ) : ℤ) < c.numTotalLoop → s.iTotalLoops + 1 < c.numTotalLoop := by
    rw [h.loops]
    push_cast
    exact id
  refine ⟨?_, tileMax_eq hq h hk, fun t => ?_, o0, o1, fun hn => ?_, fun hn => ?_, fun hn => ?_,
    fun hn => ?_, fun hn => ?_⟩
  · simp only [tileBody, h.loops]
    push_cast
    rfl
  · rw [ctxRun_rsum, ← rescale_eq hq h hk, ← h.rsum, ← softmaxRowSum_apply p0 p1 t]
    rfl
  · simp only [tileBody, if_pos (hmore hn), Ivs.next, h.kvOffset hk]
    push_cast
    ring
  · simp only [tileBody, if_pos (hmore hn), Ivs.next, h.kvVByte hk]
    push_cast
    ring
  · simp only [tileBody, if_pos (hmore hn), Ivs.next, h.kvKByte hk]
    push_cast
    ring
  · simp only [tileBody, if_pos (hmore hn)]
    rfl
  · intro j hj d hd
    have hb : s.iv.kvKByte + 64 * (c.strideK * 2) = 2 * (64 * (k + 1 : ℕ) * c.strideK) := by
      rw [h.kvKByte hk]
      push_cast
      ring
    simp only [tileBody, if_pos (hmore hn), Ivs.next, hb]
    have := kCopy_layout c (storeVToLds (storeVToLds (tileK c s)
      (loadVFromDram c.srdV c.strideV s.iv.kvVByte) (ldsSeq 2)) (loadVFromDram c.srdV c.strideV
        (s.iv.kvVByte + 32 * (c.strideV * 2))) (ldsSeq 3)) (k + 1) 0 (ldsSeq 0) hj hd
    rwa [zero_add] at this

/-- The invariant holds where the loop is entered. -/
lemma tileInit_inv (lds : Mem β) : TileInv bf c Q 0 (tileInit c lds) := by
  refine ⟨rfl, fun t => rfl, fun t => rfl, fun t i => rfl, fun t i => rfl, fun _ => rfl, fun _ => ?_,
    fun _ => ?_, fun _ => rfl, fun _ j hj d hd => ?_⟩
  · simp [tileInit, Ivs.init]
  · simp [tileInit, Ivs.init]
  · have := kCopy_layout c lds 0 0 (ldsSeq 0) hj hd
    simpa [tileInit, Ivs.init] using this

/-- The invariant holds at the head of every tile, and after the last. -/
lemma iterate_tileInv (hq : HoldsRows c.qRegs Q) (lds : Mem β) {n : ℕ}
    (hle : n ≤ c.numTotalLoop.toNat) : TileInv bf c Q n ((tileBody bf c)^[n] (tileInit c lds)) :=
  iterate_inv (tileInit_inv lds) fun k hk s hs => tileBody_inv hq hs (by omega)

/-- The tile loop goes round `numTotalLoop` times. -/
lemma tileLoop_eq_iterate (bf : Bf16 α β) (hq : HoldsRows c.qRegs Q) (hn : 0 < c.numTotalLoop)
    (lds : Mem β) :
    tileLoop bf c lds = some ((tileBody bf c)^[c.numTotalLoop.toNat] (tileInit c lds)) := by
  refine doWhile_eq_iterate (by omega) fun k hk hkn => ?_
  rw [(iterate_tileInv hq lds hkn).loops]
  exact decide_eq_decide.mpr (by omega)

/-- **The tile loop ends** after `numTotalLoop` rounds, with every row's recurrence in the
registers. -/
theorem tileLoop_spec (bf : Bf16 α β) (hq : HoldsRows c.qRegs Q) (hn : 0 < c.numTotalLoop) (lds : Mem β) :
    ∃ s, tileLoop bf c lds = some s ∧ TileInv bf c Q c.numTotalLoop.toNat s :=
  ⟨_, tileLoop_eq_iterate bf hq hn lds, iterate_tileInv hq lds le_rfl⟩

/-! ### The whole block -/

/-- Row `m` of the M-tile as the query load leaves it: zero past the last query. -/
def qRow (isVarlen : Bool) (p : FmhaFwdParams α β) (batchIdx headIdx mTileIdx : ℤ) (m d : ℕ) : β :=
  if mTileIdx * 128 + m < (resolveSeq isVarlen p batchIdx).seqlenQ then
    p.q (qBase isVarlen p batchIdx headIdx + ((mTileIdx * 128 + m) * p.strideQ + d))
  else 0

/-- The rows of an M-tile of Q, zero past the end of the sequence. -/
def paddedQ (srdQ : Mem β) (strideQ seqlenQ mTileIdx : ℤ) (m d : ℕ) : β :=
  if mTileIdx * 128 + m < seqlenQ then srdQ ((mTileIdx * 128 + m) * strideQ + d) else 0

omit [Fp α] in
lemma loadQ_rows (srdQ : Mem β) (strideQ seqlenQ mTileIdx : ℤ) :
    HoldsRows (loadQ srdQ strideQ seqlenQ mTileIdx) (paddedQ srdQ strideQ seqlenQ mTileIdx) := by
  intro t kstep x hx
  have he : qVoff strideQ (mTileIdx * 128 + mRow t) t kstep
      = ((mTileIdx * 128 + mRow t) * strideQ + qCol t kstep) * 2 := by
    rw [qVoff]
    ring
  rw [loadQ, kM0_eq, paddedQ]
  by_cases hlt : mTileIdx * 128 + mRow t < seqlenQ
  · rw [if_pos hlt, if_pos hlt, he, v4iElem_loadB128 _ _ hx]
    congr 1
    push_cast
    ring
  · rw [if_neg hlt, if_neg hlt]
    simp [v4iElem]

omit [Fp α] in
lemma loadQ_holds (isVarlen : Bool) (p : FmhaFwdParams α β) (batchIdx headIdx mTileIdx : ℤ) :
    HoldsRows (loadQ (makeBufferResource p.q (qBase isVarlen p batchIdx headIdx)) p.strideQ
      (resolveSeq isVarlen p batchIdx).seqlenQ mTileIdx)
      (qRow isVarlen p batchIdx headIdx mTileIdx) :=
  loadQ_rows _ _ _ _

/-- What the block computes for row `m` of its M-tile. -/
def blockRow (bf : Bf16 α β) (hasMask isVarlen : Bool) (p : FmhaFwdParams α β)
    (batchIdx headIdx mTileIdx : ℤ) (m : ℕ) : RowState α :=
  let c := blockCtx hasMask isVarlen p batchIdx headIdx mTileIdx
  ctxRun bf c (qRow isVarlen p batchIdx headIdx mTileIdx) m c.numTotalLoop.toNat

omit [Zero β] in
@[simp] lemma lseVal_zero (rmax scale : α) : lseVal 0 rmax scale = negInf := by
  rw [lseVal, Fp.lt_irrefl, if_neg Bool.false_ne_true]

/-- **What a block stores**: unless it leaves early, each lane stores its row's recurrence,
normalised, on the tile path and on the zero-tile path alike. -/
theorem fmhaFwdD64Device_eq (bf : Bf16 α β) (hasMask isVarlen : Bool) (p : FmhaFwdParams α β)
    (lds : Mem β) (batchIdx headIdx mTileIdx : ℤ)
    (hin : ¬(isVarlen ∧ (resolveSeq isVarlen p batchIdx).seqlenQ ≤ mTileIdx * 128)) :
    ∃ out, fmhaFwdD64Device bf hasMask isVarlen p lds batchIdx headIdx mTileIdx = some out ∧
      (∀ t s e, (out t).o s e =
        if mTileIdx * 128 + mRow t < (resolveSeq isVarlen p batchIdx).seqlenQ then
          some (oBase isVarlen p batchIdx headIdx + (mTileIdx * 128 + mRow t) * p.strideO
              + storeCol t s e,
            bf.ofFloat ((blockRow bf hasMask isVarlen p batchIdx headIdx mTileIdx (mRow t)).oAcc
                (storeCol t s e) *
              invSum (blockRow bf hasMask isVarlen p batchIdx headIdx mTileIdx (mRow t)).rsum))
        else none) ∧
      ∀ t, (out t).lse = (lseBase isVarlen p batchIdx headIdx).bind fun base =>
        if kSub t = 0 ∧ mTileIdx * 128 + mRow t < (resolveSeq isVarlen p batchIdx).seqlenQ then
          some (base + (mTileIdx * 128 + mRow t),
            lseVal (blockRow bf hasMask isVarlen p batchIdx headIdx mTileIdx (mRow t)).rsum
              (blockRow bf hasMask isVarlen p batchIdx headIdx mTileIdx (mRow t)).rmax p.scale)
        else none := by
  set c := blockCtx hasMask isVarlen p batchIdx headIdx mTileIdx with hc
  have hq : HoldsRows c.qRegs (qRow isVarlen p batchIdx headIdx mTileIdx) :=
    loadQ_holds isVarlen p batchIdx headIdx mTileIdx
  rcases le_or_gt c.numTotalLoop 0 with h0 | hpos
  · refine ⟨_, by rw [fmhaFwdD64Device, kM0_eq, if_neg hin, if_pos h0], ?_, ?_⟩
    all_goals
      have hrow : ∀ m, blockRow bf hasMask isVarlen p batchIdx headIdx mTileIdx m
          = RowState.init := fun m => by
        rw [blockRow, ← hc, Int.toNat_eq_zero.mpr h0]; rfl
      simp only [hrow]
    · intro t i e
      exact epilogStore_o (O := fun _ _ => 0) (clearAcc_holds _) (clearAcc_holds _) 0 negInf _ _ _ _ _ _ t i e
    · intro t
      simp only [epilogStore, lseVal_zero, kM0_eq, RowState.init]
  · obtain ⟨s, hs, hinv⟩ := tileLoop_spec bf hq hpos lds
    refine ⟨_, by rw [fmhaFwdD64Device, kM0_eq, if_neg hin, if_neg (not_le.mpr hpos), hs]; rfl, ?_, ?_⟩
    · intro t i e
      refine (epilogStore_o hinv.oAccD0 hinv.oAccD1 _ _ _ _ _ _ _ _ t i e).trans ?_
      rw [hinv.rsum t]
      rfl
    · intro t
      simp only [epilogStore, hinv.rsum t, hinv.rmax t, kM0_eq]
      rfl

end FmhaNative.RowRecurrence
