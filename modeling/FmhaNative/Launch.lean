import FmhaNative.GpuRef
import FmhaNative.LoopBound
import FmhaNative.RowRecurrence

/-!
A launch of the fused kernel and the reference launch on the same tensors.
-/

namespace FmhaNative

open Pipeline

/-- A kernel argument block with the grid's batch count, and what the host guarantees of it:
whole groups of query heads, non-decreasing sequence tables, `seqlen_q` an upper bound. -/
structure Launch (α β : Type*) where
  (hasMask isVarlen : Bool)
  params : FmhaFwdParams α β
  batch : ℤ
  nheadK_pos : 0 < params.nheadK
  nheadQ_pos : 0 < params.nheadQ
  gqa : params.nheadK ∣ params.nheadQ
  seqlenQ_nonneg : ∀ b, 0 ≤ b → b < batch → 0 ≤ (resolveSeq isVarlen params b).seqlenQ
  seqlenK_nonneg : ∀ b, 0 ≤ b → b < batch → 0 ≤ (resolveSeq isVarlen params b).seqlenK
  seqlenQ_le : ∀ b, 0 ≤ b → b < batch → (resolveSeq isVarlen params b).seqlenQ ≤ params.seqlenQ

namespace Launch

variable {α β : Type*} (L : Launch α β)

/-- The lengths and offsets of sequence `b`. -/
def seq (b : ℤ) : SeqInfo := resolveSeq L.isVarlen L.params b

/-- A query row of the launch. -/
structure InRange (b h i : ℤ) : Prop where
  (b_nonneg : 0 ≤ b) (b_lt : b < L.batch)
  (h_nonneg : 0 ≤ h) (h_lt : h < L.params.nheadQ)
  (i_nonneg : 0 ≤ i) (i_lt : i < (L.seq b).seqlenQ)

/-- The keys that the row attends. -/
def attended (b i : ℤ) (j : ℤ) : Prop :=
  OpSoftmax.attends L.hasMask (L.seq b).seqlenK ((L.seq b).seqlenK - (L.seq b).seqlenQ) i j

instance (b i j : ℤ) : Decidable (L.attended b i j) := inferInstanceAs (Decidable (_ ∧ _))

/-- The offset of a query, key or value row from the tensor's base. -/
def qOff (b h i : ℤ) : ℤ := qBase L.isVarlen L.params b h + i * L.params.strideQ
def kOff (b h j : ℤ) : ℤ := kBase L.isVarlen L.params b h + j * L.params.strideK
def vOff (b h j : ℤ) : ℤ := vBase L.isVarlen L.params b h + j * L.params.strideV
def oOff (b h i : ℤ) : ℤ := oBase L.isVarlen L.params b h + i * L.params.strideO

/-- The block that owns row `i`. -/
def run [Fp α] [Zero β] (bf : Bf16 α β) (lds : Mem β) (b h mTileIdx : ℤ) :
    Option (Thread → OpEpilog.LaneStores α β) :=
  fmhaFwdD64Device bf L.hasMask L.isVarlen L.params lds b h mTileIdx

/-- A dense launch over contiguous `[batch, head, seq, 64]` tensors, `gqa` query heads to a
key head. -/
def bhsd (hasMask lse : Bool) (q k v : Mem β) (scale : α) (B Hk gqa Sq Sk : ℤ) (hHk : 0 < Hk)
    (hgqa : 0 < gqa) (hSq : 0 ≤ Sq) (hSk : 0 ≤ Sk) : Launch α β where
  hasMask := hasMask
  isVarlen := false
  params :=
    { q := q, k := k, v := v, lse := lse, seqlenQ := Sq, seqlenK := Sk
      nheadQ := Hk * gqa, nheadK := Hk, scale := scale
      strideQ := 64, nheadStrideQ := Sq * 64, batchStrideQ := Hk * gqa * Sq * 64
      strideK := 64, nheadStrideK := Sk * 64, batchStrideK := Hk * Sk * 64
      strideV := 64, nheadStrideV := Sk * 64, batchStrideV := Hk * Sk * 64
      strideO := 64, nheadStrideO := Sq * 64, batchStrideO := Hk * gqa * Sq * 64
      seqstartQ := fun _ => 0, seqstartK := fun _ => 0 }
  batch := B
  nheadK_pos := hHk
  nheadQ_pos := Int.mul_pos hHk hgqa
  gqa := Dvd.intro _ rfl
  seqlenQ_nonneg _ _ _ := hSq
  seqlenK_nonneg _ _ _ := hSk
  seqlenQ_le _ _ _ := le_rfl

end Launch

/-! ### The stored row -/

/-- The value that a block stores for column `d` of row `m` of its M-tile. -/
def rowValue {α β : Type*} (out : Thread → OpEpilog.LaneStores α β) (m : Fin 128) (d : Fin 64) :
    Option β :=
  ((out (rowThread m ⟨d.val / 4 % 2, by omega⟩)).o ⟨d.val / 8, by omega⟩
    ⟨d.val % 4, by omega⟩).map Prod.snd

/-- The log-sum-exp that a block stores for row `m` of its M-tile. -/
def rowLse {α β : Type*} (out : Thread → OpEpilog.LaneStores α β) (m : Fin 128) : Option α :=
  (out (rowThread m 0)).lse.map Prod.snd

namespace Launch

/-- The place of a row in its M-tile. -/
def rowInTile (i : ℤ) : Fin 128 := ⟨(i % 128).toNat, by omega⟩

lemma tile_row {i : ℤ} : i / 128 * 128 + ((rowInTile i).val : ℤ) = i := by
  simp only [rowInTile]
  omega

/-- The number of tiles that the block of row `i` walks. -/
def tiles {α β : Type*} (L : Launch α β) (b i : ℤ) : ℕ :=
  (numTotalLoop L.hasMask (L.seq b).seqlenQ (L.seq b).seqlenK (i / 128)).toNat

/-- The masked score of row `i` against key `j`, in `float`s. -/
def rawScore {α β : Type*} [Fp α] [Zero β] (bf : Bf16 α β) (L : Launch α β) (b h i j : ℤ) : α :=
  if L.attended b i j then
    ∑ d ∈ Finset.range 64,
      bf.toFloat (L.params.k (L.kOff b h j + d)) * bf.toFloat (L.params.q (L.qOff b h i + d))
  else Fp.negInf

/-- The value rows that the head reads. -/
def rawValue {α β : Type*} (L : Launch α β) (b h j : ℤ) (d : ℕ) : β := L.params.v (L.vOff b h j + d)

/-- The recurrence of row `i`. -/
def row {α β : Type*} [Fp α] [Zero β] (bf : Bf16 α β) (L : Launch α β) (b h i : ℤ) :
    RowRecurrence.RowState α :=
  RowRecurrence.blockRow bf L.hasMask L.isVarlen L.params b h (i / 128) (rowInTile i)

lemma row_eq {α β : Type*} [Fp α] [Zero β] (bf : Bf16 α β) (L : Launch α β) {b h i : ℤ}
    (hr : L.InRange b h i) :
    L.row bf b h i = RowRecurrence.rowRun bf L.params.scale (L.rawScore bf b h i)
      (L.rawValue b h) (L.tiles b i) := by
  have hi : i < (resolveSeq L.isVarlen L.params b).seqlenQ := hr.i_lt
  have hs : RowRecurrence.ctxScore bf (blockCtx L.hasMask L.isVarlen L.params b h (i / 128))
      (RowRecurrence.qRow L.isVarlen L.params b h (i / 128)) (rowInTile i)
        = L.rawScore bf b h i := by
    funext j
    have hq : ∀ d, RowRecurrence.qRow L.isVarlen L.params b h (i / 128) (rowInTile i) d
        = L.params.q (L.qOff b h i + d) := fun d => by
      rw [RowRecurrence.qRow, tile_row, if_pos hi, qOff, add_assoc]
    simp only [RowRecurrence.ctxScore, RowRecurrence.rowScore, blockCtx, tile_row, hq,
      RowRecurrence.ctxK, makeBufferResource, rawScore, kOff, add_assoc]
    rfl
  have hv : RowRecurrence.ctxV (blockCtx L.hasMask L.isVarlen L.params b h (i / 128))
      = L.rawValue b h := by
    funext j d
    rw [rawValue, vOff, add_assoc]
    rfl
  rw [row, RowRecurrence.blockRow, RowRecurrence.ctxRun, hs, hv]
  rfl

/-- The value of an output element, and of a row's log-sum-exp. -/
def cell {α β : Type*} [Fp α] [Zero β] (bf : Bf16 α β) (L : Launch α β) (b h i : ℤ) (d : ℕ) : β :=
  bf.ofFloat ((L.row bf b h i).oAcc d * OpEpilog.invSum (L.row bf b h i).rsum)

def lseCell {α β : Type*} [Fp α] [Zero β] (bf : Bf16 α β) (L : Launch α β) (b h i : ℤ) : α :=
  OpEpilog.lseVal (L.row bf b h i).rsum (L.row bf b h i).rmax L.params.scale

lemma row_tile {α β : Type*} [Fp α] [Zero β] (bf : Bf16 α β) (L : Launch α β) (b h mTileIdx : ℤ)
    (t : Thread) :
    L.row bf b h (mTileIdx * 128 + mRow t)
      = RowRecurrence.blockRow bf L.hasMask L.isVarlen L.params b h mTileIdx (mRow t) := by
  have hm := mRow_lt t
  have hdiv : (mTileIdx * 128 + mRow t) / 128 = mTileIdx := by omega
  have hmod : (rowInTile (mTileIdx * 128 + mRow t)).val = mRow t := by
    simp only [rowInTile]
    omega
  rw [row, hdiv, hmod]

/-- **What a block stores**: each lane its rows below the sequence's end, and nothing else. -/
theorem run_block {α β : Type*} [Fp α] [Zero β] (bf : Bf16 α β) (L : Launch α β) (lds : Mem β)
    (b h mTileIdx : ℤ) :
    ∃ out, L.run bf lds b h mTileIdx = some out ∧
      (∀ t s e, (out t).o s e =
        if mTileIdx * 128 + mRow t < (L.seq b).seqlenQ then
          some (L.oOff b h (mTileIdx * 128 + mRow t) + OpEpilog.storeCol t s e,
            L.cell bf b h (mTileIdx * 128 + mRow t) (OpEpilog.storeCol t s e))
        else none) ∧
      ∀ t, (out t).lse = (lseBase L.isVarlen L.params b h).bind fun base =>
        if kSub t = 0 ∧ mTileIdx * 128 + mRow t < (L.seq b).seqlenQ then
          some (base + (mTileIdx * 128 + mRow t), L.lseCell bf b h (mTileIdx * 128 + mRow t))
        else none := by
  by_cases hin : L.isVarlen ∧ (resolveSeq L.isVarlen L.params b).seqlenQ ≤ mTileIdx * 128
  · -- the early return: the whole M-tile is past the end
    refine ⟨fun _ => OpEpilog.LaneStores.none, ?_, fun t s e => ?_, fun t => ?_⟩
    · rw [run, fmhaFwdD64Device, kM0_eq, if_pos hin]
    · rw [if_neg (by have := hin.2; simp only [seq]; omega)]
      rfl
    · have hrow : ¬ (kSub t = 0 ∧ mTileIdx * 128 + mRow t < (L.seq b).seqlenQ) := by
        have := hin.2
        simp only [seq]
        omega
      simp only [if_neg hrow, Option.bind_fun_none]
      rfl
  · obtain ⟨out, hout, ho, hl⟩ := RowRecurrence.fmhaFwdD64Device_eq bf L.hasMask L.isVarlen L.params
      lds b h mTileIdx hin
    refine ⟨out, hout, fun t s e => ?_, fun t => ?_⟩
    · rw [ho, cell, row_tile]
      rfl
    · simp only [hl, lseCell, row_tile]
      rfl

/-- **The stored row** is the normalised recurrence of that row. -/
theorem run_row {α β : Type*} [Fp α] [Zero β] (bf : Bf16 α β) (L : Launch α β) (lds : Mem β)
    {b h i : ℤ} (hr : L.InRange b h i) :
    ∃ out, L.run bf lds b h (i / 128) = some out ∧
      (∀ d : Fin 64, rowValue out (rowInTile i) d = some (L.cell bf b h i d)) ∧
      rowLse out (rowInTile i) = (if L.params.lse then some (L.lseCell bf b h i) else none) := by
  obtain ⟨out, hout, ho, hl⟩ := run_block bf L lds b h (i / 128)
  refine ⟨out, hout, fun d => ?_, ?_⟩
  · have hcol : ∀ (h1 : d.val / 4 % 2 < 2) (h2 : d.val / 8 < 8) (h3 : d.val % 4 < 4),
        OpEpilog.storeCol (rowThread (rowInTile i) ⟨d.val / 4 % 2, h1⟩) ⟨d.val / 8, h2⟩
          ⟨d.val % 4, h3⟩ = d := by
      intro h1 h2 h3
      simp only [OpEpilog.storeCol, kSub_rowThread]
      omega
    rw [rowValue, ho, mRow_rowThread, tile_row, if_pos hr.i_lt, hcol, Option.map_some]
  · have hk : kSub (rowThread (rowInTile i) 0) = 0 ∧ i < (L.seq b).seqlenQ :=
      ⟨kSub_rowThread _ _, hr.i_lt⟩
    rw [rowLse, hl, mRow_rowThread, tile_row]
    simp only [if_pos hk, lseBase]
    split_ifs <;> rfl

end Launch

namespace GpuRef

/-- The value that the reference thread writes for column `d`. -/
def refValue {α β : Type*} (ref : RefStores α β) (d : Fin 64) : Option β :=
  (ref.o[d.val]?).map Prod.snd

def refLse {α β : Type*} (ref : RefStores α β) : Option α := ref.lse.map Prod.snd

/-- The reference run on a launch's tensors: `gqa = nhead_q / nhead_k`, 64 columns, natural
scale, the packed tables with no batch stride in varlen mode. -/
def refParams {α β : Type*} [Fp α] (L : Launch α β) : GpuRefParams α β :=
  { dQ := L.params.q, dK := L.params.k, dV := L.params.v
    dLSE := L.params.lse
    batch := L.batch, qHeads := L.params.nheadQ, kvHeads := L.params.nheadK
    gqa := L.params.nheadQ.tdiv L.params.nheadK
    seqLen := L.params.seqlenQ, kvSeqLen := L.params.seqlenK, headDim := 64
    strideQSeq := L.params.strideQ, strideQHead := L.params.nheadStrideQ
    strideQBatch := if L.isVarlen then 0 else L.params.batchStrideQ
    strideKSeq := L.params.strideK, strideKHead := L.params.nheadStrideK
    strideKBatch := if L.isVarlen then 0 else L.params.batchStrideK
    strideVSeq := L.params.strideV, strideVHead := L.params.nheadStrideV
    strideVBatch := if L.isVarlen then 0 else L.params.batchStrideV
    strideOSeq := L.params.strideO, strideOHead := L.params.nheadStrideO
    strideOBatch := if L.isVarlen then 0 else L.params.batchStrideO
    mask := L.hasMask
    scalar := L.params.scale * Fp.ln2
    dSeqstartQ := if L.isVarlen then some L.params.seqstartQ else none
    dSeqstartK := L.params.seqstartK }

/-- The thread of a row. -/
def rowTid {α β : Type*} (p : GpuRefParams α β) (b hq i : ℤ) : ℤ :=
  (b * p.qHeads + hq) * p.seqLen + i

section Decode

variable {b h i H S : ℤ}

lemma tid_div_outer (hb : 0 ≤ b) (hh : 0 ≤ h) (hH : h < H) (hi : 0 ≤ i) (hS : i < S) :
    ((b * H + h) * S + i).tdiv (H * S) = b := by
  have hin : h * S + i < H * S := by nlinarith
  have h0 : 0 ≤ h * S + i := by nlinarith
  have he : (b * H + h) * S + i = h * S + i + b * (H * S) := by ring
  rw [he, Int.tdiv_eq_ediv_of_nonneg (by nlinarith), Int.add_mul_ediv_right _ _ (by omega),
    Int.ediv_eq_zero_of_lt h0 hin, zero_add]

lemma tid_div_mod (hb : 0 ≤ b) (hh : 0 ≤ h) (hH : h < H) (hi : 0 ≤ i) (hS : i < S) :
    (((b * H + h) * S + i).tdiv S).tmod H = h := by
  have he : (b * H + h) * S + i = i + (b * H + h) * S := by ring
  have h0 : 0 ≤ b * H + h := by nlinarith
  rw [he, Int.tdiv_eq_ediv_of_nonneg (by nlinarith), Int.add_mul_ediv_right _ _ (by omega),
    Int.ediv_eq_zero_of_lt hi hS, zero_add, Int.tmod_eq_emod_of_nonneg h0, mul_comm,
    Int.mul_add_emod_self_left, Int.emod_eq_of_lt hh hH]

lemma tid_mod (hb : 0 ≤ b) (hh : 0 ≤ h) (hH : h < H) (hi : 0 ≤ i) (hS : i < S) :
    ((b * H + h) * S + i).tmod S = i := by
  have h0 : 0 ≤ b * H + h := by nlinarith
  rw [Int.tmod_eq_emod_of_nonneg (by nlinarith), mul_comm, Int.mul_add_emod_self_left,
    Int.emod_eq_of_lt hi hS]

lemma tid_lt {B : ℤ} (hB : b < B) (hH : h < H) (hi : 0 ≤ i) (hS : i < S) (hh : 0 ≤ h) :
    (b * H + h) * S + i < B * H * S := by
  have h1 : b * H + h + 1 ≤ B * H := by nlinarith
  nlinarith

end Decode

/-- **The reference thread of a row** works on the row's lengths and addresses. -/
theorem rowPlace_refParams {α β : Type*} [Fp α] (L : Launch α β) {b h i : ℤ} (hr : L.InRange b h i) :
    rowPlace (refParams L) (rowTid (refParams L) b h i) = some
      { i := i, sqB := (L.seq b).seqlenQ, skvB := (L.seq b).seqlenK
        iQ := (L.seq b).offsetQ + i, iK := (L.seq b).offsetK
        qRow := L.qOff b h i, kBase := kBase L.isVarlen L.params b h
        vBase := vBase L.isVarlen L.params b h, oRow := L.oOff b h i
        lseIdx := b * (refParams L).strideQBatch.tdiv L.params.strideQ
          + h * L.params.nheadStrideQ.tdiv L.params.strideQ + ((L.seq b).offsetQ + i) } := by
  obtain ⟨hb, hbB, hh, hhH, hi, hiS⟩ := hr
  have hS : i < L.params.seqlenQ := lt_of_lt_of_le hiS (L.seqlenQ_le b hb hbB)
  have hlt : ¬ L.batch * L.params.nheadQ * L.params.seqlenQ
      ≤ (b * L.params.nheadQ + h) * L.params.seqlenQ + i := not_le.mpr (tid_lt hbB hhH hi hS hh)
  rw [rowPlace]
  simp only [refParams, rowTid, tid_div_outer hb hh hhH hi hS, tid_div_mod hb hh hhH hi hS,
    tid_mod hb hh hhH hi hS, if_neg hlt]
  cases hv : L.isVarlen
  · simp only [Bool.false_eq_true, if_false, Launch.seq, resolveSeq, hv, Launch.qOff, Launch.oOff,
      qBase, kBase, vBase, oBase, baseOffset, kvHeadIdx, zero_add, zero_mul, add_zero]
  · have hiS' : ¬ L.params.seqstartQ (b + 1) - L.params.seqstartQ b ≤ i := by
      simpa only [Launch.seq, resolveSeq, hv, if_true, not_le] using hiS
    simp only [if_true, if_neg hiS', Launch.seq, resolveSeq, hv, Launch.qOff, Launch.oOff,
      qBase, kBase, vBase, oBase, baseOffset, kvHeadIdx, Option.some.injEq, RowPlace.mk.injEq,
      mul_zero, zero_add, true_and]
    refine ⟨?_, ?_, trivial⟩ <;> ring

end GpuRef

end FmhaNative
