import FmhaNative.OpGemm

/-!
The epilogue: normalise by the row sum, truncate, store one M-tile of O and of the
log-sum-exp.
-/

namespace FmhaNative.OpEpilog

open OpLds OpGemm Fp

variable {α β : Type*}

/-- What one lane stores: 8 stores of 4 elements each to O, and one log-sum-exp. Addresses are
element indices from `params.o` and `params.lse`. Of a store to O the lane issues `o`, its offset
in unbounded integers; what reaches memory through the 32-bit descriptor is `written`. -/
structure LaneStores (α β : Type*) where
  o : Fin 8 → Fin 4 → Option (ℤ × β)
  written : Fin 8 → Fin 4 → Option (ℤ × β)
  lse : Option (ℤ × α)

def LaneStores.none : LaneStores α β := ⟨fun _ _ => Option.none, fun _ _ => Option.none, Option.none⟩

/-- The byte extent in the O descriptor. -/
def oNumRecords (seqlenQ strideO : ℤ) : ℤ := min (seqlenQ * strideO * 2) 0x7FFFFFFF

/-- `voffset`: the byte offset of a lane's first element. -/
def oVoffset {ι : Type*} [CommRing ι] (absMRow strideO colBase : ι) : ι :=
  (absMRow * strideO + colBase) * 2

def colBase (t : Thread) : ℕ := swz (kSub t * 8)

/-- Where `raw_buffer_store_b64` puts element `e` of its two dwords, from the descriptor's base.
The offset is read unsigned, and a dword whose offset is not below `num_records` is dropped. -/
def rawBufferStoreB64 (numRecords voffset : BitVec 32) (soffset : ℕ) (e : Fin 4) : Option ℤ :=
  if voffset.toNat + soffset + 4 * (e.val / 2) < numRecords.toNat then
    some (((voffset.toNat + soffset) / 2 + e.val : ℕ) : ℤ)
  else none

/-- Where a store of row `absMRow` of O puts an element: offset and extent wrap to 32 bits. -/
def oElem (seqlenQ strideO absMRow : ℤ) (colBase storeIdx : ℕ) (e : Fin 4) : Option ℤ :=
  rawBufferStoreB64 (oNumRecords seqlenQ strideO : ℤ)
    (oVoffset (absMRow : BitVec 32) (strideO : BitVec 32) (colBase : BitVec 32)) (storeIdx * 16) e

variable [Fp α]

def bf16Packed (bf : Bf16Conv α β) (oAccD0 oAccD1 : V16f α) (invSum : α) (i : Fin 16) : Dword β :=
  if h : i.val < 8 then
    let v0 := oAccD0 ⟨2 * i.val, by omega⟩ * invSum
    let v1 := oAccD0 ⟨2 * i.val + 1, by omega⟩ * invSum
    permTrunc bf v1 v0
  else
    let v0 := oAccD1 ⟨2 * (i.val - 8), by omega⟩ * invSum
    let v1 := oAccD1 ⟨2 * (i.val - 8) + 1, by omega⟩ * invSum
    permTrunc bf v1 v0

/-- The log-sum-exp of a row. -/
def lseVal (rsum rmax scale : α) : α :=
  if lt 0 rsum then (log2f rsum + scale * rmax) * ln2 else negInf

def invSum (rsum : α) : α := if lt 0 rsum then recip rsum else 0

/-- One lane's share; `lseBase` is `none` for a null pointer. -/
def epilogStore (bf : Bf16Conv α β) (oAccD0 oAccD1 : V16f α) (rsum rmax scale : α) (strideO : ℤ)
    (lseBase : Option ℤ) (seqlenQ mTileIdx oBase : ℤ) (t : Thread) : LaneStores α β :=
  let absMRow := mTileIdx * kM0 + mRow t
  let packed := bf16Packed bf oAccD0 oAccD1 (invSum rsum)
  let voffset := oVoffset absMRow strideO (colBase t)
  let data := fun (storeIdx : Fin 8) (e : Fin 4) =>
    let dword := packed ⟨storeIdx.val * 2 + e.val / 2, by omega⟩
    if e.val % 2 = 0 then dword.lo else dword.hi
  { o := fun storeIdx e =>
      if absMRow < seqlenQ then
        some (oBase + (voffset + storeIdx.val * 16) / 2 + e.val, data storeIdx e)
      else none
    written := fun storeIdx e =>
      if absMRow < seqlenQ then
        (oElem seqlenQ strideO absMRow (colBase t) storeIdx e).map fun a => (oBase + a, data storeIdx e)
      else none
    lse := lseBase.bind fun base =>
      if kSub t = 0 ∧ absMRow < seqlenQ then some (base + absMRow, lseVal rsum rmax scale)
      else none }

/-! ### Where the stores go -/

lemma colBase_eq (t : Thread) : colBase t = kSub t * 4 := by
  have : ∀ k < 2, swz (k * 8) = k * 4 := by decide
  exact this _ (kSub_lt t)

/-- The head dimension of an element of a store. -/
def storeCol (t : Thread) (storeIdx : Fin 8) (e : Fin 4) : ℕ :=
  storeIdx.val * 8 + kSub t * 4 + e.val

lemma storeCol_lt (t : Thread) (s : Fin 8) (e : Fin 4) : storeCol t s e < 64 := by
  have := kSub_lt t
  simp only [storeCol]
  omega

/-- Every column of a row is one element of one store of one of the row's lanes. -/
lemma exists_storeCol {m d : ℕ} (hm : m < 128) (hd : d < 64) :
    ∃ t s e, mRow t = m ∧ storeCol t s e = d := by
  refine ⟨rowThread ⟨m, hm⟩ ⟨d / 4 % 2, by omega⟩, ⟨d / 8, by omega⟩, ⟨d % 4, by omega⟩, by simp, ?_⟩
  simp only [storeCol, kSub_rowThread]
  omega

/-- And of only one. -/
lemma storeCol_inj {t t' : Thread} {s s' : Fin 8} {e e' : Fin 4} (hm : mRow t = mRow t')
    (h : storeCol t s e = storeCol t' s' e') : t = t' ∧ s = s' ∧ e = e' := by
  have hk := kSub_lt t
  have hk' := kSub_lt t'
  simp only [storeCol] at h
  refine ⟨thread_ext hm (by omega), ?_, ?_⟩ <;> ext <;> omega

/-- The byte offset of a store, in elements. -/
lemma oVoffset_elems (absMRow strideO : ℤ) (t : Thread) (s : Fin 8) (e : Fin 4) :
    (oVoffset absMRow strideO (colBase t) + s.val * 16) / 2 + e.val
      = absMRow * strideO + storeCol t s e := by
  rw [colBase_eq]
  simp only [oVoffset, storeCol]
  push_cast
  omega

/-- The element packed for a store is the accumulator entry of its column. -/
lemma bf16Packed_apply {bf : Bf16Conv α β} {oAccD0 oAccD1 : Thread → V16f α} {O : ℕ → ℕ → α}
    (h0 : Holds dCol oAccD0 O) (h1 : Holds dCol oAccD1 fun m d => O m (d + 32)) (inv : α)
    (t : Thread) (s : Fin 8) (e : Fin 4) :
    (if e.val % 2 = 0 then
        (bf16Packed bf (oAccD0 t) (oAccD1 t) inv ⟨s.val * 2 + e.val / 2, by omega⟩).lo
      else (bf16Packed bf (oAccD0 t) (oAccD1 t) inv ⟨s.val * 2 + e.val / 2, by omega⟩).hi)
      = bf.ofFloat (O (mRow t) (storeCol t s e) * inv) := by
  have hd0 : ∀ r : Fin 16, s.val < 4 → r.val = s.val * 4 + e.val →
      oAccD0 t r = O (mRow t) (storeCol t s e) := by
    intro r hs hr
    rw [h0 t r, dCol, accRow, ← kSub_eq_lane, storeCol]
    congr 1
    omega
  have hd1 : ∀ r : Fin 16, 4 ≤ s.val → r.val = (s.val - 4) * 4 + e.val →
      oAccD1 t r = O (mRow t) (storeCol t s e) := by
    intro r hs hr
    rw [h1 t r]
    simp only [dCol, accRow, ← kSub_eq_lane, storeCol]
    congr 1
    omega
  by_cases hs : s.val < 4
  · have hlt : s.val * 2 + e.val / 2 < 8 := by omega
    simp only [bf16Packed, hlt, dite_true, permTrunc]
    split_ifs with he
    · rw [hd0 _ hs (by simp only; omega)]
    · rw [hd0 _ hs (by simp only; omega)]
  · have hlt : ¬ s.val * 2 + e.val / 2 < 8 := by omega
    simp only [bf16Packed, hlt, dite_false, permTrunc]
    split_ifs with he
    · rw [hd1 _ (by omega) (by simp only; omega)]
    · rw [hd1 _ (by omega) (by simp only; omega)]

/-- **The epilogue**: with the accumulators holding `O`, a lane stores the normalised and
truncated entries of its row at their columns. -/
theorem epilogStore_o {bf : Bf16Conv α β} {oAccD0 oAccD1 : Thread → V16f α} {O : ℕ → ℕ → α}
    (h0 : Holds dCol oAccD0 O) (h1 : Holds dCol oAccD1 fun m d => O m (d + 32))
    (rsum rmax scale : α) (strideO : ℤ) (lseBase : Option ℤ) (seqlenQ mTileIdx oBase : ℤ)
    (t : Thread) (s : Fin 8) (e : Fin 4) :
    (epilogStore bf (oAccD0 t) (oAccD1 t) rsum rmax scale strideO lseBase seqlenQ mTileIdx oBase
        t).o s e
      = if mTileIdx * 128 + mRow t < seqlenQ then
          some (oBase + (mTileIdx * 128 + mRow t) * strideO + storeCol t s e,
            bf.ofFloat (O (mRow t) (storeCol t s e) * invSum rsum))
        else none := by
  simp only [epilogStore, kM0_eq, bf16Packed_apply h0 h1]
  congr 3
  rw [add_assoc, oVoffset_elems, ← add_assoc]

/-- What reaches memory is what was issued, where the descriptor puts it. -/
lemma epilogStore_written (bf : Bf16Conv α β) (oAccD0 oAccD1 : V16f α) (rsum rmax scale : α)
    (strideO : ℤ) (lseBase : Option ℤ) (seqlenQ mTileIdx oBase : ℤ) (t : Thread) (s : Fin 8)
    (e : Fin 4) :
    (epilogStore bf oAccD0 oAccD1 rsum rmax scale strideO lseBase seqlenQ mTileIdx oBase t).written
        s e
      = ((epilogStore bf oAccD0 oAccD1 rsum rmax scale strideO lseBase seqlenQ mTileIdx oBase t).o
          s e).bind fun w =>
        (oElem seqlenQ strideO (mTileIdx * 128 + mRow t) (colBase t) s e).map fun a =>
          (oBase + a, w.2) := by
  rw [← kM0_eq]
  by_cases hrow : mTileIdx * kM0 + (mRow t : ℤ) < seqlenQ
  · simp only [epilogStore, if_pos hrow, Option.bind_some]
  · simp only [epilogStore, if_neg hrow, Option.bind_none]

end FmhaNative.OpEpilog
