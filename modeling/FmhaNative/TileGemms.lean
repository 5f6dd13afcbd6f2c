import FmhaNative.OWrites

/-!
The two matrix products of a tile with their staging: K and Q through LDS give `Q * K^T`, and
P and V through LDS and the epilogue give the rows of O in head-dimension order.
-/

namespace FmhaNative.TileGemms

open OpLds OpGemm OpEpilog Staging Stores Pipeline RowRecurrence Kernel Offsets32

/-! ### `S = Q * K^T` -/

section Scores

variable {R β : Type*} [CommRing R] [Zero β]

/-- The K copy of one head-dimension half of a tile. -/
def copyHalf (srdK : Mem β) (strideK tile : ℤ) (buf : Fin 2 → ℤ) (lds : Mem β) (half : Fin 2) :
    Mem β :=
  asyncCopyKSubtile lds srdK strideK (tile * 64 * (strideK * 2)) (half.val * 32) (buf half)

omit [Zero β] in
lemma copyHalf_layout (srdK : Mem β) (strideK tile : ℤ) (buf : Fin 2 → ℤ) (lds : Mem β)
    (half : Fin 2) {j d : ℕ} (hj : j < 64) (hd : d < 32) :
    copyHalf srdK strideK tile buf lds half (bufBaseElems (buf half) + ldsElemOffset j d)
      = srdK ((tile * 64 + j) * strideK + (32 * half.val + d : ℕ)) := by
  have hb : tile * 64 * (strideK * 2) = 2 * (tile * 64 * strideK) := by ring
  have hcol : (half.val * 32 : ℤ) = (32 * half.val : ℕ) := by
    push_cast
    ring
  rw [copyHalf, hcol, asyncCopyKSubtile_row hb _ hj hd]

omit [Zero β] in
/-- A copy leaves the other buffer alone. -/
lemma copyHalf_frame (srdK : Mem β) (strideK tile : ℤ) {buf : Fin 2 → ℤ} (lds : Mem β)
    {half : Fin 2} {b : ℤ} (hb : b ≠ buf half) {j d : ℕ} (hj : j < 64) (hd : d < 32) :
    copyHalf srdK strideK tile buf lds half (bufBaseElems b + ldsElemOffset j d)
      = lds (bufBaseElems b + ldsElemOffset j d) := by
  have hlt := ldsElemOffset_lt hj hd
  have he : tile * 64 * (strideK * 2) = 2 * (tile * 64 * strideK) := by ring
  unfold copyHalf
  rw [he, asyncCopyKSubtile_frame (Dvd.intro _ rfl)]
  unfold bufBaseElems
  omega

/-- Both halves of a tile staged, in either order. -/
def copyHalves (srdK : Mem β) (strideK tile : ℤ) (buf : Fin 2 → ℤ) (lds : Mem β) (first : Fin 2) :
    Mem β :=
  copyHalf srdK strideK tile buf (copyHalf srdK strideK tile buf lds first) (1 - first)

omit [Zero β] in
lemma copyHalves_layout (srdK : Mem β) (strideK tile : ℤ) {buf : Fin 2 → ℤ} (hbuf : buf 0 ≠ buf 1)
    (lds : Mem β) (first half : Fin 2) {j d : ℕ} (hj : j < 64) (hd : d < 32) :
    copyHalves srdK strideK tile buf lds first (bufBaseElems (buf half) + ldsElemOffset j d)
      = srdK ((tile * 64 + j) * strideK + (32 * half.val + d : ℕ)) := by
  have hne : ∀ h : Fin 2, buf h ≠ buf (1 - h) := by
    intro h
    fin_cases h
    · exact hbuf
    · exact hbuf.symm
  unfold copyHalves
  by_cases hlast : half = 1 - first
  · subst hlast
    exact copyHalf_layout srdK strideK tile buf _ _ hj hd
  · have hfirst : half = first := by omega
    subst hfirst
    rw [copyHalf_frame srdK strideK tile _ (hne half) hj hd]
    exact copyHalf_layout srdK strideK tile buf lds half hj hd

/-- The score registers after both sub-tile calls of a tile, from cleared accumulators. -/
def ldsScores (bf : Bf16Conv R β) (srdQ srdK : Mem β) (strideQ seqlenQ mTileIdx strideK tile : ℤ)
    (buf : Fin 2 → ℤ) (lds : Mem β) (first : Fin 2) : (Thread → V16f R) × (Thread → V16f R) :=
  let lds := copyHalves srdK strideK tile buf lds first
  let qRegs := loadQ srdQ strideQ seqlenQ mTileIdx
  let sAcc := gemm0Subtile bf (fun _ => clearAcc) (fun _ => clearAcc) (sliceQ qRegs 0) lds (buf 0)
  gemm0Subtile bf sAcc.1 sAcc.2 (sliceQ qRegs 1) lds (buf 1)

end Scores

/-! ### `O = P * V` -/

section Output

variable {α β : Type*} [Fp α] [Zero β]

/-- One tile of P and V: the first V row, the probabilities, and the LDS buffers of the two
halves of V. -/
structure PvTile (α : Type*) where
  vRow : ℤ
  P : ℕ → ℕ → α
  buf : Fin 2 → ℤ
  distinct : buf 0 ≠ buf 1

/-- The registers of half `half` of P in the TransposedC layout. -/
def transposedC (P : ℕ → ℕ → α) (half : Fin 2) (t : Thread) : V16f α := fun r =>
  P (laneId t % 32 + 32 * warpId t)
    (32 * half.val + r.val / 8 * 16 + laneId t / 32 * 8 + r.val % 8)

omit [Fp α] in
lemma transposedC_holds (P : ℕ → ℕ → α) (half : Fin 2) :
    Holds nCol (transposedC P half) fun m n => P m (32 * half.val + n) := by
  intro t r
  unfold transposedC
  rw [mRow_eq, nCol, kSub_eq_lane, laneId_eq, warpId_eq]
  congr 1
  · omega
  · omega

structure PvState (α β : Type*) where
  lds : Mem β
  oAcc : (Thread → V16f α) × (Thread → V16f α)

/-- `raw_buffer_load_b64` at a device offset: a dword whose offset is not below `num_records` reads as
zero. -/
def rawBufferLoadB64 (srd : Mem β) (voffset : I32) : V2i β := fun i =>
  if voffset.toNat + 4 * i.val < numRecords then loadB32 srd (voffset.toNat + 4 * i.val : ℕ) else ⟨0, 0⟩

/-- `load_v_from_dram`, with its offsets in `int`s. -/
def loadVFromDram32 (srd : Mem β) (strideV kvByteBase : I32) (t : Thread) (k3 : Fin 2) : V2i β :=
  rawBufferLoadB64 srd (vVoff strideV kvByteBase t k3)

/-- Stage both halves of V, then add both halves of `P * V`. -/
def pvTile (bf : Bf16Conv α β) (srdV : Mem β) (strideV : I32) (s : PvState α β) (tile : PvTile α) :
    PvState α β :=
  let kvVByte := (tile.vRow : I32) * (strideV * 2)
  let lds := storeVToLds s.lds (loadVFromDram32 srdV strideV kvVByte) (tile.buf 0)
  let lds := storeVToLds lds (loadVFromDram32 srdV strideV (kvVByte + 32 * (strideV * 2))) (tile.buf 1)
  let oAcc := gemm1Subtile bf s.oAcc.1 s.oAcc.2 (transposedC tile.P 0) lds (tile.buf 0)
  ⟨lds, gemm1Subtile bf oAcc.1 oAcc.2 (transposedC tile.P 1) lds (tile.buf 1)⟩

/-- All tiles, from cleared accumulators. -/
def pvTiles (bf : Bf16Conv α β) (srdV : Mem β) (strideV : ℤ) (lds : Mem β) (tiles : List (PvTile α)) :
    PvState α β :=
  tiles.foldl (pvTile bf srdV (strideV : I32)) ⟨lds, (fun _ => clearAcc, fun _ => clearAcc)⟩

/-- What a tile adds to row `m`, column `d`. -/
def pvSum (bf : Bf16Conv α β) (srdV : Mem β) (strideV : ℤ) (tile : PvTile α) (m d : ℕ) : α :=
  ∑ n ∈ Finset.range 64,
    bf.toFloat (bf.ofFloat (tile.P m n)) * bf.toFloat (srdV ((tile.vRow + n) * strideV + d))

/-- The rows of V that a tile stages are at exact byte offsets, below `num_records`. -/
def VReached (strideV : ℤ) (tile : PvTile α) : Prop :=
  ∀ n < 64, 0 ≤ (tile.vRow + (n : ℕ)) * strideV ∧
    2 * ((tile.vRow + (n : ℕ)) * strideV) + 124 < numRecords

/-- What the two halves of a tile load from `srdV` is what they find in `rows` without wrapping. -/
structure LoadsRows (srdV : Mem β) (strideV : ℤ) (tile : PvTile α) (rows : Mem β) : Prop where
  half0 : loadVFromDram32 srdV strideV ((tile.vRow : I32) * (strideV * 2))
    = loadVFromDram rows strideV (tile.vRow * (strideV * 2))
  half1 : loadVFromDram32 srdV strideV ((tile.vRow : I32) * (strideV * 2) + 32 * (strideV * 2))
    = loadVFromDram rows strideV ((tile.vRow + 32) * (strideV * 2))

omit [Fp α] in
/-- Rows at exact offsets are loaded as they are. -/
lemma loadVFromDram32_eq (srd : Mem β) {strideV vRow : ℤ}
    (h : ∀ n < 32, 0 ≤ (vRow + (n : ℕ)) * strideV ∧
      2 * ((vRow + (n : ℕ)) * strideV) + 124 < numRecords) :
    loadVFromDram32 srd strideV ((vRow * (strideV * 2) : ℤ) : I32)
      = loadVFromDram srd strideV (vRow * (strideV * 2)) := by
  funext t k3 i
  have hrow := vRowInTile_eq t
  have hcol := vCol_eq t
  obtain ⟨hlo, hhi⟩ := h (vRowInTile t + k3.val) (by omega)
  have hoff : vVoff strideV (vRow * (strideV * 2)) t k3
      = 2 * ((vRow + (vRowInTile t + k3.val : ℕ)) * strideV) + 2 * vCol t := by
    rw [vVoff_eq]
    ring
  have hcast : vVoff (strideV : I32) ((vRow * (strideV * 2) : ℤ) : I32) t k3
      = ((vVoff strideV (vRow * (strideV * 2)) t k3 : ℤ) : I32) := by
    rw [vVoff_eq, vVoff_eq]
    push_cast
    ring
  have hnat : (((vVoff (strideV : I32) ((vRow * (strideV * 2) : ℤ) : I32) t k3).toNat : ℕ) : ℤ)
      = vVoff strideV (vRow * (strideV * 2)) t k3 := by
    simp only [numRecords] at hhi
    rw [hcast, Words.toNat_intCast, Int.emod_eq_of_lt] <;> omega
  have hkept : (vVoff (strideV : I32) ((vRow * (strideV * 2) : ℤ) : I32) t k3).toNat + 4 * i.val
      < numRecords := by
    simp only [numRecords] at hhi ⊢
    omega
  rw [loadVFromDram32, rawBufferLoadB64, if_pos hkept, loadVFromDram, loadB64, ← hnat]
  congr 1
  push_cast
  ring

omit [Fp α] in
lemma loadsRows_of_reached (srdV : Mem β) {strideV : ℤ} {tile : PvTile α} (h : VReached strideV tile) :
    LoadsRows srdV strideV tile srdV where
  half0 := by
    rw [← loadVFromDram32_eq srdV fun n hn => h n (by omega)]
    push_cast
    rfl
  half1 := by
    have h1 : ∀ n < 32, 0 ≤ (tile.vRow + 32 + (n : ℕ)) * strideV ∧
        2 * ((tile.vRow + 32 + (n : ℕ)) * strideV) + 124 < numRecords := fun n hn => by
      have hrow : tile.vRow + 32 + (n : ℕ) = tile.vRow + (32 + n : ℕ) := by
        push_cast
        ring
      rw [hrow]
      exact h (32 + n) (by omega)
    rw [← loadVFromDram32_eq srdV h1]
    push_cast
    rw [add_mul]

omit [Fp α] [Zero β] in
/-- V half 0 and V half 1 are both in LDS. -/
lemma pvTile_lds (rows : Mem β) (strideV : ℤ) (lds : Mem β) (tile : PvTile α) {n d : ℕ}
    (hn : n < 32) (hd : d < 64) (half : Fin 2) :
    storeVToLds (storeVToLds lds (loadVFromDram rows strideV (tile.vRow * (strideV * 2)))
        (tile.buf 0)) (loadVFromDram rows strideV ((tile.vRow + 32) * (strideV * 2)))
        (tile.buf 1) (bufBaseElems (tile.buf half) + vLdsElemOffset n d)
      = rows ((tile.vRow + (32 * half.val + n : ℕ)) * strideV + d) := by
  have h0 : tile.vRow * (strideV * 2) = 2 * (tile.vRow * strideV) := by ring
  have h1 : (tile.vRow + 32) * (strideV * 2) = 2 * ((tile.vRow + 32) * strideV) := by ring
  have hlt := vLdsElemOffset_lt (n := n) hd
  have hne := tile.distinct
  fin_cases half
  · rw [storeVToLds_frame]
    · refine (storeVToLds_row h0 hn hd).trans ?_
      simp only [mul_zero, zero_add]
    · simp only [bufBaseElems, Fin.zero_eta]
      omega
  · refine (storeVToLds_row h1 hn hd).trans ?_
    simp only [mul_one, Nat.cast_add, Nat.cast_ofNat, add_assoc]

/-- The accumulators hold the output tile `O`. -/
def HoldsO (oAcc : (Thread → V16f α) × (Thread → V16f α)) (O : ℕ → ℕ → α) : Prop :=
  Holds dCol oAcc.1 O ∧ Holds dCol oAcc.2 fun m d => O m (d + 32)

/-- One tile adds its product. -/
lemma pvTile_holds (bf : Bf16Conv α β) {srdV rows : Mem β} {strideV : ℤ} {s : PvState α β}
    {tile : PvTile α} (hv : LoadsRows srdV strideV tile rows) {O : ℕ → ℕ → α} (h : HoldsO s.oAcc O) :
    HoldsO (pvTile bf srdV (strideV : I32) s tile).oAcc fun m d =>
      O m d + pvSum bf rows strideV tile m d := by
  have hp0 : Holds nCol (transposedC tile.P 0) tile.P := by
    simpa using transposedC_holds tile.P 0
  have hp1 : Holds nCol (transposedC tile.P 1) fun m n => tile.P m (32 + n) :=
    transposedC_holds tile.P 1
  dsimp only [pvTile]
  rw [hv.half0, hv.half1]
  obtain ⟨a0, a1⟩ := gemm1Subtile_holds bf h.1 h.2 hp0
    (fun n hn d hd => pvTile_lds rows strideV s.lds tile hn hd 0) _ fun m d => rfl
  refine gemm1Subtile_holds bf a0 a1 hp1
    (fun n hn d hd => pvTile_lds rows strideV s.lds tile hn hd 1) _ fun m d => ?_
  unfold pvSum
  rw [add_assoc]
  congr 1
  refine (Finset.sum_range_add _ 32 32).trans ?_
  congr 1
  · refine Finset.sum_congr rfl fun n _ => ?_
    rw [mul_comm, Fin.val_zero, mul_zero, zero_add]
  · refine Finset.sum_congr rfl fun n _ => ?_
    rw [mul_comm, Fin.val_one, mul_one]

/-- **All tiles**: the accumulators hold the sum of the tiles' products. -/
lemma pvTiles_holds (bf : Bf16Conv α β) {srdV rows : Mem β} {strideV : ℤ} (lds : Mem β)
    {tiles : List (PvTile α)} (hv : ∀ tile ∈ tiles, LoadsRows srdV strideV tile rows) :
    HoldsO (pvTiles bf srdV strideV lds tiles).oAcc fun m d =>
      (tiles.map fun tile => pvSum bf rows strideV tile m d).sum := by
  induction tiles using List.reverseRecOn with
  | nil => exact ⟨fun _ _ => rfl, fun _ _ => rfl⟩
  | append_singleton tiles tile ih =>
    have ih := ih fun l hl => hv l (List.mem_append_left _ hl)
    unfold pvTiles at ih ⊢
    rw [List.foldl_append, List.foldl_cons, List.foldl_nil]
    have hstep := pvTile_holds bf (hv tile (List.mem_append_right _ (List.mem_singleton_self _))) ih
    simpa only [List.map_append, List.sum_append, List.map_cons, List.map_nil, List.sum_cons,
      List.sum_nil, add_zero] using hstep

/-! ### The stored rows -/

/-- The rows of the M-tile that are in range keep apart in O. -/
def RowsApart (strideO seqlenQ mTileIdx : ℤ) : Prop :=
  ∀ m m' : ℕ, m < 128 → m' < 128 → mTileIdx * 128 + m < seqlenQ → mTileIdx * 128 + m' < seqlenQ →
    m ≠ m' → ∀ d d' : ℕ, d < 64 → d' < 64 →
      (mTileIdx * 128 + m) * strideO + d ≠ (mTileIdx * 128 + m') * strideO + d'

/-- The 32-bit offsets of the stores to the in-range rows are exact and below `num_records`. -/
def RowsReached (strideO seqlenQ mTileIdx : ℤ) : Prop :=
  ∀ t s, mTileIdx * 128 + mRow t < seqlenQ →
    StoreExact seqlenQ strideO (mTileIdx * 128 + mRow t) t s

/-- What the lanes of a block store after the tiles. -/
def pvStores (bf : Bf16Conv α β) (srdV : Mem β) (strideV : ℤ) (lds : Mem β) (tiles : List (PvTile α))
    (rsum rmax : ℕ → α) (scale : α) (strideO : ℤ) (lseBase : Option ℤ)
    (seqlenQ mTileIdx oBase : ℤ) (t : Thread) : LaneStores α β :=
  let oAcc := (pvTiles bf srdV strideV lds tiles).oAcc
  epilogStore bf (oAcc.1 t) (oAcc.2 t) (rsum (mRow t)) (rmax (mRow t)) scale strideO lseBase seqlenQ
    mTileIdx oBase t

/-- Every element of the in-range rows is written once, and holds `value` of its row and column
after the stores of the block, in any order. -/
def NaturalOrder (out : Thread → LaneStores α β) (strideO seqlenQ mTileIdx oBase : ℤ)
    (value : ℕ → ℕ → β) : Prop :=
  ∀ m < 128, mTileIdx * 128 + (m : ℕ) < seqlenQ → ∀ d < 64,
    let addr := oBase + (mTileIdx * 128 + m) * strideO + (d : ℕ)
    (∃! x : Thread × Fin 8 × Fin 4, ∃ v, (out x.1).written x.2.1 x.2.2 = some (addr, v)) ∧
      ∀ (mem : Mem β) (ws : List (ℤ × β)), ws.Perm (blockWrites out) →
        stores mem ws addr = value m d

section Epilogue

variable (bf : Bf16Conv α β) (strideV : ℤ) (lds : Mem β) (rsum rmax : ℕ → α) (scale : α)
  {strideO : ℤ} (lseBase : Option ℤ) {seqlenQ mTileIdx : ℤ} (oBase : ℤ)

/-- The value that the block is to store for row `m`, column `d`, when `rows` are the rows of V. -/
def pvValue (rows : Mem β) (tiles : List (PvTile α)) (m d : ℕ) : β :=
  bf.ofFloat (invSum (rsum m) * (tiles.map fun tile => pvSum bf rows strideV tile m d).sum)

variable {strideV} {srdV rows : Mem β} {tiles : List (PvTile α)}

lemma pvStores_o (hv : ∀ tile ∈ tiles, LoadsRows srdV strideV tile rows) (strideO seqlenQ mTileIdx : ℤ)
    (t : Thread) (s : Fin 8) (e : Fin 4) :
    (pvStores bf srdV strideV lds tiles rsum rmax scale strideO lseBase seqlenQ mTileIdx oBase t).o s e
      = if mTileIdx * 128 + mRow t < seqlenQ then
          some (oBase + (mTileIdx * 128 + mRow t) * strideO + storeCol t s e,
            pvValue bf strideV rsum rows tiles (mRow t) (storeCol t s e))
        else none := by
  obtain ⟨h0, h1⟩ := pvTiles_holds bf lds hv
  unfold pvStores pvValue
  rw [mul_comm (invSum _)]
  exact epilogStore_o h0 h1 _ _ _ _ _ _ _ _ t s e

/-- Rows that are reached are written where they are stored. -/
lemma pvStores_written (hv : ∀ tile ∈ tiles, LoadsRows srdV strideV tile rows)
    (h : RowsReached strideO seqlenQ mTileIdx) (t : Thread) (s : Fin 8) (e : Fin 4) :
    (pvStores bf srdV strideV lds tiles rsum rmax scale strideO lseBase seqlenQ mTileIdx oBase t).written
        s e
      = if mTileIdx * 128 + mRow t < seqlenQ then
          some (oBase + (mTileIdx * 128 + mRow t) * strideO + storeCol t s e,
            pvValue bf strideV rsum rows tiles (mRow t) (storeCol t s e))
        else none := by
  refine (epilogStore_written _ _ _ _ _ _ _ _ _ _ _ _ _ _).trans ?_
  rw [← pvStores, pvStores_o _ _ _ _ _ _ _ hv]
  split_ifs with hrow
  · rw [Option.bind_some, (h t s hrow).oElem_eq, Option.map_some, add_assoc]
  · rfl

/-- The stored rows, for whatever rows of V the loads find. -/
lemma naturalOrder_of_loads (hv : ∀ tile ∈ tiles, LoadsRows srdV strideV tile rows)
    (h : RowsApart strideO seqlenQ mTileIdx) (hreach : RowsReached strideO seqlenQ mTileIdx) :
    NaturalOrder (pvStores bf srdV strideV lds tiles rsum rmax scale strideO lseBase seqlenQ mTileIdx
      oBase) strideO seqlenQ mTileIdx oBase (pvValue bf strideV rsum rows tiles) := by
  intro m hm hin d hd addr
  -- a store to the element is the row's own, of that column
  have hsite : ∀ t s e v, (pvStores bf srdV strideV lds tiles rsum rmax scale strideO lseBase seqlenQ
      mTileIdx oBase t).written s e = some (addr, v) → mRow t = m ∧ storeCol t s e = d ∧
        v = pvValue bf strideV rsum rows tiles m d := by
    intro t s e v hw
    rw [pvStores_written _ _ _ _ _ _ _ hv hreach] at hw
    split_ifs at hw with hrow
    obtain ⟨ha, rfl⟩ := Prod.mk.inj (Option.some.inj hw)
    have he : (mTileIdx * 128 + mRow t) * strideO + storeCol t s e
        = (mTileIdx * 128 + m) * strideO + d := by
      simp only [addr] at ha
      omega
    have hm' : mRow t = m := by
      by_contra hne
      exact h _ _ (mRow_lt t) hm hrow hin hne _ _ (storeCol_lt t s e) hd he
    have hd' : storeCol t s e = d := by
      rw [hm'] at he
      omega
    exact ⟨hm', hd', by rw [hm', hd']⟩
  obtain ⟨t, s, e, hmt, hdt⟩ := exists_storeCol hm hd
  have hstored : (pvStores bf srdV strideV lds tiles rsum rmax scale strideO lseBase seqlenQ mTileIdx
      oBase t).written s e = some (addr, pvValue bf strideV rsum rows tiles m d) := by
    rw [pvStores_written _ _ _ _ _ _ _ hv hreach, hmt, hdt, if_pos hin]
  refine ⟨⟨(t, s, e), ⟨_, hstored⟩, ?_⟩, fun mem ws hws => ?_⟩
  · rintro ⟨t', s', e'⟩ ⟨v, hv'⟩
    obtain ⟨hm', hd', -⟩ := hsite t' s' e' v hv'
    obtain ⟨rfl, rfl, rfl⟩ := storeCol_inj (hm'.trans hmt.symm) (hd'.trans hdt.symm)
    rfl
  · refine stores_of_mem (hws.mem_iff.mpr (mem_blockWrites.mpr ⟨t, s, e, hstored⟩)) fun v hv' => ?_
    obtain ⟨t', s', e', hv'⟩ := mem_blockWrites.mp (hws.mem_iff.mp hv')
    exact (hsite t' s' e' v hv').2.2

/-- **P and V come out in head-dimension order**, when the descriptors reach the rows of V and of O
and the latter keep apart. -/
theorem pvStores_naturalOrder (hv : ∀ tile ∈ tiles, VReached strideV tile)
    (h : RowsApart strideO seqlenQ mTileIdx) (hreach : RowsReached strideO seqlenQ mTileIdx) :
    NaturalOrder (pvStores bf srdV strideV lds tiles rsum rmax scale strideO lseBase seqlenQ mTileIdx
      oBase) strideO seqlenQ mTileIdx oBase (pvValue bf strideV rsum srdV tiles) :=
  naturalOrder_of_loads bf lds rsum rmax scale lseBase oBase
    (fun tile ht => loadsRows_of_reached srdV (hv tile ht)) h hreach

end Epilogue

/-- Rows a head dimension or more apart do not meet. -/
lemma rowsApart_of_le {strideO : ℤ} (h : 64 ≤ |strideO|) (seqlenQ mTileIdx : ℤ) :
    RowsApart strideO seqlenQ mTileIdx := by
  intro m m' _ _ _ _ hne d d' hd hd' he
  have hk : ((m : ℤ) - m') * strideO = d' - d := by linarith
  have hone : 1 ≤ |(m : ℤ) - m'| := Int.one_le_abs (sub_ne_zero.mpr (by exact_mod_cast hne))
  have hle : |strideO| ≤ |(d' : ℤ) - d| := by
    rw [← hk, abs_mul]
    exact le_mul_of_one_le_left (abs_nonneg _) hone
  have hlt : |(d' : ℤ) - d| < 64 := by
    rw [abs_lt]
    omega
  omega

/-- The rows of a tensor whose last byte is below the clamp are reached. -/
lemma rowsReached_of_ok {strideO seqlenQ mTileIdx : ℤ} (h : StoreOk seqlenQ strideO)
    (hm : 0 ≤ mTileIdx) : RowsReached strideO seqlenQ mTileIdx := by
  intro t s hrow
  have hmr := Int.natCast_nonneg (mRow t)
  exact storeExact_of_ok h (by omega) hrow

end Output

/-- One tile whose row `m` of P is `m` throughout. -/
def rowNumbers : PvTile XReal := ⟨0, fun m _ => .fin m, ![1, 0], by decide⟩

lemma vReached_rowNumbers : VReached 64 rowNumbers := by
  intro n hn
  simp only [rowNumbers, numRecords]
  omega

/-- Two rows of that tile against ones, 64 columns apart. -/
theorem pvStores_naturalOrder_two :
    NaturalOrder (pvStores XReal.exact.toBf16Conv (fun _ => XReal.fin 1) 64 (fun _ => XReal.nan)
      [rowNumbers] (fun _ => XReal.fin 1) (fun _ => XReal.fin 0) (XReal.fin 1) 64 none 2 0 0) 64 2 0 0
      (pvValue XReal.exact.toBf16Conv 64 (fun _ => XReal.fin 1) (fun _ => XReal.fin 1) [rowNumbers]) :=
  pvStores_naturalOrder _ _ _ _ _ _ _ (List.forall_mem_singleton.mpr vReached_rowNumbers)
    (rowsApart_of_le (by decide) 2 0) (rowsReached_of_ok (Or.inl ⟨by decide, by decide⟩) le_rfl)

/-- A tile whose P picks row 32. -/
def rowThirtyTwo : PvTile XReal := ⟨0, fun _ n => if n = 32 then .fin 1 else .fin 0, ![1, 0], by decide⟩

/-- One element of V, in row 32 when the rows are `2 ^ 26` apart. -/
def oneElement : Mem XReal := fun e => if e = 2147483650 then .fin 1 else .fin 0

/-- The offset of row 32 wraps: no load finds the element. -/
lemma loadsRows_wrapped : LoadsRows oneElement 67108864 rowThirtyTwo fun _ => 0 := by
  have hzero : ∀ base b, loadVFromDram32 oneElement (67108864 : ℤ) base
      = loadVFromDram (fun _ => (0 : XReal)) 67108864 b := by
    intro base b
    funext t k3 i
    have hlt := (vVoff ((67108864 : ℤ) : I32) base t k3).isLt
    rw [loadVFromDram32, rawBufferLoadB64]
    split_ifs with hk
    · simp only [numRecords] at hk
      simp only [loadB32, oneElement, loadVFromDram, loadB64]
      rw [if_neg (by omega), if_neg (by omega)]
      rfl
    · rfl
  exact ⟨hzero _ _, hzero _ _⟩

lemma pvValue_rowThirtyTwo {rows : Mem XReal} (r : ℕ → ℝ)
    (h : ∀ n < 64, rows ((0 + (n : ℕ)) * 67108864 + (2 : ℕ)) = .fin (r n)) :
    pvValue XReal.exact.toBf16Conv 67108864 (fun _ => XReal.fin 1) rows [rowThirtyTwo] 0 2
      = .fin (r 32) := by
  have hsum : pvSum XReal.exact.toBf16Conv rows 67108864 rowThirtyTwo 0 2
      = ∑ n ∈ Finset.range 64, XReal.fin (if n = 32 then r n else 0) := by
    refine Finset.sum_congr rfl fun n hn => ?_
    change (if n = 32 then XReal.fin 1 else .fin 0) * rows ((0 + (n : ℕ)) * 67108864 + (2 : ℕ)) = _
    rw [h n (Finset.mem_range.mp hn)]
    split_ifs
    · rw [XReal.fin_mul, one_mul]
    · rw [XReal.fin_mul, zero_mul]
  have hinv : invSum (XReal.fin 1) = .fin 1 := by
    unfold invSum
    rw [if_pos (by simp), XReal.recip_def, XReal.recip_fin one_ne_zero, inv_one]
  rw [pvValue, List.map_singleton, List.sum_singleton, hsum, XReal.sum_fin, hinv, XReal.fin_mul,
    one_mul]
  simp

/-- With a row stride of zero the extent of O is zero, and every store is dropped; with V rows
`2 ^ 27` bytes apart row 0 is loaded in place of row 32. -/
theorem pvStores_naturalOrder_fails :
    (¬ NaturalOrder (pvStores XReal.exact.toBf16Conv (fun _ => XReal.fin 1) 64 (fun _ => XReal.nan)
      [rowNumbers] (fun _ => XReal.fin 1) (fun _ => XReal.fin 0) (XReal.fin 1) 0 none 2 0 0) 0 2 0 0
      (pvValue XReal.exact.toBf16Conv 64 (fun _ => XReal.fin 1) (fun _ => XReal.fin 1) [rowNumbers])) ∧
    ¬ NaturalOrder (pvStores XReal.exact.toBf16Conv oneElement 67108864 (fun _ => XReal.nan)
      [rowThirtyTwo] (fun _ => XReal.fin 1) (fun _ => XReal.fin 0) (XReal.fin 1) 64 none 1 0 0) 64 1 0 0
      (pvValue XReal.exact.toBf16Conv 67108864 (fun _ => XReal.fin 1) oneElement [rowThirtyTwo]) := by
  refine ⟨fun h => ?_, fun h => ?_⟩
  · obtain ⟨⟨t, s, e⟩, ⟨v, hv⟩, -⟩ := (h 0 (by decide) (by decide) 0 (by decide)).1
    have hnum : ((oNumRecords 2 0 : ℤ) : I32).toNat = 0 := by decide
    have hnone : ∀ row c k, oElem 2 0 row c k e = none := fun row c k => by
      rw [oElem, rawBufferStoreB64, hnum, if_neg (Nat.not_lt_zero _)]
    rw [pvStores, epilogStore_written, hnone] at hv
    simp only [Option.map_none, Option.bind_fun_none] at hv
    cases hv
  · have hwrapped : ∀ tile ∈ [rowThirtyTwo], LoadsRows oneElement 67108864 tile fun _ => 0 := 
      List.forall_mem_singleton.mpr loadsRows_wrapped
    have hzero := naturalOrder_of_loads XReal.exact.toBf16Conv (fun _ => XReal.nan)
      (fun _ => XReal.fin 1) (fun _ => XReal.fin 0) (XReal.fin 1) none 0 hwrapped
      (rowsApart_of_le (by decide : (64 : ℤ) ≤ |64|) 1 0)
      (rowsReached_of_ok (Or.inl ⟨by decide, by decide⟩) le_rfl)
    have h0 := (hzero 0 (by decide) (by decide) 2 (by decide)).2 (fun _ => .nan) _ (List.Perm.refl _)
    have h1 := (h 0 (by decide) (by decide) 2 (by decide)).2 (fun _ => .nan) _ (List.Perm.refl _)
    have heq := h1.symm.trans h0
    rw [pvValue_rowThirtyTwo (fun n => if n = 32 then 1 else 0) fun n _ => ?_,
      pvValue_rowThirtyTwo (fun _ => 0) fun _ _ => rfl] at heq
    · norm_num at heq
    · unfold oneElement
      split_ifs <;> first | rfl | omega

end FmhaNative.TileGemms
