import FmhaNative.Kernel
import FmhaNative.Loads
import FmhaNative.Words

/-!
The 32-bit byte offsets of the device code.

Offsets are computed in `int`s, wrap, and are read as unsigned by the buffer instructions,
which drop a dword whose offset is not below the descriptor's `num_records`.
-/

namespace FmhaNative.Offsets32

open Pipeline OpLds OpEpilog Loads Words

/-- A device `int`, as the instructions read it. -/
abbrev I32 := BitVec 32

/-- `num_records` of the Q, K and V descriptors. -/
def numRecords : ℕ := 0xFFFFFFFF

/-- `num_records` of the O descriptor, the clamped extent converted to `int`. -/
def oNumRecords32 (seqlenQ strideO : ℤ) : I32 := (oNumRecords seqlenQ strideO : ℤ)

def strides32 (st : Strides ℤ) : Strides I32 := ⟨st.q, st.k, st.v⟩

/-- A load's offset is the distance from the base pointer, and none of its dwords is dropped. -/
structure LoadExact (st : Strides ℤ) (mTileIdx : ℤ) (l : Load) : Prop where
  exact : (((l.voffset (strides32 st) (mTileIdx : I32)).toNat : ℕ) : ℤ)
    = (l.row mTileIdx * l.stride st + l.col) * 2
  kept : ∀ j < l.width / 2, (l.voffset (strides32 st) (mTileIdx : I32)).toNat + 4 * j < numRecords

/-- The same for one store of a lane to row `row` of O. -/
structure StoreExact (seqlenQ strideO row : ℤ) (t : Thread) (s : Fin 8) : Prop where
  exact : (((oVoffset (row : I32) (strideO : I32) (colBase t : I32)).toNat : ℕ) : ℤ)
    = (row * strideO + colBase t) * 2
  kept : ∀ j < 2, (oVoffset (row : I32) (strideO : I32) (colBase t : I32)).toNat + s.val * 16 + 4 * j
    < (oNumRecords32 seqlenQ strideO).toNat

/-! ### One tensor -/

/-- The last byte offset that a tensor of `S` rows needs. -/
def lastByte (S stride : ℤ) : ℤ := 2 * ((S - 1) * stride) + 124

/-- The rows of a loaded tensor have exact offsets. -/
def LoadOk (S stride : ℤ) : Prop := 0 ≤ (S - 1) * stride ∧ lastByte S stride < numRecords

/-- The rows of the stored tensor have exact offsets. -/
def StoreOk (S stride : ℤ) : Prop :=
  (62 < stride ∧ lastByte S stride < 0x7FFFFFFF) ∨
    (S = 1 ∧ stride < 0 ∧ 124 < 2 * stride % 2 ^ 32)

/-- The offset of a row is between that of row 0 and that of the last row. -/
lemma row_bounds {S stride r : ℤ} (h : 0 ≤ (S - 1) * stride) (h0 : 0 ≤ r) (hr : r < S) :
    0 ≤ r * stride ∧ r * stride ≤ (S - 1) * stride := by
  rcases le_or_gt 0 stride with hs | hs
  · exact ⟨mul_nonneg h0 hs, by nlinarith⟩
  · -- a negative stride leaves one row
    have h1 : S - 1 ≤ 0 := by
      by_contra hc
      nlinarith
    have hr0 : r = 0 := by omega
    have hS : S - 1 = 0 := by omega
    rw [hr0, hS]
    simp

/-- A shorter tensor is good too. -/
lemma LoadOk.mono {S S' stride : ℤ} (h : LoadOk S stride) (h1 : 1 ≤ S') (hle : S' ≤ S) :
    LoadOk S' stride := by
  obtain ⟨hnn, hlast⟩ := h
  obtain ⟨h0, hrow⟩ := row_bounds (r := S' - 1) hnn (by omega) (by omega)
  unfold lastByte at hlast
  exact ⟨h0, by unfold lastByte; omega⟩

lemma StoreOk.mono {S S' stride : ℤ} (h : StoreOk S stride) (h1 : 1 ≤ S') (hle : S' ≤ S) :
    StoreOk S' stride := by
  rcases h with ⟨hs, hlast⟩ | ⟨rfl, hneg⟩
  · have hnn : 0 ≤ (S - 1) * stride := mul_nonneg (by omega) (by omega)
    obtain ⟨-, hrow⟩ := row_bounds (r := S' - 1) hnn (by omega) (by omega)
    unfold lastByte at hlast
    exact Or.inl ⟨hs, by unfold lastByte; omega⟩
  · exact Or.inr ⟨by omega, hneg⟩

section Loads

variable {st : Strides ℤ} {mTileIdx : ℤ} {l : Load}

/-- The offset that the instruction reads is the distance modulo `2 ^ 32`. -/
lemma voffset_toNat (st : Strides ℤ) (mTileIdx : ℤ) (l : Load) :
    (((l.voffset (strides32 st) (mTileIdx : I32)).toNat : ℕ) : ℤ)
      = (l.row mTileIdx * l.stride st + l.col) * 2 % 2 ^ 32 := by
  have hst : l.stride (strides32 st) = ((l.stride st : ℤ) : I32) := by cases l <;> rfl
  have hcast : l.voffset (strides32 st) (mTileIdx : I32)
      = (((l.row mTileIdx * l.stride st + l.col) * 2 : ℤ) : I32) := by
    rw [l.voffset_eq, hst]
    push_cast
    ring
  rw [hcast, toNat_intCast]

lemma col_width (l : Load) : l.width = 2 ∨ l.width = 4 ∨ l.width = 8 := by
  cases l
  · exact Or.inr (Or.inr rfl)
  · exact Or.inl rfl
  · exact Or.inr (Or.inl rfl)

/-- A load of a row of a good tensor is exact. -/
lemma loadExact_of_ok {S : ℤ} (h : LoadOk S (l.stride st)) (h0 : 0 ≤ l.row mTileIdx)
    (hr : l.row mTileIdx < S) : LoadExact st mTileIdx l := by
  obtain ⟨hnn, hlast⟩ := h
  obtain ⟨hlo, hhi⟩ := row_bounds hnn h0 hr
  have hcol := l.col_le
  have hw := col_width l
  simp only [lastByte, numRecords] at hlast
  have hmod := voffset_toNat st mTileIdx l
  rw [Int.emod_eq_of_lt (by omega) (by omega)] at hmod
  refine ⟨hmod, fun j hj => ?_⟩
  simp only [numRecords]
  omega

/-- The first and the last column of a row need this of the tensor. -/
lemma loadOk_of_exact {S : ℤ} {l l' : Load} (hl : LoadExact st mTileIdx l)
    (hl' : LoadExact st mTileIdx l') (hs : l.stride st = l'.stride st)
    (hrow : l.row mTileIdx = S - 1) (hrow' : l'.row mTileIdx = S - 1) (hcol : l.col = 0)
    (hcol' : l'.col + l'.width = 64) : LoadOk S (l.stride st) := by
  have hw := col_width l'
  have hx := hl.exact
  have hx' := hl'.exact
  have hk := hl'.kept (l'.width / 2 - 1) (by omega)
  rw [hrow, hcol] at hx
  rw [hrow', ← hs] at hx'
  simp only [numRecords] at hk
  refine ⟨?_, ?_⟩
  · push_cast at hx
    omega
  · simp only [lastByte, numRecords]
    omega

end Loads

/-! ### The stores -/

section Stores

variable {S stride r : ℤ} {t : Thread} {s : Fin 8}

lemma oVoffset_toNat (row stride : ℤ) (c : ℕ) :
    (((oVoffset (row : I32) (stride : I32) (c : I32)).toNat : ℕ) : ℤ)
      = (row * stride + c) * 2 % 2 ^ 32 := by
  have hcast : oVoffset (row : I32) (stride : I32) (c : I32)
      = (((row * stride + c) * 2 : ℤ) : I32) := by
    rw [oVoffset]
    push_cast
    ring
  rw [hcast, toNat_intCast]

lemma oNumRecords_toNat (S stride : ℤ) :
    (((oNumRecords32 S stride).toNat : ℕ) : ℤ) = min (S * stride * 2) 0x7FFFFFFF % 2 ^ 32 := by
  rw [oNumRecords32, toNat_intCast, oNumRecords]

lemma colBase_le (t : Thread) : colBase t ≤ 4 := by
  have := kSub_lt t
  rw [colBase_eq]
  omega

/-- The stores of a good tensor are exact. -/
lemma storeExact_of_ok (h : StoreOk S stride) (h0 : 0 ≤ r) (hr : r < S) :
    StoreExact S stride r t s := by
  have hc := colBase_le t
  have hmod := oVoffset_toNat r stride (colBase t)
  have hnum := oNumRecords_toNat S stride
  rcases h with ⟨hs, hlast⟩ | ⟨rfl, hneg, hnum'⟩
  · have hnn : 0 ≤ (S - 1) * stride := by
      apply mul_nonneg <;> omega
    obtain ⟨hlo, hhi⟩ := row_bounds hnn h0 hr
    have hS : S * stride = (S - 1) * stride + stride := by ring
    simp only [lastByte] at hlast
    rw [Int.emod_eq_of_lt (by omega) (by omega)] at hmod
    rw [Int.emod_eq_of_lt (by omega) (by omega)] at hnum
    refine ⟨hmod, fun j hj => ?_⟩
    omega
  · have hr0 : r = 0 := by omega
    subst hr0
    rw [zero_mul, Int.emod_eq_of_lt (by omega) (by omega)] at hmod
    rw [one_mul, min_eq_left (by omega), mul_comm] at hnum
    refine ⟨by rw [zero_mul]; exact hmod, fun j hj => ?_⟩
    omega

/-- The first and the last element of the last row need this of the tensor. -/
lemma storeOk_of_exact (hS : 1 ≤ S) {m : Fin 128}
    (hfirst : StoreExact S stride (S - 1) (rowThread m 0) 0)
    (hlast : StoreExact S stride (S - 1) (rowThread m 1) 7) : StoreOk S stride := by
  have hx := hfirst.exact
  have hx' := hlast.exact
  have hk := hlast.kept 1 (by norm_num)
  have hnum := oNumRecords_toNat S stride
  have hc : colBase (rowThread m 0) = 0 := by rw [colBase_eq, kSub_rowThread]; rfl
  have hc' : colBase (rowThread m 1) = 4 := by rw [colBase_eq, kSub_rowThread]; rfl
  rw [hc] at hx
  rw [hc'] at hx' hk
  have hlt : ((7 : Fin 8).val : ℕ) = 7 := rfl
  have h0 : 0 ≤ (S - 1) * stride := by push_cast at hx; omega
  have hSs : S * stride = (S - 1) * stride + stride := by ring
  rw [hlt] at hk
  rcases le_or_gt 0 stride with hs | hs
  · have hSn : 0 ≤ S * stride := mul_nonneg (by omega) hs
    rw [Int.emod_eq_of_lt (by omega) (by omega)] at hnum
    refine Or.inl ⟨?_, ?_⟩
    · omega
    · simp only [lastByte]
      omega
  · -- one row: the extent is negative and wraps
    have hS1 : S = 1 := by
      by_contra hne
      have : (S - 1) * stride < 0 := mul_neg_of_pos_of_neg (by omega) hs
      omega
    subst hS1
    rw [one_mul, min_eq_left (by omega), mul_comm] at hnum
    simp only [sub_self, zero_mul] at hx' hk
    exact Or.inr ⟨rfl, hs, by omega⟩

end Stores

/-! ### A launch -/

variable {α β : Type*} (L : Launch α β)

/-- Every load of an in-range row of a launch is exact. -/
def LoadsExact : Prop :=
  ∀ b mTileIdx : ℤ, 0 ≤ b → b < L.batch → 0 ≤ mTileIdx → mTileIdx < L.grid.y →
    ∀ l ∈ loads L b mTileIdx, l.row mTileIdx < l.seqlen (L.seq b) →
      LoadExact (strides L) mTileIdx l

/-- Every load of an in-range row and every store of a launch is exact. -/
structure OffsetsExact : Prop where
  loads : LoadsExact L
  stores : ∀ b mTileIdx : ℤ, 0 ≤ b → b < L.batch → 0 ≤ mTileIdx → mTileIdx < L.grid.y →
    ∀ t s, mTileIdx * 128 + mRow t < (L.seq b).seqlenQ →
      StoreExact (L.seq b).seqlenQ L.params.strideO (mTileIdx * 128 + mRow t) t s

/-- What the strides and lengths of a sequence have to satisfy: O always, and Q, K and V when
there is a key. -/
def SeqOk (b : ℤ) : Prop :=
  1 ≤ (L.seq b).seqlenQ →
    StoreOk (L.seq b).seqlenQ L.params.strideO ∧
      (1 ≤ (L.seq b).seqlenK →
        LoadOk (L.seq b).seqlenQ L.params.strideQ ∧ LoadOk (L.seq b).seqlenK L.params.strideK ∧
          LoadOk (L.seq b).seqlenK L.params.strideV)

lemma Load.row_nonneg {mTileIdx : ℤ} (h : 0 ≤ mTileIdx) (l : Load) : 0 ≤ l.row mTileIdx := by
  cases l <;> simp only [Load.row] <;> omega

section Last

/-- The lanes of a K copy that read the first and the last column of a row. -/
lemma exists_kLane {r : ℕ} (hr : r < 64) :
    ∃ t t' : Thread, ∃ issue : Fin 4, kRow t issue = r ∧ kRow t' issue = r ∧
      kDInChunk t = 0 ∧ kDInChunk t' = 30 := by
  obtain ⟨w, q, i, hw, hq, hi, rfl⟩ : ∃ w q i, w < 4 ∧ q < 4 ∧ i < 4 ∧ r = 16 * i + 4 * q + w :=
    ⟨r % 4, r % 16 / 4, r / 16, by omega, by omega, by omega, by omega⟩
  refine ⟨⟨64 * w + 16 * q, by omega⟩, ⟨64 * w + 16 * q + 15, by omega⟩, ⟨i, hi⟩, ?_, ?_, ?_, ?_⟩ <;>
    simp only [kRow, kNBase_eq, kDInChunk_eq] <;> omega

/-- And those of a V load. -/
lemma exists_vLane {r : ℕ} (hr : r < 64) :
    ∃ t t' : Thread, ∃ half k3 : Fin 2, 32 * half.val + (vRowInTile t + k3.val) = r ∧
      32 * half.val + (vRowInTile t' + k3.val) = r ∧ vCol t = 0 ∧ vCol t' = 60 := by
  obtain ⟨h, w, q, k, hh, hw, hq, hk, rfl⟩ :
      ∃ h w q k, h < 2 ∧ w < 4 ∧ q < 4 ∧ k < 2 ∧ r = 32 * h + 8 * w + 2 * q + k :=
    ⟨r / 32, r % 32 / 8, r % 8 / 2, r % 2, by omega, by omega, by omega, by omega, by omega⟩
  refine ⟨⟨64 * w + q, by omega⟩, ⟨64 * w + 60 + q, by omega⟩, ⟨h, hh⟩, ⟨k, hk⟩, ?_, ?_, ?_, ?_⟩ <;>
    simp only [vRowInTile_eq, vCol_eq] <;> omega

variable {L} {b : ℤ}

/-- The last M-tile of a sequence is in the grid, does not leave early and walks all keys. -/
lemma lastTile (hb : 0 ≤ b) (hbB : b < L.batch) (hq : 1 ≤ (L.seq b).seqlenQ) :
    0 ≤ ((L.seq b).seqlenQ - 1) / 128 ∧ ((L.seq b).seqlenQ - 1) / 128 < L.grid.y ∧
      ¬ Early L b (((L.seq b).seqlenQ - 1) / 128) := by
  have hr : L.InRange b 0 ((L.seq b).seqlenQ - 1) :=
    ⟨hb, hbB, le_rfl, L.nheadQ_pos, by omega, by omega⟩
  refine ⟨by omega, L.tile_lt_grid hr, fun he => ?_⟩
  have := he.2
  omega

lemma lastTile_tiles (hk : 1 ≤ (L.seq b).seqlenK) :
    tiles L b (((L.seq b).seqlenQ - 1) / 128) = ((L.seq b).seqlenK + 63) / 64 := by
  have he : LoopBound.keyEnd L.hasMask (L.seq b).seqlenQ (L.seq b).seqlenK
      (((L.seq b).seqlenQ - 1) / 128) = (L.seq b).seqlenK := by
    unfold LoopBound.keyEnd
    split_ifs <;> omega
  rw [tiles, LoopBound.numTotalLoop_eq (by omega), he]

end Last

section Needs

variable {L} {b : ℤ}

/-- The lanes of the last query row. -/
def lastLane (L : Launch α β) (b : ℤ) (half : Fin 2) : Thread :=
  rowThread (Launch.rowInTile ((L.seq b).seqlenQ - 1)) half

lemma lastLane_row (L : Launch α β) (b : ℤ) (half : Fin 2) :
    ((L.seq b).seqlenQ - 1) / 128 * 128 + (mRow (lastLane L b half) : ℤ) = (L.seq b).seqlenQ - 1 := by
  rw [lastLane, mRow_rowThread]
  exact Launch.tile_row

variable (h : OffsetsExact L) (hb : 0 ≤ b) (hbB : b < L.batch) (hq : 1 ≤ (L.seq b).seqlenQ)
include h hb hbB hq

/-- The stores of the last query row need O to be good. -/
lemma storeOk_last : StoreOk (L.seq b).seqlenQ L.params.strideO := by
  obtain ⟨hm0, hmG, -⟩ := lastTile hb hbB hq
  have h0 := h.stores b _ hb hbB hm0 hmG (lastLane L b 0) 0 (by rw [lastLane_row]; omega)
  have h1 := h.stores b _ hb hbB hm0 hmG (lastLane L b 1) 7 (by rw [lastLane_row]; omega)
  rw [lastLane_row] at h0 h1
  exact storeOk_of_exact hq h0 h1

variable (hk : 1 ≤ (L.seq b).seqlenK)
include hk

/-- The last M-tile issues its loads exactly. -/
lemma loadExact_last (l : Load)
    (hl : l.Issued (L.seq b).seqlenQ (((L.seq b).seqlenQ - 1) / 128) (((L.seq b).seqlenK + 63) / 64))
    (hlt : l.row (((L.seq b).seqlenQ - 1) / 128) < l.seqlen (L.seq b)) :
    LoadExact (strides L) (((L.seq b).seqlenQ - 1) / 128) l := by
  obtain ⟨hm0, hmG, hearly⟩ := lastTile hb hbB hq
  have hn := lastTile_tiles (L := L) hk
  refine h.loads b _ hb hbB hm0 hmG l ((mem_loads L b _).mpr ⟨hearly, ?_, ?_⟩) hlt
  · omega
  · rwa [hn]

lemma loadOk_q : LoadOk (L.seq b).seqlenQ L.params.strideQ := by
  have hrow : ∀ half, ((L.seq b).seqlenQ - 1) / 128 * 128 + (mRow (lastLane L b half) : ℤ)
      < (L.seq b).seqlenQ := fun half => by
    rw [lastLane_row]
    omega
  have e0 := loadExact_last h hb hbB hq hk (.q (lastLane L b 0) 0) (hrow 0) (hrow 0)
  have e1 := loadExact_last h hb hbB hq hk (.q (lastLane L b 1) 3) (hrow 1) (hrow 1)
  refine loadOk_of_exact (S := (L.seq b).seqlenQ) e0 e1 rfl (lastLane_row L b 0) (lastLane_row L b 1)
    ?_ ?_ <;>
    simp only [Load.col, Load.width, qCol, lastLane, kSub_rowThread] <;> rfl

lemma loadOk_k : LoadOk (L.seq b).seqlenK L.params.strideK := by
  obtain ⟨t, t', issue, ht, ht', hc, hc'⟩ :=
    exists_kLane (r := (((L.seq b).seqlenK - 1) % 64).toNat) (by omega)
  have hrow : ∀ half : Fin 2, ∀ u : Thread, kRow u issue = (((L.seq b).seqlenK - 1) % 64).toNat →
      (Load.k ((((L.seq b).seqlenK + 63) / 64).toNat - 1) half u issue).row
        (((L.seq b).seqlenQ - 1) / 128) = (L.seq b).seqlenK - 1 := by
    intro half u hu
    simp only [Load.row, hu]
    omega
  have hlast : ((((L.seq b).seqlenK + 63) / 64).toNat - 1 : ℕ) < ((L.seq b).seqlenK + 63) / 64 := by omega
  have e0 := loadExact_last h hb hbB hq hk (.k _ 0 t issue) hlast
    (by rw [hrow 0 t ht]; simp only [Load.seqlen]; omega)
  have e1 := loadExact_last h hb hbB hq hk (.k _ 1 t' issue) hlast
    (by rw [hrow 1 t' ht']; simp only [Load.seqlen]; omega)
  refine loadOk_of_exact e0 e1 rfl (hrow 0 t ht) (hrow 1 t' ht') ?_ ?_
  · simp only [Load.col, hc]
    rfl
  · simp only [Load.col, Load.width, hc']
    rfl

lemma loadOk_v : LoadOk (L.seq b).seqlenK L.params.strideV := by
  obtain ⟨t, t', half, k3, ht, ht', hc, hc'⟩ :=
    exists_vLane (r := (((L.seq b).seqlenK - 1) % 64).toNat) (by omega)
  have hrow : ∀ u : Thread,
      32 * half.val + (vRowInTile u + k3.val) = (((L.seq b).seqlenK - 1) % 64).toNat →
      (Load.v ((((L.seq b).seqlenK + 63) / 64).toNat - 1) half u k3).row
        (((L.seq b).seqlenQ - 1) / 128) = (L.seq b).seqlenK - 1 := by
    intro u hu
    simp only [Load.row]
    omega
  have hlast : ((((L.seq b).seqlenK + 63) / 64).toNat - 1 : ℕ) < ((L.seq b).seqlenK + 63) / 64 := by omega
  have e0 := loadExact_last h hb hbB hq hk (.v _ half t k3) hlast
    (by rw [hrow t ht]; simp only [Load.seqlen]; omega)
  have e1 := loadExact_last h hb hbB hq hk (.v _ half t' k3) hlast
    (by rw [hrow t' ht']; simp only [Load.seqlen]; omega)
  refine loadOk_of_exact e0 e1 rfl (hrow t ht) (hrow t' ht') hc ?_
  simp only [Load.col, Load.width, hc']

end Needs

/-- Exact offsets in the last M-tile need good strides. -/
lemma seqOk_of_exact {L : Launch α β} (h : OffsetsExact L) {b : ℤ} (hb : 0 ≤ b)
    (hbB : b < L.batch) : SeqOk L b := fun hq =>
  ⟨storeOk_last h hb hbB hq, fun hk => ⟨loadOk_q h hb hbB hq hk, loadOk_k h hb hbB hq hk,
    loadOk_v h hb hbB hq hk⟩⟩

/-- A block of the grid that does not leave early has a query row. -/
lemma seqlenQ_pos {L : Launch α β} {b m : ℤ} (hm : 0 ≤ m) (hmG : m < L.grid.y)
    (hearly : ¬ Early L b m) : 1 ≤ (L.seq b).seqlenQ := by
  cases hv : L.isVarlen
  · have hs : (L.seq b).seqlenQ = L.params.seqlenQ := by
      rw [Launch.seq, resolveSeq, hv, if_neg Bool.false_ne_true]
    simp only [Launch.grid] at hmG
    by_contra hc
    rw [kM0_eq] at hmG
    have ht := LoopBound.tdiv_of_lt (x := L.params.seqlenQ + 128 - 1) (n := 128) (by norm_num)
      (by omega)
    omega
  · by_contra hc
    exact hearly ⟨hv, by omega⟩

/-- Good strides give exact offsets to every load and store. -/
lemma exact_of_seqOk {L : Launch α β} (h : ∀ b, 0 ≤ b → b < L.batch → SeqOk L b) :
    OffsetsExact L := by
  refine ⟨fun b m hb hbB hm hmG l hl hlt => ?_, fun b m hb hbB hm hmG t s hlt => ?_⟩
  · obtain ⟨hearly, hn, hissued⟩ := (mem_loads L b m).mp hl
    have hk : 1 ≤ (L.seq b).seqlenK := by
      by_contra hk
      have hend : LoopBound.keyEnd L.hasMask (L.seq b).seqlenQ (L.seq b).seqlenK m ≤ 0 := by
        unfold LoopBound.keyEnd
        split_ifs <;> omega
      exact absurd hn (not_lt.mpr (LoopBound.numTotalLoop_nonpos hend))
    have hq : 1 ≤ (L.seq b).seqlenQ := seqlenQ_pos hm hmG hearly
    obtain ⟨-, hload⟩ := h b hb hbB hq
    obtain ⟨hQ, hK, hV⟩ := hload hk
    have h0 := Load.row_nonneg hm l
    cases l with
    | q t kstep => exact loadExact_of_ok hQ h0 hlt
    | k tile half t issue => exact loadExact_of_ok hK h0 hlt
    | v tile half t k3 => exact loadExact_of_ok hV h0 hlt
  · have hmr := Int.natCast_nonneg (mRow t)
    obtain ⟨hO, -⟩ := h b hb hbB (by omega)
    exact storeExact_of_ok hO (by omega) hlt

/-- Rows that do not overlap, up to lengths whose last byte is below the limits. -/
lemma exact_of_lastByte {L : Launch α β} {Sq Sk : ℤ}
    (hlen : ∀ b, 0 ≤ b → b < L.batch → (L.seq b).seqlenQ ≤ Sq ∧ (L.seq b).seqlenK ≤ Sk)
    (hQ : 0 ≤ L.params.strideQ ∧ lastByte Sq L.params.strideQ < numRecords)
    (hK : 0 ≤ L.params.strideK ∧ lastByte Sk L.params.strideK < numRecords)
    (hV : 0 ≤ L.params.strideV ∧ lastByte Sk L.params.strideV < numRecords)
    (hO : 62 < L.params.strideO ∧ lastByte Sq L.params.strideO < 0x7FFFFFFF) : OffsetsExact L := by
  refine exact_of_seqOk fun b hb hbB hq => ?_
  obtain ⟨hq', hk'⟩ := hlen b hb hbB
  have hload : ∀ {S S' stride : ℤ}, 1 ≤ S' → S' ≤ S → 0 ≤ stride ∧ lastByte S stride < numRecords →
      LoadOk S' stride := fun h1 hle h =>
    LoadOk.mono ⟨mul_nonneg (by omega) h.1, h.2⟩ h1 hle
  exact ⟨StoreOk.mono (Or.inl hO) hq hq', fun hk => ⟨hload hq hq' hQ, hload hk hk' hK, hload hk hk' hV⟩⟩

/-- Contiguous tensors of at most `2 ^ 24` query rows and `2 ^ 25` keys. -/
lemma exact_bhsd (hasMask lse : Bool) (q k v : Mem β) (scale : α) (B Hk gqa Sq Sk : ℤ) (hHk : 0 < Hk)
    (hgqa : 0 < gqa) (hSq : 0 ≤ Sq) (hSk : 0 ≤ Sk) (hq : Sq ≤ 2 ^ 24) (hk : Sk ≤ 2 ^ 25) :
    OffsetsExact (.bhsd hasMask lse q k v scale B Hk gqa Sq Sk hHk hgqa hSq hSk) := by
  have hq' : lastByte Sq 64 < 0x7FFFFFFF := by
    unfold lastByte
    omega
  have hk' : lastByte Sk 64 < numRecords := by
    unfold lastByte numRecords
    omega
  have hqn : lastByte Sq 64 < numRecords := hq'.trans (by norm_num [numRecords])
  have h0 : (0 : ℤ) ≤ 64 := by norm_num
  have h62 : (62 : ℤ) < 64 := by norm_num
  exact exact_of_lastByte (fun _ _ _ => ⟨Int.le_refl _, Int.le_refl _⟩) ⟨h0, hqn⟩ ⟨h0, hk'⟩ ⟨h0, hk'⟩
    ⟨h62, hq'⟩

/-- **Where 32-bit offsets address the intended elements**: exactly when every sequence with a
query row has an O tensor whose last byte is below the clamp and whose rows are whole, and, when
it has a key too, Q, K and V tensors whose last byte is below the 32-bit limit. -/
theorem offsetsExact_iff : OffsetsExact L ↔ ∀ b, 0 ≤ b → b < L.batch → SeqOk L b :=
  ⟨fun h _ hb hbB => seqOk_of_exact h hb hbB, exact_of_seqOk⟩

/-- One head of `2 ^ 24 + 1` contiguous query rows: the stores of the last row are dropped. -/
theorem offsetsExact_fails_longRow :
    ¬ OffsetsExact (.bhsd false true (fun _ => 0) (fun _ => 0) (fun _ => 0) (.fin 1) 1 1 1
      (2 ^ 24 + 1) 1 one_pos one_pos (by norm_num) zero_le_one : Launch XReal XReal) := by
  intro h
  obtain ⟨hO, -⟩ := seqOk_of_exact h le_rfl one_pos (by
    change (1 : ℤ) ≤ 2 ^ 24 + 1
    norm_num)
  have hS : StoreOk (2 ^ 24 + 1) 64 := hO
  rcases hS with ⟨-, hlast⟩ | ⟨-, hneg, -⟩
  · norm_num [lastByte] at hlast
  · norm_num at hneg

end FmhaNative.Offsets32
