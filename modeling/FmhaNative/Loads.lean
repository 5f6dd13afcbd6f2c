import FmhaNative.Launch

/-!
The loads of one block from Q, K and V, in program order, and the rows they reach.

A query load is guarded by the row. The K copies and the V loads are not: a walked tile is
read whole, 64 rows of it, also where the sequence ends inside it.
-/

namespace FmhaNative.Loads

open OpLds Pipeline

/-- A load of one lane: a query register, one issue of a K copy, or one of the two V rows. -/
inductive Load
  | q (t : Thread) (kstep : Fin 4)
  | k (tile : ℕ) (half : Fin 2) (t : Thread) (issue : Fin 4)
  | v (tile : ℕ) (half : Fin 2) (t : Thread) (k3 : Fin 2)

/-! ### The program -/

def qLoads (seqlenQ mTileIdx : ℤ) : List Load :=
  (List.finRange 256).flatMap fun t =>
    if mTileIdx * kM0 + mRow t < seqlenQ then (List.finRange 4).map fun kstep => .q t kstep else []

/-- `async_copy_k_subtile` -/
def kCopy (tile : ℕ) (half : Fin 2) : List Load :=
  (List.finRange 256).flatMap fun t => (List.finRange 4).map fun issue => .k tile half t issue

/-- `load_v_from_dram` -/
def vLoad (tile : ℕ) (half : Fin 2) : List Load :=
  (List.finRange 256).flatMap fun t => (List.finRange 2).map fun k3 => .v tile half t k3

/-- One round of the loop; the next tile's K half 0 is prefetched unless it is the last. -/
def tileLoads (n tile : ℕ) : List Load :=
  kCopy tile 1 ++ vLoad tile 0 ++ vLoad tile 1 ++ if tile + 1 < n then kCopy (tile + 1) 0 else []

def blockLoads {α β : Type*} (hasMask isVarlen : Bool) (p : FmhaFwdParams α β)
    (batchIdx mTileIdx : ℤ) : List Load :=
  let seq := resolveSeq isVarlen p batchIdx
  if isVarlen ∧ seq.seqlenQ ≤ mTileIdx * kM0 then []
  else
    let n := numTotalLoop hasMask seq.seqlenQ seq.seqlenK mTileIdx
    if n ≤ 0 then []
    else qLoads seq.seqlenQ mTileIdx ++ kCopy 0 0 ++ (List.range n.toNat).flatMap (tileLoads n.toNat)

lemma mem_kCopy {l : Load} {tile : ℕ} {half : Fin 2} :
    l ∈ kCopy tile half ↔ ∃ t issue, l = .k tile half t issue := by
  simp only [kCopy, List.mem_flatMap, List.mem_map, List.mem_finRange, true_and, eq_comm]

lemma mem_vLoad {l : Load} {tile : ℕ} {half : Fin 2} :
    l ∈ vLoad tile half ↔ ∃ t k3, l = .v tile half t k3 := by
  simp only [vLoad, List.mem_flatMap, List.mem_map, List.mem_finRange, true_and, eq_comm]

lemma mem_qLoads {l : Load} {seqlenQ mTileIdx : ℤ} :
    l ∈ qLoads seqlenQ mTileIdx ↔ ∃ t kstep, mTileIdx * 128 + mRow t < seqlenQ ∧ l = .q t kstep := by
  simp only [qLoads, List.mem_flatMap, List.mem_finRange, true_and]
  rw [kM0_eq]
  constructor
  · rintro ⟨t, ht⟩
    split_ifs at ht with hlt
    · obtain ⟨kstep, -, rfl⟩ := List.mem_map.mp ht
      exact ⟨t, kstep, hlt, rfl⟩
    · exact absurd ht List.not_mem_nil
  · rintro ⟨t, kstep, hlt, rfl⟩
    exact ⟨t, by rw [if_pos hlt]; exact List.mem_map.mpr ⟨kstep, List.mem_finRange _, rfl⟩⟩

/-- The loads that a block with `n` tiles issues. -/
def Load.Issued (seqlenQ mTileIdx n : ℤ) : Load → Prop
  | q t _ => mTileIdx * 128 + mRow t < seqlenQ
  | k tile _ _ _ => tile < n
  | v tile _ _ _ => tile < n

/-- The K halves of the walked tiles are copied, half 0 of tile 0 in the prologue and of the
others by the prefetch; the V halves are loaded where they are used. -/
lemma mem_tiles {seqlenQ mTileIdx : ℤ} {n : ℕ} (hn : 0 < n) {l : Load} :
    l ∈ qLoads seqlenQ mTileIdx ++ kCopy 0 0 ++ (List.range n).flatMap (tileLoads n) ↔
      l.Issued seqlenQ mTileIdx n := by
  simp only [List.mem_append, List.mem_flatMap, List.mem_range, tileLoads, mem_qLoads, mem_kCopy,
    mem_vLoad]
  constructor
  · rintro ((⟨t, kstep, hlt, rfl⟩ | ⟨t, issue, rfl⟩) |
      ⟨tile, ht, ((⟨t, issue, rfl⟩ | ⟨t, k3, rfl⟩) | ⟨t, k3, rfl⟩) | hnext⟩)
    · exact hlt
    · exact Int.natCast_pos.mpr hn
    · exact Int.ofNat_lt.mpr ht
    · exact Int.ofNat_lt.mpr ht
    · exact Int.ofNat_lt.mpr ht
    · split_ifs at hnext with hmore
      · obtain ⟨t, issue, rfl⟩ := mem_kCopy.mp hnext
        exact Int.ofNat_lt.mpr hmore
      · exact absurd hnext List.not_mem_nil
  · intro hl
    cases l with
    | q t kstep => exact Or.inl (Or.inl ⟨t, kstep, hl, rfl⟩)
    | v tile half t k3 =>
      refine Or.inr ⟨tile, Int.ofNat_lt.mp hl, Or.inl ?_⟩
      obtain rfl | rfl : half = 0 ∨ half = 1 := by omega
      · exact Or.inl (Or.inr ⟨t, k3, rfl⟩)
      · exact Or.inr ⟨t, k3, rfl⟩
    | k tile half t issue =>
      have ht : tile < n := Int.ofNat_lt.mp hl
      obtain rfl | rfl : half = 0 ∨ half = 1 := by omega
      · cases tile with
        | zero => exact Or.inl (Or.inr ⟨t, issue, rfl⟩)
        | succ tile =>
          refine Or.inr ⟨tile, by omega, Or.inr ?_⟩
          rw [if_pos ht]
          exact mem_kCopy.mpr ⟨t, issue, rfl⟩
      · exact Or.inr ⟨tile, ht, Or.inl (Or.inl (Or.inl ⟨t, issue, rfl⟩))⟩

/-! ### Rows and byte offsets -/

/-- The row of the sequence that a load reads. -/
def Load.row (mTileIdx : ℤ) : Load → ℤ
  | q t _ => mTileIdx * 128 + mRow t
  | k tile _ t issue => 64 * tile + kRow t issue
  | v tile half t k3 => 64 * tile + 32 * half.val + (vRowInTile t + k3.val : ℕ)

/-- The first column it reads, and how many. -/
def Load.col : Load → ℕ
  | q t kstep => qCol t kstep
  | k _ half t _ => half.val * 32 + kDInChunk t
  | v _ _ t _ => vCol t

def Load.width : Load → ℕ
  | q _ _ => 8
  | k _ _ _ _ => 2
  | v _ _ _ _ => 4

/-- The length of the sequence that it reads. -/
def Load.seqlen (s : SeqInfo) : Load → ℤ
  | q _ _ => s.seqlenQ
  | k _ _ _ _ => s.seqlenK
  | v _ _ _ _ => s.seqlenK

lemma Load.col_le (l : Load) : l.col + l.width ≤ 64 := by
  cases l with
  | q t kstep =>
    have := kSub_lt t
    simp only [col, width, qCol]
    omega
  | k tile half t issue =>
    simp only [col, width, kDInChunk_eq]
    omega
  | v tile half t k3 =>
    simp only [col, width, vCol_eq]
    omega

section Offsets

variable {ι : Type*} [CommRing ι]

/-- The induction variables in tile `tile`. -/
def ivAt (strideK strideV : ι) (tile : ℕ) : Ivs ι :=
  (Ivs.next strideK strideV)^[tile] (Ivs.init strideK strideV)

lemma ivAt_eq (strideK strideV : ι) (tile : ℕ) :
    ivAt strideK strideV tile
      = ⟨64 * tile, 64 * tile * (strideV * 2), 64 * tile * (strideK * 2)⟩ := by
  induction tile with
  | zero => simp [ivAt, Ivs.init]
  | succ tile ih =>
    have hnext : ivAt strideK strideV (tile + 1) = (ivAt strideK strideV tile).next strideK strideV :=
      Function.iterate_succ_apply' _ _ _
    rw [hnext, ih, Ivs.next, Ivs.mk.injEq]
    push_cast
    refine ⟨?_, ?_, ?_⟩ <;> ring

/-- The row strides of the tensors. -/
structure Strides (ι : Type*) where
  (q k v : ι)

def Load.stride (s : Strides ι) : Load → ι
  | q _ _ => s.q
  | k _ _ _ _ => s.k
  | v _ _ _ _ => s.v

/-- The byte offset that the instruction is given. -/
def Load.voffset (s : Strides ι) (mTileIdx : ι) : Load → ι
  | q t kstep => qVoff s.q (mTileIdx * 128 + (mRow t : ι)) t kstep
  | k tile half t issue =>
    kVoffset s.k (ivAt s.k s.v tile).kvKByte ((half.val * 32 : ℕ) : ι) t issue
  | v tile half t k3 =>
    vVoff s.v ((ivAt s.k s.v tile).kvVByte + ((half.val * 32 : ℕ) : ι) * (s.v * 2)) t k3

/-- **The induction variables address the rows**: a load's byte offset is that of its row and
column. -/
theorem Load.voffset_eq (s : Strides ι) (mTileIdx : ℤ) (l : Load) :
    l.voffset s (mTileIdx : ι) = (l.row mTileIdx : ι) * (l.stride s * 2) + (l.col : ι) * 2 := by
  cases l with
  | q t kstep =>
    simp only [voffset, qVoff, row, col, stride]
    push_cast
    ring
  | k tile half t issue =>
    simp only [voffset, kVoffset_eq, ivAt_eq, row, col, stride]
    push_cast
    ring
  | v tile half t k3 =>
    simp only [voffset, vVoff_eq, ivAt_eq, row, col, stride]
    push_cast
    ring

end Offsets

/-! ### Rows below the sequence's end -/

/-- The load reads columns of a row of its sequence. -/
structure InSequence (s : SeqInfo) (st : Strides ℤ) (mTileIdx : ℤ) (l : Load) : Prop where
  row_lt : l.row mTileIdx < l.seqlen s
  offset : l.voffset st mTileIdx = (l.row mTileIdx * l.stride st + l.col) * 2
  cols : l.col + l.width ≤ 64

/-- The loads of the last tile reach its last row. -/
lemma exists_last_row : ∃ (t : Thread) (issue : Fin 4), kRow t issue = 63 :=
  ⟨⟨255, by norm_num⟩, 3, by decide⟩

lemma row_lt_tile (mTileIdx : ℤ) {seqlenQ n : ℤ} {l : Load} (hl : l.Issued seqlenQ mTileIdx n)
    (s : SeqInfo) (hs : s.seqlenQ = seqlenQ) (hn : 64 * n ≤ s.seqlenK) :
    l.row mTileIdx < l.seqlen s := by
  cases l with
  | q t kstep =>
    simp only [Load.row, Load.seqlen, hs]
    exact hl
  | k tile half t issue =>
    have ht := t.isLt
    have : (tile : ℤ) < n := hl
    simp only [Load.row, Load.seqlen, kRow, kNBase_eq]
    omega
  | v tile half t k3 =>
    have ht := t.isLt
    have : (tile : ℤ) < n := hl
    simp only [Load.row, Load.seqlen, vRowInTile_eq]
    omega

variable {α β : Type*} (L : Launch α β) (b mTileIdx : ℤ)

/-- The loads of a block of a launch, and the strides they use. -/
def loads : List Load := blockLoads L.hasMask L.isVarlen L.params b mTileIdx

def strides : Strides ℤ := ⟨L.params.strideQ, L.params.strideK, L.params.strideV⟩

/-- The number of tiles that the block walks. -/
def tiles : ℤ := numTotalLoop L.hasMask (L.seq b).seqlenQ (L.seq b).seqlenK mTileIdx

/-- The block leaves before any load. -/
def Early : Prop := L.isVarlen ∧ (L.seq b).seqlenQ ≤ mTileIdx * 128

lemma mem_loads {l : Load} :
    l ∈ loads L b mTileIdx ↔ ¬ Early L b mTileIdx ∧ 0 < tiles L b mTileIdx ∧
      l.Issued (L.seq b).seqlenQ mTileIdx (tiles L b mTileIdx) := by
  unfold loads blockLoads
  rw [kM0_eq, show resolveSeq L.isVarlen L.params b = L.seq b from rfl]
  by_cases hin : L.isVarlen ∧ (L.seq b).seqlenQ ≤ mTileIdx * 128
  · rw [if_pos hin]
    exact ⟨fun h => absurd h List.not_mem_nil, fun h => absurd hin h.1⟩
  rw [if_neg hin]
  by_cases hn : numTotalLoop L.hasMask (L.seq b).seqlenQ (L.seq b).seqlenK mTileIdx ≤ 0
  · rw [if_pos hn]
    exact ⟨fun h => absurd h List.not_mem_nil, fun h => absurd hn (not_le.mpr h.2.1)⟩
  · have hcast : (((tiles L b mTileIdx).toNat : ℕ) : ℤ) = tiles L b mTileIdx :=
      Int.toNat_of_nonneg (not_le.mp hn).le
    have hpos : 0 < (tiles L b mTileIdx).toNat := Int.lt_toNat.mpr (not_le.mp hn)
    rw [if_neg hn]
    exact (mem_tiles hpos).trans (by rw [hcast]; exact ⟨fun h => ⟨hin, not_le.mp hn, h⟩, fun h => h.2.2⟩)

end FmhaNative.Loads
