import FmhaNative.Kernel
import FmhaNative.LoopBound

/-!
How much work an M-tile is: the number of tiles that its block walks is the least that holds
every attended key, and under the causal mask later M-tiles are never lighter.
-/

namespace FmhaNative.TileWork

open LoopBound OpSoftmax Pipeline

variable {hasMask : Bool} {seqlenQ seqlenK mTileIdx : ℤ}

/-- The query rows of an M-tile. -/
def InTile (seqlenQ mTileIdx i : ℤ) : Prop := mTileIdx * 128 ≤ i ∧ i < mTileIdx * 128 + 128 ∧ i < seqlenQ

/-- The last row of the M-tile attends the last key below the key bound. -/
lemma attends_last (hasMask : Bool) (seqlenK : ℤ) (hm : mTileIdx * 128 < seqlenQ) : ∃ i, InTile seqlenQ mTileIdx i ∧
    attends hasMask seqlenK (seqlenK - seqlenQ) i (keyEnd hasMask seqlenQ seqlenK mTileIdx - 1) := by
  refine ⟨min (mTileIdx * 128 + 128) seqlenQ - 1, ⟨by omega, by omega, by omega⟩, ?_⟩
  unfold keyEnd attends
  split_ifs with hmask
  · exact ⟨by omega, fun _ => by omega⟩
  · exact ⟨by omega, fun h => absurd h hmask⟩

/-- An attended key of a row of the M-tile is below the key bound. -/
lemma InTile.lt_keyEnd {i j : ℤ} (hi : InTile seqlenQ mTileIdx i)
    (h : attends hasMask seqlenK (seqlenK - seqlenQ) i j) :
    j < keyEnd hasMask seqlenQ seqlenK mTileIdx := by
  obtain ⟨hj, hdiag⟩ := h
  obtain ⟨-, hi128, hiq⟩ := hi
  unfold keyEnd
  split_ifs with hmask
  · have := hdiag hmask
    omega
  · exact hj

/-- A block walks tiles exactly when there is a key below the bound. -/
lemma numTotalLoop_pos_iff : 0 < numTotalLoop hasMask seqlenQ seqlenK mTileIdx ↔
    0 < keyEnd hasMask seqlenQ seqlenK mTileIdx := by
  constructor
  · intro h
    by_contra hc
    exact absurd (numTotalLoop_nonpos (not_lt.mp hc)) (not_le.mpr h)
  · intro h
    rw [numTotalLoop_eq h]
    omega

/-- The tiles of a block, none when the bound is negative. -/
def tiles (hasMask : Bool) (seqlenQ seqlenK mTileIdx : ℤ) : ℤ :=
  max 0 (numTotalLoop hasMask seqlenQ seqlenK mTileIdx)

lemma tiles_eq : tiles hasMask seqlenQ seqlenK mTileIdx
    = max 0 ((keyEnd hasMask seqlenQ seqlenK mTileIdx + 63) / 64) := by
  unfold tiles
  rcases le_or_gt (keyEnd hasMask seqlenQ seqlenK mTileIdx) 0 with h | h
  · have := numTotalLoop_nonpos h
    omega
  · rw [numTotalLoop_eq h]

/-- Under the causal mask the work grows with the M-tile. -/
lemma tiles_mono {m m' : ℤ} (h : m ≤ m') : tiles true seqlenQ seqlenK m ≤ tiles true seqlenQ seqlenK m' := by
  have hkey : keyEnd true seqlenQ seqlenK m ≤ keyEnd true seqlenQ seqlenK m' := by
    unfold keyEnd
    simp only [if_true]
    omega
  rw [tiles_eq, tiles_eq]
  omega

section Order

variable {α β : Type*} [Zero β]

/-- The tiles that a block of the dense causal entry walks. -/
def msk1Tiles (params : FmhaFwdParams α β) (gridDim blockIdx : Dim3) : ℤ :=
  let mTileIdx := (gridDim.y : ℤ) - 1 - blockIdx.y
  max 0 (blockCtx true false params blockIdx.z blockIdx.x mTileIdx).numTotalLoop

lemma msk1Tiles_eq (params : FmhaFwdParams α β) (gridDim blockIdx : Dim3) :
    msk1Tiles params gridDim blockIdx
      = tiles true params.seqlenQ params.seqlenK ((gridDim.y : ℤ) - 1 - blockIdx.y) := by
  unfold msk1Tiles tiles blockCtx resolveSeq
  simp only [Bool.false_eq_true, if_false]

end Order

/-- What the loop bound promises for one M-tile: it covers the attended keys, its last tile is
needed, it is empty exactly when nothing is attended, and it grows with the causal M-tile. -/
structure ExactBound (hasMask : Bool) (seqlenQ seqlenK mTileIdx : ℤ) : Prop where
  covers : ∀ i j, InTile seqlenQ mTileIdx i → 0 ≤ j →
    attends hasMask seqlenK (seqlenK - seqlenQ) i j →
    ∃ t, 0 ≤ t ∧ t < numTotalLoop hasMask seqlenQ seqlenK mTileIdx ∧ 64 * t ≤ j ∧ j < 64 * t + 64
  last_needed : 0 < numTotalLoop hasMask seqlenQ seqlenK mTileIdx → ∃ i j,
    InTile seqlenQ mTileIdx i ∧ 64 * (numTotalLoop hasMask seqlenQ seqlenK mTileIdx - 1) ≤ j ∧
    j < 64 * numTotalLoop hasMask seqlenQ seqlenK mTileIdx ∧
    attends hasMask seqlenK (seqlenK - seqlenQ) i j
  empty_iff : numTotalLoop hasMask seqlenQ seqlenK mTileIdx ≤ 0 ↔
    ∀ i j, InTile seqlenQ mTileIdx i → 0 ≤ j → ¬ attends hasMask seqlenK (seqlenK - seqlenQ) i j
  mono : hasMask → ∀ m, mTileIdx ≤ m → tiles true seqlenQ seqlenK mTileIdx ≤ tiles true seqlenQ seqlenK m

section Exact

variable {α β : Type*} [Zero β]

/-- **The loop bound is exact and monotone**, and the dense causal entry launches its blocks in
non-increasing order of work. -/
theorem numTotalLoop_exact (hm : mTileIdx * 128 < seqlenQ) :
    ExactBound hasMask seqlenQ seqlenK mTileIdx ∧
      ∀ (params : FmhaFwdParams α β) (gridDim blk blk' : Dim3), blk.y ≤ blk'.y →
        msk1Tiles params gridDim blk' ≤ msk1Tiles params gridDim blk := by
  refine ⟨⟨?_, ?_, ?_, ?_⟩, ?_⟩
  · intro i j hi hj h
    have hlt := hi.lt_keyEnd h
    have hN := numTotalLoop_eq (hlt.trans_le' hj)
    exact ⟨j / 64, by omega, by omega, by omega, by omega⟩
  · intro hpos
    have hkey := numTotalLoop_pos_iff.mp hpos
    have hN := numTotalLoop_eq hkey
    obtain ⟨i, hi, h⟩ := attends_last hasMask seqlenK hm
    exact ⟨i, _, hi, by omega, by omega, h⟩
  · rw [← not_lt, numTotalLoop_pos_iff, not_lt]
    constructor
    · intro hle i j hi hj h
      have := hi.lt_keyEnd h
      omega
    · intro hnone
      by_contra hc
      obtain ⟨i, hi, h⟩ := attends_last hasMask seqlenK hm
      exact hnone i _ hi (by omega) h
  · exact fun _ m hle => tiles_mono hle
  · intro params gridDim blk blk' hle
    rw [msk1Tiles_eq, msk1Tiles_eq]
    exact tiles_mono (by omega)

end Exact

/-- Three causal queries against one key: two of them attend nothing. -/
theorem numTotalLoop_exact_fewKeys :
    ExactBound true 3 1 0 ∧
      ∀ (params : FmhaFwdParams XReal XReal) (gridDim blk blk' : Dim3), blk.y ≤ blk'.y →
        msk1Tiles params gridDim blk' ≤ msk1Tiles params gridDim blk :=
  numTotalLoop_exact (by decide)

end FmhaNative.TileWork
