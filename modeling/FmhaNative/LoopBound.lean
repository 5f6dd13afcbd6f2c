import FmhaNative.Pipeline

/-!
How far the tile loop walks: every key that a row of the M-tile attends lies in a walked tile,
and a tile is walked only when it holds a key below the bound.
-/

namespace FmhaNative.LoopBound

open Pipeline OpSoftmax

/-- The first key that no row of the M-tile may attend. -/
def keyEnd (hasMask : Bool) (seqlenQ seqlenK mTileIdx : ℤ) : ℤ :=
  if hasMask then min seqlenK (min (mTileIdx * 128 + 128) seqlenQ + (seqlenK - seqlenQ)) else seqlenK

lemma lastQRow_eq (seqlenQ mTileIdx : ℤ) :
    lastQRow seqlenQ mTileIdx + 1 = min (mTileIdx * 128 + 128) seqlenQ := by
  rw [lastQRow, kM0_eq]
  split_ifs <;> omega

/-- The raw bound of the source, clamped. -/
lemma rawEnd_eq (seqlenQ seqlenK mTileIdx : ℤ) :
    (if seqlenK < lastQRow seqlenQ mTileIdx + (seqlenK - seqlenQ) + 1 then seqlenK
        else lastQRow seqlenQ mTileIdx + (seqlenK - seqlenQ) + 1)
      = min seqlenK (min (mTileIdx * 128 + 128) seqlenQ + (seqlenK - seqlenQ)) := by
  rw [← lastQRow_eq]
  split_ifs <;> omega

lemma tdiv_of_nonneg {x : ℤ} (h : 0 ≤ x) : x.tdiv 64 = x / 64 := Int.tdiv_eq_ediv_of_nonneg h

lemma tdiv_of_lt {x n : ℤ} (hn : 0 < n) (h : x < n) : x.tdiv n ≤ 0 := by
  rcases le_or_gt 0 x with h0 | h0
  · exact (Int.tdiv_eq_zero_of_lt h0 h).le
  · have hneg := Int.neg_tdiv (a := -x) (b := n)
    have hpos := Int.tdiv_nonneg (a := -x) (b := n) (by omega) hn.le
    rw [neg_neg] at hneg
    omega

variable {hasMask : Bool} {seqlenQ seqlenK mTileIdx : ℤ}

/-- The clamped and rounded bound of the source is between the key bound and its round-up. -/
lemma seqlenKEnd_bounds (h : 0 < keyEnd hasMask seqlenQ seqlenK mTileIdx) :
    keyEnd hasMask seqlenQ seqlenK mTileIdx ≤ seqlenKEnd hasMask seqlenQ seqlenK mTileIdx ∧
      seqlenKEnd hasMask seqlenQ seqlenK mTileIdx
        ≤ (keyEnd hasMask seqlenQ seqlenK mTileIdx + 63) / 64 * 64 := by
  cases hasMask
  · simp only [keyEnd, seqlenKEnd, Bool.false_eq_true, if_false] at h ⊢
    omega
  · simp only [keyEnd, seqlenKEnd, if_true] at h ⊢
    rw [kN0_eq]
    rw [rawEnd_eq]
    have hle := min_le_left seqlenK (min (mTileIdx * 128 + 128) seqlenQ + (seqlenK - seqlenQ))
    generalize min seqlenK (min (mTileIdx * 128 + 128) seqlenQ + (seqlenK - seqlenQ)) = e at h hle ⊢
    rw [tdiv_of_nonneg (by omega)]
    split_ifs <;> omega

lemma seqlenKEnd_nonpos (h : keyEnd hasMask seqlenQ seqlenK mTileIdx ≤ 0) :
    seqlenKEnd hasMask seqlenQ seqlenK mTileIdx ≤ 0 := by
  cases hasMask
  · simpa only [keyEnd, seqlenKEnd, Bool.false_eq_true, if_false] using h
  · simp only [keyEnd, seqlenKEnd, if_true] at h ⊢
    rw [kN0_eq]
    rw [rawEnd_eq]
    generalize min seqlenK (min (mTileIdx * 128 + 128) seqlenQ + (seqlenK - seqlenQ)) = e at h ⊢
    have ht := tdiv_of_lt (x := e + 64 - 1) (n := 64) (by norm_num) (by omega)
    split_ifs <;> omega

/-- **The number of tiles** is the key bound over 64, rounded up. -/
theorem numTotalLoop_eq (h : 0 < keyEnd hasMask seqlenQ seqlenK mTileIdx) :
    numTotalLoop hasMask seqlenQ seqlenK mTileIdx
      = (keyEnd hasMask seqlenQ seqlenK mTileIdx + 63) / 64 := by
  obtain ⟨h1, h2⟩ := seqlenKEnd_bounds h
  rw [numTotalLoop, kN0_eq, tdiv_of_nonneg (by omega)]
  omega

theorem numTotalLoop_nonpos (h : keyEnd hasMask seqlenQ seqlenK mTileIdx ≤ 0) :
    numTotalLoop hasMask seqlenQ seqlenK mTileIdx ≤ 0 := by
  have he := seqlenKEnd_nonpos h
  rw [numTotalLoop, kN0_eq]
  exact tdiv_of_lt (by norm_num) (by omega)

/-- The walked tiles are those that start below the key bound. -/
lemma lt_tiles_iff {j : ℤ} (hj : 0 ≤ j) :
    j < 64 * numTotalLoop hasMask seqlenQ seqlenK mTileIdx ↔
      64 * (j / 64) < keyEnd hasMask seqlenQ seqlenK mTileIdx := by
  rcases le_or_gt (keyEnd hasMask seqlenQ seqlenK mTileIdx) 0 with h | h
  · have := numTotalLoop_nonpos h
    omega
  · rw [numTotalLoop_eq h]
    omega

/-- A key that a row of the M-tile attends is below the key bound. -/
lemma attends_lt_keyEnd {m j : ℤ} (hm : m < 128)
    (h : attends hasMask seqlenK (seqlenK - seqlenQ) (mTileIdx * 128 + m) j) :
    j < keyEnd hasMask seqlenQ seqlenK mTileIdx := by
  obtain ⟨hk, hd⟩ := h
  rw [keyEnd]
  split_ifs with hmask
  · have := hd hmask
    omega
  · exact hk

/-- **Coverage**: a key that a row of the M-tile attends lies in a walked tile. -/
theorem attends_lt_tiles {m j : ℤ} (hm : m < 128) (hj : 0 ≤ j)
    (h : attends hasMask seqlenK (seqlenK - seqlenQ) (mTileIdx * 128 + m) j) :
    j < 64 * numTotalLoop hasMask seqlenQ seqlenK mTileIdx := by
  have := attends_lt_keyEnd hm h
  rw [lt_tiles_iff hj]
  omega

end FmhaNative.LoopBound
