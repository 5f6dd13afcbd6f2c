import Mathlib

/-!
The threads of a block: four waves of 64 lanes, each lane owning one query row of the M-tile.
-/

namespace FmhaNative

/-- The numerals of the index types have one instance in every module. -/
instance neZero_two : NeZero 2 := ⟨two_ne_zero⟩
instance neZero_four : NeZero 4 := ⟨four_ne_zero⟩

/-- `threadIdx.x` -/
abbrev Thread := Fin 256

def laneId (t : Thread) : ℕ := t.val &&& 63
def warpId (t : Thread) : ℕ := t.val >>> 6

/-- The 32-lane half of the wave. -/
def kSub (t : Thread) : ℕ := laneId t >>> 5

/-- The query row of the M-tile that the lane owns. -/
def mRow (t : Thread) : ℕ := (laneId t &&& 31) + 32 * warpId t

lemma laneId_eq (t : Thread) : laneId t = t.val % 64 := Nat.and_two_pow_sub_one_eq_mod t.val 6
lemma warpId_eq (t : Thread) : warpId t = t.val / 64 := Nat.shiftRight_eq_div_pow t.val 6

lemma lane31_eq (t : Thread) : laneId t &&& 31 = t.val % 32 := by
  rw [Nat.and_two_pow_sub_one_eq_mod (laneId t) 5, laneId_eq]
  omega

lemma kSub_eq (t : Thread) : kSub t = t.val % 64 / 32 := by
  rw [kSub, Nat.shiftRight_eq_div_pow, laneId_eq]

lemma kSub_eq_lane (t : Thread) : kSub t = laneId t / 32 := Nat.shiftRight_eq_div_pow (laneId t) 5

lemma mRow_eq (t : Thread) : mRow t = t.val % 32 + 32 * (t.val / 64) := by
  rw [mRow, lane31_eq, warpId_eq]

lemma warpId_lt (t : Thread) : warpId t < 4 := by rw [warpId_eq]; omega
lemma kSub_lt (t : Thread) : kSub t < 2 := by rw [kSub_eq]; omega
lemma mRow_lt (t : Thread) : mRow t < 128 := by rw [mRow_eq]; omega

/-- The lane `l` of the wave of `t`. -/
def inWave (t : Thread) (l : ℕ) : Thread :=
  ⟨64 * warpId t + l % 64, by have := warpId_lt t; omega⟩

lemma inWave_val (t : Thread) (l : ℕ) : (inWave t l).val = 64 * (t.val / 64) + l % 64 := by
  simp [inWave, warpId_eq]

lemma kSub_inWave (t : Thread) (l : ℕ) : kSub (inWave t l) = l % 64 / 32 := by
  rw [kSub_eq, inWave_val]; omega

lemma mRow_inWave (t : Thread) (l : ℕ) :
    mRow (inWave t l) = l % 32 + 32 * (t.val / 64) := by
  rw [mRow_eq, inWave_val]; omega

/-- The lane of half `h` that owns row `m`. -/
def rowThread (m : Fin 128) (h : Fin 2) : Thread :=
  ⟨64 * (m.val / 32) + 32 * h.val + m.val % 32, by omega⟩

@[simp] lemma mRow_rowThread (m : Fin 128) (h : Fin 2) : mRow (rowThread m h) = m := by
  rw [mRow_eq]; simp only [rowThread]; omega

@[simp] lemma kSub_rowThread (m : Fin 128) (h : Fin 2) : kSub (rowThread m h) = h := by
  rw [kSub_eq]; simp only [rowThread]; omega

/-- A lane is known by its row and its half. -/
lemma thread_ext {t u : Thread} (hm : mRow t = mRow u) (hk : kSub t = kSub u) : t = u := by
  rw [mRow_eq, mRow_eq] at hm
  rw [kSub_eq, kSub_eq] at hk
  ext
  omega

end FmhaNative
