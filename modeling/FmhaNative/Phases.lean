import FmhaNative.Thread

/-!
The prologue and the tile loop as one wave runs them: the phases in program order, and where
each one stands.

The four waves run the same phases. A tile that is not the last takes 29 of them; the last has
no barrier and no prefetch before its second GEMM1.
-/

namespace FmhaNative.Phases

inductive Phase
  | qLoad (kstep : Fin 4)
  | kCopy (tile : ℕ) (half : Fin 2) (issue : Fin 4)
  | vLoad (tile : ℕ) (half k3 : Fin 2)
  | vStore (tile : ℕ) (half : Fin 2)
  | waitVmcnt (n : ℕ)
  | waitLgkmcnt (n : ℕ)
  | sBarrier
  | gemm0 (tile : ℕ) (sub : Fin 2)
  | gemm1 (tile : ℕ) (sub : Fin 2)

/-- `async_copy_k_subtile` -/
def asyncCopyKSubtile (tile : ℕ) (half : Fin 2) : List Phase :=
  [0, 1, 2, 3].map (Phase.kCopy tile half)

/-- `load_v_from_dram` -/
def loadVFromDram (tile : ℕ) (half : Fin 2) : List Phase :=
  [0, 1].map (Phase.vLoad tile half)

def asyncLoadFence (cnt : ℕ) : Phase := .waitVmcnt cnt
def blockSyncLds : List Phase := [.waitLgkmcnt 0, .sBarrier]

/-- The prefetch of the next tile's K half 0, and the barrier before it. -/
def prefetch (n tile : ℕ) : List Phase :=
  if tile + 1 < n then .sBarrier :: asyncCopyKSubtile (tile + 1) 0 else []

/-- One round of the loop. -/
def tilePhases (n tile : ℕ) : List Phase :=
  asyncCopyKSubtile tile 1 ++ [asyncLoadFence 4, Phase.sBarrier, Phase.gemm0 tile 0] ++
    [asyncLoadFence 0, Phase.sBarrier] ++ loadVFromDram tile 0 ++ [Phase.gemm0 tile 1] ++
    [Phase.waitVmcnt 0, Phase.vStore tile 0] ++ loadVFromDram tile 1 ++
    blockSyncLds ++ [Phase.gemm1 tile 0, Phase.waitVmcnt 0, Phase.vStore tile 1] ++
    prefetch n tile ++
    blockSyncLds ++ [Phase.gemm1 tile 1]

/-- The query loads, the first copy, and `n` rounds. -/
def phases (n : ℕ) : List Phase :=
  [0, 1, 2, 3].map Phase.qLoad ++ asyncCopyKSubtile 0 0 ++
    (List.range n).flatMap (tilePhases n)

/-! ### Rounds and offsets -/

lemma length_rounds {α : Type*} {f : ℕ → List α} {m k : ℕ} (h : ∀ j < k, (f j).length = m) :
    ((List.range k).flatMap f).length = m * k := by
  induction k with
  | zero => simp
  | succ k ih =>
    rw [List.range_succ, List.flatMap_append, List.length_append,
      ih fun j hj => h j (Nat.lt_succ_of_lt hj), List.flatMap_singleton, h k (Nat.lt_succ_self k)]
    ring

/-- Element `o` of round `k`, when the rounds before the last have one length. -/
lemma getElem?_rounds {α : Type*} {f : ℕ → List α} {m n k o : ℕ}
    (h : ∀ j, j + 1 < n → (f j).length = m) (hk : k < n) (ho : o < m) :
    ((List.range n).flatMap f)[m * k + o]? = (f k)[o]? := by
  obtain ⟨r, rfl⟩ := Nat.exists_eq_add_of_lt hk
  have hlen : ((List.range k).flatMap f).length = m * k := length_rounds fun j hj => h j (by omega)
  rw [show k + r + 1 = (k + 1) + r by omega, List.range_add, List.flatMap_append, List.range_succ,
    List.flatMap_append, List.flatMap_singleton, List.append_assoc,
    List.getElem?_append_right (by omega), hlen, Nat.add_sub_cancel_left]
  cases r with
  | zero => simp
  | succ r => exact List.getElem?_append_left (by rw [h k (by omega)]; exact ho)

/-- The first position of a round. -/
def tileAt (tile : ℕ) : ℕ := 8 + 29 * tile

lemma prefetch_more {n tile : ℕ} (h : tile + 1 < n) :
    prefetch n tile = .sBarrier :: asyncCopyKSubtile (tile + 1) 0 := if_pos h

lemma prefetch_last {n tile : ℕ} (h : ¬ tile + 1 < n) : prefetch n tile = [] := if_neg h

/-- The round phase by phase. -/
lemma tilePhases_eq (n tile : ℕ) : tilePhases n tile =
    ([.kCopy tile 1 0, .kCopy tile 1 1, .kCopy tile 1 2, .kCopy tile 1 3,
      .waitVmcnt 4, .sBarrier, .gemm0 tile 0, .waitVmcnt 0, .sBarrier,
      .vLoad tile 0 0, .vLoad tile 0 1, .gemm0 tile 1, .waitVmcnt 0, .vStore tile 0,
      .vLoad tile 1 0, .vLoad tile 1 1, .waitLgkmcnt 0, .sBarrier, .gemm1 tile 0,
      .waitVmcnt 0, .vStore tile 1] : List Phase) ++
    (prefetch n tile ++ ([.waitLgkmcnt 0, .sBarrier, .gemm1 tile 1] : List Phase)) := by
  simp only [tilePhases, asyncCopyKSubtile, loadVFromDram, asyncLoadFence, blockSyncLds,
    List.map_cons, List.map_nil, List.append_assoc, List.cons_append, List.nil_append]

lemma length_tilePhases {n tile : ℕ} (h : tile + 1 < n) : (tilePhases n tile).length = 29 := by
  rw [tilePhases_eq, prefetch_more h]
  rfl

lemma length_tilePhases_le (n tile : ℕ) : (tilePhases n tile).length ≤ 29 := by
  by_cases h : tile + 1 < n
  · exact (length_tilePhases h).le
  · rw [tilePhases_eq, prefetch_last h]
    exact Nat.le_of_ble_eq_true rfl

lemma getElem?_tile {n tile o : ℕ} (ht : tile < n) (ho : o < 29) :
    (phases n)[tileAt tile + o]? = (tilePhases n tile)[o]? := by
  rw [phases, tileAt, Nat.add_assoc, List.getElem?_append_right (Nat.le_add_right 8 _)]
  refine Eq.trans ?_ (getElem?_rounds (fun j hj => length_tilePhases hj) ht ho)
  congr 1
  exact Nat.add_sub_cancel_left 8 _

lemma length_phases_le (n : ℕ) : (phases n).length ≤ 8 + 29 * n := by
  have hrounds : ((List.range n).flatMap (tilePhases n)).length ≤ 29 * n := by
    cases n with
    | zero => simp
    | succ k =>
      rw [List.range_succ, List.flatMap_append, List.length_append, List.flatMap_singleton,
        length_rounds fun j hj => length_tilePhases (by omega : j + 1 < k + 1)]
      have := length_tilePhases_le (k + 1) k
      omega
  rw [phases, List.length_append]
  exact Nat.add_le_add_left hrounds 8

lemma exists_offset {n p : ℕ} (h8 : 8 ≤ p) (hp : p < (phases n).length) :
    ∃ tile o, tile < n ∧ o < 29 ∧ p = tileAt tile + o := by
  have := length_phases_le n
  refine ⟨(p - 8) / 29, (p - 8) % 29, by omega, by omega, ?_⟩
  unfold tileAt
  omega

/-! ### Where the phases stand -/

/-- The position of a phase; K half 0 stands in the prologue, or at the end of the tile before. -/
def Placed (n p : ℕ) : Phase → Prop
  | .qLoad kstep => p = kstep
  | .kCopy tile half issue => tile < n ∧
      ((half = 0 ∧ tile = 0 ∧ p = 4 + issue.val) ∨
        (half = 0 ∧ 0 < tile ∧ p + 7 = tileAt tile + issue.val) ∨
        (half = 1 ∧ p = tileAt tile + issue.val))
  | .vLoad tile half k3 => tile < n ∧ p = tileAt tile + 9 + 5 * half.val + k3.val
  | .vStore tile half => tile < n ∧ p = tileAt tile + 13 + 7 * half.val
  | .gemm0 tile sub => tile < n ∧ p = tileAt tile + 6 + 5 * sub.val
  | .gemm1 tile sub => tile < n ∧
      ((sub = 0 ∧ p = tileAt tile + 18) ∨ (sub = 1 ∧ tile + 1 < n ∧ p = tileAt tile + 28) ∨
        (sub = 1 ∧ ¬ tile + 1 < n ∧ p = tileAt tile + 23))
  | _ => True

/-- The phases of a list stand at the positions from `p` on. -/
def AllPlaced (n : ℕ) : ℕ → List Phase → Prop
  | _, [] => True
  | p, ph :: l => Placed n p ph ∧ AllPlaced n (p + 1) l

lemma AllPlaced.append {n p : ℕ} {l₁ l₂ : List Phase} (h₁ : AllPlaced n p l₁)
    (h₂ : AllPlaced n (p + l₁.length) l₂) : AllPlaced n p (l₁ ++ l₂) := by
  induction l₁ generalizing p with
  | nil => exact h₂
  | cons ph l ih =>
    refine ⟨h₁.1, ih h₁.2 ?_⟩
    rwa [Nat.add_right_comm, Nat.add_assoc]

lemma AllPlaced.get {n p i : ℕ} {l : List Phase} {ph : Phase} (h : AllPlaced n p l)
    (hi : l[i]? = some ph) : Placed n (p + i) ph := by
  induction l generalizing p i with
  | nil => cases hi
  | cons ph' l ih =>
    cases i with
    | zero =>
      cases hi
      exact h.1
    | succ i =>
      rw [← Nat.add_assoc, Nat.add_right_comm]
      exact ih h.2 hi

lemma placed_prologue (n : ℕ) (hn : 0 < n) :
    AllPlaced n 0 ([0, 1, 2, 3].map Phase.qLoad ++ asyncCopyKSubtile 0 0) := by
  simp [asyncCopyKSubtile, AllPlaced, Placed, hn]

lemma placed_prefetch {n tile : ℕ} (hmore : tile + 1 < n) :
    AllPlaced n (tileAt tile + 21) (.sBarrier :: asyncCopyKSubtile (tile + 1) 0) := by
  simp [asyncCopyKSubtile, AllPlaced, Placed, hmore, tileAt]
  omega

lemma placed_tile {n tile : ℕ} (ht : tile < n) : AllPlaced n (tileAt tile) (tilePhases n tile) := by
  rw [tilePhases_eq]
  refine AllPlaced.append ?_ ?_
  · simp [AllPlaced, Placed, ht]
  · -- the second GEMM1 stands after the prefetch, where there is one
    by_cases hmore : tile + 1 < n
    · rw [prefetch_more hmore]
      refine (placed_prefetch hmore).append ?_
      simp [asyncCopyKSubtile, AllPlaced, Placed, ht, hmore]
    · rw [prefetch_last hmore]
      simp [AllPlaced, Placed, ht, hmore]

/-- **Every phase stands at its position.** -/
theorem placed {n p : ℕ} (hn : 0 < n) {ph : Phase} (h : (phases n)[p]? = some ph) :
    Placed n p ph := by
  rcases Nat.lt_or_ge p 8 with h8 | h8
  · rw [phases, List.getElem?_append_left h8] at h
    have hp := (placed_prologue n hn).get h
    rwa [Nat.zero_add] at hp
  · obtain ⟨hp, -⟩ := List.getElem?_eq_some_iff.mp h
    obtain ⟨tile, o, ht, ho, rfl⟩ := exists_offset h8 hp
    rw [getElem?_tile ht ho] at h
    exact (placed_tile ht).get h

/-- Two positions of one phase that issues an operation are the same. -/
lemma kCopy_inj {n p q tile : ℕ} {half : Fin 2} {issue : Fin 4} (hn : 0 < n)
    (hp : (phases n)[p]? = some (.kCopy tile half issue))
    (hq : (phases n)[q]? = some (.kCopy tile half issue)) : p = q := by
  obtain ⟨-, h1⟩ := placed hn hp
  obtain ⟨-, h2⟩ := placed hn hq
  unfold tileAt at h1 h2
  omega

lemma vLoad_inj {n p q tile : ℕ} {half k3 : Fin 2} (hn : 0 < n)
    (hp : (phases n)[p]? = some (.vLoad tile half k3))
    (hq : (phases n)[q]? = some (.vLoad tile half k3)) : p = q :=
  (placed hn hp).2.trans (placed hn hq).2.symm

lemma vStore_inj {n p q tile : ℕ} {half : Fin 2} (hn : 0 < n)
    (hp : (phases n)[p]? = some (.vStore tile half))
    (hq : (phases n)[q]? = some (.vStore tile half)) : p = q :=
  (placed hn hp).2.trans (placed hn hq).2.symm

section Tile

variable {n tile : ℕ} (ht : tile < n)
include ht

lemma kCopy1_at (issue : Fin 4) :
    (phases n)[tileAt tile + issue.val]? = some (.kCopy tile 1 issue) := by
  rw [getElem?_tile ht (by omega), tilePhases_eq]
  fin_cases issue <;> rfl

/-- Where K half 0 is copied: in the prologue, or at the end of the tile before. -/
lemma exists_kCopy (half : Fin 2) (issue : Fin 4) :
    ∃ p : ℕ, (phases n)[p]? = some (.kCopy tile half issue) := by
  obtain rfl | rfl : half = 0 ∨ half = 1 := by omega
  · cases tile with
    | zero => exact ⟨4 + issue.val, by fin_cases issue <;> rfl⟩
    | succ t =>
      refine ⟨tileAt t + (22 + issue.val), ?_⟩
      rw [getElem?_tile (by omega) (by omega), tilePhases_eq, prefetch_more ht]
      fin_cases issue <;> rfl
  · exact ⟨_, kCopy1_at ht issue⟩

lemma exists_vLoad (half k3 : Fin 2) : ∃ p : ℕ, (phases n)[p]? = some (.vLoad tile half k3) := by
  refine ⟨tileAt tile + (9 + 5 * half.val + k3.val), ?_⟩
  rw [getElem?_tile ht (by omega), tilePhases_eq]
  fin_cases half <;> fin_cases k3 <;> rfl

lemma exists_vStore (half : Fin 2) : ∃ p : ℕ, (phases n)[p]? = some (.vStore tile half) := by
  refine ⟨tileAt tile + (13 + 7 * half.val), ?_⟩
  rw [getElem?_tile ht (by omega), tilePhases_eq]
  fin_cases half <;> rfl

/-- The waits of a tile: for K half 0, for K half 1, for V half 0 and V half 1 in registers,
and for V half 0 in LDS. -/
lemma waitVmcnt_at :
    (phases n)[tileAt tile + 4]? = some (.waitVmcnt 4) ∧
      (phases n)[tileAt tile + 7]? = some (.waitVmcnt 0) ∧
      (phases n)[tileAt tile + 12]? = some (.waitVmcnt 0) ∧
      (phases n)[tileAt tile + 19]? = some (.waitVmcnt 0) := by
  refine ⟨?_, ?_, ?_, ?_⟩ <;> rw [getElem?_tile ht (by norm_num), tilePhases_eq] <;> rfl

lemma waitLgkmcnt_at : (phases n)[tileAt tile + 16]? = some (.waitLgkmcnt 0) := by
  rw [getElem?_tile ht (by norm_num), tilePhases_eq]
  rfl

/-- The barriers of a tile: before each of the two GEMM0, and before the first GEMM1. -/
lemma sBarrier_at :
    (phases n)[tileAt tile + 5]? = some .sBarrier ∧
      (phases n)[tileAt tile + 8]? = some .sBarrier ∧
      (phases n)[tileAt tile + 17]? = some .sBarrier := by
  refine ⟨?_, ?_, ?_⟩ <;> rw [getElem?_tile ht (by norm_num), tilePhases_eq] <;> rfl

/-- The second `block_sync_lds`. -/
lemma lastSync_at :
    (tile + 1 < n → (phases n)[tileAt tile + 26]? = some (.waitLgkmcnt 0) ∧
      (phases n)[tileAt tile + 27]? = some .sBarrier) ∧
    (¬ tile + 1 < n → (phases n)[tileAt tile + 21]? = some (.waitLgkmcnt 0) ∧
      (phases n)[tileAt tile + 22]? = some .sBarrier) := by
  refine ⟨fun hmore => ⟨?_, ?_⟩, fun hmore => ⟨?_, ?_⟩⟩ <;>
    rw [getElem?_tile ht (by norm_num), tilePhases_eq]
  · rw [prefetch_more hmore]
    rfl
  · rw [prefetch_more hmore]
    rfl
  · rw [prefetch_last hmore]
    rfl
  · rw [prefetch_last hmore]
    rfl

end Tile

/-- The barrier before the prefetch. -/
lemma prefetchBarrier_at {n tile : ℕ} (hmore : tile + 1 < n) :
    (phases n)[tileAt tile + 21]? = some .sBarrier := by
  rw [getElem?_tile (by omega) (by norm_num), tilePhases_eq, prefetch_more hmore]
  rfl

end FmhaNative.Phases
