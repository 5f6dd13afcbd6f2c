import FmhaNative.AsyncWaves
import FmhaNative.Loads
import FmhaNative.Phases
import FmhaNative.Staging

/-!
The three LDS buffers under four waves: what GEMM0 and GEMM1 find there.

The waves run the phases on their own, held by the waits and the barriers only. Buffer 1 takes
K half 0 of a tile, then V half 0, then K half 0 of the next tile; buffer 2 takes K half 1 and
buffer 0 takes V half 1.
-/

namespace FmhaNative.LdsPipeline

open AsyncWaves Phases Pipeline

/-- What the four waves of a block have in common. -/
structure WaveCtx (β : Type*) where
  (srdQ srdK srdV : Mem β)
  (strideQ strideK strideV : ℤ)
  (seqlenQ mTileIdx : ℤ)

/-- One bf16 cell: an element of LDS, or half a dword of a lane's V or Q registers. -/
inductive Cell
  | lds (e : ℤ)
  | vReg (half : Fin 2) (t : Thread) (k3 dword : Fin 2) (hi : Bool)
  | qReg (t : Thread) (kstep dword : Fin 4) (hi : Bool)
  deriving DecidableEq

variable {β : Type*}

/-- The buffers of the K halves and of the V halves. -/
def kBuf (half : Fin 2) : ℤ := ldsSeq (Fin.castAdd 2 half)
def vBuf (half : Fin 2) : ℤ := ldsSeq (Fin.natAdd 2 half)

/-! ### The program of a wave -/

/-- The two writes of one dword of a register. -/
def dwordCells (cell : Bool → Cell) (d : OpLds.Dword β) : List (Cell × β) :=
  [(cell false, d.lo), (cell true, d.hi)]

def qWrites [Zero β] (c : WaveCtx β) (w : Fin 4) (kstep : Fin 4) : List (Cell × β) :=
  (OpLds.waveLanes w).flatMap fun t =>
    if c.mTileIdx * kM0 + mRow t < c.seqlenQ then
      (List.finRange 4).flatMap fun i =>
        dwordCells (.qReg t kstep i) (loadQ c.srdQ c.strideQ c.seqlenQ c.mTileIdx t kstep i)
    else []

def kWrites (c : WaveCtx β) (w : Fin 4) (tile : ℕ) (half : Fin 2) (issue : Fin 4) :
    List (Cell × β) :=
  (OpLds.kIssue c.srdK c.strideK (Loads.ivAt c.strideK c.strideV tile).kvKByte
    ((half.val * 32 : ℕ) : ℤ) (kBuf half) w issue).map fun x => (.lds x.1, x.2)

/-- The V registers that a tile's loads give a lane. -/
def vLoaded (c : WaveCtx β) (tile : ℕ) (half : Fin 2) : Thread → Fin 2 → OpLds.V2i β :=
  OpLds.loadVFromDram c.srdV c.strideV
    ((Loads.ivAt c.strideK c.strideV tile).kvVByte + ((half.val * 32 : ℕ) : ℤ) * (c.strideV * 2))

def vLoadWrites (c : WaveCtx β) (w : Fin 4) (tile : ℕ) (half k3 : Fin 2) : List (Cell × β) :=
  (OpLds.waveLanes w).flatMap fun t => (List.finRange 2).flatMap fun i =>
    dwordCells (.vReg half t k3 i) (vLoaded c tile half t k3 i)

/-- The V registers as the store finds them. -/
def vRegs (m : Cell → β) (half : Fin 2) : Thread → Fin 2 → OpLds.V2i β := fun t k3 i =>
  ⟨m (.vReg half t k3 i false), m (.vReg half t k3 i true)⟩

def vStoreWrites (w : Fin 4) (half : Fin 2) (m : Cell → β) : List (Cell × β) :=
  (OpLds.vWave (vRegs m half) (vBuf half) w).map fun x => (.lds x.1, x.2)

/-- A lane of the wave owns a query row. -/
def waveHasRow (c : WaveCtx β) (w : Fin 4) : Prop :=
  ∃ t ∈ OpLds.waveLanes w, c.mTileIdx * kM0 + mRow t < c.seqlenQ

instance decidableWaveHasRow (c : WaveCtx β) (w : Fin 4) : Decidable (waveHasRow c w) :=
  inferInstanceAs (Decidable (∃ t ∈ OpLds.waveLanes w, c.mTileIdx * kM0 + mRow t < c.seqlenQ))

/-- What a phase is for one wave. A wave without a query row loads none; a GEMM reads while it
stands at its instruction. -/
def instr [Zero β] (c : WaveCtx β) (w : Fin 4) : Phase → Instr Cell β
  | .qLoad kstep => if waveHasRow c w then .issue .vm fun _ => qWrites c w kstep else .compute
  | .kCopy tile half issue => .issue .vm fun _ => kWrites c w tile half issue
  | .vLoad tile half k3 => .issue .vm fun _ => vLoadWrites c w tile half k3
  | .vStore _ half => .issue .lgkm (vStoreWrites w half)
  | .waitVmcnt n => .wait .vm n
  | .waitLgkmcnt n => .wait .lgkm n
  | .sBarrier => .barrier
  | .gemm0 _ _ | .gemm1 _ _ => .compute

def waveProgram [Zero β] (c : WaveCtx β) (n : ℕ) (w : Fin 4) : List (Instr Cell β) :=
  (phases n).map (instr c w)

variable [Zero β] {c : WaveCtx β} {n : ℕ}

lemma program_of {w : Fin 4} {p : ℕ} {ph : Phase} (h : (phases n)[p]? = some ph) :
    (waveProgram c n w)[p]? = some (instr c w ph) := by
  rw [waveProgram, List.getElem?_map, h, Option.map_some]

lemma exists_phase {w : Fin 4} {p : ℕ} {i : Instr Cell β}
    (h : (waveProgram c n w)[p]? = some i) : ∃ ph, (phases n)[p]? = some ph ∧ instr c w ph = i := by
  rw [waveProgram, List.getElem?_map] at h
  exact Option.map_eq_some_iff.mp h

/-- The waves have their barriers at the same places. -/
lemma aligned (c : WaveCtx β) (n : ℕ) : Aligned (waveProgram c n) := by
  intro w w' k h
  obtain ⟨ph, hph, hi⟩ := exists_phase h
  cases ph with
  | sBarrier => exact program_of hph
  | qLoad kstep =>
    simp only [instr] at hi
    split_ifs at hi
  | kCopy | vLoad | vStore | waitVmcnt | waitLgkmcnt | gemm0 | gemm1 => cases hi

/-! ### What the operations write -/

/-- The wave of a thread. -/
def waveOf (t : Thread) : Fin 4 := ⟨warpId t, warpId_lt t⟩

lemma eq_waveOf {t : Thread} {w : Fin 4} : t.val / 64 = w.val ↔ w = waveOf t := by
  rw [Fin.ext_iff, waveOf, ← warpId_eq, eq_comm]

/-- The K element of an LDS element that the copy fills. -/
def kValue (c : WaveCtx β) (tile : ℕ) (half : Fin 2) (t : Thread) (issue : Fin 4) (h : ℕ) : β :=
  c.srdK ((64 * tile + OpLds.kRow t issue) * c.strideK
    + ((32 * half.val : ℕ) + (OpLds.kDInChunk t + h : ℕ)))

omit [Zero β] in
lemma mem_kWrites {w : Fin 4} {tile : ℕ} {half : Fin 2} {issue : Fin 4} {a : Cell} {u : β} :
    (a, u) ∈ kWrites c w tile half issue ↔ ∃ t, w = waveOf t ∧ ∃ h < 2,
      a = .lds (OpLds.kElem (kBuf half) t issue h) ∧ u = kValue c tile half t issue h := by
  have hb : (Loads.ivAt c.strideK c.strideV tile).kvKByte = 2 * (64 * tile * c.strideK) := by
    rw [Loads.ivAt_eq]
    ring
  have hv : ∀ (t : Thread) (h : ℕ), 2 * (64 * tile * c.strideK) / 2
      + (OpLds.kRow t issue : ℤ) * c.strideK + (((half.val * 32 : ℕ) : ℤ) + OpLds.kDInChunk t) + h
      = (64 * tile + OpLds.kRow t issue) * c.strideK
        + ((32 * half.val : ℕ) + (OpLds.kDInChunk t + h : ℕ)) := by
    intro t h
    rw [Int.mul_ediv_cancel_left _ (by norm_num)]
    push_cast
    ring
  simp only [kWrites, List.mem_map, Prod.mk.injEq, Prod.exists, hb]
  constructor
  · rintro ⟨e, v, hmem, rfl, rfl⟩
    obtain ⟨t, ht, h, hh, rfl, rfl⟩ := (OpLds.mem_kIssue (Dvd.intro _ rfl)).mp hmem
    exact ⟨t, eq_waveOf.mp ht, h, hh, rfl, by rw [hv]; rfl⟩
  · rintro ⟨t, ht, h, hh, rfl, rfl⟩
    refine ⟨_, _, (OpLds.mem_kIssue (Dvd.intro _ rfl)).mpr ⟨t, eq_waveOf.mpr ht, h, hh, rfl, rfl⟩,
      rfl, ?_⟩
    rw [hv]
    rfl

omit [Zero β] in
lemma mem_dwordCells {cell : Bool → Cell} {d : OpLds.Dword β} {a : Cell} {u : β} :
    (a, u) ∈ dwordCells cell d ↔ ∃ hi, a = cell hi ∧ u = if hi then d.hi else d.lo := by
  simp only [dwordCells, List.mem_cons, List.not_mem_nil, or_false, Prod.mk.injEq]
  constructor
  · rintro (⟨rfl, rfl⟩ | ⟨rfl, rfl⟩)
    · exact ⟨false, rfl, rfl⟩
    · exact ⟨true, rfl, rfl⟩
  · rintro ⟨hi, rfl, rfl⟩
    cases hi with
    | false => exact Or.inl ⟨rfl, rfl⟩
    | true => exact Or.inr ⟨rfl, rfl⟩

omit [Zero β] in
lemma mem_vLoadWrites {w : Fin 4} {tile : ℕ} {half k3 : Fin 2} {a : Cell} {u : β} :
    (a, u) ∈ vLoadWrites c w tile half k3 ↔ ∃ t, w = waveOf t ∧ ∃ i hi, a = .vReg half t k3 i hi ∧
      u = if hi then (vLoaded c tile half t k3 i).hi else (vLoaded c tile half t k3 i).lo := by
  simp only [vLoadWrites, List.mem_flatMap, OpLds.mem_waveLanes, eq_waveOf, List.mem_finRange,
    true_and, mem_dwordCells]

omit [Zero β] in
lemma mem_vStoreWrites {w : Fin 4} {half : Fin 2} {m : Cell → β} {a : Cell} {u : β} :
    (a, u) ∈ vStoreWrites w half m ↔ ∃ t, w = waveOf t ∧ ∃ x < 4, ∃ k3 < 2,
      a = .lds (OpLds.vElem (vBuf half) t x k3) ∧ u = OpLds.vRegElem (vRegs m half) t x k3 := by
  simp only [vStoreWrites, OpLds.vWave, List.mem_map, List.mem_flatMap, OpLds.mem_waveLanes,
    eq_waveOf, Prod.mk.injEq, Prod.exists]
  constructor
  · rintro ⟨e, v, ⟨t, ht, hmem⟩, rfl, rfl⟩
    obtain ⟨x, hx, k3, hk, rfl, rfl⟩ := OpLds.mem_vStore.mp hmem
    exact ⟨t, ht, x, hx, k3, hk, rfl, rfl⟩
  · rintro ⟨t, ht, x, hx, k3, hk, rfl, rfl⟩
    exact ⟨_, _, ⟨t, ht, OpLds.mem_vStore.mpr ⟨x, hx, k3, hk, rfl, rfl⟩⟩, rfl, rfl⟩

/-- The query loads write query registers. -/
lemma qReg_of_qLoad {w kstep : Fin 4} {ctr : Counter} {f : (Cell → β) → List (Cell × β)}
    {m : Cell → β} {a : Cell} {u : β} (hins : instr c w (.qLoad kstep) = .issue ctr f)
    (h : (a, u) ∈ f m) : ∃ t i hi, a = .qReg t kstep i hi := by
  simp only [instr] at hins
  split_ifs at hins
  obtain ⟨-, rfl⟩ := Instr.issue.inj hins
  simp only [qWrites, List.mem_flatMap] at h
  obtain ⟨t, -, h⟩ := h
  split_ifs at h
  · obtain ⟨i, -, h⟩ := List.mem_flatMap.mp h
    obtain ⟨hi, ha, -⟩ := mem_dwordCells.mp h
    exact ⟨t, i, hi, ha⟩
  · exact absurd h List.not_mem_nil

/-- An LDS element is written by a K copy or by a V store. -/
lemma lds_writer {w : Fin 4} {ph : Phase} {ctr : Counter} {f : (Cell → β) → List (Cell × β)}
    {m : Cell → β} {e : ℤ} {u : β} (hi : instr c w ph = .issue ctr f) (h : (.lds e, u) ∈ f m) :
    (∃ tile half issue t, ∃ b < 2, ph = .kCopy tile half issue ∧ w = waveOf t ∧
        e = OpLds.kElem (kBuf half) t issue b) ∨
      ∃ tile half t, ∃ x < 4, ∃ k3 < 2, ph = .vStore tile half ∧ w = waveOf t ∧
        e = OpLds.vElem (vBuf half) t x k3 := by
  cases ph with
  | kCopy tile half issue =>
    obtain ⟨-, rfl⟩ := Instr.issue.inj hi
    obtain ⟨t, ht, b, hb, ha, -⟩ := mem_kWrites.mp h
    exact Or.inl ⟨tile, half, issue, t, b, hb, rfl, ht, Cell.lds.inj ha⟩
  | vStore tile half =>
    obtain ⟨-, rfl⟩ := Instr.issue.inj hi
    obtain ⟨t, ht, x, hx, k3, hk, ha, -⟩ := mem_vStoreWrites.mp h
    exact Or.inr ⟨tile, half, t, x, hx, k3, hk, rfl, ht, Cell.lds.inj ha⟩
  | vLoad tile half k3 =>
    obtain ⟨-, rfl⟩ := Instr.issue.inj hi
    obtain ⟨t, -, i, hb, ha, -⟩ := mem_vLoadWrites.mp h
    cases ha
  | qLoad kstep =>
    obtain ⟨t, i, b, ha⟩ := qReg_of_qLoad hi h
    cases ha
  | sBarrier | waitVmcnt | waitLgkmcnt | gemm0 | gemm1 => cases hi

/-- A V register is written by the lane's own loads of that half. -/
lemma vReg_writer {w : Fin 4} {ph : Phase} {ctr : Counter} {f : (Cell → β) → List (Cell × β)}
    {m : Cell → β} {half k3 i : Fin 2} {t : Thread} {hi : Bool} {u : β}
    (hins : instr c w ph = .issue ctr f) (h : (.vReg half t k3 i hi, u) ∈ f m) :
    w = waveOf t ∧ ∃ tile, ph = .vLoad tile half k3 := by
  cases ph with
  | vLoad tile half' k3' =>
    obtain ⟨-, rfl⟩ := Instr.issue.inj hins
    obtain ⟨t', ht, i', hb, ha, -⟩ := mem_vLoadWrites.mp h
    obtain ⟨rfl, rfl, rfl, -, -⟩ := Cell.vReg.inj ha
    exact ⟨ht, tile, rfl⟩
  | kCopy tile half issue =>
    obtain ⟨-, rfl⟩ := Instr.issue.inj hins
    obtain ⟨t, -, b, -, ha, -⟩ := mem_kWrites.mp h
    cases ha
  | vStore tile half =>
    obtain ⟨-, rfl⟩ := Instr.issue.inj hins
    obtain ⟨t, -, x, -, k3, -, ha, -⟩ := mem_vStoreWrites.mp h
    cases ha
  | qLoad kstep =>
    obtain ⟨t, i, b, ha⟩ := qReg_of_qLoad hins h
    cases ha
  | sBarrier | waitVmcnt | waitLgkmcnt | gemm0 | gemm1 => cases hins

/-! ### Buffers -/

lemma kBuf_inj {half half' : Fin 2} : kBuf half = kBuf half' → half = half' := by
  revert half half'
  decide

lemma vBuf_inj {half half' : Fin 2} : vBuf half = vBuf half' → half = half' := by
  revert half half'
  decide

/-- Only the first halves of K and V share a buffer. -/
lemma half_eq_of_kBuf_eq_vBuf {half half' : Fin 2} : kBuf half = vBuf half' → half = 0 ∧ half' = 0 := by
  revert half half'
  decide

/-- The K halves are staged apart. -/
lemma kElem_kBuf_inj {half half' : Fin 2} {t t' : Thread} {issue issue' : Fin 4} {b b' : ℕ}
    (hb : b < 2) (hb' : b' < 2)
    (h : OpLds.kElem (kBuf half) t issue b = OpLds.kElem (kBuf half') t' issue' b') :
    half = half' ∧ t = t' ∧ issue = issue' ∧ b = b' := by
  have hbuf := OpLds.kElem_mem (kBuf half') t' issue'.isLt hb'
  rw [← h] at hbuf
  obtain rfl := kBuf_inj ((OpLds.kElem_mem _ t issue.isLt hb).buf_eq hbuf)
  obtain ⟨rfl, hi, rfl⟩ := OpLds.kElem_inj hb hb' h
  exact ⟨rfl, rfl, Fin.ext hi, rfl⟩

lemma vElem_vBuf_inj {half half' : Fin 2} {t t' : Thread} {x x' k3 k3' : ℕ} (hx : x < 4)
    (hx' : x' < 4) (hk : k3 < 2) (hk' : k3' < 2)
    (h : OpLds.vElem (vBuf half) t x k3 = OpLds.vElem (vBuf half') t' x' k3') :
    half = half' ∧ t = t' ∧ x = x' ∧ k3 = k3' := by
  have hbuf := OpLds.vElem_mem (vBuf half') t' hx' hk'
  rw [← h] at hbuf
  obtain rfl := vBuf_inj ((OpLds.vElem_mem _ t hx hk).buf_eq hbuf)
  exact ⟨rfl, OpLds.vElem_inj hx hx' hk hk' h⟩

lemma half_eq_of_kElem_eq_vElem {half half' : Fin 2} {t t' : Thread} {issue : Fin 4} {b x k3 : ℕ}
    (hb : b < 2) (hx : x < 4) (hk : k3 < 2)
    (h : OpLds.kElem (kBuf half) t issue b = OpLds.vElem (vBuf half') t' x k3) :
    half = 0 ∧ half' = 0 := by
  have hbuf := OpLds.vElem_mem (vBuf half') t' hx hk
  rw [← h] at hbuf
  exact half_eq_of_kBuf_eq_vBuf ((OpLds.kElem_mem _ t issue.isLt hb).buf_eq hbuf)

/-! ### When the operations are complete, and when they are issued -/

section Order

variable {w w' : Fin 4} {p q r tile : ℕ}

/-- A K half is complete past the barrier of the GEMM0 that reads it. -/
lemma kCopy_completed (hn : 0 < n) {half : Fin 2} {issue : Fin 4}
    (h : (phases n)[p]? = some (.kCopy tile half issue))
    (hq : tileAt tile + 5 + 3 * half.val < q) : Completed (waveProgram c n) w p w' q := by
  obtain ⟨ht, hp⟩ := placed hn h
  obtain ⟨hw4, hw0, -, -⟩ := waitVmcnt_at ht
  obtain ⟨hb0, hb1, -⟩ := sBarrier_at ht
  obtain rfl | rfl : half = 0 ∨ half = 1 := by omega
  · -- the four copies of half 1 are the youngest
    have hlt : p < tileAt tile := by
      unfold tileAt at hp ⊢
      omega
    refine ⟨.vm, _, tileAt tile + 4, program_of h, ⟨by omega, 4, program_of hw4,
      Finset.Ico (tileAt tile) (tileAt tile + 4), by rw [Nat.card_Ico]; omega, fun j hj => ?_⟩,
      Or.inr ⟨tileAt tile + 5, program_of hb0, by omega, hq⟩⟩
    obtain ⟨hj1, hj2⟩ := Finset.mem_Ico.mp hj
    obtain ⟨i, rfl⟩ := Nat.exists_eq_add_of_le hj1
    exact ⟨by omega, hj2, _, program_of (kCopy1_at ht ⟨i, by omega⟩)⟩
  · refine ⟨.vm, _, tileAt tile + 7, program_of h, Covers.of_zero ?_ (program_of hw0),
      Or.inr ⟨tileAt tile + 8, program_of hb1, by omega, hq⟩⟩
    have := issue.isLt
    omega

/-- V half 0 is complete past the first `block_sync_lds` of its tile, V half 1 past the second. -/
lemma vStore_completed (hn : 0 < n) {half : Fin 2} (h : (phases n)[p]? = some (.vStore tile half))
    (h0 : half = 0 → tileAt tile + 17 < q)
    (h1 : half = 1 → tileAt tile + 22 < q ∧ (tile + 1 < n → tileAt tile + 27 < q)) :
    Completed (waveProgram c n) w p w' q := by
  obtain ⟨ht, hp⟩ := placed hn h
  obtain rfl | rfl : half = 0 ∨ half = 1 := by omega
  · exact ⟨.lgkm, _, tileAt tile + 16, program_of h,
      Covers.of_zero (by simp only [Fin.val_zero] at hp; omega) (program_of (waitLgkmcnt_at ht)),
      Or.inr ⟨tileAt tile + 17, program_of (sBarrier_at ht).2.2, by omega, h0 rfl⟩⟩
  · obtain ⟨hq, hq'⟩ := h1 rfl
    have hp' : p = tileAt tile + 20 := hp
    by_cases hmore : tile + 1 < n
    · obtain ⟨hwait, hb⟩ := (lastSync_at ht).1 hmore
      exact ⟨.lgkm, _, tileAt tile + 26, program_of h, Covers.of_zero (by omega) (program_of hwait),
        Or.inr ⟨tileAt tile + 27, program_of hb, by omega, hq' hmore⟩⟩
    · obtain ⟨hwait, hb⟩ := (lastSync_at ht).2 hmore
      exact ⟨.lgkm, _, tileAt tile + 21, program_of h, Covers.of_zero (by omega) (program_of hwait),
        Or.inr ⟨tileAt tile + 22, program_of hb, by omega, hq⟩⟩

/-- The V registers of a half are complete at the wave's own store of them. -/
lemma vLoad_completed (hn : 0 < n) {half k3 : Fin 2}
    (h : (phases n)[p]? = some (.vLoad tile half k3)) (hq : tileAt tile + 12 + 7 * half.val < q) :
    Completed (waveProgram c n) w p w q := by
  obtain ⟨ht, hp⟩ := placed hn h
  obtain ⟨-, -, hw0, hw1⟩ := waitVmcnt_at ht
  have hk := k3.isLt
  obtain rfl | rfl : half = 0 ∨ half = 1 := by omega
  · have hp' : p = tileAt tile + 9 + k3.val := hp
    exact ⟨.vm, _, tileAt tile + 12, program_of h, Covers.of_zero (by omega) (program_of hw0),
      Or.inl ⟨rfl, hq⟩⟩
  · have hp' : p = tileAt tile + 14 + k3.val := hp
    exact ⟨.vm, _, tileAt tile + 19, program_of h, Covers.of_zero (by omega) (program_of hw1),
      Or.inl ⟨rfl, hq⟩⟩

/-- The copies for a later tile are issued past a barrier of the tile before it: the one before
the prefetch for half 0, the last one for half 1. -/
lemma kCopy_notYet (hn : 0 < n) {half : Fin 2} {issue : Fin 4}
    (h : (phases n)[p]? = some (.kCopy tile half issue)) (hr : r + 8 < tileAt tile + 6 * half.val)
    (h0 : 0 < tile) : NotYet (waveProgram c n) w r w' p := by
  obtain ⟨ht, hp⟩ := placed hn h
  obtain ⟨t, rfl⟩ := Nat.exists_eq_succ_of_ne_zero h0.ne'
  unfold tileAt at hp hr
  obtain rfl | rfl : half = 0 ∨ half = 1 := by omega
  · refine Or.inr ⟨_, program_of (prefetchBarrier_at ht), ?_, ?_⟩ <;> unfold tileAt
    · simp only [Fin.val_zero] at hr
      omega
    · omega
  · refine Or.inr ⟨_, program_of ((lastSync_at (Nat.lt_of_succ_lt ht)).1 ht).2, ?_, ?_⟩ <;>
      unfold tileAt
    · simp only [Fin.val_one] at hr
      omega
    · omega

/-- A V half is stored past the barrier of the GEMM that reads its buffer before. -/
lemma vStore_notYet (hn : 0 < n) {half : Fin 2} (h : (phases n)[p]? = some (.vStore tile half))
    (hr : r < tileAt tile + 8 + 9 * half.val) : NotYet (waveProgram c n) w r w' p := by
  obtain ⟨ht, hp⟩ := placed hn h
  obtain ⟨-, hb0, hb1⟩ := sBarrier_at ht
  obtain rfl | rfl : half = 0 ∨ half = 1 := by omega
  · have hp' : p = tileAt tile + 13 := hp
    exact Or.inr ⟨_, program_of hb0, hr, by omega⟩
  · have hp' : p = tileAt tile + 20 := hp
    exact Or.inr ⟨_, program_of hb1, hr, by omega⟩

end Order

/-! ### Last writes -/

variable {i r tile : ℕ} {half : Fin 2}

/-- The last write to a K element before the GEMM0 that reads it is its copy. -/
lemma kLastWrite (hn : 0 < n) {issue : Fin 4} (hi : (phases n)[i]? = some (.kCopy tile half issue))
    (hr : (phases n)[r]? = some (.gemm0 tile half)) (t : Thread) {b : ℕ} (hb : b < 2) (w : Fin 4) :
    LastWrite (waveProgram c n) (waveOf t) i w r (.lds (OpLds.kElem (kBuf half) t issue b))
      (kValue c tile half t issue b) := by
  obtain ⟨-, hip⟩ := placed hn hi
  obtain ⟨-, hrp⟩ := placed hn hr
  have hhalf := half.isLt
  refine ⟨fun s _ _ => ⟨.vm, _, program_of hi, mem_kWrites.mpr ⟨t, rfl, b, hb, rfl, rfl⟩, ?_⟩,
    kCopy_completed hn hi (by omega), ?_⟩
  · intro u hu
    obtain ⟨t', -, b', hb', ha, rfl⟩ := mem_kWrites.mp hu
    obtain ⟨-, rfl, -, rfl⟩ := kElem_kBuf_inj hb hb' (Cell.lds.inj ha)
    rfl
  · intro w' p ctr f m u hf hu
    obtain ⟨ph, hph, hins⟩ := exists_phase hf
    rcases lds_writer hins hu with ⟨tile', half', issue', t', b', hb', rfl, rfl, he⟩ |
      ⟨tile', half', t', x, hx, k3, hk, rfl, rfl, he⟩
    · -- another tile's copy of the same half
      obtain ⟨rfl, rfl, rfl, rfl⟩ := kElem_kBuf_inj hb hb' he
      rcases lt_trichotomy tile' tile with hlt | rfl | hgt
      · refine Or.inr (Or.inl (kCopy_completed hn hph ?_))
        unfold tileAt at hip ⊢
        omega
      · exact Or.inl ⟨rfl, kCopy_inj hn hph hi⟩
      · refine Or.inr (Or.inr (kCopy_notYet hn hph ?_ (by omega)))
        unfold tileAt at hrp ⊢
        omega
    · -- V half 0 in the buffer of K half 0
      obtain ⟨rfl, rfl⟩ := half_eq_of_kElem_eq_vElem hb hx hk he
      rcases Nat.lt_or_ge tile' tile with hlt | hge
      · refine Or.inr (Or.inl (vStore_completed hn hph (fun _ => ?_) (fun h => absurd h (by decide))))
        unfold tileAt at hip ⊢
        omega
      · refine Or.inr (Or.inr (vStore_notYet hn hph ?_))
        simp only [Fin.val_zero] at hrp ⊢
        unfold tileAt at hrp ⊢
        omega

/-- The half of a dword that a register cell holds. -/
lemma vRegLastWrite (hn : 0 < n) {k3 : Fin 2} (hi : (phases n)[i]? = some (.vLoad tile half k3))
    (hr : (phases n)[r]? = some (.vStore tile half)) (t : Thread) (d : Fin 2) (hi' : Bool) :
    LastWrite (waveProgram c n) (waveOf t) i (waveOf t) r (.vReg half t k3 d hi')
      (if hi' then (vLoaded c tile half t k3 d).hi else (vLoaded c tile half t k3 d).lo) := by
  obtain ⟨-, hip⟩ := placed hn hi
  obtain ⟨-, hrp⟩ := placed hn hr
  refine ⟨fun s _ _ => ⟨.vm, _, program_of hi, mem_vLoadWrites.mpr ⟨t, rfl, d, hi', rfl, rfl⟩, ?_⟩,
    vLoad_completed hn hi (by omega), ?_⟩
  · intro u hu
    obtain ⟨t', -, d', b', ha, rfl⟩ := mem_vLoadWrites.mp hu
    obtain ⟨-, rfl, -, rfl, rfl⟩ := Cell.vReg.inj ha
    rfl
  · intro w' p ctr f m u hf hu
    obtain ⟨ph, hph, hins⟩ := exists_phase hf
    obtain ⟨rfl, tile', rfl⟩ := vReg_writer hins hu
    obtain ⟨-, hpp⟩ := placed hn hph
    have hk := k3.isLt
    have hhalf := half.isLt
    rcases lt_trichotomy tile' tile with hlt | rfl | hgt
    · refine Or.inr (Or.inl (vLoad_completed hn hph ?_))
      unfold tileAt at hip ⊢
      omega
    · exact Or.inl ⟨rfl, vLoad_inj hn hph hi⟩
    · refine Or.inr (Or.inr (Or.inl ⟨rfl, ?_⟩))
      unfold tileAt at hrp hpp
      omega

/-- A wave stores the V registers that it loaded. -/
lemma vRegs_eq (hn : 0 < n) {s : State (Fin 4) Cell β} (hs : Reachable (waveProgram c n) s)
    {t : Thread} (ht : tile < n) (hr : (phases n)[(s.waves (waveOf t)).pc]? = some (.vStore tile half)) :
    vRegs s.mem half t = vLoaded c tile half t := by
  funext k3 d
  obtain ⟨i, hi⟩ := exists_vLoad ht half k3
  have hcell : ∀ hi', s.mem (.vReg half t k3 d hi')
      = if hi' then (vLoaded c tile half t k3 d).hi else (vLoaded c tile half t k3 d).lo :=
    fun hi' => settled (aligned c n) (vRegLastWrite hn hi hr t d hi') hs rfl
  exact OpLds.Dword.ext (hcell false) (hcell true)

/-- The V element of an LDS element that the store fills. -/
def vValue (c : WaveCtx β) (tile : ℕ) (half : Fin 2) (t : Thread) (x k3 : ℕ) : β :=
  c.srdV ((64 * tile + 32 * half.val + (OpLds.vRowInTile t + k3 : ℕ)) * c.strideV
    + (OpLds.vCol t + x : ℕ))

omit [Zero β] in
lemma vRegElem_vLoaded {t : Thread} {x k3 : ℕ} (hx : x < 4) (hk : k3 < 2) :
    OpLds.vRegElem (vLoaded c tile half) t x k3 = vValue c tile half t x k3 := by
  have hb : (Loads.ivAt c.strideK c.strideV tile).kvVByte
      + ((half.val * 32 : ℕ) : ℤ) * (c.strideV * 2)
      = 2 * ((64 * tile + 32 * half.val) * c.strideV) := by
    rw [Loads.ivAt_eq]
    push_cast
    ring
  unfold vLoaded vValue
  rw [hb, OpLds.vRegElem_load (Dvd.intro _ rfl) t hx hk, Int.mul_ediv_cancel_left _ (by norm_num)]
  congr 1
  push_cast
  ring

/-- The last write to a V element before the GEMM1 that reads it is its store. -/
lemma vLastWrite (hn : 0 < n) (hi : (phases n)[i]? = some (.vStore tile half))
    (hr : (phases n)[r]? = some (.gemm1 tile half)) (t : Thread) {x k3 : ℕ} (hx : x < 4)
    (hk : k3 < 2) (w : Fin 4) :
    LastWrite (waveProgram c n) (waveOf t) i w r (.lds (OpLds.vElem (vBuf half) t x k3))
      (vValue c tile half t x k3) := by
  obtain ⟨ht, hip⟩ := placed hn hi
  obtain ⟨-, hrp⟩ := placed hn hr
  have hhalf := half.isLt
  refine ⟨fun s hs hpc => ?_, vStore_completed hn hi (fun h => by omega)
    fun h => ⟨by omega, fun hmore => by omega⟩, ?_⟩
  · have hval : OpLds.vRegElem (vRegs s.mem half) t x k3 = vValue c tile half t x k3 := by
      rw [← vRegElem_vLoaded hx hk]
      unfold OpLds.vRegElem
      rw [vRegs_eq hn hs ht (hpc ▸ hi)]
    refine ⟨.lgkm, _, program_of hi, mem_vStoreWrites.mpr ⟨t, rfl, x, hx, k3, hk, rfl, hval.symm⟩, ?_⟩
    intro u hu
    obtain ⟨t', -, x', hx', k3', hk', ha, rfl⟩ := mem_vStoreWrites.mp hu
    obtain ⟨-, rfl, rfl, rfl⟩ := vElem_vBuf_inj hx hx' hk hk' (Cell.lds.inj ha)
    exact hval
  · intro w' p ctr f m u hf hu
    obtain ⟨ph, hph, hins⟩ := exists_phase hf
    rcases lds_writer hins hu with ⟨tile', half', issue', t', b', hb', rfl, rfl, he⟩ |
      ⟨tile', half', t', x', hx', k3', hk', rfl, rfl, he⟩
    · -- K half 0 in the buffer of V half 0
      obtain ⟨rfl, rfl⟩ := half_eq_of_kElem_eq_vElem hb' hx hk he.symm
      simp only [Fin.val_zero] at hip
      rcases Nat.lt_or_ge tile tile' with hlt | hge
      · refine Or.inr (Or.inr (kCopy_notYet hn hph ?_ (by omega)))
        simp only [Fin.val_zero]
        unfold tileAt at hrp ⊢
        omega
      · refine Or.inr (Or.inl (kCopy_completed hn hph ?_))
        simp only [Fin.val_zero]
        unfold tileAt at hip ⊢
        omega
    · -- another tile's store of the same half
      obtain ⟨rfl, rfl, rfl, rfl⟩ := vElem_vBuf_inj hx hx' hk hk' he
      rcases lt_trichotomy tile' tile with hlt | rfl | hgt
      · refine Or.inr (Or.inl (vStore_completed hn hph (fun h => ?_) fun h => ⟨?_, fun _ => ?_⟩)) <;>
          unfold tileAt at hip ⊢ <;> omega
      · exact Or.inl ⟨rfl, vStore_inj hn hph hi⟩
      · refine Or.inr (Or.inr (vStore_notYet hn hph ?_))
        unfold tileAt at hrp ⊢
        omega

/-! ### What the GEMMs find -/

section Reads

variable {s : State (Fin 4) Cell β} {w : Fin 4}

lemma gemm0_reads (hn : 0 < n) (hs : Reachable (waveProgram c n) s)
    (hpc : (phases n)[(s.waves w).pc]? = some (.gemm0 tile half)) {j d : ℕ} (hj : j < 64)
    (hd : d < 32) : s.mem (.lds (OpLds.bufBaseElems (kBuf half) + OpGemm.ldsElemOffset j d))
      = c.srdK ((64 * tile + j) * c.strideK + (32 * half.val + d)) := by
  obtain ⟨ht, -⟩ := placed hn hpc
  obtain ⟨t, issue, hissue, b, hb, he, rfl, rfl⟩ := Staging.exists_kElem (kBuf half) hj hd
  obtain ⟨i, hi⟩ := exists_kCopy ht half ⟨issue, hissue⟩
  rw [← he, settled (aligned c n) (kLastWrite hn hi hpc t hb w) hs rfl]
  unfold kValue
  push_cast
  rfl

lemma gemm1_reads (hn : 0 < n) (hs : Reachable (waveProgram c n) s)
    (hpc : (phases n)[(s.waves w).pc]? = some (.gemm1 tile half)) {k d : ℕ} (hk : k < 32)
    (hd : d < 64) : s.mem (.lds (OpLds.bufBaseElems (vBuf half) + OpGemm.vLdsElemOffset k d))
      = c.srdV ((64 * tile + 32 * half.val + k) * c.strideV + d) := by
  obtain ⟨ht, -⟩ := placed hn hpc
  obtain ⟨t, x, hx, k3, hk3, he, rfl, rfl⟩ := Staging.exists_vElem (vBuf half) hk hd
  obtain ⟨i, hi⟩ := exists_vStore ht half
  rw [← he, settled (aligned c n) (vLastWrite hn hi hpc t hx hk3 w) hs rfl]
  unfold vValue
  push_cast
  rfl

/-- **Every GEMM finds its data**: whenever a wave stands at a GEMM0, the buffer holds the K half
of the tile, from all four waves; at a GEMM1, it holds the V half. -/
theorem gemms_read_their_tile (hn : 1 ≤ n) (hs : Reachable (waveProgram c n) s) (w : Fin 4) :
    (∀ tile sub, (phases n)[(s.waves w).pc]? = some (.gemm0 tile sub) → ∀ j < 64, ∀ d < 32,
      s.mem (.lds (OpLds.bufBaseElems (kBuf sub) + OpGemm.ldsElemOffset j d))
        = c.srdK ((64 * tile + j) * c.strideK + (32 * sub.val + d))) ∧
    (∀ tile sub, (phases n)[(s.waves w).pc]? = some (.gemm1 tile sub) → ∀ k < 32, ∀ d < 64,
      s.mem (.lds (OpLds.bufBaseElems (vBuf sub) + OpGemm.vLdsElemOffset k d))
        = c.srdV ((64 * tile + 32 * sub.val + k) * c.strideV + d)) :=
  ⟨fun _ _ hpc _ hj _ hd => gemm0_reads hn hs hpc hj hd,
    fun _ _ hpc _ hk _ hd => gemm1_reads hn hs hpc hk hd⟩

end Reads

/-- Two tiles: the waves reach the first GEMM0 of the second, and find its K rows. -/
theorem gemms_read_their_tile_second :
    let c : WaveCtx ℤ := ⟨id, id, id, 64, 64, 64, 128, 0⟩
    ∃ s, Reachable (waveProgram c 2) s ∧ (phases 2)[(s.waves 0).pc]? = some (.gemm0 1 0) ∧
      s.mem (.lds (OpLds.bufBaseElems 1 + OpGemm.ldsElemOffset 3 5)) = 67 * 64 + 5 := by
  intro c
  have hlen : ∀ w, tileAt 1 + 6 ≤ (waveProgram c 2 w).length := fun w => by
    rw [waveProgram, List.length_map]
    exact Nat.le_of_ble_eq_true rfl
  obtain ⟨s, hs, hpc⟩ := exists_reachable (aligned c 2) (fun _ => 0) hlen
  have h0 : (phases 2)[(s.waves 0).pc]? = some (.gemm0 1 0) := by
    rw [hpc]
    rfl
  exact ⟨s, hs, h0, (gemms_read_their_tile one_le_two hs 0).1 1 0 h0 3 (by norm_num) 5 (by norm_num)⟩

end FmhaNative.LdsPipeline
