import FmhaNative.Races
import FmhaNative.WaveRegisters

/-!
No race in a block: the four waves' accesses to LDS and to their registers are ordered by the
waits and barriers of the tile loop, and stay in the block's LDS and the wave's own lanes.

The order comes from the last writes: each staged element is the last write before the GEMM that
reads it, each V register before the store of its half.
-/

namespace FmhaNative.BlockRaces

open AsyncWaves WaveRuns Races Phases Pipeline LdsPipeline WaveRegisters OpLds OpGemm Fp Relation

variable {α β : Type*}

/-! ### Reads -/

/-- The cells that a phase reads for wave `w`: a GEMM its LDS half and, for the scores, the query
registers of the wave; the V store the registers that it stores. -/
def PhaseReads (w : Fin 4) : Phase → Cell → Prop
  | .gemm0 _ half, .lds e => ∃ j < 64, ∃ d < 32, e = bufBaseElems (kBuf half) + ldsElemOffset j d
  | .gemm0 _ _, .qReg t _ _ _ => w = waveOf t
  | .gemm1 _ half, .lds e => ∃ k < 32, ∃ d < 64, e = bufBaseElems (vBuf half) + vLdsElemOffset k d
  | .vStore _ half, .vReg half' t _ _ _ => half' = half ∧ w = waveOf t
  | _, _ => False

def Reads (n : ℕ) (w : Fin 4) (p : ℕ) (a : Cell) : Prop :=
  ∃ ph, (phases n)[p]? = some ph ∧ PhaseReads w ph a

/-- The bytes of the block's LDS, and the registers of the wave's own lanes. -/
def Owned (w : Fin 4) : Cell → Prop
  | .lds e => 0 ≤ e ∧ 2 * e + 2 ≤ kLdsBytes
  | .vReg _ t _ _ _ => w = waveOf t
  | .qReg t _ _ _ => w = waveOf t

lemma owned_of_inBuffer {w : Fin 4} {bufIdx e : ℤ} (h0 : 0 ≤ bufIdx) (h2 : bufIdx ≤ 2)
    (h : InBuffer bufIdx e) : Owned w (.lds e) := by
  obtain ⟨hlo, hhi⟩ := h
  simp only [bufBaseElems] at hlo hhi
  simp only [Owned, kLdsBytes, kNumLdsBuffers, kSingleSmemElements]
  omega

lemma kBuf_range (half : Fin 2) : 0 ≤ kBuf half ∧ kBuf half ≤ 2 := by
  revert half
  decide

lemma vBuf_range (half : Fin 2) : 0 ≤ vBuf half ∧ vBuf half ≤ 2 := by
  revert half
  decide

lemma reads_owned {n p : ℕ} {w : Fin 4} {a : Cell} (h : Reads n w p a) : Owned w a := by
  obtain ⟨ph, -, hr⟩ := h
  cases ph with
  | gemm0 tile half =>
    cases a with
    | lds e =>
      obtain ⟨j, hj, d, hd, rfl⟩ := hr
      have hlt := Staging.ldsElemOffset_lt hj hd
      refine owned_of_inBuffer (kBuf_range half).1 (kBuf_range half).2 ⟨?_, ?_⟩ <;> omega
    | vReg => exact hr.elim
    | qReg t kstep i hi => exact hr
  | gemm1 tile half =>
    cases a with
    | lds e =>
      obtain ⟨k, hk, d, hd, rfl⟩ := hr
      have hlt := Staging.vLdsElemOffset_lt (n := k) hd
      refine owned_of_inBuffer (vBuf_range half).1 (vBuf_range half).2 ⟨?_, ?_⟩ <;> omega
    | vReg | qReg => exact hr.elim
  | vStore tile half =>
    cases a with
    | vReg half' t k3 i hi => exact hr.2
    | lds | qReg => exact hr.elim
  | qLoad | kCopy | vLoad | waitVmcnt | waitLgkmcnt | sBarrier => exact hr.elim

section Program

variable [Zero β] {c : WaveCtx β} {n : ℕ}

/-- **What an operation writes** comes from the cells that its phase reads. -/
lemma reads_local (c : WaveCtx β) (n : ℕ) : Local (waveProgram c n) (Reads n) := by
  intro w p ctr f m m' hf hm
  obtain ⟨ph, hph, hins⟩ := exists_phase hf
  cases ph with
  | vStore tile half =>
    obtain ⟨-, rfl⟩ := Instr.issue.inj hins
    have hregs : ∀ t ∈ waveLanes w, vRegs m half t = vRegs m' half t := by
      intro t ht
      have hcell : ∀ k3 i hi, m (.vReg half t k3 i hi) = m' (.vReg half t k3 i hi) := fun k3 i hi =>
        hm _ ⟨_, hph, rfl, eq_waveOf.mp (mem_waveLanes.mp ht)⟩
      ext k3 i
      · exact hcell k3 i false
      · exact hcell k3 i true
    simp only [vStoreWrites, vWave]
    congr 1
    refine List.flatMap_congr fun t ht => ?_
    rw [hregs t ht]
  | qLoad kstep =>
    simp only [instr] at hins
    split_ifs at hins
    obtain ⟨-, rfl⟩ := Instr.issue.inj hins
    rfl
  | kCopy | vLoad =>
    obtain ⟨-, rfl⟩ := Instr.issue.inj hins
    rfl
  | sBarrier | waitVmcnt | waitLgkmcnt | gemm0 | gemm1 => cases hins

omit [Zero β] in
/-- **What a wave computes** comes from the cells that its phase reads. -/
lemma waveAct_reads [Fp α] (bf : Bf16Conv α β) (b : BlockCtx α β) {w : Fin 4} {p : ℕ} {m m' : Cell → β}
    (hm : ∀ a, Reads n w p a → m a = m' a) (l : Fin 64 → LaneRegs α) :
    waveAct bf b n w p m l = waveAct bf b n w p m' l := by
  unfold waveAct
  cases hph : (phases n)[p]? with
  | none => rfl
  | some ph =>
    ext i : 1
    refine phaseRegs_local (w := w) (fun tile half he => ?_) (fun _ _ => rfl) ?_ _ (waveOf_laneIn w i)
    · subst he
      intro t ht
      have hcell : ∀ kstep i hi, m (.qReg t kstep i hi) = m' (.qReg t kstep i hi) :=
        fun kstep i hi => hm _ ⟨_, hph, ht.symm⟩
      ext kstep i
      · exact hcell kstep i false
      · exact hcell kstep i true
    · cases ph with
      | gemm0 tile half => exact fun j hj d hd => hm _ ⟨_, hph, j, hj, d, hd, rfl⟩
      | gemm1 tile half => exact fun k hk d hd => hm _ ⟨_, hph, k, hk, d, hd, rfl⟩
      | qLoad | kCopy | vLoad | vStore | waitVmcnt | waitLgkmcnt | sBarrier => trivial

/-! ### Writes -/

/-- The writers: a K copy or a V store of an LDS element, a load of a lane's own register. -/
lemma mayWrite_cases {w : Fin 4} {p : ℕ} {a : Cell} (h : MayWrite (waveProgram c n) w p a) :
    (∃ tile half issue t, ∃ b < 2, (phases n)[p]? = some (.kCopy tile half issue) ∧ w = waveOf t ∧
        a = .lds (kElem (kBuf half) t issue b)) ∨
      (∃ tile half t, ∃ x < 4, ∃ k3 < 2, (phases n)[p]? = some (.vStore tile half) ∧ w = waveOf t ∧
        a = .lds (vElem (vBuf half) t x k3)) ∨
      (∃ tile half k3 t i hi, (phases n)[p]? = some (.vLoad tile half k3) ∧ w = waveOf t ∧
        a = .vReg half t k3 i hi) ∨
      ∃ t kstep i hi, (phases n)[p]? = some (.qLoad kstep) ∧ w = waveOf t ∧
        c.mTileIdx * kM0 + mRow t < c.seqlenQ ∧ a = .qReg t kstep i hi := by
  obtain ⟨ctr, f, m, u, hf, hu⟩ := h
  obtain ⟨ph, hph, hins⟩ := exists_phase hf
  cases a with
  | lds e =>
    rcases lds_writer hins hu with ⟨tile, half, issue, t, b, hb, rfl, hw, rfl⟩ |
      ⟨tile, half, t, x, hx, k3, hk, rfl, hw, rfl⟩
    · exact Or.inl ⟨tile, half, issue, t, b, hb, hph, hw, rfl⟩
    · exact Or.inr (Or.inl ⟨tile, half, t, x, hx, k3, hk, hph, hw, rfl⟩)
  | vReg half t k3 i hi =>
    obtain ⟨hw, tile, rfl⟩ := vReg_writer hins hu
    exact Or.inr (Or.inr (Or.inl ⟨tile, half, k3, t, i, hi, hph, hw, rfl⟩))
  | qReg t kstep i hi =>
    obtain ⟨rfl, hw, hrow, -⟩ := qReg_writer hins hu
    exact Or.inr (Or.inr (Or.inr ⟨t, kstep, i, hi, hph, hw, hrow, rfl⟩))

lemma mayWrite_owned {w : Fin 4} {p : ℕ} {a : Cell} (h : MayWrite (waveProgram c n) w p a) :
    Owned w a := by
  rcases mayWrite_cases h with ⟨tile, half, issue, t, b, hb, -, -, rfl⟩ |
    ⟨tile, half, t, x, hx, k3, hk, -, -, rfl⟩ | ⟨tile, half, k3, t, i, hi, -, hw, rfl⟩ |
    ⟨t, kstep, i, hi, -, hw, -, rfl⟩
  · exact owned_of_inBuffer (kBuf_range half).1 (kBuf_range half).2 (kElem_mem _ t issue.isLt hb)
  · exact owned_of_inBuffer (vBuf_range half).1 (vBuf_range half).2 (vElem_mem _ t hx hk)
  · exact hw
  · exact hw

/-- No operation of a wave writes a cell twice. -/
lemma writesOnce (c : WaveCtx β) (n : ℕ) : WritesOnce (waveProgram c n) := by
  intro w p ctr f m a u u' hf hu hu'
  obtain ⟨ph, -, hins⟩ := exists_phase hf
  cases ph with
  | qLoad kstep =>
    obtain ⟨t, i, hi, rfl⟩ := qReg_of_qLoad hins hu
    exact (qReg_writer hins hu).2.2.2.trans (qReg_writer hins hu').2.2.2.symm
  | kCopy tile half issue =>
    obtain ⟨-, rfl⟩ := Instr.issue.inj hins
    obtain ⟨t, -, b, hb, rfl, rfl⟩ := mem_kWrites.mp hu
    obtain ⟨t', -, b', hb', ha, rfl⟩ := mem_kWrites.mp hu'
    obtain ⟨-, rfl, -, rfl⟩ := kElem_kBuf_inj hb hb' (Cell.lds.inj ha)
    rfl
  | vLoad tile half k3 =>
    obtain ⟨-, rfl⟩ := Instr.issue.inj hins
    obtain ⟨t, -, i, hi, rfl, rfl⟩ := mem_vLoadWrites.mp hu
    obtain ⟨t', -, i', hi', ha, rfl⟩ := mem_vLoadWrites.mp hu'
    obtain ⟨-, rfl, -, rfl, rfl⟩ := Cell.vReg.inj ha
    rfl
  | vStore tile half =>
    obtain ⟨-, rfl⟩ := Instr.issue.inj hins
    obtain ⟨t, -, x, hx, k3, hk, rfl, rfl⟩ := mem_vStoreWrites.mp hu
    obtain ⟨t', -, x', hx', k3', hk', ha, rfl⟩ := mem_vStoreWrites.mp hu'
    obtain ⟨-, rfl, rfl, rfl⟩ := vElem_vBuf_inj hx hx' hk hk' (Cell.lds.inj ha)
    rfl
  | sBarrier | waitVmcnt | waitLgkmcnt | gemm0 | gemm1 => cases hins

/-! ### The order -/

lemma exists_gemm0 {tile : ℕ} (ht : tile < n) (half : Fin 2) :
    ∃ p : ℕ, (phases n)[p]? = some (.gemm0 tile half) := by
  refine ⟨tileAt tile + (6 + 5 * half.val), ?_⟩
  rw [getElem?_tile ht (by omega), tilePhases_eq]
  fin_cases half <;> rfl

lemma exists_gemm1 {tile : ℕ} (ht : tile < n) (half : Fin 2) :
    ∃ p : ℕ, (phases n)[p]? = some (.gemm1 tile half) := by
  obtain rfl | rfl : half = 0 ∨ half = 1 := by omega
  · refine ⟨tileAt tile + 18, ?_⟩
    rw [getElem?_tile ht (by norm_num), tilePhases_eq]
    rfl
  · -- the last tile has no prefetch before its second GEMM1
    by_cases hmore : tile + 1 < n
    · refine ⟨tileAt tile + 28, ?_⟩
      rw [getElem?_tile ht (by norm_num), tilePhases_eq, prefetch_more hmore]
      rfl
    · refine ⟨tileAt tile + 23, ?_⟩
      rw [getElem?_tile ht (by norm_num), tilePhases_eq, prefetch_last hmore]
      rfl

/-- Each write is the last one before the phase that reads it. -/
lemma mayWrite_last (hn : 0 < n) {w : Fin 4} {p : ℕ} {a : Cell}
    (h : MayWrite (waveProgram c n) w p a) :
    ∃ w' r v, LastWrite (waveProgram c n) w p w' r a v := by
  rcases mayWrite_cases h with ⟨tile, half, issue, t, b, hb, hph, rfl, rfl⟩ |
    ⟨tile, half, t, x, hx, k3, hk, hph, rfl, rfl⟩ | ⟨tile, half, k3, t, i, hi, hph, rfl, rfl⟩ |
    ⟨t, kstep, i, hi, hph, rfl, hrow, rfl⟩
  · obtain ⟨ht, -⟩ := placed hn hph
    obtain ⟨r, hr⟩ := exists_gemm0 ht half
    exact ⟨0, r, _, kLastWrite hn hph hr t hb 0⟩
  · obtain ⟨ht, -⟩ := placed hn hph
    obtain ⟨r, hr⟩ := exists_gemm1 ht half
    exact ⟨0, r, _, vLastWrite hn hph hr t hx hk 0⟩
  · obtain ⟨ht, -⟩ := placed hn hph
    obtain ⟨r, hr⟩ := exists_vStore ht half
    exact ⟨_, r, _, vRegLastWrite hn hph hr t i hi⟩
  · obtain rfl : p = kstep.val := placed hn hph
    exact ⟨_, 13, _, qLastWrite hn hrow (by norm_num) kstep i hi⟩

/-- Each read of a cell that is written comes after its last write. -/
lemma reads_last (hn : 0 < n) {w : Fin 4} {r : ℕ} {a : Cell} (h : Reads n w r a)
    (hwrite : ∃ w' p, MayWrite (waveProgram c n) w' p a) :
    ∃ w₀ i v, LastWrite (waveProgram c n) w₀ i w r a v := by
  obtain ⟨ph, hph, hread⟩ := h
  cases ph with
  | gemm0 tile half =>
    obtain ⟨ht, hp⟩ := placed hn hph
    cases a with
    | lds e =>
      obtain ⟨j, hj, d, hd, rfl⟩ := hread
      obtain ⟨t, issue, hi, b, hb, he, -⟩ := Staging.exists_kElem (kBuf half) hj hd
      obtain ⟨i, hcopy⟩ := exists_kCopy ht half ⟨issue, hi⟩
      exact ⟨_, i, _, he ▸ kLastWrite hn hcopy hph t hb w⟩
    | vReg => exact hread.elim
    | qReg t kstep i hi =>
      obtain rfl : w = waveOf t := hread
      obtain ⟨w', p, ctr, f, m, u, hf, hu⟩ := hwrite
      obtain ⟨ph', -, hins⟩ := exists_phase hf
      have hrow := (qReg_writer hins hu).2.2.1
      exact ⟨_, _, _, qLastWrite hn hrow (by unfold tileAt at hp; omega) kstep i hi⟩
  | gemm1 tile half =>
    obtain ⟨ht, -⟩ := placed hn hph
    cases a with
    | lds e =>
      obtain ⟨k, hk, d, hd, rfl⟩ := hread
      obtain ⟨t, x, hx, k3, hk3, he, -⟩ := Staging.exists_vElem (vBuf half) hk hd
      obtain ⟨i, hstore⟩ := exists_vStore ht half
      exact ⟨_, i, _, he ▸ vLastWrite hn hstore hph t hx hk3 w⟩
    | vReg | qReg => exact hread.elim
  | vStore tile half =>
    obtain ⟨ht, -⟩ := placed hn hph
    cases a with
    | vReg half' t k3 d hi =>
      obtain ⟨rfl, rfl⟩ := hread
      obtain ⟨i, hload⟩ := exists_vLoad ht half' k3
      exact ⟨_, i, _, vRegLastWrite hn hload hph t d hi⟩
    | lds | qReg => exact hread.elim
  | qLoad | kCopy | vLoad | waitVmcnt | waitLgkmcnt | sBarrier => exact hread.elim

/-- **The waits and barriers of the tile loop order all accesses.** -/
lemma ordered (c : WaveCtx β) (hn : 0 < n) : Ordered (waveProgram c n) (Reads n) :=
  ordered_of_lastWrite (aligned c n) (writesOnce c n) (fun _ _ _ h => mayWrite_last hn h)
    fun _ _ _ h hwrite => reads_last hn h hwrite

variable {s : State (Fin 4) Cell β}

/-- **No race, and no access outside.** In every state that the four waves can reach, no two
outstanding operations write one cell and none writes what a wave reads where it stands; every
outstanding write and every read is in the block's LDS or in the wave's own lanes; and what a wave
computes there depends on those reads only. -/
theorem waves_raceFree [Fp α] (bf : Bf16Conv α β) (b : BlockCtx α β) (hn : 0 < n)
    (hs : Reachable (waveProgram c n) s) :
    RaceFree (Reads n) s ∧
      (∀ w ctr, ∀ e ∈ (s.waves w).queue ctr, ∀ a u, (a, u) ∈ e.pending → Owned w a) ∧
      (∀ w a, Reads n w (s.waves w).pc a → Owned w a) ∧
      ∀ w m l, (∀ a, Reads n w (s.waves w).pc a → s.mem a = m a) →
        waveAct bf b n w (s.waves w).pc s.mem l = waveAct bf b n w (s.waves w).pc m l := by
  refine ⟨(ordered c hn).raceFree (aligned c n) hs, fun w ctr e he a u hu => ?_,
    fun w a h => reads_owned h, fun w m l hm => waveAct_reads bf b hm l⟩
  obtain ⟨f, m, hf, hm⟩ := ((reachable_inv (aligned c n) hs).queues w ctr).source e he
  exact mayWrite_owned ⟨ctr, f, m, u, hf, hm _ hu⟩

/-- Two tiles, 128 queries: no race at the first GEMM0 of the second tile. -/
theorem waves_raceFree_second :
    let c : WaveCtx XReal := ⟨fun e => .fin e, fun e => .fin e, fun e => .fin e, 64, 64, 64, 128, 0⟩
    ∃ s, Reachable (waveProgram c 2) s ∧ (∀ w, (s.waves w).pc = tileAt 1 + 6) ∧
      RaceFree (Reads 2) s := by
  intro c
  have hlen : ∀ w, tileAt 1 + 6 ≤ (waveProgram c 2 w).length := fun w => by
    rw [waveProgram, List.length_map]
    exact Nat.le_of_ble_eq_true rfl
  obtain ⟨s, hs, hpc⟩ := exists_reachable (aligned c 2) (fun _ => 0) hlen
  let p : FmhaFwdParams XReal XReal := (Launch.bhsd false false (fun e => .fin e) (fun e => .fin e)
    (fun e => .fin e) (.fin 1) 1 1 1 128 128 one_pos one_pos (by norm_num) (by norm_num)).params
  exact ⟨s, hs, hpc, (waves_raceFree XReal.exact (blockCtx false false p 0 0 0) two_pos hs).1⟩

/-- **One final state.** Whatever order the waves, the copies and the stores take, every run from
a memory can be carried on to the same state, and a run that cannot be carried on has reached
it. -/
theorem waves_one_final (c : WaveCtx β) (hn : 0 < n) (m : Cell → β) :
    ∃ t, Done (waveProgram c n) t ∧ ∀ s, Run (waveProgram c n) m s →
      ReflTransGen (Step (waveProgram c n)) s t ∧
        ((∀ s', ¬ Step (waveProgram c n) s s') → s = t) := by
  obtain ⟨t, hdone, ht⟩ := (ordered c hn).exists_final (aligned c n) (reads_local c n)
    (writesAtMost c n) m
  refine ⟨t, hdone, fun s hs => ⟨ht s hs, fun hstuck => ?_⟩⟩
  rcases (ht s hs).cases_head with rfl | ⟨s', hstep, -⟩
  · rfl
  · exact absurd hstep (hstuck s')

/-- One tile, from LDS and registers full of zeros. -/
theorem waves_one_final_tile :
    let c : WaveCtx ℤ := ⟨id, id, id, 64, 64, 64, 128, 0⟩
    ∃ t, Done (waveProgram c 1) t ∧ ∀ s, Run (waveProgram c 1) (fun _ => 0) s →
      ReflTransGen (Step (waveProgram c 1)) s t ∧
        ((∀ s', ¬ Step (waveProgram c 1) s s') → s = t) :=
  waves_one_final _ one_pos _

end Program

end FmhaNative.BlockRaces
