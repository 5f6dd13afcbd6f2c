import FmhaNative.Launch
import FmhaNative.LdsPipeline
import FmhaNative.WaveRuns

/-!
The registers of the four waves, and the block in lockstep.

The waves run on their own, with LDS and the V and Q registers filled by operations that land
whenever they land. Each keeps the accumulators, the running maximum and the running sum of its
64 lanes. Nothing that a wave computes comes from another wave's registers, and what it finds in
LDS is what the lockstep block has staged there; so at every phase it holds what the lockstep
block holds.
-/

namespace FmhaNative.WaveRegisters

open AsyncWaves Phases Pipeline LdsPipeline WaveRuns OpLds OpGemm OpSoftmax OpEpilog RowRecurrence Fp

variable {α β : Type*}

/-! ### The lanes of a wave -/

lemma laneIn_lt (w : Fin 4) (i : Fin 64) : 64 * w.val + i.val < 256 := by
  omega

def laneIn (w : Fin 4) (i : Fin 64) : Thread := ⟨64 * w.val + i.val, laneIn_lt w i⟩
def laneOf (t : Thread) : Fin 64 := ⟨t.val % 64, by omega⟩

@[simp] lemma laneIn_laneOf (t : Thread) : laneIn (waveOf t) (laneOf t) = t := by
  ext
  simp only [laneIn, waveOf, laneOf, warpId_eq]
  omega

@[simp] lemma waveOf_laneIn (w : Fin 4) (i : Fin 64) : waveOf (laneIn w i) = w := by
  ext
  simp only [laneIn, waveOf, warpId_eq]
  omega

@[simp] lemma waveOf_inWave (t : Thread) (l : ℕ) : waveOf (inWave t l) = waveOf t := by
  ext
  simp only [waveOf, warpId_eq, inWave_val]
  omega

/-- Equal on the lanes of a wave. -/
def SameOn {X : Type*} (w : Fin 4) (f g : Thread → X) : Prop := ∀ t, waveOf t = w → f t = g t

/-! ### The registers of a lane, phase by phase -/

/-- What a lane carries besides its operands: the scores of the tile, then its probabilities; the
running maximum and sum; the numerators. -/
@[ext]
structure LaneRegs (α : Type*) where
  (sAccN0 sAccN1 : V16f α)
  (rmax rsum : α)
  (oAccD0 oAccD1 : V16f α)

variable [Fp α]

def regsInit : LaneRegs α := ⟨clearAcc, clearAcc, lit (-5000), 0, clearAcc, clearAcc⟩

def clearScores (r : Thread → LaneRegs α) : Thread → LaneRegs α :=
  fun t => { r t with sAccN0 := clearAcc, sAccN1 := clearAcc }

def gemm0Regs (bf : Bf16Conv α β) (q : Thread → Fin 4 → V4i β) (lds : Mem β) (half : Fin 2)
    (r : Thread → LaneRegs α) : Thread → LaneRegs α :=
  let sAcc := gemm0Subtile bf (fun t => (r t).sAccN0) (fun t => (r t).sAccN1) (sliceQ q half) lds
    (kBuf half)
  fun t => { r t with sAccN0 := sAcc.1 t, sAccN1 := sAcc.2 t }

def maskRegs (c : BlockCtx α β) (kvOffset : ℤ) (r : Thread → LaneRegs α) (t : Thread) :
    V16f α × V16f α :=
  softmaxMask c.hasMask (r t).sAccN0 (r t).sAccN1 c.seqlenK kvOffset (c.mTileIdx * kM0 + mRow t)
    c.maskShift (c.mTileIdx * kM0) t

def maxRegs (c : BlockCtx α β) (kvOffset : ℤ) (r : Thread → LaneRegs α) : Thread → α :=
  softmaxRowMax (fun t => (maskRegs c kvOffset r t).1) (fun t => (maskRegs c kvOffset r t).2)
    fun t => (r t).rmax

/-- The probabilities of the tile, in the score registers. -/
def expRegs (c : BlockCtx α β) (kvOffset : ℤ) (r : Thread → LaneRegs α) (t : Thread) :
    V16f α × V16f α :=
  let scaleM := c.scale * maxRegs c kvOffset r t
  (softmaxExp2 (maskRegs c kvOffset r t).1 c.scale scaleM,
    softmaxExp2 (maskRegs c kvOffset r t).2 c.scale scaleM)

/-- Both parts of the softmax, and the correction of what the lane carries. -/
def softmaxRegs (c : BlockCtx α β) (kvOffset : ℤ) (r : Thread → LaneRegs α) :
    Thread → LaneRegs α :=
  let mNew := maxRegs c kvOffset r
  let lNew := softmaxRowSum (fun t => (expRegs c kvOffset r t).1) fun t => (expRegs c kvOffset r t).2
  fun t =>
    let rescale := exp2f (c.scale * sub (r t).rmax (mNew t))
    { sAccN0 := (expRegs c kvOffset r t).1
      sAccN1 := (expRegs c kvOffset r t).2
      rmax := mNew t
      rsum := rescale * (r t).rsum + lNew t
      oAccD0 := rescaleOAcc (r t).oAccD0 rescale
      oAccD1 := rescaleOAcc (r t).oAccD1 rescale }

def gemm1Regs (bf : Bf16Conv α β) (lds : Mem β) (half : Fin 2) (p : Thread → V16f α)
    (r : Thread → LaneRegs α) : Thread → LaneRegs α :=
  let oAcc := gemm1Subtile bf (fun t => (r t).oAccD0) (fun t => (r t).oAccD1) p lds (vBuf half)
  fun t => { r t with oAccD0 := oAcc.1 t, oAccD1 := oAcc.2 t }

/-- What a phase makes of the registers, from the LDS that it finds. The softmax, which touches
registers only, is taken together with the second GEMM0. -/
def phaseRegs (bf : Bf16Conv α β) (c : BlockCtx α β) (q : Thread → Fin 4 → V4i β) (lds : Mem β)
    (ph : Phase) (r : Thread → LaneRegs α) : Thread → LaneRegs α :=
  match ph with
  | .gemm0 tile half =>
    if half = 0 then gemm0Regs bf q lds 0 (clearScores r)
    else softmaxRegs c (Loads.ivAt c.strideK c.strideV tile).kvOffset (gemm0Regs bf q lds 1 r)
  | .gemm1 _ half =>
    if half = 0 then gemm1Regs bf lds 0 (fun t => (r t).sAccN0) r
    else gemm1Regs bf lds 1 (fun t => (r t).sAccN1) r
  | _ => r

/-! ### A wave computes on its own -/

/-- Two LDS contents that a phase cannot tell apart. -/
def SameReads (lds lds' : Mem β) : Phase → Prop
  | .gemm0 _ half => ∀ j < 64, ∀ d < 32, lds (bufBaseElems (kBuf half) + ldsElemOffset j d)
      = lds' (bufBaseElems (kBuf half) + ldsElemOffset j d)
  | .gemm1 _ half => ∀ k < 32, ∀ d < 64, lds (bufBaseElems (vBuf half) + vLdsElemOffset k d)
      = lds' (bufBaseElems (vBuf half) + vLdsElemOffset k d)
  | _ => True

section Local

variable {w : Fin 4} {bf : Bf16Conv α β} {c : BlockCtx α β}

/-- A matrix instruction reads lanes of the wave. -/
lemma mfma4_local (bf : Bf16Conv α β) {a a' b b' : Fin 2 → Fin 2 → Thread → V4h β} {x x' : Thread → V16f α}
    (ha : ∀ kstep pass, a kstep pass = a' kstep pass)
    (hb : ∀ kstep pass, SameOn w (b kstep pass) (b' kstep pass)) (hx : SameOn w x x') :
    SameOn w (mfma4 bf a b x) (mfma4 bf a' b' x') := by
  have key : ∀ {a a' b b' : Thread → V4h β} {x x' : Thread → V16f α}, a = a' → SameOn w b b' →
      SameOn w x x' → SameOn w (mfma bf a b x) (mfma bf a' b' x') := by
    intro a a' b b' x x' ha hb hx t ht
    ext r
    simp only [mfma, ha, hx t ht]
    congr 1
    refine Finset.sum_congr rfl fun h _ => Finset.sum_congr rfl fun e _ => ?_
    rw [hb _ ((waveOf_inWave t _).trans ht)]
  exact key (ha 1 1) (hb 1 1) (key (ha 1 0) (hb 1 0) (key (ha 0 1) (hb 0 1)
    (key (ha 0 0) (hb 0 0) hx)))

omit [Fp α] in
lemma kOperand_congr {lds lds' : Mem β} {bufIdx : ℤ} {half : ℕ} (hhalf : half ≤ 32)
    (h : ∀ j < 64, ∀ d < 32, lds (bufBaseElems bufIdx + ldsElemOffset j d)
      = lds' (bufBaseElems bufIdx + ldsElemOffset j d)) (kstep pass : Fin 2) :
    (fun t => passSlice (kOperand lds bufIdx half kstep t) pass)
      = fun t => passSlice (kOperand lds' bufIdx half kstep t) pass := by
  ext t e
  rw [passSlice_apply, passSlice_apply, kOperand_elem hhalf h t kstep (by omega),
    kOperand_elem hhalf (fun _ _ _ _ => rfl) t kstep (by omega)]

omit [Fp α] in
lemma vOperand_congr {lds lds' : Mem β} {bufIdx : ℤ} {half : ℕ} (hhalf : half ≤ 32)
    (h : ∀ k < 32, ∀ d < 64, lds (bufBaseElems bufIdx + vLdsElemOffset k d)
      = lds' (bufBaseElems bufIdx + vLdsElemOffset k d)) (kstep pass : Fin 2) :
    (fun t => passSlice (vOperand lds bufIdx half kstep t) pass)
      = fun t => passSlice (vOperand lds' bufIdx half kstep t) pass := by
  ext t e
  rw [passSlice_apply, passSlice_apply, vOperand_elem hhalf h t kstep (by omega),
    vOperand_elem hhalf (fun _ _ _ _ => rfl) t kstep (by omega)]

lemma gemm0Regs_local {q q' : Thread → Fin 4 → V4i β} {lds lds' : Mem β} {half : Fin 2}
    {r r' : Thread → LaneRegs α} (hq : SameOn w q q') (hr : SameOn w r r')
    (hlds : ∀ j < 64, ∀ d < 32, lds (bufBaseElems (kBuf half) + ldsElemOffset j d)
      = lds' (bufBaseElems (kBuf half) + ldsElemOffset j d)) :
    SameOn w (gemm0Regs bf q lds half r) (gemm0Regs bf q' lds' half r') := by
  have hb : ∀ kstep pass : Fin 2, SameOn w (fun t => passSlice (sliceQ q half t kstep) pass)
      fun t => passSlice (sliceQ q' half t kstep) pass := fun kstep pass t ht => by
    simp only [sliceQ, hq t ht]
  have h0 := mfma4_local bf (kOperand_congr (Nat.zero_le 32) hlds) hb
    (fun t ht => congrArg LaneRegs.sAccN0 (hr t ht))
  have h1 := mfma4_local bf (kOperand_congr le_rfl hlds) hb
    (fun t ht => congrArg LaneRegs.sAccN1 (hr t ht))
  intro t ht
  simp only [gemm0Regs, gemm0Subtile_eq, h0 t ht, h1 t ht, hr t ht]

lemma gemm1Regs_local {lds lds' : Mem β} {half : Fin 2} {p p' : Thread → V16f α}
    {r r' : Thread → LaneRegs α} (hp : SameOn w p p') (hr : SameOn w r r')
    (hlds : ∀ k < 32, ∀ d < 64, lds (bufBaseElems (vBuf half) + vLdsElemOffset k d)
      = lds' (bufBaseElems (vBuf half) + vLdsElemOffset k d)) :
    SameOn w (gemm1Regs bf lds half p r) (gemm1Regs bf lds' half p' r') := by
  have hb : ∀ kstep pass : Fin 2, SameOn w (pOperand bf p kstep pass) (pOperand bf p' kstep pass) :=
    fun kstep pass t ht => by simp only [pOperand, hp t ht]
  have h0 := mfma4_local bf (vOperand_congr (Nat.zero_le 32) hlds) hb
    (fun t ht => congrArg LaneRegs.oAccD0 (hr t ht))
  have h1 := mfma4_local bf (vOperand_congr le_rfl hlds) hb
    (fun t ht => congrArg LaneRegs.oAccD1 (hr t ht))
  intro t ht
  simp only [gemm1Regs, gemm1Subtile_eq, h0 t ht, h1 t ht, hr t ht]

/-- The exchange of `ds_bpermute` stays in the wave. -/
lemma softmaxRegs_local {kvOffset : ℤ} {r r' : Thread → LaneRegs α} (hr : SameOn w r r') :
    SameOn w (softmaxRegs c kvOffset r) (softmaxRegs c kvOffset r') := by
  have hmask : SameOn w (maskRegs c kvOffset r) (maskRegs c kvOffset r') := fun t ht => by
    simp only [maskRegs, hr t ht]
  have hmax : SameOn w (maxRegs c kvOffset r) (maxRegs c kvOffset r') := fun t ht => by
    have hp : waveOf (inWave t (partner t)) = w := (waveOf_inWave t _).trans ht
    simp only [maxRegs, softmaxRowMax, bpermuteF32, hmask t ht, hmask _ hp, hr t ht, hr _ hp]
  have hexp : SameOn w (expRegs c kvOffset r) (expRegs c kvOffset r') := fun t ht => by
    simp only [expRegs, hmask t ht, hmax t ht]
  intro t ht
  have hp : waveOf (inWave t (partner t)) = w := (waveOf_inWave t _).trans ht
  simp only [softmaxRegs, softmaxRowSum, bpermuteF32, hexp t ht, hexp _ hp, hmax t ht, hr t ht]

/-- **A wave computes on its own**: its registers after a phase come from its registers, its
query registers and the part of LDS that the phase reads. -/
theorem phaseRegs_local {q q' : Thread → Fin 4 → V4i β} {lds lds' : Mem β} {ph : Phase}
    {r r' : Thread → LaneRegs α} (hq : ∀ tile half, ph = .gemm0 tile half → SameOn w q q')
    (hr : SameOn w r r') (hlds : SameReads lds lds' ph) :
    SameOn w (phaseRegs bf c q lds ph r) (phaseRegs bf c q' lds' ph r') := by
  cases ph with
  | gemm0 tile half =>
    have hq' := hq tile half rfl
    obtain rfl | rfl : half = 0 ∨ half = 1 := by omega
    · exact gemm0Regs_local hq' (fun t ht => by simp only [clearScores, hr t ht]) hlds
    · exact softmaxRegs_local (gemm0Regs_local hq' hr hlds)
  | gemm1 tile half =>
    obtain rfl | rfl : half = 0 ∨ half = 1 := by omega
    · exact gemm1Regs_local (fun t ht => congrArg LaneRegs.sAccN0 (hr t ht)) hr hlds
    · exact gemm1Regs_local (fun t ht => congrArg LaneRegs.sAccN1 (hr t ht)) hr hlds
  | qLoad | kCopy | vLoad | vStore | waitVmcnt | waitLgkmcnt | sBarrier => exact hr

end Local

/-! ### The four waves with their registers -/

/-- The LDS and the query registers as memory cells. -/
def ldsCells (m : Cell → β) : Mem β := fun e => m (.lds e)
def qCells (m : Cell → β) : Thread → Fin 4 → V4i β := fun t kstep i =>
  ⟨m (.qReg t kstep i false), m (.qReg t kstep i true)⟩

/-- What wave `w` does at position `p` with the registers of its lanes. The block's functions
take all four waves; the other three get the same registers, which by `phaseRegs_local` never
reach this one. -/
def waveAct (bf : Bf16Conv α β) (c : BlockCtx α β) (n : ℕ) (w : Fin 4) (p : ℕ) (m : Cell → β)
    (l : Fin 64 → LaneRegs α) : Fin 64 → LaneRegs α :=
  match (phases n)[p]? with
  | some ph => fun i =>
      phaseRegs bf c (qCells m) (ldsCells m) ph (fun t => l (laneOf t)) (laneIn w i)
  | none => l

/-- The waves of a block of a launch. -/
def waveCtx (isVarlen : Bool) (p : FmhaFwdParams α β) (batchIdx headIdx mTileIdx : ℤ) :
    WaveCtx β :=
  { srdQ := makeBufferResource p.q (qBase isVarlen p batchIdx headIdx)
    srdK := makeBufferResource p.k (kBase isVarlen p batchIdx headIdx)
    srdV := makeBufferResource p.v (vBase isVarlen p batchIdx headIdx)
    strideQ := p.strideQ
    strideK := p.strideK
    strideV := p.strideV
    seqlenQ := (resolveSeq isVarlen p batchIdx).seqlenQ
    mTileIdx := mTileIdx }

/-- The memory that the waves start from: a lane past the last query has zeroed its query
registers itself. -/
def ZeroedQ [Zero β] (c : WaveCtx β) (m : Cell → β) : Prop :=
  ∀ t, c.seqlenQ ≤ c.mTileIdx * kM0 + mRow t → ∀ kstep i hi, m (.qReg t kstep i hi) = 0

section Query

variable [Zero β] {c : WaveCtx β} {n : ℕ}

omit [Fp α] in
lemma mem_qWrites {w kstep : Fin 4} {a : Cell} {u : β} : (a, u) ∈ qWrites c w kstep ↔
    ∃ t, w = waveOf t ∧ c.mTileIdx * kM0 + mRow t < c.seqlenQ ∧ ∃ i hi, a = .qReg t kstep i hi ∧
      u = if hi then (loadQ c.srdQ c.strideQ c.seqlenQ c.mTileIdx t kstep i).hi
        else (loadQ c.srdQ c.strideQ c.seqlenQ c.mTileIdx t kstep i).lo := by
  simp only [qWrites, List.mem_flatMap, mem_waveLanes, eq_waveOf]
  constructor
  · rintro ⟨t, ht, h⟩
    split_ifs at h with hrow
    · obtain ⟨i, -, h⟩ := List.mem_flatMap.mp h
      obtain ⟨hi, ha, hu⟩ := mem_dwordCells.mp h
      exact ⟨t, ht, hrow, i, hi, ha, hu⟩
    · exact absurd h List.not_mem_nil
  · rintro ⟨t, ht, hrow, i, hi, ha, hu⟩
    refine ⟨t, ht, ?_⟩
    rw [if_pos hrow]
    exact List.mem_flatMap.mpr ⟨i, List.mem_finRange i, mem_dwordCells.mpr ⟨hi, ha, hu⟩⟩

omit [Fp α] in
/-- A query register is written by the lane's own load of that slice, when it owns a row. -/
lemma qReg_writer {w : Fin 4} {ph : Phase} {ctr : Counter} {f : (Cell → β) → List (Cell × β)}
    {m : Cell → β} {t : Thread} {kstep i : Fin 4} {hi : Bool} {u : β}
    (hins : instr c w ph = .issue ctr f) (h : (.qReg t kstep i hi, u) ∈ f m) :
    ph = .qLoad kstep ∧ w = waveOf t ∧ c.mTileIdx * kM0 + mRow t < c.seqlenQ ∧
      u = if hi then (loadQ c.srdQ c.strideQ c.seqlenQ c.mTileIdx t kstep i).hi
        else (loadQ c.srdQ c.strideQ c.seqlenQ c.mTileIdx t kstep i).lo := by
  cases ph with
  | qLoad kstep' =>
    simp only [instr] at hins
    split_ifs at hins
    obtain ⟨-, rfl⟩ := Instr.issue.inj hins
    obtain ⟨t', ht, hrow, i', hi', ha, hu⟩ := mem_qWrites.mp h
    obtain ⟨rfl, rfl, rfl, rfl⟩ := Cell.qReg.inj ha
    exact ⟨rfl, ht, hrow, hu⟩
  | kCopy tile half issue =>
    obtain ⟨-, rfl⟩ := Instr.issue.inj hins
    obtain ⟨t, -, b, -, ha, -⟩ := mem_kWrites.mp h
    cases ha
  | vStore tile half =>
    obtain ⟨-, rfl⟩ := Instr.issue.inj hins
    obtain ⟨t, -, x, -, k3, -, ha, -⟩ := mem_vStoreWrites.mp h
    cases ha
  | vLoad tile half k3 =>
    obtain ⟨-, rfl⟩ := Instr.issue.inj hins
    obtain ⟨t, -, i, hb, ha, -⟩ := mem_vLoadWrites.mp h
    cases ha
  | sBarrier | waitVmcnt | waitLgkmcnt | gemm0 | gemm1 => cases hins

omit [Fp α] in
/-- The last write to a query register is its load, complete before the first GEMM0. -/
lemma qLastWrite (hn : 0 < n) {t : Thread} (hrow : c.mTileIdx * kM0 + mRow t < c.seqlenQ)
    {r : ℕ} (hr : 12 < r) (kstep i : Fin 4) (hi : Bool) :
    LastWrite (waveProgram c n) (waveOf t) kstep.val (waveOf t) r (.qReg t kstep i hi)
      (if hi then (loadQ c.srdQ c.strideQ c.seqlenQ c.mTileIdx t kstep i).hi
        else (loadQ c.srdQ c.strideQ c.seqlenQ c.mTileIdx t kstep i).lo) := by
  have hload : (phases n)[kstep.val]? = some (.qLoad kstep) := by
    fin_cases kstep <;> rfl
  have hhas : waveHasRow c (waveOf t) := ⟨t, mem_waveLanes.mpr (eq_waveOf.mpr rfl), hrow⟩
  have hins : instr c (waveOf t) (.qLoad kstep)
      = .issue .vm fun _ => qWrites c (waveOf t) kstep := by
    simp only [instr, if_pos hhas]
  have hissue : (waveProgram c n (waveOf t))[kstep.val]?
      = some (.issue .vm fun _ => qWrites c (waveOf t) kstep) := hins ▸ program_of hload
  refine ⟨fun s _ _ => ⟨.vm, _, hissue, mem_qWrites.mpr ⟨t, rfl, hrow, i, hi, rfl, rfl⟩,
    fun u hu => (qReg_writer hins (m := s.mem) hu).2.2.2⟩, ?_, ?_⟩
  · -- the wait before the first GEMM0 lets through all but the four copies of K half 1
    obtain ⟨hw4, -, -, -⟩ := waitVmcnt_at hn
    refine ⟨.vm, _, tileAt 0 + 4, hissue, ⟨?_, 4, program_of hw4,
      Finset.Ico (tileAt 0) (tileAt 0 + 4), by rw [Nat.card_Ico]; omega, fun j hj => ?_⟩,
      Or.inl ⟨rfl, hr⟩⟩
    · unfold tileAt
      omega
    · obtain ⟨hj1, hj2⟩ := Finset.mem_Ico.mp hj
      obtain ⟨o, rfl⟩ := Nat.exists_eq_add_of_le hj1
      refine ⟨?_, hj2, _, program_of (kCopy1_at hn ⟨o, by omega⟩)⟩
      unfold tileAt
      omega
  · intro w' p ctr f m u hf hu
    obtain ⟨ph, hph, hins'⟩ := exists_phase hf
    obtain ⟨rfl, rfl, -, -⟩ := qReg_writer hins' hu
    exact Or.inl ⟨rfl, placed hn hph⟩

omit [Fp α] in
/-- **The query registers** at every GEMM0: the loaded slices, and zero past the last query. -/
lemma qCells_eq {L : Type*} {act : Fin 4 → ℕ → (Cell → β) → L → L} {m : Cell → β} {l₀ l : Fin 4 → L}
    {s : State (Fin 4) Cell β} (hn : 0 < n) (hm : ZeroedQ c m)
    (hs : Computes (waveProgram c n) act m l₀ s l) {w : Fin 4} {tile : ℕ} {half : Fin 2}
    (hpc : (phases n)[(s.waves w).pc]? = some (.gemm0 tile half)) :
    SameOn w (qCells s.mem) (loadQ c.srdQ c.strideQ c.seqlenQ c.mTileIdx) := by
  rintro t rfl
  obtain ⟨-, hp⟩ := placed hn hpc
  have hlt : 12 < (s.waves (waveOf t)).pc := by
    unfold tileAt at hp
    omega
  have hcell : ∀ kstep i hi, s.mem (.qReg t kstep i hi)
      = if hi then (loadQ c.srdQ c.strideQ c.seqlenQ c.mTileIdx t kstep i).hi
        else (loadQ c.srdQ c.strideQ c.seqlenQ c.mTileIdx t kstep i).lo := by
    intro kstep i hi
    by_cases hrow : c.mTileIdx * kM0 + mRow t < c.seqlenQ
    · exact settled (aligned c n) (qLastWrite hn hrow hlt kstep i hi) hs.reachable rfl
    · rw [hs.mem_eq (aligned c n), hm t (not_lt.mp hrow), loadQ, if_neg hrow]
      · split_ifs <;> rfl
      · intro w' p ctr f m' u hf hu
        obtain ⟨ph, -, hins⟩ := exists_phase hf
        exact hrow (qReg_writer hins hu).2.2.1
  ext kstep i
  · exact hcell kstep i false
  · exact hcell kstep i true

end Query

/-! ### The lockstep block, phase by phase -/

section Lockstep

variable [Zero β] {bf : Bf16 α β} {c : BlockCtx α β} {lds : Mem β}

/-- The lockstep block at the head of a tile. -/
def lockState (bf : Bf16 α β) (c : BlockCtx α β) (lds : Mem β) (tile : ℕ) : TileState α β :=
  (tileBody bf c)^[tile] (tileInit c lds)

/-- LDS as a GEMM of the lockstep block finds it. -/
def lockLds (bf : Bf16 α β) (c : BlockCtx α β) (lds : Mem β) : Phase → Mem β
  | .gemm0 tile _ => tileK c (lockState bf c lds tile)
  | .gemm1 tile half =>
    let s := lockState bf c lds tile
    if half = 0 then
      storeVToLds (tileK c s) (loadVFromDram c.srdV c.strideV s.iv.kvVByte) (ldsSeq 2)
    else (tileBody bf c s).lds
  | _ => lds

def lockPhase (bf : Bf16 α β) (c : BlockCtx α β) (lds : Mem β) (r : Thread → LaneRegs α)
    (ph : Phase) : Thread → LaneRegs α :=
  phaseRegs bf c c.qRegs (lockLds bf c lds ph) ph r

/-- The registers of the lockstep block before the phase at position `p`. -/
def lockRegs (bf : Bf16 α β) (c : BlockCtx α β) (lds : Mem β) (n p : ℕ) : Thread → LaneRegs α :=
  ((phases n).take p).foldl (lockPhase bf c lds) fun _ => regsInit

/-- The registers that the loop carries, whatever the score registers hold. -/
def Carries (s : TileState α β) (r : Thread → LaneRegs α) : Prop :=
  ∀ t, (r t).rmax = s.rmax t ∧ (r t).rsum = s.rsum t ∧ (r t).oAccD0 = s.oAccD0 t ∧
    (r t).oAccD1 = s.oAccD1 t

lemma lockRegs_succ {n p : ℕ} {ph : Phase} (h : (phases n)[p]? = some ph) :
    lockRegs bf c lds n (p + 1) = lockPhase bf c lds (lockRegs bf c lds n p) ph := by
  unfold lockRegs
  rw [List.take_add_one, h, List.foldl_append]
  rfl

variable {Q : ℕ → ℕ → β}

/-- The four GEMMs of a tile are a round of the loop. -/
lemma gemms_tileBody {tile : ℕ} {r : Thread → LaneRegs α}
    (hkv : (lockState bf c lds tile).iv.kvOffset = (Loads.ivAt c.strideK c.strideV tile).kvOffset)
    (h : Carries (lockState bf c lds tile) r) :
    Carries (lockState bf c lds (tile + 1))
      ([Phase.gemm0 tile 0, .gemm0 tile 1, .gemm1 tile 0, .gemm1 tile 1].foldl
        (lockPhase bf c lds) r) := by
  obtain ⟨s, hs⟩ : ∃ s, s = lockState bf c lds tile := ⟨_, rfl⟩
  have hsucc : lockState bf c lds (tile + 1) = tileBody bf c (lockState bf c lds tile) :=
    Function.iterate_succ_apply' _ _ _
  have hr : r = fun t => ⟨(r t).sAccN0, (r t).sAccN1, s.rmax t, s.rsum t, s.oAccD0 t, s.oAccD1 t⟩ := by
    funext t
    obtain ⟨h1, h2, h3, h4⟩ := h t
    rw [hs, ← h1, ← h2, ← h3, ← h4]
  rw [hsucc, hr]
  intro t
  simp only [List.foldl_cons, List.foldl_nil, lockPhase, phaseRegs, lockLds, if_true,
    one_ne_zero, if_false, ← hkv, ← hs]
  exact ⟨rfl, rfl, rfl, rfl⟩

def isGemm : Phase → Bool
  | .gemm0 _ _ | .gemm1 _ _ => true
  | _ => false

lemma filter_tilePhases (n tile : ℕ) : (tilePhases n tile).filter isGemm
    = [.gemm0 tile 0, .gemm0 tile 1, .gemm1 tile 0, .gemm1 tile 1] := by
  rw [tilePhases_eq]
  by_cases hmore : tile + 1 < n
  · rw [prefetch_more hmore]
    rfl
  · rw [prefetch_last hmore]
    rfl

/-- The other phases leave the registers alone. -/
lemma foldl_isGemm (l : List Phase) (r : Thread → LaneRegs α) :
    l.foldl (lockPhase bf c lds) r = (l.filter isGemm).foldl (lockPhase bf c lds) r := by
  induction l generalizing r with
  | nil => rfl
  | cons ph l ih =>
    cases ph with
    | gemm0 tile half => exact ih _
    | gemm1 tile half => exact ih _
    | qLoad | kCopy | vLoad | vStore | waitVmcnt | waitLgkmcnt | sBarrier => exact ih r

/-- Past the last phase, the registers hold what the lockstep loop ends with. -/
lemma lockRegs_carries (hq : HoldsRows c.qRegs Q) {p : ℕ}
    (hp : (phases c.numTotalLoop.toNat).length ≤ p) :
    Carries (lockState bf c lds c.numTotalLoop.toNat)
      (lockRegs bf c lds c.numTotalLoop.toNat p) := by
  have hrounds : ∀ k ≤ c.numTotalLoop.toNat, Carries (lockState bf c lds k)
      (((List.range k).flatMap (tilePhases c.numTotalLoop.toNat)).foldl (lockPhase bf c lds)
        fun _ => regsInit) := by
    intro k hk
    induction k with
    | zero => exact fun t => ⟨rfl, rfl, rfl, rfl⟩
    | succ k ih =>
      rw [List.range_succ, List.flatMap_append, List.foldl_append, List.flatMap_singleton,
        foldl_isGemm (tilePhases _ k), filter_tilePhases]
      refine gemms_tileBody ?_ (ih (by omega))
      rw [lockState, (iterate_tileInv hq lds (by omega : k ≤ _)).kvOffset (by omega),
        Loads.ivAt_eq]
  unfold lockRegs
  rw [List.take_of_length_le hp, phases, List.foldl_append]
  exact hrounds _ le_rfl

/-! ### What the GEMMs find in lockstep -/

lemma tileK_layout {tile : ℕ} {s : TileState α β} (h : TileInv bf c Q tile s)
    (hk : (tile : ℤ) < c.numTotalLoop) (half : Fin 2) {j d : ℕ} (hj : j < 64) (hd : d < 32) :
    tileK c s (bufBaseElems (kBuf half) + ldsElemOffset j d)
      = ctxK c (64 * tile + j) (32 * half.val + d) := by
  obtain rfl | rfl : half = 0 ∨ half = 1 := by omega
  · -- half 1 goes to another buffer than half 0
    have hlt := Staging.ldsElemOffset_lt hj hd
    have hold := h.lds hk j hj d hd
    rw [tileK, asyncCopyKSubtile_frame (by rw [h.kvKByte hk]; exact Dvd.intro _ rfl)]
    · rw [Fin.val_zero, Nat.mul_zero, Nat.zero_add]
      exact hold
    · left
      have h0 : bufBaseElems (kBuf 0) = 2304 := rfl
      have h1 : bufBaseElems (ldsSeq 1) = 4608 := rfl
      omega
  · rw [tileK, h.kvKByte hk, h.kColOffset hk]
    exact kCopy_layout c _ tile 32 _ hj hd

/-- GEMM0 of the lockstep block finds the K half of its tile. -/
lemma lockLds_gemm0 (hq : HoldsRows c.qRegs Q) {tile : ℕ} (ht : tile < c.numTotalLoop.toNat)
    (half : Fin 2) {j d : ℕ} (hj : j < 64) (hd : d < 32) :
    lockLds bf c lds (.gemm0 tile half) (bufBaseElems (kBuf half) + ldsElemOffset j d)
      = ctxK c (64 * tile + j) (32 * half.val + d) := by
  have hinv : TileInv bf c Q tile (lockState bf c lds tile) := iterate_tileInv hq lds (by omega)
  exact tileK_layout hinv (by omega) half hj hd

/-- GEMM1 of the lockstep block finds the V half of its tile. -/
lemma lockLds_gemm1 (hq : HoldsRows c.qRegs Q) {tile : ℕ} (ht : tile < c.numTotalLoop.toNat)
    (half : Fin 2) {k d : ℕ} (hk : k < 32) (hd : d < 64) :
    lockLds bf c lds (.gemm1 tile half) (bufBaseElems (vBuf half) + vLdsElemOffset k d)
      = ctxV c (64 * tile + (32 * half.val + k : ℕ)) d := by
  have hinv : TileInv bf c Q tile (lockState bf c lds tile) := iterate_tileInv hq lds (by omega)
  have hlt : (tile : ℤ) < c.numTotalLoop := by omega
  obtain rfl | rfl : half = 0 ∨ half = 1 := by omega
  · have hv := vHalf0 hinv hlt hk hd
    rw [Fin.val_zero, Nat.mul_zero, Nat.zero_add, ← hv, lockLds]
    simp only [if_true]
    rfl
  · refine vHalf1 hinv hlt _ ?_ hk hd
    split_ifs
    · exact ⟨64 * tile * c.strideK + 64 * c.strideK, by rw [Ivs.next, hinv.kvKByte hlt]; ring⟩
    · rw [hinv.kvKByte hlt]
      exact Dvd.intro _ rfl

end Lockstep

/-! ### The refinement -/

section Refinement

variable [Zero β] {bf : Bf16 α β} {hasMask isVarlen : Bool} {p : FmhaFwdParams α β}
  {batchIdx headIdx mTileIdx : ℤ} {n : ℕ} {s : State (Fin 4) Cell β}

/-- The GEMMs of the waves find what the lockstep block finds. -/
lemma sameReads (lds : Mem β) (hpos : 0 < n)
    (hn : n = (blockCtx hasMask isVarlen p batchIdx headIdx mTileIdx).numTotalLoop.toNat)
    (hs : Reachable (waveProgram (waveCtx isVarlen p batchIdx headIdx mTileIdx) n) s)
    {w : Fin 4} {ph : Phase} (hpc : (phases n)[(s.waves w).pc]? = some ph) :
    SameReads (ldsCells s.mem)
      (lockLds bf (blockCtx hasMask isVarlen p batchIdx headIdx mTileIdx) lds ph) ph := by
  have hq : HoldsRows (blockCtx hasMask isVarlen p batchIdx headIdx mTileIdx).qRegs
    (qRow isVarlen p batchIdx headIdx mTileIdx) := loadQ_holds isVarlen p batchIdx headIdx mTileIdx
  cases ph with
  | gemm0 tile half =>
    obtain ⟨ht, -⟩ := placed hpos hpc
    intro j hj d hd
    refine (gemm0_reads hpos hs hpc hj hd).trans (Eq.trans ?_ (lockLds_gemm0 hq (hn ▸ ht) half hj hd).symm)
    rw [ctxK]
    push_cast
    rfl
  | gemm1 tile half =>
    obtain ⟨ht, -⟩ := placed hpos hpc
    intro k hk d hd
    refine (gemm1_reads hpos hs hpc hk hd).trans (Eq.trans ?_ (lockLds_gemm1 hq (hn ▸ ht) half hk hd).symm)
    rw [ctxV]
    push_cast
    rw [← add_assoc]
    rfl
  | qLoad | kCopy | vLoad | vStore | waitVmcnt | waitLgkmcnt | sBarrier => trivial

/-- A run of the four waves of a block, from memory `m`. -/
def WaveRun (bf : Bf16 α β) (hasMask isVarlen : Bool) (p : FmhaFwdParams α β)
    (batchIdx headIdx mTileIdx : ℤ) (m : Cell → β) (s : State (Fin 4) Cell β)
    (l : Fin 4 → Fin 64 → LaneRegs α) : Prop :=
  let c := blockCtx hasMask isVarlen p batchIdx headIdx mTileIdx
  let n := c.numTotalLoop.toNat
  Computes (waveProgram (waveCtx isVarlen p batchIdx headIdx mTileIdx) n) (waveAct bf c n) m
    (fun _ _ => regsInit) s l

/-- **In every state of every run** each wave holds the registers of the lockstep block at the
phase it stands at. -/
lemma waveRun_regs (hpos : 0 < (blockCtx hasMask isVarlen p batchIdx headIdx mTileIdx).numTotalLoop)
    {m : Cell → β} (hm : ZeroedQ (waveCtx isVarlen p batchIdx headIdx mTileIdx) m)
    {l : Fin 4 → Fin 64 → LaneRegs α}
    (h : WaveRun bf hasMask isVarlen p batchIdx headIdx mTileIdx m s l) (lds : Mem β) (w : Fin 4)
    (i : Fin 64) :
    l w i = lockRegs bf (blockCtx hasMask isVarlen p batchIdx headIdx mTileIdx) lds
      (blockCtx hasMask isVarlen p batchIdx headIdx mTileIdx).numTotalLoop.toNat (s.waves w).pc
      (laneIn w i) := by
  obtain ⟨n, hn⟩ : ∃ n, n = (blockCtx hasMask isVarlen p batchIdx headIdx
    mTileIdx).numTotalLoop.toNat := ⟨_, rfl⟩
  have hn0 : 0 < n := by omega
  simp only [WaveRun] at h
  rw [← hn] at h ⊢
  refine Computes.rule (J := fun w pc l => ∀ i, l i = lockRegs bf
    (blockCtx hasMask isVarlen p batchIdx headIdx mTileIdx) lds n pc (laneIn w i))
    (fun w i => rfl) ?_ h w i
  intro s l hs w hlt hJ i
  obtain ⟨ph, hph⟩ : ∃ ph, (phases n)[(s.waves w).pc]? = some ph :=
    ⟨_, List.getElem?_eq_getElem (by rwa [waveProgram, List.length_map] at hlt)⟩
  rw [lockRegs_succ hph]
  simp only [waveAct, hph]
  refine phaseRegs_local (w := w) (fun tile half he => ?_) (fun t ht => ?_)
    (sameReads lds hn0 hn hs.reachable hph) _ (waveOf_laneIn w i)
  · exact qCells_eq hn0 hm hs (he ▸ hph)
  · subst ht
    exact (hJ (laneOf t)).trans (congrArg _ (laneIn_laneOf t))

lemma waveRun_lane (hpos : 0 < (blockCtx hasMask isVarlen p batchIdx headIdx mTileIdx).numTotalLoop)
    {m : Cell → β} (hm : ZeroedQ (waveCtx isVarlen p batchIdx headIdx mTileIdx) m)
    {l : Fin 4 → Fin 64 → LaneRegs α}
    (h : WaveRun bf hasMask isVarlen p batchIdx headIdx mTileIdx m s l) (lds : Mem β) (t : Thread) :
    l (waveOf t) (laneOf t)
      = lockRegs bf (blockCtx hasMask isVarlen p batchIdx headIdx mTileIdx) lds
          (blockCtx hasMask isVarlen p batchIdx headIdx mTileIdx).numTotalLoop.toNat
          (s.waves (waveOf t)).pc t :=
  (waveRun_regs hpos hm h lds (waveOf t) (laneOf t)).trans (congrArg _ (laneIn_laneOf t))

/-- Once the waves are past their last instruction, the lanes store what the lockstep block stores. -/
lemma waveRun_stores (bf : Bf16 α β)
    (hpos : 0 < (blockCtx hasMask isVarlen p batchIdx headIdx mTileIdx).numTotalLoop)
    (hin : ¬ (isVarlen ∧ (resolveSeq isVarlen p batchIdx).seqlenQ ≤ mTileIdx * kM0))
    {m : Cell → β} (hm : ZeroedQ (waveCtx isVarlen p batchIdx headIdx mTileIdx) m)
    {l : Fin 4 → Fin 64 → LaneRegs α}
    (h : WaveRun bf hasMask isVarlen p batchIdx headIdx mTileIdx m s l)
    (hend : ∀ w, (phases (blockCtx hasMask isVarlen p batchIdx headIdx
      mTileIdx).numTotalLoop.toNat).length ≤ (s.waves w).pc) (lds : Mem β) :
    fmhaFwdD64Device bf hasMask isVarlen p lds batchIdx headIdx mTileIdx
      = some fun t =>
          let r := l (waveOf t) (laneOf t)
          epilogStore bf r.oAccD0 r.oAccD1 r.rsum r.rmax p.scale p.strideO
            (lseBase isVarlen p batchIdx headIdx) (resolveSeq isVarlen p batchIdx).seqlenQ mTileIdx
            (oBase isVarlen p batchIdx headIdx) t := by
  have hq : HoldsRows (blockCtx hasMask isVarlen p batchIdx headIdx mTileIdx).qRegs
    (qRow isVarlen p batchIdx headIdx mTileIdx) := loadQ_holds isVarlen p batchIdx headIdx mTileIdx
  have hloop := tileLoop_eq_iterate bf hq hpos lds
  rw [fmhaFwdD64Device, if_neg hin]
  simp only
  rw [if_neg (not_le.mpr hpos), hloop, Option.map_some, Option.some.injEq]
  funext t
  have hcarries : Carries (lockState bf _ lds _) (lockRegs bf _ lds _ _) :=
    lockRegs_carries hq (hend (waveOf t))
  obtain ⟨h1, h2, h3, h4⟩ := hcarries t
  rw [waveRun_lane hpos hm h lds t, h1, h2, h3, h4]
  rfl

/-- **The four waves refine the lockstep block.** However they interleave and whenever their copies
land: at every moment each wave holds the registers of the lockstep block at the phase where it
stands, and once all are past their last instruction each lane stores what `fmhaFwdD64Device`
stores for it, whatever LDS held at entry. -/
theorem waves_refine_lockstep (bf : Bf16 α β)
    (hpos : 0 < (blockCtx hasMask isVarlen p batchIdx headIdx mTileIdx).numTotalLoop)
    (hin : ¬ (isVarlen ∧ (resolveSeq isVarlen p batchIdx).seqlenQ ≤ mTileIdx * kM0))
    {m : Cell → β} (hm : ZeroedQ (waveCtx isVarlen p batchIdx headIdx mTileIdx) m)
    {l : Fin 4 → Fin 64 → LaneRegs α}
    (h : WaveRun bf hasMask isVarlen p batchIdx headIdx mTileIdx m s l) (lds : Mem β) :
    (∀ t, l (waveOf t) (laneOf t)
      = lockRegs bf (blockCtx hasMask isVarlen p batchIdx headIdx mTileIdx) lds
          (blockCtx hasMask isVarlen p batchIdx headIdx mTileIdx).numTotalLoop.toNat
          (s.waves (waveOf t)).pc t) ∧
    ((∀ w, (phases (blockCtx hasMask isVarlen p batchIdx headIdx
        mTileIdx).numTotalLoop.toNat).length ≤ (s.waves w).pc) →
      fmhaFwdD64Device bf hasMask isVarlen p lds batchIdx headIdx mTileIdx
        = some fun t =>
            let r := l (waveOf t) (laneOf t)
            epilogStore bf r.oAccD0 r.oAccD1 r.rsum r.rmax p.scale p.strideO
              (lseBase isVarlen p batchIdx headIdx) (resolveSeq isVarlen p batchIdx).seqlenQ
              mTileIdx (oBase isVarlen p batchIdx headIdx) t) :=
  ⟨fun t => waveRun_lane hpos hm h lds t, fun hend => waveRun_stores bf hpos hin hm h hend lds⟩

end Refinement

/-! ### Every run of the waves ends -/

section Finish

lemma length_flatMap_le {X Y : Type*} {l : List X} {f : X → List Y} {k : ℕ}
    (h : ∀ x ∈ l, (f x).length ≤ k) : (l.flatMap f).length ≤ l.length * k := by
  induction l with
  | nil => exact Nat.zero_le _
  | cons x l ih =>
    have hx := h x List.mem_cons_self
    have hl := ih fun y hy => h y (List.mem_cons_of_mem _ hy)
    rw [List.flatMap_cons, List.length_append, List.length_cons, Nat.succ_mul]
    omega

lemma length_waveLanes (w : Fin 4) : (waveLanes w).length = 64 := by
  rw [waveLanes, List.length_map, List.length_finRange]

variable [Zero β] {c : WaveCtx β} {n : ℕ}

omit [Fp α] in
/-- An operation of a wave writes at most 8 bf16 cells a lane. -/
lemma writesAtMost (c : WaveCtx β) (n : ℕ) : WritesAtMost 512 (waveProgram c n) := by
  intro w p ctr f m hf
  have hlanes := length_waveLanes w
  obtain ⟨ph, -, hins⟩ := exists_phase hf
  cases ph with
  | qLoad kstep =>
    simp only [instr] at hins
    split_ifs at hins
    obtain ⟨-, rfl⟩ := Instr.issue.inj hins
    have h8 : ∀ t ∈ waveLanes w, (if c.mTileIdx * kM0 + mRow t < c.seqlenQ then
        (List.finRange 4).flatMap fun i => dwordCells (.qReg t kstep i)
          (loadQ c.srdQ c.strideQ c.seqlenQ c.mTileIdx t kstep i) else []).length ≤ 8 := by
      intro t _
      split_ifs
      · exact length_flatMap_le (k := 2) fun i _ => le_rfl
      · exact Nat.zero_le _
    exact (length_flatMap_le h8).trans (by rw [hlanes])
  | kCopy tile half issue =>
    obtain ⟨-, rfl⟩ := Instr.issue.inj hins
    rw [kWrites, List.length_map]
    exact (length_flatMap_le (k := 2) fun t _ => le_rfl).trans (by rw [hlanes]; norm_num)
  | vLoad tile half k3 =>
    obtain ⟨-, rfl⟩ := Instr.issue.inj hins
    exact (length_flatMap_le (k := 4) fun t _ => length_flatMap_le (k := 2) fun i _ => le_rfl).trans
      (by rw [hlanes]; norm_num)
  | vStore tile half =>
    obtain ⟨-, rfl⟩ := Instr.issue.inj hins
    rw [vStoreWrites, List.length_map]
    exact (length_flatMap_le (k := 8) fun t _ => le_rfl).trans (by rw [hlanes])
  | sBarrier | waitVmcnt | waitLgkmcnt | gemm0 | gemm1 => cases hins

omit [Fp α] in
/-- **Every run of the four waves ends, and only when all are done.** A run takes a bounded number
of steps, and in a state without a next step every wave is past its last instruction with nothing
outstanding. -/
theorem waves_finish (c : WaveCtx β) (n : ℕ) :
    (∀ (run : ℕ → State (Fin 4) Cell β) (k : ℕ) (m : Cell → β), run 0 = State.init m →
      (∀ i < k, Step (waveProgram c n) (run i) (run (i + 1))) → k ≤ 4 * (8 + 29 * n) * 514) ∧
    ∀ s, (∀ s', ¬ Step (waveProgram c n) s s') → Done (waveProgram c n) s := by
  refine ⟨fun run k m h0 hrun => ?_, fun s hstuck => ?_⟩
  · have hk := run_length_le (writesAtMost c n) hrun
    have hsum : ∑ w : Fin 4, (waveProgram c n w).length ≤ 4 * (8 + 29 * n) := by
      have hlen : ∀ w : Fin 4, (waveProgram c n w).length = (phases n).length := fun w =>
        List.length_map _
      simp only [hlen, Finset.sum_const, Finset.card_univ, Fintype.card_fin, smul_eq_mul]
      exact Nat.mul_le_mul_left 4 (length_phases_le n)
    rw [h0, totalWeight_init] at hk
    exact (Nat.le_of_add_right_le hk).trans (Nat.mul_le_mul_right _ hsum)
  · by_contra hd
    obtain ⟨s', hs'⟩ := exists_step (aligned c n) hd
    exact hstuck s' hs'

/-- The waves of a block can always finish. -/
lemma exists_finished (bf : Bf16 α β) (hasMask isVarlen : Bool) (p : FmhaFwdParams α β)
    (batchIdx headIdx mTileIdx : ℤ) (m : Cell → β) :
    ∃ s l, WaveRun bf hasMask isVarlen p batchIdx headIdx mTileIdx m s l ∧
      ∀ w, (phases (blockCtx hasMask isVarlen p batchIdx headIdx
        mTileIdx).numTotalLoop.toNat).length ≤ (s.waves w).pc := by
  have h0 : WaveRun bf hasMask isVarlen p batchIdx headIdx mTileIdx m (State.init m)
    fun _ _ => regsInit := Computes.init
  obtain ⟨s, l, hs, hd⟩ := Computes.exists_done (aligned _ _) (writesAtMost _ _) h0
  refine ⟨s, l, hs, fun w => ?_⟩
  have hlen := hd.pc w
  rwa [waveProgram, List.length_map] at hlen

/-- Two causal queries against three keys: the waves finish, and the lockstep block stores what they
store. -/
theorem waves_refine_lockstep_causal :
    let p := (Launch.bhsd true true (fun e => .fin e) (fun e => .fin (-e)) (fun e => .fin (2 * e))
      (.fin 1) 1 1 1 2 3 one_pos one_pos zero_le_two (by norm_num) : Launch XReal XReal).params
    ∃ (s : State (Fin 4) Cell XReal) (l : Fin 4 → Fin 64 → LaneRegs XReal),
      WaveRun XReal.exact true false p 0 0 0 (fun _ => 0) s l ∧
      fmhaFwdD64Device XReal.exact true false p (fun _ => .nan) 0 0 0 = some fun t =>
        let r := l (waveOf t) (laneOf t)
        epilogStore XReal.exact r.oAccD0 r.oAccD1 r.rsum r.rmax p.scale p.strideO
          (lseBase false p 0 0) (resolveSeq false p 0).seqlenQ 0 (oBase false p 0 0) t := by
  intro p
  have hpos : 0 < (blockCtx true false p 0 0 0).numTotalLoop := by
    change 0 < numTotalLoop true 2 3 0
    decide
  obtain ⟨s, l, hs, hend⟩ := exists_finished XReal.exact true false p 0 0 0 fun _ => 0
  exact ⟨s, l, hs, (waves_refine_lockstep XReal.exact hpos (fun h => absurd h.1 Bool.false_ne_true)
    (fun _ _ _ _ _ => rfl) hs _).2 hend⟩

end Finish

end FmhaNative.WaveRegisters
