import FmhaNative.FusedAttention
import FmhaNative.Kernel
import FmhaNative.LseSlots
import FmhaNative.OWrites
import FmhaNative.WaveRegisters

/-!
Device memory after the launches of a problem: from waves that run on their own, in blocks that
run in any order, to the attention in O and in the log-sum-exp tensor.
-/

namespace FmhaNative.DeviceMemory

open Pipeline Kernel OpEpilog Stores LseSlots WaveRegisters Launch Offsets32

variable {α β : Type*} [Fp α] [Zero β]

/-! ### What a block may leave -/

/-- What the lanes of a block store: nothing in an M-tile past the end of its sequence, the zero row
where no tile is walked, else the registers of its four waves when they have finished. -/
inductive BlockOutcome (bf : Bf16 α β) (L : Launch α β) (b h mTileIdx : ℤ) :
    (Thread → LaneStores α β) → Prop
  | early (hin : L.isVarlen ∧ (resolveSeq L.isVarlen L.params b).seqlenQ ≤ mTileIdx * kM0) :
      BlockOutcome bf L b h mTileIdx fun _ => LaneStores.none
  | noTiles (hin : ¬ (L.isVarlen ∧ (resolveSeq L.isVarlen L.params b).seqlenQ ≤ mTileIdx * kM0))
      (hle : (blockCtx L.hasMask L.isVarlen L.params b h mTileIdx).numTotalLoop ≤ 0) :
      BlockOutcome bf L b h mTileIdx fun t =>
        epilogStore bf OpGemm.clearAcc OpGemm.clearAcc 0 Fp.negInf L.params.scale L.params.strideO
          (lseBase L.isVarlen L.params b h) (resolveSeq L.isVarlen L.params b).seqlenQ mTileIdx
          (oBase L.isVarlen L.params b h) t
  | waves (hin : ¬ (L.isVarlen ∧ (resolveSeq L.isVarlen L.params b).seqlenQ ≤ mTileIdx * kM0))
      (hpos : 0 < (blockCtx L.hasMask L.isVarlen L.params b h mTileIdx).numTotalLoop)
      {m : LdsPipeline.Cell → β} (hm : ZeroedQ (waveCtx L.isVarlen L.params b h mTileIdx) m)
      {s : AsyncWaves.State (Fin 4) LdsPipeline.Cell β} {l : Fin 4 → Fin 64 → LaneRegs α}
      (hrun : WaveRun bf L.hasMask L.isVarlen L.params b h mTileIdx m s l)
      (hend : ∀ w, (Phases.phases (blockCtx L.hasMask L.isVarlen L.params b h
        mTileIdx).numTotalLoop.toNat).length ≤ (s.waves w).pc) :
      BlockOutcome bf L b h mTileIdx fun t =>
        let r := l (LdsPipeline.waveOf t) (laneOf t)
        epilogStore bf r.oAccD0 r.oAccD1 r.rsum r.rmax L.params.scale L.params.strideO
          (lseBase L.isVarlen L.params b h) (resolveSeq L.isVarlen L.params b).seqlenQ mTileIdx
          (oBase L.isVarlen L.params b h) t

/-- Every way through a block stores what the block in lockstep stores. -/
lemma BlockOutcome.run_eq {bf : Bf16 α β} {L : Launch α β} {b h mTileIdx : ℤ}
    {out : Thread → LaneStores α β} (ho : BlockOutcome bf L b h mTileIdx out) (lds : Mem β) :
    L.run bf lds b h mTileIdx = some out := by
  cases ho with
  | early hin => rw [run, fmhaFwdD64Device, if_pos hin]
  | noTiles hin hle =>
    rw [run, fmhaFwdD64Device, if_neg hin]
    exact if_pos hle
  | waves hin hpos hm hrun hend => exact waveRun_stores bf hpos hin hm hrun hend lds

/-- Some way through every block exists. -/
lemma exists_outcome (bf : Bf16 α β) (L : Launch α β) (b h mTileIdx : ℤ) :
    ∃ out, BlockOutcome bf L b h mTileIdx out := by
  by_cases hin : L.isVarlen ∧ (resolveSeq L.isVarlen L.params b).seqlenQ ≤ mTileIdx * kM0
  · exact ⟨_, .early hin⟩
  rcases le_or_gt (blockCtx L.hasMask L.isVarlen L.params b h mTileIdx).numTotalLoop 0 with h0 | hpos
  · exact ⟨_, .noTiles hin h0⟩
  · obtain ⟨s, l, hrun, hend⟩ := exists_finished bf L.hasMask L.isVarlen L.params b h mTileIdx
      fun _ => 0
    exact ⟨_, .waves hin hpos (fun _ _ _ _ _ => rfl) hrun hend⟩

/-! ### The stores of a launch -/

/-- The log-sum-exp stores of all blocks of a grid. -/
def launchLse (g : Dim3) (k : Dim3 → Option (Thread → LaneStores α β)) : List (ℤ × α) :=
  (blocks g).flatMap fun blk => (k blk).toList.flatMap fun out =>
    (List.finRange 256).filterMap fun t => (out t).lse

/-- What the blocks of one launch of the kernel may leave. -/
def LaunchOutcome (bf : Bf16 α β) (L : Launch α β) (outs : Dim3 → Thread → LaneStores α β) : Prop :=
  ∀ blk ∈ blocks L.grid, BlockOutcome bf L blk.z blk.x (mTile L.hasMask L.grid blk) (outs blk)

section Lists

variable {bf : Bf16 α β} {L : Launch α β} {outs : Dim3 → Thread → LaneStores α β}

lemma LaunchOutcome.writes_eq (h : LaunchOutcome bf L outs) (lds : Dim3 → Mem β) :
    launchWrites L.grid (fun blk => some (outs blk))
      = launchWrites L.grid (L.ordered bf L.hasMask lds) := by
  have hk : ∀ blk ∈ blocks L.grid, L.ordered bf L.hasMask lds blk = some (outs blk) :=
    fun blk hblk => (h blk hblk).run_eq (lds blk)
  unfold launchWrites
  rw [List.flatMap_def, List.flatMap_def]
  congr 1
  exact List.map_congr_left fun blk hblk => by rw [hk blk hblk]

/-- The elements of O that a launch writes, whatever way its blocks take. -/
lemma LaunchOutcome.mem_writes (h : LaunchOutcome bf L outs) {w : ℤ × β} :
    w ∈ launchWrites L.grid (fun blk => some (outs blk)) ↔ L.Written bf w := by
  rw [h.writes_eq fun _ _ => 0, L.mem_writes bf]

/-- A row of a block writes the slot of its query row. -/
lemma lse_of_outcome {b h mTileIdx : ℤ} {out : Thread → LaneStores α β}
    (ho : BlockOutcome bf L b h mTileIdx out) (hlse : L.params.lse) (t : Thread) :
    (out t).lse = if kSub t = 0 ∧ mTileIdx * 128 + mRow t < (L.seq b).seqlenQ then
      some (slot L b h (mTileIdx * 128 + mRow t), L.lseCell bf b h (mTileIdx * 128 + mRow t))
    else none := by
  obtain ⟨out', hout, -, hl⟩ := L.run_block bf (fun _ => 0) b h mTileIdx
  rw [ho.run_eq, Option.some.injEq] at hout
  subst hout
  have hseq : L.isVarlen → (resolveSeq L.isVarlen L.params b).offsetQ = L.params.seqstartQ b :=
    fun hv => by rw [resolveSeq, if_pos hv]
  rw [hl, lseBase, if_pos hlse, slot]
  split_ifs with hv hrow
  · simp only [Option.bind_some, hseq hv]
  · rfl
  · rfl
  · rfl

/-- The log-sum-exp stores of a launch. -/
lemma LaunchOutcome.mem_lse (h : LaunchOutcome bf L outs) (hlse : L.params.lse) {w : ℤ × α} :
    w ∈ launchLse L.grid (fun blk => some (outs blk)) ↔
      ∃ b h i, L.InRange b h i ∧ w = (slot L b h i, L.lseCell bf b h i) := by
  simp only [launchLse, List.mem_flatMap, Option.mem_toList, Option.some.injEq, exists_eq_left',
    List.mem_filterMap, List.mem_finRange, true_and]
  constructor
  · rintro ⟨blk, hblk, t, ht⟩
    rw [lse_of_outcome (h blk hblk) hlse] at ht
    split_ifs at ht with hrow
    exact ⟨_, _, _, L.inRange_of_mem hblk hrow.2, (Option.some.inj ht).symm⟩
  · rintro ⟨b, hd, i, hr, rfl⟩
    have hb := hr.b_nonneg
    have hbB := hr.b_lt
    have hh := hr.h_nonneg
    have hhH := hr.h_lt
    have hi0 := hr.i_nonneg
    obtain ⟨y, hy, hmt⟩ := exists_mTile L.hasMask (by omega) (L.tile_lt_grid hr) hd.toNat b.toNat
    have hz : ((b.toNat : ℕ) : ℤ) = b := Int.toNat_of_nonneg hb
    have hx : ((hd.toNat : ℕ) : ℤ) = hd := Int.toNat_of_nonneg hh
    have hblk : (⟨hd.toNat, y, b.toNat⟩ : Dim3) ∈ blocks L.grid := by
      refine mem_blocks.mpr ⟨?_, hy, ?_⟩ <;> simp only [grid] <;> omega
    refine ⟨_, hblk, rowThread (rowInTile i) 0, ?_⟩
    rw [lse_of_outcome (h _ hblk) hlse, hmt, mRow_rowThread, tile_row, hz, hx]
    exact if_pos ⟨kSub_rowThread _ _, hr.i_lt⟩

end Lists

/-! ### Memory after the launches -/

/-- What the O stores of some launch write, in any order. -/
def OStores (bf : Bf16 α β) (L : Launch α β) (ws : List (ℤ × β)) : Prop :=
  ∃ outs, LaunchOutcome bf L outs ∧ ws.Perm (launchWrites L.grid fun blk => some (outs blk))

def LseStores (bf : Bf16 α β) (L : Launch α β) (ws : List (ℤ × α)) : Prop :=
  ∃ outs, LaunchOutcome bf L outs ∧ ws.Perm (launchLse L.grid fun blk => some (outs blk))

/-- Lists of stores, one after the other, whose entries are a value at each index of a family. -/
lemma stores_family {I A V : Type*} [DecidableEq A] (valid : I → Prop) (addr : I → A) (val : I → V)
    (hinj : ∀ i j, valid i → valid j → addr i = addr j → i = j) {wss : List (List (A × V))}
    (hne : wss ≠ []) (hmem : ∀ ws ∈ wss, ∀ w, w ∈ ws ↔ ∃ i, valid i ∧ w = (addr i, val i))
    (m : A → V) :
    (∀ i, valid i → stores m wss.flatten (addr i) = val i) ∧
      ∀ a, (∀ i, valid i → a ≠ addr i) → stores m wss.flatten a = m a := by
  refine ⟨fun i hi => ?_, fun a ha => ?_⟩
  · obtain ⟨ws, hws⟩ := List.exists_mem_of_ne_nil wss hne
    refine stores_of_mem (List.mem_flatten.mpr ⟨ws, hws, (hmem ws hws _).mpr ⟨i, hi, rfl⟩⟩)
      fun v hv => ?_
    obtain ⟨ws', hws', hv⟩ := List.mem_flatten.mp hv
    obtain ⟨j, hj, he⟩ := (hmem ws' hws' _).mp hv
    obtain ⟨ha, rfl⟩ := Prod.mk.inj he
    rw [hinj i j hi hj ha]
  · refine stores_of_notMem fun v hv => ?_
    obtain ⟨ws, hws, hv⟩ := List.mem_flatten.mp hv
    obtain ⟨i, hi, he⟩ := (hmem ws hws _).mp hv
    exact ha i hi (Prod.mk.inj he).1

section Attention

variable (L : Launch ℝ ℝ) {b h i : ℤ}

lemma cell_attention (hσ : 0 < L.params.scale) (hr : L.InRange b h i) {d : ℕ} (hd : d < 64) :
    L.exact.cell XReal.exact b h i d
      = .fin (Attention.output (L.keys b i) (L.score b h i) (L.value b h) d) := by
  obtain ⟨out, hout, ho, -⟩ := FusedAttention.run_attention L hσ (fun _ => .nan) hr
  obtain ⟨out', hout', ho', -⟩ := run_row XReal.exact L.exact (fun _ => .nan) hr.exact
  rw [hout, Option.some.injEq] at hout'
  subst hout'
  exact Option.some.inj ((ho' ⟨d, hd⟩).symm.trans (ho ⟨d, hd⟩))

lemma lseCell_attention (hσ : 0 < L.params.scale) (hlse : L.params.lse) (hr : L.InRange b h i) :
    L.exact.lseCell XReal.exact b h i = Attention.lse (L.keys b i) (L.score b h i) := by
  obtain ⟨out, hout, -, hl⟩ := FusedAttention.run_attention L hσ (fun _ => .nan) hr
  obtain ⟨out', hout', -, hl'⟩ := run_row XReal.exact L.exact (fun _ => .nan) hr.exact
  rw [hout, Option.some.injEq] at hout'
  subst hout'
  have hlse' : L.exact.params.lse = true := hlse
  rw [if_pos hlse'] at hl'
  exact Option.some.inj (hl'.symm.trans (hl hlse))

lemma exact_inRange : L.exact.InRange b h i ↔ L.InRange b h i :=
  ⟨fun hr => ⟨hr.b_nonneg, hr.b_lt, hr.h_nonneg, hr.h_lt, hr.i_nonneg, hr.i_lt⟩, InRange.exact⟩

variable {L} in
lemma exact_offsetsExact (hx : OffsetsExact L) : OffsetsExact L.exact := ⟨hx.loads, hx.stores⟩

variable {L} in
lemma exact_writesApart (hap : L.WritesApart) : L.exact.WritesApart :=
  fun _ _ _ _ _ _ _ _ hr hd hr' hd' =>
    hap _ _ _ _ _ _ _ _ ((exact_inRange L).mp hr) hd ((exact_inRange L).mp hr') hd'

/-- The attention in O: the value of each element of each query row, and nothing else changed. -/
def OHolds (m m' : Mem XReal) : Prop :=
  (∀ b h i, ∀ d : ℕ, L.InRange b h i → d < 64 → m' (L.oOff b h i + d)
    = .fin (Attention.output (L.keys b i) (L.score b h i) (L.value b h) d)) ∧
  ∀ a, (∀ b h i, ∀ d : ℕ, L.InRange b h i → d < 64 → a ≠ L.oOff b h i + d) → m' a = m a

def LseHolds (m m' : Mem XReal) : Prop :=
  (∀ b h i, L.InRange b h i → m' (slot L b h i) = Attention.lse (L.keys b i) (L.score b h i)) ∧
  ∀ a, (∀ b h i, L.InRange b h i → a ≠ slot L b h i) → m' a = m a

lemma oStores_leave (hσ : 0 < L.params.scale) (hx : OffsetsExact L) (hinj : L.OInjective)
    {wss : List (List (ℤ × XReal))} (hne : wss ≠ [])
    (hws : ∀ ws ∈ wss, OStores XReal.exact L.exact ws) (m : Mem XReal) : OHolds L m (stores m wss.flatten) := by
  have hfam := stores_family (fun x : ℤ × ℤ × ℤ × ℕ => L.InRange x.1 x.2.1 x.2.2.1 ∧ x.2.2.2 < 64)
    (fun x => L.oOff x.1 x.2.1 x.2.2.1 + x.2.2.2)
    (fun x => .fin (Attention.output (L.keys x.1 x.2.2.1) (L.score x.1 x.2.1 x.2.2.1)
      (L.value x.1 x.2.1) x.2.2.2)) ?_ hne ?_ m
  · exact ⟨fun b h i d hr hd => hfam.1 (b, h, i, d) ⟨hr, hd⟩,
      fun a ha => hfam.2 a fun x hx => ha _ _ _ _ hx.1 hx.2⟩
  · rintro ⟨b, h, i, d⟩ ⟨b', h', i', d'⟩ ⟨hr, hd⟩ ⟨hr', hd'⟩ he
    obtain ⟨rfl, rfl, rfl, rfl⟩ := hinj _ _ _ _ _ _ _ _ hr hd hr' hd' he
    rfl
  · intro ws hmem w
    obtain ⟨outs, houts, hperm⟩ := hws ws hmem
    rw [hperm.mem_iff, houts.mem_writes]
    constructor
    · rintro ⟨b, h, i, d, hr, hd, ha, hv⟩
      rw [oAddr_of_exact (exact_offsetsExact hx) hr hd, Option.some.injEq] at ha
      have hr := (exact_inRange L).mp hr
      rw [cell_attention L hσ hr hd] at hv
      exact ⟨(b, h, i, d), ⟨hr, hd⟩, Prod.ext ha.symm hv⟩
    · rintro ⟨⟨b, h, i, d⟩, ⟨hr, hd⟩, rfl⟩
      have hr' := (exact_inRange L).mpr hr
      exact ⟨b, h, i, d, hr', hd, oAddr_of_exact (exact_offsetsExact hx) hr' hd,
        (cell_attention L hσ hr hd).symm⟩

lemma lseStores_leave (hσ : 0 < L.params.scale) (hlse : L.params.lse)
    (hap : SlotsApart L) {wss : List (List (ℤ × XReal))} (hne : wss ≠ [])
    (hws : ∀ ws ∈ wss, LseStores XReal.exact L.exact ws) (m : Mem XReal) :
    LseHolds L m (stores m wss.flatten) := by
  have hfam := stores_family (fun x : ℤ × ℤ × ℤ => L.InRange x.1 x.2.1 x.2.2)
    (fun x => slot L x.1 x.2.1 x.2.2)
    (fun x => Attention.lse (L.keys x.1 x.2.2) (L.score x.1 x.2.1 x.2.2)) ?_ hne ?_ m
  · exact ⟨fun b h i hr => hfam.1 (b, h, i) hr, fun a ha => hfam.2 a fun x hx => ha _ _ _ hx⟩
  · rintro ⟨b, h, i⟩ ⟨b', h', i'⟩ hr hr' he
    obtain ⟨rfl, rfl, rfl⟩ := hap _ _ _ _ _ _ hr hr' he
    rfl
  · intro ws hmem w
    obtain ⟨outs, houts, hperm⟩ := hws ws hmem
    rw [hperm.mem_iff, houts.mem_lse hlse]
    constructor
    · rintro ⟨b, h, i, hr, rfl⟩
      have hr := (exact_inRange L).mp hr
      exact ⟨(b, h, i), hr, by rw [lseCell_attention L hσ hlse hr]; rfl⟩
    · rintro ⟨⟨b, h, i⟩, hr, rfl⟩
      exact ⟨b, h, i, (exact_inRange L).mpr hr, by rw [lseCell_attention L hσ hlse hr]; rfl⟩

/-- **The launches leave the attention in device memory.** The waves of every block interleave as
they like and their copies land whenever they land, the stores of all blocks come in any order,
and the kernel is launched any number of times, at least once: where the 32-bit offsets are exact
and the rows of O keep apart, every element of every query row of O then holds the attention and
every other address what it held, and the same is true of the log-sum-exp tensor of a supported
layout that keeps the heads apart. -/
theorem launches_leave_attention (hσ : 0 < L.params.scale) (hx : OffsetsExact L) (m : Mem XReal)
    {wss : List (List (ℤ × XReal))} (hne : wss ≠ []) :
    (L.OInjective → (∀ ws ∈ wss, OStores XReal.exact L.exact ws) →
      OHolds L m (stores m wss.flatten)) ∧
    ∀ (layout : Layout) (D : ℤ), L.params.lse → LaidOut L layout D →
      (layout = .bhsd ∨ L.params.nheadQ = 1) → (∀ ws ∈ wss, LseStores XReal.exact L.exact ws) →
      LseHolds L m (stores m wss.flatten) :=
  ⟨fun hinj hws => oStores_leave L hσ hx hinj hne hws m,
    fun _ _ hlse hl hgood hws =>
      lseStores_leave L hσ hlse (slotsApart_laidOut hl hgood) hne hws m⟩

/-- Three launches over two causal queries of two heads and three keys, each with some order of the
waves: the attention is in O. -/
theorem launches_leave_attention_thrice :
    let L : Launch ℝ ℝ := .bhsd true true (fun e => e) (fun e => -e) (fun e => 2 * e) 1 1 1 2 2 3
      one_pos two_pos zero_le_two (by norm_num)
    ∃ ws₁ ws₂ ws₃, (∀ ws ∈ [ws₁, ws₂, ws₃], OStores XReal.exact L.exact ws) ∧
      OHolds L (fun _ => .nan) (stores (fun _ => .nan) [ws₁, ws₂, ws₃].flatten) := by
  intro L
  choose outs houts using fun blk : Dim3 => exists_outcome XReal.exact L.exact blk.z blk.x
    (mTile L.exact.hasMask L.exact.grid blk)
  have ho : OStores XReal.exact L.exact (launchWrites L.exact.grid fun blk => some (outs blk)) :=
    ⟨outs, fun blk _ => houts blk, List.Perm.refl _⟩
  have hall : ∀ ws ∈ [launchWrites L.exact.grid fun blk => some (outs blk),
      launchWrites L.exact.grid fun blk => some (outs blk),
      launchWrites L.exact.grid fun blk => some (outs blk)], OStores XReal.exact L.exact ws := by
    intro ws hws
    simp only [List.mem_cons, List.not_mem_nil, or_false, or_self] at hws
    rw [hws]
    exact ho
  have hx : OffsetsExact L := exact_bhsd _ _ _ _ _ _ _ _ _ _ _ _ _ _ _ (by norm_num) (by norm_num)
  exact ⟨_, _, _, hall, (launches_leave_attention L one_pos hx _ (List.cons_ne_nil _ _)).1
    (Launch.bhsd_oInjective _ _ _ _ _ _ _ _ _ _ _ _ _ _ _) hall⟩

end Attention

end FmhaNative.DeviceMemory
