import FmhaNative.Indexing
import FmhaNative.Launch

/-!
Where the log-sum-exp of a row goes.

The fused kernel addresses it as `[batch, head, row]` in dense mode and recovers a head stride
from Q's element strides in varlen mode; the reference kernel recovers both strides. The slots
are well addressed for head-major layouts; row-major layouts lose the head when there is more
than one.
-/

namespace FmhaNative.LseSlots

open Pipeline GpuRef Indexing

/-- The supported layouts of Q: the rows of a head are adjacent, or the heads of a row. -/
inductive Layout
  | bhsd
  | bshd

/-- The strides of a layout: `H` heads, `R` rows a head, `D` columns. -/
def Layout.stride : Layout → ℤ → ℤ → ℤ
  | bhsd, _, D => D
  | bshd, H, D => H * D

def Layout.headStride : Layout → ℤ → ℤ → ℤ
  | bhsd, R, D => R * D
  | bshd, _, D => D

variable {α β : Type*} (L : Launch α β)

/-- The query rows of one head: one sequence when dense, all packed sequences in varlen mode. -/
def rows : ℤ := if L.isVarlen then L.params.seqstartQ L.batch else L.params.seqlenQ

/-- The strides of Q are those of the layout, for rows of `D` elements. -/
structure LaidOut (layout : Layout) (D : ℤ) : Prop where
  pos : 0 < D
  strideQ : L.params.strideQ = layout.stride L.params.nheadQ D
  nheadStrideQ : L.params.nheadStrideQ = layout.headStride (rows L) D
  batchStrideQ : L.isVarlen = false →
    L.params.batchStrideQ = L.params.nheadQ * L.params.seqlenQ * D
  seqstart_zero : L.isVarlen → L.params.seqstartQ 0 = 0

/-- The size of the log-sum-exp tensor. -/
def size : ℤ :=
  if L.isVarlen then L.params.nheadQ * rows L else L.batch * (L.params.nheadQ * L.params.seqlenQ)

/-- The slot that the recovered strides give a row. -/
def slot (b h i : ℤ) : ℤ :=
  if L.isVarlen then
    h * L.params.nheadStrideQ.tdiv L.params.strideQ + L.params.seqstartQ b + i
  else b * (L.params.nheadQ * L.params.seqlenQ) + h * L.params.seqlenQ + i

/-- No two rows share a slot. -/
def SlotsApart : Prop :=
  ∀ b h i b' h' i', L.InRange b h i → L.InRange b' h' i' → slot L b h i = slot L b' h' i' →
    b = b' ∧ h = h' ∧ i = i'

variable [Fp α] [Zero β] (bf : Bf16 α β) (lds : Mem β)

/-- The slot that the fused kernel writes for a row. -/
def fusedSlot (b h i : ℤ) : Option ℤ :=
  (L.run bf lds b h (i / 128)).bind fun out =>
    (out (rowThread (Launch.rowInTile i) 0)).lse.map Prod.fst

/-- The slot that the reference kernel writes for a row. -/
def refSlot (b h i : ℤ) : Option ℤ :=
  match gpuRefFmhaKernel bf (refParams L) (rowTid (refParams L) b h i) with
  | .wrote ref => ref.lse.map Prod.fst
  | _ => none

/-- Rows have distinct slots inside the tensor, and both kernels use the same one. -/
structure WellAddressed : Prop where
  inj : ∀ b h i b' h' i', L.InRange b h i → L.InRange b' h' i' →
    fusedSlot L bf lds b h i = fusedSlot L bf lds b' h' i' → b = b' ∧ h = h' ∧ i = i'
  within : ∀ b h i, L.InRange b h i → ∃ e, fusedSlot L bf lds b h i = some e ∧ 0 ≤ e ∧ e < size L
  ref : ∀ b h i, L.InRange b h i → refSlot L bf b h i = fusedSlot L bf lds b h i

section Slots

variable {L} {bf lds} {b h i : ℤ}

/-- Both paths of the kernel, with and without tiles, write the same slot. -/
lemma fusedSlot_eq (hlse : L.params.lse) (hr : L.InRange b h i) :
    fusedSlot L bf lds b h i = some (slot L b h i) := by
  obtain ⟨out, hout, -, hl⟩ := Launch.run_block bf L lds b h (i / 128)
  have hk : kSub (rowThread (Launch.rowInTile i) 0) = 0 ∧ i < (L.seq b).seqlenQ :=
    ⟨kSub_rowThread _ _, hr.i_lt⟩
  have hseq : L.isVarlen → (resolveSeq L.isVarlen L.params b).offsetQ = L.params.seqstartQ b :=
    fun hv => by rw [resolveSeq, if_pos hv]
  unfold fusedSlot
  rw [hout, Option.bind_some, hl, mRow_rowThread, Launch.tile_row, lseBase, if_pos hlse]
  simp only [if_pos hk, slot]
  split_ifs with hv
  · simp only [Option.bind_some, Option.map_some, hseq hv]
  · rfl

lemma refSlot_eq (hlse : L.params.lse) (hr : L.InRange b h i) :
    refSlot L bf b h i = some (b * (if L.isVarlen then 0 else L.params.batchStrideQ).tdiv
      L.params.strideQ + h * L.params.nheadStrideQ.tdiv L.params.strideQ
      + ((L.seq b).offsetQ + i)) := by
  have hl : (refParams L).dLSE = true := hlse
  have hd : ¬ 256 < (refParams L).headDim := by
    change ¬ (256 : ℤ) < 64
    omega
  unfold refSlot gpuRefFmhaKernel
  rw [rowPlace_refParams L hr]
  simp only [if_neg hd, hl, if_true, Option.map_some]
  rfl

end Slots

section Strides

variable {L} {layout : Layout} {D : ℤ}

omit [Fp α] [Zero β]

lemma packed (hv : L.isVarlen) : Packed L.params.seqstartQ L.batch := by
  intro b hb hB
  have := L.seqlenQ_nonneg b hb hB
  rw [resolveSeq, if_pos hv] at this
  simp only at this
  omega

lemma headStride_bhsd (hl : LaidOut L .bhsd D) :
    L.params.nheadStrideQ.tdiv L.params.strideQ = rows L := by
  rw [hl.nheadStrideQ, hl.strideQ, Layout.headStride, Layout.stride]
  exact Int.mul_tdiv_cancel _ hl.pos.ne'

lemma headStride_bshd (hl : LaidOut L .bshd D) (h2 : 2 ≤ L.params.nheadQ) :
    L.params.nheadStrideQ.tdiv L.params.strideQ = 0 := by
  have hD := hl.pos
  rw [hl.nheadStrideQ, hl.strideQ, Layout.headStride, Layout.stride]
  apply Int.tdiv_eq_zero_of_lt hD.le
  nlinarith

lemma batchStride_bhsd (hl : LaidOut L .bhsd D) (hv : L.isVarlen = false) :
    L.params.batchStrideQ.tdiv L.params.strideQ = L.params.nheadQ * L.params.seqlenQ := by
  rw [hl.batchStrideQ hv, hl.strideQ, Layout.stride]
  exact Int.mul_tdiv_cancel _ hl.pos.ne'

lemma batchStride_bshd (hl : LaidOut L .bshd D) (hv : L.isVarlen = false) :
    L.params.batchStrideQ.tdiv L.params.strideQ = L.params.seqlenQ := by
  have hne : L.params.nheadQ * D ≠ 0 := mul_ne_zero L.nheadQ_pos.ne' hl.pos.ne'
  rw [hl.batchStrideQ hv, hl.strideQ, Layout.stride, mul_right_comm, mul_comm]
  exact Int.mul_tdiv_cancel _ hne

/-- Recovered strides that keep the heads apart. -/
lemma headStride_good (hl : LaidOut L layout D) (hgood : layout = .bhsd ∨ L.params.nheadQ = 1)
    {h : ℤ} (h0 : 0 ≤ h) (hH : h < L.params.nheadQ) :
    h * L.params.nheadStrideQ.tdiv L.params.strideQ = h * rows L := by
  cases layout with
  | bhsd => rw [headStride_bhsd hl]
  | bshd =>
    have h1 : L.params.nheadQ = 1 := hgood.resolve_left fun hc => Layout.noConfusion hc
    have hz : h = 0 := by omega
    rw [hz, zero_mul, zero_mul]

end Strides

section Main

variable {L} {layout : Layout} {D : ℤ} {b h i : ℤ}

omit [Fp α] [Zero β]

/-- In a good layout the slot is the position of the row in the packed tensor. -/
lemma slot_varlen (hl : LaidOut L layout D) (hgood : layout = .bhsd ∨ L.params.nheadQ = 1)
    (hv : L.isVarlen) (hr : L.InRange b h i) :
    slot L b h i = h * rows L + (L.params.seqstartQ b + i) := by
  rw [slot, if_pos hv, headStride_good hl hgood hr.h_nonneg hr.h_lt]
  ring

lemma row_varlen (hl : LaidOut L layout D) (hv : L.isVarlen) (hr : L.InRange b h i) :
    0 ≤ L.params.seqstartQ b + i ∧ L.params.seqstartQ b + i < rows L := by
  have hlt : i < L.params.seqstartQ (b + 1) - L.params.seqstartQ b := by
    have := hr.i_lt
    rwa [Launch.seq, resolveSeq, if_pos hv] at this
  have hm := (packed hv).mem hr.b_nonneg hr.b_lt hr.i_nonneg hlt
  rwa [hl.seqstart_zero hv, ← show rows L = L.params.seqstartQ L.batch from if_pos hv] at hm

lemma slot_dense (hv : L.isVarlen = false) :
    slot L b h i = (b * L.params.nheadQ + h) * L.params.seqlenQ + i := by
  rw [slot, hv, if_neg Bool.false_ne_true]
  ring

lemma row_dense (hv : L.isVarlen = false) (hr : L.InRange b h i) : i < L.params.seqlenQ := by
  have := hr.i_lt
  rwa [Launch.seq, resolveSeq, hv, if_neg Bool.false_ne_true] at this

/-- The dense slots do not depend on the strides. -/
lemma slotsApart_dense (hv : L.isVarlen = false) : SlotsApart L := by
  intro b h i b' h' i' hr hr' he
  rw [slot_dense hv, slot_dense hv] at he
  obtain ⟨hbh, hi⟩ := radix_inj hr.i_nonneg (row_dense hv hr) hr'.i_nonneg (row_dense hv hr') he
  obtain ⟨hb, hh⟩ := radix_inj hr.h_nonneg hr.h_lt hr'.h_nonneg hr'.h_lt hbh
  exact ⟨hb, hh, hi⟩

lemma slotsApart_laidOut (hl : LaidOut L layout D) (hgood : layout = .bhsd ∨ L.params.nheadQ = 1) :
    SlotsApart L := by
  intro b h i b' h' i' hr hr' he
  cases hv : L.isVarlen
  · exact slotsApart_dense hv b h i b' h' i' hr hr' he
  · rw [slot_varlen hl hgood hv hr, slot_varlen hl hgood hv hr'] at he
    obtain ⟨h0, h1⟩ := row_varlen hl hv hr
    obtain ⟨h0', h1'⟩ := row_varlen hl hv hr'
    obtain ⟨hh, hrow⟩ := radix_inj h0 h1 h0' h1' he
    have hi := hr.i_lt
    have hi' := hr'.i_lt
    simp only [Launch.seq, resolveSeq, hv, if_true] at hi hi'
    obtain ⟨hb, hi⟩ := (packed hv).inj hr.b_nonneg hr.b_lt hr.i_nonneg hi hr'.b_nonneg hr'.b_lt
      hr'.i_nonneg hi' hrow
    exact ⟨hb, hh, hi⟩

lemma slot_mem (hl : LaidOut L layout D) (hgood : layout = .bhsd ∨ L.params.nheadQ = 1)
    (hr : L.InRange b h i) : 0 ≤ slot L b h i ∧ slot L b h i < size L := by
  have hb := hr.b_nonneg
  have hh := hr.h_nonneg
  have hi := hr.i_nonneg
  cases hv : L.isVarlen
  · have hS := row_dense hv hr
    have hbh : b * L.params.nheadQ + h < L.batch * L.params.nheadQ :=
      radix_lt hh hr.h_lt hr.b_lt
    have hlt := radix_lt hi hS hbh
    rw [slot_dense hv, size, hv, if_neg Bool.false_ne_true, ← mul_assoc]
    have hH := L.nheadQ_pos
    exact ⟨add_nonneg (mul_nonneg (by nlinarith) (by omega)) hi, hlt⟩
  · obtain ⟨h0, h1⟩ := row_varlen hl hv hr
    rw [slot_varlen hl hgood hv hr, size, hv, if_pos rfl]
    exact ⟨by nlinarith, radix_lt h0 h1 hr.h_lt⟩

lemma refHead_eq (hl : LaidOut L layout D) (hgood : layout = .bhsd ∨ L.params.nheadQ = 1)
    (hr : L.InRange b h i) :
    b * (if L.isVarlen then 0 else L.params.batchStrideQ).tdiv L.params.strideQ
      + h * L.params.nheadStrideQ.tdiv L.params.strideQ + ((L.seq b).offsetQ + i)
      = slot L b h i := by
  cases hv : L.isVarlen
  · have hoff : (L.seq b).offsetQ = 0 := by rw [Launch.seq, resolveSeq, hv, if_neg Bool.false_ne_true]
    have hbatch : L.params.batchStrideQ.tdiv L.params.strideQ
        = L.params.nheadQ * L.params.seqlenQ := by
      cases layout with
      | bhsd => exact batchStride_bhsd hl hv
      | bshd =>
        have h1 : L.params.nheadQ = 1 := hgood.resolve_left fun hc => Layout.noConfusion hc
        rw [batchStride_bshd hl hv, h1, one_mul]
    have hrows : rows L = L.params.seqlenQ := by rw [rows, hv, if_neg Bool.false_ne_true]
    rw [if_neg Bool.false_ne_true, hbatch, headStride_good hl hgood hr.h_nonneg hr.h_lt, hoff,
      hrows, slot_dense hv]
    ring
  · have hoff : (L.seq b).offsetQ = L.params.seqstartQ b := by rw [Launch.seq, resolveSeq, if_pos hv]
    rw [if_pos rfl, Int.zero_tdiv, headStride_good hl hgood hr.h_nonneg hr.h_lt, hoff,
      slot_varlen hl hgood hv hr]
    ring

end Main

variable {L} {bf lds} {layout : Layout} {D : ℤ}

/-- Two heads of a row-major layout: in varlen mode they share a slot, in dense mode the
reference kernel writes another one. -/
lemma not_wellAddressed (hlse : L.params.lse) (hl : LaidOut L .bshd D) (h2 : 2 ≤ L.params.nheadQ)
    {b h i : ℤ} (hr : L.InRange b h i) : ¬ WellAddressed L bf lds := by
  intro hw
  have hr0 : L.InRange b 0 i := ⟨hr.b_nonneg, hr.b_lt, le_rfl, by omega, hr.i_nonneg, hr.i_lt⟩
  have hr1 : L.InRange b 1 i :=
    ⟨hr.b_nonneg, hr.b_lt, zero_le_one, by omega, hr.i_nonneg, hr.i_lt⟩
  have hs := headStride_bshd hl h2
  cases hv : L.isVarlen
  · have href := hw.ref b 1 i hr1
    have hoff : (L.seq b).offsetQ = 0 := by rw [Launch.seq, resolveSeq, hv, if_neg Bool.false_ne_true]
    rw [refSlot_eq hlse hr1, fusedSlot_eq hlse hr1, Option.some.injEq, slot_dense hv, hs, hoff, hv,
      if_neg Bool.false_ne_true, batchStride_bshd hl hv] at href
    have hS := row_dense hv hr
    have hb := hr.b_nonneg
    have hi := hr.i_nonneg
    have hpos : 0 < (b * (L.params.nheadQ - 1) + 1) * L.params.seqlenQ :=
      mul_pos (by nlinarith) (by omega)
    nlinarith
  · have hsame : fusedSlot L bf lds b 0 i = fusedSlot L bf lds b 1 i := by
      rw [fusedSlot_eq hlse hr0, fusedSlot_eq hlse hr1, slot, slot, if_pos hv, if_pos hv, hs]
      simp only [mul_zero]
    exact absurd (hw.inj _ _ _ _ _ _ hr0 hr1 hsame).2.1 zero_ne_one

/-- **The log-sum-exp slots** of a supported layout are distinct, in bounds and those of the
reference kernel exactly when the layout is head-major, or there is one query head, or there is
no query row. -/
theorem wellAddressed_iff (hlse : L.params.lse) (hl : LaidOut L layout D) :
    WellAddressed L bf lds ↔
      layout = .bhsd ∨ L.params.nheadQ = 1 ∨ ¬ ∃ b h i, L.InRange b h i := by
  constructor
  · intro hw
    by_contra hc
    push Not at hc
    obtain ⟨hlay, hne, b, h, i, hr⟩ := hc
    have hH := L.nheadQ_pos
    cases layout with
    | bhsd => exact hlay rfl
    | bshd => exact not_wellAddressed hlse hl (by omega) hr hw
  · intro hcond
    rcases or_assoc.mpr hcond with hgood | hnone
    · refine ⟨fun b h i b' h' i' hr hr' he => ?_, fun b h i hr => ?_, fun b h i hr => ?_⟩
      · rw [fusedSlot_eq hlse hr, fusedSlot_eq hlse hr', Option.some.injEq] at he
        exact slotsApart_laidOut hl hgood _ _ _ _ _ _ hr hr' he
      · exact ⟨_, fusedSlot_eq hlse hr, slot_mem hl hgood hr⟩
      · rw [refSlot_eq hlse hr, fusedSlot_eq hlse hr, refHead_eq hl hgood hr]
    · exact ⟨fun b h i _ _ _ hr => absurd ⟨b, h, i, hr⟩ hnone,
        fun b h i hr => absurd ⟨b, h, i, hr⟩ hnone, fun b h i hr => absurd ⟨b, h, i, hr⟩ hnone⟩

/-- A varlen launch of one key head over packed sequences. -/
def packedLaunch (layout : Layout) (heads B maxQ : ℤ) (start : ℤ → ℤ) (hheads : 0 < heads)
    (hstart : Packed start B) (hmax : ∀ b, 0 ≤ b → b < B → start (b + 1) - start b ≤ maxQ) :
    Launch XReal XReal where
  hasMask := true
  isVarlen := true
  params :=
    { q := fun _ => 0, k := fun _ => 0, v := fun _ => 0, lse := true
      seqlenQ := maxQ, seqlenK := maxQ, nheadQ := heads, nheadK := 1, scale := .fin 1
      strideQ := layout.stride heads 64, nheadStrideQ := layout.headStride (start B) 64
      batchStrideQ := 0
      strideK := layout.stride 1 64, nheadStrideK := layout.headStride (start B) 64
      batchStrideK := 0
      strideV := layout.stride 1 64, nheadStrideV := layout.headStride (start B) 64
      batchStrideV := 0
      strideO := layout.stride heads 64, nheadStrideO := layout.headStride (start B) 64
      batchStrideO := 0
      seqstartQ := start, seqstartK := start }
  batch := B
  nheadK_pos := Int.one_pos
  nheadQ_pos := hheads
  gqa := one_dvd heads
  seqlenQ_nonneg := hstart.length_nonneg
  seqlenK_nonneg := hstart.length_nonneg
  seqlenQ_le := hmax

/-- Sequences of one and two rows. -/
def twoSeqs (b : ℤ) : ℤ := if b ≤ 0 then 0 else if b = 1 then 1 else 3

lemma twoSeqs_packed : Packed twoSeqs 2 := by
  intro b h0 h2
  unfold twoSeqs
  split_ifs <;> omega

lemma twoSeqs_le (b : ℤ) (h0 : 0 ≤ b) (h2 : b < 2) : twoSeqs (b + 1) - twoSeqs b ≤ 2 := by
  unfold twoSeqs
  split_ifs <;> omega

lemma two_heads_pos : (0 : ℤ) < 2 := two_pos

def twoHeads (layout : Layout) : Launch XReal XReal :=
  packedLaunch layout 2 2 2 twoSeqs two_heads_pos twoSeqs_packed twoSeqs_le

lemma twoHeads_laidOut (layout : Layout) : LaidOut (twoHeads layout) layout 64 :=
  ⟨by decide, rfl, rfl, fun h => Bool.noConfusion h, fun _ => rfl⟩

theorem wellAddressed_bhsd : WellAddressed (twoHeads .bhsd) XReal.exact fun _ => .nan :=
  (wellAddressed_iff rfl (twoHeads_laidOut .bhsd)).mpr (Or.inl rfl)

/-- Heads 0 and 1 of the first row share a slot. -/
theorem not_wellAddressed_bshd : ¬ WellAddressed (twoHeads .bshd) XReal.exact fun _ => .nan :=
  not_wellAddressed (i := 0) rfl (twoHeads_laidOut .bshd) le_rfl
    ⟨le_rfl, two_pos, le_rfl, two_pos, le_rfl, by decide⟩

end FmhaNative.LseSlots
