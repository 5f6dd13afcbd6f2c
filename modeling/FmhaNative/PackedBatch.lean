import FmhaNative.LaunchParts

/-!
A packed batch against its sequences launched one at a time: a dense launch that points at one
sequence of a packed batch is a part of it.
-/

namespace FmhaNative.PackedBatch

open Pipeline DeviceMemory Stores LseSlots LaunchParts Offsets32

variable {α β : Type*}

/-! ### One sequence of a packed batch -/

section Alone

variable (L : Launch α β)

/-- A dense launch of one sequence: the pointers at its first row, its lengths, the strides of the
packed tensors. -/
def alone {b : ℤ} (h0 : 0 ≤ b) (h1 : b < L.batch) : Launch α β where
  hasMask := L.hasMask
  isVarlen := false
  params :=
    { L.params with
      q := fun e => L.params.q ((L.seq b).offsetQ * L.params.strideQ + e)
      k := fun e => L.params.k ((L.seq b).offsetK * L.params.strideK + e)
      v := fun e => L.params.v ((L.seq b).offsetK * L.params.strideV + e)
      seqlenQ := (L.seq b).seqlenQ
      seqlenK := (L.seq b).seqlenK }
  batch := 1
  nheadK_pos := L.nheadK_pos
  nheadQ_pos := L.nheadQ_pos
  gqa := L.gqa
  seqlenQ_nonneg _ _ _ := L.seqlenQ_nonneg b h0 h1
  seqlenK_nonneg _ _ _ := L.seqlenK_nonneg b h0 h1
  seqlenQ_le _ _ _ := le_rfl

variable {L} {b h i : ℤ} {h0 : 0 ≤ b} {h1 : b < L.batch}

lemma alone_inRange {b' : ℤ} :
    (alone L h0 h1).InRange b' h i ↔ b' = 0 ∧ L.InRange b h i := by
  constructor
  · intro hr
    have hb0 := hr.b_nonneg
    have hb1 : b' < 1 := hr.b_lt
    exact ⟨by omega, h0, h1, hr.h_nonneg, hr.h_lt, hr.i_nonneg, hr.i_lt⟩
  · rintro ⟨rfl, hr⟩
    exact ⟨le_rfl, one_pos, hr.h_nonneg, hr.h_lt, hr.i_nonneg, hr.i_lt⟩

lemma baseOffset_alone (hv : L.isVarlen) (headIdx rowOffset stride nheadStride batchStride : ℤ) :
    baseOffset L.isVarlen b headIdx rowOffset stride nheadStride batchStride
      = rowOffset * stride + baseOffset false 0 headIdx 0 stride nheadStride batchStride := by
  simp only [baseOffset, if_pos hv, Bool.false_eq_true, if_false]
  ring

/-- The descriptor of a sequence drops the same stores in both launches. -/
lemma oAddr_alone (hv : L.isVarlen) (h0 : 0 ≤ b) (h1 : b < L.batch) (d : ℕ) :
    L.oAddr b h i d
      = ((alone L h0 h1).oAddr 0 h i d).map fun a => (L.seq b).offsetQ * L.params.strideO + a := by
  simp only [Launch.oAddr, oBase, baseOffset_alone hv, Option.map_map, Function.comp_def, add_assoc]
  rfl

/-- The rows of the launch are the rows of the sequence. -/
lemma alone_sameRow (hv : L.isVarlen) : SameRow L (alone L h0 h1) b h i 0 h i where
  scale := rfl
  attended _ := Iff.rfl
  tiles := rfl
  q d _ := by
    simp only [Launch.qOff, qBase, baseOffset_alone hv, add_assoc]
    rfl
  k j d _ _ := by
    simp only [Launch.kOff, kBase, baseOffset_alone hv, add_assoc]
    rfl
  v j d _ _ := by
    simp only [Launch.rawValue, Launch.vOff, vBase, baseOffset_alone hv, add_assoc]
    rfl

end Alone

/-! ### The batch and its sequences -/

section Batch

variable [Fp α] [Zero β] (bf : Bf16 α β) (L : Launch α β)

/-- Launches of single sequences, with the stores of each: every sequence of the batch at least
once, in any order. -/
structure OneByOne (parts : List (ℤ × List (ℤ × β))) : Prop where
  each : ∀ x ∈ parts, ∃ (h0 : 0 ≤ x.1) (h1 : x.1 < L.batch), OStores bf (alone L h0 h1) x.2
  all : ∀ b, 0 ≤ b → b < L.batch → ∃ ws, (b, ws) ∈ parts

/-- The stores of the single sequences into the packed O: the pointer of each is at its first row. -/
def intoPacked (parts : List (ℤ × List (ℤ × β))) : List (ℤ × β) :=
  parts.flatMap fun x => x.2.map fun w => ((L.seq x.1).offsetQ * L.params.strideO + w.1, w.2)

variable {bf L}

/-- The sequence, as a part of the batch. -/
def alonePart (hv : L.isVarlen) (h0 : 0 ≤ b) (h1 : b < L.batch) : Part bf L where
  launch := alone L h0 h1
  b := b
  h := 0
  i := 0
  oShift := (L.seq b).offsetQ * L.params.strideO
  inRange hr := by
    obtain ⟨rfl, hr'⟩ := alone_inRange.mp hr
    simpa only [zero_add, add_zero] using hr'
  cell hr hd := by
    obtain ⟨rfl, hr'⟩ := alone_inRange.mp hr
    simpa only [zero_add, add_zero] using (alone_sameRow hv).cell bf hr' hr hd
  oAddr hr _ := by
    obtain ⟨rfl, -⟩ := alone_inRange.mp hr
    simpa only [zero_add, add_zero] using oAddr_alone hv h0 h1 _

/-- **A packed batch is its sequences.** The varlen launch leaves the same O, bit for bit, as dense
launches of the single sequences in any order, each with its pointers at the sequence's first row,
when no element of O is written for two places; and in a layout that keeps the heads apart it leaves
in the log-sum-exp tensor what each of those launches leaves in its own. -/
theorem packed_eq_alone (hv : L.isVarlen) :
    (L.WritesApart → ∀ (wss : List (List (ℤ × β))) (parts : List (ℤ × List (ℤ × β))),
      wss ≠ [] → (∀ ws ∈ wss, OStores bf L ws) → OneByOne bf L parts →
      ∀ m : Mem β, stores m wss.flatten = stores m (intoPacked L parts)) ∧
    ∀ (layout : Layout) (D : ℤ), L.params.lse → LaidOut L layout D →
      (layout = .bhsd ∨ L.params.nheadQ = 1) →
      ∀ b h i (hr : L.InRange b h i) (lss lss' : List (List (ℤ × α))), lss ≠ [] → lss' ≠ [] →
      (∀ ls ∈ lss, LseStores bf L ls) →
      (∀ ls ∈ lss', LseStores bf (alone L hr.b_nonneg hr.b_lt) ls) → ∀ m m' : Mem α,
      stores m lss.flatten (slot L b h i)
        = stores m' lss'.flatten (slot (alone L hr.b_nonneg hr.b_lt) 0 h i) := by
  constructor
  · intro hap wss parts hne hws hparts m
    refine parts_eq_whole (fun b => (L.seq b).offsetQ * L.params.strideO) hap hne hws
      (fun x hx => ?_) (fun b h i hr => ?_) m
    · obtain ⟨h0, h1, hst⟩ := hparts.each x hx
      exact ⟨alonePart hv h0 h1, rfl, hst⟩
    · obtain ⟨ws, hmem⟩ := hparts.all b hr.b_nonneg hr.b_lt
      obtain ⟨h0, h1, hst⟩ := hparts.each _ hmem
      refine ⟨_, hmem, alonePart hv h0 h1, rfl, hst, ?_⟩
      rw [alonePart]
      dsimp only
      rw [sub_self, sub_zero, sub_zero]
      exact alone_inRange.mpr ⟨rfl, hr⟩
  · intro layout D hlse hl hgood b h i hr lss lss' hne hne' hls hls' m m'
    have hr' : (alone L hr.b_nonneg hr.b_lt).InRange 0 h i := alone_inRange.mpr ⟨rfl, hr⟩
    have hlse' : (alone L hr.b_nonneg hr.b_lt).params.lse := hlse
    rw [lse_left hlse (slotsApart_laidOut hl hgood) hne hls m hr,
      lse_left hlse' (slotsApart_dense rfl) hne' hls' m' hr',
      (alone_sameRow hv).lseCell bf hr hr']

end Batch

/-- The O of the head-major packed layout: 64 columns at each slot. -/
lemma twoHeads_oOff (b h i : ℤ) : (twoHeads .bhsd).oOff b h i = slot (twoHeads .bhsd) b h i * 64 := by
  change h * (3 * 64) + twoSeqs b * 64 + i * 64 = (h * 3 + twoSeqs b + i) * 64
  ring

lemma twoHeads_oInjective : (twoHeads .bhsd).OInjective := by
  intro b h i b' h' i' d d' hr hd hr' hd' he
  rw [twoHeads_oOff, twoHeads_oOff] at he
  obtain ⟨hs, hdd⟩ := Indexing.radix_inj (Int.natCast_nonneg d) (by exact_mod_cast hd)
    (Int.natCast_nonneg d') (by exact_mod_cast hd') he
  obtain ⟨hb, hh, hi⟩ := slotsApart_laidOut (twoHeads_laidOut .bhsd) (Or.inl rfl) _ _ _ _ _ _ hr hr' hs
  exact ⟨hb, hh, hi, by exact_mod_cast hdd⟩

lemma twoHeads_exact : OffsetsExact (twoHeads .bhsd) := by
  have h0 : (0 : ℤ) ≤ 64 := by norm_num
  have h62 : (62 : ℤ) < 64 := by norm_num
  have hlen : ∀ b, 0 ≤ b → b < (twoHeads .bhsd).batch →
      ((twoHeads .bhsd).seq b).seqlenQ ≤ 2 ∧ ((twoHeads .bhsd).seq b).seqlenK ≤ 2 := fun b hb hbB =>
    ⟨twoSeqs_le b hb hbB, twoSeqs_le b hb hbB⟩
  have hload : lastByte 2 64 < numRecords := by decide
  exact exact_of_lastByte hlen ⟨h0, hload⟩ ⟨h0, hload⟩ ⟨h0, hload⟩ ⟨h62, by decide⟩

/-- Two packed sequences, and the two launched alone, the second one first. -/
theorem packed_eq_alone_twoSeqs :
    ∃ ws us vs : List (ℤ × XReal), OStores XReal.exact (twoHeads .bhsd) ws ∧
      OStores XReal.exact (alone (twoHeads .bhsd) (b := 1) zero_le_one one_lt_two) us ∧
      OStores XReal.exact (alone (twoHeads .bhsd) (b := 0) le_rfl two_pos) vs ∧
      stores (fun _ => .nan) [ws].flatten
        = stores (fun _ => .nan) (intoPacked (twoHeads .bhsd) [(1, us), (0, vs)]) := by
  obtain ⟨ws, hws⟩ := exists_oStores XReal.exact (twoHeads .bhsd)
  obtain ⟨us, hus⟩ := exists_oStores XReal.exact
    (alone (twoHeads .bhsd) (b := 1) zero_le_one one_lt_two)
  obtain ⟨vs, hvs⟩ := exists_oStores XReal.exact (alone (twoHeads .bhsd) (b := 0) le_rfl two_pos)
  have hparts : OneByOne XReal.exact (twoHeads .bhsd) [(1, us), (0, vs)] := by
    refine ⟨fun x hx => ?_, fun b h0 h1 => ?_⟩
    · rcases List.mem_pair.mp hx with rfl | rfl
      · exact ⟨_, _, hus⟩
      · exact ⟨_, _, hvs⟩
    · have hb : b = 0 ∨ b = 1 := by
        have : b < 2 := h1
        omega
      rcases hb with rfl | rfl
      · exact ⟨vs, by simp⟩
      · exact ⟨us, by simp⟩
  have hall : ∀ x ∈ [ws], OStores XReal.exact (twoHeads .bhsd) x := by
    intro x hx
    rwa [List.mem_singleton.mp hx]
  exact ⟨ws, us, vs, hws, hus, hvs, (packed_eq_alone rfl).1
    (Launch.writesApart_of_exact twoHeads_exact twoHeads_oInjective) _ _ (List.cons_ne_nil _ _) hall hparts _⟩

end FmhaNative.PackedBatch
