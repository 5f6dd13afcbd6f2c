import FmhaNative.LaunchParts

/-!
A dense launch in sub-launches: some of the sequences, some of the groups of heads and some of the
query rows, over the tensors of the whole.

Under the causal mask the diagonal is aligned to the last query and the last key. A sub-launch of
earlier rows therefore ends its keys where its last row does.
-/

namespace FmhaNative.SubLaunches

open Pipeline DeviceMemory Stores LseSlots LaunchParts OpSoftmax Offsets32

variable {α β : Type*}

/-! ### Dense launches -/

section Dense

variable {L : Launch α β} (hv : L.isVarlen = false) (b h i : ℤ)

include hv

lemma seq_dense : L.seq b = ⟨L.params.seqlenQ, L.params.seqlenK, 0, 0⟩ := by
  rw [Launch.seq, resolveSeq, hv, if_neg Bool.false_ne_true]

lemma qOff_dense : L.qOff b h i
    = b * L.params.batchStrideQ + h * L.params.nheadStrideQ + i * L.params.strideQ := by
  rw [Launch.qOff, qBase, baseOffset, hv, if_neg Bool.false_ne_true]

lemma kOff_dense : L.kOff b h i
    = b * L.params.batchStrideK + kvHeadIdx L.params h * L.params.nheadStrideK + i * L.params.strideK := by
  rw [Launch.kOff, kBase, baseOffset, hv, if_neg Bool.false_ne_true]

lemma vOff_dense : L.vOff b h i
    = b * L.params.batchStrideV + kvHeadIdx L.params h * L.params.nheadStrideV + i * L.params.strideV := by
  rw [Launch.vOff, vBase, baseOffset, hv, if_neg Bool.false_ne_true]

lemma oOff_dense : L.oOff b h i
    = b * L.params.batchStrideO + h * L.params.nheadStrideO + i * L.params.strideO := by
  rw [Launch.oOff, oBase, baseOffset, hv, if_neg Bool.false_ne_true]

end Dense

/-! ### Boxes -/

/-- The query heads of a group. -/
def ratio (L : Launch α β) : ℤ := L.params.nheadQ / L.params.nheadK

lemma ratio_mul (L : Launch α β) : L.params.nheadK * ratio L = L.params.nheadQ :=
  Int.mul_ediv_cancel' L.gqa

lemma ratio_pos (L : Launch α β) : 0 < ratio L :=
  Int.ediv_pos_of_pos_of_dvd L.nheadQ_pos L.nheadK_pos.le L.gqa

/-- Sequences `b0 ..< b0 + nb`, groups of heads `g0 ..< g0 + ng` and query rows `i0 ..< i0 + n`. -/
structure Box (L : Launch α β) where
  (b0 nb g0 ng i0 n : ℤ)
  b0_nonneg : 0 ≤ b0
  b_le : b0 + nb ≤ L.batch
  g0_nonneg : 0 ≤ g0
  ng_pos : 0 < ng
  g_le : g0 + ng ≤ L.params.nheadK
  i0_nonneg : 0 ≤ i0
  n_nonneg : 0 ≤ n
  i_le : i0 + n ≤ L.params.seqlenQ

namespace Box

variable {L : Launch α β} (x : Box L)

/-- The keys up to the diagonal of the last row. -/
def seqlenK : ℤ :=
  if L.hasMask then max 0 (x.i0 + x.n + (L.params.seqlenK - L.params.seqlenQ)) else L.params.seqlenK

/-- The argument block: the pointers at the first sequence, head and row, and the strides of the
whole. -/
def params : FmhaFwdParams α β :=
  { L.params with
    q := fun e => L.params.q (x.b0 * L.params.batchStrideQ + x.g0 * ratio L * L.params.nheadStrideQ
      + x.i0 * L.params.strideQ + e)
    k := fun e => L.params.k (x.b0 * L.params.batchStrideK + x.g0 * L.params.nheadStrideK + e)
    v := fun e => L.params.v (x.b0 * L.params.batchStrideV + x.g0 * L.params.nheadStrideV + e)
    seqlenQ := x.n
    seqlenK := x.seqlenK
    nheadQ := x.ng * ratio L
    nheadK := x.ng }

/-- Where its O lies. -/
def oShift : ℤ :=
  x.b0 * L.params.batchStrideO + x.g0 * ratio L * L.params.nheadStrideO + x.i0 * L.params.strideO

/-- The rows of the box. -/
def Holds (b h i : ℤ) : Prop :=
  (x.b0 ≤ b ∧ b < x.b0 + x.nb) ∧ (x.g0 * ratio L ≤ h ∧ h < (x.g0 + x.ng) * ratio L) ∧
    x.i0 ≤ i ∧ i < x.i0 + x.n

/-- Under the mask: whole M-tiles, up to the end of the queries. -/
def Aligned : Prop :=
  L.hasMask → 128 ∣ x.i0 ∧ (128 ∣ x.i0 + x.n ∨ x.i0 + x.n = L.params.seqlenQ)

/-- The launch of a box of a dense launch. -/
def launch (hv : L.isVarlen = false) : Launch α β where
  hasMask := L.hasMask
  isVarlen := false
  params := x.params
  batch := x.nb
  nheadK_pos := x.ng_pos
  nheadQ_pos := Int.mul_pos x.ng_pos (ratio_pos L)
  gqa := Dvd.intro _ rfl
  seqlenQ_nonneg _ _ _ := x.n_nonneg
  seqlenK_nonneg b h0 h1 := by
    have hk := L.seqlenK_nonneg (x.b0 + b) (add_nonneg x.b0_nonneg h0)
      (lt_of_lt_of_le (add_lt_add_right h1 _) x.b_le)
    rw [resolveSeq, hv, if_neg Bool.false_ne_true] at hk
    change 0 ≤ x.seqlenK
    rw [seqlenK]
    split_ifs
    · exact le_max_left _ _
    · exact hk
  seqlenQ_le _ _ _ := le_rfl

variable {x} {hv : L.isVarlen = false} {b h i : ℤ}

lemma launch_inRange : (x.launch hv).InRange b h i ↔
    (0 ≤ b ∧ b < x.nb) ∧ (0 ≤ h ∧ h < x.ng * ratio L) ∧ 0 ≤ i ∧ i < x.n :=
  ⟨fun hr => ⟨⟨hr.b_nonneg, hr.b_lt⟩, ⟨hr.h_nonneg, hr.h_lt⟩, hr.i_nonneg, hr.i_lt⟩,
    fun ⟨⟨hb, hb'⟩, ⟨hh, hh'⟩, hi, hi'⟩ => ⟨hb, hb', hh, hh', hi, hi'⟩⟩

/-- The rows of the launch are those of the box. -/
lemma launch_holds (hv : L.isVarlen = false) :
    (x.launch hv).InRange (b - x.b0) (h - x.g0 * ratio L) (i - x.i0) ↔ x.Holds b h i := by
  rw [launch_inRange, Holds, add_mul]
  refine and_congr ?_ (and_congr ?_ ?_) <;> constructor <;> rintro ⟨h1, h2⟩ <;>
    constructor <;> linarith

lemma inRange (hr : (x.launch hv).InRange b h i) :
    L.InRange (b + x.b0) (h + x.g0 * ratio L) (i + x.i0) := by
  obtain ⟨⟨hb, hb'⟩, ⟨hh, hh'⟩, hi, hi'⟩ := launch_inRange.mp hr
  have hratio := ratio_pos L
  have hgroups : (x.g0 + x.ng) * ratio L ≤ L.params.nheadQ := by
    rw [← ratio_mul L]
    exact mul_le_mul_of_nonneg_right x.g_le hratio.le
  have hle := x.b_le
  have hle' := x.i_le
  have hb0 := x.b0_nonneg
  have hg0 := mul_nonneg x.g0_nonneg hratio.le
  have hi0 := x.i0_nonneg
  refine ⟨by linarith, by linarith, by linarith, ?_, by linarith, ?_⟩
  · linarith
  · rw [seq_dense hv]
    dsimp only
    linarith

/-! ### The addresses -/

lemma kvHeadIdx_whole (hh : 0 ≤ h) : kvHeadIdx L.params h = h / ratio L := by
  rw [kvHeadIdx, Int.tdiv_eq_ediv_of_nonneg L.nheadQ_pos.le, Int.tdiv_eq_ediv_of_nonneg hh, ratio]

/-- The key head of a query head of the box. -/
lemma kvHeadIdx_launch (hv : L.isVarlen = false) (hh : 0 ≤ h) :
    kvHeadIdx L.params (h + x.g0 * ratio L) = kvHeadIdx (x.launch hv).params h + x.g0 := by
  have hratio := ratio_pos L
  rw [kvHeadIdx_whole (add_nonneg hh (mul_nonneg x.g0_nonneg hratio.le)), kvHeadIdx_whole hh,
    Int.add_mul_ediv_right _ _ hratio.ne']
  congr 2
  exact (Int.mul_ediv_cancel_left _ x.ng_pos.ne').symm

lemma qOff_launch (hv : L.isVarlen = false) :
    L.qOff (b + x.b0) (h + x.g0 * ratio L) (i + x.i0)
    = x.b0 * L.params.batchStrideQ + x.g0 * ratio L * L.params.nheadStrideQ + x.i0 * L.params.strideQ
      + (x.launch hv).qOff b h i := by
  rw [qOff_dense hv, qOff_dense rfl]
  dsimp only [launch, params]
  ring

lemma kOff_launch (hv : L.isVarlen = false) (hh : 0 ≤ h) (j : ℤ) : L.kOff (b + x.b0) (h + x.g0 * ratio L) j
    = x.b0 * L.params.batchStrideK + x.g0 * L.params.nheadStrideK + (x.launch hv).kOff b h j := by
  rw [kOff_dense hv, kOff_dense rfl, kvHeadIdx_launch hv hh]
  dsimp only [launch, params]
  ring

lemma vOff_launch (hv : L.isVarlen = false) (hh : 0 ≤ h) (j : ℤ) : L.vOff (b + x.b0) (h + x.g0 * ratio L) j
    = x.b0 * L.params.batchStrideV + x.g0 * L.params.nheadStrideV + (x.launch hv).vOff b h j := by
  rw [vOff_dense hv, vOff_dense rfl, kvHeadIdx_launch hv hh]
  dsimp only [launch, params]
  ring

lemma oOff_launch (hv : L.isVarlen = false) :
    L.oOff (b + x.b0) (h + x.g0 * ratio L) (i + x.i0) = x.oShift + (x.launch hv).oOff b h i := by
  rw [oOff_dense hv, oOff_dense rfl]
  dsimp only [launch, params, oShift]
  ring

/-- The rows of a box are no further from its pointers than those of the whole. -/
lemma offsetsExact (hv : L.isVarlen = false) (hx : OffsetsExact L) : OffsetsExact (x.launch hv) := by
  refine exact_of_seqOk fun b hb hbB hq => ?_
  have hb' : b + x.b0 < L.batch := lt_of_lt_of_le (by rw [add_comm]; exact add_lt_add_right hbB _) x.b_le
  have hle := x.i_le
  have hi0 := x.i0_nonneg
  obtain ⟨hO, hload⟩ := seqOk_of_exact hx (add_nonneg hb x.b0_nonneg) hb' (by
    rw [seq_dense hv]
    rw [seq_dense rfl] at hq
    dsimp only [launch, params] at hq ⊢
    omega)
  rw [seq_dense rfl] at hq ⊢
  rw [seq_dense hv] at hO hload
  dsimp only [launch, params] at hq hO hload ⊢
  refine ⟨hO.mono hq (by omega), fun hk => ?_⟩
  have hkle : x.seqlenK ≤ L.params.seqlenK := by
    unfold seqlenK at hk ⊢
    split_ifs at hk ⊢ <;> omega
  obtain ⟨hQ, hK, hV⟩ := hload (by omega)
  exact ⟨hQ.mono hq (by omega), hK.mono hk hkle, hV.mono hk hkle⟩

/-- With exact offsets a box writes where the whole does. -/
lemma oAddr_launch (hv : L.isVarlen = false) (hx : OffsetsExact L) (hr : (x.launch hv).InRange b h i)
    {d : ℕ} (hd : d < 64) : L.oAddr (b + x.b0) (h + x.g0 * ratio L) (i + x.i0) d
      = ((x.launch hv).oAddr b h i d).map fun a => x.oShift + a := by
  rw [Launch.oAddr_of_exact hx (inRange hr) hd, Launch.oAddr_of_exact (offsetsExact hv hx) hr hd,
    oOff_launch hv, Option.map_some, add_assoc]

/-! ### The keys -/

lemma attended_launch (hr : (x.launch hv).InRange b h i) (j : ℕ) :
    (x.launch hv).attended b i j ↔ L.attended (b + x.b0) (i + x.i0) j := by
  have hi := hr.i_lt
  have hle := x.i_le
  rw [seq_dense rfl] at hi
  rw [Launch.attended, Launch.attended, seq_dense hv, seq_dense rfl]
  dsimp only [launch, params, seqlenK] at hi ⊢
  unfold attends
  cases L.hasMask
  · simp
  · simp only [if_true, forall_const]
    omega

/-- The number of tiles, from the key bound. -/
lemma tiles_eq_keyEnd (L : Launch α β) (hv : L.isVarlen = false) (b i : ℤ) :
    L.tiles b i = ((LoopBound.keyEnd L.hasMask L.params.seqlenQ L.params.seqlenK (i / 128) + 63) / 64).toNat := by
  rw [Launch.tiles, seq_dense hv]
  dsimp only
  rcases le_or_gt (LoopBound.keyEnd L.hasMask L.params.seqlenQ L.params.seqlenK (i / 128)) 0 with h | h
  · have := LoopBound.numTotalLoop_nonpos h
    omega
  · rw [LoopBound.numTotalLoop_eq h]

/-- Whole M-tiles walk the same tiles of keys. -/
lemma tiles_launch (ha : x.Aligned) (hr : (x.launch hv).InRange b h i) :
    (x.launch hv).tiles b i = L.tiles (b + x.b0) (i + x.i0) := by
  obtain ⟨-, -, hi0, hi⟩ := launch_inRange.mp hr
  have hle := x.i_le
  rw [tiles_eq_keyEnd _ rfl, tiles_eq_keyEnd _ hv]
  dsimp only [launch, params, seqlenK, LoopBound.keyEnd]
  cases hm : L.hasMask
  · simp
  · obtain ⟨⟨c, hc⟩, hend⟩ := ha hm
    have hdiv : (i + x.i0) / 128 = i / 128 + c := by
      rw [hc, Int.add_mul_ediv_left _ _ (by norm_num)]
    have hbound : i / 128 * 128 + 128 ≤ x.n ∨ x.i0 + x.n = L.params.seqlenQ := by
      refine hend.imp_left fun ⟨e, he⟩ => ?_
      omega
    simp only [if_true]
    rw [hdiv]
    omega

lemma sameRow (ha : x.Aligned) (hr : (x.launch hv).InRange b h i) :
    SameRow L (x.launch hv) (b + x.b0) (h + x.g0 * ratio L) (i + x.i0) b h i where
  scale := rfl
  attended := attended_launch hr
  tiles := tiles_launch ha hr
  q d _ := by
    rw [qOff_launch hv, add_assoc]
    rfl
  k j d _ _ := by
    rw [kOff_launch hv hr.h_nonneg, add_assoc]
    rfl
  v j d _ _ := by
    rw [Launch.rawValue, Launch.rawValue, vOff_launch hv hr.h_nonneg, add_assoc]
    rfl

/-- The box of whole M-tiles, as a part of the launch. -/
def part [Fp α] [Zero β] (x : Box L) (bf : Bf16 α β) (hv : L.isVarlen = false)
    (hx : OffsetsExact L) (ha : x.Aligned) : Part bf L where
  launch := x.launch hv
  b := x.b0
  h := x.g0 * ratio L
  i := x.i0
  oShift := x.oShift
  inRange := inRange
  cell hr hd := (sameRow ha hr).cell bf (inRange hr) hr hd
  oAddr hr hd := oAddr_launch hv hx hr hd

end Box

/-! ### In exact arithmetic, any box -/

section Exact

variable {L : Launch ℝ ℝ} {x : Box L} {hv : L.isVarlen = false} {b h i : ℤ}

lemma keys_launch (hr : (x.launch hv).InRange b h i) :
    (x.launch hv).keys b i = L.keys (b + x.b0) (i + x.i0) := by
  ext j
  rw [Launch.keys, Launch.keys, Attention.mem_keys, Attention.mem_keys]
  exact Box.attended_launch hr j

lemma score_launch (hr : (x.launch hv).InRange b h i) :
    (x.launch hv).score b h i = L.score (b + x.b0) (h + x.g0 * ratio L) (i + x.i0) := by
  funext j
  rw [Launch.score, Launch.score, Box.qOff_launch hv, Box.kOff_launch hv hr.h_nonneg]
  refine congrArg _ (Finset.sum_congr rfl fun d _ => ?_)
  exact congrArg₂ (· * ·) (congrArg L.params.q (add_assoc _ _ _).symm)
    (congrArg L.params.k (add_assoc _ _ _).symm)

lemma value_launch (hr : (x.launch hv).InRange b h i) :
    (x.launch hv).value b h = L.value (b + x.b0) (h + x.g0 * ratio L) := by
  funext j d
  rw [Launch.value, Launch.value, Box.vOff_launch hv hr.h_nonneg, add_assoc]
  rfl

lemma oInjective_exact (hinj : L.OInjective) : L.exact.OInjective :=
  fun _ _ _ _ _ _ _ _ hr hd hr' hd' he =>
    hinj _ _ _ _ _ _ _ _ ((exact_inRange L).mp hr) hd ((exact_inRange L).mp hr') hd' he

/-- A box, as a part of the launch in exact arithmetic. -/
noncomputable def exactPart (x : Box L) (hv : L.isVarlen = false) (hx : OffsetsExact L)
    (hσ : 0 < L.params.scale) : Part XReal.exact L.exact where
  launch := (x.launch hv).exact
  b := x.b0
  h := x.g0 * ratio L
  i := x.i0
  oShift := x.oShift
  inRange hr := (Box.inRange ((exact_inRange _).mp hr)).exact
  cell hr hd := by
    have hr' := (exact_inRange _).mp hr
    rw [cell_attention (x.launch hv) hσ hr' hd, cell_attention L hσ (Box.inRange hr') hd,
      keys_launch hr', score_launch hr', value_launch hr']
  oAddr hr hd := Box.oAddr_launch hv hx ((exact_inRange _).mp hr) hd

end Exact

/-! ### The boxes and the whole -/

section Whole

variable {L : Launch α β}

/-- Launches of boxes that hold every row, in any order, with the stores of each. -/
structure Boxes {V : Type*} (stored : Box L → List (ℤ × V) → Prop)
    (parts : List (Box L × List (ℤ × V))) : Prop where
  each : ∀ x ∈ parts, stored x.1 x.2
  all : ∀ b h i, L.InRange b h i → ∃ x ∈ parts, x.1.Holds b h i

/-- The stores of the boxes, each launch with its pointer into the O of the whole. -/
def intoBoxes {V : Type*} (parts : List (Box L × List (ℤ × V))) : List (ℤ × V) :=
  intoWhole Box.oShift parts

variable [Fp α] [Zero β] {bf : Bf16 α β}

/-- **A dense launch in boxes of whole M-tiles**: launches of some sequences, groups of heads and
query rows, in any order, leave the same O, bit for bit, as the launch of all of them, when its
32-bit offsets are exact and the rows of O keep apart; and each leaves in its log-sum-exp tensor what
the whole launch leaves for the row. -/
theorem boxes_eq_whole (hv : L.isVarlen = false) (hexact : OffsetsExact L) :
    (L.OInjective → ∀ (wss : List (List (ℤ × β))) (parts : List (Box L × List (ℤ × β))),
      wss ≠ [] → (∀ ws ∈ wss, OStores bf L ws) →
      Boxes (fun x ws => x.Aligned ∧ OStores bf (x.launch hv) ws) parts →
      ∀ m : Mem β, stores m wss.flatten = stores m (intoBoxes parts)) ∧
    (L.params.lse → ∀ x : Box L, x.Aligned → ∀ b h i, (x.launch hv).InRange b h i →
      ∀ lss lss' : List (List (ℤ × α)), lss ≠ [] → lss' ≠ [] →
      (∀ ls ∈ lss, LseStores bf L ls) → (∀ ls ∈ lss', LseStores bf (x.launch hv) ls) →
      ∀ m m' : Mem α, stores m lss.flatten (slot L (b + x.b0) (h + x.g0 * ratio L) (i + x.i0))
        = stores m' lss'.flatten (slot (x.launch hv) b h i)) := by
  constructor
  · intro hinj wss parts hne hws hparts m
    refine parts_eq_whole Box.oShift (Launch.writesApart_of_exact hexact hinj) hne hws (fun x hx => ?_)
      (fun b h i hr => ?_) m
    · obtain ⟨ha, hst⟩ := hparts.each x hx
      exact ⟨x.1.part bf hv hexact ha, rfl, hst⟩
    · obtain ⟨x, hx, hmem⟩ := hparts.all b h i hr
      obtain ⟨ha, hst⟩ := hparts.each x hx
      exact ⟨x, hx, x.1.part bf hv hexact ha, rfl, hst, (Box.launch_holds hv).mpr hmem⟩
  · intro hlse x ha b h i hr lss lss' hne hne' hls hls' m m'
    have hlse' : (x.launch hv).params.lse := hlse
    rw [lse_left hlse (slotsApart_dense hv) hne hls m (Box.inRange hr),
      lse_left hlse' (slotsApart_dense rfl) hne' hls' m' hr,
      (Box.sameRow ha hr).lseCell bf (Box.inRange hr) hr]

end Whole

/-- Two causal queries of two groups of heads, and three keys. -/
noncomputable def twoGroups : Launch ℝ ℝ :=
  .bhsd true true (fun e => e) (fun e => -e) (fun e => 2 * e) 1 1 2 2 2 3 two_pos two_pos zero_le_two
    (by norm_num)

lemma twoGroups_oInjective : twoGroups.OInjective := by
  unfold twoGroups
  exact Launch.bhsd_oInjective _ _ _ _ _ _ _ _ _ _ _ _ _ _ _

lemma twoGroups_exact : OffsetsExact twoGroups :=
  exact_bhsd _ _ _ _ _ _ _ _ _ _ _ _ _ _ _ (by norm_num) (by norm_num)

/-- One group of heads, with all its rows. -/
noncomputable def oneGroup (g : ℤ) (h0 : 0 ≤ g) (h1 : g + 1 ≤ 2) : Box twoGroups.exact :=
  ⟨0, 1, g, 1, 0, 2, Int.le_refl _, Int.le_refl _, h0, Int.one_pos, h1, Int.le_refl _,
    Int.natCast_nonneg 2, Int.le_refl _⟩

/-- The groups launched one at a time, the second one first. -/
theorem boxes_eq_whole_groups :
    ∃ ws us vs : List (ℤ × XReal), OStores XReal.exact twoGroups.exact ws ∧
      OStores XReal.exact ((oneGroup 1 zero_le_one le_rfl).launch rfl) us ∧
      OStores XReal.exact ((oneGroup 0 le_rfl one_le_two).launch rfl) vs ∧
      stores (fun _ => .nan) [ws].flatten = stores (fun _ => .nan)
        (intoBoxes [(oneGroup 1 zero_le_one le_rfl, us), (oneGroup 0 le_rfl one_le_two, vs)]) := by
  obtain ⟨ws, hws⟩ := exists_oStores XReal.exact twoGroups.exact
  obtain ⟨us, hus⟩ := exists_oStores XReal.exact ((oneGroup 1 zero_le_one le_rfl).launch rfl)
  obtain ⟨vs, hvs⟩ := exists_oStores XReal.exact ((oneGroup 0 le_rfl one_le_two).launch rfl)
  have hparts : Boxes (fun x ws => x.Aligned ∧ OStores XReal.exact (x.launch rfl) ws)
      [(oneGroup 1 zero_le_one le_rfl, us), (oneGroup 0 le_rfl one_le_two, vs)] := by
    refine ⟨fun x hx => ?_, fun b h i hr => ?_⟩
    · rcases List.mem_pair.mp hx with rfl | rfl
      · exact ⟨fun _ => ⟨dvd_zero _, Or.inr rfl⟩, hus⟩
      · exact ⟨fun _ => ⟨dvd_zero _, Or.inr rfl⟩, hvs⟩
    · have hb : b < 1 := hr.b_lt
      have hh : h < 4 := hr.h_lt
      have hi : i < 2 := hr.i_lt
      have hb0 := hr.b_nonneg
      have hh0 := hr.h_nonneg
      have hi0 := hr.i_nonneg
      have hratio : ratio twoGroups.exact = 2 := rfl
      rcases lt_or_ge h 2 with hlt | hge
      · refine ⟨_, List.mem_cons_of_mem _ (List.mem_singleton_self _), ⟨?_, ?_⟩, ?_, ?_⟩ <;>
          simp only [oneGroup, hratio] <;> omega
      · refine ⟨_, List.mem_cons_self, ⟨?_, ?_⟩, ?_, ?_⟩ <;> simp only [oneGroup, hratio] <;> omega
  exact ⟨ws, us, vs, hws, hus, hvs, (boxes_eq_whole rfl (exact_offsetsExact twoGroups_exact)).1
    (oInjective_exact twoGroups_oInjective) _ _ (List.cons_ne_nil _ _)
    (fun x hx => by rwa [List.mem_singleton.mp hx]) hparts _⟩

/-- **Chunks of queries, in exact arithmetic**: wherever the rows are cut, and down to one row a
launch, the boxes leave the O of the whole, when its 32-bit offsets are exact and the rows of O keep
apart, and the log-sum-exps of the whole. -/
theorem chunks_eq_whole {L : Launch ℝ ℝ} (hv : L.isVarlen = false) (hσ : 0 < L.params.scale)
    (hexact : OffsetsExact L) :
    (L.OInjective → ∀ (wss : List (List (ℤ × XReal))) (parts : List (Box L × List (ℤ × XReal))),
      wss ≠ [] → (∀ ws ∈ wss, OStores XReal.exact L.exact ws) →
      Boxes (fun x ws => OStores XReal.exact (x.launch hv).exact ws) parts →
      ∀ m : Mem XReal, stores m wss.flatten = stores m (intoBoxes parts)) ∧
    (L.params.lse → ∀ x : Box L, ∀ b h i, (x.launch hv).InRange b h i →
      ∀ lss lss' : List (List (ℤ × XReal)), lss ≠ [] → lss' ≠ [] →
      (∀ ls ∈ lss, LseStores XReal.exact L.exact ls) →
      (∀ ls ∈ lss', LseStores XReal.exact (x.launch hv).exact ls) →
      ∀ m m' : Mem XReal, stores m lss.flatten (slot L (b + x.b0) (h + x.g0 * ratio L) (i + x.i0))
        = stores m' lss'.flatten (slot (x.launch hv) b h i)) := by
  constructor
  · intro hinj wss parts hne hws hparts m
    refine parts_eq_whole Box.oShift (Launch.writesApart_of_exact (exact_offsetsExact hexact)
      (oInjective_exact hinj)) hne hws (fun x hx => ?_) (fun b h i hr => ?_) m
    · exact ⟨exactPart x.1 hv hexact hσ, rfl, hparts.each x hx⟩
    · obtain ⟨x, hx, hmem⟩ := hparts.all b h i ((exact_inRange L).mp hr)
      exact ⟨x, hx, exactPart x.1 hv hexact hσ, rfl, hparts.each x hx,
        ((Box.launch_holds hv).mpr hmem).exact⟩
  · intro hlse x b h i hr lss lss' hne hne' hls hls' m m'
    have hwhole := lseStores_leave L hσ hlse (slotsApart_dense hv) hne hls m
    have hbox := lseStores_leave (x.launch hv) hσ hlse (slotsApart_dense rfl) hne' hls' m'
    rw [hwhole.1 _ _ _ (Box.inRange hr), hbox.1 _ _ _ hr, keys_launch hr, score_launch hr]

/-- One row of every head. -/
noncomputable def oneRow (r : ℤ) (h0 : 0 ≤ r) (h1 : r + 1 ≤ 2) : Box twoGroups :=
  ⟨0, 1, 0, 2, r, 1, Int.le_refl _, Int.le_refl _, Int.le_refl _, Int.ofNat_succ_pos 1,
    Int.le_refl _, h0, Int.natCast_nonneg 1, h1⟩

/-- The rows launched one at a time: the first one with the two keys that it attends. -/
theorem chunks_eq_whole_rows :
    ∃ ws us vs : List (ℤ × XReal), OStores XReal.exact twoGroups.exact ws ∧
      OStores XReal.exact ((oneRow 0 le_rfl one_le_two).launch rfl).exact us ∧
      OStores XReal.exact ((oneRow 1 zero_le_one le_rfl).launch rfl).exact vs ∧
      stores (fun _ => .nan) [ws].flatten = stores (fun _ => .nan)
        (intoBoxes [(oneRow 0 le_rfl one_le_two, us), (oneRow 1 zero_le_one le_rfl, vs)]) := by
  obtain ⟨ws, hws⟩ := exists_oStores XReal.exact twoGroups.exact
  obtain ⟨us, hus⟩ := exists_oStores XReal.exact ((oneRow 0 le_rfl one_le_two).launch rfl).exact
  obtain ⟨vs, hvs⟩ := exists_oStores XReal.exact ((oneRow 1 zero_le_one le_rfl).launch rfl).exact
  have hparts : Boxes (fun x ws => OStores XReal.exact (x.launch rfl).exact ws)
      [(oneRow 0 le_rfl one_le_two, us), (oneRow 1 zero_le_one le_rfl, vs)] := by
    refine ⟨fun x hx => ?_, fun b h i hr => ?_⟩
    · rcases List.mem_pair.mp hx with rfl | rfl
      · exact hus
      · exact hvs
    · have hb : b < 1 := hr.b_lt
      have hh : h < 4 := hr.h_lt
      have hi : i < 2 := hr.i_lt
      have hb0 := hr.b_nonneg
      have hh0 := hr.h_nonneg
      have hi0 := hr.i_nonneg
      have hratio : ratio twoGroups = 2 := rfl
      rcases lt_or_ge i 1 with hlt | hge
      · refine ⟨_, List.mem_cons_self, ⟨?_, ?_⟩, ?_, ?_⟩ <;> simp only [oneRow, hratio] <;> omega
      · refine ⟨_, List.mem_cons_of_mem _ (List.mem_singleton_self _), ⟨?_, ?_⟩, ?_, ?_⟩ <;>
          simp only [oneRow, hratio] <;> omega
  exact ⟨ws, us, vs, hws, hus, hvs, (chunks_eq_whole rfl one_pos twoGroups_exact).1
    twoGroups_oInjective _ _ (List.cons_ne_nil _ _)
    (fun x hx => by rwa [List.mem_singleton.mp hx]) hparts _⟩

end FmhaNative.SubLaunches
