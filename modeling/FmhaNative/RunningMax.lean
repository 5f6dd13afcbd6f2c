import FmhaNative.Attention
import FmhaNative.Launch
import FmhaNative.OnlineSoftmax

/-!
Whether the running maximum of a row ends at the row's true maximum.

The maximum starts at `-5000`. A row ends at the larger of that and its attended scores, so the
seed stays in it when every attended score is below.
-/

namespace FmhaNative

/-- Exact arithmetic whose `exp2f` is `e` on the real numbers. -/
def WithExp2 (_e : ℝ → ℝ) : Type := XReal

namespace WithExp2

variable {e : ℝ → ℝ}

/-- `exp2f`, and its limits at the special values. -/
noncomputable def exp2 (e : ℝ → ℝ) : XReal → XReal
  | .fin a => .fin (e a)
  | x => XReal.exp2 x

noncomputable instance : Fp (WithExp2 e) :=
  { (inferInstance : Fp XReal) with exp2f := exp2 e }

/-- A real number. -/
def real (a : ℝ) : WithExp2 e := XReal.fin a

lemma real_injective : Function.Injective (real (e := e)) := fun _ _ h => XReal.fin.inj h

lemma lit_def (n : ℤ) : (Fp.lit n : WithExp2 e) = real n := rfl
lemma zero_def : (0 : WithExp2 e) = real 0 := rfl
lemma add_real (a b : ℝ) : (real a + real b : WithExp2 e) = real (a + b) := rfl
lemma mul_real (a b : ℝ) : (real a * real b : WithExp2 e) = real (a * b) := rfl
lemma sub_real (a b : ℝ) : Fp.sub (real a : WithExp2 e) (real b) = real (a - b) := XReal.sub_fin a b
lemma fmaf_real (a b c : ℝ) : Fp.fmaf (real a : WithExp2 e) (real b) (-real c) = real (a * b - c) := by
  rw [sub_eq_add_neg]
  rfl
lemma fmaxf_real (a b : ℝ) : Fp.fmaxf (real a : WithExp2 e) (real b) = real (max a b) := rfl
lemma fmaxf_negInf (a : ℝ) : Fp.fmaxf (real a : WithExp2 e) Fp.negInf = real a := rfl
lemma exp2f_real (a : ℝ) : Fp.exp2f (real a : WithExp2 e) = real (e a) := rfl
lemma exp2f_negInf : Fp.exp2f (Fp.negInf : WithExp2 e) = real 0 := rfl

lemma fmaf_negInf {a : ℝ} (ha : 0 < a) (c : ℝ) :
    Fp.fmaf (real a : WithExp2 e) Fp.negInf (-real c) = Fp.negInf := XReal.fmaf_ninf ha (-c)

lemma lt_real (a b : ℝ) : Fp.lt (real a : WithExp2 e) (real b) = true ↔ a < b := XReal.lt_def _ _

lemma sum_real {ι : Type*} (A : Finset ι) (f : ι → ℝ) :
    (∑ j ∈ A, real (f j) : WithExp2 e) = real (∑ j ∈ A, f j) := XReal.sum_fin A f

end WithExp2

namespace RunningMax

open Pipeline RowRecurrence OpSoftmax OnlineSoftmax WithExp2

variable {e : ℝ → ℝ} {β : Type*} [Zero β]

/-! ### One row -/

variable {S : ℤ → WithExp2 e} {attended : ℕ → Prop} [DecidablePred attended] {x : ℕ → ℝ}

/-- The scores of a row: real where it attends the key, `-inf` elsewhere. -/
def IsMasked (S : ℤ → WithExp2 e) (attended : ℕ → Prop) [DecidablePred attended] (x : ℕ → ℝ) : Prop :=
  ∀ j : ℕ, S j = if attended j then real (x j) else Fp.negInf

/-- The attended keys below `n`. -/
def keysBelow (attended : ℕ → Prop) [DecidablePred attended] (n : ℕ) : Finset ℕ :=
  {j ∈ Finset.range n | attended j}

/-- The attended keys of tile `k`. -/
def tileKeys (attended : ℕ → Prop) [DecidablePred attended] (k : ℕ) : Finset ℕ :=
  {j ∈ (Finset.range 64).image (64 * k + ·) | attended j}

lemma keysBelow_succ (attended : ℕ → Prop) [DecidablePred attended] (k : ℕ) :
    keysBelow attended (64 * (k + 1)) = keysBelow attended (64 * k) ∪ tileKeys attended k := by
  ext j
  unfold keysBelow tileKeys
  simp only [Finset.mem_union, Finset.mem_filter, Finset.mem_range, Finset.mem_image,
    ← or_and_right]
  refine and_congr_left fun _ => ⟨fun h => ?_, ?_⟩
  · by_cases hlt : j < 64 * k
    · exact Or.inl hlt
    · exact Or.inr ⟨j - 64 * k, by omega, by omega⟩
  · rintro (h | ⟨i, hi, rfl⟩) <;> omega

/-- A row's maximum and sum after the keys below `n`: the maximum has the seed in it, and an
attended score that reaches it has left a one in the sum. -/
structure MaxInv (attended : ℕ → Prop) [DecidablePred attended] (x : ℕ → ℝ) (n : ℕ)
    (s : RowState (WithExp2 e)) (M l : ℝ) : Prop where
  rmax_eq : s.rmax = real M
  rsum_eq : s.rsum = real l
  max : IsSeededMax (-5000) (keysBelow attended n) x M
  sum : SumAtMax (keysBelow attended n) x M l

/-- The maximum of a tile. -/
lemma tileMax_masked (hS : IsMasked S attended x) (k : ℕ) (a : ℝ) :
    ∃ M, maxOver (real a : WithExp2 e) ((List.range 64).map fun j : ℕ => S (64 * k + j)) = real M ∧
      IsSeededMax a (tileKeys attended k) x M := by
  have hset : tileKeys attended k
      = {j ∈ ((List.range 64).map (64 * k + ·)).toFinset | attended j} := by
    ext j
    simp [tileKeys]
  obtain ⟨M, hM, h⟩ : ∃ M, maxOver (real a : WithExp2 e) (((List.range 64).map (64 * k + ·)).map
      fun j => if attended j then real (x j) else Fp.negInf) = real M ∧ _ :=
    maxOver_masked fmaxf_real fmaxf_negInf _ a
  refine ⟨M, ?_, hset ▸ h⟩
  rw [← hM, List.map_map]
  congr 1
  refine List.map_congr_left fun j _ => ?_
  have hj := hS (64 * k + j)
  push_cast at hj
  exact hj

/-- The weight that a tile computes for one of its keys. -/
lemma exp2_masked (hS : IsMasked S attended x) {σ : ℝ} (hσ : 0 < σ) (M : ℝ) (k j : ℕ) :
    Fp.exp2f (Fp.fmaf (real σ) (S (64 * k + j)) (-real (σ * M)))
      = (real (if attended (64 * k + j) then e (σ * (x (64 * k + j) - M)) else 0) : WithExp2 e) := by
  have h := hS (64 * k + j)
  push_cast at h
  rw [h]
  split_ifs
  · rw [fmaf_real, exp2f_real, mul_sub]
  · rw [fmaf_negInf hσ, exp2f_negInf]

/-- A sum over the first `n` places of a tile is one over the keys attended there. -/
lemma sum_places (attended : ℕ → Prop) [DecidablePred attended] (f : ℕ → ℝ) (k n : ℕ) :
    ∑ j ∈ Finset.range n, (if attended (64 * k + j) then f (64 * k + j) else 0)
      = ∑ j ∈ (Finset.range n).image (64 * k + ·) with attended j, f j := by
  rw [Finset.sum_filter, Finset.sum_image]
  intro i _ j _ h
  exact Nat.add_left_cancel h

/-- The weights of a tile. -/
lemma tileSum_masked (hS : IsMasked S attended x) {σ : ℝ} (hσ : 0 < σ) (k : ℕ) (M : ℝ) :
    (∑ j ∈ Finset.range 64, Fp.exp2f (Fp.fmaf (real σ) (S (64 * k + j)) (-real (σ * M)))
        : WithExp2 e)
      = real (∑ j ∈ tileKeys attended k, e (σ * (x j - M))) := by
  rw [Finset.sum_congr rfl fun j _ => exp2_masked hS hσ M k j, sum_real]
  exact congrArg real (sum_places attended (fun j => e (σ * (x j - M))) k 64)

/-- The sum after a tile, from the maxima before and after it. -/
lemma rowTile_rsum (bf : Bf16 (WithExp2 e) β) {σ : ℝ} (hσ : 0 < σ) (hS : IsMasked S attended x)
    {k : ℕ} (V : ℕ → ℕ → β) {s : RowState (WithExp2 e)} {M M' l : ℝ} (hM : s.rmax = real M)
    (hl : s.rsum = real l)
    (hM' : (rowTile bf (real σ) (fun j => S (64 * k + j)) V s).rmax = real M') :
    (rowTile bf (real σ) (fun j => S (64 * k + j)) V s).rsum
      = real (e (σ * (M - M')) * l + ∑ j ∈ tileKeys attended k, e (σ * (x j - M'))) := by
  simp only [rowTile, hM] at hM'
  simp only [rowTile, hM, hl, hM', sub_real, mul_real, exp2f_real, tileSum_masked hS hσ, add_real]

/-- **One tile** carries the invariant on. -/
lemma rowTile_maxInv (he : ∀ y, 0 < e y) (he0 : e 0 = 1) (bf : Bf16 (WithExp2 e) β) {σ : ℝ}
    (hσ : 0 < σ) (hS : IsMasked S attended x) {k : ℕ} (V : ℕ → ℕ → β) {s : RowState (WithExp2 e)}
    {M l : ℝ} (h : MaxInv attended x (64 * k) s M l) :
    ∃ M' l', MaxInv attended x (64 * (k + 1))
      (rowTile bf (real σ) (fun j => S (64 * k + j)) V s) M' l' := by
  obtain ⟨M', hM', hmax⟩ := tileMax_masked hS k M
  have hsum := h.sum.step (e := fun y => e (σ * y)) (fun y => (he _).le) (by rw [mul_zero, he0])
    h.max.le hmax.seed_le (B := tileKeys attended k)
  have hrmax : (rowTile bf (real σ) (fun j => S (64 * k + j)) V s).rmax = real M' := by
    rw [rowTile, h.rmax_eq, hM']
  refine ⟨M', _, hrmax, rowTile_rsum bf hσ hS V h.rmax_eq h.rsum_eq hrmax, ?_, ?_⟩
  · rw [keysBelow_succ]
    exact h.max.union hmax
  · rw [keysBelow_succ]
    exact hsum

/-- **All tiles**. -/
lemma rowRun_maxInv (he : ∀ y, 0 < e y) (he0 : e 0 = 1) (bf : Bf16 (WithExp2 e) β) {σ : ℝ}
    (hσ : 0 < σ) (hS : IsMasked S attended x) (V : ℤ → ℕ → β) (n : ℕ) :
    ∃ M l, MaxInv attended x (64 * n) (rowRun bf (real σ) S V n) M l := by
  induction n with
  | zero =>
    have hmax := IsSeededMax.nil (-5000 : ℝ) x
    refine ⟨-5000, 0, ?_, rfl, hmax, le_rfl, ?_⟩
    · rw [rowRun, RowState.init, lit_def]
      norm_num
    · simp [keysBelow]
  | succ n ih =>
    obtain ⟨M, l, h⟩ := ih
    exact rowTile_maxInv he he0 bf hσ hS _ h

/-! ### The rows of a launch -/

section Launch

variable {α : Type*} [Fp α]

/-- The keys that row `i` attends. -/
def rowKeys (L : Launch α β) (b i : ℤ) : Finset ℕ :=
  Attention.keys L.hasMask (L.seq b).seqlenK ((L.seq b).seqlenK - (L.seq b).seqlenQ) i

/-- The raw score `Q . K` of row `i` against key `j`. -/
def dot (bf : Bf16 α β) (L : Launch α β) (b h i : ℤ) (j : ℕ) : α :=
  ∑ d ∈ Finset.range 64,
    bf.toFloat (L.params.k (L.kOff b h j + d)) * bf.toFloat (L.params.q (L.qOff b h i + d))

omit [Fp α] [Zero β] in
lemma mem_rowKeys {L : Launch α β} {b i : ℤ} {j : ℕ} : j ∈ rowKeys L b i ↔ L.attended b i j :=
  Attention.mem_keys

omit [Fp α] [Zero β] in
/-- The walked tiles hold every attended key. -/
lemma rowKeys_lt (L : Launch α β) {b i : ℤ} {j : ℕ} (hj : j ∈ rowKeys L b i) :
    (j : ℤ) < 64 * numTotalLoop L.hasMask (L.seq b).seqlenQ (L.seq b).seqlenK (i / 128) := by
  have hm : ((Launch.rowInTile i).val : ℤ) < 128 := by exact_mod_cast (Launch.rowInTile i).isLt
  refine LoopBound.attends_lt_tiles hm (Int.natCast_nonneg j) ?_
  rw [Launch.tile_row]
  exact mem_rowKeys.mp hj

/-- **The registers after the tile loop**: the loop of a row that attends a key ends, and both
lanes of the row carry its recurrence. -/
lemma tileLoop_row (bf : Bf16 α β) (L : Launch α β) (lds : Mem β) {b h i : ℤ}
    (hA : (rowKeys L b i).Nonempty) :
    ∃ s, tileLoop bf (blockCtx L.hasMask L.isVarlen L.params b h (i / 128)) lds = some s ∧
      ∀ t, mRow t = Launch.rowInTile i →
        s.rmax t = (L.row bf b h i).rmax ∧ s.rsum t = (L.row bf b h i).rsum := by
  obtain ⟨j, hj⟩ := hA
  have hpos : 0 < (blockCtx L.hasMask L.isVarlen L.params b h (i / 128)).numTotalLoop := by
    have hlt := rowKeys_lt L hj
    change 0 < numTotalLoop L.hasMask (L.seq b).seqlenQ (L.seq b).seqlenK (i / 128)
    omega
  obtain ⟨s, hs, hinv⟩ := tileLoop_spec bf
    (loadQ_holds L.isVarlen L.params b h (i / 128)) hpos lds
  refine ⟨s, hs, fun t ht => ⟨?_, ?_⟩⟩
  · rw [hinv.rmax t, ht]
    rfl
  · rw [hinv.rsum t, ht]
    rfl

end Launch

/-- What a row should carry to the epilogue: the largest of its attended scores, and a sum that
has that score's one in it, so that the row does not count as fully masked. -/
structure TrueMax (A : Finset ℕ) (hA : A.Nonempty) (x : ℕ → ℝ) (rmax rsum : WithExp2 e) : Prop where
  rmax_eq : rmax = real (A.sup' hA x)
  one_le : ∃ l, 1 ≤ l ∧ rsum = real l
  not_masked : Fp.lt 0 rsum = true

/-- A row ends at the larger of the seed and its true maximum. -/
lemma row_maxInv (he : ∀ y, 0 < e y) (he0 : e 0 = 1) (bf : Bf16 (WithExp2 e) β)
    (L : Launch (WithExp2 e) β) {σ : ℝ} (hσ : 0 < σ) (hscale : L.params.scale = real σ) {b h i : ℤ}
    (hr : L.InRange b h i) {x : ℕ → ℝ} (hx : ∀ j ∈ rowKeys L b i, dot bf L b h i j = real (x j)) :
    ∃ M l, (L.row bf b h i).rmax = real M ∧ (L.row bf b h i).rsum = real l ∧
      IsSeededMax (-5000) (rowKeys L b i) x M ∧ SumAtMax (rowKeys L b i) x M l := by
  have hS : IsMasked (L.rawScore bf b h i) (fun j => L.attended b i j) x := by
    intro j
    unfold Launch.rawScore
    refine if_ctx_congr Iff.rfl (fun hj => ?_) fun _ => rfl
    exact hx j (mem_rowKeys.mpr hj)
  have hkeys : keysBelow (fun j => L.attended b i j) (64 * L.tiles b i) = rowKeys L b i := by
    ext j
    rw [mem_rowKeys, keysBelow, Finset.mem_filter, Finset.mem_range]
    refine ⟨And.right, fun hj => ⟨?_, hj⟩⟩
    have hlt := rowKeys_lt L (mem_rowKeys.mpr hj)
    rw [Launch.tiles]
    omega
  obtain ⟨M, l, hinv⟩ := rowRun_maxInv he he0 bf hσ hS (L.rawValue b h) (L.tiles b i)
  rw [← hscale, ← Launch.row_eq bf L hr] at hinv
  have hmax := hinv.max
  have hsum := hinv.sum
  rw [hkeys] at hmax hsum
  exact ⟨M, l, hinv.rmax_eq, hinv.rsum_eq, hmax, hsum⟩

/-- The row carries the true maximum exactly when that is not below the seed. -/
lemma trueMax_iff {A : Finset ℕ} (hA : A.Nonempty) {x : ℕ → ℝ} {M l : ℝ}
    (hmax : IsSeededMax (-5000) A x M) (hsum : SumAtMax A x M l) :
    TrueMax A hA x (real M : WithExp2 e) (real l) ↔ -5000 ≤ A.sup' hA x := by
  rw [hmax.eq_max hA] at hsum ⊢
  constructor
  · intro h
    have hM := real_injective h.rmax_eq
    exact max_eq_right_iff.mp hM
  · intro hle
    obtain ⟨j, hj, hjmax⟩ := A.exists_mem_eq_sup' hA x
    have h1 : 1 ≤ l := hsum.one_le j hj (by rw [max_eq_right hle, hjmax])
    refine ⟨by rw [max_eq_right hle], ⟨l, h1, rfl⟩, ?_⟩
    rw [zero_def, lt_real]
    exact one_pos.trans_le h1

/-- What the lanes of row `i` carry after the tile loop. -/
def LoopEndsAtTrueMax (bf : Bf16 (WithExp2 e) β) (L : Launch (WithExp2 e) β) (lds : Mem β)
    (b h i : ℤ) (hA : (rowKeys L b i).Nonempty) (x : ℕ → ℝ) : Prop :=
  ∃ s, tileLoop bf (blockCtx L.hasMask L.isVarlen L.params b h (i / 128)) lds = some s ∧
    ∀ t, mRow t = Launch.rowInTile i → TrueMax (rowKeys L b i) hA x (s.rmax t) (s.rsum t)

lemma LoopEndsAtTrueMax.le (he : ∀ y, 0 < e y) (he0 : e 0 = 1) {bf : Bf16 (WithExp2 e) β}
    {L : Launch (WithExp2 e) β} {σ : ℝ} (hσ : 0 < σ) (hscale : L.params.scale = real σ) {lds : Mem β}
    {b h i : ℤ} (hr : L.InRange b h i) {hA : (rowKeys L b i).Nonempty} {x : ℕ → ℝ}
    (hx : ∀ j ∈ rowKeys L b i, dot bf L b h i j = real (x j))
    (hend : LoopEndsAtTrueMax bf L lds b h i hA x) : -5000 ≤ (rowKeys L b i).sup' hA x := by
  obtain ⟨s, hs, hrow⟩ := tileLoop_row (h := h) bf L lds hA
  obtain ⟨M, l, hM, hl, hmax, hsum⟩ := row_maxInv he he0 bf L hσ hscale hr hx
  obtain ⟨s', hs', htrue⟩ := hend
  obtain rfl := Option.some.inj (hs.symm.trans hs')
  have ht := mRow_rowThread (Launch.rowInTile i) 0
  have h0 := htrue _ ht
  rw [(hrow _ ht).1, (hrow _ ht).2, hM, hl] at h0
  exact (trueMax_iff hA hmax hsum).mp h0

/-- **The running maximum is the true row maximum, exactly for the rows that reach the seed**:
after the tile loop a row that attends a key carries the largest of its scores, and a denominator
of at least one, if and only if that score is at least `-5000`. -/
theorem rmax_true_iff (he : ∀ y, 0 < e y) (he0 : e 0 = 1) (bf : Bf16 (WithExp2 e) β)
    (L : Launch (WithExp2 e) β) {σ : ℝ} (hσ : 0 < σ) (hscale : L.params.scale = real σ) (lds : Mem β)
    {b h i : ℤ} (hr : L.InRange b h i) (hA : (rowKeys L b i).Nonempty) {x : ℕ → ℝ}
    (hx : ∀ j ∈ rowKeys L b i, dot bf L b h i j = real (x j)) :
    LoopEndsAtTrueMax bf L lds b h i hA x ↔ -5000 ≤ (rowKeys L b i).sup' hA x := by
  refine ⟨LoopEndsAtTrueMax.le he he0 hσ hscale hr hx, fun hle => ?_⟩
  obtain ⟨s, hs, hrow⟩ := tileLoop_row (h := h) bf L lds hA
  obtain ⟨M, l, hM, hl, hmax, hsum⟩ := row_maxInv he he0 bf L hσ hscale hr hx
  refine ⟨s, hs, fun t ht => ?_⟩
  rw [(hrow t ht).1, (hrow t ht).2, hM, hl]
  exact (trueMax_iff hA hmax hsum).mpr hle

/-! ### One query against one key -/

/-- `exp2f` itself. -/
noncomputable abbrev pow2 (y : ℝ) : ℝ := 2 ^ y

lemma pow2_pos (y : ℝ) : 0 < pow2 y := Real.rpow_pos_of_pos two_pos y

lemma pow2_zero : pow2 0 = 1 := Real.rpow_zero 2

/-- bf16 without truncation. -/
def exactBf : Bf16 (WithExp2 pow2) (WithExp2 pow2) := ⟨⟨id, id⟩, rfl, rfl⟩

/-- The scale of the host: `log2(e) / sqrt(64)`. -/
noncomputable def hostScale : ℝ := Real.logb 2 (Real.exp 1) / 8

lemma hostScale_pos : 0 < hostScale :=
  div_pos (Real.logb_pos one_lt_two (Real.one_lt_exp_iff.mpr one_pos)) (by norm_num)

/-- A query row of `q`s against a key row of `k`s. -/
noncomputable def oneKey (q k : ℝ) : Launch (WithExp2 pow2) (WithExp2 pow2) :=
  Launch.bhsd false true (fun _ => real q) (fun _ => real k) (fun _ => real 0) (real hostScale)
    1 1 1 1 1 one_pos one_pos zero_le_one zero_le_one

lemma oneKey_inRange (q k : ℝ) : (oneKey q k).InRange 0 0 0 :=
  ⟨le_rfl, one_pos, le_rfl, one_pos, le_rfl, one_pos⟩

lemma oneKey_nonempty (q k : ℝ) : (rowKeys (oneKey q k) 0 0).Nonempty :=
  ⟨0, mem_rowKeys.mpr ⟨one_pos, fun _ => le_rfl⟩⟩

lemma oneKey_dot (q k : ℝ) (j : ℕ) : dot exactBf (oneKey q k) 0 0 0 j = real (64 * (k * q)) := by
  have hentry : dot exactBf (oneKey q k) 0 0 0 j = ∑ _d ∈ Finset.range 64, real (k * q) := rfl
  rw [hentry, sum_real, Finset.sum_const, Finset.card_range, nsmul_eq_mul]
  norm_num

/-- A query of ones against a key of ones reaches the seed. -/
theorem rmax_true_iff_ones :
    LoopEndsAtTrueMax exactBf (oneKey 1 1) (fun _ => 0) 0 0 0 (oneKey_nonempty 1 1) (fun _ => 64 * (1 * 1)) ↔
      -5000 ≤ (rowKeys (oneKey 1 1) 0 0).sup' (oneKey_nonempty 1 1) fun _ => (64 * (1 * 1) : ℝ) :=
  rmax_true_iff pow2_pos pow2_zero exactBf (oneKey 1 1) hostScale_pos rfl (fun _ => 0)
    (oneKey_inRange 1 1) (oneKey_nonempty 1 1) fun j _ => oneKey_dot 1 1 j

/-- A query of `-16`s against a key of `16`s scores `-16384`: the maximum stays at the seed. -/
theorem rmax_true_fails_oppositeRows :
    (oneKey (-16) 16).InRange 0 0 0 ∧
      (∀ j ∈ rowKeys (oneKey (-16) 16) 0 0, dot exactBf (oneKey (-16) 16) 0 0 0 j = real (-16384)) ∧
      ¬ LoopEndsAtTrueMax exactBf (oneKey (-16) 16) (fun _ => 0) 0 0 0 (oneKey_nonempty (-16) 16)
        fun _ => -16384 := by
  have hx : ∀ j ∈ rowKeys (oneKey (-16) 16) 0 0,
      dot exactBf (oneKey (-16) 16) 0 0 0 j = real (-16384) := by
    intro j _
    rw [oneKey_dot]
    norm_num
  refine ⟨oneKey_inRange (-16) 16, hx, fun hend => ?_⟩
  have hle := hend.le pow2_pos pow2_zero hostScale_pos rfl (oneKey_inRange (-16) 16) hx
  rw [Finset.sup'_const] at hle
  norm_num at hle

end RunningMax

end FmhaNative
