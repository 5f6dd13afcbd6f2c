import FmhaNative.RunningMax

/-!
The quantities of online softmax stay bounded, whatever the scores are.

The running maximum is never below a score or below what it was, so no argument of `exp2` is
positive: weights and rescale factors are at most one. The denominator then counts no key more
than once, and the numerator, whose weights are truncated, stays below the denominator times the
largest value.
-/

namespace FmhaNative.SoftmaxBounds

open RunningMax Pipeline RowRecurrence OpSoftmax OpGemm OnlineSoftmax WithExp2

variable {e : ℝ → ℝ} {β : Type*} [Zero β]

/-! ### Bounded numbers -/

/-- At most zero; `-inf` is. -/
def NonPos (y : WithExp2 e) : Prop := y = Fp.negInf ∨ ∃ a ≤ 0, y = real a

/-- A probability. -/
def InUnit (y : WithExp2 e) : Prop := ∃ a, 0 ≤ a ∧ a ≤ 1 ∧ y = real a

/-- A denominator and one numerator, for column `d` of the values of the keys `A`. -/
def AccBounds (A : Finset ℕ) (v : ℕ → ℕ → ℝ) (d : ℕ) (rsum o : WithExp2 e) : Prop :=
  ∃ l r, rsum = real l ∧ o = real r ∧ Bounded A (fun j => v j d) l r

lemma AccBounds.scale {A : Finset ℕ} {v : ℕ → ℕ → ℝ} {d : ℕ} {rsum o y : WithExp2 e} {r : ℝ}
    (h : AccBounds A v d rsum o) (hy : y = real r) (hr0 : 0 ≤ r) (hr1 : r ≤ 1) :
    AccBounds A v d rsum (o * y) := by
  obtain ⟨l, a, hl, rfl, hb⟩ := h
  exact ⟨l, a * r, hl, by rw [hy, mul_real], hb.scale hr0 hr1⟩

/-- A storage format that truncates the nonnegative numbers by `T`, towards zero. -/
structure TruncatesBy (bf : Bf16 (WithExp2 e) β) (T : ℝ → ℝ) : Prop where
  eq : ∀ r, 0 ≤ r → bf.toFloat (bf.ofFloat (real r)) = real (T r)
  nonneg : ∀ r, 0 ≤ r → 0 ≤ T r
  le : ∀ r, 0 ≤ r → T r ≤ r

/-! ### One row -/

section Row

variable {α : Type*} [Fp α] (bf : Bf16 α β) (scale : α) (S : ℤ → α) (V : ℤ → ℕ → β)

/-- What `exp2` is taken of, for key `j` of tile `k`. -/
def rowArg (k j : ℕ) : α :=
  Fp.fmaf scale (S (64 * k + j)) (-(scale * (rowRun bf scale S V (k + 1)).rmax))

/-- What it is taken of for the rescale factor of tile `k`. -/
def rowRescaleArg (k : ℕ) : α :=
  scale * Fp.sub (rowRun bf scale S V k).rmax (rowRun bf scale S V (k + 1)).rmax

/-- The numerators inside tile `k`: rescaled, and with its first `n` keys in. -/
def rowPartial (k n d : ℕ) : α :=
  (rowRun bf scale S V k).oAcc d * Fp.exp2f (rowRescaleArg bf scale S V k)
    + ∑ j ∈ Finset.range n, bf.toFloat (V (64 * k + j) d) *
        bf.toFloat (bf.ofFloat (Fp.exp2f (rowArg bf scale S V k j)))

end Row

/-- The keys attended at the first `n` places of tile `k`. -/
def tileKeysTo (attended : ℕ → Prop) [DecidablePred attended] (k n : ℕ) : Finset ℕ :=
  {j ∈ (Finset.range n).image (64 * k + ·) | attended j}

variable {attended : ℕ → Prop} [DecidablePred attended]

lemma tileKeysTo_subset {n : ℕ} (hn : n ≤ 64) (k : ℕ) :
    tileKeysTo attended k n ⊆ tileKeys attended k := by
  apply Finset.filter_subset_filter
  exact Finset.image_subset_image (Finset.range_subset_range.mpr hn)

lemma keysBelow_disjoint (k : ℕ) :
    Disjoint (keysBelow attended (64 * k)) (tileKeys attended k) := by
  rw [Finset.disjoint_left]
  intro j hj hj'
  simp only [keysBelow, tileKeys, Finset.mem_filter, Finset.mem_range, Finset.mem_image] at hj hj'
  obtain ⟨⟨i, -, rfl⟩, -⟩ := hj'
  omega

lemma keysBelow_subset (k : ℕ) :
    keysBelow attended (64 * k) ⊆ keysBelow attended (64 * (k + 1)) := by
  rw [keysBelow_succ]
  exact Finset.subset_union_left

section Run

variable {bf : Bf16 (WithExp2 e) β} {S : ℤ → WithExp2 e} {V : ℤ → ℕ → β} {x : ℕ → ℝ}
  {v : ℕ → ℕ → ℝ} {T : ℝ → ℝ} {σ M M' : ℝ} {k : ℕ}

variable (bf V) in
/-- The maxima before and after a tile: the later one is not below the earlier, nor below a score. -/
lemma exists_maxima (he : ∀ y, 0 < e y) (he0 : e 0 = 1) (hσ : 0 < σ) (hS : IsMasked S attended x)
    (k : ℕ) :
    ∃ M M', (rowRun bf (real σ) S V k).rmax = real M ∧
      (rowRun bf (real σ) S V (k + 1)).rmax = real M' ∧ M ≤ M' ∧
      ∀ j ∈ keysBelow attended (64 * (k + 1)), x j ≤ M' := by
  obtain ⟨M, l, h⟩ := rowRun_maxInv he he0 bf hσ hS V k
  obtain ⟨M', l', h'⟩ := rowRun_maxInv he he0 bf hσ hS V (k + 1)
  exact ⟨M, M', h.rmax_eq, h'.rmax_eq, h.max.mono h'.max (keysBelow_subset k), h'.max.le⟩

lemma rowArg_eq (hσ : 0 < σ) (hS : IsMasked S attended x)
    (hM' : (rowRun bf (real σ) S V (k + 1)).rmax = real M') (j : ℕ) :
    rowArg bf (real σ) S V k j
      = if attended (64 * k + j) then real (σ * (x (64 * k + j) - M')) else Fp.negInf := by
  have h := hS (64 * k + j)
  push_cast at h
  rw [rowArg, hM', mul_real, h]
  split_ifs
  · rw [fmaf_real, mul_sub]
  · rw [fmaf_negInf hσ]

lemma rowArg_nonPos (hσ : 0 < σ) (hS : IsMasked S attended x)
    (hM' : (rowRun bf (real σ) S V (k + 1)).rmax = real M')
    (hle : ∀ j ∈ keysBelow attended (64 * (k + 1)), x j ≤ M') {j : ℕ} (hj : j < 64) :
    NonPos (rowArg bf (real σ) S V k j) := by
  rw [rowArg_eq hσ hS hM']
  split_ifs with hA
  · refine Or.inr ⟨_, ?_, rfl⟩
    have hx := hle (64 * k + j) (Finset.mem_filter.mpr ⟨Finset.mem_range.mpr (by omega), hA⟩)
    exact mul_nonpos_of_nonneg_of_nonpos hσ.le (sub_nonpos.mpr hx)
  · exact Or.inl rfl

/-- `exp2` of what is at most zero is a probability. -/
lemma NonPos.exp2 (he : ∀ y, 0 < e y) (hmono : Monotone e) (he0 : e 0 = 1) {y : WithExp2 e}
    (h : NonPos y) : InUnit (Fp.exp2f y) := by
  rcases h with rfl | ⟨a, ha, rfl⟩
  · exact ⟨0, le_rfl, zero_le_one, exp2f_negInf⟩
  · exact ⟨e a, (he a).le, he0 ▸ hmono ha, exp2f_real a⟩

lemma TruncatesBy.zero (hT : TruncatesBy bf T) : T 0 = 0 :=
  le_antisymm (hT.le 0 le_rfl) (hT.nonneg 0 le_rfl)

/-- What the first `n` keys of a tile add to a numerator. -/
lemma sum_kept (he : ∀ y, 0 < e y) (hσ : 0 < σ) (hS : IsMasked S attended x) (hT : TruncatesBy bf T)
    {n d : ℕ} (hn : n ≤ 64)
    (hv : ∀ j : ℕ, j < 64 * (k + 1) → bf.toFloat (V j d) = real (v j d))
    (hM' : (rowRun bf (real σ) S V (k + 1)).rmax = real M') :
    ∑ j ∈ Finset.range n, bf.toFloat (V (64 * k + j) d) *
        bf.toFloat (bf.ofFloat (Fp.exp2f (rowArg bf (real σ) S V k j)))
      = real (∑ j ∈ tileKeysTo attended k n, v j d * T (e (σ * (x j - M')))) := by
  have hentry : ∀ j ∈ Finset.range n, bf.toFloat (V (64 * k + j) d) *
        bf.toFloat (bf.ofFloat (Fp.exp2f (rowArg bf (real σ) S V k j)))
      = real (if attended (64 * k + j) then
          v (64 * k + j) d * T (e (σ * (x (64 * k + j) - M'))) else 0) := by
    intro j hj
    have hlt := Finset.mem_range.mp hj
    have hvj := hv (64 * k + j) (by omega)
    push_cast at hvj
    rw [rowArg_eq hσ hS hM', hvj]
    split_ifs
    · rw [exp2f_real, hT.eq _ (he _).le, mul_real]
    · rw [exp2f_negInf, hT.eq _ le_rfl, hT.zero, mul_real, mul_zero]
  rw [Finset.sum_congr rfl hentry, sum_real]
  exact congrArg real (sum_places attended (fun j => v j d * T (e (σ * (x j - M')))) k n)

/-- **One tile**: bounded accumulators stay so, with any part of the tile's keys in the
numerator. -/
lemma rowPartial_bounds (he : ∀ y, 0 < e y) (hmono : Monotone e) (he0 : e 0 = 1) (hσ : 0 < σ)
    (hS : IsMasked S attended x) (hT : TruncatesBy bf T) {n d : ℕ} (hn : n ≤ 64)
    (hv : ∀ j : ℕ, j < 64 * (k + 1) → bf.toFloat (V j d) = real (v j d))
    (h : AccBounds (keysBelow attended (64 * k)) v d (rowRun bf (real σ) S V k).rsum
      ((rowRun bf (real σ) S V k).oAcc d)) :
    AccBounds (keysBelow attended (64 * (k + 1))) v d (rowRun bf (real σ) S V (k + 1)).rsum
      (rowPartial bf (real σ) S V k n d) := by
  obtain ⟨M, M', hM, hM', hMM, hle⟩ := exists_maxima bf V he he0 hσ hS k
  obtain ⟨l, r, hl, hr, hb⟩ := h
  refine ⟨_, r * e (σ * (M - M')) + ∑ j ∈ tileKeysTo attended k n, v j d * T (e (σ * (x j - M'))),
    rowTile_rsum bf hσ hS _ hM hl hM', ?_, ?_⟩
  · rw [rowPartial, rowRescaleArg, hM, hM', hr, sum_kept he hσ hS hT hn hv hM', sub_real, mul_real,
      exp2f_real, mul_real, add_real]
  · have hunit : ∀ {y}, y ≤ M' → e (σ * (y - M')) ≤ 1 := fun hy =>
      he0 ▸ hmono (mul_nonpos_of_nonneg_of_nonpos hσ.le (sub_nonpos.mpr hy))
    rw [keysBelow_succ] at hle ⊢
    exact hb.step (he _).le (hunit hMM) (keysBelow_disjoint k) (tileKeysTo_subset hn k)
      (fun j hj => hunit (hle j (Finset.mem_union_right _ hj)))
      (fun j _ => hT.nonneg _ (he _).le) fun j _ => hT.le _ (he _).le

/-- **All tiles**. -/
theorem rowRun_bounds (he : ∀ y, 0 < e y) (hmono : Monotone e) (he0 : e 0 = 1) (hσ : 0 < σ)
    (hS : IsMasked S attended x) (hT : TruncatesBy bf T) {d : ℕ}
    (hv : ∀ j : ℕ, j < 64 * k → bf.toFloat (V j d) = real (v j d)) :
    AccBounds (keysBelow attended (64 * k)) v d (rowRun bf (real σ) S V k).rsum
      ((rowRun bf (real σ) S V k).oAcc d) := by
  induction k with
  | zero => exact ⟨0, 0, rfl, rfl, Bounded.nil _⟩
  | succ k ih =>
    exact rowPartial_bounds he hmono he0 hσ hS hT le_rfl hv (ih fun j hj => hv j (by omega))

end Run

/-! ### The registers of a lane -/

/-- The keys that the row of a lane attends. -/
def laneAttends {α : Type*} (c : BlockCtx α β) (t : Thread) (j : ℕ) : Prop :=
  attends c.hasMask c.seqlenK c.maskShift (c.mTileIdx * 128 + mRow t) j

instance {α : Type*} (c : BlockCtx α β) (t : Thread) : DecidablePred (laneAttends c t) :=
  fun _ => inferInstanceAs (Decidable (_ ∧ _))

/-- The attended keys in the tiles before tile `k`. -/
def laneKeys {α : Type*} (c : BlockCtx α β) (t : Thread) (k : ℕ) : Finset ℕ :=
  keysBelow (laneAttends c t) (64 * k)

/-- The denominator of a lane and its 32 numerators. -/
def LaneBounds (A : Finset ℕ) (v : ℕ → ℕ → ℝ) (t : Thread) (rsum : WithExp2 e)
    (o0 o1 : V16f (WithExp2 e)) : Prop :=
  ∀ i, AccBounds A v (dCol t i) rsum (o0 i) ∧ AccBounds A v (dCol t i + 32) rsum (o1 i)

/-- What lane `t` holds while tile `k` is processed, `s` being the state at its head. -/
structure TileBounds (bf : Bf16 (WithExp2 e) β) (c : BlockCtx (WithExp2 e) β) (v : ℕ → ℕ → ℝ) (k : ℕ)
    (s : TileState (WithExp2 e) β) (t : Thread) : Prop where
  rmax_le : ∃ M M', s.rmax t = real M ∧ (tileBody bf c s).rmax t = real M' ∧ M ≤ M'
  /-- the arguments of `exp2` and the probabilities -/
  arg0 : ∀ i, NonPos (Fp.fmaf c.scale ((tileMasked bf c s t).1 i) (-(c.scale * tileMax bf c s t)))
  arg1 : ∀ i, NonPos (Fp.fmaf c.scale ((tileMasked bf c s t).2 i) (-(c.scale * tileMax bf c s t)))
  prob0 : ∀ i, InUnit (tileP0 bf c s t i)
  prob1 : ∀ i, InUnit (tileP1 bf c s t i)
  rescaleArg : ∃ a ≤ 0, c.scale * Fp.sub (s.rmax t) (tileMax bf c s t) = real a
  rescale : ∃ r, 0 < r ∧ r ≤ 1 ∧
    Fp.exp2f (c.scale * Fp.sub (s.rmax t) (tileMax bf c s t)) = real r
  /-- the accumulators at the head, rescaled, with the new denominator, and after each half -/
  head : LaneBounds (laneKeys c t k) v t (s.rsum t) (s.oAccD0 t) (s.oAccD1 t)
  scaled : LaneBounds (laneKeys c t k) v t (s.rsum t) ((tileRescaled bf c s).1 t)
    ((tileRescaled bf c s).2 t)
  rescaled : LaneBounds (laneKeys c t (k + 1)) v t ((tileBody bf c s).rsum t)
    ((tileRescaled bf c s).1 t) ((tileRescaled bf c s).2 t)
  half0 : LaneBounds (laneKeys c t (k + 1)) v t ((tileBody bf c s).rsum t)
    ((tileHalf0 bf c s).1 t) ((tileHalf0 bf c s).2 t)
  body : LaneBounds (laneKeys c t (k + 1)) v t ((tileBody bf c s).rsum t)
    ((tileBody bf c s).oAccD0 t) ((tileBody bf c s).oAccD1 t)
  /-- no more keys than the sequence has -/
  card_le : ((laneKeys c t (k + 1)).card : ℤ) ≤ max 0 c.seqlenK

section Registers

variable {bf : Bf16 (WithExp2 e) β} {c : BlockCtx (WithExp2 e) β} {Q : ℕ → ℕ → β}
  {s : TileState (WithExp2 e) β} {T : ℝ → ℝ} {σ : ℝ} {k : ℕ} {t : Thread} {x : ℕ → ℝ}
  {v : ℕ → ℕ → ℝ} {A : Finset ℕ}

omit [Zero β] in
lemma card_laneKeys_le {α : Type*} (c : BlockCtx α β) (t : Thread) (k : ℕ) :
    ((laneKeys c t k).card : ℤ) ≤ max 0 c.seqlenK := by
  have hsub : laneKeys c t k ⊆ Finset.range c.seqlenK.toNat := by
    intro j hj
    have hA : laneAttends c t j := (Finset.mem_filter.mp hj).2
    have hlt := hA.1
    rw [Finset.mem_range]
    omega
  have hcard := Finset.card_le_card hsub
  rw [Finset.card_range] at hcard
  omega

lemma ctxScore_masked (hx : ∀ j : ℕ, laneAttends c t j →
      ∑ d ∈ Finset.range 64, bf.toFloat (ctxK c j d) * bf.toFloat (Q (mRow t) d) = real (x j)) :
    IsMasked (ctxScore bf c Q (mRow t)) (laneAttends c t) x :=
  fun j => if_ctx_congr Iff.rfl (hx j) fun _ => rfl

/-- Registers that hold the numerators of a row are bounded as these are. -/
lemma laneBounds_of_holds {o0 o1 : Thread → V16f (WithExp2 e)} {X : ℕ → ℕ → WithExp2 e}
    {rsum l : WithExp2 e} (h0 : Holds dCol o0 X) (h1 : Holds dCol o1 fun m d => X m (d + 32))
    (hl : rsum = l) (h : ∀ d < 64, AccBounds A v d l (X (mRow t) d)) :
    LaneBounds A v t rsum (o0 t) (o1 t) := by
  intro i
  have hd : dCol t i < 32 := accRow_lt t i
  rw [h0 t i, h1 t i, hl]
  exact ⟨h _ (by omega), h _ (by omega)⟩

lemma tileArg_nonPos (hq : HoldsRows c.qRegs Q) (h : TileInv bf c Q k s)
    (hk : (k : ℤ) < c.numTotalLoop)
    (harg : ∀ j < 64, NonPos (rowArg bf c.scale (ctxScore bf c Q (mRow t)) (ctxV c) k j)) (i : Fin 16) :
    NonPos (Fp.fmaf c.scale ((tileMasked bf c s t).1 i) (-(c.scale * tileMax bf c s t))) ∧
      NonPos (Fp.fmaf c.scale ((tileMasked bf c s t).2 i) (-(c.scale * tileMax bf c s t))) := by
  obtain ⟨h0, h1⟩ := tileMasked_holds hq h hk
  have hn := nCol_lt t i
  have s0 : (tileMasked bf c s t).1 i = _ := h0 t i
  have s1 : (tileMasked bf c s t).2 i = _ := h1 t i
  rw [tileMax_eq hq h hk, s0, s1]
  exact ⟨harg _ (by omega), harg _ (by omega)⟩

/-- **One tile** of the loop. -/
lemma tile_bounds (he : ∀ y, 0 < e y) (hmono : Monotone e) (he0 : e 0 = 1) (hT : TruncatesBy bf T)
    (hσ : 0 < σ) (hscale : c.scale = real σ)
    (hx : ∀ j : ℕ, laneAttends c t j →
      ∑ d ∈ Finset.range 64, bf.toFloat (ctxK c j d) * bf.toFloat (Q (mRow t) d) = real (x j))
    (hv : ∀ j : ℕ, j < 64 * c.numTotalLoop → ∀ d < 64, bf.toFloat (ctxV c j d) = real (v j d))
    (hq : HoldsRows c.qRegs Q) (h : TileInv bf c Q k s) (hk : (k : ℤ) < c.numTotalLoop) :
    TileBounds bf c v k s t := by
  have hS := ctxScore_masked hx
  have hinv := tileBody_inv hq h hk
  obtain ⟨M, M', hM, hM', hMM, hle⟩ := exists_maxima bf (ctxV c) he he0 hσ hS k
  -- the row of the lane: before the tile, and with `n` keys of the tile in
  have hacc : ∀ d < 64, _ := fun d hd =>
    rowRun_bounds (V := ctxV c) (k := k) he hmono he0 hσ hS hT fun j hj => hv j (by omega) d hd
  have hpart : ∀ n ≤ 64, ∀ d < 64, _ := fun n hn d hd =>
    rowPartial_bounds he hmono he0 hσ hS hT hn (fun j hj => hv j (by omega) d hd) (hacc d hd)
  have harg : ∀ j < 64, _ := fun j hj => rowArg_nonPos hσ hS hM' hle hj
  rw [← hscale] at hM hM'
  simp only [← hscale] at hacc hpart harg
  have hargs := tileArg_nonPos hq h hk harg
  have hrarg : c.scale * Fp.sub (s.rmax t) (tileMax bf c s t) = real (σ * (M - M')) := by
    rw [h.rmax, tileMax_eq hq h hk, ctxRun, ctxRun, hM, hM', sub_real, hscale, mul_real]
  have hle0 : σ * (M - M') ≤ 0 := mul_nonpos_of_nonneg_of_nonpos hσ.le (sub_nonpos.mpr hMM)
  have hr1 : e (σ * (M - M')) ≤ 1 := he0 ▸ hmono hle0
  have hr : Fp.exp2f (c.scale * Fp.sub (s.rmax t) (tileMax bf c s t)) = real (e (σ * (M - M'))) := by
    rw [hrarg, exp2f_real]
  have hhead : LaneBounds (laneKeys c t k) v t (s.rsum t) (s.oAccD0 t) (s.oAccD1 t) :=
    laneBounds_of_holds h.oAccD0 h.oAccD1 (h.rsum t) hacc
  obtain ⟨r0, r1⟩ := tileRescaled_holds hq h hk
  obtain ⟨g0, g1⟩ := tileHalf0_holds hq h hk
  exact {
    rmax_le := ⟨M, M', (h.rmax t).trans hM, (hinv.rmax t).trans hM', hMM⟩
    arg0 := fun i => (hargs i).1
    arg1 := fun i => (hargs i).2
    prob0 := fun i => (hargs i).1.exp2 he hmono he0
    prob1 := fun i => (hargs i).2.exp2 he hmono he0
    rescaleArg := ⟨_, hle0, hrarg⟩
    rescale := ⟨_, he _, hr1, hr⟩
    head := hhead
    scaled := fun i =>
      ⟨(hhead i).1.scale hr (he _).le hr1, (hhead i).2.scale hr (he _).le hr1⟩
    rescaled := laneBounds_of_holds r0 r1 (hinv.rsum t) (hpart 0 (by norm_num))
    half0 := laneBounds_of_holds g0 g1 (hinv.rsum t) (hpart 32 (by norm_num))
    body := laneBounds_of_holds hinv.oAccD0 hinv.oAccD1 (hinv.rsum t) (hpart 64 le_rfl)
    card_le := card_laneKeys_le c t (k + 1) }

end Registers

/-- **The quantities of online softmax stay bounded**: the block's tile loop goes round
`numTotalLoop` times, and in each round, for every lane, the maximum does not decrease,
probabilities and rescale factor are in the unit interval, no argument of `exp2` is positive, and
the accumulators are bounded by the number of attended keys and by the largest value among these. -/
theorem tileLoop_bounds (he : ∀ y, 0 < e y) (hmono : Monotone e) (he0 : e 0 = 1)
    {bf : Bf16 (WithExp2 e) β} {T : ℝ → ℝ} (hT : TruncatesBy bf T) (hasMask isVarlen : Bool)
    (p : FmhaFwdParams (WithExp2 e) β) {σ : ℝ} (hσ : 0 < σ) (hscale : p.scale = real σ) (lds : Mem β)
    (batchIdx headIdx mTileIdx : ℤ) (t : Thread) {x : ℕ → ℝ} {v : ℕ → ℕ → ℝ} :
    let c := blockCtx hasMask isVarlen p batchIdx headIdx mTileIdx
    let q := qRow isVarlen p batchIdx headIdx mTileIdx (mRow t)
    (∀ j : ℕ, laneAttends c t j →
      ∑ d ∈ Finset.range 64, bf.toFloat (ctxK c j d) * bf.toFloat (q d) = real (x j)) →
    (∀ j : ℕ, j < 64 * c.numTotalLoop → ∀ d < 64, bf.toFloat (ctxV c j d) = real (v j d)) →
    0 < c.numTotalLoop →
    tileLoop bf c lds = some ((tileBody bf c)^[c.numTotalLoop.toNat] (tileInit c lds)) ∧
      ∀ k < c.numTotalLoop.toNat, TileBounds bf c v k ((tileBody bf c)^[k] (tileInit c lds)) t := by
  intro c q hx hv hn
  have hq : HoldsRows c.qRegs (qRow isVarlen p batchIdx headIdx mTileIdx) :=
    loadQ_holds isVarlen p batchIdx headIdx mTileIdx
  refine ⟨tileLoop_eq_iterate bf hq hn lds, fun k hk => ?_⟩
  exact tile_bounds he hmono he0 hT hσ hscale hx hv hq (iterate_tileInv hq lds hk.le) (by omega)

lemma exactBf_truncatesBy : TruncatesBy exactBf id := ⟨fun _ _ => rfl, fun _ h => h, fun _ _ => le_rfl⟩

lemma pow2_mono : Monotone pow2 := fun _ _ h => Real.rpow_le_rpow_of_exponent_le one_le_two h

/-- A query of ones against 65 keys of ones, with a value of its own for every element of V. -/
noncomputable def twoTiles : Launch (WithExp2 pow2) (WithExp2 pow2) :=
  Launch.bhsd false true (fun _ => real 1) (fun _ => real 1) (fun e => real e) (real hostScale)
    1 1 1 1 65 Int.one_pos Int.one_pos Int.one_nonneg (by norm_num)

/-- The first lane in both tiles. -/
theorem tileLoop_bounds_twoTiles :
    let c := blockCtx false false twoTiles.params 0 0 0
    tileLoop exactBf c (fun _ => 0) = some ((tileBody exactBf c)^[2] (tileInit c fun _ => 0)) ∧
      ∀ k < 2, TileBounds exactBf c (fun j d => ((64 * j + d : ℕ) : ℝ)) k
        ((tileBody exactBf c)^[k] (tileInit c fun _ => 0)) 0 := by
  intro c
  have hn : c.numTotalLoop = 2 := rfl
  have hdot : ∀ j : ℕ, laneAttends c 0 j → ∑ d ∈ Finset.range 64, exactBf.toFloat (ctxK c j d) *
      exactBf.toFloat (qRow false twoTiles.params 0 0 0 (mRow 0) d) = real 64 := by
    intro j _
    have hq : ∀ d, qRow false twoTiles.params 0 0 0 (mRow 0) d = real 1 := fun d =>
      if_pos (by decide : (0 * 128 + (mRow 0 : ℤ)) < 1)
    have hentry : ∀ d ∈ Finset.range 64, exactBf.toFloat (ctxK c j d) *
        exactBf.toFloat (qRow false twoTiles.params 0 0 0 (mRow 0) d) = real 1 := fun d _ => by
      rw [hq]
      exact (mul_real 1 1).trans (by rw [one_mul])
    rw [Finset.sum_congr rfl hentry, sum_real]
    norm_num
  have hv : ∀ j : ℕ, j < 64 * c.numTotalLoop → ∀ d < 64,
      exactBf.toFloat (ctxV c j d) = real ((64 * j + d : ℕ) : ℝ) := by
    intro j _ d _
    have haddr : vBase false twoTiles.params 0 0 + (j * 64 + d) = ((64 * j + d : ℕ) : ℤ) := by
      have hbase : vBase false twoTiles.params 0 0 = 0 := by decide
      rw [hbase]
      push_cast
      ring
    change real ((vBase false twoTiles.params 0 0 + (j * 64 + d) : ℤ) : ℝ) = _
    rw [haddr, Int.cast_natCast]
  have h := tileLoop_bounds pow2_pos pow2_mono pow2_zero exactBf_truncatesBy false false twoTiles.params
    hostScale_pos rfl (fun _ => 0) 0 0 0 0 hdot hv (by rw [hn]; exact two_pos)
  rwa [hn] at h

end FmhaNative.SoftmaxBounds
