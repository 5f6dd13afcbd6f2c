import FmhaNative.Pipeline

/-!
The two lanes of a row: through any number of tiles they reduce the same 64 columns to the same
maximum and the same sum, and carry the same running state.
-/

namespace FmhaNative.Lockstep

open OpGemm OpSoftmax OpEpilog Pipeline Fp

variable {α : Type*} [Fp α]

/-- Lane `L xor 32` of the wave. -/
def otherLane (t : Thread) : Thread := inWave t (laneId t ^^^ 32)

lemma inWave_partner (t : Thread) : inWave t (partner t) = otherLane t := by
  revert t
  decide +kernel

@[simp] lemma mRow_otherLane (t : Thread) : mRow (otherLane t) = mRow t := by
  rw [← inWave_partner, mRow_partner]

@[simp] lemma kSub_otherLane (t : Thread) : kSub (otherLane t) = 1 - kSub t := by
  rw [← inWave_partner, kSub_partner]

@[simp] lemma otherLane_otherLane (t : Thread) : otherLane (otherLane t) = t := by
  have hk := kSub_lt t
  refine thread_ext (by simp) ?_
  simp only [kSub_otherLane]
  omega

/-- Both lanes of every row hold one value. -/
def Paired (f : Thread → α) : Prop := ∀ t, f (otherLane t) = f t

/-- The value of the first lane of row `m`. -/
def rowValue (f : Thread → α) (m : ℕ) : α := f (rowThread (Fin.ofNat 128 m) 0)

omit [Fp α] in
/-- A value that both lanes hold belongs to the row. -/
lemma Paired.eq_row {f : Thread → α} (h : Paired f) (t : Thread) : f t = rowValue f (mRow t) := by
  have hk := kSub_lt t
  have hm : ((Fin.ofNat 128 (mRow t)).val : ℕ) = mRow t := Nat.mod_eq_of_lt (mRow_lt t)
  unfold rowValue
  rcases Nat.lt_succ_iff_lt_or_eq.mp hk with h0 | h1
  · congr 1
    refine thread_ext (by rw [mRow_rowThread, hm]) ?_
    rw [kSub_rowThread, Fin.val_zero]
    omega
  · rw [← h t]
    congr 1
    refine thread_ext (by rw [mRow_otherLane, mRow_rowThread, hm]) ?_
    rw [kSub_otherLane, kSub_rowThread, Fin.val_zero]
    omega

/-! ### The columns of a row -/

/-- The register of a 32-wide half that holds column `n` of row `m`. -/
def entryAt (s : Thread → V16f α) (m n : ℕ) : α :=
  s (rowThread (Fin.ofNat 128 m) ⟨n / 8 % 2, by omega⟩) ⟨n / 16 % 2 * 8 + n % 8, by omega⟩

omit [Fp α] in
lemma entryAt_holds (s : Thread → V16f α) : Holds nCol s (entryAt s) := by
  intro t r
  have hk := kSub_lt t
  have hm := mRow_lt t
  unfold entryAt
  congr 1
  · refine thread_ext ?_ ?_
    · rw [mRow_rowThread, Fin.val_ofNat, Nat.mod_eq_of_lt hm]
    · simp only [kSub_rowThread, nCol]
      omega
  · ext
    simp only [nCol]
    omega

/-- The score that the two lanes of row `m` hold for column `j` of the tile. -/
def rowEntry (s : (Thread → V16f α) × (Thread → V16f α)) (m j : ℕ) : α :=
  if j < 32 then entryAt s.1 m j else entryAt s.2 m (j - 32)

omit [Fp α] in
lemma rowEntry_holds (s : (Thread → V16f α) × (Thread → V16f α)) :
    Holds nCol s.1 (rowEntry s) ∧ Holds nCol s.2 fun m n => rowEntry s m (32 + n) := by
  constructor <;> intro t r
  · rw [rowEntry, if_pos (nCol_lt t r)]
    exact entryAt_holds s.1 t r
  · change s.2 t r = rowEntry s (mRow t) (32 + nCol t r)
    rw [rowEntry, if_neg (by omega), Nat.add_sub_cancel_left]
    exact entryAt_holds s.2 t r

/-! ### One tile -/

/-- What the softmax of a tile reads besides the running state: the raw scores, and where the
tile lies under the mask. -/
structure TileScores (α : Type*) where
  raw : (Thread → V16f α) × (Thread → V16f α)
  hasMask : Bool
  (seqlenK kvOffset maskShift mTileIdx : ℤ)

/-- The scores of the lanes after the mask. -/
def masked (x : TileScores α) : (Thread → V16f α) × (Thread → V16f α) :=
  let mask := fun t => softmaxMask x.hasMask (x.raw.1 t) (x.raw.2 t) x.seqlenK x.kvOffset
    (x.mTileIdx * kM0 + mRow t) x.maskShift (x.mTileIdx * kM0) t
  (fun t => (mask t).1, fun t => (mask t).2)

/-- The masked score of row `m`, column `j`. -/
def maskedEntry (x : TileScores α) (m j : ℕ) : α :=
  if attends x.hasMask x.seqlenK x.maskShift (x.mTileIdx * kM0 + m) (x.kvOffset + j) then
    rowEntry x.raw m j
  else negInf

/-- The running maximum and sum of the lanes. -/
structure Running (α : Type*) where
  (rmax rsum : Thread → α)

def newMax (x : TileScores α) (s : Running α) : Thread → α :=
  softmaxRowMax (masked x).1 (masked x).2 s.rmax

/-- The probabilities of the lanes. -/
def probs (scale : α) (x : TileScores α) (s : Running α) : (Thread → V16f α) × (Thread → V16f α) :=
  (fun t => softmaxExp2 ((masked x).1 t) scale (scale * newMax x s t),
    fun t => softmaxExp2 ((masked x).2 t) scale (scale * newMax x s t))

def newSum (scale : α) (x : TileScores α) (s : Running α) : Thread → α :=
  softmaxRowSum (probs scale x s).1 (probs scale x s).2

/-- The online update of one iteration. -/
def update (scale : α) (s : Running α) (x : TileScores α) : Running α :=
  let mNew := newMax x s
  let lNew := newSum scale x s
  let rescale := fun t => exp2f (scale * sub (s.rmax t) (mNew t))
  ⟨mNew, fun t => rescale t * s.rsum t + lNew t⟩

/-- The iterations of a list of tiles. -/
def run (scale : α) (s : Running α) (xs : List (TileScores α)) : Running α := xs.foldl (update scale) s

lemma masked_holds (x : TileScores α) :
    Holds nCol (masked x).1 (maskedEntry x) ∧
      Holds nCol (masked x).2 fun m n => maskedEntry x m (32 + n) := by
  obtain ⟨h0, h1⟩ := rowEntry_holds x.raw
  have hm := fun t i => softmaxMask_apply x.hasMask (x.raw.1 t) (x.raw.2 t) x.seqlenK x.kvOffset
    x.maskShift (show x.mTileIdx * kM0 ≤ x.mTileIdx * kM0 + mRow t by omega) t i
  constructor <;> intro t i
  · refine (hm t i).1.trans ?_
    rw [maskedEntry, h0 t i]
  · change _ = maskedEntry x (mRow t) (32 + nCol t i)
    refine (hm t i).2.trans ?_
    rw [maskedEntry, h1 t i]

/-- The maximum that both lanes of a row get. -/
lemma newMax_eq (x : TileScores α) {s : Running α} (hs : Paired s.rmax) (t : Thread) :
    newMax x s t = maxOver (s.rmax t) ((List.range 64).map (maskedEntry x (mRow t))) := by
  obtain ⟨h0, h1⟩ := masked_holds x
  rw [newMax, softmaxRowMax_apply h0 h1 hs.eq_row t, ← hs.eq_row t]

lemma newMax_paired (x : TileScores α) {s : Running α} (hs : Paired s.rmax) : Paired (newMax x s) := by
  intro t
  rw [newMax_eq x hs, newMax_eq x hs, hs t, mRow_otherLane]

/-- The probability of row `m`, column `j`. -/
def probEntry (scale : α) (x : TileScores α) (mNew : α) (m j : ℕ) : α :=
  exp2f (fmaf scale (maskedEntry x m j) (-(scale * mNew)))

/-- The sum that both lanes of a row get. -/
lemma newSum_eq (scale : α) (x : TileScores α) {s : Running α} (hs : Paired s.rmax) (t : Thread) :
    newSum scale x s t = ∑ j ∈ Finset.range 64, probEntry scale x (newMax x s t) (mRow t) j := by
  obtain ⟨h0, h1⟩ := masked_holds x
  have hm := (newMax_paired x hs).eq_row
  have p0 : Holds nCol (probs scale x s).1 fun m j =>
      probEntry scale x (rowValue (newMax x s) m) m j := by
    intro t i
    change _ = probEntry scale x (rowValue (newMax x s) (mRow t)) (mRow t) (nCol t i)
    rw [probEntry, ← hm t, ← h0 t i]
    rfl
  have p1 : Holds nCol (probs scale x s).2 fun m j =>
      probEntry scale x (rowValue (newMax x s) m) m (32 + j) := by
    intro t i
    change _ = probEntry scale x (rowValue (newMax x s) (mRow t)) (mRow t) (32 + nCol t i)
    have hi : (masked x).2 t i = maskedEntry x (mRow t) (32 + nCol t i) := h1 t i
    rw [probEntry, ← hm t, ← hi]
    rfl
  rw [newSum, softmaxRowSum_apply p0 p1 t, ← hm t]

lemma newSum_paired (scale : α) (x : TileScores α) {s : Running α} (hs : Paired s.rmax) :
    Paired (newSum scale x s) := by
  intro t
  rw [newSum_eq scale x hs, newSum_eq scale x hs, newMax_paired x hs t, mRow_otherLane]

/-! ### All tiles -/

/-- Lane `t` and its partner agree on what they carry. -/
structure InLockstep (s : Running α) (t : Thread) : Prop where
  rmax : s.rmax (otherLane t) = s.rmax t
  rsum : s.rsum (otherLane t) = s.rsum t

/-- The state in which every lane carries what lane `t` does. -/
def spread (s : Running α) (t : Thread) : Running α := ⟨fun _ => s.rmax t, fun _ => s.rsum t⟩

omit [Fp α] in
lemma spread_paired (s : Running α) (t : Thread) : Paired (spread s t).rmax := fun _ => rfl

omit [Fp α] in
lemma InLockstep.symm {s : Running α} {t : Thread} (hs : InLockstep s t) : InLockstep s (otherLane t) :=
  ⟨by rw [otherLane_otherLane, hs.rmax], by rw [otherLane_otherLane, hs.rsum]⟩

omit [Fp α] in
lemma InLockstep.spread_otherLane {s : Running α} {t : Thread} (hs : InLockstep s t) :
    spread s (otherLane t) = spread s t := by
  unfold spread
  rw [hs.rmax, hs.rsum]

/-- The maximum of a lane depends on its own running maximum and its partner's. -/
lemma newMax_spread (x : TileScores α) {s : Running α} {t : Thread} (hs : InLockstep s t) :
    newMax x s t = newMax x (spread s t) t := by
  simp only [newMax, softmaxRowMax, bpermuteF32, inWave_partner, hs.rmax, spread]

lemma newMax_same (x : TileScores α) {s : Running α} {t : Thread} (hs : InLockstep s t) :
    newMax x s (otherLane t) = newMax x s t := by
  rw [newMax_spread x hs.symm, hs.spread_otherLane, newMax_paired x (spread_paired s t) t,
    newMax_spread x hs]

/-- So does the sum. -/
lemma newSum_spread (scale : α) (x : TileScores α) {s : Running α} {t : Thread}
    (hs : InLockstep s t) : newSum scale x s t = newSum scale x (spread s t) t := by
  have h' : newMax x s (otherLane t) = newMax x (spread s t) (otherLane t) := by
    rw [newMax_spread x hs.symm, hs.spread_otherLane]
  simp only [newSum, softmaxRowSum, bpermuteF32, inWave_partner, probs, newMax_spread x hs, h']

lemma newSum_same (scale : α) (x : TileScores α) {s : Running α} {t : Thread}
    (hs : InLockstep s t) : newSum scale x s (otherLane t) = newSum scale x s t := by
  rw [newSum_spread scale x hs.symm, hs.spread_otherLane,
    newSum_paired scale x (spread_paired s t) t, newSum_spread scale x hs]

/-- One iteration keeps the lanes in lockstep. -/
lemma update_inLockstep (scale : α) {s : Running α} {t : Thread} (hs : InLockstep s t)
    (x : TileScores α) : InLockstep (update scale s x) t := by
  refine ⟨newMax_same x hs, ?_⟩
  unfold update
  simp only [newMax_same x hs, newSum_same scale x hs, hs.rmax, hs.rsum]

lemma run_inLockstep (scale : α) {s : Running α} {t : Thread} (hs : InLockstep s t)
    (xs : List (TileScores α)) : InLockstep (run scale s xs) t := by
  induction xs generalizing s with
  | nil => exact hs
  | cons x xs ih => exact ih (update_inLockstep scale hs x)

/-- The iteration of tile `x` from the state `s`, as lane `t` and its partner see it: both get the
maximum of the running one and of the row's 64 masked scores, both get the sum of the row's 64
probabilities, and both carry the same state on. -/
structure RowIteration (scale : α) (s : Running α) (x : TileScores α) (t : Thread) : Prop where
  max_same : newMax x s (otherLane t) = newMax x s t
  max_eq : newMax x s t = maxOver (s.rmax t) ((List.range 64).map (maskedEntry x (mRow t)))
  sum_same : newSum scale x s (otherLane t) = newSum scale x s t
  sum_eq : newSum scale x s t = ∑ j ∈ Finset.range 64, probEntry scale x (newMax x s t) (mRow t) j
  rmax_same : (update scale s x).rmax (otherLane t) = (update scale s x).rmax t
  rsum_same : (update scale s x).rsum (otherLane t) = (update scale s x).rsum t
  rmax_eq : (update scale s x).rmax t = newMax x s t
  rsum_eq : (update scale s x).rsum t
    = exp2f (scale * sub (s.rmax t) (newMax x s t)) * s.rsum t + newSum scale x s t

lemma rowIteration (scale : α) {s : Running α} {t : Thread} (hs : InLockstep s t)
    (x : TileScores α) : RowIteration scale s x t where
  max_same := newMax_same x hs
  max_eq := by rw [newMax_spread x hs, newMax_eq x (spread_paired s t)]; rfl
  sum_same := newSum_same scale x hs
  sum_eq := by rw [newSum_spread scale x hs, newSum_eq scale x (spread_paired s t), newMax_spread x hs]
  rmax_same := (update_inLockstep scale hs x).rmax
  rsum_same := (update_inLockstep scale hs x).rsum
  rmax_eq := rfl
  rsum_eq := rfl

section Block

variable {β : Type*} [Zero β]

/-- What a round of the block's tile loop gives its softmax. -/
def blockTile (bf : Bf16 α β) (c : BlockCtx α β) (s : TileState α β) : TileScores α :=
  { raw := tileScores bf c s, hasMask := c.hasMask, seqlenK := c.seqlenK, kvOffset := s.iv.kvOffset
    maskShift := c.maskShift, mTileIdx := c.mTileIdx }

/-- A round of the tile loop is an iteration. -/
lemma tileBody_update (bf : Bf16 α β) (c : BlockCtx α β) (s : TileState α β) :
    (⟨(tileBody bf c s).rmax, (tileBody bf c s).rsum⟩ : Running α)
      = update c.scale ⟨s.rmax, s.rsum⟩ (blockTile bf c s) := rfl

/-- The lanes of a block are in lockstep at every round. -/
lemma tileLoop_inLockstep (bf : Bf16 α β) (c : BlockCtx α β) (lds : Mem β) (k : ℕ) (t : Thread) :
    InLockstep (⟨((tileBody bf c)^[k] (tileInit c lds)).rmax,
      ((tileBody bf c)^[k] (tileInit c lds)).rsum⟩ : Running α) t := by
  induction k with
  | zero => exact ⟨rfl, rfl⟩
  | succ k ih =>
    rw [Function.iterate_succ_apply', tileBody_update]
    exact update_inLockstep c.scale ih _

/-- **The reductions are complete and the lanes stay in lockstep.** From a lane and a partner that
agree, in every iteration over any tiles; at the end the partner's log-sum-exp and normaliser are
the lane's own. A round of the block's loop is such an iteration, and the loop starts with lanes
that agree. -/
theorem lanes_lockstep (bf : Bf16 α β) (scale : α) {s : Running α} {t : Thread}
    (hs : InLockstep s t) :
    (∀ (xs : List (TileScores α)) (x : TileScores α), RowIteration scale (run scale s xs) x t) ∧
    (∀ xs : List (TileScores α),
      lseVal ((run scale s xs).rsum (otherLane t)) ((run scale s xs).rmax (otherLane t)) scale
          = lseVal ((run scale s xs).rsum t) ((run scale s xs).rmax t) scale ∧
        invSum ((run scale s xs).rsum (otherLane t)) = invSum ((run scale s xs).rsum t)) ∧
    ∀ (c : BlockCtx α β) (lds : Mem β) (k : ℕ),
      let b := (tileBody bf c)^[k] (tileInit c lds)
      RowIteration c.scale ⟨b.rmax, b.rsum⟩ (blockTile bf c b) t ∧
        (⟨(tileBody bf c b).rmax, (tileBody bf c b).rsum⟩ : Running α)
          = update c.scale ⟨b.rmax, b.rsum⟩ (blockTile bf c b) := by
  refine ⟨fun xs x => ?_, fun xs => ?_, fun c lds k => ?_⟩
  · exact rowIteration scale (run_inLockstep scale hs xs) x
  · have h := run_inLockstep scale hs xs
    rw [h.rmax, h.rsum]
    exact ⟨rfl, rfl⟩
  · exact ⟨rowIteration c.scale (tileLoop_inLockstep bf c lds k t) _, tileBody_update bf c _⟩

end Block

/-- Lane 37, from the state in which the loop is entered, over one tile of equal scores. -/
theorem lanes_lockstep_start :
    let s : Running XReal := ⟨fun _ => lit (-5000), fun _ => 0⟩
    let x : TileScores XReal := ⟨(fun _ _ => .fin 1, fun _ _ => .fin 1), true, 64, 0, 0, 0⟩
    RowIteration (.fin 1) (run (.fin 1) s [x]) x 37 :=
  (lanes_lockstep XReal.exact (.fin 1) ⟨rfl, rfl⟩).1 _ _

end FmhaNative.Lockstep
