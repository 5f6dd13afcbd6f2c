import FmhaNative.OnlineSoftmax
import FmhaNative.OpGemm

/-!
Online softmax on the score registers: mask, running maximum, `exp2`, row sum, rescale.

A row of 64 scores lives in two lanes, 32 registers each; one exchange between the two
merges what each has reduced on its own.
-/

namespace FmhaNative.OpSoftmax

open OpGemm Fp

variable {α : Type*} [Fp α]

/-- `ds_bpermute_b32`: the value that another lane of the wave holds. -/
def bpermuteF32 (srcLane : Thread → ℕ) (val : Thread → α) : Thread → α :=
  fun t => val (inWave t (srcLane t))

/-- The lane that holds the other half of the row. -/
def partner (t : Thread) : ℕ := (t.val ^^^ (t.val &&& 63)) ||| ((t.val &&& 63) ^^^ 32)

def offsets : Fin 16 → ℤ := ![0, 1, 2, 3, 4, 5, 6, 7, 16, 17, 18, 19, 20, 21, 22, 23]

def softmaxMask (hasMask : Bool) (sAccN0 sAccN1 : V16f α)
    (seqlenK kvOffset mRow maskShift mTileBase : ℤ) (t : Thread) : V16f α × V16f α :=
  let colBase := kvOffset + kSub t * 8
  let boundary := seqlenK - colBase
  let causal := mRow + maskShift - colBase + 1
  let limit := if hasMask ∧ causal < boundary then causal else boundary
  if ¬hasMask ∧ kvOffset + kN0 ≤ seqlenK then (sAccN0, sAccN1)
  else if hasMask ∧ kvOffset + kN0 ≤ mTileBase + maskShift + 1 ∧ kvOffset + kN0 ≤ seqlenK then
    (sAccN0, sAccN1)
  else
    (fun i => if limit ≤ offsets i then negInf else sAccN0 i,
      fun i => if limit ≤ offsets i + 32 then negInf else sAccN1 i)

def softmaxRowMax (sAccN0 sAccN1 : Thread → V16f α) (rmax : Thread → α) : Thread → α :=
  let localMax := fun t => (List.finRange 16).foldl
    (fun m i => fmaxf (fmaxf m (sAccN0 t i)) (sAccN1 t i)) (rmax t)
  let other := bpermuteF32 partner localMax
  fun t => fmaxf (localMax t) (other t)

def softmaxExp2 (sAcc : V16f α) (scale scaleM : α) : V16f α :=
  fun i => exp2f (fmaf scale (sAcc i) (-scaleM))

def softmaxRowSum (pN0 pN1 : Thread → V16f α) : Thread → α :=
  let localSum := fun t => (List.finRange 16).foldl (fun s i => s + pN0 t i + pN1 t i) 0
  let other := bpermuteF32 partner localSum
  fun t => localSum t + other t

def rescaleOAcc (oAcc : V16f α) (factor : α) : V16f α := fun i => oAcc i * factor

/-! ### The mask by key position -/

/-- The key a row attends: inside the sequence and, with the mask, not after the diagonal. -/
def attends (hasMask : Bool) (seqlenK maskShift m j : ℤ) : Prop :=
  j < seqlenK ∧ (hasMask → j ≤ m + maskShift)

instance (hasMask : Bool) (seqlenK maskShift m j : ℤ) :
    Decidable (attends hasMask seqlenK maskShift m j) := inferInstanceAs (Decidable (_ ∧ _))

lemma offsets_eq (i : Fin 16) : offsets i = ((i.val / 8 * 16 + i.val % 8 : ℕ) : ℤ) := by
  fin_cases i <;> rfl

/-- **The mask**, entry by entry: an unattended key scores `-inf`, on the fast path too. -/
theorem softmaxMask_apply (hasMask : Bool) (sAccN0 sAccN1 : V16f α)
    (seqlenK kvOffset : ℤ) {m : ℤ} (maskShift : ℤ) {mTileBase : ℤ} (hm : mTileBase ≤ m) (t : Thread) (i : Fin 16) :
    (softmaxMask hasMask sAccN0 sAccN1 seqlenK kvOffset m maskShift mTileBase t).1 i
        = (if attends hasMask seqlenK maskShift m (kvOffset + nCol t i) then sAccN0 i else negInf) ∧
      (softmaxMask hasMask sAccN0 sAccN1 seqlenK kvOffset m maskShift mTileBase t).2 i
        = (if attends hasMask seqlenK maskShift m (kvOffset + (32 + nCol t i : ℕ)) then sAccN1 i
            else negInf) := by
  have hn := nCol_lt t i
  have hc : (nCol t i : ℤ) = offsets i + kSub t * 8 := by
    rw [offsets_eq, nCol]; push_cast; ring
  -- below the limit is inside both bounds
  have hlim : ∀ {boundary causal off : ℤ},
      (if hasMask ∧ causal < boundary then causal else boundary) ≤ off ↔
        ¬(off < boundary ∧ (hasMask → off < causal)) := by
    intro boundary causal off
    cases hasMask <;> simp only [Bool.false_eq_true, false_and, if_false, false_implies, and_true,
      true_and, true_implies]
    · omega
    · split_ifs <;> omega
  have h0 : (offsets i < seqlenK - (kvOffset + kSub t * 8) ∧
      (hasMask → offsets i < m + maskShift - (kvOffset + kSub t * 8) + 1)) ↔
      attends hasMask seqlenK maskShift m (kvOffset + nCol t i) := by
    rw [attends, hc]
    exact and_congr (by omega) (imp_congr_right fun _ => by omega)
  have h1 : (offsets i + 32 < seqlenK - (kvOffset + kSub t * 8) ∧
      (hasMask → offsets i + 32 < m + maskShift - (kvOffset + kSub t * 8) + 1)) ↔
      attends hasMask seqlenK maskShift m (kvOffset + (32 + nCol t i : ℕ)) := by
    rw [attends]
    push_cast
    rw [hc]
    exact and_congr (by omega) (imp_congr_right fun _ => by omega)
  simp only [softmaxMask, hlim, kN0_eq]
  have hall : (∀ n : ℕ, n < 64 → attends hasMask seqlenK maskShift m (kvOffset + n)) →
      sAccN0 i = (if attends hasMask seqlenK maskShift m (kvOffset + nCol t i) then sAccN0 i
        else negInf) ∧
      sAccN1 i = (if attends hasMask seqlenK maskShift m (kvOffset + (32 + nCol t i : ℕ))
        then sAccN1 i else negInf) := fun ha =>
    ⟨(if_pos (ha (nCol t i) (by omega))).symm, (if_pos (ha (32 + nCol t i) (by omega))).symm⟩
  by_cases hfast : ¬hasMask ∧ kvOffset + 64 ≤ seqlenK
  · rw [if_pos hfast]
    exact hall fun n hn => ⟨by omega, fun h => absurd h hfast.1⟩
  by_cases hfast' : hasMask ∧ kvOffset + 64 ≤ mTileBase + maskShift + 1 ∧ kvOffset + 64 ≤ seqlenK
  · rw [if_neg hfast, if_pos hfast']
    exact hall fun n hn => ⟨by omega, fun _ => by omega⟩
  · rw [if_neg hfast, if_neg hfast']
    exact ⟨(ite_not ..).trans (if_congr h0 rfl rfl), (ite_not ..).trans (if_congr h1 rfl rfl)⟩

/-- Register `i` of one of the two 32-wide score halves. -/
def scoreReg (s : V16f α × V16f α) (ntile : Fin 2) : V16f α := if ntile = 0 then s.1 else s.2

/-- The absolute key column of a register. -/
def absCol (kvOffset : ℤ) (t : Thread) (ntile : Fin 2) (i : Fin 16) : ℤ :=
  kvOffset + (32 * ntile.val + i.val / 8 * 16 + kSub t * 8 + i.val % 8 : ℕ)

/-- **The mask by column**: an entry is `-inf` from the end of the sequence on and, with the
mask, past the diagonal of its row, and untouched elsewhere, on the early return of a full tile
as in the loop over the folded limit. -/
theorem softmaxMask_col (hasMask : Bool) (s : V16f α × V16f α) (seqlenK kvOffset maskShift : ℤ)
    {m mTileBase : ℤ} (hm : mTileBase ≤ m) (t : Thread) (ntile : Fin 2) (i : Fin 16) :
    scoreReg (softmaxMask hasMask s.1 s.2 seqlenK kvOffset m maskShift mTileBase t) ntile i
      = if seqlenK ≤ absCol kvOffset t ntile i ∨ (hasMask ∧ m + maskShift < absCol kvOffset t ntile i)
        then negInf else scoreReg s ntile i := by
  obtain ⟨h0, h1⟩ := softmaxMask_apply hasMask s.1 s.2 seqlenK kvOffset maskShift hm t i
  have hcol : ∀ c : ℤ, ¬ attends hasMask seqlenK maskShift m c ↔
      seqlenK ≤ c ∨ (hasMask ∧ m + maskShift < c) := by
    intro c
    rw [attends, not_and_or, Classical.not_imp, not_lt, not_le]
  have hreg : ∀ nt : Fin 2, absCol kvOffset t nt i = kvOffset + (32 * nt.val + nCol t i : ℕ) := by
    intro nt
    rw [absCol, nCol]
    push_cast
    ring
  rw [hreg, ← ite_not]
  simp only [← hcol, not_not]
  fin_cases ntile
  · simpa only [scoreReg, Fin.zero_eta, if_true, Fin.val_zero, mul_zero, zero_add] using h0
  · simpa only [scoreReg, Fin.mk_one, Fin.val_one, mul_one, one_ne_zero, if_false] using h1

/-- A diagonal tile of a short sequence, row 3 of the M-tile with one key cut off: column 9 is
past the diagonal. -/
theorem softmaxMask_col_diagonal :
    scoreReg (softmaxMask true (fun _ => XReal.fin 1) (fun _ => XReal.fin 1) 40 0 3 (-1) 0 32) 0 1
      = XReal.inf true :=
  (softmaxMask_col true (fun _ => XReal.fin 1, fun _ => XReal.fin 1) 40 0 (-1)
    (by decide : (0 : ℤ) ≤ 3) 32 0 1).trans (if_pos (by decide))

/-! ### Both halves of a row -/

lemma partner_mod (t : Thread) : partner t % 64 = (t.val + 32) % 64 := by
  revert t
  decide +kernel

/-- The partner lane owns the same row. -/
lemma mRow_partner (t : Thread) : mRow (inWave t (partner t)) = mRow t := by
  have h := partner_mod t
  rw [mRow_inWave, mRow_eq]
  omega

lemma kSub_partner (t : Thread) : kSub (inWave t (partner t)) = 1 - kSub t := by
  have h := partner_mod t
  rw [kSub_inWave, h, kSub_eq]
  omega

/-- The keys whose scores half `k` of a row holds, in register order. -/
def cols (k : ℕ) : List ℕ :=
  (List.finRange 16).flatMap fun r =>
    [r.val / 8 * 16 + k * 8 + r.val % 8, 32 + (r.val / 8 * 16 + k * 8 + r.val % 8)]

/-- The two halves of a row hold each of the 64 keys once. -/
lemma cols_perm {k : ℕ} (hk : k < 2) : (cols k ++ cols (1 - k)).Perm (List.range 64) := by
  interval_cases k <;> decide

omit [Fp α] in
/-- A fold over the registers of a lane is a fold over its keys. -/
lemma foldl_regs {γ : Type*} {s0 s1 : Thread → V16f α} {S : ℕ → ℕ → α} (h0 : Holds nCol s0 S)
    (h1 : Holds nCol s1 fun m n => S m (32 + n)) (f : γ → α → γ) (z : γ) (t : Thread) :
    (List.finRange 16).foldl (fun m i => f (f m (s0 t i)) (s1 t i)) z
      = (cols (kSub t)).foldl (fun m j => f m (S (mRow t) j)) z := by
  rw [cols, List.foldl_flatMap]
  simp only [List.foldl_cons, List.foldl_nil, h0 t _, h1 t _, nCol]

/-- The maximum of a list of scores, from a start value. -/
def maxOver (z : α) (l : List α) : α := l.foldl fmaxf z

lemma maxOver_fmaxf (x z : α) (l : List α) : maxOver (fmaxf x z) l = fmaxf x (maxOver z l) := by
  induction l generalizing z with
  | nil => rfl
  | cons y l ih => rw [maxOver, List.foldl_cons, fmaxf_assoc]; exact ih _

lemma maxOver_append (z : α) (l₁ l₂ : List α) :
    fmaxf (maxOver z l₁) (maxOver z l₂) = maxOver z (l₁ ++ l₂) := by
  have h : maxOver z (l₁ ++ l₂) = maxOver (maxOver z l₁) l₂ := List.foldl_append
  have hz : maxOver z l₁ = fmaxf (maxOver z l₁) z := by
    rw [fmaxf_comm, ← maxOver_fmaxf, fmaxf_self]
  rw [h, ← maxOver_fmaxf, ← hz]

lemma maxOver_perm (z : α) {l₁ l₂ : List α} (h : l₁.Perm l₂) : maxOver z l₁ = maxOver z l₂ :=
  h.foldl_eq z

section Masked

open OnlineSoftmax

variable {real : ℝ → α} {attended : ℕ → Prop} [DecidablePred attended] {x : ℕ → ℝ}

/-- A maximum over masked scores is that over the attended ones. -/
lemma maxOver_masked (hmax : ∀ a b, fmaxf (real a) (real b) = real (max a b))
    (hinf : ∀ a, fmaxf (real a) negInf = real a) (l : List ℕ) (a : ℝ) :
    ∃ M, maxOver (real a) (l.map fun j => if attended j then real (x j) else negInf) = real M ∧
      IsSeededMax a {j ∈ l.toFinset | attended j} x M := by
  induction l generalizing a with
  | nil => exact ⟨a, rfl, IsSeededMax.nil a x⟩
  | cons j l ih =>
    rw [List.map_cons, maxOver, List.foldl_cons, List.toFinset_cons, Finset.filter_insert]
    split_ifs with hj
    · obtain ⟨M, hM, h⟩ := ih (max a (x j))
      refine ⟨M, by rw [hmax]; exact hM, ?_⟩
      have h1 : IsSeededMax a {j} x (max a (x j)) :=
        ⟨le_max_left _ _, by simp, (max_choice a (x j)).imp_right fun h => ⟨j, by simp, h.symm⟩⟩
      exact h1.union h
    · rw [hinf]
      exact ih a

/-- Without a seed it is their maximum, as soon as there is one. -/
lemma maxOver_negInf (hmax : ∀ a b, fmaxf (real a) (real b) = real (max a b))
    (hinf : ∀ a, fmaxf (real a) negInf = real a) (l : List ℕ)
    (hA : Finset.Nonempty {j ∈ l.toFinset | attended j}) :
    maxOver negInf (l.map fun j => if attended j then real (x j) else negInf)
      = real (Finset.sup' _ hA x) := by
  induction l with
  | nil => exact absurd hA (by simp)
  | cons j l ih =>
    rw [List.map_cons, maxOver, List.foldl_cons]
    split_ifs with hj
    · obtain ⟨M, hM, h⟩ : ∃ M, maxOver (real (x j)) (l.map fun j =>
          if attended j then real (x j) else negInf) = real M ∧ _ := maxOver_masked hmax hinf l (x j)
      rw [fmaxf_comm, hinf]
      refine hM.trans (congrArg real ?_)
      have hset : Finset.filter attended (j :: l).toFinset
          = {j} ∪ Finset.filter attended l.toFinset := by
        rw [List.toFinset_cons, Finset.filter_insert, if_pos hj]
        rfl
      have h1 : IsSeededMax (x j) {j} x (x j) := ⟨le_rfl, by simp, Or.inl rfl⟩
      have hall := h1.union h
      rw [← hset] at hall
      rw [hall.eq_max hA]
      exact max_eq_right (Finset.le_sup' x (by rw [hset]; simp))
    · have hset : Finset.filter attended (j :: l).toFinset = Finset.filter attended l.toFinset := by
        rw [List.toFinset_cons, Finset.filter_insert, if_neg hj]
      rw [fmaxf_self]
      simp only [hset] at hA ⊢
      exact ih hA

end Masked

/-- **The row maximum**: both lanes of a row get the maximum of its 64 scores and of what
the row carried in. -/
theorem softmaxRowMax_apply {s0 s1 : Thread → V16f α} {rmax : Thread → α} {S : ℕ → ℕ → α}
    {R : ℕ → α} (h0 : Holds nCol s0 S) (h1 : Holds nCol s1 fun m n => S m (32 + n))
    (hr : ∀ t, rmax t = R (mRow t)) (t : Thread) :
    softmaxRowMax s0 s1 rmax t = maxOver (R (mRow t)) ((List.range 64).map (S (mRow t))) := by
  have hl : ∀ u, (List.finRange 16).foldl (fun m i => fmaxf (fmaxf m (s0 u i)) (s1 u i)) (rmax u)
      = maxOver (R (mRow u)) ((cols (kSub u)).map (S (mRow u))) := by
    intro u
    rw [foldl_regs h0 h1, hr, maxOver, List.foldl_map]
  simp only [softmaxRowMax, bpermuteF32, hl, mRow_partner, kSub_partner]
  rw [maxOver_append, ← List.map_append]
  exact maxOver_perm _ ((cols_perm (kSub_lt t)).map _)

lemma foldl_add_eq_sum (l : List ℕ) (f : ℕ → α) (z : α) :
    l.foldl (fun s j => s + f j) z = z + (l.map f).sum := by
  induction l generalizing z with
  | nil => simp
  | cons j l ih => rw [List.foldl_cons, ih, List.map_cons, List.sum_cons, add_assoc]

/-- **The row sum**: both lanes of a row get the sum of its 64 entries. -/
theorem softmaxRowSum_apply {p0 p1 : Thread → V16f α} {P : ℕ → ℕ → α} (h0 : Holds nCol p0 P)
    (h1 : Holds nCol p1 fun m n => P m (32 + n)) (t : Thread) :
    softmaxRowSum p0 p1 t = ∑ j ∈ Finset.range 64, P (mRow t) j := by
  have hl : ∀ u, (List.finRange 16).foldl (fun s i => s + p0 u i + p1 u i) 0
      = ((cols (kSub u)).map (P (mRow u))).sum := by
    intro u
    rw [foldl_regs h0 h1 (fun s x => s + x), foldl_add_eq_sum, zero_add]
  simp only [softmaxRowSum, bpermuteF32, hl, mRow_partner, kSub_partner]
  rw [← List.sum_append, ← List.map_append, ((cols_perm (kSub_lt t)).map _).sum_eq,
    ← Multiset.sum_coe, ← Multiset.map_coe]
  rfl

end FmhaNative.OpSoftmax
