import FmhaNative.Attention
import FmhaNative.OnlineSoftmax
import FmhaNative.RowRecurrence

/-!
The row recurrence over the real numbers: the rescaled sums, and without truncation the
attention row itself.
-/

namespace FmhaNative.RowExact

open RowRecurrence OpSoftmax OnlineSoftmax XReal

/-- The kernel's exponential of a score difference. -/
noncomputable def weight (σ : ℝ) (y : ℝ) : ℝ := 2 ^ (σ * y)

lemma weight_eq_exp (σ y : ℝ) : weight σ y = Real.exp (σ * Real.log 2 * y) := by
  rw [weight, Real.rpow_def_of_pos two_pos]
  ring_nf

lemma weight_isExp (σ : ℝ) : IsExp (weight σ) where
  add x y := by rw [weight, mul_add, Real.rpow_add two_pos, weight, weight]
  ne_zero x := (Real.rpow_pos_of_pos two_pos _).ne'

lemma weight_pos (σ y : ℝ) : 0 < weight σ y := Real.rpow_pos_of_pos two_pos _

/-- One row seen over the real numbers: which keys it attends, its scores and values, and
what truncation does to a probability. -/
structure RealRow {β : Type*} [Zero β] (bf : Bf16 XReal β) (S : ℤ → XReal) (V : ℤ → ℕ → β) where
  attended : ℕ → Prop
  [dec : DecidablePred attended]
  x : ℕ → ℝ
  v : ℕ → ℕ → ℝ
  trunc : ℝ → ℝ
  score : ∀ j : ℕ, S j = if attended j then fin (x j) else inf true
  value : ∀ (j : ℕ) d, bf.toFloat (V j d) = fin (v j d)
  trunc_eq : ∀ r, bf.toFloat (bf.ofFloat (fin r)) = fin (trunc r)

attribute [instance] RealRow.dec

variable {β : Type*} [Zero β] {bf : Bf16 XReal β} {S : ℤ → XReal} {V : ℤ → ℕ → β}

lemma RealRow.trunc_zero (R : RealRow bf S V) : R.trunc 0 = 0 := truncated_zero R.trunc_eq

/-! ### Any history of maxima -/

section History

variable {α γ : Type*} [Fp α] [Zero γ]

/-- A tile against a given new maximum. -/
def tileAt (bf : Bf16 α γ) (scale : α) (S : ℕ → α) (V : ℕ → ℕ → γ) (mNew : α) (s : RowState α) :
    RowState α :=
  let p := fun j => Fp.exp2f (Fp.fmaf scale (S j) (-(scale * mNew)))
  let rescale := Fp.exp2f (scale * Fp.sub s.rmax mNew)
  { rmax := mNew
    rsum := rescale * s.rsum + ∑ j ∈ Finset.range 64, p j
    oAcc := fun d => s.oAcc d * rescale +
      ∑ j ∈ Finset.range 64, bf.toFloat (V j d) * bf.toFloat (bf.ofFloat (p j)) }

/-- The tiles of a row under the history `m` of maxima. -/
def runAt (bf : Bf16 α γ) (scale : α) (S : ℤ → α) (V : ℤ → ℕ → γ) (m : ℕ → α) : ℕ → RowState α
  | 0 => ⟨m 0, 0, fun _ => 0⟩
  | k + 1 => tileAt bf scale (fun j => S (64 * k + j)) (fun j => V (64 * k + j)) (m (k + 1))
      (runAt bf scale S V m k)

lemma rowTile_eq_tileAt (bf : Bf16 α γ) (scale : α) (S : ℕ → α) (V : ℕ → ℕ → γ) (s : RowState α) :
    rowTile bf scale S V s = tileAt bf scale S V (maxOver s.rmax ((List.range 64).map S)) s := rfl

lemma runAt_rmax (bf : Bf16 α γ) (scale : α) (S : ℤ → α) (V : ℤ → ℕ → γ) (m : ℕ → α) (k : ℕ) :
    (runAt bf scale S V m k).rmax = m k := by
  cases k <;> rfl

/-- The row's own run is that under its own maxima. -/
lemma rowRun_eq_runAt (bf : Bf16 α γ) (scale : α) (S : ℤ → α) (V : ℤ → ℕ → γ) (n : ℕ) :
    rowRun bf scale S V n = runAt bf scale S V (fun k => (rowRun bf scale S V k).rmax) n := by
  induction n with
  | zero => rfl
  | succ n ih => rw [runAt, ← ih, rowRun, rowTile_eq_tileAt]; rfl

end History

/-- The probability of a key when its tile is processed under the history `m`. -/
noncomputable def RealRow.probAt (R : RealRow bf S V) (σ : ℝ) (m : ℕ → ℝ) (k j : ℕ) : ℝ :=
  if R.attended (64 * k + j) then weight σ (R.x (64 * k + j) - m (k + 1)) else 0

/-- The probability that the tile computes. -/
lemma prob_eq (R : RealRow bf S V) {σ : ℝ} (hσ : 0 < σ) (m : ℕ → ℝ) (k j : ℕ) :
    Fp.exp2f (Fp.fmaf (fin σ) (S (64 * k + j)) (-(fin σ * fin (m (k + 1)))))
      = fin (R.probAt σ m k j) := by
  have hs := R.score (64 * k + j)
  push_cast at hs
  rw [hs, RealRow.probAt, fin_mul, neg_fin]
  split_ifs
  · rw [fmaf_fin, exp2f_def, exp2_fin, weight, mul_sub, sub_eq_add_neg]
  · rw [fmaf_ninf hσ]
    rfl

/-- **The recurrence over the reals**: the denominator and the numerators are sums with a
moving reference. -/
theorem runAt_real (R : RealRow bf S V) {σ : ℝ} (hσ : 0 < σ) (m : ℕ → ℝ) (k : ℕ) :
    (runAt bf (fin σ) S V (fun k => fin (m k)) k).rsum
        = fin (run (weight σ) m (fun k => ∑ j ∈ Finset.range 64, R.probAt σ m k j) k) ∧
      ∀ d, (runAt bf (fin σ) S V (fun k => fin (m k)) k).oAcc d
        = fin (run (weight σ) m
            (fun k => ∑ j ∈ Finset.range 64, R.trunc (R.probAt σ m k j) * R.v (64 * k + j) d) k) := by
  induction k with
  | zero => exact ⟨rfl, fun d => rfl⟩
  | succ k ih =>
    obtain ⟨hsum, hacc⟩ := ih
    have hr : Fp.exp2f (fin σ * Fp.sub (fin (m k)) (fin (m (k + 1))))
        = fin (weight σ (m k - m (k + 1))) := by
      rw [sub_fin, fin_mul, exp2f_def, exp2_fin, weight]
    have hv : ∀ j d : ℕ, bf.toFloat (V (64 * k + j) d) = fin (R.v (64 * k + j) d) := fun j d => by
      rw [← R.value]
      push_cast
      rfl
    constructor
    · simp only [runAt, tileAt, runAt_rmax, hr, prob_eq R hσ, hsum]
      simp only [fin_mul, sum_fin, fin_add, run]
    · intro d
      simp only [runAt, tileAt, runAt_rmax, hr, prob_eq R hσ, hacc, hv, R.trunc_eq]
      simp only [fin_mul, sum_fin, fin_add, run]
      congr 2
      · ring
      · exact Finset.sum_congr rfl fun j _ => mul_comm _ _

/-! ### The row's own maxima -/

/-- The running maximum after `k` tiles. -/
noncomputable def rowMax (bf : Bf16 XReal β) (σ : ℝ) (S : ℤ → XReal) (V : ℤ → ℕ → β) (k : ℕ) : ℝ :=
  match (rowRun bf (fin σ) S V k).rmax with
  | fin r => r
  | _ => 0

/-- The probability of a key when its tile is processed. -/
noncomputable def RealRow.prob (R : RealRow bf S V) (σ : ℝ) (k j : ℕ) : ℝ :=
  if R.attended (64 * k + j) then weight σ (R.x (64 * k + j) - rowMax bf σ S V (k + 1)) else 0

lemma rowRun_rmax (R : RealRow bf S V) (σ : ℝ) (k : ℕ) :
    (rowRun bf (fin σ) S V k).rmax = fin (rowMax bf σ S V k) := by
  have h : ∃ r, (rowRun bf (fin σ) S V k).rmax = fin r := by
    induction k with
    | zero => exact ⟨_, rfl⟩
    | succ k ih =>
      obtain ⟨a, ha⟩ := ih
      have hs : ∀ j : ℕ, S (64 * k + j)
          = if R.attended (64 * k + j) then fin (R.x (64 * k + j)) else Fp.negInf := fun j => by
        have hj := R.score (64 * k + j)
        push_cast at hj
        exact hj
      obtain ⟨M, hM, -⟩ : ∃ M, maxOver (fin a) ((List.range 64).map fun j =>
          if R.attended (64 * k + j) then fin (R.x (64 * k + j)) else Fp.negInf) = fin M ∧ _ :=
        maxOver_masked fmax_fin fmax_ninf_fin _ a
      rw [rowRun, rowTile]
      simp only [ha, hs]
      exact ⟨M, hM⟩
  obtain ⟨r, hr⟩ := h
  rw [rowMax, hr]

lemma rowRun_eq_rowMax (R : RealRow bf S V) (σ : ℝ) (n : ℕ) :
    rowRun bf (fin σ) S V n = runAt bf (fin σ) S V (fun k => fin (rowMax bf σ S V k)) n := by
  simp only [← rowRun_rmax R σ]
  exact rowRun_eq_runAt bf (fin σ) S V n

/-- The row's own run over the reals. -/
theorem rowRun_real (R : RealRow bf S V) {σ : ℝ} (hσ : 0 < σ) (k : ℕ) :
    (rowRun bf (fin σ) S V k).rsum
        = fin (run (weight σ) (rowMax bf σ S V) (fun k => ∑ j ∈ Finset.range 64, R.prob σ k j) k) ∧
      ∀ d, (rowRun bf (fin σ) S V k).oAcc d
        = fin (run (weight σ) (rowMax bf σ S V)
            (fun k => ∑ j ∈ Finset.range 64, R.trunc (R.prob σ k j) * R.v (64 * k + j) d) k) := by
  rw [rowRun_eq_rowMax R σ k]
  exact runAt_real R hσ (rowMax bf σ S V) k

/-- A `nan` among the walked values of a column makes the numerator `nan`. -/
lemma rowRun_oAcc_nan {scale : XReal} {n j d : ℕ} (hj : j < 64 * n)
    (h : bf.toFloat (V j d) = nan) : (rowRun bf scale S V n).oAcc d = nan := by
  induction n with
  | zero => exact absurd hj (Nat.not_lt_zero j)
  | succ n ih =>
    simp only [rowRun, rowTile]
    rcases lt_or_ge j (64 * n) with hlt | hge
    · rw [ih hlt, nan_mul, nan_add]
    · -- the probability that multiplies it does not matter
      have hm : j - 64 * n ∈ Finset.range 64 := Finset.mem_range.mpr (by omega)
      have hj' : (64 * (n : ℤ) + (j - 64 * n : ℕ)) = j := by omega
      rw [sum_eq_nan hm (by rw [hj', h, nan_mul]), add_nan]

/-! ### Without truncation -/

/-- The attended keys of the first `n` tiles. -/
def RealRow.keys (R : RealRow bf S V) (n : ℕ) : Finset ℕ := {j ∈ Finset.range (64 * n) | R.attended j}

/-- A sum of weighted contributions of the tiles, at a fixed reference. -/
lemma weight_mul_run (R : RealRow bf S V) (σ : ℝ) (m : ℕ → ℝ) (u : ℕ → ℝ) (n : ℕ) :
    weight σ (m n) * run (weight σ) m
        (fun k => ∑ j ∈ Finset.range 64, R.probAt σ m k j * u (64 * k + j)) n
      = ∑ j ∈ R.keys n, Real.exp (σ * Real.log 2 * R.x j) * u j := by
  rw [run_tiles (weight_isExp σ) (s := R.x) (u := fun j => if R.attended j then u j else 0)]
  · rw [RealRow.keys, Finset.sum_filter]
    refine Finset.sum_congr rfl fun j _ => ?_
    split_ifs
    · rw [weight_eq_exp]
    · rw [mul_zero]
  · intro k
    refine Finset.sum_congr rfl fun j _ => ?_
    rw [RealRow.probAt]
    split_ifs
    · rfl
    · rw [zero_mul, mul_zero]

/-- The denominator, at a fixed reference. -/
lemma weight_mul_rsum (R : RealRow bf S V) (σ : ℝ) (m : ℕ → ℝ) (n : ℕ) :
    weight σ (m n) * run (weight σ) m (fun k => ∑ j ∈ Finset.range 64, R.probAt σ m k j) n
      = ∑ j ∈ R.keys n, Real.exp (σ * Real.log 2 * R.x j) := by
  have h := weight_mul_run R σ m (fun _ => 1) n
  simpa only [mul_one] using h

/-- The row of exact arithmetic, read off the final state. -/
structure ExactRow (bf : Bf16 XReal β) (σ : ℝ) (S : ℤ → XReal) (V : ℤ → ℕ → β) (A : Finset ℕ)
    (x : ℕ → ℝ) (v : ℕ → ℕ → ℝ) (n : ℕ) (M l : ℝ) (o : ℕ → ℝ) : Prop where
  rmax : (rowRun bf (fin σ) S V n).rmax = fin M
  rsum : (rowRun bf (fin σ) S V n).rsum = fin l
  oAcc : ∀ d, (rowRun bf (fin σ) S V n).oAcc d = fin (o d)
  denominator : weight σ M * l = ∑ j ∈ A, Real.exp (x j)
  numerator : ∀ d, weight σ M * o d = ∑ j ∈ A, Real.exp (x j) * v j d

lemma exists_exactRow (R : RealRow bf S V) (hT : ∀ r, R.trunc r = r) {σ : ℝ} (hσ : 0 < σ) (n : ℕ) :
    ∃ M l o, ExactRow bf σ S V (R.keys n) (fun j => σ * Real.log 2 * R.x j) R.v n M l o := by
  obtain ⟨hsum, hacc⟩ := rowRun_real R hσ n
  refine ⟨_, _, _, rowRun_rmax R σ n, hsum, hacc, ?_, fun d => ?_⟩
  · exact weight_mul_rsum R σ (rowMax bf σ S V) n
  · have h := weight_mul_run R σ (rowMax bf σ S V) (fun j => R.v j d) n
    simp only [hT]
    exact h

/-- The normalisation of a numerator; a row of no keys gives zero. -/
lemma mul_invSum (o : ℝ) {l : ℝ} (hl : 0 ≤ l) : fin o * OpEpilog.invSum (fin l) = fin (o / l) := by
  rw [OpEpilog.invSum, zero_def]
  rcases hl.eq_or_lt with rfl | hpos
  · rw [Fp.lt_irrefl, if_neg Bool.false_ne_true, fin_mul, mul_zero, div_zero]
  · rw [if_pos (by simpa using hpos), recip_def, recip_fin hpos.ne', fin_mul, div_eq_mul_inv]

section ExactRow

variable {σ M l : ℝ} {o : ℕ → ℝ} {A : Finset ℕ} {x : ℕ → ℝ} {v : ℕ → ℕ → ℝ} {n : ℕ}

lemma ExactRow.pos (h : ExactRow bf σ S V A x v n M l o) (hA : A.Nonempty) : 0 < l := by
  have hz := Attention.sum_exp_pos hA x
  rw [← h.denominator] at hz
  exact (pos_iff_pos_of_mul_pos hz).mp (weight_pos σ M)

lemma ExactRow.eq_zero (h : ExactRow bf σ S V A x v n M l o) (hA : A = ∅) : l = 0 := by
  have hz := h.denominator
  rw [hA, Finset.sum_empty] at hz
  exact (mul_eq_zero.mp hz).resolve_left (weight_pos σ M).ne'

/-- **The stored output row is attention**: the normalised numerators are the softmax-weighted
sums of the attended values. -/
theorem ExactRow.output (h : ExactRow bf σ S V A x v n M l o) (d : ℕ) :
    (rowRun bf (fin σ) S V n).oAcc d * OpEpilog.invSum (rowRun bf (fin σ) S V n).rsum
      = fin (Attention.output A x v d) := by
  have hl : 0 ≤ l := by
    rcases A.eq_empty_or_nonempty with hA | hA
    · exact (h.eq_zero hA).ge
    · exact (h.pos hA).le
  rw [h.oAcc, h.rsum, mul_invSum (o d) hl, Attention.output_eq_div, ← h.numerator, ← h.denominator,
    mul_div_mul_left _ _ (weight_pos σ M).ne']

/-- **The stored log-sum-exp** is that of the attended scores. -/
theorem ExactRow.lse (h : ExactRow bf σ S V A x v n M l o) :
    OpEpilog.lseVal (rowRun bf (fin σ) S V n).rsum (rowRun bf (fin σ) S V n).rmax (fin σ)
      = Attention.lse A x := by
  rw [h.rsum, h.rmax, Attention.lse, OpEpilog.lseVal, zero_def]
  rcases A.eq_empty_or_nonempty with hA | hA
  · rw [h.eq_zero hA, Fp.lt_irrefl, if_neg Bool.false_ne_true, if_pos hA, negInf_def]
  · have hl := h.pos hA
    rw [if_pos (by simpa using hl), if_neg hA.ne_empty, ← h.denominator,
      Real.log_mul (weight_pos σ M).ne' hl.ne', weight, Real.log_rpow two_pos, log2f_def,
      logb_fin hl, ln2_def, fin_mul, fin_add, fin_mul, add_mul, Real.logb,
      div_mul_cancel₀ _ (Real.log_pos one_lt_two).ne']
    congr 1
    ring

end ExactRow

end FmhaNative.RowExact
