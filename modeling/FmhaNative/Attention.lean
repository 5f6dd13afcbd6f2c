import FmhaNative.ExactFloat

/-!
Attention over the real numbers: what one query row is meant to be.
-/

namespace FmhaNative.Attention

/-- The keys below `seqlenK` that a row attends: all of them, or those not after its place on
the right-aligned diagonal. -/
def keys (hasMask : Bool) (seqlenK maskShift row : ℤ) : Finset ℕ :=
  {j ∈ Finset.range seqlenK.toNat | hasMask → (j : ℤ) ≤ row + maskShift}

/-- The weight of a key, from the scores `x`. -/
noncomputable def softmax (A : Finset ℕ) (x : ℕ → ℝ) (j : ℕ) : ℝ :=
  Real.exp (x j) / ∑ l ∈ A, Real.exp (x l)

/-- The output row: `0` when no key is attended. -/
noncomputable def output (A : Finset ℕ) (x : ℕ → ℝ) (v : ℕ → ℕ → ℝ) (d : ℕ) : ℝ :=
  ∑ j ∈ A, softmax A x j * v j d

/-- The log-sum-exp: `-inf` when no key is attended. -/
noncomputable def lse (A : Finset ℕ) (x : ℕ → ℝ) : XReal :=
  if A = ∅ then .inf true else .fin (Real.log (∑ j ∈ A, Real.exp (x j)))

lemma mem_keys {hasMask : Bool} {seqlenK maskShift row : ℤ} {j : ℕ} :
    j ∈ keys hasMask seqlenK maskShift row ↔
      (j : ℤ) < seqlenK ∧ (hasMask → (j : ℤ) ≤ row + maskShift) := by
  simp [keys, Int.lt_toNat]

lemma output_eq_div (A : Finset ℕ) (x : ℕ → ℝ) (v : ℕ → ℕ → ℝ) (d : ℕ) :
    output A x v d = (∑ j ∈ A, Real.exp (x j) * v j d) / ∑ j ∈ A, Real.exp (x j) := by
  rw [output, Finset.sum_div]
  refine Finset.sum_congr rfl fun j _ => ?_
  rw [softmax, div_mul_eq_mul_div]

lemma sum_exp_pos {A : Finset ℕ} (hA : A.Nonempty) (x : ℕ → ℝ) : 0 < ∑ j ∈ A, Real.exp (x j) :=
  Finset.sum_pos (fun _ _ => Real.exp_pos _) hA

lemma softmax_nonneg (A : Finset ℕ) (x : ℕ → ℝ) (j : ℕ) : 0 ≤ softmax A x j :=
  div_nonneg (Real.exp_pos _).le (Finset.sum_nonneg fun _ _ => (Real.exp_pos _).le)

/-- The weights of a row sum to one. -/
lemma sum_softmax {A : Finset ℕ} (hA : A.Nonempty) (x : ℕ → ℝ) : ∑ j ∈ A, softmax A x j = 1 := by
  unfold softmax
  rw [← Finset.sum_div, div_self (sum_exp_pos hA x).ne']

/-- Weights are not changed by a common shift of the scores. -/
lemma softmax_shift (A : Finset ℕ) (x : ℕ → ℝ) (M : ℝ) (j : ℕ) :
    Real.exp (x j - M) / ∑ l ∈ A, Real.exp (x l - M) = softmax A x j := by
  simp only [Real.exp_sub, ← Finset.sum_div, softmax]
  rw [div_div_div_cancel_right₀ (Real.exp_pos M).ne']

/-- A shifted log-sum-exp, shifted back. -/
lemma log_shift {A : Finset ℕ} (hA : A.Nonempty) (x : ℕ → ℝ) (M : ℝ) :
    Real.log (∑ l ∈ A, Real.exp (x l - M)) + M = Real.log (∑ l ∈ A, Real.exp (x l)) := by
  simp only [Real.exp_sub, ← Finset.sum_div]
  rw [Real.log_div (sum_exp_pos hA x).ne' (Real.exp_pos M).ne', Real.log_exp, sub_add_cancel]

/-- An average looks at the scores and the values of its keys. -/
lemma output_congr {A : Finset ℕ} {x x' : ℕ → ℝ} {v v' : ℕ → ℕ → ℝ} {d : ℕ}
    (hx : ∀ j ∈ A, x j = x' j) (hv : ∀ j ∈ A, v j d = v' j d) :
    output A x v d = output A x' v' d := by
  rw [output_eq_div, output_eq_div]
  congr 1
  · exact Finset.sum_congr rfl fun j hj => by rw [hx j hj, hv j hj]
  · exact Finset.sum_congr rfl fun j hj => by rw [hx j hj]

lemma lse_congr {A : Finset ℕ} {x x' : ℕ → ℝ} (hx : ∀ j ∈ A, x j = x' j) : lse A x = lse A x' := by
  rw [lse, lse, Finset.sum_congr rfl fun j hj => congrArg Real.exp (hx j hj)]

end FmhaNative.Attention
