import FmhaNative.Attention
import FmhaNative.GpuRef

/-!
The reference row over the real numbers: its three passes compute the softmax-weighted sum,
each weight truncated, and the log-sum-exp.
-/

namespace FmhaNative.GpuRefExact

open GpuRef Loops XReal

/-- Scores of `n` keys: real for the keys in `A`, `-inf` for the others. -/
structure Scores (n : ℕ) (s : ℕ → XReal) (A : Finset ℕ) (x : ℕ → ℝ) : Prop where
  subset : ∀ j ∈ A, j < n
  score : ∀ j < n, s j = if j ∈ A then fin (x j) else inf true

variable {n : ℕ} {s : ℕ → XReal} {A : Finset ℕ} {x : ℕ → ℝ}

/-- The maximum loop: `-inf` as long as it has met no attended key, real from then on. -/
lemma maxS_cases (hs : ∀ j < n, s j = if j ∈ A then fin (x j) else inf true) :
    ((∀ j < n, j ∉ A) ∧ maxS n s = inf true) ∨ ((∃ j < n, j ∈ A) ∧ ∃ M, maxS n s = fin M) := by
  induction n with
  | zero => exact Or.inl ⟨fun j hj => by omega, rfl⟩
  | succ n ih =>
    have hstep : maxS (n + 1) s = if Fp.lt (maxS n s) (s n) then s n else maxS n s := by
      rw [maxS, List.range_succ, List.foldl_append]
      rfl
    rw [hstep, hs n (by omega)]
    rcases ih fun j hj => hs j (by omega) with ⟨hnone, hm⟩ | ⟨⟨j, hj, hjA⟩, M, hm⟩
    · by_cases hn : n ∈ A
      · refine Or.inr ⟨⟨n, by omega, hn⟩, x n, ?_⟩
        rw [if_pos hn, hm, if_pos (by simp)]
      · refine Or.inl ⟨fun j hj => ?_, ?_⟩
        · rcases Nat.lt_succ_iff_lt_or_eq.mp hj with hj | rfl
          · exact hnone j hj
          · exact hn
        · rw [if_neg hn, hm, if_neg (by simp)]
    · refine Or.inr ⟨⟨j, by omega, hjA⟩, ?_⟩
      rw [hm]
      by_cases hn : n ∈ A
      · rw [if_pos hn]
        split_ifs
        · exact ⟨_, rfl⟩
        · exact ⟨_, rfl⟩
      · rw [if_neg hn, if_neg (by simp)]
        exact ⟨M, rfl⟩

lemma Scores.maxS_empty (h : Scores n s A x) (hA : A = ∅) : maxS n s = inf true := by
  rcases maxS_cases h.score with ⟨-, hm⟩ | ⟨⟨j, -, hj⟩, -⟩
  · exact hm
  · simp [hA] at hj

lemma Scores.exists_maxS (h : Scores n s A x) (hA : A.Nonempty) : ∃ M, maxS n s = fin M := by
  rcases maxS_cases h.score with ⟨hnone, -⟩ | ⟨-, hm⟩
  · obtain ⟨j, hj⟩ := hA
    exact absurd hj (hnone j (h.subset j hj))
  · exact hm

/-- The exponential of a key, whatever real maximum is subtracted. -/
lemma Scores.expS (h : Scores n s A x) (M : ℝ) {j : ℕ} (hj : j < n) :
    expS s (fin M) j = fin (if j ∈ A then Real.exp (x j - M) else 0) := by
  rw [GpuRef.expS, h.score j hj]
  by_cases hA : j ∈ A
  · rw [if_pos hA, if_pos hA, if_neg (by simp), sub_fin, expf_def, exp_fin]
  · rw [if_neg hA, if_neg hA, if_pos (by simp)]
    rfl

/-- Unattended keys have no weight, whatever is subtracted. -/
lemma Scores.expS_zero (h : Scores n s A x) (m : XReal) {j : ℕ} (hj : j < n) (hA : j ∉ A) :
    GpuRef.expS s m j = fin 0 := by
  rw [GpuRef.expS, h.score j hj, if_neg hA, if_pos (by simp)]
  rfl

lemma Scores.sum_range (h : Scores n s A x) (f : ℕ → ℝ) :
    ∑ j ∈ Finset.range n, (if j ∈ A then f j else 0) = ∑ j ∈ A, f j := by
  rw [← Finset.sum_filter]
  refine Finset.sum_congr ?_ fun _ _ => rfl
  ext j
  simp only [Finset.mem_filter, Finset.mem_range]
  exact ⟨And.right, fun hj => ⟨h.subset j hj, hj⟩⟩

lemma Scores.sumExp (h : Scores n s A x) {M : ℝ} (hM : maxS n s = fin M) :
    GpuRef.sumExp n s = fin (∑ j ∈ A, Real.exp (x j - M)) := by
  rw [GpuRef.sumExp, sumLoop_eq, hM, ← h.sum_range, ← sum_fin]
  exact Finset.sum_congr rfl fun j hj => h.expS M (Finset.mem_range.mp hj)

lemma Scores.sumExp_zero (h : Scores n s A x) (hA : A = ∅) : GpuRef.sumExp n s = fin 0 := by
  rw [GpuRef.sumExp, sumLoop_eq]
  exact Finset.sum_eq_zero fun j hj =>
    h.expS_zero _ (Finset.mem_range.mp hj) (by simp [hA])

/-- The probability before truncation. -/
lemma Scores.prob (h : Scores n s A x) {j : ℕ} (hj : j < n) :
    GpuRef.expS s (maxS n s) j * GpuRef.invSum n s
      = fin (if j ∈ A then Attention.softmax A x j else 0) := by
  rcases A.eq_empty_or_nonempty with hA | hA
  · rw [h.expS_zero _ hj (by simp [hA]), GpuRef.invSum, h.sumExp_zero hA, zero_def, Fp.lt_irrefl,
      if_neg Bool.false_ne_true, fin_mul, mul_zero, if_neg (by simp [hA])]
  · obtain ⟨M, hM⟩ := h.exists_maxS hA
    have hpos : 0 < ∑ j ∈ A, Real.exp (x j - M) := Attention.sum_exp_pos hA fun j => x j - M
    have hlt : Fp.lt (fin 0) (fin (∑ j ∈ A, Real.exp (x j - M))) = true := by simpa using hpos
    rw [GpuRef.invSum, hM, h.expS M hj, h.sumExp hM, zero_def, if_pos hlt, recip_def, recip_fin hpos.ne', fin_mul, ← div_eq_mul_inv, ite_div, zero_div,
      Attention.softmax_shift]

/-- **The reference output row**: every weight truncated, then summed against the values. -/
theorem Scores.oAcc {β : Type*} [Zero β] (bf : Bf16 XReal β) (h : Scores n s A x) {trunc : ℝ → ℝ}
    (hT : ∀ r, bf.toFloat (bf.ofFloat (fin r)) = fin (trunc r)) {V : ℕ → ℕ → XReal}
    {v : ℕ → ℕ → ℝ} (hv : ∀ j < n, ∀ d, V j d = fin (v j d)) (d : ℕ) :
    GpuRef.oAcc bf n s V d = fin (∑ j ∈ A, trunc (Attention.softmax A x j) * v j d) := by
  have h0 : trunc 0 = 0 := truncated_zero hT
  rw [oAcc_eq, ← h.sum_range, ← sum_fin]
  refine Finset.sum_congr rfl fun j hj => ?_
  have hj' := Finset.mem_range.mp hj
  rw [pTrunc, h.prob hj', hT, hv j hj' d, fin_mul]
  split_ifs
  · rfl
  · rw [h0, zero_mul]

/-- **The reference log-sum-exp.** -/
theorem Scores.lseVal (h : Scores n s A x) : GpuRef.lseVal n s = Attention.lse A x := by
  rw [GpuRef.lseVal, Attention.lse, zero_def]
  rcases A.eq_empty_or_nonempty with hA | hA
  · rw [h.sumExp_zero hA, Fp.lt_irrefl, if_neg Bool.false_ne_true, if_pos hA, negInf_def]
  · obtain ⟨M, hM⟩ := h.exists_maxS hA
    have hpos : 0 < ∑ j ∈ A, Real.exp (x j - M) := Attention.sum_exp_pos hA fun j => x j - M
    rw [h.sumExp hM, if_pos (by simpa using hpos), if_neg hA.ne_empty, hM, logf_def, logb_fin hpos,
      fin_add, Real.logb, Real.log_exp, div_one, Attention.log_shift hA]

end FmhaNative.GpuRefExact
