import Mathlib

/-!
Sums with a moving reference.

A stream of tiles is summed relative to a reference that changes from tile to tile: what has
been summed is rescaled by the exponential of the change. The result, brought back to a fixed
reference, is the plain sum, whatever the references were. Relative to the running maximum of
the stream the sum is at least one.
-/

namespace FmhaNative.OnlineSoftmax

variable {G F : Type*} [AddCommGroup G] [Field F]

/-- An exponential: it turns sums into products and is never zero. -/
structure IsExp (e : G → F) : Prop where
  add : ∀ x y, e (x + y) = e x * e y
  ne_zero : ∀ x, e x ≠ 0

/-- The accumulator after `k` tiles: `m k` is the reference then, `b k` what tile `k` adds. -/
def run (e : G → F) (m : ℕ → G) (b : ℕ → F) : ℕ → F
  | 0 => 0
  | k + 1 => e (m k - m (k + 1)) * run e m b k + b k

variable {e : G → F} {m : ℕ → G} {b : ℕ → F}

/-- **Rescaling is exact**: at a fixed reference the accumulator is the sum of the tiles. -/
theorem run_eq (he : IsExp e) (n : ℕ) :
    e (m n) * run e m b n = ∑ k ∈ Finset.range n, e (m (k + 1)) * b k := by
  induction n with
  | zero => simp [run]
  | succ n ih =>
    have hm : e (m (n + 1)) * e (m n - m (n + 1)) = e (m n) := by
      rw [← he.add, add_sub_cancel]
    rw [Finset.sum_range_succ, ← ih, run, mul_add, ← mul_assoc, hm]

/-- The keys of `n` tiles of width `w`, tile by tile. -/
lemma sum_tiles (w n : ℕ) (f : ℕ → F) :
    ∑ k ∈ Finset.range n, ∑ j ∈ Finset.range w, f (w * k + j) = ∑ j ∈ Finset.range (w * n), f j := by
  induction n with
  | zero => simp
  | succ n ih => rw [Finset.sum_range_succ, ih, Nat.mul_succ, Finset.sum_range_add]

/-- Tiles of contributions, each brought to the fixed reference from that of its tile. -/
theorem run_keys (he : IsExp e) {w : ℕ} (hw : 0 < w) {c : ℕ → F}
    (hb : ∀ k, b k = ∑ j ∈ Finset.range w, c (w * k + j)) (n : ℕ) :
    e (m n) * run e m b n = ∑ j ∈ Finset.range (w * n), e (m (j / w + 1)) * c j := by
  rw [run_eq he n, ← sum_tiles w n]
  refine Finset.sum_congr rfl fun k _ => ?_
  rw [hb, Finset.mul_sum]
  refine Finset.sum_congr rfl fun j hj => ?_
  rw [Nat.mul_add_div hw, Nat.div_eq_of_lt (Finset.mem_range.mp hj), add_zero]

/-- Tiles of weights relative to the tile's own reference sum to the absolute weights. -/
theorem run_tiles (he : IsExp e) {w : ℕ} {s : ℕ → G} {u : ℕ → F}
    (hb : ∀ k, b k = ∑ j ∈ Finset.range w, e (s (w * k + j) - m (k + 1)) * u (w * k + j)) (n : ℕ) :
    e (m n) * run e m b n = ∑ j ∈ Finset.range (w * n), e (s j) * u j := by
  rw [run_eq he, ← sum_tiles w n fun j => e (s j) * u j]
  refine Finset.sum_congr rfl fun k _ => ?_
  rw [hb, Finset.mul_sum]
  refine Finset.sum_congr rfl fun j _ => ?_
  rw [← mul_assoc, ← he.add, add_sub_cancel]

/-- A quotient of two accumulators does not depend on the references. -/
theorem run_div {b' : ℕ → F} {x y : F} (he : IsExp e) {n : ℕ} (hx : e (m n) * run e m b n = x)
    (hy : e (m n) * run e m b' n = y) : run e m b n / run e m b' n = x / y := by
  rw [← hx, ← hy, mul_div_mul_left _ _ (he.ne_zero _)]

/-! ### Perturbed weights -/

section Perturbed

variable {ι : Type*} [LinearOrder F] [IsStrictOrderedRing F] {ε : F} {A : Finset ι} {p q q' v : ι → F}

/-- The weights `q` are the weights `p` with at most the part `ε` of each lost. -/
def Loses (ε : F) (A : Finset ι) (p q : ι → F) : Prop := ∀ j ∈ A, (1 - ε) * p j ≤ q j ∧ q j ≤ p j

lemma Loses.refl (hε : 0 ≤ ε) (hp : ∀ j ∈ A, 0 ≤ p j) : Loses ε A p p := by
  intro j hj
  have h := mul_nonneg hε (hp j hj)
  rw [sub_mul, one_mul]
  exact ⟨sub_le_self _ h, le_rfl⟩

lemma Loses.div_const (h : Loses ε A p q) {z : F} (hz : 0 ≤ z) :
    Loses ε A (fun j => p j / z) fun j => q j / z := by
  intro j hj
  obtain ⟨h1, h2⟩ := h j hj
  rw [← mul_div_assoc]
  exact ⟨div_le_div_of_nonneg_right h1 hz, div_le_div_of_nonneg_right h2 hz⟩

/-- **One loss, not two**: two sums over perturbed weights differ by at most one loss. -/
theorem Loses.abs_sub_le (h : Loses ε A p q) (h' : Loses ε A p q') :
    |∑ j ∈ A, q j * v j - ∑ j ∈ A, q' j * v j| ≤ ε * ∑ j ∈ A, p j * |v j| := by
  have hterm : ∀ j ∈ A, |q j * v j - q' j * v j| ≤ ε * (p j * |v j|) := by
    intro j hj
    obtain ⟨hl, hu⟩ := h j hj
    obtain ⟨hl', hu'⟩ := h' j hj
    have hd : |q j - q' j| ≤ ε * p j := by
      rw [abs_le]
      constructor <;> linarith
    rw [← sub_mul, abs_mul, ← mul_assoc]
    exact mul_le_mul_of_nonneg_right hd (abs_nonneg _)
  calc |∑ j ∈ A, q j * v j - ∑ j ∈ A, q' j * v j|
      = |∑ j ∈ A, (q j * v j - q' j * v j)| := by rw [Finset.sum_sub_distrib]
    _ ≤ ∑ j ∈ A, |q j * v j - q' j * v j| := Finset.abs_sum_le_sum_abs _ _
    _ ≤ ∑ j ∈ A, ε * (p j * |v j|) := Finset.sum_le_sum hterm
    _ = ε * ∑ j ∈ A, p j * |v j| := (Finset.mul_sum ..).symm

end Perturbed

/-! ### Weights relative to a running maximum -/

section SeededMax

variable {ι : Type*} [LinearOrder G] {seed M M' : G} {A B : Finset ι} {x : ι → G}

/-- `M` is the largest of a seed and the entries of `A`. -/
structure IsSeededMax (seed : G) (A : Finset ι) (x : ι → G) (M : G) : Prop where
  seed_le : seed ≤ M
  le : ∀ j ∈ A, x j ≤ M
  attained : M = seed ∨ ∃ j ∈ A, x j = M

omit [AddCommGroup G] in
lemma IsSeededMax.nil (seed : G) (x : ι → G) : IsSeededMax seed ∅ x seed :=
  ⟨le_rfl, fun _ hj => absurd hj (Finset.notMem_empty _), Or.inl rfl⟩

omit [AddCommGroup G] in
lemma IsSeededMax.eq_max (h : IsSeededMax seed A x M) (hA : A.Nonempty) :
    M = max seed (A.sup' hA x) := by
  apply le_antisymm
  · rcases h.attained with hs | ⟨j, hj, rfl⟩
    · exact hs.le.trans (le_max_left _ _)
    · exact (Finset.le_sup' x hj).trans (le_max_right _ _)
  · exact max_le h.seed_le (Finset.sup'_le hA x h.le)

omit [AddCommGroup G] in
/-- More entries, starting from the maximum of the ones before. -/
lemma IsSeededMax.union [DecidableEq ι] (h : IsSeededMax seed A x M) (h' : IsSeededMax M B x M') :
    IsSeededMax seed (A ∪ B) x M' := by
  refine ⟨h.seed_le.trans h'.seed_le, fun j hj => ?_, ?_⟩
  · rcases Finset.mem_union.mp hj with hj | hj
    · exact (h.le j hj).trans h'.seed_le
    · exact h'.le j hj
  · rcases h'.attained with rfl | ⟨j, hj, hx⟩
    · refine h.attained.imp_right ?_
      rintro ⟨j, hj, hx⟩
      exact ⟨j, Finset.mem_union_left B hj, hx⟩
    · exact Or.inr ⟨j, Finset.mem_union_right A hj, hx⟩

omit [AddCommGroup G] in
/-- More entries do not lower the maximum. -/
lemma IsSeededMax.mono (h : IsSeededMax seed A x M) (h' : IsSeededMax seed B x M') (hAB : A ⊆ B) :
    M ≤ M' := by
  rcases h.attained with rfl | ⟨j, hj, rfl⟩
  · exact h'.seed_le
  · exact h'.le j (hAB hj)

variable [LinearOrder F] [IsStrictOrderedRing F] {l : F}

/-- A sum of weights relative to `M` that has counted the entries of `A`: an entry at `M` has
left a one in it. -/
structure SumAtMax (A : Finset ι) (x : ι → G) (M : G) (l : F) : Prop where
  nonneg : 0 ≤ l
  one_le : ∀ j ∈ A, x j = M → 1 ≤ l

/-- The sum brought to a new maximum, with the weights of more entries. -/
lemma SumAtMax.step [DecidableEq ι] (he : ∀ y, 0 ≤ e y) (he0 : e 0 = 1)
    (hA : ∀ j ∈ A, x j ≤ M) (hM : M ≤ M') (h : SumAtMax A x M l) :
    SumAtMax (A ∪ B) x M' (e (M - M') * l + ∑ j ∈ B, e (x j - M')) := by
  have hs : 0 ≤ ∑ j ∈ B, e (x j - M') := Finset.sum_nonneg fun j _ => he _
  have hl : 0 ≤ e (M - M') * l := mul_nonneg (he _) h.nonneg
  refine ⟨add_nonneg hl hs, fun j hj hx => ?_⟩
  rcases Finset.mem_union.mp hj with hj | hj
  · -- an old entry at the new maximum: the maximum has not moved
    have hMM : M = M' := le_antisymm hM (hx ▸ hA j hj)
    have h1 := h.one_le j hj (hx.trans hMM.symm)
    rw [hMM, sub_self, he0, one_mul]
    exact h1.trans (le_add_of_nonneg_right hs)
  · have h1 : e (x j - M') ≤ ∑ j ∈ B, e (x j - M') :=
      Finset.single_le_sum (f := fun j => e (x j - M')) (fun j _ => he _) hj
    rw [hx, sub_self, he0] at h1
    exact h1.trans (le_add_of_nonneg_left hl)

end SeededMax

/-! ### Bounded accumulators -/

section Bounded

variable {ι : Type*} [LinearOrder F] {A B B' : Finset ι} {v p q : ι → F} {l o r : F}

/-- The largest absolute value; `0` when there is none. -/
def maxAbs (A : Finset ι) (v : ι → F) : F := A.fold max 0 fun j => |v j|

lemma maxAbs_nonneg (A : Finset ι) (v : ι → F) : 0 ≤ maxAbs A v :=
  (Finset.le_fold_max _).mpr (Or.inl le_rfl)

lemma le_maxAbs {j : ι} (hj : j ∈ A) : |v j| ≤ maxAbs A v :=
  (Finset.le_fold_max _).mpr (Or.inr ⟨j, hj, le_rfl⟩)

lemma maxAbs_mono (h : A ⊆ B) : maxAbs A v ≤ maxAbs B v :=
  (Finset.fold_max_le _).mpr ⟨maxAbs_nonneg B v, fun _ hj => le_maxAbs (h hj)⟩

variable [IsStrictOrderedRing F]

/-- A denominator and a numerator that have counted the entries of `A`, none with a weight above
one. -/
structure Bounded (A : Finset ι) (v : ι → F) (l o : F) : Prop where
  nonneg : 0 ≤ l
  le_card : l ≤ A.card
  abs_le : |o| ≤ l * maxAbs A v

lemma Bounded.nil (v : ι → F) : Bounded ∅ v 0 0 :=
  ⟨le_rfl, by simp, by simp⟩

lemma Bounded.scale (h : Bounded A v l o) (hr : 0 ≤ r) (hr1 : r ≤ 1) : Bounded A v l (o * r) := by
  refine ⟨h.nonneg, h.le_card, ?_⟩
  rw [abs_mul, abs_of_nonneg hr]
  exact (mul_le_of_le_one_right (abs_nonneg o) hr1).trans h.abs_le

/-- Weights `q` that do not exceed the weights `p` of the denominator. -/
lemma abs_sum_le (hB : B' ⊆ B) (hq : ∀ j ∈ B, 0 ≤ q j) (hqp : ∀ j ∈ B, q j ≤ p j) :
    |∑ j ∈ B', v j * q j| ≤ (∑ j ∈ B, p j) * maxAbs B v := by
  have hterm : ∀ j ∈ B, |v j * q j| ≤ p j * maxAbs B v := by
    intro j hj
    rw [abs_mul, abs_of_nonneg (hq j hj), mul_comm]
    exact mul_le_mul (hqp j hj) (le_maxAbs hj) (abs_nonneg _) ((hq j hj).trans (hqp j hj))
  calc |∑ j ∈ B', v j * q j| ≤ ∑ j ∈ B', |v j * q j| := Finset.abs_sum_le_sum_abs _ _
    _ ≤ ∑ j ∈ B, |v j * q j| :=
      Finset.sum_le_sum_of_subset_of_nonneg hB fun _ _ _ => abs_nonneg _
    _ ≤ ∑ j ∈ B, p j * maxAbs B v := Finset.sum_le_sum hterm
    _ = (∑ j ∈ B, p j) * maxAbs B v := (Finset.sum_mul ..).symm

/-- **One rescaled step**: the accumulators stay bounded while the numerator takes in any part
`B'` of the entries `B` that the denominator has counted. -/
theorem Bounded.step [DecidableEq ι] (h : Bounded A v l o) (hr : 0 ≤ r) (hr1 : r ≤ 1)
    (hAB : Disjoint A B) (hB : B' ⊆ B) (hp : ∀ j ∈ B, p j ≤ 1) (hq : ∀ j ∈ B, 0 ≤ q j)
    (hqp : ∀ j ∈ B, q j ≤ p j) :
    Bounded (A ∪ B) v (r * l + ∑ j ∈ B, p j) (o * r + ∑ j ∈ B', v j * q j) := by
  have hsum : 0 ≤ ∑ j ∈ B, p j := Finset.sum_nonneg fun j hj => (hq j hj).trans (hqp j hj)
  have hl : 0 ≤ r * l := mul_nonneg hr h.nonneg
  refine ⟨add_nonneg hl hsum, ?_, ?_⟩
  · have hold : r * l ≤ A.card := (mul_le_of_le_one_left h.nonneg hr1).trans h.le_card
    have hnew : ∑ j ∈ B, p j ≤ B.card := by
      simpa using Finset.sum_le_card_nsmul B p 1 hp
    rw [Finset.card_union_of_disjoint hAB, Nat.cast_add]
    exact add_le_add hold hnew
  · have hold : |o * r| ≤ r * l * maxAbs (A ∪ B) v := by
      rw [abs_mul, abs_of_nonneg hr, mul_comm, mul_assoc]
      refine mul_le_mul_of_nonneg_left (h.abs_le.trans ?_) hr
      exact mul_le_mul_of_nonneg_left (maxAbs_mono Finset.subset_union_left) h.nonneg
    have hnew : |∑ j ∈ B', v j * q j| ≤ (∑ j ∈ B, p j) * maxAbs (A ∪ B) v :=
      (abs_sum_le hB hq hqp).trans
        (mul_le_mul_of_nonneg_left (maxAbs_mono Finset.subset_union_right) hsum)
    rw [add_mul]
    exact (abs_add_le _ _).trans (add_le_add hold hnew)

end Bounded

end FmhaNative.OnlineSoftmax
