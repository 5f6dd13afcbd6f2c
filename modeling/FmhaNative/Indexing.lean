import Mathlib

/-!
Linear indices: the digits of a mixed-radix number, and the rows of sequences packed one
after the other behind a table of running starts.
-/

namespace FmhaNative.Indexing

/-! ### Mixed radix -/

variable {n a a' r r' : ℤ}

lemma radix_div (a : ℤ) (hr : 0 ≤ r) (hn : r < n) : (a * n + r) / n = a := by
  rw [add_comm, Int.add_mul_ediv_right _ _ (by omega), Int.ediv_eq_zero_of_lt hr hn, zero_add]

/-- The digits of a mixed-radix number are determined. -/
lemma radix_inj (hr : 0 ≤ r) (hn : r < n) (hr' : 0 ≤ r') (hn' : r' < n)
    (h : a * n + r = a' * n + r') : a = a' ∧ r = r' := by
  have ha : a = a' := by
    rw [← radix_div a hr hn, h, radix_div a' hr' hn']
  subst ha
  exact ⟨rfl, by omega⟩

/-- A leading digit below `A` keeps the number below `A * n`. -/
lemma radix_lt {A : ℤ} (hr : 0 ≤ r) (hn : r < n) (ha : a < A) : a * n + r < A * n := by
  have h : (a + 1) * n ≤ A * n := by
    apply mul_le_mul_of_nonneg_right <;> omega
  calc a * n + r < a * n + n := by omega
    _ = (a + 1) * n := by ring
    _ ≤ A * n := h

/-! ### Packed sequences -/

/-- A table of running starts that does not decrease up to entry `B`. -/
def Packed (start : ℤ → ℤ) (B : ℤ) : Prop := ∀ b, 0 ≤ b → b < B → start b ≤ start (b + 1)

variable {start : ℤ → ℤ} {B b b' i i' : ℤ}

lemma Packed.mono (h : Packed start B) (hb : 0 ≤ b) (hbb : b ≤ b') (hB : b' ≤ B) :
    start b ≤ start b' := by
  induction b', hbb using Int.leInduction with
  | base => exact le_rfl
  | succ c hc ih => exact (ih (by omega)).trans (h c (by omega) (by omega))

lemma Packed.length_nonneg (h : Packed start B) (b : ℤ) (hb : 0 ≤ b) (hB : b < B) :
    0 ≤ start (b + 1) - start b :=
  sub_nonneg.mpr (h b hb hB)

/-- A packed row lies between the first and the last start. -/
lemma Packed.mem (h : Packed start B) (hb : 0 ≤ b) (hB : b < B) (hi : 0 ≤ i)
    (hl : i < start (b + 1) - start b) : start 0 ≤ start b + i ∧ start b + i < start B := by
  have h0 := h.mono (le_refl 0) hb hB.le
  have h1 := h.mono (by omega) (Int.add_one_le_iff.mpr hB) le_rfl
  exact ⟨by omega, by omega⟩

/-- **Packed rows are distinct**: a position belongs to one row of one sequence. -/
theorem Packed.inj (h : Packed start B) (hb : 0 ≤ b) (hB : b < B) (hi : 0 ≤ i)
    (hl : i < start (b + 1) - start b) (hb' : 0 ≤ b') (hB' : b' < B) (hi' : 0 ≤ i')
    (hl' : i' < start (b' + 1) - start b') (he : start b + i = start b' + i') :
    b = b' ∧ i = i' := by
  have hbb : b = b' := by
    rcases lt_trichotomy b b' with hlt | heq | hgt
    · have := h.mono (by omega) (Int.add_one_le_iff.mpr hlt) hB'.le
      omega
    · exact heq
    · have := h.mono (by omega) (Int.add_one_le_iff.mpr hgt) hB.le
      omega
  subst hbb
  exact ⟨rfl, by omega⟩

/-- Between the first and the last start, every position lies between two neighbours. -/
lemma exists_slot (start : ℤ → ℤ) {B : ℤ} (hB : 0 ≤ B) {x : ℤ} (h0 : start 0 ≤ x) (hx : x < start B) :
    ∃ b, 0 ≤ b ∧ b < B ∧ start b ≤ x ∧ x < start (b + 1) := by
  induction B, hB using Int.leInduction with
  | base => omega
  | succ B hB ih =>
    by_cases hlast : x < start B
    · obtain ⟨b, hb, hbB, hle, hlt⟩ := ih hlast
      exact ⟨b, hb, by omega, hle, hlt⟩
    · exact ⟨B, hB, by omega, by omega, hx⟩

/-- An entry of a table of lengths, or the default past its end. -/
lemma getD_mem (l : List ℤ) (k : ℕ) : l.getD k 0 ∈ l ∨ l.getD k 0 = 0 := by
  rcases lt_or_ge k l.length with hk | hk
  · rw [List.getD_eq_getElem _ _ hk]
    exact Or.inl (List.getElem_mem hk)
  · exact Or.inr (List.getD_eq_default _ _ hk)

/-! ### Segments -/

/-- Two segments that meet have a common point: the later of their first points. -/
lemma exists_common {a b m n : ℤ} (hm : 0 < m) (hn : 0 < n) (hab : b < a + m) (hba : a < b + n) :
    ∃ i j, 0 ≤ i ∧ i < m ∧ 0 ≤ j ∧ j < n ∧ a + i = b + j := by
  rcases le_total a b with hle | hle
  · exact ⟨b - a, 0, by omega, by omega, le_rfl, hn, by omega⟩
  · exact ⟨0, a - b, le_rfl, hm, by omega, by omega, by omega⟩

end FmhaNative.Indexing
