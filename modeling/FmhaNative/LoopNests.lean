import FmhaNative.Words

/-!
Loop nests over an array that is addressed through a word: when every index stays below the
length of the array, wrapped indices included.
-/

namespace FmhaNative.LoopNests

open Words

variable {w : ℕ} {a t K n R : ℤ}

/-- A progression that gets past `R` by steps of at most `W - R` has a term between `R` and `W`. -/
lemma exists_term_between {W : ℤ} (ha : a < W) (ht : R + t ≤ W) (hK : 1 ≤ K) (hR : R ≤ a + (K - 1) * t) :
    ∃ k, 0 ≤ k ∧ k < K ∧ R ≤ a + k * t ∧ a + k * t < W := by
  induction K, hK using Int.leInduction with
  | base => exact ⟨0, le_rfl, zero_lt_one, by simpa using hR, by simpa using ha⟩
  | succ K hK ih =>
    have hstep : (K + 1 - 1) * t = (K - 1) * t + t := by ring
    rcases le_or_gt R (a + (K - 1) * t) with hle | hlt
    · obtain ⟨k, hk, hkK, hkR, hkW⟩ := ih hle
      exact ⟨k, hk, by omega, hkR, hkW⟩
    · have hKt : K * t = (K - 1) * t + t := by ring
      exact ⟨K, by omega, by omega, by omega, by omega⟩

/-- **Strided blocks**: `K` blocks of `n` indices, `t` apart, stay below `R` exactly when the
last block does; an index can only wrap after one that is past `R`. -/
theorem blocks_lt_iff (ha0 : 0 ≤ a) (ha : a < 2 ^ w) (ht : 0 ≤ t) (hK : 0 < K) (hn : 0 < n)
    (htR : R + t ≤ 2 ^ w) (hnR : R + n ≤ 2 ^ w) :
    (∀ k, 0 ≤ k → k < K → ∀ i, 0 ≤ i → i < n → unsigned w (a + k * t + i) < R) ↔
      a + (K - 1) * t + n ≤ R := by
  constructor
  · intro h
    have h0 : a < R := by
      have := h 0 le_rfl hK 0 le_rfl hn
      rwa [zero_mul, add_zero, add_zero, unsigned_eq ha0 ha] at this
    by_contra hc
    obtain ⟨k, hk, hkK, hkR, hkW⟩ := exists_term_between (a := a + (n - 1)) (t := t) (K := K)
      (by omega) htR (by omega) (by omega)
    have hlast := h k hk hkK (n - 1) (by omega) (by omega)
    have hkt : 0 ≤ k * t := mul_nonneg hk ht
    rw [unsigned_eq (by omega) (by omega)] at hlast
    omega
  · intro h k hk hkK i hi hin
    have hkt : k * t ≤ (K - 1) * t := mul_le_mul_of_nonneg_right (by omega) ht
    have hkt0 : 0 ≤ k * t := mul_nonneg hk ht
    rw [unsigned_eq (by omega) (by omega)]
    omega

/-! ### Row-major arrays -/

variable {T y D : ℤ}

/-- **The rows of heads**: row `y` of each of `K` heads of `T` rows of `D` columns, of which the
first `n` are used. -/
theorem rows_lt_iff (hK : 0 < K) (hT : 0 ≤ T) (hn : 0 < n) (hnD : n ≤ D) (hy : 0 ≤ y)
    (hyD : y * D < 2 ^ w) (hTR : R + T * D ≤ 2 ^ w) (hnR : R + n ≤ 2 ^ w) :
    (∀ k, 0 ≤ k → k < K → ∀ d, 0 ≤ d → d < n → unsigned w ((k * T + y) * D + d) < R) ↔
      ((K - 1) * T + y) * D + n ≤ R := by
  have hD : 0 ≤ D := by omega
  have hform : ∀ k, (k * T + y) * D = y * D + k * (T * D) := fun k => by ring
  simp only [hform]
  exact blocks_lt_iff (mul_nonneg hy hD) hyD (mul_nonneg hT hD) hK hn hTR hnR

/-- In an array of `K` heads of `T` rows, whole rows fit exactly when they are rows of a head
and the size does not wrap. -/
theorem row_fits_iff (hK : 0 < K) (hT : 0 ≤ T) (hD : 0 < D) (hy : 0 ≤ y)
    (hR : unsigned w (K * T * D) + T * D ≤ 2 ^ w) :
    ((K - 1) * T + y) * D + D ≤ unsigned w (K * T * D) ↔ y < T ∧ K * T * D < 2 ^ w := by
  have hsize : 0 ≤ K * T * D := mul_nonneg (mul_nonneg hK.le hT) hD.le
  have hform : ((K - 1) * T + y) * D + D = K * T * D + (y + 1 - T) * D := by ring
  rw [hform]
  constructor
  · intro h
    have hle : unsigned w (K * T * D) ≤ K * T * D := by
      rcases lt_or_ge (K * T * D) (2 ^ w) with hlt | hge
      · exact (unsigned_eq hsize hlt).le
      · exact (unsigned_lt w _).le.trans hge
    have hyT : y < T := by
      have : (y + 1 - T) * D ≤ 0 := by omega
      have := nonpos_of_mul_nonpos_left this hD
      omega
    refine ⟨hyT, ?_⟩
    have hrow : 0 < (y + 1) * D := mul_pos (by omega) hD
    have : (y + 1 - T) * D = (y + 1) * D - T * D := by ring
    omega
  · rintro ⟨hyT, hlt⟩
    have : (y + 1 - T) * D ≤ 0 := mul_nonpos_of_nonpos_of_nonneg (by omega) hD.le
    rw [unsigned_eq hsize hlt]
    omega

/-- Two nested loops run through the numbers below the product. -/
lemma forall_digits {A B : ℤ} (hB : 0 < B) (P : ℤ → Prop) :
    (∀ x, 0 ≤ x → x < A → ∀ y, 0 ≤ y → y < B → P (x * B + y)) ↔ ∀ k, 0 ≤ k → k < A * B → P k := by
  constructor
  · intro h k hk hkAB
    have := h (k / B) (Int.ediv_nonneg hk hB.le) (Int.ediv_lt_of_lt_mul hB hkAB) (k % B)
      (Int.emod_nonneg k hB.ne') (Int.emod_lt_of_pos k hB)
    rwa [Int.ediv_mul_add_emod] at this
  · intro h x hx hxA y hy hyB
    have hxB : (x + 1) * B ≤ A * B := mul_le_mul_of_nonneg_right (by omega) hB.le
    have hx1 : (x + 1) * B = x * B + B := by ring
    exact h _ (by positivity) (by omega)

end FmhaNative.LoopNests
