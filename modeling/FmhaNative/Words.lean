import Mathlib

/-!
Machine words: what a `w`-bit register holds of an integer, and when it holds the integer.
-/

namespace FmhaNative.Words

variable {w : ℕ}

/-- Read unsigned, a word holds the integer modulo `2 ^ w`. -/
lemma toNat_intCast (x : ℤ) : (((x : BitVec w).toNat : ℕ) : ℤ) = x % 2 ^ w := by
  have h : (x : BitVec w) = BitVec.ofInt w x := rfl
  have hpos : (0 : ℤ) < 2 ^ w := by positivity
  rw [h, BitVec.toNat_ofInt]
  push_cast
  exact Int.toNat_of_nonneg (Int.emod_nonneg _ hpos.ne')

/-! ### Wrapped integers -/

/-- What a `w`-bit unsigned integer holds of `x`. -/
def unsigned (w : ℕ) (x : ℤ) : ℤ := x % 2 ^ w

/-- What a `w`-bit two's complement integer holds of `x`. -/
def signed (w : ℕ) (x : ℤ) : ℤ := (x + 2 ^ (w - 1)) % 2 ^ w - 2 ^ (w - 1)

lemma unsigned_nonneg (w : ℕ) (x : ℤ) : 0 ≤ unsigned w x :=
  Int.emod_nonneg _ (by positivity)

lemma unsigned_lt (w : ℕ) (x : ℤ) : unsigned w x < 2 ^ w :=
  Int.emod_lt_of_pos _ (by positivity)

lemma unsigned_eq {w : ℕ} {x : ℤ} (h0 : 0 ≤ x) (h : x < 2 ^ w) : unsigned w x = x :=
  Int.emod_eq_of_lt h0 h

lemma unsigned_add (w : ℕ) (x y : ℤ) : unsigned w (unsigned w x + y) = unsigned w (x + y) :=
  Int.emod_add_emod x _ y

lemma unsigned_mul (w : ℕ) (x y : ℤ) : unsigned w (x * unsigned w y) = unsigned w (x * y) := by
  unfold unsigned
  rw [Int.mul_emod, Int.emod_emod, ← Int.mul_emod]

/-- A two's complement integer is off by a multiple of `2 ^ w`. -/
lemma signed_eq_sub (w : ℕ) (x : ℤ) : signed w x = x - 2 ^ w * ((x + 2 ^ (w - 1)) / 2 ^ w) := by
  unfold signed
  have := Int.emod_add_mul_ediv (x + 2 ^ (w - 1)) (2 ^ w)
  linarith

lemma signed_sub_mul (w : ℕ) (x k : ℤ) : signed w (x - 2 ^ w * k) = signed w x := by
  unfold signed
  rw [show x - 2 ^ w * k + 2 ^ (w - 1) = x + 2 ^ (w - 1) + 2 ^ w * -k by ring,
    Int.add_mul_emod_self_left]

lemma signed_mul (w : ℕ) (x y : ℤ) : signed w (signed w x * y) = signed w (x * y) := by
  rw [signed_eq_sub w x, sub_mul, mul_assoc, signed_sub_mul]

lemma signed_unsigned (w : ℕ) (x : ℤ) : signed w (unsigned w x) = signed w x := by
  rw [unsigned, Int.emod_def, signed_sub_mul]

lemma unsigned_signed (w : ℕ) (x : ℤ) : unsigned w (signed w x) = unsigned w x := by
  rw [signed_eq_sub, unsigned, Int.sub_mul_emod_self_left]
  rfl

lemma signed_mem {w : ℕ} (hw : 0 < w) (x : ℤ) : -2 ^ (w - 1) ≤ signed w x ∧ signed w x < 2 ^ (w - 1) := by
  have h2 : (2 : ℤ) ^ w = 2 * 2 ^ (w - 1) := by
    rw [← pow_succ', Nat.sub_add_cancel hw]
  have h0 := Int.emod_nonneg (x + 2 ^ (w - 1)) (by positivity : (2 : ℤ) ^ w ≠ 0)
  have h1 := Int.emod_lt_of_pos (x + 2 ^ (w - 1)) (by positivity : (0 : ℤ) < 2 ^ w)
  unfold signed
  constructor <;> linarith

/-- A two's complement integer holds exactly the integers of its range. -/
lemma signed_eq_iff {w : ℕ} (hw : 0 < w) {x : ℤ} :
    signed w x = x ↔ -2 ^ (w - 1) ≤ x ∧ x < 2 ^ (w - 1) := by
  have h2 : (2 : ℤ) ^ w = 2 * 2 ^ (w - 1) := by
    rw [← pow_succ', Nat.sub_add_cancel hw]
  constructor
  · intro h
    rw [← h]
    exact signed_mem hw x
  · rintro ⟨h0, h1⟩
    unfold signed
    rw [Int.emod_eq_of_lt (by linarith) (by linarith)]
    ring

end FmhaNative.Words
