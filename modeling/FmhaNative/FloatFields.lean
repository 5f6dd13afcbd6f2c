import Mathlib

/-!
The fields of a binary floating-point word: an exponent above `w` bits of fraction, read as one
number, and the magnitude that they stand for.

Magnitudes are counted in units of the least subnormal. The next word is the next magnitude, so a
word with fewer fraction bits is compared through its fields alone.
-/

namespace FmhaNative.FloatFields

variable {w n m m' : ℕ}

/-- The magnitude of the fields `m`, with `w` bits of fraction. -/
def magnitude (w m : ℕ) : ℕ :=
  if m / 2 ^ w = 0 then m % 2 ^ w else (2 ^ w + m % 2 ^ w) * 2 ^ (m / 2 ^ w - 1)

lemma magnitude_add {e f : ℕ} (hf : f < 2 ^ w) :
    magnitude w (e * 2 ^ w + f) = if e = 0 then f else (2 ^ w + f) * 2 ^ (e - 1) := by
  have hdiv : (e * 2 ^ w + f) / 2 ^ w = e := by
    rw [add_comm, Nat.add_mul_div_right _ _ (Nat.two_pow_pos w), Nat.div_eq_of_lt hf, zero_add]
  rw [magnitude, hdiv, Nat.mul_add_mod_of_lt hf]

/-- The next word is one unit in the last place away. -/
lemma magnitude_succ (w m : ℕ) : magnitude w (m + 1) = magnitude w m + 2 ^ (m / 2 ^ w - 1) := by
  have hpow : 0 < 2 ^ w := Nat.two_pow_pos w
  have hm := Nat.div_add_mod' m (2 ^ w)
  have hf := Nat.mod_lt m hpow
  generalize m / 2 ^ w = e at hm
  generalize m % 2 ^ w = f at hm hf
  obtain rfl := hm
  rw [magnitude_add hf]
  rcases lt_or_eq_of_le (Nat.succ_le_of_lt hf) with hnext | hcarry
  · -- the exponent stays
    rw [add_assoc, magnitude_add hnext]
    cases e with
    | zero => simp
    | succ e =>
      simp only [Nat.succ_ne_zero, if_false, Nat.add_sub_cancel, Nat.succ_eq_add_one]
      ring
  · -- the fraction was full
    have hup : e * 2 ^ w + f + 1 = (e + 1) * 2 ^ w + 0 := by
      rw [add_assoc, ← Nat.succ_eq_add_one f, hcarry]
      ring
    rw [hup, magnitude_add hpow, if_neg (Nat.succ_ne_zero e), Nat.add_sub_cancel, add_zero, ← hcarry]
    cases e with
    | zero => simp
    | succ e =>
      simp only [Nat.succ_ne_zero, if_false, Nat.add_sub_cancel, Nat.succ_eq_add_one]
      ring

lemma magnitude_strictMono (w : ℕ) : StrictMono (magnitude w) := by
  apply strictMono_nat_of_lt_succ
  intro m
  rw [magnitude_succ]
  exact Nat.lt_add_of_pos_right (Nat.two_pow_pos _)

/-- A word that is extended with zeros stands for the same magnitude, in smaller units. -/
lemma magnitude_mul_pow (w n m : ℕ) : magnitude (w + n) (m * 2 ^ n) = magnitude w m * 2 ^ n := by
  have hdiv : m * 2 ^ n / 2 ^ (w + n) = m / 2 ^ w := by
    rw [pow_add, Nat.mul_div_mul_right _ _ (Nat.two_pow_pos n)]
  have hmod : m * 2 ^ n % 2 ^ (w + n) = m % 2 ^ w * 2 ^ n := by
    rw [pow_add, Nat.mul_mod_mul_right]
  simp only [magnitude, hdiv, hmod]
  split_ifs
  · rfl
  · ring

/-! ### Dropping bits of the fraction -/

/-- What is left is no larger, -/
lemma magnitude_div_le (w n m : ℕ) : magnitude w (m / 2 ^ n) * 2 ^ n ≤ magnitude (w + n) m := by
  rw [← magnitude_mul_pow]
  exact (magnitude_strictMono _).monotone (Nat.div_mul_le_self m (2 ^ n))

/-- less than one of its units away, -/
lemma magnitude_lt_div (w n m : ℕ) :
    magnitude (w + n) m < (magnitude w (m / 2 ^ n) + 2 ^ (m / 2 ^ (w + n) - 1)) * 2 ^ n := by
  have hlt : m < (m / 2 ^ n + 1) * 2 ^ n := Nat.lt_mul_of_div_lt (Nat.lt_succ_self _) (Nat.two_pow_pos n)
  have hexp : m / 2 ^ n / 2 ^ w = m / 2 ^ (w + n) := by
    rw [Nat.div_div_eq_div_mul, ← pow_add, add_comm n]
  have h := magnitude_strictMono (w + n) hlt
  rwa [magnitude_mul_pow, magnitude_succ, hexp] at h

/-- and the largest of the shorter words that are no larger. -/
lemma magnitude_le_iff : magnitude w m' * 2 ^ n ≤ magnitude (w + n) m ↔ m' ≤ m / 2 ^ n := by
  rw [← magnitude_mul_pow, (magnitude_strictMono _).le_iff_le, Nat.le_div_iff_mul_le (Nat.two_pow_pos n)]

/-- A normal number has a leading bit. -/
lemma pow_le_magnitude (h : m / 2 ^ w ≠ 0) : 2 ^ w * 2 ^ (m / 2 ^ w - 1) ≤ magnitude w m := by
  rw [magnitude, if_neg h]
  exact Nat.mul_le_mul_right _ (Nat.le_add_right _ _)

/-- The part of a normal number that is lost. -/
lemma magnitude_lost (h : m / 2 ^ (w + n) ≠ 0) :
    2 ^ w * magnitude (w + n) m ≤ 2 ^ w * (magnitude w (m / 2 ^ n) * 2 ^ n) + magnitude (w + n) m := by
  have hlt := magnitude_lt_div w n m
  have hle := pow_le_magnitude h
  calc 2 ^ w * magnitude (w + n) m
      ≤ 2 ^ w * ((magnitude w (m / 2 ^ n) + 2 ^ (m / 2 ^ (w + n) - 1)) * 2 ^ n) :=
        Nat.mul_le_mul_left _ hlt.le
    _ = 2 ^ w * (magnitude w (m / 2 ^ n) * 2 ^ n) + 2 ^ (w + n) * 2 ^ (m / 2 ^ (w + n) - 1) := by ring
    _ ≤ 2 ^ w * (magnitude w (m / 2 ^ n) * 2 ^ n) + magnitude (w + n) m := Nat.add_le_add_left hle _

end FmhaNative.FloatFields
