import FmhaNative.ExactFloat

/-!
The number types of the kernel and of its oracles.

`Fp α` is `float` arithmetic as the sources use it, over any carrier: sums may be regrouped
and the maximum is a semilattice, so the carrier computes without rounding. `Bf16 α β` is the
storage format with its two conversions.
-/

namespace FmhaNative

/-- The `float` operations of the sources. -/
class Fp (α : Type*) extends AddCommMonoid α, CommMagma α, Neg α where
  /-- `-INFINITY` -/
  negInf : α
  /-- an integer literal such as `-5000.0f` -/
  lit : ℤ → α
  /-- `0.6931471805599453f` -/
  ln2 : α
  /-- `1.4426950408889634f` -/
  log2e : α
  /-- `1.0f / x` -/
  recip : α → α
  fmaxf : α → α → α
  exp2f : α → α
  log2f : α → α
  expf : α → α
  logf : α → α
  sqrtf : α → α
  lt : α → α → Bool
  eq : α → α → Bool
  fmaxf_comm : ∀ x y, fmaxf x y = fmaxf y x
  fmaxf_assoc : ∀ x y z, fmaxf (fmaxf x y) z = fmaxf x (fmaxf y z)
  fmaxf_self : ∀ x, fmaxf x x = x
  lt_irrefl : ∀ x, lt x x = false

namespace Fp

variable {α : Type*} [Fp α]

/-- `x - y` -/
def sub (x y : α) : α := x + -y

/-- `fmaf(a, b, c)` -/
def fmaf (a b c : α) : α := a * b + c

instance : Std.Commutative (fmaxf : α → α → α) := ⟨fmaxf_comm⟩
instance : Std.Associative (fmaxf : α → α → α) := ⟨fmaxf_assoc⟩
instance : Std.IdempotentOp (fmaxf : α → α → α) := ⟨fmaxf_self⟩

end Fp

/-- The two conversions of a storage format. -/
structure Bf16Conv (α β : Type*) where
  /-- `bf16_to_float` -/
  toFloat : β → α
  /-- `float_to_bf16`: truncation -/
  ofFloat : α → β

/-- bf16 values `β` inside `float` values `α`. -/
structure Bf16 (α β : Type*) [Zero α] [Zero β] extends Bf16Conv α β where
  toFloat_zero : toFloat 0 = 0
  ofFloat_zero : ofFloat 0 = 0

instance {α β : Type*} [Zero α] [Zero β] : Coe (Bf16 α β) (Bf16Conv α β) := ⟨Bf16.toBf16Conv⟩

namespace XReal

open Classical in
/-- Exact arithmetic with special values, under which the two decimal constants stand for
the numbers they round. -/
noncomputable instance : Fp XReal where
  negInf := inf true
  lit n := fin n
  ln2 := fin (Real.log 2)
  log2e := fin (Real.logb 2 (Real.exp 1))
  recip := recip
  fmaxf := fmax
  exp2f := exp2
  log2f := logb 2
  expf := exp
  logf := logb (Real.exp 1)
  sqrtf := sqrt
  lt x y := decide (lt x y)
  eq x y := decide (x = y ∧ x ≠ nan)
  fmaxf_comm := fmax_comm
  fmaxf_assoc := fmax_assoc
  fmaxf_self := fmax_self
  lt_irrefl x := decide_eq_false (by rcases x with _ | (_ | _) | a <;> simp [lt])

@[simp] lemma negInf_def : (Fp.negInf : XReal) = inf true := rfl
@[simp] lemma lit_def (n : ℤ) : (Fp.lit n : XReal) = fin n := rfl
@[simp] lemma ln2_def : (Fp.ln2 : XReal) = fin (Real.log 2) := rfl
@[simp] lemma recip_def (x : XReal) : Fp.recip x = recip x := rfl
@[simp] lemma fmaxf_def (x y : XReal) : Fp.fmaxf x y = fmax x y := rfl
@[simp] lemma exp2f_def (x : XReal) : Fp.exp2f x = exp2 x := rfl
@[simp] lemma log2f_def (x : XReal) : Fp.log2f x = logb 2 x := rfl
@[simp] lemma expf_def (x : XReal) : Fp.expf x = exp x := rfl
@[simp] lemma logf_def (x : XReal) : Fp.logf x = logb (Real.exp 1) x := rfl
@[simp] lemma sqrtf_def (x : XReal) : Fp.sqrtf x = sqrt x := rfl
@[simp] lemma lt_def (x y : XReal) : Fp.lt x y = true ↔ lt x y := by simp [Fp.lt]
@[simp] lemma eq_def (x y : XReal) : Fp.eq x y = true ↔ x = y ∧ x ≠ nan := by simp [Fp.eq]
@[simp] lemma sub_fin (a b : ℝ) : Fp.sub (fin a) (fin b) = fin (a - b) := by
  simp [Fp.sub, sub_eq_add_neg]
@[simp] lemma fmaf_fin (a b c : ℝ) : Fp.fmaf (fin a) (fin b) (fin c) = fin (a * b + c) := rfl

/-- A score of `-inf` stays `-inf` under a positive scale. -/
lemma fmaf_ninf {a : ℝ} (ha : 0 < a) (c : ℝ) : Fp.fmaf (fin a) (inf true) (fin c) = inf true := by
  rw [Fp.fmaf, fin_mul_inf ha]
  rfl

/-- bf16 without truncation. -/
def exact : Bf16 XReal XReal := ⟨⟨id, id⟩, rfl, rfl⟩

@[simp] lemma exact_toFloat (x : XReal) : exact.toFloat x = x := rfl
@[simp] lemma exact_ofFloat (x : XReal) : exact.ofFloat x = x := rfl

lemma truncated_zero {β : Type*} [Zero β] {bf : Bf16 XReal β} {T : ℝ → ℝ}
    (hT : ∀ r, bf.toFloat (bf.ofFloat (fin r)) = fin (T r)) : T 0 = 0 := by
  have h := hT 0
  rw [← zero_def, bf.ofFloat_zero, bf.toFloat_zero, zero_def] at h
  exact (fin.inj h).symm

/-- A storage format that truncates real numbers by `T` and has a `nan`. -/
structure Truncates {β : Type*} [Zero β] (bf : Bf16 XReal β) (T : ℝ → ℝ) : Prop where
  fin : ∀ r, bf.toFloat (bf.ofFloat (.fin r)) = .fin (T r)
  nan : bf.toFloat (bf.ofFloat .nan) = .nan

lemma exact_truncates : Truncates exact id := ⟨fun _ => rfl, rfl⟩

end XReal

end FmhaNative
