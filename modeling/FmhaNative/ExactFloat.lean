import Mathlib

/-!
Exact arithmetic with the special values of IEEE 754: a real number, one of the two
infinities, or not-a-number. Nothing is rounded and zero carries no sign; invalid operations
(`0 * inf`, `inf - inf`) give `nan`, which absorbs in sums and products and which the maximum
ignores.
-/

namespace FmhaNative

/-- The numeral `2` has one instance in every module. -/
instance atLeastTwo_two : Nat.AtLeastTwo 2 := ⟨le_rfl⟩

/-- A real number, an infinity (`inf true` is the negative one), or `nan`. -/
inductive XReal
  | nan
  | inf (neg : Bool)
  | fin (r : ℝ)

namespace XReal

instance : Zero XReal := ⟨fin 0⟩
instance : Inhabited XReal := ⟨nan⟩

def add : XReal → XReal → XReal
  | nan, _ => nan
  | _, nan => nan
  | inf s, inf t => if s = t then inf s else nan
  | inf s, fin _ => inf s
  | fin _, inf s => inf s
  | fin a, fin b => fin (a + b)

instance : Add XReal := ⟨add⟩

open Classical in
/-- The product; the sign of an infinite product is the product of the signs. -/
noncomputable def mul : XReal → XReal → XReal
  | nan, _ => nan
  | _, nan => nan
  | inf s, inf t => inf (xor s t)
  | inf s, fin b => if b = 0 then nan else inf (xor s (decide (b < 0)))
  | fin a, inf t => if a = 0 then nan else inf (xor (decide (a < 0)) t)
  | fin a, fin b => fin (a * b)

noncomputable instance : Mul XReal := ⟨mul⟩

def neg : XReal → XReal
  | nan => nan
  | inf s => inf (!s)
  | fin a => fin (-a)

instance : Neg XReal := ⟨neg⟩

/-- `1 / x`. -/
noncomputable def recip : XReal → XReal
  | nan => nan
  | inf _ => fin 0
  | fin a => if a = 0 then inf false else fin a⁻¹

/-- The maximum that ignores `nan`. -/
noncomputable def fmax : XReal → XReal → XReal
  | nan, y => y
  | x, nan => x
  | inf true, y => y
  | x, inf true => x
  | inf false, _ => inf false
  | _, inf false => inf false
  | fin a, fin b => fin (max a b)

/-- `a < b`; a comparison with `nan` is false. -/
def lt : XReal → XReal → Prop
  | fin a, fin b => a < b
  | inf true, fin _ => True
  | inf true, inf false => True
  | fin _, inf false => True
  | _, _ => False

/-- `2 ^ x`. -/
noncomputable def exp2 : XReal → XReal
  | nan => nan
  | inf true => fin 0
  | inf false => inf false
  | fin a => fin (2 ^ a)

noncomputable def exp : XReal → XReal
  | nan => nan
  | inf true => fin 0
  | inf false => inf false
  | fin a => fin (Real.exp a)

/-- The logarithm to base `b`: `-inf` at zero, `nan` below it. -/
noncomputable def logb (b : ℝ) : XReal → XReal
  | nan => nan
  | inf true => nan
  | inf false => inf false
  | fin a => if a = 0 then inf true else if a < 0 then nan else fin (Real.logb b a)

/-- The square root; `nan` below zero. -/
noncomputable def sqrt : XReal → XReal
  | nan => nan
  | inf true => nan
  | inf false => inf false
  | fin a => if a < 0 then nan else fin √a

@[simp] lemma zero_def : (0 : XReal) = fin 0 := rfl
@[simp] lemma fin_add (a b : ℝ) : fin a + fin b = fin (a + b) := rfl
@[simp] lemma fin_mul (a b : ℝ) : fin a * fin b = fin (a * b) := rfl
@[simp] lemma neg_fin (a : ℝ) : -fin a = fin (-a) := rfl
@[simp] lemma neg_inf (s : Bool) : -inf s = inf (!s) := rfl
@[simp] lemma neg_nan : -nan = nan := rfl
@[simp] lemma nan_add (x : XReal) : nan + x = nan := by cases x <;> rfl
@[simp] lemma add_nan (x : XReal) : x + nan = nan := by cases x <;> rfl
@[simp] lemma nan_mul (x : XReal) : nan * x = nan := by cases x <;> rfl
@[simp] lemma mul_nan (x : XReal) : x * nan = nan := by cases x <;> rfl
@[simp] lemma inf_add_fin (s : Bool) (a : ℝ) : inf s + fin a = inf s := rfl
@[simp] lemma fin_add_inf (s : Bool) (a : ℝ) : fin a + inf s = inf s := rfl
@[simp] lemma inf_add_inf (s t : Bool) : inf s + inf t = if s = t then inf s else nan := rfl
@[simp] lemma exp2_fin (a : ℝ) : exp2 (fin a) = fin (2 ^ a) := rfl
@[simp] lemma exp2_ninf : exp2 (inf true) = fin 0 := rfl
@[simp] lemma exp_fin (a : ℝ) : exp (fin a) = fin (Real.exp a) := rfl
@[simp] lemma exp_ninf : exp (inf true) = fin 0 := rfl
lemma sqrt_fin {a : ℝ} (ha : 0 ≤ a) : sqrt (fin a) = fin √a := if_neg (not_lt.mpr ha)
@[simp] lemma fmax_fin (a b : ℝ) : fmax (fin a) (fin b) = fin (max a b) := rfl
@[simp] lemma fmax_nan (x : XReal) : fmax x nan = x := by rcases x with _ | s | a <;> rfl
@[simp] lemma nan_fmax (x : XReal) : fmax nan x = x := by rcases x with _ | s | a <;> rfl
@[simp] lemma lt_fin (a b : ℝ) : lt (fin a) (fin b) ↔ a < b := Iff.rfl
@[simp] lemma not_lt_ninf (x : XReal) : ¬ lt x (inf true) := by
  rcases x with _ | (_ | _) | a <;> exact id
@[simp] lemma ninf_lt_fin (a : ℝ) : lt (inf true) (fin a) := trivial

lemma recip_fin {a : ℝ} (h : a ≠ 0) : recip (fin a) = fin a⁻¹ := by simp [recip, h]

lemma logb_fin {b a : ℝ} (h : 0 < a) : logb b (fin a) = fin (Real.logb b a) := by
  simp [logb, h.ne', not_lt.mpr h.le]

/-- A positive multiple of an infinity is that infinity. -/
lemma fin_mul_inf {a : ℝ} (h : 0 < a) (s : Bool) : fin a * inf s = inf s := by
  change mul _ _ = _
  simp [mul, h.ne', not_lt.mpr h.le]

protected lemma add_comm' (x y : XReal) : x + y = y + x := by
  rcases x with _ | s | a <;> rcases y with _ | t | b <;> try simp [add_comm]
  cases s <;> cases t <;> simp

protected lemma add_assoc' (x y z : XReal) : x + y + z = x + (y + z) := by
  rcases x with _ | s | a <;> rcases y with _ | t | b <;> rcases z with _ | u | c <;>
    try simp [add_assoc]
  · cases s <;> cases t <;> cases u <;> simp
  · cases s <;> cases t <;> simp
  · cases t <;> cases u <;> simp

protected lemma mul_comm' (x y : XReal) : x * y = y * x := by
  change mul x y = mul y x
  rcases x with _ | s | a <;> rcases y with _ | t | b <;> simp [mul, mul_comm, Bool.xor_comm]

instance : AddCommMonoid XReal where
  add_assoc := XReal.add_assoc'
  zero_add x := by rcases x with _ | s | a <;> simp
  add_zero x := by rcases x with _ | s | a <;> simp
  add_comm := XReal.add_comm'
  nsmul := nsmulRec

noncomputable instance : CommMagma XReal where
  mul_comm := XReal.mul_comm'

/-- The real numbers inside, as a homomorphism of the additive structure. -/
def finHom : ℝ →+ XReal where
  toFun := fin
  map_zero' := rfl
  map_add' _ _ := rfl

/-- A sum of real numbers is a real number. -/
lemma sum_fin {ι : Type*} (A : Finset ι) (f : ι → ℝ) : ∑ j ∈ A, fin (f j) = fin (∑ j ∈ A, f j) :=
  (map_sum finHom f A).symm

/-- `nan` absorbs in a sum. -/
lemma sum_eq_nan {ι : Type*} {A : Finset ι} {f : ι → XReal} {j : ι} (hj : j ∈ A)
    (h : f j = nan) : ∑ j ∈ A, f j = nan := by
  classical
  rw [← Finset.add_sum_erase A f hj, h, nan_add]

/-! ### The maximum is a semilattice -/

lemma fmax_comm (x y : XReal) : fmax x y = fmax y x := by
  rcases x with _ | (_ | _) | a <;> rcases y with _ | (_ | _) | b <;> simp [fmax, max_comm]

lemma fmax_assoc (x y z : XReal) : fmax (fmax x y) z = fmax x (fmax y z) := by
  rcases x with _ | (_ | _) | a <;> rcases y with _ | (_ | _) | b <;>
    rcases z with _ | (_ | _) | c <;> simp [fmax, max_assoc]

lemma fmax_self (x : XReal) : fmax x x = x := by
  rcases x with _ | (_ | _) | a <;> simp [fmax]

@[simp] lemma fmax_ninf_fin (a : ℝ) : fmax (fin a) (inf true) = fin a := rfl

/-! ### The order, without `nan` -/

protected lemma lt_irrefl (x : XReal) : ¬ lt x x := by
  rcases x with _ | (_ | _) | a <;> simp [lt]

protected lemma lt_trans {x y z : XReal} (h : lt x y) (h' : lt y z) : lt x z := by
  rcases x with _ | (_ | _) | a <;> rcases y with _ | (_ | _) | b <;>
    rcases z with _ | (_ | _) | c <;> simp_all [lt]
  exact h.trans h'

lemma ne_nan_of_lt {x y : XReal} (h : lt x y) : x ≠ nan ∧ y ≠ nan := by
  rcases x with _ | (_ | _) | a <;> rcases y with _ | (_ | _) | b <;> simp_all [lt]

protected lemma lt_trichotomy {x y : XReal} (hx : x ≠ nan) (hy : y ≠ nan) : lt x y ∨ x = y ∨ lt y x := by
  rcases x with _ | (_ | _) | a <;> rcases y with _ | (_ | _) | b <;> simp_all [lt]
  exact lt_trichotomy a b

/-- A number that is not `nan` lies on one side of any two that are apart. -/
lemma lt_split {x y z : XReal} (hy : y ≠ nan) (h : lt x z) : lt x y ∨ lt y z := by
  rcases XReal.lt_trichotomy (ne_nan_of_lt h).1 hy with hxy | rfl | hyx
  · exact Or.inl hxy
  · exact Or.inr h
  · exact Or.inr (XReal.lt_trans hyx h)

end XReal

end FmhaNative
