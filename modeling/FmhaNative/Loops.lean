import Mathlib

/-!
Loops as functions of the state: the counted `do ... while`, its invariant rule, and the
`for` loop that accumulates a sum.
-/

namespace FmhaNative.Loops

variable {σ : Type*}

/-- `do s = body(s); while (cond(s))`; `none` when `fuel` rounds do not end it. -/
def doWhile (body : σ → σ) (cond : σ → Bool) : ℕ → σ → Option σ
  | 0, _ => none
  | n + 1, s => if cond (body s) then doWhile body cond n (body s) else some (body s)

/-- **A counted loop ends**: when the condition after round `k` is `k < n`, the loop runs
`n` rounds. -/
theorem doWhile_eq_iterate {body : σ → σ} {cond : σ → Bool} {n : ℕ} {s : σ} (hn : 1 ≤ n)
    (h : ∀ k, 1 ≤ k → k ≤ n → cond (body^[k] s) = decide (k < n)) :
    doWhile body cond n s = some (body^[n] s) := by
  induction n generalizing s with
  | zero => omega
  | succ n ih =>
    have h1 := h 1 le_rfl (by omega)
    simp only [Function.iterate_one] at h1
    rw [doWhile, h1]
    rcases Nat.eq_zero_or_pos n with rfl | hpos
    · simp
    · rw [if_pos (by simpa using hpos), ih hpos]
      · rfl
      · intro k hk hkn
        have := h (k + 1) (by omega) (by omega)
        rw [Function.iterate_succ_apply] at this
        rw [this]
        simp

/-- **The invariant rule**: what round `k` carries from `k` to `k + 1` holds after `n`
rounds. -/
theorem iterate_inv {body : σ → σ} {I : ℕ → σ → Prop} {n : ℕ} {s : σ} (h0 : I 0 s)
    (step : ∀ k < n, ∀ s, I k s → I (k + 1) (body s)) : I n (body^[n] s) := by
  induction n with
  | zero => exact h0
  | succ n ih =>
    rw [Function.iterate_succ_apply']
    exact step n (by omega) _ (ih fun k hk => step k (by omega))

/-- `for (j = 0; j < n; j++) acc += f(j)`, from zero. -/
def sumLoop {α : Type*} [Zero α] [Add α] (n : ℕ) (f : ℕ → α) : α :=
  (List.range n).foldl (fun acc j => acc + f j) 0

lemma sumLoop_congr {α : Type*} [Zero α] [Add α] {n : ℕ} {f g : ℕ → α} (h : ∀ j < n, f j = g j) :
    sumLoop n f = sumLoop n g :=
  List.foldl_ext _ _ _ fun acc j hj => by rw [h j (List.mem_range.mp hj)]

lemma sumLoop_eq {α : Type*} [AddCommMonoid α] (n : ℕ) (f : ℕ → α) :
    sumLoop n f = ∑ j ∈ Finset.range n, f j := by
  induction n with
  | zero => simp [sumLoop]
  | succ n ih =>
    rw [Finset.sum_range_succ, ← ih]
    simp [sumLoop, List.range_succ]

end FmhaNative.Loops
