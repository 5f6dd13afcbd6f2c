import Mathlib

/-!
Memory as a function of the address, and lists of stores that change it.

A list of stores is single-valued when no address is stored with two different values. Such
a list leaves the same memory in every order, and each of its addresses holds the value the
list gives it.
-/

namespace FmhaNative.Stores

variable {A V : Type*} [DecidableEq A]

/-- One store: the address and the value. -/
def store (m : A → V) (w : A × V) : A → V := Function.update m w.1 w.2

/-- The stores of a list, first to last. -/
def stores (m : A → V) (ws : List (A × V)) : A → V := ws.foldl store m

@[simp] lemma stores_nil (m : A → V) : stores m [] = m := rfl
@[simp] lemma stores_cons (m : A → V) (w : A × V) (ws : List (A × V)) :
    stores m (w :: ws) = stores (store m w) ws := rfl
lemma store_apply (m : A → V) (w : A × V) (a : A) :
    store m w a = if a = w.1 then w.2 else m a := by
  unfold store; rw [Function.update_apply]

/-- An address that is not stored keeps its value. -/
lemma stores_of_notMem {m : A → V} {ws : List (A × V)} {a : A} (h : ∀ v, (a, v) ∉ ws) :
    stores m ws a = m a := by
  induction ws generalizing m with
  | nil => rfl
  | cons w ws ih =>
    rw [stores_cons, ih fun v hv => h v (List.mem_cons_of_mem _ hv), store_apply, if_neg]
    rintro rfl
    exact h w.2 (by simp)

/-- An address all of whose stores carry `v`, and that is stored, holds `v`. -/
lemma stores_of_mem {m : A → V} {ws : List (A × V)} {a : A} {v : V} (h : (a, v) ∈ ws)
    (hv : ∀ v', (a, v') ∈ ws → v' = v) : stores m ws a = v := by
  induction ws generalizing m with
  | nil => simp at h
  | cons w ws ih =>
    rw [stores_cons]
    by_cases hm : (a, v) ∈ ws
    · exact ih hm fun v' h' => hv v' (List.mem_cons_of_mem _ h')
    · have hw : (a, v) = w := (List.mem_cons.mp h).resolve_right hm
      subst hw
      rw [stores_of_notMem, store_apply, if_pos rfl]
      intro v' h'
      exact hm (hv v' (List.mem_cons_of_mem _ h') ▸ h')

/-- No address is stored with two different values. -/
def SingleValued (ws : List (A × V)) : Prop :=
  ∀ a v v', (a, v) ∈ ws → (a, v') ∈ ws → v = v'

/-- A single-valued list is known by its elements. -/
lemma stores_ext {m : A → V} {us ws : List (A × V)} (h : SingleValued us)
    (hm : ∀ w, w ∈ us ↔ w ∈ ws) : stores m us = stores m ws := by
  funext a
  by_cases ha : ∃ v, (a, v) ∈ us
  · obtain ⟨v, hv⟩ := ha
    rw [stores_of_mem hv fun v' h' => h a v' v h' hv,
      stores_of_mem ((hm _).mp hv) fun v' h' => h a v' v ((hm _).mpr h') hv]
  · have hu : ∀ v, (a, v) ∉ us := fun v hv => ha ⟨v, hv⟩
    rw [stores_of_notMem hu, stores_of_notMem fun v hv => hu v ((hm _).mpr hv)]

/-- **Order does not matter**: a single-valued list leaves the same memory however it is
arranged. -/
theorem stores_perm {m : A → V} {us ws : List (A × V)} (h : SingleValued us) (hp : us.Perm ws) :
    stores m us = stores m ws :=
  stores_ext h fun _ => hp.mem_iff

end FmhaNative.Stores
