import FmhaNative.WaveRuns

/-!
Races between asynchronous operations, and what follows when there are none.

Two accesses of an address race when one of them writes it and nothing makes one wait for the
other. In a program whose waits and barriers order all such pairs, no state has two operations on
their way to one address, or one on its way to an address that a wave is about to read. Any two
steps then commute, so all runs end in one state.
-/

namespace FmhaNative.Races

open AsyncWaves WaveRuns Relation

variable {W A V : Type*} {P : W → List (Instr A V)} {R : W → ℕ → A → Prop} {s s' : State W A V}

/-! ### Ordered accesses -/

/-- The operation of wave `w` at `p` may write `a`. -/
def MayWrite (P : W → List (Instr A V)) (w : W) (p : ℕ) (a : A) : Prop :=
  ∃ c f m u, (P w)[p]? = some (.issue c f) ∧ (a, u) ∈ f m

/-- No operation writes two values to one address. -/
def WritesOnce (P : W → List (Instr A V)) : Prop :=
  ∀ (w : W) (p : ℕ) (c : Counter) (f : (A → V) → List (A × V)) (m : A → V) (a : A) (u u' : V),
    (P w)[p]? = some (.issue c f) → (a, u) ∈ f m → (a, u') ∈ f m → u = u'

/-- Of two accesses of an address, one of them a write, one is complete before the other.
`R w p a` says that wave `w` reads `a` at position `p`. -/
structure Ordered (P : W → List (Instr A V)) (R : W → ℕ → A → Prop) : Prop where
  once : WritesOnce P
  writes : ∀ w p w' p' a, MayWrite P w p a → MayWrite P w' p' a →
    (w = w' ∧ p = p') ∨ Completed P w p w' p' ∨ Completed P w' p' w p
  reads : ∀ w r w' p a, R w r a → MayWrite P w' p a → Completed P w' p w r ∨ NotYet P w r w' p

/-- No two outstanding operations write one address, none writes an address twice, and none writes
what a wave reads where it stands. -/
structure RaceFree (R : W → ℕ → A → Prop) (s : State W A V) : Prop where
  writes : ∀ w w' c c', ∀ e ∈ (s.waves w).queue c, ∀ e' ∈ (s.waves w').queue c', ∀ a u u',
    (a, u) ∈ e.pending → (a, u') ∈ e'.pending → w = w' ∧ c = c' ∧ e = e' ∧ u = u'
  reads : ∀ w w' c, ∀ e ∈ (s.waves w').queue c, ∀ a u, (a, u) ∈ e.pending → ¬ R w (s.waves w).pc a

lemma eq_of_pos {prog : List (Instr A V)} {c : Counter} {pc : ℕ} {q : List (Entry A V)}
    (h : QueueInv prog c pc q) {e e' : Entry A V} (he : e ∈ q) (he' : e' ∈ q)
    (hpos : e.pos = e'.pos) : e = e' :=
  List.inj_on_of_nodup_map (h.sorted.imp fun hlt => hlt.ne) he he' hpos

/-- **Ordered accesses do not race**, in any reachable state. -/
theorem Ordered.raceFree [DecidableEq W] [DecidableEq A] (ho : Ordered P R) (hal : Aligned P)
    (hs : Reachable P s) : RaceFree R s := by
  have hi := reachable_inv hal hs
  refine ⟨fun w w' c c' e he e' he' a u u' hu hu' => ?_, fun w w' c e he a u hu hr => ?_⟩
  · obtain ⟨f, m, hf, hm⟩ := (hi.queues w c).source e he
    obtain ⟨f', m', hf', hm'⟩ := (hi.queues w' c').source e' he'
    rcases ho.writes w e.pos w' e'.pos a ⟨c, f, m, u, hf, hm _ hu⟩ ⟨c', f', m', u', hf', hm' _ hu'⟩
      with ⟨rfl, hpos⟩ | hc | hc
    · rw [← hpos, hf] at hf'
      obtain ⟨rfl, rfl⟩ := Instr.issue.inj (Option.some.inj hf')
      obtain rfl := eq_of_pos (hi.queues w c) he he' hpos
      exact ⟨rfl, rfl, rfl, ho.once w _ c f m a u u' hf (hm _ hu) (hm _ hu')⟩
    · exact absurd rfl (hi.pos_ne_of_completed hc ((hi.queues w' c').below e' he').le c he)
    · exact absurd rfl (hi.pos_ne_of_completed hc ((hi.queues w c).below e he).le c' he')
  · obtain ⟨f, m, hf, hm⟩ := (hi.queues w' c).source e he
    rcases ho.reads w _ w' e.pos a hr ⟨c, f, m, u, hf, hm _ hu⟩ with hc | hn
    · exact hi.pos_ne_of_completed hc le_rfl c he rfl
    · have hlt := (hi.queues w' c).below e he
      exact absurd (hi.not_issued hn le_rfl) (not_le.mpr hlt)

/-! ### Ordered by their last writes -/

lemma completed_trans (hal : Aligned P) {w w₀ w' : W} {p i r : ℕ} (h : Completed P w p w₀ i)
    (h' : Completed P w₀ i w' r) : Completed P w p w' r := by
  obtain ⟨c, f, j, hf, hcov, hord⟩ := h
  obtain ⟨c', f', j', -, ⟨hij, -⟩, hord'⟩ := h'
  have hjr : j' < r := by
    rcases hord' with ⟨-, hlt⟩ | ⟨k', -, hjk, hkr⟩
    · exact hlt
    · exact hjk.trans hkr
  refine ⟨c, f, j, hf, hcov, ?_⟩
  rcases hord with ⟨rfl, hji⟩ | ⟨k, hk, hjk, hki⟩
  · rcases hord' with ⟨rfl, -⟩ | ⟨k', hk', hjk, hkr⟩
    · exact Or.inl ⟨rfl, by omega⟩
    · exact Or.inr ⟨k', hk', by omega, hkr⟩
  · exact Or.inr ⟨k, hal _ _ _ hk, hjk, by omega⟩

/-- What is complete at `r` is complete for an operation that waits for `r`. -/
lemma completed_of_notYet (hal : Aligned P) {w w₁ w' : W} {p r p' : ℕ} (h : Completed P w p w₁ r)
    (h' : NotYet P w₁ r w' p') : Completed P w p w' p' := by
  obtain ⟨c, f, j, hf, hcov, hord⟩ := h
  refine ⟨c, f, j, hf, hcov, ?_⟩
  rcases hord with ⟨rfl, hjr⟩ | ⟨k, hk, hjk, hkr⟩
  · rcases h' with ⟨rfl, hrp⟩ | ⟨k', hk', hrk, hkp⟩
    · exact Or.inl ⟨rfl, hjr.trans_le hrp⟩
    · exact Or.inr ⟨k', hk', hjr.trans hrk, hkp⟩
  · refine Or.inr ⟨k, hal _ _ _ hk, hjk, ?_⟩
    rcases h' with ⟨-, hrp⟩ | ⟨k', -, hrk, hkp⟩
    · exact hkr.trans_le hrp
    · exact hkr.trans (hrk.trans hkp)

/-- A program is ordered when each write is the last one before some position, and each read
comes after a last write. -/
theorem ordered_of_lastWrite [DecidableEq W] [DecidableEq A] (hal : Aligned P) (honce : WritesOnce P)
    (hw : ∀ w i a, MayWrite P w i a → ∃ w' r v, LastWrite P w i w' r a v)
    (hr : ∀ w r a, R w r a → (∃ w' p, MayWrite P w' p a) → ∃ w₀ i v, LastWrite P w₀ i w r a v) :
    Ordered P R := by
  refine ⟨honce, fun w p w' p' a h h' => ?_, fun w r w' p a h h' => ?_⟩
  · obtain ⟨w₁, r, v, hl⟩ := hw w p a h
    obtain ⟨c, f, m, u, hf, hu⟩ := h'
    rcases hl.others w' p' c f m u hf hu with ⟨rfl, rfl⟩ | hc | hn
    · exact Or.inl ⟨rfl, rfl⟩
    · exact Or.inr (Or.inr hc)
    · exact Or.inr (Or.inl (completed_of_notYet hal hl.completed hn))
  · obtain ⟨w₀, i, v, hl⟩ := hr w r a h ⟨w', p, h'⟩
    obtain ⟨c, f, m, u, hf, hu⟩ := h'
    rcases hl.others w' p c f m u hf hu with ⟨rfl, rfl⟩ | hc | hn
    · exact Or.inl hl.completed
    · exact Or.inl (completed_trans hal hc hl.completed)
    · exact Or.inr hn

/-! ### What a step does to one wave -/

/-- One element taken out of a list. -/
inductive Picks {X : Type*} : List X → X → List X → Prop
  | here {x : X} {l : List X} : Picks (x :: l) x l
  | there {x y : X} {l l' : List X} : Picks l x l' → Picks (y :: l) x (y :: l')

/-- A queue lands a write or retires its oldest operation. -/
inductive Moves : List (Entry A V) → Option (A × V) → List (Entry A V) → Prop
  | retire {pos : ℕ} {ys : List (Entry A V)} : Moves (⟨pos, []⟩ :: ys) none ys
  | land {pos : ℕ} {us us' : List (A × V)} {x : A × V} {ys : List (Entry A V)} :
      Picks us x us' → Moves (⟨pos, us⟩ :: ys) (some x) (⟨pos, us'⟩ :: ys)
  | later {e : Entry A V} {x : A × V} {ys ys' : List (Entry A V)} :
      Moves ys (some x) ys' → Moves (e :: ys) (some x) (e :: ys')

/-- A wave goes past its instruction, past a barrier when it may `go`. -/
inductive Fires (prog : List (Instr A V)) (go : Prop) (m : A → V) (x : Wave A V) :
    Wave A V → Prop
  | issue {c : Counter} {f : (A → V) → List (A × V)} (h : prog[x.pc]? = some (.issue c f)) :
      Fires prog go m x (x.setQueue c (x.queue c ++ [⟨x.pc, f m⟩])).advance
  | wait {c : Counter} {n : ℕ} (h : prog[x.pc]? = some (.wait c n)) (hn : (x.queue c).length ≤ n) :
      Fires prog go m x x.advance
  | barrier (h : prog[x.pc]? = some .barrier) (ho : go) : Fires prog go m x x.advance
  | compute (h : prog[x.pc]? = some .compute) : Fires prog go m x x.advance

/-- A step of one wave, with the write that it lands. -/
inductive Acts (prog : List (Instr A V)) (go : Prop) (m : A → V) (x : Wave A V) :
    Option (A × V) → Wave A V → Prop
  | fire {x' : Wave A V} : Fires prog go m x x' → Acts prog go m x none x'
  | move {c : Counter} {y : Option (A × V)} {q : List (Entry A V)} :
      Moves (x.queue c) y q → Acts prog go m x y (x.setQueue c q)

def landed [DecidableEq A] (m : A → V) : Option (A × V) → A → V
  | none => m
  | some x => Function.update m x.1 x.2

section Lists

variable {X : Type*} {x y : X} {l l₁ l₂ : List X}

lemma Picks.mem (h : Picks l x l₁) : x ∈ l := by
  induction h with
  | here => exact List.mem_cons_self
  | there _ ih => exact List.mem_cons_of_mem _ ih

lemma picks_middle (us ws : List X) : Picks (us ++ x :: ws) x (us ++ ws) := by
  induction us with
  | nil => exact Picks.here
  | cons u us ih => exact ih.there

lemma Picks.exists_middle (h : Picks l x l₁) : ∃ us ws, l = us ++ x :: ws ∧ l₁ = us ++ ws := by
  induction h with
  | @here _ l => exact ⟨[], l, rfl, rfl⟩
  | @there _ y _ _ _ ih =>
    obtain ⟨us, ws, rfl, rfl⟩ := ih
    exact ⟨y :: us, ws, rfl, rfl⟩

/-- Two elements are taken out in either order. -/
lemma Picks.diamond (h : Picks l x l₁) (h' : Picks l y l₂) :
    (x = y ∧ l₁ = l₂) ∨ ∃ d, Picks l₁ y d ∧ Picks l₂ x d := by
  induction h generalizing l₂ with
  | here =>
    cases h' with
    | here => exact Or.inl ⟨rfl, rfl⟩
    | there h' => exact Or.inr ⟨_, h', Picks.here⟩
  | there h ih =>
    cases h' with
    | here => exact Or.inr ⟨_, Picks.here, h⟩
    | there h' =>
      rcases ih h' with ⟨rfl, rfl⟩ | ⟨d, h₁, h₂⟩
      · exact Or.inl ⟨rfl, rfl⟩
      · exact Or.inr ⟨_, h₁.there, h₂.there⟩

end Lists

section Queues

variable {q q₁ q₂ : List (Entry A V)} {x : A × V} {y y₁ y₂ : Option (A × V)}

lemma moves_land (xs ys : List (Entry A V)) (pos : ℕ) (us ws : List (A × V)) :
    Moves (xs ++ ⟨pos, us ++ x :: ws⟩ :: ys) (some x) (xs ++ ⟨pos, us ++ ws⟩ :: ys) := by
  induction xs with
  | nil => exact Moves.land (picks_middle us ws)
  | cons e xs ih => exact ih.later

lemma Moves.exists_land (h : Moves q y q₁) (hy : y = some x) : ∃ xs ys pos us ws,
    q = xs ++ ⟨pos, us ++ x :: ws⟩ :: ys ∧ q₁ = xs ++ ⟨pos, us ++ ws⟩ :: ys := by
  induction h with
  | retire => cases hy
  | @land pos _ _ _ ys h =>
    cases hy
    obtain ⟨us, ws, rfl, rfl⟩ := h.exists_middle
    exact ⟨[], ys, pos, us, ws, rfl, rfl⟩
  | @later e _ _ _ _ ih =>
    obtain ⟨xs, ys, pos, us, ws, rfl, rfl⟩ := ih hy
    exact ⟨e :: xs, ys, pos, us, ws, rfl, rfl⟩

lemma Moves.length_le (h : Moves q y q₁) : q₁.length ≤ q.length := by
  induction h with
  | retire => exact Nat.le_succ _
  | land => exact le_rfl
  | later _ ih => exact Nat.succ_le_succ ih

lemma Moves.append (h : Moves q y q₁) (q' : List (Entry A V)) : Moves (q ++ q') y (q₁ ++ q') := by
  induction h with
  | retire => exact Moves.retire
  | land h => exact Moves.land h
  | later _ ih => exact ih.later

lemma Moves.pending (h : Moves q y q₁) (hy : y = some x) : ∃ e ∈ q, x ∈ e.pending := by
  obtain ⟨xs, ys, pos, us, ws, rfl, -⟩ := h.exists_land hy
  exact ⟨⟨pos, us ++ x :: ws⟩, List.mem_append_right _ List.mem_cons_self,
    List.mem_append_right _ List.mem_cons_self⟩

/-- Two moves of a queue are made in either order. -/
lemma Moves.diamond (h : Moves q y₁ q₁) (h' : Moves q y₂ q₂) :
    (y₁ = y₂ ∧ q₁ = q₂) ∨ ∃ d, Moves q₁ y₂ d ∧ Moves q₂ y₁ d := by
  induction h generalizing y₂ q₂ with
  | retire =>
    cases h' with
    | retire => exact Or.inl ⟨rfl, rfl⟩
    | land h' => cases h'
    | later h' => exact Or.inr ⟨_, h', Moves.retire⟩
  | land h =>
    cases h' with
    | retire => cases h
    | land h' =>
      rcases h.diamond h' with ⟨rfl, rfl⟩ | ⟨d, h₁, h₂⟩
      · exact Or.inl ⟨rfl, rfl⟩
      · exact Or.inr ⟨_, Moves.land h₁, Moves.land h₂⟩
    | later h' => exact Or.inr ⟨_, h'.later, Moves.land h⟩
  | later h ih =>
    cases h' with
    | retire => exact Or.inr ⟨_, Moves.retire, h⟩
    | land h' => exact Or.inr ⟨_, Moves.land h', h.later⟩
    | later h' =>
      rcases ih h' with ⟨heq, rfl⟩ | ⟨d, h₁, h₂⟩
      · exact Or.inl ⟨heq, rfl⟩
      · exact Or.inr ⟨_, h₁.later, h₂.later⟩

end Queues

/-! ### Steps of one wave -/

section Waves

variable {prog : List (Instr A V)} {go go' go₁ go₂ : Prop} {m m' : A → V} {x x₁ x₂ : Wave A V}
  {y y₁ y₂ : Option (A × V)} {c c' : Counter} {q q' : List (Entry A V)}

@[simp] lemma setQueue_pc : (x.setQueue c q).pc = x.pc := rfl
@[simp] lemma setQueue_queue : (x.setQueue c q).queue c = q := Function.update_self ..
lemma setQueue_queue_of_ne (h : c' ≠ c) : (x.setQueue c q).queue c' = x.queue c' :=
  Function.update_of_ne h ..
@[simp] lemma setQueue_setQueue : (x.setQueue c q).setQueue c q' = x.setQueue c q' := by
  simp only [Wave.setQueue, Function.update_idem]
lemma setQueue_comm (h : c ≠ c') :
    (x.setQueue c q).setQueue c' q' = (x.setQueue c' q').setQueue c q := by
  simp only [Wave.setQueue, Function.update_comm h]
@[simp] lemma advance_queue : x.advance.queue = x.queue := rfl
@[simp] lemma advance_pc : x.advance.pc = x.pc + 1 := rfl
lemma advance_setQueue : x.advance.setQueue c q = (x.setQueue c q).advance := rfl

lemma Fires.det (h : Fires prog go m x x₁) (h' : Fires prog go m x x₂) : x₁ = x₂ := by
  cases h with
  | issue h =>
    cases h' with
    | issue h' =>
      rw [h] at h'
      obtain ⟨rfl, rfl⟩ := Instr.issue.inj (Option.some.inj h')
      rfl
    | wait h' | barrier h' | compute h' =>
      rw [h] at h'
      cases h'
  | wait h | barrier h | compute h =>
    cases h' with
    | issue h' =>
      rw [h] at h'
      cases h'
    | wait | barrier | compute => rfl

lemma Fires.pc (h : Fires prog go m x x₁) : x₁.pc = x.pc + 1 := by
  cases h with
  | issue | wait | barrier | compute => rfl

/-- The instruction of a wave needs of the memory what it reads, and of the others that they let
it through. -/
lemma Fires.mono (h : Fires prog go m x x₁) (hgo : go → go')
    (hf : ∀ c f, prog[x.pc]? = some (.issue c f) → f m' = f m) : Fires prog go' m' x x₁ := by
  cases h with
  | @issue c f h =>
    rw [← hf c f h]
    exact Fires.issue h
  | wait h hn => exact Fires.wait h hn
  | barrier h ho => exact Fires.barrier h (hgo ho)
  | compute h => exact Fires.compute h

/-- A wave goes past its instruction before or after one of its queues moves. -/
lemma Fires.move (h : Fires prog go m x x₁) (hm : Moves (x.queue c) y q) :
    ∃ q', Moves (x₁.queue c) y q' ∧ Fires prog go m (x.setQueue c q) (x₁.setQueue c q') := by
  cases h with
  | @issue c' f h =>
    have hfires : Fires prog go m (x.setQueue c q) _ := Fires.issue h
    by_cases hc : c' = c
    · subst hc
      refine ⟨q ++ [⟨x.pc, f m⟩], ?_, ?_⟩
      · simpa using hm.append _
      · simpa [advance_setQueue] using hfires
    · refine ⟨q, ?_, ?_⟩
      · simpa [setQueue_queue_of_ne (Ne.symm hc)] using hm
      · rwa [setQueue_queue_of_ne hc, setQueue_comm (Ne.symm hc)] at hfires
  | @wait c' n h hn =>
    refine ⟨q, hm, Fires.wait h ?_⟩
    by_cases hc : c' = c
    · subst hc
      simpa using hm.length_le.trans hn
    · rwa [setQueue_queue_of_ne hc]
  | barrier h ho => exact ⟨q, hm, Fires.barrier h ho⟩
  | compute h => exact ⟨q, hm, Fires.compute h⟩

/-- A second move of one queue. -/
lemma Acts.again (h : Moves q y q') : Acts prog go m (x.setQueue c q) y (x.setQueue c q') := by
  have hmove : Acts prog go m (x.setQueue c q) y ((x.setQueue c q).setQueue c q') :=
    Acts.move (by rwa [setQueue_queue])
  rwa [setQueue_setQueue] at hmove

lemma Acts.pc (h : Acts prog go m x y x₁) : x₁.pc = x.pc ∨ x₁.pc = x.pc + 1 := by
  cases h with
  | fire h => exact Or.inr h.pc
  | move => exact Or.inl rfl

lemma Acts.pending (h : Acts prog go m x y x₁) {z : A × V} (hy : y = some z) :
    ∃ c, ∃ e ∈ x.queue c, z ∈ e.pending := by
  cases h with
  | fire => cases hy
  | move h => exact ⟨_, h.pending hy⟩

lemma Acts.mono (h : Acts prog go m x y x₁) (hgo : go → go')
    (hf : ∀ c f, prog[x.pc]? = some (.issue c f) → f m' = f m) : Acts prog go' m' x y x₁ := by
  cases h with
  | fire h => exact Acts.fire (h.mono hgo hf)
  | move h => exact Acts.move h

/-- Two steps of one wave are made in either order. -/
lemma Acts.diamond [DecidableEq A] (h : Acts prog go m x y₁ x₁) (h' : Acts prog go m x y₂ x₂)
    (hgo₁ : x₁.pc = x.pc → go → go₁) (hgo₂ : x₂.pc = x.pc → go → go₂)
    (hf : ∀ y, (y = y₁ ∨ y = y₂) → ∀ c f, prog[x.pc]? = some (.issue c f) → f (landed m y) = f m) :
    (y₁ = y₂ ∧ x₁ = x₂) ∨
      ∃ x₃, Acts prog go₁ (landed m y₁) x₁ y₂ x₃ ∧ Acts prog go₂ (landed m y₂) x₂ y₁ x₃ := by
  cases h with
  | fire h =>
    cases h' with
    | fire h' => exact Or.inl ⟨rfl, h.det h'⟩
    | move h' =>
      obtain ⟨q', hq, hfire⟩ := h.move h'
      exact Or.inr ⟨_, Acts.move hq, Acts.fire (hfire.mono (hgo₂ rfl) (hf _ (Or.inr rfl)))⟩
  | @move c y₁ q₁ h =>
    cases h' with
    | fire h' =>
      obtain ⟨q', hq, hfire⟩ := h'.move h
      exact Or.inr ⟨_, Acts.fire (hfire.mono (hgo₁ rfl) (hf _ (Or.inl rfl))), Acts.move hq⟩
    | @move c' y₂ q₂ h' =>
      by_cases hc : c = c'
      · subst hc
        rcases h.diamond h' with ⟨rfl, rfl⟩ | ⟨d, h₁, h₂⟩
        · exact Or.inl ⟨rfl, rfl⟩
        · exact Or.inr ⟨x.setQueue c d, Acts.again h₁, Acts.again h₂⟩
      · refine Or.inr ⟨(x.setQueue c q₁).setQueue c' q₂, Acts.move ?_, ?_⟩
        · rwa [setQueue_queue_of_ne (Ne.symm hc)]
        · rw [setQueue_comm hc]
          exact Acts.move (by rwa [setQueue_queue_of_ne hc])

end Waves

/-! ### Steps commute -/

section Steps

variable [DecidableEq W] [DecidableEq A] {s₁ s₂ : State W A V}

lemma step_iff : Step P s s' ↔ ∃ w y x',
    Acts (P w) (∀ w', Arrived P s w w') s.mem (s.waves w) y x' ∧
      s' = ⟨landed s.mem y, (s.setWave w x').waves⟩ := by
  constructor
  · intro h
    cases h with
    | @issue w c f h => exact ⟨w, none, _, Acts.fire (Fires.issue h), rfl⟩
    | @wait w c n h hn => exact ⟨w, none, _, Acts.fire (Fires.wait h hn), rfl⟩
    | @barrier w h hall => exact ⟨w, none, _, Acts.fire (Fires.barrier h hall), rfl⟩
    | @compute w h => exact ⟨w, none, _, Acts.fire (Fires.compute h), rfl⟩
    | @land w c xs ys pos us ws x h =>
      exact ⟨w, some x, _, Acts.move (h ▸ moves_land xs ys pos us ws), rfl⟩
    | @retire w c pos ys h => exact ⟨w, none, _, Acts.move (h ▸ Moves.retire), rfl⟩
  · rintro ⟨w, y, x', h, rfl⟩
    cases h with
    | fire h =>
      cases h with
      | issue h => exact Step.issue h
      | wait h hn => exact Step.wait h hn
      | barrier h hall => exact Step.barrier h hall
      | compute h => exact Step.compute h
    | @move c y q h =>
      cases y with
      | none =>
        obtain ⟨q₀, hq₀⟩ : ∃ q₀, (s.waves w).queue c = q₀ := ⟨_, rfl⟩
        rw [hq₀] at h
        cases h with
        | retire => exact Step.retire hq₀
      | some x =>
        obtain ⟨xs, ys, pos, us, ws, hq, rfl⟩ := h.exists_land rfl
        exact Step.land hq

omit [DecidableEq A] in
/-- A wave that may go on past its barrier still may after a step of another wave. -/
lemma arrived_after {w w₁ w' : W} {m : A → V} {x₁ : Wave A V}
    (hpc : x₁.pc = (s.waves w₁).pc ∨ (w ≠ w₁ ∧ x₁.pc = (s.waves w₁).pc + 1))
    (h : Arrived P s w w') : Arrived P ⟨m, (s.setWave w₁ x₁).waves⟩ w w' := by
  have hw : ((s.setWave w₁ x₁).waves w).pc = (s.waves w).pc := by
    by_cases hww : w = w₁
    · subst hww
      rcases hpc with heq | ⟨hne, -⟩
      · simpa [State.setWave] using heq
      · exact absurd rfl hne
    · simp only [State.setWave, Function.update_of_ne hww]
  unfold Arrived at h ⊢
  simp only [hw]
  by_cases hww : w' = w₁
  · subst hww
    simp only [State.setWave, Function.update_self]
    rcases hpc with heq | ⟨-, hsucc⟩
    · rwa [heq]
    · left
      rw [hsucc]
      rcases h with hlt | ⟨heq, hb⟩
      · exact hlt.trans_le (arrivals_mono (P w') (Nat.le_succ _))
      · rw [heq, arrivals_succ, hb]
        exact Nat.lt_succ_self _
  · simpa only [State.setWave, Function.update_of_ne hww] using h

/-- What an operation writes depends on the memory only through what it reads. -/
def Local (P : W → List (Instr A V)) (R : W → ℕ → A → Prop) : Prop :=
  ∀ (w : W) (p : ℕ) (c : Counter) (f : (A → V) → List (A × V)) (m m' : A → V),
    (P w)[p]? = some (.issue c f) → (∀ a, R w p a → m a = m' a) → f m = f m'

omit [DecidableEq W] in
/-- A write that lands is not read by any instruction that a wave stands at. -/
lemma RaceFree.issue_landed (hr : RaceFree R s) (hl : Local P R) {y : Option (A × V)}
    (hy : ∀ z, y = some z → ∃ w₀ c₀, ∃ e ∈ (s.waves w₀).queue c₀, z ∈ e.pending)
    (w : W) (c : Counter) (f : (A → V) → List (A × V))
    (hf : (P w)[(s.waves w).pc]? = some (.issue c f)) : f (landed s.mem y) = f s.mem := by
  cases y with
  | none => rfl
  | some z =>
    obtain ⟨w₀, c₀, e, he, hz⟩ := hy z rfl
    refine hl w _ c f _ _ hf fun a ha => Function.update_of_ne ?_ _ _
    rintro rfl
    exact hr.reads w w₀ c₀ e he _ z.2 hz ha

omit [DecidableEq W] in
/-- Two outstanding writes land in either order: where they write one element, they write one
value. -/
lemma RaceFree.landed_comm (hr : RaceFree R s) {w₁ w₂ : W} {c₁ c₂ : Counter} {e₁ e₂ : Entry A V}
    (he₁ : e₁ ∈ (s.waves w₁).queue c₁) (he₂ : e₂ ∈ (s.waves w₂).queue c₂) {a b : A × V}
    (ha : a ∈ e₁.pending) (hb : b ∈ e₂.pending) :
    landed (landed s.mem (some a)) (some b) = landed (landed s.mem (some b)) (some a) := by
  by_cases hab : a.1 = b.1
  · have hb' : (a.1, b.2) ∈ e₂.pending := hab ▸ hb
    obtain ⟨-, -, -, hval⟩ := hr.writes w₁ w₂ c₁ c₂ e₁ he₁ e₂ he₂ a.1 a.2 b.2 ha hb'
    rw [Prod.ext hab hval]
  · exact Function.update_comm hab _ _ _

/-- **Steps commute** in a state without races. -/
theorem RaceFree.diamond (hr : RaceFree R s) (hl : Local P R) (h : Step P s s₁)
    (h' : Step P s s₂) : s₁ = s₂ ∨ ∃ d, Step P s₁ d ∧ Step P s₂ d := by
  obtain ⟨w₁, y₁, x₁, h₁, rfl⟩ := step_iff.mp h
  obtain ⟨w₂, y₂, x₂, h₂, rfl⟩ := step_iff.mp h'
  have hread₁ := hr.issue_landed hl fun _ hy => ⟨w₁, h₁.pending hy⟩
  have hread₂ := hr.issue_landed hl fun _ hy => ⟨w₂, h₂.pending hy⟩
  have hcomm : landed (landed s.mem y₁) y₂ = landed (landed s.mem y₂) y₁ := by
    cases y₁ with
    | none => rfl
    | some a =>
      cases y₂ with
      | none => rfl
      | some b =>
        obtain ⟨c₁, e₁, he₁, ha⟩ := h₁.pending rfl
        obtain ⟨c₂, e₂, he₂, hb⟩ := h₂.pending rfl
        exact hr.landed_comm he₁ he₂ ha hb
  by_cases hw : w₁ = w₂
  · subst hw
    have hgo : ∀ y x, x.pc = (s.waves w₁).pc → (∀ w', Arrived P s w₁ w') →
        ∀ w', Arrived P ⟨landed s.mem y, (s.setWave w₁ x).waves⟩ w₁ w' :=
      fun y x hpc hall w' => arrived_after (Or.inl hpc) (hall w')
    have hread : ∀ y, (y = y₁ ∨ y = y₂) → ∀ c f,
        (P w₁)[(s.waves w₁).pc]? = some (.issue c f) → f (landed s.mem y) = f s.mem := by
      rintro y (rfl | rfl)
      · exact hread₁ w₁
      · exact hread₂ w₁
    rcases h₁.diamond h₂ (hgo y₁ x₁) (hgo y₂ x₂) hread with ⟨rfl, rfl⟩ | ⟨x₃, hx₁, hx₂⟩
    · exact Or.inl rfl
    · right
      refine ⟨_, step_iff.mpr ⟨w₁, y₂, x₃, ?_, rfl⟩, step_iff.mpr ⟨w₁, y₁, x₃, ?_, ?_⟩⟩
      · simpa [State.setWave] using hx₁
      · simpa [State.setWave] using hx₂
      · simp [State.setWave, hcomm]
  · right
    refine ⟨_, step_iff.mpr ⟨w₂, y₂, x₂, ?_, rfl⟩, step_iff.mpr ⟨w₁, y₁, x₁, ?_, ?_⟩⟩
    · have hother : (s.setWave w₁ x₁).waves w₂ = s.waves w₂ :=
        Function.update_of_ne (Ne.symm hw) _ _
      simp only [hother]
      refine h₂.mono (fun hall w' => arrived_after ?_ (hall w')) (hread₁ w₂)
      exact h₁.pc.imp_right fun hpc => ⟨Ne.symm hw, hpc⟩
    · have hother : (s.setWave w₂ x₂).waves w₁ = s.waves w₁ := Function.update_of_ne hw _ _
      simp only [hother]
      refine h₁.mono (fun hall w' => arrived_after ?_ (hall w')) (hread₂ w₁)
      exact h₂.pc.imp_right fun hpc => ⟨hw, hpc⟩
    · simp only [State.setWave, hcomm, Function.update_comm hw]

/-! ### One final state -/

/-- The runs from memory `m`. -/
def Run (P : W → List (Instr A V)) (m : A → V) (s : State W A V) : Prop :=
  ReflTransGen (Step P) (State.init m) s

lemma Run.reachable {m : A → V} (h : Run P m s) : Reachable P s := by
  induction h with
  | refl => exact Reachable.init m
  | tail _ hs ih => exact ih.step hs

lemma Done.no_step (h : Done P s) : ¬ Step P s s' := by
  intro hs
  cases hs with
  | @issue w c f hf | @wait w c n hf hn | @barrier w hf hall | @compute w hf =>
    exact absurd (List.getElem?_eq_some_iff.mp hf).1 (not_lt.mpr (h.pc w))
  | @land w c xs ys pos us ws x hq =>
    rw [h.queue] at hq
    exact absurd hq.symm (List.append_ne_nil_of_right_ne_nil _ (List.cons_ne_nil _ _))
  | @retire w c pos ys hq =>
    rw [h.queue] at hq
    cases hq

lemma exists_done [Fintype W] (hal : Aligned P) {b : ℕ} (hb : WritesAtMost b P) :
    ∃ t, ReflTransGen (Step P) s t ∧ Done P t := by
  induction hk : totalWeight b P s using Nat.strong_induction_on generalizing s with
  | _ k ih =>
    by_cases hd : Done P s
    · exact ⟨s, ReflTransGen.refl, hd⟩
    · obtain ⟨s', hs'⟩ := exists_step hal hd
      obtain ⟨t, ht, hdone⟩ := ih _ (hk ▸ totalWeight_lt hb hs') rfl
      exact ⟨t, ReflTransGen.head hs' ht, hdone⟩

/-- **Runs meet again**, by the Church-Rosser property on the reachable states. -/
theorem Ordered.join (ho : Ordered P R) (hal : Aligned P) (hl : Local P R) (hs : Reachable P s)
    (h₁ : ReflTransGen (Step P) s s₁) (h₂ : ReflTransGen (Step P) s s₂) :
    Join (ReflTransGen (Step P)) s₁ s₂ := by
  let r : {s // Reachable P s} → {s // Reachable P s} → Prop := fun a b => Step P a.1 b.1
  have hlift : ∀ t, ReflTransGen (Step P) s t → ∃ ht, ReflTransGen r ⟨s, hs⟩ ⟨t, ht⟩ := by
    intro t ht
    induction ht with
    | refl => exact ⟨hs, ReflTransGen.refl⟩
    | tail _ hst ih =>
      obtain ⟨hb, hrun⟩ := ih
      exact ⟨hb.step hst, hrun.tail hst⟩
  obtain ⟨hs₁, hr₁⟩ := hlift s₁ h₁
  obtain ⟨hs₂, hr₂⟩ := hlift s₂ h₂
  have hdiamond : ∀ a b c, r a b → r a c → ∃ d, ReflGen r b d ∧ ReflTransGen r c d := by
    intro a b c hab hac
    rcases (ho.raceFree hal a.2).diamond hl hab hac with heq | ⟨d, hbd, hcd⟩
    · exact ⟨b, ReflGen.refl, Subtype.ext heq ▸ ReflTransGen.refl⟩
    · exact ⟨⟨d, b.2.step hbd⟩, ReflGen.single hbd, ReflTransGen.single hcd⟩
  obtain ⟨d, hd₁, hd₂⟩ := church_rosser hdiamond hr₁ hr₂
  exact ⟨d.1, ReflTransGen.lift Subtype.val (fun _ _ h => h) _ _ hd₁,
    ReflTransGen.lift Subtype.val (fun _ _ h => h) _ _ hd₂⟩

/-- **One final state**: every run from a memory can be carried on to it, and every run that
cannot be carried on is there. -/
theorem Ordered.exists_final [Fintype W] (ho : Ordered P R) (hal : Aligned P) (hl : Local P R)
    {b : ℕ} (hb : WritesAtMost b P) (m : A → V) :
    ∃ t, Done P t ∧ ∀ s, Run P m s → ReflTransGen (Step P) s t := by
  obtain ⟨t, ht, hdone⟩ := exists_done (s := State.init m) hal hb
  refine ⟨t, hdone, fun s hs => ?_⟩
  obtain ⟨d, hsd, htd⟩ := ho.join hal hl (Reachable.init m) hs ht
  rcases htd.cases_head with rfl | ⟨_, hstep, -⟩
  · exact hsd
  · exact absurd hstep (Done.no_step hdone)

end Steps

end FmhaNative.Races
