import Mathlib

/-!
Waves that share a memory through asynchronous operations.

Each wave runs its own list of instructions. An operation is issued into the queue of one of
the wave's two counters and its writes land one by one, in any order, at any later moment; a
queue retires in issue order. `wait c n` holds the wave until at most `n` operations of the
counter are outstanding, and `barrier` holds it until every wave has arrived. Nothing else
orders the waves.

`settled` gives the memory that a wave finds: it is enough to say, for one address, which
operation wrote it last, which wait and barrier complete that operation before the reader, and
that every other operation on the address is completed before it or not yet issued.
-/

namespace FmhaNative.AsyncWaves

/-- The two counters of a wave's outstanding operations: vector memory, and LDS. -/
inductive Counter
  | vm
  | lgkm
  deriving DecidableEq

/-- `issue` computes its writes from the memory at that moment. -/
inductive Instr (A V : Type*)
  | issue (c : Counter) (writes : (A → V) → List (A × V))
  | wait (c : Counter) (n : ℕ)
  | barrier
  | compute

def Instr.isBarrier {A V : Type*} : Instr A V → Bool
  | barrier => true
  | _ => false

/-- An outstanding operation: where it was issued, and the writes that have not landed. -/
structure Entry (A V : Type*) where
  pos : ℕ
  pending : List (A × V)

structure Wave (A V : Type*) where
  pc : ℕ
  queue : Counter → List (Entry A V)

structure State (W A V : Type*) where
  mem : A → V
  waves : W → Wave A V

variable {W A V : Type*} [DecidableEq W] [DecidableEq A]

def Wave.setQueue (x : Wave A V) (c : Counter) (q : List (Entry A V)) : Wave A V :=
  { x with queue := Function.update x.queue c q }

def Wave.advance (x : Wave A V) : Wave A V := { x with pc := x.pc + 1 }

def State.setWave (s : State W A V) (w : W) (x : Wave A V) : State W A V :=
  { s with waves := Function.update s.waves w x }

omit [DecidableEq A] in
lemma queue_setQueue (s : State W A V) (w w₀ : W) (c c₀ : Counter) (q : List (Entry A V)) :
    ((s.setWave w ((s.waves w).setQueue c q)).waves w₀).queue c₀
      = if w₀ = w ∧ c₀ = c then q else (s.waves w₀).queue c₀ := by
  by_cases hw : w₀ = w
  · subst hw
    by_cases hc : c₀ = c
    · subst hc
      simp [State.setWave, Wave.setQueue]
    · simp [State.setWave, Wave.setQueue, hc]
  · simp [State.setWave, hw]

omit [DecidableEq A] in
lemma pc_setQueue (s : State W A V) (w w₀ : W) (c : Counter) (q : List (Entry A V)) :
    ((s.setWave w ((s.waves w).setQueue c q)).waves w₀).pc = (s.waves w₀).pc := by
  by_cases hw : w₀ = w
  · subst hw
    simp [State.setWave, Wave.setQueue]
  · simp [State.setWave, hw]

omit [DecidableEq A] in
lemma queue_advance (s : State W A V) (w w₀ : W) (x : Wave A V) (c : Counter) :
    ((s.setWave w x.advance).waves w₀).queue c = ((s.setWave w x).waves w₀).queue c := by
  by_cases hw : w₀ = w
  · subst hw
    simp [State.setWave, Wave.advance]
  · simp [State.setWave, hw]

omit [DecidableEq A] in
lemma pc_advance (s : State W A V) (w w₀ : W) (x : Wave A V) (hx : x.pc = (s.waves w).pc) :
    ((s.setWave w x.advance).waves w₀).pc = (s.waves w₀).pc + if w₀ = w then 1 else 0 := by
  by_cases hw : w₀ = w
  · subst hw
    simp [State.setWave, Wave.advance, hx]
  · simp [State.setWave, hw]

omit [DecidableEq A] in
lemma setWave_self (s : State W A V) (w : W) : s.setWave w (s.waves w) = s := by
  simp [State.setWave]

/-- The number of barriers before a position. -/
def arrivals (prog : List (Instr A V)) (pc : ℕ) : ℕ := (prog.take pc).countP Instr.isBarrier

/-- Wave `w'` has arrived at the barrier that wave `w` is at, or is past it. -/
def Arrived (P : W → List (Instr A V)) (s : State W A V) (w w' : W) : Prop :=
  arrivals (P w) (s.waves w).pc < arrivals (P w') (s.waves w').pc ∨
    (arrivals (P w) (s.waves w).pc = arrivals (P w') (s.waves w').pc ∧
      (P w')[(s.waves w').pc]? = some .barrier)

inductive Step (P : W → List (Instr A V)) : State W A V → State W A V → Prop
  | issue {s : State W A V} {w : W} {c : Counter} {f : (A → V) → List (A × V)}
      (h : (P w)[(s.waves w).pc]? = some (.issue c f)) :
      Step P s (s.setWave w ((s.waves w).setQueue c
        ((s.waves w).queue c ++ [⟨(s.waves w).pc, f s.mem⟩])).advance)
  | wait {s : State W A V} {w : W} {c : Counter} {n : ℕ}
      (h : (P w)[(s.waves w).pc]? = some (.wait c n)) (hn : ((s.waves w).queue c).length ≤ n) :
      Step P s (s.setWave w (s.waves w).advance)
  | barrier {s : State W A V} {w : W} (h : (P w)[(s.waves w).pc]? = some .barrier)
      (hall : ∀ w', Arrived P s w w') : Step P s (s.setWave w (s.waves w).advance)
  | compute {s : State W A V} {w : W} (h : (P w)[(s.waves w).pc]? = some .compute) :
      Step P s (s.setWave w (s.waves w).advance)
  | land {s : State W A V} {w : W} {c : Counter} {xs ys : List (Entry A V)} {pos : ℕ}
      {us ws : List (A × V)} {x : A × V}
      (h : (s.waves w).queue c = xs ++ ⟨pos, us ++ x :: ws⟩ :: ys) :
      Step P s { mem := Function.update s.mem x.1 x.2
                 waves := (s.setWave w ((s.waves w).setQueue c
                   (xs ++ ⟨pos, us ++ ws⟩ :: ys))).waves }
  | retire {s : State W A V} {w : W} {c : Counter} {pos : ℕ} {ys : List (Entry A V)}
      (h : (s.waves w).queue c = ⟨pos, []⟩ :: ys) :
      Step P s (s.setWave w ((s.waves w).setQueue c ys))

/-- All waves at their first instruction, with nothing outstanding. -/
def State.init (m : A → V) : State W A V := ⟨m, fun _ => ⟨0, fun _ => []⟩⟩

inductive Reachable (P : W → List (Instr A V)) : State W A V → Prop
  | init (m : A → V) : Reachable P (State.init m)
  | step {s s' : State W A V} : Reachable P s → Step P s s' → Reachable P s'

/-! ### One queue -/

/-- What a queue holds when the wave is at `pc`: the latest operations of the counter, in issue
order, less than each wait before `pc` let through. -/
structure QueueInv (prog : List (Instr A V)) (c : Counter) (pc : ℕ) (q : List (Entry A V)) :
    Prop where
  sorted : (q.map Entry.pos).Pairwise (· < ·)
  below : ∀ e ∈ q, e.pos < pc
  source : ∀ e ∈ q, ∃ f m, prog[e.pos]? = some (.issue c f) ∧ ∀ x ∈ e.pending, x ∈ f m
  closed : ∀ e ∈ q, ∀ p f, e.pos < p → p < pc → prog[p]? = some (.issue c f) → p ∈ q.map Entry.pos
  waited : ∀ e ∈ q, ∀ j n, e.pos < j → j < pc → prog[j]? = some (.wait c n) →
    ∀ ps : Finset ℕ, (∀ p ∈ ps, e.pos < p ∧ p < j ∧ ∃ f, prog[p]? = some (.issue c f)) → ps.card < n

section Queue

variable {prog : List (Instr A V)} {c : Counter} {pc : ℕ} {q : List (Entry A V)}

omit [DecidableEq A]

lemma QueueInv.nil : QueueInv prog c pc [] where
  sorted := List.Pairwise.nil
  below _ he := absurd he List.not_mem_nil
  source _ he := absurd he List.not_mem_nil
  closed _ he := absurd he List.not_mem_nil
  waited _ he := absurd he List.not_mem_nil

lemma QueueInv.issue (h : QueueInv prog c pc q) {f : (A → V) → List (A × V)} (m : A → V)
    (hf : prog[pc]? = some (.issue c f)) : QueueInv prog c (pc + 1) (q ++ [⟨pc, f m⟩]) := by
  have hmem : ∀ e, e ∈ q ++ [⟨pc, f m⟩] → e ∈ q ∨ e = ⟨pc, f m⟩ := fun e he => by
    simpa using he
  refine ⟨?_, fun e he => ?_, fun e he => ?_, fun e he p g hp hpc hg => ?_,
    fun e he j n hj hpc hn ps hps => ?_⟩
  · rw [List.map_append, List.pairwise_append]
    refine ⟨h.sorted, List.pairwise_singleton _ _, fun a ha b hb => ?_⟩
    obtain ⟨e, he, rfl⟩ := List.mem_map.mp ha
    obtain rfl : b = pc := by simpa using hb
    exact h.below e he
  · rcases hmem e he with he | rfl
    · exact (h.below e he).trans (Nat.lt_succ_self pc)
    · exact Nat.lt_succ_self pc
  · rcases hmem e he with he | rfl
    · exact h.source e he
    · exact ⟨f, m, hf, fun x hx => hx⟩
  · rw [List.map_append, List.mem_append]
    rcases Nat.lt_succ_iff_lt_or_eq.mp hpc with hlt | rfl
    · rcases hmem e he with he | rfl
      · exact Or.inl (h.closed e he p g hp hlt hg)
      · exact absurd hlt (by simp only at hp; omega)
    · exact Or.inr (List.mem_singleton.mpr rfl)
  · have hjpc : j ≠ pc := by
      rintro rfl
      rw [hf] at hn
      cases hn
    rcases hmem e he with he | rfl
    · exact h.waited e he j n hj (by omega) hn ps hps
    · simp only at hj
      omega

/-- Any other instruction leaves the queue, a wait on it only when it is short enough. -/
lemma QueueInv.advance (h : QueueInv prog c pc q) (hissue : ∀ f, prog[pc]? ≠ some (.issue c f))
    (hwait : ∀ n, prog[pc]? = some (.wait c n) → q.length ≤ n) : QueueInv prog c (pc + 1) q := by
  refine ⟨h.sorted, fun e he => (h.below e he).trans (Nat.lt_succ_self pc), h.source,
    fun e he p f hp hpc hf => ?_, fun e he j n hj hpc hn ps hps => ?_⟩
  · rcases Nat.lt_succ_iff_lt_or_eq.mp hpc with hlt | rfl
    · exact h.closed e he p f hp hlt hf
    · exact absurd hf (hissue f)
  · rcases Nat.lt_succ_iff_lt_or_eq.mp hpc with hlt | rfl
    · exact h.waited e he j n hj hlt hn ps hps
    · -- the operations after `e`, and `e` itself, are all in the queue
      have hsub : insert e.pos ps ⊆ (q.map Entry.pos).toFinset := by
        intro p hp
        rw [List.mem_toFinset]
        rcases Finset.mem_insert.mp hp with rfl | hp
        · exact List.mem_map_of_mem he
        · obtain ⟨h1, h2, f, hf⟩ := hps p hp
          exact h.closed e he p f h1 h2 hf
      have hnot : e.pos ∉ ps := fun hp => absurd (hps _ hp).1 (lt_irrefl _)
      have hcard := (Finset.card_le_card hsub).trans (List.toFinset_card_le _)
      rw [Finset.card_insert_of_notMem hnot, List.length_map] at hcard
      have := hwait n hn
      omega

lemma QueueInv.land {xs ys : List (Entry A V)} {pos : ℕ} {us ws : List (A × V)} {x : A × V}
    (h : QueueInv prog c pc (xs ++ ⟨pos, us ++ x :: ws⟩ :: ys)) :
    QueueInv prog c pc (xs ++ ⟨pos, us ++ ws⟩ :: ys) := by
  -- the positions are the same, and the pending writes are fewer
  have hmap : (xs ++ ⟨pos, us ++ ws⟩ :: ys).map Entry.pos
      = (xs ++ ⟨pos, us ++ x :: ws⟩ :: ys).map Entry.pos := by
    simp only [List.map_append, List.map_cons]
  have hold : ∀ e ∈ xs ++ ⟨pos, us ++ ws⟩ :: ys, ∃ e' ∈ xs ++ ⟨pos, us ++ x :: ws⟩ :: ys,
      e'.pos = e.pos ∧ ∀ y ∈ e.pending, y ∈ e'.pending := by
    intro e he
    simp only [List.mem_append, List.mem_cons] at he ⊢
    rcases he with he | rfl | he
    · exact ⟨e, Or.inl he, rfl, fun y hy => hy⟩
    · refine ⟨_, Or.inr (Or.inl rfl), rfl, fun y hy => ?_⟩
      simp only [List.mem_append, List.mem_cons] at hy ⊢
      exact hy.imp_right Or.inr
    · exact ⟨e, Or.inr (Or.inr he), rfl, fun y hy => hy⟩
  refine ⟨hmap ▸ h.sorted, fun e he => ?_, fun e he => ?_, fun e he p f hp hpc hf => ?_,
    fun e he j n hj hpc hn ps hps => ?_⟩ <;> obtain ⟨e', he', hpos, hsub⟩ := hold e he
  · exact hpos ▸ h.below e' he'
  · obtain ⟨f, m, hf, hm⟩ := h.source e' he'
    exact ⟨f, m, hpos ▸ hf, fun y hy => hm y (hsub y hy)⟩
  · rw [hmap]
    exact h.closed e' he' p f (hpos ▸ hp) hpc hf
  · exact h.waited e' he' j n (hpos ▸ hj) hpc hn ps (hpos ▸ hps)

lemma QueueInv.retire {e : Entry A V} {ys : List (Entry A V)}
    (h : QueueInv prog c pc (e :: ys)) : QueueInv prog c pc ys := by
  have hsorted := List.pairwise_cons.mp h.sorted
  refine ⟨hsorted.2, fun e' he' => h.below e' (List.mem_cons_of_mem _ he'),
    fun e' he' => h.source e' (List.mem_cons_of_mem _ he'), fun e' he' p f hp hpc hf => ?_,
    fun e' he' => h.waited e' (List.mem_cons_of_mem _ he')⟩
  have hmem := h.closed e' (List.mem_cons_of_mem _ he') p f hp hpc hf
  rcases List.mem_cons.mp hmem with rfl | hmem
  · -- the retired operation is the oldest
    have := hsorted.1 _ (List.mem_map_of_mem he')
    omega
  · exact hmem

end Queue

/-! ### All waves -/

/-- Barriers stand at the same places in all programs. -/
def Aligned (P : W → List (Instr A V)) : Prop :=
  ∀ (w w' : W) (k : ℕ), (P w)[k]? = some Instr.barrier → (P w')[k]? = some Instr.barrier

structure Inv (P : W → List (Instr A V)) (s : State W A V) : Prop where
  queues : ∀ w c, QueueInv (P w) c (s.waves w).pc ((s.waves w).queue c)
  barriers : ∀ w w' k, (P w)[k]? = some Instr.barrier → k < (s.waves w).pc →
    k ≤ (s.waves w').pc

section Waves

variable {P : W → List (Instr A V)} {s s' : State W A V}

omit [DecidableEq A] in
/-- A step of one wave keeps the invariant when it keeps the wave's queues, does not go back,
and passes a barrier only after all have arrived. -/
lemma Inv.update (hi : Inv P s) {w : W} {x : Wave A V} {m : A → V}
    (hq : ∀ c, QueueInv (P w) c x.pc (x.queue c)) (hpc : (s.waves w).pc ≤ x.pc)
    (hb : ∀ k, (P w)[k]? = some Instr.barrier → k < x.pc →
      k < (s.waves w).pc ∨ ∀ w', k ≤ (s.waves w').pc) :
    Inv P { mem := m, waves := (s.setWave w x).waves } := by
  have hge : ∀ w', (s.waves w').pc ≤ (Function.update s.waves w x w').pc := fun w' => by
    by_cases hw : w' = w
    · subst hw
      rwa [Function.update_self]
    · rw [Function.update_of_ne hw]
  refine ⟨fun w₁ c => ?_, fun w₁ w₂ k hk hlt => ?_⟩
  · simp only [State.setWave]
    by_cases hw : w₁ = w
    · subst hw
      rw [Function.update_self]
      exact hq c
    · rw [Function.update_of_ne hw]
      exact hi.queues w₁ c
  · simp only [State.setWave] at hlt ⊢
    apply le_trans _ (hge w₂)
    by_cases hw : w₁ = w
    · subst hw
      rw [Function.update_self] at hlt
      rcases hb k hk hlt with hold | hall
      · exact hi.barriers w₁ w₂ k hk hold
      · exact hall w₂
    · rw [Function.update_of_ne hw] at hlt
      exact hi.barriers w₁ w₂ k hk hlt

omit [DecidableEq W] [DecidableEq A] in
lemma arrivals_succ (prog : List (Instr A V)) (p : ℕ) :
    arrivals prog (p + 1) = arrivals prog p + (prog[p]?.toList.countP Instr.isBarrier) := by
  unfold arrivals
  rw [List.take_add_one, List.countP_append]

omit [DecidableEq W] [DecidableEq A] in
lemma arrivals_mono (prog : List (Instr A V)) {p q : ℕ} (h : p ≤ q) :
    arrivals prog p ≤ arrivals prog q := by
  induction q, h using Nat.le_induction with
  | base => exact le_rfl
  | succ q _ ih =>
    rw [arrivals_succ]
    exact ih.trans (Nat.le_add_right _ _)

omit [DecidableEq W] [DecidableEq A] in
lemma count_of_ne {i : Option (Instr A V)} (h : i ≠ some Instr.barrier) :
    i.toList.countP Instr.isBarrier = 0 := by
  rcases i with _ | _ | _ | _ | _
  · rfl
  · rfl
  · rfl
  · exact absurd rfl h
  · rfl

omit [DecidableEq W] [DecidableEq A] in
lemma Aligned.arrivals_eq (hal : Aligned P) (w w' : W) (p : ℕ) :
    arrivals (P w) p = arrivals (P w') p := by
  induction p with
  | zero => rfl
  | succ p ih =>
    rw [arrivals_succ, arrivals_succ, ih]
    by_cases hb : (P w)[p]? = some Instr.barrier
    · rw [hb, hal w w' p hb]
    · have hb' : (P w')[p]? ≠ some Instr.barrier := fun h => hb (hal w' w p h)
      rw [count_of_ne hb, count_of_ne hb']

omit [DecidableEq W] [DecidableEq A] in
/-- A wave that arrived at the barrier at the other's position is not behind it. -/
lemma Arrived.le (hal : Aligned P) {w w' : W} (ha : Arrived P s w w') :
    (s.waves w).pc ≤ (s.waves w').pc := by
  by_contra hlt
  push Not at hlt
  unfold Arrived at ha
  rw [hal.arrivals_eq w' w] at ha
  rcases ha with hless | ⟨heq, hbar⟩
  · exact absurd (arrivals_mono (P w) hlt.le) (not_le.mpr hless)
  · -- the barrier at the position behind is counted
    have hstep := arrivals_mono (P w) (Nat.succ_le_of_lt hlt)
    rw [arrivals_succ, hal w' w _ hbar] at hstep
    simp only [Option.toList_some, List.countP_singleton, Instr.isBarrier, if_true] at hstep
    omega

omit [DecidableEq A] in
/-- An instruction that issues nothing. -/
lemma Inv.advance (hi : Inv P s) {w : W}
    (hissue : ∀ c f, (P w)[(s.waves w).pc]? ≠ some (.issue c f))
    (hwait : ∀ c n, (P w)[(s.waves w).pc]? = some (.wait c n) →
      ((s.waves w).queue c).length ≤ n)
    (hb : (P w)[(s.waves w).pc]? = some Instr.barrier → ∀ w', (s.waves w).pc ≤ (s.waves w').pc) :
    Inv P (s.setWave w (s.waves w).advance) := by
  refine hi.update (fun c => (hi.queues w c).advance (hissue c) (hwait c)) (Nat.le_succ _)
    fun k hk hlt => ?_
  rcases Nat.lt_succ_iff_lt_or_eq.mp hlt with hlt | rfl
  · exact Or.inl hlt
  · exact Or.inr (hb hk)

/-- **Every step keeps the invariant.** -/
theorem step_inv (hal : Aligned P) (hi : Inv P s) (h : Step P s s') : Inv P s' := by
  cases h with
  | @issue w c f h =>
    refine hi.update (fun c' => ?_) (Nat.le_succ _) fun k hk hlt => ?_
    · by_cases hc : c' = c
      · subst hc
        simpa only [Wave.advance, Wave.setQueue, Function.update_self] using
          (hi.queues w c').issue s.mem h
      · simp only [Wave.advance, Wave.setQueue, Function.update_of_ne hc]
        refine (hi.queues w c').advance (fun g hg => hc ?_) fun n hn => ?_
        · rw [h] at hg
          exact (Instr.issue.inj (Option.some.inj hg)).1.symm
        · rw [h] at hn
          cases hn
    · rcases Nat.lt_succ_iff_lt_or_eq.mp hlt with hlt | rfl
      · exact Or.inl hlt
      · have hk' : (P w)[(s.waves w).pc]? = some Instr.barrier := hk
        rw [h] at hk'
        cases hk'
  | @wait w c n h hn =>
    refine hi.advance (fun c' f hf => ?_) (fun c' n' hn' => ?_) fun hb => ?_
    · rw [h] at hf
      cases hf
    · rw [h] at hn'
      obtain ⟨rfl, rfl⟩ := Instr.wait.inj (Option.some.inj hn')
      exact hn
    · rw [h] at hb
      cases hb
  | @barrier w h hall =>
    refine hi.advance (fun c f hf => ?_) (fun c n hn => ?_) fun _ w' => (hall w').le hal
    · rw [h] at hf
      cases hf
    · rw [h] at hn
      cases hn
  | @compute w h =>
    refine hi.advance (fun c f hf => ?_) (fun c n hn => ?_) fun hb => ?_
    · rw [h] at hf
      cases hf
    · rw [h] at hn
      cases hn
    · rw [h] at hb
      cases hb
  | @land w c xs ys pos us ws x h =>
    refine hi.update (fun c' => ?_) le_rfl fun k _ hlt => Or.inl hlt
    by_cases hc : c' = c
    · subst hc
      have hq := hi.queues w c'
      rw [h] at hq
      simpa only [Wave.setQueue, Function.update_self] using hq.land
    · simpa only [Wave.setQueue, Function.update_of_ne hc] using hi.queues w c'
  | @retire w c pos ys h =>
    refine hi.update (fun c' => ?_) le_rfl fun k _ hlt => Or.inl hlt
    by_cases hc : c' = c
    · subst hc
      have hq := hi.queues w c'
      rw [h] at hq
      simpa only [Wave.setQueue, Function.update_self] using hq.retire
    · simpa only [Wave.setQueue, Function.update_of_ne hc] using hi.queues w c'

/-- **Every reachable state satisfies the invariant.** -/
theorem reachable_inv (hal : Aligned P) (h : Reachable P s) : Inv P s := by
  induction h with
  | init m => exact ⟨fun _ _ => QueueInv.nil, fun _ _ _ _ hlt => absurd hlt (Nat.not_lt_zero _)⟩
  | step _ hs ih => exact step_inv hal ih hs

/-! ### What a wave finds -/

/-- The wait at `j` lets the operation at `i` through: it is issued into the waited counter
before, and at least as many operations of the counter as may stay outstanding follow it. -/
def Covers (prog : List (Instr A V)) (c : Counter) (i j : ℕ) : Prop :=
  i < j ∧ ∃ n, prog[j]? = some (.wait c n) ∧ ∃ ps : Finset ℕ, n ≤ ps.card ∧
    ∀ p ∈ ps, i < p ∧ p < j ∧ ∃ f, prog[p]? = some (.issue c f)

omit [DecidableEq A] [DecidableEq W] in
/-- A wait for an empty queue lets all through. -/
lemma Covers.of_zero {prog : List (Instr A V)} {c : Counter} {i j : ℕ} (hij : i < j)
    (h : prog[j]? = some (.wait c 0)) : Covers prog c i j :=
  ⟨hij, 0, h, ∅, Nat.zero_le _, fun p hp => absurd hp (Finset.notMem_empty p)⟩

/-- The operation of wave `w` at `i` has landed when wave `w'` is at `q`: a wait covers it, and
stands before `q` in the same wave or is followed by a barrier before `q`. -/
def Completed (P : W → List (Instr A V)) (w : W) (i : ℕ) (w' : W) (q : ℕ) : Prop :=
  ∃ c f j, (P w)[i]? = some (.issue c f) ∧ Covers (P w) c i j ∧
    ((w = w' ∧ j < q) ∨ ∃ k, (P w')[k]? = some Instr.barrier ∧ j < k ∧ k < q)

/-- The operation of wave `w'` at `p` is not issued while wave `w` is no further than `r`. -/
def NotYet (P : W → List (Instr A V)) (w : W) (r : ℕ) (w' : W) (p : ℕ) : Prop :=
  (w = w' ∧ r ≤ p) ∨ ∃ k, (P w')[k]? = some Instr.barrier ∧ r < k ∧ k < p

omit [DecidableEq W] [DecidableEq A] in
lemma Inv.pos_ne_of_completed (hi : Inv P s) {w w' : W} {i q : ℕ} (hc : Completed P w i w' q)
    (hq : q ≤ (s.waves w').pc) (c : Counter) {e : Entry A V} (he : e ∈ (s.waves w).queue c) :
    e.pos ≠ i := by
  rintro rfl
  obtain ⟨c', f, j, hf, ⟨hij, n, hn, ps, hcard, hps⟩, hord⟩ := hc
  obtain ⟨g, m, hg, -⟩ := (hi.queues w c).source e he
  rw [hf] at hg
  obtain ⟨rfl, -⟩ := Instr.issue.inj (Option.some.inj hg)
  have hj : j < (s.waves w).pc := by
    rcases hord with ⟨rfl, hjq⟩ | ⟨k, hk, hjk, hkq⟩
    · omega
    · have := hi.barriers w' w k hk (by omega)
      omega
  have := (hi.queues w c').waited e he j n hij hj hn ps hps
  omega

omit [DecidableEq W] [DecidableEq A] in
lemma Inv.not_issued (hi : Inv P s) {w w' : W} {r p : ℕ} (hn : NotYet P w r w' p)
    (hr : (s.waves w).pc ≤ r) : (s.waves w').pc ≤ p := by
  rcases hn with ⟨rfl, hrp⟩ | ⟨k, hk, hrk, hkp⟩
  · omega
  · by_contra hlt
    have := hi.barriers w' w k hk (by omega)
    omega

/-- Address `a` between the issue of its last write, of `v` by wave `w₀` at `i`, and the moment
wave `w` goes past `r`: the write is on its way, or the address holds `v`. -/
structure Landing (w₀ : W) (i : ℕ) (w : W) (r : ℕ) (a : A) (v : V) (s : State W A V) : Prop where
  only : ∀ c, ∀ e ∈ (s.waves w₀).queue c, e.pos = i → ∀ u, (a, u) ∈ e.pending → u = v
  value : i < (s.waves w₀).pc → (s.waves w).pc ≤ r →
    (∃ c, ∃ e ∈ (s.waves w₀).queue c, e.pos = i ∧ (a, v) ∈ e.pending) ∨ s.mem a = v

/-- What one address sees: the write of `v` by wave `w₀` at `i` is the last before wave `w`
reaches `r`. The operation at `i` writes `v` and nothing else to `a`; it is completed at `r`;
every other operation that writes `a` is completed at `i` or not issued until `r`. -/
structure LastWrite (P : W → List (Instr A V)) (w₀ : W) (i : ℕ) (w : W) (r : ℕ) (a : A) (v : V) :
    Prop where
  writes : ∀ s, Reachable P s → (s.waves w₀).pc = i → ∃ c f, (P w₀)[i]? = some (.issue c f) ∧
    (a, v) ∈ f s.mem ∧ ∀ u, (a, u) ∈ f s.mem → u = v
  completed : Completed P w₀ i w r
  others : ∀ w' p c f m u, (P w')[p]? = some (.issue c f) → (a, u) ∈ f m →
    (w' = w₀ ∧ p = i) ∨ Completed P w' p w₀ i ∨ NotYet P w r w' p

section Landing

variable {w₀ w : W} {i r : ℕ} {a : A} {v : V}

omit [DecidableEq A] in
/-- Past an instruction that issues nothing. -/
lemma Landing.skip (hl : Landing w₀ i w r a v s) {w₁ : W}
    (hne : w₀ = w₁ → (s.waves w₁).pc ≠ i) :
    Landing w₀ i w r a v (s.setWave w₁ (s.waves w₁).advance) := by
  have hq : ∀ c, ((s.setWave w₁ (s.waves w₁).advance).waves w₀).queue c
      = (s.waves w₀).queue c := fun c => by rw [queue_advance, setWave_self]
  refine ⟨fun c e he => hl.only c e (hq c ▸ he), fun hlt hle => ?_⟩
  rw [pc_advance _ _ _ _ rfl] at hlt hle
  have hlt' : i < (s.waves w₀).pc := by
    split_ifs at hlt with hw
    · have := hne hw
      subst hw
      omega
    · exact hlt
  simp only [hq]
  exact hl.value hlt' (by omega)

omit [DecidableEq A] in
lemma Landing.issue (hl : Landing w₀ i w r a v s) {w₁ : W} {c : Counter}
    {f : (A → V) → List (A × V)}
    (hwrite : w₀ = w₁ → (s.waves w₁).pc = i → (a, v) ∈ f s.mem ∧ ∀ u, (a, u) ∈ f s.mem → u = v) :
    Landing w₀ i w r a v (s.setWave w₁ ((s.waves w₁).setQueue c
      ((s.waves w₁).queue c ++ [⟨(s.waves w₁).pc, f s.mem⟩])).advance) := by
  refine ⟨fun c' e he hpos u hu => ?_, fun hlt hle => ?_⟩
  · rw [queue_advance, queue_setQueue] at he
    split_ifs at he with hw
    · obtain ⟨rfl, rfl⟩ := hw
      rcases List.mem_append.mp he with he | he
      · exact hl.only c' e he hpos u hu
      · obtain rfl := List.mem_singleton.mp he
        exact (hwrite rfl hpos).2 u hu
    · exact hl.only c' e he hpos u hu
  · rw [pc_advance _ _ _ ((s.waves w₁).setQueue c _) rfl] at hlt hle
    simp only [queue_advance, queue_setQueue]
    by_cases hnew : w₀ = w₁ ∧ (s.waves w₁).pc = i
    · -- the write is issued now
      obtain ⟨rfl, hpc⟩ := hnew
      refine Or.inl ⟨c, ⟨(s.waves w₀).pc, f s.mem⟩, ?_, hpc, (hwrite rfl hpc).1⟩
      rw [if_pos ⟨rfl, rfl⟩]
      exact List.mem_append_right _ (List.mem_singleton.mpr rfl)
    · have hlt' : i < (s.waves w₀).pc := by
        split_ifs at hlt with hw
        · have hpc : (s.waves w₁).pc ≠ i := fun h => hnew ⟨hw, h⟩
          subst hw
          omega
        · exact hlt
      apply (hl.value hlt' (by omega)).imp_left
      rintro ⟨c', e, he, hpos, hav⟩
      refine ⟨c', e, ?_, hpos, hav⟩
      split_ifs with hw
      · obtain ⟨rfl, rfl⟩ := hw
        exact List.mem_append_left _ he
      · exact he

lemma Landing.land (hl : Landing w₀ i w r a v s) {w₁ : W} {c : Counter} {xs ys : List (Entry A V)}
    {pos : ℕ} {us ws : List (A × V)} {x : A × V}
    (h : (s.waves w₁).queue c = xs ++ ⟨pos, us ++ x :: ws⟩ :: ys)
    (hx : i < (s.waves w₀).pc → (s.waves w).pc ≤ r → x.1 = a → x.2 = v) :
    Landing w₀ i w r a v { mem := Function.update s.mem x.1 x.2
                           waves := (s.setWave w₁ ((s.waves w₁).setQueue c
                             (xs ++ ⟨pos, us ++ ws⟩ :: ys))).waves } := by
  refine ⟨fun c' e he hpos u hu => ?_, fun hlt hle => ?_⟩
  · rw [queue_setQueue] at he
    split_ifs at he with hw
    · obtain ⟨rfl, rfl⟩ := hw
      -- an entry of the queue, or what is left of the one that lands
      simp only [List.mem_append, List.mem_cons] at he
      rcases he with he | rfl | he
      · exact hl.only c' e (by rw [h]; simp [he]) hpos u hu
      · refine hl.only c' ⟨pos, us ++ x :: ws⟩ (by rw [h]; simp) hpos u ?_
        simp only [List.mem_append, List.mem_cons] at hu ⊢
        exact hu.imp_right Or.inr
      · exact hl.only c' e (by rw [h]; simp [he]) hpos u hu
    · exact hl.only c' e he hpos u hu
  · rw [pc_setQueue] at hlt hle
    simp only [queue_setQueue]
    by_cases hxa : x.1 = a
    · right
      rw [hxa, Function.update_self]
      exact hx hlt hle hxa
    · rw [Function.update_of_ne (Ne.symm hxa)]
      apply (hl.value hlt hle).imp_left
      rintro ⟨c', e, he, hpos, hav⟩
      by_cases hw : w₀ = w₁ ∧ c' = c
      · obtain ⟨rfl, rfl⟩ := hw
        rw [h] at he
        simp only [List.mem_append, List.mem_cons] at he
        rcases he with he | rfl | he
        · exact ⟨c', e, by simp [he], hpos, hav⟩
        · refine ⟨c', ⟨pos, us ++ ws⟩, by simp, hpos, ?_⟩
          simp only [List.mem_append, List.mem_cons] at hav ⊢
          rcases hav with hav | rfl | hav
          · exact Or.inl hav
          · exact absurd rfl hxa
          · exact Or.inr hav
        · exact ⟨c', e, by simp [he], hpos, hav⟩
      · exact ⟨c', e, by rwa [if_neg hw], hpos, hav⟩

omit [DecidableEq A] in
lemma Landing.retire (hl : Landing w₀ i w r a v s) {w₁ : W} {c : Counter} {pos : ℕ}
    {ys : List (Entry A V)} (h : (s.waves w₁).queue c = ⟨pos, []⟩ :: ys) :
    Landing w₀ i w r a v (s.setWave w₁ ((s.waves w₁).setQueue c ys)) := by
  refine ⟨fun c' e he hpos u hu => ?_, fun hlt hle => ?_⟩
  · rw [queue_setQueue] at he
    split_ifs at he with hw
    · obtain ⟨rfl, rfl⟩ := hw
      exact hl.only c' e (by rw [h]; exact List.mem_cons_of_mem _ he) hpos u hu
    · exact hl.only c' e he hpos u hu
  · rw [pc_setQueue] at hlt hle
    simp only [queue_setQueue]
    apply (hl.value hlt hle).imp_left
    rintro ⟨c', e, he, hpos, hav⟩
    refine ⟨c', e, ?_, hpos, hav⟩
    split_ifs with hw
    · obtain ⟨rfl, rfl⟩ := hw
      rw [h] at he
      rcases List.mem_cons.mp he with rfl | he
      · exact absurd hav List.not_mem_nil
      · exact he
    · exact he

end Landing

/-- Every reachable state keeps the address landing. -/
lemma LastWrite.landing {w₀ w : W} {i r : ℕ} {a : A} {v : V} (hal : Aligned P)
    (hw : LastWrite P w₀ i w r a v) (h : Reachable P s) : Landing w₀ i w r a v s := by
  induction h with
  | init m => exact ⟨fun _ _ he => absurd he List.not_mem_nil, fun hlt => absurd hlt (Nat.not_lt_zero _)⟩
  | @step s s' hs hstep ih =>
    have hi := reachable_inv hal hs
    have hne : ∀ w₁, (∀ c f, (P w₁)[(s.waves w₁).pc]? ≠ some (.issue c f)) →
        w₀ = w₁ → (s.waves w₁).pc ≠ i := by
      rintro w₁ hno rfl hpc
      obtain ⟨c, f, hf, -⟩ := hw.writes s hs hpc
      exact hno c f (hpc ▸ hf)
    cases hstep with
    | @issue w₁ c f h =>
      refine ih.issue fun hww hpc => ?_
      subst hww
      obtain ⟨c', f', hf', hav, honly⟩ := hw.writes s hs hpc
      rw [← hpc, h] at hf'
      obtain ⟨rfl, rfl⟩ := Instr.issue.inj (Option.some.inj hf')
      exact ⟨hav, honly⟩
    | @wait w₁ c n h hn =>
      refine ih.skip (hne w₁ fun c f hf => ?_)
      rw [h] at hf
      cases hf
    | @barrier w₁ h hall =>
      refine ih.skip (hne w₁ fun c f hf => ?_)
      rw [h] at hf
      cases hf
    | @compute w₁ h =>
      refine ih.skip (hne w₁ fun c f hf => ?_)
      rw [h] at hf
      cases hf
    | @land w₁ c xs ys pos us ws x h =>
      refine ih.land h fun hlt hle hxa => ?_
      have he : (⟨pos, us ++ x :: ws⟩ : Entry A V) ∈ (s.waves w₁).queue c := by
        rw [h]
        simp
      have hxp : (a, x.2) ∈ us ++ x :: ws := by
        rw [← hxa]
        simp
      obtain ⟨f, m, hf, hm⟩ := (hi.queues w₁ c).source _ he
      rcases hw.others w₁ pos c f m x.2 hf (hm _ hxp) with ⟨rfl, rfl⟩ | hc | hn
      · exact ih.only c _ he rfl x.2 hxp
      · exact absurd rfl (hi.pos_ne_of_completed hc hlt.le c he)
      · have hbelow := (hi.queues w₁ c).below _ he
        have hge := hi.not_issued hn hle
        simp only at hbelow
        omega
    | @retire w₁ c pos ys h => exact ih.retire h

/-- **What a wave finds**: at `r` the address holds the last write, in every interleaving and
whenever the writes land. -/
theorem settled {w₀ w : W} {i r : ℕ} {a : A} {v : V} (hal : Aligned P)
    (hw : LastWrite P w₀ i w r a v) (h : Reachable P s) (hr : (s.waves w).pc = r) :
    s.mem a = v := by
  have hi := reachable_inv hal h
  have hissued : i < (s.waves w₀).pc := by
    obtain ⟨c, f, j, -, ⟨hij, -⟩, ⟨rfl, hj⟩ | ⟨k, hk, hjk, hkr⟩⟩ := hw.completed
    · omega
    · have := hi.barriers w w₀ k hk (by omega)
      omega
  rcases (hw.landing hal h).value hissued hr.le with ⟨c, e, he, hpos, -⟩ | hmem
  · exact absurd hpos (hi.pos_ne_of_completed hw.completed hr.ge c he)
  · exact hmem

/-! ### Progress -/

/-- The writes of a queue can land, and its operations retire. -/
lemma exists_drained (hs : Reachable P s) (w : W) (c : Counter) :
    ∃ s', Reachable P s' ∧ (∀ w', (s'.waves w').pc = (s.waves w').pc) ∧
      ∀ w' c', (s'.waves w').queue c' = if w' = w ∧ c' = c then [] else (s.waves w').queue c' := by
  obtain ⟨q, hq⟩ : ∃ q, (s.waves w).queue c = q := ⟨_, rfl⟩
  induction q generalizing s with
  | nil =>
    refine ⟨s, hs, fun _ => rfl, fun w' c' => ?_⟩
    split_ifs with hw
    · obtain ⟨rfl, rfl⟩ := hw
      exact hq
    · rfl
  | cons e ys ihq =>
    obtain ⟨pos, us⟩ := e
    induction us generalizing s with
    | nil =>
      have hr := hs.step (Step.retire hq)
      obtain ⟨s', hs', hpc, hqueue⟩ := ihq hr (by rw [queue_setQueue, if_pos ⟨rfl, rfl⟩])
      refine ⟨s', hs', fun w' => by rw [hpc, pc_setQueue], fun w' c' => ?_⟩
      rw [hqueue, queue_setQueue]
      split_ifs <;> rfl
    | cons x ws ihw =>
      have hq' : (s.waves w).queue c = [] ++ ⟨pos, [] ++ x :: ws⟩ :: ys := hq
      have hl := hs.step (Step.land hq')
      obtain ⟨s', hs', hpc, hqueue⟩ := ihw hl (by rw [queue_setQueue, if_pos ⟨rfl, rfl⟩]; rfl)
      refine ⟨s', hs', fun w' => by rw [hpc, pc_setQueue], fun w' c' => ?_⟩
      rw [hqueue, queue_setQueue]
      split_ifs <;> rfl

/-- The waves of `S` are one instruction ahead of the others, with nothing outstanding. -/
structure Ahead (S : Finset W) (p : ℕ) (s : State W A V) : Prop where
  pc : ∀ w, (s.waves w).pc = p + if w ∈ S then 1 else 0
  queue : ∀ w c, (s.waves w).queue c = []

omit [DecidableEq A] in
/-- All waves arrive at a barrier together. -/
lemma Ahead.arrived (hal : Aligned P) {S : Finset W} {p : ℕ} (ha : Ahead S p s) {w : W}
    (hw : w ∉ S) (hb : (P w)[p]? = some Instr.barrier) (w' : W) : Arrived P s w w' := by
  have hpw : (s.waves w).pc = p := by rw [ha.pc, if_neg hw, add_zero]
  unfold Arrived
  rw [hpw, ha.pc w', hal.arrivals_eq w w']
  by_cases hS : w' ∈ S
  · left
    rw [if_pos hS, arrivals_succ, hal w w' p hb]
    exact Nat.lt_succ_self _
  · right
    rw [if_neg hS, add_zero]
    exact ⟨rfl, hal w w' p hb⟩

omit [DecidableEq A] in
lemma Ahead.insert {S : Finset W} {p : ℕ} (ha : Ahead S p s) {w : W} (hw : w ∉ S) {s' : State W A V}
    (hpc : ∀ w', (s'.waves w').pc = (s.waves w').pc + if w' = w then 1 else 0)
    (hq : ∀ w' c, (s'.waves w').queue c = []) : Ahead (insert w S) p s' := by
  refine ⟨fun w' => ?_, hq⟩
  rw [hpc, ha.pc]
  by_cases hww : w' = w
  · subst hww
    rw [if_neg hw, if_pos rfl, if_pos (Finset.mem_insert_self _ _)]
  · rw [if_neg hww, add_zero]
    simp only [Finset.mem_insert, hww, false_or]

/-- A wave that is behind can catch up. -/
lemma exists_ahead_insert (hal : Aligned P) {S : Finset W} {p : ℕ} (hs : Reachable P s)
    (ha : Ahead S p s) {w : W} (hw : w ∉ S) (hlt : p < (P w).length) :
    ∃ s', Reachable P s' ∧ Ahead (insert w S) p s' := by
  have hpw : (s.waves w).pc = p := by rw [ha.pc, if_neg hw, add_zero]
  have hq : ∀ w' c, ((s.setWave w (s.waves w).advance).waves w').queue c = [] := fun w' c => by
    rw [queue_advance, setWave_self, ha.queue]
  have hpc : ∀ w', ((s.setWave w (s.waves w).advance).waves w').pc
      = (s.waves w').pc + if w' = w then 1 else 0 := fun w' => pc_advance _ _ _ _ rfl
  obtain ⟨ins, hins⟩ : ∃ ins, (P w)[(s.waves w).pc]? = some ins :=
    ⟨_, List.getElem?_eq_getElem (by rwa [hpw])⟩
  cases ins with
  | issue c f =>
    obtain ⟨s', hs', hpc', hq'⟩ := exists_drained (hs.step (Step.issue hins)) w c
    refine ⟨s', hs', ha.insert hw (fun w' => ?_) fun w' c' => ?_⟩
    · rw [hpc']
      exact pc_advance _ _ _ ((s.waves w).setQueue c _) rfl
    · rw [hq', queue_advance, queue_setQueue]
      split_ifs
      · rfl
      · exact ha.queue w' c'
  | wait c n => exact ⟨_, hs.step (Step.wait hins (by rw [ha.queue]; exact Nat.zero_le n)),
      ha.insert hw hpc hq⟩
  | barrier => exact ⟨_, hs.step (Step.barrier hins fun w' => ha.arrived hal hw (hpw ▸ hins) w'),
      ha.insert hw hpc hq⟩
  | compute => exact ⟨_, hs.step (Step.compute hins), ha.insert hw hpc hq⟩

/-- **No deadlock**: every position is reached, by all waves together. -/
theorem exists_reachable [Fintype W] (hal : Aligned P) (m : A → V) {p : ℕ}
    (hp : ∀ w, p ≤ (P w).length) :
    ∃ s, Reachable P s ∧ ∀ w, (s.waves w).pc = p := by
  have key : ∃ s, Reachable P s ∧ Ahead ∅ p s := by
    induction p with
    | zero => exact ⟨_, Reachable.init m, fun w => rfl, fun w c => rfl⟩
    | succ p ih =>
      obtain ⟨s, hs, ha⟩ := ih fun w => (Nat.le_succ p).trans (hp w)
      have hall : ∀ S : Finset W, ∃ s, Reachable P s ∧ Ahead S p s := by
        intro S
        induction S using Finset.induction_on with
        | empty => exact ⟨s, hs, ha⟩
        | insert w S hw ihS =>
          obtain ⟨s₁, hs₁, ha₁⟩ := ihS
          exact exists_ahead_insert hal hs₁ ha₁ hw (hp w)
      obtain ⟨s', hs', ha'⟩ := hall Finset.univ
      refine ⟨s', hs', fun w => ?_, ha'.queue⟩
      rw [ha'.pc, if_pos (Finset.mem_univ w), if_neg (Finset.notMem_empty w)]
  obtain ⟨s, hs, ha⟩ := key
  exact ⟨s, hs, fun w => by rw [ha.pc, if_neg (Finset.notMem_empty w), add_zero]⟩

end Waves

end FmhaNative.AsyncWaves
