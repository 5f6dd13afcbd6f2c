import FmhaNative.AsyncWaves

/-!
Whole runs of waves over a shared memory: they end, they do not get stuck, and what the waves
compute on the way.

A run ends because every step uses up an instruction, a pending write or an outstanding
operation. It does not get stuck before all waves are done because the wave that is furthest
behind can always go on. What a wave computes from the memory is a state of its own that only
its own steps change; `computed` brings it to a fold over the wave's program.
-/

namespace FmhaNative.WaveRuns

open AsyncWaves

variable {W A V : Type*} [DecidableEq W] [DecidableEq A]
variable {P : W → List (Instr A V)} {s s' : State W A V}

/-- All waves are past their last instruction, with nothing outstanding. -/
structure Done (P : W → List (Instr A V)) (s : State W A V) : Prop where
  pc : ∀ w, (P w).length ≤ (s.waves w).pc
  queue : ∀ w c, (s.waves w).queue c = []

/-! ### No deadlock -/

/-- An outstanding operation lands a write or retires. -/
lemma exists_step_of_queue {w : W} {c : Counter}
    (h : (s.waves w).queue c ≠ []) : ∃ s', Step P s s' := by
  obtain ⟨e, ys, hq⟩ := List.exists_cons_of_ne_nil h
  obtain ⟨pos, us⟩ := e
  cases us with
  | nil => exact ⟨_, Step.retire hq⟩
  | cons x ws =>
    have hland : (s.waves w).queue c = [] ++ ⟨pos, [] ++ x :: ws⟩ :: ys := hq
    exact ⟨_, Step.land hland⟩

omit [DecidableEq W] [DecidableEq A] in
/-- The wave furthest behind, at a barrier, waits for none: the others are at a barrier as well or
past this one. -/
lemma arrived_of_behind (hal : Aligned P) {w w' : W} (hle : (s.waves w).pc ≤ (s.waves w').pc)
    (hb : (P w)[(s.waves w).pc]? = some Instr.barrier)
    (hw' : (P w').length ≤ (s.waves w').pc ∨ (P w')[(s.waves w').pc]? = some Instr.barrier) :
    Arrived P s w w' := by
  unfold Arrived
  rw [hal.arrivals_eq w w']
  have hb' := hal w w' _ hb
  have hcount : arrivals (P w') (s.waves w).pc < arrivals (P w') ((s.waves w).pc + 1) := by
    rw [arrivals_succ, hb']
    exact Nat.lt_succ_self _
  rcases hle.lt_or_eq with hlt | heq
  · exact Or.inl (hcount.trans_le (arrivals_mono (P w') hlt))
  · right
    refine ⟨by rw [heq], hw'.resolve_left fun hlen => ?_⟩
    obtain ⟨hin, -⟩ := List.getElem?_eq_some_iff.mp hb'
    omega

/-- **No deadlock**: while a wave has an instruction left or an operation outstanding, some
step is possible. -/
theorem exists_step [Fintype W] (hal : Aligned P) (hd : ¬ Done P s) : ∃ s', Step P s s' := by
  by_cases hqueue : ∃ w c, (s.waves w).queue c ≠ []
  · obtain ⟨w, c, hq⟩ := hqueue
    exact exists_step_of_queue hq
  push Not at hqueue
  -- of the waves that are not done, the one furthest behind
  obtain ⟨w₁, hw₁⟩ : ∃ w, (s.waves w).pc < (P w).length := by
    by_contra hno
    push Not at hno
    exact hd ⟨hno, hqueue⟩
  obtain ⟨w, hw, hmin⟩ := Finset.exists_min_image
    (Finset.univ.filter fun w => (s.waves w).pc < (P w).length) (fun w => (s.waves w).pc)
    ⟨w₁, Finset.mem_filter.mpr ⟨Finset.mem_univ _, hw₁⟩⟩
  have hlt := (Finset.mem_filter.mp hw).2
  have hbehind : ∀ w', (s.waves w).pc ≤ (s.waves w').pc ∨ (P w').length ≤ (s.waves w').pc :=
    fun w' => by
      by_cases hw' : (s.waves w').pc < (P w').length
      · exact Or.inl (hmin w' (Finset.mem_filter.mpr ⟨Finset.mem_univ _, hw'⟩))
      · exact Or.inr (not_lt.mp hw')
  by_cases hall : ∀ w', (s.waves w').pc < (P w').length →
      (P w')[(s.waves w').pc]? = some Instr.barrier
  · -- all are at barriers: the one furthest behind goes through
    have hb := hall w hlt
    refine ⟨_, Step.barrier hb fun w' => arrived_of_behind hal ?_ hb ?_⟩
    · rcases hbehind w' with hle | hlen
      · exact hle
      · obtain ⟨hin, -⟩ := List.getElem?_eq_some_iff.mp (hal w w' _ hb)
        omega
    · by_cases hw' : (s.waves w').pc < (P w').length
      · exact Or.inr (hall w' hw')
      · exact Or.inl (not_lt.mp hw')
  · -- one is at another instruction
    push Not at hall
    obtain ⟨w', hin, hnot⟩ := hall
    obtain ⟨ins, hins⟩ : ∃ ins, (P w')[(s.waves w').pc]? = some ins :=
      ⟨_, List.getElem?_eq_getElem hin⟩
    cases ins with
    | issue c f => exact ⟨_, Step.issue hins⟩
    | wait c n =>
      exact ⟨_, Step.wait hins (by rw [hqueue w' c]; exact Nat.zero_le n)⟩
    | barrier => exact absurd hins hnot
    | compute => exact ⟨_, Step.compute hins⟩

/-! ### Every run ends -/

/-- The steps that a queue still holds: one for each pending write, one to retire. -/
def load (q : List (Entry A V)) : ℕ := (q.map fun e => e.pending.length + 1).sum

/-- The steps that a wave can still take, when an operation writes at most `b` addresses. -/
def weight (b : ℕ) (prog : List (Instr A V)) (x : Wave A V) : ℕ :=
  (prog.length - x.pc) * (b + 2) + (load (x.queue .vm) + load (x.queue .lgkm))

def totalWeight [Fintype W] (b : ℕ) (P : W → List (Instr A V)) (s : State W A V) : ℕ :=
  ∑ w, weight b (P w) (s.waves w)

/-- No operation of the programs writes more than `b` addresses. -/
def WritesAtMost (b : ℕ) (P : W → List (Instr A V)) : Prop :=
  ∀ (w : W) (p : ℕ) (c : Counter) (f : (A → V) → List (A × V)) (m : A → V),
    (P w)[p]? = some (.issue c f) → (f m).length ≤ b

section Weight

omit [DecidableEq W] [DecidableEq A]

lemma load_append (q q' : List (Entry A V)) : load (q ++ q') = load q + load q' := by
  simp only [load, List.map_append, List.sum_append]

lemma load_cons (e : Entry A V) (q : List (Entry A V)) :
    load (e :: q) = e.pending.length + 1 + load q := by
  simp only [load, List.map_cons, List.sum_cons]

/-- One queue changes, the other stays. -/
lemma weight_setQueue (b : ℕ) (prog : List (Instr A V)) (x : Wave A V) (c : Counter)
    (q : List (Entry A V)) :
    weight b prog (x.setQueue c q) + load (x.queue c) = weight b prog x + load q := by
  cases c <;> simp [weight, Wave.setQueue] <;> ring

/-- Past an instruction. -/
lemma weight_advance {b : ℕ} {prog : List (Instr A V)} {x : Wave A V} (h : x.pc < prog.length) :
    weight b prog x.advance + (b + 2) = weight b prog x := by
  obtain ⟨r, hr⟩ := Nat.exists_eq_add_of_lt h
  have h0 : prog.length - x.pc = r + 1 := by omega
  have h1 : prog.length - (x.pc + 1) = r := by omega
  simp only [weight, Wave.advance, h0, h1]
  ring

end Weight

omit [DecidableEq A] in
/-- Only the wave that moves changes the total. -/
lemma totalWeight_setWave [Fintype W] (b : ℕ) (s : State W A V) (w : W) (x : Wave A V) :
    totalWeight b P (s.setWave w x) + weight b (P w) (s.waves w)
      = totalWeight b P s + weight b (P w) x := by
  unfold totalWeight
  rw [← Finset.add_sum_erase _ _ (Finset.mem_univ w),
    ← Finset.add_sum_erase Finset.univ (fun w => weight b (P w) (s.waves w)) (Finset.mem_univ w)]
  have hrest : ∑ w' ∈ Finset.univ.erase w, weight b (P w') ((s.setWave w x).waves w')
      = ∑ w' ∈ Finset.univ.erase w, weight b (P w') (s.waves w') := by
    refine Finset.sum_congr rfl fun w' hw' => ?_
    simp only [State.setWave, Function.update_of_ne (Finset.ne_of_mem_erase hw')]
  rw [hrest]
  simp only [State.setWave, Function.update_self]
  omega

/-- Every step uses something up. -/
lemma totalWeight_lt [Fintype W] {b : ℕ} (hb : WritesAtMost b P) (h : Step P s s') :
    totalWeight b P s' < totalWeight b P s := by
  have hadv : ∀ w ins, (P w)[(s.waves w).pc]? = some ins →
      weight b (P w) (s.waves w).advance + (b + 2) = weight b (P w) (s.waves w) := fun w ins hi =>
    weight_advance (List.getElem?_eq_some_iff.mp hi).1
  cases h with
  | @issue w c f h =>
    have htot := totalWeight_setWave (P := P) b s w
      ((s.waves w).setQueue c ((s.waves w).queue c ++ [⟨(s.waves w).pc, f s.mem⟩])).advance
    have hw := weight_setQueue b (P w) (s.waves w) c
      ((s.waves w).queue c ++ [⟨(s.waves w).pc, f s.mem⟩])
    have ha : weight b (P w) ((s.waves w).setQueue c
        ((s.waves w).queue c ++ [⟨(s.waves w).pc, f s.mem⟩])).advance + (b + 2)
        = weight b (P w) ((s.waves w).setQueue c
          ((s.waves w).queue c ++ [⟨(s.waves w).pc, f s.mem⟩])) :=
      weight_advance (List.getElem?_eq_some_iff.mp h).1
    have hlen := hb w _ c f s.mem h
    rw [load_append, load_cons] at hw
    simp only [load, List.map_nil, List.sum_nil] at hw
    omega
  | @wait w c n h hn =>
    have htot := totalWeight_setWave (P := P) b s w (s.waves w).advance
    have := hadv w _ h
    omega
  | @barrier w h hall =>
    have htot := totalWeight_setWave (P := P) b s w (s.waves w).advance
    have := hadv w _ h
    omega
  | @compute w h =>
    have htot := totalWeight_setWave (P := P) b s w (s.waves w).advance
    have := hadv w _ h
    omega
  | @land w c xs ys pos us ws x h =>
    have htot := totalWeight_setWave (P := P) b s w
      ((s.waves w).setQueue c (xs ++ ⟨pos, us ++ ws⟩ :: ys))
    have hw := weight_setQueue b (P w) (s.waves w) c (xs ++ ⟨pos, us ++ ws⟩ :: ys)
    rw [h, load_append, load_append, load_cons, load_cons, List.length_append, List.length_append,
      List.length_cons] at hw
    have hmem : totalWeight b P { mem := Function.update s.mem x.1 x.2
                                  waves := (s.setWave w ((s.waves w).setQueue c
                                    (xs ++ ⟨pos, us ++ ws⟩ :: ys))).waves }
        = totalWeight b P (s.setWave w ((s.waves w).setQueue c
            (xs ++ ⟨pos, us ++ ws⟩ :: ys))) := rfl
    omega
  | @retire w c pos ys h =>
    have htot := totalWeight_setWave (P := P) b s w ((s.waves w).setQueue c ys)
    have hw := weight_setQueue b (P w) (s.waves w) c ys
    rw [h, load_cons, List.length_nil] at hw
    omega

/-- **Every run ends**: a run of `k` steps leaves `k` less to do. -/
theorem run_length_le [Fintype W] {b : ℕ} (hb : WritesAtMost b P) {run : ℕ → State W A V} {k : ℕ}
    (hrun : ∀ i < k, Step P (run i) (run (i + 1))) :
    k + totalWeight b P (run k) ≤ totalWeight b P (run 0) := by
  induction k with
  | zero => omega
  | succ k ih =>
    have hk := ih fun i hi => hrun i (by omega)
    have := totalWeight_lt hb (hrun k (Nat.lt_succ_self k))
    omega

omit [DecidableEq W] [DecidableEq A] in
/-- What a run has to do when it starts. -/
lemma totalWeight_init [Fintype W] (b : ℕ) (m : A → V) :
    totalWeight b P (State.init m) = (∑ w, (P w).length) * (b + 2) := by
  simp only [totalWeight, weight, State.init, load, List.map_nil, List.sum_nil, Nat.sub_zero,
    add_zero]
  rw [Finset.sum_mul]

/-! ### What the waves compute -/

/-- A run from memory `m` in which every wave keeps a state of its own: `act w p` is what wave `w`
makes of it at position `p`, from the memory that it finds there. -/
inductive Computes {L : Type*} (P : W → List (Instr A V)) (act : W → ℕ → (A → V) → L → L)
    (m : A → V) (l₀ : W → L) : State W A V → (W → L) → Prop
  | init : Computes P act m l₀ (State.init m) l₀
  | step {s s' : State W A V} {l : W → L} : Computes P act m l₀ s l → Step P s s' →
      Computes P act m l₀ s' fun w =>
        if (s'.waves w).pc = (s.waves w).pc then l w else act w (s.waves w).pc s.mem (l w)

/-- A step takes a wave past an instruction or leaves it where it is. -/
lemma step_pc (h : Step P s s') (w : W) : (s'.waves w).pc = (s.waves w).pc ∨
    ((s'.waves w).pc = (s.waves w).pc + 1 ∧ (s.waves w).pc < (P w).length) := by
  have hadv : ∀ (w₁ : W) (x : Wave A V) (ins : Instr A V), x.pc = (s.waves w₁).pc →
      (P w₁)[(s.waves w₁).pc]? = some ins →
      ((s.setWave w₁ x.advance).waves w).pc = (s.waves w).pc ∨
        (((s.setWave w₁ x.advance).waves w).pc = (s.waves w).pc + 1 ∧
          (s.waves w).pc < (P w).length) := by
    intro w₁ x ins hx hins
    rw [pc_advance s w₁ w x hx]
    by_cases hw : w = w₁
    · subst hw
      exact Or.inr ⟨by rw [if_pos rfl], (List.getElem?_eq_some_iff.mp hins).1⟩
    · exact Or.inl (by rw [if_neg hw, add_zero])
  cases h with
  | @issue w₁ c f h => exact hadv w₁ ((s.waves w₁).setQueue c _) _ rfl h
  | @wait w₁ c n h hn => exact hadv w₁ _ _ rfl h
  | @barrier w₁ h hall => exact hadv w₁ _ _ rfl h
  | @compute w₁ h => exact hadv w₁ _ _ rfl h
  | @land w₁ c xs ys pos us ws x h => exact Or.inl (pc_setQueue s w₁ w c _)
  | @retire w₁ c pos ys h => exact Or.inl (pc_setQueue s w₁ w c _)

section Computes

variable {L : Type*} {act : W → ℕ → (A → V) → L → L} {m : A → V} {l₀ l : W → L}

lemma Computes.reachable (h : Computes P act m l₀ s l) : Reachable P s := by
  induction h with
  | init => exact Reachable.init m
  | step _ hs ih => exact ih.step hs

/-- **The rule for what a wave computes**: what holds at its start and is carried past each of
its positions, from the memory it may find there, holds in every state. -/
theorem Computes.rule {J : W → ℕ → L → Prop} (h0 : ∀ w, J w 0 (l₀ w))
    (hstep : ∀ s l, Computes P act m l₀ s l → ∀ w, (s.waves w).pc < (P w).length →
      J w (s.waves w).pc (l w) → J w ((s.waves w).pc + 1) (act w (s.waves w).pc s.mem (l w)))
    (h : Computes P act m l₀ s l) (w : W) : J w (s.waves w).pc (l w) := by
  induction h with
  | init => exact h0 w
  | @step s s' l hs hst ih =>
    simp only
    rcases step_pc hst w with heq | ⟨hsucc, hlt⟩
    · rw [if_pos heq, heq]
      exact ih
    · rw [if_neg (by omega), hsucc]
      exact hstep s l hs w hlt ih

/-- An address that no operation writes keeps what it held. -/
theorem Computes.mem_eq (hal : Aligned P) {a : A}
    (ha : ∀ (w : W) (p : ℕ) (c : Counter) (f : (A → V) → List (A × V)) (m' : A → V) (u : V),
      (P w)[p]? = some (.issue c f) → (a, u) ∉ f m')
    (h : Computes P act m l₀ s l) : s.mem a = m a := by
  induction h with
  | init => rfl
  | @step s s' l hs hst ih =>
    cases hst with
    | issue | wait | barrier | compute | retire => exact ih
    | @land w c xs ys pos us ws x h =>
      rw [← ih]
      refine Function.update_of_ne (fun hxa => ?_) _ _
      have he : (⟨pos, us ++ x :: ws⟩ : Entry A V) ∈ (s.waves w).queue c := by
        rw [h]
        exact List.mem_append_right _ List.mem_cons_self
      obtain ⟨f, m', hf, hm⟩ := ((reachable_inv hal hs.reachable).queues w c).source _ he
      refine ha w pos c f m' x.2 hf ?_
      rw [hxa]
      exact hm x (List.mem_append_right _ List.mem_cons_self)

/-- Every run can be carried on to the end. -/
theorem Computes.exists_done [Fintype W] (hal : Aligned P) {b : ℕ} (hb : WritesAtMost b P)
    (h : Computes P act m l₀ s l) : ∃ s' l', Computes P act m l₀ s' l' ∧ Done P s' := by
  induction hk : totalWeight b P s using Nat.strong_induction_on generalizing s l with
  | _ k ih =>
    by_cases hd : Done P s
    · exact ⟨s, l, h, hd⟩
    · obtain ⟨s', hs'⟩ := exists_step hal hd
      exact ih _ (hk ▸ totalWeight_lt hb hs') (h.step hs') rfl

end Computes

end FmhaNative.WaveRuns
