import Mathlib

/-!
The best of a stream, kept by strict comparison.

Whoever looks at a stream keeps one element, and a new one takes its place when it beats it;
two who have looked at two streams compare what they kept. What is kept in the end is the same up
to ties, in whatever order the elements came and however they were shared out. An element that
takes no part in the order, such as a not-a-number, is never kept.
-/

namespace FmhaNative.Selection

variable {α : Type*}

/-- A strict order of the elements that `takesPart` holds of, in which ties are interchangeable. -/
structure IsContest (takesPart : α → Prop) (beats : α → α → Prop) : Prop where
  irrefl : ∀ x, ¬ beats x x
  trans : ∀ {x y z}, beats x y → beats y z → beats x z
  winner : ∀ {x y}, beats x y → takesPart x
  split : ∀ {x y z}, takesPart y → beats x z → beats x y ∨ beats y z

/-- A contest by a score. -/
lemma IsContest.comap {β : Type*} {takesPart : α → Prop} {beats : α → α → Prop}
    (h : IsContest takesPart beats) (score : β → α) :
    IsContest (fun x => takesPart (score x)) fun x y => beats (score x) (score y) :=
  ⟨fun x => h.irrefl (score x), h.trans, h.winner, h.split⟩

/-- The challenger `x` against the kept `s`. -/
def pick (beats : α → α → Prop) [DecidableRel beats] (s x : α) : α := if beats x s then x else s

/-- `s` is kept of the stream `l`: the seed, or an element that beats the seed, and no element of the
stream beats it. -/
structure Kept (beats : α → α → Prop) (seed : α) (l : List α) (s : α) : Prop where
  best : ∀ x ∈ l, ¬ beats x s
  mem : s = seed ∨ (s ∈ l ∧ beats s seed)

variable {takesPart : α → Prop} {beats : α → α → Prop} {seed s s' : α} {l l' : List α}

lemma Kept.nil (beats : α → α → Prop) (seed : α) : Kept beats seed [] seed :=
  ⟨fun _ hx => absurd hx List.not_mem_nil, Or.inl rfl⟩

lemma Kept.perm (h : Kept beats seed l s) (hl : l.Perm l') : Kept beats seed l' s :=
  ⟨fun x hx => h.best x (hl.mem_iff.mpr hx), h.mem.imp_right (And.imp_left hl.mem_iff.mp)⟩

lemma Kept.eligible (hc : IsContest takesPart beats) (hseed : takesPart seed)
    (h : Kept beats seed l s) : takesPart s := by
  rcases h.mem with rfl | ⟨-, hs⟩
  · exact hseed
  · exact hc.winner hs

variable [DecidableRel beats]

/-- **One more element**. -/
lemma Kept.snoc (hc : IsContest takesPart beats) (h : Kept beats seed l s) (x : α) :
    Kept beats seed (l ++ [x]) (pick beats s x) := by
  unfold pick
  split_ifs with hx
  · refine ⟨fun y hy hyx => ?_, Or.inr ⟨by simp, ?_⟩⟩
    · rcases List.mem_append.mp hy with hy | hy
      · exact h.best y hy (hc.trans hyx hx)
      · obtain rfl := List.mem_singleton.mp hy
        exact hc.irrefl y hyx
    · rcases h.mem with rfl | ⟨-, hs⟩
      · exact hx
      · exact hc.trans hx hs
  · refine ⟨fun y hy => ?_, h.mem.imp_right (And.imp_left (List.mem_append_left _))⟩
    rcases List.mem_append.mp hy with hy | hy
    · exact h.best y hy
    · obtain rfl := List.mem_singleton.mp hy
      exact hx

/-- **Two streams**. -/
lemma Kept.append (hc : IsContest takesPart beats) (hseed : takesPart seed)
    (h : Kept beats seed l s) (h' : Kept beats seed l' s') :
    Kept beats seed (l ++ l') (pick beats s s') := by
  unfold pick
  split_ifs with hs
  · refine ⟨fun x hx hxs => ?_, Or.inr ⟨?_, ?_⟩⟩
    · rcases List.mem_append.mp hx with hx | hx
      · exact h.best x hx (hc.trans hxs hs)
      · exact h'.best x hx hxs
    all_goals
      -- the seed does not beat what was kept
      have hmem : s' ∈ l' ∧ beats s' seed := by
        refine h'.mem.resolve_left ?_
        rintro rfl
        rcases h.mem with rfl | ⟨-, hw⟩
        · exact hc.irrefl _ hs
        · exact hc.irrefl _ (hc.trans hs hw)
    · exact List.mem_append_right _ hmem.1
    · exact hmem.2
  · refine ⟨fun x hx hxs => ?_, h.mem.imp_right (And.imp_left (List.mem_append_left _))⟩
    rcases List.mem_append.mp hx with hx | hx
    · exact h.best x hx hxs
    · rcases hc.split (h'.eligible hc hseed) hxs with hlt | hlt
      · exact h'.best x hx hlt
      · exact hs hlt

omit [DecidableRel beats] in
/-- What two keep of one stream are tied. -/
lemma Kept.not_beats (hc : IsContest takesPart beats) (h : Kept beats seed l s)
    (h' : Kept beats seed l s') : ¬ beats s s' := by
  intro hb
  rcases h.mem with rfl | ⟨hs, -⟩
  · rcases h'.mem with rfl | ⟨-, hw⟩
    · exact hc.irrefl _ hb
    · exact hc.irrefl _ (hc.trans hb hw)
  · exact h'.best s hs hb

omit [DecidableRel beats] in
/-- What is kept beats a mark that the seed does not beat exactly when some element does. -/
lemma Kept.beats_iff (hc : IsContest takesPart beats) (hseed : takesPart seed)
    (h : Kept beats seed l s) {mark : α} (hmark : ¬ beats seed mark) :
    beats s mark ↔ ∃ x ∈ l, beats x mark := by
  constructor
  · intro hs
    rcases h.mem with rfl | ⟨hmem, -⟩
    · exact absurd hs hmark
    · exact ⟨s, hmem, hs⟩
  · rintro ⟨x, hx, hxm⟩
    rcases hc.split (h.eligible hc hseed) hxm with hlt | hlt
    · exact absurd hlt (h.best x hx)
    · exact hlt

end FmhaNative.Selection
