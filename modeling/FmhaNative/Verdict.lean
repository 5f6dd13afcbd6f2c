import FmhaNative.CpuVerify
import FmhaNative.Selection

/-!
The verdict of the CPU verifier does not depend on the schedule, and is exact.

What the threads accumulate is a summary of the rows they have seen: counts, and the worst of
three streams of numbers. Summaries of two lists of rows merge to that of both, so that at the end
there is one of all the rows, and two summaries of the same rows agree in all but the place of a tie.
-/

namespace FmhaNative.Verdict

open Host CpuVerify Selection XReal Ieee HostFp

/-! ### Comparisons -/

lemma lt_iff (x y : XReal) : HostFp.lt x y = true ↔ XReal.lt x y := by simp [HostFp.lt]

lemma le_iff (x y : XReal) : HostFp.le x y = true ↔ XReal.lt x y ∨ x = y ∧ x ≠ nan := by
  simp [HostFp.le]

lemma lt_contest : IsContest (fun x : XReal => x ≠ nan) fun x y => HostFp.lt x y = true := by
  constructor <;> simp only [lt_iff]
  · exact XReal.lt_irrefl
  · exact XReal.lt_trans
  · exact fun h => (ne_nan_of_lt h).1
  · exact lt_split

lemma gt_contest : IsContest (fun x : XReal => x ≠ nan) fun x y => HostFp.lt y x = true := by
  constructor <;> simp only [lt_iff]
  · exact XReal.lt_irrefl
  · exact fun h h' => XReal.lt_trans h' h
  · exact fun h => (ne_nan_of_lt h).2
  · exact fun hy h => (lt_split hy h).symm

/-- Numbers of which neither is smaller are equal. -/
lemma eq_of_not_lt {x y : XReal} (hx : x ≠ nan) (hy : y ≠ nan) (h : ¬ HostFp.lt x y = true)
    (h' : ¬ HostFp.lt y x = true) : x = y := by
  rw [lt_iff] at h h'
  exact ((XReal.lt_trichotomy hx hy).resolve_left h).resolve_right h'

lemma le_of_not_lt {x y : XReal} (hx : x ≠ nan) (hy : y ≠ nan) (h : ¬ HostFp.lt y x = true) :
    HostFp.le x y = true := by
  rw [lt_iff] at h
  rw [le_iff]
  rcases XReal.lt_trichotomy hx hy with hlt | heq | hgt
  · exact Or.inl hlt
  · exact Or.inr ⟨heq, hx⟩
  · exact absurd hgt h

lemma not_lt_of_le {x y : XReal} (h : HostFp.le x y = true) : ¬ HostFp.lt y x = true := by
  rw [le_iff] at h
  rw [lt_iff]
  rcases h with h | ⟨rfl, -⟩
  · exact fun h' => XReal.lt_irrefl _ (XReal.lt_trans h h')
  · exact XReal.lt_irrefl _

/-! ### Summaries -/

/-- The larger error, the larger relative error, and the smaller cosine. -/
def absBeats (x y : XReal × Place XReal) : Prop := HostFp.lt y.1 x.1 = true
def relBeats (x y : XReal) : Prop := HostFp.lt y x = true
def cosBeats (x y : XReal × Row) : Prop := HostFp.lt x.1 y.1 = true

noncomputable instance : DecidableRel absBeats := fun _ _ => inferInstanceAs (Decidable (_ = true))
noncomputable instance : DecidableRel relBeats := fun _ _ => inferInstanceAs (Decidable (_ = true))
noncomputable instance : DecidableRel cosBeats := fun _ _ => inferInstanceAs (Decidable (_ = true))

lemma abs_contest : IsContest (fun x : XReal × Place XReal => x.1 ≠ nan) absBeats :=
  gt_contest.comap Prod.fst

lemma rel_contest : IsContest (fun x : XReal => x ≠ nan) relBeats := gt_contest

lemma cos_contest : IsContest (fun x : XReal × Row => x.1 ≠ nan) cosBeats := lt_contest.comap Prod.fst

lemma pick_abs (s x : XReal × Place XReal) :
    pick absBeats s x
      = (if HostFp.lt s.1 x.1 then x.1 else s.1, if HostFp.lt s.1 x.1 then x.2 else s.2) := by
  change (if HostFp.lt s.1 x.1 = true then x else s) = _
  split_ifs <;> rfl

lemma pick_rel (s x : XReal) : pick relBeats s x = if HostFp.lt s x then x else s := rfl

lemma pick_cos (s x : XReal × Row) :
    pick cosBeats s x
      = (if HostFp.lt x.1 s.1 then x.1 else s.1, if HostFp.lt x.1 s.1 then x.2 else s.2) := by
  change (if HostFp.lt x.1 s.1 = true then x else s) = _
  split_ifs <;> rfl

lemma litF_ne_nan (q : ℚ) : (litF q : XReal) ≠ nan := round_ne_nan XReal.noConfusion

lemma litD_ne_nan (q : ℚ) : (litD q : XReal) ≠ nan := round_ne_nan XReal.noConfusion

variable (n : ℕ) (ref kern : Row → ℕ → XReal)

/-- What is seen of the element in column `d` of a row. -/
noncomputable def elemErr (x : Row × ℕ) : XReal := absErr (ref x.1 x.2) (kern x.1 x.2)
noncomputable def elemRel (x : Row × ℕ) : XReal := relErr (ref x.1 x.2) (kern x.1 x.2)
noncomputable def elemCounts (x : Row × ℕ) : Bool := relCounts (ref x.1 x.2)
noncomputable def elemFinite (x : Row × ℕ) : Bool := isfinite (rawErr (ref x.1 x.2) (kern x.1 x.2))
noncomputable def elemPlace (x : Row × ℕ) : Place XReal :=
  ⟨x.1.b, x.1.hq, x.1.i, x.2, ref x.1 x.2, kern x.1 x.2⟩

/-- The accumulators that have seen the elements `E`. -/
structure ElemSummary (E : List (Row × ℕ)) (t : ElemAcc XReal) : Prop where
  total : t.total = E.length
  nonfinite : t.nonfinite = E.countP fun x => !elemFinite ref kern x
  mismatch : t.mismatch = E.countP fun x => HostFp.lt tolAbs (elemErr ref kern x)
  relCounted : t.relCounted = E.countP (elemCounts ref)
  maxAbs : Kept absBeats (ElemAcc.init.maxAbs, ElemAcc.init.worst)
    (E.map fun x => (elemErr ref kern x, elemPlace ref kern x)) (t.maxAbs, t.worst)
  maxRel : Kept relBeats ElemAcc.init.maxRel ((E.filter (elemCounts ref)).map (elemRel ref kern))
    t.maxRel

variable {n ref kern} {E E' : List (Row × ℕ)} {t t' : ElemAcc XReal}

lemma ElemSummary.init : ElemSummary ref kern [] ElemAcc.init :=
  ⟨rfl, rfl, rfl, rfl, Kept.nil _ _, Kept.nil _ _⟩

/-- **One element**. -/
lemma ElemSummary.snoc (h : ElemSummary ref kern E t) (row : Row) (d : ℕ) :
    ElemSummary ref kern (E ++ [(row, d)]) (checkElem row d (ref row d) (kern row d) t) := by
  have habs := h.maxAbs.snoc abs_contest (elemErr ref kern (row, d), elemPlace ref kern (row, d))
  have hrel := h.maxRel.snoc rel_contest (elemRel ref kern (row, d))
  rw [pick_abs] at habs
  rw [pick_rel] at hrel
  refine ⟨?_, ?_, ?_, ?_, ?_, ?_⟩
  · rw [List.length_append, ← h.total]
    rfl
  · rw [List.countP_append, ← h.nonfinite, List.countP_singleton]
    cases hfin : isfinite (rawErr (ref row d) (kern row d)) <;> simp [checkElem, elemFinite, hfin]
  · rw [List.countP_append, ← h.mismatch, List.countP_singleton]
    cases hlt : HostFp.lt tolAbs (absErr (ref row d) (kern row d)) <;>
      simp [checkElem, elemErr, hlt]
  · rw [List.countP_append, ← h.relCounted, List.countP_singleton]
    cases hc : relCounts (ref row d) <;> simp [checkElem, elemCounts, hc]
  · rw [List.map_append]
    exact habs
  · rw [List.filter_append, List.map_append]
    cases hc : relCounts (ref row d) with
    | false => simpa [checkElem, elemCounts, hc] using h.maxRel
    | true =>
      have heq : (checkElem row d (ref row d) (kern row d) t).maxRel
          = if HostFp.lt t.maxRel (elemRel ref kern (row, d)) then elemRel ref kern (row, d)
            else t.maxRel := by
        simp only [checkElem, hc, Bool.true_and, elemRel]
        rfl
      rw [heq, List.filter_singleton, elemCounts, hc]
      exact hrel

/-- **Two threads**. -/
lemma ElemSummary.merge (h : ElemSummary ref kern E t) (h' : ElemSummary ref kern E' t') :
    ElemSummary ref kern (E ++ E') (t.merge t') := by
  have habs := h.maxAbs.append abs_contest (litD_ne_nan 0) h'.maxAbs
  have hrel := h.maxRel.append rel_contest (litD_ne_nan 0) h'.maxRel
  rw [pick_abs] at habs
  refine ⟨?_, ?_, ?_, ?_, ?_, ?_⟩
  · rw [List.length_append, ← h.total, ← h'.total]
    rfl
  · rw [List.countP_append, ← h.nonfinite, ← h'.nonfinite]
    rfl
  · rw [List.countP_append, ← h.mismatch, ← h'.mismatch]
    rfl
  · rw [List.countP_append, ← h.relCounted, ← h'.relCounted]
    rfl
  · rw [List.map_append]
    exact habs
  · rw [List.filter_append, List.map_append]
    exact hrel

lemma ElemSummary.perm (h : ElemSummary ref kern E t) (hE : E.Perm E') : ElemSummary ref kern E' t where
  total := h.total.trans hE.length_eq
  nonfinite := h.nonfinite.trans (hE.countP_eq _)
  mismatch := h.mismatch.trans (hE.countP_eq _)
  relCounted := h.relCounted.trans (hE.countP_eq _)
  maxAbs := h.maxAbs.perm (hE.map _)
  maxRel := h.maxRel.perm ((hE.filter _).map _)

/-! ### The rows -/

/-- The accumulated products of a row. -/
noncomputable def rowDots (n : ℕ) (ref kern : Row → ℕ → XReal) (row : Row) : Dots XReal :=
  (List.range n).foldl (fun s d => s.add (ref row d) (kern row d)) Dots.init

noncomputable def rowCounts (n : ℕ) (ref kern : Row → ℕ → XReal) (row : Row) : Bool :=
  (rowDots n ref kern row).counts

noncomputable def rowCosine (n : ℕ) (ref kern : Row → ℕ → XReal) (row : Row) : XReal :=
  (rowDots n ref kern row).cosine

/-- The elements of rows of `n` columns. -/
def elems (n : ℕ) (L : List Row) : List (Row × ℕ) := L.flatMap fun row => (List.range n).map (row, ·)

/-- The accumulators that have seen the cosines of the rows `L`. -/
structure CosSummary (n : ℕ) (ref kern : Row → ℕ → XReal) (L : List Row) (t : CosAcc XReal) : Prop where
  cosRows : t.cosRows = L.countP (rowCounts n ref kern)
  cosFail : t.cosFail
    = L.countP fun row => rowCounts n ref kern row && HostFp.lt (rowCosine n ref kern row) tolCos
  cosWorst : Kept cosBeats ((CosAcc.init (α := XReal)).cosWorst, (CosAcc.init (α := XReal)).worst)
    ((L.filter (rowCounts n ref kern)).map fun row => (rowCosine n ref kern row, row))
    (t.cosWorst, t.worst)

variable {L L' : List Row} {c c' : CosAcc XReal}

lemma CosSummary.init : CosSummary n ref kern [] CosAcc.init := ⟨rfl, rfl, Kept.nil _ _⟩

lemma CosSummary.snoc (h : CosSummary n ref kern L c) (row : Row) :
    CosSummary n ref kern (L ++ [row]) (checkCos row (rowDots n ref kern row) c) := by
  have hcos := h.cosWorst.snoc cos_contest (rowCosine n ref kern row, row)
  rw [pick_cos] at hcos
  refine ⟨?_, ?_, ?_⟩
  · rw [List.countP_append, ← h.cosRows, List.countP_singleton]
    cases hc : (rowDots n ref kern row).counts <;> simp [checkCos, rowCounts, hc]
  · rw [List.countP_append, ← h.cosFail, List.countP_singleton]
    cases hc : (rowDots n ref kern row).counts <;>
      cases hlt : HostFp.lt (rowDots n ref kern row).cosine tolCos <;>
        simp [checkCos, rowCounts, rowCosine, hc, hlt]
  · rw [List.filter_append, List.map_append]
    cases hc : (rowDots n ref kern row).counts with
    | false => simpa [checkCos, rowCounts, hc] using h.cosWorst
    | true =>
      rw [checkCos, if_pos hc, List.filter_singleton, rowCounts, hc]
      exact hcos

lemma CosSummary.merge (h : CosSummary n ref kern L c) (h' : CosSummary n ref kern L' c') :
    CosSummary n ref kern (L ++ L') (c.merge c') := by
  have hcos := h.cosWorst.append cos_contest (litD_ne_nan 1) h'.cosWorst
  rw [pick_cos] at hcos
  refine ⟨?_, ?_, ?_⟩
  · rw [List.countP_append, ← h.cosRows, ← h'.cosRows]
    rfl
  · rw [List.countP_append, ← h.cosFail, ← h'.cosFail]
    rfl
  · rw [List.filter_append, List.map_append]
    exact hcos

lemma CosSummary.perm (h : CosSummary n ref kern L c) (hL : L.Perm L') : CosSummary n ref kern L' c where
  cosRows := h.cosRows.trans (hL.countP_eq _)
  cosFail := h.cosFail.trans (hL.countP_eq _)
  cosWorst := h.cosWorst.perm ((hL.filter _).map _)

/-- The accumulators that have seen the rows `L`. -/
structure Summary (n : ℕ) (ref kern : Row → ℕ → XReal) (L : List Row) (t : Acc XReal) : Prop where
  elems : ElemSummary ref kern (elems n L) t.elems
  cos : CosSummary n ref kern L t.cos

variable {g s : Acc XReal}

lemma Summary.init : Summary n ref kern [] Acc.init := ⟨ElemSummary.init, CosSummary.init⟩

/-- The two halves of the loop over a row. -/
lemma foldl_prod {σ τ γ : Type*} (f : σ → γ → σ) (g : τ → γ → τ) (l : List γ) (a : σ) (b : τ) :
    l.foldl (fun s x => (f s.1 x, g s.2 x)) (a, b) = (l.foldl f a, l.foldl g b) := by
  induction l generalizing a b with
  | nil => rfl
  | cons x l ih => exact ih (f a x) (g b x)

/-- The columns of a row. -/
lemma ElemSummary.row (h : ElemSummary ref kern E t) (row : Row) (m : ℕ) :
    ElemSummary ref kern (E ++ (List.range m).map (row, ·))
      ((List.range m).foldl (fun t d => checkElem row d (ref row d) (kern row d) t) t) := by
  induction m with
  | zero => simpa using h
  | succ m ih =>
    rw [List.range_succ, List.map_append, ← List.append_assoc, List.foldl_append]
    exact ih.snoc row m

/-- **One row**. -/
lemma Summary.snoc (h : Summary n ref kern L s) (row : Row) :
    Summary n ref kern (L ++ [row]) (checkRow n ref kern s row) := by
  have hsplit := foldl_prod (fun (s : Dots XReal) d => s.add (ref row d) (kern row d))
    (fun t d => checkElem row d (ref row d) (kern row d) t) (List.range n) Dots.init s.elems
  refine ⟨?_, ?_⟩
  · rw [checkRow, hsplit, Verdict.elems, List.flatMap_append, List.flatMap_singleton]
    exact h.elems.row row n
  · rw [checkRow, hsplit]
    exact h.cos.snoc row

/-- **One thread**. -/
lemma runThread_summary (n : ℕ) (ref kern : Row → ℕ → XReal) (L : List Row) :
    Summary n ref kern L (runThread n ref kern L) := by
  induction L using List.reverseRecOn with
  | nil => exact Summary.init
  | append_singleton L row ih =>
    rw [runThread, List.foldl_append]
    exact ih.snoc row

/-- **All threads**. -/
lemma runThreads_summary (n : ℕ) (ref kern : Row → ℕ → XReal) (threads : List (List Row)) :
    Summary n ref kern threads.flatten (runThreads n ref kern threads) := by
  induction threads using List.reverseRecOn with
  | nil => exact Summary.init
  | append_singleton threads L ih =>
    have h := runThread_summary n ref kern L
    rw [runThreads, List.foldl_append, List.flatten_append, List.flatten_singleton]
    refine ⟨?_, ih.cos.merge h.cos⟩
    rw [Verdict.elems, List.flatMap_append]
    exact ih.elems.merge h.elems

lemma Summary.perm (h : Summary n ref kern L s) (hL : L.Perm L') : Summary n ref kern L' s :=
  ⟨h.elems.perm (hL.flatMap_right _), h.cos.perm hL⟩

/-! ### Not-a-number -/

lemma litD_zero : (litD 0 : XReal) = fin 0 := by
  change binary64.round (fin ((0 : ℚ) : ℝ)) = fin 0
  rw [Rat.cast_zero, round_zero]

lemma finite_of_sub {x y : XReal} {r : ℝ} (h : Fp.sub x y = fin r) : ∃ a b, x = fin a ∧ y = fin b := by
  rcases x with _ | s | a <;> rcases y with _ | u | b
  case fin.fin => exact ⟨a, b, rfl, rfl⟩
  case inf.inf =>
    simp only [Fp.sub, XReal.neg_inf, inf_add_inf] at h
    split_ifs at h
  all_goals
    simp [Fp.sub] at h

/-- A finite error is one between finite values. -/
lemma finite_of_rawErr {x y : XReal} (h : isfinite (rawErr x y) = true) :
    ∃ a b, x = fin a ∧ y = fin b := by
  change isFinite (fabs (binary32.round (Fp.sub x y))) = true at h
  rcases hz : Fp.sub x y with _ | s | r
  · rw [hz] at h
    cases h
  · rw [hz] at h
    cases h
  · exact finite_of_sub hz

lemma absErr_of_finite {x y : XReal} (h : isfinite (rawErr x y) = true) : absErr x y = rawErr x y :=
  if_pos h

lemma rawErr_of_finite {x y : XReal} (h : isfinite (rawErr x y) = true) : ∃ r, rawErr x y = fin r := by
  rcases hz : rawErr x y with _ | s | r
  · rw [hz] at h
    cases h
  · rw [hz] at h
    cases h
  · exact ⟨r, rfl⟩

lemma absErr_ne_nan (x y : XReal) : absErr x y ≠ nan := by
  unfold absErr
  split_ifs with h
  · obtain ⟨r, hr⟩ := rawErr_of_finite h
    rw [hr]
    exact XReal.noConfusion
  · exact XReal.noConfusion

/-- The relative error of a finite error is a number. -/
lemma relErr_ne_nan {x y : XReal} (h : isfinite (rawErr x y) = true) (hc : relCounts x = true) :
    relErr x y ≠ nan := by
  obtain ⟨a, b, rfl, rfl⟩ := finite_of_rawErr h
  obtain ⟨e, he⟩ := rawErr_of_finite h
  have ha : |a| ≠ 0 := by
    intro h0
    have hfloor : XReal.lt (fin 0) (relFloor : XReal) := by
      refine zero_lt_round (f := binary32) (k := -7) ?_ ?_ ?_ <;> norm_num [binary32]
    have hle := not_lt_of_le hc
    rw [lt_iff] at hle
    refine hle ?_
    change XReal.lt (fin |a|) _
    rwa [h0]
  refine round_ne_nan ?_
  change absErr (fin a) (fin b) * recip (fin |a|) ≠ nan
  rw [absErr_of_finite h, he, recip_fin ha]
  exact XReal.noConfusion

/-- The cosine of a row with a finite product is a number. -/
lemma cosine_ne_nan {s : Dots XReal} {r : ℝ} (hdot : s.dotRk = fin r) (hc : s.counts = true) :
    s.cosine ≠ nan := by
  have hpos : XReal.lt (fin 0) s.denom := by
    rw [← litD_zero]
    exact (lt_iff _ _).mp hc
  refine round_ne_nan ?_
  rw [hdot]
  rcases hd : s.denom with _ | u | c
  · rw [hd] at hpos
    exact absurd rfl (ne_nan_of_lt hpos).2
  · exact XReal.noConfusion
  · rw [hd] at hpos
    rw [recip_fin (ne_of_gt hpos)]
    exact XReal.noConfusion

/-! ### Products of floats -/

/-- A number of at most `m` units `2 ^ 256`. -/
def Within (m : ℕ) (x : XReal) : Prop := ∃ r, x = fin r ∧ |r| ≤ m * 2 ^ (256 : ℤ)

lemma within_mulD {a b : ℝ} (ha : |a| < 2 ^ binary32.emax) (hb : |b| < 2 ^ binary32.emax) :
    Within 1 (mulD (fin a) (fin b)) := by
  have hab : |a * b| ≤ (1 : ℕ) * 2 ^ (256 : ℤ) := by
    rw [abs_mul, Nat.cast_one, one_mul]
    calc |a| * |b| ≤ 2 ^ binary32.emax * 2 ^ binary32.emax :=
          mul_le_mul ha.le hb.le (abs_nonneg b) (by positivity)
      _ = 2 ^ (256 : ℤ) := by
          rw [← zpow_add₀ two_ne_zero]
          norm_num [binary32]
  refine round_within (f := binary64) (by norm_num [binary64]) (by norm_num [binary64]) ?_ hab
  rw [Nat.cast_one, one_mul]
  exact zpow_lt_zpow_right₀ one_lt_two (by norm_num [binary64])

lemma within_addD {m : ℕ} {x y : XReal} (hm : m + 1 < 2 ^ 53) (hx : Within m x) (hy : Within 1 y) :
    Within (m + 1) (addD x y) := by
  obtain ⟨a, rfl, ha⟩ := hx
  obtain ⟨b, rfl, hb⟩ := hy
  have hab : |a + b| ≤ ((m + 1 : ℕ) : ℝ) * 2 ^ (256 : ℤ) := by
    rw [Nat.cast_add, add_mul]
    exact (abs_add_le a b).trans (add_le_add ha hb)
  refine round_within (f := binary64) (by norm_num [binary64]) (by simpa [binary64] using hm) ?_ hab
  have hlt : ((m + 1 : ℕ) : ℝ) < 2 ^ (53 : ℤ) := by exact_mod_cast hm
  calc ((m + 1 : ℕ) : ℝ) * 2 ^ (256 : ℤ) < 2 ^ (53 : ℤ) * 2 ^ (256 : ℤ) :=
        mul_lt_mul_of_pos_right hlt (by positivity)
    _ = 2 ^ (309 : ℤ) := by
        rw [← zpow_add₀ two_ne_zero]
        norm_num
    _ < 2 ^ binary64.emax := zpow_lt_zpow_right₀ one_lt_two (by norm_num [binary64])

/-- The product of two rows of finite floats does not overflow a `double`. -/
lemma dotRk_within {row : Row} {m : ℕ} (hm : m < 2 ^ 53)
    (h : ∀ d < m, ∃ a b, ref row d = fin a ∧ kern row d = fin b ∧
      |a| < 2 ^ binary32.emax ∧ |b| < 2 ^ binary32.emax) :
    Within m (rowDots m ref kern row).dotRk := by
  induction m with
  | zero => exact ⟨0, litD_zero, by simp⟩
  | succ m ih =>
    obtain ⟨a, b, ha, hb, hra, hrb⟩ := h m (Nat.lt_succ_self m)
    have hprod := within_mulD hra hrb
    rw [rowDots, List.range_succ, List.foldl_append]
    have hprev := ih (by omega) fun d hd => h d (by omega)
    change Within (m + 1) (addD (rowDots m ref kern row).dotRk (mulD (ref row m) (kern row m)))
    rw [ha, hb]
    exact within_addD hm hprev hprod

/-! ### The verdict -/

/-- What a verdict says, but for the mean and the places. -/
structure SameVerdict (r r' : CpuRefResult XReal) : Prop where
  pass : r.pass = r'.pass
  maxAbs : r.maxAbs = r'.maxAbs
  maxRel : r.maxRel = r'.maxRel
  minCos : r.minCos = r'.minCos
  mismatch : r.mismatch = r'.mismatch
  nonfinite : r.nonfinite = r'.nonfinite
  totalElems : r.totalElems = r'.totalElems
  cosFail : r.cosFail = r'.cosFail
  cosRows : r.cosRows = r'.cosRows

lemma ElemSummary.maxAbs_eq (h : ElemSummary ref kern E t) (h' : ElemSummary ref kern E t') :
    t.maxAbs = t'.maxAbs := by
  have hn := h.maxAbs.eligible abs_contest (litD_ne_nan 0)
  have hn' := h'.maxAbs.eligible abs_contest (litD_ne_nan 0)
  have hb := h.maxAbs.not_beats abs_contest h'.maxAbs
  have hb' := h'.maxAbs.not_beats abs_contest h.maxAbs
  exact eq_of_not_lt hn hn' hb' hb

lemma ElemSummary.maxRel_eq (h : ElemSummary ref kern E t) (h' : ElemSummary ref kern E t') :
    t.maxRel = t'.maxRel := by
  have hn := h.maxRel.eligible rel_contest (litD_ne_nan 0)
  have hn' := h'.maxRel.eligible rel_contest (litD_ne_nan 0)
  have hb := h.maxRel.not_beats rel_contest h'.maxRel
  have hb' := h'.maxRel.not_beats rel_contest h.maxRel
  exact eq_of_not_lt hn hn' hb' hb

lemma CosSummary.cosWorst_eq (h : CosSummary n ref kern L c) (h' : CosSummary n ref kern L c') :
    c.cosWorst = c'.cosWorst := by
  have hn := h.cosWorst.eligible cos_contest (litD_ne_nan 1)
  have hn' := h'.cosWorst.eligible cos_contest (litD_ne_nan 1)
  have hb := h.cosWorst.not_beats cos_contest h'.cosWorst
  have hb' := h'.cosWorst.not_beats cos_contest h.cosWorst
  exact eq_of_not_lt hn hn' hb hb'

/-- Two summaries of the same rows. -/
lemma Summary.sameVerdict (h : Summary n ref kern L g) (h' : Summary n ref kern L s) :
    SameVerdict g.result s.result := by
  have habs := h.elems.maxAbs_eq h'.elems
  have hrel := h.elems.maxRel_eq h'.elems
  have hcos := h.cos.cosWorst_eq h'.cos
  have hmis := h.elems.mismatch.trans h'.elems.mismatch.symm
  have hnon := h.elems.nonfinite.trans h'.elems.nonfinite.symm
  have hcnt := h.elems.relCounted.trans h'.elems.relCounted.symm
  have hfail := h.cos.cosFail.trans h'.cos.cosFail.symm
  refine ⟨?_, habs, hrel, hcos, hmis, hnon, h.elems.total.trans h'.elems.total.symm, hfail,
    h.cos.cosRows.trans h'.cos.cosRows.symm⟩
  simp only [Acc.result, hmis, hnon, hfail, hcnt, hrel]

/-- Every element is close, absolutely and, where that counts, relatively, and every row that has
a cosine points the right way. -/
structure Passes (n : ℕ) (ref kern : Row → ℕ → XReal) (L : List Row) : Prop where
  abs : ∀ row ∈ L, ∀ d < n, isfinite (rawErr (ref row d) (kern row d)) = true ∧
    HostFp.le (rawErr (ref row d) (kern row d)) tolAbs = true
  rel : ∀ row ∈ L, ∀ d < n, relCounts (ref row d) = true →
    HostFp.le (relErr (ref row d) (kern row d)) tolRel = true
  cos : ∀ row ∈ L, rowCounts n ref kern row = true →
    HostFp.le tolCos (rowCosine n ref kern row) = true

lemma mem_elems {x : Row × ℕ} : x ∈ elems n L ↔ x.1 ∈ L ∧ x.2 < n := by
  obtain ⟨row, d⟩ := x
  simp only [elems, List.mem_flatMap, List.mem_map, List.mem_range, Prod.mk.injEq]
  constructor
  · rintro ⟨_, hrow, _, hd, rfl, rfl⟩
    exact ⟨hrow, hd⟩
  · rintro ⟨hrow, hd⟩
    exact ⟨row, hrow, d, hd, rfl, rfl⟩

/-- The relative test fails exactly when some relative error that counts is above the tolerance. -/
lemma relFail_iff (h : ElemSummary ref kern E t) :
    (0 < t.relCounted ∧ HostFp.lt tolRel t.maxRel = true) ↔
      ∃ x ∈ E, elemCounts ref x = true ∧ HostFp.lt tolRel (elemRel ref kern x) = true := by
  have hmark : ¬ relBeats (ElemAcc.init : ElemAcc XReal).maxRel tolRel := by
    change ¬ HostFp.lt tolRel (litD 0) = true
    rw [lt_iff, litD_zero]
    exact not_round_lt_zero (by norm_num)
  have hworst := h.maxRel.beats_iff rel_contest (litD_ne_nan 0) hmark
  constructor
  · rintro ⟨-, hlt⟩
    obtain ⟨y, hy, hbeats⟩ := hworst.mp hlt
    obtain ⟨x, hx, rfl⟩ := List.mem_map.mp hy
    obtain ⟨hxE, hxc⟩ := List.mem_filter.mp hx
    exact ⟨x, hxE, hxc, hbeats⟩
  · rintro ⟨x, hxE, hxc, hlt⟩
    refine ⟨?_, hworst.mpr ⟨_, List.mem_map_of_mem (List.mem_filter.mpr ⟨hxE, hxc⟩), hlt⟩⟩
    rw [h.relCounted, List.countP_pos_iff]
    exact ⟨x, hxE, hxc⟩

lemma result_pass_iff (g : Acc XReal) :
    g.result.pass = true ↔ g.elems.mismatch = 0 ∧ g.elems.nonfinite = 0 ∧ g.cos.cosFail = 0 ∧
      ¬ (0 < g.elems.relCounted ∧ HostFp.lt tolRel g.elems.maxRel = true) := by
  simp [Acc.result, and_assoc, imp_iff_not_or]

/-- **The verdict is exact.** -/
lemma Summary.pass_iff (h : Summary n ref kern L g) (hn : n < 2 ^ 53)
    (href : ∀ row d r, ref row d = fin r → |r| < 2 ^ binary32.emax)
    (hkern : ∀ row d r, kern row d = fin r → |r| < 2 ^ binary32.emax) :
    g.result.pass = true ↔ Passes n ref kern L := by
  have hmis : g.elems.mismatch = 0 ↔ ∀ x ∈ Verdict.elems n L, ¬ HostFp.lt tolAbs (elemErr ref kern x) = true := by
    rw [h.elems.mismatch, List.countP_eq_zero]
  have hnon : g.elems.nonfinite = 0 ↔ ∀ x ∈ Verdict.elems n L, elemFinite ref kern x = true := by
    rw [h.elems.nonfinite, List.countP_eq_zero]
    simp
  have hfail : g.cos.cosFail = 0 ↔ ∀ row ∈ L, rowCounts n ref kern row = true →
      ¬ HostFp.lt (rowCosine n ref kern row) tolCos = true := by
    rw [h.cos.cosFail, List.countP_eq_zero]
    simp
  rw [result_pass_iff, hmis, hnon, hfail, relFail_iff h.elems]
  constructor
  · rintro ⟨habs, hfin, hcos, hrel⟩
    have hfinite : ∀ row ∈ L, ∀ d < n, isfinite (rawErr (ref row d) (kern row d)) = true :=
      fun row hrow d hd => hfin (row, d) (mem_elems.mpr ⟨hrow, hd⟩)
    refine ⟨fun row hrow d hd => ⟨hfinite row hrow d hd, ?_⟩, fun row hrow d hd hc => ?_,
      fun row hrow hc => ?_⟩
    · have hraw := absErr_of_finite (hfinite row hrow d hd)
      have hlt := habs (row, d) (mem_elems.mpr ⟨hrow, hd⟩)
      rw [elemErr, hraw] at hlt
      exact le_of_not_lt (hraw ▸ absErr_ne_nan _ _) (litF_ne_nan _) hlt
    · refine le_of_not_lt (relErr_ne_nan (hfinite row hrow d hd) hc)
        (litF_ne_nan _) fun hlt => hrel ?_
      exact ⟨(row, d), mem_elems.mpr ⟨hrow, hd⟩, hc, hlt⟩
    · have hdots : Within n (rowDots n ref kern row).dotRk := dotRk_within hn fun d hd => by
        obtain ⟨a, b, ha, hb⟩ := finite_of_rawErr (hfinite row hrow d hd)
        exact ⟨a, b, ha, hb, href row d a ha, hkern row d b hb⟩
      obtain ⟨r, hr, -⟩ := hdots
      exact le_of_not_lt (litD_ne_nan _) (cosine_ne_nan hr hc) (hcos row hrow hc)
  · rintro ⟨habs, hrel, hcos⟩
    refine ⟨fun x hx => ?_, fun x hx => ?_, fun row hrow hc => not_lt_of_le (hcos row hrow hc), ?_⟩
    · obtain ⟨hrow, hd⟩ := mem_elems.mp hx
      obtain ⟨hfin, hle⟩ := habs x.1 hrow x.2 hd
      rw [elemErr, absErr_of_finite hfin]
      exact not_lt_of_le hle
    · obtain ⟨hrow, hd⟩ := mem_elems.mp hx
      exact (habs x.1 hrow x.2 hd).1
    · rintro ⟨x, hx, hc, hlt⟩
      obtain ⟨hrow, hd⟩ := mem_elems.mp hx
      exact not_lt_of_le (hrel x.1 hrow x.2 hd hc) hlt

/-- A reported place is one of a checked element or row, and attains the extreme that is reported. -/
structure Reports (n : ℕ) (ref kern : Row → ℕ → XReal) (L : List Row) (r : CpuRefResult XReal) :
    Prop where
  largest : ∀ row ∈ L, ∀ d < n, ¬ HostFp.lt r.maxAbs (absErr (ref row d) (kern row d)) = true
  least : ∀ row ∈ L, rowCounts n ref kern row = true →
    ¬ HostFp.lt (rowCosine n ref kern row) r.minCos = true
  elem : 0 ≤ r.worstB → ∃ row ∈ L, ∃ d < n, absErr (ref row d) (kern row d) = r.maxAbs ∧
    (r.worstB, r.worstH, r.worstI, r.worstD) = (row.b, row.hq, row.i, (d : ℤ)) ∧
    (r.worstRef, r.worstKern) = (ref row d, kern row d)
  row : 0 ≤ r.cosWb → ∃ row ∈ L, rowCounts n ref kern row = true ∧
    rowCosine n ref kern row = r.minCos ∧ (r.cosWb, r.cosWh, r.cosWi) = (row.b, row.hq, row.i)

lemma Summary.worst (h : Summary n ref kern L g) (hb : 0 ≤ g.elems.worst.b) :
    ∃ row ∈ L, ∃ d < n, absErr (ref row d) (kern row d) = g.elems.maxAbs ∧
      g.elems.worst = ⟨row.b, row.hq, row.i, d, ref row d, kern row d⟩ := by
  rcases h.elems.maxAbs.mem with hinit | ⟨hmem, -⟩
  · have hplace : g.elems.worst = ElemAcc.init.worst := congrArg Prod.snd hinit
    rw [hplace] at hb
    exact absurd hb (by decide)
  · obtain ⟨⟨row, d⟩, hx, heq⟩ := List.mem_map.mp hmem
    obtain ⟨hrow, hd⟩ := mem_elems.mp hx
    exact ⟨row, hrow, d, hd, congrArg Prod.fst heq, (congrArg Prod.snd heq).symm⟩

lemma Summary.cosWorst (h : Summary n ref kern L g) (hb : 0 ≤ g.cos.worst.b) :
    ∃ row ∈ L, rowCounts n ref kern row = true ∧ rowCosine n ref kern row = g.cos.cosWorst ∧
      g.cos.worst = row := by
  rcases h.cos.cosWorst.mem with hinit | ⟨hmem, -⟩
  · have hplace : g.cos.worst = (CosAcc.init : CosAcc XReal).worst := congrArg Prod.snd hinit
    rw [hplace] at hb
    exact absurd hb (by decide)
  · obtain ⟨row, hx, heq⟩ := List.mem_map.mp hmem
    obtain ⟨hrow, hc⟩ := List.mem_filter.mp hx
    exact ⟨row, hrow, hc, congrArg Prod.fst heq, (congrArg Prod.snd heq).symm⟩

lemma Summary.reports (h : Summary n ref kern L g) : Reports n ref kern L g.result where
  largest row hrow d hd :=
    h.elems.maxAbs.best _ (List.mem_map.mpr ⟨(row, d), mem_elems.mpr ⟨hrow, hd⟩, rfl⟩)
  least row hrow hc :=
    h.cos.cosWorst.best _ (List.mem_map_of_mem (List.mem_filter.mpr ⟨hrow, hc⟩))
  elem hb := by
    obtain ⟨row, hrow, d, hd, herr, hplace⟩ := h.worst hb
    refine ⟨row, hrow, d, hd, herr, ?_, ?_⟩ <;> simp only [Acc.result, hplace]
  row hb := by
    obtain ⟨row, hrow, hc, hcos, hplace⟩ := h.cosWorst hb
    refine ⟨row, hrow, hc, hcos, ?_⟩
    simp only [Acc.result, hplace]

/-- A bf16 value is a `float`. -/
lemma bf16ToFloat_lt (u : BitVec 16) {r : ℝ} (h : bf16ToFloat u = fin r) :
    |r| < 2 ^ binary32.emax := by
  have he : (u.extractLsb' 7 8).toNat < 256 := (u.extractLsb' 7 8).isLt
  have hf : (u.extractLsb' 0 7).toNat < 128 := (u.extractLsb' 0 7).isLt
  simp only [bf16ToFloat] at h
  generalize (u.extractLsb' 7 8).toNat = exponent at h he
  generalize (u.extractLsb' 0 7).toNat = fraction at h hf
  have hmag : ∀ (m : ℕ) (k : ℤ), m < 256 → k ≤ 120 → |(m : ℝ) * 2 ^ k| < 2 ^ binary32.emax := by
    intro m k hm hk
    rw [abs_of_nonneg (by positivity)]
    have hm' : (m : ℝ) < 2 ^ (8 : ℤ) := by exact_mod_cast hm
    calc (m : ℝ) * 2 ^ k < 2 ^ (8 : ℤ) * 2 ^ k := mul_lt_mul_of_pos_right hm' (by positivity)
      _ = 2 ^ (8 + k) := (zpow_add₀ two_ne_zero _ _).symm
      _ ≤ 2 ^ binary32.emax := zpow_le_zpow_right₀ one_le_two (by simp only [binary32]; omega)
  by_cases h255 : exponent = 255
  · rw [if_pos h255] at h
    split_ifs at h
  · rw [if_neg h255] at h
    obtain rfl := fin.inj h
    have hsign : ∀ x : ℝ, |if u.msb then -x else x| = |x| := fun x => by
      split_ifs
      · exact abs_neg x
      · rfl
    rw [hsign]
    split_ifs
    · exact hmag fraction _ (by omega) (by norm_num)
    · exact hmag (128 + fraction) (exponent - 134) (by omega) (by omega)

/-- **The verdict is exact and does not depend on the schedule**: whatever rows the threads get, in
whatever order they visit them and merge, the verdict is that of one thread that visits the rows in
order; it passes exactly when everything checked is within its tolerance; and a place that is reported
attains what is reported of it. -/
theorem verdict_exact (p : FmhaParams) (hd : IsInt p.headDim) (oRef : Row → ℕ → FloatVal)
    (hO : Mem (BitVec 16)) {threads : List (List Row)} (hs : threads.flatten.Perm (rows p)) :
    let n := p.headDim.toNat
    let ref := fun row d => (oRef row d).val
    let kern := oKern bf16ToFloat p hO
    let r := cpuRefVerify bf16ToFloat p ref hO threads
    SameVerdict r (cpuRefVerify bf16ToFloat p ref hO [rows p]) ∧
      (r.pass = true ↔ Passes n ref kern (rows p)) ∧ Reports n ref kern (rows p) r := by
  intro n ref kern r
  have h := (runThreads_summary n ref kern threads).perm hs
  have hone := runThreads_summary n ref kern [rows p]
  rw [List.flatten_singleton] at hone
  have hn : n < 2 ^ 53 := by
    have := hd.2
    omega
  exact ⟨h.sameVerdict hone, h.pass_iff hn (fun row d => (oRef row d).property)
    fun row d => fun _ => bf16ToFloat_lt _, h.reports⟩

/-- A problem of two rows of one column. -/
def twoQueries : FmhaParams :=
  { batch := 1, qHeads := 1, kvHeads := 1, gqa := 1, seqLen := 2, kvSeqLen := 2
    headDim := 1, hdimPadded := 1, mask := 0, lse := 0, varlenSeqs := [] }

def firstQuery : Row := ⟨0, 0, 0⟩
def secondQuery : Row := ⟨0, 0, 1⟩

lemma rows_twoQueries : rows twoQueries = [firstQuery, secondQuery] := rfl

lemma zero_isFloat (r : ℝ) (h : fin 0 = fin r) : |r| < 2 ^ binary32.emax := by
  rw [← fin.inj h, abs_zero]
  positivity

/-- A NaN in the second row, on a thread of its own that merges first: the run fails, as with one
thread. -/
theorem verdict_exact_twoThreads :
    let hO : Mem (BitVec 16) := fun e => if e = 1 then 0x7FC0 else 0
    let r := cpuRefVerify bf16ToFloat twoQueries (fun _ _ => fin 0) hO [[secondQuery], [firstQuery]]
    r.pass = false ∧
      SameVerdict r (cpuRefVerify bf16ToFloat twoQueries (fun _ _ => fin 0) hO [rows twoQueries]) := by
  intro hO r
  have hs : ([[secondQuery], [firstQuery]] : List (List Row)).flatten.Perm (rows twoQueries) :=
    rows_twoQueries ▸ List.Perm.swap firstQuery secondQuery []
  obtain ⟨hsame, hpass, -⟩ := verdict_exact twoQueries ⟨by decide, by decide⟩
    (fun _ _ => ⟨fin 0, zero_isFloat⟩) hO hs
  refine ⟨Bool.eq_false_iff.mpr fun h => ?_, hsame⟩
  have hmem : secondQuery ∈ rows twoQueries := by
    rw [rows_twoQueries]
    exact List.mem_cons_of_mem _ List.mem_cons_self
  have hkern : oKern bf16ToFloat twoQueries hO secondQuery 0 = nan := by
    change bf16ToFloat 0x7FC0 = nan
    rw [bf16ToFloat, if_pos (by decide), if_neg (by decide)]
  have hfin := ((hpass.mp h).abs secondQuery hmem 0 (by decide)).1
  rw [hkern] at hfin
  exact Bool.false_ne_true hfin

end FmhaNative.Verdict
