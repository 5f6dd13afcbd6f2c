import FmhaNative.HostParams

/-!
The text of `--varlen-seqs`, and what the benchmark makes of it.

The loop reads a number at the head of the text and goes past the next comma, until the text ends.
So a text gives one length for each of its fields, an empty field after a last comma left out, and
lengths written in decimal with commas between are read back as they are.
-/

namespace FmhaNative.VarlenText

open Host

/-! ### The reader -/

/-- `isspace` -/
def isspace (c : Char) : Bool := c = ' ' ∨ ('\t' ≤ c ∧ c ≤ '\r')

/-- The value of the digits at the head of a text. -/
def digitsValue (s : List Char) : ℤ := (Nat.ofDigitChars 10 (s.takeWhile Char.isDigit) 0 : ℕ)

def signedValue : List Char → ℤ
  | '-' :: s => -digitsValue s
  | '+' :: s => digitsValue s
  | s => digitsValue s

/-- `strtol` in base 10: blanks, a sign and digits, the value kept in a `long`. -/
def strtol (s : List Char) : ℤ :=
  max (-9223372036854775808) (min 9223372036854775807 (signedValue (s.dropWhile isspace)))

/-- Past the next comma, or at the end. -/
def afterComma (s : List Char) : List Char := (s.dropWhile (· ≠ ',')).drop 1

lemma afterComma_length (c : Char) (s : List Char) :
    (afterComma (c :: s)).length < (c :: s).length := by
  have hle := List.length_dropWhile_le (fun d : Char => decide (d ≠ ',')) (c :: s)
  rw [afterComma, List.length_drop]
  simp only [List.length_cons] at hle ⊢
  omega

/-- The loop of `--varlen-seqs`: the numbers that it hands to `atoi`. -/
def parseVarlenSeqs : List Char → List ℤ
  | [] => []
  | c :: s => strtol (c :: s) :: parseVarlenSeqs (afterComma (c :: s))
termination_by s => s.length
decreasing_by exact afterComma_length c s

/-! ### One field -/

section Field

variable {f : List Char}

lemma takeWhile_comma {p : Char → Bool} (hp : p ',' = false) (f rest : List Char) :
    (f ++ ',' :: rest).takeWhile p = f.takeWhile p := by
  induction f with
  | nil => simp [hp]
  | cons c f ih =>
    by_cases hc : p c
    · simp [hc, ih]
    · simp [hc]

lemma digitsValue_comma (f rest : List Char) : digitsValue (f ++ ',' :: rest) = digitsValue f := by
  rw [digitsValue, takeWhile_comma (by decide), digitsValue]

lemma signedValue_comma (f rest : List Char) : signedValue (f ++ ',' :: rest) = signedValue f := by
  cases f with
  | nil => exact digitsValue_comma [] rest
  | cons c f =>
    by_cases hm : c = '-'
    · subst hm
      exact congrArg Neg.neg (digitsValue_comma f rest)
    · by_cases hp : c = '+'
      · subst hp
        exact digitsValue_comma f rest
      · have hval : ∀ t, signedValue (c :: t) = digitsValue (c :: t) := fun t => by
          simp [signedValue, hm, hp]
        rw [List.cons_append, hval, hval]
        exact digitsValue_comma (c :: f) rest

/-- **A number ends at the comma.** -/
lemma strtol_comma (f rest : List Char) : strtol (f ++ ',' :: rest) = strtol f := by
  unfold strtol
  congr 2
  rw [List.dropWhile_append]
  cases hf : f.dropWhile isspace with
  | nil =>
    have hcomma : (',' :: rest).dropWhile isspace = [] ++ ',' :: rest := rfl
    rw [List.isEmpty_nil, if_pos rfl, hcomma]
    exact signedValue_comma [] rest
  | cons c t =>
    rw [List.isEmpty_cons, if_neg Bool.false_ne_true]
    exact signedValue_comma (c :: t) rest

lemma afterComma_append (hf : ',' ∉ f) (rest : List Char) : afterComma (f ++ ',' :: rest) = rest := by
  have hall : ∀ c ∈ f, decide (c ≠ ',') = true := fun c hc =>
    decide_eq_true fun h => hf (h ▸ hc)
  rw [afterComma, List.dropWhile_append_of_pos hall]
  rfl

lemma afterComma_eq_nil (hf : ',' ∉ f) : afterComma f = [] := by
  have hall : f.dropWhile (· ≠ ',') = [] := List.dropWhile_eq_nil_iff.mpr fun c hc =>
    decide_eq_true fun h => hf (h ▸ hc)
  rw [afterComma, hall, List.drop_nil]

lemma parseVarlenSeqs_field (hf : ',' ∉ f) (hne : f ≠ []) : parseVarlenSeqs f = [strtol f] := by
  obtain ⟨c, s, rfl⟩ := List.exists_cons_of_ne_nil hne
  rw [parseVarlenSeqs, afterComma_eq_nil hf, parseVarlenSeqs]

lemma parseVarlenSeqs_append (hf : ',' ∉ f) (rest : List Char) :
    parseVarlenSeqs (f ++ ',' :: rest) = strtol f :: parseVarlenSeqs rest := by
  have hne : f ++ ',' :: rest ≠ [] := List.append_ne_nil_of_right_ne_nil _ (List.cons_ne_nil _ _)
  obtain ⟨c, s, hs⟩ := List.exists_cons_of_ne_nil hne
  rw [hs, parseVarlenSeqs, ← hs, strtol_comma, afterComma_append hf]

end Field

/-! ### All fields -/

/-- The fields of a text between commas, without an empty one at the end. -/
def seqFields (s : List Char) : List (List Char) :=
  let fields := s.splitOn ','
  if fields.getLast? = some [] then fields.dropLast else fields

lemma seqFields_append {f : List Char} (hf : ',' ∉ f) (rest : List Char) :
    seqFields (f ++ ',' :: rest) = f :: seqFields rest := by
  have hsplit : (f ++ ',' :: rest).splitOn ',' = f :: rest.splitOn ',' := by
    rw [List.splitOn_append_cons_self, List.splitOn_eq_singleton hf]
    rfl
  obtain ⟨g, gs, hg⟩ := List.exists_cons_of_ne_nil (List.splitOn_ne_nil ',' rest)
  simp only [seqFields, hsplit, hg, List.getLast?_cons_cons, List.dropLast_cons_cons]
  split_ifs <;> rfl

/-- **A length for each field.** -/
lemma parseVarlenSeqs_eq (s : List Char) : parseVarlenSeqs s = (seqFields s).map strtol := by
  induction hk : s.length using Nat.strong_induction_on generalizing s with
  | _ k ih =>
    by_cases hs : ',' ∈ s
    · obtain ⟨f, rest, rfl, hf⟩ := List.eq_append_cons_of_mem hs
      have hlt : rest.length < k := by
        rw [← hk, List.length_append, List.length_cons]
        omega
      rw [parseVarlenSeqs_append hf, seqFields_append hf, List.map_cons, ih _ hlt rest rfl]
    · cases s with
      | nil => rw [parseVarlenSeqs]; rfl
      | cons c s =>
        rw [parseVarlenSeqs_field hs (List.cons_ne_nil _ _), seqFields, List.splitOn_eq_singleton hs]
        simp

/-! ### The writer -/

/-- `%d` -/
def decimal (n : ℤ) : List Char :=
  if n < 0 then '-' :: Nat.toDigits 10 n.natAbs else Nat.toDigits 10 n.natAbs

/-- Lengths with commas between. -/
def seqText : List ℤ → List Char
  | [] => []
  | [n] => decimal n
  | n :: ns => decimal n ++ ',' :: seqText ns

lemma isDigit_of_toDigits {n : ℕ} {c : Char} (hc : c ∈ Nat.toDigits 10 n) : c.isDigit = true :=
  Nat.isDigit_of_mem_toDigits (by norm_num) (by norm_num) hc

lemma isspace_of_isDigit {c : Char} (hc : c.isDigit = true) : isspace c = false := by
  refine decide_eq_false ?_
  rintro (rfl | ⟨-, hle⟩)
  · simp at hc
  · have h0 : '0' ≤ c := by
      simp only [Char.isDigit, Bool.and_eq_true, decide_eq_true_eq] at hc
      exact hc.1
    exact absurd (h0.trans hle) (by decide)

lemma digitsValue_toDigits (n : ℕ) : digitsValue (Nat.toDigits 10 n) = n := by
  rw [digitsValue, List.takeWhile_eq_self_iff.mpr fun c hc => isDigit_of_toDigits hc,
    Nat.ofDigitChars_ten_toDigits]

lemma comma_notMem_decimal (n : ℤ) : ',' ∉ decimal n := by
  have hdigits : ',' ∉ Nat.toDigits 10 n.natAbs := fun h => by
    have := isDigit_of_toDigits h
    simp at this
  unfold decimal
  split_ifs
  · simpa using hdigits
  · exact hdigits

lemma decimal_ne_nil (n : ℤ) : decimal n ≠ [] := by
  unfold decimal
  split_ifs
  · exact List.cons_ne_nil _ _
  · exact Nat.toDigits_ne_nil

/-- **A number is read back.** -/
lemma strtol_decimal {n : ℤ} (hn : IsInt n) : strtol (decimal n) = n := by
  have hval : signedValue ((decimal n).dropWhile isspace) = n := by
    unfold decimal
    split_ifs with h0
    · have hdrop : ('-' :: Nat.toDigits 10 n.natAbs).dropWhile isspace
          = '-' :: Nat.toDigits 10 n.natAbs := rfl
      rw [hdrop, signedValue, digitsValue_toDigits]
      omega
    · obtain ⟨c, t, ht⟩ := List.exists_cons_of_ne_nil (Nat.toDigits_ne_nil (n := n.natAbs) (b := 10))
      have hc : c.isDigit = true := isDigit_of_toDigits (n := n.natAbs) (by rw [ht]; simp)
      have hm : c ≠ '-' := by
        rintro rfl
        simp at hc
      have hp : c ≠ '+' := by
        rintro rfl
        simp at hc
      have hsigned : signedValue (c :: t) = digitsValue (c :: t) := by
        simp [signedValue, hm, hp]
      rw [ht, List.dropWhile_cons_of_neg (by simp [isspace_of_isDigit hc]), hsigned, ← ht, digitsValue_toDigits]
      omega
  obtain ⟨h0, h1⟩ := hn
  rw [strtol, hval]
  omega

/-- **The round trip**, with or without a comma at the end. -/
lemma parseVarlenSeqs_seqText {ns : List ℤ} (hns : ∀ n ∈ ns, IsInt n) :
    parseVarlenSeqs (seqText ns) = ns ∧
      (ns ≠ [] → parseVarlenSeqs (seqText ns ++ [',']) = ns) := by
  induction ns with
  | nil => exact ⟨by rw [seqText, parseVarlenSeqs], fun h => absurd rfl h⟩
  | cons n ns ih =>
    have hn := strtol_decimal (hns n List.mem_cons_self)
    have hcomma := comma_notMem_decimal n
    obtain ⟨ih₁, ih₂⟩ := ih fun m hm => hns m (List.mem_cons_of_mem _ hm)
    cases ns with
    | nil =>
      refine ⟨?_, fun _ => ?_⟩
      · rw [seqText, parseVarlenSeqs_field hcomma (decimal_ne_nil n), hn]
      · rw [seqText, parseVarlenSeqs_append hcomma, hn, parseVarlenSeqs]
    | cons m ns =>
      have htext : seqText (n :: m :: ns) = decimal n ++ ',' :: seqText (m :: ns) := rfl
      refine ⟨?_, fun _ => ?_⟩
      · rw [htext, parseVarlenSeqs_append hcomma, hn, ih₁]
      · rw [htext, List.append_assoc, List.cons_append, parseVarlenSeqs_append hcomma, hn,
          ih₂ (List.cons_ne_nil _ _)]

/-! ### The option -/

/-- `--varlen-seqs` with its text -/
def varlenSeqsArg (s : List Char) : Arg := .varlenSeqs (parseVarlenSeqs s)

/-- The lengths that an option adds. -/
def seqsOf : Arg → List ℤ
  | .varlenSeqs ns => ns.map atoi
  | _ => []

/-- The option loop collects them in order. -/
lemma foldlM_varlenSeqs {args : List Arg} {p p' : FmhaParams}
    (h : args.foldlM parseArg p = some p') :
    p'.varlenSeqs = p.varlenSeqs ++ args.flatMap seqsOf := by
  induction args generalizing p with
  | nil =>
    cases h
    exact (List.append_nil _).symm
  | cons a args ih =>
    rw [List.foldlM_cons] at h
    obtain ⟨q, hq, h⟩ := Option.bind_eq_some_iff.mp h
    have hstep : q.varlenSeqs = p.varlenSeqs ++ seqsOf a := by
      cases a with
      | varlenSeqs ns =>
        cases hq
        rfl
      | help | unknown => cases hq
      | batch | heads | kvHeads | seq | hdim | mask | lse | warmup | iters =>
        cases hq
        exact (List.append_nil _).symm
    rw [ih h, hstep, List.flatMap_cons, List.append_assoc]

/-- Nothing after the option loop changes the lengths. -/
lemma deriveParams_varlenSeqs {p p' : FmhaParams} (h : deriveParams p = some p') :
    p'.varlenSeqs = p.varlenSeqs := by
  unfold deriveParams at h
  simp only at h
  split_ifs at h
  cases h
  simp

/-! ### The command line -/

/-- More lengths before those that are there. -/
def addSeqs (ns : List ℤ) (p : FmhaParams) : FmhaParams :=
  { p with varlenSeqs := ns ++ p.varlenSeqs }

lemma foldlM_addSeqs (ns : List ℤ) (args : List Arg) (p : FmhaParams) :
    args.foldlM parseArg (addSeqs ns p) = (args.foldlM parseArg p).map (addSeqs ns) := by
  have hstep : ∀ p a, parseArg (addSeqs ns p) a = (parseArg p a).map (addSeqs ns) := by
    intro p a
    cases a with
    | varlenSeqs ms => simp [parseArg, addSeqs]
    | help | unknown => rfl
    | batch | heads | kvHeads | seq | hdim | mask | lse | warmup | iters => rfl
  induction args generalizing p with
  | nil => rfl
  | cons a args ih =>
    rw [List.foldlM_cons, List.foldlM_cons, hstep]
    cases parseArg p a with
    | none => rfl
    | some q => exact ih q

/-- The heads decide whether a command line is accepted. -/
lemma deriveParams_addSeqs (ns : List ℤ) (p : FmhaParams) :
    (deriveParams (addSeqs ns p)).isSome = (deriveParams p).isSome := by
  have hkv : (addSeqs ns p).deriveKvHeads = addSeqs ns p.deriveKvHeads := by
    unfold FmhaParams.deriveKvHeads addSeqs
    split_ifs <;> rfl
  have hgqa : ∀ q : FmhaParams, (addSeqs ns q).deriveGqa = addSeqs ns q.deriveGqa := by
    intro q
    unfold FmhaParams.deriveGqa addSeqs
    split_ifs <;> rfl
  have hheads : ∀ q : FmhaParams, (addSeqs ns q).qHeads = q.qHeads ∧ (addSeqs ns q).kvHeads = q.kvHeads :=
    fun q => ⟨rfl, rfl⟩
  simp only [deriveParams, hkv, hgqa, (hheads _).1, (hheads _).2]
  split_ifs <;> rfl

section CommandLine

variable {before after : List Arg} {s : List Char}

/-- The option adds its lengths to what the others give. -/
lemma foldlM_option (hother : ∀ a ∈ before ++ after, seqsOf a = []) :
    (before ++ varlenSeqsArg s :: after).foldlM parseArg defaultParams =
      ((before ++ after).foldlM parseArg defaultParams).map
        (addSeqs ((parseVarlenSeqs s).map atoi)) := by
  have hbefore : before.flatMap seqsOf = [] :=
    List.flatMap_eq_nil_iff.mpr fun a ha => hother a (List.mem_append_left _ ha)
  rw [List.foldlM_append, List.foldlM_append]
  cases hq : before.foldlM parseArg defaultParams with
  | none => rfl
  | some q =>
    have hnil : q.varlenSeqs = [] := by
      rw [foldlM_varlenSeqs hq, hbefore]
      rfl
    have hstep : parseArg q (varlenSeqsArg s) = some (addSeqs ((parseVarlenSeqs s).map atoi) q) := by
      simp [varlenSeqsArg, parseArg, addSeqs, hnil]
    simp only [Option.bind_eq_bind, Option.bind_some, List.foldlM_cons, hstep]
    exact foldlM_addSeqs _ _ _

lemma parseArgs_accepts_option (hother : ∀ a ∈ before ++ after, seqsOf a = []) :
    (parseArgs (before ++ varlenSeqsArg s :: after)).isSome = (parseArgs (before ++ after)).isSome := by
  rw [parseArgs, parseArgs, foldlM_option hother]
  cases (before ++ after).foldlM parseArg defaultParams with
  | none => rfl
  | some q => exact deriveParams_addSeqs _ q

lemma parseArgs_varlenSeqs {p : FmhaParams} (hother : ∀ a ∈ before ++ after, seqsOf a = [])
    (h : parseArgs (before ++ varlenSeqsArg s :: after) = some p) :
    p.varlenSeqs = (parseVarlenSeqs s).map atoi := by
  have hnone : ∀ args : List Arg, (∀ a ∈ args, seqsOf a = []) → args.flatMap seqsOf = [] :=
    fun args hargs => List.flatMap_eq_nil_iff.mpr hargs
  obtain ⟨q, hq, h⟩ := Option.bind_eq_some_iff.mp h
  rw [deriveParams_varlenSeqs h, foldlM_varlenSeqs hq, List.flatMap_append, List.flatMap_cons,
    hnone before fun a ha => hother a (List.mem_append_left _ ha),
    hnone after fun a ha => hother a (List.mem_append_right _ ha)]
  exact List.append_nil _

lemma seqFields_ne_nil (hs : s ≠ []) : seqFields s ≠ [] := by
  obtain ⟨c, t, rfl⟩ := List.exists_cons_of_ne_nil hs
  intro h
  have := parseVarlenSeqs_eq (c :: t)
  rw [h, parseVarlenSeqs] at this
  exact List.cons_ne_nil _ _ this

/-- **The text of `--varlen-seqs`.** The option never makes a command line refused. On an accepted
one, with the option given once, the benchmark takes a sequence for each field of the text between
commas, an empty one at its end left out, with the longest as the sequence length; and lengths
written in decimal, with or without a comma at the end, are read back as they are. -/
theorem varlen_text_read (hother : ∀ a ∈ before ++ after, seqsOf a = []) :
    ((parseArgs (before ++ varlenSeqsArg s :: after)).isSome ↔ (parseArgs (before ++ after)).isSome) ∧
      ∀ p, parseArgs (before ++ varlenSeqsArg s :: after) = some p →
        p.varlenSeqs = (seqFields s).map (fun f => atoi (strtol f)) ∧
        (s ≠ [] → p.batch = toInt (seqFields s).length ∧ p.seqLen = maxSeq p.varlenSeqs) ∧
        ∀ ns, (∀ n ∈ ns, IsInt n) → ns ≠ [] → (s = seqText ns ∨ s = seqText ns ++ [',']) →
          p.varlenSeqs = ns := by
  refine ⟨by rw [parseArgs_accepts_option hother], fun p h => ?_⟩
  have hseqs := parseArgs_varlenSeqs hother h
  have hfields : p.varlenSeqs = (seqFields s).map (fun f => atoi (strtol f)) := by
    rw [hseqs, parseVarlenSeqs_eq, List.map_map]
    rfl
  refine ⟨hfields, fun hs => ?_, fun ns hns hne htext => ?_⟩
  · have hmode : p.varlenMode := by
      have hne := seqFields_ne_nil hs
      simp [FmhaParams.varlenMode, hfields, hne]
    have hd := parseArgs_derived h
    have hlen : p.varlenSeqs.length = (seqFields s).length := by rw [hfields, List.length_map]
    exact ⟨by rw [hd.batch hmode, hlen], hd.seqLen hmode⟩
  · have hread : parseVarlenSeqs s = ns := by
      obtain ⟨h₁, h₂⟩ := parseVarlenSeqs_seqText hns
      obtain rfl | rfl := htext
      · exact h₁
      · exact h₂ hne
    have hatoi : ns.map atoi = ns :=
      (List.map_congr_left fun n hn => toInt_eq (hns n hn)).trans (List.map_id ns)
    rw [hseqs, hread, hatoi]

/-- A text of two lengths, with a comma at the end, after the heads. -/
theorem varlen_text_read_two :
    (∀ a ∈ [Arg.heads 4, .kvHeads 2] ++ [.mask 1], seqsOf a = []) ∧
      (∀ n ∈ [(100 : ℤ), 37], IsInt n) ∧
      ∃ p, parseArgs ([.heads 4, .kvHeads 2] ++ varlenSeqsArg (seqText [100, 37] ++ [',']) :: [.mask 1])
          = some p ∧
        p.varlenSeqs = [100, 37] := by
  have hother : ∀ a ∈ [Arg.heads 4, .kvHeads 2] ++ [.mask 1], seqsOf a = [] := by simp [seqsOf]
  have hint : ∀ n ∈ [(100 : ℤ), 37], IsInt n := by simp [IsInt]
  obtain ⟨haccept, hread⟩ := varlen_text_read (s := seqText [100, 37] ++ [',']) hother
  obtain ⟨p, hp⟩ := Option.isSome_iff_exists.mp (haccept.mpr (by decide))
  exact ⟨hother, hint, p, hp, (hread p hp).2.2 [100, 37] hint (List.cons_ne_nil _ _) (Or.inr rfl)⟩

end CommandLine

end FmhaNative.VarlenText
