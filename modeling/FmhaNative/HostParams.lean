import FmhaNative.Words

/-!
The problem description of the host: how the tests and the benchmark fill it in.

An `int` is an integer in the 32-bit range; a result that the source keeps in an `int`, a
`uint32_t` or a `size_t` is wrapped to it.
-/

namespace FmhaNative.Host

open Words

/-- The value kept in an `int`, in a `uint32_t` and in a `size_t`. -/
def toInt (x : ℤ) : ℤ := signed 32 x
def toUint32 (x : ℤ) : ℤ := unsigned 32 x
def toSizeT (x : ℤ) : ℤ := unsigned 64 x

/-- The values of an `int`. -/
def IsInt (x : ℤ) : Prop := -2147483648 ≤ x ∧ x < 2147483648

instance (x : ℤ) : Decidable (IsInt x) := inferInstanceAs (Decidable (_ ∧ _))

lemma toInt_def (x : ℤ) : toInt x = (x + 2147483648) % 4294967296 - 2147483648 := rfl

lemma toInt_isInt (x : ℤ) : IsInt (toInt x) := signed_mem (by norm_num) x

lemma toInt_eq_iff {x : ℤ} : toInt x = x ↔ IsInt x := signed_eq_iff (by norm_num)

lemma toInt_eq {x : ℤ} (h : IsInt x) : toInt x = x := toInt_eq_iff.mpr h

lemma toInt_mul (x y : ℤ) : toInt (toInt x * y) = toInt (x * y) := signed_mul 32 x y

lemma toInt_toUint32 (x : ℤ) : toInt (toUint32 x) = toInt x := signed_unsigned 32 x

lemma toUint32_toInt (x : ℤ) : toUint32 (toInt x) = toUint32 x := unsigned_signed 32 x

lemma toUint32_add (x y : ℤ) : toUint32 (toUint32 x + y) = toUint32 (x + y) := unsigned_add 32 x y

lemma toUint32_mul (x y : ℤ) : toUint32 (x * toUint32 y) = toUint32 (x * y) := unsigned_mul 32 x y

lemma toUint32_eq {x : ℤ} (h0 : 0 ≤ x) (h : x < 4294967296) : toUint32 x = x := unsigned_eq h0 h

lemma toSizeT_add (x y : ℤ) : toSizeT (toSizeT x + y) = toSizeT (x + y) := unsigned_add 64 x y

lemma toSizeT_eq {x : ℤ} (h0 : 0 ≤ x) (h : x < 18446744073709551616) : toSizeT x = x :=
  unsigned_eq h0 h

/-! ### Products in 32 bits -/

lemma mul_lt_of_int {x y : ℤ} (hx0 : 0 ≤ x) (hx : x < 2147483648) (hy0 : 0 ≤ y)
    (hy : y < 2147483648) : x * y < 4611686018427387904 :=
  calc x * y < 2147483648 * 2147483648 := mul_lt_mul'' hx hy hx0 hy0
    _ = 4611686018427387904 := by norm_num

/-- A byte stride that fits, halved. -/
lemma half_toUint32 {x : ℤ} (hx : 0 ≤ x) (h : x < 2147483648) : toUint32 (x * 2) / 2 = x := by
  rw [toUint32_eq (by omega) (by omega), Int.mul_ediv_cancel _ (by norm_num)]

lemma mul_half_toUint32 {b x : ℤ} (h : b = 0 ∨ x < 2147483648) (hx : 0 ≤ x) :
    b * (toUint32 (x * 2) / 2) = b * x := by
  rcases h with rfl | h
  · rw [zero_mul, zero_mul]
  · rw [half_toUint32 hx h]

lemma mul_toInt {b x : ℤ} (h : b = 0 ∨ x < 2147483648) (hx : 0 ≤ x) : b * toInt x = b * x := by
  rcases h with rfl | h
  · rw [zero_mul, zero_mul]
  · rw [toInt_eq ⟨by omega, h⟩]

structure FmhaParams where
  (batch qHeads kvHeads gqa : ℤ)
  (seqLen kvSeqLen : ℤ)
  (headDim hdimPadded : ℤ)
  (mask lse : ℤ)
  varlenSeqs : List ℤ

def FmhaParams.hdimDispatch (p : FmhaParams) : ℤ := if 0 < p.hdimPadded then p.hdimPadded else p.headDim

def FmhaParams.varlenMode (p : FmhaParams) : Bool := !p.varlenSeqs.isEmpty

/-- The longest of the lengths, at least 0. -/
def maxSeq (seqs : List ℤ) : ℤ := seqs.foldl (fun m s => if m < s then s else m) 0

/-! ### The tests -/

structure TestCase where
  (b h s d : ℤ)
  (kvHeads kvSeq : ℤ)
  (mask lse : ℤ)
  varlenSeqs : List ℤ

/-- `make_params` -/
def makeParams (tc : TestCase) : FmhaParams :=
  let kvHeads := if tc.kvHeads = 0 then tc.h else tc.kvHeads
  let gqa := if tc.h ≠ kvHeads then tc.h.tdiv kvHeads else 1
  let varlen := !tc.varlenSeqs.isEmpty
  let batch := if varlen then toInt tc.varlenSeqs.length else tc.b
  let seqLen := if varlen then maxSeq tc.varlenSeqs else tc.s
  let kvSeqLen := if varlen ∧ tc.kvSeq = 0 then maxSeq tc.varlenSeqs else tc.kvSeq
  let kvSeqLen := if kvSeqLen = 0 then seqLen else kvSeqLen
  { batch := batch, qHeads := tc.h, kvHeads := kvHeads, gqa := gqa
    seqLen := seqLen, kvSeqLen := kvSeqLen
    headDim := tc.d, hdimPadded := tc.d
    mask := tc.mask, lse := tc.lse, varlenSeqs := tc.varlenSeqs }

lemma makeParams_kvHeads_pos {tc : TestCase} (hh : 0 < tc.h) (hkv : 0 ≤ tc.kvHeads) :
    0 < (makeParams tc).kvHeads := by
  unfold makeParams
  simp only
  split_ifs <;> omega

/-- The group size is the ratio of the head counts. -/
lemma makeParams_gqa {tc : TestCase} (hh : 0 < tc.h) :
    (makeParams tc).gqa = tc.h / (makeParams tc).kvHeads := by
  have hself : tc.h / tc.h = 1 := Int.ediv_self hh.ne'
  have hq : (makeParams tc).gqa = if tc.h ≠ (makeParams tc).kvHeads then
      tc.h.tdiv (makeParams tc).kvHeads else 1 := rfl
  rw [hq]
  split_ifs with he
  · exact Int.tdiv_eq_ediv_of_nonneg hh.le
  · rw [← not_not.mp he, hself]

/-- Query heads in whole groups. -/
lemma makeParams_groups {tc : TestCase} (hh : 0 < tc.h) (hkv : 0 ≤ tc.kvHeads)
    (hdvd : (makeParams tc).kvHeads ∣ (makeParams tc).qHeads) :
    0 < (makeParams tc).gqa ∧
      (makeParams tc).qHeads = (makeParams tc).kvHeads * (makeParams tc).gqa := by
  have hpos := makeParams_kvHeads_pos hh hkv
  rw [makeParams_gqa hh]
  exact ⟨Int.ediv_pos_of_pos_of_dvd hh hpos.le hdvd, (Int.mul_ediv_cancel' hdvd).symm⟩

lemma makeParams_varlenMode (tc : TestCase) : (makeParams tc).varlenMode = false ↔ tc.varlenSeqs = [] := by
  simp [FmhaParams.varlenMode, makeParams]

lemma makeParams_batch (tc : TestCase) :
    (makeParams tc).batch = if tc.varlenSeqs = [] then tc.b else toInt tc.varlenSeqs.length := by
  cases hl : tc.varlenSeqs <;> simp [makeParams, hl]

lemma makeParams_seqLen (tc : TestCase) :
    (makeParams tc).seqLen = if tc.varlenSeqs = [] then tc.s else maxSeq tc.varlenSeqs := by
  cases hl : tc.varlenSeqs <;> simp [makeParams, hl]

lemma makeParams_kvSeqLen (tc : TestCase) :
    (makeParams tc).kvSeqLen = if tc.kvSeq = 0 then (makeParams tc).seqLen else tc.kvSeq := by
  cases hl : tc.varlenSeqs <;> by_cases h0 : tc.kvSeq = 0 <;> simp [makeParams, hl, h0]

/-! ### The benchmark -/

/-- A command-line option; a number is what `strtol` makes of the text. -/
inductive Arg
  | varlenSeqs (ns : List ℤ)
  | batch (n : ℤ)
  | heads (n : ℤ)
  | kvHeads (n : ℤ)
  | seq (n : ℤ)
  | hdim (n : ℤ)
  | mask (n : ℤ)
  | lse (n : ℤ)
  | warmup (n : ℤ)
  | iters (n : ℤ)
  | help
  | unknown

def atoi (n : ℤ) : ℤ := toInt n

/-- The defaults, with the benchmark's head dimension. -/
def defaultParams : FmhaParams :=
  { batch := 2, qHeads := 16, kvHeads := 0, gqa := 1, seqLen := 4096, kvSeqLen := 0
    headDim := 64, hdimPadded := 0, mask := 0, lse := 0, varlenSeqs := [] }

/-- One option; `none` where the program prints its usage and exits. -/
def parseArg (p : FmhaParams) : Arg → Option FmhaParams
  | .varlenSeqs ns => some { p with varlenSeqs := p.varlenSeqs ++ ns.map atoi }
  | .batch n => some { p with batch := atoi n }
  | .heads n => some { p with qHeads := atoi n }
  | .kvHeads n => some { p with kvHeads := atoi n }
  | .seq n => some { p with seqLen := atoi n }
  | .hdim n => some { p with headDim := atoi n }
  | .mask n => some { p with mask := atoi n }
  | .lse n => some { p with lse := atoi n }
  | .warmup _ | .iters _ => some p
  | .help | .unknown => none

/-- The key heads default to the query heads. -/
def FmhaParams.deriveKvHeads (p : FmhaParams) : FmhaParams :=
  if p.kvHeads = 0 then { p with kvHeads := p.qHeads } else p

def FmhaParams.deriveGqa (p : FmhaParams) : FmhaParams :=
  if p.gqa = 1 ∧ p.qHeads ≠ p.kvHeads then { p with gqa := p.qHeads.tdiv p.kvHeads } else p

/-- Packed sequences give the batch and the longest length. -/
def FmhaParams.deriveVarlen (p : FmhaParams) : FmhaParams :=
  if p.varlenMode then
    { p with batch := toInt p.varlenSeqs.length, seqLen := maxSeq p.varlenSeqs }
  else p

def FmhaParams.deriveKvSeqLen (p : FmhaParams) : FmhaParams :=
  if p.kvSeqLen = 0 then { p with kvSeqLen := p.seqLen } else p

section Derive

variable (p : FmhaParams)

@[simp] lemma FmhaParams.deriveKvHeads_varlenSeqs : p.deriveKvHeads.varlenSeqs = p.varlenSeqs := by
  unfold FmhaParams.deriveKvHeads
  split_ifs <;> rfl

@[simp] lemma FmhaParams.deriveGqa_varlenSeqs : p.deriveGqa.varlenSeqs = p.varlenSeqs := by
  unfold FmhaParams.deriveGqa
  split_ifs <;> rfl

@[simp] lemma FmhaParams.deriveGqa_kvHeads : p.deriveGqa.kvHeads = p.kvHeads := by
  unfold FmhaParams.deriveGqa
  split_ifs <;> rfl

@[simp] lemma FmhaParams.deriveVarlen_varlenSeqs : p.deriveVarlen.varlenSeqs = p.varlenSeqs := by
  unfold FmhaParams.deriveVarlen
  split_ifs <;> rfl

@[simp] lemma FmhaParams.deriveKvSeqLen_varlenSeqs : p.deriveKvSeqLen.varlenSeqs = p.varlenSeqs := by
  unfold FmhaParams.deriveKvSeqLen
  split_ifs <;> rfl

end Derive

/-- What follows the option loop; `none` where a division traps or the head counts do not
divide. -/
def deriveParams (p : FmhaParams) : Option FmhaParams :=
  let p := p.deriveKvHeads
  if p.kvHeads = 0 ∨ (p.qHeads = -2147483648 ∧ p.kvHeads = -1) then none
  else
    let p := p.deriveGqa
    if p.qHeads.tmod p.kvHeads ≠ 0 then none else some p.deriveVarlen.deriveKvSeqLen

/-- `parse_args` -/
def parseArgs (args : List Arg) : Option FmhaParams :=
  (args.foldlM parseArg defaultParams).bind deriveParams

/-! ### What the benchmark accepts -/

/-- The fields of accepted parameters are `int`s; the head dimension is not padded, and keys
and queries have one length. -/
structure Accepted (p : FmhaParams) : Prop where
  batch : IsInt p.batch
  qHeads : IsInt p.qHeads
  kvHeads : IsInt p.kvHeads
  seqLen : IsInt p.seqLen
  headDim : IsInt p.headDim
  kvSeqLen : p.kvSeqLen = p.seqLen
  hdimPadded : p.hdimPadded = 0
  varlenSeqs : ∀ s ∈ p.varlenSeqs, IsInt s
  batch_le : p.varlenMode → p.batch ≤ p.varlenSeqs.length

/-- The state of the option loop. -/
structure Parsed (p : FmhaParams) : Prop where
  batch : IsInt p.batch
  qHeads : IsInt p.qHeads
  kvHeads : IsInt p.kvHeads
  seqLen : IsInt p.seqLen
  headDim : IsInt p.headDim
  kvSeqLen : p.kvSeqLen = 0
  hdimPadded : p.hdimPadded = 0
  varlenSeqs : ∀ s ∈ p.varlenSeqs, IsInt s

lemma defaultParams_parsed : Parsed defaultParams := by
  constructor <;> simp [defaultParams, IsInt]

/-- An option keeps the fields `int`s. -/
lemma parseArg_parsed {p p' : FmhaParams} (h : Parsed p) {a : Arg} (ha : parseArg p a = some p') :
    Parsed p' := by
  have hint : ∀ n, IsInt (atoi n) := toInt_isInt
  cases a with
  | varlenSeqs ns =>
    cases ha
    refine { h with varlenSeqs := fun s hs => ?_ }
    rcases List.mem_append.mp hs with hs | hs
    · exact h.varlenSeqs s hs
    · obtain ⟨n, -, rfl⟩ := List.mem_map.mp hs
      exact hint n
  | batch n =>
    cases ha
    exact { h with batch := hint n }
  | heads n =>
    cases ha
    exact { h with qHeads := hint n }
  | kvHeads n =>
    cases ha
    exact { h with kvHeads := hint n }
  | seq n =>
    cases ha
    exact { h with seqLen := hint n }
  | hdim n =>
    cases ha
    exact { h with headDim := hint n }
  | mask n | lse n =>
    cases ha
    exact { h with }
  | warmup n | iters n =>
    cases ha
    exact h
  | help | unknown => cases ha

/-- The whole option loop does. -/
lemma parseArgs_parsed {args : List Arg} {p p' : FmhaParams} (h : Parsed p)
    (hp : args.foldlM parseArg p = some p') : Parsed p' := by
  induction args generalizing p with
  | nil =>
    cases hp
    exact h
  | cons a args ih =>
    rw [List.foldlM_cons] at hp
    obtain ⟨q, hq, hp⟩ := Option.bind_eq_some_iff.mp hp
    exact ih (parseArg_parsed h hq) hp

lemma maxSeq_snoc (seqs : List ℤ) (s : ℤ) :
    maxSeq (seqs ++ [s]) = if maxSeq seqs < s then s else maxSeq seqs := by
  rw [maxSeq, List.foldl_append]
  rfl

lemma maxSeq_nonneg (seqs : List ℤ) : 0 ≤ maxSeq seqs := by
  induction seqs using List.reverseRecOn with
  | nil => exact le_rfl
  | append_singleton seqs s ih =>
    rw [maxSeq_snoc]
    split_ifs <;> omega

lemma maxSeq_isInt {seqs : List ℤ} (h : ∀ s ∈ seqs, IsInt s) : IsInt (maxSeq seqs) := by
  induction seqs using List.reverseRecOn with
  | nil => exact ⟨by norm_num [maxSeq], by norm_num [maxSeq]⟩
  | append_singleton seqs s ih =>
    rw [maxSeq_snoc]
    split_ifs
    · exact h s (by simp)
    · exact ih fun s' hs' => h s' (by simp [hs'])

/-- No length is above the longest. -/
lemma le_maxSeq {seqs : List ℤ} {s : ℤ} (hs : s ∈ seqs) : s ≤ maxSeq seqs := by
  induction seqs using List.reverseRecOn with
  | nil => exact absurd hs List.not_mem_nil
  | append_singleton seqs t ih =>
    rw [maxSeq_snoc]
    rcases List.mem_append.mp hs with hs | hs
    · have := ih hs
      split_ifs <;> omega
    · obtain rfl := List.mem_singleton.mp hs
      split_ifs <;> omega

lemma toInt_le {x : ℤ} (h : 0 ≤ x) : toInt x ≤ x := by
  rw [toInt_def]
  omega

lemma Parsed.deriveKvHeads {p : FmhaParams} (h : Parsed p) : Parsed p.deriveKvHeads := by
  unfold FmhaParams.deriveKvHeads
  split_ifs
  · exact { h with kvHeads := h.qHeads }
  · exact h

lemma Parsed.deriveGqa {p : FmhaParams} (h : Parsed p) : Parsed p.deriveGqa := by
  unfold FmhaParams.deriveGqa
  split_ifs
  · exact { h with }
  · exact h

lemma Parsed.deriveVarlen {p : FmhaParams} (h : Parsed p) : Parsed p.deriveVarlen := by
  unfold FmhaParams.deriveVarlen
  split_ifs
  · exact { h with batch := toInt_isInt _, seqLen := maxSeq_isInt h.varlenSeqs }
  · exact h

/-- The batch is no more than the number of sequences. -/
lemma batch_le_length {p : FmhaParams} (h : p.deriveVarlen.varlenMode) :
    p.deriveVarlen.batch ≤ p.deriveVarlen.varlenSeqs.length := by
  unfold FmhaParams.deriveVarlen at h ⊢
  split_ifs at h ⊢ with hv
  · exact toInt_le (Int.natCast_nonneg _)
  · exact absurd h hv

/-- **What `parse_args` returns.** -/
theorem parseArgs_accepted {args : List Arg} {p : FmhaParams} (h : parseArgs args = some p) :
    Accepted p := by
  obtain ⟨q, hq, h⟩ := Option.bind_eq_some_iff.mp h
  have hp := (parseArgs_parsed defaultParams_parsed hq).deriveKvHeads.deriveGqa.deriveVarlen
  unfold deriveParams at h
  simp only at h
  split_ifs at h with htrap hmod
  cases h
  unfold FmhaParams.deriveKvSeqLen
  rw [if_pos hp.kvSeqLen]
  exact ⟨hp.batch, hp.qHeads, hp.kvHeads, hp.seqLen, hp.headDim, rfl, hp.hdimPadded, hp.varlenSeqs,
    batch_le_length⟩

/-- The head counts stay as they were parsed, and the key heads divide the query heads; packed
sequences give the batch and the longest length. -/
structure Derived (p : FmhaParams) : Prop where
  kvHeads_ne : p.kvHeads ≠ 0
  divides : p.qHeads.tmod p.kvHeads = 0
  batch : p.varlenMode → p.batch = toInt p.varlenSeqs.length
  seqLen : p.varlenMode → p.seqLen = maxSeq p.varlenSeqs

lemma parseArgs_derived {args : List Arg} {p : FmhaParams} (h : parseArgs args = some p) :
    Derived p := by
  obtain ⟨q, -, h⟩ := Option.bind_eq_some_iff.mp h
  have hrest : ∀ q : FmhaParams, q.kvHeads ≠ 0 → q.qHeads.tmod q.kvHeads = 0 →
      Derived q.deriveVarlen.deriveKvSeqLen := by
    intro q h0 hmod
    have hq : Derived q.deriveVarlen := by
      unfold FmhaParams.deriveVarlen
      split_ifs with hv
      · exact ⟨h0, hmod, fun _ => rfl, fun _ => rfl⟩
      · exact ⟨h0, hmod, fun h => absurd h hv, fun h => absurd h hv⟩
    unfold FmhaParams.deriveKvSeqLen
    split_ifs
    · exact ⟨hq.kvHeads_ne, hq.divides, hq.batch, hq.seqLen⟩
    · exact hq
  unfold deriveParams at h
  simp only at h
  split_ifs at h with htrap hmod
  cases h
  refine hrest _ ?_ (not_not.mp hmod)
  rw [FmhaParams.deriveGqa_kvHeads]
  exact fun h0 => htrap (Or.inl h0)

end FmhaNative.Host
