import FmhaNative.HostBuffers
import FmhaNative.Indexing
import FmhaNative.LoopNests

/-!
`fill_random`: the random fill and the probes of the environment as a list of writes in program
order, and when all of them stay inside the buffers.
-/

namespace FmhaNative.FillBounds

open Host LoopNests

/-! ### The writes -/

inductive Buf
  | hQ
  | hK
  | hV

structure Write (β : Type*) where
  buf : Buf
  index : ℤ
  value : β

/-- `PROBE_ZERO_TILE`: `last`, or a number as `strtol` reads it. -/
inductive ZeroTile
  | last
  | tile (n : ℤ)

/-- The probe variables that are set; a constant is what `float_to_bf16` makes of it. -/
structure Probes (β : Type*) where
  (vConst qConst kConst : Option β)
  zeroTile : Option ZeroTile

section Writes

variable {β : Type*} (p : FmhaParams)

/-- The lengths of the host vectors. -/
def Buf.size : Buf → ℤ
  | .hQ => p.buffers.szQ
  | .hK => p.buffers.szK
  | .hV => p.buffers.szV

/-- The number of rows that `fill_padded` is given. -/
def fillRows (heads rows : ℤ) : ℤ :=
  if p.varlenMode then toInt (toUint32 (heads * p.buffers.totalSeqlen))
  else toInt (toInt (p.batch * heads) * rows)

/-- `fill_padded`; its values are the random numbers from `next` on. -/
def fillPadded (rand : ℕ → β) (next : ℕ) (buf : Buf) (rows : ℤ) : List (Write β) :=
  (Int.range 0 rows).flatMap fun r => (Int.range 0 p.headDim).map fun d =>
    ⟨buf, toSizeT (r * p.hdimDispatch + d), rand (next + (r * p.headDim + d).toNat)⟩

/-- How many random numbers `fill_padded` takes. -/
def taken (rows : ℤ) : ℕ := rows.toNat * p.headDim.toNat

/-- `base` -/
def probeBase (heads rows b h : ℤ) : ℤ := toSizeT ((b * heads + h) * rows * p.hdimDispatch)

/-- A tensor set to a constant. -/
def constProbe (buf : Buf) (heads rows : ℤ) (value : β) : List (Write β) :=
  (Int.range 0 p.batch).flatMap fun b => (Int.range 0 heads).flatMap fun h =>
    (Int.range 0 rows).flatMap fun r => (Int.range 0 p.headDim).map fun d =>
      ⟨buf, toSizeT (probeBase p heads rows b h + r * p.hdimDispatch + d), value⟩

/-- `t_lo` -/
def tileLo : ZeroTile → ℤ
  | .last => max 0 (toInt (p.kvSeqLen - 32))
  | .tile n => toInt (atoi n * 32)

/-- `t_hi` -/
def tileHi : ZeroTile → ℤ
  | .last => p.kvSeqLen
  | .tile n => min p.kvSeqLen (toInt (tileLo p (.tile n) + 32))

/-- A tile of keys zeroed in V. -/
def tileProbe [Zero β] (t : ZeroTile) : List (Write β) :=
  (Int.range 0 p.batch).flatMap fun b => (Int.range 0 p.kvHeads).flatMap fun h =>
    (Int.range (tileLo p t) (tileHi p t)).flatMap fun r => (Int.range 0 p.hdimDispatch).map fun d =>
      ⟨.hV, toSizeT (probeBase p p.kvHeads p.kvSeqLen b h + r * p.hdimDispatch + d), 0⟩

/-- `fill_random`; `randBf16 seed` are the numbers that `rand_bf16` gives after `srand(seed)`. -/
def fillRandom [Zero β] (randBf16 : ℤ → ℕ → β) (seed : ℤ) (env : Probes β) : List (Write β) :=
  let rand := randBf16 seed
  let rowsQ := fillRows p p.qHeads p.seqLen
  let rowsK := fillRows p p.kvHeads p.kvSeqLen
  let rowsV := fillRows p p.kvHeads p.kvSeqLen
  fillPadded p rand 0 .hQ rowsQ
    ++ fillPadded p rand (taken p rowsQ) .hK rowsK
    ++ fillPadded p rand (taken p rowsQ + taken p rowsK) .hV rowsV
    ++ (env.vConst.toList.flatMap fun v => constProbe p .hV p.kvHeads p.kvSeqLen v)
    ++ (env.qConst.toList.flatMap fun v => constProbe p .hQ p.qHeads p.seqLen v)
    ++ (env.kConst.toList.flatMap fun v => constProbe p .hK p.kvHeads p.kvSeqLen v)
    ++ env.zeroTile.toList.flatMap fun t => tileProbe p t

def InBounds (ws : List (Write β)) : Prop := ∀ w ∈ ws, w.index < w.buf.size p

variable {p}

lemma inBounds_append (ws ws' : List (Write β)) :
    InBounds p (ws ++ ws') ↔ InBounds p ws ∧ InBounds p ws' := List.forall_mem_append

lemma inBounds_toList {γ : Type*} (o : Option γ) (f : γ → List (Write β)) :
    InBounds p (o.toList.flatMap f) ↔ ∀ x ∈ o, InBounds p (f x) := by
  cases o with
  | none => simp [InBounds]
  | some x => simp

end Writes

/-! ### The condition -/

section Fits

variable (p : FmhaParams)

/-- Of `rows` rows, the columns below the head dimension lie in a buffer of `size` elements. -/
def RowsFit (size rows : ℤ) : Prop :=
  0 < rows → 0 < p.headDim → (rows - 1) * p.hdimDispatch + p.headDim ≤ size

/-- So do the rows of all batches and heads. -/
def ProbeFits (size heads rows : ℤ) : Prop :=
  0 < p.batch → 0 < heads → RowsFit p size (p.batch * heads * rows)

/-- The rows from `lo` to `hi` of the last head of V lie in `h_V`. -/
def TileFits (lo hi : ℤ) : Prop :=
  0 < p.batch → 0 < p.kvHeads → lo < hi → 0 < p.hdimDispatch →
    0 ≤ lo ∧ ((p.batch * p.kvHeads - 1) * p.kvSeqLen + hi) * p.hdimDispatch ≤ p.buffers.szV

instance (size rows : ℤ) : Decidable (RowsFit p size rows) := inferInstanceAs (Decidable (_ → _ → _))
instance (size heads rows : ℤ) : Decidable (ProbeFits p size heads rows) :=
  inferInstanceAs (Decidable (_ → _ → _))
instance (lo hi : ℤ) : Decidable (TileFits p lo hi) :=
  inferInstanceAs (Decidable (_ → _ → _ → _ → _))

/-- What the parameters and the environment need. -/
structure Fits {β : Type*} (env : Probes β) : Prop where
  fillQ : RowsFit p p.buffers.szQ (fillRows p p.qHeads p.seqLen)
  fillK : RowsFit p p.buffers.szK (fillRows p p.kvHeads p.kvSeqLen)
  fillV : RowsFit p p.buffers.szV (fillRows p p.kvHeads p.kvSeqLen)
  vConst : env.vConst.isSome → ProbeFits p p.buffers.szV p.kvHeads p.kvSeqLen
  qConst : env.qConst.isSome → ProbeFits p p.buffers.szQ p.qHeads p.seqLen
  kConst : env.kConst.isSome → ProbeFits p p.buffers.szK p.kvHeads p.kvSeqLen
  zeroTile : ∀ t ∈ env.zeroTile, TileFits p (tileLo p t) (tileHi p t)

end Fits

lemma probe_index (p : FmhaParams) (heads rows b h r d : ℤ) :
    toSizeT (probeBase p heads rows b h + r * p.hdimDispatch + d)
      = toSizeT (((b * heads + h) * rows + r) * p.hdimDispatch + d) := by
  rw [probeBase, add_assoc, toSizeT_add]
  congr 1
  ring

/-- Parameters whose fields are `int`s, with no more columns than a row has. -/
structure Ints (p : FmhaParams) : Prop where
  headDim : IsInt p.headDim
  hdimPadded : IsInt p.hdimPadded
  kvSeqLen : IsInt p.kvSeqLen
  headDim_le : p.headDim ≤ p.hdimDispatch

section Nests

variable {β : Type*} {p : FmhaParams} (hp : Ints p) (hc : p.buffers.Constructed)

include hp

lemma hdimDispatch_lt : p.hdimDispatch < 2147483648 := by
  unfold FmhaParams.hdimDispatch
  split_ifs
  · exact hp.hdimPadded.2
  · exact hp.headDim.2

omit hp in
include hc in
lemma size_le (buf : Buf) : buf.size p ≤ 4611686018427387903 := by
  have h2 : maxSize 2 = 4611686018427387903 := by decide
  rw [← h2]
  cases buf
  · exact hc.szQ
  · exact hc.szK
  · exact hc.szV

include hc

/-- Consecutive rows from the first. -/
lemma rowsFit_iff (buf : Buf) (rows : ℤ) :
    (∀ r, 0 ≤ r → r < rows → ∀ d, 0 ≤ d → d < p.headDim →
        toSizeT (r * p.hdimDispatch + d) < buf.size p) ↔ RowsFit p (buf.size p) rows := by
  have hD := hdimDispatch_lt hp
  have hle := hp.headDim_le
  have hsize := size_le hc buf
  by_cases hne : 0 < rows ∧ 0 < p.headDim
  · have hblocks := blocks_lt_iff (w := 64) (a := 0) (t := p.hdimDispatch) (K := rows)
      (n := p.headDim) (R := buf.size p) le_rfl (by norm_num) (by omega) hne.1 hne.2 (by omega)
      (by omega)
    simp only [zero_add] at hblocks
    unfold RowsFit toSizeT
    rw [hblocks]
    simp only [hne.1, hne.2, true_imp_iff]
  · constructor
    · intro _ hr hd
      exact absurd ⟨hr, hd⟩ hne
    · intro _ r hr hrr d hd hdD
      exact absurd ⟨by omega, by omega⟩ hne

lemma fillPadded_inBounds_iff (rand : ℕ → β) (next : ℕ) (buf : Buf) (rows : ℤ) :
    InBounds p (fillPadded p rand next buf rows) ↔ RowsFit p (buf.size p) rows := by
  rw [← rowsFit_iff hp hc]
  simp only [InBounds, fillPadded, List.forall_mem_flatMap, List.forall_mem_map, Int.mem_range_iff,
    and_imp]

/-- The rows of the batches and heads follow each other. -/
lemma constProbe_inBounds_iff (buf : Buf) (heads rows : ℤ) (value : β) :
    InBounds p (constProbe p buf heads rows value) ↔ ProbeFits p (buf.size p) heads rows := by
  simp only [InBounds, constProbe, List.forall_mem_flatMap, List.forall_mem_map, Int.mem_range_iff,
    and_imp, probe_index]
  constructor
  · intro h hB hheads hpos
    have hrows : 0 < rows := pos_of_mul_pos_right hpos (mul_pos hB hheads).le
    revert hpos
    refine (rowsFit_iff hp hc buf _).mp ?_
    rw [← forall_digits hrows fun x => ∀ d, 0 ≤ d → d < p.headDim →
      toSizeT (x * p.hdimDispatch + d) < buf.size p]
    rw [← forall_digits hheads fun k => ∀ r, 0 ≤ r → r < rows → ∀ d, 0 ≤ d → d < p.headDim →
      toSizeT ((k * rows + r) * p.hdimDispatch + d) < buf.size p]
    exact h
  · intro h b hb hbB k hk hkH r hr hrr
    have hrow : (b * heads + k) * rows + r < p.batch * heads * rows :=
      Indexing.radix_lt hr hrr (Indexing.radix_lt hk hkH hbB)
    have hrow0 : 0 ≤ (b * heads + k) * rows + r := by
      have : 0 ≤ heads := by omega
      have : 0 ≤ rows := by omega
      positivity
    exact (rowsFit_iff hp hc buf _).mpr (h (by omega) (by omega)) _ hrow0 hrow

omit hp hc in
lemma tileLo_ge (t : ZeroTile) : -2147483648 ≤ tileLo p t := by
  cases t with
  | last => exact le_max_of_le_left (by norm_num)
  | tile n => exact (toInt_isInt _).1

omit hp hc in
lemma tileHi_le (t : ZeroTile) : tileHi p t ≤ p.kvSeqLen := by
  cases t with
  | last => exact le_rfl
  | tile n => exact min_le_left _ _

/-- One row of the tile, in every batch and head. -/
lemma tileRow_iff {y : ℤ} (hy : 0 ≤ y) (hyS : y < p.kvSeqLen) (hB : 0 < p.batch) (hH : 0 < p.kvHeads)
    (hD0 : 0 < p.hdimDispatch) :
    (∀ b, 0 ≤ b → b < p.batch → ∀ h, 0 ≤ h → h < p.kvHeads → ∀ d, 0 ≤ d → d < p.hdimDispatch →
        toSizeT (((b * p.kvHeads + h) * p.kvSeqLen + y) * p.hdimDispatch + d) < p.buffers.szV) ↔
      ((p.batch * p.kvHeads - 1) * p.kvSeqLen + (y + 1)) * p.hdimDispatch ≤ p.buffers.szV := by
  have hD := hdimDispatch_lt hp
  have hskv := hp.kvSeqLen.2
  have hsize : p.buffers.szV ≤ 4611686018427387903 := size_le hc .hV
  have hyD : y * p.hdimDispatch < 4611686018427387904 := mul_lt_of_int hy (by omega) hD0.le hD
  have hTD : p.kvSeqLen * p.hdimDispatch < 4611686018427387904 :=
    mul_lt_of_int (by omega) hskv hD0.le hD
  have hform : ((p.batch * p.kvHeads - 1) * p.kvSeqLen + (y + 1)) * p.hdimDispatch
      = ((p.batch * p.kvHeads - 1) * p.kvSeqLen + y) * p.hdimDispatch + p.hdimDispatch := by ring
  rw [hform, forall_digits hH fun k => ∀ d, 0 ≤ d → d < p.hdimDispatch →
    toSizeT ((k * p.kvSeqLen + y) * p.hdimDispatch + d) < p.buffers.szV]
  exact rows_lt_iff (w := 64) (mul_pos hB hH) (by omega) hD0 le_rfl hy (by omega) (by omega)
    (by omega)

/-- The first element of a row before the first wraps to the top. -/
lemma not_lt_of_neg {y : ℤ} (hy : y < 0) (hy0 : -2147483648 ≤ y) (hD0 : 0 < p.hdimDispatch) :
    ¬ toSizeT (y * p.hdimDispatch) < p.buffers.szV := by
  have hD := hdimDispatch_lt hp
  have hsize : p.buffers.szV ≤ 4611686018427387903 := size_le hc .hV
  have hprod : -y * p.hdimDispatch ≤ 2147483648 * 2147483648 :=
    mul_le_mul (by omega) hD.le hD0.le (by norm_num)
  have hprod0 : 0 < -y * p.hdimDispatch := mul_pos (by omega) hD0
  have hneg : -y * p.hdimDispatch = -(y * p.hdimDispatch) := neg_mul _ _
  rw [toSizeT, Words.unsigned]
  omega

/-- A tile that runs does not start before the sequence, and its last row is inside. -/
lemma tileProbe_inBounds_iff [Zero β] (t : ZeroTile) :
    InBounds p (tileProbe p t : List (Write β)) ↔ TileFits p (tileLo p t) (tileHi p t) := by
  have hlo := tileLo_ge (p := p) t
  have hhi := tileHi_le (p := p) t
  simp only [InBounds, tileProbe, List.forall_mem_flatMap, List.forall_mem_map, Int.mem_range_iff,
    and_imp, probe_index]
  constructor
  · intro h hB hH hlohi hD0
    have hlo0 : 0 ≤ tileLo p t := by
      by_contra hneg
      have hfirst := h 0 le_rfl hB 0 le_rfl hH _ le_rfl hlohi 0 le_rfl hD0
      simp only [zero_mul, zero_add, add_zero] at hfirst
      exact not_lt_of_neg hp hc (not_le.mp hneg) hlo hD0 hfirst
    have hlast := (tileRow_iff hp hc (y := tileHi p t - 1) (by omega) (by omega) hB hH hD0).mp
      fun b hb hbB k hk hkH => h b hb hbB k hk hkH _ (by omega) (by omega)
    rw [sub_add_cancel] at hlast
    exact ⟨hlo0, hlast⟩
  · intro h b hb hbB k hk hkH r hr hrhi d hd hdD
    obtain ⟨hlo0, hlast⟩ := h (by omega) (by omega) (by omega) (by omega)
    refine (tileRow_iff hp hc (by omega) (by omega) (by omega) (by omega) (by omega)).mpr ?_
      b hb hbB k hk hkH d hd hdD
    calc ((p.batch * p.kvHeads - 1) * p.kvSeqLen + (r + 1)) * p.hdimDispatch
        ≤ ((p.batch * p.kvHeads - 1) * p.kvSeqLen + tileHi p t) * p.hdimDispatch :=
          mul_le_mul_of_nonneg_right (by omega) (by omega)
      _ ≤ p.buffers.szV := hlast

end Nests

/-! ### Sizes that do not wrap -/

section Unwrapped

variable {β : Type*} {p : FmhaParams} (hp : Ints p)

/-- The size of a tensor is what the host computes of it. -/
def Unwrapped (p : FmhaParams) (heads rows : ℤ) : Prop :=
  0 ≤ p.rowCount heads rows ∧ p.rowCount heads rows * p.hdimDispatch < 18446744073709551616

lemma fillRows_le {heads rows : ℤ} (h : 0 ≤ p.rowCount heads rows) :
    fillRows p heads rows ≤ p.rowCount heads rows := by
  have heq : fillRows p heads rows = toInt (p.rowCount heads rows) := by
    unfold fillRows FmhaParams.rowCount
    split_ifs
    · exact toInt_toUint32 _
    · exact toInt_mul _ _
  rw [heq]
  exact toInt_le h

include hp

/-- Rows fit when there are no more than the tensor has. -/
lemma rowsFit_iff_le {heads rows N : ℤ} (hw : Unwrapped p heads rows) (hN : 0 < N)
    (hn : 0 < p.headDim) :
    RowsFit p (toSizeT (p.rowCount heads rows * p.hdimDispatch)) N ↔ N ≤ p.rowCount heads rows := by
  have hD := hp.headDim_le
  rw [toSizeT_eq (mul_nonneg hw.1 (by omega)) hw.2]
  constructor
  · intro h
    by_contra hlt
    have hlast := h hN hn
    have : p.rowCount heads rows * p.hdimDispatch ≤ (N - 1) * p.hdimDispatch :=
      mul_le_mul_of_nonneg_right (by omega) (by omega)
    omega
  · intro h _ _
    calc (N - 1) * p.hdimDispatch + p.headDim ≤ (N - 1) * p.hdimDispatch + p.hdimDispatch := by omega
      _ = N * p.hdimDispatch := by ring
      _ ≤ p.rowCount heads rows * p.hdimDispatch := mul_le_mul_of_nonneg_right h (by omega)

lemma fill_fits {heads rows : ℤ} (hw : Unwrapped p heads rows) :
    RowsFit p (toSizeT (p.rowCount heads rows * p.hdimDispatch)) (fillRows p heads rows) :=
  fun hpos hn => (rowsFit_iff_le hp hw hpos hn).mpr (fillRows_le hw.1) hpos hn

/-- **The random fill alone** stays inside. -/
theorem fillRandom_fits (hq : Unwrapped p p.qHeads p.seqLen) (hkv : Unwrapped p p.kvHeads p.kvSeqLen) :
    Fits p (⟨none, none, none, none⟩ : Probes β) where
  fillQ := p.szQ_eq ▸ fill_fits hp hq
  fillK := p.szK_eq ▸ fill_fits hp hkv
  fillV := p.szV_eq ▸ fill_fits hp hkv
  vConst h := by simp at h
  qConst h := by simp at h
  kConst h := by simp at h
  zeroTile t ht := by simp at ht

/-- **A constant** stays inside a dense tensor; a packed one has to have as many rows as the
longest sequence in every batch. -/
theorem probeFits_iff {heads rows : ℤ} (hw : Unwrapped p heads rows) (hn : 0 < p.headDim)
    (hB : 0 < p.batch) (hheads : 0 < heads) (hrows : 0 < rows) :
    ProbeFits p (toSizeT (p.rowCount heads rows * p.hdimDispatch)) heads rows ↔
      (p.varlenMode → p.batch * rows ≤ p.buffers.totalSeqlen) := by
  have hiff : ProbeFits p (toSizeT (p.rowCount heads rows * p.hdimDispatch)) heads rows ↔
      p.batch * heads * rows ≤ p.rowCount heads rows := by
    rw [← rowsFit_iff_le hp hw (mul_pos (mul_pos hB hheads) hrows) hn]
    exact ⟨fun h => h hB hheads, fun h _ _ => h⟩
  rw [hiff, FmhaParams.rowCount]
  split_ifs with hv
  · have hform : p.batch * heads * rows = heads * (p.batch * rows) := by ring
    rw [hform, mul_le_mul_iff_right₀ hheads]
    simp [hv]
  · simp [hv]

end Unwrapped

/-! ### The fill and the probes -/

/-- **When `fill_random` writes inside its buffers**: exactly when the last row of every loop nest
that runs does, and a zeroed tile does not start before the sequence. -/
theorem fillRandom_inBounds_iff {β : Type*} [Zero β] {p : FmhaParams} (hp : Ints p)
    (hc : p.buffers.Constructed) (randBf16 : ℤ → ℕ → β) (seed : ℤ) (env : Probes β) :
    InBounds p (fillRandom p randBf16 seed env) ↔ Fits p env := by
  have hset : ∀ (o : Option β) (P : Prop), (∀ v ∈ o, P) ↔ (o.isSome → P) := fun o P => by
    cases o <;> simp
  simp only [fillRandom, inBounds_append, inBounds_toList, fillPadded_inBounds_iff hp hc,
    constProbe_inBounds_iff hp hc, tileProbe_inBounds_iff hp hc, hset, Buf.size]
  constructor
  · rintro ⟨⟨⟨⟨⟨⟨hQ, hK⟩, hV⟩, hv⟩, hq⟩, hk⟩, ht⟩
    exact ⟨hQ, hK, hV, hv, hq, hk, ht⟩
  · rintro ⟨hQ, hK, hV, hv, hq, hk, ht⟩
    exact ⟨⟨⟨⟨⟨⟨hQ, hK⟩, hV⟩, hv⟩, hq⟩, hk⟩, ht⟩

/-- Padded dense tensors under all four probes. -/
theorem fillRandom_inBounds_iff_padded :
    ∃ p : FmhaParams, p.headDim = 2 ∧ p.hdimDispatch = 4 ∧
      InBounds p (fillRandom p (fun _ _ => 0) 42 ⟨some 1, some 1, some 1, some .last⟩ :
        List (Write ℕ)) := by
  refine ⟨⟨2, 2, 1, 2, 3, 40, 2, 4, 0, 0, []⟩, rfl, rfl, (fillRandom_inBounds_iff ?_ ?_ _ _ _).mpr ?_⟩
  · constructor <;> decide
  · constructor <;> decide
  · refine ⟨by decide, by decide, by decide, fun _ => by decide, fun _ => by decide,
      fun _ => by decide, ?_⟩
    intro t ht
    obtain rfl : ZeroTile.last = t := Option.some.inj ht
    decide

/-- Two packed sequences of one and three rows: a constant V is written to rows of three for both. -/
theorem fillRandom_inBounds_fails_vConst :
    ∃ p : FmhaParams, Ints p ∧ p.buffers.Constructed ∧ p.varlenSeqs = [1, 3] ∧
      ¬ InBounds p (fillRandom p (fun _ _ => 0) 42 ⟨some 1, none, none, none⟩ : List (Write ℕ)) := by
  refine ⟨⟨2, 1, 1, 1, 3, 3, 64, 0, 0, 0, [1, 3]⟩, ?_, ?_, rfl, fun h => ?_⟩
  · constructor <;> decide
  · constructor <;> decide
  · simp only [fillRandom, inBounds_append, inBounds_toList] at h
    have hv := (constProbe_inBounds_iff ?_ ?_ .hV _ _ _).mp (h.1.1.1.2 1 rfl)
    · exact absurd hv (by decide)
    · constructor <;> decide
    · constructor <;> decide

end FmhaNative.FillBounds
