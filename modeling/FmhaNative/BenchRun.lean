import FmhaNative.SuiteRun
import FmhaNative.VarlenText

/-!
The benchmark, from its command line to what it leaves in device memory.

The options give the sizes, the host lays the tensors out and fills the argument block, and the
kernel is launched for the warmup and for each timed iteration.
-/

namespace FmhaNative.BenchRun

open Host Kernel Oracles DeviceMemory RefLaunch Stores SuiteRun
open CpuRef (getSq getSkv)
open XReal (fin exact)

/-! ### The sizes -/

/-- Sizes that ask for work: heads, and sequences of one positive length or packed ones. -/
structure Sized (p : FmhaParams) : Prop where
  qHeads_pos : 0 < p.qHeads
  kvHeads_pos : 0 < p.kvHeads
  headDim_pos : 0 < p.headDim
  dense : p.varlenMode = false → 0 < p.batch ∧ 0 < p.seqLen
  length_nonneg : ∀ s ∈ p.varlenSeqs, 0 ≤ s

/-- No option is the group size. -/
lemma foldlM_gqa {args : List Arg} {p p' : FmhaParams} (h : args.foldlM parseArg p = some p') :
    p'.gqa = p.gqa := by
  induction args generalizing p with
  | nil =>
    cases h
    rfl
  | cons a args ih =>
    rw [List.foldlM_cons] at h
    obtain ⟨q, hq, h⟩ := Option.bind_eq_some_iff.mp h
    rw [ih h]
    cases a with
    | help | unknown => cases hq
    | varlenSeqs | batch | heads | kvHeads | seq | hdim | mask | lse | warmup | iters =>
      cases hq
      rfl

lemma deriveGqa_groups {p : FmhaParams} (hgqa : p.gqa = 1)
    (hmod : p.deriveGqa.qHeads.tmod p.deriveGqa.kvHeads = 0) :
    p.deriveGqa.qHeads = p.deriveGqa.kvHeads * p.deriveGqa.gqa := by
  unfold FmhaParams.deriveGqa at hmod ⊢
  split_ifs at hmod ⊢ with hne
  · exact (Int.mul_tdiv_cancel' (Int.dvd_of_tmod_eq_zero hmod)).symm
  · rw [hgqa, mul_one]
    exact not_not.mp fun h => hne ⟨hgqa, h⟩

/-- Query heads in whole groups. -/
lemma parseArgs_groups {args : List Arg} {p : FmhaParams} (h : parseArgs args = some p) :
    p.qHeads = p.kvHeads * p.gqa := by
  obtain ⟨q, hq, h⟩ := Option.bind_eq_some_iff.mp h
  have hgqa : q.deriveKvHeads.gqa = 1 := by
    have hone : q.gqa = 1 := foldlM_gqa hq
    unfold FmhaParams.deriveKvHeads
    split_ifs <;> exact hone
  have hrest : ∀ q : FmhaParams, q.qHeads = q.kvHeads * q.gqa →
      q.deriveVarlen.deriveKvSeqLen.qHeads
        = q.deriveVarlen.deriveKvSeqLen.kvHeads * q.deriveVarlen.deriveKvSeqLen.gqa := by
    intro q hq
    unfold FmhaParams.deriveKvSeqLen FmhaParams.deriveVarlen
    split_ifs <;> exact hq
  unfold deriveParams at h
  simp only at h
  split_ifs at h with htrap hmod
  cases h
  exact hrest _ (deriveGqa_groups hgqa (not_not.mp hmod))

/-- What the benchmark runs on is what the oracles take. -/
lemma parseArgs_wellFormed {args : List Arg} {p : FmhaParams} (h : parseArgs args = some p)
    (hs : Sized p) (hcount : p.varlenSeqs.length < 2147483648) : WellFormed p := by
  have ha := parseArgs_accepted h
  have hd := parseArgs_derived h
  have hgroups := parseArgs_groups h
  have hmode : ∀ s ∈ p.varlenSeqs, p.varlenMode = true := by
    intro s hs
    have hne := List.ne_nil_of_mem hs
    simp [FmhaParams.varlenMode, hne]
  exact
    { headDim_pos := hs.headDim_pos
      hdim := by rw [FmhaParams.hdimDispatch, ha.hdimPadded, if_neg (lt_irrefl 0)]
      kvHeads_pos := hs.kvHeads_pos
      gqa_pos := (mul_pos_iff_of_pos_left hs.kvHeads_pos).mp (hgroups ▸ hs.qHeads_pos)
      qHeads_eq := hgroups
      dense := fun hv => ⟨(hs.dense hv).1, (hs.dense hv).2, ha.kvSeqLen ▸ (hs.dense hv).2⟩
      batch_eq := fun hv => by rw [hd.batch hv, toInt_eq ⟨by omega, by omega⟩]
      length_nonneg := hs.length_nonneg
      length_le := fun s hmem => by
        rw [ha.kvSeqLen, hd.seqLen (hmode s hmem)]
        exact ⟨le_maxSeq hmem, le_maxSeq hmem⟩ }

/-! ### The tensors -/

section Tensors

variable (p : FmhaParams) (hQ hK hV : Mem ℝ)

/-- The scaled scores of a query row, from the tensors of the host. -/
noncomputable def score (b h i : ℤ) (j : ℕ) : ℝ :=
  (√(p.headDim : ℝ))⁻¹ * ∑ d ∈ Finset.range 64,
    hQ (rowIndex p b h i * 64 + d) * hK (keyIndex p b (h.tdiv p.gqa) j * 64 + d)

def value (b h : ℤ) (j d : ℕ) : ℝ := hV (keyIndex p b (h.tdiv p.gqa) j * 64 + d)

/-- The keys that a row attends to; with the causal mask the last row attends to all. -/
def keys (b i : ℤ) : Finset ℕ :=
  Attention.keys (p.mask ≠ 0) (getSkv p b) (getSkv p b - getSq p b) i

end Tensors

section Launches

variable {p : FmhaParams} (hp : WellFormed p) (hw : NoOverflow p) (hQ hK hV : Mem ℝ)
  (h64 : p.headDim = 64) {b h i : ℤ}
include h64

lemma suite_score (hc : Checked p b h i) :
    (suiteLaunch hp hw hQ hK hV).score b h i = score p hQ hK b h i := by
  funext j
  unfold Launch.score score
  rw [suite_scale, (suite_qOff hp hw hQ hK hV h64 hc).1, (suite_kOff hp hw hQ hK hV h64 hc j).1]
  rfl

lemma suite_value (hc : Checked p b h i) :
    (suiteLaunch hp hw hQ hK hV).value b h = value p hV b h := by
  funext j d
  unfold Launch.value value
  rw [(suite_kOff hp hw hQ hK hV h64 hc j).2]
  rfl

end Launches

/-- **The benchmark leaves the attention in device memory.** For every accepted command line with
sizes that ask for work, within the 32-bit products, of at most `2 ^ 24` query rows a sequence: the
argument block is that of a launch whose kernel the mask and the lengths choose. However often it is
launched, at least once, and in whatever order the waves run and the stores of all blocks come, each
element of each row of O holds the attention of the row in the tensors of the host, each element of
the allocation is in such a row and nothing else is written; and where the log-sum-exp is asked for,
it is at the index of each row. -/
theorem bench_leaves_attention {args : List Arg} {p : FmhaParams} (h : parseArgs args = some p)
    (hs : Sized p) (hw : NoOverflow p) (h64 : p.headDim = 64)
    (hrows : ∀ b, 0 ≤ b → b < p.batch → getSq p b ≤ 2 ^ 24) (hQ hK hV : Mem ℝ) :
    ∃ L : Launch ℝ ℝ,
      (L.exact.params = p.benchParams (reals hQ) (reals hK) (reals hV) ∧
        L.hasMask = decide (p.mask ≠ 0) ∧ L.isVarlen = p.varlenMode ∧ L.batch = p.batch) ∧
      (∀ e, 0 ≤ e → e < p.rowCount p.qHeads p.seqLen →
        ∃ b hq i, Checked p b hq i ∧ rowIndex p b hq i = e) ∧
      ∀ (wss : List (List (ℤ × XReal))) (m : Mem XReal), wss ≠ [] →
        ((∀ ws ∈ wss, OStores exact L.exact ws) →
          (∀ b hq i, ∀ d : ℕ, Checked p b hq i → d < 64 →
            stores m wss.flatten (rowIndex p b hq i * 64 + d)
              = fin (Attention.output (keys p b i) (score p hQ hK b hq i) (value p hV b hq) d)) ∧
          ∀ a, (∀ b hq i, ∀ d : ℕ, Checked p b hq i → d < 64 → a ≠ rowIndex p b hq i * 64 + d) →
            stores m wss.flatten a = m a) ∧
        (p.lse ≠ 0 → (∀ ws ∈ wss, LseStores exact L.exact ws) → ∀ b hq i, Checked p b hq i →
          stores m wss.flatten (rowIndex p b hq i)
            = Attention.lse (keys p b i) (score p hQ hK b hq i)) := by
  have hp : WellFormed p := parseArgs_wellFormed h hs hw.count
  have hσ := suite_scale_pos hp hw hQ hK hV
  refine ⟨suiteLaunch hp hw hQ hK hV, ⟨realParams_exact hQ hK hV hp.headDim_pos, rfl, rfl, rfl⟩,
    fun e h0 h1 => exists_checked hp hw h0 h1, fun wss m hne => ⟨fun hws => ?_, fun hlse hws => ?_⟩⟩
  · obtain ⟨hholds, hframe⟩ := oStores_leave (suiteLaunch hp hw hQ hK hV) hσ
      (suite_exact hp hw hQ hK hV h64 hrows) (suite_oInjective hp hw hQ hK hV h64) hne hws m
    refine ⟨fun b hq i d hc hd => ?_, fun a ha => hframe a fun b hq i d hr hd => ?_⟩
    · have helem := hholds b hq i d ((suite_inRange hp hw hQ hK hV).mpr hc) hd
      rwa [(suite_qOff hp hw hQ hK hV h64 hc).2, suite_keys hp hw hQ hK hV hc,
        suite_score hp hw hQ hK hV h64 hc, suite_value hp hw hQ hK hV h64 hc] at helem
    · have hc := (suite_inRange hp hw hQ hK hV).mp hr
      rw [(suite_qOff hp hw hQ hK hV h64 hc).2]
      exact ha b hq i d hc hd
  · intro b hq i hc
    obtain ⟨hholds, -⟩ := lseStores_leave (suiteLaunch hp hw hQ hK hV) hσ (decide_eq_true hlse)
      (suite_slotsApart hp hw hQ hK hV h64) hne hws m
    have helem := hholds b hq i ((suite_inRange hp hw hQ hK hV).mpr hc)
    rwa [suite_slot hp hw hQ hK hV h64 hc, suite_keys hp hw hQ hK hV hc,
      suite_score hp hw hQ hK hV h64 hc] at helem

/-! ### One command line -/

/-- Two heads over one key head and two causal sequences of two and three rows. -/
def packedArgs : List Arg := [.heads 2, .kvHeads 1, .varlenSeqs [2, 3], .mask 1, .lse 1]

def packedLine : FmhaParams :=
  { batch := 2, qHeads := 2, kvHeads := 1, gqa := 2, seqLen := 3, kvSeqLen := 3
    headDim := 64, hdimPadded := 0, mask := 1, lse := 1, varlenSeqs := [2, 3] }

lemma packedArgs_parsed : parseArgs packedArgs = some packedLine := by
  simp [parseArgs, packedArgs, packedLine, parseArg, defaultParams, atoi, toInt_def, deriveParams, maxSeq,
    FmhaParams.deriveKvHeads, FmhaParams.deriveGqa, FmhaParams.deriveVarlen,
    FmhaParams.deriveKvSeqLen, FmhaParams.varlenMode]

lemma packedLine_sized : Sized packedLine :=
  { qHeads_pos := by decide, kvHeads_pos := by decide, headDim_pos := by decide
    dense := by decide, length_nonneg := by decide }

lemma packedLine_noOverflow : NoOverflow packedLine :=
  { qStride := by decide, kStride := by decide, packed := by decide, threads := by decide
    count := by decide }

lemma packedLine_rows (b : ℤ) (h0 : 0 ≤ b) (hB : b < packedLine.batch) : getSq packedLine b ≤ 2 ^ 24 := by
  have hbatch : packedLine.batch = 2 := rfl
  obtain rfl | rfl : b = 0 ∨ b = 1 := by omega
  · decide
  · decide

/-- Two launches over ones: the last row of the second sequence holds its attention. -/
theorem bench_leaves_attention_packed :
    let ones : Mem ℝ := fun _ => 1
    ∃ (L : Launch ℝ ℝ) (ws : List (ℤ × XReal)),
      L.exact.params = packedLine.benchParams (reals ones) (reals ones) (reals ones) ∧
        OStores exact L.exact ws ∧
        ∀ d : ℕ, d < 64 →
          stores (fun _ => .nan) [ws, ws].flatten (rowIndex packedLine 1 1 2 * 64 + d)
            = fin (Attention.output (keys packedLine 1 2) (score packedLine ones ones 1 1 2)
                (value packedLine ones 1 1) d) := by
  intro ones
  obtain ⟨L, ⟨hparams, -⟩, -, hleave⟩ := bench_leaves_attention packedArgs_parsed packedLine_sized
    packedLine_noOverflow rfl packedLine_rows ones ones ones
  choose outs houts using fun blk : Dim3 => exists_outcome exact L.exact blk.z blk.x
    (mTile L.exact.hasMask L.exact.grid blk)
  have ho : OStores exact L.exact (launchWrites L.exact.grid fun blk => some (outs blk)) :=
    ⟨outs, fun blk _ => houts blk, List.Perm.refl _⟩
  have hlast : Checked packedLine 1 1 2 :=
    { b_nonneg := by decide, b_lt := by decide, hq_nonneg := by decide, hq_lt := by decide
      i_nonneg := by decide, i_lt := by decide }
  refine ⟨L, _, hparams, ho, fun d hd => ?_⟩
  exact ((hleave _ _ (List.cons_ne_nil _ _)).1 (by simpa using ho)).1 1 1 2 d hlast hd

end FmhaNative.BenchRun
