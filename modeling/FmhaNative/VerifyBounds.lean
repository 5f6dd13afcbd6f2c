import FmhaNative.CpuVerify
import FmhaNative.HostLayouts
import FmhaNative.LoopNests

/-!
The arrays of the CPU verifier: which index it uses into which array, and when all of them are
below the lengths.

A repeated use of an index is not listed again. Which thread has which row does not matter: each
has score arrays of its own, of one length.
-/

namespace FmhaNative.VerifyBounds

open Host CpuRef CpuVerify LoopNests Loops Fp
open HostLayouts (seqLength start total start_mem total_mem seqOffsets_start seqLength_lt_of_forall)

/-! ### The accesses -/

/-- A thread's `S` and `P`, the host tensors and `per_row_max`. -/
inductive Vec
  | s
  | p
  | hQ
  | hK
  | hV
  | hO
  | perRowMax

structure Access where
  vec : Vec
  index : ℤ

section Accesses

variable (p : FmhaParams) (dump : Bool)

/-- `size()` of an array; `dump` is `dump_worst_rows`. -/
def Vec.size : Vec → ℤ
  | .s | .p => toSizeT p.kvSeqLen
  | .hQ => p.buffers.szQ
  | .hK => p.buffers.szK
  | .hV => p.buffers.szV
  | .hO => p.buffers.szO
  | .perRowMax => if dump then toSizeT (p.batch * p.qHeads * p.seqLen) else 0

/-- Whether an array of floats or of doubles cannot be made. -/
def throws : Bool := maxSize 4 < Vec.s.size p dump || maxSize 8 < Vec.perRowMax.size p dump

/-- `row_idx` -/
def rowIdx (b hq i : ℤ) : ℤ := toSizeT ((b * p.qHeads + hq) * p.seqLen + i)

def scoreAccesses (b hq hkv i : ℤ) : List Access :=
  (List.range (getSkv p b).toNat).flatMap fun j =>
    ((List.range p.headDim.toNat).flatMap fun d =>
      [⟨.hQ, toSizeT (qOff p b hq i + d)⟩, ⟨.hK, kIndex p (CpuRef.kBase p b hkv) j d⟩]) ++
    [⟨.s, j⟩]

/-- The maximum starts from `S[0]`. -/
def softmaxAccesses (b : ℤ) : List Access :=
  ⟨.s, 0⟩ :: (List.range (getSkv p b).toNat).flatMap fun j : ℕ => [⟨.s, j⟩, ⟨.p, j⟩]

def outputAccesses (b hq hkv i : ℤ) : List Access :=
  (List.range p.headDim.toNat).flatMap fun d =>
    ((List.range (getSkv p b).toNat).flatMap fun j =>
      [⟨.hV, kIndex p (CpuRef.vBase p b hkv) j d⟩, ⟨.p, j⟩]) ++
    ⟨.hO, toSizeT (oOff p b hq i + d)⟩ :: if dump then [⟨.perRowMax, rowIdx p b hq i⟩] else []

/-- The body of the row loops. -/
def rowAccesses (row : Row) : List Access :=
  let hkv := row.hq.tdiv p.gqa
  scoreAccesses p row.b row.hq hkv row.i ++ softmaxAccesses p row.b ++
    outputAccesses p dump row.b row.hq hkv row.i

/-- The list of the worst rows is sorted by the entries of `per_row_max`. -/
def reportAccesses : List Access :=
  (Int.range 0 (Vec.perRowMax.size p dump)).map fun r => ⟨.perRowMax, r⟩

/-- What `cpu_ref_verify` indexes; nothing, when it throws. -/
def accesses : List Access :=
  if throws p dump then [] else (rows p).flatMap (rowAccesses p dump) ++ reportAccesses p dump

def InBounds (l : List Access) : Prop := ∀ a ∈ l, a.index < a.vec.size p dump

end Accesses

/-! ### One row -/

section Row

variable {p : FmhaParams} {dump : Bool}

/-- What a row needs of the lengths. -/
structure RowFits (p : FmhaParams) (dump : Bool) (row : Row) : Prop where
  scores : getSkv p row.b ≤ Vec.s.size p dump
  scores_pos : 0 < Vec.s.size p dump
  q : ∀ d, 0 ≤ d → d < p.headDim → toSizeT (qOff p row.b row.hq row.i + d) < p.buffers.szQ
  k : ∀ j, 0 ≤ j → j < getSkv p row.b → ∀ d, 0 ≤ d → d < p.headDim →
    toSizeT (CpuRef.kBase p row.b (row.hq.tdiv p.gqa) + j * p.hdimDispatch + d) < p.buffers.szK
  perRow : dump → rowIdx p row.b row.hq row.i < Vec.perRowMax.size p dump

lemma rowAccesses_inBounds_iff (hD : 0 < p.headDim) (row : Row) :
    InBounds p dump (rowAccesses p dump row) ↔ RowFits p dump row := by
  simp only [InBounds, rowAccesses, scoreAccesses, softmaxAccesses, outputAccesses,
    List.forall_mem_append, List.forall_mem_flatMap, List.forall_mem_cons, List.mem_range]
  constructor
  · rintro ⟨⟨hscore, hpos, -⟩, hout⟩
    refine ⟨?_, hpos, fun d hd hdn => ?_, fun j hj hjn d hd hdn => ?_, fun hdump => ?_⟩
    · by_contra hc
      have hlast := (hscore ((getSkv p row.b).toNat - 1) (by omega)).2.1
      omega
    · lift d to ℕ using hd
      exact (hout d (Int.lt_toNat.mpr hdn)).2.1
    · lift j to ℕ using hj
      lift d to ℕ using hd
      exact ((hscore j (Int.lt_toNat.mpr hjn)).1 d (Int.lt_toNat.mpr hdn)).2.1
    · have hrow := (hout 0 (by omega)).2.2
      rw [if_pos hdump] at hrow
      exact hrow _ (List.mem_singleton.mpr rfl)
  · intro h
    have hS : ∀ j : ℕ, j < (getSkv p row.b).toNat → (j : ℤ) < Vec.s.size p dump :=
      fun j hj => (Int.lt_toNat.mp hj).trans_le h.scores
    have hK : ∀ j : ℕ, j < (getSkv p row.b).toNat → ∀ d : ℕ, d < p.headDim.toNat →
        kIndex p (CpuRef.kBase p row.b (row.hq.tdiv p.gqa)) j d < p.buffers.szK :=
      fun j hj d hd => h.k j (Int.natCast_nonneg j) (Int.lt_toNat.mp hj) d (Int.natCast_nonneg d)
        (Int.lt_toNat.mp hd)
    have hQ : ∀ d : ℕ, d < p.headDim.toNat →
        toSizeT (qOff p row.b row.hq row.i + d) < p.buffers.szQ :=
      fun d hd => h.q d (Int.natCast_nonneg d) (Int.lt_toNat.mp hd)
    have hnil : ∀ a ∈ ([] : List Access), a.index < a.vec.size p dump := fun a ha => nomatch ha
    refine ⟨⟨fun j hj => ⟨fun d hd => ⟨hQ d hd, hK j hj d hd, hnil⟩, hS j hj, hnil⟩, h.scores_pos,
      fun j hj => ⟨hS j hj, hS j hj, hnil⟩⟩, fun d hd => ⟨fun j hj => ⟨hK j hj d hd, hS j hj, hnil⟩,
      hQ d hd, ?_⟩⟩
    split_ifs with hdump
    · exact List.forall_mem_singleton.mpr (h.perRow hdump)
    · exact hnil

/-! The row of `CpuRef.oRef` is the one whose accesses are listed. -/

section Footprint

variable {row : Row} {j d : ℕ}

lemma mem_qAccess (hj : j < (getSkv p row.b).toNat) (hd : d < p.headDim.toNat) :
    (⟨.hQ, toSizeT (qOff p row.b row.hq row.i + d)⟩ : Access) ∈ rowAccesses p dump row := by
  refine List.mem_append_left _ (List.mem_append_left _ ?_)
  refine List.mem_flatMap.mpr ⟨j, List.mem_range.mpr hj, List.mem_append_left _ ?_⟩
  exact List.mem_flatMap.mpr ⟨d, List.mem_range.mpr hd, List.mem_cons_self⟩

lemma mem_kAccess (hj : j < (getSkv p row.b).toNat) (hd : d < p.headDim.toNat) :
    (⟨.hK, kIndex p (CpuRef.kBase p row.b (row.hq.tdiv p.gqa)) j d⟩ : Access)
      ∈ rowAccesses p dump row := by
  refine List.mem_append_left _ (List.mem_append_left _ ?_)
  refine List.mem_flatMap.mpr ⟨j, List.mem_range.mpr hj, List.mem_append_left _ ?_⟩
  exact List.mem_flatMap.mpr
    ⟨d, List.mem_range.mpr hd, List.mem_cons_of_mem _ List.mem_cons_self⟩

lemma mem_vAccess (hj : j < (getSkv p row.b).toNat) (hd : d < p.headDim.toNat) :
    (⟨.hV, kIndex p (CpuRef.vBase p row.b (row.hq.tdiv p.gqa)) j d⟩ : Access)
      ∈ rowAccesses p dump row := by
  refine List.mem_append_right _ (List.mem_flatMap.mpr ⟨d, List.mem_range.mpr hd, ?_⟩)
  exact List.mem_append_left _
    (List.mem_flatMap.mpr ⟨j, List.mem_range.mpr hj, List.mem_cons_self⟩)

lemma mem_oAccess (hd : d < p.headDim.toNat) :
    (⟨.hO, toSizeT (oOff p row.b row.hq row.i + d)⟩ : Access) ∈ rowAccesses p dump row := by
  refine List.mem_append_right _ (List.mem_flatMap.mpr ⟨d, List.mem_range.mpr hd, ?_⟩)
  exact List.mem_append_right _ List.mem_cons_self

variable {α β : Type*} [Fp α] [Zero β] (bf : Bf16 α β) {hQ hQ' hK hK' hV hV' : Mem β}

/-- Two contents of an array, the same where it is read. -/
def SameOn (l : List Access) (v : Vec) (m m' : Mem β) : Prop :=
  ∀ a ∈ l, a.vec = v → m a.index = m' a.index

/-- **The footprint**: a reference output depends on the listed elements alone. -/
theorem oRef_footprint (hq : SameOn (rowAccesses p dump row) .hQ hQ hQ')
    (hk : SameOn (rowAccesses p dump row) .hK hK hK')
    (hv : SameOn (rowAccesses p dump row) .hV hV hV') (hd : d < p.headDim.toNat) :
    (CpuRef.oRef bf p hQ hK hV row.b row.hq row.i).map (· d)
      = (CpuRef.oRef bf p hQ' hK' hV' row.b row.hq row.i).map (· d) := by
  have hscore : ∀ j < (getSkv p row.b).toNat,
      score bf p hQ hK row.b row.hq (row.hq.tdiv p.gqa) row.i j
        = score bf p hQ' hK' row.b row.hq (row.hq.tdiv p.gqa) row.i j := by
    intro j hj
    have hterm : ∀ d < p.headDim.toNat,
        bf.toFloat (hQ (toSizeT (qOff p row.b row.hq row.i + d)))
            * bf.toFloat (hK (kIndex p (CpuRef.kBase p row.b (row.hq.tdiv p.gqa)) j d))
          = bf.toFloat (hQ' (toSizeT (qOff p row.b row.hq row.i + d)))
            * bf.toFloat (hK' (kIndex p (CpuRef.kBase p row.b (row.hq.tdiv p.gqa)) j d)) := by
      intro d hd
      have hQeq := hq _ (mem_qAccess hj hd) rfl
      have hKeq := hk _ (mem_kAccess hj hd) rfl
      simp only at hQeq hKeq
      rw [hQeq, hKeq]
    unfold score
    rw [sumLoop_congr hterm]
  unfold CpuRef.oRef
  simp only
  split_ifs
  · rfl
  · refine congrArg some (sumLoop_congr fun j hj => ?_)
    rw [prob_congr bf hscore hj, hv _ (mem_vAccess hj hd) rfl]

omit [Fp α] [Zero β] in
lemma oKern_footprint (toFloat : β → α) {hO hO' : Mem β}
    (h : SameOn (rowAccesses p dump row) .hO hO hO') (hd : d < p.headDim.toNat) :
    oKern toFloat p hO row d = oKern toFloat p hO' row d :=
  congrArg toFloat (h _ (mem_oAccess hd) rfl)

/-- The reference row exists exactly when the scores stay in their array. -/
lemma oRef_isSome_iff (row : Row) :
    (CpuRef.oRef bf p hQ hK hV row.b row.hq row.i).isSome ↔
      getSkv p row.b ≤ p.kvSeqLen ∧ 0 < p.kvSeqLen := by
  unfold CpuRef.oRef
  simp only
  split_ifs with h
  · simp only [Option.isSome_none, Bool.false_eq_true, false_iff]
    omega
  · simp only [Option.isSome_some, true_iff]
    omega

end Footprint

end Row

lemma mem_rows {p : FmhaParams} {row : Row} : row ∈ rows p ↔
    (0 ≤ row.b ∧ row.b < p.batch) ∧ (0 ≤ row.hq ∧ row.hq < p.qHeads) ∧
      (0 ≤ row.i ∧ row.i < getSq p row.b) := by
  simp only [rows, List.mem_flatMap, List.mem_map, List.mem_range]
  constructor
  · rintro ⟨b, hb, hq, hhq, i, hi, rfl⟩
    simp only
    omega
  · rintro ⟨⟨hb, hbB⟩, ⟨hhq, hhqH⟩, hi, hin⟩
    obtain ⟨b, hq, i⟩ := row
    simp only at hb hbB hhq hhqH hi hin
    lift b to ℕ using hb
    lift hq to ℕ using hhq
    lift i to ℕ using hi
    exact ⟨b, by omega, hq, by omega, i, by omega, rfl⟩

lemma accesses_inBounds_iff {p : FmhaParams} {dump : Bool} (hD : 0 < p.headDim) :
    InBounds p dump (accesses p dump) ↔
      throws p dump ∨ ∀ row ∈ rows p, RowFits p dump row := by
  have hrow : ∀ row, (∀ a ∈ rowAccesses p dump row, a.index < a.vec.size p dump) ↔
      RowFits p dump row := rowAccesses_inBounds_iff hD
  have hreport : ∀ a ∈ reportAccesses p dump, a.index < a.vec.size p dump := by
    intro a ha
    obtain ⟨r, hr, rfl⟩ := List.mem_map.mp ha
    exact (Int.mem_range_iff.mp hr).2
  unfold InBounds accesses
  split_ifs with ht
  · simp [ht]
  · simp only [ht, Bool.false_eq_true, false_or, List.forall_mem_append, List.forall_mem_flatMap, hrow]
    exact and_iff_left hreport

/-! ### The lengths -/

/-- What `make_params` guarantees of positive dimensions. -/
structure Ready (p : FmhaParams) : Prop where
  headDim_pos : 0 < p.headDim
  headDim_lt : p.headDim < 2147483648
  hdim : p.hdimDispatch = p.headDim
  qHeads_pos : 0 < p.qHeads
  kvHeads_pos : 0 < p.kvHeads
  gqa_pos : 0 < p.gqa
  qHeads_eq : p.qHeads = p.kvHeads * p.gqa
  seqLen : 0 ≤ p.seqLen ∧ p.seqLen < 2147483648
  kvSeqLen : IsInt p.kvSeqLen
  dense : p.varlenMode = false → 0 < p.batch ∧ 0 < p.seqLen ∧ p.kvSeqLen ≠ 0
  length_lt : ∀ s ∈ p.varlenSeqs, s < 2147483648

lemma maxSize_two : maxSize 2 = 4611686018427387903 := by decide

section Lengths

variable {p : FmhaParams} (hp : Ready p) {K T y : ℤ}

include hp

/-- Whole rows of an array of `K` heads of `T` rows. -/
lemma tensor_lt_iff (hK : 0 < K) (hT : 0 ≤ T) (hT1 : T < 4294967296) (hy : 0 ≤ y) (hy1 : y < 6442450944)
    (hsize : toSizeT (K * T * p.headDim) ≤ maxSize 2) :
    (∀ k, 0 ≤ k → k < K → ∀ d, 0 ≤ d → d < p.headDim →
        toSizeT ((k * T + y) * p.headDim + d) < toSizeT (K * T * p.headDim)) ↔
      y < T ∧ K * T * p.headDim < 18446744073709551616 := by
  have hD := hp.headDim_pos
  have hD1 := hp.headDim_lt
  have hTD : T * p.headDim < 4294967296 * 2147483648 := mul_lt_mul'' hT1 hD1 hT hD.le
  have hyD : y * p.headDim < 6442450944 * 2147483648 := mul_lt_mul'' hy1 hD1 hy hD.le
  rw [maxSize_two] at hsize
  unfold toSizeT at hsize ⊢
  rw [rows_lt_iff hK hT hD le_rfl hy (by omega) (by omega) (by omega),
    row_fits_iff hK hT hD hy (by omega)]
  norm_num

/-- The query heads of a group run through the key heads. -/
lemma forall_kvHeads (P : ℤ → Prop) :
    (∀ hq, 0 ≤ hq → hq < p.qHeads → P (hq.tdiv p.gqa)) ↔ ∀ hkv, 0 ≤ hkv → hkv < p.kvHeads → P hkv := by
  have hg := hp.gqa_pos
  constructor
  · intro h hkv h0 hlt
    have hmul : (hkv + 1) * p.gqa ≤ p.kvHeads * p.gqa := mul_le_mul_of_nonneg_right (by omega) hg.le
    have hq := h (hkv * p.gqa) (mul_nonneg h0 hg.le) (by rw [hp.qHeads_eq]; linarith)
    rwa [Int.mul_tdiv_cancel _ hg.ne'] at hq
  · intro h hq h0 hlt
    rw [Int.tdiv_eq_ediv_of_nonneg h0]
    refine h _ (Int.ediv_nonneg h0 hg.le) (Int.ediv_lt_of_lt_mul hg ?_)
    rwa [← hp.qHeads_eq]

lemma kv_le_q : p.kvHeads ≤ p.qHeads := by
  rw [hp.qHeads_eq]
  exact le_mul_of_one_le_right hp.kvHeads_pos.le hp.gqa_pos

/-- Unless the score arrays are refused, they have `kv_seq_len` entries. -/
lemma scores_size {dump : Bool} (ht : throws p dump = false) :
    0 ≤ p.kvSeqLen ∧ Vec.s.size p dump = p.kvSeqLen := by
  have h4 : maxSize 4 = 2305843009213693951 := by decide
  obtain ⟨hlo, hhi⟩ := hp.kvSeqLen
  have hs : ¬ maxSize 4 < toSizeT p.kvSeqLen := by
    intro hlt
    simp [throws, Vec.size, hlt] at ht
  have h0 : 0 ≤ p.kvSeqLen := by
    by_contra hneg
    have : toSizeT p.kvSeqLen = p.kvSeqLen + 18446744073709551616 := by
      rw [toSizeT, Words.unsigned]
      omega
    omega
  exact ⟨h0, toSizeT_eq h0 (by omega)⟩

omit hp in
/-- The length of `per_row_max`, when it is made. -/
lemma perRow_size (ht : throws p true = false) :
    Vec.perRowMax.size p true = toSizeT (p.batch * p.qHeads * p.seqLen) ∧
      toSizeT (p.batch * p.qHeads * p.seqLen) ≤ 1152921504606846975 := by
  have h8 : maxSize 8 = 1152921504606846975 := by decide
  refine ⟨rfl, ?_⟩
  by_contra hlt
  have : maxSize 8 < Vec.perRowMax.size p true := by
    rw [h8]
    exact not_le.mp hlt
  simp [throws, this] at ht

/-- The first `n` rows of each head of a batch, in `per_row_max`. -/
lemma perRow_lt_iff (ht : throws p true = false) (b : ℤ) {n : ℤ} (hn : 0 < n) (hn1 : n < 2147483648) :
    (∀ hq, 0 ≤ hq → hq < p.qHeads → ∀ i, 0 ≤ i → i < n →
        rowIdx p b hq i < Vec.perRowMax.size p true) ↔
      toSizeT (b * p.qHeads * p.seqLen) + (p.qHeads - 1) * p.seqLen + n
        ≤ toSizeT (p.batch * p.qHeads * p.seqLen) := by
  obtain ⟨hsize, hle⟩ := perRow_size ht
  obtain ⟨hS0, hS1⟩ := hp.seqLen
  have hidx : ∀ hq i, rowIdx p b hq i
      = toSizeT (toSizeT (b * p.qHeads * p.seqLen) + hq * p.seqLen + i) := by
    intro hq i
    rw [add_assoc, toSizeT_add, rowIdx]
    congr 1
    ring
  simp only [hidx, hsize]
  exact blocks_lt_iff (Words.unsigned_nonneg 64 _) (Words.unsigned_lt 64 _) hS0 hp.qHeads_pos hn
    (by omega) (by omega)

end Lengths

/-- What sequence `b` needs of the lengths, when it has a row. -/
structure SeqFits (p : FmhaParams) (dump : Bool) (b : ℤ) : Prop where
  scores : seqLength p b ≤ p.kvSeqLen
  packed : start p b + seqLength p b ≤ total p
  size : p.qHeads * total p * p.headDim < 18446744073709551616
  perRow : dump → toSizeT (b * p.qHeads * p.seqLen) + (p.qHeads - 1) * p.seqLen + seqLength p b
    ≤ toSizeT (p.batch * p.qHeads * p.seqLen)

/-- The condition on the parameters: no size wraps, and packed sequences keep to their own
length, to the score arrays and to `per_row_max`. -/
def Fits (p : FmhaParams) (dump : Bool) : Prop :=
  if p.varlenMode then ∀ b, 0 ≤ b → b < p.batch → 0 < seqLength p b → SeqFits p dump b
  else p.batch * p.qHeads * p.seqLen * p.headDim < 18446744073709551616 ∧
    p.batch * p.kvHeads * p.kvSeqLen * p.headDim < 18446744073709551616

/-! ### Packed sequences -/

section Varlen

variable {p : FmhaParams} (hp : Ready p) (hv : p.varlenMode = true) {dump : Bool} {b : ℤ}

include hp hv

lemma packed_qIndex (b hq i d : ℤ) : toSizeT (qOff p b hq i + d)
    = toSizeT ((hq * total p + (start p b + i)) * p.headDim + d) := by
  have htot : p.buffers.totalSeqlen = total p := totalSeqlen_eq hv
  have hvl : vlOffset p b = start p b := seqOffsets_start b
  unfold qOff
  rw [if_pos hv, toSizeT_add, htot, hvl, hp.hdim, add_assoc (hq * total p)]

lemma packed_kIndex (b hkv j d : ℤ) : toSizeT (CpuRef.kBase p b hkv + j * p.hdimDispatch + d)
    = toSizeT ((hkv * total p + (start p b + j)) * p.headDim + d) := by
  have htot : p.buffers.totalSeqlen = total p := totalSeqlen_eq hv
  have hvl : vlOffset p b = start p b := seqOffsets_start b
  unfold CpuRef.kBase
  rw [if_pos hv, add_assoc, toSizeT_add, htot, hvl, hp.hdim]
  congr 1
  ring

omit hp in
lemma packed_rowCount (heads rows : ℤ) : p.rowCount heads rows = heads * total p := by
  have htot : p.buffers.totalSeqlen = total p := totalSeqlen_eq hv
  rw [FmhaParams.rowCount, if_pos hv, htot]

lemma packed_szQ : p.buffers.szQ = toSizeT (p.qHeads * total p * p.headDim) := by
  rw [p.szQ_eq, packed_rowCount hv, hp.hdim]

lemma packed_szK : p.buffers.szK = toSizeT (p.kvHeads * total p * p.headDim) := by
  rw [p.szK_eq, packed_rowCount hv, hp.hdim]

omit hv in
/-- A position in the packed rows. -/
lemma packed_row_lt {i : ℤ} (hi : 0 ≤ i) (hin : i < seqLength p b) :
    0 ≤ start p b + i ∧ start p b + i < 6442450944 := by
  obtain ⟨h0, h1⟩ := start_mem p b
  have hlen := seqLength_lt_of_forall hp.length_lt b
  omega

variable (hc : p.buffers.Constructed)

include hc

/-- Row `i` of a sequence, in every query head. -/
lemma packed_q_iff {i : ℤ} (hi : 0 ≤ i) (hin : i < seqLength p b) :
    (∀ hq, 0 ≤ hq → hq < p.qHeads → ∀ d, 0 ≤ d → d < p.headDim →
        toSizeT (qOff p b hq i + d) < p.buffers.szQ) ↔
      start p b + i < total p ∧ p.qHeads * total p * p.headDim < 18446744073709551616 := by
  obtain ⟨ht0, ht1⟩ := total_mem p
  obtain ⟨hy0, hy1⟩ := packed_row_lt hp hi hin
  have hszQ := hc.szQ
  rw [packed_szQ hp hv] at hszQ
  simp only [packed_qIndex hp hv, packed_szQ hp hv]
  exact tensor_lt_iff hp hp.qHeads_pos ht0 ht1 hy0 hy1 hszQ

/-- Key `j` of a sequence, for every query head. -/
lemma packed_k_iff {j : ℤ} (hj : 0 ≤ j) (hjn : j < seqLength p b) :
    (∀ hq, 0 ≤ hq → hq < p.qHeads → ∀ d, 0 ≤ d → d < p.headDim →
        toSizeT (CpuRef.kBase p b (hq.tdiv p.gqa) + j * p.hdimDispatch + d) < p.buffers.szK) ↔
      start p b + j < total p ∧ p.kvHeads * total p * p.headDim < 18446744073709551616 := by
  obtain ⟨ht0, ht1⟩ := total_mem p
  obtain ⟨hy0, hy1⟩ := packed_row_lt hp hj hjn
  have hszK := hc.szK
  rw [packed_szK hp hv] at hszK
  rw [forall_kvHeads hp fun hkv => ∀ d, 0 ≤ d → d < p.headDim →
    toSizeT (CpuRef.kBase p b hkv + j * p.hdimDispatch + d) < p.buffers.szK]
  simp only [packed_kIndex hp hv, packed_szK hp hv]
  exact tensor_lt_iff hp hp.kvHeads_pos ht0 ht1 hy0 hy1 hszK

variable (ht : throws p dump = false)

include ht

/-- **One sequence.** -/
lemma seqFits_iff (hlen : 0 < seqLength p b) :
    (∀ hq, 0 ≤ hq → hq < p.qHeads → ∀ i, 0 ≤ i → i < seqLength p b → RowFits p dump ⟨b, hq, i⟩) ↔
      SeqFits p dump b := by
  have hH := hp.qHeads_pos
  have hlen1 := seqLength_lt_of_forall hp.length_lt b
  have hskv : getSkv p b = seqLength p b := if_pos hv
  obtain ⟨-, hS⟩ := scores_size hp ht
  constructor
  · intro h
    have hscores := (h 0 le_rfl hH 0 le_rfl hlen).scores
    rw [hskv, hS] at hscores
    -- the last row of the sequence
    obtain ⟨hlast, hsize⟩ := (packed_q_iff hp hv hc (i := seqLength p b - 1) (by omega) (by omega)).mp
      fun hq hq0 hqH => (h hq hq0 hqH _ (by omega) (by omega)).q
    refine ⟨hscores, by omega, hsize, ?_⟩
    rintro rfl
    exact (perRow_lt_iff hp ht b hlen hlen1).mp fun hq hq0 hqH i hi hin =>
      (h hq hq0 hqH i hi hin).perRow rfl
  · rintro ⟨hscores, hpacked, hsize, hperRow⟩ hq hq0 hqH i hi hin
    have hsizeK : p.kvHeads * total p * p.headDim < 18446744073709551616 := by
      have hTD : 0 ≤ total p * p.headDim := mul_nonneg (total_mem p).1 hp.headDim_pos.le
      rw [mul_assoc] at hsize ⊢
      exact (mul_le_mul_of_nonneg_right (kv_le_q hp) hTD).trans_lt hsize
    refine ⟨?_, ?_, ?_, fun j hj hjn => ?_, ?_⟩
    · rwa [hskv, hS]
    · rw [hS]
      omega
    · exact (packed_q_iff hp hv hc hi hin).mpr ⟨by omega, hsize⟩ hq hq0 hqH
    · rw [hskv] at hjn
      exact (packed_k_iff hp hv hc hj hjn).mpr ⟨by omega, hsizeK⟩ hq hq0 hqH
    · rintro rfl
      exact (perRow_lt_iff hp ht b hlen hlen1).mpr (hperRow rfl) hq hq0 hqH i hi hin

end Varlen

/-! ### Dense tensors -/

section Dense

variable {p : FmhaParams} (hp : Ready p) (hv : p.varlenMode = false) {dump : Bool}

include hp hv

lemma dense_qIndex (b hq i d : ℤ) : toSizeT (qOff p b hq i + d)
    = toSizeT (((b * p.qHeads + hq) * p.seqLen + i) * p.headDim + d) := by
  unfold qOff
  rw [hv, if_neg Bool.false_ne_true, toSizeT_add, hp.hdim]

lemma dense_kIndex (b hkv j d : ℤ) : toSizeT (CpuRef.kBase p b hkv + j * p.hdimDispatch + d)
    = toSizeT (((b * p.kvHeads + hkv) * p.kvSeqLen + j) * p.headDim + d) := by
  unfold CpuRef.kBase
  rw [hv, if_neg Bool.false_ne_true, add_assoc, toSizeT_add, hp.hdim]
  congr 1
  ring

lemma dense_szQ : p.buffers.szQ = toSizeT (p.batch * p.qHeads * p.seqLen * p.headDim) := by
  rw [p.szQ_eq, FmhaParams.rowCount, hv, if_neg Bool.false_ne_true, hp.hdim]

lemma dense_szK : p.buffers.szK = toSizeT (p.batch * p.kvHeads * p.kvSeqLen * p.headDim) := by
  rw [p.szK_eq, FmhaParams.rowCount, hv, if_neg Bool.false_ne_true, hp.hdim]

variable (hc : p.buffers.Constructed)

include hc

/-- Row `i` of every batch and query head. -/
lemma dense_q_iff {i : ℤ} (hi : 0 ≤ i) (hiS : i < p.seqLen) :
    (∀ b, 0 ≤ b → b < p.batch → ∀ hq, 0 ≤ hq → hq < p.qHeads → ∀ d, 0 ≤ d → d < p.headDim →
        toSizeT (qOff p b hq i + d) < p.buffers.szQ) ↔
      p.batch * p.qHeads * p.seqLen * p.headDim < 18446744073709551616 := by
  obtain ⟨hB, hS, -⟩ := hp.dense hv
  have hS1 := hp.seqLen.2
  have hszQ := hc.szQ
  rw [dense_szQ hp hv] at hszQ
  simp only [dense_qIndex hp hv, dense_szQ hp hv]
  rw [forall_digits hp.qHeads_pos fun k => ∀ d, 0 ≤ d → d < p.headDim →
      toSizeT ((k * p.seqLen + i) * p.headDim + d)
        < toSizeT (p.batch * p.qHeads * p.seqLen * p.headDim),
    tensor_lt_iff hp (mul_pos hB hp.qHeads_pos) hS.le (by omega) hi (by omega) hszQ]
  exact and_iff_right hiS

/-- Key `j` of every batch and query head. -/
lemma dense_k_iff {j : ℤ} (hj : 0 ≤ j) (hjS : j < p.kvSeqLen) :
    (∀ b, 0 ≤ b → b < p.batch → ∀ hq, 0 ≤ hq → hq < p.qHeads → ∀ d, 0 ≤ d → d < p.headDim →
        toSizeT (CpuRef.kBase p b (hq.tdiv p.gqa) + j * p.hdimDispatch + d) < p.buffers.szK) ↔
      p.batch * p.kvHeads * p.kvSeqLen * p.headDim < 18446744073709551616 := by
  obtain ⟨hB, -, -⟩ := hp.dense hv
  have hS1 := hp.kvSeqLen.2
  have hszK := hc.szK
  rw [dense_szK hp hv] at hszK
  have hgroup : ∀ b, (∀ hq, 0 ≤ hq → hq < p.qHeads → ∀ d, 0 ≤ d → d < p.headDim →
      toSizeT (((b * p.kvHeads + hq.tdiv p.gqa) * p.kvSeqLen + j) * p.headDim + d)
        < toSizeT (p.batch * p.kvHeads * p.kvSeqLen * p.headDim)) ↔ _ :=
    fun b => forall_kvHeads hp fun hkv => ∀ d, 0 ≤ d → d < p.headDim →
      toSizeT (((b * p.kvHeads + hkv) * p.kvSeqLen + j) * p.headDim + d)
        < toSizeT (p.batch * p.kvHeads * p.kvSeqLen * p.headDim)
  simp only [dense_kIndex hp hv, dense_szK hp hv, hgroup]
  rw [forall_digits hp.kvHeads_pos fun k => ∀ d, 0 ≤ d → d < p.headDim →
      toSizeT ((k * p.kvSeqLen + j) * p.headDim + d)
        < toSizeT (p.batch * p.kvHeads * p.kvSeqLen * p.headDim),
    tensor_lt_iff hp (mul_pos hB hp.kvHeads_pos) (by omega) (by omega) hj (by omega) hszK]
  exact and_iff_right hjS

variable (ht : throws p dump = false)

include ht

/-- **All rows.** -/
lemma denseFits_iff :
    (∀ b, 0 ≤ b → b < p.batch → ∀ hq, 0 ≤ hq → hq < p.qHeads → ∀ i, 0 ≤ i → i < p.seqLen →
        RowFits p dump ⟨b, hq, i⟩) ↔
      p.batch * p.qHeads * p.seqLen * p.headDim < 18446744073709551616 ∧
        p.batch * p.kvHeads * p.kvSeqLen * p.headDim < 18446744073709551616 := by
  obtain ⟨hB, hSq, hne⟩ := hp.dense hv
  obtain ⟨hSkv, hS⟩ := scores_size hp ht
  have hskv : ∀ b, getSkv p b = p.kvSeqLen := fun b => by
    rw [getSkv, hv, if_neg Bool.false_ne_true]
  constructor
  · intro h
    refine ⟨(dense_q_iff hp hv hc le_rfl hSq).mp fun b hb hbB hq hq0 hqH =>
      (h b hb hbB hq hq0 hqH 0 le_rfl hSq).q, ?_⟩
    refine (dense_k_iff hp hv hc (j := 0) le_rfl (by omega)).mp fun b hb hbB hq hq0 hqH => ?_
    refine (h b hb hbB hq hq0 hqH 0 le_rfl hSq).k 0 le_rfl ?_
    rw [hskv]
    omega
  · rintro ⟨hsizeQ, hsizeK⟩ b hb hbB hq hq0 hqH i hi hiS
    refine ⟨?_, ?_, ?_, fun j hj hjS => ?_, ?_⟩
    · rw [hskv, hS]
    · rw [hS]
      omega
    · exact (dense_q_iff hp hv hc hi hiS).mpr hsizeQ b hb hbB hq hq0 hqH
    · rw [hskv] at hjS
      exact (dense_k_iff hp hv hc hj hjS).mpr hsizeK b hb hbB hq hq0 hqH
    · rintro rfl
      have hrow : (b * p.qHeads + hq) * p.seqLen + i < p.batch * p.qHeads * p.seqLen :=
        Indexing.radix_lt hi hiS (Indexing.radix_lt hq0 hqH hbB)
      have hrow0 : 0 ≤ (b * p.qHeads + hq) * p.seqLen + i := by
        have := hp.qHeads_pos
        positivity
      have hcount : p.batch * p.qHeads * p.seqLen ≤ p.batch * p.qHeads * p.seqLen * p.headDim :=
        le_mul_of_one_le_right (by omega) hp.headDim_pos
      obtain ⟨hsize, -⟩ := perRow_size ht
      rw [hsize, rowIdx, toSizeT_eq hrow0 (by omega), toSizeT_eq (by omega) (by omega)]
      exact hrow

end Dense

/-! ### The verifier -/

lemma inBounds_iff_fits {p : FmhaParams} (hp : Ready p) (hc : p.buffers.Constructed) (dump : Bool) :
    InBounds p dump (accesses p dump) ↔ throws p dump ∨ Fits p dump := by
  rw [accesses_inBounds_iff hp.headDim_pos]
  cases ht : throws p dump with
  | true => simp
  | false =>
    have hrows : (∀ row ∈ rows p, RowFits p dump row) ↔ ∀ b, 0 ≤ b → b < p.batch → ∀ hq, 0 ≤ hq →
        hq < p.qHeads → ∀ i, 0 ≤ i → i < getSq p b → RowFits p dump ⟨b, hq, i⟩ := by
      constructor
      · intro h b hb hbB hq hq0 hqH i hi hin
        exact h ⟨b, hq, i⟩ (mem_rows.mpr ⟨⟨hb, hbB⟩, ⟨hq0, hqH⟩, hi, hin⟩)
      · intro h row hrow
        obtain ⟨⟨hb, hbB⟩, ⟨hq0, hqH⟩, hi, hin⟩ := mem_rows.mp hrow
        exact h row.b hb hbB row.hq hq0 hqH row.i hi hin
    simp only [Bool.false_eq_true, false_or]
    rw [hrows]
    cases hv : p.varlenMode with
    | true =>
      have hsq : ∀ b, getSq p b = seqLength p b := fun b => if_pos hv
      simp only [Fits, hv, if_true, hsq]
      constructor
      · intro h b hb hbB hlen
        exact (seqFits_iff hp hv hc ht hlen).mp (h b hb hbB)
      · intro h b hb hbB hq hq0 hqH i hi hin
        exact (seqFits_iff hp hv hc ht (by omega)).mpr (h b hb hbB (by omega)) hq hq0 hqH i hi hin
    | false =>
      have hsq : ∀ b, getSq p b = p.seqLen := fun b => by
        rw [getSq, hv, if_neg Bool.false_ne_true]
      simp only [Fits, hv, Bool.false_eq_true, if_false, hsq]
      exact denseFits_iff hp hv hc ht

/-- A test case of `int`s with positive dimensions, and query heads in whole groups. -/
structure Positive (tc : TestCase) : Prop where
  h_pos : 0 < tc.h
  d_pos : 0 < tc.d
  kvHeads_nonneg : 0 ≤ tc.kvHeads
  dvd : (makeParams tc).kvHeads ∣ (makeParams tc).qHeads
  dense : tc.varlenSeqs = [] → 0 < tc.b ∧ 0 < tc.s
  s_isInt : IsInt tc.s
  d_isInt : IsInt tc.d
  kvSeq_isInt : IsInt tc.kvSeq
  varlenSeqs : ∀ s ∈ tc.varlenSeqs, IsInt s

lemma makeParams_ready {tc : TestCase} (h : Positive tc) : Ready (makeParams tc) := by
  obtain ⟨hgqa, hq⟩ := makeParams_groups h.h_pos h.kvHeads_nonneg h.dvd
  have hs : 0 ≤ (makeParams tc).seqLen ∧ (makeParams tc).seqLen < 2147483648 := by
    rw [makeParams_seqLen]
    split_ifs with hl
    · exact ⟨(h.dense hl).2.le, h.s_isInt.2⟩
    · exact ⟨maxSeq_nonneg _, (maxSeq_isInt h.varlenSeqs).2⟩
  refine
    { headDim_pos := h.d_pos
      headDim_lt := h.d_isInt.2
      hdim := if_pos h.d_pos
      qHeads_pos := h.h_pos
      kvHeads_pos := makeParams_kvHeads_pos h.h_pos h.kvHeads_nonneg
      gqa_pos := hgqa
      qHeads_eq := hq
      seqLen := hs
      kvSeqLen := ?_
      dense := fun hv => ?_
      length_lt := fun s hs => (h.varlenSeqs s hs).2 }
  · rw [makeParams_kvSeqLen]
    split_ifs
    · exact ⟨by omega, hs.2⟩
    · exact h.kvSeq_isInt
  · have hnil := (makeParams_varlenMode tc).mp hv
    obtain ⟨hb, hs⟩ := h.dense hnil
    rw [makeParams_kvSeqLen, makeParams_batch, makeParams_seqLen, if_pos hnil, if_pos hnil]
    refine ⟨hb, hs, ?_⟩
    split_ifs <;> omega

/-- **When `cpu_ref_verify` stays inside its arrays**: exactly when it throws before the row
loops, or the lengths fit. -/
theorem cpuRefVerify_inBounds_iff {tc : TestCase} (h : Positive tc)
    (hc : (makeParams tc).buffers.Constructed) (dump : Bool) :
    InBounds (makeParams tc) dump (accesses (makeParams tc) dump) ↔
      throws (makeParams tc) dump ∨ Fits (makeParams tc) dump :=
  inBounds_iff_fits (makeParams_ready h) hc dump

/-- Packed sequences of two and three rows, two query heads on one key head. -/
theorem cpuRefVerify_inBounds_iff_packed :
    ∃ tc, Positive tc ∧ tc.varlenSeqs = [2, 3] ∧
      InBounds (makeParams tc) true (accesses (makeParams tc) true) := by
  refine ⟨⟨1, 2, 1, 64, 1, 0, 1, 0, [2, 3]⟩, ?_, rfl, (cpuRefVerify_inBounds_iff ?_ ?_ true).mpr
    (Or.inr ?_)⟩
  · constructor <;> decide
  · constructor <;> decide
  · constructor <;> decide
  · intro b hb hbB hlen
    obtain rfl | rfl : b = 0 ∨ b = 1 := by
      have : b < 2 := hbB
      omega
    · constructor <;> decide
    · constructor <;> decide

/-- One packed sequence of four rows, whose keys are given as two: the third score of its first
row is past the end. -/
theorem cpuRefVerify_inBounds_fails_kvSeq :
    ∃ tc, Positive tc ∧ tc.varlenSeqs = [4] ∧ tc.kvSeq = 2 ∧ (makeParams tc).buffers.Constructed ∧
      ¬ InBounds (makeParams tc) false (accesses (makeParams tc) false) := by
  refine ⟨⟨1, 1, 1, 64, 0, 2, 0, 0, [4]⟩, ?_, rfl, rfl, ?_, fun h => ?_⟩
  · constructor <;> decide
  · constructor <;> decide
  · have hrow : (⟨0, 0, 0⟩ : Row) ∈ rows (makeParams ⟨1, 1, 1, 64, 0, 2, 0, 0, [4]⟩) :=
      mem_rows.mpr (by decide)
    have hscore : (⟨.s, 2⟩ : Access) ∈
        rowAccesses (makeParams ⟨1, 1, 1, 64, 0, 2, 0, 0, [4]⟩) false ⟨0, 0, 0⟩ := by
      refine List.mem_append_left _ (List.mem_append_right _ (List.mem_cons_of_mem _ ?_))
      exact List.mem_flatMap.mpr ⟨2, by decide, List.mem_cons_self⟩
    exact absurd (h _ (List.mem_append_left _ (List.mem_flatMap.mpr ⟨_, hrow, hscore⟩))) (by decide)

end FmhaNative.VerifyBounds
