import FmhaNative.CpuRef
import FmhaNative.Indexing

/-!
The two oracles against each other: the reference kernel, launched on the buffers as the oracle
test does, writes the rows that the CPU reference computes.
-/

namespace FmhaNative.Oracles

open Host CpuRef GpuRef Indexing Stores

/-! ### The problems -/

/-- What the test's parameters look like. -/
structure WellFormed (p : FmhaParams) : Prop where
  headDim_pos : 0 < p.headDim
  hdim : p.hdimDispatch = p.headDim
  kvHeads_pos : 0 < p.kvHeads
  gqa_pos : 0 < p.gqa
  qHeads_eq : p.qHeads = p.kvHeads * p.gqa
  dense : p.varlenMode = false → 0 < p.batch ∧ 0 < p.seqLen ∧ 0 < p.kvSeqLen
  batch_eq : p.varlenMode = true → p.batch = p.varlenSeqs.length
  length_nonneg : ∀ s ∈ p.varlenSeqs, 0 ≤ s
  length_le : ∀ s ∈ p.varlenSeqs, s ≤ p.seqLen ∧ s ≤ p.kvSeqLen

/-- The products that the host and the reference kernel form in 32 bits. -/
structure NoOverflow (p : FmhaParams) : Prop where
  qStride : p.varlenMode = false → p.qHeads * p.seqLen * p.headDim < 2147483648
  kStride : p.varlenMode = false → p.kvHeads * p.kvSeqLen * p.headDim < 2147483648
  packed : p.varlenMode = true → p.varlenSeqs.sum * p.headDim < 2147483648
  threads : p.batch * p.qHeads * p.seqLen + 255 < 2147483648
  count : p.varlenSeqs.length < 2147483648

/-- A row that the CPU oracle checks. -/
structure Checked (p : FmhaParams) (b hq i : ℤ) : Prop where
  b_nonneg : 0 ≤ b
  b_lt : b < p.batch
  hq_nonneg : 0 ≤ hq
  hq_lt : hq < p.qHeads
  i_nonneg : 0 ≤ i
  i_lt : i < getSq p b

section Rows

variable {p : FmhaParams} (hp : WellFormed p) (hw : NoOverflow p)
include hp

lemma WellFormed.qHeads_pos : 0 < p.qHeads := by
  rw [hp.qHeads_eq]
  exact mul_pos hp.kvHeads_pos hp.gqa_pos

/-- The key head of a query head. -/
lemma WellFormed.kvHead {hq : ℤ} (h0 : 0 ≤ hq) (h : hq < p.qHeads) :
    0 ≤ hq.tdiv p.gqa ∧ hq.tdiv p.gqa < p.kvHeads := by
  rw [Int.tdiv_eq_ediv_of_nonneg h0]
  refine ⟨Int.ediv_nonneg h0 hp.gqa_pos.le, Int.ediv_lt_of_lt_mul hp.gqa_pos ?_⟩
  rwa [← hp.qHeads_eq]

lemma WellFormed.length_mem (b : ℤ) : 0 ≤ p.varlenSeqs.getD b.toNat 0 := by
  rcases getD_mem p.varlenSeqs b.toNat with hmem | h0
  · exact hp.length_nonneg _ hmem
  · exact h0.ge

/-! ### Packed sequences -/

include hw

variable (hv : p.varlenMode = true)
include hv

lemma sum_lt : 0 ≤ p.varlenSeqs.sum ∧ p.varlenSeqs.sum < 2147483648 := by
  have h0 : 0 ≤ p.varlenSeqs.sum := List.sum_nonneg hp.length_nonneg
  have h1 := hw.packed hv
  have h2 : p.varlenSeqs.sum * 1 ≤ p.varlenSeqs.sum * p.headDim :=
    mul_le_mul_of_nonneg_left hp.headDim_pos h0
  exact ⟨h0, by omega⟩

/-- The table holds the sums of the lengths. -/
lemma vlOffset_eq (b : ℤ) : vlOffset p b = (p.varlenSeqs.take b.toNat).sum := by
  obtain ⟨h0, h1⟩ := sum_lt hp hw hv
  have hsplit := List.sum_take_add_sum_drop p.varlenSeqs b.toNat
  have htake : 0 ≤ (p.varlenSeqs.take b.toNat).sum :=
    List.sum_nonneg fun s hs => hp.length_nonneg s (List.mem_of_mem_take hs)
  have hdrop : 0 ≤ (p.varlenSeqs.drop b.toNat).sum :=
    List.sum_nonneg fun s hs => hp.length_nonneg s (List.mem_of_mem_drop hs)
  exact (seqOffsets_eq _ _).trans (toUint32_eq htake (by omega))

lemma vlOffset_succ {b : ℤ} (hb : 0 ≤ b) : vlOffset p (b + 1) = vlOffset p b + getSq p b := by
  have hnat : (b + 1).toNat = b.toNat + 1 := by omega
  have hlen : getSq p b = p.varlenSeqs.getD b.toNat 0 := if_pos hv
  rw [vlOffset_eq hp hw hv, vlOffset_eq hp hw hv, hnat, hlen, List.take_add_one, List.sum_append]
  cases h : p.varlenSeqs[b.toNat]? with
  | none => simp [List.getD, h]
  | some s => simp [List.getD, h]

lemma vlOffset_packed : Packed (vlOffset p) p.batch := by
  intro b hb _
  have hlen : getSq p b = p.varlenSeqs.getD b.toNat 0 := if_pos hv
  have := hp.length_mem b
  rw [vlOffset_succ hp hw hv hb, hlen]
  omega

lemma vlOffset_batch : vlOffset p p.batch = p.varlenSeqs.sum := by
  rw [vlOffset_eq hp hw hv, hp.batch_eq hv, Int.toNat_natCast, List.take_length]

lemma total_eq : p.buffers.totalSeqlen = p.varlenSeqs.sum := by
  obtain ⟨h0, h1⟩ := sum_lt hp hw hv
  rw [totalSeqlen_eq hv, toUint32_eq h0 (by omega)]

end Rows

/-! ### Rows of the tensors -/

/-- The row of Q and O, and the row of K and V, counted from the start of the tensor. -/
def rowIndex (p : FmhaParams) (b hq i : ℤ) : ℤ :=
  if p.varlenMode then hq * p.varlenSeqs.sum + (vlOffset p b + i)
  else (b * p.qHeads + hq) * p.seqLen + i
def keyIndex (p : FmhaParams) (b hkv j : ℤ) : ℤ :=
  if p.varlenMode then hkv * p.varlenSeqs.sum + (vlOffset p b + j)
  else (b * p.kvHeads + hkv) * p.kvSeqLen + j

/-- Key `j` is found `j` rows after the first key. -/
lemma keyIndex_row (p : FmhaParams) (b hkv j d : ℤ) :
    keyIndex p b hkv 0 * p.headDim + (j * p.headDim + d) = keyIndex p b hkv j * p.headDim + d := by
  unfold keyIndex
  split_ifs <;> ring

section Index

variable {p : FmhaParams} (hp : WellFormed p) (hw : NoOverflow p) {b hq i : ℤ}
include hp hw

omit hw in
lemma Checked.seqLen (hc : Checked p b hq i) : i < p.seqLen := by
  have hi := hc.i_lt
  have hi0 := hc.i_nonneg
  unfold getSq at hi
  split_ifs at hi with hv
  · rcases getD_mem p.varlenSeqs b.toNat with hmem | h0
    · exact lt_of_lt_of_le hi (hp.length_le _ hmem).1
    · omega
  · exact hi

/-- A checked row exists only in a problem whose dimensions are `int`s. -/
lemma Checked.dims (hc : Checked p b hq i) :
    p.batch < 2147483648 ∧ p.qHeads < 2147483648 ∧ p.kvHeads < 2147483648 ∧
      p.seqLen < 2147483648 := by
  have hB : 0 < p.batch := lt_of_le_of_lt hc.b_nonneg hc.b_lt
  have hS : 0 < p.seqLen := lt_of_le_of_lt hc.i_nonneg (hc.seqLen hp)
  have hH := hp.qHeads_pos
  have hpos : 0 < p.batch * p.qHeads * p.seqLen := mul_pos (mul_pos hB hH) hS
  have h1 : p.batch ≤ p.batch * p.qHeads * p.seqLen := Int.le_of_dvd hpos ⟨p.qHeads * p.seqLen, by ring⟩
  have h2 : p.qHeads ≤ p.batch * p.qHeads * p.seqLen := Int.le_of_dvd hpos ⟨p.batch * p.seqLen, by ring⟩
  have h3 : p.seqLen ≤ p.batch * p.qHeads * p.seqLen := Int.le_of_dvd hpos ⟨p.batch * p.qHeads, by ring⟩
  have h4 : p.kvHeads ≤ p.qHeads := Int.le_of_dvd hH ⟨p.gqa, hp.qHeads_eq⟩
  have := hw.threads
  refine ⟨?_, ?_, ?_, ?_⟩ <;> omega

omit hp hw in
/-- An element of a packed tensor of `H` heads of `T` rows. -/
lemma packedElem_mem {H T D h r d : ℤ} (hH : H < 2147483648) (hh : 0 ≤ h) (hhH : h < H) (hr : 0 ≤ r)
    (hrT : r < T) (hd0 : 0 ≤ d) (hd : d < D) (hstride : T * D < 2147483648) :
    0 ≤ (h * T + r) * D + d ∧ (h * T + r) * D + d < H * T * D ∧ H * T * D < 4611686018427387904 := by
  have hT : 0 ≤ T := hr.trans hrT.le
  have hD : 0 ≤ D := hd0.trans hd.le
  refine ⟨by positivity, radix_lt hd0 hd (radix_lt hr hrT hhH), ?_⟩
  rw [mul_assoc]
  exact mul_lt_of_int (hh.trans hhH.le) hH (mul_nonneg hT hD) hstride

omit hp hw in
/-- An element of a dense tensor of `B` batches of `H` heads of `S` rows. -/
lemma denseElem_mem {B H S D h r d : ℤ} (hB : B < 2147483648) (hb : 0 ≤ b) (hbB : b < B) (hh : 0 ≤ h)
    (hhH : h < H) (hr : 0 ≤ r) (hrS : r < S) (hd0 : 0 ≤ d) (hd : d < D)
    (hstride : H * S * D < 2147483648) :
    0 ≤ ((b * H + h) * S + r) * D + d ∧ ((b * H + h) * S + r) * D + d < B * H * S * D ∧
      B * H * S * D < 4611686018427387904 := by
  have hrow0 : 0 ≤ h * S + r := add_nonneg (mul_nonneg hh (hr.trans hrS.le)) hr
  have helem := packedElem_mem hB hb hbB hrow0 (radix_lt hr hrS hhH) hd0 hd hstride
  have hform : b * (H * S) + (h * S + r) = (b * H + h) * S + r := by ring
  rwa [hform, ← mul_assoc B] at helem

/-- A row of a packed sequence. -/
lemma packedRow_mem (hv : p.varlenMode = true) (hb : 0 ≤ b) (hbB : b < p.batch) {r : ℤ} (hr : 0 ≤ r)
    (hlen : r < getSq p b) : 0 ≤ vlOffset p b + r ∧ vlOffset p b + r < p.varlenSeqs.sum := by
  have hrow := (vlOffset_packed hp hw hv).mem hb hbB hr (by
    rw [vlOffset_succ hp hw hv hb]
    omega)
  rwa [vlOffset_batch hp hw hv] at hrow

/-- A row of Q and O lies inside the tensor. -/
lemma rowIndex_mem (hc : Checked p b hq i) {d : ℤ} (hd0 : 0 ≤ d) (hd : d < p.headDim) :
    0 ≤ rowIndex p b hq i ∧ 0 ≤ rowIndex p b hq i * p.headDim + d ∧
      rowIndex p b hq i * p.headDim + d < p.buffers.szO ∧
      rowIndex p b hq i * p.headDim + d < 4611686018427387904 := by
  obtain ⟨hB, hH, -, -⟩ := hc.dims hp hw
  have hb := hc.b_nonneg
  have hh := hc.hq_nonneg
  have hi := hc.i_nonneg
  unfold rowIndex
  cases hv : p.varlenMode
  · have hS : 0 < p.seqLen := lt_of_le_of_lt hi (hc.seqLen hp)
    have hHpos := hp.qHeads_pos
    obtain ⟨h0, hlt, hsize⟩ := denseElem_mem hB hb hc.b_lt hh hc.hq_lt hi (hc.seqLen hp) hd0 hd
      (hw.qStride hv)
    have hsz : p.buffers.szO = p.batch * p.qHeads * p.seqLen * p.headDim := by
      unfold FmhaParams.buffers
      simp only [hv, hp.hdim, Bool.false_eq_true, if_false]
      exact toSizeT_eq (h0.trans hlt.le) (by omega)
    simp only [Bool.false_eq_true, if_false, hsz]
    exact ⟨by positivity, h0, hlt, hlt.trans hsize⟩
  · obtain ⟨hr0, hrT⟩ := packedRow_mem hp hw hv hb hc.b_lt hi hc.i_lt
    obtain ⟨h0, hlt, hsize⟩ := packedElem_mem hH hh hc.hq_lt hr0 hrT hd0 hd (hw.packed hv)
    have hsz : p.buffers.szO = p.qHeads * p.varlenSeqs.sum * p.headDim := by
      have htot := total_eq hp hw hv
      unfold FmhaParams.buffers at htot ⊢
      simp only [hv, hp.hdim, if_true] at htot ⊢
      rw [htot]
      exact toSizeT_eq (h0.trans hlt.le) (by omega)
    simp only [if_true, hsz]
    exact ⟨add_nonneg (mul_nonneg hh (sum_lt hp hw hv).1) hr0, h0, hlt, hlt.trans hsize⟩

/-- The element of Q and of O that the CPU oracle reads. -/
lemma qIndex_eq (hc : Checked p b hq i) {d : ℤ} (hd0 : 0 ≤ d) (hd : d < p.headDim) :
    toSizeT (qOff p b hq i + d) = rowIndex p b hq i * p.headDim + d := by
  have hoff : qOff p b hq i = toSizeT (rowIndex p b hq i * p.headDim) := by
    unfold qOff rowIndex
    split_ifs with hv
    · rw [hp.hdim, total_eq hp hw hv, add_assoc]
    · rw [hp.hdim]
  obtain ⟨-, h0, -, hlt⟩ := rowIndex_mem hp hw hc hd0 hd
  rw [hoff, toSizeT_add, toSizeT_eq h0 (by omega)]

/-- Distinct rows are apart. -/
lemma rowIndex_inj {b' hq' i' : ℤ} (hc : Checked p b hq i) (hc' : Checked p b' hq' i')
    (he : rowIndex p b hq i = rowIndex p b' hq' i') : b = b' ∧ hq = hq' ∧ i = i' := by
  unfold rowIndex at he
  cases hv : p.varlenMode
  · simp only [hv, Bool.false_eq_true, if_false] at he
    obtain ⟨hhead, hi⟩ := radix_inj hc.i_nonneg (hc.seqLen hp) hc'.i_nonneg (hc'.seqLen hp) he
    obtain ⟨hb, hh⟩ := radix_inj hc.hq_nonneg hc.hq_lt hc'.hq_nonneg hc'.hq_lt hhead
    exact ⟨hb, hh, hi⟩
  · simp only [hv, if_true] at he
    have hpk := vlOffset_packed hp hw hv
    have hlen : ∀ {b hq i}, Checked p b hq i → i < vlOffset p (b + 1) - vlOffset p b := by
      intro b hq i hc
      have := hc.i_lt
      rw [vlOffset_succ hp hw hv hc.b_nonneg]
      omega
    obtain ⟨hr0, hrT⟩ := packedRow_mem hp hw hv hc.b_nonneg hc.b_lt hc.i_nonneg hc.i_lt
    obtain ⟨hr0', hrT'⟩ := packedRow_mem hp hw hv hc'.b_nonneg hc'.b_lt hc'.i_nonneg hc'.i_lt
    obtain ⟨hh, hpos⟩ := radix_inj hr0 hrT hr0' hrT' he
    obtain ⟨hb, hi⟩ := hpk.inj hc.b_nonneg hc.b_lt hc.i_nonneg (hlen hc) hc'.b_nonneg hc'.b_lt
      hc'.i_nonneg (hlen hc') hpos
    exact ⟨hb, hh, hi⟩

/-- The element of K and V that the CPU oracle reads for a key. -/
lemma kIndex_eq (hc : Checked p b hq i) {hkv : ℤ} (hkv0 : 0 ≤ hkv) (hkv1 : hkv < p.kvHeads) {j d : ℕ}
    (hj : (j : ℤ) < getSkv p b) (hd : (d : ℤ) < p.headDim) :
    kIndex p (CpuRef.kBase p b hkv) j d = keyIndex p b hkv j * p.headDim + d := by
  obtain ⟨hB, -, hK, -⟩ := hc.dims hp hw
  have hb := hc.b_nonneg
  have hbase : CpuRef.kBase p b hkv = toSizeT (keyIndex p b hkv 0 * p.headDim) := by
    unfold CpuRef.kBase keyIndex
    split_ifs with hv
    · rw [hp.hdim, total_eq hp hw hv, add_zero]
    · rw [hp.hdim, add_zero]
  unfold kIndex
  rw [hbase, hp.hdim, add_assoc, toSizeT_add, keyIndex_row]
  unfold keyIndex
  cases hv : p.varlenMode
  · have hj' : (j : ℤ) < p.kvSeqLen := by
      unfold getSkv at hj
      rwa [hv, if_neg Bool.false_ne_true] at hj
    obtain ⟨h0, hlt, hsize⟩ := denseElem_mem hB hb hc.b_lt hkv0 hkv1 (Int.natCast_nonneg j) hj'
      (Int.natCast_nonneg d) hd (hw.kStride hv)
    simp only [Bool.false_eq_true, if_false]
    exact toSizeT_eq h0 (by omega)
  · have hj' : (j : ℤ) < getSq p b := by
      unfold getSq
      unfold getSkv at hj
      rwa [hv] at hj ⊢
    obtain ⟨hr0, hrT⟩ := packedRow_mem hp hw hv hb hc.b_lt (Int.natCast_nonneg j) hj'
    obtain ⟨h0, hlt, hsize⟩ := packedElem_mem hK hkv0 hkv1 hr0 hrT (Int.natCast_nonneg d) hd
      (hw.packed hv)
    simp only [if_true]
    exact toSizeT_eq h0 (by omega)

end Index

/-! ### The threads of the reference kernel -/

section Threads

variable {p : FmhaParams} (hp : WellFormed p) (hw : NoOverflow p) {b hq i : ℤ}
variable {α β : Type*} [Fp α] (hQ hK hV : Mem β)

/-- The place that the thread of a checked row computes. -/
def place (p : FmhaParams) (b hq i : ℤ) : RowPlace :=
  { i := i, sqB := getSq p b, skvB := getSkv p b
    iQ := if p.varlenMode then vlOffset p b + i else i
    iK := if p.varlenMode then vlOffset p b else 0
    qRow := rowIndex p b hq i * p.headDim
    kBase := keyIndex p b (hq.tdiv p.gqa) 0 * p.headDim
    vBase := keyIndex p b (hq.tdiv p.gqa) 0 * p.headDim
    oRow := rowIndex p b hq i * p.headDim
    lseIdx := rowIndex p b hq i }

/-- The thread of a row. -/
def thread (p : FmhaParams) (b hq i : ℤ) : ℤ := (b * p.qHeads + hq) * p.seqLen + i

include hp hw

omit hw in
/-- The head and batch strides of one tensor of `H` heads of `S` rows, in elements. -/
lemma halfStride {H S : ℤ} (hS : 0 ≤ S) (hH : 0 < H) (h : H * S * p.headDim < 2147483648) :
    toUint32 (S * toUint32 (toInt (p.headDim * 2))) / 2 = S * p.headDim ∧
      toUint32 (H * toUint32 (S * toUint32 (toInt (p.headDim * 2)))) / 2 = H * S * p.headDim := by
  have hD := hp.headDim_pos
  have hrow : S * p.headDim ≤ H * S * p.headDim := by
    rw [mul_assoc]
    exact le_mul_of_one_le_left (by positivity) hH
  have h1 : S * (p.headDim * 2) = S * p.headDim * 2 := by ring
  have h2 : H * (S * (p.headDim * 2)) = H * S * p.headDim * 2 := by ring
  rw [toUint32_toInt, toUint32_mul, toUint32_mul, h1, ← h1, h2, h1]
  exact ⟨half_toUint32 (by positivity) (by omega), half_toUint32 (by positivity) h⟩

/-- The head and batch strides of Q and O, and of K and V. -/
lemma halfStrides :
    p.buffers.strideQHead / 2
        = (if p.varlenMode then p.varlenSeqs.sum else p.seqLen) * p.headDim ∧
      p.buffers.strideQBatch / 2 = (if p.varlenMode then 0 else p.qHeads * p.seqLen) * p.headDim ∧
      p.buffers.strideKHead / 2
        = (if p.varlenMode then p.varlenSeqs.sum else p.kvSeqLen) * p.headDim ∧
      p.buffers.strideKBatch / 2
        = (if p.varlenMode then 0 else p.kvHeads * p.kvSeqLen) * p.headDim := by
  cases hv : p.varlenMode
  · obtain ⟨-, hS, hK⟩ := hp.dense hv
    obtain ⟨hq1, hq2⟩ := halfStride hp hS.le hp.qHeads_pos (hw.qStride hv)
    obtain ⟨hk1, hk2⟩ := halfStride hp hK.le hp.kvHeads_pos (hw.kStride hv)
    unfold FmhaParams.buffers
    simp only [hv, hp.hdim, Bool.false_eq_true, if_false]
    exact ⟨hq1, hq2, hk1, hk2⟩
  · obtain ⟨hs0, -⟩ := sum_lt hp hw hv
    have htot := total_eq hp hw hv
    have hsum := (halfStride hp hs0 one_pos (by rw [one_mul]; exact hw.packed hv)).1
    unfold FmhaParams.buffers at htot ⊢
    simp only [hv, hp.hdim, if_true] at htot ⊢
    rw [htot, zero_mul]
    exact ⟨hsum, rfl, hsum, rfl⟩

omit hw in
/-- A thread knows its row. -/
lemma decode {b hq i : ℤ} (hb : 0 ≤ b) (hh : 0 ≤ hq) (hhH : hq < p.qHeads) (hi : 0 ≤ i)
    (hiS : i < p.seqLen) :
    (thread p b hq i).tdiv (p.qHeads * p.seqLen) = b ∧
      ((thread p b hq i).tdiv p.seqLen).tmod p.qHeads = hq ∧
      (thread p b hq i).tmod p.seqLen = i := by
  have hH := hp.qHeads_pos
  have hS : 0 ≤ p.seqLen := hi.trans hiS.le
  have hrow : 0 ≤ b * p.qHeads + hq := by positivity
  have ht : 0 ≤ thread p b hq i := by
    unfold thread
    positivity
  rw [Int.tdiv_eq_ediv_of_nonneg ht, Int.tdiv_eq_ediv_of_nonneg ht, Int.tmod_eq_emod_of_nonneg ht]
  unfold thread
  refine ⟨?_, ?_, ?_⟩
  · rw [show (b * p.qHeads + hq) * p.seqLen + i = b * (p.qHeads * p.seqLen) + (hq * p.seqLen + i) by
      ring]
    exact radix_div b (by positivity) (radix_lt hi hiS hhH)
  · rw [radix_div _ hi hiS, Int.tmod_eq_emod_of_nonneg hrow, add_comm, Int.add_mul_emod_self_right]
    exact Int.emod_eq_of_lt hh hhH
  · rw [add_comm, Int.add_mul_emod_self_right]
    exact Int.emod_eq_of_lt hi hiS

lemma rowPlace_eq (hc : Checked p b hq i) :
    rowPlace (p.gpuRefParams hQ hK hV : GpuRefParams α β) (thread p b hq i)
      = some (place p b hq i) := by
  obtain ⟨h1, h2, h3⟩ := decode hp hc.b_nonneg hc.hq_nonneg hc.hq_lt hc.i_nonneg (hc.seqLen hp)
  have hlt : ¬ p.batch * p.qHeads * p.seqLen ≤ thread p b hq i := by
    have := radix_lt hc.i_nonneg (hc.seqLen hp) (radix_lt hc.hq_nonneg hc.hq_lt hc.b_lt)
    exact not_le.mpr this
  obtain ⟨s1, s2, s3, s4⟩ := halfStrides hp hw
  have hD := hp.headDim_pos
  unfold rowPlace FmhaParams.gpuRefParams
  simp only [h1, h2, h3, hlt, if_false, hp.hdim, s1, s2, s3, s4]
  cases hv : p.varlenMode
  · have hseq : p.buffers.seqstart = none := by
      unfold FmhaParams.buffers
      simp only [hv, Bool.false_eq_true, if_false]
    simp only [hseq, place, rowIndex, keyIndex, getSq, getSkv, hv, Bool.false_eq_true, if_false,
      Int.mul_tdiv_cancel _ hD.ne']
    congr 2 <;> ring
  · have hseq : p.buffers.seqstart = some (vlOffset p) := by
      unfold FmhaParams.buffers
      simp only [hv, if_true]
      rfl
    have hlen : vlOffset p (b + 1) - vlOffset p b = getSq p b := by
      rw [vlOffset_succ hp hw hv hc.b_nonneg]
      ring
    have hk : getSkv p b = getSq p b := by
      unfold getSkv getSq
      rw [if_pos hv, if_pos hv]
    simp only [hseq, Option.getD_some, hlen, not_le.mpr hc.i_lt, if_false, place, rowIndex, keyIndex,
      hv, if_true, Int.mul_tdiv_cancel _ hD.ne', hk]
    congr 2 <;> simp <;> ring

omit hw in
/-- Every thread below the row count has a row. -/
lemma exists_thread {tid : ℤ} (h0 : 0 ≤ tid) (h : tid < p.batch * p.qHeads * p.seqLen)
    (hS : 0 < p.seqLen) : ∃ b hq i, 0 ≤ b ∧ b < p.batch ∧ 0 ≤ hq ∧ hq < p.qHeads ∧ 0 ≤ i ∧
      i < p.seqLen ∧ tid = thread p b hq i := by
  have hH := hp.qHeads_pos
  have hi := Int.emod_add_mul_ediv tid p.seqLen
  have hh := Int.emod_add_mul_ediv (tid / p.seqLen) p.qHeads
  refine ⟨tid / p.seqLen / p.qHeads, tid / p.seqLen % p.qHeads, tid % p.seqLen, ?_, ?_,
    Int.emod_nonneg _ hH.ne', Int.emod_lt_of_pos _ hH, Int.emod_nonneg _ hS.ne',
    Int.emod_lt_of_pos _ hS, ?_⟩
  · exact Int.ediv_nonneg (Int.ediv_nonneg h0 hS.le) hH.le
  · exact Int.ediv_lt_of_lt_mul hH (Int.ediv_lt_of_lt_mul hS h)
  · unfold thread
    rw [mul_comm (tid / p.seqLen / p.qHeads), add_comm (p.qHeads * _), hh, mul_comm]
    omega

/-- A thread past the end of its sequence returns. -/
lemma rowPlace_none {tid : ℤ} (h0 : 0 ≤ tid)
    (h : ¬ ∃ b hq i, Checked p b hq i ∧ tid = thread p b hq i) :
    rowPlace (p.gpuRefParams hQ hK hV : GpuRefParams α β) tid = none := by
  rcases le_or_gt (p.batch * p.qHeads * p.seqLen) tid with hge | hlt
  · unfold rowPlace FmhaParams.gpuRefParams
    exact if_pos hge
  have hH := hp.qHeads_pos
  cases hv : p.varlenMode
  · -- a dense row is checked
    obtain ⟨-, hS, -⟩ := hp.dense hv
    obtain ⟨b, hq, i, hb, hbB, hh, hhH, hi, hiS, rfl⟩ := exists_thread hp h0 hlt hS
    refine absurd ⟨b, hq, i, ⟨hb, hbB, hh, hhH, hi, ?_⟩, rfl⟩ h
    unfold getSq
    rwa [hv, if_neg Bool.false_ne_true]
  · have hB : 0 ≤ p.batch := by
      rw [hp.batch_eq hv]
      exact Int.natCast_nonneg _
    have hS : 0 < p.seqLen := by
      by_contra hc
      have : p.batch * p.qHeads * p.seqLen ≤ 0 :=
        mul_nonpos_of_nonneg_of_nonpos (mul_nonneg hB hH.le) (not_lt.mp hc)
      omega
    obtain ⟨b, hq, i, hb, hbB, hh, hhH, hi, hiS, rfl⟩ := exists_thread hp h0 hlt hS
    obtain ⟨h1, -, h3⟩ := decode hp hb hh hhH hi hiS
    have hseq : p.buffers.seqstart = some (vlOffset p) := by
      unfold FmhaParams.buffers
      simp only [hv, if_true]
      rfl
    have hlen : vlOffset p (b + 1) - vlOffset p b ≤ i := by
      rw [vlOffset_succ hp hw hv hb]
      by_contra hc
      exact h ⟨b, hq, i, ⟨hb, hbB, hh, hhH, hi, by omega⟩, rfl⟩
    unfold rowPlace FmhaParams.gpuRefParams
    simp only [not_le.mpr hlt, if_false, h1, h3, hseq, hlen, if_true]

end Threads

/-! ### The written rows -/

section Written

variable {p : FmhaParams} (hp : WellFormed p) (hw : NoOverflow p)
variable {α β : Type*} [Fp α] [Zero β] (bf : Bf16 α β) (hQ hK hV : Mem β)

/-- What the reference kernel writes for column `d` of a row. -/
def oCell (p : FmhaParams) (b hq i : ℤ) (d : ℕ) : β :=
  bf.ofFloat (oAcc bf (getSkv p b).toNat
    (GpuRef.score bf (p.gpuRefParams hQ hK hV) (place p b hq i))
    (fun j d => bf.toFloat (hV ((place p b hq i).vBase + (j * p.headDim + d)))) d)

include hp hw

variable {b hq i : ℤ}

/-- **The thread of a checked row**: it writes the row, unless the row is too long for its
accumulator. -/
lemma gpuRefFmhaKernel_eq (hc : Checked p b hq i) :
    gpuRefFmhaKernel bf (p.gpuRefParams hQ hK hV) (thread p b hq i)
      = if 256 < p.headDim then .outOfBounds
        else .wrote
          { o := (List.range p.headDim.toNat).map fun d : ℕ =>
              (rowIndex p b hq i * p.headDim + d, oCell bf hQ hK hV p b hq i d)
            lse := if p.lse ≠ 0 then some (rowIndex p b hq i,
                lseVal (getSkv p b).toNat
                  (GpuRef.score bf (p.gpuRefParams hQ hK hV) (place p b hq i)))
              else none } := by
  unfold gpuRefFmhaKernel
  rw [rowPlace_eq hp hw hQ hK hV hc]
  unfold oCell
  simp only [FmhaParams.gpuRefParams, hp.hdim, decide_eq_true_eq]
  rfl

omit hw [Zero β] in
lemma mem_gridThreads (hc : Checked p b hq i) :
    ∃ tid : ℕ, tid ∈ gridThreads (p.gpuRefParams hQ hK hV : GpuRefParams α β) ∧
      (tid : ℤ) = thread p b hq i := by
  have hlt := radix_lt hc.i_nonneg (hc.seqLen hp) (radix_lt hc.hq_nonneg hc.hq_lt hc.b_lt)
  have h0 : 0 ≤ thread p b hq i := by
    have := hc.b_nonneg
    have := hc.hq_nonneg
    have := hc.i_nonneg
    have := hp.qHeads_pos.le
    have := hc.seqLen hp
    unfold thread
    have : 0 ≤ p.seqLen := by omega
    positivity
  refine ⟨(thread p b hq i).toNat, ?_, Int.toNat_of_nonneg h0⟩
  have hlt' : thread p b hq i < p.batch * p.qHeads * p.seqLen := hlt
  unfold gridThreads FmhaParams.gpuRefParams
  rw [List.mem_range]
  simp only
  rw [Int.tdiv_eq_ediv_of_nonneg (by omega)]
  omega

lemma gpuRefFmhaKernel_returned {tid : ℤ} (h0 : 0 ≤ tid)
    (h : ¬ ∃ b hq i, Checked p b hq i ∧ tid = thread p b hq i) :
    gpuRefFmhaKernel bf (p.gpuRefParams hQ hK hV) tid = .returned := by
  have hnone : rowPlace (p.gpuRefParams hQ hK hV : GpuRefParams α β) tid = none :=
    rowPlace_none hp hw hQ hK hV h0 h
  unfold gpuRefFmhaKernel
  rw [hnone]

/-- The O stores of the launch are those of the checked rows. -/
lemma mem_gpuRefFmhaFwd (hD : p.headDim ≤ 256) {w : ℤ × β} :
    w ∈ gpuRefFmhaFwd bf (p.gpuRefParams hQ hK hV) ↔ ∃ b hq i, ∃ d : ℕ, Checked p b hq i ∧
      (d : ℤ) < p.headDim ∧
      w = (rowIndex p b hq i * p.headDim + d, oCell bf hQ hK hV p b hq i d) := by
  have hrow : ∀ {b hq i}, Checked p b hq i →
      (gpuRefFmhaKernel bf (p.gpuRefParams hQ hK hV) (thread p b hq i)).oStores
        = (List.range p.headDim.toNat).map fun d : ℕ =>
            (rowIndex p b hq i * p.headDim + d, oCell bf hQ hK hV p b hq i d) := by
    intro b hq i hc
    rw [gpuRefFmhaKernel_eq hp hw bf hQ hK hV hc, if_neg (not_lt.mpr hD)]
    rfl
  unfold gpuRefFmhaFwd
  rw [List.mem_flatMap]
  constructor
  · rintro ⟨tid, -, hmem⟩
    by_cases hchk : ∃ b hq i, Checked p b hq i ∧ (tid : ℤ) = thread p b hq i
    · obtain ⟨b, hq, i, hc, ht⟩ := hchk
      rw [ht, hrow hc] at hmem
      obtain ⟨d, hd, rfl⟩ := List.mem_map.mp hmem
      exact ⟨b, hq, i, d, hc, Int.lt_toNat.mp (List.mem_range.mp hd), rfl⟩
    · rw [gpuRefFmhaKernel_returned hp hw bf hQ hK hV (Int.natCast_nonneg tid) hchk] at hmem
      exact absurd hmem List.not_mem_nil
  · rintro ⟨b, hq, i, d, hc, hd, rfl⟩
    obtain ⟨tid, htid, ht⟩ : ∃ tid : ℕ, tid ∈ gridThreads (p.gpuRefParams hQ hK hV :
        GpuRefParams α β) ∧ (tid : ℤ) = thread p b hq i := mem_gridThreads hp hQ hK hV hc
    refine ⟨tid, htid, ?_⟩
    rw [ht, hrow hc]
    exact List.mem_map.mpr ⟨d, List.mem_range.mpr (Int.lt_toNat.mpr hd), rfl⟩

/-- The memory after the launch, in any order of the stores. -/
lemma stores_gpuRefFmhaFwd (hD : p.headDim ≤ 256) (hc : Checked p b hq i) {d : ℕ}
    (hd : (d : ℤ) < p.headDim) (m : Mem β) {ws : List (ℤ × β)}
    (hws : ws.Perm (gpuRefFmhaFwd bf (p.gpuRefParams hQ hK hV))) :
    stores m ws (rowIndex p b hq i * p.headDim + d) = oCell bf hQ hK hV p b hq i d := by
  have hmem : ∀ w, w ∈ ws ↔ w ∈ gpuRefFmhaFwd bf (p.gpuRefParams hQ hK hV) := fun w => hws.mem_iff
  refine stores_of_mem ((hmem _).mpr ((mem_gpuRefFmhaFwd hp hw bf hQ hK hV hD).mpr
    ⟨b, hq, i, d, hc, hd, rfl⟩)) fun v hv => ?_
  obtain ⟨b', hq', i', d', hc', hd', he⟩ :=
    (mem_gpuRefFmhaFwd hp hw bf hQ hK hV hD).mp ((hmem _).mp hv)
  obtain ⟨ha, rfl⟩ := Prod.mk.inj he
  obtain ⟨hrow, hcol⟩ := radix_inj (Int.natCast_nonneg d) hd (Int.natCast_nonneg d') hd' ha
  obtain ⟨rfl, rfl, rfl⟩ := rowIndex_inj hp hw hc hc' hrow
  rw [Int.ofNat_inj.mp hcol]

end Written

end FmhaNative.Oracles
