import FmhaNative.HostAdmission
import FmhaNative.OracleAgreement

/-!
The launch of the reference kernel on the buffers of the host: what each thread indexes, that all
of it is allocated, and that the threads together write every element of O and of LSE once.

A repeated use of an index is not listed again.
-/

namespace FmhaNative.RefLaunch

open Host GpuRef Oracles Indexing Loops
open CpuRef (getSq getSkv vlOffset)
open XReal (fin exact)
open HostAdmission (allocElems)

/-! ### The accesses -/

/-- The device buffers, and `O_acc[256]` of the thread. -/
inductive Arr
  | q
  | k
  | v
  | o
  | lse
  | seqstartQ
  | seqstartK
  | oAcc

structure Access where
  arr : Arr
  index : ℤ

/-- `sz_LSE` -/
def szLse (p : FmhaParams) : ℤ := toSizeT (p.rowCount p.qHeads p.seqLen)

/-- The elements that are allocated. -/
def Arr.size (p : FmhaParams) : Arr → ℤ
  | .q => allocElems p.buffers.szQ
  | .k => allocElems p.buffers.szK
  | .v => allocElems p.buffers.szV
  | .o => allocElems p.buffers.szO
  | .lse => toSizeT (szLse p * 4) / 4
  | .seqstartQ | .seqstartK =>
    if p.varlenMode then toSizeT (toInt ((p.varlenSeqs.length + 1) * 4)) / 4 else 0
  | .oAcc => 256

section Accesses

variable {α β : Type*} (p : GpuRefParams α β)

/-- The tables are read before a thread knows whether it has a row. -/
def tableAccesses (tid : ℤ) : List Access :=
  if p.batch * p.qHeads * p.seqLen ≤ tid then []
  else
    match p.dSeqstartQ with
    | none => []
    | some seqstartQ =>
      let b := tid.tdiv (p.qHeads * p.seqLen)
      [⟨.seqstartQ, b⟩, ⟨.seqstartQ, b + 1⟩] ++
        if seqstartQ (b + 1) - seqstartQ b ≤ tid.tmod p.seqLen then []
        else [⟨.seqstartK, b⟩, ⟨.seqstartK, b + 1⟩]

/-- The score of a key, in each of the three passes. -/
def scoreAccesses (r : RowPlace) (j : ℕ) : List Access :=
  (List.range p.headDim.toNat).flatMap fun d : ℕ =>
    [⟨.q, r.qRow + d⟩, ⟨.k, r.kBase + (j * p.strideKSeq + d)⟩]

def valueAccesses (r : RowPlace) (j : ℕ) : List Access :=
  (List.range p.headDim.toNat).flatMap fun d : ℕ =>
    [⟨.v, r.vBase + (j * p.strideVSeq + d)⟩, ⟨.oAcc, d⟩]

def storeAccesses (r : RowPlace) : List Access :=
  (List.range p.headDim.toNat).flatMap fun d : ℕ => [⟨.oAcc, d⟩, ⟨.o, r.oRow + d⟩]

def rowAccesses (r : RowPlace) : List Access :=
  (List.range r.skvB.toNat).flatMap (fun j => scoreAccesses p r j ++ valueAccesses p r j) ++
    storeAccesses p r ++ if p.dLSE then [⟨.lse, r.lseIdx⟩] else []

/-- What a thread indexes. -/
def accesses (tid : ℤ) : List Access :=
  tableAccesses p tid ++ (rowPlace p tid).elim [] (rowAccesses p)

/-- An argument block that differs only in what the tensors and the tables hold elsewhere. -/
structure SameData (l : List Access) (p p' : GpuRefParams α β) : Prop where
  args : p' = { p with
    dQ := p'.dQ, dK := p'.dK, dV := p'.dV, dSeqstartQ := p'.dSeqstartQ, dSeqstartK := p'.dSeqstartK }
  null : p'.dSeqstartQ = none ↔ p.dSeqstartQ = none
  q : ∀ e, ⟨.q, e⟩ ∈ l → p'.dQ e = p.dQ e
  k : ∀ e, ⟨.k, e⟩ ∈ l → p'.dK e = p.dK e
  v : ∀ e, ⟨.v, e⟩ ∈ l → p'.dV e = p.dV e
  seqstartQ : ∀ t ∈ p.dSeqstartQ, ∀ t' ∈ p'.dSeqstartQ, ∀ e, ⟨.seqstartQ, e⟩ ∈ l → t' e = t e
  seqstartK : ∀ e, ⟨.seqstartK, e⟩ ∈ l → p'.dSeqstartK e = p.dSeqstartK e

end Accesses

/-! ### The footprint of a thread -/

section Footprint

variable {α β : Type*} {p p' : GpuRefParams α β} {tid : ℤ} {r : RowPlace} {j d : ℕ}

lemma mem_qAccess (hj : j < r.skvB.toNat) (hd : d < p.headDim.toNat) :
    ⟨.q, r.qRow + d⟩ ∈ rowAccesses p r := by
  refine List.mem_append_left _ (List.mem_append_left _ ?_)
  refine List.mem_flatMap.mpr ⟨j, List.mem_range.mpr hj, List.mem_append_left _ ?_⟩
  exact List.mem_flatMap.mpr ⟨d, List.mem_range.mpr hd, List.mem_cons_self⟩

lemma mem_kAccess (hj : j < r.skvB.toNat) (hd : d < p.headDim.toNat) :
    ⟨.k, r.kBase + (j * p.strideKSeq + d)⟩ ∈ rowAccesses p r := by
  refine List.mem_append_left _ (List.mem_append_left _ ?_)
  refine List.mem_flatMap.mpr ⟨j, List.mem_range.mpr hj, List.mem_append_left _ ?_⟩
  exact List.mem_flatMap.mpr ⟨d, List.mem_range.mpr hd, List.mem_cons_of_mem _ List.mem_cons_self⟩

lemma mem_vAccess (hj : j < r.skvB.toNat) (hd : d < p.headDim.toNat) :
    ⟨.v, r.vBase + (j * p.strideVSeq + d)⟩ ∈ rowAccesses p r := by
  refine List.mem_append_left _ (List.mem_append_left _ ?_)
  refine List.mem_flatMap.mpr ⟨j, List.mem_range.mpr hj, List.mem_append_right _ ?_⟩
  exact List.mem_flatMap.mpr ⟨d, List.mem_range.mpr hd, List.mem_cons_self⟩

lemma mem_oAccess (hd : d < p.headDim.toNat) : ⟨.o, r.oRow + d⟩ ∈ rowAccesses p r := by
  refine List.mem_append_left _ (List.mem_append_right _ ?_)
  exact List.mem_flatMap.mpr ⟨d, List.mem_range.mpr hd, List.mem_cons_of_mem _ List.mem_cons_self⟩

/-- The decoding reads only the entries of the tables that are listed. -/
lemma rowPlace_footprint (h : SameData (tableAccesses p tid) p p') :
    rowPlace p' tid = rowPlace p tid := by
  obtain ⟨hargs, hnull, -, -, -, hQ, hK⟩ := h
  rw [hargs]
  unfold tableAccesses at hQ hK
  unfold rowPlace
  simp only
  by_cases htid : p.batch * p.qHeads * p.seqLen ≤ tid
  · rw [if_pos htid, if_pos htid]
  rw [if_neg htid, if_neg htid]
  rw [if_neg htid] at hQ hK
  cases ht : p.dSeqstartQ with
  | none => rw [hnull.mpr ht]
  | some t =>
    obtain ⟨t', ht'⟩ : ∃ t', p'.dSeqstartQ = some t' :=
      Option.ne_none_iff_exists'.mp fun hc => by simp [hnull.mp hc] at ht
    rw [ht] at hQ hK
    have h0 := hQ t rfl t' ht' _ (List.mem_append_left _ List.mem_cons_self)
    have h1 := hQ t rfl t' ht' _
      (List.mem_append_left _ (List.mem_cons_of_mem _ List.mem_cons_self))
    rw [ht']
    simp only [h0, h1]
    split_ifs with hlen
    · rfl
    · -- the entries of the key table are read past the early exit
      have k0 := hK (tid.tdiv (p.qHeads * p.seqLen)) (List.mem_append_right _
        (by rw [if_neg hlen]; exact List.mem_cons_self))
      have k1 := hK (tid.tdiv (p.qHeads * p.seqLen) + 1) (List.mem_append_right _
        (by rw [if_neg hlen]; exact List.mem_cons_of_mem _ List.mem_cons_self))
      rw [k0, k1]

variable [Fp α]

lemma maxS_congr {n : ℕ} {s s' : ℕ → α} (h : ∀ j < n, s j = s' j) : maxS n s = maxS n s' := by
  unfold maxS
  refine List.foldl_ext _ _ _ fun m j hj => ?_
  rw [h j (List.mem_range.mp hj)]

lemma sumExp_congr {n : ℕ} {s s' : ℕ → α} (h : ∀ j < n, s j = s' j) :
    sumExp n s = sumExp n s' := by
  unfold sumExp
  refine sumLoop_congr fun j hj => ?_
  rw [expS, expS, h j hj, maxS_congr h]

lemma lseVal_congr {n : ℕ} {s s' : ℕ → α} (h : ∀ j < n, s j = s' j) :
    lseVal n s = lseVal n s' := by
  rw [lseVal, lseVal, sumExp_congr h, maxS_congr h]

variable [Zero β]

lemma pTrunc_congr (bf : Bf16 α β) {n : ℕ} {s s' : ℕ → α} (h : ∀ j < n, s j = s' j) {j : ℕ}
    (hj : j < n) : pTrunc bf n s j = pTrunc bf n s' j := by
  rw [pTrunc, pTrunc, expS, expS, invSum, invSum, h j hj, maxS_congr h, sumExp_congr h]

lemma oAcc_congr (bf : Bf16 α β) {n : ℕ} {s s' : ℕ → α} {v v' : ℕ → ℕ → α}
    (h : ∀ j < n, s j = s' j) {d : ℕ} (hv : ∀ j < n, v j d = v' j d) :
    oAcc bf n s v d = oAcc bf n s' v' d := by
  rw [oAcc_eq, oAcc_eq]
  refine Finset.sum_congr rfl fun j hj => ?_
  have hj := Finset.mem_range.mp hj
  rw [pTrunc_congr bf h hj, hv j hj]

/-- **The footprint of a thread**: what it does depends on the listed elements only. -/
lemma kernel_footprint (bf : Bf16 α β) (h : SameData (accesses p tid) p p') :
    gpuRefFmhaKernel bf p' tid = gpuRefFmhaKernel bf p tid := by
  have hplace : rowPlace p' tid = rowPlace p tid := rowPlace_footprint
    { args := h.args, null := h.null
      q := fun e he => h.q e (List.mem_append_left _ he)
      k := fun e he => h.k e (List.mem_append_left _ he)
      v := fun e he => h.v e (List.mem_append_left _ he)
      seqstartQ := fun t ht t' ht' e he => h.seqstartQ t ht t' ht' e (List.mem_append_left _ he)
      seqstartK := fun e he => h.seqstartK e (List.mem_append_left _ he) }
  obtain ⟨hargs, -, hQ, hK, hV, -, -⟩ := h
  unfold gpuRefFmhaKernel
  rw [hplace]
  unfold accesses at hQ hK hV
  cases hr : rowPlace p tid with
  | none => rfl
  | some r =>
    rw [hr] at hQ hK hV
    have hhead : p'.headDim = p.headDim := by rw [hargs]
    have hlse : p'.dLSE = p.dLSE := by rw [hargs]
    have hstrideK : p'.strideKSeq = p.strideKSeq := by rw [hargs]
    have hstrideV : p'.strideVSeq = p.strideVSeq := by rw [hargs]
    have hscalar : p'.scalar = p.scalar := by rw [hargs]
    have hmask : p'.mask = p.mask := by rw [hargs]
    have hscore : ∀ j < r.skvB.toNat, score bf p' r j = score bf p r j := by
      intro j hj
      unfold score
      rw [hhead, hstrideK, hscalar, hmask]
      have hdot : ∀ d < p.headDim.toNat,
          bf.toFloat (p'.dQ (r.qRow + d)) * bf.toFloat (p'.dK (r.kBase + (j * p.strideKSeq + d)))
            = bf.toFloat (p.dQ (r.qRow + d)) * bf.toFloat (p.dK (r.kBase + (j * p.strideKSeq + d))) := by
        intro d hd
        rw [hQ _ (List.mem_append_right _ (mem_qAccess hj hd)),
          hK _ (List.mem_append_right _ (mem_kAccess hj hd))]
      rw [sumLoop_congr hdot]
    simp only [hhead, hlse, hstrideV, lseVal_congr hscore]
    by_cases hwide : 256 < p.headDim
    · rw [if_pos hwide, if_pos hwide]
    · rw [if_neg hwide, if_neg hwide]
      congr 2
      refine List.map_congr_left fun d hd => ?_
      have hd := List.mem_range.mp hd
      rw [oAcc_congr bf hscore fun j hj => ?_]
      rw [hV _ (List.mem_append_right _ (mem_vAccess hj hd))]

end Footprint

/-! ### The rows of the tensors -/

section Rows

variable {p : FmhaParams} (hp : WellFormed p) (hw : NoOverflow p)
include hp hw

lemma rowCount_eq (heads rows : ℤ) : p.rowCount heads rows
    = if p.varlenMode then heads * p.varlenSeqs.sum else p.batch * heads * rows := by
  unfold FmhaParams.rowCount
  cases hv : p.varlenMode
  · rfl
  · rw [if_pos rfl, if_pos rfl, total_eq hp hw hv]

variable {b hq i : ℤ}

lemma rowIndex_lt (hc : Checked p b hq i) : rowIndex p b hq i < p.rowCount p.qHeads p.seqLen := by
  rw [rowCount_eq hp hw]
  unfold rowIndex
  cases hv : p.varlenMode
  · exact radix_lt hc.i_nonneg (hc.seqLen hp) (radix_lt hc.hq_nonneg hc.hq_lt hc.b_lt)
  · obtain ⟨hr0, hrT⟩ := packedRow_mem hp hw hv hc.b_nonneg hc.b_lt hc.i_nonneg hc.i_lt
    exact radix_lt hr0 hrT hc.hq_lt

/-- Every row of Q and O is checked by the CPU oracle. -/
lemma exists_checked {r : ℤ} (h0 : 0 ≤ r) (h : r < p.rowCount p.qHeads p.seqLen) :
    ∃ b hq i, Checked p b hq i ∧ rowIndex p b hq i = r := by
  have hH := hp.qHeads_pos
  rw [rowCount_eq hp hw] at h
  cases hv : p.varlenMode
  · rw [hv, if_neg Bool.false_ne_true] at h
    obtain ⟨-, hS, -⟩ := hp.dense hv
    obtain ⟨b, hq, i, hb, hbB, hh, hhH, hi, hiS, rfl⟩ := exists_thread hp h0 h hS
    refine ⟨b, hq, i, ⟨hb, hbB, hh, hhH, hi, ?_⟩, ?_⟩
    · rwa [getSq, hv, if_neg Bool.false_ne_true]
    · rw [rowIndex, hv, if_neg Bool.false_ne_true, thread]
  · rw [hv, if_pos rfl] at h
    have hT : 0 < p.varlenSeqs.sum := by
      by_contra hc
      have := mul_nonpos_of_nonneg_of_nonpos hH.le (not_lt.mp hc)
      omega
    have hpos := Int.emod_nonneg r hT.ne'
    have hB : 0 ≤ p.batch := by
      rw [hp.batch_eq hv]
      exact Int.natCast_nonneg _
    have hstart : vlOffset p 0 = 0 := vlOffset_eq hp hw hv 0
    have hend : r % p.varlenSeqs.sum < vlOffset p p.batch := by
      rw [vlOffset_batch hp hw hv]
      exact Int.emod_lt_of_pos r hT
    obtain ⟨b, hb, hbB, hle, hlt⟩ := exists_slot (vlOffset p) hB (hstart.symm ▸ hpos) hend
    have hlen := vlOffset_succ hp hw hv hb
    refine ⟨b, r / p.varlenSeqs.sum, r % p.varlenSeqs.sum - vlOffset p b,
      ⟨hb, hbB, Int.ediv_nonneg h0 hT.le, Int.ediv_lt_of_lt_mul hT h, by omega, by omega⟩, ?_⟩
    rw [rowIndex, hv, if_pos rfl, mul_comm, add_sub_cancel]
    exact Int.mul_ediv_add_emod r _

/-- The size of a tensor of the heads of Q. -/
lemma rowCount_mul_lt : 0 ≤ p.rowCount p.qHeads p.seqLen ∧
    p.rowCount p.qHeads p.seqLen * p.headDim < 4611686018427387904 := by
  rcases le_or_gt (p.rowCount p.qHeads p.seqLen) 0 with hle | hpos
  · refine ⟨?_, by have := mul_nonpos_of_nonpos_of_nonneg hle hp.headDim_pos.le; omega⟩
    rw [rowCount_eq hp hw]
    cases hv : p.varlenMode
    · obtain ⟨hB, hS, -⟩ := hp.dense hv
      exact mul_nonneg (mul_nonneg hB.le hp.qHeads_pos.le) hS.le
    · exact mul_nonneg hp.qHeads_pos.le (sum_lt hp hw hv).1
  · refine ⟨hpos.le, ?_⟩
    obtain ⟨b, hq, i, hc, -⟩ := exists_checked hp hw le_rfl hpos
    obtain ⟨hB, hH, -, -⟩ := hc.dims hp hw
    have hD := hp.headDim_pos
    rw [rowCount_eq hp hw]
    cases hv : p.varlenMode
    · exact (denseElem_mem hB hc.b_nonneg hc.b_lt hc.hq_nonneg hc.hq_lt hc.i_nonneg (hc.seqLen hp)
        le_rfl hD (hw.qStride hv)).2.2
    · obtain ⟨hr0, hrT⟩ := packedRow_mem hp hw hv hc.b_nonneg hc.b_lt hc.i_nonneg hc.i_lt
      exact (packedElem_mem hH hc.hq_nonneg hc.hq_lt hr0 hrT le_rfl hD (hw.packed hv)).2.2

omit hw hp in
/-- A small tensor is allocated whole. -/
lemma allocElems_eq {n : ℤ} (h0 : 0 ≤ n) (h : n < 4611686018427387904) :
    allocElems (toSizeT n) = n := by
  rw [allocElems, toSizeT_eq h0 (by omega), toSizeT_eq (by omega) (by omega)]
  omega

lemma size_o : Arr.o.size p = p.rowCount p.qHeads p.seqLen * p.headDim := by
  obtain ⟨h0, hlt⟩ := rowCount_mul_lt hp hw
  have hsz : p.buffers.szO = toSizeT (p.rowCount p.qHeads p.seqLen * p.hdimDispatch) := p.szQ_eq
  rw [Arr.size, hsz, hp.hdim]
  exact allocElems_eq (mul_nonneg h0 hp.headDim_pos.le) hlt

lemma size_q : Arr.q.size p = p.rowCount p.qHeads p.seqLen * p.headDim := size_o hp hw

lemma size_lse : Arr.lse.size p = p.rowCount p.qHeads p.seqLen := by
  obtain ⟨h0, hlt⟩ := rowCount_mul_lt hp hw
  have hle : p.rowCount p.qHeads p.seqLen * 1 ≤ p.rowCount p.qHeads p.seqLen * p.headDim :=
    mul_le_mul_of_nonneg_left hp.headDim_pos h0
  rw [Arr.size, szLse, toSizeT_eq h0 (by omega), toSizeT_eq (by omega) (by omega)]
  omega

/-- The size of a tensor of the heads of K, when there is a row to check. -/
lemma size_k (hc : Checked p b hq i) : Arr.k.size p = p.rowCount p.kvHeads p.kvSeqLen * p.headDim := by
  obtain ⟨hB, hH, hK, -⟩ := hc.dims hp hw
  have hD := hp.headDim_pos
  have hK0 := hp.kvHeads_pos
  rw [Arr.size, p.szK_eq, hp.hdim, rowCount_eq hp hw]
  cases hv : p.varlenMode
  · obtain ⟨-, -, hS⟩ := hp.dense hv
    obtain ⟨h0, hlt, hsz⟩ := denseElem_mem hB hc.b_nonneg hc.b_lt le_rfl hK0 le_rfl hS le_rfl hD
      (hw.kStride hv)
    exact allocElems_eq (h0.trans hlt.le) hsz
  · obtain ⟨hr0, hrT⟩ := packedRow_mem hp hw hv hc.b_nonneg hc.b_lt hc.i_nonneg hc.i_lt
    obtain ⟨h0, hlt, hsz⟩ := packedElem_mem hK le_rfl hK0 hr0 hrT le_rfl hD (hw.packed hv)
    exact allocElems_eq (h0.trans hlt.le) hsz

lemma size_v (hc : Checked p b hq i) : Arr.v.size p = p.rowCount p.kvHeads p.kvSeqLen * p.headDim :=
  size_k hp hw hc

/-- A key of a checked row lies inside K and V. -/
lemma keyIndex_mem (hc : Checked p b hq i) {hkv : ℤ} (hkv0 : 0 ≤ hkv) (hkv1 : hkv < p.kvHeads)
    {j d : ℤ} (hj0 : 0 ≤ j) (hj : j < getSkv p b) (hd0 : 0 ≤ d) (hd : d < p.headDim) :
    0 ≤ keyIndex p b hkv j * p.headDim + d ∧
      keyIndex p b hkv j * p.headDim + d < p.rowCount p.kvHeads p.kvSeqLen * p.headDim := by
  obtain ⟨hB, hH, hK, -⟩ := hc.dims hp hw
  rw [rowCount_eq hp hw]
  unfold keyIndex
  unfold getSkv at hj
  cases hv : p.varlenMode
  · rw [hv, if_neg Bool.false_ne_true] at hj
    obtain ⟨h0, hlt, -⟩ := denseElem_mem hB hc.b_nonneg hc.b_lt hkv0 hkv1 hj0 hj hd0 hd
      (hw.kStride hv)
    exact ⟨h0, hlt⟩
  · rw [hv, if_pos rfl] at hj
    have hj' : j < getSq p b := by rwa [getSq, hv, if_pos rfl]
    obtain ⟨hr0, hrT⟩ := packedRow_mem hp hw hv hc.b_nonneg hc.b_lt hj0 hj'
    obtain ⟨h0, hlt, -⟩ := packedElem_mem hK hkv0 hkv1 hr0 hrT hd0 hd (hw.packed hv)
    exact ⟨h0, hlt⟩

end Rows

/-! ### Inside the buffers -/

def InBounds (p : FmhaParams) (l : List Access) : Prop :=
  ∀ a ∈ l, 0 ≤ a.index ∧ a.index < a.arr.size p

section Bounds

variable {p : FmhaParams} (hp : WellFormed p) (hw : NoOverflow p) {b hq i : ℤ}
variable {α β : Type*} [Fp α] (hQ hK hV : Mem β)
include hp

lemma varlen_dims {tid : ℤ} (h0 : 0 ≤ tid) (h : tid < p.batch * p.qHeads * p.seqLen)
    (hv : p.varlenMode = true) : 0 < p.seqLen := by
  have hB : 0 ≤ p.batch := by
    rw [hp.batch_eq hv]
    exact Int.natCast_nonneg _
  by_contra hc
  have := mul_nonpos_of_nonneg_of_nonpos (mul_nonneg hB hp.qHeads_pos.le) (not_lt.mp hc)
  omega

lemma tableAccesses_inBounds (hcount : ((p.varlenSeqs.length : ℤ) + 1) * 4 < 2147483648) {tid : ℤ}
    (h0 : 0 ≤ tid) :
    InBounds p (tableAccesses (p.gpuRefParams hQ hK hV : GpuRefParams α β) tid) := by
  unfold tableAccesses FmhaParams.gpuRefParams
  simp only
  by_cases htid : p.batch * p.qHeads * p.seqLen ≤ tid
  · rw [if_pos htid]
    exact fun a ha => nomatch ha
  rw [if_neg htid]
  cases hv : p.varlenMode
  · have hseq : p.buffers.seqstart = none := by
      unfold FmhaParams.buffers
      simp only [hv, Bool.false_eq_true, if_false]
    rw [hseq]
    exact fun a ha => nomatch ha
  · have hseq : p.buffers.seqstart = some (vlOffset p) := by
      unfold FmhaParams.buffers
      simp only [hv, if_true]
      rfl
    obtain ⟨b, hq, i, hb, hbB, hh, hhH, hi, hiS, rfl⟩ :=
      exists_thread hp h0 (not_le.mp htid) (varlen_dims hp h0 (not_le.mp htid) hv)
    obtain ⟨hdec, -, -⟩ := decode hp hb hh hhH hi hiS
    rw [hp.batch_eq hv] at hbB
    have htable : toSizeT (toInt ((p.varlenSeqs.length + 1) * 4)) / 4
        = (p.varlenSeqs.length : ℤ) + 1 := by
      rw [toInt_eq ⟨by omega, by omega⟩, toSizeT_eq (by omega) (by omega)]
      omega
    have hsize : Arr.seqstartQ.size p = (p.varlenSeqs.length : ℤ) + 1 := by
      rw [Arr.size, hv, if_pos rfl, htable]
    have hstart : 0 ≤ b ∧ b < Arr.seqstartQ.size p := ⟨hb, by omega⟩
    have hend : 0 ≤ b + 1 ∧ b + 1 < Arr.seqstartQ.size p := ⟨by omega, by omega⟩
    intro a ha
    simp only [hseq, hdec, List.mem_append, List.mem_cons, List.not_mem_nil, or_false] at ha
    rcases ha with (rfl | rfl) | ha
    · exact hstart
    · exact hend
    · split_ifs at ha with hlen
      · exact absurd ha List.not_mem_nil
      · simp only [List.mem_cons, List.not_mem_nil, or_false] at ha
        rcases ha with rfl | rfl
        · exact hstart
        · exact hend

include hw

lemma rowAccesses_inBounds (hD : p.headDim ≤ 256) (hc : Checked p b hq i) :
    InBounds p (rowAccesses (p.gpuRefParams hQ hK hV : GpuRefParams α β) (place p b hq i)) := by
  obtain ⟨hkv0, hkv1⟩ := hp.kvHead hc.hq_nonneg hc.hq_lt
  have hrow : ∀ d < p.headDim.toNat, 0 ≤ rowIndex p b hq i * p.headDim + d ∧
      rowIndex p b hq i * p.headDim + d < Arr.o.size p := by
    intro d hd
    rw [size_o hp hw]
    obtain ⟨-, h0, -, -⟩ := rowIndex_mem hp hw hc (Int.natCast_nonneg d) (Int.lt_toNat.mp hd)
    exact ⟨h0, radix_lt (Int.natCast_nonneg d) (Int.lt_toNat.mp hd) (rowIndex_lt hp hw hc)⟩
  have hkey : ∀ j < (getSkv p b).toNat, ∀ d < p.headDim.toNat,
      0 ≤ keyIndex p b (hq.tdiv p.gqa) 0 * p.headDim + (j * p.headDim + d) ∧
        keyIndex p b (hq.tdiv p.gqa) 0 * p.headDim + (j * p.headDim + d) < Arr.k.size p := by
    intro j hj d hd
    rw [keyIndex_row, size_k hp hw hc]
    exact keyIndex_mem hp hw hc hkv0 hkv1 (Int.natCast_nonneg j) (Int.lt_toNat.mp hj)
      (Int.natCast_nonneg d) (Int.lt_toNat.mp hd)
  have hacc : ∀ d < p.headDim.toNat, 0 ≤ (d : ℤ) ∧ (d : ℤ) < Arr.oAcc.size p := by
    intro d hd
    exact ⟨Int.natCast_nonneg d, (Int.lt_toNat.mp hd).trans_le hD⟩
  have hlse : 0 ≤ rowIndex p b hq i ∧ rowIndex p b hq i < Arr.lse.size p := by
    rw [size_lse hp hw]
    exact ⟨(rowIndex_mem hp hw hc le_rfl hp.headDim_pos).1, rowIndex_lt hp hw hc⟩
  unfold rowAccesses FmhaParams.gpuRefParams place
  intro a ha
  simp only [scoreAccesses, valueAccesses, storeAccesses, hp.hdim, List.mem_append, List.mem_flatMap,
    List.mem_range, List.mem_cons, List.not_mem_nil, or_false] at ha
  rcases ha with (⟨j, hj, ⟨d, hd, rfl | rfl⟩ | ⟨d, hd, rfl | rfl⟩⟩ | ⟨d, hd, rfl | rfl⟩) | ha
  · exact hrow d hd
  · exact hkey j hj d hd
  · exact hkey j hj d hd
  · exact hacc d hd
  · exact hacc d hd
  · exact hrow d hd
  · split_ifs at ha
    · rw [List.mem_singleton.mp ha]
      exact hlse
    · exact absurd ha List.not_mem_nil

/-- A thread has the place of a checked row, or none. -/
lemma rowPlace_cases {tid : ℤ} (h0 : 0 ≤ tid) :
    rowPlace (p.gpuRefParams hQ hK hV : GpuRefParams α β) tid = none ∨
      ∃ b hq i, Checked p b hq i ∧ tid = thread p b hq i ∧
        rowPlace (p.gpuRefParams hQ hK hV : GpuRefParams α β) tid = some (place p b hq i) := by
  by_cases hchk : ∃ b hq i, Checked p b hq i ∧ tid = thread p b hq i
  · obtain ⟨b, hq, i, hc, rfl⟩ := hchk
    exact Or.inr ⟨b, hq, i, hc, rfl, rowPlace_eq hp hw hQ hK hV hc⟩
  · exact Or.inl (rowPlace_none hp hw hQ hK hV h0 hchk)

lemma accesses_inBounds (hcount : ((p.varlenSeqs.length : ℤ) + 1) * 4 < 2147483648)
    (hD : p.headDim ≤ 256) {tid : ℤ} (h0 : 0 ≤ tid) :
    InBounds p (accesses (p.gpuRefParams hQ hK hV : GpuRefParams α β) tid) := by
  have htable : InBounds p (tableAccesses (p.gpuRefParams hQ hK hV : GpuRefParams α β) tid) :=
    tableAccesses_inBounds hp hQ hK hV hcount h0
  intro a ha
  rcases List.mem_append.mp ha with ht | hrow
  · exact htable a ht
  · rcases rowPlace_cases (α := α) hp hw hQ hK hV h0 with hnone | ⟨b, hq, i, hc, -, hplace⟩
    · rw [hnone] at hrow
      exact absurd hrow List.not_mem_nil
    · rw [hplace] at hrow
      exact rowAccesses_inBounds hp hw hQ hK hV hD hc a hrow

end Bounds

/-! ### The whole tensors -/

section Written

variable {p : FmhaParams} (hp : WellFormed p) (hw : NoOverflow p) {b hq i : ℤ}
variable {α β : Type*} [Fp α] [Zero β] (bf : Bf16 α β) (hQ hK hV : Mem β)

/-- The stores to `d_LSE` of a thread. -/
def lseStores : Outcome (RefStores α β) → List (ℤ × α)
  | .wrote s => s.lse.toList
  | _ => []

/-- The stores to `d_LSE` of the launch. -/
def gpuRefLse (bf : Bf16 α β) (p : GpuRefParams α β) : List (ℤ × α) :=
  (gridThreads p).flatMap fun tid : ℕ => lseStores (gpuRefFmhaKernel bf p tid)

/-- Each element of a tensor of `n` elements is stored once, and nothing else. -/
def CoveredOnce {V : Type*} (n : ℤ) (ws : List (ℤ × V)) : Prop :=
  (ws.map Prod.fst).Nodup ∧ ∀ e, e ∈ ws.map Prod.fst ↔ 0 ≤ e ∧ e < n

/-- Row `r` of a tensor with rows of `D` elements. -/
def rowElems (D r : ℤ) : List ℤ := (List.range D.toNat).map fun d : ℕ => r * D + d

lemma mem_rowElems {D r e : ℤ} : e ∈ rowElems D r ↔ r * D ≤ e ∧ e < r * D + D := by
  rw [rowElems, List.mem_map]
  constructor
  · rintro ⟨d, hd, rfl⟩
    have := Int.lt_toNat.mp (List.mem_range.mp hd)
    omega
  · rintro ⟨h0, h⟩
    exact ⟨(e - r * D).toNat, List.mem_range.mpr (by omega), by omega⟩

lemma nodup_rowElems (D r : ℤ) : (rowElems D r).Nodup :=
  List.nodup_range.map fun d d' h => by simpa using h

lemma rowElems_disjoint {D r r' e : ℤ} (he : e ∈ rowElems D r) (he' : e ∈ rowElems D r') :
    r = r' := by
  rw [mem_rowElems] at he he'
  have hd : r * D + (e - r * D) = r' * D + (e - r' * D) := by ring
  exact (radix_inj (by omega) (by omega) (by omega) (by omega) hd).1

include hp hw

/-- Threads that store one checked row each, and every row, cover the tensor once. -/
lemma coveredOnce_rows {V : Type*} {D : ℤ} (hpos : 0 < D) {ws : ℕ → List (ℤ × V)} {tids : List ℕ}
    (htids : tids.Nodup)
    (hrow : ∀ tid, ws tid = [] ∨ ∃ b hq i, Checked p b hq i ∧ (tid : ℤ) = thread p b hq i ∧
      (ws tid).map Prod.fst = rowElems D (rowIndex p b hq i))
    (hex : ∀ b hq i, Checked p b hq i → ∃ tid ∈ tids,
      (ws tid).map Prod.fst = rowElems D (rowIndex p b hq i)) :
    CoveredOnce (p.rowCount p.qHeads p.seqLen * D) (tids.flatMap ws) := by
  unfold CoveredOnce
  rw [List.map_flatMap]
  constructor
  · rw [List.nodup_flatMap]
    constructor
    · intro tid _
      rcases hrow tid with hnil | ⟨b, hq, i, -, -, hmap⟩
      · rw [hnil]
        exact List.nodup_nil
      · rw [hmap]
        exact nodup_rowElems _ _
    · -- a thread is known by its row, and rows are apart
      refine htids.pairwise_of_forall_ne fun tid _ tid' _ hne => ?_
      refine List.disjoint_left.mpr fun e he he' => hne ?_
      simp only at he he'
      rcases hrow tid with hnil | ⟨b, hq, i, hc, ht, hmap⟩
      · rw [hnil] at he
        exact absurd he List.not_mem_nil
      rcases hrow tid' with hnil' | ⟨b', hq', i', hc', ht', hmap'⟩
      · rw [hnil'] at he'
        exact absurd he' List.not_mem_nil
      rw [hmap] at he
      rw [hmap'] at he'
      obtain ⟨rfl, rfl, rfl⟩ := rowIndex_inj hp hw hc hc' (rowElems_disjoint he he')
      exact Int.ofNat_inj.mp (ht.trans ht'.symm)
  · intro e
    rw [List.mem_flatMap]
    constructor
    · rintro ⟨tid, -, he⟩
      rcases hrow tid with hnil | ⟨b, hq, i, hc, -, hmap⟩
      · rw [hnil] at he
        exact absurd he List.not_mem_nil
      · rw [hmap, mem_rowElems] at he
        have h0 := (rowIndex_mem hp hw hc le_rfl hp.headDim_pos).1
        have hlt := radix_lt (sub_nonneg.mpr he.1) (sub_lt_iff_lt_add'.mpr he.2)
          (rowIndex_lt hp hw hc)
        have := mul_nonneg h0 hpos.le
        exact ⟨by omega, by omega⟩
    · rintro ⟨h0, h⟩
      obtain ⟨b, hq, i, hc, hr⟩ := exists_checked hp hw (Int.ediv_nonneg h0 hpos.le)
        (Int.ediv_lt_of_lt_mul hpos h)
      obtain ⟨tid, htid, hmap⟩ := hex b hq i hc
      have hmod := Int.emod_nonneg e hpos.ne'
      have hlt := Int.emod_lt_of_pos e hpos
      have hdiv := Int.mul_ediv_add_emod e D
      refine ⟨tid, htid, ?_⟩
      rw [hmap, hr, mem_rowElems, mul_comm]
      omega

/-- What the thread of a row stores. -/
lemma thread_stores (hD : p.headDim ≤ 256) (hc : Checked p b hq i) {tid : ℕ}
    (ht : (tid : ℤ) = thread p b hq i) :
    (gpuRefFmhaKernel bf (p.gpuRefParams hQ hK hV) tid).oStores.map Prod.fst
        = rowElems p.headDim (rowIndex p b hq i) ∧
      (lseStores (gpuRefFmhaKernel bf (p.gpuRefParams hQ hK hV) tid)).map Prod.fst
        = if p.lse ≠ 0 then rowElems 1 (rowIndex p b hq i) else [] := by
  rw [ht, gpuRefFmhaKernel_eq hp hw bf hQ hK hV hc, if_neg (not_lt.mpr hD)]
  constructor
  · rw [Outcome.oStores, List.map_map]
    rfl
  · rw [lseStores]
    split_ifs
    · simp [rowElems]
    · rfl

/-- A thread without a row stores nothing. -/
lemma thread_returned {tid : ℕ} (h : ¬ ∃ b hq i, Checked p b hq i ∧ (tid : ℤ) = thread p b hq i) :
    (gpuRefFmhaKernel bf (p.gpuRefParams hQ hK hV) tid).oStores = [] ∧
      lseStores (gpuRefFmhaKernel bf (p.gpuRefParams hQ hK hV) tid) = [] := by
  rw [gpuRefFmhaKernel_returned hp hw bf hQ hK hV (Int.natCast_nonneg tid) h]
  exact ⟨rfl, rfl⟩

lemma oStores_coveredOnce (hD : p.headDim ≤ 256) :
    CoveredOnce (Arr.o.size p) (gpuRefFmhaFwd bf (p.gpuRefParams hQ hK hV)) := by
  rw [size_o hp hw]
  refine coveredOnce_rows hp hw hp.headDim_pos List.nodup_range (fun tid => ?_) fun b hq i hc => ?_
  · by_cases hchk : ∃ b hq i, Checked p b hq i ∧ (tid : ℤ) = thread p b hq i
    · obtain ⟨b, hq, i, hc, ht⟩ := hchk
      exact Or.inr ⟨b, hq, i, hc, ht, (thread_stores hp hw bf hQ hK hV hD hc ht).1⟩
    · exact Or.inl (thread_returned hp hw bf hQ hK hV hchk).1
  · obtain ⟨tid, htid, ht⟩ : ∃ tid : ℕ, tid ∈ gridThreads (p.gpuRefParams hQ hK hV :
      GpuRefParams α β) ∧ (tid : ℤ) = thread p b hq i := mem_gridThreads hp hQ hK hV hc
    exact ⟨tid, htid, (thread_stores hp hw bf hQ hK hV hD hc ht).1⟩

lemma lseStores_coveredOnce (hD : p.headDim ≤ 256) (hlse : p.lse ≠ 0) :
    CoveredOnce (Arr.lse.size p) (gpuRefLse bf (p.gpuRefParams hQ hK hV)) := by
  have hmap : ∀ {b hq i}, Checked p b hq i → ∀ {tid : ℕ}, (tid : ℤ) = thread p b hq i →
      (lseStores (gpuRefFmhaKernel bf (p.gpuRefParams hQ hK hV) tid)).map Prod.fst
        = rowElems 1 (rowIndex p b hq i) := by
    intro b hq i hc tid ht
    rw [(thread_stores hp hw bf hQ hK hV hD hc ht).2, if_pos hlse]
  rw [size_lse hp hw, ← mul_one (p.rowCount _ _)]
  refine coveredOnce_rows hp hw one_pos List.nodup_range (fun tid => ?_) fun b hq i hc => ?_
  · by_cases hchk : ∃ b hq i, Checked p b hq i ∧ (tid : ℤ) = thread p b hq i
    · obtain ⟨b, hq, i, hc, ht⟩ := hchk
      exact Or.inr ⟨b, hq, i, hc, ht, hmap hc ht⟩
    · exact Or.inl (thread_returned hp hw bf hQ hK hV hchk).2
  · obtain ⟨tid, htid, ht⟩ : ∃ tid : ℕ, tid ∈ gridThreads (p.gpuRefParams hQ hK hV :
      GpuRefParams α β) ∧ (tid : ℤ) = thread p b hq i := mem_gridThreads hp hQ hK hV hc
    exact ⟨tid, htid, hmap hc ht⟩

/-- No thread stores to LSE when it is off. -/
lemma lseStores_off (hD : p.headDim ≤ 256) (hlse : p.lse = 0) :
    gpuRefLse bf (p.gpuRefParams hQ hK hV) = [] := by
  refine List.flatMap_eq_nil_iff.mpr fun tid _ => ?_
  by_cases hchk : ∃ b hq i, Checked p b hq i ∧ (tid : ℤ) = thread p b hq i
  · obtain ⟨b, hq, i, hc, ht⟩ := hchk
    have hl := (thread_stores hp hw bf hQ hK hV hD hc ht).2
    rw [if_neg (not_not.mpr hlse)] at hl
    exact List.map_eq_nil_iff.mp hl
  · exact (thread_returned hp hw bf hQ hK hV hchk).2

/-- The stores of a thread are among its accesses. -/
lemma stores_mem_accesses (hD : p.headDim ≤ 256) (tid : ℕ) :
    (∀ e ∈ (gpuRefFmhaKernel bf (p.gpuRefParams hQ hK hV) tid).oStores.map Prod.fst,
      ⟨.o, e⟩ ∈ accesses (p.gpuRefParams hQ hK hV : GpuRefParams α β) tid) ∧
    ∀ e ∈ (lseStores (gpuRefFmhaKernel bf (p.gpuRefParams hQ hK hV) tid)).map Prod.fst,
      ⟨.lse, e⟩ ∈ accesses (p.gpuRefParams hQ hK hV : GpuRefParams α β) tid := by
  by_cases hchk : ∃ b hq i, Checked p b hq i ∧ (tid : ℤ) = thread p b hq i
  · obtain ⟨b, hq, i, hc, ht⟩ := hchk
    obtain ⟨ho, hl⟩ := thread_stores hp hw bf hQ hK hV hD hc ht
    have hplace : rowPlace (p.gpuRefParams hQ hK hV : GpuRefParams α β) tid
        = some (place p b hq i) := by
      rw [ht]
      exact rowPlace_eq hp hw hQ hK hV hc
    unfold accesses
    rw [ho, hl, hplace]
    constructor
    · intro e he
      obtain ⟨d, hd, rfl⟩ := List.mem_map.mp he
      exact List.mem_append_right _ (mem_oAccess (List.mem_range.mp hd))
    · intro e he
      by_cases hlse : p.lse = 0
      · rw [if_neg (not_not.mpr hlse)] at he
        exact absurd he List.not_mem_nil
      · rw [if_pos hlse, mem_rowElems, mul_one] at he
        have hrow : e = rowIndex p b hq i := by omega
        refine List.mem_append_right _ (List.mem_append_right _ ?_)
        have hon : (p.gpuRefParams hQ hK hV : GpuRefParams α β).dLSE = true :=
          decide_eq_true hlse
        rw [hon, hrow]
        exact List.mem_singleton.mpr rfl
  · obtain ⟨ho, hl⟩ := thread_returned hp hw bf hQ hK hV hchk
    rw [ho, hl]
    exact ⟨fun _ he => absurd he List.not_mem_nil, fun _ he => absurd he List.not_mem_nil⟩

end Written

/-! ### A launch of the oracle test -/

section Launch

variable {α β : Type*} [Fp α] [Zero β] (bf : Bf16 α β) (hQ hK hV : Mem β)

/-- **The reference launch stays inside its buffers.** Every element that a thread indexes is
allocated, its stores are among them, and what it does depends on no other element: an argument
block with other contents elsewhere gives the same stores. -/
theorem reference_inBounds {tc : TestCase} (ht : Admissible tc) (hw : NoOverflow (makeParams tc))
    (hcount : ((tc.varlenSeqs.length : ℤ) + 1) * 4 < 2147483648) (hD : tc.d ≤ 256) (tid : ℕ) :
    let gp : GpuRefParams α β := (makeParams tc).gpuRefParams hQ hK hV
    InBounds (makeParams tc) (accesses gp tid) ∧
      (∀ e ∈ (gpuRefFmhaKernel bf gp tid).oStores.map Prod.fst, ⟨.o, e⟩ ∈ accesses gp tid) ∧
      (∀ e ∈ (lseStores (gpuRefFmhaKernel bf gp tid)).map Prod.fst, ⟨.lse, e⟩ ∈ accesses gp tid) ∧
      ∀ gp', SameData (accesses gp tid) gp gp' →
        gpuRefFmhaKernel bf gp' tid = gpuRefFmhaKernel bf gp tid := by
  intro gp
  have hp : WellFormed (makeParams tc) := makeParams_wellFormed ht hw.count
  obtain ⟨ho, hl⟩ := stores_mem_accesses hp hw bf hQ hK hV hD tid
  exact ⟨accesses_inBounds hp hw hQ hK hV hcount hD (Int.natCast_nonneg tid), ho, hl,
    fun gp' h => kernel_footprint bf h⟩

/-- **The reference launch fills its outputs.** Each element of O is stored by one thread, once, and
so is each element of LSE, when it is on; nothing else is stored. -/
theorem reference_fills {tc : TestCase} (ht : Admissible tc) (hw : NoOverflow (makeParams tc))
    (hD : tc.d ≤ 256) :
    let gp : GpuRefParams α β := (makeParams tc).gpuRefParams hQ hK hV
    CoveredOnce (Arr.o.size (makeParams tc)) (gpuRefFmhaFwd bf gp) ∧
      (tc.lse ≠ 0 → CoveredOnce (Arr.lse.size (makeParams tc)) (gpuRefLse bf gp)) ∧
      (tc.lse = 0 → gpuRefLse bf gp = []) := by
  intro gp
  have hp : WellFormed (makeParams tc) := makeParams_wellFormed ht hw.count
  exact ⟨oStores_coveredOnce hp hw bf hQ hK hV hD,
    fun hlse => lseStores_coveredOnce hp hw bf hQ hK hV hD hlse,
    fun hlse => lseStores_off hp hw bf hQ hK hV hD hlse⟩

end Launch

/-- Three causal sequences of two, no and three rows, with the log-sum-exp. -/
def packedTriple : TestCase :=
  { b := 1, h := 2, s := 1, d := 3, kvHeads := 1, kvSeq := 3, mask := 1, lse := 1
    varlenSeqs := [2, 0, 3] }

lemma packedTriple_admissible : Admissible packedTriple :=
  { h_pos := by decide, d_pos := by decide, kvHeads_nonneg := by decide
    kvSeq_nonneg := by decide, dvd := by decide, dense := by decide
    length_nonneg := by decide, length_le := by decide }

lemma packedTriple_noOverflow : NoOverflow (makeParams packedTriple) :=
  { qStride := by decide, kStride := by decide, packed := by decide, threads := by decide
    count := by decide }

theorem reference_inBounds_packedTriple :
    InBounds (makeParams packedTriple) (accesses ((makeParams packedTriple).gpuRefParams
      (fun e => fin e) (fun e => fin (-e)) (fun e => fin e) : GpuRefParams XReal XReal) 8) :=
  (reference_inBounds exact (fun e => fin e) (fun e => fin (-e)) (fun e => fin e)
    packedTriple_admissible packedTriple_noOverflow (by decide) (by decide) 8).1

theorem reference_fills_packedTriple :
    let gp : GpuRefParams XReal XReal := (makeParams packedTriple).gpuRefParams
      (fun e => fin e) (fun e => fin (-e)) fun e => fin e
    CoveredOnce (Arr.o.size (makeParams packedTriple)) (gpuRefFmhaFwd exact gp) ∧
      CoveredOnce (Arr.lse.size (makeParams packedTriple)) (gpuRefLse exact gp) := by
  intro gp
  obtain ⟨ho, hlse, -⟩ := reference_fills exact (fun e => fin e) (fun e => fin (-e)) (fun e => fin e)
    packedTriple_admissible packedTriple_noOverflow (by decide)
  exact ⟨ho, hlse (by decide)⟩

end FmhaNative.RefLaunch
