import FmhaNative.HostLayouts
import FmhaNative.Offsets32

/-!
Which command lines of the benchmark are problems that the fused kernel supports.

The kernel walks 64 columns of a row. With a head dimension of 64 its addresses are whole rows of
the allocation, at a place that the 32-bit strides, the table of starts and the 32-bit byte offsets
determine; the contract is then one about rows.
-/

namespace FmhaNative.HostAdmission

open Host HostLayouts Indexing Offsets32 Pipeline OpEpilog Words

/-! ### The contract -/

/-- Lane `t` of block `(h, mTileIdx, b)` of the benchmark's grid owns a row of its sequence. -/
structure OwnsRow (p : FmhaParams) (b h mTileIdx : ℤ) (t : Thread) : Prop where
  b_nonneg : 0 ≤ b
  b_lt : b < p.batch
  h_nonneg : 0 ≤ h
  h_lt : h < p.qHeads
  tile_nonneg : 0 ≤ mTileIdx
  tile_lt : mTileIdx < (p.seqLen + kM0 - 1).tdiv kM0
  row_lt : mTileIdx * kM0 + mRow t < rows p b .q

section Elements

variable {α β : Type*} (isVarlen : Bool) (fp : FmhaFwdParams α β)

/-- The element of Q that a lane loads in register `kstep`, column `x` of eight: the 64-bit base
pointer and the 32-bit byte offset. -/
def qElem (b h mTileIdx : ℤ) (t : Thread) (kstep : Fin 4) (x : Fin 8) : ℤ :=
  qBase isVarlen fp b h +
    ((qVoff (fp.strideQ : I32) ((mTileIdx : I32) * 128 + (mRow t : I32)) t kstep).toNat / 2 + x.val : ℕ)

/-- The element of O that a lane's store `s` writes, column `e` of four. -/
def oElem (b h mTileIdx : ℤ) (t : Thread) (s : Fin 8) (e : Fin 4) : ℤ :=
  oBase isVarlen fp b h +
    (((oVoffset ((mTileIdx * kM0 + mRow t : ℤ) : I32) (fp.strideO : I32) (colBase t : I32)).toNat
      + s.val * 16) / 2 + e.val : ℕ)

end Elements

/-- The elements of an allocation of `hipMalloc(size * 2)`. -/
def allocElems (size : ℤ) : ℤ := toSizeT (size * 2) / 2

/-- **The contract** of the fused kernel, on what `main` builds. -/
structure Supported {α β : Type*} (p : FmhaParams) (fp : FmhaFwdParams α β) : Prop where
  headDim : p.hdimDispatch = 64
  ratio_pos : 0 < fp.nheadQ.tdiv fp.nheadK
  ratio_exact : fp.nheadK * fp.nheadQ.tdiv fp.nheadK = fp.nheadQ
  kvHead : ∀ h, 0 ≤ h → h < fp.nheadQ → 0 ≤ kvHeadIdx fp h ∧ kvHeadIdx fp h < fp.nheadK
  q_mem : ∀ b h m t, OwnsRow p b h m t → ∀ kstep x,
    0 ≤ qElem p.varlenMode fp b h m t kstep x ∧
      qElem p.varlenMode fp b h m t kstep x < allocElems p.buffers.szQ
  o_mem : ∀ b h m t, OwnsRow p b h m t → ∀ s e,
    0 ≤ oElem p.varlenMode fp b h m t s e ∧
      oElem p.varlenMode fp b h m t s e < allocElems p.buffers.szO
  apart : ∀ b h m t b' h' m' t', OwnsRow p b h m t → OwnsRow p b' h' m' t' →
    (b, h, m * kM0 + mRow t) ≠ (b', h', m' * kM0 + mRow t') →
      ∀ s e s' e', oElem p.varlenMode fp b h m t s e ≠ oElem p.varlenMode fp b' h' m' t' s' e'

/-! ### Rows of the allocation -/

/-- A row `(b, h, i)` of the problem. -/
structure Row (p : FmhaParams) (b h i : ℤ) : Prop where
  b_nonneg : 0 ≤ b
  b_lt : b < p.batch
  h_nonneg : 0 ≤ h
  h_lt : h < p.qHeads
  i_nonneg : 0 ≤ i
  i_lt : i < rows p b .q

lemma row_iff {p : FmhaParams} (hp : Accepted p) (b h i : ℤ) : Row p b h i ↔
    (0 ≤ b ∧ b < p.batch) ∧ (0 ≤ h ∧ h < p.qHeads) ∧
      0 ≤ i ∧ i < if p.varlenMode then seqLength p b else p.seqLen := by
  rw [← rows_eq hp b .q]
  constructor
  · intro hr
    exact ⟨⟨hr.b_nonneg, hr.b_lt⟩, ⟨hr.h_nonneg, hr.h_lt⟩, hr.i_nonneg, hr.i_lt⟩
  · rintro ⟨⟨hb, hbB⟩, ⟨hh, hhH⟩, hi, hiS⟩
    exact ⟨hb, hbB, hh, hhH, hi, hiS⟩

/-- The row of the allocation that the base pointer of `(b, h)` addresses. -/
def rowBase (p : FmhaParams) (b h : ℤ) : ℤ :=
  if p.varlenMode then h * signed 26 (total p) + toInt (start p b)
  else b * signed 26 (p.qHeads * p.seqLen) + h * signed 26 p.seqLen

/-- The row that row `(b, h, i)` is found at: its byte offset has 32 bits. -/
def rowPos (p : FmhaParams) (b h i : ℤ) : ℤ := rowBase p b h + i % 33554432

/-- The rows of the allocation. -/
def allocRows (p : FmhaParams) : ℤ :=
  (if p.varlenMode then p.qHeads * total p else p.batch * p.qHeads * p.seqLen) % 144115188075855872

/-- The rows of the problem are found inside the allocation and apart. -/
structure RowsOk (p : FmhaParams) : Prop where
  mem : ∀ b h i, Row p b h i → 0 ≤ rowPos p b h i ∧ rowPos p b h i < allocRows p
  inj : ∀ b h i b' h' i', Row p b h i → Row p b' h' i' → rowPos p b h i = rowPos p b' h' i' →
    b = b' ∧ h = h' ∧ i = i'

lemma toInt_mul_64 (x : ℤ) : toInt (x * 64) = 64 * signed 26 x := by
  rw [toInt_def]
  unfold signed
  norm_num
  omega

/-- A 32-bit byte offset, in elements: the row modulo `2 ^ 25`. -/
lemma half_offset (row : ℤ) {n col : ℕ} (hn : (n : ℤ) = (row * 64 + col) * 2 % 2 ^ 32) (hcol : col < 64) :
    ((n / 2 : ℕ) : ℤ) = 64 * (row % 33554432) + col := by
  norm_num at hn
  omega

section Elements

variable {p : FmhaParams} (hp : Accepted p) (hD : p.headDim = 64) {α β : Type*} [Fp α]
  (hQ hK hV : Mem β)
include hp hD

lemma base_eq (b h : ℤ) (t : Tensor) (ht : heads p t = p.qHeads) :
    kernBase p.varlenMode (p.benchParams hQ hK hV : FmhaFwdParams α β) t b h = 64 * rowBase p b h := by
  have h0 := kernElem_eq (α := α) hp hQ hK hV t b h 0 0
  unfold kernElem at h0
  rw [zero_mul, add_zero, add_zero] at h0
  rw [h0, hD, ht, rowBase]
  split_ifs
  · rw [toInt_mul_64]
    ring
  · rw [toInt_mul_64, toInt_mul_64]
    ring

lemma qElem_eq (b h m : ℤ) (t : Thread) (kstep : Fin 4) (x : Fin 8) :
    qElem p.varlenMode (p.benchParams hQ hK hV : FmhaFwdParams α β) b h m t kstep x
      = 64 * rowPos p b h (m * kM0 + mRow t) + (qCol t kstep + x.val : ℕ) := by
  have hbase := base_eq (α := α) hp hD hQ hK hV b h .q rfl
  have hcol : qCol t kstep + 8 ≤ 64 := (Loads.Load.q t kstep).col_le
  have hvoff : (((qVoff ((64 : ℤ) : I32) ((m : I32) * 128 + (mRow t : I32)) t kstep).toNat : ℕ) : ℤ)
      = ((m * 128 + mRow t) * 64 + qCol t kstep) * 2 % 2 ^ 32 :=
    voffset_toNat ⟨64, 64, 64⟩ m (.q t kstep)
  have hhalf := half_offset _ hvoff (by omega)
  have hstride : (p.benchParams hQ hK hV : FmhaFwdParams α β).strideQ = 64 :=
    (hdimDispatch_eq hp).trans hD
  unfold qElem
  rw [← (kernBase_eq _ _ b h).1, hbase, hstride, rowPos, kM0_eq]
  push_cast at hhalf ⊢
  rw [hhalf]
  ring

lemma oElem_eq (b h m : ℤ) (t : Thread) (s : Fin 8) (e : Fin 4) :
    oElem p.varlenMode (p.benchParams hQ hK hV : FmhaFwdParams α β) b h m t s e
      = 64 * rowPos p b h (m * kM0 + mRow t) + storeCol t s e := by
  have hbase := base_eq (α := α) hp hD hQ hK hV b h .o rfl
  have hcol := colBase_le t
  have hvoff := oVoffset_toNat (m * kM0 + mRow t) 64 (colBase t)
  have hhalf := half_offset _ hvoff (by omega)
  have hstride : (p.benchParams hQ hK hV : FmhaFwdParams α β).strideO = 64 :=
    (hdimDispatch_eq hp).trans hD
  unfold oElem
  rw [← (kernBase_eq _ _ b h).2.2.2, hbase, hstride, rowPos]
  rw [colBase_eq] at hhalf
  rw [storeCol, colBase_eq]
  push_cast at hhalf ⊢
  omega

end Elements

lemma seqLength_le (p : FmhaParams) (b : ℤ) : seqLength p b ≤ maxSeq p.varlenSeqs := by
  rcases seqLength_mem p b with hmem | h0
  · exact le_maxSeq hmem
  · rw [h0]
    exact maxSeq_nonneg _

/-- A block of the grid has every row. -/
lemma exists_lane {p : FmhaParams} (hp : Accepted p) (hd : Derived p) {b h i : ℤ} (hr : Row p b h i)
    (half : Fin 2) :
    ∃ m t, OwnsRow p b h m t ∧ m * kM0 + mRow t = i ∧ kSub t = half.val := by
  have hi := hr.i_lt
  have h0 := hr.i_nonneg
  have hlen : rows p b .q ≤ p.seqLen := by
    rw [rows_eq hp]
    split_ifs with hv
    · rw [hd.seqLen hv]
      exact seqLength_le p b
    · exact le_rfl
  refine ⟨i / 128, rowThread ⟨(i % 128).toNat, by omega⟩ half, ⟨hr.b_nonneg, hr.b_lt, hr.h_nonneg, hr.h_lt,
    by omega, ?_, ?_⟩, ?_, kSub_rowThread _ _⟩
  · rw [kM0_eq, Int.tdiv_eq_ediv_of_nonneg (by omega)]
    omega
  · rw [mRow_rowThread, kM0_eq]
    simp only
    omega
  · rw [mRow_rowThread, kM0_eq]
    simp only
    omega

/-- The elements of an allocation are whole rows. -/
lemma alloc_eq {p : FmhaParams} (hp : Accepted p) (hD : p.headDim = 64) (t : Tensor)
    (ht : heads p t = p.qHeads) : allocElems (size p t) = 64 * allocRows p := by
  have hmod : ∀ x : ℤ, allocElems (toSizeT (x * 64)) = 64 * (x % 144115188075855872) := by
    intro x
    unfold allocElems toSizeT unsigned
    norm_num
    omega
  rw [size_eq hp, hD, ht, allocRows]
  split_ifs
  · exact hmod _
  · exact hmod _

section Ratio

variable {p : FmhaParams} (hd : Derived p)
include hd

lemma ratio_exact : p.kvHeads * p.qHeads.tdiv p.kvHeads = p.qHeads := by
  have h := Int.mul_tdiv_add_tmod p.qHeads p.kvHeads
  rwa [hd.divides, add_zero] at h

/-- The ratio is positive when the two counts have one sign. -/
lemma ratio_pos_iff : 0 < p.qHeads.tdiv p.kvHeads ↔ 0 < p.qHeads * p.kvHeads := by
  have hform : p.qHeads * p.kvHeads = p.kvHeads * p.kvHeads * p.qHeads.tdiv p.kvHeads := by
    calc p.qHeads * p.kvHeads = p.kvHeads * (p.kvHeads * p.qHeads.tdiv p.kvHeads) := by
          rw [ratio_exact hd, mul_comm]
      _ = p.kvHeads * p.kvHeads * p.qHeads.tdiv p.kvHeads := by ring
  rw [hform, mul_pos_iff_of_pos_left (mul_self_pos.mpr hd.kvHeads_ne)]

lemma kvHead_mem (hr : 0 < p.qHeads.tdiv p.kvHeads) {h : ℤ} (h0 : 0 ≤ h) (hlt : h < p.qHeads) :
    0 ≤ h.tdiv (p.qHeads.tdiv p.kvHeads) ∧ h.tdiv (p.qHeads.tdiv p.kvHeads) < p.kvHeads := by
  rw [Int.tdiv_eq_ediv_of_nonneg h0]
  refine ⟨Int.ediv_nonneg h0 hr.le, Int.ediv_lt_of_lt_mul hr ?_⟩
  rwa [ratio_exact hd]

end Ratio

/-- **The contract, by rows.** -/
lemma supported_iff_rows {p : FmhaParams} (hp : Accepted p) (hd : Derived p) {α β : Type*} [Fp α]
    (hQ hK hV : Mem β) :
    Supported p (p.benchParams hQ hK hV : FmhaFwdParams α β) ↔
      p.headDim = 64 ∧ 0 < p.qHeads * p.kvHeads ∧ RowsOk p := by
  have hrow : ∀ b h m t, OwnsRow p b h m t → Row p b h (m * kM0 + mRow t) := by
    intro b h m t ho
    have hm := ho.tile_nonneg
    exact ⟨ho.b_nonneg, ho.b_lt, ho.h_nonneg, ho.h_lt, by rw [kM0_eq]; omega, ho.row_lt⟩
  constructor
  · intro hs
    have hD : p.headDim = 64 := (hdimDispatch_eq hp).symm.trans hs.headDim
    have halloc : allocElems p.buffers.szO = 64 * allocRows p := alloc_eq hp hD .o rfl
    refine ⟨hD, (ratio_pos_iff hd).mp hs.ratio_pos, ⟨fun b h i hr => ?_, fun b h i b' h' i' hr hr' he => ?_⟩⟩
    · obtain ⟨m, t, ho, rfl, -⟩ := exists_lane hp hd hr 0
      have hmem := hs.o_mem b h m t ho 0 0
      have hcol := storeCol_lt t 0 0
      rw [oElem_eq hp hD, halloc] at hmem
      omega
    · obtain ⟨m, t, ho, rfl, hk⟩ := exists_lane hp hd hr 0
      obtain ⟨m', t', ho', rfl, hk'⟩ := exists_lane hp hd hr' 0
      by_contra hne
      refine hs.apart b h m t b' h' m' t' ho ho' ?_ 0 0 0 0 ?_
      · simpa only [ne_eq, Prod.mk.injEq] using hne
      · rw [oElem_eq hp hD, oElem_eq hp hD, he, storeCol, storeCol, hk, hk']
  · rintro ⟨hD, hratio, hrows⟩
    have hr := (ratio_pos_iff hd).mpr hratio
    have halloc : allocElems p.buffers.szO = 64 * allocRows p := alloc_eq hp hD .o rfl
    have hallocQ : allocElems p.buffers.szQ = 64 * allocRows p := alloc_eq hp hD .q rfl
    refine ⟨(hdimDispatch_eq hp).trans hD, hr, ratio_exact hd, fun h h0 hlt => kvHead_mem hd hr h0 hlt,
      fun b h m t ho kstep x => ?_, fun b h m t ho s e => ?_,
      fun b h m t b' h' m' t' ho ho' hne s e s' e' he => hne ?_⟩
    · have hmem := hrows.mem b h _ (hrow b h m t ho)
      have hcol : qCol t kstep + 8 ≤ 64 := (Loads.Load.q t kstep).col_le
      rw [qElem_eq hp hD, hallocQ]
      omega
    · have hmem := hrows.mem b h _ (hrow b h m t ho)
      have hcol := storeCol_lt t s e
      rw [oElem_eq hp hD, halloc]
      omega
    · have hcol := storeCol_lt t s e
      have hcol' := storeCol_lt t' s' e'
      rw [oElem_eq hp hD, oElem_eq hp hD] at he
      obtain ⟨rfl, rfl, hi⟩ := hrows.inj b h _ b' h' _ (hrow b h m t ho) (hrow b' h' m' t' ho') (by omega)
      rw [hi]

/-! ### Dense mode -/

/-- What the 32-bit strides and offsets hold of a dense problem that has a row. -/
def DenseFits (p : FmhaParams) : Prop :=
  0 < p.batch → 0 < p.qHeads → 0 < p.seqLen →
    p.seqLen ≤ 33554432 ∧ (p.qHeads = 1 ∨ p.seqLen < 33554432) ∧
      (p.batch = 1 ∨ p.qHeads * p.seqLen < 33554432)

lemma signed26_eq {x : ℤ} (h0 : 0 ≤ x) (h : x < 33554432) : signed 26 x = x :=
  (signed_eq_iff (by norm_num)).mpr ⟨by norm_num; omega, by norm_num; omega⟩

lemma mul_signed26 {b x : ℤ} (h : b = 0 ∨ x < 33554432) (hx : 0 ≤ x) : b * signed 26 x = b * x := by
  rcases h with rfl | h
  · rw [zero_mul, zero_mul]
  · rw [signed26_eq hx h]

section Dense

variable {p : FmhaParams} (hp : Accepted p) (hv : p.varlenMode = false)
include hp hv

omit hp in
lemma dense_rowPos (b h i : ℤ) : rowPos p b h i
    = b * signed 26 (p.qHeads * p.seqLen) + h * signed 26 p.seqLen + i % 33554432 := by
  unfold rowPos rowBase
  simp only [hv, Bool.false_eq_true, if_false]

lemma dense_row_iff (b h i : ℤ) : Row p b h i ↔
    (0 ≤ b ∧ b < p.batch) ∧ (0 ≤ h ∧ h < p.qHeads) ∧ 0 ≤ i ∧ i < p.seqLen := by
  rw [row_iff hp, hv]
  rfl

/-- A dense row is a mixed-radix number. -/
lemma dense_rowPos_eq (hfit : DenseFits p) {b h i : ℤ} (hr : Row p b h i) :
    rowPos p b h i = (b * p.qHeads + h) * p.seqLen + i := by
  obtain ⟨⟨hb, hbB⟩, ⟨hh, hhH⟩, hi, hiS⟩ := (dense_row_iff hp hv b h i).mp hr
  obtain ⟨hlen, hhead, hbatch⟩ := hfit (by omega) (by omega) (by omega)
  have hHS : 0 ≤ p.qHeads * p.seqLen := mul_nonneg (by omega) (by omega)
  rw [dense_rowPos hv, mul_signed26 (hbatch.imp_left fun h1 => by omega) hHS,
    mul_signed26 (hhead.imp_left fun h1 => by omega) (by omega), Int.emod_eq_of_lt hi (by omega)]
  ring

lemma rowsOk_of_denseFits (hfit : DenseFits p) : RowsOk p := by
  refine ⟨fun b h i hr => ?_, fun b h i b' h' i' hr hr' he => ?_⟩
  · obtain ⟨⟨hb, hbB⟩, ⟨hh, hhH⟩, hi, hiS⟩ := (dense_row_iff hp hv b h i).mp hr
    have hlt := radix_lt hi hiS (radix_lt hh hhH hbB)
    have hH : 0 ≤ p.qHeads := by omega
    have hS : 0 ≤ p.seqLen := by omega
    obtain ⟨hlen, hhead, hbatch⟩ := hfit (by omega) (by omega) (by omega)
    -- one factor is below `2 ^ 31`, the other at most `2 ^ 25`
    have hsize : p.batch * p.qHeads * p.seqLen < 144115188075855872 := by
      rcases hbatch with h1 | hlt
      · rw [h1, one_mul]
        have := mul_le_mul hp.qHeads.2.le hlen hS (by norm_num)
        omega
      · rw [mul_assoc]
        have := mul_le_mul hp.batch.2.le hlt.le (mul_nonneg hH hS) (by norm_num)
        omega
    rw [dense_rowPos_eq hp hv hfit hr]
    have h0 : 0 ≤ (b * p.qHeads + h) * p.seqLen + i := by positivity
    refine ⟨h0, ?_⟩
    unfold allocRows
    rw [hv]
    simp only [Bool.false_eq_true, if_false]
    rwa [Int.emod_eq_of_lt (h0.trans hlt.le) hsize]
  · rw [dense_rowPos_eq hp hv hfit hr, dense_rowPos_eq hp hv hfit hr'] at he
    obtain ⟨-, ⟨hh, hhH⟩, hi, hiS⟩ := (dense_row_iff hp hv b h i).mp hr
    obtain ⟨-, ⟨hh', hhH'⟩, hi', hiS'⟩ := (dense_row_iff hp hv b' h' i').mp hr'
    obtain ⟨hhead, rfl⟩ := radix_inj hi hiS hi' hiS' he
    obtain ⟨rfl, rfl⟩ := radix_inj hh hhH hh' hhH' hhead
    exact ⟨rfl, rfl, rfl⟩

section Needs

variable (hok : RowsOk p) (hB : 0 < p.batch) (hH : 0 < p.qHeads) (hS : 0 < p.seqLen)
include hok hB hH hS

/-- A sequence of more than `2 ^ 25` rows comes back to its first row. -/
lemma dense_seqLen_le : p.seqLen ≤ 33554432 := by
  by_contra hc
  have hrow : ∀ i, 0 ≤ i → i < p.seqLen → Row p 0 0 i := fun i hi hiS =>
    (dense_row_iff hp hv _ _ _).mpr ⟨⟨le_rfl, hB⟩, ⟨le_rfl, hH⟩, hi, hiS⟩
  have he : rowPos p 0 0 0 = rowPos p 0 0 33554432 := by
    rw [dense_rowPos hv, dense_rowPos hv]
    norm_num
  have := (hok.inj _ _ _ _ _ _ (hrow 0 le_rfl hS) (hrow 33554432 (by norm_num) (by omega)) he).2.2
  omega

/-- A head stride of `2 ^ 25` rows is negative. -/
lemma dense_head : p.qHeads = 1 ∨ p.seqLen < 33554432 := by
  by_contra hc
  push Not at hc
  have hlen := dense_seqLen_le hp hv hok hB hH hS
  have hrow : Row p 0 1 0 :=
    (dense_row_iff hp hv _ _ _).mpr ⟨⟨le_rfl, hB⟩, ⟨by norm_num, by omega⟩, le_rfl, hS⟩
  have hmem := (hok.mem 0 1 0 hrow).1
  have hS' : p.seqLen = 33554432 := by omega
  rw [dense_rowPos hv, hS'] at hmem
  norm_num [signed] at hmem

/-- A batch stride that wraps is negative, or the second batch begins inside the first. -/
lemma dense_batch : p.batch = 1 ∨ p.qHeads * p.seqLen < 33554432 := by
  by_contra hc
  push Not at hc
  have hhead := dense_head hp hv hok hB hH hS
  have hlen := dense_seqLen_le hp hv hok hB hH hS
  set w := signed 26 (p.qHeads * p.seqLen) with hw
  have hlast : rowPos p 1 0 0 = w := by
    rw [dense_rowPos hv, ← hw]
    norm_num
  have hfirst : Row p 1 0 0 :=
    (dense_row_iff hp hv _ _ _).mpr ⟨⟨by norm_num, by omega⟩, ⟨le_rfl, hH⟩, le_rfl, hS⟩
  have h0 : 0 ≤ w := by
    rw [← hlast]
    exact (hok.mem _ _ _ hfirst).1
  have hwlt : w < 33554432 := (signed_mem (by norm_num) _).2
  -- row `w` of the first batch
  have hdiv : w / p.seqLen < p.qHeads := Int.ediv_lt_of_lt_mul hS (by omega)
  have hdiv0 : 0 ≤ w / p.seqLen := Int.ediv_nonneg h0 hS.le
  have hmod := Int.emod_lt_of_pos w hS
  have hmod0 := Int.emod_nonneg w hS.ne'
  have hrow : Row p 0 (w / p.seqLen) (w % p.seqLen) :=
    (dense_row_iff hp hv _ _ _).mpr ⟨⟨le_rfl, hB⟩, ⟨hdiv0, hdiv⟩, hmod0, hmod⟩
  have he : rowPos p 0 (w / p.seqLen) (w % p.seqLen) = rowPos p 1 0 0 := by
    rw [hlast, dense_rowPos hv, zero_mul, zero_add,
      mul_signed26 (hhead.imp_left fun h1 => by omega) hS.le, Int.emod_eq_of_lt hmod0 (by omega)]
    exact Int.ediv_mul_add_emod w p.seqLen
  have := (hok.inj _ _ _ _ _ _ hrow hfirst he).1
  omega

end Needs

lemma denseFits_of_rowsOk (hok : RowsOk p) : DenseFits p := fun hB hH hS =>
  ⟨dense_seqLen_le hp hv hok hB hH hS, dense_head hp hv hok hB hH hS, dense_batch hp hv hok hB hH hS⟩

end Dense

/-! ### Packed sequences -/

/-- The rows of each sequence and head, in one piece inside the allocation and apart. -/
def SlicesFit (p : FmhaParams) : Prop :=
  ∀ b h, 0 ≤ b → b < p.batch → 0 ≤ h → h < p.qHeads → 0 < seqLength p b →
    seqLength p b ≤ 33554432 ∧ 0 ≤ rowBase p b h ∧ rowBase p b h + seqLength p b ≤ allocRows p ∧
      ∀ b' h', 0 ≤ b' → b' < p.batch → 0 ≤ h' → h' < p.qHeads → 0 < seqLength p b' → (b', h') ≠ (b, h) →
        rowBase p b h + seqLength p b ≤ rowBase p b' h' ∨
          rowBase p b' h' + seqLength p b' ≤ rowBase p b h

/-- No length is negative, and an `int` counts the sequences. -/
def Plain (p : FmhaParams) : Prop := (∀ s ∈ p.varlenSeqs, 0 ≤ s) ∧ p.batch = p.varlenSeqs.length

/-- The rows before sequence `b`. -/
def startSum (p : FmhaParams) (b : ℤ) : ℤ := (p.varlenSeqs.take b.toNat).sum

def PlainFits (p : FmhaParams) : Prop :=
  ∀ b, 0 ≤ b → b < p.batch → 0 < p.qHeads → 0 < seqLength p b →
    seqLength p b ≤ 33554432 ∧ startSum p b < 2147483648 ∧
      (p.qHeads = 1 ∨ p.varlenSeqs.sum < 33554432)

def VarlenFits (p : FmhaParams) : Prop := (Plain p → PlainFits p) ∧ (¬ Plain p → SlicesFit p)

section Varlen

variable {p : FmhaParams} (hp : Accepted p) (hv : p.varlenMode = true)
include hv

lemma varlen_rowBase (b h : ℤ) : rowBase p b h = h * signed 26 (total p) + toInt (start p b) := by
  unfold rowBase
  rw [hv, if_pos rfl]

include hp in
lemma varlen_row_iff (b h i : ℤ) : Row p b h i ↔
    (0 ≤ b ∧ b < p.batch) ∧ (0 ≤ h ∧ h < p.qHeads) ∧ 0 ≤ i ∧ i < seqLength p b := by
  rw [row_iff hp, hv, if_pos rfl]

include hp

lemma row_of_lt {b h i : ℤ} (hb : 0 ≤ b) (hbB : b < p.batch) (hh : 0 ≤ h) (hhH : h < p.qHeads)
    (hi : 0 ≤ i) (hiS : i < seqLength p b) : Row p b h i :=
  (varlen_row_iff hp hv _ _ _).mpr ⟨⟨hb, hbB⟩, ⟨hh, hhH⟩, hi, hiS⟩

/-- A slice of more than `2 ^ 25` rows comes back to its first row. -/
lemma slice_short (hok : RowsOk p) {b h : ℤ} (hb : 0 ≤ b) (hbB : b < p.batch) (hh : 0 ≤ h)
    (hhH : h < p.qHeads) : seqLength p b ≤ 33554432 := by
  by_contra hc
  have he : rowPos p b h 0 = rowPos p b h 33554432 := by
    unfold rowPos
    norm_num
  have := (hok.inj _ _ _ _ _ _ (row_of_lt hp hv hb hbB hh hhH le_rfl (by omega))
    (row_of_lt hp hv hb hbB hh hhH (by norm_num) (by omega)) he).2.2
  omega

omit hp hv in
lemma rowPos_of_short {b : ℤ} (h : ℤ) {i : ℤ} (hlen : seqLength p b ≤ 33554432) (hi : 0 ≤ i)
    (hiS : i < seqLength p b) : rowPos p b h i = rowBase p b h + i := by
  rw [rowPos, Int.emod_eq_of_lt hi (by omega)]

lemma slicesFit_of_rowsOk (hok : RowsOk p) : SlicesFit p := by
  intro b h hb hbB hh hhH hlen
  have hshort := slice_short hp hv hok hb hbB hh hhH
  have hfirst := hok.mem b h 0 (row_of_lt hp hv hb hbB hh hhH le_rfl hlen)
  have hlast := hok.mem b h (seqLength p b - 1) (row_of_lt hp hv hb hbB hh hhH (by omega) (by omega))
  rw [rowPos_of_short h hshort le_rfl hlen] at hfirst
  rw [rowPos_of_short h hshort (by omega) (by omega)] at hlast
  refine ⟨hshort, by omega, by omega, fun b' h' hb' hbB' hh' hhH' hlen' hne => ?_⟩
  by_contra hc
  push Not at hc
  have hshort' := slice_short hp hv hok hb' hbB' hh' hhH'
  obtain ⟨i, i', hi, hiS, hi', hiS', he⟩ := exists_common hlen hlen' hc.1 hc.2
  rw [← rowPos_of_short h hshort hi hiS, ← rowPos_of_short h' hshort' hi' hiS'] at he
  obtain ⟨rfl, rfl, -⟩ := hok.inj _ _ _ _ _ _ (row_of_lt hp hv hb hbB hh hhH hi hiS)
    (row_of_lt hp hv hb' hbB' hh' hhH' hi' hiS') he
  exact hne rfl

lemma rowsOk_of_slicesFit (hfit : SlicesFit p) : RowsOk p := by
  refine ⟨fun b h i hr => ?_, fun b h i b' h' i' hr hr' he => ?_⟩
  · obtain ⟨⟨hb, hbB⟩, ⟨hh, hhH⟩, hi, hiS⟩ := (varlen_row_iff hp hv b h i).mp hr
    obtain ⟨hlen, h0, hlast, -⟩ := hfit b h hb hbB hh hhH (by omega)
    rw [rowPos_of_short h hlen hi hiS]
    omega
  · obtain ⟨⟨hb, hbB⟩, ⟨hh, hhH⟩, hi, hiS⟩ := (varlen_row_iff hp hv b h i).mp hr
    obtain ⟨⟨hb', hbB'⟩, ⟨hh', hhH'⟩, hi', hiS'⟩ := (varlen_row_iff hp hv b' h' i').mp hr'
    obtain ⟨hlen, -, -, hapart⟩ := hfit b h hb hbB hh hhH (by omega)
    obtain ⟨hlen', -, -, -⟩ := hfit b' h' hb' hbB' hh' hhH' (by omega)
    rw [rowPos_of_short h hlen hi hiS, rowPos_of_short h' hlen' hi' hiS'] at he
    by_cases hsame : (b', h') = (b, h)
    · obtain ⟨rfl, rfl⟩ := Prod.mk.inj hsame
      exact ⟨rfl, rfl, by omega⟩
    · have := hapart b' h' hb' hbB' hh' hhH' (by omega) hsame
      omega

/-- Rows inside and apart are slices inside and apart. -/
lemma rowsOk_iff_slicesFit : RowsOk p ↔ SlicesFit p :=
  ⟨slicesFit_of_rowsOk hp hv, rowsOk_of_slicesFit hp hv⟩

end Varlen

section Plain

variable {p : FmhaParams}

lemma startSum_succ {b : ℤ} (hb : 0 ≤ b) : startSum p (b + 1) = startSum p b + seqLength p b := by
  unfold startSum seqLength
  rw [Int.toNat_add hb zero_le_one, Int.toNat_one, List.take_add_one, List.sum_append]
  cases h : p.varlenSeqs[b.toNat]? with
  | none => simp [List.getD, h]
  | some s => simp [List.getD, h]

lemma start_eq (p : FmhaParams) (b : ℤ) : start p b = startSum p b % 4294967296 := rfl

variable (hplain : Plain p)
include hplain

lemma seqLength_nonneg (b : ℤ) : 0 ≤ seqLength p b := by
  rcases seqLength_mem p b with hmem | h0
  · exact hplain.1 _ hmem
  · exact h0.ge

lemma startSum_packed : Packed (startSum p) p.batch := by
  intro b hb _
  have := seqLength_nonneg hplain b
  rw [startSum_succ hb]
  omega

omit hplain in
lemma startSum_zero : startSum p 0 = 0 := rfl

lemma startSum_batch : startSum p p.batch = p.varlenSeqs.sum := by
  unfold startSum
  rw [hplain.2, Int.toNat_natCast, List.take_length]

lemma batch_nonneg : 0 ≤ p.batch := by
  rw [hplain.2]
  exact Int.natCast_nonneg _

/-- Every sequence that is not empty is short, and starts below `2 ^ 31`. -/
def EarlyStarts (p : FmhaParams) : Prop :=
  ∀ b, 0 ≤ b → b < p.batch → 0 < seqLength p b → seqLength p b ≤ 33554432 ∧ start p b < 2147483648

/-- The starts stay below `2 ^ 31` plus one sequence. -/
lemma startSum_lt (hstart : EarlyStarts p) {b : ℤ} (hb : 0 ≤ b) (hbB : b ≤ p.batch) :
    0 ≤ startSum p b ∧ startSum p b < 2181038080 := by
  induction b, hb using Int.leInduction with
  | base => exact ⟨le_rfl, by rw [startSum_zero]; norm_num⟩
  | succ b hb ih =>
    obtain ⟨h0, hlt⟩ := ih (by omega)
    have hnn := seqLength_nonneg hplain b
    rw [startSum_succ hb]
    rcases hnn.eq_or_lt with hz | hpos
    · omega
    · obtain ⟨hlen, hs⟩ := hstart b hb (by omega) hpos
      rw [start_eq, Int.emod_eq_of_lt h0 (by omega)] at hs
      omega

/-- So no start wraps, nor the total. -/
lemma start_eq_startSum (hstart : EarlyStarts p) {b : ℤ} (hb : 0 ≤ b) (hbB : b ≤ p.batch) :
    start p b = startSum p b := by
  obtain ⟨h0, hlt⟩ := startSum_lt hplain hstart hb hbB
  rw [start_eq, Int.emod_eq_of_lt h0 (by omega)]

lemma total_eq_sum (hstart : EarlyStarts p) : 0 ≤ p.varlenSeqs.sum ∧ total p = p.varlenSeqs.sum := by
  obtain ⟨h0, hlt⟩ := startSum_lt hplain hstart (batch_nonneg hplain) le_rfl
  rw [startSum_batch hplain] at h0 hlt
  exact ⟨h0, Int.emod_eq_of_lt h0 (by omega)⟩

lemma plain_rowBase (hv : p.varlenMode = true) (hstart : EarlyStarts p) {b : ℤ} (h : ℤ) (hb : 0 ≤ b)
    (hbB : b < p.batch) (hlen : 0 < seqLength p b) :
    rowBase p b h = h * signed 26 p.varlenSeqs.sum + startSum p b := by
  have h31 := (hstart b hb hbB hlen).2
  have h0 := (start_mem p b).1
  rw [varlen_rowBase hv, (total_eq_sum hplain hstart).2, toInt_eq ⟨by omega, h31⟩,
    start_eq_startSum hplain hstart hb hbB.le]

lemma earlyStarts_of_plainFits (hH : 0 < p.qHeads) (hfit : PlainFits p) : EarlyStarts p := by
  intro b hb hbB hlen
  obtain ⟨hshort, h31, -⟩ := hfit b hb hbB hH hlen
  have h0 := (startSum_packed hplain).mono le_rfl hb hbB.le
  rw [startSum_zero] at h0
  exact ⟨hshort, by rwa [start_eq, Int.emod_eq_of_lt h0 (by omega)]⟩

omit hplain in
lemma earlyStarts_of_slicesFit (hv : p.varlenMode = true) (hH : 0 < p.qHeads) (hfit : SlicesFit p) :
    EarlyStarts p := by
  intro b hb hbB hlen
  obtain ⟨hshort, h0, -⟩ := hfit b 0 hb hbB le_rfl hH hlen
  obtain ⟨hs0, hs1⟩ := start_mem p b
  rw [varlen_rowBase hv, zero_mul, zero_add, toInt_def] at h0
  exact ⟨hshort, by omega⟩

/-- A sequence with a row, and a head. -/
structure Slice (p : FmhaParams) (b h : ℤ) : Prop where
  b_nonneg : 0 ≤ b
  b_lt : b < p.batch
  h_nonneg : 0 ≤ h
  h_lt : h < p.qHeads
  length_pos : 0 < seqLength p b

/-- A sequence ends where the next one begins, or before the end of the list. -/
lemma startSum_end_le {b b' : ℤ} (hb : 0 ≤ b) (hlt : b < b') (hbB : b' ≤ p.batch) :
    startSum p b + seqLength p b ≤ startSum p b' := by
  rw [← startSum_succ hb]
  exact (startSum_packed hplain).mono (by omega) hlt hbB

section Heads

variable (hv : p.varlenMode = true) (hstart : EarlyStarts p)
  (hhead : p.qHeads = 1 ∨ p.varlenSeqs.sum < 33554432)
include hv hstart hhead

/-- The head stride does not wrap when there are two heads. -/
lemma slice_rowBase {b h : ℤ} (hs : Slice p b h) :
    rowBase p b h = h * p.varlenSeqs.sum + startSum p b := by
  have hh := hs.h_nonneg
  have hhH := hs.h_lt
  rw [plain_rowBase hplain hv hstart h hs.b_nonneg hs.b_lt hs.length_pos,
    mul_signed26 (hhead.imp_left fun h1 => by omega) (total_eq_sum hplain hstart).1]

lemma plain_allocRows (hp : Accepted p) (hH : 0 < p.qHeads) :
    allocRows p = p.qHeads * p.varlenSeqs.sum := by
  obtain ⟨hsum0, htotal⟩ := total_eq_sum hplain hstart
  have hsum := (total_mem p).2
  rw [htotal] at hsum
  unfold allocRows
  rw [hv, if_pos rfl, htotal, Int.emod_eq_of_lt (mul_nonneg hH.le hsum0)]
  rcases hhead with h1 | hlt
  · rw [h1]
    omega
  · have := mul_le_mul hp.qHeads.2.le hlt.le hsum0 (by norm_num)
    omega

/-- A slice ends within its head. -/
lemma slice_end_le {b h h' : ℤ} (hs : Slice p b h) (hlt : h < h') :
    rowBase p b h + seqLength p b ≤ h' * p.varlenSeqs.sum := by
  have hsum0 := (total_eq_sum hplain hstart).1
  have hend := startSum_end_le hplain hs.b_nonneg hs.b_lt le_rfl
  have hnext : (h + 1) * p.varlenSeqs.sum ≤ h' * p.varlenSeqs.sum :=
    mul_le_mul_of_nonneg_right hlt hsum0
  rw [startSum_batch hplain] at hend
  rw [add_mul, one_mul] at hnext
  rw [slice_rowBase hplain hv hstart hhead hs]
  omega

/-- Slices follow one another by head, then by sequence. -/
lemma slice_le_slice {b h b' h' : ℤ} (hs : Slice p b h) (hs' : Slice p b' h')
    (hlt : h < h' ∨ h = h' ∧ b < b') : rowBase p b h + seqLength p b ≤ rowBase p b' h' := by
  rw [slice_rowBase hplain hv hstart hhead hs']
  rcases hlt with hlt | ⟨rfl, hlt⟩
  · have hend := slice_end_le hplain hv hstart hhead hs hlt
    have h0 := (startSum_lt hplain hstart hs'.b_nonneg hs'.b_lt.le).1
    omega
  · have hend := startSum_end_le hplain hs.b_nonneg hlt hs'.b_lt.le
    rw [slice_rowBase hplain hv hstart hhead hs]
    omega

end Heads

lemma slicesFit_of_plainFits (hp : Accepted p) (hv : p.varlenMode = true) (hfit : PlainFits p) :
    SlicesFit p := by
  intro b h hb hbB hh hhH hlen
  have hH : 0 < p.qHeads := by omega
  have hstart := earlyStarts_of_plainFits hplain hH hfit
  obtain ⟨hshort, -, hhead⟩ := hfit b hb hbB hH hlen
  have hs : Slice p b h := ⟨hb, hbB, hh, hhH, hlen⟩
  have hfollow : ∀ {b h b' h' : ℤ}, Slice p b h → Slice p b' h' → (h < h' ∨ h = h' ∧ b < b') →
      rowBase p b h + seqLength p b ≤ rowBase p b' h' := fun hs hs' hlt =>
    slice_le_slice hplain hv hstart hhead hs hs' hlt
  refine ⟨hshort, ?_, ?_, fun b' h' hb' hbB' hh' hhH' hlen' hne => ?_⟩
  · have hsum0 := (total_eq_sum hplain hstart).1
    have h0 := (startSum_lt hplain hstart hb hbB.le).1
    rw [slice_rowBase hplain hv hstart hhead hs]
    positivity
  · rw [plain_allocRows hplain hv hstart hhead hp hH]
    exact slice_end_le hplain hv hstart hhead hs hhH
  · have hs' : Slice p b' h' := ⟨hb', hbB', hh', hhH', hlen'⟩
    rcases lt_trichotomy h h' with hlt | rfl | hlt
    · exact Or.inl (hfollow hs hs' (Or.inl hlt))
    · rcases lt_trichotomy b b' with hlt | rfl | hlt
      · exact Or.inl (hfollow hs hs' (Or.inr ⟨rfl, hlt⟩))
      · exact absurd rfl hne
      · exact Or.inr (hfollow hs' hs (Or.inr ⟨rfl, hlt⟩))
    · exact Or.inr (hfollow hs' hs (Or.inl hlt))

lemma plainFits_of_slicesFit (hv : p.varlenMode = true) (hfit : SlicesFit p) : PlainFits p := by
  intro b hb hbB hH hlen
  have hB := batch_nonneg hplain
  have hstart := earlyStarts_of_slicesFit hv hH hfit
  have h31 := (hstart b hb hbB hlen).2
  rw [start_eq_startSum hplain hstart hb hbB.le] at h31
  refine ⟨(hstart b hb hbB hlen).1, h31, ?_⟩
  by_contra hc
  push Not at hc
  have hbase : ∀ {b h}, 0 ≤ b → b < p.batch → 0 < seqLength p b →
      rowBase p b h = h * signed 26 p.varlenSeqs.sum + startSum p b := fun hb hbB hlen =>
    plain_rowBase hplain hv hstart _ hb hbB hlen
  -- every row of the first head is some sequence's
  have hslot : ∀ {x}, 0 ≤ x → x < p.varlenSeqs.sum → ∃ b, 0 ≤ b ∧ b < p.batch ∧ startSum p b ≤ x ∧
      x < startSum p b + seqLength p b := by
    intro x h0 hx
    obtain ⟨b, hb, hbB, hle, hlt⟩ := exists_slot (startSum p) hB (x := x) h0
      (by rwa [startSum_batch hplain])
    exact ⟨b, hb, hbB, hle, by rwa [← startSum_succ hb]⟩
  -- the second head begins in the first one, or before it
  obtain ⟨b₀, hb₀, hbB₀, hle₀, hlt₀⟩ := hslot (x := 0) le_rfl (by omega)
  have hzero : startSum p b₀ = 0 := le_antisymm hle₀ (startSum_lt hplain hstart hb₀ hbB₀.le).1
  have hlen₀ : 0 < seqLength p b₀ := by omega
  obtain ⟨-, h0, -, hapart⟩ := hfit b₀ 1 hb₀ hbB₀ (by norm_num) (by omega) hlen₀
  have hsecond : rowBase p b₀ 1 = signed 26 p.varlenSeqs.sum := by
    rw [hbase hb₀ hbB₀ hlen₀, one_mul, hzero, add_zero]
  have hw : signed 26 p.varlenSeqs.sum < 33554432 := (signed_mem (by norm_num) _).2
  rw [hsecond] at h0 hapart
  obtain ⟨b', hb', hbB', hle', hlt'⟩ := hslot h0 (by omega)
  have hfirst : rowBase p b' 0 = startSum p b' := by
    rw [hbase hb' hbB' (by omega), zero_mul, zero_add]
  have := hapart b' 0 hb' hbB' le_rfl hH (by omega) (by simp)
  rw [hfirst] at this
  omega

end Plain

/-! ### Both modes -/

/-- The rows of the problem fit. -/
def Fits (p : FmhaParams) : Prop := if p.varlenMode then VarlenFits p else DenseFits p

lemma rowsOk_iff {p : FmhaParams} (hp : Accepted p) : RowsOk p ↔ Fits p := by
  unfold Fits VarlenFits
  split_ifs with hv
  · rw [rowsOk_iff_slicesFit hp hv]
    by_cases hplain : Plain p
    · simp only [hplain, true_implies, not_true_eq_false, false_implies, and_true]
      exact ⟨plainFits_of_slicesFit hplain hv, slicesFit_of_plainFits hplain hp hv⟩
    · simp only [hplain, false_implies, true_and, not_false_eq_true, true_implies]
  · have hv' : p.varlenMode = false := by simpa using hv
    exact ⟨denseFits_of_rowsOk hp hv', rowsOk_of_denseFits hp hv'⟩

/-- **What the kernel supports** of what `parse_args` accepts: a head dimension of 64, head counts
of one sign, and rows that the 32-bit strides, starts and offsets keep apart. -/
theorem supported_iff {α β : Type*} [Fp α] (hQ hK hV : Mem β) {args : List Arg} {p : FmhaParams}
    (h : parseArgs args = some p) :
    Supported p (p.benchParams hQ hK hV : FmhaFwdParams α β) ↔
      p.headDim = 64 ∧ 0 < p.qHeads * p.kvHeads ∧ Fits p := by
  rw [supported_iff_rows (parseArgs_accepted h) (parseArgs_derived h), rowsOk_iff (parseArgs_accepted h)]

/-- The benchmark's defaults. -/
theorem supported_iff_default :
    ∃ p, parseArgs [] = some p ∧ Supported p
      (p.benchParams (fun _ => 0) (fun _ => 0) (fun _ => 0) : FmhaFwdParams XReal XReal) := by
  refine ⟨_, rfl, (supported_iff _ _ _ (rfl : parseArgs [] = some _)).mpr ⟨rfl, by decide, ?_⟩⟩
  exact fun _ _ _ => ⟨by decide, Or.inr (by decide), Or.inr (by decide)⟩

/-- Half the head dimension: each row runs on into the next one. -/
theorem supported_fails_hdim32 :
    ∃ p, parseArgs [.hdim 32] = some p ∧ ¬ Supported p
      (p.benchParams (fun _ => 0) (fun _ => 0) (fun _ => 0) : FmhaFwdParams XReal XReal) := by
  refine ⟨⟨2, 16, 16, 1, 4096, 4096, 32, 0, 0, 0, []⟩, rfl, fun hs => ?_⟩
  have hown : ∀ t : Thread, OwnsRow ⟨2, 16, 16, 1, 4096, 4096, 32, 0, 0, 0, []⟩ 0 0 0 t := by
    intro t
    have hm := mRow_lt t
    refine ⟨le_rfl, by norm_num, le_rfl, by norm_num, le_rfl, by decide, ?_⟩
    change 0 * kM0 + (mRow t : ℤ) < 4096
    rw [zero_mul]
    omega
  -- column 32 of row 0 is column 0 of row 1
  exact hs.apart 0 0 0 0 0 0 0 1 (hown 0) (hown 1) (by decide) 4 0 0 0 rfl

end FmhaNative.HostAdmission
