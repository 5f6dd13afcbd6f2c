import FmhaNative.Loops
import FmhaNative.OpSoftmax

/-!
The oracles of the components, on thread buffers.

A thread buffer `float[256 * 32]` holds 32 registers of each of 256 threads. Its oracle recovers
the row and the column of a slot from the thread and the register. Each oracle is seen here as a
function of the logical matrix that its input buffers hold.
-/

namespace FmhaNative.ComponentsRef

open OpGemm OpSoftmax Stores Loops Fp

/-- `for tid: for r: out[tid*32 + r] = f(tid, r)` -/
def fillSlots {α : Type*} (f : ℕ → ℕ → α) : ℕ → α := fun i => f (i / 32) (i % 32)

lemma fillSlots_apply {α : Type*} (f : ℕ → ℕ → α) (tid : ℕ) {r : ℕ} (hr : r < 32) :
    fillSlots f (tid * 32 + r) = f tid r := by
  unfold fillSlots
  congr 1 <;> omega

variable {α β : Type*}

/-! ### `ref_qk_gemm` -/

def qkRefMRow (tid : ℕ) : ℕ :=
  let warp := tid / 64
  let lane := tid % 64
  lane % 32 + 32 * warp

def qkRefNCol (tid r : ℕ) : ℕ :=
  let lane := tid % 64
  r / 8 * 16 + lane / 32 * 8 + r % 8

def refQkGemm [AddCommMonoid α] [Mul α] (bf : Bf16Conv α β) (q : Mem β) (strideQ seqlenQ : ℤ)
    (k : Mem β) (strideK seqlenK : ℤ) : ℕ → α :=
  fillSlots fun tid r =>
    let m := qkRefMRow tid
    let n := qkRefNCol tid r
    if (m : ℤ) < seqlenQ ∧ (n : ℤ) < seqlenK then
      sumLoop 64 fun d => bf.toFloat (q (m * strideQ + d)) * bf.toFloat (k (n * strideK + d))
    else 0

/-! ### `ref_softmax` -/

def softmaxNCol (tid r : ℕ) : ℕ :=
  let lane := tid % 64
  let kSub := lane >>> 5
  r / 8 * 16 + kSub * 8 + r % 8

def partnerTid (tid : ℕ) : ℕ :=
  let lane := tid % 64
  (tid ^^^ (tid &&& 63)) ||| ((lane ^^^ 32) &&& 63)

/-- What `ref_softmax` and its kernel write. -/
structure SoftmaxOut (α : Type*) where
  (pOut rmaxOut rsumOut : ℕ → α)

section Softmax

variable [Fp α]

def refMasked (sAcc : ℕ → α) (seqlenK kvOffset : ℤ) : ℕ → α :=
  fillSlots fun tid r =>
    if seqlenK - kvOffset ≤ softmaxNCol tid r then negInf else sAcc (tid * 32 + r)

/-- `exp2f` of one entry; a masked entry is tested for. -/
def softmaxProb (scaleLog2e s rmax : α) : α :=
  if eq s negInf then 0 else exp2f (scaleLog2e * sub s rmax)

def refSoftmax (bf : Bf16Conv α β) (sAcc : ℕ → α) (seqlenK kvOffset : ℤ) (scaleS : α) : SoftmaxOut α :=
  let scaleSLog2e := scaleS * log2e
  let sMasked := refMasked sAcc seqlenK kvOffset
  let localMax := fun tid => (List.range 32).foldl (fun lm r => fmaxf lm (sMasked (tid * 32 + r))) negInf
  let rmaxOut := fun tid => fmaxf (localMax tid) (localMax (partnerTid tid))
  let p := fillSlots fun tid r => softmaxProb scaleSLog2e (sMasked (tid * 32 + r)) (rmaxOut tid)
  let localSum := fun tid => sumLoop 32 fun r => p (tid * 32 + r)
  { pOut := fillSlots fun tid r => bf.toFloat (bf.ofFloat (p (tid * 32 + r)))
    rmaxOut := rmaxOut
    rsumOut := fun tid => localSum tid + localSum (partnerTid tid) }

end Softmax

/-! ### `ref_pv_gemm` -/

def getP (pAcc : ℕ → α) (m n : ℕ) : α :=
  let warp := m / 32
  let laneBase := m % 32
  let kSub := if n % 16 < 8 then 0 else 1
  let rGroup := n / 16
  let rWithin := if n % 16 < 8 then n % 8 else (n - 8) % 8
  let r := rGroup * 8 + rWithin
  let tid := warp * 64 + kSub * 32 + laneBase
  pAcc (tid * 32 + r)

def pvRefMRow (tid : ℕ) : ℕ :=
  let warp := tid / 64
  let lane := tid % 64
  lane % 32 + 32 * warp

def pvRefDCol (tid r : ℕ) : ℕ :=
  let lane := tid % 64
  let kSub := lane / 32
  let dNom := r / 8 * 16 + kSub * 8 + r % 8
  swz dNom

def refPvGemm [AddCommMonoid α] [Mul α] (bf : Bf16Conv α β) (pAcc : ℕ → α) (v : Mem β)
    (strideV seqlenK : ℤ) : ℕ → α :=
  fillSlots fun tid r =>
    let m := pvRefMRow tid
    let d := pvRefDCol tid r
    sumLoop 64 fun n =>
      getP pAcc m n * (if (n : ℤ) < seqlenK then bf.toFloat (v (n * strideV + d)) else 0)

/-! ### `ref_epilog` -/

section Epilog

variable [Fp α]

/-- `inv_rs` -/
def invRs (rs : α) : α := if eq rs 0 then 0 else recip rs

def refOFinal (oAcc rsum : ℕ → α) : ℕ → α :=
  fillSlots fun tid r => oAcc (tid * 32 + r) * invRs (rsum tid)

def refDramStores (bf : Bf16Conv α β) (oAcc rsum : ℕ → α) (seqlenQ : ℤ) : List (ℕ × α) :=
  (List.range 256).flatMap fun tid =>
    let warp := tid / 64
    let lane := tid % 64
    let kSub := lane / 32
    let mRow : ℕ := lane % 32 + 32 * warp
    if seqlenQ ≤ mRow then []
    else (List.range 32).map fun r =>
      let dNom := r / 8 * 16 + kSub * 8 + r % 8
      let dCol := swz dNom
      (mRow * 64 + dCol, bf.toFloat (bf.ofFloat (refOFinal oAcc rsum (tid * 32 + r))))

/-- `o_final` and `o_dram` -/
structure EpilogOut (α : Type*) where
  (oFinal oDram : ℕ → α)

def refEpilog (bf : Bf16Conv α β) (oAcc rsum : ℕ → α) (seqlenQ : ℤ) : EpilogOut α :=
  ⟨refOFinal oAcc rsum, stores (fun _ => 0) (refDramStores bf oAcc rsum seqlenQ)⟩

end Epilog

/-! ### The slots of a row -/

/-- The four formulas are one layout. -/
lemma softmaxNCol_eq (tid r : ℕ) : softmaxNCol tid r = qkRefNCol tid r := by
  simp only [softmaxNCol, qkRefNCol, Nat.shiftRight_eq_div_pow]

lemma pvRefMRow_eq (tid : ℕ) : pvRefMRow tid = qkRefMRow tid := rfl

lemma pvRefDCol_eq (tid r : ℕ) : pvRefDCol tid r = swz (qkRefNCol tid r) := rfl

lemma qkRefNCol_lt (tid : ℕ) {r : ℕ} (hr : r < 32) : qkRefNCol tid r < 64 := by
  simp only [qkRefNCol]
  omega

lemma qkRefMRow_lt {tid : ℕ} (ht : tid < 256) : qkRefMRow tid < 128 := by
  simp only [qkRefMRow]
  omega

/-- The thread of row `m` and half `h`. -/
def rowTid (m h : ℕ) : ℕ := m / 32 * 64 + h * 32 + m % 32

/-- The register of column `n`. -/
def colReg (n : ℕ) : ℕ := n / 16 * 8 + n % 8

lemma rowTid_lt {m h : ℕ} (hm : m < 128) (hh : h < 2) : rowTid m h < 256 := by
  unfold rowTid
  omega

lemma colReg_lt {n : ℕ} (hn : n < 64) : colReg n < 32 := by
  unfold colReg
  omega

lemma qkRefMRow_rowTid (m : ℕ) {h : ℕ} (hh : h < 2) : qkRefMRow (rowTid m h) = m := by
  simp only [qkRefMRow, rowTid]
  omega

lemma qkRefNCol_rowTid (m n : ℕ) : qkRefNCol (rowTid m (n / 8 % 2)) (colReg n) = n := by
  simp only [qkRefNCol, rowTid, colReg]
  omega

/-- A buffer holds the matrix `X`: the slot of thread `tid`, register `r` has the entry of the
thread's row. -/
def HoldsBuf (col : ℕ → ℕ → ℕ) (x : ℕ → α) (X : ℕ → ℕ → α) : Prop :=
  ∀ tid < 256, ∀ r < 32, x (tid * 32 + r) = X (qkRefMRow tid) (col tid r)

/-- `get_p` reads the slot of its row and column. -/
lemma getP_slot (p : ℕ → α) (m n : ℕ) : getP p m n = p (rowTid m (n / 8 % 2) * 32 + colReg n) := by
  simp only [getP, rowTid, colReg]
  congr 1
  split_ifs <;> omega

/-- A slot is known by its row and its column. -/
lemma slot_eq (tid r : ℕ) :
    tid = rowTid (qkRefMRow tid) (qkRefNCol tid r / 8 % 2) ∧ r = colReg (qkRefNCol tid r) := by
  simp only [qkRefMRow, qkRefNCol, rowTid, colReg]
  omega

lemma getP_eq {p : ℕ → α} {P : ℕ → ℕ → α} (hp : HoldsBuf qkRefNCol p P) {m n : ℕ} (hm : m < 128)
    (hn : n < 64) : getP p m n = P m n := by
  rw [getP_slot, hp _ (rowTid_lt hm (by omega)) _ (colReg_lt hn), qkRefMRow_rowTid m (by omega),
    qkRefNCol_rowTid]

/-- Every buffer holds the matrix that `get_p` reads from it. -/
lemma holds_getP (p : ℕ → α) : HoldsBuf qkRefNCol p (getP p) := by
  intro tid _ r _
  obtain ⟨ht, hr⟩ := slot_eq tid r
  rw [getP_slot, ← ht, ← hr]

/-- Two buffers that hold one matrix agree. -/
lemma HoldsBuf.eq {col : ℕ → ℕ → ℕ} {x y : ℕ → α} {X : ℕ → ℕ → α} (hx : HoldsBuf col x X)
    (hy : HoldsBuf col y X) {i : ℕ} (hi : i < 8192) : x i = y i := by
  have hslot : i = i / 32 * 32 + i % 32 := by omega
  rw [hslot, hx _ (by omega) _ (by omega), hy _ (by omega) _ (by omega)]

/-! ### The oracles on logical matrices -/

lemma refQkGemm_holds [AddCommMonoid α] [Mul α] (bf : Bf16Conv α β) (q : Mem β) (strideQ seqlenQ : ℤ)
    (k : Mem β) (strideK seqlenK : ℤ) :
    HoldsBuf qkRefNCol (refQkGemm bf q strideQ seqlenQ k strideK seqlenK) fun m n =>
      if (m : ℤ) < seqlenQ ∧ (n : ℤ) < seqlenK then
        ∑ d ∈ Finset.range 64, bf.toFloat (q (m * strideQ + d)) * bf.toFloat (k (n * strideK + d))
      else 0 := by
  intro tid _ r hr
  unfold refQkGemm
  rw [fillSlots_apply _ tid hr]
  simp only [sumLoop_eq]

section Softmax

variable [Fp α]

/-- The columns that half `h` of a row holds, in register order. -/
def halfCols (h : ℕ) : List ℕ := (List.range 32).map fun r => r / 8 * 16 + h * 8 + r % 8

lemma halfCols_perm {h : ℕ} (hh : h < 2) : (halfCols h ++ halfCols (1 - h)).Perm (List.range 64) := by
  interval_cases h <;> decide

/-- The half of the row that a thread holds. -/
def tidHalf (tid : ℕ) : ℕ := tid % 64 / 32

lemma tidHalf_lt (tid : ℕ) : tidHalf tid < 2 := by
  unfold tidHalf
  omega

/-- The partner holds the other half of the same row. -/
lemma partnerTid_spec : ∀ tid < 256, partnerTid tid < 256 ∧
    qkRefMRow (partnerTid tid) = qkRefMRow tid ∧ tidHalf (partnerTid tid) = 1 - tidHalf tid := by
  decide +kernel

omit [Fp α] in
/-- A fold over the registers of a thread is a fold over its columns. -/
lemma foldl_slots {γ : Type*} {x : ℕ → α} {X : ℕ → ℕ → α} (hx : HoldsBuf qkRefNCol x X) (f : γ → α → γ)
    (z : γ) {tid : ℕ} (ht : tid < 256) :
    (List.range 32).foldl (fun acc r => f acc (x (tid * 32 + r))) z
      = ((halfCols (tidHalf tid)).map (X (qkRefMRow tid))).foldl f z := by
  unfold halfCols
  rw [List.map_map, List.foldl_map]
  refine List.foldl_ext _ _ _ fun acc r hr => ?_
  rw [hx tid ht r (List.mem_range.mp hr)]
  rfl

/-- The scores after the mask. -/
def maskedMat (S : ℕ → ℕ → α) (seqlenK kvOffset : ℤ) (m n : ℕ) : α :=
  if seqlenK - kvOffset ≤ n then negInf else S m n

/-- The maximum of a row. -/
def rowMaxMat (S : ℕ → ℕ → α) (seqlenK kvOffset : ℤ) (m : ℕ) : α :=
  maxOver negInf ((List.range 64).map (maskedMat S seqlenK kvOffset m))

/-- The probabilities before truncation. -/
def probMat (S : ℕ → ℕ → α) (seqlenK kvOffset : ℤ) (scaleLog2e : α) (m n : ℕ) : α :=
  softmaxProb scaleLog2e (maskedMat S seqlenK kvOffset m n) (rowMaxMat S seqlenK kvOffset m)

variable {sAcc : ℕ → α} {S : ℕ → ℕ → α}

lemma refMasked_holds (hs : HoldsBuf qkRefNCol sAcc S) (seqlenK kvOffset : ℤ) :
    HoldsBuf qkRefNCol (refMasked sAcc seqlenK kvOffset) (maskedMat S seqlenK kvOffset) := by
  intro tid ht r hr
  unfold refMasked maskedMat
  rw [fillSlots_apply _ tid hr, softmaxNCol_eq, hs tid ht r hr]

lemma refSoftmax_rmax (bf : Bf16Conv α β) (hs : HoldsBuf qkRefNCol sAcc S) (seqlenK kvOffset : ℤ)
    (scaleS : α) {tid : ℕ} (ht : tid < 256) :
    (refSoftmax bf sAcc seqlenK kvOffset scaleS).rmaxOut tid
      = rowMaxMat S seqlenK kvOffset (qkRefMRow tid) := by
  obtain ⟨hp, hrow, hhalf⟩ := partnerTid_spec tid ht
  have hm := refMasked_holds hs seqlenK kvOffset
  simp only [refSoftmax]
  rw [foldl_slots hm fmaxf negInf ht, foldl_slots hm fmaxf negInf hp, hrow, hhalf]
  change fmaxf (maxOver _ _) (maxOver _ _) = _
  rw [maxOver_append, ← List.map_append]
  exact maxOver_perm _ ((halfCols_perm (tidHalf_lt tid)).map _)

/-- The probabilities before truncation, by slot. -/
lemma refProb_holds (bf : Bf16Conv α β) (hs : HoldsBuf qkRefNCol sAcc S) (seqlenK kvOffset : ℤ)
    (scaleS : α) :
    HoldsBuf qkRefNCol (fillSlots fun tid r => softmaxProb (scaleS * log2e)
        (refMasked sAcc seqlenK kvOffset (tid * 32 + r))
        ((refSoftmax bf sAcc seqlenK kvOffset scaleS).rmaxOut tid))
      (probMat S seqlenK kvOffset (scaleS * log2e)) := by
  intro tid ht r hr
  rw [fillSlots_apply _ tid hr, refSoftmax_rmax bf hs seqlenK kvOffset scaleS ht,
    refMasked_holds hs seqlenK kvOffset tid ht r hr]
  rfl

lemma refSoftmax_rsum (bf : Bf16Conv α β) (hs : HoldsBuf qkRefNCol sAcc S) (seqlenK kvOffset : ℤ)
    (scaleS : α) {tid : ℕ} (ht : tid < 256) :
    (refSoftmax bf sAcc seqlenK kvOffset scaleS).rsumOut tid
      = ∑ n ∈ Finset.range 64, probMat S seqlenK kvOffset (scaleS * log2e) (qkRefMRow tid) n := by
  obtain ⟨hp, hrow, hhalf⟩ := partnerTid_spec tid ht
  have hprob := refProb_holds bf hs seqlenK kvOffset scaleS
  have hsum : ∀ {u : ℕ}, u < 256 → sumLoop 32 (fun r => (fillSlots fun tid r =>
      softmaxProb (scaleS * log2e) (refMasked sAcc seqlenK kvOffset (tid * 32 + r))
        ((refSoftmax bf sAcc seqlenK kvOffset scaleS).rmaxOut tid)) (u * 32 + r))
      = ((halfCols (tidHalf u)).map
          (probMat S seqlenK kvOffset (scaleS * log2e) (qkRefMRow u))).sum := by
    intro u hu
    unfold sumLoop
    rw [foldl_slots hprob (fun acc y => acc + y) 0 hu, List.foldl_map, foldl_add_eq_sum, zero_add]
  refine (congrArg₂ (· + ·) (hsum ht) (hsum hp)).trans ?_
  rw [hrow, hhalf, ← List.sum_append, ← List.map_append, ((halfCols_perm (tidHalf_lt tid)).map _).sum_eq,
    ← Multiset.sum_coe, ← Multiset.map_coe]
  rfl

lemma refSoftmax_holds (bf : Bf16Conv α β) (hs : HoldsBuf qkRefNCol sAcc S) (seqlenK kvOffset : ℤ)
    (scaleS : α) :
    HoldsBuf qkRefNCol (refSoftmax bf sAcc seqlenK kvOffset scaleS).pOut fun m n =>
      bf.toFloat (bf.ofFloat (probMat S seqlenK kvOffset (scaleS * log2e) m n)) := by
  intro tid ht r hr
  have h := refProb_holds bf hs seqlenK kvOffset scaleS tid ht r hr
  simp only [refSoftmax] at h ⊢
  rw [fillSlots_apply _ tid hr]
  exact congrArg (fun y => bf.toFloat (bf.ofFloat y)) h

end Softmax

lemma refPvGemm_holds [AddCommMonoid α] [Mul α] (bf : Bf16Conv α β) {pAcc : ℕ → α} {P : ℕ → ℕ → α}
    (hp : HoldsBuf qkRefNCol pAcc P) (v : Mem β) (strideV seqlenK : ℤ) :
    HoldsBuf pvRefDCol (refPvGemm bf pAcc v strideV seqlenK) fun m d =>
      ∑ n ∈ Finset.range 64,
        P m n * (if (n : ℤ) < seqlenK then bf.toFloat (v (n * strideV + d)) else 0) := by
  intro tid ht r hr
  unfold refPvGemm
  rw [fillSlots_apply _ tid hr]
  simp only [sumLoop_eq]
  refine Finset.sum_congr rfl fun n hn => ?_
  rw [pvRefMRow_eq, getP_eq hp (qkRefMRow_lt ht) (Finset.mem_range.mp hn)]

section Epilog

/-- Swapping two bits twice. -/
lemma swz_swz : ∀ x < 64, swz (swz x) = x ∧ swz x < 64 := by decide

/-- The element of `o_dram` that a slot goes to. -/
def dramSlot (tid r : ℕ) : ℕ := qkRefMRow tid * 64 + pvRefDCol tid r

lemma pvRefDCol_lt (tid : ℕ) {r : ℕ} (hr : r < 32) : pvRefDCol tid r < 64 :=
  (swz_swz _ (qkRefNCol_lt tid hr)).2

lemma dramSlot_inj {tid r tid' r' : ℕ} (hr : r < 32) (hr' : r' < 32)
    (h : dramSlot tid r = dramSlot tid' r') : tid = tid' ∧ r = r' := by
  unfold dramSlot at h
  have hd := pvRefDCol_lt tid hr
  have hd' := pvRefDCol_lt tid' hr'
  have hm : qkRefMRow tid = qkRefMRow tid' := by omega
  have hn : qkRefNCol tid r = qkRefNCol tid' r' := by
    have hswz : swz (qkRefNCol tid r) = swz (qkRefNCol tid' r') := by
      rw [← pvRefDCol_eq, ← pvRefDCol_eq]
      omega
    rw [← (swz_swz _ (qkRefNCol_lt tid hr)).1, hswz, (swz_swz _ (qkRefNCol_lt tid' hr')).1]
  obtain ⟨ht, hr1⟩ := slot_eq tid r
  obtain ⟨ht', hr1'⟩ := slot_eq tid' r'
  constructor
  · rw [ht, hm, hn, ← ht']
  · rw [hr1, hn, ← hr1']

/-- Every element of a row is some slot's. -/
lemma exists_dramSlot {m d : ℕ} (hm : m < 128) (hd : d < 64) :
    ∃ tid < 256, ∃ r < 32, qkRefMRow tid = m ∧ pvRefDCol tid r = d := by
  obtain ⟨hswz, hlt⟩ := swz_swz d hd
  refine ⟨rowTid m (swz d / 8 % 2), rowTid_lt hm (by omega), colReg (swz d), colReg_lt hlt,
    qkRefMRow_rowTid m (by omega), ?_⟩
  rw [pvRefDCol_eq, qkRefNCol_rowTid, hswz]

variable [Fp α]

lemma mem_refDramStores {bf : Bf16Conv α β} {oAcc rsum : ℕ → α} {seqlenQ : ℤ} {a : ℕ} {x : α} :
    (a, x) ∈ refDramStores bf oAcc rsum seqlenQ ↔
      ∃ tid < 256, ∃ r < 32, (qkRefMRow tid : ℤ) < seqlenQ ∧ a = dramSlot tid r ∧
        x = bf.toFloat (bf.ofFloat (oAcc (tid * 32 + r) * invRs (rsum tid))) := by
  simp only [refDramStores, List.mem_flatMap, List.mem_range, ← not_lt, ite_not]
  refine exists_congr fun tid => and_congr_right fun _ => ?_
  change (a, x) ∈ (if (qkRefMRow tid : ℤ) < seqlenQ then _ else _) ↔ _
  split_ifs with hrow
  · simp only [List.mem_map, List.mem_range, Prod.mk.injEq, hrow, true_and]
    refine exists_congr fun r => and_congr_right fun hr => ?_
    rw [eq_comm, @eq_comm _ _ x, refOFinal, fillSlots_apply _ tid hr]
    rfl
  · simp only [List.not_mem_nil, hrow, false_and, and_false, exists_false]

lemma refDramStores_fst (bf : Bf16Conv α β) (oAcc rsum : ℕ → α) (seqlenQ : ℤ) :
    (refDramStores bf oAcc rsum seqlenQ).map Prod.fst
      = (List.range 256).flatMap fun tid =>
          if seqlenQ ≤ qkRefMRow tid then [] else (List.range 32).map (dramSlot tid) := by
  unfold refDramStores
  rw [List.map_flatMap]
  refine List.flatMap_congr fun tid _ => ?_
  change List.map Prod.fst (if seqlenQ ≤ qkRefMRow tid then [] else _) = _
  split_ifs
  · rfl
  · rw [List.map_map]
    rfl

/-- No element is written twice. -/
lemma nodup_refDramStores (bf : Bf16Conv α β) (oAcc rsum : ℕ → α) (seqlenQ : ℤ) :
    ((refDramStores bf oAcc rsum seqlenQ).map Prod.fst).Nodup := by
  rw [refDramStores_fst, List.nodup_flatMap]
  constructor
  · intro tid _
    split_ifs
    · exact List.nodup_nil
    · exact List.nodup_range.map_on fun r hr r' hr' h =>
        (dramSlot_inj (List.mem_range.mp hr) (List.mem_range.mp hr') h).2
  · refine List.nodup_range.pairwise_of_forall_ne fun tid _ tid' _ hne => ?_
    simp only [Function.onFun]
    split_ifs
    · exact List.disjoint_nil_left _
    · exact List.disjoint_nil_left _
    · exact List.disjoint_nil_right _
    · intro a ha ha'
      obtain ⟨r, hr, rfl⟩ := List.mem_map.mp ha
      obtain ⟨r', hr', h⟩ := List.mem_map.mp ha'
      exact hne (dramSlot_inj (List.mem_range.mp hr') (List.mem_range.mp hr) h).1.symm

/-- An element of `o_dram` holds the entry of its slot. -/
lemma refEpilog_slot (bf : Bf16Conv α β) (oAcc rsum : ℕ → α) {seqlenQ : ℤ} {tid r : ℕ} (ht : tid < 256)
    (hr : r < 32) (hrow : (qkRefMRow tid : ℤ) < seqlenQ) :
    (refEpilog bf oAcc rsum seqlenQ).oDram (dramSlot tid r)
      = bf.toFloat (bf.ofFloat (oAcc (tid * 32 + r) * invRs (rsum tid))) := by
  refine stores_of_mem (mem_refDramStores.mpr ⟨tid, ht, r, hr, hrow, rfl, rfl⟩) fun x hx => ?_
  obtain ⟨u, -, s, hs, -, ha, rfl⟩ := mem_refDramStores.mp hx
  obtain ⟨rfl, rfl⟩ := dramSlot_inj hr hs ha
  rfl

/-- **The stored rows**: each element once, the normalised entry truncated. -/
lemma refEpilog_dram (bf : Bf16Conv α β) {oAcc rsum : ℕ → α} {O : ℕ → ℕ → α} {Z : ℕ → α}
    (ho : HoldsBuf pvRefDCol oAcc O) (hz : ∀ tid < 256, rsum tid = Z (qkRefMRow tid)) {seqlenQ : ℤ}
    {m d : ℕ} (hm : m < 128) (hmq : (m : ℤ) < seqlenQ) (hd : d < 64) :
    ((refDramStores bf oAcc rsum seqlenQ).map Prod.fst).count (m * 64 + d) = 1 ∧
      (refEpilog bf oAcc rsum seqlenQ).oDram (m * 64 + d)
        = bf.toFloat (bf.ofFloat (O m d * invRs (Z m))) := by
  obtain ⟨tid, ht, r, hr, rfl, rfl⟩ := exists_dramSlot hm hd
  have hmem : (dramSlot tid r, bf.toFloat (bf.ofFloat (oAcc (tid * 32 + r) * invRs (rsum tid))))
      ∈ refDramStores bf oAcc rsum seqlenQ :=
    mem_refDramStores.mpr ⟨tid, ht, r, hr, hmq, rfl, rfl⟩
  refine ⟨List.count_eq_one_of_mem (nodup_refDramStores bf oAcc rsum seqlenQ)
    (List.mem_map.mpr ⟨_, hmem, rfl⟩), ?_⟩
  rw [← ho tid ht r hr, ← hz tid ht]
  exact refEpilog_slot bf oAcc rsum ht hr hmq

end Epilog

end FmhaNative.ComponentsRef
