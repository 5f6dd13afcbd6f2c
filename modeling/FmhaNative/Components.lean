import FmhaNative.ComponentsRef
import FmhaNative.LdsImages
import FmhaNative.RowRecurrence

/-!
The compute components, each against its oracle on every input.

The two matrix products hold the logical matrix that their oracle holds, in the same slots; the
softmax and the epilogue run the oracle's own folds, thread by thread.
-/

namespace FmhaNative.Components

open OpLds OpGemm OpSoftmax Staging Stores Fp LdsImages ComponentsRef RowRecurrence

variable {R α β : Type*}

/-! ### The thread buffer -/

/-- `out[tid*32 + r] = lo[r]; out[tid*32 + 16 + r] = hi[r];` -/
def dumpAcc (out : ℕ → α) (acc : (Thread → V16f α) × (Thread → V16f α)) : ℕ → α :=
  stores out ((List.finRange 256).flatMap fun tid : Thread => (List.finRange 16).flatMap fun r =>
    [(tid.val * 32 + r.val, acc.1 tid r), (tid.val * 32 + 16 + r.val, acc.2 tid r)])

/-- `out[tid*32 + r] = f[r];` -/
def dumpSlots (out : ℕ → α) (f : Thread → Fin 32 → α) : ℕ → α :=
  stores out ((List.finRange 256).flatMap fun tid : Thread => (List.finRange 32).map fun r =>
    (tid.val * 32 + r.val, f tid r))

/-- `out[tid] = f;` -/
def dumpThreads (out : ℕ → α) (f : Thread → α) : ℕ → α :=
  stores out ((List.finRange 256).map fun tid : Thread => (tid.val, f tid))

lemma dumpSlots_apply (out : ℕ → α) (f : Thread → Fin 32 → α) (t : Thread) (r : Fin 32) :
    dumpSlots out f (t.val * 32 + r.val) = f t r := by
  refine stores_of_mem ?_ fun x hx => ?_
  · simp only [List.mem_flatMap, List.mem_finRange, true_and, List.mem_map]
    exact ⟨t, r, rfl⟩
  · simp only [List.mem_flatMap, List.mem_finRange, true_and, List.mem_map, Prod.mk.injEq] at hx
    obtain ⟨u, i, ha, rfl⟩ := hx
    obtain ⟨rfl, rfl⟩ : u = t ∧ i = r := by
      constructor <;> ext <;> omega
    rfl

lemma dumpThreads_apply (out : ℕ → α) (f : Thread → α) (t : Thread) : dumpThreads out f t.val = f t := by
  refine stores_of_mem (List.mem_map.mpr ⟨t, List.mem_finRange t, rfl⟩) fun x hx => ?_
  obtain ⟨u, -, h⟩ := List.mem_map.mp hx
  obtain ⟨hu, rfl⟩ := Prod.mk.inj h
  rw [Fin.ext hu]

/-- A loop over the registers of a thread. -/
lemma foldl_finRange {γ : Type*} (n : ℕ) (f : γ → ℕ → γ) (z : γ) :
    (List.finRange n).foldl (fun acc r => f acc r.val) z = (List.range n).foldl f z := by
  rw [← List.map_coe_finRange_eq_range, List.foldl_map]

lemma mRow_eq_ref (t : Thread) : mRow t = qkRefMRow t := by
  rw [mRow_eq, qkRefMRow]
  omega

/-- Accumulators that hold the two halves of a matrix, in the slots of a buffer. -/
lemma dumpAcc_holds {col : Thread → Fin 16 → ℕ} {bufCol : ℕ → ℕ → ℕ}
    (hcol : ∀ (t : Thread) (r : Fin 16), bufCol t r = col t r ∧ bufCol t (16 + r) = 32 + col t r)
    {acc : (Thread → V16f α) × (Thread → V16f α)} {X : ℕ → ℕ → α} (h0 : Holds col acc.1 X)
    (h1 : Holds col acc.2 fun m n => X m (32 + n)) (out : ℕ → α) :
    HoldsBuf bufCol (dumpAcc out acc) X := by
  intro tid ht r hr
  -- each store carries the entry of its slot
  have hval : ∀ x, (tid * 32 + r, x) ∈ ((List.finRange 256).flatMap fun tid : Thread =>
      (List.finRange 16).flatMap fun r => [(tid.val * 32 + r.val, acc.1 tid r),
        (tid.val * 32 + 16 + r.val, acc.2 tid r)]) → x = X (qkRefMRow tid) (bufCol tid r) := by
    intro x hx
    simp only [List.mem_flatMap, List.mem_finRange, true_and, List.mem_cons, List.not_mem_nil, or_false,
      Prod.mk.injEq] at hx
    obtain ⟨t, i, ⟨ha, rfl⟩ | ⟨ha, rfl⟩⟩ := hx
    · obtain ⟨rfl, rfl⟩ : tid = t.val ∧ r = i.val := by omega
      rw [h0 t i, mRow_eq_ref, (hcol t i).1]
    · obtain ⟨rfl, rfl⟩ : tid = t.val ∧ r = 16 + i.val := by omega
      rw [h1 t i, mRow_eq_ref, (hcol t i).2]
  have hmem : ∃ x, (tid * 32 + r, x) ∈ ((List.finRange 256).flatMap fun tid : Thread =>
      (List.finRange 16).flatMap fun r => [(tid.val * 32 + r.val, acc.1 tid r),
        (tid.val * 32 + 16 + r.val, acc.2 tid r)]) := by
    simp only [List.mem_flatMap, List.mem_finRange, true_and, List.mem_cons, List.not_mem_nil, or_false,
      Prod.mk.injEq]
    by_cases hlo : r < 16
    · exact ⟨_, ⟨tid, ht⟩, ⟨r, hlo⟩, Or.inl ⟨rfl, rfl⟩⟩
    · exact ⟨_, ⟨tid, ht⟩, ⟨r - 16, by omega⟩, Or.inr ⟨by simp only; omega, rfl⟩⟩
  obtain ⟨x, hx⟩ := hmem
  refine stores_of_mem (hval x hx ▸ hx) hval

/-- The columns of a score buffer. -/
lemma qkRefNCol_regs (t : Thread) (r : Fin 16) :
    qkRefNCol t r = nCol t r ∧ qkRefNCol t (16 + r) = 32 + nCol t r := by
  constructor
  · simp only [qkRefNCol, nCol, kSub_eq]
  · simp only [qkRefNCol, nCol, kSub_eq]
    omega

lemma swz_cols : ∀ r < 16, ∀ k < 2,
    swz (r / 8 * 16 + k * 8 + r % 8) = r / 4 * 8 + k * 4 + r % 4 ∧
      swz ((16 + r) / 8 * 16 + k * 8 + (16 + r) % 8) = 32 + (r / 4 * 8 + k * 4 + r % 4) := by
  decide

/-- The columns of an output buffer. -/
lemma pvRefDCol_regs (t : Thread) (r : Fin 16) :
    pvRefDCol t r = dCol t r ∧ pvRefDCol t (16 + r) = 32 + dCol t r := by
  have h := swz_cols r r.isLt (kSub t) (kSub_lt t)
  simp only [pvRefDCol, dCol, accRow, ← kSub_eq_lane]
  rwa [← kSub_eq t]

lemma pair_lt (b i : Fin 2) : b.val * 2 + i.val < 4 := by omega

/-- The second of a pair of numbers below two, counted with the first. -/
def pairIdx (b i : Fin 2) : Fin 4 := ⟨b.val * 2 + i.val, pair_lt b i⟩

/-- Four steps are two pairs. -/
lemma foldl_pairs {σ : Type*} (f : σ → Fin 4 → σ) (s : σ) :
    (List.finRange 4).foldl f s = (List.finRange 2).foldl (fun s i => f s (pairIdx 1 i))
      ((List.finRange 2).foldl (fun s i => f s (pairIdx 0 i)) s) := rfl

/-! ### `test_qk_gemm_kernel` -/

section Qk

variable [Zero β]

def qkKLdsOffset (j d : ℕ) : ℕ := kLdsOffsetElems j d

/-- The K staging of the LDS component. -/
def qkStageK (k : Mem β) (strideK kvOffset seqlenK : ℤ) : List (ℤ × β) :=
  stageK k strideK kvOffset seqlenK

/-- `q_regs` -/
def qkQRegs (q : Mem β) (strideQ seqlenQ : ℤ) (t : Thread) (kstep : Fin 4) : V4i β :=
  if (mRow t : ℤ) < seqlenQ then
    let hd := kstep.val * 16 + kSub t * 8
    loadB128 q (mRow t * (strideQ * 2) + hd * 2)
  else fun _ => ⟨0, 0⟩

/-- One `kstep`: two passes over both n-tiles. -/
def qkStep [AddCommMonoid R] [Mul R] (bf : Bf16Conv R β) (smem : Mem β)
    (qRegs : Thread → Fin 4 → V4i β) (s : (Thread → V16f R) × (Thread → V16f R)) (kstep : Fin 4) :
    (Thread → V16f R) × (Thread → V16f R) :=
  let seqk0 := fun t => swz (laneId t &&& 31)
  let seqk1 := fun t => 32 + swz (laneId t &&& 31)
  let dBase := fun t => kstep.val * 16 + kSub t * 8
  let k0 := fun t => loadB128 smem (qkKLdsOffset (seqk0 t) (dBase t) * 2)
  let k1 := fun t => loadB128 smem (qkKLdsOffset (seqk1 t) (dBase t) * 2)
  let q := fun t => qRegs t kstep
  let b0 := fun t => packShort4 (q t 0) (q t 1)
  let b1 := fun t => packShort4 (q t 2) (q t 3)
  let s := (mfma bf (fun t => packShort4 (k0 t 0) (k0 t 1)) b0 s.1,
    mfma bf (fun t => packShort4 (k1 t 0) (k1 t 1)) b0 s.2)
  (mfma bf (fun t => packShort4 (k0 t 2) (k0 t 3)) b1 s.1,
    mfma bf (fun t => packShort4 (k1 t 2) (k1 t 3)) b1 s.2)

def testQkGemmKernel [AddCommMonoid R] [Mul R] (bf : Bf16Conv R β) (q k : Mem β) (out : ℕ → R)
    (smem : Mem β) (strideQ strideK seqlenQ seqlenK : ℤ) : ℕ → R :=
  let smem := stores (zeroRegion smem) (qkStageK k strideK 0 seqlenK)
  let qRegs := qkQRegs q strideQ seqlenQ
  dumpAcc out ((List.finRange 4).foldl (qkStep bf smem qRegs) (fun _ => clearAcc, fun _ => clearAcc))

omit [Zero β] in
/-- A read of the K region is a read of one of two head-dimension buffers. -/
lemma loadB128_qk (smem : Mem β) (j : ℕ) (t : Thread) (b kstep : Fin 2) :
    loadB128 smem (qkKLdsOffset j ((pairIdx b kstep).val * 16 + kSub t * 8) * 2)
      = loadB128 smem (bufBaseBytes b.val + ldsElemOffset j (kstep.val * 16 + kSub t * 8) * 2) := by
  have hk := kSub_lt t
  congr 1
  simp only [pairIdx, qkKLdsOffset, kLdsOffsetElems, bufBaseBytes, ldsElemOffset]
  push_cast
  omega

omit [Zero β] in
/-- The ksteps of a half are a sub-tile call of the fused kernel. -/
lemma foldl_qkStep [AddCommMonoid R] [Mul R] (bf : Bf16Conv R β) (smem : Mem β)
    (qRegs : Thread → Fin 4 → V4i β) (s : (Thread → V16f R) × (Thread → V16f R)) (b : Fin 2) :
    (List.finRange 2).foldl (fun s kstep => qkStep bf smem qRegs s (pairIdx b kstep)) s
      = gemm0Subtile bf s.1 s.2 (sliceQ qRegs b) smem b.val := by
  unfold gemm0Subtile qkStep sliceQ
  simp only [loadB128_qk]
  rfl

omit [Zero β] in
lemma foldl_qkSteps [AddCommMonoid R] [Mul R] (bf : Bf16Conv R β) (smem : Mem β)
    (qRegs : Thread → Fin 4 → V4i β) (s : (Thread → V16f R) × (Thread → V16f R)) :
    (List.finRange 4).foldl (qkStep bf smem qRegs) s
      = let s := gemm0Subtile bf s.1 s.2 (sliceQ qRegs 0) smem 0
        gemm0Subtile bf s.1 s.2 (sliceQ qRegs 1) smem 1 := by
  have h0 := foldl_qkStep bf smem qRegs s 0
  rw [foldl_pairs, h0]
  exact foldl_qkStep bf smem qRegs _ 1

/-- The query rows inside the sequence. -/
lemma qkQRegs_rows (q : Mem β) (strideQ seqlenQ : ℤ) :
    HoldsRows (qkQRegs q strideQ seqlenQ) fun m d =>
      if (m : ℤ) < seqlenQ then q (m * strideQ + d) else 0 := by
  have h := loadQ_rows q strideQ seqlenQ 0
  intro t kstep x hx
  have ht := h t kstep x hx
  simp only [paddedQ, zero_mul, zero_add] at ht
  refine Eq.trans ?_ ht
  congr 1
  simp only [qkQRegs, Pipeline.loadQ, Pipeline.qVoff, Pipeline.qCol, zero_mul, zero_add]

/-- **`S = Q * K^T`**: the kernel and its oracle hold one matrix. -/
lemma testQkGemmKernel_holds [CommRing R] (bf : Bf16 R β) (q k : Mem β) (out : ℕ → R) (smem : Mem β)
    (strideQ strideK seqlenQ seqlenK : ℤ) :
    HoldsBuf qkRefNCol
      (testQkGemmKernel bf.toBf16Conv q k out smem strideQ strideK seqlenQ seqlenK) fun m n =>
        if (m : ℤ) < seqlenQ ∧ (n : ℤ) < seqlenK then
          ∑ d ∈ Finset.range 64, bf.toFloat (q (m * strideQ + d)) * bf.toFloat (k (n * strideK + d))
        else 0 := by
  have himage := stageK_isImage k smem strideK 0 seqlenK
  have hq := qkQRegs_rows q strideQ seqlenQ
  have hk : ∀ b : Fin 2, ∀ j < 64, ∀ d < 32,
      stores (zeroRegion smem) (qkStageK k strideK 0 seqlenK)
        (bufBaseElems b.val + ldsElemOffset j d)
      = if (j : ℤ) < seqlenK then k (j * strideK + (32 * b.val + d : ℕ)) else 0 := by
    intro b j hj d hd
    have hslot : bufBaseElems b.val + ldsElemOffset j d = (kLdsOffsetElems j (32 * b.val + d) : ℕ) := by
      simp only [bufBaseElems, ldsElemOffset, kLdsOffsetElems]
      push_cast
      omega
    rw [hslot, qkStageK, himage.data j hj _ (by omega), zero_add, kTile, zero_add]
  obtain ⟨h0, h1⟩ : _ ∧ _ := gemm0_holds bf.toBf16Conv hq.slice0 hq.slice1
    (K := fun j d => if (j : ℤ) < seqlenK then k (j * strideK + d) else 0)
    (by simpa using hk 0) (by simpa using hk 1)
  have hS : (fun m n : ℕ => ∑ d ∈ Finset.range 64,
        bf.toFloat (if (n : ℤ) < seqlenK then k (n * strideK + d) else 0) *
          bf.toFloat (if (m : ℤ) < seqlenQ then q (m * strideQ + d) else 0))
      = fun m n : ℕ => if (m : ℤ) < seqlenQ ∧ (n : ℤ) < seqlenK then
          ∑ d ∈ Finset.range 64, bf.toFloat (q (m * strideQ + d)) * bf.toFloat (k (n * strideK + d))
        else 0 := by
    funext m n
    by_cases hm : (m : ℤ) < seqlenQ <;> by_cases hn : (n : ℤ) < seqlenK <;>
      simp only [hm, hn, if_true, if_false, and_self, and_true, and_false, bf.toFloat_zero, mul_zero,
        zero_mul, Finset.sum_const_zero, mul_comm]
  unfold testQkGemmKernel
  simp only [foldl_qkSteps]
  rw [← hS]
  exact dumpAcc_holds qkRefNCol_regs h0 h1 out

end Qk

/-! ### `test_softmax_kernel` -/

section Softmax

variable [Fp α]

/-- `sm_bpermute` -/
def smBpermute (srcLane : Thread → ℕ) (val : Thread → α) : Thread → α := bpermuteF32 srcLane val

def bf16TruncDev (bf : Bf16Conv α β) (v : α) : α := bf.toFloat (bf.ofFloat v)

/-- `partner` -/
def smPartner (t : Thread) : ℕ := (t.val ^^^ (t.val &&& 63)) ||| ((laneId t ^^^ 32) &&& 63)

/-- `s`, after the mask -/
def smMasked (sAcc : ℕ → α) (seqlenK kvOffset : ℤ) (t : Thread) (r : Fin 32) : α :=
  let tileCols := seqlenK - kvOffset
  let nCol : ℕ := r.val / 8 * 16 + kSub t * 8 + r.val % 8
  if tileCols ≤ nCol then negInf else sAcc (t.val * 32 + r.val)

/-- `p` -/
def smProb (scaleSLog2e s rmax : α) : α :=
  if eq s negInf then 0
  else
    let arg := scaleSLog2e * sub s rmax
    exp2f arg

def testSoftmaxKernel (bf : Bf16Conv α β) (sAcc : ℕ → α) (out : SoftmaxOut α) (seqlenK kvOffset : ℤ)
    (scaleS : α) : SoftmaxOut α :=
  let scaleSLog2e := scaleS * log2e
  let s := smMasked sAcc seqlenK kvOffset
  let localMax := fun t => (List.finRange 32).foldl (fun m r => fmaxf m (s t r)) negInf
  let otherMax := smBpermute smPartner localMax
  let rmax := fun t => fmaxf (localMax t) (otherMax t)
  let p := fun t r => smProb scaleSLog2e (s t r) (rmax t)
  let localSum := fun t => (List.finRange 32).foldl (fun acc r => acc + p t r) 0
  let otherSum := smBpermute smPartner localSum
  { pOut := dumpSlots out.pOut fun t r => bf16TruncDev bf (p t r)
    rmaxOut := dumpThreads out.rmaxOut rmax
    rsumOut := dumpThreads out.rsumOut fun t => localSum t + otherSum t }

/-- The exchange reaches the thread that the oracle reads. -/
lemma inWave_smPartner : ∀ t : Thread, (inWave t (smPartner t)).val = partnerTid t.val := by
  decide +kernel

lemma smMasked_eq (sAcc : ℕ → α) (seqlenK kvOffset : ℤ) (t : Thread) (r : Fin 32) :
    smMasked sAcc seqlenK kvOffset t r = refMasked sAcc seqlenK kvOffset (t.val * 32 + r.val) := by
  unfold refMasked
  rw [fillSlots_apply _ _ r.isLt, softmaxNCol_eq]
  simp only [smMasked, qkRefNCol, kSub_eq]
  rfl

/-- The registers of the oracle's thread buffer, seen by a thread. -/
lemma smProb_eq (sAcc : ℕ → α) (seqlenK kvOffset : ℤ) (scaleS : α) (rmax : ℕ → α)
    (t : Thread) (r : Fin 32) :
    smProb (scaleS * log2e) (smMasked sAcc seqlenK kvOffset t r) (rmax t.val)
      = fillSlots (fun tid r => softmaxProb (scaleS * log2e)
          (refMasked sAcc seqlenK kvOffset (tid * 32 + r)) (rmax tid)) (t.val * 32 + r.val) := by
  rw [fillSlots_apply _ _ r.isLt, smMasked_eq]
  rfl

/-- **The softmax** runs the folds of its oracle. -/
lemma testSoftmaxKernel_eq (bf : Bf16Conv α β) (sAcc : ℕ → α) (out : SoftmaxOut α)
    (seqlenK kvOffset : ℤ) (scaleS : α) (t : Thread) :
    (∀ r : Fin 32, (testSoftmaxKernel bf sAcc out seqlenK kvOffset scaleS).pOut (t.val * 32 + r.val)
      = (refSoftmax bf sAcc seqlenK kvOffset scaleS).pOut (t.val * 32 + r.val)) ∧
    (testSoftmaxKernel bf sAcc out seqlenK kvOffset scaleS).rmaxOut t.val
      = (refSoftmax bf sAcc seqlenK kvOffset scaleS).rmaxOut t.val ∧
    (testSoftmaxKernel bf sAcc out seqlenK kvOffset scaleS).rsumOut t.val
      = (refSoftmax bf sAcc seqlenK kvOffset scaleS).rsumOut t.val := by
  have hlocal : ∀ u : Thread, (List.finRange 32).foldl
      (fun m r => fmaxf m (smMasked sAcc seqlenK kvOffset u r)) negInf
      = (List.range 32).foldl
          (fun lm r => fmaxf lm (refMasked sAcc seqlenK kvOffset (u.val * 32 + r))) negInf := by
    intro u
    simp only [smMasked_eq]
    exact foldl_finRange 32 (fun m r => fmaxf m (refMasked sAcc seqlenK kvOffset (u.val * 32 + r))) negInf
  have hmax : ∀ u : Thread, fmaxf ((List.finRange 32).foldl
        (fun m r => fmaxf m (smMasked sAcc seqlenK kvOffset u r)) negInf)
      (smBpermute smPartner (fun u => (List.finRange 32).foldl
        (fun m r => fmaxf m (smMasked sAcc seqlenK kvOffset u r)) negInf) u)
      = (refSoftmax bf sAcc seqlenK kvOffset scaleS).rmaxOut u.val := by
    intro u
    simp only [smBpermute, bpermuteF32, hlocal, inWave_smPartner, refSoftmax]
  have hprob := smProb_eq sAcc seqlenK kvOffset scaleS
    (refSoftmax bf sAcc seqlenK kvOffset scaleS).rmaxOut
  have hsum : ∀ u : Thread, (List.finRange 32).foldl (fun acc r => acc + smProb (scaleS * log2e)
        (smMasked sAcc seqlenK kvOffset u r)
        ((refSoftmax bf sAcc seqlenK kvOffset scaleS).rmaxOut u.val)) 0
      = Loops.sumLoop 32 fun r => fillSlots (fun tid r => softmaxProb (scaleS * log2e)
          (refMasked sAcc seqlenK kvOffset (tid * 32 + r))
          ((refSoftmax bf sAcc seqlenK kvOffset scaleS).rmaxOut tid)) (u.val * 32 + r) := by
    intro u
    simp only [hprob]
    exact foldl_finRange 32 (fun acc r => acc + fillSlots _ (u.val * 32 + r)) 0
  refine ⟨fun r => ?_, ?_, ?_⟩
  · simp only [testSoftmaxKernel, dumpSlots_apply, hmax, hprob]
    simp only [refSoftmax, fillSlots_apply _ _ r.isLt]
    rfl
  · simp only [testSoftmaxKernel, dumpThreads_apply, hmax]
  · simp only [testSoftmaxKernel, dumpThreads_apply, hmax]
    simp only [smBpermute, bpermuteF32, hsum]
    rw [inWave_smPartner]
    rfl

end Softmax

/-! ### `test_pv_gemm_kernel` -/

section Pv

variable [Zero β]

/-- The two 32-row slices of V, in the buffers at `kVBuf0` and `kVBuf1`. -/
def pvStageV (smem v : Mem β) (strideV seqlenK : ℤ) : Mem β :=
  let smem := stageV smem v strideV 0 seqlenK 1
  stageV smem v strideV 32 seqlenK 2

def kVBuf0 : ℤ := 2304
def kVBuf1 : ℤ := 2304 + 2304

def pvVLdsOffset (n d : ℕ) : ℕ := vLdsOffsetElems n d

/-- `p_raw`: the high halves of two words. -/
def pRaw (bf : Bf16Conv R β) (p : ℕ → R) (t : Thread) (i : ℕ) : Dword β :=
  ⟨bf.ofFloat (p (t.val * 32 + 2 * i)), bf.ofFloat (p (t.val * 32 + (2 * i + 1)))⟩

/-- One `kstep`: two passes over both hdim-tiles. -/
def pvStep [AddCommMonoid R] [Mul R] (bf : Bf16Conv R β) (smem : Mem β) (p : ℕ → R)
    (o : (Thread → V16f R) × (Thread → V16f R)) (kstep : Fin 4) :
    (Thread → V16f R) × (Thread → V16f R) :=
  let hdimPos := fun t => laneId t &&& 31
  let seqkAbs := fun t => kstep.val * 16 + kSub t * 8
  let seqkLocal := fun t => seqkAbs t % 32
  let vBuf := fun t => if seqkAbs t < 32 then kVBuf0 else kVBuf1
  let v0 := fun t => loadB128 smem ((vBuf t + pvVLdsOffset (seqkLocal t) (hdimPos t)) * 2)
  let v1 := fun t => loadB128 smem ((vBuf t + pvVLdsOffset (seqkLocal t) (hdimPos t + 32)) * 2)
  let b0 := fun t => packShort4 (pRaw bf p t (kstep.val * 4)) (pRaw bf p t (kstep.val * 4 + 1))
  let b1 := fun t => packShort4 (pRaw bf p t (kstep.val * 4 + 2)) (pRaw bf p t (kstep.val * 4 + 3))
  let o := (mfma bf (fun t => packShort4 (v0 t 0) (v0 t 1)) b0 o.1,
    mfma bf (fun t => packShort4 (v1 t 0) (v1 t 1)) b0 o.2)
  (mfma bf (fun t => packShort4 (v0 t 2) (v0 t 3)) b1 o.1,
    mfma bf (fun t => packShort4 (v1 t 2) (v1 t 3)) b1 o.2)

def testPvGemmKernel [AddCommMonoid R] [Mul R] (bf : Bf16Conv R β) (p : ℕ → R) (v : Mem β)
    (out : ℕ → R) (smem : Mem β) (strideV seqlenK : ℤ) : ℕ → R :=
  let smem := pvStageV (zeroRegion smem) v strideV seqlenK
  dumpAcc out ((List.finRange 4).foldl (pvStep bf smem p) (fun _ => clearAcc, fun _ => clearAcc))

omit [Zero β] in
/-- A read of the V region is a read of one of the two slices. -/
lemma loadB128_pv (smem : Mem β) (d : ℕ) (t : Thread) (b kstep : Fin 2) :
    loadB128 smem (((if (pairIdx b kstep).val * 16 + kSub t * 8 < 32 then kVBuf0 else kVBuf1)
        + pvVLdsOffset (((pairIdx b kstep).val * 16 + kSub t * 8) % 32) d) * 2)
      = loadB128 smem (bufBaseBytes (b.val + 1) + vLdsElemOffset (kstep.val * 16 + kSub t * 8) d * 2) := by
  have hk := kSub_lt t
  have hidx : (pairIdx b kstep).val = b.val * 2 + kstep.val := rfl
  have hmod : ((pairIdx b kstep).val * 16 + kSub t * 8) % 32 = kstep.val * 16 + kSub t * 8 := by omega
  have hbuf : (if (pairIdx b kstep).val * 16 + kSub t * 8 < 32 then kVBuf0 else kVBuf1)
      = (b.val + 1 : ℤ) * 2304 := by
    unfold kVBuf0 kVBuf1
    split_ifs <;> omega
  congr 1
  rw [hmod, hbuf]
  simp only [pvVLdsOffset, vLdsOffsetElems, bufBaseBytes, vLdsElemOffset]
  ring

/-- The probabilities of a lane, `half` a 32-key slice. -/
def pHalf (p : ℕ → R) (half : ℕ) (t : Thread) : V16f R := fun r => p (t.val * 32 + (16 * half + r.val))

omit [Zero β] in
/-- Packed words are the operand of a sub-tile call. -/
lemma packP_pHalf (bf : Bf16Conv R β) (p : ℕ → R) (t : Thread) (b kstep pass : Fin 2) :
    packP bf (pHalf p b t) (pairIdx kstep pass)
      = packShort4 (pRaw bf p t ((b.val * 2 + kstep.val) * 4 + 2 * pass.val))
          (pRaw bf p t ((b.val * 2 + kstep.val) * 4 + 2 * pass.val + 1)) := by
  have hreg : ∀ e : ℕ, 16 * b.val + (4 * (kstep.val * 2 + pass.val) + e)
      = 2 * ((b.val * 2 + kstep.val) * 4 + 2 * pass.val) + e := by
    intro e
    ring
  have h0 : 16 * b.val + 4 * (kstep.val * 2 + pass.val)
      = 2 * ((b.val * 2 + kstep.val) * 4 + 2 * pass.val) := hreg 0
  simp only [packP, permTrunc, pHalf, pRaw, pairIdx, hreg, h0]
  rfl

omit [Zero β] in
/-- The ksteps of a slice are a sub-tile call of the fused kernel. -/
lemma foldl_pvStep [AddCommMonoid R] [Mul R] (bf : Bf16Conv R β) (smem : Mem β) (p : ℕ → R)
    (o : (Thread → V16f R) × (Thread → V16f R)) (b : Fin 2) :
    (List.finRange 2).foldl (fun o kstep => pvStep bf smem p o (pairIdx b kstep)) o
      = gemm1Subtile bf o.1 o.2 (pHalf p b) smem (b.val + 1) := by
  have hb0 : ∀ (t : Thread) (kstep : Fin 2), packP bf (pHalf p b t) ⟨kstep.val * 2, by omega⟩
      = packShort4 (pRaw bf p t ((pairIdx b kstep).val * 4))
          (pRaw bf p t ((pairIdx b kstep).val * 4 + 1)) := fun t kstep =>
    packP_pHalf bf p t b kstep 0
  have hb1 : ∀ (t : Thread) (kstep : Fin 2), packP bf (pHalf p b t) ⟨kstep.val * 2 + 1, by omega⟩
      = packShort4 (pRaw bf p t ((pairIdx b kstep).val * 4 + 2))
          (pRaw bf p t ((pairIdx b kstep).val * 4 + 3)) := fun t kstep =>
    packP_pHalf bf p t b kstep 1
  unfold gemm1Subtile pvStep
  simp only [loadB128_pv, hb0, hb1]

omit [Zero β] in
lemma foldl_pvSteps [AddCommMonoid R] [Mul R] (bf : Bf16Conv R β) (smem : Mem β) (p : ℕ → R)
    (o : (Thread → V16f R) × (Thread → V16f R)) :
    (List.finRange 4).foldl (pvStep bf smem p) o
      = let o := gemm1Subtile bf o.1 o.2 (pHalf p 0) smem 1
        gemm1Subtile bf o.1 o.2 (pHalf p 1) smem 2 := by
  have h0 := foldl_pvStep bf smem p o 0
  rw [foldl_pairs, h0]
  exact foldl_pvStep bf smem p _ 1

/-- Both slices of V are in LDS, zero past the sequence. -/
lemma pvStageV_apply (smem v : Mem β) (strideV seqlenK : ℤ) {n d : ℕ} (hn : n < 32) (hd : d < 64) :
    pvStageV smem v strideV seqlenK (bufBaseElems 1 + vLdsElemOffset n d)
        = (if (n : ℤ) < seqlenK then v (n * strideV + d) else 0) ∧
      pvStageV smem v strideV seqlenK (bufBaseElems 2 + vLdsElemOffset n d)
        = if ((32 + n : ℕ) : ℤ) < seqlenK then v ((32 + n : ℕ) * strideV + d) else 0 := by
  have hlt := vLdsElemOffset_lt (n := n) hd
  have hslot : ∀ b : ℕ, bufBaseElems b + vLdsElemOffset n d = (vSlot b n d : ℕ) := by
    intro b
    simp only [bufBaseElems, vSlot, vLdsOffsetElems, vLdsElemOffset]
    push_cast
    ring
  have h0 := stageV_apply smem v strideV 0 seqlenK 1 hn hd
  have h1 := stageV_apply (stageV smem v strideV 0 seqlenK 1) v strideV 32 seqlenK 2 hn hd
  rw [← hslot, vTile, zero_add] at h0
  rw [← hslot, vTile] at h1
  constructor
  · -- the second slice lies past the first
    have hframe : pvStageV smem v strideV seqlenK (bufBaseElems 1 + vLdsElemOffset n d)
        = stageV smem v strideV 0 seqlenK 1 (bufBaseElems 1 + vLdsElemOffset n d) := by
      unfold pvStageV stageV
      rw [storeVToLds_frame]
      left
      simp only [bufBaseElems]
      omega
    exact hframe.trans h0
  · push_cast
    exact h1

omit [Zero β] in
/-- The registers of a slice hold the columns of the buffer's matrix. -/
lemma pHalf_holds (p : ℕ → R) {half : ℕ} (hh : half < 2) :
    Holds nCol (pHalf p half) fun m n => getP p m (32 * half + n) := by
  intro t r
  have hcol : 32 * half + nCol t r = qkRefNCol t (16 * half + r.val) := by
    simp only [nCol, qkRefNCol, kSub_eq]
    omega
  change p (t.val * 32 + (16 * half + r.val)) = getP p (mRow t) (32 * half + nCol t r)
  rw [mRow_eq_ref, hcol]
  exact holds_getP p t t.isLt _ (by omega)

/-- **`O = P * V`**: the kernel and its oracle hold one matrix. -/
lemma testPvGemmKernel_holds [CommRing R] (bf : Bf16 R β) {p : ℕ → R}
    (hp : ∀ i < 8192, bf.toFloat (bf.ofFloat (p i)) = p i) (v : Mem β) (out : ℕ → R) (smem : Mem β)
    (strideV seqlenK : ℤ) :
    HoldsBuf pvRefDCol (testPvGemmKernel bf.toBf16Conv p v out smem strideV seqlenK) fun m d =>
      ∑ n ∈ Finset.range 64,
        getP p m n * (if (n : ℤ) < seqlenK then bf.toFloat (v (n * strideV + d)) else 0) := by
  let V : ℕ → ℕ → β := fun n d => if (n : ℤ) < seqlenK then v (n * strideV + d) else 0
  have hv : ∀ n < 32, ∀ d < 64, _ ∧ _ := fun n hn d hd =>
    pvStageV_apply (zeroRegion smem) v strideV seqlenK hn hd
  have hz : Holds dCol (fun _ => clearAcc : Thread → V16f R) fun _ _ => 0 := clearAcc_holds _
  have hp0 : Holds nCol (pHalf p 0) (getP p) := by
    simpa using pHalf_holds p (by norm_num : 0 < 2)
  obtain ⟨a0, a1⟩ := gemm1Subtile_holds bf.toBf16Conv hz hz hp0 (fun n hn d hd => (hv n hn d hd).1)
    (fun m d => ∑ n ∈ Finset.range 32, bf.toFloat (V n d) * bf.toFloat (bf.ofFloat (getP p m n)))
    fun m d => (zero_add _).symm
  obtain ⟨o0, o1⟩ := gemm1Subtile_holds bf.toBf16Conv a0 a1 (pHalf_holds p (by norm_num : 1 < 2))
    (fun n hn d hd => (hv n hn d hd).2)
    (fun m d => ∑ n ∈ Finset.range 64, bf.toFloat (V n d) * bf.toFloat (bf.ofFloat (getP p m n)))
    fun m d => Finset.sum_range_add _ 32 32
  simp only [add_comm _ 32] at o1
  have hdump := dumpAcc_holds pvRefDCol_regs o0 o1 out
  intro tid ht r hr
  unfold testPvGemmKernel
  simp only [foldl_pvSteps]
  refine (hdump tid ht r hr).trans (Finset.sum_congr rfl fun n hn => ?_)
  -- the words of the buffer are bf16
  have hclean : bf.toFloat (bf.ofFloat (getP p (qkRefMRow tid) n)) = getP p (qkRefMRow tid) n := by
    have htid := rowTid_lt (qkRefMRow_lt ht) (by omega : n / 8 % 2 < 2)
    have hreg := colReg_lt (Finset.mem_range.mp hn)
    rw [getP_slot]
    exact hp _ (by omega)
  rw [hclean, mul_comm]
  change getP p (qkRefMRow tid) n * bf.toFloat (if (n : ℤ) < seqlenK then _ else 0) = _
  split_ifs
  · rfl
  · rw [bf.toFloat_zero]

end Pv

/-! ### `test_epilog_kernel` -/

section Epilog

variable [Fp α]

/-- `inv_rs` -/
def epInvRs (rs : α) : α := if !eq rs 0 then recip rs else 0

/-- `o_norm` -/
def epONorm (oAcc rsum : ℕ → α) (t : Thread) (r : ℕ) : α := oAcc (t.val * 32 + r) * epInvRs (rsum t.val)

/-- The eight stores of a lane. -/
def epStore (bf : Bf16Conv α β) (oAcc rsum : ℕ → α) (strideO : ℤ) (t : Thread) (g : ℕ) : List (ℤ × β) :=
  let rowByteOffset := mRow t * (strideO * 2)
  let rBase := g * 4
  let dNomBase := rBase / 8 * 16 + kSub t * 8 + rBase % 8
  let dCol := swz dNomBase
  let b := fun e => bf.ofFloat (epONorm oAcc rsum t (rBase + e))
  let voffset := rowByteOffset + dCol * 2
  dwordAt voffset ⟨b 0, b 1⟩ ++ dwordAt (voffset + 4) ⟨b 2, b 3⟩

def epStores (bf : Bf16Conv α β) (oAcc rsum : ℕ → α) (seqlenQ strideO : ℤ) : List (ℤ × β) :=
  (List.finRange 256).flatMap fun t : Thread =>
    if seqlenQ ≤ mRow t then [] else (List.range 8).flatMap (epStore bf oAcc rsum strideO t)

/-- What `test_epilog_kernel` writes; `oFinalDump` is `none` for a null pointer. -/
structure EpilogKernelOut (α β : Type*) where
  oDram : Mem β
  oFinalDump : Option (ℕ → α)

def testEpilogKernel (bf : Bf16Conv α β) (oAcc rsum : ℕ → α) (out : EpilogKernelOut α β)
    (seqlenQ strideO : ℤ) : EpilogKernelOut α β :=
  { oDram := stores out.oDram (epStores bf oAcc rsum seqlenQ strideO)
    oFinalDump := out.oFinalDump.map fun dump => dumpSlots dump fun t r => epONorm oAcc rsum t r.val }

lemma epInvRs_eq (rs : α) : epInvRs rs = invRs rs := by
  unfold epInvRs invRs
  cases eq rs 0 <;> rfl

lemma epSwz : ∀ g < 8, ∀ k < 2, ∀ e < 4,
    swz ((g * 4 + e) / 8 * 16 + k * 8 + (g * 4 + e) % 8) = swz (g * 4 / 8 * 16 + k * 8 + g * 4 % 8) + e := by
  decide

/-- The four elements of a store are neighbours in their row. -/
lemma mem_epStore {bf : Bf16Conv α β} {oAcc rsum : ℕ → α} {strideO : ℤ} {t : Thread} {g : ℕ}
    (hg : g < 8) {a : ℤ} {x : β} :
    (a, x) ∈ epStore bf oAcc rsum strideO t g ↔ ∃ e < 4,
      a = mRow t * strideO + pvRefDCol t (g * 4 + e) ∧
        x = bf.ofFloat (oAcc (t.val * 32 + (g * 4 + e)) * invRs (rsum t.val)) := by
  have hcol : ∀ e < 4, (pvRefDCol t (g * 4 + e) : ℤ)
      = (swz (g * 4 / 8 * 16 + kSub t * 8 + g * 4 % 8) : ℕ) + (e : ℤ) := by
    intro e he
    have h := epSwz g hg (kSub t) (kSub_lt t) e he
    rw [kSub_eq] at h ⊢
    exact_mod_cast h
  have haddr : ∀ c : ℕ, (mRow t * (strideO * 2) + c * 2) / 2 = mRow t * strideO + c := by
    intro c
    rw [← mul_assoc, ← add_mul, Int.mul_ediv_cancel _ two_ne_zero]
  have haddr' : ∀ c : ℕ, (mRow t * (strideO * 2) + c * 2 + 4) / 2 = mRow t * strideO + c + 2 := by
    intro c
    have h := haddr (c + 2)
    push_cast at h
    rw [add_assoc _ (c : ℤ), ← h]
    congr 1
    ring
  simp only [epStore, dwordAt, epONorm, epInvRs_eq, haddr, haddr', List.mem_append, List.mem_cons,
    List.not_mem_nil, or_false, Prod.mk.injEq]
  constructor
  · rintro ((⟨rfl, rfl⟩ | ⟨rfl, rfl⟩) | ⟨rfl, rfl⟩ | ⟨rfl, rfl⟩)
    · exact ⟨0, by norm_num, by rw [hcol 0 (by norm_num)]; push_cast; ring, rfl⟩
    · exact ⟨1, by norm_num, by rw [hcol 1 (by norm_num)]; push_cast; ring, rfl⟩
    · exact ⟨2, by norm_num, by rw [hcol 2 (by norm_num)]; push_cast; ring, rfl⟩
    · exact ⟨3, by norm_num, by rw [hcol 3 (by norm_num)]; push_cast; ring, rfl⟩
  · rintro ⟨e, he, rfl, rfl⟩
    rw [hcol e he]
    interval_cases e
    · exact Or.inl (Or.inl ⟨by push_cast; ring, rfl⟩)
    · exact Or.inl (Or.inr ⟨by push_cast; ring, rfl⟩)
    · exact Or.inr (Or.inl ⟨by push_cast; ring, rfl⟩)
    · exact Or.inr (Or.inr ⟨by push_cast; ring, rfl⟩)

/-- What the lanes store: each slot of an in-range row, at its column. -/
lemma mem_epStores {bf : Bf16Conv α β} {oAcc rsum : ℕ → α} {seqlenQ strideO a : ℤ} {x : β} :
    (a, x) ∈ epStores bf oAcc rsum seqlenQ strideO ↔
      ∃ tid < 256, ∃ r < 32, (qkRefMRow tid : ℤ) < seqlenQ ∧
        a = qkRefMRow tid * strideO + pvRefDCol tid r ∧
        x = bf.ofFloat (oAcc (tid * 32 + r) * invRs (rsum tid)) := by
  simp only [epStores, List.mem_flatMap, List.mem_finRange, true_and, ← not_lt, ite_not]
  constructor
  · rintro ⟨t, h⟩
    split_ifs at h with hrow
    · obtain ⟨g, hg, h⟩ := List.mem_flatMap.mp h
      obtain ⟨e, he, rfl, rfl⟩ := (mem_epStore (List.mem_range.mp hg)).mp h
      rw [mRow_eq_ref] at hrow ⊢
      exact ⟨t, t.isLt, g * 4 + e, by have := List.mem_range.mp hg; omega, hrow, rfl, rfl⟩
    · exact absurd h List.not_mem_nil
  · rintro ⟨tid, ht, r, hr, hrow, rfl, rfl⟩
    have hm := mRow_eq_ref ⟨tid, ht⟩
    have hreg : r / 4 * 4 + r % 4 = r := by omega
    refine ⟨⟨tid, ht⟩, ?_⟩
    rw [if_pos (by rw [hm]; exact hrow)]
    refine List.mem_flatMap.mpr ⟨r / 4, List.mem_range.mpr (by omega), (mem_epStore (by omega)).mpr ?_⟩
    refine ⟨r % 4, by omega, ?_, ?_⟩
    · rw [hreg, hm]
    · rw [hreg]

/-- **The stored rows**, in whatever order the lanes store, are those of the oracle. -/
lemma epStores_eq (bf : Bf16Conv α β) (oAcc rsum : ℕ → α) (dram : Mem β) {seqlenQ : ℤ}
    {ws : List (ℤ × β)} (hws : ws.Perm (epStores bf oAcc rsum seqlenQ 64)) {m d : ℕ} (hm : m < 128)
    (hmq : (m : ℤ) < seqlenQ) (hd : d < 64) :
    bf.toFloat (stores dram ws (m * 64 + d)) = (refEpilog bf oAcc rsum seqlenQ).oDram (m * 64 + d) := by
  obtain ⟨tid, ht, r, hr, rfl, rfl⟩ := exists_dramSlot hm hd
  refine (congrArg bf.toFloat ?_).trans (refEpilog_slot bf oAcc rsum ht hr hmq).symm
  refine stores_of_mem (hws.mem_iff.mpr (mem_epStores.mpr ⟨tid, ht, r, hr, hmq, rfl, rfl⟩))
    fun x hx => ?_
  obtain ⟨u, -, s, hs, -, ha, rfl⟩ := mem_epStores.mp (hws.mem_iff.mp hx)
  obtain ⟨rfl, rfl⟩ := dramSlot_inj hr hs (by exact_mod_cast ha)
  rfl

end Epilog

/-! ### All four -/

/-- **The components refine their oracles**: every word of their thread buffers and every element
of the stored rows is the oracle's. -/
theorem components_refine {γ : Type*} [CommRing R] [Zero β] [Fp α] (bf : Bf16 R β) (bfp : Bf16Conv α γ)
    (q k v smem : Mem β) (strideQ strideK strideV seqlenQ seqlenK kvOffset : ℤ) (p out : ℕ → R)
    (sAcc oAcc rsum : ℕ → α) (scaleS : α) (smOut : SoftmaxOut α) (epOut : EpilogKernelOut α γ) :
    (∀ i < 8192, testQkGemmKernel bf.toBf16Conv q k out smem strideQ strideK seqlenQ seqlenK i
      = refQkGemm bf.toBf16Conv q strideQ seqlenQ k strideK seqlenK i) ∧
    (let sm := testSoftmaxKernel bfp sAcc smOut seqlenK kvOffset scaleS
      let ref := refSoftmax bfp sAcc seqlenK kvOffset scaleS
      (∀ i < 8192, sm.pOut i = ref.pOut i) ∧
        ∀ tid < 256, sm.rmaxOut tid = ref.rmaxOut tid ∧ sm.rsumOut tid = ref.rsumOut tid) ∧
    ((∀ i < 8192, bf.toFloat (bf.ofFloat (p i)) = p i) → ∀ i < 8192,
      testPvGemmKernel bf.toBf16Conv p v out smem strideV seqlenK i
        = refPvGemm bf.toBf16Conv p v strideV seqlenK i) ∧
    (∀ m d : ℕ, m < 128 → m < seqlenQ → d < 64 →
      bfp.toFloat ((testEpilogKernel bfp oAcc rsum epOut seqlenQ 64).oDram (m * 64 + d))
        = (refEpilog bfp oAcc rsum seqlenQ).oDram (m * 64 + d)) ∧
    (∀ ws, ws.Perm (epStores bfp oAcc rsum seqlenQ 64) →
      stores epOut.oDram ws = (testEpilogKernel bfp oAcc rsum epOut seqlenQ 64).oDram) ∧
    ∀ dump ∈ (testEpilogKernel bfp oAcc rsum epOut seqlenQ 64).oFinalDump, ∀ i < 8192,
      dump i = (refEpilog bfp oAcc rsum seqlenQ).oFinal i := by
  refine ⟨fun i hi => ?_, ⟨fun i hi => ?_, fun tid ht => ?_⟩, fun hp i hi => ?_, fun m d hm hmq hd => ?_,
    fun ws hws => ?_, fun dump hdump i hi => ?_⟩
  · exact (testQkGemmKernel_holds bf q k out smem strideQ strideK seqlenQ seqlenK).eq
      (refQkGemm_holds bf.toBf16Conv q strideQ seqlenQ k strideK seqlenK) hi
  · have h := (testSoftmaxKernel_eq bfp sAcc smOut seqlenK kvOffset scaleS ⟨i / 32, by omega⟩).1
      ⟨i % 32, by omega⟩
    simp only [Nat.div_add_mod'] at h
    exact h
  · exact (testSoftmaxKernel_eq bfp sAcc smOut seqlenK kvOffset scaleS ⟨tid, ht⟩).2
  · exact (testPvGemmKernel_holds bf hp v out smem strideV seqlenK).eq
      (refPvGemm_holds bf.toBf16Conv (holds_getP p) v strideV seqlenK) hi
  · exact epStores_eq bfp oAcc rsum epOut.oDram (List.Perm.refl _) hm hmq hd
  · refine stores_perm ?_ hws
    intro a x x' hx hx'
    obtain ⟨u, -, s, hs, -, rfl, rfl⟩ := mem_epStores.mp (hws.mem_iff.mp hx)
    obtain ⟨u', -, s', hs', -, ha, rfl⟩ := mem_epStores.mp (hws.mem_iff.mp hx')
    obtain ⟨rfl, rfl⟩ := dramSlot_inj hs hs' (by exact_mod_cast ha)
    rfl
  · obtain ⟨dump', -, rfl⟩ := Option.mem_map.mp hdump
    have h := dumpSlots_apply dump' (fun t r => epONorm oAcc rsum t r.val) ⟨i / 32, by omega⟩
      ⟨i % 32, by omega⟩
    simp only [Nat.div_add_mod'] at h
    rw [h]
    simp only [epONorm, epInvRs_eq, refEpilog, refOFinal, fillSlots, Nat.div_add_mod']

/-- bf16 values that are integers. -/
def intBf16 : Bf16 ℤ ℤ := ⟨⟨id, id⟩, rfl, rfl⟩

/-- Probabilities of one against three value rows of ones. -/
theorem components_refine_ones :
    testPvGemmKernel intBf16.toBf16Conv (fun _ => 1) (fun _ => 1) (fun _ => 0) (fun _ => 7) 64 3 0 = 3 :=
  ((components_refine intBf16 XReal.exact.toBf16Conv (fun _ => 0) (fun _ => 0) (fun _ => 1) (fun _ => 7)
    64 64 64 128 3 0 (fun _ => 1) (fun _ => 0) (fun _ => XReal.fin 0) (fun _ => XReal.fin 0)
    (fun _ => XReal.fin 1) (XReal.fin 1) ⟨fun _ => 0, fun _ => 0, fun _ => 0⟩
    ⟨fun _ => 0, none⟩).2.2.1 (fun _ _ => rfl) 0 (by norm_num)).trans (by decide)

end FmhaNative.Components
