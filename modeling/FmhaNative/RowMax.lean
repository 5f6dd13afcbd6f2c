import FmhaNative.Components

/-!
The row-max component, its oracle, and the stages that take the same maximum.

The oracle runs over all threads and keeps one maximum a row in an array. The kernel takes the
maximum of a thread's 32 registers and exchanges it once with the lane that holds the other half
of the row. Both are the maximum of the row's 64 columns.
-/

namespace FmhaNative.RowMax

open OpGemm OpSoftmax Fp ComponentsRef Components

variable {α β : Type*} [Fp α]

/-! ### `test_row_max_kernel` -/

/-- `rm_bpermute` -/
def rmBpermute (srcLane : Thread → ℕ) (val : Thread → α) : Thread → α := bpermuteF32 srcLane val

/-- `partner_tid` -/
def rmPartner (t : Thread) : ℕ := (t.val ^^^ (t.val &&& 63)) ||| (laneId t ^^^ 32)

def testRowMaxKernel (sAcc rmax : ℕ → α) : ℕ → α :=
  let localMax := fun t : Thread =>
    (List.finRange 32).foldl (fun m r => fmaxf m (sAcc (t.val * 32 + r.val))) negInf
  let other := rmBpermute rmPartner localMax
  dumpThreads rmax fun t => fmaxf (localMax t) (other t)

/-- The exchange reaches the lane that holds the other half of the row. -/
lemma inWave_rmPartner : ∀ t : Thread, (inWave t (rmPartner t)).val = partnerTid t.val := by
  decide +kernel

/-! ### `ref_row_max` -/

/-- One register of a thread taken into `row_max_vals`. -/
def rowMaxStep (sAcc : ℕ → α) (tid : ℕ) (vals : ℕ → α) (r : ℕ) : ℕ → α :=
  let mRow := qkRefMRow tid
  let v := sAcc (tid * 32 + r)
  Function.update vals mRow (fmaxf (vals mRow) v)

/-- `row_max_vals` after the loop over the threads. -/
def rowMaxVals (sAcc : ℕ → α) : ℕ → α :=
  (List.range 256).foldl (fun vals tid => (List.range 32).foldl (rowMaxStep sAcc tid) vals)
    fun _ => negInf

def refRowMax (sAcc : ℕ → α) : ℕ → α := fun tid => rowMaxVals sAcc (qkRefMRow tid)

/-- The registers of a thread, in order. -/
def threadScores (sAcc : ℕ → α) (tid : ℕ) : List α := (List.range 32).map fun r => sAcc (tid * 32 + r)

/-- A thread's registers go into the entry of its row. -/
lemma foldl_rowMaxStep (sAcc : ℕ → α) (tid m : ℕ) (rs : List ℕ) (vals : ℕ → α) :
    rs.foldl (rowMaxStep sAcc tid) vals m
      = if qkRefMRow tid = m then maxOver (vals m) (rs.map fun r => sAcc (tid * 32 + r)) else vals m := by
  induction rs generalizing vals with
  | nil => exact (ite_self _).symm
  | cons r rs ih =>
    rw [List.foldl_cons, ih]
    by_cases hm : qkRefMRow tid = m
    · subst hm
      simp only [rowMaxStep, Function.update_self, if_true, List.map_cons, maxOver, List.foldl_cons]
    · simp only [rowMaxStep, if_neg hm, Function.update_of_ne (Ne.symm hm)]

/-- An entry gathers the threads of its row, in order. -/
lemma foldl_threads (sAcc : ℕ → α) (m : ℕ) (tids : List ℕ) (vals : ℕ → α) :
    tids.foldl (fun vals tid => (List.range 32).foldl (rowMaxStep sAcc tid) vals) vals m
      = maxOver (vals m) ((tids.filter (qkRefMRow · = m)).flatMap (threadScores sAcc)) := by
  induction tids generalizing vals with
  | nil => rfl
  | cons tid tids ih =>
    rw [List.foldl_cons, ih, foldl_rowMaxStep, List.filter_cons]
    by_cases hm : qkRefMRow tid = m
    · simp only [hm, if_true, decide_true, List.flatMap_cons, maxOver, List.foldl_append]
      rfl
    · simp only [hm, if_false, decide_false, Bool.false_eq_true]

/-- Two threads hold a row. -/
lemma rowThreads_perm {m : ℕ} (hm : m < 128) :
    ((List.range 256).filter (qkRefMRow · = m)).Perm [rowTid m 0, rowTid m 1] := by
  refine (List.perm_ext_iff_of_nodup (List.nodup_range.filter _) ?_).mpr fun tid => ?_
  · simp only [rowTid, List.nodup_cons, List.mem_singleton, List.not_mem_nil, not_false_iff,
      List.nodup_nil, and_true]
    omega
  · rw [List.mem_filter, List.mem_range, decide_eq_true_iff]
    simp only [List.mem_cons, List.not_mem_nil, or_false, qkRefMRow, rowTid]
    omega

/-! ### The maximum of a row -/

/-- The maximum of the 64 columns of a row. -/
def rowMax (S : ℕ → ℕ → α) (m : ℕ) : α := maxOver negInf ((List.range 64).map (S m))

section Row

variable {sAcc : ℕ → α} {S : ℕ → ℕ → α}

omit [Fp α] in
lemma threadScores_eq (hs : HoldsBuf qkRefNCol sAcc S) {tid : ℕ} (ht : tid < 256) :
    threadScores sAcc tid = (halfCols (tidHalf tid)).map (S (qkRefMRow tid)) := by
  unfold threadScores halfCols
  rw [List.map_map]
  refine List.map_congr_left fun r hr => ?_
  exact hs tid ht r (List.mem_range.mp hr)

/-- **The oracle** leaves each thread the maximum of its row. -/
lemma refRowMax_eq (hs : HoldsBuf qkRefNCol sAcc S) {tid : ℕ} (ht : tid < 256) :
    refRowMax sAcc tid = rowMax S (qkRefMRow tid) := by
  have hm := qkRefMRow_lt ht
  obtain ⟨m, hmdef⟩ : ∃ m, qkRefMRow tid = m := ⟨_, rfl⟩
  rw [hmdef] at hm
  have hhalf : ∀ h < 2, threadScores sAcc (rowTid m h) = (halfCols h).map (S m) := by
    intro h hh
    rw [threadScores_eq hs (rowTid_lt hm hh), qkRefMRow_rowTid m hh]
    congr 2
    simp only [tidHalf, rowTid]
    omega
  unfold refRowMax rowMaxVals
  rw [foldl_threads, hmdef, maxOver_perm _ ((rowThreads_perm hm).flatMap_right _)]
  simp only [List.flatMap_cons, List.flatMap_nil, List.append_nil, hhalf 0 two_pos,
    hhalf 1 one_lt_two]
  rw [← List.map_append]
  exact maxOver_perm _ ((halfCols_perm two_pos).map _)

/-- **The kernel** does, with one exchange. -/
lemma testRowMaxKernel_eq (hs : HoldsBuf qkRefNCol sAcc S) (out : ℕ → α) (t : Thread) :
    testRowMaxKernel sAcc out t.val = rowMax S (qkRefMRow t.val) := by
  obtain ⟨hp, hrow, hhalf⟩ := partnerTid_spec t.val t.isLt
  have hlocal : ∀ u : Thread,
      (List.finRange 32).foldl (fun m r => fmaxf m (sAcc (u.val * 32 + r.val))) negInf
        = maxOver negInf ((halfCols (tidHalf u.val)).map (S (qkRefMRow u.val))) := by
    intro u
    rw [foldl_finRange 32 (fun m r => fmaxf m (sAcc (u.val * 32 + r)))]
    exact foldl_slots hs fmaxf negInf u.isLt
  simp only [testRowMaxKernel, dumpThreads_apply, rmBpermute, bpermuteF32, hlocal]
  rw [inWave_rmPartner, hrow, hhalf]
  rw [maxOver_append, ← List.map_append]
  exact maxOver_perm _ ((halfCols_perm (tidHalf_lt t.val)).map _)

/-- The registers of a thread as the fused kernel holds them, in two halves. -/
def scoreRegs (sAcc : ℕ → α) (half : Fin 2) (t : Thread) : V16f α :=
  fun r => sAcc (t.val * 32 + (16 * half.val + r.val))

/-- The fused row maximum, with nothing carried in. -/
lemma softmaxRowMax_eq (hs : HoldsBuf qkRefNCol sAcc S) (t : Thread) :
    softmaxRowMax (scoreRegs sAcc 0) (scoreRegs sAcc 1) (fun _ => negInf) t
      = rowMax S (qkRefMRow t.val) := by
  have h0 : Holds nCol (scoreRegs sAcc 0) S := fun u r => by
    have hslot := hs u.val u.isLt r.val (by omega)
    rw [(qkRefNCol_regs u r).1, ← mRow_eq_ref] at hslot
    simpa [scoreRegs] using hslot
  have h1 : Holds nCol (scoreRegs sAcc 1) fun m n => S m (32 + n) := fun u r => by
    have hslot := hs u.val u.isLt (16 + r.val) (by omega)
    rw [(qkRefNCol_regs u r).2, ← mRow_eq_ref] at hslot
    simpa [scoreRegs] using hslot
  rw [softmaxRowMax_apply (R := fun _ => negInf) h0 h1 (fun _ => rfl) t, mRow_eq_ref]
  rfl

end Row

/-- **Row max.** For every score buffer the component leaves each thread what its oracle leaves it:
the maximum of the 64 columns of the thread's row. The fused kernel takes it from the same
registers, and so do the softmax component and its oracle on a tile without masked columns. -/
theorem row_max_agrees (bf : Bf16Conv α β) (sAcc out : ℕ → α) (smOut : SoftmaxOut α)
    (seqlenK kvOffset : ℤ) (scaleS : α) (t : Thread) :
    testRowMaxKernel sAcc out t.val = refRowMax sAcc t.val ∧
      refRowMax sAcc t.val = maxOver negInf ((List.range 64).map (getP sAcc (qkRefMRow t.val))) ∧
      softmaxRowMax (scoreRegs sAcc 0) (scoreRegs sAcc 1) (fun _ => negInf) t = refRowMax sAcc t.val ∧
      (kvOffset + 64 ≤ seqlenK →
        (testSoftmaxKernel bf sAcc smOut seqlenK kvOffset scaleS).rmaxOut t.val
            = refRowMax sAcc t.val ∧
          (refSoftmax bf sAcc seqlenK kvOffset scaleS).rmaxOut t.val = refRowMax sAcc t.val) := by
  have hs := holds_getP sAcc
  have href := refRowMax_eq hs t.isLt
  refine ⟨(testRowMaxKernel_eq hs out t).trans href.symm, href, (softmaxRowMax_eq hs t).trans href.symm,
    fun hfull => ?_⟩
  have hmask : ∀ m, (List.range 64).map (maskedMat (getP sAcc) seqlenK kvOffset m)
      = (List.range 64).map (getP sAcc m) := fun m => List.map_congr_left fun n hn => by
    have hlt := List.mem_range.mp hn
    exact if_neg (by omega)
  have hrmax : (refSoftmax bf sAcc seqlenK kvOffset scaleS).rmaxOut t.val = refRowMax sAcc t.val := by
    rw [href, refSoftmax_rmax bf hs seqlenK kvOffset scaleS t.isLt, rowMaxMat, hmask]
    rfl
  exact ⟨(testSoftmaxKernel_eq bf sAcc smOut seqlenK kvOffset scaleS t).2.1.trans hrmax, hrmax⟩

/-- Thread 5 on a full tile: the softmax component takes the maximum of the row-max oracle. -/
theorem row_max_agrees_full :
    (testSoftmaxKernel XReal.exact.toBf16Conv (fun i => XReal.fin i)
        ⟨fun _ => XReal.fin 0, fun _ => XReal.fin 0, fun _ => XReal.fin 0⟩ 64 0 (XReal.fin 1)).rmaxOut 5
      = refRowMax (fun i => XReal.fin i) 5 :=
  ((row_max_agrees XReal.exact.toBf16Conv (fun i => XReal.fin i) (fun _ => XReal.fin 0)
    ⟨fun _ => XReal.fin 0, fun _ => XReal.fin 0, fun _ => XReal.fin 0⟩ 64 0 (XReal.fin 1) 5).2.2.2
    le_rfl).1

end FmhaNative.RowMax
