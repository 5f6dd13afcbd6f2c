import FmhaNative.GpuRefExact
import FmhaNative.HostBuffers

/-!
The CPU oracle: contiguous offsets, a cached score row, and the reference output row that the
kernels' O is compared with.
-/

namespace FmhaNative.CpuRef

open Host Loops Fp

/-! ### Offsets -/

section Offsets

variable (p : FmhaParams)

/-- `vl_offsets` -/
def vlOffset (b : ℤ) : ℤ := seqOffsets p.varlenSeqs b.toNat

def getSq (b : ℤ) : ℤ := if p.varlenMode then p.varlenSeqs.getD b.toNat 0 else p.seqLen
def getSkv (b : ℤ) : ℤ := if p.varlenMode then p.varlenSeqs.getD b.toNat 0 else p.kvSeqLen

def qOff (b hq i : ℤ) : ℤ :=
  if p.varlenMode then toSizeT ((hq * p.buffers.totalSeqlen + vlOffset p b + i) * p.hdimDispatch)
  else toSizeT (((b * p.qHeads + hq) * p.seqLen + i) * p.hdimDispatch)

/-- O has the offsets of Q. -/
def oOff (b hq i : ℤ) : ℤ := qOff p b hq i

def kBase (b hkv : ℤ) : ℤ :=
  if p.varlenMode then toSizeT ((hkv * p.buffers.totalSeqlen + vlOffset p b) * p.hdimDispatch)
  else toSizeT ((b * p.kvHeads + hkv) * p.kvSeqLen * p.hdimDispatch)

/-- V has the offsets of K. -/
def vBase (b hkv : ℤ) : ℤ := kBase p b hkv

/-- The index of column `d` of key row `j`. -/
def kIndex (base : ℤ) (j d : ℕ) : ℤ := toSizeT (base + j * p.hdimDispatch + d)

end Offsets

/-! ### One row -/

variable {α β : Type*} [Fp α] [Zero β]

/-- `S[j]` -/
def score (bf : Bf16 α β) (p : FmhaParams) (hQ hK : Mem β) (b hq hkv i : ℤ) (j : ℕ) : α :=
  let s := sumLoop p.headDim.toNat fun d =>
    bf.toFloat (hQ (toSizeT (qOff p b hq i + d))) * bf.toFloat (hK (kIndex p (kBase p b hkv) j d))
  let s := s * p.scalar
  if p.mask ≠ 0 ∧ (j : ℤ) > i + (getSkv p b - getSq p b) then negInf else s

/-- The row maximum, seeded from `S[0]`. -/
def rowMax (n : ℕ) (s : ℕ → α) : α :=
  (List.range' 1 (n - 1)).foldl (fun m j => if lt m (s j) then s j else m) (s 0)

/-- `P[j]` before the normalisation. -/
def expS (s : ℕ → α) (m : α) (j : ℕ) : α := if eq (s j) negInf then 0 else expf (sub (s j) m)

/-- `P[j]`: zero in a masked row, else normalised, truncated to bf16 and widened back. -/
def prob (bf : Bf16 α β) (n : ℕ) (s : ℕ → α) (j : ℕ) : α :=
  let m := rowMax n s
  if eq m negInf then 0
  else
    let invSum := recip (sumLoop n (expS s m))
    bf.toFloat (bf.ofFloat (expS s m j * invSum))

/-- The maximum looks at the scores of the row. -/
lemma rowMax_congr {n : ℕ} {s s' : ℕ → α} (hn : 0 < n) (h : ∀ j < n, s j = s' j) :
    rowMax n s = rowMax n s' := by
  unfold rowMax
  rw [h 0 hn]
  refine List.foldl_ext _ _ _ fun m j hj => ?_
  obtain ⟨-, hjn⟩ := List.mem_range'_1.mp hj
  rw [h j (by omega)]

lemma prob_congr (bf : Bf16 α β) {n : ℕ} {s s' : ℕ → α} (h : ∀ j < n, s j = s' j) {j : ℕ} (hj : j < n) :
    prob bf n s j = prob bf n s' j := by
  have hexp : ∀ m, ∀ k < n, expS s m k = expS s' m k := fun m k hk => by
    rw [expS, expS, h k hk]
  unfold prob
  simp only [rowMax_congr (by omega) h, sumLoop_congr (hexp _), hexp _ j hj]

/-- `o_ref` of a checked row; `none` where the score row of `kv_seq_len` entries is indexed
past its end. -/
def oRef (bf : Bf16 α β) (p : FmhaParams) (hQ hK hV : Mem β) (b hq i : ℤ) : Option (ℕ → α) :=
  let hkv := hq.tdiv p.gqa
  let skvB := getSkv p b
  if p.kvSeqLen < skvB ∨ p.kvSeqLen ≤ 0 then none
  else
    let s := score bf p hQ hK b hq hkv i
    some fun d => sumLoop skvB.toNat fun j =>
      prob bf skvB.toNat s j * bf.toFloat (hV (kIndex p (vBase p b hkv) j d))

/-! ### The row over the real numbers -/

open XReal GpuRefExact

variable {n : ℕ} {s : ℕ → XReal} {A : Finset ℕ} {x : ℕ → ℝ}

/-- Seeding the maximum from the first score or from `-inf` is the same. -/
lemma rowMax_eq (h : Scores n s A x) (hn : 0 < n) : rowMax n s = GpuRef.maxS n s := by
  obtain ⟨k, rfl⟩ := Nat.exists_eq_succ_of_ne_zero hn.ne'
  have hseed : (if Fp.lt negInf (s 0) then s 0 else negInf) = s 0 := by
    rw [h.score 0 hn, negInf_def]
    split_ifs with hA hlt hlt
    · rfl
    · exact absurd (by simp) hlt
    · rfl
    · rfl
  unfold rowMax GpuRef.maxS
  rw [List.range_eq_range', List.range'_succ, List.foldl_cons, hseed]
  rfl

/-- **One probability**: the cached row and the recomputing kernel truncate the same. -/
lemma prob_eq {β : Type*} [Zero β] (bf : Bf16 XReal β) (h : Scores n s A x) {j : ℕ} (hj : j < n) :
    prob bf n s j = GpuRef.pTrunc bf n s j := by
  unfold prob GpuRef.pTrunc
  rw [rowMax_eq h (by omega)]
  rcases A.eq_empty_or_nonempty with hA | hA
  · rw [h.prob hj, if_neg (by simp [hA] : j ∉ A), h.maxS_empty hA, ← zero_def, bf.ofFloat_zero,
      bf.toFloat_zero]
    exact if_pos (by simp)
  · obtain ⟨M, hM⟩ := h.exists_maxS hA
    have hpos : 0 < ∑ j ∈ A, Real.exp (x j - M) := Attention.sum_exp_pos hA fun j => x j - M
    have hsum := h.sumExp hM
    have hinv : GpuRef.invSum n s = Fp.recip (GpuRef.sumExp n s) := by
      unfold GpuRef.invSum
      rw [hsum, zero_def, if_pos (by simpa using hpos)]
    rw [hinv, hM, if_neg (by simp), ← hM]
    rfl

end FmhaNative.CpuRef
