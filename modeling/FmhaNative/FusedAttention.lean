import FmhaNative.GpuRefExact
import FmhaNative.Launch
import FmhaNative.RowExact

/-!
The fused kernel and the reference kernel compute the same attention, in exact arithmetic.
-/

namespace FmhaNative

open Pipeline RowRecurrence RowExact GpuRef XReal

/-- Real tensors, as values of exact arithmetic. -/
def FmhaFwdParams.exact (p : FmhaFwdParams ℝ ℝ) : FmhaFwdParams XReal XReal :=
  { p with q := fun e => fin (p.q e), k := fun e => fin (p.k e), v := fun e => fin (p.v e)
           scale := fin p.scale }

namespace Launch

def exact (L : Launch ℝ ℝ) : Launch XReal XReal :=
  { L with params := L.params.exact }

variable (L : Launch ℝ ℝ)

variable {L} in
lemma InRange.exact {b h i : ℤ} (hr : L.InRange b h i) : L.exact.InRange b h i :=
  ⟨hr.b_nonneg, hr.b_lt, hr.h_nonneg, hr.h_lt, hr.i_nonneg, hr.i_lt⟩

/-- The keys, the scaled scores and the values of a query row. -/
def keys (b i : ℤ) : Finset ℕ :=
  Attention.keys L.hasMask (L.seq b).seqlenK ((L.seq b).seqlenK - (L.seq b).seqlenQ) i

noncomputable def score (b h i : ℤ) (j : ℕ) : ℝ :=
  L.params.scale * Real.log 2 * ∑ d ∈ Finset.range 64,
    L.params.q (L.qOff b h i + d) * L.params.k (L.kOff b h j + d)

def value (b h : ℤ) (j d : ℕ) : ℝ := L.params.v (L.vOff b h j + d)

end Launch

end FmhaNative

namespace FmhaNative.FusedAttention

open Pipeline RowRecurrence RowExact GpuRef XReal Launch

variable (L : Launch ℝ ℝ) {b h i : ℤ}

/-- The row that the block computes, seen over the real numbers. -/
noncomputable def realRow (b h i : ℤ) : RealRow exact (L.exact.rawScore exact b h i)
    (L.exact.rawValue b h) where
  attended j := L.attended b i j
  x j := ∑ d ∈ Finset.range 64, L.params.q (L.qOff b h i + d) * L.params.k (L.kOff b h j + d)
  v := L.value b h
  trunc := id
  score j := by
    simp only [rawScore, exact_toFloat, negInf_def, ← sum_fin, mul_comm (L.params.q _)]
    rfl
  value j d := rfl
  trunc_eq r := rfl

/-- The walked tiles hold every attended key. -/
lemma realRow_keys (b h i : ℤ) : (realRow L b h i).keys (L.tiles b i) = L.keys b i := by
  ext j
  rw [RealRow.keys, Finset.mem_filter, Finset.mem_range, Launch.keys, Attention.mem_keys]
  refine ⟨And.right, fun hj => ⟨?_, hj⟩⟩
  have hm : ((rowInTile i).val : ℤ) < 128 := by exact_mod_cast (rowInTile i).isLt
  have hj' : OpSoftmax.attends L.hasMask (L.seq b).seqlenK
      ((L.seq b).seqlenK - (L.seq b).seqlenQ) (i / 128 * 128 + (rowInTile i).val) j := by
    rw [tile_row]
    exact hj
  have hcov := LoopBound.attends_lt_tiles hm (Int.natCast_nonneg j) hj'
  rw [tiles]
  omega

/-- **The fused row**: what the block stores for row `i` is the attention row. -/
theorem run_attention (hσ : 0 < L.params.scale) (lds : Mem XReal) (hr : L.InRange b h i) :
    ∃ out, L.exact.run exact lds b h (i / 128) = some out ∧
      (∀ d : Fin 64, rowValue out (rowInTile i) d
        = some (fin (Attention.output (L.keys b i) (L.score b h i) (L.value b h) d))) ∧
      (L.params.lse → rowLse out (rowInTile i)
        = some (Attention.lse (L.keys b i) (L.score b h i))) := by
  obtain ⟨out, hout, ho, hl⟩ := run_row exact L.exact lds hr.exact
  obtain ⟨M, l, o, hrow⟩ := exists_exactRow (realRow L b h i) (fun _ => rfl) hσ (L.tiles b i)
  rw [realRow_keys] at hrow
  have he : L.exact.row exact b h i
      = rowRun exact (fin L.params.scale) (L.exact.rawScore exact b h i) (L.exact.rawValue b h)
        (L.tiles b i) :=
    row_eq exact L.exact hr.exact
  simp only [cell, lseCell, he] at ho hl
  refine ⟨out, hout, fun d => (ho d).trans (congrArg some (hrow.output d)), fun hlse => ?_⟩
  exact (hl.trans (if_pos hlse)).trans (congrArg some hrow.lse)

/-! ### The reference row -/

/-- The reference scores of a row are those of its attended keys. -/
lemma refScores (hr : L.InRange b h i) {r : RowPlace}
    (hp : rowPlace (refParams L.exact) (rowTid (refParams L.exact) b h i) = some r) :
    GpuRefExact.Scores r.skvB.toNat (GpuRef.score exact (refParams L.exact) r) (L.keys b i)
      (L.score b h i) := by
  obtain rfl := Option.some.inj ((rowPlace_refParams L.exact hr.exact).symm.trans hp)
  refine ⟨fun j hj => ?_, fun j hj => ?_⟩
  · have := (Attention.mem_keys.mp hj).1
    simp only
    exact Int.lt_toNat.mpr this
  · have hk : (j : ℤ) < (L.seq b).seqlenK := Int.lt_toNat.mp hj
    have hs : Loops.sumLoop (refParams L.exact).headDim.toNat (fun d =>
        exact.toFloat ((refParams L.exact).dQ (L.exact.qOff b h i + d)) *
          exact.toFloat ((refParams L.exact).dK (kBase L.exact.isVarlen L.exact.params b h +
            (j * (refParams L.exact).strideKSeq + d))))
        = fin (∑ d ∈ Finset.range 64,
          L.params.q (L.qOff b h i + d) * L.params.k (L.kOff b h j + d)) := by
      rw [Loops.sumLoop_eq, ← sum_fin]
      refine Finset.sum_congr rfl fun d _ => ?_
      rw [kOff, add_assoc]
      rfl
    have hmask : ((refParams L.exact).mask ∧ (j : ℤ) > i + ((L.seq b).seqlenK - (L.seq b).seqlenQ)) ↔
        ¬ j ∈ L.keys b i := by
      rw [Launch.keys, Attention.mem_keys]
      change (L.hasMask ∧ _) ↔ _
      cases L.hasMask <;> simp [hk]
    have hscale : (refParams L.exact).scalar = fin (L.params.scale * Real.log 2) := rfl
    rw [GpuRef.score, hs, hscale, fin_mul]
    change (if (refParams L.exact).mask ∧ (j : ℤ) > i + ((L.seq b).seqlenK - (L.seq b).seqlenQ) then
      inf true else _) = _
    simp only [hmask, ite_not, Launch.score, mul_comm (∑ d ∈ Finset.range 64, _)]

/-- **The reference row**: the thread of row `i` writes the attention row. -/
theorem ref_attention (hr : L.InRange b h i) :
    ∃ ref, gpuRefFmhaKernel exact (refParams L.exact) (rowTid (refParams L.exact) b h i) = .wrote ref ∧
      (∀ d : Fin 64, refValue ref d
        = some (fin (Attention.output (L.keys b i) (L.score b h i) (L.value b h) d))) ∧
      (L.params.lse → refLse ref
        = some (Attention.lse (L.keys b i) (L.score b h i))) := by
  have hp := rowPlace_refParams L.exact hr.exact
  have hs := refScores L hr hp
  refine ⟨_, by rw [gpuRefFmhaKernel, hp]; rfl, fun d => ?_, fun hlse => ?_⟩
  · have hd : d.val < (64 : ℤ).toNat := d.isLt
    have hv : ∀ j d : ℕ, exact.toFloat ((refParams L.exact).dV
        (vBase L.exact.isVarlen L.exact.params b h + (j * (refParams L.exact).strideVSeq + d)))
        = fin (L.value b h j d) := fun j d => by
      rw [value, vOff, add_assoc]
      rfl
    have ho := hs.oAcc exact (fun _ => rfl) (fun j _ d => hv j d) d
    simp only [refValue, List.getElem?_map]
    rw [show (refParams L.exact).headDim = 64 from rfl, List.getElem?_range hd]
    exact congrArg some ho
  · have hl : (refParams L.exact).dLSE = true := hlse
    simp only [refLse, hl, if_true, Option.map_some]
    exact congrArg some hs.lseVal

/-- **The fused kernel computes the attention of the reference kernel.** For every launch, every
query row and any content of shared memory, the row that the block stores and its log-sum-exp
are those that the reference thread writes: the softmax-weighted sum of the attended values and
the log of the summed exponentials, `0` and `-inf` when no key is attended. -/
theorem fused_eq_gpuRef (hσ : 0 < L.params.scale) (lds : Mem XReal) (hr : L.InRange b h i) :
    ∃ out ref, L.exact.run exact lds b h (i / 128) = some out ∧
      gpuRefFmhaKernel exact (refParams L.exact) (rowTid (refParams L.exact) b h i) = .wrote ref ∧
      (∀ d : Fin 64,
        rowValue out (rowInTile i) d = refValue ref d ∧
        rowValue out (rowInTile i) d
          = some (fin (Attention.output (L.keys b i) (L.score b h i) (L.value b h) d))) ∧
      (L.params.lse →
        rowLse out (rowInTile i) = refLse ref ∧
        rowLse out (rowInTile i) = some (Attention.lse (L.keys b i) (L.score b h i))) := by
  obtain ⟨out, hout, ho, hl⟩ := run_attention L hσ lds hr
  obtain ⟨ref, href, ho', hl'⟩ := ref_attention L hr
  exact ⟨out, ref, hout, href, fun d => ⟨(ho d).trans (ho' d).symm, ho d⟩,
    fun hlse => ⟨(hl hlse).trans (hl' hlse).symm, hl hlse⟩⟩

/-- Two query heads on one key head, two causal queries against three keys: the last row. -/
theorem fused_eq_gpuRef_gqa :
    let L : Launch ℝ ℝ := .bhsd true true (fun e => e) (fun e => -e) (fun e => 2 * e) 1 1 1 2 2 3
      one_pos two_pos zero_le_two (by norm_num)
    ∃ out ref, L.exact.run exact (fun _ => nan) 0 1 (1 / 128) = some out ∧
      gpuRefFmhaKernel exact (refParams L.exact) (rowTid (refParams L.exact) 0 1 1) = .wrote ref ∧
      (∀ d : Fin 64,
        rowValue out (rowInTile 1) d = refValue ref d ∧
        rowValue out (rowInTile 1) d
          = some (fin (Attention.output (L.keys 0 1) (L.score 0 1 1) (L.value 0 1) d))) ∧
      (L.params.lse →
        rowLse out (rowInTile 1) = refLse ref ∧
        rowLse out (rowInTile 1) = some (Attention.lse (L.keys 0 1) (L.score 0 1 1))) :=
  fused_eq_gpuRef _ one_pos _ ⟨le_rfl, one_pos, zero_le_one, one_lt_two, zero_le_one, one_lt_two⟩

end FmhaNative.FusedAttention
