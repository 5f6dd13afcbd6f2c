import FmhaNative.Launch
import FmhaNative.RowExact

/-!
What a stored row depends on.

Two device memories agree for a row when they agree on its query row and on the key and value
rows it attends. The log-sum-exp then agrees. The output row agrees exactly when every value
element of the walked tiles belongs to an attended row: an unattended one is multiplied by a
zero probability, and `0 * inf` is not zero.
-/

namespace FmhaNative

open Pipeline RowRecurrence

/-- The contents of the input tensors. -/
structure DeviceMem (β : Type*) where
  (q k v : Mem β)

/-- The launch on other memory contents. -/
def Launch.withMem {α β : Type*} (L : Launch α β) (M : DeviceMem β) : Launch α β :=
  { L with params := { L.params with q := M.q, k := M.k, v := M.v } }

namespace Noninterference

open Launch XReal

variable {α β : Type*} (L : Launch α β) (b h i : ℤ)

/-- The memories agree on query row `i` and on the key and value rows that it attends. -/
structure Agree (M M' : DeviceMem β) : Prop where
  q : ∀ d : ℕ, d < 64 → M.q (L.qOff b h i + d) = M'.q (L.qOff b h i + d)
  k : ∀ j : ℕ, L.attended b i j → ∀ d : ℕ, d < 64 →
    M.k (L.kOff b h j + d) = M'.k (L.kOff b h j + d)
  v : ∀ j : ℕ, L.attended b i j → ∀ d : ℕ, d < 64 →
    M.v (L.vOff b h j + d) = M'.v (L.vOff b h j + d)

/-- The keys of the tiles that the block of row `i` walks, by position. -/
def walked (j : ℕ) : Prop :=
  64 * ((j : ℤ) / 64)
    < LoopBound.keyEnd L.hasMask (L.seq b).seqlenQ (L.seq b).seqlenK (i / 128)

/-- Every value element of the walked tiles is an element of an attended value row. -/
def ValuesAttended : Prop :=
  ∀ j : ℕ, walked L b i j → ∀ d : ℕ, d < 64 → ∃ j' : ℕ, L.attended b i j' ∧
    ∃ d' : ℕ, d' < 64 ∧ L.vOff b h j + d = L.vOff b h j' + d'

/-- Both runs store the same row `i`, whatever shared memory holds at entry. -/
def SameRow [Fp α] [Zero β] (bf : Bf16 α β) (M M' : DeviceMem β) : Prop :=
  ∀ lds lds', ∃ out out', (L.withMem M).run bf lds b h (i / 128) = some out ∧
    (L.withMem M').run bf lds' b h (i / 128) = some out' ∧
    (∀ d, rowValue out (rowInTile i) d = rowValue out' (rowInTile i) d) ∧
    rowLse out (rowInTile i) = rowLse out' (rowInTile i)

variable {L b h i}

/-- The walked keys by position are the keys of the tiles that the loop walks. -/
lemma walked_iff (j : ℕ) : walked L b i j ↔ j < 64 * L.tiles b i := by
  rw [walked, ← LoopBound.lt_tiles_iff (Int.natCast_nonneg j), Launch.tiles]
  omega

lemma InRange.withMem (hr : L.InRange b h i) (M : DeviceMem β) : (L.withMem M).InRange b h i :=
  ⟨hr.b_nonneg, hr.b_lt, hr.h_nonneg, hr.h_lt, hr.i_nonneg, hr.i_lt⟩

/-- The recurrence of the row in a memory. -/
lemma row_withMem [Fp α] [Zero β] (bf : Bf16 α β) (hr : L.InRange b h i) (M : DeviceMem β) :
    (L.withMem M).row bf b h i = rowRun bf L.params.scale ((L.withMem M).rawScore bf b h i)
      ((L.withMem M).rawValue b h) (L.tiles b i) :=
  row_eq bf (L.withMem M) (InRange.withMem hr M)

/-- Scores of unattended keys are masked, so the scores agree. -/
lemma rawScore_congr [Fp α] [Zero β] {bf : Bf16 α β} {M M' : DeviceMem β}
    (ha : Agree L b h i M M') (j : ℕ) :
    (L.withMem M).rawScore bf b h i j = (L.withMem M').rawScore bf b h i j := by
  by_cases hj : L.attended b i j
  · have hs : ∀ M : DeviceMem β, (L.withMem M).rawScore bf b h i j = ∑ d ∈ Finset.range 64,
        bf.toFloat (M.k (L.kOff b h j + d)) * bf.toFloat (M.q (L.qOff b h i + d)) :=
      fun M => if_pos hj
    rw [hs, hs]
    refine Finset.sum_congr rfl fun d hd => ?_
    rw [ha.k j hj d (Finset.mem_range.mp hd), ha.q d (Finset.mem_range.mp hd)]
  · exact (if_neg hj).trans (if_neg hj).symm

/-- With every walked value attended, the row depends on attended keys only. -/
lemma sameRow_of_agree [Fp α] [Zero β] {bf : Bf16 α β} (hr : L.InRange b h i)
    (hv : ValuesAttended L b h i) {M M' : DeviceMem β} (ha : Agree L b h i M M') :
    SameRow L b h i bf M M' := by
  intro lds lds'
  obtain ⟨out, hout, ho, hl⟩ := run_row bf (L.withMem M) lds (InRange.withMem hr M)
  obtain ⟨out', hout', ho', hl'⟩ := run_row bf (L.withMem M') lds' (InRange.withMem hr M')
  simp only [cell, lseCell, row_withMem bf hr] at ho hl ho' hl'
  have hS : ∀ j : ℕ, j < 64 * L.tiles b i →
      (L.withMem M).rawScore bf b h i j = (L.withMem M').rawScore bf b h i j :=
    fun j _ => rawScore_congr ha j
  obtain ⟨hmax, hsum⟩ := rowRun_congr bf L.params.scale ((L.withMem M).rawValue b h)
    ((L.withMem M').rawValue b h) hS
  refine ⟨out, out', hout, hout', fun d => ?_, ?_⟩
  · have hV : ∀ j : ℕ, j < 64 * L.tiles b i →
        (L.withMem M).rawValue b h j d.val = (L.withMem M').rawValue b h j d.val := by
      intro j hj
      obtain ⟨j', hj', d', hd', he⟩ := hv j ((walked_iff j).mpr hj) d.val d.isLt
      change M.v (L.vOff b h j + d.val) = M'.v (L.vOff b h j + d.val)
      rw [he]
      exact ha.v j' hj' d' hd'
    rw [ho, ho', hsum, rowRun_oAcc_congr bf L.params.scale hS hV]
  · rw [hl, hl', hmax, hsum]
    rfl

/-! ### A `nan` in an unattended value row -/

variable {β : Type*} [Zero β] {bf : Bf16 XReal β} {T : ℝ → ℝ} {σ : ℝ} {L : Launch XReal β}
  {b h i : ℤ}

/-- All tensors zero. -/
def zeroMem : DeviceMem β := ⟨fun _ => 0, fun _ => 0, fun _ => 0⟩

open Classical in
/-- All tensors zero but one value element. -/
noncomputable def nanMem (bf : Bf16 XReal β) (e : ℤ) : DeviceMem β :=
  ⟨fun _ => 0, fun _ => 0, Function.update (fun _ => 0) e (bf.ofFloat nan)⟩

/-- The row that the block computes on zero tensors. -/
noncomputable def zeroRow (hT : Truncates bf T) (b h i : ℤ) :
    RowExact.RealRow bf ((L.withMem zeroMem).rawScore bf b h i) (fun _ _ => 0) where
  attended j := L.attended b i j
  x _ := 0
  v _ _ := 0
  trunc := T
  score j := by
    simp only [rawScore, Launch.withMem, zeroMem, bf.toFloat_zero, negInf_def]
    simp only [zero_def, fin_mul, sum_fin, mul_zero, Finset.sum_const_zero]
    rfl
  value _ _ := bf.toFloat_zero
  trunc_eq := hT.fin

lemma exists_fin_invSum (l : ℝ) : ∃ r, OpEpilog.invSum (fin l) = fin r := by
  rw [OpEpilog.invSum]
  split_ifs with hl
  · have hl' : 0 < l := by simpa using hl
    exact ⟨l⁻¹, recip_fin hl'.ne'⟩
  · exact ⟨0, rfl⟩

/-- On zero tensors the stored values are truncated real numbers. -/
lemma exists_zeroRow_value (hT : Truncates bf T) (hσ : 0 < σ) (hs : L.params.scale = fin σ)
    (hr : L.InRange b h i) (d : ℕ) :
    ∃ r, ((L.withMem zeroMem).row bf b h i).oAcc d *
      OpEpilog.invSum ((L.withMem zeroMem).row bf b h i).rsum = fin r := by
  obtain ⟨hl, ho⟩ := RowExact.rowRun_real (zeroRow (L := L) hT b h i) hσ (L.tiles b i)
  rw [row_withMem bf hr, hs]
  have hV : (L.withMem zeroMem).rawValue b h = fun _ _ => 0 := rfl
  rw [hV, hl, ho]
  obtain ⟨r, hr'⟩ := exists_fin_invSum (OnlineSoftmax.run (RowExact.weight σ)
    (RowExact.rowMax bf σ ((L.withMem zeroMem).rawScore bf b h i) (fun _ _ => 0))
    (fun k => ∑ j ∈ Finset.range 64, (zeroRow (L := L) hT b h i).prob σ k j) (L.tiles b i))
  rw [hr']
  exact ⟨_, rfl⟩

/-- A `nan` in a walked value row that is not attended is stored. -/
lemma exists_not_sameRow (hT : Truncates bf T) (hσ : 0 < σ) (hs : L.params.scale = fin σ)
    (hr : L.InRange b h i) {j d : ℕ} (hj : walked L b i j) (hd : d < 64)
    (hne : ∀ j' : ℕ, L.attended b i j' → ∀ d' : ℕ, d' < 64 →
      L.vOff b h j + d ≠ L.vOff b h j' + d') :
    ∃ M M', Agree L b h i M M' ∧ ¬ SameRow L b h i bf M M' := by
  set e := L.vOff b h j + d with he
  refine ⟨zeroMem, nanMem bf e, ⟨fun _ _ => rfl, fun _ _ _ _ => rfl, fun j' hj' d' hd' => ?_⟩, ?_⟩
  · exact (Function.update_of_ne (hne j' hj' d' hd').symm _ _).symm
  · intro hsame
    obtain ⟨out, out', hout, hout', hv, -⟩ := hsame (fun _ => 0) (fun _ => 0)
    obtain ⟨out₁, hout₁, ho, -⟩ := run_row bf (L.withMem zeroMem) (fun _ => 0)
      (InRange.withMem hr zeroMem)
    obtain ⟨out₂, hout₂, ho', -⟩ := run_row bf (L.withMem (nanMem bf e)) (fun _ => 0)
      (InRange.withMem hr (nanMem bf e))
    obtain rfl := Option.some.inj (hout.symm.trans hout₁)
    obtain rfl := Option.some.inj (hout'.symm.trans hout₂)
    have hnan : ((L.withMem (nanMem bf e)).row bf b h i).oAcc d = nan := by
      rw [row_withMem bf hr]
      refine RowExact.rowRun_oAcc_nan ((walked_iff j).mp hj) ?_
      change bf.toFloat ((nanMem bf e).v (L.vOff b h j + d)) = nan
      rw [← he]
      simp only [nanMem, Function.update_self, hT.nan]
    obtain ⟨r, hfin⟩ := exists_zeroRow_value hT hσ hs hr d
    have heq := (ho ⟨d, hd⟩).symm.trans ((hv ⟨d, hd⟩).trans (ho' ⟨d, hd⟩))
    rw [cell, cell, hfin, hnan, nan_mul, Option.some.injEq] at heq
    have := congrArg bf.toFloat heq
    rw [hT.fin, hT.nan] at this
    exact XReal.noConfusion this

/-- An unmasked row that attends whole tiles. -/
lemma valuesAttended_of_dvd {α β : Type*} {L : Launch α β} {b h i : ℤ} (hm : L.hasMask = false)
    (hd : (64 : ℤ) ∣ (L.seq b).seqlenK) : ValuesAttended L b h i := by
  intro j hj d hd'
  rw [walked, LoopBound.keyEnd, hm, if_neg Bool.false_ne_true] at hj
  refine ⟨j, ⟨by omega, fun h => ?_⟩, d, hd', rfl⟩
  rw [hm] at h
  exact absurd h Bool.false_ne_true

lemma two_nonneg : (0 : ℤ) ≤ 2 := zero_le_two

/-- Two causal queries against two keys. -/
noncomputable def twoByTwo : Launch XReal XReal :=
  .bhsd true true (fun _ => 0) (fun _ => 0) (fun _ => 0) (fin 1) 1 1 1 2 2
    Int.one_pos Int.one_pos two_nonneg two_nonneg

lemma twoByTwo_inRange : twoByTwo.InRange 0 0 0 :=
  ⟨le_rfl, one_pos, le_rfl, one_pos, le_rfl, two_pos⟩

end Noninterference

end FmhaNative
