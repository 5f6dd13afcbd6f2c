import FmhaNative.CpuRef
import FmhaNative.RowExact

/-!
What truncating the probabilities costs: the kernel truncates a probability relative to the
maximum of its tile, the CPU oracle the normalised weight, and each loses one truncation of each
weight, whatever the tiles and the maxima were.
-/

namespace FmhaNative.Truncation

open Host RowRecurrence RowExact OnlineSoftmax GpuRefExact XReal

/-- `T` takes at most the part `ε` from a number, and adds nothing. -/
def Truncates (ε : ℝ) (T : ℝ → ℝ) : Prop := ∀ x, 0 ≤ x → (1 - ε) * x ≤ T x ∧ T x ≤ x

lemma Truncates.nonneg {ε : ℝ} {T : ℝ → ℝ} (hT : Truncates ε T) : 0 ≤ ε := by
  have h := hT 1 zero_le_one
  linarith

lemma Truncates.loses {ε : ℝ} {T : ℝ → ℝ} (hT : Truncates ε T) {A : Finset ℕ} {p : ℕ → ℝ}
    (hp : ∀ j ∈ A, 0 ≤ p j) : Loses ε A p fun j => T (p j) := fun j hj => hT (p j) (hp j hj)

variable {β : Type*} [Zero β] {bf : Bf16 XReal β} {S : ℤ → XReal} {V : ℤ → ℕ → β}

/-! ### The kernel's row -/

/-- What key `j` weighs in the numerator, at the fixed reference. -/
noncomputable def keptWeight (R : RealRow bf S V) (σ : ℝ) (m : ℕ → ℝ) (j : ℕ) : ℝ :=
  weight σ (m (j / 64 + 1)) * R.trunc (weight σ (R.x j - m (j / 64 + 1)))

/-- A truncation relative to any reference is one of the absolute weight. -/
lemma keptWeight_loses (R : RealRow bf S V) {ε : ℝ} (hT : Truncates ε R.trunc) (σ : ℝ) (m : ℕ → ℝ)
    (A : Finset ℕ) :
    Loses ε A (fun j => Real.exp (σ * Real.log 2 * R.x j)) (keptWeight R σ m) := by
  intro j _
  have hM := weight_pos σ (m (j / 64 + 1))
  have hW : weight σ (m (j / 64 + 1)) * weight σ (R.x j - m (j / 64 + 1))
      = Real.exp (σ * Real.log 2 * R.x j) := by
    rw [← (weight_isExp σ).add, add_sub_cancel, weight_eq_exp]
  obtain ⟨h1, h2⟩ := hT _ (weight_pos σ (R.x j - m (j / 64 + 1))).le
  constructor
  · calc (1 - ε) * Real.exp (σ * Real.log 2 * R.x j)
        = weight σ (m (j / 64 + 1)) * ((1 - ε) * weight σ (R.x j - m (j / 64 + 1))) := by
          rw [← hW]
          ring
      _ ≤ keptWeight R σ m j := mul_le_mul_of_nonneg_left h1 hM.le
  · exact (mul_le_mul_of_nonneg_left h2 hM.le).trans_eq hW

/-- **The numerator in closed form**: one kept weight a key. -/
lemma weight_mul_oAcc (R : RealRow bf S V) (σ : ℝ) (m : ℕ → ℝ) (n d : ℕ) :
    weight σ (m n) * run (weight σ) m
        (fun k => ∑ j ∈ Finset.range 64, R.trunc (R.probAt σ m k j) * R.v (64 * k + j) d) n
      = ∑ j ∈ R.keys n, keptWeight R σ m j * R.v j d := by
  let c : ℕ → ℝ := fun j =>
    if R.attended j then R.trunc (weight σ (R.x j - m (j / 64 + 1))) * R.v j d else 0
  have hc : ∀ k, ∑ j ∈ Finset.range 64, R.trunc (R.probAt σ m k j) * R.v (64 * k + j) d
      = ∑ j ∈ Finset.range 64, c (64 * k + j) := by
    intro k
    refine Finset.sum_congr rfl fun j hj => ?_
    have hk : (64 * k + j) / 64 = k := by
      have := Finset.mem_range.mp hj
      omega
    simp only [c, RealRow.probAt, hk]
    split_ifs
    · rfl
    · rw [R.trunc_zero, zero_mul]
  rw [run_keys (w := 64) (weight_isExp σ) (by norm_num) hc n, RealRow.keys, Finset.sum_filter]
  refine Finset.sum_congr rfl fun j _ => ?_
  simp only [c]
  split_ifs
  · rw [keptWeight, mul_assoc]
  · rw [mul_zero]

/-- The normalised kernel row: kept weights over the sum of the exact ones. -/
lemma runAt_output (R : RealRow bf S V) {σ : ℝ} (hσ : 0 < σ) (m : ℕ → ℝ) (n d : ℕ) :
    (runAt bf (fin σ) S V (fun k => fin (m k)) n).oAcc d *
        OpEpilog.invSum (runAt bf (fin σ) S V (fun k => fin (m k)) n).rsum
      = fin (∑ j ∈ R.keys n, keptWeight R σ m j
          / (∑ l ∈ R.keys n, Real.exp (σ * Real.log 2 * R.x l)) * R.v j d) := by
  obtain ⟨hsum, hacc⟩ := runAt_real R hσ m n
  have hden := weight_mul_rsum R σ m n
  have hM := weight_pos σ (m n)
  have hl : 0 ≤ run (weight σ) m (fun k => ∑ j ∈ Finset.range 64, R.probAt σ m k j) n := by
    have hz : 0 ≤ ∑ j ∈ R.keys n, Real.exp (σ * Real.log 2 * R.x j) :=
      Finset.sum_nonneg fun j _ => (Real.exp_pos _).le
    rw [← hden] at hz
    exact nonneg_of_mul_nonneg_right hz hM
  rw [hsum, hacc, mul_invSum _ hl, run_div (weight_isExp σ) (weight_mul_oAcc R σ m n d) hden,
    Finset.sum_div]
  simp only [div_mul_eq_mul_div]

/-! ### The oracle's row -/

/-- `o` is an `o_ref` row of the CPU oracle, for a score row whose attended keys are `A` with
scores `y`, and for the values `v`. -/
def IsRefRow (bf : Bf16 XReal β) (A : Finset ℕ) (y : ℕ → ℝ) (v : ℕ → ℕ → ℝ) (o : ℕ → XReal) : Prop :=
  ∃ (p : FmhaParams) (hQ hK hV : Mem β) (b hq i : ℤ),
    CpuRef.oRef bf p hQ hK hV b hq i = some o ∧
      Scores (CpuRef.getSkv p b).toNat (CpuRef.score bf p hQ hK b hq (hq.tdiv p.gqa) i) A y ∧
      ∀ j < (CpuRef.getSkv p b).toNat, ∀ d,
        bf.toFloat (hV (CpuRef.kIndex p (CpuRef.vBase p b (hq.tdiv p.gqa)) j d)) = fin (v j d)

lemma IsRefRow.eq_sum {A : Finset ℕ} {y : ℕ → ℝ} {v : ℕ → ℕ → ℝ} {o : ℕ → XReal} {T : ℝ → ℝ}
    (hT : ∀ r, bf.toFloat (bf.ofFloat (fin r)) = fin (T r)) (h : IsRefRow bf A y v o) (d : ℕ) :
    o d = fin (∑ j ∈ A, T (Attention.softmax A y j) * v j d) := by
  obtain ⟨p, hQ, hK, hV, b, hq, i, ho, hs, hv⟩ := h
  rw [← hs.oAcc bf hT hv d, GpuRef.oAcc_eq]
  simp only [CpuRef.oRef] at ho
  split_ifs at ho
  rw [← Option.some.inj ho]
  simp only [Loops.sumLoop_eq]
  exact Finset.sum_congr rfl fun j hj => by rw [CpuRef.prob_eq bf hs (Finset.mem_range.mp hj)]

/-! ### The bound -/

/-- **Truncation costs one truncation**: the normalised kernel row, under any history of maxima
over any number of tiles, is within `ε * sum p |V|` of exact attention and of the oracle's row. The
kernel's own row is the run under its own maxima. -/
theorem truncation_bound (R : RealRow bf S V) {σ ε : ℝ} (hσ : 0 < σ) (hT : Truncates ε R.trunc)
    (m : ℕ → ℝ) (n d : ℕ) :
    (let s := runAt bf (fin σ) S V (fun k => fin (m k)) n
     let A := R.keys n
     let y := fun j => σ * Real.log 2 * R.x j
     let bound := ε * ∑ j ∈ A, Attention.softmax A y j * |R.v j d|
     ∃ o, s.oAcc d * OpEpilog.invSum s.rsum = fin o ∧
       |o - Attention.output A y R.v d| ≤ bound ∧
       ∀ oRef, IsRefRow bf A y R.v oRef → ∃ r, oRef d = fin r ∧ |o - r| ≤ bound) ∧
    rowRun bf (fin σ) S V n = runAt bf (fin σ) S V (fun k => fin (rowMax bf σ S V k)) n := by
  refine ⟨?_, rowRun_eq_rowMax R σ n⟩
  intro s A y bound
  have hp : ∀ j ∈ A, 0 ≤ Attention.softmax A y j := fun j _ => Attention.softmax_nonneg A y j
  have hkept := (keptWeight_loses R hT σ m A).div_const
    (z := ∑ l ∈ A, Real.exp (y l)) (Finset.sum_nonneg fun l _ => (Real.exp_pos _).le)
  refine ⟨_, runAt_output R hσ m n d, ?_, fun oRef ho => ⟨_, ho.eq_sum R.trunc_eq d, ?_⟩⟩
  · exact hkept.abs_sub_le (Loses.refl hT.nonneg hp)
  · exact hkept.abs_sub_le (hT.loses hp)

/-! ### A storage format that halves -/

lemma halve_zero : (0 : XReal) * fin 2⁻¹ = 0 := by simp

/-- Storage that keeps half of every number. -/
noncomputable def halving : Bf16 XReal XReal := ⟨⟨id, fun x => x * fin 2⁻¹⟩, rfl, halve_zero⟩

lemma halving_truncates : Truncates 2⁻¹ fun r => r * 2⁻¹ := by
  intro x hx
  constructor <;> linarith

/-- Two keys of equal scores, and values of one. -/
def twoScores (j : ℤ) : XReal := if j < 2 then fin 0 else inf true

lemma twoScores_natCast (j : ℕ) : twoScores j = if j < 2 then fin 0 else inf true := by
  unfold twoScores
  exact if_congr Nat.cast_lt_ofNat rfl rfl

noncomputable def twoKeys : RealRow halving twoScores fun _ _ => fin 1 where
  attended j := j < 2
  x _ := 0
  v _ _ := 1
  trunc r := r * 2⁻¹
  score := twoScores_natCast
  value _ _ := rfl
  trunc_eq _ := rfl

/-- A test of one head and two rows of one column. -/
def twoRows : FmhaParams :=
  makeParams { b := 1, h := 1, s := 2, d := 1, kvHeads := 1, kvSeq := 2, mask := 0, lse := 0, varlenSeqs := [] }

/-- The oracle's row on queries of zero and values of one. -/
noncomputable def twoRowsRef (_d : ℕ) : XReal :=
  Loops.sumLoop 2 fun j => CpuRef.prob halving 2
    (CpuRef.score halving twoRows (fun _ => fin 0) (fun _ => fin 0) 0 0 0 0) j * fin 1

lemma twoRows_score (hkv : ℤ) (j : ℕ) :
    CpuRef.score halving twoRows (fun _ => fin 0) (fun _ => fin 0) 0 0 hkv 0 j = fin 0 := by
  have hscalar : (twoRows.scalar : XReal) = fin 1 := by
    change Fp.recip (Fp.sqrtf (Fp.lit 1)) = fin 1
    rw [lit_def, Int.cast_one, sqrtf_def, sqrt_fin zero_le_one, Real.sqrt_one, recip_def,
      recip_fin one_ne_zero, inv_one]
  have hmask : twoRows.mask = 0 := rfl
  have hdim : twoRows.headDim.toNat = 1 := rfl
  simp only [CpuRef.score, hmask, hdim, hscalar, ne_eq, not_true_eq_false, false_and, if_false]
  simp [Loops.sumLoop_eq, halving]

lemma twoRows_isRefRow : IsRefRow halving (twoKeys.keys 1) (fun j => 1 * Real.log 2 * twoKeys.x j)
    twoKeys.v twoRowsRef := by
  have hmem : ∀ j, j ∈ twoKeys.keys 1 ↔ j < 2 := by
    intro j
    rw [RealRow.keys, Finset.mem_filter, Finset.mem_range]
    exact ⟨And.right, fun h => ⟨by omega, h⟩⟩
  refine ⟨twoRows, fun _ => fin 0, fun _ => fin 0, fun _ => fin 1, 0, 0, 0, rfl,
    ⟨fun j hj => (hmem j).mp hj, fun j hj => ?_⟩, fun j _ d => rfl⟩
  rw [if_pos ((hmem j).mpr hj), twoRows_score]
  simp [twoKeys]

/-- Under the history of maxima `0, -1`. -/
theorem truncation_bound_halving :
    ∃ o r, (runAt halving (fin 1) twoScores (fun _ _ => fin 1) (fun k => fin (-k)) 1).oAcc 0 *
        OpEpilog.invSum (runAt halving (fin 1) twoScores (fun _ _ => fin 1) (fun k => fin (-k)) 1).rsum
          = fin o ∧ twoRowsRef 0 = fin r ∧
      |o - r| ≤ 2⁻¹ * ∑ j ∈ twoKeys.keys 1,
        Attention.softmax (twoKeys.keys 1) (fun j => 1 * Real.log 2 * twoKeys.x j) j * |twoKeys.v j 0| := by
  obtain ⟨⟨o, ho, -, href⟩, -⟩ :=
    truncation_bound twoKeys one_pos halving_truncates (fun k : ℕ => -(k : ℝ)) 1 0
  obtain ⟨r, hr, hle⟩ := href twoRowsRef twoRows_isRefRow
  exact ⟨o, r, ho, hr, hle⟩

end FmhaNative.Truncation
