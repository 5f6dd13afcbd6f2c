import FmhaNative.ComponentsRef

/-!
The component oracles in a chain compute attention: the thread buffers cancel out, and what is
left in `o_dram` is the softmax-weighted row, each weight and the result truncated.
-/

namespace FmhaNative.OracleChain

open ComponentsRef XReal

/-- A score row of 64 columns whose valid columns are those below `n`. -/
def IsRow (X : ℕ → XReal) (n : ℕ) (s : ℕ → ℝ) : Prop :=
  ∀ j, X j = if j < n then fin (s j) else inf true

variable {X : ℕ → XReal} {n : ℕ} {s : ℕ → ℝ}

/-- The maximum of the valid columns. -/
lemma IsRow.max (h : IsRow X n s) (hn : n ≤ 64) (hA : (Finset.range n).Nonempty) :
    OpSoftmax.maxOver Fp.negInf ((List.range 64).map X) = fin ((Finset.range n).sup' hA s) := by
  have hset : Finset.filter (· < n) (List.range 64).toFinset = Finset.range n := by
    ext j
    simp only [Finset.mem_filter, List.mem_toFinset, List.mem_range, Finset.mem_range]
    omega
  have hA' : (Finset.filter (· < n) (List.range 64).toFinset).Nonempty := hset ▸ hA
  have hmax : OpSoftmax.maxOver Fp.negInf
      ((List.range 64).map fun j => if j < n then fin (s j) else Fp.negInf)
        = fin (Finset.sup' _ hA' s) :=
    OpSoftmax.maxOver_negInf fmax_fin fmax_ninf_fin (List.range 64) hA'
  simp only [hset] at hmax
  rw [← hmax]
  exact congrArg _ (List.map_congr_left fun j _ => h j)

/-- The weight of a column relative to the row's maximum. -/
noncomputable def rowWeight (c : ℝ) (s : ℕ → ℝ) (M : ℝ) (j : ℕ) : ℝ := 2 ^ (c * (s j - M))

/-- The probability of a column; no column of an empty row has one. -/
lemma IsRow.prob (h : IsRow X n s) (c M : ℝ) (j : ℕ) :
    softmaxProb (fin c) (X j) (fin M) = fin (if j < n then rowWeight c s M j else 0) := by
  unfold softmaxProb
  rw [h j]
  by_cases hj : j < n
  · rw [if_pos hj, if_pos hj, if_neg (by simp), sub_fin, fin_mul, exp2f_def, exp2_fin, rowWeight]
  · rw [if_neg hj, if_neg hj, if_pos (by simp), zero_def]

lemma IsRow.prob_empty (h : IsRow X 0 s) (c : ℝ) (M : XReal) (j : ℕ) :
    softmaxProb (fin c) (X j) M = fin 0 := by
  unfold softmaxProb
  rw [h j, if_neg (Nat.not_lt_zero j), if_pos (by simp), zero_def]

/-- A sum over the 64 columns is one over the valid columns. -/
lemma sum_valid (hn : n ≤ 64) (f : ℕ → ℝ) :
    ∑ j ∈ Finset.range 64, (if j < n then f j else 0) = ∑ j ∈ Finset.range n, f j := by
  rw [← Finset.sum_filter]
  congr 1
  ext j
  simp only [Finset.mem_filter, Finset.mem_range]
  omega

/-- The normalisation; an empty row gives zero. -/
lemma mul_invRs (o l : ℝ) : fin o * invRs (fin l) = fin (o / l) := by
  unfold invRs
  rcases eq_or_ne l 0 with rfl | hl
  · rw [if_pos (by simp), zero_def, fin_mul, mul_zero, div_zero]
  · rw [if_neg (by simpa using hl), recip_def, recip_fin hl, fin_mul, div_eq_mul_inv]

section Chain

variable {β : Type*} [Zero β] (bf : Bf16 XReal β) (Q K V : Mem β)
  (strideQ strideK strideV seqlenQ seqlenK : ℤ) (scale : ℝ)

/-- The buffers between the oracles. -/
noncomputable def chainS : ℕ → XReal := refQkGemm bf.toBf16Conv Q strideQ seqlenQ K strideK seqlenK

noncomputable def chainP : SoftmaxOut XReal :=
  refSoftmax bf.toBf16Conv (chainS bf Q K strideQ strideK seqlenQ seqlenK) seqlenK 0 (fin scale)

noncomputable def chainO : ℕ → XReal :=
  refPvGemm bf.toBf16Conv (chainP bf Q K strideQ strideK seqlenQ seqlenK scale).pOut V strideV seqlenK

/-- The raw score of a query row against key `j`. -/
def rawScore (q k : ℤ → ℝ) (strideQ strideK : ℤ) (m j : ℕ) : ℝ :=
  ∑ d ∈ Finset.range 64, q (m * strideQ + d) * k (j * strideK + d)

/-- The weight of key `j` in row `m`. -/
noncomputable def chainWeight (q k : ℤ → ℝ) (strideQ strideK : ℤ) (scale : ℝ) (m n : ℕ)
    (hn : (Finset.range n).Nonempty) (j : ℕ) : ℝ :=
  rowWeight (scale * Real.logb 2 (Real.exp 1)) (rawScore q k strideQ strideK m)
    ((Finset.range n).sup' hn (rawScore q k strideQ strideK m)) j

/-- The attention row of truncated weights; zero without a key. -/
noncomputable def chainRow (T : ℝ → ℝ) (q k v : ℤ → ℝ) (strideQ strideK strideV : ℤ) (scale : ℝ)
    (m n d : ℕ) : ℝ :=
  if hn : (Finset.range n).Nonempty then
    T ((∑ j ∈ Finset.range n, T (chainWeight q k strideQ strideK scale m n hn j) * v (j * strideV + d))
      / ∑ j ∈ Finset.range n, chainWeight q k strideQ strideK scale m n hn j)
  else 0

/-- The score matrix that the chain starts from. -/
noncomputable def scoreMat (m j : ℕ) : XReal :=
  if (m : ℤ) < seqlenQ ∧ (j : ℤ) < seqlenK then
    ∑ d ∈ Finset.range 64, bf.toFloat (Q (m * strideQ + d)) * bf.toFloat (K (j * strideK + d))
  else 0

variable {bf Q K V strideQ strideK strideV seqlenQ seqlenK scale} {q k v : ℤ → ℝ}

lemma scoreMat_isRow (hq : ∀ e, bf.toFloat (Q e) = fin (q e)) (hk : ∀ e, bf.toFloat (K e) = fin (k e))
    (strideQ strideK seqlenK : ℤ) {m : ℕ} (hm : (m : ℤ) < seqlenQ) :
    IsRow (maskedMat (scoreMat bf Q K strideQ strideK seqlenQ seqlenK) seqlenK 0 m) seqlenK.toNat
      (rawScore q k strideQ strideK m) := by
  intro j
  unfold maskedMat scoreMat
  have hj : (j < seqlenK.toNat) ↔ (j : ℤ) < seqlenK := Int.lt_toNat
  by_cases hlt : (j : ℤ) < seqlenK
  · rw [if_neg (by omega), if_pos ⟨hm, hlt⟩, if_pos (hj.mpr hlt)]
    simp only [hq, hk, fin_mul, sum_fin]
    rfl
  · rw [if_pos (by omega), if_neg (by rwa [hj])]
    rfl

/-- The probabilities of a row. -/
lemma probMat_row (hq : ∀ e, bf.toFloat (Q e) = fin (q e)) (hk : ∀ e, bf.toFloat (K e) = fin (k e))
    (strideQ strideK : ℤ) (scale : ℝ) (hsk : seqlenK ≤ 64) {m : ℕ} (hm : (m : ℤ) < seqlenQ) :
    ∃ w : ℕ → ℝ, (∀ j, probMat (scoreMat bf Q K strideQ strideK seqlenQ seqlenK) seqlenK 0
          (fin (scale * Real.logb 2 (Real.exp 1))) m j = fin (if j < seqlenK.toNat then w j else 0)) ∧
      ∀ hn, w = chainWeight q k strideQ strideK scale m seqlenK.toNat hn := by
  have hrow := scoreMat_isRow hq hk strideQ strideK seqlenK hm
  rcases (Finset.range seqlenK.toNat).eq_empty_or_nonempty with he | hn
  · have h0 : seqlenK.toNat = 0 := Finset.range_eq_empty_iff.mp he
    rw [h0] at hrow ⊢
    refine ⟨fun _ => 0, fun j => ?_, fun hn => absurd hn (by simp)⟩
    rw [ite_self]
    exact hrow.prob_empty _ _ j
  · refine ⟨chainWeight q k strideQ strideK scale m seqlenK.toNat hn, fun j => ?_, fun _ => rfl⟩
    unfold probMat rowMaxMat
    rw [hrow.max (by omega) hn]
    exact hrow.prob _ _ j

/-- **The oracles in a chain compute attention**, and each element of a row is written once. -/
theorem oracle_chain {T : ℝ → ℝ} (hT : ∀ r, bf.toFloat (bf.ofFloat (fin r)) = fin (T r))
    (hq : ∀ e, bf.toFloat (Q e) = fin (q e)) (hk : ∀ e, bf.toFloat (K e) = fin (k e))
    (hv : ∀ e, bf.toFloat (V e) = fin (v e)) (hsq : seqlenQ ≤ 128) (hsk : seqlenK ≤ 64) {m d : ℕ}
    (hm : (m : ℤ) < seqlenQ) (hd : d < 64) :
    let oAcc := chainO bf Q K V strideQ strideK strideV seqlenQ seqlenK scale
    let rsum := (chainP bf Q K strideQ strideK seqlenQ seqlenK scale).rsumOut
    ((refDramStores bf.toBf16Conv oAcc rsum seqlenQ).map Prod.fst).count (m * 64 + d) = 1 ∧
      (refEpilog bf.toBf16Conv oAcc rsum seqlenQ).oDram (m * 64 + d)
        = fin (chainRow T q k v strideQ strideK strideV scale m seqlenK.toNat d) := by
  intro oAcc rsum
  have h0 : T 0 = 0 := truncated_zero hT
  obtain ⟨w, hP, hw⟩ := probMat_row hq hk strideQ strideK scale hsk hm
  have hs := refQkGemm_holds bf.toBf16Conv Q strideQ seqlenQ K strideK seqlenK
  have ho := refPvGemm_holds bf.toBf16Conv
    (refSoftmax_holds bf.toBf16Conv hs seqlenK 0 (fin scale)) V strideV seqlenK
  obtain ⟨hcount, hdram⟩ := refEpilog_dram bf.toBf16Conv ho
    (Z := fun m => ∑ j ∈ Finset.range 64, probMat _ seqlenK 0 (fin scale * Fp.log2e) m j)
    (fun tid ht => refSoftmax_rsum bf.toBf16Conv hs seqlenK 0 (fin scale) ht) (by omega) hm hd
  refine ⟨hcount, hdram.trans ?_⟩
  -- the two sums of the row
  have hden : ∑ j ∈ Finset.range 64, probMat (scoreMat bf Q K strideQ strideK seqlenQ seqlenK) seqlenK 0
      (fin (scale * Real.logb 2 (Real.exp 1))) m j = fin (∑ j ∈ Finset.range seqlenK.toNat, w j) := by
    rw [← sum_valid (by omega) w, ← sum_fin]
    exact Finset.sum_congr rfl fun j _ => hP j
  have hnum : ∑ j ∈ Finset.range 64, bf.toFloat (bf.ofFloat (probMat
        (scoreMat bf Q K strideQ strideK seqlenQ seqlenK) seqlenK 0
        (fin (scale * Real.logb 2 (Real.exp 1))) m j)) *
        (if (j : ℤ) < seqlenK then bf.toFloat (V (j * strideV + d)) else 0)
      = fin (∑ j ∈ Finset.range seqlenK.toNat, T (w j) * v (j * strideV + d)) := by
    rw [← sum_valid (by omega) fun j => T (w j) * v (j * strideV + d), ← sum_fin]
    refine Finset.sum_congr rfl fun j _ => ?_
    have hj : (j : ℤ) < seqlenK ↔ j < seqlenK.toNat := Int.lt_toNat.symm
    rw [hP, hT, hv, if_congr hj rfl rfl]
    split_ifs
    · rw [fin_mul]
    · rw [h0, zero_def, fin_mul, mul_zero]
  refine (congrArg (fun y => bf.toFloat (bf.ofFloat y))
    (congrArg₂ (fun o l => o * invRs l) hnum hden)).trans ?_
  rw [mul_invRs, hT, chainRow]
  split_ifs with hn
  · rw [hw hn]
  · rw [Finset.not_nonempty_iff_eq_empty.mp hn, Finset.sum_empty, zero_div, h0]

end Chain

/-- One query of zeros against two keys, over values of three. -/
theorem oracle_chain_twoKeys :
    let zeros : Mem XReal := fun _ => fin 0
    (refEpilog exact.toBf16Conv (chainO exact zeros zeros (fun _ => fin 3) 64 64 64 1 2 1)
      (chainP exact zeros zeros 64 64 1 2 1).rsumOut 1).oDram (0 * 64 + 5) = fin 3 := by
  intro zeros
  have hscore : ∀ j, rawScore (fun _ => 0) (fun _ => 0) 64 64 0 j = 0 := by
    intro j
    simp [rawScore]
  have hrow : chainRow id (fun _ => 0) (fun _ => 0) (fun _ => 3) 64 64 64 1 0 2 5 = 3 := by
    rw [chainRow, dif_pos (by simp)]
    simp only [chainWeight, rowWeight, hscore, Finset.sup'_const, sub_self, mul_zero,
      Real.rpow_zero, id_eq, one_mul, Finset.sum_const, Finset.card_range, nsmul_eq_mul]
    norm_num
  exact (oracle_chain (T := id) (q := fun _ => 0) (k := fun _ => 0) (v := fun _ => 3)
    (fun _ => rfl) (fun _ => rfl) (fun _ => rfl) (fun _ => rfl) (by norm_num) (by norm_num)
    (by norm_num) (by norm_num)).2.trans (congrArg fin hrow)

end FmhaNative.OracleChain
