import FmhaNative.Offsets32
import FmhaNative.SuiteRun

/-!
Where the loads of the fused kernel stay inside the tensors that the host allocates.

A walked tile is read whole. The rows past the end of a sequence are mostly rows of the next head or
sequence, so what is left of the allocation behind a sequence of the last key head decides.
-/

namespace FmhaNative.ReadBounds

open Host Kernel Loads Oracles RefLaunch SuiteRun
open CpuRef (getSq getSkv vlOffset)

/-! ### The elements of a load -/

section Elements

variable {α β : Type*} (L : Launch α β) (b h mTileIdx : ℤ)

/-- Where the rows of the load's sequence and head begin in its tensor. -/
def base : Load → ℤ
  | .q _ _ => L.qOff b h 0
  | .k _ _ _ _ => L.kOff b h 0
  | .v _ _ _ _ => L.vOff b h 0

/-- The first element that a load reads, from its byte offset. -/
def elem (l : Load) : ℤ := base L b h l + l.voffset (strides L) mTileIdx / 2

def arr : Load → Arr
  | .q _ _ => .q
  | .k _ _ _ _ => .k
  | .v _ _ _ _ => .v

lemma elem_eq (l : Load) : elem L b h mTileIdx l
    = base L b h l + l.row mTileIdx * l.stride (strides L) + l.col := by
  have hoff : l.voffset (strides L) mTileIdx = (l.row mTileIdx * l.stride (strides L) + l.col) * 2 := by
    have hoff := l.voffset_eq (strides L) mTileIdx
    push_cast at hoff
    rw [hoff]
    ring
  rw [elem, hoff, Int.mul_ediv_cancel _ two_ne_zero, add_assoc]

/-- Everything that the blocks of a launch read is in the allocations of the host. -/
def ReadsInside (p : FmhaParams) : Prop :=
  ∀ b h mTileIdx : ℤ, 0 ≤ b → b < L.batch → 0 ≤ h → h < L.params.nheadQ → 0 ≤ mTileIdx →
    mTileIdx < L.grid.y → ∀ l ∈ loads L b mTileIdx,
      0 ≤ elem L b h mTileIdx l ∧ elem L b h mTileIdx l + l.width ≤ (arr l).size p

variable {L b mTileIdx}

/-- A block walks no more tiles than the sequence has. -/
lemma tiles_le (hn : 0 < tiles L b mTileIdx) :
    0 < (L.seq b).seqlenK ∧ tiles L b mTileIdx ≤ ((L.seq b).seqlenK + 63) / 64 := by
  have hend : LoopBound.keyEnd L.hasMask (L.seq b).seqlenQ (L.seq b).seqlenK mTileIdx
      ≤ (L.seq b).seqlenK := by
    unfold LoopBound.keyEnd
    split_ifs <;> omega
  rcases le_or_gt (LoopBound.keyEnd L.hasMask (L.seq b).seqlenQ (L.seq b).seqlenK mTileIdx) 0
    with h0 | hpos
  · exact absurd hn (not_lt.mpr (LoopBound.numTotalLoop_nonpos h0))
  · rw [tiles, LoopBound.numTotalLoop_eq hpos]
    omega

/-- The key rows that a block reads are below the sequence's end rounded up to whole tiles. -/
lemma row_lt_tileEnd {l : Load} (hl : l ∈ loads L b mTileIdx) (hq : arr l ≠ .q) :
    0 ≤ l.row mTileIdx ∧ l.row mTileIdx < ((L.seq b).seqlenK + 63) / 64 * 64 := by
  obtain ⟨-, hn, hissued⟩ := (mem_loads L b mTileIdx).mp hl
  obtain ⟨-, hle⟩ := tiles_le hn
  cases l with
  | q t kstep => exact absurd rfl hq
  | k tile half t issue =>
    have ht := t.isLt
    have : (tile : ℤ) < tiles L b mTileIdx := hissued
    simp only [Load.row, OpLds.kRow, OpLds.kNBase_eq]
    omega
  | v tile half t k3 =>
    have ht := t.isLt
    have : (tile : ℤ) < tiles L b mTileIdx := hissued
    simp only [Load.row, OpLds.vRowInTile_eq]
    omega

end Elements

/-! ### The rows of the host's tensors -/

/-- A length rounded up to whole tiles. -/
def tileEnd (n : ℤ) : ℤ := (n + 63) / 64 * 64

/-- Behind each sequence of the last key head the allocation goes on to the end of its last tile. -/
def TailsFit (p : FmhaParams) : Prop :=
  ∀ b, 0 ≤ b → b < p.batch → 0 < getSq p b → 0 < getSkv p b →
    keyIndex p b (p.kvHeads - 1) (tileEnd (getSkv p b)) ≤ p.rowCount p.kvHeads p.kvSeqLen

section Rows

variable {p : FmhaParams} (hp : WellFormed p) {b : ℤ}

lemma keyIndex_add (p : FmhaParams) (b g j k : ℤ) :
    keyIndex p b g (j + k) = keyIndex p b g j + k := by
  unfold keyIndex
  split_ifs <;> ring

include hp

lemma keyIndex_mono {g g' : ℤ} (hg : g ≤ g') (j : ℤ) : keyIndex p b g j ≤ keyIndex p b g' j := by
  unfold keyIndex
  cases hv : p.varlenMode
  · obtain ⟨-, -, hK⟩ := hp.dense hv
    have := mul_le_mul_of_nonneg_right (add_le_add_right hg (b * p.kvHeads)) hK.le
    simp only [Bool.false_eq_true, if_false]
    omega
  · have := mul_le_mul_of_nonneg_right hg (List.sum_nonneg hp.length_nonneg)
    simp only [if_true]
    omega

/-- The last query head reads the last key head. -/
lemma lastHead : (p.qHeads - 1).tdiv p.gqa = p.kvHeads - 1 := by
  have hg := hp.gqa_pos
  have hsplit : p.qHeads - 1 = p.gqa - 1 + (p.kvHeads - 1) * p.gqa := by
    rw [hp.qHeads_eq]
    ring
  rw [Int.tdiv_eq_ediv_of_nonneg (by have := hp.qHeads_pos; omega), hsplit,
    Int.add_mul_ediv_right _ _ hg.ne', Int.ediv_eq_zero_of_lt (by omega) (by omega), zero_add]

variable (hw : NoOverflow p)
include hw

/-- Where the tails fit, the key rows of the walked tiles are rows of the tensor. -/
lemma key_inside (ht : TailsFit p) {h i j : ℤ} (hc : Checked p b h i) (hsk : 0 < getSkv p b)
    (hj0 : 0 ≤ j) (hj : j < tileEnd (getSkv p b)) :
    0 ≤ keyIndex p b (h.tdiv p.gqa) j ∧
      keyIndex p b (h.tdiv p.gqa) j < p.rowCount p.kvHeads p.kvSeqLen := by
  obtain ⟨hg0, hg⟩ := hp.kvHead hc.hq_nonneg hc.hq_lt
  have hsq : 0 < getSq p b := lt_of_le_of_lt hc.i_nonneg hc.i_lt
  have hstart := keyIndex_add p b (h.tdiv p.gqa) 0 j
  have hstop := keyIndex_add p b (p.kvHeads - 1) j (tileEnd (getSkv p b) - j)
  rw [zero_add] at hstart
  rw [add_sub_cancel] at hstop
  constructor
  · obtain ⟨h0, -⟩ := keyIndex_mem hp hw hc hg0 hg le_rfl hsk le_rfl hp.headDim_pos
    rw [add_zero] at h0
    have := nonneg_of_mul_nonneg_left h0 hp.headDim_pos
    omega
  · have hmono := keyIndex_mono hp (b := b) (Int.le_sub_one_of_lt hg) j
    have htail := ht b hc.b_nonneg hc.b_lt hsq hsk
    omega

end Rows

section Suite

variable {p : FmhaParams} (hp : WellFormed p) (hw : NoOverflow p) (hQ hK hV : Mem ℝ)
  {b h i mTileIdx : ℤ}

lemma suite_lengths (hb : 0 ≤ b) (hbB : b < p.batch) :
    ((suiteLaunch hp hw hQ hK hV).seq b).seqlenQ = getSq p b ∧
      ((suiteLaunch hp hw hQ hK hV).seq b).seqlenK = getSkv p b := by
  rw [suite_seq hp hw hQ hK hV hb hbB]
  exact ⟨rfl, rfl⟩

variable (h64 : p.headDim = 64)
include h64

lemma suite_kElem (hc : Checked p b h i) {l : Load} (hl : arr l ≠ .q) :
    elem (suiteLaunch hp hw hQ hK hV) b h mTileIdx l
      = keyIndex p b (h.tdiv p.gqa) (l.row mTileIdx) * 64 + l.col := by
  rw [elem_eq]
  obtain ⟨hk, hv⟩ := suite_kOff hp hw hQ hK hV h64 hc (l.row mTileIdx)
  cases l with
  | q t kstep => exact absurd rfl hl
  | k tile half t issue =>
    rw [← hk]
    simp only [base, Load.stride, strides, Launch.kOff]
    ring
  | v tile half t k3 =>
    rw [← hv]
    simp only [base, Load.stride, strides, Launch.vOff]
    ring

lemma suite_qElem {t : Thread} {kstep : Fin 4}
    (hc : Checked p b h ((Load.q t kstep).row mTileIdx)) :
    elem (suiteLaunch hp hw hQ hK hV) b h mTileIdx (.q t kstep)
      = rowIndex p b h ((Load.q t kstep).row mTileIdx) * 64 + (Load.q t kstep).col := by
  rw [elem_eq, ← (suite_qOff hp hw hQ hK hV h64 hc).1]
  simp only [base, Load.stride, strides, Launch.qOff]
  ring

/-- The last K row of the last tile of a sequence shows that its tail fits. -/
lemma tailsFit_of_inside (hall : ReadsInside (suiteLaunch hp hw hQ hK hV) p) : TailsFit p := by
  intro b hb hbB hsq hsk
  have hH := hp.qHeads_pos
  have hc : Checked p b (p.qHeads - 1) 0 := ⟨hb, hbB, by omega, by omega, le_rfl, hsq⟩
  obtain ⟨hlenQ, hlenK⟩ := suite_lengths hp hw hQ hK hV hb hbB
  obtain ⟨hm0, hmG, hearly⟩ := Offsets32.lastTile (L := suiteLaunch hp hw hQ hK hV) hb hbB
    (by omega)
  have hn := Offsets32.lastTile_tiles (L := suiteLaunch hp hw hQ hK hV) (b := b) (by omega)
  obtain ⟨t, issue, hrow⟩ := exists_last_row
  have hissued : Load.k (((getSkv p b + 63) / 64).toNat - 1) 0 t issue ∈
      loads (suiteLaunch hp hw hQ hK hV) b
        ((((suiteLaunch hp hw hQ hK hV).seq b).seqlenQ - 1) / 128) := by
    refine (mem_loads _ _ _).mpr ⟨hearly, by omega, ?_⟩
    simp only [Load.Issued]
    omega
  have hinside := (hall b (p.qHeads - 1) _ hb hbB (by omega) (sub_one_lt _) hm0 hmG _ hissued).2
  have hne : arr (Load.k (((getSkv p b + 63) / 64).toNat - 1) 0 t issue) ≠ .q := by
    intro h
    cases h
  have hlast : (Load.k (((getSkv p b + 63) / 64).toNat - 1) 0 t issue).row
      ((((suiteLaunch hp hw hQ hK hV).seq b).seqlenQ - 1) / 128) = tileEnd (getSkv p b) + -1 := by
    simp only [Load.row, hrow, tileEnd]
    omega
  have hsize : (arr (Load.k (((getSkv p b + 63) / 64).toNat - 1) 0 t issue)).size p
      = p.rowCount p.kvHeads p.kvSeqLen * 64 := by
    rw [← h64]
    exact size_k hp hw hc
  rw [suite_kElem hp hw hQ hK hV h64 hc hne, hlast, lastHead hp, keyIndex_add, hsize] at hinside
  have hwidth : (Load.k (((getSkv p b + 63) / 64).toNat - 1) 0 t issue).width = 2 := rfl
  omega

/-- Where the tails fit, every row that is read is a row of its tensor. -/
lemma inside_of_tailsFit (ht : TailsFit p) : ReadsInside (suiteLaunch hp hw hQ hK hV) p := by
  intro b h m hb hbB hh hhH hm hmG l hl
  obtain ⟨hearly, hn, hissued⟩ := (mem_loads _ _ _).mp hl
  obtain ⟨hlenQ, hlenK⟩ := suite_lengths hp hw hQ hK hV hb hbB
  have hsq : 0 < getSq p b := by
    cases hv : p.varlenMode
    · rw [getSq, hv]
      exact (hp.dense hv).2.1
    · by_contra hle
      exact hearly ⟨hv, by omega⟩
  have hc : Checked p b h 0 := ⟨hb, hbB, hh, hhH, le_rfl, hsq⟩
  have hcols := l.col_le
  by_cases hq : arr l = .q
  · cases l with
    | k | v => cases hq
    | q t kstep =>
      have hcr : Checked p b h ((Load.q t kstep).row m) :=
        ⟨hb, hbB, hh, hhH, Offsets32.Load.row_nonneg hm _, hlenQ ▸ hissued⟩
      obtain ⟨h0, -⟩ := rowIndex_mem hp hw hcr le_rfl hp.headDim_pos
      have hlt := rowIndex_lt hp hw hcr
      have hsize : Arr.q.size p = p.rowCount p.qHeads p.seqLen * 64 := h64 ▸ size_q hp hw
      rw [suite_qElem hp hw hQ hK hV h64 hcr, arr, hsize]
      omega
  · obtain ⟨hr0, hr⟩ := row_lt_tileEnd hl hq
    obtain ⟨hsk, -⟩ := tiles_le hn
    rw [hlenK] at hr hsk
    obtain ⟨h0, hlt⟩ := key_inside hp hw ht hc hsk hr0 hr
    have hsize : (arr l).size p = p.rowCount p.kvHeads p.kvSeqLen * 64 := by
      rw [← h64]
      cases l with
      | q => exact absurd rfl hq
      | k => exact size_k hp hw hc
      | v => exact size_v hp hw hc
    rw [suite_kElem hp hw hQ hK hV h64 hc hq, hsize]
    omega

end Suite

/-! ### When the tails fit -/

section Tails

variable {p : FmhaParams} (hp : WellFormed p) (hw : NoOverflow p)
include hp hw

/-- Dense: the last head of the last batch has nothing behind it. -/
lemma tailsFit_dense (hv : p.varlenMode = false) : TailsFit p ↔ 64 ∣ p.kvSeqLen := by
  obtain ⟨hB, hS, hK⟩ := hp.dense hv
  have hHk := hp.kvHeads_pos
  have hlen : ∀ b, getSq p b = p.seqLen ∧ getSkv p b = p.kvSeqLen := fun b => by
    simp only [getSq, getSkv, hv, Bool.false_eq_true, if_false, and_self]
  have hlast : ∀ b, keyIndex p b (p.kvHeads - 1) (tileEnd p.kvSeqLen)
      = (b + 1) * p.kvHeads * p.kvSeqLen + (tileEnd p.kvSeqLen - p.kvSeqLen) := fun b => by
    simp only [keyIndex, hv, Bool.false_eq_true, if_false]
    ring
  unfold TailsFit
  simp only [hlen, hlast, rowCount_eq hp hw, hv, Bool.false_eq_true, if_false]
  constructor
  · intro h
    have hend := h (p.batch - 1) (by omega) (by omega) hS hK
    rw [sub_add_cancel] at hend
    refine Int.dvd_of_emod_eq_zero ?_
    unfold tileEnd at hend
    omega
  · intro hdvd b _ hbB _ _
    have hmono : (b + 1) * p.kvHeads * p.kvSeqLen ≤ p.batch * p.kvHeads * p.kvSeqLen :=
      mul_le_mul_of_nonneg_right (mul_le_mul_of_nonneg_right (by omega) hHk.le) hK.le
    have hround : tileEnd p.kvSeqLen = p.kvSeqLen := by
      unfold tileEnd
      omega
    rw [hround]
    omega

/-- Packed: a sequence of the last head has the sequences after it behind it. -/
lemma tailsFit_packed (hv : p.varlenMode = true) : TailsFit p ↔
    ∀ b, 0 ≤ b → b < p.batch → 0 < getSkv p b →
      vlOffset p b + tileEnd (getSkv p b) ≤ p.varlenSeqs.sum := by
  have hlen : ∀ b, getSq p b = getSkv p b := fun b => by
    simp only [getSq, getSkv, hv, if_true]
  have hrows : ∀ b, keyIndex p b (p.kvHeads - 1) (tileEnd (getSkv p b))
      = p.kvHeads * p.varlenSeqs.sum
        + (vlOffset p b + tileEnd (getSkv p b) - p.varlenSeqs.sum) := fun b => by
    simp only [keyIndex, hv, if_true]
    ring
  unfold TailsFit
  simp only [hlen, hrows, rowCount_eq hp hw, hv, if_true]
  constructor
  · intro h b h0 hB hpos
    have := h b h0 hB hpos hpos
    omega
  · intro h b h0 hB hpos _
    have := h b h0 hB hpos
    omega

end Tails

/-- **What the fused kernel reads is allocated** exactly when, dense, the keys fill whole tiles;
packed, when from the start of each sequence on, the sequences together reach the end of its last
tile. -/
theorem readsInside_iff {p : FmhaParams} (hp : WellFormed p) (hw : NoOverflow p)
    (h64 : p.headDim = 64) (hQ hK hV : Mem ℝ) :
    (p.varlenMode = false →
      (ReadsInside (suiteLaunch hp hw hQ hK hV) p ↔ 64 ∣ p.kvSeqLen)) ∧
    (p.varlenMode = true →
      (ReadsInside (suiteLaunch hp hw hQ hK hV) p ↔
        ∀ b, 0 ≤ b → b < p.batch → 0 < getSkv p b →
          vlOffset p b + tileEnd (getSkv p b) ≤ p.varlenSeqs.sum)) := by
  have hiff : ReadsInside (suiteLaunch hp hw hQ hK hV) p ↔ TailsFit p :=
    ⟨tailsFit_of_inside hp hw hQ hK hV h64, inside_of_tailsFit hp hw hQ hK hV h64⟩
  exact ⟨fun hv => hiff.trans (tailsFit_dense hp hw hv),
    fun hv => hiff.trans (tailsFit_packed hp hw hv)⟩

/-- Two heads and 300 keys, as in the edge cases of the suite. -/
def edgeS300 : TestCase :=
  { b := 1, h := 2, s := 300, d := 64, kvHeads := 0, kvSeq := 0, mask := 0, lse := 0
    varlenSeqs := [] }

lemma edgeS300_admissible : Admissible edgeS300 :=
  { h_pos := by decide, d_pos := by decide, kvHeads_nonneg := by decide
    kvSeq_nonneg := by decide, dvd := by decide, dense := by decide
    length_nonneg := by decide, length_le := by decide }

lemma edgeS300_noOverflow : NoOverflow (makeParams edgeS300) :=
  { qStride := by decide, kStride := by decide, packed := by decide, threads := by decide
    count := by decide }

/-- 300 keys leave the last tile 20 rows short. -/
theorem readsInside_iff_edgeS300 :
    ¬ ReadsInside (suiteLaunch (makeParams_wellFormed edgeS300_admissible edgeS300_noOverflow.count)
      edgeS300_noOverflow (fun _ => 0) (fun _ => 0) fun _ => 0) (makeParams edgeS300) := by
  rw [(readsInside_iff _ edgeS300_noOverflow rfl _ _ _).1 rfl]
  decide

end FmhaNative.ReadBounds
