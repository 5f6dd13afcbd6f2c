import FmhaNative.Offsets32

/-!
What the O stores leave in memory.

A lane stores at a 32-bit offset, and the O descriptor drops what is not below `num_records`.
Where the offsets are exact every issued element is written, at its own address.
-/

namespace FmhaNative

namespace Kernel

open OpEpilog

variable {α β : Type*}

/-- The elements of O that a block writes, and all blocks of a grid. -/
def blockWrites (out : Thread → LaneStores α β) : List (ℤ × β) :=
  (List.finRange 256).flatMap fun t => (List.finRange 8).flatMap fun s =>
    (List.finRange 4).filterMap fun e => (out t).written s e

def launchWrites (g : Dim3) (k : Dim3 → Option (Thread → LaneStores α β)) : List (ℤ × β) :=
  (blocks g).flatMap fun blk => (k blk).toList.flatMap blockWrites

lemma mem_blockWrites {out : Thread → LaneStores α β} {w : ℤ × β} :
    w ∈ blockWrites out ↔ ∃ t s e, (out t).written s e = some w := by
  simp only [blockWrites, List.mem_flatMap, List.mem_filterMap, List.mem_finRange, true_and]

lemma mem_launchWrites {g : Dim3} {k : Dim3 → Option (Thread → LaneStores α β)} {w : ℤ × β} :
    w ∈ launchWrites g k ↔
      ∃ blk ∈ blocks g, ∃ out, k blk = some out ∧ ∃ t s e, (out t).written s e = some w := by
  simp only [launchWrites, List.mem_flatMap, Option.mem_toList, mem_blockWrites]

end Kernel

/-! ### One store -/

namespace Offsets32

open OpEpilog

/-- An exact store puts each element at its column. -/
lemma StoreExact.oElem_eq {seqlenQ strideO row : ℤ} {t : Thread} {s : Fin 8}
    (h : StoreExact seqlenQ strideO row t s) (e : Fin 4) :
    oElem seqlenQ strideO row (colBase t) s e = some (row * strideO + storeCol t s e) := by
  have hx := h.exact
  have hk := h.kept (e.val / 2) (by omega)
  unfold oNumRecords32 at hk
  rw [oElem, rawBufferStoreB64, if_pos hk, Option.some.injEq, storeCol, ← colBase_eq]
  omega

end Offsets32

/-! ### A launch -/

namespace Launch

open OpEpilog Kernel Offsets32 Pipeline

variable {α β : Type*} (L : Launch α β)

/-- The address at which column `d` of a query row is written, if it is. -/
def oAddr (b h i : ℤ) (d : ℕ) : Option ℤ :=
  (oElem (L.seq b).seqlenQ L.params.strideO i (d / 4 % 2 * 4) (d / 8) ⟨d % 4, by omega⟩).map fun a =>
    oBase L.isVarlen L.params b h + a

/-- No element of O is written for two places of the query rows. -/
def WritesApart : Prop :=
  ∀ b h i b' h' i', ∀ d d' : ℕ, L.InRange b h i → d < 64 → L.InRange b' h' i' → d' < 64 →
    ∀ a, L.oAddr b h i d = some a → L.oAddr b' h' i' d' = some a →
      b = b' ∧ h = h' ∧ i = i' ∧ d = d'

lemma oAddr_storeCol (b h i : ℤ) (t : Thread) (s : Fin 8) (e : Fin 4) :
    L.oAddr b h i (storeCol t s e)
      = (oElem (L.seq b).seqlenQ L.params.strideO i (colBase t) s e).map fun a =>
          oBase L.isVarlen L.params b h + a := by
  have hk := kSub_lt t
  have hcol : storeCol t s e / 4 % 2 * 4 = colBase t := by
    rw [colBase_eq, storeCol]
    omega
  have hs : storeCol t s e / 8 = s := by
    rw [storeCol]
    omega
  have he : (⟨storeCol t s e % 4, by omega⟩ : Fin 4) = e := by
    ext
    simp only [storeCol]
    omega
  rw [oAddr, hcol, hs, he]

variable {L} in
/-- With exact offsets an element is written where it belongs. -/
lemma oAddr_of_exact (hx : OffsetsExact L) {b h i : ℤ} (hr : L.InRange b h i) {d : ℕ} (hd : d < 64) :
    L.oAddr b h i d = some (L.oOff b h i + d) := by
  obtain ⟨t, s, e, hm, rfl⟩ := exists_storeCol (m := (rowInTile i).val) (rowInTile i).isLt hd
  have hi0 := hr.i_nonneg
  have hrow : i / 128 * 128 + (mRow t : ℤ) = i := by rw [hm, tile_row]
  have hs := hx.stores b (i / 128) hr.b_nonneg hr.b_lt (by omega) (L.tile_lt_grid hr) t s
    (by rw [hrow]; exact hr.i_lt)
  rw [hrow] at hs
  rw [oAddr_storeCol, hs.oElem_eq, Option.map_some, oOff, add_assoc]

variable {L} in
lemma writesApart_of_exact (hx : OffsetsExact L) (hinj : L.OInjective) : L.WritesApart := by
  intro b h i b' h' i' d d' hr hd hr' hd' a ha ha'
  rw [oAddr_of_exact hx hr hd] at ha
  rw [oAddr_of_exact hx hr' hd'] at ha'
  exact hinj _ _ _ _ _ _ _ _ hr hd hr' hd' (Option.some.inj (ha.trans ha'.symm))

variable [Fp α] [Zero β] (bf : Bf16 α β)

/-- What a block writes is what it issues, where the descriptor puts it. -/
lemma written_of_run {lds : Mem β} {b h mTileIdx : ℤ} {out : Thread → LaneStores α β}
    (hout : L.run bf lds b h mTileIdx = some out) (t : Thread) (s : Fin 8) (e : Fin 4) :
    (out t).written s e = ((out t).o s e).bind fun w =>
      (oElem (L.seq b).seqlenQ L.params.strideO (mTileIdx * 128 + mRow t) (colBase t) s e).map
        fun a => (oBase L.isVarlen L.params b h + a, w.2) := by
  unfold run fmhaFwdD64Device at hout
  simp only at hout
  split_ifs at hout with hin hnone
  · cases hout
    rfl
  · cases hout
    exact epilogStore_written _ _ _ _ _ _ _ _ _ _ _ _ _ _
  · obtain ⟨st, -, rfl⟩ := Option.map_eq_some_iff.mp hout
    exact epilogStore_written _ _ _ _ _ _ _ _ _ _ _ _ _ _

/-- **What a block writes**: of each of its rows below the sequence's end the columns that the
descriptor keeps, and nothing else. -/
lemma run_written (lds : Mem β) (b h mTileIdx : ℤ) :
    ∃ out, L.run bf lds b h mTileIdx = some out ∧ ∀ t s e, (out t).written s e =
      if mTileIdx * 128 + mRow t < (L.seq b).seqlenQ then
        (L.oAddr b h (mTileIdx * 128 + mRow t) (storeCol t s e)).map fun a =>
          (a, L.cell bf b h (mTileIdx * 128 + mRow t) (storeCol t s e))
      else none := by
  obtain ⟨out, hout, ho, -⟩ := L.run_block bf lds b h mTileIdx
  refine ⟨out, hout, fun t s e => ?_⟩
  rw [L.written_of_run bf hout, ho, oAddr_storeCol]
  split_ifs with hrow
  · rw [Option.bind_some, Option.map_map]
    rfl
  · rfl

/-- An element of O that the launch writes, with its value. -/
def Written (w : ℤ × β) : Prop :=
  ∃ b h i, ∃ d : ℕ, L.InRange b h i ∧ d < 64 ∧ L.oAddr b h i d = some w.1 ∧ w.2 = L.cell bf b h i d

lemma mem_writes {reversed : Bool} {lds : Dim3 → Mem β} {w : ℤ × β} :
    w ∈ launchWrites L.grid (L.ordered bf reversed lds) ↔ L.Written bf w := by
  rw [mem_launchWrites]
  constructor
  · rintro ⟨blk, hblk, out, hout, t, s, e, hw⟩
    obtain ⟨out', hout', hwr⟩ := L.run_written bf (lds blk) blk.z blk.x (mTile reversed L.grid blk)
    obtain rfl : out' = out := Option.some.inj (hout'.symm.trans hout)
    rw [hwr] at hw
    split_ifs at hw with hrow
    obtain ⟨a, ha, rfl⟩ := Option.map_eq_some_iff.mp hw
    exact ⟨_, _, _, _, L.inRange_of_mem hblk hrow, storeCol_lt t s e, ha, rfl⟩
  · rintro ⟨b, h, i, d, hr, hd, ha, hv⟩
    obtain ⟨p, hblk, hz, hx, hrow, hc⟩ := L.exists_site reversed hr hd
    obtain ⟨out, hout, hwr⟩ := L.run_written bf (lds p.blk) p.blk.z p.blk.x
      (mTile reversed L.grid p.blk)
    refine ⟨p.blk, hblk, out, hout, p.t, p.s, p.e, ?_⟩
    rw [hwr, hrow, hz, hx, hc, if_pos hr.i_lt, ha, Option.map_some, ← hv]

variable {L bf} in
/-- What is written has one value at an address. -/
lemma singleValued_written (hap : L.WritesApart) {ws : List (ℤ × β)}
    (hmem : ∀ w ∈ ws, L.Written bf w) : Stores.SingleValued ws := by
  intro a v v' hw hw'
  obtain ⟨b, h, i, d, hr, hd, ha, hv⟩ := hmem _ hw
  obtain ⟨b', h', i', d', hr', hd', ha', hv'⟩ := hmem _ hw'
  obtain ⟨rfl, rfl, rfl, rfl⟩ := hap _ _ _ _ _ _ _ _ hr hd hr' hd' a ha ha'
  exact hv.trans hv'.symm

end Launch

end FmhaNative
