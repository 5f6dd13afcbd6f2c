import FmhaNative.Indexing
import FmhaNative.Launch
import FmhaNative.Stores

/-!
The four kernel entries on the host's grid, and the stores of a whole launch to O: each
element of each sequence once, by one lane of one block, and nothing else.
-/

namespace FmhaNative

/-- `dim3`, and the built-in `blockIdx` and `gridDim`. -/
@[ext]
structure Dim3 where
  (x y z : ℕ)

namespace Kernel

open Pipeline OpEpilog Stores

section Entries

variable {α β : Type*} [Fp α] [Zero β] (bf : Bf16 α β) (params : FmhaFwdParams α β) (lds : Mem β)
  (gridDim blockIdx : Dim3)

def fmhaFwdD64Bf16Msk0 : Option (Thread → LaneStores α β) :=
  let headIdx := blockIdx.x
  let mTileIdx := blockIdx.y
  let batchIdx := blockIdx.z
  fmhaFwdD64Device bf false false params lds batchIdx headIdx mTileIdx

/-- The M-tiles are taken heavy first. -/
def fmhaFwdD64Bf16Msk1 : Option (Thread → LaneStores α β) :=
  let headIdx := blockIdx.x
  let mTileIdx := (gridDim.y : ℤ) - 1 - blockIdx.y
  let batchIdx := blockIdx.z
  fmhaFwdD64Device bf true false params lds batchIdx headIdx mTileIdx

def fmhaFwdD64Bf16Msk0Varlen : Option (Thread → LaneStores α β) :=
  let headIdx := blockIdx.x
  let mTileIdx := blockIdx.y
  let batchIdx := blockIdx.z
  fmhaFwdD64Device bf false true params lds batchIdx headIdx mTileIdx

def fmhaFwdD64Bf16Msk1Varlen : Option (Thread → LaneStores α β) :=
  let headIdx := blockIdx.x
  let mTileIdx := (gridDim.y : ℤ) - 1 - blockIdx.y
  let batchIdx := blockIdx.z
  fmhaFwdD64Device bf true true params lds batchIdx headIdx mTileIdx

/-- The entry that the host launches. -/
def launch (varlenMode mask : Bool) : Option (Thread → LaneStores α β) :=
  if varlenMode then
    if mask then fmhaFwdD64Bf16Msk1Varlen bf params lds gridDim blockIdx
    else fmhaFwdD64Bf16Msk0Varlen bf params lds blockIdx
  else
    if mask then fmhaFwdD64Bf16Msk1 bf params lds gridDim blockIdx
    else fmhaFwdD64Bf16Msk0 bf params lds blockIdx

end Entries

/-- The blocks of a grid. -/
def blocks (gridDim : Dim3) : List Dim3 :=
  (List.range gridDim.z).flatMap fun z => (List.range gridDim.y).flatMap fun y =>
    (List.range gridDim.x).map fun x => ⟨x, y, z⟩

lemma mem_blocks {g blk : Dim3} : blk ∈ blocks g ↔ blk.x < g.x ∧ blk.y < g.y ∧ blk.z < g.z := by
  obtain ⟨x, y, z⟩ := blk
  simp only [blocks, List.mem_flatMap, List.mem_map, List.mem_range, Dim3.mk.injEq]
  constructor
  · rintro ⟨z', hz, y', hy, x', hx, rfl, rfl, rfl⟩
    exact ⟨hx, hy, hz⟩
  · rintro ⟨hx, hy, hz⟩
    exact ⟨z, hz, y, hy, x, hx, rfl, rfl, rfl⟩

section OStores

variable {α β : Type*}

/-- The O stores of a block, and of all blocks of a grid. -/
def blockStores (out : Thread → LaneStores α β) : List (ℤ × β) :=
  (List.finRange 256).flatMap fun t => (List.finRange 8).flatMap fun s =>
    (List.finRange 4).filterMap fun e => (out t).o s e

def launchStores (g : Dim3) (k : Dim3 → Option (Thread → LaneStores α β)) : List (ℤ × β) :=
  (blocks g).flatMap fun blk => (k blk).toList.flatMap blockStores

/-- A place in the program of a grid that may store an element: one of the four elements of
one of the eight stores of a lane of a block. -/
structure Site where
  blk : Dim3
  t : Thread
  s : Fin 8
  e : Fin 4

/-- The store that a site of the grid makes. -/
def Stored (g : Dim3) (k : Dim3 → Option (Thread → LaneStores α β)) (p : Site) (w : ℤ × β) : Prop :=
  p.blk ∈ blocks g ∧ ∃ out, k p.blk = some out ∧ (out p.t).o p.s p.e = some w

lemma mem_blockStores {out : Thread → LaneStores α β} {w : ℤ × β} :
    w ∈ blockStores out ↔ ∃ t s e, (out t).o s e = some w := by
  simp only [blockStores, List.mem_flatMap, List.mem_filterMap, List.mem_finRange, true_and]

lemma mem_launchStores {g : Dim3} {k : Dim3 → Option (Thread → LaneStores α β)} {w : ℤ × β} :
    w ∈ launchStores g k ↔ ∃ p, Stored g k p w := by
  simp only [launchStores, List.mem_flatMap, Option.mem_toList, mem_blockStores]
  constructor
  · rintro ⟨blk, hblk, out, hout, t, s, e, hw⟩
    exact ⟨⟨blk, t, s, e⟩, hblk, out, hout, hw⟩
  · rintro ⟨⟨blk, t, s, e⟩, hblk, out, hout, hw⟩
    exact ⟨blk, hblk, out, hout, t, s, e, hw⟩

end OStores

/-! ### The order of the M-tiles -/

/-- The M-tile of a block, in natural or in reversed order. -/
def mTile (reversed : Bool) (g blk : Dim3) : ℤ := if reversed then g.y - 1 - blk.y else blk.y

lemma mTile_inj (reversed : Bool) (g : Dim3) {blk blk' : Dim3}
    (h : mTile reversed g blk = mTile reversed g blk') : blk.y = blk'.y := by
  unfold mTile at h
  split_ifs at h <;> omega

lemma mTile_nonneg (reversed : Bool) {g blk : Dim3} (h : blk.y < g.y) :
    0 ≤ mTile reversed g blk := by
  unfold mTile
  split_ifs <;> omega

lemma exists_mTile (reversed : Bool) {g : Dim3} {m : ℤ} (h0 : 0 ≤ m) (h : m < g.y) (x z : ℕ) :
    ∃ y : ℕ, y < g.y ∧ mTile reversed g ⟨x, y, z⟩ = m := by
  cases reversed
  · exact ⟨m.toNat, by omega, by simp [mTile, h0]⟩
  · exact ⟨(g.y - 1 - m).toNat, by omega, by simp only [mTile, if_true]; omega⟩

end Kernel

namespace Launch

open Pipeline Kernel OpEpilog Stores

variable {α β : Type*} (L : Launch α β)

/-- The grid that the host builds. -/
def grid : Dim3 :=
  ⟨L.params.nheadQ.toNat, ((L.params.seqlenQ + kM0 - 1).tdiv kM0).toNat, L.batch.toNat⟩

variable [Fp α] [Zero β] (bf : Bf16 α β)

/-- The launched kernel. Shared memory starts with any content in any block. -/
def kernel (lds : Dim3 → Mem β) (blk : Dim3) : Option (Thread → LaneStores α β) :=
  Kernel.launch bf L.params (lds blk) L.grid blk L.isVarlen L.hasMask

/-- The same blocks with the M-tiles in a chosen order. -/
def ordered (reversed : Bool) (lds : Dim3 → Mem β) (blk : Dim3) :
    Option (Thread → LaneStores α β) :=
  L.run bf (lds blk) blk.z blk.x (mTile reversed L.grid blk)

lemma kernel_eq (lds : Dim3 → Mem β) : L.kernel bf lds = L.ordered bf L.hasMask lds := by
  funext blk
  unfold kernel Kernel.launch ordered run mTile
  cases hv : L.isVarlen <;> cases hm : L.hasMask <;> rfl

omit [Fp α] [Zero β] in
/-- The M-tiles of the grid cover the rows of every sequence. -/
lemma tile_lt_grid {b h i : ℤ} (hr : L.InRange b h i) : i / 128 < L.grid.y := by
  have hle := L.seqlenQ_le b hr.b_nonneg hr.b_lt
  have hi : i < L.params.seqlenQ := lt_of_lt_of_le hr.i_lt hle
  have hi0 := hr.i_nonneg
  simp only [grid, kM0_eq]
  rw [Int.tdiv_eq_ediv_of_nonneg (by omega)]
  omega

omit [Fp α] [Zero β] in
/-- A row of a block of the grid is a query row when it is below the sequence's end. -/
lemma inRange_of_mem {reversed : Bool} {blk : Dim3} (hblk : blk ∈ blocks L.grid) {t : Thread}
    (h : mTile reversed L.grid blk * 128 + mRow t < (L.seq blk.z).seqlenQ) :
    L.InRange blk.z blk.x (mTile reversed L.grid blk * 128 + mRow t) := by
  obtain ⟨hx, hy, hz⟩ := mem_blocks.mp hblk
  have hm := mTile_nonneg reversed hy
  simp only [grid] at hx hz
  exact ⟨by omega, by omega, by omega, by omega, by omega, h⟩

/-- What a site of the grid stores. -/
lemma stored_iff {reversed : Bool} {lds : Dim3 → Mem β} {p : Site} {w : ℤ × β} :
    Stored L.grid (L.ordered bf reversed lds) p w ↔
      p.blk ∈ blocks L.grid ∧
        mTile reversed L.grid p.blk * 128 + mRow p.t < (L.seq p.blk.z).seqlenQ ∧
        w = (L.oOff p.blk.z p.blk.x (mTile reversed L.grid p.blk * 128 + mRow p.t)
              + storeCol p.t p.s p.e,
            L.cell bf p.blk.z p.blk.x (mTile reversed L.grid p.blk * 128 + mRow p.t)
              (storeCol p.t p.s p.e)) := by
  obtain ⟨out, hout, ho, -⟩ := run_block bf L (lds p.blk) p.blk.z p.blk.x
    (mTile reversed L.grid p.blk)
  unfold Stored ordered
  rw [hout]
  simp only [Option.some.injEq, exists_eq_left', ho]
  constructor
  · rintro ⟨hblk, hw⟩
    split_ifs at hw with hlt
    exact ⟨hblk, hlt, (Option.some.inj hw).symm⟩
  · rintro ⟨hblk, hlt, rfl⟩
    exact ⟨hblk, if_pos hlt⟩

omit [Fp α] [Zero β] in
/-- The site of an element of a query row. -/
lemma exists_site (reversed : Bool) {b h i : ℤ} {d : ℕ} (hr : L.InRange b h i) (hd : d < 64) :
    ∃ p : Site, p.blk ∈ blocks L.grid ∧ (p.blk.z : ℤ) = b ∧ (p.blk.x : ℤ) = h ∧
      mTile reversed L.grid p.blk * 128 + mRow p.t = i ∧ storeCol p.t p.s p.e = d := by
  obtain ⟨t, s, e, hm, hc⟩ := exists_storeCol (m := (rowInTile i).val) (rowInTile i).isLt hd
  have hb := hr.b_nonneg
  have hbB := hr.b_lt
  have hh := hr.h_nonneg
  have hhH := hr.h_lt
  have hi0 := hr.i_nonneg
  obtain ⟨y, hy, hmt⟩ := exists_mTile reversed (by omega) (L.tile_lt_grid hr) h.toNat b.toNat
  refine ⟨⟨⟨h.toNat, y, b.toNat⟩, t, s, e⟩, mem_blocks.mpr ⟨?_, hy, ?_⟩, Int.toNat_of_nonneg hb,
    Int.toNat_of_nonneg hh, ?_, hc⟩
  · simp only [grid]
    omega
  · simp only [grid]
    omega
  · rw [hmt, hm, tile_row]

/-- Every element of every query row is stored by a site of the grid. -/
lemma exists_stored (reversed : Bool) (lds : Dim3 → Mem β) {b h i : ℤ} {d : ℕ}
    (hr : L.InRange b h i) (hd : d < 64) :
    ∃ p, Stored L.grid (L.ordered bf reversed lds) p (L.oOff b h i + d, L.cell bf b h i d) := by
  obtain ⟨p, hblk, hz, hx, hrow, hc⟩ := L.exists_site reversed hr hd
  refine ⟨p, (L.stored_iff bf).mpr ⟨hblk, ?_, ?_⟩⟩
  · rw [hrow, hz]
    exact hr.i_lt
  · rw [hrow, hz, hx, hc]

/-- The stores of a launch: the elements of the query rows, with their values. -/
lemma mem_ordered {reversed : Bool} {lds : Dim3 → Mem β} {w : ℤ × β} :
    w ∈ launchStores L.grid (L.ordered bf reversed lds) ↔
      ∃ b h i, ∃ d : ℕ, L.InRange b h i ∧ d < 64 ∧ w = (L.oOff b h i + d, L.cell bf b h i d) := by
  rw [mem_launchStores]
  constructor
  · rintro ⟨p, hp⟩
    obtain ⟨hblk, hlt, rfl⟩ := (L.stored_iff bf).mp hp
    exact ⟨_, _, _, _, L.inRange_of_mem hblk hlt, storeCol_lt p.t p.s p.e, rfl⟩
  · rintro ⟨b, h, i, d, hr, hd, rfl⟩
    exact L.exists_stored bf reversed lds hr hd

/-- The O tensor gives distinct in-range indices distinct elements. -/
def OInjective : Prop :=
  ∀ b h i b' h' i', ∀ d d' : ℕ, L.InRange b h i → d < 64 → L.InRange b' h' i' → d' < 64 →
    L.oOff b h i + d = L.oOff b' h' i' + d' → b = b' ∧ h = h' ∧ i = i' ∧ d = d'

variable {L} in
lemma singleValued_ordered (hinj : L.OInjective) (reversed : Bool) (lds : Dim3 → Mem β) :
    SingleValued (launchStores L.grid (L.ordered bf reversed lds)) := by
  intro a v v' hv hv'
  obtain ⟨b, h, i, d, hr, hd, he⟩ := (L.mem_ordered bf).mp hv
  obtain ⟨b', h', i', d', hr', hd', he'⟩ := (L.mem_ordered bf).mp hv'
  obtain ⟨rfl, rfl⟩ := Prod.mk.inj he
  obtain ⟨ha, rfl⟩ := Prod.mk.inj he'
  obtain ⟨rfl, rfl, rfl, rfl⟩ := hinj _ _ _ _ _ _ _ _ hr hd hr' hd' ha
  rfl

variable {L bf} in
/-- Two sites that store one element are one site. -/
lemma site_unique (hinj : L.OInjective) {reversed : Bool} {lds : Dim3 → Mem β} {p p' : Site}
    {w w' : ℤ × β} (h : Stored L.grid (L.ordered bf reversed lds) p w)
    (h' : Stored L.grid (L.ordered bf reversed lds) p' w') (hw : w.1 = w'.1) : p = p' := by
  obtain ⟨hblk, hlt, rfl⟩ := (L.stored_iff bf).mp h
  obtain ⟨hblk', hlt', rfl⟩ := (L.stored_iff bf).mp h'
  obtain ⟨hz, hx, hrow, hcol⟩ := hinj _ _ _ _ _ _ _ _ (L.inRange_of_mem hblk hlt)
    (storeCol_lt _ _ _) (L.inRange_of_mem hblk' hlt') (storeCol_lt _ _ _) hw
  have hm := mRow_lt p.t
  have hm' := mRow_lt p'.t
  have hy : p.blk.y = p'.blk.y := mTile_inj reversed L.grid (by omega)
  obtain ⟨ht, hs, he⟩ := storeCol_inj (by omega) hcol
  obtain ⟨blk, t, s, e⟩ := p
  obtain ⟨blk', t', s', e'⟩ := p'
  simp only at hx hy hz ht hs he
  have hb : blk = blk' := Dim3.ext (by omega) hy (by omega)
  rw [hb, ht, hs, he]

end Launch

namespace Kernel

open OpEpilog Stores

variable {α β : Type*} [Fp α] [Zero β]

/-- **Every output element is written exactly once and nothing else is written.** Every block
returns; a block past the end of its sequence stores nothing; every element of every query row
is stored by exactly one site; every store is to such an element; and the memory left by the
stores is the same in every order, and the same as with the M-tiles in natural order. -/
theorem oStores_exactly_once (bf : Bf16 α β) (L : Launch α β) (lds : Dim3 → Mem β)
    (hinj : L.OInjective) :
    (∀ blk ∈ blocks L.grid, ∃ out, L.kernel bf lds blk = some out) ∧
    (∀ blk ∈ blocks L.grid, L.isVarlen →
      (L.seq blk.z).seqlenQ ≤ mTile L.hasMask L.grid blk * 128 →
        L.kernel bf lds blk = some fun _ => LaneStores.none) ∧
    (∀ b h i, ∀ d : ℕ, L.InRange b h i → d < 64 →
      ∃! p, ∃ v, Stored L.grid (L.kernel bf lds) p (L.oOff b h i + d, v)) ∧
    (∀ p a v, Stored L.grid (L.kernel bf lds) p (a, v) →
      ∃ b h i, ∃ d : ℕ, L.InRange b h i ∧ d < 64 ∧ a = L.oOff b h i + d) ∧
    (∀ m ws lds', ws.Perm (launchStores L.grid (L.kernel bf lds)) →
      stores m ws = stores m (launchStores L.grid (L.ordered bf false lds'))) := by
  rw [L.kernel_eq bf lds]
  refine ⟨fun blk _ => ?_, fun blk _ hv hle => ?_, fun b h i d hr hd => ?_, fun p a v hp => ?_,
    fun m ws lds' hp => ?_⟩
  · obtain ⟨out, hout, -⟩ := Launch.run_block bf L (lds blk) blk.z blk.x
      (mTile L.hasMask L.grid blk)
    exact ⟨out, hout⟩
  · unfold Launch.ordered Launch.run Pipeline.fmhaFwdD64Device
    rw [kM0_eq]
    exact if_pos ⟨hv, hle⟩
  · obtain ⟨p, hp⟩ := L.exists_stored bf L.hasMask lds hr hd
    refine ⟨p, ⟨_, hp⟩, fun p' hp' => ?_⟩
    obtain ⟨v', hp'⟩ := hp'
    exact Launch.site_unique hinj hp' hp rfl
  · obtain ⟨b, h, i, d, hr, hd, he⟩ := (L.mem_ordered bf).mp (mem_launchStores.mpr ⟨p, hp⟩)
    exact ⟨b, h, i, d, hr, hd, (Prod.mk.inj he).1⟩
  · have hs := Launch.singleValued_ordered bf hinj L.hasMask lds
    rw [← stores_perm hs hp.symm]
    exact stores_ext hs fun w => by rw [L.mem_ordered bf, L.mem_ordered bf]

end Kernel

/-! ### Contiguous tensors -/

/-- A contiguous dense launch gives distinct indices distinct elements. -/
lemma Launch.bhsd_oInjective {α β : Type*} (hasMask lse : Bool) (q k v : Mem β) (scale : α)
    (B Hk gqa Sq Sk : ℤ) (hHk : 0 < Hk) (hgqa : 0 < gqa) (hSq : 0 ≤ Sq) (hSk : 0 ≤ Sk) :
    (Launch.bhsd hasMask lse q k v scale B Hk gqa Sq Sk hHk hgqa hSq hSk).OInjective := by
  intro b h i b' h' i' d d' hr hd hr' hd' he
  obtain ⟨-, -, hh, (hhH : h < Hk * gqa), hi, hiS⟩ := hr
  obtain ⟨-, -, hh', (hhH' : h' < Hk * gqa), hi', hiS'⟩ := hr'
  have hoff : ∀ b h i : ℤ, (Launch.bhsd hasMask lse q k v scale B Hk gqa Sq Sk hHk hgqa hSq
      hSk).oOff b h i = ((b * (Hk * gqa) + h) * Sq + i) * 64 := fun b h i => by
    change b * (Hk * gqa * Sq * 64) + h * (Sq * 64) + i * 64 = _
    ring
  rw [hoff, hoff] at he
  obtain ⟨hrow, hd⟩ := Indexing.radix_inj (by omega) (by omega) (by omega) (by omega) he
  obtain ⟨hhead, hi⟩ := Indexing.radix_inj hi hiS hi' hiS' hrow
  obtain ⟨hb, hh⟩ := Indexing.radix_inj hh hhH hh' hhH' hhead
  exact ⟨hb, hh, hi, by omega⟩

namespace Kernel

open OpEpilog Stores

/-- Two batches of two causal heads over three queries and five keys. -/
theorem oStores_exactly_once_bhsd :
    let L : Launch XReal XReal := .bhsd true true (fun _ => 0) (fun _ => 0) (fun _ => 0) (.fin 1)
      2 1 2 3 5 one_pos two_pos (by norm_num) (by norm_num)
    let k := L.kernel XReal.exact fun _ _ => .nan
    (∀ blk ∈ blocks L.grid, ∃ out, k blk = some out) ∧
    (∀ blk ∈ blocks L.grid, L.isVarlen →
      (L.seq blk.z).seqlenQ ≤ mTile L.hasMask L.grid blk * 128 →
        k blk = some fun _ => LaneStores.none) ∧
    (∀ b h i, ∀ d : ℕ, L.InRange b h i → d < 64 →
      ∃! p, ∃ v, Stored L.grid k p (L.oOff b h i + d, v)) ∧
    (∀ p a v, Stored L.grid k p (a, v) →
      ∃ b h i, ∃ d : ℕ, L.InRange b h i ∧ d < 64 ∧ a = L.oOff b h i + d) ∧
    (∀ m ws lds', ws.Perm (launchStores L.grid k) →
      stores m ws = stores m (launchStores L.grid (L.ordered XReal.exact false lds'))) :=
  oStores_exactly_once XReal.exact _ _ (Launch.bhsd_oInjective _ _ _ _ _ _ _ _ _ _ _ _ _ _ _)

end Kernel

end FmhaNative
