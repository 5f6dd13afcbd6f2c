import FmhaNative.Staging

/-!
The staged tiles of the K and V components, slot by slot.

A component zeroes a region of LDS, stages one tile into it under a row guard, and dumps it. Its
oracle scatters the same tile by a closed formula into a region of zeros. Both regions are the one
image of the tile: a data slot an element, zero everywhere else.
-/

namespace FmhaNative.LdsImages

open OpLds OpGemm Staging Stores

variable {β : Type*} [Zero β]

/-- `kKLdsRegionElems` and `kVLdsRegionElems` -/
def regionElems : ℕ := 8192

lemma regionElems_eq : regionElems = 8192 := rfl

/-! ### The kernels -/

/-- `for (e = tid; e < region; e += blockDim.x) m[e] = f[e]`, by all threads. -/
def strided (f : Mem β) : List (ℤ × β) :=
  (List.finRange 256).flatMap fun tid : Thread =>
    (List.range 32).map fun i => ((tid.val + 256 * i : ℕ), f (tid.val + 256 * i : ℕ))

/-- The region after it was zeroed. -/
def zeroRegion (smem : Mem β) : Mem β := stores smem (strided fun _ => 0)

def dumpRegion (out smem : Mem β) : Mem β := stores out (strided smem)

/-- One issue of one wave: a lane whose row lies past the sequence deposits nothing. -/
def stageKIssue (k : Mem β) (strideK kvOffset seqlenK : ℤ) (w : Fin 4) (chunk issue : ℕ) :
    List (ℤ × β) :=
  (waveLanes w).flatMap fun t =>
    let row := kvOffset + kRow t issue
    if row < seqlenK then
      dwordAt (m0Bytes chunk t issue + laneId t * 4)
        (loadB32 k (row * (strideK * 2) + (chunk * 32 + kDInChunk t : ℕ) * 2))
    else []

/-- The K tile on its way to LDS: two chunks of four issues a wave. -/
def stageK (k : Mem β) (strideK kvOffset seqlenK : ℤ) : List (ℤ × β) :=
  (List.finRange 4).flatMap fun w => (List.range 2).flatMap fun chunk =>
    (List.range 4).flatMap fun issue => stageKIssue k strideK kvOffset seqlenK w chunk issue

def testKLdsKernel (k out smem : Mem β) (strideK kvOffset seqlenK : ℤ) : Mem β :=
  dumpRegion out (stores (zeroRegion smem) (stageK k strideK kvOffset seqlenK))

/-- `load_k3_0` and `load_k3_1`: zero for a row past the sequence. -/
def loadVGuarded (v : Mem β) (strideV rowOffset seqlenK : ℤ) (t : Thread) (k3 : Fin 2) : V2i β :=
  let row := rowOffset + vRowInTile t + k3.val
  if row < seqlenK then loadB64 v (row * (strideV * 2) + vCol t * 2) else fun _ => ⟨0, 0⟩

/-- A 32-row slice of V, transposed into a buffer. -/
def stageV (smem v : Mem β) (strideV rowOffset seqlenK bufIdx : ℤ) : Mem β :=
  storeVToLds smem (loadVGuarded v strideV rowOffset seqlenK) bufIdx

/-- The buffer at `kVLdsBufBase`. -/
def testVLdsKernel (v out smem : Mem β) (strideV kvOffset seqlenK : ℤ) : Mem β :=
  dumpRegion out (stageV (zeroRegion smem) v strideV kvOffset seqlenK 1)

/-! ### The oracles -/

def kLdsOffsetElems (j d : ℕ) : ℕ :=
  (j % 4) * 136 + ((j / 4) % 4) * 32 + (j / 16) * 544 + (d % 32) + (d / 32) * 2304

def refKLds (k : Mem β) (strideK kvOffset seqlenK : ℤ) : Mem β :=
  stores (fun _ => 0) ((List.range 64).flatMap fun j : ℕ =>
    let row := kvOffset + j
    if seqlenK ≤ row then []
    else (List.range 64).map fun d : ℕ => ((kLdsOffsetElems j d : ℕ), k (row * strideK + d)))

def kVLdsBufBase : ℕ := 2304

def vLdsOffsetElems (n d : ℕ) : ℕ :=
  let k := n % 32
  (k / 8) * 576 + (d / 8) * 72 + (d % 8) * 8 + (k % 8)

def refVLds (v : Mem β) (strideV kvOffset seqlenK : ℤ) : Mem β :=
  stores (fun _ => 0) ((List.range 32).flatMap fun n : ℕ =>
    let row := kvOffset + n
    if seqlenK ≤ row then []
    else (List.range 64).map fun d : ℕ =>
      ((kVLdsBufBase + vLdsOffsetElems n d : ℕ), v (row * strideV + d)))

/-! ### The layouts share no slot -/

lemma kLdsOffsetElems_lt {j d : ℕ} (hj : j < 64) (hd : d < 64) : kLdsOffsetElems j d < regionElems := by
  unfold kLdsOffsetElems regionElems
  omega

lemma kLdsOffsetElems_inj {j d j' d' : ℕ} (hj : j < 64) (hd : d < 64) (hj' : j' < 64) (hd' : d' < 64)
    (h : kLdsOffsetElems j d = kLdsOffsetElems j' d') : j = j' ∧ d = d' := by
  obtain ⟨a, b, c, ha, hb, hc, rfl⟩ : ∃ a b c, a < 4 ∧ b < 4 ∧ c < 4 ∧ j = c * 16 + b * 4 + a :=
    ⟨j % 4, j / 4 % 4, j / 16, by omega, by omega, by omega, by omega⟩
  obtain ⟨a', b', c', ha', hb', hc', rfl⟩ :
      ∃ a b c, a < 4 ∧ b < 4 ∧ c < 4 ∧ j' = c * 16 + b * 4 + a :=
    ⟨j' % 4, j' / 4 % 4, j' / 16, by omega, by omega, by omega, by omega⟩
  have digits : ∀ {a b c : ℕ}, a < 4 → b < 4 → c < 4 → (c * 16 + b * 4 + a) % 4 = a ∧
      (c * 16 + b * 4 + a) / 4 % 4 = b ∧ (c * 16 + b * 4 + a) / 16 = c := by
    intro a b c ha hb hc
    omega
  obtain ⟨h1, h2, h3⟩ := digits ha hb hc
  obtain ⟨h1', h2', h3'⟩ := digits ha' hb' hc'
  rw [kLdsOffsetElems, kLdsOffsetElems, h1, h2, h3, h1', h2', h3'] at h
  -- the digits of the offset, from the heaviest down
  have hchunk : d / 32 = d' / 32 := by omega
  have hrow : c = c' := by omega
  have hwarp : a = a' := by omega
  have hlane : b = b' := by omega
  exact ⟨by omega, by omega⟩

lemma vLdsOffsetElems_lt {n d : ℕ} (hd : d < 64) : kVLdsBufBase + vLdsOffsetElems n d < regionElems := by
  simp only [kVLdsBufBase, vLdsOffsetElems, regionElems]
  omega

lemma vLdsOffsetElems_inj {n d n' d' : ℕ} (hn : n < 32) (hd : d < 64) (hn' : n' < 32) (hd' : d' < 64)
    (h : vLdsOffsetElems n d = vLdsOffsetElems n' d') : n = n' ∧ d = d' := by
  simp only [vLdsOffsetElems] at h
  omega

/-! ### The image of a tile -/

/-- The slots of a tile hold its elements, and the rest of the region is zero. -/
structure IsImage (off : ℕ → ℕ → ℕ) (rows cols : ℕ) (val : ℕ → ℕ → β) (m : Mem β) : Prop where
  data : ∀ j < rows, ∀ d < cols, m (off j d) = val j d
  pad : ∀ e : ℤ, 0 ≤ e → e < regionElems → (∀ j < rows, ∀ d < cols, e ≠ off j d) → m e = 0

/-- A tile has one image. -/
lemma IsImage.eq {off : ℕ → ℕ → ℕ} {rows cols : ℕ} {val : ℕ → ℕ → β} {m m' : Mem β}
    (h : IsImage off rows cols val m) (h' : IsImage off rows cols val m') {e : ℤ} (h0 : 0 ≤ e)
    (he : e < regionElems) : m e = m' e := by
  by_cases hdata : ∀ j < rows, ∀ d < cols, e ≠ off j d
  · rw [h.pad e h0 he hdata, h'.pad e h0 he hdata]
  · push Not at hdata
    obtain ⟨j, hj, d, hd, rfl⟩ := hdata
    rw [h.data j hj d hd, h'.data j hj d hd]

/-- Stores of the rows that pass a guard, over a region of zeros, in any order. -/
lemma isImage_of_mem {off : ℕ → ℕ → ℕ} {rows cols : ℕ} {val : ℕ → ℕ → β} {m : Mem β}
    {ws : List (ℤ × β)} {guard : ℕ → Prop} [DecidablePred guard]
    (hinj : ∀ j < rows, ∀ d < cols, ∀ j' < rows, ∀ d' < cols, off j d = off j' d' → j = j' ∧ d = d')
    (hlt : ∀ j < rows, ∀ d < cols, off j d < regionElems)
    (hzero : ∀ e : ℤ, 0 ≤ e → e < regionElems → m e = 0)
    (hmem : ∀ a x, (a, x) ∈ ws ↔
      ∃ j < rows, ∃ d < cols, guard j ∧ a = (off j d : ℕ) ∧ x = val j d) :
    IsImage off rows cols (fun j d => if guard j then val j d else 0) (stores m ws) := by
  refine ⟨fun j hj d hd => ?_, fun e h0 he hpad => ?_⟩
  · have hone : ∀ x, ((off j d : ℤ), x) ∈ ws → guard j ∧ x = val j d := by
      intro x hx
      obtain ⟨j', hj', d', hd', hg, ha, rfl⟩ := (hmem _ x).mp hx
      obtain ⟨rfl, rfl⟩ := hinj j hj d hd j' hj' d' hd' (Int.ofNat.inj ha)
      exact ⟨hg, rfl⟩
    split_ifs with hg
    · exact stores_of_mem ((hmem _ _).mpr ⟨j, hj, d, hd, hg, rfl, rfl⟩) fun x hx => (hone x hx).2
    · rw [stores_of_notMem fun x hx => hg (hone x hx).1]
      exact hzero _ (Int.natCast_nonneg _) (Int.ofNat_lt.mpr (hlt j hj d hd))
  · rw [stores_of_notMem, hzero e h0 he]
    intro x hx
    obtain ⟨j, hj, d, hd, -, ha, -⟩ := (hmem _ x).mp hx
    exact hpad j hj d hd ha

omit [Zero β] in
/-- What an oracle's loop over rows and columns scatters: the rows inside the sequence. -/
lemma mem_refScatter {off : ℕ → ℕ → ℕ} {rows cols : ℕ} {m : Mem β} {stride kvOffset seqlenK a : ℤ}
    {x : β} :
    (a, x) ∈ ((List.range rows).flatMap fun j : ℕ =>
        let row := kvOffset + j
        if seqlenK ≤ row then []
        else (List.range cols).map fun d : ℕ => ((off j d : ℤ), m (row * stride + d))) ↔
      ∃ j < rows, ∃ d < cols, kvOffset + (j : ℕ) < seqlenK ∧ a = (off j d : ℕ) ∧
        x = m ((kvOffset + (j : ℕ)) * stride + (d : ℕ)) := by
  simp only [List.mem_flatMap, List.mem_range, ← not_lt, ite_not]
  refine exists_congr fun j => and_congr_right fun _ => ?_
  split_ifs with hrow
  · simp only [List.mem_map, List.mem_range, Prod.mk.injEq, hrow, true_and]
    refine exists_congr fun d => and_congr_right fun _ => ?_
    rw [eq_comm, @eq_comm _ _ x]
  · simp only [List.not_mem_nil, hrow, false_and, and_false, exists_false]

/-! ### The strided loops -/

omit [Zero β] in
lemma mem_strided {f : Mem β} {a : ℤ} {x : β} :
    (a, x) ∈ strided f ↔ 0 ≤ a ∧ a < regionElems ∧ x = f a := by
  simp only [strided, List.mem_flatMap, List.mem_finRange, true_and, List.mem_map, List.mem_range,
    Prod.mk.injEq, regionElems_eq]
  constructor
  · rintro ⟨tid, i, hi, rfl, rfl⟩
    have := tid.isLt
    exact ⟨by omega, by omega, rfl⟩
  · rintro ⟨h0, hlt, rfl⟩
    have ha : (((a.toNat % 256 + 256 * (a.toNat / 256) : ℕ)) : ℤ) = a := by omega
    exact ⟨⟨a.toNat % 256, by omega⟩, a.toNat / 256, by omega, ha, by rw [ha]⟩

omit [Zero β] in
lemma stores_strided (m f : Mem β) {e : ℤ} (h0 : 0 ≤ e) (he : e < regionElems) :
    stores m (strided f) e = f e :=
  stores_of_mem (mem_strided.mpr ⟨h0, he, rfl⟩) fun _ hx => (mem_strided.mp hx).2.2

/-! ### K -/

omit [Zero β] in
/-- A lane's deposits are elements of the tile. -/
lemma kElem_eq (t : Thread) (chunk issue : ℕ) {half : ℕ} (hh : half < 2) :
    kElem chunk t issue half
      = kLdsOffsetElems (kRow t issue) (chunk * 32 + (kDInChunk t + half)) := by
  have ht := t.isLt
  obtain ⟨w, b, c, hw, hb, hc, hv⟩ : ∃ w b c, w < 4 ∧ b < 4 ∧ c < 16 ∧ t.val = w * 64 + b * 16 + c :=
    ⟨t.val / 64, t.val % 64 / 16, t.val % 16, by omega, by omega, by omega, by omega⟩
  have h1 : (w * 64 + b * 16 + c) / 64 = w := by omega
  have h2 : (w * 64 + b * 16 + c) % 64 = b * 16 + c := by omega
  have h3 : (b * 16 + c) / 16 = b := by omega
  have h4 : (w * 64 + b * 16 + c) % 16 = c := by omega
  have h5 : (issue * 16 + (b * 4 + w)) % 4 = w := by omega
  have h6 : (issue * 16 + (b * 4 + w)) / 4 % 4 = b := by omega
  have h7 : (issue * 16 + (b * 4 + w)) / 16 = issue := by omega
  have h8 : (chunk * 32 + (c * 2 + half)) % 32 = c * 2 + half := by omega
  have h9 : (chunk * 32 + (c * 2 + half)) / 32 = chunk := by omega
  simp only [kElem, bufBaseElems, kLdsOffsetElems, kRow, kNBase_eq, kDInChunk_eq, hv, h1, h2, h3, h4,
    h5, h6, h7, h8, h9]
  push_cast
  ring

omit [Zero β] in
lemma mem_stageKIssue {k : Mem β} {strideK kvOffset seqlenK : ℤ} {w : Fin 4} {chunk issue : ℕ} {a : ℤ}
    {x : β} : (a, x) ∈ stageKIssue k strideK kvOffset seqlenK w chunk issue ↔
      ∃ t : Thread, t.val / 64 = w.val ∧ ∃ half < 2, kvOffset + kRow t issue < seqlenK ∧
        a = kElem chunk t issue half ∧
        x = k ((kvOffset + kRow t issue) * strideK + (chunk * 32 + (kDInChunk t + half) : ℕ)) := by
  have hsrc : ∀ (t : Thread) (half : ℕ), ((kvOffset + kRow t issue) * (strideK * 2)
        + (chunk * 32 + kDInChunk t : ℕ) * 2) / 2 + (half : ℤ)
      = (kvOffset + kRow t issue) * strideK + (chunk * 32 + (kDInChunk t + half) : ℕ) := by
    intro t half
    rw [← mul_assoc, ← add_mul, Int.mul_ediv_cancel _ two_ne_zero]
    push_cast
    ring
  simp only [stageKIssue, List.mem_flatMap, mem_waveLanes]
  refine exists_congr fun t => and_congr_right fun _ => ?_
  split_ifs with hrow
  · simp only [mem_dwordAt_load, kDeposit_eq, hsrc, hrow, true_and]
  · simp only [List.not_mem_nil, hrow, false_and, and_false, exists_false]

omit [Zero β] in
/-- What the waves deposit: the elements of the rows inside the sequence. -/
lemma mem_stageK {k : Mem β} {strideK kvOffset seqlenK a : ℤ} {x : β} :
    (a, x) ∈ stageK k strideK kvOffset seqlenK ↔
      ∃ j < 64, ∃ d < 64, kvOffset + (j : ℕ) < seqlenK ∧ a = (kLdsOffsetElems j d : ℕ) ∧
        x = k ((kvOffset + (j : ℕ)) * strideK + (d : ℕ)) := by
  simp only [stageK, List.mem_flatMap, List.mem_finRange, true_and, List.mem_range, mem_stageKIssue]
  constructor
  · rintro ⟨w, chunk, hc, issue, hi, t, -, half, hh, hrow, rfl, rfl⟩
    have ht := t.isLt
    have hj : kRow t issue < 64 := by
      rw [kRow, kNBase_eq]
      omega
    have hd : kDInChunk t < 31 := by
      rw [kDInChunk_eq]
      omega
    exact ⟨kRow t issue, hj, chunk * 32 + (kDInChunk t + half), by omega, hrow,
      kElem_eq t chunk issue hh, rfl⟩
  · rintro ⟨j, hj, d, hd, hrow, rfl, rfl⟩
    obtain ⟨t, issue, hi, half, hh, -, hkrow, hkcol⟩ :=
      exists_kElem 0 hj (Nat.mod_lt d (by norm_num) : d % 32 < 32)
    have hde : d / 32 * 32 + (kDInChunk t + half) = d := by omega
    refine ⟨⟨t.val / 64, by omega⟩, d / 32, by omega, issue, hi, t, rfl, half, hh, ?_, ?_, ?_⟩
    · rw [hkrow]
      exact hrow
    · rw [kElem_eq t _ issue hh, hkrow, hde]
    · rw [hkrow, hde]

/-- The element that slot `(j, d)` of the K tile should hold. -/
def kTile (k : Mem β) (strideK kvOffset : ℤ) (j d : ℕ) : β := k ((kvOffset + j) * strideK + d)

lemma zeroRegion_apply (smem : Mem β) {e : ℤ} (h0 : 0 ≤ e) (he : e < regionElems) :
    zeroRegion smem e = 0 := stores_strided smem _ h0 he

lemma kLds_inj : ∀ j < 64, ∀ d < 64, ∀ j' < 64, ∀ d' < 64,
    kLdsOffsetElems j d = kLdsOffsetElems j' d' → j = j' ∧ d = d' :=
  fun _ hj _ hd _ hj' _ hd' h => kLdsOffsetElems_inj hj hd hj' hd' h

/-- **K in LDS**: the staged region is the image of the rows inside the sequence. -/
lemma stageK_isImage (k smem : Mem β) (strideK kvOffset seqlenK : ℤ) :
    IsImage kLdsOffsetElems 64 64
      (fun j d => if kvOffset + (j : ℕ) < seqlenK then kTile k strideK kvOffset j d else 0)
      (stores (zeroRegion smem) (stageK k strideK kvOffset seqlenK)) :=
  isImage_of_mem kLds_inj (fun _ hj _ hd => kLdsOffsetElems_lt hj hd)
    (fun _ h0 he => zeroRegion_apply smem h0 he) fun _ _ => mem_stageK

lemma refKLds_isImage (k : Mem β) (strideK kvOffset seqlenK : ℤ) :
    IsImage kLdsOffsetElems 64 64
      (fun j d => if kvOffset + (j : ℕ) < seqlenK then kTile k strideK kvOffset j d else 0)
      (refKLds k strideK kvOffset seqlenK) :=
  isImage_of_mem kLds_inj (fun _ hj _ hd => kLdsOffsetElems_lt hj hd) (fun _ _ _ => rfl)
    fun _ _ => mem_refScatter

/-! ### V -/

/-- The element that slot `(n, d)` of a V slice should hold. -/
def vTile (v : Mem β) (strideV rowOffset : ℤ) (n d : ℕ) : β := v ((rowOffset + n) * strideV + d)

/-- The slots of a slice in the buffer `bufIdx`. -/
def vSlot (bufIdx n d : ℕ) : ℕ := bufIdx * 2304 + vLdsOffsetElems n d

omit [Zero β] in
/-- A lane's stores are elements of the slice. -/
lemma vElem_eq (t : Thread) (bufIdx : ℕ) {x k3 : ℕ} (hx : x < 4) (hk : k3 < 2) :
    vElem bufIdx t x k3 = vSlot bufIdx (vRowInTile t + k3) (vCol t + x) := by
  have ht := t.isLt
  obtain ⟨w, g, p, q, hw, hg, hp, hq, hv⟩ :
      ∃ w g p q, w < 4 ∧ g < 8 ∧ p < 2 ∧ q < 4 ∧ t.val = w * 64 + g * 8 + p * 4 + q :=
    ⟨t.val / 64, t.val % 64 / 8, t.val % 8 / 4, t.val % 4, by omega, by omega, by omega, by omega,
      by omega⟩
  have h1 : (w * 64 + g * 8 + p * 4 + q) / 64 = w := by omega
  have h2 : (w * 64 + g * 8 + p * 4 + q) % 64 = g * 8 + p * 4 + q := by omega
  have h3 : (g * 8 + p * 4 + q) / 8 = g := by omega
  have h4 : (w * 64 + g * 8 + p * 4 + q) % 8 = p * 4 + q := by omega
  have h5 : (p * 4 + q) / 4 = p := by omega
  have h6 : (w * 64 + g * 8 + p * 4 + q) % 4 = q := by omega
  have h7 : (g * 8 + p * 4 + q) / 4 = g * 2 + p := by omega
  have h8 : (w * 8 + q * 2 + k3) % 32 = w * 8 + q * 2 + k3 := by omega
  have h9 : (w * 8 + q * 2 + k3) / 8 = w := by omega
  have h10 : (w * 8 + q * 2 + k3) % 8 = q * 2 + k3 := by omega
  have h11 : ((g * 2 + p) * 4 + x) / 8 = g := by omega
  have h12 : ((g * 2 + p) * 4 + x) % 8 = p * 4 + x := by omega
  simp only [vElem, bufBaseElems, vSlot, vLdsOffsetElems, vRowInTile_eq, vCol_eq, hv, h1, h2, h3, h4,
    h5, h6, h7, h8, h9, h10, h11, h12]
  push_cast
  ring

/-- A row inside the sequence is loaded as the fused kernel loads it. -/
lemma loadVGuarded_eq (v : Mem β) (strideV rowOffset seqlenK : ℤ) (t : Thread) (k3 : Fin 2) :
    loadVGuarded v strideV rowOffset seqlenK t k3
      = if rowOffset + (vRowInTile t + k3.val : ℕ) < seqlenK then
          loadVFromDram v strideV (2 * (rowOffset * strideV)) t k3 else fun _ => ⟨0, 0⟩ := by
  have hvoff : (rowOffset + vRowInTile t + k3.val) * (strideV * 2) + vCol t * 2
      = vVoff strideV (2 * (rowOffset * strideV)) t k3 := by
    rw [vVoff_eq]
    push_cast
    ring
  simp only [loadVGuarded, hvoff, loadVFromDram]
  push_cast
  rw [add_assoc]

/-- The registers of a lane, zero for a row past the sequence. -/
lemma vRegElem_guarded {v : Mem β} {strideV rowOffset seqlenK : ℤ} (t : Thread) {x k3 : ℕ}
    (hx : x < 4) (hk : k3 < 2) :
    vRegElem (loadVGuarded v strideV rowOffset seqlenK) t x k3
      = if rowOffset + (vRowInTile t + k3 : ℕ) < seqlenK then
          vTile v strideV rowOffset (vRowInTile t + k3) (vCol t + x) else 0 := by
  have hk3 : (if k3 = 0 then 0 else 1 : Fin 2).val = k3 := by
    interval_cases k3 <;> rfl
  by_cases hrow : rowOffset + (vRowInTile t + k3 : ℕ) < seqlenK
  · have hload : vRegElem (loadVFromDram v strideV (2 * (rowOffset * strideV))) t x k3 = _ :=
      vRegElem_load (Dvd.intro _ rfl) t hx hk
    rw [if_pos hrow, vTile]
    unfold vRegElem at hload ⊢
    rw [loadVGuarded_eq, hk3, if_pos hrow, hload, Int.mul_ediv_cancel_left _ two_ne_zero]
    congr 1
    push_cast
    ring
  · rw [if_neg hrow]
    unfold vRegElem
    rw [loadVGuarded_eq, hk3, if_neg hrow]
    exact ite_self 0

lemma vLds_inj (bufIdx : ℕ) : ∀ n < 32, ∀ d < 64, ∀ n' < 32, ∀ d' < 64,
    vSlot bufIdx n d = vSlot bufIdx n' d' → n = n' ∧ d = d' := by
  intro n hn d hd n' hn' d' hd' h
  unfold vSlot at h
  exact vLdsOffsetElems_inj hn hd hn' hd' (by omega)

/-- What the lanes store: the elements of the slice, zero for the rows past the sequence. -/
lemma mem_stageV {v : Mem β} {strideV rowOffset seqlenK : ℤ} {bufIdx : ℕ} {a : ℤ} {x : β} :
    (a, x) ∈ ((List.finRange 4).flatMap fun w =>
        vWave (loadVGuarded v strideV rowOffset seqlenK) bufIdx w) ↔
      ∃ n < 32, ∃ d < 64, a = (vSlot bufIdx n d : ℕ) ∧
        x = if rowOffset + (n : ℕ) < seqlenK then vTile v strideV rowOffset n d else 0 := by
  rw [mem_vStores]
  constructor
  · rintro ⟨t, c, hc, k3, hk, rfl, rfl⟩
    have ht := t.isLt
    have hn : vRowInTile t + k3 < 32 := by
      rw [vRowInTile_eq]
      omega
    have hd : vCol t + c < 64 := by
      rw [vCol_eq]
      omega
    exact ⟨_, hn, _, hd, vElem_eq t bufIdx hc hk, vRegElem_guarded t hc hk⟩
  · rintro ⟨n, hn, d, hd, rfl, rfl⟩
    obtain ⟨t, c, hc, k3, hk, -, rfl, rfl⟩ := exists_vElem 0 hn hd
    exact ⟨t, c, hc, k3, hk, (vElem_eq t bufIdx hc hk).symm, (vRegElem_guarded t hc hk).symm⟩

/-- **V in LDS**: the elements of a slice where GEMM1 reads them. -/
lemma stageV_apply (smem v : Mem β) (strideV rowOffset seqlenK : ℤ) (bufIdx : ℕ) {n d : ℕ}
    (hn : n < 32) (hd : d < 64) :
    stageV smem v strideV rowOffset seqlenK bufIdx (vSlot bufIdx n d : ℕ)
      = if rowOffset + (n : ℕ) < seqlenK then vTile v strideV rowOffset n d else 0 := by
  refine stores_of_mem (mem_stageV.mpr ⟨n, hn, d, hd, rfl, rfl⟩) fun x hx => ?_
  obtain ⟨n', hn', d', hd', ha, rfl⟩ := mem_stageV.mp hx
  obtain ⟨rfl, rfl⟩ := vLds_inj bufIdx n hn d hd n' hn' d' hd' (Int.ofNat.inj ha)
  rfl

/-- The staged region of the V component is the image of the rows inside the sequence. -/
lemma stageV_isImage (v smem : Mem β) (strideV kvOffset seqlenK : ℤ) :
    IsImage (vSlot 1) 32 64
      (fun n d => if kvOffset + (n : ℕ) < seqlenK then vTile v strideV kvOffset n d else 0)
      (stageV (zeroRegion smem) v strideV kvOffset seqlenK 1) := by
  refine ⟨fun n hn d hd => ?_, fun e h0 he hpad => ?_⟩
  · exact stageV_apply (zeroRegion smem) v strideV kvOffset seqlenK 1 hn hd
  · refine (stores_of_notMem fun x hx => ?_).trans (zeroRegion_apply smem h0 he)
    have hx' : (e, x) ∈ ((List.finRange 4).flatMap fun w =>
        vWave (loadVGuarded v strideV kvOffset seqlenK) (1 : ℕ) w) := hx
    obtain ⟨n, hn, d, hd, ha, -⟩ := mem_stageV.mp hx'
    exact hpad n hn d hd ha

lemma refVLds_isImage (v : Mem β) (strideV kvOffset seqlenK : ℤ) :
    IsImage (vSlot 1) 32 64
      (fun n d => if kvOffset + (n : ℕ) < seqlenK then vTile v strideV kvOffset n d else 0)
      (refVLds v strideV kvOffset seqlenK) :=
  isImage_of_mem (vLds_inj 1) (fun _ _ _ hd => vLdsOffsetElems_lt hd) (fun _ _ _ => rfl)
    fun _ _ => mem_refScatter

/-! ### Both regions, slot by slot -/

/-- **The staged images are exact**: every slot of the region that a kernel dumps is that of its
oracle's image, in whatever order the K loads land; and no two elements of a tile share a slot. -/
theorem lds_images_exact (k v out smem : Mem β) (stride kvOffset seqlenK : ℤ) :
    (∀ e : ℤ, 0 ≤ e → e < regionElems →
      testKLdsKernel k out smem stride kvOffset seqlenK e = refKLds k stride kvOffset seqlenK e) ∧
    (∀ ws, ws.Perm (stageK k stride kvOffset seqlenK) →
      stores (zeroRegion smem) ws = stores (zeroRegion smem) (stageK k stride kvOffset seqlenK)) ∧
    (∀ e : ℤ, 0 ≤ e → e < regionElems →
      testVLdsKernel v out smem stride kvOffset seqlenK e = refVLds v stride kvOffset seqlenK e) ∧
    (∀ j < 64, ∀ d < 64, kLdsOffsetElems j d < regionElems ∧
      ∀ j' < 64, ∀ d' < 64, kLdsOffsetElems j d = kLdsOffsetElems j' d' → j = j' ∧ d = d') ∧
    ∀ n < 32, ∀ d < 64, kVLdsBufBase + vLdsOffsetElems n d < regionElems ∧
      ∀ n' < 32, ∀ d' < 64, vLdsOffsetElems n d = vLdsOffsetElems n' d' → n = n' ∧ d = d' := by
  refine ⟨fun e h0 he => ?_, fun ws hws => ?_, fun e h0 he => ?_, fun j hj d hd => ?_,
    fun n hn d hd => ?_⟩
  · unfold testKLdsKernel dumpRegion
    rw [stores_strided out _ h0 he]
    exact (stageK_isImage k smem stride kvOffset seqlenK).eq
      (refKLds_isImage k stride kvOffset seqlenK) h0 he
  · refine (stores_perm ?_ hws.symm).symm
    intro a x x' hx hx'
    obtain ⟨j, hj, d, hd, -, rfl, rfl⟩ := mem_stageK.mp hx
    obtain ⟨j', hj', d', hd', -, ha, rfl⟩ := mem_stageK.mp hx'
    obtain ⟨rfl, rfl⟩ := kLdsOffsetElems_inj hj hd hj' hd' (Int.ofNat.inj ha)
    rfl
  · unfold testVLdsKernel dumpRegion
    rw [stores_strided out _ h0 he]
    exact (stageV_isImage v smem stride kvOffset seqlenK).eq
      (refVLds_isImage v stride kvOffset seqlenK) h0 he
  · exact ⟨kLdsOffsetElems_lt hj hd, fun j' hj' d' hd' => kLdsOffsetElems_inj hj hd hj' hd'⟩
  · exact ⟨vLdsOffsetElems_lt hd, fun n' hn' d' hd' => vLdsOffsetElems_inj hn hd hn' hd'⟩

end FmhaNative.LdsImages
