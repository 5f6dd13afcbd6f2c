import FmhaNative.Params
import FmhaNative.Stores
import FmhaNative.Thread

/-!
LDS data movement: the asynchronous K copy, and V through registers.

Memory is a function of the bf16 element index, so a byte address counts half. The byte
offsets into DRAM are written over an arbitrary ring: the integers when nothing may wrap, the
32-bit words when it may.
-/

namespace FmhaNative.OpLds

open Stores

variable {β : Type*}

/-- Two bf16 values in one 32-bit register. -/
@[ext]
structure Dword (β : Type*) where
  lo : β
  hi : β

/-- `v2i` -/
abbrev V2i (β : Type*) := Fin 2 → Dword β
/-- `v4i` -/
abbrev V4i (β : Type*) := Fin 4 → Dword β

/-- `raw_buffer_load_b32` at a byte offset. -/
def loadB32 (srd : Mem β) (voff : ℤ) : Dword β := ⟨srd (voff / 2), srd (voff / 2 + 1)⟩
def loadB64 (srd : Mem β) (voff : ℤ) : V2i β := fun i => loadB32 srd (voff + i.val * 4)
def loadB128 (srd : Mem β) (voff : ℤ) : V4i β := fun i => loadB32 srd (voff + i.val * 4)

/-- The two element stores of a dword at a byte address. -/
def dwordAt (addr : ℤ) (w : Dword β) : List (ℤ × β) := [(addr / 2, w.lo), (addr / 2 + 1, w.hi)]

/-- A dword moved from memory, half by half. -/
lemma mem_dwordAt_load {srd : Mem β} {addr voff a : ℤ} {v : β} :
    (a, v) ∈ dwordAt addr (loadB32 srd voff) ↔
      ∃ half < 2, a = addr / 2 + (half : ℕ) ∧ v = srd (voff / 2 + (half : ℕ)) := by
  simp only [dwordAt, loadB32, List.mem_cons, List.not_mem_nil, or_false, Prod.mk.injEq]
  constructor
  · rintro (⟨rfl, rfl⟩ | ⟨rfl, rfl⟩)
    · exact ⟨0, by norm_num, by simp, by simp⟩
    · exact ⟨1, by norm_num, by simp, by simp⟩
  · rintro ⟨half, hh, rfl, rfl⟩
    interval_cases half
    · exact Or.inl ⟨by simp, by simp⟩
    · exact Or.inr ⟨by simp, by simp⟩

def bufBaseElems (bufIdx : ℤ) : ℤ := bufIdx * 2304
def bufBaseBytes (bufIdx : ℤ) : ℤ := bufIdx * 4608

/-- The lanes of a wave. -/
def waveLanes (w : Fin 4) : List Thread :=
  (List.finRange 64).map fun l => ⟨64 * w.val + l.val, by omega⟩

lemma mem_waveLanes {w : Fin 4} {t : Thread} : t ∈ waveLanes w ↔ t.val / 64 = w.val := by
  simp only [waveLanes, List.mem_map, List.mem_finRange, true_and]
  constructor
  · rintro ⟨l, rfl⟩
    simp only
    omega
  · intro h
    exact ⟨⟨t.val % 64, by omega⟩, by ext; simp only; omega⟩

/-! ### Byte offsets -/

section Offsets

variable {ι : Type*} [CommRing ι]

def kDInChunk (t : Thread) : ℕ := (laneId t &&& 15) * 2
def kNBase (t : Thread) : ℕ := (laneId t >>> 4) * 4 + warpId t

/-- `voffset` of the K copy at an issue: a running recurrence, 16 rows a step. -/
def kVoffset (strideK kvByteBase kColOffset : ι) (t : Thread) : ℕ → ι
  | 0 => kvByteBase + (kNBase t : ι) * (strideK * 2) + (kColOffset + (kDInChunk t : ι)) * 2
  | issue + 1 => kVoffset strideK kvByteBase kColOffset t issue + 16 * (strideK * 2)

def vRowInTile (t : Thread) : ℕ := warpId t * 8 + (laneId t &&& 3) * 2
def vCol (t : Thread) : ℕ := (laneId t >>> 2) * 4

/-- `voff_k3_0` and `voff_k3_1`. -/
def vVoff (strideV kvByteBase : ι) (t : Thread) (k3 : Fin 2) : ι :=
  let voffK30 := kvByteBase + (vRowInTile t : ι) * (strideV * 2) + (vCol t : ι) * 2
  if k3 = 0 then voffK30 else voffK30 + strideV * 2

/-- The row of the tile that an issue of the K copy stages. -/
def kRow (t : Thread) (issue : ℕ) : ℕ := issue * 16 + kNBase t

lemma kVoffset_eq (strideK kvByteBase kColOffset : ι) (t : Thread) (issue : ℕ) :
    kVoffset strideK kvByteBase kColOffset t issue
      = kvByteBase + (kRow t issue : ι) * (strideK * 2) + (kColOffset + (kDInChunk t : ι)) * 2 := by
  induction issue with
  | zero => simp [kVoffset, kRow]
  | succ i ih =>
    rw [kVoffset, ih]
    simp only [kRow]
    push_cast
    ring

lemma vVoff_eq (strideV kvByteBase : ι) (t : Thread) (k3 : Fin 2) :
    vVoff strideV kvByteBase t k3
      = kvByteBase + ((vRowInTile t + k3.val : ℕ) : ι) * (strideV * 2) + (vCol t : ι) * 2 := by
  fin_cases k3
  · simp [vVoff]
  · simp only [vVoff]
    rw [if_neg (by decide)]
    push_cast
    ring

end Offsets

lemma kDInChunk_eq (t : Thread) : kDInChunk t = t.val % 16 * 2 := by
  rw [kDInChunk, Nat.and_two_pow_sub_one_eq_mod (laneId t) 4, laneId_eq]
  omega

lemma kNBase_eq (t : Thread) : kNBase t = t.val % 64 / 16 * 4 + t.val / 64 := by
  rw [kNBase, Nat.shiftRight_eq_div_pow, laneId_eq, warpId_eq]

lemma vRowInTile_eq (t : Thread) : vRowInTile t = t.val / 64 * 8 + t.val % 4 * 2 := by
  rw [vRowInTile, Nat.and_two_pow_sub_one_eq_mod (laneId t) 2, laneId_eq, warpId_eq]
  omega

lemma vCol_eq (t : Thread) : vCol t = t.val % 64 / 4 * 4 := by
  rw [vCol, Nat.shiftRight_eq_div_pow, laneId_eq]

/-! ### The K copy -/

/-- The LDS byte pointer `m0` of an issue. -/
def m0Bytes (bufIdx : ℤ) (t : Thread) (issue : ℕ) : ℤ :=
  bufBaseBytes bufIdx + warpId t * 0x110 + issue * 0x440

/-- What one issue of one wave deposits: a dword a lane, four bytes apart. -/
def kIssue (srd : Mem β) (strideK kvByteBase kColOffset bufIdx : ℤ) (w : Fin 4) (issue : ℕ) :
    List (ℤ × β) :=
  (waveLanes w).flatMap fun t =>
    dwordAt (m0Bytes bufIdx t issue + laneId t * 4)
      (loadB32 srd (kVoffset strideK kvByteBase kColOffset t issue))

def asyncCopyKSubtile (lds : Mem β) (srd : Mem β) (strideK kvByteBase kColOffset bufIdx : ℤ) :
    Mem β :=
  stores lds ((List.finRange 4).flatMap fun w =>
    (List.range 4).flatMap fun issue => kIssue srd strideK kvByteBase kColOffset bufIdx w issue)

/-- The LDS element of an issue's dword, by its half. -/
def kElem (bufIdx : ℤ) (t : Thread) (issue half : ℕ) : ℤ :=
  bufBaseElems bufIdx + (t.val / 64 * 136 + issue * 544 + t.val % 64 * 2 + half : ℕ)

/-- Where an issue deposits the halves of a lane's dword. -/
lemma kDeposit_eq (bufIdx : ℤ) (t : Thread) (issue half : ℕ) :
    (m0Bytes bufIdx t issue + laneId t * 4) / 2 + half = kElem bufIdx t issue half := by
  simp only [m0Bytes, kElem, bufBaseBytes, bufBaseElems, warpId_eq, laneId_eq]
  omega

lemma mem_kIssue {srd : Mem β} {strideK kvByteBase kColOffset bufIdx : ℤ} {w : Fin 4}
    {issue : ℕ} {a : ℤ} {v : β} (hb : 2 ∣ kvByteBase) :
    (a, v) ∈ kIssue srd strideK kvByteBase kColOffset bufIdx w issue ↔
      ∃ t : Thread, t.val / 64 = w.val ∧ ∃ half < 2, a = kElem bufIdx t issue half ∧
        v = srd (kvByteBase / 2 + (kRow t issue : ℤ) * strideK + (kColOffset + kDInChunk t) + half)
      := by
  obtain ⟨b, rfl⟩ := hb
  have hsrc : ∀ t : Thread, kVoffset strideK (2 * b) kColOffset t issue / 2
      = 2 * b / 2 + (kRow t issue : ℤ) * strideK + (kColOffset + kDInChunk t) := by
    intro t
    rw [kVoffset_eq]
    have : 2 * b + (kRow t issue : ℤ) * (strideK * 2) + (kColOffset + kDInChunk t) * 2
        = 2 * (b + (kRow t issue : ℤ) * strideK + (kColOffset + kDInChunk t)) := by ring
    rw [this, Int.mul_ediv_cancel_left _ (by norm_num), Int.mul_ediv_cancel_left _ (by norm_num)]
  simp only [kIssue, List.mem_flatMap, mem_waveLanes, mem_dwordAt_load, hsrc, kDeposit_eq]

/-- The elements of a buffer. -/
def InBuffer (bufIdx e : ℤ) : Prop := bufBaseElems bufIdx ≤ e ∧ e < bufBaseElems bufIdx + 2304

/-- The buffers do not overlap. -/
lemma InBuffer.buf_eq {bufIdx bufIdx' e : ℤ} (h : InBuffer bufIdx e) (h' : InBuffer bufIdx' e) :
    bufIdx = bufIdx' := by
  obtain ⟨h0, h1⟩ := h
  obtain ⟨h0', h1'⟩ := h'
  unfold bufBaseElems at h0 h1 h0' h1'
  omega

lemma kElem_mem (bufIdx : ℤ) (t : Thread) {issue half : ℕ} (hi : issue < 4) (hh : half < 2) :
    InBuffer bufIdx (kElem bufIdx t issue half) := by
  have := t.isLt
  unfold InBuffer kElem
  omega

/-- An LDS element of the K copy is deposited once. -/
lemma kElem_inj {bufIdx : ℤ} {t t' : Thread} {i i' half half' : ℕ} (hh : half < 2) (hh' : half' < 2)
    (h : kElem bufIdx t i half = kElem bufIdx t' i' half') : t = t' ∧ i = i' ∧ half = half' := by
  simp only [kElem] at h
  have ht := t.isLt
  have ht' := t'.isLt
  refine ⟨?_, ?_, ?_⟩
  · ext; omega
  · omega
  · omega

lemma mem_kCopy {srd : Mem β} {strideK kvByteBase kColOffset bufIdx : ℤ} {a : ℤ} {v : β}
    (hb : 2 ∣ kvByteBase) :
    (a, v) ∈ ((List.finRange 4).flatMap fun w => (List.range 4).flatMap fun issue =>
        kIssue srd strideK kvByteBase kColOffset bufIdx w issue) ↔
      ∃ t : Thread, ∃ issue < 4, ∃ half < 2, a = kElem bufIdx t issue half ∧
        v = srd (kvByteBase / 2 + (kRow t issue : ℤ) * strideK + (kColOffset + kDInChunk t) + half)
      := by
  simp only [List.mem_flatMap, List.mem_finRange, true_and, List.mem_range, mem_kIssue hb]
  constructor
  · rintro ⟨w, issue, hi, t, -, half, hh, ha, hv⟩
    exact ⟨t, issue, hi, half, hh, ha, hv⟩
  · rintro ⟨t, issue, hi, half, hh, ha, hv⟩
    exact ⟨⟨t.val / 64, by omega⟩, issue, hi, t, rfl, half, hh, ha, hv⟩

/-- **The K copy, read**: after the copy, the element of thread `t`, issue `i` and half `h`
holds the K element at that thread's row and column. -/
theorem asyncCopyKSubtile_apply {lds srd : Mem β} {strideK kvByteBase kColOffset bufIdx : ℤ}
    (hb : 2 ∣ kvByteBase) (t : Thread) {issue half : ℕ} (hi : issue < 4) (hh : half < 2) :
    asyncCopyKSubtile lds srd strideK kvByteBase kColOffset bufIdx (kElem bufIdx t issue half)
      = srd (kvByteBase / 2 + (kRow t issue : ℤ) * strideK + (kColOffset + kDInChunk t) + half) := by
  refine stores_of_mem ((mem_kCopy hb).mpr ⟨t, issue, hi, half, hh, rfl, rfl⟩) ?_
  intro v' hv'
  obtain ⟨t', i', -, half', hh', ha, rfl⟩ := (mem_kCopy hb).mp hv'
  obtain ⟨rfl, rfl, rfl⟩ := kElem_inj hh hh' ha
  rfl

/-- The K copy stays in its buffer. -/
lemma asyncCopyKSubtile_frame {lds srd : Mem β} {strideK kvByteBase kColOffset bufIdx : ℤ} {a : ℤ}
    (hb : 2 ∣ kvByteBase) (ha : a < bufBaseElems bufIdx ∨ bufBaseElems bufIdx + 2304 ≤ a) :
    asyncCopyKSubtile lds srd strideK kvByteBase kColOffset bufIdx a = lds a := by
  refine stores_of_notMem fun v hv => ?_
  obtain ⟨t, i, hi, half, hh, rfl, -⟩ := (mem_kCopy hb).mp hv
  obtain ⟨h0, hlt⟩ := kElem_mem bufIdx t hi hh
  omega

/-! ### V through registers -/

/-- The register pair of one lane: four columns of two adjacent rows. -/
def loadVFromDram (srd : Mem β) (strideV kvByteBase : ℤ) (t : Thread) (k3 : Fin 2) : V2i β :=
  loadB64 srd (vVoff strideV kvByteBase t k3)

/-- `__builtin_amdgcn_perm` on a selector that moves whole 16-bit halves: bytes 0..3 are those
of `s1`, bytes 4..7 those of `s0`. -/
def permHalf (s0 s1 : Dword β) (sel : ℕ) : β :=
  match sel % 256 / 2 with
  | 0 => s1.lo
  | 1 => s1.hi
  | 2 => s0.lo
  | _ => s0.hi

def perm (s0 s1 : Dword β) (sel : ℕ) : Dword β :=
  ⟨permHalf s0 s1 (sel % 65536), permHalf s0 s1 (sel / 65536)⟩

def kPermSel0 : ℕ := 0x01000504
def kPermSel1 : ℕ := 0x03020706

@[simp] lemma perm_sel0 (s0 s1 : Dword β) : perm s0 s1 kPermSel0 = ⟨s0.lo, s1.lo⟩ := rfl
@[simp] lemma perm_sel1 (s0 s1 : Dword β) : perm s0 s1 kPermSel1 = ⟨s0.hi, s1.hi⟩ := rfl

/-- The byte address that `ds_write2_b32` takes; the immediate offsets undo the `- 128 * 4`. -/
def vLdsAddr (bufIdx : ℤ) (t : Thread) : ℤ :=
  let ldsBufOffset := bufBaseBytes bufIdx - 128 * 4
  let v86 : ℕ := ((laneId t >>> 3) &&& 7) * 144 + ((laneId t >>> 2) &&& 1) * 64 + (laneId t &&& 3) * 4
  warpId t * 1152 + v86 + ldsBufOffset

/-- The two `ds_write2_b32` of one lane. -/
def vStore (load0 load1 : V2i β) (bufIdx : ℤ) (t : Thread) : List (ℤ × β) :=
  let out0 := perm (load0 0) (load1 0) kPermSel0
  let out1 := perm (load0 0) (load1 0) kPermSel1
  let out2 := perm (load0 1) (load1 1) kPermSel0
  let out3 := perm (load0 1) (load1 1) kPermSel1
  dwordAt (vLdsAddr bufIdx t + 128 * 4) out0 ++ dwordAt (vLdsAddr bufIdx t + 132 * 4) out1 ++
    (dwordAt (vLdsAddr bufIdx t + 136 * 4) out2 ++ dwordAt (vLdsAddr bufIdx t + 140 * 4) out3)

/-- What one wave stores. -/
def vWave (regs : Thread → Fin 2 → V2i β) (bufIdx : ℤ) (w : Fin 4) : List (ℤ × β) :=
  (waveLanes w).flatMap fun t => vStore (regs t 0) (regs t 1) bufIdx t

def storeVToLds (lds : Mem β) (regs : Thread → Fin 2 → V2i β) (bufIdx : ℤ) : Mem β :=
  stores lds ((List.finRange 4).flatMap fun w => vWave regs bufIdx w)

/-- The LDS element of lane `t`, column `x` of its four and row `k3` of its two. -/
def vElem (bufIdx : ℤ) (t : Thread) (x k3 : ℕ) : ℤ :=
  bufBaseElems bufIdx +
    (t.val / 64 * 576 + t.val % 64 / 8 * 72 + t.val % 8 / 4 * 32 + t.val % 4 * 2 + x * 8 + k3 : ℕ)

/-- The element that a load gave lane `t` for column `x` and row `k3`. -/
def vRegElem (regs : Thread → Fin 2 → V2i β) (t : Thread) (x k3 : ℕ) : β :=
  let d := regs t (if k3 = 0 then 0 else 1) (if x < 2 then 0 else 1)
  if x % 2 = 0 then d.lo else d.hi

lemma vLdsAddr_eq (bufIdx : ℤ) (t : Thread) :
    (vLdsAddr bufIdx t + 128 * 4) / 2 = vElem bufIdx t 0 0
      ∧ (vLdsAddr bufIdx t + 132 * 4) / 2 = vElem bufIdx t 1 0
      ∧ (vLdsAddr bufIdx t + 136 * 4) / 2 = vElem bufIdx t 2 0
      ∧ (vLdsAddr bufIdx t + 140 * 4) / 2 = vElem bufIdx t 3 0 := by
  simp only [vLdsAddr, vElem, bufBaseBytes, bufBaseElems, warpId_eq, laneId_eq,
    Nat.shiftRight_eq_div_pow]
  rw [Nat.and_two_pow_sub_one_eq_mod (t.val % 64 / 2 ^ 3) 3,
    Nat.and_two_pow_sub_one_eq_mod (t.val % 64 / 2 ^ 2) 1,
    Nat.and_two_pow_sub_one_eq_mod (t.val % 64) 2]
  norm_num
  omega

lemma mem_vStore {regs : Thread → Fin 2 → V2i β} {bufIdx : ℤ} {t : Thread} {a : ℤ} {v : β} :
    (a, v) ∈ vStore (regs t 0) (regs t 1) bufIdx t ↔
      ∃ x < 4, ∃ k3 < 2, a = vElem bufIdx t x k3 ∧ v = vRegElem regs t x k3 := by
  obtain ⟨h0, h1, h2, h3⟩ := vLdsAddr_eq bufIdx t
  have hs : ∀ x, vElem bufIdx t x 0 + 1 = vElem bufIdx t x 1 := by
    intro x; simp [vElem]; ring
  simp only [vStore, dwordAt, h0, h1, h2, h3, hs, perm_sel0, perm_sel1, List.mem_append,
    List.mem_cons, List.not_mem_nil, or_false, Prod.mk.injEq]
  constructor
  · rintro (((⟨rfl, rfl⟩ | ⟨rfl, rfl⟩) | (⟨rfl, rfl⟩ | ⟨rfl, rfl⟩)) |
      ((⟨rfl, rfl⟩ | ⟨rfl, rfl⟩) | (⟨rfl, rfl⟩ | ⟨rfl, rfl⟩)))
    · exact ⟨0, by norm_num, 0, by norm_num, rfl, rfl⟩
    · exact ⟨0, by norm_num, 1, by norm_num, rfl, rfl⟩
    · exact ⟨1, by norm_num, 0, by norm_num, rfl, rfl⟩
    · exact ⟨1, by norm_num, 1, by norm_num, rfl, rfl⟩
    · exact ⟨2, by norm_num, 0, by norm_num, rfl, rfl⟩
    · exact ⟨2, by norm_num, 1, by norm_num, rfl, rfl⟩
    · exact ⟨3, by norm_num, 0, by norm_num, rfl, rfl⟩
    · exact ⟨3, by norm_num, 1, by norm_num, rfl, rfl⟩
  · rintro ⟨x, hx, k3, hk, rfl, rfl⟩
    interval_cases x <;> interval_cases k3 <;> simp [vRegElem]

lemma vElem_mem (bufIdx : ℤ) (t : Thread) {x k3 : ℕ} (hx : x < 4) (hk : k3 < 2) :
    InBuffer bufIdx (vElem bufIdx t x k3) := by
  have := t.isLt
  unfold InBuffer vElem
  omega

/-- An LDS element of the V store is written once. -/
lemma vElem_inj {bufIdx : ℤ} {t t' : Thread} {x x' k3 k3' : ℕ} (hx : x < 4) (hx' : x' < 4)
    (hk : k3 < 2) (hk' : k3' < 2) (h : vElem bufIdx t x k3 = vElem bufIdx t' x' k3') :
    t = t' ∧ x = x' ∧ k3 = k3' := by
  simp only [vElem] at h
  have ht := t.isLt
  have ht' := t'.isLt
  refine ⟨?_, ?_, ?_⟩
  · ext; omega
  · omega
  · omega

lemma mem_vStores {regs : Thread → Fin 2 → V2i β} {bufIdx a : ℤ} {v : β} :
    (a, v) ∈ ((List.finRange 4).flatMap fun w => vWave regs bufIdx w) ↔
      ∃ t : Thread, ∃ x < 4, ∃ k3 < 2, a = vElem bufIdx t x k3 ∧ v = vRegElem regs t x k3 := by
  simp only [List.mem_flatMap, List.mem_finRange, true_and, vWave, mem_waveLanes, mem_vStore]
  constructor
  · rintro ⟨w, t, -, h⟩
    exact ⟨t, h⟩
  · rintro ⟨t, h⟩
    exact ⟨⟨t.val / 64, by omega⟩, t, rfl, h⟩

/-- **The V store, read**: the element of lane `t`, column `x`, row `k3` holds what the load
put in its registers. -/
theorem storeVToLds_apply {lds : Mem β} {regs : Thread → Fin 2 → V2i β} {bufIdx : ℤ} (t : Thread)
    {x k3 : ℕ} (hx : x < 4) (hk : k3 < 2) :
    storeVToLds lds regs bufIdx (vElem bufIdx t x k3) = vRegElem regs t x k3 := by
  refine stores_of_mem (mem_vStores.mpr ⟨t, x, hx, k3, hk, rfl, rfl⟩) ?_
  intro v' hv'
  obtain ⟨t', x', hx', k3', hk', ha, rfl⟩ := mem_vStores.mp hv'
  obtain ⟨rfl, rfl, rfl⟩ := vElem_inj hx hx' hk hk' ha
  rfl

/-- The V store stays in its buffer. -/
lemma storeVToLds_frame {lds : Mem β} {regs : Thread → Fin 2 → V2i β} {bufIdx a : ℤ}
    (ha : a < bufBaseElems bufIdx ∨ bufBaseElems bufIdx + 2304 ≤ a) :
    storeVToLds lds regs bufIdx a = lds a := by
  refine stores_of_notMem fun v hv => ?_
  obtain ⟨t, x, hx, k3, hk, rfl, -⟩ := mem_vStores.mp hv
  obtain ⟨h0, hlt⟩ := vElem_mem bufIdx t hx hk
  omega

lemma vRegElem_load {srd : Mem β} {strideV kvByteBase : ℤ} (hb : 2 ∣ kvByteBase) (t : Thread)
    {x k3 : ℕ} (hx : x < 4) (hk : k3 < 2) :
    vRegElem (loadVFromDram srd strideV kvByteBase) t x k3
      = srd (kvByteBase / 2 + ((vRowInTile t + k3 : ℕ) : ℤ) * strideV + vCol t + x) := by
  obtain ⟨b, rfl⟩ := hb
  have hsrc : ∀ k : Fin 2, vVoff strideV (2 * b) t k
      = 2 * (b + ((vRowInTile t + k.val : ℕ) : ℤ) * strideV + vCol t) := by
    intro k
    rw [vVoff_eq]
    ring
  rw [Int.mul_ediv_cancel_left _ (by norm_num)]
  interval_cases k3 <;> interval_cases x <;>
    simp only [vRegElem, loadVFromDram, loadB64, loadB32, hsrc] <;> norm_num <;> congr 1 <;> omega

end FmhaNative.OpLds
