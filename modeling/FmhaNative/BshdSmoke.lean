import FmhaNative.EqualOutputs
import FmhaNative.OracleAgreement
import FmhaNative.LaunchParts

/-!
The two smoke tests of row-major tensors, in exact arithmetic: head-major contents are rearranged,
the fused kernel runs on the rearranged tensors, and its O is rearranged back and compared with a
reference of the test's own, on the contents as they were.
-/

namespace FmhaNative.BshdSmoke

open Pipeline Launch DeviceMemory Stores Loops GpuRefExact Offsets32
open XReal (fin exact)

/-! ### The rearrangements -/

/-- `((size_t)a*n2 + b)*n3*n4 + c*n4 + d` -/
def boxIdx (n2 n3 n4 a b c d : ℕ) : ℕ := (a * n2 + b) * n3 * n4 + c * n4 + d

def bhsdIdx (hDim sDim dDim b h s d : ℕ) : ℕ := boxIdx hDim sDim dDim b h s d
def bshdIdx (hDim sDim dDim b h s d : ℕ) : ℕ := boxIdx sDim hDim dDim b s h d

/-- `dst[dst_idx] = src[src_idx]` at each index, over a zeroed vector. -/
def rearrange {β : Type*} [Zero β] (dstIdx srcIdx : ℕ → ℕ → ℕ → ℕ → ℕ) (src : ℕ → β)
    (bDim hDim sDim dDim : ℕ) : ℕ → β :=
  stores (fun _ => 0) ((List.range bDim).flatMap fun b => (List.range hDim).flatMap fun h =>
    (List.range sDim).flatMap fun s => (List.range dDim).map fun d =>
      (dstIdx b h s d, src (srcIdx b h s d)))

/-- `bhsd_to_bshd` -/
def bhsdToBshd {β : Type*} [Zero β] (src : ℕ → β) (bDim hDim sDim dDim : ℕ) : ℕ → β :=
  rearrange (bshdIdx hDim sDim dDim) (bhsdIdx hDim sDim dDim) src bDim hDim sDim dDim

/-- The loop that fills `h_bhsd_O`. -/
def bshdToBhsd {β : Type*} [Zero β] (src : ℕ → β) (bDim hDim sDim dDim : ℕ) : ℕ → β :=
  rearrange (bhsdIdx hDim sDim dDim) (bshdIdx hDim sDim dDim) src bDim hDim sDim dDim

section Boxes

variable {n1 n2 n3 n4 a b c d a' b' c' d' : ℕ}

lemma boxIdx_eq (n2 n3 n4 a b c d : ℕ) :
    (boxIdx n2 n3 n4 a b c d : ℤ) = (((a : ℤ) * n2 + b) * n3 + c) * n4 + d := by
  unfold boxIdx
  push_cast
  ring

lemma boxIdx_inj (hb : b < n2) (hc : c < n3) (hd : d < n4) (hb' : b' < n2) (hc' : c' < n3)
    (hd' : d' < n4) (h : boxIdx n2 n3 n4 a b c d = boxIdx n2 n3 n4 a' b' c' d') :
    a = a' ∧ b = b' ∧ c = c' ∧ d = d' := by
  have hz : (boxIdx n2 n3 n4 a b c d : ℤ) = boxIdx n2 n3 n4 a' b' c' d' := by exact_mod_cast h
  rw [boxIdx_eq, boxIdx_eq] at hz
  obtain ⟨hz, h4⟩ := Indexing.radix_inj (by omega) (by exact_mod_cast hd) (by omega)
    (by exact_mod_cast hd') hz
  obtain ⟨hz, h3⟩ := Indexing.radix_inj (by omega) (by exact_mod_cast hc) (by omega)
    (by exact_mod_cast hc') hz
  obtain ⟨h1, h2⟩ := Indexing.radix_inj (by omega) (by exact_mod_cast hb) (by omega)
    (by exact_mod_cast hb') hz
  exact ⟨by exact_mod_cast h1, by exact_mod_cast h2, by exact_mod_cast h3, by exact_mod_cast h4⟩

lemma boxIdx_lt (ha : a < n1) (hb : b < n2) (hc : c < n3) (hd : d < n4) :
    boxIdx n2 n3 n4 a b c d < n1 * n2 * n3 * n4 := by
  have h1 : (a : ℤ) * n2 + b < n1 * n2 :=
    Indexing.radix_lt (by omega) (by exact_mod_cast hb) (by exact_mod_cast ha)
  have h2 : ((a : ℤ) * n2 + b) * n3 + c < n1 * n2 * n3 :=
    Indexing.radix_lt (by omega) (by exact_mod_cast hc) h1
  have h3 : (((a : ℤ) * n2 + b) * n3 + c) * n4 + d < n1 * n2 * n3 * n4 :=
    Indexing.radix_lt (by omega) (by exact_mod_cast hd) h2
  rw [← boxIdx_eq] at h3
  exact_mod_cast h3

/-- Every index below the size is an index of the box. -/
lemma exists_boxIdx {e : ℕ} (he : e < n1 * n2 * n3 * n4) :
    ∃ a b c d, a < n1 ∧ b < n2 ∧ c < n3 ∧ d < n4 ∧ boxIdx n2 n3 n4 a b c d = e := by
  have h4 : 0 < n4 := Nat.pos_of_ne_zero fun h => by simp [h] at he
  have h123 : e / n4 < n1 * n2 * n3 := Nat.div_lt_of_lt_mul (by rwa [mul_comm])
  have h3 : 0 < n3 := Nat.pos_of_ne_zero fun h => by simp [h] at h123
  have h12 : e / n4 / n3 < n1 * n2 := Nat.div_lt_of_lt_mul (by rwa [mul_comm])
  have h2 : 0 < n2 := Nat.pos_of_ne_zero fun h => by simp [h] at h12
  have h1 : e / n4 / n3 / n2 < n1 := Nat.div_lt_of_lt_mul (by rwa [mul_comm])
  refine ⟨_, e / n4 / n3 % n2, e / n4 % n3, e % n4, h1, Nat.mod_lt _ h2, Nat.mod_lt _ h3,
    Nat.mod_lt _ h4, ?_⟩
  rw [boxIdx, Nat.div_add_mod', ← add_mul, Nat.div_add_mod', Nat.div_add_mod']

/-- A rearranged vector holds, where an index goes, what was where it came from. -/
lemma rearrange_apply {β : Type*} [Zero β] {dstIdx srcIdx : ℕ → ℕ → ℕ → ℕ → ℕ}
    (hinj : ∀ a b c d a' b' c' d', b < n2 → c < n3 → d < n4 → b' < n2 → c' < n3 → d' < n4 →
      dstIdx a b c d = dstIdx a' b' c' d' → a = a' ∧ b = b' ∧ c = c' ∧ d = d')
    (src : ℕ → β) (ha : a < n1) (hb : b < n2) (hc : c < n3) (hd : d < n4) :
    rearrange dstIdx srcIdx src n1 n2 n3 n4 (dstIdx a b c d) = src (srcIdx a b c d) := by
  have hmem : ∀ w : ℕ × β, w ∈ (List.range n1).flatMap (fun a => (List.range n2).flatMap fun b =>
      (List.range n3).flatMap fun c => (List.range n4).map fun d =>
        (dstIdx a b c d, src (srcIdx a b c d))) ↔
      ∃ a < n1, ∃ b < n2, ∃ c < n3, ∃ d < n4, w = (dstIdx a b c d, src (srcIdx a b c d)) := by
    simp only [List.mem_flatMap, List.mem_map, List.mem_range, eq_comm, implies_true]
  refine stores_of_mem ((hmem _).mpr ⟨a, ha, b, hb, c, hc, d, hd, rfl⟩) fun v hv => ?_
  obtain ⟨a', -, b', hb', c', hc', d', hd', he⟩ := (hmem _).mp hv
  obtain ⟨hto, rfl⟩ := Prod.mk.inj he
  obtain ⟨rfl, rfl, rfl, rfl⟩ := hinj _ _ _ _ _ _ _ _ hb hc hd hb' hc' hd' hto
  rfl

lemma bhsdToBshd_apply {β : Type*} [Zero β] (src : ℕ → β) (ha : a < n1) (hb : b < n2) (hc : c < n3)
    (hd : d < n4) :
    bhsdToBshd src n1 n2 n3 n4 (bshdIdx n2 n3 n4 a b c d) = src (bhsdIdx n2 n3 n4 a b c d) := by
  refine rearrange_apply ?_ src ha hb hc hd
  intro a b c d a' b' c' d' hb hc hd hb' hc' hd' h
  obtain ⟨h1, h3, h2, h4⟩ := boxIdx_inj hc hb hd hc' hb' hd' h
  exact ⟨h1, h2, h3, h4⟩

lemma bshdToBhsd_apply {β : Type*} [Zero β] (src : ℕ → β) (ha : a < n1) (hb : b < n2) (hc : c < n3)
    (hd : d < n4) :
    bshdToBhsd src n1 n2 n3 n4 (bhsdIdx n2 n3 n4 a b c d) = src (bshdIdx n2 n3 n4 a b c d) :=
  rearrange_apply (fun _ _ _ _ _ _ _ _ hb hc hd hb' hc' hd' h => boxIdx_inj hb hc hd hb' hc' hd' h)
    src ha hb hc hd

end Boxes

/-! ### The launch -/

/-- The sizes of a test, and whether it runs the causal kernel. -/
structure SmokeCase where
  causal : Bool
  (B Hq Hkv Sq Skv : ℕ)
  Hkv_pos : 0 < Hkv
  Hq_pos : 0 < Hq
  gqa : Hkv ∣ Hq
  Skv_pos : 0 < Skv

/-- `BSHD` -/
def SmokeCase.bshd : SmokeCase where
  causal := false
  B := 2
  Hq := 4
  Hkv := 2
  Sq := 256
  Skv := 256
  Hkv_pos := by decide
  Hq_pos := by decide
  gqa := by decide
  Skv_pos := by decide

/-- `BSHDCausalGqa` -/
def SmokeCase.bshdCausalGqa : SmokeCase where
  causal := true
  B := 1
  Hq := 8
  Hkv := 2
  Sq := 300
  Skv := 300
  Hkv_pos := by decide
  Hq_pos := by decide
  gqa := by decide
  Skv_pos := by decide

/-- A batch's rows of O are below `num_records`, those of K and V below the 32-bit limit; the strides
are then `int`s. -/
structure SmokeCase.Fits (c : SmokeCase) : Prop where
  rowsO : 128 * (c.Sq * c.Hq) < 2 ^ 31
  rowsKv : 128 * (c.Skv * c.Hkv) < 2 ^ 32

lemma SmokeCase.bshd_fits : SmokeCase.bshd.Fits := ⟨by decide, by decide⟩

lemma SmokeCase.bshdCausalGqa_fits : SmokeCase.bshdCausalGqa.Fits := ⟨by decide, by decide⟩

variable (c : SmokeCase)

/-- A host vector copied to the device; what lies beyond the allocation is not known. -/
def upload (x : ℕ → ℝ) (n : ℕ) (beyond : Mem ℝ) : Mem ℝ :=
  fun e => if 0 ≤ e ∧ e < n then x e.toNat else beyond e

/-- `kLog2e / sqrtf(64)` -/
noncomputable def scale : ℝ := Real.logb 2 (Real.exp 1) * (√(64 : ℕ))⁻¹

/-- `kparams`, with the row-major strides, over rearranged tensors. -/
noncomputable def bshdLaunch (q k v : ℕ → ℝ) (beyondQ beyondK beyondV : Mem ℝ) : Launch ℝ ℝ where
  hasMask := c.causal
  isVarlen := false
  params :=
    { q := upload (bhsdToBshd q c.B c.Hq c.Sq 64) (c.B * c.Hq * c.Sq * 64) beyondQ
      k := upload (bhsdToBshd k c.B c.Hkv c.Skv 64) (c.B * c.Hkv * c.Skv * 64) beyondK
      v := upload (bhsdToBshd v c.B c.Hkv c.Skv 64) (c.B * c.Hkv * c.Skv * 64) beyondV
      lse := false, seqlenQ := c.Sq, seqlenK := c.Skv, nheadQ := c.Hq, nheadK := c.Hkv
      scale := scale
      strideQ := c.Hq * 64, nheadStrideQ := 64, batchStrideQ := c.Sq * c.Hq * 64
      strideK := c.Hkv * 64, nheadStrideK := 64, batchStrideK := c.Skv * c.Hkv * 64
      strideV := c.Hkv * 64, nheadStrideV := 64, batchStrideV := c.Skv * c.Hkv * 64
      strideO := c.Hq * 64, nheadStrideO := 64, batchStrideO := c.Sq * c.Hq * 64
      seqstartQ := fun _ => 0, seqstartK := fun _ => 0 }
  batch := c.B
  nheadK_pos := Int.natCast_pos.mpr c.Hkv_pos
  nheadQ_pos := Int.natCast_pos.mpr c.Hq_pos
  gqa := Int.natCast_dvd_natCast.mpr c.gqa
  seqlenQ_nonneg _ _ _ := Int.natCast_nonneg c.Sq
  seqlenK_nonneg _ _ _ := Int.natCast_nonneg c.Skv
  seqlenQ_le _ _ _ := le_rfl

/-- The same launch with head-major strides, over the tensors as they were. -/
noncomputable def bhsdLaunch (q k v : ℕ → ℝ) (beyondQ beyondK beyondV : Mem ℝ) : Launch ℝ ℝ :=
  .bhsd c.causal false (upload q (c.B * c.Hq * c.Sq * 64) beyondQ)
    (upload k (c.B * c.Hkv * c.Skv * 64) beyondK) (upload v (c.B * c.Hkv * c.Skv * 64) beyondV) scale
    c.B c.Hkv (c.Hq / c.Hkv : ℕ) c.Sq c.Skv (Int.natCast_pos.mpr c.Hkv_pos)
    (Int.natCast_pos.mpr (Nat.div_pos (Nat.le_of_dvd c.Hq_pos c.gqa) c.Hkv_pos))
    (Int.natCast_nonneg c.Sq) (Int.natCast_nonneg c.Skv)

/-! ### The reference of the test -/

section Reference

variable {α β : Type*} [Fp α] [Zero β] (bf : Bf16 α β)

/-- `S[j]` -/
def score (hQ hK : ℕ → β) (b hq i j : ℕ) : α :=
  let hkv := hq / (c.Hq / c.Hkv)
  let dot := sumLoop 64 fun d => bf.toFloat (hQ (bhsdIdx c.Hq c.Sq 64 b hq i d)) *
    bf.toFloat (hK (bhsdIdx c.Hkv c.Skv 64 b hkv j d))
  let s := dot * Fp.recip (Fp.sqrtf (Fp.lit 64))
  if c.causal ∧ (j : ℤ) > i + ((c.Skv : ℤ) - c.Sq) then Fp.negInf else s

/-- `P[j]` of the test without a mask. -/
def plainProb (n : ℕ) (s : ℕ → α) (j : ℕ) : α :=
  let m := CpuRef.rowMax n s
  let inv := Fp.recip (sumLoop n fun j => Fp.expf (Fp.sub (s j) m))
  bf.toFloat (bf.ofFloat (Fp.expf (Fp.sub (s j) m) * inv))

/-- `P[j]`; the causal test guards masked scores and rows as the CPU oracle does. -/
def prob (s : ℕ → α) : ℕ → α :=
  if c.causal then CpuRef.prob bf c.Skv s else plainProb bf c.Skv s

/-- `o_ref` -/
def oRef (hQ hK hV : ℕ → β) (b hq i d : ℕ) : α :=
  let hkv := hq / (c.Hq / c.Hkv)
  let s := score c bf hQ hK b hq i
  sumLoop c.Skv fun j => prob c bf s j * bf.toFloat (hV (bhsdIdx c.Hkv c.Skv 64 b hkv j d))

end Reference

section Compare

open CpuVerify HostFp

/-- What the comparison counts. -/
@[ext] structure Counts (α : Type*) where
  maxAbs : α
  (mismatches nonfinite : ℕ)

variable {α : Type*} [HostFp α]

def Counts.add (t : Counts α) (absErr : α) : Counts α :=
  if !isfinite absErr then { t with nonfinite := t.nonfinite + 1 }
  else
    let t := if lt t.maxAbs absErr then { t with maxAbs := absErr } else t
    if lt tolAbs absErr then { t with mismatches := t.mismatches + 1 } else t

/-- The loop over `b`, `hq`, `i` and `d`. -/
def compare (zero : α) (ref kern : ℕ → ℕ → ℕ → ℕ → α) : Counts α :=
  ((List.range c.B).flatMap fun b => (List.range c.Hq).flatMap fun hq =>
    (List.range c.Sq).flatMap fun i => (List.range 64).map fun d =>
      rawErr (ref b hq i d) (kern b hq i d)).foldl Counts.add ⟨zero, 0, 0⟩

end Compare

/-- The test, from the contents and the O that the launch has left on the device. -/
noncomputable def smokeTest (q k v : ℕ → ℝ) (dO : Mem XReal) : Counts XReal :=
  let hBhsdO := bshdToBhsd (fun e : ℕ => dO e) c.B c.Hq c.Sq 64
  compare c (fin 0)
    (oRef c exact (fun e => fin (q e)) (fun e => fin (k e)) fun e => fin (v e))
    fun b hq i d => exact.toFloat (hBhsdO (bhsdIdx c.Hq c.Sq 64 b hq i d))

/-! ### The launches see the contents -/

variable {c} {q k v : ℕ → ℝ} {beyondQ beyondK beyondV : Mem ℝ}

/-- A launch of the test's sizes reads the head-major contents, at its own offsets. -/
structure Presents (c : SmokeCase) (q k v : ℕ → ℝ) (L : Launch ℝ ℝ) : Prop where
  hasMask : L.hasMask = c.causal
  scale : L.params.scale = scale
  seq : ∀ b, L.seq b = ⟨c.Sq, c.Skv, 0, 0⟩
  inRange : ∀ b h i : ℕ, b < c.B → h < c.Hq → i < c.Sq → L.InRange b h i
  q : ∀ b h i d : ℕ, b < c.B → h < c.Hq → i < c.Sq → d < 64 →
    L.params.q (L.qOff b h i + d) = q (bhsdIdx c.Hq c.Sq 64 b h i d)
  k : ∀ b h j d : ℕ, b < c.B → h < c.Hq → j < c.Skv → d < 64 →
    L.params.k (L.kOff b h j + d) = k (bhsdIdx c.Hkv c.Skv 64 b (h / (c.Hq / c.Hkv)) j d)
  v : ∀ b h j d : ℕ, b < c.B → h < c.Hq → j < c.Skv → d < 64 →
    L.value b h j d = v (bhsdIdx c.Hkv c.Skv 64 b (h / (c.Hq / c.Hkv)) j d)

lemma upload_apply (x : ℕ → ℝ) {n e : ℕ} (he : e < n) (beyond : Mem ℝ) :
    upload x n beyond (e : ℤ) = x e := by
  rw [upload, if_pos ⟨Int.natCast_nonneg e, by exact_mod_cast he⟩, Int.toNat_natCast]

/-- The key head of a query head. -/
lemma kvHead (c : SmokeCase) {h : ℕ} (hh : h < c.Hq) :
    h / (c.Hq / c.Hkv) < c.Hkv ∧
      (h : ℤ).tdiv ((c.Hq : ℤ).tdiv c.Hkv) = (h / (c.Hq / c.Hkv) : ℕ) := by
  refine ⟨Nat.div_lt_of_lt_mul ?_, ?_⟩
  · rwa [Nat.div_mul_cancel c.gqa]
  · rw [Int.ofNat_tdiv, Int.ofNat_tdiv]

lemma bshd_off (H S b h i d : ℕ) :
    (b : ℤ) * (S * H * 64) + h * 64 + i * (H * 64) + d = (bshdIdx H S 64 b h i d : ℕ) := by
  rw [bshdIdx, boxIdx_eq]
  push_cast
  ring

lemma bhsd_off (H S b h i d : ℕ) :
    (b : ℤ) * (H * S * 64) + h * (S * 64) + i * 64 + d = (bhsdIdx H S 64 b h i d : ℕ) := by
  rw [bhsdIdx, boxIdx_eq]
  push_cast
  ring

section Elements

variable {B H S b h i d : ℕ} (hb : b < B) (hh : h < H) (hi : i < S) (hd : d < 64)
include hb hh hi hd

lemma bhsdIdx_lt : bhsdIdx H S 64 b h i d < B * H * S * 64 := boxIdx_lt hb hh hi hd

lemma bshdIdx_lt : bshdIdx H S 64 b h i d < B * H * S * 64 := by
  calc bshdIdx H S 64 b h i d < B * S * H * 64 := boxIdx_lt hb hi hh hd
    _ = B * H * S * 64 := by ring

/-- A row-major offset into the rearranged tensor, and a head-major one into the tensor itself. -/
lemma upload_bshd (x : ℕ → ℝ) (beyond : Mem ℝ) :
    upload (bhsdToBshd x B H S 64) (B * H * S * 64) beyond
      ((b : ℤ) * (S * H * 64) + h * 64 + i * (H * 64) + d) = x (bhsdIdx H S 64 b h i d) := by
  rw [bshd_off, upload_apply _ (bshdIdx_lt hb hh hi hd), bhsdToBshd_apply x hb hh hi hd]

lemma upload_bhsd (x : ℕ → ℝ) (beyond : Mem ℝ) :
    upload x (B * H * S * 64) beyond ((b : ℤ) * (H * S * 64) + h * (S * 64) + i * 64 + d)
      = x (bhsdIdx H S 64 b h i d) := by
  rw [bhsd_off, upload_apply _ (bhsdIdx_lt hb hh hi hd)]

end Elements

lemma bshdLaunch_presents :
    Presents c q k v (bshdLaunch c q k v beyondQ beyondK beyondV) where
  hasMask := rfl
  scale := rfl
  seq _ := rfl
  inRange b h i hb hh hi := ⟨Int.natCast_nonneg b, Int.ofNat_lt.mpr hb, Int.natCast_nonneg h,
    Int.ofNat_lt.mpr hh, Int.natCast_nonneg i, Int.ofNat_lt.mpr hi⟩
  q b h i d hb hh hi hd := upload_bshd hb hh hi hd q beyondQ
  k b h j d hb hh hj hd := by
    obtain ⟨hlt, hdiv⟩ := kvHead c hh
    change upload _ _ _ ((b : ℤ) * (c.Skv * c.Hkv * 64) + (h : ℤ).tdiv ((c.Hq : ℤ).tdiv c.Hkv) * 64
      + j * (c.Hkv * 64) + d) = _
    rw [hdiv, upload_bshd hb hlt hj hd]
  v b h j d hb hh hj hd := by
    obtain ⟨hlt, hdiv⟩ := kvHead c hh
    change upload _ _ _ ((b : ℤ) * (c.Skv * c.Hkv * 64) + (h : ℤ).tdiv ((c.Hq : ℤ).tdiv c.Hkv) * 64
      + j * (c.Hkv * 64) + d) = _
    rw [hdiv, upload_bshd hb hlt hj hd]

/-- All query heads, as the head-major launch counts them. -/
lemma heads_eq (c : SmokeCase) : (c.Hkv : ℤ) * (c.Hq / c.Hkv : ℕ) = c.Hq := by
  exact_mod_cast Nat.mul_div_cancel' c.gqa

lemma bhsdLaunch_presents :
    Presents c q k v (bhsdLaunch c q k v beyondQ beyondK beyondV) where
  hasMask := rfl
  scale := rfl
  seq _ := rfl
  inRange b h i hb hh hi := by
    refine ⟨Int.natCast_nonneg b, Int.ofNat_lt.mpr hb, Int.natCast_nonneg h, ?_,
      Int.natCast_nonneg i, Int.ofNat_lt.mpr hi⟩
    exact (Int.ofNat_lt.mpr hh).trans_eq (heads_eq c).symm
  q b h i d hb hh hi hd := by
    change upload _ _ _ ((b : ℤ) * ((c.Hkv : ℤ) * (c.Hq / c.Hkv : ℕ) * c.Sq * 64) + h * (c.Sq * 64)
      + i * 64 + d) = _
    rw [heads_eq, upload_bhsd hb hh hi hd]
  k b h j d hb hh hj hd := by
    obtain ⟨hlt, hdiv⟩ := kvHead c hh
    change upload _ _ _ ((b : ℤ) * (c.Hkv * c.Skv * 64) + (h : ℤ).tdiv
      (((c.Hkv : ℤ) * (c.Hq / c.Hkv : ℕ)).tdiv c.Hkv) * (c.Skv * 64) + j * 64 + d) = _
    rw [heads_eq, hdiv, upload_bhsd hb hlt hj hd]
  v b h j d hb hh hj hd := by
    obtain ⟨hlt, hdiv⟩ := kvHead c hh
    change upload _ _ _ ((b : ℤ) * (c.Hkv * c.Skv * 64) + (h : ℤ).tdiv
      (((c.Hkv : ℤ) * (c.Hq / c.Hkv : ℕ)).tdiv c.Hkv) * (c.Skv * 64) + j * 64 + d) = _
    rw [heads_eq, hdiv, upload_bhsd hb hlt hj hd]

/-! ### The attention of the contents -/

/-- The keys that a row attends, their scaled scores and their values. -/
def rowKeys (c : SmokeCase) (i : ℕ) : Finset ℕ :=
  Attention.keys c.causal c.Skv ((c.Skv : ℤ) - c.Sq) i

noncomputable def rowScore (c : SmokeCase) (q k : ℕ → ℝ) (b h i j : ℕ) : ℝ :=
  (√(64 : ℕ))⁻¹ * ∑ d ∈ Finset.range 64, q (bhsdIdx c.Hq c.Sq 64 b h i d) *
    k (bhsdIdx c.Hkv c.Skv 64 b (h / (c.Hq / c.Hkv)) j d)

def rowValue (c : SmokeCase) (v : ℕ → ℝ) (b h j d : ℕ) : ℝ :=
  v (bhsdIdx c.Hkv c.Skv 64 b (h / (c.Hq / c.Hkv)) j d)

noncomputable def attention (c : SmokeCase) (q k v : ℕ → ℝ) (b h i d : ℕ) : ℝ :=
  Attention.output (rowKeys c i) (rowScore c q k b h i) (rowValue c v b h) d

lemma rowKeys_lt {i j : ℕ} (hj : j ∈ rowKeys c i) : j < c.Skv := by
  exact_mod_cast (Attention.mem_keys.mp hj).1

lemma scale_log : scale * Real.log 2 = (√(64 : ℕ))⁻¹ := by
  have hlog : Real.logb 2 (Real.exp 1) * Real.log 2 = 1 := by
    rw [Real.logb, Real.log_exp, one_div, inv_mul_cancel₀ (Real.log_pos one_lt_two).ne']
  rw [scale, mul_right_comm, hlog, one_mul]

lemma scale_pos : 0 < scale :=
  mul_pos (Real.logb_pos one_lt_two (Real.one_lt_exp_iff.mpr one_pos)) (by positivity)

/-- The launch computes the attention of the contents. -/
lemma Presents.output {L : Launch ℝ ℝ} (hp : Presents c q k v L) {b h i d : ℕ} (hb : b < c.B)
    (hh : h < c.Hq) (hi : i < c.Sq) (hd : d < 64) :
    Attention.output (L.keys b i) (L.score b h i) (L.value b h) d = attention c q k v b h i d := by
  have hkeys : L.keys b i = rowKeys c i := by
    rw [Launch.keys, hp.seq, hp.hasMask]
    rfl
  rw [hkeys, attention]
  refine Attention.output_congr (fun j hj => ?_) fun j hj => hp.v b h j d hb hh (rowKeys_lt hj) hd
  rw [Launch.score, rowScore, hp.scale, scale_log]
  congr 1
  refine Finset.sum_congr rfl fun e he => ?_
  have he := Finset.mem_range.mp he
  rw [hp.q b h i e hb hh hi he, hp.k b h j e hb hh (rowKeys_lt hj) he]

/-- What the launch leaves in O. -/
lemma Presents.left {L : Launch ℝ ℝ} (hp : Presents c q k v L) (hx : OffsetsExact L)
    (hinj : L.OInjective) {ws : List (ℤ × XReal)} (hws : OStores exact L.exact ws) (m : Mem XReal)
    {b h i d : ℕ} (hb : b < c.B) (hh : h < c.Hq) (hi : i < c.Sq) (hd : d < 64) :
    stores m ws (L.oOff b h i + d) = fin (attention c q k v b h i d) := by
  have hσ : 0 < L.params.scale := hp.scale ▸ scale_pos
  have hall : ∀ x ∈ [ws], OStores exact L.exact x := fun x hx => by
    rwa [List.mem_singleton.mp hx]
  have hleft := (oStores_leave L hσ hx hinj (List.cons_ne_nil ws []) hall m).1 b h i d
    (hp.inRange b h i hb hh hi) hd
  rwa [List.flatten_singleton, hp.output hb hh hi hd] at hleft

/-! ### The reference computes it -/

section Reference

/-- The scores of the test: real for the attended keys, `-inf` for the others. -/
lemma test_scores (c : SmokeCase) (q k : ℕ → ℝ) (b h i : ℕ) :
    Scores c.Skv (score c exact (fun e => fin (q e)) (fun e => fin (k e)) b h i) (rowKeys c i)
      (rowScore c q k b h i) := by
  refine ⟨fun j hj => rowKeys_lt hj, fun j hj => ?_⟩
  have hscalar : Fp.recip (Fp.sqrtf (Fp.lit 64) : XReal) = fin (√(64 : ℕ))⁻¹ := by
    rw [XReal.lit_def, XReal.sqrtf_def, XReal.sqrt_fin (by norm_num), XReal.recip_def,
      XReal.recip_fin (Real.sqrt_pos.mpr (by norm_num)).ne']
    norm_num
  have hmask : (c.causal ∧ (j : ℤ) > i + ((c.Skv : ℤ) - c.Sq)) ↔ ¬ j ∈ rowKeys c i := by
    have hj' : (j : ℤ) < c.Skv := Int.ofNat_lt.mpr hj
    rw [rowKeys, Attention.mem_keys]
    simp [hj']
  have hdot : ∀ hkv, sumLoop 64 (fun d => exact.toFloat (fin (q (bhsdIdx c.Hq c.Sq 64 b h i d))) *
      exact.toFloat (fin (k (bhsdIdx c.Hkv c.Skv 64 b hkv j d))))
      = fin (∑ d ∈ Finset.range 64, q (bhsdIdx c.Hq c.Sq 64 b h i d) *
        k (bhsdIdx c.Hkv c.Skv 64 b hkv j d)) := fun hkv => by
    rw [sumLoop_eq, ← XReal.sum_fin]
    exact Finset.sum_congr rfl fun d _ => XReal.fin_mul _ _
  unfold score
  simp only [hmask, hdot, hscalar, XReal.fin_mul, ite_not, XReal.negInf_def]
  rw [rowScore, mul_comm (√(64 : ℕ))⁻¹]

/-- Without masked scores the guards of the causal test change nothing. -/
lemma plainProb_eq {n : ℕ} {s : ℕ → XReal} {x : ℕ → ℝ} (hn : 0 < n)
    (hs : Scores n s (Finset.range n) x) {j : ℕ} (hj : j < n) :
    plainProb exact n s j = CpuRef.prob exact n s j := by
  obtain ⟨M, hM⟩ := hs.exists_maxS ⟨0, Finset.mem_range.mpr hn⟩
  have hmax : CpuRef.rowMax n s = fin M := (CpuRef.rowMax_eq hs hn).trans hM
  have hexp : ∀ i < n, Fp.expf (Fp.sub (s i) (fin M)) = CpuRef.expS s (fin M) i := fun i hi => by
    rw [CpuRef.expS, hs.score i hi, if_pos (Finset.mem_range.mpr hi), if_neg (by simp)]
  unfold plainProb CpuRef.prob
  simp only [hmax, sumLoop_congr hexp, hexp j hj]
  rw [if_neg (by simp)]

lemma prob_eq (c : SmokeCase) {s : ℕ → XReal} {x : ℕ → ℝ} {i : ℕ} (hs : Scores c.Skv s (rowKeys c i) x)
    {j : ℕ} (hj : j < c.Skv) :
    prob c exact s j = fin (if j ∈ rowKeys c i then Attention.softmax (rowKeys c i) x j else 0) := by
  have hcpu : CpuRef.prob exact c.Skv s j
      = fin (if j ∈ rowKeys c i then Attention.softmax (rowKeys c i) x j else 0) :=
    (CpuRef.prob_eq exact hs hj).trans (hs.prob hj)
  unfold prob
  by_cases hc : c.causal
  · rw [if_pos hc, hcpu]
  · have hall : rowKeys c i = Finset.range c.Skv := by
      ext l
      rw [rowKeys, Attention.mem_keys, Finset.mem_range]
      simp [hc]
    rw [if_neg hc, plainProb_eq c.Skv_pos (hall ▸ hs) hj, hcpu]

/-- **The reference of the test** computes the attention of the contents. -/
lemma oRef_eq (c : SmokeCase) (q k v : ℕ → ℝ) (b h i d : ℕ) :
    oRef c exact (fun e => fin (q e)) (fun e => fin (k e)) (fun e => fin (v e)) b h i d
      = fin (attention c q k v b h i d) := by
  have hs := test_scores c q k b h i
  rw [attention, Attention.output, ← hs.sum_range, ← XReal.sum_fin, oRef, sumLoop_eq]
  refine Finset.sum_congr rfl fun j hj => ?_
  rw [prob_eq c hs (Finset.mem_range.mp hj), rowValue]
  split_ifs
  · exact XReal.fin_mul _ _
  · exact (XReal.fin_mul _ _).trans (by rw [zero_mul])

end Reference

/-! ### The test passes -/

section Passes

open CpuVerify HostFp

/-- Elements without an error leave the counts at zero. -/
lemma foldl_counts {errs : List XReal} (h : ∀ e ∈ errs, e = fin 0) :
    errs.foldl Counts.add ⟨fin 0, 0, 0⟩ = ⟨fin 0, 0, 0⟩ := by
  induction errs with
  | nil => rfl
  | cons e errs ih =>
    have he : e = fin 0 := h e List.mem_cons_self
    have hlt : HostFp.lt (fin 0 : XReal) (fin 0) = false :=
      Bool.eq_false_iff.mpr fun hlt => by simp [Verdict.lt_iff] at hlt
    have htol : HostFp.lt (tolAbs : XReal) (fin 0) = false :=
      Bool.eq_false_iff.mpr EqualOutputs.not_tolAbs_lt_zero
    have hfin : isfinite (fin 0 : XReal) = true := rfl
    rw [List.foldl_cons, he, Counts.add, hfin, hlt, htol]
    exact ih fun x hx => h x (List.mem_cons_of_mem _ hx)

lemma compare_eq {ref kern : ℕ → ℕ → ℕ → ℕ → XReal} (h : ∀ b hq i d, b < c.B → hq < c.Hq → i < c.Sq →
      d < 64 → ∃ r, ref b hq i d = fin r ∧ kern b hq i d = fin r) :
    compare c (fin 0) ref kern = ⟨fin 0, 0, 0⟩ := by
  refine foldl_counts fun e he => ?_
  simp only [List.mem_flatMap, List.mem_map, List.mem_range] at he
  obtain ⟨b, hb, hq, hhq, i, hi, d, hd, rfl⟩ := he
  obtain ⟨r, hr, hk⟩ := h b hq i d hb hhq hi hd
  rw [hr, hk, EqualOutputs.rawErr_self]

lemma bshdLaunch_oInjective : (bshdLaunch c q k v beyondQ beyondK beyondV).OInjective := by
  intro b h i b' h' i' d d' hr hd hr' hd' he
  obtain ⟨b, rfl⟩ := Int.eq_ofNat_of_zero_le hr.b_nonneg
  obtain ⟨h, rfl⟩ := Int.eq_ofNat_of_zero_le hr.h_nonneg
  obtain ⟨i, rfl⟩ := Int.eq_ofNat_of_zero_le hr.i_nonneg
  obtain ⟨b', rfl⟩ := Int.eq_ofNat_of_zero_le hr'.b_nonneg
  obtain ⟨h', rfl⟩ := Int.eq_ofNat_of_zero_le hr'.h_nonneg
  obtain ⟨i', rfl⟩ := Int.eq_ofNat_of_zero_le hr'.i_nonneg
  change (b : ℤ) * (c.Sq * c.Hq * 64) + h * 64 + i * (c.Hq * 64) + d
    = (b' : ℤ) * (c.Sq * c.Hq * 64) + h' * 64 + i' * (c.Hq * 64) + d' at he
  rw [bshd_off, bshd_off] at he
  obtain ⟨h1, h2, h3, h4⟩ := boxIdx_inj (Int.ofNat_lt.mp hr.i_lt) (Int.ofNat_lt.mp hr.h_lt) hd
    (Int.ofNat_lt.mp hr'.i_lt) (Int.ofNat_lt.mp hr'.h_lt) hd' (Int.ofNat_inj.mp he)
  exact ⟨by rw [h1], by rw [h3], by rw [h2], h4⟩

/-- The rows of `H` heads, `64 * H` apart, stay below a limit that the tensor stays below. -/
lemma lastByte_rows {H S limit : ℕ} (hH : 0 < H) (h : 128 * (S * H) < limit + 1) :
    lastByte S (H * 64) < limit := by
  have hrows : ((S : ℤ) - 1) * (H * 64) = 64 * (S * H : ℕ) - 64 * H := by
    push_cast
    ring
  rw [lastByte, hrows]
  omega

lemma bshdLaunch_exact (hc : c.Fits) : OffsetsExact (bshdLaunch c q k v beyondQ beyondK beyondV) := by
  have hHq := c.Hq_pos
  have hrowsO := hc.rowsO
  have hQ : lastByte c.Sq (c.Hq * 64) < numRecords := lastByte_rows hHq (by norm_num [numRecords]; omega)
  have hO : lastByte c.Sq (c.Hq * 64) < (0x7FFFFFFF : ℕ) := lastByte_rows hHq hc.rowsO
  have hKv : lastByte c.Skv (c.Hkv * 64) < numRecords := lastByte_rows c.Hkv_pos hc.rowsKv
  have hsQ : (62 : ℤ) < c.Hq * 64 := by omega
  have hsK : (0 : ℤ) ≤ c.Hkv * 64 := by omega
  exact exact_of_lastByte (fun _ _ _ => ⟨Int.le_refl _, Int.le_refl _⟩) ⟨hsQ.le.trans' (by norm_num), hQ⟩
    ⟨hsK, hKv⟩ ⟨hsK, hKv⟩ ⟨hsQ, hO⟩

lemma bhsdLaunch_exact (hc : c.Fits) : OffsetsExact (bhsdLaunch c q k v beyondQ beyondK beyondV) := by
  have hq := Nat.le_mul_of_pos_right c.Sq c.Hq_pos
  have hk := Nat.le_mul_of_pos_right c.Skv c.Hkv_pos
  have hrowsO := hc.rowsO
  have hrowsKv := hc.rowsKv
  exact exact_bhsd _ _ _ _ _ _ _ _ _ _ _ _ _ _ _ (by omega) (by omega)

/-- The O that is rearranged back. -/
lemma bshdToBhsd_left (hc : c.Fits) {ws : List (ℤ × XReal)}
    (hws : OStores exact (bshdLaunch c q k v beyondQ beyondK beyondV).exact ws) (m : Mem XReal)
    {b h i d : ℕ} (hb : b < c.B) (hh : h < c.Hq) (hi : i < c.Sq) (hd : d < 64) :
    bshdToBhsd (fun e : ℕ => stores m ws e) c.B c.Hq c.Sq 64 (bhsdIdx c.Hq c.Sq 64 b h i d)
      = fin (attention c q k v b h i d) := by
  rw [bshdToBhsd_apply _ hb hh hi hd, ← bshd_off]
  exact bshdLaunch_presents.left (bshdLaunch_exact hc) bshdLaunch_oInjective hws m hb hh hi hd

/-- **The row-major smoke tests pass**, for every size whose offsets fit their words, any contents and
whatever lies beyond the tensors: the test counts no mismatch and no special value, and the O that it
rearranges back is, element for element, what the kernel leaves when it is launched on the head-major
tensors. -/
theorem bshd_smoke_passes (c : SmokeCase) (hc : c.Fits) (q k v : ℕ → ℝ)
    (beyondQ beyondK beyondV : Mem ℝ) (m : Mem XReal) {ws : List (ℤ × XReal)}
    (hws : OStores exact (bshdLaunch c q k v beyondQ beyondK beyondV).exact ws) :
    smokeTest c q k v (stores m ws) = ⟨fin 0, 0, 0⟩ ∧
    ∀ (beyondQ' beyondK' beyondV' : Mem ℝ) (m' : Mem XReal) (us : List (ℤ × XReal)),
      OStores exact (bhsdLaunch c q k v beyondQ' beyondK' beyondV').exact us →
      ∀ e < c.B * c.Hq * c.Sq * 64,
        bshdToBhsd (fun e : ℕ => stores m ws e) c.B c.Hq c.Sq 64 e = stores m' us e := by
  constructor
  · refine compare_eq fun b h i d hb hh hi hd => ⟨attention c q k v b h i d, oRef_eq c q k v b h i d, ?_⟩
    exact bshdToBhsd_left hc hws m hb hh hi hd
  · intro beyondQ' beyondK' beyondV' m' us hus e he
    obtain ⟨b, h, i, d, hb, hh, hi, hd, rfl⟩ := exists_boxIdx he
    have hinj : (bhsdLaunch c q k v beyondQ' beyondK' beyondV').OInjective :=
      Launch.bhsd_oInjective _ _ _ _ _ _ _ _ _ _ _ _ _ _ _
    have hleft := bhsdLaunch_presents.left (bhsdLaunch_exact hc) hinj hus m' hb hh hi hd
    refine (bshdToBhsd_left hc hws m hb hh hi hd).trans (hleft.symm.trans (congrArg _ ?_))
    change (b : ℤ) * ((c.Hkv : ℤ) * (c.Hq / c.Hkv : ℕ) * c.Sq * 64) + h * (c.Sq * 64) + i * 64 + d = _
    rw [heads_eq, bhsd_off, bhsdIdx]

/-- A launch of a test on tensors of ones. -/
noncomputable def onesLaunch (c : SmokeCase) : Launch ℝ ℝ :=
  bshdLaunch c (fun _ => 1) (fun _ => 1) (fun _ => 1) (fun _ => 0) (fun _ => 0) fun _ => 0

/-- Both tests of the suite, on tensors of ones, with some launch of each. -/
theorem bshd_smoke_passes_ones :
    (∃ ws : List (ℤ × XReal), OStores exact (onesLaunch .bshd).exact ws ∧
      smokeTest .bshd (fun _ => 1) (fun _ => 1) (fun _ => 1) (stores (fun _ => fin 0) ws)
        = ⟨fin 0, 0, 0⟩) ∧
    (∃ ws : List (ℤ × XReal), OStores exact (onesLaunch .bshdCausalGqa).exact ws ∧
      smokeTest .bshdCausalGqa (fun _ => 1) (fun _ => 1) (fun _ => 1) (stores (fun _ => fin 0) ws)
        = ⟨fin 0, 0, 0⟩) := by
  obtain ⟨ws, hws⟩ := LaunchParts.exists_oStores exact (onesLaunch .bshd).exact
  obtain ⟨ws', hws'⟩ := LaunchParts.exists_oStores exact (onesLaunch .bshdCausalGqa).exact
  exact ⟨⟨ws, hws, (bshd_smoke_passes .bshd SmokeCase.bshd_fits _ _ _ _ _ _ _ hws).1⟩,
    ws', hws', (bshd_smoke_passes .bshdCausalGqa SmokeCase.bshdCausalGqa_fits _ _ _ _ _ _ _ hws').1⟩

end Passes

end FmhaNative.BshdSmoke
