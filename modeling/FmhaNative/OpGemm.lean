import FmhaNative.OpLds

/-!
The two matrix products of a tile: `S = Q * K^T` and `O += P * V`.

A matrix instruction spreads a 32 by 32 result over a wave: each lane holds one column of it
in 16 registers. With the query (or the probabilities) as the second operand that column is
the lane's own query row, and the register index walks the keys (or the head dimension).
-/

namespace FmhaNative.OpGemm

open OpLds

variable {α β : Type*}

/-- The accumulator registers of a lane. -/
abbrev V16f (α : Type*) := Fin 16 → α
/-- The bf16 operand slice of a lane. -/
abbrev V4h (β : Type*) := Fin 4 → β

def packShort4 (lo hi : Dword β) : V4h β := ![lo.lo, lo.hi, hi.lo, hi.hi]

/-- SwizzleA: swap bits 2 and 3. -/
def swz (x : ℕ) : ℕ :=
  let b2 := (x >>> 2) &&& 1
  let b3 := (x >>> 3) &&& 1
  (x ^^^ (x &&& 0xC)) ||| (b2 <<< 3) ||| (b3 <<< 2)

def ldsElemOffset (j d : ℕ) : ℕ :=
  (j % 4) * 136 + ((j / 4) % 4) * 32 + (j / 16) * 544 + (d % 32) + (d / 32) * 2304

def vLdsElemOffset (n d : ℕ) : ℕ :=
  let k := n % 32
  (k / 8) * 576 + (d / 8) * 72 + (d % 8) * 8 + (k % 8)

def clearAcc [Zero α] : V16f α := fun _ => 0

/-- The row of the result that register `r` of a lane holds. -/
def accRow (t : Thread) (r : Fin 16) : ℕ := (r.val / 4) * 8 + (laneId t / 32) * 4 + r.val % 4

variable [AddCommMonoid α] [Mul α]

/-- `v_mfma_f32_32x32x8_bf16`: the lanes `l` and `l + 32` supply row (column) `l` of the first
(second) operand, four deep each. -/
def mfma (bf : Bf16Conv α β) (a b : Thread → V4h β) (c : Thread → V16f α) : Thread → V16f α :=
  fun t r => c t r + ∑ h : Fin 2, ∑ e : Fin 4,
    bf.toFloat (a (inWave t (accRow t r + 32 * h.val)) e) *
      bf.toFloat (b (inWave t (laneId t % 32 + 32 * h.val)) e)

def sliceQ (qRegs : Thread → Fin 4 → V4i β) (kSubtileIdx : Fin 2) : Thread → Fin 2 → V4i β :=
  fun t i => qRegs t ⟨kSubtileIdx.val * 2 + i.val, by omega⟩

def gemm0Subtile (bf : Bf16Conv α β) (sAccN0 sAccN1 : Thread → V16f α)
    (qSlice : Thread → Fin 2 → V4i β) (lds : Mem β) (bufIdx : ℤ) :
    (Thread → V16f α) × (Thread → V16f α) :=
  (List.finRange 2).foldl (fun acc kstep =>
    let k0 := fun t => loadB128 lds (bufBaseBytes bufIdx +
      ldsElemOffset (swz (laneId t &&& 31)) (kstep.val * 16 + kSub t * 8) * 2)
    let k1 := fun t => loadB128 lds (bufBaseBytes bufIdx +
      ldsElemOffset (32 + swz (laneId t &&& 31)) (kstep.val * 16 + kSub t * 8) * 2)
    let q := fun t => qSlice t kstep
    let b0 := fun t => packShort4 (q t 0) (q t 1)
    let b1 := fun t => packShort4 (q t 2) (q t 3)
    let acc := (mfma bf (fun t => packShort4 (k0 t 0) (k0 t 1)) b0 acc.1,
      mfma bf (fun t => packShort4 (k1 t 0) (k1 t 1)) b0 acc.2)
    (mfma bf (fun t => packShort4 (k0 t 2) (k0 t 3)) b1 acc.1,
      mfma bf (fun t => packShort4 (k1 t 2) (k1 t 3)) b1 acc.2)) (sAccN0, sAccN1)

/-- `v_perm_b32` with selector `0x07060302`: the high halves of two floats. -/
def permTrunc (bf : Bf16Conv α β) (s0 s1 : α) : Dword β := ⟨bf.ofFloat s1, bf.ofFloat s0⟩

/-- Probabilities `4 s` to `4 s + 3` of a lane, truncated and packed. -/
def packP (bf : Bf16Conv α β) (u : V16f α) (s : Fin 4) : V4h β :=
  let lo := permTrunc bf (u ⟨4 * s.val + 1, by omega⟩) (u ⟨4 * s.val, by omega⟩)
  let hi := permTrunc bf (u ⟨4 * s.val + 3, by omega⟩) (u ⟨4 * s.val + 2, by omega⟩)
  packShort4 lo hi

def gemm1Subtile (bf : Bf16Conv α β) (oAccD0 oAccD1 : Thread → V16f α) (pHalf : Thread → V16f α)
    (lds : Mem β) (bufIdx : ℤ) : (Thread → V16f α) × (Thread → V16f α) :=
  (List.finRange 2).foldl (fun acc kstep =>
    let seqkLocal := fun t => kstep.val * 16 + kSub t * 8
    let hdimPos := fun t => laneId t &&& 31
    let v0 := fun t => loadB128 lds (bufBaseBytes bufIdx +
      vLdsElemOffset (seqkLocal t) (hdimPos t) * 2)
    let v1 := fun t => loadB128 lds (bufBaseBytes bufIdx +
      vLdsElemOffset (seqkLocal t) (hdimPos t + 32) * 2)
    let b0 := fun t => packP bf (pHalf t) ⟨kstep.val * 2, by omega⟩
    let b1 := fun t => packP bf (pHalf t) ⟨kstep.val * 2 + 1, by omega⟩
    let acc := (mfma bf (fun t => packShort4 (v0 t 0) (v0 t 1)) b0 acc.1,
      mfma bf (fun t => packShort4 (v1 t 0) (v1 t 1)) b0 acc.2)
    (mfma bf (fun t => packShort4 (v0 t 2) (v0 t 3)) b1 acc.1,
      mfma bf (fun t => packShort4 (v1 t 2) (v1 t 3)) b1 acc.2)) (oAccD0, oAccD1)

/-! ### Registers that hold a matrix -/

/-- The key that register `r` of a lane scores, within a 32-wide half. -/
def nCol (t : Thread) (r : Fin 16) : ℕ := (r.val / 8) * 16 + kSub t * 8 + r.val % 8

/-- The head dimension that register `r` of a lane accumulates, within a 32-wide half. -/
def dCol (t : Thread) (r : Fin 16) : ℕ := accRow t r

/-- The registers hold, at each lane and register, the entry of `X` at the lane's row. -/
def Holds (col : Thread → Fin 16 → ℕ) (x : Thread → V16f α) (X : ℕ → ℕ → α) : Prop :=
  ∀ t r, x t r = X (mRow t) (col t r)

omit [Mul α] in
lemma clearAcc_holds (col : Thread → Fin 16 → ℕ) :
    Holds col (fun _ => clearAcc : Thread → V16f α) fun _ _ => 0 := fun _ _ => rfl

lemma accRow_lt (t : Thread) (r : Fin 16) : accRow t r < 32 := by
  rw [accRow, laneId_eq]
  omega

lemma nCol_lt (t : Thread) (r : Fin 16) : nCol t r < 32 := by
  rw [nCol, kSub_eq]
  omega

lemma swz_lt : ∀ x < 32, swz x < 32 := by decide

lemma swz_regs : ∀ r < 16, ∀ k < 2, swz (r / 4 * 8 + k * 4 + r % 4) = r / 8 * 16 + k * 8 + r % 8 := by
  decide

/-- Reading the keys in swizzled order puts them in the order of `nCol`. -/
lemma swz_accRow (t : Thread) (r : Fin 16) : swz (accRow t r) = nCol t r := by
  have h := swz_regs r r.isLt (kSub t) (kSub_lt t)
  rwa [accRow, nCol, ← kSub_eq_lane]

omit [Mul α] in
/-- The 32-deep contraction, as four instructions walk it. -/
lemma sum_ksteps (f : ℕ → α) : ∑ x ∈ Finset.range 32, f x
    = ∑ kstep : Fin 2, ∑ pass : Fin 2, ∑ h : Fin 2, ∑ e : Fin 4,
        f (kstep.val * 16 + h.val * 8 + pass.val * 4 + e.val) := by
  simp only [Finset.sum_range_succ, Fin.sum_univ_two, Fin.sum_univ_four, Finset.range_zero,
    Finset.sum_empty, zero_add]
  norm_num
  abel

/-- Four chained instructions. -/
def mfma4 (bf : Bf16Conv α β) (a b : Fin 2 → Fin 2 → Thread → V4h β) (c : Thread → V16f α) :
    Thread → V16f α :=
  mfma bf (a 1 1) (b 1 1) (mfma bf (a 1 0) (b 1 0) (mfma bf (a 0 1) (b 0 1)
    (mfma bf (a 0 0) (b 0 0) c)))

lemma mfma4_apply {bf : Bf16Conv α β} {a b : Fin 2 → Fin 2 → Thread → V4h β} {c : Thread → V16f α}
    {t : Thread} {r : Fin 16} (f : ℕ → α)
    (hf : ∀ (kstep pass h : Fin 2) (e : Fin 4),
      bf.toFloat (a kstep pass (inWave t (accRow t r + 32 * h.val)) e) *
        bf.toFloat (b kstep pass (inWave t (laneId t % 32 + 32 * h.val)) e)
      = f (kstep.val * 16 + h.val * 8 + pass.val * 4 + e.val)) :
    mfma4 bf a b c t r = c t r + ∑ x ∈ Finset.range 32, f x := by
  have h4 : ∀ G : Fin 2 → Fin 2 → α, ∑ kstep, ∑ pass, G kstep pass
      = G 0 0 + (G 0 1 + (G 1 0 + G 1 1)) := by
    intro G
    simp only [Fin.sum_univ_two, add_assoc]
  rw [sum_ksteps, h4]
  simp only [mfma4, mfma, hf, add_assoc]

/-- The element of an eight-wide register slice. -/
def v4iElem (w : V4i β) (x : ℕ) : β :=
  let d := w (Fin.ofNat 4 (x / 2))
  if x % 2 = 0 then d.lo else d.hi

lemma v4iElem_loadB128 (m : Mem β) (e : ℤ) {x : ℕ} (hx : x < 8) :
    v4iElem (loadB128 m (e * 2)) x = m (e + x) := by
  interval_cases x <;> simp only [v4iElem, loadB128, loadB32] <;> norm_num <;> congr 1 <;> omega

/-- The operand of one pass: the low or the high half of an eight-wide slice. -/
def passSlice (w : V4i β) (pass : Fin 2) : V4h β :=
  if pass = 0 then packShort4 (w 0) (w 1) else packShort4 (w 2) (w 3)

lemma passSlice_apply (w : V4i β) (pass : Fin 2) (e : Fin 4) :
    passSlice w pass e = v4iElem w (pass.val * 4 + e.val) := by
  fin_cases pass <;> fin_cases e <;> rfl

/-! ### `S = Q * K^T` -/

/-- The query slices hold a 32-wide part of the rows of `Q`. -/
def HoldsQ (q : Thread → Fin 2 → V4i β) (Q : ℕ → ℕ → β) : Prop :=
  ∀ t (kstep : Fin 2) x, x < 8 →
    v4iElem (q t kstep) x = Q (mRow t) (kstep.val * 16 + kSub t * 8 + x)

/-- The keys that a half of the score tile reads. -/
def kOperand (lds : Mem β) (bufIdx : ℤ) (half : ℕ) (kstep : Fin 2) (t : Thread) : V4i β :=
  loadB128 lds (bufBaseBytes bufIdx +
    ldsElemOffset (half + swz (laneId t &&& 31)) (kstep.val * 16 + kSub t * 8) * 2)

lemma gemm0Subtile_eq (bf : Bf16Conv α β) (sAccN0 sAccN1 : Thread → V16f α)
    (q : Thread → Fin 2 → V4i β) (lds : Mem β) (bufIdx : ℤ) :
    gemm0Subtile bf sAccN0 sAccN1 q lds bufIdx
      = (mfma4 bf (fun kstep pass t => passSlice (kOperand lds bufIdx 0 kstep t) pass)
          (fun kstep pass t => passSlice (q t kstep) pass) sAccN0,
        mfma4 bf (fun kstep pass t => passSlice (kOperand lds bufIdx 32 kstep t) pass)
          (fun kstep pass t => passSlice (q t kstep) pass) sAccN1) := by
  simp only [gemm0Subtile, kOperand, zero_add]
  rfl

lemma kOperand_elem {lds : Mem β} {bufIdx : ℤ} {K : ℕ → ℕ → β} {half : ℕ} (hhalf : half ≤ 32)
    (hk : ∀ j < 64, ∀ d < 32, lds (bufBaseElems bufIdx + ldsElemOffset j d) = K j d)
    (t : Thread) (kstep : Fin 2) {x : ℕ} (hx : x < 8) :
    v4iElem (kOperand lds bufIdx half kstep t) x
      = K (half + swz (laneId t &&& 31)) (kstep.val * 16 + kSub t * 8 + x) := by
  have hs : swz (laneId t &&& 31) < 32 := swz_lt _ (by rw [lane31_eq]; omega)
  have hsub := kSub_lt t
  rw [← hk _ (by omega) _ (by omega), kOperand,
    show bufBaseBytes bufIdx + (ldsElemOffset (half + swz (laneId t &&& 31))
        (kstep.val * 16 + kSub t * 8) : ℤ) * 2
      = (bufBaseElems bufIdx + (ldsElemOffset (half + swz (laneId t &&& 31))
        (kstep.val * 16 + kSub t * 8) : ℤ)) * 2 by
      simp only [bufBaseBytes, bufBaseElems]; ring, v4iElem_loadB128 _ _ hx]
  congr 1
  simp only [ldsElemOffset]
  omega

/-- One half of the score tile gains 32 head dimensions of the dot products. -/
lemma scores_holds (bf : Bf16Conv α β) {sAcc : Thread → V16f α} {q : Thread → Fin 2 → V4i β}
    {lds : Mem β} {bufIdx : ℤ} {S : ℕ → ℕ → α} {Q K : ℕ → ℕ → β} {half : ℕ} (hhalf : half ≤ 32)
    (hs : Holds nCol sAcc S) (hq : HoldsQ q Q)
    (hk : ∀ j < 64, ∀ d < 32, lds (bufBaseElems bufIdx + ldsElemOffset j d) = K j d) :
    Holds nCol (mfma4 bf (fun kstep pass t => passSlice (kOperand lds bufIdx half kstep t) pass)
        (fun kstep pass t => passSlice (q t kstep) pass) sAcc)
      fun m n => S m n + ∑ d ∈ Finset.range 32, bf.toFloat (K (half + n) d) * bf.toFloat (Q m d) := by
  intro t r
  have hr := accRow_lt t r
  rw [mfma4_apply (fun d => bf.toFloat (K (half + nCol t r) d) * bf.toFloat (Q (mRow t) d)),
    hs t r]
  intro kstep pass h e
  have hp := pass.isLt
  have he := e.isLt
  have ha : laneId (inWave t (accRow t r + 32 * h.val)) &&& 31 = accRow t r := by
    rw [lane31_eq, inWave_val]; omega
  have hha : kSub (inWave t (accRow t r + 32 * h.val)) = h.val := by
    rw [kSub_inWave]; omega
  have hb : mRow (inWave t (laneId t % 32 + 32 * h.val)) = mRow t := by
    rw [mRow_inWave, mRow_eq, laneId_eq]; omega
  have hhb : kSub (inWave t (laneId t % 32 + 32 * h.val)) = h.val := by
    rw [kSub_inWave]; omega
  rw [passSlice_apply, passSlice_apply, kOperand_elem hhalf hk _ _ (by omega),
    hq _ _ _ (by omega), ha, hha, hb, hhb, swz_accRow]
  simp only [add_assoc]

/-- **GEMM0**: a sub-tile call adds 32 head dimensions of `K * Q` to both score halves. -/
theorem gemm0Subtile_holds (bf : Bf16Conv α β) {sAccN0 sAccN1 : Thread → V16f α}
    {q : Thread → Fin 2 → V4i β} {lds : Mem β} {bufIdx : ℤ} {S : ℕ → ℕ → α} {Q K : ℕ → ℕ → β}
    (h0 : Holds nCol sAccN0 S) (h1 : Holds nCol sAccN1 fun m n => S m (32 + n))
    (hq : HoldsQ q Q)
    (hk : ∀ j < 64, ∀ d < 32, lds (bufBaseElems bufIdx + ldsElemOffset j d) = K j d)
    (S' : ℕ → ℕ → α) (hS' : ∀ m n, S' m n
      = S m n + ∑ d ∈ Finset.range 32, bf.toFloat (K n d) * bf.toFloat (Q m d)) :
    Holds nCol (gemm0Subtile bf sAccN0 sAccN1 q lds bufIdx).1 S' ∧
      Holds nCol (gemm0Subtile bf sAccN0 sAccN1 q lds bufIdx).2 fun m n => S' m (32 + n) := by
  rw [gemm0Subtile_eq]
  have k0 := scores_holds bf (by norm_num : 0 ≤ 32) h0 hq hk
  have k1 := scores_holds bf le_rfl h1 hq hk
  simp only [zero_add] at k0
  exact ⟨fun t r => (k0 t r).trans (hS' _ _).symm, fun t r => (k1 t r).trans (hS' _ _).symm⟩

/-- **`S = Q * K^T`**: two sub-tile calls from cleared accumulators, one a head-dimension half. -/
theorem gemm0_holds (bf : Bf16Conv α β) {q0 q1 : Thread → Fin 2 → V4i β} {lds : Mem β} {b0 b1 : ℤ}
    {Q K : ℕ → ℕ → β} (hq0 : HoldsQ q0 Q) (hq1 : HoldsQ q1 fun m d => Q m (32 + d))
    (hk0 : ∀ j < 64, ∀ d < 32, lds (bufBaseElems b0 + ldsElemOffset j d) = K j d)
    (hk1 : ∀ j < 64, ∀ d < 32, lds (bufBaseElems b1 + ldsElemOffset j d) = K j (32 + d)) :
    let S : ℕ → ℕ → α := fun m n => ∑ d ∈ Finset.range 64, bf.toFloat (K n d) * bf.toFloat (Q m d)
    let s := gemm0Subtile bf (fun _ => clearAcc) (fun _ => clearAcc) q0 lds b0
    Holds nCol (gemm0Subtile bf s.1 s.2 q1 lds b1).1 S ∧
      Holds nCol (gemm0Subtile bf s.1 s.2 q1 lds b1).2 fun m n => S m (32 + n) := by
  intro S s
  have hz : Holds nCol (fun _ => clearAcc : Thread → V16f α) fun _ _ => 0 := clearAcc_holds _
  obtain ⟨a0, a1⟩ := gemm0Subtile_holds bf hz hz hq0 hk0
    (fun m n => ∑ d ∈ Finset.range 32, bf.toFloat (K n d) * bf.toFloat (Q m d))
    fun m n => (zero_add _).symm
  exact gemm0Subtile_holds bf a0 a1 hq1 hk1 S fun m n => Finset.sum_range_add _ 32 32

/-! ### `O += P * V` -/

/-- The value rows that a half of the output tile reads. -/
def vOperand (lds : Mem β) (bufIdx : ℤ) (half : ℕ) (kstep : Fin 2) (t : Thread) : V4i β :=
  loadB128 lds (bufBaseBytes bufIdx +
    vLdsElemOffset (kstep.val * 16 + kSub t * 8) ((laneId t &&& 31) + half) * 2)

def pOperand (bf : Bf16Conv α β) (pHalf : Thread → V16f α) (kstep pass : Fin 2) (t : Thread) : V4h β :=
  packP bf (pHalf t) ⟨kstep.val * 2 + pass.val, by omega⟩

lemma gemm1Subtile_eq (bf : Bf16Conv α β) (oAccD0 oAccD1 pHalf : Thread → V16f α) (lds : Mem β)
    (bufIdx : ℤ) :
    gemm1Subtile bf oAccD0 oAccD1 pHalf lds bufIdx
      = (mfma4 bf (fun kstep pass t => passSlice (vOperand lds bufIdx 0 kstep t) pass)
          (pOperand bf pHalf) oAccD0,
        mfma4 bf (fun kstep pass t => passSlice (vOperand lds bufIdx 32 kstep t) pass)
          (pOperand bf pHalf) oAccD1) := by
  simp only [gemm1Subtile, vOperand, add_zero]
  rfl

lemma vOperand_elem {lds : Mem β} {bufIdx : ℤ} {V : ℕ → ℕ → β} {half : ℕ} (hhalf : half ≤ 32)
    (hv : ∀ n < 32, ∀ d < 64, lds (bufBaseElems bufIdx + vLdsElemOffset n d) = V n d)
    (t : Thread) (kstep : Fin 2) {x : ℕ} (hx : x < 8) :
    v4iElem (vOperand lds bufIdx half kstep t) x
      = V (kstep.val * 16 + kSub t * 8 + x) ((laneId t &&& 31) + half) := by
  have hl : laneId t &&& 31 < 32 := by rw [lane31_eq]; omega
  have hsub := kSub_lt t
  rw [← hv _ (by omega) _ (by omega), vOperand,
    show bufBaseBytes bufIdx + (vLdsElemOffset (kstep.val * 16 + kSub t * 8)
        ((laneId t &&& 31) + half) : ℤ) * 2
      = (bufBaseElems bufIdx + (vLdsElemOffset (kstep.val * 16 + kSub t * 8)
        ((laneId t &&& 31) + half) : ℤ)) * 2 by
      simp only [bufBaseBytes, bufBaseElems]; ring, v4iElem_loadB128 _ _ hx]
  congr 1
  simp only [vLdsElemOffset]
  omega

omit [AddCommMonoid α] [Mul α] in
lemma packP_apply (bf : Bf16Conv α β) (u : V16f α) (s : Fin 4) (e : Fin 4) :
    packP bf u s e = bf.ofFloat (u ⟨4 * s.val + e.val, by omega⟩) := by
  fin_cases e <;> rfl

/-- One half of the output tile gains 32 keys. -/
lemma output_holds (bf : Bf16Conv α β) {oAcc pHalf : Thread → V16f α} {lds : Mem β} {bufIdx : ℤ}
    {O P : ℕ → ℕ → α} {V : ℕ → ℕ → β} {half : ℕ} (hhalf : half ≤ 32)
    (ho : Holds dCol oAcc O) (hp : Holds nCol pHalf P)
    (hv : ∀ n < 32, ∀ d < 64, lds (bufBaseElems bufIdx + vLdsElemOffset n d) = V n d) :
    Holds dCol (mfma4 bf (fun kstep pass t => passSlice (vOperand lds bufIdx half kstep t) pass)
        (pOperand bf pHalf) oAcc)
      fun m d => O m d + ∑ n ∈ Finset.range 32,
        bf.toFloat (V n (d + half)) * bf.toFloat (bf.ofFloat (P m n)) := by
  intro t r
  have hr := accRow_lt t r
  rw [mfma4_apply (fun n => bf.toFloat (V n (accRow t r + half)) *
    bf.toFloat (bf.ofFloat (P (mRow t) n))), ho t r, dCol]
  intro kstep pass h e
  have hpass := pass.isLt
  have he := e.isLt
  have ha : laneId (inWave t (accRow t r + 32 * h.val)) &&& 31 = accRow t r := by
    rw [lane31_eq, inWave_val]; omega
  have hha : kSub (inWave t (accRow t r + 32 * h.val)) = h.val := by
    rw [kSub_inWave]; omega
  have hb : mRow (inWave t (laneId t % 32 + 32 * h.val)) = mRow t := by
    rw [mRow_inWave, mRow_eq, laneId_eq]; omega
  have hn : ∀ i : Fin 16, i.val = 4 * (kstep.val * 2 + pass.val) + e.val →
      nCol (inWave t (laneId t % 32 + 32 * h.val)) i
        = kstep.val * 16 + h.val * 8 + pass.val * 4 + e.val := by
    intro i hi
    rw [nCol, kSub_inWave]
    omega
  rw [passSlice_apply, vOperand_elem hhalf hv _ _ (by omega), pOperand, packP_apply, hp _ _,
    ha, hha, hb, hn _ rfl]
  simp only [add_assoc]

/-- **GEMM1**: a sub-tile call adds 32 keys of `V * P`, the probabilities truncated. -/
theorem gemm1Subtile_holds (bf : Bf16Conv α β) {oAccD0 oAccD1 pHalf : Thread → V16f α} {lds : Mem β}
    {bufIdx : ℤ} {O P : ℕ → ℕ → α} {V : ℕ → ℕ → β}
    (h0 : Holds dCol oAccD0 O) (h1 : Holds dCol oAccD1 fun m d => O m (d + 32))
    (hp : Holds nCol pHalf P)
    (hv : ∀ n < 32, ∀ d < 64, lds (bufBaseElems bufIdx + vLdsElemOffset n d) = V n d)
    (O' : ℕ → ℕ → α) (hO' : ∀ m d, O' m d
      = O m d + ∑ n ∈ Finset.range 32, bf.toFloat (V n d) * bf.toFloat (bf.ofFloat (P m n))) :
    Holds dCol (gemm1Subtile bf oAccD0 oAccD1 pHalf lds bufIdx).1 O' ∧
      Holds dCol (gemm1Subtile bf oAccD0 oAccD1 pHalf lds bufIdx).2 fun m d => O' m (d + 32) := by
  rw [gemm1Subtile_eq]
  have k0 := output_holds bf (by norm_num : 0 ≤ 32) h0 hp hv
  have k1 := output_holds bf le_rfl h1 hp hv
  simp only [add_zero] at k0
  exact ⟨fun t r => (k0 t r).trans (hO' _ _).symm, fun t r => (k1 t r).trans (hO' _ _).symm⟩

end FmhaNative.OpGemm
