import FmhaNative.OpGemm

/-!
What the two staging paths leave in LDS, in the layout the matrix products read.
-/

namespace FmhaNative.Staging

open OpLds OpGemm

variable {β : Type*}

/-- Every element of the K layout is one lane's deposit. -/
lemma exists_kElem (bufIdx : ℤ) {j d : ℕ} (hj : j < 64) (hd : d < 32) :
    ∃ t : Thread, ∃ issue < 4, ∃ half < 2, kElem bufIdx t issue half
        = bufBaseElems bufIdx + ldsElemOffset j d ∧ kRow t issue = j ∧ kDInChunk t + half = d := by
  obtain ⟨i, b, a, hi, hb, ha, rfl⟩ : ∃ i b a, i < 4 ∧ b < 4 ∧ a < 4 ∧ j = i * 16 + b * 4 + a :=
    ⟨j / 16, j / 4 % 4, j % 4, by omega, by omega, by omega, by omega⟩
  obtain ⟨c, h, hc, hh, rfl⟩ : ∃ c h, c < 16 ∧ h < 2 ∧ d = c * 2 + h :=
    ⟨d / 2, d % 2, by omega, by omega, by omega⟩
  refine ⟨⟨a * 64 + b * 16 + c, by omega⟩, i, hi, h, hh, ?_⟩
  have h1 : (a * 64 + b * 16 + c) / 64 = a := by omega
  have h2 : (a * 64 + b * 16 + c) % 64 = b * 16 + c := by omega
  have h3 : (b * 16 + c) / 16 = b := by omega
  have h4 : (a * 64 + b * 16 + c) % 16 = c := by omega
  have h5 : (i * 16 + b * 4 + a) / 4 = i * 4 + b := by omega
  have h6 : (i * 4 + b) % 4 = b := by omega
  have h7 : (i * 16 + b * 4 + a) % 4 = a := by omega
  have h8 : (i * 16 + b * 4 + a) / 16 = i := by omega
  have h9 : (c * 2 + h) % 32 = c * 2 + h := by omega
  have h10 : (c * 2 + h) / 32 = 0 := by omega
  simp only [kElem, ldsElemOffset, kRow, kNBase_eq, kDInChunk_eq, h1, h2, h3, h4, h5, h6, h7, h8,
    h9, h10]
  exact ⟨by push_cast; ring, by ring, trivial⟩

/-- **K in LDS**: the copy leaves `K[j, d]` where GEMM0 reads it. -/
theorem asyncCopyKSubtile_layout {lds srd : Mem β} {strideK kvByteBase kColOffset bufIdx : ℤ}
    (hb : 2 ∣ kvByteBase) {j d : ℕ} (hj : j < 64) (hd : d < 32) :
    asyncCopyKSubtile lds srd strideK kvByteBase kColOffset bufIdx
        (bufBaseElems bufIdx + ldsElemOffset j d)
      = srd (kvByteBase / 2 + j * strideK + (kColOffset + d)) := by
  obtain ⟨t, issue, hi, half, hh, he, rfl, rfl⟩ := exists_kElem bufIdx hj hd
  rw [← he, asyncCopyKSubtile_apply hb t hi hh]
  congr 1
  push_cast
  ring

/-- The copy of a tile that begins at a row. -/
lemma asyncCopyKSubtile_row {lds srd : Mem β} {strideK row kvByteBase bufIdx : ℤ}
    (hb : kvByteBase = 2 * (row * strideK)) (kColOffset : ℕ) {j d : ℕ} (hj : j < 64) (hd : d < 32) :
    asyncCopyKSubtile lds srd strideK kvByteBase kColOffset bufIdx
        (bufBaseElems bufIdx + ldsElemOffset j d)
      = srd ((row + j) * strideK + (kColOffset + d : ℕ)) := by
  rw [hb, asyncCopyKSubtile_layout (Dvd.intro _ rfl) hj hd, Int.mul_ediv_cancel_left _ two_ne_zero]
  congr 1
  push_cast
  ring

/-- Every element of the V layout is one lane's store. -/
lemma exists_vElem (bufIdx : ℤ) {n d : ℕ} (hn : n < 32) (hd : d < 64) :
    ∃ t : Thread, ∃ x < 4, ∃ k3 < 2, vElem bufIdx t x k3
        = bufBaseElems bufIdx + vLdsElemOffset n d ∧ vRowInTile t + k3 = n ∧ vCol t + x = d := by
  obtain ⟨w, k, h, hw, hk, hh, rfl⟩ : ∃ w k h, w < 4 ∧ k < 4 ∧ h < 2 ∧ n = w * 8 + k * 2 + h :=
    ⟨n / 8, n % 8 / 2, n % 2, by omega, by omega, by omega, by omega⟩
  obtain ⟨g, p, x, hg, hp, hx, rfl⟩ : ∃ g p x, g < 8 ∧ p < 2 ∧ x < 4 ∧ d = g * 8 + p * 4 + x :=
    ⟨d / 8, d % 8 / 4, d % 4, by omega, by omega, by omega, by omega⟩
  refine ⟨⟨w * 64 + g * 8 + p * 4 + k, by omega⟩, x, hx, h, hh, ?_⟩
  have h1 : (w * 64 + g * 8 + p * 4 + k) / 64 = w := by omega
  have h2 : (w * 64 + g * 8 + p * 4 + k) % 64 = g * 8 + p * 4 + k := by omega
  have h3 : (g * 8 + p * 4 + k) / 8 = g := by omega
  have h4 : (w * 64 + g * 8 + p * 4 + k) % 8 = p * 4 + k := by omega
  have h5 : (g * 8 + p * 4 + k) / 4 = g * 2 + p := by omega
  have h6 : (w * 8 + k * 2 + h) % 32 = w * 8 + k * 2 + h := by omega
  have h7 : (p * 4 + k) / 4 = p := by omega
  have h8 : (w * 64 + g * 8 + p * 4 + k) % 4 = k := by omega
  have h9 : (w * 8 + k * 2 + h) / 8 = w := by omega
  have h10 : (w * 8 + k * 2 + h) % 8 = k * 2 + h := by omega
  have h11 : (g * 8 + p * 4 + x) / 8 = g := by omega
  have h12 : (g * 8 + p * 4 + x) % 8 = p * 4 + x := by omega
  simp only [vElem, vLdsElemOffset, vRowInTile_eq, vCol_eq, h1, h2, h3, h4, h5, h6, h7, h8, h9,
    h10, h11, h12]
  exact ⟨by push_cast; ring, trivial, by ring⟩

/-- **V in LDS**: load, transpose and store leave `V[n, d]` where GEMM1 reads it. -/
theorem storeVToLds_layout {lds srd : Mem β} {strideV kvByteBase bufIdx : ℤ}
    (hb : 2 ∣ kvByteBase) {n d : ℕ} (hn : n < 32) (hd : d < 64) :
    storeVToLds lds (loadVFromDram srd strideV kvByteBase) bufIdx
        (bufBaseElems bufIdx + vLdsElemOffset n d)
      = srd (kvByteBase / 2 + n * strideV + d) := by
  obtain ⟨t, x, hx, k3, hk, he, rfl, rfl⟩ := exists_vElem bufIdx hn hd
  rw [← he, storeVToLds_apply t hx hk, vRegElem_load hb t hx hk]
  congr 1
  push_cast
  ring

/-- The slice that begins at a row. -/
lemma storeVToLds_row {lds srd : Mem β} {strideV row kvByteBase bufIdx : ℤ}
    (hb : kvByteBase = 2 * (row * strideV)) {n d : ℕ} (hn : n < 32) (hd : d < 64) :
    storeVToLds lds (loadVFromDram srd strideV kvByteBase) bufIdx
        (bufBaseElems bufIdx + vLdsElemOffset n d)
      = srd ((row + n) * strideV + d) := by
  rw [hb, storeVToLds_layout (Dvd.intro _ rfl) hn hd, Int.mul_ediv_cancel_left _ two_ne_zero, add_mul]

/-- The K layout fills its own buffer only. -/
lemma ldsElemOffset_lt {j d : ℕ} (hj : j < 64) (hd : d < 32) : ldsElemOffset j d < 2304 := by
  simp only [ldsElemOffset]
  omega

lemma vLdsElemOffset_lt {n d : ℕ} (hd : d < 64) : vLdsElemOffset n d < 2304 := by
  simp only [vLdsElemOffset]
  omega

end FmhaNative.Staging
