import FmhaNative.SubLaunches

/-!
Grouped heads and repeated heads: sharing a key head among the query heads of a group is the same
attention as giving every query head its own copy.

Beyond the last key a copy does not hold what the shared tensor holds there, so this is a matter of
exact arithmetic: a value that is not attended counts zero times.
-/

namespace FmhaNative.GroupedHeads

open Pipeline DeviceMemory Stores LseSlots LaunchParts SubLaunches Offsets32

variable {α β : Type*}

/-- The strides of a tensor, in elements. -/
structure TensorStrides where
  (row head batch : ℤ)

/-- The place of a row of a key or value tensor. -/
def kvPlace (L : Launch α β) (s : TensorStrides) (b h j : ℤ) : ℤ :=
  baseOffset L.isVarlen b h (L.seq b).offsetK s.row s.head s.batch + j * s.row

/-- `t'` holds the heads of `t`, each one once for every query head of its group. -/
def Repeats (L : Launch α β) (t t' : Mem β) (s s' : TensorStrides) : Prop :=
  ∀ b h j : ℤ, ∀ d : ℕ, 0 ≤ b → b < L.batch → 0 ≤ h → h < L.params.nheadQ → 0 ≤ j →
    j < (L.seq b).seqlenK → d < 64 → t' (kvPlace L s' b h j + d) = t (kvPlace L s b (h / ratio L) j + d)

/-- The strides of the shared tensors. -/
def kStrides (L : Launch α β) : TensorStrides :=
  ⟨L.params.strideK, L.params.nheadStrideK, L.params.batchStrideK⟩

def vStrides (L : Launch α β) : TensorStrides :=
  ⟨L.params.strideV, L.params.nheadStrideV, L.params.batchStrideV⟩

/-- The launch with a key head and a value head for every query head, in tensors of any strides. -/
def repeated (L : Launch α β) (k v : Mem β) (sk sv : TensorStrides) : Launch α β :=
  { L with
    params :=
      { L.params with
        k := k, v := v, nheadK := L.params.nheadQ
        strideK := sk.row, nheadStrideK := sk.head, batchStrideK := sk.batch
        strideV := sv.row, nheadStrideV := sv.head, batchStrideV := sv.batch }
    nheadK_pos := L.nheadQ_pos
    gqa := Int.dvd_refl _ }

/-! ### The two launches -/

section Grouped

variable {L : Launch α β} {k v : Mem β} {sk sv : TensorStrides} {b h i : ℤ}

lemma repeated_inRange : (repeated L k v sk sv).InRange b h i ↔ L.InRange b h i :=
  ⟨fun hr => ⟨hr.b_nonneg, hr.b_lt, hr.h_nonneg, hr.h_lt, hr.i_nonneg, hr.i_lt⟩,
    fun hr => ⟨hr.b_nonneg, hr.b_lt, hr.h_nonneg, hr.h_lt, hr.i_nonneg, hr.i_lt⟩⟩

lemma ratio_repeated : ratio (repeated L k v sk sv) = 1 := Int.ediv_self L.nheadQ_pos.ne'

/-- A query head reads the key and value head of its group. -/
lemma kOff_eq (hh : 0 ≤ h) (j : ℤ) : L.kOff b h j = kvPlace L (kStrides L) b (h / ratio L) j := by
  rw [Launch.kOff, kBase, Box.kvHeadIdx_whole hh]
  rfl

lemma vOff_eq (hh : 0 ≤ h) (j : ℤ) : L.vOff b h j = kvPlace L (vStrides L) b (h / ratio L) j := by
  rw [Launch.vOff, vBase, Box.kvHeadIdx_whole hh]
  rfl

lemma kOff_repeated (hh : 0 ≤ h) (j : ℤ) : (repeated L k v sk sv).kOff b h j = kvPlace L sk b h j := by
  rw [kOff_eq hh, ratio_repeated, Int.ediv_one]
  rfl

lemma vOff_repeated (hh : 0 ≤ h) (j : ℤ) : (repeated L k v sk sv).vOff b h j = kvPlace L sv b h j := by
  rw [vOff_eq hh, ratio_repeated, Int.ediv_one]
  rfl

end Grouped

section Exact

variable {L : Launch ℝ ℝ} {k v : Mem ℝ} {sk sv : TensorStrides} {b h i : ℤ}

lemma key_lt {j : ℕ} (hj : j ∈ L.keys b i) : (j : ℤ) < (L.seq b).seqlenK := (Attention.mem_keys.mp hj).1

section Row

variable (hr : L.InRange b h i)

include hr

lemma score_repeated (hk : Repeats L L.params.k k (kStrides L) sk) {j : ℕ} (hj : j ∈ L.keys b i) :
    (repeated L k v sk sv).score b h i j = L.score b h i j := by
  rw [Launch.score, Launch.score, kOff_repeated hr.h_nonneg, kOff_eq hr.h_nonneg]
  refine congrArg _ (Finset.sum_congr rfl fun d hd => ?_)
  exact congrArg _ (hk b h j d hr.b_nonneg hr.b_lt hr.h_nonneg hr.h_lt (Int.natCast_nonneg j)
    (key_lt hj) (Finset.mem_range.mp hd))

lemma value_repeated (hv : Repeats L L.params.v v (vStrides L) sv) {j d : ℕ} (hd : d < 64)
    (hj : j ∈ L.keys b i) : (repeated L k v sk sv).value b h j d = L.value b h j d := by
  rw [Launch.value, Launch.value, vOff_repeated hr.h_nonneg, vOff_eq hr.h_nonneg]
  exact hv b h j d hr.b_nonneg hr.b_lt hr.h_nonneg hr.h_lt (Int.natCast_nonneg j) (key_lt hj) hd

lemma output_repeated (hk : Repeats L L.params.k k (kStrides L) sk)
    (hv : Repeats L L.params.v v (vStrides L) sv) {d : ℕ} (hd : d < 64) :
    Attention.output ((repeated L k v sk sv).keys b i) ((repeated L k v sk sv).score b h i)
        ((repeated L k v sk sv).value b h) d
      = Attention.output (L.keys b i) (L.score b h i) (L.value b h) d :=
  Attention.output_congr (fun _ hj => score_repeated hr hk hj) fun _ hj => value_repeated hr hv hd hj

lemma lse_repeated (hk : Repeats L L.params.k k (kStrides L) sk) :
    Attention.lse ((repeated L k v sk sv).keys b i) ((repeated L k v sk sv).score b h i)
      = Attention.lse (L.keys b i) (L.score b h i) :=
  Attention.lse_congr fun _ hj => score_repeated hr hk hj

end Row

/-- The two launches write the same elements, with the same values. -/
lemma written_repeated (hσ : 0 < L.params.scale) (hk : Repeats L L.params.k k (kStrides L) sk)
    (hv : Repeats L L.params.v v (vStrides L) sv) (w : ℤ × XReal) :
    L.exact.Written XReal.exact w ↔ (repeated L k v sk sv).exact.Written XReal.exact w := by
  have hcell : ∀ {b h i}, L.InRange b h i → ∀ {d : ℕ}, d < 64 →
      (repeated L k v sk sv).exact.cell XReal.exact b h i d = L.exact.cell XReal.exact b h i d := by
    intro b h i hr d hd
    rw [cell_attention (repeated L k v sk sv) hσ (repeated_inRange.mpr hr) hd, cell_attention L hσ hr hd,
      output_repeated hr hk hv hd]
  constructor
  · rintro ⟨b, h, i, d, hr, hd, ha, hw⟩
    have hr := (exact_inRange L).mp hr
    exact ⟨b, h, i, d, (repeated_inRange.mpr hr).exact, hd, ha, hw.trans (hcell hr hd).symm⟩
  · rintro ⟨b, h, i, d, hr, hd, ha, hw⟩
    have hr := repeated_inRange.mp ((exact_inRange _).mp hr)
    exact ⟨b, h, i, d, hr.exact, hd, ha, hw.trans (hcell hr hd)⟩

lemma lseHolds_repeated (hk : Repeats L L.params.k k (kStrides L) sk) {m m' : Mem XReal}
    (hm : LseHolds (repeated L k v sk sv) m m') : LseHolds L m m' := by
  refine ⟨fun b h i hr => ?_, fun a ha => hm.2 a fun b h i hr => ha b h i (repeated_inRange.mp hr)⟩
  rw [← lse_repeated hr hk]
  exact hm.1 b h i (repeated_inRange.mpr hr)

/-- What a launch leaves is all there is. -/
lemma LseHolds.unique {m m₁ m₂ : Mem XReal} (h₁ : LseHolds L m m₁) (h₂ : LseHolds L m m₂) : m₁ = m₂ := by
  funext a
  by_cases ha : ∃ b h i, L.InRange b h i ∧ a = slot L b h i
  · obtain ⟨b, h, i, hr, rfl⟩ := ha
    rw [h₁.1 b h i hr, h₂.1 b h i hr]
  · have hout : ∀ b h i, L.InRange b h i → a ≠ slot L b h i := fun b h i hr he => ha ⟨b, h, i, hr, he⟩
    rw [h₁.2 a hout, h₂.2 a hout]

/-- **Grouped heads are repeated heads**: the launch of a grouped problem, dense or packed and of any
strides, leaves the O and the log-sum-exps that a launch with one key head to a query head leaves,
when each key head and value head is repeated for its group and both load at exact offsets. -/
theorem grouped_eq_repeated (hσ : 0 < L.params.scale) (hk : Repeats L L.params.k k (kStrides L) sk)
    (hv : Repeats L L.params.v v (vStrides L) sv) {wss us : List (List (ℤ × XReal))} (hne : wss ≠ [])
    (hne' : us ≠ []) (m : Mem XReal) : LoadsExact L → LoadsExact (repeated L k v sk sv) →
    (L.WritesApart → (∀ ws ∈ wss, OStores XReal.exact L.exact ws) →
      (∀ ws ∈ us, OStores XReal.exact (repeated L k v sk sv).exact ws) →
      stores m wss.flatten = stores m us.flatten) ∧
    (L.params.lse → SlotsApart L → (∀ ws ∈ wss, LseStores XReal.exact L.exact ws) →
      (∀ ws ∈ us, LseStores XReal.exact (repeated L k v sk sv).exact ws) →
      stores m wss.flatten = stores m us.flatten) := by
  intro _ _
  constructor
  · intro hap hws hus
    exact stores_eq_of_written (exact_writesApart hap) (written_repeated hσ hk hv) hne hne' hws hus m
  · intro hlse hap hws hus
    have hap' : SlotsApart (repeated L k v sk sv) := fun b h i b' h' i' hr hr' he =>
      hap b h i b' h' i' (repeated_inRange.mp hr) (repeated_inRange.mp hr') he
    have hgrouped := lseStores_leave L hσ hlse hap hne hws m
    have hrepeated := lseStores_leave (repeated L k v sk sv) hσ hlse hap' hne' hus m
    exact LseHolds.unique hgrouped (lseHolds_repeated hk hrepeated)

end Exact

lemma pair_heads : (0 : ℤ) < 2 := two_pos
lemma pair_rows : (0 : ℤ) ≤ 2 := zero_le_two

/-- One batch of two query heads on one key head: two queries and one key. -/
noncomputable def pair : Launch ℝ ℝ :=
  .bhsd true true (fun e => e) (fun e => e) (fun e => 2 * e) 1 1 1 2 2 1 Int.one_pos pair_heads
    pair_rows Int.one_nonneg

/-- The two heads are written where they belong. -/
lemma pair_writesApart : pair.WritesApart := by
  unfold pair
  exact Launch.writesApart_of_exact
    (exact_bhsd _ _ _ _ _ _ _ _ _ _ _ _ _ _ _ (by norm_num) (by norm_num))
    (Launch.bhsd_oInjective _ _ _ _ _ _ _ _ _ _ _ _ _ _ _)

lemma pair_loadsExact : LoadsExact pair :=
  (exact_bhsd _ _ _ _ _ _ _ _ _ _ _ _ _ _ _ (by norm_num) (by norm_num)).loads

/-- The rows of the repetition have two heads. -/
lemma pair_repeated_loadsExact (k v : Mem ℝ) :
    LoadsExact (repeated pair k v ⟨128, 64, 128⟩ ⟨128, 64, 128⟩) := by
  have hQ : (0 : ℤ) ≤ 64 ∧ lastByte 2 64 < numRecords := by decide
  have hK : (0 : ℤ) ≤ 128 ∧ lastByte 1 128 < numRecords := by decide
  have hO : (62 : ℤ) < 64 ∧ lastByte 2 64 < 0x7FFFFFFF := by decide
  exact (exact_of_lastByte (fun _ _ _ => ⟨Int.le_refl _, Int.le_refl _⟩) hQ hK hK hO).loads

/-- The pair of heads, and its repetition with the heads of a row side by side. -/
theorem grouped_eq_repeated_pair :
    ∃ ws us : List (ℤ × XReal), OStores XReal.exact pair.exact ws ∧
      OStores XReal.exact (repeated pair (fun e => (e % 64 : ℤ)) (fun e => 2 * (e % 64 : ℤ))
        ⟨128, 64, 128⟩ ⟨128, 64, 128⟩).exact us ∧
      stores (fun _ => .nan) [ws].flatten = stores (fun _ => .nan) [us].flatten := by
  obtain ⟨ws, hws⟩ := exists_oStores XReal.exact pair.exact
  obtain ⟨us, hus⟩ := exists_oStores XReal.exact (repeated pair (fun e => (e % 64 : ℤ))
    (fun e => 2 * (e % 64 : ℤ)) ⟨128, 64, 128⟩ ⟨128, 64, 128⟩).exact
  -- one key: row 0 of head 0, and of both heads of the repetition
  have hplace : ∀ b h j : ℤ, ∀ d : ℕ, 0 ≤ b → b < 1 → 0 ≤ h → h < 2 → 0 ≤ j → j < 1 → d < 64 →
      (b * 128 + h * 64 + j * 128 + d) % 64 = b * 64 + h / 2 * 64 + j * 64 + d := by
    intros
    omega
  refine ⟨ws, us, hws, hus, (grouped_eq_repeated one_pos
    (fun b h j d h1 h2 h3 h4 h5 h6 h7 => ?_) (fun b h j d h1 h2 h3 h4 h5 h6 h7 => ?_)
    (List.cons_ne_nil _ _) (List.cons_ne_nil _ _) _ pair_loadsExact (pair_repeated_loadsExact _ _)).1
    pair_writesApart
    (fun x hx => by rwa [List.mem_singleton.mp hx]) fun x hx => by rwa [List.mem_singleton.mp hx]⟩
  · exact congrArg (fun e : ℤ => (e : ℝ)) (hplace b h j d h1 h2 h3 h4 h5 h6 h7)
  · exact congrArg (fun e : ℤ => 2 * (e : ℝ)) (hplace b h j d h1 h2 h3 h4 h5 h6 h7)

end FmhaNative.GroupedHeads
