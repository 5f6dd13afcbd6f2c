import FmhaNative.DeviceMemory

/-!
A launch in parts: launches that each compute some rows of one launch, from the same data.

A row is computed from its query, the keys it attends, the values of the tiles it walks and their
number; so a part computes its rows value for value, in any arithmetic, and parts that cover the
rows leave the O of the whole.
-/

namespace FmhaNative.LaunchParts

open Kernel RowRecurrence DeviceMemory Stores LseSlots

variable {α β : Type*}

/-! ### Rows with the same data -/

/-- A row of one launch and a row of another one: the same tiles and the same attended keys, and equal
tensors where the row is computed from them. -/
structure SameRow (L L' : Launch α β) (b h i b' h' i' : ℤ) : Prop where
  scale : L'.params.scale = L.params.scale
  attended : ∀ j : ℕ, L'.attended b' i' j ↔ L.attended b i j
  tiles : L'.tiles b' i' = L.tiles b i
  q : ∀ d : ℕ, d < 64 → L'.params.q (L'.qOff b' h' i' + d) = L.params.q (L.qOff b h i + d)
  k : ∀ j d : ℕ, L.attended b i j → d < 64 →
    L'.params.k (L'.kOff b' h' j + d) = L.params.k (L.kOff b h j + d)
  v : ∀ j d : ℕ, j < 64 * L.tiles b i → d < 64 → L'.rawValue b' h' j d = L.rawValue b h j d

namespace SameRow

variable [Fp α] [Zero β] (bf : Bf16 α β) {L L' : Launch α β} {b h i b' h' i' : ℤ}

lemma rawScore (hs : SameRow L L' b h i b' h' i') (j : ℕ) :
    L'.rawScore bf b' h' i' j = L.rawScore bf b h i j := by
  simp only [Launch.rawScore, hs.attended]
  split_ifs with hj
  · refine Finset.sum_congr rfl fun d hd => ?_
    rw [hs.k j d hj (Finset.mem_range.mp hd), hs.q d (Finset.mem_range.mp hd)]
  · rfl

/-- The two rows store the same values. -/
lemma cell (hs : SameRow L L' b h i b' h' i') (hr : L.InRange b h i) (hr' : L'.InRange b' h' i') {d : ℕ}
    (hd : d < 64) : L'.cell bf b' h' i' d = L.cell bf b h i d := by
  have hS : ∀ j : ℕ, j < 64 * L.tiles b i → L'.rawScore bf b' h' i' j = L.rawScore bf b h i j :=
    fun j _ => hs.rawScore bf j
  have ho := rowRun_oAcc_congr bf L.params.scale hS fun j hj => hs.v j d hj hd
  have hl := (rowRun_congr bf L.params.scale (L'.rawValue b' h') (L.rawValue b h) hS).2
  rw [Launch.cell, Launch.cell, L.row_eq bf hr, L'.row_eq bf hr', hs.tiles, hs.scale, ho, hl]

lemma lseCell (hs : SameRow L L' b h i b' h' i') (hr : L.InRange b h i) (hr' : L'.InRange b' h' i') :
    L'.lseCell bf b' h' i' = L.lseCell bf b h i := by
  have hS : ∀ j : ℕ, j < 64 * L.tiles b i → L'.rawScore bf b' h' i' j = L.rawScore bf b h i j :=
    fun j _ => hs.rawScore bf j
  obtain ⟨hm, hl⟩ := rowRun_congr bf L.params.scale (L'.rawValue b' h') (L.rawValue b h) hS
  rw [Launch.lseCell, Launch.lseCell, L.row_eq bf hr, L'.row_eq bf hr', hs.tiles, hs.scale, hm, hl]

end SameRow

/-! ### The stores of a launch -/

section Stored

variable [Fp α] [Zero β] {bf : Bf16 α β} {L : Launch α β}

lemma mem_oStores {ws : List (ℤ × β)} (hws : OStores bf L ws) {w : ℤ × β} : w ∈ ws ↔ L.Written bf w := by
  obtain ⟨outs, houts, hperm⟩ := hws
  rw [hperm.mem_iff, houts.mem_writes]

/-- Launches that are repeated write what one of them writes. -/
lemma mem_oStores_flatten {wss : List (List (ℤ × β))} (hne : wss ≠ [])
    (hws : ∀ ws ∈ wss, OStores bf L ws) {w : ℤ × β} : w ∈ wss.flatten ↔ L.Written bf w := by
  rw [List.mem_flatten]
  constructor
  · rintro ⟨ws, hmem, hw⟩
    exact (mem_oStores (hws ws hmem)).mp hw
  · intro hw
    obtain ⟨ws, hmem⟩ := List.exists_mem_of_ne_nil wss hne
    exact ⟨ws, hmem, (mem_oStores (hws ws hmem)).mpr hw⟩

/-- Launches that write the same leave the same O. -/
lemma stores_eq_of_written {L' : Launch α β} (hap : L.WritesApart)
    (heq : ∀ w, L.Written bf w ↔ L'.Written bf w) {wss us : List (List (ℤ × β))} (hne : wss ≠ [])
    (hne' : us ≠ []) (hws : ∀ ws ∈ wss, OStores bf L ws) (hus : ∀ ws ∈ us, OStores bf L' ws)
    (m : Mem β) : stores m wss.flatten = stores m us.flatten :=
  stores_ext (Launch.singleValued_written hap fun _ hw => (mem_oStores_flatten hne hws).mp hw) fun w =>
    ((mem_oStores_flatten hne hws).trans (heq w)).trans (mem_oStores_flatten hne' hus).symm

/-- The log-sum-exp that repeated launches leave. -/
lemma lse_left (hlse : L.params.lse) (hap : SlotsApart L) {lss : List (List (ℤ × α))} (hne : lss ≠ [])
    (hls : ∀ ls ∈ lss, LseStores bf L ls) (m : Mem α)
    {b h i : ℤ} (hr : L.InRange b h i) :
    stores m lss.flatten (slot L b h i) = L.lseCell bf b h i := by
  have hfam := stores_family (fun x : ℤ × ℤ × ℤ => L.InRange x.1 x.2.1 x.2.2)
    (fun x => slot L x.1 x.2.1 x.2.2) (fun x => L.lseCell bf x.1 x.2.1 x.2.2) ?_ hne ?_ m
  · exact hfam.1 (b, h, i) hr
  · rintro ⟨b, h, i⟩ ⟨b', h', i'⟩ hr hr' he
    obtain ⟨rfl, rfl, rfl⟩ := hap _ _ _ _ _ _ hr hr' he
    rfl
  · intro ls hmem w
    obtain ⟨outs, houts, hperm⟩ := hls ls hmem
    rw [hperm.mem_iff, houts.mem_lse hlse]
    constructor
    · rintro ⟨b, h, i, hr, rfl⟩
      exact ⟨(b, h, i), hr, rfl⟩
    · rintro ⟨⟨b, h, i⟩, hr, rfl⟩
      exact ⟨b, h, i, hr, rfl⟩

/-- Some launch of any argument block stores something. -/
lemma exists_oStores (bf : Bf16 α β) (L : Launch α β) : ∃ ws, OStores bf L ws := by
  choose outs houts using fun blk : Dim3 => exists_outcome bf L blk.z blk.x (mTile L.hasMask L.grid blk)
  exact ⟨_, outs, fun blk _ => houts blk, List.Perm.refl _⟩

end Stored

/-! ### Parts -/

section Parts

variable [Fp α] [Zero β] {bf : Bf16 α β} {L : Launch α β}

/-- A launch that computes rows of `L`: its rows are those from `(b, h, i)` on, and what it writes
lies at `oShift`. -/
structure Part (bf : Bf16 α β) (L : Launch α β) where
  launch : Launch α β
  (b h i oShift : ℤ)
  inRange : ∀ {b' h' i'}, launch.InRange b' h' i' → L.InRange (b' + b) (h' + h) (i' + i)
  cell : ∀ {b' h' i'} {d : ℕ}, launch.InRange b' h' i' → d < 64 →
    launch.cell bf b' h' i' d = L.cell bf (b' + b) (h' + h) (i' + i) d
  oAddr : ∀ {b' h' i'} {d : ℕ}, launch.InRange b' h' i' → d < 64 →
    L.oAddr (b' + b) (h' + h) (i' + i) d = (launch.oAddr b' h' i' d).map fun a => oShift + a

/-- The stores of parts into the O of the whole. -/
def intoWhole {ι : Type*} (shift : ι → ℤ) (parts : List (ι × List (ℤ × β))) : List (ℤ × β) :=
  parts.flatMap fun x => x.2.map fun w => (shift x.1 + w.1, w.2)

variable {ι : Type*} (shift : ι → ℤ) {parts : List (ι × List (ℤ × β))}

lemma mem_intoWhole
    (hst : ∀ x ∈ parts, ∃ P : Part bf L, P.oShift = shift x.1 ∧ OStores bf P.launch x.2)
    (hcov : ∀ b h i, L.InRange b h i → ∃ x ∈ parts, ∃ P : Part bf L, P.oShift = shift x.1 ∧
      OStores bf P.launch x.2 ∧ P.launch.InRange (b - P.b) (h - P.h) (i - P.i)) {w : ℤ × β} :
    w ∈ intoWhole shift parts ↔ L.Written bf w := by
  simp only [intoWhole, List.mem_flatMap, List.mem_map]
  constructor
  · rintro ⟨x, hx, w, hw, rfl⟩
    obtain ⟨P, hshift, hP⟩ := hst x hx
    obtain ⟨b, h, i, d, hr, hd, ha, hv⟩ := (mem_oStores hP).mp hw
    refine ⟨_, _, _, d, P.inRange hr, hd, ?_, hv.trans (P.cell hr hd)⟩
    rw [P.oAddr hr hd, ha, Option.map_some, hshift]
  · rintro ⟨b, h, i, d, hr, hd, ha, hv⟩
    obtain ⟨x, hx, P, hshift, hP, hr'⟩ := hcov b h i hr
    have hcell := P.cell hr' hd
    have haddr := P.oAddr hr' hd
    simp only [sub_add_cancel] at hcell haddr
    obtain ⟨a, ha', he⟩ := Option.map_eq_some_iff.mp (haddr.symm.trans ha)
    refine ⟨x, hx, (a, w.2), (mem_oStores hP).mpr ⟨_, _, _, d, hr', hd, ha', hv.trans hcell.symm⟩,
      Prod.ext ?_ rfl⟩
    rw [← he, hshift]

/-- **Parts that cover the rows leave the O of the whole**, value for value. -/
theorem parts_eq_whole (hap : L.WritesApart) {wss : List (List (ℤ × β))} (hne : wss ≠ [])
    (hws : ∀ ws ∈ wss, OStores bf L ws)
    (hst : ∀ x ∈ parts, ∃ P : Part bf L, P.oShift = shift x.1 ∧ OStores bf P.launch x.2)
    (hcov : ∀ b h i, L.InRange b h i → ∃ x ∈ parts, ∃ P : Part bf L, P.oShift = shift x.1 ∧
      OStores bf P.launch x.2 ∧ P.launch.InRange (b - P.b) (h - P.h) (i - P.i)) (m : Mem β) :
    stores m wss.flatten = stores m (intoWhole shift parts) :=
  stores_ext (Launch.singleValued_written hap fun _ hw => (mem_oStores_flatten hne hws).mp hw) fun _ =>
    (mem_oStores_flatten hne hws).trans (mem_intoWhole shift hst hcov).symm

end Parts

end FmhaNative.LaunchParts
