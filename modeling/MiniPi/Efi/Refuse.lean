import MiniPi.Efi.Pages

/-!
# Refused additions

With `overlap_only_ram`, `efi_add_memory_map` carves as it goes, and what it has carved when it
meets memory of another type, or when it finds too few pages at the end, stays carved.  So a refused
addition leaves the map alone only if it is refused before anything is carved.

The start of the region may be any address here: carving at an address inside of a page loses the
rest of that page.
-/

namespace MiniPi.Efi

variable {c d e : MemDesc} {ds ds' : List MemDesc}

/-! ## Maps with parts of pages -/

/-- The regions lie one above the other; a region may be empty, and may start inside of a page. -/
structure Stacked (ds : List MemDesc) : Prop where
  fits : ∀ d ∈ ds, d.stop < 2 ^ 64
  above : ds.Pairwise fun d e ↦ e.stop ≤ d.physicalStart

theorem InOrder.stacked (h : InOrder ds) : Stacked ds := ⟨fun d hd ↦ (h.ok d hd).fits, h.above⟩

/-- The address is in the region. -/
def MemDesc.Has (d : MemDesc) (a : ℕ) : Prop := d.physicalStart ≤ a ∧ a < d.stop

instance (d : MemDesc) (a : ℕ) : Decidable (d.Has a) := inferInstanceAs (Decidable (_ ∧ _))

theorem MemDesc.start_le_stop (d : MemDesc) : d.physicalStart ≤ d.stop := Nat.le_add_right _ _

/-- The byte at the address has the type. -/
def Holds (ds : List MemDesc) (a t : ℕ) : Prop := ∃ d ∈ ds, d.Has a ∧ d.type = t

theorem stacked_append : Stacked (ds ++ ds') ↔
    Stacked ds ∧ Stacked ds' ∧ ∀ d ∈ ds, ∀ e ∈ ds', e.stop ≤ d.physicalStart := by
  constructor
  · rintro ⟨hfits, habove⟩
    rw [List.pairwise_append] at habove
    exact ⟨⟨fun d hd ↦ hfits d (List.mem_append_left _ hd), habove.1⟩,
      ⟨fun d hd ↦ hfits d (List.mem_append_right _ hd), habove.2.1⟩, habove.2.2⟩
  · rintro ⟨⟨hfits, habove⟩, ⟨hfits', habove'⟩, hlow⟩
    refine ⟨fun d hd ↦ ?_, List.pairwise_append.2 ⟨habove, habove', hlow⟩⟩
    exact (List.mem_append.1 hd).elim (hfits d) (hfits' d)

theorem stacked_cons : Stacked (d :: ds) ↔
    d.stop < 2 ^ 64 ∧ Stacked ds ∧ ∀ e ∈ ds, e.stop ≤ d.physicalStart := by
  constructor
  · rintro ⟨hfits, habove⟩
    rw [List.pairwise_cons] at habove
    exact ⟨hfits d List.mem_cons_self, ⟨fun e he ↦ hfits e (List.mem_cons_of_mem _ he), habove.2⟩,
      habove.1⟩
  · rintro ⟨hd, ⟨hfits, habove⟩, hlow⟩
    exact ⟨List.forall_mem_cons.2 ⟨hd, hfits⟩, List.pairwise_cons.2 ⟨hlow, habove⟩⟩

theorem Stacked.has_inj (h : Stacked ds) {a : ℕ} (hd : d ∈ ds) (he : e ∈ ds) (hda : d.Has a)
    (hea : e.Has a) : d = e := by
  induction ds with
  | nil => cases hd
  | cons f ds ih =>
    obtain ⟨-, hds, hlow⟩ := stacked_cons.1 h
    rcases List.mem_cons.1 hd with rfl | hd'
    · rcases List.mem_cons.1 he with rfl | he'
      · rfl
      · exact absurd (hea.2.trans_le (hlow e he')) (Nat.not_lt.2 hda.1)
    · rcases List.mem_cons.1 he with rfl | he'
      · exact absurd (hda.2.trans_le (hlow d hd')) (Nat.not_lt.2 hea.1)
      · exact ih hds hd' he'

/-- The lookup of an address finds an entry that has it. -/
theorem has_of_find? {a : ℕ}
    (h : (ds.find? fun d ↦ decide (d.physicalStart ≤ a ∧ a < d.stop)) = some d) :
    d ∈ ds ∧ d.Has a := by
  have hp := List.find?_some h
  exact ⟨List.mem_of_find?_eq_some h, of_decide_eq_true hp⟩

theorem Stacked.typeOfByte_eq_some (h : Stacked ds) {a t : ℕ} :
    typeOfByte ds a = some t ↔ Holds ds a t := by
  rw [typeOfByte, Option.map_eq_some_iff]
  constructor
  · rintro ⟨d, hfind, ht⟩
    exact ⟨d, (has_of_find? hfind).1, (has_of_find? hfind).2, ht⟩
  · rintro ⟨d, hd, hda, ht⟩
    cases hfind : ds.find? fun d ↦ decide (d.physicalStart ≤ a ∧ a < d.stop) with
    | none => exact absurd (decide_eq_true hda) (List.find?_eq_none.1 hfind d hd)
    | some e =>
      obtain ⟨he, hea⟩ := has_of_find? hfind
      rw [h.has_inj hd he hda hea] at ht
      exact ⟨e, rfl, ht⟩

/-- Every byte has the type it had. -/
def Unchanged (ds ds' : List MemDesc) : Prop := ∀ a, typeOfByte ds' a = typeOfByte ds a

theorem unchanged_of_holds (h : Stacked ds) (h' : Stacked ds')
    (hiff : ∀ a t, Holds ds' a t ↔ Holds ds a t) : Unchanged ds ds' := by
  intro a
  apply Option.ext
  intro t
  rw [h.typeOfByte_eq_some, h'.typeOfByte_eq_some, hiff]

theorem not_unchanged_of_lost (h : Stacked ds) {a t : ℕ} (hold : Holds ds a t)
    (hlost : ∀ d ∈ ds', ¬d.Has a) : ¬Unchanged ds ds' := by
  intro hkeep
  have hsome := h.typeOfByte_eq_some.2 hold
  rw [← hkeep a, typeOfByte, Option.map_eq_some_iff] at hsome
  obtain ⟨d, hfind, -⟩ := hsome
  exact hlost d (has_of_find? hfind).1 (has_of_find? hfind).2

/-! ## One entry -/

/-- The test of `efi_mem_carve_out` for an overlap with the region. -/
def Meets (c d : MemDesc) : Prop := c.physicalStart < d.stop ∧ d.physicalStart < descGetEnd c

instance (c d : MemDesc) : Decidable (Meets c d) := inferInstanceAs (Decidable (_ ∧ _))

theorem meets_of_has {a : ℕ} (hlow : c.physicalStart ≤ a) (hhigh : a < descGetEnd c)
    (h : d.Has a) : Meets c d := ⟨hlow.trans_lt h.2, h.1.trans_lt hhigh⟩

theorem descGetEnd_eq_stop (h : d.stop < 2 ^ 64) : descGetEnd d = d.stop := by
  have hstop : d.physicalStart + d.numPages * 2 ^ 12 < 2 ^ 64 := h
  rw [descGetEnd, pageBytes_eq (by omega), add64_eq hstop, MemDesc.stop]

theorem descGetEnd_lt (c : MemDesc) : descGetEnd c < 2 ^ 64 := Nat.mod_lt _ (by decide)

/-- What is left of an entry of free memory that meets the region, and the number of pages that are
counted as carved. -/
inductive Trim (c d : MemDesc) : ℕ → List MemDesc → Prop
  | remove (hlow : c.physicalStart ≤ d.physicalStart) (hend : d.stop ≤ descGetEnd c) :
      Trim c d ((d.stop - d.physicalStart) / 2 ^ 12) []
  | shrink (hlow : c.physicalStart ≤ d.physicalStart) (hend : descGetEnd c < d.stop) :
      Trim c d ((descGetEnd c - d.physicalStart) / 2 ^ 12)
        [d.part (descGetEnd c) (descGetEnd c) d.stop]
  | split (hlow : d.physicalStart < c.physicalStart) :
      Trim c d 0 [d.part c.physicalStart c.physicalStart d.stop,
        d.part d.physicalStart d.virtualStart c.physicalStart]

@[simp] theorem MemDesc.part_physicalStart (a v b : ℕ) : (d.part a v b).physicalStart = a := rfl

@[simp] theorem MemDesc.part_type (a v b : ℕ) : (d.part a v b).type = d.type := rfl

/-- The end of a part, which loses what does not fill a page. -/
theorem MemDesc.stop_part_eq {a b v : ℕ} (hle : a ≤ b) (hfit : b < 2 ^ 64) :
    (d.part a v b).stop = a + (b - a) / 2 ^ 12 * 2 ^ 12 := by
  rw [MemDesc.stop, MemDesc.part, sub64_eq hle hfit]

theorem MemDesc.stop_part_le {a b v : ℕ} (hle : a ≤ b) (hfit : b < 2 ^ 64) :
    (d.part a v b).stop ≤ b := by
  rw [MemDesc.stop_part_eq hle hfit]
  omega

/-- `efi_mem_carve_out` with `overlap_only_ram`. -/
theorem efiMemCarveOut_ram_cases (hd : d.stop < 2 ^ 64) :
    (efiMemCarveOut d c true = .noOverlap ∧ ¬Meets c d) ∨
    (efiMemCarveOut d c true = .overlapsNonram ∧ Meets c d ∧ d.type ≠ conventionalMemory) ∨
    (Meets c d ∧ d.type = conventionalMemory ∧
      ((∃ newmap map, efiMemCarveOut d c true = .loopAgain newmap map ∧
        Trim c d 0 [newmap, map]) ∨
      ∃ n left, efiMemCarveOut d c true = .pages n left ∧ Trim c d n left.toList)) := by
  have hend := descGetEnd_lt c
  unfold efiMemCarveOut
  simp only [descGetEnd_eq_stop hd, true_and]
  by_cases hmeets : Meets c d
  swap
  · left
    have hnot : descGetEnd c ≤ d.physicalStart ∨ d.stop ≤ c.physicalStart := by
      rw [Meets] at hmeets
      omega
    rw [if_pos hnot]
    exact ⟨rfl, hmeets⟩
  right
  obtain ⟨hlt, hlt'⟩ := id hmeets
  rw [if_neg (by omega)]
  by_cases htype : d.type = conventionalMemory
  swap
  · rw [if_pos htype]
    exact .inl ⟨rfl, hmeets, htype⟩
  right
  rw [if_neg (not_not.2 htype)]
  refine ⟨hmeets, htype, ?_⟩
  by_cases hlow : c.physicalStart ≤ d.physicalStart
  · right
    rw [if_pos (Nat.max_eq_right hlow), Nat.max_eq_right hlow]
    by_cases hstop : d.stop ≤ descGetEnd c
    · rw [Nat.min_eq_right hstop, if_pos rfl, sub64_eq d.start_le_stop hd]
      exact ⟨_, none, rfl, .remove hlow hstop⟩
    · have hshrink := Nat.not_le.1 hstop
      rw [Nat.min_eq_left hshrink.le, if_neg hshrink.ne', sub64_eq hlt'.le hend]
      exact ⟨_, some _, rfl, .shrink hlow hshrink⟩
  · left
    have hsplit := Nat.not_le.1 hlow
    rw [Nat.max_eq_left hsplit.le, if_neg hsplit.ne']
    exact ⟨_, _, rfl, .split hsplit⟩

namespace Trim

variable {r : ℕ} {left : List MemDesc}

theorem within (h : Trim c d r left) (hmeets : Meets c d) (hd : d.stop < 2 ^ 64) :
    Stacked left ∧ ∀ x ∈ left, x.Within d := by
  obtain ⟨hlt, hlt'⟩ := hmeets
  cases h with
  | remove hlow hend => exact ⟨⟨fun x hx ↦ absurd hx List.not_mem_nil, .nil⟩, fun x hx ↦
      absurd hx List.not_mem_nil⟩
  | shrink hlow hend =>
    have hstop := MemDesc.stop_part_le (d := d) (v := descGetEnd c) hend.le hd
    refine ⟨⟨fun x hx ↦ ?_, List.pairwise_singleton _ _⟩, fun x hx ↦ ?_⟩
    · rw [List.mem_singleton.1 hx]
      exact hstop.trans_lt hd
    · rw [List.mem_singleton.1 hx]
      refine ⟨?_, hstop, MemDesc.part_type _ _ _⟩
      rw [MemDesc.part_physicalStart]
      exact hlt'.le
  | split hlow =>
    have hstop := MemDesc.stop_part_le (d := d) (v := c.physicalStart) hlt.le hd
    have hstop' := MemDesc.stop_part_le (d := d) (v := d.virtualStart) hlow.le (hlt.trans hd)
    constructor
    · rw [stacked_cons, stacked_cons]
      refine ⟨hstop.trans_lt hd, ⟨hstop'.trans_lt (hlt.trans hd), ?_, ?_⟩, ?_⟩
      · exact ⟨fun x hx ↦ absurd hx List.not_mem_nil, .nil⟩
      · exact fun x hx ↦ absurd hx List.not_mem_nil
      · intro x hx
        rw [List.mem_singleton.1 hx]
        exact hstop'
    · intro x hx
      rcases List.mem_cons.1 hx with rfl | hx
      · exact ⟨hlow.le, hstop, MemDesc.part_type _ _ _⟩
      · rw [List.mem_singleton.1 hx]
        exact ⟨(MemDesc.part_physicalStart _ _ _).ge, hstop'.trans hlt.le, MemDesc.part_type _ _ _⟩

end Trim

/-! ## One walk -/

/-- What a walk makes of the map: the first entry that meets the region is free memory, and is
cut. -/
structure Step (c : MemDesc) (ds : List MemDesc) (r : ℕ) (ds' : List MemDesc) (pre : List MemDesc)
    (d : MemDesc) (post left : List MemDesc) : Prop where
  before : ds = pre ++ d :: post
  after : ds' = pre ++ (left ++ post)
  first : ∀ x ∈ pre, ¬Meets c x
  meets : Meets c d
  free : d.type = conventionalMemory
  trim : Trim c d r left

/-- Everything that a walk with `overlap_only_ram` can do. -/
theorem carveWalk_ram_cases (hds : ∀ d ∈ ds, d.stop < 2 ^ 64) :
    (carveWalk c true ds = .done ∧ ∀ d ∈ ds, ¬Meets c d) ∨
    (∃ pre d post, carveWalk c true ds = .noMapping ds ∧ ds = pre ++ d :: post ∧
      (∀ x ∈ pre, ¬Meets c x) ∧ Meets c d ∧ d.type ≠ conventionalMemory) ∨
    ∃ r ds' pre d post left, carveWalk c true ds = .again r ds' ∧
      Step c ds r ds' pre d post left := by
  induction ds with
  | nil => exact .inl ⟨rfl, fun d hd ↦ absurd hd List.not_mem_nil⟩
  | cons d ds ih =>
    obtain ⟨hd, hds⟩ := List.forall_mem_cons.1 hds
    have hnone : ∀ x ∈ ([] : List MemDesc), ¬Meets c x := fun x hx ↦ absurd hx List.not_mem_nil
    rw [carveWalk]
    obtain ⟨hout, hfree⟩ | ⟨hout, hmeets, htype⟩ | ⟨hmeets, htype, ⟨newmap, map, hout, htrim⟩ |
      ⟨n, left, hout, htrim⟩⟩ := efiMemCarveOut_ram_cases (c := c) hd
    · rw [hout]
      dsimp only
      have hcons : ∀ pre : List MemDesc, (∀ x ∈ pre, ¬Meets c x) → ∀ x ∈ d :: pre, ¬Meets c x :=
        fun pre hpre ↦ List.forall_mem_cons.2 ⟨hfree, hpre⟩
      obtain ⟨hwalk, hall⟩ | ⟨pre, x, post, hwalk, hsplit, hpre, hx⟩ |
        ⟨r, ds', pre, x, post, left, hwalk, hstep⟩ := ih hds
      · rw [hwalk]
        exact .inl ⟨rfl, hcons ds hall⟩
      · rw [hwalk]
        exact .inr (.inl ⟨d :: pre, x, post, rfl, congrArg (d :: ·) hsplit, hcons pre hpre, hx⟩)
      · rw [hwalk]
        exact .inr (.inr ⟨r, d :: ds', d :: pre, x, post, left, rfl,
          congrArg (d :: ·) hstep.before, congrArg (d :: ·) hstep.after, hcons pre hstep.first,
          hstep.meets, hstep.free, hstep.trim⟩)
    · rw [hout]
      exact .inr (.inl ⟨[], d, ds, rfl, rfl, hnone, hmeets, htype⟩)
    · rw [hout]
      exact .inr (.inr ⟨0, _, [], d, ds, _, rfl, rfl, rfl, hnone, hmeets, htype, htrim⟩)
    · rw [hout]
      exact .inr (.inr ⟨n, _, [], d, ds, _, rfl, rfl, rfl, hnone, hmeets, htype, htrim⟩)

section Step

variable {r : ℕ} {pre post left : List MemDesc}

theorem Step.stacked (h : Step c ds r ds' pre d post left) (hds : Stacked ds) : Stacked ds' := by
  rw [h.before, stacked_append, stacked_cons] at hds
  obtain ⟨hpre, ⟨hd, hpost, hlow⟩, habove⟩ := hds
  obtain ⟨hleft, hwithin⟩ := h.trim.within h.meets hd
  rw [h.after, stacked_append, stacked_append]
  refine ⟨hpre, ⟨hleft, hpost, fun x hx e he ↦ (hlow e he).trans (hwithin x hx).start⟩, ?_⟩
  intro x hx e he
  rcases List.mem_append.1 he with he | he
  · exact (hwithin e he).stop.trans (habove x hx d List.mem_cons_self)
  · exact habove x hx e (List.mem_cons_of_mem _ he)

theorem Step.mem_cases (h : Step c ds r ds' pre d post left) (hds : Stacked ds) {x : MemDesc}
    (hx : x ∈ ds') : (x ∈ ds ∧ (x ∈ pre ∨ x ∈ post)) ∨ (x ∈ left ∧ x.Within d) := by
  have hd : d ∈ ds := h.before ▸ List.mem_append_right _ List.mem_cons_self
  rw [h.after, List.mem_append, List.mem_append] at hx
  rcases hx with hx | hx | hx
  · exact .inl ⟨h.before ▸ List.mem_append_left _ hx, .inl hx⟩
  · exact .inr ⟨hx, (h.trim.within h.meets (hds.fits d hd)).2 x hx⟩
  · exact .inl ⟨h.before ▸ List.mem_append_right _ (List.mem_cons_of_mem _ hx), .inr hx⟩

theorem Step.mem (h : Step c ds r ds' pre d post left) : d ∈ ds :=
  h.before ▸ List.mem_append_right _ List.mem_cons_self

theorem Step.holds (h : Step c ds r ds' pre d post left) (hds : Stacked ds) {a t : ℕ}
    (hold : Holds ds' a t) : Holds ds a t := by
  obtain ⟨x, hx, hxa, ht⟩ := hold
  rcases h.mem_cases hds hx with ⟨hx, -⟩ | ⟨-, hwithin⟩
  · exact ⟨x, hx, hxa, ht⟩
  · exact ⟨d, h.mem, ⟨hwithin.start.trans hxa.1, hxa.2.trans_le hwithin.stop⟩,
      hwithin.type.symm.trans ht⟩

theorem Step.nonram_iff (h : Step c ds r ds' pre d post left) (hds : Stacked ds) {x : MemDesc}
    (hx : x.type ≠ conventionalMemory) : x ∈ ds' ↔ x ∈ ds := by
  constructor
  · intro hmem
    rcases h.mem_cases hds hmem with ⟨hmem, -⟩ | ⟨-, hwithin⟩
    · exact hmem
    · exact absurd (hwithin.type.trans h.free) hx
  · intro hmem
    rw [h.before, List.mem_append, List.mem_cons] at hmem
    rw [h.after, List.mem_append, List.mem_append]
    rcases hmem with hmem | rfl | hmem
    · exact .inl hmem
    · exact absurd h.free hx
    · exact .inr (.inr hmem)

theorem Step.around (h : Step c ds r ds' pre d post left) (hds : Stacked ds) :
    (∀ x ∈ pre, d.stop ≤ x.physicalStart) ∧ ∀ x ∈ post, x.stop ≤ d.physicalStart := by
  rw [h.before, stacked_append, stacked_cons] at hds
  exact ⟨fun x hx ↦ hds.2.2 x hx d List.mem_cons_self, hds.2.1.2.2⟩

end Step

/-! ## Counting -/

/-- The bytes of the region that the map has. -/
def covered (c : MemDesc) (ds : List MemDesc) : Finset ℕ :=
  (Finset.Ico c.physicalStart (descGetEnd c)).filter fun a ↦ ∃ d ∈ ds, d.Has a

theorem mem_covered {a : ℕ} : a ∈ covered c ds ↔
    (c.physicalStart ≤ a ∧ a < descGetEnd c) ∧ ∃ d ∈ ds, d.Has a := by
  rw [covered, Finset.mem_filter, Finset.mem_Ico]

theorem card_covered_le (c : MemDesc) (ds : List MemDesc) :
    (covered c ds).card ≤ descGetEnd c - c.physicalStart := by
  have h := Finset.card_filter_le (Finset.Ico c.physicalStart (descGetEnd c))
    fun a ↦ ∃ d ∈ ds, d.Has a
  rwa [Nat.card_Ico] at h

theorem covered_eq_empty (h : ∀ d ∈ ds, ¬Meets c d) : covered c ds = ∅ := by
  rw [Finset.eq_empty_iff_forall_notMem]
  intro a ha
  obtain ⟨⟨hlow, hhigh⟩, d, hd, hda⟩ := mem_covered.1 ha
  exact h d hd (meets_of_has hlow hhigh hda)

/-- All bytes of the region are in the map if as many are. -/
theorem covers_of_card (h : descGetEnd c - c.physicalStart ≤ (covered c ds).card) {a : ℕ}
    (hlow : c.physicalStart ≤ a) (hhigh : a < descGetEnd c) : ∃ d ∈ ds, d.Has a := by
  have hall : covered c ds = Finset.Ico c.physicalStart (descGetEnd c) := by
    apply Finset.eq_of_subset_of_card_le (Finset.filter_subset _ _)
    rwa [Nat.card_Ico]
  have ha : a ∈ covered c ds := by
    rw [hall, Finset.mem_Ico]
    exact ⟨hlow, hhigh⟩
  exact (mem_covered.1 ha).2

theorem card_covered_of_covers (h : ∀ a, c.physicalStart ≤ a → a < descGetEnd c →
    ∃ d ∈ ds, d.Has a) :
    (covered c ds).card = descGetEnd c - c.physicalStart := by
  rw [covered, Finset.filter_true_of_mem, Nat.card_Ico]
  intro a ha
  rw [Finset.mem_Ico] at ha
  exact h a ha.1 ha.2

section Step

variable {r : ℕ} {pre post left : List MemDesc}

theorem Step.covered_subset (h : Step c ds r ds' pre d post left) (hds : Stacked ds) :
    covered c ds' ⊆ covered c ds := by
  intro a ha
  obtain ⟨hrange, x, hx, hxa⟩ := mem_covered.1 ha
  obtain ⟨y, hy, hya, -⟩ := h.holds hds ⟨x, hx, hxa, rfl⟩
  exact mem_covered.2 ⟨hrange, y, hy, hya⟩

/-- An entry that starts in the region loses its bytes up to the end of the region. -/
theorem Step.card_cut (h : Step c ds r ds' pre d post left) (hds : Stacked ds)
    (hlow : c.physicalStart ≤ d.physicalStart) :
    r = (min d.stop (descGetEnd c) - d.physicalStart) / 2 ^ 12 ∧
      min d.stop (descGetEnd c) - d.physicalStart + (covered c ds').card = (covered c ds).card := by
  obtain ⟨habove, hbelow⟩ := h.around hds
  have hleft : r = (min d.stop (descGetEnd c) - d.physicalStart) / 2 ^ 12 ∧
      ∀ x ∈ left, descGetEnd c ≤ x.physicalStart := by
    cases h.trim with
    | remove _ hend =>
      rw [Nat.min_eq_left hend]
      exact ⟨rfl, fun x hx ↦ absurd hx List.not_mem_nil⟩
    | shrink _ hend =>
      rw [Nat.min_eq_right hend.le]
      refine ⟨rfl, fun x hx ↦ ?_⟩
      rw [List.mem_singleton.1 hx, MemDesc.part_physicalStart]
    | split hlow' => exact absurd hlow (Nat.not_le.2 hlow')
  refine ⟨hleft.1, ?_⟩
  have hdisj : Disjoint (Finset.Ico d.physicalStart (min d.stop (descGetEnd c)))
      (covered c ds') := by
    rw [Finset.disjoint_left]
    intro a ha hcov
    rw [Finset.mem_Ico, lt_min_iff] at ha
    obtain ⟨-, x, hx, hxa⟩ := mem_covered.1 hcov
    rcases h.mem_cases hds hx with ⟨-, hx | hx⟩ | ⟨hx, -⟩
    · exact Nat.not_lt.2 ((habove x hx).trans hxa.1) ha.2.1
    · exact Nat.not_lt.2 ((hbelow x hx).trans ha.1) hxa.2
    · exact Nat.not_lt.2 ((hleft.2 x hx).trans hxa.1) ha.2.2
  have hunion : Finset.Ico d.physicalStart (min d.stop (descGetEnd c)) ∪ covered c ds' =
      covered c ds := by
    ext a
    rw [Finset.mem_union, Finset.mem_Ico, lt_min_iff]
    constructor
    · rintro (⟨hda, hstop, hend⟩ | ha)
      · exact mem_covered.2 ⟨⟨hlow.trans hda, hend⟩, d, h.mem, hda, hstop⟩
      · exact h.covered_subset hds ha
    · intro ha
      obtain ⟨hrange, x, hx, hxa⟩ := mem_covered.1 ha
      rw [h.before, List.mem_append, List.mem_cons] at hx
      rcases hx with hx | rfl | hx
      · exact .inr (mem_covered.2 ⟨hrange, x, h.after ▸ List.mem_append_left _ hx, hxa⟩)
      · exact .inl ⟨hxa.1, hxa.2, hrange.2⟩
      · exact .inr (mem_covered.2 ⟨hrange, x,
          h.after ▸ List.mem_append_right _ (List.mem_append_right _ hx), hxa⟩)
  rw [← hunion, Finset.card_union_of_disjoint hdisj, Nat.card_Ico]

/-- An entry that starts below the region is split, and no pages are counted. -/
theorem Step.split_eq (h : Step c ds r ds' pre d post left)
    (hlow : d.physicalStart < c.physicalStart) :
    r = 0 ∧ left = [d.part c.physicalStart c.physicalStart d.stop,
      d.part d.physicalStart d.virtualStart c.physicalStart] := by
  cases h.trim with
  | remove hle => exact absurd hlow (Nat.not_lt.2 hle)
  | shrink hle => exact absurd hlow (Nat.not_lt.2 hle)
  | split => exact ⟨rfl, rfl⟩

theorem Step.card_le (h : Step c ds r ds' pre d post left) (hds : Stacked ds) :
    r * 2 ^ 12 + (covered c ds').card ≤ (covered c ds).card := by
  by_cases hlow : c.physicalStart ≤ d.physicalStart
  · obtain ⟨hr, hcard⟩ := h.card_cut hds hlow
    omega
  · obtain ⟨rfl, -⟩ := h.split_eq (Nat.not_le.1 hlow)
    rw [Nat.zero_mul, Nat.zero_add]
    exact Finset.card_le_card (h.covered_subset hds)

end Step

/-- Cutting the entry loses whole pages of the region only: both are aligned, or the entry contains
the region. -/
def Exact (c d : MemDesc) : Prop :=
  (2 ^ 12 ∣ c.physicalStart ∧ 2 ^ 12 ∣ descGetEnd c ∧ 2 ^ 12 ∣ d.physicalStart ∧ 2 ^ 12 ∣ d.stop) ∨
  (d.physicalStart ≤ c.physicalStart ∧ descGetEnd c ≤ d.stop ∧
    2 ^ 12 ∣ descGetEnd c - c.physicalStart)

/-- The entries that meet the region are free memory, and are cut without loss. -/
def Backing (c : MemDesc) (ds : List MemDesc) : Prop :=
  ∀ d ∈ ds, Meets c d → d.type = conventionalMemory ∧ Exact c d

section Step

variable {r : ℕ} {pre post left : List MemDesc}

theorem Step.backing (h : Step c ds r ds' pre d post left) (hds : Stacked ds)
    (hback : Backing c ds) (hproper : c.physicalStart < descGetEnd c) : Backing c ds' := by
  intro x hx hmeets
  have hfit := hds.fits d h.mem
  have hend := descGetEnd_lt c
  obtain ⟨hlt, hlt'⟩ := h.meets
  rcases h.mem_cases hds hx with ⟨hx, -⟩ | ⟨hx, hwithin⟩
  · exact hback x hx hmeets
  · refine ⟨hwithin.type.trans h.free, ?_⟩
    obtain ⟨-, hexact⟩ := hback d h.mem h.meets
    cases h.trim with
    | remove hlow _ => cases hx
    | shrink hlow _ =>
      rw [List.mem_singleton.1 hx, Meets, MemDesc.part_physicalStart] at hmeets
      exact absurd hmeets.2 (lt_irrefl _)
    | split hlow =>
      rcases List.mem_cons.1 hx with rfl | hx
      · have hstop := MemDesc.stop_part_eq (d := d) (v := c.physicalStart) hlt.le hfit
        rcases hexact with ⟨h₁, h₂, h₃, h₄⟩ | ⟨h₁, h₂, h₃⟩
        · refine .inl ⟨h₁, h₂, h₁, ?_⟩
          rw [hstop]
          omega
        · refine .inr ⟨le_rfl, ?_, h₃⟩
          rw [hstop]
          omega
      · rw [List.mem_singleton.1 hx] at hmeets
        have hstop := MemDesc.stop_part_le (d := d) (v := d.virtualStart) hlow.le (hlt.trans hfit)
        exact absurd hmeets.1 (Nat.not_lt.2 hstop)

/-- Without loss, as many pages are counted as bytes are lost. -/
theorem Step.card_eq (h : Step c ds r ds' pre d post left) (hds : Stacked ds)
    (hexact : Exact c d) : r * 2 ^ 12 + (covered c ds').card = (covered c ds).card := by
  have hfit := hds.fits d h.mem
  obtain ⟨hlt, hlt'⟩ := h.meets
  by_cases hlow : c.physicalStart ≤ d.physicalStart
  · obtain ⟨hr, hcard⟩ := h.card_cut hds hlow
    have hdvd : 2 ^ 12 ∣ min d.stop (descGetEnd c) - d.physicalStart := by
      rcases hexact with ⟨h₁, h₂, h₃, h₄⟩ | ⟨h₁, h₂, h₃⟩
      · rcases le_total d.stop (descGetEnd c) with hle | hle
        · rw [Nat.min_eq_left hle]
          exact Nat.dvd_sub h₄ h₃
        · rw [Nat.min_eq_right hle]
          exact Nat.dvd_sub h₂ h₃
      · rwa [Nat.min_eq_right h₂, h₁.antisymm hlow]
    rw [hr, Nat.div_mul_cancel hdvd, hcard]
  · have hsplit := Nat.not_le.1 hlow
    obtain ⟨rfl, hleft⟩ := h.split_eq hsplit
    rw [Nat.zero_mul, Nat.zero_add]
    refine congrArg Finset.card (Finset.Subset.antisymm (h.covered_subset hds) fun a ha ↦ ?_)
    obtain ⟨hrange, x, hx, hxa⟩ := mem_covered.1 ha
    refine mem_covered.2 ⟨hrange, ?_⟩
    rw [h.before, List.mem_append, List.mem_cons] at hx
    rcases hx with hx | rfl | hx
    · exact ⟨x, h.after ▸ List.mem_append_left _ hx, hxa⟩
    · refine ⟨x.part c.physicalStart c.physicalStart x.stop, ?_, hrange.1, ?_⟩
      · rw [h.after, hleft]
        exact List.mem_append_right _ List.mem_cons_self
      · rw [MemDesc.stop_part_eq hlt.le hfit]
        have := hxa.2
        rcases hexact with ⟨h₁, h₂, h₃, h₄⟩ | ⟨h₁, h₂, h₃⟩
        · omega
        · omega
    · exact ⟨x, h.after ▸ List.mem_append_right _ (List.mem_append_right _ hx), hxa⟩

end Step

/-! ## The loop -/

/-- How often an entry is met. -/
def meetings (c d : MemDesc) : ℕ :=
  if Meets c d then (if c.physicalStart ≤ d.physicalStart then 1 else 2) else 0

theorem meetings_of_not (h : ¬Meets c d) : meetings c d = 0 := by
  rw [meetings, if_neg h]

theorem Trim.lighter {r : ℕ} {left : List MemDesc} (h : Trim c d r left) (hmeets : Meets c d)
    (hd : d.stop < 2 ^ 64) : (left.map (meetings c)).sum < meetings c d := by
  rw [meetings, if_pos hmeets]
  cases h with
  | remove hlow _ =>
    rw [if_pos hlow]
    exact Nat.zero_lt_one
  | shrink hlow _ =>
    have hfree : ¬Meets c (d.part (descGetEnd c) (descGetEnd c) d.stop) := by
      rw [Meets, MemDesc.part_physicalStart]
      exact fun h ↦ lt_irrefl _ h.2
    rw [if_pos hlow, List.map_singleton, List.sum_singleton, meetings_of_not hfree]
    exact Nat.zero_lt_one
  | split hlow =>
    have hstop := MemDesc.stop_part_le (d := d) (v := d.virtualStart) hlow.le (hmeets.1.trans hd)
    have hfree : ¬Meets c (d.part d.physicalStart d.virtualStart c.physicalStart) :=
      fun h ↦ Nat.not_lt.2 hstop h.1
    have hone : meetings c (d.part c.physicalStart c.physicalStart d.stop) ≤ 1 := by
      rw [meetings, MemDesc.part_physicalStart, if_pos (le_refl c.physicalStart)]
      split_ifs
      · exact Nat.le_refl 1
      · exact Nat.zero_le 1
    have hzero : meetings c (d.part d.physicalStart d.virtualStart c.physicalStart) = 0 :=
      meetings_of_not hfree
    rw [if_neg (Nat.not_le.2 hlow), List.map_cons, List.map_singleton, List.sum_cons,
      List.sum_singleton, hzero, Nat.add_zero]
    exact Nat.lt_succ_of_le hone

theorem Step.lighter {r : ℕ} {pre post left : List MemDesc}
    (h : Step c ds r ds' pre d post left) (hds : Stacked ds) :
    (ds'.map (meetings c)).sum < (ds.map (meetings c)).sum := by
  have := h.trim.lighter h.meets (hds.fits d h.mem)
  rw [h.after, h.before]
  simp only [List.map_append, List.map_cons, List.sum_append, List.sum_cons]
  omega

theorem sum_meetings_le (c : MemDesc) (ds : List MemDesc) :
    (ds.map (meetings c)).sum ≤ 2 * ds.length := by
  have := List.sum_le_card_nsmul (ds.map (meetings c)) 2 fun w hw ↦ by
    obtain ⟨d, -, rfl⟩ := List.mem_map.1 hw
    unfold meetings
    split_ifs <;> omega
  rw [List.length_map, smul_eq_mul] at this
  omega

/-- The map at the end of the loop. -/
def Carved.map : Carved → List MemDesc
  | .noMapping efiMem => efiMem
  | .carved _ efiMem => efiMem

/-- The map when the loop ends: it gives no byte a type, other memory is left alone, and what still
meets the region is other memory or lies below an entry of that kind. -/
structure Ended (c : MemDesc) (ds : List MemDesc) (res : Carved) : Prop where
  stacked : Stacked res.map
  holds : ∀ a t, Holds res.map a t → Holds ds a t
  nonram : ∀ x : MemDesc, x.type ≠ conventionalMemory → (x ∈ res.map ↔ x ∈ ds)
  blocked : ∀ x ∈ res.map, Meets c x → x.type = conventionalMemory →
    ∃ y ∈ res.map, Meets c y ∧ y.type ≠ conventionalMemory ∧ x.stop ≤ y.physicalStart
  done : ∀ k efiMem, res = .carved k efiMem → ∀ x ∈ res.map, ¬Meets c x

/-- The loop with `overlap_only_ram` ends. -/
theorem carveLoop_ram_ended {n k : ℕ} (hds : Stacked ds)
    (hn : (ds.map (meetings c)).sum < n) :
    ∃ res, carveLoop c true n k ds = some res ∧ Ended c ds res := by
  induction n generalizing k ds with
  | zero => exact absurd hn (Nat.not_lt_zero _)
  | succ n ih =>
    rw [carveLoop]
    obtain ⟨hwalk, hfree⟩ | ⟨pre, y, post, hwalk, hsplit, hpre, hmeets, htype⟩ |
      ⟨r, ds₁, pre, d, post, left, hwalk, hstep⟩ := carveWalk_ram_cases (c := c) hds.fits
    · rw [hwalk]
      exact ⟨_, rfl, hds, fun _ _ h ↦ h, fun _ _ ↦ Iff.rfl,
        fun x hx hmeets ↦ absurd hmeets (hfree x hx), fun _ _ _ ↦ hfree⟩
    · rw [hwalk]
      refine ⟨_, rfl, hds, fun _ _ h ↦ h, fun _ _ ↦ Iff.rfl, fun x hx hx' hfree ↦ ?_,
        fun _ _ h ↦ by cases h⟩
      have hy : y ∈ ds := hsplit ▸ List.mem_append_right _ List.mem_cons_self
      refine ⟨y, hy, hmeets, htype, ?_⟩
      change x ∈ ds at hx
      rw [hsplit, stacked_append, stacked_cons] at hds
      rw [hsplit, List.mem_append, List.mem_cons] at hx
      rcases hx with hx | rfl | hx
      · exact absurd hx' (hpre x hx)
      · exact absurd hfree htype
      · exact hds.2.1.2.2 x hx
    · obtain ⟨res, hloop, hended⟩ := ih (k := add64 k r) (hstep.stacked hds)
        ((hstep.lighter hds).trans_le (Nat.le_of_lt_succ hn))
      rw [hwalk]
      exact ⟨res, hloop, hended.stacked, fun a t h ↦ hstep.holds hds (hended.holds a t h),
        fun x hx ↦ (hended.nonram x hx).trans (hstep.nonram_iff hds hx), hended.blocked,
        hended.done⟩

theorem add64_carved {k r a b : ℕ} (hk : k * 2 ^ 12 + b < 2 ^ 64) (hr : r * 2 ^ 12 + a ≤ b) :
    add64 k r = k + r ∧ (k + r) * 2 ^ 12 + a ≤ k * 2 ^ 12 + b := by
  have hlt : k + r < 2 ^ 64 := by omega
  refine ⟨add64_eq hlt, ?_⟩
  rw [Nat.add_mul, Nat.add_assoc]
  exact Nat.add_le_add_left hr _

/-- No more pages are counted than the map has of the region. -/
theorem carveLoop_ram_le {n k pages : ℕ} {F : List MemDesc} (hds : Stacked ds)
    (hk : k * 2 ^ 12 + (covered c ds).card < 2 ^ 64)
    (h : carveLoop c true n k ds = some (.carved pages F)) :
    pages * 2 ^ 12 ≤ k * 2 ^ 12 + (covered c ds).card := by
  induction n generalizing k ds with
  | zero => cases h
  | succ n ih =>
    rw [carveLoop] at h
    obtain ⟨hwalk, -⟩ | ⟨pre, y, post, hwalk, -⟩ | ⟨r, ds₁, pre, d, post, left, hwalk, hstep⟩ :=
      carveWalk_ram_cases (c := c) hds.fits
    · rw [hwalk] at h
      obtain ⟨rfl, -⟩ := Carved.carved.inj (Option.some.inj h)
      exact Nat.le_add_right _ _
    · rw [hwalk] at h
      cases h
    · rw [hwalk] at h
      obtain ⟨hadd, hle⟩ := add64_carved hk (hstep.card_le hds)
      change carveLoop c true n (add64 k r) ds₁ = _ at h
      rw [hadd] at h
      exact (ih (hstep.stacked hds) (hle.trans_lt hk) h).trans hle

/-- Where nothing is lost, the loop counts all bytes of the region that the map has. -/
theorem carveLoop_ram_eq {n k : ℕ} {res : Carved} (hds : Stacked ds) (hback : Backing c ds)
    (hproper : c.physicalStart < descGetEnd c) (hk : k * 2 ^ 12 + (covered c ds).card < 2 ^ 64)
    (h : carveLoop c true n k ds = some res) :
    ∃ pages F, res = .carved pages F ∧ pages * 2 ^ 12 = k * 2 ^ 12 + (covered c ds).card := by
  induction n generalizing k ds with
  | zero => cases h
  | succ n ih =>
    rw [carveLoop] at h
    obtain ⟨hwalk, hfree⟩ | ⟨pre, y, post, hwalk, hsplit, -, hmeets, htype⟩ |
      ⟨r, ds₁, pre, d, post, left, hwalk, hstep⟩ := carveWalk_ram_cases (c := c) hds.fits
    · rw [hwalk] at h
      refine ⟨k, ds, (Option.some.inj h).symm, ?_⟩
      rw [covered_eq_empty hfree, Finset.card_empty, Nat.add_zero]
    · have hy : y ∈ ds := hsplit ▸ List.mem_append_right _ List.mem_cons_self
      exact absurd (hback y hy hmeets).1 htype
    · rw [hwalk] at h
      have hcard := hstep.card_eq hds (hback d hstep.mem hstep.meets).2
      obtain ⟨hadd, hle⟩ := add64_carved hk hcard.le
      change carveLoop c true n (add64 k r) ds₁ = _ at h
      rw [hadd] at h
      obtain ⟨pages, F, hres, heq⟩ :=
        ih (hstep.stacked hds) (hstep.backing hds hback hproper) (hle.trans_lt hk) h
      refine ⟨pages, F, hres, heq.trans ?_⟩
      rw [← hcard, Nat.add_mul, Nat.add_assoc]

/-- If the first entry that meets a proper region is free memory, some of it is lost. -/
theorem Ended.lost {res : Carved} {pre post : List MemDesc} (h : Ended c ds res)
    (hds : Stacked ds) (hsplit : ds = pre ++ d :: post) (hpre : ∀ x ∈ pre, ¬Meets c x)
    (hmeets : Meets c d) (hfree : d.type = conventionalMemory)
    (hpos : d.physicalStart < d.stop) (hproper : c.physicalStart < descGetEnd c) :
    ¬Unchanged ds res.map := by
  have hd : d ∈ ds := hsplit ▸ List.mem_append_right _ List.mem_cons_self
  obtain ⟨a, hlow, hda, hstop, hend⟩ :
      ∃ a, c.physicalStart ≤ a ∧ d.physicalStart ≤ a ∧ a < d.stop ∧ a < descGetEnd c :=
    ⟨max c.physicalStart d.physicalStart, Nat.le_max_left _ _, Nat.le_max_right _ _,
      max_lt hmeets.1 hpos, max_lt hproper hmeets.2⟩
  refine not_unchanged_of_lost hds ⟨d, hd, ⟨hda, hstop⟩, rfl⟩ fun x hx hxa ↦ ?_
  -- What is left of the byte would be free memory below an entry that meets the region.
  obtain ⟨e, he, hea, htype⟩ := h.holds a x.type ⟨x, hx, hxa, rfl⟩
  obtain rfl := hds.has_inj hd he ⟨hda, hstop⟩ hea
  obtain ⟨y, hy, hymeets, hytype, hxy⟩ :=
    h.blocked x hx (meets_of_has hlow hend hxa) (htype.symm.trans hfree)
  have hy' := (h.nonram y hytype).1 hy
  rw [hsplit, stacked_append, stacked_cons] at hds
  rw [hsplit, List.mem_append, List.mem_cons] at hy'
  rcases hy' with hy' | rfl | hy'
  · exact hpre y hy' hymeets
  · exact hytype hfree
  · have hbelow := hds.2.1.2.2 y hy'
    have hyle := y.start_le_stop
    have := hxa.2
    omega

end MiniPi.Efi
