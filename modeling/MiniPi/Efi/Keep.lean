import MiniPi.Efi.Refuse

/-!
# When a refused allocation changes nothing

The exact condition, for `efi_add_memory_map` with `overlap_only_ram` and for `efi_allocate_pages`.
-/

namespace MiniPi.Efi

variable {d e : MemDesc} {ds ds' : List MemDesc} {start pages : ℕ} {memoryType : ℤ}

/-! ## Adding -/

/-- If `efi_add_memory_map` with `overlap_only_ram` returns an error, the map is as before. -/
def AddKeeps (ds : List MemDesc) (start pages : ℕ) (memoryType : ℤ) : Prop :=
  ∀ st ds', efiAddMemoryMap ds start pages memoryType true = some (st, ds') → st ≠ .success →
    Unchanged ds ds'

/-- The region is free memory, and can be carved out of it without loss. -/
structure Backed (ds : List MemDesc) (start pages : ℕ) : Prop where
  fits : start + pages * 2 ^ 12 < 2 ^ 64
  free : ∀ a, start ≤ a → a < start + pages * 2 ^ 12 → typeOfByte ds a = some conventionalMemory
  whole : 2 ^ 12 ∣ start ∨ ∃ d ∈ ds, d.physicalStart ≤ start ∧ start + pages * 2 ^ 12 ≤ d.stop

/-- The first entry that meets the region, if there is one, is not free memory. -/
def RefusedAtOnce (ds : List MemDesc) (start pages : ℕ) (memoryType : ℤ) : Prop :=
  ∀ d, ds.find? (Meets (newDesc start pages memoryType) ·) = some d → d.type ≠ conventionalMemory

/-- The call is refused before anything is carved, splits an entry at a page and carves nothing, or
finds free memory all over the region. -/
def AddSafe (ds : List MemDesc) (start pages : ℕ) (memoryType : ℤ) : Prop :=
  maxMemoryType ≤ memoryType ∨ pages = 0 ∨ RefusedAtOnce ds start pages memoryType ∨
    (descGetEnd (newDesc start pages memoryType) ≤ start ∧ 2 ^ 12 ∣ start) ∨ Backed ds start pages

theorem descGetEnd_newDesc (memoryType : ℤ) (h : start + pages * 2 ^ 12 < 2 ^ 64) :
    descGetEnd (newDesc start pages memoryType) = start + pages * 2 ^ 12 := by
  rw [descGetEnd_eq_stop]
  · rfl
  · exact h

/-- Past its checks, the call fails exactly if the loop is refused or counts too few pages. -/
theorem efiAddMemoryMap_ram_eq (hmax : memoryType < maxMemoryType) (hpages : pages ≠ 0)
    {res : Carved}
    (hloop : carveLoop (newDesc start pages memoryType) true (2 * ds.length + 1) 0 ds = some res) :
    ((∀ F, res ≠ .carved pages F) ∧
      efiAddMemoryMap ds start pages memoryType true = some (.noMapping, res.map)) ∨
    ∃ F, res = .carved pages F ∧ efiAddMemoryMap ds start pages memoryType true =
      (efiMemSort (F ++ [newDesc start pages memoryType])).map fun ds' ↦ (.success, ds') := by
  rw [efiAddMemoryMap, if_neg (Int.not_le.2 hmax), if_neg hpages]
  simp only [Option.bind_eq_bind, hloop, Option.bind_some, true_and]
  cases res with
  | noMapping F => exact .inl ⟨fun _ ↦ by rintro ⟨⟩, rfl⟩
  | carved k F =>
    by_cases hk : k = pages
    · subst hk
      right
      refine ⟨F, rfl, ?_⟩
      simp only [ne_eq, not_true_eq_false, if_false]
      cases efiMemSort (F ++ [newDesc start k memoryType]) with
      | none => rfl
      | some ds' => rfl
    · left
      refine ⟨fun F' h ↦ hk (Carved.carved.inj h).1, ?_⟩
      simp only [ne_eq, hk, not_false_eq_true, if_true]
      rfl

/-- The first entry that is cut reaches up to the end of a region that is covered. -/
theorem Step.end_le_stop {c : MemDesc} {r : ℕ} {pre post left : List MemDesc}
    (h : Step c ds r ds' pre d post left) (hds : Stacked ds)
    (hfull : ∀ a, c.physicalStart ≤ a → a < descGetEnd c → ∃ x ∈ ds, x.Has a) :
    descGetEnd c ≤ d.stop := by
  by_contra hlt
  rw [Nat.not_le] at hlt
  obtain ⟨x, hx, hxa⟩ := hfull d.stop h.meets.1.le hlt
  have hbelow := (h.around hds).2
  rw [h.before, List.mem_append, List.mem_cons] at hx
  rcases hx with hx | rfl | hx
  · exact h.first x hx (meets_of_has h.meets.1.le hlt hxa)
  · exact lt_irrefl _ hxa.2
  · exact Nat.not_lt.2 ((hbelow x hx).trans d.start_le_stop) hxa.2

/-- If the loop counts all pages of the region, the region is backed. -/
theorem backed_of_carved (h : InOrder ds) (hpages : pages ≠ 0) {F : List MemDesc}
    (hloop : carveLoop (newDesc start pages memoryType) true (2 * ds.length + 1) 0 ds =
      some (.carved pages F)) : Backed ds start pages := by
  obtain ⟨c, hc⟩ : ∃ c, c = newDesc start pages memoryType := ⟨_, rfl⟩
  have hstart : c.physicalStart = start := by rw [hc]; rfl
  have hnum : c.numPages = pages := by rw [hc]; rfl
  rw [← hc] at hloop
  have hds := h.stacked
  have hcard := card_covered_le c ds
  have hendlt := descGetEnd_lt c
  have hcardlt : 0 * 2 ^ 12 + (covered c ds).card < 2 ^ 64 := by
    rw [Nat.zero_mul, Nat.zero_add]
    exact (hcard.trans (Nat.sub_le _ _)).trans_lt hendlt
  have hle := carveLoop_ram_le hds hcardlt hloop
  rw [Nat.zero_mul, Nat.zero_add] at hle
  have hend : descGetEnd c = start + pages * 2 ^ 12 ∧ start + pages * 2 ^ 12 < 2 ^ 64 := by
    have heq : descGetEnd c = (start + pages * 2 ^ 12 % 2 ^ 64) % 2 ^ 64 := by
      rw [descGetEnd, hstart, hnum]
      rfl
    rw [hstart] at hcard
    omega
  obtain ⟨hend, hfits⟩ := hend
  have hfull : ∀ a, c.physicalStart ≤ a → a < descGetEnd c → ∃ x ∈ ds, x.Has a := by
    intro a hlow hhigh
    refine covers_of_card ?_ hlow hhigh
    rw [hend, hstart]
    omega
  obtain ⟨res, hres, hended⟩ :=
    carveLoop_ram_ended (k := 0) hds (Nat.lt_succ_of_le (sum_meetings_le c ds))
  obtain rfl : .carved pages F = res := Option.some.inj (hloop.symm.trans hres)
  have hfree : ∀ x ∈ ds, Meets c x → x.type = conventionalMemory := by
    intro x hx hmeets
    by_contra htype
    exact hended.done pages F rfl x ((hended.nonram x htype).2 hx) hmeets
  refine ⟨hfits, fun a hlow hhigh ↦ ?_, ?_⟩
  · rw [← hstart] at hlow
    rw [← hend] at hhigh
    obtain ⟨x, hx, hxa⟩ := hfull a hlow hhigh
    exact hds.typeOfByte_eq_some.2 ⟨x, hx, hxa, hfree x hx (meets_of_has hlow hhigh hxa)⟩
  -- What the first cut loses is missing in the count.
  rw [carveLoop] at hloop
  obtain ⟨hwalk, -⟩ | ⟨pre, y, post, hwalk, -⟩ | ⟨r, ds₁, pre, d, post, left, hwalk, hstep⟩ :=
    carveWalk_ram_cases (c := c) hds.fits
  · rw [hwalk] at hloop
    exact absurd (Carved.carved.inj (Option.some.inj hloop)).1.symm hpages
  · rw [hwalk] at hloop
    cases hloop
  rw [hwalk] at hloop
  have hle₁ := hstep.card_le hds
  obtain ⟨hadd, hadd'⟩ := add64_carved hcardlt hle₁
  change carveLoop c true (2 * ds.length) (add64 0 r) ds₁ = _ at hloop
  rw [hadd] at hloop
  have hrest := carveLoop_ram_le (hstep.stacked hds) (hadd'.trans_lt hcardlt) hloop
  have hreach := hstep.end_le_stop hds hfull
  by_cases hlow : d.physicalStart ≤ start
  · exact .inr ⟨d, hstep.mem, hlow, hend ▸ hreach⟩
  · left
    obtain ⟨hr, hcut⟩ := hstep.card_cut hds (hstart ▸ (Nat.not_le.1 hlow).le)
    have haligned := (h.ok d hstep.mem).aligned
    have hbelow := hstep.meets.2
    rw [hend] at hbelow
    rw [Nat.min_eq_right hreach, hend] at hr hcut
    rw [hend, hstart] at hcard
    omega

theorem backing_of_backed (h : InOrder ds) (hpages : pages ≠ 0) (hb : Backed ds start pages) :
    Backing (newDesc start pages memoryType) ds := by
  have hend := descGetEnd_newDesc memoryType hb.fits
  intro d hd hmeets
  have hok := h.ok d hd
  have hmeets₁ : start < d.stop := hmeets.1
  have hmeets₂ : d.physicalStart < start + pages * 2 ^ 12 := hend ▸ hmeets.2
  have hpos := hok.lt_stop
  obtain ⟨a, hlow, hda, hstop, hhigh⟩ :
      ∃ a, start ≤ a ∧ d.physicalStart ≤ a ∧ a < d.stop ∧ a < start + pages * 2 ^ 12 :=
    ⟨max start d.physicalStart, Nat.le_max_left _ _, Nat.le_max_right _ _,
      max_lt hmeets₁ hpos, max_lt (by omega) hmeets₂⟩
  have hds := h.stacked
  obtain ⟨e, he, hea, htype⟩ := hds.typeOfByte_eq_some.1 (hb.free a hlow hhigh)
  obtain rfl := hds.has_inj hd he ⟨hda, hstop⟩ hea
  refine ⟨htype, ?_⟩
  rw [Exact, hend]
  change (2 ^ 12 ∣ start ∧ _ ∧ _) ∨ d.physicalStart ≤ start ∧ _ ∧ 2 ^ 12 ∣ _ - start
  rcases hb.whole with haligned | ⟨x, hx, hxlow, hxhigh⟩
  · exact .inl ⟨haligned, by omega, hok.aligned, hok.aligned_stop⟩
  · obtain rfl := hds.has_inj hd hx ⟨hda, hstop⟩ ⟨hxlow.trans hlow, hhigh.trans_le hxhigh⟩
    exact .inr ⟨hxlow, hxhigh, by omega⟩

/-- A region that is backed is carved. -/
theorem carved_of_backed (h : InOrder ds) (hpages : pages ≠ 0) (hb : Backed ds start pages)
    {res : Carved}
    (hloop : carveLoop (newDesc start pages memoryType) true (2 * ds.length + 1) 0 ds = some res) :
    ∃ F, res = .carved pages F := by
  have hend := descGetEnd_newDesc memoryType hb.fits
  have hds := h.stacked
  have hfits := hb.fits
  have hcard : (covered (newDesc start pages memoryType) ds).card = pages * 2 ^ 12 := by
    rw [card_covered_of_covers, hend]
    · change start + pages * 2 ^ 12 - start = _
      exact Nat.add_sub_cancel_left _ _
    · intro a hlow hhigh
      rw [hend] at hhigh
      obtain ⟨x, hx, hxa, -⟩ := hds.typeOfByte_eq_some.1 (hb.free a hlow hhigh)
      exact ⟨x, hx, hxa⟩
  have hproper : (newDesc start pages memoryType).physicalStart <
      descGetEnd (newDesc start pages memoryType) := by
    rw [hend]
    change start < _
    omega
  obtain ⟨k, F, rfl, hk⟩ := carveLoop_ram_eq hds (backing_of_backed h hpages hb) hproper
    (by rw [hcard, Nat.zero_mul]; omega) hloop
  rw [hcard, Nat.zero_mul, Nat.zero_add] at hk
  obtain rfl : k = pages := Nat.eq_of_mul_eq_mul_right (Nat.two_pow_pos 12) hk
  exact ⟨F, rfl⟩

theorem find?_meets {c : MemDesc} {pre post : List MemDesc} (hsplit : ds = pre ++ d :: post)
    (hpre : ∀ x ∈ pre, ¬Meets c x) (hmeets : Meets c d) : ds.find? (Meets c ·) = some d := by
  have hnone : pre.find? (Meets c ·) = none := by
    rw [List.find?_eq_none]
    exact fun x hx h ↦ hpre x hx (of_decide_eq_true h)
  rw [hsplit, List.find?_append, hnone, Option.none_or, List.find?_cons, decide_eq_true hmeets]

/-- A region that does not lie below its end splits an entry at its start, and nothing is carved. -/
theorem carveLoop_improper {c : MemDesc} (h : InOrder ds) (hfind : ds.find? (Meets c ·) = some d)
    (hfree : d.type = conventionalMemory) (himproper : descGetEnd c ≤ c.physicalStart) (n : ℕ) :
    ∃ F, carveLoop c true (n + 2) 0 ds = some (.carved 0 F) ∧
      (Unchanged ds F ↔ 2 ^ 12 ∣ c.physicalStart) := by
  have hds := h.stacked
  obtain ⟨hwalk, hnone⟩ | ⟨pre, y, post, hwalk, hsplit, hpre, hymeets, hytype⟩ |
    ⟨r, ds₁, pre, y, post, left, hwalk, hstep⟩ := carveWalk_ram_cases (c := c) hds.fits
  · have hp := List.find?_some hfind
    exact absurd (of_decide_eq_true hp) (hnone d (List.mem_of_find?_eq_some hfind))
  · obtain rfl := Option.some.inj (hfind.symm.trans (find?_meets hsplit hpre hymeets))
    exact absurd hfree hytype
  obtain rfl := Option.some.inj
    (hfind.symm.trans (find?_meets hstep.before hstep.first hstep.meets))
  have hok := h.ok d hstep.mem
  have haligned := hok.aligned_stop
  have hfits := hok.fits
  have hstacked := hstep.stacked hds
  obtain ⟨hmeets₁, hmeets₂⟩ := id hstep.meets
  obtain ⟨habove, hbelow⟩ := hstep.around hds
  have hlow : d.physicalStart < c.physicalStart := hmeets₂.trans_le himproper
  obtain ⟨rfl, rfl⟩ := hstep.split_eq hlow
  have hstop₁ := MemDesc.stop_part_eq (d := d) (v := c.physicalStart) hmeets₁.le hfits
  have hstop₂ := MemDesc.stop_part_eq (d := d) (v := d.virtualStart) hlow.le (hmeets₁.trans hfits)
  have hstop₃ := MemDesc.stop_part_le (d := d) (v := d.virtualStart) hlow.le (hmeets₁.trans hfits)
  have hmem : ∀ x, x ∈ ds₁ ↔ x ∈ pre ∨ x = d.part c.physicalStart c.physicalStart d.stop ∨
      x = d.part d.physicalStart d.virtualStart c.physicalStart ∨ x ∈ post := by
    intro x
    rw [hstep.after, List.mem_append, List.cons_append, List.mem_cons, List.cons_append,
      List.mem_cons, List.nil_append]
  have hnone : ∀ x ∈ ds₁, ¬Meets c x := by
    intro x hx hxmeets
    rcases (hmem x).1 hx with hx | rfl | rfl | hx
    · exact hstep.first x hx hxmeets
    · rw [Meets, MemDesc.part_physicalStart] at hxmeets
      exact Nat.not_lt.2 himproper hxmeets.2
    · exact Nat.not_lt.2 hstop₃ hxmeets.1
    · exact Nat.not_lt.2 ((hbelow x hx).trans hlow.le) hxmeets.1
  refine ⟨ds₁, ?_, fun hkeep ↦ ?_, fun hc ↦ ?_⟩
  · rw [carveLoop, hwalk]
    change carveLoop c true (n + 1) (add64 0 0) ds₁ = _
    obtain ⟨hwalk₁, -⟩ | ⟨pre₁, y, post₁, -, hsplit₁, -, hymeets, -⟩ |
      ⟨r, ds₂, pre₁, y, post₁, left, -, hstep₁⟩ := carveWalk_ram_cases (c := c) hstacked.fits
    · rw [carveLoop, hwalk₁]
      rfl
    · exact absurd hymeets (hnone y (hsplit₁ ▸ List.mem_append_right _ List.mem_cons_self))
    · exact absurd hstep₁.meets (hnone y hstep₁.mem)
  · -- The last byte of the entry is lost if a part of a page is split off.
    by_contra hc
    refine not_unchanged_of_lost hds (a := d.stop - 1) ⟨d, hstep.mem, ⟨by omega, by omega⟩, rfl⟩
      (fun x hx hxa ↦ ?_) hkeep
    obtain ⟨hxlow, hxhigh⟩ := hxa
    rcases (hmem x).1 hx with hx | rfl | rfl | hx
    · have := habove x hx
      omega
    · rw [hstop₁] at hxhigh
      omega
    · omega
    · have := hbelow x hx
      omega
  · refine unchanged_of_holds hds hstacked fun a t ↦ ⟨hstep.holds hds, ?_⟩
    rintro ⟨x, hx, hxa, ht⟩
    have halign₁ := hok.aligned
    rw [hstep.before, List.mem_append, List.mem_cons] at hx
    rcases hx with hx | rfl | hx
    · exact ⟨x, (hmem x).2 (.inl hx), hxa, ht⟩
    · obtain ⟨hxlow, hxhigh⟩ := hxa
      by_cases ha : a < c.physicalStart
      · refine ⟨_, (hmem _).2 (.inr (.inr (.inl rfl))), ⟨?_, ?_⟩,
          (MemDesc.part_type _ _ _).trans ht⟩
        · rw [MemDesc.part_physicalStart]
          exact hxlow
        · rw [hstop₂]
          omega
      · refine ⟨_, (hmem _).2 (.inr (.inl rfl)), ⟨?_, ?_⟩, (MemDesc.part_type _ _ _).trans ht⟩
        · rw [MemDesc.part_physicalStart]
          exact Nat.not_lt.1 ha
        · rw [hstop₁]
          omega
    · exact ⟨x, (hmem x).2 (.inr (.inr (.inr hx))), hxa, ht⟩

theorem newDesc_physicalStart : (newDesc start pages memoryType).physicalStart = start := by
  rw [newDesc]

/-- A refused addition changes nothing exactly if it is safe. -/
theorem addKeeps_iff (h : InOrder ds) (start pages : ℕ) (memoryType : ℤ) :
    AddKeeps ds start pages memoryType ↔ AddSafe ds start pages memoryType := by
  have hds := h.stacked
  by_cases hmax : maxMemoryType ≤ memoryType
  · refine iff_of_true (fun st ds' hrun _ ↦ ?_) (.inl hmax)
    rw [efiAddMemoryMap, if_pos hmax] at hrun
    obtain ⟨-, rfl⟩ := Prod.mk.inj (Option.some.inj hrun)
    exact fun a ↦ rfl
  by_cases hpages : pages = 0
  · refine iff_of_true (fun st ds' hrun hst ↦ ?_) (.inr (.inl hpages))
    rw [efiAddMemoryMap, if_neg hmax, if_pos hpages] at hrun
    obtain ⟨rfl, -⟩ := Prod.mk.inj (Option.some.inj hrun)
    exact absurd rfl hst
  have hmax' := Int.not_le.1 hmax
  obtain ⟨res, hloop, hended⟩ := carveLoop_ram_ended (k := 0) hds
    (Nat.lt_succ_of_le (sum_meetings_le (newDesc start pages memoryType) ds))
  -- It is enough to know what the loop leaves, and whether it counts all pages.
  have hkeeps : AddKeeps ds start pages memoryType ↔
      (∃ F, res = .carved pages F) ∨ Unchanged ds res.map := by
    rcases efiAddMemoryMap_ram_eq hmax' hpages hloop with ⟨hne, hrun⟩ | ⟨F, rfl, hrun⟩
    · constructor
      · exact fun hkeep ↦ .inr (hkeep _ _ hrun (by rintro ⟨⟩))
      · rintro (⟨F, hF⟩ | hsame) st ds' hrun' -
        · exact absurd hF (hne F)
        · obtain ⟨-, rfl⟩ := Prod.mk.inj (Option.some.inj (hrun.symm.trans hrun'))
          exact hsame
    · refine iff_of_true (fun st ds' hrun' hst ↦ ?_) (.inl ⟨F, rfl⟩)
      rw [hrun, Option.map_eq_some_iff] at hrun'
      obtain ⟨ds₁, -, heq⟩ := hrun'
      exact absurd (Prod.mk.inj heq).1.symm hst
  rw [hkeeps, AddSafe, or_iff_right hmax, or_iff_right hpages]
  obtain ⟨c, hc⟩ : ∃ c, c = newDesc start pages memoryType := ⟨_, rfl⟩
  have hstart : c.physicalStart = start := by rw [hc, newDesc_physicalStart]
  rw [RefusedAtOnce, ← hc]
  rw [← hc] at hloop hended
  cases hfind : ds.find? (Meets c ·) with
  | none =>
    refine iff_of_true (.inr ?_) (.inl fun e he ↦ by cases he)
    obtain ⟨hwalk, -⟩ | ⟨pre, y, post, -, hsplit, hpre, hymeets, -⟩ |
      ⟨r, ds₁, pre, y, post, left, -, hstep⟩ := carveWalk_ram_cases (c := c) hds.fits
    · rw [carveLoop, hwalk] at hloop
      obtain rfl := Option.some.inj hloop
      exact fun a ↦ rfl
    · rw [find?_meets hsplit hpre hymeets] at hfind
      cases hfind
    · rw [find?_meets hstep.before hstep.first hstep.meets] at hfind
      cases hfind
  | some d =>
    have hd : d ∈ ds := List.mem_of_find?_eq_some hfind
    by_cases htype : d.type = conventionalMemory
    swap
    · refine iff_of_true (.inr ?_) (.inl fun e he ↦ Option.some.inj he ▸ htype)
      obtain ⟨hwalk, hnone⟩ | ⟨pre, y, post, hwalk, -⟩ |
        ⟨r, ds₁, pre, y, post, left, hwalk, hstep⟩ := carveWalk_ram_cases (c := c) hds.fits
      · have hp := List.find?_some hfind
        exact absurd (of_decide_eq_true hp) (hnone d hd)
      · rw [carveLoop, hwalk] at hloop
        obtain rfl := Option.some.inj hloop
        exact fun a ↦ rfl
      · obtain rfl := Option.some.inj
          (hfind.symm.trans (find?_meets hstep.before hstep.first hstep.meets))
        exact absurd hstep.free htype
    have hnot : ¬∀ e, some d = some e → e.type ≠ conventionalMemory := fun hall ↦ hall d rfl htype
    rw [or_iff_right hnot]
    by_cases hproper : start < descGetEnd c
    · have himproper : ¬(descGetEnd c ≤ start ∧ 2 ^ 12 ∣ start) := fun hle ↦
        Nat.not_lt.2 hle.1 hproper
      rw [or_iff_right himproper]
      constructor
      · rintro (⟨F, rfl⟩ | hsame)
        · exact backed_of_carved h hpages (hc ▸ hloop)
        · obtain ⟨hmeets, pre, post, hsplit, hpre⟩ := List.find?_eq_some_iff_append.1 hfind
          have hpre' : ∀ x ∈ pre, ¬Meets c x := fun x hx ↦ by simpa using hpre x hx
          exact absurd hsame (hended.lost hds hsplit hpre' (of_decide_eq_true hmeets) htype
            (h.ok d hd).lt_stop (hstart ▸ hproper))
      · exact fun hb ↦ .inl (carved_of_backed h hpages hb (hc ▸ hloop))
    · have hle := Nat.not_lt.1 hproper
      have hlen : ∃ n, 2 * ds.length + 1 = n + 2 := by
        have := List.length_pos_of_mem hd
        exact ⟨2 * ds.length - 1, by omega⟩
      obtain ⟨n, hn⟩ := hlen
      obtain ⟨F, hrun, hiff⟩ := carveLoop_improper h hfind htype (hstart ▸ hle) n
      rw [← hn, hloop] at hrun
      obtain rfl := Option.some.inj hrun
      rw [hstart] at hiff
      have hunbacked : ¬Backed ds start pages := by
        intro hb
        rw [hc, descGetEnd_newDesc memoryType hb.fits] at hle
        omega
      have hzero : ¬∃ F', Carved.carved 0 F = .carved pages F' := by
        rintro ⟨F', heq⟩
        exact hpages (Carved.carved.inj heq).1.symm
      rw [or_iff_right hzero, or_iff_left hunbacked, and_iff_right hle]
      exact hiff

/-! ## Searching -/

/-- A run of `len` bytes of free memory starts at the address, and ends at the limit or before
it. -/
def Run (ds : List MemDesc) (len limit a : ℕ) : Prop :=
  a ≠ 0 ∧ 2 ^ 12 ∣ a ∧ a + len ≤ limit ∧
    ∃ d ∈ ds, d.type = conventionalMemory ∧ d.physicalStart ≤ a ∧ a + len ≤ d.stop

/-- The highest of the runs. -/
def Highest (ds : List MemDesc) (len limit a : ℕ) : Prop :=
  Run ds len limit a ∧ ∀ b, Run ds len limit b → b ≤ a

theorem Highest.eq {len limit a b : ℕ} (ha : Highest ds len limit a) (hb : Highest ds len limit b) :
    a = b :=
  le_antisymm (hb.2 a ha.1) (ha.2 b hb.1)

/-- What the search gives: the highest run if there is one, and else 0 or an address from which the
range wraps. -/
structure Found (ds : List MemDesc) (len limit a : ℕ) : Prop where
  aligned : 2 ^ 12 ∣ a
  lt : a < 2 ^ 64
  run : (∃ b, Run ds len limit b) → Highest ds len limit a
  none : (¬∃ b, Run ds len limit b) → a = 0 ∨ 2 ^ 64 ≤ a + len

theorem run_cons {len limit a : ℕ} : Run (d :: ds) len limit a ↔
    (a ≠ 0 ∧ 2 ^ 12 ∣ a ∧ a + len ≤ limit ∧ d.type = conventionalMemory ∧ d.physicalStart ≤ a ∧
      a + len ≤ d.stop) ∨ Run ds len limit a := by
  constructor
  · rintro ⟨h₁, h₂, h₃, e, he, h₄⟩
    rcases List.mem_cons.1 he with rfl | he
    · exact .inl ⟨h₁, h₂, h₃, h₄⟩
    · exact .inr ⟨h₁, h₂, h₃, e, he, h₄⟩
  · rintro (⟨h₁, h₂, h₃, h₄⟩ | ⟨h₁, h₂, h₃, e, he, h₄⟩)
    · exact ⟨h₁, h₂, h₃, d, List.mem_cons_self, h₄⟩
    · exact ⟨h₁, h₂, h₃, e, List.mem_cons_of_mem _ he, h₄⟩

/-- An entry in which there is no run does not matter to the search. -/
theorem Found.cons {len limit a : ℕ} (h : Found ds len limit a)
    (hno : ∀ b, ¬(b ≠ 0 ∧ 2 ^ 12 ∣ b ∧ b + len ≤ limit ∧ d.type = conventionalMemory ∧
      d.physicalStart ≤ b ∧ b + len ≤ d.stop)) : Found (d :: ds) len limit a where
  aligned := h.aligned
  lt := h.lt
  run := by
    rintro ⟨b, hb⟩
    obtain ⟨hrun, hhighest⟩ := h.run ⟨b, (run_cons.1 hb).resolve_left (hno b)⟩
    exact ⟨run_cons.2 (.inr hrun), fun c hc ↦ hhighest c ((run_cons.1 hc).resolve_left (hno c))⟩
  none hnone := h.none fun ⟨b, hb⟩ ↦ hnone ⟨b, run_cons.2 (.inr hb)⟩

section

variable {limit len : ℕ} (h : InOrder (d :: ds)) (hlen : 2 ^ 12 ∣ len) (hlimit : 2 ^ 12 ∣ limit)

include h

/-- No run lies higher than the end of the highest entry that the limit leaves. -/
theorem Run.add_le {b : ℕ} (hb : Run (d :: ds) len limit b) : b + len ≤ min limit d.stop := by
  refine le_min hb.2.2.1 ?_
  obtain ⟨-, hlow, -⟩ := inOrder_cons.1 h
  obtain ⟨-, -, -, e, he, -, -, hstop⟩ := hb
  rcases List.mem_cons.1 he with rfl | he
  · exact hstop
  · exact hstop.trans ((hlow e he).trans d.start_le_stop)

include hlen hlimit

/-- An entry with room for the range gives its highest place. -/
theorem found_room (hlimit' : limit < 2 ^ 64) (htype : d.type = conventionalMemory)
    (hroom : len ≤ min limit d.stop) (hfit : d.physicalStart ≤ min limit d.stop - len) :
    Found (d :: ds) len limit (min limit d.stop - len) := by
  have hd := (inOrder_cons.1 h).1
  have hmin : 2 ^ 12 ∣ min limit d.stop := min_rec' (2 ^ 12 ∣ ·) hlimit hd.aligned_stop
  have hmin₁ := Nat.min_le_left limit d.stop
  have hmin₂ := Nat.min_le_right limit d.stop
  have hthis : min limit d.stop - len ≠ 0 → Run (d :: ds) len limit (min limit d.stop - len) :=
    fun hne ↦ run_cons.2 (.inl ⟨hne, Nat.dvd_sub hmin hlen, by omega, htype, hfit, by omega⟩)
  have hhighest : ∀ b, Run (d :: ds) len limit b → b ≤ min limit d.stop - len :=
    fun b hb ↦ Nat.le_sub_of_add_le (hb.add_le h)
  refine ⟨Nat.dvd_sub hmin hlen, by omega, ?_, fun hnone ↦ .inl ?_⟩
  · rintro ⟨b, hb⟩
    have hle := hhighest b hb
    have hne := hb.1
    exact ⟨hthis (by omega), hhighest⟩
  · by_contra hne
    exact hnone ⟨_, hthis hne⟩

/-- Where the end lies too low for the range, the start that is computed wraps. -/
theorem found_wrapped (hlen' : len < 2 ^ 64) (hroom : min limit d.stop < len) :
    Found (d :: ds) len limit (min limit d.stop + 2 ^ 64 - len) := by
  have hd := (inOrder_cons.1 h).1
  have hmin : 2 ^ 12 ∣ min limit d.stop := min_rec' (2 ^ 12 ∣ ·) hlimit hd.aligned_stop
  refine ⟨Nat.dvd_sub (Nat.dvd_add hmin (by decide)) hlen, by omega, ?_, fun _ ↦ .inr (by omega)⟩
  rintro ⟨b, hb⟩
  have := hb.add_le h
  omega

end

/-- The search goes through the map from the highest entry to the lowest one. -/
theorem findFreeLoop_found (h : InOrder ds) (limit : ℕ) {len : ℕ} (hlen : 2 ^ 12 ∣ len)
    (hlen' : len < 2 ^ 64) (hlimit : 2 ^ 12 ∣ limit) (hlimit' : limit < 2 ^ 64) :
    Found ds len limit (findFreeLoop len limit ds) := by
  induction ds with
  | nil =>
    refine ⟨Nat.dvd_zero _, Nat.two_pow_pos 64, ?_, fun _ ↦ .inl rfl⟩
    rintro ⟨b, hb⟩
    exact absurd hb.2.2.2 (by simp)
  | cons d ds ih =>
    obtain ⟨hd, -, hds⟩ := inOrder_cons.1 h
    have hfound := ih hds
    have hend : add64 d.physicalStart (pageBytes d.numPages) = d.stop := hd.descGetEnd_eq
    have hmin₁ := Nat.min_le_left limit d.stop
    have hmin₂ := Nat.min_le_right limit d.stop
    rw [findFreeLoop, hend]
    by_cases htype : d.type = conventionalMemory
    swap
    · rw [if_pos htype]
      exact hfound.cons fun b hb ↦ htype hb.2.2.2.1
    have hret : add64 (sub64 (min limit d.stop) len) len = min limit d.stop := by
      rw [add64, sub64]
      omega
    rw [if_neg (not_not.2 htype), hret, if_neg (Nat.not_lt.2 hmin₁), if_neg (Nat.not_lt.2 hmin₂)]
    by_cases hroom : len ≤ min limit d.stop
    · rw [sub64_eq hroom (hmin₁.trans_lt hlimit')]
      by_cases hfit : min limit d.stop - len < d.physicalStart
      · rw [if_pos hfit]
        apply hfound.cons
        rintro b ⟨-, -, hb, -, hstart, hstop⟩
        have := le_min hb hstop
        omega
      · rw [if_neg hfit]
        exact found_room h hlen hlimit hlimit' htype hroom (Nat.not_lt.1 hfit)
    · rw [Nat.not_le] at hroom
      have hsub : sub64 (min limit d.stop) len = min limit d.stop + 2 ^ 64 - len := by
        rw [sub64]
        omega
      rw [hsub]
      by_cases hfit : min limit d.stop + 2 ^ 64 - len < d.physicalStart
      · rw [if_pos hfit]
        apply hfound.cons
        rintro b ⟨-, -, hb, -, -, hstop⟩
        have := le_min hb hstop
        omega
      · rw [if_neg hfit]
        exact found_wrapped h hlen hlimit hlen' hroom

theorem sizeBytes_dvd (width n : ℕ) : 2 ^ 12 ∣ sizeBytes width n := by
  rw [sizeBytes]
  rcases le_total 12 width with hle | hle
  · exact (Nat.dvd_mod_iff (pow_dvd_pow 2 hle)).2 (Nat.dvd_mul_left _ _)
  · rw [Nat.mod_eq_zero_of_dvd ((pow_dvd_pow 2 hle).trans (Nat.dvd_mul_left _ _))]
    exact Nat.dvd_zero _

theorem sizeBytes_lt {width : ℕ} (hwidth : width ≤ 64) (n : ℕ) : sizeBytes width n < 2 ^ 64 :=
  (Nat.mod_lt _ (Nat.two_pow_pos width)).trans_le (Nat.pow_le_pow_right (by decide) hwidth)

/-- The bytes that are searched for are no more than those of the region. -/
theorem sizeBytes_le {width : ℕ} (hwidth : width ≤ 64) (n : ℕ) :
    sizeBytes width n ≤ pageBytes n := by
  rw [sizeBytes, pageBytes, ← Nat.mod_mod_of_dvd (n * 2 ^ 12) (pow_dvd_pow 2 hwidth)]
  exact Nat.mod_le _ _

theorem sizeBytes_eq {width n : ℕ} (h : n * 2 ^ 12 < 2 ^ width) : sizeBytes width n = n * 2 ^ 12 :=
  Nat.mod_eq_of_lt h

theorem run_limit {len limit a : ℕ} (hlen : 2 ^ 12 ∣ len) :
    Run ds len (limit / 2 ^ 12 * 2 ^ 12) a ↔ Run ds len limit a := by
  rw [Run, Run]
  constructor
  · rintro ⟨h₁, h₂, h₃, h₄⟩
    exact ⟨h₁, h₂, by omega, h₄⟩
  · rintro ⟨h₁, h₂, h₃, h₄⟩
    exact ⟨h₁, h₂, by omega, h₄⟩

/-- `efi_find_free_memory`. -/
theorem efiFindFreeMemory_found (h : InOrder ds) {width : ℕ} (hwidth : width ≤ 64) (pages : ℕ)
    {limit : ℕ} (hlimit : limit < 2 ^ 64) :
    Found ds (sizeBytes width pages) limit
      (efiFindFreeMemory ds (sizeBytes width pages) limit) := by
  have hdvd := sizeBytes_dvd width pages
  obtain ⟨haligned, hlt, hrun, hnone⟩ := findFreeLoop_found h (limit / 2 ^ 12 * 2 ^ 12) hdvd
    (sizeBytes_lt hwidth pages) (Nat.dvd_mul_left _ _) (by omega)
  simp only [Highest, run_limit hdvd] at hrun hnone
  exact ⟨haligned, hlt, hrun, hnone⟩

/-! ## Allocating -/

variable {width : ℕ} {type : ℤ} {memory : ℕ}

/-- If `efi_allocate_pages` returns an error, the map is as before. -/
def AllocKeeps (width : ℕ) (ds : List MemDesc) (type memoryType : ℤ) (pages memory : ℕ) : Prop :=
  ∀ st ds' m, efiAllocatePages width ds type memoryType pages memory = some (st, ds', m) →
    st ≠ .success → Unchanged ds ds'

/-- The number of bytes to search for does not wrap, or the pages can safely be added at the highest
run of as many bytes as are searched for. -/
def SearchSafe (width : ℕ) (ds : List MemDesc) (memoryType : ℤ) (pages limit : ℕ) : Prop :=
  pages * 2 ^ 12 < 2 ^ width ∨
    ∀ a, Highest ds (sizeBytes width pages) limit a → AddSafe ds a pages memoryType

/-- The call is refused before the map is touched, or the addition is safe. -/
def AllocSafe (width : ℕ) (ds : List MemDesc) (type memoryType : ℤ) (pages memory : ℕ) : Prop :=
  persistentMemoryType ≤ memoryType ∨
    ((type = allocateAnyPages → SearchSafe width ds memoryType pages (2 ^ 64 - 1)) ∧
      (type = allocateMaxAddress → SearchSafe width ds memoryType pages memory) ∧
      (type = allocateAddress → typeOfByte ds memory = some conventionalMemory →
        AddSafe ds memory pages memoryType))

/-- The end of an allocation keeps the map if the addition does. -/
theorem reservePages_keeps {addr : ℕ} :
    (∀ st ds' m, reservePages ds addr pages memoryType memory = some (st, ds', m) →
      st ≠ .success → Unchanged ds ds') ↔ AddKeeps ds addr pages memoryType := by
  unfold reservePages AddKeeps
  constructor
  · intro h st ds' hrun hst
    refine h .outOfResources ds' memory ?_ nofun
    rw [hrun]
    change (if st ≠ .success then _ else _) = _
    rw [if_pos hst]
  · intro h st ds' m hrun hst
    simp only [Option.bind_eq_bind, Option.bind_eq_some_iff] at hrun
    obtain ⟨⟨st₁, ds₁⟩, hadd, hrun⟩ := hrun
    dsimp only at hrun
    by_cases hst₁ : st₁ = .success
    · rw [if_neg (not_not.2 hst₁)] at hrun
      exact absurd (Prod.mk.inj (Option.some.inj hrun)).1.symm hst
    · rw [if_pos hst₁] at hrun
      obtain ⟨-, hrun⟩ := Prod.mk.inj (Option.some.inj hrun)
      obtain ⟨rfl, -⟩ := Prod.mk.inj hrun
      exact h st₁ ds₁ hadd hst₁

theorem Run.backed {limit a : ℕ} (h : InOrder ds) (hrun : Run ds (pages * 2 ^ 12) limit a) :
    Backed ds a pages := by
  obtain ⟨-, haligned, -, d, hd, htype, hlow, hhigh⟩ := hrun
  have hfits := (h.ok d hd).fits
  exact ⟨hhigh.trans_lt hfits, fun b hb hb' ↦ h.stacked.typeOfByte_eq_some.2
    ⟨d, hd, ⟨hlow.trans hb, hb'.trans_le hhigh⟩, htype⟩, .inl haligned⟩

/-- Without a run, a search that gives an address gives one from which the region wraps. -/
theorem Found.wraps {limit a : ℕ} (hwidth : width ≤ 64)
    (hfound : Found ds (sizeBytes width pages) limit a)
    (hrun : ¬∃ b, Run ds (sizeBytes width pages) limit b) (ha : a ≠ 0) :
    2 ^ 64 ≤ a + pageBytes pages :=
  ((hfound.none hrun).resolve_left ha).trans (Nat.add_le_add_left (sizeBytes_le hwidth pages) a)

/-- The search is followed by an addition that is safe exactly if the search is. -/
theorem addSafe_found {limit a : ℕ} (h : InOrder ds) (hwidth : width ≤ 64)
    (hfound : Found ds (sizeBytes width pages) limit a) (ha : a ≠ 0) :
    AddSafe ds a pages memoryType ↔ SearchSafe width ds memoryType pages limit := by
  by_cases hrun : ∃ b, Run ds (sizeBytes width pages) limit b
  · have hthis := hfound.run hrun
    refine ⟨fun hsafe ↦ .inr fun b hb ↦ hb.eq hthis ▸ hsafe, ?_⟩
    rintro (hsmall | hsafe)
    · rw [sizeBytes_eq hsmall] at hthis
      exact .inr (.inr (.inr (.inr (hthis.1.backed h))))
    · exact hsafe a hthis
  · have hwraps := hfound.wraps hwidth hrun ha
    have halt := hfound.lt
    have hlt : pageBytes pages < 2 ^ 64 := Nat.mod_lt _ (by decide)
    have hend : descGetEnd (newDesc a pages memoryType) = (a + pageBytes pages) % 2 ^ 64 := by
      rw [descGetEnd, add64, newDesc]
    refine iff_of_true (.inr (.inr (.inr (.inl ⟨?_, hfound.aligned⟩))))
      (.inr fun b hb ↦ absurd ⟨b, hb.1⟩ hrun)
    rw [hend]
    omega

/-- Every error of a call leaves the map alone. -/
def Keeps (ds : List MemDesc) (r : Option (PageStatus × List MemDesc × ℕ)) : Prop :=
  ∀ st ds' m, r = some (st, ds', m) → st ≠ .success → Unchanged ds ds'

theorem keeps_same (s : PageStatus) (m : ℕ) : Keeps ds (some (s, ds, m)) := by
  intro st ds' m' heq _
  obtain ⟨-, heq⟩ := Prod.mk.inj (Option.some.inj heq)
  obtain ⟨rfl, -⟩ := Prod.mk.inj heq
  exact fun a ↦ rfl

theorem keeps_reservePages (h : InOrder ds) (addr : ℕ) :
    Keeps ds (reservePages ds addr pages memoryType memory) ↔ AddSafe ds addr pages memoryType :=
  reservePages_keeps.trans (addKeeps_iff h addr pages memoryType)

/-- The search, and what follows it. -/
theorem keeps_search (h : InOrder ds) (hwidth : width ≤ 64) {limit : ℕ} (hlimit : limit < 2 ^ 64)
    {addr : ℕ} (haddr : addr = efiFindFreeMemory ds (sizeBytes width pages) limit) :
    Keeps ds (if addr = 0 then some (.outOfResources, ds, memory)
      else reservePages ds addr pages memoryType memory) ↔
        SearchSafe width ds memoryType pages limit := by
  have hfound := efiFindFreeMemory_found h hwidth pages hlimit
  rw [← haddr] at hfound
  by_cases hzero : addr = 0
  · rw [if_pos hzero]
    refine iff_of_true (keeps_same _ _) (.inr fun a ha ↦ ?_)
    exact absurd hzero (hfound.run ⟨a, ha.1⟩).1.1
  · rw [if_neg hzero, keeps_reservePages h, addSafe_found h hwidth hfound hzero]

/-- A refused allocation changes nothing exactly if it is safe. -/
theorem allocKeeps_iff (h : InOrder ds) (hwidth : width ≤ 64) (type memoryType : ℤ) (pages : ℕ)
    {memory : ℕ} (hmemory : memory < 2 ^ 64) :
    AllocKeeps width ds type memoryType pages memory ↔
      AllocSafe width ds type memoryType pages memory := by
  change Keeps ds (efiAllocatePages width ds type memoryType pages memory) ↔ _
  rw [AllocSafe, efiAllocatePages]
  dsimp only
  by_cases hpersist : persistentMemoryType ≤ memoryType ∧ memoryType ≤ 0x6FFFFFFF
  · rw [if_pos hpersist]
    exact iff_of_true (keeps_same _ _) (.inl hpersist.1)
  rw [if_neg hpersist]
  by_cases hlarge : persistentMemoryType ≤ memoryType
  · -- The addition refuses a type that is too large.
    have hmax : maxMemoryType ≤ memoryType := by
      rw [not_and, Int.not_le] at hpersist
      have := hpersist hlarge
      rw [maxMemoryType]
      omega
    have hreserve : ∀ addr, Keeps ds (reservePages ds addr pages memoryType memory) :=
      fun addr ↦ (keeps_reservePages h addr).2 (.inl hmax)
    refine iff_of_true ?_ (.inl hlarge)
    split_ifs
    · exact keeps_same _ _
    · exact hreserve _
    · exact keeps_same _ _
    · exact hreserve _
    · exact keeps_same _ _
    · exact hreserve _
    · exact keeps_same _ _
  rw [or_iff_right hlarge]
  by_cases hany : type = allocateAnyPages
  · subst hany
    rw [if_pos rfl, keeps_search h hwidth (Nat.sub_lt (Nat.two_pow_pos 64) Nat.one_pos) rfl]
    exact ⟨fun hs ↦ ⟨fun _ ↦ hs, nofun, nofun⟩, fun hs ↦ hs.1 rfl⟩
  rw [if_neg hany]
  by_cases hlimit : type = allocateMaxAddress
  · subst hlimit
    rw [if_pos rfl, keeps_search h hwidth hmemory rfl]
    exact ⟨fun hs ↦ ⟨nofun, fun _ ↦ hs, nofun⟩, fun hs ↦ hs.2.1 rfl⟩
  rw [if_neg hlimit]
  by_cases haddress : type = allocateAddress
  · subst haddress
    rw [if_pos rfl]
    have hfree : efiCheckAllocated ds memory false = .success ↔
        typeOfByte ds memory = some conventionalMemory := by
      rw [efiCheckAllocated_eq_success h]
      constructor
      · rintro ⟨t, ht, hne⟩
        rwa [not_not.1 fun hc ↦ Bool.false_ne_true (hne.2 hc)] at ht
      · exact fun ht ↦ ⟨_, ht, iff_of_false Bool.false_ne_true fun hne ↦ hne rfl⟩
    by_cases hcheck : efiCheckAllocated ds memory false = .success
    · rw [if_neg (not_not.2 hcheck), keeps_reservePages h]
      exact ⟨fun hs ↦ ⟨nofun, nofun, fun _ _ ↦ hs⟩, fun hs ↦ hs.2.2 rfl (hfree.1 hcheck)⟩
    · rw [if_pos hcheck]
      exact iff_of_true (keeps_same _ _)
        ⟨nofun, nofun, fun _ ht ↦ absurd (hfree.2 ht) hcheck⟩
  · rw [if_neg haddress]
    exact iff_of_true (keeps_same _ _) ⟨fun ht ↦ absurd ht hany, fun ht ↦ absurd ht hlimit,
      fun ht ↦ absurd ht haddress⟩

/-- A refused addition, and a refused allocation, leave the map alone exactly in the cases named. -/
theorem refused_keeps_iff (h : InOrder ds) :
    (∀ start pages memoryType,
      AddKeeps ds start pages memoryType ↔ AddSafe ds start pages memoryType) ∧
    ∀ width type memoryType pages memory, width ≤ 64 → memory < 2 ^ 64 →
      (AllocKeeps width ds type memoryType pages memory ↔
        AllocSafe width ds type memoryType pages memory) :=
  ⟨addKeeps_iff h, fun _ type memoryType pages _ hwidth hmemory ↦
    allocKeeps_iff h hwidth type memoryType pages hmemory⟩

theorem refused_keeps_iff_small :
    (∀ start pages memoryType, AddKeeps allocatedBelowFree start pages memoryType ↔
      AddSafe allocatedBelowFree start pages memoryType) ∧
    ∀ width type memoryType pages memory, width ≤ 64 → memory < 2 ^ 64 →
      (AllocKeeps width allocatedBelowFree type memoryType pages memory ↔
        AllocSafe width allocatedBelowFree type memoryType pages memory) :=
  refused_keeps_iff allocatedBelowFree_inOrder

/-- Two pages are asked for of which the lower one is allocated: the upper one is gone. -/
theorem not_refused_keeps_carved : InOrder allocatedBelowFree ∧
    ¬AddKeeps allocatedBelowFree 0x1000 2 4 := by
  refine ⟨allocatedBelowFree_inOrder, fun hkeep ↦ ?_⟩
  have hrun : efiAddMemoryMap allocatedBelowFree 0x1000 2 4 true =
      some (.noMapping, [⟨4, 0x1000, 0x1000, 1, memoryWb⟩]) := by
    decide +kernel
  exact absurd (hkeep _ _ hrun nofun 0x2000) (by decide)

end MiniPi.Efi
