import MiniPi.Efi.Map

/-!
# Allocating and freeing pages

`efi_allocate_pages` and `efi_free_pages`, on the memory map.  `efi_uintn_t` is `size_t`, whose
width is a parameter: it has 32 bits on this board, and 64 on others.

`efi_free_pages` looks at the first page of the range and frees all of it, so it is right only where
the whole range is allocated.
-/

namespace MiniPi.Efi

variable {ds : List MemDesc}

/-- `efi_status_t`, as far as the page services return it. -/
inductive PageStatus
  | success
  | invalidParameter
  | notFound
  | outOfResources
deriving DecidableEq, Repr

/-- `EFI_PERSISTENT_MEMORY_TYPE`. -/
def persistentMemoryType : ℤ := 14

/-- `EFI_ALLOCATE_ANY_PAGES`. -/
def allocateAnyPages : ℤ := 0

/-- `EFI_ALLOCATE_MAX_ADDRESS`. -/
def allocateMaxAddress : ℤ := 1

/-- `EFI_ALLOCATE_ADDRESS`. -/
def allocateAddress : ℤ := 2

/-- `efi_check_allocated`. -/
def efiCheckAllocated (efiMem : List MemDesc) (addr : ℕ) (mustBeAllocated : Bool) : PageStatus :=
  match efiMem.find? fun item ↦ decide (item.physicalStart ≤ addr ∧ addr < descGetEnd item) with
  | some item =>
    if mustBeAllocated ^^ decide (item.type = conventionalMemory) then .success else .notFound
  | none => .notFound

/-- The loop of `efi_find_free_memory`, for a limit at a page. -/
def findFreeLoop (len maxAddr : ℕ) : List MemDesc → ℕ
  | [] => 0
  | desc :: rest =>
    let descEnd := add64 desc.physicalStart (pageBytes desc.numPages)
    let curmax := min maxAddr descEnd
    let ret := sub64 curmax len
    -- We only take memory from free RAM.
    if desc.type ≠ conventionalMemory then findFreeLoop len maxAddr rest
    else if maxAddr < add64 ret len then findFreeLoop len maxAddr rest
    else if descEnd < add64 ret len then findFreeLoop len maxAddr rest
    else if ret < desc.physicalStart then findFreeLoop len maxAddr rest
    else ret

/-- `efi_find_free_memory`. -/
def efiFindFreeMemory (efiMem : List MemDesc) (len maxAddr : ℕ) : ℕ :=
  findFreeLoop len (maxAddr / 2 ^ 12 * 2 ^ 12) efiMem

/-- The end of `efi_allocate_pages`, which reserves the pages. -/
def reservePages (efiMem : List MemDesc) (addr pages : ℕ) (memoryType : ℤ) (memory : ℕ) :
    Option (PageStatus × List MemDesc × ℕ) := do
  let (st, efiMem) ← efiAddMemoryMap efiMem addr pages memoryType true
  if st ≠ .success then some (.outOfResources, efiMem, memory)
  else some (.success, efiMem, addr)

/-- `pages << EFI_PAGE_SHIFT`, in an `efi_uintn_t` of `width` bits. -/
def sizeBytes (width pages : ℕ) : ℕ := pages * 2 ^ 12 % 2 ^ width

/-- `efi_allocate_pages`, with what is stored through the pointer `memory`.  The number of bytes to
search for is counted in an `efi_uintn_t`. -/
def efiAllocatePages (width : ℕ) (efiMem : List MemDesc) (type memoryType : ℤ) (pages memory : ℕ) :
    Option (PageStatus × List MemDesc × ℕ) :=
  let len := sizeBytes width pages
  if persistentMemoryType ≤ memoryType ∧ memoryType ≤ 0x6FFFFFFF then
    some (.invalidParameter, efiMem, memory)
  else if type = allocateAnyPages then
    let addr := efiFindFreeMemory efiMem len (2 ^ 64 - 1)
    if addr = 0 then some (.outOfResources, efiMem, memory)
    else reservePages efiMem addr pages memoryType memory
  else if type = allocateMaxAddress then
    let addr := efiFindFreeMemory efiMem len memory
    if addr = 0 then some (.outOfResources, efiMem, memory)
    else reservePages efiMem addr pages memoryType memory
  else if type = allocateAddress then
    if efiCheckAllocated efiMem memory false ≠ .success then some (.notFound, efiMem, memory)
    else reservePages efiMem memory pages memoryType memory
  else some (.invalidParameter, efiMem, memory)

/-- `efi_free_pages`. -/
def efiFreePages (efiMem : List MemDesc) (memory pages : ℕ) : Option (PageStatus × List MemDesc) :=
  if efiCheckAllocated efiMem memory true ≠ .success then some (.notFound, efiMem)
  else if memory = 0 ∨ memory % 2 ^ 12 ≠ 0 ∨ pages = 0 then some (.invalidParameter, efiMem)
  else do
    let (st, efiMem) ← efiAddMemoryMap efiMem memory pages conventionalMemory false
    if st ≠ .success then some (.notFound, efiMem) else some (.success, efiMem)

/-! ## The types of addresses -/

/-- The type of the byte at an address, if the map has it. -/
def typeOfByte (ds : List MemDesc) (a : ℕ) : Option ℕ :=
  (ds.find? fun d ↦ decide (d.physicalStart ≤ a ∧ a < d.stop)).map fun d ↦ d.type

theorem typeAt_eq_typeOfByte (ds : List MemDesc) (p : ℕ) :
    typeAt ds p = typeOfByte ds (p * 2 ^ 12) := rfl

/-- The lookup of an address in a map whose regions do not wrap. -/
theorem find?_descGetEnd (h : ∀ d ∈ ds, d.Ok) (a : ℕ) :
    (ds.find? fun item ↦ decide (item.physicalStart ≤ a ∧ a < descGetEnd item)) =
      ds.find? fun d ↦ decide (d.physicalStart ≤ a ∧ a < d.stop) := by
  induction ds with
  | nil => rfl
  | cons d ds ih =>
    obtain ⟨hd, hds⟩ := List.forall_mem_cons.1 h
    rw [List.find?_cons, List.find?_cons, hd.descGetEnd_eq, ih hds]

theorem efiCheckAllocated_eq_success (h : InOrder ds) {a : ℕ} {must : Bool} :
    efiCheckAllocated ds a must = .success ↔
      ∃ t, typeOfByte ds a = some t ∧ (must = true ↔ t ≠ conventionalMemory) := by
  rw [efiCheckAllocated, find?_descGetEnd h.ok, typeOfByte]
  cases ds.find? fun d ↦ decide (d.physicalStart ≤ a ∧ a < d.stop) with
  | none => simp
  | some d =>
    cases must with
    | false => simp
    | true => simp

/-! ## Freeing -/

theorem efiMemCarveOut_false_ne {d c : MemDesc} : efiMemCarveOut d c false ≠ .overlapsNonram := by
  unfold efiMemCarveOut
  dsimp only
  split_ifs with h₁ h₂
  · nofun
  · exact absurd h₂.1 nofun
  all_goals nofun

theorem carveWalk_false_ne {c : MemDesc} {ds' : List MemDesc} :
    carveWalk c false ds ≠ .noMapping ds' := by
  induction ds generalizing ds' with
  | nil => rintro ⟨⟩
  | cons d ds ih =>
    rw [carveWalk]
    cases hcarve : efiMemCarveOut d c false with
    | overlapsNonram => exact absurd hcarve efiMemCarveOut_false_ne
    | noOverlap =>
      cases hwalk : carveWalk c false ds with
      | noMapping ds₁ => exact absurd hwalk ih
      | done => rintro ⟨⟩
      | again n ds₁ => rintro ⟨⟩
    | loopAgain newmap map => rintro ⟨⟩
    | pages n left => rintro ⟨⟩

theorem carveLoop_false_ne {c : MemDesc} {n k : ℕ} {ds' : List MemDesc} :
    carveLoop c false n k ds ≠ some (.noMapping ds') := by
  induction n generalizing k ds with
  | zero => rintro ⟨⟩
  | succ n ih =>
    rw [carveLoop]
    cases hwalk : carveWalk c false ds with
    | noMapping ds₁ => exact absurd hwalk carveWalk_false_ne
    | done => rintro ⟨⟩
    | again r ds₁ => exact ih

/-- An addition that may overlap any memory fails only for its type. -/
theorem efiAddMemoryMap_false {start pages : ℕ} {memoryType : ℤ} {st : Status} {ds' : List MemDesc}
    (htype : memoryType < maxMemoryType)
    (h : efiAddMemoryMap ds start pages memoryType false = some (st, ds')) : st = .success := by
  rw [efiAddMemoryMap, if_neg (Int.not_le.2 htype)] at h
  split_ifs at h
  · exact (Prod.mk.inj (Option.some.inj h)).1.symm
  · simp only [Option.bind_eq_bind, Option.bind_eq_some_iff] at h
    obtain ⟨r, hloop, h⟩ := h
    cases r with
    | noMapping ds₁ => exact absurd hloop carveLoop_false_ne
    | carved k ds₁ =>
      simp only [false_and, if_false, Option.bind_eq_some_iff] at h
      obtain ⟨ds₂, -, h⟩ := h
      exact (Prod.mk.inj (Option.some.inj h)).1.symm

/-- The page belongs to the range that starts at `memory`. -/
def InPages (memory pages p : ℕ) : Prop :=
  memory ≤ p * 2 ^ 12 ∧ p * 2 ^ 12 < memory + pages * 2 ^ 12

instance (memory pages p : ℕ) : Decidable (InPages memory pages p) :=
  inferInstanceAs (Decidable (_ ∧ _))

/-- The page is in the map, and is not free. -/
def Allocated (ds : List MemDesc) (p : ℕ) : Prop :=
  ∃ t, typeAt ds p = some t ∧ t ≠ conventionalMemory

/-- `efi_free_pages` frees allocated pages and no others, or it fails and leaves the map alone. -/
def FreesAllocated (ds : List MemDesc) (memory pages : ℕ) : Prop :=
  ∃ st ds', efiFreePages ds memory pages = some (st, ds') ∧
    (st = .success →
      (∀ p, InPages memory pages p → Allocated ds p ∧ typeAt ds' p = some conventionalMemory) ∧
      ∀ p, ¬InPages memory pages p → typeAt ds' p = typeAt ds p) ∧
    (st ≠ .success → ds' = ds)

/-- The call is refused before the map is touched. -/
def FreeRefused (ds : List MemDesc) (memory pages : ℕ) : Prop :=
  (¬∃ t, typeOfByte ds memory = some t ∧ t ≠ conventionalMemory) ∨
    memory = 0 ∨ memory % 2 ^ 12 ≠ 0 ∨ pages = 0

/-- The end of a range of pages that are all in the map. -/
theorem InOrder.range_fits (h : InOrder ds) {memory pages : ℕ} (haligned : memory % 2 ^ 12 = 0)
    (hpos : pages ≠ 0) (hall : ∀ p, InPages memory pages p → (typeAt ds p).isSome) :
    memory + pages * 2 ^ 12 < 2 ^ 64 := by
  have hlast : InPages memory pages (memory / 2 ^ 12 + (pages - 1)) := by
    rw [InPages]
    omega
  obtain ⟨t, ht⟩ := Option.isSome_iff_exists.1 (hall _ hlast)
  obtain ⟨d, hd, ⟨-, hstop⟩, -⟩ := h.typeAt_eq_some.1 ht
  have hok := h.ok d hd
  have haligned' := hok.aligned_stop
  have hfits := hok.fits
  omega

/-- `efi_free_pages` does what it should exactly if it refuses the call or the whole range is
allocated. -/
theorem freesAllocated_iff (h : InOrder ds) (memory pages : ℕ) :
    FreesAllocated ds memory pages ↔
      FreeRefused ds memory pages ∨ ∀ p, InPages memory pages p → Allocated ds p := by
  by_cases hcheck : efiCheckAllocated ds memory true = .success
  swap
  · have hfree : efiFreePages ds memory pages = some (.notFound, ds) := by
      rw [efiFreePages, if_pos hcheck]
    refine iff_of_true ⟨_, _, hfree, nofun, fun _ ↦ rfl⟩ (.inl (.inl fun ⟨t, ht, hne⟩ ↦ hcheck ?_))
    exact (efiCheckAllocated_eq_success h).2 ⟨t, ht, iff_of_true rfl hne⟩
  by_cases hargs : memory = 0 ∨ memory % 2 ^ 12 ≠ 0 ∨ pages = 0
  · have hfree : efiFreePages ds memory pages = some (.invalidParameter, ds) := by
      rw [efiFreePages, if_neg (not_not.2 hcheck), if_pos hargs]
    exact iff_of_true ⟨_, _, hfree, nofun, fun _ ↦ rfl⟩ (.inl (.inr hargs))
  have hfree : efiFreePages ds memory pages =
      (efiAddMemoryMap ds memory pages conventionalMemory false).bind fun r ↦
        if r.1 ≠ .success then some (.notFound, r.2) else some (.success, r.2) := by
    rw [efiFreePages, if_neg (not_not.2 hcheck), if_neg hargs]
    rfl
  obtain ⟨t, ht, hne⟩ := (efiCheckAllocated_eq_success h).1 hcheck
  have hnot : ¬FreeRefused ds memory pages := by
    rintro (hnone | hbad)
    · exact hnone ⟨t, ht, hne.1 rfl⟩
    · exact hargs hbad
  rw [or_iff_right hnot]
  rw [not_or, not_or, not_not] at hargs
  obtain ⟨-, haligned, hpages⟩ := hargs
  constructor
  · rintro ⟨st, ds', hrun, hsuccess, hfail⟩
    rw [hfree, Option.bind_eq_some_iff] at hrun
    obtain ⟨⟨st₁, ds₁⟩, hadd, hrun⟩ := hrun
    have hst₁ : st₁ = .success := efiAddMemoryMap_false (by decide) hadd
    rw [if_neg (not_not.2 hst₁), Option.some.injEq, Prod.mk.injEq] at hrun
    exact fun p hp ↦ ((hsuccess hrun.1.symm).1 p hp).1
  · intro hall
    have hfits := h.range_fits haligned hpages fun p hp ↦ by
      obtain ⟨t, ht, -⟩ := hall p hp
      rw [ht]
      rfl
    obtain ⟨st, ds', hadd, -, hsuccess, hfail⟩ :=
      h.add_spec ⟨memory, pages, conventionalMemory, Nat.dvd_of_mod_eq_zero haligned, hfits⟩
    change efiAddMemoryMap ds memory pages conventionalMemory false = some (st, ds') at hadd
    have hst : st = .success := efiAddMemoryMap_false (by decide) hadd
    obtain ⟨-, htypes⟩ := hsuccess hst
    refine ⟨.success, ds', ?_, fun _ ↦ ⟨fun p hp ↦ ⟨hall p hp, ?_⟩, fun p hp ↦ ?_⟩,
      fun hne ↦ absurd rfl hne⟩
    · rw [hfree, hadd, Option.bind_some, if_neg (not_not.2 hst)]
    · rw [htypes p]
      exact if_pos hp
    · rw [htypes p]
      exact if_neg hp

/-- A map with an allocated page below a free one. -/
def allocatedBelowFree : List MemDesc :=
  [⟨7, 0x2000, 0x2000, 1, memoryWb⟩, ⟨4, 0x1000, 0x1000, 1, memoryWb⟩]

theorem allocatedBelowFree_inOrder : InOrder allocatedBelowFree where
  ok d hd := by
    rcases List.mem_cons.1 hd with rfl | hd
    · exact ⟨by decide, by decide, by decide⟩
    · rw [List.mem_singleton.1 hd]
      exact ⟨by decide, by decide, by decide⟩
  above := by decide

/-- One allocated page is freed. -/
theorem freesAllocated_iff_one :
    FreesAllocated allocatedBelowFree 0x1000 1 ↔
      FreeRefused allocatedBelowFree 0x1000 1 ∨
        ∀ p, InPages 0x1000 1 p → Allocated allocatedBelowFree p :=
  freesAllocated_iff allocatedBelowFree_inOrder 0x1000 1

/-- Two pages are freed of which the second one is free already. -/
theorem not_freesAllocated_second : InOrder allocatedBelowFree ∧
    ¬FreesAllocated allocatedBelowFree 0x1000 2 := by
  refine ⟨allocatedBelowFree_inOrder, ?_⟩
  rintro ⟨st, ds', hrun, hsuccess, -⟩
  have hst : (efiFreePages allocatedBelowFree 0x1000 2).map Prod.fst = some .success := by
    decide +kernel
  rw [hrun, Option.map_some, Option.some.injEq] at hst
  obtain ⟨⟨t, ht, hne⟩, -⟩ := (hsuccess hst).1 2 (by decide)
  have hfree : typeAt allocatedBelowFree 2 = some conventionalMemory := by decide
  exact hne (Option.some.inj (ht.symm.trans hfree))

end MiniPi.Efi
