import MiniPi.Efi.Keep

/-!
# Page allocation

An allocation that succeeds takes a range of free pages and changes no other page, and a search
fails only if there is no run of free pages, as long as the number of its bytes does not wrap.  An
exact address is taken as it is, so a range can start inside of a page.
-/

namespace MiniPi.Efi

variable {c d : MemDesc} {ds ds' : List MemDesc} {type memoryType : ℤ} {width pages memory : ℕ}

/-! ## Free memory only, and any memory -/

theorem efiMemCarveOut_of_ram (h : efiMemCarveOut d c true ≠ .overlapsNonram) :
    efiMemCarveOut d c false = efiMemCarveOut d c true := by
  unfold efiMemCarveOut at h ⊢
  dsimp only at h ⊢
  by_cases hover : descGetEnd c ≤ d.physicalStart ∨ descGetEnd d ≤ c.physicalStart
  · rw [if_pos hover, if_pos hover]
  rw [if_neg hover] at h
  rw [if_neg hover, if_neg hover]
  by_cases htype : true = true ∧ d.type ≠ conventionalMemory
  · rw [if_pos htype] at h
    exact absurd rfl h
  · rw [if_neg htype, if_neg fun hf ↦ Bool.false_ne_true hf.1]

/-- A walk that is not refused is the same where any memory may be overlapped. -/
theorem carveWalk_of_ram (h : ∀ F, carveWalk c true ds ≠ .noMapping F) :
    carveWalk c false ds = carveWalk c true ds := by
  induction ds with
  | nil => rfl
  | cons d ds ih =>
    rw [carveWalk] at h
    rw [carveWalk, carveWalk]
    have hcarve : efiMemCarveOut d c true ≠ .overlapsNonram := by
      intro heq
      rw [heq] at h
      exact h _ rfl
    rw [efiMemCarveOut_of_ram hcarve]
    cases hout : efiMemCarveOut d c true with
    | overlapsNonram => exact absurd hout hcarve
    | noOverlap =>
      rw [hout] at h
      dsimp only at h ⊢
      rw [ih]
      intro F hF
      rw [hF] at h
      exact h _ rfl
    | loopAgain newmap map => rfl
    | pages n left => rfl

/-- A loop that is not refused is the same where any memory may be overlapped. -/
theorem carveLoop_of_ram {n k K : ℕ} {F : List MemDesc}
    (h : carveLoop c true n k ds = some (.carved K F)) :
    carveLoop c false n k ds = some (.carved K F) := by
  induction n generalizing k ds with
  | zero => cases h
  | succ n ih =>
    rw [carveLoop] at h ⊢
    have hwalk : ∀ F, carveWalk c true ds ≠ .noMapping F := by
      intro F hF
      rw [hF] at h
      cases h
    rw [carveWalk_of_ram hwalk]
    cases hout : carveWalk c true ds with
    | noMapping F => exact absurd hout (hwalk F)
    | done =>
      rw [hout] at h
      exact h
    | again r ds₁ =>
      rw [hout] at h
      exact ih h

/-! ## Reserving -/

/-- The pages of the range get the type, and no other page changes. -/
structure Reserved (ds ds' : List MemDesc) (addr pages : ℕ) (memoryType : ℤ) : Prop where
  was : ∀ p, InPages addr pages p → typeAt ds p = some conventionalMemory
  now : ∀ p, InPages addr pages p → typeAt ds' p = some (memoryType % 2 ^ 32).toNat
  others : ∀ p, ¬InPages addr pages p → typeAt ds' p = typeAt ds p

/-- A range of pages that is backed is reserved. -/
theorem reservePages_of_backed (memory : ℕ) (h : InOrder ds) (htype : memoryType < maxMemoryType)
    (hpages : pages ≠ 0) {addr : ℕ} (haligned : 2 ^ 12 ∣ addr) (hb : Backed ds addr pages) :
    ∃ ds', reservePages ds addr pages memoryType memory = some (.success, ds', addr) ∧
      Reserved ds ds' addr pages memoryType := by
  obtain ⟨res, hloop, -⟩ := carveLoop_ram_ended (k := 0) h.stacked
    (Nat.lt_succ_of_le (sum_meetings_le (newDesc addr pages memoryType) ds))
  obtain ⟨F, rfl⟩ := carved_of_backed h hpages hb hloop
  have hram : efiAddMemoryMap ds addr pages memoryType true =
      (efiMemSort (F ++ [newDesc addr pages memoryType])).map fun ds' ↦ (.success, ds') := by
    rcases efiAddMemoryMap_ram_eq htype hpages hloop with ⟨hne, -⟩ | ⟨F', hF, hrun⟩
    · exact absurd rfl (hne F)
    · rwa [(Carved.carved.inj hF).2]
  have hany : efiAddMemoryMap ds addr pages memoryType false =
      (efiMemSort (F ++ [newDesc addr pages memoryType])).map fun ds' ↦ (.success, ds') := by
    rw [efiAddMemoryMap, if_neg (Int.not_le.2 htype), if_neg hpages]
    simp only [Option.bind_eq_bind, carveLoop_of_ram hloop, Option.bind_some, Bool.false_eq_true,
      false_and, if_false]
    cases efiMemSort (F ++ [newDesc addr pages memoryType]) with
    | none => rfl
    | some ds' => rfl
  obtain ⟨st, ds', hadd, -, hsuccess, -⟩ := h.add_spec ⟨addr, pages, memoryType, haligned, hb.fits⟩
  change efiAddMemoryMap ds addr pages memoryType false = some (st, ds') at hadd
  obtain rfl := efiAddMemoryMap_false htype hadd
  obtain ⟨-, htypes⟩ := hsuccess rfl
  refine ⟨ds', ?_, ⟨fun p hp ↦ ?_, fun p hp ↦ ?_, fun p hp ↦ ?_⟩⟩
  · rw [reservePages, hram, ← hany, hadd]
    rfl
  · rw [typeAt_eq_typeOfByte]
    exact hb.free _ hp.1 hp.2
  · rw [htypes p]
    exact if_pos hp
  · rw [htypes p]
    exact if_neg hp

/-- A range that is not backed is refused. -/
theorem reservePages_of_not_backed (memory addr : ℕ) (h : InOrder ds) (hpages : pages ≠ 0)
    (hb : maxMemoryType ≤ memoryType ∨ ¬Backed ds addr pages) :
    ∃ ds', reservePages ds addr pages memoryType memory = some (.outOfResources, ds', memory) := by
  by_cases htype : maxMemoryType ≤ memoryType
  · refine ⟨ds, ?_⟩
    rw [reservePages, efiAddMemoryMap, if_pos htype]
    rfl
  · obtain ⟨res, hloop, -⟩ := carveLoop_ram_ended (k := 0) h.stacked
      (Nat.lt_succ_of_le (sum_meetings_le (newDesc addr pages memoryType) ds))
    rcases efiAddMemoryMap_ram_eq (Int.not_le.1 htype) hpages hloop with ⟨-, hrun⟩ | ⟨F, rfl, -⟩
    · refine ⟨res.map, ?_⟩
      rw [reservePages, hrun]
      rfl
    · exact absurd (backed_of_carved h hpages hloop) (hb.resolve_left htype)

/-! ## Allocating -/

/-- What an allocation promises. -/
structure Allocates (ds : List MemDesc) (type memoryType : ℤ) (pages memory : ℕ)
    (st : PageStatus) (ds' : List MemDesc) (addr : ℕ) : Prop where
  aligned : st = .success → 2 ^ 12 ∣ addr
  reserved : st = .success → Reserved ds ds' addr pages memoryType
  limit : st = .success → type = allocateMaxAddress → addr + pages * 2 ^ 12 ≤ memory
  anyPages : st ≠ .success → type = allocateAnyPages →
    ¬∃ a, Run ds (pages * 2 ^ 12) (2 ^ 64 - 1) a
  maxAddress : st ≠ .success → type = allocateMaxAddress → ¬∃ a, Run ds (pages * 2 ^ 12) memory a

/-- `efi_allocate_pages` returns, and keeps the promise. -/
def AllocCorrect (width : ℕ) (ds : List MemDesc) (type memoryType : ℤ) (pages memory : ℕ) : Prop :=
  ∃ st ds' addr, efiAllocatePages width ds type memoryType pages memory = some (st, ds', addr) ∧
    Allocates ds type memoryType pages memory st ds' addr

/-- The number of bytes to search for does not wrap.  Or where it does, the pages from the highest
run of the wrapped number on cannot be reserved, or end at the limit; and they can if there is a run
for all. -/
def SearchRight (width : ℕ) (ds : List MemDesc) (pages limit : ℕ) : Prop :=
  pages * 2 ^ 12 < 2 ^ width ∨
    ((∀ a, Highest ds (sizeBytes width pages) limit a → Backed ds a pages →
      a + pages * 2 ^ 12 ≤ limit) ∧
      ((∃ a, Run ds (pages * 2 ^ 12) limit a) →
        ∃ a, Highest ds (sizeBytes width pages) limit a ∧ Backed ds a pages))

/-- A search is right and its memory type is one that can be allocated, or a search would fail
anyway; and an exact address is that of a page, or the range cannot be reserved. -/
def AllocRight (width : ℕ) (ds : List MemDesc) (type memoryType : ℤ) (pages memory : ℕ) : Prop :=
  (type = allocateAnyPages → if memoryType < persistentMemoryType
    then SearchRight width ds pages (2 ^ 64 - 1)
      else ¬∃ a, Run ds (pages * 2 ^ 12) (2 ^ 64 - 1) a) ∧
  (type = allocateMaxAddress → if memoryType < persistentMemoryType
    then SearchRight width ds pages memory else ¬∃ a, Run ds (pages * 2 ^ 12) memory a) ∧
  (type = allocateAddress → memoryType < persistentMemoryType → Backed ds memory pages →
    2 ^ 12 ∣ memory)

/-- The limit of a search. -/
def Searches (type : ℤ) (memory limit : ℕ) : Prop :=
  type = allocateAnyPages ∧ limit = 2 ^ 64 - 1 ∨ type = allocateMaxAddress ∧ limit = memory

/-- The promise of a call that is refused. -/
theorem allocates_refused {st : PageStatus} {ds' : List MemDesc} {addr : ℕ} (hst : st ≠ .success) :
    Allocates ds type memoryType pages memory st ds' addr ↔
      (type = allocateAnyPages → ¬∃ a, Run ds (pages * 2 ^ 12) (2 ^ 64 - 1) a) ∧
        (type = allocateMaxAddress → ¬∃ a, Run ds (pages * 2 ^ 12) memory a) :=
  ⟨fun h ↦ ⟨h.anyPages hst, h.maxAddress hst⟩, fun h ↦ ⟨fun hs ↦ absurd hs hst,
    fun hs ↦ absurd hs hst, fun hs ↦ absurd hs hst, fun _ ↦ h.1, fun _ ↦ h.2⟩⟩

/-- The promise of a search that fails. -/
theorem Searches.refused {limit : ℕ} (hsearch : Searches type memory limit) {st : PageStatus}
    {addr : ℕ} (hst : st ≠ .success) : Allocates ds type memoryType pages memory st ds' addr ↔
      ¬∃ a, Run ds (pages * 2 ^ 12) limit a := by
  rw [allocates_refused hst]
  rcases hsearch with ⟨rfl, rfl⟩ | ⟨rfl, rfl⟩
  · exact ⟨fun h ↦ h.1 rfl, fun h ↦ ⟨fun _ ↦ h, fun h ↦ absurd h (by decide)⟩⟩
  · exact ⟨fun h ↦ h.2 rfl, fun h ↦ ⟨fun h ↦ absurd h (by decide), fun _ ↦ h⟩⟩

/-- The promise of a search whose range has been reserved. -/
theorem Searches.succeeds {limit addr : ℕ} (hsearch : Searches type memory limit)
    (haligned : 2 ^ 12 ∣ addr) (hb : Backed ds addr pages)
    (hreserved : Reserved ds ds' addr pages memoryType) :
    Allocates ds type memoryType pages memory .success ds' addr ↔
      addr + pages * 2 ^ 12 ≤ limit := by
  have hfits := hb.fits
  constructor
  · intro h
    rcases hsearch with ⟨-, rfl⟩ | ⟨htype, rfl⟩
    · omega
    · exact h.limit rfl htype
  · intro hlimit
    refine ⟨fun _ ↦ haligned, fun _ ↦ hreserved, fun _ htype ↦ ?_, nofun, nofun⟩
    rcases hsearch with ⟨rfl, -⟩ | ⟨-, rfl⟩
    · exact absurd htype (by decide)
    · exact hlimit

/-- Where the number of bytes does not wrap, a search is right. -/
theorem SearchRight.clauses {limit a : ℕ} (h : InOrder ds)
    (hfound : Found ds (sizeBytes width pages) limit a)
    (hright : SearchRight width ds pages limit) :
    (∀ a, Highest ds (sizeBytes width pages) limit a → Backed ds a pages →
      a + pages * 2 ^ 12 ≤ limit) ∧
      ((∃ a, Run ds (pages * 2 ^ 12) limit a) →
        ∃ a, Highest ds (sizeBytes width pages) limit a ∧ Backed ds a pages) := by
  refine hright.elim (fun hsmall ↦ ?_) id
  have hbytes := sizeBytes_eq hsmall
  rw [hbytes] at hfound ⊢
  exact ⟨fun b hb _ ↦ hb.1.2.2.1, fun hrun ↦ ⟨a, hfound.run hrun, (hfound.run hrun).1.backed h⟩⟩

/-- A search with a memory type that can be allocated. -/
theorem search_allocates_iff (h : InOrder ds) (hwidth : width ≤ 64)
    (htype : memoryType < maxMemoryType) (hpages : pages ≠ 0)
    (hbytes : pages * 2 ^ 12 < 2 ^ 64) {limit : ℕ} (hlimit : limit < 2 ^ 64)
    (hsearch : Searches type memory limit) {addr : ℕ}
    (haddr : addr = efiFindFreeMemory ds (sizeBytes width pages) limit) :
    (∃ st ds' m, (if addr = 0 then some (.outOfResources, ds, memory)
        else reservePages ds addr pages memoryType memory) = some (st, ds', m) ∧
      Allocates ds type memoryType pages memory st ds' m) ↔ SearchRight width ds pages limit := by
  have hfound := efiFindFreeMemory_found h hwidth pages hlimit
  rw [← haddr] at hfound
  have hresult : ∀ {r : PageStatus × List MemDesc × ℕ}, (∃ st ds' m, some r = some (st, ds', m) ∧
      Allocates ds type memoryType pages memory st ds' m) ↔
        Allocates ds type memoryType pages memory r.1 r.2.1 r.2.2 := by
    intro r
    constructor
    · rintro ⟨st, ds', m, heq, hall⟩
      obtain rfl := Option.some.inj heq
      exact hall
    · exact fun hall ↦ ⟨_, _, _, rfl, hall⟩
  by_cases hreserve : Highest ds (sizeBytes width pages) limit addr ∧ Backed ds addr pages
  · -- the range is reserved
    obtain ⟨hhighest, hb⟩ := hreserve
    obtain ⟨ds', hrun, hreserved⟩ := reservePages_of_backed memory h htype hpages hhighest.1.2.1 hb
    rw [if_neg hhighest.1.1, hrun, hresult]
    change Allocates ds type memoryType pages memory .success ds' addr ↔ _
    rw [hsearch.succeeds hhighest.1.2.1 hb hreserved]
    constructor
    · exact fun hle ↦ .inr ⟨fun b hb' _ ↦ hb'.eq hhighest ▸ hle, fun _ ↦ ⟨addr, hhighest, hb⟩⟩
    · exact fun hright ↦ (hright.clauses h hfound).1 addr hhighest hb
  · have hnone : ∀ a, Highest ds (sizeBytes width pages) limit a → ¬Backed ds a pages :=
        fun a ha hb ↦ by
      obtain rfl := (hfound.run ⟨a, ha.1⟩).eq ha
      exact hreserve ⟨ha, hb⟩
    have hiff : SearchRight width ds pages limit ↔ ¬∃ a, Run ds (pages * 2 ^ 12) limit a := by
      constructor
      · intro hright hrun
        obtain ⟨a, ha, hb⟩ := (hright.clauses h hfound).2 hrun
        exact hnone a ha hb
      · exact fun hrun ↦ .inr ⟨fun a ha hb ↦ absurd hb (hnone a ha), fun hrun' ↦ absurd hrun' hrun⟩
    rw [hiff]
    by_cases hzero : addr = 0
    · rw [if_pos hzero, hresult]
      exact hsearch.refused nofun
    · have hunbacked : ¬Backed ds addr pages := by
        intro hb
        by_cases hrun : ∃ b, Run ds (sizeBytes width pages) limit b
        · exact hnone addr (hfound.run hrun) hb
        · have hwraps := hfound.wraps hwidth hrun hzero
          have hfits := hb.fits
          rw [pageBytes_eq hbytes] at hwraps
          omega
      obtain ⟨ds', hrun⟩ := @reservePages_of_not_backed ds memoryType pages memory addr h hpages
        (.inr hunbacked)
      rw [if_neg hzero, hrun, hresult]
      exact hsearch.refused nofun

/-- An exact address. -/
theorem reserve_allocates_iff (h : InOrder ds) (htype : memoryType < maxMemoryType)
    (hpages : pages ≠ 0) :
    (∃ st ds' addr, reservePages ds memory pages memoryType memory = some (st, ds', addr) ∧
      Allocates ds allocateAddress memoryType pages memory st ds' addr) ↔
        (Backed ds memory pages → 2 ^ 12 ∣ memory) := by
  by_cases hb : Backed ds memory pages
  swap
  · obtain ⟨ds', hreserve⟩ := reservePages_of_not_backed memory memory h hpages (.inr hb)
    exact iff_of_true ⟨_, _, _, hreserve, nofun, nofun, nofun, nofun, nofun⟩ fun hb' ↦ absurd hb' hb
  constructor
  · rintro ⟨st, ds', addr, hreserve, hall⟩ -
    obtain ⟨res, hloop, -⟩ := carveLoop_ram_ended (k := 0) h.stacked
      (Nat.lt_succ_of_le (sum_meetings_le (newDesc memory pages memoryType) ds))
    obtain ⟨F, rfl⟩ := carved_of_backed h hpages hb hloop
    rcases efiAddMemoryMap_ram_eq htype hpages hloop with ⟨hne, -⟩ | ⟨F', hF, hrun⟩
    · exact absurd rfl (hne F)
    · rw [reservePages, hrun] at hreserve
      cases hsort : efiMemSort (F' ++ [newDesc memory pages memoryType]) with
      | none =>
        rw [hsort] at hreserve
        cases hreserve
      | some ds₁ =>
        rw [hsort] at hreserve
        obtain ⟨hst, hreserve⟩ := Prod.mk.inj (Option.some.inj hreserve)
        obtain ⟨-, haddr⟩ := Prod.mk.inj hreserve
        rw [haddr]
        exact hall.aligned hst.symm
  · intro haligned
    obtain ⟨ds', hreserve, hreserved⟩ := reservePages_of_backed memory h htype hpages
      (haligned hb) hb
    exact ⟨_, _, _, hreserve, fun _ ↦ haligned hb, fun _ ↦ hreserved, nofun, nofun, nofun⟩

/-- A call whose memory type cannot be allocated is refused. -/
theorem efiAllocatePages_persistent (type : ℤ) (memory : ℕ) (h : InOrder ds) (hpages : pages ≠ 0)
    (hpersist : persistentMemoryType ≤ memoryType) :
    ∃ st ds' m, efiAllocatePages width ds type memoryType pages memory = some (st, ds', m) ∧
      st ≠ .success := by
  rw [efiAllocatePages]
  dsimp only
  by_cases hrange : persistentMemoryType ≤ memoryType ∧ memoryType ≤ 0x6FFFFFFF
  · rw [if_pos hrange]
    exact ⟨_, _, _, rfl, by rintro ⟨⟩⟩
  have hmax : maxMemoryType ≤ memoryType := by
    rw [not_and, Int.not_le] at hrange
    have := hrange hpersist
    rw [maxMemoryType]
    omega
  have hreserve : ∀ addr, ∃ st ds' m,
      reservePages ds addr pages memoryType memory = some (st, ds', m) ∧ st ≠ .success := by
    intro addr
    obtain ⟨ds', hrun⟩ := reservePages_of_not_backed memory addr h hpages (.inl hmax)
    exact ⟨_, _, _, hrun, by rintro ⟨⟩⟩
  rw [if_neg hrange]
  split_ifs
  · exact ⟨_, _, _, rfl, by rintro ⟨⟩⟩
  · exact hreserve _
  · exact ⟨_, _, _, rfl, by rintro ⟨⟩⟩
  · exact hreserve _
  · exact ⟨_, _, _, rfl, by rintro ⟨⟩⟩
  · exact hreserve _
  · exact ⟨_, _, _, rfl, by rintro ⟨⟩⟩

/-- `efi_allocate_pages` is sound and complete exactly where an exact address does not cut a page in
two, and a search does not ask for a memory type that cannot be allocated or for a number of bytes
that wraps to one that misleads it. -/
theorem allocCorrect_iff (h : InOrder ds) (hwidth : width ≤ 64) (type memoryType : ℤ)
    {pages memory : ℕ} (hpages : 0 < pages) (hbytes : pages * 2 ^ 12 < 2 ^ 64)
    (hmemory : memory < 2 ^ 64) :
    AllocCorrect width ds type memoryType pages memory ↔
      AllocRight width ds type memoryType pages memory := by
  rw [AllocCorrect, AllocRight]
  by_cases hpersist : persistentMemoryType ≤ memoryType
  · obtain ⟨st, ds', m, hrun, hst⟩ :=
      @efiAllocatePages_persistent ds memoryType width pages type memory h hpages.ne' hpersist
    have hiff : (∃ st ds' addr, efiAllocatePages width ds type memoryType pages memory =
        some (st, ds', addr) ∧ Allocates ds type memoryType pages memory st ds' addr) ↔
        Allocates ds type memoryType pages memory st ds' m := by
      constructor
      · rintro ⟨st', ds₁, m', hrun', hall⟩
        obtain ⟨rfl, heq⟩ := Prod.mk.inj (Option.some.inj (hrun.symm.trans hrun'))
        obtain ⟨rfl, rfl⟩ := Prod.mk.inj heq
        exact hall
      · exact fun hall ↦ ⟨_, _, _, hrun, hall⟩
    rw [hiff, allocates_refused hst, if_neg (Int.not_lt.2 hpersist), if_neg (Int.not_lt.2 hpersist)]
    constructor
    · exact fun hno ↦ ⟨hno.1, hno.2, fun _ hlt ↦ absurd hpersist (Int.not_le.2 hlt)⟩
    · exact fun hno ↦ ⟨hno.1, hno.2.1⟩
  have hlt := Int.not_le.1 hpersist
  have htype : memoryType < maxMemoryType := hlt.trans (by decide)
  have hrange : ¬(persistentMemoryType ≤ memoryType ∧ memoryType ≤ 0x6FFFFFFF) :=
    fun hr ↦ hpersist hr.1
  rw [efiAllocatePages, if_pos hlt, if_pos hlt]
  dsimp only
  rw [if_neg hrange]
  by_cases hany : type = allocateAnyPages
  · subst hany
    rw [if_pos rfl, search_allocates_iff h hwidth htype hpages.ne' hbytes
      (Nat.sub_lt (Nat.two_pow_pos 64) Nat.one_pos) (.inl ⟨rfl, rfl⟩) rfl]
    exact ⟨fun hs ↦ ⟨fun _ ↦ hs, fun h ↦ absurd h (by decide), fun h ↦ absurd h (by decide)⟩,
      fun hs ↦ hs.1 rfl⟩
  rw [if_neg hany]
  by_cases hlimit : type = allocateMaxAddress
  · subst hlimit
    rw [if_pos rfl, search_allocates_iff h hwidth htype hpages.ne' hbytes hmemory
      (.inr ⟨rfl, rfl⟩) rfl]
    exact ⟨fun hs ↦ ⟨fun h ↦ absurd h (by decide), fun _ ↦ hs, fun h ↦ absurd h (by decide)⟩,
      fun hs ↦ hs.2.1 rfl⟩
  rw [if_neg hlimit]
  by_cases haddress : type = allocateAddress
  · subst haddress
    rw [if_pos rfl]
    by_cases hcheck : efiCheckAllocated ds memory false = .success
    · rw [if_neg (not_not.2 hcheck), reserve_allocates_iff h htype hpages.ne']
      exact ⟨fun hs ↦ ⟨fun h ↦ absurd h (by decide), fun h ↦ absurd h (by decide), fun _ _ ↦ hs⟩,
        fun hs ↦ hs.2.2 rfl hlt⟩
    · rw [if_pos hcheck]
      refine iff_of_true ⟨_, _, _, rfl, fun h ↦ absurd h (by decide), fun h ↦ absurd h (by decide),
        fun h ↦ absurd h (by decide), fun _ h ↦ absurd h (by decide), fun _ h ↦
          absurd h (by decide)⟩
        ⟨fun h ↦ absurd h (by decide), fun h ↦ absurd h (by decide), fun _ _ hb ↦ absurd ?_ hcheck⟩
      have hfree := hb.free memory le_rfl (by omega)
      exact (efiCheckAllocated_eq_success h).2
        ⟨_, hfree, iff_of_false Bool.false_ne_true fun hne ↦ hne rfl⟩
  · rw [if_neg haddress]
    exact iff_of_true ⟨_, _, _, rfl, fun h ↦ absurd h (by decide), fun h ↦ absurd h (by decide),
      fun h ↦ absurd h (by decide), fun _ ht ↦ absurd ht hany,
      fun _ ht ↦ absurd ht hlimit⟩ ⟨fun ht ↦ absurd ht hany, fun ht ↦ absurd ht hlimit,
      fun ht ↦ absurd ht haddress⟩

/-- Two free pages. -/
def twoFreePages : List MemDesc := [⟨7, 0x1000, 0x1000, 2, memoryWb⟩]

theorem twoFreePages_inOrder : InOrder twoFreePages where
  ok d hd := by
    rw [List.mem_singleton.1 hd]
    exact ⟨by decide, by decide, by decide⟩
  above := by decide

/-- A page below a limit. -/
theorem allocCorrect_iff_limit : AllocCorrect 32 twoFreePages allocateMaxAddress 4 1 0x2000 ↔
    AllocRight 32 twoFreePages allocateMaxAddress 4 1 0x2000 :=
  allocCorrect_iff twoFreePages_inOrder (by decide) allocateMaxAddress 4 (by decide) (by decide)
    (by decide)

/-- A page at an address inside of a page. -/
theorem not_allocCorrect_inside : InOrder twoFreePages ∧
    ¬AllocCorrect 32 twoFreePages allocateAddress 4 1 0x1800 := by
  refine ⟨twoFreePages_inOrder, ?_⟩
  rintro ⟨st, ds', addr, hrun, hall⟩
  have hfirst : (efiAllocatePages 32 twoFreePages allocateAddress 4 1 0x1800).map
      (fun r ↦ (r.1, r.2.2)) = some (.success, 0x1800) := by
    decide +kernel
  rw [hrun, Option.map_some, Option.some.injEq, Prod.mk.injEq] at hfirst
  obtain ⟨hst, rfl⟩ := hfirst
  exact absurd (hall.aligned hst) (by decide)

end MiniPi.Efi
