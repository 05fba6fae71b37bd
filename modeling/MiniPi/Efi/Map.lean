import MiniPi.Efi.Merge

/-!
# Runs of additions to the map

A map says which type each page has.  Adding a region to a map that is in order gives its type to
the pages of the region and to no others, and the new map is in order and merged again; so every map
that is built from the empty one is.
-/

namespace MiniPi.Efi

variable {d e : MemDesc} {ds ds' : List MemDesc}

/-! ## Pages -/

/-- The type of page number `p`, if the map has that page. -/
def typeAt (ds : List MemDesc) (p : ℕ) : Option ℕ :=
  (ds.find? fun d ↦ decide (d.Covers p)).map fun d ↦ d.type

instance : Std.Symm Apart := ⟨fun _ _ h ↦ h.symm⟩

theorem InOrder.apart (h : InOrder ds) : ds.Pairwise Apart := h.above.imp fun habove ↦ .inl habove

theorem InOrder.covers_inj (h : InOrder ds) {p : ℕ} (hd : d ∈ ds) (he : e ∈ ds) (hdp : d.Covers p)
    (hep : e.Covers p) : d = e := by
  by_contra hne
  obtain habove | hbelow := h.apart.forall hd he hne
  · exact Nat.not_lt.2 habove (hdp.1.trans_lt hep.2)
  · exact Nat.not_lt.2 hbelow (hep.1.trans_lt hdp.2)

theorem InOrder.typeAt_eq_some (h : InOrder ds) {p t : ℕ} :
    typeAt ds p = some t ↔ Carries ds p t := by
  rw [typeAt, Option.map_eq_some_iff]
  constructor
  · rintro ⟨d, hfind, ht⟩
    have hp := List.find?_some hfind
    exact ⟨d, List.mem_of_find?_eq_some hfind, of_decide_eq_true hp, ht⟩
  · rintro ⟨d, hd, hp, ht⟩
    cases hfind : ds.find? fun d ↦ decide (d.Covers p) with
    | none =>
      have := List.find?_eq_none.1 hfind d hd
      exact absurd (decide_eq_true hp) this
    | some e =>
      have hep := List.find?_some hfind
      have he := List.mem_of_find?_eq_some hfind
      rw [h.covers_inj hd he hp (of_decide_eq_true hep)] at ht
      exact ⟨e, rfl, ht⟩

/-- No two entries that meet have the same type and attribute. -/
theorem InOrder.not_mergeable (h : InOrder ds) (hfrom : UnmergedFrom ds 0) (hd : d ∈ ds)
    (he : e ∈ ds) (hmeet : e.stop = d.physicalStart) : ¬ (d.type = e.type ∧ d.attr = e.attr) := by
  rintro ⟨htype, hattr⟩
  obtain ⟨i, hi⟩ := List.mem_iff_getElem?.1 hd
  obtain ⟨j, hj⟩ := List.mem_iff_getElem?.1 he
  have hm : Mergeable d e := (mergeable_iff (h.ok e he)).2 ⟨hmeet, htype, hattr⟩
  obtain rfl := h.next_of_mergeable hi hj hm
  exact hfrom i d e (Nat.zero_le i) hi hj hm

/-! ## One addition -/

/-- The arguments of a call of `efi_add_memory_map` that may overlap any memory. -/
structure Call where
  start : ℕ
  pages : ℕ
  memoryType : ℤ
  aligned : 2 ^ 12 ∣ start
  fits : start + pages * 2 ^ 12 < 2 ^ 64

namespace Call

/-- The page number `p` is in the range of the call. -/
def InRange (c : Call) (p : ℕ) : Prop :=
  c.start ≤ p * 2 ^ 12 ∧ p * 2 ^ 12 < c.start + c.pages * 2 ^ 12

instance (c : Call) (p : ℕ) : Decidable (c.InRange p) := inferInstanceAs (Decidable (_ ∧ _))

/-- The type that the pages of the range get. -/
def type (c : Call) : ℕ := (c.memoryType % 2 ^ 32).toNat

theorem newDesc_ok (c : Call) (hpos : 0 < c.pages) : (newDesc c.start c.pages c.memoryType).Ok :=
  ⟨hpos, c.aligned, c.fits⟩

/-- The call, on a map. -/
def add (c : Call) (ds : List MemDesc) : Option (Status × List MemDesc) :=
  efiAddMemoryMap ds c.start c.pages c.memoryType false

end Call

/-- A map that is in order and merged. -/
structure Ready (ds : List MemDesc) : Prop where
  inOrder : InOrder ds
  unmerged : UnmergedFrom ds 0

theorem ready_nil : Ready [] where
  inOrder := ⟨fun _ hd ↦ absurd hd List.not_mem_nil, .nil⟩
  unmerged := unmergedFrom_end (Nat.zero_le _)

/-- A region is put into a map that has room for it. -/
theorem Cleared.typeAt {c : MemDesc} {ds₁ ds' : List MemDesc} (hds : InOrder ds)
    (h : Cleared c ds ds₁) (hm : Merged (ds₁ ++ [c]) ds') (p : ℕ) :
    typeAt ds' p = if c.Covers p then some c.type else typeAt ds p := by
  apply Option.ext
  intro t
  rw [hm.inOrder.typeAt_eq_some, hm.carries, carries_append]
  have hnew : Carries [c] p t ↔ c.Covers p ∧ c.type = t := by
    rw [carries_cons]
    exact or_iff_left fun ⟨_, he, _⟩ ↦ List.not_mem_nil he
  rw [hnew]
  by_cases hp : c.Covers p
  · rw [if_pos hp, Option.some.injEq]
    constructor
    · rintro (⟨d, hd, hdp, -⟩ | ⟨-, ht⟩)
      · exact absurd ⟨hp.1.trans_lt hdp.2, hdp.1.trans_lt hp.2⟩ (h.free d hd)
      · exact ht
    · exact fun ht ↦ .inr ⟨hp, ht⟩
  · rw [if_neg hp, h.outside p t hp, hds.typeAt_eq_some]
    exact or_iff_left fun hc ↦ hp hc.1

/-- A call returns; it fails for a type that does not exist, and else the map stays as it is outside
the range. -/
theorem InOrder.add_spec (h : InOrder ds) (c : Call) :
    ∃ st ds', c.add ds = some (st, ds') ∧ (ds' = ds ∨ Ready ds') ∧
      (st = .success → c.memoryType < maxMemoryType ∧
        ∀ p, typeAt ds' p = if c.InRange p then some c.type else typeAt ds p) ∧
      (st ≠ .success → maxMemoryType ≤ c.memoryType ∧ ds' = ds) := by
  unfold Call.add efiAddMemoryMap
  by_cases hmax : maxMemoryType ≤ c.memoryType
  · rw [if_pos hmax]
    exact ⟨_, _, rfl, .inl rfl, fun hst ↦ (nomatch hst), fun _ ↦ ⟨hmax, rfl⟩⟩
  rw [if_neg hmax]
  by_cases hpages : c.pages = 0
  · rw [if_pos hpages]
    refine ⟨_, _, rfl, .inl rfl, fun _ ↦ ⟨Int.not_le.1 hmax, fun p ↦ ?_⟩, fun hst ↦ absurd rfl hst⟩
    have hout : ¬ c.InRange p := by
      rintro ⟨hlow, hhigh⟩
      rw [hpages] at hhigh
      omega
    rw [if_neg hout]
  rw [if_neg hpages]
  have hc := c.newDesc_ok (Nat.pos_of_ne_zero hpages)
  have hfuel := Nat.lt_succ_of_le (sum_weight_le (newDesc c.start c.pages c.memoryType) ds)
  obtain ⟨n, ds₁, hcarve, hcleared⟩ := carveLoop_spec (k := 0) hc h hfuel
  have hok : ∀ d ∈ ds₁ ++ [newDesc c.start c.pages c.memoryType], d.Ok := by
    intro d hd
    obtain hd | hd := List.mem_append.1 hd
    · exact hcleared.inOrder.ok d hd
    · rw [List.mem_singleton.1 hd]
      exact hc
  have hapart : (ds₁ ++ [newDesc c.start c.pages c.memoryType]).Pairwise Apart := by
    refine List.pairwise_append.2 ⟨hcleared.inOrder.apart, List.pairwise_singleton _ _, ?_⟩
    intro d hd e he
    have hfree := hcleared.free d hd
    rw [List.mem_singleton.1 he]
    rw [MemDesc.Overlaps, not_and_or, Nat.not_lt, Nat.not_lt] at hfree
    exact hfree.symm
  obtain ⟨ds', hsort, hmerged⟩ := efiMemSort_spec hok hapart
  refine ⟨.success, ds', ?_, .inr ⟨hmerged.inOrder, hmerged.unmerged⟩,
    fun _ ↦ ⟨Int.not_le.1 hmax, hcleared.typeAt h hmerged⟩, fun hst ↦ absurd rfl hst⟩
  simp only [Option.bind_eq_bind, hcarve, Option.bind_some, Bool.false_eq_true, false_and, if_false,
    hsort]

/-- A map that is in order and merged stays so. -/
theorem Ready.add_spec (h : Ready ds) (c : Call) :
    ∃ st ds', c.add ds = some (st, ds') ∧ Ready ds' ∧
      (st = .success → c.memoryType < maxMemoryType ∧
        ∀ p, typeAt ds' p = if c.InRange p then some c.type else typeAt ds p) ∧
      (st ≠ .success → maxMemoryType ≤ c.memoryType ∧ ds' = ds) := by
  obtain ⟨st, ds', hadd, hready, hsuccess, hfail⟩ := h.inOrder.add_spec c
  refine ⟨st, ds', hadd, ?_, hsuccess, hfail⟩
  rcases hready with rfl | hready
  · exact h
  · exact hready

/-! ## Runs -/

/-- Calls one after the other. -/
def addAll (ds : List MemDesc) (calls : List Call) : Option (List MemDesc) :=
  calls.foldlM (fun ds c ↦ (c.add ds).map Prod.snd) ds

/-- What a call makes of the types of the pages. -/
def Call.apply (c : Call) (types : ℕ → Option ℕ) (p : ℕ) : Option ℕ :=
  if c.memoryType < maxMemoryType ∧ c.InRange p then some c.type else types p

theorem Ready.addAll (h : Ready ds) (calls : List Call) :
    ∃ ds', addAll ds calls = some ds' ∧ Ready ds' ∧
      typeAt ds' = calls.foldl (fun types c ↦ c.apply types) (typeAt ds) := by
  induction calls generalizing ds with
  | nil => exact ⟨ds, rfl, h, rfl⟩
  | cons c calls ih =>
    obtain ⟨st, ds₁, hadd, hready, hsuccess, hfail⟩ := h.add_spec c
    obtain ⟨ds', hall, hready', htypes⟩ := ih hready
    refine ⟨ds', ?_, hready', ?_⟩
    · rw [Efi.addAll, List.foldlM_cons, hadd]
      exact hall
    · have happly : typeAt ds₁ = c.apply (typeAt ds) := by
        funext p
        rw [Call.apply]
        by_cases hst : st = .success
        · obtain ⟨hlt, heq⟩ := hsuccess hst
          rw [heq p]
          simp only [hlt, true_and]
        · obtain ⟨hge, rfl⟩ := hfail hst
          rw [if_neg (fun hc ↦ absurd hc.1 (Int.not_lt.2 hge))]
      rw [htypes, List.foldl_cons, happly]

/-- Every map that is built from the empty one lists regions from the highest to the lowest, none of
them empty, and no two that could be one; its pages have the types that the calls have given them;
and the next call changes the types of its range and of no other page. -/
theorem addAll_invariant (calls : List Call) :
    ∃ ds, addAll [] calls = some ds ∧ InOrder ds ∧
      (∀ d ∈ ds, ∀ e ∈ ds, e.stop = d.physicalStart → ¬ (d.type = e.type ∧ d.attr = e.attr)) ∧
      typeAt ds = calls.foldl (fun types c ↦ c.apply types) (fun _ ↦ none) ∧
      ∀ c : Call, ∃ st ds', efiAddMemoryMap ds c.start c.pages c.memoryType false = some (st, ds') ∧
        (st = .success → ∀ p, typeAt ds' p = if c.InRange p then some c.type else typeAt ds p) ∧
        (st ≠ .success → maxMemoryType ≤ c.memoryType ∧ ds' = ds) := by
  obtain ⟨ds, hall, hready, htypes⟩ := ready_nil.addAll calls
  refine ⟨ds, hall, hready.inOrder, ?_, htypes, fun c ↦ ?_⟩
  · intro d hd e he hmeet
    exact hready.inOrder.not_mergeable hready.unmerged hd he hmeet
  · obtain ⟨st, ds', hadd, -, hsuccess, hfail⟩ := hready.add_spec c
    exact ⟨st, ds', hadd, fun hst ↦ (hsuccess hst).2, hfail⟩

/-- Free memory, of which two pages in the middle are then allocated. -/
def ramWithHole : List Call :=
  [⟨0x1000, 8, 7, by decide, by decide⟩, ⟨0x3000, 2, 4, by decide, by decide⟩]

theorem addAll_invariant_hole : ∃ ds, addAll [] ramWithHole = some ds ∧ InOrder ds ∧
    typeAt ds 0 = none ∧ typeAt ds 2 = some 7 ∧ typeAt ds 3 = some 4 ∧ typeAt ds 5 = some 7 := by
  obtain ⟨ds, hall, hinOrder, -, htypes, -⟩ := addAll_invariant ramWithHole
  refine ⟨ds, hall, hinOrder, ?_⟩
  rw [htypes]
  exact ⟨rfl, rfl, rfl, rfl⟩

end MiniPi.Efi
