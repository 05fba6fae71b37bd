import MiniPi.Lmb.Invariant

/-!
# What `lmb_free` takes away

`lmb_free` drops, shortens or splits the region that contains the range.  A split
first shortens the region and then adds the part behind the hole, and there two
things go wrong: when the table is full the addition fails and that part is lost,
and when the part ends at the top of the address space it is taken for the lower
neighbour of a region that starts at address `0`.
-/

namespace MiniPi.Lmb

open Lib

variable {w : ℕ}

/-- The range can be taken out of the table: it lies in one region, and a split leaves no
more regions than the array has places. -/
def Removable (t : Region w) (new : Property w) : Prop :=
  ∃ r ∈ t, r.lo ≤ new.lo ∧ new.hi ≤ r.hi ∧
    (r.lo < new.lo → new.hi < r.hi → t.length < maxLmbRegions ∨ ∃ c ∈ t, c.lo = r.hi)

/-- What `lmb_free` promises. -/
structure Frees (t : Region w) (new : Property w) (res : ℤ × Region w) : Prop where
  /-- It succeeds when the range can be taken out. -/
  succeeds : 0 ≤ res.1 ↔ Removable t new
  /-- Success takes the range out and nothing else. -/
  removed : 0 ≤ res.1 → covered res.2 = covered t \ new.bytes
  /-- Failure changes nothing. -/
  unchanged : res.1 < 0 → res.2 = t

/-- No split goes wrong: where a region reaches beyond the range on both sides, the table
has a place left or the part behind the hole extends the next region, and it does not end
at the top of the address space while a region starts at address `0`. -/
def FreeSafe (t : Region w) (new : Property w) : Prop :=
  ∀ r ∈ t, r.lo < new.lo → new.hi < r.hi →
    (t.length < maxLmbRegions ∨ ∃ c ∈ t, c.lo = r.hi) ∧ (r.hi = 2 ^ w → ∀ c ∈ t, c.lo ≠ 0)

section Removing

variable {before after : Region w} {r r' new : Property w}

theorem covered_append (t t' : Region w) : covered (t ++ t') = covered t ∪ covered t' :=
  Segments.cover_append t t'

theorem covered_cons (r : Property w) (t : Region w) : covered (r :: t) = r.bytes ∪ covered t :=
  Segments.cover_cons r t

theorem covered_singleton (r : Property w) : covered [r] = r.bytes := by
  simp [covered, Property.bytes]

/-- A table from which one region was taken or replaced by others. -/
theorem covered_middle (before after l : Region w) :
    covered (before ++ l ++ after) = covered before ∪ covered l ∪ covered after := by
  rw [covered_append, covered_append]

/-- Taking out a part of one region leaves the other regions alone. -/
theorem covered_diff (hv : Valid (before ++ r :: after)) (hlo : r.lo ≤ new.lo)
    (hhi : new.hi ≤ r.hi) (l : Region w) (hl : covered l = r.bytes \ new.bytes) :
    covered (before ++ l ++ after) = covered (before ++ r :: after) \ new.bytes := by
  obtain ⟨-, -, -, hbr, hra, -⟩ := Segments.sorted_middle.mp hv.sorted
  have hleft : ∀ x ∈ covered before, x ∉ new.bytes := by
    rintro x ⟨c, hc, hx₁, hx₂⟩ ⟨hx₃, hx₄⟩
    have := hbr c hc
    omega
  have hright : ∀ x ∈ covered after, x ∉ new.bytes := by
    rintro x ⟨c, hc, hx₁, hx₂⟩ ⟨hx₃, hx₄⟩
    have := hra c hc
    omega
  have hsingle : covered (before ++ r :: after) = covered before ∪ r.bytes ∪ covered after := by
    simp only [covered, Segments.cover_append, Segments.cover_cons, Property.bytes, Set.union_assoc]
  rw [covered_middle, hl, hsingle]
  ext x
  have hxl := hleft x
  have hxr := hright x
  simp only [Set.mem_union, Set.mem_sdiff]
  tauto

/-- The two parts a split leaves, and where they lie. -/
structure Split (before after : Region w) (r new front back : Property w) : Prop where
  frontLo : front.lo = r.lo
  frontHi : front.hi = new.lo
  backLo : back.lo = new.hi
  backHi : back.hi = r.hi
  valid : Valid (before ++ front :: after)
  fits : back.Fits

/-- What `lmb_free` does up to its call of `lmb_add_region`. -/
inductive Plan (t : Region w) (new : Property w) : FreePlan w → Prop
  /-- No region contains the range. -/
  | notFound : (∀ r ∈ t, ¬(r.lo ≤ new.lo ∧ new.hi ≤ r.hi)) → Plan t new .notFound
  /-- The range was cut off at one end of a region, or was the whole of it. -/
  | done {before after l : Region w} {r : Property w} : t = before ++ r :: after →
      r.lo ≤ new.lo → new.hi ≤ r.hi → (r.lo = new.lo ∨ r.hi = new.hi) →
      covered l = r.bytes \ new.bytes → Plan t new (.done (before ++ l ++ after))
  /-- The range lies inside a region. -/
  | split {before after : Region w} {r front back : Property w} : t = before ++ r :: after →
      r.lo < new.lo → new.hi < r.hi → Split before after r new front back →
      Plan t new (.split (before ++ front :: after) back)

theorem freePlan_plan {t : Region w} (hv : Valid t) (hn : new.Fits) :
    Plan t new (freePlan t new.base new.size) := by
  have hcut := freePlan_cut hv hn
  have hnlt := hn.lo_lt_hi
  generalize freePlan t new.base new.size = plan at hcut ⊢
  cases hcut with
  | notFound hno => exact .notFound hno
  | @whole before after r heq hlo hhi =>
      have hnil : covered ([] : Region w) = r.bytes \ new.bytes := by
        ext x
        simp only [covered, Segments.cover_nil, Property.bytes, Set.mem_sdiff, Set.mem_Ico,
          Set.mem_empty_iff_false]
        exact iff_of_false id fun h ↦ h.2 (by omega)
      have hplan := @Plan.done w t new before after [] r heq hlo.le hhi.ge (.inl hlo) hnil
      rwa [List.append_nil] at hplan
  | @front before after r rest heq hlo hhi hlo' hhi' =>
      have hone : covered [rest] = r.bytes \ new.bytes := by
        ext x
        simp only [covered_singleton, Property.bytes, hlo', hhi', Set.mem_sdiff, Set.mem_Ico]
        constructor
        · rintro ⟨h₁, h₂⟩
          exact ⟨⟨by omega, h₂⟩, fun h ↦ absurd h.2 (by omega)⟩
        · rintro ⟨⟨h₁, h₂⟩, h₃⟩
          exact ⟨not_lt.mp fun h ↦ h₃ ⟨by omega, h⟩, h₂⟩
      have hplan := @Plan.done w t new before after _ r heq hlo.le hhi.le (.inl hlo) hone
      rwa [List.append_assoc] at hplan
  | @back before after r rest heq hlo hhi hlo' hhi' =>
      have hone : covered [rest] = r.bytes \ new.bytes := by
        ext x
        simp only [covered_singleton, Property.bytes, hlo', hhi', Set.mem_sdiff, Set.mem_Ico]
        omega
      have hplan := @Plan.done w t new before after _ r heq hlo.le hhi.ge (.inr hhi) hone
      rwa [List.append_assoc] at hplan
  | split heq hlo hhi hlo₁ hhi₁ hlo₂ hhi₂ =>
      subst heq
      refine .split rfl hlo hhi ⟨hlo₁, hhi₁, hlo₂, hhi₂, ?_, ?_⟩
      · exact (hv.shrink hlo₁.ge (by omega) (by omega)).1
      · exact (hv.shrink (by omega) (by omega) hhi₂.le).2

end Removing

/-! ## The call that adds the part behind the hole -/

section Splitting

variable {before after : Region w} {r new front back : Property w}

/-- The addition is safe unless the part ends at the top while a region starts at `0`. -/
theorem Split.addSafe (h : Split before after r new front back) (hnew : new.Fits)
    (hr : r.lo < new.lo) (hlt : new.hi < r.hi)
    (hv : Valid (before ++ r :: after))
    (htop : r.hi = 2 ^ w → ∀ c ∈ before ++ r :: after, c.lo ≠ 0) :
    AddSafe (before ++ front :: after) back := by
  obtain ⟨-, hsa, hrpos, hbr, hra, -⟩ := Segments.sorted_middle.mp hv.sorted
  have hnlt := hnew.lo_lt_hi
  have hbl := h.backLo
  have hbh := h.backHi
  -- no region ends where the part starts
  have hends : ∀ c ∈ before ++ front :: after, c.hi ≠ back.lo := by
    intro c hc
    rcases List.mem_append.mp hc with hc | hc
    · have := hbr c hc
      omega
    · rcases List.mem_cons.mp hc with rfl | hc
      · have := h.frontHi
        omega
      · have := hra c hc
        have := hsa.pos c hc
        omega
  refine ⟨fun c hc heq ↦ absurd heq (hends c hc), fun heq c hc ↦ ?_, fun h0 ↦ ?_,
    fun _ c hc _ heq ↦ absurd heq (hends c hc)⟩
  · have hno := htop (by omega)
    rcases List.mem_append.mp hc with hc | hc
    · exact hno c (List.mem_append_left _ hc)
    · rcases List.mem_cons.mp hc with rfl | hc
      · rw [h.frontLo]
        exact hno r (by simp)
      · exact hno c (by simp [hc])
  · omega

/-- The addition fails only when the table is full and no region starts where the part
ends. -/
theorem Split.refused_iff (h : Split before after r new front back) (hnew : new.Fits)
    (hr : r.lo < new.lo) (hlt : new.hi < r.hi) (hv : Valid (before ++ r :: after)) :
    Refused (before ++ front :: after) back ↔
      maxLmbRegions ≤ (before ++ r :: after).length ∧
        (∀ c ∈ before ++ r :: after, c.lo ≠ r.hi) ∧
        (r.hi = 2 ^ w → ∀ c ∈ before ++ r :: after, c.lo ≠ 0) := by
  obtain ⟨-, hsa, hrpos, hbr, hra, -⟩ := Segments.sorted_middle.mp hv.sorted
  have hnlt := hnew.lo_lt_hi
  have hbl := h.backLo
  have hbh := h.backHi
  have hfl := h.frontLo
  have hfh := h.frontHi
  -- the two tables list the same starts
  have hstart (p : ℕ → Prop) : (∀ c ∈ before ++ front :: after, p c.lo) ↔
      ∀ c ∈ before ++ r :: after, p c.lo := by
    simp only [List.forall_mem_append, List.forall_mem_cons, hfl]
  have hapart : ∀ c ∈ before ++ front :: after, c.hi < back.lo ∨ back.hi ≤ c.lo := by
    intro c hc
    rcases List.mem_append.mp hc with hc | hc
    · have := hbr c hc
      omega
    · rcases List.mem_cons.mp hc with rfl | hc
      · omega
      · have := hra c hc
        omega
  have hpos : ∀ c ∈ before ++ front :: after, c.lo < c.hi := h.valid.sorted.pos
  have hlen : (before ++ front :: after).length = (before ++ r :: after).length := by simp
  constructor
  · intro href
    rcases href.cause with ⟨c, hc, hov₁, hov₂⟩ | ⟨hfull, hno⟩
    · have := hapart c hc
      omega
    · refine ⟨hlen ▸ hfull, (hstart fun n ↦ n ≠ r.hi).mp fun c hc ↦ hbh ▸ hno c hc, fun htop ↦ ?_⟩
      exact (hstart fun n ↦ n ≠ 0).mp (href.noTop (hbh.trans htop))
  · rintro ⟨hfull, hno, htop⟩
    refine ⟨fun hmem ↦ ?_, fun c hc ↦ ?_, fun heq ↦ ?_, Or.inr ⟨hlen ▸ hfull, fun c hc ↦ ?_⟩⟩
    · have := hapart back hmem
      have := hpos back hmem
      omega
    · have := hapart c hc
      have := hpos c hc
      omega
    · exact (hstart fun n ↦ n ≠ 0).mpr (htop (by omega))
    · exact hbh ▸ (hstart fun n ↦ n ≠ r.hi).mpr hno c hc

end Splitting

/-- The two parts are the region without the range. -/
theorem Split.covered_parts {before after : Region w} {r new front back : Property w}
    (h : Split before after r new front back) (hr : r.lo < new.lo) (hlt : new.hi < r.hi)
    (hnlt : new.lo < new.hi) : covered [front, back] = r.bytes \ new.bytes := by
  rw [covered_cons, covered_singleton]
  ext x
  simp only [Property.bytes, h.frontLo, h.frontHi, h.backLo, h.backHi, Set.mem_union,
    Set.mem_sdiff, Set.mem_Ico]
  constructor
  · rintro (⟨h₁, h₂⟩ | ⟨h₁, h₂⟩)
    · exact ⟨⟨h₁, by omega⟩, fun h ↦ absurd h.1 (by omega)⟩
    · exact ⟨⟨by omega, h₂⟩, fun h ↦ absurd h.2 (by omega)⟩
  · rintro ⟨⟨h₁, h₂⟩, h₃⟩
    by_cases hx : x < new.lo
    · exact Or.inl ⟨h₁, hx⟩
    · exact Or.inr ⟨not_lt.mp fun h ↦ h₃ ⟨not_lt.mp hx, h⟩, h₂⟩

/-- A split keeps the promise exactly when its addition does no harm. -/
theorem Split.frees_iff {before after : Region w} {r new front back : Property w}
    (h : Split before after r new front back) (hnew : new.Fits) (hr : r.lo < new.lo)
    (hlt : new.hi < r.hi) (hv : Valid (before ++ r :: after)) :
    Frees (before ++ r :: after) new
        (lmbAddRegion (before ++ front :: after) back.base back.size) ↔
      FreeSafe (before ++ r :: after) new := by
  obtain ⟨-, hsa, hrpos, hbr, hra, -⟩ := Segments.sorted_middle.mp hv.sorted
  have hnlt := hnew.lo_lt_hi
  have hbl := h.backLo
  have hbh := h.backHi
  have hfl := h.frontLo
  have hfh := h.frontHi
  have hb0 : back.lo ≠ 0 := by omega
  have href := h.refused_iff hnew hr hlt hv
  rw [← lmbAddRegion_neg_iff h.valid h.fits hb0] at href
  -- the range lies in `r` and in no other region
  have honly : ∀ c ∈ before ++ r :: after, c.lo ≤ new.lo → new.hi ≤ c.hi → c = r := by
    intro c hc hlo hhi
    rcases List.mem_append.mp hc with hc | hc
    · have := hbr c hc
      omega
    · rcases List.mem_cons.mp hc with rfl | hc
      · rfl
      · have := hra c hc
        omega
  have hsafe : FreeSafe (before ++ r :: after) new ↔
      ((before ++ r :: after).length < maxLmbRegions ∨ ∃ c ∈ before ++ r :: after, c.lo = r.hi) ∧
        (r.hi = 2 ^ w → ∀ c ∈ before ++ r :: after, c.lo ≠ 0) := by
    constructor
    · intro hfree
      exact hfree r (by simp) hr hlt
    · intro hcond c hc hlo hhi
      obtain rfl := honly c hc hlo.le hhi.le
      exact hcond
  have hremovable : Removable (before ++ r :: after) new ↔
      ((before ++ r :: after).length < maxLmbRegions ∨
        ∃ c ∈ before ++ r :: after, c.lo = r.hi) := by
    constructor
    · rintro ⟨c, hc, hlo, hhi, hroom⟩
      obtain rfl := honly c hc hlo hhi
      exact hroom hr hlt
    · intro hroom
      exact ⟨r, by simp, hr.le, hlt.le, fun _ _ ↦ hroom⟩
  by_cases htop : r.hi = 2 ^ w → ∀ c ∈ before ++ r :: after, c.lo ≠ 0
  · have hspec := lmbAddRegion_spec h.valid h.fits (h.addSafe hnew hr hlt hv htop)
    by_cases hroom : (before ++ r :: after).length < maxLmbRegions ∨
        ∃ c ∈ before ++ r :: after, c.lo = r.hi
    · have hret : 0 ≤ (lmbAddRegion (before ++ front :: after) back.base back.size).1 := by
        rw [← not_lt, href]
        rintro ⟨hfull, hno, -⟩
        rcases hroom with hroom | ⟨c, hc, hlo⟩
        · omega
        · exact hno c hc hlo
      refine iff_of_true ⟨iff_of_true hret (hremovable.mpr hroom), fun _ ↦ ?_,
        fun hneg ↦ absurd hret (not_le.mpr hneg)⟩ (hsafe.mpr ⟨hroom, htop⟩)
      rw [hspec.added hret, ← covered_diff hv hr.le hlt.le _ (h.covered_parts hr hlt hnlt),
        covered_middle, covered_cons front, covered_append, covered_cons front, covered_singleton]
      simp only [Set.union_assoc]
      rw [Set.union_comm back.bytes]
    · -- the part behind the hole is lost
      have hneg : (lmbAddRegion (before ++ front :: after) back.base back.size).1 < 0 := by
        rw [href]
        rw [not_or, not_lt] at hroom
        exact ⟨hroom.1, fun c hc heq ↦ hroom.2 ⟨c, hc, heq⟩, htop⟩
      refine iff_of_false (fun hfrees ↦ ?_) fun hfree ↦ hroom (hsafe.mp hfree).1
      have hsame := hfrees.unchanged hneg
      rw [hspec.unchanged hneg, List.append_cancel_left_eq, List.cons.injEq] at hsame
      obtain ⟨rfl, -⟩ := hsame
      omega
  · -- the part is taken for the lower neighbour of the region at address `0`
    refine iff_of_false (fun hfrees ↦ ?_) fun hfree ↦ htop (hsafe.mp hfree).2
    simp only [not_forall, not_not] at htop
    obtain ⟨hrtop, c, hc, hc0⟩ := htop
    have hc' : c ∈ before ++ front :: after := by
      rcases List.mem_append.mp hc with hc | hc
      · exact List.mem_append_left _ hc
      · rcases List.mem_cons.mp hc with rfl | hc
        · have hsize := c.size_eq
          have hlt := c.size.isLt
          omega
        · simp [hc]
    obtain ⟨hret, hlost⟩ := lmbAddRegion_of_top h.valid hb0 (hbh.trans hrtop) hc' hc0
    rw [hfrees.removed hret] at hlost
    refine hlost ⟨⟨c, hc, hc0.le, ?_⟩, fun hx ↦ absurd hx.1 (by omega)⟩
    have := hv.sorted.pos c hc
    omega

/-- `lmb_free` keeps its promise exactly when no split goes wrong. -/
theorem lmbFree_frees_iff (lmb : Tables w) (base size : BitVec w) (hv : Valid lmb.reserved)
    (hn : Property.Fits ⟨base, size⟩) :
    Frees lmb.reserved ⟨base, size⟩
        ((lmbFree lmb base size).1, (lmbFree lmb base size).2.reserved) ↔
      FreeSafe lmb.reserved ⟨base, size⟩ := by
  have hplan := freePlan_plan hv hn
  have hnlt := hn.lo_lt_hi
  dsimp only at hplan
  unfold lmbFree
  generalize freePlan lmb.reserved base size = plan at hplan ⊢
  cases hplan with
  | notFound hno =>
      refine iff_of_true ⟨iff_of_false (fun h ↦ absurd h (by simp)) ?_,
        fun h ↦ absurd h (by simp), fun _ ↦ rfl⟩ ?_
      · rintro ⟨r, hr, hlo, hhi, -⟩
        exact hno r hr ⟨hlo, hhi⟩
      · intro r hr hlo hhi
        exact absurd ⟨hlo.le, hhi.le⟩ (hno r hr)
  | done heq hlo hhi hend hl =>
      rename_i before after l r
      rw [heq] at hv ⊢
      obtain ⟨-, -, -, hbr, hra, -⟩ := Segments.sorted_middle.mp hv.sorted
      have hsafe : FreeSafe (before ++ r :: after) ⟨base, size⟩ := by
        intro c hc hlo' hhi'
        rcases List.mem_append.mp hc with hc | hc
        · have := hbr c hc
          omega
        · rcases List.mem_cons.mp hc with rfl | hc
          · omega
          · have := hra c hc
            omega
      refine iff_of_true ⟨iff_of_true le_rfl ?_, fun _ ↦ covered_diff hv hlo hhi l hl,
        fun h ↦ absurd h (by simp)⟩ hsafe
      exact ⟨r, by simp, hlo, hhi, fun h₁ h₂ ↦ by omega⟩
  | split heq hlo hhi hsplit =>
      rw [heq] at hv ⊢
      exact hsplit.frees_iff hn hlo hhi hv

/-- Eight regions, the first of which is to be split: the part behind the hole is lost, and
the call reports a failure. -/
theorem lmbFree_loses_back :
    ¬∀ (lmb : Tables 32) (base size : BitVec 32), Valid lmb.reserved → Property.Fits ⟨base, size⟩ →
      Frees lmb.reserved ⟨base, size⟩
        ((lmbFree lmb base size).1, (lmbFree lmb base size).2.reserved) := by
  intro h
  have hfull := h ⟨[], [⟨0x1000, 0x300⟩, ⟨0x2000, 0x100⟩, ⟨0x3000, 0x100⟩, ⟨0x4000, 0x100⟩,
    ⟨0x5000, 0x100⟩, ⟨0x6000, 0x100⟩, ⟨0x7000, 0x100⟩, ⟨0x8000, 0x100⟩]⟩ 0x1100 0x100
    ⟨⟨by decide, by decide⟩, by decide⟩ ⟨by decide, by decide⟩
  exact absurd (hfull.unchanged (by decide)) (by decide)

/-- The same hole in a table of one region. -/
theorem lmbFree_frees_middle :
    Frees (w := 32) [⟨0x1000, 0x300⟩] ⟨0x1100, 0x100⟩
      ((lmbFree (w := 32) ⟨[], [⟨0x1000, 0x300⟩]⟩ 0x1100 0x100).1,
        (lmbFree (w := 32) ⟨[], [⟨0x1000, 0x300⟩]⟩ 0x1100 0x100).2.reserved) := by
  refine (lmbFree_frees_iff (w := 32) ⟨[], [⟨0x1000, 0x300⟩]⟩ 0x1100 0x100
    (Valid.singleton ⟨by decide, by decide⟩) ⟨by decide, by decide⟩).mpr ?_
  intro r hr _ _
  obtain rfl := List.mem_singleton.mp hr
  exact ⟨Or.inl (by decide), fun htop ↦ absurd htop (by decide)⟩

end MiniPi.Lmb
