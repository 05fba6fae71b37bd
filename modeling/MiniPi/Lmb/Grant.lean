import MiniPi.Lmb.Free

/-!
# What `lmb_alloc_addr` grants

`lmb_alloc_addr` looks for a memory region that meets the range and tests whether the
same region contains the last byte of it.  The first byte is not tested, so a range that
starts below a memory region and ends in it is taken.  Whether the range is free is left
to `lmb_reserve`, which succeeds for a range that is a reserved region already and for one
that follows a reserved region directly, whatever else it overlaps.
-/

namespace MiniPi.Lmb

open Lib

variable {w : ℕ}

/-- The range lies in one region of the table. -/
def Inside (t : Region w) (new : Property w) : Prop := ∃ m ∈ t, m.lo ≤ new.lo ∧ new.hi ≤ m.hi

/-- The range starts below a region that contains its end, and meets no lower region. -/
def PokesIn (t : Region w) (new : Property w) : Prop :=
  ∃ m ∈ t, new.lo < m.lo ∧ m.lo < new.hi ∧ new.hi ≤ m.hi ∧ ∀ c ∈ t, c.hi ≤ m.lo → c.hi ≤ new.lo

/-- The table has room for the range: a free place, or a region the range extends. -/
def HasRoom (t : Region w) (new : Property w) : Prop :=
  t.length < maxLmbRegions ∨ ∃ r ∈ t, r.hi = new.lo ∨ r.lo = new.hi

/-- The range is memory and free, and there is room to reserve it. -/
structure Grantable (lmb : Tables w) (new : Property w) : Prop where
  inside : Inside lmb.memory new
  free : Disjoint (covered lmb.reserved) new.bytes
  room : HasRoom lmb.reserved new

/-- What `lmb_alloc_addr` promises. -/
structure Grants (lmb : Tables w) (base size : BitVec w) (res : BitVec w × Tables w) : Prop where
  /-- The range is granted when it can be. -/
  granted : res.1 = base ↔ Grantable lmb ⟨base, size⟩
  /-- What is granted becomes reserved. -/
  reserved : res.1 = base →
    covered res.2.reserved = covered lmb.reserved ∪ (⟨base, size⟩ : Property w).bytes
  /-- Otherwise nothing changes. -/
  refused : res.1 ≠ base → res.1 = 0 ∧ res.2.reserved = lmb.reserved

/-- The condition under which `lmb_alloc_addr` keeps its promise.  For a range in memory:
it is no reserved region itself, and the addition is safe.  For a range of which only the
end is memory: the addition is refused. -/
structure AddrSafe (lmb : Tables w) (new : Property w) : Prop where
  /-- The range is not a reserved region. -/
  notSame : Inside lmb.memory new → new ∉ lmb.reserved
  /-- No reserved region ends where the range starts while another one meets the range. -/
  noOverrun : Inside lmb.memory new → ∀ r ∈ lmb.reserved, r.hi = new.lo →
    ∀ r' ∈ lmb.reserved, r'.hi ≤ new.lo ∨ new.hi ≤ r'.lo
  /-- The range does not end at the top while a reserved region starts at address `0`. -/
  noTop : Inside lmb.memory new → new.hi = 2 ^ w → ∀ r ∈ lmb.reserved, r.lo ≠ 0
  /-- Of two reserved regions that end at the start of the range and at the top, the first
  does not start at address `0`. -/
  noNext : Inside lmb.memory new → lmb.reserved.length = 2 → ∀ r ∈ lmb.reserved, r.lo = 0 →
    r.hi = new.lo → ∀ r' ∈ lmb.reserved, r'.hi ≠ 2 ^ w
  /-- A range of which only the end is memory is refused. -/
  pokesIn : PokesIn lmb.memory new → Refused lmb.reserved new

variable {lmb : Tables w} {t : Region w} {new : Property w}

/-! ## The test on the memory table -/

theorem one_of_fits {r : Property w} (h : r.Fits) : (1 : BitVec w).toNat = 1 := by
  have hpos := h.pos
  have hlt := r.size.isLt
  change (1#w).toNat = 1
  rw [BitVec.toNat_ofNat]
  exact Nat.mod_eq_of_lt (by omega)

/-- The last byte of a range, as a range. -/
theorem fits_last (hn : new.Fits) : Property.Fits ⟨new.base + new.size - 1, (1 : BitVec w)⟩ ∧
    Property.lo ⟨new.base + new.size - 1, (1 : BitVec w)⟩ = new.hi - 1 ∧
    Property.hi ⟨new.base + new.size - 1, (1 : BitVec w)⟩ = new.hi := by
  have hone := one_of_fits hn
  have hlast := toNat_last hn
  have htop := hn.top
  have hlt := hn.lo_lt_hi
  have hhi : new.base.toNat + new.size.toNat = new.hi := rfl
  rw [hhi] at hlast
  refine ⟨⟨by simp only [hone]; decide, ?_⟩, hlast, ?_⟩
  · simp only [Property.hi, hone, hlast]
    exact (Nat.sub_add_cancel (by omega)).le.trans htop
  · simp only [Property.hi, hone, hlast]
    exact Nat.sub_add_cancel (by omega)

theorem PokesIn.not_inside (hv : Valid t) (h : PokesIn t new) : ¬Inside t new := by
  rintro ⟨c, hc, hlo, hhi⟩
  obtain ⟨m, hm, h₁, h₂, h₃, h₄⟩ := h
  obtain ⟨before, after, rfl⟩ := List.append_of_mem hm
  obtain ⟨-, -, -, hbr, hra, -⟩ := Segments.sorted_middle.mp hv.sorted
  rcases List.mem_append.mp hc with hcb | hca
  · have := hbr c hcb
    omega
  · rcases List.mem_cons.mp hca with rfl | hca
    · omega
    · have := hra c hca
      omega

/-- The test passes for the ranges in memory and for those of which only the end is. -/
theorem inMemory_iff (hv : Valid t) (hn : new.Fits) :
    inMemory t new.base new.size = true ↔ Inside t new ∨ PokesIn t new := by
  obtain ⟨hlast, hlastLo, hlastHi⟩ := fits_last hn
  have hnlt := hn.lo_lt_hi
  have hover {r : Property w} (hr : r ∈ t) :=
    lmbAddrsOverlap_iff (a := new) hn (hv.fits hr)
  rw [inMemory]
  cases hf : lmbOverlapsRegion t new.base new.size with
  | none =>
      have hnone := lmbOverlapsRegion_eq_none hn hv hf
      refine iff_of_false (by simp) ?_
      rintro (⟨m, hm, h₁, h₂⟩ | ⟨m, hm, h₁, h₂, h₃, -⟩)
      · have hno := hnone m hm
        have hhi : new.base.toNat + new.size.toNat = new.hi := rfl
        have hlo : new.base.toNat = new.lo := rfl
        have := (hv.fits hm).lo_lt_hi
        omega
      · have hno := hnone m hm
        have hhi : new.base.toNat + new.size.toNat = new.hi := rfl
        have hlo : new.base.toNat = new.lo := rfl
        have := (hv.fits hm).lo_lt_hi
        omega
  | some m =>
      -- no region left of `m` meets the range
      obtain ⟨hov, before, after, rfl, hbefore⟩ := List.find?_eq_some_iff_append.mp hf
      have hm : m ∈ before ++ m :: after := by simp
      have hleft : ∀ c ∈ before, c.hi ≤ new.lo ∨ new.hi ≤ c.lo := by
        intro c hc
        have hno := mt (hover (List.mem_append_left _ hc)).mpr (by simpa using hbefore c hc)
        omega
      obtain ⟨hov₁, hov₂⟩ := (hover hm).mp hov
      obtain ⟨hsb, hsa, hmpos, hbr, hra, -⟩ := Segments.sorted_middle.mp hv.sorted
      dsimp only
      rw [lmbAddrsOverlap_iff (a := m) (hv.fits hm) hlast, hlastLo, hlastHi]
      constructor
      · rintro ⟨h₁, h₂⟩
        by_cases hin : m.lo ≤ new.lo
        · exact Or.inl ⟨m, hm, hin, by omega⟩
        · refine Or.inr ⟨m, hm, by omega, by omega, by omega, fun c hc hle ↦ ?_⟩
          rcases List.mem_append.mp hc with hc | hc
          · have := hleft c hc
            have := hsb.pos c hc
            omega
          · rcases List.mem_cons.mp hc with rfl | hc
            · omega
            · have := hra c hc
              have := hsa.pos c hc
              omega
      · rintro (⟨c, hc, h₁, h₂⟩ | ⟨c, hc, h₁, h₂, h₃, h₄⟩)
        · have hcm : c = m := by
            rcases List.mem_append.mp hc with hc | hc
            · have := hleft c hc
              have := hsb.pos c hc
              omega
            · rcases List.mem_cons.mp hc with rfl | hc
              · rfl
              · have := hra c hc
                omega
          rw [← hcm]
          omega
        · rcases List.mem_append.mp hc with hc | hc
          · have := hleft c hc
            have := hsb.pos c hc
            omega
          · rcases List.mem_cons.mp hc with rfl | hc
            · omega
            · have := hra c hc
              have := h₄ m hm this
              omega

/-! ## The call of `lmb_reserve` -/

/-- A reserved region from address `0` up to the range, and one that ends at the top: the
two are merged, and the top is lost. -/
theorem lmbAddRegion_of_next {r r' : Property w} (hr0 : r.lo = 0) (hrn : r.hi = new.lo)
    (hpos : 0 < new.lo) (htop : r'.hi = 2 ^ w) (hfree : new.hi ≤ r'.lo) (hlt : new.lo < new.hi) :
    2 ^ w - 1 ∉ covered (lmbAddRegion [r, r'] new.base new.size).2 := by
  have hlo' := r'.lo_lt_two_pow
  have hrb : r.base.toNat = 0 := hr0
  have hscan : addScan new.base new.size [r, r'] = .coalesced [] ⟨r.base,
      r.size + new.size⟩ [r'] := by
    have hneg : lmbAddrsAdjacent new.base new.size r.base r.size < 0 := by
      refine lmbAddrsAdjacent_neg_iff.mpr ⟨?_, ?_⟩
      · change r.lo ≠ new.hi % 2 ^ w
        rw [Nat.mod_eq_of_lt (by omega)]
        omega
      · change new.lo = r.hi % 2 ^ w
        rw [hrn, Nat.mod_eq_of_lt new.lo_lt_two_pow]
    rw [addScan, if_neg, if_neg (not_lt.mpr hneg.le), if_pos hneg]
    rintro ⟨hbase, -⟩
    have hlo : r.lo = new.lo := congrArg BitVec.toNat hbase
    omega
  have hadj : lmbRegionsAdjacent ⟨r.base, r.size + new.size⟩ r' ≠ 0 := by
    rw [lmbRegionsAdjacent, lmbAddrsAdjacent]
    have hwrap : r.base = r'.base + r'.size := by
      apply BitVec.eq_of_toNat_eq
      have hhi : r'.base.toNat + r'.size.toNat = 2 ^ w := htop
      rw [BitVec.toNat_add, hhi, Nat.mod_self, hrb]
    split_ifs <;> decide
  rw [lmbAddRegion, hscan, addFinish, coalesceNext, if_pos hadj]
  rintro ⟨c, hc, -, hhi⟩
  obtain rfl := List.mem_singleton.mp hc
  have hsize := (r.size + new.size + r'.size).isLt
  simp only [Property.hi, hrb] at hhi
  omega

theorem disjoint_covered_iff (hv : Valid t) (hn : new.Fits) :
    Disjoint (covered t) new.bytes ↔ ∀ r ∈ t, r.hi ≤ new.lo ∨ new.hi ≤ r.lo := by
  have hnlt := hn.lo_lt_hi
  constructor
  · intro h r hr
    have hrlt := (hv.fits hr).lo_lt_hi
    by_contra hno
    rw [not_or, not_le, not_le] at hno
    have hold : max r.lo new.lo ∈ covered t := ⟨r, hr, le_max_left _ _, max_lt hrlt hno.1⟩
    exact Set.disjoint_left.mp h hold ⟨le_max_right _ _, max_lt hno.2 hnlt⟩
  · intro h
    refine Set.disjoint_left.mpr ?_
    rintro x ⟨r, hr, h₁, h₂⟩ ⟨h₃, h₄⟩
    have := h r hr
    omega

theorem Refused.not_grantable (hv : Valid lmb.reserved) (hn : new.Fits)
    (h : Refused lmb.reserved new) : ¬Grantable lmb new := by
  intro hg
  have hfree := (disjoint_covered_iff hv hn).mp hg.free
  rcases h.cause with ⟨r, hr, h₁, h₂⟩ | ⟨hfull, hno⟩
  · have := hfree r hr
    omega
  · rcases hg.room with hlt | ⟨r, hr, hr' | hr'⟩
    · omega
    · exact h.untouched r hr hr'
    · exact hno r hr hr'

/-- What is refused is safe. -/
theorem Refused.addrSafe (h : Refused lmb.reserved new) :
    AddrSafe lmb new where
  notSame := fun _ ↦ h.notSame
  noOverrun := fun _ r hr heq ↦ absurd heq (h.untouched r hr)
  noTop := fun _ ↦ h.noTop
  noNext := fun _ _ r hr _ heq ↦ absurd heq (h.untouched r hr)
  pokesIn := fun _ ↦ h

/-- A range in memory whose addition succeeds: it was free and is added exactly when the
addition was safe. -/
theorem grantable_iff_of_added (hv : Valid lmb.reserved) (hn : new.Fits) (h0 : new.lo ≠ 0)
    (hin : Inside lmb.memory new) (hnot : ¬PokesIn lmb.memory new)
    (hadded : ¬Refused lmb.reserved new) :
    (Grantable lmb new ∧ covered (lmbAddRegion lmb.reserved new.base new.size).2 =
      covered lmb.reserved ∪ new.bytes) ↔ AddrSafe lmb new := by
  have hnlt := hn.lo_lt_hi
  constructor
  · rintro ⟨hg, hcov⟩
    have hfree := (disjoint_covered_iff hv hn).mp hg.free
    refine ⟨fun _ hmem ↦ ?_, fun _ r hr _ r' hr' ↦ hfree r' hr', fun _ htop r hr hr0 ↦ ?_,
      fun _ hlen r hr hr0 hrn r' hr' htop ↦ ?_, fun h ↦ absurd h hnot⟩
    · have := hfree new hmem
      omega
    · obtain ⟨-, hlost⟩ := lmbAddRegion_of_top hv h0 htop hr hr0
      rw [hcov] at hlost
      have := (hv.fits hr).lo_lt_hi
      exact hlost (Or.inl ⟨r, hr, hr0.le, by omega⟩)
    · obtain ⟨a, b, hab⟩ := List.length_eq_two.mp hlen
      have hwlt := new.lo_lt_two_pow
      rw [hab] at hr hr' hv hcov hfree
      obtain ⟨hapos, hble, -⟩ := Segments.sorted_cons.mp hv.sorted
      have hab' := hble b (by simp)
      have hblo := b.lo_lt_two_pow
      obtain rfl : r = a := by
        rcases List.mem_cons.mp hr with h | h
        · exact h
        · obtain rfl := List.mem_singleton.mp h
          omega
      obtain rfl : r' = b := by
        rcases List.mem_cons.mp hr' with h | h
        · subst h
          omega
        · exact List.mem_singleton.mp h
      have hrb := hfree r' (by simp)
      have hlost := lmbAddRegion_of_next hr0 hrn (Nat.pos_of_ne_zero h0) htop (by omega) hnlt
      rw [hcov] at hlost
      exact hlost (Or.inl ⟨r', by simp, by omega, by omega⟩)
  · intro h
    have hsafe : AddSafe lmb.reserved new :=
      ⟨h.noOverrun hin, h.noTop hin, fun hz ↦ absurd hz h0, h.noNext hin⟩
    have hspec := lmbAddRegion_spec hv hn hsafe
    have hret : 0 ≤ (lmbAddRegion lmb.reserved new.base new.size).1 :=
      not_lt.mp (mt (lmbAddRegion_neg_iff hv hn h0).mp hadded)
    refine ⟨⟨hin, (hspec.fresh hret).resolve_right (h.notSame hin), ?_⟩, hspec.added hret⟩
    by_contra hroom
    rw [HasRoom, not_or, not_lt] at hroom
    refine hadded ⟨h.notSame hin, fun r hr heq ↦ hroom.2 ⟨r, hr, Or.inl heq⟩, h.noTop hin,
      Or.inr ⟨hroom.1, fun r hr heq ↦ hroom.2 ⟨r, hr, Or.inr heq⟩⟩⟩

/-- `lmb_alloc_addr` keeps its promise exactly under `AddrSafe`. -/
theorem lmbAllocAddr_grants_iff (lmb : Tables w) (base size : BitVec w) (hm : Valid lmb.memory)
    (hv : Valid lmb.reserved) (hn : Property.Fits ⟨base, size⟩) (h0 : base ≠ 0) :
    Grants lmb base size (lmbAllocAddr lmb base size) ↔ AddrSafe lmb ⟨base, size⟩ := by
  have hlo0 : (⟨base, size⟩ : Property w).lo ≠ 0 := by
    intro hzero
    have hbase : base.toNat = 0 := hzero
    exact h0 (BitVec.eq_of_toNat_eq (by simpa using hbase))
  have hmem := inMemory_iff hm hn
  have hneg := lmbAddRegion_neg_iff hv hn hlo0
  dsimp only at hmem hneg
  by_cases hin : inMemory lmb.memory base size = true
  swap
  · -- the range does not meet memory where it ends
    have hcall : lmbAllocAddr lmb base size = (0, lmb) := by rw [lmbAllocAddr, if_neg hin]
    rw [hmem, not_or] at hin
    rw [hcall]
    refine iff_of_true ⟨iff_of_false (Ne.symm h0) fun hg ↦ hin.1 hg.inside,
      fun h ↦ absurd h.symm h0, fun _ ↦ ⟨rfl, rfl⟩⟩ ?_
    exact ⟨fun h ↦ absurd h hin.1, fun h ↦ absurd h hin.1, fun h ↦ absurd h hin.1,
      fun h ↦ absurd h hin.1, fun h ↦ absurd h hin.2⟩
  by_cases href : Refused lmb.reserved ⟨base, size⟩
  · have hret := hneg.mpr href
    have hcall : lmbAllocAddr lmb base size = (0, lmb) := by
      rw [lmbAllocAddr, if_pos hin, lmbReserve]
      dsimp only
      rw [if_neg (not_le.mpr hret), lmbAddRegion_unchanged hret]
    rw [hcall]
    exact iff_of_true ⟨iff_of_false (Ne.symm h0) (href.not_grantable hv hn),
      fun h ↦ absurd h.symm h0, fun _ ↦ ⟨rfl, rfl⟩⟩ href.addrSafe
  · have hret := not_lt.mp (mt hneg.mp href)
    have hcall : lmbAllocAddr lmb base size =
        (base, { lmb with reserved := (lmbAddRegion lmb.reserved base size).2 }) := by
      rw [lmbAllocAddr, if_pos hin, lmbReserve]
      dsimp only
      rw [if_pos hret]
    rw [hcall]
    rcases hmem.mp hin with hin | hpoke
    · have hiff := grantable_iff_of_added hv hn hlo0 hin
        (fun h ↦ h.not_inside hm hin) href
      rw [← hiff]
      constructor
      · intro h
        exact ⟨h.granted.mp rfl, h.reserved rfl⟩
      · rintro ⟨hg, hcov⟩
        exact ⟨iff_of_true rfl hg, fun _ ↦ hcov, fun h ↦ absurd rfl h⟩
    · refine iff_of_false (fun h ↦ ?_) fun h ↦ href (h.pokesIn hpoke)
      exact hpoke.not_inside hm (h.granted.mp rfl).inside

/-- A page below memory and a page in it are granted. -/
theorem lmbAllocAddr_below_memory :
    ¬∀ (lmb : Tables 32) (base size : BitVec 32), Valid lmb.memory → Valid lmb.reserved →
      Property.Fits ⟨base, size⟩ → base ≠ 0 →
      Grants lmb base size (lmbAllocAddr lmb base size) := by
  intro h
  have hg := h ⟨[⟨0x40000000, 0x20000000⟩], []⟩ 0x3ffff000 0x2000
    (Valid.singleton ⟨by decide, by decide⟩) Valid.nil ⟨by decide, by decide⟩ (by decide)
  obtain ⟨m, hm, hlo, -⟩ := (hg.granted.mp (by decide)).inside
  obtain rfl := List.mem_singleton.mp hm
  exact absurd hlo (by decide)

/-- Two pages in memory are granted. -/
theorem lmbAllocAddr_grants_inside :
    Grants (w := 32) ⟨[⟨0x40000000, 0x20000000⟩], []⟩ 0x40001000 0x2000
      (lmbAllocAddr ⟨[⟨0x40000000, 0x20000000⟩], []⟩ 0x40001000 0x2000) := by
  refine (lmbAllocAddr_grants_iff (w := 32) ⟨[⟨0x40000000, 0x20000000⟩], []⟩ 0x40001000 0x2000
    (Valid.singleton ⟨by decide, by decide⟩) Valid.nil ⟨by decide, by decide⟩ (by decide)).mpr ?_
  refine ⟨by simp, by simp, by simp, by simp, ?_⟩
  rintro ⟨m, hm, hlo, -⟩
  obtain rfl := List.mem_singleton.mp hm
  exact absurd hlo (by decide)

end MiniPi.Lmb
