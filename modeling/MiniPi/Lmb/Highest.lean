import MiniPi.Lmb.Alloc

/-!
# Where `lmb_alloc` allocates

`lmb_alloc` takes the greatest aligned address that leaves room in the highest
memory region that has one.  From an address at which the request overlaps a
reserved region it goes to the first aligned address that leaves room below that
region.  Nothing is passed over: an aligned free address below the current one
lies below the reserved region too, for that one reaches up to the current address.
-/

namespace MiniPi.Lmb

open Lib

variable {w : ℕ}

/-! ## Aligning down -/

/-- `lmb_align_down` clears the low bits. -/
theorem toNat_lmbAlignDown {addr align : BitVec w} {k : ℕ} (ha : align.toNat = 2 ^ k) :
    (lmbAlignDown addr align).toNat = 2 ^ k * (addr.toNat / 2 ^ k) := by
  have hlt : 2 ^ k < 2 ^ w := ha ▸ align.isLt
  have hone : (1 : BitVec w).toNat = 1 := by
    change (1#w).toNat = 1
    rw [BitVec.toNat_ofNat]
    exact Nat.mod_eq_of_lt (lt_of_le_of_lt Nat.one_le_two_pow hlt)
  have hmask : (align - 1).toNat = 2 ^ k - 1 := by
    rw [BitVec.toNat_sub_of_le, ha, hone]
    rw [BitVec.le_def, hone, ha]
    exact Nat.one_le_two_pow
  refine Nat.eq_of_testBit_eq fun i ↦ ?_
  rw [Nat.testBit_two_pow_mul, Nat.testBit_div_two_pow, ← BitVec.getLsbD, lmbAlignDown,
    BitVec.getLsbD_and, BitVec.getLsbD_not]
  have hbit : (align - 1).getLsbD i = decide (i < k) := by
    rw [BitVec.getLsbD, hmask, Nat.testBit_two_pow_sub_one]
  rw [hbit]
  by_cases hik : i < k
  · simp [hik, Nat.not_le.mpr hik]
  · rw [Nat.not_lt] at hik
    have hsplit : i - k + k = i := Nat.sub_add_cancel hik
    by_cases hiw : i < w
    · simp [hik, hiw, hsplit, Nat.not_lt.mpr hik, BitVec.getLsbD]
    · have hfalse : addr.getLsbD i = false := BitVec.getLsbD_of_ge addr i (Nat.not_lt.mp hiw)
      rw [BitVec.getLsbD] at hfalse
      simp [hsplit, hfalse, BitVec.getLsbD]

/-- No multiple of the alignment lies between an address and what it is aligned
down to. -/
theorem le_lmbAlignDown {addr align : BitVec w} {k b : ℕ} (ha : align.toNat = 2 ^ k)
    (hdvd : align.toNat ∣ b) (hb : b ≤ addr.toNat) : b ≤ (lmbAlignDown addr align).toNat := by
  obtain ⟨q, rfl⟩ := hdvd
  rw [ha] at hb ⊢
  rw [toNat_lmbAlignDown ha]
  refine Nat.mul_le_mul_left _ ?_
  rw [Nat.le_div_iff_mul_le (Nat.two_pow_pos k), Nat.mul_comm]
  exact hb

/-! ## The search -/

/-- The address `b` is not `0` and aligned, and the request at `b` lies in the memory
region `m` and is free. -/
structure Room (reserved : Region w) (size align : BitVec w) (m : Property w) (b : ℕ) : Prop where
  pos : 0 < b
  aligned : align.toNat ∣ b
  lo_le : m.lo ≤ b
  le_hi : b + size.toNat ≤ m.hi
  free : ∀ r ∈ reserved, r.hi ≤ b ∨ b + size.toNat ≤ r.lo

variable {reserved ms : Region w} {size align : BitVec w} {m : Property w} {k : ℕ}

/-- The address `b` is the greatest with room in the region. -/
def Greatest (reserved : Region w) (size align : BitVec w) (m : Property w) (b : ℕ) : Prop :=
  Room reserved size align m b ∧ ∀ b', Room reserved size align m b' → b' ≤ b

/-- What the search in one region comes to. -/
def DownSpec (reserved : Region w) (size align : BitVec w) (m : Property w) :
    Option (BitVec w) → Prop
  | none => ∀ b, ¬Room reserved size align m b
  | some b => Greatest reserved size align m b.toNat

/-- What the start of the search in one region comes to. -/
def StartSpec (reserved : Region w) (size align : BitVec w) (m : Property w) :
    Option (BitVec w) → Prop
  | none => ∀ b, ¬Room reserved size align m b
  | some base => align.toNat ∣ base.toNat ∧ base.toNat + size.toNat ≤ m.hi ∧
      ∀ b, Room reserved size align m b → b ≤ base.toNat

/-- What the search over a list of regions comes to. -/
def FindSpec (reserved : Region w) (size align : BitVec w) (ms : Region w) :
    Option (BitVec w) → Prop
  | none => ∀ m ∈ ms, ∀ b, ¬Room reserved size align m b
  | some b => ∃ before m after, ms = before ++ m :: after ∧
      Greatest reserved size align m b.toNat ∧
        ∀ m' ∈ before, ∀ b', ¬Room reserved size align m' b'

/-- What the search in one region comes to when everything with room lies at or below
the address it starts from. -/
theorem searchDown_greatest (hm : m.Fits) (hv : Valid reserved) (hs : 0 < size.toNat)
    (ha : align.toNat = 2 ^ k) (fuel : ℕ) (base : BitVec w) (res : Option (BitVec w))
    (hal : align.toNat ∣ base.toNat) (hlim : base.toNat + size.toNat ≤ m.hi)
    (hall : ∀ b', Room reserved size align m b' → b' ≤ base.toNat)
    (h : searchDown reserved m.base size align fuel base = some res) :
    DownSpec reserved size align m res := by
  induction fuel generalizing base with
  | zero => simp [searchDown] at h
  | succ fuel ih =>
      unfold searchDown at h
      split_ifs at h with hgo
      · obtain ⟨hne, hle⟩ := hgo
        have hpos : 0 < base.toNat := by
          refine Nat.pos_of_ne_zero fun hzero ↦ hne (BitVec.eq_of_toNat_eq ?_)
          simpa using hzero
        cases hov : lmbOverlapsRegion reserved base size with
        | none =>
            have hfree := lmbOverlapsRegion_eq_none ⟨hs, hlim.trans hm.top⟩ hv hov
            simp only [hov, Option.some.injEq] at h
            subst h
            exact ⟨⟨hpos, hal, hle, hlim, hfree⟩, hall⟩
        | some r =>
            simp only [hov] at h
            obtain ⟨hr, hover⟩ := lmbOverlapsRegion_eq_some hov
            obtain ⟨hov₁, hov₂⟩ :=
              (lmbAddrsOverlap_iff (a := ⟨base, size⟩) ⟨hs, hlim.trans hm.top⟩ (hv.fits hr)).mp
                hover
            simp only [Property.lo, Property.hi] at hov₁ hov₂
            -- what has room lies below the reserved region that is in the way
            have hbelow : ∀ b', Room reserved size align m b' → b' + size.toNat ≤ r.lo := by
              intro b' hb'
              have := hall b' hb'
              have hfree := hb'.free r hr
              simp only [Property.hi] at hfree
              omega
            split_ifs at h with hlt
            · simp only [Option.some.injEq] at h
              subst h
              intro b' hb'
              have := hbelow b' hb'
              have hlt' : r.lo < size.toNat := hlt
              omega
            · have hge : size.toNat ≤ r.lo := not_lt.mp hlt
              have hsub : (r.base - size).toNat = r.lo - size.toNat :=
                BitVec.toNat_sub_of_le (BitVec.le_def.mpr hge)
              have hdown := lmbAlignDown_le (r.base - size) align
              have hrlo : r.lo = r.base.toNat := rfl
              refine ih _ (aligned_lmbAlignDown _ _ k ha) (by omega) (fun b' hb' ↦ ?_) h
              have := hbelow b' hb'
              exact le_lmbAlignDown ha hb'.aligned (by omega)
      · simp only [Option.some.injEq] at h
        subst h
        intro b' hb'
        have hpos := hb'.pos
        have hlo := hb'.lo_le
        refine hgo ⟨fun hzero ↦ ?_, ?_⟩
        · have hle := hall b' hb'
          rw [hzero, show (0 : BitVec w).toNat = 0 by simp] at hle
          omega
        · exact BitVec.le_def.mpr (hlo.trans (hall b' hb'))

/-- The address the search in one region starts from, when there is no limit. -/
theorem searchStart_anywhere (hm : m.Fits) (hs : 0 < size.toNat) (ha : align.toNat = 2 ^ k) :
    StartSpec reserved size align m (searchStart m size align lmbAllocAnywhere) := by
  have hms := m.size_eq
  by_cases hsmall : m.size < size
  · rw [searchStart, if_pos hsmall]
    intro b' hb'
    have hsmall' : m.size.toNat < size.toNat := hsmall
    have := hb'.lo_le
    have := hb'.le_hi
    omega
  · have hstart : searchStart m size align lmbAllocAnywhere =
        some (lmbAlignDown (m.base + m.size - size) align) := by
      rw [searchStart, if_neg hsmall, if_pos rfl]
    have hle : size.toNat ≤ m.size.toNat := not_lt.mp hsmall
    have hsz := size.isLt
    have htop := hm.top
    have hbase : (m.base + m.size - size).toNat = m.hi - size.toNat := by
      have hhi : m.base.toNat + m.size.toNat = m.hi := rfl
      rw [BitVec.toNat_sub, BitVec.toNat_add, hhi]
      rcases Nat.lt_or_ge m.hi (2 ^ w) with hlt | hge
      · rw [Nat.mod_eq_of_lt hlt, show 2 ^ w - size.toNat + m.hi = (m.hi - size.toNat) + 2 ^ w by
          omega, Nat.add_mod_right, Nat.mod_eq_of_lt (by omega)]
      · rw [show m.hi = 2 ^ w by omega, Nat.mod_self, Nat.add_zero, Nat.mod_eq_of_lt (by omega)]
    obtain ⟨hal, hlim⟩ := searchStart_spec hm hs (Or.inl rfl) hstart
    rw [hstart]
    refine ⟨hal k ha, by simpa [limitOf, lmbAllocAnywhere] using hlim, fun b' hb' ↦ ?_⟩
    have := hb'.le_hi
    exact le_lmbAlignDown ha hb'.aligned (by omega)

/-- The search over the memory regions, from the first of the list on: it settles on the
greatest address with room in the first region that has one. -/
theorem findBase_greatest (hm : ∀ m ∈ ms, m.Fits) (hv : Valid reserved) (hs : 0 < size.toNat)
    (ha : align.toNat = 2 ^ k) (res : Option (BitVec w))
    (h : findBase reserved size align lmbAllocAnywhere ms = some res) :
    FindSpec reserved size align ms res := by
  induction ms with
  | nil =>
      obtain rfl : none = res := by simpa [findBase] using h
      simp [FindSpec]
  | cons m ms ih =>
      obtain ⟨hm₁, hm₂⟩ := List.forall_mem_cons.mp hm
      have hstart : StartSpec reserved size align m (searchStart m size align lmbAllocAnywhere) :=
        searchStart_anywhere hm₁ hs ha
      -- the search goes on when this region has no room
      have hpass (hno : ∀ b', ¬Room reserved size align m b')
          (hrest : findBase reserved size align lmbAllocAnywhere ms = some res) :
          FindSpec reserved size align (m :: ms) res := by
        have hih := ih hm₂ hrest
        cases res with
        | none => exact List.forall_mem_cons.mpr ⟨hno, hih⟩
        | some b =>
            obtain ⟨before, m', after, rfl, hg, hb⟩ := hih
            exact ⟨m :: before, m', after, rfl, hg, List.forall_mem_cons.mpr ⟨hno, hb⟩⟩
      unfold findBase at h
      cases hst : searchStart m size align lmbAllocAnywhere with
      | none =>
          rw [hst] at hstart
          exact hpass hstart (by simpa [hst] using h)
      | some base =>
          rw [hst] at hstart
          obtain ⟨hal, hlim, hall⟩ := hstart
          simp only [hst] at h
          cases hd : searchDown reserved m.base size align (base.toNat + 1) base with
          | none => simp [hd] at h
          | some found =>
              have hg := searchDown_greatest hm₁ hv hs ha _ base found hal hlim hall hd
              cases found with
              | none => exact hpass hg (by simpa [hd] using h)
              | some b =>
                  simp only [hd, Option.some.injEq] at h
                  subst h
                  exact ⟨[], m, ms, rfl, hg, by simp⟩

/-- `lmb_alloc` returns.  An address it returns is the greatest with room in its memory
region, and no higher memory region has room; it returns `0` only when no memory region has
room or the table of reserved regions is full. -/
theorem lmbAlloc_highest (lmb : Tables w) (size align : BitVec w) (hm : Valid lmb.memory)
    (hv : Valid lmb.reserved) (hs : 0 < size.toNat) (ha : align.toNat = 2 ^ k) :
    ∃ b lmb', lmbAlloc lmb size align = some (b, lmb') ∧
      (b ≠ 0 → ∃ m ∈ lmb.memory, Greatest lmb.reserved size align m b.toNat ∧
        ∀ m' ∈ lmb.memory, m.lo < m'.lo → ∀ b', ¬Room lmb.reserved size align m' b') ∧
      (b = 0 → (∀ m ∈ lmb.memory, ∀ b', ¬Room lmb.reserved size align m b') ∨
        maxLmbRegions ≤ lmb.reserved.length) := by
  rw [lmbAlloc, lmbAllocBase, lmbAllocBaseCore]
  cases hf : findBase lmb.reserved size align lmbAllocAnywhere lmb.memory.reverse with
  | none => exact absurd hf (findBase_ne_none hv hs _)
  | some res =>
      have hspec := findBase_greatest (fun m hmm ↦ hm.fits (List.mem_reverse.mp hmm)) hv hs
        ha res hf
      cases res with
      | none =>
          refine ⟨0, lmb, rfl, fun h ↦ absurd rfl h, fun _ ↦ Or.inl fun m hmm ↦ ?_⟩
          exact hspec m (List.mem_reverse.mpr hmm)
      | some b =>
          obtain ⟨before, m, after, hsplit, hg, hbefore⟩ := hspec
          have hmem : m ∈ lmb.memory := List.mem_reverse.mp (by rw [hsplit]; simp)
          have hn : Property.Fits ⟨b, size⟩ := ⟨hs, hg.1.le_hi.trans (hm.fits hmem).top⟩
          have hb0 := findBase_ne_zero hf
          -- the reserved region is refused only when the table is full
          have hfull (hneg : (lmbAddRegion lmb.reserved b size).1 < 0) :
              maxLmbRegions ≤ lmb.reserved.length := by
            have hrefused := (lmbAddRegion_neg_iff hv hn hg.1.pos.ne').mp hneg
            rcases hrefused.cause with ⟨r, hr, hov₁, hov₂⟩ | ⟨hfull, -⟩
            · have hfree := hg.1.free r hr
              simp only [Property.lo, Property.hi] at hov₁ hov₂ hfree
              omega
            · exact hfull
          by_cases hneg : (lmbAddRegion lmb.reserved b size).1 < 0
          · refine ⟨0, { lmb with reserved := (lmbAddRegion lmb.reserved b size).2 }, ?_,
              fun h ↦ absurd rfl h, fun _ ↦ Or.inr (hfull hneg)⟩
            simp only [if_pos hneg]
          refine ⟨b, { lmb with reserved := (lmbAddRegion lmb.reserved b size).2 },
            by simp only [if_neg hneg], fun _ ↦ ⟨m, hmem, hg, fun m' hm' hlt ↦ ?_⟩,
            fun h ↦ absurd h hb0⟩
          refine hbefore m' ?_
          -- a higher region stands behind `m` in the table
          have htable : lmb.memory = after.reverse ++ m :: before.reverse := by
            rw [← List.reverse_reverse lmb.memory, hsplit]
            simp
          have hsorted := hm.sorted
          rw [htable] at hm' hsorted
          obtain ⟨-, -, -, hleft, -, -⟩ := Segments.sorted_middle.mp hsorted
          rcases List.mem_append.mp hm' with hc | hc
          · have := hleft m' hc
            have := (hm.fits (htable ▸ List.mem_append_left _ hc)).lo_lt_hi
            omega
          · rcases List.mem_cons.mp hc with rfl | hc
            · exact absurd hlt (Nat.lt_irrefl _)
            · exact List.mem_reverse.mp hc

/-- Two banks of memory of which the upper one is reserved but for its first page: the
request of two pages goes to the end of the lower bank. -/
theorem lmbAlloc_highest_two_banks :
    ∃ b lmb', lmbAlloc (w := 32)
        ⟨[⟨0x40000000, 0x10000⟩, ⟨0x80000000, 0x10000⟩], [⟨0x80001000, 0xf000⟩]⟩ 0x2000 0x1000 =
        some (b, lmb') ∧
      b = 0x4000e000 := by
  have hmem : Valid ([⟨0x40000000, 0x10000⟩, ⟨0x80000000, 0x10000⟩] : Region 32) := by
    refine ⟨⟨by decide, by decide⟩, by decide⟩
  obtain ⟨b, lmb', hcall, -⟩ := lmbAlloc_highest (w := 32) (k := 12)
    ⟨[⟨0x40000000, 0x10000⟩, ⟨0x80000000, 0x10000⟩], [⟨0x80001000, 0xf000⟩]⟩ 0x2000 0x1000
    hmem (Valid.singleton ⟨by decide, by decide⟩) (by decide) (by decide)
  refine ⟨b, lmb', hcall, ?_⟩
  have hrun : (lmbAlloc (w := 32)
      ⟨[⟨0x40000000, 0x10000⟩, ⟨0x80000000, 0x10000⟩], [⟨0x80001000, 0xf000⟩]⟩
      0x2000 0x1000).map Prod.fst = some 0x4000e000 := by decide
  rw [hcall] at hrun
  exact Option.some.inj hrun

end MiniPi.Lmb
