import MiniPi.Lmb.AddRegion
import Mathlib.Algebra.BigOperators.Group.List.Basic

/-!
# What `__lmb_alloc_base` returns

The search of `__lmb_alloc_base` walks the memory regions from the top and, in
each, tries aligned addresses downwards until one is free.  It is correct as
long as the address at which it starts in a region is computed without
wrapping.  That fails when `max_addr` is smaller than `size`: the start
`max_addr - size` then wraps to the top of the address space, above both the
region and the limit.
-/

namespace MiniPi.Lmb

open Lib

variable {w : ℕ}

/-! ## Aligning down -/

theorem lmbAlignDown_le (addr align : BitVec w) :
    (lmbAlignDown addr align).toNat ≤ addr.toNat := by
  rw [lmbAlignDown, BitVec.toNat_and]
  exact Nat.and_le_left

/-- The address is a multiple of the alignment, when that is a power of two. -/
def Aligned (align b : BitVec w) : Prop := ∀ k : ℕ, align.toNat = 2 ^ k → align.toNat ∣ b.toNat

theorem aligned_lmbAlignDown (addr align : BitVec w) :
    Aligned align (lmbAlignDown addr align) := by
  intro k h
  have hlt : 2 ^ k < 2 ^ w := h ▸ align.isLt
  have hone : (1 : BitVec w).toNat = 1 := by
    change (1#w).toNat = 1
    rw [BitVec.toNat_ofNat]
    exact Nat.mod_eq_of_lt (lt_of_le_of_lt Nat.one_le_two_pow hlt)
  have hmask : (align - 1).toNat = 2 ^ k - 1 := by
    have := Nat.one_le_two_pow (n := k)
    rw [BitVec.toNat_sub, hone, h, show 2 ^ w - 1 + 2 ^ k = (2 ^ k - 1) + 2 ^ w by omega,
      Nat.add_mod_right, Nat.mod_eq_of_lt (by omega)]
  rw [h]
  refine Nat.dvd_of_mod_eq_zero (Nat.eq_of_testBit_eq fun i ↦ ?_)
  rw [Nat.testBit_mod_two_pow, Nat.zero_testBit]
  by_cases hi : i < k
  · have hbit : (align - 1).getLsbD i = true := by
      rw [BitVec.getLsbD, hmask, Nat.testBit_two_pow_sub_one]
      simpa using hi
    have hand : (lmbAlignDown addr align).getLsbD i = false := by
      rw [lmbAlignDown, BitVec.getLsbD_and, BitVec.getLsbD_not, hbit]
      simp
    rw [BitVec.getLsbD] at hand
    simp [hand]
  · simp [hi]

/-! ## The overlap test on ranges that may wrap -/

/-- A region that the test reports starts below the end of the range, whether or
not the range wraps. -/
theorem lo_lt_of_overlap {base size : BitVec w} {r : Property w} (hs : 0 < size.toNat)
    (hr : r.Fits) (h : lmbAddrsOverlap base size r.base r.size = true) :
    r.lo < base.toNat + size.toNat := by
  by_cases hf : base.toNat + size.toNat ≤ 2 ^ w
  · exact ((lmbAddrsOverlap_iff (a := ⟨base, size⟩) ⟨hs, hf⟩ hr).mp h).2
  · have hb := base.isLt
    have hsz := size.isLt
    simp only [lmbAddrsOverlap, Bool.and_eq_true, decide_eq_true_eq, BitVec.le_def] at h
    have hlo : r.lo = r.base.toNat := rfl
    omega

theorem lmbOverlapsRegion_eq_none {t : Region w} {base size : BitVec w}
    (hn : Property.Fits ⟨base, size⟩) (ht : Valid t)
    (h : lmbOverlapsRegion t base size = none) :
    ∀ r ∈ t, r.hi ≤ base.toNat ∨ base.toNat + size.toNat ≤ r.lo := by
  intro r hr
  have hno := List.find?_eq_none.mp h r hr
  have hiff := lmbAddrsOverlap_iff hn (ht.fits hr)
  simp only [Property.lo, Property.hi] at hiff ⊢
  have := mt hiff.mpr hno
  omega

theorem lmbOverlapsRegion_eq_some {t : Region w} {base size : BitVec w} {r : Property w}
    (h : lmbOverlapsRegion t base size = some r) :
    r ∈ t ∧ lmbAddrsOverlap base size r.base r.size = true :=
  ⟨List.mem_of_find?_eq_some h, by simpa using List.find?_some h⟩

/-! ## The search in one memory region -/

/-- What the search promises about a free address: it is aligned, at or above the
start of the memory region, ends at or below the limit the search started from,
and is not reserved. -/
structure Candidate (reserved : Region w) (lmbbase size align : BitVec w) (limit : ℕ)
    (b : BitVec w) : Prop where
  ne_zero : b ≠ 0
  aligned : Aligned align b
  base_le : lmbbase.toNat ≤ b.toNat
  le_limit : b.toNat + size.toNat ≤ limit
  free : lmbOverlapsRegion reserved b size = none

/-- The next address the search tries lies below the current one. -/
theorem next_lt {reserved : Region w} {size base : BitVec w} (align : BitVec w) {r : Property w}
    (hv : Valid reserved) (hs : 0 < size.toNat)
    (h : lmbOverlapsRegion reserved base size = some r) (hge : ¬r.base < size) :
    (lmbAlignDown (r.base - size) align).toNat + size.toNat ≤ r.lo ∧
      r.lo < base.toNat + size.toNat := by
  obtain ⟨hr, hov⟩ := lmbOverlapsRegion_eq_some h
  have hle : size.toNat ≤ r.lo := not_lt.mp hge
  refine ⟨?_, lo_lt_of_overlap hs (hv.fits hr) hov⟩
  have hsub : (r.base - size).toNat = r.lo - size.toNat :=
    BitVec.toNat_sub_of_le (BitVec.le_def.mpr hle)
  have := lmbAlignDown_le (r.base - size) align
  omega

/-- The search always ends. -/
theorem searchDown_ne_none {reserved : Region w} {lmbbase size align : BitVec w}
    (hv : Valid reserved) (hs : 0 < size.toNat) :
    ∀ (fuel : ℕ) (base : BitVec w), base.toNat < fuel →
      searchDown reserved lmbbase size align fuel base ≠ none := by
  intro fuel
  induction fuel with
  | zero => intro base h; omega
  | succ fuel ih =>
      intro base hfuel
      unfold searchDown
      split_ifs with hgo
      · cases hov : lmbOverlapsRegion reserved base size with
        | none => simp
        | some r =>
            dsimp only
            split_ifs with hlt
            · simp
            · have := next_lt align hv hs hov hlt
              exact ih _ (by omega)
      · simp

/-- The search only returns good addresses, and none at all when it starts above
every limit. -/
theorem searchDown_spec {reserved : Region w} {lmbbase size align : BitVec w} {limit : ℕ}
    (hv : Valid reserved) (hs : 0 < size.toNat) :
    ∀ (fuel : ℕ) (base b : BitVec w), Aligned align base →
      base.toNat + size.toNat ≤ limit →
      searchDown reserved lmbbase size align fuel base = some (some b) →
      Candidate reserved lmbbase size align limit b := by
  intro fuel
  induction fuel with
  | zero => intro base b _ _ h; simp [searchDown] at h
  | succ fuel ih =>
      intro base b hal hlim h
      unfold searchDown at h
      split_ifs at h with hgo
      · cases hov : lmbOverlapsRegion reserved base size with
        | none =>
            simp only [hov, Option.some.injEq] at h
            subst h
            exact ⟨hgo.1, hal, hgo.2, hlim, hov⟩
        | some r =>
            simp only [hov] at h
            split_ifs at h with hlt
            · simp at h
            · have := next_lt align hv hs hov hlt
              exact ih _ b (aligned_lmbAlignDown _ _) (by omega) h
      · simp at h

/-! ## The search over all memory regions -/

/-- The start of the search does not wrap: either there is no limit, or the limit
leaves room for the request, or no memory region below the limit is large enough
to be considered. -/
def NoUnderflow (memory : Region w) (size maxAddr : BitVec w) : Prop :=
  maxAddr = 0 ∨ size.toNat ≤ maxAddr.toNat ∨
    ∀ m ∈ memory, m.lo < maxAddr.toNat → m.size.toNat < size.toNat

/-- The limit below which a request in the memory region `m` has to end. -/
def limitOf (m : Property w) (maxAddr : BitVec w) : ℕ :=
  if maxAddr = 0 then m.hi else min m.hi maxAddr.toNat

theorem searchStart_spec {m : Property w} {size align maxAddr base : BitVec w}
    (hm : m.Fits) (hs : 0 < size.toNat)
    (hu : maxAddr = 0 ∨ size.toNat ≤ maxAddr.toNat ∨
      (m.lo < maxAddr.toNat → m.size.toNat < size.toNat))
    (h : searchStart m size align maxAddr = some base) :
    Aligned align base ∧ base.toNat + size.toNat ≤ limitOf m maxAddr := by
  have htop := hm.top
  have hpos := hm.pos
  have hb := m.base.isLt
  have hsz := m.size.isLt
  have hhi : m.hi = m.base.toNat + m.size.toNat := rfl
  have hlo : m.lo = m.base.toNat := rfl
  unfold searchStart at h
  split_ifs at h with hsmall hany hbelow
  · -- no limit: the start is the last address that leaves room in the region
    obtain rfl := Option.some.inj h
    have hany0 : maxAddr = 0 := hany
    rw [limitOf, if_pos hany0]
    refine ⟨aligned_lmbAlignDown _ _, ?_⟩
    have hle : size.toNat ≤ m.size.toNat := not_lt.mp hsmall
    have hstart : (m.base + m.size - size).toNat = m.hi - size.toNat := by
      rw [BitVec.toNat_sub, BitVec.toNat_add]
      rcases Nat.lt_or_ge (m.base.toNat + m.size.toNat) (2 ^ w) with hlt | hge
      · rw [Nat.mod_eq_of_lt hlt, show 2 ^ w - size.toNat + (m.base.toNat + m.size.toNat)
          = (m.hi - size.toNat) + 2 ^ w by omega, Nat.add_mod_right,
          Nat.mod_eq_of_lt (by omega)]
      · have heq : m.base.toNat + m.size.toNat = 2 ^ w := by omega
        rw [heq, Nat.mod_self, Nat.add_zero]
        rw [Nat.mod_eq_of_lt (by omega)]
        omega
    have := lmbAlignDown_le (m.base + m.size - size) align
    omega
  · obtain rfl := Option.some.inj h
    have hany0 : maxAddr ≠ 0 := hany
    rw [limitOf, if_neg hany0]
    refine ⟨aligned_lmbAlignDown _ _, ?_⟩
    have hle : size.toNat ≤ m.size.toNat := not_lt.mp hsmall
    have hlt' : m.lo < maxAddr.toNat := hbelow
    have hmax : size.toNat ≤ maxAddr.toNat := by
      rcases hu with h0 | hle' | hno
      · exact absurd h0 hany0
      · exact hle'
      · have := hno hlt'; omega
    -- the top of the region, short of one byte when it is the top of the address space
    have htopv : ∃ top : BitVec w,
        (if m.base + m.size < m.base then -1 else m.base + m.size) = top ∧
          top.toNat ≤ m.hi ∧ size.toNat ≤ top.toNat := by
      refine ⟨_, rfl, ?_⟩
      rcases Nat.lt_or_ge (m.base.toNat + m.size.toNat) (2 ^ w) with hlt | hge
      · have hsum : (m.base + m.size).toNat = m.hi := by
          rw [BitVec.toNat_add, Nat.mod_eq_of_lt hlt]; rfl
        rw [if_neg (by rw [BitVec.lt_def, hsum]; omega), hsum]
        omega
      · have hsum : (m.base + m.size).toNat = 0 := by
          rw [BitVec.toNat_add, show m.base.toNat + m.size.toNat = 2 ^ w by omega, Nat.mod_self]
        have hone : (-1 : BitVec w).toNat = 2 ^ w - 1 := by
          change (-1#w).toNat = 2 ^ w - 1
          rw [BitVec.toNat_neg, BitVec.toNat_ofNat, Nat.mod_eq_of_lt (a := 1) (by omega),
            Nat.mod_eq_of_lt (by omega)]
        rw [if_pos (by rw [BitVec.lt_def, hsum]; omega), hone]
        omega
    obtain ⟨top, htop_eq, htop_le, hsize_le⟩ := htopv
    rw [htop_eq]
    have hmin : ∃ lim : BitVec w, (if top < maxAddr then top else maxAddr) = lim ∧
        lim.toNat ≤ min m.hi maxAddr.toNat ∧ size.toNat ≤ lim.toNat := by
      refine ⟨_, rfl, ?_⟩
      split_ifs with hc
      · have hc' : top.toNat < maxAddr.toNat := hc
        omega
      · have hc' : ¬top.toNat < maxAddr.toNat := hc
        omega
    obtain ⟨lim, hlim_eq, hlim_le, hsize_le'⟩ := hmin
    rw [hlim_eq]
    have hsub : (lim - size).toNat = lim.toNat - size.toNat :=
      BitVec.toNat_sub_of_le (BitVec.le_def.mpr hsize_le')
    have := lmbAlignDown_le (lim - size) align
    omega

/-- The search over all memory regions always ends. -/
theorem findBase_ne_none {reserved : Region w} {size align maxAddr : BitVec w}
    (hv : Valid reserved) (hs : 0 < size.toNat) (ms : Region w) :
    findBase reserved size align maxAddr ms ≠ none := by
  induction ms with
  | nil => simp [findBase]
  | cons m ms ih =>
      unfold findBase
      cases searchStart m size align maxAddr with
      | none => exact ih
      | some base =>
          dsimp only
          cases hd : searchDown reserved m.base size align (base.toNat + 1) base with
          | none => exact absurd hd (searchDown_ne_none hv hs _ _ (Nat.lt_succ_self _))
          | some res =>
              cases res with
              | none => exact ih
              | some b => simp

/-- The address the search settles on is a good one in some memory region. -/
theorem findBase_spec {reserved ms : Region w} {size align maxAddr b : BitVec w}
    (hv : Valid reserved) (hm : ∀ m ∈ ms, m.Fits) (hs : 0 < size.toNat)
    (hu : NoUnderflow ms size maxAddr)
    (h : findBase reserved size align maxAddr ms = some (some b)) :
    ∃ m ∈ ms, Candidate reserved m.base size align (limitOf m maxAddr) b := by
  induction ms with
  | nil => simp [findBase] at h
  | cons m ms ih =>
      obtain ⟨hm₁, hm₂⟩ := List.forall_mem_cons.mp hm
      have hrest : findBase reserved size align maxAddr ms = some (some b) →
          ∃ m' ∈ m :: ms, Candidate reserved m'.base size align (limitOf m' maxAddr) b := by
        intro h'
        obtain ⟨m', hm', hc⟩ := ih hm₂
          (hu.imp_right (Or.imp_right fun hall ↦ (List.forall_mem_cons.mp hall).2)) h'
        exact ⟨m', List.mem_cons_of_mem _ hm', hc⟩
      unfold findBase at h
      cases hst : searchStart m size align maxAddr with
      | none => exact hrest (by simpa [hst] using h)
      | some base =>
          simp only [hst] at h
          cases hd : searchDown reserved m.base size align (base.toNat + 1) base with
          | none => simp [hd] at h
          | some res =>
              cases res with
              | none => exact hrest (by simpa [hd] using h)
              | some b' =>
                  simp only [hd, Option.some.injEq] at h
                  subst h
                  obtain ⟨hal, hlim⟩ := searchStart_spec hm₁ hs
                    (hu.imp_right (Or.imp_right fun hall ↦ hall m List.mem_cons_self)) hst
                  exact ⟨m, List.mem_cons_self, searchDown_spec hv hs _ _ _ hal hlim hd⟩

/-- An address the search settles on is never `0`. -/
theorem findBase_ne_zero {reserved ms : Region w} {size align maxAddr b : BitVec w}
    (h : findBase reserved size align maxAddr ms = some (some b)) : b ≠ 0 := by
  have hdown : ∀ (fuel : ℕ) (lmbbase base : BitVec w),
      searchDown reserved lmbbase size align fuel base = some (some b) → b ≠ 0 := by
    intro fuel lmbbase
    induction fuel with
    | zero => intro base h; simp [searchDown] at h
    | succ fuel ih =>
        intro base h
        unfold searchDown at h
        split_ifs at h with hgo
        · cases hov : lmbOverlapsRegion reserved base size with
          | none =>
              simp only [hov, Option.some.injEq] at h
              exact h ▸ hgo.1
          | some r =>
              simp only [hov] at h
              split_ifs at h with hlt
              · simp at h
              · exact ih _ h
        · simp at h
  induction ms with
  | nil => simp [findBase] at h
  | cons m ms ih =>
      unfold findBase at h
      cases hst : searchStart m size align maxAddr with
      | none => exact ih (by simpa [hst] using h)
      | some base =>
          simp only [hst] at h
          cases hd : searchDown reserved m.base size align (base.toNat + 1) base with
          | none => simp [hd] at h
          | some res =>
              cases res with
              | none => exact ih (by simpa [hd] using h)
              | some b' =>
                  simp only [hd, Option.some.injEq] at h
                  exact h ▸ hdown _ _ _ (h ▸ hd)

/-! ## Reserving the range found -/

/-- The number of bytes of a table, region by region. -/
def total (t : Region w) : ℕ := (t.map fun r ↦ r.size.toNat).sum

/-- The reserved regions are at most two and add up, with the request, to the
whole address space.  The region that results from merging them has `2 ^ w`
bytes, which wraps to none. -/
def FillsSpace (t : Region w) (size : BitVec w) : Prop :=
  t.length ≤ 2 ∧ total t + size.toNat = 2 ^ w

section Covering

variable {t before after : Region w} {new r grown : Property w}

/-- The tables that fill the address space together with a range above address
`0`: the range is the gap above one region, between two, or above two. -/
theorem FillsSpace.cases (hf : FillsSpace t new.size) (hv : Valid t) (hn : new.Fits)
    (h0 : new.lo ≠ 0) (hap : ∀ r ∈ t, r.hi ≤ new.lo ∨ new.hi ≤ r.lo) :
    (∃ r, t = [r] ∧ r.lo = 0 ∧ r.hi = new.lo ∧ new.hi = 2 ^ w) ∨
      ∃ r p, t = [r, p] ∧ r.lo = 0 ∧
        (r.hi = new.lo ∧ p.lo = new.hi ∧ p.hi = 2 ^ w ∨
          p.lo = r.hi ∧ p.hi = new.lo ∧ new.hi = 2 ^ w) := by
  obtain ⟨hlen, hsum⟩ := hf
  have hns := new.size_eq
  have hnt := hn.top
  have hnlt := hn.lo_lt_hi
  match t, hlen with
  | [], _ =>
      have : new.size.toNat < 2 ^ w := new.size.isLt
      simp [total] at hsum
      omega
  | [r], _ =>
      have hr := hv.fits (r := r) (by simp)
      have := hr.top
      have := hr.lo_lt_hi
      have := r.size_eq
      have := hap r (by simp)
      simp only [total, List.map_cons, List.map_nil, List.sum_cons, List.sum_nil] at hsum
      exact Or.inl ⟨r, rfl, by omega, by omega, by omega⟩
  | [r, p], _ =>
      have hr := hv.fits (r := r) (by simp)
      have hp := hv.fits (r := p) (by simp)
      have hrp : r.hi ≤ p.lo := (Segments.sorted_cons.mp hv.sorted).2.1 p (by simp)
      have := hr.top
      have := hr.lo_lt_hi
      have := r.size_eq
      have := hp.top
      have := hp.lo_lt_hi
      have := p.size_eq
      have := hap r (by simp)
      have := hap p (by simp)
      simp only [total, List.map_cons, List.map_nil, List.sum_cons, List.sum_nil] at hsum
      exact Or.inr ⟨r, p, rfl, by omega, by omega⟩

/-- In a table that fills the space some region ends where the range starts. -/
theorem FillsSpace.exists_hi_eq (hf : FillsSpace t new.size) (hv : Valid t) (hn : new.Fits)
    (h0 : new.lo ≠ 0) (hap : ∀ r ∈ t, r.hi ≤ new.lo ∨ new.hi ≤ r.lo) :
    ∃ r ∈ t, r.hi = new.lo := by
  rcases hf.cases hv hn h0 hap with ⟨r, rfl, -, hr, -⟩ | ⟨r, p, rfl, -, ⟨hr, -⟩ | ⟨-, hp, -⟩⟩
  · exact ⟨r, by simp, hr⟩
  · exact ⟨r, by simp, hr⟩
  · exact ⟨p, by simp, hp⟩

/-- What `lmb_add_region` covers when it adds a range that overlaps no region and
does not start at address `0`: the range, except when the merged region is the
whole address space.  The table may become unsorted here. -/
def Covers (t : Region w) (new : Property w) (res : ℤ × Region w) : Prop :=
  0 ≤ res.1 → (new.bytes ⊆ covered res.2 ↔ ¬FillsSpace t new.size)

/-- Regions that overlap a range nowhere do not cover it. -/
theorem not_bytes_subset_of_apart (hn : new.Fits)
    (hap : ∀ r ∈ t, r.hi ≤ new.lo ∨ new.hi ≤ r.lo ∨ r.hi ≤ r.lo) :
    ¬new.bytes ⊆ covered t := by
  intro hsub
  have hlt := hn.lo_lt_hi
  obtain ⟨c, hc, h₁, h₂⟩ := hsub ⟨le_rfl, hlt⟩
  have := hap c hc
  omega

theorem coalesceNext_covers (hn : new.Fits) (hlo : grown.lo ≤ new.lo) (hhi : new.hi ≤ grown.hi)
    (hb : ∀ c ∈ before, c.hi ≤ new.lo ∨ new.hi ≤ c.lo)
    (ha : ∀ c ∈ after, c.hi ≤ new.lo ∨ new.hi ≤ c.lo)
    (hsum : ∀ next as, after = next :: as → grown.size.toNat + next.size.toNat ≤ 2 ^ w) :
    new.bytes ⊆ covered (coalesceNext before grown after).2 ↔
      ¬∃ next as, after = next :: as ∧ lmbRegionsAdjacent grown next ≠ 0 ∧
        grown.size.toNat + next.size.toNat = 2 ^ w := by
  have hplain : ∀ l : Region w, new.bytes ⊆ covered (before ++ grown :: l) := by
    intro l x hx
    exact ⟨grown, by simp, hlo.trans hx.1, lt_of_lt_of_le hx.2 hhi⟩
  cases after with
  | nil =>
      refine iff_of_true (hplain []) ?_
      rintro ⟨next, as, h, -⟩
      exact absurd h (by simp)
  | cons next as =>
      have hle := hsum next as rfl
      simp only [coalesceNext]
      split_ifs with hadj
      · rcases Nat.lt_or_ge (grown.size.toNat + next.size.toNat) (2 ^ w) with hlt | hge
        · refine iff_of_true (fun x hx ↦ ?_) ?_
          · refine ⟨⟨grown.base, grown.size + next.size⟩, by simp, hlo.trans hx.1, ?_⟩
            have hsz : (grown.size + next.size).toNat = grown.size.toNat + next.size.toNat := by
              rw [BitVec.toNat_add, Nat.mod_eq_of_lt hlt]
            have hghi : grown.hi = grown.base.toNat + grown.size.toNat := rfl
            have := lt_of_lt_of_le hx.2 hhi
            simp only [Property.hi, hsz]
            omega
          · rintro ⟨next', as', h, -, h'⟩
            obtain ⟨rfl, -⟩ := List.cons.inj h
            omega
        · -- the merged region has `2 ^ w` bytes, that is none
          refine iff_of_false ?_ (not_not.mpr ⟨next, as, rfl, hadj, by omega⟩)
          have hsz : (grown.size + next.size).toNat = 0 := by
            rw [BitVec.toNat_add, show grown.size.toNat + next.size.toNat = 2 ^ w by omega,
              Nat.mod_self]
          refine not_bytes_subset_of_apart hn fun c hc ↦ ?_
          rcases List.mem_append.mp hc with hc | hc
          · exact (hb c hc).imp_right Or.inl
          · rcases List.mem_cons.mp hc with rfl | hc
            · refine Or.inr (Or.inr ?_)
              simp only [Property.lo, Property.hi, hsz]
              omega
            · exact (ha c (List.mem_cons_of_mem _ hc)).imp_right Or.inl
      · refine iff_of_true (hplain _) ?_
        rintro ⟨next', as', h, h', -⟩
        obtain ⟨rfl, -⟩ := List.cons.inj h
        exact hadj h'

theorem covers_of_up (hn : new.Fits) (hv : Valid (before ++ r :: after)) (h0 : new.lo ≠ 0)
    (hap : ∀ c ∈ before ++ r :: after, c.hi ≤ new.lo ∨ new.hi ≤ c.lo)
    (hc : ∀ c ∈ before, Clear new c) (hb : r.lo ≠ new.hi % 2 ^ w)
    (hg : new.lo = r.hi % 2 ^ w) :
    Covers (before ++ r :: after) new
      (coalesceNext before ⟨r.base, r.size + new.size⟩ after) := by
  intro _
  obtain ⟨-, hsa, hrpos, hbr, hra, -⟩ := Segments.sorted_middle.mp hv.sorted
  have hrt := hv.top r (by simp)
  have hnt := hn.top
  have hnlt := hn.lo_lt_hi
  have hrs := r.size_eq
  have hns := new.size_eq
  have htouch : r.hi = new.lo := by
    rcases Nat.lt_or_ge r.hi (2 ^ w) with hlt | hge
    · rwa [Nat.mod_eq_of_lt hlt, eq_comm] at hg
    · rw [show r.hi = 2 ^ w by omega, Nat.mod_self] at hg
      exact absurd hg h0
  have hfit : new.hi - r.lo < 2 ^ w := by
    by_contra hge
    have h1 : r.lo = 0 := by omega
    have h2 : new.hi = 2 ^ w := by omega
    rw [h2, Nat.mod_self] at hb
    exact hb h1
  have hsz : (r.size + new.size).toNat = new.hi - r.lo := by
    rw [BitVec.toNat_add, show r.size.toNat + new.size.toNat = new.hi - r.lo by omega,
      Nat.mod_eq_of_lt hfit]
  obtain ⟨hglo, hghi⟩ := lo_hi_of_toNat r.base (r.size + new.size)
    (a := r.lo) (b := new.hi) rfl hsz (by omega)
  generalize (⟨r.base, r.size + new.size⟩ : Property w) = grown at hglo hghi ⊢
  have hgs := grown.size_eq
  have hnext : ∀ c ∈ after, new.hi ≤ c.lo := by
    intro c hca
    have := hap c (by simp [hca])
    have := hra c hca
    have := hsa.pos c hca
    omega
  rw [coalesceNext_covers hn (by rw [hglo]; omega) (by rw [hghi])
    (fun c hcb ↦ hap c (by simp [hcb])) (fun c hca ↦ hap c (by simp [hca]))]
  · refine not_congr ⟨?_, fun hf ↦ ?_⟩
    · rintro ⟨next, as, rfl, -, hsum⟩
      have hnle := hnext next (by simp)
      have hnxt := hv.top next (by simp)
      have := next.size_eq
      have hr0 : r.lo = 0 := by omega
      have hb' := hv.before_eq_nil hr0
      have htop : next.hi = 2 ^ w := by omega
      subst hb'
      have has : as = [] := (show Valid ([r] ++ next :: as) from hv).after_eq_nil htop
      subst has
      refine ⟨by simp, ?_⟩
      simp only [total, List.nil_append, List.map_cons, List.map_nil, List.sum_cons,
        List.sum_nil]
      omega
    · rcases hf.cases hv hn h0 hap with ⟨r', ht, hr0, -, htop⟩ | ⟨r', p, ht, hr0, hcase⟩
      · cases before with
        | nil =>
            obtain ⟨rfl, rfl⟩ := List.cons.inj ht
            rw [htop, Nat.mod_self] at hb
            exact absurd hr0 hb
        | cons c before => simp at ht
      · cases before with
        | nil =>
            obtain ⟨rfl, rfl⟩ := List.cons.inj ht
            have := hnext p (by simp)
            rcases hcase with ⟨-, hpl, hph⟩ | ⟨-, hph, -⟩
            · have hps := p.size_eq
              have hplt := p.lo_lt_two_pow
              refine ⟨p, [], rfl, fun hadj ↦ ?_, by omega⟩
              refine absurd (lmbAddrsAdjacent_pos_iff.mpr ?_) (not_lt.mpr hadj.le)
              change p.lo = grown.hi % 2 ^ w
              rw [hghi, ← hpl, Nat.mod_eq_of_lt hplt]
            · have := hsa.pos p (by simp)
              omega
        | cons c before =>
            cases before with
            | cons c' before => simp at ht
            | nil =>
                simp only [List.cons_append, List.nil_append, List.cons.injEq] at ht
                obtain ⟨rfl, rfl, rfl⟩ := ht
                rcases hcase with ⟨hch, -⟩ | ⟨-, -, htop⟩
                · have := hbr c (by simp)
                  omega
                · have hbelow := (hc c (by simp)).below
                  rw [htop, Nat.mod_self] at hbelow
                  exact absurd hr0 hbelow
  · rintro next as rfl
    have := hnext next (by simp)
    have := hv.top next (by simp)
    have := next.size_eq
    have := hsa.pos next (by simp)
    omega

theorem covers_of_down (hn : new.Fits) (hv : Valid (before ++ r :: after)) (h0 : new.lo ≠ 0)
    (hap : ∀ c ∈ before ++ r :: after, c.hi ≤ new.lo ∨ new.hi ≤ c.lo)
    (hc : ∀ c ∈ before, Clear new c) (hg : r.lo = new.hi % 2 ^ w) (htop : new.hi < 2 ^ w) :
    Covers (before ++ r :: after) new
      (coalesceNext before ⟨r.base - new.size, r.size + new.size⟩ after) := by
  intro _
  obtain ⟨-, hsa, hrpos, hbr, hra, -⟩ := Segments.sorted_middle.mp hv.sorted
  have hrt := hv.top r (by simp)
  have hnlt := hn.lo_lt_hi
  have hrs := r.size_eq
  have hns := new.size_eq
  rw [Nat.mod_eq_of_lt htop] at hg
  have hbase : (r.base - new.size).toNat = new.lo := by
    rw [BitVec.toNat_sub_of_le (BitVec.le_def.mpr (show new.size.toNat ≤ r.lo by omega))]
    change r.lo - new.size.toNat = new.lo
    omega
  have hsz : (r.size + new.size).toNat = r.hi - new.lo := by
    rw [BitVec.toNat_add, show r.size.toNat + new.size.toNat = r.hi - new.lo by omega,
      Nat.mod_eq_of_lt (by omega)]
  obtain ⟨hglo, hghi⟩ := lo_hi_of_toNat _ _ hbase hsz (by omega)
  generalize (⟨r.base - new.size, r.size + new.size⟩ : Property w) = grown at hglo hghi ⊢
  have hgs := grown.size_eq
  have hnot : ¬FillsSpace (before ++ r :: after) new.size := by
    intro hf
    obtain ⟨c, hcm, hch⟩ := hf.exists_hi_eq hv hn h0 hap
    rcases List.mem_append.mp hcm with hcb | hcm
    · have habove := (hc c hcb).above
      rw [hch, Nat.mod_eq_of_lt (by omega)] at habove
      exact habove rfl
    · rcases List.mem_cons.mp hcm with rfl | hca
      · omega
      · have := hra c hca
        have := hsa.pos c hca
        omega
  have hsmall : ∀ next as, after = next :: as →
      grown.size.toNat + next.size.toNat < 2 ^ w := by
    rintro next as rfl
    have := hra next (by simp)
    have := hv.top next (by simp)
    have := next.size_eq
    have := hsa.pos next (by simp)
    omega
  rw [coalesceNext_covers hn (by rw [hglo]) (by rw [hghi]; omega)
    (fun c hcb ↦ hap c (by simp [hcb])) (fun c hca ↦ hap c (by simp [hca]))
    (fun next as h ↦ (hsmall next as h).le)]
  refine iff_of_true ?_ hnot
  rintro ⟨next, as, h, -, hsum⟩
  exact absurd hsum (hsmall next as h).ne

/-! A range that ends at the top is merged with a region that starts at address `0`. -/

theorem below_of_top (hap : ∀ c ∈ r :: after, c.hi ≤ new.lo ∨ new.hi ≤ c.lo)
    (htop : new.hi = 2 ^ w) :
    ∀ c ∈ r :: after, c.hi ≤ new.lo := by
  intro c hcm
  have := hap c hcm
  have := c.lo_lt_two_pow
  omega

theorem toNat_base_of_top (hn : new.Fits) (hr0 : r.lo = 0) (htop : new.hi = 2 ^ w) :
    (r.base - new.size).toNat = new.lo := by
  have hnlt := hn.lo_lt_hi
  have hns := new.size_eq
  have hrb : r.base.toNat = 0 := hr0
  rw [BitVec.toNat_sub, hrb, Nat.add_zero, Nat.mod_eq_of_lt (by omega)]
  omega

/-- The region and the range are the whole space, and the merged region is empty. -/
theorem covers_of_whole (hn : new.Fits) (hv : Valid (r :: after))
    (hap : ∀ c ∈ r :: after, c.hi ≤ new.lo ∨ new.hi ≤ c.lo) (hr0 : r.lo = 0) (htop : new.hi = 2 ^ w)
    (hge : new.lo ≤ r.hi) :
    Covers (r :: after) new (coalesceNext [] ⟨r.base - new.size, r.size + new.size⟩ after) := by
  intro _
  obtain ⟨-, hsa, hrpos, -, hra, -⟩ := Segments.sorted_middle.mp
    (show Valid ([] ++ r :: after) from hv).sorted
  have hrs := r.size_eq
  have hns := new.size_eq
  have hbelow := below_of_top hap htop
  have hrle := hbelow r List.mem_cons_self
  have hbase := toNat_base_of_top hn hr0 htop
  have hanil : after = [] := by
    refine List.eq_nil_iff_forall_not_mem.mpr fun c hca ↦ ?_
    have := hra c hca
    have := hbelow c (List.mem_cons_of_mem r hca)
    have := hsa.pos c hca
    omega
  subst hanil
  refine iff_of_false (not_bytes_subset_of_apart hn fun c hcm ↦ ?_) (not_not.mpr ⟨by simp, ?_⟩)
  · obtain rfl : c = ⟨r.base - new.size, r.size + new.size⟩ := by
      simpa [coalesceNext] using hcm
    have hsz : (r.size + new.size).toNat = 0 := by
      rw [BitVec.toNat_add, show r.size.toNat + new.size.toNat = 2 ^ w by omega, Nat.mod_self]
    refine Or.inr (Or.inr ?_)
    simp only [Property.lo, Property.hi, hsz]
    omega
  · simp only [total, List.map_cons, List.map_nil, List.sum_cons, List.sum_nil]
    omega

/-- There is something between the region and the range. -/
theorem covers_of_top_gap (hn : new.Fits) (hv : Valid (r :: after)) (h0 : new.lo ≠ 0)
    (hap : ∀ c ∈ r :: after, c.hi ≤ new.lo ∨ new.hi ≤ c.lo) (hr0 : r.lo = 0) (htop : new.hi = 2 ^ w)
    (hlt : r.hi < new.lo) :
    Covers (r :: after) new (coalesceNext [] ⟨r.base - new.size, r.size + new.size⟩ after) := by
  intro _
  obtain ⟨-, hsa, hrpos, -, hra, -⟩ := Segments.sorted_middle.mp
    (show Valid ([] ++ r :: after) from hv).sorted
  have hnlt := hn.lo_lt_hi
  have hrs := r.size_eq
  have hns := new.size_eq
  have hnlo := new.lo_lt_two_pow
  have hbelow := below_of_top hap htop
  have hbase := toNat_base_of_top hn hr0 htop
  have hsz : (r.size + new.size).toNat = (new.hi + r.hi) - new.lo := by
    rw [BitVec.toNat_add, show r.size.toNat + new.size.toNat = (new.hi + r.hi) - new.lo by omega,
      Nat.mod_eq_of_lt (by omega)]
  obtain ⟨hglo, hghi⟩ := lo_hi_of_toNat _ _ hbase hsz (by omega)
  generalize (⟨r.base - new.size, r.size + new.size⟩ : Property w) = grown at hglo hghi ⊢
  have hgs := grown.size_eq
  rw [coalesceNext_covers hn (by rw [hglo]) (by rw [hghi]; omega)
    (fun c hcb ↦ absurd hcb List.not_mem_nil) (fun c hca ↦ hap c (List.mem_cons_of_mem r hca))]
  · refine not_congr ⟨?_, fun hf ↦ ?_⟩
    · rintro ⟨next, as, rfl, -, hsum⟩
      have := hra next (by simp)
      have := hbelow next (by simp)
      have := next.size_eq
      have := hsa.pos next (by simp)
      have hnext : next.hi = new.lo := by omega
      have has : as = [] := by
        refine List.eq_nil_iff_forall_not_mem.mpr fun c hca ↦ ?_
        have := (Segments.sorted_cons.mp hsa).2.1 c hca
        have := hbelow c (by simp [hca])
        have := hsa.pos c (by simp [hca])
        omega
      subst has
      refine ⟨by simp, ?_⟩
      simp only [total, List.map_cons, List.map_nil, List.sum_cons, List.sum_nil]
      omega
    · rcases hf.cases hv hn h0 hap with ⟨r', ht, -, hrh, -⟩ | ⟨r', p, ht, -, hcase⟩
      · obtain ⟨rfl, rfl⟩ := List.cons.inj ht
        omega
      · obtain ⟨rfl, rfl⟩ := List.cons.inj ht
        rcases hcase with ⟨hrh, -⟩ | ⟨hpl, hph, -⟩
        · omega
        · have hps := p.size_eq
          have hplt := p.lo_lt_two_pow
          refine ⟨p, [], rfl, fun hadj ↦ ?_, by omega⟩
          refine absurd (lmbAddrsAdjacent_pos_iff.mpr ?_) (not_lt.mpr hadj.le)
          change p.lo = grown.hi % 2 ^ w
          rw [hghi, htop, Nat.add_mod_left, Nat.mod_eq_of_lt (by omega), hpl]
  · rintro next as rfl
    have := hra next (by simp)
    have := hbelow next (by simp)
    have := next.size_eq
    have := hsa.pos next (by simp)
    omega

theorem covers_of_top (hn : new.Fits) (hv : Valid (before ++ r :: after)) (h0 : new.lo ≠ 0)
    (hap : ∀ c ∈ before ++ r :: after, c.hi ≤ new.lo ∨ new.hi ≤ c.lo)
    (hr0 : r.lo = 0) (htop : new.hi = 2 ^ w) :
    Covers (before ++ r :: after) new
      (coalesceNext before ⟨r.base - new.size, r.size + new.size⟩ after) := by
  have hbnil := hv.before_eq_nil hr0
  subst hbnil
  rcases Nat.lt_or_ge r.hi new.lo with hlt | hge
  · exact covers_of_top_gap hn hv h0 hap hr0 htop hlt
  · exact covers_of_whole hn hv hap hr0 htop hge

/-- What a range that was free is covered by after the call. -/
theorem covers_lmbAddRegion (hv : Valid t) (hn : new.Fits) (h0 : new.lo ≠ 0)
    (hap : ∀ c ∈ t, c.hi ≤ new.lo ∨ new.hi ≤ c.lo) :
    Covers t new (lmbAddRegion t new.base new.size) := by
  have hscan := addScan_spec hn (t := t) fun r hr ↦ hv.fits hr
  have hnlt := hn.lo_lt_hi
  have hnt := hn.top
  cases t with
  | nil =>
      intro _
      refine iff_of_true (fun x hx ↦ ⟨new, List.mem_singleton.mpr rfl, hx.1, hx.2⟩) fun hf ↦ ?_
      obtain ⟨r, hr, -⟩ := hf.exists_hi_eq hv hn h0 hap
      exact absurd hr List.not_mem_nil
  | cons first t =>
      rw [lmbAddRegion]
      cases hsc : addScan new.base new.size (first :: t) with
      | same =>
          rw [hsc] at hscan
          have := hap new hscan
          omega
      | overlap => exact fun h ↦ absurd h (by simp [addFinish])
      | coalesced before grown after =>
          rw [hsc] at hscan
          obtain ⟨r, ht, hcl, hg⟩ := hscan
          rw [ht] at hv hap ⊢
          cases hg with
          | down hg =>
              rcases Nat.lt_or_ge new.hi (2 ^ w) with hlt | hge
              · exact covers_of_down hn hv h0 hap hcl hg hlt
              · have htop : new.hi = 2 ^ w := by omega
                rw [htop, Nat.mod_self] at hg
                exact covers_of_top hn hv h0 hap hg htop
          | up hb hg => exact covers_of_up hn hv h0 hap hcl hb hg
      | passed =>
          rw [hsc] at hscan
          simp only [addFinish]
          split_ifs with hfull
          · exact fun h ↦ absurd h (by simp)
          · intro _
            have hspec := addSpec_addSorted hv hn hap hfull
            refine iff_of_true ?_ fun hf ↦ ?_
            · rw [hspec.added le_rfl]
              exact Set.subset_union_right
            · obtain ⟨r, hr, hrh⟩ := hf.exists_hi_eq hv hn h0 hap
              have habove := (hscan r hr).above
              rw [hrh, Nat.mod_eq_of_lt (by omega)] at habove
              exact habove rfl

end Covering

/-- `lmb_add_region` never touches the table when it returns a negative value. -/
theorem lmbAddRegion_unchanged {t : Region w} {base size : BitVec w}
    (h : (lmbAddRegion t base size).1 < 0) : (lmbAddRegion t base size).2 = t := by
  cases t with
  | nil => simp [lmbAddRegion] at h
  | cons first t =>
      rw [lmbAddRegion] at h ⊢
      cases hsc : addScan base size (first :: t) with
      | same => rfl
      | overlap => rfl
      | coalesced before grown after =>
          rw [hsc] at h
          cases after with
          | nil => simp [addFinish, coalesceNext] at h
          | cons next after =>
              simp only [addFinish, coalesceNext] at h
              split_ifs at h <;> simp at h
      | passed =>
          rw [hsc] at h
          simp only [addFinish] at h ⊢
          split_ifs at h ⊢
          · rfl
          · simp at h

/-! ## The allocation -/

/-- What an allocation promises about the address it returns. -/
structure AllocSpec (lmb : Tables w) (size align maxAddr b : BitVec w) (lmb' : Tables w) :
    Prop where
  /-- Failure leaves the reserved table alone. -/
  failed : b = 0 → lmb'.reserved = lmb.reserved
  /-- The address is aligned. -/
  aligned : b ≠ 0 → align.toNat ∣ b.toNat
  /-- The range does not wrap. -/
  noWrap : b ≠ 0 → b.toNat + size.toNat ≤ 2 ^ w
  /-- The range lies in one memory region. -/
  inMemory : b ≠ 0 → ∃ m ∈ lmb.memory, m.lo ≤ b.toNat ∧ b.toNat + size.toNat ≤ m.hi
  /-- The range lies below the limit, if there is one. -/
  below : b ≠ 0 → maxAddr ≠ 0 → b.toNat + size.toNat ≤ maxAddr.toNat
  /-- The range was free. -/
  free : b ≠ 0 → ∀ r ∈ lmb.reserved,
    Disjoint (Set.Ico b.toNat (b.toNat + size.toNat)) r.bytes
  /-- The range is reserved afterwards. -/
  reserved : b ≠ 0 → Set.Ico b.toNat (b.toNat + size.toNat) ⊆ covered lmb'.reserved

/-- The address the search settles on lies in a memory region. -/
theorem findBase_candidate {lmb : Tables w} {size align maxAddr b : BitVec w}
    (hm : Valid lmb.memory) (hv : Valid lmb.reserved) (hs : 0 < size.toNat)
    (hu : NoUnderflow lmb.memory size maxAddr)
    (hf : findBase lmb.reserved size align maxAddr lmb.memory.reverse = some (some b)) :
    ∃ m ∈ lmb.memory, Candidate lmb.reserved m.base size align (limitOf m maxAddr) b ∧
      b.toNat + size.toNat ≤ m.hi ∧ Property.Fits ⟨b, size⟩ := by
  obtain ⟨m, hmm, hcand⟩ := findBase_spec hv
    (fun m hmm ↦ hm.fits (List.mem_reverse.mp hmm)) hs
    (hu.imp_right (Or.imp_right fun h m hmm ↦ h m (List.mem_reverse.mp hmm))) hf
  have hmem := List.mem_reverse.mp hmm
  have hlim := hcand.le_limit
  have hmhi : b.toNat + size.toNat ≤ m.hi := by
    unfold limitOf at hlim
    split_ifs at hlim <;> omega
  exact ⟨m, hmem, hcand, hmhi, hs, hmhi.trans (hm.top m hmem)⟩

/-- `__lmb_alloc_base` always returns, and what it returns keeps the promise of an
allocation exactly when it is a failure or the start of the search does not wrap
and the reserved regions do not add up to the whole address space. -/
theorem lmbAllocBaseCore_returns (lmb : Tables w) (size align maxAddr : BitVec w) {k : ℕ}
    (hm : Valid lmb.memory) (hv : Valid lmb.reserved) (hs : 0 < size.toNat)
    (ha : align.toNat = 2 ^ k) :
    ∃ b lmb', lmbAllocBaseCore lmb size align maxAddr = some (b, lmb') ∧
      (AllocSpec lmb size align maxAddr b lmb' ↔
        NoUnderflow lmb.memory size maxAddr ∧ ¬FillsSpace lmb.reserved size ∨ b = 0) := by
  unfold lmbAllocBaseCore
  cases hf : findBase lmb.reserved size align maxAddr lmb.memory.reverse with
  | none => exact absurd hf (findBase_ne_none hv hs _)
  | some res =>
      cases res with
      | none =>
          refine ⟨0, lmb, rfl, iff_of_true ⟨fun _ ↦ rfl, ?_, ?_, ?_, ?_, ?_, ?_⟩ (Or.inr rfl)⟩ <;>
            exact fun h ↦ absurd rfl h
      | some b =>
          have hb0 := findBase_ne_zero hf
          dsimp only
          split_ifs with hret
          · refine ⟨0, _, rfl,
              iff_of_true ⟨fun _ ↦ lmbAddRegion_unchanged hret, ?_, ?_, ?_, ?_, ?_, ?_⟩
                (Or.inr rfl)⟩ <;>
              exact fun h ↦ absurd rfl h
          · refine ⟨b, _, rfl, fun hspec ↦ Or.inl ?_, fun hcond ↦ ?_⟩
            · have hnw := hspec.noWrap hb0
              have hn : Property.Fits ⟨b, size⟩ := ⟨hs, hnw⟩
              refine ⟨?_, ?_⟩
              · by_contra hu
                simp only [NoUnderflow, not_or] at hu
                have := hspec.below hb0 hu.1
                omega
              · refine (covers_lmbAddRegion hv hn ?_ ?_ (not_lt.mp hret)).mp
                  (hspec.reserved hb0)
                · exact fun h ↦ hb0 (BitVec.eq_of_toNat_eq h)
                · intro c hcm
                  have hd := hspec.free hb0 c hcm
                  have hc := (hv.fits hcm).lo_lt_hi
                  by_contra hno
                  rw [not_or, not_le, not_le] at hno
                  obtain ⟨h₁, h₂⟩ := hno
                  simp only [Property.lo, Property.hi] at h₁ h₂ hc
                  have hx : max b.toNat c.base.toNat ∈
                      Set.Ico b.toNat (b.toNat + size.toNat) := by
                    simp only [Set.mem_Ico]
                    omega
                  refine Set.disjoint_left.mp hd hx ?_
                  simp only [Property.bytes, Property.lo, Property.hi, Set.mem_Ico]
                  omega
            · rcases hcond with ⟨hu, hfill⟩ | h
              swap
              · exact absurd h hb0
              obtain ⟨m, hmem, hcand, hmhi, hn⟩ := findBase_candidate hm hv hs hu hf
              have hlim := hcand.le_limit
              have hfree := lmbOverlapsRegion_eq_none hn hv hcand.free
              refine ⟨fun h ↦ absurd h hb0, fun _ ↦ hcand.aligned k ha, fun _ ↦ hn.top,
                fun _ ↦ ⟨m, hmem, hcand.base_le, hmhi⟩, fun _ hmax ↦ ?_, fun _ r hr ↦ ?_,
                fun _ ↦ ?_⟩
              · rw [limitOf, if_neg hmax] at hlim
                omega
              · refine Set.disjoint_left.mpr fun x hx hx' ↦ ?_
                have := hfree r hr
                have := hx.1
                have := hx.2
                have := hx'.1
                have := hx'.2
                omega
              · exact (covers_lmbAddRegion hv hn
                  (fun h ↦ hb0 (BitVec.eq_of_toNat_eq h)) hfree (not_lt.mp hret)).mpr hfill

/-- An allocation that returns is sound when the start of the search does not wrap
and the reserved regions and the new one do not add up to the whole address space,
and one that returns an address is sound only then. -/
theorem lmbAllocBaseCore_sound_iff (lmb : Tables w) (size align maxAddr : BitVec w) {k : ℕ}
    (hm : Valid lmb.memory) (hv : Valid lmb.reserved) (hs : 0 < size.toNat)
    (ha : align.toNat = 2 ^ k) :
    ∃ b lmb', lmbAllocBaseCore lmb size align maxAddr = some (b, lmb') ∧
      (b = 0 → lmb'.reserved = lmb.reserved) ∧
      (NoUnderflow lmb.memory size maxAddr ∧ ¬FillsSpace lmb.reserved size →
        AllocSpec lmb size align maxAddr b lmb') ∧
      (b ≠ 0 → (AllocSpec lmb size align maxAddr b lmb' ↔
        NoUnderflow lmb.memory size maxAddr ∧ ¬FillsSpace lmb.reserved size)) := by
  obtain ⟨b, lmb', hcall, hiff⟩ := lmbAllocBaseCore_returns lmb size align maxAddr hm hv hs ha
  refine ⟨b, lmb', hcall, fun hb ↦ ?_, fun hcond ↦ hiff.mpr (Or.inl hcond), fun hb ↦ ?_⟩
  · exact (hiff.mpr (Or.inr hb)).failed hb
  · rw [hiff, or_iff_left hb]

/-- 512 MiB of memory at address `0`, nothing reserved, and a limit below the size
asked for: the search starts at `-0x1000` and the range returned is not memory. -/
theorem lmbAllocBaseCore_below_limit :
    ¬∀ b lmb', lmbAllocBaseCore (w := 32) ⟨[⟨0, 0x20000000⟩], []⟩ 0x2000 0x1000 0x1000 =
        some (b, lmb') →
      AllocSpec ⟨[⟨0, 0x20000000⟩], []⟩ 0x2000 0x1000 0x1000 b lmb' := by
  intro h
  have hspec := h 0xfffff000 ⟨[⟨0, 0x20000000⟩], [⟨0xfffff000, 0x2000⟩]⟩ rfl
  exact absurd (hspec.noWrap (by decide)) (by decide)

/-- The same memory with the limit at its end: 8 KiB are found below 512 MiB. -/
theorem lmbAllocBaseCore_sound_at_end :
    ∃ b lmb', lmbAllocBaseCore (w := 32) ⟨[⟨0, 0x20000000⟩], []⟩ 0x2000 0x1000 0x20000000 =
        some (b, lmb') ∧
      AllocSpec ⟨[⟨0, 0x20000000⟩], []⟩ 0x2000 0x1000 0x20000000 b lmb' := by
  obtain ⟨b, lmb', hcall, -, hsound, -⟩ := lmbAllocBaseCore_sound_iff (w := 32) (k := 12)
    ⟨[⟨0, 0x20000000⟩], []⟩ 0x2000 0x1000 0x20000000
    (Valid.singleton ⟨by decide, by decide⟩) Valid.nil (by decide) (by decide)
  refine ⟨b, lmb', hcall, hsound ⟨Or.inr (Or.inl (by decide)), ?_⟩⟩
  exact fun hfill ↦ absurd hfill.2 (by decide)

end MiniPi.Lmb
