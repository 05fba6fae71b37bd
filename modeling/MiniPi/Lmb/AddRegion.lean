import MiniPi.Lib.Segments
import MiniPi.Lmb.Basic
import Mathlib.Tactic.Common
import Mathlib.Data.BitVec

/-!
# What `lmb_add_region` does to a table

A region occupies the segment `[base, base + size)` of the natural numbers.  A
table is `Valid` when its segments are non-empty, do not pass the top of the
address space and form a sorted table in the sense of `Lib/Segments.lean`.

`AddSafe` is the exact condition under which one call keeps a table valid and
adds precisely the requested bytes.  Two things can go wrong, and both are in
the scan that looks for a region to extend:

* it stops at the first region the range is adjacent to, so a range that starts
  where one region ends is merged into it without a look at the next region,
  which the range may overlap;
* adjacency is decided modulo `2 ^ w`, so the last address counts as touching
  address `0`.
-/

namespace MiniPi.Lmb

open Lib

variable {w : ℕ}

/-! ## Segments of regions -/

namespace Property

/-- The first address. -/
def lo (r : Property w) : ℕ := r.base.toNat

/-- The address after the last, as a natural number. -/
def hi (r : Property w) : ℕ := r.base.toNat + r.size.toNat

/-- The bytes a region occupies. -/
def bytes (r : Property w) : Set ℕ := Set.Ico r.lo r.hi

/-- A region that is not empty and does not pass the top of the address space. -/
structure Fits (r : Property w) : Prop where
  pos : 0 < r.size.toNat
  top : r.hi ≤ 2 ^ w

theorem Fits.lo_lt_hi {r : Property w} (h : r.Fits) : r.lo < r.hi := by
  have := h.pos
  simp only [lo, hi]; omega

theorem size_eq (r : Property w) : r.size.toNat = r.hi - r.lo := by
  simp only [lo, hi]; omega

theorem lo_lt_two_pow (r : Property w) : r.lo < 2 ^ w := r.base.isLt

end Property

/-- The bytes a table occupies. -/
def covered (t : Region w) : Set ℕ := Segments.cover Property.lo Property.hi t

/-- A table whose regions are non-empty, below the top of the address space,
sorted and disjoint. -/
structure Valid (t : Region w) : Prop where
  sorted : Segments.Sorted Property.lo Property.hi t
  top : ∀ r ∈ t, r.hi ≤ 2 ^ w

namespace Valid

variable {t before after : Region w} {r r' : Property w}

theorem fits (h : Valid t) (hr : r ∈ t) : r.Fits where
  pos := by
    have := h.sorted.pos r hr
    simp only [Property.lo, Property.hi] at this; omega
  top := h.top r hr

theorem nil : Valid ([] : Region w) :=
  ⟨Segments.sorted_nil, fun _ h ↦ absurd h List.not_mem_nil⟩

theorem singleton (h : r.Fits) : Valid [r] where
  sorted := Segments.sorted_cons.mpr ⟨h.lo_lt_hi, by simp, Segments.sorted_nil⟩
  top := by simpa using h.top

theorem of_cons (h : Valid (r :: t)) : Valid t where
  sorted := (Segments.sorted_cons.mp h.sorted).2.2
  top := fun a ha ↦ h.top a (List.mem_cons_of_mem _ ha)

theorem replace (h : Valid (before ++ r :: after)) (hr : r'.Fits)
    (hl : ∀ c ∈ before, c.hi ≤ r'.lo) (hg : ∀ c ∈ after, r'.hi ≤ c.lo) :
    Valid (before ++ r' :: after) where
  sorted := h.sorted.replace hr.lo_lt_hi hl hg
  top := by
    intro a ha
    rcases List.mem_append.mp ha with ha | ha
    · exact h.top a (List.mem_append_left _ ha)
    · rcases List.mem_cons.mp ha with rfl | ha
      · exact hr.top
      · exact h.top a (List.mem_append_right _ (List.mem_cons_of_mem _ ha))

theorem erase (h : Valid (before ++ r :: after)) : Valid (before ++ after) where
  sorted := h.sorted.erase
  top := by
    intro a ha
    refine h.top a ?_
    rcases List.mem_append.mp ha with ha | ha
    · exact List.mem_append_left _ ha
    · exact List.mem_append_right _ (List.mem_cons_of_mem _ ha)

theorem insert (h : Valid (before ++ after)) (hr : r.Fits)
    (hl : ∀ c ∈ before, c.hi ≤ r.lo) (hg : ∀ c ∈ after, r.hi ≤ c.lo) :
    Valid (before ++ r :: after) where
  sorted := h.sorted.insert hr.lo_lt_hi hl hg
  top := by
    intro a ha
    rcases List.mem_append.mp ha with ha | ha
    · exact h.top a (List.mem_append_left _ ha)
    · rcases List.mem_cons.mp ha with rfl | ha
      · exact hr.top
      · exact h.top a (List.mem_append_right _ ha)

end Valid

/-! ## The two comparisons -/

/-- The last address of a region that fits, without wrapping. -/
theorem toNat_last {base size : BitVec w} (h : Property.Fits ⟨base, size⟩) :
    (base + size - 1).toNat = base.toNat + size.toNat - 1 := by
  have hpos := h.pos
  have htop := h.top
  simp only [Property.hi] at hpos htop
  have hb := base.isLt
  have hs := size.isLt
  have h1 : (1 : BitVec w).toNat = 1 := by
    change (1#w).toNat = 1
    rw [BitVec.toNat_ofNat]
    exact Nat.mod_eq_of_lt (by omega)
  rw [BitVec.toNat_sub, BitVec.toNat_add, h1]
  rcases Nat.lt_or_ge (base.toNat + size.toNat) (2 ^ w) with hlt | hge
  · rw [Nat.mod_eq_of_lt hlt, show 2 ^ w - 1 + (base.toNat + size.toNat)
      = (base.toNat + size.toNat - 1) + 2 ^ w by omega, Nat.add_mod_right,
      Nat.mod_eq_of_lt (by omega)]
  · have heq : base.toNat + size.toNat = 2 ^ w := by omega
    rw [heq, Nat.mod_self, Nat.add_zero, Nat.mod_eq_of_lt (by omega)]

/-- Overlap of two ranges that fit is overlap of their segments. -/
theorem lmbAddrsOverlap_iff {a b : Property w} (ha : a.Fits) (hb : b.Fits) :
    lmbAddrsOverlap a.base a.size b.base b.size = true ↔ a.lo < b.hi ∧ b.lo < a.hi := by
  have hpa := ha.pos
  have hpb := hb.pos
  simp only [lmbAddrsOverlap, Bool.and_eq_true, decide_eq_true_eq, BitVec.le_def,
    toNat_last ha, toNat_last hb, Property.lo, Property.hi]
  omega

theorem lmbAddrsAdjacent_pos_iff {base₁ size₁ base₂ size₂ : BitVec w} :
    lmbAddrsAdjacent base₁ size₁ base₂ size₂ > 0 ↔
      base₂.toNat = (base₁.toNat + size₁.toNat) % 2 ^ w := by
  rw [← BitVec.toNat_add, BitVec.toNat_inj]
  unfold lmbAddrsAdjacent
  split_ifs with h₁ h₂ <;> simp_all

theorem lmbAddrsAdjacent_neg_iff {base₁ size₁ base₂ size₂ : BitVec w} :
    lmbAddrsAdjacent base₁ size₁ base₂ size₂ < 0 ↔
      base₂.toNat ≠ (base₁.toNat + size₁.toNat) % 2 ^ w ∧
        base₁.toNat = (base₂.toNat + size₂.toNat) % 2 ^ w := by
  rw [← BitVec.toNat_add, ← BitVec.toNat_add, BitVec.toNat_inj, Ne, BitVec.toNat_inj]
  unfold lmbAddrsAdjacent
  split_ifs with h₁ h₂ <;> simp_all

/-! ## The scan -/

/-- The scan passes `r` over: it neither overlaps the new range nor touches it,
where touching is decided modulo `2 ^ w`. -/
structure Clear (new r : Property w) : Prop where
  apart : r.hi ≤ new.lo ∨ new.hi ≤ r.lo
  below : r.lo ≠ new.hi % 2 ^ w
  above : new.lo ≠ r.hi % 2 ^ w

/-- What the scan extends a region to. -/
inductive Grows (new r : Property w) : Property w → Prop
  /-- `r` starts where the range ends and is extended downwards. -/
  | down : r.lo = new.hi % 2 ^ w → Grows new r ⟨r.base - new.size, r.size + new.size⟩
  /-- Otherwise `r` ends where the range starts and is extended upwards. -/
  | up : r.lo ≠ new.hi % 2 ^ w → new.lo = r.hi % 2 ^ w →
      Grows new r ⟨r.base, r.size + new.size⟩

/-- What each outcome of the scan says about the table. -/
def ScanSpec (new : Property w) (t : Region w) : Scan w → Prop
  | .same => new ∈ t
  | .overlap => ∃ r ∈ t, r.lo < new.hi ∧ new.lo < r.hi
  | .coalesced before grown after =>
      ∃ r, t = before ++ r :: after ∧ (∀ c ∈ before, Clear new c) ∧ Grows new r grown
  | .passed => ∀ r ∈ t, Clear new r

theorem ScanSpec.push {new r : Property w} {t : Region w} {s : Scan w} (hr : Clear new r)
    (h : ScanSpec new t s) : ScanSpec new (r :: t) (s.push r) := by
  cases s with
  | same => exact List.mem_cons_of_mem _ h
  | overlap =>
      obtain ⟨c, hc, hov⟩ := h
      exact ⟨c, List.mem_cons_of_mem _ hc, hov⟩
  | coalesced before grown after =>
      obtain ⟨c, rfl, hcl, hg⟩ := h
      exact ⟨c, rfl, List.forall_mem_cons.mpr ⟨hr, hcl⟩, hg⟩
  | passed => exact List.forall_mem_cons.mpr ⟨hr, h⟩

theorem addScan_spec {new : Property w} (hn : new.Fits) {t : Region w}
    (ht : ∀ r ∈ t, r.Fits) : ScanSpec new t (addScan new.base new.size t) := by
  induction t with
  | nil => simp [addScan, ScanSpec]
  | cons r t ih =>
      obtain ⟨hr, ht⟩ := List.forall_mem_cons.mp ht
      unfold addScan
      split_ifs with h₁ h₂ h₃ h₄
      · have hnew : new = r := by cases new; cases r; simp_all
        exact hnew ▸ List.mem_cons_self
      · exact ⟨r, rfl, by simp, .down (lmbAddrsAdjacent_pos_iff.mp h₂)⟩
      · obtain ⟨hb, ha⟩ := lmbAddrsAdjacent_neg_iff.mp h₃
        exact ⟨r, rfl, by simp, .up hb ha⟩
      · obtain ⟨hov₁, hov₂⟩ := (lmbAddrsOverlap_iff hn hr).mp h₄
        exact ⟨r, List.mem_cons_self, hov₂, hov₁⟩
      · have hb : r.lo ≠ new.hi % 2 ^ w := fun h ↦ h₂ (lmbAddrsAdjacent_pos_iff.mpr h)
        refine ScanSpec.push ⟨?_, hb, fun h ↦ h₃ (lmbAddrsAdjacent_neg_iff.mpr ⟨hb, h⟩)⟩ (ih ht)
        have hno := mt (lmbAddrsOverlap_iff hn hr).mpr (by simpa using h₄)
        omega

/-! ## Sorted insertion -/

theorem shiftUp_append (new : Property w) {before after : Region w}
    (ha : ∀ c ∈ after, new.base < c.base) (hb : ∀ c ∈ before, ¬new.base < c.base) :
    shiftUp new (after ++ before) = after ++ new :: before := by
  induction after with
  | nil =>
      cases before with
      | nil => rfl
      | cons c before => simp [shiftUp, hb c List.mem_cons_self]
  | cons c after ih =>
      obtain ⟨hc, ha⟩ := List.forall_mem_cons.mp ha
      simp [shiftUp, hc, ih ha]

/-- A table split around an address: the regions that start at or below it come
first. -/
theorem exists_split_lo {t : Region w} (h : t.Pairwise fun a b ↦ a.lo < b.lo) (x : ℕ) :
    ∃ before after, t = before ++ after ∧ (∀ c ∈ before, c.lo ≤ x) ∧ ∀ c ∈ after, x < c.lo := by
  induction t with
  | nil => exact ⟨[], [], rfl, by simp, by simp⟩
  | cons r t ih =>
      obtain ⟨hr, ht⟩ := List.pairwise_cons.mp h
      by_cases hx : r.lo ≤ x
      · obtain ⟨before, after, rfl, hb, ha⟩ := ih ht
        exact ⟨r :: before, after, rfl, List.forall_mem_cons.mpr ⟨hx, hb⟩, ha⟩
      · refine ⟨[], r :: t, rfl, by simp, List.forall_mem_cons.mpr ⟨by omega, fun c hc ↦ ?_⟩⟩
        have := hr c hc
        omega

theorem addSorted_append (new first : Property w) {before after t : Region w}
    (ht : before ++ after = first :: t) (hb : ∀ c ∈ before, c.lo ≤ new.lo)
    (ha : ∀ c ∈ after, new.lo < c.lo) :
    addSorted first (before ++ after) new = before ++ new :: after := by
  have hmoved : (shiftUp new (before ++ after).reverse).reverse = before ++ new :: after := by
    rw [List.reverse_append, shiftUp_append new]
    · simp
    · exact fun c hc ↦ ha c (List.mem_reverse.mp hc)
    · intro c hc hlt
      have := hb c (List.mem_reverse.mp hc)
      exact absurd (show new.lo < c.lo from hlt) (by omega)
  unfold addSorted
  rw [hmoved]
  split_ifs with hlt
  · -- the new region goes to the front, and slot `0` already holds it
    cases before with
    | nil => rfl
    | cons c before =>
        obtain ⟨rfl, -⟩ := List.cons.inj ht
        have := hb c List.mem_cons_self
        exact absurd (show new.lo < c.lo from hlt) (by omega)
  · rfl

/-! ## One call -/

/-- The condition under which `lmb_add_region` does its work: the range is not
merged into a region past an overlap with the next one, and no two ranges that
the call compares meet across the top of the address space. -/
structure AddSafe (t : Region w) (new : Property w) : Prop where
  /-- A range that starts where some region ends overlaps no region. -/
  noOverrun : ∀ r ∈ t, r.hi = new.lo → ∀ r' ∈ t, r'.hi ≤ new.lo ∨ new.hi ≤ r'.lo
  /-- The range does not end at the top while a region starts at address `0`. -/
  noTop : new.hi = 2 ^ w → ∀ r ∈ t, r.lo ≠ 0
  /-- A range from address `0` is not compared with a region that ends at the top. -/
  noZero : new.lo = 0 → (∃ r ∈ t, r.hi = 2 ^ w) →
    ¬((∀ r ∈ t, new.hi < r.lo) ∨ t.length = 1 ∨ t.length = 2 ∧ ∃ r ∈ t, r.lo = new.hi)
  /-- Extending the first of two regions does not make it meet the other one
  across the top. -/
  noNext : t.length = 2 → ∀ r ∈ t, r.lo = 0 → r.hi = new.lo → ∀ r' ∈ t, r'.hi ≠ 2 ^ w

/-- What one call promises: the table stays valid and within its bound, a
negative return value means that nothing changed, and any other one that exactly
the new range was added, which was either free or already a region of its own. -/
structure AddSpec (t : Region w) (new : Property w) (res : ℤ × Region w) : Prop where
  /-- The table stays sorted and disjoint. -/
  valid : Valid res.2
  /-- The table does not outgrow its array. -/
  length : t.length ≤ maxLmbRegions → res.2.length ≤ maxLmbRegions
  /-- Failure changes nothing. -/
  unchanged : res.1 < 0 → res.2 = t
  /-- Success adds the range. -/
  added : 0 ≤ res.1 → covered res.2 = covered t ∪ new.bytes
  /-- Success means that the range was free or was a region already. -/
  fresh : 0 ≤ res.1 → Disjoint (covered t) new.bytes ∨ new ∈ t

theorem AddSpec.refused {t : Region w} (hv : Valid t) (new : Property w) :
    AddSpec t new (-1, t) where
  valid := hv
  length := id
  unchanged := fun _ ↦ rfl
  added := fun h ↦ absurd h (by simp)
  fresh := fun h ↦ absurd h (by simp)

theorem AddSpec.accepted {t t' : Region w} {new : Property w} {ret : ℤ} (hret : 0 ≤ ret)
    (hv : Valid t') (hlen : t.length ≤ maxLmbRegions → t'.length ≤ maxLmbRegions)
    (hadd : covered t' = covered t ∪ new.bytes)
    (hfresh : Disjoint (covered t) new.bytes ∨ new ∈ t) : AddSpec t new (ret, t') where
  valid := hv
  length := hlen
  unchanged := fun h ↦ absurd hret (not_le.mpr h)
  added := fun _ ↦ hadd
  fresh := fun _ ↦ hfresh

section Growing

variable {before after : Region w} {new r grown : Property w}

/-- The regions right of one that ends at the top are none. -/
theorem Valid.after_eq_nil (h : Valid (before ++ r :: after)) (hr : r.hi = 2 ^ w) :
    after = [] := by
  obtain ⟨-, -, -, -, hra, -⟩ := Segments.sorted_middle.mp h.sorted
  refine List.eq_nil_iff_forall_not_mem.mpr fun c hc ↦ ?_
  have := hra c hc
  have := c.lo_lt_two_pow
  omega

/-- The regions left of one that starts at address `0` are none. -/
theorem Valid.before_eq_nil (h : Valid (before ++ r :: after)) (hr : r.lo = 0) :
    before = [] := by
  obtain ⟨hb, -, -, hbr, -, -⟩ := Segments.sorted_middle.mp h.sorted
  refine List.eq_nil_iff_forall_not_mem.mpr fun c hc ↦ ?_
  have := hbr c hc
  have := hb.pos c hc
  omega

/-- The segment of a region built from two ends. -/
theorem lo_hi_of_toNat (base size : BitVec w) {a b : ℕ} (ha : base.toNat = a)
    (hb : size.toNat = b - a) (hab : a ≤ b) :
    (⟨base, size⟩ : Property w).lo = a ∧ (⟨base, size⟩ : Property w).hi = b := by
  refine ⟨ha, ?_⟩
  change base.toNat + size.toNat = b
  rw [ha, hb, Nat.add_sub_cancel' hab]

/-- What extending a region amounts to when the call is safe: the extended region
reaches from one end of the two to the other, and still lies between the regions
left and right of it. -/
structure GrowSpec (before after : Region w) (new r grown : Property w) : Prop where
  ends : grown.lo = new.lo ∧ grown.hi = r.hi ∧ new.hi = r.lo ∨
    grown.lo = r.lo ∧ grown.hi = new.hi ∧ r.hi = new.lo
  left : ∀ c ∈ before, c.hi ≤ grown.lo
  right : ∀ c ∈ after, grown.hi ≤ c.lo
  top : grown.hi ≤ 2 ^ w
  next : ∀ c cs, after = c :: cs → grown.lo = 0 → c.hi ≠ 2 ^ w

theorem GrowSpec.lo_lt_hi (h : GrowSpec before after new r grown) (hn : new.Fits)
    (hr : r.lo < r.hi) : grown.lo < grown.hi := by
  have := hn.lo_lt_hi
  rcases h.ends with ⟨h₁, h₂, h₃⟩ | ⟨h₁, h₂, h₃⟩ <;> omega

theorem growSpec_of_down (hn : new.Fits) (hv : Valid (before ++ r :: after))
    (hs : AddSafe (before ++ r :: after) new) (hc : ∀ c ∈ before, Clear new c)
    (hg : r.lo = new.hi % 2 ^ w) :
    GrowSpec before after new r ⟨r.base - new.size, r.size + new.size⟩ := by
  obtain ⟨hsb, -, -, hbr, hra, -⟩ := Segments.sorted_middle.mp hv.sorted
  have hmem : r ∈ before ++ r :: after := by simp
  have hrf := hv.fits hmem
  have hnlt := hn.lo_lt_hi
  have hrlt := hrf.lo_lt_hi
  have hrtop := hrf.top
  have hntop := hn.top
  have hrlo := r.lo_lt_two_pow
  -- the two really touch: otherwise the range ends at the top and `r` starts at `0`
  have htouch : r.lo = new.hi := by
    rcases Nat.lt_or_ge new.hi (2 ^ w) with hlt | hge
    · rwa [Nat.mod_eq_of_lt hlt] at hg
    · have heq : new.hi = 2 ^ w := by omega
      rw [heq, Nat.mod_self] at hg
      exact absurd hg (hs.noTop heq r hmem)
  have hleft : ∀ c ∈ before, c.hi ≤ new.lo := by
    intro c hcb
    have := (hc c hcb).apart
    have := hbr c hcb
    have := hsb.pos c hcb
    omega
  have hzero : new.lo = 0 → before = [] := by
    intro h0
    refine List.eq_nil_iff_forall_not_mem.mpr fun c hcb ↦ ?_
    have := hleft c hcb
    have := hsb.pos c hcb
    omega
  have hlt : r.hi - new.lo < 2 ^ w := by
    by_contra hge
    have h0 : new.lo = 0 := by omega
    have htop : r.hi = 2 ^ w := by omega
    have hb := hzero h0
    have ha := hv.after_eq_nil htop
    subst hb ha
    exact hs.noZero h0 ⟨r, hmem, htop⟩ (Or.inr (Or.inl rfl))
  have hends := lo_hi_of_toNat (r.base - new.size) (r.size + new.size)
    (a := new.lo) (b := r.hi)
    (by
      have hns := new.size_eq
      rw [BitVec.toNat_sub, show 2 ^ w - new.size.toNat + r.base.toNat = new.lo + 2 ^ w by
        rw [show r.base.toNat = r.lo from rfl]; omega, Nat.add_mod_right]
      exact Nat.mod_eq_of_lt new.base.isLt)
    (by
      have hns := new.size_eq
      have hrs := r.size_eq
      rw [BitVec.toNat_add, show r.size.toNat + new.size.toNat = r.hi - new.lo by omega]
      exact Nat.mod_eq_of_lt hlt)
    (by omega)
  refine ⟨Or.inl ⟨hends.1, hends.2, htouch.symm⟩, ?_, ?_, ?_, ?_⟩
  · rw [hends.1]; exact hleft
  · rw [hends.2]; exact hra
  · rw [hends.2]; exact hrtop
  · rintro c cs rfl h0 htop
    rw [hends.1] at h0
    have hb := hzero h0
    subst hb
    have hcs : cs = [] := (show Valid ([r] ++ c :: cs) from hv).after_eq_nil htop
    subst hcs
    exact hs.noZero h0 ⟨c, by simp, htop⟩ (Or.inr (Or.inr ⟨rfl, r, by simp, htouch⟩))

theorem growSpec_of_up (hn : new.Fits) (hv : Valid (before ++ r :: after))
    (hs : AddSafe (before ++ r :: after) new) (hc : ∀ c ∈ before, Clear new c)
    (hg : new.lo = r.hi % 2 ^ w) :
    GrowSpec before after new r ⟨r.base, r.size + new.size⟩ := by
  obtain ⟨hsb, hsa, -, hbr, hra, -⟩ := Segments.sorted_middle.mp hv.sorted
  have hmem : r ∈ before ++ r :: after := by simp
  have hrf := hv.fits hmem
  have hnlt := hn.lo_lt_hi
  have hrlt := hrf.lo_lt_hi
  have hrtop := hrf.top
  have hntop := hn.top
  -- the two really touch: otherwise `r` ends at the top and the range starts at `0`
  have htouch : r.hi = new.lo := by
    rcases Nat.lt_or_ge r.hi (2 ^ w) with hlt | hge
    · rwa [Nat.mod_eq_of_lt hlt, eq_comm] at hg
    · have heq : r.hi = 2 ^ w := by omega
      rw [heq, Nat.mod_self] at hg
      have ha := hv.after_eq_nil heq
      subst ha
      refine absurd ⟨r, hmem, heq⟩ fun hex ↦ hs.noZero hg hex ?_
      cases before with
      | nil => exact Or.inr (Or.inl rfl)
      | cons p before =>
          refine Or.inl fun c hcm ↦ ?_
          have habove : ∀ c ∈ p :: before, new.hi < c.lo := by
            intro c hcb
            have hcl := hc c hcb
            have := hcl.apart
            have := hsb.pos c hcb
            have hle : new.hi ≤ c.lo := by omega
            have := c.lo_lt_two_pow
            have hne := hcl.below
            rw [Nat.mod_eq_of_lt (by omega)] at hne
            omega
          rcases List.mem_append.mp hcm with hcb | hcr
          · exact habove c hcb
          · obtain rfl := List.mem_singleton.mp hcr
            have := habove p List.mem_cons_self
            have := hsb.pos p List.mem_cons_self
            have := hbr p List.mem_cons_self
            omega
  have hright : ∀ c ∈ after, new.hi ≤ c.lo := by
    intro c hca
    have := hs.noOverrun r hmem htouch c (by simp [hca])
    have := hra c hca
    have := hsa.pos c hca
    omega
  have hlt : new.hi - r.lo < 2 ^ w := by
    by_contra hge
    exact hs.noTop (by omega) r hmem (by omega)
  have hends := lo_hi_of_toNat r.base (r.size + new.size)
    (a := r.lo) (b := new.hi) rfl
    (by
      have hns := new.size_eq
      have hrs := r.size_eq
      rw [BitVec.toNat_add, show r.size.toNat + new.size.toNat = new.hi - r.lo by omega]
      exact Nat.mod_eq_of_lt hlt)
    (by omega)
  refine ⟨Or.inr ⟨hends.1, hends.2, htouch⟩, ?_, ?_, ?_, ?_⟩
  · rw [hends.1]; exact hbr
  · rw [hends.2]; exact hright
  · rw [hends.2]; exact hntop
  · rintro c cs rfl h0 htop
    rw [hends.1] at h0
    have hb := hv.before_eq_nil h0
    subst hb
    have hcs : cs = [] := (show Valid ([r] ++ c :: cs) from hv).after_eq_nil htop
    subst hcs
    exact hs.noNext rfl r (by simp) h0 htouch c (by simp) htop

theorem growSpec_of_grows (hn : new.Fits) (hv : Valid (before ++ r :: after))
    (hs : AddSafe (before ++ r :: after) new) (hc : ∀ c ∈ before, Clear new c)
    (hg : Grows new r grown) : GrowSpec before after new r grown := by
  cases hg with
  | down h => exact growSpec_of_down hn hv hs hc h
  | up _ h => exact growSpec_of_up hn hv hs hc h

/-- The table after the extended region was merged with its successor, if the two
touch. -/
theorem addSpec_coalesceNext (hn : new.Fits) (hv : Valid (before ++ r :: after))
    (hg : GrowSpec before after new r grown) :
    AddSpec (before ++ r :: after) new (coalesceNext before grown after) := by
  obtain ⟨hsb, -, hrpos, hbr, hra, hba⟩ := Segments.sorted_middle.mp hv.sorted
  have hnlt := hn.lo_lt_hi
  have hglt := hg.lo_lt_hi hn hrpos
  have hgfit : grown.Fits := ⟨by have := grown.size_eq; omega, hg.top⟩
  have hcov : Set.Ico grown.lo grown.hi = Set.Ico r.lo r.hi ∪ new.bytes := by
    ext x
    simp only [Property.bytes, Set.mem_union, Set.mem_Ico]
    rcases hg.ends with ⟨h₁, h₂, h₃⟩ | ⟨h₁, h₂, h₃⟩ <;> omega
  have hfree : Disjoint (covered (before ++ r :: after)) new.bytes := by
    refine Set.disjoint_left.mpr fun x ⟨c, hcm, hx₁, hx₂⟩ hx ↦ ?_
    obtain ⟨hx₃, hx₄⟩ := hx
    rcases List.mem_append.mp hcm with hcb | hcm
    · have := hg.left c hcb
      have := hbr c hcb
      rcases hg.ends with ⟨h₁, h₂, h₃⟩ | ⟨h₁, h₂, h₃⟩ <;> omega
    · rcases List.mem_cons.mp hcm with rfl | hca
      · rcases hg.ends with ⟨h₁, h₂, h₃⟩ | ⟨h₁, h₂, h₃⟩ <;> omega
      · have := hg.right c hca
        have := hra c hca
        rcases hg.ends with ⟨h₁, h₂, h₃⟩ | ⟨h₁, h₂, h₃⟩ <;> omega
  have hplain : AddSpec (before ++ r :: after) new (1, before ++ grown :: after) := by
    refine .accepted (by decide) (hv.replace hgfit hg.left hg.right) (fun h ↦ by simpa using h)
      ?_ (Or.inl hfree)
    simp only [covered, Segments.cover_append, Segments.cover_cons, hcov]
    ext x; simp only [Set.mem_union]; tauto
  cases after with
  | nil => exact hplain
  | cons next after =>
      simp only [coalesceNext]
      split_ifs with hadj
      swap
      · exact hplain
      · have hnf : next.Fits := hv.fits (by simp)
        have hnl := hnf.lo_lt_hi
        have hnt := hnf.top
        have hnlo := next.lo_lt_two_pow
        have hgn : grown.hi ≤ next.lo := hg.right next List.mem_cons_self
        -- a wrapped contact is excluded, so the successor starts where `grown` ends
        have htouch : next.lo = grown.hi := by
          have hnext := hg.next next after rfl
          unfold lmbRegionsAdjacent at hadj
          rcases lt_trichotomy (lmbAddrsAdjacent grown.base grown.size next.base next.size) 0
            with h | h | h
          · have habove : grown.lo = next.hi % 2 ^ w := (lmbAddrsAdjacent_neg_iff.mp h).2
            rcases Nat.lt_or_ge next.hi (2 ^ w) with hlt | hge
            · rw [Nat.mod_eq_of_lt hlt] at habove
              omega
            · have heq : next.hi = 2 ^ w := by omega
              rw [heq, Nat.mod_self] at habove
              exact absurd heq (hnext habove)
          · exact absurd h hadj
          · have hbelow : next.lo = grown.hi % 2 ^ w := lmbAddrsAdjacent_pos_iff.mp h
            rwa [Nat.mod_eq_of_lt (by omega)] at hbelow
        have hends := lo_hi_of_toNat grown.base (grown.size + next.size)
          (a := grown.lo) (b := next.hi) rfl
          (by
            have hgs := grown.size_eq
            have hns := next.size_eq
            rw [BitVec.toNat_add, show grown.size.toNat + next.size.toNat = next.hi - grown.lo by
              omega]
            refine Nat.mod_eq_of_lt ?_
            by_contra hge
            exact hg.next next after rfl (by omega) (by omega))
          (by omega)
        have hsplit : Valid ((before ++ [r]) ++ next :: after) := by simpa using hv
        obtain ⟨-, -, -, -, hnra, -⟩ := Segments.sorted_middle.mp hsplit.sorted
        have hmerged : Valid (before ++ ⟨grown.base, grown.size + next.size⟩ :: after) := by
          have hv' : Valid (before ++ r :: after) := by simpa using hsplit.erase
          refine hv'.replace ⟨?_, ?_⟩ ?_ ?_
          · have h := Property.size_eq ⟨grown.base, grown.size + next.size⟩
            rw [hends.1, hends.2] at h
            omega
          · rw [hends.2]; exact hnt
          · rw [hends.1]; exact hg.left
          · rw [hends.2]; exact hnra
        refine .accepted (by decide) hmerged (fun h ↦ ?_) ?_ (Or.inl hfree)
        · simp only [List.length_append, List.length_cons] at h ⊢
          omega
        · have hmcov : Set.Ico grown.lo next.hi =
              Set.Ico grown.lo grown.hi ∪ Set.Ico next.lo next.hi := by
            ext x
            simp only [Set.mem_union, Set.mem_Ico]
            omega
          simp only [covered, Segments.cover_append, Segments.cover_cons, hends.1, hends.2,
            hmcov, hcov]
          ext x; simp only [Set.mem_union]; tauto

end Growing

/-- Sorted insertion of a range that overlaps no region. -/
theorem addSpec_addSorted {first new : Property w} {t : Region w} (hv : Valid (first :: t))
    (hn : new.Fits) (hclear : ∀ r ∈ first :: t, r.hi ≤ new.lo ∨ new.hi ≤ r.lo)
    (hfull : ¬maxLmbRegions ≤ (first :: t).length) :
    AddSpec (first :: t) new (0, addSorted first (first :: t) new) := by
  obtain ⟨before, after, ht, hb, ha⟩ := exists_split_lo hv.sorted.pairwise_lo_lt new.lo
  have hnlt := hn.lo_lt_hi
  rw [ht] at hv hclear hfull ⊢
  rw [addSorted_append new first ht.symm hb ha]
  refine .accepted le_rfl (hv.insert hn (fun c hc ↦ ?_) (fun c hc ↦ ?_)) (fun _ ↦ ?_) ?_
    (Or.inl ?_)
  · have := hclear c (List.mem_append_left _ hc)
    have := hb c hc
    omega
  · have := hclear c (List.mem_append_right _ hc)
    have := ha c hc
    have := (hv.fits (List.mem_append_right _ hc)).lo_lt_hi
    omega
  · simp only [List.length_append, List.length_cons] at hfull ⊢
    omega
  · simp only [covered, Segments.cover_append, Segments.cover_cons, Property.bytes]
    ext x; simp only [Set.mem_union]; tauto
  · refine Set.disjoint_left.mpr fun x ⟨c, hcm, hx₁, hx₂⟩ ⟨hx₃, hx₄⟩ ↦ ?_
    have := hclear c hcm
    omega

theorem lmbAddRegion_spec {t : Region w} {new : Property w} (hv : Valid t) (hn : new.Fits)
    (hs : AddSafe t new) : AddSpec t new (lmbAddRegion t new.base new.size) := by
  have hscan := addScan_spec hn (t := t) fun r hr ↦ hv.fits hr
  cases t with
  | nil =>
      refine .accepted le_rfl (Valid.singleton hn) (fun _ ↦ by simp [maxLmbRegions]) ?_
        (Or.inl (by simp [covered]))
      simp [covered, Property.bytes]
  | cons first t =>
      rw [lmbAddRegion]
      cases hsc : addScan new.base new.size (first :: t) with
      | same =>
          rw [hsc] at hscan
          refine .accepted le_rfl hv id ?_ (Or.inr hscan)
          refine (Set.union_eq_self_of_subset_right fun x hx ↦ ?_).symm
          exact ⟨new, hscan, hx.1, hx.2⟩
      | overlap => exact .refused hv new
      | coalesced before grown after =>
          rw [hsc] at hscan
          obtain ⟨r, ht, hcl, hg⟩ := hscan
          rw [ht] at hv hs ⊢
          exact addSpec_coalesceNext hn hv (growSpec_of_grows hn hv hs hcl hg)
      | passed =>
          rw [hsc] at hscan
          have hclear : ∀ r ∈ first :: t, r.hi ≤ new.lo ∨ new.hi ≤ r.lo :=
            fun r hr ↦ (hscan r hr).apart
          simp only [addFinish]
          split_ifs with hfull
          · exact .refused hv new
          · exact addSpec_addSorted hv hn hclear hfull

/-! ## When a call is refused -/

/-- The range is refused: it is no region of the table and touches none from above,
and it overlaps a region or finds the table full and no region that it could
extend. -/
structure Refused (t : Region w) (new : Property w) : Prop where
  notSame : new ∉ t
  untouched : ∀ r ∈ t, r.hi ≠ new.lo
  noTop : new.hi = 2 ^ w → ∀ r ∈ t, r.lo ≠ 0
  cause : (∃ r ∈ t, r.lo < new.hi ∧ new.lo < r.hi) ∨
    maxLmbRegions ≤ t.length ∧ ∀ r ∈ t, r.lo ≠ new.hi

/-- The region at which the scan finds an overlap. -/
theorem addScan_eq_overlap {new : Property w} (hn : new.Fits) {t : Region w}
    (ht : ∀ r ∈ t, r.Fits) (h : addScan new.base new.size t = .overlap) :
    ∃ before r after, t = before ++ r :: after ∧ (∀ c ∈ before, Clear new c) ∧ r ≠ new ∧
      r.lo ≠ new.hi % 2 ^ w ∧ r.lo < new.hi ∧ new.lo < r.hi := by
  induction t with
  | nil => simp [addScan] at h
  | cons r t ih =>
      obtain ⟨hr, ht⟩ := List.forall_mem_cons.mp ht
      unfold addScan at h
      split_ifs at h with h₁ h₂ h₃ h₄
      · have hb : r.lo ≠ new.hi % 2 ^ w := fun h ↦ h₂ (lmbAddrsAdjacent_pos_iff.mpr h)
        obtain ⟨hov₁, hov₂⟩ := (lmbAddrsOverlap_iff hn hr).mp h₄
        refine ⟨[], r, t, rfl, by simp, ?_, hb, hov₂, hov₁⟩
        rintro rfl
        exact h₁ ⟨rfl, rfl⟩
      · have hb : r.lo ≠ new.hi % 2 ^ w := fun h ↦ h₂ (lmbAddrsAdjacent_pos_iff.mpr h)
        have hno := mt (lmbAddrsOverlap_iff hn hr).mpr (by simpa using h₄)
        have hclear : Clear new r :=
          ⟨by omega, hb, fun h ↦ h₃ (lmbAddrsAdjacent_neg_iff.mpr ⟨hb, h⟩)⟩
        have hrest : addScan new.base new.size t = .overlap := by
          cases hs : addScan new.base new.size t <;> simp_all [Scan.push]
        obtain ⟨before, c, after, rfl, hcl, hc⟩ := ih ht hrest
        exact ⟨r :: before, c, after, rfl, List.forall_mem_cons.mpr ⟨hclear, hcl⟩, hc⟩

theorem Clear.not_self {new : Property w} (hn : new.Fits) : ¬Clear new new := by
  intro h
  have := h.apart
  have := hn.lo_lt_hi
  omega

theorem Clear.hi_ne {new r : Property w} (h : Clear new r) : r.hi ≠ new.lo := by
  intro heq
  have hlt := new.lo_lt_two_pow
  exact h.above (by rw [heq, Nat.mod_eq_of_lt hlt])

theorem lmbAddRegion_neg_iff {t : Region w} {new : Property w} (hv : Valid t) (hn : new.Fits)
    (h0 : new.lo ≠ 0) : (lmbAddRegion t new.base new.size).1 < 0 ↔ Refused t new := by
  have hnlt := hn.lo_lt_hi
  have hnt := hn.top
  have hscan := addScan_spec hn (t := t) fun r hr ↦ hv.fits hr
  cases t with
  | nil =>
      refine iff_of_false (by simp [lmbAddRegion]) fun h ↦ ?_
      rcases h.cause with ⟨r, hr, -⟩ | ⟨hfull, -⟩
      · exact absurd hr List.not_mem_nil
      · exact absurd hfull (Nat.not_succ_le_zero 7)
  | cons first t =>
      rw [lmbAddRegion]
      cases hsc : addScan new.base new.size (first :: t) with
      | same =>
          rw [hsc] at hscan
          exact iff_of_false (by simp [addFinish]) fun h ↦ h.notSame hscan
      | overlap =>
          obtain ⟨before, r, after, heq, hcl, hne, hb, hov₁, hov₂⟩ :=
            addScan_eq_overlap hn (fun r hr ↦ hv.fits hr) hsc
          rw [heq] at hv ⊢
          obtain ⟨-, hsa, hrpos, hbr, hra, -⟩ := Segments.sorted_middle.mp hv.sorted
          refine iff_of_true (by simp [addFinish]) ⟨fun hmem ↦ ?_, fun c hc ↦ ?_,
            fun htop c hc ↦ ?_, Or.inl ⟨r, by simp, hov₁, hov₂⟩⟩
          · rcases List.mem_append.mp hmem with hmem | hmem
            · exact Clear.not_self hn (hcl new hmem)
            · rcases List.mem_cons.mp hmem with rfl | hmem
              · exact hne rfl
              · have := hra new hmem
                omega
          · rcases List.mem_append.mp hc with hc | hc
            · exact (hcl c hc).hi_ne
            · rcases List.mem_cons.mp hc with rfl | hc
              · omega
              · have := hra c hc
                have := hsa.pos c hc
                omega
          · rcases List.mem_append.mp hc with hc | hc
            · have hbelow := (hcl c hc).below
              rwa [htop, Nat.mod_self] at hbelow
            · rcases List.mem_cons.mp hc with rfl | hc
              · rwa [htop, Nat.mod_self] at hb
              · have := hra c hc
                omega
      | coalesced before grown after =>
          rw [hsc] at hscan
          obtain ⟨r, heq, hcl, hg⟩ := hscan
          rw [heq] at hv ⊢
          obtain ⟨-, -, hrpos, hbr, hra, -⟩ := Segments.sorted_middle.mp hv.sorted
          have hrt := hv.top r (by simp)
          refine iff_of_false ?_ fun h ↦ ?_
          · cases after with
            | nil => simp [addFinish, coalesceNext]
            | cons next after =>
                simp only [addFinish, coalesceNext]
                split_ifs <;> simp
          · cases hg with
            | down hg =>
                have hlt : new.hi < 2 ^ w := by
                  refine lt_of_le_of_ne hnt fun htop ↦ h.noTop htop r (by simp) ?_
                  rw [hg, htop, Nat.mod_self]
                rw [Nat.mod_eq_of_lt hlt] at hg
                rcases h.cause with ⟨c, hc, hov₁, hov₂⟩ | ⟨-, hno⟩
                · -- a region that overlaps the range lies left of `r`, and there the scan met none
                  rcases List.mem_append.mp hc with hc | hc
                  · have := (hcl c hc).apart
                    omega
                  · rcases List.mem_cons.mp hc with rfl | hc
                    · omega
                    · have := hra c hc
                      omega
                · exact hno r (by simp) hg
            | up _ hg =>
                rcases Nat.lt_or_ge r.hi (2 ^ w) with hlt | hge
                · rw [Nat.mod_eq_of_lt hlt] at hg
                  exact h.untouched r (by simp) hg.symm
                · rw [show r.hi = 2 ^ w by omega, Nat.mod_self] at hg
                  exact h0 hg
      | passed =>
          rw [hsc] at hscan
          have hclear : ∀ r ∈ first :: t, Clear new r := hscan
          simp only [addFinish]
          split_ifs with hfull
          · refine iff_of_true (by simp) ⟨fun hmem ↦ Clear.not_self hn (hclear new hmem),
              fun r hr ↦ (hclear r hr).hi_ne, fun htop r hr ↦ ?_,
              Or.inr ⟨hfull, fun r hr heq ↦ (hclear r hr).below ?_⟩⟩
            · have hbelow := (hclear r hr).below
              rwa [htop, Nat.mod_self] at hbelow
            · have hlt := r.lo_lt_two_pow
              rw [heq] at hlt
              rw [heq, Nat.mod_eq_of_lt hlt]
          · refine iff_of_false (by simp) fun h ↦ ?_
            rcases h.cause with ⟨r, hr, hov₁, hov₂⟩ | ⟨hfull', -⟩
            · have := (hclear r hr).apart
              omega
            · exact hfull hfull'

/-- A range that ends at the top while a region starts at address `0` is taken for the
lower neighbour of that region, which is moved up: address `0` is lost. -/
theorem lmbAddRegion_of_top {t : Region w} {new r : Property w} (hv : Valid t)
    (h0 : new.lo ≠ 0) (htop : new.hi = 2 ^ w) (hr : r ∈ t) (hr0 : r.lo = 0) :
    0 ≤ (lmbAddRegion t new.base new.size).1 ∧
      0 ∉ covered (lmbAddRegion t new.base new.size).2 := by
  have hns := new.size_eq
  have hnlo := new.lo_lt_two_pow
  obtain ⟨before, after, rfl⟩ := List.append_of_mem hr
  obtain rfl := hv.before_eq_nil hr0
  obtain ⟨-, hsa, hrpos, -, hra, -⟩ := Segments.sorted_middle.mp hv.sorted
  have hscan : addScan new.base new.size (r :: after) =
      .coalesced [] ⟨r.base - new.size, r.size + new.size⟩ after := by
    have hadj : lmbAddrsAdjacent new.base new.size r.base r.size > 0 := by
      refine lmbAddrsAdjacent_pos_iff.mpr ?_
      change r.lo = new.hi % 2 ^ w
      rw [hr0, htop, Nat.mod_self]
    rw [addScan, if_neg, if_pos hadj]
    rintro ⟨hbase, -⟩
    exact h0 (by rw [Property.lo, ← hbase]; exact hr0)
  have hbase : (r.base - new.size).toNat = new.lo := by
    have hrb : r.base.toNat = 0 := hr0
    rw [BitVec.toNat_sub, hrb, Nat.add_zero, Nat.mod_eq_of_lt (by omega)]
    omega
  have hafter : ∀ c ∈ after, 0 < c.lo := by
    intro c hc
    have := hra c hc
    omega
  rw [List.nil_append, lmbAddRegion, hscan]
  cases after with
  | nil =>
      refine ⟨by simp [addFinish, coalesceNext], ?_⟩
      rintro ⟨c, hc, hlo, -⟩
      obtain rfl : c = ⟨r.base - new.size, r.size + new.size⟩ := by
        simpa [addFinish, coalesceNext] using hc
      have hle : (r.base - new.size).toNat ≤ 0 := hlo
      omega
  | cons next after =>
      obtain ⟨-, hafter'⟩ := List.forall_mem_cons.mp hafter
      simp only [addFinish, coalesceNext]
      split_ifs
      · refine ⟨by simp, ?_⟩
        rintro ⟨c, hc, hlo, -⟩
        rcases List.mem_cons.mp hc with rfl | hc
        · have hle : (r.base - new.size).toNat ≤ 0 := hlo
          omega
        · have := hafter' c hc
          omega
      · refine ⟨by simp, ?_⟩
        rintro ⟨c, hc, hlo, -⟩
        rcases List.mem_cons.mp hc with rfl | hc
        · have hle : (r.base - new.size).toNat ≤ 0 := hlo
          omega
        · have := hafter c hc
          omega

end MiniPi.Lmb
