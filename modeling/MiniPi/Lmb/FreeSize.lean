import MiniPi.Lmb.Grant

/-!
# What `lmb_get_free_size` reports

For an address in memory `lmb_get_free_size` answers with the distance to the next
reserved region, or to the end of the last memory region when there is none.  It never
looks at the gaps between memory regions, and a reserved region that ends at the top of
the address space does not count as containing an address.
-/

namespace MiniPi.Lmb

open Lib

variable {w : ℕ} {lmb : Tables w} {t : Region w} {addr : BitVec w}

/-- Every byte reported is memory and not reserved. -/
def Reports (lmb : Tables w) (addr : BitVec w) : Prop :=
  ∀ x, addr.toNat ≤ x → x < addr.toNat + (lmbGetFreeSize lmb addr).toNat →
    x ∈ covered lmb.memory ∧ x ∉ covered lmb.reserved

/-- Above the address the memory has no gap before the next reserved region: a memory region
that ends above the address is followed by another one without a gap, or a reserved region
starts in it above the address or where it ends, or it is the last memory region and no
reserved region starts above the address. -/
def NoGap (lmb : Tables w) (a : ℕ) : Prop :=
  ∀ m ∈ lmb.memory, a < m.hi → (∃ m' ∈ lmb.memory, m'.lo = m.hi) ∨
    (∃ r ∈ lmb.reserved, a < r.lo ∧ r.lo ≤ m.hi) ∨
    (∀ m' ∈ lmb.memory, m'.hi ≤ m.hi) ∧ ∀ r ∈ lmb.reserved, r.lo ≤ a

/-- The condition under which the report is right: the address is not in memory, or it is in
a reserved region that ends below the top, or it is not reserved and the memory has no gap
above it.  For address `0` the distance to the top of the address space is reported as `0`. -/
def ReportSafe (lmb : Tables w) (a : ℕ) : Prop :=
  a ∈ covered lmb.memory → (∃ r ∈ lmb.reserved, r.lo ≤ a ∧ a < r.hi ∧ r.hi < 2 ^ w) ∨
    (a = 0 ∧ lmb.reserved = [] ∧ ∃ m ∈ lmb.memory, m.hi = 2 ^ w) ∨
    a ∉ covered lmb.reserved ∧ NoGap lmb a

/-! ## The loop over the reserved regions -/

/-- What the loop over the reserved regions comes to. -/
inductive Below (t : Region w) (addr : BitVec w) : Option (BitVec w) → Prop
  /-- The address lies in a region that ends below the top. -/
  | inside {r : Property w} : r ∈ t → r.lo ≤ addr.toNat → addr.toNat < r.hi → r.hi < 2 ^ w →
      Below t addr (some 0)
  /-- The region `r` is the first above the address, which is not reserved. -/
  | next {r : Property w} {size : BitVec w} : r ∈ t → addr.toNat < r.lo →
      addr.toNat + size.toNat = r.lo →
      (∀ c ∈ t, c.hi ≤ addr.toNat ∨ r.lo ≤ c.lo) → Below t addr (some size)
  /-- No region starts above the address, and none that ends below the top contains it. -/
  | none : (∀ c ∈ t, c.lo ≤ addr.toNat ∧ (c.hi ≤ addr.toNat ∨ c.hi = 2 ^ w)) → Below t addr none

theorem freeBelow_below (hv : Valid t) : Below t addr (freeBelow addr t) := by
  induction t with
  | nil => exact .none (by simp)
  | cons r t ih =>
      obtain ⟨hrpos, hrt, -⟩ := Segments.sorted_cons.mp hv.sorted
      have hr : r.Fits := hv.fits List.mem_cons_self
      have htop := hr.top
      rw [freeBelow]
      split_ifs with hlt hin
      · have hlt' : addr.toNat < r.lo := hlt
        have hsub : (r.base - addr).toNat = r.lo - addr.toNat :=
          BitVec.toNat_sub_of_le (BitVec.le_def.mpr hlt'.le)
        refine .next List.mem_cons_self hlt' (by omega) (List.forall_mem_cons.mpr ⟨Or.inr le_rfl,
          fun c hc ↦ Or.inr ?_⟩)
        have := hrt c hc
        omega
      · have hle : r.lo ≤ addr.toNat := not_lt.mp hlt
        have hin' : addr.toNat < r.hi % 2 ^ w := by
          have hsum := BitVec.lt_def.mp hin
          rwa [BitVec.toNat_add] at hsum
        rcases Nat.lt_or_ge r.hi (2 ^ w) with htop' | htop'
        · rw [Nat.mod_eq_of_lt htop'] at hin'
          exact .inside List.mem_cons_self hle hin' htop'
        · rw [show r.hi = 2 ^ w by omega, Nat.mod_self] at hin'
          exact absurd hin' (Nat.not_lt_zero _)
      · have hle : r.lo ≤ addr.toNat := not_lt.mp hlt
        have hout : r.hi % 2 ^ w ≤ addr.toNat := by
          have hsum := not_lt.mp (mt BitVec.lt_def.mpr hin)
          rwa [BitVec.toNat_add] at hsum
        have hpast : r.hi ≤ addr.toNat ∨ r.hi = 2 ^ w := by
          rcases Nat.lt_or_ge r.hi (2 ^ w) with htop' | htop'
          · rw [Nat.mod_eq_of_lt htop'] at hout
            exact Or.inl hout
          · exact Or.inr (by omega)
        have hih := ih hv.of_cons
        generalize freeBelow addr t = res at hih ⊢
        cases hih with
        | inside hc h₁ h₂ h₃ => exact .inside (List.mem_cons_of_mem _ hc) h₁ h₂ h₃
        | @next c size hc h₁ h₂ h₃ =>
            refine .next (List.mem_cons_of_mem _ hc) h₁ h₂ (List.forall_mem_cons.mpr ⟨?_, h₃⟩)
            have := hrt c hc
            have := c.lo_lt_two_pow
            omega
        | none hc => exact .none (List.forall_mem_cons.mpr ⟨⟨hle, hpast⟩, hc⟩)

/-! ## The end that is reported -/

/-- All memory from the address up to `e`, where no gap is. -/
theorem covered_of_noGap {a e : ℕ} (hm : Valid lmb.memory) (ha : a ∈ covered lmb.memory)
    (hgap : ∀ m ∈ lmb.memory, a < m.hi → m.hi < e → ∃ m' ∈ lmb.memory, m'.lo = m.hi) (x : ℕ)
    (hx : a ≤ x) (hxe : x < e) : x ∈ covered lmb.memory := by
  induction x, hx using Nat.le_induction with
  | base => exact ha
  | succ x hax ih =>
      obtain ⟨m, hmm, h₁, h₂⟩ := ih (by omega)
      by_cases hlt : x + 1 < m.hi
      · exact ⟨m, hmm, by omega, hlt⟩
      · obtain ⟨m', hm', heq⟩ := hgap m hmm (by omega) (by omega)
        have := (hm.fits hm').lo_lt_hi
        exact ⟨m', hm', by omega, by omega⟩

/-- Where all bytes up to `e` are memory, a region that ends before `e` has a neighbour. -/
theorem exists_neighbour {a e : ℕ} (hm : Valid lmb.memory)
    (hall : ∀ x, a ≤ x → x < e → x ∈ covered lmb.memory) {m : Property w} (hmm : m ∈ lmb.memory)
    (ha : a < m.hi) (he : m.hi < e) : ∃ m' ∈ lmb.memory, m'.lo = m.hi := by
  obtain ⟨m', hm', h₁, h₂⟩ := hall m.hi ha.le he
  refine ⟨m', hm', ?_⟩
  obtain ⟨before, after, heq⟩ := List.append_of_mem hmm
  rw [heq] at hm hm'
  obtain ⟨hsb, -, -, hbr, hra, -⟩ := Segments.sorted_middle.mp hm.sorted
  have hpos := (hm.fits (r := m) (by simp)).lo_lt_hi
  rcases List.mem_append.mp hm' with hc | hc
  · have := hbr m' hc
    omega
  · rcases List.mem_cons.mp hc with rfl | hc
    · omega
    · have := hra m' hc
      omega

theorem hi_le_getLast (hv : Valid t) {m : Property w} (hm : t.getLast? = some m) :
    m ∈ t ∧ ∀ c ∈ t, c.hi ≤ m.hi := by
  obtain ⟨front, rfl⟩ := List.getLast?_eq_some_iff.mp hm
  obtain ⟨-, -, hpos, hleft, -, -⟩ := Segments.sorted_middle.mp hv.sorted
  refine ⟨by simp, fun c hc ↦ ?_⟩
  rcases List.mem_append.mp hc with hc | hc
  · have := hleft c hc
    omega
  · exact (List.mem_singleton.mp hc) ▸ le_rfl

/-- Where the bytes up to the end reported are not reserved, the report is right when no
gap lies before that end. -/
theorem reports_iff_of_end {e : ℕ} (hm : Valid lmb.memory) (ha : addr.toNat ∈ covered lmb.memory)
    (he : addr.toNat + (lmbGetFreeSize lmb addr).toNat = e)
    (hfree : ∀ x, addr.toNat ≤ x → x < e → x ∉ covered lmb.reserved) :
    Reports lmb addr ↔
      ∀ m ∈ lmb.memory, addr.toNat < m.hi → m.hi < e → ∃ m' ∈ lmb.memory, m'.lo = m.hi := by
  rw [Reports, he]
  constructor
  · intro hall m hmm
    exact exists_neighbour hm (fun x h₁ h₂ ↦ (hall x h₁ h₂).1) hmm
  · intro hgap x h₁ h₂
    exact ⟨covered_of_noGap hm ha hgap x h₁ h₂, hfree x h₁ h₂⟩

theorem lmbOverlapsRegion_one (hv : Valid t) :
    lmbOverlapsRegion t addr 1 = none ↔ addr.toNat ∉ covered t := by
  rw [lmbOverlapsRegion, List.find?_eq_none]
  have hover {r : Property w} (hr : r ∈ t) :
      lmbAddrsOverlap addr 1 r.base r.size = true ↔ r.lo ≤ addr.toNat ∧ addr.toNat < r.hi := by
    have hone := one_of_fits (hv.fits hr)
    have hlt := addr.isLt
    have hfits : Property.Fits ⟨addr, (1 : BitVec w)⟩ := by
      refine ⟨by simp only [hone]; decide, ?_⟩
      simp only [Property.hi, hone]
      omega
    rw [lmbAddrsOverlap_iff (a := ⟨addr, 1⟩) hfits (hv.fits hr)]
    simp only [Property.lo, Property.hi, hone]
    omega
  constructor
  · rintro hno ⟨r, hr, hin⟩
    exact hno r hr ((hover hr).mpr hin)
  · intro hno r hr hin
    exact hno ⟨r, hr, (hover hr).mp hin⟩

/-! ## The two places the report may end at -/

/-- The report ends at the reserved region that follows. -/
theorem reports_iff_of_next {r : Property w} (hm : Valid lmb.memory) (hv : Valid lmb.reserved)
    (ha : addr.toNat ∈ covered lmb.memory) (hr : r ∈ lmb.reserved) (hlo : addr.toNat < r.lo)
    (hend : addr.toNat + (lmbGetFreeSize lmb addr).toNat = r.lo)
    (hother : ∀ c ∈ lmb.reserved, c.hi ≤ addr.toNat ∨ r.lo ≤ c.lo) :
    Reports lmb addr ↔ ReportSafe lmb addr.toNat := by
  have hfree : ∀ x, addr.toNat ≤ x → x < r.lo → x ∉ covered lmb.reserved := by
    rintro x hx hxe ⟨c, hc, hclo, hchi⟩
    have := hother c hc
    omega
  rw [reports_iff_of_end hm ha hend hfree]
  constructor
  · intro hgap _
    refine Or.inr (Or.inr ⟨hfree _ le_rfl hlo, fun m hmm hmhi ↦ ?_⟩)
    rcases Nat.lt_or_ge m.hi r.lo with hlt | hge
    · exact Or.inl (hgap m hmm hmhi hlt)
    · exact Or.inr (Or.inl ⟨r, hr, hlo, hge⟩)
  · intro hsafe m hmm hmhi hlt
    rcases hsafe ha with ⟨c, hc, hclo, hchi, -⟩ | ⟨-, hnil, -⟩ | ⟨-, hgap⟩
    · exact absurd ⟨c, hc, hclo, hchi⟩ (hfree _ le_rfl hlo)
    · rw [hnil] at hr
      exact absurd hr List.not_mem_nil
    · rcases hgap m hmm hmhi with hnext | ⟨c, hc, hclo, hcm⟩ | ⟨-, hnone⟩
      · exact hnext
      · have := hother c hc
        have := (hv.fits hc).lo_lt_hi
        omega
      · have := hnone r hr
        omega

variable {last : Property w}

/-- The distance to the end of a region, unless it is the whole address space. -/
theorem add_distance_eq_hi (hle : addr.toNat < last.hi) (htop : last.hi ≤ 2 ^ w)
    (hwhole : ¬(addr.toNat = 0 ∧ last.hi = 2 ^ w)) :
    addr.toNat + (last.base + last.size - addr).toNat = last.hi := by
  have hhi : last.base.toNat + last.size.toNat = last.hi := rfl
  have hlt := addr.isLt
  rw [BitVec.toNat_sub, BitVec.toNat_add, hhi]
  rcases Nat.lt_or_ge last.hi (2 ^ w) with h | h
  · rw [Nat.mod_eq_of_lt h, show 2 ^ w - addr.toNat + last.hi =
      (last.hi - addr.toNat) + 2 ^ w by omega, Nat.add_mod_right, Nat.mod_eq_of_lt (by omega)]
    omega
  · rw [show last.hi = 2 ^ w by omega, Nat.mod_self, Nat.add_zero, Nat.mod_eq_of_lt (by omega)]
    omega

/-- The distance from `0` to the top of the address space is `0`. -/
theorem distance_eq_zero (hzero : addr.toNat = 0) (hend : last.hi = 2 ^ w) :
    (last.base + last.size - addr).toNat = 0 := by
  have hhi : last.base.toNat + last.size.toNat = last.hi := rfl
  rw [BitVec.toNat_sub, BitVec.toNat_add, hhi, hend, Nat.mod_self, Nat.add_zero, hzero,
    Nat.sub_zero, Nat.mod_self]

/-- Nothing is reserved above address `0`, and the report is empty. -/
theorem reports_iff_of_whole (hv : Valid lmb.reserved) (hmem : last ∈ lmb.memory)
    (hall : ∀ c ∈ lmb.reserved, c.lo ≤ addr.toNat ∧ (c.hi ≤ addr.toNat ∨ c.hi = 2 ^ w))
    (hcall : lmbGetFreeSize lmb addr = last.base + last.size - addr) (hzero : addr.toNat = 0)
    (hend : last.hi = 2 ^ w) : Reports lmb addr ↔ ReportSafe lmb addr.toNat := by
  have hnil : lmb.reserved = [] := by
    refine List.eq_nil_iff_forall_not_mem.mpr fun c hc ↦ ?_
    have := hall c hc
    have := (hv.fits hc).lo_lt_hi
    have := c.size_eq
    have := c.size.isLt
    omega
  have hsize := distance_eq_zero hzero hend
  rw [← hcall] at hsize
  refine iff_of_true (fun x h₁ h₂ ↦ ?_) fun _ ↦ Or.inr (Or.inl ⟨hzero, hnil, last, hmem, hend⟩)
  omega

/-- The report ends at the end of the last memory region. -/
theorem reports_iff_of_last (hm : Valid lmb.memory) (ha : addr.toNat ∈ covered lmb.memory)
    (hmem : last ∈ lmb.memory) (hmax : ∀ c ∈ lmb.memory, c.hi ≤ last.hi)
    (hlt : addr.toNat < last.hi)
    (hall : ∀ c ∈ lmb.reserved, c.lo ≤ addr.toNat ∧ (c.hi ≤ addr.toNat ∨ c.hi = 2 ^ w))
    (hend : addr.toNat + (lmbGetFreeSize lmb addr).toNat = last.hi)
    (hwhole : ¬(addr.toNat = 0 ∧ last.hi = 2 ^ w)) :
    Reports lmb addr ↔ ReportSafe lmb addr.toNat := by
  by_cases hres : addr.toNat ∈ covered lmb.reserved
  · -- the reserved region that holds the address ends at the top
    refine iff_of_false (fun h ↦ ?_) fun h ↦ ?_
    · exact (h addr.toNat le_rfl (by omega)).2 hres
    · rcases h ha with ⟨c, hc, -, h₂, h₃⟩ | ⟨-, hnil, -⟩ | ⟨hno, -⟩
      · have := hall c hc
        omega
      · rw [hnil] at hres
        exact absurd hres (by simp [covered])
      · exact hno hres
  · have hfree : ∀ x, addr.toNat ≤ x → x < last.hi → x ∉ covered lmb.reserved := by
      rintro x hx hxe ⟨c, hc, hclo, hchi⟩
      have := hall c hc
      exact hres ⟨c, hc, by omega, by omega⟩
    rw [reports_iff_of_end hm ha hend hfree]
    constructor
    · intro hgap _
      refine Or.inr (Or.inr ⟨hres, fun m hmm hmhi ↦ ?_⟩)
      rcases Nat.lt_or_ge m.hi last.hi with hlt | hge
      · exact Or.inl (hgap m hmm hmhi hlt)
      · exact Or.inr (Or.inr ⟨fun m' hm' ↦ (hmax m' hm').trans hge, fun c hc ↦ (hall c hc).1⟩)
    · intro hsafe m hmm hmhi hlt
      rcases hsafe ha with ⟨c, hc, hclo, hchi, -⟩ | ⟨hz, -, m', hm', htop⟩ | ⟨-, hgap⟩
      · exact absurd ⟨c, hc, hclo, hchi⟩ hres
      · have := hmax m' hm'
        exact absurd ⟨hz, by have := hm.top last hmem; omega⟩ hwhole
      · rcases hgap m hmm hmhi with hnext | ⟨c, hc, hclo, -⟩ | ⟨hmost, -⟩
        · exact hnext
        · have := hall c hc
          omega
        · have := hmost last hmem
          omega

/-- `lmb_get_free_size` reports only free bytes exactly under `ReportSafe`. -/
theorem lmbGetFreeSize_reports_iff (lmb : Tables w) (addr : BitVec w) (hm : Valid lmb.memory)
    (hv : Valid lmb.reserved) : Reports lmb addr ↔ ReportSafe lmb addr.toNat := by
  cases hov : lmbOverlapsRegion lmb.memory addr 1 with
  | none =>
      have hsize : lmbGetFreeSize lmb addr = 0 := by rw [lmbGetFreeSize, hov]
      have hout := (lmbOverlapsRegion_one hm).mp hov
      refine iff_of_true (fun x h₁ h₂ ↦ ?_) fun ha ↦ absurd ha hout
      rw [hsize] at h₂
      exact absurd h₂ (by simpa using h₁)
  | some found =>
      have ha : addr.toNat ∈ covered lmb.memory := by
        by_contra hout
        rw [(lmbOverlapsRegion_one hm).mpr hout] at hov
        exact absurd hov (by simp)
      obtain ⟨m₀, hm₀, hlo₀, hhi₀⟩ := id ha
      have hbelow : Below lmb.reserved addr (freeBelow addr lmb.reserved) := freeBelow_below hv
      cases hres : freeBelow addr lmb.reserved with
      | some size =>
          have hsize : lmbGetFreeSize lmb addr = size := by rw [lmbGetFreeSize, hov, hres]
          rw [hres] at hbelow
          cases hbelow with
          | inside hr h₁ h₂ h₃ =>
              refine iff_of_true (fun x h₁ h₂ ↦ ?_) fun _ ↦ Or.inl ⟨_, hr, h₁, h₂, h₃⟩
              rw [hsize] at h₂
              exact absurd h₂ (by simpa using h₁)
          | next hr hlo hend hother =>
              exact reports_iff_of_next hm hv ha hr hlo (hsize ▸ hend) hother
      | none =>
          rw [hres] at hbelow
          cases hbelow with
          | none hall =>
              cases hlast : lmb.memory.getLast? with
              | none =>
                  rw [List.getLast?_eq_none_iff.mp hlast] at hm₀
                  exact absurd hm₀ List.not_mem_nil
              | some last =>
                  obtain ⟨hmem, hmax⟩ := hi_le_getLast hm hlast
                  have hlt : addr.toNat < last.hi := hhi₀.trans_le (hmax m₀ hm₀)
                  have hcall : lmbGetFreeSize lmb addr = last.base + last.size - addr := by
                    rw [lmbGetFreeSize, hov, hres, hlast]
                  by_cases hwhole : addr.toNat = 0 ∧ last.hi = 2 ^ w
                  · exact reports_iff_of_whole hv hmem hall hcall hwhole.1 hwhole.2
                  · have hend := add_distance_eq_hi hlt (hm.top last hmem) hwhole
                    rw [← hcall] at hend
                    exact reports_iff_of_last hm ha hmem hmax hlt hall hend hwhole

/-- Two banks with a gap: all bytes up to the end of the upper one are reported free. -/
theorem lmbGetFreeSize_reports_gap :
    ¬∀ (lmb : Tables 32) (addr : BitVec 32), Valid lmb.memory → Valid lmb.reserved →
      Reports lmb addr := by
  intro h
  have hmem : Valid ([⟨0x40000000, 0x1000⟩, ⟨0x80000000, 0x1000⟩] : Region 32) :=
    ⟨⟨by decide, by decide⟩, by decide⟩
  obtain ⟨⟨m, hm, hlo, hhi⟩, -⟩ := h ⟨[⟨0x40000000, 0x1000⟩, ⟨0x80000000, 0x1000⟩], []⟩ 0x40000000
    hmem Valid.nil 0x40001000 (by decide) (by decide)
  rcases List.mem_cons.mp hm with rfl | hm
  · exact absurd hhi (by decide)
  · obtain rfl := List.mem_singleton.mp hm
    exact absurd hlo (by decide)

/-- One bank with a reserved page in it. -/
theorem lmbGetFreeSize_reports_bank :
    Reports (w := 32) ⟨[⟨0x40000000, 0x10000⟩], [⟨0x40004000, 0x1000⟩]⟩ 0x40001000 := by
  refine (lmbGetFreeSize_reports_iff (w := 32) ⟨[⟨0x40000000, 0x10000⟩], [⟨0x40004000, 0x1000⟩]⟩
    0x40001000 (Valid.singleton ⟨by decide, by decide⟩)
    (Valid.singleton ⟨by decide, by decide⟩)).mpr ?_
  refine fun _ ↦ Or.inr (Or.inr
    ⟨?_, fun m hm _ ↦ Or.inr (Or.inl ⟨_, List.mem_cons_self, by decide, ?_⟩)⟩)
  · rintro ⟨r, hr, hlo, -⟩
    obtain rfl := List.mem_singleton.mp hr
    exact absurd hlo (by decide)
  · obtain rfl := List.mem_singleton.mp hm
    decide

end MiniPi.Lmb
