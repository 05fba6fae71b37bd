import MiniPi.Efi.Basic

/-!
# Carving a region out of the map

A map is in order when no descriptor wraps and each one lies above the next.  One walk takes the
first entry that overlaps the region apart, or cuts it down; no page outside the region changes its
type.  The loop ends when no entry overlaps the region.
-/

namespace MiniPi.Efi

variable {d e c : MemDesc} {ds ds' : List MemDesc}

theorem add64_eq {a b : ℕ} (h : a + b < 2 ^ 64) : add64 a b = a + b := Nat.mod_eq_of_lt h

theorem pageBytes_eq {n : ℕ} (h : n * 2 ^ 12 < 2 ^ 64) : pageBytes n = n * 2 ^ 12 :=
  Nat.mod_eq_of_lt h

theorem sub64_eq {a b : ℕ} (h : b ≤ a) (ha : a < 2 ^ 64) : sub64 a b = a - b := by
  rw [sub64]
  omega

namespace MemDesc

/-- The first address behind the region. -/
def stop (d : MemDesc) : ℕ := d.physicalStart + d.numPages * 2 ^ 12

/-- The region is not empty, starts at a page and does not wrap. -/
structure Ok (d : MemDesc) : Prop where
  pos : 0 < d.numPages
  aligned : 2 ^ 12 ∣ d.physicalStart
  fits : d.stop < 2 ^ 64

/-- The page number `p` is in the region. -/
def Covers (d : MemDesc) (p : ℕ) : Prop :=
  d.physicalStart ≤ p * 2 ^ 12 ∧ p * 2 ^ 12 < d.stop

instance (d : MemDesc) (p : ℕ) : Decidable (d.Covers p) := inferInstanceAs (Decidable (_ ∧ _))

/-- The regions have an address in common. -/
def Overlaps (d c : MemDesc) : Prop := c.physicalStart < d.stop ∧ d.physicalStart < c.stop

instance (d c : MemDesc) : Decidable (d.Overlaps c) := inferInstanceAs (Decidable (_ ∧ _))

/-- The region lies in another one, and has its type. -/
structure Within (e d : MemDesc) : Prop where
  start : d.physicalStart ≤ e.physicalStart
  stop : e.stop ≤ d.stop
  type : e.type = d.type

theorem Within.refl (d : MemDesc) : d.Within d := ⟨le_rfl, le_rfl, rfl⟩

theorem Ok.lt_stop (h : d.Ok) : d.physicalStart < d.stop := by
  have := h.pos
  rw [stop]
  omega

theorem Ok.descGetEnd_eq (h : d.Ok) : descGetEnd d = d.stop := by
  have hfits : d.physicalStart + d.numPages * 2 ^ 12 < 2 ^ 64 := h.fits
  rw [descGetEnd, pageBytes_eq (by omega), add64_eq hfits, stop]

end MemDesc

/-- The regions lie one above the other, the highest one first. -/
structure InOrder (ds : List MemDesc) : Prop where
  ok : ∀ d ∈ ds, d.Ok
  above : ds.Pairwise fun d e ↦ e.stop ≤ d.physicalStart

/-- The page number `p` has type `t` in the map. -/
def Carries (ds : List MemDesc) (p t : ℕ) : Prop := ∃ d ∈ ds, d.Covers p ∧ d.type = t

theorem carries_cons {p t : ℕ} :
    Carries (d :: ds) p t ↔ (d.Covers p ∧ d.type = t) ∨ Carries ds p t := by
  constructor
  · rintro ⟨e, he, hp, ht⟩
    obtain rfl | he := List.mem_cons.1 he
    · exact .inl ⟨hp, ht⟩
    · exact .inr ⟨e, he, hp, ht⟩
  · rintro (⟨hp, ht⟩ | ⟨e, he, hp, ht⟩)
    · exact ⟨d, List.mem_cons_self, hp, ht⟩
    · exact ⟨e, List.mem_cons_of_mem _ he, hp, ht⟩

theorem carries_append {p t : ℕ} :
    Carries (ds ++ ds') p t ↔ Carries ds p t ∨ Carries ds' p t := by
  induction ds with
  | nil => exact ⟨.inr, fun h ↦ h.resolve_left fun ⟨_, hm, _⟩ ↦ List.not_mem_nil hm⟩
  | cons d ds ih => rw [List.cons_append, carries_cons, ih, carries_cons, or_assoc]

theorem inOrder_cons :
    InOrder (d :: ds) ↔ d.Ok ∧ (∀ e ∈ ds, e.stop ≤ d.physicalStart) ∧ InOrder ds := by
  constructor
  · rintro ⟨hok, habove⟩
    rw [List.pairwise_cons] at habove
    exact ⟨hok d List.mem_cons_self, habove.1,
      fun e he ↦ hok e (List.mem_cons_of_mem _ he), habove.2⟩
  · rintro ⟨hd, hlow, hok, habove⟩
    exact ⟨List.forall_mem_cons.2 ⟨hd, hok⟩, List.pairwise_cons.2 ⟨hlow, habove⟩⟩

theorem inOrder_append : InOrder (ds ++ ds') ↔
    InOrder ds ∧ InOrder ds' ∧ ∀ d ∈ ds, ∀ e ∈ ds', e.stop ≤ d.physicalStart := by
  constructor
  · rintro ⟨hok, habove⟩
    rw [List.pairwise_append] at habove
    exact ⟨⟨fun d hd ↦ hok d (List.mem_append_left _ hd), habove.1⟩,
      ⟨fun d hd ↦ hok d (List.mem_append_right _ hd), habove.2.1⟩, habove.2.2⟩
  · rintro ⟨⟨hok, habove⟩, ⟨hok', habove'⟩, hlow⟩
    refine ⟨fun d hd ↦ ?_, List.pairwise_append.2 ⟨habove, habove', hlow⟩⟩
    obtain hd | hd := List.mem_append.1 hd
    · exact hok d hd
    · exact hok' d hd

/-! ## One entry -/

/-- How often an entry is met before nothing of it is in the region. -/
def weight (c d : MemDesc) : ℕ :=
  if d.Overlaps c then (if c.physicalStart ≤ d.physicalStart then 1 else 2) else 0

theorem weight_le (c d : MemDesc) : weight c d ≤ 2 := by
  unfold weight
  split_ifs <;> omega

/-- What takes the place of an entry when its part in the region is removed or split off. -/
structure Cut (c d : MemDesc) (left : List MemDesc) : Prop where
  inOrder : InOrder left
  within : ∀ e ∈ left, e.Within d
  lighter : (left.map (weight c)).sum < weight c d
  outside : ∀ p t, ¬ c.Covers p → (Carries left p t ↔ d.Covers p ∧ d.type = t)

namespace MemDesc

/-- The part of a region from `a` to `b`. -/
def part (d : MemDesc) (a v b : ℕ) : MemDesc :=
  { d with physicalStart := a, virtualStart := v, numPages := sub64 b a / 2 ^ 12 }

variable {a b v : ℕ}

theorem stop_part (ha : 2 ^ 12 ∣ a) (hb : 2 ^ 12 ∣ b) (hle : a ≤ b) (hfit : b < 2 ^ 64) :
    (d.part a v b).stop = b := by
  rw [stop, part, sub64_eq hle hfit]
  simp only
  omega

theorem part_ok (ha : 2 ^ 12 ∣ a) (hb : 2 ^ 12 ∣ b) (hlt : a < b) (hfit : b < 2 ^ 64) :
    (d.part a v b).Ok where
  pos := by
    rw [part, sub64_eq hlt.le hfit]
    simp only
    omega
  aligned := ha
  fits := by
    rw [stop_part ha hb hlt.le hfit]
    exact hfit

theorem Ok.aligned_stop (h : d.Ok) : 2 ^ 12 ∣ d.stop := by
  have := h.aligned
  rw [stop]
  omega

end MemDesc

theorem cut_nil (hover : d.Overlaps c) (hin : c.physicalStart ≤ d.physicalStart)
    (hstop : d.stop ≤ c.stop) : Cut c d [] where
  inOrder := ⟨fun e he ↦ absurd he List.not_mem_nil, .nil⟩
  within e he := absurd he List.not_mem_nil
  lighter := by
    rw [weight, if_pos hover, if_pos hin]
    exact Nat.zero_lt_one
  outside p t hp := by
    constructor
    · rintro ⟨e, he, -⟩
      exact absurd he List.not_mem_nil
    · rintro ⟨⟨hlow, hhigh⟩, -⟩
      exact absurd ⟨hin.trans hlow, hhigh.trans_le hstop⟩ hp

theorem cut_begin (hd : d.Ok) (hc : c.Ok) (hover : d.Overlaps c)
    (hin : c.physicalStart ≤ d.physicalStart) (hstop : c.stop < d.stop) (v : ℕ) :
    Cut c d [d.part c.stop v d.stop] := by
  have hend : (d.part c.stop v d.stop).stop = d.stop :=
    MemDesc.stop_part hc.aligned_stop hd.aligned_stop hstop.le hd.fits
  have hok : (d.part c.stop v d.stop).Ok :=
    MemDesc.part_ok hc.aligned_stop hd.aligned_stop hstop hd.fits
  have hfree : ¬ (d.part c.stop v d.stop).Overlaps c := fun h ↦ lt_irrefl _ h.2
  obtain ⟨-, hover⟩ := id hover
  refine ⟨⟨?_, List.pairwise_singleton _ _⟩, ?_, ?_, ?_⟩
  · intro e he
    rw [List.mem_singleton.1 he]
    exact hok
  · intro e he
    rw [List.mem_singleton.1 he]
    exact ⟨hover.le, hend.le, rfl⟩
  · rw [List.map_singleton, List.sum_singleton, weight, if_neg hfree, weight, if_pos ‹_›,
      if_pos hin]
    exact Nat.zero_lt_one
  · intro p t hp
    rw [carries_cons]
    constructor
    · rintro (⟨⟨hlow, hhigh⟩, ht⟩ | ⟨e, he, -⟩)
      · rw [hend] at hhigh
        exact ⟨⟨hover.le.trans hlow, hhigh⟩, ht⟩
      · exact absurd he List.not_mem_nil
    · rintro ⟨⟨hlow, hhigh⟩, ht⟩
      refine .inl ⟨⟨?_, ?_⟩, ht⟩
      · exact Nat.not_lt.1 fun hlt ↦ hp ⟨hin.trans hlow, hlt⟩
      · rw [hend]
        exact hhigh

theorem cut_split (hd : d.Ok) (hc : c.Ok) (hover : d.Overlaps c)
    (hin : d.physicalStart < c.physicalStart) (v w : ℕ) :
    Cut c d [d.part c.physicalStart v d.stop, d.part d.physicalStart w c.physicalStart] := by
  have hlt : c.physicalStart < d.stop := hover.1
  have hfit : c.physicalStart < 2 ^ 64 := hlt.trans hd.fits
  have hend : (d.part c.physicalStart v d.stop).stop = d.stop :=
    MemDesc.stop_part hc.aligned hd.aligned_stop hlt.le hd.fits
  have hend' : (d.part d.physicalStart w c.physicalStart).stop = c.physicalStart :=
    MemDesc.stop_part hd.aligned hc.aligned hin.le hfit
  have hok : (d.part c.physicalStart v d.stop).Ok :=
    MemDesc.part_ok hc.aligned hd.aligned_stop hlt hd.fits
  have hok' : (d.part d.physicalStart w c.physicalStart).Ok :=
    MemDesc.part_ok hd.aligned hc.aligned hin hfit
  have hmeets : (d.part c.physicalStart v d.stop).Overlaps c := by
    refine ⟨?_, hc.lt_stop⟩
    rw [hend]
    exact hlt
  have hfree : ¬ (d.part d.physicalStart w c.physicalStart).Overlaps c := by
    rintro ⟨h, -⟩
    rw [hend'] at h
    exact lt_irrefl _ h
  refine ⟨?_, ?_, ?_, ?_⟩
  · rw [inOrder_cons, inOrder_cons]
    refine ⟨hok, ?_, hok', ?_, ?_⟩
    · intro e he
      rw [List.mem_singleton.1 he]
      exact hend'.le
    · exact fun e he ↦ absurd he List.not_mem_nil
    · exact ⟨fun e he ↦ absurd he List.not_mem_nil, .nil⟩
  · intro e he
    obtain rfl | he := List.mem_cons.1 he
    · exact ⟨hin.le, hend.le, rfl⟩
    · rw [List.mem_singleton.1 he]
      exact ⟨le_rfl, hend'.trans_le hlt.le, rfl⟩
  · have hone : weight c (d.part c.physicalStart v d.stop) = 1 := by
      rw [weight, if_pos hmeets]
      exact if_pos le_rfl
    have hzero : weight c (d.part d.physicalStart w c.physicalStart) = 0 := if_neg hfree
    have htwo : weight c d = 2 := by
      rw [weight, if_pos hover, if_neg (Nat.not_le.2 hin)]
    simp only [List.map_cons, List.map_nil, List.sum_cons, List.sum_nil, hone, hzero, htwo]
    exact Nat.one_lt_two
  · intro p t hp
    rw [carries_cons, carries_cons]
    constructor
    · rintro (⟨⟨hlow, hhigh⟩, ht⟩ | ⟨⟨hlow, hhigh⟩, ht⟩ | ⟨e, he, -⟩)
      · rw [hend] at hhigh
        exact ⟨⟨hin.le.trans hlow, hhigh⟩, ht⟩
      · rw [hend'] at hhigh
        exact ⟨⟨hlow, hhigh.trans hlt⟩, ht⟩
      · exact absurd he List.not_mem_nil
    · rintro ⟨⟨hlow, hhigh⟩, ht⟩
      by_cases hcase : p * 2 ^ 12 < c.physicalStart
      · refine .inr (.inl ⟨⟨hlow, ?_⟩, ht⟩)
        rw [hend']
        exact hcase
      · refine .inl ⟨⟨Nat.not_lt.1 hcase, ?_⟩, ht⟩
        rw [hend]
        exact hhigh

/-- `efi_mem_carve_out` leaves an entry alone or cuts it. -/
theorem efiMemCarveOut_cases (hd : d.Ok) (hc : c.Ok) :
    (efiMemCarveOut d c false = .noOverlap ∧ ¬ d.Overlaps c) ∨
    (∃ newmap map, efiMemCarveOut d c false = .loopAgain newmap map ∧ Cut c d [newmap, map]) ∨
    ∃ n left, efiMemCarveOut d c false = .pages n left ∧ Cut c d left.toList := by
  unfold efiMemCarveOut
  simp only [hd.descGetEnd_eq, hc.descGetEnd_eq, Bool.false_eq_true, false_and, if_false]
  by_cases hover : d.Overlaps c
  · obtain ⟨hlt, hlt'⟩ := id hover
    have hnot : ¬ (c.stop ≤ d.physicalStart ∨ d.stop ≤ c.physicalStart) := by omega
    rw [if_neg hnot]
    right
    by_cases hin : c.physicalStart ≤ d.physicalStart
    · right
      rw [if_pos (Nat.max_eq_right hin)]
      by_cases hstop : d.stop ≤ c.stop
      · rw [Nat.min_eq_right hstop, if_pos rfl]
        exact ⟨_, none, rfl, cut_nil hover hin hstop⟩
      · rw [Nat.min_eq_left (Nat.le_of_not_le hstop), if_neg (by omega)]
        exact ⟨_, some _, rfl, cut_begin hd hc hover hin (Nat.not_le.1 hstop) c.stop⟩
    · have hlow : d.physicalStart < c.physicalStart := Nat.not_le.1 hin
      left
      rw [Nat.max_eq_left hlow.le, if_neg hlow.ne']
      exact ⟨_, _, rfl, cut_split hd hc hover hlow c.physicalStart d.virtualStart⟩
  · left
    have hnot : c.stop ≤ d.physicalStart ∨ d.stop ≤ c.physicalStart := by
      rw [MemDesc.Overlaps] at hover
      omega
    rw [if_pos hnot]
    exact ⟨rfl, hover⟩

/-! ## One walk -/

/-- What one walk makes of the map when it changes it. -/
structure Shrunk (c : MemDesc) (ds ds' : List MemDesc) : Prop where
  inOrder : InOrder ds'
  within : ∀ e ∈ ds', ∃ d ∈ ds, e.Within d
  lighter : (ds'.map (weight c)).sum < (ds.map (weight c)).sum
  outside : ∀ p t, ¬ c.Covers p → (Carries ds' p t ↔ Carries ds p t)

theorem Shrunk.cons (h : Shrunk c ds ds') (hds : InOrder (d :: ds)) :
    Shrunk c (d :: ds) (d :: ds') := by
  obtain ⟨hd, hlow, -⟩ := inOrder_cons.1 hds
  refine ⟨inOrder_cons.2 ⟨hd, fun e he ↦ ?_, h.inOrder⟩, fun e he ↦ ?_, ?_, fun p t hp ↦ ?_⟩
  · obtain ⟨f, hf, hef⟩ := h.within e he
    exact hef.stop.trans (hlow f hf)
  · obtain rfl | he := List.mem_cons.1 he
    · exact ⟨e, List.mem_cons_self, .refl e⟩
    · obtain ⟨f, hf, hef⟩ := h.within e he
      exact ⟨f, List.mem_cons_of_mem _ hf, hef⟩
  · rw [List.map_cons, List.sum_cons, List.map_cons, List.sum_cons]
    exact Nat.add_lt_add_left h.lighter _
  · rw [carries_cons, carries_cons, h.outside p t hp]

theorem Cut.shrunk {left : List MemDesc} (h : Cut c d left) (hds : InOrder (d :: ds)) :
    Shrunk c (d :: ds) (left ++ ds) := by
  obtain ⟨hd, hlow, hrest⟩ := inOrder_cons.1 hds
  refine ⟨inOrder_append.2 ⟨h.inOrder, hrest, fun e he f hf ↦ ?_⟩, fun e he ↦ ?_, ?_,
    fun p t hp ↦ ?_⟩
  · exact (hlow f hf).trans (h.within e he).start
  · obtain he | he := List.mem_append.1 he
    · exact ⟨d, List.mem_cons_self, h.within e he⟩
    · exact ⟨e, List.mem_cons_of_mem _ he, .refl e⟩
  · rw [List.map_append, List.sum_append, List.map_cons, List.sum_cons]
    exact Nat.add_lt_add_right h.lighter _
  · rw [carries_append, carries_cons, h.outside p t hp]

/-- A walk finds that nothing overlaps the region, or takes an entry apart. -/
theorem carveWalk_cases (hds : InOrder ds) (hc : c.Ok) :
    (carveWalk c false ds = .done ∧ ∀ d ∈ ds, ¬ d.Overlaps c) ∨
    ∃ n ds', carveWalk c false ds = .again n ds' ∧ Shrunk c ds ds' := by
  induction ds with
  | nil => exact .inl ⟨rfl, fun d hd ↦ absurd hd List.not_mem_nil⟩
  | cons d ds ih =>
    obtain ⟨hd, -, hrest⟩ := inOrder_cons.1 hds
    rw [carveWalk]
    obtain ⟨hout, hfree⟩ | ⟨newmap, map, hout, hcut⟩ | ⟨n, left, hout, hcut⟩ :=
      efiMemCarveOut_cases hd hc
    · rw [hout]
      obtain ⟨hwalk, hall⟩ | ⟨n, ds', hwalk, hshrunk⟩ := ih hrest
      · left
        simp only [hwalk]
        exact ⟨rfl, List.forall_mem_cons.2 ⟨hfree, hall⟩⟩
      · right
        simp only [hwalk]
        exact ⟨n, d :: ds', rfl, hshrunk.cons hds⟩
    · rw [hout]
      exact .inr ⟨_, _, rfl, hcut.shrunk hds⟩
    · rw [hout]
      exact .inr ⟨_, _, rfl, hcut.shrunk hds⟩

/-! ## The loop -/

/-- The map when the loop ends: nothing overlaps the region, and no other page has changed. -/
structure Cleared (c : MemDesc) (ds ds' : List MemDesc) : Prop where
  inOrder : InOrder ds'
  free : ∀ d ∈ ds', ¬ d.Overlaps c
  outside : ∀ p t, ¬ c.Covers p → (Carries ds' p t ↔ Carries ds p t)

/-- The carving loop ends, with an empty region. -/
theorem carveLoop_spec (hc : c.Ok) {n k : ℕ} (hds : InOrder ds)
    (hn : (ds.map (weight c)).sum < n) :
    ∃ pages ds', carveLoop c false n k ds = some (.carved pages ds') ∧ Cleared c ds ds' := by
  induction n generalizing k ds with
  | zero => exact absurd hn (Nat.not_lt_zero _)
  | succ n ih =>
    rw [carveLoop]
    obtain ⟨hwalk, hfree⟩ | ⟨r, ds₁, hwalk, hshrunk⟩ := carveWalk_cases hds hc
    · rw [hwalk]
      exact ⟨k, ds, rfl, hds, hfree, fun p t _ ↦ Iff.rfl⟩
    · obtain ⟨pages, ds', hloop, hcleared⟩ := ih (k := add64 k r) hshrunk.inOrder
        (hshrunk.lighter.trans_le (Nat.le_of_lt_succ hn))
      rw [hwalk]
      refine ⟨pages, ds', hloop, hcleared.inOrder, hcleared.free, fun p t hp ↦ ?_⟩
      rw [hcleared.outside p t hp, hshrunk.outside p t hp]

theorem sum_weight_le (c : MemDesc) (ds : List MemDesc) :
    (ds.map (weight c)).sum ≤ 2 * ds.length := by
  have := List.sum_le_card_nsmul (ds.map (weight c)) 2 fun w hw ↦ by
    obtain ⟨d, -, rfl⟩ := List.mem_map.1 hw
    exact weight_le c d
  rw [List.length_map, smul_eq_mul] at this
  omega

end MiniPi.Efi
