import MiniPi.Efi.Carve

/-!
# Sorting and merging the map

In a map that is in order, an entry can only be merged into the one right before it, so the pointer
that is kept from walk to walk never does harm.  The loop ends with a map in which no two entries
can be merged; every page keeps its type.
-/

namespace MiniPi.Efi

variable {d e prev cur : MemDesc} {ds : List MemDesc}

/-! ## Sorting -/

theorem efiMemCmp_le : efiMemCmp d e ≤ 0 ↔ e.physicalStart ≤ d.physicalStart := by
  unfold efiMemCmp
  split_ifs <;> omega

instance : Std.Total fun d e : MemDesc ↦ efiMemCmp d e ≤ 0 where
  total d e := by
    rw [efiMemCmp_le, efiMemCmp_le]
    exact le_total _ _

instance : IsTrans MemDesc fun d e ↦ efiMemCmp d e ≤ 0 where
  trans d e f := by
    rw [efiMemCmp_le, efiMemCmp_le, efiMemCmp_le]
    exact fun hde hef ↦ hef.trans hde

/-- Two regions have no address in common. -/
def Apart (d e : MemDesc) : Prop := e.stop ≤ d.physicalStart ∨ d.stop ≤ e.physicalStart

theorem listSort_inOrder (hok : ∀ d ∈ ds, d.Ok) (hapart : ds.Pairwise Apart) :
    InOrder (listSort ds) := by
  have hperm : (listSort ds).Perm ds := List.perm_insertionSort _ ds
  have hok' (d : MemDesc) (hd : d ∈ listSort ds) : d.Ok := hok d (hperm.mem_iff.1 hd)
  have hapart' : (listSort ds).Pairwise Apart :=
    (hperm.pairwise_iff fun h ↦ h.symm).2 hapart
  have hsorted : (listSort ds).Pairwise fun d e ↦ efiMemCmp d e ≤ 0 :=
    List.pairwise_insertionSort _ ds
  refine ⟨hok', (hsorted.and hapart').imp_of_mem fun {d e} hd he h ↦ ?_⟩
  obtain ⟨hle, habove | hbelow⟩ := h
  · exact habove
  · exact absurd (hbelow.trans (efiMemCmp_le.1 hle)) (Nat.not_le.2 (hok' d hd).lt_stop)

theorem carries_listSort {p t : ℕ} : Carries (listSort ds) p t ↔ Carries ds p t := by
  have hperm : (listSort ds).Perm ds := List.perm_insertionSort _ ds
  constructor
  · rintro ⟨d, hd, h⟩
    exact ⟨d, hperm.mem_iff.1 hd, h⟩
  · rintro ⟨d, hd, h⟩
    exact ⟨d, hperm.mem_iff.2 hd, h⟩

/-! ## Merging two entries -/

/-- An entry that can be merged ends where the other one starts. -/
theorem mergeable_iff (hcur : cur.Ok) :
    Mergeable prev cur ↔
      cur.stop = prev.physicalStart ∧ prev.type = cur.type ∧ prev.attr = cur.attr := by
  rw [Mergeable, hcur.descGetEnd_eq]

theorem type_merge (prev cur : MemDesc) : (merge prev cur).type = prev.type := by
  unfold merge
  rfl

theorem numPages_merge (h : prev.numPages + cur.numPages < 2 ^ 64) :
    (merge prev cur).numPages = prev.numPages + cur.numPages := by
  unfold merge
  exact add64_eq h

theorem physicalStart_merge (h : cur.numPages * 2 ^ 12 ≤ prev.physicalStart)
    (hfit : prev.physicalStart < 2 ^ 64) :
    (merge prev cur).physicalStart = prev.physicalStart - cur.numPages * 2 ^ 12 := by
  have hbytes : pageBytes cur.numPages = cur.numPages * 2 ^ 12 := pageBytes_eq (by omega)
  have hsub := sub64_eq h hfit
  rw [← hbytes] at hsub ⊢
  exact hsub

/-- The entry that two entries are merged into. -/
theorem merge_spec (hprev : prev.Ok) (hcur : cur.Ok) (h : Mergeable prev cur) :
    (merge prev cur).Ok ∧ (merge prev cur).physicalStart = cur.physicalStart ∧
      (merge prev cur).stop = prev.stop ∧ (merge prev cur).type = prev.type := by
  have hfits : prev.physicalStart + prev.numPages * 2 ^ 12 < 2 ^ 64 := hprev.fits
  have hmeet' : cur.physicalStart + cur.numPages * 2 ^ 12 = prev.physicalStart :=
    ((mergeable_iff hcur).1 h).1
  have hpos := hcur.pos
  have hpages : (merge prev cur).numPages = prev.numPages + cur.numPages :=
    numPages_merge (by omega)
  have hstart : (merge prev cur).physicalStart = cur.physicalStart := by
    rw [physicalStart_merge (by omega) (by omega), ← hmeet', Nat.add_sub_cancel]
  have hstop : (merge prev cur).stop = prev.stop := by
    unfold MemDesc.stop
    rw [hstart, hpages, ← hmeet']
    ring
  refine ⟨⟨?_, ?_, ?_⟩, hstart, hstop, type_merge prev cur⟩
  · rw [hpages]
    exact Nat.add_pos_right _ hpos
  · rw [hstart]
    exact hcur.aligned
  · rw [hstop]
    exact hprev.fits

theorem inOrder_merge {pre post : List MemDesc} (h : InOrder (pre ++ prev :: cur :: post))
    (hm : Mergeable prev cur) : InOrder (pre ++ merge prev cur :: post) := by
  obtain ⟨hpre, hrest, hlow⟩ := inOrder_append.1 h
  obtain ⟨hprev, hprevlow, hrest⟩ := inOrder_cons.1 hrest
  obtain ⟨hcur, hcurlow, hpost⟩ := inOrder_cons.1 hrest
  obtain ⟨hok, hstart, hstop, -⟩ := merge_spec hprev hcur hm
  refine inOrder_append.2 ⟨hpre, inOrder_cons.2 ⟨hok, ?_, hpost⟩, ?_⟩
  · intro e he
    rw [hstart]
    exact hcurlow e he
  · intro d hd e he
    obtain rfl | he := List.mem_cons.1 he
    · rw [hstop]
      exact hlow d hd prev List.mem_cons_self
    · exact hlow d hd e (List.mem_cons_of_mem _ (List.mem_cons_of_mem _ he))

/-- Merging does not change the type of a page. -/
theorem carries_merge {pre post : List MemDesc} {p t : ℕ} (hprev : prev.Ok) (hcur : cur.Ok)
    (hm : Mergeable prev cur) :
    Carries (pre ++ merge prev cur :: post) p t ↔ Carries (pre ++ prev :: cur :: post) p t := by
  obtain ⟨-, hstart, hstop, htype⟩ := merge_spec hprev hcur hm
  obtain ⟨hmeet, hsame, -⟩ := (mergeable_iff hcur).1 hm
  have hcovers : (merge prev cur).Covers p ↔ prev.Covers p ∨ cur.Covers p := by
    unfold MemDesc.Covers
    rw [hstart, hstop, hmeet]
    have := hcur.lt_stop
    have := hprev.lt_stop
    constructor
    · rintro ⟨hlow, hhigh⟩
      obtain hlt | hge := Nat.lt_or_ge (p * 2 ^ 12) prev.physicalStart
      · exact .inr ⟨hlow, hlt⟩
      · exact .inl ⟨hge, hhigh⟩
    · rintro (⟨hlow, hhigh⟩ | ⟨hlow, hhigh⟩)
      · exact ⟨by omega, hhigh⟩
      · exact ⟨hlow, by omega⟩
  rw [carries_append, carries_cons, carries_append, carries_cons, carries_cons, hcovers, htype,
    ← hsame, or_and_right, or_assoc]

/-! ## One walk -/

/-- An entry can only be merged into the one right before it. -/
theorem InOrder.next_of_mergeable (h : InOrder ds) {i p : ℕ} (hp : ds[p]? = some prev)
    (hi : ds[i]? = some cur) (hm : Mergeable prev cur) : i = p + 1 := by
  have hget {j : ℕ} {d : MemDesc} (hd : ds[j]? = some d) : d.Ok := h.ok d (List.mem_of_getElem? hd)
  have hprev := (hget hp).lt_stop
  have hcur := (hget hi).lt_stop
  have hmeet := ((mergeable_iff (hget hi)).1 hm).1
  have habove {j k : ℕ} {d e : MemDesc} (hd : ds[j]? = some d) (he : ds[k]? = some e)
    (hjk : j < k) :
      e.stop ≤ d.physicalStart := by
    obtain ⟨hj, rfl⟩ := List.getElem?_eq_some_iff.1 hd
    obtain ⟨hk, rfl⟩ := List.getElem?_eq_some_iff.1 he
    exact List.pairwise_iff_getElem.1 h.above j k hj hk hjk
  obtain hlt | rfl | hgt := Nat.lt_trichotomy i p
  · have := habove hi hp hlt
    omega
  · rw [hp, Option.some.injEq] at hi
    subst hi
    omega
  · by_contra hne
    -- an entry between the two would be empty
    obtain ⟨hilen, -⟩ := List.getElem?_eq_some_iff.1 hi
    have hlt : p + 1 < ds.length := by omega
    have hmid : ds[p + 1]? = some ds[p + 1] := List.getElem?_eq_getElem hlt
    have hok := (hget hmid).lt_stop
    have := habove hp hmid (Nat.lt_succ_self p)
    have := habove hmid hi (by omega)
    omega

/-- No entry can be merged into the one before it, from number `i` on. -/
def UnmergedFrom (ds : List MemDesc) (i : ℕ) : Prop :=
  ∀ j prev cur, i ≤ j → ds[j]? = some prev → ds[j + 1]? = some cur → ¬ Mergeable prev cur

theorem unmergedFrom_end {i : ℕ} (h : ds.length ≤ i + 1) : UnmergedFrom ds i := by
  intro j prev cur hj _ hcur
  rw [List.getElem?_eq_none (by omega)] at hcur
  cases hcur

theorem UnmergedFrom.step_back {i : ℕ} (h : UnmergedFrom ds (i + 1)) (hp : ds[i]? = some prev)
    (hc : ds[i + 1]? = some cur) (hm : ¬ Mergeable prev cur) : UnmergedFrom ds i := by
  intro j prev' cur' hj hp' hc'
  obtain rfl | hlt := Nat.eq_or_lt_of_le hj
  · rw [hp, Option.some.injEq] at hp'
    rw [hc, Option.some.injEq] at hc'
    subst hp' hc'
    exact hm
  · exact h j prev' cur' hlt hp' hc'

/-- How a walk ends that is at number `i` and remembers `prevmem`. -/
theorem mergeWalk_cases (h : InOrder ds) {n i : ℕ} {prevmem : Option ℕ} (hi : i + n = ds.length)
    (hprev : ∀ p ∈ prevmem, p < ds.length) :
    (mergeWalk ds n i prevmem = .done ∧ UnmergedFrom ds i ∧
      ∀ p ∈ prevmem, p + 1 = i → UnmergedFrom ds p) ∨
    ∃ pre prev cur post, ds = pre ++ prev :: cur :: post ∧ Mergeable prev cur ∧
      mergeWalk ds n i prevmem = .again (pre ++ merge prev cur :: post) pre.length := by
  induction n generalizing i prevmem with
  | zero =>
    refine .inl ⟨rfl, unmergedFrom_end (by omega), fun p _ hp ↦ unmergedFrom_end (by omega)⟩
  | succ n ih =>
    have hnext := @ih (i + 1) (some i) (by omega) fun p hp ↦ by cases hp; omega
    cases prevmem with
    | none =>
      rw [mergeWalk]
      obtain ⟨hwalk, -, hfrom⟩ | hagain := hnext
      · exact .inl ⟨hwalk, hfrom i rfl rfl, fun p hp ↦ nomatch hp⟩
      · exact .inr hagain
    | some p =>
      have hplt : p < ds.length := hprev p rfl
      have hilt : i < ds.length := by omega
      have hp : ds[p]? = some ds[p] := List.getElem?_eq_getElem hplt
      have hc : ds[i]? = some ds[i] := List.getElem?_eq_getElem hilt
      by_cases hm : Mergeable ds[p] ds[i]
      · right
        obtain rfl := h.next_of_mergeable hp hc hm
        have hsplit : ds = ds.take p ++ ds[p] :: ds[p + 1] :: ds.drop (p + 2) := by
          rw [List.getElem_cons_drop, List.getElem_cons_drop, List.take_append_drop]
        have hlen : (ds.take p).length = p := List.length_take_of_le hplt.le
        refine ⟨ds.take p, ds[p], ds[p + 1], ds.drop (p + 2), hsplit, hm, ?_⟩
        rw [mergeWalk, hp, hc]
        simp only [if_pos hm, if_neg (Nat.succ_ne_self p), if_neg (Nat.not_succ_lt_self), hlen]
        congr 1
        rw [List.set_eq_take_append_cons_drop, if_pos hplt,
          List.eraseIdx_append_of_length_le (by rw [hlen]; exact Nat.le_succ p), hlen,
          Nat.add_sub_cancel_left, List.eraseIdx_cons_succ, List.eraseIdx_zero, List.tail_drop]
      · rw [mergeWalk, hp, hc]
        simp only [if_neg hm]
        obtain ⟨hwalk, -, hfrom⟩ | hagain := hnext
        · refine .inl ⟨hwalk, hfrom i rfl rfl, fun q hq hqi ↦ ?_⟩
          cases hq
          subst hqi
          exact (hfrom (p + 1) rfl rfl).step_back hp hc hm
        · exact .inr hagain

/-! ## The loop -/

/-- The map after sorting and merging. -/
structure Merged (ds ds' : List MemDesc) : Prop where
  inOrder : InOrder ds'
  unmerged : UnmergedFrom ds' 0
  carries : ∀ p t, Carries ds' p t ↔ Carries ds p t

/-- The merging loop ends. -/
theorem mergeLoop_spec {n : ℕ} {prevmem : Option ℕ} (h : InOrder ds) (hn : ds.length < n)
    (hprev : ∀ p ∈ prevmem, p < ds.length) :
    ∃ ds', mergeLoop n prevmem ds = some ds' ∧ Merged ds ds' := by
  induction n generalizing ds prevmem with
  | zero => exact absurd hn (Nat.not_lt_zero _)
  | succ n ih =>
    rw [mergeLoop]
    obtain ⟨hwalk, hfrom, -⟩ | ⟨pre, prev, cur, post, rfl, hm, hwalk⟩ :=
      mergeWalk_cases h (Nat.zero_add _) hprev
    · rw [hwalk]
      exact ⟨ds, rfl, h, hfrom, fun p t ↦ Iff.rfl⟩
    · have hok (d : MemDesc) (hd : d ∈ prev :: cur :: post) : d.Ok :=
        h.ok d (List.mem_append_right _ hd)
      rw [hwalk]
      simp only [List.length_append, List.length_cons] at hn
      obtain ⟨ds', hloop, hmerged⟩ := @ih (pre ++ merge prev cur :: post) (some pre.length)
        (inOrder_merge h hm) (by simp only [List.length_append, List.length_cons]; omega)
        (by
          intro p hp
          cases hp
          simp only [List.length_append, List.length_cons]
          omega)
      refine ⟨ds', hloop, hmerged.inOrder, hmerged.unmerged, fun p t ↦ ?_⟩
      rw [hmerged.carries, carries_merge (hok prev List.mem_cons_self)
        (hok cur (List.mem_cons_of_mem _ List.mem_cons_self)) hm]

/-- `efi_mem_sort` puts a map in order and merges what can be merged. -/
theorem efiMemSort_spec (hok : ∀ d ∈ ds, d.Ok) (hapart : ds.Pairwise Apart) :
    ∃ ds', efiMemSort ds = some ds' ∧ Merged ds ds' := by
  have hlen : (listSort ds).length < ds.length + 1 := by
    rw [listSort, List.length_insertionSort]
    exact Nat.lt_succ_self _
  obtain ⟨ds', hloop, hmerged⟩ := @mergeLoop_spec _ _ none (listSort_inOrder hok hapart) hlen
    fun p hp ↦ by cases hp
  exact ⟨ds', hloop, hmerged.inOrder, hmerged.unmerged, fun p t ↦ by
    rw [hmerged.carries, carries_listSort]⟩

end MiniPi.Efi
