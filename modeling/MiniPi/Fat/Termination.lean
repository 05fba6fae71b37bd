import Mathlib
import MiniPi.Fat.Halting

/-!
# Which volumes can be walked

Iterating over the root directory and looking paths up ends exactly when every directory
that is searched has an end or holds what is searched for.  Clearing a chain always ends,
since every turn of its loop clears an entry.
-/

namespace MiniPi.Fat

/-! ## Clearing a chain -/

/-- The entries of a table that are not free. -/
def usedEntries (fat : ℕ → ℕ) : Finset ℕ := {c ∈ Finset.range (2 ^ 28) | fat c ≠ 0}

theorem lt_of_not_checkClust {fatSize : FatSize} {c : ℕ} (h : ¬fatSize.checkClust c = true) :
    c < 2 ^ 28 := by
  cases fatSize <;> simp [FatSize.checkClust] at h <;> omega

theorem usedEntries_update {fat : ℕ → ℕ} {entry : ℕ} :
    usedEntries (Function.update fat entry 0) = (usedEntries fat).erase entry := by
  ext c
  by_cases hc : c = entry
  · subst hc
    simp [usedEntries]
  · simp [usedEntries, hc]

/-- Every turn frees an entry, so that there are at most as many as entries in use. -/
theorem clearFatent_finishes (fatSize : FatSize) (fat : ℕ → ℕ) (entry : ℕ) :
    (clearFatent fatSize ((usedEntries fat).card + 1) fat entry).isSome := by
  generalize hn : (usedEntries fat).card = n
  induction n generalizing fat entry with
  | zero =>
      rw [clearFatent]
      split_ifs with hcheck hzero
      · rfl
      · rfl
      · have hmem : entry ∈ usedEntries fat := by
          simpa [usedEntries, hzero] using lt_of_not_checkClust hcheck
        rw [Finset.card_eq_zero.mp hn] at hmem
        exact absurd hmem (Finset.notMem_empty _)
  | succ n ih =>
      rw [clearFatent]
      split_ifs with hcheck hzero
      · rfl
      · rfl
      · have hmem : entry ∈ usedEntries fat := by
          simpa [usedEntries, hzero] using lt_of_not_checkClust hcheck
        refine ih _ _ ?_
        rw [usedEntries_update, Finset.card_erase_of_mem hmem, hn]
        rfl

namespace Image

variable (im : Image)

/-! ## The first match -/

/-- The entry is the first one of the directory that matches the path. -/
inductive FirstMatch (path : Str) : DirItr → Dent → Names → Prop
  | here {itr itr' : DirItr} {d : Dent} {names : Names} (h : im.turn itr = (.found d names, itr'))
      (hm : names.matchesPath path (component path).length = true) : FirstMatch path itr d names
  | pass {itr itr' : DirItr} {d : Dent} {names : Names} (h : im.turn itr = (.again, itr'))
      (hrest : FirstMatch path itr' d names) : FirstMatch path itr d names
  | miss {itr itr' : DirItr} {d e : Dent} {names names' : Names}
      (h : im.turn itr = (.found e names', itr'))
      (hm : ¬names'.matchesPath path (component path).length = true)
      (hrest : FirstMatch path itr' d names) : FirstMatch path itr d names

/-- The lookup of the path searches the directory. -/
def Searches (path : Str) (itr : DirItr) : Prop :=
  chomp path ≠ [] ∧ ¬(itr.isRoot = true ∧ isDots (component (chomp path)) = true)

/-- The lookup goes on with the rest of the path in another directory. -/
inductive Descends : Str × DirItr → Str × DirItr → Prop
  | dots {path : Str} {itr : DirItr} (hne : chomp path ≠ []) (hroot : itr.isRoot = true)
      (hdots : isDots (component (chomp path)) = true) :
      Descends (path, itr) (afterComponent (chomp path), im.fatItrRoot)
  | child {path : Str} {itr : DirItr} {d : Dent} {names : Names} (hs : Searches path itr)
      (hd : im.FirstMatch (chomp path) itr d names) (hdir : d.isDir = true) :
      Descends (path, itr) (afterComponent (chomp path), im.fatItrChild d)

section Iterate

variable {im} {itr itr' : DirItr} {path : Str}

theorem halts_of_fatItrNext_none {fuel : ℕ} (h : im.fatItrNext fuel itr = some (none, itr')) :
    im.Halts itr := by
  induction fuel generalizing itr with
  | zero => cases h
  | succ fuel ih =>
      rw [fatItrNext] at h
      rcases ht : im.turn itr with ⟨_ | _ | ⟨d, names⟩, itr₁⟩
      · exact .stop (by rw [ht])
      · rw [ht] at h
        exact .step (by simp [ht]) (by rw [ht]; exact ih h)
      · rw [ht] at h
        cases h

theorem halts_of_fatItrNext_some {fuel : ℕ} {entry : Dent × Names}
    (h : im.fatItrNext fuel itr = some (some entry, itr')) (hrest : im.Halts itr') :
    im.Halts itr := by
  induction fuel generalizing itr with
  | zero => cases h
  | succ fuel ih =>
      rw [fatItrNext] at h
      rcases ht : im.turn itr with ⟨_ | _ | ⟨d, names⟩, itr₁⟩
      · rw [ht] at h
        cases h
      · rw [ht] at h
        exact .step (by simp [ht]) (by rw [ht]; exact ih h)
      · rw [ht] at h
        cases h
        exact .step (by simp [ht]) (by rw [ht]; exact hrest)

theorem entries_mono {fuel fuel' : ℕ} {l : List (Dent × Names)}
    (h : im.entries fuel itr = some l) (hle : fuel ≤ fuel') : im.entries fuel' itr = some l := by
  induction fuel generalizing itr fuel' l with
  | zero => cases h
  | succ fuel ih =>
      obtain ⟨fuel', rfl, hle'⟩ := exists_of_succ_le hle
      rw [entries] at h ⊢
      split at h
      · cases h
      · rename_i itr' hn
        rw [fatItrNext_mono hn hle]
        exact h
      · rename_i entry itr' hn
        rw [fatItrNext_mono hn hle]
        obtain ⟨l', hl, rfl⟩ := Option.map_eq_some_iff.mp h
        dsimp only
        rw [ih hl hle', Option.map_some]

/-- The entries of a directory can be listed exactly when the walk through it ends. -/
theorem entries_finishes_iff : (∃ fuel, (im.entries fuel itr).isSome) ↔ im.Halts itr := by
  constructor
  · rintro ⟨fuel, h⟩
    induction fuel generalizing itr with
    | zero => cases h
    | succ fuel ih =>
        rw [entries] at h
        split at h
        · cases h
        · rename_i hn
          exact halts_of_fatItrNext_none hn
        · rename_i hn
          exact halts_of_fatItrNext_some hn (ih (by simpa using h))
  · intro h
    induction h with
    | @stop itr hstop =>
        rcases ht : im.turn itr with ⟨t, itr'⟩
        obtain rfl : t = .stop := by simpa [ht] using hstop
        exact ⟨1, by simp [entries, fatItrNext, ht]⟩
    | @step itr hne _ ih =>
        obtain ⟨fuel, hfuel⟩ := ih
        obtain ⟨l, hl⟩ := Option.isSome_iff_exists.mp hfuel
        refine ⟨fuel + 1, ?_⟩
        rcases ht : im.turn itr with ⟨_ | _ | ⟨d, names⟩, itr'⟩
        · exact absurd (by rw [ht]) hne
        · rw [ht] at hl
          obtain ⟨fuel, rfl⟩ : ∃ n, fuel = n + 1 := by
            cases fuel with
            | zero => cases hl
            | succ n => exact ⟨n, rfl⟩
          rw [entries, fatItrNext, ht]
          rw [entries] at hl
          dsimp only
          split at hl
          · cases hl
          · rename_i hn
            rw [hn]
            rfl
          · rename_i hn
            rw [hn]
            obtain ⟨l', hl', rfl⟩ := Option.map_eq_some_iff.mp hl
            dsimp only
            rw [entries_mono hl' (Nat.le_succ _)]
            rfl
        · rw [ht] at hl
          rw [entries, fatItrNext, ht]
          dsimp only
          rw [hl]
          rfl

/-- Where a turn passes a record over, the search goes on behind it. -/
theorem findMatch_of_again {fuel : ℕ} {r : Option (Dent × Names)}
    (ht : im.turn itr = (.again, itr')) (h : im.findMatch path fuel itr' = some r) :
    im.findMatch path (fuel + 1) itr = some r := by
  cases fuel with
  | zero => cases h
  | succ fuel =>
      rw [findMatch, fatItrNext, ht]
      rw [findMatch] at h
      dsimp only
      split at h
      · cases h
      · exact h
      · split_ifs at h ⊢
        · exact h
        · exact findMatch_mono h (Nat.le_succ _)

theorem firstMatch_of_fatItrNext {fuel : ℕ} {d e : Dent} {names names' : Names}
    (h : im.fatItrNext fuel itr = some (some (e, names'), itr'))
    (hfirst : (names'.matchesPath path (component path).length = true ∧ (e, names') = (d, names)) ∨
      (¬names'.matchesPath path (component path).length = true ∧
        im.FirstMatch path itr' d names)) : im.FirstMatch path itr d names := by
  induction fuel generalizing itr with
  | zero => cases h
  | succ fuel ih =>
      rw [fatItrNext] at h
      rcases ht : im.turn itr with ⟨_ | _ | ⟨d', names''⟩, itr₁⟩
      · rw [ht] at h
        cases h
      · rw [ht] at h
        exact .pass ht (ih h)
      · rw [ht] at h
        cases h
        rcases hfirst with ⟨hm, heq⟩ | ⟨hm, hrest⟩
        · cases heq
          exact .here ht hm
        · exact .miss ht hm hrest

theorem findMatch_some_iff {d : Dent} {names : Names} :
    (∃ fuel, im.findMatch path fuel itr = some (some (d, names))) ↔
      im.FirstMatch path itr d names := by
  constructor
  · rintro ⟨fuel, h⟩
    induction fuel generalizing itr with
    | zero => cases h
    | succ fuel ih =>
        rw [findMatch] at h
        split at h
        · cases h
        · cases h
        · rename_i hn
          split_ifs at h with hm
          · exact firstMatch_of_fatItrNext hn (.inl ⟨hm, Option.some.inj (Option.some.inj h)⟩)
          · exact firstMatch_of_fatItrNext hn (.inr ⟨hm, ih h⟩)
  · intro h
    induction h with
    | here ht hm => exact ⟨1, by simp [findMatch, fatItrNext, ht, hm]⟩
    | pass ht _ ih =>
        obtain ⟨fuel, hfuel⟩ := ih
        exact ⟨fuel + 1, findMatch_of_again ht hfuel⟩
    | miss ht hm _ ih =>
        obtain ⟨fuel, hfuel⟩ := ih
        exact ⟨fuel + 1, by simp [findMatch, fatItrNext, ht, hm, hfuel]⟩

/-- A directory is searched to an end if it has one, or holds what is searched for. -/
theorem findMatch_finishes_iff :
    (∃ fuel, (im.findMatch path fuel itr).isSome) ↔
      im.Halts itr ∨ ∃ d names, im.FirstMatch path itr d names := by
  constructor
  · rintro ⟨fuel, h⟩
    induction fuel generalizing itr with
    | zero => cases h
    | succ fuel ih =>
        rw [findMatch] at h
        split at h
        · cases h
        · rename_i hn
          exact .inl (halts_of_fatItrNext_none hn)
        · rename_i d names itr' hn
          split_ifs at h with hm
          · exact .inr ⟨d, names, firstMatch_of_fatItrNext hn (.inl ⟨hm, rfl⟩)⟩
          · rcases ih h with hhalts | ⟨e, names', hfirst⟩
            · exact .inl (halts_of_fatItrNext_some hn hhalts)
            · exact .inr ⟨e, names', firstMatch_of_fatItrNext hn (.inr ⟨hm, hfirst⟩)⟩
  · rintro (h | ⟨d, names, h⟩)
    · induction h with
      | @stop itr hstop =>
          rcases ht : im.turn itr with ⟨t, itr'⟩
          obtain rfl : t = .stop := by simpa [ht] using hstop
          exact ⟨1, by simp [findMatch, fatItrNext, ht]⟩
      | @step itr hne _ ih =>
          obtain ⟨fuel, hfuel⟩ := ih
          obtain ⟨r, hr⟩ := Option.isSome_iff_exists.mp hfuel
          refine ⟨fuel + 1, Option.isSome_iff_exists.mpr ?_⟩
          rcases ht : im.turn itr with ⟨_ | _ | ⟨d, names⟩, itr'⟩
          · exact absurd (by rw [ht]) hne
          · rw [ht] at hr
            exact ⟨r, findMatch_of_again ht hr⟩
          · rw [ht] at hr
            rw [findMatch, fatItrNext, ht]
            dsimp only
            split_ifs
            · exact ⟨_, rfl⟩
            · exact ⟨r, hr⟩
    · obtain ⟨fuel, hfuel⟩ := findMatch_some_iff.mpr h
      exact ⟨fuel, by rw [hfuel]; rfl⟩

end Iterate

/-! ## Lookups -/

section Lookup

variable {im} {type : FileType} {itr itr' : DirItr} {path path' : Str}

theorem length_chomp_le (path : Str) : (chomp path).length ≤ path.length :=
  (List.dropWhile_sublist _).length_le

theorem length_afterComponent (h : chomp path ≠ []) :
    (afterComponent (chomp path)).length < path.length := by
  refine lt_of_lt_of_le ?_ (length_chomp_le path)
  obtain ⟨c, cs, hcs⟩ := List.exists_cons_of_ne_nil h
  have hc : isDirDelim c = false := by
    have hhead : isDirDelim ((chomp path).head h) = false := List.head_dropWhile_not isDirDelim h
    simpa only [hcs, List.head_cons] using hhead
  rw [hcs, afterComponent, List.dropWhile_cons_of_pos (by rw [hc]; rfl), List.length_cons]
  exact Nat.lt_succ_of_le (List.dropWhile_sublist _).length_le

/-- One call ends unless it searches a directory without an end in vain. -/
theorem resolveLevel_finishes_iff :
    (∃ fuel, (im.resolveLevel type fuel path itr).isSome) ↔
      (Searches path itr → im.Halts itr ∨ ∃ d names, im.FirstMatch (chomp path) itr d names) := by
  rw [← findMatch_finishes_iff]
  by_cases hne : chomp path = []
  · simp [resolveLevel, Searches, hne]
  · by_cases hdots : itr.isRoot = true ∧ isDots (component (chomp path)) = true
    · refine iff_of_true ⟨0, ?_⟩ fun hs ↦ absurd hdots hs.2
      rw [resolveLevel]
      dsimp only
      rw [if_neg hne, if_pos hdots]
      rfl
    · have hlevel : ∀ fuel, (im.resolveLevel type fuel path itr).isSome =
          (im.findMatch (chomp path) fuel itr).isSome := by
        intro fuel
        rw [resolveLevel]
        dsimp only
        rw [if_neg hne, if_neg hdots, Option.isSome_map]
      simp only [hlevel]
      exact ⟨fun h _ ↦ h, fun h ↦ h ⟨hne, hdots⟩⟩

/-- One call goes on only where the lookup descends. -/
theorem descends_of_resolveLevel {fuel : ℕ}
    (h : im.resolveLevel type fuel path itr = some (.goesOn path' itr')) :
    im.Descends (path, itr) (path', itr') := by
  rw [resolveLevel] at h
  dsimp only at h
  by_cases hne : chomp path = []
  · rw [if_pos hne] at h
    cases h
  · rw [if_neg hne] at h
    by_cases hdots : itr.isRoot = true ∧ isDots (component (chomp path)) = true
    · rw [if_pos hdots] at h
      split_ifs at h
      · cases h
      · cases h
        exact .dots hne hdots.1 hdots.2
    · rw [if_neg hdots] at h
      obtain ⟨_ | ⟨d, names⟩, ho, hl⟩ := Option.map_eq_some_iff.mp h
      · cases hl
      · rw [levelAt] at hl
        by_cases hdir : d.isDir = true
        · rw [if_pos hdir] at hl
          cases hl
          exact .child ⟨hne, hdots⟩ (findMatch_some_iff.mp ⟨fuel, ho⟩) hdir
        · rw [if_neg hdir] at hl
          cases hl

/-- Where the lookup descends, one call goes on, or there is nothing left to look up. -/
theorem Descends.resolveLevel (h : im.Descends (path, itr) (path', itr')) (type : FileType) :
    path' = [] ∨ ∃ fuel, im.resolveLevel type fuel path itr = some (.goesOn path' itr') := by
  cases h with
  | dots hne hroot hdots =>
      by_cases hnext : afterComponent (chomp path) = []
      · exact .inl hnext
      · refine .inr ⟨0, ?_⟩
        rw [Image.resolveLevel]
        dsimp only
        rw [if_neg hne, if_pos ⟨hroot, hdots⟩, if_neg hnext]
  | child hs hd hdir =>
      obtain ⟨fuel, hfuel⟩ := findMatch_some_iff.mpr hd
      refine .inr ⟨fuel, ?_⟩
      rw [Image.resolveLevel]
      dsimp only
      rw [if_neg hs.1, if_neg hs.2, hfuel, Option.map_some, levelAt, if_pos hdir]

theorem Descends.length_lt {p p' : Str × DirItr} (h : im.Descends p p') :
    p'.1.length < p.1.length := by
  cases h with
  | dots hne _ _ => exact length_afterComponent hne
  | child hs _ _ => exact length_afterComponent hs.1

/-- A lookup ends exactly when every directory that it searches has an end or holds what
is searched for. -/
theorem fatItrResolve_finishes_iff :
    (∃ fuel, (im.fatItrResolve type fuel path itr).isSome) ↔
      ∀ path' itr', Relation.ReflTransGen im.Descends (path, itr) (path', itr') →
        Searches path' itr' →
          im.Halts itr' ∨ ∃ d names, im.FirstMatch (chomp path') itr' d names := by
  constructor
  · rintro ⟨fuel, h⟩ path' itr' hreach
    induction fuel generalizing path itr with
    | zero => cases h
    | succ fuel ih =>
        have hlevel : ∃ fuel, (im.resolveLevel type fuel path itr).isSome := by
          refine ⟨fuel + 1, ?_⟩
          rw [fatItrResolve] at h
          split at h
          · cases h
          · rename_i hl
            rw [hl]
            rfl
          · rename_i hl
            rw [hl]
            rfl
        rcases Relation.ReflTransGen.cases_head hreach with heq | ⟨⟨path₁, itr₁⟩, hd, hreach⟩
        · cases heq
          exact resolveLevel_finishes_iff.mp hlevel
        · rcases hd.resolveLevel type with rfl | ⟨fuel₁, hl₁⟩
          · rcases Relation.ReflTransGen.cases_head hreach with heq | ⟨⟨path₂, itr₂⟩, hd, -⟩
            · cases heq
              exact fun hs ↦ absurd rfl hs.1
            · exact absurd hd.length_lt (Nat.not_lt_zero _)
          · obtain ⟨l, hl⟩ := Option.isSome_iff_exists.mp hlevel.choose_spec
            refine ih ?_ hreach
            rw [fatItrResolve] at h
            split at h
            · cases h
            · rename_i hl'
              have h₁ := resolveLevel_mono hl' (Nat.le_max_left _ fuel₁)
              rw [resolveLevel_mono hl₁ (Nat.le_max_right (fuel + 1) fuel₁)] at h₁
              cases h₁
            · rename_i hl'
              have h₁ := resolveLevel_mono hl' (Nat.le_max_left _ fuel₁)
              rw [resolveLevel_mono hl₁ (Nat.le_max_right (fuel + 1) fuel₁)] at h₁
              cases h₁
              exact h
  · intro h
    generalize hn : path.length = n
    induction n using Nat.strong_induction_on generalizing path itr with
    | _ n ih =>
        have hlevel : ∃ fuel, (im.resolveLevel type fuel path itr).isSome :=
          resolveLevel_finishes_iff.mpr (h path itr Relation.ReflTransGen.refl)
        obtain ⟨fuel, hfuel⟩ := hlevel
        obtain ⟨l, hl⟩ := Option.isSome_iff_exists.mp hfuel
        cases l with
        | ends r =>
            refine ⟨fuel + 1, ?_⟩
            rw [fatItrResolve, resolveLevel_mono hl (Nat.le_succ _)]
            rfl
        | goesOn path₁ itr₁ =>
            have hd := descends_of_resolveLevel hl
            obtain ⟨fuel₁, h₁⟩ := ih path₁.length (hn ▸ hd.length_lt)
              (fun path' itr' hreach ↦ h path' itr' (hreach.head hd)) rfl
            obtain ⟨r, hr⟩ := Option.isSome_iff_exists.mp h₁
            refine ⟨max fuel fuel₁ + 1, ?_⟩
            rw [fatItrResolve, resolveLevel_mono hl (Nat.le_succ_of_le (Nat.le_max_left _ _))]
            dsimp only
            rw [fatItrResolve_mono hr (Nat.le_max_right _ _)]
            rfl

end Lookup

/-- Listing the root directory, every lookup and every clearing of a chain end. -/
def WalksEnd : Prop :=
  (∃ fuel, (im.entries fuel im.fatItrRoot).isSome) ∧
    (∀ type path, ∃ fuel, (im.fatItrResolve type fuel path im.fatItrRoot).isSome) ∧
      ∀ entry, ∃ fuel, (clearFatent im.fatSize fuel im.fat entry).isSome

/-- Walks over a volume end exactly when the root directory has an end, and every directory
that a lookup searches has one or holds what is searched for.  A name with a separator in it
matches more than a component, so that all that is searched for behind it may be there. -/
theorem walksEnd_iff : im.WalksEnd ↔ im.Ends im.fatItrRoot ∧
    ∀ path path' itr, Relation.ReflTransGen im.Descends (path, im.fatItrRoot) (path', itr) →
      Searches path' itr → im.Ends itr ∨ ∃ d names, im.FirstMatch (chomp path') itr d names := by
  simp only [← halts_iff_ends]
  constructor
  · rintro ⟨hroot, hlookup, -⟩
    exact ⟨entries_finishes_iff.mp hroot,
      fun path ↦ fatItrResolve_finishes_iff.mp (hlookup ⟨true, true⟩ path)⟩
  · rintro ⟨hroot, hlookup⟩
    exact ⟨entries_finishes_iff.mpr hroot,
      fun type path ↦ fatItrResolve_finishes_iff.mpr (hlookup path),
      fun entry ↦ ⟨_, clearFatent_finishes im.fatSize im.fat entry⟩⟩

/-- The volume whose root directory is one cluster of deleted records that is its own
successor. -/
def looped : Image where
  fatSize := .fat32
  fat c := if c = 2 then 2 else 0
  fat_of_checkClust := by
    intro c hc
    split_ifs with h
    · rw [h] at hc
      cases hc
    · rfl
  cluster _ := some (deletedDent, List.replicate 15 deletedDent)
  rootCluster := 2
  rootArea := unusedRootArea
  rootArea_ne_nil := unusedRootArea_ne_nil

/-- The iterator goes round and round over the deleted records. -/
theorem fatItrNext_looped (fuel : ℕ) {rest : List Dent} (h : ∀ d ∈ rest, d = deletedDent) :
    looped.fatItrNext fuel ⟨true, some 2, rest⟩ = none := by
  induction fuel generalizing rest with
  | zero => rfl
  | succ fuel ih =>
      cases rest with
      | nil =>
          have hturn : looped.turn ⟨true, some 2, []⟩ =
              (.again, ⟨true, some 2, List.replicate 15 deletedDent⟩) := by
            decide +kernel
          rw [fatItrNext, hturn]
          exact ih fun d hd ↦ List.eq_of_mem_replicate hd
      | cons d rest =>
          obtain ⟨rfl, hrest⟩ := List.forall_mem_cons.mp h
          have hturn : looped.turn ⟨true, some 2, deletedDent :: rest⟩ =
              (.again, ⟨true, some 2, rest⟩) := rfl
          rw [fatItrNext, hturn]
          exact ih hrest

/-- There is a volume on which the listing of the root directory never ends. -/
theorem not_walksEnd_looped : ¬looped.WalksEnd := by
  rintro ⟨⟨fuel, h⟩, -⟩
  cases fuel with
  | zero => cases h
  | succ fuel =>
      have hnext := fatItrNext_looped (fuel + 1) (List.forall_mem_nil (· = deletedDent))
      rw [entries, show looped.fatItrRoot = ⟨true, some 2, []⟩ from rfl, hnext] at h
      cases h

end Image

end MiniPi.Fat
