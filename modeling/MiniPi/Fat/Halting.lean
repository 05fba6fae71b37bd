import MiniPi.Fat.Resolve

/-!
# Which walks over a volume end

The iterator keeps no record of where it has been.  A walk through a directory ends when
the chain of its clusters does, or at an end mark, unless a long name that is cut short
takes the mark for one of its slots.
-/

namespace MiniPi.Fat

/-! ## What one turn reads -/

/-- The records that `extract_vfat_name` reads behind the slot `d`: up to the number of
slots, to the first end mark, or until the name gets too long. -/
def SlotsRead : ℕ → ℕ → Dent → List Dent → Prop
  | 0, _, _, rest => rest = []
  | _ + 1, n, d, [] => 256 ≤ n + (slot2str d).length
  | seqn + 1, n, d, e :: rest =>
      n + (slot2str d).length < 256 ∧
        if e.name0 = 0 then rest = [] else SlotsRead seqn (n + (slot2str d).length) e rest

/-- The record is the first one of a long name. -/
def Dent.StartsGroup (d : Dent) : Prop :=
  d.isSkipped = false ∧ d.isVolume = true ∧ d.startsLongName = true

instance (d : Dent) : Decidable d.StartsGroup := inferInstanceAs (Decidable (_ ∧ _ ∧ _))

/-- The records are what one turn of `fat_itr_next` passes over: a record that is used, and
the slots of the long name that begins with it. -/
def Passed : List Dent → Prop
  | [] => False
  | d :: rest =>
      d.name0 ≠ 0 ∧
        if d.StartsGroup then SlotsRead (d.name0 &&& 0xbf).toNat 0 d rest else rest = []

namespace Image

variable (im : Image)

/-- From one position to another the directory has the records. -/
inductive Begins : DirItr → List Dent → DirItr → Prop
  | nil {itr : DirItr} : Begins itr [] itr
  | cons {itr itr' itr'' : DirItr} {d : Dent} {ds : List Dent}
      (h : im.advance itr = some (d, itr')) (hrest : Begins itr' ds itr'') :
      Begins itr (d :: ds) itr''

/-- The walk from the position on comes to an end: the chain of clusters ends, or there is
an end mark that is not taken for a slot. -/
def Ends (itr : DirItr) : Prop :=
  (∃ ds, im.Remains itr ds) ∨
    ∃ (items : List (List Dent)) (d : Dent) (itr' : DirItr),
      (∀ rs ∈ items, Passed rs) ∧ d.name0 = 0 ∧ im.Begins itr (items.flatten ++ [d]) itr'

section Begins

variable {im} {itr itr' itr'' : DirItr} {ds ds' : List Dent}

theorem Begins.append (h : im.Begins itr ds itr') (h' : im.Begins itr' ds' itr'') :
    im.Begins itr (ds ++ ds') itr'' := by
  induction h with
  | nil => exact h'
  | cons hadv _ ih => exact .cons hadv (ih h')

theorem Begins.remains (h : im.Begins itr ds itr') (h' : im.Remains itr' ds') :
    im.Remains itr (ds ++ ds') := by
  induction h with
  | nil => exact h'
  | cons hadv _ ih => exact .cons hadv (ih h')

/-- What remains behind records of a directory. -/
theorem Begins.remains_after (h : im.Begins itr ds itr') {all : List Dent}
    (hall : im.Remains itr all) : ∃ rest, all = ds ++ rest ∧ im.Remains itr' rest := by
  induction h generalizing all with
  | nil => exact ⟨all, rfl, hall⟩
  | cons hadv _ ih =>
      cases hall with
      | nil hnone =>
          rw [hadv] at hnone
          cases hnone
      | cons hadv' hrest =>
          obtain ⟨rfl, rfl⟩ := Prod.mk.inj (Option.some.inj (hadv.symm.trans hadv'))
          obtain ⟨rest, rfl, hrem⟩ := ih hrest
          exact ⟨rest, rfl, hrem⟩

theorem Begins.split (h : im.Begins itr (ds ++ ds') itr'') :
    ∃ itr', im.Begins itr ds itr' ∧ im.Begins itr' ds' itr'' := by
  induction ds generalizing itr with
  | nil => exact ⟨itr, .nil, h⟩
  | cons d ds ih =>
      cases h with
      | cons hadv hrest =>
          obtain ⟨itr', h₁, h₂⟩ := ih hrest
          exact ⟨itr', .cons hadv h₁, h₂⟩

end Begins

section Turn

variable {im} {itr itr' : DirItr}

theorem nextDent_of_advance {d : Dent} (h : im.advance itr = some (d, itr')) :
    im.nextDent itr = (if d.name0 = 0 then none else some d, itr') := by
  rw [nextDent, h]

theorem nextDent_of_none (h : im.advance itr = none) : im.nextDent itr = (none, itr) := by
  rw [nextDent, h]

/-- The loop of `extract_vfat_name` reads the slots, or stops where the directory ends. -/
theorem extractLoop_begins (im : Image) (seqn : ℕ) (itr : DirItr) (d : Dent) (lName : Str) :
    ∃ rs, im.Begins itr rs (im.extractLoop seqn itr d lName).2 ∧
      (SlotsRead seqn lName.length d rs ∨
        im.advance (im.extractLoop seqn itr d lName).2 = none) := by
  induction seqn generalizing itr d lName with
  | zero => exact ⟨[], .nil, .inl rfl⟩
  | succ seqn ih =>
      rw [extractLoop]
      by_cases hlen : 256 ≤ lName.length + (slot2str d).length
      · rw [if_pos hlen]
        exact ⟨[], .nil, .inl hlen⟩
      · rw [if_neg hlen]
        cases hadv : im.advance itr with
        | none =>
            rw [nextDent_of_none hadv]
            exact ⟨[], .nil, .inr hadv⟩
        | some p =>
            obtain ⟨e, itr'⟩ := p
            rw [nextDent_of_advance hadv]
            by_cases he : e.name0 = 0
            · rw [if_pos he]
              exact ⟨[e], .cons hadv .nil, .inl ⟨not_le.mp hlen, by rw [if_pos he]⟩⟩
            · rw [if_neg he]
              obtain ⟨rs, hrs, hread⟩ := ih itr' e (slot2str d ++ lName)
              refine ⟨e :: rs, .cons hadv hrs, hread.imp_left fun hread ↦ ?_⟩
              rw [List.length_append, Nat.add_comm] at hread
              exact ⟨not_le.mp hlen, by rw [if_neg he]; exact hread⟩

theorem extractLoop_of_slotsRead {seqn : ℕ} {d : Dent} {lName : Str} {rs : List Dent}
    (h : SlotsRead seqn lName.length d rs) (hrs : im.Begins itr rs itr') :
    (im.extractLoop seqn itr d lName).2 = itr' := by
  induction seqn generalizing itr d lName rs with
  | zero =>
      obtain rfl : rs = [] := h
      cases hrs
      rfl
  | succ seqn ih =>
      rw [extractLoop]
      cases hrs with
      | nil =>
          have hlen : 256 ≤ lName.length + (slot2str d).length := h
          rw [if_pos hlen]
      | @cons _ itr₁ _ e es hadv hrest =>
          obtain ⟨hlen, hread⟩ := h
          rw [if_neg (not_le.mpr hlen), nextDent_of_advance hadv]
          split_ifs at hread ⊢ with he
          · subst hread
            cases hrest
            rfl
          · refine ih ?_ hrest
            rwa [List.length_append, Nat.add_comm]

theorem extractVfatName_snd (im : Image) (itr : DirItr) (d : Dent) :
    (im.extractVfatName itr d).2 = (im.extractLoop (d.name0 &&& 0xbf).toNat itr d []).2 := by
  rw [extractVfatName]
  generalize im.extractLoop _ itr d [] = r
  rcases r with ⟨_ | ⟨e, lName⟩, itr'⟩
  · rfl
  · dsimp only
    split_ifs
    · rfl
    · rfl

/-- A turn that reads a used record ends behind it and the slots of its long name. -/
theorem turn_of_advance {d : Dent} (hadv : im.advance itr = some (d, itr')) (hd : d.name0 ≠ 0) :
    (im.turn itr).1 ≠ .stop ∧
      (im.turn itr).2 = if d.StartsGroup then
        (im.extractLoop (d.name0 &&& 0xbf).toNat itr' d []).2 else itr' := by
  have hsnd := extractVfatName_snd im itr' d
  rw [turn, nextDent_of_advance hadv, if_neg hd]
  dsimp only
  by_cases hskip : d.isSkipped = true
  · rw [if_pos hskip, if_neg fun hg ↦ by simp [hg.1] at hskip]
    exact ⟨by simp, rfl⟩
  · by_cases hvol : d.isVolume = true
    · by_cases hlong : d.startsLongName = true
      · rw [if_neg hskip, if_pos hvol, if_pos hlong, if_pos ⟨by simpa using hskip, hvol, hlong⟩,
          ← hsnd]
        generalize im.extractVfatName itr' d = r
        rcases r with ⟨_ | ⟨e, lName⟩, itr''⟩
        · exact ⟨by simp, rfl⟩
        · exact ⟨by simp, rfl⟩
      · rw [if_neg hskip, if_pos hvol, if_neg hlong, if_neg fun hg ↦ hlong hg.2.2]
        exact ⟨by simp, rfl⟩
    · rw [if_neg hskip, if_neg hvol, if_neg fun hg ↦ hvol hg.2.1]
      exact ⟨by simp, rfl⟩

/-- A turn stops at the end of the chain and at an end mark. -/
theorem turn_of_mark {d : Dent} (hadv : im.advance itr = some (d, itr')) (hd : d.name0 = 0) :
    im.turn itr = (.stop, itr') := by
  rw [turn, nextDent_of_advance hadv, if_pos hd]

theorem turn_of_none (hadv : im.advance itr = none) : im.turn itr = (.stop, itr) := by
  rw [turn, nextDent_of_none hadv]

/-- A turn that does not stop goes over records of the directory. -/
theorem turn_begins (h : (im.turn itr).1 ≠ .stop) :
    ∃ rs, rs ≠ [] ∧ im.Begins itr rs (im.turn itr).2 ∧
      (Passed rs ∨ im.advance (im.turn itr).2 = none) := by
  cases hadv : im.advance itr with
  | none => exact absurd (congrArg Prod.fst (turn_of_none hadv)) h
  | some p =>
      obtain ⟨d, itr'⟩ := p
      by_cases hd : d.name0 = 0
      · exact absurd (congrArg Prod.fst (turn_of_mark hadv hd)) h
      · rw [(turn_of_advance hadv hd).2]
        by_cases hg : d.StartsGroup
        · rw [if_pos hg]
          obtain ⟨rs, hrs, hread⟩ := extractLoop_begins im (d.name0 &&& 0xbf).toNat itr' d []
          refine ⟨d :: rs, List.cons_ne_nil _ _, .cons hadv hrs, hread.imp_left fun hread ↦ ?_⟩
          exact ⟨hd, by rw [if_pos hg]; exact hread⟩
        · rw [if_neg hg]
          exact ⟨[d], List.cons_ne_nil _ _, .cons hadv .nil, .inl ⟨hd, by rw [if_neg hg]⟩⟩

theorem turn_of_passed {rs : List Dent} (h : Passed rs) (hrs : im.Begins itr rs itr') :
    (im.turn itr).1 ≠ .stop ∧ (im.turn itr).2 = itr' := by
  cases hrs with
  | nil => exact h.elim
  | cons hadv hrest =>
      obtain ⟨hd, hread⟩ := h
      obtain ⟨hne, hsnd⟩ := turn_of_advance hadv hd
      refine ⟨hne, hsnd.trans ?_⟩
      split_ifs at hread ⊢ with hg
      · exact extractLoop_of_slotsRead hread hrest
      · subst hread
        cases hrest
        rfl

end Turn

/-! ## Walks that end -/

/-- Finitely many turns lead to one that stops. -/
inductive Halts : DirItr → Prop
  | stop {itr : DirItr} (h : (im.turn itr).1 = .stop) : Halts itr
  | step {itr : DirItr} (h : (im.turn itr).1 ≠ .stop) (hrest : Halts (im.turn itr).2) : Halts itr

section Halts

variable {im} {itr itr' : DirItr}

theorem halts_of_remains {n : ℕ} {ds : List Dent} (h : im.Remains itr ds) (hn : ds.length ≤ n) :
    im.Halts itr := by
  induction n generalizing itr ds with
  | zero =>
      obtain rfl := List.length_eq_zero_iff.mp (Nat.le_zero.mp hn)
      cases h with
      | nil hadv => exact .stop (congrArg Prod.fst (turn_of_none hadv))
  | succ n ih =>
      by_cases hstop : (im.turn itr).1 = .stop
      · exact .stop hstop
      · obtain ⟨rs, hne, hrs, -⟩ := turn_begins hstop
        obtain ⟨rest, rfl, hrest⟩ := hrs.remains_after h
        have hpos : 0 < rs.length := List.length_pos_iff.mpr hne
        rw [List.length_append] at hn
        exact .step hstop (ih hrest (by omega))

theorem halts_iff_ends : im.Halts itr ↔ im.Ends itr := by
  constructor
  · intro h
    induction h with
    | @stop itr hstop =>
        cases hadv : im.advance itr with
        | none => exact .inl ⟨[], .nil hadv⟩
        | some p =>
            obtain ⟨d, itr'⟩ := p
            by_cases hd : d.name0 = 0
            · exact .inr ⟨[], d, itr', by simp, hd, .cons hadv .nil⟩
            · exact absurd hstop (turn_of_advance hadv hd).1
    | step hstop _ ih =>
        obtain ⟨rs, -, hrs, hpassed | hnone⟩ := turn_begins hstop
        · rcases ih with ⟨ds, hds⟩ | ⟨items, d, itr', hitems, hd, hbegins⟩
          · exact .inl ⟨_, hrs.remains hds⟩
          · refine .inr ⟨rs :: items, d, itr', ?_, hd, ?_⟩
            · exact List.forall_mem_cons.mpr ⟨hpassed, hitems⟩
            · rw [List.flatten_cons, List.append_assoc]
              exact hrs.append hbegins
        · exact .inl ⟨_, hrs.remains (.nil hnone)⟩
  · rintro (⟨ds, hds⟩ | ⟨items, d, itr', hitems, hd, hbegins⟩)
    · exact halts_of_remains hds le_rfl
    · induction items generalizing itr with
      | nil =>
          cases hbegins with
          | cons hadv _ => exact .stop (congrArg Prod.fst (turn_of_mark hadv hd))
      | cons rs items ih =>
          obtain ⟨hpassed, hitems⟩ := List.forall_mem_cons.mp hitems
          rw [List.flatten_cons, List.append_assoc] at hbegins
          obtain ⟨itr₁, h₁, h₂⟩ := hbegins.split
          obtain ⟨hne, hsnd⟩ := turn_of_passed hpassed h₁
          exact .step hne (hsnd ▸ ih hitems h₂)

end Halts

end Image

end MiniPi.Fat
