import MiniPi.Lib.Keyed
import MiniPi.Uci.Ops

/-!
# Resolved pointers

What `uci_expand_ptr` leaves in a pointer: an existing section with its name, and the
first option of the name asked for, or no section and a name that no section has.
-/

namespace MiniPi.Uci

open Lib

/-- A call that succeeds, taken apart. -/
theorem bind_eq_ok {α β : Type} {x : Except Err α} {f : α → Except Err β} {b : β} :
    x.bind f = .ok b ↔ ∃ a, x = .ok a ∧ f a = .ok b := by
  cases x with
  | error e => simp [Except.bind]
  | ok a => simp [Except.bind]

theorem map_eq_ok {α β : Type} {x : Except Err α} {f : α → β} {b : β} :
    x.map f = .ok b ↔ ∃ a, x = .ok a ∧ f a = b := by
  cases x with
  | error e => simp [Except.map]
  | ok a => simp [Except.map]

section AddDelta

variable (internal : Bool) (p : Package) (cmd : Cmd) (sec : Str) (option value : Option Str)

@[simp] theorem addDelta_sections :
    (addDelta internal p cmd sec option value).sections = p.sections := by
  unfold addDelta; split <;> rfl

@[simp] theorem addDelta_nSection :
    (addDelta internal p cmd sec option value).nSection = p.nSection := by
  unfold addDelta; split <;> rfl

@[simp] theorem addDelta_name :
    (addDelta internal p cmd sec option value).name = p.name := by
  unfold addDelta; split <;> rfl

@[simp] theorem addDelta_hasDelta :
    (addDelta internal p cmd sec option value).hasDelta = p.hasDelta := by
  unfold addDelta; split <;> rfl

@[simp] theorem addDelta_internal : addDelta true p cmd sec option value = p := rfl

end AddDelta

/-! ## Lookup -/

theorem getElem?_of_lookupSection {sections : List Section} {name : Str} {i : ℕ}
    (h : lookupSection sections name = some i) : ∃ s, sections[i]? = some s ∧ s.name = name :=
  getElem?_of_findIdx? h

theorem notMem_of_lookupSection {sections : List Section} {name : Str}
    (h : lookupSection sections name = none) : name ∉ sections.map Section.name :=
  notMem_of_findIdx? h

theorem getElem?_of_lookupOption {options : List Opt} {name : Str} {k : ℕ}
    (h : lookupOption options name = some k) : ∃ o, options[k]? = some o ∧ o.name = name :=
  getElem?_of_findIdx? h

theorem notMem_of_lookupOption {options : List Opt} {name : Str}
    (h : lookupOption options name = none) : name ∉ options.map Opt.name :=
  notMem_of_findIdx? h

theorem lookupSection_none {sections : List Section} {name : Str}
    (h : name ∉ sections.map Section.name) : lookupSection sections name = none := by
  refine List.findIdx?_eq_none_iff.mpr fun s hs ↦ ?_
  simp only [beq_eq_false_iff_ne]
  rintro rfl
  exact h (List.mem_map_of_mem hs)

theorem lookupOption_none {options : List Opt} {name : Str} (h : name ∉ options.map Opt.name) :
    lookupOption options name = none := by
  refine List.findIdx?_eq_none_iff.mpr fun o ho ↦ ?_
  simp only [beq_eq_false_iff_ne]
  rintro rfl
  exact h (List.mem_map_of_mem ho)

theorem validateName_at (rest : Str) : validateName ('@' :: rest) = false := by
  have h : validChar true false '@' = false := by decide
  simp [validateName, validateStr, h]

theorem eq_cons_of_splitExt {sec : Str} {parts : Str × Str} (h : splitExt sec = some parts) :
    ∃ rest, sec = '@' :: rest := by
  unfold splitExt at h
  split at h
  · exact ⟨_, rfl⟩
  · cases h

theorem mem_of_extPick {found : List ℕ} {idx : ℤ} {i : ℕ} (h : extPick found idx = some i) :
    i ∈ found := by
  unfold extPick at h
  generalize (if idx < 0 then idx + found.length else idx) = idx at h
  simp only at h
  split at h
  · cases h
  · exact List.mem_of_getElem? h

/-- An extended lookup takes only names that are not valid, and finds a section. -/
theorem lookupExtSection_spec {p : Package} {sec : Str} {r : Option ℕ}
    (h : lookupExtSection p sec = .ok r) :
    validateName sec = false ∧ ∀ i, r = some i → i < p.sections.length := by
  unfold lookupExtSection at h
  cases hs : splitExt sec with
  | none => simp [hs] at h
  | some parts =>
      refine ⟨?_, ?_⟩
      · obtain ⟨rest, rfl⟩ := eq_cons_of_splitExt hs
        exact validateName_at rest
      · rintro i rfl
        simp only [hs] at h
        split at h
        · cases h
        · split at h
          · cases h
          · have hi := mem_of_extPick (Except.ok.inj h)
            simp only [extCandidates, List.mem_filter, List.mem_range] at hi
            exact hi.1

/-- What the search for the section of a pointer finds. -/
theorem lookupPtrSection_some {p : Package} {extended : Bool} {sec : Str} {i : ℕ}
    (h : lookupPtrSection p extended sec = .ok (some i)) :
    ∃ s, p.sections[i]? = some s ∧ (extended = false → s.name = sec) := by
  unfold lookupPtrSection at h
  split at h
  · rename_i he
    have hi := (lookupExtSection_spec h).2 i rfl
    exact ⟨p.sections[i], List.getElem?_eq_getElem hi, fun hf ↦ absurd he (by simp [hf])⟩
  · obtain ⟨s, hs, hn⟩ := getElem?_of_lookupSection (Except.ok.inj h)
    exact ⟨s, hs, fun _ ↦ hn⟩

/-- A valid name that the search does not find is the name of no section. -/
theorem lookupPtrSection_none {p : Package} {extended : Bool} {sec : Str}
    (h : lookupPtrSection p extended sec = .ok none) (hv : validateName sec = true) :
    sec ∉ p.sections.map Section.name := by
  unfold lookupPtrSection at h
  split at h
  · simp [(lookupExtSection_spec h).1] at hv
  · exact notMem_of_lookupSection (Except.ok.inj h)

/-! ## Expanded pointers -/

/-- The pointer agrees with the package. -/
structure Ptr.Resolved (p : Package) (ptr : Ptr) : Prop where
  found : ∀ i, ptr.s = some i → ∃ s, p.sections[i]? = some s ∧ ptr.sec = some s.name ∧
    ptr.o = ptr.option.bind (lookupOption s.options)
  missing : ptr.s = none → ptr.o = none ∧
    ∀ sec, ptr.sec = some sec → validateName sec = true → sec ∉ p.sections.map Section.name

/-- The option a resolved pointer points to has the name of the pointer. -/
theorem ptrOption_some {p : Package} {ptr : Ptr} {k : ℕ} {o : Opt} (hr : ptr.Resolved p)
    (h : ptrOption p ptr = some (k, o)) :
    ∃ i s, ptr.s = some i ∧ p.sections[i]? = some s ∧ ptr.o = some k ∧ s.options[k]? = some o ∧
      ptr.option = some o.name := by
  unfold ptrOption at h
  split at h
  · rename_i i k' hi hk'
    obtain ⟨s, hs, -, ho⟩ := hr.found i hi
    simp only [hs, Option.bind_some, Option.map_eq_some_iff, Prod.mk.injEq] at h
    obtain ⟨o', ho', rfl, rfl⟩ := h
    obtain ⟨name, hname, hl⟩ := Option.bind_eq_some_iff.mp (ho.symm.trans hk')
    obtain ⟨o'', ho'', rfl⟩ := getElem?_of_lookupOption hl
    obtain rfl : o' = o'' := by simpa [ho'] using ho''
    exact ⟨i, s, hi, hs, hk', ho', hname⟩
  · cases h

theorem ptrOption_none {p : Package} {ptr : Ptr} {i : ℕ} (hr : ptr.Resolved p)
    (hi : ptr.s = some i) (h : ptrOption p ptr = none) : ptr.o = none := by
  obtain ⟨s, hs, -, ho⟩ := hr.found i hi
  cases hk : ptr.o with
  | none => rfl
  | some k =>
      obtain ⟨name, -, hl⟩ := Option.bind_eq_some_iff.mp (ho.symm.trans hk)
      obtain ⟨o, ho', -⟩ := getElem?_of_lookupOption hl
      simp [ptrOption, hi, hk, hs, ho'] at h

/-- A resolved pointer with an option name but no option: the section has none of the name. -/
theorem Ptr.Resolved.notMem {p : Package} {ptr : Ptr} {i : ℕ} {s : Section} {name : Str}
    (hr : ptr.Resolved p) (hi : ptr.s = some i) (hs : p.sections[i]? = some s)
    (hname : ptr.option = some name) (ho : ptr.o = none) : name ∉ s.options.map Opt.name := by
  obtain ⟨s', hs', -, ho'⟩ := hr.found i hi
  obtain rfl : s = s' := by simpa [hs] using hs'
  rw [ho, hname, Option.bind_some] at ho'
  exact notMem_of_lookupOption ho'.symm

/-- The second lookup of `uci_set` finds nothing new. -/
theorem fillOption_eq {p : Package} {ptr : Ptr} (hr : ptr.Resolved p) : fillOption p ptr = ptr := by
  unfold fillOption
  split
  · rename_i i name ho hi hname
    obtain ⟨s, hs, -, ho'⟩ := hr.found i hi
    rw [ho, hname, Option.bind_some] at ho'
    simp only [hs, Option.bind_some, ← ho', ← ho]
  · rfl

/-- What `uci_set` can do. -/
theorem setAt_cases {internal : Bool} {p p' : Package} {ptr : Ptr} {last : Option ℕ}
    (hr : ptr.Resolved p) (h : setAt internal p ptr = .ok (p', last)) :
    (ptr.value = some [] ∧ ptr.complete = true ∧ uciDelete false p ptr = .ok p') ∨
    (ptr.value = some [] ∧ p' = p) ∨
    (∃ v name i, ptr.value = some v ∧ v ≠ [] ∧ ptr.option = some name ∧ ptr.s = some i ∧
      p' = setOption internal p ptr i name v) ∨
    (∃ v, ptr.value = some v ∧ v ≠ [] ∧ ptr.option = none ∧ (ptr.s = none → ptr.sec ≠ none) ∧
      validateType v = true ∧ setSection internal p ptr v = (p', last)) := by
  unfold setAt at h
  split at h
  · cases h
  · rename_i v hv
    simp only [fillOption_eq hr] at h
    split_ifs at h with hs ht hv0 hc
    · obtain ⟨q, hq, hpair⟩ := map_eq_ok.mp h
      obtain ⟨rfl, -⟩ := Prod.mk.inj hpair
      exact .inl ⟨hv0 ▸ hv, hc, hq⟩
    · obtain ⟨rfl, -⟩ := Prod.mk.inj (Except.ok.inj h)
      exact .inr (.inl ⟨hv0 ▸ hv, rfl⟩)
    · split at h
      · rename_i name i hname hi
        obtain ⟨rfl, -⟩ := Prod.mk.inj (Except.ok.inj h)
        exact .inr (.inr (.inl ⟨v, name, i, hv, hv0, hname, hi, rfl⟩))
      · rename_i hne
        have hopt : ptr.option = none := by
          cases hopt : ptr.option with
          | none => rfl
          | some name =>
              cases hsec : ptr.s with
              | none => exact absurd ⟨hsec, .inl (by simp [hopt])⟩ hs
              | some i => exact absurd hsec (hne name i hopt)
        refine .inr (.inr (.inr ⟨v, hv, hv0, hopt, ?_, ?_, Except.ok.inj h⟩))
        · exact fun hnone hsec ↦ hs ⟨hnone, .inr hsec⟩
        · simpa [hopt, hv0] using ht

/-- The pointer of a target whose section is found. -/
def foundPtr (t : Target) (i : ℕ) (s : Section) : Ptr where
  sec := some s.name
  option := t.option
  value := t.value
  extended := t.extended
  done := true
  complete := t.option.isNone || (t.option.bind (lookupOption s.options)).isSome
  s := some i
  o := t.option.bind (lookupOption s.options)
  last := some i

theorem lookupPtr_found {p : Package} {t : Target} {sec : Str} {i : ℕ} {s : Section}
    (hsec : t.sec = some sec) (hl : lookupPtrSection p t.extended sec = .ok (some i))
    (hs : p.sections[i]? = some s) : lookupPtr p t.ptr = .ok (foundPtr t i s) := by
  have hname : (if t.extended then some s.name else some sec) = some s.name := by
    obtain ⟨s', hs', hname⟩ := lookupPtrSection_some hl
    obtain rfl : s = s' := by simpa [hs] using hs'
    split_ifs with he
    · rfl
    · rw [hname (by simpa using he)]
  unfold lookupPtr
  simp only [Target.ptr, hsec, hl, hs, lookupPtrOption, hname, foundPtr]
  cases hopt : t.option with
  | none => simp
  | some name =>
      cases hk : lookupOption s.options name with
      | none => simp [hk]
      | some k => simp [hk]

/-- What becomes of a target: the package itself, a section that is missing, or a section
and its option. -/
theorem lookupPtr_cases {p : Package} {t : Target} {ptr : Ptr} (h : lookupPtr p t.ptr = .ok ptr) :
    (t.sec = none ∧ ptr = { t.ptr with done := true, complete := true }) ∨
    (∃ sec, t.sec = some sec ∧ lookupPtrSection p t.extended sec = .ok none ∧
      ptr = { t.ptr with done := true }) ∨
    (∃ i s, p.sections[i]? = some s ∧ ptr = foundPtr t i s) := by
  cases hsec : t.sec with
  | none =>
      simp only [lookupPtr, Target.ptr, hsec, Except.ok.injEq] at h
      exact .inl ⟨rfl, by simp [← h, Target.ptr, hsec]⟩
  | some sec =>
      match hl : lookupPtrSection p t.extended sec with
      | .error e => simp [lookupPtr, Target.ptr, hsec, hl] at h
      | .ok none =>
          simp only [lookupPtr, Target.ptr, hsec, hl, Except.ok.injEq] at h
          exact .inr (.inl ⟨sec, rfl, hl, by simp [← h, Target.ptr, hsec]⟩)
      | .ok (some i) =>
          obtain ⟨s, hs, -⟩ := lookupPtrSection_some hl
          rw [lookupPtr_found hsec hl hs, Except.ok.injEq] at h
          exact .inr (.inr ⟨i, s, hs, h.symm⟩)

/-- The names and the value of an expanded pointer, and what it points to. -/
structure Expanded (p : Package) (t : Target) (complete : Bool) (ptr : Ptr) : Prop where
  resolved : ptr.Resolved p
  option : ptr.option = t.option
  value : ptr.value = t.value
  missing : ptr.s = none → ptr.sec = t.sec
  whole : ptr.complete = true → ptr.s ≠ none → ptr.option = none ∨ ptr.o ≠ none
  complete : complete = true → ptr.complete = true

theorem expandPtr_ok {p : Package} {t : Target} {complete : Bool} {ptr : Ptr} :
    expandPtr p t.ptr complete = .ok ptr ↔
      lookupPtr p t.ptr = .ok ptr ∧ (complete = true → ptr.complete = true) := by
  have hd : t.ptr.done = false := rfl
  simp only [expandPtr, hd, Bool.false_eq_true, if_false]
  cases lookupPtr p t.ptr with
  | error e => simp
  | ok ptr' =>
      by_cases hc : complete && !ptr'.complete
      · simp only [hc, if_true, reduceCtorEq, false_iff, not_and]
        rintro h
        obtain rfl := Except.ok.inj h
        simpa using hc
      · simp only [hc, if_false, Except.ok.injEq, Bool.false_eq_true]
        refine ⟨?_, And.left⟩
        rintro rfl
        exact ⟨rfl, by simpa using hc⟩

theorem expandPtr_expanded {p : Package} {t : Target} {complete : Bool} {ptr : Ptr}
    (h : expandPtr p t.ptr complete = .ok ptr) : Expanded p t complete ptr := by
  obtain ⟨hl, hc⟩ := expandPtr_ok.mp h
  rcases lookupPtr_cases hl with ⟨hsec, rfl⟩ | ⟨sec, hsec, hn, rfl⟩ | ⟨i, s, hs, rfl⟩
  · exact {
      resolved := ⟨by simp [Target.ptr], by simp [Target.ptr, hsec]⟩
      option := rfl
      value := rfl
      missing := fun _ ↦ rfl
      whole := by simp [Target.ptr]
      complete := hc }
  · refine ⟨⟨by simp [Target.ptr], fun _ ↦ ⟨rfl, ?_⟩⟩, rfl, rfl, fun _ ↦ rfl,
      by simp [Target.ptr], hc⟩
    intro sec' hsec' hv
    obtain rfl : sec = sec' := by simpa [Target.ptr, hsec] using hsec'
    exact lookupPtrSection_none hn hv
  · refine ⟨⟨?_, by simp [foundPtr]⟩, rfl, rfl, by simp [foundPtr], ?_, hc⟩
    · rintro j hj
      obtain rfl : i = j := by simpa [foundPtr] using hj
      exact ⟨s, hs, rfl, rfl⟩
    · intro hcomp _
      simp only [foundPtr, Bool.or_eq_true, Option.isNone_iff_eq_none] at hcomp
      exact hcomp.imp id Option.ne_none_iff_isSome.mpr

end MiniPi.Uci
