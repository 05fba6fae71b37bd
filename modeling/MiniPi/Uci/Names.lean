import MiniPi.Lib.Run
import MiniPi.Uci.Resolve
import MiniPi.Uci.Parse

/-!
# Names of sections and options

Every name is valid, section names differ within the package and option names within
their section.  The edits of `list.h` keep this under conditions that the functions
do not check themselves: a rename takes any value, and a section or an option that
`uci_set` or `uci_add_list` creates takes the name from the pointer as it is.
-/

namespace MiniPi.Uci

open Lib

/-! ## The invariant -/

/-- The option names of a section are valid and differ. -/
structure Section.NamesOk (s : Section) : Prop where
  valid : ∀ o ∈ s.options, validateName o.name = true
  distinct : Distinct Opt.name s.options

/-- The names of the sections and of their options are valid and differ. -/
structure NamesOk (sections : List Section) : Prop where
  valid : ∀ s ∈ sections, validateName s.name = true
  distinct : Distinct Section.name sections
  options : ∀ s ∈ sections, s.NamesOk

/-! ## Edits of a section -/

namespace Section.NamesOk

variable {s : Section} {k : ℕ} {o : Opt}

theorem concat (h : s.NamesOk) (hv : validateName o.name = true)
    (hn : o.name ∉ s.options.map Opt.name) :
    { s with options := s.options ++ [o] }.NamesOk where
  valid := by
    intro o' ho'
    rcases List.mem_append.mp ho' with ho' | ho'
    · exact h.valid o' ho'
    · rwa [List.mem_singleton.mp ho']
  distinct := h.distinct.concat hn

theorem freeOption (h : s.NamesOk) (k : ℕ) : (freeOption s k).NamesOk where
  valid := fun o ho ↦ h.valid o ((List.eraseIdx_sublist _ _).mem ho)
  distinct := h.distinct.eraseIdx k

theorem replace (h : s.NamesOk) {o' : Opt} (hk : s.options[k]? = some o') (hn : o.name = o'.name) :
    { s with options := s.options.eraseIdx k ++ [o] }.NamesOk := by
  refine (h.freeOption k).concat ?_ ?_
  · exact hn ▸ h.valid o' (List.mem_of_getElem? hk)
  · exact hn ▸ h.distinct.notMem_eraseIdx hk

theorem setValue (h : s.NamesOk) (k : ℕ) (v : Value) :
    (modifyOption s k ({ · with value := v })).NamesOk where
  valid := by
    intro o ho
    rcases mem_modify ho with ho | ⟨o', ho', rfl⟩
    · exact h.valid o ho
    · exact h.valid o' (List.mem_of_getElem? ho')
  distinct := h.distinct.modify fun _ _ ↦ rfl

theorem rename (h : s.NamesOk) {v : Str} (hv : validateName v = true)
    (hn : v ∉ (s.options.eraseIdx k).map Opt.name) :
    (modifyOption s k ({ · with name := v })).NamesOk where
  valid := by
    intro o ho
    rcases mem_modify ho with ho | ⟨o', -, rfl⟩
    · exact h.valid o ho
    · exact hv
  distinct := h.distinct.modify_fresh fun _ _ ↦ hn

end Section.NamesOk

/-! ## Edits of a package -/

namespace NamesOk

variable {sections : List Section} {i : ℕ} {s : Section} {f : Section → Section}

theorem nil : NamesOk [] := ⟨by simp, Distinct.nil, by simp⟩

theorem concat (h : NamesOk sections) (hv : validateName s.name = true)
    (hn : s.name ∉ sections.map Section.name) (hs : s.NamesOk) : NamesOk (sections ++ [s]) where
  valid := by
    intro s' hs'
    rcases List.mem_append.mp hs' with hs' | hs'
    · exact h.valid s' hs'
    · rwa [List.mem_singleton.mp hs']
  distinct := h.distinct.concat hn
  options := by
    intro s' hs'
    rcases List.mem_append.mp hs' with hs' | hs'
    · exact h.options s' hs'
    · rwa [List.mem_singleton.mp hs']

theorem eraseIdx (h : NamesOk sections) (i : ℕ) : NamesOk (sections.eraseIdx i) where
  valid := fun s hs ↦ h.valid s ((List.eraseIdx_sublist _ _).mem hs)
  distinct := h.distinct.eraseIdx i
  options := fun s hs ↦ h.options s ((List.eraseIdx_sublist _ _).mem hs)

/-- An edit of one section that keeps its name. -/
theorem modify (h : NamesOk sections) (hname : ∀ s, (f s).name = s.name)
    (hopt : ∀ s, sections[i]? = some s → s.NamesOk → (f s).NamesOk) :
    NamesOk (sections.modify i f) where
  valid := by
    intro s hs
    rcases mem_modify hs with hs | ⟨s', hs', rfl⟩
    · exact h.valid s hs
    · exact hname s' ▸ h.valid s' (List.mem_of_getElem? hs')
  distinct := h.distinct.modify fun s _ ↦ hname s
  options := by
    intro s hs
    rcases mem_modify hs with hs | ⟨s', hs', rfl⟩
    · exact h.options s hs
    · exact hopt s' hs' (h.options s' (List.mem_of_getElem? hs'))

theorem rename (h : NamesOk sections) {v : Str} {b : Bool} (hv : validateName v = true)
    (hn : v ∉ (sections.eraseIdx i).map Section.name) :
    NamesOk (sections.modify i ({ · with name := v, anonymous := b })) where
  valid := by
    intro s hs
    rcases mem_modify hs with hs | ⟨s', -, rfl⟩
    · exact h.valid s hs
    · exact hv
  distinct := h.distinct.modify_fresh fun _ _ ↦ hn
  options := by
    intro s hs
    rcases mem_modify hs with hs | ⟨s', hs', rfl⟩
    · exact h.options s hs
    · obtain ⟨hval, hdist⟩ := h.options s' (List.mem_of_getElem? hs')
      exact ⟨hval, hdist⟩

theorem move {j : ℕ} (h : NamesOk sections) (hi : sections[i]? = some s)
    (hj : j ≤ (sections.eraseIdx i).length) : NamesOk ((sections.eraseIdx i).insertIdx j s) := by
  have hmem : ∀ s', s' ∈ (sections.eraseIdx i).insertIdx j s → s' ∈ sections := by
    intro s' hs'
    rcases List.mem_cons.mp ((List.perm_insertIdx _ _ hj).mem_iff.mp hs') with rfl | hs'
    · exact List.mem_of_getElem? hi
    · exact (List.eraseIdx_sublist _ _).mem hs'
  exact ⟨fun s' hs' ↦ h.valid s' (hmem s' hs'), h.distinct.move hi hj,
    fun s' hs' ↦ h.options s' (hmem s' hs')⟩

end NamesOk

/-! ## Generated names -/

theorem isAlphanum_of_mem_toDigitsCore {c : Char} {cs : Str} (hc : c ∈ cs → c.isAlphanum = true)
    {fuel n : ℕ} (h : c ∈ Nat.toDigitsCore 16 fuel n cs) : c.isAlphanum = true := by
  have hdigit : ∀ d, d < 16 → (Nat.digitChar d).isAlphanum = true := by decide
  induction fuel generalizing n cs with
  | zero => exact hc h
  | succ fuel ih =>
      have hcons : c ∈ Nat.digitChar (n % 16) :: cs → c.isAlphanum = true := by
        rintro hm
        rcases List.mem_cons.mp hm with rfl | hm
        · exact hdigit _ (Nat.mod_lt _ (by decide))
        · exact hc hm
      rw [Nat.toDigitsCore] at h
      split at h
      · exact hcons h
      · exact ih hcons h

theorem isAlphanum_of_mem_printHex {w n : ℕ} {c : Char} (h : c ∈ printHex w n) :
    c.isAlphanum = true := by
  rcases List.mem_append.mp h with h | h
  · rw [List.eq_of_mem_replicate h]
    decide
  · exact isAlphanum_of_mem_toDigitsCore (by simp) h

theorem validateName_anonSection (p : Package) (type : Str) :
    validateName (anonSection p type).name = true := by
  have hname : (anonSection p type).name = ['c', 'f', 'g'] ++
    printHex 2 ((p.nSection + 1) % 2 ^ 32) ++
      printHex 4 (sectionHash (newSection type []) % 2 ^ 16) := rfl
  rw [hname, validateName, validateStr, Bool.and_eq_true]
  refine ⟨by simp, List.all_eq_true.mpr fun c hc ↦ ?_⟩
  have halnum : c.isAlphanum = true := by
    rcases List.mem_append.mp hc with hc | hc
    · rcases List.mem_append.mp hc with hc | hc
      · simp only [List.mem_cons, List.not_mem_nil, or_false] at hc
        rcases hc with rfl | rfl | rfl <;> decide
      · exact isAlphanum_of_mem_printHex hc
    · exact isAlphanum_of_mem_printHex hc
  simp [validChar, halnum]

/-! ## Operations -/

/-- The new name is valid and no other element of the list has it. -/
def renameCareful (p : Package) (ptr : Ptr) : Bool :=
  match ptr.s, ptr.value with
  | some i, some v =>
    validateName v && match ptr.o with
      | none => !((p.sections.eraseIdx i).map Section.name).contains v
      | some k => p.sections[i]?.all fun s ↦ !((s.options.eraseIdx k).map Opt.name).contains v
  | _, _ => true

/-- A section or an option that `uci_set` is about to create has a valid name. -/
def setCareful (ptr : Ptr) : Bool :=
  ptr.value == some [] ||
    match ptr.s, ptr.option with
    | none, _ => validateName (ptr.sec.getD [])
    | some _, some name => ptr.o.isSome || validateName name
    | some _, none => true

/-- An option that `uci_add_list` is about to create has a valid name. -/
def addListCareful (ptr : Ptr) : Bool := ptr.o.isSome || validateName (ptr.option.getD [])

section Operations

variable {internal : Bool} {p p' : Package} {ptr : Ptr}

theorem renameAt_namesOk (hok : NamesOk p.sections) (hcare : renameCareful p ptr = true)
    (h : renameAt internal p ptr = .ok p') : NamesOk p'.sections := by
  unfold renameAt at h
  split at h
  · rename_i i v hi hv
    simp only [renameCareful, hi, hv, Bool.and_eq_true] at hcare
    obtain ⟨hvalid, hfresh⟩ := hcare
    cases ho : ptr.o with
    | none =>
        simp only [ho, Except.ok.injEq] at h
        subst h
        refine NamesOk.rename (b := false) (by simpa using hok) hvalid ?_
        simpa [ho] using hfresh
    | some k =>
        simp only [ho, Except.ok.injEq] at h
        subst h
        refine NamesOk.modify (by simpa using hok) (fun _ ↦ rfl) ?_
        intro s hs hsok
        refine hsok.rename hvalid ?_
        have hs' : p.sections[i]? = some s := by simpa using hs
        simpa [ho, hs'] using hfresh
  · cases h

theorem uciReorderSection_namesOk {i : ℕ} {pos : ℤ} (hok : NamesOk p.sections)
    (h : uciReorderSection internal p i pos = .ok p') : NamesOk p'.sections := by
  unfold uciReorderSection at h
  split at h
  · cases h
  · rename_i s hs
    have hmove := hok.move hs (j := setPos (p.sections.eraseIdx i).length pos)
      (Nat.min_le_right _ _)
    simp only [Except.ok.injEq] at h
    subst h
    split
    · simpa using hmove
    · exact hmove

theorem uciAddSection_namesOk {type : Str} (hok : NamesOk p.sections)
    (hn : (anonSection p type).name ∉ p.sections.map Section.name) :
    NamesOk (uciAddSection internal p type).sections := by
  simp only [uciAddSection, addDelta_sections, allocSection]
  exact hok.concat (validateName_anonSection p type) hn
    ⟨by simp [anonSection, fixupSection, newSection],
    Distinct.nil⟩

theorem deleteAt_namesOk (hok : NamesOk p.sections) (h : deleteAt internal p ptr = .ok p') :
    NamesOk p'.sections := by
  unfold deleteAt at h
  split at h
  · cases h
  · rename_i i hi
    split at h
    · unfold deleteItem at h
      split at h
      · cases h
      · split at h
        · simp only [Except.ok.injEq] at h
          subst h
          exact NamesOk.modify (by simpa using hok) (fun _ ↦ rfl) fun s _ hs ↦ hs.setValue _ _
        · rwa [← Except.ok.inj h]
    · rw [Except.ok.injEq] at h
      subst h
      unfold deleteElement
      split
      · exact NamesOk.modify (by simpa using hok) (fun _ ↦ rfl) fun s _ hs ↦ hs.freeOption _
      · exact NamesOk.eraseIdx (by simpa using hok) i

theorem addListAt_namesOk (hr : ptr.Resolved p) (hok : NamesOk p.sections)
    (hcare : addListCareful ptr = true) (h : addListAt internal p ptr = .ok p') :
    NamesOk p'.sections := by
  unfold addListAt at h
  split at h
  · rename_i i v hi hv
    split at h
    · simp only [Except.ok.injEq] at h
      subst h
      exact NamesOk.modify (by simpa using hok) (fun _ ↦ rfl) fun s _ hs ↦ hs.setValue _ _
    · rename_i k name old ho
      obtain ⟨i', s, hi', hs, -, hk, hname⟩ := ptrOption_some hr ho
      obtain rfl : i = i' := by simpa [hi] using hi'
      simp only [Except.ok.injEq] at h
      subst h
      refine NamesOk.modify (by simpa using hok) (fun _ ↦ rfl) ?_
      intro s' hs' hsok
      obtain rfl : s' = s := by simpa [hs] using hs'.symm
      exact hsok.replace hk (by simp [hname])
    · rename_i hn
      have ho := ptrOption_none hr hi hn
      simp only [Except.ok.injEq] at h
      subst h
      refine NamesOk.modify (by simpa using hok) (fun _ ↦ rfl) ?_
      intro s hs hsok
      have hvalid : validateName (ptr.option.getD []) = true := by
        simpa [addListCareful, ho] using hcare
      cases hopt : ptr.option with
      | none => simp [hopt, validateName, validateStr] at hvalid
      | some name =>
          have hs' : p.sections[i]? = some s := by simpa using hs
          exact hsok.concat (by simpa [hopt] using hvalid) (hr.notMem hi hs' hopt ho)
  · cases h

theorem delListAt_namesOk (hok : NamesOk p.sections) (h : delListAt internal p ptr = .ok p') :
    NamesOk p'.sections := by
  unfold delListAt at h
  split at h
  · split at h
    · simp only [Except.ok.injEq] at h
      subst h
      exact NamesOk.modify (by simpa using hok) (fun _ ↦ rfl) fun s _ hs ↦ hs.setValue _ _
    · rwa [← Except.ok.inj h]
  · cases h

theorem setOption_namesOk {i : ℕ} {name v : Str} (hr : ptr.Resolved p) (hok : NamesOk p.sections)
    (hi : ptr.s = some i) (hname : ptr.option = some name)
    (hcare : ptr.o.isSome = true ∨ validateName name = true) :
    NamesOk (setOption internal p ptr i name v).sections := by
  unfold setOption
  split
  · rename_i hn
    have ho := ptrOption_none hr hi hn
    refine NamesOk.modify (by simpa using hok) (fun _ ↦ rfl) ?_
    intro s hs hsok
    have hs' : p.sections[i]? = some s := by simpa using hs
    exact hsok.concat (by simpa [ho] using hcare) (hr.notMem hi hs' hname ho)
  · rename_i k o ho
    obtain ⟨i', s, hi', hs, -, hk, hname'⟩ := ptrOption_some hr ho
    obtain rfl : i = i' := by simpa [hi] using hi'
    split
    · exact hok
    · refine NamesOk.modify (by simpa using hok) (fun _ ↦ rfl) ?_
      intro s' hs' hsok
      obtain rfl : s' = s := by simpa [hs] using hs'.symm
      exact hsok.replace hk (Option.some.inj (hname.symm.trans hname'))

theorem setSection_namesOk {v : Str} (hr : ptr.Resolved p) (hok : NamesOk p.sections)
    (hcare : ptr.s = none → validateName (ptr.sec.getD []) = true) :
    NamesOk (setSection internal p ptr v).1.sections := by
  unfold setSection
  split
  · rename_i hs
    have hvalid := hcare hs
    cases hsec : ptr.sec with
    | none => simp [hsec, validateName, validateStr] at hvalid
    | some sec =>
        rw [hsec, Option.getD_some] at hvalid
        simp only [allocSection, addDelta_sections]
        exact hok.concat hvalid ((hr.missing hs).2 sec hsec hvalid) ⟨by simp [newSection],
          Distinct.nil⟩
  · refine NamesOk.modify (by simpa using hok) (fun _ ↦ rfl) ?_
    rintro s - ⟨hvalid, hdist⟩
    exact ⟨hvalid, hdist⟩

theorem setAt_namesOk {last : Option ℕ} (hr : ptr.Resolved p) (hok : NamesOk p.sections)
    (hcare : setCareful ptr = true) (h : setAt internal p ptr = .ok (p', last)) :
    NamesOk p'.sections := by
  rcases setAt_cases hr h with ⟨-, -, hdel⟩ | ⟨-, rfl⟩ | ⟨v, name, i, hv, hv0, hname, hi, rfl⟩ |
    ⟨v, hv, hv0, hopt, -, -, hset⟩
  · obtain ⟨ptr', -, hdel⟩ := bind_eq_ok.mp hdel
    exact deleteAt_namesOk hok hdel
  · exact hok
  · refine setOption_namesOk hr hok hi hname ?_
    simpa [setCareful, hv, hv0, hi, hname] using hcare
  · obtain rfl : (setSection internal p ptr v).1 = p' := by rw [hset]
    refine setSection_namesOk hr hok fun hs ↦ ?_
    simpa [setCareful, hv, hv0, hs] using hcare

end Operations

/-! ## Commands of a file -/

section Reader

variable {α β : Type} {l l' : Lex}

/-- A reader that succeeds, taken apart. -/
theorem reader_bind_ok {x : Reader α} {f : α → Reader β} {b : β} :
    (x >>= f) l = .ok b l' ↔ ∃ a l₁, x l = .ok a l₁ ∧ f a l₁ = .ok b l' := by
  change EStateM.bind x f l = _ ↔ _
  unfold EStateM.bind
  cases x l with
  | ok a l₁ => simp
  | error e l₁ => simp

@[simp] theorem reader_pure (a : α) : (pure a : Reader α) l = .ok a l := rfl

@[simp] theorem reader_throw (e : Err) : (throw e : Reader α) l = .error e l := rfl

theorem checkArg_ok {required name package : Bool} {arg arg' : Str}
    (h : checkArg required name package arg l = .ok arg' l') :
    (required = true → arg' ≠ []) ∧
      (name = true → arg' ≠ [] → validateStr arg' name package = true) := by
  unfold checkArg at h
  split_ifs at h with harg hreq hname
  · cases h
  · obtain ⟨rfl, rfl⟩ : arg = arg' ∧ l = l' := by simpa using h
    exact ⟨fun hr ↦ absurd hr hreq, fun _ hne ↦ absurd harg hne⟩
  · cases h
  · obtain ⟨rfl, rfl⟩ : arg = arg' ∧ l = l' := by simpa using h
    refine ⟨fun _ ↦ harg, fun hn _ ↦ ?_⟩
    simpa [hn] using hname

/-- An argument that is required is not empty, and one that is a name is valid. -/
theorem nextArg_ok {required name package : Bool} {arg : Str}
    (h : nextArg required name package l = .ok arg l') :
    (required = true → arg ≠ []) ∧
      (name = true → arg ≠ [] → validateStr arg name package = true) := by
  unfold nextArg at h
  split at h
  · exact checkArg_ok h
  · split_ifs at h with hsep
    · exact checkArg_ok h
    · split at h
      · cases h
      · exact checkArg_ok h

end Reader

/-- The names of a command that was read. -/
def Command.NamesOk : Command → Prop
  | .package => True
  | .config type name => type ≠ [] ∧ (name ≠ [] → validateName name = true)
  | .option _ name _ => validateName name = true

/-- The type of a command that was read is valid. -/
def Command.TypeOk : Command → Prop
  | .config type _ => validateType type = true
  | _ => True

theorem commandArgs_checked {strict : Bool} {k : Keyword} {l l' : Lex} {c : Command}
    (h : commandArgs strict k l = .ok c l') : c.NamesOk ∧ c.TypeOk := by
  have hoption : ∀ list, (do
      let name ← nextArg true true false
      let value ← nextArg false false false
      assertEolHeld strict
      return .option list name value : Reader Command) l = .ok c l' → c.NamesOk ∧ c.TypeOk := by
    intro list h
    obtain ⟨name, l₁, hname, h⟩ := reader_bind_ok.mp h
    obtain ⟨value, l₂, -, h⟩ := reader_bind_ok.mp h
    obtain ⟨-, l₃, -, h⟩ := reader_bind_ok.mp h
    obtain ⟨rfl, -⟩ := EStateM.Result.ok.inj h
    obtain ⟨hne, hvalid⟩ := nextArg_ok hname
    exact ⟨hvalid rfl (hne rfl), trivial⟩
  cases k with
  | package =>
      obtain ⟨-, l₁, -, h⟩ := reader_bind_ok.mp h
      obtain ⟨-, l₂, -, h⟩ := reader_bind_ok.mp h
      obtain ⟨rfl, -⟩ := EStateM.Result.ok.inj h
      exact ⟨trivial, trivial⟩
  | config =>
      obtain ⟨type, l₁, htype, h⟩ := reader_bind_ok.mp h
      obtain ⟨_, l₂, hcheck, h⟩ := reader_bind_ok.mp h
      obtain ⟨name, l₃, hname, h⟩ := reader_bind_ok.mp h
      obtain ⟨-, l₄, -, h⟩ := reader_bind_ok.mp h
      obtain ⟨rfl, -⟩ := EStateM.Result.ok.inj h
      refine ⟨⟨(nextArg_ok htype).1 rfl, (nextArg_ok hname).2 rfl⟩, ?_⟩
      unfold checkType at hcheck
      split_ifs at hcheck with hvalid
      · exact hvalid
      · cases hcheck
  | option => exact hoption false h
  | list => exact hoption true h

/-- A command that was read has passed the checks of its arguments. -/
theorem parseCommand_checked {strict inSection : Bool} {l l' : Lex} {c : Command}
    (h : parseCommand strict inSection l = .ok (some c) l') : c.NamesOk ∧ c.TypeOk := by
  unfold parseCommand at h
  simp only at h
  split_ifs at h with hword
  · cases (EStateM.Result.ok.inj h).1
  split at h
  · cases h
  · split_ifs at h with hsec
    split at h
    · cases h
    · obtain ⟨c', l₁, hc, h⟩ := reader_bind_ok.mp h
      obtain ⟨hcc, -⟩ := EStateM.Result.ok.inj h
      exact Option.some.inj hcc ▸ commandArgs_checked hc

/-! ## Import -/

/-- The pointers that the import fills itself. -/
theorem fillPtr_resolved {p : Package} {i : ℕ} {s : Section} (hs : p.sections[i]? = some s)
    (option value : Option Str) :
    (fillPtr (some s.name) option value (some i) (option.bind (lookupOption s.options))).Resolved p
      where
  found := by
    intro j hj
    obtain rfl : i = j := by simpa [fillPtr] using hj
    exact ⟨s, hs, rfl, rfl⟩
  missing := by simp [fillPtr]

theorem fillPtr_new_resolved {p : Package} {name type : Str}
    (hn : name ∉ p.sections.map Section.name) :
    (fillPtr (some name) none (some type) none none).Resolved p where
  found := by simp [fillPtr]
  missing := by
    refine fun _ ↦ ⟨rfl, ?_⟩
    rintro sec hsec -
    exact Option.some.inj hsec ▸ hn

theorem uciSet_fillPtr (internal : Bool) (p : Package) (sec option value : Option Str)
    (s o : Option ℕ) : uciSet internal p (fillPtr sec option value s o) =
      setAt internal p (fillPtr sec option value s o) := rfl

theorem uciAddList_fillPtr (internal : Bool) (p : Package) (sec option value : Option Str)
    (s o : Option ℕ) : uciAddList internal p (fillPtr sec option value s o) =
      addListAt internal p (fillPtr sec option value s o) := rfl

/-- A section without a name is added; one with a name is set through a pointer that leads to the
section of that name, or to none. -/
theorem execConfig_cases {strict merge : Bool} {p p' : Package} {type name : Str} {sec : Option ℕ}
    (h : execConfig strict merge p type name = .ok (p', sec)) :
    (name = [] ∧ p' = uciAddSection (!merge) p type) ∨
      name ≠ [] ∧ ∃ s, (fillPtr (some name) none (some type) s none).Resolved p ∧
        setAt (!merge) p (fillPtr (some name) none (some type) s none) = .ok (p', sec) ∧
        match s with
        | none => name ∉ p.sections.map Section.name
        | some i => ∃ x, p.sections[i]? = some x ∧ x.name = name ∧
            (strict = true → x.type = type) := by
  unfold execConfig at h
  split_ifs at h with hn
  · exact .inl ⟨hn, (Prod.mk.inj (Except.ok.inj h)).1.symm⟩
  · refine .inr ⟨hn, ?_⟩
    split at h
    · rename_i hl
      have hnew := notMem_of_lookupSection hl
      exact ⟨none, fillPtr_new_resolved hnew, h, hnew⟩
    · rename_i i hl
      obtain ⟨x, hx, rfl⟩ := getElem?_of_lookupSection hl
      split_ifs at h with hdiff
      refine ⟨some i, fillPtr_resolved hx none (some type), h, x, hx, rfl, fun hs ↦ ?_⟩
      simpa [hs, hx] using hdiff

/-- A value is appended to the option or set through a pointer that leads to the option. -/
theorem execOption_cases {merge list : Bool} {p p' : Package} {i : ℕ} {name value : Str}
    (h : execOption merge list p i name value = .ok p') :
    ∃ sec o, (fillPtr (some sec) (some name) (some value) (some i) o).Resolved p ∧
      (addListAt (!merge) p (fillPtr (some sec) (some name) (some value) (some i) o) = .ok p' ∨
        ∃ last, setAt (!merge) p (fillPtr (some sec) (some name) (some value) (some i) o) =
          .ok (p', last)) := by
  unfold execOption at h
  split at h
  · cases h
  · rename_i s hs
    refine ⟨_, _, fillPtr_resolved hs (some name) (some value), ?_⟩
    simp only at h
    split_ifs at h with hlist
    · exact .inl h
    · obtain ⟨⟨q, last⟩, hq, rfl⟩ := map_eq_ok.mp h
      exact .inr ⟨last, hq⟩

theorem exec_cases {strict merge : Bool} {p p' : Package} {sec sec' : Option ℕ} {c : Command}
    (h : exec strict merge p sec c = .ok (p', sec')) :
    p' = p ∨
      (∃ type name, c = .config type name ∧
        execConfig strict merge p type name = .ok (p', sec')) ∨
      ∃ list name value i, c = .option list name value ∧
        execOption merge list p i name value = .ok p' := by
  cases c with
  | package => exact .inl (Prod.mk.inj (Except.ok.inj h)).1.symm
  | config type name => exact .inr (.inl ⟨type, name, rfl, h⟩)
  | option list name value =>
      simp only [exec] at h
      split at h
      · cases h
      · obtain ⟨q, hq, hpair⟩ := map_eq_ok.mp h
        obtain ⟨rfl, -⟩ := Prod.mk.inj hpair
        exact .inr (.inr ⟨list, name, value, _, rfl, hq⟩)

/-- A turn leaves the package alone, or it carries out a command that was read. -/
theorem importStep_cases {strict merge : Bool} {st st' : ImportSt}
    (h : importStep strict merge st = .ok st') :
    st'.package = st.package ∨
      ∃ c l, parseCommand strict st.sec.isSome st.lex = .ok (some c) l ∧
        exec strict merge st.package st.sec c = .ok (st'.package, st'.sec) := by
  have herr : ∀ l e, importError strict st l e = .ok st' → st'.package = st.package := by
    intro l e he
    unfold importError at he
    split_ifs at he
    exact Except.ok.inj he ▸ rfl
  unfold importStep at h
  split_ifs at h
  · exact .inl (Except.ok.inj h ▸ rfl)
  · split at h
    · exact .inl (herr _ _ h)
    · exact .inl (Except.ok.inj h ▸ rfl)
    · rename_i c l hparse
      split at h
      · exact .inl (herr _ _ h)
      · rename_i p sec hexec
        obtain rfl := Except.ok.inj h
        exact .inr ⟨c, l, hparse, hexec⟩

/-- What every command that was read preserves holds after an import.  By induction on the turns of
the loop. -/
theorem importLoop_invariant {strict merge : Bool} {I : Package → Prop}
    (hexec : ∀ {p p' : Package} {sec sec' : Option ℕ} {c : Command}, c.NamesOk → c.TypeOk →
      exec strict merge p sec c = .ok (p', sec') → I p → I p')
    {n : ℕ} {st st' : ImportSt} (h : importLoop strict merge n st = .ok st')
    (hst : I st.package) : I st'.package := by
  induction n generalizing st with
  | zero => exact Except.ok.inj h ▸ hst
  | succ n ih =>
      unfold importLoop at h
      split_ifs at h
      · exact Except.ok.inj h ▸ hst
      · obtain ⟨st₁, hstep, h⟩ := bind_eq_ok.mp h
        refine ih h ?_
        rcases importStep_cases hstep with hsame | ⟨c, l, hparse, he⟩
        · exact hsame ▸ hst
        · obtain ⟨hnames, htype⟩ := parseCommand_checked hparse
          exact hexec hnames htype he hst

theorem execConfig_namesOk {strict merge : Bool} {p p' : Package} {type name : Str}
    {sec : Option ℕ} (hok : NamesOk p.sections) (hname : name ≠ [] → validateName name = true)
    (hanon : name = [] → (anonSection p type).name ∉ p.sections.map Section.name)
    (h : execConfig strict merge p type name = .ok (p', sec)) : NamesOk p'.sections := by
  rcases execConfig_cases h with ⟨hn, rfl⟩ | ⟨hn, s, hr, hset, -⟩
  · exact uciAddSection_namesOk hok (hanon hn)
  · refine setAt_namesOk hr hok ?_ hset
    cases s <;> simp [setCareful, fillPtr, hname hn]

theorem execOption_namesOk {merge list : Bool} {p p' : Package} {i : ℕ} {name value : Str}
    (hok : NamesOk p.sections) (hname : validateName name = true)
    (h : execOption merge list p i name value = .ok p') : NamesOk p'.sections := by
  obtain ⟨sec, o, hr, hadd | ⟨last, hset⟩⟩ := execOption_cases h
  · exact addListAt_namesOk hr hok (by simp [addListCareful, fillPtr, hname]) hadd
  · exact setAt_namesOk hr hok (by simp [setCareful, fillPtr, hname]) hset

/-- The name that the next command generates, if it generates one, is not in use. -/
def stepFresh (strict : Bool) (st : ImportSt) : Bool :=
  match parseCommand strict st.sec.isSome st.lex with
  | .ok (some (.config type [])) _ =>
    !(st.package.sections.map Section.name).contains (anonSection st.package type).name
  | _ => true

/-- So it is for every command of an import, in the package as it stands before it. -/
def importFresh (strict merge : Bool) : ℕ → ImportSt → Bool
  | 0, _ => true
  | n + 1, st =>
    if st.Done then true
    else stepFresh strict st &&
      match importStep strict merge st with
      | .error _ => true
      | .ok st' => importFresh strict merge n st'

theorem importStep_namesOk {strict merge : Bool} {st st' : ImportSt}
    (hok : NamesOk st.package.sections) (hfresh : stepFresh strict st = true)
    (h : importStep strict merge st = .ok st') : NamesOk st'.package.sections := by
  rcases importStep_cases h with hsame | ⟨c, l, hparse, hexec⟩
  · exact hsame ▸ hok
  · have hc := (parseCommand_checked hparse).1
    rcases exec_cases hexec with hsame | ⟨type, name, rfl, hconfig⟩ |
      ⟨list, name, value, i, rfl, hoption⟩
    · exact hsame ▸ hok
    · refine execConfig_namesOk hok hc.2 ?_ hconfig
      rintro rfl
      simpa [stepFresh, hparse] using hfresh
    · exact execOption_namesOk hok hc hoption

/-- Induction on the turns of the loop. -/
theorem importLoop_namesOk {strict merge : Bool} {n : ℕ} {st st' : ImportSt}
    (hok : NamesOk st.package.sections) (hfresh : importFresh strict merge n st = true)
    (h : importLoop strict merge n st = .ok st') : NamesOk st'.package.sections := by
  induction n generalizing st with
  | zero => exact Except.ok.inj h ▸ hok
  | succ n ih =>
      simp only [importLoop, importFresh] at h hfresh
      split_ifs at h hfresh with hdone
      · exact Except.ok.inj h ▸ hok
      · obtain ⟨st₁, h₁, h⟩ := bind_eq_ok.mp h
        simp only [h₁, Bool.and_eq_true] at hfresh
        exact ih (importStep_namesOk hok hfresh.1 h₁) hfresh.2 h

/-- No name that an import generates is in use. -/
def importCareful (strict merge : Bool) (p : Package) (text : Str) : Bool :=
  importFresh strict merge (importTurns ⟨[], text⟩) (importStart p text)

theorem uciImport_namesOk {strict merge : Bool} {p p' : Package} {text : Str}
    (hok : NamesOk p.sections) (hcare : importCareful strict merge p text = true)
    (h : uciImport strict merge p text = .ok p') : NamesOk p'.sections := by
  obtain ⟨st, hst, rfl⟩ := map_eq_ok.mp h
  have hstart : NamesOk (importStart p text).package.sections := hok
  exact importLoop_namesOk hstart hcare hst

theorem uciLoad_namesOk {strict hasDelta : Bool} {name text : Str} {p : Package}
    (hcare : importCareful strict false (allocPackage name hasDelta) text = true)
    (h : uciLoad strict hasDelta name text = .ok p) : NamesOk p.sections := by
  unfold uciLoad at h
  split_ifs at h
  exact uciImport_namesOk NamesOk.nil hcare h

/-! ## Runs -/

/-- The public operations on a loaded package. -/
inductive Op where
  | set (t : Target)
  | delete (t : Target)
  | addList (t : Target)
  | delList (t : Target)
  | rename (t : Target)
  | reorder (i : ℕ) (pos : ℤ)
  | addSection (type : Str)
  /-- `uci_import` of a text into the package. -/
  | merge (strict : Bool) (text : Str)
deriving DecidableEq, Repr

/-- A call of an operation. -/
def Op.run (p : Package) : Op → Except Err Package
  | .set t => (uciSet false p t.ptr).map (·.1)
  | .delete t => uciDelete false p t.ptr
  | .addList t => uciAddList false p t.ptr
  | .delList t => uciDelList false p t.ptr
  | .rename t => uciRename false p t.ptr
  | .reorder i pos => uciReorderSection false p i pos
  | .addSection type => .ok (uciAddSection false p type)
  | .merge strict text => uciImport strict true p text

/-- The operation succeeds. -/
def Step (p : Package) (op : Op) (p' : Package) : Prop := op.run p = .ok p'

/-- What is asked of the element that a target leads to. -/
def Target.meets (p : Package) (t : Target) (complete : Bool) (cond : Ptr → Bool) : Bool :=
  match expandPtr p t.ptr complete with
  | .ok ptr => cond ptr
  | .error _ => true

/-- New names are valid and not in use. -/
def Op.careful (p : Package) : Op → Bool
  | .set t => t.meets p false setCareful
  | .addList t => t.meets p false addListCareful
  | .rename t => t.meets p true (renameCareful p)
  | .addSection type => !(p.sections.map Section.name).contains (anonSection p type).name
  | .merge strict text => importCareful strict true p text
  | .delete _ | .delList _ | .reorder _ _ => true

/-- A call whose new names are valid and not in use. -/
def CarefulStep (p : Package) (op : Op) (p' : Package) : Prop := op.careful p = true ∧ Step p op p'

theorem CarefulStep.namesOk {p p' : Package} {op : Op} (hok : NamesOk p.sections)
    (h : CarefulStep p op p') : NamesOk p'.sections := by
  obtain ⟨hcare, hstep⟩ := h
  cases op with
  | set t =>
      obtain ⟨⟨q, last⟩, hq, rfl⟩ := map_eq_ok.mp hstep
      obtain ⟨ptr, hptr, hset⟩ := bind_eq_ok.mp hq
      simp only [Op.careful, Target.meets, hptr] at hcare
      exact setAt_namesOk (expandPtr_expanded hptr).resolved hok hcare hset
  | delete t =>
      obtain ⟨ptr, -, hdel⟩ := bind_eq_ok.mp hstep
      exact deleteAt_namesOk hok hdel
  | addList t =>
      obtain ⟨ptr, hptr, hadd⟩ := bind_eq_ok.mp hstep
      simp only [Op.careful, Target.meets, hptr] at hcare
      exact addListAt_namesOk (expandPtr_expanded hptr).resolved hok hcare hadd
  | delList t =>
      obtain ⟨ptr, -, hdel⟩ := bind_eq_ok.mp hstep
      exact delListAt_namesOk hok hdel
  | rename t =>
      obtain ⟨ptr, hptr, hren⟩ := bind_eq_ok.mp hstep
      simp only [Op.careful, Target.meets, hptr] at hcare
      exact renameAt_namesOk hok hcare hren
  | reorder i pos => exact uciReorderSection_namesOk hok hstep
  | addSection type =>
      obtain rfl := Except.ok.inj hstep
      exact uciAddSection_namesOk hok (by simpa [Op.careful] using hcare)
  | merge strict text => exact uciImport_namesOk hok hcare hstep

/-- Along every run of careful calls on a loaded package the names stay valid and distinct. -/
theorem names_of_careful_run {strict hasDelta : Bool} {name text : Str} {p p' : Package}
    {ops : List Op} (hload : uciLoad strict hasDelta name text = .ok p)
    (hfresh : importCareful strict false (allocPackage name hasDelta) text = true)
    (hrun : Run CarefulStep p ops p') : NamesOk p'.sections :=
  hrun.invariant (I := fun p ↦ NamesOk p.sections) (fun _ _ _ hok h ↦ h.namesOk hok)
    (uciLoad_namesOk hfresh hload)

/-- A file with two sections. -/
def twoSections : Str := "config a 'b'\n\toption x '1'\nconfig a 'c'\n".toList

/-- The package read from it. -/
def twoSectionsPackage : Package where
  name := ['n']
  sections := [⟨['b'], ['a'], false, true, [⟨['x'], .string ['1']⟩]⟩,
    ⟨['c'], ['a'], false, true, []⟩]
  nSection := 2
  hasDelta := true
  delta := []

/-- The package after section `b` was renamed. -/
def renamedPackage : Package where
  name := ['n']
  sections := [⟨['d'], ['a'], false, true, [⟨['x'], .string ['1']⟩]⟩,
    ⟨['c'], ['a'], false, true, []⟩]
  nSection := 2
  hasDelta := true
  delta := [⟨.rename, ['b'], none, some ['d']⟩]

/-- How the file is read, and that section `b` can be renamed to `d` but not to `c`. -/
theorem load_twoSections :
    uciLoad true true ['n'] twoSections = .ok twoSectionsPackage ∧
      importCareful true false (allocPackage ['n'] true) twoSections = true ∧
      Op.careful twoSectionsPackage (.rename ⟨some ['b'], none, some ['d'], false⟩) = true := by
  decide +kernel

/-- A section is renamed to a name that is free. -/
theorem names_of_careful_run_rename :
    Run CarefulStep twoSectionsPackage [.rename ⟨some ['b'], none, some ['d'], false⟩]
    renamedPackage ∧
      NamesOk renamedPackage.sections := by
  obtain ⟨hload, hfresh, hcareful⟩ := load_twoSections
  have hrun : Run CarefulStep twoSectionsPackage [.rename ⟨some ['b'], none, some ['d'], false⟩]
      renamedPackage := .cons ⟨hcareful, rfl⟩ (.nil _)
  exact ⟨hrun, names_of_careful_run hload hfresh hrun⟩

/-- A rename takes a name that another section has. -/
theorem names_not_invariant :
    ¬ ∀ (strict hasDelta : Bool) (name text : Str) (p p' : Package) (ops : List Op),
      uciLoad strict hasDelta name text = .ok p → Run Step p ops p' → NamesOk p'.sections := by
  intro h
  have hload := load_twoSections.1
  have hstep : Step twoSectionsPackage (.rename ⟨some ['b'], none, some ['c'], false⟩) _ := rfl
  exact absurd (h _ _ _ _ _ _ _ hload (.cons hstep (.nil _))).distinct (by decide)

end MiniPi.Uci
