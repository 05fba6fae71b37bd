import MiniPi.Uci.Delta

/-!
# Replay of the delta log

Every call of an operation that changes a package records one delta, and the line of that
delta, carried out on another copy of the package, changes the copy in the same way.
-/

namespace MiniPi.Uci

open Lib

/-! ## Numbers -/

theorem digitsValue_toDigits (n : ℕ) : digitsValue (Nat.toDigits 10 n) = n :=
  Nat.ofDigitChars_toDigits (by decide) (by decide)

theorem isDigit_toDigits {n : ℕ} : ∀ c ∈ Nat.toDigits 10 n, c.isDigit = true :=
  fun _ hc ↦ Nat.isDigit_of_mem_toDigits (by decide) (by decide) hc

theorem span_toDigits (n : ℕ) :
    (Nat.toDigits 10 n).takeWhile Char.isDigit = Nat.toDigits 10 n ∧
      (Nat.toDigits 10 n).dropWhile Char.isDigit = [] := by
  have htake : (Nat.toDigits 10 n ++ []).takeWhile Char.isDigit =
      Nat.toDigits 10 n ++ [].takeWhile Char.isDigit :=
    List.takeWhile_append_of_pos isDigit_toDigits
  have hdrop : (Nat.toDigits 10 n ++ []).dropWhile Char.isDigit = [].dropWhile Char.isDigit :=
    List.dropWhile_append_of_pos isDigit_toDigits
  rw [List.append_nil] at htake hdrop
  simp [htake, hdrop]

/-- A printed number is read with its sign and all its digits. -/
theorem scanNumber_printInt (n : ℤ) :
    scanNumber (printInt n) = (decide (n < 0), Nat.toDigits 10 n.natAbs, []) := by
  obtain ⟨htake, hdrop⟩ := span_toDigits n.natAbs
  unfold printInt scanNumber
  split_ifs with hn
  · rw [List.dropWhile_cons_of_neg (by decide)]
    simp [htake, hdrop, hn]
  · obtain ⟨c, ds, hds⟩ : ∃ c ds, Nat.toDigits 10 n.natAbs = c :: ds :=
      List.exists_cons_of_ne_nil Nat.toDigits_ne_nil
    have hc : c.isDigit = true := isDigit_toDigits (n := n.natAbs) c (by simp [hds])
    have hspace : isspace c = false := by
      refine not_isspace_of_lt (lt_toNat_of_isAlphanum ?_)
      simp [Char.isAlphanum, hc]
    have hne : c ≠ '-' ∧ c ≠ '+' := by
      constructor
      · rintro rfl
        exact absurd hc (by decide)
      · rintro rfl
        exact absurd hc (by decide)
    rw [hds] at htake hdrop ⊢
    rw [List.dropWhile_cons_of_neg (by simp [hspace])]
    simp only [hn, decide_false]
    split
    · rename_i heq
      exact absurd (List.cons.inj heq).1 hne.1
    · rename_i heq
      exact absurd (List.cons.inj heq).1 hne.2
    · simp [htake, hdrop]

/-- An `int` written with `%d` and read with `strtoul` is the same. -/
theorem strtoul_printInt {pos : ℤ} (hlo : -2 ^ 31 ≤ pos) (hhi : pos < 2 ^ 31) :
    strtoul (printInt pos) = pos := by
  unfold strtoul
  rw [scanNumber_printInt]
  simp only [digitsValue_toDigits]
  have hmin : min pos.natAbs (2 ^ 32) = pos.natAbs := by omega
  rw [hmin, if_neg (by omega)]
  have hval : (if decide (pos < 0) = true then -(pos.natAbs : ℤ) else (pos.natAbs : ℤ)) = pos := by
    split_ifs with h
    · have := of_decide_eq_true h
      omega
    · have : ¬pos < 0 := by simpa using h
      omega
  rw [hval]
  apply Int.bmod_eq_of_le_mul_two <;> omega

/-! ## Copies of a package -/

/-- The packages have the same contents; the delta lists may differ. -/
structure SameCore (p q : Package) : Prop where
  name : q.name = p.name
  sections : q.sections = p.sections
  nSection : q.nSection = p.nSection

theorem SameCore.refl (p : Package) : SameCore p p := ⟨rfl, rfl, rfl⟩

section Congruence

variable {p q : Package} (h : q.sections = p.sections)
include h

theorem expandPtr_congr (ptr : Ptr) (complete : Bool) :
    expandPtr q ptr complete = expandPtr p ptr complete := by
  unfold expandPtr lookupPtr lookupPtrSection lookupExtSection
  rw [h]

theorem ptrOption_congr (ptr : Ptr) : ptrOption q ptr = ptrOption p ptr := by
  unfold ptrOption
  rw [h]

end Congruence

/-! ## Pointers with plain names -/

/-- Where names differ, the name of the section found leads to the same section, option and
flags. -/
theorem expandPtr_plain {p : Package} {t : Target} {complete : Bool} {ptr : Ptr}
    (hdist : Distinct Section.name p.sections) (hptr : expandPtr p t.ptr complete = .ok ptr)
    (hnew : ptr.s = none → validateName (ptr.sec.getD []) = true) (v : Option Str)
    (complete' : Bool) (hc : complete' = true → ptr.complete = true) :
    expandPtr p (Target.ptr ⟨some (ptr.sec.getD []), ptr.option, v, false⟩) complete' =
      .ok { ptr with extended := false, value := v } := by
  refine expandPtr_ok.mpr ⟨?_, hc⟩
  rcases lookupPtr_cases (expandPtr_ok.mp hptr).1 with ⟨hsec, rfl⟩ | ⟨sec, hsec, hn, rfl⟩ |
    ⟨i, s, hs, rfl⟩
  · have := hnew rfl
    simp [Target.ptr, hsec, validateName, validateStr] at this
  · have hvalid := hnew rfl
    simp only [Target.ptr, hsec, Option.getD_some] at hvalid
    have hlook := lookupSection_none (lookupPtrSection_none hn hvalid)
    simp [lookupPtr, Target.ptr, hsec, lookupPtrSection, hlook]
  · have hlook : lookupPtrSection p false s.name = .ok (some i) := by
      simp only [lookupPtrSection, Bool.false_eq_true, if_false]
      exact congrArg _ (hdist.findIdx?_eq hs)
    exact lookupPtr_found (t := ⟨some s.name, t.option, v, false⟩) rfl hlook hs

/-! ## Recorded changes -/

/-- The change from `p` to `p'` is recorded as `d`, and `d` makes the same change to every
copy of `p`. -/
structure Logged (p p' : Package) (d : Delta) : Prop where
  name : p'.name = p.name
  hasDelta : p'.hasDelta = p.hasDelta
  delta : p'.delta = p.delta ++ [d]
  printable : d.Printable
  replay : ∀ q, SameCore p q → SameCore p' (parseDeltaLine q d.cmd p.name d.target)

/-- Nothing happened, or the change is recorded. -/
def Recorded (p p' : Package) : Prop := p' = p ∨ ∃ d, Logged p p' d

theorem parseDeltaLine_of_exec {p q : Package} {cmd : Cmd} {t : Target}
    (hname : q.name = p.name) {q' : Package} (h : execDelta q cmd t = .ok q') :
    parseDeltaLine q cmd p.name t = q' := by
  simp [parseDeltaLine, hname, h]

theorem addDelta_delta {p : Package} (h : p.hasDelta = true) (cmd : Cmd) (sec : Str)
    (option value : Option Str) :
    (addDelta false p cmd sec option value).delta = p.delta ++ [⟨cmd, sec, option, value⟩] := by
  simp [addDelta, h]

section ModifySection

variable (p : Package) (i : ℕ) (f : Section → Section)

@[simp] theorem modifySection_name : (modifySection p i f).name = p.name := rfl
@[simp] theorem modifySection_hasDelta : (modifySection p i f).hasDelta = p.hasDelta := rfl
@[simp] theorem modifySection_delta : (modifySection p i f).delta = p.delta := rfl
@[simp] theorem modifySection_nSection : (modifySection p i f).nSection = p.nSection := rfl
@[simp] theorem modifySection_sections :
    (modifySection p i f).sections = p.sections.modify i f := rfl
@[simp] theorem freeSection_name : (freeSection p i).name = p.name := rfl
@[simp] theorem freeSection_hasDelta : (freeSection p i).hasDelta = p.hasDelta := rfl
@[simp] theorem freeSection_delta : (freeSection p i).delta = p.delta := rfl
@[simp] theorem freeSection_nSection : (freeSection p i).nSection = p.nSection := rfl
@[simp] theorem freeSection_sections : (freeSection p i).sections = p.sections.eraseIdx i := rfl

end ModifySection

/-- The names of an element that exists can be printed. -/
theorem names_printable {p : Package} {ptr : Ptr} {i : ℕ} (hok : NamesOk p.sections)
    (hr : ptr.Resolved p) (hi : ptr.s = some i) (ho : ptr.option = none ∨ ptr.o ≠ none) :
    validateName (ptr.sec.getD []) = true ∧ ptr.option.all validateName = true := by
  obtain ⟨s, hs, hsec, hopt⟩ := hr.found i hi
  have hmem := List.mem_of_getElem? hs
  refine ⟨by simpa [hsec] using hok.valid s hmem, ?_⟩
  rcases ho with ho | ho
  · simp [ho]
  · obtain ⟨k, hk⟩ := Option.ne_none_iff_exists'.mp ho
    obtain ⟨name, hname, hl⟩ := Option.bind_eq_some_iff.mp (hopt.symm.trans hk)
    obtain ⟨o, ho', rfl⟩ := getElem?_of_lookupOption hl
    simpa [hname] using (hok.options s hmem).valid o (List.mem_of_getElem? ho')

theorem validateText_of_validateStr {name package : Bool} {v : Str}
    (h : validateStr v name package = true) : validateText v = true := by
  simp only [validateStr, Bool.and_eq_true, List.all_eq_true] at h
  refine List.all_eq_true.mpr fun c hc ↦ ?_
  have := lt_toNat_of_validChar (h.2 c hc)
  have hlt : ¬c.toNat < 32 := by omega
  simp [hlt]

theorem logged_of_exec {p p' : Package} {d : Delta} (hname : p'.name = p.name)
    (hhas : p'.hasDelta = p.hasDelta) (hdelta : p'.delta = p.delta ++ [d]) (hprint : d.Printable)
    (hexec : ∀ q, SameCore p q → ∃ q', execDelta q d.cmd d.target = .ok q' ∧ SameCore p' q') :
    Logged p p' d := by
  refine ⟨hname, hhas, hdelta, hprint, fun q hq ↦ ?_⟩
  obtain ⟨q', hq', hcore⟩ := hexec q hq
  rwa [parseDeltaLine_of_exec hq.name hq']

/-- The same edit of the same section. -/
theorem SameCore.modifySection {p q : Package} (h : SameCore p q) (cmd : Cmd) (sec : Str)
    (option value : Option Str) (i : ℕ) (f : Section → Section) :
    SameCore (modifySection (addDelta false p cmd sec option value) i f)
      (modifySection q i f) where
  name := by simp [h.name]
  sections := by simp [h.sections]
  nSection := by simp [h.nSection]

/-! ## Rename, reorder and add -/

section Operations

variable {p p' : Package} {t : Target} (hok : NamesOk p.sections) (hd : p.hasDelta = true)
include hok hd

theorem uciRename_recorded (hcare : t.meets p true (renameCareful p) = true)
    (h : uciRename false p t.ptr = .ok p') : Recorded p p' := by
  obtain ⟨ptr, hptr, hren⟩ := bind_eq_ok.mp h
  have hexp := expandPtr_expanded hptr
  simp only [Target.meets, hptr] at hcare
  unfold renameAt at hren
  split at hren
  · rename_i i v hi hv
    simp only [renameCareful, hi, hv, Bool.and_eq_true] at hcare
    obtain ⟨hsec, hopt⟩ := names_printable hok hexp.resolved hi
      (hexp.whole (hexp.complete rfl) (by simp [hi]))
    have hplain := expandPtr_plain hok.distinct hptr (by simp [hi]) (some v) true
      fun _ ↦ hexp.complete rfl
    refine .inr ⟨⟨.rename, ptr.sec.getD [], ptr.option, some v⟩, ?_⟩
    have hprint : Delta.Printable ⟨.rename, ptr.sec.getD [], ptr.option, some v⟩ :=
      ⟨hsec, hopt, by simpa using validateText_of_validateStr hcare.1,
        by simpa [checkTuple] using hcare.1⟩
    cases ho : ptr.o with
    | none =>
        simp only [ho, Except.ok.injEq] at hren
        subst hren
        refine logged_of_exec (by simp) (by simp) (by simp [addDelta_delta hd]) hprint fun q hq ↦ ?_
        refine ⟨_, bind_eq_ok.mpr ⟨_, (expandPtr_congr hq.sections _ _).trans hplain, ?_⟩,
          hq.modifySection _ _ _ _ i ({ · with name := v, anonymous := false })⟩
        simp [renameAt, hi, ho]
    | some k =>
        simp only [ho, Except.ok.injEq] at hren
        subst hren
        refine logged_of_exec (by simp) (by simp) (by simp [addDelta_delta hd]) hprint fun q hq ↦ ?_
        refine ⟨_, bind_eq_ok.mpr ⟨_, (expandPtr_congr hq.sections _ _).trans hplain, ?_⟩,
          hq.modifySection _ _ _ _ i (modifyOption · k ({ · with name := v }))⟩
        simp [renameAt, hi, ho]
  · cases hren

omit hok hd in
theorem insertIdx_eraseIdx_self {α : Type} {l : List α} {i : ℕ} {a : α} (h : l[i]? = some a) :
    (l.eraseIdx i).insertIdx i a = l := by
  induction l generalizing i with
  | nil => simp at h
  | cons b l ih =>
      cases i with
      | zero => simpa using h.symm
      | succ i => simpa using ih (by simpa using h)

theorem uciReorderSection_recorded {i : ℕ} {pos : ℤ} (hlo : -2 ^ 31 ≤ pos) (hhi : pos < 2 ^ 31)
    (h : uciReorderSection false p i pos = .ok p') : Recorded p p' := by
  unfold uciReorderSection at h
  split at h
  · cases h
  · rename_i s hs
    simp only [Except.ok.injEq] at h
    subst h
    split_ifs with hj
    · have hsec := hok.valid s (List.mem_of_getElem? hs)
      have htext : validateText (printInt pos) = true := by
        refine List.all_eq_true.mpr fun c hc ↦ ?_
        have hlt : 32 < c.toNat := by
          have hdigit : ∀ c ∈ Nat.toDigits 10 pos.natAbs, 32 < c.toNat := fun c hc ↦
            lt_toNat_of_isAlphanum (by simp [Char.isAlphanum, isDigit_toDigits c hc])
          unfold printInt at hc
          split_ifs at hc
          · rcases List.mem_cons.mp hc with rfl | hc
            · decide
            · exact hdigit c hc
          · exact hdigit c hc
        have hlt' : ¬c.toNat < 32 := by omega
        simp [hlt']
      refine .inr ⟨⟨.reorder, s.name, none, some (printInt pos)⟩, ?_⟩
      refine logged_of_exec (by simp) (by simp) (by simp [addDelta, hd])
        ⟨hsec, rfl, by simpa using htext, by simp [checkTuple]⟩ fun q hq ↦ ?_
      have hlook : lookupPtrSection q false s.name = .ok (some i) := by
        simp only [lookupPtrSection, Bool.false_eq_true, if_false, hq.sections]
        exact congrArg _ (hok.distinct.findIdx?_eq hs)
      have hs' : q.sections[i]? = some s := by rw [hq.sections, hs]
      have hexpand : expandPtr q (Target.ptr ⟨some s.name, none, some (printInt pos), false⟩) true =
          .ok (foundPtr ⟨some s.name, none, some (printInt pos), false⟩ i s) :=
        expandPtr_ok.mpr ⟨lookupPtr_found rfl hlook hs', fun _ ↦ rfl⟩
      have hexec : execDelta q .reorder ⟨some s.name, none, some (printInt pos), false⟩ =
        .ok { q with
          sections := (q.sections.eraseIdx i).insertIdx (setPos (q.sections.eraseIdx i).length pos)
            s } := by
        refine bind_eq_ok.mpr ⟨_, hexpand, ?_⟩
        simp [foundPtr, strtoul_printInt hlo hhi, uciReorderSection, hs']
      exact ⟨_, hexec, by simp [hq.name], by simp [hq.sections], by simp [hq.nSection]⟩
    · -- The section is put back where it was.
      obtain hj : setPos (p.sections.eraseIdx i).length pos = i := not_not.mp hj
      refine .inl ?_
      rw [hj, insertIdx_eraseIdx_self hs]

omit hok in
theorem uciAddSection_recorded {type : Str} (htype : validateType type = true)
    (hn : (anonSection p type).name ∉ p.sections.map Section.name) :
    Recorded p (uciAddSection false p type) := by
  have hsec := validateName_anonSection p type
  have hne := ne_nil_of_validateStr hsec
  refine .inr ⟨⟨.add, (anonSection p type).name, none, some type⟩, ?_⟩
  refine logged_of_exec (by simp [uciAddSection, allocSection])
    (by simp [uciAddSection, allocSection]) (by simp [uciAddSection, allocSection, addDelta, hd])
    ⟨hsec, rfl, by simpa using validateText_of_validateStr htype, by simp [checkTuple]⟩ fun q hq ↦
      ?_
  have hlook : lookupSection q.sections (anonSection p type).name = none := by
    rw [hq.sections]
    exact lookupSection_none hn
  have hset : uciSet true q (Target.ptr ⟨some (anonSection p type).name, none, some type, false⟩) =
      .ok (allocSection q (newSection type (anonSection p type).name), some q.sections.length) := by
    have htype' := ne_nil_of_validateStr htype
    simp [uciSet, expandPtr, lookupPtr, Target.ptr, lookupPtrSection, hlook, Except.bind, setAt,
      fillOption, htype', htype, setSection]
  refine ⟨_, map_eq_ok.mpr ⟨_, hset, rfl⟩, ?_⟩
  have hanon : { newSection type (anonSection p type).name with anonymous := true } =
      anonSection p type := rfl
  refine ⟨by simp [uciAddSection, allocSection, hq.name, Delta.target], ?_,
    by simp [uciAddSection, allocSection, hq.nSection, Delta.target]⟩
  simp only [Delta.target, modifySection_sections, allocSection, uciAddSection, addDelta_sections,
    ← hq.sections]
  rw [modify_concat, hanon]

/-! ## Delete -/

omit hok hd in
theorem deleteAt_element {internal : Bool} (ptr : Ptr) {i : ℕ} (hi : ptr.s = some i)
    (hv : ptr.value = none ∨ ptr.value = some []) :
    deleteAt internal p ptr = .ok (deleteElement internal p ptr i) := by
  unfold deleteAt
  rw [hi]
  simp only
  split
  · rename_i hv'
    simp [hv'] at hv
  · rfl

/-- The delta of an element that is removed has no value. -/
theorem deleteElement_recorded {complete : Bool} {ptr : Ptr} {i : ℕ}
    (hptr : expandPtr p t.ptr complete = .ok ptr) (hi : ptr.s = some i)
    (hc : ptr.complete = true) : Recorded p (deleteElement false p ptr i) := by
  have hexp := expandPtr_expanded hptr
  obtain ⟨hsec, hopt⟩ := names_printable hok hexp.resolved hi (hexp.whole hc (by simp [hi]))
  have hplain := expandPtr_plain hok.distinct hptr (by simp [hi]) none true fun _ ↦ hc
  refine .inr ⟨⟨.remove, ptr.sec.getD [], ptr.option, none⟩, ?_⟩
  have hfields : (deleteElement false p ptr i).name = p.name ∧
      (deleteElement false p ptr i).hasDelta = p.hasDelta ∧
      (deleteElement false p ptr i).delta = p.delta ++
      [⟨.remove, ptr.sec.getD [], ptr.option, none⟩] := by
    unfold deleteElement
    split <;> simp [addDelta_delta hd]
  obtain ⟨hname, hhas, hdelta⟩ := hfields
  refine logged_of_exec hname hhas hdelta ⟨hsec, hopt, rfl, by simp [checkTuple]⟩ fun q hq ↦ ?_
  refine ⟨deleteElement true q { ptr with extended := false, value := none } i,
    bind_eq_ok.mpr ⟨_, (expandPtr_congr hq.sections _ _).trans hplain, ?_⟩, ?_⟩
  · exact deleteAt_element { ptr with extended := false, value := none } hi (.inl rfl)
  · cases ho : ptr.o with
    | none =>
        simp only [deleteElement, ho]
        exact ⟨by simp [hq.name], by simp [hq.sections], by simp [hq.nSection]⟩
    | some k =>
        simp only [deleteElement, ho]
        exact hq.modifySection _ _ _ _ i (freeOption · k)

theorem uciDelete_recorded (hvalue : t.value.all validateText = true)
    (h : uciDelete false p t.ptr = .ok p') : Recorded p p' := by
  obtain ⟨ptr, hptr, hdel⟩ := bind_eq_ok.mp h
  have hexp := expandPtr_expanded hptr
  unfold deleteAt at hdel
  split at hdel
  · cases hdel
  · rename_i i hi
    split at hdel
    · rename_i k name items c v ho hv
      unfold deleteItem at hdel
      split at hdel
      · cases hdel
      · rename_i index hscan
        split_ifs at hdel with hindex
        · obtain rfl := Except.ok.inj hdel
          obtain ⟨hsec, hopt⟩ := names_printable hok hexp.resolved hi
            (hexp.whole (hexp.complete rfl) (by simp [hi]))
          have hplain := expandPtr_plain hok.distinct hptr (by simp [hi]) (some (c :: v)) true
            fun _ ↦ hexp.complete rfl
          have hv' : t.value = some (c :: v) := hexp.value ▸ hv
          refine .inr ⟨⟨.remove, ptr.sec.getD [], ptr.option, some (c :: v)⟩, ?_⟩
          refine logged_of_exec (by simp) (by simp) (by simp [addDelta_delta hd])
            ⟨hsec, hopt, by simpa [hv'] using hvalue, by simp [checkTuple]⟩ fun q hq ↦ ?_
          refine ⟨_, bind_eq_ok.mpr ⟨_, (expandPtr_congr hq.sections _ _).trans hplain, ?_⟩,
            hq.modifySection _ _ _ _ i
              (modifyOption · k ({ · with value := .list (items.eraseIdx index.toNat) }))⟩
          have ho' : ptrOption q { ptr with extended := false, value := some (c :: v) } =
              some (k, ⟨name, .list items⟩) := (ptrOption_congr hq.sections _).trans ho
          unfold deleteAt
          rw [ho']
          simp [hi, deleteItem, hscan, hindex]
        · exact .inl (Except.ok.inj hdel).symm
    · obtain rfl := Except.ok.inj hdel
      exact deleteElement_recorded hok hd hptr hi (hexp.complete rfl)

/-! ## Lists -/

theorem uciAddList_recorded (hcare : t.meets p false addListCareful = true)
    (hoption : t.option.isSome = true) (hvalue : t.value.all validateText = true)
    (h : uciAddList false p t.ptr = .ok p') : Recorded p p' := by
  obtain ⟨ptr, hptr, hadd⟩ := bind_eq_ok.mp h
  have hexp := expandPtr_expanded hptr
  simp only [Target.meets, hptr] at hcare
  unfold addListAt at hadd
  split at hadd
  · rename_i i v hi hv
    obtain ⟨name, hname⟩ := Option.isSome_iff_exists.mp hoption
    have hname' : ptr.option = some name := hexp.option.trans hname
    obtain ⟨s, hs, hsec, -⟩ := hexp.resolved.found i hi
    have hprint : Delta.Printable ⟨.listAdd, ptr.sec.getD [], ptr.option, some v⟩ := by
      refine ⟨by simpa [hsec] using hok.valid s (List.mem_of_getElem? hs), ?_, ?_,
        by simp [checkTuple, hname']⟩
      · by_cases ho : ptr.o = none
        · simpa [addListCareful, ho, hname'] using hcare
        · exact (names_printable hok hexp.resolved hi (.inr ho)).2
      · have hv' : t.value = some v := hexp.value ▸ hv
        simpa [hv'] using hvalue
    have hplain := expandPtr_plain hok.distinct hptr (by simp [hi]) (some v) false (by simp)
    refine .inr ⟨⟨.listAdd, ptr.sec.getD [], ptr.option, some v⟩, ?_⟩
    split at hadd
    · rename_i k name' items ho
      obtain rfl := Except.ok.inj hadd
      refine logged_of_exec (by simp) (by simp) (by simp [addDelta_delta hd]) hprint fun q hq ↦ ?_
      refine ⟨_, bind_eq_ok.mpr ⟨_, (expandPtr_congr hq.sections _ _).trans hplain, ?_⟩,
        hq.modifySection _ _ _ _ i (modifyOption · k ({ · with value := .list (items ++ [v]) }))⟩
      have ho' : ptrOption q { ptr with extended := false, value := some v } =
          some (k, ⟨name', .list items⟩) := (ptrOption_congr hq.sections _).trans ho
      unfold addListAt
      rw [ho']
      simp [hi]
    · rename_i k name' old ho
      obtain rfl := Except.ok.inj hadd
      refine logged_of_exec (by simp) (by simp) (by simp [addDelta_delta hd]) hprint fun q hq ↦ ?_
      refine ⟨_, bind_eq_ok.mpr ⟨_, (expandPtr_congr hq.sections _ _).trans hplain, ?_⟩,
        hq.modifySection _ _ _ _ i fun s ↦ allocList (freeOption s k) (ptr.option.getD []) [old, v]⟩
      have ho' : ptrOption q { ptr with extended := false, value := some v } =
          some (k, ⟨name', .string old⟩) := (ptrOption_congr hq.sections _).trans ho
      unfold addListAt
      rw [ho']
      simp [hi]
    · rename_i ho
      obtain rfl := Except.ok.inj hadd
      refine logged_of_exec (by simp) (by simp) (by simp [addDelta_delta hd]) hprint fun q hq ↦ ?_
      refine ⟨_, bind_eq_ok.mpr ⟨_, (expandPtr_congr hq.sections _ _).trans hplain, ?_⟩,
        hq.modifySection _ _ _ _ i (allocList · (ptr.option.getD []) [v])⟩
      have ho' : ptrOption q { ptr with extended := false, value := some v } = none :=
        (ptrOption_congr hq.sections _).trans ho
      unfold addListAt
      rw [ho']
      simp [hi]
  · cases hadd

theorem uciDelList_recorded (hvalue : t.value.all validateText = true)
    (h : uciDelList false p t.ptr = .ok p') : Recorded p p' := by
  obtain ⟨ptr, hptr, hdel⟩ := bind_eq_ok.mp h
  have hexp := expandPtr_expanded hptr
  unfold delListAt at hdel
  split at hdel
  · rename_i i v hi hv
    split at hdel
    · rename_i k name items ho
      obtain rfl := Except.ok.inj hdel
      obtain ⟨-, -, -, -, hk, -, hname⟩ := ptrOption_some hexp.resolved ho
      obtain ⟨hsec, hopt⟩ := names_printable hok hexp.resolved hi (.inr (by simp [hk]))
      have hplain := expandPtr_plain hok.distinct hptr (by simp [hi]) (some v) false (by simp)
      have hv' : t.value = some v := hexp.value ▸ hv
      refine .inr ⟨⟨.listDel, ptr.sec.getD [], ptr.option, some v⟩, ?_⟩
      refine logged_of_exec (by simp) (by simp) (by simp [addDelta_delta hd])
        ⟨hsec, hopt, by simpa [hv'] using hvalue, by simp [checkTuple, hname]⟩ fun q hq ↦ ?_
      refine ⟨_, bind_eq_ok.mpr ⟨_, (expandPtr_congr hq.sections _ _).trans hplain, ?_⟩,
        hq.modifySection _ _ _ _ i
          (modifyOption · k ({ · with value := .list (items.filter (· != v)) }))⟩
      have ho' : ptrOption q { ptr with extended := false, value := some v } =
          some (k, ⟨name, .list items⟩) := (ptrOption_congr hq.sections _).trans ho
      unfold delListAt
      rw [ho']
      simp [hi]
    · exact .inl (Except.ok.inj hdel).symm
  · cases hdel

/-! ## Set -/

omit hok hd in
theorem expandPtr_again {complete : Bool} {ptr : Ptr} (hptr : expandPtr p t.ptr complete = .ok ptr)
    (hc : ptr.complete = true) : expandPtr p ptr true = .ok ptr := by
  have hdone : ptr.done = true := by
    rcases lookupPtr_cases (expandPtr_ok.mp hptr).1 with ⟨-, rfl⟩ | ⟨-, -, -, rfl⟩ | ⟨i, s, -, rfl⟩
    · rfl
    · rfl
    · rfl
  simp [expandPtr, hdone, hc]

theorem setOption_recorded {ptr : Ptr} {i : ℕ} {name v : Str}
    (hptr : expandPtr p t.ptr false = .ok ptr) (hv : ptr.value = some v) (hv0 : v ≠ [])
    (hname : ptr.option = some name) (hi : ptr.s = some i) (hcare : setCareful ptr = true)
    (hvalue : validateText v = true) : Recorded p (setOption false p ptr i name v) := by
  have hexp := expandPtr_expanded hptr
  have hplain := expandPtr_plain hok.distinct hptr (by simp [hi]) (some v) false (by simp)
  have hprint : Delta.Printable ⟨.change, ptr.sec.getD [], ptr.option, some v⟩ := by
    obtain ⟨s, hs, hsec, -⟩ := hexp.resolved.found i hi
    refine ⟨by simpa [hsec] using hok.valid s (List.mem_of_getElem? hs), ?_, by simpa using hvalue,
      by simp [checkTuple]⟩
    by_cases ho : ptr.o = none
    · simpa [setCareful, hv, hv0, hi, hname, ho] using hcare
    · exact (names_printable hok hexp.resolved hi (.inr ho)).2
  -- The copy takes the same branch.
  have hset : ∀ q, SameCore p q →
      execDelta q .change ⟨some (ptr.sec.getD []), ptr.option, some v, false⟩ =
        .ok (setOption true q { ptr with extended := false, value := some v } i name v) := by
    intro q hq
    refine map_eq_ok.mpr
      ⟨(setOption true q { ptr with extended := false, value := some v } i name v,
      none), bind_eq_ok.mpr ⟨_, (expandPtr_congr hq.sections _ _).trans hplain, ?_⟩, rfl⟩
    have hr : Ptr.Resolved q { ptr with extended := false, value := some v } := by
      refine ⟨fun j hj ↦ ?_, fun hnone ↦ ?_⟩
      · obtain ⟨s, hs, hrest⟩ := hexp.resolved.found j hj
        exact ⟨s, by rw [hq.sections, hs], hrest⟩
      · rw [hq.sections]
        exact hexp.resolved.missing hnone
    unfold setAt
    simp only
    rw [fillOption_eq hr]
    simp [hi, hname, hv0]
  unfold setOption
  split
  · rename_i ho
    refine .inr ⟨⟨.change, ptr.sec.getD [], ptr.option, some v⟩, ?_⟩
    refine logged_of_exec (by simp) (by simp) (by simp [addDelta_delta hd]) hprint fun q hq ↦ ?_
    refine ⟨_, hset q hq, ?_⟩
    have ho' : ptrOption q { ptr with extended := false, value := some v } = none :=
      (ptrOption_congr hq.sections _).trans ho
    unfold setOption
    rw [ho']
    exact hq.modifySection _ _ _ _ i (allocOption · name v)
  · rename_i k o ho
    split_ifs with hsame
    · exact .inl rfl
    · refine .inr ⟨⟨.change, ptr.sec.getD [], ptr.option, some v⟩, ?_⟩
      refine logged_of_exec (by simp) (by simp) (by simp [addDelta_delta hd]) hprint fun q hq ↦ ?_
      refine ⟨_, hset q hq, ?_⟩
      have ho' : ptrOption q { ptr with extended := false, value := some v } = some (k, o) :=
        (ptrOption_congr hq.sections _).trans ho
      unfold setOption
      rw [ho']
      simp only [hsame, if_false]
      exact hq.modifySection _ _ _ _ i fun s ↦ allocOption (freeOption s k) name v

theorem setSection_recorded {ptr : Ptr} {v : Str} (hptr : expandPtr p t.ptr false = .ok ptr)
    (hv : ptr.value = some v) (hv0 : v ≠ []) (hopt : ptr.option = none)
    (htype : validateType v = true) (hcare : setCareful ptr = true) :
    Recorded p (setSection false p ptr v).1 := by
  have hexp := expandPtr_expanded hptr
  have hsec : validateName (ptr.sec.getD []) = true := by
    cases hs : ptr.s with
    | none => simpa [setCareful, hv, hv0, hs] using hcare
    | some i => exact (names_printable hok hexp.resolved hs (.inl hopt)).1
  have hplain := expandPtr_plain hok.distinct hptr (fun _ ↦ hsec) (some v) false (by simp)
  refine .inr ⟨⟨.change, ptr.sec.getD [], none, some v⟩, ?_⟩
  have hfields : (setSection false p ptr v).1.name = p.name ∧
      (setSection false p ptr v).1.hasDelta = p.hasDelta ∧
      (setSection false p ptr v).1.delta = p.delta ++
      [⟨.change, ptr.sec.getD [], none, some v⟩] := by
    unfold setSection
    split <;> simp [addDelta_delta hd, allocSection]
  obtain ⟨hname, hhas, hdelta⟩ := hfields
  refine logged_of_exec hname hhas hdelta
    ⟨hsec, rfl, by simpa using validateText_of_validateStr htype, by simp [checkTuple]⟩ fun q hq ↦
      ?_
  have hsecne : ptr.sec ≠ none := by
    intro hnone
    simp [hnone, validateName, validateStr] at hsec
  have hset : execDelta q .change ⟨some (ptr.sec.getD []), none, some v, false⟩ =
      .ok (setSection true q { ptr with extended := false, value := some v } v).1 := by
    rw [hopt] at hplain
    refine map_eq_ok.mpr ⟨_, bind_eq_ok.mpr ⟨_, (expandPtr_congr hq.sections _ _).trans hplain, ?_⟩,
      rfl⟩
    simp [setAt, fillOption, hopt, hv0, htype, hsecne]
  refine ⟨_, hset, ?_⟩
  cases hs : ptr.s with
  | none =>
      simp only [setSection, hs]
      exact ⟨by simp [allocSection, hq.name], by simp [allocSection, hq.sections],
        by simp [allocSection, hq.nSection]⟩
  | some i =>
      simp only [setSection, hs]
      exact hq.modifySection _ _ _ _ i ({ · with type := v, inplace := false })

theorem uciSet_recorded {last : Option ℕ} (hcare : t.meets p false setCareful = true)
    (hvalue : t.value.all validateText = true) (h : uciSet false p t.ptr = .ok (p', last)) :
    Recorded p p' := by
  obtain ⟨ptr, hptr, hset⟩ := bind_eq_ok.mp h
  have hexp := expandPtr_expanded hptr
  simp only [Target.meets, hptr] at hcare
  rcases setAt_cases hexp.resolved hset with ⟨hv, hc, hdel⟩ | ⟨-, rfl⟩ |
    ⟨v, name, i, hv, hv0, hname, hi, rfl⟩ | ⟨v, hv, hv0, hopt, -, htype, hset⟩
  · -- The empty value removes the element, and is recorded as such.
    unfold uciDelete at hdel
    rw [expandPtr_again hptr hc] at hdel
    change deleteAt false p ptr = .ok p' at hdel
    cases hi : ptr.s with
    | none => simp [deleteAt, hi] at hdel
    | some i =>
        rw [deleteAt_element _ hi (.inr hv), Except.ok.injEq] at hdel
        subst hdel
        exact deleteElement_recorded hok hd hptr hi hc
  · exact .inl rfl
  · have hv' : t.value = some v := hexp.value ▸ hv
    exact setOption_recorded hok hd hptr hv hv0 hname hi hcare (by simpa [hv'] using hvalue)
  · obtain rfl : (setSection false p ptr v).1 = p' := by rw [hset]
    exact setSection_recorded hok hd hptr hv hv0 hopt htype hcare

end Operations

/-! ## A file that is loaded records nothing -/

/-- The parts of a package that an import without merge leaves alone. -/
def frame (p : Package) : Str × Bool × List Delta := (p.name, p.hasDelta, p.delta)

theorem frame_setAt {p p' : Package} {ptr : Ptr} {last : Option ℕ} (hr : ptr.Resolved p)
    (hc : ptr.complete = false) (h : setAt true p ptr = .ok (p', last)) : frame p' = frame p := by
  rcases setAt_cases hr h with ⟨-, hc', -⟩ | ⟨-, rfl⟩ | ⟨v, name, i, -, -, -, -, rfl⟩ |
    ⟨v, -, -, -, -, -, hset⟩
  · simp [hc] at hc'
  · rfl
  · unfold setOption
    split
    · rfl
    · split_ifs <;> rfl
  · obtain rfl : (setSection true p ptr v).1 = p' := by rw [hset]
    unfold setSection
    split <;> rfl

theorem frame_addListAt {p p' : Package} {ptr : Ptr} (h : addListAt true p ptr = .ok p') :
    frame p' = frame p := by
  unfold addListAt at h
  split at h
  · split at h
    all_goals
      obtain rfl := Except.ok.inj h
      rfl
  · cases h

theorem frame_exec {strict : Bool} {p p' : Package} {sec sec' : Option ℕ} {c : Command}
    (h : exec strict false p sec c = .ok (p', sec')) : frame p' = frame p := by
  rcases exec_cases h with rfl | ⟨type, name, -, hconfig⟩ | ⟨list, name, value, i, -, hoption⟩
  · rfl
  · rcases execConfig_cases hconfig with ⟨-, rfl⟩ | ⟨-, s, hr, hset, -⟩
    · rfl
    · exact frame_setAt hr rfl hset
  · obtain ⟨s, o, hr, hadd | ⟨last, hset⟩⟩ := execOption_cases hoption
    · exact frame_addListAt hadd
    · exact frame_setAt hr rfl hset

theorem frame_uciLoad {strict hasDelta : Bool} {name text : Str} {p : Package}
    (h : uciLoad strict hasDelta name text = .ok p) :
    p.name = name ∧ p.hasDelta = hasDelta ∧ p.delta = [] := by
  unfold uciLoad at h
  split_ifs at h
  obtain ⟨st, hst, rfl⟩ := map_eq_ok.mp h
  have := importLoop_invariant (I := fun p ↦ frame p = frame (allocPackage name hasDelta))
    (fun _ _ hexec hp ↦ (frame_exec hexec).trans hp) hst rfl
  simpa [frame, importStart, allocPackage] using this

/-! ## Runs -/

/-- The arguments are right: texts are valid, list operations name an option, renames take a valid
name that is free, positions are of type `int`, types are valid, and generated names are not in
use.  No text is merged. -/
def Op.argsValid (p : Package) : Op → Bool
  | .set t | .delete t => t.value.all validateText
  | .addList t | .delList t => t.option.isSome && t.value.all validateText
  | .rename t => t.meets p true (renameCareful p)
  | .reorder _ pos => decide (-2 ^ 31 ≤ pos) && decide (pos < 2 ^ 31)
  | .addSection type =>
    validateType type && !(p.sections.map Section.name).contains (anonSection p type).name
  | .merge _ _ => false

/-- The names that a call is about to create are valid. -/
def Op.namesValid (p : Package) : Op → Bool
  | .set t => t.meets p false setCareful
  | .addList t => t.meets p false addListCareful
  | _ => true

/-- A successful call whose arguments are right. -/
def ArgsValidStep (p : Package) (op : Op) (p' : Package) : Prop :=
  op.argsValid p = true ∧ Step p op p'

/-- One that creates valid names only. -/
def ValidStep (p : Package) (op : Op) (p' : Package) : Prop :=
  op.namesValid p = true ∧ ArgsValidStep p op p'

theorem ValidStep.careful {p p' : Package} {op : Op} (h : ValidStep p op p') :
    CarefulStep p op p' := by
  obtain ⟨hvalid, hargs, hstep⟩ := h
  refine ⟨?_, hstep⟩
  cases op with
  | set t | addList t => exact hvalid
  | rename t => exact hargs
  | addSection type =>
      simp only [Op.argsValid, Bool.and_eq_true] at hargs
      exact hargs.2
  | merge strict text => cases hargs
  | delete t | delList t | reorder i pos => rfl

theorem ValidStep.recorded {p p' : Package} {op : Op} (hok : NamesOk p.sections)
    (hd : p.hasDelta = true) (h : ValidStep p op p') : Recorded p p' := by
  obtain ⟨hvalid, hargs, hstep⟩ := h
  cases op with
  | set t =>
      obtain ⟨⟨q, last⟩, hq, rfl⟩ := map_eq_ok.mp hstep
      exact uciSet_recorded hok hd hvalid hargs hq
  | delete t => exact uciDelete_recorded hok hd hargs hstep
  | addList t =>
      simp only [Op.argsValid, Bool.and_eq_true] at hargs
      exact uciAddList_recorded hok hd hvalid hargs.1 hargs.2 hstep
  | delList t =>
      simp only [Op.argsValid, Bool.and_eq_true] at hargs
      exact uciDelList_recorded hok hd hargs.2 hstep
  | rename t => exact uciRename_recorded hok hd hargs hstep
  | reorder i pos =>
      simp only [Op.argsValid, Bool.and_eq_true, decide_eq_true_eq] at hargs
      exact uciReorderSection_recorded hok hd hargs.1 hargs.2 hstep
  | addSection type =>
      obtain rfl := Except.ok.inj hstep
      simp only [Op.argsValid, Bool.and_eq_true] at hargs
      exact uciAddSection_recorded hd hargs.1 (by simpa using hargs.2)
  | merge strict text => cases hargs

/-- What holds along a run on a copy of `P`: the deltas recorded so far lead from `P` to the
package as it stands. -/
structure Tracks (P p : Package) : Prop where
  name : p.name = P.name
  hasDelta : p.hasDelta = true
  names : NamesOk p.sections
  printable : ∀ d ∈ p.delta, d.Printable
  replay : SameCore p (replay P.name P p.delta)

theorem Tracks.step {P p p' : Package} {op : Op} (h : Tracks P p) (hstep : ValidStep p op p') :
    Tracks P p' := by
  have hnames := hstep.careful.namesOk h.names
  rcases hstep.recorded h.names h.hasDelta with rfl | ⟨d, hlog⟩
  · exact h
  · refine ⟨hlog.name.trans h.name, hlog.hasDelta.trans h.hasDelta, hnames, ?_, ?_⟩
    · intro d' hd'
      rw [hlog.delta] at hd'
      rcases List.mem_append.mp hd' with hd' | hd'
      · exact h.printable d' hd'
      · exact List.mem_singleton.mp hd' ▸ hlog.printable
    · have hreplay := hlog.replay _ h.replay
      rw [h.name] at hreplay
      rw [hlog.delta]
      simpa [MiniPi.Uci.replay, List.foldl_append] using hreplay

/-- The delta file of a run, carried out on a fresh copy of the package, gives the package in
memory, if the package name fits in the lines of the file and the calls create valid names only. -/
theorem replay_of_run {strict : Bool} {name text : Str} {P p' : Package} {ops : List Op}
    (hload : uciLoad strict true name text = .ok P)
    (hfresh : importCareful strict false (allocPackage name true) text = true)
    (hname : SafeName name) (hrun : Run ValidStep P ops p') :
    SameCore p' (parseDelta (deltaText P.name p'.delta) P) := by
  obtain ⟨hn, hd, hdelta⟩ := frame_uciLoad hload
  have hstart : Tracks P P :=
    ⟨rfl, hd, uciLoad_namesOk hfresh hload, by simp [hdelta],
      by simpa [hdelta, replay] using .refl P⟩
  have hend : Tracks P p' := hrun.invariant (fun _ _ _ h hstep ↦ h.step hstep) hstart
  rw [parseDelta_deltaText (hn ▸ hname) hend.printable]
  exact hend.replay

/-- The rename of a section is replayed. -/
theorem replay_of_run_rename :
    Run ValidStep twoSectionsPackage [.rename ⟨some ['b'], none, some ['d'], false⟩]
    renamedPackage ∧
      SameCore renamedPackage
        (parseDelta (deltaText twoSectionsPackage.name renamedPackage.delta)
          twoSectionsPackage) := by
  obtain ⟨hload, hfresh, -⟩ := load_twoSections
  have hname : SafeName ['n'] := ⟨by decide, by simp, by decide⟩
  have hrun : Run ValidStep twoSectionsPackage [.rename ⟨some ['b'], none, some ['d'], false⟩]
      renamedPackage := .cons ⟨rfl, by decide, rfl⟩ (.nil _)
  exact ⟨hrun, replay_of_run hload hfresh hname hrun⟩

/-- A section that is looked up by its position and not found is created under the text of the
lookup, and the line that records it is not accepted. -/
theorem replay_not_faithful :
    ¬ ∀ (strict : Bool) (name text : Str) (P p' : Package) (ops : List Op),
      uciLoad strict true name text = .ok P →
      importCareful strict false (allocPackage name true) text = true →
      Run ArgsValidStep P ops p' → SameCore p' (parseDelta (deltaText P.name p'.delta) P) := by
  intro h
  obtain ⟨hload, hfresh, -⟩ := load_twoSections
  have hstep : ArgsValidStep twoSectionsPackage
      (.set ⟨some "@foo[5]".toList, none, some "bar".toList, true⟩) _ := ⟨by decide, rfl⟩
  exact absurd (h _ _ _ _ _ _ hload hfresh (.cons hstep (.nil _))).sections (by decide +kernel)

end MiniPi.Uci
