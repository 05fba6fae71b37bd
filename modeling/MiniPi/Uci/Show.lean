import MiniPi.Uci.Types

/-!
# References to sections

`uci show` prints an anonymous section as `@type[index]`, counting the sections of each type in a
table, and `uci_lookup_ptr` finds a section for such a text.  `uci_parse_ptr` cuts the text at the
first `=` and at each `.`, `uci_lookup_ext_section` at the first `[`, and a type may have all of
these.
-/

namespace MiniPi.Uci

/-! ## The printer -/

/-- A reference, as `sprintf` writes it with `"@%s[%d]"`. -/
def extRef (type : Str) (idx : ℤ) : Str := '@' :: (type ++ '[' :: (printInt idx ++ [']']))

/-- The index of the next section of a type in the list `type_list`. -/
def typeIdx (types : List (Str × ℕ)) (type : Str) : ℕ :=
  ((types.find? (·.1 == type)).map Prod.snd).getD 0

/-- `type_list` with the index of a type increased; a new type is put in front. -/
def bumpType (types : List (Str × ℕ)) (type : Str) : List (Str × ℕ) :=
  if types.any (·.1 == type) then types.map fun ti ↦ if ti.1 = type then (ti.1, ti.2 + 1) else ti
  else (type, 1) :: types

/-- `uci_lookup_section_ref`, for the extended output. -/
def lookupSectionRef (types : List (Str × ℕ)) (s : Section) : Str × List (Str × ℕ) :=
  (if s.anonymous then extRef s.type (typeIdx types s.type) else s.name, bumpType types s.type)

/-- The loop of `uci_show_package`: the references, in order. -/
def showRefs (types : List (Str × ℕ)) : List Section → List Str
  | [] => []
  | s :: sections =>
    (lookupSectionRef types s).1 :: showRefs (lookupSectionRef types s).2 sections

/-- `uci_show_package`, which starts with an empty list. -/
def uciShowPackage (p : Package) : List Str := showRefs [] p.sections

/-- The sections of a type. -/
def countType (sections : List Section) (type : Str) : ℕ := sections.countP (·.type == type)

/-! ## The table -/

variable {types : List (Str × ℕ)} {sections : List Section} {i : ℕ} {s : Section} {type type' : Str}

/-- An entry of the list, with its index increased if it is of the type. -/
def bump (type : Str) (ti : Str × ℕ) : Str × ℕ := if ti.1 = type then (ti.1, ti.2 + 1) else ti

theorem find?_map_bump : (types.map (bump type)).find? (·.1 == type') =
    (types.find? (·.1 == type')).map (bump type) := by
  have hkey : ((fun ti : Str × ℕ ↦ ti.1 == type') ∘ bump type) = fun ti ↦ ti.1 == type' := by
    funext ti
    unfold bump
    simp only [Function.comp_apply]
    split_ifs
    · rfl
    · rfl
  rw [List.find?_map, hkey]

theorem typeIdx_bumpType : typeIdx (bumpType types type) type' =
    typeIdx types type' + if type = type' then 1 else 0 := by
  unfold bumpType
  by_cases hany : types.any (·.1 == type) = true
  · rw [if_pos hany]
    unfold typeIdx
    rw [show (fun ti : Str × ℕ ↦ if ti.1 = type then (ti.1, ti.2 + 1) else ti) = bump type from rfl,
      find?_map_bump]
    cases hfind : types.find? (·.1 == type') with
    | none =>
      have hne : type ≠ type' := by
        rintro rfl
        obtain ⟨ti, hti, heq⟩ := List.any_eq_true.mp hany
        exact absurd heq (List.find?_eq_none.mp hfind ti hti)
      rw [if_neg hne]
      rfl
    | some ti =>
      obtain rfl : ti.1 = type' := by simpa using List.find?_some hfind
      simp only [Option.map_some, Option.getD_some, bump, eq_comm]
      split_ifs
      · rfl
      · rfl
  · rw [if_neg hany]
    unfold typeIdx
    by_cases heq : type = type'
    · obtain rfl := heq
      have hnone : types.find? (·.1 == type) = none := by
        rw [List.find?_eq_none]
        exact fun ti hti heq ↦ hany (List.any_eq_true.mpr ⟨ti, hti, heq⟩)
      simp [hnone]
    · rw [List.find?_cons_of_neg (by simpa using heq), if_neg heq]
      rfl

/-- An anonymous section is counted among the sections of its type. -/
theorem showRefs_getElem? (hs : sections[i]? = some s) (hanon : s.anonymous = true) :
    (showRefs types sections)[i]? =
      some (extRef s.type (typeIdx types s.type + countType (sections.take i) s.type)) := by
  induction sections generalizing types i with
  | nil => simp at hs
  | cons s' sections ih =>
    cases i with
    | zero =>
      obtain rfl := Option.some.inj hs
      simp [showRefs, lookupSectionRef, hanon, countType]
    | succ i =>
      rw [List.getElem?_cons_succ] at hs
      rw [showRefs, List.getElem?_cons_succ, ih hs]
      congr 2
      simp only [lookupSectionRef, typeIdx_bumpType, countType, List.take_succ_cons,
        List.countP_cons]
      split_ifs <;> simp_all
      omega

/-! ## Separators -/

/-- A character of a number, or in front of one. -/
theorem notMem_of_strtol {str : Str} {n : ℤ} (h : strtol str = some n) {c : Char}
    (hspace : isspace c = false) (hsign : c ≠ '-' ∧ c ≠ '+') (hdigit : c.isDigit = false) :
    c ∉ str := by
  intro hc
  have hdrop (p : Char → Bool) (hp : p c = false) {l : Str} (hl : c ∈ l) : c ∈ l.dropWhile p := by
    rw [← List.takeWhile_append_dropWhile (p := p) (l := l), List.mem_append] at hl
    refine hl.resolve_left fun htake ↦ ?_
    rw [List.mem_takeWhile_imp htake] at hp
    exact absurd hp (by decide)
  have hne : str ≠ [] := List.ne_nil_of_mem hc
  have hrest : (scanNumber str).2.2 ≠ [] := by
    have hc' := hdrop isspace hspace hc
    unfold scanNumber
    generalize str.dropWhile isspace = t at hc'
    dsimp only
    split
    · rename_i u
      obtain rfl | hc' := List.mem_cons.mp hc'
      · exact absurd rfl hsign.1
      · exact List.ne_nil_of_mem (hdrop _ hdigit hc')
    · rename_i u
      obtain rfl | hc' := List.mem_cons.mp hc'
      · exact absurd rfl hsign.2
      · exact List.ne_nil_of_mem (hdrop _ hdigit hc')
    · exact List.ne_nil_of_mem (hdrop _ hdigit hc')
  unfold strtol at h
  dsimp only at h
  rw [if_neg hne, if_pos (.inr hrest)] at h
  cases h

theorem mem_printInt {n : ℤ} {c : Char} (hc : c ∈ printInt n) : c = '-' ∨ c.isDigit = true := by
  unfold printInt at hc
  split_ifs at hc
  · obtain rfl | hc := List.mem_cons.mp hc
    · exact .inl rfl
    · exact .inr (isDigit_toDigits c hc)
  · exact .inr (isDigit_toDigits c hc)

theorem notMem_printInt {n : ℤ} {c : Char} (hsign : c ≠ '-') (hdigit : c.isDigit = false) :
    c ∉ printInt n := by
  intro hc
  obtain rfl | hc := mem_printInt hc
  · exact hsign rfl
  · rw [hdigit] at hc
    cases hc

/-- An `int` written with `%d` and read with `strtol`, in 32 bits. -/
theorem strtol_printInt (n : ℤ) : strtol (printInt n) = some (clamp n) := by
  have hdigits : Nat.toDigits 10 n.natAbs ≠ [] := Nat.toDigits_ne_nil
  have hne : printInt n ≠ [] := by
    unfold printInt
    split_ifs
    · exact List.cons_ne_nil _ _
    · exact hdigits
  unfold strtol
  rw [scanNumber_printInt]
  dsimp only
  rw [if_neg hne, if_neg (by simp [hdigits]), digitsValue_toDigits]
  congr 2
  by_cases hn : n < 0
  · rw [if_pos (decide_eq_true hn)]
    omega
  · rw [if_neg (by simpa using hn)]
    omega

/-! ## Counting -/

theorem filter_range_getElem? {P : ℕ → Bool} {n : ℕ} (hi : i < n) (hP : P i = true) :
    ((List.range n).filter P)[((List.range i).filter P).length]? = some i := by
  obtain ⟨m, rfl⟩ : ∃ m, n = i + (m + 1) := ⟨n - i - 1, by omega⟩
  have hsplit : List.range (i + (m + 1)) =
      List.range i ++ i :: (List.range m).map fun x ↦ i + (x + 1) := by
    rw [List.range_add, List.range_succ_eq_map]
    simp
  rw [hsplit, List.filter_append, List.getElem?_append_right le_rfl, Nat.sub_self,
    List.filter_cons_of_pos hP]
  rfl

/-- What an extended lookup of a type counts. -/
def isType (sections : List Section) (type : Str) (j : ℕ) : Bool :=
  (sections[j]?.map (·.type)) == some type

theorem length_filter_isType {k : ℕ} (hk : k ≤ sections.length) :
    ((List.range k).filter (isType sections type)).length = countType (sections.take k) type := by
  induction k with
  | zero => rfl
  | succ k ih =>
    have hlt : k < sections.length := hk
    rw [List.range_succ, List.filter_append, List.length_append, ih hlt.le, countType, countType,
      List.take_succ_eq_append_getElem hlt, List.countP_append]
    congr 1
    simp only [isType, List.filter_cons, List.getElem?_eq_getElem hlt, Option.map_some,
      List.countP_cons, List.countP_nil, List.filter_nil]
    by_cases heq : sections[k].type = type
    · simp [heq]
    · simp [heq]

theorem extCandidates_eq (hne : type ≠ []) :
    extCandidates sections type = (List.range sections.length).filter (isType sections type) := by
  unfold extCandidates isType
  cases type with
  | nil => exact absurd rfl hne
  | cons c type => simp

/-- A section is found for its index, counted from either end. -/
theorem extPick_eq_some {found : List ℕ} {k : ℕ} {idx : ℤ} (hnodup : found.Nodup)
    (hk : found[k]? = some i) : extPick found idx = some i ↔ idx = k ∨ idx = k - found.length := by
  have hlt : k < found.length := (List.getElem?_eq_some_iff.mp hk).1
  have huniq (j : ℕ) : found[j]? = some i ↔ j = k := by
    constructor
    · intro hj
      obtain ⟨hj, hij⟩ := List.getElem?_eq_some_iff.mp hj
      obtain ⟨_, hik⟩ := List.getElem?_eq_some_iff.mp hk
      exact (hnodup.getElem_inj_iff).mp (hij.trans hik.symm)
    · rintro rfl
      exact hk
  unfold extPick
  dsimp only
  by_cases hneg : idx < 0
  · rw [if_pos hneg]
    split_ifs with hout
    · exact iff_of_false (by simp) (by omega)
    · rw [huniq]
      omega
  · rw [if_neg hneg, if_neg hneg, huniq]
    omega

/-! ## The lookup -/

variable {p : Package} {idx : ℤ}

/-- The place of a section among those of its type. -/
def place (p : Package) (i : ℕ) (type : Str) : ℕ := countType (p.sections.take i) type

theorem extCandidates_place (hs : p.sections[i]? = some s) (hne : s.type ≠ []) :
    (extCandidates p.sections s.type)[place p i s.type]? = some i ∧
      (extCandidates p.sections s.type).length = countType p.sections s.type ∧
      (extCandidates p.sections s.type).Nodup := by
  have hi : i < p.sections.length := (List.getElem?_eq_some_iff.mp hs).1
  have hP : isType p.sections s.type i = true := by simp [isType, hs]
  rw [extCandidates_eq hne]
  refine ⟨?_, ?_, List.nodup_range.filter _⟩
  · have hget := filter_range_getElem? hi hP
    rwa [length_filter_isType hi.le] at hget
  · rw [length_filter_isType le_rfl, List.take_length]

theorem takeWhile_of_notMem {c : Char} {w rest : Str} (hw : c ∉ w) :
    (w ++ c :: rest).takeWhile (· != c) = w ∧ (w ++ c :: rest).dropWhile (· != c) = c :: rest := by
  have hall : ∀ x ∈ w, (x != c) = true := fun x hx ↦ by
    simp only [bne_iff_ne]
    rintro rfl
    exact hw hx
  simp [List.takeWhile_append_of_pos hall, List.dropWhile_append_of_pos hall]

/-- A reference to a type without `[` is taken apart as it was put together. -/
theorem splitExt_extRef (hopen : '[' ∉ type) :
    splitExt (extRef type idx) = some (type, printInt idx) := by
  have hclose : ']' ∉ printInt idx := notMem_printInt (by decide) (by decide)
  simp only [splitExt, extRef, (takeWhile_of_notMem hopen).1, (takeWhile_of_notMem hopen).2,
    (takeWhile_of_notMem hclose).1, (takeWhile_of_notMem hclose).2]

/-- The index of a reference to a type with `[` is no number. -/
theorem lookupExtSection_of_mem (hopen : '[' ∈ type) :
    lookupExtSection p (extRef type idx) = .error .inval := by
  obtain ⟨a, b, rfl, ha⟩ := List.eq_append_cons_of_mem hopen
  have htext : extRef (a ++ '[' :: b) idx =
      '@' :: (a ++ '[' :: (b ++ '[' :: (printInt idx ++ [']']))) := by
    simp [extRef]
  have hstrtol (rest : Str) : strtol (b ++ '[' :: rest) = none := by
    cases hn : strtol (b ++ '[' :: rest) with
    | none => rfl
    | some n =>
      have hmem := notMem_of_strtol hn (c := '[') (by decide) (by decide) (by decide)
      exact absurd (List.mem_append_right b List.mem_cons_self) hmem
  have hclose : ']' ∉ '[' :: printInt idx := by
    rw [List.mem_cons, not_or]
    exact ⟨by decide, notMem_printInt (by decide) (by decide)⟩
  unfold lookupExtSection
  rw [htext]
  simp only [splitExt, (takeWhile_of_notMem ha).1, (takeWhile_of_notMem ha).2]
  by_cases hb : ']' ∈ b
  · obtain ⟨c, d, rfl, hc⟩ := List.eq_append_cons_of_mem hb
    rw [List.append_assoc, List.cons_append, (takeWhile_of_notMem hc).2]
    cases d <;> rfl
  · have hb' : ']' ∉ b ++ '[' :: printInt idx := by
      rw [List.mem_append, not_or]
      exact ⟨hb, hclose⟩
    have hassoc : b ++ '[' :: (printInt idx ++ [']']) = (b ++ '[' :: printInt idx) ++ [']'] := by
      simp
    rw [hassoc, (takeWhile_of_notMem hb').1, (takeWhile_of_notMem hb').2]
    dsimp only
    rw [hstrtol]

/-- What a reference to a type without `[` is looked up as. -/
theorem lookupExtSection_extRef (htype : validateType type = true) (hopen : '[' ∉ type) :
    lookupExtSection p (extRef type idx) =
      .ok (extPick (extCandidates p.sections type) (clamp idx)) := by
  unfold lookupExtSection
  rw [splitExt_extRef hopen]
  dsimp only
  rw [strtol_printInt]
  dsimp only
  rw [htype]
  simp

/-- A reference to a type without `[` is found for an index that `strtol` keeps. -/
theorem lookupExtSection_iff (hs : p.sections[i]? = some s) (htype : validateType s.type = true) :
    (lookupExtSection p (extRef s.type (place p i s.type)) = .ok (some i) ∧
      lookupExtSection p (extRef s.type (place p i s.type - countType p.sections s.type)) =
        .ok (some i)) ↔
      '[' ∉ s.type ∧ place p i s.type < 2 ^ 31 ∧
        countType p.sections s.type ≤ place p i s.type + 2 ^ 31 := by
  by_cases hopen : '[' ∈ s.type
  · rw [lookupExtSection_of_mem hopen]
    exact iff_of_false (by simp) fun h ↦ h.1 hopen
  have hne : s.type ≠ [] := by
    intro hnil
    rw [hnil] at htype
    cases htype
  obtain ⟨hget, hlen, hnodup⟩ := extCandidates_place hs hne
  have hlt : place p i s.type < countType p.sections s.type := by
    rw [← hlen]
    exact (List.getElem?_eq_some_iff.mp hget).1
  rw [lookupExtSection_extRef htype hopen, lookupExtSection_extRef htype hopen, Except.ok.injEq,
    Except.ok.injEq, extPick_eq_some hnodup hget, extPick_eq_some hnodup hget, hlen]
  unfold clamp
  generalize place p i s.type = k at hlt
  generalize countType p.sections s.type = n at hlt
  constructor
  · rintro ⟨hpos, hneg⟩
    refine ⟨hopen, ?_, ?_⟩
    · omega
    · omega
  · rintro ⟨-, hk, hn⟩
    refine ⟨.inl ?_, .inr ?_⟩
    · omega
    · omega

/-! ## The whole text -/

/-- `uci_lookup_ptr` with extended lookup, for a text that names the package: the section it
finds. -/
def lookupText (p : Package) (str : Str) : Option ℕ :=
  match parsePtr str with
  | .error _ => none
  | .ok (package, t) =>
    if package = p.name then
      match lookupPtr p t.ptr with
      | .error _ => none
      | .ok ptr => ptr.s
    else none

/-- A character that `uci_parse_ptr` does not cut at. -/
def uncut (c : Char) : Bool := c != '.' && c != '='

/-- The text up to the first cut is a reference to a section among those of all types, and it is not
an error to have the rest behind it. -/
structure Positional (p : Package) (i : ℕ) (type : Str) : Prop where
  cut : ∃ k idx, type.takeWhile uncut = '[' :: (k ++ [']']) ∧ ']' ∉ k ∧ strtol k = some idx ∧
    extPick (List.range p.sections.length) idx = some i
  rest : (∃ v, type.dropWhile uncut = '=' :: v) ∨
    ∃ o v, type.dropWhile uncut = '.' :: (o ++ '=' :: v) ∧ validateName o = true

/-- What is asked of a package and a section. -/
def Addressable (p : Package) (i : ℕ) (s : Section) : Prop :=
  '.' ∉ p.name ∧ '=' ∉ p.name ∧
    (('.' ∉ s.type ∧ '=' ∉ s.type ∧ '[' ∉ s.type ∧ place p i s.type < 2 ^ 31 ∧
      countType p.sections s.type ≤ place p i s.type + 2 ^ 31) ∨ Positional p i s.type)

theorem strsep_fst_notMem (sep : Char) (str : Str) : sep ∉ (strsep sep str).1 := by
  intro hmem
  exact absurd (List.mem_takeWhile_imp hmem) (by simp)

theorem checkPtr_fst {package package' : Str} {sec option value : Option Str} {t : Target}
    (h : checkPtr package sec option value = .ok (package', t)) : package' = package := by
  unfold checkPtr at h
  split_ifs at h
  exact (congrArg Prod.fst (Except.ok.inj h)).symm

theorem parsePtr_package {str package : Str} {t : Target} (h : parsePtr str = .ok (package, t)) :
    '.' ∉ package ∧ '=' ∉ package := by
  have hdot := strsep_fst_notMem '.' (strsep '=' str).1
  have heq : '=' ∉ (strsep '.' (strsep '=' str).1).1 := fun hmem ↦
    strsep_fst_notMem '=' str ((List.takeWhile_sublist _).mem hmem)
  have hfst : package = (strsep '.' (strsep '=' str).1).1 := by
    unfold parsePtr at h
    dsimp only at h
    split at h
    · rename_i heq'
      rw [heq', checkPtr_fst h]
    · rename_i heq'
      rw [heq']
      split at h
      · exact checkPtr_fst h
      · split at h
        · exact checkPtr_fst h
        · cases h
  rw [hfst]
  exact ⟨hdot, heq⟩

theorem lookupText_of_mem {str : Str} (hname : '.' ∈ p.name ∨ '=' ∈ p.name) :
    lookupText p str = none := by
  unfold lookupText
  split
  · rfl
  · rename_i package t hparse
    obtain ⟨hdot, heq⟩ := parsePtr_package hparse
    rw [if_neg]
    rintro rfl
    exact hname.elim hdot heq

variable {sec : Str} {option value : Option Str}

/-- A text whose parts are known. -/
theorem lookupText_of_parsePtr {str : Str}
    (hparse : parsePtr str = checkPtr p.name (some ('@' :: sec)) option value)
    (hname : validatePackage p.name = true) (hoption : option.all validateName = true)
    (hvalue : value.all validateText = true) :
    lookupText p str = some i ↔ lookupExtSection p ('@' :: sec) = .ok (some i) := by
  have hcheck : checkPtr p.name (some ('@' :: sec)) option value =
      .ok (p.name, ⟨some ('@' :: sec), option, value, true⟩) := by
    simp [checkPtr, hname, hoption, hvalue, validateName_at]
  unfold lookupText
  rw [hparse, hcheck]
  dsimp only
  rw [if_pos rfl]
  have hsec : lookupPtrSection p true ('@' :: sec) = lookupExtSection p ('@' :: sec) := rfl
  cases hl : lookupExtSection p ('@' :: sec) with
  | error e => simp [lookupPtr, Target.ptr, hsec, hl]
  | ok r =>
    cases r with
    | none => simp [lookupPtr, Target.ptr, hsec, hl]
    | some j =>
      obtain ⟨s, hs, -⟩ := lookupPtrSection_some (hsec.trans hl)
      rw [lookupPtr_found rfl (hsec.trans hl) hs]
      simp [foundPtr]

theorem lookupText_of_error {str : Str} {e : Err} (hparse : parsePtr str = .error e) :
    lookupText p str = none := by
  unfold lookupText
  rw [hparse]

theorem lookupText_checkPtr_error {str : Str}
    (hparse : parsePtr str = checkPtr p.name (some ('@' :: sec)) option value)
    (hoption : option.all validateName = false) : lookupText p str = none := by
  refine lookupText_of_error (e := .parse) ?_
  rw [hparse, checkPtr, hoption]
  simp

/-! ## Where a reference is cut -/

/-- The end of a reference. -/
def extIdx (idx : ℤ) : Str := '[' :: (printInt idx ++ [']'])

theorem extRef_eq (type : Str) (idx : ℤ) : extRef type idx = '@' :: (type ++ extIdx idx) := rfl

theorem notMem_extIdx {c : Char} (hc : c = '.' ∨ c = '=') : c ∉ extIdx idx := by
  have hdigits : c ∉ printInt idx := by
    obtain rfl | rfl := hc
    · exact notMem_printInt (by decide) (by decide)
    · exact notMem_printInt (by decide) (by decide)
  unfold extIdx
  obtain rfl | rfl := hc
  · simpa using hdigits
  · simpa using hdigits

theorem notMem_at {c : Char} {w : Str} (hc : c = '.' ∨ c = '=') (hw : c ∉ w) : c ∉ '@' :: w := by
  obtain rfl | rfl := hc
  · simpa using hw
  · simpa using hw

section Cuts

variable {name v₀ v o r : Str} (hdot : '.' ∉ name) (heq : '=' ∉ name)
include hdot heq

theorem parsePtr_uncut (htype : '.' ∉ type ∧ '=' ∉ type) :
    parsePtr (name ++ '.' :: extRef type idx) =
    checkPtr name (some (extRef type idx)) none none := by
  have hdot' : '.' ∉ extRef type idx := notMem_at (.inl rfl) (by
    rw [List.mem_append, not_or]
    exact ⟨htype.1, notMem_extIdx (.inl rfl)⟩)
  have heq' : '=' ∉ extRef type idx := notMem_at (.inr rfl) (by
    rw [List.mem_append, not_or]
    exact ⟨htype.2, notMem_extIdx (.inr rfl)⟩)
  have hwhole : '=' ∉ name ++ '.' :: extRef type idx := by
    rw [List.mem_append, List.mem_cons, not_or, not_or]
    exact ⟨heq, by decide, heq'⟩
  simp only [parsePtr, strsep_self hwhole, strsep_append hdot, strsep_self hdot']

theorem parsePtr_value (hv₀ : '.' ∉ v₀ ∧ '=' ∉ v₀) (t : Str) :
    parsePtr (name ++ '.' :: '@' :: (v₀ ++ '=' :: t)) =
      checkPtr name (some ('@' :: v₀)) none (some t) := by
  have hwhole : '=' ∉ name ++ '.' :: '@' :: v₀ := by
    rw [List.mem_append, List.mem_cons, not_or, not_or]
    exact ⟨heq, by decide, notMem_at (.inr rfl) hv₀.2⟩
  have hassoc : name ++ '.' :: '@' :: (v₀ ++ '=' :: t) = (name ++ '.' :: '@' :: v₀) ++
      '=' :: t := by
    simp
  simp only [parsePtr, hassoc, strsep_append hwhole, strsep_append hdot,
    strsep_self (notMem_at (.inl rfl) hv₀.1)]

/-- The option, and the value if there is one. -/
theorem parsePtr_option (hv₀ : '.' ∉ v₀ ∧ '=' ∉ v₀) {str : Str}
    (hsplit : strsep '=' str = (o, value)) :
    parsePtr (name ++ '.' :: '@' :: (v₀ ++ '.' :: str)) =
      if '.' ∈ o then .error .parse else checkPtr name (some ('@' :: v₀)) (some o) value := by
  have hall : ∀ c ∈ name ++ '.' :: '@' :: (v₀ ++ ['.']), (c != '=') = true := by
    intro c hc
    simp only [bne_iff_ne]
    rintro rfl
    simp [heq, hv₀.2] at hc
  have hassoc : name ++ '.' :: '@' :: (v₀ ++ '.' :: str) = (name ++ '.' :: '@' :: (v₀ ++ ['.'])) ++
      str := by
    simp
  have hvalue : strsep '=' (name ++ '.' :: '@' :: (v₀ ++ '.' :: str)) =
      (name ++ '.' :: '@' :: (v₀ ++ '.' :: o), value) := by
    unfold strsep at hsplit ⊢
    obtain ⟨ho, hv⟩ := Prod.mk.inj hsplit
    rw [hassoc, List.takeWhile_append_of_pos hall, List.dropWhile_append_of_pos hall, ho, hv]
    simp
  have hsec : strsep '.' ('@' :: (v₀ ++ '.' :: o)) = ('@' :: v₀, some o) :=
    strsep_append (notMem_at (.inl rfl) hv₀.1) o
  simp only [parsePtr, hvalue, strsep_append hdot, hsec]
  by_cases ho : '.' ∈ o
  · obtain ⟨a, b, rfl, ha⟩ := List.eq_append_cons_of_mem ho
    rw [if_pos ho, strsep_append ha]
  · rw [if_neg ho, strsep_self ho]

end Cuts

/-- A section that a text without its whole type refers to is counted among all sections. -/
theorem lookupExtSection_cut (hs : p.sections[i]? = some s) (hlt : sec.length < s.type.length) :
    lookupExtSection p ('@' :: sec) = .ok (some i) ↔
      ∃ k idx, sec = '[' :: (k ++ [']']) ∧ ']' ∉ k ∧ strtol k = some idx ∧
        extPick (List.range p.sections.length) idx = some i := by
  have hrange : extCandidates p.sections [] = List.range p.sections.length := by
    simp [extCandidates]
  constructor
  · intro hl
    by_cases hopen : '[' ∈ sec
    swap
    · have hnone : splitExt ('@' :: sec) = none := by
        have hall : sec.dropWhile (· != '[') = [] := by
          rw [List.dropWhile_eq_nil_iff]
          intro c hc
          simp only [bne_iff_ne]
          rintro rfl
          exact hopen hc
        simp only [splitExt, hall]
      simp [lookupExtSection, hnone] at hl
    obtain ⟨a, b, rfl, ha⟩ := List.eq_append_cons_of_mem hopen
    by_cases hclose : ']' ∈ b
    swap
    · have hnone : splitExt ('@' :: (a ++ '[' :: b)) = none := by
        have hall : b.dropWhile (· != ']') = [] := by
          rw [List.dropWhile_eq_nil_iff]
          intro c hc
          simp only [bne_iff_ne]
          rintro rfl
          exact hclose hc
        simp only [splitExt, (takeWhile_of_notMem ha).2, hall]
      simp [lookupExtSection, hnone] at hl
    obtain ⟨k, d, rfl, hk⟩ := List.eq_append_cons_of_mem hclose
    have hsplit : splitExt ('@' :: (a ++ '[' :: (k ++ ']' :: d))) = if d = [] then some (a, k)
        else none := by
      simp only [splitExt, (takeWhile_of_notMem ha).1, (takeWhile_of_notMem ha).2,
        (takeWhile_of_notMem hk).1, (takeWhile_of_notMem hk).2]
      cases d <;> rfl
    by_cases hd : d = []
    swap
    · rw [if_neg hd] at hsplit
      simp [lookupExtSection, hsplit] at hl
    rw [if_pos hd] at hsplit
    obtain rfl := hd
    unfold lookupExtSection at hl
    rw [hsplit] at hl
    dsimp only at hl
    cases hidx : strtol k with
    | none => simp [hidx] at hl
    | some idx =>
      rw [hidx] at hl
      dsimp only at hl
      split_ifs at hl with hvalid
      have hpick := Except.ok.inj hl
      have ha' : a = [] := by
        by_contra hne
        have hmem := mem_of_extPick hpick
        rw [extCandidates_eq hne, List.mem_filter, isType, hs] at hmem
        have htype : s.type = a := by simpa using hmem.2
        rw [htype, List.length_append] at hlt
        omega
      subst ha'
      rw [hrange] at hpick
      exact ⟨k, idx, rfl, hk, hidx, hpick⟩
  · rintro ⟨k, idx, rfl, hk, hidx, hpick⟩
    have hsplit : splitExt ('@' :: '[' :: (k ++ [']'])) = some ([], k) := by
      have htake := @takeWhile_of_notMem _ _ [] hk
      simp [splitExt, htake.1, htake.2]
    unfold lookupExtSection
    rw [hsplit]
    dsimp only
    rw [hidx, hrange]
    exact congrArg Except.ok hpick

theorem validateText_extIdx {v : Str} (hv : ∀ c ∈ v, validChar false false c = true) :
    validateText (v ++ extIdx idx) = true := by
  unfold validateText
  rw [List.all_eq_true]
  intro c hc
  have hlow : ¬c.toNat < 32 := by
    rw [List.mem_append] at hc
    obtain hc | hc := hc
    · have := lt_toNat_of_validChar (hv c hc)
      omega
    · rw [extIdx, List.mem_cons, List.mem_append, List.mem_singleton] at hc
      obtain rfl | hc | rfl := hc
      · decide
      · obtain rfl | hdigit := mem_printInt hc
        · decide
        · have := lt_toNat_of_isAlphanum (show c.isAlphanum =
            true by simp [Char.isAlphanum, hdigit])
          omega
      · decide
  simp [hlow]

theorem mem_of_validateType (htype : validateType type = true) :
    ∀ c ∈ type, validChar false false c = true := by
  simp only [validateType, validateStr, Bool.and_eq_true, List.all_eq_true] at htype
  exact htype.2

/-- A type with a cut is found only by its place among all sections. -/
theorem lookupText_cut (hload : validatePackage p.name = true) (hdot : '.' ∉ p.name)
    (heq : '=' ∉ p.name) (hs : p.sections[i]? = some s) (htype : validateType s.type = true)
    (hcut : ¬('.' ∉ s.type ∧ '=' ∉ s.type)) :
    lookupText p (p.name ++ '.' :: extRef s.type idx) = some i ↔ Positional p i s.type := by
  have hsplit := List.takeWhile_append_dropWhile (p := uncut) (l := s.type)
  have hplain : ∀ c ∈ s.type.takeWhile uncut, c ≠ '.' ∧ c ≠ '=' := fun c hc ↦ by
    simpa [uncut] using List.mem_takeWhile_imp hc
  have hv₀ : '.' ∉ s.type.takeWhile uncut ∧ '=' ∉ s.type.takeWhile uncut :=
    ⟨fun h ↦ (hplain _ h).1 rfl, fun h ↦ (hplain _ h).2 rfl⟩
  have hvalid := mem_of_validateType htype
  cases hrest : s.type.dropWhile uncut with
  | nil =>
    rw [hrest, List.append_nil] at hsplit
    exact absurd (hsplit ▸ hv₀) hcut
  | cons d r =>
    have hd : d = '.' ∨ d = '=' := by
      have hhead := List.head_dropWhile_not uncut (by rw [hrest]; exact List.cons_ne_nil d r)
      simp only [hrest, List.head_cons, uncut] at hhead
      simpa [imp_iff_not_or] using hhead
    rw [hrest] at hsplit
    have hr : ∀ c ∈ r, validChar false false c = true := fun c hc ↦
      hvalid c (hsplit ▸ List.mem_append_right _ (List.mem_cons_of_mem d hc))
    have hlt : (s.type.takeWhile uncut).length < s.type.length := by
      have hlen := congrArg List.length hsplit
      rw [List.length_append, List.length_cons] at hlen
      omega
    have htext : extRef s.type idx = '@' :: (s.type.takeWhile uncut ++ d :: (r ++ extIdx idx)) := by
      rw [extRef_eq]
      conv_lhs => rw [← hsplit]
      simp
    have hiff := lookupExtSection_cut hs hlt
    rw [htext]
    obtain rfl | rfl := hd
    · by_cases hval : '=' ∈ r
      · obtain ⟨o, v, rfl, ho⟩ := List.eq_append_cons_of_mem hval
        have hval' : strsep '=' (o ++ '=' :: v ++ extIdx idx) = (o, some (v ++ extIdx idx)) := by
          rw [List.append_assoc, List.cons_append, strsep_append ho]
        have hparse := parsePtr_option hdot heq hv₀ hval'
        by_cases hname : validateName o = true
        · rw [if_neg (notMem_of_validateName hname (by decide))] at hparse
          rw [lookupText_of_parsePtr hparse hload (by simpa using hname) (by
            simpa using validateText_extIdx fun c hc ↦
              hr c (List.mem_append_right o (List.mem_cons_of_mem _ hc))), hiff]
          exact ⟨fun h ↦ ⟨h, .inr ⟨o, v, hrest, hname⟩⟩, fun h ↦ h.cut⟩
        · have hnone : lookupText p (p.name ++ '.' :: '@' :: (s.type.takeWhile uncut ++
              '.' :: (o ++ '=' :: v ++ extIdx idx))) = none := by
            by_cases ho' : '.' ∈ o
            · rw [if_pos ho'] at hparse
              exact lookupText_of_error hparse
            · rw [if_neg ho'] at hparse
              exact lookupText_checkPtr_error hparse (by simpa using hname)
          rw [hnone]
          refine iff_of_false (by simp) fun h ↦ ?_
          obtain ⟨v', hv'⟩ | ⟨o', v', hv', hname'⟩ := h.rest
          · rw [hrest] at hv'
            exact absurd (List.cons.inj hv').1 (by decide)
          · rw [hrest] at hv'
            have heq' := (List.cons.inj hv').2
            have ho' : '=' ∉ o' := notMem_of_validateName hname' (by decide)
            have hoo := congrArg (List.takeWhile (· != '=')) heq'
            rw [(takeWhile_of_notMem ho).1, (takeWhile_of_notMem ho').1] at hoo
            exact hname (hoo ▸ hname')
      · have hwhole : '=' ∉ r ++ extIdx idx := by
          rw [List.mem_append, not_or]
          exact ⟨hval, notMem_extIdx (.inr rfl)⟩
        have hparse := parsePtr_option hdot heq hv₀ (strsep_self hwhole)
        have hname : validateName (r ++ extIdx idx) = false := by
          by_contra hname
          rw [Bool.not_eq_false] at hname
          exact notMem_of_validateName hname (c := '[') (by decide)
            (List.mem_append_right r List.mem_cons_self)
        have hnone : lookupText p (p.name ++ '.' :: '@' :: (s.type.takeWhile uncut ++
            '.' :: (r ++ extIdx idx))) = none := by
          by_cases ho' : '.' ∈ r ++ extIdx idx
          · rw [if_pos ho'] at hparse
            exact lookupText_of_error hparse
          · rw [if_neg ho'] at hparse
            exact lookupText_checkPtr_error hparse (by simpa using hname)
        rw [hnone]
        refine iff_of_false (by simp) fun h ↦ ?_
        obtain ⟨v', hv'⟩ | ⟨o', v', hv', -⟩ := h.rest
        · rw [hrest] at hv'
          exact absurd (List.cons.inj hv').1 (by decide)
        · rw [hrest] at hv'
          refine hval ?_
          rw [(List.cons.inj hv').2]
          exact List.mem_append_right o' List.mem_cons_self
    · have hparse := parsePtr_value hdot heq hv₀ (r ++ extIdx idx)
      rw [lookupText_of_parsePtr hparse hload rfl (by simpa using validateText_extIdx hr), hiff]
      exact ⟨fun h ↦ ⟨h, .inl ⟨r, hrest⟩⟩, fun h ↦ h.cut⟩

/-- An anonymous section is shown with its place among the sections of its type, and this reference
and the one that counts from the end lead to it if and only if it is addressable. -/
theorem uciShowPackage_lookup_iff {strict hasDelta : Bool} {name text : Str} {p : Package}
    (hload : uciLoad strict hasDelta name text = .ok p) {i : ℕ} {s : Section}
    (hs : p.sections[i]? = some s) (hanon : s.anonymous = true) :
    (uciShowPackage p)[i]? = some (extRef s.type (place p i s.type)) ∧
      ((lookupText p (p.name ++ '.' :: extRef s.type (place p i s.type)) = some i ∧
        lookupText p (p.name ++ '.' ::
          extRef s.type (place p i s.type - countType p.sections s.type)) = some i) ↔
        Addressable p i s) := by
  obtain ⟨hvalid, htypes⟩ := uciLoad_typesOk hload
  rw [← (frame_uciLoad hload).1] at hvalid
  have htype := htypes s (List.mem_of_getElem? hs)
  constructor
  · rw [uciShowPackage, showRefs_getElem? hs hanon]
    simp [typeIdx, place]
  rw [Addressable]
  by_cases hname : '.' ∈ p.name ∨ '=' ∈ p.name
  · rw [lookupText_of_mem hname]
    exact iff_of_false (by simp) fun h ↦ hname.elim h.1 h.2.1
  obtain ⟨hdot, heq⟩ := not_or.mp hname
  by_cases hcut : '.' ∉ s.type ∧ '=' ∉ s.type
  · have hnot : ¬Positional p i s.type := by
      intro h
      have hall : s.type.dropWhile uncut = [] := by
        rw [List.dropWhile_eq_nil_iff]
        intro c hc
        simp only [uncut, Bool.and_eq_true, bne_iff_ne]
        exact ⟨fun h ↦ hcut.1 (h ▸ hc), fun h ↦ hcut.2 (h ▸ hc)⟩
      obtain ⟨v, hv⟩ | ⟨o, v, hv, -⟩ := h.rest
      · simp [hall] at hv
      · simp [hall] at hv
    rw [lookupText_of_parsePtr (parsePtr_uncut hdot heq hcut) hvalid rfl rfl,
      lookupText_of_parsePtr (parsePtr_uncut hdot heq hcut) hvalid rfl rfl]
    have hiff := lookupExtSection_iff hs htype
    refine hiff.trans ⟨fun h ↦ ⟨hdot, heq, .inl ⟨hcut.1, hcut.2, h⟩⟩, ?_⟩
    rintro ⟨-, -, h | h⟩
    · exact h.2.2
    · exact absurd h hnot
  · rw [lookupText_cut hvalid hdot heq hs htype hcut, lookupText_cut hvalid hdot heq hs htype hcut,
      and_self]
    refine ⟨fun h ↦ ⟨hdot, heq, .inr h⟩, ?_⟩
    rintro ⟨-, -, h | h⟩
    · exact absurd ⟨h.1, h.2.1⟩ hcut
    · exact h

/-- A file with sections of the types `a`, `b` and `a.b`. -/
def threeTypes : Str := "config a\nconfig b\nconfig a\nconfig a.b\n".toList

/-- The second section of type `a`. -/
theorem uciShowPackage_lookup_iff_second : ∃ p s, uciLoad true true ['n'] threeTypes = .ok p ∧
    p.sections[2]? = some s ∧ (uciShowPackage p)[2]? = some (extRef s.type (place p 2 s.type)) ∧
      ((lookupText p (p.name ++ '.' :: extRef s.type (place p 2 s.type)) = some 2 ∧
        lookupText p (p.name ++ '.' ::
          extRef s.type (place p 2 s.type - countType p.sections s.type)) = some 2) ↔
        Addressable p 2 s) := by
  have hloads : ∃ p, uciLoad true true ['n'] threeTypes = .ok p := by
    have hok : (uciLoad true true ['n'] threeTypes).toOption.isSome = true := by decide +kernel
    cases hload : uciLoad true true ['n'] threeTypes with
    | error e => simp [hload, Except.toOption] at hok
    | ok p => exact ⟨p, rfl⟩
  obtain ⟨p, hload⟩ := hloads
  have hanon : ((uciLoad true true ['n'] threeTypes).toOption.bind fun p ↦
      p.sections[2]?.map (·.anonymous)) = some true := by decide +kernel
  rw [hload] at hanon
  obtain ⟨s, hs, hsanon⟩ := Option.map_eq_some_iff.mp hanon
  exact ⟨p, s, hload, hs, uciShowPackage_lookup_iff hload hs hsanon⟩

/-- The section of type `a.b` is shown as `@a.b[0]`, and nothing is found for that. -/
theorem not_uciShowPackage_lookup : ((uciLoad true true ['n'] threeTypes).toOption.map fun p ↦
    ((uciShowPackage p)[3]?, lookupText p (p.name ++ '.' :: extRef "a.b".toList 0))) =
      some (some (extRef "a.b".toList 0), none) := by
  decide +kernel

end MiniPi.Uci
