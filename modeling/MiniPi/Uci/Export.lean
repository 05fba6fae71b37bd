import Mathlib.Logic.Relation
import MiniPi.Uci.Quote
import MiniPi.Uci.Names

/-!
# Export

`uci_export_package`, and what `uci_import` makes of the lines it writes.
-/

namespace MiniPi.Uci

open Lib

/-! ## The writer -/

/-- An `option` or `list` line. -/
def exportLine (k : Keyword) (name value : Str) : Str :=
  '\t' :: (k.word ++ ' ' :: (uciEscape name ++ ' ' :: (quoted value ++ ['\n'])))

/-- The lines of an option. -/
def exportOption (o : Opt) : Str :=
  match o.value with
  | .string v => exportLine .option o.name v
  | .list items => items.flatMap (exportLine .list o.name)

/-- What stands between the type of a section and its options. -/
def exportName (flag : Bool) (s : Section) : Str :=
  if !s.anonymous || flag then ' ' :: (quoted s.name ++ ['\n']) else ['\n']

/-- The lines of a section; `flag` is `UCI_FLAG_EXPORT_NAME`. -/
def exportSection (flag : Bool) (s : Section) : Str :=
  '\n' :: (Keyword.config.word ++ ' ' :: (uciEscape s.type ++ (exportName flag s ++
    s.options.flatMap exportOption)))

/-- The header line. -/
def exportHeader (header : Bool) (p : Package) : Str :=
  if header then Keyword.package.word ++ ' ' :: (uciEscape p.name ++ ['\n']) else []

/-- `uci_export_package`. -/
def exportPackage (header flag : Bool) (p : Package) : Str :=
  exportHeader header p ++ (p.sections.flatMap (exportSection flag) ++ ['\n'])

/-! ## Reading a line -/

/-- The import gets from one context to another. -/
def Reads (strict merge : Bool) : ImportSt → ImportSt → Prop :=
  Relation.ReflTransGen fun st st' ↦ ¬st.Done ∧ importStep strict merge st = .ok st'

/-- The loop of the import follows the steps to their end. -/
theorem importLoop_of_reads {strict merge : Bool} {st st' : ImportSt}
    (h : Reads strict merge st st') {n : ℕ} (hn : importTurns st.lex ≤ n) :
    ∃ m, importTurns st'.lex ≤ m ∧
      importLoop strict merge n st = importLoop strict merge m st' := by
  induction h using Relation.ReflTransGen.head_induction_on generalizing n with
  | refl => exact ⟨n, hn, rfl⟩
  | head hstep _ ih =>
      obtain ⟨hd, hs⟩ := hstep
      have hlt := importStep_turns hd hs
      obtain ⟨m, rfl⟩ : ∃ m, n = m + 1 := ⟨n - 1, by omega⟩
      obtain ⟨k, hk, heq⟩ := ih (n := m) (by omega)
      refine ⟨k, hk, ?_⟩
      rw [importLoop, if_neg hd, hs]
      exact heq

theorem reads_blank (strict merge : Bool) (rest : Str) (p : Package) (sec : Option ℕ) :
    Reads strict merge ⟨⟨[], '\n' :: rest⟩, p, sec⟩ ⟨⟨[], rest⟩, p, sec⟩ :=
  .single ⟨by simp [ImportSt.Done], rfl⟩

theorem keyword_word (k : Keyword) : keyword k.word = some k := by
  cases k <;> rfl

/-- A command word at the beginning of a line. -/
theorem parseCommand_word (strict : Bool) {inSection : Bool} {k : Keyword} (s : Str)
    (hk : k = .option ∨ k = .list → inSection = true) :
    parseCommand strict inSection (getln (k.word ++ ' ' :: s)) =
      (some <$> commandArgs strict k) (getln s) := by
  have hline : getln (k.word ++ ' ' :: s) = ⟨k.word ++ ' ' :: (getln s).line, (getln s).file⟩ := by
    rw [getln_append (by cases k <;> decide), getln, if_neg (by decide)]
  have htake : (k.word ++ ' ' :: (getln s).line).takeWhile (!isDelim ·) = k.word := by
    cases k <;> rfl
  have hdrop : (k.word ++ ' ' :: (getln s).line).dropWhile (!isDelim ·) = ' ' ::
      (getln s).line := by
    cases k <;> rfl
  have hcur : (k.word ++ ' ' :: (getln s).line).dropWhile isDelim =
      k.word ++ ' ' :: (getln s).line := by
    cases k <;> rfl
  have hword : ¬(k.word = [] ∨ k.word.head? = some '#') := by
    cases k <;> decide
  have hsec : ¬((k = .option ∨ k = .list) ∧ inSection = false) := by
    rintro ⟨h, hf⟩
    simp [hk h] at hf
  unfold parseCommand
  simp only [hline, hcur, htake, hdrop, hword, if_false, keyword_word, hsec]

/-- A line is fetched. -/
theorem reads_fetch (strict merge : Bool) {k : Keyword} {pre : Str} (hpre : pre = [] ∨ pre = ['\t'])
    (s : Str) (p : Package) (sec : Option ℕ) :
    Reads strict merge ⟨⟨[], pre ++ (k.word ++ ' ' :: s)⟩, p, sec⟩
      ⟨getln (k.word ++ ' ' :: s), p, sec⟩ := by
  refine .single ⟨?_, ?_⟩
  · cases k <;> simp [ImportSt.Done, Keyword.word]
  · have hline : getln (k.word ++ ' ' :: s) = ⟨k.word ++ ' ' :: (getln s).line,
        (getln s).file⟩ := by
      rw [getln_append (by cases k <;> decide), getln, if_neg (by decide)]
    have hskip : skipWhitespace (getln (pre ++ (k.word ++ ' ' :: s))) =
        getln (k.word ++ ' ' :: s) := by
      have hword : (k.word ++ ' ' :: (getln s).line).dropWhile isspace =
          k.word ++ ' ' :: (getln s).line := by
        cases k <;> rfl
      rcases hpre with rfl | rfl
      · rw [List.nil_append, hline, skipWhitespace, hword]
      · rw [getln_append (by decide), hline, skipWhitespace]
        simp only [List.singleton_append]
        rw [List.dropWhile_cons_of_pos (by decide), hword]
    simp only [importStep, if_true, hskip]

/-- A command is read and carried out. -/
theorem reads_command {strict merge : Bool} {k : Keyword} {pre : Str}
    (hpre : pre = [] ∨ pre = ['\t']) {s rest : Str} {c : Command} {p p' : Package}
    {sec sec' : Option ℕ} (hk : k = .option ∨ k = .list → sec.isSome = true)
    (hargs : commandArgs strict k (getln s) = .ok c ⟨[], rest⟩)
    (hexec : exec strict merge p sec c = .ok (p', sec')) :
    Reads strict merge ⟨⟨[], pre ++ (k.word ++ ' ' :: s)⟩, p, sec⟩ ⟨⟨[], rest⟩, p', sec'⟩ := by
  refine (reads_fetch strict merge hpre s p sec).trans (.single ?_)
  have hne : (getln (k.word ++ ' ' :: s)).line ≠ [] := by
    rw [getln_append (by cases k <;> decide)]
    cases k <;> simp [Keyword.word]
  have hparse : parseCommand strict sec.isSome (getln (k.word ++ ' ' :: s)) =
      .ok (some c) ⟨[], rest⟩ := by
    rw [parseCommand_word strict s hk]
    exact reader_bind_ok.mpr ⟨c, ⟨[], rest⟩, hargs, rfl⟩
  refine ⟨fun hd ↦ hne ?_, ?_⟩
  · rw [show getln (k.word ++ ' ' :: s) = ⟨[], []⟩ from hd]
  · simp only [importStep, hne, if_false, hparse, hexec]

/-! ## Arguments of the lines -/

section Arguments

variable (strict : Bool)

theorem uciEscape_of_bare {w : Str} (h : ∀ c ∈ w, bareChar c = true) : uciEscape w = w :=
  uciEscape_eq_self fun hm ↦ (bareChar_ne (h _ hm)).1 rfl

theorem commandArgs_item {k : Keyword} {list : Bool} (hk : k = if list then .list else .option)
    {name : Str} (hname : validateName name = true) (v rest : Str) :
    commandArgs strict k (getln (name ++ ' ' :: (quoted v ++ '\n' :: rest))) =
      .ok (.option list name v) ⟨[], rest⟩ := by
  have hbare := bareChar_of_validateStr hname
  have hname' : nextArg true true false (getln (name ++ ' ' :: (quoted v ++ '\n' :: rest))) =
      .ok name (getln (quoted v ++ '\n' :: rest)) := by
    rw [nextArg_word_space _ _ _ (ne_nil_of_validateStr hname) hbare,
      checkArg_of_valid (ne_nil_of_validateStr hname) fun _ ↦ hname]
  have hvalue : nextArg false false false (getln (quoted v ++ '\n' :: rest)) =
      .ok v ⟨[], rest⟩ := by
    rw [nextArg_quoted_newline, checkArg_optional (by simp)]
  have hall : (do
      let name ← nextArg true true false
      let value ← nextArg false false false
      assertEolHeld strict
      return .option list name value : Reader Command)
        (getln (name ++ ' ' :: (quoted v ++ '\n' :: rest))) = .ok (.option list name v)
        ⟨[], rest⟩ :=
    reader_bind_ok.mpr ⟨name, _, hname', reader_bind_ok.mpr ⟨v, _, hvalue,
      reader_bind_ok.mpr ⟨(), _, assertEolHeld_nil strict rest, rfl⟩⟩⟩
  subst hk
  cases list with
  | false => exact hall
  | true => exact hall

theorem checkType_ok {type : Str} (h : validateType type = true) (l : Lex) :
    checkType type l = .ok () l := by
  simp [checkType, h]

theorem commandArgs_config_named {type name : Str} (htype : validateType type = true)
    (hbare : ∀ c ∈ type, bareChar c = true) (hname : validateName name = true) (rest : Str) :
    commandArgs strict .config (getln (type ++ ' ' :: (quoted name ++ '\n' :: rest))) =
      .ok (.config type name) ⟨[], rest⟩ := by
  have htype' : nextArg true false false (getln (type ++ ' ' :: (quoted name ++ '\n' :: rest))) =
      .ok type (getln (quoted name ++ '\n' :: rest)) := by
    rw [nextArg_word_space _ _ _ (ne_nil_of_validateStr htype) hbare,
      checkArg_of_valid (ne_nil_of_validateStr htype) (by simp)]
  have hname' : nextArg false true false (getln (quoted name ++ '\n' :: rest)) =
      .ok name ⟨[], rest⟩ := by
    rw [nextArg_quoted_newline, checkArg_optional fun _ _ ↦ hname]
  exact reader_bind_ok.mpr ⟨type, _, htype', reader_bind_ok.mpr ⟨(), _, checkType_ok htype _,
    reader_bind_ok.mpr ⟨name, _, hname',
    reader_bind_ok.mpr ⟨(), _, assertEolHeld_nil strict rest, rfl⟩⟩⟩⟩

theorem commandArgs_config_anonymous {type : Str} (htype : validateType type = true)
    (hbare : ∀ c ∈ type, bareChar c = true) (rest : Str) :
    commandArgs strict .config (getln (type ++ '\n' :: rest)) = .ok (.config type []) ⟨[],
      rest⟩ := by
  have htype' : nextArg true false false (getln (type ++ '\n' :: rest)) = .ok type ⟨[], rest⟩ := by
    rw [nextArg_word_newline _ _ _ (ne_nil_of_validateStr htype) hbare,
      checkArg_of_valid (ne_nil_of_validateStr htype) (by simp)]
  exact reader_bind_ok.mpr ⟨type, _, htype', reader_bind_ok.mpr ⟨(), _, checkType_ok htype _,
    reader_bind_ok.mpr ⟨[], _, nextArg_nil _ _ _ rest,
      reader_bind_ok.mpr ⟨(), _, assertEolHeld_nil strict rest, rfl⟩⟩⟩⟩

theorem commandArgs_package {name : Str} (hname : validateStr name true true = true) (rest : Str) :
    commandArgs strict .package (getln (name ++ '\n' :: rest)) = .ok .package ⟨[], rest⟩ := by
  have hname' : nextArg true true true (getln (name ++ '\n' :: rest)) = .ok name ⟨[], rest⟩ := by
    rw [nextArg_word_newline _ _ _ (ne_nil_of_validateStr hname) (bareChar_of_validateStr hname),
      checkArg_of_valid (ne_nil_of_validateStr hname) fun _ ↦ hname]
  exact reader_bind_ok.mpr ⟨name, _, hname',
    reader_bind_ok.mpr ⟨(), _, assertEol_nil strict rest, rfl⟩⟩

end Arguments

/-! ## Options -/

/-- A package with other sections, none of which was ever removed. -/
def withSections (base : Package) (sections : List Section) : Package :=
  { base with sections := sections, nSection := sections.length }

/-- The last section changed, in a package under construction. -/
theorem modifySection_last (base : Package) (done : List Section) (t : Section)
    (f : Section → Section) :
    modifySection (withSections base (done ++ [t])) done.length f =
      withSections base (done ++ [f t]) := by
  simp [modifySection, withSections, modify_concat]

theorem getElem?_last {α : Type} (l : List α) (a : α) : (l ++ [a])[l.length]? = some a := by
  simp

theorem lookupOption_last {options : List Opt} (o : Opt) (h : o.name ∉ options.map Opt.name) :
    lookupOption (options ++ [o]) o.name = some options.length := by
  have hnone := lookupOption_none h
  unfold lookupOption at hnone ⊢
  simp [List.findIdx?_append, hnone]

section Options

variable {base : Package} {done : List Section} {t : Section} {options : List Opt} {name v : Str}

theorem execOption_string (hn : name ∉ options.map Opt.name) (hv : v ≠ []) :
    execOption false false (withSections base (done ++ [{ t with options := options }])) done.length
        name v =
      .ok (withSections base (done ++ [{ t with options := options ++ [⟨name, .string v⟩] }])) := by
  have hlast : (withSections base
    (done ++ [{ t with options := options }])).sections[done.length]? =
      some { t with options := options } := getElem?_last _ _
  unfold execOption
  rw [hlast]
  simp only [lookupOption_none hn, Bool.false_eq_true, if_false, Bool.not_false]
  rw [uciSet_fillPtr]
  simp [setAt, fillPtr, fillOption, hv, setOption, ptrOption, modifySection_last, allocOption,
    hlast, lookupOption_none hn, Except.map]

theorem execOption_list_new (hn : name ∉ options.map Opt.name) :
    execOption false true (withSections base (done ++ [{ t with options := options }])) done.length
        name v =
      .ok (withSections base (done ++ [{ t with options := options ++ [⟨name, .list [v]⟩] }])) := by
  have hlast : (withSections base
    (done ++ [{ t with options := options }])).sections[done.length]? =
      some { t with options := options } := getElem?_last _ _
  unfold execOption
  rw [hlast]
  simp only [lookupOption_none hn, if_true, Bool.not_false]
  rw [uciAddList_fillPtr]
  simp [addListAt, fillPtr, ptrOption, modifySection_last, allocList]

theorem execOption_list_more {items : List Str} (hn : name ∉ options.map Opt.name) :
    execOption false true
        (withSections base (done ++ [{ t with options := options ++ [⟨name, .list items⟩] }]))
        done.length name v =
      .ok (withSections base
        (done ++ [{ t with options := options ++ [⟨name, .list (items ++ [v])⟩] }])) := by
  have hlast : (withSections base
      (done ++ [{ t with options := options ++ [⟨name, .list items⟩] }])).sections[done.length]? =
        some { t with options := options ++ [⟨name, .list items⟩] } := getElem?_last _ _
  have hfind : lookupOption (options ++ [⟨name, .list items⟩]) name = some options.length :=
    lookupOption_last ⟨name, .list items⟩ hn
  unfold execOption
  rw [hlast]
  simp only [hfind, if_true, Bool.not_false]
  rw [uciAddList_fillPtr]
  simp [addListAt, fillPtr, ptrOption, hlast, modifySection_last, modifyOption, modify_concat]

end Options

/-- An option that export and import keep: a string that is not empty, or a list with an item. -/
def Opt.Exportable (o : Opt) : Prop :=
  validateName o.name = true ∧ o.value ≠ .string [] ∧ o.value ≠ .list []

section ReadOptions

variable (strict : Bool) (base : Package) (done : List Section) (t : Section) (options : List Opt)
  {name : Str}

/-- An `option` or `list` line is read. -/
theorem reads_line (list : Bool) {k : Keyword} (hk : k = if list then .list else .option)
    (hname : validateName name = true) {v : Str} {p p' : Package} {i : ℕ}
    (hexec : execOption false list p i name v = .ok p') (rest : Str) :
    Reads strict false ⟨⟨[], exportLine k name v ++ rest⟩, p, some i⟩ ⟨⟨[], rest⟩, p', some i⟩ := by
  have hline : exportLine k name v ++ rest =
      ['\t'] ++ (k.word ++ ' ' :: (name ++ ' ' :: (quoted v ++ '\n' :: rest))) := by
    simp [exportLine, uciEscape_of_bare (bareChar_of_validateStr hname)]
  rw [hline]
  refine reads_command (.inr rfl) (fun _ ↦ rfl) (commandArgs_item strict hk hname v rest) ?_
  simp [exec, hexec, Except.map]

/-- The further items of a list, by induction on them. -/
theorem reads_items (hname : validateName name = true) (hn : name ∉ options.map Opt.name)
    (items more : List Str) (rest : Str) :
    Reads strict false
      ⟨⟨[], more.flatMap (exportLine .list name) ++ rest⟩,
        withSections base (done ++ [{ t with options := options ++ [⟨name, .list items⟩] }]),
        some done.length⟩
      ⟨⟨[], rest⟩,
        withSections base (done ++
        [{ t with options := options ++ [⟨name, .list (items ++ more)⟩] }]),
        some done.length⟩ := by
  induction more generalizing items with
  | nil =>
      rw [List.append_nil]
      exact .refl
  | cons v more ih =>
      rw [List.flatMap_cons, List.append_assoc]
      refine (reads_line strict true rfl hname (execOption_list_more hn) _).trans ?_
      have := ih (items ++ [v])
      rwa [List.append_assoc] at this

theorem reads_option {o : Opt} (ho : o.Exportable) (hn : o.name ∉ options.map Opt.name)
    (rest : Str) :
    Reads strict false
      ⟨⟨[], exportOption o ++ rest⟩, withSections base (done ++ [{ t with options := options }]),
        some done.length⟩
      ⟨⟨[], rest⟩, withSections base (done ++ [{ t with options := options ++ [o] }]),
        some done.length⟩ := by
  obtain ⟨name, value⟩ := o
  obtain ⟨hname, hstr, hlist⟩ := ho
  cases value with
  | string v =>
      have hv : v ≠ [] := fun h ↦ hstr (by rw [h])
      exact reads_line strict false rfl hname (execOption_string hn hv) rest
  | list items =>
      cases items with
      | nil => exact absurd rfl hlist
      | cons v more =>
          simp only [exportOption, List.flatMap_cons, List.append_assoc]
          refine (reads_line strict true rfl hname (execOption_list_new hn) _).trans ?_
          exact reads_items strict base done t options hname hn [v] more rest

/-- All options of a section, by induction on them. -/
theorem reads_options {more : List Opt} (hexp : ∀ o ∈ more, o.Exportable)
    (hdist : Distinct Opt.name (options ++ more)) (rest : Str) :
    Reads strict false
      ⟨⟨[], more.flatMap exportOption ++ rest⟩,
        withSections base (done ++ [{ t with options := options }]), some done.length⟩
      ⟨⟨[], rest⟩, withSections base (done ++ [{ t with options := options ++ more }]),
        some done.length⟩ := by
  induction more generalizing options with
  | nil =>
      rw [List.append_nil]
      exact .refl
  | cons o more ih =>
      have hn : o.name ∉ options.map Opt.name := by
        unfold Distinct at hdist
        rw [List.map_append, List.nodup_append] at hdist
        exact fun hm ↦ hdist.2.2 _ hm _ (by simp) rfl
      rw [List.flatMap_cons, List.append_assoc]
      refine (reads_option strict base done t options (hexp o List.mem_cons_self) hn _).trans ?_
      have hdist' : Distinct Opt.name (options ++ [o] ++ more) := by simpa using hdist
      have := ih (options ++ [o]) (fun o' ho' ↦ hexp o' (List.mem_cons_of_mem _ ho')) hdist'
      rwa [List.append_assoc] at this

end ReadOptions

/-! ## Sections -/

/-- The name that the `n`th section of a file gets if it has none. -/
def anonName (n : ℕ) (type : Str) : Str := (fixupSection n (newSection type [])).name

/-- A section as it is read back in the place `n`. -/
def reread (n : ℕ) (s : Section) : Section where
  name := if s.anonymous then anonName (n + 1) s.type else s.name
  type := s.type
  anonymous := s.anonymous
  inplace := true
  options := s.options

/-- The sections as they are read back. -/
def rereadAll (sections : List Section) : List Section := sections.mapIdx reread

/-- The name and the type are valid, and so are the options, whose names differ. -/
structure Section.Exportable (s : Section) : Prop where
  name : validateName s.name = true
  type : validateType s.type = true
  options : ∀ o ∈ s.options, o.Exportable
  distinct : Distinct Opt.name s.options

theorem rereadAll_concat (sections : List Section) (s : Section) :
    rereadAll (sections ++ [s]) = rereadAll sections ++ [reread sections.length s] := by
  simp [rereadAll]

@[simp] theorem rereadAll_length (sections : List Section) :
    (rereadAll sections).length = sections.length := by
  simp [rereadAll]

theorem execConfig_anonymous (strict : Bool) (base : Package) (done : List Section) (type : Str) :
    execConfig strict false (withSections base done) type [] =
      .ok (withSections base (done ++ [⟨anonName (done.length + 1) type, type, true, true, []⟩]),
        some done.length) := by
  simp [execConfig, uciAddSection, allocSection, withSections, anonSection, anonName, fixupSection,
    newSection]

theorem execConfig_named (strict : Bool) (base : Package) {done : List Section} {type name : Str}
    (htype : validateType type = true) (hname : name ≠ []) (hn : name ∉ done.map Section.name) :
    execConfig strict false (withSections base done) type name =
      .ok (withSections base (done ++ [⟨name, type, false, true, []⟩]), some done.length) := by
  have hlook : lookupSection (withSections base done).sections name = none := lookupSection_none hn
  unfold execConfig
  rw [if_neg hname, hlook]
  simp only [Bool.not_false]
  rw [uciSet_fillPtr]
  have hne := ne_nil_of_validateStr htype
  have hempty : name.isEmpty = false := by simpa using hname
  simp [setAt, fillPtr, fillOption, htype, hne, setSection, allocSection, withSections, newSection,
    hempty]

/-- A section is read back in its place, unless its name was generated before. -/
theorem reads_section (strict : Bool) {base : Package} {before : List Section} {s : Section}
    (hexp : s.Exportable) (hbare : ∀ c ∈ s.type, bareChar c = true)
    (hn : s.anonymous = false → s.name ∉ (rereadAll before).map Section.name) (sec : Option ℕ)
    (rest : Str) :
    Reads strict false
      ⟨⟨[], exportSection false s ++ rest⟩, withSections base (rereadAll before), sec⟩
      ⟨⟨[], rest⟩, withSections base (rereadAll (before ++ [s])), some before.length⟩ := by
  have hopts := reads_options strict base (rereadAll before)
    { reread before.length s with options := [] } [] hexp.options
    (by simpa using hexp.distinct) rest
  rw [rereadAll_length] at hopts
  rw [rereadAll_concat]
  refine Relation.ReflTransGen.trans ?_ hopts
  have hblank : exportSection false s ++ rest = '\n' :: ([] ++ (Keyword.config.word ++ ' ' ::
      (s.type ++ (exportName false s ++ (s.options.flatMap exportOption ++ rest))))) := by
    simp [exportSection, uciEscape_of_bare hbare]
  rw [hblank]
  refine (reads_blank strict false _ _ _).trans ?_
  cases hanon : s.anonymous with
  | true =>
      have hname : exportName false s = ['\n'] := by simp [exportName, hanon]
      rw [hname]
      refine reads_command (.inl rfl) (by simp)
        (commandArgs_config_anonymous strict hexp.type hbare _) ?_
      simp only [exec]
      rw [execConfig_anonymous]
      simp [reread, hanon]
  | false =>
      have hname : exportName false s = ' ' :: (quoted s.name ++ ['\n']) := by
        simp [exportName, hanon]
      rw [hname, List.cons_append, List.append_assoc]
      refine reads_command (.inl rfl) (by simp)
        (commandArgs_config_named strict hexp.type hbare hexp.name _) ?_
      simp only [exec]
      rw [execConfig_named strict base hexp.type (ne_nil_of_validateStr hexp.name) (hn hanon)]
      simp [reread, hanon]

end MiniPi.Uci
