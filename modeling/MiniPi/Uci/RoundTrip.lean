import Mathlib.Data.List.Induction
import MiniPi.Uci.Export

/-!
# Export and import

A package that is exported and imported again comes back the same exactly when no
section type has a character that the reader treats specially in a bare word, and no
section has the name that an earlier section without a name is given on the way in.
The writer quotes names and values but not types.
-/

namespace MiniPi.Uci

open Lib

/-! ## The property -/

/-- The sections have valid parts, and their names differ. -/
structure Package.Exportable (p : Package) : Prop where
  sections : ∀ s ∈ p.sections, s.Exportable
  distinct : Distinct Section.name p.sections

/-- The same section, up to the generated name of an anonymous one. -/
structure SameSection (s s' : Section) : Prop where
  type : s'.type = s.type
  anonymous : s'.anonymous = s.anonymous
  name : s.anonymous = false → s'.name = s.name
  options : s'.options = s.options

/-- Exporting a package and importing the text under a new name gives it back. -/
def RoundTrips (header : Bool) (p : Package) (hasDelta : Bool) (name : Str) : Prop :=
  ∃ p', uciLoad true hasDelta name (exportPackage header false p) = .ok p' ∧
    List.Forall₂ SameSection p.sections p'.sections

/-- Types are bare words, and no name was generated before. -/
structure Portable (sections : List Section) : Prop where
  bare : ∀ s ∈ sections, ∀ c ∈ s.type, c ∉ ['\'', '"', '#', ';', '\\']
  fresh : ∀ i j s t, sections[i]? = some s → sections[j]? = some t → i < j →
    s.anonymous = true → t.anonymous = false → t.name ≠ anonName (i + 1) s.type

theorem bareChar_of_type {type : Str} (hvalid : validateType type = true)
    (h : ∀ c ∈ type, c ∉ ['\'', '"', '#', ';', '\\']) : ∀ c ∈ type, bareChar c = true := by
  intro c hc
  simp only [validateType, validateStr, Bool.and_eq_true, List.all_eq_true] at hvalid
  have hspace := not_isspace_of_lt (lt_toNat_of_validChar (hvalid.2 c hc))
  have hn := h c hc
  simp only [List.mem_cons, List.not_mem_nil, or_false, not_or] at hn
  simp [bareChar, hspace, hn]

theorem special_of_not_bareChar {c : Char} (hspace : isspace c = false) (h : bareChar c = false) :
    c = '\'' ∨ c = '"' ∨ c = '#' ∨ c = ';' ∨ c = '\\' := by
  simp only [bareChar, hspace, Bool.or_false, Bool.not_eq_false', Bool.or_eq_true, beq_iff_eq] at h
  tauto

/-! ## A portable package comes back -/

/-- A name that is not generated for an earlier section is not among those read back. -/
theorem notMem_rereadAll {before after : List Section} {s : Section}
    (hdist : Distinct Section.name (before ++ s :: after))
    (hfresh : ∀ i t, before[i]? = some t → t.anonymous = true → s.name ≠ anonName (i + 1) t.type) :
    s.name ∉ (rereadAll before).map Section.name := by
  rintro hm
  obtain ⟨s', hs', hname⟩ := List.mem_map.mp hm
  obtain ⟨i, hi⟩ := List.mem_iff_getElem?.mp hs'
  rw [rereadAll, List.getElem?_mapIdx] at hi
  obtain ⟨t, ht, rfl⟩ := Option.map_eq_some_iff.mp hi
  cases hanon : t.anonymous with
  | true => exact hfresh i t ht hanon (by simpa [reread, hanon] using hname.symm)
  | false =>
      have hname' : t.name = s.name := by simpa [reread, hanon] using hname
      unfold Distinct at hdist
      rw [List.map_append, List.nodup_append] at hdist
      exact hdist.2.2 _ (List.mem_map_of_mem (List.mem_of_getElem? ht)) _ (by simp) hname'

/-- All sections, by induction on those that are still to be read. -/
theorem reads_sections (strict : Bool) (base : Package) (before : List Section)
    {after : List Section} (hexp : ∀ s ∈ before ++ after, s.Exportable)
    (hdist : Distinct Section.name (before ++ after)) (hport : Portable (before ++ after))
    (sec : Option ℕ) (rest : Str) :
    ∃ sec', Reads strict false
      ⟨⟨[], after.flatMap (exportSection false) ++ rest⟩, withSections base (rereadAll before), sec⟩
      ⟨⟨[], rest⟩, withSections base (rereadAll (before ++ after)), sec'⟩ := by
  induction after generalizing before sec with
  | nil =>
      rw [List.append_nil]
      exact ⟨sec, .refl⟩
  | cons s after ih =>
      have hs := hexp s (by simp)
      have hbare := bareChar_of_type hs.type (hport.bare s (by simp))
      have hn : s.anonymous = false → s.name ∉ (rereadAll before).map Section.name := by
        intro hanon
        refine notMem_rereadAll hdist fun i t ht htanon ↦ ?_
        have hi : i < before.length := (List.getElem?_eq_some_iff.mp ht).1
        exact hport.fresh i before.length t s (by rwa [List.getElem?_append_left hi]) (by simp) hi
          htanon hanon
      have hassoc : before ++ s :: after = before ++ [s] ++ after := by simp
      rw [hassoc] at hexp hdist hport ⊢
      obtain ⟨sec', hrest⟩ := ih (before ++ [s]) hexp hdist hport (some before.length)
      refine ⟨sec', ?_⟩
      rw [List.flatMap_cons, List.append_assoc]
      exact (reads_section strict hs hbare hn sec _).trans hrest

/-- The header line, when there is one. -/
theorem reads_header (strict : Bool) {header : Bool} {p : Package}
    (hheader : header = true → validateStr p.name true true = true) (q : Package) (rest : Str) :
    Reads strict false ⟨⟨[], exportHeader header p ++ rest⟩, q, none⟩ ⟨⟨[], rest⟩, q, none⟩ := by
  cases header with
  | false => exact .refl
  | true =>
      have hname := hheader rfl
      have hline : exportHeader true p ++ rest =
          [] ++ (Keyword.package.word ++ ' ' :: (p.name ++ '\n' :: rest)) := by
        simp [exportHeader, uciEscape_of_bare (bareChar_of_validateStr hname)]
      rw [hline]
      exact reads_command (.inl rfl) (by simp) (commandArgs_package strict hname rest) rfl

theorem sameSection_reread (n : ℕ) (s : Section) : SameSection s (reread n s) where
  type := rfl
  anonymous := rfl
  name := fun h ↦ by simp [reread, h]
  options := rfl

theorem forall₂_rereadAll (sections : List Section) :
    List.Forall₂ SameSection sections (rereadAll sections) := by
  rw [List.forall₂_iff_get]
  refine ⟨by simp, fun i h₁ h₂ ↦ ?_⟩
  simp only [rereadAll, List.get_eq_getElem, List.getElem_mapIdx]
  exact sameSection_reread i _

theorem roundTrips_of_portable {header : Bool} {p : Package} (hexp : p.Exportable)
    (hheader : header = true → validateStr p.name true true = true) {name : Str}
    (hname : validatePackage name = true) (hasDelta : Bool) (hport : Portable p.sections) :
    RoundTrips header p hasDelta name := by
  obtain ⟨sec', hsections⟩ := reads_sections true (allocPackage name hasDelta) []
    hexp.sections hexp.distinct hport none ['\n']
  have hall : Reads true false
    (importStart (allocPackage name hasDelta) (exportPackage header false p))
      ⟨⟨[], []⟩, withSections (allocPackage name hasDelta) (rereadAll p.sections), sec'⟩ :=
    ((reads_header true hheader _ _).trans hsections).trans (reads_blank true false [] _ _)
  obtain ⟨m, -, hm⟩ := importLoop_of_reads hall le_rfl
  have hend : importLoop true false m
      ⟨⟨[], []⟩, withSections (allocPackage name hasDelta) (rereadAll p.sections), sec'⟩ =
        .ok ⟨⟨[], []⟩, withSections (allocPackage name hasDelta) (rereadAll p.sections), sec'⟩ := by
    cases m with
    | zero => rfl
    | succ m => exact if_pos rfl
  refine ⟨withSections (allocPackage name hasDelta) (rereadAll p.sections), ?_,
    forall₂_rereadAll p.sections⟩
  unfold uciLoad uciImport
  rw [if_pos hname]
  exact map_eq_ok.mpr ⟨_, hm.trans hend, rfl⟩

/-! ## A special character in a type

The type of a section stands bare between a blank or a newline and the rest of the file.
What the reader makes of it is not the type any more: double quotes are dropped, or a
backslash is, or the word is cut; a single quote runs into the text behind the type. -/

/-- No blanks. -/
def Clean (w : Str) : Prop := ∀ c ∈ w, isspace c = false

theorem clean_of_validateType {w : Str} (h : validateType w = true) : Clean w := by
  simp only [validateType, validateStr, Bool.and_eq_true, List.all_eq_true] at h
  exact fun c hc ↦ not_isspace_of_lt (lt_toNat_of_validChar (h.2 c hc))

section Steps

variable {plain : Bool} {c d : Char} {s : Str}

/-- A character behind a backslash is taken as it is, outside of quotes and inside of double
ones. -/
theorem parseStr_backslash {quote : Quote} {after : Bool} (hn : d ≠ '\n') (hr : d ≠ '\r')
    (hquote : quote = .bare ∧ after = false ∨ quote = .double ∧ after = plain) :
    parseStr quote plain ('\\' :: d :: s) = addWord [d] (parseStr quote after s) := by
  rcases hquote with ⟨rfl, rfl⟩ | ⟨rfl, rfl⟩
  all_goals
    rw [parseStr.eq_def]
    simp only [Char.reduceEq, if_false, if_true, addc_eq]
    split
    · rename_i heq
      cases heq
    · rename_i heq
      exact absurd (List.cons.inj heq).1 hn
    · rename_i heq
      exact absurd (List.cons.inj heq).1 hr
    · rename_i heq
      obtain ⟨rfl, rfl⟩ := List.cons.inj heq
      rfl

theorem parseStr_bare_backslash (hn : d ≠ '\n') (hr : d ≠ '\r') :
    parseStr .bare plain ('\\' :: d :: s) = addWord [d] (parseStr .bare false s) :=
  parseStr_backslash hn hr (.inl ⟨rfl, rfl⟩)

theorem parseStr_double_backslash (hn : d ≠ '\n') (hr : d ≠ '\r') :
    parseStr .double plain ('\\' :: d :: s) = addWord [d] (parseStr .double plain s) :=
  parseStr_backslash hn hr (.inr ⟨rfl, rfl⟩)

theorem parseStr_double_char (hq : c ≠ '"') (hb : c ≠ '\\') :
    parseStr .double plain (c :: s) = addWord [c] (parseStr .double plain s) := by
  rw [parseStr.eq_def]
  simp only [hq, hb, if_false, addc_eq]

theorem parseStr_double_close : parseStr .double plain ('"' :: s) = parseStr .bare plain s := by
  rw [parseStr.eq_def]
  rfl

theorem parseStr_bare_double : parseStr .bare plain ('"' :: s) = parseStr .double false s := by
  rw [parseStr.eq_def]
  rfl

end Steps

theorem uciEscape_cons (c : Char) (s : Str) :
    uciEscape (c :: s) = (if c = '\'' then ['\'', '\\', '\'', '\''] else [c]) ++ uciEscape s := by
  simp [uciEscape]

theorem eq_of_addWord {w arg : Str} {r : Option (Str × Lex)} {l : Lex}
    (h : addWord w r = some (arg, l)) : ∃ arg', r = some (arg', l) ∧ arg = w ++ arg' := by
  obtain ⟨⟨arg', l'⟩, hr, heq⟩ := Option.map_eq_some_iff.mp h
  obtain ⟨rfl, rfl⟩ := Prod.mk.inj heq
  exact ⟨arg', hr, rfl⟩

/-- Inside single quotes the text runs into the blank behind it. -/
theorem not_clean_of_single {t s arg : Str} {c : Char} {l : Lex} (hc : isspace c = true)
    (h : parseStr .single false (uciEscape t ++ c :: s) = some (arg, l)) : ¬Clean arg := by
  have hq : c ≠ '\'' := by
    rintro rfl
    exact absurd hc (by decide)
  rw [parseStr_single_escape, parseStr_single_char hq, addWord_addWord] at h
  obtain ⟨arg', -, rfl⟩ := eq_of_addWord h
  intro hclean
  have := hclean c (by simp)
  simp [this] at hc

/-- What follows the type of a section: a blank, or a newline and a line that is indented
or blank. -/
def TypeEnd (c : Char) (s : Str) : Prop :=
  c = ' ' ∨ (c = '\n' ∧ ∃ d s', s = d :: s' ∧ (d = '\t' ∨ d = '\n'))

/-- What is left of the line once the type is read. -/
def TypeRest (c : Char) (s : Str) (l : Lex) : Prop :=
  (c = ' ' ∧ l = getln s) ∨ l.line = [] ∨ (∃ t, l = getln (';' :: t)) ∨
    (c = '\n' ∧ ∃ s', s = '\t' :: s' ∧ l = getln s')

/-- A word read from a type: it has fewer double quotes, or it is shorter unless the type is
bare. -/
def Lesser (arg type : Str) : Prop :=
  arg.count '"' < type.count '"' ∨ (arg.count '"' ≤ type.count '"' ∧ arg.length ≤ type.length ∧
    (arg.length = type.length → ∀ c ∈ type, bareChar c = true))

theorem Lesser.count_le {arg type : Str} (h : Lesser arg type) :
    arg.count '"' ≤ type.count '"' := by
  rcases h with h | ⟨h, -, -⟩
  · exact h.le
  · exact h

theorem Lesser.cons {arg type : Str} {c : Char} (h : Lesser arg type) (hc : bareChar c = true) :
    Lesser (c :: arg) (c :: type) := by
  rcases h with h | ⟨hcount, hlen, heq⟩
  · left
    simp only [List.count_cons]
    omega
  · refine .inr ⟨?_, by simpa using hlen, ?_⟩
    · simp only [List.count_cons]
      omega
    · intro hl d hd
      rcases List.mem_cons.mp hd with rfl | hd
      · exact hc
      · exact heq (by simpa using hl) d hd

theorem Lesser.backslash {arg type : Str} (d : Char) (h : Lesser arg type) :
    Lesser (d :: arg) ('\\' :: d :: type) := by
  have hcount : (d :: arg).count '"' + type.count '"' = ('\\' :: d :: type).count '"' +
      arg.count '"' := by
    simp only [List.count_cons, Char.reduceBEq, Bool.false_eq_true, if_false]
    omega
  rcases h with h | ⟨hle, hlen, -⟩
  · left
    omega
  · refine .inr ⟨by omega, by simp; omega, fun hl ↦ ?_⟩
    simp only [List.length_cons] at hl
    omega

theorem Lesser.nil {type : Str} (h : type ≠ []) : Lesser [] type := by
  refine .inr ⟨by simp, by simp, fun hl ↦ ?_⟩
  exact absurd (List.length_eq_zero_iff.mp hl.symm) h

/-- What is read from a type in bare mode. -/
def BareOk (c : Char) (s t : Str) : Prop :=
  ∀ plain arg l, parseStr .bare plain (uciEscape t ++ c :: s) = some (arg, l) → Clean arg →
    Lesser arg t ∧ TypeRest c s l

/-- What is read from a type in double quotes: they have to be closed in it. -/
def DoubleOk (c : Char) (s t : Str) : Prop :=
  ∀ plain arg l, parseStr .double plain (uciEscape t ++ c :: s) = some (arg, l) → Clean arg →
    arg.count '"' < t.count '"' ∧ TypeRest c s l

theorem not_clean_cons {c : Char} {w : Str} (h : isspace c = true) : ¬Clean (c :: w) := by
  intro hclean
  simp [hclean c List.mem_cons_self] at h

theorem Clean.tail {c : Char} {w : Str} (h : Clean (c :: w)) : Clean w :=
  fun d hd ↦ h d (List.mem_cons_of_mem _ hd)

theorem ne_newline_of_lt {d : Char} (h : 32 < d.toNat) : d ≠ '\n' ∧ d ≠ '\r' := by
  constructor
  · rintro rfl
    exact absurd h (by decide)
  · rintro rfl
    exact absurd h (by decide)

section TypeCases

variable {c : Char} {s t : Str} (hend : TypeEnd c s)
include hend

theorem isspace_of_typeEnd : isspace c = true := by
  rcases hend with rfl | ⟨rfl, -⟩ <;> decide

theorem bareOk_nil : BareOk c s [] := by
  intro plain arg l h _
  have hempty : ∀ l', some (([] : Str), l') = some (arg, l) → Lesser arg [] ∧ l' = l := by
    rintro l' heq
    obtain ⟨rfl, rfl⟩ := Prod.mk.inj (Option.some.inj heq)
    exact ⟨.inr ⟨le_rfl, le_rfl, by simp⟩, rfl⟩
  rcases hend with rfl | ⟨rfl, -⟩
  · obtain ⟨hless, rfl⟩ := hempty _ ((parseStr_bare_space plain s).symm.trans h)
    exact ⟨hless, .inl ⟨rfl, rfl⟩⟩
  · obtain ⟨hless, rfl⟩ := hempty _ ((parseStr_bare_newline plain s).symm.trans h)
    exact ⟨hless, .inr (.inl rfl)⟩

omit hend in
theorem bareOk_bare {x : Char} (hx : bareChar x = true) (ht : BareOk c s t) :
    BareOk c s (x :: t) := by
  intro plain arg l h hclean
  rw [uciEscape_cons, if_neg (bareChar_ne hx).1, List.singleton_append, List.cons_append,
    parseStr_bare_char hx] at h
  obtain ⟨arg', h', rfl⟩ := eq_of_addWord h
  obtain ⟨hless, hrest⟩ := ht plain arg' l h' hclean.tail
  exact ⟨hless.cons hx, hrest⟩

theorem bareOk_single : BareOk c s ('\'' :: t) := by
  intro plain arg l h hclean
  rw [uciEscape_cons, if_pos rfl] at h
  change parseStr .bare plain ('\'' :: '\\' :: '\'' :: '\'' :: (uciEscape t ++ c :: s)) = _ at h
  rw [parseStr_bare_open, parseStr_single_char (by decide), parseStr, if_pos rfl,
    parseStr_bare_open] at h
  obtain ⟨arg', h', rfl⟩ := eq_of_addWord h
  exact absurd hclean.tail (not_clean_of_single (isspace_of_typeEnd hend) h')

omit hend in
theorem bareOk_double (ht : DoubleOk c s t) : BareOk c s ('"' :: t) := by
  intro plain arg l h hclean
  rw [uciEscape_cons, if_neg (by decide), List.singleton_append, List.cons_append,
    parseStr_bare_double] at h
  obtain ⟨hcount, hrest⟩ := ht false arg l h hclean
  refine ⟨.inl ?_, hrest⟩
  rw [List.count_cons_self]
  omega

omit hend in
theorem bareOk_cut {x : Char} (hx : x = '#' ∨ x = ';') : BareOk c s (x :: t) := by
  intro plain arg l h _
  rcases hx with rfl | rfl
  · rw [uciEscape_cons, if_neg (by decide), List.singleton_append, List.cons_append,
      parseStr.eq_def] at h
    obtain ⟨rfl, rfl⟩ := Prod.mk.inj (Option.some.inj h)
    exact ⟨.nil (by simp), .inr (.inl rfl)⟩
  · rw [uciEscape_cons, if_neg (by decide), List.singleton_append, List.cons_append,
      parseStr.eq_def] at h
    obtain ⟨rfl, rfl⟩ := Prod.mk.inj (Option.some.inj h)
    refine ⟨.nil (by simp), ?_⟩
    cases plain with
    | true => exact .inr (.inl rfl)
    | false => exact .inr (.inr (.inl ⟨_, rfl⟩))

/-- A backslash at the end of the type takes the blank, or joins the next line. -/
theorem bareOk_backslash_nil : BareOk c s ['\\'] := by
  intro plain arg l h hclean
  change parseStr .bare plain ('\\' :: c :: s) = _ at h
  rcases hend with rfl | ⟨rfl, d, s', rfl, hd⟩
  · rw [parseStr_bare_backslash (by decide) (by decide)] at h
    obtain ⟨arg', -, rfl⟩ := eq_of_addWord h
    exact absurd hclean (not_clean_cons (by decide))
  · have hjoin : parseStr .bare plain ('\\' :: '\n' :: d :: s') = parseStr .bare false
        (d :: s') := by
      rw [parseStr.eq_def]
      rfl
    rw [hjoin] at h
    rcases hd with rfl | rfl
    · rw [parseStr.eq_def] at h
      obtain ⟨rfl, rfl⟩ := Prod.mk.inj (Option.some.inj h)
      exact ⟨.nil (by simp), .inr (.inr (.inr ⟨rfl, s', rfl, rfl⟩))⟩
    · rw [parseStr_bare_newline] at h
      obtain ⟨rfl, rfl⟩ := Prod.mk.inj (Option.some.inj h)
      exact ⟨.nil (by simp), .inr (.inl rfl)⟩

theorem bareOk_backslash {d : Char} (hd : 32 < d.toNat) (ht : BareOk c s t) :
    BareOk c s ('\\' :: d :: t) := by
  intro plain arg l h hclean
  by_cases hq : d = '\''
  · subst hq
    rw [uciEscape_cons, uciEscape_cons, if_neg (by decide), if_pos rfl] at h
    change parseStr .bare plain
      ('\\' :: '\'' :: '\\' :: '\'' :: '\'' :: (uciEscape t ++ c :: s)) = _ at h
    rw [parseStr_bare_backslash (by decide) (by decide),
      parseStr_bare_backslash (by decide) (by decide), parseStr_bare_open, addWord_addWord] at h
    obtain ⟨arg', h', rfl⟩ := eq_of_addWord h
    exact absurd hclean.tail.tail (not_clean_of_single (isspace_of_typeEnd hend) h')
  · rw [uciEscape_cons, uciEscape_cons, if_neg (by decide), if_neg hq] at h
    change parseStr .bare plain ('\\' :: d :: (uciEscape t ++ c :: s)) = _ at h
    obtain ⟨hn, hr⟩ := ne_newline_of_lt hd
    rw [parseStr_bare_backslash hn hr] at h
    obtain ⟨arg', h', rfl⟩ := eq_of_addWord h
    obtain ⟨hless, hrest⟩ := ht false arg' l h' hclean.tail
    exact ⟨hless.backslash d, hrest⟩

theorem doubleOk_nil : DoubleOk c s [] := by
  intro plain arg l h hclean
  have hspace := isspace_of_typeEnd hend
  change parseStr .double plain (c :: s) = _ at h
  rw [parseStr_double_char (by rintro rfl; exact absurd hspace (by decide))
    (by rintro rfl; exact absurd hspace (by decide))] at h
  obtain ⟨arg', -, rfl⟩ := eq_of_addWord h
  exact absurd hclean (not_clean_cons hspace)

omit hend in
theorem doubleOk_close (ht : BareOk c s t) : DoubleOk c s ('"' :: t) := by
  intro plain arg l h hclean
  rw [uciEscape_cons, if_neg (by decide), List.singleton_append, List.cons_append,
    parseStr_double_close] at h
  obtain ⟨hless, hrest⟩ := ht plain arg l h hclean
  refine ⟨?_, hrest⟩
  have := hless.count_le
  rw [List.count_cons_self]
  omega

omit hend in
theorem doubleOk_single (ht : DoubleOk c s t) : DoubleOk c s ('\'' :: t) := by
  intro plain arg l h hclean
  rw [uciEscape_cons, if_pos rfl] at h
  change parseStr .double plain ('\'' :: '\\' :: '\'' :: '\'' :: (uciEscape t ++ c :: s)) = _ at h
  rw [parseStr_double_char (by decide) (by decide),
    parseStr_double_backslash (by decide) (by decide), parseStr_double_char (by decide) (by decide),
    addWord_addWord, addWord_addWord] at h
  obtain ⟨arg', h', rfl⟩ := eq_of_addWord h
  obtain ⟨hcount, hrest⟩ := ht plain arg' l h' hclean.tail.tail.tail
  exact ⟨by simpa [List.count_cons] using hcount, hrest⟩

omit hend in
theorem doubleOk_char {x : Char} (h₁ : x ≠ '"') (h₂ : x ≠ '\\') (h₃ : x ≠ '\'')
    (ht : DoubleOk c s t) : DoubleOk c s (x :: t) := by
  intro plain arg l h hclean
  rw [uciEscape_cons, if_neg h₃, List.singleton_append, List.cons_append,
    parseStr_double_char h₁ h₂] at h
  obtain ⟨arg', h', rfl⟩ := eq_of_addWord h
  obtain ⟨hcount, hrest⟩ := ht plain arg' l h' hclean.tail
  exact ⟨by simpa [List.count_cons] using hcount, hrest⟩

theorem doubleOk_backslash_nil : DoubleOk c s ['\\'] := by
  intro plain arg l h hclean
  change parseStr .double plain ('\\' :: c :: s) = _ at h
  rcases hend with rfl | ⟨rfl, d, s', rfl, hd⟩
  · rw [parseStr_double_backslash (by decide) (by decide)] at h
    obtain ⟨arg', -, rfl⟩ := eq_of_addWord h
    exact absurd hclean (not_clean_cons (by decide))
  · have hjoin : parseStr .double plain ('\\' :: '\n' :: d :: s') =
        parseStr .double plain (d :: s') := by
      rw [parseStr.eq_def]
      rfl
    rw [hjoin] at h
    rcases hd with rfl | rfl
    all_goals
      rw [parseStr_double_char (by decide) (by decide)] at h
      obtain ⟨arg', -, rfl⟩ := eq_of_addWord h
      exact absurd hclean (not_clean_cons (by decide))

omit hend in
theorem doubleOk_backslash {d : Char} (hd : 32 < d.toNat) (ht : DoubleOk c s t) :
    DoubleOk c s ('\\' :: d :: t) := by
  intro plain arg l h hclean
  by_cases hq : d = '\''
  · subst hq
    rw [uciEscape_cons, uciEscape_cons, if_neg (by decide), if_pos rfl] at h
    change parseStr .double plain
      ('\\' :: '\'' :: '\\' :: '\'' :: '\'' :: (uciEscape t ++ c :: s)) = _ at h
    rw [parseStr_double_backslash (by decide) (by decide),
      parseStr_double_backslash (by decide) (by decide),
      parseStr_double_char (by decide) (by decide),
      addWord_addWord, addWord_addWord] at h
    obtain ⟨arg', h', rfl⟩ := eq_of_addWord h
    obtain ⟨hcount, hrest⟩ := ht plain arg' l h' hclean.tail.tail.tail
    exact ⟨by simpa [List.count_cons] using hcount, hrest⟩
  · rw [uciEscape_cons, uciEscape_cons, if_neg (by decide), if_neg hq] at h
    change parseStr .double plain ('\\' :: d :: (uciEscape t ++ c :: s)) = _ at h
    obtain ⟨hn, hr⟩ := ne_newline_of_lt hd
    rw [parseStr_double_backslash hn hr] at h
    obtain ⟨arg', h', rfl⟩ := eq_of_addWord h
    obtain ⟨hcount, hrest⟩ := ht plain arg' l h' hclean.tail
    exact ⟨by simpa [List.count_cons] using hcount, hrest⟩

/-- Both modes at once, by induction on the length: a backslash takes two characters. -/
theorem typeOk (ht : ∀ x ∈ t, 32 < x.toNat) : BareOk c s t ∧ DoubleOk c s t := by
  induction hn : t.length using Nat.strong_induction_on generalizing t with
  | _ n ih =>
    match t, ht, hn with
    | [], _, _ => exact ⟨bareOk_nil hend, doubleOk_nil hend⟩
    | x :: t, ht, hn =>
        have htail : BareOk c s t ∧ DoubleOk c s t :=
          ih t.length (by simp [← hn]) (fun y hy ↦ ht y (List.mem_cons_of_mem _ hy)) rfl
        by_cases hb : x = '\\'
        · subst hb
          match t, ht, hn with
          | [], _, _ => exact ⟨bareOk_backslash_nil hend, doubleOk_backslash_nil hend⟩
          | d :: t, ht, hn =>
              obtain ⟨h₁, h₂⟩ :=
                ih t.length (by rw [← hn, List.length_cons, List.length_cons]; omega)
                  (fun y hy ↦ ht y (List.mem_cons_of_mem _ (List.mem_cons_of_mem _ hy))) rfl
              have hd := ht d (by simp)
              exact ⟨bareOk_backslash hend hd h₁, doubleOk_backslash hd h₂⟩
        · by_cases hdq : x = '"'
          · subst hdq
            exact ⟨bareOk_double htail.2, doubleOk_close htail.1⟩
          · by_cases hsq : x = '\''
            · subst hsq
              exact ⟨bareOk_single hend, doubleOk_single htail.2⟩
            · refine ⟨?_, doubleOk_char hdq hb hsq htail.2⟩
              cases hx : bareChar x with
              | true => exact bareOk_bare hx htail.1
              | false =>
                  have hspace := not_isspace_of_lt (ht x List.mem_cons_self)
                  have := special_of_not_bareChar hspace hx
                  exact bareOk_cut (by tauto)

end TypeCases

/-! ## The command that such a type makes -/

/-- The lines after the type begin with the line of an option, or there is none. -/
theorem exportOptions_cases {options : List Opt} (hexp : ∀ o ∈ options, o.Exportable) (rest : Str) :
    options = [] ∨ ∃ k name v more, (k = .option ∨ k = .list) ∧ validateName name = true ∧
      options.flatMap exportOption ++ rest = exportLine k name v ++ more := by
  match options, hexp with
  | [], _ => exact .inl rfl
  | ⟨name, .string v⟩ :: options, hexp =>
      refine .inr ⟨.option, name, v, options.flatMap exportOption ++ rest, .inl rfl,
        (hexp _ List.mem_cons_self).1, ?_⟩
      simp [exportOption]
  | ⟨name, .list []⟩ :: options, hexp => exact absurd rfl (hexp _ List.mem_cons_self).2.2
  | ⟨name, .list (v :: items)⟩ :: options, hexp =>
      refine .inr ⟨.list, name, v,
        items.flatMap (exportLine .list name) ++ (options.flatMap exportOption ++ rest), .inr rfl,
        (hexp _ List.mem_cons_self).1, ?_⟩
      simp [exportOption]

theorem nextArg_of_line_nil {required name package : Bool} {l : Lex} (h : l.line = []) :
    nextArg required name package l = checkArg required name package [] l := by
  obtain ⟨line, file⟩ := l
  obtain rfl : line = [] := h
  rfl

theorem nextArg_separator (required name package : Bool) (s : Str) :
    nextArg required name package (getln (';' :: s)) =
      checkArg required name package [] (getln s) := by
  have hline : getln (';' :: s) = ⟨';' :: (getln s).line, (getln s).file⟩ := by
    rw [getln, if_neg (by decide)]
  unfold nextArg
  rw [hline]
  rfl

theorem eq_of_checkArg {required name package : Bool} {l l' : Lex} {arg arg' : Str}
    (h : checkArg required name package arg l = .ok arg' l') : arg = arg' ∧ l = l' := by
  unfold checkArg at h
  split_ifs at h
  · cases h
  · exact EStateM.Result.ok.inj h
  · cases h
  · exact EStateM.Result.ok.inj h

/-- A second argument is one too many. -/
theorem assertEol_word {name : Str} (hname : validateName name = true) (s : Str) :
    ∃ l, assertEol true (getln (name ++ ' ' :: s)) = .error .parse l := by
  have harg : nextArg false false false (getln (name ++ ' ' :: s)) = .ok name (getln s) := by
    rw [nextArg_word_space _ _ _ (ne_nil_of_validateStr hname) (bareChar_of_validateStr hname),
      checkArg_optional (by simp)]
  refine ⟨getln s, ?_⟩
  change EStateM.bind _ _ _ = _
  simp only [EStateM.bind, harg]
  simp [ne_nil_of_validateStr hname]

theorem assertEolHeld_word {name : Str} (hname : validateName name = true) (s : Str) :
    ∃ l, assertEolHeld true (getln (name ++ ' ' :: s)) = .error .parse l := by
  obtain ⟨l, hl⟩ := assertEol_word hname s
  exact ⟨l, by rw [assertEolHeld, hl]⟩

/-- The name that is read behind the type, if the line is accepted. -/
theorem name_of_typeRest {s : Section} (hexp : s.Exportable) {c : Char} {t rest : Str}
    {l l₁ l₂ : Lex} {n : Str} (hct : exportName false s ++
      (s.options.flatMap exportOption ++ '\n' :: rest) = c :: t)
    (hrest : TypeRest c t l) (hn : nextArg false true false l = .ok n l₁)
    (heol : assertEolHeld true l₁ = .ok () l₂) : n = [] ∨ (s.anonymous = false ∧ n = s.name) := by
  rcases hrest with ⟨rfl, rfl⟩ | hline | ⟨t', rfl⟩ | ⟨rfl, t', rfl, rfl⟩
  · cases hanon : s.anonymous with
    | true => simp [exportName, hanon] at hct
    | false =>
        obtain rfl : t = quoted s.name ++ '\n' ::
            (s.options.flatMap exportOption ++ '\n' :: rest) := by
          simpa [exportName, hanon] using hct.symm
        rw [nextArg_quoted_newline] at hn
        exact .inr ⟨rfl, (eq_of_checkArg hn).1.symm⟩
  · rw [nextArg_of_line_nil hline] at hn
    exact .inl (eq_of_checkArg hn).1.symm
  · rw [nextArg_separator] at hn
    exact .inl (eq_of_checkArg hn).1.symm
  · -- The line of the first option was joined: its keyword is read as the name.
    cases hanon : s.anonymous with
    | false => simp [exportName, hanon] at hct
    | true =>
        have htext : s.options.flatMap exportOption ++ '\n' :: rest = '\t' :: t' := by
          simpa [exportName, hanon] using hct
        rcases exportOptions_cases hexp.options ('\n' :: rest) with hnil | ⟨k, name, v, more, hk,
          hname, heq⟩
        · simp [hnil] at htext
        · rw [heq] at htext
          have ht' : t' = k.word ++ ' ' :: (name ++ ' ' :: (quoted v ++ '\n' :: more)) := by
            simpa [exportLine, uciEscape_of_bare (bareChar_of_validateStr hname)] using htext.symm
          subst ht'
          have hkw : k.word ≠ [] ∧ ∀ x ∈ k.word, bareChar x = true := by
            rw [← List.all_eq_true]
            cases k <;> decide
          rw [nextArg_word_space _ _ _ hkw.1 hkw.2] at hn
          obtain ⟨-, rfl⟩ := eq_of_checkArg hn
          obtain ⟨l, hl⟩ := assertEolHeld_word hname (quoted v ++ '\n' :: more)
          simp [hl] at heol

theorem ne_of_lesser {w type : Str} (h : Lesser w type) (hnot : ¬∀ c ∈ type, bareChar c = true) :
    w ≠ type := by
  rintro rfl
  rcases h with h | ⟨-, -, h⟩
  · exact lt_irrefl _ h
  · exact hnot (h rfl)

theorem typeEnd_export {s : Section} (hexp : s.Exportable) (rest : Str) :
    ∃ c t, exportName false s ++ (s.options.flatMap exportOption ++ '\n' :: rest) = c :: t ∧
      TypeEnd c t := by
  cases hanon : s.anonymous with
  | false =>
      refine ⟨' ', quoted s.name ++ '\n' :: (s.options.flatMap exportOption ++ '\n' :: rest), ?_,
        .inl rfl⟩
      simp [exportName, hanon]
  | true =>
      refine ⟨'\n', s.options.flatMap exportOption ++ '\n' :: rest, by simp [exportName, hanon],
        .inr ⟨rfl, ?_⟩⟩
      rcases exportOptions_cases hexp.options ('\n' :: rest) with hnil | ⟨k, name, v, more,
        -, -, heq⟩
      · exact ⟨'\n', rest, by simp [hnil], .inr rfl⟩
      · exact ⟨'\t', _, heq, .inl rfl⟩

/-- A type that is not bare gives the command another type. -/
theorem config_of_not_bare {s : Section} (hexp : s.Exportable)
    (hnot : ¬∀ c ∈ s.type, bareChar c = true) {rest : Str} {cmd : Command} {l : Lex}
    (h : commandArgs true .config (getln (uciEscape s.type ++ (exportName false s ++
      (s.options.flatMap exportOption ++ '\n' :: rest)))) = .ok cmd l) :
    ∃ w n, cmd = .config w n ∧ w ≠ s.type ∧ (n = [] ∨ (s.anonymous = false ∧ n = s.name)) := by
  obtain ⟨w, l₁, hw, h⟩ := reader_bind_ok.mp h
  obtain ⟨_, l₂, htype, h⟩ := reader_bind_ok.mp h
  obtain ⟨n, l₃, hn, h⟩ := reader_bind_ok.mp h
  obtain ⟨_, l₄, heol, h⟩ := reader_bind_ok.mp h
  obtain ⟨rfl, -⟩ := EStateM.Result.ok.inj h
  obtain ⟨hvalid, rfl⟩ : validateType w = true ∧ l₁ = l₂ := by
    unfold checkType at htype
    split_ifs at htype with hv
    · exact ⟨hv, (EStateM.Result.ok.inj htype).2⟩
    · cases htype
  obtain ⟨c, t, hct, hend⟩ := typeEnd_export hexp rest
  have hchars : ∀ x ∈ s.type, 32 < x.toNat := by
    have := hexp.type
    simp only [validateType, validateStr, Bool.and_eq_true, List.all_eq_true] at this
    exact fun x hx ↦ lt_toNat_of_validChar (this.2 x hx)
  have hparse : parseStr .bare true (uciEscape s.type ++ c :: t) = some (w, l₁) := by
    rw [hct] at hw
    obtain ⟨x, tail, htail⟩ : ∃ x tail, s.type = x :: tail :=
      List.exists_cons_of_ne_nil (ne_nil_of_validateStr hexp.type)
    obtain ⟨y, tail', hy, hspace⟩ : ∃ y tail', uciEscape s.type ++ c :: t = y :: tail' ∧
        isspace y = false := by
      rw [htail, uciEscape_cons]
      split_ifs
      · exact ⟨'\'', _, rfl, by decide⟩
      · exact ⟨x, _, rfl, not_isspace_of_lt (hchars x (by simp [htail]))⟩
    rw [hy] at hw ⊢
    by_cases hsep : y = ';'
    · subst hsep
      rw [nextArg_separator] at hw
      exact absurd (eq_of_checkArg hw).1.symm ((checkArg_ok hw).1 rfl)
    · rw [nextArg_getln _ _ _ hspace hsep] at hw
      split at hw
      · cases hw
      · rename_i arg l' hp
        obtain ⟨rfl, rfl⟩ := eq_of_checkArg hw
        exact hp
  obtain ⟨hless, hrest⟩ := (typeOk hend hchars).1 true w l₁ hparse (clean_of_validateType hvalid)
  exact ⟨w, n, rfl, ne_of_lesser hless hnot, name_of_typeRest hexp hct hrest hn heol⟩

/-! ## A strict import only adds sections

Whatever the rest of a file holds, name, type and kind of the sections that are there stay,
and a section that is added under a name given in the file is the first of that name. -/

/-- Name, type and kind of a section. -/
def head (s : Section) : Str × Str × Bool := (s.name, s.type, s.anonymous)

/-- The heads of all sections. -/
def heads (sections : List Section) : List (Str × Str × Bool) := sections.map head

/-- A name given in the file is the name of no earlier section. -/
def Unrepeated (hs : List (Str × Str × Bool)) : Prop :=
  hs.Pairwise fun a b ↦ b.2.2 = false → a.1 ≠ b.1

/-- The sections stay, or one is added. -/
inductive Adds (sections sections' : List Section) : Prop
  | same (h : heads sections' = heads sections)
  | add (name type : Str) (anonymous : Bool)
      (h : heads sections' = heads sections ++ [(name, type, anonymous)])
      (hn : anonymous = false → name ∉ sections.map Section.name)

namespace Adds

variable {sections sections' : List Section}

theorem prefix_heads (h : Adds sections sections') : heads sections <+: heads sections' := by
  cases h with
  | same h => exact h ▸ List.prefix_rfl
  | add name type anonymous h _ => exact h ▸ List.prefix_append _ _

theorem unrepeated (h : Adds sections sections') (hu : Unrepeated (heads sections)) :
    Unrepeated (heads sections') := by
  cases h with
  | same h => exact h ▸ hu
  | add name type anonymous h hn =>
      rw [h]
      refine List.pairwise_append.mpr ⟨hu, List.pairwise_singleton _ _, ?_⟩
      rintro a ha b hb hanon
      obtain ⟨s, hs, rfl⟩ := List.mem_map.mp ha
      obtain rfl := List.mem_singleton.mp hb
      rintro heq
      have hname : s.name = name := heq
      exact hn hanon (hname ▸ List.mem_map_of_mem hs)

end Adds

theorem heads_modify {sections : List Section} {i : ℕ} {f : Section → Section}
    (h : ∀ s, sections[i]? = some s → head (f s) = head s) :
    heads (sections.modify i f) = heads sections :=
  map_modify_of_key_eq h

theorem addListAt_heads {internal : Bool} {p p' : Package} {ptr : Ptr}
    (h : addListAt internal p ptr = .ok p') : heads p'.sections = heads p.sections := by
  unfold addListAt at h
  split at h
  · split at h
    all_goals
      simp only [Except.ok.injEq] at h
      subst h
      simp only [modifySection, addDelta_sections]
      exact heads_modify fun s _ ↦ rfl
  · cases h

theorem setOption_heads (internal : Bool) (p : Package) (ptr : Ptr) (i : ℕ) (name v : Str) :
    heads (setOption internal p ptr i name v).sections = heads p.sections := by
  unfold setOption
  split
  · simp only [modifySection, addDelta_sections]
    exact heads_modify fun s _ ↦ rfl
  · split_ifs
    · rfl
    · simp only [modifySection, addDelta_sections]
      exact heads_modify fun s _ ↦ rfl

theorem execOption_heads {merge list : Bool} {p p' : Package} {i : ℕ} {name v : Str}
    (h : execOption merge list p i name v = .ok p') : heads p'.sections = heads p.sections := by
  obtain ⟨sec, o, hr, hadd | ⟨last, hset⟩⟩ := execOption_cases h
  · exact addListAt_heads hadd
  · rcases setAt_cases hr hset with ⟨-, hc, -⟩ | ⟨-, rfl⟩ | ⟨v', name', i', -, -, -, -, rfl⟩ |
      ⟨v', -, -, hopt, -⟩
    · cases hc
    · rfl
    · exact setOption_heads _ _ _ _ _ _
    · cases hopt

/-- A section is added, unless the file gives a name that is there. -/
theorem execConfig_heads {p p' : Package} {type name : Str} {sec : Option ℕ} (htype : type ≠ [])
    (h : execConfig true false p type name = .ok (p', sec)) :
    (heads p'.sections = heads p.sections ∧ name ≠ [] ∧ name ∈ p.sections.map Section.name) ∨
      ∃ name' anonymous, heads p'.sections = heads p.sections ++ [(name', type, anonymous)] ∧
        (anonymous = false → name' ∉ p.sections.map Section.name) := by
  rcases execConfig_cases h with ⟨-, rfl⟩ | ⟨hname, s, hr, hset, hlook⟩
  · refine .inr ⟨(anonSection p type).name, true, ?_, by simp⟩
    simp [uciAddSection, allocSection, heads, head, anonSection, fixupSection, newSection]
  · obtain rfl : (setSection true p (fillPtr (some name) none (some type) s none) type).1 = p' := by
      rcases setAt_cases hr hset with ⟨-, hc, -⟩ | ⟨hv, -⟩ | ⟨_, _, _, -, -, hopt, -⟩ |
        ⟨v, hv, -, -, -, -, hset⟩
      · cases hc
      · exact absurd (Option.some.inj hv) htype
      · cases hopt
      · obtain rfl : type = v := Option.some.inj hv
        exact congrArg Prod.fst hset
    cases s with
    | none =>
        refine .inr ⟨name, false, ?_, fun _ ↦ hlook⟩
        simp [setSection, fillPtr, allocSection, heads, head, newSection, hname]
    | some i =>
        obtain ⟨x, hx, rfl, hsame⟩ := hlook
        refine .inl ⟨?_, hname, List.mem_map_of_mem (List.mem_of_getElem? hx)⟩
        simp only [setSection, fillPtr, modifySection, addDelta_sections]
        refine heads_modify fun s' hs' ↦ ?_
        obtain rfl : x = s' := by simpa [hx] using hs'
        simp [head, hsame rfl]

theorem exec_adds {p p' : Package} {sec sec' : Option ℕ} {c : Command} (hc : c.NamesOk)
    (h : exec true false p sec c = .ok (p', sec')) : Adds p.sections p'.sections := by
  rcases exec_cases h with rfl | ⟨type, name, rfl, hconfig⟩ | ⟨list, name, value, i, -, hoption⟩
  · exact .same rfl
  · rcases execConfig_heads hc.1 hconfig with ⟨hsame, -, -⟩ | ⟨name', anonymous, hadd, hn⟩
    · exact .same hsame
    · exact .add name' type anonymous hadd hn
  · exact .same (execOption_heads hoption)

theorem importLoop_grows {n : ℕ} {st st' : ImportSt} (h : importLoop true false n st = .ok st') :
    heads st.package.sections <+: heads st'.package.sections ∧
      (Unrepeated (heads st.package.sections) → Unrepeated (heads st'.package.sections)) := by
  refine importLoop_invariant (I := fun p ↦ heads st.package.sections <+: heads p.sections ∧
    (Unrepeated (heads st.package.sections) → Unrepeated (heads p.sections))) ?_ h
    ⟨List.prefix_rfl, id⟩
  rintro p p' sec sec' c hc - hexec ⟨hpre, hunrep⟩
  have hadds := exec_adds hc hexec
  exact ⟨hpre.trans hadds.prefix_heads, fun hu ↦ hadds.unrepeated (hunrep hu)⟩

/-! ## What comes back is portable -/

/-- The sections in front of `s` are read back, and the import goes on from there. -/
theorem importLoop_at {header : Bool} {p : Package} (hexp : p.Exportable)
    (hheader : header = true → validateStr p.name true true = true) (base : Package)
    {before after : List Section} (hsplit : p.sections = before ++ after) (hport : Portable before)
    {st' : ImportSt} (h : importLoop true false (importTurns ⟨[], exportPackage header false p⟩)
      (importStart (withSections base []) (exportPackage header false p)) = .ok st') :
    ∃ sec m, importTurns ⟨[], after.flatMap (exportSection false) ++ ['\n']⟩ ≤ m ∧
      importLoop true false m ⟨⟨[], after.flatMap (exportSection false) ++ ['\n']⟩,
        withSections base (rereadAll before), sec⟩ = .ok st' := by
  have hexp' := hexp.sections
  have hdist := hexp.distinct
  rw [hsplit] at hexp' hdist
  have hdist' : Distinct Section.name before :=
    List.Nodup.sublist ((List.sublist_append_left before after).map Section.name) hdist
  obtain ⟨sec, hreads⟩ := reads_sections true base []
    (fun s hs ↦ hexp' s (List.mem_append_left _ hs)) hdist' hport none
    (after.flatMap (exportSection false) ++ ['\n'])
  have htext : exportPackage header false p = exportHeader header p ++
      (before.flatMap (exportSection false) ++
        (after.flatMap (exportSection false) ++ ['\n'])) := by
    simp [exportPackage, hsplit]
  have hall := (reads_header true hheader (withSections base []) _).trans hreads
  rw [← htext] at hall
  obtain ⟨m, hm, heq⟩ := importLoop_of_reads hall le_rfl
  exact ⟨sec, m, hm, heq ▸ h⟩

theorem heads_rereadAll_getElem? {sections : List Section} {i : ℕ} {s : Section}
    (h : sections[i]? = some s) :
    (heads (rereadAll sections))[i]? = some (head (reread i s)) := by
  simp [heads, rereadAll, h]

theorem heads_getElem?_of_same {sections sections' : List Section}
    (h : List.Forall₂ SameSection sections sections') {i : ℕ} {s : Section}
    (hs : sections[i]? = some s) :
    ∃ name, (heads sections')[i]? = some (name, s.type, s.anonymous) ∧
      (s.anonymous = false → name = s.name) := by
  obtain ⟨hi, rfl⟩ := List.getElem?_eq_some_iff.mp hs
  have hi' : i < sections'.length := h.length_eq ▸ hi
  have hsame : SameSection sections[i] sections'[i] := h.get hi hi'
  refine ⟨sections'[i].name, ?_, hsame.name⟩
  simp [heads, head, hi', hsame.type, hsame.anonymous]

theorem unrepeated_getElem? {hs : List (Str × Str × Bool)} (h : Unrepeated hs) {i j : ℕ}
    {a b : Str × Str × Bool} (hij : i < j) (ha : hs[i]? = some a) (hb : hs[j]? = some b)
    (hanon : b.2.2 = false) : a.1 ≠ b.1 := by
  obtain ⟨hi, rfl⟩ := List.getElem?_eq_some_iff.mp ha
  obtain ⟨hj, rfl⟩ := List.getElem?_eq_some_iff.mp hb
  exact List.pairwise_iff_getElem.mp h i j hi hj hij hanon

theorem getElem?_of_prefix {α : Type} {l l' : List α} (h : l <+: l') {i : ℕ} {a : α}
    (ha : l[i]? = some a) : l'[i]? = some a := by
  obtain ⟨t, rfl⟩ := h
  obtain ⟨hi, -⟩ := List.getElem?_eq_some_iff.mp ha
  rwa [List.getElem?_append_left hi]

section Necessity

variable {base : Package} {before after : List Section} {s : Section} {sec : Option ℕ} {m : ℕ}
  {st' : ImportSt}
  (hturns : importTurns ⟨[], (s :: after).flatMap (exportSection false) ++ ['\n']⟩ ≤ m)
  (hloop : importLoop true false m ⟨⟨[], (s :: after).flatMap (exportSection false) ++ ['\n']⟩,
    withSections base (rereadAll before), sec⟩ = .ok st')
  (hsame : List.Forall₂ SameSection (before ++ s :: after) st'.package.sections)

include hloop hsame in
/-- A name that comes back was not generated for an earlier section. -/
theorem fresh_of_same (hu : Unrepeated (heads (rereadAll before))) {i : ℕ} {t : Section}
    (ht : before[i]? = some t) (htanon : t.anonymous = true) (hanon : s.anonymous = false) :
    s.name ≠ anonName (i + 1) t.type := by
  obtain ⟨hpre, hunrep⟩ := importLoop_grows hloop
  have hi : i < before.length := (List.getElem?_eq_some_iff.mp ht).1
  have hti := getElem?_of_prefix hpre (heads_rereadAll_getElem? ht)
  obtain ⟨name, hs, hname⟩ := heads_getElem?_of_same hsame
    (show (before ++ s :: after)[before.length]? = some s by simp)
  have hne := unrepeated_getElem? (hunrep hu) hi hti hs hanon
  rw [hname hanon] at hne
  simpa [head, reread, htanon] using hne.symm

include hturns hloop hsame in
/-- A type that comes back is a bare word. -/
theorem bare_of_same (hexp : s.Exportable)
    (hn : s.anonymous = false → s.name ∉ (rereadAll before).map Section.name) :
    ∀ c ∈ s.type, bareChar c = true := by
  by_contra hnot
  -- The line of the section is fetched.
  obtain ⟨rest, htext⟩ : ∃ rest, (s :: after).flatMap (exportSection false) ++ ['\n'] =
      '\n' :: ([] ++ (Keyword.config.word ++ ' ' :: (uciEscape s.type ++ (exportName false s ++
        (s.options.flatMap exportOption ++ '\n' :: rest))))) := by
    have hafter : ∃ rest, after.flatMap (exportSection false) ++ ['\n'] = '\n' :: rest := by
      cases after with
      | nil => exact ⟨[], rfl⟩
      | cons t after => exact ⟨_, rfl⟩
    obtain ⟨rest, hrest⟩ := hafter
    refine ⟨rest, ?_⟩
    simp only [List.flatMap_cons, List.append_assoc, hrest]
    simp [exportSection]
  rw [htext] at hturns hloop
  obtain ⟨m', hm', heq⟩ := importLoop_of_reads ((reads_blank true false _ _ sec).trans
    (reads_fetch true false (.inl rfl) _ (withSections base (rereadAll before)) sec)) hturns
  rw [heq] at hloop
  -- Its command is carried out.
  have hne : (getln (Keyword.config.word ++ ' ' :: (uciEscape s.type ++ (exportName false s ++
      (s.options.flatMap exportOption ++ '\n' :: rest))))).line ≠ [] := by
    rw [getln_append (by decide)]
    simp [Keyword.word]
  obtain ⟨m, rfl⟩ : ∃ m, m' = m + 1 := by
    refine ⟨m' - 1, ?_⟩
    have hpos := List.length_pos_of_ne_nil hne
    simp only [importTurns, Lex.total] at hm'
    omega
  unfold importLoop at hloop
  have hdone : ¬ImportSt.Done ⟨getln (Keyword.config.word ++ ' ' :: (uciEscape s.type ++
      (exportName false s ++ (s.options.flatMap exportOption ++ '\n' :: rest)))),
      withSections base (rereadAll before), sec⟩ := fun hd ↦ hne (congrArg Lex.line hd)
  rw [if_neg hdone] at hloop
  obtain ⟨st₁, hstep, hloop⟩ := bind_eq_ok.mp hloop
  simp only [importStep, hne, if_false] at hstep
  rw [parseCommand_word true _ (by simp)] at hstep
  split at hstep
  · simp [importError] at hstep
  · rename_i l hnone
    obtain ⟨c, l', -, hc⟩ := reader_bind_ok.mp hnone
    cases (EStateM.Result.ok.inj hc).1
  · rename_i c l hsome
    obtain ⟨c', l', hargs, hc⟩ := reader_bind_ok.mp hsome
    obtain ⟨hcc, -⟩ := EStateM.Result.ok.inj hc
    obtain rfl := Option.some.inj hcc
    obtain ⟨w, n, rfl, hw, hname⟩ := config_of_not_bare hexp hnot hargs
    split at hstep
    · simp [importError] at hstep
    · rename_i p₁ sec₁ hexec
      obtain rfl := Except.ok.inj hstep
      have hnames := (commandArgs_checked hargs).1
      rcases execConfig_heads hnames.1 hexec with ⟨-, hn0, hmem⟩ | ⟨name', anonymous, hadd, -⟩
      · rcases hname with rfl | ⟨hanon, rfl⟩
        · exact hn0 rfl
        · exact hn hanon hmem
      · -- The section that is added has another type, and keeps it.
        have hget : (heads p₁.sections)[before.length]? = some (name', w, anonymous) := by
          have hlen : before.length =
              (heads (withSections base (rereadAll before)).sections).length := by
            simp [heads, withSections]
          rw [hadd, hlen, List.getElem?_concat_length]
        have hfinal := getElem?_of_prefix (importLoop_grows hloop).1 hget
        obtain ⟨name, hs, -⟩ := heads_getElem?_of_same hsame
          (show (before ++ s :: after)[before.length]? = some s by simp)
        rw [hs] at hfinal
        exact hw (Prod.mk.inj (Prod.mk.inj (Option.some.inj hfinal)).2).1.symm

end Necessity

theorem unrepeated_rereadAll {sections : List Section} (hdist : Distinct Section.name sections)
    (hport : Portable sections) : Unrepeated (heads (rereadAll sections)) := by
  refine List.pairwise_iff_getElem.mpr fun i j hi hj hij hanon ↦ ?_
  have hi' : i < sections.length := by simpa [heads] using hi
  have hj' : j < sections.length := by simpa [heads] using hj
  simp only [heads, rereadAll, List.getElem_map, List.getElem_mapIdx, head, reread] at hanon ⊢
  rw [hanon]
  cases hs : sections[i].anonymous with
  | true =>
      exact (hport.fresh i j _ _ (List.getElem?_eq_getElem hi')
        (List.getElem?_eq_getElem hj') hij hs
        hanon).symm
  | false =>
      intro heq
      exact hij.ne (hdist.index_eq (List.getElem?_eq_getElem hi')
        (List.getElem?_eq_getElem hj') heq)

/-- By induction on the sections that were found to be portable so far. -/
theorem portable_of_roundTrips {header : Bool} {p : Package} (hexp : p.Exportable)
    (hheader : header = true → validateStr p.name true true = true) {hasDelta : Bool} {name : Str}
    (h : RoundTrips header p hasDelta name) : Portable p.sections := by
  obtain ⟨p', hload, hsame⟩ := h
  obtain ⟨st', hloop, rfl⟩ : ∃ st', importLoop true false
      (importTurns ⟨[], exportPackage header false p⟩)
      (importStart (withSections (allocPackage name hasDelta) []) (exportPackage header false p)) =
        .ok st' ∧ st'.package = p' := by
    unfold uciLoad at hload
    split_ifs at hload
    exact map_eq_ok.mp hload
  have key : ∀ before after, p.sections = before ++ after → Portable before := by
    intro before
    induction before using List.reverseRecOn with
    | nil => exact fun _ _ ↦ ⟨by simp, by simp⟩
    | append_singleton before s ih =>
        intro after hsplit
        have hsplit' : p.sections = before ++ s :: after := by simpa using hsplit
        have hport := ih (s :: after) hsplit'
        obtain ⟨sec, m, hm, hloop'⟩ := importLoop_at hexp hheader _ hsplit' hport hloop
        rw [hsplit'] at hsame
        have hexp' := hexp.sections
        have hdist := hexp.distinct
        rw [hsplit'] at hexp' hdist
        have hdist' : Distinct Section.name before :=
          List.Nodup.sublist ((List.sublist_append_left before (s :: after)).map Section.name) hdist
        have hfresh : ∀ i t, before[i]? = some t → t.anonymous = true → s.anonymous = false →
            s.name ≠ anonName (i + 1) t.type := fun i t ht htanon hanon ↦
          fresh_of_same hloop' hsame (unrepeated_rereadAll hdist' hport) ht htanon hanon
        have hbare := bare_of_same hm hloop' hsame (hexp' s (by simp)) fun hanon ↦
          notMem_rereadAll hdist fun i t ht htanon ↦ hfresh i t ht htanon hanon
        refine ⟨?_, ?_⟩
        · intro t ht c hc
          rcases List.mem_append.mp ht with ht | ht
          · exact hport.bare t ht c hc
          · obtain rfl := List.mem_singleton.mp ht
            have := bareChar_ne (hbare c hc)
            simp only [List.mem_cons, List.not_mem_nil, or_false, not_or]
            tauto
        · intro i j t u ht hu hij htanon huanon
          have hj : j < before.length + 1 := by
            simpa using (List.getElem?_eq_some_iff.mp hu).1
          rw [List.getElem?_append_left (by omega)] at ht
          by_cases hjb : j < before.length
          · rw [List.getElem?_append_left hjb] at hu
            exact hport.fresh i j t u ht hu hij htanon huanon
          · obtain rfl : j = before.length := by omega
            obtain rfl : s = u := by simpa using hu
            exact hfresh i t ht htanon huanon
  exact key p.sections [] (by simp)

/-- Exporting a package and importing the text gives it back exactly when its types are bare
words and no section has a name that is generated for an earlier one.  Where the text has a
header, its name has to be one that the reader takes. -/
theorem roundTrips_iff_portable {header : Bool} {p : Package} (hexp : p.Exportable)
    (hheader : header = true → validateStr p.name true true = true) {name : Str}
    (hname : validatePackage name = true) (hasDelta : Bool) :
    RoundTrips header p hasDelta name ↔ Portable p.sections :=
  ⟨portable_of_roundTrips hexp hheader, roundTrips_of_portable hexp hheader hname hasDelta⟩

/-- A named section with a string and a list, and an anonymous one. -/
def portablePackage : Package where
  name := ['n']
  sections := [
    ⟨['b'], ['a', '-', 't'], false, true,
      [⟨['x'], .string ['i', 't', '\'', 's', '\n', '#']⟩, ⟨['y'], .list [[], ['\\', ';']]⟩]⟩,
    ⟨['c', 'f', 'g'], ['u'], true, true, []⟩]
  nSection := 2
  hasDelta := true
  delta := []

theorem portablePackage_exportable : portablePackage.Exportable where
  sections := by
    intro s hs
    simp only [portablePackage, List.mem_cons, List.not_mem_nil, or_false] at hs
    rcases hs with rfl | rfl
    · refine ⟨by decide, by decide, ?_, by decide⟩
      intro o ho
      simp only [List.mem_cons, List.not_mem_nil, or_false] at ho
      rcases ho with rfl | rfl
      · exact ⟨by decide, by decide, by decide⟩
      · exact ⟨by decide, by decide, by decide⟩
    · exact ⟨by decide, by decide, by simp, by decide⟩
  distinct := by decide

theorem portablePackage_portable : Portable portablePackage.sections where
  bare := by simp [portablePackage]
  fresh := by
    rintro i j s t hs ht hij hsanon htanon
    have hj : j < 2 := (List.getElem?_eq_some_iff.mp ht).1
    obtain ⟨rfl, rfl⟩ : i = 0 ∧ j = 1 := by omega
    obtain rfl := Option.some.inj hs
    exact absurd hsanon (by decide)

/-- Quotes, a newline, a comment sign, a backslash and a separator in values come back. -/
theorem roundTrips_portablePackage : RoundTrips true portablePackage true ['m'] :=
  (roundTrips_iff_portable portablePackage_exportable (fun _ ↦ by decide) (by decide) true).mpr
    portablePackage_portable

/-- A section of type `a#b`. -/
def hashPackage : Package where
  name := ['n']
  sections := [⟨['b'], ['a', '#', 'b'], false, true, []⟩]
  nSection := 1
  hasDelta := true
  delta := []

/-- A type that is valid comes back cut at the comment sign. -/
theorem not_roundTrips :
    ¬ ∀ (header : Bool) (p : Package) (hasDelta : Bool) (name : Str), p.Exportable →
      validatePackage name = true → RoundTrips header p hasDelta name := by
  intro h
  have hexp : hashPackage.Exportable := by
    refine ⟨?_, by decide⟩
    intro s hs
    obtain rfl := List.mem_singleton.mp hs
    exact ⟨by decide, by decide, by simp, by decide⟩
  have hport := portable_of_roundTrips hexp (by simp)
    (h false hashPackage true ['n'] hexp (by decide))
  exact absurd (hport.bare _ (List.mem_singleton.mpr rfl) '#' (by decide)) (by decide)

end MiniPi.Uci
