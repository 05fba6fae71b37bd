import MiniPi.Uci.Parse

/-!
# Quoted and bare words

How `parse_str` and `next_arg` read the two kinds of word that the writers of
`libuci` produce: text in single quotes, with every single quote of the text written
as `'\''`, and bare text.
-/

namespace MiniPi.Uci

/-- `uci_escape`, and the loop of `uci_delta_save`. -/
def uciEscape (str : Str) : Str :=
  str.flatMap fun c ↦ if c = '\'' then ['\'', '\\', '\'', '\''] else [c]

/-- A text in quotes. -/
def quoted (str : Str) : Str := '\'' :: (uciEscape str ++ ['\''])

/-- The characters that stand for themselves in a bare word. -/
def bareChar (c : Char) : Bool :=
  !(c == '\'' || c == '"' || c == '#' || c == ';' || c == '\\' || isspace c)

theorem uciEscape_eq_self {str : Str} (h : '\'' ∉ str) : uciEscape str = str := by
  induction str with
  | nil => rfl
  | cons c s ih =>
      obtain ⟨hc, hs⟩ := not_or.mp (List.mem_cons.not.mp h)
      have ih := ih hs
      unfold uciEscape at ih ⊢
      rw [List.flatMap_cons, ih, if_neg (Ne.symm hc), List.singleton_append]

theorem not_isspace_of_lt {c : Char} (h : 32 < c.toNat) : isspace c = false := by
  have hc : c ≠ ' ' := by
    rintro rfl
    exact absurd h (by decide)
  simp only [isspace, Bool.or_eq_false_iff, beq_eq_false_iff_ne, Bool.and_eq_false_iff,
    decide_eq_false_iff_not]
  exact ⟨hc, .inr (by omega)⟩

theorem lt_toNat_of_isAlphanum {c : Char} (h : c.isAlphanum = true) : 32 < c.toNat := by
  simp only [Char.isAlphanum, Char.isAlpha, Char.isUpper, Char.isLower, Char.isDigit,
    Bool.or_eq_true, Bool.and_eq_true, decide_eq_true_eq, UInt32.le_iff_toNat_le, ge_iff_le] at h
  have h0 : ('0' : Char).val.toNat = 48 := rfl
  have hA : ('A' : Char).val.toNat = 65 := rfl
  have ha : ('a' : Char).val.toNat = 97 := rfl
  change 32 < c.val.toNat
  omega

theorem lt_toNat_of_validChar {name package : Bool} {c : Char}
    (h : validChar name package c = true) : 32 < c.toNat := by
  simp only [validChar, Bool.or_eq_true, Bool.and_eq_true, beq_iff_eq, Bool.not_eq_true',
    Bool.or_eq_false_iff, decide_eq_false_iff_not] at h
  rcases h with ((h | rfl) | ⟨rfl, -⟩) | ⟨⟨-, h⟩, -⟩
  · exact lt_toNat_of_isAlphanum h
  · decide
  · decide
  · omega

theorem bareChar_of_validChar {package : Bool} {c : Char} (h : validChar true package c = true) :
    bareChar c = true := by
  have key : ∀ d, validChar true package d = false → c ≠ d := by
    rintro d hd rfl
    simp [h] at hd
  have hspace := not_isspace_of_lt (lt_toNat_of_validChar h)
  simp only [bareChar, hspace, Bool.or_false, Bool.not_eq_true', Bool.or_eq_false_iff,
    beq_eq_false_iff_ne]
  refine ⟨⟨⟨⟨?_, ?_⟩, ?_⟩, ?_⟩, ?_⟩
  all_goals
    apply key
    cases package <;> decide

theorem bareChar_of_validateStr {package : Bool} {str : Str}
    (h : validateStr str true package = true) : ∀ c ∈ str, bareChar c = true := by
  simp only [validateStr, Bool.and_eq_true, List.all_eq_true] at h
  exact fun c hc ↦ bareChar_of_validChar (h.2 c hc)

theorem ne_nil_of_validateStr {name package : Bool} {str : Str}
    (h : validateStr str name package = true) : str ≠ [] := by
  rintro rfl
  simp [validateStr] at h

section BareChar

variable {c : Char} (h : bareChar c = true)
include h

theorem bareChar_ne : c ≠ '\'' ∧ c ≠ '"' ∧ c ≠ '#' ∧ c ≠ ';' ∧ c ≠ '\\' ∧ isspace c = false := by
  simpa only [bareChar, Bool.not_eq_true', Bool.or_eq_false_iff, beq_eq_false_iff_ne,
    and_assoc] using h

end BareChar

/-! ## Lines -/

theorem getln_eq (s : Str) : (getln s).line ++ (getln s).file = s := by
  induction s with
  | nil => rfl
  | cons c s ih =>
      unfold getln
      split_ifs
      · rfl
      · simp [ih]

theorem getln_append {w : Str} (h : '\n' ∉ w) (s : Str) :
    getln (w ++ s) = ⟨w ++ (getln s).line, (getln s).file⟩ := by
  induction w with
  | nil => rfl
  | cons c w ih =>
      obtain ⟨hc, hw⟩ := not_or.mp (List.mem_cons.not.mp h)
      rw [List.cons_append, getln, if_neg (Ne.symm hc), ih hw]
      rfl

/-! ## Words -/

/-- A word before the rest of an argument. -/
def addWord (w : Str) (r : Option (Str × Lex)) : Option (Str × Lex) := r.map fun x ↦ (w ++ x.1, x.2)

theorem addc_eq (c : Char) (r : Option (Str × Lex)) : addc c r = addWord [c] r := by
  cases r <;> rfl

theorem addWord_addWord (v w : Str) (r : Option (Str × Lex)) :
    addWord v (addWord w r) = addWord (v ++ w) r := by
  cases r <;> simp [addWord]

@[simp] theorem addWord_some (w arg : Str) (l : Lex) :
    addWord w (some (arg, l)) = some (w ++ arg, l) := rfl

theorem parseStr_bare_open (plain : Bool) (s : Str) :
    parseStr .bare plain ('\'' :: s) = parseStr .single false s := by
  rw [parseStr.eq_def]
  rfl

theorem parseStr_bare_char {c : Char} (h : bareChar c = true) (plain : Bool) (s : Str) :
    parseStr .bare plain (c :: s) = addWord [c] (parseStr .bare plain s) := by
  obtain ⟨h₁, h₂, h₃, h₄, h₅, h₆⟩ := bareChar_ne h
  rw [parseStr.eq_def]
  simp only [h₁, h₂, h₃, h₄, h₅, h₆, if_false, addc_eq, Bool.false_eq_true]

theorem parseStr_bare_word {w : Str} (h : ∀ c ∈ w, bareChar c = true) (plain : Bool) (s : Str) :
    parseStr .bare plain (w ++ s) = addWord w (parseStr .bare plain s) := by
  induction w with
  | nil => cases hr : parseStr .bare plain s <;> simp [addWord, hr]
  | cons c w ih =>
      rw [List.cons_append, parseStr_bare_char (h c List.mem_cons_self),
        ih fun d hd ↦ h d (List.mem_cons_of_mem _ hd), addWord_addWord]
      rfl

theorem parseStr_bare_space (plain : Bool) (s : Str) :
    parseStr .bare plain (' ' :: s) = some ([], getln s) := by
  rw [parseStr.eq_def]
  rfl

theorem parseStr_bare_newline (plain : Bool) (s : Str) :
    parseStr .bare plain ('\n' :: s) = some ([], ⟨[], s⟩) := by
  rw [parseStr.eq_def]
  rfl

theorem parseStr_single_char {c : Char} (h : c ≠ '\'') (plain : Bool) (s : Str) :
    parseStr .single plain (c :: s) = addWord [c] (parseStr .single plain s) := by
  rw [parseStr, if_neg h, addc_eq]

/-- The quotes are closed, an escaped one is added, and they are opened again. -/
theorem parseStr_single_quote (s : Str) :
    parseStr .single false ('\'' :: '\\' :: '\'' :: '\'' :: s) =
      addWord ['\''] (parseStr .single false s) := by
  have hback : parseStr .bare false ('\\' :: '\'' :: '\'' :: s) =
      addWord ['\''] (parseStr .bare false ('\'' :: s)) := by
    rw [parseStr.eq_def, ← addc_eq]
    rfl
  rw [parseStr, if_pos rfl, hback, parseStr_bare_open]

theorem parseStr_single_escape (v s : Str) :
    parseStr .single false (uciEscape v ++ s) = addWord v (parseStr .single false s) := by
  induction v with
  | nil => cases hr : parseStr .single false s <;> simp [addWord, uciEscape, hr]
  | cons c v ih =>
      have hcons : uciEscape (c :: v) ++ s =
          (if c = '\'' then ['\'', '\\', '\'', '\''] else [c]) ++ (uciEscape v ++ s) := by
        simp [uciEscape]
      have hstep : parseStr .single false ((if c = '\'' then ['\'', '\\', '\'', '\''] else [c]) ++
          (uciEscape v ++ s)) = addWord [c] (parseStr .single false (uciEscape v ++ s)) := by
        split_ifs with hc
        · subst hc
          exact parseStr_single_quote _
        · exact parseStr_single_char hc _ _
      rw [hcons, hstep, ih, addWord_addWord]
      rfl

theorem parseStr_quoted (plain : Bool) (v s : Str) :
    parseStr .bare plain (quoted v ++ s) = addWord v (parseStr .bare false s) := by
  have hopen : quoted v ++ s = '\'' :: (uciEscape v ++ '\'' :: s) := by simp [quoted]
  rw [hopen, parseStr_bare_open, parseStr_single_escape, parseStr, if_pos rfl]

/-! ## Arguments -/

section NextArg

variable (required name package : Bool)

theorem nextArg_nil (file : Str) :
    nextArg required name package ⟨[], file⟩ = checkArg required name package [] ⟨[], file⟩ := rfl

/-- The argument at the beginning of a line is what `parse_str` reads there. -/
theorem nextArg_getln {c : Char} (hspace : isspace c = false) (hsep : c ≠ ';') {s : Str} :
    nextArg required name package (getln (c :: s)) =
      match parseStr .bare true (c :: s) with
      | none => .error .parse ⟨[], []⟩
      | some (arg, l) => checkArg required name package arg l := by
  have hc : c ≠ '\n' := by
    rintro rfl
    exact absurd hspace (by decide)
  have hline : skipWhitespace (getln (c :: s)) = ⟨c :: (getln s).line, (getln s).file⟩ := by
    rw [getln, if_neg hc, skipWhitespace, List.dropWhile_cons_of_neg (by simp [hspace])]
  have hahead : c :: (getln s).line ++ (getln s).file = c :: s := by
    rw [List.cons_append, getln_eq]
  unfold nextArg
  rw [hline]
  cases hp : parseStr .bare true (c :: s) with
  | none => simp only [hsep, if_false, hahead, hp]
  | some r => simp only [hsep, if_false, hahead, hp]

theorem nextArg_word {w : Str} (hw : w ≠ []) (hbare : ∀ c ∈ w, bareChar c = true) (s : Str) :
    nextArg required name package (getln (w ++ s)) =
      match addWord w (parseStr .bare true s) with
      | none => .error .parse ⟨[], []⟩
      | some (arg, l) => checkArg required name package arg l := by
  cases w with
  | nil => exact absurd rfl hw
  | cons c w =>
      obtain ⟨-, -, -, hsep, -, hspace⟩ := bareChar_ne (hbare c List.mem_cons_self)
      rw [List.cons_append, nextArg_getln _ _ _ hspace hsep, ← List.cons_append,
        parseStr_bare_word hbare]

/-- A bare word before a blank. -/
theorem nextArg_word_space {w : Str} (hw : w ≠ []) (hbare : ∀ c ∈ w, bareChar c = true) (s : Str) :
    nextArg required name package (getln (w ++ ' ' :: s)) =
      checkArg required name package w (getln s) := by
  simp [nextArg_word _ _ _ hw hbare, parseStr_bare_space]

/-- A bare word at the end of a line. -/
theorem nextArg_word_newline {w : Str} (hw : w ≠ []) (hbare : ∀ c ∈ w, bareChar c = true)
    (s : Str) :
    nextArg required name package (getln (w ++ '\n' :: s)) =
      checkArg required name package w ⟨[], s⟩ := by
  simp [nextArg_word _ _ _ hw hbare, parseStr_bare_newline]

/-- A quoted text at the end of a line. -/
theorem nextArg_quoted_newline (v s : Str) :
    nextArg required name package (getln (quoted v ++ '\n' :: s)) =
      checkArg required name package v ⟨[], s⟩ := by
  have hopen : quoted v ++ '\n' :: s = '\'' :: (uciEscape v ++ '\'' :: '\n' :: s) := by
    simp [quoted]
  rw [hopen, nextArg_getln _ _ _ (by decide) (by decide), ← hopen, parseStr_quoted,
    parseStr_bare_newline]
  simp

end NextArg

theorem checkArg_of_valid {required name package : Bool} {arg : Str} (harg : arg ≠ [])
    (h : name = true → validateStr arg name package = true) (l : Lex) :
    checkArg required name package arg l = .ok arg l := by
  unfold checkArg
  rw [if_neg harg, if_neg]
  · rfl
  · cases name with
    | false => simp
    | true => simp [h rfl]

theorem checkArg_optional {name package : Bool} {arg : Str}
    (h : name = true → arg ≠ [] → validateStr arg name package = true) (l : Lex) :
    checkArg false name package arg l = .ok arg l := by
  by_cases harg : arg = []
  · subst harg
    rfl
  · exact checkArg_of_valid harg (fun hn ↦ h hn harg) l

theorem assertEol_nil (strict : Bool) (file : Str) :
    assertEol strict ⟨[], file⟩ = .ok () ⟨[], file⟩ := rfl

theorem assertEolHeld_nil (strict : Bool) (file : Str) :
    assertEolHeld strict ⟨[], file⟩ = .ok () ⟨[], file⟩ := rfl

end MiniPi.Uci
