import MiniPi.Uci.RoundTrip

/-!
# Several commands on a line

`uci_parse_line` reads the commands of a line that are joined by `;`.  Which command a
separator ends depends on how the last argument before it is written: the NUL behind a plain
argument lands on the separator, and a command that is given fewer arguments than it can have
takes the separator for a missing one.
-/

namespace MiniPi.Uci

/-! ## Lines -/

/-- The loop of `uci_parse_line`. -/
def parseLineLoop (strict merge : Bool) : ℕ → ImportSt → Except Err ImportSt
  | 0, st => .ok st
  | n + 1, st =>
    match parseCommand strict st.sec.isSome st.lex with
    | .error e _ => .error e
    | .ok none l => .ok { st with lex := l }
    | .ok (some c) l =>
      match exec strict merge st.package st.sec c with
      | .error e => .error e
      | .ok (p, sec) => parseLineLoop strict merge n ⟨l, p, sec⟩

/-- `uci_parse_line`, which every command makes shorter. -/
def parseLine (strict merge : Bool) (st : ImportSt) : Except Err ImportSt :=
  parseLineLoop strict merge (st.lex.total + 1) { st with lex := skipWhitespace st.lex }

/-- The next line of a text is fetched and parsed. -/
def parseNextLine (strict merge : Bool) (st : ImportSt) : Except Err ImportSt :=
  parseLine strict merge { st with lex := getln st.lex.file }

/-! ## How commands are written -/

/-- A part of an argument. -/
inductive Seg where
  /-- A character that stands for itself. -/
  | bare (c : Char)
  /-- A character behind a backslash. -/
  | escaped (c : Char)
  /-- Text in single quotes. -/
  | single (s : Str)
  /-- Text in double quotes: characters, and whether they stand behind a backslash. -/
  | double (s : List (Bool × Char))
deriving DecidableEq, Repr

namespace Seg

/-- The text of a character in double quotes. -/
def doubleText (x : Bool × Char) : Str := if x.1 then ['\\', x.2] else [x.2]

/-- The text of a part. -/
def text : Seg → Str
  | bare c => [c]
  | escaped c => ['\\', c]
  | single s => '\'' :: s ++ ['\'']
  | double s => '"' :: s.flatMap doubleText ++ ['"']

/-- What a part means. -/
def value : Seg → Str
  | bare c => [c]
  | escaped c => [c]
  | single s => s
  | double s => s.map Prod.snd

/-- The part is what its kind says.  A line feed or a carriage return behind a backslash is left
out: at the end of a line it joins the line to the next one. -/
def Ok : Seg → Prop
  | bare c => bareChar c = true
  | escaped c => c ≠ '\n' ∧ c ≠ '\r'
  | single s => '\'' ∉ s
  | double s => ∀ x ∈ s, if x.1 then x.2 ≠ '\n' ∧ x.2 ≠ '\r' else x.2 ≠ '"' ∧ x.2 ≠ '\\'

instance (seg : Seg) : Decidable seg.Ok := by
  cases seg <;> unfold Ok <;> infer_instance

/-- The part is a character that stands for itself. -/
def isBare : Seg → Bool
  | bare _ => true
  | _ => false

end Seg

/-- An argument as it is written. -/
abbrev Token := List Seg

namespace Token

/-- The text of an argument. -/
def text (t : Token) : Str := t.flatMap Seg.text

/-- What an argument means. -/
def value (t : Token) : Str := t.flatMap Seg.value

/-- There are neither quotes nor backslashes in the argument. -/
def plain (t : Token) : Bool := t.all Seg.isBare

/-- The argument is written properly. -/
def Ok (t : Token) : Prop := t ≠ [] ∧ ∀ seg ∈ t, seg.Ok

end Token

/-- Blanks between words. -/
def Blank (b : Str) : Prop := ∀ c ∈ b, isDelim c = true

theorem blank_nil : Blank [] := fun _ hc ↦ nomatch hc

theorem blank_space : Blank [' '] := by
  intro c hc
  rw [List.mem_singleton.mp hc]
  rfl

/-- A command as it is written: the word, and one or two arguments with the blanks in front
of them. -/
structure CmdText where
  kw : Keyword
  /-- Only the first letter of the word is written. -/
  short : Bool
  first : Str × Token
  second : Option (Str × Token)

namespace CmdText

/-- The word of the command. -/
def word (c : CmdText) : Str := if c.short then c.kw.word.take 1 else c.kw.word

/-- The text of an argument and the blanks in front of it. -/
def argText (a : Str × Token) : Str := a.1 ++ a.2.text

/-- The text of a command. -/
def text (c : CmdText) : Str := c.word ++ argText c.first ++ (c.second.map argText).getD []

/-- The last argument. -/
def last (c : CmdText) : Token := (c.second.getD c.first).2

/-- A proper argument behind at least one blank. -/
def ArgOk (a : Str × Token) : Prop := a.1 ≠ [] ∧ Blank a.1 ∧ a.2.Ok

/-- The command is written properly; only `package` has a single argument. -/
def Ok (c : CmdText) : Prop :=
  ArgOk c.first ∧ (∀ a, c.second = some a → ArgOk a) ∧ (c.kw = .package → c.second = none)

/-- The command has all arguments it can have. -/
def Complete (c : CmdText) : Prop := c.kw = .package ∨ c.second.isSome = true

end CmdText

/-! ## Reading an argument -/

/-- The result of a reader, where an error is the end. -/
def runReader {α : Type} (x : Reader α) (l : Lex) : Except Err (α × Lex) :=
  match x l with
  | .ok a l => .ok (a, l)
  | .error e _ => .error e

theorem runReader_bind {α β : Type} (x : Reader α) (f : α → Reader β) (l : Lex) :
    runReader (x >>= f) l = (runReader x l).bind fun r ↦ runReader (f r.1) r.2 := by
  change runReader (EStateM.bind x f) l = _
  unfold runReader EStateM.bind
  cases x l with
  | ok a l => rfl
  | error e l => rfl

/-- The checks of `next_arg`, without the reader. -/
def checked (required name package : Bool) (arg : Str) : Except Err Str :=
  if arg = [] then if required then .error .parse else .ok arg
  else if name && !validateStr arg name package then .error .parse
  else .ok arg

theorem runReader_checkArg (required name package : Bool) (arg : Str) (l : Lex) :
    runReader (checkArg required name package arg) l =
      (checked required name package arg).map (·, l) := by
  unfold checkArg checked
  split_ifs
  · rfl
  · rfl
  · rfl
  · rfl

section Token

variable {plain : Bool} {s : Str}

theorem parseStr_single_text {v : Str} (h : '\'' ∉ v) :
    parseStr .single plain (v ++ '\'' :: s) = addWord v (parseStr .bare plain s) := by
  induction v with
  | nil =>
      rw [List.nil_append, parseStr, if_pos rfl]
      cases parseStr .bare plain s <;> rfl
  | cons c v ih =>
      obtain ⟨hc, hv⟩ := not_or.mp (List.mem_cons.not.mp h)
      rw [List.cons_append, parseStr_single_char (Ne.symm hc), ih hv, addWord_addWord]
      rfl

theorem parseStr_double_text {v : List (Bool × Char)} (h : (Seg.double v).Ok) :
    parseStr .double plain (v.flatMap Seg.doubleText ++ '"' :: s) =
      addWord (v.map Prod.snd) (parseStr .bare plain s) := by
  induction v with
  | nil =>
      rw [List.flatMap_nil, List.nil_append, parseStr_double_close]
      cases parseStr .bare plain s <;> rfl
  | cons x v ih =>
      obtain ⟨hx, hv⟩ := List.forall_mem_cons.mp h
      obtain ⟨escaped, c⟩ := x
      rw [List.flatMap_cons, List.append_assoc, Seg.doubleText]
      cases escaped with
      | true =>
          obtain ⟨hn, hr⟩ : c ≠ '\n' ∧ c ≠ '\r' := hx
          rw [if_pos rfl, List.cons_append, List.singleton_append, parseStr_double_backslash hn hr,
            ih hv, addWord_addWord]
          rfl
      | false =>
          obtain ⟨hq, hb⟩ : c ≠ '"' ∧ c ≠ '\\' := hx
          rw [if_neg Bool.false_ne_true, List.singleton_append, parseStr_double_char hq hb, ih hv,
            addWord_addWord]
          rfl

/-- A part of an argument is read as what it means, and leaves the argument plain if it is. -/
theorem parseStr_seg {seg : Seg} (h : seg.Ok) (plain : Bool) (s : Str) :
    parseStr .bare plain (seg.text ++ s) =
      addWord seg.value (parseStr .bare (plain && seg.isBare) s) := by
  cases seg with
  | bare c =>
      rw [show (Seg.bare c).isBare = true from rfl, Bool.and_true]
      exact parseStr_bare_char h plain s
  | escaped c =>
      rw [show (Seg.escaped c).isBare = false from rfl, Bool.and_false]
      exact parseStr_bare_backslash h.1 h.2
  | single v =>
      have htext : (Seg.single v).text ++ s = '\'' :: (v ++ '\'' :: s) := by simp [Seg.text]
      rw [htext, parseStr_bare_open, parseStr_single_text h,
        show (Seg.single v).isBare = false from rfl, Bool.and_false]
      rfl
  | double v =>
      have htext : (Seg.double v).text ++ s = '"' :: (v.flatMap Seg.doubleText ++ '"' :: s) := by
        simp [Seg.text]
      rw [htext, parseStr_bare_double, parseStr_double_text h,
        show (Seg.double v).isBare = false from rfl, Bool.and_false]
      rfl

theorem parseStr_token {t : Token} (h : ∀ seg ∈ t, seg.Ok) (plain : Bool) (s : Str) :
    parseStr .bare plain (t.text ++ s) = addWord t.value (parseStr .bare (plain && t.plain) s) := by
  induction t generalizing plain with
  | nil =>
      rw [Token.plain, List.all_nil, Bool.and_true]
      cases hr : parseStr .bare plain s <;> simp [addWord, Token.text, Token.value, hr]
  | cons seg t ih =>
      obtain ⟨hseg, ht⟩ := List.forall_mem_cons.mp h
      have htext : Token.text (seg :: t) ++ s = seg.text ++ (Token.text t ++ s) := by
        simp [Token.text]
      rw [htext, parseStr_seg hseg, ih ht, addWord_addWord, Bool.and_assoc]
      rfl

end Token

/-! ## What follows an argument -/

theorem isspace_of_isDelim {c : Char} (h : isDelim c = true) : isspace c = true := by
  rcases Bool.or_eq_true_iff.mp h with h | h
  · rw [beq_iff_eq.mp h]
    rfl
  · rw [beq_iff_eq.mp h]
    rfl

theorem ne_newline_of_isDelim {c : Char} (h : isDelim c = true) : c ≠ '\n' := by
  rintro rfl
  exact absurd h (by decide)

theorem Blank.notMem_newline {b : Str} (h : Blank b) : '\n' ∉ b :=
  fun hm ↦ ne_newline_of_isDelim (h _ hm) rfl

theorem parseStr_bare_delim {c : Char} (h : isDelim c = true) (plain : Bool) (s : Str) :
    parseStr .bare plain (c :: s) = some ([], getln s) := by
  rcases Bool.or_eq_true_iff.mp h with h | h
  · rw [beq_iff_eq.mp h]
    exact parseStr_bare_space plain s
  · rw [beq_iff_eq.mp h, parseStr.eq_def]
    rfl

/-- The separator stays where the NUL behind the argument does not land on it. -/
theorem parseStr_bare_sep (plain : Bool) (s : Str) :
    parseStr .bare plain (';' :: s) =
      some ([], if plain then ⟨[], (getln s).file⟩ else getln (';' :: s)) := by
  rw [parseStr.eq_def]
  rfl

theorem skipWhitespace_blank {b : Str} (hb : Blank b) (s : Str) :
    skipWhitespace (getln (b ++ s)) = skipWhitespace (getln s) := by
  have hspace : ∀ c ∈ b, isspace c = true := fun c hc ↦ isspace_of_isDelim (hb c hc)
  rw [getln_append hb.notMem_newline, skipWhitespace, skipWhitespace,
    List.dropWhile_append_of_pos hspace]

theorem nextArg_blank (required name package : Bool) {b : Str} (hb : Blank b) (s : Str) :
    nextArg required name package (getln (b ++ s)) = nextArg required name package (getln s) := by
  unfold nextArg
  rw [skipWhitespace_blank hb]

/-- The text of an argument does not look like the end of a command. -/
theorem Token.text_eq_cons {t : Token} (h : t.Ok) :
    ∃ c s, t.text = c :: s ∧ isspace c = false ∧ c ≠ ';' := by
  obtain ⟨hne, hok⟩ := h
  cases t with
  | nil => exact absurd rfl hne
  | cons seg t =>
      have hseg := hok seg List.mem_cons_self
      cases seg with
      | bare c =>
          obtain ⟨-, -, -, hsep, -, hspace⟩ := bareChar_ne hseg
          exact ⟨c, Token.text t, rfl, hspace, hsep⟩
      | escaped c => exact ⟨'\\', _, rfl, by decide, by decide⟩
      | single v => exact ⟨'\'', _, rfl, by decide, by decide⟩
      | double v => exact ⟨'"', _, rfl, by decide, by decide⟩

/-- An argument is read as what it means. -/
theorem runReader_nextArg (required name package : Bool) {t : Token} (ht : t.Ok) {b : Str}
    (hb : Blank b) {rest : Str} {l : Lex} (hrest : parseStr .bare t.plain rest = some ([], l)) :
    runReader (nextArg required name package) (getln (b ++ (t.text ++ rest))) =
      (checked required name package t.value).map (·, l) := by
  obtain ⟨c, s, hcons, hspace, hsep⟩ := Token.text_eq_cons ht
  have hparse := parseStr_token ht.2 true rest
  rw [Bool.true_and, hrest, addWord_some, List.append_nil, hcons] at hparse
  rw [runReader, nextArg_blank _ _ _ hb, hcons, List.cons_append, nextArg_getln _ _ _ hspace hsep,
    ← List.cons_append, hparse]
  exact runReader_checkArg required name package t.value l

theorem runReader_nextArg_nil (name package : Bool) {l : Lex} (h : l.line = []) :
    runReader (nextArg false name package) l = .ok ([], l) := by
  rw [runReader, nextArg_of_line_nil h]
  rfl

theorem runReader_assertEol_sep (strict : Bool) {b : Str} (hb : Blank b) (s : Str) :
    runReader (assertEol strict) (getln (b ++ ';' :: s)) = .ok ((), getln s) := by
  have hnext : runReader (nextArg false false false) (getln (b ++ ';' :: s)) =
      .ok ([], getln s) := by
    rw [runReader, nextArg_blank _ _ _ hb, nextArg_separator]
    rfl
  rw [assertEol, runReader_bind, hnext]
  rfl

theorem runReader_assertEolHeld_nil (strict : Bool) {l : Lex} (h : l.line = []) :
    runReader (assertEolHeld strict) l = .ok ((), l) := by
  obtain ⟨line, file⟩ := l
  obtain rfl : line = [] := h
  rfl

theorem runReader_assertEolHeld_sep (strict : Bool) {b : Str} (hb : Blank b) (s : Str) :
    runReader (assertEolHeld strict) (getln (b ++ ';' :: s)) = .ok ((), getln s) := by
  have hline : endsInLine .bare (skipWhitespace (getln (b ++ ';' :: s))).line = true := by
    rw [skipWhitespace_blank hb, endsInLine.eq_def]
    rfl
  have heol := runReader_assertEol_sep strict hb s
  unfold runReader at heol ⊢
  unfold assertEolHeld
  cases h : assertEol strict (getln (b ++ ';' :: s)) with
  | error e l => simp [h] at heol
  | ok u l =>
      rw [h] at heol
      simpa [hline] using heol

/-- What `assert_eol` throws. -/
theorem runReader_assertEolHeld_error {strict : Bool} {l : Lex} {e : Err}
    (h : runReader (assertEol strict) l = .error e) :
    runReader (assertEolHeld strict) l = .error e := by
  unfold runReader at h ⊢
  unfold assertEolHeld
  cases heol : assertEol strict l with
  | error e' l' =>
      rw [heol] at h
      exact h
  | ok u l' =>
      rw [heol] at h
      cases h

theorem runReader_assertEol_of_held {strict : Bool} {l l' : Lex}
    (h : runReader (assertEolHeld strict) l = .ok ((), l')) :
    runReader (assertEol strict) l = .ok ((), l') := by
  unfold runReader at h ⊢
  unfold assertEolHeld at h
  cases heol : assertEol strict l with
  | error e l₁ =>
      rw [heol] at h
      cases h
  | ok u l₁ =>
      rw [heol] at h
      dsimp only at h
      split_ifs at h
      exact h

/-! ## Reading a command -/

namespace CmdText

/-- The value of the second argument, which may be missing. -/
def secondValue (c : CmdText) : Str := (c.second.map fun a ↦ a.2.value).getD []

/-- The command that is meant. -/
def read (c : CmdText) : Except Err Command :=
  match c.kw with
  | .package => (checked true true true c.first.2.value).map fun _ ↦ .package
  | .config =>
    (checked true false false c.first.2.value).bind fun type ↦
      if validateType type then
        (checked false true false c.secondValue).map fun name ↦ .config type name
      else .error .parse
  | .option =>
    (checked true true false c.first.2.value).bind fun name ↦
      (checked false false false c.secondValue).map fun value ↦ .option false name value
  | .list =>
    (checked true true false c.first.2.value).bind fun name ↦
      (checked false false false c.secondValue).map fun value ↦ .option true name value

/-- What the command does. -/
def step (strict merge : Bool) (c : CmdText) (p : Package) (sec : Option ℕ) :
    Except Err (Package × Option ℕ) :=
  if (c.kw = .option ∨ c.kw = .list) ∧ sec.isSome = false then .error .parse
  else c.read.bind (exec strict merge p sec)

end CmdText

section Command

variable {strict : Bool} {c : CmdText}

/-- What `commandArgs` reads of the second argument and behind it. -/
theorem runReader_second {α : Type} (name : Bool) {a : Str × Token} (ha : CmdText.ArgOk a)
    {rest : Str} {l l' : Lex} (hrest : parseStr .bare a.2.plain rest = some ([], l))
    (heol : runReader (assertEolHeld strict) l = .ok ((), l')) {b : Str} (hb : Blank b)
    (f : Str → α) :
    runReader (do
        let x ← nextArg false name false
        assertEolHeld strict
        return f x) (getln (b ++ (a.2.text ++ rest))) =
      ((checked false name false a.2.value).map f).map (·, l') := by
  rw [runReader_bind, runReader_nextArg false name false ha.2.2 hb hrest]
  cases checked false name false a.2.value with
  | error e => rfl
  | ok x =>
      change runReader (assertEolHeld strict >>= fun _ ↦ pure (f x)) l = _
      rw [runReader_bind, heol]
      rfl

/-- A missing second argument at the end of a line. -/
theorem runReader_second_nil {α : Type} (name : Bool) {l : Lex} (hl : l.line = []) (f : Str → α) :
    runReader (do
        let x ← nextArg false name false
        assertEolHeld strict
        return f x) l = .ok (f [], l) := by
  rw [runReader_bind, runReader_nextArg_nil _ _ hl]
  change runReader (assertEolHeld strict >>= fun _ ↦ pure (f [])) l = _
  rw [runReader_bind, runReader_assertEolHeld_nil strict hl]
  rfl

/-- The first argument of a command and what is read behind it. -/
theorem runReader_first {α : Type} (package : Bool) {a : Str × Token} (ha : CmdText.ArgOk a)
    (name : Bool) {rest : Str} {l : Lex} (hrest : parseStr .bare a.2.plain rest = some ([], l))
    {b : Str} (hb : Blank b) (f : Str → Reader α) :
    runReader (nextArg true name package >>= f) (getln (b ++ (a.2.text ++ rest))) =
      (checked true name package a.2.value).bind fun x ↦ runReader (f x) l := by
  rw [runReader_bind, runReader_nextArg true name package ha.2.2 hb hrest]
  cases checked true name package a.2.value with
  | error e => rfl
  | ok x => rfl

theorem runReader_checkType {α : Type} (type : Str) (x : Reader α) (l : Lex) :
    runReader (checkType type >>= fun _ ↦ x) l =
      if validateType type then runReader x l else .error .parse := by
  rw [runReader_bind, checkType]
  split_ifs
  · rfl
  · rfl

/-- The commands in terms of what is read behind their first argument. -/
theorem runReader_commandArgs {rest : Str} {l l' : Lex}
    (hfirst : CmdText.ArgOk c.first) (hrest : parseStr .bare c.first.2.plain rest = some ([], l))
    (hpackage : c.kw = .package → runReader (assertEol strict) l = .ok ((), l'))
    (hsecond : c.kw ≠ .package → ∀ (name : Bool) (f : Str → Command),
      runReader (do
        let x ← nextArg false name false
        assertEolHeld strict
        return f x) l = ((checked false name false c.secondValue).map f).map (·, l'))
    {b : Str} (hb : Blank b) :
    runReader (commandArgs strict c.kw) (getln (b ++ (c.first.2.text ++ rest))) =
      c.read.map (·, l') := by
  rw [CmdText.read]
  cases hk : c.kw with
  | package =>
      rw [commandArgs, runReader_first true hfirst true hrest hb]
      dsimp only
      cases checked true true true c.first.2.value with
      | error e => rfl
      | ok x =>
          change runReader (assertEol strict >>= fun _ ↦ pure Command.package) l = _
          rw [runReader_bind, hpackage hk]
          rfl
  | config =>
      rw [commandArgs, runReader_first false hfirst false hrest hb]
      dsimp only
      cases checked true false false c.first.2.value with
      | error e => rfl
      | ok type =>
          change runReader (checkType type >>= fun _ ↦ _) l = _
          rw [runReader_checkType, hsecond (by simp [hk]) true (Command.config type)]
          change _ = Except.map _ (if validateType type then _ else _)
          split_ifs
          · rfl
          · rfl
  | option =>
      rw [commandArgs, runReader_first false hfirst true hrest hb]
      dsimp only
      cases checked true true false c.first.2.value with
      | error e => rfl
      | ok name => exact hsecond (by simp [hk]) false (Command.option false name)
  | list =>
      rw [commandArgs, runReader_first false hfirst true hrest hb]
      dsimp only
      cases checked true true false c.first.2.value with
      | error e => rfl
      | ok name => exact hsecond (by simp [hk]) false (Command.option true name)

/-- The arguments of a command, the text of them behind the first blank. -/
def CmdText.argsText (c : CmdText) : Str :=
  c.first.1.tail ++ (c.first.2.text ++ (c.second.map CmdText.argText).getD [])

theorem Blank.tail {b : Str} (hb : Blank b) : Blank b.tail :=
  fun c hc ↦ hb c (List.mem_of_mem_tail hc)

/-- A command with all its arguments is read, and its end behind them. -/
theorem runReader_commandArgs_complete (hc : c.Ok) (hcomplete : c.Complete) {rest : Str}
    {l l' : Lex} (hrest : parseStr .bare c.last.plain rest = some ([], l))
    (heol : runReader (assertEolHeld strict) l = .ok ((), l')) :
    runReader (commandArgs strict c.kw) (getln (c.argsText ++ rest)) = c.read.map (·, l') := by
  obtain ⟨hfirst, hsecond, hpackage⟩ := hc
  rw [CmdText.argsText, List.append_assoc, List.append_assoc]
  cases hs : c.second with
  | none =>
      have hk : c.kw = .package := hcomplete.resolve_right (by simp [hs])
      rw [CmdText.last, hs] at hrest
      exact runReader_commandArgs hfirst hrest (fun _ ↦ runReader_assertEol_of_held heol)
        (fun h ↦ absurd hk h) hfirst.2.1.tail
  | some a =>
      have hk : c.kw ≠ .package := fun h ↦ by simp [hpackage h] at hs
      obtain ⟨hne, hblank, htok⟩ := hsecond a hs
      obtain ⟨d, bs, hbs⟩ := List.exists_cons_of_ne_nil hne
      have hd : isDelim d = true := hblank d (by rw [hbs]; exact List.mem_cons_self)
      have htext : (Option.map CmdText.argText (some a)).getD [] ++ rest =
          d :: (bs ++ (a.2.text ++ rest)) := by
        simp [CmdText.argText, hbs]
      have hbs' : Blank bs := fun x hx ↦ hblank x (by rw [hbs]; exact List.mem_cons_of_mem _ hx)
      have hvalue : c.secondValue = a.2.value := by simp [CmdText.secondValue, hs]
      rw [CmdText.last, hs] at hrest
      rw [htext]
      refine runReader_commandArgs hfirst (parseStr_bare_delim hd _ _) (fun h ↦ absurd h hk)
        (fun _ name f ↦ ?_) hfirst.2.1.tail
      rw [hvalue]
      exact runReader_second name (hsecond a hs) hrest heol hbs' f

/-- A command is read when the line ends behind its last argument. -/
theorem runReader_commandArgs_end (hc : c.Ok) {rest : Str} {l : Lex}
    (hrest : parseStr .bare c.last.plain rest = some ([], l)) (hl : l.line = []) :
    runReader (commandArgs strict c.kw) (getln (c.argsText ++ rest)) = c.read.map (·, l) := by
  by_cases hcomplete : c.Complete
  · exact runReader_commandArgs_complete hc hcomplete hrest (runReader_assertEolHeld_nil strict hl)
  · obtain ⟨hk, hs⟩ := not_or.mp hcomplete
    have hs' : c.second = none := by simpa using hs
    rw [CmdText.last, hs'] at hrest
    rw [CmdText.argsText, List.append_assoc, List.append_assoc, hs']
    refine runReader_commandArgs hc.1 hrest (fun h ↦ absurd h hk) (fun _ name f ↦ ?_) hc.1.2.1.tail
    rw [runReader_second_nil name hl, CmdText.secondValue, hs']
    rfl

theorem eq_parse_of_checked {required name package : Bool} {arg : Str} {e : Err}
    (h : checked required name package arg = .error e) : e = .parse := by
  unfold checked at h
  split_ifs at h
  · exact (Except.error.inj h).symm
  · exact (Except.error.inj h).symm

/-- Where what is read behind the first argument fails, the command does. -/
theorem runReader_commandArgs_error {rest : Str} {l : Lex} (hk : c.kw ≠ .package)
    (hfirst : CmdText.ArgOk c.first) (hrest : parseStr .bare c.first.2.plain rest = some ([], l))
    (hsecond : ∀ (name : Bool) (f : Str → Command),
      runReader (do
        let x ← nextArg false name false
        assertEolHeld strict
        return f x) l = .error .parse)
    {b : Str} (hb : Blank b) :
    runReader (commandArgs strict c.kw) (getln (b ++ (c.first.2.text ++ rest))) =
      .error .parse := by
  cases hkw : c.kw with
  | package => exact absurd hkw hk
  | config =>
      rw [commandArgs, runReader_first false hfirst false hrest hb]
      cases hch : checked true false false c.first.2.value with
      | error e => exact congrArg Except.error (eq_parse_of_checked hch)
      | ok type =>
          change runReader (checkType type >>= fun _ ↦ _) l = _
          rw [runReader_checkType, hsecond true (Command.config type), ite_self]
  | option =>
      rw [commandArgs, runReader_first false hfirst true hrest hb]
      cases hch : checked true true false c.first.2.value with
      | error e => exact congrArg Except.error (eq_parse_of_checked hch)
      | ok name => exact hsecond false (Command.option false name)
  | list =>
      rw [commandArgs, runReader_first false hfirst true hrest hb]
      cases hch : checked true true false c.first.2.value with
      | error e => exact congrArg Except.error (eq_parse_of_checked hch)
      | ok name => exact hsecond false (Command.option true name)

end Command

/-! ## Carrying out a line -/

section Line

variable {strict merge : Bool} {c c₁ c₂ : CmdText} {st : ImportSt} {b b₁ b₂ rest file : Str}

theorem CmdText.keyword_word (c : CmdText) : keyword c.word = some c.kw := by
  obtain ⟨kw, short, first, second⟩ := c
  cases kw <;> cases short <;> rfl

theorem CmdText.word_ok (c : CmdText) :
    c.word ≠ [] ∧ c.word.head? ≠ some '#' ∧
      ∀ x ∈ c.word, isDelim x = false ∧ x ≠ '\n' ∧ isspace x = false := by
  have key : ∀ (kw : Keyword) (short : Bool),
      (if short then kw.word.take 1 else kw.word) ≠ [] ∧
        (if short then kw.word.take 1 else kw.word).head? ≠ some '#' ∧
          ∀ x ∈ if short then kw.word.take 1 else kw.word,
            isDelim x = false ∧ x ≠ '\n' ∧ isspace x = false := by
    intro kw short
    cases kw <;> cases short <;> simp [Keyword.word, isDelim, isspace]
  exact key c.kw c.short

/-- The word of a command is read as an argument where one is expected. -/
theorem runReader_assertEol_word (c : CmdText) (hb : Blank b) {d : Char}
    (hd : isDelim d = true) (s : Str) :
    runReader (assertEol true) (getln (b ++ (c.word ++ d :: s))) = .error .parse := by
  obtain ⟨hne, -, -⟩ := c.word_ok
  have hbare : ∀ (kw : Keyword) (short : Bool),
      ∀ x ∈ if short then kw.word.take 1 else kw.word, bareChar x = true := by
    intro kw short
    cases kw <;> cases short <;> simp [Keyword.word, bareChar, isspace]
  have htok : Token.Ok (c.word.map Seg.bare) := by
    refine ⟨by simpa using hne, fun seg hseg ↦ ?_⟩
    obtain ⟨x, hx, rfl⟩ := List.mem_map.mp hseg
    exact hbare c.kw c.short x hx
  have htext : Token.text (c.word.map Seg.bare) = c.word := by
    rw [Token.text, List.flatMap_map]
    exact List.flatMap_singleton' c.word
  have hvalue : Token.value (c.word.map Seg.bare) = c.word := by
    rw [Token.value, List.flatMap_map]
    exact List.flatMap_singleton' c.word
  have hread := runReader_nextArg false false false htok hb
    (parseStr_bare_delim hd (Token.plain (c.word.map Seg.bare)) s)
  have hchecked : checked false false false c.word = .ok c.word := by
    rw [checked, if_neg hne]
    rfl
  rw [htext, hvalue, hchecked] at hread
  rw [assertEol, runReader_bind, hread]
  change runReader (if !c.word.isEmpty && true then _ else _) _ = _
  rw [if_pos (by simpa using hne)]
  rfl

/-- The text of a command is its word, a blank, and the rest. -/
theorem CmdText.text_eq (hc : c.Ok) :
    ∃ d, isDelim d = true ∧ c.text = c.word ++ d :: c.argsText := by
  obtain ⟨⟨hne, hblank, -⟩, -, -⟩ := hc
  obtain ⟨d, bs, hbs⟩ := List.exists_cons_of_ne_nil hne
  refine ⟨d, hblank d (by rw [hbs]; exact List.mem_cons_self), ?_⟩
  simp [CmdText.text, CmdText.argText, CmdText.argsText, hbs]

/-- The word of a command is recognised. -/
theorem runReader_parseCommand (strict inSection : Bool) (c : CmdText) (hb : Blank b) {d : Char}
    (hd : isDelim d = true) (s : Str) :
    runReader (parseCommand strict inSection) (getln (b ++ (c.word ++ d :: s))) =
      if (c.kw = .option ∨ c.kw = .list) ∧ inSection = false then .error .parse
      else (runReader (commandArgs strict c.kw) (getln s)).map fun r ↦ (some r.1, r.2) := by
  obtain ⟨hne, hhead, hword⟩ := c.word_ok
  have hline : getln (b ++ (c.word ++ d :: s)) =
      ⟨b ++ (c.word ++ d :: (getln s).line), (getln s).file⟩ := by
    rw [getln_append hb.notMem_newline, getln_append fun hm ↦ (hword _ hm).2.1 rfl, getln,
      if_neg (ne_newline_of_isDelim hd)]
  have hcur : (b ++ (c.word ++ d :: (getln s).line)).dropWhile isDelim =
      c.word ++ d :: (getln s).line := by
    rw [List.dropWhile_append_of_pos hb]
    obtain ⟨x, xs, hx⟩ := List.exists_cons_of_ne_nil hne
    have hdx : isDelim x = false := (hword x (by rw [hx]; exact List.mem_cons_self)).1
    rw [hx, List.cons_append, List.dropWhile_cons_of_neg (by simp [hdx])]
  have hpos : ∀ x ∈ c.word, (!isDelim x) = true := fun x hx ↦ by simp [(hword x hx).1]
  have htake : (c.word ++ d :: (getln s).line).takeWhile (!isDelim ·) = c.word := by
    rw [List.takeWhile_append_of_pos hpos, List.takeWhile_cons_of_neg (by simp [hd]),
      List.append_nil]
  have hdrop : (c.word ++ d :: (getln s).line).dropWhile (!isDelim ·) = d :: (getln s).line := by
    rw [List.dropWhile_append_of_pos hpos, List.dropWhile_cons_of_neg (by simp [hd])]
  rw [runReader, parseCommand]
  simp only [hline, hcur, htake, hdrop, c.keyword_word, hne, hhead, or_self, if_false]
  by_cases hsec : (c.kw = .option ∨ c.kw = .list) ∧ inSection = false
  · simp only [if_pos hsec]
  · simp only [if_neg hsec]
    change runReader (commandArgs strict c.kw >>= fun a ↦ pure (some a)) (getln s) = _
    rw [runReader_bind]
    rfl

/-- A line whose first command is read does what that command does, and then what stands
behind it. -/
theorem parseLineLoop_command {l : Lex} (hc : c.Ok) (hb : Blank b)
    (hargs : runReader (commandArgs strict c.kw) (getln (c.argsText ++ rest)) = c.read.map (·, l))
    (n : ℕ) (p : Package) (sec : Option ℕ) :
    parseLineLoop strict merge (n + 1) ⟨getln (b ++ (c.text ++ rest)), p, sec⟩ =
      (c.step strict merge p sec).bind fun r ↦ parseLineLoop strict merge n ⟨l, r.1, r.2⟩ := by
  obtain ⟨d, hd, htext⟩ := CmdText.text_eq hc
  have hparse := runReader_parseCommand strict sec.isSome c hb hd (c.argsText ++ rest)
  rw [hargs] at hparse
  rw [htext, List.append_assoc, List.cons_append, parseLineLoop, CmdText.step]
  dsimp only
  rw [runReader] at hparse
  split at hparse
  · rename_i o l₁ hok
    rw [hok]
    by_cases hsec : (c.kw = .option ∨ c.kw = .list) ∧ sec.isSome = false
    · rw [if_pos hsec] at hparse
      cases hparse
    · rw [if_neg hsec] at hparse ⊢
      cases hread : c.read with
      | error e =>
          rw [hread] at hparse
          cases hparse
      | ok cmd =>
          rw [hread] at hparse
          cases hparse
          dsimp only [Except.bind]
          cases exec strict merge p sec cmd with
          | error e => rfl
          | ok r => rfl
  · rename_i e l₁ herr
    rw [herr]
    by_cases hsec : (c.kw = .option ∨ c.kw = .list) ∧ sec.isSome = false
    · rw [if_pos hsec] at hparse ⊢
      cases hparse
      rfl
    · rw [if_neg hsec] at hparse ⊢
      cases hread : c.read with
      | error e' =>
          rw [hread] at hparse
          cases hparse
          rfl
      | ok cmd =>
          rw [hread] at hparse
          cases hparse

theorem parseLineLoop_nil (n : ℕ) (file : Str) (p : Package) (sec : Option ℕ) :
    parseLineLoop strict merge n ⟨⟨[], file⟩, p, sec⟩ = .ok ⟨⟨[], file⟩, p, sec⟩ := by
  cases n with
  | zero => rfl
  | succ n => rfl

/-- A line that begins with a command is parsed from there. -/
theorem parseLine_eq (strict merge : Bool) (hc : c.Ok) (hb : Blank b) (rest : Str) (p : Package)
    (sec : Option ℕ) :
    ∃ n, parseLine strict merge ⟨getln (b ++ (c.text ++ rest)), p, sec⟩ =
      parseLineLoop strict merge (n + 3) ⟨getln (c.text ++ rest), p, sec⟩ := by
  obtain ⟨d, hd, htext⟩ := CmdText.text_eq hc
  obtain ⟨hne, -, hword⟩ := c.word_ok
  obtain ⟨x, xs, hx⟩ := List.exists_cons_of_ne_nil hne
  obtain ⟨-, hnl, hspace⟩ := hword x (by rw [hx]; exact List.mem_cons_self)
  have hskip : skipWhitespace (getln (b ++ (c.text ++ rest))) = getln (c.text ++ rest) := by
    rw [skipWhitespace_blank hb, htext, hx, List.cons_append, List.cons_append, getln, if_neg hnl,
      skipWhitespace, List.dropWhile_cons_of_neg (by simp [hspace])]
  have htotal : ∃ n, (getln (b ++ (c.text ++ rest))).total + 1 = n + 3 := by
    refine ⟨(getln (b ++ (c.text ++ rest))).total - 2, ?_⟩
    rw [getln_total, htext, hx]
    simp only [List.length_append, List.length_cons]
    omega
  obtain ⟨n, hn⟩ := htotal
  refine ⟨n, ?_⟩
  rw [parseLine, hn]
  exact congrArg (fun l ↦ parseLineLoop strict merge (n + 3) ⟨l, p, sec⟩) hskip

/-- A command on a line of its own. -/
theorem parseLine_command (hc : c.Ok) (s : Str) (p : Package) (sec : Option ℕ) :
    parseLine strict merge ⟨getln (c.text ++ '\n' :: s), p, sec⟩ =
      (c.step strict merge p sec).map fun r ↦ ⟨⟨[], s⟩, r.1, r.2⟩ := by
  have hend : parseStr .bare c.last.plain ('\n' :: s) = some ([], ⟨[], s⟩) :=
    parseStr_bare_newline _ _
  obtain ⟨n, hn⟩ := parseLine_eq strict merge hc blank_nil ('\n' :: s) p sec
  rw [List.nil_append] at hn
  rw [hn, ← List.nil_append (c.text ++ _),
    parseLineLoop_command hc blank_nil (runReader_commandArgs_end hc hend rfl)]
  cases c.step strict merge p sec with
  | error e => rfl
  | ok r => exact parseLineLoop_nil _ _ _ _

/-- Two commands on one line. -/
def joined (strict merge : Bool) (c₁ c₂ : CmdText) (b₁ b₂ file : Str) (p : Package)
    (sec : Option ℕ) : Except Err ImportSt :=
  parseLine strict merge
    ⟨getln (c₁.text ++ (b₁ ++ ';' :: (b₂ ++ (c₂.text ++ '\n' :: file)))), p, sec⟩

/-- Two commands on two lines. -/
def separate (strict merge : Bool) (c₁ c₂ : CmdText) (file : Str) (p : Package)
    (sec : Option ℕ) : Except Err ImportSt :=
  (parseLine strict merge ⟨getln (c₁.text ++ '\n' :: (c₂.text ++ '\n' :: file)), p, sec⟩).bind
    (parseNextLine strict merge)

/-- The separator ends the first command: that has all its arguments, and the separator
stands behind a blank or the last argument is not plain. -/
def Kept (c₁ : CmdText) (b₁ : Str) : Prop := c₁.Complete ∧ (b₁ ≠ [] ∨ c₁.last.plain = false)

/-- The NUL behind a plain argument lands on the separator. -/
def Dropped (c₁ : CmdText) (b₁ : Str) : Prop := b₁ = [] ∧ c₁.last.plain = true

/-- The second command has one line and does nothing where the first one succeeds. -/
def Idle (strict merge : Bool) (c₁ c₂ : CmdText) (p : Package) (sec : Option ℕ) : Prop :=
  ∀ r, c₁.step strict merge p sec = .ok r →
    '\n' ∉ c₂.text ∧ c₂.step strict merge r.1 r.2 = .ok r

theorem separate_eq (hc₁ : c₁.Ok) (hc₂ : c₂.Ok) (file : Str) (p : Package) (sec : Option ℕ) :
    separate strict merge c₁ c₂ file p sec =
      (c₁.step strict merge p sec).bind fun r ↦
        (c₂.step strict merge r.1 r.2).map fun r' ↦ ⟨⟨[], file⟩, r'.1, r'.2⟩ := by
  rw [separate, parseLine_command hc₁]
  cases c₁.step strict merge p sec with
  | error e => rfl
  | ok r => exact parseLine_command hc₂ file r.1 r.2

theorem joined_of_args (merge : Bool) (c₂ : CmdText) (b₁ b₂ : Str) {l : Lex} (hc₁ : c₁.Ok)
    (file : Str) (p : Package) (sec : Option ℕ) (hargs : runReader (commandArgs strict c₁.kw)
      (getln (c₁.argsText ++ (b₁ ++ ';' :: (b₂ ++ (c₂.text ++ '\n' :: file))))) =
        c₁.read.map (·, l)) :
    ∃ n, joined strict merge c₁ c₂ b₁ b₂ file p sec =
      (c₁.step strict merge p sec).bind fun r ↦
        parseLineLoop strict merge (n + 2) ⟨l, r.1, r.2⟩ := by
  obtain ⟨n, hn⟩ := parseLine_eq strict merge hc₁ blank_nil
    (b₁ ++ ';' :: (b₂ ++ (c₂.text ++ '\n' :: file))) p sec
  rw [List.nil_append] at hn
  refine ⟨n, ?_⟩
  rw [joined, hn, ← List.nil_append (c₁.text ++ _), parseLineLoop_command hc₁ blank_nil hargs]

/-- A separator that is not overwritten is ahead of the lexer when the argument has ended. -/
theorem parseStr_kept_sep (hb₁ : Blank b₁) (hdrop : ¬Dropped c₁ b₁) (s : Str) :
    ∃ bs, Blank bs ∧
      parseStr .bare c₁.last.plain (b₁ ++ ';' :: s) = some ([], getln (bs ++ ';' :: s)) := by
  cases b₁ with
  | nil =>
      have hplain : c₁.last.plain = false := by simpa [Dropped] using hdrop
      refine ⟨[], hb₁, ?_⟩
      rw [List.nil_append, parseStr_bare_sep, hplain]
      rfl
  | cons d bs => exact ⟨bs, hb₁.tail, parseStr_bare_delim (hb₁ d List.mem_cons_self) _ _⟩

theorem Kept.not_dropped (h : Kept c₁ b₁) : ¬Dropped c₁ b₁ := by
  rintro ⟨hb, hplain⟩
  rcases h.2 with hne | hnot
  · exact hne hb
  · rw [hplain] at hnot
    cases hnot

/-- Where the separator ends the first command, the second one is carried out. -/
theorem joined_of_kept (hc₁ : c₁.Ok) (hc₂ : c₂.Ok) (hb₁ : Blank b₁) (hb₂ : Blank b₂)
    (h : Kept c₁ b₁) (file : Str) (p : Package) (sec : Option ℕ) :
    joined strict merge c₁ c₂ b₁ b₂ file p sec = separate strict merge c₁ c₂ file p sec := by
  obtain ⟨bs, hbs, hrest⟩ := parseStr_kept_sep hb₁ h.not_dropped
    (b₂ ++ (c₂.text ++ '\n' :: file))
  obtain ⟨n, hn⟩ := joined_of_args merge c₂ b₁ b₂ hc₁ file p sec
    (runReader_commandArgs_complete hc₁ h.1 hrest (runReader_assertEolHeld_sep strict hbs _))
  have hend : parseStr .bare c₂.last.plain ('\n' :: file) = some ([], ⟨[], file⟩) :=
    parseStr_bare_newline _ _
  rw [hn, separate_eq hc₁ hc₂]
  cases c₁.step strict merge p sec with
  | error e => rfl
  | ok r =>
      change parseLineLoop strict merge (n + 1 + 1) _ = _
      rw [parseLineLoop_command hc₂ hb₂ (runReader_commandArgs_end hc₂ hend rfl)]
      change _ = Except.map _ (c₂.step strict merge r.1 r.2)
      cases c₂.step strict merge r.1 r.2 with
      | error e => rfl
      | ok r' => exact parseLineLoop_nil _ _ _ _

/-- Where the separator is overwritten, the rest of its line is lost. -/
theorem joined_of_dropped (hc₁ : c₁.Ok) (h : Dropped c₁ b₁) (c₂ : CmdText) (b₂ file : Str)
    (p : Package) (sec : Option ℕ) :
    joined strict merge c₁ c₂ b₁ b₂ file p sec =
      (c₁.step strict merge p sec).map fun r ↦
        ⟨⟨[], (getln (b₂ ++ (c₂.text ++ '\n' :: file))).file⟩, r.1, r.2⟩ := by
  obtain ⟨rfl, hplain⟩ := h
  have hrest : parseStr .bare c₁.last.plain ([] ++ ';' :: (b₂ ++ (c₂.text ++ '\n' :: file))) =
      some ([], ⟨[], (getln (b₂ ++ (c₂.text ++ '\n' :: file))).file⟩) := by
    rw [List.nil_append, parseStr_bare_sep, hplain]
    rfl
  obtain ⟨n, hn⟩ := joined_of_args merge c₂ [] b₂ hc₁ file p sec
    (runReader_commandArgs_end hc₁ hrest rfl)
  rw [hn]
  cases c₁.step strict merge p sec with
  | error e => rfl
  | ok r => exact parseLineLoop_nil _ _ _ _

/-- A command that fails ends its line. -/
theorem parseLineLoop_error (hc : c.Ok) (hb : Blank b)
    (hargs : runReader (commandArgs strict c.kw) (getln (c.argsText ++ rest)) = .error .parse)
    (n : ℕ) (p : Package) (sec : Option ℕ) :
    parseLineLoop strict merge (n + 1) ⟨getln (b ++ (c.text ++ rest)), p, sec⟩ =
      .error .parse := by
  obtain ⟨d, hd, htext⟩ := CmdText.text_eq hc
  have hparse := runReader_parseCommand strict sec.isSome c hb hd (c.argsText ++ rest)
  rw [hargs] at hparse
  have herr : runReader (parseCommand strict sec.isSome)
      (getln (b ++ (c.word ++ d :: (c.argsText ++ rest)))) = .error .parse := by
    rw [hparse]
    split_ifs
    · rfl
    · rfl
  rw [htext, List.append_assoc, List.cons_append, parseLineLoop]
  rw [runReader] at herr
  dsimp only
  split at herr
  · cases herr
  · rename_i hok
    rw [hok]
    cases herr
    rfl

/-- In strict mode a command that has not all its arguments takes the word of the next
one for one too many. -/
theorem joined_of_eaten (hc₁ : c₁.Ok) (hc₂ : c₂.Ok) (hb₁ : Blank b₁) (hb₂ : Blank b₂)
    (hcomplete : ¬c₁.Complete) (hdrop : ¬Dropped c₁ b₁) (file : Str) (p : Package)
    (sec : Option ℕ) :
    joined true merge c₁ c₂ b₁ b₂ file p sec = .error .parse := by
  obtain ⟨hk, hs⟩ := not_or.mp hcomplete
  have hs' : c₁.second = none := by simpa using hs
  obtain ⟨bs, hbs, hrest⟩ := parseStr_kept_sep hb₁ hdrop (b₂ ++ (c₂.text ++ '\n' :: file))
  obtain ⟨d, hd, htext⟩ := CmdText.text_eq hc₂
  have hsecond : ∀ (name : Bool) (f : Str → Command),
      runReader (do
        let x ← nextArg false name false
        assertEolHeld true
        return f x) (getln (bs ++ ';' :: (b₂ ++ (c₂.text ++ '\n' :: file)))) = .error .parse := by
    intro name f
    have hnext : runReader (nextArg false name false)
        (getln (bs ++ ';' :: (b₂ ++ (c₂.text ++ '\n' :: file)))) =
          .ok ([], getln (b₂ ++ (c₂.text ++ '\n' :: file))) := by
      rw [runReader, nextArg_blank _ _ _ hbs, nextArg_separator]
      rfl
    rw [runReader_bind, hnext]
    change runReader (assertEolHeld true >>= fun _ ↦ pure (f [])) (getln _) = _
    rw [runReader_bind, htext, List.append_assoc, List.cons_append,
      runReader_assertEolHeld_error (runReader_assertEol_word c₂ hb₂ hd _)]
    rfl
  rw [CmdText.last, hs'] at hrest
  have hargs : runReader (commandArgs true c₁.kw) (getln (c₁.argsText ++
      (b₁ ++ ';' :: (b₂ ++ (c₂.text ++ '\n' :: file))))) = .error .parse := by
    rw [CmdText.argsText, List.append_assoc, List.append_assoc, hs']
    exact runReader_commandArgs_error hk hc₁.1 hrest hsecond hc₁.1.2.1.tail
  obtain ⟨n, hn⟩ := parseLine_eq true merge hc₁ blank_nil
    (b₁ ++ ';' :: (b₂ ++ (c₂.text ++ '\n' :: file))) p sec
  rw [List.nil_append] at hn
  rw [joined, hn, ← List.nil_append (c₁.text ++ _)]
  exact parseLineLoop_error hc₁ blank_nil hargs (n + 2) p sec

/-- The rest of a line is all there is to a text without a newline. -/
theorem getln_file_eq_iff (w file : Str) : (getln (w ++ '\n' :: file)).file = file ↔ '\n' ∉ w := by
  constructor
  · intro h hmem
    have hlen : file.length < (getln (w ++ '\n' :: file)).file.length := by
      clear h
      induction w with
      | nil => cases hmem
      | cons x w ih =>
          rw [List.cons_append, getln]
          split_ifs with hx
          · simp only [List.length_append, List.length_cons]
            omega
          · exact ih ((List.mem_cons.mp hmem).resolve_left (Ne.symm hx))
    rw [h] at hlen
    exact lt_irrefl _ hlen
  · intro h
    rw [getln_append h, getln, if_pos rfl]

/-- Two commands on one line do the same as on two lines where the separator ends the first
one, or is overwritten and the second one does nothing; otherwise only where the first one
has not all its arguments, and in strict mode both fail. -/
theorem joined_eq_separate (hc₁ : c₁.Ok) (hc₂ : c₂.Ok) (hb₁ : Blank b₁) (hb₂ : Blank b₂)
    (file : Str) (p : Package) (sec : Option ℕ) :
    (Kept c₁ b₁ ∨ Dropped c₁ b₁ ∧ Idle strict merge c₁ c₂ p sec →
      joined strict merge c₁ c₂ b₁ b₂ file p sec = separate strict merge c₁ c₂ file p sec) ∧
    (joined strict merge c₁ c₂ b₁ b₂ file p sec = separate strict merge c₁ c₂ file p sec →
      (Kept c₁ b₁ ∨ Dropped c₁ b₁ ∧ Idle strict merge c₁ c₂ p sec) ∨
        ¬c₁.Complete ∧ ¬Dropped c₁ b₁ ∧
          (strict = true → separate strict merge c₁ c₂ file p sec = .error .parse)) := by
  have hfile : (getln (b₂ ++ (c₂.text ++ '\n' :: file))).file = file ↔ '\n' ∉ c₂.text := by
    rw [getln_append hb₂.notMem_newline]
    exact getln_file_eq_iff c₂.text file
  constructor
  · rintro (h | ⟨h, hidle⟩)
    · exact joined_of_kept hc₁ hc₂ hb₁ hb₂ h file p sec
    · rw [joined_of_dropped hc₁ h, separate_eq hc₁ hc₂]
      cases hstep : c₁.step strict merge p sec with
      | error e => rfl
      | ok r =>
          obtain ⟨hnl, hstep₂⟩ := hidle r hstep
          change Except.ok _ = Except.map _ (c₂.step strict merge r.1 r.2)
          rw [hstep₂, hfile.mpr hnl]
          rfl
  · intro heq
    by_cases hdrop : Dropped c₁ b₁
    · refine .inl (.inr ⟨hdrop, fun r hstep ↦ ?_⟩)
      rw [joined_of_dropped hc₁ hdrop, separate_eq hc₁ hc₂, hstep] at heq
      change Except.ok _ = Except.map _ (c₂.step strict merge r.1 r.2) at heq
      cases hstep₂ : c₂.step strict merge r.1 r.2 with
      | error e =>
          rw [hstep₂] at heq
          cases heq
      | ok r' =>
          rw [hstep₂] at heq
          have hst := Except.ok.inj heq
          simp only [ImportSt.mk.injEq, Lex.mk.injEq, true_and] at hst
          exact ⟨hfile.mp hst.1, congrArg Except.ok (Prod.ext hst.2.1 hst.2.2).symm⟩
    · by_cases hcomplete : c₁.Complete
      · refine .inl (.inl ⟨hcomplete, ?_⟩)
        by_contra hsep
        obtain ⟨hb, hplain⟩ := not_or.mp hsep
        exact hdrop ⟨not_not.mp hb, by simpa using hplain⟩
      · refine .inr ⟨hcomplete, hdrop, ?_⟩
        rintro rfl
        rw [← heq]
        exact joined_of_eaten hc₁ hc₂ hb₁ hb₂ hcomplete hdrop file p sec

end Line

/-! ## Two assignments -/

/-- A word without quotes. -/
def bareToken (w : String) : Token := w.toList.map Seg.bare

/-- The assignment of a value to an option. -/
def optionText (name : String) (value : Token) : CmdText :=
  ⟨.option, false, ([' '], bareToken name), some ([' '], value)⟩

/-- A package with a section. -/
def sectionPackage : Package :=
  { allocPackage ['p'] false with sections := [⟨['s'], ['t'], false, true, []⟩] }

theorem ok_optionText {name : String} {value : Token} (hname : (bareToken name).Ok)
    (hvalue : value.Ok) : (optionText name value).Ok := by
  have hne : [' '] ≠ [] := List.cons_ne_nil _ _
  refine ⟨⟨hne, blank_space, hname⟩, fun a ha ↦ ?_, fun h ↦ by cases h⟩
  cases ha
  exact ⟨hne, blank_space, hvalue⟩

/-- The separator behind a value in quotes ends the assignment. -/
theorem joined_eq_separate_quoted :
    joined true false (optionText "a" [.single ['b']]) (optionText "c" (bareToken "d")) [] [' '] []
        sectionPackage (some 0) =
      separate true false (optionText "a" [.single ['b']]) (optionText "c" (bareToken "d")) []
        sectionPackage (some 0) := by
  have hquoted : (optionText "a" [.single ['b']]).Ok :=
    ok_optionText ⟨by decide, by decide⟩ ⟨by decide, by decide⟩
  have hbare : (optionText "c" (bareToken "d")).Ok :=
    ok_optionText ⟨by decide, by decide⟩ ⟨by decide, by decide⟩
  have hkept : Kept (optionText "a" [.single ['b']]) [] := ⟨.inr rfl, .inr rfl⟩
  exact (joined_eq_separate hquoted hbare blank_nil blank_space [] sectionPackage
    (some 0)).1 (.inl hkept)

/-- The assignment behind a plain value and a separator is lost, and so is the word of a
command behind one that has not all its arguments. -/
theorem joined_ne_separate_plain :
    joined true false (optionText "a" (bareToken "b")) (optionText "c" (bareToken "d")) [] [] []
        sectionPackage (some 0) ≠
      separate true false (optionText "a" (bareToken "b")) (optionText "c" (bareToken "d")) []
        sectionPackage (some 0) ∧
    joined true false ⟨.config, false, ([' '], bareToken "t"), none⟩
        (optionText "c" (bareToken "d")) [' '] [' '] [] sectionPackage (some 0) ≠
      separate true false ⟨.config, false, ([' '], bareToken "t"), none⟩
        (optionText "c" (bareToken "d")) [] sectionPackage (some 0) := by
  constructor
  · decide
  · decide

end MiniPi.Uci
