import MiniPi.Uci.Ops
import Mathlib.Order.Basic

/-!
# The reader of configuration files

`parse_str`, `next_arg`, the commands and the loop of `uci_import`.

The parse context holds one line in a buffer; `line` is the part of it that is still
to be read and `file` is what follows the line in the stream.  A line that is not the
last one ends in a newline, so inside `parse_str` the text ahead is `line ++ file` and
fetching a line when the buffer is used up does not show.  An argument is copied over the
place it was read from: where nothing was dropped from it, its final NUL lands on the
character that ended it.

An import is of a single package, whose name is not loaded yet or which is passed in to
be merged with.
-/

namespace MiniPi.Uci

/-- What the reader has in front of it. -/
structure Lex where
  line : Str
  file : Str
deriving DecidableEq, Repr

/-- A function of the reader: it moves on also when it throws. -/
abbrev Reader := EStateM Err Lex

/-- `uci_getln` at an empty buffer. -/
def getln : Str → Lex
  | [] => ⟨[], []⟩
  | c :: s => if c = '\n' then ⟨[c], s⟩ else ⟨c :: (getln s).line, (getln s).file⟩

/-- `skip_whitespace`. -/
def skipWhitespace (l : Lex) : Lex := { l with line := l.line.dropWhile isspace }

/-! ## Arguments -/

/-- The quoting styles. -/
inductive Quote where
  | bare
  | single
  | double
deriving DecidableEq, Repr

/-- `addc` before the rest of the argument. -/
def addc (c : Char) : Option (Str × Lex) → Option (Str × Lex)
  | none => none
  | some (arg, l) => some (c :: arg, l)

/-- `parse_str` with `parse_single_quote`, `parse_double_quote` and `parse_backslash`,
on the text ahead.  `plain` says that no quote and no backslash was dropped from the
argument so far.  `none` is the end of the file inside quotes. -/
def parseStr : Quote → Bool → Str → Option (Str × Lex)
  | .single, _, [] => none
  | .single, plain, c :: s =>
    if c = '\'' then parseStr .bare plain s else addc c (parseStr .single plain s)
  | .double, _, [] => none
  | .double, plain, c :: s =>
    if c = '"' then parseStr .bare plain s
    else if c = '\\' then
      match s with
      | [] => none
      | '\n' :: s => parseStr .double plain s
      | '\r' :: '\n' :: s => parseStr .double plain s
      | d :: s => addc d (parseStr .double plain s)
    else addc c (parseStr .double plain s)
  | .bare, _, [] => some ([], ⟨[], []⟩)
  | .bare, plain, c :: s =>
    if c = '\'' then parseStr .single false s
    else if c = '"' then parseStr .double false s
    -- The comment sign becomes a NUL, which ends the line.
    else if c = '#' then some ([], ⟨[], (getln s).file⟩)
    else if c = ';' then
      -- The final NUL of a plain argument lands on the separator and ends the line.
      some ([], if plain then ⟨[], (getln s).file⟩ else getln (c :: s))
    else if c = '\\' then
      match s with
      | [] => some ([], ⟨[], []⟩)
      | '\n' :: s => parseStr .bare false s
      | '\r' :: '\n' :: s => parseStr .bare false s
      | d :: s => addc d (parseStr .bare false s)
    -- The character that ends the argument is skipped.
    else if isspace c then some ([], if c = '\n' then ⟨[], s⟩ else getln s)
    else addc c (parseStr .bare plain s)

/-- A separator between quotes belongs to the argument. -/
example : parseStr .single false [';', '\''] = some ([';'], ⟨[], []⟩) := by
  unfold parseStr
  rfl

/-- The checks at the end of `next_arg`. -/
def checkArg (required name package : Bool) (arg : Str) : Reader Str :=
  if arg = [] then
    if required then throw .parse else pure arg
  else if name && !validateStr arg name package then throw .parse
  else pure arg

/-- `next_arg`. -/
def nextArg (required name package : Bool) : Reader Str := fun l ↦
  match skipWhitespace l with
  | ⟨[], file⟩ => checkArg required name package [] ⟨[], file⟩
  | ⟨c :: line, file⟩ =>
    if c = ';' then checkArg required name package [] ⟨line, file⟩
    else
      match parseStr .bare true (c :: line ++ file) with
      | none => .error .parse ⟨[], []⟩
      | some (arg, l) => checkArg required name package arg l

/-- `assert_eol`. -/
def assertEol (strict : Bool) : Reader Unit := do
  let tmp ← nextArg false false false
  if !tmp.isEmpty && strict then throw .parse

/-- The argument that begins here ends in the line: no other line is fetched for it. -/
def endsInLine : Quote → Str → Bool
  | .single, [] => false
  | .single, c :: s => if c = '\'' then endsInLine .bare s else endsInLine .single s
  | .double, [] => false
  | .double, c :: s =>
    if c = '"' then endsInLine .bare s
    else if c = '\\' then
      match s with
      | [] => false
      | '\n' :: _ => false
      | '\r' :: '\n' :: _ => false
      | _ :: s => endsInLine .double s
    else endsInLine .double s
  | .bare, [] => true
  | .bare, c :: s =>
    if c = '\'' then endsInLine .single s
    else if c = '"' then endsInLine .double s
    else if c = '#' ∨ c = ';' then true
    else if c = '\\' then
      match s with
      | [] => false
      | '\n' :: _ => false
      | '\r' :: '\n' :: _ => false
      | _ :: s => endsInLine .bare s
    else if isspace c then true
    else endsInLine .bare s

/-- `assert_eol` while arguments are held by pointers into the buffer of the line: fetching a line
may move the buffer, and what they point to is gone. -/
def assertEolHeld (strict : Bool) : Reader Unit := fun l ↦
  match assertEol strict l with
  | .error e l' => .error e l'
  | .ok _ l' =>
    if endsInLine .bare (skipWhitespace l).line then .ok () l' else .error .undefined l'

/-! ## Commands -/

/-- The words that begin a command. -/
inductive Keyword where
  | package
  | config
  | option
  | list
deriving DecidableEq, Repr

/-- A command with its arguments. -/
inductive Command where
  | package
  | config (type name : Str)
  | option (list : Bool) (name value : Str)
deriving DecidableEq, Repr

/-- The full word. -/
def Keyword.word : Keyword → Str
  | .package => ['p', 'a', 'c', 'k', 'a', 'g', 'e']
  | .config => ['c', 'o', 'n', 'f', 'i', 'g']
  | .option => ['o', 'p', 't', 'i', 'o', 'n']
  | .list => ['l', 'i', 's', 't']

/-- The `switch` of `uci_parse_line`: a command is its first letter or the full word. -/
def keyword (word : Str) : Option Keyword :=
  if word = ['p'] ∨ word = Keyword.package.word then some .package
  else if word = ['c'] ∨ word = Keyword.config.word then some .config
  else if word = ['o'] ∨ word = Keyword.option.word then some .option
  else if word = ['l'] ∨ word = Keyword.list.word then some .list
  else none

/-- The check of the type field in `uci_parse_config`. -/
def checkType (type : Str) : Reader Unit :=
  if validateType type then pure () else throw .parse

/-- The arguments of a command, up to its `assert_eol`.  The name of a package is not used behind
it. -/
def commandArgs (strict : Bool) : Keyword → Reader Command
  | .package => do
    let _ ← nextArg true true true
    assertEol strict
    return .package
  | .config => do
    let type ← nextArg true false false
    checkType type
    let name ← nextArg false true false
    assertEolHeld strict
    return .config type name
  | .option => do
    let name ← nextArg true true false
    let value ← nextArg false false false
    assertEolHeld strict
    return .option false name value
  | .list => do
    let name ← nextArg true true false
    let value ← nextArg false false false
    assertEolHeld strict
    return .option true name value

/-- A delimiter of `strtok(.., " \t")`. -/
def isDelim (c : Char) : Bool := c == ' ' || c == '\t'

/-- The next command of a line; `none` at the end of the line.  `inSection` says that
`pctx->section` is set.  A command word with nothing behind it, at the end of the file,
makes the cursor jump over the NUL into old contents of the buffer. -/
def parseCommand (strict inSection : Bool) : Reader (Option Command) := fun l ↦
  let cur := l.line.dropWhile isDelim
  let word := cur.takeWhile (!isDelim ·)
  if word = [] ∨ word.head? = some '#' then .ok none ⟨[], l.file⟩
  else
    match keyword word with
    | none => .error .parse l
    | some k =>
      if (k = .option ∨ k = .list) ∧ inSection = false then .error .parse l
      else
        match cur.dropWhile (!isDelim ·) with
        | [] => .error .undefined l
        | _ :: line => (some <$> commandArgs strict k) ⟨line, l.file⟩

/-! ## Import -/

/-- A pointer that `uci_fill_ptr` and the import have filled. -/
def fillPtr (sec option value : Option Str) (s o : Option ℕ) : Ptr where
  sec := sec
  option := option
  value := value
  extended := false
  done := true
  complete := false
  s := s
  o := o
  last := none

/-- `uci_parse_config` once the arguments are read. -/
def execConfig (strict merge : Bool) (p : Package) (type name : Str) :
    Except Err (Package × Option ℕ) :=
  if name = [] then .ok (uciAddSection (!merge) p type, some p.sections.length)
  else
    match lookupSection p.sections name with
    | none => uciSet (!merge) p (fillPtr (some name) none (some type) none none)
    | some i =>
      if strict ∧ p.sections[i]?.map (·.type) ≠ some type then .error .parse
      else uciSet (!merge) p (fillPtr (some name) none (some type) (some i) none)

/-- `uci_parse_option` once the arguments are read, in the section `i`. -/
def execOption (merge list : Bool) (p : Package) (i : ℕ) (name value : Str) :
    Except Err Package :=
  match p.sections[i]? with
  | none => .error .inval
  | some s =>
    let ptr := fillPtr (some s.name) (some name) (some value) (some i) (lookupOption s.options name)
    if list then uciAddList (!merge) p ptr else (uciSet (!merge) p ptr).map (·.1)

/-- The effect of a command on the package and `pctx->section`. -/
def exec (strict merge : Bool) (p : Package) (sec : Option ℕ) :
    Command → Except Err (Package × Option ℕ)
  | .package => .ok (p, sec)
  | .config type name => execConfig strict merge p type name
  | .option list name value =>
    match sec with
    | none => .error .parse
    | some i => (execOption merge list p i name value).map (·, some i)

/-- The parse context. -/
structure ImportSt where
  lex : Lex
  package : Package
  sec : Option ℕ
deriving DecidableEq, Repr

/-- The handler of `uci_import`: a parse error is passed over unless the mode is strict. -/
def importError (strict : Bool) (st : ImportSt) (l : Lex) (e : Err) : Except Err ImportSt :=
  if strict ∨ e ≠ .parse then .error e else .ok { st with lex := ⟨[], l.file⟩ }

/-- One turn: a line is fetched, or a command of the line is carried out. -/
def importStep (strict merge : Bool) (st : ImportSt) : Except Err ImportSt :=
  if st.lex.line = [] then .ok { st with lex := skipWhitespace (getln st.lex.file) }
  else
    match parseCommand strict st.sec.isSome st.lex with
    | .error e l => importError strict st l e
    | .ok none l => .ok { st with lex := l }
    | .ok (some c) l =>
      match exec strict merge st.package st.sec c with
      | .error e => importError strict st l e
      | .ok (p, sec) => .ok ⟨l, p, sec⟩

/-- The text is used up. -/
def ImportSt.Done (st : ImportSt) : Prop := st.lex = ⟨[], []⟩

instance (st : ImportSt) : Decidable st.Done := inferInstanceAs (Decidable (_ = _))

/-- The loop of `uci_import`. -/
def importLoop (strict merge : Bool) : ℕ → ImportSt → Except Err ImportSt
  | 0, st => .ok st
  | n + 1, st =>
    if st.Done then .ok st else (importStep strict merge st).bind (importLoop strict merge n)

/-- The characters that are still to be read. -/
def Lex.total (l : Lex) : ℕ := l.line.length + l.file.length

/-- The turns that suffice for a text. -/
def importTurns (l : Lex) : ℕ := 2 * l.total + if l.line = [] then 1 else 0

/-- The context an import begins with. -/
def importStart (p : Package) (text : Str) : ImportSt where
  lex := ⟨[], text⟩
  package := p
  sec := none

/-- `uci_import` into the package `p`. -/
def uciImport (strict merge : Bool) (p : Package) (text : Str) : Except Err Package :=
  (importLoop strict merge (importTurns ⟨[], text⟩) (importStart p text)).map (·.package)

/-- `uci_import` of a file under a name that is not loaded, as `uci_file_load` calls it. -/
def uciLoad (strict hasDelta : Bool) (name text : Str) : Except Err Package :=
  if validatePackage name then uciImport strict false (allocPackage name hasDelta) text
  else .error .inval

/-! ## The loop ends

Every turn reads on: fetching a line is followed by a turn that takes something from it. -/

theorem getln_total (s : Str) : (getln s).total = s.length := by
  induction s with
  | nil => rfl
  | cons c s ih =>
      unfold getln
      split_ifs with hc
      · simp [Lex.total, Nat.add_comm]
      · simp only [Lex.total, List.length_cons] at ih ⊢
        omega

theorem getln_file_length (s : Str) : (getln s).file.length ≤ s.length := by
  have h := getln_total s
  unfold Lex.total at h
  omega

theorem total_le_of_addc {c : Char} {r : Option (Str × Lex)} {arg : Str} {l : Lex} {n : ℕ}
    (h : addc c r = some (arg, l)) (hr : ∀ arg', r = some (arg', l) → l.total ≤ n) :
    l.total ≤ n := by
  match r, h with
  | some (arg', _), h =>
      obtain ⟨-, rfl⟩ := Prod.mk.inj (Option.some.inj h)
      exact hr arg' rfl

theorem parseStr_total {q : Quote} {plain : Bool} {s arg : Str} {l : Lex}
    (h : parseStr q plain s = some (arg, l)) : l.total ≤ s.length := by
  fun_induction parseStr q plain s generalizing arg
  case case1 | case4 | case6 => cases h
  -- The argument ends here.
  case case11 | case16 =>
    obtain ⟨-, rfl⟩ := Prod.mk.inj (Option.some.inj h)
    simp [Lex.total]
  case case14 s _ _ =>
    obtain ⟨-, rfl⟩ := Prod.mk.inj (Option.some.inj h)
    simpa [Lex.total] using (getln_file_length s).trans (Nat.le_succ _)
  case case15 plain s _ _ _ =>
    obtain ⟨-, rfl⟩ := Prod.mk.inj (Option.some.inj h)
    split_ifs
    · simpa [Lex.total] using (getln_file_length s).trans (Nat.le_succ _)
    · rw [getln_total]
  case case20 c s _ _ _ _ _ _ =>
    obtain ⟨-, rfl⟩ := Prod.mk.inj (Option.some.inj h)
    split_ifs
    · simp [Lex.total]
    · rw [getln_total]
      exact Nat.le_succ _
  -- It goes on, with a character added to it or not.
  all_goals
    rename_i ih
    simp only [List.length_cons]
    first
      | exact (ih h).trans (by omega)
      | exact (total_le_of_addc h fun _ hr ↦ ih hr).trans (by omega)

/-- The reader moves on, whether it succeeds or throws. -/
def Shrinks {α : Type} (x : Reader α) : Prop :=
  ∀ l, (∀ a l', x l = .ok a l' → l'.total ≤ l.total) ∧ ∀ e l', x l = .error e l' →
    l'.total ≤ l.total

namespace Shrinks

variable {α β : Type}

theorem pure (a : α) : Shrinks (pure a : Reader α) := by
  intro l
  refine ⟨?_, fun e l' h ↦ nomatch h⟩
  rintro a l' h
  obtain ⟨-, rfl⟩ := EStateM.Result.ok.inj h
  exact le_rfl

theorem throw (e : Err) : Shrinks (throw e : Reader α) := by
  intro l
  refine ⟨fun a l' h ↦ (nomatch h), ?_⟩
  rintro e l' h
  obtain ⟨-, rfl⟩ := EStateM.Result.error.inj h
  exact le_rfl

theorem bind {x : Reader α} {f : α → Reader β} (hx : Shrinks x) (hf : ∀ a, Shrinks (f a)) :
    Shrinks (x >>= f) := by
  intro l
  change (∀ b l', EStateM.bind x f l = _ → _) ∧ ∀ e l', EStateM.bind x f l = _ → _
  unfold EStateM.bind
  cases h : x l with
  | ok a l₁ =>
      have h₁ := (hx l).1 a l₁ h
      exact ⟨fun b l' hb ↦ ((hf a l₁).1 b l' hb).trans h₁,
        fun e l' he ↦ ((hf a l₁).2 e l' he).trans h₁⟩
  | error e l₁ =>
      have h₁ := (hx l).2 e l₁ h
      refine ⟨fun b l' hb ↦ (nomatch hb), ?_⟩
      rintro e' l' he
      obtain ⟨-, rfl⟩ := EStateM.Result.error.inj he
      exact h₁

end Shrinks

theorem checkArg_shrinks (required name package : Bool) (arg : Str) :
    Shrinks (checkArg required name package arg) := by
  unfold checkArg
  split_ifs
  · exact .throw _
  · exact .pure _
  · exact .throw _
  · exact .pure _

theorem dropWhile_length_le (p : Char → Bool) (s : Str) : (s.dropWhile p).length ≤ s.length :=
  (List.dropWhile_suffix p).length_le

theorem nextArg_shrinks (required name package : Bool) :
    Shrinks (nextArg required name package) := by
  intro l
  have hskip : (skipWhitespace l).total ≤ l.total :=
    Nat.add_le_add_right (dropWhile_length_le isspace l.line) _
  unfold nextArg
  split
  · rename_i file hl
    rw [hl] at hskip
    have h := checkArg_shrinks required name package [] ⟨[], file⟩
    exact ⟨fun a l' ha ↦ (h.1 a l' ha).trans hskip, fun e l' he ↦ (h.2 e l' he).trans hskip⟩
  · rename_i c line file hl
    rw [hl] at hskip
    split_ifs with hsep
    · have h := checkArg_shrinks required name package [] ⟨line, file⟩
      have hle : (⟨line, file⟩ : Lex).total ≤ l.total := by
        refine le_trans ?_ hskip
        simp [Lex.total]
      exact ⟨fun a l' ha ↦ (h.1 a l' ha).trans hle, fun e l' he ↦ (h.2 e l' he).trans hle⟩
    · split
      · refine ⟨fun a l' ha ↦ (nomatch ha), ?_⟩
        rintro e l' he
        obtain ⟨-, rfl⟩ := EStateM.Result.error.inj he
        simp [Lex.total]
      · rename_i arg l₁ hp
        have h := checkArg_shrinks required name package arg l₁
        have hle : l₁.total ≤ l.total := by
          refine (parseStr_total hp).trans (le_trans ?_ hskip)
          exact (List.length_append).le
        exact ⟨fun a l' ha ↦ (h.1 a l' ha).trans hle, fun e l' he ↦ (h.2 e l' he).trans hle⟩

theorem assertEol_shrinks (strict : Bool) : Shrinks (assertEol strict) := by
  refine .bind (nextArg_shrinks _ _ _) fun tmp ↦ ?_
  split_ifs
  · exact .throw _
  · exact .pure _

theorem assertEolHeld_shrinks (strict : Bool) : Shrinks (assertEolHeld strict) := by
  intro l
  obtain ⟨hok, herr⟩ := assertEol_shrinks strict l
  unfold assertEolHeld
  cases h : assertEol strict l with
  | error e l₁ =>
      refine ⟨fun _ _ h ↦ (nomatch h), fun e' l' he ↦ ?_⟩
      obtain ⟨-, rfl⟩ := EStateM.Result.error.inj he
      exact herr e l₁ h
  | ok u l₁ =>
      have hle := hok u l₁ h
      dsimp only
      split_ifs
      · refine ⟨fun _ l' h ↦ ?_, fun _ _ h ↦ (nomatch h)⟩
        obtain ⟨-, rfl⟩ := EStateM.Result.ok.inj h
        exact hle
      · refine ⟨fun _ _ h ↦ (nomatch h), fun e' l' he ↦ ?_⟩
        obtain ⟨-, rfl⟩ := EStateM.Result.error.inj he
        exact hle

theorem commandArgs_shrinks (strict : Bool) (k : Keyword) : Shrinks (commandArgs strict k) := by
  have htype : ∀ type, Shrinks (checkType type) := by
    intro type
    unfold checkType
    split_ifs
    · exact .pure _
    · exact .throw _
  cases k with
  | package =>
      exact .bind (nextArg_shrinks _ _ _) fun _ ↦ .bind (assertEol_shrinks _) fun _ ↦ .pure _
  | config =>
      exact .bind (nextArg_shrinks _ _ _) fun type ↦ .bind (htype type) fun _ ↦
        .bind (nextArg_shrinks _ _ _) fun _ ↦ .bind (assertEolHeld_shrinks _) fun _ ↦ .pure _
  | option | list =>
      exact .bind (nextArg_shrinks _ _ _) fun _ ↦ .bind (nextArg_shrinks _ _ _) fun _ ↦
        .bind (assertEolHeld_shrinks _) fun _ ↦ .pure _

/-- What a command leaves of a line that is not empty, once the line is given up. -/
theorem parseCommand_total (strict inSection : Bool) {l : Lex} (hl : l.line ≠ []) :
    (∀ r l', parseCommand strict inSection l = .ok r l' → l'.total < l.total) ∧
      ∀ e l', parseCommand strict inSection l = .error e l' → l'.file.length < l.total := by
  have hpos : 0 < l.line.length := List.length_pos_of_ne_nil hl
  have hfile : l.file.length < l.total := by
    unfold Lex.total
    omega
  unfold parseCommand
  simp only
  split_ifs with hword
  · refine ⟨?_, fun e l' he ↦ (nomatch he)⟩
    rintro r l' h
    obtain ⟨-, rfl⟩ := EStateM.Result.ok.inj h
    simpa [Lex.total] using hpos
  · split
    · refine ⟨fun r l' h ↦ (nomatch h), ?_⟩
      rintro e l' he
      obtain ⟨-, rfl⟩ := EStateM.Result.error.inj he
      exact hfile
    · rename_i k hk
      split_ifs
      · refine ⟨fun r l' h ↦ (nomatch h), ?_⟩
        rintro e l' he
        obtain ⟨-, rfl⟩ := EStateM.Result.error.inj he
        exact hfile
      · split
        · refine ⟨fun r l' h ↦ (nomatch h), ?_⟩
          rintro e l' he
          obtain ⟨-, rfl⟩ := EStateM.Result.error.inj he
          exact hfile
        · rename_i c line hline
          have hlt : (⟨line, l.file⟩ : Lex).total < l.total := by
            have h₁ := dropWhile_length_le (!isDelim ·) (l.line.dropWhile isDelim)
            have h₂ := dropWhile_length_le isDelim l.line
            rw [hline, List.length_cons] at h₁
            simp only [Lex.total]
            omega
          have hargs : Shrinks (some <$> commandArgs strict k) :=
            .bind (commandArgs_shrinks strict k) fun c ↦ .pure (some c)
          refine ⟨fun r l' h ↦ ((hargs _).1 r l' h).trans_lt hlt, fun e l' h ↦ ?_⟩
          have hle := (hargs _).2 e l' h
          unfold Lex.total at hle hlt ⊢
          omega

theorem importStep_turns {strict merge : Bool} {st st' : ImportSt} (hd : ¬st.Done)
    (h : importStep strict merge st = .ok st') : importTurns st'.lex < importTurns st.lex := by
  have hline : ∀ l : Lex, (if l.line = [] then 1 else 0) ≤ 1 := fun l ↦ by split_ifs <;> omega
  unfold importStep at h
  split_ifs at h with hempty
  · obtain rfl := Except.ok.inj h
    have hfile : st.lex.file ≠ [] := fun hf ↦ hd (by
      rw [ImportSt.Done, Lex.mk.injEq]
      exact ⟨hempty, hf⟩)
    have hg := getln_total st.lex.file
    have hskip := dropWhile_length_le isspace (getln st.lex.file).line
    have htotal : st.lex.total = st.lex.file.length := by simp [Lex.total, hempty]
    by_cases hnil : (getln st.lex.file).line.dropWhile isspace = []
    · have hpos : 0 < (getln st.lex.file).line.length := by
        cases hf : st.lex.file with
        | nil => exact absurd hf hfile
        | cons c s =>
            unfold getln
            split_ifs <;> simp
      simp only [importTurns, skipWhitespace, hnil, hempty, htotal, if_true]
      simp only [Lex.total, List.length_nil] at hg ⊢
      omega
    · simp only [importTurns, skipWhitespace, hnil, hempty, htotal, if_true, if_false]
      simp only [Lex.total] at hg ⊢
      omega
  · obtain ⟨hok, herr⟩ := parseCommand_total strict st.sec.isSome hempty
    have hgive : ∀ l e, l.file.length < st.lex.total → importError strict st l e = .ok st' →
        importTurns st'.lex < importTurns st.lex := by
      intro l e hlt he
      unfold importError at he
      split_ifs at he
      obtain rfl := Except.ok.inj he
      simp only [importTurns, hempty, if_true, if_false]
      simp only [Lex.total, List.length_nil] at hlt ⊢
      omega
    have hgo : ∀ l : Lex, l.total < st.lex.total → importTurns l < importTurns st.lex := by
      intro l hlt
      have := hline l
      simp only [importTurns, hempty, if_false]
      omega
    split at h
    · rename_i e l hp
      exact hgive l e (herr e l hp) h
    · rename_i l hp
      obtain rfl := Except.ok.inj h
      exact hgo l (hok _ l hp)
    · rename_i c l hp
      have hlt := hok _ l hp
      split at h
      · refine hgive l _ (lt_of_le_of_lt ?_ hlt) h
        exact Nat.le_add_left _ _
      · obtain rfl := Except.ok.inj h
        exact hgo l hlt

end MiniPi.Uci
