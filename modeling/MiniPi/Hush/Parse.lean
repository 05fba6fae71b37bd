import MiniPi.Hush.RunList

/-!
# The parser of the shell

`parse_stream` and what it calls, for input from a string, on a machine where `char` is unsigned.
The input is what is left of the string with its NUL; behind the NUL there is nothing, and `none` is
a read from there.  Memory is always granted and nobody presses Ctrl-C.
-/

namespace MiniPi.Hush

/-! ## Words -/

/-- `o_string`. -/
structure OString where
  data : Str
  nonnull : Bool
  quote : Bool

/-- `NULL_O_STRING`. -/
def nullOString : OString := ⟨[], false, false⟩

/-- `b_addchr`. -/
def OString.addchr (o : OString) (ch : UInt8) : OString := { o with data := o.data ++ [ch] }

/-- The characters in `"*?[\\"`. -/
def globChars : Str := [42, 63, 91, 92]

/-- `b_addqchr`, with the quoting of the string itself. -/
def OString.addqchr (o : OString) (ch : UInt8) : OString :=
  if o.quote ∧ ch ∈ globChars then (o.addchr 92).addchr ch else o.addchr ch

/-- `b_reset`. -/
def OString.reset (o : OString) : OString := { o with data := [], nonnull := false }

/-- The loop of `done_word` that copies a word without its layer of backslashes.  `none` is a copy
that goes on behind the NUL. -/
def strip : Str → Option Str
  | [] => some []
  | [c] => if c = 92 then none else some [c]
  | c :: d :: s => if c = 92 then (strip s).map (d :: ·) else (strip (d :: s)).map (c :: ·)

/-! ## Commands -/

/-- `child_prog`: its words with `argv_nonnull`, the number of its variables, or a compound
command. -/
inductive Prog
  | mk (words : List (Option Str × Bool)) (sp : ℕ)
      (group : Option (List (List Prog × PipeStyle × Reserved)))

/-- `pipe`. -/
abbrev ProgPipe := List Prog × PipeStyle × Reserved

/-- `argv` and `argv_nonnull`. -/
def Prog.words : Prog → List (Option Str × Bool)
  | .mk words _ _ => words

/-- `sp`. -/
def Prog.sp : Prog → ℕ
  | .mk _ sp _ => sp

/-- `group`. -/
def Prog.group : Prog → Option (List ProgPipe)
  | .mk _ _ group => group

/-- A new program. -/
def emptyProg : Prog := .mk [] 0 none

/-- A list that is parsed: the pipes that are done, the programs of the next one, the program that
takes the words, and the reserved word in force with the ones that may follow. -/
structure Frame where
  pipes : List ProgPipe
  progs : List Prog
  child : Prog
  w : Reserved
  oldFlag : List Reserved

/-- `initialize_context`. -/
def initFrame : Frame := ⟨[], [], emptyProg, .resNone, []⟩

/-- `p_context`; `semicolon` is `FLAG_PARSE_SEMICOLON` in its type. -/
structure Ctx where
  top : Frame
  stack : List Frame
  semicolon : Bool

/-- `done_command`. -/
def Frame.doneCommand (f : Frame) : Frame :=
  if f.child.group.isNone ∧ f.child.words = [] then f
  else { f with progs := f.progs ++ [f.child], child := emptyProg }

/-- `done_pipe`. -/
def Frame.donePipe (f : Frame) (type : PipeStyle) : Frame :=
  let f := f.doneCommand
  { f with pipes := f.pipes ++ [(f.progs, type, f.w)], progs := [], child := emptyProg }

/-- `list_head`: the pipes that are done, and the next one. -/
def Frame.list (f : Frame) : List ProgPipe := f.pipes ++ [(f.progs, .invalid, .resNone)]

/-- `done_pipe`. -/
def Ctx.donePipe (ctx : Ctx) (type : PipeStyle) : Ctx := { ctx with top := ctx.top.donePipe type }

/-- `ctx->child->sp++`. -/
def Ctx.incSp (ctx : Ctx) : Ctx :=
  let child := .mk ctx.top.child.words (ctx.top.child.sp + 1) ctx.top.child.group
  { ctx with top := { ctx.top with child } }

/-! ## Reserved words -/

/-- `reserved_combo`: the word, its code, `FLAG_START`, and the words that may follow; none with
`FLAG_END`. -/
structure ReservedCombo where
  literal : Str
  code : Reserved
  start : Bool
  flag : List Reserved

/-- `reserved_list`. -/
def reservedList : List ReservedCombo := [
  ⟨[105, 102], .resIf, true, [.resThen]⟩,
  ⟨[116, 104, 101, 110], .resThen, false, [.resElif, .resElse, .resFi]⟩,
  ⟨[101, 108, 105, 102], .resElif, false, [.resThen]⟩,
  ⟨[101, 108, 115, 101], .resElse, false, [.resFi]⟩,
  ⟨[102, 105], .resFi, false, []⟩,
  ⟨[102, 111, 114], .resFor, true, [.resIn]⟩,
  ⟨[119, 104, 105, 108, 101], .resWhile, true, [.resDo]⟩,
  ⟨[117, 110, 116, 105, 108], .resUntil, true, [.resDo]⟩,
  ⟨[105, 110], .resIn, false, [.resDo]⟩,
  ⟨[100, 111], .resDo, false, [.resDone]⟩,
  ⟨[100, 111, 110, 101], .resDone, false, []⟩]

/-- A syntax error in `reserved_word`. -/
def Ctx.syntaxError (ctx : Ctx) : Ctx := { ctx with top := { ctx.top with w := .resSntx } }

/-- `fi` and `done` end a compound command, which becomes a program of the list around it. -/
def Ctx.popFrame (ctx : Ctx) : Ctx :=
  match ctx.stack with
  | [] => ctx
  | old :: stack =>
    let group := (ctx.top.donePipe .seq).list
    { ctx with top := { old with child := .mk old.child.words old.child.sp (some group) }, stack }

/-- What `reserved_word` does for a word that is found. -/
def Ctx.reserved (ctx : Ctx) (r : ReservedCombo) : Ctx :=
  if r.start then
    if ctx.top.w = .resIn ∨ ctx.top.w = .resFor then ctx.syntaxError
    else
      let top := { initFrame with w := r.code, oldFlag := r.flag }
      { ctx with top, stack := ctx.top :: ctx.stack }
  else if ctx.top.w = .resNone ∨ r.code ∉ ctx.top.oldFlag then ctx.syntaxError
  else if r.flag = [] then Ctx.popFrame { ctx with top := { ctx.top with w := r.code } }
  else { ctx with top := { ctx.top with w := r.code, oldFlag := r.flag } }

/-- A word is added to the program. -/
def Ctx.addWord (ctx : Ctx) (word : Option Str × Bool) : Ctx :=
  { ctx with
    top := { ctx.top with
      child := .mk (ctx.top.child.words ++ [word]) ctx.top.child.sp ctx.top.child.group } }

/-- `done_word`; `true` is the return value 1. -/
def doneWord (dest : OString) (ctx : Ctx) : Bool × OString × Ctx :=
  if dest.data = [] ∧ dest.nonnull = false then (false, dest, ctx)
  else if ctx.top.child.group.isSome then (true, dest, ctx)
  else
    match if ctx.top.child.words = [] ∧ ctx.semicolon then
        reservedList.find? (·.literal = dest.data) else none with
    | some r =>
      let ctx := ctx.reserved r
      (decide (ctx.top.w = .resSntx), dest.reset, ctx)
    | none =>
      let ctx := ctx.addWord (strip dest.data, dest.nonnull)
      (false, dest.reset, if ctx.top.w = .resFor then ctx.donePipe .seq else ctx)

/-! ## Input -/

/-- `static_get`: the character, or `EOF`. -/
def staticGet : Str → Option (Option UInt8 × Str)
  | [] => none
  | c :: p => some (if c = 0 then none else some c, p)

/-- `static_peek`. -/
def staticPeek : Str → Option UInt8
  | [] => none
  | c :: _ => some c

/-- The loops that read up to a closing character: what is read, whether it was found before `EOF`,
and what is left. -/
def getUntil (close : UInt8) : Str → Option (Str × Bool × Str)
  | [] => none
  | c :: p =>
    if c = 0 then some ([], false, p)
    else if c = close then some ([], true, p)
    else (getUntil close p).map fun r ↦ (c :: r.1, r.2)

/-- The loop for a comment, which ends in front of a newline. -/
def skipComment : Str → Option Str
  | [] => none
  | c :: p => if c = 10 then some (c :: p) else skipComment p

/-- `isalpha`, for Latin-1. -/
def isalpha (c : UInt8) : Bool :=
  decide (65 ≤ c ∧ c ≤ 90 ∨ 97 ≤ c ∧ c ≤ 122 ∨ 192 ≤ c ∧ c ≠ 215 ∧ c ≠ 247)

/-- A character in the name of a variable. -/
def isname (c : UInt8) : Bool := isalpha c || decide (48 ≤ c ∧ c ≤ 57) || c == 95

/-- The loop for the name of a variable. -/
def getName : Str → Option (Str × Str)
  | [] => none
  | c :: p => if isname c then (getName p).map fun r ↦ (c :: r.1, r.2) else some ([], c :: p)

/-! ## The loop -/

/-- What `parse_stream` works on. -/
structure Stream where
  dest : OString
  ctx : Ctx
  input : Str

/-- How a turn of the loop ends: with a return, or not. -/
inductive Step
  | ret (rcode : ℤ) (st : Stream)
  | next (st : Stream)

/-- `SPECIAL_VAR_SYMBOL`. -/
def specialVarSymbol : UInt8 := 3

/-- `SUBSTED_VAR_SYMBOL`. -/
def substedVarSymbol : UInt8 := 4

/-- Characters are added as they are. -/
def OString.addAll (o : OString) (s : Str) : OString := { o with data := o.data ++ s }

/-- `handle_dollar`. -/
def handleDollar (st : Stream) : Option Step := do
  let ch ← staticPeek st.input
  if isalpha ch then
    let (name, p) ← getName st.input
    some (.next ⟨st.dest.addAll (specialVarSymbol :: name ++ [specialVarSymbol]), st.ctx.incSp, p⟩)
  else if ch = 63 then
    let (_, p) ← staticGet st.input
    some (.next ⟨st.dest.addAll [specialVarSymbol, 36, 63, specialVarSymbol], st.ctx.incSp, p⟩)
  else if ch = 123 then
    let (_, p) ← staticGet st.input
    let (name, found, p) ← getUntil 125 p
    if found then
      some (.next ⟨st.dest.addAll (specialVarSymbol :: name ++ [specialVarSymbol]),
        st.ctx.incSp, p⟩)
    else some (.ret 1 ⟨st.dest.addAll (specialVarSymbol :: name), st.ctx.incSp, p⟩)
  else some (.next { st with dest := st.dest.addqchr 36 })

/-- The flags of `parse_string_outer`. -/
structure Flags where
  exitFromLoop : Bool
  parseSemicolon : Bool
  reparsing : Bool
  contOnNewline : Bool

/-- `map`, as `update_ifs_map` and `parse_stream_outer` set it up. -/
def mapOf (ifs : Str) (flag : Flags) (ch : UInt8) : ℕ :=
  if (flag.parseSemicolon = false ∨ flag.reparsing) ∧ ch ∈ ([59, 36, 38, 124] : Str) then 0
  else if ch ∈ ifs then 2
  else if ch ∈ ([59, 38, 124, 35] : Str) then 1
  else if ch ∈ ([92, 36, 39, 34, substedVarSymbol] : Str) then 3
  else 0

/-- A quoted part is read up to its end. -/
def quotedPart (close : UInt8) (st : Stream) : Option Step := do
  let (s, found, p) ← getUntil close st.input
  let dest := { st.dest.addAll s with nonnull := true }
  if found then some (.next ⟨dest, st.ctx, p⟩) else some (.ret 1 ⟨dest, st.ctx, p⟩)

/-- `&&` and `||`, behind their first character. -/
def doubled (ch next : UInt8) (type : PipeStyle) (st : Stream) : Option Step := do
  let (_, dest, ctx) := doneWord st.dest st.ctx
  if next = ch then
    let (_, p) ← staticGet st.input
    some (.next ⟨dest, ctx.donePipe type, p⟩)
  else some (.ret 1 ⟨dest, ctx, st.input⟩)

/-- The `switch` of `parse_stream`. -/
def parseSpecial (ch next : UInt8) (st : Stream) : Option Step :=
  if ch = 35 then
    if st.dest.data = [] ∧ st.dest.quote = false then do
      let p ← skipComment st.input
      some (.next { st with input := p })
    else some (.next { st with dest := st.dest.addqchr ch })
  else if ch = 92 then do
    let (c, p) ← staticGet st.input
    -- an `EOF` is added as a character
    some (.next { st with dest := (st.dest.addqchr 92).addqchr (c.getD 255), input := p })
  else if ch = 36 then handleDollar st
  else if ch = 39 then quotedPart 39 st
  else if ch = 34 then
    some (.next { st with dest := { st.dest with nonnull := true, quote := !st.dest.quote } })
  else if ch = 59 then
    let (_, dest, ctx) := doneWord st.dest st.ctx
    some (.next ⟨dest, ctx.donePipe .seq, st.input⟩)
  else if ch = 38 then doubled ch next .and st
  else if ch = 124 then doubled ch next .or st
  else if ch = substedVarSymbol then quotedPart substedVarSymbol st
  else some (.ret 1 st)

/-- A blank that is not quoted, and the newline. -/
def parseBlank (flag : Flags) (ch : UInt8) (st : Stream) : Step :=
  let (err, dest, ctx) := doneWord st.dest st.ctx
  if err then .ret 1 ⟨dest, ctx, st.input⟩
  else
    let ctx := if ch = 10 then ctx.donePipe .seq else ctx
    if ch = 10 ∧ flag.contOnNewline = false ∧ dest.quote = false ∧ ctx.top.w = .resNone then
      .ret 0 ⟨dest, ctx, st.input⟩
    else .next ⟨dest, ctx, st.input⟩

/-- A turn of the loop of `parse_stream` that read a character. -/
def parseChar (ifs : Str) (flag : Flags) (ch : UInt8) (st : Stream) : Option Step := do
  let next ← if ch = 10 then some 0 else staticPeek st.input
  let m := mapOf ifs flag ch
  if m = 0 ∨ (m = 1 ∨ m = 2) ∧ st.dest.quote then
    some (.next { st with dest := st.dest.addqchr ch })
  else if m = 2 then some (parseBlank flag ch st)
  else parseSpecial ch next st

/-- `parse_stream`, with the newline as its end trigger or none. -/
def parseStream (ifs : Str) (flag : Flags) : ℕ → Stream → Option (ℤ × Stream)
  | 0, _ => none
  | fuel + 1, st => do
    match ← staticGet st.input with
    | (none, p) => some (-1, { st with input := p })
    | (some ch, p) =>
      match ← parseChar ifs flag ch { st with input := p } with
      | .ret rcode st => some (rcode, st)
      | .next st => parseStream ifs flag fuel st

end MiniPi.Hush
