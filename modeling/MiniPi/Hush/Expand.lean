import MiniPi.Hush.Loss
import MiniPi.Lib.Mem

/-!
# Expansion

`run_pipe_real` of `common/cli_hush.c` with what it calls.  A command with variables is written out
with their values and parsed again.  A pipe has at most one program, as there is no other kind in
U-Boot.  In the state of the shell `none` is a run that left its memory or has not enough fuel.
-/

namespace MiniPi.Hush

/-- What the shell takes from the rest of the boot loader: the value of `IFS` or its default,
`env_get`, the local variables with `$?`, and `cmd_process`. -/
structure Machine (S : Type) where
  ifs : S → Str
  envGet : S → Str → Option Str
  getLocalVar : S → ℕ → Str → Option Str
  setLocalVar : Str → S → S
  cmdProcess : List Str → S → ℤ × S

/-- The state of the shell. -/
abbrev State (S : Type) := World (Option S)

/-- A run that goes wrong. -/
def State.fail {S : Type} (w : State S) : State S := { w with rest := none }

/-- `sp`, `argv_nonnull` and `group` of a program. -/
structure Extra where
  sp : ℕ
  nonnull : List Bool
  group : Option (List ProgPipe)

/-- A program as `run_list_real` has it, if its words were copied inside of their memory. -/
def Prog.toChild (p : Prog) : Option (ChildProg Extra) :=
  (p.words.mapM Prod.fst).map fun argv ↦
    ⟨if argv = [] then none else some argv, some ⟨p.sp, p.words.map Prod.snd, p.group⟩⟩

/-- A pipe as `run_list_real` has it. -/
def toPipe (pi : ProgPipe) : Option (Pipe Extra) :=
  (pi.1.mapM Prog.toChild).map fun progs ↦ ⟨progs, pi.2.1, pi.2.2⟩

variable {S : Type} (m : Machine S)

/-! ## Values of variables -/

/-- The value of a variable: of the environment, or a local one. -/
def Machine.value (s : S) (lastReturnCode : ℕ) (name : Str) : Option Str :=
  m.envGet s name <|> m.getLocalVar s lastReturnCode name

/-- `lookup_param`. -/
def lookupParam (lastReturnCode : ℕ) (src : Str) (s : S) : Option Str × S :=
  let name := src.takeWhile (· ≠ 58)
  let sep := (src.dropWhile (· ≠ 58)).drop 1
  let op := sep.head?
  let defaultVal := if op = some 45 ∨ op = some 61 ∨ op = some 43 then some (sep.drop 1) else none
  let p := m.value s lastReturnCode name
  if p = none ∨ p = some [] then
    (defaultVal, if op = some 61 then m.setLocalVar (name ++ 61 :: sep.drop 1) s else s)
  else if op = some 43 then (some [], s)
  else (p, s)

/-- The loop of `insert_var_value_sub`; `none` is a marker without its end. -/
def insertLoop (lastReturnCode : ℕ) (tagSubst : Bool) : ℕ → Str → S → Option (Str × S)
  | 0, _, _ => none
  | fuel + 1, inp, s =>
    match inp.dropWhile (· ≠ specialVarSymbol) with
    | [] => some (inp, s)
    | _ :: inp₁ =>
      match inp₁.dropWhile (· ≠ specialVarSymbol) with
      | [] => none
      | _ :: inp₂ =>
        let (p1, s) := lookupParam m lastReturnCode (inp₁.takeWhile (· ≠ specialVarSymbol)) s
        let value := p1.elim [] fun v ↦ if tagSubst then substedVarSymbol :: v ++ [substedVarSymbol]
          else v
        (insertLoop lastReturnCode tagSubst fuel inp₂ s).map fun r ↦
          (inp.takeWhile (· ≠ specialVarSymbol) ++ value ++ r.1, r.2)

/-- `insert_var_value_sub`. -/
def insertVarValueSub (lastReturnCode : ℕ) (tagSubst : Bool) (inp : Str) (s : S) :
    Option (Str × S) :=
  if specialVarSymbol ∈ inp then
    (insertLoop m lastReturnCode tagSubst (inp.length + 1) inp s).map fun r ↦
      (r.1.map fun c ↦ if c = 10 then 32 else c, r.2)
  else some (inp, s)

/-- `noeval` of `make_string`. -/
def noeval (lastReturnCode : ℕ) (s : S) : Bool :=
  match m.getLocalVar s lastReturnCode (Lib.ascii "HUSH_NO_EVAL") with
  | some (c :: _) => c ≠ 48
  | _ => false

/-- The loop of `make_string`. -/
def makeWords (lastReturnCode : ℕ) (noeval : Bool) : List (Str × Bool) → S → Option (List Str × S)
  | [], s => some ([], s)
  | (word, nonnull) :: words, s => do
    let (p, s) ← insertVarValueSub m lastReturnCode noeval word s
    let (rest, s) ← makeWords lastReturnCode noeval words s
    some ((if nonnull then 39 :: p ++ [39] else p) :: rest, s)

/-- `make_string`. -/
def makeString (lastReturnCode : ℕ) (words : List (Str × Bool)) (s : S) : Option (Str × S) :=
  (makeWords m lastReturnCode (noeval m lastReturnCode s) words s).map fun r ↦
    (List.intercalate [32] r.1 ++ [10], r.2)

/-! ## Running a pipe -/

/-- `is_assignment`. -/
def isAssignment : Str → Bool
  | [] => false
  | c :: s => isalpha c && (s.dropWhile isname).head? == some 61

/-- The variables that are set in front of a command. -/
def setVars (lastReturnCode : ℕ) : List Str → S → Option S
  | [], s => some s
  | word :: words, s => do
    let (p, s) ← insertVarValueSub m lastReturnCode false word s
    setVars lastReturnCode words (m.setLocalVar p s)

/-- `run_list`, for given functions below it. -/
def runList (sh : Shell (Option S) Extra) (fuel : ℕ) (list : List ProgPipe) (w : State S) :
    ℤ × State S :=
  match (list.mapM toPipe).bind fun pipes ↦ runListReal sh fuel pipes w with
  | none => (0, w.fail)
  | some r => r

/-- What the parser has around it. -/
def caller (sh : Shell (Option S) Extra) (fuel : ℕ) : Caller (State S) where
  ifs w := (w.rest.map m.ifs).getD []
  runList := runList sh fuel

/-- `run_pipe_real` for a program with words.  The source keeps the lower `sp` in the program; here
every round of a loop begins with the `sp` that was parsed. -/
def runProg (sh : Shell (Option S) Extra) (fuel : ℕ) (argv : List Str) (extra : Extra) (s : S)
    (w : State S) : ℤ × State S :=
  let assigns := argv.takeWhile isAssignment
  match setVars m w.lastReturnCode assigns s with
  | none => (0, w.fail)
  | some s =>
    if assigns ≠ [] ∧ argv = assigns then (0, { w with rest := some s })
    else if (extra.sp : ℤ) - assigns.countP (specialVarSymbol ∈ ·) ≠ 0 then
      let words := (argv.zip extra.nonnull).drop assigns.length
      match makeString m w.lastReturnCode words s with
      | none => (0, w.fail)
      | some (str, s) =>
        match parseStringOuter (caller m sh fuel) str reparseFlags { w with rest := some s } with
        | some (.inside _ w) => (w.lastReturnCode, w)
        | _ => (0, w.fail)
    else if 59 ∈ (argv[assigns.length]?).getD [] then (-1, { w with rest := some s })
    else
      let (rcode, s) := m.cmdProcess argv s
      (rcode, { w with rest := some s })

/-- The functions below `run_list_real`, with a given `run_pipe_real`.  The list of a `for` sets no
variables with `:=`. -/
def shellOf (run : Pipe Extra → State S → ℤ × State S) : Shell (Option S) Extra where
  runPipeReal := run
  insertVarValue w word :=
    ((w.rest.bind (insertVarValueSub m w.lastReturnCode false word)).map Prod.fst).getD word
  hadCtrlc _ := false

/-- `run_pipe_real`, which may be under way a number of times. -/
def runPipeReal (fuel : ℕ) : ℕ → Pipe Extra → State S → ℤ × State S
  | 0, _, w => (0, w.fail)
  | depth + 1, pi, w =>
    let sh := shellOf m (runPipeReal fuel depth)
    match w.rest, pi.progs with
    | some s, [⟨argv, some extra⟩] =>
      match extra.group, argv with
      | some group, _ => runList sh fuel group w
      | none, some argv => runProg m sh fuel argv extra s w
      | none, none => (-1, w)
    | _, _ => (-1, w)

/-- The functions below `run_list_real`. -/
def shell (fuel depth : ℕ) : Shell (Option S) Extra := shellOf m (runPipeReal m fuel depth)

/-- `run_command`. -/
def runCommand (fuel depth : ℕ) (cmd : Str) (w : State S) : Option (Outcome (State S)) :=
  parseStringOuter (caller m (shell m fuel depth) fuel) cmd ⟨true, true, false, false⟩ w

end MiniPi.Hush
