import Mathlib

/-!
# Lists of pipes

`run_list_real` of `common/cli_hush.c`.  What it calls is a parameter: `run_pipe_real`, the values
of variables, and Ctrl-C.  Compound commands stand in a type of their own, which only
`run_pipe_real` looks into.  A loop of the shell may not end, so the loop over the pipes has fuel;
`none` is a run without enough of it.
-/

namespace MiniPi.Hush

/-- A string without its NUL. -/
abbrev Str := List UInt8

/-- `pipe_style`. -/
inductive PipeStyle
  | invalid
  | seq
  | and
  | or
  | bg
deriving DecidableEq

/-- `reserved_style`. -/
inductive Reserved
  | resNone
  | resIf
  | resThen
  | resElif
  | resElse
  | resFi
  | resFor
  | resWhile
  | resUntil
  | resDo
  | resDone
  | resXxxx
  | resIn
  | resSntx
deriving DecidableEq

/-- `child_prog`: its words, or a compound command. -/
structure ChildProg (G : Type) where
  argv : Option (List Str)
  group : Option G

/-- `pipe`, with its `num_progs` programs. -/
structure Pipe (G : Type) where
  progs : List (ChildProg G)
  followup : PipeStyle
  rMode : Reserved

/-- `progs->argv`. -/
def Pipe.argv {G : Type} (pi : Pipe G) : Option (List Str) := pi.progs.head?.bind ChildProg.argv

/-- `pi->progs->argv[0] = word`. -/
def Pipe.setName {G : Type} (pi : Pipe G) (word : Str) : Pipe G :=
  { pi with progs := pi.progs.modifyHead fun p ↦ { p with argv := p.argv.map (·.set 0 word) } }

/-- The state of the shell: `last_return_code`, and all that commands change. -/
structure World (S : Type) where
  lastReturnCode : ℕ
  rest : S

/-- The functions that `run_list_real` calls. -/
structure Shell (S G : Type) where
  runPipeReal : Pipe G → World S → ℤ × World S
  insertVarValue : World S → Str → Str
  hadCtrlc : World S → Bool

variable {S G : Type}

/-- `make_list_in`: an assignment for each of the words. -/
def makeListIn (sh : Shell S G) (w : World S) (inp : List Str) (name : Str) : List Str :=
  (inp.flatMap fun word ↦ (sh.insertVarValue w word).splitOn ' '.toUInt8).filter (· ≠ []) |>.map
    fun value ↦ name ++ '='.toUInt8 :: value

/-- The check for `for` in front of the loop. -/
def forSyntax : List (Pipe G) → Bool
  | [] => true
  | [pi] => pi.rMode ≠ .resIn ∧ pi.rMode ≠ .resFor
  | pi :: next :: pipes =>
    ¬(pi.rMode = .resIn ∧ next.rMode = .resIn ∧ next.argv.isSome) ∧
      ¬(pi.rMode = .resFor ∧ next.rMode ≠ .resIn) ∧ forSyntax (next :: pipes)

/-- The variables of `run_list_real`; the pipes are there as the loops of the shell change their
names. -/
structure Vars (G : Type) where
  pipes : List (Pipe G)
  rpipe : Option ℕ
  flagRep : Bool
  rcode : ℤ
  flagSkip : Bool
  flagRestore : Bool
  ifCode : ℤ
  nextIfCode : ℤ
  skipMoreInThisRmode : Reserved
  list : Option (List Str)
  saveName : Str

/-- What a turn of the loop does: `return`, or `continue` with the next pipe. -/
inductive Turn (S G : Type)
  | ret (rcode : ℤ) (w : World S)
  | cont (v : Vars G) (w : World S)

/-- `run_pipe_real` is called, and what follows from its result. -/
def runTurn (sh : Shell S G) (pi : Pipe G) (v : Vars G) (w : World S) : Turn S G :=
  if pi.progs = [] then .cont v w
  else
    let (rcode, w) := sh.runPipeReal pi w
    if rcode < -1 then .ret (-2) { w with lastReturnCode := (-rcode - 2).toNat }
    else
      let w := { w with lastReturnCode := if rcode = 0 then 0 else 1 }
      let v := { v with
        rcode
        nextIfCode := if pi.rMode = .resIf ∨ pi.rMode = .resElif then rcode else v.nextIfCode
        flagRep :=
          if pi.rMode = .resWhile then w.lastReturnCode == 0
          else if pi.rMode = .resUntil then w.lastReturnCode != 0
          else v.flagRep
        skipMoreInThisRmode :=
          if rcode = 0 ∧ pi.followup = .or ∨ rcode ≠ 0 ∧ pi.followup = .and then pi.rMode
          else v.skipMoreInThisRmode }
      .cont v w

/-- `for` gives its variable the next value, or ends. -/
def forTurn (sh : Shell S G) (i : ℕ) (pi : Pipe G) (v : Vars G) (w : World S) : Turn S G :=
  let words := (v.pipes[i + 1]?).bind Pipe.argv
  let name := (pi.argv.bind List.head?).getD []
  match v.list, words with
  | none, none => .cont v w
  | _, _ =>
    let v :=
      match v.list with
      | some _ => v
      | none => { v with
        list := some (makeListIn sh w (words.getD []) name), saveName := name, flagRep := true }
    match v.list.getD [] with
    | [] =>
      let pipes := v.pipes.modify i (·.setName v.saveName)
      .cont { v with list := none, flagRep := false, pipes } w
    | value :: list =>
      runTurn sh (pi.setName value)
        { v with list := some list, pipes := v.pipes.modify i (·.setName value) } w

/-- A turn of the loop for a pipe that is not skipped. -/
def reservedTurn (sh : Shell S G) (i : ℕ) (pi : Pipe G) (v : Vars G) (w : World S) : Turn S G :=
  let v := { v with
    flagSkip := true
    skipMoreInThisRmode := .resXxxx
    ifCode := if pi.rMode = .resThen ∨ pi.rMode = .resElse then v.nextIfCode else v.ifCode }
  if pi.rMode = .resThen ∧ v.ifCode ≠ 0 then .cont v w
  else if pi.rMode = .resElse ∧ v.ifCode = 0 then .cont v w
  else if pi.rMode = .resElif ∧ v.ifCode = 0 then .ret v.rcode w
  else if pi.rMode = .resFor ∧ pi.progs ≠ [] then forTurn sh i pi v w
  else if pi.rMode = .resIn then .cont v w
  else if pi.rMode = .resDo ∧ v.flagRep = false then .cont v w
  else if pi.rMode = .resDone then
    runTurn sh pi
      { v with
        flagRestore := if v.flagRep then true else v.flagRestore
        rpipe := if v.flagRep then v.rpipe else none } w
  else runTurn sh pi v w

/-- A turn of the loop in `run_list_real`, for the pipe with some index. -/
def turn (sh : Shell S G) (i : ℕ) (pi : Pipe G) (v : Vars G) (w : World S) : Turn S G :=
  let loops := pi.rMode = .resWhile ∨ pi.rMode = .resUntil ∨ pi.rMode = .resFor
  if loops ∧ sh.hadCtrlc w then .ret 1 w
  else
    let v :=
      if loops then
        { v with
          flagRestore := false
          flagRep := if v.rpipe = none then false else v.flagRep
          rpipe := if v.rpipe = none then some i else v.rpipe }
      else v
    if pi.rMode = v.skipMoreInThisRmode ∧ v.flagSkip = true then
      .cont { v with flagSkip := pi.followup ≠ .seq } w
    else reservedTurn sh i pi v w

/-- The loop of `run_list_real`, from the pipe with some index on. -/
def runLoop (sh : Shell S G) : ℕ → Option ℕ → Vars G → World S → Option (ℤ × World S)
  | 0, _, _, _ => none
  | _ + 1, none, v, w => some (v.rcode, w)
  | fuel + 1, some i, v, w =>
    match v.pipes[i]? with
    | none => some (v.rcode, w)
    | some pi =>
      match turn sh i pi v w with
      | .ret rcode w => some (rcode, w)
      | .cont v w => runLoop sh fuel (if v.flagRestore then v.rpipe else some (i + 1)) v w

/-- The variables of `run_list_real` at first. -/
def initVars (pipes : List (Pipe G)) : Vars G where
  pipes
  rpipe := none
  flagRep := false
  rcode := 0
  flagSkip := true
  flagRestore := false
  ifCode := 0
  nextIfCode := 0
  skipMoreInThisRmode := .resXxxx
  list := none
  saveName := []

/-- `run_list_real`. -/
def runListReal (sh : Shell S G) (fuel : ℕ) (pipes : List (Pipe G)) (w : World S) :
    Option (ℤ × World S) :=
  if forSyntax pipes = false then some (1, w) else runLoop sh fuel (some 0) (initVars pipes) w

end MiniPi.Hush
