import MiniPi.Hush.RunList

/-!
# Compound commands

What `if`, `while`, `until` and `for` mean, and the pipes that stand for them.  A status of -2
leaves the shell.  The status of a compound command is the one of the last command that ran in it,
also where a shell would give 0: behind a condition that failed.
-/

namespace MiniPi.Hush

/-! ## Commands -/

/-- A list of commands, a compound command, what stands behind the branches of an `if`, and the
turns of a `for` that are left. -/
inductive Kind
  | list
  | compound
  | tail
  | turns

/-- Commands. -/
inductive Cmd : Kind → Type
  | simple (cmd : Str) (args : List Str) : Cmd .list
  | seq (c d : Cmd .list) : Cmd .list
  | group (g : Cmd .compound) : Cmd .list
  | cond (c t : Cmd .list) (e : Cmd .tail) : Cmd .compound
  | fi : Cmd .tail
  | els (d : Cmd .list) : Cmd .tail
  | elif (c t : Cmd .list) (e : Cmd .tail) : Cmd .tail
  | loop (isUntil : Bool) (c b : Cmd .list) : Cmd .compound
  | forIn (name : Str) (words : List Str) (b : Cmd .list) : Cmd .compound
  | turns (values : List Str) (b : Cmd .list) : Cmd .turns

/-- What a command without structure comes to, what expands the words of a `for`, and the states in
which the shell has not failed. -/
structure Prims (S : Type) where
  Exec : List Str → World S → ℤ × World S → Prop
  insertVarValue : World S → Str → Str
  Ok : World S → Prop

/-! ## Meaning -/

variable {S : Type}

/-- The status that a list goes on with: below -1 it is left. -/
def outcome (r : ℤ) : ℤ := if r < -1 then -2 else r

/-- `last_return_code` behind a pipe. -/
def World.ranPipe (r : ℤ) (w : World S) : World S :=
  { w with lastReturnCode := if r < -1 then (-r - 2).toNat else if r = 0 then 0 else 1 }

/-- A loop goes on. -/
def goesOn (isUntil : Bool) (r : ℤ) : Prop := if isUntil then r ≠ 0 else r = 0

instance : ∀ (isUntil : Bool) (r : ℤ), Decidable (goesOn isUntil r)
  | true, r => inferInstanceAs (Decidable (r ≠ 0))
  | false, r => inferInstanceAs (Decidable (r = 0))

/-- The values of a `for`, with the name. -/
def Prims.values (prims : Prims S) (w : World S) (name : Str) (words : List Str) : List Str :=
  (words.flatMap fun word ↦ (prims.insertVarValue w word).splitOn ' '.toUInt8).filter
    (· ≠ []) |>.map
    fun value ↦ name ++ '='.toUInt8 :: value

/-- The status and the state behind a pipe. -/
def ran (res : ℤ × World S) : ℤ × World S := (outcome res.1, res.2.ranPipe res.1)

/-- Commands run from a status and a state to others. -/
inductive Exec (prims : Prims S) : {k : Kind} → Cmd k → ℤ × World S → ℤ × World S → Prop
  | simple {cmd args σ res} : prims.Exec (cmd :: args) σ.2 res →
      Exec prims (.simple cmd args) σ (ran res)
  | group {g σ σ₁} : prims.Ok σ.2 → Exec prims g (0, σ.2) σ₁ → Exec prims (.group g) σ (ran σ₁)
  | seq {c d σ σ₁ σ₂} : Exec prims c σ σ₁ → σ₁.1 ≠ -2 → Exec prims d σ₁ σ₂ →
      Exec prims (.seq c d) σ σ₂
  | seqExit {c d σ σ₁} : Exec prims c σ σ₁ → σ₁.1 = -2 → Exec prims (.seq c d) σ σ₁
  | cond {c t e σ σ₁ σ₂} : Exec prims c σ σ₁ → σ₁.1 = 0 → Exec prims t σ₁ σ₂ →
      Exec prims (.cond c t e) σ σ₂
  | condTail {c t e σ σ₁ σ₂} : Exec prims c σ σ₁ → σ₁.1 ≠ 0 → σ₁.1 ≠ -2 → Exec prims e σ₁ σ₂ →
      Exec prims (.cond c t e) σ σ₂
  | condExit {c t e σ σ₁} : Exec prims c σ σ₁ → σ₁.1 = -2 → Exec prims (.cond c t e) σ σ₁
  | fi {σ} : Exec prims .fi σ σ
  | els {d σ σ₁} : Exec prims d σ σ₁ → Exec prims (.els d) σ σ₁
  | elif {c t e σ σ₁} : Exec prims (.cond c t e) σ σ₁ → Exec prims (.elif c t e) σ σ₁
  | loop {isUntil c b σ σ₁ σ₂ σ₃} : Exec prims c σ σ₁ → σ₁.1 ≠ -2 → goesOn isUntil σ₁.1 →
      Exec prims b σ₁ σ₂ → σ₂.1 ≠ -2 → Exec prims (.loop isUntil c b) σ₂ σ₃ →
      Exec prims (.loop isUntil c b) σ σ₃
  | loopEnd {isUntil c b σ σ₁} : Exec prims c σ σ₁ → σ₁.1 = -2 ∨ ¬goesOn isUntil σ₁.1 →
      Exec prims (.loop isUntil c b) σ σ₁
  | loopExit {isUntil c b σ σ₁ σ₂} : Exec prims c σ σ₁ → σ₁.1 ≠ -2 → goesOn isUntil σ₁.1 →
      Exec prims b σ₁ σ₂ → σ₂.1 = -2 → Exec prims (.loop isUntil c b) σ σ₂
  | forIn {name words b σ σ₁} :
      words ≠ [] → Exec prims (.turns (prims.values σ.2 name words) b) σ σ₁ →
      Exec prims (.forIn name words b) σ σ₁
  | forNone {name b σ} : Exec prims (.forIn name [] b) σ σ
  | turnsNil {b σ} : Exec prims (.turns [] b) σ σ
  | turns {value values b σ res σ₁ σ₂} : prims.Exec [value] σ.2 res → (ran res).1 ≠ -2 →
      Exec prims b (ran res) σ₁ → σ₁.1 ≠ -2 → Exec prims (.turns values b) σ₁ σ₂ →
      Exec prims (.turns (value :: values) b) σ σ₂
  | turnsLeave {value values b σ res} : prims.Exec [value] σ.2 res → (ran res).1 = -2 →
      Exec prims (.turns (value :: values) b) σ (ran res)
  | turnsExit {value values b σ res σ₁} : prims.Exec [value] σ.2 res → (ran res).1 ≠ -2 →
      Exec prims b (ran res) σ₁ → σ₁.1 = -2 → Exec prims (.turns (value :: values) b) σ σ₁

/-! ## Pipes -/

/-- What a pipe holds beside its words: for a command with some number of words, and for a compound
one. -/
class Label (G : Type) where
  simple : ℕ → Option G
  group : Cmd .compound → Option G

section Pipes

variable {G : Type}

/-- The empty pipes behind a compound command: the one of its last word, and the one that is begun
then. -/
def closing (rm : Reserved) : List (Pipe G) := [⟨[], .seq, rm⟩, ⟨[], .invalid, .resNone⟩]

variable [Label G]

/-- The pipes of a list, for the word in force. -/
def Cmd.pipes (rm : Reserved) : Cmd .list → List (Pipe G)
  | .simple cmd args => [⟨[⟨some (cmd :: args), Label.simple (cmd :: args).length⟩], .seq, rm⟩]
  | .seq c d => c.pipes rm ++ d.pipes rm
  | .group g => [⟨[⟨none, Label.group g⟩], .seq, rm⟩]

/-- The pipes behind the branches of an `if`. -/
def Cmd.tailPipes : Cmd .tail → List (Pipe G)
  | .fi => closing .resFi
  | .els d => d.pipes .resElse ++ closing .resFi
  | .elif c t e => c.pipes .resElif ++ (t.pipes .resThen ++ e.tailPipes)

/-- The word of a loop. -/
def loopWord (isUntil : Bool) : Reserved := if isUntil then .resUntil else .resWhile

/-- The pipe of a `for` with its variable. -/
def forPipe (name : Str) : Pipe G := ⟨[⟨some [name], Label.simple 1⟩], .seq, .resFor⟩

/-- The pipe with the words of a `for`. -/
def inPipe (words : List Str) : Pipe G :=
  ⟨if words = [] then [] else [⟨some words, Label.simple words.length⟩], .seq, .resIn⟩

/-- The pipes of a compound command. -/
def Cmd.groupPipes : Cmd .compound → List (Pipe G)
  | .cond c t e => c.pipes .resIf ++ (t.pipes .resThen ++ e.tailPipes)
  | .loop isUntil c b => c.pipes (loopWord isUntil) ++ (b.pipes .resDo ++ closing .resDone)
  | .forIn name words b => forPipe name :: inPipe words :: (b.pipes .resDo ++ closing .resDone)

end Pipes

/-- The functions below `run_list_real`, for some fuel and depth: they run the commands without
structure, and `run_list_real` for the compound ones. -/
structure Runner {G : Type} [Label G] (prims : Prims S) (sh : ℕ → ℕ → Shell S G) : Prop where
  hadCtrlc : ∀ n k w, (sh n k).hadCtrlc w = false
  insertVarValue : ∀ n k, (sh n k).insertVarValue = prims.insertVarValue
  simple : ∀ argv w res, prims.Exec argv w res → ∃ N, ∀ n k, N ≤ n → N ≤ k → ∀ rm,
    (sh n k).runPipeReal ⟨[⟨some argv, Label.simple argv.length⟩], .seq, rm⟩ w = res
  group : ∀ g w res, prims.Ok w →
    (∃ N, ∀ n k, N ≤ n → N ≤ k → runListReal (sh n k) n g.groupPipes w = some res) →
    ∃ N, ∀ n k, N ≤ n → N ≤ k → ∀ rm,
      (sh n k).runPipeReal ⟨[⟨none, Label.group g⟩], .seq, rm⟩ w = res

/-! ## Turns of the loop -/

section Turns

variable {G : Type} {sh : Shell S G} {rm : Reserved} {v : Vars G} {w : World S} {i f : ℕ}
  (hctrlc : ∀ w, sh.hadCtrlc w = false)

/-- The words that a loop begins with. -/
def Loops (rm : Reserved) : Prop := rm = .resWhile ∨ rm = .resUntil ∨ rm = .resFor

instance (rm : Reserved) : Decidable (Loops rm) := inferInstanceAs (Decidable (_ ∨ _))

/-- A pipe behind a word is run. -/
def Enters : Reserved → Vars G → Prop
  | .resNone, _ | .resIf, _ | .resWhile, _ | .resUntil, _ => True
  | .resThen, v => v.nextIfCode = 0
  | .resElse, v => v.nextIfCode ≠ 0
  | .resElif, v => v.ifCode ≠ 0
  | .resDo, v => v.flagRep = true
  | _, _ => False

/-- A pipe behind a word is passed. -/
def Passes : Reserved → Vars G → Prop
  | .resThen, v => v.nextIfCode ≠ 0
  | .resElse, v => v.nextIfCode = 0
  | .resDo, v => v.flagRep = false
  | .resIn, _ => True
  | _, _ => False

/-- The variables behind a pipe that was passed. -/
def Vars.passed (rm : Reserved) (v : Vars G) : Vars G := { v with
  flagSkip := true
  skipMoreInThisRmode := .resXxxx
  ifCode := if rm = .resThen ∨ rm = .resElse then v.nextIfCode else v.ifCode }

/-- The variables behind pipes that ran, from the one with index `i` on. -/
def Vars.after (rm : Reserved) (i : ℕ) (r : ℤ) (v : Vars G) : Vars G := { v with
  rpipe := if Loops rm ∧ v.rpipe = none then some i else v.rpipe
  flagRep := if rm = .resWhile then decide (r = 0) else if rm = .resUntil then decide (r ≠ 0)
    else v.flagRep
  rcode := r
  flagSkip := true
  flagRestore := if Loops rm then false else v.flagRestore
  ifCode := if rm = .resThen ∨ rm = .resElse then v.nextIfCode else v.ifCode
  nextIfCode := if rm = .resIf ∨ rm = .resElif then r else v.nextIfCode
  skipMoreInThisRmode := .resXxxx }

theorem Vars.after_after {j : ℕ} {r r' : ℤ} : (v.after rm i r).after rm j r' = v.after rm i r' := by
  cases rm <;> cases h : v.rpipe <;> simp [after, Loops, h]

theorem Vars.passed_passed : (v.passed rm).passed rm = v.passed rm := by
  cases rm <;> simp [passed]

theorem Enters.after {r : ℤ} (h : Enters rm v) : Enters rm (v.after rm i r) := by
  cases rm <;> simp_all [Enters, Vars.after]

theorem Passes.passed (h : Passes rm v) : Passes rm (v.passed rm) := by
  cases rm <;> simp_all [Passes, Vars.passed]

include hctrlc in
theorem turn_enters {p : ChildProg G} (hrun : Enters rm v)
    (hskip : v.skipMoreInThisRmode = .resXxxx) :
    turn sh i ⟨[p], .seq, rm⟩ v w =
      if (sh.runPipeReal ⟨[p], .seq, rm⟩ w).1 < -1 then
        .ret (-2) ((sh.runPipeReal ⟨[p], .seq, rm⟩ w).2.ranPipe
          (sh.runPipeReal ⟨[p], .seq, rm⟩ w).1)
      else
        .cont (v.after rm i (sh.runPipeReal ⟨[p], .seq, rm⟩ w).1)
          ((sh.runPipeReal ⟨[p], .seq, rm⟩ w).2.ranPipe (sh.runPipeReal ⟨[p], .seq, rm⟩ w).1) := by
  generalize hres : sh.runPipeReal ⟨[p], .seq, rm⟩ w = res
  by_cases hexit : res.1 < -1
  · cases rm <;> simp_all [Enters, turn, reservedTurn, runTurn, World.ranPipe]
  · by_cases hzero : res.1 = 0
    · cases rm <;> simp_all [Enters, turn, reservedTurn, runTurn, World.ranPipe, Vars.after, Loops]
    · cases rm <;> simp_all [Enters, turn, reservedTurn, runTurn, World.ranPipe, Vars.after, Loops]

theorem turn_passes {ps : List (ChildProg G)} (hpass : Passes rm v)
    (hskip : v.skipMoreInThisRmode = .resXxxx) :
    turn sh i ⟨ps, .seq, rm⟩ v w = .cont (v.passed rm) w := by
  cases rm <;> simp_all [Passes, turn, reservedTurn, Vars.passed]

end Turns

/-! ## Segments of the list -/

section Segments

variable {G : Type} {sh : Shell S G} {rm : Reserved} {v : Vars G} {w : World S} {f : ℕ}
  {pre ps qs post : List (Pipe G)} {σ σ₁ σ₂ : ℤ × World S}

/-- What the loop does with pipes that are run: it leaves, or goes on behind them. -/
def Segment (sh : Shell S G) (rm : Reserved) (ps : List (Pipe G))
    (σ σ' : ℤ × World S) : Prop :=
  ∀ f pre post v, v.pipes = pre ++ (ps ++ post) → v.skipMoreInThisRmode = .resXxxx →
    v.flagRestore = false ∨ Loops rm → Enters rm v →
    runLoop sh (f + ps.length) (some pre.length) v σ.2 =
      if σ'.1 = -2 then some σ'
      else runLoop sh f (some (pre ++ ps).length) (v.after rm pre.length σ'.1) σ'.2

theorem runLoop_turn {pi : Pipe G} (hpipes : v.pipes = pre ++ (pi :: post)) :
    runLoop sh (f + 1) (some pre.length) v w =
      match turn sh pre.length pi v w with
      | .ret rcode w => some (rcode, w)
      | .cont v' w' => runLoop sh f (if v'.flagRestore then v'.rpipe else some (pre.length + 1))
          v' w' := by
  have hget : v.pipes[pre.length]? = some pi := by
    rw [hpipes, List.getElem?_append_right le_rfl, Nat.sub_self]
    rfl
  cases hturn : turn sh pre.length pi v w with
  | ret rcode w' =>
      rw [runLoop, hget]
      dsimp only
      rw [hturn]
  | cont v' w' =>
      rw [runLoop, hget]
      dsimp only
      rw [hturn]

theorem outcome_eq_iff (r : ℤ) : outcome r = -2 ↔ r < -1 := by
  rw [outcome]
  split_ifs <;> omega

theorem Segment.single (hctrlc : ∀ w, sh.hadCtrlc w = false) {p : ChildProg G}
    {res : ℤ × World S} (hrun : sh.runPipeReal ⟨[p], .seq, rm⟩ σ.2 = res) :
    Segment sh rm [⟨[p], .seq, rm⟩] σ (ran res) := by
  intro f pre post v hpipes hskip hrestore henter
  rw [List.singleton_append] at hpipes
  rw [List.length_singleton, runLoop_turn hpipes, turn_enters hctrlc henter hskip, hrun]
  by_cases hexit : res.1 < -1
  · refine Eq.trans ?_ (if_pos ((outcome_eq_iff _).2 hexit)).symm
    rw [if_pos hexit, ran, outcome, if_pos hexit]
  · have hback : (v.after rm pre.length res.1).flagRestore = false := by
      obtain hv | hloops := hrestore
      · simp [Vars.after, hv]
      · exact if_pos hloops
    refine Eq.trans ?_ (if_neg (mt (outcome_eq_iff _).1 hexit)).symm
    rw [if_neg hexit, ran, outcome, if_neg hexit]
    dsimp only
    rw [hback, List.length_append]
    rfl

theorem Segment.append (h : Segment sh rm ps σ σ₁) (hne : σ₁.1 ≠ -2) (h' : Segment sh rm qs σ₁ σ₂) :
    Segment sh rm (ps ++ qs) σ σ₂ := by
  intro f pre post v hpipes hskip hrestore henter
  have hfuel : f + (ps ++ qs).length = f + qs.length + ps.length := by
    rw [List.length_append]
    omega
  have hback : (v.after rm pre.length σ₁.1).flagRestore = false ∨ Loops rm := by
    by_cases hloops : Loops rm
    · exact .inr hloops
    · exact .inl ((if_neg hloops).trans (hrestore.resolve_right hloops))
  rw [hfuel, h _ pre (qs ++ post) v (by rw [hpipes, List.append_assoc]) hskip hrestore henter,
    if_neg hne, h' _ (pre ++ ps) post (v.after rm pre.length σ₁.1) (hpipes.trans (by simp)) rfl
    hback henter.after,
    Vars.after_after, List.append_assoc]

theorem Segment.append_exit (h : Segment sh rm ps σ σ₁) (hexit : σ₁.1 = -2) :
    Segment sh rm (ps ++ qs) σ σ₁ := by
  intro f pre post v hpipes hskip hrestore henter
  have hfuel : f + (ps ++ qs).length = f + qs.length + ps.length := by
    rw [List.length_append]
    omega
  rw [hfuel, h _ pre (qs ++ post) v (by rw [hpipes, List.append_assoc]) hskip hrestore henter,
    if_pos hexit, if_pos hexit]

/-- Pipes that are passed. -/
theorem runLoop_passes (hps : ∀ pi ∈ ps, pi.rMode = rm ∧ pi.followup = .seq) (hne : ps ≠ [])
    (hpipes : v.pipes = pre ++ (ps ++ post)) (hskip : v.skipMoreInThisRmode = .resXxxx)
    (hrestore : v.flagRestore = false) (hpass : Passes rm v) :
    runLoop sh (f + ps.length) (some pre.length) v w =
      runLoop sh f (some (pre ++ ps).length) (v.passed rm) w := by
  induction ps generalizing pre v with
  | nil => exact absurd rfl hne
  | cons pi ps ih =>
      obtain ⟨⟨hmode, hfollowup⟩, hps⟩ := List.forall_mem_cons.1 hps
      have hpi : pi = ⟨pi.progs, .seq, rm⟩ := by
        cases pi
        cases hmode
        cases hfollowup
        rfl
      rw [List.cons_append] at hpipes
      rw [List.length_cons, ← Nat.add_assoc, runLoop_turn hpipes, hpi, turn_passes hpass hskip]
      dsimp only
      have hback : (v.passed rm).flagRestore = false := hrestore
      rw [hback, if_neg Bool.false_ne_true]
      cases ps with
      | nil => simp
      | cons qi ps =>
          have hnext := @ih (v.passed rm) (pre ++ [pi]) hps (List.cons_ne_nil _ _)
            (hpipes.trans (by simp)) rfl hrestore hpass.passed
          rw [List.length_append, List.length_singleton, Vars.passed_passed] at hnext
          rw [hnext, ← hpi]
          simp

/-- The empty pipes at the end of a compound command. -/
theorem runLoop_closing {v' : Vars G} (hpipes : v.pipes = pre ++ closing rm)
    (hturn : turn sh pre.length ⟨[], .seq, rm⟩ v w = .cont v' w) (hsame : v'.pipes = v.pipes)
    (hrcode : v'.rcode = v.rcode) (hrestore : v'.flagRestore = false)
    (hskip : v'.skipMoreInThisRmode = .resXxxx) :
    runLoop sh (f + 3) (some pre.length) v w = some (v.rcode, w) := by
  have hlen : (pre ++ [⟨[], .seq, rm⟩] : List (Pipe G)).length = pre.length + 1 := by simp
  have hpipes' : v'.pipes = (pre ++ [⟨[], .seq, rm⟩]) ++ [⟨[], .invalid, .resNone⟩] := by
    rw [hsame, hpipes]
    simp [closing]
  have hnull : turn sh (pre.length + 1) ⟨[], .invalid, .resNone⟩ v' w =
      .cont (v'.passed .resNone) w := by
    simp [turn, reservedTurn, runTurn, Vars.passed, hskip]
  have hend : (v'.passed .resNone).pipes[pre.length + 1 + 1]? = none := by
    refine List.getElem?_eq_none ?_
    change v'.pipes.length ≤ _
    rw [hpipes']
    simp
  have hnext := @runLoop_turn S G sh v' w (f + 1) _ [] _ hpipes'
  rw [hlen, hnull] at hnext
  rw [runLoop_turn hpipes, hturn]
  dsimp only at hnext ⊢
  rw [hrestore, if_neg Bool.false_ne_true, hnext, show (v'.passed .resNone).flagRestore =
    false from hrestore,
    if_neg Bool.false_ne_true, runLoop, hend, ← hrcode]
  rfl

/-- The pipes behind `fi`. -/
theorem runLoop_fi (hpipes : v.pipes = pre ++ closing .resFi)
    (hskip : v.skipMoreInThisRmode = .resXxxx) (hrestore : v.flagRestore = false) :
    runLoop sh (f + 3) (some pre.length) v w = some (v.rcode, w) := by
  have hturn : turn sh pre.length ⟨[], .seq, .resFi⟩ v w = .cont (v.passed .resFi) w := by
    simp [turn, reservedTurn, runTurn, Vars.passed, hskip]
  exact runLoop_closing hpipes hturn rfl rfl hrestore rfl

/-- Behind the last turn of a loop. -/
theorem runLoop_done (hpipes : v.pipes = pre ++ closing .resDone)
    (hskip : v.skipMoreInThisRmode = .resXxxx) (hrestore : v.flagRestore = false)
    (hrep : v.flagRep = false) :
    runLoop sh (f + 3) (some pre.length) v w = some (v.rcode, w) := by
  have hturn : turn sh pre.length ⟨[], .seq, .resDone⟩ v w =
      .cont { v.passed .resDone with rpipe := none } w := by
    simp [turn, reservedTurn, runTurn, Vars.passed, hskip, hrep]
  exact runLoop_closing hpipes hturn rfl rfl hrestore rfl

/-- At the end of a turn, the loop goes back. -/
theorem runLoop_again (hpipes : v.pipes = pre ++ closing .resDone)
    (hskip : v.skipMoreInThisRmode = .resXxxx) (hrep : v.flagRep = true) :
    runLoop sh (f + 1) (some pre.length) v w =
      runLoop sh f v.rpipe { v.passed .resDone with flagRestore := true } w := by
  have hturn : turn sh pre.length ⟨[], .seq, .resDone⟩ v w =
      .cont { v.passed .resDone with flagRestore := true } w := by
    simp [turn, reservedTurn, runTurn, Vars.passed, hskip, hrep]
  rw [runLoop_turn hpipes, hturn]
  rfl

end Segments

end MiniPi.Hush
