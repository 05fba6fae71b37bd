import MiniPi.Hush.RunList
import MiniPi.Lib.Mem

/-!
# Chains of `&&` and `||`

Behind an operator that skips its command, the loop skips all commands up to the end of the chain,
as it remembers that it skips but not the status.  A shell would look at the status again for each
operator.
-/

namespace MiniPi.Hush

/-- The words of a command. -/
abbrev Command := List Str

/-- The operators between commands. -/
inductive Op
  | and
  | or
deriving DecidableEq

/-- The command behind the operator runs when the status is this. -/
def Op.Runs (op : Op) (status : ℤ) : Prop :=
  match op with
  | .and => status = 0
  | .or => status ≠ 0

instance (op : Op) (status : ℤ) : Decidable (op.Runs status) := by
  unfold Op.Runs
  cases op <;> infer_instance

/-- The `pipe_style` for an operator. -/
def Op.style : Op → PipeStyle
  | .and => .and
  | .or => .or

/-- A pipe of a simple command. -/
def simplePipe (G : Type) (c : Command) (followup : PipeStyle) : Pipe G :=
  ⟨[⟨some c, none⟩], followup, .resNone⟩

/-- The pipes that `parse_stream` makes of a chain that ends with `;` or the line. -/
def chain (G : Type) (c : Command) : List (Op × Command) → List (Pipe G)
  | [] => [simplePipe G c .seq]
  | (op, d) :: rest => simplePipe G c op.style :: chain G d rest

/-- The empty pipes behind a chain: one, if it ends with the line, and one more for a `;`, in front
of the last one, which is never done. -/
def nullPipes (G : Type) (n : ℕ) : List (Pipe G) :=
  List.replicate n ⟨[], .seq, .resNone⟩ ++ [⟨[], .invalid, .resNone⟩]

/-- The commands that were run, in order. -/
abbrev History := List Command

variable {G : Type} {status : History → Command → ℤ} {h : History} {s : ℤ}

/-- A shell that runs simple commands: the status of each may depend on those before it. -/
def recorder (G : Type) (status : History → Command → ℤ)
    (insertVarValue : World History → Str → Str) :
    Shell History G where
  runPipeReal pi w :=
    (status w.rest (pi.argv.getD []), { w with rest := w.rest ++ [pi.argv.getD []] })
  insertVarValue := insertVarValue
  hadCtrlc _ := false

/-! ## Evaluation from left to right -/

/-- The operators and commands behind a command that left the status `s`: each is decided by the
status so far.  A status below -1 leaves the shell. -/
def evalRest (status : History → Command → ℤ) : ℤ → History → List (Op × Command) → ℤ × History
  | s, h, [] => (if s < -1 then -2 else s, h)
  | s, h, (op, c) :: rest =>
    if s < -1 then (-2, h)
    else if op.Runs s then evalRest status (status h c) (h ++ [c]) rest
    else evalRest status s h rest

/-- The status of a chain, and the commands that run. -/
def evalChain (status : History → Command → ℤ) (c : Command) (rest : List (Op × Command)) :
    ℤ × History :=
  evalRest status (status [] c) [c] rest

/-- Behind the first operator that skips its command there are only operators of its kind. -/
def UniformRest (status : History → Command → ℤ) : ℤ → History → List (Op × Command) → Prop
  | _, _, [] => True
  | s, h, (op, c) :: rest =>
    s < -1 ∨ if op.Runs s then UniformRest status (status h c) (h ++ [c]) rest
      else ∀ x ∈ rest, x.1 = op

/-- What is asked of a chain and its statuses. -/
def Uniform (status : History → Command → ℤ) (c : Command) (rest : List (Op × Command)) : Prop :=
  UniformRest status (status [] c) [c] rest

/-! ## What the loop does -/

/-- The commands up to the first one that is skipped. -/
def hushRest (status : History → Command → ℤ) : ℤ → History → List (Op × Command) → ℤ × History
  | s, h, [] => (if s < -1 then -2 else s, h)
  | s, h, (op, c) :: rest =>
    if s < -1 then (-2, h)
    else if op.Runs s then hushRest status (status h c) (h ++ [c]) rest
    else (s, h)

/-- No command behind the operators of one kind runs, once one is skipped. -/
theorem evalRest_of_forall {op : Op} {rest : List (Op × Command)} (hexit : ¬s < -1)
    (hskip : ¬op.Runs s) (hall : ∀ x ∈ rest, x.1 = op) : evalRest status s h rest = (s, h) := by
  induction rest with
  | nil => rw [evalRest, if_neg hexit]
  | cons x rest ih =>
    obtain ⟨op', c⟩ := x
    obtain ⟨hop, hall⟩ := List.forall_mem_cons.1 hall
    obtain rfl : op' = op := hop
    rw [evalRest, if_neg hexit, if_neg hskip, ih hall]

theorem prefix_evalRest (rest : List (Op × Command)) (s : ℤ) (h : History) :
    h <+: (evalRest status s h rest).2 := by
  induction rest generalizing s h with
  | nil => exact List.prefix_rfl
  | cons x rest ih =>
    obtain ⟨op, c⟩ := x
    rw [evalRest]
    split_ifs
    · exact List.prefix_rfl
    · exact (List.prefix_append h [c]).trans (ih _ _)
    · exact ih s h

theorem Op.runs_of_ne {op op' : Op} (hne : op' ≠ op) (hskip : ¬op.Runs s) : op'.Runs s := by
  cases op <;> cases op' <;> simp_all [Op.Runs]

theorem forall_of_evalRest {op : Op} {rest : List (Op × Command)} (hexit : ¬s < -1)
    (hskip : ¬op.Runs s) (heq : evalRest status s h rest = (s, h)) : ∀ x ∈ rest, x.1 = op := by
  induction rest with
  | nil => exact fun x hx ↦ absurd hx List.not_mem_nil
  | cons x rest ih =>
    obtain ⟨op', c⟩ := x
    rw [evalRest, if_neg hexit] at heq
    by_cases hop : op' = op
    · rw [hop, if_neg hskip] at heq
      exact List.forall_mem_cons.2 ⟨hop, ih heq⟩
    · rw [if_pos (Op.runs_of_ne hop hskip)] at heq
      have hprefix := (@prefix_evalRest status rest (status h c) (h ++ [c])).length_le
      rw [heq, List.length_append, List.length_singleton] at hprefix
      exact absurd hprefix (Nat.not_succ_le_self _)

/-- The loop runs what the evaluation from left to right runs if and only if the chain is uniform
behind the first command that is skipped. -/
theorem hushRest_eq_iff (rest : List (Op × Command)) (s : ℤ) (h : History) :
    hushRest status s h rest = evalRest status s h rest ↔ UniformRest status s h rest := by
  induction rest generalizing s h with
  | nil => exact iff_of_true rfl trivial
  | cons x rest ih =>
    obtain ⟨op, c⟩ := x
    rw [hushRest, evalRest, UniformRest]
    by_cases hexit : s < -1
    · rw [if_pos hexit, if_pos hexit]
      exact iff_of_true rfl (.inl hexit)
    rw [if_neg hexit, if_neg hexit, or_iff_right hexit]
    by_cases hruns : op.Runs s
    · rw [if_pos hruns, if_pos hruns, if_pos hruns, ih]
    · rw [if_neg hruns, if_neg hruns, if_neg hruns]
      exact ⟨fun heq ↦ forall_of_evalRest hexit hruns heq.symm, fun hall ↦
        (evalRest_of_forall hexit hruns hall).symm⟩

/-! ## Turns of the loop -/

section Turns

variable {S : Type} {sh : Shell S G} {v : Vars G} {w : World S} {i n : ℕ} {pi : Pipe G}

/-- What a turn does for a pipe of a command that is no part of a compound one. -/
theorem turn_resNone (hmode : pi.rMode = .resNone) :
    turn sh i pi v w =
      if .resNone = v.skipMoreInThisRmode ∧ v.flagSkip = true then
        .cont { v with flagSkip := pi.followup ≠ .seq } w
      else runTurn sh pi
        { v with flagSkip := true, skipMoreInThisRmode := .resXxxx } w := by
  have hloops : ¬(Reserved.resNone = .resWhile ∨ Reserved.resNone = .resUntil ∨
      Reserved.resNone = .resFor) := by decide
  unfold turn reservedTurn
  rw [hmode]
  dsimp only
  rw [if_neg fun hctrlc ↦ hloops hctrlc.1, if_neg hloops]
  by_cases hskip : .resNone = v.skipMoreInThisRmode ∧ v.flagSkip = true
  · rw [if_pos hskip, if_pos hskip]
  · rw [if_neg hskip, if_neg hskip]
    simp

/-- The variables while pipes are not skipped. -/
structure Running (v : Vars G) : Prop where
  skip : ¬(.resNone = v.skipMoreInThisRmode ∧ v.flagSkip = true)
  restore : v.flagRestore = false

/-- The variables while pipes are skipped. -/
structure Skipping (v : Vars G) : Prop where
  mode : .resNone = v.skipMoreInThisRmode
  skip : v.flagSkip = true
  restore : v.flagRestore = false

theorem getElem?_pipes {pre post : List (Pipe G)} (hpipes : v.pipes = pre ++ pi :: post) :
    v.pipes[pre.length]? = some pi := by
  rw [hpipes, List.getElem?_append_right le_rfl, Nat.sub_self]
  rfl

/-- The loop goes on with the next pipe. -/
theorem runLoop_cont {pre post : List (Pipe G)} {v' : Vars G} {w' : World S}
    (hpipes : v.pipes = pre ++ pi :: post) (hturn : turn sh pre.length pi v w = .cont v' w')
    (hrestore : v'.flagRestore = false) :
    runLoop sh (n + 1) (some pre.length) v w = runLoop sh n (some (pre ++ [pi]).length) v' w' := by
  rw [runLoop, getElem?_pipes hpipes]
  dsimp only
  rw [hturn]
  dsimp only
  rw [hrestore, if_neg Bool.false_ne_true, List.length_append]
  rfl

theorem runLoop_ret {pre post : List (Pipe G)} {r : ℤ} {w' : World S}
    (hpipes : v.pipes = pre ++ pi :: post) (hturn : turn sh pre.length pi v w = .ret r w') :
    runLoop sh (n + 1) (some pre.length) v w = some (r, w') := by
  rw [runLoop, getElem?_pipes hpipes]
  dsimp only
  rw [hturn]

/-- Empty pipes are passed. -/
theorem runLoop_null {pre post : List (Pipe G)} (hrun : Running v) (hpipes : v.pipes = pre ++ post)
    (hnull : ∀ pi ∈ post, pi.progs = [] ∧ pi.rMode = .resNone) (hfuel : post.length < n) :
    runLoop sh n (some pre.length) v w = some (v.rcode, w) := by
  obtain ⟨n, rfl⟩ : ∃ m, n = m + 1 := ⟨n - 1, by omega⟩
  induction post generalizing pre v n with
  | nil => rw [runLoop, hpipes, List.append_nil, List.getElem?_eq_none le_rfl]
  | cons pi post ih =>
    obtain ⟨⟨hprogs, hmode⟩, hnull⟩ := List.forall_mem_cons.1 hnull
    rw [List.length_cons] at hfuel
    obtain ⟨n, rfl⟩ : ∃ m, n = m + 1 := ⟨n - 1, by omega⟩
    have hturn : turn sh pre.length pi v w =
        .cont { v with flagSkip := true, skipMoreInThisRmode := .resXxxx } w := by
      rw [turn_resNone hmode, if_neg hrun.skip, runTurn, if_pos hprogs]
    rw [runLoop_cont hpipes hturn hrun.restore]
    have hrun' : Running { v with flagSkip := true, skipMoreInThisRmode := .resXxxx } :=
      ⟨fun hskip ↦ Reserved.noConfusion hskip.1, hrun.restore⟩
    exact ih hrun' (hpipes.trans (List.append_cons pre pi post)) hnull n (by omega)

end Turns

variable {f : World History → Str → Str} {v : Vars G} {w : World History} {i n : ℕ} {pi : Pipe G}

theorem nullPipes_spec {m : ℕ} : ∀ pi ∈ nullPipes G m, pi.progs = [] ∧ pi.rMode = .resNone := by
  intro pi hpi
  obtain hpi | hpi := List.mem_append.1 hpi
  · obtain rfl := List.eq_of_mem_replicate hpi
    exact ⟨rfl, rfl⟩
  · obtain rfl := List.mem_singleton.1 hpi
    exact ⟨rfl, rfl⟩

/-- Once a command is skipped, all are, up to the end of the chain. -/
theorem runLoop_skipping {m : ℕ} {pre : List (Pipe G)} {c : Command} {rest : List (Op × Command)}
    (hskip : Skipping v) (hpipes : v.pipes = pre ++ (chain G c rest ++ nullPipes G m))
    (hfuel : (chain G c rest ++ nullPipes G m).length < n) :
    runLoop (recorder G status f) n (some pre.length) v w = some (v.rcode, w) := by
  obtain ⟨n, rfl⟩ : ∃ m, n = m + 1 := ⟨n - 1, by omega⟩
  have hturn (followup : PipeStyle) :
    turn (recorder G status f) pre.length (simplePipe G c followup) v w =
      .cont { v with flagSkip := followup ≠ .seq } w := by
    rw [turn_resNone rfl, if_pos ⟨hskip.mode, hskip.skip⟩]
    rfl
  induction rest generalizing pre v c n with
  | nil =>
    rw [runLoop_cont hpipes (hturn _) hskip.restore]
    rw [chain, List.length_append, List.length_singleton] at hfuel
    have hrun : Running { v with flagSkip := PipeStyle.seq ≠ PipeStyle.seq } :=
      ⟨fun h ↦ Bool.false_ne_true h.2, hskip.restore⟩
    exact runLoop_null hrun (hpipes.trans (List.append_cons pre _ (nullPipes G m))) nullPipes_spec
      (by omega)
  | cons x rest ih =>
    obtain ⟨op, d⟩ := x
    rw [chain, List.cons_append, List.length_cons] at hfuel
    obtain ⟨n, rfl⟩ : ∃ m, n = m + 1 := ⟨n - 1, by omega⟩
    have hop : (decide (op.style ≠ .seq)) = true := by
      cases op <;> rfl
    rw [runLoop_cont hpipes (hturn _) hskip.restore]
    have hskip' : Skipping { v with flagSkip := op.style ≠ .seq } :=
      ⟨hskip.mode, hop, hskip.restore⟩
    refine ih hskip' (hpipes.trans (List.append_cons pre _ _)) n (by omega) fun followup ↦ ?_
    rw [turn_resNone rfl, if_pos ⟨hskip.mode, hop⟩]
    rfl

/-- The turn for a command that is not skipped. -/
theorem turn_simplePipe {c : Command} {followup : PipeStyle} (hrun : Running v) :
    turn (recorder G status f) i (simplePipe G c followup) v w =
      if status w.rest c < -1 then
        .ret (-2) ⟨(-status w.rest c - 2).toNat, w.rest ++ [c]⟩
      else
        .cont { v with
          flagSkip := true
          rcode := status w.rest c
          skipMoreInThisRmode :=
            if status w.rest c = 0 ∧ followup = .or ∨ status w.rest c ≠ 0 ∧
              followup = .and then .resNone
            else .resXxxx } ⟨if status w.rest c = 0 then 0 else 1, w.rest ++ [c]⟩ := by
  rw [turn_resNone rfl, if_neg hrun.skip]
  rfl

/-- The loop runs the commands up to the first one that is skipped. -/
theorem runLoop_chain {m : ℕ} {pre : List (Pipe G)} {c : Command} {rest : List (Op × Command)}
    (hrun : Running v) (hpipes : v.pipes = pre ++ (chain G c rest ++ nullPipes G m))
    (hfuel : (chain G c rest ++ nullPipes G m).length < n) :
    (runLoop (recorder G status f) n (some pre.length) v w).map (fun r ↦ (r.1, r.2.rest)) =
      some (hushRest status (status w.rest c) (w.rest ++ [c]) rest) := by
  induction rest generalizing pre v w c n with
  | nil =>
    rw [chain, List.length_append, List.length_singleton] at hfuel
    obtain ⟨n, rfl⟩ : ∃ m, n = m + 1 := ⟨n - 1, by omega⟩
    have hturn := @turn_simplePipe G status f v w pre.length c .seq hrun
    rw [hushRest]
    by_cases hexit : status w.rest c < -1
    · rw [if_pos hexit] at hturn
      rw [if_pos hexit, runLoop_ret hpipes hturn]
      rfl
    · rw [if_neg hexit] at hturn
      rw [if_neg hexit, runLoop_cont hpipes hturn hrun.restore]
      have hnext := hpipes.trans (List.append_cons pre _ (nullPipes G m))
      rw [if_neg (by simp),
        @runLoop_null G History (recorder G status f) _ _ n _ (nullPipes G m) ?_ ?_ nullPipes_spec
        (by omega)]
      · rfl
      · exact ⟨fun hskip ↦ Reserved.noConfusion hskip.1, hrun.restore⟩
      · exact hnext
  | cons x rest ih =>
    obtain ⟨op, d⟩ := x
    rw [chain, List.cons_append, List.length_cons] at hfuel
    obtain ⟨n, rfl⟩ : ∃ m, n = m + 1 := ⟨n - 1, by omega⟩
    have hturn := @turn_simplePipe G status f v w pre.length c op.style hrun
    have hnext := hpipes.trans (List.append_cons pre _ (chain G d rest ++ nullPipes G m))
    rw [hushRest]
    by_cases hexit : status w.rest c < -1
    · rw [if_pos hexit] at hturn
      rw [if_pos hexit, runLoop_ret hpipes hturn]
      rfl
    rw [if_neg hexit] at hturn
    rw [if_neg hexit, runLoop_cont hpipes hturn hrun.restore]
    have hskips : (status w.rest c = 0 ∧ op.style = .or ∨ status w.rest c ≠ 0 ∧ op.style = .and) ↔
        ¬op.Runs (status w.rest c) := by
      cases op <;> simp [Op.style, Op.Runs]
    by_cases hruns : op.Runs (status w.rest c)
    · rw [if_pos hruns]
      rw [if_neg (fun h ↦ hskips.1 h hruns)]
      exact ih ⟨fun hskip ↦ Reserved.noConfusion hskip.1, hrun.restore⟩ hnext (by omega)
    · rw [if_neg hruns, if_pos (hskips.2 hruns)]
      rw [@runLoop_skipping G status f _ _ n m _ d rest ?_ ?_ (by omega)]
      · rfl
      · exact ⟨rfl, rfl, hrun.restore⟩
      · exact hnext

theorem forSyntax_of_resNone {pipes : List (Pipe G)} (h : ∀ pi ∈ pipes, pi.rMode = .resNone) :
    forSyntax pipes = true := by
  induction pipes with
  | nil => rfl
  | cons pi pipes ih =>
    obtain ⟨hmode, hpipes⟩ := List.forall_mem_cons.1 h
    cases pipes with
    | nil => simp [forSyntax, hmode]
    | cons next pipes =>
      rw [forSyntax, ih hpipes, hmode]
      simp

theorem chain_resNone {c : Command} {rest : List (Op × Command)} :
    ∀ pi ∈ chain G c rest, pi.rMode = .resNone := by
  induction rest generalizing c with
  | nil =>
    intro pi hpi
    obtain rfl := List.mem_singleton.1 hpi
    rfl
  | cons x rest ih => exact List.forall_mem_cons.2 ⟨rfl, ih⟩

/-- `run_list_real` runs a chain as a shell does, with its status, if and only if the chain is
uniform. -/
theorem runListReal_chain_iff (G : Type) (status : History → Command → ℤ)
    (f : World History → Str → Str) (lastReturnCode : ℕ) (c : Command) (rest : List (Op × Command))
    (m k : ℕ) :
    (runListReal (recorder G status f) ((chain G c rest ++ nullPipes G m).length + 1 + k)
        (chain G c rest ++ nullPipes G m) ⟨lastReturnCode, []⟩).map (fun r ↦ (r.1, r.2.rest)) =
      some (evalChain status c rest) ↔ Uniform status c rest := by
  have hfor : forSyntax (chain G c rest ++ nullPipes G m) = true := by
    refine forSyntax_of_resNone fun pi hpi ↦ ?_
    obtain hpi | hpi := List.mem_append.1 hpi
    · exact chain_resNone pi hpi
    · exact (nullPipes_spec pi hpi).2
  have hrun : Running (initVars (chain G c rest ++ nullPipes G m)) :=
    ⟨fun hskip ↦ Reserved.noConfusion hskip.1, rfl⟩
  rw [runListReal, if_neg (by rw [hfor]; exact Bool.noConfusion)]
  have hloop := @runLoop_chain G status f _ ⟨lastReturnCode, []⟩
    ((chain G c rest ++ nullPipes G m).length + 1 + k) m [] c rest hrun rfl (by omega)
  rw [List.length_nil] at hloop
  rw [hloop, Option.some_inj, evalChain, Uniform]
  exact hushRest_eq_iff rest (status [] c) [c]

/-- The commands `false`, `a` and `b`. -/
def falseAB (i : ℕ) : Command := [Lib.ascii (["false", "a", "b"].getD i "")]

/-- Only `false` fails. -/
def falseFails : History → Command → ℤ := fun _ c ↦ if c = falseAB 0 then 1 else 0

/-- In `false && a || b` the command `b` does not run. -/
theorem not_runListReal_chain :
    (runListReal (recorder Unit falseFails fun _ s ↦ s) 6
        (chain Unit (falseAB 0) [(.and, falseAB 1), (.or, falseAB 2)] ++ nullPipes Unit 1)
        ⟨0, []⟩).map (fun r ↦ (r.1, r.2.rest)) = some (1, [falseAB 0]) ∧
      evalChain falseFails (falseAB 0) [(.and, falseAB 1), (.or, falseAB 2)] =
        (0, [falseAB 0, falseAB 2]) := by
  decide +kernel

end MiniPi.Hush
