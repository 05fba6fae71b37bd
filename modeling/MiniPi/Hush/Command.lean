import MiniPi.Hush.Argument
import MiniPi.Hush.Script

/-!
# Scripts

`run_command` for the text of commands without variables: it does what the commands mean.
-/

namespace MiniPi.Hush

/-! ## Pipes -/

instance : Label Extra where
  simple n := some ⟨0, List.replicate n false, none⟩
  group g := some ⟨0, [], some (g.parsed .resNone)⟩

theorem mapM_fst (argv : List Str) :
    (argv.map fun s ↦ (some s, false)).mapM Prod.fst = some argv := by
  induction argv with
  | nil => rfl
  | cons s argv ih =>
      rw [List.map_cons, List.mapM_cons, ih]
      rfl

theorem toPipe_progOf {argv : List Str} (hne : argv ≠ []) (rm : Reserved) :
    toPipe ([progOf argv], .seq, rm) = some ⟨[⟨some argv, Label.simple argv.length⟩], .seq,
    rm⟩ := by
  have hnonnull : (argv.map fun s ↦ ((some s : Option Str), false)).map Prod.snd =
      List.replicate argv.length false := by
    rw [List.map_map]
    exact List.map_const'
  have hchild : (progOf argv).toChild = some ⟨some argv, Label.simple argv.length⟩ := by
    rw [Prog.toChild, progOf, Prog.words, mapM_fst, hnonnull, Option.map_some, if_neg hne]
    rfl
  rw [toPipe, List.mapM_cons, hchild]
  rfl

theorem mapM_toPipe_append {ps ps' : List ProgPipe} {qs qs' : List (Pipe Extra)}
    (h : ps.mapM toPipe = some qs) (h' : ps'.mapM toPipe = some qs') :
    (ps ++ ps').mapM toPipe = some (qs ++ qs') := by
  rw [List.mapM_append, h, h']
  rfl

theorem mapM_closingParsed (rm : Reserved) : (closingParsed rm).mapM toPipe = some (closing rm) :=
  rfl

/-- The pipes of a list are the ones that the parser leaves. -/
theorem Cmd.mapM_list (rm : Reserved) :
    ∀ c : Cmd .list, (c.parsed rm).mapM toPipe = some (c.pipes rm)
  | .simple cmd args => by
    rw [parsed, pipes, List.mapM_cons, toPipe_progOf (List.cons_ne_nil cmd args)]
    rfl
  | .seq c d => by
    rw [parsed, pipes]
    exact mapM_toPipe_append (mapM_list rm c) (mapM_list rm d)
  | .group g => by
    rw [parsed, pipes]
    rfl

theorem Cmd.mapM_tail : ∀ e : Cmd .tail, (e.parsed .resNone).mapM toPipe = some e.tailPipes
  | .fi => by
    rw [parsed, tailPipes]
    exact mapM_closingParsed .resFi
  | .els d => by
    rw [parsed, tailPipes]
    exact mapM_toPipe_append (d.mapM_list _) (mapM_closingParsed _)
  | .elif c t e => by
    rw [parsed, tailPipes]
    exact mapM_toPipe_append (c.mapM_list _) (mapM_toPipe_append (t.mapM_list _) (mapM_tail e))

theorem Cmd.mapM_compound : ∀ g : Cmd .compound, (g.parsed .resNone).mapM toPipe = some g.groupPipes
  | .cond c t e => by
    rw [parsed, groupPipes]
    exact mapM_toPipe_append (c.mapM_list _) (mapM_toPipe_append (t.mapM_list _) e.mapM_tail)
  | .loop _ c b => by
    rw [parsed, groupPipes]
    exact mapM_toPipe_append (c.mapM_list _)
      (mapM_toPipe_append (b.mapM_list _) (mapM_closingParsed _))
  | .forIn name words b => by
    have hrest := mapM_toPipe_append (b.mapM_list .resDo) (mapM_closingParsed .resDone)
    have hin : toPipe (if words = [] then [] else [progOf words], .seq, .resIn) =
        some (inPipe words) := by
      by_cases hwords : words = []
      · simp [hwords, inPipe, toPipe]
      · rw [if_neg hwords, toPipe_progOf hwords, inPipe, if_neg hwords]
    rw [parsed, groupPipes, List.mapM_cons, List.mapM_cons,
      toPipe_progOf (List.cons_ne_nil name []), hin, hrest]
    rfl

/-! ## Commands without variables -/

section Running

variable {S : Type} (m : Machine S)

/-- What a command comes to: its assignments are made, and what is not one is called. -/
def Machine.command (argv : List Str) (s : S) : ℤ × S :=
  let assigns := argv.takeWhile isAssignment
  let s := assigns.foldl (fun s word ↦ m.setLocalVar word s) s
  if assigns ≠ [] ∧ argv = assigns then (0, s) else m.cmdProcess argv s

/-- A word has no variables, and no `;` in quotes. -/
def NoVars (word : Str) : Prop := specialVarSymbol ∉ word ∧ 59 ∉ word

/-- Commands without variables. -/
def Machine.prims : Prims (Option S) where
  Exec argv w res := (∀ word ∈ argv, NoVars word) ∧ ∃ s, w.rest = some s ∧
    res = ((m.command argv s).1, { w with rest := some (m.command argv s).2 })
  insertVarValue := (shell m 0 0).insertVarValue
  Ok w := w.rest.isSome

variable {m} {s : S} {argv : List Str} {w : State S} {n : ℕ}

theorem insertVarValueSub_noVars {word : Str} (h : specialVarSymbol ∉ word) (lastReturnCode : ℕ)
    (tagSubst : Bool) :
    insertVarValueSub m lastReturnCode tagSubst word s = some (word, s) := if_neg h

theorem setVars_noVars {words : List Str} (h : ∀ word ∈ words, NoVars word) (lastReturnCode : ℕ) :
    setVars m lastReturnCode words s =
    some (words.foldl (fun s word ↦ m.setLocalVar word s) s) := by
  induction words generalizing s with
  | nil => rfl
  | cons word words ih =>
    obtain ⟨hword, hwords⟩ := List.forall_mem_cons.1 h
    rw [setVars, insertVarValueSub_noVars hword.1]
    exact ih hwords

theorem runProg_noVars {sh : Shell (Option S) Extra} {nonnull : List Bool}
    (h : ∀ word ∈ argv, NoVars word) :
    runProg m sh n argv ⟨0, nonnull, none⟩ s w =
      ((m.command argv s).1, { w with rest := some (m.command argv s).2 }) := by
  have hassigns : ∀ word ∈ argv.takeWhile isAssignment, NoVars word := fun word hword ↦
    h word ((List.takeWhile_prefix _).subset hword)
  have hcount : (argv.takeWhile isAssignment).countP (specialVarSymbol ∈ ·) = 0 :=
    List.countP_eq_zero.2 fun word hword ↦ by simpa using (hassigns word hword).1
  have hsemi : 59 ∉ (argv[(argv.takeWhile isAssignment).length]?).getD [] := by
    cases hget : argv[(argv.takeWhile isAssignment).length]? with
    | none => exact List.not_mem_nil
    | some word => exact (h word (List.mem_of_getElem? hget)).2
  unfold runProg Machine.command
  dsimp only
  rw [setVars_noVars hassigns, hcount]
  dsimp only
  rw [if_neg hsemi, Nat.cast_zero, sub_zero, if_neg (not_not.2 rfl)]
  split_ifs <;> rfl

/-- The functions of the shell run commands as they should. -/
theorem runner (m : Machine S) : Runner m.prims (shell m) where
  hadCtrlc _ _ _ := rfl
  insertVarValue _ _ := rfl
  simple argv w res := by
    rintro ⟨hwords, s, hrest, rfl⟩
    refine ⟨1, fun n k _ hk rm ↦ ?_⟩
    obtain ⟨k, rfl⟩ := Nat.exists_eq_add_of_le' hk
    change runPipeReal m n (k + 1) _ w = _
    rw [runPipeReal, hrest]
    exact runProg_noVars hwords
  group g w res := by
    rintro hok ⟨N, hrun⟩
    obtain ⟨s, hrest⟩ := Option.isSome_iff_exists.1 hok
    refine ⟨N + 1, fun n k hn hk rm ↦ ?_⟩
    obtain ⟨k, rfl⟩ := Nat.exists_eq_add_of_le' (show 1 ≤ k by omega)
    change runPipeReal m n (k + 1) _ w = _
    rw [runPipeReal, hrest]
    change runList (shell m n k) n (g.parsed .resNone) w = res
    rw [runList, g.mapM_compound, Option.bind_some, hrun n k (by omega) (by omega)]

end Running

/-! ## `run_command` -/

section Run

variable {ifs : Str} {flag : Flags}

theorem newline_word (hnl : 10 ∈ ifs) {word : Str} (h : Plain ifs flag word) :
    10 ∉ wordText word := by
  have hmap : mapOf ifs flag 10 ≠ 0 := by
    rw [mapOf_ifs hnl (by decide)]
    decide
  rw [wordText, List.mem_append, not_or]
  exact ⟨h.not_mem hmap, by decide⟩

theorem newline_words (hnl : 10 ∈ ifs) {words : List Str} (h : Words ifs flag words) :
    10 ∉ words.flatMap wordText := by
  rw [List.mem_flatMap]
  rintro ⟨word, hword, hmem⟩
  exact newline_word hnl (h.plain word hword) hmem

theorem newline_key : ∀ rm, 10 ∉ keyText rm := by
  intro rm
  cases rm <;> decide

/-- There is no newline in the text of a command. -/
theorem newline_text (hnl : 10 ∈ ifs) : ∀ {k : Kind} (c : Cmd k), c.Wf ifs flag → 10 ∉ c.text
  | _, .simple cmd args, hwf => by
    rw [Cmd.text, List.mem_append, not_or]
    exact ⟨newline_words hnl hwf, by decide⟩
  | _, .seq c d, hwf => by
    rw [Cmd.text, List.mem_append, not_or]
    exact ⟨newline_text hnl c hwf.1, newline_text hnl d hwf.2⟩
  | _, .group g, hwf => by
    rw [Cmd.text, List.mem_append, not_or]
    exact ⟨newline_text hnl g hwf, by decide⟩
  | _, .cond c t e, hwf => by
    simp only [Cmd.text, List.mem_append, not_or]
    exact ⟨newline_key _, newline_text hnl c hwf.1, newline_key _, newline_text hnl t hwf.2.1,
      newline_text hnl e hwf.2.2⟩
  | _, .fi, _ => newline_key _
  | _, .els d, hwf => by
    simp only [Cmd.text, List.mem_append, not_or]
    exact ⟨newline_key _, newline_text hnl d hwf, newline_key _⟩
  | _, .elif c t e, hwf => by
    simp only [Cmd.text, List.mem_append, not_or]
    exact ⟨newline_key _, newline_text hnl c hwf.1, newline_key _, newline_text hnl t hwf.2.1,
      newline_text hnl e hwf.2.2⟩
  | _, .loop _ c b, hwf => by
    simp only [Cmd.text, List.mem_append, not_or]
    exact ⟨newline_key _, newline_text hnl c hwf.1, newline_key _, newline_text hnl b hwf.2,
      newline_key _⟩
  | _, .forIn name words b, hwf => by
    simp only [Cmd.text, List.mem_append, not_or]
    exact ⟨newline_key _, newline_word hnl (hwf.1.plain name List.mem_cons_self), newline_key _,
      newline_words hnl hwf.2.1,
      by decide, newline_key _, newline_text hnl b hwf.2.2, newline_key _⟩
  | _, .turns _ _, hwf => hwf.elim

theorem Cmd.text_ne_nil : ∀ c : Cmd .list, c.text ≠ []
  | .simple _ _ | .group _ => by simp [text]
  | .seq c d => by simp [text, text_ne_nil c]

variable {S : Type} {m : Machine S} {s : S} {w w' : State S} {r : ℤ}

/-- What `run_list_real` does with the pipes of a text is what `run_command` does with the text. -/
theorem runCommand_runListReal {c : Cmd .list} (hrest : w.rest = some s)
    (hifs : Common (m.ifs s) runFlags) (hnl : 10 ∈ m.ifs s)
    (hwf : c.Wf (m.ifs s) runFlags) {n k : ℕ}
    (hrun : runListReal (shell m n k) n (c.pipes .resNone ++ nullPipes Extra 2) w = some (r, w')) :
    runCommand m n k c.text w = some (.inside (if r = -2 then 0 else outerCode r) w') := by
  obtain ⟨st, hparse, hflag, hlist⟩ := parseStream_text hifs hnl rfl c hwf 2
  have htext : outerText c.text ++ [0] = c.text ++ [10, 0] := by
    rw [outerText_line (newline_text hnl c hwf), List.append_assoc]
    rfl
  have hlen : (c.text ++ [10, 0]).length + 1 = 2 + 1 + c.text.length := by
    simp
    omega
  have hmap : (lineList st).mapM toPipe = some (c.pipes .resNone ++ nullPipes Extra 2) := by
    rw [hlist]
    exact mapM_toPipe_append (c.mapM_list .resNone) rfl
  have hcaller : (caller m (shell m n k) n).ifs w = m.ifs s := by
    change (w.rest.map m.ifs).getD [] = m.ifs s
    rw [hrest]
    rfl
  have hlines : (caller m (shell m n k) n).runList (lineList st) w = (r, w') := by
    change runList (shell m n k) n (lineList st) w = _
    rw [runList, hmap, Option.bind_some, hrun]
  rw [runCommand, parseStringOuter, if_neg c.text_ne_nil, htext, outerLoop, hcaller, hlen]
  rw [runFlags] at hparse
  rw [hparse]
  refine (if_pos ⟨by decide, hflag⟩).trans ?_
  rw [hlines]
  dsimp only
  by_cases hexit : r = -2
  · rw [if_pos hexit, if_pos hexit]
    rfl
  · rw [if_neg hexit, if_neg hexit]
    exact if_pos (.inr rfl)

/-- Where the text of commands without variables is given to `run_command`, it does what they mean,
for enough fuel. -/
theorem runCommand_exec {c : Cmd .list} (hrest : w.rest = some s) (hifs : Common (m.ifs s) runFlags)
    (hnl : 10 ∈ m.ifs s) (hwf : c.Wf (m.ifs s) runFlags) (h : Exec m.prims c (0, w) (r, w')) :
    ∃ N, ∀ n k, N ≤ n → N ≤ k →
      runCommand m n k c.text w = some (.inside (if r = -2 then 0 else outerCode r) w') := by
  obtain ⟨N, hrun⟩ := @runListReal_exec _ _ _ _ _ (runner m) (r, w') c w 2 h
  exact ⟨N, fun n k hn hk ↦ runCommand_runListReal hrest hifs hnl hwf (hrun n k hn hk)⟩

/-- A loop is left with the status of the condition that ended it. -/
def Left {T : Type} : {k : Kind} → Cmd k → ℤ × World T → Prop
  | .compound, .loop isUntil _ _, σ => σ.1 = -2 ∨ ¬goesOn isUntil σ.1
  | _, _, _ => True

theorem Exec.left {T : Type} {prims : Prims T} {k : Kind} {cmd : Cmd k} {σ σ' : ℤ × World T}
    (h : Exec prims cmd σ σ') : Left cmd σ' := by
  induction h with
  | loop _ _ _ _ _ _ _ _ ih => exact ih
  | loopEnd _ hend => exact hend
  | loopExit _ _ _ _ hexit => exact .inl hexit
  | _ => trivial

/-- A `while` that comes to an end fails: `run_command` tells success for its text only where the
shell is left. -/
theorem runCommand_while {c b : Cmd .list} (hrest : w.rest = some s)
    (hifs : Common (m.ifs s) runFlags) (hnl : 10 ∈ m.ifs s) (hc : c.Wf (m.ifs s) runFlags)
    (hb : b.Wf (m.ifs s) runFlags) (h : Exec m.prims (.loop false c b) (0, w) (r, w')) :
    ∃ N, ∀ n k, N ≤ n → N ≤ k → ∃ code,
      runCommand m n k (Cmd.group (.loop false c b)).text w = some (.inside code (w'.ranPipe r)) ∧
        (code = 0 ↔ r < -1) := by
  have hgroup : Exec m.prims (.group (.loop false c b)) (0, w) (ran (r, w')) :=
    .group (Option.isSome_iff_exists.2 ⟨s, hrest⟩) h
  have hwf : (Cmd.group (.loop false c b)).Wf (m.ifs s) runFlags := ⟨hc, hb⟩
  obtain ⟨N, hrun⟩ := @runListReal_exec _ _ _ _ _ (runner m) _ _ w 2 hgroup
  refine ⟨N, fun n k hn hk ↦ ⟨_, runCommand_runListReal hrest hifs hnl hwf (hrun n k hn hk), ?_⟩⟩
  have hleft : r = -2 ∨ r ≠ 0 := h.left
  rw [outerCode, outcome]
  split_ifs <;> omega

/-- A number that is counted down: `t` tells whether it is positive, and any other command takes one
from it. -/
def countdown : Machine ℕ where
  ifs _ := usualIfs
  envGet _ _ := none
  getLocalVar _ _ _ := none
  setLocalVar _ s := s
  cmdProcess argv s := if argv = [[116]] then (if s = 0 then 1 else 0, s) else (0, s - 1)

/-- `while t; do d; done`. -/
def whileT : Cmd .list := .group (.loop false (.simple [116] []) (.simple [100] []))

theorem exec_countdown {word : Str} (h : NoVars word) (r : ℤ) (l n : ℕ) :
    Exec countdown.prims (.simple word []) (r, ⟨l, some n⟩)
      (ran ((countdown.command [word] n).1, ⟨l, some (countdown.command [word] n).2⟩)) :=
  .simple ⟨List.forall_mem_singleton.2 h, n, rfl, rfl⟩

theorem exec_loopT : Exec countdown.prims (.loop false (.simple [116] []) (.simple [100] []))
    (0, ⟨0, some 1⟩) (1, ⟨1, some 0⟩) := by
  have ht : NoVars [116] := ⟨by decide, by decide⟩
  have hd : NoVars [100] := ⟨by decide, by decide⟩
  have hcond : Exec countdown.prims (.simple [116] []) (0, ⟨0, some 1⟩) (0, ⟨0, some 1⟩) :=
    exec_countdown ht 0 0 1
  have hbody : Exec countdown.prims (.simple [100] []) (0, ⟨0, some 1⟩) (0, ⟨0, some 0⟩) :=
    exec_countdown hd 0 0 1
  have hend : Exec countdown.prims (.simple [116] []) (0, ⟨0, some 0⟩) (1, ⟨1, some 0⟩) :=
    exec_countdown ht 0 0 0
  exact .loop hcond (by decide) (by decide) hbody (by decide) (.loopEnd hend (.inr (by decide)))

theorem wf_t : (Cmd.simple [116] []).Wf usualIfs runFlags :=
  ⟨by decide, List.forall_mem_singleton.mpr (plain_usualIfs (by simp)),
    fun _ hs ↦ Option.some.inj hs ▸ by decide⟩

theorem wf_d : (Cmd.simple [100] []).Wf usualIfs runFlags :=
  ⟨by decide, List.forall_mem_singleton.mpr (plain_usualIfs (by simp)),
    fun _ hs ↦ Option.some.inj hs ▸ by decide⟩

theorem runCommand_whileT :
    ∃ N, ∀ n k, N ≤ n → N ≤ k → runCommand countdown n k whileT.text ⟨0, some 1⟩ =
    some (.inside (if (1 : ℤ) = -2 then 0 else outerCode 1) ⟨1, some 0⟩) := by
  have hgroup : Exec countdown.prims whileT (0, ⟨0, some 1⟩) (ran (1, ⟨1, some 0⟩)) :=
    .group rfl exec_loopT
  exact runCommand_exec rfl common_usualIfs (by decide) ⟨wf_t, wf_d⟩ hgroup

theorem runCommand_while_t : ∃ N, ∀ n k, N ≤ n → N ≤ k → ∃ code,
    runCommand countdown n k whileT.text ⟨0, some 1⟩ =
    some (.inside code (World.ranPipe 1 ⟨1, some 0⟩)) ∧
      (code = 0 ↔ (1 : ℤ) < -1) :=
  runCommand_while rfl common_usualIfs (by decide) wf_t wf_d exec_loopT

end Run

end MiniPi.Hush
