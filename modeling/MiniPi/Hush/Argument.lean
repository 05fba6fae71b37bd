import MiniPi.Hush.Expand
import MiniPi.Hush.AndOr

/-!
# Quoted variables

What `cmd "${name}"` comes to: the words are written out with the value in single quotes, and the
parser sees the value a second time.
-/

namespace MiniPi.Hush

/-! ## Lists of one command -/

/-- A list with one pipe that is not empty runs that pipe, once. -/
theorem runListReal_single {S G : Type} (sh : Shell S G) {pi : Pipe G}
    {rest : List (Pipe G)} {n : ℕ} (hmode : pi.rMode = .resNone) (hfollowup : pi.followup = .seq)
    (hprogs : pi.progs ≠ []) (hnull : ∀ p ∈ rest, p.progs = [] ∧ p.rMode = .resNone)
    (hfuel : rest.length + 1 < n) (w : World S) :
    ∃ r w', runListReal sh n (pi :: rest) w = some (r, w') ∧
      w'.rest = (sh.runPipeReal pi w).2.rest := by
  have hfor : forSyntax (pi :: rest) = true :=
    forSyntax_of_resNone (List.forall_mem_cons.2 ⟨hmode, fun p hp ↦ (hnull p hp).2⟩)
  have hrun : Running (initVars (pi :: rest)) := ⟨fun hskip ↦ Reserved.noConfusion hskip.1, rfl⟩
  obtain ⟨n, rfl⟩ : ∃ m, n = m + 1 := ⟨n - 1, by omega⟩
  rw [runListReal, if_neg (by rw [hfor]; exact Bool.noConfusion)]
  obtain ⟨v', ⟨hcont, hpipes⟩, hturn⟩ : ∃ v', (Running v' ∧ v'.pipes = pi :: rest) ∧
      turn sh 0 pi (initVars (pi :: rest)) w =
      if (sh.runPipeReal pi w).1 < -1 then
        .ret (-2)
          { (sh.runPipeReal pi w).2 with
            lastReturnCode := (-(sh.runPipeReal pi w).1 - 2).toNat }
      else
        .cont v' { (sh.runPipeReal pi w).2 with
          lastReturnCode := if (sh.runPipeReal pi w).1 = 0 then 0 else 1 } := by
    rw [turn_resNone hmode, if_neg hrun.skip, runTurn, if_neg hprogs]
    refine ⟨_, ⟨⟨?_, rfl⟩, rfl⟩, rfl⟩
    rintro ⟨hskip, -⟩
    simp only [hfollowup, reduceCtorEq, and_false, or_self, if_false] at hskip
  by_cases hexit : (sh.runPipeReal pi w).1 < -1
  · rw [if_pos hexit] at hturn
    exact ⟨_, _, @runLoop_ret G S sh _ w n pi [] rest _ _ rfl hturn, rfl⟩
  · rw [if_neg hexit] at hturn
    have hloop := @runLoop_cont G S sh _ w n pi [] rest _ _ rfl hturn hcont.restore
    exact ⟨_, _, hloop.trans (runLoop_null hcont hpipes hnull (by omega)), rfl⟩

/-! ## Strings with a newline at their end -/

theorem outerText_line {t : Str} (h : 10 ∉ t) : outerText t = t ++ [10] := by
  rw [outerText, if_neg fun hnl ↦ h hnl.1]

theorem outerText_newline {t : Str} (h : 10 ∉ t) : outerText (t ++ [10]) = t ++ [10] := by
  have hall : ∀ c ∈ t, decide (c ≠ 10) = true := fun c hc ↦ decide_eq_true fun heq ↦ h (heq ▸ hc)
  have hdrop : (t ++ [10]).dropWhile (· ≠ 10) = [10] := by
    rw [List.dropWhile_append_of_pos hall]
    rfl
  rw [outerText, if_pos ⟨List.mem_append_right _ (List.mem_singleton_self _), by rw [hdrop]; rfl⟩]

theorem outerLoop_line {W : Type} {sh : Caller W} {flag : Flags} {fuel : ℕ} {temp : OString}
    {input : Str} {code rcode : ℤ} {w : W} {st : Stream} (hexit : flag.exitFromLoop = true)
    (hparse : parseStream (sh.ifs w) flag (input.length + 1) (lineStream flag temp input) =
      some (rcode, st)) (hone : rcode ≠ 1) (hflag : st.ctx.top.oldFlag = []) :
    ∃ c, outerLoop sh flag (fuel + 1) temp input code w =
      some (.inside c (sh.runList (lineList st) w).2) := by
  simp only [outerLoop, hparse, hexit, or_true, if_true]
  rw [if_pos ⟨hone, hflag⟩]
  split_ifs <;> exact ⟨_, rfl⟩

theorem outerLoop_error {W : Type} {sh : Caller W} {flag : Flags} {fuel : ℕ} {temp : OString}
    {input : Str} {code : ℤ} {w : W} {st : Stream} (hexit : flag.exitFromLoop = true)
    (hparse : parseStream (sh.ifs w) flag (input.length + 1) (lineStream flag temp input) =
      some (1, st)) :
    outerLoop sh flag (fuel + 1) temp input code w = some (.inside (outerCode code) w) := by
  simp only [outerLoop, hparse, hexit, or_true, if_true]
  rw [if_neg fun h ↦ h.1 rfl]

/-! ## The first pass -/

/-- `cmd "${name}"`. -/
def varText (cmd name : Str) : Str := cmd ++ 32 :: 34 :: 36 :: 123 :: (name ++ [125, 34])

/-- The flags of `run_command`. -/
def runFlags : Flags := ⟨true, true, false, false⟩

/-- The value of `IFS` has the blank and the newline, and no quotes and no `$`. -/
structure Usual (ifs : Str) : Prop where
  blank : 32 ∈ ifs
  newline : 10 ∈ ifs
  quote : 39 ∉ ifs
  dquote : 34 ∉ ifs
  dollar : 36 ∉ ifs

/-- The name of a variable: none of its characters ends it, or is a backslash or a marker. -/
def VarName (name : Str) : Prop :=
  ∀ c ∈ name, c ∉ ([0, 10, 58, 92, 125, specialVarSymbol] : Str)

variable {ifs : Str} {o : OString} {ctx : Ctx} {fuel : ℕ}

theorem parseChar_dquote {d : UInt8} {p : Str} (flag : Flags) (hifs : 34 ∉ ifs) :
    parseChar ifs flag 34 ⟨o, ctx, d :: p⟩ =
      some (.next ⟨{ o with nonnull := true, quote := !o.quote }, ctx, d :: p⟩) := by
  have hspecial : (34 : UInt8) ∉ ([59, 36, 38, 124] : Str) := by decide
  have hmap : mapOf ifs flag 34 = 3 := by
    rw [mapOf, if_neg (fun h ↦ hspecial h.2), if_neg hifs, if_neg (by decide), if_pos (by decide)]
  simp only [parseChar, staticPeek, hmap, Option.bind_eq_bind, Option.bind_some]
  rfl

theorem parseChar_var {name p : Str} (hifs : 36 ∉ ifs) (hname : VarName name) :
    parseChar ifs runFlags 36 ⟨o, ctx, 123 :: (name ++ 125 :: p)⟩ =
      some (.next ⟨o.addAll (specialVarSymbol :: name ++ [specialVarSymbol]), ctx.incSp, p⟩) := by
  have hmap : mapOf ifs runFlags 36 = 3 := by
    rw [mapOf, if_neg (by decide), if_neg hifs, if_neg (by decide), if_pos (by decide)]
  have hread : getUntil 125 (name ++ 125 :: p) = some (name, true, p) :=
    getUntil_found (fun h ↦ hname 0 h (by decide)) (fun h ↦ hname 125 h (by decide)) (by decide)
  have hdollar : handleDollar ⟨o, ctx, 123 :: (name ++ 125 :: p)⟩ =
      some (.next ⟨o.addAll (specialVarSymbol :: name ++ [specialVarSymbol]), ctx.incSp, p⟩) := by
    simp only [handleDollar, staticPeek, staticGet, Option.bind_eq_bind, Option.bind_some]
    rw [if_neg (by decide), if_neg (by decide)]
    simp only [hread, Option.bind_some, if_true]
  simp only [parseChar, staticPeek, hmap, Option.bind_eq_bind, Option.bind_some]
  exact hdollar

/-- The program for `cmd "${name}"`. -/
def varProg (cmd name : Str) : Prog :=
  .mk [(some cmd, false), (some (specialVarSymbol :: name ++ [specialVarSymbol]), true)] 1 none

/-- The first pass over `cmd "${name}"`. -/
theorem parse_varText {cmd name : Str} (hifs : Usual ifs) (hcmd : Name ifs runFlags cmd)
    (hname : VarName name) :
    ∃ rcode st, parseStream ifs runFlags ((varText cmd name ++ [10] ++ [0]).length + 1)
        (lineStream runFlags nullOString (varText cmd name ++ [10] ++ [0])) = some (rcode, st) ∧
      rcode ≠ 1 ∧ st.ctx.top.oldFlag = [] ∧
      lineList st = single (varProg cmd name) 1 := by
  have hlen : (varText cmd name ++ [10] ++ [0]).length + 1 = name.length + 7 + 1 + 1 +
      cmd.length := by
    simp only [varText, List.length_append, List.length_cons, List.length_nil]
    omega
  have htext : varText cmd name ++ [10] ++ [0] =
      cmd ++ 32 :: 34 :: (36 :: 123 :: (name ++ 125 :: [34, 10, 0])) := by
    simp [varText]
  have hstrip : strip (specialVarSymbol :: name ++ [specialVarSymbol]) =
      some (specialVarSymbol :: name ++ [specialVarSymbol]) := by
    apply strip_plain
    simp only [List.cons_append, List.mem_cons, List.mem_append, List.not_mem_nil, or_false, not_or]
    exact ⟨by decide, fun h ↦ hname 92 h (by decide), by decide⟩
  have hsimple : ((lineCtx runFlags).addWord (some cmd, false)).incSp.Simple
      (specialVarSymbol :: name ++ [specialVarSymbol]) :=
    ⟨rfl, fun h ↦ absurd h (List.cons_ne_nil _ _), rfl⟩
  obtain ⟨rcode, p, hend, hone⟩ := @parseStream_newline ifs runFlags (name.length + 3)
    ⟨specialVarSymbol :: name ++ [specialVarSymbol], true, false⟩ _ hifs.newline rfl hsimple
    fun h ↦ Bool.noConfusion h.2
  have hfirst := parseStream_name (name.length + 8) 34 (36 :: 123 ::
    (name ++ 125 :: [34, 10, 0])) hcmd
    hifs.blank
  have hopen := @parseChar_dquote ifs nullOString ((lineCtx runFlags).addWord (some cmd, false)) 36
    (123 :: (name ++ 125 :: [34, 10, 0])) runFlags hifs.dquote
  have hvar := @parseChar_var ifs ⟨[], true, true⟩
    ((lineCtx runFlags).addWord (some cmd, false)) name
    [34, 10, 0] hifs.dollar hname
  have hclose := @parseChar_dquote ifs ⟨specialVarSymbol :: name ++ [specialVarSymbol], true, true⟩
    ((lineCtx runFlags).addWord (some cmd, false)).incSp 10 [0] runFlags hifs.dquote
  have hrun : parseStream ifs runFlags ((varText cmd name ++ [10] ++ [0]).length + 1)
      (lineStream runFlags nullOString (varText cmd name ++ [10] ++ [0])) =
      some (rcode, ⟨nullOString, (((lineCtx runFlags).addWord (some cmd, false)).incSp.addWord
        (some (specialVarSymbol :: name ++ [specialVarSymbol]), true)).donePipe .seq, p⟩) := by
    rw [hstrip] at hend
    rw [hlen, htext, hfirst, parseStream_next (by decide) hopen]
    exact (parseStream_next (by decide) hvar).trans
      ((parseStream_next (by decide) hclose).trans hend)
  exact ⟨rcode, _, hrun, hone, rfl, rfl⟩

/-! ## The second pass -/

theorem ended_quotedLine {cmd v : Str} (hcmd : 0 ∉ cmd) (hv : 0 ∉ v) :
    Ended (quotedLine cmd v) := by
  have hmem : 0 ∉ cmd ++ 32 :: (39 :: v ++ [39]) := by
    simp only [List.cons_append, List.mem_append, List.mem_cons, List.not_mem_nil, or_false, not_or]
    exact ⟨hcmd, by decide, by decide, hv, by decide⟩
  have hend := ended_text hmem
  rwa [show cmd ++ 32 :: (39 :: v ++ [39]) ++ [10] ++
    [0] = quotedLine cmd v by simp [quotedLine]] at hend

theorem weighWords_eq {words : List (Option Str × Bool)} {argv : List Str}
    (h : words.mapM Prod.fst = some argv) : weighWords words = (argv.map weigh).sum := by
  induction words generalizing argv with
  | nil =>
    cases h
    rfl
  | cons x words ih =>
    rw [List.mapM_cons] at h
    obtain ⟨word, hword, h⟩ := Option.bind_eq_some_iff.1 h
    obtain ⟨rest, hrest, h⟩ := Option.bind_eq_some_iff.1 h
    cases h
    have hsum := ih hrest
    rw [weighWords] at hsum ⊢
    rw [List.map_cons, List.sum_cons, hsum, hword, List.map_cons, List.sum_cons]
    rfl

/-- The list for `cmd 'v'` has one command with the argument `v` exactly when no quote and no
backslash is in `v`; else there is a syntax error, or a command with other arguments. -/
theorem parse_again {cmd v : Str} (hifs : Usual ifs) (hcmd : Name ifs reparseFlags cmd)
    (hv : ∀ c ∈ v, c ≠ 10 ∧ c ≠ 0) :
    ∃ rcode st, parseStream ifs reparseFlags ((quotedLine cmd v).length + 1)
        (lineStream reparseFlags nullOString (quotedLine cmd v)) = some (rcode, st) ∧
      (rcode = 1 ∧ ¬(39 ∉ v ∧ 92 ∉ v) ∨ rcode ≠ 1 ∧ ∃ words, Runs st ((some cmd, false) :: words) ∧
        (words.mapM Prod.fst = some [v] ↔ 39 ∉ v ∧ 92 ∉ v)) := by
  have hnul : 0 ∉ v := fun h ↦ (hv 0 h).2 rfl
  by_cases hquote : 39 ∈ v
  · obtain ⟨u, r, rfl, hu⟩ := List.eq_append_cons_of_mem hquote
    have hended := ended_quotedLine (fun h ↦ (hcmd.plain 0 h).1 rfl) hnul
    obtain ⟨rcode, st, hrun, -⟩ := lineStream_inside ifs reparseFlags nullOString hended
    refine ⟨rcode, st, hrun, ?_⟩
    have hlen : (quotedLine cmd (u ++ 39 :: r)).length + 1 =
        (u ++ 39 :: r).length + 4 + 1 + 1 + cmd.length := by
      simp only [quotedLine, List.length_append, List.length_cons, List.length_nil]
      omega
    have hname := parseStream_name ((u ++ 39 :: r).length + 4 + 1) 39
      (u ++ 39 :: (r ++ [39, 10, 0])) hcmd
      hifs.blank
    have hline : quotedLine cmd (u ++ 39 :: r) = cmd ++ 32 :: 39 ::
        (u ++ 39 :: (r ++ [39, 10, 0])) := by
      simp [quotedLine]
    have hfirst := @parseChar_quote ifs ((lineCtx reparseFlags).addWord (some cmd, false))
      reparseFlags u
      (r ++ [39, 10, 0]) hifs.quote (fun h ↦ hnul (List.mem_append_left _ h)) hu
    have hlost : rcode = 1 ∨ ∃ words, Runs st ((some cmd, false) :: words) ∧
        weighWords words < weigh u + weigh r + 1 := by
      have hunits := units_append_weigh_le [] u
      rw [List.nil_append, units, Nat.zero_add] at hunits
      rw [hlen, hline, hname, parseStream_next (by decide) hfirst] at hrun
      have hrest : ∀ c ∈ r, c ≠ 10 ∧ c ≠ 0 := fun c hc ↦
        hv c (List.mem_append_right _ (List.mem_cons_of_mem _ hc))
      obtain hone | ⟨words, hruns, hlt⟩ :=
        @parseStream_lost ifs (some cmd, false) [] _ ⟨u, true, false⟩ r rcode st hifs.quote
          hrest rfl hrun
      · exact .inl hone
      · have hnone : weighWords [] = 0 := rfl
        change weighWords words < weighWords [] + units u + weigh r + 1 at hlt
        exact .inr ⟨words, hruns, by omega⟩
    by_cases hone : rcode = 1
    · exact .inl ⟨hone, fun h ↦ h.1 hquote⟩
    · obtain ⟨words, hruns, hlt⟩ := hlost.resolve_left hone
      refine .inr ⟨hone, words, hruns, iff_of_false ?_ fun h ↦ h.1 hquote⟩
      intro hwords
      have hsum := weighWords_eq hwords
      simp only [List.map_cons, List.map_nil, List.sum_cons, List.sum_nil, weigh_append,
        weigh_cons] at hsum
      have hweight : weight 39 = 1 := rfl
      omega
  · obtain ⟨rcode, st, hrun, hone, hdest, hctx⟩ :=
      parse_quotedLine hcmd hifs.blank hifs.newline hifs.quote hnul hquote
    refine ⟨rcode, st, hrun, .inr ⟨hone, [(strip v, true)], ?_, ?_⟩⟩
    · obtain ⟨dest, ctx, p⟩ := st
      dsimp only at hdest hctx
      subst hdest hctx
      exact @runs_newline (some cmd, false) [(strip v, true)] nullOString p rfl rfl
    · rw [and_iff_right hquote, ← strip_eq_self_iff]
      cases strip v with
      | none => simp
      | some t => simp

/-! ## Running the commands -/

section Running

variable {T : Type} (m : Machine T) {fuel depth lastReturnCode : ℕ} {s : T}

/-- `run_list` for one program with words. -/
theorem runList_single {words : List (Option Str × Bool)} {sp n : ℕ} (hn : n ≤ 1) (hfuel : 4 ≤ fuel)
    (hwords : words ≠ []) :
    (runList (shell m fuel (depth + 1)) fuel (single (.mk words sp none) n)
        ⟨lastReturnCode, some s⟩).2.rest =
      (words.mapM Prod.fst).bind fun argv ↦
        (runProg m (shell m fuel depth) fuel argv ⟨sp, words.map Prod.snd, none⟩ s
          ⟨lastReturnCode, some s⟩).2.rest := by
  have hnull : (List.replicate n (([], .seq, .resNone) : ProgPipe) ++
      [(([], .invalid, .resNone) : ProgPipe)]).mapM toPipe = some (nullPipes Extra n) := by
    obtain rfl | rfl : n = 0 ∨ n = 1 := by omega
    · rfl
    · rfl
  have hpipes : (single (.mk words sp none) n).mapM toPipe =
      (toPipe ([.mk words sp none], .seq, .resNone)).bind fun pi ↦
        some (pi :: nullPipes Extra n) := by
    rw [single, List.mapM_cons, hnull]
    rfl
  have htoPipe : toPipe ([.mk words sp none], .seq, .resNone) =
      (words.mapM Prod.fst).map fun argv ↦
        ⟨[⟨if argv = [] then none else some argv, some ⟨sp, words.map Prod.snd, none⟩⟩], .seq,
          .resNone⟩ := by
    simp only [toPipe, List.mapM_cons, List.mapM_nil, Prog.toChild, Prog.words, Prog.sp, Prog.group]
    cases words.mapM Prod.fst <;> rfl
  rw [runList, hpipes, htoPipe]
  cases hargv : words.mapM Prod.fst with
  | none => rfl
  | some argv =>
    have hne : argv ≠ [] := by
      rintro rfl
      obtain ⟨x, rest, rfl⟩ := List.exists_cons_of_ne_nil hwords
      rw [List.mapM_cons] at hargv
      obtain ⟨word, -, hargv⟩ := Option.bind_eq_some_iff.1 hargv
      obtain ⟨words, -, hargv⟩ := Option.bind_eq_some_iff.1 hargv
      cases hargv
    rw [Option.map_some, Option.bind_some, if_neg hne]
    have hlen : (nullPipes Extra n).length + 1 < fuel := by
      rw [nullPipes, List.length_append, List.length_replicate, List.length_singleton]
      omega
    obtain ⟨r, w', hrun, hrest⟩ := @runListReal_single _ _ (shell m fuel (depth + 1))
      ⟨[⟨some argv, some ⟨sp, words.map Prod.snd, none⟩⟩], .seq, .resNone⟩
        (nullPipes Extra n) fuel rfl rfl
      (List.cons_ne_nil _ _) nullPipes_spec hlen ⟨lastReturnCode, some s⟩
    rw [Option.bind_some, hrun]
    exact hrest

theorem takeWhile_isAssignment {cmd : Str} (h : isAssignment cmd = false) (args : List Str) :
    (cmd :: args).takeWhile isAssignment = [] := by
  rw [List.takeWhile_cons, h]
  rfl

/-- A simple command is called. -/
theorem runProg_command {sh : Shell (Option T) Extra} {cmd : Str} {args : List Str}
    {nonnull : List Bool} {w : State T} (hassign : isAssignment cmd = false) (hsemi : 59 ∉ cmd) :
    runProg m sh fuel (cmd :: args) ⟨0, nonnull, none⟩ s w =
      ((m.cmdProcess (cmd :: args) s).1,
        { w with rest := some (m.cmdProcess (cmd :: args) s).2 }) := by
  have htake := takeWhile_isAssignment hassign args
  unfold runProg
  simp only [htake, setVars]
  simp [hsemi]

theorem lookupParam_plain {name v : Str} (hname : 58 ∉ name)
    (hvalue : m.value s lastReturnCode name = some v) :
    lookupParam m lastReturnCode name s = (if v = [] then none else some v, s) := by
  have hall : ∀ c ∈ name, decide (c ≠ 58) = true := fun c hc ↦ decide_eq_true fun h ↦ hname (h ▸ hc)
  have htake : name.takeWhile (· ≠ 58) = name := List.takeWhile_eq_self_iff.2 hall
  have hdrop : name.dropWhile (· ≠ 58) = [] := List.dropWhile_eq_nil_iff.2 hall
  unfold lookupParam
  simp only [htake, hdrop, hvalue, List.drop_nil, List.head?_nil]
  by_cases hv : v = []
  · simp [hv]
  · simp [hv]

theorem insertVarValueSub_var {name v : Str} (hname : VarName name)
    (hvalue : m.value s lastReturnCode name = some v) (hv : 10 ∉ v) :
    insertVarValueSub m lastReturnCode false (specialVarSymbol :: name ++ [specialVarSymbol]) s =
      some (v, s) := by
  have hall : ∀ c ∈ name, decide (c ≠ specialVarSymbol) = true := by
    intro c hc
    apply decide_eq_true
    rintro rfl
    exact hname _ hc (by decide)
  have htake : (name ++ [specialVarSymbol]).takeWhile (· ≠ specialVarSymbol) = name := by
    rw [List.takeWhile_append_of_pos hall]
    simp
  have hdrop : (name ++ [specialVarSymbol]).dropWhile (· ≠ specialVarSymbol) =
      [specialVarSymbol] := by
    rw [List.dropWhile_append_of_pos hall]
    simp
  have hlookup := lookupParam_plain m (fun h ↦ hname 58 h (by decide)) hvalue
  have hmap : v.map (fun c ↦ if c = 10 then 32 else c) = v := by
    refine (List.map_congr_left fun c hc ↦ ?_).trans (List.map_id v)
    have hc' : c ≠ 10 := by
      rintro rfl
      exact hv hc
    exact if_neg hc'
  have hloop : insertLoop m lastReturnCode false
      ((specialVarSymbol :: name ++ [specialVarSymbol]).length + 1)
      (specialVarSymbol :: name ++ [specialVarSymbol]) s = some (v, s) := by
    have hfirst : (specialVarSymbol :: name ++ [specialVarSymbol]).dropWhile
      (· ≠ specialVarSymbol) =
        specialVarSymbol :: (name ++ [specialVarSymbol]) := List.dropWhile_cons_of_neg (by decide)
    have hnone : (specialVarSymbol :: name ++ [specialVarSymbol]).takeWhile (· ≠ specialVarSymbol) =
      [] :=
      List.takeWhile_cons_of_neg (by decide)
    have hend (k : ℕ) : insertLoop m lastReturnCode false (k + 1) [] s = some ([], s) := rfl
    rw [List.length_append, List.length_singleton, insertLoop, hfirst]
    dsimp only
    rw [hdrop]
    dsimp only
    rw [htake, hlookup, hnone, hend]
    by_cases hempty : v = []
    · simp [hempty]
    · simp [hempty]
  rw [insertVarValueSub, if_pos (List.mem_append_right _ (List.mem_singleton_self _)), hloop,
    Option.map_some, hmap]

/-- The words of `cmd "${name}"` are written out. -/
theorem makeString_var {cmd name v : Str} (hcmd : specialVarSymbol ∉ cmd) (hname : VarName name)
    (hvalue : m.value s lastReturnCode name = some v) (hv : 10 ∉ v)
    (hnoeval : noeval m lastReturnCode s = false) :
    makeString m lastReturnCode
        [(cmd, false), (specialVarSymbol :: name ++ [specialVarSymbol], true)] s =
      some (cmd ++ 32 :: (39 :: v ++ [39]) ++ [10], s) := by
  have hplain : insertVarValueSub m lastReturnCode false cmd s = some (cmd, s) := by
    rw [insertVarValueSub, if_neg hcmd]
  have hvar := insertVarValueSub_var m hname hvalue hv
  rw [makeString, hnoeval]
  simp only [makeWords, hplain, hvar, Option.bind_eq_bind, Option.bind_some, Option.map_some]
  simp [List.intercalate]

/-- The string that is parsed again leaves the state as it is, or is a command with other arguments,
but for a value without quotes and backslashes. -/
theorem parseString_again {cmd v : Str} (hifs : Usual (m.ifs s))
    (hcmd : Name (m.ifs s) reparseFlags cmd) (hassign : isAssignment cmd = false) (hsemi : 59 ∉ cmd)
    (hv : ∀ c ∈ v, c ≠ 10 ∧ c ≠ 0) (hfuel : 4 ≤ fuel) :
    ∃ c w, parseStringOuter (caller m (shell m fuel (depth + 1)) fuel)
        (cmd ++ 32 :: (39 :: v ++ [39]) ++ [10]) reparseFlags ⟨lastReturnCode, some s⟩ =
        some (.inside c w) ∧
      (¬(39 ∉ v ∧ 92 ∉ v) ∧ w.rest = some s ∨
        ∃ words : List (Option Str × Bool), (words.mapM Prod.fst = some [v] ↔ 39 ∉ v ∧ 92 ∉ v) ∧
          w.rest = (words.mapM Prod.fst).map fun args ↦ (m.cmdProcess (cmd :: args) s).2) := by
  have hline : outerText (cmd ++ 32 :: (39 :: v ++ [39]) ++ [10]) ++ [0] = quotedLine cmd v := by
    rw [outerText_newline]
    · simp [quotedLine]
    · have hnl : 10 ∉ cmd := hcmd.plain.not_mem (by rw [mapOf_ifs hifs.newline (by decide)]; decide)
      simp only [List.cons_append, List.mem_append, List.mem_cons, List.not_mem_nil,
        or_false, not_or]
      exact ⟨hnl, by decide, by decide, fun h ↦ (hv 10 h).1 rfl, by decide⟩
  obtain ⟨rcode, st, hparse, hcase⟩ := parse_again hifs hcmd hv
  rw [parseStringOuter, if_neg (by simp), hline]
  obtain ⟨rfl, hnot⟩ | ⟨hone, words, ⟨hflag, n, hn, hlist⟩, hwords⟩ := hcase
  · exact ⟨outerCode 1, ⟨lastReturnCode, some s⟩, outerLoop_error rfl hparse, .inl ⟨hnot, rfl⟩⟩
  · obtain ⟨c, hrun⟩ :=
      @outerLoop_line (State T) (caller m (shell m fuel (depth + 1)) fuel) reparseFlags
        ((cmd ++ 32 :: (39 :: v ++ [39]) ++ [10]).length + 2) nullOString (quotedLine cmd v) 1 rcode
      ⟨lastReturnCode, some s⟩ st rfl hparse hone hflag
    refine ⟨c, _, hrun, .inr ⟨words, hwords, ?_⟩⟩
    rw [hlist]
    refine (runList_single m hn hfuel (List.cons_ne_nil _ _)).trans ?_
    rw [List.mapM_cons]
    cases words.mapM Prod.fst with
    | none => rfl
    | some args =>
      have hcall := @runProg_command T m fuel s (shell m fuel depth) cmd args
        (((some cmd, false) :: words).map Prod.snd) ⟨lastReturnCode, some s⟩ hassign hsemi
      exact congrArg (fun r ↦ r.2.rest) hcall

/-- A command with a variable is parsed again. -/
theorem runProg_var {sh : Shell (Option T) Extra} {cmd name v : Str}
    (hassign : isAssignment cmd = false) (hmake : makeString m lastReturnCode
      [(cmd, false), (specialVarSymbol :: name ++ [specialVarSymbol], true)] s =
      some (cmd ++ 32 :: (39 :: v ++ [39]) ++ [10], s)) {c : ℤ} {w : State T}
    (hagain : parseStringOuter (caller m sh fuel) (cmd ++ 32 :: (39 :: v ++ [39]) ++
      [10]) reparseFlags
      ⟨lastReturnCode, some s⟩ = some (.inside c w)) :
    runProg m sh fuel [cmd, specialVarSymbol :: name ++ [specialVarSymbol]] ⟨1,
      [false, true], none⟩ s
      ⟨lastReturnCode, some s⟩ = ((w.lastReturnCode : ℤ), w) := by
  have htake := takeWhile_isAssignment hassign [specialVarSymbol :: name ++ [specialVarSymbol]]
  unfold runProg
  simp only [htake, setVars, List.length_nil, List.drop_zero, List.zip_cons_cons, List.zip_nil_left]
  rw [if_neg fun h ↦ h.1 rfl, if_pos (by decide), hmake]
  dsimp only
  rw [hagain]

/-- The string for `cmd "${name}"` comes to what the string with the value comes to. -/
theorem runCommand_var {cmd name v : Str} (hifs : Usual (m.ifs s))
    (hcmd : Name (m.ifs s) runFlags cmd) (hassign : isAssignment cmd = false)
    (hmark : specialVarSymbol ∉ cmd) (hname : VarName name)
    (hvalue : m.value s lastReturnCode name = some v) (hv : 10 ∉ v)
    (hnoeval : noeval m lastReturnCode s = false)
    (hfuel : 4 ≤ fuel) {c : ℤ} {w : State T}
    (hagain : parseStringOuter (caller m (shell m fuel depth) fuel)
      (cmd ++ 32 :: (39 :: v ++ [39]) ++ [10]) reparseFlags ⟨lastReturnCode, some s⟩ =
      some (.inside c w)) :
    ∃ c' w', runCommand m fuel (depth + 1) (varText cmd name) ⟨lastReturnCode, some s⟩ =
      some (.inside c' w') ∧ w'.rest = w.rest := by
  obtain ⟨rcode, st, hparse, hone, hflag, hlist⟩ := parse_varText hifs hcmd hname
  have hnl : 10 ∉ varText cmd name := by
    have hnl : 10 ∉ cmd := hcmd.plain.not_mem (by rw [mapOf_ifs hifs.newline (by decide)]; decide)
    simp only [varText, List.mem_append, List.mem_cons, List.not_mem_nil, or_false, not_or]
    exact ⟨hnl, by decide, by decide, by decide, by decide, fun h ↦ hname 10 h (by decide),
      by decide, by decide⟩
  obtain ⟨c', hrun⟩ := @outerLoop_line (State T) (caller m (shell m fuel (depth + 1)) fuel) runFlags
    ((varText cmd name).length + 2) nullOString (varText cmd name ++ [10] ++ [0]) 1 rcode
    ⟨lastReturnCode, some s⟩ st rfl hparse hone hflag
  have hcommand : runCommand m fuel (depth + 1) (varText cmd name) ⟨lastReturnCode, some s⟩ =
      some (.inside c' (runList (shell m fuel (depth + 1)) fuel (lineList st) ⟨lastReturnCode,
      some s⟩).2) := by
    rw [runCommand, parseStringOuter, if_neg (by simp [varText]), outerText_line hnl]
    exact hrun
  refine ⟨c', _, hcommand, ?_⟩
  rw [hlist]
  refine (runList_single m le_rfl hfuel (List.cons_ne_nil _ _)).trans ?_
  have hprog := @runProg_var T m fuel lastReturnCode s (shell m fuel depth) cmd name v hassign
    (makeString_var m hmark hname hvalue hv hnoeval) c w hagain
  exact congrArg (fun r : ℤ × State T ↦ r.2.rest) hprog

end Running

/-! ## One argument -/

variable {S : Type}

/-- A machine with a record of the commands that are called. -/
def Machine.record (m : Machine S) : Machine (S × List (List Str)) where
  ifs s := m.ifs s.1
  envGet s := m.envGet s.1
  getLocalVar s := m.getLocalVar s.1
  setLocalVar str s := (m.setLocalVar str s.1, s.2)
  cmdProcess argv s := ((m.cmdProcess argv s.1).1, (m.cmdProcess argv s.1).2, s.2 ++ [argv])

/-- The run of `cmd "${name}"` calls one command, with one argument, which is `v`. -/
def CallsOnce (m : Machine S) (fuel depth : ℕ) (cmd name v : Str) (lastReturnCode : ℕ) (s : S) :
    Prop :=
  ∃ c w, runCommand m.record fuel depth (varText cmd name) ⟨lastReturnCode, some (s, [])⟩ =
    some (.inside c w) ∧ w.rest.map Prod.snd = some [[cmd, v]]

theorem Name.again {cmd : Str} (h : Name ifs runFlags cmd) : Name ifs reparseFlags cmd := by
  refine ⟨h.ne_nil, fun c hc ↦ ⟨(h.plain c hc).1, ?_⟩, h.reserved⟩
  have hmap := (h.plain c hc).2
  unfold mapOf at hmap ⊢
  rw [if_neg (fun h ↦ Bool.noConfusion (h.1.resolve_left Bool.noConfusion))] at hmap
  by_cases hspecial : (reparseFlags.parseSemicolon = false ∨ reparseFlags.reparsing = true) ∧
      c ∈ ([59, 36, 38, 124] : Str)
  · rw [if_pos hspecial]
  · rw [if_neg hspecial]
    exact hmap

theorem Name.notMem_semicolon {cmd : Str} (h : Name ifs runFlags cmd) : 59 ∉ cmd := by
  apply h.plain.not_mem
  rw [mapOf, if_neg (by decide)]
  by_cases hifs : 59 ∈ ifs
  · rw [if_pos hifs]
    decide
  · rw [if_neg hifs, if_pos (by decide)]
    decide

/-- A quoted variable is one argument, and the right one, exactly when neither a single quote nor a
backslash is in its value. -/
theorem callsOnce_iff (m : Machine S) {fuel depth lastReturnCode : ℕ} {s : S} {cmd name v : Str}
    (hfuel : 4 ≤ fuel) (hdepth : 2 ≤ depth) (hifs : Usual (m.ifs s))
    (hcmd : Name (m.ifs s) runFlags cmd) (hassign : isAssignment cmd = false)
    (hmark : specialVarSymbol ∉ cmd) (hname : VarName name)
    (hvalue : m.value s lastReturnCode name = some v) (hv : ∀ c ∈ v, c ≠ 10 ∧ c ≠ 0)
    (hnoeval : noeval m lastReturnCode s = false) :
    CallsOnce m fuel depth cmd name v lastReturnCode s ↔ 39 ∉ v ∧ 92 ∉ v := by
  obtain ⟨depth, rfl⟩ : ∃ d, depth = d + 2 := ⟨depth - 2, by omega⟩
  obtain ⟨c, w, hagain, hcase⟩ :=
    @parseString_again _ m.record fuel depth lastReturnCode (s, []) cmd v hifs hcmd.again hassign
      hcmd.notMem_semicolon hv hfuel
  obtain ⟨c', w', hrun, hrest⟩ := @runCommand_var _ m.record fuel (depth + 1) lastReturnCode
    (s, []) cmd name v hifs hcmd hassign hmark hname hvalue
    (fun h ↦ (hv 10 h).1 rfl) hnoeval hfuel c w hagain
  have hcalls : CallsOnce m fuel (depth + 2) cmd name v lastReturnCode s ↔
      w.rest.map Prod.snd = some [[cmd, v]] := by
    rw [← hrest]
    constructor
    · rintro ⟨c'', w'', hrun', hcall⟩
      rw [hrun] at hrun'
      cases hrun'
      exact hcall
    · intro hcall
      exact ⟨c', w', hrun, hcall⟩
  rw [hcalls]
  obtain ⟨hnot, hsame⟩ | ⟨words, hwords, hcalled⟩ := hcase
  · rw [hsame]
    exact iff_of_false (by simp) hnot
  · rw [hcalled, ← hwords]
    cases words.mapM Prod.fst with
    | none => simp
    | some args => simp [Machine.record]

/-- A machine whose only variable is `v`. -/
def oneVariable (v : Str) : Machine Unit where
  ifs _ := defaultIfs
  envGet _ name := if name = [118] then some v else none
  getLocalVar _ _ _ := none
  setLocalVar _ s := s
  cmdProcess _ s := (0, s)

/-- `echo "${v}"` with the value `a b`. -/
theorem callsOnce_iff_echo :
    CallsOnce (oneVariable [97, 32, 98]) 4 2 [101, 99, 104, 111] [118] [97, 32, 98] 0 () ↔
      39 ∉ ([97, 32, 98] : Str) ∧ 92 ∉ ([97, 32, 98] : Str) :=
  callsOnce_iff (oneVariable [97, 32, 98]) (by decide) (by decide)
    ⟨by decide, by decide, by decide, by decide, by decide⟩ (name_echo runFlags) (by decide)
    (by decide) (by unfold VarName; decide +kernel) rfl (by decide +kernel) rfl

/-- With a quote as its value, `echo "${v}"` calls nothing. -/
theorem not_callsOnce :
    ¬ ∀ v : Str, (∀ c ∈ v, c ∉ ([0, 10, specialVarSymbol, substedVarSymbol] : Str)) →
      CallsOnce (oneVariable v) 4 2 [101, 99, 104, 111] [118] v 0 () := by
  intro h
  obtain ⟨c, w, hrun, hcalls⟩ := h [39] (by decide +kernel)
  have hnothing : runCommand (oneVariable [39]).record 4 2 (varText [101, 99, 104, 111] [118])
      ⟨0, some ((), [])⟩ = some (.inside 0 ⟨0, some ((), [])⟩) := rfl
  rw [hnothing] at hrun
  cases hrun
  exact absurd hcalls (by decide)

end MiniPi.Hush
