import MiniPi.Hush.AndOr
import MiniPi.Hush.Compound

/-!
# Compound commands run as they should

Where a command has a meaning, `run_list_real` comes to the same status and state, if it has enough
fuel.
-/

namespace MiniPi.Hush

variable {S G : Type} [Label G]

/-! ## Modes -/

theorem Cmd.pipes_spec {rm : Reserved} : ∀ c : Cmd .list,
    (∀ pi ∈ (c.pipes rm : List (Pipe G)), pi.rMode = rm ∧ pi.followup = .seq) ∧
    (c.pipes rm : List (Pipe G)) ≠ []
  | .simple _ _ => by simp [pipes]
  | .group _ => by simp [pipes]
  | .seq c d => by
    obtain ⟨hc, hne⟩ := @Cmd.pipes_spec rm c
    refine ⟨fun pi hpi ↦ ?_, by simp [pipes, hne]⟩
    rw [pipes] at hpi
    obtain hpi | hpi := List.mem_append.1 hpi
    · exact hc pi hpi
    · exact d.pipes_spec.1 pi hpi

/-- A pipe that the check for `for` is not interested in. -/
def NotFor (pi : Pipe G) : Prop := pi.rMode ≠ .resIn ∧ pi.rMode ≠ .resFor

omit [Label G] in
theorem forSyntax_notFor {pipes : List (Pipe G)} (h : ∀ pi ∈ pipes, NotFor pi) :
    forSyntax pipes = true := by
  induction pipes with
  | nil => rfl
  | cons pi pipes ih =>
      obtain ⟨hpi, hpipes⟩ := List.forall_mem_cons.1 h
      cases pipes with
      | nil => simp [forSyntax, hpi.1, hpi.2]
      | cons qi pipes => simp [forSyntax, hpi.1, hpi.2, ih hpipes]

theorem notFor_pipes {rm : Reserved} (hrm : rm ≠ .resIn ∧ rm ≠ .resFor) (c : Cmd .list) :
    ∀ pi ∈ (c.pipes rm : List (Pipe G)), NotFor pi := by
  intro pi hpi
  rw [NotFor, (c.pipes_spec.1 pi hpi).1]
  exact hrm

omit [Label G] in
theorem notFor_closing {rm : Reserved} (hrm : rm ≠ .resIn ∧ rm ≠ .resFor) :
    ∀ pi ∈ (closing rm : List (Pipe G)), NotFor pi := by
  intro pi hpi
  obtain rfl | hpi := List.mem_cons.1 hpi
  · exact hrm
  · obtain rfl := List.mem_singleton.1 hpi
    exact ⟨by simp, by simp⟩

theorem notFor_tailPipes : ∀ e : Cmd .tail, ∀ pi ∈ (e.tailPipes : List (Pipe G)), NotFor pi
  | .fi => by
    rw [Cmd.tailPipes]
    exact notFor_closing (by decide)
  | .els d => by
    rw [Cmd.tailPipes]
    exact List.forall_mem_append.2 ⟨notFor_pipes (by decide) d, notFor_closing (by decide)⟩
  | .elif c t e => by
    rw [Cmd.tailPipes]
    exact List.forall_mem_append.2 ⟨notFor_pipes (by decide) c,
      List.forall_mem_append.2 ⟨notFor_pipes (by decide) t, notFor_tailPipes e⟩⟩

theorem forSyntax_groupPipes : ∀ g : Cmd .compound, forSyntax (g.groupPipes : List (Pipe G)) = true
  | .cond c t e => forSyntax_notFor (List.forall_mem_append.2 ⟨notFor_pipes (by decide) c,
      List.forall_mem_append.2 ⟨notFor_pipes (by decide) t, notFor_tailPipes e⟩⟩)
  | .loop isUntil c b => forSyntax_notFor (List.forall_mem_append.2
      ⟨notFor_pipes (by cases isUntil <;> decide) c,
        List.forall_mem_append.2 ⟨notFor_pipes (by decide) b, notFor_closing (by decide)⟩⟩)
  | .forIn name words b => by
    have hnot : ∀ pi ∈ (b.pipes .resDo ++ closing .resDone : List (Pipe G)), NotFor pi :=
      List.forall_mem_append.2 ⟨notFor_pipes (by decide) b, notFor_closing (by decide)⟩
    have hsyntax := forSyntax_notFor hnot
    obtain ⟨pi, rest, hcons⟩ := List.exists_cons_of_ne_nil
      (show (b.pipes .resDo ++ closing .resDone : List (Pipe G)) ≠ [] by simp [closing])
    rw [hcons] at hsyntax hnot
    have hpi := (hnot pi List.mem_cons_self).1
    rw [Cmd.groupPipes, hcons]
    simp [forSyntax, forPipe, inPipe, hpi, hsyntax]

/-! ## The simulation -/

section Simulation

variable (sh : ℕ → ℕ → Shell S G)

/-- The loop comes to an end, for enough fuel: in the shell, and behind all variables that are
ready. -/
def Ends (ready : List (Pipe G) → Vars G → Prop) (σ σ' : ℤ × World S) : Prop :=
  ∃ N K, ∀ n k, N ≤ n → N ≤ k → ∀ f pre v, ready pre v → v.skipMoreInThisRmode = .resXxxx →
    runLoop (sh n k) (f + K) (some pre.length) v σ.2 = some σ'

/-- What the loop does for a command. -/
def Sim : {k : Kind} → Cmd k → ℤ × World S → ℤ × World S → Prop
  | .list, c, σ, σ' => ∃ N, ∀ n k, N ≤ n → N ≤ k → ∀ rm, Segment (sh n k) rm (c.pipes rm) σ σ'
  | .tail, e, σ, σ' =>
    Ends sh (fun pre v ↦ v.pipes = pre ++ e.tailPipes ∧ v.flagRestore = false ∧ v.ifCode ≠ 0 ∧
      v.nextIfCode ≠ 0 ∧ v.rcode = σ.1) σ σ'
  | .compound, .cond c t e, σ, σ' => ∀ rm, rm = .resIf ∨ rm = .resElif →
    Ends sh (fun pre v ↦ v.pipes = pre ++ (c.pipes rm ++ (t.pipes .resThen ++ e.tailPipes)) ∧
      v.flagRestore = false ∧ Enters rm v) σ σ'
  | .compound, .loop isUntil c b, σ, σ' =>
    Ends sh (fun pre v ↦ pre = [] ∧ v.pipes = (Cmd.loop isUntil c b).groupPipes ∧
      (v.rpipe = none ∨ v.rpipe = some 0)) σ σ'
  | .compound, .forIn name words b, σ, σ' =>
    Ends sh (fun pre v ↦ pre = [] ∧ v.pipes = (Cmd.forIn name words b).groupPipes ∧
      v.rpipe = none ∧ v.list = none ∧ v.rcode = σ.1) σ σ'
  | .turns, .turns values b, σ, σ' =>
    Ends sh (fun pre v ↦ pre = [] ∧ (∃ name words, v.pipes = (Cmd.forIn name words b).groupPipes) ∧
      v.rpipe = some 0 ∧ v.flagRep = true ∧ v.list = some values ∧ v.rcode = σ.1) σ σ'

end Simulation

section Rules

variable {prims : Prims S} {sh : ℕ → ℕ → Shell S G} (hsh : Runner prims sh)
  {σ σ₁ σ₂ σ₃ : ℤ × World S} {c d t b : Cmd .list} {e : Cmd .tail}

include hsh in
theorem sim_simple {cmd : Str} {args : List Str} {res : ℤ × World S}
    (hexec : prims.Exec (cmd :: args) σ.2 res) :
    Sim sh (.simple cmd args) σ (ran res) := by
  obtain ⟨N, hrun⟩ := hsh.simple (cmd :: args) σ.2 res hexec
  refine ⟨N, fun n k hn hk rm ↦ ?_⟩
  rw [Cmd.pipes]
  exact Segment.single (hsh.hadCtrlc n k) (hrun n k hn hk rm)

/-- A compound command is run on its own. -/
theorem Ends.runListReal {g : Cmd .compound} {w : World S} {ready : List (Pipe G) → Vars G → Prop}
    (h : Ends sh ready (0, w) σ) (hready : ready [] (initVars g.groupPipes)) :
    ∃ N, ∀ n k, N ≤ n → N ≤ k → Hush.runListReal (sh n k) n g.groupPipes w = some σ := by
  obtain ⟨N, K, h⟩ := h
  refine ⟨max N K, fun n k hn hk ↦ ?_⟩
  have hend := h n k (by omega) (by omega) (n - K) [] (initVars g.groupPipes) hready rfl
  rw [Nat.sub_add_cancel (by omega)] at hend
  rw [Hush.runListReal, forSyntax_groupPipes, if_neg (by decide)]
  exact hend

theorem Sim.runListReal : ∀ {g : Cmd .compound} {w : World S}, Sim sh g (0, w) σ →
    ∃ N, ∀ n k, N ≤ n → N ≤ k → Hush.runListReal (sh n k) n g.groupPipes w = some σ
  | .cond _ _ _, _, h => (h .resIf (.inl rfl)).runListReal ⟨rfl, rfl, trivial⟩
  | .loop _ _ _, _, h => Ends.runListReal h ⟨rfl, rfl, .inl rfl⟩
  | .forIn _ _ _, _, h => Ends.runListReal h ⟨rfl, rfl, rfl, rfl, rfl⟩

include hsh in
theorem sim_group {g : Cmd .compound} (hok : prims.Ok σ.2) (h : Sim sh g (0, σ.2) σ₁) :
    Sim sh (.group g) σ (ran σ₁) := by
  obtain ⟨N, hrun⟩ := hsh.group g σ.2 σ₁ hok h.runListReal
  refine ⟨N, fun n k hn hk rm ↦ ?_⟩
  rw [Cmd.pipes]
  exact Segment.single (hsh.hadCtrlc n k) (hrun n k hn hk rm)

theorem sim_seq (h : Sim sh c σ σ₁) (hne : σ₁.1 ≠ -2) (h' : Sim sh d σ₁ σ₂) :
    Sim sh (.seq c d) σ σ₂ := by
  obtain ⟨N, h⟩ := h
  obtain ⟨N', h'⟩ := h'
  refine ⟨max N N', fun n k hn hk rm ↦ ?_⟩
  rw [Cmd.pipes]
  exact (h n k (by omega) (by omega) rm).append hne (h' n k (by omega) (by omega) rm)

theorem sim_seqExit (h : Sim sh c σ σ₁) (hexit : σ₁.1 = -2) : Sim sh (.seq c d) σ σ₁ := by
  obtain ⟨N, h⟩ := h
  refine ⟨N, fun n k hn hk rm ↦ ?_⟩
  rw [Cmd.pipes]
  exact (h n k hn hk rm).append_exit hexit

/-! ### Branches -/

/-- Once a branch was taken, the rest is passed. -/
theorem runLoop_tail {sh : Shell S G} {v : Vars G} {w : World S}
    {pre : List (Pipe G)} {f : ℕ} (hpipes : v.pipes = pre ++ e.tailPipes)
    (hskip : v.skipMoreInThisRmode = .resXxxx) (hrestore : v.flagRestore = false)
    (hif : v.ifCode = 0) (hnext : v.nextIfCode = 0) :
    runLoop sh (f + ((e.tailPipes : List (Pipe G)).length + 1)) (some pre.length) v w =
      some (v.rcode, w) := by
  cases e with
  | fi =>
      rw [Cmd.tailPipes] at hpipes ⊢
      exact runLoop_fi hpipes hskip hrestore
  | els d =>
      rw [Cmd.tailPipes] at hpipes ⊢
      have hfuel : f + ((d.pipes .resElse ++ closing .resFi : List (Pipe G)).length + 1) =
          f + 3 + (d.pipes .resElse : List (Pipe G)).length := by
        simp [closing]
        omega
      obtain ⟨hmode, hne⟩ := @Cmd.pipes_spec G _ .resElse d
      rw [hfuel, runLoop_passes hmode hne hpipes hskip hrestore hnext]
      exact runLoop_fi (hpipes.trans (List.append_assoc _ _ _).symm) rfl hrestore
  | elif c t e =>
      rw [Cmd.tailPipes] at hpipes ⊢
      obtain ⟨hmode, hne⟩ := @Cmd.pipes_spec G _ .resElif c
      obtain ⟨pi, ps, hcons⟩ := List.exists_cons_of_ne_nil hne
      have hpi := (hmode pi (hcons ▸ List.mem_cons_self)).1
      rw [hcons, List.cons_append] at hpipes
      rw [← Nat.add_assoc, runLoop_turn hpipes]
      have hturn : turn sh pre.length pi v w = .ret v.rcode w := by
        simp [turn, reservedTurn, hpi, hskip, hif]
      rw [hturn]

theorem sim_cond (h : Sim sh c σ σ₁) (hzero : σ₁.1 = 0) (h' : Sim sh t σ₁ σ₂) :
    Sim sh (.cond c t e) σ σ₂ := by
  obtain ⟨N, h⟩ := h
  obtain ⟨N', h'⟩ := h'
  intro rm hrm
  refine ⟨max N N', (e.tailPipes : List (Pipe G)).length + 1 +
    (t.pipes .resThen : List (Pipe G)).length +
    (c.pipes rm : List (Pipe G)).length, ?_⟩
  rintro n k hn hk f pre v ⟨hpipes, hrestore, henter⟩ hskip
  rw [← Nat.add_assoc, ← Nat.add_assoc,
    h n k (by omega) (by omega) rm _ pre _ v hpipes hskip (.inl hrestore) henter,
    if_neg (by rw [hzero]; decide)]
  have hnext : (v.after rm pre.length σ₁.1).nextIfCode = 0 := by
    obtain rfl | rfl := hrm <;> exact hzero
  have hback : (v.after rm pre.length σ₁.1).flagRestore = false := by
    obtain rfl | rfl := hrm <;> exact hrestore
  have hrest : (v.after rm pre.length σ₁.1).pipes =
      (pre ++ c.pipes rm) ++ (t.pipes .resThen ++ e.tailPipes) := hpipes.trans (by simp)
  rw [h' n k (by omega) (by omega) .resThen _ _ _ _ hrest rfl (.inl hback) hnext]
  split_ifs with hexit
  · rfl
  · exact runLoop_tail (hrest.trans (by simp)) rfl hback hnext hnext

theorem sim_condTail (h : Sim sh c σ σ₁) (hne : σ₁.1 ≠ 0) (hexit : σ₁.1 ≠ -2)
    (h' : Sim sh e σ₁ σ₂) : Sim sh (.cond c t e) σ σ₂ := by
  obtain ⟨N, h⟩ := h
  obtain ⟨N', K, h'⟩ := h'
  intro rm hrm
  refine ⟨max N N', K + (t.pipes .resThen : List (Pipe G)).length +
    (c.pipes rm : List (Pipe G)).length, ?_⟩
  rintro n k hn hk f pre v ⟨hpipes, hrestore, henter⟩ hskip
  rw [← Nat.add_assoc, ← Nat.add_assoc,
    h n k (by omega) (by omega) rm _ pre _ v hpipes hskip (.inl hrestore) henter, if_neg hexit]
  have hnext : (v.after rm pre.length σ₁.1).nextIfCode ≠ 0 := by
    obtain rfl | rfl := hrm <;> exact hne
  have hback : (v.after rm pre.length σ₁.1).flagRestore = false := by
    obtain rfl | rfl := hrm <;> exact hrestore
  have hrest : (v.after rm pre.length σ₁.1).pipes =
      (pre ++ c.pipes rm) ++ (t.pipes .resThen ++ e.tailPipes) := hpipes.trans (by simp)
  obtain ⟨hmode, hnil⟩ := @Cmd.pipes_spec G _ .resThen t
  rw [runLoop_passes hmode hnil hrest rfl hback hnext]
  exact h' n k (by omega) (by omega) f _ _ ⟨hrest.trans (by simp), hback, hnext, hnext, rfl⟩ rfl

theorem sim_condExit (h : Sim sh c σ σ₁) (hexit : σ₁.1 = -2) : Sim sh (.cond c t e) σ σ₁ := by
  obtain ⟨N, h⟩ := h
  intro rm hrm
  refine ⟨N, (c.pipes rm : List (Pipe G)).length, ?_⟩
  rintro n k hn hk f pre v ⟨hpipes, hrestore, henter⟩ hskip
  rw [h n k hn hk rm _ pre _ v hpipes hskip (.inl hrestore) henter, if_pos hexit]

theorem sim_fi : Sim sh .fi σ σ := by
  refine ⟨0, 3, ?_⟩
  rintro n k - - f pre v ⟨hpipes, hrestore, -, -, hrcode⟩ hskip
  rw [Cmd.tailPipes] at hpipes
  rw [runLoop_fi hpipes hskip hrestore, hrcode]

theorem sim_els (h : Sim sh d σ σ₁) : Sim sh (.els d) σ σ₁ := by
  obtain ⟨N, h⟩ := h
  refine ⟨N, 3 + (d.pipes .resElse : List (Pipe G)).length, ?_⟩
  rintro n k hn hk f pre v ⟨hpipes, hrestore, -, hnext, -⟩ hskip
  rw [Cmd.tailPipes] at hpipes
  rw [← Nat.add_assoc, h n k hn hk .resElse _ pre _ v hpipes hskip (.inl hrestore) hnext]
  split_ifs with hexit
  · rfl
  · exact runLoop_fi (hpipes.trans (by simp)) rfl hrestore

theorem sim_elif (h : Sim sh (.cond c t e) σ σ₁) : Sim sh (.elif c t e) σ σ₁ := by
  obtain ⟨N, K, h⟩ := h .resElif (.inr rfl)
  refine ⟨N, K, ?_⟩
  rintro n k hn hk f pre v ⟨hpipes, hrestore, hif, -, -⟩ hskip
  rw [Cmd.tailPipes] at hpipes
  exact h n k hn hk f pre v ⟨hpipes, hrestore, hif⟩ hskip

/-! ### Loops -/

section Loop

variable {isUntil : Bool}

theorem loops_loopWord : Loops (loopWord isUntil) := by
  cases isUntil
  · exact .inl rfl
  · exact .inr (.inl rfl)

omit [Label G] in
theorem enters_loopWord {v : Vars G} : Enters (loopWord isUntil) v := by
  cases isUntil <;> trivial

omit [Label G] in
/-- The variables behind the condition of a loop. -/
theorem after_loopWord {v : Vars G} {i : ℕ} {r : ℤ} :
    (v.after (loopWord isUntil) i r).flagRestore = false ∧
      ((v.after (loopWord isUntil) i r).flagRep = true ↔ goesOn isUntil r) := by
  refine ⟨if_pos loops_loopWord, ?_⟩
  cases isUntil <;> simp [Vars.after, loopWord, goesOn]

omit [Label G] in
theorem rpipe_loopWord {v : Vars G} {r : ℤ} (hrpipe : v.rpipe = none ∨ v.rpipe = some 0) :
    (v.after (loopWord isUntil) 0 r).rpipe = some 0 := by
  obtain h | h := hrpipe <;> simp [Vars.after, loops_loopWord, h]

theorem sim_loopEnd (h : Sim sh c σ σ₁) (hend : σ₁.1 = -2 ∨ ¬goesOn isUntil σ₁.1) :
    Sim sh (.loop isUntil c b) σ σ₁ := by
  obtain ⟨N, h⟩ := h
  refine ⟨N, 3 + (b.pipes .resDo : List (Pipe G)).length +
    (c.pipes (loopWord isUntil) : List (Pipe G)).length, ?_⟩
  rintro n k hn hk f _ v ⟨rfl, hpipes, -⟩ hskip
  rw [← Nat.add_assoc, ← Nat.add_assoc,
    h n k hn hk _ _ [] _ v hpipes hskip (.inr loops_loopWord) enters_loopWord]
  split_ifs with hexit
  · rfl
  · obtain ⟨hrestore, hrep⟩ := @after_loopWord G isUntil v 0 σ₁.1
    have hstop := Bool.eq_false_iff.2 (mt hrep.1 (hend.resolve_left hexit))
    obtain ⟨hmode, hnil⟩ := @Cmd.pipes_spec G _ .resDo b
    have hrest : (v.after (loopWord isUntil) 0 σ₁.1).pipes =
        ([] ++ c.pipes (loopWord isUntil)) ++ (b.pipes .resDo ++ closing .resDone) := hpipes
    rw [List.length_nil, runLoop_passes hmode hnil hrest rfl hrestore hstop]
    exact runLoop_done (hrest.trans (by simp)) rfl hrestore hstop

theorem sim_loop (h : Sim sh c σ σ₁) (hne : σ₁.1 ≠ -2) (hgo : goesOn isUntil σ₁.1)
    (h' : Sim sh b σ₁ σ₂) (hne' : σ₂.1 ≠ -2) (hrec : Sim sh (.loop isUntil c b) σ₂ σ₃) :
    Sim sh (.loop isUntil c b) σ σ₃ := by
  obtain ⟨N, h⟩ := h
  obtain ⟨N', h'⟩ := h'
  obtain ⟨N'', K, hrec⟩ := hrec
  refine ⟨max N (max N' N''), K + 1 + (b.pipes .resDo : List (Pipe G)).length +
    (c.pipes (loopWord isUntil) : List (Pipe G)).length, ?_⟩
  rintro n k hn hk f _ v ⟨rfl, hpipes, hrpipe⟩ hskip
  obtain ⟨hrestore, hrep⟩ := @after_loopWord G isUntil v 0 σ₁.1
  have hrest : (v.after (loopWord isUntil) 0 σ₁.1).pipes =
      ([] ++ c.pipes (loopWord isUntil)) ++ (b.pipes .resDo ++ closing .resDone) := hpipes
  have hdone : ((v.after (loopWord isUntil) 0 σ₁.1).after .resDo
      ([] ++ c.pipes (loopWord isUntil) : List (Pipe G)).length σ₂.1).pipes =
      ([] ++ c.pipes (loopWord isUntil) ++ b.pipes .resDo) ++ closing .resDone :=
      hrest.trans (by simp)
  rw [← Nat.add_assoc, ← Nat.add_assoc, ← Nat.add_assoc,
    h n k (by omega) (by omega) _ _ [] _ v hpipes hskip (.inr loops_loopWord) enters_loopWord,
    if_neg hne,
    List.length_nil,
    h' n k (by omega) (by omega) .resDo _ _ _ _ hrest rfl (.inl hrestore) (hrep.2 hgo), if_neg hne',
    runLoop_again hdone rfl (hrep.2 hgo)]
  have hback := @rpipe_loopWord G isUntil v σ₁.1 hrpipe
  refine (congrArg (runLoop _ _ · _ _) hback).trans ?_
  exact hrec n k (by omega) (by omega) f [] _ ⟨rfl, hpipes, .inr hback⟩ rfl

theorem sim_loopExit (h : Sim sh c σ σ₁) (hne : σ₁.1 ≠ -2) (hgo : goesOn isUntil σ₁.1)
    (h' : Sim sh b σ₁ σ₂) (hexit : σ₂.1 = -2) : Sim sh (.loop isUntil c b) σ σ₂ := by
  obtain ⟨N, h⟩ := h
  obtain ⟨N', h'⟩ := h'
  refine ⟨max N N', (b.pipes .resDo : List (Pipe G)).length +
    (c.pipes (loopWord isUntil) : List (Pipe G)).length, ?_⟩
  rintro n k hn hk f _ v ⟨rfl, hpipes, -⟩ hskip
  obtain ⟨hrestore, hrep⟩ := @after_loopWord G isUntil v 0 σ₁.1
  have hrest : (v.after (loopWord isUntil) 0 σ₁.1).pipes =
      ([] ++ c.pipes (loopWord isUntil)) ++ (b.pipes .resDo ++ closing .resDone) := hpipes
  rw [← Nat.add_assoc,
    h n k (by omega) (by omega) _ _ [] _ v hpipes hskip (.inr loops_loopWord) enters_loopWord,
    if_neg hne, List.length_nil, h' n k (by omega) (by omega) .resDo _ _ _ _ hrest rfl
    (.inl hrestore)
      (hrep.2 hgo), if_pos hexit]

end Loop

/-! ### `for` -/

section For

/-- The variables of a `for` with some values to come. -/
structure Turning (name : Str) (words values : List Str) (b : Cmd .list) (v : Vars G) : Prop where
  pipes : v.pipes = (Cmd.forIn name words b).groupPipes
  skip : v.skipMoreInThisRmode = .resXxxx
  rpipe : v.rpipe = some 0
  rep : v.flagRep = true
  list : v.list = some values

/-- The variables behind the assignment of a value. -/
def Vars.assigned (value : Str) (words values : List Str) (b : Cmd .list) (r : ℤ) (v : Vars G) :
    Vars G := { v with
  pipes := (Cmd.forIn value words b).groupPipes
  flagRestore := false
  flagSkip := true
  rcode := r
  list := some values }

/-- The variables behind a `for` without a further value. -/
def Vars.exhausted (pipes : List (Pipe G)) (v : Vars G) : Vars G := { v with
  pipes
  rpipe := some 0
  flagRestore := false
  flagRep := false
  flagSkip := true
  list := none }

/-- The variables of a `for` with all its values to come. -/
def Vars.started (name : Str) (values : List Str) (v : Vars G) : Vars G := { v with
  rpipe := some 0
  flagRep := true
  list := some values
  saveName := name }

section Turn

variable {name value : Str} {words values : List Str} {v : Vars G} {w : World S}
  {one : Shell S G} {f : ℕ} {res : ℤ × World S}

theorem forPipe_spec :
    (forPipe name : Pipe G).rMode = .resFor ∧ (forPipe name : Pipe G).progs ≠ [] ∧
    (forPipe name : Pipe G).followup = .seq := ⟨rfl, by simp [forPipe], rfl⟩

theorem turn_value (hctrlc : ∀ w, one.hadCtrlc w = false)
    (h : Turning name words (value :: values) b v)
    (hres : one.runPipeReal (forPipe value) w = res) : turn one 0 (forPipe name) v w =
      if res.1 < -1 then .ret (-2) (res.2.ranPipe res.1)
      else .cont (v.assigned value words values b res.1) (res.2.ranPipe res.1) := by
  have hset : (forPipe name : Pipe G).setName value = forPipe value := rfl
  have hpipes : v.pipes.modify 0 (·.setName value) = (Cmd.forIn value words b).groupPipes := by
    rw [h.pipes]
    rfl
  have hmode (name : Str) := @forPipe_spec G _ name
  have hskip := h.skip
  have hrpipe := h.rpipe
  have hlist := h.list
  by_cases hexit : res.1 < -1
  · simp [turn, reservedTurn, forTurn, runTurn, hmode, hctrlc, hskip, hrpipe, hlist, hset, hres,
      hexit, World.ranPipe]
  · simp [turn, reservedTurn, forTurn, runTurn, hmode, hctrlc, hskip, hrpipe, hlist, hset, hres,
      hexit, World.ranPipe, Vars.assigned, hpipes]

/-- The pipe with the words is passed. -/
theorem runLoop_in (hpipes : v.pipes = (Cmd.forIn name words b).groupPipes)
    (hskip : v.skipMoreInThisRmode = .resXxxx) (hrestore : v.flagRestore = false) :
    runLoop one (f + 1) (some 1) v w =
      runLoop one f (some [(forPipe name : Pipe G), inPipe words].length) (v.passed .resIn) w :=
  @runLoop_passes S G one .resIn v w f [forPipe name] [inPipe words] _ (by simp [inPipe])
    (List.cons_ne_nil _ _) hpipes
    hskip hrestore trivial

/-- The loop passes what is behind a `for` without a value. -/
theorem runLoop_forEnd (hpipes : v.pipes = (Cmd.forIn name words b).groupPipes)
    (hskip : v.skipMoreInThisRmode = .resXxxx) (hrestore : v.flagRestore = false)
    (hrep : v.flagRep = false) :
    runLoop one (f + 3 + (b.pipes .resDo : List (Pipe G)).length + 1) (some 1) v w =
      some (v.rcode, w) := by
  obtain ⟨hmode, hnil⟩ := @Cmd.pipes_spec G _ .resDo b
  have hrest : (v.passed .resIn).pipes = [forPipe name, inPipe words] ++
    (b.pipes .resDo ++ closing .resDone) := hpipes
  rw [runLoop_in hpipes hskip hrestore, runLoop_passes hmode hnil hrest rfl hrestore hrep]
  exact runLoop_done (hrest.trans (by simp)) rfl hrestore hrep

/-- A value is assigned, and the loop goes on with the commands. -/
theorem runLoop_value (hctrlc : ∀ w, one.hadCtrlc w = false)
    (h : Turning name words (value :: values) b v) (hres : one.runPipeReal (forPipe value) w = res)
    (hin : ¬res.1 < -1) :
    runLoop one (f + 1 + 1) (some 0) v w =
      runLoop one f (some [(forPipe value : Pipe G), inPipe words].length)
      ((v.assigned value words values b res.1).passed .resIn) (res.2.ranPipe res.1) := by
  have hskip : (v.assigned value words values b res.1).skipMoreInThisRmode = .resXxxx := h.skip
  have hstep := @runLoop_turn S G one v w (f + 1) [] _ (forPipe name) h.pipes
  rw [List.length_nil, turn_value hctrlc h hres, if_neg hin] at hstep
  exact hstep.trans (@runLoop_in S G _ b value words _ _ one f rfl hskip rfl)

theorem runLoop_exhausted (hpipes : v.pipes = (Cmd.forIn name words b).groupPipes)
    (hskip : v.skipMoreInThisRmode = .resXxxx)
    (hturn : turn one 0 (forPipe name) v w =
      .cont (v.exhausted (Cmd.forIn value words b).groupPipes) w) :
    runLoop one (f + 3 + (b.pipes .resDo : List (Pipe G)).length + 1 + 1) (some 0) v w =
      some (v.rcode, w) := by
  have hskip' : (v.exhausted (Cmd.forIn value words b).groupPipes).skipMoreInThisRmode = .resXxxx :=
    hskip
  have hstep := @runLoop_turn S G one v w (f + 3 + (b.pipes .resDo : List (Pipe G)).length + 1) [] _
    (forPipe name) hpipes
  rw [List.length_nil, hturn] at hstep
  have hpipes' : (v.exhausted (Cmd.forIn value words b).groupPipes).pipes =
    (Cmd.forIn value words b).groupPipes := rfl
  exact hstep.trans (runLoop_forEnd hpipes' hskip' rfl rfl)

end Turn

variable {name value : Str} {words values : List Str} {res : ℤ × World S}

theorem ran_of_ne (hne : (ran res).1 ≠ -2) : ¬res.1 < -1 ∧ res.1 = (ran res).1 := by
  have hin := mt (outcome_eq_iff _).2 hne
  exact ⟨hin, (if_neg hin).symm⟩

include hsh in
theorem runPipeReal_value (hexec : prims.Exec [value] σ.2 res) :
    ∃ N, ∀ n k, N ≤ n → N ≤ k → (sh n k).runPipeReal (forPipe value) σ.2 = res := by
  obtain ⟨N, hrun⟩ := hsh.simple [value] σ.2 res hexec
  exact ⟨N, fun n k hn hk ↦ hrun n k hn hk .resFor⟩

include hsh in
theorem sim_turns (hexec : prims.Exec [value] σ.2 res) (hne : (ran res).1 ≠ -2)
    (h : Sim sh b (ran res) σ₁) (hne' : σ₁.1 ≠ -2) (hrec : Sim sh (.turns values b) σ₁ σ₂) :
    Sim sh (.turns (value :: values) b) σ σ₂ := by
  obtain ⟨M, hrun⟩ := runPipeReal_value hsh hexec
  obtain ⟨N, h⟩ := h
  obtain ⟨N', K, hrec⟩ := hrec
  refine ⟨max M (max N N'), K + 1 + (b.pipes .resDo : List (Pipe G)).length + 1 + 1, ?_⟩
  rintro n k hn hk f _ v ⟨rfl, ⟨name, words, hpipes⟩, hrpipe, hrep, hlist, -⟩ hskip
  have hvalue := @runLoop_value S G _ b name value words values v σ.2 (sh n k)
    (f + K + 1 + (b.pipes .resDo : List (Pipe G)).length) _ (hsh.hadCtrlc n k) ⟨hpipes, hskip,
      hrpipe, hrep, hlist⟩
    (hrun n k (by omega) (by omega)) (ran_of_ne hne).1
  have hrest : ((v.assigned value words values b res.1).passed .resIn).pipes =
      [forPipe value, inPipe words] ++ (b.pipes .resDo ++ closing .resDone) := rfl
  have hdone : (((v.assigned value words values b res.1).passed .resIn).after .resDo
      [(forPipe value : Pipe G), inPipe words].length σ₁.1).pipes =
        ([forPipe value, inPipe words] ++ b.pipes .resDo) ++ closing .resDone :=
        hrest.trans (by simp)
  have hbody := h n k (by omega) (by omega) .resDo (f + K + 1) _ _ _ hrest rfl (.inl rfl) hrep
  rw [if_neg hne', runLoop_again hdone rfl hrep] at hbody
  rw [← Nat.add_assoc, ← Nat.add_assoc, ← Nat.add_assoc, ← Nat.add_assoc]
  refine hvalue.trans (hbody.trans ((congrArg (runLoop _ _ · _ _) hrpipe).trans ?_))
  exact hrec n k (by omega) (by omega) f [] _ ⟨rfl, ⟨value, words, rfl⟩, hrpipe, hrep, rfl, rfl⟩ rfl

include hsh in
theorem sim_turnsExit (hexec : prims.Exec [value] σ.2 res) (hne : (ran res).1 ≠ -2)
    (h : Sim sh b (ran res) σ₁) (hexit : σ₁.1 = -2) : Sim sh (.turns (value :: values) b) σ σ₁ := by
  obtain ⟨M, hrun⟩ := runPipeReal_value hsh hexec
  obtain ⟨N, h⟩ := h
  refine ⟨max M N, (b.pipes .resDo : List (Pipe G)).length + 1 + 1, ?_⟩
  rintro n k hn hk f _ v ⟨rfl, ⟨name, words, hpipes⟩, hrpipe, hrep, hlist, -⟩ hskip
  have hvalue := @runLoop_value S G _ b name value words values v σ.2 (sh n k)
    (f + (b.pipes .resDo : List (Pipe G)).length) _ (hsh.hadCtrlc n k) ⟨hpipes, hskip, hrpipe,
      hrep, hlist⟩
    (hrun n k (by omega) (by omega)) (ran_of_ne hne).1
  have hrest : ((v.assigned value words values b res.1).passed .resIn).pipes =
      [forPipe value, inPipe words] ++ (b.pipes .resDo ++ closing .resDone) := rfl
  have hbody := h n k (by omega) (by omega) .resDo f _ _ _ hrest rfl (.inl rfl) hrep
  rw [if_pos hexit] at hbody
  rw [← Nat.add_assoc, ← Nat.add_assoc]
  exact hvalue.trans hbody

include hsh in
theorem sim_turnsLeave (hexec : prims.Exec [value] σ.2 res) (hexit : (ran res).1 = -2) :
    Sim sh (.turns (value :: values) b) σ (ran res) := by
  obtain ⟨M, hrun⟩ := runPipeReal_value hsh hexec
  refine ⟨M, 1, ?_⟩
  rintro n k hn hk f _ v ⟨rfl, ⟨name, words, hpipes⟩, hrpipe, hrep, hlist, -⟩ hskip
  have hturn := @turn_value S G _ b name value words values v σ.2 (sh n k) _ (hsh.hadCtrlc n k)
    ⟨hpipes, hskip, hrpipe, hrep, hlist⟩ (hrun n k hn hk)
  rw [if_pos ((outcome_eq_iff _).1 hexit)] at hturn
  rw [@runLoop_turn S G _ v _ f [] _ (forPipe name) hpipes, List.length_nil, hturn]
  exact congrArg some (Prod.ext hexit.symm rfl)

include hsh in
theorem sim_turnsNil : Sim sh (.turns [] b) σ σ := by
  refine ⟨0, 3 + (b.pipes .resDo : List (Pipe G)).length + 1 + 1, ?_⟩
  rintro n k - - f _ v ⟨rfl, ⟨name, words, hpipes⟩, hrpipe, hrep, hlist, hrcode⟩ hskip
  have hset : v.pipes.modify 0 (·.setName v.saveName) =
      (Cmd.forIn v.saveName words b).groupPipes := by
    rw [hpipes]
    rfl
  have hctrlc := hsh.hadCtrlc n k
  have hturn : turn (sh n k) 0 (forPipe name) v σ.2 =
      .cont (v.exhausted (Cmd.forIn v.saveName words b).groupPipes) σ.2 := by
    simp [turn, reservedTurn, forTurn, forPipe_spec, hctrlc, hskip, hrpipe, hlist, hset,
      Vars.exhausted]
  rw [← Nat.add_assoc, ← Nat.add_assoc, ← Nat.add_assoc]
  exact (runLoop_exhausted hpipes hskip hturn).trans (congrArg some (Prod.ext hrcode rfl))

include hsh in
theorem sim_forNone : Sim sh (.forIn name [] b) σ σ := by
  refine ⟨0, 3 + (b.pipes .resDo : List (Pipe G)).length + 1 + 1, ?_⟩
  rintro n k - - f _ v ⟨rfl, hpipes, hrpipe, hlist, hrcode⟩ hskip
  have hwords : (v.pipes[0 + 1]?).bind Pipe.argv = none := by
    rw [hpipes]
    rfl
  have hctrlc := hsh.hadCtrlc n k
  have hturn : turn (sh n k) 0 (forPipe name) v σ.2 =
      .cont (v.exhausted v.pipes) σ.2 := by
    simp [turn, reservedTurn, forTurn, forPipe_spec, hctrlc, hskip, hrpipe, hlist, hwords,
      Vars.exhausted]
  rw [hpipes] at hturn
  rw [← Nat.add_assoc, ← Nat.add_assoc, ← Nat.add_assoc]
  exact (runLoop_exhausted hpipes hskip hturn).trans (congrArg some (Prod.ext hrcode rfl))

include hsh in
theorem sim_forIn (hwords : words ≠ []) (h : Sim sh (.turns (prims.values σ.2 name words) b) σ σ₁) :
    Sim sh (.forIn name words b) σ σ₁ := by
  obtain ⟨N, K, h⟩ := h
  refine ⟨N, K + 1, ?_⟩
  rintro n k hn hk f _ v ⟨rfl, hpipes, hrpipe, hlist, hrcode⟩ hskip
  have hargv : (v.pipes[0 + 1]?).bind Pipe.argv = some words := by
    rw [hpipes]
    simp [Cmd.groupPipes, inPipe, Pipe.argv, hwords]
  have hname : ((forPipe name : Pipe G).argv.bind List.head?).getD [] = name := rfl
  have hctrlc := hsh.hadCtrlc n k
  have hvalues : makeListIn (sh n k) σ.2 words name = prims.values σ.2 name words := by
    rw [makeListIn, hsh.insertVarValue n k]
    rfl
  -- the loop is as it would be in the middle, with all values to come
  have hturn : turn (sh n k) 0 (forPipe name) v σ.2 =
      turn (sh n k) 0 (forPipe name) (v.started name (prims.values σ.2 name words)) σ.2 := by
    simp [turn, reservedTurn, forTurn, forPipe_spec, hctrlc, hskip, hrpipe, hlist, hargv, hname,
      hvalues, Vars.started]
  have hend := h n k hn hk (f + 1) [] (v.started name (prims.values σ.2 name words))
    ⟨rfl, ⟨name, words, hpipes⟩, rfl, rfl, rfl, hrcode⟩ hskip
  have hpipes' : (v.started name (prims.values σ.2 name words)).pipes = [] ++
    (Cmd.forIn name words b).groupPipes :=
    hpipes
  rw [show f + 1 + K = f + K + 1 by omega, @runLoop_turn S G (sh n k) _ σ.2 (f + K) [] _
    (forPipe name) hpipes', List.length_nil, ← hturn] at hend
  exact (@runLoop_turn S G (sh n k) v σ.2 (f + K) [] _ (forPipe name) hpipes).trans hend

end For

include hsh in
theorem Exec.sim {k : Kind} {cmd : Cmd k} (h : Exec prims cmd σ σ₁) : Sim sh cmd σ σ₁ := by
  induction h with
  | simple hexec => exact sim_simple hsh hexec
  | group hok _ ih => exact sim_group hsh hok ih
  | seq _ hne _ ih ih' => exact sim_seq ih hne ih'
  | seqExit _ hexit ih => exact sim_seqExit ih hexit
  | cond _ hzero _ ih ih' => exact sim_cond ih hzero ih'
  | condTail _ hne hexit _ ih ih' => exact sim_condTail ih hne hexit ih'
  | condExit _ hexit ih => exact sim_condExit ih hexit
  | fi => exact sim_fi
  | els _ ih => exact sim_els ih
  | elif _ ih => exact sim_elif ih
  | loop _ hne hgo _ hne' _ ih ih' hrec => exact sim_loop ih hne hgo ih' hne' hrec
  | loopEnd _ hend ih => exact sim_loopEnd ih hend
  | loopExit _ hne hgo _ hexit ih ih' => exact sim_loopExit ih hne hgo ih' hexit
  | forIn hwords _ ih => exact sim_forIn hsh hwords ih
  | forNone => exact sim_forNone hsh
  | turnsNil => exact sim_turnsNil hsh
  | turns hexec hne _ hne' _ ih hrec => exact sim_turns hsh hexec hne ih hne' hrec
  | turnsLeave hexec hexit => exact sim_turnsLeave hsh hexec hexit
  | turnsExit hexec hne _ hexit ih => exact sim_turnsExit hsh hexec hne ih hexit

include hsh in
/-- Where commands have a meaning, `run_list_real` does what they mean, for enough fuel: behind
their pipes there are the empty ones that the parser leaves. -/
theorem runListReal_exec {w : World S} {m : ℕ} (h : Exec prims c (0, w) σ) :
    ∃ N, ∀ n k, N ≤ n → N ≤ k →
    runListReal (sh n k) n (c.pipes .resNone ++ nullPipes G m) w = some σ := by
  obtain ⟨N, hsim⟩ := h.sim hsh
  have hlen : (nullPipes G m).length = m + 1 := by simp [nullPipes]
  refine ⟨max N (m + 2 + (c.pipes .resNone : List (Pipe G)).length), fun n k hn hk ↦ ?_⟩
  obtain ⟨f, rfl⟩ :=
    Nat.exists_eq_add_of_le' (show m + 2 + (c.pipes .resNone : List (Pipe G)).length ≤ n by omega)
  have hsyntax : forSyntax (c.pipes .resNone ++ nullPipes G m) = true := by
    refine forSyntax_notFor (List.forall_mem_append.2 ⟨notFor_pipes (by decide) c, fun pi hpi ↦ ?_⟩)
    rw [NotFor, (nullPipes_spec pi hpi).2]
    exact ⟨by decide, by decide⟩
  generalize hv : initVars (c.pipes .resNone ++ nullPipes G m) = v
  have hpipes : v.pipes = [] ++ (c.pipes .resNone ++ nullPipes G m) := hv ▸ rfl
  have hrestore : v.flagRestore = false := hv ▸ rfl
  rw [runListReal, hsyntax, if_neg (by decide), ← Nat.add_assoc, hv]
  refine (hsim _ k (by omega) (by omega) .resNone (f + (m + 2)) [] _ v hpipes (hv ▸ rfl)
    (.inl hrestore)
    trivial).trans ?_
  split_ifs with hexit
  · rfl
  · have hrun : Running (v.after .resNone ([] : List (Pipe G)).length σ.1) :=
      ⟨fun hskip ↦ Reserved.noConfusion hskip.1, hrestore⟩
    exact runLoop_null hrun (hpipes.trans (List.append_assoc _ _ _).symm) nullPipes_spec (by omega)

end Rules

end MiniPi.Hush
