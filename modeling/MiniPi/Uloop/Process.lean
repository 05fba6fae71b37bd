import MiniPi.Lib.Run
import MiniPi.Uloop.ListHead
import Mathlib.Data.Int.Notation
import Mathlib.Tactic.Linarith

/-!
# Processes of the event loop

The list of the registered processes of `uloop.c`, and `uloop_handle_processes`, which walks along
it for every exit that is reaped.  The callbacks add and delete processes while the walk keeps the
link it follows next.
-/

universe u

namespace MiniPi.Uloop

open Lib Function

variable {ι : Type u}

/-- The list `processes` and the fields of the processes. -/
structure Processes (ι : Type u) where
  processes : ListHead ι
  pid : ι → ℤ
  pending : ι → Bool

/-- Where `uloop_handle_processes` stands: before `waitpid`, at the test of the loop with `p` and
`tmp`, in the callback of a process, or at an access through `NULL`. -/
inductive Handling (ι : Type u)
  | idle
  | walk (reaped : ℤ) (p tmp : Link ι)
  | callback (reaped : ℤ) (x : ι) (tmp : Link ι)
  | fault

namespace Processes

variable [DecidableEq ι]

/-! ## The functions -/

/-- The loop of `uloop_process_add`, for the place where the process goes. -/
def findPid (s : Processes ι) (pid : ℤ) : ℕ → Link ι → Option (Link ι)
  | 0, _ => none
  | _ + 1, .head => some .head
  | _ + 1, .null => none
  | fuel + 1, .node x => if pid < s.pid x then some (.node x)
      else findPid s pid fuel (s.processes.next (.node x))

/-- `uloop_process_add` of a process with `pid` in its field. -/
def uloopProcessAdd (fuel : ℕ) (x : ι) (pid : ℤ) (s : Processes ι) : Option (Processes ι) :=
  if s.pending x then some s
  else
    (s.findPid pid fuel (s.processes.next .head)).map fun h ↦
      { processes := s.processes.listAddTail (.node x) h
        pid := update s.pid x pid
        pending := update s.pending x true }

def uloopProcessDelete (x : ι) (s : Processes ι) : Processes ι :=
  if s.pending x then
    { s with processes := s.processes.listDel (.node x), pending := update s.pending x false }
  else s

/-- `list_for_each_entry_safe` goes on to `tmp`. -/
def advance (s : Processes ι) (reaped : ℤ) (tmp : Link ι) : Handling ι :=
  if tmp = .null then .fault else .walk reaped tmp (s.processes.next tmp)

end Processes

/-- The turn of a process: the pid that was reaped, and what its callback found in the process. -/
structure Turn (ι : Type u) where
  process : ι
  reaped : ℤ
  pid : ℤ
  pending : Bool

/-- The processes and the walk.  What follows is the history: which processes were registered with
the pid when it was reaped and have neither been called nor deleted, the turns, and how often each
was added, called and deleted. -/
structure Reaper (ι : Type u) where
  procs : Processes ι
  handling : Handling ι := .idle
  due : ι → Bool := fun _ ↦ false
  turns : List (Turn ι) := []
  added : ι → ℕ := fun _ ↦ 0
  called : ι → ℕ := fun _ ↦ 0
  deleted : ι → ℕ := fun _ ↦ 0

/-- What the program, the callbacks and the walk do. -/
inductive ProcAct (ι : Type u)
  | add (x : ι) (pid : ℤ)
  | delete (x : ι)
  | reap (pid : ℤ)
  | round
  | callbackReturns

namespace Reaper

variable [DecidableEq ι]

def add (x : ι) (procs : Processes ι) (s : Reaper ι) : Reaper ι :=
  { s with procs, added := if s.procs.pending x then s.added else update s.added x (s.added x + 1) }

def delete (x : ι) (s : Reaper ι) : Reaper ι :=
  { s with
    procs := s.procs.uloopProcessDelete x
    due := update s.due x false
    deleted := if s.procs.pending x then update s.deleted x (s.deleted x + 1) else s.deleted }

/-- `waitpid` returns `pid`, and the walk begins. -/
def reap (pid : ℤ) (s : Reaper ι) : Reaper ι :=
  let p := s.procs.processes.next .head
  { s with
    handling := .walk pid p (s.procs.processes.next p)
    due := fun x ↦ s.procs.pending x && decide (s.procs.pid x = pid) }

/-- The process is deleted, and its callback is called. -/
def call (reaped : ℤ) (x : ι) (tmp : Link ι) (s : Reaper ι) : Reaper ι :=
  { s with
    procs := s.procs.uloopProcessDelete x
    handling := .callback reaped x tmp
    due := update s.due x false
    turns := ⟨x, reaped, s.procs.pid x, s.procs.pending x⟩ :: s.turns
    called := update s.called x (s.called x + 1) }

/-- A round of the walk, from the test of the loop on. -/
def round (reaped : ℤ) (p tmp : Link ι) (s : Reaper ι) : Reaper ι :=
  match p with
  | .null => { s with handling := .fault }
  | .head => { s with handling := .idle }
  | .node x =>
      if s.procs.pid x < reaped then { s with handling := s.procs.advance reaped tmp }
      else if reaped < s.procs.pid x then { s with handling := .idle }
      else s.call reaped x tmp

/-- No walk is going on, or it is in a callback. -/
def Calling (s : Reaper ι) : Prop :=
  s.handling = .idle ∨ ∃ reaped x tmp, s.handling = .callback reaped x tmp

/-- The program and the callbacks add and delete processes between the rounds of the walk. -/
inductive Step : Reaper ι → ProcAct ι → Reaper ι → Prop
  | add {s : Reaper ι} {x : ι} {pid : ℤ} {fuel : ℕ} {procs : Processes ι} :
      s.Calling → s.procs.uloopProcessAdd fuel x pid = some procs →
      Step s (.add x pid) (s.add x procs)
  | delete {s : Reaper ι} {x : ι} : s.Calling → Step s (.delete x) (s.delete x)
  | reap {s : Reaper ι} {pid : ℤ} : s.handling = .idle → Step s (.reap pid) (s.reap pid)
  | round {s : Reaper ι} {reaped : ℤ} {p tmp : Link ι} :
      s.handling = .walk reaped p tmp → Step s .round (s.round reaped p tmp)
  | callbackReturns {s : Reaper ι} {reaped : ℤ} {x : ι} {tmp : Link ι} :
      s.handling = .callback reaped x tmp →
      Step s .callbackReturns { s with handling := s.procs.advance reaped tmp }

/-- No callback deletes the process to which the walk goes next. -/
def CarefulStep (s : Reaper ι) (a : ProcAct ι) (s' : Reaper ι) : Prop :=
  s.Step a s' ∧ ∀ reaped x y, s.handling = .callback reaped x (.node y) → a ≠ .delete y

end Reaper

/-! ## What is delivered -/

/-- The list holds the registered processes in the order of their pids. -/
structure Processes.Linked (s : Processes ι) (xs : List ι) : Prop where
  holds : s.processes.Holds xs
  sorted : xs.Pairwise fun x y ↦ s.pid x ≤ s.pid y
  mem_iff : ∀ x, x ∈ xs ↔ s.pending x = true

/-- The head, or a process that is registered. -/
def Processes.Member (s : Processes ι) (p : Link ι) : Prop :=
  p = .head ∨ ∃ x, p = .node x ∧ s.pending x = true

/-- The walk delivers every exit that was reaped. -/
structure Reaper.Delivers [DecidableEq ι] (s : Reaper ι) : Prop where
  linked : ∃ xs, s.procs.Linked xs
  /-- Each registration ends with one callback or is deleted. -/
  once : ∀ x, s.added x = s.called x + s.deleted x + if s.procs.pending x then 1 else 0
  /-- No other process is called than one that is registered with the reaped pid. -/
  only : ∀ turn ∈ s.turns, turn.pid = turn.reaped ∧ turn.pending = true
  /-- At its end the walk has called those that were not deleted. -/
  all : s.handling = .idle → ∀ x, s.due x = false
  /-- The walk follows the links of registered processes. -/
  member : ∀ reaped p tmp, s.handling = .walk reaped p tmp → s.procs.Member p ∧ s.procs.Member tmp
  next : ∀ reaped x tmp, s.handling = .callback reaped x tmp → s.procs.Member tmp
  no_fault : s.handling ≠ .fault
  /-- `uloop_process_add` returns. -/
  adds : ∀ x pid, ∃ fuel procs, s.procs.uloopProcessAdd fuel x pid = some procs

section

variable [DecidableEq ι] {s s' : Reaper ι} {procs procs' : Processes ι} {pre post xs : List ι}
  {x : ι} {pid : ℤ} {fuel : ℕ}

namespace Processes.Linked

omit [DecidableEq ι] in
/-- The place before the first process with a greater pid. -/
theorem findPid {h : Link ι} (hl : procs.Linked (pre ++ post)) (hpre : ∀ y ∈ pre, procs.pid y ≤ pid)
    (hfind : procs.findPid pid fuel (ListHead.first post) = some h) :
    ∃ a b, pre ++ post = a ++ b ∧ h = ListHead.first b ∧ (∀ y ∈ a, procs.pid y ≤ pid) ∧
      ∀ y ∈ b, pid < procs.pid y := by
  induction post generalizing pre fuel with
  | nil =>
      cases fuel with
      | zero => simp [Processes.findPid] at hfind
      | succ fuel =>
          obtain rfl : Link.head = h := by simpa [Processes.findPid] using hfind
          exact ⟨pre, [], rfl, rfl, hpre, by simp⟩
  | cons y ys ih =>
      cases fuel with
      | zero => simp [Processes.findPid] at hfind
      | succ fuel =>
          rw [ListHead.first_cons, Processes.findPid] at hfind
          split_ifs at hfind with hpid
          · obtain rfl := Option.some.inj hfind
            refine ⟨pre, y :: ys, rfl, rfl, hpre, List.forall_mem_cons.2 ⟨hpid, fun z hz ↦ ?_⟩⟩
            have hsorted := (List.pairwise_append.1 hl.sorted).2.1
            exact hpid.trans_le ((List.pairwise_cons.1 hsorted).1 z hz)
          · rw [hl.holds.node.1] at hfind
            have happend : pre ++ y :: ys = (pre ++ [y]) ++ ys := by simp
            rw [happend] at hl ⊢
            refine ih hl ?_ hfind
            intro z hz
            rcases List.mem_append.1 hz with hz | hz
            · exact hpre z hz
            · exact List.mem_singleton.1 hz ▸ not_lt.1 hpid

omit [DecidableEq ι] in
theorem findPid_isSome (hl : procs.Linked (pre ++ post)) :
    (procs.findPid pid (post.length + 1) (ListHead.first post)).isSome = true := by
  induction post generalizing pre with
  | nil => rfl
  | cons y ys ih =>
      rw [ListHead.first_cons, List.length_cons, Processes.findPid]
      split_ifs
      · rfl
      · rw [hl.holds.node.1]
        have happend : pre ++ y :: ys = (pre ++ [y]) ++ ys := by simp
        exact ih (happend ▸ hl)

theorem adds (hl : procs.Linked xs) (x : ι) (pid : ℤ) :
    ∃ fuel procs', procs.uloopProcessAdd fuel x pid = some procs' := by
  unfold uloopProcessAdd
  by_cases hx : procs.pending x = true
  · exact ⟨0, procs, if_pos hx⟩
  · obtain ⟨h, hfind⟩ := Option.isSome_iff_exists.1 (@findPid_isSome _ procs [] xs pid hl)
    refine ⟨xs.length + 1, Option.isSome_iff_exists.1 ?_⟩
    rw [if_neg hx, hl.holds.next_head, hfind]
    rfl

/-- `uloop_process_add` of a process that is not registered. -/
theorem add (hl : procs.Linked xs) (hx : procs.pending x = false)
    (hadd : procs.uloopProcessAdd fuel x pid = some procs') :
    ∃ a b, xs = a ++ b ∧ procs'.Linked (a ++ x :: b) ∧ procs'.pid = update procs.pid x pid ∧
      procs'.pending = update procs.pending x true := by
  unfold uloopProcessAdd at hadd
  rw [if_neg (by simp [hx]), hl.holds.next_head] at hadd
  obtain ⟨h, hfind, rfl⟩ := Option.map_eq_some_iff.1 hadd
  obtain ⟨a, b, hsplit, rfl, ha, hb⟩ := @findPid _ procs [] xs pid fuel h hl (by simp) hfind
  rw [List.nil_append] at hsplit
  subst hsplit
  have hmem : x ∉ a ++ b := fun hmem ↦ by simp [(hl.mem_iff x).1 hmem] at hx
  have hpid : ∀ y ∈ a ++ b, update procs.pid x pid y = procs.pid y :=
    fun y hy ↦ update_of_ne (ne_of_mem_of_not_mem hy hmem) _ _
  refine ⟨a, b, rfl, ⟨?_, ?_, fun y ↦ ?_⟩, rfl, rfl⟩
  · change ListHead.Holds (procs.processes.listAddTail (.node x) (ListHead.first b)) _
    rw [ListHead.listAddTail, hl.holds.prev_first]
    exact hl.holds.insert hmem
  · have hold : (a ++ b).Pairwise fun y z ↦ update procs.pid x pid y ≤ update procs.pid x pid z :=
      hl.sorted.imp_of_mem fun hy hz hle ↦ by rwa [hpid _ hy, hpid _ hz]
    rw [List.pairwise_append] at hold ⊢
    refine ⟨hold.1, List.pairwise_cons.2 ⟨fun z hz ↦ ?_, hold.2.1⟩, fun y hy z hz ↦ ?_⟩
    · change update procs.pid x pid x ≤ update procs.pid x pid z
      rw [update_self, hpid z (List.mem_append_right _ hz)]
      exact (hb z hz).le
    · rcases List.mem_cons.1 hz with rfl | hz
      · change update procs.pid z pid y ≤ update procs.pid z pid z
        rw [update_self, hpid y (List.mem_append_left _ hy)]
        exact ha y hy
      · exact hold.2.2 y hy z hz
  · have hiff := hl.mem_iff y
    change _ ↔ update procs.pending x true y = true
    by_cases hy : y = x
    · simp [hy]
    · rw [update_of_ne hy, ← hiff]
      simp [hy]

theorem delete (hl : procs.Linked (pre ++ x :: post)) :
    (procs.uloopProcessDelete x).Linked (pre ++ post) := by
  have hx : procs.pending x = true := (hl.mem_iff x).1 (by simp)
  have hmem : x ∉ pre ++ post := (List.nodup_cons.1 (List.nodup_middle.1 hl.holds.nodup)).1
  unfold uloopProcessDelete
  rw [if_pos hx]
  refine ⟨hl.holds.del, ?_, fun y ↦ ?_⟩
  · exact hl.sorted.sublist ((List.sublist_cons_self x post).append_left pre)
  · have hiff := hl.mem_iff y
    change _ ↔ update procs.pending x false y = true
    by_cases hy : y = x
    · subst hy
      simpa using hmem
    · rw [update_of_ne hy, ← hiff]
      simp [hy]

end Processes.Linked

theorem Processes.uloopProcessAdd_of_pending (hx : procs.pending x = true)
    (hadd : procs.uloopProcessAdd fuel x pid = some procs') : procs' = procs := by
  unfold uloopProcessAdd at hadd
  rw [if_pos hx] at hadd
  exact (Option.some.inj hadd).symm

theorem Processes.uloopProcessDelete_of_pending (hx : procs.pending x = true) :
    (procs.uloopProcessDelete x).pending = update procs.pending x false ∧
      (procs.uloopProcessDelete x).pid = procs.pid := by
  unfold uloopProcessDelete
  rw [if_pos hx]
  exact ⟨rfl, rfl⟩

theorem Processes.uloopProcessDelete_of_not_pending (hx : procs.pending x = false) :
    procs.uloopProcessDelete x = procs := by
  unfold uloopProcessDelete
  rw [if_neg (by simp [hx])]

/-! ## The walk -/

/-- The nodes before the link that the walk follows next have had their turn. -/
def Handling.Place (h : Handling ι) (procs : Processes ι) (due : ι → Bool) (xs : List ι) : Prop :=
  match h with
  | .idle => ∀ x, due x = false
  | .walk reaped p tmp => (∃ pre post, xs = pre ++ post ∧ p = ListHead.first post ∧
      tmp = procs.processes.next p ∧ ∀ x ∈ pre, due x = false) ∧ ∀ x, due x = true →
      procs.pid x = reaped
  | .callback reaped _ tmp => (∃ pre post, xs = pre ++ post ∧ tmp = ListHead.first post ∧
      ∀ x ∈ pre, due x = false) ∧ ∀ x, due x = true → procs.pid x = reaped
  | .fault => False

theorem of_update_false {due : ι → Bool} {y : ι} (hy : update due x false y = true) :
    due y = true ∧ y ≠ x := by
  by_cases hne : y = x
  · simp [hne] at hy
  · exact ⟨by simpa [hne] using hy, hne⟩

theorem update_false {due : ι → Bool} {y : ι} (hy : due y = false) : update due x false y = false :=
  Bool.eq_false_iff.2 fun h ↦ by simp [(of_update_false h).1] at hy

/-- What every step keeps. -/
structure Reaper.Ok (s : Reaper ι) (xs : List ι) : Prop where
  linked : s.procs.Linked xs
  once : ∀ x, s.added x = s.called x + s.deleted x + if s.procs.pending x then 1 else 0
  only : ∀ turn ∈ s.turns, turn.pid = turn.reaped ∧ turn.pending = true
  due : ∀ x, s.due x = true → s.procs.pending x = true
  place : s.handling.Place s.procs s.due xs

omit [DecidableEq ι] in
theorem Processes.Linked.member (hl : procs.Linked (pre ++ post)) :
    procs.Member (ListHead.first post) := by
  cases post with
  | nil => exact .inl rfl
  | cons y ys => exact .inr ⟨y, rfl, (hl.mem_iff y).1 (by simp)⟩

omit [DecidableEq ι] in
/-- A process that is added between two nodes of a list in two parts. -/
theorem insert_parts {a b : List ι} (hsplit : pre ++ post = a ++ b) (x : ι) :
    ∃ pre' post', a ++ x :: b = pre' ++ post' ∧ ListHead.first post' = ListHead.first post ∧
      ∀ y ∈ pre', y ∈ pre ∨ y = x := by
  rcases List.append_eq_append_iff.1 hsplit with ⟨c, rfl, rfl⟩ | ⟨c, rfl, rfl⟩
  · cases c with
    | nil => exact ⟨pre ++ [x], b, by simp, by simp, by simp⟩
    | cons z zs => exact ⟨pre, z :: (zs ++ x :: b), by simp, rfl, fun y hy ↦ .inl hy⟩
  · refine ⟨a ++ x :: c, post, by simp, rfl, fun y hy ↦ ?_⟩
    simp only [List.mem_append, List.mem_cons] at hy ⊢
    tauto

omit [DecidableEq ι] in
/-- A process that is taken out of a list in two parts, but not from between them. -/
theorem delete_parts {a b : List ι} (hsplit : pre ++ post = a ++ x :: b)
    (hfirst : ListHead.first post ≠ .node x) :
    ∃ pre' post', a ++ b = pre' ++ post' ∧ ListHead.first post' = ListHead.first post ∧
      ∀ y ∈ pre', y ∈ pre := by
  rcases List.append_eq_append_iff.1 hsplit with ⟨c, rfl, rfl⟩ | ⟨c, rfl, hc⟩
  · cases c with
    | nil => exact absurd rfl hfirst
    | cons z zs => exact ⟨pre, z :: (zs ++ b), by simp, rfl, fun y hy ↦ hy⟩
  · cases c with
    | nil =>
        rw [List.nil_append] at hc
        exact absurd (by rw [← hc]; rfl) hfirst
    | cons z zs =>
        obtain ⟨rfl, rfl⟩ := List.cons_eq_cons.1 hc
        refine ⟨a ++ zs, post, by simp, rfl, fun y hy ↦ ?_⟩
        simp only [List.mem_append, List.mem_cons] at hy ⊢
        tauto

namespace Reaper

theorem Ok.add (hs : s.Ok xs) (hcalling : s.Calling)
    (hadd : s.procs.uloopProcessAdd fuel x pid = some procs) : ∃ xs', (s.add x procs).Ok xs' := by
  cases hx : s.procs.pending x with
  | true =>
      obtain rfl := Processes.uloopProcessAdd_of_pending hx hadd
      refine ⟨xs, hs.linked, fun y ↦ ?_, hs.only, hs.due, hs.place⟩
      simpa [Reaper.add, hx] using hs.once y
  | false =>
      obtain ⟨a, b, rfl, hlinked, hpid, hpending⟩ := hs.linked.add hx hadd
      have hdue : s.due x = false := Bool.eq_false_iff.2 fun h ↦ by simp [hs.due x h] at hx
      have hreaped : ∀ reaped, (∀ y, s.due y = true → s.procs.pid y = reaped) →
          ∀ y, s.due y = true → procs.pid y = reaped := by
        intro reaped h y hy
        have hne : y ≠ x := by
          rintro rfl
          simp [hdue] at hy
        rw [hpid, update_of_ne hne]
        exact h y hy
      refine ⟨a ++ x :: b, hlinked, fun y ↦ ?_, hs.only, fun y hy ↦ ?_, ?_⟩
      · have hy := hs.once y
        by_cases hne : y = x
        · subst hne
          simp only [hx, Bool.false_eq_true, if_false] at hy
          simp [Reaper.add, hx, hpending, hy]
        · simpa [Reaper.add, hx, hpending, hne] using hy
      · change procs.pending y = true
        by_cases hne : y = x
        · simp [hpending, hne]
        · simpa [hpending, hne] using hs.due y hy
      · have hplace := hs.place
        change s.handling.Place procs s.due _
        rcases hcalling with hidle | ⟨reaped, z, tmp, hcallback⟩
        · rw [hidle] at hplace ⊢
          exact hplace
        · rw [hcallback] at hplace ⊢
          obtain ⟨⟨pre, post, hsplit, rfl, hpre⟩, hpids⟩ := hplace
          obtain ⟨pre', post', hsplit', hfirst, hmem⟩ := insert_parts hsplit.symm x
          refine ⟨⟨pre', post', hsplit', hfirst.symm, fun y hy ↦ ?_⟩, hreaped reaped hpids⟩
          rcases hmem y hy with hy | rfl
          · exact hpre y hy
          · exact hdue

theorem Ok.delete (hs : s.Ok xs) (hcalling : s.Calling)
    (hcareful : ∀ reaped z, s.handling ≠ .callback reaped z (.node x)) :
    ∃ xs', (s.delete x).Ok xs' := by
  cases hx : s.procs.pending x with
  | false =>
      have hdue : s.due x = false := Bool.eq_false_iff.2 fun h ↦ by simp [hs.due x h] at hx
      have hsame : s.delete x = s := by
        unfold Reaper.delete
        rw [Processes.uloopProcessDelete_of_not_pending hx, if_neg (by simp [hx]),
          update_eq_self_iff.2 hdue.symm]
      exact ⟨xs, hsame.symm ▸ hs⟩
  | true =>
      obtain ⟨a, b, rfl⟩ := List.append_of_mem ((hs.linked.mem_iff x).2 hx)
      have hlinked := hs.linked.delete
      obtain ⟨hpending, hpid⟩ := Processes.uloopProcessDelete_of_pending hx
      refine ⟨a ++ b, hlinked, fun y ↦ ?_, hs.only, fun y hy ↦ ?_, ?_⟩
      · have hy := hs.once y
        by_cases hne : y = x
        · subst hne
          simp only [hx, if_true] at hy
          simp [Reaper.delete, hx, hpending, hy, Nat.add_assoc]
        · simpa [Reaper.delete, hx, hpending, hne] using hy
      · obtain ⟨hy, hne⟩ := of_update_false hy
        change (s.procs.uloopProcessDelete x).pending y = true
        simpa [hpending, hne] using hs.due y hy
      · have hplace := hs.place
        change s.handling.Place (s.procs.uloopProcessDelete x) (update s.due x false) _
        rcases hcalling with hidle | ⟨reaped, z, tmp, hcallback⟩
        · rw [hidle] at hplace ⊢
          exact fun y ↦ update_false (hplace y)
        · rw [hcallback] at hplace ⊢
          obtain ⟨⟨pre, post, hsplit, rfl, hpre⟩, hpids⟩ := hplace
          have hfirst : ListHead.first post ≠ .node x := fun h ↦ hcareful reaped z (h ▸ hcallback)
          obtain ⟨pre', post', hsplit', hfirst', hmem⟩ := delete_parts hsplit.symm hfirst
          refine ⟨⟨pre', post', hsplit', hfirst'.symm,
            fun y hy ↦ update_false (hpre y (hmem y hy))⟩, fun y hy ↦ ?_⟩
          rw [hpid]
          exact hpids y (of_update_false hy).1

omit [DecidableEq ι] in
theorem Ok.reap (hs : s.Ok xs) (pid : ℤ) : (s.reap pid).Ok xs := by
  refine ⟨hs.linked, hs.once, hs.only, fun x hx ↦ ?_,
    ⟨[], xs, rfl, hs.linked.holds.next_head, rfl, by simp⟩, fun x hx ↦ ?_⟩
  · exact (Bool.and_eq_true_iff.1 hx).1
  · exact of_decide_eq_true (Bool.and_eq_true_iff.1 hx).2

/-- The walk goes on to a link of the list. -/
theorem Ok.advance (hs : s.Ok (pre ++ post)) {reaped : ℤ} (hpre : ∀ x ∈ pre, s.due x = false)
    (hpids : ∀ x, s.due x = true → s.procs.pid x = reaped) :
    Ok { s with handling := s.procs.advance reaped (ListHead.first post) } (pre ++ post) := by
  refine ⟨hs.linked, hs.once, hs.only, hs.due, ?_⟩
  have hnull : ListHead.first post ≠ .null := by cases post <;> simp
  change Handling.Place (s.procs.advance reaped (ListHead.first post)) s.procs s.due _
  rw [Processes.advance, if_neg hnull]
  exact ⟨⟨pre, post, rfl, rfl, rfl, hpre⟩, hpids⟩

/-- The process has its turn. -/
theorem Ok.call (hs : s.Ok (pre ++ x :: post)) {reaped : ℤ} (hpre : ∀ y ∈ pre, s.due y = false)
    (hpids : ∀ y, s.due y = true → s.procs.pid y = reaped) (hreaped : s.procs.pid x = reaped) :
    (s.call reaped x (ListHead.first post)).Ok (pre ++ post) := by
  have hx : s.procs.pending x = true := (hs.linked.mem_iff x).1 (by simp)
  obtain ⟨hpending, hpid⟩ := Processes.uloopProcessDelete_of_pending hx
  refine ⟨hs.linked.delete, fun y ↦ ?_, List.forall_mem_cons.2 ⟨⟨hreaped, hx⟩, hs.only⟩,
    fun y hy ↦ ?_, ⟨pre, post, rfl, rfl, fun y hy ↦ ?_⟩, fun y hy ↦ ?_⟩
  · have hy := hs.once y
    by_cases hne : y = x
    · subst hne
      simp only [hx, if_true] at hy
      simp [Reaper.call, hpending, hy]
      omega
    · simpa [Reaper.call, hpending, hne] using hy
  · obtain ⟨hy, hne⟩ := of_update_false hy
    change (s.procs.uloopProcessDelete x).pending y = true
    simpa [hpending, hne] using hs.due y hy
  · exact update_false (hpre y hy)
  · change (s.procs.uloopProcessDelete x).pid y = reaped
    rw [hpid]
    exact hpids y (of_update_false hy).1

theorem Ok.round (hs : s.Ok xs) {reaped : ℤ} {p tmp : Link ι}
    (hwalk : s.handling = .walk reaped p tmp) :
    ∃ xs', (s.round reaped p tmp).Ok xs' := by
  have hplace := hs.place
  rw [hwalk] at hplace
  obtain ⟨⟨pre, post, rfl, rfl, rfl, hpre⟩, hpids⟩ := hplace
  cases post with
  | nil =>
      refine ⟨pre ++ [], hs.linked, hs.once, hs.only, hs.due,
        fun x ↦ Bool.eq_false_iff.2 fun hx ↦ ?_⟩
      have hmem := (hs.linked.mem_iff x).2 (hs.due x hx)
      rw [List.append_nil] at hmem
      change s.due x = true at hx
      simp [hpre x hmem] at hx
  | cons y ys =>
      rw [ListHead.first_cons, hs.linked.holds.node.1]
      simp only [Reaper.round]
      split_ifs with hlt hgt
      · have happend : pre ++ y :: ys = (pre ++ [y]) ++ ys := by simp
        rw [happend] at hs
        refine ⟨_, hs.advance (fun x hx ↦ ?_) hpids⟩
        rcases List.mem_append.1 hx with hx | hx
        · exact hpre x hx
        · obtain rfl := List.mem_singleton.1 hx
          exact Bool.eq_false_iff.2 fun hx ↦ by
            have := hpids x hx
            omega
      · refine ⟨pre ++ y :: ys, hs.linked, hs.once, hs.only, hs.due,
          fun x ↦ Bool.eq_false_iff.2 fun hx ↦ ?_⟩
        have hpid := hpids x hx
        rcases List.mem_append.1 ((hs.linked.mem_iff x).2 (hs.due x hx)) with hmem | hmem
        · change s.due x = true at hx
          simp [hpre x hmem] at hx
        · rcases List.mem_cons.1 hmem with rfl | hmem
          · omega
          · have hle := (List.pairwise_cons.1 (List.pairwise_append.1 hs.linked.sorted).2.1).1 x
              hmem
            omega
      · exact ⟨_, hs.call hpre hpids (le_antisymm (not_lt.1 hgt) (not_lt.1 hlt))⟩

theorem Ok.step {a : ProcAct ι} (hs : s.Ok xs) (hstep : s.CarefulStep a s') : ∃ xs', s'.Ok xs' := by
  obtain ⟨hstep, hcareful⟩ := hstep
  cases hstep with
  | add hcalling hadd => exact hs.add hcalling hadd
  | delete hcalling => exact hs.delete hcalling fun reaped z h ↦ hcareful reaped z _ h rfl
  | reap _ => exact ⟨xs, hs.reap _⟩
  | round hwalk => exact hs.round hwalk
  | callbackReturns hcallback =>
      have hplace := hs.place
      rw [hcallback] at hplace
      obtain ⟨⟨pre, post, rfl, rfl, hpre⟩, hpids⟩ := hplace
      exact ⟨_, hs.advance hpre hpids⟩

theorem Ok.delivers (hs : s.Ok xs) : s.Delivers := by
  have hplace := hs.place
  refine ⟨⟨xs, hs.linked⟩, hs.once, hs.only, fun hidle ↦ ?_, fun reaped p tmp hwalk ↦ ?_,
    fun reaped x tmp hcallback ↦ ?_, fun hfault ↦ ?_, hs.linked.adds⟩
  · rw [hidle] at hplace
    exact hplace
  · rw [hwalk] at hplace
    obtain ⟨⟨pre, post, rfl, rfl, rfl, -⟩, -⟩ := hplace
    refine ⟨hs.linked.member, ?_⟩
    cases post with
    | nil =>
        rw [ListHead.first_nil, hs.linked.holds.next_head]
        exact @Processes.Linked.member _ s.procs [] _ hs.linked
    | cons y ys =>
        rw [ListHead.first_cons, hs.linked.holds.node.1]
        have happend : pre ++ y :: ys = (pre ++ [y]) ++ ys := by simp
        exact @Processes.Linked.member _ s.procs (pre ++ [y]) ys (happend ▸ hs.linked)
  · rw [hcallback] at hplace
    obtain ⟨⟨pre, post, rfl, rfl, -⟩, -⟩ := hplace
    exact hs.linked.member
  · rw [hfault] at hplace
    exact hplace

end Reaper

/-- In a run whose callbacks leave the next process of the walk alone, every exit that is reaped is
delivered. -/
theorem processes_delivered {processes : ListHead ι} {pids : ι → ℤ} {acts : List (ProcAct ι)}
    (hempty : processes.next .head = .head ∧ processes.prev .head = .head)
    (hrun : Run Reaper.CarefulStep { procs := ⟨processes, pids, fun _ ↦ false⟩ } acts s) :
    s.Delivers := by
  have hstart : Reaper.Ok { procs := ⟨processes, pids, fun _ ↦ false⟩ } ([] : List ι) :=
    ⟨⟨⟨.nil hempty.1, hempty.2⟩, List.Pairwise.nil, by simp⟩, by simp, by simp, by simp,
      fun _ ↦ rfl⟩
  have hok : ∃ xs, s.Ok xs := by
    refine hrun.invariant (I := fun s ↦ ∃ xs, s.Ok xs) ?_ ⟨[], hstart⟩
    rintro s a s' ⟨xs, hs⟩ hstep
    exact hs.step hstep
  obtain ⟨xs, hs⟩ := hok
  exact hs.delivers

/-- The processes 0 and 1 with the pids 5 and 7; the first of them exits. -/
def exitsOf : List (ProcAct ℕ) := [.add 0 5, .add 1 7, .reap 5, .round]

/-- The callback adds the process again with the pid 6. -/
theorem processes_delivered_again : ∃ s : Reaper ℕ, s.called 0 = 1 ∧ s.Delivers := by
  have hrun : ∃ s : Reaper ℕ, s.called 0 = 1 ∧ Run Reaper.CarefulStep
      { procs := ⟨⟨fun _ ↦ .head, fun _ ↦ .head⟩, fun _ ↦ 0, fun _ ↦ false⟩ }
      (exitsOf ++ [.add 0 6, .callbackReturns, .round]) s := by
    refine ⟨_, ?_, .cons ⟨@Reaper.Step.add _ _ _ 0 5 3 _ (.inl rfl) rfl, by simp⟩
      (.cons ⟨@Reaper.Step.add _ _ _ 1 7 3 _ (.inl rfl) rfl, by simp⟩
        (.cons ⟨.reap rfl, by simp⟩ (.cons ⟨.round rfl, by simp⟩
          (.cons ⟨@Reaper.Step.add _ _ _ 0 6 3 _ (.inr ⟨_, _, _, rfl⟩) rfl, by simp⟩
            (.cons ⟨.callbackReturns rfl, by simp⟩ (.cons ⟨.round rfl, by simp⟩ (.nil _)))))))⟩
    rfl
  obtain ⟨s, hcalled, hrun⟩ := hrun
  exact ⟨s, hcalled, processes_delivered ⟨rfl, rfl⟩ hrun⟩

/-- Two processes with the pid 5, and the callback of the first deletes the second: it is called
although it is not registered, and the walk follows its link. -/
theorem not_processes_delivered : ∃ s : Reaper ℕ, Run Reaper.Step
    { procs := ⟨⟨fun _ ↦ .head, fun _ ↦ .head⟩, fun _ ↦ 0, fun _ ↦ false⟩ }
    [.add 0 5, .add 1 5, .reap 5, .round, .delete 1, .callbackReturns, .round, .callbackReturns] s ∧
      s.called 1 = 1 ∧ ¬ s.Delivers := by
  refine ⟨_, .cons (@Reaper.Step.add _ _ _ 0 5 3 _ (.inl rfl) rfl)
      (.cons (@Reaper.Step.add _ _ _ 1 5 3 _ (.inl rfl) rfl) (.cons (.reap rfl) (.cons (.round rfl)
        (.cons (.delete (.inr ⟨_, _, _, rfl⟩)) (.cons (.callbackReturns rfl) (.cons (.round rfl)
          (.cons (.callbackReturns rfl) (.nil _)))))))), rfl, fun hs ↦ ?_⟩
  exact hs.no_fault rfl

end

end MiniPi.Uloop
