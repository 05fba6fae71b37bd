import MiniPi.Lib.Run
import Mathlib.Data.Int.Notation
import Mathlib.Data.List.Nodup
import Mathlib.Logic.Function.Basic
import Mathlib.Tactic.Linarith

/-!
# The run queue

`runqueue.c`: tasks that wait, tasks that run, and one timer that starts the next tasks or reports
that the queue is empty.  The tasks are named by a type `τ`.  A `run` callback may complete its own
task; the other callbacks do not call back into the queue, so nothing is left of them.
-/

universe u

namespace MiniPi.Runqueue

open Lib Function

/-- `struct runqueue_task`, without its links and its callbacks.  `run` says that `type->run` is
there. -/
structure Task where
  run : Bool
  runTimeout : ℤ
  cancelTimeout : ℤ
  timeout : Bool
  queued : Bool
  running : Bool
  cancelled : Bool

/-- What the timer of the queue calls. -/
inductive QueueCb
  | startNext | emptyCb
deriving DecidableEq

/-- `struct runqueue`, with the tasks.  `emptyCb` says that there is a callback. -/
structure Queue (τ : Type u) where
  task : τ → Task
  tasksActive : List τ
  tasksInactive : List τ
  timeout : Bool
  timeoutCb : Option QueueCb
  runningTasks : ℤ
  maxRunningTasks : ℤ
  stopped : Bool
  empty : Bool
  emptyCb : Bool

namespace Queue

variable {τ : Type u} [DecidableEq τ]

/-! ## The functions -/

def setTask (q : Queue τ) (t : τ) (v : Task) : Queue τ := { q with task := update q.task t v }

/-- `max_running_tasks` does not let another task start. -/
def Full (q : Queue τ) : Prop := q.maxRunningTasks ≠ 0 ∧ q.maxRunningTasks ≤ q.runningTasks

instance (q : Queue τ) : Decidable q.Full := inferInstanceAs (Decidable (_ ∧ _))

/-- `runqueue_start_next`. -/
def runqueueStartNext (q : Queue τ) : Queue τ :=
  if q.empty then q else { q with timeoutCb := some .startNext, timeout := true }

/-- The part of `runqueue_task_complete` before `runqueue_start_next`.  `safe_list_del` takes the
task out of the list it is in. -/
def finish (t : τ) (q : Queue τ) : Queue τ :=
  let q := if (q.task t).running then { q with runningTasks := q.runningTasks - 1 } else q
  let q := { q with tasksActive := q.tasksActive.erase t, tasksInactive := q.tasksInactive.erase t }
  q.setTask t { q.task t with
    timeout := false, queued := false, running := false, cancelled := false }

/-- `runqueue_task_complete`. -/
def runqueueTaskComplete (t : τ) (q : Queue τ) : Queue τ :=
  if (q.task t).queued then (q.finish t).runqueueStartNext else q

/-- The part of a round of `__runqueue_start_next` before the `run` callback. -/
def start (t : τ) (q : Queue τ) : Queue τ :=
  let q := { q with tasksInactive := q.tasksInactive.erase t, tasksActive := q.tasksActive ++ [t] }
  let q := q.setTask t
    { q.task t with running := true, timeout := (q.task t).runTimeout ≠ 0 || (q.task t).timeout }
  { q with runningTasks := q.runningTasks + 1 }

/-- The loop of `__runqueue_start_next`; `completes` says which tasks their `run` callback
completes. -/
def startLoop (completes : τ → Bool) : ℕ → Queue τ → Queue τ
  | 0, q => q
  | fuel + 1, q =>
      if q.stopped then q
      else
        match q.tasksInactive with
        | [] => q
        | t :: _ =>
            if q.Full then q
            else
              let q := q.start t
              startLoop completes fuel (if completes t then q.runqueueTaskComplete t else q)

/-- `__runqueue_start_next`: every round takes a task from the waiting ones. -/
def startNext (completes : τ → Bool) (q : Queue τ) : Queue τ :=
  let q := startLoop completes q.tasksInactive.length q
  if !q.empty && q.tasksActive.isEmpty && q.tasksInactive.isEmpty then
    let q := { q with empty := true }
    if q.emptyCb then { q with timeoutCb := some .emptyCb, timeout := true } else q
  else q

/-- `runqueue_task_cancel`. -/
def runqueueTaskCancel (t : τ) (q : Queue τ) : Queue τ :=
  if !(q.task t).queued then q
  else if !(q.task t).running then q.runqueueTaskComplete t
  else q.setTask t
    { q.task t with
      cancelled := true, timeout := (q.task t).cancelTimeout ≠ 0 || (q.task t).timeout }

/-- `runqueue_task_kill`. -/
def runqueueTaskKill (t : τ) (q : Queue τ) : Queue τ :=
  if (q.task t).queued then (q.runqueueTaskComplete t).runqueueStartNext else q

/-- `__runqueue_task_timeout`. -/
def taskTimeout (t : τ) (q : Queue τ) : Queue τ :=
  if (q.task t).cancelled then q.runqueueTaskKill t else q.runqueueTaskCancel t

/-- The part of `_runqueue_task_add` in which the task is put into its list. -/
def link (t : τ) (running first : Bool) (q : Queue τ) : Queue τ :=
  let q :=
    if running then
      { q with
        runningTasks := q.runningTasks + 1
        tasksActive := if first then t :: q.tasksActive else q.tasksActive ++ [t] }
    else { q with tasksInactive := if first then t :: q.tasksInactive else q.tasksInactive ++ [t] }
  let q := q.setTask t { q.task t with cancelled := false, queued := true, running }
  { q with empty := false }

/-- `_runqueue_task_add`. -/
def runqueueTaskAdd (t : τ) (running first : Bool) (q : Queue τ) : Queue τ :=
  if (q.task t).queued then q
  else if !(q.task t).run && !running then q
  else (q.link t running first).runqueueStartNext

/-- `runqueue_cancel_pending`: the callback takes each task out of the list in its turn. -/
def runqueueCancelPending (q : Queue τ) : Queue τ :=
  q.tasksInactive.foldl (fun q t ↦ q.runqueueTaskCancel t) q

/-- `runqueue_cancel_active`. -/
def runqueueCancelActive (q : Queue τ) : Queue τ :=
  q.tasksActive.foldl (fun q t ↦ q.runqueueTaskCancel t) q

/-- `runqueue_cancel`. -/
def runqueueCancel (q : Queue τ) : Queue τ := q.runqueueCancelPending.runqueueCancelActive

/-- The loop of `runqueue_kill`. -/
def killLoop : ℕ → Queue τ → Queue τ
  | 0, q => q
  | fuel + 1, q =>
      match q.tasksActive with
      | [] => q
      | t :: _ => killLoop fuel (q.runqueueTaskKill t)

/-- `runqueue_kill`: every round takes a task from the running ones. -/
def runqueueKill (q : Queue τ) : Queue τ :=
  { (killLoop q.tasksActive.length q).runqueueCancelPending with timeout := false }

/-- `runqueue_stop`. -/
def runqueueStop (q : Queue τ) : Queue τ := { q with stopped := true }

/-- `runqueue_resume`. -/
def runqueueResume (q : Queue τ) : Queue τ := runqueueStartNext { q with stopped := false }

/-- The timer of the queue fires: it is no longer pending, and its callback runs. -/
def fire (completes : τ → Bool) (q : Queue τ) : Queue τ :=
  let q := { q with timeout := false }
  if q.timeoutCb = some .startNext then q.startNext completes else q

/-- The timer of a task fires. -/
def fireTask (t : τ) (q : Queue τ) :
    Queue τ := (q.setTask t { q.task t with timeout := false }).taskTimeout t

end Queue

/-- The calls, and the firing of the timers. -/
inductive Event (τ : Type u)
  | taskAdd (t : τ) (running first : Bool)
  | taskComplete (t : τ)
  | taskCancel (t : τ)
  | taskKill (t : τ)
  | cancel | kill | stop | resume
  | fire (completes : τ → Bool)
  | fireTask (t : τ)

section

variable {τ : Type u} [DecidableEq τ]

/-- A timer fires only when it is pending. -/
inductive Step : Queue τ → Event τ → Queue τ → Prop
  | taskAdd {q : Queue τ} (t : τ) (running first : Bool) :
      Step q (.taskAdd t running first) (q.runqueueTaskAdd t running first)
  | taskComplete {q : Queue τ} (t : τ) : Step q (.taskComplete t) (q.runqueueTaskComplete t)
  | taskCancel {q : Queue τ} (t : τ) : Step q (.taskCancel t) (q.runqueueTaskCancel t)
  | taskKill {q : Queue τ} (t : τ) : Step q (.taskKill t) (q.runqueueTaskKill t)
  | cancel {q : Queue τ} : Step q .cancel q.runqueueCancel
  | kill {q : Queue τ} : Step q .kill q.runqueueKill
  | stop {q : Queue τ} : Step q .stop q.runqueueStop
  | resume {q : Queue τ} : Step q .resume q.runqueueResume
  | fire {q : Queue τ} (completes : τ → Bool) :
      q.timeout = true → Step q (.fire completes) (q.fire completes)
  | fireTask {q : Queue τ} (t : τ) : (q.task t).timeout = true → Step q (.fireTask t) (q.fireTask t)

/-! ## The invariant -/

/-- The tasks are where their flags say. -/
structure Queue.Filed (q : Queue τ) : Prop where
  activeNodup : q.tasksActive.Nodup
  inactiveNodup : q.tasksInactive.Nodup
  active : ∀ t, t ∈ q.tasksActive ↔ (q.task t).queued = true ∧ (q.task t).running = true
  inactive : ∀ t, t ∈ q.tasksInactive ↔ (q.task t).queued = true ∧ (q.task t).running = false
  count : q.runningTasks = q.tasksActive.length
  empty : q.empty = true → q.tasksActive = [] ∧ q.tasksInactive = []

/-- Tasks that could be started are. -/
def Queue.Awake (q : Queue τ) : Prop :=
  q.stopped = false → q.tasksInactive ≠ [] → ¬ q.Full →
    q.timeout = true ∧ q.timeoutCb = some .startNext

namespace Queue

variable {q : Queue τ} {t : τ}

omit [DecidableEq τ] in
theorem Filed.not_mem_active (hq : q.Filed) (ht : t ∈ q.tasksInactive) : t ∉ q.tasksActive := by
  rw [hq.active, ((hq.inactive t).1 ht).2]
  simp

/-! ## The timer of the queue -/

omit [DecidableEq τ] in
theorem Filed.startNext (hq : q.Filed) : q.runqueueStartNext.Filed := by
  unfold runqueueStartNext
  split_ifs
  · exact hq
  · exact ⟨hq.activeNodup, hq.inactiveNodup, hq.active, hq.inactive, hq.count, hq.empty⟩

omit [DecidableEq τ] in
theorem Filed.awake_startNext (hq : q.Filed) : q.runqueueStartNext.Awake := by
  unfold runqueueStartNext
  split_ifs with hempty
  · intro _ hne _
    exact absurd (hq.empty hempty).2 hne
  · intro _ _ _
    exact ⟨rfl, rfl⟩

/-! ## A task ends -/

theorem finish_lists (t : τ) :
    (q.finish t).tasksActive = q.tasksActive.erase t ∧
    (q.finish t).tasksInactive = q.tasksInactive.erase t ∧
      (q.finish t).empty = q.empty := by
  unfold finish
  split_ifs <;> exact ⟨rfl, rfl, rfl⟩

theorem finish_task (t u : τ) :
    (((q.finish t).task u).queued = true ↔ u ≠ t ∧ (q.task u).queued = true) ∧
      ((q.finish t).task u).running = if u = t then false else (q.task u).running := by
  unfold finish
  by_cases hu : u = t
  · split_ifs <;> simp [setTask, hu]
  · split_ifs <;> simp [setTask, hu]

theorem Filed.finish (hq : q.Filed) (hqueued : (q.task t).queued = true) : (q.finish t).Filed := by
  obtain ⟨hactive, hinactive, hempty⟩ := @finish_lists τ _ q t
  constructor
  · rw [hactive]
    exact hq.activeNodup.erase t
  · rw [hinactive]
    exact hq.inactiveNodup.erase t
  · intro u
    rw [hactive, hq.activeNodup.mem_erase_iff, hq.active, (finish_task t u).1, (finish_task t u).2]
    by_cases hu : u = t <;> simp [hu]
  · intro u
    rw [hinactive, hq.inactiveNodup.mem_erase_iff, hq.inactive, (finish_task t u).1,
      (finish_task t u).2]
    by_cases hu : u = t <;> simp [hu]
  · rw [hactive]
    unfold Queue.finish
    by_cases hrunning : (q.task t).running = true
    · have hmem : t ∈ q.tasksActive := (hq.active t).2 ⟨hqueued, hrunning⟩
      have hlen : 0 < q.tasksActive.length := List.length_pos_of_mem hmem
      rw [if_pos hrunning, List.length_erase_of_mem hmem]
      change q.runningTasks - 1 = _
      rw [hq.count]
      omega
    · have hmem : t ∉ q.tasksActive := fun ht ↦ hrunning ((hq.active t).1 ht).2
      rw [if_neg hrunning, List.erase_of_not_mem hmem]
      exact hq.count
  · rw [hactive, hinactive, hempty]
    intro h
    rw [(hq.empty h).1, (hq.empty h).2]
    exact ⟨rfl, rfl⟩

theorem Filed.complete (hq : q.Filed) (t : τ) : (q.runqueueTaskComplete t).Filed := by
  unfold runqueueTaskComplete
  split_ifs with hqueued
  · exact (hq.finish hqueued).startNext
  · exact hq

theorem Filed.awake_complete (hq : q.Filed) (hawake : q.Awake) (t : τ) :
    (q.runqueueTaskComplete t).Awake := by
  unfold runqueueTaskComplete
  split_ifs with hqueued
  · exact (hq.finish hqueued).awake_startNext
  · exact hawake

theorem inactive_complete (t : τ) :
    (q.runqueueTaskComplete t).tasksInactive =
      if (q.task t).queued then q.tasksInactive.erase t else q.tasksInactive := by
  unfold runqueueTaskComplete runqueueStartNext
  split_ifs
  · exact (finish_lists t).2.1
  · exact (finish_lists t).2.1
  · rfl

/-! ## Tasks are started -/

theorem Filed.start (hq : q.Filed) (ht : t ∈ q.tasksInactive) : (q.start t).Filed := by
  have hnot := hq.not_mem_active ht
  obtain ⟨hqueued, hrunning⟩ := (hq.inactive t).1 ht
  constructor
  · change (q.tasksActive ++ [t]).Nodup
    rw [List.nodup_append]
    exact ⟨hq.activeNodup, List.nodup_singleton t, by
      intro a ha b hb
      obtain rfl := List.mem_singleton.1 hb
      exact fun heq ↦ hnot (heq ▸ ha)⟩
  · exact hq.inactiveNodup.erase t
  · intro u
    change u ∈ q.tasksActive ++ [t] ↔ _
    rw [List.mem_append, List.mem_singleton, hq.active]
    by_cases hu : u = t
    · simp [Queue.start, setTask, hu, hqueued]
    · simp [Queue.start, setTask, hu]
  · intro u
    change u ∈ q.tasksInactive.erase t ↔ _
    rw [hq.inactiveNodup.mem_erase_iff, hq.inactive]
    by_cases hu : u = t <;> simp [Queue.start, setTask, hu]
  · change q.runningTasks + 1 = ((q.tasksActive ++ [t]).length : ℤ)
    rw [List.length_append, hq.count]
    rfl
  · intro hempty
    rw [(hq.empty hempty).2] at ht
    exact absurd ht List.not_mem_nil

/-- The loop stops where no further task can be started. -/
theorem Filed.startLoop (hq : q.Filed) {fuel : ℕ} (completes : τ → Bool)
    (hfuel : q.tasksInactive.length ≤ fuel) :
    (startLoop completes fuel q).Filed ∧
      ((startLoop completes fuel q).stopped = true ∨
        (startLoop completes fuel q).tasksInactive = [] ∨
        (startLoop completes fuel q).Full) := by
  induction fuel generalizing q with
  | zero => exact ⟨hq, .inr (.inl (List.length_eq_zero_iff.1 (Nat.le_zero.1 hfuel)))⟩
  | succ fuel ih =>
      rw [Queue.startLoop]
      by_cases hstopped : q.stopped = true
      · rw [if_pos hstopped]
        exact ⟨hq, .inl hstopped⟩
      rw [if_neg hstopped]
      cases hlist : q.tasksInactive with
      | nil => exact ⟨hq, .inr (.inl hlist)⟩
      | cons t rest =>
          simp only
          by_cases hfull : q.Full
          · rw [if_pos hfull]
            exact ⟨hq, .inr (.inr hfull)⟩
          rw [if_neg hfull]
          split_ifs with hcompletes
          · have ht : t ∈ q.tasksInactive := by simp [hlist]
            apply ih ((hq.start ht).complete t)
            rw [inactive_complete]
            have hlen : (q.start t).tasksInactive.length ≤ fuel := by
              change (q.tasksInactive.erase t).length ≤ fuel
              rw [List.length_erase_of_mem ht]
              omega
            split_ifs
            · exact (List.length_erase_le ..).trans hlen
            · exact hlen
          · have ht : t ∈ q.tasksInactive := by simp [hlist]
            apply ih (hq.start ht)
            change (q.tasksInactive.erase t).length ≤ fuel
            rw [List.length_erase_of_mem ht]
            omega

theorem Filed.startNextTasks (hq : q.Filed) (completes : τ → Bool) :
    (q.startNext completes).Filed ∧ (q.startNext completes).Awake := by
  obtain ⟨hloop, hstop⟩ := hq.startLoop completes (Nat.le_refl _)
  unfold Queue.startNext
  simp only
  generalize Queue.startLoop completes q.tasksInactive.length q = q' at hloop hstop ⊢
  by_cases hempty : (!q'.empty && q'.tasksActive.isEmpty && q'.tasksInactive.isEmpty) = true
  · rw [if_pos hempty]
    have hnil : q'.tasksActive = [] ∧ q'.tasksInactive = [] := by
      simpa [List.isEmpty_iff, and_assoc] using (Bool.and_eq_true_iff.1 hempty).imp_left
        (fun h ↦ (Bool.and_eq_true_iff.1 h).2)
    have hfiled : Filed { q' with empty := true } :=
      ⟨hloop.activeNodup, hloop.inactiveNodup, hloop.active, hloop.inactive, hloop.count,
        fun _ ↦ hnil⟩
    split_ifs
    · exact ⟨⟨hfiled.activeNodup, hfiled.inactiveNodup, hfiled.active, hfiled.inactive,
        hfiled.count, hfiled.empty⟩, fun _ hne ↦ absurd hnil.2 hne⟩
    · exact ⟨hfiled, fun _ hne ↦ absurd hnil.2 hne⟩
  · rw [if_neg hempty]
    refine ⟨hloop, fun hstopped hne hfull ↦ ?_⟩
    rcases hstop with h | h | h
    · simp [hstopped] at h
    · exact absurd h hne
    · exact absurd h hfull

/-! ## The other calls -/

theorem Filed.setTask (hq : q.Filed) {v : Task} (hqueued : v.queued = (q.task t).queued)
    (hrunning : v.running = (q.task t).running) : (q.setTask t v).Filed := by
  constructor
  · exact hq.activeNodup
  · exact hq.inactiveNodup
  · intro u
    change u ∈ q.tasksActive ↔ _
    by_cases hu : u = t <;> simp [Queue.setTask, hu, hqueued, hrunning, hq.active]
  · intro u
    change u ∈ q.tasksInactive ↔ _
    by_cases hu : u = t <;> simp [Queue.setTask, hu, hqueued, hrunning, hq.inactive]
  · exact hq.count
  · exact hq.empty

/-- The tasks are filed, and those that could run do. -/
def Kept (q : Queue τ) : Prop := q.Filed ∧ q.Awake

theorem Kept.complete (hq : q.Kept) (t : τ) : (q.runqueueTaskComplete t).Kept :=
  ⟨hq.1.complete t, hq.1.awake_complete hq.2 t⟩

omit [DecidableEq τ] in
theorem Kept.startNext (hq : q.Filed) : q.runqueueStartNext.Kept :=
  ⟨hq.startNext, hq.awake_startNext⟩

theorem Kept.cancelTask (hq : q.Kept) (t : τ) : (q.runqueueTaskCancel t).Kept := by
  unfold runqueueTaskCancel
  split_ifs
  · exact hq
  · exact hq.complete t
  · exact ⟨hq.1.setTask rfl rfl, hq.2⟩

theorem Kept.killTask (hq : q.Kept) (t : τ) : (q.runqueueTaskKill t).Kept := by
  unfold runqueueTaskKill
  split_ifs
  · exact Kept.startNext (hq.1.complete t)
  · exact hq

theorem Kept.fold (hq : q.Kept) (ts : List τ) :
    (ts.foldl (fun q t ↦ q.runqueueTaskCancel t) q).Kept := by
  induction ts generalizing q with
  | nil => exact hq
  | cons t ts ih => exact ih (hq.cancelTask t)

theorem Kept.killLoop (hq : q.Kept) (fuel : ℕ) : (killLoop fuel q).Kept := by
  induction fuel generalizing q with
  | zero => exact hq
  | succ fuel ih =>
      rw [Queue.killLoop]
      cases q.tasksActive with
      | nil => exact hq
      | cons t rest => exact ih (hq.killTask t)

theorem Filed.add (hq : q.Filed) (hqueued : (q.task t).queued = false) (running first : Bool) :
    (q.link t running first).Filed := by
  have hactive : t ∉ q.tasksActive := by simp [hq.active, hqueued]
  have hinactive : t ∉ q.tasksInactive := by simp [hq.inactive, hqueued]
  have hfront : ∀ l : List τ, l.Nodup → t ∉ l → (if first then t :: l else l ++ [t]).Nodup := by
    intro l hl ht
    split_ifs
    · exact List.nodup_cons.2 ⟨ht, hl⟩
    · refine List.nodup_append.2 ⟨hl, List.nodup_singleton t, ?_⟩
      intro a ha b hb
      obtain rfl := List.mem_singleton.1 hb
      exact fun heq ↦ ht (heq ▸ ha)
  have hmem : ∀ (l : List τ) (u : τ), u ∈ (if first then t :: l else l ++ [t]) ↔ u = t ∨ u ∈ l := by
    intro l u
    split_ifs <;> simp [or_comm]
  cases running with
  | true =>
      constructor
      · exact hfront _ hq.activeNodup hactive
      · exact hq.inactiveNodup
      · intro u
        change u ∈ (if first then t :: q.tasksActive else q.tasksActive ++ [t]) ↔ _
        rw [hmem, hq.active]
        by_cases hu : u = t <;> simp [link, Queue.setTask, hu]
      · intro u
        change u ∈ q.tasksInactive ↔ _
        rw [hq.inactive]
        by_cases hu : u = t <;> simp [link, Queue.setTask, hu, hqueued]
      · change q.runningTasks + 1 =
          ((if first then t :: q.tasksActive else q.tasksActive ++ [t]).length : ℤ)
        rw [hq.count]
        split_ifs <;> simp
      · exact fun h ↦ absurd h (by simp [link, Queue.setTask])
  | false =>
      constructor
      · exact hq.activeNodup
      · exact hfront _ hq.inactiveNodup hinactive
      · intro u
        change u ∈ q.tasksActive ↔ _
        rw [hq.active]
        by_cases hu : u = t <;> simp [link, Queue.setTask, hu, hqueued]
      · intro u
        change u ∈ (if first then t :: q.tasksInactive else q.tasksInactive ++ [t]) ↔ _
        rw [hmem, hq.inactive]
        by_cases hu : u = t <;> simp [link, Queue.setTask, hu]
      · exact hq.count
      · exact fun h ↦ absurd h (by simp [link, Queue.setTask])

theorem Kept.add (hq : q.Kept) (t : τ) (running first : Bool) :
    (q.runqueueTaskAdd t running first).Kept := by
  unfold runqueueTaskAdd
  split_ifs with hqueued hrun
  · exact hq
  · exact hq
  · exact Kept.startNext (hq.1.add (by simpa using hqueued) running first)

theorem inactive_cancel (t : τ) (ht : t ∈ q.tasksInactive) (hq : q.Filed) :
    (q.runqueueTaskCancel t).tasksInactive = q.tasksInactive.erase t := by
  obtain ⟨hqueued, hrunning⟩ := (hq.inactive t).1 ht
  unfold runqueueTaskCancel
  simp [hqueued, hrunning, inactive_complete]

/-- `runqueue_cancel_pending` leaves no task that waits. -/
theorem Kept.inactive_cancelPending (hq : q.Kept) (ts : List τ) (hts : q.tasksInactive = ts) :
    (ts.foldl (fun q t ↦ q.runqueueTaskCancel t) q).tasksInactive = [] := by
  induction ts generalizing q with
  | nil => exact hts
  | cons t ts ih =>
      apply ih (hq.cancelTask t)
      rw [inactive_cancel t (by simp [hts]) hq.1, hts, List.erase_cons_head]

theorem Kept.kill (hq : q.Kept) : q.runqueueKill.Kept := by
  have hloop := hq.killLoop q.tasksActive.length
  have hend : (Queue.killLoop q.tasksActive.length q).runqueueCancelPending.Kept := hloop.fold _
  have hnil : (Queue.killLoop q.tasksActive.length q).runqueueCancelPending.tasksInactive = [] :=
    hloop.inactive_cancelPending _ rfl
  refine ⟨⟨hend.1.activeNodup, hend.1.inactiveNodup, hend.1.active, hend.1.inactive, hend.1.count,
    hend.1.empty⟩, ?_⟩
  intro _ hne
  exact absurd hnil hne

theorem Kept.fire (hq : q.Kept) (completes : τ → Bool) : (q.fire completes).Kept := by
  have hfiled : Filed { q with timeout := false } :=
    ⟨hq.1.activeNodup, hq.1.inactiveNodup, hq.1.active, hq.1.inactive, hq.1.count, hq.1.empty⟩
  unfold Queue.fire
  simp only
  split_ifs with hcb
  · exact hfiled.startNextTasks completes
  · refine ⟨hfiled, fun hstopped hne hfull ↦ ?_⟩
    exact absurd (hq.2 hstopped hne hfull).2 hcb

theorem Kept.fireTask (hq : q.Kept) (t : τ) : (q.fireTask t).Kept := by
  have hkept : (q.setTask t { q.task t with timeout := false }).Kept := ⟨hq.1.setTask rfl rfl, hq.2⟩
  unfold Queue.fireTask taskTimeout
  split_ifs
  · exact hkept.killTask t
  · exact hkept.cancelTask t

end Queue

/-! ## Runs -/

theorem Step.kept {q q' : Queue τ} {e : Event τ} (hq : q.Kept) (hstep : Step q e q') : q'.Kept := by
  cases hstep with
  | taskAdd t running first => exact hq.add t running first
  | taskComplete t => exact hq.complete t
  | taskCancel t => exact hq.cancelTask t
  | taskKill t => exact hq.killTask t
  | cancel => exact (hq.fold _).fold _
  | kill => exact hq.kill
  | stop =>
      refine ⟨?_, fun h ↦ absurd h (by simp [Queue.runqueueStop])⟩
      exact ⟨hq.1.activeNodup, hq.1.inactiveNodup, hq.1.active, hq.1.inactive, hq.1.count,
        hq.1.empty⟩
  | resume =>
      apply Queue.Kept.startNext
      exact ⟨hq.1.activeNodup, hq.1.inactiveNodup, hq.1.active, hq.1.inactive, hq.1.count,
        hq.1.empty⟩
  | fire completes _ => exact hq.fire completes
  | fireTask t _ => exact hq.fireTask t

/-- A queue as `runqueue_init` leaves it, with no task in it. -/
structure Queue.Fresh (q : Queue τ) : Prop where
  active : q.tasksActive = []
  inactive : q.tasksInactive = []
  running : q.runningTasks = 0
  queued : ∀ t, (q.task t).queued = false

/-- After any calls and timers, no task is lost: each is counted and filed by its flags, and where
one could be started, the timer is set to start it. -/
theorem runqueue_keeps {q q' : Queue τ} {es : List (Event τ)} (hq : q.Fresh)
    (hrun : Run Step q es q') :
    q'.runningTasks = q'.tasksActive.length ∧ q'.tasksActive.Nodup ∧ q'.tasksInactive.Nodup ∧
      (∀ t, (t ∈ q'.tasksActive ↔ (q'.task t).queued = true ∧ (q'.task t).running = true) ∧
        (t ∈ q'.tasksInactive ↔ (q'.task t).queued = true ∧ (q'.task t).running = false)) ∧
      (q'.stopped = false → q'.tasksInactive ≠ [] →
        q'.maxRunningTasks = 0 ∨ q'.runningTasks < q'.maxRunningTasks →
        q'.timeout = true ∧ q'.timeoutCb = some .startNext) := by
  have hkept : q'.Kept := by
    refine hrun.invariant (I := Queue.Kept) (fun _ _ _ hs hstep ↦ hstep.kept hs) ⟨?_, ?_⟩
    · exact ⟨by simp [hq.active], by simp [hq.inactive], by simp [hq.active, hq.queued],
        by simp [hq.inactive, hq.queued], by simp [hq.active, hq.running], fun _ ↦
          ⟨hq.active, hq.inactive⟩⟩
    · exact fun _ hne ↦ absurd hq.inactive hne
  obtain ⟨hfiled, hawake⟩ := hkept
  refine ⟨hfiled.count, hfiled.activeNodup, hfiled.inactiveNodup,
    fun t ↦ ⟨hfiled.active t, hfiled.inactive t⟩, ?_⟩
  intro hstopped hne hmax
  apply hawake hstopped hne
  rintro ⟨hzero, hle⟩
  rcases hmax with h | h
  · exact hzero h
  · exact absurd h (not_lt.2 hle)

/-- Two tasks in a queue that runs one at a time: the first one is started and completes, and the
timer of the queue is set for the second one. -/
theorem runqueue_keeps_two :
    let q : Queue ℕ :=
      ⟨fun _ ↦ ⟨true, 0, 0, false, false, false, false⟩, [], [], false, none, 0, 1, false,
      false, false⟩
    let started := ((q.runqueueTaskAdd 1 false false).runqueueTaskAdd 2 false false).fire fun _ ↦
      false
    started.tasksActive = [1] ∧ started.runningTasks = 1 ∧
      (started.runqueueTaskComplete 1).timeout = true := by
  intro q started
  have hq : q.Fresh := ⟨rfl, rfl, rfl, fun _ ↦ rfl⟩
  have hrun : Run Step q [.taskAdd 1 false false, .taskAdd 2 false false,
    .fire fun _ ↦ false] started :=
    .cons (.taskAdd 1 false false) (.cons (.taskAdd 2 false false) (.cons (.fire _ rfl) (.nil _)))
  have hcompletes := runqueue_keeps hq (hrun.append (.cons (.taskComplete 1) (.nil _)))
  exact ⟨rfl, (runqueue_keeps hq hrun).1, (hcompletes.2.2.2.2 rfl (by decide) (.inr (by decide))).1⟩

end

end MiniPi.Runqueue
