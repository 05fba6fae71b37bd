import MiniPi.Lib.Run
import Mathlib.Data.List.Basic
import Mathlib.Logic.Function.Basic
import Mathlib.Tactic.Common

/-!
# The fds of the event loop

`uloop_run_events` of `uloop.c` with epoll.  The fds are named by a type `ι`.  What is left of the
last batch of events, and the buffered events of the callbacks that are running, are shared by all
calls.
-/

universe u

namespace MiniPi.Uloop

open Lib Function

variable {ι : Type u}

/-- The flags of an fd that are read later; `ULOOP_BLOCKING` only chooses a mode of the file. -/
structure FdFlags where
  read : Bool := false
  write : Bool := false
  edgeTrigger : Bool := false
  errorCb : Bool := false

/-- `struct uloop_fd`.  `cb` says that there is a callback. -/
structure Fd where
  flags : FdFlags := {}
  cb : Bool := true
  registered : Bool := false
  eof : Bool := false
  error : Bool := false

/-- `ULOOP_READ` and `ULOOP_WRITE` of the events for a callback. -/
structure FdEvents where
  read : Bool := false
  write : Bool := false
deriving DecidableEq

/-- The events of `epoll_wait`. -/
structure EpollEvents where
  epollin : Bool := false
  epollout : Bool := false
  epollerr : Bool := false
  epollhup : Bool := false
  epollrdhup : Bool := false

/-- `struct uloop_fd_stack`, with the fd whose callback is running. -/
structure FdFrame (ι : Type u) where
  running : ι
  fd : Option ι
  events : FdEvents := {}

/-- `cur_fds` from `cur_fd` on, and `fd_stack`. -/
structure FdLoop (ι : Type u) where
  fd : ι → Fd
  curFds : List (Option ι × FdEvents) := []
  fdStack : List (FdFrame ι) := []

def FdEvents.or (e e' : FdEvents) : FdEvents := ⟨e.read || e'.read, e.write || e'.write⟩

namespace FdLoop

variable [DecidableEq ι]

/-! ## The functions -/

def setFd (f : ι) (v : Fd) (s : FdLoop ι) : FdLoop ι := { s with fd := update s.fd f v }

/-- The first frame of `f` in the stack is changed. -/
def changeFirst (f : ι) (change : FdFrame ι → FdFrame ι) :
    List (FdFrame ι) → Option (List (FdFrame ι))
  | [] => none
  | cur :: next =>
      if cur.fd = some f then some (change cur :: next)
        else (changeFirst f change next).map (cur :: ·)

/-- `uloop_fd_stack_event`; the events are `none` for the `-1` of `uloop_fd_delete`. -/
def uloopFdStackEvent (f : ι) (events : Option FdEvents) (s : FdLoop ι) : FdLoop ι × Bool :=
  if (s.fd f).flags.edgeTrigger then
    match changeFirst f (fun cur ↦ match events with
      | none => { cur with fd := none }
      | some events => { cur with events := cur.events.or events }) s.fdStack with
    | none => (s, false)
    | some fdStack => ({ s with fdStack }, true)
  else (s, false)

def uloopFdDelete (f : ι) (s : FdLoop ι) : FdLoop ι :=
  let s := { s with
    curFds := s.curFds.map fun (cur : Option ι × FdEvents) ↦
      if cur.1 = some f then (none, cur.2) else cur }
  if (s.fd f).registered then
    let s := s.setFd f { s.fd f with registered := false }
    let s := (s.uloopFdStackEvent f none).1
    s.setFd f { s.fd f with flags := {} }
  else s

/-- `uloop_fd_add`; `ok` says that `epoll_ctl` succeeds. -/
def uloopFdAdd (f : ι) (flags : FdFlags) (ok : Bool) (s : FdLoop ι) : FdLoop ι :=
  if !(flags.read || flags.write) then s.uloopFdDelete f
  else
    let s := s.setFd f { s.fd f with flags }
    if ok then s.setFd f { s.fd f with registered := true, eof := false } else s

/-- The part of a round of `uloop_fetch_events` for `EPOLLERR` and `EPOLLHUP`. -/
def fetchError (u : ι) (e : EpollEvents) (s : FdLoop ι) : FdLoop ι :=
  if e.epollerr || e.epollhup then
    let s := s.setFd u { s.fd u with error := true }
    if (s.fd u).flags.errorCb then s else s.uloopFdDelete u
  else s

/-- A round of `uloop_fetch_events`, with the entry of `cur_fds` it leaves. -/
def fetchEvent (e : Option ι × EpollEvents) (s : FdLoop ι) : FdLoop ι × (Option ι × FdEvents) :=
  match e.1 with
  | none => (s, (none, {}))
  | some u =>
      let s := s.fetchError u e.2
      if e.2.epollrdhup || e.2.epollin || e.2.epollout || e.2.epollerr || e.2.epollhup then
        let s := if e.2.epollrdhup then s.setFd u { s.fd u with eof := true } else s
        (s, (some u, ⟨e.2.epollin, e.2.epollout⟩))
      else (s, (none, {}))

/-- `uloop_fetch_events`, with the events that `epoll_wait` gives. -/
def uloopFetchEvents : List (Option ι × EpollEvents) → FdLoop ι →
    FdLoop ι × List (Option ι × FdEvents)
  | [], s => (s, [])
  | e :: rest, s =>
      let r := s.fetchEvent e
      let rs := uloopFetchEvents rest r.1
      (rs.1, r.2 :: rs.2)

/-- The loop of `uloop_run_events` up to the callback that it calls. -/
def nextCallback : List (Option ι × FdEvents) → FdLoop ι → FdLoop ι × Option ι
  | [], s => ({ s with curFds := [] }, none)
  | (none, _) :: rest, s => nextCallback rest s
  | (some f, events) :: rest, s =>
      if (s.fd f).cb then
        if (s.uloopFdStackEvent f (some events)).2 then
          nextCallback rest (s.uloopFdStackEvent f (some events)).1
        else ({ s with curFds := rest, fdStack := { running := f, fd := some f } :: s.fdStack },
          some f)
      else nextCallback rest s

/-- `uloop_run_events` up to its callback. -/
def uloopRunEvents (events : List (Option ι × EpollEvents)) (s : FdLoop ι) : FdLoop ι × Option ι :=
  let s :=
    if s.curFds.isEmpty then
      let r := uloopFetchEvents events s
      { r.1 with curFds := r.2 }
    else s
  nextCallback s.curFds s

/-- The callback of the innermost `uloop_run_events` returns, and is called again for buffered
events. -/
def callbackReturns (s : FdLoop ι) : FdLoop ι × Option ι :=
  match s.fdStack with
  | [] => (s, none)
  | cur :: next =>
      if cur.fd.isSome && (cur.events.read || cur.events.write) then
        ({ s with fdStack := { cur with events := {} } :: next }, some cur.running)
      else ({ s with fdStack := next }, none)

end FdLoop

/-! ## Runs -/

/-- What the callbacks and the program do. -/
inductive FdAct (ι : Type u)
  | add (f : ι) (flags : FdFlags) (ok : Bool)
  | delete (f : ι)
  | runEvents (events : List (Option ι × EpollEvents))
  | callbackReturns

namespace FdLoop

variable [DecidableEq ι]

/-- The state behind the action, and the fd whose callback is called. -/
def act (a : FdAct ι) (s : FdLoop ι) : FdLoop ι × Option ι :=
  match a with
  | .add f flags ok => (s.uloopFdAdd f flags ok, none)
  | .delete f => (s.uloopFdDelete f, none)
  | .runEvents events => s.uloopRunEvents events
  | .callbackReturns => s.callbackReturns

/-- `epoll_wait` gives events for registered fds only. -/
def Polls (s : FdLoop ι) : FdAct ι → Prop
  | .runEvents events => ∀ e ∈ events, ∀ f, e.1 = some f → (s.fd f).registered = true
  | _ => True

/-- The frames of `f`, but for the first one when `f` is registered and edge-triggered, hold no
events. -/
def Purges (s : FdLoop ι) (f : ι) : Prop :=
  ∀ cur ∈ (s.fdStack.filter (·.fd = some f)).drop
    (if (s.fd f).registered && (s.fd f).flags.edgeTrigger then 1 else 0), cur.events = {}

/-- An fd is deleted when no other events of it are buffered than those `uloop_fd_delete` purges. -/
def Careful (s : FdLoop ι) : FdAct ι → Prop
  | .delete f => s.Purges f
  | .add f flags _ => (flags.read || flags.write) = false → s.Purges f
  | _ => True

/-- A step of the program. -/
def Step (s : FdLoop ι) (a : FdAct ι) (s' : FdLoop ι) : Prop := s.Polls a ∧ s' = (s.act a).1

def CarefulStep (s : FdLoop ι) (a : FdAct ι) (s' : FdLoop ι) : Prop := s.Careful a ∧ s.Step a s'

end FdLoop

/-- Whether `f` is deleted behind the action. -/
def FdAct.deletes [DecidableEq ι] (f : ι) (was : Bool) : FdAct ι → Bool
  | .delete f' => if f' = f then true else was
  | .add f' flags _ => if f' = f then !(flags.read || flags.write) else was
  | _ => was

/-- `f` was deleted in the actions, and not added for reading or writing since. -/
def fdDeleted [DecidableEq ι] (acts : List (FdAct ι)) (f : ι) : Bool :=
  acts.foldl (fun was a ↦ a.deletes f was) false

section

variable [DecidableEq ι] {s s' : FdLoop ι} {d : ι → Bool} {f : ι} {a : FdAct ι}

/-- A deleted fd is not registered, has no events in the batch, and none that are buffered. -/
structure FdLoop.Silent (s : FdLoop ι) (d : ι → Bool) : Prop where
  running : ∀ cur ∈ s.fdStack, ∀ f, cur.fd = some f → cur.running = f
  registered : ∀ f, d f = true → (s.fd f).registered = false
  batch : ∀ cur ∈ s.curFds, ∀ f, cur.1 = some f → d f = false
  stack : ∀ cur ∈ s.fdStack, ∀ f, cur.fd = some f → d f = true → cur.events = {}

namespace FdLoop

/-! ## The stack -/

theorem changeFirst_eq_none {change : FdFrame ι → FdFrame ι} {frames : List (FdFrame ι)}
    (hnone : changeFirst f change frames = none) : ∀ cur ∈ frames, cur.fd ≠ some f := by
  induction frames with
  | nil => simp
  | cons cur next ih =>
      unfold changeFirst at hnone
      split_ifs at hnone with hcur
      exact List.forall_mem_cons.2 ⟨hcur, ih (by simpa using hnone)⟩

/-- The first frame is the only one that changes. -/
theorem changeFirst_eq_some {change : FdFrame ι → FdFrame ι} {frames frames' : List (FdFrame ι)}
    (hsome : changeFirst f change frames = some frames') :
    ∃ pre cur next, frames = pre ++ cur :: next ∧ (∀ x ∈ pre, x.fd ≠ some f) ∧ cur.fd = some f ∧
      frames' = pre ++ change cur :: next := by
  induction frames generalizing frames' with
  | nil => simp [changeFirst] at hsome
  | cons cur next ih =>
      unfold changeFirst at hsome
      split_ifs at hsome with hcur
      · exact ⟨[], cur, next, rfl, by simp, hcur, (Option.some.inj hsome).symm⟩
      · obtain ⟨rest, hrest, rfl⟩ := Option.map_eq_some_iff.1 hsome
        obtain ⟨pre, first, next', rfl, hpre, hfirst, rfl⟩ := ih hrest
        exact ⟨cur :: pre, first, next', rfl, List.forall_mem_cons.2 ⟨hcur, hpre⟩, hfirst, rfl⟩

@[simp] theorem uloopFdStackEvent_fd (events : Option FdEvents) :
    (s.uloopFdStackEvent f events).1.fd = s.fd := by
  unfold uloopFdStackEvent
  split_ifs
  · split <;> rfl
  · rfl

@[simp] theorem uloopFdStackEvent_curFds (events : Option FdEvents) :
    (s.uloopFdStackEvent f events).1.curFds = s.curFds := by
  unfold uloopFdStackEvent
  split_ifs
  · split <;> rfl
  · rfl

/-- The stack behind `uloop_fd_stack_event`. -/
theorem uloopFdStackEvent_fdStack (events : Option FdEvents) :
    (s.uloopFdStackEvent f events).1.fdStack = s.fdStack ∧
        ((s.fd f).flags.edgeTrigger = true → ∀ cur ∈ s.fdStack, cur.fd ≠ some f) ∨
      (s.fd f).flags.edgeTrigger = true ∧ ∃ pre cur next, s.fdStack = pre ++ cur :: next ∧
        (∀ x ∈ pre, x.fd ≠ some f) ∧ cur.fd = some f ∧
        (s.uloopFdStackEvent f events).1.fdStack = pre ++
          (events.elim { cur with fd := none } fun events ↦
            { cur with events := cur.events.or events }) ::
            next := by
  unfold uloopFdStackEvent
  by_cases hedge : (s.fd f).flags.edgeTrigger = true
  · rw [if_pos hedge]
    split
    next hnone => exact .inl ⟨rfl, fun _ ↦ changeFirst_eq_none hnone⟩
    next frames hsome =>
      obtain ⟨pre, cur, next, hframes, hpre, hcur, rfl⟩ := changeFirst_eq_some hsome
      refine .inr ⟨hedge, pre, cur, next, hframes, hpre, hcur, ?_⟩
      cases events <;> rfl
  · rw [if_neg hedge]
    exact .inl ⟨rfl, fun h ↦ absurd h hedge⟩

/-- The frames of `f` behind the one that is purged. -/
theorem mem_uloopFdStackEvent_self {cur : FdFrame ι}
    (hcur : cur ∈ (s.uloopFdStackEvent f none).1.fdStack) (hfd : cur.fd = some f) :
    cur ∈ (s.fdStack.filter (·.fd = some f)).drop (if (s.fd f).flags.edgeTrigger then 1
      else 0) := by
  rcases @uloopFdStackEvent_fdStack ι _ s f none with ⟨heq, hnone⟩ | ⟨hedge, pre, first, next,
    hframes, hpre, hfirst, heq⟩
  · rw [heq] at hcur
    rw [if_neg fun hedge ↦ hnone hedge cur hcur hfd, List.drop_zero]
    exact List.mem_filter.2 ⟨hcur, by simpa using hfd⟩
  · have hnil : pre.filter (·.fd = some f) = [] :=
      List.filter_eq_nil_iff.2 fun x hx ↦ by simpa using hpre x hx
    rw [if_pos hedge, hframes, List.filter_append, hnil, List.nil_append,
      List.filter_cons_of_pos (by simpa), List.drop_one, List.tail_cons]
    rw [heq, List.mem_append, List.mem_cons] at hcur
    rcases hcur with hcur | rfl | hcur
    · exact absurd hfd (hpre cur hcur)
    · exact absurd hfd (by simp)
    · exact List.mem_filter.2 ⟨hcur, by simpa using hfd⟩

end FdLoop

/-! ## What the functions keep -/

namespace FdLoop.Silent

omit [DecidableEq ι] in
theorem mono {d' : ι → Bool} (hs : s.Silent d) (hd : ∀ f, d' f = true → d f = true) :
    s.Silent d' := by
  refine ⟨hs.running, fun f hf ↦ hs.registered f (hd f hf), fun cur hcur f hf ↦ ?_,
    fun cur hcur f hf hdf ↦ hs.stack cur hcur f hf (hd f hdf)⟩
  have hdf := hs.batch cur hcur f hf
  exact Bool.eq_false_iff.2 fun hdf' ↦ by simp [hd f hdf'] at hdf

theorem setFd (hs : s.Silent d) {v : Fd} (hv : d f = true → v.registered = false) :
    (s.setFd f v).Silent d := by
  refine ⟨hs.running, fun f' hf' ↦ ?_, hs.batch, hs.stack⟩
  change (update s.fd f v f').registered = false
  by_cases hf : f' = f
  · subst hf
    rw [update_self]
    exact hv hf'
  · rw [update_of_ne hf]
    exact hs.registered f' hf'

omit [DecidableEq ι] in
theorem batchOf (hs : s.Silent d) {curFds : List (Option ι × FdEvents)}
    (hbatch : ∀ cur ∈ curFds, ∀ f, cur.1 = some f → d f = false) :
    FdLoop.Silent { s with curFds } d :=
  ⟨hs.running, hs.registered, hbatch, hs.stack⟩

/-- The stack is purged, or an event of an fd that is not deleted is buffered. -/
theorem stackEvent (hs : s.Silent d) {events : Option FdEvents} (hf : events ≠ none → d f = false) :
    (s.uloopFdStackEvent f events).1.Silent d := by
  have hstack : ∀ cur ∈ (s.uloopFdStackEvent f events).1.fdStack, ∀ f', cur.fd = some f' →
      cur.running = f' ∧ (d f' = true → cur.events = {}) := by
    rcases @uloopFdStackEvent_fdStack ι _ s f events with ⟨heq, -⟩ | ⟨-, pre, first, next, hframes,
      -, hfirst, heq⟩
    · rw [heq]
      exact fun cur hcur f' hf' ↦ ⟨hs.running cur hcur f' hf', hs.stack cur hcur f' hf'⟩
    · have hold : ∀ cur ∈ pre ++ first :: next, ∀ f', cur.fd = some f' →
          cur.running = f' ∧ (d f' = true → cur.events = {}) :=
        fun cur hcur f' hf' ↦
          ⟨hs.running cur (hframes ▸ hcur) f' hf', hs.stack cur (hframes ▸ hcur) f' hf'⟩
      rw [heq]
      intro cur hcur f' hf'
      rw [List.mem_append, List.mem_cons] at hcur
      rcases hcur with hcur | rfl | hcur
      · exact hold cur (List.mem_append_left _ hcur) f' hf'
      · cases events with
        | none => exact absurd hf' (by simp)
        | some events =>
            have hf'' : first.fd = some f' := hf'
            obtain rfl : f = f' := Option.some.inj (hfirst.symm.trans hf'')
            refine ⟨(hold first (by simp) f hfirst).1, fun hdf ↦ ?_⟩
            simp [hf (by simp)] at hdf
      · exact hold cur (by simp [hcur]) f' hf'
  refine ⟨fun cur hcur f' hf' ↦ (hstack cur hcur f' hf').1, ?_, ?_,
    fun cur hcur f' hf' ↦ (hstack cur hcur f' hf').2⟩
  · simpa using hs.registered
  · simpa using hs.batch

theorem delete (hs : s.Silent d) : (s.uloopFdDelete f).Silent d := by
  have hs' : FdLoop.Silent { s with
      curFds := s.curFds.map fun (cur : Option ι × FdEvents) ↦ if cur.1 = some f then (none, cur.2)
        else cur } d := by
    refine hs.batchOf fun cur hcur f' hf' ↦ ?_
    obtain ⟨was, hwas, rfl⟩ := List.mem_map.1 hcur
    split_ifs at hf'
    exact hs.batch was hwas f' hf'
  unfold uloopFdDelete
  simp only
  split_ifs with hregistered
  · refine FdLoop.Silent.setFd (stackEvent (hs'.setFd fun _ ↦ rfl) (by simp)) fun _ ↦ ?_
    simp [FdLoop.setFd]
  · exact hs'

end FdLoop.Silent

theorem FdLoop.uloopFdDelete_registered : ((s.uloopFdDelete f).fd f).registered = false := by
  unfold FdLoop.uloopFdDelete
  simp only
  split_ifs with hregistered
  · simp [FdLoop.setFd]
  · simpa using hregistered

theorem FdLoop.uloopFdDelete_curFds : ∀ cur ∈ (s.uloopFdDelete f).curFds, cur.1 ≠ some f := by
  have hmap : (s.uloopFdDelete f).curFds =
      s.curFds.map fun (cur : Option ι × FdEvents) ↦ if cur.1 = some f then (none, cur.2)
      else cur := by
    unfold FdLoop.uloopFdDelete
    simp only
    split_ifs
    · simp [FdLoop.setFd]
    · rfl
  rw [hmap]
  intro cur hcur
  obtain ⟨was, -, rfl⟩ := List.mem_map.1 hcur
  split_ifs with hwas
  · simp
  · exact hwas

theorem FdLoop.Purges.delete (hp : s.Purges f) :
    ∀ cur ∈ (s.uloopFdDelete f).fdStack, cur.fd = some f → cur.events = {} := by
  intro cur hcur hfd
  apply hp
  unfold FdLoop.uloopFdDelete at hcur
  simp only at hcur
  split_ifs at hcur with hregistered
  · have hself := FdLoop.mem_uloopFdStackEvent_self hcur hfd
    simpa [FdLoop.setFd, hregistered] using hself
  · rw [Bool.not_eq_true] at hregistered
    rw [hregistered, Bool.false_and, if_neg (by simp), List.drop_zero]
    exact List.mem_filter.2 ⟨hcur, by simpa using hfd⟩

namespace FdLoop.Silent

/-- `uloop_fd_delete` by a callback. -/
theorem delete_self (hs : s.Silent d) (hp : s.Purges f) :
    (s.uloopFdDelete f).Silent fun f' ↦ if f = f' then true else d f' := by
  have hdel := hs.delete (f := f)
  refine ⟨hdel.running, fun f' hf' ↦ ?_, fun cur hcur f' hf' ↦ ?_, fun cur hcur f' hf' hd ↦ ?_⟩
  · by_cases hf : f = f'
    · exact hf ▸ uloopFdDelete_registered
    · exact hdel.registered f' (by simpa [hf] using hf')
  · have hf : f ≠ f' := fun hf ↦ uloopFdDelete_curFds cur hcur (hf ▸ hf')
    simpa [hf] using hdel.batch cur hcur f' hf'
  · by_cases hf : f = f'
    · exact hp.delete cur hcur (hf ▸ hf')
    · exact hdel.stack cur hcur f' hf' (by simpa [hf] using hd)

theorem add {flags : FdFlags} (hs : s.Silent d) (ok : Bool)
    (hp : (flags.read || flags.write) = false → s.Purges f) :
    (s.uloopFdAdd f flags ok).Silent fun f' ↦ if f = f' then !(flags.read || flags.write)
      else d f' := by
  unfold uloopFdAdd
  cases hflags : flags.read || flags.write with
  | false =>
      rw [if_pos (by simp)]
      exact hs.delete_self (hp hflags)
  | true =>
      rw [if_neg (by simp)]
      have hs' : s.Silent fun f' ↦ if f = f' then !true else d f' := by
        refine hs.mono fun f' hf' ↦ ?_
        by_cases hf : f = f'
        · simp [hf] at hf'
        · simpa [hf] using hf'
      simp only
      split_ifs with hok
      · exact (hs'.setFd (by simp)).setFd (by simp)
      · exact hs'.setFd (by simp)

/-- An entry of the batch is about a registered fd, and `uloop_fetch_events` may delete it. -/
theorem fetchEvent {e : Option ι × EpollEvents} (hs : s.Silent d)
    (he : ∀ f, e.1 = some f → d f = false) :
    (s.fetchEvent e).1.Silent d ∧ ∀ f, (s.fetchEvent e).2.1 = some f → d f = false := by
  obtain ⟨fd, ev⟩ := e
  cases fd with
  | none => exact ⟨hs, by simp [FdLoop.fetchEvent]⟩
  | some u =>
      have hu : d u = false := he u rfl
      have hset : ∀ {s : FdLoop ι} {v : Fd}, s.Silent d → (s.setFd u v).Silent d :=
        fun hs ↦ hs.setFd (by simp [hu])
      have herror : (s.fetchError u ev).Silent d := by
        unfold fetchError
        simp only
        split_ifs
        · exact hset hs
        · exact (hset hs).delete
        · exact hs
      unfold FdLoop.fetchEvent
      simp only
      split_ifs
      · exact ⟨hset herror, by simp [hu]⟩
      · exact ⟨herror, by simp [hu]⟩
      · exact ⟨herror, by simp⟩

theorem fetchEvents (events : List (Option ι × EpollEvents)) (hs : s.Silent d)
    (hevents : ∀ e ∈ events, ∀ f, e.1 = some f → d f = false) :
    (uloopFetchEvents events s).1.Silent d ∧
      ∀ cur ∈ (uloopFetchEvents events s).2, ∀ f, cur.1 = some f → d f = false := by
  induction events generalizing s with
  | nil => exact ⟨hs, by simp [uloopFetchEvents]⟩
  | cons e events ih =>
      obtain ⟨he, hevents⟩ := List.forall_mem_cons.1 hevents
      obtain ⟨hfirst, hentry⟩ := hs.fetchEvent he
      obtain ⟨hrest, hentries⟩ := ih hfirst hevents
      exact ⟨hrest, List.forall_mem_cons.2 ⟨hentry, hentries⟩⟩

/-- The callback that is called is not of a deleted fd. -/
theorem nextCallback (batch : List (Option ι × FdEvents)) (hs : s.Silent d)
    (hbatch : ∀ cur ∈ batch, ∀ f, cur.1 = some f → d f = false) :
    (FdLoop.nextCallback batch s).1.Silent d ∧
      ∀ f, (FdLoop.nextCallback batch s).2 = some f → d f = false := by
  induction batch generalizing s with
  | nil => exact ⟨hs.batchOf (by simp), by simp [FdLoop.nextCallback]⟩
  | cons cur rest ih =>
      obtain ⟨hcur, hrest⟩ := List.forall_mem_cons.1 hbatch
      obtain ⟨fd, events⟩ := cur
      cases fd with
      | none => exact ih hs hrest
      | some f =>
          have hf : d f = false := hcur f rfl
          unfold FdLoop.nextCallback
          split_ifs
          · exact ih (hs.stackEvent fun _ ↦ hf) hrest
          · refine ⟨⟨?_, hs.registered, hrest, ?_⟩, fun f' hf' ↦ Option.some.inj hf' ▸ hf⟩
            · exact List.forall_mem_cons.2 ⟨fun f' hf' ↦ Option.some.inj hf', hs.running⟩
            · exact List.forall_mem_cons.2 ⟨fun _ _ _ ↦ rfl, hs.stack⟩
          · exact ih hs hrest

theorem runEvents {events : List (Option ι × EpollEvents)} (hs : s.Silent d)
    (hpolls : s.Polls (.runEvents events)) :
    (s.uloopRunEvents events).1.Silent d ∧ ∀ f, (s.uloopRunEvents events).2 = some f →
      d f = false := by
  have hevents : ∀ e ∈ events, ∀ f, e.1 = some f → d f = false := by
    intro e he f hf
    have hregistered := hpolls e he f hf
    exact Bool.eq_false_iff.2 fun hd ↦ by simp [hs.registered f hd] at hregistered
  obtain ⟨hfetch, hentries⟩ := hs.fetchEvents events hevents
  unfold uloopRunEvents
  simp only
  split_ifs
  · exact nextCallback _ (hfetch.batchOf hentries) hentries
  · exact nextCallback _ hs hs.batch

omit [DecidableEq ι] in
theorem returns (hs : s.Silent d) :
    s.callbackReturns.1.Silent d ∧ ∀ f, s.callbackReturns.2 = some f → d f = false := by
  unfold callbackReturns
  cases hstack : s.fdStack with
  | nil => exact ⟨hs, by simp⟩
  | cons cur next =>
      obtain ⟨hrunning, hrunnings⟩ := List.forall_mem_cons.1 (hstack ▸ hs.running)
      obtain ⟨hevents, hothers⟩ := List.forall_mem_cons.1 (hstack ▸ hs.stack)
      simp only
      split_ifs with hagain
      · refine ⟨⟨?_, hs.registered, hs.batch, ?_⟩, fun f hf ↦ ?_⟩
        · exact List.forall_mem_cons.2 ⟨hrunning, hrunnings⟩
        · exact List.forall_mem_cons.2 ⟨fun _ _ _ ↦ rfl, hothers⟩
        · rw [Bool.and_eq_true, Option.isSome_iff_exists] at hagain
          obtain ⟨⟨f', hf'⟩, hbuffered⟩ := hagain
          obtain rfl : cur.running = f := Option.some.inj hf
          rw [← hrunning f' hf'] at hf'
          exact Bool.eq_false_iff.2 fun hd ↦ by simp [hevents _ hf' hd] at hbuffered
      · exact ⟨⟨hrunnings, hs.registered, hs.batch, hothers⟩, by simp⟩

end FdLoop.Silent

/-! ## Runs without a call -/

theorem FdLoop.Silent.called (hs : s.Silent d) (hpolls : s.Polls a) (hf : (s.act a).2 = some f) :
    d f = false := by
  cases a with
  | add f' flags ok => exact absurd hf (by simp [FdLoop.act])
  | delete f' => exact absurd hf (by simp [FdLoop.act])
  | runEvents events => exact (hs.runEvents hpolls).2 f hf
  | callbackReturns => exact hs.returns.2 f hf

theorem FdLoop.Silent.step (hs : s.Silent d) (hstep : s.CarefulStep a s') :
    s'.Silent fun f ↦ a.deletes f (d f) := by
  obtain ⟨hcareful, hpolls, rfl⟩ := hstep
  cases a with
  | add f' flags ok => exact hs.add ok hcareful
  | delete f' => exact hs.delete_self hcareful
  | runEvents events => exact (hs.runEvents hpolls).1
  | callbackReturns => exact hs.returns.1

theorem FdLoop.Silent.run {acts : List (FdAct ι)} (hrun : Run FdLoop.CarefulStep s acts s')
    (hs : s.Silent d) :
    s'.Silent fun f ↦ acts.foldl (fun was a ↦ a.deletes f was) (d f) := by
  induction hrun generalizing d with
  | nil => exact hs
  | cons hstep _ ih => exact ih (hs.step hstep)

/-- In a run whose callbacks delete an fd only when no other events of it are buffered than those
`uloop_fd_delete` purges, the callback of a deleted fd is not called. -/
theorem deleted_silent {acts : List (FdAct ι)} (hbatch : s.curFds = []) (hstack : s.fdStack = [])
    (hrun : Run FdLoop.CarefulStep s acts s') (hpolls : s'.Polls a) (hf : (s'.act a).2 = some f) :
    fdDeleted acts f = false := by
  have hs : s.Silent fun _ ↦ false :=
    ⟨by simp [hstack], by simp, by simp [hbatch], by simp [hstack]⟩
  exact (hs.run hrun).called hpolls hf

/-- An fd that is deleted and added in its callback. -/
theorem deleted_silent_one : fdDeleted ([.add 0 { read := true } true,
    .runEvents [(some 0, { epollin := true })], .delete 0, .add 0 { write := true } true] :
    List (FdAct ℕ)) 0 =
      false := by
  refine @deleted_silent ℕ _ { fd := fun _ ↦ {} } _ 0 (.runEvents [(some 0, { epollout := true })])
    [.add 0 { read := true } true, .runEvents [(some 0, { epollin := true })], .delete 0,
      .add 0 { write := true } true] rfl rfl (.cons ⟨by simp [FdLoop.Careful], trivial, rfl⟩
        (.cons ⟨trivial, ?_, rfl⟩
          (.cons ⟨?_, trivial, rfl⟩ (.cons ⟨by simp [FdLoop.Careful], trivial, rfl⟩
          (.nil _))))) ?_ rfl
  · exact fun e he f hf ↦ by simp_all [FdLoop.act, FdLoop.uloopFdAdd, FdLoop.setFd]
  · unfold FdLoop.Careful FdLoop.Purges
    decide
  · exact fun e he f hf ↦ by simp_all [FdLoop.act, FdLoop.uloopFdAdd, FdLoop.setFd]

/-- A callback that makes its fd level-triggered and deletes it, with an event for it in the buffer,
is called again. -/
theorem not_deleted_silent : ∃ (s s' : FdLoop ℕ) (acts : List (FdAct ℕ)) (a : FdAct ℕ),
    s.curFds = [] ∧ s.fdStack = [] ∧ Run FdLoop.Step s acts s' ∧ s'.Polls a ∧
      fdDeleted acts 0 = true ∧ (s'.act a).2 = some 0 := by
  let acts : List (FdAct ℕ) := [.add 0 { read := true, edgeTrigger := true } true,
    .runEvents [(some 0, { epollin := true })], .runEvents [(some 0, { epollin := true })],
    .add 0 { read := true } true, .delete 0]
  refine ⟨{ fd := fun _ ↦ {} }, acts.foldl (fun s a ↦ (s.act a).1) { fd := fun _ ↦ {} }, acts,
    .callbackReturns, rfl, rfl, ?_, trivial, rfl, rfl⟩
  have hpolls : ∀ s : FdLoop ℕ, (s.fd 0).registered = true →
      s.Polls (.runEvents [(some 0, { epollin := true })]) := by
    intro s hs e he f hf
    obtain rfl := List.mem_singleton.1 he
    obtain rfl := Option.some.inj hf
    exact hs
  exact .cons ⟨trivial, rfl⟩
    (.cons ⟨hpolls _ rfl, rfl⟩ (.cons ⟨hpolls _ rfl, rfl⟩ (.cons ⟨trivial, rfl⟩
    (.cons ⟨trivial, rfl⟩ (.nil _)))))

end

end MiniPi.Uloop
