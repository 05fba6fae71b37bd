import MiniPi.Lib.Run
import Mathlib.Tactic.Linarith
import Mathlib.Data.List.Nodup
import Mathlib.Data.List.Pairwise

/-!
# Timers of the event loop

`uloop_timeout_set`, `uloop_timeout_cancel` and `uloop_process_timeouts` of `uloop.c`.  The list
`timeouts` is kept in order by `tv_diff`, which truncates the microseconds apart from the seconds.
The timers are named by a type `ι`, and a callback does not touch the timers.
-/

universe u

namespace MiniPi.Uloop

open Lib

/-- `struct timeval`. -/
structure Timeval where
  sec : ℤ
  usec : ℤ
deriving DecidableEq

namespace Timeval

/-- The time in microseconds. -/
def micros (t : Timeval) : ℤ := t.sec * 1000000 + t.usec

end Timeval

/-- `tv_diff`: the difference of two times is returned as an `int`. -/
def tvDiff (t₁ t₂ : Timeval) : ℤ :=
  Int.bmod ((t₁.sec - t₂.sec) * 1000 + (t₁.usec - t₂.usec).tdiv 1000) (2 ^ 32)

/-- A reading of the clock, as `clock_gettime` gives it. -/
structure Timespec where
  sec : ℤ
  nsec : ℤ
  nsec_nonneg : 0 ≤ nsec
  nsec_lt : nsec < 1000000000

/-- `uloop_gettime`. -/
def uloopGettime (ts : Timespec) : Timeval := ⟨ts.sec, ts.nsec / 1000⟩

/-- `struct uloop_timeout`, without its links.  `cb` says that there is a callback. -/
structure Timeout where
  pending : Bool
  cb : Bool
  time : Timeval

/-- The timers, and `timeouts` from its first entry on. -/
structure Timers (ι : Type u) where
  timer : ι → Timeout
  timeouts : List ι

variable {ι : Type u}

namespace Timers

/-- When a timer expires, in microseconds. -/
def expiry (s : Timers ι) (t : ι) : ℤ := (s.timer t).time.micros

/-- The timer is put in front of the first one that `tv_diff` finds to be later. -/
def insert (s : Timers ι) (t : ι) : List ι → List ι
  | [] => [t]
  | tmp :: rest =>
      if 0 < tvDiff (s.timer tmp).time (s.timer t).time then t :: tmp :: rest
      else tmp :: insert s t rest

variable [DecidableEq ι]

def update (s : Timers ι) (t : ι) (v : Timeout) : Timers ι :=
  { s with timer := Function.update s.timer t v }

/-- `uloop_timeout_add`. -/
def uloopTimeoutAdd (s : Timers ι) (t : ι) : Timers ι × ℤ :=
  if (s.timer t).pending then (s, -1)
  else
    ({ s.update t { s.timer t with pending := true } with timeouts := s.insert t s.timeouts }, 0)

/-- `uloop_timeout_cancel`. -/
def uloopTimeoutCancel (s : Timers ι) (t : ι) : Timers ι × ℤ :=
  if (s.timer t).pending then
    ({ s.update t { s.timer t with pending := false } with timeouts := s.timeouts.erase t }, 0)
  else (s, -1)

/-- The time `msecs` milliseconds after `now`.  Exactly one second of microseconds stays as it
is. -/
def expiryTime (now : Timeval) (msecs : ℤ) : Timeval :=
  let sec := now.sec + msecs.tdiv 1000
  let usec := now.usec + msecs.tmod 1000 * 1000
  if 1000000 < usec then ⟨sec + 1, usec.tmod 1000000⟩ else ⟨sec, usec⟩

/-- `uloop_timeout_set`. -/
def uloopTimeoutSet (s : Timers ι) (now : Timespec) (t : ι) (msecs : ℤ) : Timers ι × ℤ :=
  let s := if (s.timer t).pending then (s.uloopTimeoutCancel t).1 else s
  let s := s.update t { s.timer t with time := expiryTime (uloopGettime now) msecs }
  s.uloopTimeoutAdd t

/-- The loop of `uloop_process_timeouts`, with the timers whose callbacks it runs. -/
def processLoop (tv : Timeval) : ℕ → Timers ι → Timers ι × List ι
  | 0, s => (s, [])
  | fuel + 1, s =>
      match s.timeouts with
      | [] => (s, [])
      | t :: _ =>
          if 0 < tvDiff (s.timer t).time tv then (s, [])
          else
            let r := processLoop tv fuel (s.uloopTimeoutCancel t).1
            (r.1, if (s.timer t).cb then t :: r.2 else r.2)

/-- `uloop_process_timeouts`: every round takes a timer from the list. -/
def uloopProcessTimeouts (s : Timers ι) (tv : Timeval) : Timers ι × List ι :=
  processLoop tv s.timeouts.length s

end Timers

/-! ## What `tv_diff` tells -/

/-- The milliseconds of an `int`, in microseconds. -/
def horizon : ℤ := (2 ^ 31 - 1) * 1000

theorem tdiv_thousand (x : ℤ) :
    0 ≤ x ∧ x.tdiv 1000 = x / 1000 ∨ x < 0 ∧ x.tdiv 1000 = -(-x / 1000) := by
  rcases lt_or_ge x 0 with hx | hx
  · refine .inr ⟨hx, ?_⟩
    rw [← neg_neg x, Int.neg_tdiv, neg_neg, Int.tdiv_eq_ediv_of_nonneg (by omega)]
  · exact .inl ⟨hx, Int.tdiv_eq_ediv_of_nonneg hx⟩

section

variable {t₁ t₂ : Timeval}

theorem tvDiff_of_near (hle : t₁.micros - t₂.micros ≤ horizon)
    (hge : t₂.micros - t₁.micros ≤ horizon) :
    tvDiff t₁ t₂ = (t₁.sec - t₂.sec) * 1000 + (t₁.usec - t₂.usec).tdiv 1000 := by
  unfold Timeval.micros horizon at hle hge
  have htdiv := tdiv_thousand (t₁.usec - t₂.usec)
  apply Int.bmod_eq_of_le
  · omega
  · omega

theorem micros_lt_of_tvDiff_pos (hle : t₁.micros - t₂.micros ≤ horizon)
    (hge : t₂.micros - t₁.micros ≤ horizon) (hpos : 0 < tvDiff t₁ t₂) : t₂.micros < t₁.micros := by
  rw [tvDiff_of_near hle hge] at hpos
  have htdiv := tdiv_thousand (t₁.usec - t₂.usec)
  unfold Timeval.micros
  omega

/-- Two times that `tv_diff` does not tell apart are less than a millisecond in the wrong order. -/
theorem micros_lt_of_not_tvDiff_pos (hle : t₁.micros - t₂.micros ≤ horizon)
    (hge : t₂.micros - t₁.micros ≤ horizon) (hpos : ¬ 0 < tvDiff t₁ t₂) :
    t₁.micros < t₂.micros + 1000 := by
  rw [tvDiff_of_near hle hge] at hpos
  have htdiv := tdiv_thousand (t₁.usec - t₂.usec)
  unfold Timeval.micros
  omega

end

/-- A timer is set to expire exactly the given milliseconds after the reading of the clock. -/
theorem micros_expiryTime (ts : Timespec) {msecs : ℤ} (hmsecs : 0 ≤ msecs) :
    (Timers.expiryTime (uloopGettime ts) msecs).micros = (uloopGettime ts).micros +
    msecs * 1000 := by
  obtain ⟨sec, nsec, hnonneg, hlt⟩ := ts
  unfold Timers.expiryTime uloopGettime Timeval.micros
  rw [Int.tdiv_eq_ediv_of_nonneg hmsecs, Int.tmod_eq_emod_of_nonneg hmsecs]
  simp only
  split_ifs with husec
  · rw [Int.tmod_eq_emod_of_nonneg (by omega)]
    change (sec + msecs / 1000 + 1) * 1000000 + (nsec / 1000 + msecs % 1000 * 1000) % 1000000 = _
    omega
  · change (sec + msecs / 1000) * 1000000 + (nsec / 1000 + msecs % 1000 * 1000) = _
    omega

/-! ## The order of the list -/

/-- No timer expires a millisecond or more after one behind it. -/
def Timers.Ordered (s : Timers ι) : Prop :=
  s.timeouts.Pairwise fun t u ↦ s.expiry t < s.expiry u + 1000

/-- The pending timers are the ones in the list, once each. -/
structure Timers.Ok (s : Timers ι) : Prop where
  nodup : s.timeouts.Nodup
  mem_iff : ∀ t, t ∈ s.timeouts ↔ (s.timer t).pending = true
  ordered : s.Ordered

/-- Pending expiry times and the clock are within the milliseconds of an `int` of each other. -/
def Timers.Near (s : Timers ι) (now : Timeval) : Prop :=
  ∀ x ∈ now.micros :: s.timeouts.map s.expiry, ∀ y ∈ now.micros :: s.timeouts.map s.expiry,
    x - y ≤ horizon

section

variable {s : Timers ι} {now : Timeval} {t u : ι}

theorem Timers.Near.clock (h : s.Near now) (ht : t ∈ s.timeouts) :
    s.expiry t - now.micros ≤ horizon ∧ now.micros - s.expiry t ≤ horizon := by
  have hmem : s.expiry t ∈ now.micros :: s.timeouts.map s.expiry :=
    List.mem_cons_of_mem _ (List.mem_map_of_mem ht)
  exact ⟨h _ hmem _ List.mem_cons_self, h _ List.mem_cons_self _ hmem⟩

theorem Timers.Near.timer (h : s.Near now) (ht : t ∈ s.timeouts) (hu : u ∈ s.timeouts) :
    s.expiry t - s.expiry u ≤ horizon := by
  apply h
  · exact List.mem_cons_of_mem _ (List.mem_map_of_mem ht)
  · exact List.mem_cons_of_mem _ (List.mem_map_of_mem hu)

theorem Timers.insert_perm (l : List ι) : (s.insert t l).Perm (t :: l) := by
  induction l with
  | nil => exact .refl _
  | cons tmp rest ih =>
      rw [Timers.insert]
      split_ifs
      · exact .refl _
      · exact (ih.cons tmp).trans (.swap t tmp rest)

/-- The first timer found later stands between the new one and all that are behind it. -/
theorem Timers.insert_ordered {l : List ι}
    (hl : l.Pairwise fun t u ↦ s.expiry t < s.expiry u + 1000)
    (hnear : ∀ u ∈ l, s.expiry u - s.expiry t ≤ horizon ∧ s.expiry t - s.expiry u ≤ horizon) :
    (s.insert t l).Pairwise fun t u ↦ s.expiry t < s.expiry u + 1000 := by
  induction l with
  | nil => exact List.pairwise_singleton _ _
  | cons tmp rest ih =>
      obtain ⟨htmp, hrest⟩ := List.pairwise_cons.1 hl
      obtain ⟨hle, hge⟩ := hnear tmp List.mem_cons_self
      rw [Timers.insert]
      split_ifs with hlater
      · have hlt : s.expiry t < s.expiry tmp := micros_lt_of_tvDiff_pos hle hge hlater
        refine List.pairwise_cons.2 ⟨?_, hl⟩
        intro u hu
        rcases List.mem_cons.1 hu with rfl | hu
        · omega
        · have := htmp u hu
          omega
      · refine List.pairwise_cons.2 ⟨?_, ih hrest fun u hu ↦ hnear u (List.mem_cons_of_mem _ hu)⟩
        intro u hu
        rcases List.mem_cons.1 ((insert_perm rest).mem_iff.1 hu) with rfl | hu
        · exact micros_lt_of_not_tvDiff_pos hle hge hlater
        · exact htmp u hu

end

section

variable [DecidableEq ι] {s : Timers ι} {now : Timeval} {t u : ι}

theorem Timers.timeouts_add (ht : (s.timer t).pending = false) :
    (s.uloopTimeoutAdd t).1.timeouts = s.insert t s.timeouts := by
  unfold Timers.uloopTimeoutAdd
  rw [if_neg (by simp [ht])]

theorem Timers.pending_add (u : ι) :
    ((s.uloopTimeoutAdd t).1.timer u).pending = true ↔ u = t ∨ (s.timer u).pending = true := by
  unfold Timers.uloopTimeoutAdd
  by_cases hu : u = t
  · split_ifs with ht
    · simp [hu, ht]
    · simp [Timers.update, hu]
  · split_ifs <;> simp [Timers.update, hu]

theorem Timers.expiry_add (u : ι) : (s.uloopTimeoutAdd t).1.expiry u = s.expiry u := by
  unfold Timers.uloopTimeoutAdd Timers.expiry
  by_cases hu : u = t
  · split_ifs <;> simp [Timers.update, hu]
  · split_ifs <;> simp [Timers.update, hu]

/-- A timer that is set is pending, and expires the given milliseconds after the reading of the
clock. -/
theorem Timers.armed_set (s : Timers ι) (ts : Timespec) (t : ι) {msecs : ℤ} (hmsecs : 0 ≤ msecs) :
    ((s.uloopTimeoutSet ts t msecs).1.timer t).pending = true ∧
      (s.uloopTimeoutSet ts t msecs).1.expiry t = (uloopGettime ts).micros + msecs * 1000 := by
  unfold Timers.uloopTimeoutSet
  dsimp only
  rw [Timers.pending_add, Timers.expiry_add, ← micros_expiryTime ts hmsecs]
  exact ⟨.inl rfl, by simp [Timers.expiry, Timers.update]⟩

theorem Timers.Ok.add (hs : s.Ok) (ht : (s.timer t).pending = false)
    (hnear : ∀ u ∈ s.timeouts, s.expiry u - s.expiry t ≤ horizon ∧
      s.expiry t - s.expiry u ≤ horizon) :
    (s.uloopTimeoutAdd t).1.Ok := by
  have hmem : t ∉ s.timeouts := by
    rw [hs.mem_iff, ht]
    exact Bool.false_ne_true
  constructor
  · rw [Timers.timeouts_add ht, (Timers.insert_perm s.timeouts).nodup_iff]
    exact List.nodup_cons.2 ⟨hmem, hs.nodup⟩
  · intro u
    rw [Timers.timeouts_add ht, (Timers.insert_perm s.timeouts).mem_iff, List.mem_cons, hs.mem_iff,
      Timers.pending_add]
  · unfold Timers.Ordered
    simp only [Timers.timeouts_add ht, Timers.expiry_add]
    exact Timers.insert_ordered hs.ordered hnear

theorem Timers.Ok.cancel (hs : s.Ok) (t : ι) : (s.uloopTimeoutCancel t).1.Ok := by
  unfold Timers.uloopTimeoutCancel
  split_ifs with ht
  swap
  · exact hs
  have hexpiry : ∀ u, Timers.expiry
      { s.update t { s.timer t with pending := false } with timeouts := s.timeouts.erase t } u =
        s.expiry u := by
    intro u
    by_cases hu : u = t
    · simp [Timers.expiry, Timers.update, hu]
    · simp [Timers.expiry, Timers.update, hu]
  constructor
  · exact hs.nodup.erase t
  · intro u
    rw [hs.nodup.mem_erase_iff, hs.mem_iff]
    by_cases hu : u = t
    · simp [Timers.update, hu]
    · simp [Timers.update, hu]
  · unfold Timers.Ordered
    simp only [hexpiry]
    exact hs.ordered.sublist List.erase_sublist

/-- The time of a timer that is not pending does not matter. -/
theorem Timers.Ok.update (hs : s.Ok) (ht : (s.timer t).pending = false) {v : Timeout}
    (hv : v.pending = false) : (s.update t v).Ok := by
  have hmem : t ∉ s.timeouts := by
    rw [hs.mem_iff, ht]
    exact Bool.false_ne_true
  constructor
  · exact hs.nodup
  · intro u
    rw [show (s.update t v).timeouts = s.timeouts from rfl]
    by_cases hu : u = t
    · simp [Timers.update, hu, hv, hmem]
    · simp [Timers.update, hu, hs.mem_iff]
  · refine List.Pairwise.imp_of_mem ?_ hs.ordered
    intro a b ha hb hab
    have hne : a ≠ t ∧ b ≠ t := ⟨fun h ↦ hmem (h ▸ ha), fun h ↦ hmem (h ▸ hb)⟩
    simpa [Timers.expiry, Timers.update, hne.1, hne.2] using hab

theorem Timers.pending_cancel : ((s.uloopTimeoutCancel t).1.timer t).pending = false := by
  unfold Timers.uloopTimeoutCancel
  split_ifs with ht
  · simp [Timers.update]
  · simpa using ht

theorem Timers.Ok.set {ts : Timespec} {msecs : ℤ} (hs : s.Ok)
    (hnear : (s.uloopTimeoutSet ts t msecs).1.Near now) : (s.uloopTimeoutSet ts t msecs).1.Ok := by
  unfold Timers.uloopTimeoutSet at hnear ⊢
  simp only at hnear ⊢
  have hstop : (if (s.timer t).pending then (s.uloopTimeoutCancel t).1 else s).Ok ∧
      ((if (s.timer t).pending then (s.uloopTimeoutCancel t).1 else s).timer t).pending =
      false := by
    split_ifs with ht
    · exact ⟨hs.cancel t, Timers.pending_cancel⟩
    · exact ⟨hs, by simpa using ht⟩
  revert hnear hstop
  generalize (if (s.timer t).pending then (s.uloopTimeoutCancel t).1 else s) = s₁
  rintro hnear ⟨hs₁, ht⟩
  revert hnear
  have hs₂ := hs₁.update ht
    (v := { s₁.timer t with time := Timers.expiryTime (uloopGettime ts) msecs }) ht
  have ht₂ : ((s₁.update t
    { s₁.timer t with time := Timers.expiryTime (uloopGettime ts) msecs }).timer
      t).pending = false := by
    simpa [Timers.update] using ht
  revert hs₂ ht₂
  generalize s₁.update t { s₁.timer t with time := Timers.expiryTime (uloopGettime ts) msecs } = s₂
  intro hs₂ ht₂ hnear
  apply hs₂.add ht₂
  intro u hu
  have hmem : ∀ v, v ∈ (s₂.uloopTimeoutAdd t).1.timeouts ↔ v = t ∨ v ∈ s₂.timeouts := by
    intro v
    rw [Timers.timeouts_add ht₂, (Timers.insert_perm s₂.timeouts).mem_iff, List.mem_cons]
  have hu' := (hmem u).2 (.inr hu)
  have ht' := (hmem t).2 (.inl rfl)
  rw [← Timers.expiry_add (t := t) u, ← Timers.expiry_add (t := t) t]
  exact ⟨hnear.timer hu' ht', hnear.timer ht' hu'⟩

/-! ## What a round of the loop fires -/

theorem Timers.cancel_head {rest : List ι} (hs : s.Ok) (hlist : s.timeouts = t :: rest) :
    (s.uloopTimeoutCancel t).1.timeouts = rest ∧
      (∀ u, (s.uloopTimeoutCancel t).1.expiry u = s.expiry u) ∧
      (∀ u, ((s.uloopTimeoutCancel t).1.timer u).cb = (s.timer u).cb) := by
  have ht : (s.timer t).pending = true := (hs.mem_iff t).1 (by simp [hlist])
  unfold Timers.uloopTimeoutCancel
  rw [if_pos ht]
  refine ⟨by simp [hlist], ?_, ?_⟩
  · intro u
    by_cases hu : u = t
    · simp [Timers.expiry, Timers.update, hu]
    · simp [Timers.expiry, Timers.update, hu]
  · intro u
    by_cases hu : u = t
    · simp [Timers.update, hu]
    · simp [Timers.update, hu]

/-- The loop takes timers from the front of the list until the first is later than `tv`. -/
theorem Timers.processLoop_fired {fuel : ℕ} {tv : Timeval} (hs : s.Ok)
    (hfuel : s.timeouts.length ≤ fuel) (hnear : s.Near tv) :
    (processLoop tv fuel s).1.Ok ∧
      ∃ fired, s.timeouts = fired ++ (processLoop tv fuel s).1.timeouts ∧
        (processLoop tv fuel s).2 = fired.filter (fun t ↦ (s.timer t).cb) ∧
        (∀ t ∈ fired, s.expiry t < tv.micros + 1000) ∧
        (∀ t ∈ (processLoop tv fuel s).1.timeouts, tv.micros < s.expiry t + 1000) ∧
        ∀ t, (processLoop tv fuel s).1.expiry t = s.expiry t := by
  induction fuel generalizing s with
  | zero =>
      have hlist : s.timeouts = [] := List.length_eq_zero_iff.1 (Nat.le_zero.1 hfuel)
      refine ⟨hs, [], rfl, rfl, List.forall_mem_nil _, ?_, fun _ ↦ rfl⟩
      intro t ht
      exact absurd (hlist ▸ ht) List.not_mem_nil
  | succ fuel ih =>
      rw [processLoop]
      cases hlist : s.timeouts with
      | nil =>
          refine ⟨hs, [], hlist.symm, rfl, List.forall_mem_nil _, ?_, fun _ ↦ rfl⟩
          intro t ht
          exact absurd (hlist ▸ ht) List.not_mem_nil
      | cons t rest =>
          simp only
          have hmem : t ∈ s.timeouts := by simp [hlist]
          obtain ⟨hle, hge⟩ := hnear.clock hmem
          split_ifs with hlater hcb
          · have hlt : tv.micros < s.expiry t := micros_lt_of_tvDiff_pos hle hge hlater
            refine ⟨hs, [], hlist.symm, rfl, List.forall_mem_nil _, ?_, fun _ ↦ rfl⟩
            have hordered := hs.ordered
            rw [Timers.Ordered, hlist] at hordered
            rw [hlist]
            intro u hu
            rcases List.mem_cons.1 hu with rfl | hu
            · omega
            · have := (List.pairwise_cons.1 hordered).1 u hu
              omega
          all_goals
            have hdue : s.expiry t < tv.micros + 1000 := micros_lt_of_not_tvDiff_pos hle hge hlater
            obtain ⟨hrest, hexpiry, hcbs⟩ := Timers.cancel_head hs hlist
            have hnear' : (s.uloopTimeoutCancel t).1.Near tv := by
              intro x hx y hy
              simp only [Timers.Near, hlist, List.map_cons, List.mem_cons] at hnear
              simp only [hrest, funext hexpiry, List.mem_cons] at hx hy
              exact hnear x (hx.imp_right .inr) y (hy.imp_right .inr)
            obtain ⟨hok, fired, hsplit, hran, hfired, hleft, hsame⟩ :=
              ih (hs.cancel t) (by rw [hrest]; simpa [hlist] using hfuel) hnear'
            simp only [hexpiry, hcbs] at hran hfired hleft hsame
            refine ⟨hok, t :: fired, ?_, ?_, ?_, hleft, hsame⟩
            · rw [List.cons_append, ← hsplit, hrest]
            · simp [hcb, hran]
            · exact List.forall_mem_cons.2 ⟨hdue, hfired⟩

end

/-! ## Runs -/

/-- What is done with the timers. -/
inductive TimerCall (ι : Type u)
  | set (t : ι) (msecs : ℤ)
  | cancel (t : ι)
  | process

/-- A call at a reading `now` of the clock, which does not go back. -/
inductive TimerStep [DecidableEq ι] : Timers ι × Timespec → TimerCall ι → Timers ι × Timespec → Prop
  | set {s : Timers ι} {was now : Timespec} {t : ι} {msecs : ℤ} :
      (uloopGettime was).micros ≤ (uloopGettime now).micros → 0 ≤ msecs →
      (s.uloopTimeoutSet now t msecs).1.Near (uloopGettime now) →
      TimerStep (s, was) (.set t msecs) ((s.uloopTimeoutSet now t msecs).1, now)
  | cancel {s : Timers ι} {was now : Timespec} {t : ι} :
      (uloopGettime was).micros ≤ (uloopGettime now).micros →
      TimerStep (s, was) (.cancel t) ((s.uloopTimeoutCancel t).1, now)
  | process {s : Timers ι} {was now : Timespec} :
      (uloopGettime was).micros ≤ (uloopGettime now).micros → s.Near (uloopGettime now) →
      TimerStep (s, was) .process ((s.uloopProcessTimeouts (uloopGettime now)).1, now)

/-- What is due at `tv` and nothing else is run. -/
structure Timers.OnTime [DecidableEq ι] (s : Timers ι) (tv : Timeval) : Prop where
  /-- The callbacks of the timers that are removed run once each, and no others. -/
  ran : ∀ t, (s.uloopProcessTimeouts tv).2.count t =
    if (s.timer t).pending && !((s.uloopProcessTimeouts tv).1.timer t).pending && (s.timer t).cb
    then 1 else 0
  due : ∀ t, (s.timer t).pending → ((s.uloopProcessTimeouts tv).1.timer t).pending = false →
    s.expiry t < tv.micros + 1000
  left : ∀ t, ((s.uloopProcessTimeouts tv).1.timer t).pending →
    (s.timer t).pending ∧ tv.micros < s.expiry t + 1000

section

variable [DecidableEq ι] {s s' : Timers ι} {was now : Timespec}

theorem Timers.Ok.onTime {tv : Timeval} (hs : s.Ok) (hnear : s.Near tv) : s.OnTime tv := by
  obtain ⟨hok, fired, hsplit, hran, hfired, hleft, -⟩ := Timers.processLoop_fired hs le_rfl hnear
  change (s.uloopProcessTimeouts tv).1.Ok at hok
  change s.timeouts = fired ++ (s.uloopProcessTimeouts tv).1.timeouts at hsplit
  have hnodup := hs.nodup
  rw [hsplit, List.nodup_append] at hnodup
  have hmem : ∀ t, (s.timer t).pending = true ↔
      t ∈ fired ∨ ((s.uloopProcessTimeouts tv).1.timer t).pending = true := by
    intro t
    rw [← hs.mem_iff, ← hok.mem_iff, hsplit, List.mem_append]
  have hfree : ∀ t ∈ fired, ((s.uloopProcessTimeouts tv).1.timer t).pending = false := by
    intro t ht
    rw [← Bool.not_eq_true, ← hok.mem_iff]
    exact fun ht' ↦ hnodup.2.2 t ht t ht' rfl
  constructor
  · intro t
    rw [show (s.uloopProcessTimeouts tv).2 = _ from hran]
    by_cases ht : t ∈ fired
    · rw [hfree t ht, (hmem t).2 (.inl ht)]
      cases hcb : (s.timer t).cb with
      | true =>
          rw [@List.count_filter ι _ _ (fun t ↦ (s.timer t).cb) t fired hcb]
          simpa using List.count_eq_one_of_mem hnodup.1 ht
      | false => simp [List.count_eq_zero, hcb]
    · rw [List.count_eq_zero.2 fun h ↦ ht (List.mem_of_mem_filter h)]
      cases hp : ((s.uloopProcessTimeouts tv).1.timer t).pending with
      | true => simp
      | false => simp [show (s.timer t).pending = false by simpa [ht, hp] using hmem t]
  · intro t ht hgone
    rcases (hmem t).1 ht with hf | hp
    · exact hfired t hf
    · simp [hgone] at hp
  · intro t ht
    exact ⟨(hmem t).2 (.inr ht), hleft t ((hok.mem_iff t).2 ht)⟩

theorem TimerStep.ok {call : TimerCall ι} (hstep : TimerStep (s, was) call (s', now)) (hs : s.Ok) :
    s'.Ok := by
  cases hstep with
  | set _ _ hnear => exact hs.set hnear
  | cancel _ => exact hs.cancel _
  | process _ hnear => exact (Timers.processLoop_fired hs le_rfl hnear).1

/-- After any calls, the list is in order up to a millisecond, a further `uloop_timeout_set` arms
its timer for the time it gives, and a further `uloop_process_timeouts` runs what is due up to a
millisecond. -/
theorem timers_on_time {calls : List (TimerCall ι)} (hempty : s.timeouts = [])
    (hidle : ∀ t, (s.timer t).pending = false) (hrun : Run TimerStep (s, was) calls (s', now)) :
    s'.Ordered ∧
      (∀ later t msecs, 0 ≤ msecs → ((s'.uloopTimeoutSet later t msecs).1.timer t).pending = true ∧
        (s'.uloopTimeoutSet later t msecs).1.expiry t =
          (uloopGettime later).micros + msecs * 1000) ∧
      ∀ later, (uloopGettime now).micros ≤ (uloopGettime later).micros →
        s'.Near (uloopGettime later) → s'.OnTime (uloopGettime later) := by
  have hok : s'.Ok := by
    refine hrun.invariant (I := fun x ↦ x.1.Ok) ?_ ?_
    · rintro ⟨s, was⟩ call ⟨s', now⟩ hs hstep
      exact hstep.ok hs
    · constructor
      · simp [hempty]
      · simp [hempty, hidle]
      · simp [Timers.Ordered, hempty]
  exact ⟨hok.ordered, fun later t _ hmsecs ↦ s'.armed_set later t hmsecs,
    fun later _ hnear ↦ hok.onTime hnear⟩

/-- One timer is set for 7 ms and another for 3 ms; after 4 ms the second one is run. -/
theorem timers_on_time_seven :
    let s : Timers ℕ := ⟨fun _ ↦ ⟨false, true, ⟨0, 0⟩⟩, []⟩
    let now : Timespec := ⟨5, 0, by decide, by decide⟩
    let later : Timespec := ⟨5, 4000000, by decide, by decide⟩
    let both := ((s.uloopTimeoutSet now 1 7).1.uloopTimeoutSet now 2 3).1
    (both.uloopProcessTimeouts (uloopGettime later)).2 = [2] ∧
      both.OnTime (uloopGettime later) ∧
      (both.uloopProcessTimeouts (uloopGettime later)).1.Ordered := by
  intro s now later both
  have hseven : (s.uloopTimeoutSet now 1 7).1.Near (uloopGettime now) := by
    unfold Timers.Near
    decide
  have hthree : both.Near (uloopGettime now) := by
    unfold Timers.Near
    decide
  have hlater : both.Near (uloopGettime later) := by
    unfold Timers.Near
    decide
  have hset : Run TimerStep (s, now) [.set 1 7, .set 2 3] (both, now) :=
    .cons (.set le_rfl (by decide) hseven) (.cons (.set le_rfl (by decide) hthree) (.nil _))
  refine ⟨by decide, (timers_on_time rfl (fun _ ↦ rfl) hset).2.2 later (by decide) hlater, ?_⟩
  exact (timers_on_time rfl (fun _ ↦ rfl)
    (.cons (.set le_rfl (by decide) hseven) (.cons (.set le_rfl (by decide) hthree)
      (.cons (.process (by decide) hlater) (.nil _))))).1

end

end MiniPi.Uloop
