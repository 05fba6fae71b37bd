import MiniPi.Lib.Run
import Mathlib.Order.Basic

/-!
# The redundant environment

Two copies of the environment are stored, each with a CRC and an 8-bit serial.
`env_import_redund` chooses between them at boot, and `env_mmc_save` overwrites the
copy that was not chosen.

The state is the two stored copies and the two variables that outlive a call:
`env_flags`, the serial counter, and `gd->env_valid`, the copy in use.  A boot
clears both (`env_flags` is zero in `.bss`, and `env_init` sets `ENV_VALID` because
the MMC driver has no `init`).  Reads and writes of the card fail as the
environment of the model pleases.  `lastSaved` is not in the source: it records
which copy the last successful save wrote.
-/

open MiniPi.Lib

namespace MiniPi.Env.Redundant

universe u

variable {α : Type u}

/-- The two places a copy is stored in. -/
inductive Slot where
  | first
  | second
deriving DecidableEq, Repr

/-- The other place. -/
def Slot.other : Slot → Slot
  | .first => .second
  | .second => .first

/-- `env_t` as it is stored, with the answer of the CRC check in place of the CRC. -/
structure Stored (α : Type u) where
  /-- Whether the stored CRC matches the data. -/
  crcOk : Bool
  /-- The serial. -/
  flags : UInt8
  /-- The variables. -/
  data : α
deriving DecidableEq, Repr

/-- `enum env_valid`. -/
inductive EnvValid where
  | envInvalid
  | envValid
  | envRedund
deriving DecidableEq, Repr

/-- The card and the variables of the running boot loader. -/
structure State (α : Type u) where
  /-- The copy at the first place. -/
  copy₁ : Stored α
  /-- The copy at the second place. -/
  copy₂ : Stored α
  /-- `env_flags`. -/
  envFlags : UInt8
  /-- `gd->env_valid`. -/
  valid : EnvValid
  /-- The copy written by the last successful save. -/
  lastSaved : Option Slot
deriving DecidableEq, Repr

namespace State

/-- The copy at a place. -/
def copy (s : State α) : Slot → Stored α
  | .first => s.copy₁
  | .second => s.copy₂

/-- The state with one copy overwritten. -/
def setCopy (s : State α) (c : Stored α) : Slot → State α
  | .first => { s with copy₁ := c }
  | .second => { s with copy₂ := c }

end State

/-! ## Loading -/

/-- What a load ends with: the default environment, or the data of a copy. -/
inductive Imported where
  | default
  | copy (slot : Slot)
deriving DecidableEq, Repr

/-- The comparison of `env_import_redund` when both copies are good. -/
def compareSerials (flags₁ flags₂ : UInt8) : EnvValid :=
  if flags₁ = 255 ∧ flags₂ = 0 then .envRedund
  else if flags₂ = 255 ∧ flags₁ = 0 then .envValid
  else if flags₁ > flags₂ then .envValid
  else if flags₂ > flags₁ then .envRedund
  else .envValid

/-- `env_import` with the CRC check. -/
def envImport (s : State α) (slot : Slot) : Imported :=
  if (s.copy slot).crcOk then .copy slot else .default

/-- The end of `env_import_redund`: the counter takes over the serial of the copy
chosen, which is imported without a further check. -/
def importChosen (s : State α) (valid : EnvValid) : Imported × State α :=
  let slot := if valid = .envValid then Slot.first else Slot.second
  (.copy slot, { s with valid := valid, envFlags := (s.copy slot).flags })

/-- `env_import_redund`. -/
def envImportRedund (s : State α) (readFail₁ readFail₂ : Bool) : Imported × State α :=
  match readFail₁, readFail₂ with
  | true, true => (.default, s)
  | false, true => (envImport s .first, { s with valid := .envValid })
  | true, false => (envImport s .second, { s with valid := .envRedund })
  | false, false =>
      match s.copy₁.crcOk, s.copy₂.crcOk with
      | false, false => (.default, s)
      | true, false => importChosen s .envValid
      | false, true => importChosen s .envRedund
      | true, true => importChosen s (compareSerials s.copy₁.flags s.copy₂.flags)

/-- A boot up to the end of `env_mmc_load`.  A card that does not answer is two
failed reads. -/
def boot (s : State α) (readFail₁ readFail₂ : Bool) : Imported × State α :=
  envImportRedund { s with envFlags := 0, valid := .envValid } readFail₁ readFail₂

/-! ## Saving -/

/-- How far a save comes. -/
inductive SaveResult (α : Type u) where
  /-- The card does not answer, or `env_export` fails before it counts. -/
  | notStarted
  /-- The save fails after `env_export` and leaves the card alone. -/
  | failed
  /-- The write fails and leaves a copy with a bad CRC. -/
  | corrupted (flags : UInt8) (data : α)
  /-- The save succeeds. -/
  | written
deriving DecidableEq, Repr

/-- The copy that `env_mmc_save` writes. -/
def State.target (s : State α) : Slot :=
  if s.valid = .envValid then .second else .first

/-- `env_mmc_save`. -/
def envMmcSave (s : State α) (data : α) : SaveResult α → State α
  | .notStarted => s
  | .failed => { s with envFlags := s.envFlags + 1 }
  | .corrupted flags junk =>
      { s.setCopy ⟨false, flags, junk⟩ s.target with envFlags := s.envFlags + 1 }
  | .written =>
      { s.setCopy ⟨true, s.envFlags + 1, data⟩ s.target with
        envFlags := s.envFlags + 1
        valid := if s.valid = .envRedund then .envValid else .envRedund
        lastSaved := some s.target }

/-! ## Histories -/

/-- An event of a history. -/
inductive Event (α : Type u) where
  /-- A boot, and which of the two reads fail. -/
  | boot (readFail₁ readFail₂ : Bool)
  /-- A save, and how far it comes. -/
  | save (data : α) (result : SaveResult α)
deriving DecidableEq, Repr

/-- The state after an event. -/
def Event.run (s : State α) : Event α → State α
  | .boot readFail₁ readFail₂ => (Redundant.boot s readFail₁ readFail₂).2
  | .save data result => envMmcSave s data result

/-- The next serial of the counter `e` is preferred to the serial `o` of the copy
that is not written. -/
def Overtakes (target : Slot) (e o : UInt8) : Prop :=
  o = 255 ∧ e + 1 = 0 ∨ o < e + 1 ∧ ¬(o = 0 ∧ e + 1 = 255) ∨ target = .first ∧ o = e + 1

/-- The counter is ahead of the copy that is not written, if that copy is good. -/
def InSync (s : State α) : Prop :=
  (s.copy s.target.other).crcOk = true →
    Overtakes s.target s.envFlags (s.copy s.target.other).flags

/-- A boot that reads both copies imports the one the last successful save wrote, if
it is still good. -/
def NewestWins (s : State α) : Prop :=
  ∀ slot, s.lastSaved = some slot → (s.copy slot).crcOk = true →
    (Redundant.boot s false false).1 = .copy slot

/-- A move in which a save succeeds only while the counter is in sync. -/
structure SyncedMove (s : State α) (ev : Event α) (s' : State α) : Prop where
  run : s' = ev.run s
  sync : ∀ data, ev = .save data .written → InSync s

section Copies

variable (s : State α) (c : Stored α)

@[simp] theorem State.copy_setCopy_self (slot : Slot) : (s.setCopy c slot).copy slot = c := by
  cases slot <;> rfl

@[simp] theorem State.copy_setCopy_other (slot : Slot) :
    (s.setCopy c slot).copy slot.other = s.copy slot.other := by
  cases slot <;> rfl

end Copies

/-- The answer of the comparison that prefers a copy. -/
def Slot.valid : Slot → EnvValid
  | .first => .envValid
  | .second => .envRedund

/-- The comparison prefers the copy just written exactly when its serial overtakes
the other one. -/
theorem compareSerials_eq_valid_iff (target : Slot) (e o : UInt8) :
    (match target with
      | .first => compareSerials (e + 1) o
      | .second => compareSerials o (e + 1)) = target.valid ↔ Overtakes target e o := by
  unfold Overtakes
  generalize e + 1 = s
  cases target with
  | first =>
      simp only [compareSerials, Slot.valid, true_and]
      split_ifs <;> grind
  | second =>
      simp only [compareSerials, Slot.valid, reduceCtorEq, false_and, or_false]
      split_ifs <;> grind

/-- What a boot that reads both copies imports, seen from a good copy. -/
theorem boot_eq_copy_iff (s : State α) (slot : Slot) (h : (s.copy slot).crcOk = true) :
    (Redundant.boot s false false).1 = .copy slot ↔
      ((s.copy slot.other).crcOk = true →
        compareSerials s.copy₁.flags s.copy₂.flags = slot.valid) := by
  cases slot with
  | first =>
      change s.copy₁.crcOk = true at h
      change _ ↔ (s.copy₂.crcOk = true → _)
      cases h₂ : s.copy₂.crcOk with
      | false => simp [Redundant.boot, envImportRedund, h, h₂, importChosen]
      | true =>
          simp only [Redundant.boot, envImportRedund, h, h₂, importChosen, Slot.valid, true_imp_iff]
          split_ifs with hc <;> simp [hc]
  | second =>
      change s.copy₂.crcOk = true at h
      change _ ↔ (s.copy₁.crcOk = true → _)
      cases h₁ : s.copy₁.crcOk with
      | false => simp [Redundant.boot, envImportRedund, h, h₁, importChosen]
      | true =>
          simp only [Redundant.boot, envImportRedund, h, h₁, importChosen, Slot.valid, true_imp_iff]
          have hcases : ∀ a b, compareSerials a b = .envValid ∨
              compareSerials a b = .envRedund := by
            intro a b
            unfold compareSerials
            split_ifs <;> simp
          rcases hcases s.copy₁.flags s.copy₂.flags with hc | hc <;> simp [hc]

/-- A save that succeeds is what the next boot imports exactly when the counter was
in sync. -/
theorem boot_after_save_iff (s : State α) (data : α) :
    (Redundant.boot (envMmcSave s data .written) false false).1 = .copy s.target ↔ InSync s := by
  have hself : (envMmcSave s data .written).copy s.target = ⟨true, s.envFlags + 1, data⟩ := by
    unfold envMmcSave
    cases s.target <;> rfl
  have hother : (envMmcSave s data .written).copy s.target.other = s.copy s.target.other := by
    unfold envMmcSave
    cases s.target <;> rfl
  rw [boot_eq_copy_iff _ _ (by rw [hself]), hother, InSync]
  refine imp_congr_right fun _ ↦ ?_
  rw [← compareSerials_eq_valid_iff]
  unfold envMmcSave
  cases s.target <;> exact Iff.rfl

/-- Loading changes neither the copies nor the record of the last save. -/
theorem boot_keeps (s : State α) (readFail₁ readFail₂ : Bool) :
    (Redundant.boot s readFail₁ readFail₂).2.copy₁ = s.copy₁ ∧
      (Redundant.boot s readFail₁ readFail₂).2.copy₂ = s.copy₂ ∧
      (Redundant.boot s readFail₁ readFail₂).2.lastSaved = s.lastSaved := by
  unfold Redundant.boot envImportRedund
  cases readFail₁ <;> cases readFail₂ <;> simp only [importChosen]
  · cases s.copy₁.crcOk <;> cases s.copy₂.crcOk <;> simp
  all_goals simp

/-- The property depends on the copies and the last save only. -/
theorem NewestWins.congr {s s' : State α} (h₁ : s'.copy₁ = s.copy₁) (h₂ : s'.copy₂ = s.copy₂)
    (hl : s'.lastSaved = s.lastSaved) (h : NewestWins s) : NewestWins s' := by
  have hcopy : ∀ slot, s'.copy slot = s.copy slot := by
    intro slot
    cases slot
    · exact h₁
    · exact h₂
  intro slot hlast hcrc
  rw [hl] at hlast
  rw [hcopy] at hcrc
  have := h slot hlast hcrc
  rw [boot_eq_copy_iff _ _ hcrc] at this
  rw [boot_eq_copy_iff _ _ (by rw [hcopy, hcrc]), hcopy, h₁, h₂]
  exact this

/-- A save that spoils its target leaves the property: either the copy saved last is
no longer good, or the other one is not. -/
theorem newestWins_corrupted (s : State α) (data junk : α) (flags : UInt8) :
    NewestWins (envMmcSave s data (.corrupted flags junk)) := by
  have hself : (envMmcSave s data (.corrupted flags junk)).copy s.target =
      ⟨false, flags, junk⟩ := by
    unfold envMmcSave
    cases s.target <;> rfl
  intro slot hlast hcrc
  by_cases hslot : slot = s.target
  · rw [hslot, hself] at hcrc
    exact absurd hcrc (by simp)
  · have hother : slot.other = s.target := by
      revert hslot
      cases slot <;> cases s.target <;> simp [Slot.other]
    rw [boot_eq_copy_iff _ _ hcrc, hother, hself]
    exact fun hbad ↦ absurd hbad (by simp)

theorem newestWins_syncedMove (s : State α) (ev : Event α) (s' : State α) (h : NewestWins s)
    (hm : SyncedMove s ev s') : NewestWins s' := by
  obtain ⟨rfl, hsync⟩ := hm
  cases ev with
  | boot readFail₁ readFail₂ =>
      obtain ⟨h₁, h₂, hl⟩ := boot_keeps s readFail₁ readFail₂
      exact h.congr h₁ h₂ hl
  | save data result =>
      cases result with
      | notStarted => exact h
      | failed => exact h.congr rfl rfl rfl
      | corrupted flags junk => exact newestWins_corrupted s data junk flags
      | written =>
          intro slot hlast hcrc
          obtain rfl : s.target = slot := Option.some.inj hlast
          exact (boot_after_save_iff s data).mpr (hsync data rfl)

/-- In every history whose successful saves find the counter in sync, a boot that
reads both copies imports the one saved last; and any successful save in any state
is imported by the next such boot exactly when the counter was in sync. -/
theorem newest_copy_wins :
    (∀ (s s' : State α) (history : List (Event α)), s.lastSaved = none →
      Run SyncedMove s history s' → NewestWins s') ∧
    ∀ (s : State α) (data : α),
      (Redundant.boot (envMmcSave s data .written) false false).1 = .copy s.target ↔ InSync s := by
  refine ⟨fun s s' history hnone hrun ↦ ?_, boot_after_save_iff⟩
  refine hrun.invariant newestWins_syncedMove fun slot hlast ↦ ?_
  rw [hnone] at hlast
  exact absurd hlast (by simp)

/-- Three saves, a boot that cannot read the second copy, and a fourth save: the
counter restarted at zero, so the fourth save has serial `1` and the boot after it
imports the second one. -/
theorem newest_copy_loses :
    ¬∀ (s s' : State ℕ) (history : List (Event ℕ)), s.lastSaved = none →
      Run (fun s ev s' ↦ s' = Event.run s ev) s history s' → NewestWins s' := by
  intro h
  have hrun : Run (fun s ev s' ↦ s' = Event.run s ev)
      (⟨⟨false, 0, 0⟩, ⟨false, 0, 0⟩, 0, .envValid, none⟩ : State ℕ)
      [.boot false false, .save 1 .written, .save 2 .written, .save 3 .written,
        .boot false true, .save 4 .written]
      ⟨⟨true, 2, 2⟩, ⟨true, 1, 4⟩, 1, .envRedund, some .second⟩ :=
    .cons rfl (.cons rfl (.cons rfl (.cons rfl (.cons rfl (.cons rfl (.nil _))))))
  exact absurd (h _ _ _ rfl hrun .second rfl rfl) (by decide)

/-- Two saves and a boot that reads both copies. -/
theorem newest_copy_wins_after_two_saves :
    NewestWins (⟨⟨true, 2, 8⟩, ⟨true, 1, 7⟩, 2, .envValid, some .first⟩ : State ℕ) := by
  have hrun : Run SyncedMove (⟨⟨false, 0, 0⟩, ⟨false, 0, 0⟩, 0, .envValid, none⟩ : State ℕ)
      [.boot false false, .save 7 .written, .save 8 .written]
      ⟨⟨true, 2, 8⟩, ⟨true, 1, 7⟩, 2, .envValid, some .first⟩ := by
    refine .cons ⟨rfl, by simp⟩ (.cons ⟨rfl, fun _ _ h ↦ ?_⟩ (.cons ⟨rfl, fun _ _ _ ↦ ?_⟩ (.nil _)))
    · exact absurd h (by decide)
    · exact Or.inr (Or.inl (by decide))
  exact newest_copy_wins.1 _ _ _ rfl hrun

end MiniPi.Env.Redundant
