import MiniPi.Env.Redundant
import MiniPi.FwEnv.Flash

/-!
# The redundant environment of the boot loader and of Linux

`env_mmc_save` of the boot loader and `fw_setenv` of `tools/env/fw_env.c` write the same two copies,
and power may be lost while one of them is written.  For both, the copies are one variable, which a
save changes as a whole or not at all.  The copies can be read, the CRC tells a copy that was not
written to its end, and a save only fails where power is lost.
-/

namespace MiniPi.FwEnv

open Env.Redundant Lib

variable {α : Type}

/-! ## `fw_env_open` -/

/-- `enum flag_scheme`, for two copies. -/
inductive FlagScheme
  | boolean
  | incremental

/-- The check for flag scheme compatibility. -/
def flagScheme (type₀ type₁ : MtdType) (isUbi₀ isUbi₁ : Bool) : Option FlagScheme :=
  if type₁ = .norFlash ∧ type₀ = .norFlash then some .boolean
  else if type₁ = .nandFlash ∧ type₀ = .nandFlash then some .incremental
  else if type₁ = .dataFlash ∧ type₀ = .dataFlash then some .boolean
  else if type₁ = .ubiVolume ∧ type₀ = .ubiVolume then some .incremental
  else if type₁ = .absent ∧ type₀ = .absent ∧ isUbi₁ = isUbi₀ then some .incremental
  else none

/-- The choice between two good copies, by their flags. -/
def FlagScheme.choose : FlagScheme → UInt8 → UInt8 → Slot
  | .boolean, flag₀, flag₁ =>
    if flag₀ = 1 ∧ flag₁ = 0 then .first
    else if flag₀ = 0 ∧ flag₁ = 1 then .second
    else if flag₀ = flag₁ then .first
    else if flag₀ = 0xff then .first
    else if flag₁ = 0xff then .second
    else .first
  | .incremental, flag₀, flag₁ =>
    if flag₀ = 255 ∧ flag₁ = 0 then .second
    else if flag₁ = 255 ∧ flag₀ = 0 ∨ flag₁ ≤ flag₀ then .first
    else .second

/-- `dev_current`, and `environment` with its flags and its data: `none` is the default
environment. -/
structure Opened (α : Type) where
  devCurrent : Slot
  flags : UInt8
  data : Option α

/-- A good copy is opened. -/
def openCopy (s : State α) (slot : Slot) :
    Opened α := ⟨slot, (s.copy slot).flags, some (s.copy slot).data⟩

/-- `fw_env_open`, for copies that can be read. -/
def fwEnvOpen (scheme : FlagScheme) (s : State α) : Opened α :=
  match s.copy₁.crcOk, s.copy₂.crcOk with
  | true, false => openCopy s .first
  | false, true => openCopy s .second
  | false, false => ⟨.first, s.copy₁.flags, none⟩
  | true, true => openCopy s (scheme.choose s.copy₁.flags s.copy₂.flags)

/-! ## `fw_env_flush` -/

/-- A write to the copies: a copy as a whole, or the flag of one on NOR flash. -/
inductive CopyWrite (α : Type)
  | image (slot : Slot) (flags : UInt8) (data : α)
  | obsolete (slot : Slot)

/-- `flash_io_write` with `flash_write`, for the copy that is opened and the data that it has
now. -/
def flashIoWrite (scheme : FlagScheme) (opened : Opened α) (data : α) : List (CopyWrite α) :=
  match scheme with
  | .incremental => [.image opened.devCurrent.other (opened.flags + 1) data]
  | .boolean => [.image opened.devCurrent.other 1 data, .obsolete opened.devCurrent]

/-- The copies behind a write. -/
def CopyWrite.run (s : State α) : CopyWrite α → State α
  | .image slot flags data => s.setCopy ⟨true, flags, data⟩ slot
  | .obsolete slot => s.setCopy { s.copy slot with flags := 0 } slot

/-- A write that is cut off: the copies are as they were, or the CRC of a copy is bad. -/
inductive Torn (s : State α) : CopyWrite α → State α → Prop
  | before {write} : Torn s write s
  | inside {slot flags data flags' junk} :
      Torn s (.image slot flags data) (s.setCopy ⟨false, flags', junk⟩ slot)

/-- Writes that are cut off in one of them. -/
inductive Cut : State α → List (CopyWrite α) → State α → Prop
  | here {s write writes s'} : Torn s write s' → Cut s (write :: writes) s'
  | later {s write writes s'} : Cut (write.run s) writes s' → Cut s (write :: writes) s'

/-- `fw_setenv`: the writes for an edit of the environment. -/
def fwEnvSet (scheme : FlagScheme) (s : State α) (edit : Option α → α) : List (CopyWrite α) :=
  flashIoWrite scheme (fwEnvOpen scheme s) (edit (fwEnvOpen scheme s).data)

/-! ## The copy in use -/

/-- The copy that a boot takes. -/
def chosen (s : State α) : Option Slot :=
  match (Env.Redundant.boot s false false).1 with
  | .default => none
  | .copy slot => some slot

/-- The environment of a boot. -/
def told (s : State α) : Option α := (chosen s).map fun slot ↦ (s.copy slot).data

/-- The copy that is written next. -/
def next (s : State α) : Slot := ((chosen s).getD .first).other

theorem choose_incremental (flag₁ flag₂ : UInt8) :
    compareSerials flag₁ flag₂ = (FlagScheme.incremental.choose flag₁ flag₂).valid := by
  unfold compareSerials FlagScheme.choose Slot.valid
  split_ifs <;> grind

theorem chosen_eq (s : State α) : chosen s =
    match s.copy₁.crcOk, s.copy₂.crcOk with
    | false, false => none
    | true, false => some .first
    | false, true => some .second
    | true, true => some (FlagScheme.incremental.choose s.copy₁.flags s.copy₂.flags) := by
  unfold chosen Env.Redundant.boot envImportRedund
  cases h₁ : s.copy₁.crcOk <;> cases h₂ :
    s.copy₂.crcOk <;> simp only [importChosen, choose_incremental]
  · simp
  · simp
  · cases FlagScheme.incremental.choose s.copy₁.flags s.copy₂.flags <;> simp [Slot.valid]

/-- `fw_env_open` has the environment of a boot. -/
theorem fwEnvOpen_data (s : State α) : (fwEnvOpen .incremental s).data = told s := by
  rw [told, chosen_eq, fwEnvOpen]
  cases s.copy₁.crcOk <;> cases s.copy₂.crcOk <;> rfl

theorem fwEnvOpen_devCurrent (s : State α) :
    (fwEnvOpen .incremental s).devCurrent = (chosen s).getD .first := by
  rw [chosen_eq, fwEnvOpen]
  cases s.copy₁.crcOk <;> cases s.copy₂.crcOk <;> rfl

theorem fwEnvOpen_flags (s : State α) {slot : Slot} (h : chosen s = some slot) :
    (fwEnvOpen .incremental s).flags = (s.copy slot).flags := by
  rw [chosen_eq] at h
  rw [fwEnvOpen]
  revert h
  cases s.copy₁.crcOk <;> cases s.copy₂.crcOk <;> simp only [Option.some.injEq, reduceCtorEq,
    false_imp_iff]
  all_goals
    rintro rfl
    rfl

theorem crcOk_of_chosen {s : State α} {slot : Slot} (h : chosen s = some slot) :
    (s.copy slot).crcOk = true := by
  rw [chosen_eq] at h
  revert h
  cases h₁ : s.copy₁.crcOk <;> cases h₂ : s.copy₂.crcOk <;>
    simp only [Option.some.injEq, reduceCtorEq, false_imp_iff]
  · rintro rfl
    exact h₂
  · rintro rfl
    exact h₁
  · rintro rfl
    cases FlagScheme.incremental.choose s.copy₁.flags s.copy₂.flags
    · exact h₁
    · exact h₂

theorem chosen_congr {s s' : State α} (h : ∀ slot, s'.copy slot = s.copy slot) :
    chosen s' = chosen s := by
  have h₁ : s'.copy₁ = s.copy₁ := h .first
  have h₂ : s'.copy₂ = s.copy₂ := h .second
  rw [chosen_eq, chosen_eq, h₁, h₂]

theorem told_congr {s s' : State α} (h : ∀ slot, s'.copy slot = s.copy slot) :
    told s' = told s := by
  rw [told, told, chosen_congr h]
  exact congrArg (Option.map · (chosen s)) (funext fun slot ↦ by rw [h])

theorem Slot.other_other (slot : Slot) : slot.other.other = slot := by
  cases slot <;> rfl

theorem next_of_chosen {s : State α} {slot : Slot} (h : chosen s = some slot) :
    next s = slot.other := by
  rw [next, h]
  rfl

/-- A good copy that is not written next is the one in use. -/
theorem chosen_of_crcOk {s : State α} (h : (s.copy (next s).other).crcOk = true) :
    chosen s = some (next s).other := by
  cases hchosen : chosen s with
  | some slot => rw [next_of_chosen hchosen, Slot.other_other]
  | none =>
      have hfirst : (next s).other = .first := by
        rw [next, hchosen]
        rfl
      rw [hfirst] at h
      have hgood : s.copy₁.crcOk = true := h
      rw [chosen_eq, hgood] at hchosen
      cases hsecond : s.copy₂.crcOk <;> rw [hsecond] at hchosen <;> cases hchosen

/-! ## Saves -/

/-- The next serial is preferred, also where it starts again. -/
theorem overtakes_succ (target : Slot) (f : UInt8) : Overtakes target f f := by
  by_cases hf : f = 255
  · subst hf
    exact .inl ⟨rfl, rfl⟩
  · have hne : f.toNat ≠ 255 := fun h ↦ hf (UInt8.toNat_inj.1 h)
    have hlt := f.toNat_lt
    have hsucc : (f + 1).toNat = f.toNat + 1 := by
      rw [UInt8.toNat_add, UInt8.toNat_one]
      omega
    refine .inr (.inl ⟨UInt8.lt_iff_toNat_lt.2 (by omega), ?_⟩)
    rintro ⟨rfl, hback⟩
    exact absurd hback (by decide)

section Saves

variable {s : State α} {flags : UInt8} {data : α}

/-- Once the next copy is written with the next serial, it is the one in use. -/
theorem chosen_saved (hflags : ∀ slot, chosen s = some slot → flags = (s.copy slot).flags + 1) :
    chosen (s.setCopy ⟨true, flags, data⟩ (next s)) = some (next s) := by
  have hself := s.copy_setCopy_self ⟨true, flags, data⟩ (next s)
  have hother := s.copy_setCopy_other ⟨true, flags, data⟩ (next s)
  have hboot : (Env.Redundant.boot (s.setCopy ⟨true, flags, data⟩ (next s)) false false).1 =
      .copy (next s) := by
    refine (boot_eq_copy_iff _ _ (by rw [hself])).2 fun hgood ↦ ?_
    rw [hother] at hgood
    obtain rfl := hflags _ (chosen_of_crcOk hgood)
    have hovertakes := (compareSerials_eq_valid_iff (next s) (s.copy (next s).other).flags
      (s.copy (next s).other).flags).2 (overtakes_succ _ _)
    generalize next s = slot at hovertakes ⊢
    cases slot <;> exact hovertakes
  rw [chosen, hboot]

theorem told_saved (hflags : ∀ slot, chosen s = some slot → flags = (s.copy slot).flags + 1) :
    told (s.setCopy ⟨true, flags, data⟩ (next s)) = some data := by
  rw [told, chosen_saved hflags, Option.map_some, State.copy_setCopy_self]

theorem chosen_spoiled : chosen (s.setCopy ⟨false, flags, data⟩ (next s)) = chosen s := by
  have hself := s.copy_setCopy_self ⟨false, flags, data⟩ (next s)
  have hother := s.copy_setCopy_other ⟨false, flags, data⟩ (next s)
  cases hchosen : chosen s with
  | some slot =>
      rw [next_of_chosen hchosen] at hself hother ⊢
      rw [Slot.other_other] at hother
      have hboot : (Env.Redundant.boot (s.setCopy ⟨false, flags, data⟩ slot.other) false false).1 =
          .copy slot := by
        refine (boot_eq_copy_iff _ _ (by rw [hother, crcOk_of_chosen hchosen])).2 fun hgood ↦ ?_
        rw [hself] at hgood
        cases hgood
      rw [chosen, hboot]
  | none =>
      cases hnew : chosen (s.setCopy ⟨false, flags, data⟩ (next s)) with
      | none => rfl
      | some slot =>
          have hgood := crcOk_of_chosen hnew
          have hslot : slot ≠ next s := by
            rintro rfl
            rw [hself] at hgood
            cases hgood
          have heq : slot = (next s).other := by
            revert hslot
            cases slot <;> cases next s <;> simp [Slot.other]
          rw [heq, hother] at hgood
          rw [chosen_of_crcOk hgood] at hchosen
          cases hchosen

theorem told_spoiled : told (s.setCopy ⟨false, flags, data⟩ (next s)) = told s := by
  rw [told, told, chosen_spoiled]
  cases hchosen : chosen s with
  | none => rfl
  | some slot =>
      have hother := s.copy_setCopy_other ⟨false, flags, data⟩ (next s)
      rw [next_of_chosen hchosen, Slot.other_other] at hother
      rw [next_of_chosen hchosen, Option.map_some, Option.map_some, hother]

end Saves

/-! ## Both programs -/

/-- The copies with the variables of the boot loader, and whether it runs. -/
structure Board (α : Type) where
  card : State α
  running : Bool

/-- What happens to the copies. -/
inductive Action (α : Type)
  | boot
  | saveenv (data : α)
  | fwSetenv (edit : Option α → α)
  | powerCut

/-- A step of the board.  Power is lost before, inside of or behind a write. -/
inductive Step (scheme : FlagScheme) : Board α → Action α → Board α → Prop
  | boot {s running} : Step scheme ⟨s, running⟩ .boot ⟨(Env.Redundant.boot s false false).2, true⟩
  | saveenv {s data} : Step scheme ⟨s, true⟩ (.saveenv data) ⟨envMmcSave s data .written, true⟩
  | fwSetenv {s running edit} : Step scheme ⟨s, running⟩ (.fwSetenv edit)
      ⟨(fwEnvSet scheme s edit).foldl CopyWrite.run s, false⟩
  | idleCut {s running} : Step scheme ⟨s, running⟩ .powerCut ⟨s, false⟩
  | saveenvCut {s data flags junk} :
      Step scheme ⟨s, true⟩ .powerCut ⟨envMmcSave s data (.corrupted flags junk), false⟩
  | fwSetenvCut {s s' running edit} : Cut s (fwEnvSet scheme s edit) s' →
      Step scheme ⟨s, running⟩ .powerCut ⟨s', false⟩

/-- What it does to the environment, if that is one variable; `none` is the default environment. -/
def Action.run (env : Option α) : Action α → Option α
  | .boot | .powerCut => env
  | .saveenv data => some data
  | .fwSetenv edit => some (edit env)

/-- The variables of a boot loader that runs: it took the copy in use. -/
structure Ready (s : State α) : Prop where
  valid : s.valid = ((chosen s).getD .first).valid
  flags : ∀ slot, chosen s = some slot → s.envFlags = (s.copy slot).flags

variable {s s' : State α}

theorem Ready.target (h : Ready s) : s.target = next s := by
  rw [State.target, h.valid, next]
  cases (chosen s).getD .first <;> rfl

theorem copy_boot (s : State α) (slot : Slot) :
    (Env.Redundant.boot s false false).2.copy slot = s.copy slot := by
  obtain ⟨h₁, h₂, -⟩ := boot_keeps s false false
  cases slot
  · exact h₁
  · exact h₂

theorem ready_boot (s : State α) : Ready (Env.Redundant.boot s false false).2 := by
  have hchosen := chosen_congr (copy_boot s)
  refine ⟨?_, fun slot hslot ↦ ?_⟩
  · rw [hchosen, chosen_eq]
    unfold Env.Redundant.boot envImportRedund
    cases s.copy₁.crcOk <;> cases s.copy₂.crcOk <;> simp only [importChosen,
      choose_incremental] <;> rfl
  · rw [copy_boot]
    rw [hchosen, chosen_eq] at hslot
    revert hslot
    unfold Env.Redundant.boot envImportRedund
    cases s.copy₁.crcOk <;> cases s.copy₂.crcOk <;>
      simp only [importChosen, choose_incremental, Option.some.injEq, reduceCtorEq, false_imp_iff]
    all_goals
      rintro rfl
    · rfl
    · rfl
    · cases FlagScheme.incremental.choose s.copy₁.flags s.copy₂.flags <;> rfl

/-- `saveenv` of the boot loader. -/
theorem told_saveenv (h : Ready s) (data : α) :
    told (envMmcSave s data .written) = some data ∧ Ready (envMmcSave s data .written) := by
  have hflags : ∀ slot, chosen s = some slot → s.envFlags + 1 = (s.copy slot).flags + 1 :=
      fun slot hslot ↦
    congrArg (· + 1) (h.flags slot hslot)
  have hcopy : ∀ slot, (envMmcSave s data .written).copy slot =
      (s.setCopy ⟨true, s.envFlags + 1, data⟩ (next s)).copy slot := by
    intro slot
    rw [← h.target]
    cases slot <;> rfl
  have hchosen := (chosen_congr hcopy).trans (chosen_saved hflags)
  refine ⟨(told_congr hcopy).trans (told_saved hflags), ?_, fun slot hslot ↦ ?_⟩
  · have hvalid : (envMmcSave s data .written).valid = if s.valid = .envRedund then .envValid
      else .envRedund := rfl
    rw [hvalid, hchosen, h.valid, next]
    cases (chosen s).getD .first <;> rfl
  · rw [hchosen] at hslot
    cases hslot
    rw [hcopy, State.copy_setCopy_self]
    rfl

theorem told_saveenvCut (h : Ready s) (data junk : α) (flags : UInt8) :
    told (envMmcSave s data (.corrupted flags junk)) = told s := by
  have hcopy : ∀ slot, (envMmcSave s data (.corrupted flags junk)).copy slot =
      (s.setCopy ⟨false, flags, junk⟩ (next s)).copy slot := by
    intro slot
    rw [← h.target]
    cases slot <;> rfl
  rw [told_congr hcopy, told_spoiled]

theorem fwEnvSet_incremental (s : State α) (edit : Option α → α) : fwEnvSet .incremental s edit =
    [.image (next s) ((fwEnvOpen .incremental s).flags + 1) (edit (told s))] := by
  rw [fwEnvSet, flashIoWrite, fwEnvOpen_devCurrent, fwEnvOpen_data]
  rfl

/-- `fw_setenv`. -/
theorem told_fwSetenv (s : State α) (edit : Option α → α) :
    told ((fwEnvSet .incremental s edit).foldl CopyWrite.run s) = some (edit (told s)) := by
  rw [fwEnvSet_incremental]
  exact told_saved fun slot hslot ↦ congrArg (· + 1) (fwEnvOpen_flags s hslot)

theorem told_fwSetenvCut {edit : Option α → α} (h : Cut s (fwEnvSet .incremental s edit) s') :
    told s' = told s := by
  rw [fwEnvSet_incremental] at h
  cases h with
  | here htorn =>
      cases htorn with
      | before => rfl
      | inside => exact told_spoiled
  | later hcut => cases hcut

/-- A step does to the copies what it does to one variable. -/
theorem Step.told {b b' : Board α} {a : Action α} (h : Step .incremental b a b')
    (hready : b.running = true → Ready b.card) :
    FwEnv.told b'.card = a.run (FwEnv.told b.card) ∧ (b'.running = true → Ready b'.card) := by
  cases h with
  | boot => exact ⟨told_congr (copy_boot _), fun _ ↦ ready_boot _⟩
  | saveenv =>
      obtain ⟨htold, hready'⟩ := told_saveenv (hready rfl) _
      exact ⟨htold, fun _ ↦ hready'⟩
  | fwSetenv => exact ⟨told_fwSetenv _ _, fun hoff ↦ Bool.noConfusion hoff⟩
  | idleCut => exact ⟨rfl, fun hoff ↦ Bool.noConfusion hoff⟩
  | @saveenvCut s data flags junk =>
      exact ⟨told_saveenvCut (hready rfl) data junk flags, fun hoff ↦ Bool.noConfusion hoff⟩
  | fwSetenvCut hcut => exact ⟨told_fwSetenvCut hcut, fun hoff ↦ Bool.noConfusion hoff⟩

/-- A save by `fw_setenv`, which comes to its end or is cut off. -/
inductive FlashStep (scheme : FlagScheme) : State α → (Option α → α) × Bool → State α → Prop
  | done {s edit} : FlashStep scheme s (edit, true) ((fwEnvSet scheme s edit).foldl CopyWrite.run s)
  | cut {s s' edit} : Cut s (fwEnvSet scheme s edit) s' → FlashStep scheme s (edit, false) s'

/-- The same of one variable: a save that is cut off takes place or not. -/
inductive VarStep : Option α → (Option α → α) × Bool → Option α → Prop
  | done {env edit} : VarStep env (edit, true) (some (edit env))
  | kept {env edit} : VarStep env (edit, false) env
  | changed {env edit} : VarStep env (edit, false) (some (edit env))

section Boolean

variable {scheme : FlagScheme} {slot : Slot}

theorem fwEnvOpen_other_bad (h : (s.copy slot).crcOk = true)
    (h' : (s.copy slot.other).crcOk = false) :
    fwEnvOpen scheme s = openCopy s slot := by
  cases slot
  · have h₁ : s.copy₁.crcOk = true := h
    have h₂ : s.copy₂.crcOk = false := h'
    rw [fwEnvOpen, h₁, h₂]
  · have h₂ : s.copy₂.crcOk = true := h
    have h₁ : s.copy₁.crcOk = false := h'
    rw [fwEnvOpen, h₁, h₂]

theorem fwEnvOpen_good (h : (s.copy slot).crcOk = true) (h' : (s.copy slot.other).crcOk = true) :
    fwEnvOpen scheme s = openCopy s (scheme.choose s.copy₁.flags s.copy₂.flags) := by
  have hall : s.copy₁.crcOk = true ∧ s.copy₂.crcOk = true := by
    cases slot
    · exact ⟨h, h'⟩
    · exact ⟨h', h⟩
  rw [fwEnvOpen, hall.1, hall.2]

theorem fwEnvOpen_bad (h : ∀ slot, (s.copy slot).crcOk = false) :
    (fwEnvOpen scheme s).data = none ∧ (fwEnvOpen scheme s).devCurrent = .first := by
  have h₁ : s.copy₁.crcOk = false := h .first
  have h₂ : s.copy₂.crcOk = false := h .second
  rw [fwEnvOpen, h₁, h₂]
  exact ⟨rfl, rfl⟩

/-- A good copy is opened, or there is none. -/
theorem fwEnvOpen_cases (scheme : FlagScheme) (s : State α) :
    (∃ slot, (s.copy slot).crcOk = true ∧ fwEnvOpen scheme s = openCopy s slot) ∨
      ∀ slot, (s.copy slot).crcOk = false := by
  cases h₁ : s.copy₁.crcOk with
  | true =>
      cases h₂ : s.copy₂.crcOk with
      | true =>
          refine .inl ⟨scheme.choose s.copy₁.flags s.copy₂.flags, ?_,
            @fwEnvOpen_good _ s scheme .first h₁ h₂⟩
          cases scheme.choose s.copy₁.flags s.copy₂.flags
          · exact h₁
          · exact h₂
      | false => exact .inl ⟨.first, h₁, @fwEnvOpen_other_bad _ s scheme .first h₁ h₂⟩
  | false =>
      cases h₂ : s.copy₂.crcOk with
      | true => exact .inl ⟨.second, h₂, @fwEnvOpen_other_bad _ s scheme .second h₂ h₁⟩
      | false =>
          refine .inr fun slot ↦ ?_
          cases slot
          · exact h₁
          · exact h₂

/-- Behind both writes the new copy is opened. -/
theorem fwEnvOpen_obsolete (hnew : (s.copy slot.other).crcOk = true)
    (hflag : (s.copy slot.other).flags = 1) (hold : (s.copy slot).flags = 0) :
    fwEnvOpen .boolean s = openCopy s slot.other := by
  cases hcrc : (s.copy slot).crcOk with
  | true =>
      rw [fwEnvOpen_good hcrc hnew]
      congr 1
      cases slot
      · have h₁ : s.copy₁.flags = 0 := hold
        have h₂ : s.copy₂.flags = 1 := hflag
        rw [h₁, h₂]
        rfl
      · have h₂ : s.copy₂.flags = 0 := hold
        have h₁ : s.copy₁.flags = 1 := hflag
        rw [h₁, h₂]
        rfl
  | false => exact fwEnvOpen_other_bad hnew (by rw [Slot.other_other, hcrc])

/-- A copy that is spoiled is not opened, and the other one is as before. -/
theorem fwEnvOpen_spoiled (flags : UInt8) (junk : α) :
    (fwEnvOpen scheme (s.setCopy ⟨false, flags, junk⟩ (fwEnvOpen scheme s).devCurrent.other)).data =
      (fwEnvOpen scheme s).data := by
  obtain ⟨slot, hgood, hopen⟩ | hbad := fwEnvOpen_cases scheme s
  · rw [hopen]
    have hself := s.copy_setCopy_self ⟨false, flags, junk⟩ slot.other
    have hother := s.copy_setCopy_other ⟨false, flags, junk⟩ slot.other
    rw [Slot.other_other] at hother
    change (fwEnvOpen scheme (s.setCopy ⟨false, flags, junk⟩ slot.other)).data =
      some (s.copy slot).data
    rw [@fwEnvOpen_other_bad _ _ _ slot (by rw [hother, hgood]) (by rw [hself]), openCopy, hother]
  · have hall : ∀ slot,
      ((s.setCopy ⟨false, flags, junk⟩ (fwEnvOpen scheme s).devCurrent.other).copy slot).crcOk =
        false := by
      rw [(fwEnvOpen_bad hbad).2]
      intro slot
      cases slot
      · exact hbad .first
      · rfl
    rw [(fwEnvOpen_bad hall).1, (fwEnvOpen_bad hbad).1]

/-- Where the new copy is written and the old one is not obsolete yet, one of them is opened. -/
theorem fwEnvOpen_image (flags : UInt8) (data : α) :
    (fwEnvOpen scheme (s.setCopy ⟨true, flags, data⟩ (fwEnvOpen scheme s).devCurrent.other)).data =
    some data ∨
      (fwEnvOpen scheme (s.setCopy ⟨true, flags, data⟩
        (fwEnvOpen scheme s).devCurrent.other)).data =
        (fwEnvOpen scheme s).data := by
  generalize htarget : (fwEnvOpen scheme s).devCurrent.other = target
  have hself := s.copy_setCopy_self ⟨true, flags, data⟩ target
  have hother := s.copy_setCopy_other ⟨true, flags, data⟩ target
  obtain ⟨slot, hgood, hopen⟩ | hbad :=
    fwEnvOpen_cases scheme (s.setCopy ⟨true, flags, data⟩ target)
  · rw [hopen]
    by_cases hslot : slot = target
    · refine .inl ?_
      rw [openCopy, hslot, hself]
    · have heq : slot = target.other := by
        revert hslot
        cases slot <;> cases target <;> simp [Slot.other]
      refine .inr ?_
      rw [heq, hother] at hgood
      obtain ⟨slot', hgood', hopen'⟩ | hbad' := fwEnvOpen_cases scheme s
      · rw [hopen'] at htarget ⊢
        obtain rfl : slot'.other = target := htarget
        rw [openCopy, openCopy, heq, hother, Slot.other_other]
      · rw [hbad'] at hgood
        cases hgood
  · have hcrc := hbad target
    rw [hself] at hcrc
    cases hcrc

end Boolean

theorem FlashStep.sim {edit : (Option α → α) × Bool} (h : FlashStep .boolean s edit s') :
    VarStep (fwEnvOpen .boolean s).data edit (fwEnvOpen .boolean s').data := by
  cases h with
  | @done edit =>
      have hnew : fwEnvOpen .boolean ((fwEnvSet .boolean s edit).foldl CopyWrite.run s) =
          openCopy ((fwEnvSet .boolean s edit).foldl CopyWrite.run s)
          (fwEnvOpen .boolean s).devCurrent.other := by
        rw [fwEnvSet, flashIoWrite]
        generalize (fwEnvOpen .boolean s).devCurrent = slot
        refine fwEnvOpen_obsolete ?_ ?_ ?_ <;> cases slot <;> rfl
      have hdata : (fwEnvOpen .boolean ((fwEnvSet .boolean s edit).foldl CopyWrite.run s)).data =
          some (edit (fwEnvOpen .boolean s).data) := by
        rw [hnew, fwEnvSet, flashIoWrite]
        generalize (fwEnvOpen .boolean s).devCurrent = slot
        cases slot <;> rfl
      rw [hdata]
      exact .done
  | @cut _ edit hcut =>
      rw [fwEnvSet, flashIoWrite] at hcut
      cases hcut with
      | here htorn =>
          cases htorn with
          | before => exact .kept
          | inside =>
              rw [fwEnvOpen_spoiled]
              exact .kept
      | later hcut =>
          cases hcut with
          | here htorn =>
              cases htorn with
              | before =>
                  obtain hnew | hold :=
                    @fwEnvOpen_image α s .boolean 1 (edit (fwEnvOpen .boolean s).data)
                  · rw [CopyWrite.run, hnew]
                    exact .changed
                  · rw [CopyWrite.run, hold]
                    exact .kept
          | later hcut => cases hcut

/-- In every run of `fw_setenv` on flash with a flag, a save changes the environment as a whole or
not at all, and not at all only where it is cut off. -/
theorem run_flash {type : MtdType} {scheme : FlagScheme}
    (htype : type = .norFlash ∨ type = .dataFlash)
    (hscheme : flagScheme type type false false = some scheme)
    {edits : List ((Option α → α) × Bool)} (h : Run (FlashStep scheme) s edits s') :
    Run VarStep (fwEnvOpen scheme s).data edits (fwEnvOpen scheme s').data := by
  obtain rfl : FlagScheme.boolean = scheme := by
    obtain rfl | rfl := htype <;> exact Option.some.inj hscheme
  obtain ⟨env, hrun, rfl⟩ := @Run.simulates _ _ _ (FlashStep .boolean) VarStep
    (fun s env ↦ (fwEnvOpen .boolean s).data = env)
      (fun _ _ _ _ heq hstep ↦ ⟨_, heq ▸ hstep.sim, rfl⟩) _ _ _ h _ rfl
  exact hrun

/-- A save, and one that is cut off between its two writes. -/
theorem run_flash_two : ∃ s' : State ℕ, Run VarStep (some 1)
    [(fun env ↦ env.getD 0 + 1, true), (fun env ↦ env.getD 0 + 1, false)]
    (fwEnvOpen .boolean s').data := by
  have hrun : ∃ s', Run (FlashStep .boolean)
    (⟨⟨true, 1, 1⟩, ⟨false, 255, 0⟩, 0, .envValid, none⟩ : State ℕ)
      [(fun env ↦ env.getD 0 + 1, true), (fun env ↦ env.getD 0 + 1, false)] s' :=
    ⟨_, .cons .done (.cons (.cut (.later (.here .before))) (.nil _))⟩
  obtain ⟨s', hrun⟩ := hrun
  exact ⟨s', @run_flash ℕ _ _ .norFlash .boolean (.inl rfl) rfl _ hrun⟩

end MiniPi.FwEnv
