import MiniPi.Uci.Delta
import MiniPi.Uci.Export

/-!
# Processes that save and commit

Any number of processes call `uci_save` and `uci_commit` on one package.  What a process does
between `uci_open_stream` and `uci_close_stream` on the delta file is one step, and so is a
rename.  The lock on the configuration file belongs to the inode that was opened.
-/

universe u

namespace MiniPi.Uci

open Lib

/-- A change that was saved, with its number among all of them. -/
abbrev Change := Delta × ℕ

/-! ## Reading the delta file -/

/-- `uci_parse_delta_line` on the line that is fetched: the package, or nothing if it throws, and
what follows the line. -/
def deltaTurn (file : Str) (p : Package) : Option Package × Str :=
  match parseDeltaTuple (getln file) with
  | .error _ l => (none, l.file)
  | .ok (cmd, package, t) l =>
      (if package = p.name then (execDelta p cmd t).toOption else none, l.file)

/-- The loop of `uci_parse_delta`, which counts the changes that are carried out. -/
def readDelta : ℕ → Str → Package → Package × ℕ
  | 0, _, p => (p, 0)
  | n + 1, file, p =>
    if file = [] then (p, 0)
    else
      match deltaTurn file p with
      | (none, rest) => readDelta n rest p
      | (some p', rest) => ((readDelta n rest p').1, (readDelta n rest p').2 + 1)

/-- `uci_load_delta_file`: the package, and the number of changes that were carried out. -/
def loadDeltaFile (name : Str) (p : Package) (file : List Change) : Package × ℕ :=
  let text := deltaText name (file.map Prod.fst)
  readDelta text.length text p

/-- The changes that are carried out when the file is read, as far as every turn reads the text of
one of them and no more. -/
def carriedOut (name : Str) : Package → List Change → List Change
  | _, [] => []
  | p, c :: file =>
    match deltaTurn (deltaText name ((c :: file).map Prod.fst)) p with
    | (p', rest) =>
      if rest = deltaText name (file.map Prod.fst) then
        match p' with
        | none => carriedOut name p file
        | some p' => c :: carriedOut name p' file
      else []

theorem readDelta_fst (n : ℕ) (file : Str) (p : Package) :
    (readDelta n file p).1 = parseDeltaLoop n file p := by
  induction n generalizing file p with
  | zero => rfl
  | succ n ih =>
      rw [readDelta, parseDeltaLoop]
      split_ifs with hfile
      · rfl
      unfold deltaTurn
      cases parseDeltaTuple (getln file) with
      | error e l => exact ih l.file p
      | ok r l =>
          obtain ⟨cmd, package, t⟩ := r
          simp only [parseDeltaLine]
          split_ifs with hp
          · cases execDelta p cmd t with
            | error e => exact ih l.file p
            | ok p' => exact ih l.file p'
          · exact ih l.file p

/-- The package is the one that the text of the file makes of it. -/
theorem loadDeltaFile_eq_parseDelta (name : Str) (p : Package) (file : List Change) :
    (loadDeltaFile name p file).1 = parseDelta (deltaText name (file.map Prod.fst)) p :=
  readDelta_fst _ _ p

/-! ## The system -/

/-- What the processes share: the strictness of the parser, the export flag and the package name. -/
structure Context where
  strict : Bool
  flag : Bool
  name : Str

/-- An inode of the configuration directory, with the changes that went into its text. -/
structure ConfigFile where
  inode : ℕ
  text : Str
  applied : List Change
deriving DecidableEq, Repr

/-- Where a process is in `uci_file_commit`.  No file is written in place, so an open file is
known by what it held when it was opened. -/
inductive Phase
  /-- Outside of `uci_save` and `uci_commit`. -/
  | idle
  /-- Waiting in `flock`; `delta` are the unsaved changes of the package. -/
  | opened (f1 : ConfigFile) (delta : List Delta)
  | locked (f1 : ConfigFile) (delta : List Delta)
  /-- The changes of the process itself are in the delta file. -/
  | dumped (f1 : ConfigFile)
  | imported (f1 : ConfigFile) (p : Package)
  /-- The delta file was read and closed again, and `n` changes were counted. -/
  | loaded (f1 : ConfigFile) (p : Package) (n : ℕ) (changes : List Change)
  | flushed (f1 : ConfigFile) (p : Package) (changes : List Change)
  /-- The temporary file `f2` is complete. -/
  | exported (f1 f2 : ConfigFile)
  /-- The lock was given up, and the rename is still to come. -/
  | closed (f1 f2 : ConfigFile)
  /-- At the label `done` with nothing to rename. -/
  | done (f1 : ConfigFile)
deriving DecidableEq, Repr

/-- The files, the locks and the processes. -/
structure Sys (Proc : Type u) where
  /-- The file behind the path of the package. -/
  config : ConfigFile
  /-- The number of the next inode. -/
  inodes : ℕ
  /-- The inodes with a lock on them. -/
  locks : List ℕ
  delta : List Change
  /-- Everything that was saved so far. -/
  saved : List Change
  procs : Proc → Phase

/-- The calls that a process may begin, and its next step inside `uci_commit`. -/
inductive Act
  | save (delta : List Delta)
  | commit (delta : List Delta)
  | next

variable {Proc : Type u} [DecidableEq Proc]

namespace Sys

/-- One file, and no process inside a call. -/
def start (text : Str) : Sys Proc where
  config := ⟨0, text, []⟩
  inodes := 1
  locks := []
  delta := []
  saved := []
  procs := fun _ ↦ .idle

/-- Process `i` moves on. -/
def goto (s : Sys Proc) (i : Proc) (ph : Phase) : Sys Proc :=
  { s with procs := Function.update s.procs i ph }

/-- `uci_save`: the changes are written at the end of the delta file. -/
def save (s : Sys Proc) (delta : List Delta) : Sys Proc :=
  { s with
    delta := s.delta ++ delta.zipIdx s.saved.length
    saved := s.saved ++ delta.zipIdx s.saved.length }

/-- `uci_close_stream` on the configuration file. -/
def unlock (s : Sys Proc) (f1 : ConfigFile) : Sys Proc := { s with locks := s.locks.erase f1.inode }

/-- `uci_save` as one step, and the steps of `uci_file_commit` without `overwrite`. -/
def step (ctx : Context) (s : Sys Proc) (i : Proc) (act : Act) : Option (Sys Proc) :=
  match act, s.procs i with
  | .save delta, .idle => some (s.save delta)
  | .commit delta, .idle => some (s.goto i (.opened s.config delta))
  | .next, .opened f1 delta =>
    if f1.inode ∈ s.locks then none
    else some { s.goto i (.locked f1 delta) with locks := f1.inode :: s.locks }
  | .next, .locked f1 delta => some ((s.save delta).goto i (.dumped f1))
  | .next, .dumped f1 =>
    match uciLoad ctx.strict true ctx.name f1.text with
    | .error _ => some (s.goto i (.done f1))
    | .ok p => some (s.goto i (.imported f1 p))
  | .next, .imported f1 p =>
    let (p', n) := loadDeltaFile ctx.name p s.delta
    some (s.goto i (.loaded f1 p' n (carriedOut ctx.name p s.delta)))
  | .next, .loaded f1 p n changes =>
    -- The delta file is opened a second time, and is cut only if some line was carried out.
    if n = 0 then some (s.goto i (.done f1))
    else some { s.goto i (.flushed f1 p changes) with delta := [] }
  | .next, .flushed f1 p changes =>
    let f2 : ConfigFile := ⟨s.inodes, exportPackage false ctx.flag p, f1.applied ++ changes⟩
    some { s.goto i (.exported f1 f2) with inodes := s.inodes + 1 }
  | .next, .exported f1 f2 => some ((s.unlock f1).goto i (.closed f1 f2))
  | .next, .closed _ f2 => some { s.goto i .idle with config := f2 }
  | .next, .done f1 => some ((s.unlock f1).goto i .idle)
  | _, _ => none

/-- A step of some process. -/
def Step (ctx : Context) (s : Sys Proc) (a : Proc × Act) (s' : Sys Proc) : Prop :=
  s.step ctx a.1 a.2 = some s'

/-- Everything that a step of process `i` can do. -/
inductive Moves (ctx : Context) (s : Sys Proc) (i : Proc) : Act → Sys Proc → Prop
  | save {delta : List Delta} (hi : s.procs i = .idle) : Moves ctx s i (.save delta) (s.save delta)
  | openFile {delta : List Delta} (hi : s.procs i = .idle) :
      Moves ctx s i (.commit delta) (s.goto i (.opened s.config delta))
  | lock {f1 : ConfigFile} {delta : List Delta} (hi : s.procs i = .opened f1 delta)
      (hfree : f1.inode ∉ s.locks) :
      Moves ctx s i .next { s.goto i (.locked f1 delta) with locks := f1.inode :: s.locks }
  | dump {f1 : ConfigFile} {delta : List Delta} (hi : s.procs i = .locked f1 delta) :
      Moves ctx s i .next ((s.save delta).goto i (.dumped f1))
  | importError {f1 : ConfigFile} (hi : s.procs i = .dumped f1) :
      Moves ctx s i .next (s.goto i (.done f1))
  | importFile {f1 : ConfigFile} {p : Package} (hi : s.procs i = .dumped f1)
      (hload : uciLoad ctx.strict true ctx.name f1.text = .ok p) :
      Moves ctx s i .next (s.goto i (.imported f1 p))
  | load {f1 : ConfigFile} {p p' : Package} {n : ℕ} (hi : s.procs i = .imported f1 p)
      (hfile : loadDeltaFile ctx.name p s.delta = (p', n)) :
      Moves ctx s i .next (s.goto i (.loaded f1 p' n (carriedOut ctx.name p s.delta)))
  | noChanges {f1 : ConfigFile} {p : Package} {changes : List Change}
      (hi : s.procs i = .loaded f1 p 0 changes) : Moves ctx s i .next (s.goto i (.done f1))
  | flush {f1 : ConfigFile} {p : Package} {n : ℕ} {changes : List Change}
      (hi : s.procs i = .loaded f1 p n changes) (hne : n ≠ 0) :
      Moves ctx s i .next { s.goto i (.flushed f1 p changes) with delta := [] }
  | exportFile {f1 f2 : ConfigFile} {p : Package} {changes : List Change}
      (hi : s.procs i = .flushed f1 p changes)
      (hf2 : f2 = ⟨s.inodes, exportPackage false ctx.flag p, f1.applied ++ changes⟩) :
      Moves ctx s i .next { s.goto i (.exported f1 f2) with inodes := s.inodes + 1 }
  | close {f1 f2 : ConfigFile} (hi : s.procs i = .exported f1 f2) :
      Moves ctx s i .next ((s.unlock f1).goto i (.closed f1 f2))
  | rename {f1 f2 : ConfigFile} (hi : s.procs i = .closed f1 f2) :
      Moves ctx s i .next { s.goto i .idle with config := f2 }
  | closeDone {f1 : ConfigFile} (hi : s.procs i = .done f1) :
      Moves ctx s i .next ((s.unlock f1).goto i .idle)

theorem moves_of_step {ctx : Context} {s s' : Sys Proc} {i : Proc} {act : Act}
    (h : s.step ctx i act = some s') : Moves ctx s i act s' := by
  unfold step at h
  split at h
  · exact Option.some.inj h ▸ .save ‹_›
  · exact Option.some.inj h ▸ .openFile ‹_›
  · split_ifs at h with hlock
    exact Option.some.inj h ▸ .lock ‹_› hlock
  · exact Option.some.inj h ▸ .dump ‹_›
  · split at h
    · exact Option.some.inj h ▸ .importError ‹_›
    · exact Option.some.inj h ▸ .importFile ‹_› ‹_›
  · exact Option.some.inj h ▸ .load ‹_› rfl
  · rename_i hi
    split_ifs at h with hne
    · exact Option.some.inj h ▸ .noChanges (hne ▸ hi)
    · exact Option.some.inj h ▸ .flush hi hne
  · exact Option.some.inj h ▸ .exportFile ‹_› rfl
  · exact Option.some.inj h ▸ .close ‹_›
  · exact Option.some.inj h ▸ .rename ‹_›
  · exact Option.some.inj h ▸ .closeDone ‹_›
  · cases h

/-! ## What the stored text is made of -/

end Sys

/-- The text is what a chain of commits made of the first one: each of them read the text of some of
these changes and carried them all out. -/
inductive Commits (ctx : Context) (text : Str) : List Change → Str → Prop
  | nil : Commits ctx text [] text
  | commit {applied changes : List Change} {text' : Str} {p : Package} :
      Commits ctx text applied text' → uciLoad ctx.strict true ctx.name text' = .ok p →
      carriedOut ctx.name p changes = changes →
      Commits ctx text (applied ++ changes)
        (exportPackage false ctx.flag (parseDelta (deltaText ctx.name (changes.map Prod.fst)) p))

/-- The package is what these changes make of the file, and they were all carried out. -/
def Carries (ctx : Context) (f1 : ConfigFile) (changes : List Change) (p : Package) : Prop :=
  ∃ p₀, uciLoad ctx.strict true ctx.name f1.text = .ok p₀ ∧
    carriedOut ctx.name p₀ changes = changes ∧
    p = parseDelta (deltaText ctx.name (changes.map Prod.fst)) p₀

/-- What a process knows about the files that it opened and read. -/
def Phase.Sound (ctx : Context) (text : Str) : Phase → Prop
  | .idle => True
  | .opened f1 _ | .locked f1 _ | .dumped f1 | .done f1 => Commits ctx text f1.applied f1.text
  | .imported f1 p =>
    Commits ctx text f1.applied f1.text ∧ uciLoad ctx.strict true ctx.name f1.text = .ok p
  | .loaded f1 p n changes => Commits ctx text f1.applied f1.text ∧
      (n = 0 ∨ Carries ctx f1 changes p)
  | .flushed f1 p changes => Commits ctx text f1.applied f1.text ∧ Carries ctx f1 changes p
  | .exported _ f2 | .closed _ f2 => Commits ctx text f2.applied f2.text

namespace Sys

/-- Every file that is in use is made of the changes that it is said to hold. -/
structure Sound (ctx : Context) (text : Str) (s : Sys Proc) : Prop where
  config : Commits ctx text s.config.applied s.config.text
  procs : ∀ i, (s.procs i).Sound ctx text

theorem forall_update {P : Phase → Prop} {f : Proc → Phase} {i : Proc} {ph : Phase}
    (hf : ∀ j, P (f j)) (hph : P ph) (j : Proc) : P (Function.update f i ph j) := by
  rcases eq_or_ne j i with rfl | hji
  · rwa [Function.update_self]
  · rw [Function.update_of_ne hji]
    exact hf j

/-! ## Nothing is lost -/

end Sys

/-- The changes that only the process has: they are no longer in the delta file, and not yet in
the configuration. -/
def Phase.carried : Phase → List Change
  | .flushed _ _ changes => changes
  | .exported _ f2 | .closed _ f2 => f2.applied
  | _ => []

/-- What is read from the delta file covers it, and what is exported covers the opened file. -/
def Phase.Covers (delta : List Change) : Phase → Prop
  | .loaded _ _ n changes => n = 0 ∨ delta ⊆ changes
  | .exported f1 f2 | .closed f1 f2 => f1.applied ⊆ f2.applied
  | _ => True

/-- The number of changes that the process counted, if it is about to cut the delta file for
them. -/
def Phase.unflushed : Phase → ℕ
  | .loaded _ _ n _ => n
  | _ => 0

theorem Phase.Covers.mono {ph : Phase} {delta delta' : List Change} (h : ph.Covers delta)
    (hsub : delta' ⊆ delta) : ph.Covers delta' := by
  cases ph with
  | loaded f1 p n changes => exact h.imp_right (List.Subset.trans hsub)
  | _ => exact h

namespace Sys

/-- Nothing is written to the delta file while a process is about to cut it. -/
def Undisturbed (s : Sys Proc) (delta : List Delta) : Prop :=
  delta = [] ∨ ∀ j, (s.procs j).unflushed = 0

/-- The steps that lose nothing, by the phase of the process: one that is about to cut the
delta file is not disturbed, the effect of the import is defined, nothing in the delta file is
carried out or every change by a turn of its own, and the rename replaces the file that was
opened. -/
def Careful (ctx : Context) (s : Sys Proc) : Act → Phase → Prop
  | .save delta, _ => s.Undisturbed delta
  | .next, .locked _ delta => s.Undisturbed delta
  | .next, .dumped f1 => uciLoad ctx.strict true ctx.name f1.text ≠ .error .undefined
  | .next, .imported _ p =>
    (loadDeltaFile ctx.name p s.delta).2 = 0 ∨ carriedOut ctx.name p s.delta = s.delta
  | .next, .closed f1 _ => s.config = f1
  | _, _ => True

/-- A careful step. -/
def CarefulStep (ctx : Context) (s : Sys Proc) (a : Proc × Act) (s' : Sys Proc) : Prop :=
  s.Careful ctx a.2 (s.procs a.1) ∧ Step ctx s a s'

section

variable {ctx : Context} {text : Str} {s s' : Sys Proc}

theorem Sound.step (h : s.Sound ctx text) {a : Proc × Act} (hstep : CarefulStep ctx s a s') :
    s'.Sound ctx text := by
  obtain ⟨i, act⟩ := a
  obtain ⟨hcare, hstep⟩ := hstep
  have hi := h.procs i
  cases moves_of_step hstep with
  | save => exact ⟨h.config, h.procs⟩
  | openFile => exact ⟨h.config, forall_update h.procs h.config⟩
  | lock hph | dump hph | importError hph | close hph =>
      rw [hph] at hi
      exact ⟨h.config, forall_update h.procs hi⟩
  | importFile hph hload =>
      rw [hph] at hi
      exact ⟨h.config, forall_update h.procs ⟨hi, hload⟩⟩
  | load hph hfile =>
      rw [hph] at hi
      simp only [hph, Careful, hfile] at hcare
      refine ⟨h.config, forall_update h.procs ⟨hi.1, hcare.imp_right fun hall ↦ ⟨_, hi.2, ?_, ?_⟩⟩⟩
      · rw [hall, hall]
      · rw [hall, ← loadDeltaFile_eq_parseDelta, hfile]
  | noChanges hph =>
      rw [hph] at hi
      exact ⟨h.config, forall_update h.procs hi.1⟩
  | flush hph hne =>
      rw [hph] at hi
      exact ⟨h.config, forall_update h.procs ⟨hi.1, hi.2.resolve_left hne⟩⟩
  | exportFile hph hf2 =>
      subst hf2
      rw [hph] at hi
      obtain ⟨hf, p₀, hload, hall, rfl⟩ := hi
      exact ⟨h.config, forall_update h.procs (.commit hf hload hall)⟩
  | rename hph =>
      rw [hph] at hi
      exact ⟨hi, forall_update h.procs trivial⟩
  | closeDone => exact ⟨h.config, forall_update h.procs trivial⟩

end

/-- Every change is in the delta file, in the configuration or with a process. -/
structure Kept (s : Sys Proc) : Prop where
  saved : ∀ c ∈ s.saved, c ∈ s.delta ∨ c ∈ s.config.applied ∨ ∃ i, c ∈ (s.procs i).carried
  covers : ∀ i, (s.procs i).Covers s.delta

variable {ctx : Context} {text : Str} {s s' : Sys Proc}

/-- A process moves on: what leaves the delta file or the process is with the process or in the
configuration afterwards. -/
theorem Kept.move (h : s.Kept) {i : Proc} {ph : Phase} (hsaved : s'.saved = s.saved)
    (hprocs : s'.procs = Function.update s.procs i ph) (hdelta : s'.delta ⊆ s.delta)
    (hleft : ∀ c ∈ s.delta, c ∈ s'.delta ∨ c ∈ ph.carried)
    (hconfig : s.config.applied ⊆ s'.config.applied)
    (hcarried : ∀ c ∈ (s.procs i).carried, c ∈ s'.config.applied ∨ c ∈ ph.carried)
    (hcovers : ph.Covers s'.delta) : s'.Kept where
  saved := by
    intro c hc
    have hself : c ∈ ph.carried → ∃ j, c ∈ (s'.procs j).carried :=
      fun hc ↦ ⟨i, by rwa [hprocs, Function.update_self]⟩
    rcases h.saved c (hsaved ▸ hc) with hc | hc | ⟨j, hc⟩
    · exact (hleft c hc).imp_right (.inr ∘ hself)
    · exact .inr (.inl (hconfig hc))
    · rcases eq_or_ne j i with rfl | hji
      · exact .inr ((hcarried c hc).imp_right hself)
      · exact .inr (.inr ⟨j, by rwa [hprocs, Function.update_of_ne hji]⟩)
  covers := by
    rw [hprocs]
    exact forall_update (fun j ↦ (h.covers j).mono hdelta) hcovers

theorem Kept.goto (h : s.Kept) {i : Proc} {ph : Phase} (hsub : (s.procs i).carried ⊆ ph.carried)
    (hcovers : ph.Covers s.delta) : (s.goto i ph).Kept :=
  h.move rfl rfl (List.Subset.refl _) (fun _ ↦ .inl) (List.Subset.refl _)
    (fun _ hc ↦ .inr (hsub hc))
    hcovers

omit [DecidableEq Proc] in
theorem Kept.save (h : s.Kept) {delta : List Delta} (hund : s.Undisturbed delta) :
    (s.save delta).Kept where
  saved := by
    intro c hc
    rcases List.mem_append.mp hc with hc | hc
    · exact (h.saved c hc).imp_left (List.mem_append_left _)
    · exact .inl (List.mem_append_right _ hc)
  covers := by
    intro j
    have hj := h.covers j
    rcases hund with rfl | hund
    · simpa [Sys.save] using hj
    · have hund := hund j
      change (s.procs j).Covers _
      cases hph : s.procs j with
      | loaded f1 p n changes =>
          rw [hph] at hund
          exact .inl hund
      | _ =>
          rw [hph] at hj
          exact hj

theorem Kept.step (h : s.Kept) {a : Proc × Act} (hstep : CarefulStep ctx s a s') : s'.Kept := by
  obtain ⟨i, act⟩ := a
  obtain ⟨hcare, hstep⟩ := hstep
  have hi := h.covers i
  cases moves_of_step hstep with
  | save hph => exact h.save hcare
  | dump hph =>
      rw [hph] at hcare
      exact (h.save hcare).goto (by simp [Sys.save, hph, Phase.carried]) trivial
  | openFile hph | importError hph | importFile hph | noChanges hph =>
      exact h.goto (by simp [hph, Phase.carried]) trivial
  | load hph hfile =>
      simp only [hph, Careful, hfile] at hcare
      refine h.goto (by simp [hph, Phase.carried]) ?_
      rcases hcare with hnone | hall
      · exact .inl hnone
      · exact .inr fun c hc ↦ by rwa [hall]
  | lock hph | closeDone hph =>
      obtain ⟨hsaved, hcovers⟩ := h
      exact Kept.move ⟨hsaved, hcovers⟩ rfl rfl (List.Subset.refl _) (fun _ ↦ .inl)
        (List.Subset.refl _) (by simp [hph, Phase.carried]) trivial
  | flush hph hne =>
      -- The lines that are cut are those that the process has carried out.
      rw [hph] at hi
      exact h.move rfl rfl (List.nil_subset _) (fun c hc ↦ .inr (hi.resolve_left hne hc))
        (List.Subset.refl _) (by simp [hph, Phase.carried]) trivial
  | exportFile hph hf2 =>
      subst hf2
      refine h.move rfl rfl (List.Subset.refl _) (fun _ ↦ .inl) (List.Subset.refl _) ?_
        (List.subset_append_left _ _)
      rw [hph]
      exact fun c hc ↦ .inr (List.mem_append_right _ hc)
  | close hph =>
      rw [hph] at hi
      refine h.move rfl rfl (List.Subset.refl _) (fun _ ↦ .inl) (List.Subset.refl _) ?_ hi
      rw [hph]
      exact fun c hc ↦ .inr hc
  | rename hph =>
      -- The new file has what the old one had, because that is the file it was made from.
      rw [hph] at hi hcare
      refine h.move rfl rfl (List.Subset.refl _) (fun _ ↦ .inl) ?_ ?_ trivial
      · exact hcare ▸ hi
      · rw [hph]
        exact fun c hc ↦ .inl hc

/-- No process is inside `uci_save` or `uci_commit`. -/
def Quiet (s : Sys Proc) : Prop := ∀ i, s.procs i = .idle

/-- Every saved change is still in the delta file, or went into the stored configuration. -/
def AllKept (s : Sys Proc) : Prop := ∀ c ∈ s.saved, c ∈ s.delta ∨ c ∈ s.config.applied

/-- Careful processes lose no change, however their steps are interleaved. -/
theorem allKept_of_careful_run {acts : List (Proc × Act)}
    (hrun : Run (CarefulStep ctx) (start text) acts s) (hquiet : s.Quiet) :
    Commits ctx text s.config.applied s.config.text ∧ s.AllKept := by
  have hsound : s.Sound ctx text :=
    hrun.invariant (fun _ _ _ h hstep ↦ h.step hstep) ⟨.nil, fun _ ↦ trivial⟩
  have hkept : s.Kept :=
    hrun.invariant (fun _ _ _ h hstep ↦ h.step hstep) ⟨by simp [start], fun _ ↦ trivial⟩
  refine ⟨hsound.config, fun c hc ↦ ?_⟩
  rcases hkept.saved c hc with hc | hc | ⟨i, hc⟩
  · exact .inl hc
  · exact .inr hc
  · rw [hquiet i] at hc
    cases hc

/-! ## Runs that can be carried out -/

instance (s : Sys Bool) : Decidable s.Quiet := inferInstanceAs (Decidable (∀ i, s.procs i = .idle))

instance (s : Sys Proc) : Decidable s.AllKept :=
  inferInstanceAs (Decidable (∀ c ∈ s.saved, c ∈ s.delta ∨ c ∈ s.config.applied))

instance (s : Sys Bool) (delta : List Delta) : Decidable (s.Undisturbed delta) :=
  inferInstanceAs (Decidable (delta = [] ∨ ∀ j, (s.procs j).unflushed = 0))

instance (ctx : Context) (s : Sys Bool) : ∀ act ph, Decidable (s.Careful ctx act ph)
  | .save delta, _ | .next, .locked _ delta => inferInstanceAs (Decidable (s.Undisturbed delta))
  | .next, .dumped f1 =>
    inferInstanceAs (Decidable (uciLoad ctx.strict true ctx.name f1.text ≠ .error .undefined))
  | .next, .imported _ p =>
    inferInstanceAs (Decidable ((loadDeltaFile ctx.name p s.delta).2 = 0 ∨
      carriedOut ctx.name p s.delta = s.delta))
  | .next, .closed f1 _ => inferInstanceAs (Decidable (s.config = f1))
  | .commit _, _ | .next, .idle | .next, .opened _ _ | .next, .loaded _ _ _ _
  | .next, .flushed _ _ _ | .next, .exported _ _ | .next, .done _ => .isTrue trivial

/-- The steps in the given order, as long as `guard` allows them. -/
def exec (ctx : Context) (guard : Sys Proc → Proc × Act → Bool) :
    Sys Proc → List (Proc × Act) → Option (Sys Proc)
  | s, [] => some s
  | s, a :: acts => if guard s a then (s.step ctx a.1 a.2).bind fun s ↦ exec ctx guard s acts
      else none

theorem run_of_exec {guard : Sys Proc → Proc × Act → Bool} {acts : List (Proc × Act)}
    (h : exec ctx guard s acts = some s') :
    Run (fun s a t ↦ guard s a = true ∧ Step ctx s a t) s acts s' := by
  induction acts generalizing s with
  | nil => exact Option.some.inj h ▸ .nil s
  | cons a acts ih =>
      unfold exec at h
      split_ifs at h with hguard
      obtain ⟨t, ht, h⟩ := Option.bind_eq_some_iff.mp h
      exact .cons ⟨hguard, ht⟩ (ih h)

/-- One section. -/
def oneSection : Str := "config a 'b'\n".toList

/-- The change that sets option `o` of the section. -/
def optionChange (o : Char) : Delta := ⟨.change, ['b'], some [o], some ['1']⟩

/-- The context of the runs below. -/
def strictContext : Context := ⟨true, false, ['n']⟩

/-- `n` steps of process `i`. -/
def nexts (i : Bool) (n : ℕ) : List (Bool × Act) := List.replicate n (i, .next)

/-- A process saves a change, another one commits it. -/
def saveAndCommit : List (Bool × Act) :=
  [(false, .save [optionChange 'x']), (true, .commit [])] ++ nexts true 8

/-- The run can be carried out, and it ends with a change lost and no process in a call. -/
def loses (ctx : Context) (text : Str) (acts : List (Bool × Act)) : Bool :=
  ((start text).exec ctx (fun _ _ ↦ true) acts).any fun s ↦ decide (s.Quiet ∧ ¬ s.AllKept)

/-- A process saves a change while another one is between reading and cutting the delta file. -/
def lateSave : List (Bool × Act) :=
  [(false, .save [optionChange 'x']), (true, .commit [])] ++ nexts true 4 ++
    [(false, .save [optionChange 'y'])] ++ nexts true 4

/-- Both runs can be carried out. -/
theorem runs_oneSection :
    ((start oneSection).exec strictContext
      (fun s a ↦ decide (s.Careful strictContext a.2 (s.procs a.1))) saveAndCommit).any
        (fun s ↦ decide s.Quiet) = true ∧
      loses strictContext oneSection lateSave = true := by
  decide +kernel

/-- The change reaches the stored configuration. -/
theorem allKept_of_careful_run_commit :
    ∃ s, Run (CarefulStep strictContext) (start oneSection) saveAndCommit s ∧ s.Quiet ∧
      Commits strictContext oneSection s.config.applied s.config.text ∧ s.AllKept := by
  obtain ⟨s, hs, hquiet⟩ := (Option.any_eq_true _ _).mp runs_oneSection.1
  have hrun : Run (CarefulStep strictContext) (start oneSection) saveAndCommit s :=
    (run_of_exec hs).mono_of_invariant (I := fun _ ↦ True)
      (fun _ _ _ _ h ↦ ⟨trivial, of_decide_eq_true h.1, h.2⟩) trivial
  exact ⟨s, hrun, of_decide_eq_true hquiet, allKept_of_careful_run hrun (of_decide_eq_true hquiet)⟩

/-- A change is lost when it is saved while another process commits. -/
theorem not_allKept :
    ¬ ∀ (Proc : Type) [DecidableEq Proc] (ctx : Context) (text : Str) (acts : List (Proc × Act))
      (s : Sys Proc), Run (Step ctx) (start text) acts s → s.Quiet → s.AllKept := by
  intro h
  obtain ⟨s, hexec, hs⟩ := (Option.any_eq_true _ _).mp runs_oneSection.2
  obtain ⟨hquiet, hlost⟩ := of_decide_eq_true hs
  have hrun : Run (Step strictContext) (start oneSection) lateSave s :=
    (run_of_exec hexec).mono_of_invariant (I := fun _ ↦ True)
      (fun _ _ _ _ h ↦ ⟨trivial, h.2⟩) trivial
  exact hlost (h _ _ _ _ _ hrun hquiet)

/-- The second commit locks the file that the first one is about to replace, and its rename
undoes the first one.  A line that cannot be carried out is cut along with those that can. -/
example :
    loses strictContext oneSection
        ([(false, .save [optionChange 'x']), (true, .commit [])] ++ nexts true 7 ++
          [(false, .commit [optionChange 'y'])] ++ nexts false 7 ++ nexts true 1 ++ nexts false 1) =
          true ∧
      loses strictContext oneSection
        ([(false, .save [optionChange 'x', ⟨.change, ['c'], some ['x'], some ['1']⟩]),
          (true, .commit [])] ++ nexts true 8) = true := by
  decide +kernel

end Sys

end MiniPi.Uci
