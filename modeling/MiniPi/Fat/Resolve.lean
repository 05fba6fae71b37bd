import MiniPi.Fat.Walk

/-!
# Looking a path up

`fat_itr_resolve` of `fs/fat/fat.c`, and `clear_fatent` of `fs/fat/fat_write.c`.  Both
follow the links of the volume without a bound, and have no result when the fuel is used
up before they end.
-/

namespace MiniPi.Fat

/-! ## Comparing a component -/

/-- `ISDIRDELIM`. -/
def isDirDelim (c : UInt8) : Bool := c = 47 || c = 92

/-- `!strncasecmp`, for strings that a zero ends. -/
def strncasecmp : ℕ → Str → Str → Bool
  | 0, _, _ => true
  | len + 1, s₁, s₂ =>
      let c₁ := s₁.headD 0
      let c₂ := s₂.headD 0
      if c₁ = 0 ∨ c₂ = 0 then c₁ = c₂
      else tolower c₁ = tolower c₂ && strncasecmp len s₁.tail s₂.tail

/-- The comparison of `fat_itr_resolve`: `path` begins with a component of the given
length. -/
def Names.matchesPath (path : Str) (length : ℕ) (names : Names) : Bool :=
  let n := max names.name.length length
  strncasecmp n path names.name || (names.long.isSome && strncasecmp n path names.short)

/-! ## The lookup -/

/-- The bits of `type`. -/
structure FileType where
  /-- `TYPE_FILE`. -/
  file : Bool
  /-- `TYPE_DIR`. -/
  dir : Bool
deriving DecidableEq, Repr

/-- The errors of a lookup. -/
inductive ResolveError where
  | enoent
  | enotdir
deriving DecidableEq, Repr

/-- Where a successful lookup leaves the iterator. -/
inductive Resolved where
  /-- At the start of a directory. -/
  | dir (itr : DirItr)
  /-- At the entry of a file. -/
  | file (d : Dent) (names : Names)
deriving DecidableEq, Repr

/-- What one call of `fat_itr_resolve` does before it calls itself. -/
inductive Level where
  /-- It returns. -/
  | ends (r : Except ResolveError Resolved)
  /-- It goes on with the rest of the path in a directory. -/
  | goesOn (path : Str) (itr : DirItr)

/-- The first component of a path that does not begin with a separator. -/
def component (path : Str) : Str := path.takeWhile fun c ↦ !isDirDelim c

/-- `next`, the path behind its first component. -/
def afterComponent (path : Str) : Str := path.dropWhile fun c ↦ !isDirDelim c

/-- The leading separators are chomped. -/
def chomp (path : Str) : Str := path.dropWhile isDirDelim

/-- The component stands for the directory itself when that is the root. -/
def isDots (comp : Str) : Bool := comp = [46] || comp = [46, 46]

/-- The lookup ends with a directory. -/
def FileType.atDir (type : FileType) (itr : DirItr) : Except ResolveError Resolved :=
  if type.dir then .ok (.dir itr) else .error .enoent

namespace Image

variable (im : Image)

/-- The loop of `fat_itr_resolve`: the first entry that matches. -/
def findMatch (path : Str) : ℕ → DirItr → Option (Option (Dent × Names))
  | 0, _ => none
  | fuel + 1, itr =>
      match im.fatItrNext (fuel + 1) itr with
      | none => none
      | some (none, _) => some none
      | some (some (d, names), itr) =>
          if names.matchesPath path (component path).length then some (some (d, names))
          else findMatch path fuel itr

/-- `fat_itr_resolve` once its loop has ended. -/
def levelAt (type : FileType) (next : Str) : Option (Dent × Names) → Level
  | none => .ends (.error .enoent)
  | some (d, names) =>
      if d.isDir then .goesOn next (im.fatItrChild d)
      else .ends
        (if next ≠ [] then .error .enoent
        else if type.file then .ok (.file d names)
        else .error .enotdir)

/-- The body of `fat_itr_resolve`: what it returns, or what it calls itself with. -/
def resolveLevel (type : FileType) (fuel : ℕ) (path : Str) (itr : DirItr) : Option Level :=
  let path := chomp path
  if path = [] then some (.ends (type.atDir itr))
  else
    let next := afterComponent path
    if itr.isRoot ∧ isDots (component path) then
      some (if next = [] then .ends (type.atDir im.fatItrRoot) else .goesOn next im.fatItrRoot)
    else
      (im.findMatch path fuel itr).map (im.levelAt type next)

/-- `fat_itr_resolve`. -/
def fatItrResolve (type : FileType) : ℕ → Str → DirItr → Option (Except ResolveError Resolved)
  | 0, _, _ => none
  | fuel + 1, path, itr =>
      match im.resolveLevel type (fuel + 1) path itr with
      | none => none
      | some (.ends r) => some r
      | some (.goesOn path itr) => fatItrResolve type fuel path itr

end Image

/-- The loop of `clear_fatent`: the table after it. -/
def clearFatent (fatSize : FatSize) : ℕ → (ℕ → ℕ) → ℕ → Option (ℕ → ℕ)
  | 0, _, _ => none
  | fuel + 1, fat, entry =>
      if fatSize.checkClust entry then some fat
      else if fat entry = 0 then some fat
      else clearFatent fatSize fuel (Function.update fat entry 0) (fat entry)

/-! ## More fuel -/

theorem exists_of_succ_le {n m : ℕ} (h : n + 1 ≤ m) : ∃ k, m = k + 1 ∧ n ≤ k := by
  cases m with
  | zero => exact absurd h (Nat.not_succ_le_zero n)
  | succ k => exact ⟨k, rfl, Nat.le_of_succ_le_succ h⟩

namespace Image

variable {im : Image} {itr : DirItr} {path : Str}

theorem fatItrNext_mono {fuel fuel' : ℕ} {r : Option (Dent × Names) × DirItr}
    (h : im.fatItrNext fuel itr = some r) (hle : fuel ≤ fuel') :
    im.fatItrNext fuel' itr = some r := by
  induction fuel generalizing itr fuel' with
  | zero => cases h
  | succ fuel ih =>
      obtain ⟨fuel', rfl, hle'⟩ := exists_of_succ_le hle
      rw [fatItrNext] at h ⊢
      generalize im.turn itr = t at h ⊢
      obtain ⟨_ | _ | ⟨d, names⟩, itr'⟩ := t
      · exact h
      · exact ih h hle'
      · exact h

theorem findMatch_mono {fuel fuel' : ℕ} {r : Option (Dent × Names)}
    (h : im.findMatch path fuel itr = some r) (hle : fuel ≤ fuel') :
    im.findMatch path fuel' itr = some r := by
  induction fuel generalizing itr fuel' with
  | zero => cases h
  | succ fuel ih =>
      obtain ⟨fuel', rfl, hle'⟩ := exists_of_succ_le hle
      rw [findMatch] at h ⊢
      split at h
      · cases h
      · rename_i itr' hn
        rw [fatItrNext_mono hn hle]
        exact h
      · rename_i d names itr' hn
        rw [fatItrNext_mono hn hle]
        dsimp only
        split_ifs at h ⊢
        · exact h
        · exact ih h hle'

theorem resolveLevel_mono {type : FileType} {fuel fuel' : ℕ} {r : Level}
    (h : im.resolveLevel type fuel path itr = some r) (hle : fuel ≤ fuel') :
    im.resolveLevel type fuel' path itr = some r := by
  rw [resolveLevel] at h ⊢
  dsimp only at h ⊢
  split_ifs at h ⊢
  · exact h
  · exact h
  · exact h
  · obtain ⟨o, ho, rfl⟩ := Option.map_eq_some_iff.mp h
    rw [findMatch_mono ho hle, Option.map_some]

theorem fatItrResolve_mono {type : FileType} {fuel fuel' : ℕ} {r : Except ResolveError Resolved}
    (h : im.fatItrResolve type fuel path itr = some r) (hle : fuel ≤ fuel') :
    im.fatItrResolve type fuel' path itr = some r := by
  induction fuel generalizing itr path fuel' with
  | zero => cases h
  | succ fuel ih =>
      obtain ⟨fuel', rfl, hle'⟩ := exists_of_succ_le hle
      rw [fatItrResolve] at h ⊢
      split at h
      · cases h
      · rename_i hl
        rw [resolveLevel_mono hl hle]
        exact h
      · rename_i hl
        rw [resolveLevel_mono hl hle]
        exact ih h hle'

end Image

end MiniPi.Fat
