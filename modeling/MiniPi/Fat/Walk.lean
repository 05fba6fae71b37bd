import MiniPi.Fat.Entry
import MiniPi.Fat.Visits

/-!
# Walking a directory from cluster to cluster

The iterator of `fs/fat/fat.c` with the links it follows: `next_cluster` takes the next
cluster from the file allocation table, whatever that holds.  Where the records of a
directory come to an end, this iterator is the one on their table.
-/

namespace MiniPi.Fat

/-- The records of a block. -/
abbrev Records := Dent × List Dent

/-- A volume that passed the checks of its boot sector, as the iterator sees it.  The
root directory of FAT12 and FAT16 has at least one sector. -/
structure Image where
  fatSize : FatSize
  /-- `get_fatent`. -/
  fat : ℕ → ℕ
  fat_of_checkClust : ∀ c, fatSize.checkClust c = true → fat c = 0
  /-- The records of a cluster, `none` where the device cannot be read. -/
  cluster : ℕ → Option Records
  rootCluster : ℕ
  /-- The root directory of FAT12 and FAT16, in blocks of the size of a cluster. -/
  rootArea : List Records
  rootArea_ne_nil : rootArea ≠ []

/-- The root area of a volume that does not use it. -/
def unusedRootArea : List Records := [(Dent.zero, [])]

theorem unusedRootArea_ne_nil : unusedRootArea ≠ [] := List.cons_ne_nil _ _

/-- `fat_itr` in a directory. -/
structure DirItr where
  /-- `is_root`. -/
  isRoot : Bool
  /-- `next_clust`, or `none` once `last_cluster` is set. -/
  next : Option ℕ
  /-- The records of the block behind the current one. -/
  rest : List Dent
deriving DecidableEq, Repr

/-- How a turn of the loop of `fat_itr_next` ends. -/
inductive Turn where
  /-- There are no more entries. -/
  | stop
  /-- The record is passed over. -/
  | again
  /-- The iterator stands at an entry. -/
  | found (d : Dent) (names : Names)
deriving DecidableEq, Repr

namespace Image

variable (im : Image)

/-- `fat_itr_root`. -/
def fatItrRoot : DirItr :=
  ⟨true, some (if im.fatSize = .fat32 then im.rootCluster else 0), []⟩

/-- `fat_itr_child`. -/
def fatItrChild (d : Dent) : DirItr :=
  if 0 < d.start im.fatSize then ⟨false, some (d.start im.fatSize), []⟩ else im.fatItrRoot

/-- The block `next_cluster` reads. -/
def readBlock (isRoot : Bool) (clust : ℕ) : Option Records :=
  if isRoot ∧ im.fatSize ≠ .fat32 then im.rootArea[clust]? else im.cluster clust

/-- The number `next_cluster` goes on with. -/
def nextClust (isRoot : Bool) (clust : ℕ) : Option ℕ :=
  if isRoot ∧ im.fatSize ≠ .fat32 then
    if im.rootArea.length ≤ clust + 1 then none else some (clust + 1)
  else if im.fatSize.checkClust (im.fat clust) then none else some (im.fat clust)

/-- `next_cluster`: the records of the block, and the iterator at the first of them. -/
def nextCluster (itr : DirItr) : Option (Dent × DirItr) :=
  itr.next.bind fun clust ↦ (im.readBlock itr.isRoot clust).map fun (d, rest) ↦
    (d, ⟨itr.isRoot, im.nextClust itr.isRoot clust, rest⟩)

/-- The record that `next_dent` goes to. -/
def advance (itr : DirItr) : Option (Dent × DirItr) :=
  match itr.rest with
  | [] => im.nextCluster itr
  | d :: rest => some (d, { itr with rest })

/-- `next_dent`. -/
def nextDent (itr : DirItr) : Option Dent × DirItr :=
  match im.advance itr with
  | none => (none, itr)
  | some (d, itr) => (if d.name0 = 0 then none else some d, itr)

/-- The loop of `extract_vfat_name`, with the record it is at and the name so far. -/
def extractLoop : ℕ → DirItr → Dent → Str → Option (Dent × Str) × DirItr
  | 0, itr, d, lName => (some (d, lName), itr)
  | seqn + 1, itr, d, lName =>
      let buf := slot2str d
      if 256 ≤ lName.length + buf.length then (none, itr)
      else match im.nextDent itr with
        | (none, itr) => (none, itr)
        | (some d, itr) => extractLoop seqn itr d (buf ++ lName)

/-- `extract_vfat_name` at the record `d`. -/
def extractVfatName (itr : DirItr) (d : Dent) : Option (Dent × Str) × DirItr :=
  match im.extractLoop (d.name0 &&& 0xbf).toNat itr d [] with
  | (none, itr) => (none, itr)
  | (some (dent, lName), itr) =>
      if mkcksum (Dent.nameExt dent) ≠ d.aliasChecksum then (none, itr)
        else (some (dent, lName), itr)

/-- One turn of the loop of `fat_itr_next`. -/
def turn (itr : DirItr) : Turn × DirItr :=
  match im.nextDent itr with
  | (none, itr) => (.stop, itr)
  | (some d, itr) =>
      if d.isSkipped then (.again, itr)
      else if d.isVolume then
        if d.startsLongName then
          match im.extractVfatName itr d with
          | (none, itr) => (.again, itr)
          | (some (d, lName), itr) => (.found d ⟨some lName, getName d⟩, itr)
        else (.again, itr)
      else (.found d ⟨none, getName d⟩, itr)

/-- `fat_itr_next`; there is no result when the loop does not end within `fuel` turns. -/
def fatItrNext : ℕ → DirItr → Option (Option (Dent × Names) × DirItr)
  | 0, _ => none
  | fuel + 1, itr =>
      match im.turn itr with
      | (.stop, itr) => some (none, itr)
      | (.again, itr) => fatItrNext fuel itr
      | (.found d names, itr) => some (some (d, names), itr)

/-- The entries up to the first time `fat_itr_next` returns 0. -/
def entries : ℕ → DirItr → Option (List (Dent × Names))
  | 0, _ => none
  | fuel + 1, itr =>
      match im.fatItrNext (fuel + 1) itr with
      | none => none
      | some (none, _) => some []
      | some (some entry, itr) => (entries fuel itr).map (entry :: ·)

/-! ## Directories that end -/

/-- The records of the directory from the position of the iterator on, when the chain of
its clusters ends. -/
inductive Remains : DirItr → List Dent → Prop
  | nil {itr : DirItr} (h : im.advance itr = none) : Remains itr []
  | cons {itr itr' : DirItr} {d : Dent} {ds : List Dent} (h : im.advance itr = some (d, itr'))
      (hrest : Remains itr' ds) : Remains itr (d :: ds)

section Table

variable {im} {itr : DirItr} {table : List Dent} {f : Itr}

end Table

end Image

end MiniPi.Fat
