import MiniPi.Fat.Dir

/-!
# Creating and deleting directory entries

The directory side of `file_fat_write_at` and `fat_unlink` in `fs/fat/fat_write.c`, for one
directory.  Block I/O succeeds and a cluster is found whenever the directory needs one; what
`set_contents` does, and whether it fails, is part of the request.

The code changes a copy of the cluster it is in and writes it back with `flush_dir` when it
leaves the cluster at its end and when the call succeeds.  A `Work` is therefore the table on
the disk together with the table as the call sees it, where the two differ at most in that
cluster.
-/

open MiniPi.Lib

namespace MiniPi.Fat

/-! ## Names -/

/-- Padding with spaces, or cutting, to `n` bytes. -/
def padTo (n : ℕ) (s : Str) : Str := s.take n ++ List.replicate (n - s.length) 32

/-- The 11 bytes `set_name` writes. -/
def aliasOf (filename : Str) : Str :=
  let name := filename.map toupper
  let base := name.takeWhile (· ≠ 46)
  let ext := (name.dropWhile (· ≠ 46)).tail
  (if base.length ≤ 8 then padTo 8 base else base.take 6 ++ [126, 49]) ++ padTo 3 ext

/-- `set_name`. -/
def setName (d : Dent) (filename : Str) : Dent :=
  if filename = [] then d else aliasOf filename ++ d.drop 11

/-- The characters `normalize_longname` refuses. -/
def illegalChars : Str := [60, 62, 58, 34, 47, 92, 124, 63, 42]

/-- `normalize_longname`. -/
def normalizeLongname (filename : Str) : Option Str :=
  if 256 ≤ filename.length then none
  else if filename.any fun c ↦ c < 0x20 || illegalChars.contains c then none
  else some (downcase filename)

/-! ## Slots -/

/-- The two bytes of each character of a slot: the characters, a terminator, and filling. -/
def slotUnits (chars : Str) : List (List UInt8) :=
  (chars.map fun c ↦ [c, 0]) ++
    if chars.length < 13 then [0, 0] :: List.replicate (12 - chars.length) [0xff, 0xff] else []

/-- A slot, from `str2slot` and the assignments after it. -/
def mkSlot (id : ℕ) (checksum : UInt8) (chars : Str) : Dent :=
  let units := slotUnits chars
  UInt8.ofNat id :: (units.take 5).flatten ++ [0x0f, 0, checksum] ++
    ((units.drop 5).take 6).flatten ++ [0, 0] ++ (units.drop 11).flatten

/-- The parts of a long name, thirteen characters each. -/
def slotParts : ℕ → Str → List Str
  | 0, _ => []
  | fuel + 1, name =>
      if name.length ≤ 13 then [name] else name.take 13 :: slotParts fuel (name.drop 13)

/-- The slots of `fill_dir_slot` in the order in which they are written: the last part of
the name comes first. -/
def lfnSlots (checksum : UInt8) (lName : Str) : List Dent :=
  let parts := slotParts lName.length lName
  (parts.mapIdx fun i part ↦
    mkSlot (i + 1 + if i + 1 = parts.length then 0x40 else 0) checksum part).reverse

/-! ## The directory -/

/-- A directory on the disk. -/
structure Dir where
  /-- The width of the entries of the file allocation table. -/
  fatSize : FatSize
  /-- The records of the clusters of the directory. -/
  table : List Dent
  /-- The number of records of a cluster. -/
  perClust : ℕ
  /-- The directory is the root. -/
  isRoot : Bool
deriving DecidableEq, Repr

/-- The directory is a chain of clusters, and can get another one. -/
def Dir.growable (dir : Dir) : Bool := !dir.isRoot || dir.fatSize = .fat32

/-- The state of a call. -/
structure Work where
  /-- The table on the disk. -/
  disk : List Dent
  /-- The table with the changes to the current cluster. -/
  mem : List Dent
  /-- The iterator. -/
  itr : Itr
deriving DecidableEq, Repr

/-- Where the directory ends and can grow, `new_dir_table` gives it a cluster: zeros in
memory, and on the disk what was there before. -/
def Dir.grow (dir : Dir) (stale : List Dent) (w : Work) : Work :=
  if w.itr.dent = none ∧ dir.growable then
    ⟨w.disk ++ stale, w.disk ++ List.replicate dir.perClust Dent.zero,
      w.disk.length + 1, some w.disk.length⟩
  else w

/-- `find_directory_entry`: the entry, and the place where the search stopped or where a
new entry can be written. -/
def Dir.findDirectoryEntry (dir : Dir) (filename : Str) (stale : List Dent) : Option Dent × Work :=
  match findEntry dir.table filename with
  | (some d, itr) => (some d, ⟨dir.table, dir.table, itr⟩)
  | (none, itr) => (none, dir.grow stale ⟨dir.table, dir.table, itr⟩)

/-- `flush_dir`. -/
def Work.flushDir (w : Work) : Work := { w with disk := w.mem }

/-- A record is written to the current cluster. -/
def Work.put (w : Work) (i : ℕ) (d : Dent) : Work := { w with mem := w.mem.set i d }

/-- `flush_dir` at the last record of a cluster. -/
def Dir.flushAtEnd (dir : Dir) (w : Work) (i : ℕ) : Work :=
  if (i + 1) % dir.perClust = 0 ∨ i + 1 = w.mem.length then w.flushDir else w

/-- The clusters `i` and the current record are in are the same. -/
def Dir.sameCluster (dir : Dir) (i : ℕ) (itr : Itr) : Bool :=
  itr.dent.any fun j ↦ j / dir.perClust = i / dir.perClust

/-- `fat_itr_next` in a cluster with changes: they are lost when another cluster is read. -/
def Dir.moveOn (dir : Dir) (stale : List Dent) (w : Work) (i : ℕ) : Work :=
  let r := fatItrNext w.mem w.itr
  let w := { w with mem := if dir.sameCluster i r.2 then w.mem else w.disk, itr := r.2 }
  if r.1 = none then dir.grow stale w else w

/-- The last loop of `fill_dir_slot`.  Writing through `NULL` has no result. -/
def Dir.fillDirSlot (dir : Dir) (stale : List Dent) : List Dent → Work → Option Work
  | [], w => some w
  | slot :: slots, w =>
      match w.itr.dent with
      | none => none
      | some i => dir.fillDirSlot stale slots (dir.moveOn stale (dir.flushAtEnd (w.put i slot) i) i)

/-! ## Calls -/

/-- The errors the two functions return. -/
inductive Errno where
  | einval
  | eisdir
  | eio
  | enoent
deriving DecidableEq, Repr

/-- What a call depends on besides the directory; `stale` is what a cluster held that the
call gives to the directory. -/
inductive Request where
  /-- `file_fat_write_at` for the file `filename` of the directory: `start` is the first
  cluster `set_contents` leaves in the entry, and `contents` says whether it succeeds. -/
  | write (filename : Str) (pos : ℤ) (size start : ℕ) (contents : Bool) (stale : List Dent)
  /-- `fat_unlink` for the file `basename`; a directory is deleted if `empty`. -/
  | unlink (basename : Str) (empty : Bool) (stale : List Dent)
deriving DecidableEq, Repr

/-- Bytes of a record are assigned, from the offset on. -/
def setBytes : Dent → ℕ → Str → Dent
  | d, _, [] => d
  | d, offset, b :: bs => setBytes (d.set offset b) (offset + 1) bs

/-- `set_start_cluster`. -/
def setStartCluster (fatSize : FatSize) (d : Dent) (start : ℕ) : Dent :=
  setBytes (if fatSize = .fat32 then setBytes d 20 (leBytes 2 (start / 2 ^ 16)) else d) 26
    (leBytes 2 start)

/-- The part of the record `fill_dentry` and `set_contents` write: the attributes, the
first cluster and the size. -/
def setFile (fatSize : FatSize) (d : Dent) (start size : ℕ) (attr : UInt8) : Dent :=
  setBytes (setStartCluster fatSize (d.set 11 attr) start) 28 (leBytes 4 size)

/-- The record `delete_dentry` writes. -/
def deletedDent : Dent := 0xe5 :: List.replicate 31 0

/-- The directory a call leaves on the disk. -/
def Dir.left (dir : Dir) (w : Work) : Dir := { dir with table := w.disk }

/-- `file_fat_write_at` for a file that exists, in the record `i`. -/
def Dir.overwrite (dir : Dir) (w : Work) (d : Dent) (i : ℕ) (pos : ℤ) (size start : ℕ)
    (contents : Bool) : Except Errno Unit × Dir :=
  if d.isDir then (.error .eisdir, dir)
  else
    let pos : ℤ := if pos = -1 then d.size else pos
    if d.size < pos then (.error .einval, dir)
    else if !contents then (.error .eio, dir)
    else
      let d := setFile dir.fatSize d start (pos + size).toNat d.attr
      (.ok (), dir.left (w.put i d).flushDir)

/-- `file_fat_write_at` for a new file, at the place the search has found. -/
def Dir.create (dir : Dir) (w : Work) (i : ℕ) (filename : Str) (size start : ℕ) (contents : Bool)
    (stale : List Dent) : Option (Except Errno Unit × Dir) := do
  let slots := lfnSlots (mkcksum (aliasOf filename)) filename
  let w ← dir.fillDirSlot stale slots (w.put i (setName Dent.zero filename))
  let i ← w.itr.dent
  let d := setName (w.mem.getD i Dent.zero) filename
  let w := w.put i (setFile dir.fatSize d start size 0x20)
  return if contents then (.ok (), dir.left w.flushDir) else (.error .eio, dir.left w)

/-- `file_fat_write_at`. -/
def Dir.write (dir : Dir) (filename : Str) (pos : ℤ) (size start : ℕ) (contents : Bool)
    (stale : List Dent) : Option (Except Errno Unit × Dir) :=
  match normalizeLongname filename with
  | none => some (.error .einval, dir)
  | some lName =>
      if filename = [] then some (.error .einval, dir)
      else match dir.findDirectoryEntry lName stale with
        | (some d, w) => do
            return dir.overwrite w d (← w.itr.dent) pos size start contents
        | (none, w) =>
            if dir.isRoot ∧ (lName = [46] ∨ lName = [46, 46]) then
              some (.error .einval, dir.left w)
            else match w.itr.dent with
              | none => some (.error .eio, dir.left w)
              | some i =>
                  if pos ≠ 0 then some (.error .einval, dir.left w)
                  else dir.create w i filename size start contents stale

/-- `fat_unlink`. -/
def Dir.unlink (dir : Dir) (basename : Str) (empty : Bool) (stale : List Dent) :
    Option (Except Errno Unit × Dir) :=
  match dir.findDirectoryEntry basename stale with
  | (none, w) => some (.error .enoent, dir.left w)
  | (some d, w) => do
      let i ← w.itr.dent
      if d.isDir ∧ !empty then return (.error .einval, dir)
      else return (.ok (), dir.left (w.put i deletedDent).flushDir)

/-- One call. -/
def Dir.handle (dir : Dir) : Request → Option (Except Errno Unit × Dir)
  | .write filename pos size start contents stale =>
      dir.write filename pos size start contents stale
  | .unlink basename empty stale => dir.unlink basename empty stale

end MiniPi.Fat
