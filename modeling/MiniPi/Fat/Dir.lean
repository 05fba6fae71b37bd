import MiniPi.Fat.Entry

/-!
# Directory tables

The directories of `fs/fat/fat.c`: a table of records of 32 bytes, each a `dir_entry` or,
under the same bytes, a `dir_slot` with a part of a long name.  The table is the content of
the clusters of the directory one after the other; how the iterator loads them is left out.
`char` is unsigned.
-/

namespace MiniPi.Fat

open Lib

/-- A string without its terminator. -/
abbrev Str := List UInt8

/-! ## Characters -/

/-- `islower`, by the table of `lib/ctype.c`. -/
def islower (c : UInt8) : Bool := (97 ≤ c && c ≤ 122) || (223 ≤ c && c != 247)

/-- `isupper`. -/
def isupper (c : UInt8) : Bool := (65 ≤ c && c ≤ 90) || (192 ≤ c && c ≤ 222 && c != 215)

/-- `toupper`. -/
def toupper (c : UInt8) : UInt8 := if islower c then c - 32 else c

/-- `tolower`. -/
def tolower (c : UInt8) : UInt8 := if isupper c then c + 32 else c

/-- `downcase`, for a string that fits its length. -/
def downcase (s : Str) : Str := s.map tolower

/-! ## Records -/

/-- A record of a directory table, 32 bytes. -/
abbrev Dent := List UInt8

namespace Dent

/-- A byte of a record. -/
def byte (d : Dent) (i : ℕ) : UInt8 := d.getD i 0

/-- `dent->name[0]`, which is also `slot->id`. -/
def name0 (d : Dent) : UInt8 := d.byte 0

/-- `dent->name` and `dent->ext`: the 8.3 name. -/
def nameExt (d : Dent) : Str := d.take 11

/-- `dent->attr`. -/
def attr (d : Dent) : UInt8 := d.byte 11

/-- `dent->lcase`. -/
def lcase (d : Dent) : UInt8 := d.byte 12

/-- `slot->alias_checksum`. -/
def aliasChecksum (d : Dent) : UInt8 := d.byte 13

/-- `START`. -/
def start (fatSize : FatSize) (d : Dent) : ℕ :=
  leValue ((d.drop 26).take 2) +
    if fatSize = .fat32 then leValue ((d.drop 20).take 2) * 2 ^ 16 else 0

/-- `dent->size`. -/
def size (d : Dent) : ℕ := leValue ((d.drop 28).take 4)

/-- A record of zeros: the end of the directory. -/
def zero : Dent := List.replicate 32 0

/-- `fat_itr_isdir`. -/
def isDir (d : Dent) : Bool := d.attr &&& 0x10 != 0

/-- `dent->attr & ATTR_VOLUME`. -/
def isVolume (d : Dent) : Bool := d.attr &&& 0x08 != 0

/-- The record starts a long name. -/
def startsLongName (d : Dent) : Bool := d.attr &&& 0x0f == 0x0f && d.name0 &&& 0x40 != 0

/-- `name[0] == DELETED_FLAG || name[0] == aRING`. -/
def isSkipped (d : Dent) : Bool := d.name0 == 0xe5 || d.name0 == 0x05

end Dent

/-- `mkcksum`. -/
def mkcksum (name : Str) : UInt8 :=
  name.foldl (fun ret c ↦ ((ret &&& 1) <<< 7 ||| (ret &&& 0xfe) >>> 1) + c) 0

/-- The positions of the low bytes of the characters of a slot. -/
def slotOffsets : List ℕ := [1, 3, 5, 7, 9, 14, 16, 18, 20, 22, 24, 28, 30]

/-- `slot2str`: the characters of a slot before a terminator. -/
def slot2str (d : Dent) : Str := (slotOffsets.map d.byte).takeWhile (· ≠ 0)

/-- The characters of a part of an 8.3 name. -/
def trimName (s : Str) : Str := s.takeWhile fun c ↦ c ≠ 0 ∧ c ≠ 32

/-- `get_name`. -/
def getName (d : Dent) : Str :=
  let base := trimName (d.take 8)
  let base := if d.lcase &&& 0x08 ≠ 0 then downcase base else base
  let ext := trimName ((d.drop 8).take 3)
  let ext := if d.lcase &&& 0x10 ≠ 0 then downcase ext else ext
  let s := if ext = [] then base else base ++ 46 :: ext
  match s with
  | 0xe5 :: _ => []
  | 0x05 :: s => 0xe5 :: s
  | s => s

/-! ## The iterator -/

/-- `fat_itr`: the record `next_dent` goes to, and the current one. -/
structure Itr where
  /-- The index of the next record. -/
  next : ℕ
  /-- The index of the current record, `none` for `NULL`. -/
  dent : Option ℕ
deriving DecidableEq, Repr

/-- An iterator at the start of a directory. -/
def Itr.start : Itr := ⟨0, none⟩

/-- `next_dent`. -/
def nextDent (table : List Dent) (itr : Itr) : Option Dent × Itr :=
  match table[itr.next]? with
  | none => (none, { itr with dent := none })
  | some d => (if d.name0 = 0 then none else some d, ⟨itr.next + 1, some itr.next⟩)

/-- The loop of `extract_vfat_name`, with the record it is at and the name so far. -/
def extractLoop (table : List Dent) : ℕ → Itr → Dent → Str → Option (Dent × Str) × Itr
  | 0, itr, d, lName => (some (d, lName), itr)
  | seqn + 1, itr, d, lName =>
      let buf := slot2str d
      if 256 ≤ lName.length + buf.length then (none, itr)
      else match nextDent table itr with
        | (none, itr) => (none, itr)
        | (some d, itr) => extractLoop table seqn itr d (buf ++ lName)

/-- `extract_vfat_name` at the record `d`: the record after the slots and the long name. -/
def extractVfatName (table : List Dent) (itr : Itr) (d : Dent) : Option (Dent × Str) × Itr :=
  match extractLoop table (d.name0 &&& 0xbf).toNat itr d [] with
  | (none, itr) => (none, itr)
  | (some (dent, lName), itr) =>
      if mkcksum (Dent.nameExt dent) ≠ d.aliasChecksum then (none, itr)
        else (some (dent, lName), itr)

/-- The names at the position of an iterator. -/
structure Names where
  /-- `l_name`, if the entry has one. -/
  long : Option Str
  /-- `s_name`. -/
  short : Str
deriving DecidableEq, Repr

/-- `itr->name`. -/
def Names.name (n : Names) : Str := n.long.getD n.short

/-- The loop of `fat_itr_next`. -/
def fatItrNextLoop (table : List Dent) : ℕ → Itr → Option (Dent × Names) × Itr
  | 0, itr => (none, itr)
  | fuel + 1, itr =>
      match nextDent table itr with
      | (none, itr) => (none, itr)
      | (some d, itr) =>
          if d.isSkipped then fatItrNextLoop table fuel itr
          else if d.isVolume then
            if d.startsLongName then
              match extractVfatName table itr d with
              | (none, itr) => fatItrNextLoop table fuel itr
              | (some (d, lName), itr) => (some (d, ⟨some lName, getName d⟩), itr)
            else fatItrNextLoop table fuel itr
          else (some (d, ⟨none, getName d⟩), itr)

/-- `fat_itr_next`.  Every turn of its loop advances the iterator, so that one more turn
than there are records suffices. -/
def fatItrNext (table : List Dent) (itr : Itr) : Option (Dent × Names) × Itr :=
  fatItrNextLoop table (table.length + 1) itr

/-! ## Looking a name up -/

/-- The comparison of `find_directory_entry`. -/
def Names.matches (filename : Str) (n : Names) : Bool :=
  downcase filename == downcase n.name ||
    (n.long.isSome && downcase filename == downcase n.short)

/-- The loops of `find_directory_entry` and `fat_itr_resolve`: the first entry whose names
pass the test. -/
def searchLoop (table : List Dent) (test : Names → Bool) : ℕ → Itr → Option Dent × Itr
  | 0, itr => (none, itr)
  | fuel + 1, itr =>
      match fatItrNext table itr with
      | (none, itr) => (none, itr)
      | (some (d, names), itr) =>
          if test names then (some d, itr) else searchLoop table test fuel itr

/-- The search from the start of a directory. -/
def search (table : List Dent) (test : Names → Bool) : Option Dent × Itr :=
  searchLoop table test (table.length + 1) Itr.start

/-- `find_directory_entry`, before it allocates a cluster. -/
def findEntry (table : List Dent) (filename : Str) : Option Dent × Itr :=
  search table (Names.matches filename)

/-! ## The current record -/

/-- The iterator stands at the record `d`. -/
def Itr.At (table : List Dent) (itr : Itr) (d : Dent) : Prop :=
  ∃ i, itr.dent = some i ∧ table[i]? = some d

section At

variable {table : List Dent} {itr itr' : Itr} {d e : Dent}

theorem at_nextDent (h : nextDent table itr = (some d, itr')) : itr'.At table d := by
  unfold nextDent at h
  split at h
  · cases h
  · rename_i d' hd
    obtain ⟨hd', rfl⟩ := Prod.mk.inj h
    split_ifs at hd'
    cases hd'
    exact ⟨_, rfl, hd⟩

theorem at_extractLoop {l l' : Str} {seqn : ℕ} (hat : itr.At table d)
    (h : extractLoop table seqn itr d l = (some (e, l'), itr')) : itr'.At table e := by
  induction seqn generalizing itr d l with
  | zero =>
      cases h
      exact hat
  | succ seqn ih =>
      unfold extractLoop at h
      dsimp only at h
      split_ifs at h
      · cases h
      · split at h
        · cases h
        · rename_i hn
          exact ih (at_nextDent hn) h

theorem at_extractVfatName {l : Str} (hat : itr.At table d)
    (h : extractVfatName table itr d = (some (e, l), itr')) : itr'.At table e := by
  unfold extractVfatName at h
  split at h
  · cases h
  · rename_i hx
    split_ifs at h
    · cases h
    · cases h
      exact at_extractLoop hat hx

theorem at_fatItrNextLoop {names : Names} {fuel : ℕ}
    (h : fatItrNextLoop table fuel itr = (some (d, names), itr')) : itr'.At table d := by
  induction fuel generalizing itr with
  | zero => cases h
  | succ fuel ih =>
      unfold fatItrNextLoop at h
      split at h
      · cases h
      · rename_i hn
        have hat := at_nextDent hn
        split_ifs at h
        · exact ih h
        · split at h
          · exact ih h
          · rename_i hx
            cases h
            exact at_extractVfatName hat hx
        · exact ih h
        · cases h
          exact hat

theorem at_searchLoop {test : Names → Bool} {fuel : ℕ}
    (h : searchLoop table test fuel itr = (some d, itr')) : itr'.At table d := by
  induction fuel generalizing itr with
  | zero => cases h
  | succ fuel ih =>
      unfold searchLoop at h
      split at h
      · cases h
      · rename_i hn
        split_ifs at h
        · cases h
          exact at_fatItrNextLoop hn
        · exact ih h

/-- A search that succeeds stops at the entry it returns. -/
theorem at_findEntry {filename : Str} (h : findEntry table filename = (some d, itr)) :
    itr.At table d := at_searchLoop h

end At

end MiniPi.Fat
