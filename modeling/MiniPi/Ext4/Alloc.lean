import MiniPi.Ext4.Bitmap

/-!
# New blocks

The model of `ext4fs_get_new_blk_no`.  The first call searches the bitmaps of the groups from the
first one on; the calls after it try one block number after the other.  Reads and writes of the disk
and the journal succeed.
-/

namespace MiniPi.Ext4.Alloc

open Lib

/-- A group descriptor, and the bitmap of the group in memory. -/
structure BlockGroup where
  freeBlocks : ℕ
  bgFlags : BitVec 16
  blockId : ℕ
  bitmap : List UInt8

def bgBlockUninit : BitVec 16 := 0x0002

/-- The bitmap of the group was never written. -/
def BlockGroup.Uninit (g : BlockGroup) : Prop := g.bgFlags &&& bgBlockUninit ≠ 0

instance (g : BlockGroup) : Decidable g.Uninit := inferInstanceAs (Decidable (_ ≠ _))

/-- The groups, and what the superblock says about them. -/
structure BlockTable where
  blksz : ℕ
  blocksPerGroup : ℕ
  noBlkgrp : ℕ
  groups : ℕ → BlockGroup
  sbFreeBlocks : ℕ

/-- `struct ext_filesystem` and the static variables of the function.  `currBlkno` and
`prevBgBitmapIndex` are the bits of a `long` and of an `int`; the disk is given block by block. -/
structure ExtFilesystem extends BlockTable where
  currBlkno : ℕ := 0
  firstPassBbmap : ℕ := 0
  prevBgBitmapIndex : ℕ := 2 ^ 32 - 1
  disk : ℕ → List UInt8
  journal : List (ℕ × List UInt8) := []

def BlockTable.setGroup (t : BlockTable) (i : ℕ) (g : BlockGroup) : BlockTable :=
  { t with groups := fun j ↦ if j = i then g else t.groups j }

/-- The bitmap of a group that was never written is taken for an empty one. -/
def BlockTable.materialise (t : BlockTable) (i : ℕ) : BlockTable :=
  if (t.groups i).Uninit then
    t.setGroup i { t.groups i with
      bitmap := List.replicate t.blksz 0
      bgFlags := (t.groups i).bgFlags &&& ~~~bgBlockUninit }
  else t

/-- `ext4fs_bg_free_blocks_dec` and `ext4fs_sb_free_blocks_dec`, for a group with a new bitmap. -/
def BlockTable.take (t : BlockTable) (i : ℕ) (bitmap : List UInt8) : BlockTable :=
  { t.setGroup i { t.groups i with bitmap, freeBlocks := (t.groups i).freeBlocks - 1 } with
    sbFreeBlocks := (t.sbFreeBlocks + 2 ^ 64 - 1) % 2 ^ 64 % 2 ^ 48 }

/-- The number of the first block of the first group. -/
def BlockTable.first (t : BlockTable) : ℕ := if t.blksz = 1024 then 1 else 0

def ExtFilesystem.materialise (s : ExtFilesystem) (i : ℕ) : ExtFilesystem :=
  { s with
    toBlockTable := s.toBlockTable.materialise i
    disk :=
      if (s.groups i).Uninit then
        fun b ↦ if b = (s.groups i).blockId then List.replicate s.blksz 0 else s.disk b
      else s.disk }

/-- The bitmap block on the disk is logged. -/
def ExtFilesystem.log (s : ExtFilesystem) (i : ℕ) : ExtFilesystem :=
  { s with journal := s.journal ++ [((s.groups i).blockId, s.disk (s.groups i).blockId)] }

/-- What a call does: it returns a block, it fails, it uses an index outside a bitmap, or it has not
returned after as many restarts as were allowed. -/
inductive NewBlk
  | block (n : ℕ)
  | fail
  | outOfRange
  | running
deriving DecidableEq

/-- The loop over the `n` groups from number `i` on. -/
def firstPass : ℕ → ℕ → ExtFilesystem → ExtFilesystem × NewBlk
  | 0, _, s => (s, .fail)
  | n + 1, i, s =>
      if (s.groups i).freeBlocks ≠ 0 then
        let s := s.materialise i
        match getNewBlkNo s.blksz (s.groups i).bitmap 0 with
        | none => firstPass n (i + 1) { s with currBlkno := 2 ^ 32 - 1 }
        | some (count, bitmap) =>
            let currBlkno := (count + i * s.blksz * 8) % 2 ^ 32
            let s := { s with
              toBlockTable := s.toBlockTable.take i bitmap
              currBlkno
              firstPassBbmap := s.firstPassBbmap + 1 }
            (s.log i, .block currBlkno)
      else firstPass n (i + 1) s

/-- `bg_idx`. -/
def ExtFilesystem.bgIdx (s : ExtFilesystem) : ℕ :=
  if s.blksz = 1024 ∧ s.currBlkno % s.blocksPerGroup = 0 then
    (s.currBlkno / s.blocksPerGroup + 2 ^ 32 - 1) % 2 ^ 32
  else s.currBlkno / s.blocksPerGroup

/-- The code from the label `restart` on. -/
def restart : ℕ → ExtFilesystem → ExtFilesystem × NewBlk
  | 0, s => (s, .running)
  | fuel + 1, s =>
      let bgIdx := s.bgIdx
      if s.noBlkgrp ≤ bgIdx then (s, .fail)
      else if (s.groups bgIdx).freeBlocks = 0 then
        restart fuel { s with currBlkno := ((bgIdx + 1) * s.blocksPerGroup + s.first) % 2 ^ 32 }
      else
        let s := s.materialise bgIdx
        match ext4fsSetBlockBmap s.blksz (long s.currBlkno) (s.groups bgIdx).bitmap bgIdx with
        | .outOfRange => (s, .outOfRange)
        | .taken => restart fuel { s with currBlkno := (s.currBlkno + 1) % 2 ^ 32 }
        | .done bitmap =>
            let s := if s.prevBgBitmapIndex ≠ bgIdx then
              { s.log bgIdx with prevBgBitmapIndex := bgIdx } else s
            ({ s with toBlockTable := s.toBlockTable.take bgIdx bitmap }, .block s.currBlkno)

/-- `ext4fs_get_new_blk_no`; the loop over the groups counts with a `short`. -/
def ext4fsGetNewBlkNo (alloc : Bool) (fuel : ℕ) (s : ExtFilesystem) : ExtFilesystem × NewBlk :=
  if !alloc then (s, .fail)
  else if s.firstPassBbmap = 0 then firstPass (min s.noBlkgrp 32768) 0 s
  else restart fuel { s with currBlkno := (s.currBlkno + 1) % 2 ^ 32 }

end MiniPi.Ext4.Alloc
