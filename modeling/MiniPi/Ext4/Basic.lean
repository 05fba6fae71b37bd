import MiniPi.Lib.Mem
import Mathlib.Data.Int.Bitwise

/-!
# The blocks of a file

The model of `read_allocated_block`: the extent tree of an inode, or its direct and indirect blocks.
 An `int` and a `long` have 32 bits, and an `lbaint_t` has `w`.
-/

namespace MiniPi.Ext4

open Lib

/-! ## The disk -/

/-- A mounted filesystem on a partition of `totalSect` sectors. -/
structure FileSystem (w : ℕ) where
  log2BlockSize : ℕ
  log2blksz : ℕ
  log2blksz_le : log2blksz ≤ log2BlockSize
  min_le : 10 ≤ log2BlockSize
  le_max : log2BlockSize ≤ 16
  totalSect : ℕ
  totalSect_lt : totalSect < 2 ^ w
  block_le : 2 ^ (log2BlockSize - log2blksz) ≤ totalSect
  disk : Mem

variable {w : ℕ} (fs : FileSystem w)

/-- The size of a block in bytes. -/
def FileSystem.blksz : ℕ := 2 ^ fs.log2BlockSize

/-- The logarithm of the number of sectors of a block. -/
def FileSystem.log2Sectors : ℕ := fs.log2BlockSize - fs.log2blksz

/-- `blksz / 4`: the number of pointers of an indirect block. -/
def FileSystem.perblock : ℕ := fs.blksz / 4

/-- The bytes of a block from a sector on, or `none` if they are not inside the partition. -/
def ext4fsDevread (sector : ℕ) : Option (List UInt8) :=
  if fs.totalSect ≤ sector + (fs.blksz - 1) / 2 ^ fs.log2blksz then none
  else some (fs.disk.slice (sector * 2 ^ fs.log2blksz) fs.blksz)

/-- A number as a `long`. -/
def long (n : ℤ) : ℤ := Int.bmod n (2 ^ 32)

/-- The `__le32` with number `i` of a block of pointers. -/
def le32At (block : List UInt8) (i : ℕ) : ℕ := leValue ((block.drop (4 * i)).take 4)

/-! ## Extent trees -/

/-- `struct ext4_extent_header`. -/
structure ExtentHeader where
  ehMagic : ℕ
  ehEntries : ℕ
  ehDepth : ℕ

def extentHeader (block : List UInt8) : ExtentHeader where
  ehMagic := leValue (block.take 2)
  ehEntries := leValue ((block.drop 2).take 2)
  ehDepth := leValue ((block.drop 6).take 2)

/-- `struct ext4_extent_idx`. -/
structure ExtentIdx where
  eiBlock : ℕ
  eiLeafLo : ℕ
  eiLeafHi : ℕ

/-- The index with number `i` behind the header. -/
def extentIdx (block : List UInt8) (i : ℕ) : ExtentIdx where
  eiBlock := leValue ((block.drop (12 + 12 * i)).take 4)
  eiLeafLo := leValue ((block.drop (16 + 12 * i)).take 4)
  eiLeafHi := leValue ((block.drop (20 + 12 * i)).take 2)

/-- The block an index points to. -/
def ExtentIdx.leaf (idx : ExtentIdx) : ℕ := idx.eiLeafHi * 2 ^ 32 + idx.eiLeafLo

/-- `struct ext4_extent`. -/
structure Extent where
  eeBlock : ℕ
  eeLen : ℕ
  eeStartHi : ℕ
  eeStartLo : ℕ

/-- The extent with number `i` behind the header. -/
def extent (block : List UInt8) (i : ℕ) : Extent where
  eeBlock := leValue ((block.drop (12 + 12 * i)).take 4)
  eeLen := leValue ((block.drop (16 + 12 * i)).take 2)
  eeStartHi := leValue ((block.drop (18 + 12 * i)).take 2)
  eeStartLo := leValue ((block.drop (20 + 12 * i)).take 4)

/-- The physical block an extent begins at. -/
def Extent.start (e : Extent) : ℕ := e.eeStartHi * 2 ^ 32 + e.eeStartLo

def ext4ExtMagic : ℕ := 0xf30a

/-- `struct ext_block_cache`. -/
structure ExtBlockCache where
  buf : Option (List UInt8) := none
  block : ℕ := 0
  size : ℕ := 0

/-- `ext_cache_read`: the cache with the block, or `none` if it cannot be read. -/
def extCacheRead (alloc : Bool) (cache : ExtBlockCache) (block : ℕ) :
    ExtBlockCache × Option (List UInt8) :=
  match cache.buf with
  | some buf =>
      if cache.block = block ∧ cache.size = fs.blksz then (cache, some buf)
      else read
  | none => read
where
  read : ExtBlockCache × Option (List UInt8) :=
    if !alloc then ({}, none)
    else
      match ext4fsDevread fs block with
      | none => ({}, none)
      | some buf => ({ buf, block, size := fs.blksz }, some buf)

/-- The number of the first index of `n` from number `i` on that begins above the block. -/
def idxAbove (block : List UInt8) (fileblock : ℕ) : ℕ → ℕ → ℕ
  | 0, i => i
  | n + 1, i => if (extentIdx block i).eiBlock ≤ fileblock then idxAbove block fileblock n (i + 1)
      else i

/-- The walk from an extent block down to a leaf in at most `fuel` steps: `none` if it takes more,
and `some none` for `NULL`. -/
def ext4fsGetExtentBlock (alloc : Bool) (fileblock : ℕ) :
    ℕ → ExtBlockCache → List UInt8 → Option (ExtBlockCache × Option (List UInt8))
  | 0, _, _ => none
  | fuel + 1, cache, extBlock =>
      let header := extentHeader extBlock
      if header.ehMagic ≠ ext4ExtMagic then some (cache, none)
      else if header.ehDepth = 0 then some (cache, some extBlock)
      else
        let i := idxAbove extBlock fileblock header.ehEntries 0
        let index := extentIdx extBlock (i - 1)
        let block := index.leaf * 2 ^ fs.log2Sectors % 2 ^ 64 % 2 ^ w
        match extCacheRead fs alloc cache block with
        | (cache, none) => some (cache, none)
        | (cache, some buf) => ext4fsGetExtentBlock alloc fileblock fuel cache buf

/-- The loop over the `n` extents from number `i` on. -/
def findExtent (block : List UInt8) (fileblock : ℤ) : ℕ → ℕ → ℤ
  | 0, _ => 0
  | n + 1, i =>
      let e := extent block i
      let startblock := long e.eeBlock
      let endblock := long (startblock + e.eeLen)
      if fileblock < startblock then 0
      else if fileblock < endblock then long (fileblock - startblock + e.start)
      else findExtent block fileblock n (i + 1)

/-! ## Indirect blocks -/

/-- One of the three global buffers `ext4fs_indir1_block`, `ext4fs_indir2_block` and
`ext4fs_indir3_block`, with its size and the sector of the block in it. -/
structure Indir where
  block : Option (List UInt8) := none
  size : ℕ := 0
  blkno : ℕ := 2 ^ 32 - 1

/-- The buffer is allocated, again if it is of another size. -/
def Indir.allocate (alloc : Bool) (b : Indir) : Option Indir :=
  match b.block with
  | some _ =>
      if b.size = fs.blksz then some b
      else if alloc then some ⟨some (List.replicate fs.blksz 0), fs.blksz, 2 ^ 32 - 1⟩
      else none
  | none =>
      if alloc then some ⟨some (List.replicate fs.blksz 0), fs.blksz, 2 ^ 32 - 1⟩
      else none

/-- The buffer gets block `p` unless it has block `test`. -/
def Indir.load (b : Indir) (test p : ℕ) : Option Indir :=
  if test * 2 ^ fs.log2Sectors % 2 ^ 32 ≠ b.blkno then
    match ext4fsDevread fs (p * 2 ^ fs.log2Sectors % 2 ^ w) with
    | none => none
    | some bytes => some { b with block := some bytes, blkno := p * 2 ^ fs.log2Sectors % 2 ^ 32 }
  else some b

/-- The pointer with number `i` in the buffer, or `none` behind its end. -/
def Indir.get (b : Indir) (i : ℕ) : Option ℕ :=
  match b.block with
  | none => none
  | some bytes => if 4 * i + 4 ≤ bytes.length then some (le32At bytes i) else none

/-- The global buffers, and the cache of the caller. -/
structure Buffers where
  indir1 : Indir := {}
  indir2 : Indir := {}
  indir3 : Indir := {}
  cache : ExtBlockCache := {}

/-- What a call does: it returns a value, it uses an index outside a buffer, or it has not returned
after as many steps as were allowed. -/
inductive Outcome
  | ret (blknr : ℤ)
  | outOfRange
  | running
deriving DecidableEq

/-- `struct ext2_inode`: the flags, and the 60 bytes of the union. -/
structure Inode where
  flags : ℕ
  blocks : List UInt8
  length_blocks : blocks.length = 60

def ext4ExtentsFl : ℕ := 0x80000

def Inode.HasExtents (inode : Inode) : Prop := inode.flags &&& ext4ExtentsFl ≠ 0

instance (inode : Inode) : Decidable inode.HasExtents := inferInstanceAs (Decidable (_ ≠ _))

/-- The result of `zalloc` for the cache and for the three buffers. -/
structure Allocs where
  cache : Bool
  indir1 : Bool
  indir2 : Bool
  indir3 : Bool

def indirectBlocks : ℕ := 12

/-- The part of `read_allocated_block` for an inode with extents. -/
def readExtent (alloc : Allocs) (fuel : ℕ) (bufs : Buffers) (inode : Inode) (fileblock : ℤ)
    (cache : Bool) : Buffers × Outcome :=
  let c := if cache then bufs.cache else {}
  match ext4fsGetExtentBlock fs alloc.cache (fileblock % 2 ^ 32).toNat fuel c inode.blocks with
  | none => (bufs, .running)
  | some (c, extBlock) =>
      let bufs := if cache then { bufs with cache := c } else bufs
      match extBlock with
      | none => (bufs, .ret (-22))
      | some block => (bufs, .ret (findExtent block fileblock (extentHeader block).ehEntries 0))

/-- A buffer is allocated and filled; on an error the value `-1` is returned. -/
def withIndir (alloc : Bool) (b : Indir) (test : Option ℕ) (p : Option ℕ) (fail : Indir → Buffers)
    (k : Indir → Buffers × Outcome) : Buffers × Outcome :=
  match b.allocate fs alloc with
  | none => (fail {}, .ret (-1))
  | some b =>
      match test, p with
      | some test, some p =>
          match b.load fs test p with
          | none => (fail b, .ret (-1))
          | some b => k b
      | _, _ => (fail b, .outOfRange)

/-- The pointer that is returned. -/
def retPointer (bufs : Buffers) (p : Option ℕ) : Buffers × Outcome :=
  match p with
  | none => (bufs, .outOfRange)
  | some blknr => (bufs, .ret (long blknr))

def readAllocatedBlock (alloc : Allocs) (fuel : ℕ) (bufs : Buffers) (inode : Inode) (fileblock : ℤ)
    (cache : Bool) : Buffers × Outcome :=
  let perblock : ℕ := fs.perblock
  if inode.HasExtents then readExtent fs alloc fuel bufs inode fileblock cache
  else if fileblock < indirectBlocks then
    if fileblock < 0 then (bufs, .outOfRange)
    else (bufs, .ret (long (le32At inode.blocks fileblock.toNat)))
  else if fileblock < indirectBlocks + perblock then
    let indirBlock := le32At inode.blocks 12
    withIndir fs alloc.indir1 bufs.indir1 (some indirBlock) (some indirBlock)
      (fun b ↦ { bufs with indir1 := b }) fun indir1 ↦
    retPointer { bufs with indir1 } (indir1.get (fileblock.toNat - indirectBlocks))
  else if fileblock < indirectBlocks + perblock * (perblock + 1) then
    let rblock := fileblock.toNat - (indirectBlocks + perblock)
    let doubleIndirBlock := le32At inode.blocks 13
    withIndir fs alloc.indir1 bufs.indir1 (some doubleIndirBlock) (some doubleIndirBlock)
      (fun b ↦ { bufs with indir1 := b }) fun indir1 ↦
    let next := indir1.get (rblock / perblock)
    withIndir fs alloc.indir2 bufs.indir2 next next
      (fun b ↦ { bufs with indir1, indir2 := b }) fun indir2 ↦
    retPointer { bufs with indir1, indir2 } (indir2.get (rblock % perblock))
  else
    let rblock := fileblock.toNat - (indirectBlocks + perblock + perblock * perblock)
    let tripleIndirBlock := le32At inode.blocks 14
    withIndir fs alloc.indir1 bufs.indir1 (some tripleIndirBlock) (some tripleIndirBlock)
      (fun b ↦ { bufs with indir1 := b }) fun indir1 ↦
    let next := indir1.get (rblock / (perblock * perblock))
    withIndir fs alloc.indir2 bufs.indir2 next next
      (fun b ↦ { bufs with indir1, indir2 := b }) fun indir2 ↦
    -- the index of the test is not reduced modulo the number of pointers
    withIndir fs alloc.indir3 bufs.indir3 (indir2.get (rblock / perblock))
      (indir2.get (rblock / perblock % perblock))
      (fun b ↦ { bufs with indir1, indir2, indir3 := b }) fun indir3 ↦
    retPointer { bufs with indir1, indir2, indir3 } (indir3.get (rblock % perblock))

end MiniPi.Ext4
