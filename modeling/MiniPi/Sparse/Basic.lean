import MiniPi.Lib.Mem
import Mathlib

/-!
# Sparse images

`write_sparse_image` of `lib/image-sparse.c`.  The image, the fill buffer and the device are
memories; pointers are addresses.  `lbaint_t` and `unsigned int` have 32 bits.  The storage
writes and reserves exactly what it is asked to, and `memalign` gives memory with arbitrary
bytes in it.
-/

namespace MiniPi.Sparse

open Lib

/-- The numbers of 32 bits. -/
abbrev wide : ℕ := 2 ^ 32

/-- `CONFIG_IMAGE_SPARSE_FILLBUF_SIZE`. -/
def fillbufSize : ℕ := 0x80000

/-- `CHUNK_TYPE_RAW`. -/
def chunkTypeRaw : ℕ := 0xCAC1

/-- `CHUNK_TYPE_FILL`. -/
def chunkTypeFill : ℕ := 0xCAC2

/-- `CHUNK_TYPE_DONT_CARE`. -/
def chunkTypeDontCare : ℕ := 0xCAC3

/-- `CHUNK_TYPE_CRC32`. -/
def chunkTypeCrc32 : ℕ := 0xCAC4

/-- `struct sparse_storage`, without its functions. -/
structure Storage where
  /-- The bytes in a block of the device. -/
  blksz : ℕ
  /-- The first block of the partition. -/
  start : ℕ
  /-- The blocks of the partition. -/
  size : ℕ
deriving DecidableEq, Repr

/-- The fields of `sparse_header_t` that are used. -/
structure SparseHeader where
  /-- The size of the file header. -/
  fileHdrSz : ℕ
  /-- The size of a chunk header. -/
  chunkHdrSz : ℕ
  /-- The bytes in a block of the image. -/
  blkSz : ℕ
  /-- The blocks of the image. -/
  totalBlks : ℕ
  /-- The chunks of the image. -/
  totalChunks : ℕ
deriving DecidableEq, Repr

/-- The fields of `chunk_header_t` that are used. -/
structure ChunkHeader where
  /-- The kind of the chunk. -/
  chunkType : ℕ
  /-- The blocks of the chunk. -/
  chunkSz : ℕ
  /-- The bytes of the chunk in the image. -/
  totalSz : ℕ
deriving DecidableEq, Repr

/-- `sizeof(sparse_header_t)`. -/
def sparseHeaderSize : ℕ := 28

/-- `sizeof(chunk_header_t)`. -/
def chunkHeaderSize : ℕ := 12

/-- The file header at an address. -/
def readSparseHeader (image : Mem) (data : ℕ) : SparseHeader where
  fileHdrSz := leValue (image.slice (data + 8) 2)
  chunkHdrSz := leValue (image.slice (data + 10) 2)
  blkSz := leValue (image.slice (data + 12) 4)
  totalBlks := leValue (image.slice (data + 16) 4)
  totalChunks := leValue (image.slice (data + 20) 4)

/-- The chunk header at an address. -/
def readChunkHeader (image : Mem) (data : ℕ) : ChunkHeader where
  chunkType := leValue (image.slice data 2)
  chunkSz := leValue (image.slice (data + 4) 4)
  totalSz := leValue (image.slice (data + 8) 4)

namespace Storage

/-- `info->write`: `blkcnt` blocks from an address. -/
def write (info : Storage) (dev : Mem) (blk blkcnt : ℕ) (src : Mem) (buffer : ℕ) : Mem :=
  Mem.write dev (info.blksz * blk) (src.slice buffer (info.blksz * blkcnt))

/-- `fill_buf_num_blks`. -/
def fillBufNumBlks (info : Storage) : ℕ := fillbufSize / info.blksz

/-- The buffer of a chunk of type FILL: the words of it hold the bytes `val`, and what follows
them is as `memalign` left it. -/
def fillBuf (info : Storage) (heap : Mem) (val : List UInt8) : Mem := fun i ↦
  if i < info.blksz * info.fillBufNumBlks / 4 * 4 then val.getD (i % 4) 0 else heap i

/-- The loop that writes a chunk of type FILL, from block `i` of the chunk on.  The counters
`i` and `j` are signed, so `j` is compared as a negative number from `2 ^ 31` on.  `none` means
that the fuel ran out. -/
def fillLoop (info : Storage) (src : Mem) (blkcnt : ℕ) : ℕ → ℕ → ℕ → Mem → Option (ℕ × Mem)
  | 0, i, blk, dev => if i < blkcnt then none else some (blk, dev)
  | fuel + 1, i, blk, dev =>
    if i < blkcnt then
      let j := blkcnt - i
      let j := if j < 2 ^ 31 ∧ info.fillBufNumBlks < j then info.fillBufNumBlks else j
      info.fillLoop src blkcnt fuel (i + j) ((blk + j) % wide) (info.write dev blk j src 0)
    else some (blk, dev)

end Storage

/-- The state of the loop over the chunks. -/
structure State where
  /-- `data`. -/
  data : ℕ
  /-- `blk`. -/
  blk : ℕ
  /-- `total_blocks`. -/
  totalBlocks : ℕ
  /-- The bytes of the device. -/
  dev : Mem

/-- How a chunk, or the whole call, ends: with the message of a failure, or well. -/
inductive Outcome (α : Type) where
  /-- `-1`, with the message given to `info->mssg`. -/
  | fail (message : String) (dev : Mem)
  /-- The chunk was processed. -/
  | ok (a : α)

section

variable (info : Storage) (header : SparseHeader) (image heap : Mem)

/-- The partition ends before the blocks do. -/
def exceeds (blk blkcnt : ℕ) : Bool := (info.start + info.size) % wide < (blk + blkcnt) % wide

/-- A division of unsigned numbers: `none` for a division by 0, where `__div0` hangs. -/
def divide (a b : ℕ) : Option ℕ := if b = 0 then none else some (a / b)

/-- One round of the loop over the chunks: `none` when it does not end.  The size of the blocks of
the image divides only behind a chunk of type FILL. -/
def processChunk (st : State) : Option (Outcome State) :=
  let chunk := readChunkHeader image st.data
  let data := st.data + chunkHeaderSize
  let data :=
    if chunkHeaderSize < header.chunkHdrSz then data + (header.chunkHdrSz - chunkHeaderSize)
    else data
  let chunkDataSz := header.blkSz * chunk.chunkSz % wide
  let blkcnt := chunkDataSz / info.blksz
  if chunk.chunkType = chunkTypeRaw then
    if chunk.totalSz ≠ (header.chunkHdrSz + chunkDataSz) % wide then
      some (.fail "Bogus chunk size for chunk type Raw" st.dev)
    else if exceeds info st.blk blkcnt then
      some (.fail "Request would exceed partition size!" st.dev)
    else
      some (.ok
        { data := data + chunkDataSz
          blk := (st.blk + blkcnt) % wide
          totalBlocks := (st.totalBlocks + chunk.chunkSz) % wide
          dev := info.write st.dev st.blk blkcnt image data })
  else if chunk.chunkType = chunkTypeFill then
    if chunk.totalSz ≠ (header.chunkHdrSz + 4) % wide then
      some (.fail "Bogus chunk size for chunk type FILL" st.dev)
    else if exceeds info st.blk blkcnt then
      some (.fail "Request would exceed partition size!" st.dev)
    else
      (info.fillLoop (info.fillBuf heap (image.slice data 4)) blkcnt blkcnt 0 st.blk st.dev).bind
        fun (blk, dev) ↦ (divide chunkDataSz header.blkSz).map fun blocks ↦ .ok
          { data := data + 4
            blk := blk
            totalBlocks := (st.totalBlocks + blocks) % wide
            dev := dev }
  else if chunk.chunkType = chunkTypeDontCare then
    some (.ok { st with
      data := data
      blk := (st.blk + blkcnt) % wide
      totalBlocks := (st.totalBlocks + chunk.chunkSz) % wide })
  else if chunk.chunkType = chunkTypeCrc32 then
    if chunk.totalSz ≠ header.chunkHdrSz then
      some (.fail "Bogus chunk size for chunk type Dont Care" st.dev)
    else
      some (.ok { st with
        data := data + chunkDataSz
        totalBlocks := (st.totalBlocks + chunk.chunkSz) % wide })
  else some (.fail "Unknown chunk type" st.dev)

/-- The loop over the chunks. -/
def processChunks : ℕ → State → Option (Outcome State)
  | 0, st => some (.ok st)
  | n + 1, st =>
    match processChunk info header image heap st with
    | some (.ok st) => processChunks n st
    | res => res

end

/-- `write_sparse_image`: `none` when the call does not return, and the bytes of the device
with the outcome.  A header that is longer than the standard one is skipped twice. -/
def writeSparseImage (info : Storage) (image heap : Mem) (data : ℕ) (dev : Mem) :
    Option (Outcome Mem) :=
  let header := readSparseHeader image data
  let data := data + header.fileHdrSz
  let data :=
    if sparseHeaderSize < header.fileHdrSz then data + (header.fileHdrSz - sparseHeaderSize)
    else data
  if header.blkSz % info.blksz ≠ 0 then some (.fail "sparse image block size issue" dev)
  else
    match processChunks info header image heap header.totalChunks ⟨data, info.start, 0, dev⟩ with
    | none => none
    | some (.fail message dev) => some (.fail message dev)
    | some (.ok st) =>
      if st.totalBlocks ≠ header.totalBlks then some (.fail "sparse image write failure" st.dev)
      else some (.ok st.dev)

end MiniPi.Sparse
