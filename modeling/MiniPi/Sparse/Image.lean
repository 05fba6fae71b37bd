import MiniPi.Sparse.Basic

/-!
# The format of sparse images

An image is a file header and a list of chunks.  Its expansion writes the chunks one after
the other; the blocks of a DONT_CARE chunk are left as they are.
-/

namespace MiniPi.Sparse

open Lib

/-- What a chunk holds. -/
inductive Body where
  /-- The data of its blocks. -/
  | raw (data : List UInt8)
  /-- The four bytes its blocks are filled with. -/
  | fill (val : List UInt8)
  /-- Nothing. -/
  | dontCare
  /-- A checksum. -/
  | crc32 (crc : List UInt8)
deriving DecidableEq, Repr

/-- A chunk. -/
structure Chunk where
  /-- The reserved number of the header. -/
  reserved : ℕ
  /-- The bytes that follow the standard header. -/
  ext : List UInt8
  /-- The blocks it stands for. -/
  blocks : ℕ
  /-- What it holds. -/
  body : Body
deriving DecidableEq, Repr

/-- An image. -/
structure Image where
  /-- The minor version. -/
  minorVersion : ℕ
  /-- The bytes in a block. -/
  blkSz : ℕ
  /-- The checksum of the file header. -/
  imageChecksum : ℕ
  /-- The bytes that follow the standard file header. -/
  fileExt : List UInt8
  /-- The size of a chunk header. -/
  chunkHdrSz : ℕ
  /-- The chunks. -/
  chunks : List Chunk
deriving DecidableEq, Repr

namespace Body

/-- The type of the chunk. -/
def chunkType : Body → ℕ
  | raw _ => chunkTypeRaw
  | fill _ => chunkTypeFill
  | dontCare => chunkTypeDontCare
  | crc32 _ => chunkTypeCrc32

/-- The bytes behind the header. -/
def payload : Body → List UInt8
  | raw data => data
  | fill val => val
  | dontCare => []
  | crc32 crc => crc

/-- The payload fits `blocks` blocks of `blkSz` bytes. -/
def Sized (blkSz blocks : ℕ) : Body → Prop
  | raw data => data.length = blocks * blkSz
  | fill val => val.length = 4
  | dontCare => True
  | crc32 crc => crc.length = 4 ∧ blocks = 0

/-- The chunk writes blocks. -/
def Writes : Body → Prop
  | raw _ => True
  | fill _ => True
  | dontCare => False
  | crc32 _ => False

end Body

/-- The bytes of a chunk. -/
def Chunk.encode (chunkHdrSz : ℕ) (c : Chunk) : List UInt8 :=
  leBytes 2 c.body.chunkType ++ leBytes 2 c.reserved ++ leBytes 4 c.blocks ++
    leBytes 4 (chunkHdrSz + c.body.payload.length) ++ c.ext ++ c.body.payload

/-- The blocks of a list of chunks. -/
def totalBlocks (cs : List Chunk) : ℕ := (cs.map Chunk.blocks).sum

/-- The bytes of an image. -/
def Image.encode (img : Image) : List UInt8 :=
  leBytes 4 0xed26ff3a ++ leBytes 2 1 ++ leBytes 2 img.minorVersion ++
    leBytes 2 (sparseHeaderSize + img.fileExt.length) ++ leBytes 2 img.chunkHdrSz ++
    leBytes 4 img.blkSz ++ leBytes 4 (totalBlocks img.chunks) ++ leBytes 4 img.chunks.length ++
    leBytes 4 img.imageChecksum ++ img.fileExt ++ img.chunks.flatMap (Chunk.encode img.chunkHdrSz)

/-- A chunk is well formed: the header has its size, the payload is what the type says, and
the size of the chunk fits the header. -/
structure Chunk.WellFormed (blkSz chunkHdrSz : ℕ) (c : Chunk) : Prop where
  header : chunkHeaderSize + c.ext.length = chunkHdrSz
  sized : c.body.Sized blkSz c.blocks
  fits : chunkHdrSz + c.body.payload.length < wide

/-- An image is well formed. -/
structure Image.WellFormed (img : Image) : Prop where
  fileHdr : sparseHeaderSize + img.fileExt.length < 2 ^ 16
  chunkHdr : img.chunkHdrSz < 2 ^ 16
  blkPos : 0 < img.blkSz
  blkSz : img.blkSz < wide
  words : 4 ∣ img.blkSz
  length : img.chunks.length < wide
  total : totalBlocks img.chunks < wide
  chunks : ∀ c ∈ img.chunks, c.WellFormed img.blkSz img.chunkHdrSz

/-- `n` bytes of a repeated word. -/
def fillBytes (val : List UInt8) (n : ℕ) : List UInt8 :=
  (List.range n).map fun i ↦ val.getD (i % 4) 0

/-- What a chunk does to the bytes from `pos` on. -/
def Chunk.apply (blkSz pos : ℕ) (c : Chunk) (dev : Mem) : Mem :=
  match c.body with
  | .raw data => dev.write pos data
  | .fill val => dev.write pos (fillBytes val (c.blocks * blkSz))
  | .dontCare => dev
  | .crc32 _ => dev

/-- The expansion of a list of chunks from the byte `pos` on. -/
def expand (blkSz : ℕ) : ℕ → List Chunk → Mem → Mem
  | _, [], dev => dev
  | pos, c :: cs, dev => expand blkSz (pos + c.blocks * blkSz) cs (c.apply blkSz pos dev)

/-- The fill buffer serves for `bytes` bytes: they are counted without wrapping, and the
buffer is not empty and either consists of words or is written once and only as far as it is
filled. -/
structure FillOk (info : Storage) (bytes : ℕ) : Prop where
  fits : bytes < wide
  signed : bytes / info.blksz < 2 ^ 31
  buffer : bytes ≠ 0 → 0 < info.fillBufNumBlks
  words : 4 ∣ info.blksz * info.fillBufNumBlks ∨
    bytes ≤ info.blksz * info.fillBufNumBlks / 4 * 4

/-- The chunks that the code expands: no checksums, no FILL that the buffer does not serve
for, and no DONT_CARE of 2 ^ 32 bytes or more before blocks that are written. -/
def ChunksOk (info : Storage) (blkSz : ℕ) : List Chunk → Prop
  | [] => True
  | c :: cs =>
    (match c.body with
      | .raw _ => True
      | .fill _ => FillOk info (c.blocks * blkSz)
      | .dontCare => c.blocks * blkSz < wide ∨ ∀ d ∈ cs, d.body.Writes → d.blocks = 0
      | .crc32 _ => False) ∧ ChunksOk info blkSz cs

/-- The images that the code expands: the file header is the standard one, or there are no
chunks behind it. -/
structure Image.Expandable (info : Storage) (img : Image) : Prop where
  header : img.fileExt = [] ∨ img.chunks = []
  chunks : ChunksOk info img.blkSz img.chunks

/-- A partition that lies in the address range of the device and holds the expansion. -/
structure Holds (info : Storage) (img : Image) : Prop where
  blksz : 0 < info.blksz
  blocks : info.blksz ∣ img.blkSz
  device : info.start + info.size < wide
  size : totalBlocks img.chunks * (img.blkSz / info.blksz) ≤ info.size

/-! ## The parts of an image -/

variable {m : Mem} {a n w : ℕ} {val : List UInt8}

theorem leValue_of_at (h : m.At a (leBytes w n)) (hn : n < 256 ^ w) :
    leValue (m.slice a w) = n := by
  have hslice : m.slice a (leBytes w n).length = leBytes w n := h
  rw [length_leBytes] at hslice
  rw [hslice, leValue_leBytes, Nat.mod_eq_of_lt hn]

theorem Body.chunkType_lt (b : Body) : b.chunkType < 256 ^ 2 := by
  cases b <;>
    simp [chunkType, chunkTypeRaw, chunkTypeFill, chunkTypeDontCare, chunkTypeCrc32]

/-- The fields of a chunk header and the payload behind it. -/
theorem chunk_at {hdr : ℕ} {c : Chunk} (h : m.At a (c.encode hdr))
    (hhdr : chunkHeaderSize + c.ext.length = hdr) (hb : c.blocks < wide)
    (hfits : hdr + c.body.payload.length < wide) :
    readChunkHeader m a = ⟨c.body.chunkType, c.blocks, hdr + c.body.payload.length⟩ ∧
      m.At (a + hdr) c.body.payload := by
  simp only [Chunk.encode, Mem.at_append, List.length_append, length_leBytes] at h
  obtain ⟨⟨⟨⟨⟨htype, -⟩, hblocks⟩, htotal⟩, -⟩, hpayload⟩ := h
  refine ⟨?_, ?_⟩
  · rw [readChunkHeader, leValue_of_at htype c.body.chunkType_lt, leValue_of_at hblocks hb,
      leValue_of_at htotal hfits]
  · rwa [← hhdr, chunkHeaderSize]

theorem Chunk.length_encode {hdr : ℕ} {c : Chunk} (hhdr : chunkHeaderSize + c.ext.length = hdr) :
    (c.encode hdr).length = hdr + c.body.payload.length := by
  simp only [Chunk.encode, List.length_append, length_leBytes, ← hhdr, chunkHeaderSize]

/-- The fields of the file header and the chunks behind it. -/
theorem image_at {img : Image} (h : m.At a img.encode) (hwf : img.WellFormed) :
    readSparseHeader m a = ⟨sparseHeaderSize + img.fileExt.length, img.chunkHdrSz, img.blkSz,
        totalBlocks img.chunks, img.chunks.length⟩ ∧
      m.At (a + (sparseHeaderSize + img.fileExt.length))
        (img.chunks.flatMap (Chunk.encode img.chunkHdrSz)) := by
  simp only [Image.encode, Mem.at_append, List.length_append, length_leBytes] at h
  obtain ⟨⟨⟨⟨⟨⟨⟨⟨-, hfile⟩, hchunk⟩, hblk⟩, htotal⟩, hlength⟩, -⟩, -⟩, hrest⟩ := h
  refine ⟨?_, ?_⟩
  · rw [readSparseHeader, leValue_of_at hfile hwf.fileHdr, leValue_of_at hchunk hwf.chunkHdr,
      leValue_of_at hblk hwf.blkSz, leValue_of_at htotal hwf.total,
      leValue_of_at hlength hwf.length]
  · rwa [sparseHeaderSize]

@[simp] theorem length_fillBytes (val : List UInt8) (n : ℕ) : (fillBytes val n).length = n := by
  simp [fillBytes]

theorem fillBytes_add (val : List UInt8) {n : ℕ} (k : ℕ) (h : 4 ∣ n) :
    fillBytes val (n + k) = fillBytes val n ++ fillBytes val k := by
  obtain ⟨q, rfl⟩ := h
  rw [fillBytes, List.range_add, List.map_append, List.map_map]
  congr 1
  refine List.map_congr_left fun i _ ↦ ?_
  simp only [Function.comp_apply, Nat.mul_add_mod]

end MiniPi.Sparse
