import MiniPi.Gpt.Safe
import MiniPi.Lib.Writes

/-!
# Writing a GPT

`gpt_restore` and `write_gpt_table` of `disk/part_efi.c`: the blocks that are written, in their
order.  A device gives the bytes of each block, and a write behind its end is an error.
-/

namespace MiniPi.Gpt

open Lib (leBytes applyWrites)

/-- The bytes of a block. -/
abbrev Block (dev : BlkDesc) := {b : Bytes // b.length = dev.blksz}

/-- The blocks of a device. -/
abbrev Disk (dev : BlkDesc) := ℕ → Block dev

/-- The code around: `crc32`, `malloc` and `uuid_str_to_bin`. -/
structure Env where
  crc32 : Bytes → UInt32
  malloc : UInt32 → Bool
  uuidStrToBin : Str → Option Guid
  length_uuid : ∀ s guid, uuidStrToBin s = some guid → guid.length = 16

/-- The machine that reads the device. -/
def machine (env : Env) {dev : BlkDesc} (disk : Disk dev) : Machine where
  dev
  block i := if i < dev.lba then some (disk i.toNat).1 else none
  length_block i b h := by
    obtain ⟨-, h⟩ := Option.ite_none_right_eq_some.1 h
    rw [← Option.some.inj h]
    exact (disk i.toNat).2
  crc32 := env.crc32
  malloc := env.malloc

/-! ## What is written -/

/-- Bytes at the front of a buffer of `len` bytes that was cleared. -/
def padded (data : Bytes) (len : ℕ) : Bytes := (List.range len).map (data.getD · 0)

/-- Block `j` of a buffer that was cleared. -/
def blockAt (dev : BlkDesc) (data : Bytes) (j : ℕ) : Block dev :=
  ⟨(List.range dev.blksz).map fun i ↦ data.getD (j * dev.blksz + i) 0, by simp⟩

/-- `blk_dwrite`, block by block. -/
def blkDwrite (dev : BlkDesc) (start : UInt32) (n : ℕ) (data : Bytes) : List (ℕ × Block dev) :=
  (List.range n).map fun j ↦ (start.toNat + j, blockAt dev data j)

/-- The fields of `gpt_header`, with the checksums. -/
def GptHeader.chunks (hdr : GptHeader) (headerCrc32 entryArrayCrc32 : UInt32) : List Bytes :=
  [leBytes 8 hdr.signature.toNat, leBytes 4 hdr.revision.toNat, leBytes 4 hdr.headerSize.toNat,
    leBytes 4 headerCrc32.toNat, leBytes 4 0, leBytes 8 hdr.myLba.toNat,
    leBytes 8 hdr.alternateLba.toNat,
    leBytes 8 hdr.firstUsableLba.toNat, leBytes 8 hdr.lastUsableLba.toNat, hdr.diskGuid,
    leBytes 8 hdr.partitionEntryLba.toNat, leBytes 4 hdr.numPartitionEntries.toNat,
    leBytes 4 hdr.sizeofPartitionEntry.toNat, leBytes 4 entryArrayCrc32.toNat]

/-- `gpt_header` in memory. -/
def GptHeader.bytes (hdr : GptHeader) (headerCrc32 entryArrayCrc32 : UInt32) : Bytes :=
  (hdr.chunks headerCrc32 entryArrayCrc32).flatten

/-- The fields of `gpt_entry`. -/
def GptEntry.chunks (entry : GptEntry) : List Bytes :=
  [entry.partitionTypeGuid, entry.uniquePartitionGuid, leBytes 8 entry.startingLba.toNat,
    leBytes 8 entry.endingLba.toNat, leBytes 8 (if entry.legacyBiosBootable then 4 else 0),
    entry.partitionName.flatMap fun c ↦ leBytes 2 c.toNat]

/-- `gpt_entry` in memory. -/
def GptEntry.bytes (entry : GptEntry) : Bytes := entry.chunks.flatten

/-- `set_protective_mbr`: the boot code stays. -/
def setProtectiveMbr (dev : BlkDesc) (mbr : Bytes) : Bytes :=
  mbr.take 440 ++ List.replicate 6 0 ++
    ([0, 0, 0, 0, 0xee, 0, 0, 0] ++ leBytes 4 1 ++ leBytes 4 (dev.lba - 1).toNat) ++
    List.replicate 48 0 ++ [0x55, 0xaa] ++ mbr.drop 512

/-- `prepare_backup_gpt_header`, but for the checksum. -/
def prepareBackupGptHeader (hdr : GptHeader) : GptHeader :=
  { hdr with
    myLba := hdr.alternateLba
    alternateLba := hdr.myLba
    partitionEntryLba := hdr.lastUsableLba + 1 }

/-- The checksum of the entry array. -/
def arrayCrc32 (env : Env) (hdr : GptHeader) (data : Bytes) : UInt32 :=
  env.crc32 (padded data (hdr.numPartitionEntries * hdr.sizeofPartitionEntry).toNat)

/-- The header with its checksums: `header_crc32` is 0 while it is computed. -/
def signedHeader (env : Env) (hdr : GptHeader) (data : Bytes) : Bytes :=
  let crc := arrayCrc32 env hdr data
  hdr.bytes (env.crc32 ((hdr.bytes 0 crc).take hdr.headerSize.toNat)) crc

/-- `BLOCK_CNT` of the entry array. -/
def pteBlkCnt (dev : BlkDesc) (hdr : GptHeader) : ℕ :=
  (padCount (hdr.numPartitionEntries * 128) (UInt32.ofNat dev.blksz)).toNat

/-- The writes of `write_gpt_table`, for the bytes of the entries. -/
def writeGptTable (env : Env) {dev : BlkDesc} (disk : Disk dev) (hdr : GptHeader) (data : Bytes) :
    List (ℕ × Block dev) :=
  let backup := prepareBackupGptHeader hdr
  blkDwrite dev 0 1 (setProtectiveMbr dev (disk 0).1) ++
    blkDwrite dev 1 1 (signedHeader env hdr data) ++
    blkDwrite dev hdr.partitionEntryLba.toUInt32 (pteBlkCnt dev hdr) data ++
    blkDwrite dev (backup.lastUsableLba.toUInt32 + 1) (pteBlkCnt dev hdr) data ++
    blkDwrite dev backup.myLba.toUInt32 1 (signedHeader env backup data)

/-- What `gpt_restore` is called with: there is an entry for each partition. -/
structure Request where
  strDiskGuid : Str
  partitions : List DiskPartition
  length_le : partitions.length ≤ 128

/-- `gpt_restore`: the writes of a run that succeeds.  `entriesOffset` is
`partition_entries_offset`. -/
def gptRestore (env : Env) {dev : BlkDesc} (disk : Disk dev) (entriesOffset : UInt32)
    (req : Request) :
    Option (List (ℕ × Block dev)) := do
  let pad (size : UInt32) := padCount size (UInt32.ofNat dev.blksz) * UInt32.ofNat dev.blksz
  if env.malloc (pad 92) = false then none
  else if env.malloc (pad (gptEntryNumbers * 128)) = false then none
  else
    let hdr ← gptFillHeader env.uuidStrToBin dev entriesOffset req.strDiskGuid
    let entries ← gptFillPte env.uuidStrToBin dev hdr req.partitions
    let ws := writeGptTable env disk hdr (entries.flatMap GptEntry.bytes)
    if ∀ w ∈ ws, w.1 < dev.lba.toNat then some ws else none

end MiniPi.Gpt
