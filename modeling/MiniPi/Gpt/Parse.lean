import MiniPi.Gpt.Fill
import MiniPi.Lib.Mem

/-!
# Reading a GPT

`part_get_info_efi` and `part_print_efi` of `disk/part_efi.c`, with 32-bit `lbaint_t` and `size_t`.
A read outside of the block-sized buffer for the header, or outside of the buffer that is allocated
for the entries, gives `none`.  The signature of the device, which is taken from the header on the
way, and the texts of the messages are left out.
-/

namespace MiniPi.Gpt

open Lib (leValue)

/-- Bytes in memory. -/
abbrev Bytes := List UInt8

/-- The device with what it holds, and the code around: a block that cannot be read is `none`, and
`malloc` tells whether memory of some size is granted. -/
structure Machine where
  dev : BlkDesc
  block : UInt32 → Option Bytes
  length_block : ∀ i b, block i = some b → b.length = dev.blksz
  crc32 : Bytes → UInt32
  malloc : UInt32 → Bool

/-- `blk_dread`: the bytes of all blocks, or an error. -/
def blkDread (m : Machine) (start : UInt32) : ℕ → Option Bytes
  | 0 => some []
  | n + 1 => do
    let b ← m.block start
    let bs ← blkDread m (start + 1) n
    some (b ++ bs)

/-- A read of `len` bytes from `off` on, in a buffer of `size` bytes. -/
def readBytes (data : Bytes) (size off len : ℕ) : Option Bytes :=
  if off + len ≤ size then some ((data.drop off).take len) else none

/-! ## The header -/

/-- A number in a structure. -/
def field (b : Bytes) (off len : ℕ) : ℕ := leValue ((b.drop off).take len)

/-- `gpt_h->signature`. -/
def signature (h : Bytes) : ℕ := field h 0 8

/-- `gpt_h->header_size`. -/
def headerSize (h : Bytes) : ℕ := field h 12 4

/-- `gpt_h->header_crc32`. -/
def headerCrc32 (h : Bytes) : ℕ := field h 16 4

/-- `gpt_h->my_lba`. -/
def myLba (h : Bytes) : ℕ := field h 24 8

/-- `gpt_h->first_usable_lba`. -/
def firstUsableLba (h : Bytes) : ℕ := field h 40 8

/-- `gpt_h->last_usable_lba`. -/
def lastUsableLba (h : Bytes) : ℕ := field h 48 8

/-- `gpt_h->partition_entry_lba`. -/
def partitionEntryLba (h : Bytes) : ℕ := field h 72 8

/-- `gpt_h->num_partition_entries`. -/
def numPartitionEntries (h : Bytes) : ℕ := field h 80 4

/-- `gpt_h->sizeof_partition_entry`. -/
def sizeofPartitionEntry (h : Bytes) : ℕ := field h 84 4

/-- `gpt_h->partition_entry_array_crc32`. -/
def partitionEntryArrayCrc32 (h : Bytes) : ℕ := field h 88 4

/-- `GPT_HEADER_SIGNATURE_UBOOT`. -/
def gptHeaderSignature : ℕ := 0x5452415020494645

/-- `GPT_HEADER_CHROMEOS_IGNORE`. -/
def gptHeaderChromeosIgnore : ℕ := 0x454d45524f4e4749

/-- The header while its checksum is computed. -/
def clearCrc (h : Bytes) : Bytes := h.take 16 ++ [0, 0, 0, 0] ++ h.drop 20

/-- `validate_gpt_header`. -/
def validateGptHeader (m : Machine) (h : Bytes) (lba lastlba : UInt32) : Option Bool :=
  if signature h ≠ gptHeaderSignature then some false
  else do
    let bytes ← readBytes (clearCrc h) m.dev.blksz 0 (headerSize h)
    if (m.crc32 bytes).toNat ≠ headerCrc32 h then some false
    else
      some (decide (myLba h = lba.toNat ∧ firstUsableLba h ≤ lastlba.toNat ∧
        lastUsableLba h ≤ lastlba.toNat))

/-! ## The entries -/

/-- The buffer for the entries: what is allocated, and what is read into it. -/
structure Entries where
  size : ℕ
  data : Bytes

/-- The bytes of the entry array, in 32 bits. -/
def count (h : Bytes) : UInt32 :=
  UInt32.ofNat (numPartitionEntries h) * UInt32.ofNat (sizeofPartitionEntry h)

/-- `BLOCK_CNT`. -/
def blockCnt (m : Machine) (size : UInt32) : UInt32 := padCount size (UInt32.ofNat m.dev.blksz)

/-- `PAD_TO_BLOCKSIZE`. -/
def padToBlocksize (m : Machine) (size : UInt32) : UInt32 :=
  blockCnt m size * UInt32.ofNat m.dev.blksz

/-- `alloc_read_gpt_entries`; NULL is `none`. -/
def allocReadGptEntries (m : Machine) (h : Bytes) : Option Entries :=
  if count h = 0 ∨ m.malloc (padToBlocksize m (count h)) = false then none
  else
    (blkDread m (UInt32.ofNat (partitionEntryLba h)) (blockCnt m (count h)).toNat).map fun data ↦
      ⟨(padToBlocksize m (count h)).toNat, data⟩

/-- `validate_gpt_entries`. -/
def validateGptEntries (m : Machine) (h : Bytes) (e : Entries) : Option Bool := do
  let bytes ← readBytes e.data e.size 0 (count h).toNat
  some ((m.crc32 bytes).toNat == partitionEntryArrayCrc32 h)

/-- The results of `is_gpt_valid`. -/
inductive Validity
  | error
  | ignored
  | valid (h : Bytes) (e : Entries)

/-- `is_gpt_valid`. -/
def isGptValid (m : Machine) (lba : UInt32) : Option Validity :=
  match m.block 0, m.block lba with
  | some _, some h =>
    if signature h = gptHeaderChromeosIgnore then some .ignored
    else do
      if ← validateGptHeader m h lba m.dev.lba then
        match allocReadGptEntries m h with
        | none => some .error
        | some e => if ← validateGptEntries m h e then some (.valid h e) else some .error
      else some .error
  | _, _ => some .error

/-- `find_valid_gpt`. -/
def findValidGpt (m : Machine) : Option (Option (Bytes × Entries)) := do
  match ← isGptValid m 1 with
  | .valid h e => some (some (h, e))
  | _ =>
    match ← isGptValid m (m.dev.lba - 1) with
    | .valid h e => some (some (h, e))
    | _ => some none

/-- `is_pte_valid`, for the entry with some index. -/
def isPteValid (e : Entries) (i : ℕ) : Option Bool := do
  let guid ← readBytes e.data e.size (i * 128) 16
  some (guid != List.replicate 16 0)

/-! ## Partitions -/

/-- What is told about a partition. -/
structure Info where
  start : UInt32
  size : UInt32
  name : Bytes
  bootable : Bool
  uuid : Guid

/-- `isprint`. -/
def isprint (c : UInt8) : Bool := decide (0x20 ≤ c ∧ c < 0x7f ∨ 0xa0 ≤ c)

/-- `print_efiname`, up to its NUL. -/
def printEfiname (entry : Bytes) : Bytes :=
  ((List.range 36).map fun i ↦
    let c := entry.getD (56 + 2 * i) 0
    if c ≠ 0 ∧ ¬isprint c then '.'.toUInt8 else c).takeWhile (· != 0)

/-- `system_guid`. -/
def systemGuid : Guid :=
  [0x28, 0x73, 0x2a, 0xc1, 0x1f, 0xf8, 0xd2, 0x11, 0xba, 0x4b, 0x00, 0xa0, 0xc9, 0x3e, 0xc9, 0x3b]

/-- `is_bootable`. -/
def isBootable (entry : Bytes) : Bool :=
  (field entry 48 8).testBit 2 || entry.take 16 == systemGuid

/-- What `part_get_info_efi` tells about an entry. -/
def entryInfo (entry : Bytes) : Info where
  start := UInt32.ofNat (field entry 32 8)
  size := UInt32.ofNat (field entry 40 8) + 1 - UInt32.ofNat (field entry 32 8)
  name := (printEfiname entry).take 31
  bootable := isBootable entry
  uuid := (entry.drop 16).take 16

/-- `part_get_info_efi`; a result of -1 is the inner `none`. -/
def partGetInfoEfi (m : Machine) (part : ℤ) : Option (Option Info) :=
  if part < 1 then some none
  else do
    match ← findValidGpt m with
    | none => some none
    | some (h, e) =>
      if (numPartitionEntries h : ℤ) < part then some none
      else
        let i := (part - 1).toNat
        if ← isPteValid e i then
          let entry ← readBytes e.data e.size (i * 128) 128
          some (some (entryInfo entry))
        else some none

/-- The loop of `part_print_efi`, from entry `i` on: the entries that are printed. -/
def printLoop (e : Entries) : ℕ → ℕ → Option (List Bytes)
  | 0, _ => some []
  | n + 1, i => do
    if ← isPteValid e i then
      let entry ← readBytes e.data e.size (i * 128) 128
      (entry :: ·) <$> printLoop e n (i + 1)
    else some []

/-- `part_print_efi`. -/
def partPrintEfi (m : Machine) : Option (List Bytes) := do
  match ← findValidGpt m with
  | none => some []
  | some (h, e) => printLoop e (numPartitionEntries h) 0

end MiniPi.Gpt
