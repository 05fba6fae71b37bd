import Mathlib

/-!
# The layout of a GPT

`gpt_fill_header` and `gpt_fill_pte` of `disk/part_efi.c`, as they are built for the Raspberry Pi 2:
`lbaint_t`, `size_t` and `ulong` have 32 bits, and a partition has a UUID.
-/

namespace MiniPi.Gpt

/-- A string without its NUL. -/
abbrev Str := List UInt8

/-- The 16 bytes of a GUID. -/
abbrev Guid := List UInt8

/-- `struct blk_desc`: the number of blocks, and the logarithm of the size of a block. -/
structure BlkDesc where
  lba : UInt32
  log2blksz : ℕ
  lo : 9 ≤ log2blksz
  hi : log2blksz ≤ 14

/-- `dev_desc->blksz`. -/
def BlkDesc.blksz (dev : BlkDesc) : ℕ := 2 ^ dev.log2blksz

/-- `gpt_header`, but for its checksums. -/
structure GptHeader where
  signature : UInt64
  revision : UInt32
  headerSize : UInt32
  myLba : UInt64
  alternateLba : UInt64
  firstUsableLba : UInt64
  lastUsableLba : UInt64
  diskGuid : Guid
  partitionEntryLba : UInt64
  numPartitionEntries : UInt32
  sizeofPartitionEntry : UInt32

/-- `gpt_entry`. -/
structure GptEntry where
  partitionTypeGuid : Guid
  uniquePartitionGuid : Guid
  startingLba : UInt64
  endingLba : UInt64
  legacyBiosBootable : Bool
  partitionName : List UInt16

/-- `disk_partition_t`, as far as it is used to fill an entry. -/
structure DiskPartition where
  start : UInt32
  size : UInt32
  name : List UInt8
  bootable : Bool
  uuid : Str

/-! ## The header -/

/-- `PAD_COUNT`, in 32 bits. -/
def padCount (s pad : UInt32) : UInt32 := (s - 1) / pad + 1

/-- `partition_entries_offset`, for the offset in bytes that is configured and the one that the
device tree gives. -/
def partitionEntriesOffset (dev : BlkDesc) (entriesOff : UInt32) (configOffset : Option UInt32) :
    UInt32 :=
  let blksz := UInt32.ofNat dev.blksz
  let offsetBytes := padCount entriesOff blksz * blksz
  let offsetBlks := offsetBytes / blksz
  let offsetBlks :=
    match configOffset with
    | some off => padCount off blksz * blksz / blksz
    | none => offsetBlks
  if offsetBlks < 2 then 2 else offsetBlks

/-- `GPT_ENTRY_NUMBERS`. -/
def gptEntryNumbers : UInt32 := 128

/-- `partition_basic_data_guid`. -/
def partitionBasicDataGuid : Guid :=
  [0xa2, 0xa0, 0xd0, 0xeb, 0xe5, 0xb9, 0x33, 0x44, 0x87, 0xc0, 0x68, 0xb6, 0xb7, 0x26, 0x99, 0xc7]

/-- `gpt_fill_header`; a result of -1 is `none`. -/
def gptFillHeader (uuidStrToBin : Str → Option Guid) (dev : BlkDesc) (entriesOffset : UInt32)
    (strGuid : Str) : Option GptHeader := do
  let diskGuid ← uuidStrToBin strGuid
  some
    { signature := 0x5452415020494645
      revision := 0x00010000
      headerSize := 92
      myLba := 1
      alternateLba := (dev.lba - 1).toUInt64
      firstUsableLba := entriesOffset.toUInt64 + 32
      lastUsableLba := (dev.lba - 34).toUInt64
      diskGuid
      partitionEntryLba := entriesOffset.toUInt64
      numPartitionEntries := gptEntryNumbers
      sizeofPartitionEntry := 128 }

/-! ## The entries -/

/-- `partition_name`: at most 36 characters, and zeros behind them. -/
def entryName (name : List UInt8) : List UInt16 :=
  (List.range 36).map fun k ↦ if k < min 32 36 then (name.getD k 0).toUInt16 else 0

/-- The test against the header and against the entry array. -/
def overlaps (start stop lo hi : UInt32) : Bool := decide (start < hi ∧ lo < stop)

/-- The loop of `gpt_fill_pte`. -/
def fillLoop (uuidStrToBin : Str → Option Guid) (dev : BlkDesc) (hdr : GptHeader) :
    List DiskPartition → UInt32 → Option (List GptEntry)
  | [], _ => some []
  | part :: parts, offset => do
    let hdrStart := hdr.myLba.toUInt32
    let pteStart := hdr.partitionEntryLba.toUInt32
    let pteEnd := pteStart +
      hdr.numPartitionEntries * hdr.sizeofPartitionEntry / UInt32.ofNat dev.blksz
    let lastUsableLba := hdr.lastUsableLba.toUInt32
    let start := if part.start ≠ 0 then part.start else offset
    let offset := start + part.size
    if overlaps start (start + part.size) hdrStart (hdrStart + 1) ||
        overlaps start (start + part.size) pteStart pteEnd then none
    else if lastUsableLba + 1 < offset then none
    else
      let uniquePartitionGuid ← uuidStrToBin part.uuid
      let entry : GptEntry :=
        { partitionTypeGuid := partitionBasicDataGuid
          uniquePartitionGuid
          startingLba := start.toUInt64
          endingLba :=
            if parts = [] ∧ part.size = 0 then hdr.lastUsableLba else (offset - 1).toUInt64
          legacyBiosBootable := part.bootable
          partitionName := entryName part.name }
      (entry :: ·) <$> fillLoop uuidStrToBin dev hdr parts offset

/-- `gpt_fill_pte`: the entries; a result of -1 is `none`. -/
def gptFillPte (uuidStrToBin : Str → Option Guid) (dev : BlkDesc) (hdr : GptHeader)
    (parts : List DiskPartition) : Option (List GptEntry) :=
  fillLoop uuidStrToBin dev hdr parts hdr.firstUsableLba.toUInt32

/-! ## Blocks -/

/-- The blocks of the entry array. -/
def entriesBlocks (dev : BlkDesc) : ℕ := (128 * 128 - 1) / dev.blksz + 1

/-- The blocks from `s` to `e` leave out the header in block 1 and an entry array of `k` blocks at
`p`. -/
def Clear (p k s e : ℕ) : Prop := ∀ b, s ≤ b → b ≤ e → b ≠ 1 ∧ ¬(p ≤ b ∧ b < p + k)

section Blocks

variable {p k s z o e last : ℕ}

theorem clear_iff (hk : 0 < k) : Clear p k s e ↔
    e < s ∨ (1 < s ∨ e < 1) ∧ (p + k ≤ s ∨ e < p) := by
  constructor
  · intro h
    have h1 := h 1
    have h2 := h (max s p)
    omega
  · intro h b hs he
    omega

/-- A partition that passes the tests and has an end of its own. -/
theorem clear_stop_iff (hs : s < 2 ^ 32) (ho : o = (s + z) % 2 ^ 32)
    (hlast : last < 2 ^ 32) (hp : 2 ≤ p) (hk : 0 < k) (h1 : ¬(s < 2 ∧ 1 < o))
    (h2 : ¬(s < p + k ∧ p < o)) (h3 : o ≤ (last + 1) % 2 ^ 32) (hpk : p + k < 2 ^ 32) :
    Clear p k s ((o + (2 ^ 32 - 1)) % 2 ^ 32) ∧ (o + (2 ^ 32 - 1)) % 2 ^ 32 ≤ last ↔
      o ≠ 0 ∨ last + 1 = 2 ^ 32 ∧ p + k ≤ s := by
  rw [clear_iff hk]
  omega

theorem clear_rest_iff (hp : 2 ≤ p) (hk : 0 < k) :
    Clear p k s last ↔ last < s ∨ p + k ≤ s ∨ last < p ∧ (1 < s ∨ last = 0) := by
  rw [clear_iff hk]
  omega

end Blocks

/-! ## The layout that is asked for -/

/-- A partition with the start that it gets. -/
structure Placed where
  part : DiskPartition
  start : UInt32
  /-- It is the last one of the list. -/
  last : Bool

namespace Placed

/-- The block behind the partition. -/
def stop (pl : Placed) : UInt32 := pl.start + pl.part.size

/-- The partition takes the rest of the device. -/
def TakesRest (pl : Placed) : Prop := pl.last ∧ pl.part.size = 0

instance (pl : Placed) : Decidable pl.TakesRest := inferInstanceAs (Decidable (_ ∧ _))

end Placed

/-- The partitions of a list; one without a start of its own stands behind the one before it. -/
def placed : List DiskPartition → UInt32 → List Placed
  | [], _ => []
  | part :: parts, offset =>
    let start := if part.start ≠ 0 then part.start else offset
    ⟨part, start, parts.isEmpty⟩ :: placed parts (start + part.size)

/-- The numbers of a layout: where the entry array is, and the last usable block. -/
structure Area where
  entriesStart : ℕ
  entries : ℕ
  lastUsable : ℕ

/-- The area that a header describes. -/
def GptHeader.area (hdr : GptHeader) (dev : BlkDesc) : Area :=
  ⟨hdr.partitionEntryLba.toNat, entriesBlocks dev, hdr.lastUsableLba.toNat⟩

/-- The entry leaves out the header and the entry array, and ends in the usable area. -/
def InUsableArea (area : Area) (entry : GptEntry) : Prop :=
  Clear area.entriesStart area.entries entry.startingLba.toNat entry.endingLba.toNat ∧
    entry.endingLba.toNat ≤ area.lastUsable

/-- A partition that is not refused: the blocks up to its stop leave out the header and the entry
array, it stops in the usable area, and its UUID is valid. -/
structure Admitted (uuidStrToBin : Str → Option Guid) (area : Area) (pl : Placed) : Prop where
  header : ¬(pl.start.toNat < 2 ∧ 1 < pl.stop.toNat)
  entries : ¬(pl.start.toNat < area.entriesStart + area.entries ∧ area.entriesStart < pl.stop.toNat)
  stop : pl.stop.toNat ≤ (area.lastUsable + 1) % 2 ^ 32
  uuid : (uuidStrToBin pl.part.uuid).isSome

/-- A partition that takes the rest of the device starts behind the entry array, where the device
has blocks there; any other one does not stop at block `2 ^ 32`. -/
def Sound (area : Area) (pl : Placed) : Prop :=
  if pl.TakesRest then
    area.lastUsable < pl.start.toNat ∨ area.entriesStart + area.entries ≤ pl.start.toNat ∨
      area.lastUsable < area.entriesStart ∧ (1 < pl.start.toNat ∨ area.lastUsable = 0)
  else
    pl.stop ≠ 0 ∨
      area.lastUsable + 1 = 2 ^ 32 ∧ area.entriesStart + area.entries ≤ pl.start.toNat

/-- The entry that is filled for a partition. -/
def entryOf (uuidStrToBin : Str → Option Guid) (hdr : GptHeader) (pl : Placed) : GptEntry where
  partitionTypeGuid := partitionBasicDataGuid
  uniquePartitionGuid := (uuidStrToBin pl.part.uuid).getD []
  startingLba := pl.start.toUInt64
  endingLba := if pl.TakesRest then hdr.lastUsableLba else (pl.stop - 1).toUInt64
  legacyBiosBootable := pl.part.bootable
  partitionName := entryName pl.part.name

/-- What `gpt_fill_header` makes of a device. -/
structure Header (dev : BlkDesc) (hdr : GptHeader) : Prop where
  myLba : hdr.myLba = 1
  lastUsable : hdr.lastUsableLba = (dev.lba - 34).toUInt64
  lo : 2 ≤ hdr.partitionEntryLba.toNat
  hi : hdr.partitionEntryLba.toNat ≤ 2 ^ 23
  number : hdr.numPartitionEntries = 128
  size : hdr.sizeofPartitionEntry = 128

section Layout

variable {uuidStrToBin : Str → Option Guid} {dev : BlkDesc} {hdr : GptHeader}

/-- The sizes of a block. -/
def blockSizes : List ℕ := [512, 1024, 2048, 4096, 8192, 16384]

theorem BlkDesc.blksz_mem (dev : BlkDesc) : dev.blksz ∈ blockSizes := by
  obtain ⟨lba, n, lo, hi⟩ := dev
  change 2 ^ n ∈ blockSizes
  clear lba
  interval_cases n <;> decide

theorem blockSizes_spec : ∀ n ∈ blockSizes, (UInt32.ofNat n).toNat = n ∧ 512 ≤ n ∧
    (128 * 128 - 1) / n + 1 = 16384 / n ∧ 0 < 16384 / n ∧ 16384 / n ≤ 32 := by decide

theorem BlkDesc.blksz_toNat (dev : BlkDesc) : (UInt32.ofNat dev.blksz).toNat = dev.blksz :=
  (blockSizes_spec _ dev.blksz_mem).1

theorem BlkDesc.le_blksz (dev : BlkDesc) : 512 ≤ dev.blksz := (blockSizes_spec _ dev.blksz_mem).2.1

/-- The blocks of the entry array, as the tests count them. -/
theorem BlkDesc.entriesBlocks_eq (dev : BlkDesc) : entriesBlocks dev = 16384 / dev.blksz :=
  (blockSizes_spec _ dev.blksz_mem).2.2.1

theorem BlkDesc.entriesBlocks_bounds (dev : BlkDesc) :
    0 < entriesBlocks dev ∧ entriesBlocks dev ≤ 32 := by
  rw [dev.entriesBlocks_eq]
  exact (blockSizes_spec _ dev.blksz_mem).2.2.2

theorem partitionEntriesOffset_bounds (dev : BlkDesc) (entriesOff : UInt32)
    (configOffset : Option UInt32) :
    2 ≤ (partitionEntriesOffset dev entriesOff configOffset).toNat ∧
      (partitionEntriesOffset dev entriesOff configOffset).toNat ≤ 2 ^ 23 := by
  have hdiv (x : UInt32) : (x / UInt32.ofNat dev.blksz).toNat ≤ 2 ^ 23 := by
    rw [UInt32.toNat_div, dev.blksz_toNat]
    have hlt := x.toNat_lt
    refine (Nat.div_le_div_left dev.le_blksz (by decide)).trans ?_
    omega
  have hmax (x : UInt32) (hx : x.toNat ≤ 2 ^ 23) :
      2 ≤ (if x < 2 then 2 else x).toNat ∧ (if x < 2 then 2 else x).toNat ≤ 2 ^ 23 := by
    split_ifs with h
    · decide
    · rw [UInt32.lt_iff_toNat_lt] at h
      exact ⟨Nat.not_lt.mp h, hx⟩
  unfold partitionEntriesOffset
  cases configOffset with
  | none => exact hmax _ (hdiv _)
  | some off => exact hmax _ (hdiv _)

theorem gptFillHeader_spec {entriesOff : UInt32} {configOffset : Option UInt32} {strGuid : Str}
    (h : gptFillHeader uuidStrToBin dev (partitionEntriesOffset dev entriesOff configOffset)
      strGuid =
      some hdr) : Header dev hdr := by
  obtain ⟨guid, -, hhdr⟩ := Option.bind_eq_some_iff.mp h
  obtain rfl := Option.some.inj hhdr
  obtain ⟨hlo, hhi⟩ := partitionEntriesOffset_bounds dev entriesOff configOffset
  exact ⟨rfl, rfl, by simpa using hlo, by simpa using hhi, rfl, rfl⟩

/-- The end of the entry array, as the tests compute it. -/
theorem Header.pteEnd_toNat (h : Header dev hdr) : (hdr.partitionEntryLba.toUInt32 +
    hdr.numPartitionEntries * hdr.sizeofPartitionEntry / UInt32.ofNat dev.blksz).toNat =
      hdr.partitionEntryLba.toNat + entriesBlocks dev := by
  obtain ⟨-, hle⟩ := dev.entriesBlocks_bounds
  have hhi := h.hi
  have hmul : ((128 : UInt32) * 128).toNat = 16384 := rfl
  rw [h.number, h.size, UInt32.toNat_add, UInt32.toNat_div, dev.blksz_toNat, hmul,
    ← dev.entriesBlocks_eq, UInt64.toNat_toUInt32]
  omega

/-- The tests of the loop for a partition. -/
theorem Header.admitted_iff (h : Header dev hdr) (pl : Placed) :
    Admitted uuidStrToBin (hdr.area dev) pl ↔
      ¬((overlaps pl.start (pl.start + pl.part.size) hdr.myLba.toUInt32 (hdr.myLba.toUInt32 + 1) ||
        overlaps pl.start (pl.start + pl.part.size) hdr.partitionEntryLba.toUInt32
          (hdr.partitionEntryLba.toUInt32 +
            hdr.numPartitionEntries * hdr.sizeofPartitionEntry / UInt32.ofNat dev.blksz)) = true) ∧
      ¬(hdr.lastUsableLba.toUInt32 + 1 < pl.start + pl.part.size) ∧
      (uuidStrToBin pl.part.uuid).isSome := by
  have hhi := h.hi
  have hpte : hdr.partitionEntryLba.toUInt32.toNat = hdr.partitionEntryLba.toNat := by
    rw [UInt64.toNat_toUInt32]
    omega
  have hlast : (hdr.lastUsableLba.toUInt32 + 1).toNat = (hdr.lastUsableLba.toNat + 1) % 2 ^ 32 := by
    rw [UInt32.toNat_add, UInt64.toNat_toUInt32]
    simp
  rw [overlaps, overlaps, Bool.or_eq_true, decide_eq_true_iff, decide_eq_true_iff, not_or,
    UInt32.lt_iff_toNat_lt, UInt32.lt_iff_toNat_lt, UInt32.lt_iff_toNat_lt, UInt32.lt_iff_toNat_lt,
    UInt32.lt_iff_toNat_lt, h.pteEnd_toNat, hpte, hlast, h.myLba, Nat.not_lt, and_assoc]
  constructor
  · rintro ⟨h1, h2, h3, h4⟩
    exact ⟨h1, h2, h3, h4⟩
  · rintro ⟨h1, h2, h3, h4⟩
    exact ⟨h1, h2, h3, h4⟩

/-- The loop fills an entry for each partition, if none of them is refused. -/
theorem Header.fillLoop_eq (h : Header dev hdr) (parts : List DiskPartition) (offset : UInt32)
    (entries : List GptEntry) : fillLoop uuidStrToBin dev hdr parts offset = some entries ↔
      (∀ pl ∈ placed parts offset, Admitted uuidStrToBin (hdr.area dev) pl) ∧
        entries = (placed parts offset).map (entryOf uuidStrToBin hdr) := by
  induction parts generalizing offset entries with
  | nil => simp [fillLoop, placed, eq_comm]
  | cons part parts ih =>
      rw [fillLoop, placed]
      dsimp only
      generalize hstart : (if part.start ≠ 0 then part.start else offset) = start
      have hadm := @Header.admitted_iff uuidStrToBin dev hdr h ⟨part, start, parts.isEmpty⟩
      dsimp only at hadm
      rw [List.forall_mem_cons, List.map_cons, hadm]
      by_cases hoverlap : (overlaps start (start + part.size) hdr.myLba.toUInt32
          (hdr.myLba.toUInt32 + 1) || overlaps start (start + part.size)
          hdr.partitionEntryLba.toUInt32 (hdr.partitionEntryLba.toUInt32 +
            hdr.numPartitionEntries * hdr.sizeofPartitionEntry / UInt32.ofNat dev.blksz)) = true
      · rw [if_pos hoverlap]
        simp [hoverlap]
      rw [if_neg hoverlap]
      by_cases hstop : hdr.lastUsableLba.toUInt32 + 1 < start + part.size
      · rw [if_pos hstop]
        simp [hstop]
      · rw [if_neg hstop]
        cases hguid : uuidStrToBin part.uuid with
        | none => simp
        | some guid =>
            have hentry : entryOf uuidStrToBin hdr ⟨part, start, parts.isEmpty⟩ =
                { partitionTypeGuid := partitionBasicDataGuid
                  uniquePartitionGuid := guid
                  startingLba := start.toUInt64
                  endingLba :=
                    if parts = [] ∧ part.size = 0 then hdr.lastUsableLba
                    else (start + part.size - 1).toUInt64
                  legacyBiosBootable := part.bootable
                  partitionName := entryName part.name } := by
              rw [entryOf]
              simp only [Placed.TakesRest, Placed.stop, List.isEmpty_iff, hguid, Option.getD_some]
            rw [hentry]
            simp only [Option.bind_eq_bind, Option.bind_some, Option.map_eq_map,
              Option.map_eq_some_iff, Option.isSome_some, and_true]
            constructor
            · rintro ⟨entries', hrec, rfl⟩
              obtain ⟨hall, rfl⟩ := (ih _ _).mp hrec
              exact ⟨⟨⟨hoverlap, hstop⟩, hall⟩, rfl⟩
            · rintro ⟨⟨-, hall⟩, rfl⟩
              exact ⟨_, (ih _ _).mpr ⟨hall, rfl⟩, rfl⟩

/-- An entry is in the usable area exactly where its partition is sound. -/
theorem Header.inUsableArea_iff (h : Header dev hdr) {pl : Placed}
    (hadm : Admitted uuidStrToBin (hdr.area dev) pl) :
    InUsableArea (hdr.area dev) (entryOf uuidStrToBin hdr pl) ↔ Sound (hdr.area dev) pl := by
  obtain ⟨hpos, hle⟩ := dev.entriesBlocks_bounds
  have hlo := h.lo
  have hhi := h.hi
  have hlast : hdr.lastUsableLba.toNat < 2 ^ 32 := by
    rw [h.lastUsable, UInt32.toNat_toUInt64]
    exact UInt32.toNat_lt _
  obtain ⟨hheader, hentries, hstop, -⟩ := hadm
  unfold InUsableArea Sound
  by_cases hrest : pl.TakesRest
  · rw [if_pos hrest]
    have hend : (entryOf uuidStrToBin hdr pl).endingLba.toNat = hdr.lastUsableLba.toNat := by
      rw [entryOf, if_pos hrest]
    have hstart : (entryOf uuidStrToBin hdr pl).startingLba.toNat = pl.start.toNat :=
      UInt32.toNat_toUInt64 _
    rw [hend, hstart]
    change Clear hdr.partitionEntryLba.toNat (entriesBlocks dev) _ _ ∧ _ ≤ hdr.lastUsableLba.toNat ↔
      _
    rw [clear_rest_iff hlo hpos, and_iff_left le_rfl]
    rfl
  · rw [if_neg hrest]
    have hend : (entryOf uuidStrToBin hdr pl).endingLba.toNat =
        (pl.stop.toNat + (2 ^ 32 - 1)) % 2 ^ 32 := by
      rw [entryOf, if_neg hrest, UInt32.toNat_toUInt64, UInt32.toNat_sub]
      simp
      omega
    have hstart : (entryOf uuidStrToBin hdr pl).startingLba.toNat = pl.start.toNat :=
      UInt32.toNat_toUInt64 _
    have hzero : pl.stop ≠ 0 ↔ pl.stop.toNat ≠ 0 := by
      rw [Ne, Ne, ← UInt32.toNat_inj]
      rfl
    rw [hend, hstart, hzero]
    have hpk : hdr.partitionEntryLba.toNat + entriesBlocks dev < 2 ^ 32 := by omega
    exact clear_stop_iff pl.start.toNat_lt (UInt32.toNat_add ..) hlast hlo hpos
      hheader hentries hstop hpk

end Layout

/-- Every layout that `gpt_fill_pte` accepts stays in the usable area exactly where its partitions
are sound. -/
theorem gptFillPte_inUsableArea_iff (uuidStrToBin : Str → Option Guid) (dev : BlkDesc)
    (entriesOff : UInt32) (configOffset : Option UInt32) (strGuid : Str) (hdr : GptHeader)
    (hhdr : gptFillHeader uuidStrToBin dev (partitionEntriesOffset dev entriesOff configOffset)
      strGuid =
      some hdr) (parts : List DiskPartition) :
    (∀ entries, gptFillPte uuidStrToBin dev hdr parts = some entries →
      ∀ entry ∈ entries, InUsableArea (hdr.area dev) entry) ↔
      ((∀ pl ∈ placed parts hdr.firstUsableLba.toUInt32, Admitted uuidStrToBin (hdr.area dev) pl) →
        ∀ pl ∈ placed parts hdr.firstUsableLba.toUInt32, Sound (hdr.area dev) pl) := by
  have h := gptFillHeader_spec hhdr
  constructor
  · intro hgood hadm pl hpl
    have hrun := (h.fillLoop_eq parts hdr.firstUsableLba.toUInt32 _).mpr ⟨hadm, rfl⟩
    exact (h.inUsableArea_iff (hadm pl hpl)).mp (hgood _ hrun _ (List.mem_map_of_mem hpl))
  · intro hsound entries hrun entry hentry
    obtain ⟨hadm, rfl⟩ := (h.fillLoop_eq ..).mp hrun
    obtain ⟨pl, hpl, rfl⟩ := List.mem_map.mp hentry
    exact (h.inUsableArea_iff (hadm pl hpl)).mpr (hsound hadm pl hpl)

theorem nine_le : 9 ≤ 14 := by decide

/-- A device of 1000 blocks of 512 bytes. -/
def smallDev : BlkDesc := ⟨1000, 9, le_rfl, nine_le⟩

/-- Every string is taken for the same GUID. -/
def sameGuid : Str → Option Guid := fun _ ↦ some []

/-- The header for the small device. -/
def smallHeader : GptHeader where
  signature := 0x5452415020494645
  revision := 0x00010000
  headerSize := 92
  myLba := 1
  alternateLba := 999
  firstUsableLba := 34
  lastUsableLba := 966
  diskGuid := []
  partitionEntryLba := 2
  numPartitionEntries := 128
  sizeofPartitionEntry := 128

theorem gptFillHeader_small :
    gptFillHeader sameGuid smallDev (partitionEntriesOffset smallDev 0 none) [] =
    some smallHeader := rfl

/-- Two partitions: 100 blocks, and the rest. -/
theorem gptFillPte_inUsableArea_iff_two :
    (∀ entries, gptFillPte sameGuid smallDev smallHeader
        [⟨0, 100, [97], false, []⟩, ⟨0, 0, [98], true, []⟩] = some entries →
      ∀ entry ∈ entries, InUsableArea (smallHeader.area smallDev) entry) ↔
      ((∀ pl ∈ placed [⟨0, 100, [97], false, []⟩, ⟨0, 0, [98], true, []⟩]
          smallHeader.firstUsableLba.toUInt32, Admitted sameGuid (smallHeader.area smallDev) pl) →
        ∀ pl ∈ placed [⟨0, 100, [97], false, []⟩, ⟨0, 0, [98], true, []⟩]
          smallHeader.firstUsableLba.toUInt32, Sound (smallHeader.area smallDev) pl) :=
  gptFillPte_inUsableArea_iff sameGuid smallDev 0 none [] smallHeader gptFillHeader_small
    [⟨0, 100, [97], false, []⟩, ⟨0, 0, [98], true, []⟩]

/-- A single partition that starts at block 1 and takes the rest of the device is accepted. -/
theorem not_gptFillPte_inUsableArea :
    gptFillHeader sameGuid smallDev (partitionEntriesOffset smallDev 0 none) [] = some smallHeader ∧
      ∃ entries, gptFillPte sameGuid smallDev smallHeader [⟨1, 0, [97], false, []⟩] = some entries ∧
        ¬∀ entry ∈ entries, InUsableArea (smallHeader.area smallDev) entry := by
  refine ⟨gptFillHeader_small, _, rfl, fun h ↦ ?_⟩
  have hclear := (h _ List.mem_cons_self).1
  exact (hclear 1 (by decide) (by decide)).1 rfl

end MiniPi.Gpt
