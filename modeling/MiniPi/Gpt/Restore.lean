import MiniPi.Gpt.RoundTrip

/-!
# What `gpt_restore` leaves on a device

A run that succeeds on a device with room for both copies leaves both of them valid.
-/

namespace MiniPi.Gpt

open Lib (leBytes applyWrites applyWrites_take)

variable {env : Env} {dev : BlkDesc} {disk : Disk dev} {hdr : GptHeader} {data : Bytes}
  {off : UInt32} {req : Request} {ws : List (ℕ × Block dev)}

/-! ## Reading a copy -/

/-- A copy of the table is in place. -/
structure InPlace (env : Env) (disk : Disk dev) (hdr : GptHeader) (data : Bytes) : Prop where
  header : disk hdr.myLba.toNat = blockAt dev (signedHeader env hdr data) 0
  entries : ∀ j < entriesBlocks dev, disk (hdr.partitionEntryLba.toNat + j) = blockAt dev data j

theorem entriesAt_eq_of_data (h : (entriesAt disk hdr).data = (table data).data) :
    entriesAt disk hdr = table data := by
  unfold entriesAt table at h ⊢
  dsimp only at h
  rw [h]

theorem arrayCrc32_eq (h : Sane dev hdr) :
    env.crc32 (table data).data = arrayCrc32 env hdr data := by
  have hmul : ((128 : UInt32) * 128).toNat = 16384 := rfl
  rw [arrayCrc32, h.number, h.size, hmul, table]

/-- The verdict on a copy with its header in place. -/
theorem Sane.isGptValid_eq {lba : UInt32} (h : Sane dev hdr) (hlba : lba.toNat = hdr.myLba.toNat)
    (hblock : disk hdr.myLba.toNat = blockAt dev (signedHeader env hdr data) 0)
    (hmalloc : env.malloc 16384 = true) :
    ∃ v, Gpt.isGptValid (machine env disk) lba = some v ∧ ∀ h' e, v = .valid h' e ↔
      (h' = headerBlock env dev hdr data ∧ e = entriesAt disk hdr) ∧
        env.crc32 (entriesAt disk hdr).data = arrayCrc32 env hdr data := by
  obtain ⟨v, hv, hiff⟩ := Gpt.isGptValid_eq (h.fits hlba hblock)
  exact ⟨v, hv, fun h' e ↦ (hiff h' e).trans (h.valid_iff hlba hblock hmalloc)⟩

theorem InPlace.isGptValid {lba : UInt32} (hin : InPlace env disk hdr data) (h : Sane dev hdr)
    (hlba : lba.toNat = hdr.myLba.toNat) (hmalloc : env.malloc 16384 = true) :
    isGptValid (machine env disk) lba =
      some (.valid (headerBlock env dev hdr data) (table data)) := by
  obtain ⟨v, hv, hiff⟩ := h.isGptValid_eq hlba hin.header hmalloc
  rw [hv, Option.some_inj, hiff, entriesAt_eq hin.entries]
  exact ⟨⟨rfl, rfl⟩, arrayCrc32_eq h⟩

/-- The table that is found has some entries. -/
def Shows (m : Machine) (data : Bytes) : Prop :=
  ∃ h, numPartitionEntries h = 128 ∧ findValidGpt m = some (some (h, table data))

theorem Shows.of_primary {m : Machine} {hd : Bytes}
    (hv : isGptValid m 1 = some (.valid hd (table data))) (hnum : numPartitionEntries hd = 128) :
    Shows m data :=
  ⟨hd, hnum, by rw [findValidGpt, hv]; rfl⟩

theorem Shows.of_backup {m : Machine} {hd : Bytes} {v : Validity} (hv : isGptValid m 1 = some v)
    (hno : ∀ h e, v ≠ .valid h e)
    (hback : isGptValid m (m.dev.lba - 1) = some (.valid hd (table data)))
    (hnum : numPartitionEntries hd = 128) : Shows m data :=
  ⟨hd, hnum, by rw [findValidGpt_backup hv hno, hback]; rfl⟩

theorem Shows.congr {m m' : Machine} (h : Shows m data) (h' : Shows m' data) :
    partGetInfoEfi m = partGetInfoEfi m' ∧ partPrintEfi m = partPrintEfi m' := by
  obtain ⟨hd, hnum, hfind⟩ := h
  obtain ⟨hd', hnum', hfind'⟩ := h'
  constructor
  · funext part
    rw [partGetInfoEfi, partGetInfoEfi, hfind, hfind']
    dsimp only [Option.bind_eq_bind, Option.bind_some]
    rw [hnum, hnum']
  · rw [partPrintEfi, partPrintEfi, hfind, hfind']
    dsimp only [Option.bind_eq_bind, Option.bind_some]
    rw [hnum, hnum']

theorem InPlace.shows (hin : InPlace env disk hdr data) (h : Sane dev hdr) (hlba : hdr.myLba = 1)
    (hmalloc : env.malloc 16384 = true) : Shows (machine env disk) data :=
  .of_primary (hin.isGptValid h (by rw [hlba]; rfl) hmalloc) h.reads_headerBlock.numPartitionEntries

section Told

variable {pls : List Placed} (hlast : hdr.lastUsableLba = (dev.lba - 34).toUInt64)
  (huuid : ∀ pl ∈ pls, (env.uuidStrToBin pl.part.uuid).isSome) (hle : pls.length ≤ 128)

include huuid

theorem formed_of_mem : ∀ entry ∈ pls.map (entryOf env.uuidStrToBin hdr), entry.Formed := by
  intro entry hmem
  obtain ⟨pl, hpl, rfl⟩ := List.mem_map.1 hmem
  exact formed_entryOf (huuid pl hpl)

include hle

/-- The table for a list of partitions. -/
def tableOf (env : Env) (hdr : GptHeader) (pls : List Placed) : Bytes :=
  (pls.map (entryOf env.uuidStrToBin hdr)).flatMap GptEntry.bytes

theorem isPteValid_tableOf {i : ℕ} (hi : i < 128) :
    isPteValid (table (tableOf env hdr pls)) i = some (decide (i < pls.length)) := by
  have htype : ∀ entry ∈ pls.map (entryOf env.uuidStrToBin hdr),
      entry.partitionTypeGuid = partitionBasicDataGuid := by
    intro entry hmem
    obtain ⟨pl, -, rfl⟩ := List.mem_map.1 hmem
    rfl
  have hvalid := isPteValid_table (formed_of_mem huuid) (by rwa [List.length_map]) htype hi
  rwa [List.length_map] at hvalid

include hlast

theorem readBytes_tableOf {i : ℕ} {pl : Placed} (hi : pls[i]? = some pl) :
    (readBytes (table (tableOf env hdr pls)).data 16384 (i * 128) 128).map entryInfo =
    some (toldInfo env dev pl) := by
  have hget : (pls.map (entryOf env.uuidStrToBin hdr))[i]? =
      some (entryOf env.uuidStrToBin hdr pl) := by
    rw [List.getElem?_map, hi]
    rfl
  rw [tableOf, readBytes_table (formed_of_mem huuid) (by rwa [List.length_map]) hget,
    Option.map_some, entryInfo_bytes hlast (huuid pl (List.mem_of_getElem? hi))]

/-- The table tells what was asked for. -/
theorem Shows.told {m : Machine} (h : Shows m (tableOf env hdr pls)) (part : ℤ) :
    partGetInfoEfi m part =
    some (if part < 1 then none else (pls[(part - 1).toNat]?).map (toldInfo env dev)) := by
  obtain ⟨hd, hnum, hfind⟩ := h
  rw [partGetInfoEfi]
  split_ifs with hpart
  · rfl
  rw [hfind, Option.bind_eq_bind, Option.bind_some]
  dsimp only
  rw [hnum]
  split_ifs with hmany
  · rw [List.getElem?_eq_none (by omega)]
    rfl
  rw [isPteValid_tableOf huuid hle (by omega), Option.bind_eq_bind, Option.bind_some]
  obtain hlt | hge := Nat.lt_or_ge (part - 1).toNat pls.length
  · have hget := List.getElem?_eq_getElem hlt
    have hread := readBytes_tableOf hlast huuid hle hget
    obtain ⟨entry, hentry, hinfo⟩ := Option.map_eq_some_iff.1 hread
    have hsize : (table (tableOf env hdr pls)).size = 16384 := rfl
    rw [decide_eq_true hlt, if_pos rfl, hget, hsize, hentry]
    simp [hinfo]
  · rw [decide_eq_false (by omega), List.getElem?_eq_none hge]
    rfl

/-- All entries are printed. -/
theorem printLoop_tableOf {n i : ℕ} (hn : n + i = 128) :
    (printLoop (table (tableOf env hdr pls)) n i).map (List.map entryInfo) =
      some ((pls.drop i).map (toldInfo env dev)) := by
  induction n generalizing i with
  | zero =>
      rw [printLoop, List.drop_of_length_le (by omega)]
      rfl
  | succ n ih =>
      rw [printLoop, isPteValid_tableOf huuid hle (by omega), Option.bind_eq_bind, Option.bind_some]
      obtain hlt | hge := Nat.lt_or_ge i pls.length
      · have hread := readBytes_tableOf hlast huuid hle (List.getElem?_eq_getElem hlt)
        obtain ⟨entry, hentry, hinfo⟩ := Option.map_eq_some_iff.1 hread
        obtain ⟨entries, hentries, hrest⟩ := Option.map_eq_some_iff.1 (@ih (i + 1) (by omega))
        have hsize : (table (tableOf env hdr pls)).size = 16384 := rfl
        rw [decide_eq_true hlt, if_pos rfl, hsize, hentry, Option.bind_eq_bind, Option.bind_some,
          hentries, List.drop_eq_getElem_cons hlt, List.map_cons, ← hinfo, ← hrest]
        rfl
      · rw [decide_eq_false (by omega), List.drop_of_length_le hge]
        rfl

theorem Shows.printed {m : Machine} (h : Shows m (tableOf env hdr pls)) :
    (partPrintEfi m).map (List.map entryInfo) = some (pls.map (toldInfo env dev)) := by
  obtain ⟨hd, hnum, hfind⟩ := h
  rw [partPrintEfi, hfind, Option.bind_eq_bind, Option.bind_some]
  dsimp only
  rw [hnum, printLoop_tableOf hlast huuid hle rfl, List.drop_zero]

end Told

/-! ## The writes -/

theorem length_placed (parts : List DiskPartition) (offset : UInt32) :
    (placed parts offset).length = parts.length := by
  induction parts generalizing offset with
  | nil => rfl
  | cons part parts ih => simp [placed, ih]

theorem pteBlkCnt_eq (h : hdr.numPartitionEntries = 128) :
    pteBlkCnt dev hdr = entriesBlocks dev := by
  have hmul : (128 : UInt32) * 128 = 16384 := rfl
  have hone : ((16384 : UInt32) - 1).toNat = 128 * 128 - 1 := rfl
  have hle := dev.entriesBlocks_bounds.2
  rw [pteBlkCnt, h, hmul, padCount, UInt32.toNat_add, UInt32.toNat_div, dev.blksz_toNat, hone]
  exact Nat.mod_eq_of_lt (Nat.lt_of_le_of_lt hle (by decide))

/-- The header that `gpt_fill_header` fills. -/
def filledHeader (dev : BlkDesc) (off : UInt32) (diskGuid : Guid) : GptHeader where
  signature := 0x5452415020494645
  revision := 0x00010000
  headerSize := 92
  myLba := 1
  alternateLba := (dev.lba - 1).toUInt64
  firstUsableLba := off.toUInt64 + 32
  lastUsableLba := (dev.lba - 34).toUInt64
  diskGuid
  partitionEntryLba := off.toUInt64
  numPartitionEntries := gptEntryNumbers
  sizeofPartitionEntry := 128

/-- The partitions of a request, with their places. -/
def Request.placed (req : Request) (off : UInt32) : List Placed :=
  Gpt.placed req.partitions (off + 32)

/-- The entries for a request: they do not depend on the GUID of the disk. -/
def Request.table (env : Env) (dev : BlkDesc) (off : UInt32) (req : Request) : Bytes :=
  tableOf env (filledHeader dev off []) (req.placed off)

/-- What a run of `gpt_restore` that succeeds did, for a GUID of the disk. -/
structure Restored (env : Env) (disk : Disk dev) (off : UInt32) (req : Request)
    (ws : List (ℕ × Block dev)) (guid : Guid) : Prop where
  malloc : env.malloc 16384 = true
  length_guid : guid.length = 16
  admitted : ∀ pl ∈ req.placed off,
    Admitted env.uuidStrToBin ((filledHeader dev off guid).area dev) pl
  writes : ws = writeGptTable env disk (filledHeader dev off guid) (req.table env dev off)

theorem gptRestore_spec {entriesOff : UInt32} {configOffset : Option UInt32}
    (hoff : partitionEntriesOffset dev entriesOff configOffset = off)
    (hrun : gptRestore env disk off req = some ws) : ∃ guid, Restored env disk off req ws guid := by
  rw [gptRestore] at hrun
  dsimp only at hrun
  split_ifs at hrun with hmalloc hmalloc'
  obtain ⟨hdr, hfill, hrun⟩ := Option.bind_eq_some_iff.1 hrun
  obtain ⟨entries, hpte, hrun⟩ := Option.bind_eq_some_iff.1 hrun
  have hhdr := gptFillHeader_spec (hoff ▸ hfill)
  obtain ⟨guid, hguid, hsome⟩ := Option.bind_eq_some_iff.1 hfill
  have hfilled : filledHeader dev off guid = hdr := Option.some.inj hsome
  subst hfilled
  obtain ⟨hall, rfl⟩ := (hhdr.fillLoop_eq _ _ _).1 hpte
  have hfirst : (filledHeader dev off guid).firstUsableLba.toUInt32 = off + 32 := by
    simp [filledHeader]
  rw [hfirst] at hall hrun
  obtain ⟨-, hws⟩ := Option.ite_none_right_eq_some.1 hrun
  refine ⟨guid, ⟨?_, env.length_uuid _ _ hguid, hall, (Option.some.inj hws).symm⟩⟩
  have hpad := padCount_entries dev
  change ¬env.malloc (padCount 16384 (UInt32.ofNat dev.blksz) * UInt32.ofNat dev.blksz) =
    false at hmalloc'
  rwa [hpad, Bool.not_eq_false] at hmalloc'

/-- The device has room for both copies of the entry array. -/
def Room (dev : BlkDesc) (off : UInt32) : Prop := off.toNat + entriesBlocks dev + 33 ≤ dev.lba.toNat

section Layout

variable {guid : Guid} (hroom : Room dev off)

include hroom

theorem Room.toNat_sub {n : UInt32} (hn : n.toNat ≤ 34) :
    (dev.lba - n).toNat = dev.lba.toNat - n.toNat := by
  have hpos := dev.entriesBlocks_bounds.1
  rw [Room] at hroom
  rw [UInt32.toNat_sub_of_le]
  rw [UInt32.le_iff_toNat_le]
  omega

theorem Room.lastUsable_toNat :
    (filledHeader dev off guid).lastUsableLba.toNat = dev.lba.toNat - 34 :=
  (UInt32.toNat_toUInt64 _).trans (hroom.toNat_sub (by decide))

theorem Room.backup_toNat :
    (prepareBackupGptHeader (filledHeader dev off guid)).myLba.toNat = dev.lba.toNat - 1 :=
  (UInt32.toNat_toUInt64 _).trans (hroom.toNat_sub (by decide))

theorem Room.toNat_backup : (dev.lba - 1).toNat =
    (prepareBackupGptHeader (filledHeader dev off guid)).myLba.toNat :=
  (hroom.toNat_sub (by decide)).trans hroom.backup_toNat.symm

theorem Room.backupEntries_toNat :
    (prepareBackupGptHeader (filledHeader dev off guid)).partitionEntryLba.toNat =
    dev.lba.toNat - 33 := by
  have hlt := dev.lba.toNat_lt
  have hpos := dev.entriesBlocks_bounds.1
  change ((filledHeader dev off guid).lastUsableLba + 1).toNat = _
  rw [UInt64.toNat_add, hroom.lastUsable_toNat]
  rw [Room] at hroom
  simp
  omega

theorem Room.sane (hguid : guid.length = 16) : Sane dev (filledHeader dev off guid) where
  signature := rfl
  headerSize := rfl
  guid := hguid
  number := rfl
  size := rfl
  myLba := by
    rw [Room] at hroom
    change 1 < _
    omega
  firstUsable := by
    have hpos := dev.entriesBlocks_bounds.1
    rw [Room] at hroom
    simp [filledHeader]
    omega
  lastUsable := by
    rw [hroom.lastUsable_toNat]
    omega
  entries := by
    rw [Room] at hroom
    simp [filledHeader]
    omega

theorem Room.sane_backup (hguid : guid.length = 16) :
    Sane dev (prepareBackupGptHeader (filledHeader dev off guid)) where
  signature := rfl
  headerSize := rfl
  guid := hguid
  number := rfl
  size := rfl
  myLba := by
    rw [hroom.backup_toNat]
    rw [Room] at hroom
    omega
  firstUsable := (hroom.sane hguid).firstUsable
  lastUsable := (hroom.sane hguid).lastUsable
  entries := by
    have hle := dev.entriesBlocks_bounds.2
    rw [hroom.backupEntries_toNat]
    rw [Room] at hroom
    omega

/-- The writes, with their addresses. -/
theorem Room.writes_eq : writeGptTable env disk (filledHeader dev off guid) data =
    (0, blockAt dev (setProtectiveMbr dev (disk 0).1) 0) ::
      (1, blockAt dev (signedHeader env (filledHeader dev off guid) data) 0) ::
        (((List.range (entriesBlocks dev)).map fun j ↦ (off.toNat + j, blockAt dev data j)) ++
          (((List.range (entriesBlocks dev)).map fun j ↦
            (dev.lba.toNat - 33 + j, blockAt dev data j)) ++
            [(dev.lba.toNat - 1,
              blockAt dev (signedHeader env (prepareBackupGptHeader (filledHeader dev off guid))
              data) 0)])) := by
  have hcnt : pteBlkCnt dev (filledHeader dev off guid) = entriesBlocks dev := pteBlkCnt_eq rfl
  have hentries : (filledHeader dev off guid).partitionEntryLba.toUInt32 = off :=
    UInt32.toUInt32_toUInt64 _
  have hbackup : (prepareBackupGptHeader (filledHeader dev off guid)).myLba.toUInt32.toNat =
      dev.lba.toNat - 1 := by
    rw [← @Room.backup_toNat dev off guid hroom, UInt64.toNat_toUInt32, hroom.backup_toNat]
    have hlt := dev.lba.toNat_lt
    omega
  have hback : ((prepareBackupGptHeader (filledHeader dev off guid)).lastUsableLba.toUInt32 +
    1).toNat =
      dev.lba.toNat - 33 := by
    have hlt := dev.lba.toNat_lt
    have hpos := dev.entriesBlocks_bounds.1
    change ((filledHeader dev off guid).lastUsableLba.toUInt32 + 1).toNat = _
    rw [UInt32.toNat_add, UInt64.toNat_toUInt32, hroom.lastUsable_toNat]
    rw [Room] at hroom
    simp
    omega
  simp only [writeGptTable, blkDwrite, hcnt, hentries, hbackup, hback]
  simp

theorem Room.nodup (hlo : 2 ≤ off.toNat) :
    ((writeGptTable env disk (filledHeader dev off guid) data).map Prod.fst).Nodup := by
  have hle := dev.entriesBlocks_bounds.2
  rw [hroom.writes_eq]
  rw [Room] at hroom
  simp only [List.map_cons, List.map_append, List.map_map, List.map_nil, List.nodup_cons,
    List.nodup_append, List.mem_cons, List.mem_append, List.mem_map, List.mem_range,
    Function.comp_apply, List.not_mem_nil, or_false]
  have hmap (a : ℕ) : ((List.range (entriesBlocks dev)).map fun j ↦ a + j).Nodup :=
    (List.nodup_range).map (add_right_injective a)
  refine ⟨?_, ?_, hmap _, ⟨hmap _, by simp, ?_⟩, ?_⟩
  · rintro (h | ⟨j, hj, h⟩ | ⟨j, hj, h⟩ | h)
    all_goals omega
  · rintro (⟨j, hj, h⟩ | ⟨j, hj, h⟩ | h)
    all_goals omega
  · rintro _ ⟨j, hj, rfl⟩ _ rfl
    omega
  · rintro _ ⟨j, hj, rfl⟩ _ (⟨j', hj', rfl⟩ | rfl)
    all_goals omega

omit hroom in
theorem header_filledHeader {entriesOff : UInt32} {configOffset : Option UInt32}
    (hoff : partitionEntriesOffset dev entriesOff configOffset = off) :
    Header dev (filledHeader dev off guid) := by
  obtain ⟨hlo, hhi⟩ := hoff ▸ partitionEntriesOffset_bounds dev entriesOff configOffset
  exact ⟨rfl, rfl, by simpa [filledHeader] using hlo, by simpa [filledHeader] using hhi, rfl, rfl⟩

/-- A run succeeds if memory is granted, the GUID of the disk is right and no partition is
refused. -/
theorem Room.gptRestore_eq {entriesOff : UInt32} {configOffset : Option UInt32}
    (hoff : partitionEntriesOffset dev entriesOff configOffset = off)
    (hmalloc : ∀ size, env.malloc size = true)
    (hguid : env.uuidStrToBin req.strDiskGuid = some guid)
    (hadm : ∀ pl ∈ req.placed off,
      Admitted env.uuidStrToBin ((filledHeader dev off guid).area dev) pl) :
    gptRestore env disk off req =
      some (writeGptTable env disk (filledHeader dev off guid) (req.table env dev off)) := by
  have hfill : gptFillHeader env.uuidStrToBin dev off req.strDiskGuid =
      some (filledHeader dev off guid) := by
    rw [gptFillHeader, hguid]
    rfl
  have hfirst : (filledHeader dev off guid).firstUsableLba.toUInt32 = off + 32 := by
    simp [filledHeader]
  have hpte : gptFillPte env.uuidStrToBin dev (filledHeader dev off guid) req.partitions =
      some ((req.placed off).map (entryOf env.uuidStrToBin (filledHeader dev off guid))) := by
    rw [gptFillPte, (header_filledHeader hoff).fillLoop_eq, hfirst]
    exact ⟨hadm, rfl⟩
  have hinside : ∀ w ∈ writeGptTable env disk (filledHeader dev off guid) (req.table env dev off),
      w.1 < dev.lba.toNat := by
    intro w hw
    have hle := dev.entriesBlocks_bounds.2
    rw [hroom.writes_eq] at hw
    rw [Room] at hroom
    simp only [List.mem_cons, List.mem_append, List.mem_map, List.mem_range, List.not_mem_nil,
      or_false] at hw
    obtain rfl | rfl | ⟨j, hj, rfl⟩ | ⟨j, hj, rfl⟩ | rfl := hw
    all_goals
      dsimp only
      omega
  rw [gptRestore]
  dsimp only
  rw [if_neg (by simp [hmalloc]), if_neg (by simp [hmalloc]), hfill, Option.bind_eq_bind,
    Option.bind_some, hpte, Option.bind_eq_bind, Option.bind_some]
  exact if_pos hinside

end Layout

/-! ## A run that is cut -/

/-- An entry array of which the first `k` blocks are new. -/
def mixed (dev : BlkDesc) (old new : Bytes) (k : ℕ) : Bytes :=
  (List.range (entriesBlocks dev)).flatMap fun j ↦ (blockAt dev (if j < k then new else old) j).1

namespace Restored

variable {guid : Guid} (h : Restored env disk off req ws guid) (hlo : 2 ≤ off.toNat)
  (hroom : Room dev off)

include h hlo hroom

theorem applyWrites_take_eq (k : ℕ) {i a : ℕ} {b : Block dev} (hi : ws[i]? = some (a, b)) :
    applyWrites (ws.take k) disk a = if i < k then b else disk a :=
  applyWrites_take (h.writes ▸ hroom.nodup hlo) k hi

theorem take_header (k : ℕ) : applyWrites (ws.take k) disk 1 =
    if 1 < k then blockAt dev (signedHeader env (filledHeader dev off guid) (req.table env dev off))
    0
    else disk 1 := by
  refine h.applyWrites_take_eq hlo hroom k ?_
  rw [h.writes, hroom.writes_eq]
  rfl

theorem take_entries (k : ℕ) {j : ℕ} (hj : j < entriesBlocks dev) :
    applyWrites (ws.take k) disk (off.toNat + j) =
    if 2 + j < k then blockAt dev (req.table env dev off) j else disk (off.toNat + j) := by
  refine h.applyWrites_take_eq hlo hroom k ?_
  rw [h.writes, hroom.writes_eq, Nat.add_comm, List.getElem?_cons_succ, List.getElem?_cons_succ,
    List.getElem?_append_left (by simpa)]
  simp [hj]

theorem take_backupEntries (k : ℕ) {j : ℕ} (hj : j < entriesBlocks dev) :
    applyWrites (ws.take k) disk (dev.lba.toNat - 33 + j) =
      if 2 + (entriesBlocks dev + j) < k then blockAt dev (req.table env dev off) j
      else disk (dev.lba.toNat - 33 + j) := by
  refine h.applyWrites_take_eq hlo hroom k ?_
  rw [h.writes, hroom.writes_eq, Nat.add_comm, List.getElem?_cons_succ, List.getElem?_cons_succ,
    List.getElem?_append_right (by simp), List.getElem?_append_left (by simpa)]
  simp [hj]

theorem take_backup (k : ℕ) : applyWrites (ws.take k) disk (dev.lba.toNat - 1) =
    if 2 + (entriesBlocks dev + entriesBlocks dev) < k then
      blockAt dev (signedHeader env (prepareBackupGptHeader (filledHeader dev off guid))
        (req.table env dev off)) 0
    else disk (dev.lba.toNat - 1) := by
  refine h.applyWrites_take_eq hlo hroom k ?_
  rw [h.writes, hroom.writes_eq, Nat.add_comm, List.getElem?_cons_succ, List.getElem?_cons_succ,
    List.getElem?_append_right (by simp), List.getElem?_append_right (by simp)]
  simp

omit hlo in
theorem length_writes : ws.length = 3 + (entriesBlocks dev + entriesBlocks dev) := by
  rw [h.writes, hroom.writes_eq]
  simp
  omega

/-- Both copies are in place after a run that was not cut. -/
theorem inPlace : InPlace env (applyWrites ws disk) (filledHeader dev off guid)
    (req.table env dev off) ∧
    InPlace env (applyWrites ws disk) (prepareBackupGptHeader (filledHeader dev off guid))
    (req.table env dev off) := by
  have hlen := h.length_writes hroom
  have htake : ws.take ws.length = ws := List.take_length
  refine ⟨⟨?_, fun j hj ↦ ?_⟩, ⟨?_, fun j hj ↦ ?_⟩⟩
  · have heq := h.take_header hlo hroom ws.length
    rwa [htake, if_pos (by omega)] at heq
  · have heq := h.take_entries hlo hroom ws.length hj
    rw [htake, if_pos (by omega)] at heq
    exact (congrArg _ (by simp [filledHeader])).trans heq
  · have heq := h.take_backup hlo hroom ws.length
    rwa [htake, if_pos (by omega), ← @Room.backup_toNat dev off guid hroom] at heq
  · have heq := h.take_backupEntries hlo hroom ws.length hj
    rwa [htake, if_pos (by omega), ← @Room.backupEntries_toNat dev off guid hroom] at heq

/-- The entries that the new header points to when a run is cut behind it. -/
theorem entriesAt_take {old : Bytes}
    (hold : ∀ j < entriesBlocks dev, disk (off.toNat + j) = blockAt dev old j) (k : ℕ) :
    (entriesAt (applyWrites (ws.take (k + 2)) disk) (filledHeader dev off guid)).data =
      mixed dev old (req.table env dev off) k := by
  rw [entriesAt, mixed]
  refine List.flatMap_congr fun j hj ↦ ?_
  rw [List.mem_range] at hj
  have heq := h.take_entries hlo hroom (k + 2) hj
  have hlba : (filledHeader dev off guid).partitionEntryLba.toNat = off.toNat :=
    UInt32.toNat_toUInt64 _
  rw [hlba, heq, hold j hj]
  split_ifs <;> first | rfl | omega

end Restored

theorem mixed_of_le {old new : Bytes} {k : ℕ} (hk : entriesBlocks dev ≤ k) :
    mixed dev old new k = (table new).data := by
  rw [table, ← entriesBlocks_mul dev, ← flatMap_blockAt, mixed]
  refine List.flatMap_congr fun j hj ↦ ?_
  rw [if_pos ((List.mem_range.1 hj).trans_le hk)]

/-- What the two functions tell about a device. -/
def told (env : Env) (disk : Disk dev) : (ℤ → Option (Option Info)) × Option (List Bytes) :=
  (partGetInfoEfi (machine env disk), partPrintEfi (machine env disk))

section Main

variable {entriesOff : UInt32} {configOffset : Option UInt32}
  (hoff : partitionEntriesOffset dev entriesOff configOffset = off) (hroom : Room dev off)

include hoff hroom

/-- What was asked for is told. -/
theorem gptRestore_told (hrun : gptRestore env disk off req = some ws) :
    (∀ part : ℤ, partGetInfoEfi (machine env (applyWrites ws disk)) part =
      some (if part < 1 then none
      else ((req.placed off)[(part - 1).toNat]?).map (toldInfo env dev))) ∧
    (partPrintEfi (machine env (applyWrites ws disk))).map (List.map entryInfo) =
      some ((req.placed off).map (toldInfo env dev)) := by
  have hlo := hoff ▸ (partitionEntriesOffset_bounds dev entriesOff configOffset).1
  obtain ⟨guid, hres⟩ := gptRestore_spec hoff hrun
  have huuid : ∀ pl ∈ req.placed off, (env.uuidStrToBin pl.part.uuid).isSome :=
    fun pl hpl ↦ (hres.admitted pl hpl).uuid
  have hle : (req.placed off).length ≤ 128 := (length_placed _ _).trans_le req.length_le
  have hshows : Shows (machine env (applyWrites ws disk)) (req.table env dev off) :=
    (hres.inPlace hlo hroom).1.shows (hroom.sane hres.length_guid) rfl hres.malloc
  exact ⟨hshows.told rfl huuid hle, hshows.printed rfl huuid hle⟩

/-- A run that is cut leaves the table that was there, or the new one. -/
theorem gptRestore_atomic {d₀ : Disk dev} {old new : Request} {wsOld wsNew : List (ℕ × Block dev)}
    (hold : gptRestore env d₀ off old = some wsOld)
    (hnew : gptRestore env (applyWrites wsOld d₀) off new = some wsNew)
    (hcrc : ∀ j, env.crc32 (mixed dev (old.table env dev off) (new.table env dev off) j) =
      env.crc32 (table (new.table env dev off)).data →
        mixed dev (old.table env dev off) (new.table env dev off) j =
        (table (new.table env dev off)).data) (k : ℕ) :
    told env (applyWrites (wsNew.take k) (applyWrites wsOld d₀)) = told env (applyWrites wsOld d₀) ∨
      told env (applyWrites (wsNew.take k) (applyWrites wsOld d₀)) =
        told env (applyWrites wsNew (applyWrites wsOld d₀)) := by
  have hlo := hoff ▸ (partitionEntriesOffset_bounds dev entriesOff configOffset).1
  obtain ⟨guidOld, hresOld⟩ := gptRestore_spec hoff hold
  obtain ⟨guidNew, hresNew⟩ := gptRestore_spec hoff hnew
  obtain ⟨hprimary, hbackup⟩ := hresOld.inPlace hlo hroom
  have hmalloc := hresNew.malloc
  have hsaneOld := hroom.sane hresOld.length_guid
  have hsaneNew := hroom.sane hresNew.length_guid
  have hlba : (filledHeader dev off guidOld).partitionEntryLba.toNat = off.toNat :=
    UInt32.toNat_toUInt64 _
  have hentriesOld : ∀ j < entriesBlocks dev,
      applyWrites wsOld d₀ (off.toNat + j) = blockAt dev (old.table env dev off) j := by
    intro j hj
    rw [← hprimary.entries j hj, hlba]
  have hshowsOld := hprimary.shows hsaneOld rfl hmalloc
  have hshowsNew := (hresNew.inPlace hlo hroom).1.shows hsaneNew rfl hmalloc
  suffices hshows : Shows (machine env (applyWrites (wsNew.take k) (applyWrites wsOld d₀)))
    (old.table env dev off) ∨
      Shows (machine env (applyWrites (wsNew.take k) (applyWrites wsOld d₀)))
      (new.table env dev off) from
    hshows.imp (fun h ↦ Prod.ext (h.congr hshowsOld).1 (h.congr hshowsOld).2)
      fun h ↦ Prod.ext (h.congr hshowsNew).1 (h.congr hshowsNew).2
  obtain hk | hk := Nat.lt_or_ge k 2
  · -- the header and the entries of the primary copy are the old ones
    refine .inl (InPlace.shows ⟨?_, fun j hj ↦ ?_⟩ hsaneOld rfl hmalloc)
    · exact ((hresNew.take_header hlo hroom k).trans (if_neg (by omega))).trans hprimary.header
    · rw [hlba, hresNew.take_entries hlo hroom k hj, if_neg (by omega), hentriesOld j hj]
  obtain ⟨k, rfl⟩ := Nat.exists_eq_add_of_le' hk
  have hone : (filledHeader dev off guidNew).myLba.toNat = 1 := rfl
  have hheader := (hresNew.take_header hlo hroom (k + 2)).trans (if_pos (by omega))
  rw [← hone] at hheader
  have harray := hresNew.entriesAt_take hlo hroom hentriesOld k
  obtain ⟨v, hv, hvalid⟩ := @Sane.isGptValid_eq _ _ _ _ _ 1 hsaneNew rfl hheader hmalloc
  rw [harray, ← arrayCrc32_eq hsaneNew] at hvalid
  by_cases hsame : env.crc32 (mixed dev (old.table env dev off) (new.table env dev off) k) =
      env.crc32 (table (new.table env dev off)).data
  · have hbytes := hcrc k hsame
    rw [← harray] at hbytes
    have hdata : entriesAt (applyWrites (wsNew.take (k + 2)) (applyWrites wsOld d₀))
      (filledHeader dev off guidNew) =
        table (new.table env dev off) := entriesAt_eq_of_data hbytes
    obtain rfl := (hvalid _ _).2 ⟨⟨rfl, rfl⟩, hsame⟩
    rw [hdata] at hv
    exact .inr (.of_primary hv hsaneNew.reads_headerBlock.numPartitionEntries)
  · -- the primary copy is not valid: the backup is still the old one
    have hlt : k < entriesBlocks dev := by
      by_contra hge
      exact hsame (by rw [mixed_of_le (Nat.not_lt.1 hge)])
    have hbackup' : InPlace env (applyWrites (wsNew.take (k + 2)) (applyWrites wsOld d₀))
        (prepareBackupGptHeader (filledHeader dev off guidOld)) (old.table env dev off) := by
      refine ⟨?_, fun j hj ↦ ?_⟩
      · rw [← hbackup.header, hroom.backup_toNat, hresNew.take_backup hlo hroom, if_neg (by omega)]
      · rw [← hbackup.entries j hj, hroom.backupEntries_toNat,
          hresNew.take_backupEntries hlo hroom _ hj, if_neg (by omega)]
    have hsane := hroom.sane_backup hresOld.length_guid
    have hvalid' := @InPlace.isGptValid _ _ _ _ _ (dev.lba - 1) hbackup' hsane
      ((hroom.toNat_sub (by decide)).trans hroom.backup_toNat.symm) hmalloc
    exact .inl (.of_backup hv (fun h' e heq ↦ hsame ((hvalid h' e).1 heq).2) hvalid'
      hsane.reads_headerBlock.numPartitionEntries)

end Main

/-! ## A small device -/

theorem nine_le_nine : 9 ≤ 9 := le_rfl

/-- A device of 128 blocks of 512 bytes. -/
def tinyDev : BlkDesc := ⟨128, 9, nine_le_nine, nine_le⟩

/-- Memory is always granted and every string is a GUID; the checksum looks at the first block
number of the first entry. -/
def tinyEnv : Env where
  crc32 bytes := UInt32.ofNat (field bytes 32 8)
  malloc _ := true
  uuidStrToBin _ := some (List.replicate 16 7)
  length_uuid _ _ h := by
    obtain rfl := Option.some.inj h
    exact List.length_replicate

/-- One partition of 8 blocks. -/
def oneBoot : Request := ⟨[], [⟨40, 8, [98], true, []⟩], by decide⟩

/-- Two partitions, of 4 blocks and of the rest. -/
def twoParts : Request := ⟨[], [⟨0, 4, [97], false, []⟩, ⟨0, 0, [98], true, []⟩], by decide⟩

theorem room_tinyDev : Room tinyDev 2 := by
  unfold Room
  decide

/-- The run of `gpt_restore` on the small device. -/
def tinyRun (disk : Disk tinyDev) (req : Request) : List (ℕ × Block tinyDev) :=
  writeGptTable tinyEnv disk (filledHeader tinyDev 2 (List.replicate 16 7))
    (req.table tinyEnv tinyDev 2)

theorem gptRestore_tiny (disk : Disk tinyDev) {req : Request}
    (hreq : req = oneBoot ∨ req = twoParts) :
    gptRestore tinyEnv disk 2 req = some (tinyRun disk req) := by
  refine @Room.gptRestore_eq _ _ _ _ _ _ room_tinyDev 0 none rfl (fun _ ↦ rfl) rfl ?_
  obtain rfl | rfl := hreq
  · intro pl hpl
    obtain rfl := List.mem_singleton.1 hpl
    constructor <;> decide
  · intro pl hpl
    obtain rfl | hpl := List.mem_cons.1 hpl
    · constructor <;> decide
    · obtain rfl := List.mem_singleton.1 hpl
      constructor <;> decide

/-- A device that holds zeros. -/
def blankDisk : Disk tinyDev := fun _ ↦ blockAt tinyDev [] 0

/-- Two partitions on a blank device. -/
theorem gptRestore_told_two :
    (∀ part : ℤ, partGetInfoEfi
      (machine tinyEnv (applyWrites (tinyRun blankDisk twoParts) blankDisk)) part =
      some (if part < 1 then none
      else ((twoParts.placed 2)[(part - 1).toNat]?).map (toldInfo tinyEnv tinyDev))) ∧
    (partPrintEfi (machine tinyEnv (applyWrites (tinyRun blankDisk twoParts) blankDisk))).map
    (List.map entryInfo) =
      some ((twoParts.placed 2).map (toldInfo tinyEnv tinyDev)) :=
  @gptRestore_told tinyEnv tinyDev blankDisk 2 twoParts _ 0 none rfl room_tinyDev
    (gptRestore_tiny _ (.inr rfl))

theorem blockAt_eq_of_le {data data' : Bytes} {j : ℕ} (h : data.length ≤ j * dev.blksz)
    (h' : data'.length ≤ j * dev.blksz) : blockAt dev data j = blockAt dev data' j := by
  refine Subtype.ext (List.map_congr_left fun i _ ↦ ?_)
  rw [List.getD_eq_default _ _ (by omega), List.getD_eq_default _ _ (by omega)]

/-- The two requests differ in the first block of their entry arrays only. -/
theorem mixed_tiny (k : ℕ) :
    mixed tinyDev (oneBoot.table tinyEnv tinyDev 2) (twoParts.table tinyEnv tinyDev 2) (k + 1) =
      (table (twoParts.table tinyEnv tinyDev 2)).data := by
  have hone : (oneBoot.table tinyEnv tinyDev 2).length = 128 := by decide +kernel
  have htwo : (twoParts.table tinyEnv tinyDev 2).length = 256 := by decide +kernel
  have hblk : tinyDev.blksz = 512 := rfl
  rw [← @mixed_of_le tinyDev (oneBoot.table tinyEnv tinyDev 2) _ _ le_rfl]
  refine List.flatMap_congr fun j hj ↦ ?_
  rw [if_pos (List.mem_range.1 hj)]
  split_ifs with hk
  · rfl
  · rw [@blockAt_eq_of_le tinyDev (oneBoot.table tinyEnv tinyDev 2)
      (twoParts.table tinyEnv tinyDev 2) j
      (by rw [hone, hblk]; omega) (by rw [htwo, hblk]; omega)]

/-- The device after a first run. -/
def bootDisk : Disk tinyDev := applyWrites (tinyRun blankDisk oneBoot) blankDisk

/-- A second run is cut behind the third block of the entries. -/
theorem gptRestore_atomic_five :
    told tinyEnv (applyWrites ((tinyRun bootDisk twoParts).take 5) bootDisk) =
    told tinyEnv bootDisk ∨
      told tinyEnv (applyWrites ((tinyRun bootDisk twoParts).take 5) bootDisk) =
        told tinyEnv (applyWrites (tinyRun bootDisk twoParts) bootDisk) := by
  refine @gptRestore_atomic tinyEnv tinyDev 2 0 none rfl room_tinyDev blankDisk oneBoot twoParts _ _
    (gptRestore_tiny _ (.inl rfl)) (gptRestore_tiny _ (.inr rfl)) ?_ 5
  rintro (- | j) heq
  · exact absurd heq (by decide +kernel)
  · exact mixed_tiny j

end MiniPi.Gpt
