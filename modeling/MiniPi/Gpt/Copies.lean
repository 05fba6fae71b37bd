import MiniPi.Gpt.Uuid
import MiniPi.Gpt.Verify

/-!
# The two copies of a GPT

What `gpt_restore` wrote is accepted by `gpt_verify_headers` and `gpt_verify_partitions`, and
`part_get_info_efi` gives it back from either copy.
-/

namespace MiniPi.Gpt

open Lib (ascii applyWrites)

/-- The code around with `uuid_str_to_bin`, for some `crc32` and `malloc`. -/
def guidEnv (crc32 : Bytes → UInt32) (malloc : UInt32 → Bool) : Env where
  crc32
  malloc
  uuidStrToBin
  length_uuid := length_uuidStrToBin

/-- The string in an array of 32 characters. -/
def cString (name : List UInt8) : Str := (name.take 32).takeWhile (· != 0)

/-- A partition that can be given back: its name is shorter than its field and can be printed, it
has blocks, and they end below `2 ^ 32`. -/
structure Placed.Plain (pl : Placed) : Prop where
  uuid : uuidStrValid pl.part.uuid = true
  short : (cString pl.part.name).length < 32
  printable : ∀ c ∈ cString pl.part.name, isprint c = true
  size : pl.part.size ≠ 0
  stop : pl.start.toNat + pl.part.size.toNat < 2 ^ 32

/-- What is told about a partition is what was asked for. -/
structure Info.Tells (info : Info) (pl : Placed) : Prop where
  start : info.start = pl.start
  size : info.size = pl.part.size
  name : info.name = cString pl.part.name
  uuid : uuidBinToStr info.uuid = pl.part.uuid.map tolower

/-- A disk as it is, or with other bytes in the block of the primary header that are not valid. -/
def Damaged (env : Env) {dev : BlkDesc} (disk disk' : Disk dev) : Prop :=
  disk' = disk ∨ ∃ b v, disk' = Function.update disk 1 b ∧
    isGptValid (machine env disk') 1 = some v ∧ ∀ h e, v ≠ .valid h e

section

variable {crc32 : Bytes → UInt32} {malloc : UInt32 → Bool} {dev : BlkDesc} {disk : Disk dev}
  {off : UInt32} {req : Request} {ws : List (ℕ × Block dev)}

theorem toldName_eq {name : List UInt8} (hshort : (cString name).length < 32)
    (hprint : ∀ c ∈ cString name, isprint c = true) : toldName name = cString name := by
  have htake : (name.take 31).takeWhile (· != 0) = cString name := by
    have hmin : name.take 31 = (name.take 32).take 31 := by rw [List.take_take]; rfl
    rw [hmin, ← List.take_takeWhile]
    exact List.take_of_length_le (Nat.le_of_lt_succ hshort)
  rw [toldName, htake]
  exact (List.map_congr_left fun c hc ↦ if_pos (hprint c hc)).trans (List.map_id _)

theorem tells_toldInfo {pl : Placed} (h : pl.Plain) :
    (toldInfo (guidEnv crc32 malloc) dev pl).Tells pl where
  start := rfl
  size := if_neg fun hrest ↦ h.size hrest.2
  name := toldName_eq h.short h.printable
  uuid := by
    obtain ⟨guid, hguid, htext⟩ := Option.map_eq_some_iff.1 (uuidBinToStr_uuidStrToBin h.uuid)
    change uuidBinToStr ((uuidStrToBin pl.part.uuid).getD []) = _
    rw [hguid]
    exact htext

/-- Any damage of the primary header leaves the table. -/
theorem Restored.shows_damaged {env : Env} {guid : Guid} {disk' : Disk dev}
    (h : Restored env disk off req ws guid) (hlo : 2 ≤ off.toNat) (hroom : Room dev off)
    (hdamaged : Damaged env (applyWrites ws disk) disk') :
    Shows (machine env disk') (req.table env dev off) := by
  obtain ⟨hprimary, hbackup⟩ := h.inPlace hlo hroom
  obtain rfl | ⟨b, v, rfl, hv, hno⟩ := hdamaged
  · exact hprimary.shows (hroom.sane h.length_guid) rfl h.malloc
  · have hsane := hroom.sane_backup h.length_guid
    have hbackup' : InPlace env (Function.update (applyWrites ws disk) 1 b)
        (prepareBackupGptHeader (filledHeader dev off guid)) (req.table env dev off) := by
      have hlba := hroom
      rw [Room] at hlba
      refine ⟨?_, fun j hj ↦ ?_⟩
      · rw [← hbackup.header, Function.update_of_ne]
        rw [hroom.backup_toNat]
        omega
      · rw [← hbackup.entries j hj, Function.update_of_ne]
        rw [hroom.backupEntries_toNat]
        omega
    exact .of_backup hv hno (hbackup'.isGptValid hsane hroom.toNat_backup h.malloc)
      hsane.reads_headerBlock.numPartitionEntries

/-- What `gpt_restore` wrote is verified and given back, from the whole disk and from the backup. -/
theorem gptRestore_roundTrip {entriesOff : UInt32} {configOffset : Option UInt32}
    (hoff : partitionEntriesOffset dev entriesOff configOffset = off) (hblksz : dev.blksz = 512)
    (hlba : 68 ≤ dev.lba.toNat) (hplace : off = 2 ∨ Room dev off)
    (hplain : ∀ pl ∈ req.placed off, pl.Plain)
    (hrun : gptRestore (guidEnv crc32 malloc) disk off req = some ws) :
    (∃ found, gptVerifyHeaders (machine (guidEnv crc32 malloc) (applyWrites ws disk)) =
        some (some found)) ∧
      gptVerifyPartitions (machine (guidEnv crc32 malloc) (applyWrites ws disk)) req.partitions =
        some true ∧
      ∀ disk', Damaged (guidEnv crc32 malloc) (applyWrites ws disk) disk' →
        ∀ i (hi : i < (req.placed off).length), ∃ info,
          partGetInfoEfi (machine (guidEnv crc32 malloc) disk') (i + 1) = some (some info) ∧
            info.Tells (req.placed off)[i] := by
  have hroom : Room dev off := by
    obtain rfl | hroom := hplace
    · have hblocks : entriesBlocks dev = 32 := by rw [dev.entriesBlocks_eq, hblksz]
      rw [Room, hblocks]
      exact Nat.le_trans (by decide) hlba
    · exact hroom
  have hlo := hoff ▸ (partitionEntriesOffset_bounds dev entriesOff configOffset).1
  obtain ⟨guid, hres⟩ := gptRestore_spec hoff hrun
  refine ⟨⟨_, hres.gptVerifyHeaders hlo hroom⟩, ?_, fun disk' hdamaged i hi ↦ ?_⟩
  · rw [gptVerifyPartitions_gptRestore hoff hroom hrun, Option.some_inj, decide_eq_true_iff]
    intro pl hpl
    have hpos : 0 < pl.part.size.toNat := by
      rw [Nat.pos_iff_ne_zero]
      exact fun hzero ↦ (hplain pl hpl).size (UInt32.toNat_inj.1 hzero)
    exact .inr ⟨by omega, (hplain pl hpl).stop.le⟩
  · have huuid : ∀ pl ∈ req.placed off,
        ((guidEnv crc32 malloc).uuidStrToBin pl.part.uuid).isSome :=
      fun pl hpl ↦ (hres.admitted pl hpl).uuid
    have hle : (req.placed off).length ≤ 128 := (length_placed _ _).trans_le req.length_le
    have htold := (hres.shows_damaged hlo hroom hdamaged).told rfl huuid hle (i + 1)
    rw [if_neg (by omega), show ((i : ℤ) + 1 - 1).toNat = i by omega,
      List.getElem?_eq_getElem hi] at htold
    exact ⟨_, htold, tells_toldInfo (hplain _ (List.getElem_mem hi))⟩

end

/-- The text of a GUID. -/
def guidText : Str := ascii "01234567-89ab-CDEF-0123-456789abcdef"

/-- Two partitions, the second one with a start of its own. -/
def guidParts : Request :=
  ⟨guidText, [⟨0, 4, ascii "boot", true, guidText⟩, ⟨60, 8, ascii "root", false, guidText⟩],
    by decide⟩

/-- The code around for the two partitions. -/
def textEnv : Env := guidEnv tinyEnv.crc32 fun _ ↦ true

theorem uuidStrValid_guidText : uuidStrValid guidText = true := by decide +kernel

theorem plain_guidParts : ∀ pl ∈ guidParts.placed 2, pl.Plain := by
  intro pl hpl
  obtain rfl | hpl := List.mem_cons.1 hpl
  · exact ⟨uuidStrValid_guidText, by decide, by decide +kernel, by decide, by decide⟩
  · obtain rfl := List.mem_singleton.1 hpl
    exact ⟨uuidStrValid_guidText, by decide, by decide +kernel, by decide, by decide⟩

/-- The writes for the two partitions. -/
def guidRun : List (ℕ × Block tinyDev) :=
  writeGptTable textEnv blankDisk (filledHeader tinyDev 2 ((uuidStrToBin guidText).getD []))
    (guidParts.table textEnv tinyDev 2)

theorem gptRestore_guidParts : gptRestore textEnv blankDisk 2 guidParts = some guidRun := by
  refine @Room.gptRestore_eq _ _ _ _ _ _ room_tinyDev 0 none rfl (fun _ ↦ rfl) rfl ?_
  intro pl hpl
  obtain rfl | hpl := List.mem_cons.1 hpl
  · constructor <;> decide
  · obtain rfl := List.mem_singleton.1 hpl
    constructor <;> decide

/-- Two partitions on a blank device. -/
theorem gptRestore_roundTrip_two :
    (∃ found, gptVerifyHeaders (machine textEnv (applyWrites guidRun blankDisk)) =
        some (some found)) ∧
      gptVerifyPartitions (machine textEnv (applyWrites guidRun blankDisk)) guidParts.partitions =
        some true ∧
      ∀ disk', Damaged textEnv (applyWrites guidRun blankDisk) disk' →
        ∀ i (hi : i < (guidParts.placed 2).length), ∃ info,
          partGetInfoEfi (machine textEnv disk') (i + 1) = some (some info) ∧
            info.Tells (guidParts.placed 2)[i] :=
  @gptRestore_roundTrip tinyEnv.crc32 (fun _ ↦ true) tinyDev blankDisk 2 guidParts guidRun 0 none
    rfl rfl (by decide) (.inl rfl) plain_guidParts gptRestore_guidParts

end MiniPi.Gpt
