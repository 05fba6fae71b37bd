import MiniPi.Gpt.Write

/-!
# A GPT is read back

The two copies of the table that `gpt_restore` writes are valid, and `part_get_info_efi` tells what
was asked for.
-/

namespace MiniPi.Gpt

open Lib (leBytes leValue applyWrites length_leBytes leValue_leBytes)

variable {env : Env} {dev : BlkDesc} {disk : Disk dev} {hdr : GptHeader} {data : Bytes}

/-! ## Buffers -/

@[simp] theorem length_padded (data : Bytes) (len : ℕ) : (padded data len).length = len := by
  simp [padded]

theorem padded_eq {len : ℕ} (h : data.length ≤ len) :
    padded data len = data ++ List.replicate (len - data.length) 0 := by
  apply List.ext_getElem
  · simp
    omega
  · intro i hi _
    simp only [padded, List.getElem_map, List.getElem_range]
    obtain hlt | hge := Nat.lt_or_ge i data.length
    · rw [List.getD_eq_getElem _ _ hlt, List.getElem_append_left hlt]
    · rw [List.getD_eq_default _ _ hge, List.getElem_append_right hge, List.getElem_replicate]

theorem blockAt_zero (data : Bytes) : (blockAt dev data 0).1 = padded data dev.blksz := by
  simp [blockAt, padded]

theorem flatMap_blockAt (data : Bytes) (n : ℕ) :
    ((List.range n).flatMap fun j ↦ (blockAt dev data j).1) = padded data (n * dev.blksz) := by
  induction n with
  | zero => simp [padded]
  | succ n ih =>
      rw [List.range_succ, List.flatMap_append, ih, Nat.succ_mul, padded, padded, List.range_add,
        List.map_append]
      simp [blockAt, Function.comp_def]

theorem block_machine {i : UInt32} (h : i.toNat < dev.lba.toNat) :
    (machine env disk).block i = some (disk i.toNat).1 := if_pos (UInt32.lt_iff_toNat_lt.2 h)

theorem blkDread_machine {start : UInt32} {n : ℕ} (h : start.toNat + n ≤ dev.lba.toNat) :
    blkDread (machine env disk) start n =
    some ((List.range n).flatMap fun j ↦ (disk (start.toNat + j)).1) := by
  induction n generalizing start with
  | zero => rfl
  | succ n ih =>
      have hlt := dev.lba.toNat_lt
      rw [blkDread, block_machine (by omega)]
      obtain rfl | hn := Nat.eq_zero_or_pos n
      · simp [blkDread]
      · have hnext : (start + 1).toNat = start.toNat + 1 := by
          rw [UInt32.toNat_add]
          simp
          omega
        rw [ih (by omega), hnext]
        simp only [Option.bind_eq_bind, Option.bind_some, Option.some.injEq]
        rw [Nat.add_comm n 1, List.range_add, List.flatMap_append, List.flatMap_map]
        simp [Nat.add_assoc]

/-! ## Fields -/

/-- A field of a structure that is written chunk by chunk. -/
theorem field_flatten {cs : List Bytes} {rest : Bytes} (i : ℕ) {c : Bytes} {off : ℕ}
    (hget : cs[i]? = some c) (hoff : ((cs.take i).map List.length).sum = off) :
    field (cs.flatten ++ rest) off c.length = leValue c := by
  obtain ⟨hi, hc⟩ := List.getElem?_eq_some_iff.1 hget
  have hsplit : cs = cs.take i ++ c :: cs.drop (i + 1) := by
    rw [← hc, List.getElem_cons_drop, List.take_append_drop]
  have hlen : (cs.take i).flatten.length = off := by rw [List.length_flatten, hoff]
  conv_lhs => rw [hsplit]
  rw [field, List.flatten_append, List.flatten_cons, List.append_assoc, List.drop_left' hlen,
    List.append_assoc, List.take_left' rfl]

theorem field_number {cs : List Bytes} {rest : Bytes} (i : ℕ) {off w v : ℕ}
    (hget : cs[i]? = some (leBytes w v)) (hoff : ((cs.take i).map List.length).sum = off)
    (hv : v < 256 ^ w) :
    field (cs.flatten ++ rest) off w = v := by
  have hfield := @field_flatten cs rest i _ _ hget hoff
  rwa [length_leBytes, leValue_leBytes, Nat.mod_eq_of_lt hv] at hfield

/-- What `gpt_fill_header` and `prepare_backup_gpt_header` leave in a header, for a device that has
room. -/
structure Sane (dev : BlkDesc) (hdr : GptHeader) : Prop where
  signature : hdr.signature = 0x5452415020494645
  headerSize : hdr.headerSize = 92
  guid : hdr.diskGuid.length = 16
  number : hdr.numPartitionEntries = 128
  size : hdr.sizeofPartitionEntry = 128
  myLba : hdr.myLba.toNat < dev.lba.toNat
  firstUsable : hdr.firstUsableLba.toNat ≤ dev.lba.toNat
  lastUsable : hdr.lastUsableLba.toNat ≤ dev.lba.toNat
  entries : hdr.partitionEntryLba.toNat + entriesBlocks dev ≤ dev.lba.toNat

/-- The fields that are read from a header. -/
structure Reads (hdr : GptHeader) (crc acrc : UInt32) (h : Bytes) : Prop where
  signature : signature h = gptHeaderSignature
  headerSize : headerSize h = 92
  headerCrc32 : headerCrc32 h = crc.toNat
  myLba : myLba h = hdr.myLba.toNat
  firstUsableLba : firstUsableLba h = hdr.firstUsableLba.toNat
  lastUsableLba : lastUsableLba h = hdr.lastUsableLba.toNat
  partitionEntryLba : partitionEntryLba h = hdr.partitionEntryLba.toNat
  numPartitionEntries : numPartitionEntries h = 128
  sizeofPartitionEntry : sizeofPartitionEntry h = 128
  partitionEntryArrayCrc32 : partitionEntryArrayCrc32 h = acrc.toNat

namespace Sane

variable (h : Sane dev hdr) (crc acrc : UInt32) (rest : Bytes)

include h

theorem length_bytes : (hdr.bytes crc acrc).length = 92 := by
  simp [GptHeader.bytes, GptHeader.chunks, h.guid]

theorem reads : Reads hdr crc acrc (hdr.bytes crc acrc ++ rest) where
  signature := field_number 0 rfl rfl hdr.signature.toNat_lt |>.trans (by rw [h.signature]; rfl)
  headerSize := field_number 2 rfl (by simp [GptHeader.chunks]) hdr.headerSize.toNat_lt |>.trans
    (by rw [h.headerSize]; rfl)
  headerCrc32 := field_number 3 rfl (by simp [GptHeader.chunks]) crc.toNat_lt
  myLba := field_number 5 rfl (by simp [GptHeader.chunks]) hdr.myLba.toNat_lt
  firstUsableLba := field_number 7 rfl (by simp [GptHeader.chunks]) hdr.firstUsableLba.toNat_lt
  lastUsableLba := field_number 8 rfl (by simp [GptHeader.chunks]) hdr.lastUsableLba.toNat_lt
  partitionEntryLba :=
    field_number 10 rfl (by simp [GptHeader.chunks, h.guid]) hdr.partitionEntryLba.toNat_lt
  numPartitionEntries :=
    field_number 11 rfl (by simp [GptHeader.chunks, h.guid])
      hdr.numPartitionEntries.toNat_lt |>.trans
      (by rw [h.number]; rfl)
  sizeofPartitionEntry :=
    field_number 12 rfl (by simp [GptHeader.chunks, h.guid])
      hdr.sizeofPartitionEntry.toNat_lt |>.trans
      (by rw [h.size]; rfl)
  partitionEntryArrayCrc32 := field_number 13 rfl (by simp [GptHeader.chunks, h.guid]) acrc.toNat_lt

omit h in
theorem clearCrc_bytes : clearCrc (hdr.bytes crc acrc ++ rest) = hdr.bytes 0 acrc ++ rest := by
  obtain ⟨front, back, hlen, hsplit⟩ : ∃ front back, front.length = 16 ∧
      ∀ c, hdr.bytes c acrc = front ++ (leBytes 4 c.toNat ++ back) :=
    ⟨leBytes 8 hdr.signature.toNat ++
      (leBytes 4 hdr.revision.toNat ++ leBytes 4 hdr.headerSize.toNat), _,
      by simp, fun c ↦ by simp [GptHeader.bytes, GptHeader.chunks]; rfl⟩
  have htake : (hdr.bytes crc acrc ++ rest).take 16 = front := by
    rw [hsplit, List.append_assoc, List.take_left' hlen]
  have hdrop : (hdr.bytes crc acrc ++ rest).drop 20 = back ++ rest := by
    rw [hsplit, ← List.append_assoc, List.append_assoc, List.drop_left' (by simp [hlen])]
  rw [clearCrc, htake, hdrop, hsplit]
  simp [leBytes]

end Sane

/-! ## Copies of the table -/

/-- The block with a header. -/
def headerBlock (env : Env) (dev : BlkDesc) (hdr : GptHeader) (data : Bytes) : Bytes :=
  padded (signedHeader env hdr data) dev.blksz

/-- The buffer with the entries that a header points to. -/
def entriesAt (disk : Disk dev) (hdr : GptHeader) : Entries :=
  ⟨16384, (List.range (entriesBlocks dev)).flatMap fun j ↦
    (disk (hdr.partitionEntryLba.toNat + j)).1⟩

/-- The buffer with entries that were written. -/
def table (data : Bytes) : Entries := ⟨16384, padded data 16384⟩

theorem entriesBlocks_mul (dev : BlkDesc) : entriesBlocks dev * dev.blksz = 16384 := by
  have hblk := dev.blksz_mem
  rw [dev.entriesBlocks_eq]
  simp only [blockSizes, List.mem_cons, List.not_mem_nil, or_false] at hblk
  obtain hb | hb | hb | hb | hb | hb := hblk <;> rw [hb]

theorem length_entriesAt : (entriesAt disk hdr).data.length = 16384 := by
  rw [entriesAt, List.length_flatMap, ← entriesBlocks_mul dev]
  simp [(disk _).2]

theorem entriesAt_eq (h : ∀ j < entriesBlocks dev, disk (hdr.partitionEntryLba.toNat + j) =
    blockAt dev data j) :
    entriesAt disk hdr = table data := by
  rw [entriesAt, table, ← entriesBlocks_mul dev, ← flatMap_blockAt]
  congr 1
  refine List.flatMap_congr fun j hj ↦ ?_
  rw [h j (List.mem_range.1 hj)]

theorem padCount_entries (dev : BlkDesc) :
    (padCount 16384 (UInt32.ofNat dev.blksz) * UInt32.ofNat dev.blksz) = 16384 := by
  have hblk := dev.blksz_mem
  simp only [blockSizes, List.mem_cons, List.not_mem_nil, or_false] at hblk
  obtain hb | hb | hb | hb | hb | hb := hblk <;> rw [hb] <;> rfl

namespace Sane

variable (h : Sane dev hdr)

include h

theorem reads_headerBlock : Reads hdr
    (env.crc32 ((hdr.bytes 0 (arrayCrc32 env hdr data)).take 92)) (arrayCrc32 env hdr data)
    (headerBlock env dev hdr data) := by
  rw [headerBlock, signedHeader, h.headerSize,
    padded_eq (by rw [h.length_bytes]; exact dev.le_blksz.trans' (by decide))]
  exact h.reads _ _ _

theorem clearCrc_headerBlock :
    (clearCrc (headerBlock env dev hdr data)).take 92 =
    (hdr.bytes 0 (arrayCrc32 env hdr data)).take 92 := by
  rw [headerBlock, signedHeader,
    padded_eq (by rw [h.length_bytes]; exact dev.le_blksz.trans' (by decide)),
    clearCrc_bytes, List.take_append_of_le_length (by rw [h.length_bytes])]

theorem count_headerBlock : count (headerBlock env dev hdr data) = 16384 := by
  have hreads : Reads _ _ _ (headerBlock env dev hdr data) := h.reads_headerBlock
  rw [count, hreads.numPartitionEntries, hreads.sizeofPartitionEntry]
  rfl

/-- The entries are read, where memory is granted. -/
theorem allocReadGptEntries_eq (hmalloc : env.malloc 16384 = true) :
    allocReadGptEntries (machine env disk) (headerBlock env dev hdr data) =
    some (entriesAt disk hdr) := by
  have hpad : padToBlocksize (machine env disk) 16384 = 16384 := padCount_entries dev
  have hcnt : (blockCnt (machine env disk) 16384).toNat = entriesBlocks dev :=
    blockCnt_toNat _ (by decide)
  have hlba : (UInt32.ofNat hdr.partitionEntryLba.toNat).toNat = hdr.partitionEntryLba.toNat := by
    have hlt := dev.lba.toNat_lt
    have hle := h.entries
    have hpos := dev.entriesBlocks_bounds.1
    rw [UInt32.toNat_ofNat_of_lt']
    change _ < 2 ^ 32
    omega
  rw [allocReadGptEntries, h.count_headerBlock, hpad, hcnt,
    h.reads_headerBlock.partitionEntryLba, if_neg, blkDread_machine, hlba]
  · rfl
  · rw [hlba]
    exact h.entries
  · rintro (h0 | hno)
    · exact absurd h0 (by decide)
    · exact Bool.noConfusion (hmalloc.symm.trans hno)

section InPlace

variable {lba : UInt32} {h' : Bytes} {e : Entries} (hlba : lba.toNat = hdr.myLba.toNat)
  (hblock : disk hdr.myLba.toNat = blockAt dev (signedHeader env hdr data) 0)

include hlba hblock

theorem headerAt_iff : HeaderAt (machine env disk) lba h' ↔ h' = headerBlock env dev hdr data := by
  have hlt : lba.toNat < dev.lba.toNat := hlba ▸ h.myLba
  have hmbr : (machine env disk).block 0 = some (disk 0).1 := by
    refine block_machine ?_
    simp
    omega
  rw [HeaderAt, block_machine hlt, hlba, hblock, blockAt_zero, Option.some_inj]
  exact ⟨fun hat ↦ hat.2.symm, fun heq ↦ ⟨⟨_, hmbr⟩, heq.symm⟩⟩

omit hblock in
theorem validHeader : ValidHeader (machine env disk) lba (headerBlock env dev hdr data) := by
  have hreads : Reads _ _ _ (headerBlock env dev hdr data) := h.reads_headerBlock
  refine ⟨hreads.signature, ?_, hreads.myLba.trans hlba.symm,
    hreads.firstUsableLba.trans_le h.firstUsable, hreads.lastUsableLba.trans_le h.lastUsable⟩
  rw [hreads.headerSize, hreads.headerCrc32, h.clearCrc_headerBlock]
  rfl

theorem fits : Fits (machine env disk) lba where
  header h' hat _ := by
    rw [(h.headerAt_iff hlba hblock).1 hat, h.reads_headerBlock.headerSize]
    exact dev.le_blksz.trans' (by decide)
  entries h' e hat _ _ := by
    have hle : dev.blksz ≤ 16384 :=
      (Nat.le_mul_of_pos_left _ dev.entriesBlocks_bounds.1).trans_eq (entriesBlocks_mul dev)
    rw [(h.headerAt_iff hlba hblock).1 hat, Padded, h.count_headerBlock]
    exact (Nat.add_le_add_left hle _).trans (by decide)

/-- A copy with its header in place is valid, if the checksum of its entries is right. -/
theorem valid_iff (hmalloc : env.malloc 16384 = true) : Valid (machine env disk) lba h' e ↔
    (h' = headerBlock env dev hdr data ∧ e = entriesAt disk hdr) ∧
      env.crc32 (entriesAt disk hdr).data = arrayCrc32 env hdr data := by
  have hreads : Reads _ _ _ (headerBlock env dev hdr data) := h.reads_headerBlock
  have htake : (entriesAt disk hdr).data.take (16384 : UInt32).toNat = (entriesAt disk hdr).data :=
    List.take_of_length_le length_entriesAt.le
  have hvalid : (h' = headerBlock env dev hdr data) → (ValidEntries (machine env disk) h' e ↔
      e = entriesAt disk hdr ∧ env.crc32 (entriesAt disk hdr).data = arrayCrc32 env hdr data) := by
    rintro rfl
    rw [ValidEntries, h.allocReadGptEntries_eq hmalloc, Option.some_inj, eq_comm]
    refine and_congr_right ?_
    rintro rfl
    rw [h.count_headerBlock, hreads.partitionEntryArrayCrc32, UInt32.toNat_inj, htake]
    rfl
  rw [Valid, h.headerAt_iff hlba hblock, and_assoc]
  refine and_congr_right fun heq ↦ ?_
  rw [hvalid heq, heq, and_iff_right (h.validHeader hlba)]

end InPlace

end Sane

/-! ## Entries -/

/-- One of several pieces of a common length. -/
theorem take_drop_flatMap {α : Type*} {f : α → Bytes} {n i : ℕ} {as : List α} {a : α} {rest : Bytes}
    (hlen : ∀ a ∈ as, (f a).length = n) (hi : as[i]? = some a) :
    ((as.flatMap f ++ rest).drop (i * n)).take n = f a := by
  induction as generalizing i with
  | nil => simp at hi
  | cons b as ih =>
      obtain ⟨hb, has⟩ := List.forall_mem_cons.1 hlen
      rw [List.flatMap_cons, List.append_assoc]
      cases i with
      | zero =>
          obtain rfl := Option.some.inj hi
          rw [Nat.zero_mul, List.drop_zero, List.take_left' hb]
      | succ i =>
          rw [Nat.succ_mul, Nat.add_comm, ← List.drop_drop, List.drop_left' hb]
          exact ih has hi

theorem length_flatMap_eq {α : Type*} {f : α → Bytes} {n : ℕ} {as : List α}
    (hlen : ∀ a ∈ as, (f a).length = n) :
    (as.flatMap f).length = as.length * n := by
  rw [List.length_flatMap, List.map_congr_left hlen]
  simp

/-- The GUIDs and the name have their lengths. -/
structure GptEntry.Formed (entry : GptEntry) : Prop where
  type : entry.partitionTypeGuid.length = 16
  unique : entry.uniquePartitionGuid.length = 16
  name : entry.partitionName.length = 36

theorem GptEntry.Formed.length_bytes {entry : GptEntry} (h : entry.Formed) :
    entry.bytes.length = 128 := by
  have hname : (entry.partitionName.flatMap fun c ↦ leBytes 2 c.toNat).length = 72 := by
    rw [length_flatMap_eq (n := 2) (by simp), h.name]
  simp [GptEntry.bytes, GptEntry.chunks, h.type, h.unique, hname]

variable {entries : List GptEntry} {i : ℕ} {entry : GptEntry}

theorem length_entries (hformed : ∀ entry ∈ entries, entry.Formed) :
    (entries.flatMap GptEntry.bytes).length = entries.length * 128 :=
  length_flatMap_eq fun entry hmem ↦ (hformed entry hmem).length_bytes

/-- The bytes of an entry of the table. -/
theorem readBytes_table (hformed : ∀ entry ∈ entries, entry.Formed) (hle : entries.length ≤ 128)
    (hi : entries[i]? = some entry) :
    readBytes (table (entries.flatMap GptEntry.bytes)).data 16384 (i * 128) 128 =
      some entry.bytes := by
  have hlt := (List.getElem?_eq_some_iff.1 hi).1
  rw [readBytes, if_pos (by omega), table, padded_eq (by rw [length_entries hformed]; omega),
    take_drop_flatMap (fun entry hmem ↦ (hformed entry hmem).length_bytes) hi]

/-- Behind the entries there are zeros. -/
theorem readBytes_table_rest (hformed : ∀ entry ∈ entries, entry.Formed) (hle : entries.length ≤ i)
    (hi : i < 128) :
    readBytes (table (entries.flatMap GptEntry.bytes)).data 16384 (i * 128) 16 =
      some (List.replicate 16 0) := by
  have hlen := length_entries hformed
  have hzeros : ((entries.flatMap GptEntry.bytes ++
    List.replicate (16384 - entries.length * 128) 0).drop
      (i * 128)).take 16 = List.replicate 16 0 := by
    rw [List.drop_append, List.drop_of_length_le (by omega), List.nil_append, List.drop_replicate,
      List.take_replicate, hlen, Nat.min_eq_left (by omega)]
  rw [readBytes, if_pos (by omega), table, padded_eq (by omega), hlen]
  exact congrArg some hzeros

/-- The type of an entry that is in use is not 0. -/
theorem isPteValid_table (hformed : ∀ entry ∈ entries, entry.Formed) (hle : entries.length ≤ 128)
    (htype : ∀ entry ∈ entries, entry.partitionTypeGuid = partitionBasicDataGuid) (hi : i < 128) :
    isPteValid (table (entries.flatMap GptEntry.bytes)) i = some (decide (i < entries.length)) := by
  obtain hlt | hge := Nat.lt_or_ge i entries.length
  · have hget := List.getElem?_eq_getElem hlt
    have hmem := List.getElem_mem hlt
    have hread := readBytes_table hformed hle hget
    rw [readBytes, if_pos (by omega), Option.some_inj] at hread
    have htake : ((table (entries.flatMap GptEntry.bytes)).data.drop (i * 128)).take 16 =
        partitionBasicDataGuid := by
      have h16 := congrArg (List.take 16) hread
      rw [List.take_take] at h16
      rw [← htype _ hmem]
      refine h16.trans ?_
      rw [GptEntry.bytes, GptEntry.chunks, List.flatten_cons, List.take_left' (hformed _ hmem).type]
    have hsize : (table (entries.flatMap GptEntry.bytes)).size = 16384 := rfl
    rw [isPteValid, readBytes, hsize, if_pos (by omega), htake, decide_eq_true hlt]
    rfl
  · rw [isPteValid, table]
    dsimp only
    have hrest := readBytes_table_rest hformed hge hi
    rw [table] at hrest
    rw [hrest, decide_eq_false (by omega)]
    rfl

/-! ## What is told about an entry -/

/-- A character as it is told. -/
def toldChar (c : UInt8) : UInt8 := if isprint c then c else '.'.toUInt8

/-- The name of a partition as it is told. -/
def toldName (name : List UInt8) : Bytes := ((name.take 31).takeWhile (· != 0)).map toldChar

theorem getD_flatMap_leBytes (name : List UInt16) (i : ℕ) :
    (name.flatMap fun c ↦ leBytes 2 c.toNat).getD (2 * i) 0 = (name.getD i 0).toUInt8 := by
  induction name generalizing i with
  | nil => simp
  | cons c name ih =>
      cases i with
      | zero => simp [leBytes]
      | succ i =>
          rw [List.flatMap_cons, Nat.mul_succ, List.getD_append_right _ _ _ _ (by simp)]
          simpa using ih i

theorem takeWhile_padded (name : List UInt8) (n : ℕ) :
    (padded name n).takeWhile (· != 0) = (name.take n).takeWhile (· != 0) := by
  obtain hlt | hle := Nat.lt_or_ge n name.length
  swap
  · rw [padded_eq hle, List.take_of_length_le hle, List.takeWhile_append]
    split_ifs with hall
    · rw [List.takeWhile_replicate, if_neg (by simp), List.append_nil]
      exact (List.IsPrefix.eq_of_length (List.takeWhile_prefix _) hall).symm
    · rfl
  · have htake : padded name n = name.take n := by
      apply List.ext_getElem
      · simp
        omega
      · intro i _ hi
        rw [List.length_take] at hi
        simp [padded, List.getElem?_eq_getElem (show i < name.length by omega)]
    rw [htake]

theorem getD_name_bytes {name : List UInt8} (hformed : entry.Formed)
    (hname : entry.partitionName = entryName name) {i : ℕ} (hi : i < 36) :
    entry.bytes.getD (56 + 2 * i) 0 = if i < 32 then name.getD i 0 else 0 := by
  have hsplit : entry.bytes = [entry.partitionTypeGuid, entry.uniquePartitionGuid,
    leBytes 8 entry.startingLba.toNat,
      leBytes 8 entry.endingLba.toNat, leBytes 8 (if entry.legacyBiosBootable then 4
      else 0)].flatten ++
        entry.partitionName.flatMap fun c ↦ leBytes 2 c.toNat := by
    simp [GptEntry.bytes, GptEntry.chunks]
  have hlen : [entry.partitionTypeGuid, entry.uniquePartitionGuid,
    leBytes 8 entry.startingLba.toNat,
      leBytes 8 entry.endingLba.toNat, leBytes 8 (if entry.legacyBiosBootable then 4
      else 0)].flatten.length = 56 := by
    simp [hformed.type, hformed.unique]
  rw [hsplit, List.getD_append_right _ _ _ _ (by omega), hlen, Nat.add_sub_cancel_left,
    getD_flatMap_leBytes, hname, entryName]
  simp [List.getD_eq_getElem?_getD, hi]
  split <;> simp

theorem printEfiname_bytes {name : List UInt8} (hformed : entry.Formed)
    (hname : entry.partitionName = entryName name) :
    (printEfiname entry.bytes).take 31 = toldName name := by
  have hmap : (List.range 36).map (fun i ↦
      let c := entry.bytes.getD (56 + 2 * i) 0
      if c ≠ 0 ∧ ¬isprint c then '.'.toUInt8 else c) =
      ((List.range 36).map fun i ↦ if i < 32 then name.getD i 0 else 0).map fun c ↦
        if c ≠ 0 ∧ ¬isprint c then '.'.toUInt8 else c := by
    rw [List.map_map]
    refine List.map_congr_left fun i hi ↦ ?_
    dsimp only [Function.comp]
    rw [getD_name_bytes hformed hname (List.mem_range.1 hi)]
  have hcomp : ((· != 0) ∘ fun c ↦ if c ≠ 0 ∧ ¬isprint c then '.'.toUInt8 else c) =
      (· != (0 : UInt8)) := by
    funext c
    dsimp only [Function.comp]
    split_ifs with hc
    · rw [bne_iff_ne.2 hc.1]
      rfl
    · rfl
  have htake : ((List.range 36).map fun i ↦ if i < 32 then name.getD i 0 else 0).take 31 =
      padded name 31 := by
    rw [← List.map_take, List.take_range, padded]
    refine List.map_congr_left fun i hi ↦ if_pos ?_
    rw [List.mem_range] at hi
    omega
  rw [printEfiname, hmap, List.takeWhile_map, hcomp, ← List.map_take, List.take_takeWhile, htake,
    takeWhile_padded, toldName]
  refine List.map_congr_left fun c hc ↦ ?_
  have hne := @List.mem_takeWhile_imp _ (· != (0 : UInt8)) _ _ hc
  have h0 : c ≠ 0 := by simpa using hne
  rw [toldChar]
  by_cases hp : isprint c
  · rw [if_neg (by simp [hp]), if_pos hp]
  · rw [if_pos ⟨h0, hp⟩, if_neg hp]

theorem GptEntry.field_bytes (i : ℕ) {off w v : ℕ} (hget : entry.chunks[i]? = some (leBytes w v))
    (hoff : ((entry.chunks.take i).map List.length).sum = off) (hv : v < 256 ^ w) :
    field entry.bytes off w = v := by
  have hfield := @field_number entry.chunks [] i _ _ _ hget hoff hv
  rwa [List.append_nil] at hfield

theorem GptEntry.Formed.starting (h : entry.Formed) :
    field entry.bytes 32 8 = entry.startingLba.toNat :=
  field_bytes 2 rfl (by simp [chunks, h.type, h.unique]) entry.startingLba.toNat_lt

theorem GptEntry.Formed.ending (h : entry.Formed) :
    field entry.bytes 40 8 = entry.endingLba.toNat :=
  field_bytes 3 rfl (by simp [chunks, h.type, h.unique]) entry.endingLba.toNat_lt

/-- What is told about a partition that was asked for. -/
def toldInfo (env : Env) (dev : BlkDesc) (pl : Placed) : Info where
  start := pl.start
  size := if pl.TakesRest then dev.lba - 34 + 1 - pl.start else pl.part.size
  name := toldName pl.part.name
  bootable := pl.part.bootable
  uuid := (env.uuidStrToBin pl.part.uuid).getD []

theorem formed_entryOf {pl : Placed} (huuid : (env.uuidStrToBin pl.part.uuid).isSome) :
    (entryOf env.uuidStrToBin hdr pl).Formed where
  type := rfl
  unique := by
    obtain ⟨guid, hguid⟩ := Option.isSome_iff_exists.1 huuid
    rw [entryOf, hguid]
    exact env.length_uuid _ _ hguid
  name := by simp [entryOf, entryName]

theorem entryInfo_bytes {pl : Placed} (hlast : hdr.lastUsableLba = (dev.lba - 34).toUInt64)
    (huuid : (env.uuidStrToBin pl.part.uuid).isSome) :
    entryInfo (entryOf env.uuidStrToBin hdr pl).bytes = toldInfo env dev pl := by
  have hformed := @formed_entryOf env hdr pl huuid
  generalize hentry : entryOf env.uuidStrToBin hdr pl = entry at hformed
  have hattr : field entry.bytes 48 8 = if entry.legacyBiosBootable then 4 else 0 :=
    GptEntry.field_bytes 4 rfl (by simp [GptEntry.chunks, hformed.type, hformed.unique])
      (by split <;> decide)
  have htype : entry.bytes.take 16 = partitionBasicDataGuid := by
    rw [GptEntry.bytes, GptEntry.chunks, List.flatten_cons, List.take_left' hformed.type,
      ← hentry, entryOf]
  have hunique : (entry.bytes.drop 16).take 16 = entry.uniquePartitionGuid := by
    rw [GptEntry.bytes, GptEntry.chunks, List.flatten_cons, List.drop_left' hformed.type,
      List.flatten_cons, List.take_left' hformed.unique]
  have hname := @printEfiname_bytes _ pl.part.name hformed (by rw [← hentry, entryOf])
  have hbootable : isBootable entry.bytes = entry.legacyBiosBootable := by
    rw [isBootable, hattr, htype]
    cases entry.legacyBiosBootable <;> decide
  rw [entryInfo, hformed.starting, hformed.ending, hbootable, hunique, hname, toldInfo, ← hentry]
  have hlow (x : UInt64) : UInt32.ofNat x.toNat = x.toUInt32 := by
    rw [← UInt32.toNat_inj]
    simp
  simp only [Info.mk.injEq, true_and, and_true, entryOf, hlow, UInt32.toUInt32_toUInt64]
  split_ifs with hrest
  · rw [hlast, UInt32.toUInt32_toUInt64]
  · rw [UInt32.toUInt32_toUInt64, Placed.stop]
    grind

end MiniPi.Gpt
