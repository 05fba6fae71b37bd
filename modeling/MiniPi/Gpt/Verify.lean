import MiniPi.Gpt.Restore

/-!
# Verifying a GPT

`gpt_verify_headers` and `gpt_verify_partitions` of `disk/part_efi.c`: both copies of the table are
looked at, and the entries of the backup are compared with the partitions that are asked for.
-/

namespace MiniPi.Gpt

open Lib (applyWrites)

/-! ## The functions -/

/-- The loop of `gpt_convert_efi_name_to_char`, for at most `n` characters from `off` on. -/
def gptConvertEfiNameToChar (e : Entries) (off : ℕ) : ℕ → Option Bytes
  | 0 => some []
  | n + 1 => do
    let c ← readBytes e.data e.size off 1
    if c.getD 0 0 = 0 then some [] else (c.getD 0 0 :: ·) <$> gptConvertEfiNameToChar e (off + 2) n

/-- `strncmp` finds no difference. -/
def strncmpEq (s t : Bytes) (n : ℕ) : Bool :=
  (s.take n).takeWhile (· != 0) == (t.take n).takeWhile (· != 0)

/-- `gpt_verify_headers`; a result of -1 is the inner `none`. -/
def gptVerifyHeaders (m : Machine) : Option (Option (Bytes × Entries)) := do
  match ← isGptValid m 1 with
  | .valid _ _ =>
    match ← isGptValid m (m.dev.lba - 1) with
    | .valid h e => some (some (h, e))
    | _ => some none
  | _ => some none

/-- The loop of `gpt_verify_partitions`, from entry `i` on. -/
def verifyLoop (h : Bytes) (e : Entries) : List DiskPartition → ℕ → Option Bool
  | [], _ => some true
  | part :: parts, i =>
    if i = numPartitionEntries h then some false
    else do
      let efiStr ← gptConvertEfiNameToChar e (i * 128 + 56) 37
      if strncmpEq efiStr part.name 32 = false then some false
      else
        let entry ← readBytes e.data e.size (i * 128) 128
        let startingLba := UInt64.ofNat (field entry 32 8)
        let gptPartSize := UInt64.ofNat (field entry 40 8) - startingLba + 1
        if gptPartSize ≠ part.size.toUInt64 then
          -- the size of the last partition need not be given
          if parts = [] ∧ part.size = 0 then verifyLoop h e parts (i + 1) else some false
        else if part.start = 0 then verifyLoop h e parts (i + 1)
        else if startingLba ≠ part.start.toUInt64 then some false
        else verifyLoop h e parts (i + 1)

/-- `gpt_verify_partitions`: whether the result is 0. -/
def gptVerifyPartitions (m : Machine) (partitions : List DiskPartition) : Option Bool := do
  match ← gptVerifyHeaders m with
  | none => some false
  | some (h, e) => verifyLoop h e partitions 0

/-! ## Names -/

variable {e : Entries} {off n : ℕ}

theorem gptConvertEfiNameToChar_eq {z : ℕ} (hz : e.data.getD (off + 2 * z) 0 = 0)
    (hin : off + 2 * z < e.size) (hn : z < n) : gptConvertEfiNameToChar e off n =
      some (((List.range z).map fun i ↦ e.data.getD (off + 2 * i) 0).takeWhile (· != 0)) := by
  have hchar : ((e.data.drop off).take 1).getD 0 0 = e.data.getD off 0 := by
    simp [List.getD_eq_getElem?_getD]
  obtain ⟨n, rfl⟩ := Nat.exists_eq_add_of_lt hn
  induction z generalizing off with
  | zero =>
      rw [Nat.mul_zero, Nat.add_zero] at hz
      rw [Nat.zero_add, gptConvertEfiNameToChar, readBytes, if_pos (by omega), Option.bind_eq_bind,
        Option.bind_some, hchar, if_pos hz]
      rfl
  | succ z ih =>
      rw [Nat.succ_add, gptConvertEfiNameToChar, readBytes, if_pos (by omega), Option.bind_eq_bind,
        Option.bind_some, hchar, List.range_succ_eq_map, List.map_cons, List.map_map]
      have hnext := @ih (off + 2) (by rw [← hz]; congr 1; omega) (by omega)
        (by simp [List.getD_eq_getElem?_getD]) (by omega)
      rw [hnext]
      have hmap : (List.range z).map (fun i ↦ e.data.getD (off + 2 + 2 * i) 0) =
          (List.range z).map ((fun i ↦ e.data.getD (off + 2 * i) 0) ∘ Nat.succ) := by
        refine List.map_congr_left fun i _ ↦ ?_
        rw [Function.comp, Nat.mul_succ, Nat.add_assoc, Nat.add_comm 2]
      rw [hmap, Nat.mul_zero, Nat.add_zero]
      split_ifs with hc
      · rw [hc]
        rfl
      · rw [List.takeWhile_cons_of_pos (by simpa using hc)]
        rfl

theorem getD_take_drop {data bytes : Bytes} {a k : ℕ} (h : (data.drop a).take n = bytes)
    (hk : k < n) :
    bytes.getD k 0 = data.getD (a + k) 0 := by
  rw [← h]
  simp [List.getD_eq_getElem?_getD, hk]

section Loop

variable {env : Env} {dev : BlkDesc} {hdr : GptHeader} {pls : List Placed} {pl : Placed} {i : ℕ}
  (huuid : ∀ pl ∈ pls, (env.uuidStrToBin pl.part.uuid).isSome) (hle : pls.length ≤ 128)
    (hi : pls[i]? = some pl)

include huuid hle hi

theorem readBytes_entryOf : readBytes (table (tableOf env hdr pls)).data 16384 (i * 128) 128 =
    some (entryOf env.uuidStrToBin hdr pl).bytes := by
  have hget : (pls.map (entryOf env.uuidStrToBin hdr))[i]? =
      some (entryOf env.uuidStrToBin hdr pl) := by
    rw [List.getElem?_map, hi]
    rfl
  exact readBytes_table (formed_of_mem huuid) (by rwa [List.length_map]) hget

/-- The name of an entry is the name that was given. -/
theorem name_entryOf : gptConvertEfiNameToChar (table (tableOf env hdr pls)) (i * 128 + 56) 37 =
    some ((pl.part.name.take 32).takeWhile (· != 0)) := by
  have hlt := (List.getElem?_eq_some_iff.1 hi).1
  have hread := @readBytes_entryOf env hdr pls pl i huuid hle hi
  rw [readBytes, if_pos (by omega), Option.some_inj] at hread
  have hformed := @formed_entryOf env hdr pl (huuid pl (List.mem_of_getElem? hi))
  have hchar {j : ℕ} (hj : j < 36) :
    (table (tableOf env hdr pls)).data.getD (i * 128 + 56 + 2 * j) 0 =
      if j < 32 then pl.part.name.getD j 0 else 0 := by
    rw [← getD_name_bytes hformed rfl hj, getD_take_drop hread (by omega), Nat.add_assoc]
  have hsize : (table (tableOf env hdr pls)).size = 16384 := rfl
  have hmap : (List.range 32).map
    (fun j ↦ (table (tableOf env hdr pls)).data.getD (i * 128 + 56 + 2 * j) 0) =
      padded pl.part.name 32 := by
    refine List.map_congr_left fun j hj ↦ ?_
    have hj := List.mem_range.1 hj
    rw [hchar (by omega), if_pos hj]
  rw [@gptConvertEfiNameToChar_eq _ _ _ 32 ((hchar (by omega)).trans (if_neg (by omega)))
    (by rw [hsize]; omega) (by omega), hmap, takeWhile_padded]

end Loop

/-! ## Sizes -/

/-- The blocks of a partition stay below block `2 ^ 32`, unless it takes the rest of the device. -/
def Below (pl : Placed) : Prop :=
  pl.TakesRest ∨ 0 < pl.start.toNat + pl.part.size.toNat ∧
    pl.start.toNat + pl.part.size.toNat ≤ 2 ^ 32

instance (pl : Placed) : Decidable (Below pl) := inferInstanceAs (Decidable (_ ∨ _))

/-- The size that is computed from an entry is the one that was given. -/
theorem gptPartSize_iff {start size : UInt32} :
    (start + size - 1).toUInt64 - start.toUInt64 + 1 = size.toUInt64 ↔
      0 < start.toNat + size.toNat ∧ start.toNat + size.toNat ≤ 2 ^ 32 := by
  have hstart := start.toNat_lt
  have hsize := size.toNat_lt
  rw [← UInt64.toNat_inj, UInt64.toNat_add, UInt64.toNat_sub, UInt32.toNat_toUInt64,
    UInt32.toNat_toUInt64, UInt32.toNat_toUInt64, UInt32.toNat_sub, UInt32.toNat_add]
  simp only [UInt32.toNat_one, UInt64.toNat_one]
  omega

/-! ## The loop -/

section Run

variable {env : Env} {dev : BlkDesc} {hdr : GptHeader} {pls : List Placed} {h : Bytes}
  (huuid : ∀ pl ∈ pls, (env.uuidStrToBin pl.part.uuid).isSome) (hle : pls.length ≤ 128)
  (hnum : numPartitionEntries h = 128)

include huuid hle hnum

/-- The loop accepts the partitions that the entries were filled for, unless one of them has wrapped
around. -/
theorem verifyLoop_eq {parts : List DiskPartition} {offset : UInt32} {i : ℕ}
    (hdrop : pls.drop i = placed parts offset) :
    verifyLoop h (table (tableOf env hdr pls)) parts i =
      some (decide (∀ pl ∈ placed parts offset, Below pl)) := by
  induction parts generalizing offset i with
  | nil => simp [verifyLoop, placed]
  | cons part parts ih =>
      rw [placed] at hdrop ⊢
      generalize hstart : (if part.start ≠ 0 then part.start else offset) = start at hdrop ⊢
      have hi : pls[i]? = some ⟨part, start, parts.isEmpty⟩ := by
        rw [← List.head?_drop, hdrop]
        rfl
      have hlt := (List.getElem?_eq_some_iff.1 hi).1
      have hrest := @ih (start + part.size) (i + 1) (by rw [← List.tail_drop, hdrop]; rfl)
      have hname := @name_entryOf env hdr pls _ i huuid hle hi
      have hread := @readBytes_entryOf env hdr pls _ i huuid hle hi
      have hsize : (table (tableOf env hdr pls)).size = 16384 := rfl
      have hsame : strncmpEq ((part.name.take 32).takeWhile (· != 0)) part.name 32 = true := by
        rw [strncmpEq, List.take_takeWhile, List.take_take, Nat.min_self, List.takeWhile_idem]
        exact beq_self_eq_true _
      rw [verifyLoop, if_neg (by omega), hname, Option.bind_eq_bind, Option.bind_some,
        if_neg (by simp [hsame]),
        hsize, hread, Option.bind_some, hrest]
      have hformed := @formed_entryOf env hdr ⟨part, start, parts.isEmpty⟩
        (huuid _ (List.mem_of_getElem? hi))
      have hcheck (b : Option Bool) : (if part.start = 0 then b
          else if start.toUInt64 ≠ part.start.toUInt64 then some false else b) = b := by
        split_ifs with h0 hne
        · rfl
        · rw [if_pos h0] at hstart
          exact absurd (congrArg _ hstart.symm) hne
        · rfl
      dsimp only
      rw [hformed.starting, hformed.ending, UInt64.ofNat_toNat, UInt64.ofNat_toNat]
      generalize hpl : (⟨part, start, parts.isEmpty⟩ : Placed) = pl
      have hlast : pl.TakesRest ↔ parts = [] ∧ part.size = 0 := by
        rw [← hpl, Placed.TakesRest]
        simp
      have hstarting : (entryOf env.uuidStrToBin hdr pl).startingLba = start.toUInt64 := by
        rw [← hpl]
        rfl
      have hsizes : 0 < start.toNat + part.size.toNat ∧ start.toNat + part.size.toNat ≤ 2 ^ 32 ↔
          0 < pl.start.toNat + pl.part.size.toNat ∧
          pl.start.toNat + pl.part.size.toNat ≤ 2 ^ 32 := by
        rw [← hpl]
      have hending (hno : ¬pl.TakesRest) :
          (entryOf env.uuidStrToBin hdr pl).endingLba = (start + part.size - 1).toUInt64 := by
        rw [entryOf, if_neg hno, ← hpl]
        rfl
      rw [hstarting, hcheck]
      by_cases hrests : pl.TakesRest
      · rw [if_pos (hlast.1 hrests), ite_self, Option.some_inj, decide_eq_decide,
          List.forall_mem_cons]
        exact (and_iff_right (.inl hrests)).symm
      rw [hending hrests]
      by_cases hbelow : 0 < start.toNat + part.size.toNat ∧ start.toNat + part.size.toNat ≤ 2 ^ 32
      · rw [if_neg (not_not.2 (gptPartSize_iff.2 hbelow)), Option.some_inj, decide_eq_decide,
          List.forall_mem_cons]
        exact (and_iff_right (.inr (hsizes.1 hbelow))).symm
      · rw [if_pos (mt gptPartSize_iff.1 hbelow), if_neg (mt hlast.2 hrests),
          Option.some_inj, eq_comm, decide_eq_false_iff_not, List.forall_mem_cons]
        exact fun hall ↦ hall.1.elim hrests fun hpos ↦ hbelow (hsizes.2 hpos)

end Run

/-- Both copies are accepted after a run, and the backup is what is looked at. -/
theorem Restored.gptVerifyHeaders {env : Env} {dev : BlkDesc} {disk : Disk dev} {off : UInt32}
    {req : Request} {ws : List (ℕ × Block dev)} {guid : Guid}
    (h : Restored env disk off req ws guid) (hlo : 2 ≤ off.toNat) (hroom : Room dev off) :
    gptVerifyHeaders (machine env (applyWrites ws disk)) =
      some (some (headerBlock env dev (prepareBackupGptHeader (filledHeader dev off guid))
      (req.table env dev off),
        table (req.table env dev off))) := by
  obtain ⟨hprimary, hbackup⟩ := h.inPlace hlo hroom
  have hvalid := @InPlace.isGptValid _ _ _ _ _ 1 hprimary (hroom.sane h.length_guid) rfl h.malloc
  have hvalid' := @InPlace.isGptValid _ _ _ _ _ (dev.lba - 1) hbackup
    (hroom.sane_backup h.length_guid) hroom.toNat_backup h.malloc
  rw [Gpt.gptVerifyHeaders, hvalid, Option.bind_eq_bind, Option.bind_some]
  change (isGptValid _ (dev.lba - 1)).bind _ = _
  rw [hvalid']
  rfl

/-- A table that was restored is verified, unless a partition has wrapped around. -/
theorem gptVerifyPartitions_gptRestore {env : Env} {dev : BlkDesc} {disk : Disk dev} {off : UInt32}
    {req : Request} {ws : List (ℕ × Block dev)} {entriesOff : UInt32} {configOffset : Option UInt32}
    (hoff : partitionEntriesOffset dev entriesOff configOffset = off) (hroom : Room dev off)
    (hrun : gptRestore env disk off req = some ws) :
    gptVerifyPartitions (machine env (applyWrites ws disk)) req.partitions =
      some (decide (∀ pl ∈ req.placed off, Below pl)) := by
  have hlo := hoff ▸ (partitionEntriesOffset_bounds dev entriesOff configOffset).1
  obtain ⟨guid, hres⟩ := gptRestore_spec hoff hrun
  have hsane := hroom.sane_backup hres.length_guid
  rw [gptVerifyPartitions, hres.gptVerifyHeaders hlo hroom, Option.bind_eq_bind, Option.bind_some]
  exact verifyLoop_eq (fun pl hpl ↦ (hres.admitted pl hpl).uuid)
    ((length_placed _ _).trans_le req.length_le)
    hsane.reads_headerBlock.numPartitionEntries rfl

/-- Two partitions on a blank device. -/
theorem gptVerifyPartitions_two :
    gptVerifyPartitions (machine tinyEnv (applyWrites (tinyRun blankDisk twoParts) blankDisk))
    twoParts.partitions =
      some (decide (∀ pl ∈ twoParts.placed 2, Below pl)) :=
  @gptVerifyPartitions_gptRestore tinyEnv tinyDev blankDisk 2 twoParts _ 0 none rfl room_tinyDev
    (gptRestore_tiny _ (.inr rfl))

end MiniPi.Gpt
