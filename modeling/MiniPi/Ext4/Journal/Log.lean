import MiniPi.Ext4.Journal.Basic
import Mathlib

/-!
# The log

A transaction is made of descriptor blocks, each followed by the blocks its tags name, of revoke
blocks and of a commit block.  The blocks of a log are given by their position behind the start.
-/

namespace MiniPi.Ext4.Journal

open Lib

/-! ## The format -/

def journalMagic : ℕ := 0xc03b3998

/-- A tag, the UUID behind it unless it is the same as before, and the block in the log. -/
structure Logged extends Tag where
  uuid : List UInt8
  data : List UInt8

/-- The copy of the block: where it began with the magic number, the log has zeros. -/
def Logged.copy (t : Logged) : List UInt8 :=
  if t.Escape then beBytes 4 journalMagic ++ t.data.drop 4 else t.data

def Logged.encode (t : Logged) : List UInt8 := beBytes 4 t.block ++ beBytes 4 t.flags ++ t.uuid

structure Logged.WellFormed (t : Logged) : Prop where
  block_lt : t.block < 2 ^ 32
  flags_lt : t.flags < 2 ^ 32
  uuid_length : t.uuid.length = if t.SameUuid then 0 else 16

/-- The last tag, and no other one, has the flag for it. -/
def LastOnly : List Logged → Prop
  | [] => False
  | [t] => t.LastTag
  | t :: u :: ts => ¬t.LastTag ∧ LastOnly (u :: ts)

inductive Record
  | descriptor (tags : List Logged)
  | revoke (blocks : List ℕ)

def header (type sequence : ℕ) : List UInt8 :=
  beBytes 4 journalMagic ++ beBytes 4 type ++ beBytes 4 sequence

structure IsDescriptor (blksz sequence : ℕ) (tags : List Logged) (block : List UInt8) : Prop where
  length : block.length = blksz
  encoded : ∃ rest, block = header journalDescriptorBlock sequence ++
    tags.flatMap Logged.encode ++ rest
  last : LastOnly tags
  tags : ∀ t ∈ tags, t.WellFormed

structure IsRevoke (blksz sequence : ℕ) (blocks : List ℕ) (block : List UInt8) : Prop where
  length : block.length = blksz
  encoded : ∃ rest, block = header journalRevokeBlock sequence ++
    beBytes 4 (16 + 4 * blocks.length) ++
    blocks.flatMap (beBytes 4) ++ rest
  blocks : ∀ b ∈ blocks, b < 2 ^ 32

def IsCommit (sequence : ℕ) (block : List UInt8) : Prop :=
  ∃ rest, block = header journalCommitBlock sequence ++ rest

/-! ## Reading the format -/

variable {blksz sequence n : ℕ} {block pre post : List UInt8}

theorem be32At_append (v : ℕ) : be32At (pre ++ (beBytes 4 v ++ post)) pre.length = v % 2 ^ 32 := by
  rw [be32At, List.drop_left, List.take_left' (length_beBytes 4 v), beValue_beBytes]
  norm_num

theorem be32At_of_eq (pre post : List UInt8) (v : ℕ) {off : ℕ}
    (h : block = pre ++ (beBytes 4 v ++ post)) (hoff : pre.length = off) :
    be32At block off = v % 2 ^ 32 := by
  rw [h, ← hoff, be32At_append]

@[simp] theorem length_header (type sequence : ℕ) : (header type sequence).length = 12 := by
  simp [header]

/-- The type and the sequence number of a block with a header. -/
theorem be32At_header {type : ℕ} {rest : List UInt8} (h : block = header type sequence ++ rest) :
    be32At block 4 = type % 2 ^ 32 ∧ be32At block 8 = sequence % 2 ^ 32 := by
  constructor
  · refine be32At_of_eq (beBytes 4 journalMagic) (beBytes 4 sequence ++ rest) type ?_
      (length_beBytes 4 _)
    rw [h, header]
    simp only [List.append_assoc]
  · refine be32At_of_eq (beBytes 4 journalMagic ++ beBytes 4 type) rest sequence ?_ ?_
    · rw [h, header]
      simp only [List.append_assoc]
    · rw [List.length_append, length_beBytes, length_beBytes]

/-- The loop over the tags finds the tags. -/
theorem tagsFrom_eq {rest : List UInt8} (ts : List Logged) (hlast : LastOnly ts)
    (hwf : ∀ t ∈ ts, t.WellFormed) (fuel : ℕ) (hfuel : ts.length ≤ fuel)
    (hblock : block = pre ++ (ts.flatMap Logged.encode ++ rest)) (hlen : block.length = blksz) :
    tagsFrom blksz block fuel pre.length = ts.map Logged.toTag := by
  induction ts generalizing pre fuel with
  | nil => exact hlast.elim
  | cons t ts ih =>
      obtain ⟨fuel, rfl⟩ := Nat.exists_eq_add_of_le' (Nat.one_le_of_lt hfuel)
      obtain ⟨ht, hts⟩ := List.forall_mem_cons.mp hwf
      rw [List.flatMap_cons, Logged.encode] at hblock
      have hblk : be32At block pre.length = t.block := by
        rw [be32At_of_eq pre (beBytes 4 t.flags ++
          (t.uuid ++ (ts.flatMap Logged.encode ++ rest))) t.block
          (by rw [hblock]; simp only [List.append_assoc]) rfl, Nat.mod_eq_of_lt ht.block_lt]
      have hflags : be32At block (pre.length + 4) = t.flags := by
        rw [be32At_of_eq (pre ++ beBytes 4 t.block)
          (t.uuid ++ (ts.flatMap Logged.encode ++ rest)) t.flags
          (by rw [hblock]; simp only [List.append_assoc])
          (by rw [List.length_append, length_beBytes]), Nat.mod_eq_of_lt ht.flags_lt]
      have hroom : ¬blksz < pre.length + 8 := by
        rw [← hlen, hblock]
        simp only [List.length_append, length_beBytes]
        omega
      rw [tagsFrom, if_neg hroom]
      dsimp only
      rw [hblk, hflags]
      cases ts with
      | nil =>
          have hflag : t.LastTag := hlast
          rw [if_pos hflag]
          rfl
      | cons u ts =>
          obtain ⟨hflag, hrest⟩ := hlast
          have hnot : ¬Tag.LastTag ⟨t.block, t.flags⟩ := hflag
          rw [if_neg hnot, List.map_cons]
          have hnext : pre.length + 8 + (if Tag.SameUuid ⟨t.block, t.flags⟩ then 0 else 16) =
              (pre ++ (beBytes 4 t.block ++ beBytes 4 t.flags ++ t.uuid)).length := by
            change pre.length + 8 + (if t.SameUuid then 0 else 16) = _
            simp only [List.length_append, length_beBytes, ht.uuid_length]
            omega
          rw [hnext]
          congr 1
          refine ih hrest hts fuel (Nat.le_of_succ_le_succ hfuel) ?_
          rw [hblock]
          simp only [List.append_assoc]

theorem IsDescriptor.tags_eq {ts : List Logged} (h : IsDescriptor blksz sequence ts block) :
    descriptorTags blksz block = ts.map Logged.toTag := by
  obtain ⟨rest, hblock⟩ := h.encoded
  have hlen (ts : List Logged) : ts.length ≤ (ts.flatMap Logged.encode).length := by
    induction ts with
    | nil => exact le_rfl
    | cons t ts ih =>
        rw [List.flatMap_cons, List.length_append, List.length_cons, Logged.encode]
        simp only [List.length_append, length_beBytes]
        omega
  have hfuel : ts.length ≤ blksz := by
    rw [← h.length, hblock]
    simp only [List.length_append]
    have hle := hlen ts
    omega
  rw [List.append_assoc] at hblock
  have hparse := tagsFrom_eq ts h.last h.tags blksz hfuel hblock h.length
  rwa [length_header] at hparse

theorem IsDescriptor.header {ts : List Logged} (h : IsDescriptor blksz sequence ts block) :
    be32At block 4 = journalDescriptorBlock ∧ be32At block 8 = sequence % 2 ^ 32 := by
  obtain ⟨rest, hblock⟩ := h.encoded
  rw [List.append_assoc] at hblock
  exact be32At_header hblock

theorem IsRevoke.header {bs : List ℕ} (h : IsRevoke blksz sequence bs block) :
    be32At block 4 = journalRevokeBlock ∧ be32At block 8 = sequence % 2 ^ 32 := by
  obtain ⟨rest, hblock⟩ := h.encoded
  rw [List.append_assoc, List.append_assoc] at hblock
  exact be32At_header hblock

theorem IsCommit.header (h : IsCommit sequence block) :
    be32At block 4 = journalCommitBlock ∧ be32At block 8 = sequence % 2 ^ 32 := by
  obtain ⟨rest, hblock⟩ := h
  exact be32At_header hblock

/-- The numbers of a list, read one after the other. -/
theorem map_be32At_eq (pre post : List UInt8) (bs : List ℕ) (hbs : ∀ b ∈ bs, b < 2 ^ 32)
    (hblock : block = pre ++ (bs.flatMap (beBytes 4) ++ post)) :
    ((List.range bs.length).map fun k ↦ be32At block (pre.length + 4 * k)) = bs := by
  induction bs generalizing pre with
  | nil => rfl
  | cons b bs ih =>
      obtain ⟨hb, hrest⟩ := List.forall_mem_cons.mp hbs
      rw [List.flatMap_cons] at hblock
      have hhead : be32At block (pre.length + 4 * 0) = b := by
        rw [be32At_of_eq pre (bs.flatMap (beBytes 4) ++ post) b
          (by rw [hblock]; simp only [List.append_assoc]) (by rw [Nat.mul_zero, Nat.add_zero]),
          Nat.mod_eq_of_lt hb]
      have htail := ih (pre ++ beBytes 4 b) hrest (by rw [hblock]; simp only [List.append_assoc])
      have hshift : ((List.range bs.length).map
        ((fun k ↦ be32At block (pre.length + 4 * k)) ∘ Nat.succ)) =
          (List.range bs.length).map fun k ↦
            be32At block ((pre ++ beBytes 4 b).length + 4 * k) := by
        refine List.map_congr_left fun k _ ↦ ?_
        rw [Function.comp_apply, List.length_append, length_beBytes]
        congr 1
        omega
      rw [List.length_cons, List.range_succ_eq_map, List.map_cons, hhead, List.map_map,
        hshift, htail]

theorem IsRevoke.blocks_eq {bs : List ℕ} (h : IsRevoke blksz sequence bs block)
    (hsize : blksz ≤ 2 ^ 16) :
    revokeBlocks block = bs := by
  obtain ⟨rest, hblock⟩ := h.encoded
  have hlen (bs : List ℕ) : (bs.flatMap (beBytes 4)).length = 4 * bs.length := by
    induction bs with
    | nil => rfl
    | cons b bs ih =>
        rw [List.flatMap_cons, List.length_append, length_beBytes, ih, List.length_cons]
        omega
  have hsmall : 16 + 4 * bs.length ≤ blksz := by
    rw [← h.length, hblock]
    simp only [List.length_append, length_header, length_beBytes, hlen]
    omega
  have hcount : be32At block 12 = 16 + 4 * bs.length := by
    rw [be32At_of_eq (Journal.header journalRevokeBlock sequence) (bs.flatMap (beBytes 4) ++ rest)
      (16 + 4 * bs.length) (by rw [hblock]; simp only [List.append_assoc]) (length_header _ _)]
    exact Nat.mod_eq_of_lt (by omega)
  have hnumber : (be32At block 12 - 16 + 3) / 4 = bs.length := by omega
  have hpre : (Journal.header journalRevokeBlock sequence ++
      beBytes 4 (16 + 4 * bs.length)).length = 16 := by
    rw [List.length_append, length_header, length_beBytes]
  rw [List.append_assoc] at hblock
  have hread := map_be32At_eq (Journal.header journalRevokeBlock sequence ++
    beBytes 4 (16 + 4 * bs.length)) rest bs h.blocks hblock
  rw [hpre] at hread
  rw [revokeBlocks, hnumber]
  exact hread

end MiniPi.Ext4.Journal
