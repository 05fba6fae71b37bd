import MiniPi.Ext4.Alloc
import MiniPi.Lib.Run
import Mathlib

/-!
# New blocks are free blocks

A table of groups is consistent with the set of the blocks that are occupied, by files or by the
metadata of the groups.  A call takes the first free block, as long as a group whose bitmap was
never written is empty when it is its turn.
-/

namespace MiniPi.Ext4.Alloc

open Lib

variable {t : BlockTable} {s s' : ExtFilesystem} {total g k n : ℕ} {occ : Finset ℕ}
  {bitmap : List UInt8}

/-! ## Consistent tables -/

/-- The number of block `k` of group `g`. -/
def BlockTable.blockNo (t : BlockTable) (g k : ℕ) : ℕ := t.first + g * t.blocksPerGroup + k

/-- The number of blocks of group `g` in a filesystem of `total` blocks. -/
def BlockTable.groupSize (t : BlockTable) (total g : ℕ) : ℕ :=
  min t.blocksPerGroup (total - t.blockNo g 0)

/-- The blocks of a group that are not occupied. -/
def BlockTable.freeIn (t : BlockTable) (total : ℕ) (occ : Finset ℕ) (g : ℕ) : Finset ℕ :=
  (Finset.range (t.groupSize total g)).filter fun k ↦ t.blockNo g k ∉ occ

/-- The table says which of the `total` blocks are occupied: by the bitmap of a group that has one,
and by the numbers of free blocks. -/
structure Consistent (t : BlockTable) (total : ℕ) (occ : Finset ℕ) : Prop where
  perGroup_pos : 0 < t.blocksPerGroup
  perGroup_le : t.blocksPerGroup ≤ 8 * t.blksz
  groups : total ≤ t.first + t.noBlkgrp * t.blocksPerGroup
  total_le : total ≤ 2 ^ 48
  length : ∀ g < t.noBlkgrp, (t.groups g).bitmap.length = t.blksz
  bits : ∀ g < t.noBlkgrp, ¬(t.groups g).Uninit → ∀ k < 8 * t.blksz,
    bit (t.groups g).bitmap k = true ↔ t.groupSize total g ≤ k ∨ t.blockNo g k ∈ occ
  free : ∀ g < t.noBlkgrp, (t.groups g).freeBlocks = (t.freeIn total occ g).card
  sbFree : t.sbFreeBlocks = ∑ g ∈ Finset.range t.noBlkgrp, (t.groups g).freeBlocks

theorem blockNo_injective (hpos : 0 < t.blocksPerGroup) {g g' k k' : ℕ} (hk : k < t.blocksPerGroup)
    (hk' : k' < t.blocksPerGroup) (h : t.blockNo g k = t.blockNo g' k') : g = g' ∧ k = k' := by
  have hsum : k + t.blocksPerGroup * g = k' + t.blocksPerGroup * g' := by
    have hg := Nat.mul_comm g t.blocksPerGroup
    have hg' := Nat.mul_comm g' t.blocksPerGroup
    rw [BlockTable.blockNo, BlockTable.blockNo] at h
    omega
  have hdiv := congrArg (· / t.blocksPerGroup) hsum
  have hmod := congrArg (· % t.blocksPerGroup) hsum
  simp only [Nat.add_mul_div_left _ _ hpos, Nat.div_eq_of_lt hk, Nat.div_eq_of_lt hk',
    Nat.zero_add] at hdiv
  simp only [Nat.add_mul_mod_self_left, Nat.mod_eq_of_lt hk, Nat.mod_eq_of_lt hk'] at hmod
  exact ⟨hdiv, hmod⟩

theorem groupSize_le : t.groupSize total g ≤ t.blocksPerGroup := Nat.min_le_left _ _

theorem blockNo_lt (hk : k < t.groupSize total g) : t.blockNo g k < total := by
  have hle : t.groupSize total g ≤ total - t.blockNo g 0 := Nat.min_le_right _ _
  simp only [BlockTable.blockNo, Nat.add_zero] at hle ⊢
  omega

theorem lt_groupSize (hk : k < t.blocksPerGroup) (h : t.blockNo g k < total) :
    k < t.groupSize total g := by
  simp only [BlockTable.groupSize, BlockTable.blockNo, Nat.add_zero, lt_min_iff] at h ⊢
  omega

/-- Every block of the filesystem is a block of one of its groups. -/
theorem Consistent.exists_blockNo (h : Consistent t total occ) (hfirst : t.first ≤ n)
    (hn : n < total) :
    ∃ g k, g < t.noBlkgrp ∧ k < t.groupSize total g ∧ n = t.blockNo g k := by
  obtain ⟨m, rfl⟩ := Nat.exists_eq_add_of_le hfirst
  have hpos := h.perGroup_pos
  have heq : t.first + m = t.blockNo (m / t.blocksPerGroup) (m % t.blocksPerGroup) := by
    rw [BlockTable.blockNo, Nat.add_assoc, Nat.div_add_mod']
  refine ⟨m / t.blocksPerGroup, m % t.blocksPerGroup, ?_, ?_, heq⟩
  · have hgroups := h.groups
    rw [Nat.div_lt_iff_lt_mul hpos]
    omega
  · exact lt_groupSize (Nat.mod_lt _ hpos) (heq ▸ hn)

/-- A group has free blocks exactly when one of its blocks is not occupied. -/
theorem Consistent.free_ne_zero (h : Consistent t total occ) (hg : g < t.noBlkgrp) :
    (t.groups g).freeBlocks ≠ 0 ↔ ∃ k < t.groupSize total g, t.blockNo g k ∉ occ := by
  rw [h.free g hg, ← Nat.pos_iff_ne_zero, Finset.card_pos]
  constructor
  · rintro ⟨k, hk⟩
    obtain ⟨hlt, hocc⟩ := Finset.mem_filter.mp hk
    exact ⟨k, Finset.mem_range.mp hlt, hocc⟩
  · rintro ⟨k, hk, hocc⟩
    exact ⟨k, Finset.mem_filter.mpr ⟨Finset.mem_range.mpr hk, hocc⟩⟩

/-- A group with as many free blocks as bits has no occupied block and no bit that is no block. -/
theorem Consistent.empty (h : Consistent t total occ) (hg : g < t.noBlkgrp)
    (hfree : (t.groups g).freeBlocks = 8 * t.blksz) :
    t.groupSize total g = 8 * t.blksz ∧ ∀ k < 8 * t.blksz, t.blockNo g k ∉ occ := by
  have hcard := h.free g hg
  have hle : (t.freeIn total occ g).card ≤ (Finset.range (t.groupSize total g)).card :=
    Finset.card_filter_le _ _
  have hsize : t.groupSize total g ≤ t.blocksPerGroup := groupSize_le
  have hper := h.perGroup_le
  rw [Finset.card_range] at hle
  have heq : t.groupSize total g = 8 * t.blksz := by omega
  refine ⟨heq, ?_⟩
  have hall : (t.freeIn total occ g).card = (Finset.range (t.groupSize total g)).card := by
    rw [Finset.card_range]
    omega
  rw [BlockTable.freeIn, Finset.card_filter_eq_iff] at hall
  intro k hk
  exact hall k (Finset.mem_range.mpr (heq ▸ hk))

/-! ## Changes of a table -/

/-- Two tables of the same filesystem. -/
structure SameShape (t t' : BlockTable) : Prop where
  blksz : t'.blksz = t.blksz
  perGroup : t'.blocksPerGroup = t.blocksPerGroup
  noBlkgrp : t'.noBlkgrp = t.noBlkgrp

theorem SameShape.blockNo {t' : BlockTable} (h : SameShape t t') (g k : ℕ) :
    t'.blockNo g k = t.blockNo g k := by
  rw [BlockTable.blockNo, BlockTable.first, h.blksz, h.perGroup]
  rfl

/-- The block is marked in a bitmap that is in use. -/
def Marked (t : BlockTable) (n : ℕ) : Prop :=
  ∃ g k, g < t.noBlkgrp ∧ k < t.blocksPerGroup ∧ n = t.blockNo g k ∧ ¬(t.groups g).Uninit ∧
    bit (t.groups g).bitmap k = true

theorem not_uninit_cleared (flags : BitVec 16) :
    ¬(flags &&& ~~~bgBlockUninit &&& bgBlockUninit ≠ 0) := by
  rw [BitVec.and_assoc, BitVec.and_comm (~~~_), BitVec.and_not_self]
  simp

/-- No block is taken. -/
structure Kept (t t' : BlockTable) (total : ℕ) (occ : Finset ℕ) : Prop where
  consistent : Consistent t' total occ
  shape : SameShape t t'
  free : ∀ i, (t'.groups i).freeBlocks = (t.groups i).freeBlocks
  sbFree : t'.sbFreeBlocks = t.sbFreeBlocks
  marked : ∀ n, Marked t n → Marked t' n
  uninit : ∀ i, (t'.groups i).Uninit → (t.groups i).Uninit

theorem Kept.first {t' : BlockTable} (h : Kept t t' total occ) : t'.first = t.first := by
  rw [BlockTable.first, h.shape.blksz]
  rfl

theorem Consistent.kept (h : Consistent t total occ) : Kept t t total occ :=
  ⟨h, ⟨rfl, rfl, rfl⟩, fun _ ↦ rfl, rfl, fun _ ↦ id, fun _ ↦ id⟩

/-- The bitmap of an empty group that was never written is right. -/
theorem Consistent.materialise (h : Consistent t total occ) (hg : g < t.noBlkgrp)
    (hempty : (t.groups g).Uninit → (t.groups g).freeBlocks = 8 * t.blksz) :
    Kept t (t.materialise g) total occ ∧ ¬((t.materialise g).groups g).Uninit := by
  by_cases hinit : (t.groups g).Uninit
  swap
  · rw [BlockTable.materialise, if_neg hinit]
    exact ⟨h.kept, hinit⟩
  obtain ⟨hsize, hnone⟩ := h.empty hg (hempty hinit)
  rw [BlockTable.materialise, if_pos hinit]
  set new : BlockGroup := { t.groups g with
    bitmap := List.replicate t.blksz 0
    bgFlags := (t.groups g).bgFlags &&& ~~~bgBlockUninit } with hnew
  have hfree (i : ℕ) : ((t.setGroup g new).groups i).freeBlocks = (t.groups i).freeBlocks := by
    by_cases hi : i = g
    · rw [BlockTable.setGroup]
      dsimp only
      rw [if_pos hi, hi]
    · rw [BlockTable.setGroup]
      dsimp only
      rw [if_neg hi]
  have hself : (t.setGroup g new).groups g = new := if_pos rfl
  have hother {i : ℕ} (hi : i ≠ g) : (t.setGroup g new).groups i = t.groups i := if_neg hi
  have hinit' : ¬((t.setGroup g new).groups g).Uninit := by
    rw [hself]
    exact not_uninit_cleared _
  refine ⟨⟨⟨h.perGroup_pos, h.perGroup_le, h.groups, h.total_le, ?_, ?_, ?_, ?_⟩, ⟨rfl, rfl, rfl⟩,
    hfree, rfl, ?_, ?_⟩, hinit'⟩
  · intro i hi
    obtain rfl | hne := eq_or_ne i g
    · rw [hself]
      exact List.length_replicate
    · rw [hother hne]
      exact h.length i hi
  · intro i hi hini k hk
    obtain rfl | hne := eq_or_ne i g
    · rw [hself]
      refine iff_of_false (by rw [bit_replicate]; decide) (not_or.mpr ⟨?_, hnone k hk⟩)
      exact Nat.not_le.mpr (hsize.symm ▸ hk : k < t.groupSize total i)
    · rw [hother hne] at hini ⊢
      exact h.bits i hi hini k hk
  · intro i hi
    rw [hfree]
    exact h.free i hi
  · exact h.sbFree.trans (Finset.sum_congr rfl fun i _ ↦ (hfree i).symm)
  · rintro n ⟨i, k, hi, hk, rfl, hini, hbit⟩
    have hne : i ≠ g := by
      rintro rfl
      exact hini hinit
    exact ⟨i, k, hi, hk, rfl, by rwa [hother hne], by rwa [hother hne]⟩
  · intro i hini
    obtain rfl | hne := eq_or_ne i g
    · exact hinit
    · rwa [hother hne] at hini

/-- The blocks that are free when one more is occupied. -/
theorem freeIn_insert (hpos : 0 < t.blocksPerGroup) (hk : k < t.blocksPerGroup) (i : ℕ) :
    t.freeIn total (insert (t.blockNo g k) occ) i =
      if i = g then (t.freeIn total occ g).erase k else t.freeIn total occ i := by
  have hmem {i j : ℕ} : j ∈ t.freeIn total (insert (t.blockNo g k) occ) i ↔
      j ∈ t.freeIn total occ i ∧ ¬(i = g ∧ j = k) := by
    simp only [BlockTable.freeIn, Finset.mem_filter, Finset.mem_range, Finset.mem_insert, not_or,
      and_assoc]
    refine and_congr_right fun hj ↦ ?_
    rw [and_comm]
    refine and_congr_right fun _ ↦ not_congr ⟨fun h ↦ ?_, ?_⟩
    · exact blockNo_injective hpos (hj.trans_le groupSize_le) hk h
    · rintro ⟨rfl, rfl⟩
      rfl
  split_ifs with hi
  · subst hi
    ext j
    rw [hmem, Finset.mem_erase]
    tauto
  · ext j
    rw [hmem]
    tauto

theorem Consistent.sbFree_le (h : Consistent t total occ) : t.sbFreeBlocks ≤ 2 ^ 48 := by
  refine le_trans ?_ h.total_le
  have hsum : t.sbFreeBlocks = ((Finset.range t.noBlkgrp).sigma (t.freeIn total occ)).card := by
    rw [h.sbFree, Finset.card_sigma]
    exact Finset.sum_congr rfl fun g hg ↦ h.free g (Finset.mem_range.mp hg)
  rw [hsum]
  refine (Finset.card_le_card_of_injOn (t := Finset.range total) (fun x ↦ t.blockNo x.1 x.2) ?_
    ?_).trans
    (Finset.card_range total).le
  · rintro ⟨g, k⟩ hx
    obtain ⟨-, hk⟩ := Finset.mem_sigma.mp hx
    exact Finset.mem_coe.mpr (Finset.mem_range.mpr (blockNo_lt
      (Finset.mem_range.mp (Finset.mem_filter.mp hk).1)))
  · rintro ⟨g, k⟩ hx ⟨g', k'⟩ hx' heq
    obtain ⟨-, hk⟩ := Finset.mem_sigma.mp (Finset.mem_coe.mp hx)
    obtain ⟨-, hk'⟩ := Finset.mem_sigma.mp (Finset.mem_coe.mp hx')
    obtain ⟨rfl, rfl⟩ := blockNo_injective h.perGroup_pos
      ((Finset.mem_range.mp (Finset.mem_filter.mp hk).1).trans_le groupSize_le)
      ((Finset.mem_range.mp (Finset.mem_filter.mp hk').1).trans_le groupSize_le) heq
    rfl

/-- One block is taken out of a group. -/
structure Taken (t t' : BlockTable) (total : ℕ) (occ : Finset ℕ) (n : ℕ) : Prop where
  consistent : Consistent t' total (insert n occ)
  shape : SameShape t t'
  first_le : t.first ≤ n
  lt_total : n < total
  fresh : n ∉ occ
  taken : Marked t' n
  marked : ∀ m, Marked t m → Marked t' m
  free : ∃ g < t.noBlkgrp, (t'.groups g).freeBlocks + 1 = (t.groups g).freeBlocks ∧
    (∃ k < t.blocksPerGroup, n = t.blockNo g k) ∧
    ∀ i ≠ g, (t'.groups i).freeBlocks = (t.groups i).freeBlocks
  sbFree : t'.sbFreeBlocks + 1 = t.sbFreeBlocks

section Take

variable {bitmap : List UInt8}

theorem take_groups_self (t : BlockTable) (g : ℕ) (bitmap : List UInt8) :
    (t.take g bitmap).groups g =
      { t.groups g with bitmap, freeBlocks := (t.groups g).freeBlocks - 1 } :=
  if_pos rfl

theorem take_groups_other (bitmap : List UInt8) {i : ℕ} (hi : i ≠ g) :
    (t.take g bitmap).groups i = t.groups i := if_neg hi

theorem take_uninit (bitmap : List UInt8) (i : ℕ) :
    ((t.take g bitmap).groups i).Uninit ↔ (t.groups i).Uninit := by
  by_cases hi : i = g
  · subst hi
    rw [take_groups_self]
    exact Iff.rfl
  · rw [take_groups_other bitmap hi]

theorem Consistent.take_length (h : Consistent t total occ)
    (hlen : bitmap.length = (t.groups g).bitmap.length) {i : ℕ} (hi : i < t.noBlkgrp) :
    ((t.take g bitmap).groups i).bitmap.length = t.blksz := by
  by_cases hig : i = g
  · subst hig
    rw [take_groups_self]
    exact hlen.trans (h.length i hi)
  · rw [take_groups_other bitmap hig]
    exact h.length i hi

/-- One more bit stands for one more occupied block. -/
theorem Consistent.take_bits (h : Consistent t total occ) (hk : k < t.blocksPerGroup)
    (hbit : ∀ j, bit bitmap j = (bit (t.groups g).bitmap j || decide (j = k))) {i j : ℕ}
    (hi : i < t.noBlkgrp) (hinit : ¬(t.groups i).Uninit) (hj : j < 8 * t.blksz) :
    bit ((t.take g bitmap).groups i).bitmap j = true ↔
      t.groupSize total i ≤ j ∨ t.blockNo i j ∈ insert (t.blockNo g k) occ := by
  have hbits := h.bits i hi hinit j hj
  rw [Finset.mem_insert]
  by_cases hig : i = g
  · subst hig
    rw [take_groups_self]
    dsimp only
    rw [hbit, Bool.or_eq_true, hbits, decide_eq_true_iff]
    have heq : t.blockNo i j = t.blockNo i k ↔ j = k := by
      rw [BlockTable.blockNo, BlockTable.blockNo]
      omega
    rw [heq, or_assoc, @or_comm _ (j = k)]
  · rw [take_groups_other bitmap hig, hbits]
    constructor
    · rintro (hpad | hocc)
      · exact Or.inl hpad
      · exact Or.inr (Or.inr hocc)
    · rintro (hpad | heq | hocc)
      · exact Or.inl hpad
      · by_contra hno
        rw [not_or, Nat.not_le] at hno
        exact hig (blockNo_injective h.perGroup_pos (hno.1.trans_le groupSize_le) hk heq).1
      · exact Or.inr hocc

theorem Consistent.take_free (h : Consistent t total occ) (hk : k < t.blocksPerGroup)
    (hmem : k ∈ t.freeIn total occ g) (bitmap : List UInt8) {i : ℕ} (hi : i < t.noBlkgrp) :
    ((t.take g bitmap).groups i).freeBlocks =
      (t.freeIn total (insert (t.blockNo g k) occ) i).card := by
  rw [freeIn_insert h.perGroup_pos hk i]
  by_cases hig : i = g
  · subst hig
    rw [take_groups_self, if_pos rfl, Finset.card_erase_of_mem hmem]
    dsimp only
    rw [h.free i hi]
  · rw [take_groups_other bitmap hig, if_neg hig]
    exact h.free i hi

theorem Consistent.take_sbFree (h : Consistent t total occ) (hg : g < t.noBlkgrp)
    (hne : (t.groups g).freeBlocks ≠ 0) (bitmap : List UInt8) :
    (t.take g bitmap).sbFreeBlocks + 1 = t.sbFreeBlocks ∧
      (t.take g bitmap).sbFreeBlocks =
        ∑ i ∈ Finset.range t.noBlkgrp, ((t.take g bitmap).groups i).freeBlocks := by
  have hmem : g ∈ Finset.range t.noBlkgrp := Finset.mem_range.mpr hg
  have hsum : t.sbFreeBlocks = (t.groups g).freeBlocks +
      ∑ i ∈ (Finset.range t.noBlkgrp).erase g, (t.groups i).freeBlocks :=
    h.sbFree.trans (Finset.add_sum_erase _ (fun i ↦ (t.groups i).freeBlocks) hmem).symm
  have hrest : ∑ i ∈ (Finset.range t.noBlkgrp).erase g, ((t.take g bitmap).groups i).freeBlocks =
      ∑ i ∈ (Finset.range t.noBlkgrp).erase g, (t.groups i).freeBlocks :=
    Finset.sum_congr rfl fun i hi ↦ by rw [take_groups_other bitmap (Finset.ne_of_mem_erase hi)]
  have hsb : (t.take g bitmap).sbFreeBlocks + 1 = t.sbFreeBlocks := by
    have hle := h.sbFree_le
    change (t.sbFreeBlocks + 2 ^ 64 - 1) % 2 ^ 64 % 2 ^ 48 + 1 = t.sbFreeBlocks
    omega
  refine ⟨hsb, ?_⟩
  rw [← Finset.add_sum_erase _ (fun i ↦ ((t.take g bitmap).groups i).freeBlocks) hmem, hrest,
    take_groups_self]
  dsimp only
  omega

end Take

theorem Consistent.take (h : Consistent t total occ) (hg : g < t.noBlkgrp)
    (hinit : ¬(t.groups g).Uninit) (hk : k < t.groupSize total g)
    (hfresh : t.blockNo g k ∉ occ) {b : UInt8} (hb : (t.groups g).bitmap[k / 8]? = some b) :
    Taken t (t.take g ((t.groups g).bitmap.set (k / 8) (setBit b (k % 8)))) total occ
      (t.blockNo g k) := by
  have hkper : k < t.blocksPerGroup := hk.trans_le groupSize_le
  have hne : (t.groups g).freeBlocks ≠ 0 := (h.free_ne_zero hg).mpr ⟨k, hk, hfresh⟩
  have hmem : k ∈ t.freeIn total occ g := Finset.mem_filter.mpr ⟨Finset.mem_range.mpr hk, hfresh⟩
  have hlen : ((t.groups g).bitmap.set (k / 8) (setBit b (k % 8))).length =
    (t.groups g).bitmap.length :=
    List.length_set
  have hbit (j : ℕ) : bit ((t.groups g).bitmap.set (k / 8) (setBit b (k % 8))) j =
      (bit (t.groups g).bitmap j || decide (j = k)) := bit_set hb
  generalize (t.groups g).bitmap.set (k / 8) (setBit b (k % 8)) = bitmap at *
  obtain ⟨hsb, hsum⟩ := h.take_sbFree hg hne bitmap
  have hconsistent : Consistent (t.take g bitmap) total (insert (t.blockNo g k) occ) := by
    refine ⟨h.perGroup_pos, h.perGroup_le, h.groups, h.total_le, ?_, ?_, ?_, hsum⟩
    · exact fun i hi ↦ h.take_length hlen hi
    · exact fun i hi hini j hj ↦ h.take_bits hkper hbit hi ((take_uninit bitmap i).not.mp hini) hj
    · exact fun i hi ↦ h.take_free hkper hmem bitmap hi
  refine ⟨hconsistent, ⟨rfl, rfl, rfl⟩, ?_, blockNo_lt hk, hfresh, ?_, ?_, ?_, hsb⟩
  · rw [BlockTable.blockNo]
    omega
  · refine ⟨g, k, hg, hkper, rfl, (take_uninit bitmap g).not.mpr hinit, ?_⟩
    rw [take_groups_self]
    dsimp only
    rw [hbit, decide_eq_true rfl, Bool.or_true]
  · -- a bit that is set stays set
    rintro m ⟨i, j, hi, hj, rfl, hini, hset⟩
    refine ⟨i, j, hi, hj, rfl, (take_uninit bitmap i).not.mpr hini, ?_⟩
    by_cases hig : i = g
    · subst hig
      rw [take_groups_self]
      dsimp only
      rw [hbit, hset, Bool.true_or]
    · rwa [take_groups_other bitmap hig]
  · refine ⟨g, hg, ?_, ⟨k, hkper, rfl⟩, fun i hi ↦ by rw [take_groups_other bitmap hi]⟩
    rw [take_groups_self]
    dsimp only
    omega

theorem Taken.of_kept {t₁ t₂ : BlockTable} (h : Kept t t₁ total occ)
    (h' : Taken t₁ t₂ total occ n) :
    Taken t t₂ total occ n := by
  obtain ⟨hshape, hfree⟩ := And.intro h.shape h.free
  have hfirst : t₁.first = t.first := h.first
  refine ⟨h'.consistent,
    ⟨h'.shape.blksz.trans h.shape.blksz, h'.shape.perGroup.trans h.shape.perGroup,
    h'.shape.noBlkgrp.trans h.shape.noBlkgrp⟩, hfirst ▸ h'.first_le, h'.lt_total, h'.fresh,
    h'.taken, fun m hm ↦ h'.marked m (h.marked m hm), ?_, h'.sbFree.trans h.sbFree⟩
  obtain ⟨g, hg, hless, ⟨k, hk, hn⟩, hother⟩ := h'.free
  refine ⟨g, h.shape.noBlkgrp ▸ hg, hless.trans (hfree g), ⟨k, h.shape.perGroup ▸ hk, ?_⟩,
    fun i hi ↦ (hother i hi).trans (hfree i)⟩
  rw [hn, h.shape.blockNo]

/-! ## Calls -/

/-- The group that is next has a full bitmap or is the first one, it is empty if its bitmap was
never written, and the numbers of its blocks fit into a `long`; if no group has a free block, the
numbers of all blocks fit into 32 bits. -/
structure Safe (t : BlockTable) : Prop where
  next : ∀ g < t.noBlkgrp, (t.groups g).freeBlocks ≠ 0 → (∀ j < g, (t.groups j).freeBlocks = 0) →
    (g = 0 ∨ t.blocksPerGroup = 8 * t.blksz) ∧
      ((t.groups g).Uninit → (t.groups g).freeBlocks = 8 * t.blksz) ∧
      t.first + (g + 1) * t.blocksPerGroup ≤ 2 ^ 31
  full : (∀ g < t.noBlkgrp, (t.groups g).freeBlocks = 0) →
    t.first + t.noBlkgrp * t.blocksPerGroup < 2 ^ 32

/-- After the first call no block up to the one that was returned last is free. -/
structure Inv (s : ExtFilesystem) (total : ℕ) (occ : Finset ℕ) : Prop where
  consistent : Consistent s.toBlockTable total occ
  currBlkno_lt : s.firstPassBbmap ≠ 0 → s.currBlkno < 2 ^ 32
  below : s.firstPassBbmap ≠ 0 → ∀ n, s.first ≤ n → n ≤ s.currBlkno → n < total → n ∈ occ

/-- What is right about a call: it takes a free block, or it fails and takes none. -/
def Sound (t : BlockTable) (total : ℕ) (occ : Finset ℕ) (s' : ExtFilesystem) : NewBlk → Prop
  | .block n => Taken t s'.toBlockTable total occ n ∧ Inv s' total (insert n occ)
  | .fail => Kept t s'.toBlockTable total occ ∧ Inv s' total occ
  | _ => False

theorem Safe.of_kept {t' : BlockTable} (h : Safe t) (hkept : Kept t t' total occ) : Safe t' := by
  have hfirst : t'.first = t.first := hkept.first
  constructor
  · intro g hg hne hbefore
    rw [hkept.free] at hne
    obtain ⟨h₁, h₂, h₃⟩ := h.next g (hkept.shape.noBlkgrp ▸ hg) hne
      fun j hj ↦ (hkept.free j) ▸ hbefore j hj
    rw [hkept.shape.perGroup, hkept.shape.blksz, hkept.free, hfirst]
    exact ⟨h₁, fun hini ↦ h₂ (hkept.uninit g hini), h₃⟩
  · intro hall
    rw [hfirst, hkept.shape.noBlkgrp, hkept.shape.perGroup]
    exact h.full fun g hg ↦ (hkept.free g) ▸ hall g (hkept.shape.noBlkgrp.symm ▸ hg)

theorem Sound.of_kept {t' : BlockTable} {o : NewBlk} (hkept : Kept t t' total occ)
    (h : Sound t' total occ s' o) : Sound t total occ s' o := by
  cases o with
  | block n => exact ⟨.of_kept hkept h.1, h.2⟩
  | fail =>
      obtain ⟨h₁, h₂⟩ := h
      exact ⟨⟨h₁.consistent, ⟨h₁.shape.blksz.trans hkept.shape.blksz,
        h₁.shape.perGroup.trans hkept.shape.perGroup, h₁.shape.noBlkgrp.trans hkept.shape.noBlkgrp⟩,
        fun i ↦ (h₁.free i).trans (hkept.free i), h₁.sbFree.trans hkept.sbFree,
        fun n hn ↦ h₁.marked n (hkept.marked n hn), fun i hi ↦ hkept.uninit i (h₁.uninit i hi)⟩, h₂⟩
  | outOfRange => exact h
  | running => exact h

/-- The blocks of a group without free blocks are occupied. -/
theorem Consistent.mem_of_full (h : Consistent t total occ) (hg : g < t.noBlkgrp)
    (hfull : (t.groups g).freeBlocks = 0) (hk : k < t.groupSize total g) : t.blockNo g k ∈ occ := by
  by_contra hno
  exact (h.free_ne_zero hg).mpr ⟨k, hk, hno⟩ hfull

/-- A group whose blocks are occupied has no free blocks. -/
theorem Consistent.full_of_mem (h : Consistent t total occ) (hg : g < t.noBlkgrp)
    (hocc : ∀ k < t.groupSize total g, t.blockNo g k ∈ occ) : (t.groups g).freeBlocks = 0 := by
  by_contra hne
  obtain ⟨k, hk, hno⟩ := (h.free_ne_zero hg).mp hne
  exact hno (hocc k hk)

theorem le_of_blockNo_le {g' k' : ℕ} (hk : k < t.blocksPerGroup)
    (h : t.blockNo g' k' ≤ t.blockNo g k) :
    g' ≤ g := by
  by_contra hlt
  have hmul : (g + 1) * t.blocksPerGroup ≤ g' * t.blocksPerGroup :=
    Nat.mul_le_mul_right _ (Nat.not_le.mp hlt)
  rw [Nat.succ_mul] at hmul
  simp only [BlockTable.blockNo] at h
  omega

theorem blockNo_lt_of_lt {g' k' : ℕ} (hk : k < t.blocksPerGroup) (h : g < g') :
    t.blockNo g k < t.blockNo g' k' := by
  by_contra hle
  exact absurd (le_of_blockNo_le hk (Nat.not_lt.mp hle)) (Nat.not_le.mpr h)

/-- A clear bit stands for a free block. -/
theorem Consistent.free_of_clear (h : Consistent t total occ) (hg : g < t.noBlkgrp)
    (hinit : ¬(t.groups g).Uninit) (hk : k < 8 * t.blksz)
    (hclear : bit (t.groups g).bitmap k = false) :
    k < t.groupSize total g ∧ t.blockNo g k ∉ occ := by
  have hno : ¬(t.groupSize total g ≤ k ∨ t.blockNo g k ∈ occ) := by
    rw [← h.bits g hg hinit k hk, hclear]
    decide
  rw [not_or, Nat.not_le] at hno
  exact hno

/-- A group with a free block has a first clear bit. -/
theorem Consistent.exists_first_clear (h : Consistent t total occ) (hg : g < t.noBlkgrp)
    (hinit : ¬(t.groups g).Uninit) (hfree : (t.groups g).freeBlocks ≠ 0) :
    ∃ k < 8 * t.blksz, bit (t.groups g).bitmap k = false ∧
      ∀ j < k, bit (t.groups g).bitmap j = true := by
  obtain ⟨k, hk, hfresh⟩ := (h.free_ne_zero hg).mp hfree
  have hk8 : k < 8 * t.blksz := (hk.trans_le groupSize_le).trans_le h.perGroup_le
  have hclear : bit (t.groups g).bitmap k = false := by
    rw [← Bool.not_eq_true, h.bits g hg hinit k hk8, not_or, Nat.not_le]
    exact ⟨hk, hfresh⟩
  have hex : ∃ k, bit (t.groups g).bitmap k = false := ⟨k, hclear⟩
  refine ⟨Nat.find hex, (Nat.find_min' hex hclear).trans_lt hk8, Nat.find_spec hex, ?_⟩
  intro j hj
  have hset := Nat.find_min hex hj
  rwa [Bool.not_eq_false] at hset

theorem blockNo_eq (hper : g = 0 ∨ t.blocksPerGroup = 8 * t.blksz) (k : ℕ) :
    t.blockNo g k = t.first + g * (8 * t.blksz) + k := by
  rcases hper with rfl | hper
  · rw [BlockTable.blockNo, Nat.zero_mul, Nat.zero_mul]
  · rw [BlockTable.blockNo, hper]

/-- The number that the first pass returns. -/
theorem firstPass_number (hper : g = 0 ∨ t.blocksPerGroup = 8 * t.blksz)
    (hlt : t.blockNo g k < 2 ^ 32) :
    (0 + k + (if t.blksz = 1024 then 1 else 0) + g * t.blksz * 8) % 2 ^ 32 = t.blockNo g k := by
  have hsum : 0 + k + (if t.blksz = 1024 then 1 else 0) + g * t.blksz * 8 = t.blockNo g k := by
    rw [blockNo_eq hper, BlockTable.first]
    ring
  rw [hsum, Nat.mod_eq_of_lt hlt]

/-- The blocks up to the first one with a clear bit are occupied, if the groups before are full. -/
theorem Consistent.mem_of_first_clear (h : Consistent t total occ) (hg : g < t.noBlkgrp)
    (hinit : ¬(t.groups g).Uninit) (hk : k < t.blocksPerGroup)
    (hset : ∀ j < k, bit (t.groups g).bitmap j = true)
    (hbefore : ∀ j < g, (t.groups j).freeBlocks = 0) (hn : t.first ≤ n) (hle : n ≤ t.blockNo g k)
    (hlt : n < total) : n ∈ insert (t.blockNo g k) occ := by
  obtain ⟨g', k', hg', hk', rfl⟩ := h.exists_blockNo hn hlt
  rw [Finset.mem_insert]
  obtain hlt' | rfl := (le_of_blockNo_le hk hle).lt_or_eq
  · exact Or.inr (h.mem_of_full hg' (hbefore g' hlt') hk')
  · have hle' : k' ≤ k := by
      rw [BlockTable.blockNo, BlockTable.blockNo] at hle
      omega
    obtain hlt' | rfl := hle'.lt_or_eq
    · have hbit := hset k' hlt'
      rw [h.bits g' hg hinit k' ((hlt'.trans hk).trans_le h.perGroup_le)] at hbit
      exact Or.inr (hbit.resolve_left (Nat.not_le.mpr hk'))
    · exact Or.inl rfl

/-- The first pass takes the first free block of the first group that has one. -/
theorem firstPass_spec (hc : Consistent s.toBlockTable total occ) (hsafe : Safe s.toBlockTable)
    (hpass : s.firstPassBbmap = 0) (m i : ℕ) (him : i + m ≤ s.noBlkgrp)
    (hbefore : ∀ j < i, (s.groups j).freeBlocks = 0) :
    Sound s.toBlockTable total occ (firstPass m i s).1 (firstPass m i s).2 := by
  induction m generalizing i with
  | zero =>
      exact ⟨hc.kept, hc, fun h ↦ absurd hpass h, fun h ↦ absurd hpass h⟩
  | succ m ih =>
      by_cases hfree : (s.groups i).freeBlocks = 0
      · rw [firstPass, if_neg (not_not.mpr hfree)]
        refine ih (i + 1) (by omega) ?_
        intro j hj
        obtain hj | rfl := (Nat.le_of_lt_succ hj).lt_or_eq
        · exact hbefore j hj
        · exact hfree
      · have hi : i < s.noBlkgrp := by omega
        obtain ⟨hper, hempty, hsmall⟩ := hsafe.next i hi hfree hbefore
        obtain ⟨hkept, hinit⟩ := hc.materialise hi hempty
        set t₁ := s.toBlockTable.materialise i with ht₁
        have hc₁ := hkept.consistent
        have hi₁ : i < t₁.noBlkgrp := hkept.shape.noBlkgrp.symm ▸ hi
        have hfree₁ : (t₁.groups i).freeBlocks ≠ 0 := by rwa [hkept.free]
        obtain ⟨k, hk, hclear, hfirst⟩ := hc₁.exists_first_clear hi₁ hinit hfree₁
        obtain ⟨hsize, hfresh⟩ := hc₁.free_of_clear hi₁ hinit hk hclear
        have hlen := hc₁.length i hi₁
        obtain ⟨b, hb, hsearch⟩ := getNewBlkNo_spec t₁.blksz (t₁.groups i).bitmap 0
          (by rw [hlen]; exact hk) hclear hfirst
        have htaken := hc₁.take hi₁ hinit hsize hfresh hb
        have hper₁ : i = 0 ∨ t₁.blocksPerGroup = 8 * t₁.blksz := by
          rw [hkept.shape.perGroup, hkept.shape.blksz]
          exact hper
        have hkper : k < t₁.blocksPerGroup := hsize.trans_le groupSize_le
        have hlt : t₁.blockNo i k < 2 ^ 31 := by
          have hfst : t₁.first = s.first := hkept.first
          rw [Nat.succ_mul, ← hkept.shape.perGroup, ← hfst] at hsmall
          rw [BlockTable.blockNo]
          omega
        have hlt' : t₁.blockNo i k < 2 ^ 32 := hlt.trans (by norm_num)
        have hbefore₁ : ∀ j < i, (t₁.groups j).freeBlocks = 0 := by
          intro j hj
          rw [hkept.free]
          exact hbefore j hj
        have hblksz : (s.materialise i).blksz = t₁.blksz := rfl
        have hgroups : (s.materialise i).groups = t₁.groups := rfl
        rw [firstPass, if_pos hfree]
        dsimp only
        rw [hblksz, hgroups, hsearch]
        dsimp only
        rw [firstPass_number hper₁ hlt']
        refine ⟨.of_kept hkept htaken, htaken.consistent, fun _ ↦ hlt', fun _ n hn hle hntotal ↦ ?_⟩
        exact hc₁.mem_of_first_clear hi₁ hinit hkper hfirst hbefore₁ hn hle hntotal

theorem long_natCast {c : ℕ} (h : c < 2 ^ 31) : long (c : ℤ) = c := by
  rw [long, Int.bmod_def]
  omega

/-- `bg_idx` is the group of the block. -/
theorem bgIdx_eq (hfirst : s.first ≤ s.currBlkno) (hlt : s.currBlkno < 2 ^ 32) :
    s.bgIdx = (s.currBlkno - s.first) / s.blocksPerGroup := by
  rw [ExtFilesystem.bgIdx, BlockTable.first] at *
  generalize s.currBlkno = c at *
  generalize s.blocksPerGroup = p at *
  by_cases hsize : s.blksz = 1024
  · rw [if_pos hsize] at *
    obtain ⟨c, rfl⟩ := Nat.exists_eq_add_of_le' hfirst
    have hdiv : (c + 1) / p = c / p + if p ∣ c + 1 then 1 else 0 := Nat.succ_div
    have hle := Nat.div_le_self c p
    rw [Nat.add_sub_cancel]
    by_cases hmod : (c + 1) % p = 0
    · rw [if_pos (Nat.dvd_of_mod_eq_zero hmod)] at hdiv
      rw [if_pos ⟨hsize, hmod⟩, hdiv]
      generalize c / p = x at *
      omega
    · rw [if_neg (fun h ↦ hmod (Nat.mod_eq_zero_of_dvd h))] at hdiv
      rw [if_neg (fun h ↦ hmod h.2)]
      exact hdiv
  · rw [if_neg hsize, if_neg (fun h ↦ hsize h.1), Nat.sub_zero]

/-! ## The search -/

/-- What holds each time the search restarts: all blocks before the next one are occupied. -/
structure Searching (s : ExtFilesystem) (total : ℕ) (occ : Finset ℕ) : Prop where
  consistent : Consistent s.toBlockTable total occ
  safe : Safe s.toBlockTable
  lt : s.currBlkno < 2 ^ 32
  first_le : s.first ≤ s.currBlkno
  below : ∀ n, s.first ≤ n → n < s.currBlkno → n < total → n ∈ occ

/-- The place of the next block in its group. -/
def ExtFilesystem.bgBit (s : ExtFilesystem) : ℕ := (s.currBlkno - s.first) % s.blocksPerGroup

theorem Searching.bgBit_lt (h : Searching s total occ) : s.bgBit < s.blocksPerGroup :=
  Nat.mod_lt _ h.consistent.perGroup_pos

theorem Searching.currBlkno_eq (h : Searching s total occ) :
    s.currBlkno = s.blockNo s.bgIdx s.bgBit := by
  have hdiv := Nat.div_add_mod' (s.currBlkno - s.first) s.blocksPerGroup
  have hfirst := h.first_le
  rw [BlockTable.blockNo, bgIdx_eq h.first_le h.lt, ExtFilesystem.bgBit]
  omega

theorem Searching.full_before (h : Searching s total occ) (hlt : s.bgIdx < s.noBlkgrp) :
    ∀ j < s.bgIdx, (s.groups j).freeBlocks = 0 := by
  intro j hj
  refine h.consistent.full_of_mem (hj.trans hlt) fun k hk ↦ ?_
  refine h.below _ ?_ ?_ (blockNo_lt hk)
  · rw [BlockTable.blockNo]
    omega
  · rw [h.currBlkno_eq]
    exact blockNo_lt_of_lt (hk.trans_le groupSize_le) hj

theorem Searching.sound_fail (h : Searching s total occ) (hend : s.noBlkgrp ≤ s.bgIdx) :
    Sound s.toBlockTable total occ s .fail := by
  refine ⟨h.consistent.kept, h.consistent, fun _ ↦ h.lt,
    fun _ n hn hle hntotal ↦ h.below n hn (hle.lt_of_ne ?_) hntotal⟩
  rintro rfl
  have hmul := Nat.mul_le_mul_right s.blocksPerGroup hend
  have hgroups := h.consistent.groups
  rw [h.currBlkno_eq, BlockTable.blockNo] at hntotal
  omega

theorem Searching.next_lt (h : Searching s total occ) (hlt : s.bgIdx < s.noBlkgrp)
    (hfull : (s.groups s.bgIdx).freeBlocks = 0) :
    (s.bgIdx + 1) * s.blocksPerGroup + s.first < 2 ^ 32 := by
  have hbefore := h.full_before hlt
  by_cases hex : ∃ g, g < s.noBlkgrp ∧ (s.groups g).freeBlocks ≠ 0
  · have hspec := Nat.find_spec hex
    have hmin := @Nat.find_min _ _ hex
    generalize Nat.find hex = g at *
    have hqg : s.bgIdx < g := by
      by_contra hle
      obtain hlt' | rfl := (Nat.not_lt.mp hle).lt_or_eq
      · exact hspec.2 (hbefore g hlt')
      · exact hspec.2 hfull
    have hsmall := (h.safe.next g hspec.1 hspec.2 fun j hj ↦ by
      by_contra hne
      exact hmin hj ⟨hj.trans hspec.1, hne⟩).2.2
    have hmul : (s.bgIdx + 1) * s.blocksPerGroup ≤ (g + 1) * s.blocksPerGroup :=
      Nat.mul_le_mul_right _ (by omega)
    change s.first + (g + 1) * s.blocksPerGroup ≤ 2 ^ 31 at hsmall
    omega
  · have hall := h.safe.full fun g hg ↦ by
      by_contra hne
      exact hex ⟨g, hg, hne⟩
    have hmul : (s.bgIdx + 1) * s.blocksPerGroup ≤ s.noBlkgrp * s.blocksPerGroup :=
      Nat.mul_le_mul_right _ hlt
    change s.first + s.noBlkgrp * s.blocksPerGroup < 2 ^ 32 at hall
    omega

/-- A full group is left out. -/
theorem Searching.nextGroup (h : Searching s total occ) (hlt : s.bgIdx < s.noBlkgrp)
    (hfull : (s.groups s.bgIdx).freeBlocks = 0) :
    Searching { s with currBlkno := (s.bgIdx + 1) * s.blocksPerGroup + s.first } total occ := by
  refine ⟨h.consistent, h.safe, h.next_lt hlt hfull, Nat.le_add_left _ _, ?_⟩
  intro n hn hnlt hntotal
  obtain ⟨g, k, hg, hk, rfl⟩ := h.consistent.exists_blockNo hn hntotal
  have hle : g ≤ s.bgIdx := by
    by_contra hgt
    have hmul : (s.bgIdx + 1) * s.blocksPerGroup ≤ g * s.blocksPerGroup :=
      Nat.mul_le_mul_right _ (Nat.not_le.mp hgt)
    change s.blockNo g k < (s.bgIdx + 1) * s.blocksPerGroup + s.first at hnlt
    rw [BlockTable.blockNo] at hnlt
    omega
  obtain hlt' | rfl := hle.lt_or_eq
  · exact h.consistent.mem_of_full hg (h.full_before hlt g hlt') hk
  · exact h.consistent.mem_of_full hg hfull hk

/-- What the group of the next block is like once its bitmap is there. -/
structure Ready (s : ExtFilesystem) : Prop where
  lt : s.bgIdx < s.noBlkgrp
  init : ¬(s.groups s.bgIdx).Uninit
  blocks : s.bgIdx = 0 ∨ s.blocksPerGroup = 8 * s.blksz
  number_lt : s.currBlkno < 2 ^ 31

theorem Searching.materialise (h : Searching s total occ) (hlt : s.bgIdx < s.noBlkgrp)
    (hfree : (s.groups s.bgIdx).freeBlocks ≠ 0) :
    Kept s.toBlockTable (s.materialise s.bgIdx).toBlockTable total occ ∧
      Searching (s.materialise s.bgIdx) total occ ∧ (s.materialise s.bgIdx).bgIdx = s.bgIdx ∧
      Ready (s.materialise s.bgIdx) := by
  obtain ⟨hblocks, hempty, hsmall⟩ := h.safe.next s.bgIdx hlt hfree (h.full_before hlt)
  obtain ⟨hkept, hinit⟩ := h.consistent.materialise hlt hempty
  have hfirst : (s.materialise s.bgIdx).first = s.first := hkept.first
  have hcurr : (s.materialise s.bgIdx).currBlkno = s.currBlkno := rfl
  have hsearch : Searching (s.materialise s.bgIdx) total occ := by
    refine ⟨hkept.consistent, h.safe.of_kept hkept, h.lt, ?_, ?_⟩
    · rw [hfirst]
      exact h.first_le
    · rw [hfirst]
      exact h.below
  have hidx : (s.materialise s.bgIdx).bgIdx = s.bgIdx := by
    have hper : (s.materialise s.bgIdx).blocksPerGroup = s.blocksPerGroup := hkept.shape.perGroup
    refine (bgIdx_eq hsearch.first_le hsearch.lt).trans ?_
    rw [hfirst, hcurr, hper]
    exact (bgIdx_eq h.first_le h.lt).symm
  refine ⟨hkept, hsearch, hidx, ?_⟩
  constructor
  · rw [hidx]
    exact hkept.shape.noBlkgrp.symm ▸ hlt
  · rw [hidx]
    exact hinit
  · rw [hidx]
    exact hblocks.imp_right fun heq ↦
      hkept.shape.perGroup.trans (heq.trans (hkept.shape.blksz ▸ rfl))
  · have hbit := h.bgBit_lt
    change s.first + (s.bgIdx + 1) * s.blocksPerGroup ≤ 2 ^ 31 at hsmall
    rw [Nat.succ_mul] at hsmall
    rw [hcurr, h.currBlkno_eq, BlockTable.blockNo]
    omega

theorem Searching.bgBit_lt_bits (h : Searching s total occ) : s.bgBit < 8 * s.blksz :=
  h.bgBit_lt.trans_le h.consistent.perGroup_le

/-- The bit of the next block is tested, and set if it is clear. -/
theorem Searching.setBlockBmap_eq (h : Searching s total occ) (hready : Ready s) :
    ∃ b, (s.groups s.bgIdx).bitmap[s.bgBit / 8]? = some b ∧
      ext4fsSetBlockBmap s.blksz (long s.currBlkno) (s.groups s.bgIdx).bitmap s.bgIdx =
        if bit (s.groups s.bgIdx).bitmap s.bgBit then .taken
        else .done ((s.groups s.bgIdx).bitmap.set (s.bgBit / 8) (setBit b (s.bgBit % 8))) := by
  have hbits : s.bgBit < 8 * (s.groups s.bgIdx).bitmap.length := by
    rw [h.consistent.length s.bgIdx hready.lt]
    exact h.bgBit_lt_bits
  have hplace : s.currBlkno = (if s.blksz = 1024 then 1 else 0) + s.bgIdx * (8 * s.blksz) +
    s.bgBit :=
    h.currBlkno_eq.trans (blockNo_eq hready.blocks s.bgBit)
  obtain ⟨b, hb, hset⟩ := setAt_of_lt hbits
  refine ⟨b, hb, ?_⟩
  rw [long_natCast hready.number_lt, ext4fsSetBlockBmap_eq _ hplace, hset]

/-- The next block is taken: the one behind it is tried. -/
theorem Searching.nextBlock (h : Searching s total occ) (hready : Ready s)
    (hbit : bit (s.groups s.bgIdx).bitmap s.bgBit = true) :
    Searching { s with currBlkno := s.currBlkno + 1 } total occ := by
  rw [h.consistent.bits s.bgIdx hready.lt hready.init s.bgBit h.bgBit_lt_bits] at hbit
  refine ⟨h.consistent, h.safe, (Nat.succ_le_of_lt hready.number_lt).trans_lt (by norm_num),
    h.first_le.trans (Nat.le_succ _), ?_⟩
  intro n hn hnlt hntotal
  obtain hlt | rfl := (Nat.le_of_lt_succ hnlt).lt_or_eq
  · exact h.below n hn hlt hntotal
  · rw [h.currBlkno_eq] at hntotal ⊢
    exact hbit.resolve_left (Nat.not_le.mpr (lt_groupSize h.bgBit_lt hntotal))

/-- The next block is free: it is returned. -/
theorem Searching.sound_block (h : Searching s total occ) (hready : Ready s) {b : UInt8}
    (hb : (s.groups s.bgIdx).bitmap[s.bgBit / 8]? = some b)
    (hbit : bit (s.groups s.bgIdx).bitmap s.bgBit = false) {s₂ : ExtFilesystem}
    (htable : s₂.toBlockTable = s.toBlockTable.take s.bgIdx
      ((s.groups s.bgIdx).bitmap.set (s.bgBit / 8) (setBit b (s.bgBit % 8))))
    (hcurr : s₂.currBlkno = s.currBlkno) :
    Sound s.toBlockTable total occ s₂ (.block s.currBlkno) := by
  obtain ⟨hsize, hfresh⟩ := h.consistent.free_of_clear hready.lt hready.init h.bgBit_lt_bits hbit
  have htaken := h.consistent.take hready.lt hready.init hsize hfresh hb
  rw [← h.currBlkno_eq, ← htable] at htaken
  refine ⟨htaken, htaken.consistent, fun _ ↦ hcurr.symm ▸ h.lt, fun _ n hn hle hntotal ↦ ?_⟩
  have hfirst : s₂.first = s.first := by rw [BlockTable.first, htaken.shape.blksz]; rfl
  rw [Finset.mem_insert]
  rw [hcurr] at hle
  rw [hfirst] at hn
  obtain hlt | rfl := hle.lt_or_eq
  · exact Or.inr (h.below n hn hlt hntotal)
  · exact Or.inl rfl

/-- The search takes the first free block. -/
theorem restart_spec (fuel : ℕ) (h : Searching s total occ)
    (hfuel : s.first + s.noBlkgrp * s.blocksPerGroup < fuel + s.currBlkno) (hpos : 0 < fuel) :
    Sound s.toBlockTable total occ (restart fuel s).1 (restart fuel s).2 := by
  induction fuel generalizing s with
  | zero => exact absurd hpos (lt_irrefl 0)
  | succ fuel ih =>
      have hcurr := h.currBlkno_eq
      have hk := h.bgBit_lt
      rw [BlockTable.blockNo] at hcurr
      rw [restart]
      dsimp only
      by_cases hend : s.noBlkgrp ≤ s.bgIdx
      · rw [if_pos hend]
        exact h.sound_fail hend
      have hlt : s.bgIdx < s.noBlkgrp := Nat.not_le.mp hend
      have hmul : (s.bgIdx + 1) * s.blocksPerGroup ≤ s.noBlkgrp * s.blocksPerGroup :=
        Nat.mul_le_mul_right _ hlt
      rw [if_neg hend]
      by_cases hfull : (s.groups s.bgIdx).freeBlocks = 0
      · rw [if_pos hfull, Nat.mod_eq_of_lt (h.next_lt hlt hfull)]
        refine ih (h.nextGroup hlt hfull) ?_ ?_
        · change s.first + s.noBlkgrp * s.blocksPerGroup < fuel +
            ((s.bgIdx + 1) * s.blocksPerGroup + s.first)
          rw [Nat.succ_mul] at hmul ⊢
          omega
        · rw [Nat.succ_mul] at hmul
          omega
      · rw [if_neg hfull]
        obtain ⟨hkept, h₁, hidx, hready⟩ := h.materialise hlt hfull
        have hsame : (s.materialise s.bgIdx).currBlkno = s.currBlkno := rfl
        refine .of_kept hkept ?_
        obtain ⟨hgroups, hper, hfirst⟩ := And.intro hkept.shape.noBlkgrp
          (And.intro hkept.shape.perGroup hkept.first)
        generalize s.materialise s.bgIdx = s₁ at *
        rw [← hidx]
        obtain ⟨b, hb, hset⟩ := h₁.setBlockBmap_eq hready
        rw [hset]
        by_cases hbit : bit (s₁.groups s₁.bgIdx).bitmap s₁.bgBit = true
        · rw [if_pos hbit]
          have hnext := h₁.nextBlock hready hbit
          dsimp only
          rw [Nat.mod_eq_of_lt hnext.lt]
          refine ih hnext ?_ ?_
          · change s₁.first + s₁.noBlkgrp * s₁.blocksPerGroup < fuel + (s₁.currBlkno + 1)
            rw [hfirst, hgroups, hper, hsame]
            omega
          · rw [Nat.succ_mul] at hmul
            omega
        · rw [if_neg hbit]
          dsimp only
          have hcurr₂ : (if s₁.prevBgBitmapIndex ≠ s₁.bgIdx then
              { s₁.log s₁.bgIdx with prevBgBitmapIndex := s₁.bgIdx } else s₁).currBlkno =
                s₁.currBlkno := by
            split_ifs <;> rfl
          rw [hcurr₂]
          refine h₁.sound_block hready hb (Bool.not_eq_true _ ▸ hbit) ?_ rfl
          split_ifs <;> rfl

/-- A search from block `0`, which is before the first group, fails at once. -/
theorem restart_wrapped {fuel : ℕ} (hc : Consistent s.toBlockTable total occ) (hpos : 0 < fuel)
    (hsize : s.blksz = 1024) (hzero : s.currBlkno = 0)
    (hsmall : s.first + s.noBlkgrp * s.blocksPerGroup < 2 ^ 32) :
    restart fuel s = (s, .fail) := by
  obtain ⟨fuel, rfl⟩ := Nat.exists_eq_add_of_lt hpos
  have hle : s.noBlkgrp ≤ s.noBlkgrp * s.blocksPerGroup := Nat.le_mul_of_pos_right _ hc.perGroup_pos
  have hidx : s.bgIdx = 2 ^ 32 - 1 := by
    rw [ExtFilesystem.bgIdx, if_pos ⟨hsize, by rw [hzero]; exact Nat.zero_mod _⟩, hzero,
      Nat.zero_div]
    norm_num
  rw [Nat.zero_add, restart]
  dsimp only
  rw [hidx, if_pos (by omega)]

/-- What a safe call does. -/
theorem ext4fsGetNewBlkNo_spec (alloc : Bool) {fuel : ℕ} (h : Inv s total occ)
    (hsafe : Safe s.toBlockTable) (hfuel : s.first + s.noBlkgrp * s.blocksPerGroup < fuel) :
    Sound s.toBlockTable total occ (ext4fsGetNewBlkNo alloc fuel s).1
      (ext4fsGetNewBlkNo alloc fuel s).2 := by
  have hc := h.consistent
  have hfirst : s.first ≤ 1 := by
    rw [BlockTable.first]
    split_ifs <;> omega
  unfold ext4fsGetNewBlkNo
  cases alloc with
  | false => exact ⟨hc.kept, h⟩
  | true =>
      by_cases hpass : s.firstPassBbmap = 0
      · rw [if_neg (by decide), if_pos hpass]
        exact firstPass_spec hc hsafe hpass _ 0 (by omega) fun j hj ↦ absurd hj (Nat.not_lt_zero j)
      · rw [if_neg (by decide), if_neg hpass]
        have hlt := h.currBlkno_lt hpass
        have hbelow := h.below hpass
        obtain hnext | hwrap := Nat.lt_or_ge (s.currBlkno + 1) (2 ^ 32)
        · rw [Nat.mod_eq_of_lt hnext]
          exact restart_spec (s := { s with currBlkno := s.currBlkno + 1 }) fuel
            ⟨hc, hsafe, hnext, hfirst.trans (Nat.le_add_left _ _),
              fun n hn hnlt ↦ hbelow n hn (Nat.le_of_lt_succ hnlt)⟩
            (hfuel.trans_le (Nat.le_add_right _ _)) (by omega)
        · -- the number wraps around: there was no free block below it, so there is none
          have hall : ∀ g < s.noBlkgrp, (s.groups g).freeBlocks = 0 := by
            by_contra hno
            have hex : ∃ g, g < s.noBlkgrp ∧ (s.groups g).freeBlocks ≠ 0 := by
              push Not at hno
              exact hno
            have hspec := Nat.find_spec hex
            have hmin := @Nat.find_min _ _ hex
            generalize Nat.find hex = g at *
            have hsmall := (hsafe.next g hspec.1 hspec.2 fun j hj ↦ by
              by_contra hne
              exact hmin hj ⟨hj.trans hspec.1, hne⟩).2.2
            refine hspec.2 (hc.full_of_mem hspec.1 fun k hk ↦ hbelow _ ?_ ?_ (blockNo_lt hk))
            · rw [BlockTable.blockNo]
              omega
            · have hkper := hk.trans_le groupSize_le
              rw [Nat.succ_mul] at hsmall
              rw [BlockTable.blockNo]
              omega
          have hzero : (s.currBlkno + 1) % 2 ^ 32 = 0 := by omega
          rw [hzero]
          by_cases hsize : s.blksz = 1024
          · rw [restart_wrapped (s := { s with currBlkno := 0 }) hc (by omega) hsize rfl
              (hsafe.full hall)]
            refine ⟨hc.kept, hc, fun _ ↦ Nat.two_pow_pos _, fun _ n hn hle _ ↦ ?_⟩
            have hone : s.first = 1 := if_pos hsize
            change s.first ≤ n at hn
            change n ≤ 0 at hle
            omega
          · have hnone : s.first = 0 := if_neg hsize
            exact restart_spec (s := { s with currBlkno := 0 }) fuel
              ⟨hc, hsafe, Nat.two_pow_pos _, hnone.le,
                fun n _ hnlt ↦ absurd hnlt (Nat.not_lt_zero n)⟩
              hfuel (by omega)

/-! ## Runs -/

/-- A call with enough steps. -/
def Calls (s : ExtFilesystem) (o : NewBlk) (s' : ExtFilesystem) : Prop :=
  ∃ alloc fuel, s.first + s.noBlkgrp * s.blocksPerGroup < fuel ∧
    ext4fsGetNewBlkNo alloc fuel s = (s', o)

def SafeCalls (s : ExtFilesystem) (o : NewBlk) (s' : ExtFilesystem) : Prop :=
  Safe s.toBlockTable ∧ Calls s o s'

/-- The blocks that were returned. -/
def returned (os : List NewBlk) : List ℕ :=
  os.filterMap fun
    | .block n => some n
    | _ => none

/-- The call lowers the number of the free blocks of the group and that of the superblock by one. -/
def Lowers (t t' : BlockTable) (n : ℕ) : Prop :=
  t'.sbFreeBlocks + 1 = t.sbFreeBlocks ∧
    ∃ g < t.noBlkgrp, (∃ k < t.blocksPerGroup, n = t.blockNo g k) ∧
      (t'.groups g).freeBlocks + 1 = (t.groups g).freeBlocks ∧
      ∀ i ≠ g, (t'.groups i).freeBlocks = (t.groups i).freeBlocks

/-- What is right about a run. -/
structure RunSound (s s' : ExtFilesystem) (total : ℕ) (occ : Finset ℕ) (os : List NewBlk) :
    Prop where
  nodup : (returned os).Nodup
  inside : ∀ n ∈ returned os, s.first ≤ n ∧ n < total
  fresh : ∀ n ∈ returned os, n ∉ occ
  marked : ∀ n ∈ returned os, Marked s'.toBlockTable n
  returns : ∀ o ∈ os, o = .fail ∨ ∃ n, o = .block n

theorem run_spec {os : List NewBlk} (h : Run SafeCalls s os s') (hs : Inv s total occ) :
    RunSound s s' total occ os ∧ (∀ n, Marked s.toBlockTable n → Marked s'.toBlockTable n) ∧
      ∃ occ', Inv s' total occ' := by
  induction h generalizing occ with
  | nil s => exact ⟨⟨List.nodup_nil, by simp [returned], by simp [returned], by simp [returned],
      by simp⟩, fun _ ↦ id, occ, hs⟩
  | @cons s s₁ s' o os hstep _ ih =>
      obtain ⟨hsafe, alloc, fuel, hfuel, hcall⟩ := hstep
      have hsound := ext4fsGetNewBlkNo_spec alloc hs hsafe hfuel
      rw [hcall] at hsound
      cases o with
      | block n =>
          obtain ⟨htaken, hinv⟩ := hsound
          obtain ⟨hrun, hkeeps, hend⟩ := ih hinv
          have hfirst : s₁.first = s.first := by
            rw [BlockTable.first, htaken.shape.blksz]
            rfl
          refine ⟨⟨?_, ?_, ?_, ?_, ?_⟩, fun m hm ↦ hkeeps m (htaken.marked m hm), hend⟩
          · refine List.nodup_cons.mpr ⟨fun hmem ↦ ?_, hrun.nodup⟩
            exact hrun.fresh n hmem (Finset.mem_insert_self n occ)
          · refine List.forall_mem_cons.mpr ⟨⟨htaken.first_le, htaken.lt_total⟩, fun m hm ↦ ?_⟩
            exact hfirst ▸ hrun.inside m hm
          · refine List.forall_mem_cons.mpr ⟨htaken.fresh, fun m hm hocc ↦ ?_⟩
            exact hrun.fresh m hm (Finset.mem_insert_of_mem hocc)
          · exact List.forall_mem_cons.mpr ⟨hkeeps n htaken.taken, hrun.marked⟩
          · exact List.forall_mem_cons.mpr ⟨Or.inr ⟨n, rfl⟩, hrun.returns⟩
      | fail =>
          obtain ⟨hkept, hinv⟩ := hsound
          obtain ⟨hrun, hkeeps, hend⟩ := ih hinv
          have hfirst : s₁.first = s.first := by
            rw [BlockTable.first, hkept.shape.blksz]
            rfl
          exact ⟨⟨hrun.nodup, fun m hm ↦ hfirst ▸ hrun.inside m hm, hrun.fresh, hrun.marked,
            List.forall_mem_cons.mpr ⟨Or.inl rfl, hrun.returns⟩⟩,
            fun m hm ↦ hkeeps m (hkept.marked m hm), hend⟩
      | outOfRange => exact hsound.elim
      | running => exact hsound.elim

/-- In every run of safe calls on a consistent filesystem the blocks that are returned are distinct
free blocks, and every further safe call that returns one lowers both counts by one. -/
theorem allocation_sound {os : List NewBlk} (hc : Consistent s.toBlockTable total occ)
    (hpass : s.firstPassBbmap = 0) (h : Run SafeCalls s os s') :
    RunSound s s' total occ os ∧
      ∀ n s'', SafeCalls s' (.block n) s'' → Lowers s'.toBlockTable s''.toBlockTable n := by
  have hstart : Inv s total occ := ⟨hc, fun hne ↦ absurd hpass hne, fun hne ↦ absurd hpass hne⟩
  obtain ⟨hrun, -, occ', hinv⟩ := run_spec h hstart
  refine ⟨hrun, ?_⟩
  rintro n s'' ⟨hsafe, alloc, fuel, hfuel, hcall⟩
  have hsound := ext4fsGetNewBlkNo_spec alloc hinv hsafe hfuel
  rw [hcall] at hsound
  obtain ⟨htaken, -⟩ := hsound
  obtain ⟨g, hg, hless, hn, hother⟩ := htaken.free
  exact ⟨htaken.sbFree, g, hg, hn, hless, hother⟩

/-! ## A group that was never written -/

/-- One group of `8192` blocks, the first eight of which are occupied. -/
def oneGroup : ExtFilesystem where
  blksz := 1024
  blocksPerGroup := 8192
  noBlkgrp := 1
  groups := fun _ ↦
    { freeBlocks := 8184, bgFlags := 0, blockId := 3, bitmap := 255 :: List.replicate 1023 0 }
  sbFreeBlocks := 8184
  disk := fun _ ↦ []

/-- A full group, and one that was never written, whose first seven blocks are metadata. -/
def uninitGroup : ExtFilesystem where
  blksz := 1024
  blocksPerGroup := 8192
  noBlkgrp := 2
  groups := fun i ↦
    if i = 0 then { freeBlocks := 0, bgFlags := 0, blockId := 3, bitmap := List.replicate 1024 255 }
    else
      { freeBlocks := 8185, bgFlags := bgBlockUninit, blockId := 8195,
        bitmap := List.replicate 1024 0 }
  sbFreeBlocks := 8185
  disk := fun _ ↦ []

theorem card_range_filter_le (m n : ℕ) : ((Finset.range n).filter fun k ↦ m ≤ k).card = n - m := by
  have hIco : ((Finset.range n).filter fun k ↦ m ≤ k) = Finset.Ico m n := by
    ext k
    rw [Finset.mem_filter, Finset.mem_range, Finset.mem_Ico, and_comm]
  rw [hIco, Nat.card_Ico]

theorem oneGroup_consistent : Consistent oneGroup.toBlockTable 8193 (Finset.range 9) := by
  have hno (k : ℕ) : oneGroup.blockNo 0 k = 1 + k := by
    rw [BlockTable.blockNo, Nat.zero_mul]
    rfl
  have hsize : oneGroup.groupSize 8193 0 = 8192 := by
    rw [BlockTable.groupSize, hno]
    rfl
  refine ⟨by decide, by decide, by decide, by decide, ?_, ?_, ?_, ?_⟩
  · rintro g -
    change (255 :: List.replicate 1023 0).length = 1024
    rw [List.length_cons, List.length_replicate]
  · intro g hg _ k hk
    obtain rfl : g = 0 := Nat.lt_one_iff.mp hg
    change k < 8 * 1024 at hk
    rw [hsize, hno, Finset.mem_range]
    change bit (255 :: List.replicate 1023 0) k = true ↔ _
    obtain hlt | hge := Nat.lt_or_ge k 8
    · rw [bit_cons_lt _ _ hlt, testBit_255 hlt]
      exact iff_of_true rfl (Or.inr (by omega))
    · obtain ⟨k, rfl⟩ := Nat.exists_eq_add_of_le' hge
      rw [bit_cons_add, bit_replicate]
      exact iff_of_false (by decide) (by omega)
  · intro g hg
    obtain rfl : g = 0 := Nat.lt_one_iff.mp hg
    have hset : oneGroup.freeIn 8193 (Finset.range 9) 0 = (Finset.range 8192).filter fun k ↦
        8 ≤ k := by
      rw [BlockTable.freeIn, hsize]
      refine Finset.filter_congr fun k _ ↦ ?_
      rw [hno, Finset.mem_range]
      omega
    rw [hset, card_range_filter_le]
    rfl
  · rfl

theorem uninitGroup_consistent : Consistent uninitGroup.toBlockTable 16385 (Finset.range 8200) := by
  have hno (g k : ℕ) : uninitGroup.blockNo g k = 1 + g * 8192 + k := rfl
  have hsize (g : ℕ) (hg : g < 2) : uninitGroup.groupSize 16385 g = 8192 := by
    rw [BlockTable.groupSize, hno]
    change min 8192 _ = 8192
    omega
  refine ⟨by decide, by decide, by decide, by decide, ?_, ?_, ?_, ?_⟩
  · intro g _
    simp only [uninitGroup]
    split_ifs <;> exact List.length_replicate
  · intro g hg hinit k hk
    change g < 2 at hg
    obtain rfl | rfl : g = 0 ∨ g = 1 := by omega
    · change k < 8 * 1024 at hk
      rw [hno, Finset.mem_range]
      have hget : (List.replicate 1024 (255 : UInt8)).getD (k / 8) 0 = 255 := by
        rw [List.getD_eq_getElem?_getD, List.getElem?_replicate, if_pos (by omega),
          Option.getD_some]
      have hbit : bit (List.replicate 1024 255) k = true := by
        rw [bit, hget]
        exact testBit_255 (Nat.mod_lt _ (by decide))
      exact iff_of_true hbit (Or.inr (by omega))
    · exact absurd (by decide) hinit
  · intro g hg
    change g < 2 at hg
    have hset : uninitGroup.freeIn 16385 (Finset.range 8200) g =
        (Finset.range 8192).filter fun k ↦ 8199 - g * 8192 ≤ k := by
      rw [BlockTable.freeIn, hsize g hg]
      refine Finset.filter_congr fun k _ ↦ ?_
      rw [hno, Finset.mem_range]
      omega
    rw [hset, card_range_filter_le]
    obtain rfl | rfl : g = 0 ∨ g = 1 := by omega
    · rfl
    · rfl
  · rfl

theorem safe_of_one {t : BlockTable} (hone : t.noBlkgrp = 1) (hfree : (t.groups 0).freeBlocks ≠ 0)
    (hinit : ¬(t.groups 0).Uninit) (hend : t.first + t.blocksPerGroup ≤ 2 ^ 31) : Safe t := by
  constructor
  · intro g hg _ _
    rw [hone] at hg
    obtain rfl : g = 0 := Nat.lt_one_iff.mp hg
    refine ⟨Or.inl rfl, fun h ↦ absurd h hinit, ?_⟩
    rw [Nat.zero_add, Nat.one_mul]
    exact hend
  · intro hall
    exact absurd (hall 0 (hone ▸ Nat.one_pos)) hfree

/-- The first call searches the bitmap from its start, and the second one goes on behind its
block. -/
theorem allocation_sound_oneGroup :
    let s := (ext4fsGetNewBlkNo true 8194 oneGroup).1
    RunSound oneGroup (ext4fsGetNewBlkNo true 8194 s).1 8193 (Finset.range 9)
      [.block 9, .block 10] := by
  intro s
  have hsafe : Safe oneGroup.toBlockTable := safe_of_one rfl (by decide) (by decide) (by decide)
  have hsafe' : Safe s.toBlockTable :=
    safe_of_one rfl (by decide +kernel) (by decide +kernel) (by decide +kernel)
  have hcall : ext4fsGetNewBlkNo true 8194 oneGroup = (s, .block 9) :=
    Prod.ext rfl (by decide +kernel)
  have hcall' : ext4fsGetNewBlkNo true 8194 s =
      ((ext4fsGetNewBlkNo true 8194 s).1, .block 10) := Prod.ext rfl (by decide +kernel)
  exact (allocation_sound oneGroup_consistent rfl
    (.cons ⟨hsafe, true, 8194, by decide, hcall⟩
      (.cons ⟨hsafe', true, 8194, by decide +kernel, hcall'⟩ (.nil _)))).1

/-- The first block of a group that was never written is returned, although it holds a copy of the
superblock. -/
theorem not_sound_uninit :
    ¬∀ (s s' : ExtFilesystem) (total : ℕ) (occ : Finset ℕ) (os : List NewBlk),
      Consistent s.toBlockTable total occ → s.firstPassBbmap = 0 → Run Calls s os s' →
        RunSound s s' total occ os := by
  intro h
  have hcall : ext4fsGetNewBlkNo true 16386 uninitGroup =
      ((ext4fsGetNewBlkNo true 16386 uninitGroup).1, .block 8193) :=
    Prod.ext rfl (by decide +kernel)
  have hrun := h _ _ _ _ _ uninitGroup_consistent rfl
    (.cons ⟨true, 16386, by decide, hcall⟩ (.nil _))
  exact hrun.fresh 8193 (List.mem_singleton_self _) (Finset.mem_range.mpr (by decide))

end MiniPi.Ext4.Alloc
