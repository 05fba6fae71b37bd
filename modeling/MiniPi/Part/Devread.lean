import MiniPi.Lib.Mem
import Mathlib

/-!
# Reads from a partition

The model of `fs_devread`, with reads of the device that succeed.  An `int` has 32 bits and an
`lbaint_t` has `w`.
-/

namespace MiniPi.Part

open Lib

/-- `struct blk_desc`: a block has `2 ^ log2blksz` bytes, a number that is an `int`. -/
structure BlkDesc where
  log2blksz : ℕ
  log2blksz_lt : log2blksz < 31
  data : Mem

def BlkDesc.blksz (blk : BlkDesc) : ℕ := 2 ^ blk.log2blksz

theorem BlkDesc.blksz_pos (blk : BlkDesc) : 0 < blk.blksz := Nat.two_pow_pos _

/-- `disk_partition_t`: where a partition is on the device. -/
structure DiskPartition (w : ℕ) where
  start : ℕ
  size : ℕ
  start_lt : start < 2 ^ w
  size_lt : size < 2 ^ w

/-- The memory, and the blocks of the device that have been read. -/
structure Io where
  mem : Mem
  blocks : List ℕ

section

variable {w : ℕ} (blk : BlkDesc) (p : DiskPartition w)

/-- The numbers of `n` blocks; a block number is an `lbaint_t`. -/
def blockNumbers (w start n : ℕ) : List ℕ := (List.range n).map fun i ↦ (start + i) % 2 ^ w

/-- The bytes that `blk_dread` reads. -/
def blkDread (w start n : ℕ) : List UInt8 :=
  (blockNumbers w start n).flatMap fun b ↦ blk.data.slice (b * blk.blksz) blk.blksz

/-- The part of `fs_devread` that begins at the start of a sector. -/
def devreadAligned (sector byteLen : ℕ) (io : Io) (buf : ℕ) : Io :=
  let start := (p.start + sector) % 2 ^ w
  let blockLen := byteLen - byteLen % blk.blksz
  if byteLen = 0 then io
  else if blockLen = 0 then
    { mem := io.mem.write buf ((blkDread blk w start 1).take byteLen)
      blocks := io.blocks ++ blockNumbers w start 1 }
  else
    let n := blockLen / blk.blksz
    let io : Io :=
      { mem := io.mem.write buf (blkDread blk w start n)
        blocks := io.blocks ++ blockNumbers w start n }
    if byteLen - blockLen = 0 then io
    else
      let start := (p.start + (sector + n) % 2 ^ w) % 2 ^ w
      { mem := io.mem.write (buf + blockLen) ((blkDread blk w start 1).take (byteLen - blockLen))
        blocks := io.blocks ++ blockNumbers w start 1 }

/-- The check of the partition's boundaries; the sum of the `int`s is negative when both are 0. -/
def OutsidePartition (sector byteOffset byteLen : ℕ) : Prop :=
  p.size ≤ ((sector + ((byteOffset + byteLen : ℤ) - 1) / 2 ^ blk.log2blksz) % 2 ^ w).toNat

instance (sector byteOffset byteLen : ℕ) :
    Decidable (OutsidePartition blk p sector byteOffset byteLen) :=
  inferInstanceAs (Decidable (_ ≤ _))

/-- `fs_devread`: whether it returns 1, and what it has read and stored. -/
def fsDevread (blk : Option BlkDesc) (sector byteOffset byteLen : ℕ) (mem : Mem) (buf : ℕ) :
    Bool × Io :=
  match blk with
  | none => (false, ⟨mem, []⟩)
  | some blk =>
      if OutsidePartition blk p sector byteOffset byteLen then (false, ⟨mem, []⟩)
      else
        let sector := (sector + byteOffset / 2 ^ blk.log2blksz) % 2 ^ w
        let byteOffset := byteOffset % blk.blksz
        if byteOffset = 0 then (true, devreadAligned blk p sector byteLen ⟨mem, []⟩ buf)
        else
          let start := (p.start + sector) % 2 ^ w
          let readlen := min (blk.blksz - byteOffset) byteLen
          let io : Io :=
            { mem := mem.write buf (((blkDread blk w start 1).drop byteOffset).take readlen)
              blocks := blockNumbers w start 1 }
          (true, devreadAligned blk p ((sector + 1) % 2 ^ w) (byteLen - readlen) io (buf + readlen))

end

/-! ## What is read -/

section

variable {w : ℕ} (blk : BlkDesc) (p : DiskPartition w)

/-- The bytes that reads at a position of the partition see, also at positions behind its end. -/
def partView : Mem := fun pos ↦
  blk.data ((p.start + pos / blk.blksz) % 2 ^ w * blk.blksz + pos % blk.blksz)

variable {blk p}

/-- The check of the boundaries for a read of some bytes. -/
theorem outsidePartition_iff {sector byteOffset byteLen : ℕ} (hlen : 0 < byteLen) :
    OutsidePartition blk p sector byteOffset byteLen ↔
      p.size ≤ (sector + (byteOffset + byteLen - 1) / 2 ^ blk.log2blksz) % 2 ^ w := by
  have hlast : (byteOffset + byteLen : ℤ) - 1 = (byteOffset + byteLen - 1 : ℕ) := by omega
  have hnat : ((sector + ((byteOffset + byteLen - 1 : ℕ) : ℤ) / 2 ^ blk.log2blksz) % 2 ^ w).toNat =
      (sector + (byteOffset + byteLen - 1) / 2 ^ blk.log2blksz) % 2 ^ w := by
    rw [← Int.toNat_natCast ((sector + (byteOffset + byteLen - 1) / 2 ^ blk.log2blksz) % 2 ^ w)]
    push_cast
    rfl
  rw [OutsidePartition, hlast, hnat]

theorem blockNumbers_succ (w start n : ℕ) :
    blockNumbers w start (n + 1) = blockNumbers w start n ++ [(start + n) % 2 ^ w] := by
  simp [blockNumbers, List.range_succ]

theorem blockNumbers_add (w start n k : ℕ) :
    blockNumbers w start (n + k) = blockNumbers w start n ++ blockNumbers w (start + n) k := by
  simp [blockNumbers, List.range_add, Function.comp_def, Nat.add_assoc]

theorem blockNumbers_congr {w start start' : ℕ} (h : start % 2 ^ w = start' % 2 ^ w) (n : ℕ) :
    blockNumbers w start n = blockNumbers w start' n := by
  apply List.map_congr_left
  intro i _
  rw [Nat.add_mod, h, ← Nat.add_mod]

theorem mem_blockNumbers {start n b : ℕ} :
    b ∈ blockNumbers w start n ↔ ∃ i < n, (start + i) % 2 ^ w = b := by
  simp [blockNumbers]

theorem blkDread_eq (s n : ℕ) :
    blkDread blk w (p.start + s) n = (partView blk p).slice (s * blk.blksz) (n * blk.blksz) := by
  unfold blkDread
  induction n with
  | zero => simp [blockNumbers, Mem.slice]
  | succ n ih =>
      rw [blockNumbers_succ, List.flatMap_append, ih, Nat.succ_mul, Mem.slice_add,
        List.flatMap_singleton]
      congr 1
      apply Mem.slice_congr
      intro i hi
      have hpos : s * blk.blksz + n * blk.blksz + i = (s + n) * blk.blksz + i := by ring
      have hdiv : ((s + n) * blk.blksz + i) / blk.blksz = s + n := by
        rw [Nat.mul_comm, Nat.mul_add_div blk.blksz_pos, Nat.div_eq_of_lt hi, Nat.add_zero]
      have hmod : ((s + n) * blk.blksz + i) % blk.blksz = i := by
        rw [Nat.mul_add_mod_self_right, Nat.mod_eq_of_lt hi]
      unfold partView
      rw [hpos, hdiv, hmod, Nat.add_assoc]

theorem blkDread_mod (start n : ℕ) : blkDread blk w (start % 2 ^ w) n = blkDread blk w start n := by
  rw [blkDread, blockNumbers_congr (Nat.mod_mod _ _), ← blkDread]

theorem take_blkDread {s ℓ : ℕ} (h : ℓ ≤ blk.blksz) :
    (blkDread blk w ((p.start + s) % 2 ^ w) 1).take ℓ = (partView blk p).slice
    (s * blk.blksz) ℓ := by
  rw [blkDread_mod, blkDread_eq, Nat.one_mul]
  exact Mem.take_drop_slice (k := 0) (by omega)

/-- Two parts that are stored one behind the other. -/
theorem write_slice_slice (m v : Mem) (a b n k : ℕ) :
    (m.write a (v.slice b n)).write (a + n) (v.slice (b + n) k) =
    m.write a (v.slice b (n + k)) := by
  have h := Mem.write_append m a (v.slice b n) (v.slice (b + n) k)
  rwa [Mem.length_slice, ← Mem.slice_add] at h

theorem devreadAligned_eq (s ℓ : ℕ) (io : Io) (buf : ℕ) :
    devreadAligned blk p (s % 2 ^ w) ℓ io buf =
      { mem := io.mem.write buf ((partView blk p).slice (s * blk.blksz) ℓ)
        blocks := io.blocks ++
        blockNumbers w (p.start + s) ((ℓ + blk.blksz - 1) / blk.blksz) } := by
  have hB := blk.blksz_pos
  have hstart : (p.start + s % 2 ^ w) % 2 ^ w = (p.start + s) % 2 ^ w := Nat.add_mod_mod _ _ _
  have hnum (n : ℕ) : blockNumbers w ((p.start + s) % 2 ^ w) n = blockNumbers w (p.start + s) n :=
    blockNumbers_congr (Nat.mod_mod _ _) n
  have hℓ := Nat.div_add_mod ℓ blk.blksz
  have hlt := Nat.mod_lt ℓ hB
  unfold devreadAligned
  simp only [hstart, hnum]
  obtain ⟨q, hq⟩ : ∃ q, ℓ / blk.blksz = q := ⟨_, rfl⟩
  obtain ⟨r, hr⟩ : ∃ r, ℓ % blk.blksz = r := ⟨_, rfl⟩
  rw [hq, hr] at hℓ
  rw [hr] at hlt ⊢
  have hblockLen : ℓ - r = q * blk.blksz := by rw [Nat.mul_comm, ← hℓ, Nat.add_sub_cancel]
  have htail : ℓ - q * blk.blksz = r := by rw [Nat.mul_comm, ← hℓ, Nat.add_sub_cancel_left]
  have hcount : (ℓ + blk.blksz - 1) / blk.blksz = q + (r + blk.blksz - 1) / blk.blksz := by
    rw [← hℓ, Nat.add_assoc, Nat.add_sub_assoc (by omega), Nat.mul_add_div hB]
  have hone (h : r ≠ 0) : (r + blk.blksz - 1) / blk.blksz = 1 :=
    Nat.div_eq_of_lt_le (by omega) (by omega)
  rw [hblockLen, Nat.mul_div_cancel q hB, htail, hcount]
  by_cases hzero : ℓ = 0
  · have hq0 : q = 0 := by
      rw [← hq, hzero, Nat.zero_div]
    have hr0 : r = 0 := by omega
    have hnone : (0 + blk.blksz - 1) / blk.blksz = 0 := Nat.div_eq_of_lt (by omega)
    rw [if_pos hzero, hzero, hq0, hr0, hnone]
    simp [Mem.slice, blockNumbers]
  rw [if_neg hzero]
  by_cases hq0 : q = 0
  · subst hq0
    have hr0 : ℓ = r := by omega
    rw [if_pos (Nat.zero_mul _), take_blkDread (by omega), hone (by omega)]
  rw [if_neg (Nat.mul_ne_zero hq0 hB.ne'), blkDread_mod, blkDread_eq]
  by_cases hr0 : r = 0
  · have hnone : (0 + blk.blksz - 1) / blk.blksz = 0 := Nat.div_eq_of_lt (by omega)
    rw [if_pos hr0, hr0, hnone, show ℓ = q * blk.blksz by rw [Nat.mul_comm]; omega, Nat.add_zero]
  · have hs : (p.start + (s % 2 ^ w + q) % 2 ^ w) % 2 ^ w = (p.start + (s + q)) % 2 ^ w := by
      rw [Nat.add_mod_mod, ← Nat.add_assoc, ← Nat.add_assoc, Nat.add_right_comm, Nat.add_mod_mod,
        Nat.add_right_comm]
    rw [if_neg hr0, hs, take_blkDread (by omega), hone hr0]
    congr 1
    · rw [Nat.add_mul, write_slice_slice, Nat.mul_comm q, hℓ]
    · rw [List.append_assoc, blockNumbers_add, blockNumbers_congr (Nat.mod_mod _ _), Nat.add_assoc]

/-- Behind the check of the boundaries, the sectors from the first one to the last one are read. -/
theorem fsDevread_eq {sector byteOffset byteLen : ℕ} (hlen : 0 < byteLen)
    (hin : ¬ OutsidePartition blk p sector byteOffset byteLen) (mem : Mem) (buf : ℕ) :
    fsDevread p (some blk) sector byteOffset byteLen mem buf =
      (true,
        { mem := mem.write buf ((partView blk p).slice (sector * blk.blksz + byteOffset) byteLen)
          blocks := blockNumbers w (p.start + (sector + byteOffset / blk.blksz))
            ((byteOffset + byteLen - 1) / blk.blksz - byteOffset / blk.blksz + 1) }) := by
  have hB := blk.blksz_pos
  have hoff := Nat.div_add_mod byteOffset blk.blksz
  have hlt := Nat.mod_lt byteOffset hB
  have hlog : 2 ^ blk.log2blksz = blk.blksz := rfl
  unfold fsDevread
  simp only [if_neg hin, hlog]
  obtain ⟨q, hq⟩ : ∃ q, byteOffset / blk.blksz = q := ⟨_, rfl⟩
  obtain ⟨r, hr⟩ : ∃ r, byteOffset % blk.blksz = r := ⟨_, rfl⟩
  rw [hq, hr] at hoff
  rw [hr] at hlt
  rw [hq, hr]
  have hpos : sector * blk.blksz + byteOffset = (sector + q) * blk.blksz + r := by rw [← hoff]; ring
  have hlast : (byteOffset + byteLen - 1) / blk.blksz - q = (r + byteLen - 1) / blk.blksz := by
    rw [← hoff, Nat.add_assoc, Nat.add_sub_assoc (by omega), Nat.mul_add_div hB,
      Nat.add_sub_cancel_left]
  rw [hpos, hlast]
  by_cases hr0 : r = 0
  · have hcount : (byteLen + blk.blksz - 1) / blk.blksz = (byteLen - 1) / blk.blksz + 1 := by
      rw [show byteLen + blk.blksz - 1 = byteLen - 1 + blk.blksz by omega, Nat.add_div_right _ hB]
    rw [if_pos hr0, devreadAligned_eq, hr0, Nat.add_zero, Nat.zero_add, hcount, List.nil_append]
  have hstart : (p.start + (sector + q) % 2 ^ w) % 2 ^ w = (p.start + (sector + q)) % 2 ^ w :=
    Nat.add_mod_mod _ _ _
  have hnum (n : ℕ) : blockNumbers w ((p.start + (sector + q) % 2 ^ w) % 2 ^ w) n =
      blockNumbers w (p.start + (sector + q)) n :=
    blockNumbers_congr (by rw [hstart, Nat.mod_mod]) n
  have hhead : ((blkDread blk w ((p.start + (sector + q) % 2 ^ w) % 2 ^ w) 1).drop r).take
        (min (blk.blksz - r) byteLen) =
      (partView blk p).slice ((sector + q) * blk.blksz + r) (min (blk.blksz - r) byteLen) := by
    rw [blkDread_mod, ← blkDread_mod, hstart, blkDread_mod, blkDread_eq, Nat.one_mul]
    exact Mem.take_drop_slice (by omega)
  rw [if_neg hr0, hhead, hnum, show ((sector + q) % 2 ^ w + 1) % 2 ^ w =
    (sector + q + 1) % 2 ^ w from
    Nat.mod_add_mod _ _ _, devreadAligned_eq]
  obtain hle | hgt := Nat.le_total byteLen (blk.blksz - r)
  · -- the whole read is in the first sector
    have hnone : (byteLen - byteLen + blk.blksz - 1) / blk.blksz = 0 := Nat.div_eq_of_lt (by omega)
    have hzero : (r + byteLen - 1) / blk.blksz = 0 := Nat.div_eq_of_lt (by omega)
    rw [Nat.min_eq_right hle, hnone, hzero]
    simp [Mem.slice, blockNumbers]
  · have hnext : (sector + q + 1) * blk.blksz = (sector + q) * blk.blksz + r + (blk.blksz - r) := by
      rw [Nat.succ_mul]; omega
    have hcount : byteLen - (blk.blksz - r) + blk.blksz - 1 = r + byteLen - 1 := by omega
    rw [Nat.min_eq_left hgt, hnext, write_slice_slice, Nat.add_sub_cancel' hgt, hcount,
      Nat.add_comm (_ / _) 1, blockNumbers_add, Nat.add_assoc p.start]

/-! ## The boundaries of the partition -/

variable (blk p)

/-- The bytes of the partition from a position on, or `none` if it does not have so many. -/
def partitionBytes (pos n : ℕ) : Option (List UInt8) :=
  if pos + n ≤ p.size * blk.blksz then some (blk.data.slice (p.start * blk.blksz + pos) n) else none

/-- The call is refused, or it stores the bytes of the partition; all blocks that it reads are in
the partition. -/
def DevreadExact (sector byteOffset byteLen : ℕ) (mem : Mem) (buf : ℕ) : Prop :=
  let r := fsDevread p (some blk) sector byteOffset byteLen mem buf
  ((r.1 = false ∧ r.2.mem = mem) ∨
    (r.1 = true ∧ ∃ bytes, partitionBytes blk p (sector * blk.blksz + byteOffset) byteLen =
      some bytes ∧
      r.2.mem = mem.write buf bytes)) ∧
  ∀ b ∈ r.2.blocks, p.start ≤ b ∧ b < p.start + p.size

/-- Neither the sector of the last byte nor its block is too large for an `lbaint_t`. -/
def NoWrap (sector byteOffset byteLen : ℕ) : Prop :=
  let last := sector + (byteOffset + byteLen - 1) / blk.blksz
  last < 2 ^ w ∧ p.start + last < 2 ^ w

variable {blk p}

theorem mem_blocks_last {sector byteOffset byteLen : ℕ} (hlen : 0 < byteLen)
    (hin : ¬ OutsidePartition blk p sector byteOffset byteLen) (mem : Mem) (buf : ℕ) :
    (p.start + (sector + (byteOffset + byteLen - 1) / blk.blksz)) % 2 ^ w ∈
      (fsDevread p (some blk) sector byteOffset byteLen mem buf).2.blocks := by
  have hmono : byteOffset / blk.blksz ≤ (byteOffset + byteLen - 1) / blk.blksz :=
    Nat.div_le_div_right (by omega)
  rw [fsDevread_eq hlen hin, mem_blockNumbers]
  refine ⟨(byteOffset + byteLen - 1) / blk.blksz - byteOffset / blk.blksz, Nat.lt_succ_self _, ?_⟩
  congr 1
  omega

/-- Where no number wraps, positions of the partition are positions of the device. -/
theorem partView_slice {pos n : ℕ} (h : ∀ i < n, p.start + (pos + i) / blk.blksz < 2 ^ w) :
    (partView blk p).slice pos n = blk.data.slice (p.start * blk.blksz + pos) n := by
  apply Mem.slice_congr
  intro i hi
  have hdiv := Nat.div_add_mod (pos + i) blk.blksz
  unfold partView
  rw [Nat.mod_eq_of_lt (h i hi)]
  congr 1
  rw [Nat.add_mul, Nat.add_assoc, Nat.mul_comm (_ / _), hdiv, Nat.add_assoc]

/-- The last sector of a read. -/
theorem last_sector (blk : BlkDesc) {sector byteOffset byteLen i : ℕ} (hi : i < byteLen) :
    (sector * blk.blksz + byteOffset + i) / blk.blksz ≤
      sector + (byteOffset + byteLen - 1) / blk.blksz := by
  rw [Nat.add_assoc, Nat.mul_comm, Nat.mul_add_div blk.blksz_pos]
  exact Nat.add_le_add_left (Nat.div_le_div_right (by omega)) _

theorem devreadExact_of_noWrap {sector byteOffset byteLen : ℕ} (hlen : 0 < byteLen)
    (hin : ¬ OutsidePartition blk p sector byteOffset byteLen)
    (hwrap : NoWrap blk p sector byteOffset byteLen) (mem : Mem) (buf : ℕ) :
    DevreadExact blk p sector byteOffset byteLen mem buf := by
  obtain ⟨hlast, hstart⟩ := hwrap
  have hB := blk.blksz_pos
  have hsize : sector + (byteOffset + byteLen - 1) / blk.blksz < p.size := by
    rw [outsidePartition_iff hlen, Nat.not_le] at hin
    exact (Nat.mod_eq_of_lt hlast).symm.trans_lt hin
  have hview : (partView blk p).slice (sector * blk.blksz + byteOffset) byteLen =
      blk.data.slice (p.start * blk.blksz + (sector * blk.blksz + byteOffset)) byteLen := by
    apply partView_slice
    intro i hi
    have := @last_sector blk sector byteOffset _ _ hi
    omega
  unfold DevreadExact
  rw [fsDevread_eq hlen hin]
  constructor
  · right
    refine ⟨rfl, _, if_pos ?_, congrArg (mem.write buf) hview⟩
    have hbytes : byteOffset + byteLen - 1 < (p.size - sector) * blk.blksz :=
      (Nat.div_lt_iff_lt_mul hB).mp (Nat.lt_sub_iff_add_lt'.mpr hsize)
    rw [Nat.sub_mul] at hbytes
    have : sector * blk.blksz ≤ p.size * blk.blksz :=
      Nat.mul_le_mul_right _ (Nat.le_of_add_right_le hsize.le)
    omega
  · intro b hb
    obtain ⟨i, hi, rfl⟩ := mem_blockNumbers.mp hb
    have hmono : byteOffset / blk.blksz ≤ (byteOffset + byteLen - 1) / blk.blksz :=
      Nat.div_le_div_right (by omega)
    generalize (byteOffset + byteLen - 1) / blk.blksz = last at *
    generalize byteOffset / blk.blksz = first at *
    rw [Nat.mod_eq_of_lt (by omega)]
    omega

theorem noWrap_of_devreadExact {sector byteOffset byteLen : ℕ} (hlen : 0 < byteLen)
    (hin : ¬ OutsidePartition blk p sector byteOffset byteLen) {mem : Mem} {buf : ℕ}
    (h : DevreadExact blk p sector byteOffset byteLen mem buf) :
    NoWrap blk p sector byteOffset byteLen := by
  have hB := blk.blksz_pos
  obtain ⟨hbytes, hblocks⟩ := h
  have hlast := (hblocks _ (mem_blocks_last hlen hin mem buf)).1
  rw [fsDevread_eq hlen hin] at hbytes
  obtain ⟨hret, -⟩ | ⟨-, bytes, hbytes, -⟩ := hbytes
  · exact absurd hret Bool.true_eq_false.mp
  rw [partitionBytes] at hbytes
  have hle : sector * blk.blksz + byteOffset + byteLen ≤ p.size * blk.blksz := by
    by_contra hgt
    rw [if_neg hgt] at hbytes
    cases hbytes
  have hsector : sector + (byteOffset + byteLen - 1) / blk.blksz < p.size := by
    have : (sector * blk.blksz + (byteOffset + byteLen - 1)) / blk.blksz < p.size :=
      (Nat.div_lt_iff_lt_mul hB).mpr (by omega)
    rwa [Nat.mul_comm, Nat.mul_add_div hB] at this
  have hw : sector + (byteOffset + byteLen - 1) / blk.blksz < 2 ^ w := hsector.trans p.size_lt
  refine ⟨hw, ?_⟩
  by_contra hge
  -- the number of the last block is below that of the partition's first one
  have := p.start_lt
  have hmod : (p.start + (sector + (byteOffset + byteLen - 1) / blk.blksz)) % 2 ^ w =
      p.start + (sector + (byteOffset + byteLen - 1) / blk.blksz) - 2 ^ w := by
    rw [Nat.mod_eq_sub_mod (by omega), Nat.mod_eq_of_lt (by omega)]
  omega

/-- A read is exact and stays inside the partition if and only if it is refused or the number of its
last block does not wrap. -/
theorem fsDevread_exact_iff (blk : BlkDesc) (p : DiskPartition w) {sector byteOffset byteLen : ℕ}
    (hlen : 0 < byteLen) (mem : Mem) (buf : ℕ) :
    DevreadExact blk p sector byteOffset byteLen mem buf ↔
      OutsidePartition blk p sector byteOffset byteLen ∨
      NoWrap blk p sector byteOffset byteLen := by
  constructor
  · intro h
    by_cases hin : OutsidePartition blk p sector byteOffset byteLen
    · exact .inl hin
    · exact .inr (noWrap_of_devreadExact hlen hin h)
  · intro h
    by_cases hin : OutsidePartition blk p sector byteOffset byteLen
    · have : fsDevread p (some blk) sector byteOffset byteLen mem buf = (false, ⟨mem, []⟩) :=
        if_pos hin
      unfold DevreadExact
      rw [this]
      exact ⟨.inl ⟨rfl, rfl⟩, by simp⟩
    · exact devreadExact_of_noWrap hlen hin (h.resolve_left hin) mem buf

/-- A device of sectors of 512 bytes. -/
def zeroDisk : BlkDesc where
  log2blksz := 9
  log2blksz_lt := by decide
  data _ := 0

/-- A partition behind the first MiB of a device. -/
def dataPartition : DiskPartition 32 where
  start := 2048
  size := 1000
  start_lt := by decide
  size_lt := by decide

theorem fsDevread_exact_iff_first :
    DevreadExact zeroDisk dataPartition 7 100 1000 (fun _ ↦ 1) 0 ↔
      OutsidePartition zeroDisk dataPartition 7 100 1000 ∨
      NoWrap zeroDisk dataPartition 7 100 1000 :=
  fsDevread_exact_iff zeroDisk dataPartition (by decide) (fun _ ↦ 1) 0

/-- The sector behind the last one of an `lbaint_t` is taken for the first one, and the block in
front of the partition is read. -/
theorem fsDevread_reads_outside :
    ¬ DevreadExact zeroDisk dataPartition (2 ^ 32 - 1) 0 1024 (fun _ ↦ 1) 0 ∧
      (fsDevread dataPartition (some zeroDisk) (2 ^ 32 - 1) 0 1024 (fun _ ↦ 1) 0).2.blocks =
        [2047, 2048] := by
  constructor
  · intro h
    have hwrap := noWrap_of_devreadExact (by decide) (by decide) h
    exact absurd hwrap.1 (by decide)
  · decide

end

end MiniPi.Part
