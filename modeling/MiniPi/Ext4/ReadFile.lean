import MiniPi.Part.Devread

/-!
# Reading a file

The model of `ext4fs_read_file`: reads of contiguous blocks are put off and made at once.  The block
map, which is `read_allocated_block` of the inode, is a parameter.  A `long` has as many bits as an
`lbaint_t`.
-/

namespace MiniPi.Ext4

open Lib MiniPi.Part

/-- The size of the blocks of a filesystem: at least a sector, and an `int`. -/
structure BlockSize (blk : BlkDesc) where
  log2BlockSize : ℕ
  log2blksz_le : blk.log2blksz ≤ log2BlockSize
  log2BlockSize_lt : log2BlockSize < 31

/-- A number as an `int`. -/
def int (n : ℤ) : ℤ := Int.bmod n (2 ^ 32)

/-- A number as an `lbaint_t`. -/
def lba (w : ℕ) (n : ℤ) : ℕ := (n % 2 ^ w).toNat

/-- The local variables of the loop, the memory and the blocks of the device that have been read. -/
structure ReadState where
  previousBlockNumber : ℕ
  delayedStart : ℕ := 0
  delayedExtent : ℕ := 0
  delayedSkipfirst : ℕ := 0
  delayedNext : ℕ := 0
  delayedBuf : ℕ := 0
  buf : ℕ
  io : Io

section

variable {w : ℕ} (p : DiskPartition w) {blk : BlkDesc} (bs : BlockSize blk)

namespace BlockSize

def log2FsBlocksize : ℕ := bs.log2BlockSize - blk.log2blksz

def blocksize : ℕ := 2 ^ bs.log2BlockSize

theorem blocksize_pos : 0 < bs.blocksize := Nat.two_pow_pos _

theorem blocksize_eq : bs.blocksize = 2 ^ bs.log2FsBlocksize * blk.blksz := by
  rw [blocksize, BlkDesc.blksz, ← Nat.pow_add, log2FsBlocksize, Nat.sub_add_cancel bs.log2blksz_le]

theorem blocksize_lt : bs.blocksize < 2 ^ 31 := Nat.pow_lt_pow_right (by decide) bs.log2BlockSize_lt

end BlockSize

/-- `ext4fs_devread` of what has been put off. -/
def ReadState.spill (blk : BlkDesc) (s : ReadState) : Except Io ReadState :=
  match fsDevread p (some blk) s.delayedStart (int s.delayedSkipfirst).toNat
    (int s.delayedExtent).toNat
      s.io.mem s.delayedBuf with
  | (false, io) => .error { io with blocks := s.io.blocks ++ io.blocks }
  | (true, io) => .ok { s with io := { io with blocks := s.io.blocks ++ io.blocks } }

section

variable (pos len : ℕ)

def blockcnt : ℕ := (len + pos + bs.blocksize - 1) / bs.blocksize

/-- The bytes of the block with number `i` that are left out. -/
def skipfirst (i : ℕ) : ℤ :=
  if i = pos / bs.blocksize then int (pos - int (bs.blocksize * i)) else 0

/-- The number of bytes of the block with number `i` that are read. -/
def blockend (i : ℕ) : ℤ :=
  let e : ℤ :=
    if i = blockcnt bs pos len - 1 then
      let e := int (len + pos - int (bs.blocksize * i))
      if e = 0 then bs.blocksize else e
    else bs.blocksize
  if i = pos / bs.blocksize then int (e - skipfirst bs pos i) else e

/-- What is put off is now the read of block `blknr`. -/
def ReadState.delay (s : ReadState) (i : ℕ) (blknr : ℕ) : ReadState :=
  { s with
    previousBlockNumber := blknr
    delayedStart := blknr
    delayedExtent := lba w (blockend bs pos len i)
    delayedSkipfirst := lba w (skipfirst bs pos i)
    delayedBuf := s.buf
    delayedNext := lba w (blknr + blockend bs pos len i / 2 ^ blk.log2blksz) }

/-- What is put off now has block `i` at its end. -/
def ReadState.extend (s : ReadState) (i : ℕ) : ReadState :=
  { s with
    delayedExtent := lba w (s.delayedExtent + blockend bs pos len i)
    delayedNext := lba w (s.delayedNext + blockend bs pos len i / 2 ^ blk.log2blksz) }

/-- The bytes of a hole. -/
def ReadState.clear (s : ReadState) (startBuf i : ℕ) : ReadState :=
  let n := min (bs.blocksize - skipfirst bs pos i) (len - (s.buf - startBuf : ℕ))
  { s with io := { s.io with mem := s.io.mem.write s.buf (List.replicate n.toNat 0) } }

/-- The end of a round. -/
def ReadState.advance (s : ReadState) (i : ℕ) : ReadState :=
  { s with buf := s.buf + (bs.blocksize - skipfirst bs pos i).toNat }

/-- One round of the loop. -/
def readBlock (readAllocatedBlock : ℕ → ℤ) (startBuf i : ℕ) (s : ReadState) : Except Io ReadState :=
  let blknr := readAllocatedBlock i
  if blknr < 0 then .error s.io
  else
    let blknr := lba w (blknr * 2 ^ bs.log2FsBlocksize)
    if blknr ≠ 0 then
      if s.previousBlockNumber ≠ 2 ^ w - 1 then
        if s.delayedNext = blknr then
          .ok (ReadState.advance bs pos (s.extend (w := w) bs pos len i) i)
        else
          match s.spill p blk with
          | .error io => .error io
          | .ok s => .ok (ReadState.advance bs pos (s.delay (w := w) bs pos len i blknr) i)
      else .ok (ReadState.advance bs pos (s.delay (w := w) bs pos len i blknr) i)
    else if s.previousBlockNumber ≠ 2 ^ w - 1 then
      match s.spill p blk with
      | .error io => .error io
      | .ok s =>
          let s := { s with previousBlockNumber := 2 ^ w - 1 }
          .ok (ReadState.advance bs pos (s.clear bs pos len startBuf i) i)
    else .ok (ReadState.advance bs pos (s.clear bs pos len startBuf i) i)

/-- The rounds for `n` blocks from number `i` on. -/
def readBlocks (readAllocatedBlock : ℕ → ℤ) (startBuf : ℕ) : ℕ → ℕ → ReadState → Except Io ReadState
  | 0, _, s => .ok s
  | n + 1, i, s =>
      (readBlock p bs pos len readAllocatedBlock startBuf i s).bind
        (readBlocks readAllocatedBlock startBuf n (i + 1))

end

/-- What `ext4fs_read_file` returns, what it stores in `actread`, and what it reads and stores. -/
structure ReadFile where
  ret : ℤ
  actread : Option ℕ
  io : Io

def ext4fsReadFile (readAllocatedBlock : ℕ → ℤ) (filesize pos : ℕ) (len : ℤ) (mem : Mem) (buf : ℕ) :
    ReadFile :=
  let len : ℤ := if filesize < len + pos then filesize - pos else len
  if bs.blocksize ≤ 0 ∨ len ≤ 0 then ⟨-1, none, ⟨mem, []⟩⟩
  else
    let first := pos / bs.blocksize
    let s : ReadState := { previousBlockNumber := 2 ^ w - 1, buf, io := ⟨mem, []⟩ }
    let read := readBlocks p bs pos len.toNat readAllocatedBlock buf
      (blockcnt bs pos len.toNat - first) first s
    let spilt := read.bind fun s ↦ if s.previousBlockNumber ≠ 2 ^ w - 1 then s.spill p blk
      else .ok s
    match spilt with
    | .error io => ⟨-1, none, io⟩
    | .ok s => ⟨0, some len.toNat, s.io⟩

end

/-! ## Machine numbers -/

theorem int_sub_int (a b : ℤ) : int (a - int b) = int (a - b) := Int.sub_bmod_bmod

theorem int_natCast {n : ℕ} (h : n < 2 ^ 31) : int n = n :=
  Int.bmod_eq_of_le_mul_two (by omega) (by omega)

theorem lba_natCast {w n : ℕ} (h : n < 2 ^ w) : lba w n = n := by
  rw [lba, show ((n : ℤ) % 2 ^ w) = ((n % 2 ^ w : ℕ) : ℤ) by push_cast; rfl, Int.toNat_natCast,
    Nat.mod_eq_of_lt h]

theorem lba_add_div {w n d : ℕ} (blk : BlkDesc) (h : n + d / blk.blksz < 2 ^ w) :
    lba w ((n : ℤ) + (d : ℤ) / 2 ^ blk.log2blksz) = n + d / blk.blksz := by
  have hcast : (n : ℤ) + (d : ℤ) / 2 ^ blk.log2blksz = ((n + d / blk.blksz : ℕ) : ℤ) := by
    rw [BlkDesc.blksz]
    push_cast
    rfl
  rw [hcast, lba_natCast h]

/-! ## The parts of a read -/

section

variable {blk : BlkDesc} (bs : BlockSize blk) (pos len : ℕ)

/-- The position in the file where the read of the block with number `i` begins, and that of the
block in front of it ends. -/
def cut (i : ℕ) : ℕ := min (pos + len) (max pos (bs.blocksize * i))

variable {bs pos len}

theorem first_le : bs.blocksize * (pos / bs.blocksize) ≤ pos := Nat.mul_div_le _ _

theorem lt_of_first_lt {i : ℕ} (h : pos / bs.blocksize < i) : pos < bs.blocksize * i := by
  rw [Nat.mul_comm]
  exact (Nat.div_lt_iff_lt_mul bs.blocksize_pos).mp h

theorem lt_blockcnt {i : ℕ} : i < blockcnt bs pos len ↔ bs.blocksize * i < pos + len := by
  have hB := bs.blocksize_pos
  have hsucc : bs.blocksize * (i + 1) = bs.blocksize * i + bs.blocksize := Nat.mul_succ _ _
  rw [blockcnt, Nat.lt_iff_add_one_le, Nat.le_div_iff_mul_le hB, Nat.mul_comm]
  omega

theorem cut_first : cut bs pos len (pos / bs.blocksize) = pos := by
  rw [cut, max_eq_left first_le, min_eq_right (Nat.le_add_right _ _)]

theorem cut_of_first_lt {i : ℕ} (h : pos / bs.blocksize < i) (hi : i < blockcnt bs pos len) :
    cut bs pos len i = bs.blocksize * i := by
  have hpos := lt_of_first_lt h
  have hend := lt_blockcnt.mp hi
  unfold cut
  omega

theorem cut_succ {i : ℕ} (h : pos / bs.blocksize ≤ i) :
    cut bs pos len (i + 1) = min (pos + len) (bs.blocksize * (i + 1)) := by
  have hpos := lt_of_first_lt (Nat.lt_add_one_of_le h)
  unfold cut
  omega

theorem cut_blockcnt (hlen : 0 < len) : cut bs pos len (blockcnt bs pos len) = pos + len := by
  have hlast : ¬ bs.blocksize * blockcnt bs pos len < pos + len := by
    rw [← lt_blockcnt]
    exact lt_irrefl _
  unfold cut
  omega

/-- A part begins in its block. -/
theorem block_le_cut (hlen : 0 < len) {i : ℕ} (h : pos / bs.blocksize ≤ i)
    (hi : i < blockcnt bs pos len) :
    bs.blocksize * i ≤ cut bs pos len i ∧ cut bs pos len i < cut bs pos len (i + 1) := by
  have hend := lt_blockcnt.mp hi
  have hpos := lt_of_first_lt (Nat.lt_add_one_of_le h)
  have hsucc : bs.blocksize * (i + 1) = bs.blocksize * i + bs.blocksize := Nat.mul_succ _ _
  have hB := bs.blocksize_pos
  rw [cut_succ h]
  unfold cut
  omega

theorem cut_succ_le {i : ℕ} (h : pos / bs.blocksize ≤ i) :
    cut bs pos len (i + 1) ≤ bs.blocksize * i + bs.blocksize := by
  rw [cut_succ h, Nat.mul_succ]
  exact min_le_right _ _

theorem skipfirst_eq {i : ℕ} (h : pos / bs.blocksize ≤ i) (hi : i < blockcnt bs pos len) :
    skipfirst bs pos i = (cut bs pos len i - bs.blocksize * i : ℕ) := by
  have hend := lt_blockcnt.mp hi
  have hlt := bs.blocksize_lt
  unfold skipfirst
  split_ifs with hfirst
  · subst hfirst
    have hmod := Nat.mod_lt pos bs.blocksize_pos
    rw [cut_first, int_sub_int, ← Nat.cast_mul, ← Nat.cast_sub first_le, ← Nat.mod_def]
    exact int_natCast (hmod.trans hlt)
  · rw [cut_of_first_lt (by omega) hi, Nat.sub_self, Nat.cast_zero]

theorem blockend_eq (hlen : 0 < len) {i : ℕ} (h : pos / bs.blocksize ≤ i)
    (hi : i < blockcnt bs pos len) :
    blockend bs pos len i = (cut bs pos len (i + 1) - cut bs pos len i : ℕ) := by
  have hend := lt_blockcnt.mp hi
  have hlt := bs.blocksize_lt
  have hsucc : bs.blocksize * (i + 1) = bs.blocksize * i + bs.blocksize := Nat.mul_succ _ _
  have hwhole : (if i = blockcnt bs pos len - 1 then
      if int (len + pos - int (bs.blocksize * i)) = 0 then (bs.blocksize : ℤ)
      else int (len + pos - int (bs.blocksize * i)) else bs.blocksize) =
      (cut bs pos len (i + 1) - bs.blocksize * i : ℕ) := by
    have hlast : i = blockcnt bs pos len - 1 ↔ pos + len ≤ bs.blocksize * (i + 1) := by
      rw [← Nat.not_lt, ← lt_blockcnt]
      omega
    have hrest : int (len + pos - int (bs.blocksize * i)) =
        int ((pos + len - bs.blocksize * i : ℕ) : ℤ) := by
      rw [int_sub_int, ← Nat.cast_mul, ← Nat.cast_add, Nat.add_comm, ← Nat.cast_sub hend.le]
    rw [cut_succ h, hrest, if_congr hlast rfl rfl]
    split_ifs with hle hzero
    · rw [int_natCast (by omega)] at hzero
      omega
    · rw [int_natCast (by omega), min_eq_left hle]
    · rw [min_eq_right (by omega), hsucc, Nat.add_sub_cancel_left]
  obtain ⟨hle, hcut⟩ := block_le_cut hlen h hi
  unfold blockend
  simp only [hwhole]
  split_ifs with hfirst
  · have hbound := @cut_succ_le _ _ _ len _ h
    rw [skipfirst_eq h hi, ← Nat.cast_sub (by omega), Nat.sub_sub_sub_cancel_right hle]
    exact int_natCast (by omega)
  · rw [cut_of_first_lt (by omega) hi]

theorem cut_mono {i j : ℕ} (h : i ≤ j) : cut bs pos len i ≤ cut bs pos len j := by
  have := Nat.mul_le_mul_left bs.blocksize h
  unfold cut
  omega

theorem cut_le (i : ℕ) : cut bs pos len i ≤ pos + len := min_le_left _ _

theorem le_cut (i : ℕ) : pos ≤ cut bs pos len i := by
  unfold cut
  omega

end

/-! ## The bytes of a file -/

section

variable {w : ℕ} (p : DiskPartition w) {blk : BlkDesc} (bs : BlockSize blk) (map : ℕ → ℕ)

/-- The bytes of the mapped blocks, with zeros for holes. -/
def fileView : Mem := fun pos ↦
  let b := map (pos / bs.blocksize)
  if b = 0 then 0 else partView blk p (b * bs.blocksize + pos % bs.blocksize)

/-- A block map whose blocks are in the partition, and none of them is in the file twice. -/
structure MapsInto (filesize : ℕ) : Prop where
  inside : ∀ i, bs.blocksize * i < filesize → map i ≠ 0 →
    (map i + 1) * 2 ^ bs.log2FsBlocksize ≤ p.size
  injective : ∀ i j, map i ≠ 0 → map i = map j → i = j

variable (pos len : ℕ)

/-- The blocks from number `j` up to number `i` follow one another in the partition, and only a
single block is not read from its start. -/
structure Contiguous (j i : ℕ) : Prop where
  first_le : pos / bs.blocksize ≤ j
  lt : j < i
  mapped : map j ≠ 0
  next : ∀ t, j ≤ t → t < i → map t = map j + (t - j)
  aligned : cut bs pos len j = bs.blocksize * j ∨ i = j + 1

variable (mem : Mem) (startBuf : ℕ)

/-- The bytes in front of block `i` have been stored. -/
def Stored (i : ℕ) (io : Io) : Prop :=
  io.mem = mem.write startBuf ((fileView p bs map).slice pos (cut bs pos len i - pos))

/-- The blocks from number `j` up to number `i` have been put off. -/
structure Delayed (s : ReadState) (j i : ℕ) : Prop where
  contiguous : Contiguous bs map pos len j i
  stored : Stored p bs map pos len mem startBuf j s.io
  start : s.delayedStart = map j * 2 ^ bs.log2FsBlocksize
  extent : s.delayedExtent = cut bs pos len i - cut bs pos len j
  skipfirst : s.delayedSkipfirst = cut bs pos len j - bs.blocksize * j
  next : s.delayedNext =
    map (i - 1) * 2 ^ bs.log2FsBlocksize + (cut bs pos len i - cut bs pos len (i - 1)) / blk.blksz
  buf : s.delayedBuf = startBuf + (cut bs pos len j - pos)

/-- What holds in front of the round for block `i`. -/
structure Batched (i : ℕ) (s : ReadState) : Prop where
  buf : i < blockcnt bs pos len → s.buf = startBuf + (cut bs pos len i - pos)
  delayed : (s.previousBlockNumber = 2 ^ w - 1 ∧ Stored p bs map pos len mem startBuf i s.io) ∨
    (s.previousBlockNumber ≠ 2 ^ w - 1 ∧ ∃ j, Delayed p bs map pos len mem startBuf s j i)

variable {p bs map pos len mem startBuf}

theorem fileView_contiguous {j i x : ℕ} (h : Contiguous bs map pos len j i)
    (hj : bs.blocksize * j ≤ x) (hi : x < bs.blocksize * i) :
    fileView p bs map x = partView blk p (map j * bs.blocksize + (x - bs.blocksize * j)) := by
  have hB := bs.blocksize_pos
  have hdiv := Nat.div_add_mod x bs.blocksize
  rw [Nat.mul_comm] at hj hi
  obtain ⟨d, hd⟩ := Nat.exists_eq_add_of_le ((Nat.le_div_iff_mul_le hB).mpr hj)
  have hlt : x / bs.blocksize < i := (Nat.div_lt_iff_lt_mul hB).mpr hi
  rw [Nat.mul_comm] at hj
  have hmap : map (x / bs.blocksize) = map j + d := by
    rw [h.next _ (by omega) hlt, hd, Nat.add_sub_cancel_left]
  have hne : map j + d ≠ 0 := by
    have := h.mapped
    omega
  unfold fileView
  simp only [hmap, if_neg hne]
  congr 1
  have hx : x = bs.blocksize * j + (bs.blocksize * d + x % bs.blocksize) := by
    rw [← Nat.add_assoc, ← Nat.mul_add, ← hd, hdiv]
  rw [Nat.add_mul, Nat.add_assoc]
  congr 1
  rw [Nat.mul_comm d]
  omega

theorem Contiguous.cut_le {j i : ℕ} (h : Contiguous bs map pos len j i) :
    cut bs pos len i ≤ bs.blocksize * i := by
  have hpos : pos < bs.blocksize * i := lt_of_first_lt (h.first_le.trans_lt h.lt)
  unfold cut
  omega

/-- The bytes of the blocks from number `j` up to number `i` are stored behind those in front of
them. -/
theorem Stored.append {j i : ℕ} {io : Io} (h : Stored p bs map pos len mem startBuf j io)
    (hji : j ≤ i) (blocks : List ℕ) :
    Stored p bs map pos len mem startBuf i
      ⟨io.mem.write (startBuf + (cut bs pos len j - pos))
        ((fileView p bs map).slice (cut bs pos len j) (cut bs pos len i - cut bs pos len j)),
        blocks⟩ := by
  have hpos := @le_cut _ bs pos len j
  have hmono : cut bs pos len j ≤ cut bs pos len i := cut_mono hji
  have happ := write_slice_slice mem (fileView p bs map) startBuf pos (cut bs pos len j - pos)
    (cut bs pos len i - cut bs pos len j)
  rw [Nat.add_sub_cancel' hpos, Nat.add_comm (_ - pos), Nat.sub_add_sub_cancel hmono hpos] at happ
  rw [Stored] at h ⊢
  rw [h, happ]

theorem spill_eq {s : ReadState} {j i filesize : ℕ} (hmap : MapsInto p bs map filesize)
    (hfile : pos + len ≤ filesize) (hlen : 0 < len) (hlt : len < 2 ^ 31)
    (hs : Delayed p bs map pos len mem startBuf s j i) (hi : i ≤ blockcnt bs pos len) :
    ∃ io, s.spill p blk = .ok { s with io } ∧ Stored p bs map pos len mem startBuf i io := by
  have hcon := hs.contiguous
  have hji := hcon.lt
  obtain ⟨hj, hcut⟩ := block_le_cut hlen hcon.first_le (by omega)
  have hsize := bs.blocksize_lt
  have hle := hcon.cut_le
  have hmono : cut bs pos len (j + 1) ≤ cut bs pos len i := cut_mono hji
  have hext : cut bs pos len i - cut bs pos len j < 2 ^ 31 := by
    have := @cut_le _ bs pos len i
    have := @le_cut _ bs pos len j
    omega
  have hbound := @cut_succ_le _ _ _ len _ hcon.first_le
  have hskip : cut bs pos len j - bs.blocksize * j < 2 ^ 31 := by omega
  have hlast : map j * 2 ^ bs.log2FsBlocksize +
      (cut bs pos len j - bs.blocksize * j + (cut bs pos len i - cut bs pos len j) - 1) /
      blk.blksz <
        p.size := by
    have hprev := hcon.next (i - 1) (by omega) (by omega)
    have hinside := hmap.inside (i - 1)
      ((lt_blockcnt.mp (show i - 1 < blockcnt bs pos len by omega)).trans_le hfile)
      (by have := hcon.mapped; omega)
    have hsplit : bs.blocksize * i = bs.blocksize * j + bs.blocksize * (i - j) := by
      rw [← Nat.mul_add, Nat.add_sub_cancel' hji.le]
    have hdiv : (cut bs pos len j - bs.blocksize * j + (cut bs pos len i - cut bs pos len j) - 1) /
        blk.blksz < (i - j) * 2 ^ bs.log2FsBlocksize := by
      rw [Nat.div_lt_iff_lt_mul blk.blksz_pos, Nat.mul_assoc, ← bs.blocksize_eq,
        Nat.mul_comm (i - j)]
      omega
    rw [hprev, show map j + (i - 1 - j) + 1 = map j + (i - j) by omega, Nat.add_mul] at hinside
    omega
  have hin : ¬ OutsidePartition blk p (map j * 2 ^ bs.log2FsBlocksize)
      (cut bs pos len j - bs.blocksize * j) (cut bs pos len i - cut bs pos len j) := by
    rw [outsidePartition_iff (by omega), ← BlkDesc.blksz, Nat.mod_eq_of_lt (hlast.trans p.size_lt)]
    exact Nat.not_le.mpr hlast
  have hbytes : (partView blk p).slice (map j * 2 ^ bs.log2FsBlocksize * blk.blksz +
        (cut bs pos len j - bs.blocksize * j)) (cut bs pos len i - cut bs pos len j) =
      (fileView p bs map).slice (cut bs pos len j) (cut bs pos len i - cut bs pos len j) := by
    apply Mem.slice_congr
    intro x hx
    rw [fileView_contiguous hcon (by omega) (by omega), Nat.mul_assoc, ← bs.blocksize_eq]
    congr 1
    omega
  unfold ReadState.spill
  rw [hs.start, hs.extent, hs.skipfirst, hs.buf, int_natCast hskip, int_natCast hext,
    Int.toNat_natCast, Int.toNat_natCast, fsDevread_eq (by omega) hin, hbytes]
  exact ⟨_, rfl, hs.stored.append hji.le _⟩

theorem advance_buf (hlen : 0 < len) {s : ReadState} {i : ℕ} (h : pos / bs.blocksize ≤ i)
    (hi : i < blockcnt bs pos len)
    (hbuf : s.buf = startBuf + (cut bs pos len i - pos)) (hnext : i + 1 < blockcnt bs pos len) :
    (s.advance bs pos i).buf = startBuf + (cut bs pos len (i + 1) - pos) := by
  have hpos := @le_cut _ bs pos len i
  have hle : cut bs pos len i ≤ bs.blocksize * (i + 1) := by
    have := @cut_mono _ bs pos len _ _ (Nat.le_succ i)
    rw [cut_of_first_lt (Nat.lt_add_one_of_le h) hnext] at this
    exact this
  have hsucc : bs.blocksize * (i + 1) = bs.blocksize * i + bs.blocksize := Nat.mul_succ _ _
  rw [cut_of_first_lt (Nat.lt_add_one_of_le h) hnext]
  unfold ReadState.advance
  simp only
  rw [hbuf, skipfirst_eq h hi]
  have hblock := (block_le_cut hlen h hi).1
  omega

/-- Where block `i` is put off, its sector is neither zero nor the mark for nothing. -/
theorem sector_bounds {i filesize : ℕ} (hmap : MapsInto p bs map filesize)
    (hfile : pos + len ≤ filesize) (hi : i < blockcnt bs pos len) (hne : map i ≠ 0) :
    map i * 2 ^ bs.log2FsBlocksize + 2 ^ bs.log2FsBlocksize < 2 ^ w ∧
      map i * 2 ^ bs.log2FsBlocksize ≠ 0 := by
  have hinside := hmap.inside i ((lt_blockcnt.mp hi).trans_le hfile) hne
  rw [Nat.succ_mul] at hinside
  exact ⟨hinside.trans_lt p.size_lt, Nat.mul_ne_zero hne (Nat.two_pow_pos _).ne'⟩

/-- The sectors of a part are those of its block at most. -/
theorem part_div_le {i : ℕ} (h : pos / bs.blocksize ≤ i) (hlen : 0 < len)
    (hi : i < blockcnt bs pos len) :
    (cut bs pos len (i + 1) - cut bs pos len i) / blk.blksz ≤ 2 ^ bs.log2FsBlocksize := by
  have hle := (block_le_cut hlen h hi).1
  have hbound := @cut_succ_le _ _ _ len _ h
  have hB := blk.blksz_pos
  rw [Nat.div_le_iff_le_mul hB, ← bs.blocksize_eq]
  omega

/-- Block `i` is put off as the first one. -/
theorem batched_delay {s : ReadState} {i filesize : ℕ} (hw : 32 ≤ w)
    (hmap : MapsInto p bs map filesize) (hfile : pos + len ≤ filesize) (hlen : 0 < len)
    (hlt : len < 2 ^ 31) (h : pos / bs.blocksize ≤ i) (hi : i < blockcnt bs pos len)
    (hne : map i ≠ 0) (hbuf : s.buf = startBuf + (cut bs pos len i - pos))
    (hs : Stored p bs map pos len mem startBuf i s.io) :
    Batched p bs map pos len mem startBuf (i + 1)
      (ReadState.advance bs pos
        (s.delay (w := w) bs pos len i (map i * 2 ^ bs.log2FsBlocksize)) i) := by
  have hpow : 2 ^ 31 < 2 ^ w := Nat.pow_lt_pow_right (by decide) hw
  obtain ⟨hsector, -⟩ := sector_bounds hmap hfile hi hne
  have hdiv := part_div_le h hlen hi
  have hone := Nat.one_le_two_pow (n := bs.log2FsBlocksize)
  constructor
  · exact advance_buf hlen h hi hbuf
  · right
    refine ⟨?_, i, ?_⟩
    · change map i * 2 ^ bs.log2FsBlocksize ≠ 2 ^ w - 1
      omega
    · constructor
      · refine ⟨h, Nat.lt_succ_self i, hne, ?_, .inr rfl⟩
        intro t ht ht'
        rw [show t = i by omega, Nat.sub_self, Nat.add_zero]
      · exact hs
      · rfl
      · change lba w (blockend bs pos len i) = _
        rw [blockend_eq hlen h hi]
        refine lba_natCast ?_
        have := @cut_le _ bs pos len (i + 1)
        have := @le_cut _ bs pos len i
        omega
      · change lba w (skipfirst bs pos i) = _
        rw [skipfirst_eq h hi]
        refine lba_natCast ?_
        have := (block_le_cut hlen h hi).2
        have := @cut_succ_le _ _ _ len _ h
        have := bs.blocksize_lt
        omega
      · change lba w (((map i * 2 ^ bs.log2FsBlocksize : ℕ) : ℤ) + blockend bs pos len i / _) = _
        rw [blockend_eq hlen h hi, Nat.add_sub_cancel]
        exact lba_add_div blk (by omega)
      · exact hbuf

/-- Block `i` is read together with what has been put off. -/
theorem batched_extend {s : ReadState} {i j filesize : ℕ} (hw : 32 ≤ w)
    (hmap : MapsInto p bs map filesize) (hfile : pos + len ≤ filesize) (hlen : 0 < len)
    (hlt : len < 2 ^ 31) (hi : i < blockcnt bs pos len) (hne : map i ≠ 0)
    (hbuf : s.buf = startBuf + (cut bs pos len i - pos)) (hprev : s.previousBlockNumber ≠ 2 ^ w - 1)
    (hs : Delayed p bs map pos len mem startBuf s j i)
    (hnext : s.delayedNext = map i * 2 ^ bs.log2FsBlocksize) :
    Batched p bs map pos len mem startBuf (i + 1)
      (ReadState.advance bs pos (s.extend (w := w) bs pos len i) i) := by
  have hpow : 2 ^ 31 < 2 ^ w := Nat.pow_lt_pow_right (by decide) hw
  have hcon := hs.contiguous
  obtain ⟨n, rfl⟩ : ∃ n, i = n + 1 := ⟨i - 1, by have := hcon.lt; omega⟩
  have hj := hcon.first_le
  have hjn := hcon.lt
  have hn : pos / bs.blocksize ≤ n := by omega
  have hprevious := hcon.next n (by omega) (by omega)
  obtain ⟨hle, -⟩ := block_le_cut hlen hn (by omega)
  have hcut : cut bs pos len (n + 1) = bs.blocksize * n + bs.blocksize := by
    rw [cut_of_first_lt (by omega) hi, Nat.mul_succ]
  have hk := Nat.two_pow_pos bs.log2FsBlocksize
  have hwhole : cut bs pos len n = bs.blocksize * n := by
    -- behind a part of a block, the next block would have to be the same one
    by_contra hpart
    have hB := bs.blocksize_pos
    have hdiv : (cut bs pos len (n + 1) - cut bs pos len n) / blk.blksz <
        2 ^ bs.log2FsBlocksize := by
      rw [Nat.div_lt_iff_lt_mul blk.blksz_pos, ← bs.blocksize_eq]
      omega
    have hnext' := hs.next
    rw [hnext, Nat.add_sub_cancel] at hnext'
    have hsame : map (n + 1) = map n := by
      have hquot : map (n + 1) * 2 ^ bs.log2FsBlocksize / 2 ^ bs.log2FsBlocksize = _ :=
        congrArg (· / 2 ^ bs.log2FsBlocksize) hnext'
      rwa [Nat.mul_div_cancel _ hk, Nat.mul_comm (map n), Nat.mul_add_div hk, Nat.div_eq_of_lt hdiv,
        Nat.add_zero] at hquot
    exact absurd (hmap.injective _ _ hne hsame) (Nat.succ_ne_self n)
  have hsucc : map (n + 1) = map n + 1 := by
    have hdiv : (cut bs pos len (n + 1) - cut bs pos len n) / blk.blksz =
        2 ^ bs.log2FsBlocksize := by
      rw [hcut, hwhole, Nat.add_sub_cancel_left, bs.blocksize_eq,
        Nat.mul_div_cancel _ blk.blksz_pos]
    have hnext' := hs.next
    rw [hnext, Nat.add_sub_cancel, hdiv, ← Nat.succ_mul] at hnext'
    exact Nat.eq_of_mul_eq_mul_right hk hnext'
  obtain ⟨hsector, -⟩ := sector_bounds hmap hfile hi hne
  have hend : pos / bs.blocksize ≤ n + 1 := by omega
  have hdiv := part_div_le hend hlen hi
  have hmono : cut bs pos len j ≤ cut bs pos len (n + 1) := cut_mono hjn.le
  have hmono' : cut bs pos len (n + 1) ≤ cut bs pos len (n + 1 + 1) := cut_mono (Nat.le_succ _)
  constructor
  · exact advance_buf hlen hend hi hbuf
  · refine .inr ⟨hprev, j, ?_⟩
    constructor
    · refine ⟨hj, by omega, hcon.mapped, ?_, ?_⟩
      · intro t ht ht'
        obtain hlast | hlast := Nat.lt_or_ge t (n + 1)
        · exact hcon.next t ht hlast
        · rw [show t = n + 1 by omega, hsucc, hprevious]
          omega
      · rcases hcon.aligned with haligned | hsingle
        · exact .inl haligned
        · rw [show j = n by omega]
          exact .inl hwhole
    · exact hs.stored
    · exact hs.start
    · change lba w ((s.delayedExtent : ℤ) + blockend bs pos len (n + 1)) = _
      rw [hs.extent, blockend_eq hlen hend hi, ← Nat.cast_add]
      have := @cut_le _ bs pos len (n + 1 + 1)
      have := @le_cut _ bs pos len j
      rw [lba_natCast (by omega)]
      omega
    · exact hs.skipfirst
    · change lba w ((s.delayedNext : ℤ) + blockend bs pos len (n + 1) / _) = _
      rw [hnext, blockend_eq hlen hend hi, Nat.add_sub_cancel]
      exact lba_add_div blk (by omega)
    · exact hs.buf

/-- The bytes of a hole are zeros. -/
theorem batched_clear {s : ReadState} {i : ℕ} (hlen : 0 < len) (h : pos / bs.blocksize ≤ i)
    (hi : i < blockcnt bs pos len) (hhole : map i = 0)
    (hbuf : s.buf = startBuf + (cut bs pos len i - pos)) (hprev : s.previousBlockNumber = 2 ^ w - 1)
    (hs : Stored p bs map pos len mem startBuf i s.io) :
    Batched p bs map pos len mem startBuf (i + 1)
      (ReadState.advance bs pos (s.clear bs pos len startBuf i) i) := by
  obtain ⟨hle, hlt⟩ := block_le_cut hlen h hi
  have hbound := @cut_succ_le _ _ _ len _ h
  have hpos := @le_cut _ bs pos len i
  constructor
  · exact advance_buf hlen h hi hbuf
  refine .inl ⟨hprev, ?_⟩
  have hn : min ((bs.blocksize : ℤ) - skipfirst bs pos i) (len - (s.buf - startBuf : ℕ)) =
      (cut bs pos len (i + 1) - cut bs pos len i : ℕ) := by
    rw [cut_succ h, Nat.mul_succ] at hlt ⊢
    rw [skipfirst_eq h hi, hbuf]
    omega
  have hzeros : List.replicate (cut bs pos len (i + 1) - cut bs pos len i) 0 =
      (fileView p bs map).slice (cut bs pos len i) (cut bs pos len (i + 1) - cut bs pos len i) := by
    symm
    refine List.eq_replicate_iff.mpr ⟨Mem.length_slice, ?_⟩
    intro b hb
    obtain ⟨x, hx, rfl⟩ := List.mem_map.mp hb
    rw [List.mem_range] at hx
    have hblock : (cut bs pos len i + x) / bs.blocksize = i :=
      Nat.div_eq_of_lt_le (by rw [Nat.mul_comm]; omega) (by rw [Nat.mul_comm, Nat.mul_succ]; omega)
    unfold fileView
    simp only [hblock, if_pos hhole]
  change Stored p bs map pos len mem startBuf (i + 1) ⟨s.io.mem.write s.buf (List.replicate
    (min ((bs.blocksize : ℤ) - skipfirst bs pos i) (len - (s.buf - startBuf : ℕ))).toNat 0), _⟩
  rw [hn, Int.toNat_natCast, hzeros, hbuf]
  exact hs.append (Nat.le_succ i) _

theorem readBlock_eq {s : ReadState} {i filesize : ℕ} (hw : 32 ≤ w)
    (hmap : MapsInto p bs map filesize) (hfile : pos + len ≤ filesize) (hlen : 0 < len)
    (hlt : len < 2 ^ 31) (h : pos / bs.blocksize ≤ i) (hi : i < blockcnt bs pos len)
    (hs : Batched p bs map pos len mem startBuf i s) :
    ∃ s', readBlock p bs pos len (fun i ↦ (map i : ℤ)) startBuf i s = .ok s' ∧
      Batched p bs map pos len mem startBuf (i + 1) s' := by
  have hbuf := hs.buf hi
  unfold readBlock
  simp only [if_neg (Int.not_lt.mpr (Int.natCast_nonneg (map i)))]
  by_cases hne : map i = 0
  · have hzero : lba w ((map i : ℤ) * 2 ^ bs.log2FsBlocksize) = 0 := by simp [hne, lba]
    simp only [hzero, ne_eq, not_true_eq_false, if_false]
    obtain ⟨hprev, hstored⟩ | ⟨hprev, j, hdelayed⟩ := hs.delayed
    · simp only [hprev, not_true_eq_false, if_false]
      exact ⟨_, rfl, batched_clear hlen h hi hne hbuf hprev hstored⟩
    · obtain ⟨io, hspill, hstored⟩ := spill_eq hmap hfile hlen hlt hdelayed hi.le
      simp only [hprev, not_false_eq_true, if_true, hspill]
      exact ⟨_, rfl, batched_clear hlen h hi hne hbuf rfl hstored⟩
  · obtain ⟨hsector, hpos⟩ := sector_bounds hmap hfile hi hne
    have hlba : lba w ((map i : ℤ) * 2 ^ bs.log2FsBlocksize) = map i * 2 ^ bs.log2FsBlocksize := by
      rw [show (map i : ℤ) * 2 ^ bs.log2FsBlocksize = ((map i * 2 ^ bs.log2FsBlocksize : ℕ) : ℤ) by
        push_cast; rfl]
      exact lba_natCast ((Nat.le_add_right _ _).trans_lt hsector)
    simp only [hlba, ne_eq, hpos, not_false_eq_true, if_true]
    obtain ⟨hprev, hstored⟩ | ⟨hprev, j, hdelayed⟩ := hs.delayed
    · simp only [hprev, not_true_eq_false, if_false]
      exact ⟨_, rfl, batched_delay hw hmap hfile hlen hlt h hi hne hbuf hstored⟩
    · simp only [hprev, not_false_eq_true, if_true]
      by_cases hnext : s.delayedNext = map i * 2 ^ bs.log2FsBlocksize
      · rw [if_pos hnext]
        exact ⟨_, rfl, batched_extend hw hmap hfile hlen hlt hi hne hbuf hprev hdelayed hnext⟩
      · obtain ⟨io, hspill, hstored⟩ := spill_eq hmap hfile hlen hlt hdelayed hi.le
        simp only [if_neg hnext, hspill]
        exact ⟨_, rfl, batched_delay hw hmap hfile hlen hlt h hi hne hbuf hstored⟩

theorem readBlocks_eq {filesize : ℕ} (hw : 32 ≤ w) (hmap : MapsInto p bs map filesize)
    (hfile : pos + len ≤ filesize) (hlen : 0 < len) (hlt : len < 2 ^ 31) (n i : ℕ)
    (h : pos / bs.blocksize ≤ i) (hn : i + n = blockcnt bs pos len) (s : ReadState)
    (hs : Batched p bs map pos len mem startBuf i s) :
    ∃ s', readBlocks p bs pos len (fun i ↦ (map i : ℤ)) startBuf n i s = .ok s' ∧
      Batched p bs map pos len mem startBuf (blockcnt bs pos len) s' := by
  induction n generalizing i s with
  | zero => exact ⟨s, rfl, hn ▸ hs⟩
  | succ n ih =>
      obtain ⟨s', hread, hs'⟩ := readBlock_eq hw hmap hfile hlen hlt h (by omega) hs
      obtain ⟨s'', hreads, hs''⟩ := ih (i + 1) (by omega) (by omega) s' hs'
      refine ⟨s'', ?_, hs''⟩
      rw [readBlocks, hread]
      exact hreads

theorem batched_first {s : ReadState} (hbuf : s.buf = startBuf)
    (hprev : s.previousBlockNumber = 2 ^ w - 1) (hmem : s.io.mem = mem) :
    Batched p bs map pos len mem startBuf (pos / bs.blocksize) s := by
  constructor
  · intro _
    rw [cut_first, Nat.sub_self, Nat.add_zero, hbuf]
  · left
    refine ⟨hprev, ?_⟩
    rw [Stored, cut_first, Nat.sub_self, hmem]
    simp [Mem.slice]

variable (p bs map) in
/-- The bytes from a position on are stored, up to the end of the file, and their number is
reported. -/
def ReadsExactly (filesize pos : ℕ) (len : ℤ) (mem : Mem) (buf : ℕ) : Prop :=
  let n := min filesize (pos + len.toNat) - pos
  let r := ext4fsReadFile p bs (fun i ↦ (map i : ℤ)) filesize pos len mem buf
  r.ret = 0 ∧ r.actread = some n ∧ r.io.mem = mem.write buf ((fileView p bs map).slice pos n)

theorem readsExactly_of_pos {filesize : ℕ} {len : ℤ} (hw : 32 ≤ w)
    (hmap : MapsInto p bs map filesize) (hpos : pos < filesize) (hlen : 0 < len)
    (hlt : len < 2 ^ 31) :
    ReadsExactly p bs map filesize pos len mem startBuf := by
  obtain ⟨n, hdef⟩ : ∃ n, min filesize (pos + len.toNat) - pos = n := ⟨_, rfl⟩
  unfold ReadsExactly
  rw [hdef]
  have hn : (if filesize < len + pos then filesize - pos else len : ℤ) = (n : ℤ) := by
    split_ifs
    · omega
    · omega
  have hn0 : 0 < n := by omega
  have hfile : pos + n ≤ filesize := by omega
  have hfirst : pos / bs.blocksize < blockcnt bs pos n := by
    rw [lt_blockcnt]
    exact (Nat.mul_div_le _ _).trans_lt (by omega)
  obtain ⟨s, hread, hs⟩ :=
    @readBlocks_eq w p blk bs map pos n mem startBuf filesize hw hmap hfile hn0 (by omega)
      (blockcnt bs pos n - pos / bs.blocksize) (pos / bs.blocksize) le_rfl
    (Nat.add_sub_cancel' hfirst.le)
    { previousBlockNumber := 2 ^ w - 1, buf := startBuf, io := ⟨mem, []⟩ }
    (batched_first rfl rfl rfl)
  have hstored (io : Io) (hio : Stored p bs map pos n mem startBuf (blockcnt bs pos n) io) :
      io.mem = mem.write startBuf ((fileView p bs map).slice pos n) := by
    rw [Stored, cut_blockcnt hn0, Nat.add_sub_cancel_left] at hio
    exact hio
  unfold ext4fsReadFile
  simp only [hn, Int.toNat_natCast]
  rw [if_neg (by have := bs.blocksize_pos; omega)]
  simp only [hread, Except.bind]
  obtain ⟨hprev, hmem⟩ | ⟨hprev, j, hdelayed⟩ := hs.delayed
  · simp only [hprev, ne_eq, not_true_eq_false, if_false]
    exact ⟨trivial, trivial, hstored s.io hmem⟩
  · obtain ⟨io, hspill, hmem⟩ := spill_eq hmap hfile hn0 (by omega) hdelayed le_rfl
    simp only [hprev, ne_eq, not_false_eq_true, if_true, hspill]
    exact ⟨trivial, trivial, hstored io hmem⟩

theorem ext4fsReadFile_of_le {filesize : ℕ} {len : ℤ} (hlen : len ≤ 0) (map : ℕ → ℤ) :
    ext4fsReadFile p bs map filesize pos len mem startBuf = ⟨-1, none, ⟨mem, []⟩⟩ := by
  have hle : (if filesize < len + pos then filesize - pos else len : ℤ) ≤ 0 := by
    split_ifs
    · omega
    · exact hlen
  exact if_pos (.inr hle)

/-- Reads that are put off are not seen, except that nothing is read or reported for an empty
range. -/
theorem ext4fsReadFile_spec {w : ℕ} (hw : 32 ≤ w) (p : DiskPartition w) {blk : BlkDesc}
    (bs : BlockSize blk) {map : ℕ → ℕ} {filesize pos : ℕ} {len : ℤ}
    (hmap : MapsInto p bs map filesize)
    (hpos : pos < filesize) (hlt : len < 2 ^ 31) (mem : Mem) (buf : ℕ) :
    (0 < len → ReadsExactly p bs map filesize pos len mem buf) ∧
      (len ≤ 0 → ext4fsReadFile p bs (fun i ↦ (map i : ℤ)) filesize pos len mem buf =
        ⟨-1, none, ⟨mem, []⟩⟩) := by
  constructor
  · intro hlen
    exact readsExactly_of_pos hw hmap hpos hlen hlt
  · intro hlen
    exact ext4fsReadFile_of_le hlen _

/-- Blocks of two sectors. -/
def smallBlocks : BlockSize zeroDisk where
  log2BlockSize := 10
  log2blksz_le := by decide
  log2BlockSize_lt := by decide

/-- A file of a block, a hole and the next block. -/
def holedFile : ℕ → ℕ
  | 0 => 5
  | 2 => 6
  | _ => 0

theorem mapsInto_holedFile : MapsInto dataPartition smallBlocks holedFile 3000 := by
  constructor
  · intro i _ _
    unfold holedFile
    split <;> decide
  · intro i j hne heq
    unfold holedFile at hne heq
    split at heq <;> split at heq <;> simp_all

theorem ext4fsReadFile_spec_holed :
    (0 < (2500 : ℤ) → ReadsExactly dataPartition smallBlocks holedFile 3000 100 2500
      (fun _ ↦ 1) 0) ∧
      ((2500 : ℤ) ≤ 0 → ext4fsReadFile dataPartition smallBlocks (fun i ↦ (holedFile i : ℤ))
        3000 100 2500
        (fun _ ↦ 1) 0 = ⟨-1, none, ⟨fun _ ↦ 1, []⟩⟩) :=
  ext4fsReadFile_spec (by decide) dataPartition smallBlocks mapsInto_holedFile (by decide)
    (by decide) (fun _ ↦ 1) 0

/-- A read of no bytes is an error. -/
theorem ext4fsReadFile_empty :
    ¬ ReadsExactly dataPartition smallBlocks holedFile 3000 100 0 (fun _ ↦ 1) 0 := by
  rintro ⟨hret, -⟩
  rw [ext4fsReadFile_of_le le_rfl] at hret
  exact absurd hret (by decide)

end

end MiniPi.Ext4
