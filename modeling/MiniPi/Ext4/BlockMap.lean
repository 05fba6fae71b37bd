import MiniPi.Ext4.Extents
import MiniPi.Lib.Run

/-!
# The blocks a call returns

An inode without extents names its blocks through up to three levels of indirect blocks, where the
pointer zero stands for a hole.  The code reads block zero for a pointer that is zero, and looks up
the third level with an index that is in range only in the first part of it.
-/

namespace MiniPi.Ext4

open Lib

variable {w : ℕ} {fs : FileSystem w} {n p : ℕ} {b : Indir}

/-! ## The buffers -/

/-- The buffer holds the block it is said to hold. -/
def Indir.Valid (fs : FileSystem w) (b : Indir) : Prop :=
  ∀ bytes, b.block = some bytes → b.size = fs.blksz → b.blkno ≠ 2 ^ 32 - 1 →
    ext4fsDevread fs b.blkno = some bytes

/-- The number of the first sector of a block is an `unsigned int`, and not the one that stands for
no block. -/
def Small (fs : FileSystem w) (p : ℕ) : Prop := p * 2 ^ fs.log2Sectors < 2 ^ 32 - 1

theorem valid_empty : Indir.Valid fs {} := by
  rintro bytes hbytes
  exact absurd hbytes (by simp)

/-- The block that is in the buffer after it was loaded. -/
structure Indir.Has (fs : FileSystem w) (b : Indir) (p : ℕ) : Prop where
  valid : b.Valid fs
  block : b.block = some (fs.block p)

theorem Indir.allocate_spec (hb : b.Valid fs) :
    ∃ b', b.allocate fs true = some b' ∧ b'.Valid fs ∧ b'.size = fs.blksz ∧ b'.block.isSome := by
  have hnew : Indir.Valid fs ⟨some (List.replicate fs.blksz 0), fs.blksz, 2 ^ 32 - 1⟩ := by
    rintro bytes - - hne
    exact absurd rfl hne
  unfold Indir.allocate
  cases hblock : b.block with
  | none => exact ⟨_, rfl, hnew, rfl, rfl⟩
  | some bytes =>
      by_cases hsize : b.size = fs.blksz
      · exact ⟨b, if_pos hsize, hb, hsize, by rw [hblock]; rfl⟩
      · exact ⟨_, if_neg hsize, hnew, rfl, rfl⟩

theorem Indir.load_spec (hb : b.Valid fs) (hsize : b.size = fs.blksz) (hsome : b.block.isSome)
    (hin : Inside fs p) (hsmall : Small fs p) : ∃ b', b.load fs p p = some b' ∧ b'.Has fs p := by
  have hread := ext4fsDevread_block hin
  have hmod : p * 2 ^ fs.log2Sectors % 2 ^ 32 = p * 2 ^ fs.log2Sectors :=
    Nat.mod_eq_of_lt (hsmall.trans (by decide))
  have hmodw : p * 2 ^ fs.log2Sectors % 2 ^ w = p * 2 ^ fs.log2Sectors := Nat.mod_eq_of_lt hin.lt
  unfold Indir.load
  rw [hmod, hmodw, hread]
  dsimp only
  split_ifs with hother
  · refine ⟨_, rfl, ?_, rfl⟩
    rintro bytes hbytes - -
    obtain rfl := Option.some.inj hbytes
    exact hread
  · -- the buffer has the block already
    obtain ⟨bytes, hbytes⟩ := Option.isSome_iff_exists.mp hsome
    have hno : p * 2 ^ fs.log2Sectors = b.blkno := not_not.mp hother
    have hne : b.blkno ≠ 2 ^ 32 - 1 := by
      rw [← hno]
      exact hsmall.ne
    have hold := hb bytes hbytes hsize hne
    rw [← hno, hread] at hold
    obtain rfl := Option.some.inj hold
    exact ⟨b, rfl, hb, hbytes⟩

theorem Indir.Has.get {i : ℕ} (h : b.Has fs p) (hi : i < fs.perblock) :
    b.get i = some (le32At (fs.block p) i) := by
  rw [FileSystem.perblock] at hi
  rw [Indir.get, h.block]
  exact if_pos (by rw [length_block]; omega)

theorem withIndir_spec (hb : b.Valid fs) (hin : Inside fs p) (hsmall : Small fs p) :
    ∃ b', (∀ fail k, withIndir fs true b (some p) (some p) fail k = k b') ∧ b'.Has fs p := by
  obtain ⟨b₁, hallocate, hvalid, hsize, hsome⟩ := b.allocate_spec hb
  obtain ⟨b₂, hload, hhas⟩ := b₁.load_spec hvalid hsize hsome hin hsmall
  refine ⟨b₂, ?_, hhas⟩
  intro fail k
  rw [withIndir, hallocate]
  dsimp only
  rw [hload]

/-! ## What an inode says -/

/-- The pointer at the end of a path of indices; a pointer zero stands for a hole. -/
def follow (fs : FileSystem w) : ℕ → List ℕ → ℕ
  | p, [] => p
  | p, i :: is => if p = 0 then 0 else follow fs (le32At (fs.block p) i) is

/-- The number of the pointer in the inode, and the indices from there on. -/
def blockPath (fs : FileSystem w) (n : ℕ) : ℕ × List ℕ :=
  let k := fs.perblock
  if n < 12 then (n, [])
  else if n < 12 + k then (12, [n - 12])
  else if n < 12 + k + k * k then
    let r := n - (12 + k)
    (13, [r / k, r % k])
  else
    let r := n - (12 + k + k * k)
    (14, [r / (k * k), r / k % k, r % k])

/-- The pointers of a tree of `d` levels are inside the partition. -/
def WellFormedPointer (fs : FileSystem w) : ℕ → ℕ → Prop
  | 0, p => Inside fs p
  | d + 1, p => p = 0 ∨ Inside fs p ∧
      ∀ i < fs.perblock, WellFormedPointer fs d (le32At (fs.block p) i)

/-- The depth of the extent tree. -/
def Inode.depth (inode : Inode) : ℕ := (extentHeader inode.blocks).ehDepth

/-- The inode has a well-formed extent tree or well-formed pointers. -/
def Inode.WellFormed (fs : FileSystem w) (inode : Inode) : Prop :=
  if inode.HasExtents then WellFormedTree fs inode.depth 0 (2 ^ 32) inode.blocks
  else (∀ i < 12, WellFormedPointer fs 0 (le32At inode.blocks i)) ∧
    ∀ d < 3, WellFormedPointer fs (d + 1) (le32At inode.blocks (12 + d))

/-- The file block numbers of the format. -/
def Inode.Admits (fs : FileSystem w) (inode : Inode) (n : ℕ) : Prop :=
  n < 2 ^ 32 ∧ (inode.HasExtents ∨
    n < 12 + fs.perblock + fs.perblock * fs.perblock + fs.perblock * fs.perblock * fs.perblock)

/-- The physical block of the file block `n`, or `0` for a hole or an unwritten extent. -/
def Inode.IsBlock (fs : FileSystem w) (inode : Inode) (n p : ℕ) : Prop :=
  if inode.HasExtents then
    Assigns fs inode.depth inode.blocks n p ∨ p = 0 ∧ ∀ q, ¬Assigns fs inode.depth inode.blocks n q
  else p = follow fs (le32At inode.blocks (blockPath fs n).1) (blockPath fs n).2

/-- Along the path no pointer but the last one is zero, or block zero has a zero there. -/
def SafePath (fs : FileSystem w) : ℕ → List ℕ → Prop
  | p, [] => p < 2 ^ 31
  | p, i :: is => (p = 0 → le32At (fs.block 0) i = 0) ∧ Small fs p ∧
      SafePath fs (le32At (fs.block p) i) is

/-- The condition on an inode and a file block. -/
def Inode.Safe (fs : FileSystem w) (inode : Inode) (n : ℕ) : Prop :=
  n < 2 ^ 31 ∧
    if inode.HasExtents then ∀ e, LooksAt fs inode.depth inode.blocks n e → e.Safe n
    else n < 12 + fs.perblock + 2 * (fs.perblock * fs.perblock) ∧
      SafePath fs (le32At inode.blocks (blockPath fs n).1) (blockPath fs n).2

/-! ## What a call does -/

theorem perblock_pos (fs : FileSystem w) : 0 < fs.perblock := by
  have hle : 2 ^ 10 ≤ 2 ^ fs.log2BlockSize := Nat.pow_le_pow_right Nat.two_pos fs.min_le
  rw [FileSystem.perblock, FileSystem.blksz]
  omega

theorem follow_zero (fs : FileSystem w) (is : List ℕ) : follow fs 0 is = 0 := by
  cases is <;> rfl

theorem wellFormedPointer_zero (fs : FileSystem w) (d : ℕ) : WellFormedPointer fs d 0 := by
  cases d with
  | zero => exact inside_zero fs
  | succ d => exact Or.inl rfl

/-- One level of a safe path. -/
structure Level (fs : FileSystem w) (d p i : ℕ) (is : List ℕ) : Prop where
  inside : Inside fs p
  small : Small fs p
  pointer : WellFormedPointer fs d (le32At (fs.block p) i)
  safe : SafePath fs (le32At (fs.block p) i) is
  follow : follow fs p (i :: is) = follow fs (le32At (fs.block p) i) is

theorem SafePath.level {d i : ℕ} {is : List ℕ} (hs : SafePath fs p (i :: is))
    (hwf : WellFormedPointer fs (d + 1) p) (hi : i < fs.perblock) : Level fs d p i is := by
  obtain ⟨hzero, hsmall, hrest⟩ := hs
  by_cases hp : p = 0
  · subst hp
    have hnext := hzero rfl
    refine ⟨inside_zero fs, hsmall, ?_, hrest, ?_⟩
    · rw [hnext]
      exact wellFormedPointer_zero fs d
    · rw [hnext, follow_zero, follow_zero]
  · obtain ⟨hin, hsub⟩ := hwf.resolve_left hp
    exact ⟨hin, hsmall, hsub i hi, hrest, by rw [Ext4.follow, if_neg hp]⟩

/-- All buffers hold what they are said to hold. -/
structure Buffers.Valid (fs : FileSystem w) (bufs : Buffers) : Prop where
  indir1 : bufs.indir1.Valid fs
  indir2 : bufs.indir2.Valid fs
  indir3 : bufs.indir3.Valid fs
  cache : bufs.cache.Valid fs

theorem retPointer_spec {i : ℕ} {bufs : Buffers} (hb : b.Has fs p) (hi : i < fs.perblock)
    (hs : SafePath fs p [i]) :
    retPointer bufs (b.get i) = (bufs, .ret (le32At (fs.block p) i : ℕ)) := by
  have hlt : le32At (fs.block p) i < 2 ^ 31 := hs.2.2
  rw [hb.get hi]
  simp only [retPointer]
  rw [long_of_lt (by omega) (by omega)]

variable {inode : Inode} {alloc : Allocs} {fuel : ℕ} {bufs : Buffers} {cache : Bool}

/-- The memory that is asked for is there. -/
def Allocs.All (alloc : Allocs) : Prop :=
  alloc.cache = true ∧ alloc.indir1 = true ∧ alloc.indir2 = true ∧ alloc.indir3 = true

/-- The call for an inode without extents. -/
theorem readPointers_spec (hext : ¬inode.HasExtents) (hwf : inode.WellFormed fs)
    (halloc : alloc.All) (hb : bufs.Valid fs) (hsafe : inode.Safe fs n) :
    ∃ bufs', bufs'.Valid fs ∧ readAllocatedBlock fs alloc fuel bufs inode n cache =
      (bufs', .ret (follow fs (le32At inode.blocks (blockPath fs n).1) (blockPath fs n).2 :
        ℕ)) := by
  obtain ⟨halloc0, halloc1, halloc2, halloc3⟩ := halloc
  obtain ⟨hn, hrest⟩ := hsafe
  rw [if_neg hext] at hrest
  obtain ⟨htriple, hpath⟩ := hrest
  rw [Inode.WellFormed, if_neg hext] at hwf
  obtain ⟨-, hlevels⟩ := hwf
  have hk := perblock_pos fs
  have hdouble : ((indirectBlocks : ℕ) : ℤ) + (fs.perblock : ℤ) * ((fs.perblock : ℤ) + 1) =
      ((12 + fs.perblock + fs.perblock * fs.perblock : ℕ) : ℤ) := by
    push_cast [indirectBlocks]
    ring
  have hsingle : ((indirectBlocks : ℕ) : ℤ) + (fs.perblock : ℤ) = ((12 + fs.perblock : ℕ) : ℤ) := by
    push_cast [indirectBlocks]
    ring
  have hdirect : ((indirectBlocks : ℕ) : ℤ) = ((12 : ℕ) : ℤ) := rfl
  rw [readAllocatedBlock, if_neg hext]
  dsimp only
  rw [hdouble, hsingle, hdirect, halloc1, halloc2, halloc3]
  simp only [Int.ofNat_lt, Int.toNat_natCast]
  unfold blockPath at hpath ⊢
  dsimp only at hpath ⊢
  generalize hk' : fs.perblock = k at *
  by_cases h1 : n < 12
  · rw [if_pos h1, if_neg (by omega), if_pos h1]
    rw [if_pos h1] at hpath
    refine ⟨bufs, hb, ?_⟩
    have hlt : le32At inode.blocks n < 2 ^ 31 := hpath
    rw [long_of_lt (by omega) (by omega)]
    rfl
  rw [if_neg h1, if_neg h1]
  rw [if_neg h1] at hpath
  by_cases h2 : n < 12 + k
  · rw [if_pos h2, if_pos h2]
    rw [if_pos h2] at hpath
    have hi : n - 12 < fs.perblock := by omega
    have hl₁ : Level fs 0 _ _ _ := SafePath.level hpath (hlevels 0 (by decide)) hi
    obtain ⟨b₁, hcall₁, hhas₁⟩ := withIndir_spec hb.indir1 hl₁.inside hl₁.small
    refine ⟨{ bufs with indir1 := b₁ }, ⟨hhas₁.valid, hb.indir2, hb.indir3, hb.cache⟩, ?_⟩
    rw [hcall₁]
    dsimp only
    rw [hl₁.follow]
    exact retPointer_spec hhas₁ hi hpath
  rw [if_neg h2, if_neg h2]
  rw [if_neg h2] at hpath
  by_cases h3 : n < 12 + k + k * k
  · rw [if_pos h3, if_pos h3]
    rw [if_pos h3] at hpath
    generalize hr : n - (12 + k) = r at *
    have hi : r / k < fs.perblock := by
      rw [hk', Nat.div_lt_iff_lt_mul hk]
      omega
    have hj : r % k < fs.perblock := by
      rw [hk']
      exact Nat.mod_lt _ hk
    have hl₁ : Level fs 1 _ _ _ := SafePath.level hpath (hlevels 1 (by decide)) hi
    obtain ⟨b₁, hcall₁, hhas₁⟩ := withIndir_spec hb.indir1 hl₁.inside hl₁.small
    have hl₂ : Level fs 0 _ _ _ := hl₁.safe.level hl₁.pointer hj
    obtain ⟨b₂, hcall₂, hhas₂⟩ := withIndir_spec hb.indir2 hl₂.inside hl₂.small
    refine ⟨{ bufs with indir1 := b₁, indir2 := b₂ },
      ⟨hhas₁.valid, hhas₂.valid, hb.indir3, hb.cache⟩, ?_⟩
    have hr' : n - (indirectBlocks + k) = r := hr
    rw [hr', hcall₁]
    dsimp only
    rw [hhas₁.get hi, hcall₂, hl₁.follow, hl₂.follow]
    exact retPointer_spec hhas₂ hj hl₁.safe
  · rw [if_neg h3, if_neg h3]
    rw [if_neg h3] at hpath
    generalize hr : n - (12 + k + k * k) = r at *
    have hlt : r < k * k := by omega
    -- in this part the index of the third level is in range as it stands
    have hdiv : r / k < k := by
      rw [Nat.div_lt_iff_lt_mul hk]
      exact hlt
    have htop : r / (k * k) = 0 := Nat.div_eq_of_lt hlt
    have hmod : r / k % k = r / k := Nat.mod_eq_of_lt hdiv
    have hh : r / (k * k) < fs.perblock := by rw [htop, hk']; exact hk
    have hi : r / k % k < fs.perblock := by rw [hmod, hk']; exact hdiv
    have hj : r % k < fs.perblock := by
      rw [hk']
      exact Nat.mod_lt _ hk
    have hl₁ : Level fs 2 _ _ _ := SafePath.level hpath (hlevels 2 (by decide)) hh
    obtain ⟨b₁, hcall₁, hhas₁⟩ := withIndir_spec hb.indir1 hl₁.inside hl₁.small
    have hl₂ : Level fs 1 _ _ _ := hl₁.safe.level hl₁.pointer hi
    obtain ⟨b₂, hcall₂, hhas₂⟩ := withIndir_spec hb.indir2 hl₂.inside hl₂.small
    have hl₃ : Level fs 0 _ _ _ := hl₂.safe.level hl₂.pointer hj
    obtain ⟨b₃, hcall₃, hhas₃⟩ := withIndir_spec hb.indir3 hl₃.inside hl₃.small
    refine ⟨{ bufs with indir1 := b₁, indir2 := b₂, indir3 := b₃ },
      ⟨hhas₁.valid, hhas₂.valid, hhas₃.valid, hb.cache⟩, ?_⟩
    have hr' : n - (indirectBlocks + k + k * k) = r := hr
    have htest : b₂.get (r / k) = b₂.get (r / k % k) := by rw [hmod]
    rw [hr', hcall₁]
    dsimp only
    rw [hhas₁.get hh, hcall₂, htest, hhas₂.get hi, hcall₃, hl₁.follow, hl₂.follow, hl₃.follow]
    exact retPointer_spec hhas₃ hj hl₂.safe

/-- What a call does for a safe file block of a well-formed inode. -/
theorem readAllocatedBlock_spec (cache : Bool) (hwf : inode.WellFormed fs) (halloc : alloc.All)
    (hfuel : inode.depth < fuel) (hb : bufs.Valid fs) (hsafe : inode.Safe fs n) :
    ∃ bufs' z, bufs'.Valid fs ∧
      readAllocatedBlock fs alloc fuel bufs inode n cache = (bufs', .ret z) ∧
      ∀ p, inode.IsBlock fs n p → z = p := by
  by_cases hext : inode.HasExtents
  · rw [Inode.WellFormed, if_pos hext] at hwf
    obtain ⟨hn, hlooks⟩ := hsafe
    rw [if_pos hext] at hlooks
    obtain ⟨c, z, hc, hcall, hassigns, hnone⟩ :=
      readExtent_spec cache hwf halloc.1 hfuel hb.cache hn hlooks
    refine ⟨{ bufs with cache := c }, z, ⟨hb.indir1, hb.indir2, hb.indir3, hc⟩, ?_, ?_⟩
    · rw [readAllocatedBlock, if_pos hext]
      exact hcall
    · intro p hp
      rw [Inode.IsBlock, if_pos hext] at hp
      rcases hp with hp | ⟨rfl, hno⟩
      · exact hassigns p hp
      · exact hnone hno
  · obtain ⟨bufs', hvalid, hcall⟩ := readPointers_spec hext hwf halloc hb hsafe
    refine ⟨bufs', _, hvalid, hcall, ?_⟩
    intro p hp
    rw [Inode.IsBlock, if_neg hext] at hp
    rw [hp]

/-! ## Runs -/

/-- A call for the file block `n`, which is passed as an `int`. -/
structure Call where
  inode : Inode
  n : ℕ
  alloc : Allocs := ⟨true, true, true, true⟩
  fuel : ℕ
  cache : Bool := false

def Call.run (fs : FileSystem w) (bufs : Buffers) (c : Call) : Buffers × Outcome :=
  readAllocatedBlock fs c.alloc c.fuel bufs c.inode (long c.n) c.cache

/-- A block the format admits of a well-formed inode, with memory for the buffers and enough
steps. -/
structure Call.Legal (fs : FileSystem w) (c : Call) : Prop where
  wellFormed : c.inode.WellFormed fs
  admits : c.inode.Admits fs c.n
  alloc : c.alloc.All
  fuel : c.inode.depth < c.fuel

/-- The call returns the block of the format. -/
def Call.Correct (fs : FileSystem w) (bufs : Buffers) (c : Call) : Prop :=
  ∀ p, c.inode.IsBlock fs c.n p → (c.run fs bufs).2 = .ret p

def Calls (fs : FileSystem w) (bufs : Buffers) (c : Call) (bufs' : Buffers) : Prop :=
  c.Legal fs ∧ bufs' = (c.run fs bufs).1

def SafeCalls (fs : FileSystem w) (bufs : Buffers) (c : Call) (bufs' : Buffers) : Prop :=
  Calls fs bufs c bufs' ∧ c.inode.Safe fs c.n

theorem Call.run_spec {c : Call} (hb : bufs.Valid fs) (hlegal : c.Legal fs)
    (hsafe : c.inode.Safe fs c.n) : (c.run fs bufs).1.Valid fs ∧ c.Correct fs bufs := by
  have hn : long (c.n : ℤ) = c.n := long_of_lt (by omega) (by have hlt := hsafe.1; omega)
  obtain ⟨bufs', z, hvalid, hcall, hblock⟩ := readAllocatedBlock_spec c.cache hlegal.wellFormed
    hlegal.alloc hlegal.fuel hb hsafe
  have hrun : c.run fs bufs = (bufs', .ret z) := by rw [Call.run, hn, hcall]
  refine ⟨by rw [hrun]; exact hvalid, ?_⟩
  intro p hp
  rw [hrun, hblock p hp]

/-- In every run of safe calls from empty buffers, every safe call returns the block of the
format. -/
theorem correct_of_safe_run {cs : List Call} (h : Run (SafeCalls fs) {} cs bufs) {c : Call}
    (hlegal : c.Legal fs) (hsafe : c.inode.Safe fs c.n) : c.Correct fs bufs := by
  have hvalid : bufs.Valid fs := by
    refine h.invariant (I := Buffers.Valid fs) ?_ ⟨valid_empty, valid_empty, valid_empty, ?_⟩
    · rintro s c' t hs ⟨⟨hlegal', rfl⟩, hsafe'⟩
      exact (Call.run_spec hs hlegal' hsafe').1
    · rintro buf hbuf
      exact absurd hbuf (by simp)
  exact (Call.run_spec hvalid hlegal hsafe).2

/-- A filesystem with blocks of two sectors, where every pointer in a block is `7`. -/
def fiftyBlocks : FileSystem 32 where
  log2BlockSize := 10
  log2blksz := 9
  log2blksz_le := by decide
  min_le := by decide
  le_max := by decide
  totalSect := 100
  totalSect_lt := by decide
  block_le := by decide
  disk := fun i ↦ if i % 4 = 0 then 7 else 0

theorem le32At_fiftyBlocks {i : ℕ} (hi : i < fiftyBlocks.perblock) :
    le32At (fiftyBlocks.block p) i = 7 := by
  change i < 256 at hi
  have haligned : (p * 1024 + 4 * i) % 4 = 0 := by omega
  have hbytes : (fiftyBlocks.disk.slice (p * 1024 + 4 * i) 4) = [7, 0, 0, 0] := by
    simp only [Mem.slice, fiftyBlocks, List.range_succ, List.range_zero, List.nil_append,
      List.map_cons, List.map_nil, List.cons_append]
    simp [Nat.add_mod, haligned]
  change leValue (((fiftyBlocks.disk.slice (p * 1024) 1024).drop (4 * i)).take 4) = 7
  rw [Mem.take_drop_slice (by omega), hbytes]
  rfl

/-- An inode with the extent of the blocks from `0` on at the physical block `5`. -/
def oneExtent (lenLo lenHi : UInt8) : Inode where
  flags := ext4ExtentsFl
  blocks := [0x0a, 0xf3, 1, 0, 4, 0, 0, 0, 0, 0, 0, 0] ++
    [0, 0, 0, 0, lenLo, lenHi, 0, 0, 5, 0, 0, 0] ++
    List.replicate 36 0
  length_blocks := rfl

theorem oneExtent_legal {lenLo lenHi : UInt8} (cache : Bool)
    (hext : (oneExtent lenLo lenHi).HasExtents)
    (hheader : (extentHeader (oneExtent lenLo lenHi).blocks).ehMagic = ext4ExtMagic ∧
      (extentHeader (oneExtent lenLo lenHi).blocks).ehEntries = 1 ∧
      (oneExtent lenLo lenHi).depth = 0)
    (hblock : (extent (oneExtent lenLo lenHi).blocks 0).eeBlock = 0) :
    Call.Legal fiftyBlocks { inode := oneExtent lenLo lenHi, n := 0, fuel := 1, cache } := by
  obtain ⟨hmagic, hentries, hdepth⟩ := hheader
  have hlen := eeLen_lt (oneExtent lenLo lenHi).blocks 0
  have hle := (extent (oneExtent lenLo lenHi).blocks 0).len_le
  refine ⟨?_, ⟨by norm_num, Or.inl hext⟩, ⟨rfl, rfl, rfl, rfl⟩, ?_⟩
  · rw [Inode.WellFormed, if_pos hext]
    dsimp only
    rw [hdepth]
    refine ⟨⟨hmagic, hdepth, ?_⟩, ?_, ?_⟩
    · rw [hentries, (oneExtent lenLo lenHi).length_blocks]
      decide
    · intro i hi
      rw [hentries] at hi
      obtain rfl : i = 0 := by omega
      rw [hblock]
      omega
    · intro i j hij hj
      omega
  · dsimp only
    rw [hdepth]
    exact Nat.one_pos

theorem oneExtent_safe : (oneExtent 1 0).Safe fiftyBlocks 0 := by
  have hext : (oneExtent 1 0).HasExtents := by decide
  have hdepth : (oneExtent 1 0).depth = 0 := by decide
  have hentries : (extentHeader (oneExtent 1 0).blocks).ehEntries = 1 := by decide
  refine ⟨by norm_num, ?_⟩
  rw [if_pos hext, hdepth]
  rintro e ⟨i, hi, rfl, -⟩
  rw [hentries] at hi
  obtain rfl : i = 0 := by omega
  refine ⟨fun _ _ ↦ ⟨?_, ?_, ?_⟩, fun h ↦ absurd h ?_⟩
  · exact show (extent (oneExtent 1 0).blocks 0).eeLen ≤ 32768 by decide
  all_goals decide

/-- An inode without extents whose single indirect block is block `2`. -/
def oneIndirect : Inode where
  flags := 0
  blocks := List.replicate 48 0 ++ [2, 0, 0, 0] ++ List.replicate 8 0
  length_blocks := rfl

theorem oneIndirect_legal :
    Call.Legal fiftyBlocks { inode := oneIndirect, n := 12, fuel := 1 } := by
  have hext : ¬oneIndirect.HasExtents := by decide
  refine ⟨?_, ⟨by norm_num, Or.inr (by decide)⟩, ⟨rfl, rfl, rfl, rfl⟩, by decide⟩
  dsimp only
  rw [Inode.WellFormed, if_neg hext]
  constructor
  · intro i hi
    have hzero : ∀ i < 12, le32At oneIndirect.blocks i = 0 := by decide
    rw [hzero i hi]
    exact wellFormedPointer_zero _ 0
  · intro d hd
    cases d with
    | zero =>
        refine Or.inr ⟨show (2 + 1) * 2 ^ 1 ≤ 100 by norm_num, ?_⟩
        intro i hi
        rw [show le32At oneIndirect.blocks 12 = 2 by decide, le32At_fiftyBlocks hi]
        exact show (7 + 1) * 2 ^ 1 ≤ 100 by norm_num
    | succ d =>
        have hzero : ∀ d < 2, le32At oneIndirect.blocks (12 + (d + 1)) = 0 := by decide
        rw [hzero d (by omega)]
        exact wellFormedPointer_zero _ _

/-- A call for an initialised extent of one block, and then one for a block behind a pointer. -/
theorem correct_of_safe_run_two :
    let bufs := (Call.run fiftyBlocks {} { inode := oneExtent 1 0, n := 0, fuel := 1 }).1
    (Call.run fiftyBlocks bufs { inode := oneIndirect, n := 12, fuel := 1 }).2 = .ret 7 := by
  intro bufs
  have hext : ¬oneIndirect.HasExtents := by decide
  have hlegal := @oneExtent_legal 1 0 false (by decide) (by decide) (by decide)
  have hpointer : le32At oneIndirect.blocks 12 = 2 := by decide
  have hblock : le32At (fiftyBlocks.block 2) 0 = 7 := le32At_fiftyBlocks (by decide)
  refine correct_of_safe_run (.cons ⟨⟨hlegal, rfl⟩, oneExtent_safe⟩ (.nil bufs)) oneIndirect_legal
    ⟨by norm_num, ?_⟩ 7 ?_
  · rw [if_neg hext]
    refine ⟨by decide, ?_⟩
    change SafePath fiftyBlocks (le32At oneIndirect.blocks 12) [0]
    rw [hpointer]
    refine ⟨fun h ↦ absurd h (by decide), show 2 * 2 ^ 1 < 2 ^ 32 - 1 by norm_num, ?_⟩
    rw [hblock]
    exact show 7 < 2 ^ 31 by norm_num
  · rw [Inode.IsBlock, if_neg hext]
    change 7 = follow fiftyBlocks (le32At oneIndirect.blocks 12) [0]
    rw [hpointer, follow, if_neg (by decide)]
    exact hblock.symm

/-- The block of an unwritten extent is returned. -/
theorem not_correct_unwritten :
    ¬∀ (fs : FileSystem 32) (cs : List Call) (bufs : Buffers) (c : Call),
    Run (Calls fs) {} cs bufs →
      c.Legal fs → c.Correct fs bufs := by
  intro h
  have hext : (oneExtent 1 0x80).HasExtents := by decide
  have hdepth : (oneExtent 1 0x80).depth = 0 := by decide
  have hentries : (extentHeader (oneExtent 1 0x80).blocks).ehEntries = 1 := by decide
  have hzero := h fiftyBlocks [] {} _ (.nil _)
    (oneExtent_legal false hext ⟨by decide, hentries, hdepth⟩ (by decide)) 0 (by
      rw [Inode.IsBlock, if_pos hext]
      dsimp only
      rw [hdepth]
      refine Or.inr ⟨rfl, ?_⟩
      rintro q ⟨i, hi, hinit, -⟩
      rw [hentries] at hi
      obtain rfl : i = 0 := by omega
      exact absurd (show (extent (oneExtent 1 0x80).blocks 0).eeLen ≤ 32768 from hinit) (by decide))
  exact absurd hzero (by decide +kernel)

end MiniPi.Ext4
