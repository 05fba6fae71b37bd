import MiniPi.Lib.Mem

/-!
# The block cache

Reads of a block device go through a list of ranges that were read before, the last used one first.
A block number has `w` bits; a size, an address and an `unsigned long` have `u` bits.
-/

namespace MiniPi.Blkcache

open Lib

/-- The arguments of `blkcache_read` and `blkcache_fill`. -/
structure Range where
  iftype : ℤ
  devnum : ℤ
  start : ℕ
  blkcnt : ℕ
  blksz : ℕ
deriving DecidableEq

/-- A range that is kept.  The length of `cache` is that of the allocated buffer. -/
structure BlockCacheNode extends Range where
  cache : List UInt8
deriving DecidableEq

structure BlockCacheStats where
  hits : ℕ := 0
  misses : ℕ := 0
  entries : ℕ := 0
  maxBlocksPerEntry : ℕ := 8
  maxEntries : ℕ := 32
deriving DecidableEq

structure BlockCache where
  nodes : List BlockCacheNode := []
  stats : BlockCacheStats := {}
deriving DecidableEq

/-- A `memcpy` out of the buffer of a node. -/
structure Copy where
  buffer : List UInt8
  offset : ℕ
  length : ℕ
deriving DecidableEq

/-- The bytes that are copied, for a copy inside the buffer. -/
def Copy.bytes (c : Copy) : List UInt8 := (c.buffer.drop c.offset).take c.length

def Copy.InBuffer (c : Copy) : Prop := c.offset + c.length ≤ c.buffer.length

instance (c : Copy) : Decidable c.InBuffer := inferInstanceAs (Decidable (_ ≤ _))

section

variable (w u : ℕ)

/-- The test of `cache_find`. -/
def BlockCacheNode.Covers (node : BlockCacheNode) (r : Range) : Prop :=
  node.iftype = r.iftype ∧ node.devnum = r.devnum ∧ node.blksz = r.blksz ∧ node.start ≤ r.start ∧
    (r.start + r.blkcnt) % 2 ^ w ≤ (node.start + node.blkcnt) % 2 ^ w

instance (node : BlockCacheNode) (r : Range) : Decidable (node.Covers w r) :=
  inferInstanceAs (Decidable (_ ∧ _))

/-- The first node that covers the range, which is moved to the front. -/
def cacheFind (nodes : List BlockCacheNode) (r : Range) :
    Option (BlockCacheNode × List BlockCacheNode) :=
  (nodes.find? (·.Covers w r)).map fun node ↦ (node, node :: nodes.eraseP (·.Covers w r))

def blkcacheRead (c : BlockCache) (r : Range) : BlockCache × Option Copy :=
  match cacheFind w c.nodes r with
  | some (node, nodes) =>
      ({ nodes, stats := { c.stats with hits := (c.stats.hits + 1) % 2 ^ 32 } },
        some {
          buffer := node.cache
          offset := (r.start - node.start) * r.blksz % 2 ^ u
          length := r.blksz * r.blkcnt % 2 ^ u })
  | none => ({ c with stats := { c.stats with misses := (c.stats.misses + 1) % 2 ^ 32 } }, none)

/-- The two calls of `malloc` in `blkcache_fill`: for a node and for its buffer. -/
structure Mallocs where
  node : Bool
  cache : Bool

/-- The end of `blkcache_fill`, for a node that has the buffer `cache` or none yet. -/
def fillNode (m : Mallocs) (c : BlockCache) (r : Range) (buffer : List UInt8)
    (cache : Option (List UInt8)) : BlockCache :=
  let bytes := r.blksz * r.blkcnt % 2 ^ w % 2 ^ u
  let add (cache : List UInt8) : BlockCache :=
    { nodes := { r with cache } :: c.nodes
      stats := { c.stats with entries := c.stats.entries + 1 } }
  match cache with
  | some cache => add (buffer.take bytes ++ cache.drop bytes)
  | none => if m.cache then add (buffer.take bytes) else c

def blkcacheFill (m : Mallocs) (c : BlockCache) (r : Range) (buffer : List UInt8) : BlockCache :=
  if c.stats.maxBlocksPerEntry < r.blkcnt then c
  else if c.stats.maxEntries = 0 then c
  else if c.stats.maxEntries ≤ c.stats.entries then
    -- the least recently used node goes, and its buffer is used again if it is large enough
    match c.nodes.getLast? with
    | none => c
    | some node =>
        let stats := { c.stats with entries := c.stats.entries - 1 }
        let c := { nodes := c.nodes.dropLast, stats }
        fillNode w u m c r buffer
          (if node.blkcnt * node.blksz % 2 ^ w < r.blksz * r.blkcnt % 2 ^ w then none
            else some node.cache)
  else if m.node then fillNode w u m c r buffer none
  else c

end

def blkcacheInvalidate (c : BlockCache) (iftype devnum : ℤ) : BlockCache :=
  let keep (node : BlockCacheNode) : Bool := !(node.iftype = iftype ∧ node.devnum = devnum)
  { nodes := c.nodes.filter keep
    stats := { c.stats with
      entries := c.stats.entries - (c.nodes.length - (c.nodes.filter keep).length) } }

def blkcacheConfigure (c : BlockCache) (blocks entries : ℕ) : BlockCache :=
  let c : BlockCache :=
    if blocks ≠ c.stats.maxBlocksPerEntry ∨ entries ≠ c.stats.maxEntries then
      { nodes := [], stats := { c.stats with entries := 0 } }
    else c
  { c with stats := { c.stats with
      maxBlocksPerEntry := blocks, maxEntries := entries, hits := 0, misses := 0 } }

/-! ## Devices -/

/-- What `select_hwpart` of a driver does: the value it returns, the partition that is then the
current one, and whether it calls `blkcache_invalidate`. -/
structure Selected where
  ret : ℤ
  hwpart : ℕ
  invalidates : Bool

/-- A block device with its driver.  `content` has the bytes of each hardware partition and `lba`
its number of blocks; `short` is what `read` returns for a range that is not inside the
partition. -/
structure Device (w u : ℕ) where
  blksz : ℕ
  blksz_pos : 0 < blksz
  lba : ℕ → ℕ
  lba_lt : ∀ p, lba p < 2 ^ w
  hwpart : ℕ
  content : ℕ → Mem
  hasRead : Bool
  short : ℕ → ℕ → ℕ → ℕ
  short_ne : ∀ p start blkcnt, 1 ≤ blkcnt → short p start blkcnt ≠ blkcnt
  write : Option (ℕ → (ℕ → Mem) → ℕ → ℕ → List UInt8 → ℕ × (ℕ → Mem))
  erase : Option (ℕ → (ℕ → Mem) → ℕ → ℕ → ℕ × (ℕ → Mem))
  select : Option (ℕ → ℤ → Selected)

variable {w u : ℕ}

/-- The `read` of the driver: its value and the bytes of the buffer. -/
def Device.read (d : Device w u) (start blkcnt : ℕ) : ℕ × List UInt8 :=
  if start + blkcnt ≤ d.lba d.hwpart then
    (blkcnt % 2 ^ u, (d.content d.hwpart).slice (start * d.blksz) (blkcnt * d.blksz))
  else (d.short d.hwpart start blkcnt, [])

/-- The cache and the devices, by interface type and number. -/
structure Sys (w u : ℕ) where
  cache : BlockCache := {}
  devs : ℤ → ℤ → Device w u

def Sys.setDev (s : Sys w u) (iftype devnum : ℤ) (d : Device w u) : Sys w u :=
  { s with devs := fun i n ↦ if i = iftype ∧ n = devnum then d else s.devs i n }

def Sys.invalidate (s : Sys w u) (iftype devnum : ℤ) : Sys w u :=
  { s with cache := blkcacheInvalidate s.cache iftype devnum }

/-- `-ENOSYS` as an `unsigned long`. -/
def enosys (u : ℕ) : ℕ := 2 ^ u - 38

/-- What a read gives: the value that is returned, the bytes of the buffer, and the copy that was
made out of the cache if one was. -/
structure ReadResult where
  ret : ℕ
  buffer : List UInt8 := []
  copy : Option Copy := none

def blkDread (m : Mallocs) (s : Sys w u) (iftype devnum : ℤ) (start blkcnt : ℕ) :
    Sys w u × ReadResult :=
  let d := s.devs iftype devnum
  let r : Range := { iftype, devnum, start, blkcnt, blksz := d.blksz }
  if !d.hasRead then (s, { ret := enosys u })
  else
    match blkcacheRead w u s.cache r with
    | (cache, some copy) =>
        ({ s with cache }, { ret := blkcnt % 2 ^ u, buffer := copy.bytes, copy := some copy })
    | (cache, none) =>
        let (blksRead, buffer) := d.read start blkcnt
        if blksRead = blkcnt then
          ({ s with cache := blkcacheFill w u m cache r buffer }, { ret := blksRead, buffer })
        else ({ s with cache }, { ret := blksRead, buffer })

def blkDwrite (s : Sys w u) (iftype devnum : ℤ) (start blkcnt : ℕ) (buffer : List UInt8) :
    Sys w u × ℕ :=
  let d := s.devs iftype devnum
  match d.write with
  | none => (s, enosys u)
  | some write =>
      let (ret, content) := write d.hwpart d.content start blkcnt buffer
      ((s.invalidate iftype devnum).setDev iftype devnum { d with content }, ret)

def blkDerase (s : Sys w u) (iftype devnum : ℤ) (start blkcnt : ℕ) : Sys w u × ℕ :=
  let d := s.devs iftype devnum
  match d.erase with
  | none => (s, enosys u)
  | some erase =>
      let (ret, content) := erase d.hwpart d.content start blkcnt
      ((s.invalidate iftype devnum).setDev iftype devnum { d with content }, ret)

def blkSelectHwpart (s : Sys w u) (iftype devnum hwpart : ℤ) : Sys w u × ℤ :=
  let d := s.devs iftype devnum
  match d.select with
  | none => (s, 0)
  | some select =>
      let o := select d.hwpart hwpart
      let s := s.setDev iftype devnum { d with hwpart := o.hwpart }
      (if o.invalidates then s.invalidate iftype devnum else s, o.ret)

end MiniPi.Blkcache
