import Mathlib.Data.BitVec
import Mathlib.Data.List.Basic

/-!
# Logical memory blocks

The allocator of `lib/lmb.c`: a table of memory regions and a table of reserved
regions, both kept sorted by base address.

A `struct lmb_region` is an array of `MAX_LMB_REGIONS + 1` properties of which
the first `cnt` are in use; it is modelled by the list of those.  The `size`
field of `struct lmb_region` is only ever set to zero and is left out.
`phys_addr_t` and `phys_size_t` are unsigned words of one width `w`, and every
sum and difference below wraps as it does in C.

The loops that walk a table are recursions over the list.  A loop that leaves
the table at some place returns the table split there, so that the place the
source calls `i` is the length of the first part.
-/

namespace MiniPi.Lmb

variable {w : ℕ}

/-- `struct lmb_property`: one region. -/
structure Property (w : ℕ) where
  /-- The first address. -/
  base : BitVec w
  /-- The number of bytes. -/
  size : BitVec w
deriving DecidableEq, Repr

/-- `struct lmb_region`: the regions in use, in table order. -/
abbrev Region (w : ℕ) := List (Property w)

/-- `struct lmb`: the two tables. -/
structure Tables (w : ℕ) where
  /-- The memory that exists. -/
  memory : Region w
  /-- The memory that is taken. -/
  reserved : Region w
deriving DecidableEq, Repr

/-- `MAX_LMB_REGIONS`. -/
def maxLmbRegions : ℕ := 8

/-- `LMB_ALLOC_ANYWHERE`. -/
def lmbAllocAnywhere : BitVec w := 0

/-! ## Comparing two ranges -/

/-- `lmb_addrs_overlap`: both last addresses are computed modulo `2 ^ w`. -/
def lmbAddrsOverlap (base₁ size₁ base₂ size₂ : BitVec w) : Bool :=
  let base₁End := base₁ + size₁ - 1
  let base₂End := base₂ + size₂ - 1
  decide (base₁ ≤ base₂End) && decide (base₂ ≤ base₁End)

/-- `lmb_addrs_adjacent`: `1` when the second range starts where the first ends,
`-1` when the first starts where the second ends. -/
def lmbAddrsAdjacent (base₁ size₁ base₂ size₂ : BitVec w) : ℤ :=
  if base₂ = base₁ + size₁ then 1
  else if base₁ = base₂ + size₂ then -1
  else 0

/-- `lmb_regions_adjacent`, on the two regions themselves. -/
def lmbRegionsAdjacent (r₁ r₂ : Property w) : ℤ :=
  lmbAddrsAdjacent r₁.base r₁.size r₂.base r₂.size

/-- `lmb_align_down`. -/
def lmbAlignDown (addr size : BitVec w) : BitVec w := addr &&& ~~~(size - 1)

/-! ## Adding a region -/

/-- How the first loop of `lmb_add_region` ends. -/
inductive Scan (w : ℕ) where
  /-- The table already holds exactly this region. -/
  | same
  /-- A region overlaps the new one. -/
  | overlap
  /-- The region between `before` and `after` was extended to `grown`. -/
  | coalesced (before : Region w) (grown : Property w) (after : Region w)
  /-- Every region was passed. -/
  | passed
deriving DecidableEq, Repr

/-- The result of the loop, seen from one region further left. -/
def Scan.push (r : Property w) : Scan w → Scan w
  | .coalesced before grown after => .coalesced (r :: before) grown after
  | s => s

/-- The first loop of `lmb_add_region`. -/
def addScan (base size : BitVec w) : Region w → Scan w
  | [] => .passed
  | r :: rgn =>
      if r.base = base ∧ r.size = size then .same
      else if lmbAddrsAdjacent base size r.base r.size > 0 then
        .coalesced [] ⟨r.base - size, r.size + size⟩ rgn
      else if lmbAddrsAdjacent base size r.base r.size < 0 then
        .coalesced [] ⟨r.base, r.size + size⟩ rgn
      else if lmbAddrsOverlap base size r.base r.size then .overlap
      else (addScan base size rgn).push r

/-- The step after the loop: a region that was just extended is merged with its
successor when the two touch (`lmb_coalesce_regions`).  The return value counts
the merges. -/
def coalesceNext (before : Region w) (r : Property w) : Region w → ℤ × Region w
  | [] => (1, before ++ [r])
  | next :: after =>
      if lmbRegionsAdjacent r next ≠ 0 then
        (2, before ++ ⟨r.base, r.size + next.size⟩ :: after)
      else (1, before ++ r :: next :: after)

/-- The last loop of `lmb_add_region`, which moves regions up from the end of the
table until the place of the new one is reached.  The list is in reverse table
order. -/
def shiftUp (new : Property w) : Region w → Region w
  | [] => [new]
  | r :: rgn => if new.base < r.base then r :: shiftUp new rgn else new :: r :: rgn

/-- The sorted insertion of `lmb_add_region`, with its closing test of slot `0`. -/
def addSorted (first : Property w) (rgn : Region w) (new : Property w) : Region w :=
  let moved := (shiftUp new rgn.reverse).reverse
  if new.base < first.base then moved.set 0 new else moved

/-- What follows the first loop of `lmb_add_region` in a table whose slot `0` is
`first`. -/
def addFinish (first : Property w) (rgn : Region w) (new : Property w) :
    Scan w → ℤ × Region w
  | .same => (0, rgn)
  | .overlap => (-1, rgn)
  | .coalesced before grown after => coalesceNext before grown after
  | .passed =>
      if maxLmbRegions ≤ rgn.length then (-1, rgn)
      else (0, addSorted first rgn new)

/-- `lmb_add_region`: the return value and the table afterwards. -/
def lmbAddRegion (rgn : Region w) (base size : BitVec w) : ℤ × Region w :=
  match rgn with
  | [] => (0, [⟨base, size⟩])
  | first :: _ => addFinish first rgn ⟨base, size⟩ (addScan base size rgn)

/-! ## The interface -/

/-- `lmb_init`. -/
def lmbInit : Tables w := ⟨[], []⟩

/-- `lmb_add`. -/
def lmbAdd (lmb : Tables w) (base size : BitVec w) : ℤ × Tables w :=
  let (ret, rgn) := lmbAddRegion lmb.memory base size
  (ret, { lmb with memory := rgn })

/-- `lmb_reserve`. -/
def lmbReserve (lmb : Tables w) (base size : BitVec w) : ℤ × Tables w :=
  let (ret, rgn) := lmbAddRegion lmb.reserved base size
  (ret, { lmb with reserved := rgn })

/-- The test of `lmb_free` that a region contains the range `[base, last]`. -/
def containsRange (base last : BitVec w) (r : Property w) : Bool :=
  decide (r.base ≤ base) && decide (last ≤ r.base + r.size - 1)

/-- What `lmb_free` does to the table of reserved regions before it may call
`lmb_add_region`. -/
inductive FreePlan (w : ℕ) where
  /-- No region contains the range. -/
  | notFound
  /-- The table afterwards. -/
  | done (rgn : Region w)
  /-- The region was cut off at the start of the hole; the part behind the hole
  is still to be added. -/
  | split (rgn : Region w) (back : Property w)
deriving DecidableEq, Repr

/-- `lmb_free` up to its call of `lmb_add_region`. -/
def freePlan (rgn : Region w) (base size : BitVec w) : FreePlan w :=
  let last := base + size - 1
  match rgn.span (fun r ↦ !containsRange base last r) with
  | (_, []) => .notFound
  | (before, r :: after) =>
      let rgnLast := r.base + r.size - 1
      if r.base = base ∧ rgnLast = last then .done (before ++ after)
      else if r.base = base then .done (before ++ ⟨last + 1, r.size - size⟩ :: after)
      else if rgnLast = last then .done (before ++ ⟨r.base, r.size - size⟩ :: after)
      else .split (before ++ ⟨r.base, base - r.base⟩ :: after) ⟨last + 1, rgnLast - last⟩

/-- `lmb_free`. -/
def lmbFree (lmb : Tables w) (base size : BitVec w) : ℤ × Tables w :=
  match freePlan lmb.reserved base size with
  | .notFound => (-1, lmb)
  | .done rgn => (0, { lmb with reserved := rgn })
  | .split rgn back =>
      let (ret, rgn) := lmbAddRegion rgn back.base back.size
      (ret, { lmb with reserved := rgn })

/-- `lmb_overlaps_region`: the first region that overlaps the range. -/
def lmbOverlapsRegion (rgn : Region w) (base size : BitVec w) : Option (Property w) :=
  rgn.find? fun r ↦ lmbAddrsOverlap base size r.base r.size

/-- The address at which `__lmb_alloc_base` starts its search in one memory
region, or `none` when it passes the region over. -/
def searchStart (m : Property w) (size align maxAddr : BitVec w) : Option (BitVec w) :=
  if m.size < size then none
  else if maxAddr = lmbAllocAnywhere then some (lmbAlignDown (m.base + m.size - size) align)
  else if m.base < maxAddr then
    let top := m.base + m.size
    let top := if top < m.base then -1 else top
    let top := if top < maxAddr then top else maxAddr
    some (lmbAlignDown (top - size) align)
  else none

/-- The `while` loop of `__lmb_alloc_base`, which searches one memory region
downwards.  `some (some b)` is a free address, `some none` leaves the loop, and
`none` means that the fuel ran out. -/
def searchDown (reserved : Region w) (lmbbase size align : BitVec w) :
    ℕ → BitVec w → Option (Option (BitVec w))
  | 0, _ => none
  | fuel + 1, base =>
      if base ≠ 0 ∧ lmbbase ≤ base then
        match lmbOverlapsRegion reserved base size with
        | none => some (some base)
        | some r =>
            if r.base < size then some none
            else searchDown reserved lmbbase size align fuel (lmbAlignDown (r.base - size) align)
      else some none

/-- The `for` loop of `__lmb_alloc_base`, over the memory regions from the last
to the first, up to the address it settles on. -/
def findBase (reserved : Region w) (size align maxAddr : BitVec w) :
    Region w → Option (Option (BitVec w))
  | [] => some none
  | m :: ms =>
      match searchStart m size align maxAddr with
      | none => findBase reserved size align maxAddr ms
      | some base =>
          match searchDown reserved m.base size align (base.toNat + 1) base with
          | some none => findBase reserved size align maxAddr ms
          | res => res

/-- `__lmb_alloc_base`: the address returned, `0` for failure, and the state
afterwards. -/
def lmbAllocBaseCore (lmb : Tables w) (size align maxAddr : BitVec w) :
    Option (BitVec w × Tables w) :=
  match findBase lmb.reserved size align maxAddr lmb.memory.reverse with
  | none => none
  | some none => some (0, lmb)
  | some (some b) =>
      let (ret, rgn) := lmbAddRegion lmb.reserved b size
      some (if ret < 0 then 0 else b, { lmb with reserved := rgn })

/-- `lmb_alloc_base`, which only adds a message to `__lmb_alloc_base`. -/
def lmbAllocBase (lmb : Tables w) (size align maxAddr : BitVec w) :
    Option (BitVec w × Tables w) :=
  lmbAllocBaseCore lmb size align maxAddr

/-- `lmb_alloc`. -/
def lmbAlloc (lmb : Tables w) (size align : BitVec w) : Option (BitVec w × Tables w) :=
  lmbAllocBase lmb size align lmbAllocAnywhere

/-- The test of `lmb_alloc_addr` that both ends of the range lie in one memory
region. -/
def inMemory (memory : Region w) (base size : BitVec w) : Bool :=
  match lmbOverlapsRegion memory base size with
  | none => false
  | some m => lmbAddrsOverlap m.base m.size (base + size - 1) 1

/-- `lmb_alloc_addr`. -/
def lmbAllocAddr (lmb : Tables w) (base size : BitVec w) : BitVec w × Tables w :=
  if inMemory lmb.memory base size then
    let (ret, lmb') := lmbReserve lmb base size
    (if 0 ≤ ret then base else 0, lmb')
  else (0, lmb)

/-- The loop of `lmb_get_free_size`. -/
def freeBelow (addr : BitVec w) : Region w → Option (BitVec w)
  | [] => none
  | r :: rgn =>
      if addr < r.base then some (r.base - addr)
      else if addr < r.base + r.size then some 0
      else freeBelow addr rgn

/-- `lmb_get_free_size`.  The table of memory regions is not empty where its last region
is read. -/
def lmbGetFreeSize (lmb : Tables w) (addr : BitVec w) : BitVec w :=
  match lmbOverlapsRegion lmb.memory addr 1 with
  | none => 0
  | some _ =>
      match freeBelow addr lmb.reserved, lmb.memory.getLast? with
      | some size, _ => size
      | none, some m => m.base + m.size - addr
      | none, none => 0

end MiniPi.Lmb
