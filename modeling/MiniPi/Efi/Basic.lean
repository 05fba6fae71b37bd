import Mathlib

/-!
# The EFI memory map

`efi_add_memory_map` of `lib/efi_loader/efi_memory.c`, with the functions that carve a region out of
the map, sort it and merge its entries.  The list `efi_mem` is modelled by the list of its
descriptors, a `u64` by a natural number with explicit reductions.  Every allocation succeeds; the
event that tells of a changed map is left out.
-/

namespace MiniPi.Efi

/-- `struct efi_mem_desc`. -/
structure MemDesc where
  type : ℕ
  physicalStart : ℕ
  virtualStart : ℕ
  numPages : ℕ
  attr : ℕ
deriving DecidableEq, Repr

/-- `pages << EFI_PAGE_SHIFT`. -/
def pageBytes (pages : ℕ) : ℕ := pages * 2 ^ 12 % 2 ^ 64

/-- The sum of two `u64`s. -/
def add64 (a b : ℕ) : ℕ := (a + b) % 2 ^ 64

/-- The difference of two `u64`s. -/
def sub64 (a b : ℕ) : ℕ := (a + 2 ^ 64 - b) % 2 ^ 64

/-- `EFI_RUNTIME_SERVICES_CODE`. -/
def runtimeServicesCode : ℤ := 5

/-- `EFI_RUNTIME_SERVICES_DATA`. -/
def runtimeServicesData : ℤ := 6

/-- `EFI_CONVENTIONAL_MEMORY`. -/
def conventionalMemory : ℕ := 7

/-- `EFI_MMAP_IO`. -/
def mmapIo : ℤ := 11

/-- `EFI_MAX_MEMORY_TYPE`. -/
def maxMemoryType : ℤ := 15

/-- `EFI_MEMORY_WB`. -/
def memoryWb : ℕ := 0x8

/-- `EFI_MEMORY_RUNTIME`. -/
def memoryRuntime : ℕ := 0x8000000000000000

/-! ## Carving -/

/-- `desc_get_end`. -/
def descGetEnd (desc : MemDesc) : ℕ := add64 desc.physicalStart (pageBytes desc.numPages)

/-- What `efi_mem_carve_out` returns, with what takes the place of the map entry. -/
inductive Carve
  | noOverlap
  | overlapsNonram
  | loopAgain (newmap map : MemDesc)
  | pages (n : ℕ) (map : Option MemDesc)

/-- `efi_mem_carve_out`. -/
def efiMemCarveOut (map carveDesc : MemDesc) (overlapOnlyRam : Bool) : Carve :=
  let mapStart := map.physicalStart
  let mapEnd := descGetEnd map
  let carveStart := carveDesc.physicalStart
  let carveEnd := descGetEnd carveDesc
  if carveEnd ≤ mapStart ∨ mapEnd ≤ carveStart then .noOverlap
  else if overlapOnlyRam = true ∧ map.type ≠ conventionalMemory then .overlapsNonram
  else
    let carveStart := max carveStart mapStart
    let carveEnd := min carveEnd mapEnd
    if carveStart = mapStart then
      let n := sub64 carveEnd carveStart / 2 ^ 12
      if mapEnd = carveEnd then .pages n none
      else
        .pages n (some { map with
          physicalStart := carveEnd
          virtualStart := carveEnd
          numPages := sub64 mapEnd carveEnd / 2 ^ 12 })
    else
      .loopAgain
        { map with
          physicalStart := carveStart
          virtualStart := carveStart
          numPages := sub64 mapEnd carveStart / 2 ^ 12 }
        { map with numPages := sub64 carveStart mapStart / 2 ^ 12 }

/-- How a walk over the list in `efi_add_memory_map` ends. -/
inductive Walk
  | done
  | noMapping (efiMem : List MemDesc)
  | again (carved : ℕ) (efiMem : List MemDesc)

/-- The entry `desc` stands before the list that the walk leaves. -/
def Walk.keep (desc : MemDesc) : Walk → Walk
  | .done => .done
  | .noMapping efiMem => .noMapping (desc :: efiMem)
  | .again carved efiMem => .again carved (desc :: efiMem)

/-- One walk over the list, up to the first entry that changes. -/
def carveWalk (newDesc : MemDesc) (overlapOnlyRam : Bool) : List MemDesc → Walk
  | [] => .done
  | map :: rest =>
    match efiMemCarveOut map newDesc overlapOnlyRam with
    | .overlapsNonram => .noMapping (map :: rest)
    | .noOverlap => (carveWalk newDesc overlapOnlyRam rest).keep map
    | .loopAgain newmap map => .again 0 (newmap :: map :: rest)
    | .pages n left => .again n (left.toList ++ rest)

/-- The result of the carving loop. -/
inductive Carved
  | noMapping (efiMem : List MemDesc)
  | carved (pages : ℕ) (efiMem : List MemDesc)

/-- The loop of `efi_add_memory_map`, for at most `n` walks. -/
def carveLoop (newDesc : MemDesc) (overlapOnlyRam : Bool) :
    ℕ → ℕ → List MemDesc → Option Carved
  | 0, _, _ => none
  | n + 1, carvedPages, efiMem =>
    match carveWalk newDesc overlapOnlyRam efiMem with
    | .done => some (.carved carvedPages efiMem)
    | .noMapping efiMem => some (.noMapping efiMem)
    | .again r efiMem => carveLoop newDesc overlapOnlyRam n (add64 carvedPages r) efiMem

/-! ## Sorting and merging -/

/-- `efi_mem_cmp`. -/
def efiMemCmp (a b : MemDesc) : ℤ :=
  if a.physicalStart = b.physicalStart then 0
  else if a.physicalStart < b.physicalStart then 1
  else -1

/-- `list_sort` with `efi_mem_cmp`; both sorts are stable. -/
def listSort (efiMem : List MemDesc) : List MemDesc :=
  efiMem.insertionSort fun a b ↦ efiMemCmp a b ≤ 0

/-- The entry `cur` ends where `prev` starts, and they agree otherwise. -/
def Mergeable (prev cur : MemDesc) : Prop :=
  descGetEnd cur = prev.physicalStart ∧ prev.type = cur.type ∧ prev.attr = cur.attr

instance (prev cur : MemDesc) : Decidable (Mergeable prev cur) :=
  inferInstanceAs (Decidable (_ ∧ _ ∧ _))

/-- The entry `prev` after `cur` is merged into it. -/
def merge (prev cur : MemDesc) : MemDesc :=
  { prev with
    numPages := add64 prev.numPages cur.numPages
    physicalStart := sub64 prev.physicalStart (pageBytes cur.numPages)
    virtualStart := sub64 prev.virtualStart (pageBytes cur.numPages) }

/-- How a walk over the list in `efi_mem_sort` ends; `fault` is a use of a freed entry. -/
inductive MergeWalk
  | done
  | fault
  | again (efiMem : List MemDesc) (prevmem : ℕ)

/-- One walk over the entries from number `i` on, `n` of them; `prevmem` is the number of the entry
that the pointer of this name points to. -/
def mergeWalk (efiMem : List MemDesc) : ℕ → ℕ → Option ℕ → MergeWalk
  | 0, _, _ => .done
  | n + 1, i, none => mergeWalk efiMem n (i + 1) (some i)
  | n + 1, i, some p =>
    match efiMem[p]?, efiMem[i]? with
    | some prev, some cur =>
      if Mergeable prev cur then
        if i = p then .fault
        else .again ((efiMem.set p (merge prev cur)).eraseIdx i) (if i < p then p - 1 else p)
      else mergeWalk efiMem n (i + 1) (some i)
    | _, _ => .fault

/-- The loop of `efi_mem_sort`, for at most `n` walks; `prevmem` is kept from walk to walk. -/
def mergeLoop : ℕ → Option ℕ → List MemDesc → Option (List MemDesc)
  | 0, _, _ => none
  | n + 1, prevmem, efiMem =>
    match mergeWalk efiMem efiMem.length 0 prevmem with
    | .done => some efiMem
    | .fault => none
    | .again efiMem p => mergeLoop n (some p) efiMem

/-- `efi_mem_sort`. -/
def efiMemSort (efiMem : List MemDesc) : Option (List MemDesc) :=
  mergeLoop (efiMem.length + 1) none (listSort efiMem)

/-! ## Adding a region -/

/-- `efi_status_t`, as far as it is returned here. -/
inductive Status
  | success
  | invalidParameter
  | noMapping
deriving DecidableEq, Repr

/-- The attribute that a memory type gets. -/
def attributeOf (memoryType : ℤ) : ℕ :=
  if memoryType = runtimeServicesCode ∨ memoryType = runtimeServicesData then
    memoryWb + memoryRuntime
  else if memoryType = mmapIo then memoryRuntime
  else memoryWb

/-- The descriptor of the new entry. -/
def newDesc (start pages : ℕ) (memoryType : ℤ) : MemDesc where
  type := (memoryType % 2 ^ 32).toNat
  physicalStart := start
  virtualStart := start
  numPages := pages
  attr := attributeOf memoryType

/-- `efi_add_memory_map`; `none` if it does not return.  Each walk but the last takes an entry apart
or removes it, and no entry is met more than twice. -/
def efiAddMemoryMap (efiMem : List MemDesc) (start pages : ℕ) (memoryType : ℤ)
    (overlapOnlyRam : Bool) : Option (Status × List MemDesc) :=
  if maxMemoryType ≤ memoryType then some (.invalidParameter, efiMem)
  else if pages = 0 then some (.success, efiMem)
  else do
    let desc := newDesc start pages memoryType
    match ← carveLoop desc overlapOnlyRam (2 * efiMem.length + 1) 0 efiMem with
    | .noMapping efiMem => some (.noMapping, efiMem)
    | .carved carvedPages efiMem =>
      if overlapOnlyRam = true ∧ carvedPages ≠ pages then some (.noMapping, efiMem)
      else do
        let efiMem ← efiMemSort (efiMem ++ [desc])
        some (.success, efiMem)

end MiniPi.Efi
