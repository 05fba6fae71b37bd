import MiniPi.Lib.Mem
import MiniPi.Lib.Descent

/-!
# DOS partition tables

The model of `part_print_dos` and `part_get_info_dos`.  The tables on a disk are linked by their
entries for extended partitions; both functions follow the links by recursion, here in at most
`fuel` levels.  A block number is an `lbaint_t`, which has `w` bits.
-/

namespace MiniPi.Part

open Lib

/-! ## Tables -/

/-- The blocks of a disk; `none` is a block that cannot be read. -/
structure DosDisk where
  block : ℕ → Option Mem
  lba : ℕ

/-- `dos_partition_t`, with the two numbers in it. -/
structure DosPartition where
  bootInd : ℕ
  sysInd : ℕ
  start4 : ℕ
  size4 : ℕ
deriving DecidableEq

/-- The entry with number `slot` of the table in a block. -/
def dosPartition (buffer : Mem) (slot : ℕ) : DosPartition where
  bootInd := (buffer (0x1be + 16 * slot)).toNat
  sysInd := (buffer (0x1be + 16 * slot + 4)).toNat
  start4 := leValue (buffer.slice (0x1be + 16 * slot + 8) 4)
  size4 := leValue (buffer.slice (0x1be + 16 * slot + 12) 4)

def dosPartitions (buffer : Mem) : List DosPartition := (List.range 4).map (dosPartition buffer)

namespace DosPartition

variable (p : DosPartition)

def IsExtended : Prop := p.sysInd = 0x5 ∨ p.sysInd = 0xf ∨ p.sysInd = 0x85

instance : Decidable p.IsExtended := inferInstanceAs (Decidable (_ ∨ _))

def IsBootable : Prop := p.sysInd = 0xef ∨ p.bootInd = 0x80

instance : Decidable p.IsBootable := inferInstanceAs (Decidable (_ ∨ _))

/-- `(boot_ind & ~0x80) == 0`. -/
def BootIndOk : Prop := p.bootInd = 0 ∨ p.bootInd = 0x80

instance : Decidable p.BootIndOk := inferInstanceAs (Decidable (_ ∨ _))

/-- The entry is a partition that is shown for a table in block `sector`. -/
def IsShown (sector : ℕ) : Prop := p.sysInd ≠ 0 ∧ (sector = 0 ∨ ¬ p.IsExtended)

instance (sector : ℕ) : Decidable (p.IsShown sector) := inferInstanceAs (Decidable (_ ∧ _))

/-- `part_num` behind the entry. -/
def nextPartNum (sector partNum : ℕ) : ℕ :=
  if sector = 0 ∨ (p.sysInd ≠ 0 ∧ ¬ p.IsExtended) then partNum + 1 else partNum

end DosPartition

/-- The results of `test_block_type` other than -1. -/
inductive BlockType
  | pbr
  | mbr
deriving DecidableEq

def HasSignature (buffer : Mem) : Prop := buffer 0x1fe = 0x55 ∧ buffer 0x1ff = 0xaa

instance (buffer : Mem) : Decidable (HasSignature buffer) := inferInstanceAs (Decidable (_ ∧ _))

/-- The loop of `test_block_type` over `n` slots, in which `p` stays at the first entry. -/
def testSlots (buffer : Mem) : ℕ → ℕ → Option BlockType
  | 0, _ => some .mbr
  | n + 1, slot =>
      let p := dosPartition buffer 0
      if p.bootInd ≠ 0 ∧ p.bootInd ≠ 0x80 then
        if slot = 0 ∧ (buffer.slice 0x36 3 = ascii "FAT" ∨ buffer.slice 0x52 5 = ascii "FAT32") then
          some .pbr
        else none
      else testSlots buffer n (slot + 1)

def testBlockType (buffer : Mem) : Option BlockType :=
  if HasSignature buffer then testSlots buffer 3 0 else none

/-! ## The list of the partitions -/

/-- A line that `part_print_dos` prints. -/
inductive DosLine
  | part (partNum start size disksig : ℕ) (sysInd : ℕ) (extd boot : Bool)
  | nested
  | unreadable (sector : ℕ)
  | badSignature (byte₀ byte₁ : UInt8)
deriving DecidableEq

section

variable (w : ℕ)

/-- `print_one_part`. -/
def printOnePart (p : DosPartition) (extPartSector partNum disksig : ℕ) : DosLine :=
  .part partNum ((extPartSector + p.start4) % 2 ^ w) p.size4 disksig p.sysInd p.IsExtended
    p.IsBootable

/-- The first loop of `print_partition_extended`. -/
def printParts (extPartSector disksig : ℕ) : List DosPartition → ℕ → List DosLine
  | [], _ => []
  | p :: ps, partNum =>
      let lines := printParts extPartSector disksig ps (p.nextPartNum extPartSector partNum)
      if p.IsShown extPartSector then printOnePart w p extPartSector partNum disksig :: lines
        else lines

/-- `part_num` behind the entries of a table. -/
def partNumAfter (sector : ℕ) (ps : List DosPartition) (partNum : ℕ) : ℕ :=
  ps.foldl (fun n p ↦ p.nextPartNum sector n) partNum

/-- The arguments of a recursive call. -/
structure Visit where
  extPartSector : ℕ
  relative : ℕ
  partNum : ℕ
deriving DecidableEq

/-- The call for an extended partition of the table in `buffer`. -/
def Visit.link (v : Visit) (buffer : Mem) (p : DosPartition) : Visit :=
  let lbaStart := (p.start4 + v.relative) % 2 ^ w
  { extPartSector := lbaStart
    relative := if v.extPartSector = 0 then lbaStart else v.relative
    partNum := partNumAfter v.extPartSector (dosPartitions buffer) v.partNum }

/-- The entries that lead to other tables. -/
def links (buffer : Mem) : List DosPartition := (dosPartitions buffer).filter (·.IsExtended)

variable (disk : DosDisk)

/-- `print_partition_extended`: the lines that it prints, or `none` if `fuel` levels are not
enough. -/
def printPartitionExtended : ℕ → Visit → ℕ → Option (List DosLine)
  | 0, _, _ => none
  | fuel + 1, v, disksig =>
      if 256 < v.partNum then some [.nested]
      else
        match disk.block v.extPartSector with
        | none => some [.unreadable v.extPartSector]
        | some buffer =>
            if testBlockType buffer ≠ some .mbr then
              some [.badSignature (buffer 0x1fe) (buffer 0x1ff)]
            else
              let disksig := if v.extPartSector = 0 then leValue (buffer.slice 0x1b8 4) else disksig
              let lines := printParts w v.extPartSector disksig (dosPartitions buffer) v.partNum
              ((links buffer).mapM fun p ↦
                printPartitionExtended fuel (v.link w buffer p) disksig).map fun ls ↦ lines ++
                  ls.flatten

/-- The arguments of the first call. -/
def firstVisit : Visit := ⟨0, 0, 1⟩

def partPrintDos (fuel : ℕ) : Option (List DosLine) :=
  printPartitionExtended w disk fuel firstVisit 0

/-! ## One partition -/

/-- What is stored in a `disk_partition_t`. -/
structure DosInfo where
  start : ℕ
  size : ℕ
  blksz : ℕ
  bootable : Bool
  sysInd : Option ℕ
deriving DecidableEq

/-- The first loop of `part_get_info_extended`. -/
def findPart (extPartSector whichPart : ℕ) : List DosPartition → ℕ → Option DosInfo
  | [], _ => none
  | p :: ps, partNum =>
      if p.BootIndOk ∧ partNum = whichPart ∧ p.IsShown extPartSector then
        some {
          start := (extPartSector + p.start4) % 2 ^ w
          size := p.size4
          blksz := 512
          bootable := p.IsBootable
          sysInd := some p.sysInd }
      else findPart extPartSector whichPart ps (p.nextPartNum extPartSector partNum)

/-- `part_get_info_extended`: `some none` is -1, and `none` says that `fuel` levels are not
enough. -/
def partGetInfoExtended (whichPart : ℕ) : ℕ → Visit → Option (Option DosInfo)
  | 0, _ => none
  | fuel + 1, v =>
      if 256 < v.partNum then some none
      else
        match disk.block v.extPartSector with
        | none => some none
        | some buffer =>
            if ¬ HasSignature buffer then some none
            else
              match findPart w v.extPartSector whichPart (dosPartitions buffer) v.partNum with
              | some info => some (some info)
              | none =>
                  match links buffer with
                  | p :: _ => partGetInfoExtended whichPart fuel (v.link w buffer p)
                  | [] =>
                      if testBlockType buffer = some .pbr then
                        some (some {
                          start := 0
                          size := disk.lba
                          blksz := 512
                          bootable := false
                          sysInd := none })
                      else some none

def partGetInfoDos (whichPart fuel : ℕ) : Option (Option DosInfo) :=
  partGetInfoExtended w disk whichPart fuel firstVisit

end

/-! ## Termination -/

section

variable (w : ℕ) (disk : DosDisk)

/-- The calls that `print_partition_extended` makes. -/
def printCalls (v : Visit) : List Visit :=
  if 256 < v.partNum then []
  else
    match disk.block v.extPartSector with
    | none => []
    | some buffer => if testBlockType buffer = some .mbr then (links buffer).map (v.link w buffer)
        else []

/-- The call that `part_get_info_extended` makes, if it makes one. -/
def getCalls (whichPart : ℕ) (v : Visit) : List Visit :=
  if 256 < v.partNum then []
  else
    match disk.block v.extPartSector with
    | none => []
    | some buffer =>
        if HasSignature buffer ∧
          findPart w v.extPartSector whichPart (dosPartitions buffer) v.partNum = none
        then ((links buffer).map (v.link w buffer)).take 1
        else []

variable {w disk}

theorem isSome_mapM_iff {α β : Type} {f : α → Option β} {l : List α} :
    (l.mapM f).isSome ↔ ∀ a ∈ l, (f a).isSome := by
  induction l with
  | nil => simp
  | cons a l ih =>
      rw [List.mapM_cons, List.forall_mem_cons, ← ih]
      cases f a with
      | none => simp
      | some b => cases List.mapM f l <;> simp

theorem isSome_printPartitionExtended (fuel : ℕ) (v : Visit) (disksig : ℕ) :
    (printPartitionExtended w disk fuel v disksig).isSome ↔
      Descent.Within (printCalls w disk) fuel v := by
  induction fuel generalizing v disksig with
  | zero => simp [printPartitionExtended, Descent.Within]
  | succ fuel ih =>
      rw [Descent.Within, printPartitionExtended, printCalls]
      by_cases hnum : 256 < v.partNum
      · simp [hnum]
      rw [if_neg hnum, if_neg hnum]
      cases hblock : disk.block v.extPartSector with
      | none => simp
      | some buffer =>
          simp only
          by_cases htype : testBlockType buffer = some .mbr
          · rw [if_neg (not_not.mpr htype), if_pos htype, Option.isSome_map, isSome_mapM_iff,
              List.forall_mem_map]
            exact forall₂_congr fun p _ ↦ ih _ _
          · rw [if_pos htype, if_neg htype]
            simp

theorem isSome_partGetInfoExtended (whichPart fuel : ℕ) (v : Visit) :
    (partGetInfoExtended w disk whichPart fuel v).isSome ↔
      Descent.Within (getCalls w disk whichPart) fuel v := by
  induction fuel generalizing v with
  | zero => simp [partGetInfoExtended, Descent.Within]
  | succ fuel ih =>
      rw [Descent.Within, partGetInfoExtended, getCalls]
      by_cases hnum : 256 < v.partNum
      · simp [hnum]
      rw [if_neg hnum, if_neg hnum]
      cases hblock : disk.block v.extPartSector with
      | none => simp
      | some buffer =>
          simp only
          by_cases hsig : HasSignature buffer
          · rw [if_neg (not_not.mpr hsig)]
            cases hfind : findPart w v.extPartSector whichPart (dosPartitions buffer) v.partNum with
            | some info => simp
            | none =>
                cases hlinks : links buffer with
                | nil => split_ifs <;> simp
                | cons p ps => simp [hsig, ih]
          · simp [hsig]

/-! ### Finitely many calls -/

/-- The arguments that can occur. -/
def visits (w : ℕ) :
    Set Visit := {v | v.extPartSector < 2 ^ w ∧ v.relative < 2 ^ w ∧ v.partNum ≤ 260}

theorem finite_visits (w : ℕ) : (visits w).Finite := by
  let f (x : (ℕ × ℕ) × ℕ) : Visit := ⟨x.1.1, x.1.2, x.2⟩
  have hfin := ((Set.finite_Iio (2 ^ w)).prod (Set.finite_Iio (2 ^ w))).prod (Set.finite_Iic 260)
  refine (hfin.image f).subset ?_
  rintro v ⟨hsector, hrelative, hnum⟩
  exact ⟨((v.extPartSector, v.relative), v.partNum), ⟨⟨hsector, hrelative⟩, hnum⟩, rfl⟩

theorem firstVisit_mem : firstVisit ∈ visits w := ⟨Nat.two_pow_pos w, Nat.two_pow_pos w, by decide⟩

theorem le_nextPartNum (p : DosPartition) (sector n : ℕ) :
    n ≤ p.nextPartNum sector n ∧ p.nextPartNum sector n ≤ n + 1 := by
  unfold DosPartition.nextPartNum
  split_ifs <;> omega

theorem le_partNumAfter (sector : ℕ) (ps : List DosPartition) (n : ℕ) :
    n ≤ partNumAfter sector ps n ∧ partNumAfter sector ps n ≤ n + ps.length := by
  induction ps generalizing n with
  | nil => simp [partNumAfter]
  | cons p ps ih =>
      obtain ⟨hle, hge⟩ := le_nextPartNum p sector n
      obtain ⟨ihle, ihge⟩ := ih (p.nextPartNum sector n)
      rw [List.length_cons]
      change n ≤ partNumAfter sector ps (p.nextPartNum sector n) ∧
        partNumAfter sector ps (p.nextPartNum sector n) ≤ _
      omega

theorem link_mem_visits {v : Visit} (hv : v ∈ visits w) (hnum : v.partNum ≤ 256) (buffer : Mem)
    (p : DosPartition) : v.link w buffer p ∈ visits w := by
  have hlba : (p.start4 + v.relative) % 2 ^ w < 2 ^ w := Nat.mod_lt _ (Nat.two_pow_pos w)
  refine ⟨hlba, ?_, ?_⟩
  · unfold Visit.link
    simp only
    split_ifs
    · exact hlba
    · exact hv.2.1
  · have := (le_partNumAfter v.extPartSector (dosPartitions buffer) v.partNum).2
    have hlen : (dosPartitions buffer).length = 4 := by simp [dosPartitions]
    change partNumAfter v.extPartSector (dosPartitions buffer) v.partNum ≤ 260
    omega

theorem printCalls_mem_visits {v : Visit} (hv : v ∈ visits w) {t : Visit}
    (ht : t ∈ printCalls w disk v) :
    t ∈ visits w := by
  unfold printCalls at ht
  split_ifs at ht with hnum
  · cases ht
  cases hblock : disk.block v.extPartSector with
  | none => simp [hblock] at ht
  | some buffer =>
      simp only [hblock] at ht
      split_ifs at ht with htype
      · obtain ⟨p, -, rfl⟩ := List.mem_map.mp ht
        exact link_mem_visits hv (Nat.not_lt.mp hnum) buffer p
      · cases ht

theorem getCalls_mem_visits {whichPart : ℕ} {v : Visit} (hv : v ∈ visits w) {t : Visit}
    (ht : t ∈ getCalls w disk whichPart v) : t ∈ visits w := by
  unfold getCalls at ht
  split_ifs at ht with hnum
  · cases ht
  cases hblock : disk.block v.extPartSector with
  | none => simp [hblock] at ht
  | some buffer =>
      simp only [hblock] at ht
      split_ifs at ht with htype
      · obtain ⟨p, -, rfl⟩ := List.mem_map.mp (List.mem_of_mem_take ht)
        exact link_mem_visits hv (Nat.not_lt.mp hnum) buffer p
      · cases ht

/-! ### Tables that come back -/

variable (disk) in
/-- The table of a call is not the first one, and it has no logical partition. -/
def Idle (v : Visit) : Prop :=
  v.extPartSector ≠ 0 ∧ ∀ buffer, disk.block v.extPartSector = some buffer →
    ∀ p ∈ dosPartitions buffer, p.sysInd = 0 ∨ p.IsExtended

variable (disk) in
/-- No table that is reached leads back to itself through tables without logical partitions. -/
def NoIdleCycle (calls : Visit → List Visit) (s : Visit) : Prop :=
  ∀ t, Relation.ReflTransGen (Descent.Calls calls) s t →
    ¬ Relation.TransGen (fun u v ↦ Descent.Calls calls u v ∧ Idle disk u) t t

/-- Calls are made for the links of a table that can be read. -/
def FollowsLinks (w : ℕ) (disk : DosDisk) (calls : Visit → List Visit) : Prop :=
  ∀ v, ∀ t ∈ calls v, ∃ buffer p, disk.block v.extPartSector = some buffer ∧ t = v.link w buffer p

theorem followsLinks_printCalls : FollowsLinks w disk (printCalls w disk) := by
  intro v t ht
  unfold printCalls at ht
  split_ifs at ht
  · cases ht
  cases hblock : disk.block v.extPartSector with
  | none => simp [hblock] at ht
  | some buffer =>
      simp only [hblock] at ht
      split_ifs at ht
      · obtain ⟨p, -, rfl⟩ := List.mem_map.mp ht
        exact ⟨buffer, p, rfl, rfl⟩
      · cases ht

theorem followsLinks_getCalls (whichPart : ℕ) :
    FollowsLinks w disk (getCalls w disk whichPart) := by
  intro v t ht
  unfold getCalls at ht
  split_ifs at ht
  · cases ht
  cases hblock : disk.block v.extPartSector with
  | none => simp [hblock] at ht
  | some buffer =>
      simp only [hblock] at ht
      split_ifs at ht
      · obtain ⟨p, -, rfl⟩ := List.mem_map.mp (List.mem_of_mem_take ht)
        exact ⟨buffer, p, rfl, rfl⟩
      · cases ht

theorem mem_of_partNumAfter_le {sector : ℕ} {ps : List DosPartition} {n : ℕ}
    (h : partNumAfter sector ps n ≤ n) (p : DosPartition) (hp : p ∈ ps) :
    sector ≠ 0 ∧ (p.sysInd = 0 ∨ p.IsExtended) := by
  induction ps generalizing n with
  | nil => cases hp
  | cons q qs ih =>
      change partNumAfter sector qs (q.nextPartNum sector n) ≤ n at h
      have hq := (le_nextPartNum q sector n).1
      have hqs := (le_partNumAfter sector qs (q.nextPartNum sector n)).1
      have hsame : q.nextPartNum sector n = n := by omega
      rcases List.mem_cons.mp hp with rfl | hp
      · unfold DosPartition.nextPartNum at hsame
        split_ifs at hsame with hcount
        · omega
        · rw [not_or, not_and_or, not_not, not_not] at hcount
          exact hcount
      · rw [hsame] at h
        exact ih h hp

theorem FollowsLinks.partNum_le {calls : Visit → List Visit} (hcalls : FollowsLinks w disk calls)
    {v t : Visit} (ht : Descent.Calls calls v t) : v.partNum ≤ t.partNum := by
  obtain ⟨buffer, p, -, rfl⟩ := hcalls v t ht
  exact (le_partNumAfter _ _ _).1

theorem FollowsLinks.idle {calls : Visit → List Visit} (hcalls : FollowsLinks w disk calls)
    {v t : Visit} (ht : Descent.Calls calls v t) (hle : t.partNum ≤ v.partNum) : Idle disk v := by
  obtain ⟨buffer, p, hblock, rfl⟩ := hcalls v t ht
  have hmem := @mem_of_partNumAfter_le _ (dosPartitions buffer) _ hle
  constructor
  · exact (hmem (dosPartition buffer 0) (List.mem_map_of_mem (by decide))).1
  · intro buffer' hblock' q hq
    obtain rfl : buffer = buffer' := Option.some.inj (hblock.symm.trans hblock')
    exact (hmem q hq).2

/-- On the way back to a number that is not larger, no table has a logical partition. -/
theorem FollowsLinks.transGen_idle {calls : Visit → List Visit} (hcalls : FollowsLinks w disk calls)
    {u v : Visit} (h : Relation.TransGen (Descent.Calls calls) u v) :
    u.partNum ≤ v.partNum ∧ (v.partNum ≤ u.partNum →
      Relation.TransGen (fun u v ↦ Descent.Calls calls u v ∧ Idle disk u) u v) := by
  induction h using Relation.TransGen.head_induction_on with
  | single hcall => exact ⟨hcalls.partNum_le hcall,
      fun hle ↦ .single ⟨hcall, hcalls.idle hcall hle⟩⟩
  | head hcall _ ih =>
      obtain ⟨hmono, hidle⟩ := ih
      have hfirst := hcalls.partNum_le hcall
      refine ⟨hfirst.trans hmono, ?_⟩
      intro hle
      exact .head ⟨hcall, hcalls.idle hcall (hmono.trans hle)⟩ (hidle (hle.trans hfirst))

theorem noReturn_iff {calls : Visit → List Visit} (hcalls : FollowsLinks w disk calls) (s : Visit) :
    Descent.NoReturn calls s ↔ NoIdleCycle disk calls s := by
  constructor
  · intro h t ht hcycle
    have hmono : Relation.TransGen (fun u v ↦ Descent.Calls calls u v ∧ Idle disk u) ≤
        Relation.TransGen (Descent.Calls calls) := Relation.TransGen.mono fun _ _ hstep ↦ hstep.1
    exact h t ht (hmono t t hcycle)
  · intro h t ht hcycle
    exact h t ht ((hcalls.transGen_idle hcycle).2 le_rfl)

variable (w disk) in
/-- Both functions return. -/
def DosFinishes (whichPart : ℕ) : Prop :=
  (∃ fuel, (partPrintDos w disk fuel).isSome) ∧
    ∃ fuel, (partGetInfoDos w disk whichPart fuel).isSome

theorem exists_isSome_partPrintDos :
    (∃ fuel, (partPrintDos w disk fuel).isSome) ↔
    Descent.NoReturn (printCalls w disk) firstVisit := by
  rw [← Descent.exists_within_iff_noReturn (finite_visits w)
    (fun _ hs _ ht ↦ printCalls_mem_visits hs ht)
    firstVisit_mem]
  exact exists_congr fun fuel ↦ isSome_printPartitionExtended fuel firstVisit 0

theorem exists_isSome_partGetInfoDos (whichPart : ℕ) :
    (∃ fuel, (partGetInfoDos w disk whichPart fuel).isSome) ↔
      Descent.NoReturn (getCalls w disk whichPart) firstVisit := by
  rw [← Descent.exists_within_iff_noReturn (finite_visits w)
    (fun _ hs _ ht ↦ getCalls_mem_visits hs ht)
    firstVisit_mem]
  exact exists_congr fun fuel ↦ isSome_partGetInfoExtended whichPart fuel firstVisit

/-- The two functions return if and only if no table without logical partitions leads back to
itself. -/
theorem dosFinishes_iff (w : ℕ) (disk : DosDisk) (whichPart : ℕ) :
    DosFinishes w disk whichPart ↔
      NoIdleCycle disk (printCalls w disk) firstVisit ∧
        NoIdleCycle disk (getCalls w disk whichPart) firstVisit := by
  rw [← noReturn_iff followsLinks_printCalls, ← noReturn_iff (followsLinks_getCalls whichPart)]
  exact and_congr exists_isSome_partPrintDos (exists_isSome_partGetInfoDos whichPart)

/-- A table with one entry, for an extended partition. -/
def extendedTable (start4 : UInt8) : Mem := fun a ↦
  if a = 0x1fe then 0x55
  else if a = 0x1ff then 0xaa
  else if a = 0x1c2 then 5
  else if a = 0x1c6 then start4
  else 0

/-- A disk on which the extended table in block 1 links to itself. -/
def loopedDisk : DosDisk where
  block n := some (extendedTable (if n = 0 then 1 else 0))
  lba := 2048

theorem not_dosFinishes_loopedDisk :
    (¬ ∃ fuel, (partPrintDos 32 loopedDisk fuel).isSome) ∧
      ¬ ∃ fuel, (partGetInfoDos 32 loopedDisk 5 fuel).isSome := by
  rw [exists_isSome_partPrintDos, exists_isSome_partGetInfoDos]
  constructor
  · intro h
    refine h ⟨1, 1, 5⟩ (.single ?_) (.single ?_)
    · change _ ∈ _
      decide +kernel
    · change _ ∈ _
      decide +kernel
  · intro h
    refine h ⟨1, 1, 5⟩ (.single ?_) (.single ?_)
    · change _ ∈ _
      decide +kernel
    · change _ ∈ _
      decide +kernel

end

end MiniPi.Part
