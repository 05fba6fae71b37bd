import MiniPi.Part.Dos

/-!
# Listing and lookup of DOS partitions

When `part_print_dos` shows a partition exactly if `part_get_info_dos` finds it.  The list has the
entries of all tables that are reached over links; a lookup follows the first link of each table
only.
-/

namespace MiniPi.Part

open Lib

/-! ## The numbers of the entries -/

/-- The entries of a table with their numbers. -/
def numbered (sector : ℕ) : List DosPartition → ℕ → List (DosPartition × ℕ)
  | [], _ => []
  | p :: ps, n => (p, n) :: numbered sector ps (p.nextPartNum sector n)

section

variable {w : ℕ} {disk : DosDisk} {sector n m s z : ℕ} {ps : List DosPartition} {p : DosPartition}

theorem mem_of_mem_numbered (h : (p, m) ∈ numbered sector ps n) : p ∈ ps := by
  induction ps generalizing n with
  | nil => cases h
  | cons q qs ih =>
      rcases List.mem_cons.mp h with heq | h
      · rw [(Prod.mk.inj heq).1]
        exact List.mem_cons_self
      · exact List.mem_cons_of_mem q (ih h)

theorem le_of_mem_numbered (h : (p, m) ∈ numbered sector ps n) : n ≤ m := by
  induction ps generalizing n with
  | nil => cases h
  | cons q qs ih =>
      rcases List.mem_cons.mp h with heq | h
      · exact (Prod.mk.inj heq).2.ge
      · exact (le_nextPartNum q sector n).1.trans (ih h)

theorem DosPartition.IsShown.nextPartNum (h : p.IsShown sector) (n : ℕ) :
    p.nextPartNum sector n = n + 1 := by
  obtain ⟨hused, hshown⟩ := h
  refine if_pos ?_
  rcases hshown with hzero | hext
  · exact .inl hzero
  · exact .inr ⟨hused, hext⟩

theorem lt_partNumAfter (h : (p, m) ∈ numbered sector ps n) (hp : p.IsShown sector) :
    m < partNumAfter sector ps n := by
  induction ps generalizing n with
  | nil => cases h
  | cons q qs ih =>
      change m < partNumAfter sector qs (q.nextPartNum sector n)
      rcases List.mem_cons.mp h with heq | h
      · obtain ⟨rfl, rfl⟩ := Prod.mk.inj heq
        have hle := (le_partNumAfter sector qs (p.nextPartNum sector m)).1
        rw [hp.nextPartNum] at hle ⊢
        exact hle
      · exact ih h

variable (w) in
/-- A line for the partition with number `m`. -/
def DosLine.Shows (m s z : ℕ) : DosLine → Prop
  | .part partNum start size _ _ _ _ => partNum = m ∧ start = s ∧ size = z
  | _ => False

variable (w) in
/-- The table has a partition with number `m` that is shown. -/
def HasPart (sector : ℕ) (ps : List DosPartition) (n m s z : ℕ) (p : DosPartition) : Prop :=
  (p, m) ∈ numbered sector ps n ∧ p.IsShown sector ∧ (sector + p.start4) % 2 ^ w = s ∧ p.size4 = z

theorem exists_mem_printParts (disksig : ℕ) :
    (∃ line ∈ printParts w sector disksig ps n, line.Shows m s z) ↔
      ∃ p, HasPart w sector ps n m s z p := by
  induction ps generalizing n with
  | nil => simp [printParts, HasPart, numbered]
  | cons q qs ih =>
      have htail : (∃ p, HasPart w sector (q :: qs) n m s z p) ↔
          (q.IsShown sector ∧ n = m ∧ (sector + q.start4) % 2 ^ w = s ∧ q.size4 = z) ∨
            ∃ p, HasPart w sector qs (q.nextPartNum sector n) m s z p := by
        constructor
        · rintro ⟨p, hmem, hshown, hs, hz⟩
          rcases List.mem_cons.mp hmem with heq | hmem
          · obtain ⟨rfl, rfl⟩ := Prod.mk.inj heq
            exact .inl ⟨hshown, rfl, hs, hz⟩
          · exact .inr ⟨p, hmem, hshown, hs, hz⟩
        · rintro (⟨hshown, rfl, hs, hz⟩ | ⟨p, hmem, hp⟩)
          · exact ⟨q, List.mem_cons_self, hshown, hs, hz⟩
          · exact ⟨p, List.mem_cons_of_mem _ hmem, hp⟩
      rw [htail, ← ih, printParts]
      split_ifs with hshown
      · rw [List.exists_mem_cons_iff]
        refine or_congr ?_ Iff.rfl
        simp only [hshown, true_and]
        exact Iff.rfl
      · simp only [hshown, false_and, false_or]

theorem findPart_iff :
    (∃ info, findPart w sector m ps n = some info ∧ info.start = s ∧ info.size = z) ↔
      ∃ p, HasPart w sector ps n m s z p ∧ p.BootIndOk := by
  induction ps generalizing n with
  | nil => simp [findPart, HasPart, numbered]
  | cons q qs ih =>
      rw [findPart]
      split_ifs with hq
      · obtain ⟨hboot, rfl, hshown⟩ := hq
        constructor
        · rintro ⟨info, heq, hs, hz⟩
          obtain rfl := Option.some.inj heq
          exact ⟨q, ⟨List.mem_cons_self, hshown, hs, hz⟩, hboot⟩
        · rintro ⟨p, ⟨hmem, hp, hs, hz⟩, -⟩
          rcases List.mem_cons.mp hmem with heq | hmem
          · obtain ⟨rfl, -⟩ := Prod.mk.inj heq
            exact ⟨_, rfl, hs, hz⟩
          · -- the entries behind this one have larger numbers
            have hle := le_of_mem_numbered hmem
            rw [hshown.nextPartNum] at hle
            omega
      · rw [ih]
        constructor
        · rintro ⟨p, ⟨hmem, hp⟩, hboot⟩
          exact ⟨p, ⟨List.mem_cons_of_mem _ hmem, hp⟩, hboot⟩
        · rintro ⟨p, ⟨hmem, hp, hs, hz⟩, hboot⟩
          rcases List.mem_cons.mp hmem with heq | hmem
          · obtain ⟨rfl, rfl⟩ := Prod.mk.inj heq
            exact absurd ⟨hboot, rfl, hp⟩ hq
          · exact ⟨p, ⟨hmem, hp, hs, hz⟩, hboot⟩

end

/-! ## The tables that are reached -/

section

variable (w : ℕ) (disk : DosDisk)

/-- The call reads a table. -/
def ReadsTable (v : Visit) (buffer : Mem) : Prop :=
  v.partNum ≤ 256 ∧ disk.block v.extPartSector = some buffer

/-- The table of a call has a partition with number `m`. -/
def VisitHas (v : Visit) (buffer : Mem) (m s z : ℕ) (p : DosPartition) : Prop :=
  HasPart w v.extPartSector (dosPartitions buffer) v.partNum m s z p

/-- A partition that is shown for the table of a call. -/
def Shows (v : Visit) (m s z : ℕ) : Prop :=
  ∃ buffer p, ReadsTable disk v buffer ∧ testBlockType buffer = some .mbr ∧
    VisitHas w v buffer m s z p

/-- A partition that is found in the table of a call. -/
def Finds (v : Visit) (m s z : ℕ) : Prop :=
  ∃ buffer p, ReadsTable disk v buffer ∧ HasSignature buffer ∧ VisitHas w v buffer m s z p ∧
    p.BootIndOk

/-- All links of a table with a signature. -/
def tableCalls (v : Visit) : List Visit :=
  if 256 < v.partNum then []
  else
    match disk.block v.extPartSector with
    | none => []
    | some buffer => if HasSignature buffer then (links buffer).map (v.link w buffer) else []

/-- The first link of a table with a signature. -/
def firstCalls (v : Visit) : List Visit := (tableCalls w disk v).take 1

/-- The first link of a table that the list takes for one. -/
def mainCalls (v : Visit) : List Visit := (printCalls w disk v).take 1

variable {w disk}

theorem mem_flatten_of_mapM {α β : Type} {f : α → Option (List β)} {l : List α} {ls : List (List β)}
    (h : l.mapM f = some ls) (b : β) : b ∈ ls.flatten ↔ ∃ a ∈ l, ∃ bs, f a = some bs ∧ b ∈ bs := by
  induction l generalizing ls with
  | nil =>
      obtain rfl : ls = [] := by simpa using h.symm
      simp
  | cons a l ih =>
      rw [List.mapM_cons] at h
      obtain ⟨bs, hbs, h⟩ := Option.bind_eq_some_iff.mp h
      obtain ⟨rest, hrest, h⟩ := Option.bind_eq_some_iff.mp h
      obtain rfl : bs :: rest = ls := Option.some.inj h
      rw [List.flatten_cons, List.mem_append, ih hrest, List.exists_mem_cons_iff, hbs]
      simp

/-- The lines that are printed are those of the tables that are reached. -/
theorem exists_mem_printPartitionExtended {fuel : ℕ} {v : Visit} {disksig : ℕ}
    {lines : List DosLine} (h : printPartitionExtended w disk fuel v disksig = some lines)
    (m s z : ℕ) :
    (∃ line ∈ lines, line.Shows m s z) ↔
      ∃ u, Relation.ReflTransGen (Descent.Calls (printCalls w disk)) v u ∧
      Shows w disk u m s z := by
  induction fuel generalizing v disksig lines with
  | zero => cases h
  | succ fuel ih =>
      -- a call without a table of its own
      have hnone (hcalls : printCalls w disk v = []) (hshows : ¬ Shows w disk v m s z)
          (hline : ∀ line ∈ lines, ¬ line.Shows m s z) : (∃ line ∈ lines, line.Shows m s z) ↔
          ∃ u, Relation.ReflTransGen (Descent.Calls (printCalls w disk)) v u ∧
          Shows w disk u m s z := by
        constructor
        · rintro ⟨line, hmem, hshow⟩
          exact absurd hshow (hline line hmem)
        · rintro ⟨u, hu, hshow⟩
          rcases Relation.ReflTransGen.cases_head hu with rfl | ⟨t, ht, -⟩
          · exact absurd hshow hshows
          · rw [Descent.Calls, hcalls] at ht
            cases ht
      rw [printPartitionExtended] at h
      by_cases hnum : 256 < v.partNum
      · rw [if_pos hnum] at h
        obtain rfl := Option.some.inj h
        refine hnone (by simp [printCalls, hnum]) ?_ (by simp [DosLine.Shows])
        rintro ⟨buffer, p, ⟨hle, -⟩, -⟩
        omega
      rw [if_neg hnum] at h
      cases hblock : disk.block v.extPartSector with
      | none =>
          rw [hblock] at h
          obtain rfl := Option.some.inj h
          refine hnone (by simp [printCalls, hblock]) ?_ (by simp [DosLine.Shows])
          rintro ⟨buffer, p, ⟨-, hread⟩, -⟩
          rw [hblock] at hread
          cases hread
      | some buffer =>
          simp only [hblock] at h
          by_cases htype : testBlockType buffer = some .mbr
          · rw [if_neg (not_not.mpr htype)] at h
            generalize (if v.extPartSector = 0 then leValue (buffer.slice 0x1b8 4)
              else disksig) = sig at h
            obtain ⟨ls, hls, rfl⟩ := Option.map_eq_some_iff.mp h
            have hcalls : printCalls w disk v = (links buffer).map (v.link w buffer) := by
              rw [printCalls, if_neg hnum, hblock]
              exact if_pos htype
            have hown : (∃ p, HasPart w v.extPartSector (dosPartitions buffer) v.partNum m s z p) ↔
                Shows w disk v m s z := by
              constructor
              · rintro ⟨p, hp⟩
                exact ⟨buffer, p, ⟨Nat.not_lt.mp hnum, hblock⟩, htype, hp⟩
              · rintro ⟨buffer', p, ⟨-, hread⟩, -, hp⟩
                obtain rfl : buffer = buffer' := Option.some.inj (hblock.symm.trans hread)
                exact ⟨p, hp⟩
            have happend : (∃ line ∈
                  printParts w v.extPartSector sig (dosPartitions buffer) v.partNum ++ ls.flatten,
                  line.Shows m s z) ↔
                Shows w disk v m s z ∨ ∃ line ∈ ls.flatten, line.Shows m s z := by
              rw [← hown, ← exists_mem_printParts sig]
              simp only [List.mem_append, or_and_right, exists_or]
            rw [happend]
            constructor
            · rintro (hshow | ⟨line, hmem, hshow⟩)
              · exact ⟨v, .refl, hshow⟩
              · obtain ⟨p, hp, bs, hbs, hline⟩ := (mem_flatten_of_mapM hls line).mp hmem
                obtain ⟨u, hu, hshows⟩ := (ih hbs).mp ⟨line, hline, hshow⟩
                refine ⟨u, .head ?_ hu, hshows⟩
                rw [Descent.Calls, hcalls]
                exact List.mem_map_of_mem hp
            · rintro ⟨u, hu, hshows⟩
              rcases Relation.ReflTransGen.cases_head hu with rfl | ⟨t, ht, htu⟩
              · exact .inl hshows
              · rw [Descent.Calls, hcalls] at ht
                obtain ⟨p, hp, rfl⟩ := List.mem_map.mp ht
                obtain ⟨bs, hbs⟩ :
                  ∃ bs, printPartitionExtended w disk fuel (v.link w buffer p) sig = some bs :=
                  Option.isSome_iff_exists.mp
                    (isSome_mapM_iff.mp (Option.isSome_iff_exists.mpr ⟨ls, hls⟩) p hp)
                obtain ⟨line, hline, hshow⟩ := (ih hbs).mpr ⟨u, htu, hshows⟩
                exact .inr ⟨line, (mem_flatten_of_mapM hls line).mpr ⟨p, hp, bs, hbs, hline⟩, hshow⟩
          · rw [if_pos htype] at h
            obtain rfl := Option.some.inj h
            refine hnone ?_ ?_ (by simp [DosLine.Shows])
            · rw [printCalls, if_neg hnum, hblock]
              exact if_neg htype
            · rintro ⟨buffer', p, ⟨-, hread⟩, htype', -⟩
              obtain rfl : buffer = buffer' := Option.some.inj (hblock.symm.trans hread)
              exact htype htype'

/-! ## Lookups -/

variable (w disk) in
/-- The chain of first links ends in a table that is taken for a boot record. -/
def PbrEnd (v : Visit) : Prop :=
  ∃ u buffer, Relation.ReflTransGen (Descent.Calls (firstCalls w disk)) v u ∧
    ReadsTable disk u buffer ∧
    links buffer = [] ∧ testBlockType buffer = some .pbr

variable (w disk) in
/-- A partition that a table of the chain of first links has. -/
def OnChain (v : Visit) (m s z : ℕ) : Prop :=
  ∃ u, Relation.ReflTransGen (Descent.Calls (firstCalls w disk)) v u ∧ Finds w disk u m s z

theorem hasSignature_of_testBlockType {buffer : Mem} {t : BlockType}
    (h : testBlockType buffer = some t) :
    HasSignature buffer := by
  unfold testBlockType at h
  split_ifs at h with hsig
  exact hsig

theorem firstCalls_of_links {v : Visit} {buffer : Mem} {l : List DosPartition}
    (hread : ReadsTable disk v buffer) (hsig : HasSignature buffer) (hlinks : links buffer = l) :
    firstCalls w disk v = (l.map (v.link w buffer)).take 1 := by
  rw [firstCalls, tableCalls, if_neg (Nat.not_lt.mpr hread.1), hread.2, ← hlinks]
  exact congrArg (List.take 1) (if_pos hsig)

theorem link_partNum_of_firstCalls {v t : Visit} {buffer : Mem} (hread : ReadsTable disk v buffer)
    (ht : Descent.Calls (firstCalls w disk) v t) :
    t.partNum = partNumAfter v.extPartSector (dosPartitions buffer) v.partNum := by
  have ht' := List.mem_of_mem_take ht
  rw [tableCalls, if_neg (Nat.not_lt.mpr hread.1), hread.2] at ht'
  simp only at ht'
  split_ifs at ht' with hsig
  · obtain ⟨p, -, rfl⟩ := List.mem_map.mp ht'
    rfl
  · cases ht'

theorem partNum_le_of_reaches {v u : Visit}
    (h : Relation.ReflTransGen (Descent.Calls (firstCalls w disk)) v u) :
    v.partNum ≤ u.partNum := by
  induction h with
  | refl => exact le_rfl
  | tail _ hcall ih =>
      refine ih.trans ?_
      have hmem := List.mem_of_mem_take hcall
      unfold tableCalls at hmem
      split_ifs at hmem with hnum
      · cases hmem
      split at hmem
      · cases hmem
      · split_ifs at hmem
        · obtain ⟨p, -, rfl⟩ := List.mem_map.mp hmem
          exact (le_partNumAfter _ _ _).1
        · cases hmem

/-- A number is that of one partition of the chain at most. -/
theorem Shows.unique {v u : Visit} {buffer buffer' : Mem} {m s z s' z' : ℕ} {p p' : DosPartition}
    (hread : ReadsTable disk v buffer) (hp : VisitHas w v buffer m s z p)
    (hvu : Relation.ReflTransGen (Descent.Calls (firstCalls w disk)) v u)
    (hread' : ReadsTable disk u buffer') (hp' : VisitHas w u buffer' m s' z' p') :
    u = v ∧ buffer' = buffer := by
  rcases Relation.ReflTransGen.cases_head hvu with rfl | ⟨t, ht, htu⟩
  · exact ⟨rfl, Option.some.inj (hread'.2.symm.trans hread.2)⟩
  · have hlt := lt_partNumAfter hp.1 hp.2.1
    rw [← link_partNum_of_firstCalls hread ht] at hlt
    have hle := partNum_le_of_reaches htu
    have hle' := le_of_mem_numbered hp'.1
    omega

theorem finds_iff_findPart {v : Visit} {buffer : Mem} {m s z : ℕ} (hread : ReadsTable disk v buffer)
    (hsig : HasSignature buffer) :
    Finds w disk v m s z ↔ ∃ info, findPart w v.extPartSector m (dosPartitions buffer) v.partNum =
      some info ∧ info.start = s ∧ info.size = z := by
  rw [findPart_iff]
  constructor
  · rintro ⟨buffer', p, hread', -, hp, hboot⟩
    obtain rfl : buffer' = buffer := Option.some.inj (hread'.2.symm.trans hread.2)
    exact ⟨p, hp, hboot⟩
  · rintro ⟨p, hp, hboot⟩
    exact ⟨buffer, p, hread, hsig, hp, hboot⟩

/-- What a lookup returns: a partition of the chain, and for other numbers the whole disk if the
chain ends in a boot record. -/
def LookupSpec (w : ℕ) (disk : DosDisk) (m : ℕ) (v : Visit) (r : Option DosInfo) : Prop :=
  ∀ s z, (∃ info, r = some info ∧ info.start = s ∧ info.size = z) ↔
    OnChain w disk v m s z ∨
      ((¬ ∃ s' z', OnChain w disk v m s' z') ∧ PbrEnd w disk v ∧ s = 0 ∧ z = disk.lba)

theorem onChain_of_nil {v : Visit} (hnil : firstCalls w disk v = []) (m s z : ℕ) :
    OnChain w disk v m s z ↔ Finds w disk v m s z := by
  constructor
  · rintro ⟨u, hu, hfinds⟩
    rcases Relation.ReflTransGen.cases_head hu with rfl | ⟨t, ht, -⟩
    · exact hfinds
    · rw [Descent.Calls, hnil] at ht
      cases ht
  · intro h
    exact ⟨v, .refl, h⟩

theorem pbrEnd_of_nil {v : Visit} (hnil : firstCalls w disk v = []) :
    PbrEnd w disk v ↔ ∃ buffer, ReadsTable disk v buffer ∧ links buffer = [] ∧
      testBlockType buffer = some .pbr := by
  constructor
  · rintro ⟨u, buffer, hu, h⟩
    rcases Relation.ReflTransGen.cases_head hu with rfl | ⟨t, ht, -⟩
    · exact ⟨buffer, h⟩
    · rw [Descent.Calls, hnil] at ht
      cases ht
  · rintro ⟨buffer, h⟩
    exact ⟨v, buffer, .refl, h⟩

/-- A table without the partition, in front of another one. -/
theorem onChain_of_singleton {v t : Visit} (hcalls : firstCalls w disk v = [t]) {m : ℕ}
    (hfinds : ∀ s z, ¬ Finds w disk v m s z) (s z : ℕ) :
    OnChain w disk v m s z ↔ OnChain w disk t m s z := by
  have hvt : Descent.Calls (firstCalls w disk) v t := by
    rw [Descent.Calls, hcalls]
    exact List.mem_singleton_self t
  constructor
  · rintro ⟨u, hu, h⟩
    rcases Relation.ReflTransGen.cases_head hu with rfl | ⟨t', ht', htu⟩
    · exact absurd h (hfinds s z)
    · rw [Descent.Calls, hcalls, List.mem_singleton] at ht'
      subst ht'
      exact ⟨u, htu, h⟩
  · rintro ⟨u, hu, h⟩
    exact ⟨u, .head hvt hu, h⟩

theorem pbrEnd_of_singleton {v t : Visit} {buffer : Mem} (hcalls : firstCalls w disk v = [t])
    (hread : ReadsTable disk v buffer) (hlinks : links buffer ≠ []) :
    PbrEnd w disk v ↔ PbrEnd w disk t := by
  have hvt : Descent.Calls (firstCalls w disk) v t := by
    rw [Descent.Calls, hcalls]
    exact List.mem_singleton_self t
  constructor
  · rintro ⟨u, buffer', hu, h⟩
    rcases Relation.ReflTransGen.cases_head hu with rfl | ⟨t', ht', htu⟩
    · obtain rfl : buffer' = buffer := Option.some.inj (h.1.2.symm.trans hread.2)
      exact absurd h.2.1 hlinks
    · rw [Descent.Calls, hcalls, List.mem_singleton] at ht'
      subst ht'
      exact ⟨u, buffer', htu, h⟩
  · rintro ⟨u, buffer', hu, h⟩
    exact ⟨u, buffer', .head hvt hu, h⟩

/-- A call that finds the partition. -/
theorem lookupSpec_some {v : Visit} {buffer : Mem} {m : ℕ} {info : DosInfo}
    (hread : ReadsTable disk v buffer) (hsig : HasSignature buffer)
    (hfind : findPart w v.extPartSector m (dosPartitions buffer) v.partNum = some info) :
    LookupSpec w disk m v (some info) := by
  have hfinds (s z : ℕ) : Finds w disk v m s z ↔
      ∃ info', some info = some info' ∧ info'.start = s ∧ info'.size = z := by
    rw [finds_iff_findPart hread hsig, hfind]
  have hown : Finds w disk v m info.start info.size := (hfinds _ _).mpr ⟨info, rfl, rfl, rfl⟩
  intro s z
  rw [← hfinds]
  constructor
  · intro h
    exact .inl ⟨v, .refl, h⟩
  · rintro (⟨u, hu, h⟩ | ⟨hno, -⟩)
    · obtain ⟨buffer₀, p₀, hread₀, -, hp₀, -⟩ := hown
      obtain ⟨buffer', p', hread', -, hp', -⟩ := id h
      obtain ⟨rfl, -⟩ := Shows.unique hread₀ hp₀ hu hread' hp'
      exact h
    · exact absurd ⟨info.start, info.size, v, .refl, hown⟩ hno

/-- A call that gives up. -/
theorem lookupSpec_none {v : Visit} (hnil : firstCalls w disk v = []) (m : ℕ)
    (hfinds : ∀ s z, ¬ Finds w disk v m s z) (hpbr : ¬ PbrEnd w disk v) :
    LookupSpec w disk m v none := by
  intro s z
  constructor
  · rintro ⟨info, h, -⟩
    cases h
  · rintro (h | ⟨-, h, -⟩)
    · exact absurd ((onChain_of_nil hnil m s z).mp h) (hfinds s z)
    · exact absurd h hpbr

theorem lookupSpec_of_partGetInfoExtended {fuel m : ℕ} {v : Visit} {r : Option DosInfo}
    (h : partGetInfoExtended w disk m fuel v = some r) : LookupSpec w disk m v r := by
  induction fuel generalizing v with
  | zero => cases h
  | succ fuel ih =>
      rw [partGetInfoExtended] at h
      by_cases hnum : 256 < v.partNum
      · rw [if_pos hnum] at h
        obtain rfl := Option.some.inj h
        have hnil : firstCalls w disk v = [] := by simp [firstCalls, tableCalls, hnum]
        refine lookupSpec_none hnil m ?_ ?_
        · rintro s z ⟨buffer, p, ⟨hle, -⟩, -⟩
          omega
        · rw [pbrEnd_of_nil hnil]
          rintro ⟨buffer, ⟨hle, -⟩, -⟩
          omega
      rw [if_neg hnum] at h
      cases hblock : disk.block v.extPartSector with
      | none =>
          rw [hblock] at h
          obtain rfl := Option.some.inj h
          have hnil : firstCalls w disk v = [] := by simp [firstCalls, tableCalls, hblock]
          have hread (buffer : Mem) : ¬ ReadsTable disk v buffer := by
            rintro ⟨-, hread⟩
            rw [hblock] at hread
            cases hread
          refine lookupSpec_none hnil m ?_ ?_
          · rintro s z ⟨buffer, p, h, -⟩
            exact hread buffer h
          · rw [pbrEnd_of_nil hnil]
            rintro ⟨buffer, h, -⟩
            exact hread buffer h
      | some buffer =>
          have hread : ReadsTable disk v buffer := ⟨Nat.not_lt.mp hnum, hblock⟩
          have hsame {buffer' : Mem} (h : ReadsTable disk v buffer') : buffer' = buffer :=
            Option.some.inj (h.2.symm.trans hblock)
          simp only [hblock] at h
          by_cases hsig : HasSignature buffer
          · rw [if_neg (not_not.mpr hsig)] at h
            cases hfind : findPart w v.extPartSector m (dosPartitions buffer) v.partNum with
            | some info =>
                simp only [hfind] at h
                obtain rfl := Option.some.inj h
                exact lookupSpec_some hread hsig hfind
            | none =>
                have hfinds (s z : ℕ) : ¬ Finds w disk v m s z := by
                  rw [finds_iff_findPart hread hsig, hfind]
                  rintro ⟨info, hinfo, -⟩
                  cases hinfo
                simp only [hfind] at h
                cases hlinks : links buffer with
                | cons p ps =>
                    simp only [hlinks] at h
                    have hcalls : firstCalls w disk v = [v.link w buffer p] :=
                      firstCalls_of_links hread hsig hlinks
                    have hpbr := pbrEnd_of_singleton hcalls hread (by simp [hlinks])
                    intro s z
                    simp only [onChain_of_singleton hcalls hfinds, hpbr]
                    exact ih h s z
                | nil =>
                    simp only [hlinks] at h
                    have hnil : firstCalls w disk v = [] := firstCalls_of_links hread hsig hlinks
                    split_ifs at h with htype
                    · obtain rfl := Option.some.inj h
                      have hpbr := (pbrEnd_of_nil hnil).mpr ⟨buffer, hread, hlinks, htype⟩
                      intro s z
                      simp only [onChain_of_nil hnil, hfinds, exists_const, not_false_eq_true, hpbr,
                        true_and, false_or]
                      constructor
                      · rintro ⟨info, hinfo, rfl, rfl⟩
                        obtain rfl := Option.some.inj hinfo
                        exact ⟨rfl, rfl⟩
                      · rintro ⟨rfl, rfl⟩
                        exact ⟨_, rfl, rfl, rfl⟩
                    · obtain rfl := Option.some.inj h
                      refine lookupSpec_none hnil m hfinds ?_
                      rw [pbrEnd_of_nil hnil]
                      rintro ⟨buffer', h, -, htype'⟩
                      exact htype (hsame h ▸ htype')
          · rw [if_pos hsig] at h
            obtain rfl := Option.some.inj h
            have hnil : firstCalls w disk v = [] := by simp [firstCalls, tableCalls, hblock, hsig]
            refine lookupSpec_none hnil m ?_ ?_
            · rintro s z ⟨buffer', p, h, hsig', -⟩
              exact hsig (hsame h ▸ hsig')
            · rw [pbrEnd_of_nil hnil]
              rintro ⟨buffer', h, -, htype⟩
              exact hsig (hsame h ▸ hasSignature_of_testBlockType htype)

/-! ## Agreement -/

theorem printCalls_eq (v : Visit) :
    printCalls w disk v = [] ∨ printCalls w disk v = tableCalls w disk v := by
  unfold printCalls tableCalls
  split_ifs with hnum
  · exact .inl rfl
  cases hblock : disk.block v.extPartSector with
  | none => exact .inl rfl
  | some buffer =>
      by_cases htype : testBlockType buffer = some .mbr
      · right
        simp only [if_pos htype, if_pos (hasSignature_of_testBlockType htype)]
      · left
        simp only [if_neg htype]

theorem tableCalls_of_printCalls {v t : Visit} (h : Descent.Calls (printCalls w disk) v t) :
    Descent.Calls (tableCalls w disk) v t := by
  rw [Descent.Calls] at h ⊢
  rcases @printCalls_eq w disk v with hnil | heq
  · rw [hnil] at h
    cases h
  · rwa [← heq]

theorem firstCalls_of_mainCalls {v t : Visit} (h : Descent.Calls (mainCalls w disk) v t) :
    Descent.Calls (firstCalls w disk) v t := by
  rw [Descent.Calls, mainCalls] at h
  rw [Descent.Calls, firstCalls]
  rcases @printCalls_eq w disk v with hnil | heq
  · rw [hnil] at h
    cases h
  · rwa [← heq]

theorem tableCalls_of_getCalls {m : ℕ} {v t : Visit} (h : Descent.Calls (getCalls w disk m) v t) :
    Descent.Calls (tableCalls w disk) v t := by
  rw [Descent.Calls, getCalls] at h
  rw [Descent.Calls, tableCalls]
  split_ifs at h ⊢ with hnum
  · exact h
  cases hblock : disk.block v.extPartSector with
  | none =>
      rw [hblock] at h
      cases h
  | some buffer =>
      simp only [hblock] at h ⊢
      split_ifs at h with hfind
      · rw [if_pos hfind.1]
        exact List.mem_of_mem_take h
      · cases h

variable (w disk) in
/-- No table comes back to itself over links. -/
def AcyclicTables : Prop := Descent.NoReturn (tableCalls w disk) firstVisit

variable (w disk) in
/-- A partition is listed if and only if it is found. -/
def DosAgree : Prop := ∀ m s z,
  (∃ fuel lines, partPrintDos w disk fuel = some lines ∧ ∃ line ∈ lines, line.Shows m s z) ↔
    ∃ fuel info, partGetInfoDos w disk m fuel = some (some info) ∧ info.start = s ∧ info.size = z

variable (w disk) in
/-- A table that is reached over first links of tables that the list takes for one. -/
def OnMainChain (v : Visit) : Prop :=
  Relation.ReflTransGen (Descent.Calls (mainCalls w disk)) firstVisit v

variable (w disk) in
/-- A partition of a table that the list reaches over another link than the first one. -/
def ShownAside (m s z : ℕ) : Prop :=
  ∃ u, Relation.ReflTransGen (Descent.Calls (printCalls w disk)) firstVisit u ∧
    ¬ OnMainChain w disk u ∧
    Shows w disk u m s z

variable (w disk) in
/-- Under which conditions list and lookup agree. -/
structure AgreeWhen : Prop where
  /-- The chain of first links does not end in a boot record. -/
  noPbr : ¬ PbrEnd w disk firstVisit
  /-- The partitions that are listed along the chain have a valid boot indicator. -/
  bootInd : ∀ u buffer m s z p, OnMainChain w disk u → ReadsTable disk u buffer →
    testBlockType buffer = some .mbr → VisitHas w u buffer m s z p → p.BootIndOk
  /-- Other links lead to copies of partitions of the chain only. -/
  aside : ∀ m s z, ShownAside w disk m s z → OnChain w disk firstVisit m s z
  /-- So are the partitions of the chain behind a table that the list rejects. -/
  behind : ∀ u buffer m s z p,
    Relation.ReflTransGen (Descent.Calls (firstCalls w disk)) firstVisit u →
    ReadsTable disk u buffer → HasSignature buffer → VisitHas w u buffer m s z p → p.BootIndOk →
    ¬ (OnMainChain w disk u ∧ testBlockType buffer = some .mbr) → ShownAside w disk m s z

theorem OnMainChain.reaches {u : Visit} (h : OnMainChain w disk u) :
    Relation.ReflTransGen (Descent.Calls (firstCalls w disk)) firstVisit u ∧
      Relation.ReflTransGen (Descent.Calls (printCalls w disk)) firstVisit u := by
  have hfirst : Relation.ReflTransGen (Descent.Calls (mainCalls w disk)) ≤
      Relation.ReflTransGen (Descent.Calls (firstCalls w disk)) :=
    Relation.ReflTransGen.mono fun _ _ ↦ firstCalls_of_mainCalls
  have hprint : Relation.ReflTransGen (Descent.Calls (mainCalls w disk)) ≤
      Relation.ReflTransGen (Descent.Calls (printCalls w disk)) :=
    Relation.ReflTransGen.mono fun _ _ ↦ List.mem_of_mem_take
  exact ⟨hfirst _ _ h, hprint _ _ h⟩

theorem numbered_unique {sector n m : ℕ} {ps : List DosPartition} {p q : DosPartition}
    (hp : (p, m) ∈ numbered sector ps n) (hq : (q, m) ∈ numbered sector ps n)
    (hp' : p.IsShown sector) (hq' : q.IsShown sector) : p = q := by
  induction ps generalizing n with
  | nil => cases hp
  | cons a as ih =>
      rcases List.mem_cons.mp hp with hpa | hp
      · obtain ⟨rfl, rfl⟩ := Prod.mk.inj hpa
        rcases List.mem_cons.mp hq with hqa | hq
        · exact (Prod.mk.inj hqa).1.symm
        · have hle := le_of_mem_numbered hq
          rw [hp'.nextPartNum] at hle
          omega
      · rcases List.mem_cons.mp hq with hqa | hq
        · obtain ⟨rfl, rfl⟩ := Prod.mk.inj hqa
          have hle := le_of_mem_numbered hp
          rw [hq'.nextPartNum] at hle
          omega
        · exact ih hp hq

/-- Two partitions of the chain with one number are the same. -/
theorem chain_unique {u v : Visit} {buffer buffer' : Mem} {m s z s' z' : ℕ} {p p' : DosPartition}
    (hu : Relation.ReflTransGen (Descent.Calls (firstCalls w disk)) firstVisit u)
    (hv : Relation.ReflTransGen (Descent.Calls (firstCalls w disk)) firstVisit v)
    (hread : ReadsTable disk u buffer) (hp : VisitHas w u buffer m s z p)
    (hread' : ReadsTable disk v buffer') (hp' : VisitHas w v buffer' m s' z' p') :
    u = v ∧ buffer = buffer' ∧ p = p' := by
  have hunique : Relator.RightUnique (Descent.Calls (firstCalls w disk)) := by
    intro a b c hb hc
    rw [Descent.Calls, firstCalls] at hb hc
    cases h : tableCalls w disk a with
    | nil =>
        rw [h] at hb
        cases hb
    | cons t ts =>
        rw [h] at hb hc
        rw [List.mem_singleton.mp hb, List.mem_singleton.mp hc]
  have hsame : u = v ∧ buffer = buffer' := by
    rcases Relation.ReflTransGen.total_of_right_unique hunique hu hv with huv | hvu
    · obtain ⟨h, h'⟩ := Shows.unique hread hp huv hread' hp'
      exact ⟨h.symm, h'.symm⟩
    · exact Shows.unique hread' hp' hvu hread hp
  obtain ⟨rfl, rfl⟩ := hsame
  exact ⟨rfl, rfl, numbered_unique hp.1 hp'.1 hp.2.1 hp'.2.1⟩

theorem VisitHas.lt {u : Visit} {buffer : Mem} {m s z : ℕ} {p : DosPartition}
    (hread : ReadsTable disk u buffer) (hp : VisitHas w u buffer m s z p) : m < 260 := by
  have hlt := lt_partNumAfter hp.1 hp.2.1
  have hle := (le_partNumAfter u.extPartSector (dosPartitions buffer) u.partNum).2
  have hlen : (dosPartitions buffer).length = 4 := by simp [dosPartitions]
  have hnum := hread.1
  omega

/-- What the list has. -/
theorem listed_iff (hacyclic : AcyclicTables w disk) (m s z : ℕ) :
    (∃ fuel lines, partPrintDos w disk fuel = some lines ∧ ∃ line ∈ lines, line.Shows m s z) ↔
      ∃ u, Relation.ReflTransGen (Descent.Calls (printCalls w disk)) firstVisit u ∧
        Shows w disk u m s z := by
  constructor
  · rintro ⟨fuel, lines, hlines, hshow⟩
    exact (exists_mem_printPartitionExtended hlines m s z).mp hshow
  · intro h
    obtain ⟨fuel, hfuel⟩ := exists_isSome_partPrintDos.mpr
      (hacyclic.mono fun _ _ ↦ tableCalls_of_printCalls)
    obtain ⟨lines, hlines⟩ := Option.isSome_iff_exists.mp hfuel
    exact ⟨fuel, lines, hlines, (exists_mem_printPartitionExtended hlines m s z).mpr h⟩

/-- What a lookup finds. -/
theorem found_iff (hacyclic : AcyclicTables w disk) (m s z : ℕ) :
    (∃ fuel info, partGetInfoDos w disk m fuel = some (some info) ∧ info.start = s ∧
      info.size = z) ↔
      OnChain w disk firstVisit m s z ∨ ((¬ ∃ s' z', OnChain w disk firstVisit m s' z') ∧
        PbrEnd w disk firstVisit ∧ s = 0 ∧ z = disk.lba) := by
  constructor
  · rintro ⟨fuel, info, hinfo, hs, hz⟩
    exact (lookupSpec_of_partGetInfoExtended hinfo s z).mp ⟨info, rfl, hs, hz⟩
  · intro h
    obtain ⟨fuel, hfuel⟩ := (exists_isSome_partGetInfoDos m).mpr
      (hacyclic.mono fun _ _ ↦ tableCalls_of_getCalls)
    obtain ⟨r, hr⟩ := Option.isSome_iff_exists.mp hfuel
    obtain ⟨info, rfl, hs, hz⟩ := (lookupSpec_of_partGetInfoExtended hr s z).mpr h
    exact ⟨fuel, info, hr, hs, hz⟩

theorem agreeWhen_of_dosAgree (hacyclic : AcyclicTables w disk) (h : DosAgree w disk) :
    AgreeWhen w disk := by
  have hagree (m s z : ℕ) := (listed_iff hacyclic m s z).symm.trans ((h m s z).trans
    (found_iff hacyclic m s z))
  have hpbr : ¬ PbrEnd w disk firstVisit := by
    intro hpbr
    have hnone : ¬ ∃ s' z', OnChain w disk firstVisit 260 s' z' := by
      rintro ⟨s', z', u, -, buffer, p, hread, -, hp, -⟩
      exact absurd (VisitHas.lt hread hp) (lt_irrefl _)
    obtain ⟨u, -, buffer, p, hread, -, hp⟩ :=
      (hagree 260 0 disk.lba).mpr (.inr ⟨hnone, hpbr, rfl, rfl⟩)
    exact absurd (VisitHas.lt hread hp) (lt_irrefl _)
  have hchain (m s z : ℕ) :
    (∃ u, Relation.ReflTransGen (Descent.Calls (printCalls w disk)) firstVisit u ∧
      Shows w disk u m s z) ↔ OnChain w disk firstVisit m s z := by
    rw [hagree]
    simp only [hpbr, false_and, and_false, or_false]
  refine ⟨hpbr, ?_, ?_, ?_⟩
  · intro u buffer m s z p hmain hread htype hp
    obtain ⟨hfirst, hprint⟩ := hmain.reaches
    obtain ⟨v, hv, buffer', p', hread', -, hp', hboot⟩ :=
      (hchain m s z).mp ⟨u, hprint, buffer, p, hread, htype, hp⟩
    obtain ⟨-, -, rfl⟩ := chain_unique hfirst hv hread hp hread' hp'
    exact hboot
  · rintro m s z ⟨u, hprint, -, hshows⟩
    exact (hchain m s z).mp ⟨u, hprint, hshows⟩
  · intro u buffer m s z p hu hread hsig hp hboot hbehind
    obtain ⟨v, hv, hshows⟩ := (hchain m s z).mpr ⟨u, hu, buffer, p, hread, hsig, hp, hboot⟩
    refine ⟨v, hv, ?_, hshows⟩
    intro hmain
    obtain ⟨buffer', p', hread', htype, hp'⟩ := hshows
    obtain ⟨rfl, rfl, -⟩ := chain_unique hmain.reaches.1 hu hread' hp' hread hp
    exact hbehind ⟨hmain, htype⟩

theorem dosAgree_of_agreeWhen (hacyclic : AcyclicTables w disk) (h : AgreeWhen w disk) :
    DosAgree w disk := by
  intro m s z
  rw [listed_iff hacyclic, found_iff hacyclic]
  simp only [h.noPbr, false_and, and_false, or_false]
  constructor
  · rintro ⟨u, hu, hshows⟩
    by_cases hmain : OnMainChain w disk u
    · obtain ⟨buffer, p, hread, htype, hp⟩ := hshows
      exact ⟨u, hmain.reaches.1, buffer, p, hread, hasSignature_of_testBlockType htype, hp,
        h.bootInd u buffer m s z p hmain hread htype hp⟩
    · exact h.aside m s z ⟨u, hu, hmain, hshows⟩
  · rintro ⟨u, hu, buffer, p, hread, hsig, hp, hboot⟩
    by_cases hmain : OnMainChain w disk u ∧ testBlockType buffer = some .mbr
    · exact ⟨u, hmain.1.reaches.2, buffer, p, hread, hmain.2, hp⟩
    · obtain ⟨v, hv, -, hshows⟩ := h.behind u buffer m s z p hu hread hsig hp hboot hmain
      exact ⟨v, hv, hshows⟩

/-- List and lookup agree exactly under these conditions. -/
theorem dosAgree_iff (w : ℕ) (disk : DosDisk) (hacyclic : AcyclicTables w disk) :
    DosAgree w disk ↔ AgreeWhen w disk :=
  ⟨agreeWhen_of_dosAgree hacyclic, dosAgree_of_agreeWhen hacyclic⟩

/-- The table of a disk whose second partition has the given boot indicator. -/
def oneTable (boot : UInt8) : Mem := fun a ↦
  if a = 0x1fe then 0x55
  else if a = 0x1ff then 0xaa
  else if a = 0x1ce then boot
  else if a = 0x1d2 then 0x83
  else if a = 0x1d6 then 8
  else if a = 0x1da then 16
  else 0

/-- A disk with such a table. -/
def bootIndDisk (boot : UInt8) : DosDisk where
  block n := if n = 0 then some (oneTable boot) else none
  lba := 2048

/-- A disk whose second partition has the boot indicator 1. -/
abbrev badBootIndDisk : DosDisk := bootIndDisk 1

theorem acyclicTables_bootIndDisk {boot : UInt8}
    (hnil : tableCalls 32 (bootIndDisk boot) firstVisit = []) :
    AcyclicTables 32 (bootIndDisk boot) := by
  refine Descent.noReturn_of_acc (Descent.exists_within_iff_acc.mp ⟨1, ?_⟩)
  intro t ht
  rw [hnil] at ht
  cases ht

/-- A disk with one table that has no links is listed as it is looked up if the boot indicators are
right. -/
theorem agreeWhen_bootIndDisk : AgreeWhen 32 (bootIndDisk 0x80) := by
  have hreach {calls : Visit → List Visit} (hnil : calls firstVisit = []) {u : Visit}
      (hu : Relation.ReflTransGen (Descent.Calls calls) firstVisit u) : u = firstVisit := by
    obtain rfl | ⟨v, hv, -⟩ := Relation.ReflTransGen.cases_head hu
    · rfl
    · rw [Descent.Calls, hnil] at hv
      cases hv
  have hfirst : firstCalls 32 (bootIndDisk 0x80) firstVisit = [] := by decide +kernel
  have hprint : printCalls 32 (bootIndDisk 0x80) firstVisit = [] := by decide +kernel
  have hmain : OnMainChain 32 (bootIndDisk 0x80) firstVisit := .refl
  have htype : testBlockType (oneTable 0x80) = some .mbr := by decide +kernel
  have hboot : ∀ p ∈ dosPartitions (oneTable 0x80), p.BootIndOk := by decide +kernel
  refine ⟨?_, ?_, ?_, ?_⟩
  · rintro ⟨u, buffer, hu, hread, -, hpbr⟩
    obtain rfl := hreach hfirst hu
    obtain rfl : oneTable 0x80 = buffer := Option.some.inj hread.2
    exact absurd (htype.symm.trans hpbr) (by decide)
  · intro u buffer m s z p hu hread _ hp
    obtain rfl := hreach hfirst hu.reaches.1
    obtain rfl : oneTable 0x80 = buffer := Option.some.inj hread.2
    exact hboot p (mem_of_mem_numbered hp.1)
  · rintro m s z ⟨u, hu, hno, -⟩
    obtain rfl := hreach hprint hu
    exact absurd hmain hno
  · intro u buffer m s z p hu hread _ _ _ hno
    obtain rfl := hreach hfirst hu
    obtain rfl : oneTable 0x80 = buffer := Option.some.inj hread.2
    exact absurd ⟨hmain, htype⟩ hno

/-- They agree on a disk whose partition is bootable. -/
theorem dosAgree_iff_bootIndDisk : DosAgree 32 (bootIndDisk 0x80) :=
  (dosAgree_iff 32 (bootIndDisk 0x80) (acyclicTables_bootIndDisk (by decide +kernel))).mpr
    agreeWhen_bootIndDisk

/-- Only the first boot indicator is looked at before the list is printed. -/
theorem not_dosAgree_badBootIndDisk :
    (badBootIndDisk.block 0).map testBlockType = some (some .mbr) ∧
      AcyclicTables 32 badBootIndDisk ∧ ¬ DosAgree 32 badBootIndDisk := by
  refine ⟨by decide +kernel, acyclicTables_bootIndDisk (by decide +kernel), ?_⟩
  intro h
  have hlines : partPrintDos 32 badBootIndDisk 1 = some [.part 2 8 16 0 0x83 false false] := by
    decide +kernel
  obtain ⟨fuel, info, hinfo, -⟩ := (h 2 8 16).mp
    ⟨1, _, hlines, _, List.mem_singleton_self _, rfl, rfl, rfl⟩
  cases fuel with
  | zero => cases hinfo
  | succ fuel =>
      have hnone : partGetInfoDos 32 badBootIndDisk 2 (fuel + 1) = some none := rfl
      rw [hnone] at hinfo
      cases hinfo

end

end MiniPi.Part
