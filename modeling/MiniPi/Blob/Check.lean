import MiniPi.Blob.Message

/-!
# The validator for attributes of messages

`blobmsg_check_attr` is called on attributes that come from outside, before their name and their
data are used.  It is modelled with the addresses of the bytes that it reads.
-/

namespace MiniPi.Blob

open Lib

/-- `blobmsg_namelen`. -/
def blobmsgNamelen (m : Mem) (attr : ℕ) : ℕ := beValue (m.slice (blobData attr) 2)

/-- The name in the header of a message attribute. -/
def hdrName (attr : ℕ) : ℕ := blobData attr + 2

/-- `blob_type`: the type of `blob_check_type` for a type of a message. -/
def blobType : ℕ → ℤ
  | 0 => 2
  | 3 => 3
  | 4 => 7
  | 5 => 6
  | 6 => 5
  | 7 => 4
  | _ => 0

/-- `blobmsg_check_attr`, with the addresses that it reads; the types are never negative here. -/
def blobmsgCheckAttr (m : Mem) (attr : ℕ) (name : Bool) : Bool × List ℤ :=
  let reads := (headerBytes attr).map Int.ofNat
  if blobLen m attr < 2 then (false, reads)
  else
    let reads := reads ++ (List.range' (blobData attr) 2).map Int.ofNat
    if blobmsgNamelen m attr = 0 ∧ name then (false, reads)
    else if blobLen m attr - 2 < blobmsgNamelen m attr then (false, reads)
    else
      let reads := reads ++ [Int.ofNat (hdrName attr + blobmsgNamelen m attr)]
      if m (hdrName attr + blobmsgNamelen m attr) ≠ 0 then (false, reads)
      else if 7 < blobId m attr then (false, reads)
      else if blobType (blobId m attr) = 0 then (true, reads)
      else
        let (ok, more) := blobCheckType (fun _ ↦ 0) m (blobmsgData m attr) (blobmsgDataLen m attr)
          (blobType (blobId m attr))
        (ok, reads ++ more)

/-! ## What it is for -/

/-- The number of bytes in a value of a type of integers. -/
def intWidth : ℕ → Option ℕ
  | 4 => some 8
  | 5 => some 4
  | 6 => some 2
  | 7 => some 1
  | _ => none

/-- What the users of an attribute rely on: the name ends in the attribute, the data lie in it,
integers have their width, and strings end. -/
structure WellFormed (m : Mem) (attr : ℕ) : Prop where
  nameEnd : Inside m attr (hdrName attr + blobmsgNamelen m attr : ℕ)
  nul : m (hdrName attr + blobmsgNamelen m attr) = 0
  dataLo : attr ≤ blobmsgData m attr
  dataHi : blobmsgData m attr ≤ attr + blobRawLen m attr
  lenNonneg : 0 ≤ blobmsgDataLen m attr
  lenFits : blobmsgData m attr + blobmsgDataLen m attr ≤ attr + blobRawLen m attr
  width : ∀ w, intWidth (blobId m attr) = some w → blobmsgDataLen m attr = w
  string : blobId m attr = 3 →
    0 < blobmsgDataLen m attr ∧ m (blobmsgData m attr + (blobmsgDataLen m attr - 1).toNat) = 0

/-- The validator reads nothing but the attribute, and what it accepts is well formed. -/
structure CheckSound (m : Mem) (attr : ℕ) (name : Bool) : Prop where
  reads : ∀ a ∈ (blobmsgCheckAttr m attr name).2, Inside m attr a
  valid : (blobmsgCheckAttr m attr name).1 = true → WellFormed m attr

/-- The attribute is too short for its header or for the name, or has no name where it needs
one. -/
def Unnamed (m : Mem) (attr : ℕ) (name : Bool) : Prop :=
  blobLen m attr < 2 ∨ (blobmsgNamelen m attr = 0 ∧ name) ∨
    blobLen m attr < blobmsgNamelen m attr + 2

/-- The attribute is a table or an array whose name ends where it should. -/
def NestedName (m : Mem) (attr : ℕ) : Prop :=
  blobIsExtended m attr ∧ (blobId m attr = 1 ∨ blobId m attr = 2) ∧
    m (hdrName attr + blobmsgNamelen m attr) = 0

/-- There is a byte behind the name, and the padding of the name of a table or an array is
there. -/
def NameFits (m : Mem) (attr : ℕ) : Prop :=
  blobmsgNamelen m attr + 2 < blobLen m attr ∧
    (NestedName m attr → blobmsgHdrlen (blobmsgNamelen m attr) ≤ blobLen m attr)

/-! ## The lengths -/

section Lengths

variable {m : Mem} {attr : ℕ}

theorem blobmsgData_eq_add (m : Mem) (attr : ℕ) : blobmsgData m attr = blobData attr +
    if blobIsExtended m attr then blobmsgHdrlen (blobmsgNamelen m attr) else 0 := rfl

theorem blobData_le_blobmsgData (m : Mem) (attr : ℕ) : blobData attr ≤ blobmsgData m attr := by
  rw [blobmsgData_eq_add]
  exact Nat.le_add_right ..

theorem blobmsgDataLen_add (m : Mem) (attr : ℕ) :
    blobmsgData m attr + blobmsgDataLen m attr = blobData attr + blobLen m attr := by
  have := blobData_le_blobmsgData m attr
  unfold blobmsgDataLen
  omega

theorem blobData_add_blobLen (h : 4 ≤ blobRawLen m attr) :
    blobData attr + blobLen m attr = attr + blobRawLen m attr := by
  have := blobLen_of_le h
  unfold blobData
  omega

theorem lt_blobmsgHdrlen (namelen : ℕ) : namelen + 2 < blobmsgHdrlen namelen := by
  unfold blobmsgHdrlen
  omega

/-- The length of the data is negative where the padding of the name leaves the attribute. -/
theorem blobmsgDataLen_nonneg_iff : 0 ≤ blobmsgDataLen m attr ↔
    (blobIsExtended m attr → blobmsgHdrlen (blobmsgNamelen m attr) ≤ blobLen m attr) := by
  have hadd := blobmsgDataLen_add m attr
  have hdata := blobmsgData_eq_add m attr
  by_cases hext : blobIsExtended m attr
  · rw [if_pos hext] at hdata
    constructor
    · intro _ _
      omega
    · intro hle
      have := hle hext
      omega
  · rw [if_neg hext] at hdata
    constructor
    · intro _ hext'
      exact absurd hext' hext
    · intro _
      omega

end Lengths

/-! ## The types -/

section Types

variable {junk : ℤ → ℤ} {m : Mem} {ptr : ℕ} {len type : ℤ}

theorem blobCheckType_int (hlo : 4 ≤ type) (hhi : type ≤ 7)
    (hok : (blobCheckType junk m ptr len type).1 = true) : len = blobTypeMinlen junk type := by
  unfold blobCheckType at hok
  split_ifs at hok with hlast hint
  all_goals
    by_contra hne
    exact hint ⟨hlo, hhi, hne⟩

theorem blobCheckType_other (hother : ¬(4 ≤ type ∧ type ≤ 7))
    (hok : (blobCheckType junk m ptr len type).1 = true) :
    blobTypeMinlen junk type ≤ len ∧ (type = 3 → m (ptr + (len - 1).toNat) = 0) := by
  unfold blobCheckType attrString at hok
  split_ifs at hok with hlast hint hshort hstring
  · refine ⟨?_, fun _ ↦ by simpa using hok⟩
    by_contra hlt
    exact hshort ⟨hother, by omega⟩
  · refine ⟨?_, fun h ↦ absurd h hstring⟩
    by_contra hlt
    exact hshort ⟨hother, by omega⟩

/-- A type of integers of a message is one of `blob_check_type`, with the same width. -/
theorem blobType_of_intWidth (junk : ℤ → ℤ) {id w : ℕ} (h : intWidth id = some w) :
    4 ≤ blobType id ∧ blobType id ≤ 7 ∧ blobTypeMinlen junk (blobType id) = w := by
  unfold intWidth at h
  split at h
  all_goals cases h
  all_goals exact ⟨by decide, by decide, rfl⟩

theorem blobType_of_not_intWidth {id : ℕ} (h : intWidth id = none) (hid : blobType id ≠ 0) :
    (id = 3 ∧ blobType id = 3) ∨ (id ≠ 3 ∧ blobType id = 2) := by
  unfold intWidth at h
  unfold blobType at hid ⊢
  split at hid
  all_goals simp_all

/-- What the data of an attribute are like after `blob_check_type`. -/
theorem blobCheckType_blobType {id : ℕ} (hid : blobType id ≠ 0)
    (hok : (blobCheckType junk m ptr len (blobType id)).1 = true) :
    0 ≤ len ∧ (∀ w, intWidth id = some w → len = w) ∧
      (id = 3 → 0 < len ∧ m (ptr + (len - 1).toNat) = 0) := by
  cases hint : intWidth id with
  | some w =>
      obtain ⟨hlo, hhi, hmin⟩ := blobType_of_intWidth junk hint
      have hlen := (blobCheckType_int hlo hhi hok).trans hmin
      refine ⟨by omega, ?_, ?_⟩
      · rintro w' ⟨⟩
        exact hlen
      · rintro rfl
        cases hint
  | none =>
      obtain ⟨rfl, htype⟩ | ⟨hne, htype⟩ := blobType_of_not_intWidth hint hid
      · rw [htype] at hok
        obtain ⟨hmin, hlast⟩ := blobCheckType_other (by omega) hok
        have hpos : (1 : ℤ) ≤ len := hmin
        exact ⟨by omega, by simp, fun _ ↦ ⟨by omega, hlast rfl⟩⟩
      · rw [htype] at hok
        have hmin : (0 : ℤ) ≤ len := (blobCheckType_other (by omega) hok).1
        exact ⟨hmin, by simp, fun h ↦ absurd h hne⟩

end Types

/-! ## The checks -/

section Checks

variable {m : Mem} {attr : ℕ} {name : Bool}

theorem inside_of_lt {a : ℕ} (hlo : attr ≤ a) (hhi : a < attr + blobRawLen m attr) :
    Inside m attr (a : ℤ) := by
  unfold Inside
  omega

theorem inside_header (h : 4 ≤ blobRawLen m attr) :
    ∀ a ∈ (headerBytes attr).map Int.ofNat, Inside m attr a := by
  intro a ha
  obtain ⟨b, hb, rfl⟩ := List.mem_map.mp ha
  simp only [headerBytes, List.mem_range'_1] at hb
  exact inside_of_lt hb.1 (by omega)

theorem inside_namelen (h : 4 ≤ blobRawLen m attr) (hlen : 2 ≤ blobLen m attr) :
    ∀ a ∈ (headerBytes attr).map Int.ofNat ++ (List.range' (blobData attr) 2).map Int.ofNat,
      Inside m attr a := by
  intro a ha
  obtain ha | ha := List.mem_append.mp ha
  · exact inside_header h a ha
  · have := blobLen_of_le h
    obtain ⟨b, hb, rfl⟩ := List.mem_map.mp ha
    simp only [blobData, List.mem_range'_1] at hb
    exact inside_of_lt (by omega) (by omega)

theorem checkSound_of_eq {reads : List ℤ} (heq : blobmsgCheckAttr m attr name = (false, reads))
    (hreads : ∀ a ∈ reads, Inside m attr a) : CheckSound m attr name := by
  constructor
  · rw [heq]
    exact hreads
  · rw [heq]
    intro hok
    cases hok

/-- The attribute is refused before its name is looked at. -/
theorem blobmsgCheckAttr_of_unnamed (hun : Unnamed m attr name) :
    ∃ reads, blobmsgCheckAttr m attr name = (false, reads) ∧
      (4 ≤ blobRawLen m attr → ∀ a ∈ reads, Inside m attr a) := by
  by_cases hlen : blobLen m attr < 2
  · refine ⟨_, ?_, inside_header⟩
    simp only [blobmsgCheckAttr, hlen, if_true]
  refine ⟨_, ?_, fun h ↦ inside_namelen h (Nat.le_of_not_lt hlen)⟩
  by_cases hempty : blobmsgNamelen m attr = 0 ∧ name
  · simp only [blobmsgCheckAttr, hlen, if_false]
    exact if_pos hempty
  · have hlong : blobLen m attr - 2 < blobmsgNamelen m attr := by
      obtain hshort | hnoname | hlong := hun
      · exact absurd hshort hlen
      · exact absurd hnoname hempty
      · omega
    simp only [blobmsgCheckAttr, hlen, hempty, hlong, if_true, if_false]

theorem checkSound_of_unnamed (h : 4 ≤ blobRawLen m attr) (hun : Unnamed m attr name) :
    CheckSound m attr name := by
  obtain ⟨reads, heq, hreads⟩ := blobmsgCheckAttr_of_unnamed hun
  exact checkSound_of_eq heq (hreads h)

/-- The addresses that are read up to the byte behind the name. -/
def nameReads (m : Mem) (attr : ℕ) : List ℤ :=
  (headerBytes attr).map Int.ofNat ++ (List.range' (blobData attr) 2).map Int.ofNat ++
    [Int.ofNat (hdrName attr + blobmsgNamelen m attr)]

/-- What the validator does when it looks at the byte behind the name. -/
theorem blobmsgCheckAttr_of_not_unnamed (hun : ¬Unnamed m attr name) :
    blobmsgCheckAttr m attr name =
      if m (hdrName attr + blobmsgNamelen m attr) ≠ 0 then (false, nameReads m attr)
      else if 7 < blobId m attr then (false, nameReads m attr)
      else if blobType (blobId m attr) = 0 then (true, nameReads m attr)
      else
        ((blobCheckType (fun _ ↦ 0) m (blobmsgData m attr) (blobmsgDataLen m attr)
          (blobType (blobId m attr))).1, nameReads m attr ++
            (blobCheckType (fun _ ↦ 0) m (blobmsgData m attr) (blobmsgDataLen m attr)
              (blobType (blobId m attr))).2) := by
  unfold Unnamed at hun
  push Not at hun
  obtain ⟨hlen, hempty, hlong⟩ := hun
  have hshort : ¬blobLen m attr < 2 := by omega
  have hlong' : ¬blobLen m attr - 2 < blobmsgNamelen m attr := by omega
  have hempty' : ¬(blobmsgNamelen m attr = 0 ∧ name) := by simpa using hempty
  simp only [blobmsgCheckAttr, hshort, hempty', hlong', if_false, nameReads]

theorem inside_nameReads (h : 4 ≤ blobRawLen m attr)
    (hname : blobmsgNamelen m attr + 2 < blobLen m attr) :
    ∀ a ∈ nameReads m attr, Inside m attr a := by
  intro a ha
  obtain ha | ha := List.mem_append.mp ha
  · exact inside_namelen h (by omega) a ha
  · have hadd := blobData_add_blobLen h
    rw [List.mem_singleton.mp ha]
    refine inside_of_lt ?_ ?_ <;> unfold hdrName <;> unfold blobData at hadd ⊢ <;> omega

/-- The data of an attribute lie in it, unless their length is negative. -/
theorem wellFormed_of_nonneg (h : 4 ≤ blobRawLen m attr)
    (hname : blobmsgNamelen m attr + 2 < blobLen m attr)
    (hnul : m (hdrName attr + blobmsgNamelen m attr) = 0) (hlen : 0 ≤ blobmsgDataLen m attr)
    (hwidth : ∀ w, intWidth (blobId m attr) = some w → blobmsgDataLen m attr = w)
    (hstring : blobId m attr = 3 → 0 < blobmsgDataLen m attr ∧
      m (blobmsgData m attr + (blobmsgDataLen m attr - 1).toNat) = 0) : WellFormed m attr := by
  have hadd := blobData_add_blobLen h
  have hend := blobmsgDataLen_add m attr
  have hdata := blobData_le_blobmsgData m attr
  refine ⟨?_, hnul, ?_, ?_, hlen, ?_, hwidth, hstring⟩
  · exact inside_nameReads h hname _ (by simp [nameReads])
  · exact (Nat.le_add_right attr 4).trans hdata
  · omega
  · omega

theorem nested_of_blobType : ∀ id ≤ 7, blobType id = 0 → id = 1 ∨ id = 2 := by decide

/-- There is a byte behind the name, and the padding is in the attribute where nothing else checks
it. -/
theorem checkSound_of_nameFits (h : 4 ≤ blobRawLen m attr) (hun : ¬Unnamed m attr name)
    (hfits : NameFits m attr) : CheckSound m attr name := by
  obtain ⟨hname, hpad⟩ := hfits
  have hreads := inside_nameReads h hname
  have heq := blobmsgCheckAttr_of_not_unnamed hun
  by_cases hnul : m (hdrName attr + blobmsgNamelen m attr) = 0
  swap
  · exact checkSound_of_eq (heq.trans (if_pos hnul)) hreads
  rw [if_neg (not_not.mpr hnul)] at heq
  by_cases hid : 7 < blobId m attr
  · exact checkSound_of_eq (heq.trans (if_pos hid)) hreads
  rw [if_neg hid] at heq
  by_cases htype : blobType (blobId m attr) = 0
  · rw [if_pos htype] at heq
    have hnested := nested_of_blobType _ (Nat.le_of_not_lt hid) htype
    refine ⟨by rwa [heq], fun _ ↦ ?_⟩
    refine wellFormed_of_nonneg h hname hnul ?_ ?_ ?_
    · exact blobmsgDataLen_nonneg_iff.mpr fun hext ↦ hpad ⟨hext, hnested, hnul⟩
    · obtain hid' | hid' := hnested <;> simp [hid', intWidth]
    · omega
  rw [if_neg htype] at heq
  constructor
  · rw [heq]
    intro a ha
    obtain ha | ha := List.mem_append.mp ha
    · exact hreads a ha
    · obtain ⟨hpos, rfl⟩ := blobCheckType_reads ha
      have hadd := blobData_add_blobLen h
      have hend := blobmsgDataLen_add m attr
      have hdata := blobData_le_blobmsgData m attr
      unfold Inside
      unfold blobData at *
      omega
  · rw [heq]
    intro hok
    obtain ⟨hlen, hwidth, hstring⟩ := blobCheckType_blobType htype hok
    exact wellFormed_of_nonneg h hname hnul hlen hwidth hstring

/-- A name that ends with the attribute makes the validator read behind it, and a table or an array
is accepted whatever its padding is. -/
theorem nameFits_of_checkSound (h : 4 ≤ blobRawLen m attr) (hun : ¬Unnamed m attr name)
    (hsound : CheckSound m attr name) : NameFits m attr := by
  have heq := blobmsgCheckAttr_of_not_unnamed hun
  have hmem : Int.ofNat (hdrName attr + blobmsgNamelen m attr) ∈
      (blobmsgCheckAttr m attr name).2 := by
    rw [heq]
    split_ifs <;> simp [nameReads]
  have hadd := blobData_add_blobLen h
  have hname : blobmsgNamelen m attr + 2 < blobLen m attr := by
    have hin := (hsound.reads _ hmem).2
    simp only [hdrName, Int.ofNat_eq_natCast] at hin
    omega
  refine ⟨hname, ?_⟩
  rintro ⟨hext, hnested, hnul⟩
  have htype : blobType (blobId m attr) = 0 := by
    obtain hid | hid := hnested <;> rw [hid] <;> rfl
  have hok : (blobmsgCheckAttr m attr name).1 = true := by
    rw [heq, if_neg (not_not.mpr hnul), if_neg (by omega), if_pos htype]
  exact blobmsgDataLen_nonneg_iff.mp (hsound.valid hok).lenNonneg hext

end Checks

/-- The validator is sound for the attributes that it refuses for their name, and for those with a
byte behind the name, as long as the padding behind the name of a table or an array is there. -/
theorem checkSound_iff (m : Mem) (attr : ℕ) (name : Bool) (h : 4 ≤ blobRawLen m attr) :
    CheckSound m attr name ↔ Unnamed m attr name ∨ NameFits m attr := by
  by_cases hun : Unnamed m attr name
  · exact ⟨fun _ ↦ .inl hun, fun _ ↦ checkSound_of_unnamed h hun⟩
  constructor
  · exact fun hsound ↦ .inr (nameFits_of_checkSound h hun hsound)
  · rintro (hun' | hfits)
    · exact absurd hun' hun
    · exact checkSound_of_nameFits h hun hfits

/-- An empty table with a name of two bytes. -/
theorem checkSound_iff_table :
    CheckSound (memOf [0x82, 0, 0, 12, 0, 2, 97, 98, 0, 0, 0, 0]) 0 true :=
  (checkSound_iff _ 0 true (by decide)).mpr (.inr ⟨by decide, fun _ ↦ by decide⟩)

/-- A name that ends with the attribute, and a table without the padding of its name. -/
theorem not_checkSound_short : ¬CheckSound (memOf [0x83, 0, 0, 7, 0, 1, 97]) 0 true ∧
    ¬CheckSound (memOf [0x82, 0, 0, 9, 0, 2, 97, 98, 0]) 0 true := by
  constructor
  · intro h
    exact absurd (h.reads 7 (by decide)).2 (by decide)
  · intro h
    exact absurd (h.valid (by decide)).lenNonneg (by decide)

end MiniPi.Blob
