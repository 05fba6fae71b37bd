import MiniPi.Blob.Basic

/-!
# Walking the children of an attribute

`blob_for_each_attr` goes from header to header and trusts the lengths that it finds there;
`blob_parse` looks at every attribute on the way.  Both are modelled with the addresses of the
bytes that they read.
-/

namespace MiniPi.Blob

open Lib

/-- The addresses of a header. -/
def headerBytes (attr : ℕ) : List ℕ := List.range' attr 4

/-- What a walk yields, and the addresses of the headers that it reads on the way. -/
structure Walk where
  children : List ℕ
  reads : List ℕ
deriving DecidableEq, Repr

/-- The loop of `blob_for_each_attr`, for at most `n` turns; `rem` is not negative, because it
only drops by padded lengths that were compared with it. -/
def attrLoop (m : Mem) : ℕ → ℕ → ℕ → Option Walk
  | n, pos, rem =>
    if rem = 0 then some ⟨[], []⟩
    else if blobPadLen m pos ≤ rem ∧ 4 ≤ blobPadLen m pos then
      match n with
      | 0 => none
      | n + 1 =>
        (attrLoop m n (blobNext m pos) (rem - blobPadLen m pos)).map fun w ↦
          ⟨pos :: w.children, headerBytes pos ++ w.reads⟩
    else some ⟨[], headerBytes pos⟩

/-- `blob_for_each_attr`; `attr` is not a null pointer. -/
def forEachAttr (m : Mem) (n attr : ℕ) : Option Walk :=
  attrLoop m n (blobData attr) (blobLen m attr)

/-! ## Parsing -/

/-- `struct blob_attr_info`; `validate` is called with the outer attribute. -/
structure AttrInfo where
  type : ℕ
  minlen : ℕ
  maxlen : ℕ
  validate : Option (ℕ → Bool)

/-- A number as an `int`. -/
def toInt (n : ℕ) : ℤ := (BitVec.ofNat 32 n).toInt

/-- `BLOB_ATTR_STRING`. -/
def attrString : ℤ := 3

/-- `BLOB_ATTR_LAST`. -/
def attrLast : ℤ := 8

/-- `blob_type_minlen`; `junk` stands for what lies before the table. -/
def blobTypeMinlen (junk : ℤ → ℤ) : ℤ → ℤ
  | 3 | 4 => 1
  | 5 => 2
  | 6 => 4
  | 7 => 8
  | .ofNat _ => 0
  | type => junk type

/-- `blob_check_type`, with the addresses that it reads. -/
def blobCheckType (junk : ℤ → ℤ) (m : Mem) (ptr : ℕ) (len type : ℤ) : Bool × List ℤ :=
  if attrLast ≤ type then (false, [])
  else if 4 ≤ type ∧ type ≤ 7 ∧ len ≠ blobTypeMinlen junk type then (false, [])
  else if ¬(4 ≤ type ∧ type ≤ 7) ∧ len < blobTypeMinlen junk type then (false, [])
  else if type = attrString then (m (ptr + (len - 1).toNat) == 0, [ptr + (len - 1)])
  else (true, [])

/-- The checks of `blob_parse` on one attribute, with the addresses of its payload that they read;
a comparison with an `unsigned int` is unsigned. -/
def accepts (junk : ℤ → ℤ) (m : Mem) (attr pos : ℕ) (info : AttrInfo) : Bool × List ℤ :=
  let len := toInt (blobLen m pos)
  let (ok, reads) :=
    if toInt info.type < attrLast then blobCheckType junk m (blobData pos) len (toInt info.type)
    else (true, [])
  (ok && !(info.minlen != 0 && decide (blobLen m pos < info.minlen)) &&
    !(info.maxlen != 0 && decide (info.maxlen < blobLen m pos)) &&
      info.validate.all (· attr), reads)

/-- The table that `blob_parse` fills, the number of attributes in it and the addresses read. -/
structure Parse where
  data : ℕ → Option ℕ
  found : ℕ
  reads : List ℤ

/-- The body of the loop of `blob_parse`. -/
def parseAttr (junk : ℤ → ℤ) (m : Mem) (attr : ℕ) (info : Option (ℕ → AttrInfo)) (max : ℕ)
    (st : Parse) (pos : ℕ) : Parse :=
  let id := blobId m pos
  let st := { st with reads := st.reads ++ (headerBytes pos).map Int.ofNat }
  let put (st : Parse) : Parse :=
    { st with
      data := Function.update st.data id (some pos)
      found := if (st.data id).isNone then st.found + 1 else st.found }
  if max ≤ id then st
  else
    match info with
    | none => put st
    | some info =>
      let (ok, reads) := accepts junk m attr pos (info id)
      let st := { st with reads := st.reads ++ reads }
      if ok then put st else st

/-- `blob_parse`, for at most `n` turns of its loop. -/
def blobParse (junk : ℤ → ℤ) (m : Mem) (n attr : ℕ) (info : Option (ℕ → AttrInfo)) (max : ℕ) :
    Option Parse :=
  (forEachAttr m n attr).map fun w ↦
    w.children.foldl (parseAttr junk m attr info max) ⟨fun _ ↦ none, 0, w.reads.map Int.ofNat⟩

/-! ## Safety -/

/-- The byte belongs to the attribute. -/
def Inside (m : Mem) (attr : ℕ) (a : ℤ) : Prop := attr ≤ a ∧ a < attr + blobRawLen m attr

/-- The walk over an attribute ends, stays in the attribute, and yields attributes inside of it,
and so does parsing, whatever it looks for. -/
structure Safe (m : Mem) (attr : ℕ) : Prop where
  walk : ∃ n w, forEachAttr m n attr = some w ∧ (∀ a ∈ w.reads, Inside m attr a) ∧
    ∀ c ∈ w.children, 4 ≤ blobRawLen m c ∧ attr ≤ c ∧ c + blobRawLen m c ≤ attr + blobRawLen m attr
  parse : ∀ junk info max, ∃ n p, blobParse junk m n attr info max = some p ∧
    ∀ a ∈ p.reads, Inside m attr a

/-- A payload of `rem` bytes that the walk can cope with: attributes follow each other to its end,
or up to a header that is stored in full and stops the walk. -/
inductive Chained (m : Mem) : ℕ → ℕ → Prop
  | nil (pos : ℕ) : Chained m pos 0
  | stop {pos rem : ℕ} (hrem : 4 ≤ rem) (hlen : blobRawLen m pos = 0 ∨ rem < blobPadLen m pos) :
      Chained m pos rem
  | cons {pos rem : ℕ} (hlen : 4 ≤ blobRawLen m pos) (hfit : blobPadLen m pos ≤ rem)
      (hnext : Chained m (blobNext m pos) (rem - blobPadLen m pos)) : Chained m pos rem

variable {m : Mem}

theorem four_le_blobPadLen_iff {pos : ℕ} : 4 ≤ blobPadLen m pos ↔ blobRawLen m pos ≠ 0 := by
  unfold blobPadLen
  omega

/-- Everything that a turn of the loop can do. -/
theorem attrLoop_cases {n pos rem : ℕ} {w : Walk} (h : attrLoop m n pos rem = some w) :
    (rem = 0 ∧ w = ⟨[], []⟩) ∨
    ((blobRawLen m pos = 0 ∨ rem < blobPadLen m pos) ∧ w = ⟨[], headerBytes pos⟩) ∨
    ∃ n' w', n = n' + 1 ∧ blobPadLen m pos ≤ rem ∧
      attrLoop m n' (blobNext m pos) (rem - blobPadLen m pos) = some w' ∧
      w = ⟨pos :: w'.children, headerBytes pos ++ w'.reads⟩ := by
  unfold attrLoop at h
  split_ifs at h with h₀ hguard
  · exact .inl ⟨h₀, (Option.some.inj h).symm⟩
  · cases n with
    | zero => cases h
    | succ n' =>
        obtain ⟨w', hw', rfl⟩ := Option.map_eq_some_iff.mp h
        exact .inr (.inr ⟨n', w', rfl, hguard.1, hw', rfl⟩)
  · rw [four_le_blobPadLen_iff] at hguard
    exact .inr (.inl ⟨by omega, (Option.some.inj h).symm⟩)

/-- A walk that reads nothing behind the payload, and yields whole headers only. -/
theorem chained_of_attrLoop {n pos rem : ℕ} {w : Walk} (h : attrLoop m n pos rem = some w)
    (hreads : ∀ a ∈ w.reads, a < pos + rem) (hlen : ∀ c ∈ w.children, 4 ≤ blobRawLen m c) :
    Chained m pos rem := by
  induction n generalizing pos rem w with
  | zero =>
      rcases attrLoop_cases h with ⟨rfl, -⟩ | ⟨hstop, rfl⟩ | ⟨n', w', hn, -⟩
      · exact .nil pos
      · have hlast := hreads (pos + 3) (by simp [headerBytes])
        exact .stop (by omega) hstop
      · cases hn
  | succ n ih =>
      rcases attrLoop_cases h with ⟨rfl, -⟩ | ⟨hstop, rfl⟩ | ⟨n', w', hn, hfit, hw', rfl⟩
      · exact .nil pos
      · have hlast := hreads (pos + 3) (by simp [headerBytes])
        exact .stop (by omega) hstop
      · obtain rfl := Nat.succ.inj hn
        refine .cons (hlen pos List.mem_cons_self) hfit (ih hw' ?_ ?_)
        · intro a ha
          have := hreads a (List.mem_append_right _ ha)
          unfold blobNext
          omega
        · exact fun c hc ↦ hlen c (List.mem_cons_of_mem _ hc)

/-- The walk over such a payload, by induction on the attributes in it. -/
theorem attrLoop_of_chained {pos rem : ℕ} (h : Chained m pos rem) :
    ∃ n w, attrLoop m n pos rem = some w ∧ (∀ a ∈ w.reads, pos ≤ a ∧ a < pos + rem) ∧
      ∀ c ∈ w.children, 4 ≤ blobRawLen m c ∧ pos ≤ c ∧ c + blobRawLen m c ≤ pos + rem := by
  induction h with
  | nil pos => exact ⟨0, ⟨[], []⟩, by simp [attrLoop], by simp, by simp⟩
  | @stop pos rem hrem hlen =>
      have hguard : ¬(blobPadLen m pos ≤ rem ∧ 4 ≤ blobPadLen m pos) := by
        rw [four_le_blobPadLen_iff]
        omega
      refine ⟨0, ⟨[], headerBytes pos⟩, ?_, ?_, by simp⟩
      · rw [attrLoop, if_neg (by omega), if_neg hguard]
      · intro a ha
        simp only [headerBytes, List.mem_range'_1] at ha
        omega
  | @cons pos rem hlen hfit _ ih =>
      obtain ⟨n, w, hw, hreads, hchildren⟩ := ih
      have hraw := blobRawLen_le_padLen m pos
      refine ⟨n + 1, ⟨pos :: w.children, headerBytes pos ++ w.reads⟩, ?_, ?_, ?_⟩
      · rw [attrLoop, if_neg (by omega), if_pos ⟨hfit, by omega⟩, hw]
        rfl
      · intro a ha
        rcases List.mem_append.mp ha with ha | ha
        · simp only [headerBytes, List.mem_range'_1] at ha
          omega
        · have := hreads a ha
          unfold blobNext at this
          omega
      · intro c hc
        rcases List.mem_cons.mp hc with rfl | hc
        · exact ⟨hlen, le_rfl, by omega⟩
        · obtain ⟨hc₁, hc₂, hc₃⟩ := hchildren c hc
          unfold blobNext at hc₂ hc₃
          exact ⟨hc₁, by omega, by omega⟩

/-! ## What parsing reads -/

theorem blobCheckType_reads {junk : ℤ → ℤ} {ptr : ℕ} {len type a : ℤ}
    (h : a ∈ (blobCheckType junk m ptr len type).2) : 1 ≤ len ∧ a = ptr + (len - 1) := by
  unfold blobCheckType at h
  split_ifs at h with h₁ h₂ h₃ h₄
  all_goals simp only [List.not_mem_nil, List.mem_singleton] at h
  subst h₄
  simp only [attrString, blobTypeMinlen] at h₃
  exact ⟨by omega, h⟩

theorem toInt_blobLen {pos : ℕ} (h : 4 ≤ blobRawLen m pos) :
    toInt (blobLen m pos) = (blobRawLen m pos : ℤ) - 4 := by
  have hlt := blobRawLen_lt m pos
  rw [blobLen_of_le h, toInt, BitVec.toInt_eq_toNat_of_lt]
  · simp only [BitVec.toNat_ofNat]
    omega
  · simp only [BitVec.toNat_ofNat]
    omega

theorem accepts_reads {junk : ℤ → ℤ} {attr pos : ℕ} {info : AttrInfo} {a : ℤ}
    (hlen : 4 ≤ blobRawLen m pos) (h : a ∈ (accepts junk m attr pos info).2) : Inside m pos a := by
  have ha : a ∈ (blobCheckType junk m (blobData pos) (toInt (blobLen m pos))
      (toInt info.type)).2 := by
    simp only [accepts] at h
    split_ifs at h
    · exact h
    · cases h
  obtain ⟨hpos, ha⟩ := blobCheckType_reads ha
  rw [toInt_blobLen hlen] at hpos ha
  unfold blobData at ha
  unfold Inside
  omega

/-- The loop of `blob_parse` over attributes that lie inside of the outer one. -/
theorem parse_reads {junk : ℤ → ℤ} {attr : ℕ} {info : Option (ℕ → AttrInfo)} {max : ℕ}
    {children : List ℕ} {st : Parse} (hst : ∀ a ∈ st.reads, Inside m attr a)
    (hchildren : ∀ c ∈ children, 4 ≤ blobRawLen m c ∧ ∀ a, Inside m c a → Inside m attr a) :
    ∀ a ∈ (children.foldl (parseAttr junk m attr info max) st).reads, Inside m attr a := by
  induction children generalizing st with
  | nil => exact hst
  | cons c children ih =>
      obtain ⟨hlen, hc⟩ := hchildren c List.mem_cons_self
      refine ih ?_ fun c' hc' ↦ hchildren c' (List.mem_cons_of_mem _ hc')
      have hheader : ∀ a ∈ st.reads ++ (headerBytes c).map Int.ofNat, Inside m attr a := by
        intro a ha
        rcases List.mem_append.mp ha with ha | ha
        · exact hst a ha
        · obtain ⟨b, hb, rfl⟩ := List.mem_map.mp ha
          simp only [headerBytes, List.mem_range'_1] at hb
          refine hc _ ⟨?_, ?_⟩ <;> simp only [Int.ofNat_eq_natCast] <;> omega
      have haccepts : ∀ info : AttrInfo, ∀ a ∈ st.reads ++ (headerBytes c).map Int.ofNat ++
          (accepts junk m attr c info).2, Inside m attr a := by
        intro info a ha
        rcases List.mem_append.mp ha with ha | ha
        · exact hheader a ha
        · exact hc a (accepts_reads hlen ha)
      by_cases hid : max ≤ blobId m c
      · simpa only [parseAttr, if_pos hid] using hheader
      · cases info with
        | none => simpa only [parseAttr, if_neg hid] using hheader
        | some info =>
            simp only [parseAttr, if_neg hid]
            by_cases hok : (accepts junk m attr c (info (blobId m c))).1 = true
            · simpa only [if_pos hok] using haccepts _
            · simpa only [if_neg hok] using haccepts _

/-! ## The theorem -/

theorem chained_of_safe {attr : ℕ} (hlen : 4 ≤ blobRawLen m attr) (h : Safe m attr) :
    Chained m (blobData attr) (blobLen m attr) := by
  obtain ⟨n, w, hw, hreads, hchildren⟩ := h.walk
  refine chained_of_attrLoop hw ?_ fun c hc ↦ (hchildren c hc).1
  intro a ha
  have hin := hreads a ha
  rw [blobLen_of_le hlen]
  unfold Inside at hin
  unfold blobData
  omega

theorem safe_of_chained {attr : ℕ} (hlen : 4 ≤ blobRawLen m attr)
    (h : Chained m (blobData attr) (blobLen m attr)) : Safe m attr := by
  obtain ⟨n, w, hw, hreads, hchildren⟩ := attrLoop_of_chained h
  rw [blobLen_of_le hlen] at hreads hchildren
  unfold blobData at hreads hchildren
  have hreads' : ∀ a ∈ w.reads, Inside m attr a := by
    intro a ha
    have := hreads a ha
    unfold Inside
    omega
  refine ⟨⟨n, w, hw, hreads', fun c hc ↦ ?_⟩, fun junk info max ↦ ?_⟩
  · have := hchildren c hc
    omega
  · refine ⟨n, _, Option.map_eq_some_iff.mpr ⟨w, hw, rfl⟩, parse_reads ?_ ?_⟩
    · intro a ha
      obtain ⟨b, hb, rfl⟩ := List.mem_map.mp ha
      exact hreads' b hb
    · intro c hc
      obtain ⟨hc₁, hc₂, hc₃⟩ := hchildren c hc
      refine ⟨hc₁, fun a ha ↦ ?_⟩
      unfold Inside at ha ⊢
      omega

/-- Walking and parsing an attribute is safe exactly if its payload is a chain of attributes. -/
theorem safe_iff_chained {attr : ℕ} (hlen : 4 ≤ blobRawLen m attr) :
    Safe m attr ↔ Chained m (blobData attr) (blobLen m attr) :=
  ⟨chained_of_safe hlen, safe_of_chained hlen⟩

/-- A memory that begins with the given bytes. -/
def memOf (bs : List UInt8) : Mem := fun a ↦ bs.getD a 0

/-- An attribute with one child, a string. -/
theorem safe_iff_chained_string : Safe (memOf [0, 0, 0, 12, 3, 0, 0, 6, 97, 0, 0, 0]) 0 := by
  refine (safe_iff_chained (by decide)).mpr (.cons (by decide) (by decide) ?_)
  exact .nil _

/-- A payload of one byte: the header that is read there has three bytes outside. -/
theorem not_safe : ¬ ∀ (m : Mem) (attr : ℕ), 4 ≤ blobRawLen m attr → Safe m attr := by
  intro h
  have hlen : 4 ≤ blobRawLen (memOf [0, 0, 0, 5, 0]) 0 := by decide
  have hchained := chained_of_safe hlen (h _ _ hlen)
  have hone : blobLen (memOf [0, 0, 0, 5, 0]) 0 = 1 := by decide
  rw [hone] at hchained
  cases hchained with
  | stop hrem => omega
  | cons hraw hfit =>
      have := blobRawLen_le_padLen (memOf [0, 0, 0, 5, 0]) (blobData 0)
      omega

end MiniPi.Blob
