import MiniPi.Blob.Encode

/-!
# What was built is read back

The walk over encoded fields goes from field to field, and the reader finds the names and the data
that the builder wrote.
-/

namespace MiniPi.Blob

open Lib

/-- The number of fields, at all depths. -/
def Fields.size : Fields → ℕ
  | .nil => 0
  | .value _ _ rest => rest.size + 1
  | .nested _ _ children rest => children.size + rest.size + 1

/-- The addresses of the attributes of fields that are encoded at `a`. -/
def places : Fields → ℕ → List ℕ
  | .nil, _ => []
  | .value name v rest, a =>
    a :: places rest (a + (attrBytes v.type name v.data ++ padding v.data.length).length)
  | .nested name array children rest, a =>
    a :: places rest (a + (attrBytes (nestedType array) name (encode children)).length)

variable {m : Mem} {a n : ℕ}

/-! ## One attribute -/

section Attr

variable {type : ℕ} {name data : List UInt8}

/-- The parts of an attribute. -/
theorem at_attrBytes (h : m.At a (attrBytes type name data)) :
    m.At a (word (128 + type) (4 + (nameBytes name).length + data.length)) ∧
      m.At (a + 4) (nameBytes name) ∧ m.At (a + 4 + (nameBytes name).length) data := by
  rw [attrBytes, Mem.at_append, Mem.at_append, List.length_append, length_word,
    ← Nat.add_assoc] at h
  exact ⟨h.1.1, h.1.2, h.2⟩

theorem blobmsgName_eq (h : m.At a (attrBytes type name data)) (htype : type < 2 ^ 7)
    (hname : NameOk name) (hlt : 4 + (nameBytes name).length + data.length < 2 ^ 24) :
    blobmsgName m a = name := by
  obtain ⟨hword, hnm, -⟩ := at_attrBytes h
  have hhdr := length_nameBytes name
  have hlen := blobLen_of_word hword (by omega) hlt (by omega)
  have hpos : name.length + 3 ≤ (nameBytes name).length := by
    rw [hhdr, blobmsgHdrlen]
    omega
  obtain ⟨k, hk⟩ : ∃ k, (nameBytes name).length - (2 + name.length) = k + 1 :=
    ⟨(nameBytes name).length - (2 + name.length) - 1, by omega⟩
  obtain ⟨j, hj⟩ : ∃ j, blobLen m a = name.length + 1 + j :=
    ⟨blobLen m a - (name.length + 1), by omega⟩
  -- the name and its NUL
  have hstr : m.At (a + 4 + 2) (name ++ [0]) := by
    have hbytes : nameBytes name =
        beBytes 2 name.length ++ ((name ++ [0]) ++ List.replicate k 0) := by
      rw [nameBytes, ← hhdr, hk, List.replicate_succ]
      simp
    rw [hbytes, Mem.at_append, Mem.at_append, length_beBytes] at hnm
    exact hnm.2.1
  have hslice : m.slice (a + 4 + 2) (name.length + 1) = name ++ [0] := by
    have := hstr
    rwa [Mem.At, List.length_append, List.length_singleton] at this
  rw [blobmsgName, blobData, hj, Mem.slice_add, hslice, List.append_assoc, List.singleton_append,
    List.takeWhile_append_of_pos]
  · simp
  · intro x hx
    have : x ≠ 0 := fun hx0 ↦ hname.2 (hx0 ▸ hx)
    simpa using this

/-- The data of an attribute, and their length. -/
theorem blobmsgData_eq (h : m.At a (attrBytes type name data)) (htype : type < 2 ^ 7)
    (hname : NameOk name) (hlt : 4 + (nameBytes name).length + data.length < 2 ^ 24) :
    blobmsgData m a = a + 4 + (nameBytes name).length ∧ blobmsgDataLen m a = data.length := by
  obtain ⟨hword, hnm, -⟩ := at_attrBytes h
  have hlen := blobLen_of_word hword (by omega) hlt (by omega)
  have hbytes : m.At (a + 4) (beBytes 2 name.length) := by
    rw [nameBytes, List.append_assoc, Mem.at_append] at hnm
    exact hnm.1
  have hdata := blobmsgData_of_word hword htype hlt hbytes hname.1
  refine ⟨hdata, ?_⟩
  rw [blobmsgDataLen, hdata, hlen, blobData]
  omega

theorem blobPadLen_eq (h : m.At a (attrBytes type name data)) (htype : type < 2 ^ 7)
    (hlt : 4 + (nameBytes name).length + data.length < 2 ^ 24) :
    blobPadLen m a = (attrBytes type name data ++ padding data.length).length := by
  have hhdr := four_dvd_length_nameBytes name
  rw [blobPadLen_of_word (at_attrBytes h).1 (by omega) hlt, List.length_append, length_attrBytes,
    length_padding]
  omega

/-- The walk over an attribute and what follows it. -/
theorem attrLoop_cons {k : ℕ} {w : Walk} (h : m.At a (attrBytes type name data))
    (htype : type < 2 ^ 7) (hlt : 4 + (nameBytes name).length + data.length < 2 ^ 24)
    (hw : attrLoop m n (a + (attrBytes type name data ++ padding data.length).length) k = some w) :
    attrLoop m (n + 1) a ((attrBytes type name data ++ padding data.length).length + k) =
      some ⟨a :: w.children, headerBytes a ++ w.reads⟩ := by
  have hpad := blobPadLen_eq h htype hlt
  have hpos : 4 ≤ (attrBytes type name data ++ padding data.length).length := by
    rw [List.length_append, length_attrBytes]
    omega
  unfold attrLoop
  rw [if_neg (by omega), hpad, if_pos ⟨by omega, hpos⟩]
  dsimp only
  rw [blobNext, hpad, Nat.add_sub_cancel_left, hw, Option.map_some]

end Attr

/-! ## Fields -/

theorem readValue_eq (v : Value) (hv : v.Ok) : readValue v.type v.data = some v := by
  cases v with
  | u8 v => simp [readValue, Value.type, Value.data, beValue, leValue]
  | u16 v => simp [readValue, Value.type, Value.data, beValue_beBytes]
  | u32 v => simp [readValue, Value.type, Value.data, beValue_beBytes]
  | u64 v => simp [readValue, Value.type, Value.data, beValue_beBytes]
  | string s =>
      have hs : ∀ x ∈ s, decide (x ≠ 0) = true := fun x hx ↦
        decide_eq_true fun hx0 ↦ hv (hx0 ▸ hx)
      simp only [readValue, Value.type, Value.data]
      rw [List.takeWhile_append_of_pos hs]
      simp
  | raw data => rfl

theorem nestedType_lt (array : Bool) : nestedType array < 2 ^ 7 := by cases array <;> decide

theorem padding_encode (fs : Fields) : padding (encode fs).length = [] := by
  have := four_dvd_length_encode fs
  rw [← List.length_eq_zero_iff, length_padding]
  omega

/-- The walk over encoded fields yields their attributes. -/
theorem attrLoop_encode (fs : Fields) (h : m.At a (encode fs)) (hlt : (encode fs).length < 2 ^ 24)
    (hn : fs.size ≤ n) :
    ∃ w, attrLoop m n a (encode fs).length = some w ∧ w.children = places fs a := by
  induction fs generalizing a n with
  | nil =>
      refine ⟨⟨[], []⟩, ?_, rfl⟩
      unfold attrLoop
      simp [encode]
  | value name v rest ih =>
      obtain ⟨n, rfl⟩ : ∃ k, n = k + 1 := ⟨n - 1, by rw [Fields.size] at hn; omega⟩
      rw [Fields.size] at hn
      rw [encode, Mem.at_append] at h
      rw [encode, List.length_append] at hlt ⊢
      obtain ⟨w, hw, hchildren⟩ := ih h.2 (by omega) (show rest.size ≤ n by omega)
      rw [List.length_append, length_attrBytes] at hlt
      refine ⟨_, attrLoop_cons (Mem.at_append.1 h.1).1 (BlobBuf.type_lt v) (by omega) hw, ?_⟩
      rw [places, hchildren]
  | nested name array children rest _ ih =>
      obtain ⟨n, rfl⟩ : ∃ k, n = k + 1 := ⟨n - 1, by rw [Fields.size] at hn; omega⟩
      rw [Fields.size] at hn
      rw [encode, Mem.at_append] at h
      rw [encode, List.length_append] at hlt ⊢
      obtain ⟨w, hw, hchildren⟩ := ih h.2 (by omega) (show rest.size ≤ n by omega)
      rw [length_attrBytes] at hlt
      have hcons := @attrLoop_cons m a n (nestedType array) name (encode children)
        (encode rest).length w h.1 (nestedType_lt array) (by omega)
      rw [padding_encode, List.append_nil] at hcons
      refine ⟨_, hcons hw, ?_⟩
      rw [places, hchildren]

/-- The fields are read back. -/
theorem readFields_encode (fs : Fields) (hfs : fs.Ok) (h : m.At a (encode fs))
    (hlt : (encode fs).length < 2 ^ 24) (hn : fs.size ≤ n) :
    readFields m n (places fs a) = some fs := by
  induction fs generalizing a n with
  | nil =>
      unfold readFields
      rfl
  | value name v rest ih =>
      obtain ⟨hname, hv, hrest⟩ := hfs
      obtain ⟨n, rfl⟩ : ∃ k, n = k + 1 := ⟨n - 1, by rw [Fields.size] at hn; omega⟩
      rw [Fields.size] at hn
      rw [encode, Mem.at_append] at h
      rw [encode, List.length_append] at hlt
      have hrec := ih hrest h.2 (by omega) (show rest.size ≤ n by omega)
      rw [List.length_append, length_attrBytes] at hlt
      have hattr := (Mem.at_append.1 h.1).1
      have htype := BlobBuf.type_lt v
      have hid := blobId_of_word (at_attrBytes hattr).1 (by omega) (by omega)
      obtain ⟨hdata, hlen⟩ := blobmsgData_eq hattr htype hname (by omega)
      have hid' : blobId m a = v.type := by omega
      have hnot : ¬ (v.type = 1 ∨ v.type = 2) := by cases v <;> simp [Value.type]
      rw [places, readFields]
      simp only [Option.bind_eq_bind]
      rw [hrec, Option.bind_some, hid', if_neg hnot, hdata, hlen, Int.toNat_natCast,
        (at_attrBytes hattr).2.2, readValue_eq v hv, Option.bind_some,
        blobmsgName_eq hattr htype hname (by omega)]
  | nested name array children rest ihc ihr =>
      obtain ⟨hname, hchildren, hrest⟩ := hfs
      obtain ⟨n, rfl⟩ : ∃ k, n = k + 1 := ⟨n - 1, by rw [Fields.size] at hn; omega⟩
      rw [Fields.size] at hn
      rw [encode, Mem.at_append] at h
      rw [encode, List.length_append, length_attrBytes] at hlt
      have hrec := ihr hrest h.2 (by omega) (show rest.size ≤ n by omega)
      obtain ⟨hword, -, hinner⟩ := at_attrBytes h.1
      have htype := nestedType_lt array
      have hid := blobId_of_word hword (by omega) (by omega)
      have hid' : blobId m a = nestedType array := by omega
      obtain ⟨hdata, hlen⟩ := blobmsgData_eq h.1 htype hname (by omega)
      obtain ⟨w, hw, hplaces⟩ :=
        attrLoop_encode children hinner (by omega) (show children.size ≤ n by omega)
      have hrec' := ihc hchildren hinner (by omega) (show children.size ≤ n by omega)
      have hnested : nestedType array = 1 ∨ nestedType array = 2 := by cases array <;> decide
      have harray : decide (nestedType array = 1) = array := by cases array <;> decide
      rw [places, readFields]
      simp only [Option.bind_eq_bind]
      rw [hrec, Option.bind_some, hid', if_pos hnested, blobmsgForEachAttr, hdata, hlen,
        Int.toNat_natCast, hw, Option.bind_some, hplaces, hrec', Option.bind_some, harray,
        blobmsgName_eq h.1 htype hname (by omega)]

/-- The head of the buffer is the message. -/
theorem build_spec (realloc : ℕ → ℕ) (b : BlobBuf) (id : ℕ) (fs : Fields) (hfs : fs.Ok)
    (hlt : 4 + (encode fs).length < 2 ^ 24) :
    ∃ b', b.build realloc id fs = some b' ∧ blobLen b'.mem b'.head = (encode fs).length ∧
      b'.mem.At (blobData b'.head) (encode fs) := by
  obtain ⟨b₁, hinit, hopen⟩ := b.blobBufInit_spec realloc id
  obtain ⟨b₂, hadd, hopen'⟩ :=
    @BlobBuf.Open.addFields_spec realloc b₁ [] [] _ fs hfs hopen (by simpa using hlt)
  refine ⟨b₂, ?_, ?_, ?_⟩
  · rw [BlobBuf.build]
    simp only [Option.bind_eq_bind]
    rw [hinit, Option.bind_some, hadd]
  · rw [List.nil_append] at hopen'
    rw [hopen'.head, blobLen_of_word hopen'.atWord hopen'.lt hlt (by omega)]
    omega
  · rw [blobData, hopen'.head]
    exact hopen'.atBody

/-- Wherever the buffer is, whenever it has to grow and wherever it is moved to: the fields that are
put into it are read back. -/
theorem readMessage_build (realloc : ℕ → ℕ) (b : BlobBuf) (id : ℕ) (fs : Fields)
    (hfs : fs.Ok) (hlt : 4 + (encode fs).length < 2 ^ 24) :
    ∃ b', b.build realloc id fs = some b' ∧
      ∀ n, fs.size ≤ n → readMessage b'.mem n b'.head = some fs := by
  obtain ⟨b', hbuild, hlen, hbody⟩ := build_spec realloc b id fs hfs hlt
  refine ⟨b', hbuild, fun n hn ↦ ?_⟩
  obtain ⟨w, hw, hplaces⟩ := attrLoop_encode fs hbody (by omega) hn
  rw [readMessage, forEachAttr, hlen]
  simp only [Option.bind_eq_bind]
  rw [hw, Option.bind_some, hplaces, readFields_encode fs hfs hbody (by omega) hn]

/-- A table with a string and an empty array, and a number behind it. -/
theorem readMessage_build_sample :
    ∃ b', BlobBuf.build (fun len ↦ 1000 * len) ⟨fun _ ↦ 0, 0, 0, 0, rfl⟩ 0
        (.nested [116] false (.value [] (.string [104, 105]) (.nested [97] true .nil .nil))
          (.value [110] (.u32 7) .nil)) = some b' ∧
      ∀ n, 4 ≤ n → readMessage b'.mem n b'.head =
        some (.nested [116] false (.value [] (.string [104, 105]) (.nested [97] true .nil .nil))
          (.value [110] (.u32 7) .nil)) :=
  readMessage_build _ _ 0 _ (by simp [Fields.Ok, NameOk, Value.Ok]) (by decide)

end MiniPi.Blob
