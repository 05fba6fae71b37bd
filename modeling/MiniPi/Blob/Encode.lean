import MiniPi.Blob.Message

/-!
# What the builder writes

The encoding of fields as bytes, and the effect of each call of the builder on them.  The buffer
holds what was there before the open attribute, the header of the open attribute and its payload;
an operation changes the header and appends to the payload, wherever the buffer is moved to.
-/

namespace MiniPi.Blob

open Lib

/-! ## Encoding -/

/-- A header: the upper eight bits and the length. -/
def word (t len : ℕ) : List UInt8 := beBytes 4 (t * 2 ^ 24 + len)

/-- The padding behind `n` bytes. -/
def padding (n : ℕ) : List UInt8 := List.replicate ((n + 3) / 4 * 4 - n) 0

/-- The name in front of the data, with its padding. -/
def nameBytes (name : List UInt8) : List UInt8 :=
  beBytes 2 name.length ++ name ++
    List.replicate (blobmsgHdrlen name.length - (2 + name.length)) 0

/-- An attribute of a message without its padding. -/
def attrBytes (type : ℕ) (name data : List UInt8) : List UInt8 :=
  word (128 + type) (4 + (nameBytes name).length + data.length) ++ nameBytes name ++ data

/-- The encoding of fields. -/
def encode : Fields → List UInt8
  | .nil => []
  | .value name v rest => attrBytes v.type name v.data ++ padding v.data.length ++ encode rest
  | .nested name array children rest =>
    attrBytes (nestedType array) name (encode children) ++ encode rest

@[simp] theorem length_word (t len : ℕ) : (word t len).length = 4 := length_beBytes ..

theorem length_nameBytes (name : List UInt8) :
    (nameBytes name).length = blobmsgHdrlen name.length := by
  simp only [nameBytes, List.length_append, length_beBytes, List.length_replicate, blobmsgHdrlen]
  omega

theorem four_dvd_length_nameBytes (name : List UInt8) : 4 ∣ (nameBytes name).length := by
  rw [length_nameBytes]
  unfold blobmsgHdrlen
  omega

@[simp] theorem length_padding (n : ℕ) : (padding n).length = (n + 3) / 4 * 4 - n := by
  simp [padding]

@[simp] theorem length_attrBytes (type : ℕ) (name data : List UInt8) :
    (attrBytes type name data).length = 4 + (nameBytes name).length + data.length := by
  simp [attrBytes]
  omega

theorem four_dvd_length_encode (fs : Fields) : 4 ∣ (encode fs).length := by
  induction fs with
  | nil => simp [encode]
  | value name v rest ih =>
      have := four_dvd_length_nameBytes name
      simp only [encode, List.length_append, length_attrBytes, length_padding]
      omega
  | nested name array children rest ih ih' =>
      have := four_dvd_length_nameBytes name
      simp only [encode, List.length_append, length_attrBytes]
      omega

/-! ## Headers in memory -/

section Header

variable {m : Mem} {a t len : ℕ}

theorem idLen_of_word (h : m.At a (word t len)) (ht : t < 256) (hlen : len < 2 ^ 24) :
    idLen m a = t * 2 ^ 24 + len := by
  have hslice : m.slice a 4 = word t len := by
    have := length_word t len
    rw [← this]
    exact h
  rw [idLen, hslice, word, beValue_beBytes]
  omega

theorem blobRawLen_of_word (h : m.At a (word t len)) (ht : t < 256) (hlen : len < 2 ^ 24) :
    blobRawLen m a = len := by
  rw [blobRawLen_eq, idLen_of_word h ht hlen]
  omega

theorem blobPadLen_of_word (h : m.At a (word t len)) (ht : t < 256) (hlen : len < 2 ^ 24) :
    blobPadLen m a = (len + 3) / 4 * 4 := by
  rw [blobPadLen, blobRawLen_of_word h ht hlen]

theorem blobLen_of_word (h : m.At a (word t len)) (ht : t < 256) (hlen : len < 2 ^ 24)
    (hfour : 4 ≤ len) : blobLen m a = len - 4 := by
  have hraw := blobRawLen_of_word h ht hlen
  rw [blobLen_of_le (by omega), hraw]

theorem blobId_of_word (h : m.At a (word t len)) (ht : t < 256) (hlen : len < 2 ^ 24) :
    blobId m a = t % 128 := by
  rw [blobId, idLen_of_word h ht hlen]
  omega

theorem blobIsExtended_of_word (h : m.At a (word t len)) (ht : t < 256) (hlen : len < 2 ^ 24) :
    blobIsExtended m a = decide (128 ≤ t) := by
  rw [blobIsExtended, idLen_of_word h ht hlen]
  by_cases h128 : 128 ≤ t
  · have : (t * 2 ^ 24 + len) / 2 ^ 31 % 2 = 1 := by omega
    rw [this]
    simp [h128]
  · have : (t * 2 ^ 24 + len) / 2 ^ 31 % 2 = 0 := by omega
    rw [this]
    simp [h128]

end Header

/-- Where the data of an attribute with a name are. -/
theorem blobmsgData_of_word {m : Mem} {a type len : ℕ} {name : List UInt8}
    (h : m.At a (word (128 + type) len)) (htype : type < 2 ^ 7) (hlen : len < 2 ^ 24)
    (hname : m.At (a + 4) (beBytes 2 name.length)) (hlt : name.length < 2 ^ 16) :
    blobmsgData m a = a + 4 + (nameBytes name).length := by
  have hslice : m.slice (a + 4) 2 = beBytes 2 name.length := by
    have := length_beBytes 2 name.length
    rw [← this]
    exact hname
  have hext := blobIsExtended_of_word h (by omega) hlen
  rw [blobmsgData, hext, if_pos (by simp), blobData, hslice, beValue_beBytes, length_nameBytes,
    Nat.mod_eq_of_lt (show name.length < 256 ^ 2 by omega)]

/-! ## The open attribute -/

namespace BlobBuf

variable (realloc : ℕ → ℕ) {b b' : BlobBuf} {pre body : List UInt8} {t len : ℕ}

/-- `b'` is `b` with bytes copied to address `a`. -/
structure Stored (b b' : BlobBuf) (a : ℕ) (bs : List UInt8) : Prop where
  buf : b'.buf = b.buf
  buflen : b'.buflen = b.buflen
  head : b'.head = b.head
  mem : b'.mem = b.mem.write a bs

theorem store_spec {a : ℕ} {bs : List UInt8} (hlo : b.buf ≤ a)
    (hhi : a + bs.length ≤ b.buf + b.buflen) : ∃ b', b.store a bs = some b' ∧ Stored b b' a bs :=
  ⟨_, if_pos ⟨hlo, hhi⟩, rfl, rfl, rfl, rfl⟩

theorem Stored.at_self {a : ℕ} {bs : List UInt8} (h : Stored b b' a bs) : b'.mem.At a bs := by
  rw [h.mem]
  exact Mem.at_write_self

theorem Stored.at_of_disjoint {a c : ℕ} {bs cs : List UInt8} (h : Stored b b' a bs)
    (hat : b.mem.At c cs) (hdis : c + cs.length ≤ a ∨ a + bs.length ≤ c) : b'.mem.At c cs := by
  rw [h.mem]
  exact hat.write_of_disjoint hdis

/-- The attribute with the upper bits `t` and the payload `body` is open; `pre` comes before it.
The length in its header may be another one, while an attribute is added. -/
structure Open (b : BlobBuf) (pre : List UInt8) (t len : ℕ) (body : List UInt8) : Prop where
  head : b.head = b.buf + pre.length
  atPre : b.mem.At b.buf pre
  atWord : b.mem.At (b.buf + pre.length) (word t len)
  atBody : b.mem.At (b.buf + pre.length + 4) body
  fits : pre.length + 4 + body.length ≤ b.buflen
  four_dvd_pre : 4 ∣ pre.length
  four_dvd_body : 4 ∣ body.length
  lt : t < 256

/-- The end of the open attribute. -/
def stop (b : BlobBuf) (pre body : List UInt8) : ℕ := b.buf + pre.length + 4 + body.length

theorem Open.stored (h : b.Open pre t len body) {a : ℕ} {bs : List UInt8} (hs : Stored b b' a bs)
    (hlo : b.stop pre body ≤ a) : b'.Open pre t len body ∧ b'.stop pre body = b.stop pre body := by
  unfold stop at hlo ⊢
  have hword := h.atWord
  refine ⟨⟨?_, ?_, ?_, ?_, ?_, h.four_dvd_pre, h.four_dvd_body, h.lt⟩, by rw [hs.buf]⟩
  · rw [hs.head, hs.buf, h.head]
  · rw [hs.buf]
    exact hs.at_of_disjoint h.atPre (by omega)
  · rw [hs.buf]
    exact hs.at_of_disjoint h.atWord (by rw [length_word]; omega)
  · rw [hs.buf]
    exact hs.at_of_disjoint h.atBody (by omega)
  · rw [hs.buflen]
    exact h.fits

/-- The length of the open attribute is changed. -/
theorem Open.blobSetRawLen_spec (h : b.Open pre t len body) {len' : ℕ} (hlen : len < 2 ^ 24)
    (hlen' : len' < 2 ^ 24) :
    ∃ b', b.blobSetRawLen b.head len' = some b' ∧ Stored b b' b.head (Blob.word t len') ∧
      b'.Open pre t len' body := by
  have hhead := h.head
  have hfits := h.fits
  have hword : b.mem.At b.head (Blob.word t len) := by
    rw [hhead]
    exact h.atWord
  have hdiv : (t * 2 ^ 24 + len) / 2 ^ 24 = t := by omega
  obtain ⟨b', hstore, hs⟩ := @store_spec b b.head (Blob.word t len') (by omega)
    (by rw [length_word]; omega)
  refine ⟨b', ?_, hs, ?_, ?_, ?_, ?_, ?_, h.four_dvd_pre, h.four_dvd_body, h.lt⟩
  · rw [blobSetRawLen, idLen_of_word hword h.lt hlen, Nat.mod_eq_of_lt hlen', hdiv]
    exact hstore
  · rw [hs.head, hs.buf, hhead]
  · rw [hs.buf]
    exact hs.at_of_disjoint h.atPre (.inl hhead.ge)
  · rw [hs.buf, ← hhead]
    exact hs.at_self
  · rw [hs.buf]
    exact hs.at_of_disjoint h.atBody (.inr (by rw [length_word, hhead]))
  · rw [hs.buflen]
    exact hfits

theorem offsetToAttr_add (b : BlobBuf) (off : ℕ) :
    b.offsetToAttr (off + blobCookie) = b.buf + off := by
  unfold offsetToAttr
  omega

theorem blobBufGrow_head (b : BlobBuf) (required : ℕ) :
    (b.blobBufGrow realloc required).head =
      (b.blobBufGrow realloc required).buf + (b.head - b.buf) := offsetToAttr_add _ _

/-- The buffer grows, and may move. -/
theorem Open.blobBufGrow (h : b.Open pre t len body) (required : ℕ) :
    (b.blobBufGrow realloc required).Open pre t len body ∧
      b.buflen + required < (b.blobBufGrow realloc required).buflen := by
  have hfits := h.fits
  have hhead := h.head
  obtain ⟨base, hbase⟩ : ∃ base, base = (b.blobBufGrow realloc required).buf := ⟨_, rfl⟩
  have hmem : (b.blobBufGrow realloc required).mem =
      (b.mem.write base (b.mem.slice b.buf b.buflen)).write (base + b.buflen)
        (List.replicate ((required / 256 + 1) * 256) 0) := by
    rw [hbase]
    rfl
  -- the bytes up to the old length are those of the old buffer
  have hcopy : ∀ {a : ℕ} {bs : List UInt8}, b.mem.At (b.buf + a) bs → a + bs.length ≤ b.buflen →
      (b.blobBufGrow realloc required).mem.At (base + a) bs := by
    intro a bs hat hle
    refine hat.copy fun i hi ↦ ?_
    rw [hmem, Mem.write_of_lt (by omega), Mem.write_slice_apply, if_pos (by omega)]
    congr 1
    omega
  refine ⟨⟨?_, ?_, ?_, ?_, ?_, h.four_dvd_pre, h.four_dvd_body, h.lt⟩, ?_⟩
  · rw [blobBufGrow_head, hhead, Nat.add_sub_cancel_left]
  · rw [← hbase]
    have := hcopy (a := 0) (by simpa using h.atPre) (by omega)
    simpa using this
  · rw [← hbase]
    exact hcopy h.atWord (by rw [length_word]; omega)
  · rw [← hbase, Nat.add_assoc]
    refine hcopy ?_ (by omega)
    rw [← Nat.add_assoc]
    exact h.atBody
  · change pre.length + 4 + body.length ≤ b.buflen + (required / 256 + 1) * 256
    omega
  · change b.buflen + required < b.buflen + (required / 256 + 1) * 256
    omega

theorem Open.blobRoom_spec (h : b.Open pre t len body) (payload : ℕ) :
    ∃ b', b.blobRoom realloc (b.stop pre body) payload = (b', b'.stop pre body) ∧
      b'.Open pre t len body ∧
      pre.length + 4 + body.length + (payload + 4 + 3) / 4 * 4 ≤ b'.buflen := by
  have hoff : b.attrToOffset (b.stop pre body) = pre.length + 4 + body.length + blobCookie := by
    unfold attrToOffset stop
    omega
  have hpre := h.four_dvd_pre
  have hbody := h.four_dvd_body
  unfold blobRoom
  rw [hoff]
  dsimp only
  rw [Nat.add_sub_cancel]
  split
  next hreq =>
    obtain ⟨hgrow, hlt⟩ := h.blobBufGrow realloc
      (((pre.length + 4 + body.length + 4 + payload : ℕ) : ℤ) - b.buflen).toNat
    have haligned := (b.blobBufGrow realloc
      (((pre.length + 4 + body.length + 4 + payload : ℕ) : ℤ) - b.buflen).toNat).aligned
    refine ⟨_, ?_, hgrow, by omega⟩
    rw [offsetToAttr_add, stop]
    simp only [Nat.add_assoc]
  next hreq =>
    have haligned := b.aligned
    exact ⟨b, rfl, h, by omega⟩

/-- A place for an attribute behind the open one: its header is written and its padding cleared. -/
theorem Open.blobAdd_spec (h : b.Open pre t len body) {id payload : ℕ} (hid : id < 2 ^ 7)
    (hpay : payload + 4 < 2 ^ 24) :
    ∃ b', b.blobAdd realloc (b.stop pre body) id payload = some (b', b'.stop pre body) ∧
      b'.Open pre t len body ∧
      pre.length + 4 + body.length + (payload + 4 + 3) / 4 * 4 ≤ b'.buflen ∧
      b'.mem.At (b'.stop pre body) (Blob.word id (payload + 4)) ∧
      b'.mem.At (b'.stop pre body + 4 + payload) (padding (payload + 4)) := by
  obtain ⟨b₁, hroom, hopen₁, hfits⟩ := h.blobRoom_spec realloc payload
  have hstop : b₁.stop pre body = b₁.buf + pre.length + 4 + body.length := rfl
  -- the header
  obtain ⟨b₂, hinit, hs₂⟩ := @store_spec b₁ (b₁.stop pre body) (Blob.word id (payload + 4))
    (by omega) (by rw [length_word]; omega)
  obtain ⟨hopen₂, hstop₂⟩ := hopen₁.stored hs₂ le_rfl
  have hraw := blobRawLen_of_word hs₂.at_self (by omega) hpay
  have hpad := blobPadLen_of_word hs₂.at_self (by omega) hpay
  have hinit' : b₁.blobInit (b₁.stop pre body) id (payload + 4) = some b₂ := by
    rw [blobInit, Nat.mod_eq_of_lt hid, Nat.mod_eq_of_lt hpay]
    exact hinit
  -- the padding
  obtain ⟨b₃, hfill, hs₃⟩ : ∃ b₃, b₂.blobFillPad (b₁.stop pre body) = some b₃ ∧
      Stored b₂ b₃ (b₁.stop pre body + 4 + payload) (padding (payload + 4)) := by
    unfold blobFillPad
    rw [hraw, hpad]
    dsimp only
    split
    next hdelta =>
      obtain ⟨b₃, hfill, hs₃⟩ := @store_spec b₂ (b₁.stop pre body + 4 + payload)
        (padding (payload + 4)) (by rw [hs₂.buf]; omega)
        (by rw [length_padding, hs₂.buf, hs₂.buflen]; omega)
      have haddr : b₁.stop pre body + (payload + 4 + 3) / 4 * 4 -
          ((payload + 4 + 3) / 4 * 4 - (payload + 4)) = b₁.stop pre body + 4 + payload := by omega
      refine ⟨b₃, ?_, hs₃⟩
      rw [haddr]
      exact hfill
    next hdelta =>
      have hnil : padding (payload + 4) = [] := by
        rw [← List.length_eq_zero_iff, length_padding]
        omega
      refine ⟨b₂, rfl, rfl, rfl, rfl, ?_⟩
      rw [hnil, Mem.write_nil]
  obtain ⟨hopen₃, hstop₃⟩ := hopen₂.stored hs₃ (by rw [hstop₂]; omega)
  refine ⟨b₃, ?_, hopen₃, ?_, ?_, ?_⟩
  · rw [blobAdd, hroom]
    simp only [Option.bind_eq_bind]
    rw [hinit', Option.bind_some, hfill, Option.bind_some, hstop₃, hstop₂]
  · rw [hs₃.buflen, hs₂.buflen]
    exact hfits
  · rw [hstop₃, hstop₂]
    exact hs₃.at_of_disjoint hs₂.at_self (by rw [length_word]; omega)
  · rw [hstop₃, hstop₂]
    exact hs₃.at_self

/-- `blob_buf_init` opens an attribute at the start of the buffer. -/
theorem blobBufInit_spec (b : BlobBuf) (id : ℕ) :
    ∃ b', b.blobBufInit realloc id = some b' ∧ b'.Open [] (id % 2 ^ 7) 4 [] := by
  obtain ⟨b₁, hroom, hhead, hfits⟩ : ∃ b₁ : BlobBuf,
      { b with head := b.buf }.blobRoom realloc b.buf 0 = (b₁, b₁.buf) ∧ b₁.head = b₁.buf ∧
        4 ≤ b₁.buflen := by
    have hoff : { b with head := b.buf }.attrToOffset b.buf = 0 + blobCookie := by
      simp [attrToOffset]
    unfold blobRoom
    rw [hoff]
    dsimp only
    rw [Nat.add_sub_cancel]
    split
    next hreq =>
      rw [offsetToAttr_add, Nat.add_zero]
      refine ⟨_, rfl, ?_, ?_⟩
      · rw [blobBufGrow_head, Nat.sub_self, Nat.add_zero]
      · simp only [blobBufGrow, blobBufferGrow]
        omega
    next hreq => exact ⟨{ b with head := b.buf }, rfl, rfl, by simp at hreq ⊢; omega⟩
  obtain ⟨b₂, hinit, hs⟩ := @store_spec b₁ b₁.buf (Blob.word (id % 2 ^ 7) 4) le_rfl
    (by rw [length_word]; omega)
  have hraw := blobRawLen_of_word hs.at_self (by omega) (by decide)
  have hpad := blobPadLen_of_word hs.at_self (by omega) (by decide)
  refine ⟨b₂, ?_, ?_, by simp, ?_, by simp, ?_, by simp, by simp, by omega⟩
  · have hinit' : b₁.blobInit b₁.buf id (0 + 4) = some b₂ := hinit
    have hfill : b₂.blobFillPad b₁.buf = some b₂ := by
      rw [blobFillPad, hraw, hpad]
      rfl
    rw [blobBufInit, blobAdd, hroom]
    simp only [Option.bind_eq_bind]
    rw [hinit', Option.bind_some, hfill, Option.bind_some, Option.bind_some]
  · rw [hs.head, hs.buf, hhead]
    rfl
  · rw [hs.buf]
    exact hs.at_self
  · rw [hs.buflen]
    simpa using hfits

/-- `blob_new` on an attribute whose length is right. -/
theorem Open.blobNew_spec (h : b.Open pre t (4 + body.length) body) {id payload : ℕ}
    (hid : id < 2 ^ 7) (hlt : 4 + body.length + (payload + 4 + 3) / 4 * 4 < 2 ^ 24) :
    ∃ b', b.blobNew realloc id payload = some (b', b'.stop pre body) ∧
      b'.Open pre t (4 + body.length + (payload + 4 + 3) / 4 * 4) body ∧
      pre.length + 4 + body.length + (payload + 4 + 3) / 4 * 4 ≤ b'.buflen ∧
      b'.mem.At (b'.stop pre body) (Blob.word id (payload + 4)) ∧
      b'.mem.At (b'.stop pre body + 4 + payload) (padding (payload + 4)) := by
  have hbody := h.four_dvd_body
  have hnext : blobNext b.mem b.head = b.stop pre body := by
    have hpad := blobPadLen_of_word h.atWord h.lt (by omega)
    rw [blobNext, h.head, hpad, stop]
    omega
  obtain ⟨b₁, hadd, hopen, hfits, hword, hpadding⟩ :=
    h.blobAdd_spec realloc hid (show payload + 4 < 2 ^ 24 by omega)
  have hpad₁ : blobPadLen b₁.mem b₁.head = 4 + body.length := by
    rw [hopen.head, blobPadLen_of_word hopen.atWord hopen.lt (by omega)]
    omega
  have hpad₂ := blobPadLen_of_word hword (by omega) (by omega)
  obtain ⟨b₂, hset, hs, hopen₂⟩ := hopen.blobSetRawLen_spec (by omega) hlt
  have hstop : b₂.stop pre body = b₁.stop pre body := by rw [stop, hs.buf, stop]
  have hdis : b₁.head + (Blob.word t (4 + body.length + (payload + 4 + 3) / 4 * 4)).length ≤
      b₁.stop pre body := by
    rw [length_word, hopen.head, stop]
    omega
  refine ⟨b₂, ?_, hopen₂, by rw [hs.buflen]; exact hfits, ?_, ?_⟩
  · rw [blobNew, hnext]
    simp only [Option.bind_eq_bind]
    rw [hadd, Option.bind_some]
    dsimp only
    rw [hpad₁, hpad₂, hset, Option.bind_some, hstop]
  · rw [hstop]
    exact hs.at_of_disjoint hword (.inr hdis)
  · rw [hstop]
    exact hs.at_of_disjoint hpadding (.inr (by omega))

/-- `blobmsg_new` on an attribute whose length is right: only the data are missing. -/
theorem Open.blobmsgNew_spec (h : b.Open pre t (4 + body.length) body) {type payload : ℕ}
    {name : List UInt8} (htype : type < 2 ^ 7) (hname : name.length < 2 ^ 16)
    (hlt : 4 + body.length + ((nameBytes name).length + payload + 4 + 3) / 4 * 4 < 2 ^ 24) :
    ∃ b', b.blobmsgNew realloc type name payload =
        some (b', b'.stop pre body, b'.stop pre body + 4 + (nameBytes name).length) ∧
      b'.Open pre t (4 + body.length + ((nameBytes name).length + payload + 4 + 3) / 4 * 4) body ∧
      pre.length + 4 + body.length + ((nameBytes name).length + payload + 4 + 3) / 4 * 4 ≤
      b'.buflen ∧
      b'.mem.At (b'.stop pre body)
      (Blob.word (128 + type) ((nameBytes name).length + payload + 4)) ∧
      b'.mem.At (b'.stop pre body + 4) (nameBytes name) ∧
      b'.mem.At (b'.stop pre body + 4 + ((nameBytes name).length + payload))
        (padding ((nameBytes name).length + payload + 4)) := by
  have hhdr := length_nameBytes name
  have hpos : 2 + name.length + 1 ≤ (nameBytes name).length := by
    rw [hhdr, blobmsgHdrlen]
    omega
  obtain ⟨b₀, hnew, hopen₀, hfits, hword₀, hpad₀⟩ := h.blobNew_spec realloc htype hlt
  have hstop : b₀.stop pre body = b₀.buf + pre.length + 4 + body.length := rfl
  obtain ⟨attr, hattr⟩ : ∃ attr, attr = b₀.stop pre body := ⟨_, rfl⟩
  rw [← hattr] at hnew hword₀ hpad₀ hstop
  have hid := idLen_of_word hword₀ (by omega) (by omega)
  -- the extended bit
  obtain ⟨b₁, hstore₁, hs₁⟩ := @store_spec b₀ attr
    (Blob.word (128 + type) ((nameBytes name).length + payload + 4)) (by omega)
    (by rw [length_word]; omega)
  -- the length of the name, the name and the padding behind it
  obtain ⟨b₂, hstore₂, hs₂⟩ := @store_spec b₁ (attr + 4) (beBytes 2 name.length)
    (by rw [hs₁.buf]; omega) (by rw [length_beBytes, hs₁.buf, hs₁.buflen]; omega)
  obtain ⟨b₃, hstore₃, hs₃⟩ := @store_spec b₂ (attr + 4 + 2) (name ++ [0])
    (by rw [hs₂.buf, hs₁.buf]; omega)
    (by rw [List.length_append, List.length_singleton, hs₂.buf, hs₂.buflen, hs₁.buf,
      hs₁.buflen]; omega)
  obtain ⟨b₄, hstore₄, hs₄⟩ := @store_spec b₃ (attr + 4 + 2 + name.length)
    (List.replicate ((nameBytes name).length - (2 + name.length)) 0)
    (by rw [hs₃.buf, hs₂.buf, hs₁.buf]; omega)
    (by rw [List.length_replicate, hs₃.buf, hs₃.buflen, hs₂.buf, hs₂.buflen, hs₁.buf,
      hs₁.buflen]; omega)
  obtain ⟨hopen₁, hstop₁⟩ := hopen₀.stored hs₁ hattr.ge
  obtain ⟨hopen₂, hstop₂⟩ := hopen₁.stored hs₂ (by omega)
  obtain ⟨hopen₃, hstop₃⟩ := hopen₂.stored hs₃ (by omega)
  obtain ⟨hopen₄, hstop₄⟩ := hopen₃.stored hs₄ (by omega)
  have hstop' : b₄.stop pre body = attr := by omega
  have hword₂ := hs₂.at_of_disjoint hs₁.at_self (by rw [length_word]; omega)
  have hword₃ := hs₃.at_of_disjoint hword₂ (by rw [length_word]; omega)
  have hword₄ := hs₄.at_of_disjoint hword₃ (by rw [length_word]; omega)
  have hlen₃ := hs₃.at_of_disjoint hs₂.at_self (by rw [length_beBytes]; omega)
  have hlen₄ := hs₄.at_of_disjoint hlen₃ (by rw [length_beBytes]; omega)
  have hname₄ := hs₄.at_of_disjoint (Mem.at_append.1 hs₃.at_self).1 (by omega)
  have hdata := blobmsgData_of_word hword₃ htype (by omega) hlen₃ hname
  refine ⟨b₄, ?_, hopen₄, ?_, ?_, ?_, ?_⟩
  · have hext : beBytes 4 (idLen b₀.mem attr % 2 ^ 31 + 2 ^ 31) =
        Blob.word (128 + type) ((nameBytes name).length + payload + 4) := by
      rw [hid, Blob.word]
      congr 1
      omega
    have hcount : attr + 4 + (nameBytes name).length - (attr + 4 + 2 + name.length) =
        (nameBytes name).length - (2 + name.length) := by omega
    rw [blobmsgNew, ← hhdr]
    simp only [Option.bind_eq_bind]
    rw [hnew, Option.bind_some]
    dsimp only [blobData]
    rw [hext, hstore₁, Option.bind_some, hstore₂, Option.bind_some, hstore₃,
      Option.bind_some, hdata, hcount, hstore₄, Option.bind_some, hstop']
  · rw [hs₄.buflen, hs₃.buflen, hs₂.buflen, hs₁.buflen]
    exact hfits
  · rw [hstop']
    exact hword₄
  · rw [hstop', nameBytes, ← hhdr, Mem.at_append, Mem.at_append, length_beBytes, List.length_append,
      length_beBytes]
    refine ⟨⟨hlen₄, hname₄⟩, ?_⟩
    rw [← Nat.add_assoc]
    exact hs₄.at_self
  · rw [hstop']
    have hpad₁ := hs₁.at_of_disjoint hpad₀ (by rw [length_word]; omega)
    have hpad₂ := hs₂.at_of_disjoint hpad₁ (by rw [length_beBytes]; omega)
    have hpad₃ := hs₃.at_of_disjoint hpad₂ (.inr (by
      rw [List.length_append, List.length_singleton]; omega))
    exact hs₄.at_of_disjoint hpad₃ (.inr (by rw [List.length_replicate]; omega))

/-- The open attribute ends behind bytes that follow its payload. -/
theorem Open.extend (h : b.Open pre t len body) {bs : List UInt8}
    (hbs : b.mem.At (b.stop pre body) bs)
    (hfits : pre.length + 4 + body.length + bs.length ≤ b.buflen) (hdvd : 4 ∣ bs.length) :
    b.Open pre t len (body ++ bs) := by
  refine ⟨h.head, h.atPre, h.atWord, Mem.at_append.2 ⟨h.atBody, hbs⟩, ?_, h.four_dvd_pre, ?_, h.lt⟩
  · rw [List.length_append]
    omega
  · rw [List.length_append]
    exact Nat.dvd_add h.four_dvd_body hdvd

theorem padding_add_of_dvd {k : ℕ} (hk : 4 ∣ k) (n : ℕ) : padding (k + n) = padding n := by
  have : (k + n + 3) / 4 * 4 - (k + n) = (n + 3) / 4 * 4 - n := by omega
  rw [padding, this, padding]

/-- `blobmsg_add_field` puts an attribute at the end of the open one. -/
theorem Open.blobmsgAddField_spec (h : b.Open pre t (4 + body.length) body) {type : ℕ}
    {name data bs : List UInt8} (htype : type < 2 ^ 7) (hname : name.length < 2 ^ 16)
    (hbs : bs = attrBytes type name data ++ padding data.length)
    (hlt : 4 + body.length + bs.length < 2 ^ 24) :
    ∃ b', b.blobmsgAddField realloc type name data = some b' ∧
      b'.Open pre t (4 + (body ++ bs).length) (body ++ bs) := by
  have hhdr := four_dvd_length_nameBytes name
  have hlen : bs.length = ((nameBytes name).length + data.length + 4 + 3) / 4 * 4 := by
    rw [hbs, List.length_append, length_attrBytes, length_padding]
    omega
  rw [hlen] at hlt
  obtain ⟨b₁, hnew, hopen, hfits, hword, hnm, hpad⟩ := h.blobmsgNew_spec realloc htype hname hlt
  have hstop : b₁.stop pre body = b₁.buf + pre.length + 4 + body.length := rfl
  obtain ⟨b₂, hstore, hs⟩ := @store_spec b₁ (b₁.stop pre body + 4 + (nameBytes name).length) data
    (by omega) (by omega)
  obtain ⟨hopen₂, hstop₂⟩ := hopen.stored hs (by omega)
  have hat : b₂.mem.At (b₂.stop pre body) bs := by
    rw [hbs, hstop₂, Mem.at_append, length_attrBytes, attrBytes, Mem.at_append, Mem.at_append,
      List.length_append, length_word]
    refine ⟨⟨⟨?_, ?_⟩, ?_⟩, ?_⟩
    · rw [show 4 + (nameBytes name).length + data.length = (nameBytes name).length + data.length + 4
        by omega]
      exact hs.at_of_disjoint hword (by rw [length_word]; omega)
    · exact hs.at_of_disjoint hnm (by omega)
    · rw [← Nat.add_assoc]
      exact hs.at_self
    · have hpad₂ := hs.at_of_disjoint hpad (by omega)
      rw [show (nameBytes name).length + data.length + 4 = 4 + (nameBytes name).length + data.length
        by omega, padding_add_of_dvd (by omega)] at hpad₂
      rw [show b₁.stop pre body + (4 + (nameBytes name).length + data.length) =
        b₁.stop pre body + 4 + ((nameBytes name).length + data.length) by omega]
      exact hpad₂
  refine ⟨b₂, ?_, ?_⟩
  · rw [blobmsgAddField]
    simp only [Option.bind_eq_bind]
    rw [hnew, Option.bind_some]
    exact hstore
  · have := hopen₂.extend hat (by rw [hs.buflen, hlen]; exact hfits) (by rw [hlen]; omega)
    rwa [List.length_append, ← Nat.add_assoc, hlen]

/-- `blobmsg_open_nested` opens an attribute behind the payload of the open one. -/
theorem Open.blobmsgOpenNested_spec (h : b.Open pre t (4 + body.length) body) {name : List UInt8}
    {array : Bool} (hname : name.length < 2 ^ 16)
    (hlt : 4 + body.length + 4 + (nameBytes name).length < 2 ^ 24) :
    ∃ b', b.blobmsgOpenNested realloc name array = some (b', pre.length + blobCookie) ∧
      b'.Open (pre ++ (Blob.word t (4 + body.length + 4) ++ body)) (128 + nestedType array)
        (4 + (nameBytes name).length) (nameBytes name) := by
  have hhdr := four_dvd_length_nameBytes name
  have hhdr' := length_nameBytes name
  have hbody := h.four_dvd_body
  have hpre := h.four_dvd_pre
  have htype : nestedType array < 2 ^ 7 := by cases array <;> decide
  have hround : ((nameBytes name).length + 0 + 4 + 3) / 4 * 4 = 4 + (nameBytes name).length := by
    omega
  obtain ⟨b₁, hnew, hopen, hfits, hword, hnm, -⟩ :=
    @Open.blobmsgNew_spec realloc b pre body t h _ 0 name htype hname (by omega)
  have hstop : b₁.stop pre body = b₁.buf + pre.length + 4 + body.length := rfl
  rw [hround] at hopen hfits
  have hpad : blobPadLen b₁.mem b₁.head = 4 + body.length + (4 + (nameBytes name).length) := by
    rw [hopen.head, blobPadLen_of_word hopen.atWord hopen.lt (by omega)]
    omega
  obtain ⟨b₂, hset, hs, hopen₂⟩ :=
    hopen.blobSetRawLen_spec (by omega) (show 4 + body.length + 4 < 2 ^ 24 by omega)
  have hlen : (pre ++ (Blob.word t (4 + body.length + 4) ++ body)).length =
      pre.length + 4 + body.length := by
    rw [List.length_append, List.length_append, length_word]
    omega
  have hdis : b₁.head + (Blob.word t (4 + body.length + 4)).length ≤ b₁.stop pre body := by
    rw [length_word, hopen.head]
    omega
  have hstop₂ : b₂.buf + (pre.length + 4 + body.length) = b₁.stop pre body := by
    rw [hs.buf]
    omega
  refine ⟨{ b₂ with head := b₁.stop pre body }, ?_, ?_, ?_, ?_, ?_, ?_, ?_, hhdr, by omega⟩
  · have hoff : b.attrToOffset b.head = pre.length + blobCookie := by
      rw [attrToOffset, h.head, Nat.add_sub_cancel_left]
    have hsub : 4 + body.length + (4 + (nameBytes name).length) - blobmsgHdrlen name.length =
        4 + body.length + 4 := by omega
    rw [blobmsgOpenNested]
    simp only [Option.bind_eq_bind]
    rw [hnew, Option.bind_some]
    dsimp only
    rw [hpad, hsub, hset, Option.bind_some, hoff]
  · rw [hlen]
    exact hstop₂.symm
  · rw [Mem.at_append, Mem.at_append, length_word]
    exact ⟨hopen₂.atPre, hopen₂.atWord, hopen₂.atBody⟩
  · rw [hlen]
    dsimp only
    rw [hstop₂, Nat.add_comm 4]
    exact hs.at_of_disjoint hword (.inr hdis)
  · rw [hlen]
    dsimp only
    rw [hstop₂]
    exact hs.at_of_disjoint hnm (.inr (by omega))
  · rw [hlen]
    dsimp only
    rw [hs.buflen]
    omega
  · rw [hlen]
    omega

/-- `blob_nest_end` adds the attribute to the one that was open before. -/
theorem Open.blobNestEnd_spec {t' : ℕ} {body' : List UInt8} (ht : t < 256) (hbody : 4 ∣ body.length)
    (hpre : 4 ∣ pre.length)
    (h : b.Open (pre ++ (Blob.word t (4 + body.length + 4) ++ body)) t' (4 + body'.length) body')
    (hlt : 4 + body.length + 4 + body'.length < 2 ^ 24) :
    ∃ b', b.blobNestEnd (pre.length + blobCookie) = some b' ∧
      b'.Open pre t (4 + (body ++ (Blob.word t' (4 + body'.length) ++ body')).length)
        (body ++ (Blob.word t' (4 + body'.length) ++ body')) := by
  have hpre' := h.atPre
  rw [Mem.at_append, Mem.at_append, length_word] at hpre'
  obtain ⟨hatPre, hatWord, hatBody⟩ := hpre'
  have hlen : (pre ++ (Blob.word t (4 + body.length + 4) ++ body)).length =
      pre.length + 4 + body.length := by
    rw [List.length_append, List.length_append, length_word]
    omega
  have hatWord' := h.atWord
  have hatBody' := h.atBody
  have hfits := h.fits
  have hbody' := h.four_dvd_body
  rw [hlen] at hatWord' hatBody' hfits
  have hbs : (Blob.word t' (4 + body'.length) ++ body').length = 4 + body'.length := by simp
  have hpad := blobPadLen_of_word hatWord ht (by omega)
  have hblen := blobLen_of_word h.atWord h.lt (by omega) (by omega)
  rw [← h.head] at hblen
  obtain ⟨b₂, hstore, hs⟩ := @store_spec b (b.buf + pre.length)
    (Blob.word t (4 + body.length + 4 + body'.length)) (by omega) (by rw [length_word]; omega)
  have hopen : { b₂ with head := b.buf + pre.length }.Open pre t
    (4 + body.length + 4 + body'.length)
      body := by
    refine ⟨?_, ?_, ?_, ?_, ?_, hpre, hbody, ht⟩
    · dsimp only
      rw [hs.buf]
    · dsimp only
      rw [hs.buf]
      exact hs.at_of_disjoint hatPre (by omega)
    · dsimp only
      rw [hs.buf]
      exact hs.at_self
    · dsimp only
      rw [hs.buf]
      exact hs.at_of_disjoint hatBody (.inr (by rw [length_word]))
    · dsimp only
      rw [hs.buflen]
      omega
  refine ⟨{ b₂ with head := b.buf + pre.length }, ?_, ?_⟩
  · have hdiv : (t * 2 ^ 24 + (4 + body.length + 4)) / 2 ^ 24 = t := by omega
    have hsum : (4 + body.length + 4 + 3) / 4 * 4 + (4 + body'.length - 4) =
        4 + body.length + 4 + body'.length := by omega
    rw [blobNestEnd]
    simp only [Option.bind_eq_bind]
    rw [offsetToAttr_add, hpad, hblen, hsum, blobSetRawLen,
      idLen_of_word hatWord ht (by omega), hdiv, Nat.mod_eq_of_lt hlt]
    change (b.store _ (Blob.word t (4 + body.length + 4 + body'.length))).bind _ = _
    rw [hstore, Option.bind_some]
  · have haddr : b.buf + (pre.length + 4 + body.length) = b.buf + pre.length + 4 + body.length := by
      omega
    rw [haddr] at hatWord' hatBody'
    have hat : b₂.mem.At (b₂.buf + pre.length + 4 + body.length)
        (Blob.word t' (4 + body'.length) ++ body') := by
      rw [hs.buf, Mem.at_append, length_word]
      exact ⟨hs.at_of_disjoint hatWord' (.inr (by rw [length_word]; omega)),
        hs.at_of_disjoint hatBody' (.inr (by rw [length_word]; omega))⟩
    have hext := hopen.extend hat (by rw [hbs]; dsimp only; rw [hs.buflen]; omega)
      (by rw [hbs]; omega)
    rwa [List.length_append, hbs, show 4 + (body.length + (4 + body'.length)) =
      4 + body.length + 4 + body'.length by omega]

/-! ## All fields -/

theorem type_lt (v : Value) : v.type < 2 ^ 7 := by cases v <;> simp [Value.type]

/-- The calls append the encoding of the fields to the open attribute. -/
theorem Open.addFields_spec (fs : Fields) (hfs : fs.Ok) (h : b.Open pre t (4 + body.length) body)
    (hlt : 4 + body.length + (encode fs).length < 2 ^ 24) :
    ∃ b', b.addFields realloc fs = some b' ∧
      b'.Open pre t (4 + (body ++ encode fs).length) (body ++ encode fs) := by
  induction fs generalizing b pre t body with
  | nil => exact ⟨b, rfl, by simpa [encode] using h⟩
  | value name v rest ih =>
      obtain ⟨hname, -, hrest⟩ := hfs
      rw [encode, List.length_append] at hlt
      obtain ⟨bs, hbs⟩ : ∃ bs, bs = attrBytes v.type name v.data ++ padding v.data.length :=
        ⟨_, rfl⟩
      rw [← hbs] at hlt
      obtain ⟨b₁, hadd, hopen⟩ :=
        h.blobmsgAddField_spec realloc (type_lt v) hname.1 hbs (by omega)
      obtain ⟨b₂, hrec, hopen'⟩ := ih hrest hopen (by rw [List.length_append]; omega)
      refine ⟨b₂, ?_, ?_⟩
      · rw [addFields]
        simp only [Option.bind_eq_bind]
        rw [hadd, Option.bind_some, hrec]
      · rw [encode, ← hbs, ← List.append_assoc]
        exact hopen'
  | nested name array children rest ihc ihr =>
      obtain ⟨hname, hchildren, hrest⟩ := hfs
      rw [encode, List.length_append, length_attrBytes] at hlt
      obtain ⟨b₁, hnew, hopen₁⟩ :=
        @Open.blobmsgOpenNested_spec realloc b pre body t h name array hname.1 (by omega)
      obtain ⟨b₂, hrec, hopen₂⟩ := ihc hchildren hopen₁ (by omega)
      obtain ⟨b₃, hend, hopen₃⟩ := hopen₂.blobNestEnd_spec h.lt h.four_dvd_body h.four_dvd_pre
        (by rw [List.length_append]; omega)
      have hbytes : Blob.word (128 + nestedType array)
        (4 + (nameBytes name ++ encode children).length) ++
          (nameBytes name ++ encode children) =
          attrBytes (nestedType array) name (encode children) := by
        rw [attrBytes, List.append_assoc, List.length_append, Nat.add_assoc]
      rw [hbytes] at hopen₃
      obtain ⟨b₄, hrec', hopen₄⟩ := ihr hrest hopen₃
        (by rw [List.length_append, length_attrBytes]; omega)
      refine ⟨b₄, ?_, ?_⟩
      · rw [addFields]
        simp only [Option.bind_eq_bind]
        rw [hnew, Option.bind_some]
        dsimp only
        rw [hrec, Option.bind_some, hend, Option.bind_some, hrec']
      · rw [encode, ← List.append_assoc]
        exact hopen₄

end BlobBuf

end MiniPi.Blob
