import MiniPi.Blob.Basic
import Mathlib.Data.Int.Notation

/-!
# Building blobs

A blob is built at the end of a buffer that grows when it is full.  The attribute that is open is
`head`; a new attribute is put behind it and its length is added to the length of `head`.
-/

namespace MiniPi.Blob

open Lib

/-- `BLOB_COOKIE`. -/
def blobCookie : ℕ := 0x01234567

/-- `struct blob_buf`, with the memory that its pointers point to.  `blob_buffer_grow` is the only
function that sets `buflen`. -/
structure BlobBuf where
  mem : Mem
  buf : ℕ
  buflen : ℕ
  head : ℕ
  aligned : buflen % 256 = 0

namespace BlobBuf

/-- Bytes are copied into the buffer; `none` if they do not fit. -/
def store (b : BlobBuf) (a : ℕ) (bs : List UInt8) : Option BlobBuf :=
  if b.buf ≤ a ∧ a + bs.length ≤ b.buf + b.buflen then some { b with mem := b.mem.write a bs }
  else none

/-- `offset_to_attr`. -/
def offsetToAttr (b : BlobBuf) (offset : ℕ) : ℕ := b.buf + offset - blobCookie

/-- `attr_to_offset`. -/
def attrToOffset (b : BlobBuf) (attr : ℕ) : ℕ := attr - b.buf + blobCookie

/-- `blob_buffer_grow`; `realloc` gives the address for a length. -/
def blobBufferGrow (realloc : ℕ → ℕ) (b : BlobBuf) (minlen : ℕ) : BlobBuf :=
  let delta := (minlen / 256 + 1) * 256
  let buf := realloc (b.buflen + delta)
  { b with
    mem := (b.mem.write buf (b.mem.slice b.buf b.buflen)).write (buf + b.buflen)
      (List.replicate delta 0)
    buf
    buflen := b.buflen + delta
    aligned := by
      have := b.aligned
      omega }

/-- `blob_buf_grow`. -/
def blobBufGrow (realloc : ℕ → ℕ) (b : BlobBuf) (required : ℕ) : BlobBuf :=
  let offsetHead := b.attrToOffset b.head
  let b := b.blobBufferGrow realloc required
  { b with head := b.offsetToAttr offsetHead }

/-- `blob_init`. -/
def blobInit (b : BlobBuf) (attr id len : ℕ) : Option BlobBuf :=
  b.store attr (beBytes 4 (id % 2 ^ 7 * 2 ^ 24 + len % 2 ^ 24))

/-- `blob_fill_pad`. -/
def blobFillPad (b : BlobBuf) (attr : ℕ) : Option BlobBuf :=
  let len := blobPadLen b.mem attr
  let delta := len - blobRawLen b.mem attr
  if 0 < delta then b.store (attr + len - delta) (List.replicate delta 0) else some b

/-- `blob_set_raw_len`. -/
def blobSetRawLen (b : BlobBuf) (attr len : ℕ) : Option BlobBuf :=
  b.store attr (beBytes 4 (idLen b.mem attr / 2 ^ 24 * 2 ^ 24 + len % 2 ^ 24))

/-- The part of `blob_add` that makes room for an attribute at `pos`, and where it is then. -/
def blobRoom (realloc : ℕ → ℕ) (b : BlobBuf) (pos payload : ℕ) : BlobBuf × ℕ :=
  let offset := b.attrToOffset pos
  let required : ℤ := (offset - blobCookie + 4 + payload : ℕ) - b.buflen
  if 0 < required then
    let b := b.blobBufGrow realloc required.toNat
    (b, b.offsetToAttr offset)
  else (b, pos)

/-- `blob_add`. -/
def blobAdd (realloc : ℕ → ℕ) (b : BlobBuf) (pos id payload : ℕ) : Option (BlobBuf × ℕ) := do
  let (b, attr) := b.blobRoom realloc pos payload
  let b ← b.blobInit attr id (payload + 4)
  let b ← b.blobFillPad attr
  some (b, attr)

/-- `blob_buf_init`. -/
def blobBufInit (realloc : ℕ → ℕ) (b : BlobBuf) (id : ℕ) : Option BlobBuf := do
  let (b, _) ← blobAdd realloc { b with head := b.buf } b.buf id 0
  some b

/-- `blob_new`. -/
def blobNew (realloc : ℕ → ℕ) (b : BlobBuf) (id payload : ℕ) : Option (BlobBuf × ℕ) := do
  let (b, attr) ← blobAdd realloc b (blobNext b.mem b.head) id payload
  let b ← b.blobSetRawLen b.head (blobPadLen b.mem b.head + blobPadLen b.mem attr)
  some (b, attr)

/-- `blob_nest_end`. -/
def blobNestEnd (b : BlobBuf) (cookie : ℕ) : Option BlobBuf := do
  let attr := b.offsetToAttr cookie
  let b ← b.blobSetRawLen attr (blobPadLen b.mem attr + blobLen b.mem b.head)
  some { b with head := attr }

end BlobBuf

end MiniPi.Blob
