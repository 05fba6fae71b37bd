import Mathlib.Data.List.Basic
import Mathlib.Data.Int.Notation

/-!
# Streams with buffers

A stream keeps bytes in two lists of buffers, one for reading and one for writing.  A list is
filled at the buffer that `data_tail` points to and is emptied at its head; a buffer that is
empty again is freed, or appended to the list for another use.
-/

namespace MiniPi.Ustream

/-- `struct ustream_buf`: the distances of `end` and of `data` from `head`, and the bytes between
`data` and `tail`. -/
structure Buf where
  size : ℕ
  off : ℕ
  bytes : List UInt8
  pos : 0 < size
  fits : off + bytes.length ≤ size
deriving DecidableEq, Repr

namespace Buf

/-- `ustream_init_buf`, on a buffer with room for `size` bytes. -/
def init (size : ℕ) (h : 0 < size) : Buf := ⟨size, 0, [], h, by simp⟩

/-- `buf->end - buf->tail`. -/
def room (b : Buf) : ℕ := b.size - (b.off + b.bytes.length)

/-- The bytes are moved to the start of the buffer. -/
def move (b : Buf) : Buf := { b with off := 0, fits := by have := b.fits; omega }

/-- The first bytes are copied behind `tail`. -/
def append (b : Buf) (data : List UInt8) : Buf :=
  { b with
    bytes := b.bytes ++ data.take b.room
    fits := by
      have := b.fits
      simp only [List.length_append, List.length_take, room]
      omega }

/-- `buf->data += len`, for a `len` up to the bytes that are there. -/
def advance (b : Buf) (len : ℕ) : Buf :=
  { b with
    off := b.off + min len b.bytes.length
    bytes := b.bytes.drop len
    fits := by
      have := b.fits
      simp only [List.length_drop]
      omega }

end Buf

/-- `struct ustream_buf_list`; `data_tail` is a place in the list. -/
structure BufList where
  bufs : List Buf
  dataTail : Option ℕ
  dataBytes : ℤ
  minBuffers : ℤ
  maxBuffers : ℤ
  bufferLen : ℕ
  /-- The number of buffers. -/
  buffers : ℤ
  len_pos : 0 < bufferLen

namespace BufList

/-- `ustream_add_buf`. -/
def addBuf (l : BufList) (b : Buf) : BufList :=
  { l with
    buffers := l.buffers + 1
    bufs := l.bufs ++ [b]
    dataTail := some (l.dataTail.getD 0) }

/-- `ustream_can_alloc`. -/
def canAlloc (l : BufList) : Bool := decide (l.maxBuffers ≤ 0) || decide (l.buffers < l.maxBuffers)

/-- `ustream_should_move`, for the buffer at place `i`. -/
def shouldMove (l : BufList) (i : ℕ) (b : Buf) (len : ℕ) : Bool :=
  if b.off = 0 then false
  else if b.size / 2 < b.off then true
  else if b.bytes.length < 32 ∧ b.size / 4 < b.off then true
  else if i + 1 ≠ l.bufs.length ∨ l.canAlloc = true then false
  else decide (b.room < len)

/-- `ustream_free_buf`, for the head of the list. -/
def freeHead (l : BufList) : BufList :=
  match l.bufs with
  | [] => l
  | b :: rest =>
    let l' : BufList :=
      { l with
        bufs := rest
        dataTail :=
          match l.dataTail with
          | some (i + 1) => some i
          | some 0 => if rest = [] then none else some 0
          | none => none
        buffers := l.buffers - 1 }
    if l'.minBuffers ≤ l'.buffers then l' else l'.addBuf (Buf.init b.size b.pos)

/-- The end of `ustream_prepare_buf`, with `ustream_alloc_default`. -/
def allocBuf (l : BufList) : Option BufList :=
  if l.canAlloc then
    let l := l.addBuf (Buf.init l.bufferLen l.len_pos)
    some { l with dataTail := some (l.bufs.length - 1) }
  else none

/-- `ustream_prepare_buf`; `none` is `false`. -/
def prepareBuf (l : BufList) (len : ℕ) : Option BufList :=
  match l.dataTail with
  | none => l.allocBuf
  | some i =>
    match l.bufs[i]? with
    | none => l.allocBuf
    | some b =>
      let b := if l.shouldMove i b len then b.move else b
      let l := { l with bufs := l.bufs.set i b }
      if b.room ≠ 0 then some l
      else if i + 1 < l.bufs.length then some { l with dataTail := some (i + 1) }
      else l.allocBuf

/-- The buffer at `data_tail` takes the first bytes that are offered; the result is their number. -/
def append (l : BufList) (data : List UInt8) : BufList × ℕ :=
  match l.dataTail.bind fun i ↦ (l.bufs[i]?).map (i, ·) with
  | none => (l, 0)
  | some (i, b) =>
    let n := min b.room data.length
    ({ l with bufs := l.bufs.set i (b.append data), dataBytes := l.dataBytes + n }, n)

/-! ## Writing -/

/-- The loop of `ustream_write_buffered`, for at most `fuel` turns; the result is the number of
bytes that were taken. -/
def writeBuffered : ℕ → BufList → List UInt8 → ℕ → Option (BufList × ℕ)
  | fuel, l, data, wr =>
    if data = [] then some (l, wr)
    else
      match l.prepareBuf data.length with
      | none => some (l, wr)
      | some l =>
        match fuel with
        | 0 => none
        | fuel + 1 =>
          let (l, n) := l.append data
          writeBuffered fuel l (data.drop n) (wr + n)

/-- A callback that accepts some of the bytes that it is offered; the numbers of the calls and
`more` are arguments. -/
abbrev Callback := ℕ → (data : List UInt8) → Bool → Fin (data.length + 1)

/-- `ustream_write` on a stream without a write error: the list, what the callback accepted, and
the result. -/
def write (cb : Callback) (l : BufList) (data : List UInt8) (more : Bool) :
    Option (BufList × List UInt8 × ℕ) :=
  if l.dataBytes = 0 then
    let wr := (cb 0 data more).val
    if wr = data.length then some (l, data, wr)
    else
      (writeBuffered data.length l (data.drop wr) wr).map fun (l, n) ↦ (l, data.take wr, n)
  else (writeBuffered data.length l data 0).map fun (l, n) ↦ (l, [], n)

/-- The loop of `ustream_write_pending`, from its turn `k` on: the list, and what the callback
accepted. -/
def pendingLoop (cb : Callback) : ℕ → ℕ → BufList → Option (BufList × List UInt8)
  | fuel, k, l =>
    match l.bufs with
    | [] => some (l, [])
    | b :: rest =>
      if l.dataBytes = 0 then some (l, [])
      else
        let len := (cb k b.bytes (rest ≠ [])).val
        if len = 0 then some (l, [])
        else
          let l := { l with dataBytes := l.dataBytes - len }
          if len < b.bytes.length then
            some ({ l with bufs := b.advance len :: rest }, b.bytes.take len)
          else if rest = [] then some (l.freeHead, b.bytes)
          else
            match fuel with
            | 0 => none
            | fuel + 1 => (pendingLoop cb fuel (k + 1) l.freeHead).map fun (l, sent) ↦
                (l, b.bytes ++ sent)

/-- `ustream_write_pending` on a stream without a write error. -/
def writePending (cb : Callback) (l : BufList) : Option (BufList × List UInt8) :=
  pendingLoop cb l.bufs.length 0 l

/-! ## Reading -/

/-- `ustream_reserve`, without the flag that stops further reads: the list, and the room at
`data_tail`. -/
def reserve (l : BufList) (len : ℕ) : BufList × ℕ :=
  match l.prepareBuf len with
  | none => (l, 0)
  | some l => (l, ((l.dataTail.bind (l.bufs[·]?)).map Buf.room).getD 0)

/-- The loop of `ustream_fill_read`, from the buffer at place `i` on; `none` is a call of
`abort`. -/
def fillLoop : ℕ → BufList → ℕ → List UInt8 → Option BufList
  | fuel, l, i, data =>
    match l.bufs[i]? with
    | none => none
    | some b =>
      let l := { l with bufs := l.bufs.set i (b.append data), dataTail := some i }
      if data.length ≤ b.room then some l
      else
        match fuel with
        | 0 => none
        | fuel + 1 => fillLoop fuel l (i + 1) (data.drop b.room)

/-- `ustream_fill_read`, for the number of bytes that were put behind `tail` since
`ustream_reserve`. -/
def fillRead (l : BufList) (data : List UInt8) : Option BufList :=
  match l.dataTail with
  | none => none
  | some i => fillLoop l.bufs.length { l with dataBytes := l.dataBytes + data.length } i data

/-- `ustream_get_read_buf`. -/
def getReadBuf (l : BufList) : List UInt8 := (l.bufs.head?.map Buf.bytes).getD []

/-- The loop of `ustream_consume`: the list, and the bytes that are gone; `none` is an access
through a null pointer. -/
def consumeLoop : ℕ → BufList → ℕ → Option (BufList × List UInt8)
  | fuel, l, len =>
    match l.bufs with
    | [] => none
    | b :: rest =>
      if len < b.bytes.length then some ({ l with bufs := b.advance len :: rest }, b.bytes.take len)
      else if len = b.bytes.length then some (l.freeHead, b.bytes)
      else if rest = [] then none
      else
        match fuel with
        | 0 => none
        | fuel + 1 =>
          (consumeLoop fuel l.freeHead (len - b.bytes.length)).map fun (l, gone) ↦
            (l, b.bytes ++ gone)

/-- `ustream_consume`; `none` is a call of `abort`. -/
def consume (l : BufList) (len : ℕ) : Option (BufList × List UInt8) :=
  if len = 0 then some (l, [])
  else if l.dataBytes - len < 0 then none
  else consumeLoop l.bufs.length { l with dataBytes := l.dataBytes - len } len

end BufList

end MiniPi.Ustream
