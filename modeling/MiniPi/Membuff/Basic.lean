import Mathlib
import MiniPi.Lib.Mem

/-!
# Circular buffers

The functions of `lib/membuff.c`, for a buffer that is allocated.  A pointer into the buffer is its
distance from `start`, and a copy that leaves the buffer is `none`.  Lengths are `int`s; `char` is
unsigned.
-/

namespace MiniPi

open Lib

/-- `struct membuff`, with the memory that it points to; `size` is `end - start`. -/
structure Membuff where
  mem : Mem
  size : ℕ
  head : ℕ
  tail : ℕ

namespace Membuff

/-- `INT_MAX`. -/
def intMax : ℤ := 2 ^ 31 - 1

/-- `memcpy` of `lib/string.c`: the bytes are copied in ascending order. -/
def memcpy (m : Mem) (dst src : ℕ) : ℕ → Mem
  | 0 => m
  | n + 1 => memcpy (m.write dst [m src]) (dst + 1) (src + 1) n

/-- `memmove`. -/
def memmove (m : Mem) (dst src n : ℕ) : Mem := m.write dst (m.slice src n)

/-- Bytes are copied into the buffer. -/
def store (mb : Membuff) (data : ℕ) (bs : List UInt8) : Option Membuff :=
  if data + bs.length ≤ mb.size then some { mb with mem := mb.mem.write data bs } else none

/-- Bytes are copied out of the buffer. -/
def load (mb : Membuff) (data n : ℕ) : Option (List UInt8) :=
  if data + n ≤ mb.size then some (mb.mem.slice data n) else none

/-- `membuff_purge`. -/
def purge (mb : Membuff) : Membuff := { mb with head := 0, tail := 0 }

/-- `membuff_init`. -/
def init (mem : Mem) (size : ℕ) : Membuff := ⟨mem, size, 0, 0⟩

/-- A length is cut down to `maxlen`, unless that is negative. -/
def clip (len maxlen : ℤ) : ℤ := if 0 ≤ maxlen ∧ maxlen < len then maxlen else len

/-- `membuff_putraw`, with the pointer it hands out. -/
def putraw (mb : Membuff) (maxlen : ℤ) (update : Bool) : ℤ × ℕ × Membuff :=
  if mb.tail ≤ mb.head then
    let len := clip (mb.size - mb.head - 1) maxlen
    let head := if update then mb.head + len.toNat else mb.head
    if (maxlen < 0 ∨ len < maxlen) ∧ mb.tail ≠ 0 then
      (len + 1, mb.head, { mb with head := if update then 0 else head })
    else (len, mb.head, { mb with head })
  else
    let len := clip (mb.tail - mb.head - 1) maxlen
    (len, mb.head, { mb with head := if update then mb.head + len.toNat else mb.head })

/-- `membuff_putbyte`. -/
def putbyte (mb : Membuff) (ch : ℤ) : Option (Bool × Membuff) :=
  let (size, data, mb) := mb.putraw 1 true
  if size ≠ 1 then some (false, mb)
  else do
    let mb ← mb.store data [UInt8.ofInt ch]
    some (true, mb)

/-- `membuff_getraw`, with the pointer it hands out if there are bytes. -/
def getraw (mb : Membuff) (maxlen : ℤ) (update : Bool) : ℤ × ℕ × Membuff :=
  if mb.tail < mb.head then
    let len := clip (mb.head - mb.tail) maxlen
    (len, mb.tail, { mb with tail := if update then mb.tail + len.toNat else mb.tail })
  else if mb.head < mb.tail then
    let len := clip (mb.size - mb.tail) maxlen
    let tail := mb.tail + len.toNat
    (len, mb.tail,
      { mb with tail := if update then (if tail = mb.size then 0 else tail) else mb.tail })
  else (0, 0, mb)

/-- `membuff_getbyte`. -/
def getbyte (mb : Membuff) : Option (ℤ × Membuff) :=
  let (len, data, mb') := mb.getraw 1 true
  if len ≠ 1 then some (-1, mb')
  else do
    let bs ← mb.load data 1
    some ((bs.headD 0).toNat, mb')

/-- `membuff_peekbyte`. -/
def peekbyte (mb : Membuff) : Option ℤ :=
  let (len, data, _) := mb.getraw 1 false
  if len ≠ 1 then some (-1)
  else do
    let bs ← mb.load data 1
    some (bs.headD 0).toNat

/-- One turn of the loop in `membuff_get`: the bytes copied, and what is left of `maxlen`. -/
def getTurn (mb : Membuff) (maxlen : ℤ) : Option (List UInt8 × ℤ × Membuff) := do
  let (len, data, mb') := mb.getraw maxlen true
  let bs ← mb.load data len.toNat
  some (bs, maxlen - len, mb')

/-- `membuff_get`: the bytes that are stored, and their number. -/
def get (mb : Membuff) (maxlen : ℤ) : Option (ℤ × List UInt8 × Membuff) := do
  let (bs, rest, mb) ← mb.getTurn maxlen
  if bs = [] then some (0, [], mb)
  else
    let (bs', _, mb) ← mb.getTurn rest
    some ((bs ++ bs').length, bs ++ bs', mb)

/-- One turn of the loop in `membuff_put`: the bytes that are left. -/
def putTurn (mb : Membuff) (bs : List UInt8) : Option (List UInt8 × Membuff) := do
  let (towrite, data, mb) := mb.putraw bs.length true
  let mb ← mb.store data (bs.take towrite.toNat)
  some (bs.drop towrite.toNat, mb)

/-- `membuff_put`. -/
def put (mb : Membuff) (bs : List UInt8) : Option (ℤ × Membuff) := do
  let (rest, mb) ← mb.putTurn bs
  let (rest, mb) ← mb.putTurn rest
  some (bs.length - rest.length, mb)

/-- `membuff_avail`. -/
def avail (mb : Membuff) : ℤ :=
  let (len, _, copy) := mb.getraw (-1) true
  len + (copy.getraw (-1) true).1

/-- `membuff_free`. -/
def free (mb : Membuff) : ℤ := if mb.size = 0 then 0 else mb.size - 1 - mb.avail

/-- `membuff_makecontig`. -/
def makecontig (mb : Membuff) : Bool × Membuff :=
  if mb.head < mb.tail then
    let topsize := mb.size - mb.tail
    let botsize := mb.head
    if mb.tail ≤ mb.head + topsize then (false, mb)
    else
      let mem := memmove mb.mem topsize 0 botsize
      (true, ⟨memcpy mem 0 mb.tail topsize, mb.size, topsize + botsize, 0⟩)
  else
    let topsize := mb.head - mb.tail
    (true, ⟨memcpy mb.mem 0 mb.tail topsize, mb.size, topsize, 0⟩)

/-- A character ends a line. -/
def endsLine (minch : ℤ) (c : UInt8) : Bool := decide (c = 10 ∨ (c.toNat : ℤ) < minch)

/-- The loop of `membuff_readline`, for at most `n` more characters: the characters before the end
of the line, and the pointer behind it. -/
def readlineLoop (mb : Membuff) (minch : ℤ) : ℕ → ℕ → ℕ → List UInt8 → Option (List UInt8 × ℕ)
  | 0, _, _, _ => none
  | n + 1, s, e, str =>
    if s < e then
      let c := mb.mem s
      if endsLine minch c then some (str, s + 1)
      else if s + 1 = e ∧ mb.head < mb.tail then mb.readlineLoop minch n 0 mb.head (str ++ [c])
      else mb.readlineLoop minch n (s + 1) e (str ++ [c])
    else none

/-- `membuff_readline`, with the string that is stored. -/
def readline (mb : Membuff) (maxlen minch : ℤ) : ℤ × List UInt8 × Membuff :=
  let e := if mb.tail ≤ mb.head then mb.head else mb.size
  match mb.readlineLoop minch (maxlen - 1).toNat mb.tail e [] with
  | none => (0, [], mb)
  | some (str, s) => (str.length + 1, str, { mb with tail := if s = mb.size then 0 else s })

/-- The loop of `membuff_extend_by` doubles the size; `none` if it leaves `int`. -/
def doubleSize (target : ℤ) : ℕ → ℤ → Option ℤ
  | 0, _ => none
  | n + 1, size =>
    if size < target then
      if intMax < 2 * size then none else doubleSize target n (2 * size)
    else some size

/-- `-E2BIG`. -/
def e2big : ℤ := -7

/-- `membuff_extend_by`; `fresh` is what `realloc` leaves behind the old bytes. -/
def extendBy (mb : Membuff) (fresh : Mem) (by' max : ℤ) : Option (ℤ × Membuff) := do
  if intMax < mb.size + by' then none
  else
    let size ← doubleSize (mb.size + by') 32 mb.size
    let size := if max ≠ -1 then min size max else size
    let by' := size - mb.size
    if by' ≤ 0 then some (e2big, mb)
    else
      let mem : Mem := fun x ↦ if x < mb.size then mb.mem x else fresh x
      if mb.head < mb.tail then
        some (0, ⟨memmove mem (mb.tail + by'.toNat) mb.tail (mb.size - mb.tail),
          size.toNat, mb.head, mb.tail + by'.toNat⟩)
      else some (0, ⟨mem, size.toNat, mb.head, mb.tail⟩)

end Membuff

end MiniPi
