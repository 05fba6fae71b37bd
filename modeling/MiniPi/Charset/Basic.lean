import Mathlib

/-!
# Conversions between UTF-8 and UTF-16

The coders of `lib/charset.c`.  A string is the list of its units without the terminator, and a
pointer into a string is what is left of it.  A result of -1 is `none`.
-/

namespace MiniPi.Charset

/-- A UTF-8 string. -/
abbrev Str8 := List UInt8

/-- A UTF-16 string. -/
abbrev Str16 := List UInt16

/-! ## UTF-8 -/

/-- `read_string`. -/
def readString : Str8 → ℕ × Str8
  | [] => (0, [])
  | c :: src => if c = 0 then (0, c :: src) else (c.toNat, src)

/-- The test of a continuation byte fails. -/
def badTail (ch : ℕ) : Bool := decide (ch < 0x80 ∨ 0xbf < ch)

/-- The last two bytes of a sequence in `get_code`, for the bits `ch` that are at hand. -/
def getCodeTail (code ch : ℕ) (src : Str8) : ℕ × Str8 :=
  let code := code + (ch &&& 0x3f) <<< 6
  let (ch, src) := readString src
  if badTail ch then ('?'.toNat, src) else ((ch &&& 0x3f) + code, src)

/-- The last three bytes of a sequence in `get_code`. -/
def getCodeMiddle (code ch : ℕ) (src : Str8) : ℕ × Str8 :=
  let code := code + ch <<< 12
  if (0xD800 ≤ code ∧ code ≤ 0xDFFF) ∨ 0x110000 ≤ code then ('?'.toNat, src)
  else
    let (ch, src) := readString src
    if badTail ch then ('?'.toNat, src) else getCodeTail code ch src

/-- `get_code`, for the stream of `read_string`. -/
def getCode (src : Str8) : ℕ × Str8 :=
  let (ch, src) := readString src
  if ch = 0 then (0, src)
  else if 0xc2 ≤ ch ∧ ch ≤ 0xf4 then
    if 0xe0 ≤ ch then
      if 0xf0 ≤ ch then
        let code := (ch &&& 0x07) <<< 18
        let (ch, src) := readString src
        if badTail ch then ('?'.toNat, src) else getCodeMiddle code (ch &&& 0x3f) src
      else getCodeMiddle 0 (ch &&& 0x0f) src
    else getCodeTail 0 ch src
  else if 0x80 ≤ ch then ('?'.toNat, src)
  else (ch, src)

/-- `utf8_get`. -/
def utf8Get (src : Str8) : Option ℕ × Str8 :=
  let (code, src) := getCode src
  (some code, src)

/-- The code points that `utf8_put` and `utf16_put` refuse. -/
def refused (code : ℕ) : Bool := decide ((0xD800 ≤ code ∧ code ≤ 0xDFFF) ∨ 0x110000 ≤ code)

/-- `utf8_put`: the bytes that are stored. -/
def utf8Put (code : ℕ) : Option Str8 :=
  if refused code then none
  else if code ≤ 0x007F then some [.ofNat code]
  else
    let last := .ofNat ((code &&& 0x3F) ||| 0x80)
    if code ≤ 0x07FF then some [.ofNat (code >>> 6 ||| 0xC0), last]
    else
      let middle := .ofNat ((code >>> 6 &&& 0x3F) ||| 0x80)
      if code < 0x10000 then some [.ofNat (code >>> 12 ||| 0xE0), middle, last]
      else
        some [.ofNat (code >>> 18 ||| 0xF0), .ofNat ((code >>> 12 &&& 0x3F) ||| 0x80), middle, last]

/-! ## UTF-16 -/

/-- `utf16_get`. -/
def utf16Get : Str16 → Option ℕ × Str16
  | [] => (some 0, [])
  | u :: src =>
    let code := u.toNat
    if code = 0 then (some 0, u :: src)
    else if 0xDC00 ≤ code ∧ code ≤ 0xDFFF then (none, src)
    else if 0xD800 ≤ code ∧ code ≤ 0xDBFF then
      let code2 := (src.headD 0).toNat
      if code2 = 0 then (none, src)
      else
        let code := (code &&& 0x3ff) <<< 10 + 0x10000
        if code2 ≤ 0xDC00 ∨ 0xDFFF ≤ code2 then (none, src.tail)
        else (some (code + (code2 &&& 0x3ff)), src.tail)
    else (some code, src)

/-- `utf16_put`: the units that are stored. -/
def utf16Put (code : ℕ) : Option Str16 :=
  if refused code then none
  else if code < 0x10000 then some [.ofNat code]
  else
    let code := code - 0x10000
    some [.ofNat (code >>> 10 ||| 0xD800), .ofNat ((code &&& 0x3ff) ||| 0xDC00)]

/-! ## Strings -/

/-- `utf8_utf16_strnlen`. -/
def utf8Utf16Strnlen (src : Str8) : ℕ → ℕ
  | 0 => 0
  | count + 1 =>
    if src.headD 0 = 0 then 0
    else
      match utf8Get src with
      | (none, src) => 1 + utf8Utf16Strnlen src count
      | (some code, src) =>
        if code = 0 then 0
        else (if code < 0x10000 then 1 else 2) + utf8Utf16Strnlen src count

/-- `utf8_utf16_strncpy`: the units before the terminator. -/
def utf8Utf16Strncpy (src : Str8) : ℕ → Str16
  | 0 => []
  | count + 1 =>
    if src.headD 0 = 0 then []
    else
      let (code, src) := utf8Get src
      (utf16Put (code.getD '?'.toNat)).getD [] ++ utf8Utf16Strncpy src count

/-- `utf16_utf8_strnlen`. -/
def utf16Utf8Strnlen (src : Str16) : ℕ → ℕ
  | 0 => 0
  | count + 1 =>
    if src.headD 0 = 0 then 0
    else
      match utf16Get src with
      | (none, src) => 1 + utf16Utf8Strnlen src count
      | (some code, src) =>
        if code = 0 then 0
        else
          (if code < 0x80 then 1 else if code < 0x800 then 2 else if code < 0x10000 then 3 else 4) +
            utf16Utf8Strnlen src count

/-- `utf16_utf8_strncpy`: the bytes before the terminator. -/
def utf16Utf8Strncpy (src : Str16) : ℕ → Str8
  | 0 => []
  | count + 1 =>
    if src.headD 0 = 0 then []
    else
      let (code, src) := utf16Get src
      (utf8Put (code.getD '?'.toNat)).getD [] ++ utf16Utf8Strncpy src count

end MiniPi.Charset
