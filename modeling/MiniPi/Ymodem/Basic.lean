import MiniPi.Lib.Mem

/-!
# The YMODEM receiver

`common/xyzModem.c`, for a transfer over the console.  One call of `xyzModem_get_hdr` reads the
bytes that arrive until it returns; after the last of them it meets the timeout of
`CYGACC_COMM_IF_GETC_TIMEOUT`.  Flushing throws away the rest of these bytes; a call that returns
without flushing leaves them to the next one, so that a line is what one call uses up, and what is
`unread` of it belongs to the line behind it.  The characters that are sent are collected in `sent`;
the counters that are only printed are left out.  `unsigned long` has 32 bits.
-/

namespace MiniPi.Ymodem

/-! ## CRC -/

/-- `crc16_tab` of `lib/crc16.c`. -/
def crc16Tab : List ℕ := [
  0x0000, 0x1021, 0x2042, 0x3063, 0x4084, 0x50a5, 0x60c6, 0x70e7, 0x8108, 0x9129, 0xa14a, 0xb16b,
  0xc18c, 0xd1ad, 0xe1ce, 0xf1ef, 0x1231, 0x0210, 0x3273, 0x2252, 0x52b5, 0x4294, 0x72f7, 0x62d6,
  0x9339, 0x8318, 0xb37b, 0xa35a, 0xd3bd, 0xc39c, 0xf3ff, 0xe3de, 0x2462, 0x3443, 0x0420, 0x1401,
  0x64e6, 0x74c7, 0x44a4, 0x5485, 0xa56a, 0xb54b, 0x8528, 0x9509, 0xe5ee, 0xf5cf, 0xc5ac, 0xd58d,
  0x3653, 0x2672, 0x1611, 0x0630, 0x76d7, 0x66f6, 0x5695, 0x46b4, 0xb75b, 0xa77a, 0x9719, 0x8738,
  0xf7df, 0xe7fe, 0xd79d, 0xc7bc, 0x48c4, 0x58e5, 0x6886, 0x78a7, 0x0840, 0x1861, 0x2802, 0x3823,
  0xc9cc, 0xd9ed, 0xe98e, 0xf9af, 0x8948, 0x9969, 0xa90a, 0xb92b, 0x5af5, 0x4ad4, 0x7ab7, 0x6a96,
  0x1a71, 0x0a50, 0x3a33, 0x2a12, 0xdbfd, 0xcbdc, 0xfbbf, 0xeb9e, 0x9b79, 0x8b58, 0xbb3b, 0xab1a,
  0x6ca6, 0x7c87, 0x4ce4, 0x5cc5, 0x2c22, 0x3c03, 0x0c60, 0x1c41, 0xedae, 0xfd8f, 0xcdec, 0xddcd,
  0xad2a, 0xbd0b, 0x8d68, 0x9d49, 0x7e97, 0x6eb6, 0x5ed5, 0x4ef4, 0x3e13, 0x2e32, 0x1e51, 0x0e70,
  0xff9f, 0xefbe, 0xdfdd, 0xcffc, 0xbf1b, 0xaf3a, 0x9f59, 0x8f78, 0x9188, 0x81a9, 0xb1ca, 0xa1eb,
  0xd10c, 0xc12d, 0xf14e, 0xe16f, 0x1080, 0x00a1, 0x30c2, 0x20e3, 0x5004, 0x4025, 0x7046, 0x6067,
  0x83b9, 0x9398, 0xa3fb, 0xb3da, 0xc33d, 0xd31c, 0xe37f, 0xf35e, 0x02b1, 0x1290, 0x22f3, 0x32d2,
  0x4235, 0x5214, 0x6277, 0x7256, 0xb5ea, 0xa5cb, 0x95a8, 0x8589, 0xf56e, 0xe54f, 0xd52c, 0xc50d,
  0x34e2, 0x24c3, 0x14a0, 0x0481, 0x7466, 0x6447, 0x5424, 0x4405, 0xa7db, 0xb7fa, 0x8799, 0x97b8,
  0xe75f, 0xf77e, 0xc71d, 0xd73c, 0x26d3, 0x36f2, 0x0691, 0x16b0, 0x6657, 0x7676, 0x4615, 0x5634,
  0xd94c, 0xc96d, 0xf90e, 0xe92f, 0x99c8, 0x89e9, 0xb98a, 0xa9ab, 0x5844, 0x4865, 0x7806, 0x6827,
  0x18c0, 0x08e1, 0x3882, 0x28a3, 0xcb7d, 0xdb5c, 0xeb3f, 0xfb1e, 0x8bf9, 0x9bd8, 0xabbb, 0xbb9a,
  0x4a75, 0x5a54, 0x6a37, 0x7a16, 0x0af1, 0x1ad0, 0x2ab3, 0x3a92, 0xfd2e, 0xed0f, 0xdd6c, 0xcd4d,
  0xbdaa, 0xad8b, 0x9de8, 0x8dc9, 0x7c26, 0x6c07, 0x5c64, 0x4c45, 0x3ca2, 0x2c83, 0x1ce0, 0x0cc1,
  0xef1f, 0xff3e, 0xcf5d, 0xdf7c, 0xaf9b, 0xbfba, 0x8fd9, 0x9ff8, 0x6e17, 0x7e36, 0x4e55, 0x5e74,
  0x2e93, 0x3eb2, 0x0ed1, 0x1ef0]

/-- `crc16_ccitt`. -/
def crc16Ccitt (cksum : ℕ) : List UInt8 → ℕ
  | [] => cksum
  | b :: bs =>
    crc16Ccitt (crc16Tab.getD ((cksum / 256) ^^^ b.toNat) 0 ^^^ (cksum * 256 % 65536)) bs

/-! ## The state -/

def soh : UInt8 := 0x01
def stx : UInt8 := 0x02
def eot : UInt8 := 0x04
def ack : UInt8 := 0x06
def nak : UInt8 := 0x15
def can : UInt8 := 0x18
def eofChar : UInt8 := 0x1A

/-- `xyzModem_timeout`. -/
def timeout : ℤ := -3

/-- `xyzModem_eof`. -/
def eof : ℤ := -4

/-- `xyzModem_cancel`. -/
def cancel : ℤ := -5

/-- `xyzModem_frame`. -/
def frame : ℤ := -6

/-- `xyzModem_cksum`. -/
def cksum : ℤ := -7

/-- `xyzModem_sequence`. -/
def sequence : ℤ := -8

/-- `xyzModem_xmodem`. -/
def xmodem : ℤ := 1

/-- `xyzModem_ymodem`. -/
def ymodem : ℤ := 2

/-- `xyzModem_MAX_RETRIES`. -/
def maxRetries : ℕ := 20

/-- `xyzModem_MAX_RETRIES_WITH_CRC`. -/
def maxRetriesWithCrc : ℤ := 10

/-- The static variable `xyz`; `bufp` is a distance from `pkt`. -/
structure Xyz where
  pkt : List UInt8
  bufp : ℕ
  blk : UInt8
  cblk : UInt8
  crc1 : UInt8
  crc2 : UInt8
  nextBlk : UInt8
  len : ℤ
  mode : ℤ
  crcMode : Bool
  atEof : Bool
  txAck : Bool
  fileLength : ℕ
  readLength : ℕ
  sent : List UInt8

namespace Xyz

/-- `CYGACC_COMM_IF_PUTC`. -/
def putc (xyz : Xyz) (c : UInt8) : Xyz := { xyz with sent := xyz.sent ++ [c] }

/-- The character that asks for a block: `'C'` or `NAK`. -/
def request (xyz : Xyz) : UInt8 := if xyz.crcMode then 67 else nak

/-! ## Headers -/

/-- How the search for the start of a header ends. -/
inductive HeaderScan
  | found (c : UInt8) (rest : List UInt8)
  | eof (rest : List UInt8)
  | cancel (rest : List UInt8)
  | timeout
deriving DecidableEq

/-- The loop that looks for the start of a header, after `canTotal` characters `CAN`; `first` says
that no character was read. -/
def findHeader : ℕ → Bool → List UInt8 → HeaderScan
  | _, _, [] => .timeout
  | canTotal, first, c :: line =>
    if c = soh ∨ c = stx then .found c line
    else if c = can then
      if canTotal + 1 = 3 then .cancel line else findHeader (canTotal + 1) false line
    else if c = eot ∧ first = true then .eof line
    else findHeader canTotal false line

/-- The message is validated. -/
def validate (xyz : Xyz) : ℤ :=
  let data := xyz.pkt.take xyz.len.toNat
  if xyz.blk ^^^ xyz.cblk ≠ 0xFF then frame
  else if xyz.crcMode then
    if crc16Ccitt 0 data ≠ xyz.crc1.toNat * 256 + xyz.crc2.toNat then cksum else 0
  else if xyz.crc1.toNat ≠ (data.map UInt8.toNat).sum % 256 then cksum else 0

/-- "Header found, now read the data": the block behind the character `c`. -/
def readBlock (xyz : Xyz) (c : UInt8) : List UInt8 → ℤ × Xyz
  | [] => (timeout, xyz)
  | [blk] => (timeout, { xyz with blk })
  | blk :: cblk :: line =>
    let len := if c = soh then 128 else 1024
    let data := line.take len
    let xyz := { xyz with
      blk, cblk
      len := len
      bufp := 0
      pkt := data ++ xyz.pkt.drop data.length }
    match line.drop len with
    | [] => (timeout, xyz)
    | crc1 :: line =>
      let xyz := { xyz with crc1 }
      if xyz.crcMode then
        match line with
        | [] => (timeout, xyz)
        | crc2 :: _ =>
          let xyz := { xyz with crc2 }
          (xyz.validate, xyz)
      else (xyz.validate, xyz)

/-- The pending acknowledgement is sent. -/
def sendAck (xyz : Xyz) : Xyz :=
  if xyz.txAck then { xyz.putc ack with txAck := false } else xyz

/-- `xyzModem_get_hdr`, while `line` arrives. -/
def getHdr (xyz : Xyz) (line : List UInt8) : ℤ × Xyz :=
  match findHeader 0 true line with
  | .timeout => (timeout, xyz.sendAck)
  | .cancel _ => (cancel, xyz.sendAck)
  | .eof _ => (eof, xyz.sendAck.putc ack)
  | .found c line => xyz.sendAck.readBlock c line

/-- What `xyzModem_get_hdr` leaves of `line`; it flushes after a timeout and on a framing error, and
not when the check bytes of a block are wrong. -/
def unread (xyz : Xyz) (line : List UInt8) : List UInt8 :=
  match findHeader 0 true line with
  | .timeout => []
  | .cancel line => line
  | .eof line => line
  | .found c line =>
    if (xyz.sendAck.readBlock c line).1 = frame then []
    else line.drop (2 + (if c = soh then 128 else 1024) + if xyz.crcMode then 2 else 1)

/-! ## Opening a stream -/

/-- The value of a hexadecimal digit. -/
def fromHex (c : UInt8) : Option ℕ :=
  if 48 ≤ c ∧ c ≤ 57 then some (c.toNat - 48)
  else if 97 ≤ c ∧ c ≤ 102 then some (c.toNat - 97 + 10)
  else if 65 ≤ c ∧ c ≤ 70 then some (c.toNat - 65 + 10)
  else none

/-- The loop of `parse_num`: the number, if it is well formed; `none` outside is a read behind the
end of `s`. -/
def parseDigits (radix result : ℕ) : List UInt8 → Option (Option ℕ)
  | [] => none
  | c :: s =>
    if c = 0 then some (some result)
    else
      match fromHex c with
      | some digit =>
        if digit < radix then parseDigits radix ((result * radix + digit) % 2 ^ 32) s else some none
      | none => if c = 32 then some (some result) else some none

/-- `parse_num` with the delimiter `" "`; behind `0x` a character is read in any case. -/
def parseNum (s : List UInt8) : Option (Option ℕ) :=
  match s.dropWhile (· = 32) with
  | 48 :: x :: s =>
    if x = 120 ∨ x = 88 then
      match s with
      | 0 :: _ => some none
      | s => parseDigits 16 0 s
    else parseDigits 10 0 (48 :: x :: s)
  | s => parseDigits 10 0 s

/-- "Y-modem file information header". -/
def readInfo (xyz : Xyz) : Option Xyz := do
  let rest := xyz.pkt.drop xyz.bufp
  let name := rest.takeWhile (· ≠ 0)
  let val ← parseNum (rest.drop (name.length + 1))
  some { xyz with
    bufp := xyz.bufp + name.length + 1
    fileLength := val.getD xyz.fileLength
    txAck := true }

/-- The loop of `xyzModem_stream_open`: the error, if there is one, and the lines that are left.
Each call of `xyzModem_get_hdr` reads one line. -/
def openLoop : ℕ → ℤ → ℤ → Xyz → List (List UInt8) → Option (Option ℤ × Xyz × List (List UInt8))
  | 0, _, stat, xyz, lines => some (some stat, xyz, lines)
  | retries + 1, crcRetries, _, xyz, lines =>
    let (stat, xyz) := xyz.getHdr (lines.headD [])
    let lines := lines.tail
    if stat = 0 then
      if xyz.blk = 0 then do
        let xyz ← xyz.readInfo
        some (none, { xyz with nextBlk := 1, len := 0 }, lines)
      else some (none, { xyz with nextBlk := 1, len := 0 }, lines)
    else if stat = timeout then
      let crcRetries := crcRetries - 1
      let xyz := { xyz with crcMode := if crcRetries ≤ 0 then false else xyz.crcMode }
      openLoop retries crcRetries stat (xyz.putc xyz.request) lines
    else if stat = cancel then some (some stat, xyz, lines)
    else openLoop retries crcRetries stat xyz lines

/-- `xyzModem_stream_open`. -/
def streamOpen (xyz : Xyz) (mode : ℤ) (lines : List (List UInt8)) :
    Option (Option ℤ × Xyz × List (List UInt8)) :=
  let xyz := { xyz with
    len := 0, crcMode := true, atEof := false, txAck := false, mode
    readLength := 0, fileLength := 0 }
  let xyz := xyz.putc xyz.request
  if mode = xmodem then some (none, { xyz with nextBlk := 1 }, lines)
  else openLoop maxRetries maxRetriesWithCrc 0 xyz lines

/-! ## Reading from a stream -/

/-- The padding at the end of a block of a file of unknown length is removed. -/
def stripEof (xyz : Xyz) : Xyz :=
  let data := (xyz.pkt.drop xyz.bufp).take xyz.len.toNat
  if (data.reverse.take 3).all (· = eofChar) then
    { xyz with len := (data.reverse.dropWhile (· = eofChar)).length }
  else xyz

/-- An `int` from the low 32 bits of a number. -/
def toInt (n : ℤ) : ℤ := (n + 2 ^ 31) % 2 ^ 32 - 2 ^ 31

/-- The length is cut down to what the file still has. -/
def trim (xyz : Xyz) : Xyz :=
  let readLength := ((xyz.readLength + xyz.len) % 2 ^ 32).toNat
  { xyz with
    readLength
    len := if xyz.fileLength < readLength then toInt (xyz.len - (readLength - xyz.fileLength))
      else xyz.len }

/-- The expected block has arrived. -/
def accept (xyz : Xyz) : Xyz :=
  let xyz := { xyz with txAck := true, nextBlk := xyz.nextBlk + 1 }
  let xyz := if xyz.mode = xmodem ∨ xyz.fileLength = 0 then xyz.stripEof else xyz
  if xyz.mode ≠ xmodem ∧ xyz.fileLength ≠ 0 then xyz.trim else xyz

/-- The sender is at the end of the file. -/
def finish (xyz : Xyz) (lines : List (List UInt8)) : ℤ × Xyz × List (List UInt8) :=
  let xyz := xyz.putc ack
  if xyz.mode = ymodem then
    let (stat, xyz) := (xyz.putc xyz.request).getHdr (lines.headD [])
    (stat, { xyz.putc ack with atEof := true }, lines.tail)
  else (eof, { xyz with atEof := true }, lines)

/-- The loop over the retries in `xyzModem_stream_read`. -/
def retryLoop : ℕ → ℤ → Xyz → List (List UInt8) → ℤ × Xyz × List (List UInt8)
  | 0, stat, xyz, lines => (stat, xyz, lines)
  | retries + 1, _, xyz, lines =>
    let (stat, xyz) := xyz.getHdr (lines.headD [])
    let lines := lines.tail
    if stat = 0 ∧ xyz.blk = xyz.nextBlk then (stat, xyz.accept, lines)
    else if stat = 0 ∧ xyz.blk = xyz.nextBlk - 1 then
      retryLoop retries stat (xyz.putc ack) lines
    else
      let stat := if stat = 0 then sequence else stat
      if stat = cancel then (stat, xyz, lines)
      else if stat = eof then xyz.finish lines
      else retryLoop retries stat (xyz.putc xyz.request) lines

/-- The outer loop of `xyzModem_stream_read`, for at most `n` turns: the bytes stored, and the error
if there is one.  `none` is a copy of a negative length or from outside of `pkt`. -/
def readLoop : ℕ → Xyz → List (List UInt8) → ℤ → List UInt8 →
    Option (List UInt8 × Option ℤ × Xyz × List (List UInt8))
  | 0, _, _, _, _ => none
  | n + 1, xyz, lines, size, buf =>
    if xyz.atEof = true ∨ size ≤ 0 then some (buf, none, xyz, lines)
    else
      let (stat, xyz, lines) :=
        if xyz.len = 0 then retryLoop maxRetries cancel xyz lines else (0, xyz, lines)
      if stat < 0 then some (buf, some stat, { xyz with len := -1 }, lines)
      else if xyz.atEof then readLoop n xyz lines size buf
      else
        let len := min size xyz.len
        if len < 0 ∨ xyz.pkt.length < xyz.bufp + len then none
        else
          readLoop n { xyz with len := xyz.len - len, bufp := xyz.bufp + len.toNat } lines
            (size - len)
            (buf ++ (xyz.pkt.drop xyz.bufp).take len.toNat)

/-- `xyzModem_stream_read`.  Each turn stores a byte, uses up a line or is the last but one. -/
def streamRead (xyz : Xyz) (lines : List (List UInt8)) (size : ℤ) :
    Option (List UInt8 × Option ℤ × Xyz × List (List UInt8)) :=
  readLoop (size.toNat + lines.length + 2) xyz lines size []

end Xyz

end MiniPi.Ymodem
