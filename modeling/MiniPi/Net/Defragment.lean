import MiniPi.Lib.Mem
import Mathlib.Data.Int.Notation

/-!
# Reassembly of IP packets

`__net_defragment` collects the fragments of one packet in a static buffer.  The parts that have
not arrived are holes; a hole starts at a multiple of 8 bytes, and the descriptor of a hole is kept
in its first 8 bytes.  The descriptors are linked by their places in the buffer, counted in blocks
of 8 bytes from the payload on, and the number 0 stands for no hole.
-/

namespace MiniPi.Net

open Lib

/-- `IP_PKTSIZE`. -/
def ipPktSize : ℕ := 16384

/-- `IP_HDR_SIZE`. -/
def ipHdrSize : ℕ := 20

/-- `IP_MAXUDP`. -/
def ipMaxUdp : ℕ := ipPktSize - ipHdrSize

/-- The static variables of `__net_defragment`. -/
structure Defrag where
  pktBuff : Mem
  firstHole : ℕ
  totalLen : ℕ

/-! ## The received packet -/

/-- The bytes of a received packet, from its IP header on. -/
abbrev Packet := List UInt8

namespace Packet

/-- A 16-bit field in network byte order. -/
def field (ip : Packet) (i : ℕ) : ℕ := beValue ((ip.drop i).take 2)

/-- `ntohs(ip->ip_len)`. -/
def ipLen (ip : Packet) : ℕ := field ip 2

/-- `ip->ip_id`, as it stands in the packet. -/
def ipId (ip : Packet) : List UInt8 := (ip.drop 4).take 2

/-- `ntohs(ip->ip_off)`. -/
def ipOff (ip : Packet) : ℕ := field ip 6

/-- `ip_off & IP_OFFS`. -/
def offset8 (ip : Packet) : ℕ := ip.ipOff % 8192

/-- `ip_off & IP_FLAGS_MFRAG`. -/
def moreFragments (ip : Packet) : Bool := decide (ip.ipOff / 8192 % 2 = 1)

end Packet

/-! ## Hole descriptors -/

/-- The members of `struct hole` that are used. -/
inductive HoleField
  | lastByte
  | nextHole
  | prevHole
deriving DecidableEq

/-- The place of a member in the descriptor. -/
def HoleField.offset : HoleField → ℕ
  | .lastByte => 0
  | .nextHole => 2
  | .prevHole => 4

/-- The address of a member of `payload[h]` in `pkt_buff`. -/
def fieldAddr (h : ℤ) (f : HoleField) : ℤ := ipHdrSize + 8 * h + f.offset

/-- `payload[h].f`; `none` is a read outside of the buffer. -/
def readField (m : Mem) (h : ℤ) (f : HoleField) : Option ℕ :=
  if 0 ≤ fieldAddr h f ∧ fieldAddr h f + 2 ≤ ipPktSize then
    some (leValue (m.slice (fieldAddr h f).toNat 2))
  else none

/-- `payload[h].f = v`; `none` is a write outside of the buffer. -/
def writeField (m : Mem) (h : ℤ) (f : HoleField) (v : ℤ) : Option Mem :=
  if 0 ≤ fieldAddr h f ∧ fieldAddr h f + 2 ≤ ipPktSize then
    some (m.write (fieldAddr h f).toNat (leBytes 2 (v % 65536).toNat))
  else none

/-- `payload[newh] = payload[h]`. -/
def copyHole (m : Mem) (h newh : ℤ) : Option Mem :=
  if 0 ≤ ipHdrSize + 8 * h ∧ ipHdrSize + 8 * h + 8 ≤ ipPktSize ∧
      0 ≤ ipHdrSize + 8 * newh ∧ ipHdrSize + 8 * newh + 8 ≤ ipPktSize then
    some (m.write (ipHdrSize + 8 * newh).toNat (m.slice (ipHdrSize + 8 * h).toNat 8))
  else none

/-! ## The function -/

/-- The first `if` with a new packet: the structures are reset and the header is copied. -/
def reset (ip : Packet) (st : Defrag) : Option Defrag := do
  let m ← writeField st.pktBuff 0 .lastByte 65535
  let m ← writeField m 0 .nextHole 0
  let m ← writeField m 0 .prevHole 0
  if ip.length < ipHdrSize then none
  else some ⟨m.write 0 (ip.take ipHdrSize), 0, 65535⟩

/-- The loop over the holes, for at most `fuel` further turns: the first hole that does not end
before `start`, if there is one. -/
def findHole (m : Mem) (start : ℤ) : ℕ → ℤ → Option (Option ℤ)
  | fuel, h => do
    let last ← readField m h .lastByte
    if (last : ℤ) < start then
      let next ← readField m h .nextHole
      if next = 0 then some none
      else
        match fuel with
        | 0 => none
        | fuel + 1 => findHole m start fuel next
    else some (some h)

/-- "complete overlap with hole: remove hole"; the flag is `done`. -/
def removeHole (m : Mem) (firstHole : ℕ) (h : ℤ) : Option (Mem × ℕ × Bool) := do
  let prev ← readField m h .prevHole
  let next ← readField m h .nextHole
  if prev = 0 ∧ next = 0 then some (m, firstHole, true)
  else if prev = 0 then
    let m ← writeField m next .prevHole 0
    some (m, next, false)
  else if next = 0 then
    let m ← writeField m prev .nextHole 0
    some (m, firstHole, false)
  else
    let m ← writeField m next .prevHole prev
    let m ← writeField m prev .nextHole next
    some (m, firstHole, false)

/-- The hole behind a hole, if there is one, gets `newh` as the hole before it. -/
def linkNext (m : Mem) (next : ℕ) (newh : ℤ) : Option Mem :=
  if next = 0 then some m else writeField m next .prevHole newh

/-- "overlaps with initial part of the hole: move this hole". -/
def moveHole (m : Mem) (firstHole : ℕ) (h newh : ℤ) : Option (Mem × ℕ × Bool) := do
  let m ← copyHole m h newh
  let next ← readField m newh .nextHole
  let m ← linkNext m next newh
  let prev ← readField m newh .prevHole
  if prev = 0 then some (m, (newh % 65536).toNat, false)
  else
    let m ← writeField m prev .nextHole newh
    some (m, firstHole, false)

/-- "fragment sits in the middle: split the hole". -/
def splitHole (m : Mem) (firstHole : ℕ) (h newh start : ℤ) : Option (Mem × ℕ × Bool) := do
  let m ← copyHole m h newh
  let m ← writeField m h .lastByte start
  let m ← writeField m h .nextHole newh
  let m ← writeField m newh .prevHole h
  let next ← readField m newh .nextHole
  let m ← linkNext m next newh
  some (m, firstHole, false)

/-- The chain of `if`s that fixes the hole list, for a fragment from `start` to `start + len`. -/
def fixHoles (m : Mem) (firstHole : ℕ) (h offset8 len : ℤ) : Option (Mem × ℕ × Bool) := do
  let last ← readField m h .lastByte
  if offset8 ≤ h ∧ (last : ℤ) ≤ 8 * offset8 + len then removeHole m firstHole h
  else if (last : ℤ) ≤ 8 * offset8 + len then
    let m ← writeField m h .lastByte (8 * offset8)
    some (m, firstHole, false)
  else if offset8 ≤ h then moveHole m firstHole h (offset8 + len.tdiv 8)
  else splitHole m firstHole h (offset8 + len.tdiv 8) (8 * offset8)

/-- The `memcpy` of a fragment; `none` if it leaves one of the packets. -/
def copyFragment (ip : Packet) (m : Mem) (start len : ℤ) : Option Mem :=
  if 0 ≤ len ∧ ipHdrSize + start + len ≤ ipPktSize ∧ ipHdrSize + len ≤ ip.length then
    some (m.write (ipHdrSize + start).toNat ((ip.drop ipHdrSize).take len.toNat))
  else none

/-- "no more fragments: truncate this (last) hole". -/
def truncateHole (ip : Packet) (m : Mem) (h last : ℤ) : Option Mem :=
  if ip.moreFragments then some m else writeField m h .lastByte last

/-- The part of `__net_defragment` after the reset: the new state and the returned length, or
`NULL`.  `none` stands for an access outside of the packets, or for a loop that does not end. -/
def insertFragment (ip : Packet) (st : Defrag) : Option (Defrag × Option ℕ) := do
  let len : ℤ := ip.ipLen - ipHdrSize
  let start : ℤ := 8 * ip.offset8
  match ← findHole st.pktBuff start 65536 st.firstHole with
  | none => some (st, none)
  | some h =>
    if ip.offset8 + (len + 7).tdiv 8 ≤ h then some (st, none)
    else
      let totalLen := if ip.moreFragments then st.totalLen else ((start + len) % 65536).toNat
      let m ← truncateHole ip st.pktBuff h (start + len)
      let (m, firstHole, done) ← fixHoles m st.firstHole h ip.offset8 len
      let m ← copyFragment ip m start len
      if done then
        some (⟨m.write 2 (beBytes 2 totalLen), firstHole, totalLen⟩, some (totalLen + ipHdrSize))
      else some (⟨m, firstHole, totalLen⟩, none)

/-- The end of a fragment as it is compared with `IP_MAXUDP`: `start + len`, taken as an unsigned
number. -/
def Packet.fragmentEnd (ip : Packet) : ℤ := (8 * ip.offset8 + (ip.ipLen - ipHdrSize)) % 2 ^ 32

/-- `__net_defragment`. -/
def netDefragment (ip : Packet) (st : Defrag) : Option (Defrag × Option ℕ) :=
  if (ipMaxUdp : ℤ) < ip.fragmentEnd then some (st, none)
  else if st.totalLen = 0 ∨ st.pktBuff.slice 4 2 ≠ ip.ipId then
    (reset ip st).bind (insertFragment ip)
  else insertFragment ip st

end MiniPi.Net
