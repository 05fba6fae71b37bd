import MiniPi.Lib.Mem
import Mathlib.Data.Int.Notation

/-!
# The environment on flash

`flash_read_buf` and `flash_write_buf` of `tools/env/fw_env.c`, with the check of a device
configuration.  An offset is the 64-bit number that the comparisons see, and a call that fails gives
`none`.
-/

namespace MiniPi.FwEnv

open Lib

/-- `mtd_type`. -/
inductive MtdType
  | absent | norFlash | nandFlash | dataFlash | ubiVolume | unsupported
deriving DecidableEq

/-- `struct envdev_s`, without the name. -/
structure EnvDevice where
  devoff : ℤ
  envSize : ℕ
  eraseSize : ℕ
  envSectors : ℕ
  mtdType : MtdType := .absent

/-- What the system says about the device: `MEMGETINFO` of a character device, or `BLKGETSIZE64`. -/
inductive Probe
  | chr (type : Option MtdType)
  | other (size : Option ℕ)

/-- A device: its size and its bad blocks, by their offsets. -/
structure Flash where
  content : Mem
  size : ℕ
  size_lt : size < 2 ^ 63
  bad : ℕ → Bool

/-- An offset as an unsigned number of 64 bits. -/
def u64 (z : ℤ) : ℕ := (z % 2 ^ 64).toNat

namespace EnvDevice

/-! ## The configuration -/

/-- The length of the sectors. -/
def area (dev : EnvDevice) : ℕ := dev.envSectors * dev.eraseSize % 2 ^ 64

/-- The end of `check_device_config`, which divides by the erase size. -/
def checkFit (dev : EnvDevice) : Option EnvDevice :=
  if dev.eraseSize = 0 then none
  else
    let dev :=
      if dev.envSectors = 0 then
        { dev with envSectors := (dev.envSize + dev.eraseSize - 1) % 2 ^ 64 / dev.eraseSize }
      else dev
    if u64 dev.devoff % dev.eraseSize ≠ 0 then none
    else if dev.area < dev.envSize then none
    else some dev

/-- `check_device_config` of a device that is not a UBI volume: the configuration that is
accepted. -/
def checkDeviceConfig (probe : Probe) (dev : EnvDevice) : Option EnvDevice :=
  match probe with
  | .chr none => none
  | .chr (some type) =>
      if type ∈ [.norFlash, .nandFlash, .dataFlash, .ubiVolume] then
        checkFit { dev with
          mtdType := type, eraseSize := if dev.eraseSize = 0 then dev.envSize else dev.eraseSize }
      -- the result of `MEMGETINFO` is returned
      else some dev
  | .other size =>
      let dev := { dev with
        mtdType := .absent, eraseSize := if dev.eraseSize = 0 then 0x200 else dev.eraseSize }
      if dev.devoff < 0 then size.bind fun size ↦ checkFit { dev with devoff := dev.devoff + size }
      else checkFit dev

def environmentEnd (dev : EnvDevice) : ℕ := (u64 dev.devoff + dev.area) % 2 ^ 64

end EnvDevice

namespace Flash

/-! ## The device -/

/-- `flash_bad_block`. -/
def flashBadBlock (d : Flash) (mtdType : MtdType) (blockstart : ℕ) : Option Bool :=
  if mtdType = .nandFlash then if blockstart < d.size then some (d.bad blockstart) else none
    else some false

/-- The most bytes of a call of `read` or `write`. -/
def maxRw : ℕ := 0x7ffff000

/-- `lseek` and `read` of all the bytes. -/
def read (d : Flash) (pos n : ℕ) : Option (List UInt8) :=
  if n ≤ maxRw ∧ pos + n ≤ d.size then some (d.content.slice pos n) else none

/-- `MEMERASE`, whose start and length have 32 bits. -/
def erase (d : Flash) (start length : ℕ) : Option Flash :=
  let start := start % 2 ^ 32
  let length := length % 2 ^ 32
  if start + length ≤ d.size then
    some { d with content := d.content.write start (List.replicate length 0xff) }
  else none

/-- `lseek` and `write`.  A file grows, and flash that is not erased loses bits. -/
def program (d : Flash) (mtdType : MtdType) (pos : ℕ) (bytes : List UInt8) : Option Flash :=
  if hpos : bytes.length ≤ maxRw ∧ pos + bytes.length < 2 ^ 63 then
    if mtdType = .absent then
      some { d with
        content := d.content.write pos bytes
        size := max d.size (pos + bytes.length)
        size_lt := Nat.max_lt.2 ⟨d.size_lt, hpos.2⟩ }
    else if pos + bytes.length ≤ d.size then
      if mtdType = .dataFlash then some { d with content := d.content.write pos bytes }
      else
        some { d with
          content := d.content.write pos
            (List.zipWith (· &&& ·) (d.content.slice pos bytes.length) bytes) }
    else none
  else none

/-! ## Reading and writing -/

variable (dev : EnvDevice)

/-- The loop of `flash_read_buf`. -/
def readLoop (d : Flash) (count blocklen : ℕ) : ℕ → ℕ → ℕ → ℕ → List UInt8 → Option (List UInt8)
  | 0, _, _, _, _ => none
  | fuel + 1, blockstart, blockSeek, readlen, buf =>
      if count ≤ buf.length then some buf
      else do
        let bad ← d.flashBadBlock dev.mtdType blockstart
        if dev.environmentEnd < (blockstart + blockSeek + readlen) % 2 ^ 64 then none
        else if bad then
          readLoop d count blocklen fuel ((blockstart + blocklen) % 2 ^ 64) blockSeek readlen buf
        else
          let bytes ← d.read ((blockstart + blockSeek) % 2 ^ 64) readlen
          let buf := buf ++ bytes
          readLoop d count blocklen fuel ((blockstart + blocklen) % 2 ^ 64) 0
            (min blocklen (count - buf.length)) buf

/-- `flash_read_buf`. -/
def flashReadBuf (d : Flash) (fuel count offset : ℕ) : Option (List UInt8) :=
  let blockstart := offset / dev.eraseSize * dev.eraseSize
  let blockSeek := offset - blockstart
  if dev.mtdType = .nandFlash then
    d.readLoop dev count dev.eraseSize fuel blockstart blockSeek
      (min count (dev.eraseSize - blockSeek)) []
  else d.readLoop dev count 0 fuel blockstart blockSeek count []

/-- `n` bytes of `data` from its byte `k` on; behind it stands what `heap` gives. -/
def part (data : List UInt8) (heap : ℕ → UInt8) (k n : ℕ) : List UInt8 :=
  (List.range n).map fun i ↦ data.getD (k + i) (heap (k + i))

/-- The loop of `flash_write_buf`, whose result is an `int`. -/
def writeLoop (data : List UInt8) (heap : ℕ → UInt8) (blocklen erasesize writeTotal : ℕ) :
    ℕ → ℕ → ℕ → Flash → Option Flash
  | 0, _, _, _ => none
  | fuel + 1, processed, blockstart, d =>
      if writeTotal ≤ processed then if processed % 2 ^ 32 < 2 ^ 31 then some d else none
      else do
        let bad ← d.flashBadBlock dev.mtdType blockstart
        if dev.environmentEnd < (blockstart + erasesize) % 2 ^ 64 then none
        else if bad then
          writeLoop data heap blocklen erasesize writeTotal fuel processed
            ((blockstart + blocklen) % 2 ^ 64) d
        else
          let d ←
            if dev.mtdType = .absent ∨ dev.mtdType = .dataFlash then some d
            else d.erase blockstart erasesize
          let d ← d.program dev.mtdType blockstart (part data heap processed erasesize)
          writeLoop data heap blocklen erasesize writeTotal fuel (processed + erasesize)
            ((blockstart + erasesize) % 2 ^ 64) d

/-- `write_total` of `flash_write_buf` for flash. -/
def writeTotal (count : ℕ) : ℕ :=
  (count + dev.eraseSize - 1) % 2 ^ 64 / dev.eraseSize * dev.eraseSize

/-- `flash_write_buf`; `heap` gives the bytes behind the buffer that is written. -/
def flashWriteBuf (d : Flash) (heap : ℕ → UInt8) (fuel : ℕ) (buf : List UInt8) : Option Flash :=
  let count := buf.length
  let start := u64 dev.devoff
  if dev.mtdType = .absent then writeLoop dev buf heap count count count fuel 0 start d
  else
    let eraseLen := dev.area
    let total := writeTotal dev count
    let erasesize := if dev.mtdType = .nandFlash then dev.eraseSize else eraseLen
    if count < total then do
      let old ← if total < 2 ^ 31 then d.flashReadBuf dev fuel total start else none
      writeLoop dev (buf ++ old.drop count) heap dev.eraseSize erasesize total fuel 0 start d
    else writeLoop dev buf heap dev.eraseSize erasesize total fuel 0 start d

end Flash

/-! ## What is accepted -/

/-- NOR flash, NAND flash, dataflash or a file. -/
def Probe.Known : Probe → Prop
  | .chr (some type) => type = .norFlash ∨ type = .nandFlash ∨ type = .dataFlash
  | .chr none => False
  | .other _ => True

/-- What `check_device_config` accepts. -/
structure Accepted (dev : EnvDevice) : Prop where
  eraseSize_pos : 0 < dev.eraseSize
  aligned : dev.eraseSize ∣ u64 dev.devoff
  envSize_le : dev.envSize ≤ dev.area
  type : dev.mtdType = .absent ∨ dev.mtdType = .norFlash ∨ dev.mtdType = .nandFlash ∨
    dev.mtdType = .dataFlash

theorem EnvDevice.checkFit_accepted {dev dev' : EnvDevice} (h : dev.checkFit = some dev')
    (htype : dev.mtdType = .absent ∨ dev.mtdType = .norFlash ∨ dev.mtdType = .nandFlash ∨
      dev.mtdType = .dataFlash) :
    Accepted dev' := by
  unfold checkFit at h
  simp only [Option.ite_none_left_eq_some, ne_eq, not_not, not_lt] at h
  obtain ⟨hpos, haligned, hle, h⟩ := h
  obtain rfl := Option.some.inj h
  split_ifs at haligned hle ⊢
  all_goals exact ⟨Nat.pos_of_ne_zero hpos, Nat.dvd_of_mod_eq_zero haligned, hle, htype⟩

theorem EnvDevice.checkDeviceConfig_accepted {probe : Probe} {dev dev' : EnvDevice}
    (h : dev.checkDeviceConfig probe = some dev') (hprobe : probe.Known) : Accepted dev' := by
  cases probe with
  | chr type =>
      cases type with
      | none => exact hprobe.elim
      | some type =>
          have hmem : type ∈ [MtdType.norFlash, .nandFlash, .dataFlash, .ubiVolume] := by
            rcases hprobe with rfl | rfl | rfl <;> simp
          simp only [checkDeviceConfig, if_pos hmem] at h
          exact checkFit_accepted h (.inr hprobe)
  | other size =>
      simp only [checkDeviceConfig] at h
      split_ifs at h
      · obtain ⟨size, -, h⟩ := Option.bind_eq_some_iff.1 h
        exact checkFit_accepted h (.inl rfl)
      · obtain ⟨size, -, h⟩ := Option.bind_eq_some_iff.1 h
        exact checkFit_accepted h (.inl rfl)
      · exact checkFit_accepted h (.inl rfl)
      · exact checkFit_accepted h (.inl rfl)

end MiniPi.FwEnv
