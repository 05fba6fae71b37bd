import MiniPi.Lib.Mem

/-!
# The TFTP client

The transfers of `net/tftp.c`, in both directions.  Packets are those of one transfer, so that the
ports are not checked; what is printed is left out, and the options of an `OACK` are read already.
`ulong` has 32 bits.  `STATE_TOO_LARGE` and `STATE_BAD_MAGIC` are set nowhere.
-/

namespace MiniPi.Tftp

open Lib

/-- `tftp_state`. -/
inductive State
  | sendRrq
  | data
  | oack
  | recvWrq
  | sendWrq
deriving DecidableEq

/-- `net_state`. -/
inductive NetState
  | loopContinue
  | loopRestart
  | loopSuccess
  | loopFail
deriving DecidableEq

/-- A packet; `oack` has the value of the option `blksize`. -/
inductive Packet
  | request
  | oack (blksize : Option ℕ)
  | ack (block : ℕ)
  | data (block : ℕ) (bytes : List UInt8)
deriving DecidableEq

/-- `TFTP_BLOCK_SIZE`. -/
def tftpBlockSize : ℕ := 512

/-- `TFTP_SEQUENCE_SIZE`. -/
def tftpSequenceSize : ℕ := 65536

/-- The static variables of the file, with the memory and the packets that were sent. -/
structure Client where
  timeoutCount : ℕ
  timeoutCountMax : ℕ
  tftpTimeoutCountMax : ℕ
  curBlock : ℕ
  prevBlock : ℕ
  blockWrap : ℕ
  blockWrapOffset : ℕ
  state : State
  loadAddr : ℕ
  loadSize : ℕ
  saveAddr : ℕ
  saveSize : ℕ
  putActive : Bool
  putFinalBlockSent : Bool
  blockSize : ℕ
  netBootFileSize : ℕ
  netState : NetState
  mem : Mem
  sent : List Packet

/-- A number as `ulong`. -/
def ulong (n : ℤ) : ℕ := (n % 2 ^ 32).toNat

namespace Client

/-- `store_block`, where `none` is a store to reserved memory. -/
def storeBlock (client : Client) (block : ℤ) (src : List UInt8) : Option Client :=
  let offset := ulong (block * client.blockSize + client.blockWrapOffset)
  let newsize := ulong (offset + src.length)
  let storeAddr := ulong (client.loadAddr + offset)
  if storeAddr < client.loadAddr ∨
      ulong (client.loadAddr + client.loadSize) < ulong (storeAddr + src.length) then none
  else some { client with
    mem := client.mem.write storeAddr src
    netBootFileSize := max client.netBootFileSize newsize }

/-- `new_transfer`. -/
def newTransfer (client : Client) : Client :=
  { client with prevBlock := 0, blockWrap := 0, blockWrapOffset := 0, putFinalBlockSent := false }

/-- `load_block`. -/
def loadBlock (client : Client) (block len : ℕ) : List UInt8 :=
  let offset := ulong (((block : ℤ) - 1) * len + client.blockWrapOffset)
  let tosend := min (ulong (client.netBootFileSize - offset)) len
  client.mem.slice (ulong (client.saveAddr + offset)) tosend

/-- `net_start_again`, also by way of `restart`. -/
def netStartAgain (client : Client) : Client := { client with netState := .loopRestart }

/-- `update_block_number`. -/
def updateBlockNumber (client : Client) : Client :=
  if client.curBlock = 0 ∧ client.prevBlock ≠ 0 then
    { client with
      blockWrap := client.blockWrap + 1
      blockWrapOffset := ulong (client.blockWrapOffset + client.blockSize * tftpSequenceSize)
      timeoutCount := 0 }
  else client

/-- `tftp_complete`. -/
def tftpComplete (client : Client) : Client := { client with netState := .loopSuccess }

/-- `net_send_udp_packet`. -/
def send (client : Client) (pkt : Packet) : Client := { client with sent := client.sent ++ [pkt] }

/-- `tftp_send`. -/
def tftpSend (client : Client) : Client :=
  match client.state with
  | .sendRrq | .sendWrq => client.send .request
  | .oack | .recvWrq | .data =>
    if client.putActive then
      let loaded := client.loadBlock client.curBlock client.blockSize
      { client.send (.data (client.curBlock % 65536) loaded) with
        putFinalBlockSent := decide (loaded.length < client.blockSize) }
    else client.send (.ack (client.curBlock % 65536))

/-- The case `TFTP_ACK` of `tftp_handler`. -/
def handleAck (client : Client) (block : ℕ) : Client :=
  if client.putActive then
    if client.putFinalBlockSent then client.tftpComplete
    else
      let ackOk := decide (client.curBlock = block)
      let client := { client with curBlock := (block + 1) % 65536 }.updateBlockNumber
      if ackOk then client.tftpSend else client
  else client

/-- The case `TFTP_OACK`. -/
def handleOack (client : Client) (blksize : Option ℕ) : Client :=
  let client := { client with
    state := .oack
    blockSize := (blksize.map (· % 65536)).getD client.blockSize }
  let client := if client.putActive then
    { client with state := .data, curBlock := client.curBlock + 1 } else client
  client.tftpSend

/-- The end of the case `TFTP_DATA`, for a block that is not the one received before. -/
def acceptData (client : Client) (bytes : List UInt8) : Client :=
  let client := { client with
    prevBlock := client.curBlock
    timeoutCountMax := client.tftpTimeoutCountMax }
  match client.storeBlock ((client.curBlock : ℤ) - 1) bytes with
  | none => { client with netState := .loopFail }
  | some client =>
    let client := client.tftpSend
    if bytes.length < client.blockSize then client.tftpComplete else client

/-- The case `TFTP_DATA`. -/
def handleData (client : Client) (block : ℕ) (bytes : List UInt8) : Client :=
  let client := { client with curBlock := block }.updateBlockNumber
  let first := decide (client.state = .sendRrq ∨ client.state = .oack ∨ client.state = .recvWrq)
  let client := if first then { client with state := .data }.newTransfer else client
  if first ∧ client.curBlock ≠ 1 then client.netStartAgain
  else if client.curBlock = client.prevBlock then client
  else client.acceptData bytes

/-- `tftp_handler`. -/
def tftpHandler (client : Client) : Packet → Client
  | .request => client
  | .ack block => client.handleAck block
  | .oack blksize => client.handleOack blksize
  | .data block bytes => client.handleData block bytes

/-- `tftp_timeout_handler`. -/
def tftpTimeoutHandler (client : Client) : Client :=
  let client := { client with timeoutCount := client.timeoutCount + 1 }
  if client.timeoutCountMax < client.timeoutCount then client.netStartAgain
  else if client.state ≠ .recvWrq then client.tftpSend else client

/-- `tftp_start`; the load address and the memory behind it are set by `tftp_init_load_addr`. -/
def tftpStart (client : Client) (put : Bool) : Client :=
  let client := { client with putActive := put }
  let client := if put then
    { client with netBootFileSize := client.saveSize, state := .sendWrq }.newTransfer
    else { client with state := .sendRrq }
  { client with
    timeoutCountMax := client.tftpTimeoutCountMax
    timeoutCount := 0
    curBlock := 0
    blockSize := tftpBlockSize }.tftpSend

end Client

/-! ## Blocks of a file -/

/-- The block with number `j`, counted from one. -/
def block (file : List UInt8) (bs j : ℕ) : List UInt8 := (file.drop ((j - 1) * bs)).take bs

/-- The number of the last block, the first one that is not full. -/
def lastBlock (file : List UInt8) (bs : ℕ) : ℕ := file.length / bs + 1

variable {file : List UInt8} {bs j k : ℕ}

theorem length_block (file : List UInt8) (bs j : ℕ) :
    (block file bs j).length = min bs (file.length - (j - 1) * bs) := by
  rw [block, List.length_take, List.length_drop]

theorem take_succ_mul (file : List UInt8) (bs j : ℕ) :
    file.take ((j + 1) * bs) = file.take (j * bs) ++ block file bs (j + 1) := by
  rw [Nat.succ_mul, List.take_add, block, Nat.add_sub_cancel]

theorem mul_le_length (h : j < lastBlock file bs) : j * bs ≤ file.length :=
  (Nat.mul_le_mul_right bs (Nat.le_of_lt_succ h)).trans (Nat.div_mul_le_self _ _)

theorem length_block_of_lt (hj : 1 ≤ j) (h : j < lastBlock file bs) :
    (block file bs j).length = bs := by
  have hle := mul_le_length h
  obtain ⟨j, rfl⟩ := Nat.exists_eq_add_of_le' hj
  rw [Nat.succ_mul] at hle
  rw [length_block, Nat.add_sub_cancel]
  omega

theorem length_le_of_length_block_lt (hj : 1 ≤ j) (h : (block file bs j).length < bs) :
    file.length ≤ j * bs := by
  obtain ⟨j, rfl⟩ := Nat.exists_eq_add_of_le' hj
  rw [length_block, Nat.add_sub_cancel] at h
  rw [Nat.succ_mul]
  omega

end MiniPi.Tftp
