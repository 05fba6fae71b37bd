import MiniPi.Tftp.Basic
import MiniPi.Lib.Run
import Mathlib

/-!
# Downloads

A client and a server that sends a block when the block before it is acknowledged.  Every packet
that was sent can arrive at any time and any number of times.  A block from before a wrap of the
numbers that arrives behind it, and a late copy of a block with the number zero, are not told from
new ones.
-/

namespace MiniPi.Tftp

open Lib

variable {file bytes : List UInt8} {bs h j : ℕ} {client : Client}

/-! ## What the client stores -/

/-- The memory of the client has the first `h` blocks of the file. -/
structure Stores (file : List UInt8) (bs h : ℕ) (client : Client) : Prop where
  putActive : client.putActive = false
  blockSize : client.blockSize = bs
  space : client.loadAddr + client.loadSize < 2 ^ 32
  fits : file.length ≤ client.loadSize
  stored : client.mem.At client.loadAddr (file.take (h * bs))
  size : client.netBootFileSize = min (h * bs) file.length

/-- The client has received the first `h` blocks of the file. -/
structure Holds (file : List UInt8) (bs h : ℕ) (client : Client) : Prop
    extends Stores file bs h client where
  first : h = 0 → client.state = .sendRrq ∨ client.state = .oack
  state : h ≠ 0 → client.state = .data
  offset : h ≠ 0 → client.blockWrapOffset = ulong (bs * 65536 * (h / 65536) : ℕ)
  prev_le : h ≠ 0 → client.prevBlock ≤ h % 65536
  prev_pos : h ≠ 0 → client.prevBlock = 0 → h % 65536 = 0
  running : client.netState = .loopContinue → h < lastBlock file bs
  complete : client.netState = .loopSuccess → lastBlock file bs ≤ h

/-- A block is stored at its place. -/
theorem storeBlock_eq (hbs : client.blockSize = bs) (hj : 1 ≤ j)
    (hoffset : client.blockWrapOffset = ulong (bs * 65536 * (j / 65536) : ℕ))
    (hspace : client.loadAddr + client.loadSize < 2 ^ 32)
    (hroom : (j - 1) * bs + bytes.length ≤ client.loadSize) :
    client.storeBlock (((j % 65536 : ℕ) : ℤ) - 1) bytes = some { client with
      mem := client.mem.write (client.loadAddr + (j - 1) * bs) bytes
      netBootFileSize := max client.netBootFileSize ((j - 1) * bs + bytes.length) } := by
  have hplace : ((j % 65536 : ℕ) - 1 : ℤ) * bs + (bs * 65536 * (j / 65536) : ℕ) =
      ((j - 1) * bs : ℕ) := by
    have hdiv : (j : ℤ) = 65536 * (j / 65536 : ℕ) + (j % 65536 : ℕ) := by omega
    have hsub : ((j - 1 : ℕ) : ℤ) = j - 1 := by omega
    push_cast [hsub]
    push_cast at hdiv
    linear_combination (-bs : ℤ) * hdiv
  have hoff : ulong (((j % 65536 : ℕ) - 1 : ℤ) * client.blockSize + client.blockWrapOffset) =
      (j - 1) * bs := by
    have hmod : (((j % 65536 : ℕ) - 1 : ℤ) * bs + ulong (bs * 65536 * (j / 65536) : ℕ)) % 2 ^ 32 =
        (((j % 65536 : ℕ) - 1 : ℤ) * bs + (bs * 65536 * (j / 65536) : ℕ)) % 2 ^ 32 := by
      unfold ulong
      generalize (bs * 65536 * (j / 65536)) = w
      generalize ((j % 65536 : ℕ) - 1 : ℤ) * bs = b
      omega
    rw [hbs, hoffset, ulong, hmod, hplace]
    generalize (j - 1) * bs = o at *
    omega
  have hu (n : ℕ) (hn : n < 2 ^ 32) : ulong n = n := by
    unfold ulong
    omega
  unfold Client.storeBlock
  dsimp only
  rw [hoff]
  generalize (j - 1) * bs = o at *
  rw [← Nat.cast_add o, ← Nat.cast_add client.loadAddr, ← Nat.cast_add client.loadAddr,
    hu (client.loadAddr + o) (by omega), ← Nat.cast_add, hu (o + bytes.length) (by omega),
    hu (client.loadAddr + client.loadSize) (by omega),
    hu (client.loadAddr + o + bytes.length) (by omega), if_neg (by omega)]

/-- The next block is put behind the others, and an earlier one stays where it is. -/
theorem stored_write {m : Mem} {a : ℕ} (hstored : m.At a (file.take (h * bs))) (hj : 1 ≤ j)
    (hjh : j ≤ h + 1) (hlast : h < lastBlock file bs) :
    (m.write (a + (j - 1) * bs) (block file bs j)).At a (file.take (max h j * bs)) := by
  have hle := mul_le_length hlast
  have hlength : (file.take (h * bs)).length = h * bs := by
    rw [List.length_take, Nat.min_eq_left hle]
  obtain rfl | hjh := hjh.eq_or_lt
  · rw [Nat.max_eq_right (Nat.le_succ h), Nat.add_sub_cancel, take_succ_mul, Mem.at_append, hlength]
    exact ⟨hstored.write_of_disjoint (.inl (by rw [hlength])), Mem.at_write_self⟩
  · have hmul : (j - 1) * bs + bs ≤ h * bs := by
      rw [← Nat.succ_mul]
      exact Nat.mul_le_mul_right bs (by omega)
    have hpart := hstored.part (hmul.trans_eq hlength.symm)
    rw [List.drop_take, List.take_take, Nat.min_eq_left (by omega)] at hpart
    rw [Nat.max_eq_left (by omega), block, hpart.write_eq]
    exact hstored

/-- What a block adds to the size. -/
theorem size_write (hj : 1 ≤ j) (hjh : j ≤ h + 1) (hlast : h < lastBlock file bs) :
    max (min (h * bs) file.length) ((j - 1) * bs + (block file bs j).length) =
      min (max h j * bs) file.length := by
  have hle := mul_le_length hlast
  obtain rfl | hjh := hjh.eq_or_lt
  · rw [Nat.max_eq_right (Nat.le_succ h), length_block, Nat.add_sub_cancel, Nat.succ_mul]
    omega
  · have hmul : (j - 1) * bs + bs ≤ h * bs := by
      rw [← Nat.succ_mul]
      exact Nat.mul_le_mul_right bs (by omega)
    rw [Nat.max_eq_left (show j ≤ h by omega), length_block]
    omega

theorem length_block_lt_iff (hbs : 0 < bs) (hj : 1 ≤ j) (hlast : j ≤ lastBlock file bs) :
    (block file bs j).length < bs ↔ j = lastBlock file bs := by
  constructor
  · intro h
    by_contra hne
    exact absurd (length_block_of_lt hj (by omega)) h.ne
  · rintro rfl
    have hmod := Nat.mod_lt file.length hbs
    have hdiv := Nat.div_add_mod file.length bs
    rw [Nat.mul_comm] at hdiv
    rw [length_block, lastBlock, Nat.add_sub_cancel]
    omega

theorem tftpSend_eq (hstate : client.state = .data) (hput : client.putActive = false) :
    client.tftpSend = client.send (.ack (client.curBlock % 65536)) := by
  unfold Client.tftpSend
  rw [hstate]
  dsimp only
  rw [hput, if_neg Bool.false_ne_true]

/-- A block is stored and acknowledged. -/
theorem acceptData_eq (hput : client.putActive = false) (hbs : client.blockSize = bs)
    (hspace : client.loadAddr + client.loadSize < 2 ^ 32) (hstate : client.state = .data)
    (hj : 1 ≤ j) (hcur : client.curBlock = j % 65536)
    (hoffset : client.blockWrapOffset = ulong (bs * 65536 * (j / 65536) : ℕ))
    (hroom : (j - 1) * bs + bytes.length ≤ client.loadSize) :
    client.acceptData bytes =
      let next : Client := { client with
        prevBlock := j % 65536
        timeoutCountMax := client.tftpTimeoutCountMax
        mem := client.mem.write (client.loadAddr + (j - 1) * bs) bytes
        netBootFileSize := max client.netBootFileSize ((j - 1) * bs + bytes.length)
        sent := client.sent ++ [.ack (j % 65536)] }
      if bytes.length < bs then next.tftpComplete else next := by
  have hstore := @storeBlock_eq bytes bs j { client with
    prevBlock := client.curBlock, timeoutCountMax := client.tftpTimeoutCountMax }
    hbs hj hoffset hspace hroom
  rw [← hcur] at hstore
  unfold Client.acceptData
  dsimp only at hstore ⊢
  rw [hstore]
  dsimp only
  rw [tftpSend_eq]
  · dsimp only [Client.send]
    rw [hbs, hcur, Nat.mod_mod]
    rfl
  · exact hstate
  · exact hput

/-- What the client has after a block that is not the one before. -/
theorem holds_acceptData (hbs : 0 < bs) (hs : Stores file bs h client)
    (hstate : client.state = .data) (hrun : client.netState = .loopContinue) (hj : 1 ≤ j)
    (hcur : client.curBlock = j % 65536)
    (hoffset : client.blockWrapOffset = ulong (bs * 65536 * (j / 65536) : ℕ)) (hjh : j ≤ h + 1)
    (hlast : h < lastBlock file bs) (hold : j ≤ h → j / 65536 = h / 65536 ∧ j % 65536 ≠ 0) :
    Holds file bs (max h j) (client.acceptData (block file bs j)) := by
  have hroom : (j - 1) * bs + (block file bs j).length ≤ client.loadSize := by
    have hle : (j - 1) * bs ≤ file.length :=
      (Nat.mul_le_mul_right bs (by omega)).trans (mul_le_length hlast)
    have hfits := hs.fits
    rw [length_block]
    omega
  have hdiv : j / 65536 = max h j / 65536 := by
    obtain hle | hlt := le_or_gt j h
    · rw [Nat.max_eq_left hle]
      exact (hold hle).1
    · rw [Nat.max_eq_right hlt.le]
  have hmod : j % 65536 ≤ max h j % 65536 := by
    omega
  have hzero : j % 65536 = 0 → max h j % 65536 = 0 := by
    omega
  have hiff := @length_block_lt_iff file bs j hbs hj (by omega)
  rw [acceptData_eq hs.putActive hs.blockSize hs.space hstate hj hcur hoffset hroom]
  dsimp only
  have hstores {net : NetState} : Stores file bs (max h j) { client with
      prevBlock := j % 65536
      timeoutCountMax := client.tftpTimeoutCountMax
      mem := client.mem.write (client.loadAddr + (j - 1) * bs) (block file bs j)
      netBootFileSize := max client.netBootFileSize ((j - 1) * bs + (block file bs j).length)
      sent := client.sent ++ [.ack (j % 65536)]
      netState := net } := by
    refine ⟨hs.putActive, hs.blockSize, hs.space, hs.fits, stored_write hs.stored hj hjh hlast, ?_⟩
    dsimp only
    rw [hs.size]
    exact size_write hj hjh hlast
  have hne : max h j ≠ 0 := by omega
  split
  · rename_i hshort
    exact ⟨hstores, fun h ↦ absurd h hne, fun _ ↦ hstate, fun _ ↦ hdiv ▸ hoffset, fun _ ↦ hmod,
      fun _ ↦ hzero, fun h ↦ NetState.noConfusion h, fun _ ↦
        (hiff.1 hshort).ge.trans (le_max_right h j)⟩
  · rename_i hfull
    refine ⟨hrun ▸ hstores, fun h ↦ absurd h hne, fun _ ↦ hstate, fun _ ↦ hdiv ▸ hoffset,
      fun _ ↦ hmod, fun _ ↦ hzero, fun _ ↦ ?_, fun h ↦ NetState.noConfusion (hrun.symm.trans h)⟩
    have hjlast : j ≠ lastBlock file bs := fun h ↦ hfull (hiff.2 h)
    omega

/-- The client is about to store block `j`. -/
structure Awaits (file : List UInt8) (bs h j : ℕ) (client next : Client) : Prop
    extends Stores file bs h next where
  state : next.state = .data
  netState : next.netState = client.netState
  loadSize : next.loadSize = client.loadSize
  curBlock : next.curBlock = j % 65536
  offset : next.blockWrapOffset = ulong (bs * 65536 * (j / 65536) : ℕ)

/-- A wrap is counted when the next block is the first one behind it. -/
theorem updateBlockNumber_spec (hh : Holds file bs h client) (hne : h ≠ 0) (hjh : j ≤ h + 1)
    (hold : j ≤ h → j / 65536 = h / 65536 ∧ (j % 65536 = 0 → client.prevBlock = 0)) :
    Awaits file bs h j client { client with curBlock := j % 65536 }.updateBlockNumber ∧
      { client with curBlock := j % 65536 }.updateBlockNumber.prevBlock = client.prevBlock := by
  have hoffset := hh.offset hne
  have hpos := hh.prev_pos hne
  unfold Client.updateBlockNumber
  dsimp only
  split
  · rename_i hwrap
    obtain ⟨hzero, hprev⟩ := hwrap
    have hnext : ¬ j ≤ h := fun hle ↦ hprev ((hold hle).2 hzero)
    have hdiv : j / 65536 = h / 65536 + 1 := by omega
    refine ⟨⟨⟨hh.putActive, hh.blockSize, hh.space, hh.fits, hh.stored, hh.size⟩, hh.state hne, rfl,
      rfl, rfl, ?_⟩, rfl⟩
    dsimp only [tftpSequenceSize]
    rw [hoffset, hh.blockSize, hdiv, Nat.mul_add, Nat.mul_one]
    unfold ulong
    generalize bs * 65536 * (h / 65536) = w
    omega
  · rename_i hwrap
    refine ⟨⟨⟨hh.putActive, hh.blockSize, hh.space, hh.fits, hh.stored, hh.size⟩, hh.state hne, rfl,
      rfl, rfl, ?_⟩, rfl⟩
    have hdiv : j / 65536 = h / 65536 := by
      obtain hle | hlt := le_or_gt j h
      · exact (hold hle).1
      · have hzero : j % 65536 ≠ 0 := by
          intro hzero
          refine hwrap ⟨hzero, fun hprev ↦ ?_⟩
          have := hpos hprev
          omega
        omega
    rw [hdiv]
    exact hoffset

/-- A block that is no older than the wrap before it is stored at its place, or it is the one that
was received before. -/
theorem handleData_cases (hh : Holds file bs h client) (hj : 1 ≤ j) (hjh : j ≤ h + 1)
    (hold : j ≤ h → j / 65536 = h / 65536 ∧ (j % 65536 = 0 → client.prevBlock = 0)) :
    (∃ next, client.handleData (j % 65536) bytes = next.acceptData bytes ∧
      Awaits file bs h j client next ∧ (j ≤ h → j % 65536 ≠ 0)) ∨
    (j ≤ h ∧ Holds file bs h (client.handleData (j % 65536) bytes)) := by
  obtain rfl | hne := eq_or_ne h 0
  · -- the first block
    obtain rfl : j = 1 := by omega
    have hfirst : client.state = .sendRrq ∨ client.state = .oack ∨ client.state = .recvWrq :=
      (hh.first rfl).imp_right .inl
    have hupdate : { client with curBlock := 1 % 65536 }.updateBlockNumber =
        { client with curBlock := 1 } := if_neg (fun h ↦ Nat.one_ne_zero h.1)
    have hoffset : { client with curBlock := 1, state := .data }.newTransfer.blockWrapOffset =
        ulong (bs * 65536 * (1 / 65536) : ℕ) := by
      rw [Nat.div_eq_of_lt (by decide), Nat.mul_zero]
      rfl
    have hawaits : Awaits file bs 0 1 client
        { client with curBlock := 1, state := .data }.newTransfer :=
      ⟨⟨hh.putActive, hh.blockSize, hh.space, hh.fits, hh.stored, hh.size⟩, rfl, rfl, rfl,
        rfl, hoffset⟩
    have hprev : { client with curBlock := 1, state := .data }.newTransfer.prevBlock = 0 := rfl
    refine .inl ⟨_, ?_, hawaits, fun h ↦ absurd h (by decide)⟩
    unfold Client.handleData
    dsimp only
    rw [hupdate]
    dsimp only
    rw [decide_eq_true hfirst, if_pos rfl]
    generalize { client with curBlock := 1, state := .data }.newTransfer = next at *
    have hcur : next.curBlock = 1 := hawaits.curBlock
    rw [if_neg (fun h ↦ h.2 hcur), if_neg (by rw [hcur, hprev]; exact Nat.one_ne_zero)]
  · obtain ⟨hawaits, hprev⟩ := updateBlockNumber_spec hh hne hjh hold
    unfold Client.handleData
    dsimp only
    generalize { client with curBlock := j % 65536 }.updateBlockNumber = next at *
    have hfirst : ¬ (next.state = .sendRrq ∨ next.state = .oack ∨ next.state = .recvWrq) := by
      rw [hawaits.state]
      decide
    rw [decide_eq_false hfirst, if_neg Bool.false_ne_true, if_neg (fun h ↦ Bool.false_ne_true h.1),
      hawaits.curBlock, hprev]
    split
    · -- the block that was received before
      rename_i hsame
      have hle : j ≤ h := by
        have hprev_le := hh.prev_le hne
        have hprev_pos := hh.prev_pos hne
        omega
      refine .inr ⟨hle, hawaits.toStores, fun h ↦ absurd h hne, fun _ ↦ hawaits.state,
        fun _ ↦ (hold hle).1 ▸ hawaits.offset, ?_, ?_, ?_, ?_⟩
      · exact fun h ↦ hprev.trans_le (hh.prev_le h)
      · exact fun h hzero ↦ hh.prev_pos h (hprev.symm.trans hzero)
      · exact fun h ↦ hh.running (hawaits.netState.symm.trans h)
      · exact fun h ↦ hh.complete (hawaits.netState.symm.trans h)
    · rename_i hother
      exact .inl ⟨next, rfl, hawaits,
        fun hle hzero ↦ hother (hzero.trans ((hold hle).2 hzero).symm)⟩

/-- A block that is no older than the wrap before it is handled well. -/
theorem holds_handleData (hbs : 0 < bs) (hh : Holds file bs h client)
    (hrun : client.netState = .loopContinue) (hj : 1 ≤ j) (hjh : j ≤ h + 1)
    (hold : j ≤ h → j / 65536 = h / 65536 ∧ (j % 65536 = 0 → client.prevBlock = 0)) :
    Holds file bs (max h j) (client.handleData (j % 65536) (block file bs j)) := by
  obtain ⟨next, heq, hawaits, hzero⟩ | ⟨hle, hholds⟩ :=
    @handleData_cases file (block file bs j) bs h j client hh hj hjh hold
  · rw [heq]
    exact holds_acceptData hbs hawaits.toStores hawaits.state (hawaits.netState.trans hrun) hj
      hawaits.curBlock hawaits.offset hjh (hh.running hrun) fun hle ↦ ⟨(hold hle).1, hzero hle⟩
  · rwa [Nat.max_eq_left hle]

/-- A download sends requests and acknowledgements. -/
theorem exists_tftpSend_eq (hput : client.putActive = false) :
    ∃ pkt, client.tftpSend = client.send pkt := by
  unfold Client.tftpSend
  rw [hput]
  split
  · exact ⟨_, rfl⟩
  · exact ⟨_, rfl⟩
  · exact ⟨_, if_neg Bool.false_ne_true⟩
  · exact ⟨_, if_neg Bool.false_ne_true⟩
  · exact ⟨_, if_neg Bool.false_ne_true⟩

theorem holds_timeoutHandler (hh : Holds file bs h client) :
    Holds file bs h client.tftpTimeoutHandler := by
  have hstores {sent : List Packet} {n : ℕ} {net : NetState} : Stores file bs h { client with
      sent := sent, timeoutCount := n, netState := net } :=
    ⟨hh.putActive, hh.blockSize, hh.space, hh.fits, hh.stored, hh.size⟩
  unfold Client.tftpTimeoutHandler
  dsimp only
  split
  · exact ⟨hstores, hh.first, hh.state, hh.offset, hh.prev_le, hh.prev_pos,
      fun h ↦ NetState.noConfusion h, fun h ↦ NetState.noConfusion h⟩
  · split
    · obtain ⟨pkt, hpkt⟩ := @exists_tftpSend_eq
        { client with timeoutCount := client.timeoutCount + 1 } hh.putActive
      rw [hpkt]
      exact ⟨hstores, hh.first, hh.state, hh.offset, hh.prev_le, hh.prev_pos, hh.running,
        hh.complete⟩
    · exact ⟨hstores, hh.first, hh.state, hh.offset, hh.prev_le, hh.prev_pos, hh.running,
        hh.complete⟩

/-! ## Runs -/

/-- A client, a server that has sent the blocks up to number `sent`, and the number of the highest
block that the client has received. -/
structure Download where
  client : Client
  sent : ℕ
  received : ℕ

/-- What arrives: a block for the client, an acknowledgement for the server, or nothing in time. -/
inductive Download.Event
  | data (j : ℕ)
  | ack (n : ℕ)
  | timeout

/-- Every packet that was sent can arrive.  The server takes an acknowledgement by its number for
that of the block it has sent last. -/
inductive Download.Step (file : List UInt8) (bs : ℕ) : Download → Event → Download → Prop
  | data {s : Download} {j : ℕ} : s.client.netState = .loopContinue → 1 ≤ j → j ≤ s.sent →
    Step file bs s (.data j)
      { s with
        client := s.client.tftpHandler (.data (j % 65536) (block file bs j))
        received := max s.received j }
  | next {s : Download} {n : ℕ} : .ack n ∈ s.client.sent → n = s.sent % 65536 →
    s.sent < lastBlock file bs → Step file bs s (.ack n) { s with sent := s.sent + 1 }
  | other {s : Download} {n : ℕ} : .ack n ∈ s.client.sent →
    ¬ (n = s.sent % 65536 ∧ s.sent < lastBlock file bs) → Step file bs s (.ack n) s
  | timeout {s : Download} : s.client.netState = .loopContinue →
    Step file bs s .timeout { s with client := s.client.tftpTimeoutHandler }

/-- What arrives is not taken for something younger: a block is not from before the last wrap, a
block with the number zero is new or follows itself, and an acknowledgement is not taken for that of
a block the client has not got. -/
def Download.Young (s : Download) : Event → Prop
  | .data j => j ≤ s.received →
    j / 65536 = s.received / 65536 ∧ (j % 65536 = 0 → s.client.prevBlock = 0)
  | .ack n => n = s.sent % 65536 → s.sent ≤ s.received
  | .timeout => True

/-- The start of a download: the request is sent, and its options are acknowledged or ignored. -/
structure Download.Begins (file : List UInt8) (bs : ℕ) (s : Download) : Prop where
  client : ∃ stale : Client, stale.netState = .loopContinue ∧ stale.netBootFileSize = 0 ∧
    stale.sent = [] ∧ (s.client = stale.tftpStart false ∨
      ∃ blksize, s.client = (stale.tftpStart false).tftpHandler (.oack blksize))
  blockSize : s.client.blockSize = bs
  sent : s.sent = 1
  received : s.received = 0

/-- What holds at every point of a download. -/
structure Download.Inv (file : List UInt8) (bs : ℕ) (s : Download) : Prop where
  holds : Holds file bs s.received s.client
  sent_le : s.sent ≤ s.received + 1
  sent_last : s.sent ≤ lastBlock file bs

theorem Download.Inv.step {s t : Download} {e : Event} (hbs : 0 < bs) (hs : s.Inv file bs)
    (hstep : Step file bs s e t) (hyoung : s.Young e) : t.Inv file bs := by
  cases hstep with
  | data hrun hj hsent =>
    have hjh := hsent.trans hs.sent_le
    refine ⟨holds_handleData hbs hs.holds hrun hj hjh hyoung, ?_, hs.sent_last⟩
    exact hs.sent_le.trans (Nat.succ_le_succ (le_max_left _ _))
  | next _ hn hlast => exact ⟨hs.holds, Nat.succ_le_succ (hyoung hn), hlast⟩
  | other => exact hs
  | timeout => exact ⟨holds_timeoutHandler hs.holds, hs.sent_le, hs.sent_last⟩

theorem Download.Begins.inv {s : Download} (h : s.Begins file bs)
    (hspace : s.client.loadAddr + s.client.loadSize < 2 ^ 32)
    (hfits : file.length ≤ s.client.loadSize) : s.Inv file bs := by
  obtain ⟨⟨stale, hnet, hsize, -, hclient⟩, hbs, hsent, hreceived⟩ := h
  have hlast : 1 ≤ lastBlock file bs := Nat.succ_le_succ (Nat.zero_le _)
  have hstored : s.client.mem.At s.client.loadAddr (file.take (0 * bs)) := by
    rw [Nat.zero_mul, List.take_zero]
    exact Mem.at_nil
  have hkeeps : s.client.putActive = false ∧ s.client.netBootFileSize = 0 ∧
      s.client.netState = .loopContinue ∧
      (s.client.state = .sendRrq ∨ s.client.state = .oack) := by
    obtain hclient | ⟨blksize, hclient⟩ := hclient
    · rw [hclient]
      exact ⟨rfl, hsize, hnet, .inl rfl⟩
    · rw [hclient]
      exact ⟨rfl, hsize, hnet, .inr rfl⟩
  obtain ⟨hput, hsize, hnet, hstate⟩ := hkeeps
  refine ⟨?_, by omega, by omega⟩
  rw [hreceived]
  refine ⟨⟨hput, hbs, hspace, hfits, hstored, ?_⟩, fun _ ↦ hstate, fun h ↦ absurd rfl h,
    fun h ↦ absurd rfl h, fun h ↦ absurd rfl h, fun h ↦ absurd rfl h, fun _ ↦ hlast, ?_⟩
  · rw [hsize, Nat.zero_mul, Nat.zero_min]
  · exact fun h ↦ NetState.noConfusion (hnet.symm.trans h)

/-- The memory at the load address has the file. -/
def Client.HasFile (file : List UInt8) (client : Client) : Prop :=
  client.mem.slice client.loadAddr file.length = file ∧ client.netBootFileSize = file.length

/-- A download that is complete has the file, if nothing old is taken for something young. -/
theorem hasFile_of_young (file : List UInt8) (bs : ℕ) (s t : Download)
    (events : List Download.Event) (hbs : 0 < bs) (hbegins : s.Begins file bs)
    (hspace : s.client.loadAddr + s.client.loadSize < 2 ^ 32)
    (hfits : file.length ≤ s.client.loadSize)
    (hrun : Run (fun s e t ↦ Download.Step file bs s e t ∧ s.Young e) s events t)
    (hcomplete : t.client.netState = .loopSuccess) : t.client.HasFile file := by
  have hinv : t.Inv file bs := by
    refine hrun.invariant ?_ (hbegins.inv hspace hfits)
    exact fun s e t hs hstep ↦ hs.step hbs hstep.1 hstep.2
  have hall : file.length ≤ t.received * bs := by
    have hlast := Nat.mul_le_mul_right bs (hinv.holds.complete hcomplete)
    have hlt := Nat.lt_mul_div_succ file.length hbs
    rw [Nat.mul_comm] at hlt
    exact hlt.le.trans hlast
  have hstored := hinv.holds.stored
  rw [List.take_of_length_le hall] at hstored
  refine ⟨hstored, ?_⟩
  rw [hinv.holds.size, Nat.min_eq_right hall]

/-! ## Late blocks -/

/-- A client before its first transfer. -/
def idle (loadSize : ℕ) : Client where
  timeoutCount := 0
  timeoutCountMax := 10
  tftpTimeoutCountMax := 10
  curBlock := 0
  prevBlock := 0
  blockWrap := 0
  blockWrapOffset := 0
  state := .sendRrq
  loadAddr := 0
  loadSize := loadSize
  saveAddr := 0
  saveSize := 0
  putActive := false
  putFinalBlockSent := false
  blockSize := 512
  netBootFileSize := 0
  netState := .loopContinue
  mem := fun _ ↦ 0
  sent := []

/-- The start of a download with blocks of `bs` bytes. -/
def Download.start (loadSize bs : ℕ) : Download :=
  ⟨((idle loadSize).tftpStart false).tftpHandler (.oack (some bs)), 1, 0⟩

theorem Download.begins_start (file : List UInt8) (loadSize : ℕ) (hbs : bs < 65536) :
    (start loadSize bs).Begins file bs :=
  ⟨⟨idle loadSize, rfl, rfl, rfl, .inr ⟨some bs, rfl⟩⟩, Nat.mod_eq_of_lt hbs, rfl, rfl⟩

/-- A file of two blocks, the first of which arrives twice. -/
theorem hasFile_twoBlocks :
    let first := (Download.start 16 2).client.tftpHandler (.data 1 [7, 8])
    ((first.tftpHandler (.data 1 [7, 8])).tftpHandler (.data 2 [9])).HasFile [7, 8, 9] := by
  refine hasFile_of_young [7, 8, 9] 2 (Download.start 16 2) ⟨_, 2, 2⟩
    [.data 1, .data 1, .ack 1, .data 2] (by decide) (Download.begins_start [7, 8, 9] 16 (by decide))
    (by decide) (by decide) ?_ rfl
  exact .cons ⟨.data rfl le_rfl le_rfl, fun h ↦ absurd h (by decide)⟩
    (.cons ⟨.data rfl le_rfl le_rfl, fun _ ↦ ⟨rfl, fun h ↦ absurd h (by decide)⟩⟩
      (.cons ⟨.next (by decide) rfl (by decide), fun _ ↦ le_rfl⟩
        (.cons ⟨.data rfl (by decide) le_rfl, fun h ↦ absurd h (by decide)⟩ (.nil _))))

/-- The next block is stored and acknowledged, and the transfer goes on if the block is not the
last. -/
theorem handleData_next (hh : Holds file bs h client)
    (hrun : client.netState = .loopContinue) (hlast : h + 1 < lastBlock file bs) :
    let next := client.handleData ((h + 1) % 65536) (block file bs (h + 1))
    next.netState = .loopContinue ∧ next.loadSize = client.loadSize ∧
      .ack ((h + 1) % 65536) ∈ next.sent := by
  obtain ⟨next, heq, hawaits, -⟩ | ⟨hle, -⟩ :=
    @handleData_cases file (block file bs (h + 1)) bs h (h + 1) client hh (Nat.succ_pos h) le_rfl
      (fun hle ↦ absurd hle (Nat.not_succ_le_self h))
  · have hfull := length_block_of_lt (Nat.succ_pos h) hlast
    have hroom : (h + 1 - 1) * bs + (block file bs (h + 1)).length ≤ next.loadSize := by
      rw [Nat.add_sub_cancel, hfull, ← Nat.succ_mul]
      exact (mul_le_length hlast).trans hawaits.fits
    dsimp only
    rw [heq, acceptData_eq hawaits.putActive hawaits.blockSize hawaits.space hawaits.state
      (Nat.succ_pos h) hawaits.curBlock hawaits.offset hroom]
    dsimp only
    rw [if_neg (by rw [hfull]; exact lt_irrefl bs)]
    exact ⟨hawaits.netState.trans hrun, hawaits.loadSize,
      List.mem_append_right _ (List.mem_singleton_self _)⟩
  · exact absurd hle (Nat.not_succ_le_self h)

/-- The blocks before the last one can arrive one by one. -/
theorem exists_run (hbs : 0 < bs) {s : Download} (hs : s.Inv file bs) (hsent : s.sent = 1)
    (hreceived : s.received = 0) (hrun : s.client.netState = .loopContinue) {k : ℕ}
    (hlast : k < lastBlock file bs) : ∃ events t,
      Run (fun s e t ↦ Download.Step file bs s e t ∧ s.Young e) s events t ∧ t.received = k ∧
        t.sent = k + 1 ∧ t.client.netState = .loopContinue ∧
        t.client.loadSize = s.client.loadSize := by
  induction k with
  | zero => exact ⟨[], s, .nil s, hreceived, hsent, hrun, rfl⟩
  | succ k ih =>
    obtain ⟨events, t, hevents, hk, htsent, htrun, hsize⟩ := ih (Nat.lt_of_succ_lt hlast)
    have ht : t.Inv file bs :=
      hevents.invariant (fun s e t hs hstep ↦ hs.step hbs hstep.1 hstep.2) hs
    have hh := ht.holds
    rw [hk] at hh
    obtain ⟨hnet, hload, hack⟩ := handleData_next hh htrun hlast
    have hnew : max t.received (k + 1) = k + 1 := by
      rw [hk]
      exact Nat.max_eq_right (Nat.le_succ k)
    have hdata : Download.Step file bs t (.data (k + 1))
        ⟨t.client.handleData ((k + 1) % 65536) (block file bs (k + 1)), k + 1, k + 1⟩ := by
      have hstep := @Download.Step.data file bs t (k + 1) htrun (Nat.succ_pos k) htsent.ge
      rw [hnew, htsent] at hstep
      exact hstep
    refine ⟨events ++ [.data (k + 1), .ack ((k + 1) % 65536)], _, hevents.append
      (.cons ⟨hdata, ?_⟩ (.cons ⟨.next hack rfl hlast, ?_⟩ (.nil _))), rfl, rfl, hnet,
        hload.trans hsize⟩
    · intro hle
      rw [hk] at hle
      exact absurd hle (Nat.not_succ_le_self k)
    · exact fun _ ↦ le_rfl

/-- A block whose number is not that of the one before. -/
theorem handleData_of_ne (hstate : client.state = .data) (hj : j % 65536 ≠ 0)
    (hne : j % 65536 ≠ client.prevBlock) :
    client.handleData (j % 65536) bytes = { client with curBlock := j % 65536 }.acceptData
      bytes := by
  have hupdate : { client with curBlock := j % 65536 }.updateBlockNumber =
      { client with curBlock := j % 65536 } := if_neg fun h ↦ hj h.1
  have hfirst : ¬ (client.state = .sendRrq ∨ client.state = .oack ∨ client.state = .recvWrq) := by
    rw [hstate]
    decide
  unfold Client.handleData
  dsimp only
  rw [hupdate]
  dsimp only
  rw [decide_eq_false hfirst, if_neg Bool.false_ne_true, if_neg (fun h ↦ Bool.false_ne_true h.1),
    if_neg hne]

/-- A client with blocks of one byte behind the first wrap. -/
structure Wrapped (p m : ℕ) (client : Client) : Prop where
  putActive : client.putActive = false
  blockSize : client.blockSize = 1
  space : client.loadAddr + client.loadSize < 2 ^ 32
  room : 131072 ≤ client.loadSize
  state : client.state = .data
  offset : client.blockWrapOffset = 65536
  prevBlock : client.prevBlock = p
  size : m ≤ client.netBootFileSize

theorem Wrapped.deliver {p m : ℕ} (h : Wrapped p m client) (hj : j / 65536 = 1)
    (hzero : j % 65536 ≠ 0) (hne : j % 65536 ≠ p) (hbytes : bytes.length ≤ 1) :
    let next := client.handleData (j % 65536) bytes
    Wrapped (j % 65536) (max m (j - 1 + bytes.length)) next ∧ .ack (j % 65536) ∈ next.sent ∧
      next.netState = if bytes.length < 1 then .loopSuccess else client.netState := by
  have hsize := h.size
  have hpos : 1 ≤ j := by omega
  have hroom : (j - 1) * 1 + bytes.length ≤ client.loadSize := by
    have := h.room
    omega
  have hoffset : client.blockWrapOffset = ulong (1 * 65536 * (j / 65536) : ℕ) := by
    rw [h.offset, hj]
    rfl
  dsimp only
  rw [handleData_of_ne h.state hzero (h.prevBlock ▸ hne), @acceptData_eq bytes 1 j
    { client with curBlock := j % 65536 } h.putActive h.blockSize h.space h.state hpos rfl
      hoffset hroom]
  dsimp only
  have hmax : max m (j - 1 + bytes.length) ≤ max client.netBootFileSize
      ((j - 1) * 1 + bytes.length) := by
    rw [Nat.mul_one]
    exact max_le_max_right _ hsize
  split
  · exact ⟨⟨h.putActive, h.blockSize, h.space, h.room, h.state, h.offset, rfl, hmax⟩,
      List.mem_append_right _ (List.mem_singleton_self _), rfl⟩
  · exact ⟨⟨h.putActive, h.blockSize, h.space, h.room, h.state, h.offset, rfl, hmax⟩,
      List.mem_append_right _ (List.mem_singleton_self _), rfl⟩

/-- Behind the first wrap, block 65535 is taken for block 131071. -/
theorem not_hasFile_late : ¬ ∀ (file : List UInt8) (bs : ℕ) (s t : Download)
    (events : List Download.Event), 0 < bs → s.Begins file bs →
    s.client.loadAddr + s.client.loadSize < 2 ^ 32 → file.length ≤ s.client.loadSize →
    Run (Download.Step file bs) s events t → t.client.netState = .loopSuccess →
    t.client.HasFile file := by
  intro hall
  obtain ⟨file, hlength⟩ : ∃ file : List UInt8, file.length = 65537 :=
    ⟨List.replicate 65537 0, List.length_replicate⟩
  have hlast : lastBlock file 1 = 65538 := by
    rw [lastBlock, hlength]
  have hbegins := @Download.begins_start 1 file (2 ^ 20) (by decide)
  have hfits : file.length ≤ (Download.start (2 ^ 20) 1).client.loadSize := by
    rw [hlength]
    decide
  have hinv := hbegins.inv (by decide) hfits
  -- the blocks up to the first one behind the wrap arrive
  obtain ⟨events, t, hrun, hreceived, hsent, hnet, hsize⟩ :=
    @exists_run file 1 (by decide) _ hinv rfl rfl rfl 65536 (by rw [hlast]; decide)
  have ht : t.Inv file 1 :=
    hrun.invariant (fun s e t hs hstep ↦ hs.step one_pos hstep.1 hstep.2) hinv
  have hh := ht.holds
  rw [hreceived] at hh
  have hwrapped : Wrapped 0 0 t.client := by
    refine ⟨hh.putActive, hh.blockSize, hh.space, ?_, hh.state (by decide),
      hh.offset (by decide), ?_, Nat.zero_le _⟩
    · rw [hsize]
      decide
    · exact Nat.le_zero.1 (hh.prev_le (by decide))
  have hfull {j : ℕ} (hj : 1 ≤ j) (hlt : j < 65538) : (block file 1 j).length = 1 :=
    length_block_of_lt hj (hlast.symm ▸ hlt)
  have hempty : (block file 1 65538).length = 0 := by
    rw [length_block, hlength]
    rfl
  -- then block 65535 again
  have hstep₁ : Download.Step file 1 t (.data 65535)
      ⟨t.client.handleData (131071 % 65536) (block file 1 65535), t.sent, max t.received 65535⟩ :=
    .data hnet (by decide) (by rw [hsent]; decide)
  obtain ⟨hwrapped₁, -, hnet₁⟩ := @Wrapped.deliver (block file 1 65535) 131071 t.client 0 0 hwrapped
    (by decide) (by decide) (by decide) (hfull (by decide) (by decide)).le
  rw [hfull (by decide) (by decide), if_neg (lt_irrefl 1)] at hnet₁
  rw [hfull (by decide) (by decide)] at hwrapped₁
  generalize t.client.handleData (131071 % 65536) (block file 1 65535) = c₁ at *
  -- and the two that are left
  have hstep₂ : Download.Step file 1 ⟨c₁, t.sent, max t.received 65535⟩ (.data 65537)
      ⟨c₁.handleData (65537 % 65536) (block file 1 65537), t.sent,
        max (max t.received 65535) 65537⟩ :=
    .data (hnet₁.trans hnet) (by decide) hsent.ge
  obtain ⟨hwrapped₂, hack₂, hnet₂⟩ := @Wrapped.deliver (block file 1 65537) 65537 _ _ _ hwrapped₁
    (by decide) (by decide) (by decide) (hfull (by decide) (by decide)).le
  rw [hfull (by decide) (by decide), if_neg (lt_irrefl 1)] at hnet₂
  generalize c₁.handleData (65537 % 65536) (block file 1 65537) = c₂ at *
  generalize max (max t.received 65535) 65537 = r at *
  have hstep₃ : Download.Step file 1 ⟨c₂, t.sent, r⟩ (.ack (65537 % 65536)) ⟨c₂, t.sent + 1, r⟩ :=
    .next hack₂ (by rw [hsent]) (by rw [hsent, hlast]; decide)
  have hstep₄ : Download.Step file 1 ⟨c₂, t.sent + 1, r⟩ (.data 65538)
      ⟨c₂.handleData (65538 % 65536) (block file 1 65538), t.sent + 1, max r 65538⟩ :=
    .data (hnet₂.trans (hnet₁.trans hnet)) (by decide) (by rw [hsent])
  obtain ⟨hwrapped₃, -, hnet₃⟩ := @Wrapped.deliver (block file 1 65538) 65538 _ _ _ hwrapped₂
    (by decide) (by decide) (by decide) (hempty.trans_le (by decide))
  rw [hempty, if_pos one_pos] at hnet₃
  have hrun' := (hrun.mono_of_invariant (I := fun _ ↦ True) (fun _ _ _ _ h ↦ ⟨trivial, h.1⟩)
    trivial).append (.cons hstep₁ (.cons hstep₂ (.cons hstep₃ (.cons hstep₄ (.nil _)))))
  have hfile := (hall file 1 _ _ _ one_pos hbegins (by decide) hfits hrun' hnet₃).2
  have hle := (le_max_left _ _).trans ((le_max_left _ _).trans hwrapped₃.size)
  rw [hfile, hlength] at hle
  exact absurd hle (by decide)

end MiniPi.Tftp
