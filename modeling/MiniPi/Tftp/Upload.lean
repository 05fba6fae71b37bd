import MiniPi.Tftp.Download

/-!
# Uploads

A client and a server that takes the blocks in order and acknowledges them.  A wrap of the numbers
is never counted, since no number of a received block is noted, and behind the last block any
acknowledgement ends the transfer.
-/

namespace MiniPi.Tftp

open Lib

variable {file bytes : List UInt8} {bs m n j : ℕ} {client : Client} {pkt : Packet}

/-! ## Blocks that are sent -/

/-- The packet with block number `j`. -/
def dataPacket (file : List UInt8) (bs j : ℕ) : Packet := .data (j % 65536) (block file bs j)

def Packet.isData : Packet → Bool
  | .data _ _ => true
  | _ => false

/-- The packets with data, each one at its first place. -/
def Client.dataSent (client : Client) : List Packet := (client.sent.filter Packet.isData).eraseDups

theorem mem_dataSent : pkt ∈ client.dataSent ↔ pkt ∈ client.sent ∧ pkt.isData = true := by
  rw [Client.dataSent, List.mem_eraseDups, List.mem_filter]

/-- A block is sent again or for the first time. -/
theorem dataSent_send (hpkt : pkt.isData = true) :
    (client.send pkt).dataSent =
      if pkt ∈ client.dataSent then client.dataSent else client.dataSent ++ [pkt] := by
  have hmem : pkt ∈ client.dataSent ↔ pkt ∈ client.sent.filter Packet.isData := List.mem_eraseDups
  unfold Client.dataSent Client.send
  dsimp only
  rw [List.filter_append, List.filter_singleton, hpkt, cond_true, List.eraseDups_append]
  split
  · rename_i h
    have hall : [pkt].removeAll (client.sent.filter Packet.isData) = [] := by
      rw [List.removeAll, List.filter_eq_nil_iff]
      intro p hp
      rw [List.mem_singleton.1 hp, Bool.not_eq_true, Bool.not_eq_false', List.elem_iff]
      exact hmem.1 h
    rw [hall, List.eraseDups_nil, List.append_nil]
  · rename_i h
    have hnone : [pkt].removeAll (client.sent.filter Packet.isData) = [pkt] := by
      rw [List.removeAll, List.filter_eq_self]
      intro p hp
      rw [List.mem_singleton.1 hp, Bool.not_eq_true', ← Bool.not_eq_true, List.elem_iff]
      exact fun hmem' ↦ h (hmem.2 hmem')
    rw [hnone]
    rfl

theorem dataSent_send_of_not (hpkt : pkt.isData = false) :
    (client.send pkt).dataSent = client.dataSent := by
  unfold Client.dataSent Client.send
  dsimp only
  rw [List.filter_append, List.filter_singleton, hpkt, cond_false, List.append_nil]

/-- The first `m` blocks, in order. -/
def firstBlocks (file : List UInt8) (bs m : ℕ) : List Packet :=
  (List.range m).map fun i ↦ dataPacket file bs (i + 1)

theorem mem_firstBlocks : pkt ∈ firstBlocks file bs m ↔ ∃ j, 1 ≤ j ∧ j ≤ m ∧
    pkt = dataPacket file bs j := by
  unfold firstBlocks
  rw [List.mem_map]
  constructor
  · rintro ⟨i, hi, rfl⟩
    exact ⟨i + 1, Nat.succ_pos i, List.mem_range.1 hi, rfl⟩
  · rintro ⟨j, hj, hjm, rfl⟩
    exact ⟨j - 1, List.mem_range.2 (by omega), by rw [Nat.sub_add_cancel hj]⟩

/-- The numbers of fewer than 65536 blocks tell them apart. -/
theorem dataPacket_mem_iff (hj : 1 ≤ j) (hsmall : j < 65536) (hm : m < 65536) :
    dataPacket file bs j ∈ firstBlocks file bs m ↔ j ≤ m := by
  rw [mem_firstBlocks]
  constructor
  · rintro ⟨i, hi, him, heq⟩
    have hnumber : j % 65536 = i % 65536 := (Packet.data.inj heq).1
    rw [Nat.mod_eq_of_lt hsmall, Nat.mod_eq_of_lt (him.trans_lt hm)] at hnumber
    exact hnumber.trans_le him
  · exact fun hjm ↦ ⟨j, hj, hjm, rfl⟩

theorem firstBlocks_succ (file : List UInt8) (bs m : ℕ) :
    firstBlocks file bs (m + 1) = firstBlocks file bs m ++ [dataPacket file bs (m + 1)] := by
  unfold firstBlocks
  rw [List.range_succ, List.map_append, List.map_singleton]

/-! ## The client -/

/-- A client that uploads a file. -/
structure Uploads (file : List UInt8) (bs : ℕ) (client : Client) : Prop where
  putActive : client.putActive = true
  blockSize : client.blockSize = bs
  space : client.saveAddr + file.length ≤ 2 ^ 32
  length : file.length < 2 ^ 32
  saved : client.mem.At client.saveAddr file
  size : client.netBootFileSize = file.length
  prevBlock : client.prevBlock = 0
  offset : client.blockWrapOffset = 0

theorem loadBlock_eq (hc : Uploads file bs client) (hj : 1 ≤ j) (hle : (j - 1) * bs ≤ file.length) :
    client.loadBlock j bs = block file bs j := by
  have hspace := hc.space
  have hlength := hc.length
  have hoffset : ulong (((j : ℤ) - 1) * bs + client.blockWrapOffset) = (j - 1) * bs := by
    have hcast : ((j : ℤ) - 1) * bs + (0 : ℕ) = ((j - 1) * bs : ℕ) := by
      rw [Nat.cast_mul, Nat.cast_sub hj, Nat.cast_one, Nat.cast_zero, add_zero]
    rw [hc.offset, hcast]
    generalize (j - 1) * bs = o at *
    unfold ulong
    omega
  unfold Client.loadBlock
  dsimp only
  rw [hoffset, hc.size, block]
  generalize (j - 1) * bs = o at *
  have hleft : ulong ((file.length : ℤ) - o) = file.length - o := by
    unfold ulong
    omega
  rw [hleft]
  obtain hempty | hlt := hle.eq_or_lt
  · rw [hempty, Nat.sub_self, Nat.zero_min, List.drop_length, List.take_nil]
    rfl
  · have haddr : ulong ((client.saveAddr : ℤ) + o) = client.saveAddr + o := by
      unfold ulong
      omega
    have hpart := @Mem.At.part _ _ (min (file.length - o) bs) file o hc.saved (by omega)
    have hlen : ((file.drop o).take (min (file.length - o) bs)).length =
        min (file.length - o) bs := by
      rw [List.length_take, List.length_drop]
      omega
    have htake : (file.drop o).take (min (file.length - o) bs) = (file.drop o).take bs := by
      rw [List.take_eq_take_iff, List.length_drop]
      omega
    rw [Mem.At, hlen] at hpart
    rw [haddr, hpart, htake]

/-- The client has sent the first `m` blocks, and block `client.curBlock` is the next one to be
sent. -/
structure Going (file : List UInt8) (bs m : ℕ) (client : Client) : Prop
    extends Uploads file bs client where
  state : client.state = .data
  sent : client.dataSent = firstBlocks file bs m
  small : m < 65536
  cur_pos : 1 ≤ client.curBlock
  cur_small : client.curBlock < 65536
  room : (client.curBlock - 1) * bs ≤ file.length
  final : client.putFinalBlockSent = true → client.curBlock = m ∧ (block file bs m).length < bs
  going : client.putFinalBlockSent = false → m * bs ≤ file.length ∧ client.curBlock ≤ m + 1

/-- A block that is not full lies at the end of the file. -/
theorem mul_le_of_not_short (hj : 1 ≤ j) (hle : (j - 1) * bs ≤ file.length)
    (h : ¬ (block file bs j).length < bs) : j * bs ≤ file.length := by
  obtain ⟨j, rfl⟩ := Nat.exists_eq_add_of_le' hj
  rw [length_block] at h
  rw [Nat.add_sub_cancel] at h hle
  rw [Nat.succ_mul]
  omega

/-- A block is sent. -/
theorem going_tftpSend (hc : Uploads file bs client) (hstate : client.state = .data)
    (hsent : client.dataSent = firstBlocks file bs m) (hsmall : m < 65536)
    (hpos : 1 ≤ client.curBlock) (hcur : client.curBlock < 65536) (hle : client.curBlock ≤ m + 1)
    (hfull : client.curBlock ≠ m → m * bs ≤ file.length)
    (hroom : (client.curBlock - 1) * bs ≤ file.length) :
    Going file bs (max m client.curBlock) client.tftpSend := by
  have hblock := loadBlock_eq hc hpos hroom
  have hpkt : Packet.data (client.curBlock % 65536) (block file bs client.curBlock) =
      dataPacket file bs client.curBlock := rfl
  have hdata := @dataSent_send client (dataPacket file bs client.curBlock) rfl
  rw [hsent] at hdata
  have hsend : (client.send (dataPacket file bs client.curBlock)).dataSent =
      firstBlocks file bs (max m client.curBlock) := by
    rw [hdata]
    split
    · rename_i hmem
      rw [dataPacket_mem_iff hpos hcur hsmall] at hmem
      rw [Nat.max_eq_left hmem]
    · rename_i hmem
      rw [dataPacket_mem_iff hpos hcur hsmall] at hmem
      have heq : client.curBlock = m + 1 := by omega
      rw [heq, Nat.max_eq_right (Nat.le_succ m), firstBlocks_succ]
  unfold Client.tftpSend
  rw [hstate]
  dsimp only
  rw [if_pos hc.putActive, hc.blockSize, hblock, hpkt]
  refine ⟨⟨hc.putActive, hc.blockSize, hc.space, hc.length, hc.saved, hc.size, hc.prevBlock,
    hc.offset⟩, hstate, hsend, max_lt hsmall hcur, hpos, hcur, hroom, ?_, ?_⟩
  · intro h
    have hshort : (block file bs client.curBlock).length < bs := of_decide_eq_true h
    have hm : m ≤ client.curBlock := by
      by_contra hlt
      have hmul : client.curBlock * bs ≤ m * bs := Nat.mul_le_mul_right bs (by omega)
      have hend := hfull (by omega)
      rw [length_block] at hshort
      obtain ⟨i, hi⟩ := Nat.exists_eq_add_of_le' hpos
      rw [hi, Nat.add_sub_cancel] at hshort
      rw [hi, Nat.succ_mul] at hmul
      omega
    rw [Nat.max_eq_right hm]
    exact ⟨rfl, hshort⟩
  · intro h
    have hnot := mul_le_of_not_short hpos hroom (of_decide_eq_false h)
    refine ⟨?_, Nat.le_succ_of_le (le_max_right _ _)⟩
    obtain hm | hm := le_or_gt m client.curBlock
    · rw [Nat.max_eq_right hm]
      exact hnot
    · rw [Nat.max_eq_left hm.le]
      exact hfull hm.ne

/-- A block is sent again, or the next one for the first time. -/
theorem Going.resend (h : Going file bs m client) :
    ∃ m', m ≤ m' ∧ Going file bs m' client.tftpSend := by
  refine ⟨_, le_max_left _ _,
    going_tftpSend h.toUploads h.state h.sent h.small h.cur_pos h.cur_small
    ?_ ?_ h.room⟩
  · cases hfinal : client.putFinalBlockSent with
    | true => exact (h.final hfinal).1.trans_le (Nat.le_succ m)
    | false => exact (h.going hfinal).2
  · intro hne
    cases hfinal : client.putFinalBlockSent with
    | true => exact absurd (h.final hfinal).1 hne
    | false => exact (h.going hfinal).1

theorem updateBlockNumber_of_prev (hprev : client.prevBlock = 0) :
    client.updateBlockNumber = client :=
  if_neg fun h ↦ h.2 hprev

/-- An acknowledgement of a block that was sent, before the last one is sent. -/
theorem Going.handleAck (h : Going file bs m client) (hfinal : client.putFinalBlockSent = false)
    (hn : n ≤ m) (hne : n ≠ 65535) :
    ∃ m', m ≤ m' ∧ Going file bs m' (client.handleAck n) := by
  have hsmall := h.small
  obtain ⟨hend, -⟩ := h.going hfinal
  have hnext : (n + 1) % 65536 = n + 1 := Nat.mod_eq_of_lt (by omega)
  have hroom : n * bs ≤ file.length := (Nat.mul_le_mul_right bs hn).trans hend
  have hgoing : Going file bs m { client with curBlock := n + 1 } :=
    ⟨⟨h.putActive, h.blockSize, h.space, h.length, h.saved, h.size, h.prevBlock, h.offset⟩, h.state,
      h.sent, h.small, Nat.succ_pos n, by dsimp only; omega, hroom,
      fun h ↦ absurd (hfinal.symm.trans h) Bool.false_ne_true, fun _ ↦ ⟨hend, Nat.succ_le_succ hn⟩⟩
  unfold Client.handleAck
  rw [if_pos h.putActive, if_neg (by rw [hfinal]; exact Bool.false_ne_true), hnext]
  dsimp only
  rw [updateBlockNumber_of_prev (by exact h.prevBlock)]
  split
  · exact hgoing.resend
  · exact ⟨m, le_rfl, hgoing⟩

/-- An acknowledgement behind the last block. -/
theorem handleAck_of_final (hput : client.putActive = true)
    (hfinal : client.putFinalBlockSent = true) :
    client.handleAck n = client.tftpComplete := by
  unfold Client.handleAck
  rw [if_pos hput, if_pos hfinal]

/-- The client waits for an answer to its request. -/
structure Asks (file : List UInt8) (client : Client) : Prop
    extends Uploads file tftpBlockSize client where
  state : client.state = .sendWrq
  sent : client.dataSent = []
  final : client.putFinalBlockSent = false

theorem Asks.tftpSend_eq (h : Asks file client) : client.tftpSend = client.send .request := by
  unfold Client.tftpSend
  rw [h.state]

theorem Asks.resend (h : Asks file client) : Asks file client.tftpSend := by
  rw [h.tftpSend_eq]
  exact ⟨⟨h.putActive, h.blockSize, h.space, h.length, h.saved, h.size, h.prevBlock, h.offset⟩,
    h.state, (dataSent_send_of_not rfl).trans h.sent, h.final⟩

/-- A server that acknowledges the request without options is not understood. -/
theorem Asks.handleAck (h : Asks file client) : Asks file (client.handleAck n) := by
  have hasks : Asks file { client with curBlock := (n + 1) % 65536 } :=
    ⟨⟨h.putActive, h.blockSize, h.space, h.length, h.saved, h.size, h.prevBlock, h.offset⟩, h.state,
      h.sent, h.final⟩
  unfold Client.handleAck
  rw [if_pos h.putActive, if_neg (by rw [h.final]; exact Bool.false_ne_true)]
  dsimp only
  rw [updateBlockNumber_of_prev (by exact h.prevBlock)]
  split
  · exact hasks.resend
  · exact hasks

/-- The options are accepted, and the first block is sent. -/
theorem Asks.handleOack {blksize : Option ℕ} (h : Asks file client) (hcur : client.curBlock = 0)
    (hbs : bs = (blksize.map (· % 65536)).getD tftpBlockSize) :
    Going file bs 1 (client.handleOack blksize) := by
  unfold Client.handleOack
  dsimp only
  rw [if_pos h.putActive, hcur, h.blockSize, ← hbs]
  refine @going_tftpSend file bs 0 { client with state := .data, curBlock := 1, blockSize := bs }
    ⟨h.putActive, rfl, h.space, h.length, h.saved, h.size, h.prevBlock, h.offset⟩ rfl h.sent
      (by decide)
    le_rfl (show 1 < 65536 by decide) le_rfl (fun _ ↦ ?_) ?_
  · rw [Nat.zero_mul]
    exact Nat.zero_le _
  · rw [Nat.sub_self, Nat.zero_mul]
    exact Nat.zero_le _

/-! ## Runs -/

/-- A client, and a server with the number of blocks it has accepted, their bytes, and the numbers
of its acknowledgements. -/
structure Upload where
  client : Client
  accepted : ℕ
  got : List UInt8
  acks : List ℕ

/-- What arrives: a block for the server, an acknowledgement or the options for the client, or
nothing in time. -/
inductive Upload.Event
  | data (n : ℕ) (bytes : List UInt8)
  | ack (n : ℕ)
  | oack
  | timeout

/-- Every packet that was sent can arrive.  A server with options answers the request with
`oack`. -/
inductive Upload.Step (oack : Option (Option ℕ)) : Upload → Event → Upload → Prop
  | accept {s : Upload} {n : ℕ} {bytes : List UInt8} : .data n bytes ∈ s.client.sent →
    n = (s.accepted + 1) % 65536 → Step oack s (.data n bytes)
      { s with accepted := s.accepted + 1, got := s.got ++ bytes, acks := s.acks ++ [n] }
  | again {s : Upload} {n j : ℕ} {bytes : List UInt8} : .data n bytes ∈ s.client.sent →
    n ≠ (s.accepted + 1) % 65536 → 1 ≤ j → j ≤ s.accepted → n = j % 65536 →
    Step oack s (.data n bytes) { s with acks := s.acks ++ [n] }
  | refuse {s : Upload} {n : ℕ} {bytes : List UInt8} : .data n bytes ∈ s.client.sent →
    (∀ j, 1 ≤ j → j ≤ s.accepted + 1 → n ≠ j % 65536) → Step oack s (.data n bytes) s
  | ack {s : Upload} {n : ℕ} : s.client.netState = .loopContinue → n ∈ s.acks →
    Step oack s (.ack n) { s with client := s.client.tftpHandler (.ack n) }
  | oack {s : Upload} {blksize : Option ℕ} : s.client.netState = .loopContinue →
    oack = some blksize →
    Step oack s .oack { s with client := s.client.tftpHandler (.oack blksize) }
  | timeout {s : Upload} : s.client.netState = .loopContinue →
    Step oack s .timeout { s with client := s.client.tftpTimeoutHandler }

/-- The options arrive once, the number before a wrap is not acknowledged, and behind the last block
no other block is acknowledged. -/
def Upload.Safe (s : Upload) : Event → Prop
  | .ack n => if s.client.putFinalBlockSent then n = s.client.curBlock else n ≠ 65535
  | .oack => s.client.state = .sendWrq
  | _ => True

/-- The block size that is agreed on. -/
def agreed (oack : Option (Option ℕ)) : ℕ :=
  ((oack.getD none).map (· % 65536)).getD tftpBlockSize

/-- The start of an upload; a server without options acknowledges block 0. -/
structure Upload.Begins (file : List UInt8) (oack : Option (Option ℕ)) (s : Upload) : Prop where
  client : ∃ stale : Client, stale.netState = .loopContinue ∧ stale.sent = [] ∧
    stale.saveSize = file.length ∧ s.client = stale.tftpStart true
  accepted : s.accepted = 0
  got : s.got = []
  acks : s.acks = if oack.isSome then [] else [0]

/-- What holds at every point of an upload. -/
inductive Upload.Inv (file : List UInt8) (oack : Option (Option ℕ)) (s : Upload) : Prop
  | asks : Asks file s.client → s.accepted = 0 → s.got = [] →
    (oack.isSome = true → s.acks = [] ∧ s.client.curBlock = 0) →
    s.client.netState ≠ .loopSuccess → Inv file oack s
  | going {m : ℕ} : Going file (agreed oack) m s.client → s.accepted ≤ m →
    s.got = file.take (s.accepted * agreed oack) → (∀ n ∈ s.acks, n ≤ s.accepted) →
    (s.client.netState = .loopSuccess →
      s.client.putFinalBlockSent = true ∧ s.accepted = m) → Inv file oack s

theorem netState_tftpSend (client : Client) : client.tftpSend.netState = client.netState := by
  unfold Client.tftpSend
  split
  any_goals rfl
  all_goals
    split
    · rfl
    · rfl

theorem netState_handleAck (hprev : client.prevBlock = 0)
    (hfinal : client.putFinalBlockSent = false) :
    (client.handleAck n).netState = client.netState := by
  unfold Client.handleAck
  rw [hfinal, if_neg Bool.false_ne_true]
  dsimp only
  rw [updateBlockNumber_of_prev (by exact hprev)]
  split
  · split
    · exact netState_tftpSend _
    · rfl
  · rfl

/-- After a timeout the last packet is sent again, or the transfer is given up. -/
theorem timeoutHandler_cases (hstate : client.state ≠ .recvWrq) :
    client.tftpTimeoutHandler =
        { client with timeoutCount := client.timeoutCount + 1, netState := .loopRestart } ∨
      client.tftpTimeoutHandler =
      { client with timeoutCount := client.timeoutCount + 1 }.tftpSend := by
  unfold Client.tftpTimeoutHandler
  dsimp only
  split
  · exact .inl rfl
  · exact .inr rfl

theorem Upload.Inv.timeout {oack : Option (Option ℕ)} {s : Upload} (hs : s.Inv file oack)
    (hrun : s.client.netState = .loopContinue) :
    Inv file oack { s with client := s.client.tftpTimeoutHandler } := by
  cases hs with
  | asks h haccepted hgot hoack =>
    have hasks {net : NetState} : Asks file { s.client with
        timeoutCount := s.client.timeoutCount + 1, netState := net } :=
      ⟨⟨h.putActive, h.blockSize, h.space, h.length, h.saved, h.size, h.prevBlock, h.offset⟩,
        h.state, h.sent, h.final⟩
    obtain heq | heq := @timeoutHandler_cases s.client (by rw [h.state]; decide)
    · rw [heq]
      exact .asks hasks haccepted hgot hoack (fun h ↦ NetState.noConfusion h)
    · rw [heq, (@hasks s.client.netState).tftpSend_eq]
      refine .asks ?_ haccepted hgot hoack (fun h ↦ NetState.noConfusion (hrun.symm.trans h))
      rw [← (@hasks s.client.netState).tftpSend_eq]
      exact hasks.resend
  | @going m h haccepted hgot hacks =>
    have hgoing {net : NetState} : Going file (agreed oack) m { s.client with
        timeoutCount := s.client.timeoutCount + 1, netState := net } :=
      ⟨⟨h.putActive, h.blockSize, h.space, h.length, h.saved, h.size, h.prevBlock, h.offset⟩,
        h.state, h.sent, h.small, h.cur_pos, h.cur_small, h.room, h.final, h.going⟩
    obtain heq | heq := @timeoutHandler_cases s.client (by rw [h.state]; decide)
    · rw [heq]
      exact .going hgoing haccepted hgot hacks (fun h ↦ NetState.noConfusion h)
    · rw [heq]
      obtain ⟨m', hm, hgoing'⟩ := (@hgoing s.client.netState).resend
      refine .going hgoing' (haccepted.trans hm) hgot hacks ?_
      intro hsuccess
      have hnet := netState_tftpSend { s.client with timeoutCount := s.client.timeoutCount + 1 }
      exact NetState.noConfusion (hrun.symm.trans (hnet.symm.trans hsuccess))

theorem Upload.Inv.ack {oack : Option (Option ℕ)} {s : Upload} (hs : s.Inv file oack)
    (hrun : s.client.netState = .loopContinue) (hn : n ∈ s.acks) (hsafe : s.Safe (.ack n)) :
    Inv file oack { s with client := s.client.handleAck n } := by
  cases hs with
  | asks h haccepted hgot hoack =>
    have hnone : oack.isSome = true → False := by
      intro hsome
      rw [(hoack hsome).1] at hn
      exact List.not_mem_nil hn
    refine .asks h.handleAck haccepted hgot (fun hsome ↦ (hnone hsome).elim) ?_
    intro hsuccess
    have hnet : (s.client.handleAck n).netState = s.client.netState :=
      netState_handleAck h.prevBlock h.final
    exact NetState.noConfusion (hrun.symm.trans (hnet.symm.trans hsuccess))
  | @going m h haccepted hgot hacks =>
    have hsafe : if s.client.putFinalBlockSent then n = s.client.curBlock else n ≠ 65535 := hsafe
    cases hfinal : s.client.putFinalBlockSent with
    | true =>
      rw [if_pos hfinal, (h.final hfinal).1] at hsafe
      rw [handleAck_of_final h.putActive hfinal]
      have hgoing : Going file (agreed oack) m s.client.tftpComplete :=
        ⟨⟨h.putActive, h.blockSize, h.space, h.length, h.saved, h.size, h.prevBlock, h.offset⟩,
          h.state, h.sent, h.small, h.cur_pos, h.cur_small, h.room, h.final, h.going⟩
      refine .going hgoing haccepted hgot hacks (fun _ ↦ ⟨hfinal, ?_⟩)
      exact le_antisymm haccepted (hsafe ▸ hacks n hn)
    | false =>
      rw [if_neg (by rw [hfinal]; exact Bool.false_ne_true)] at hsafe
      obtain ⟨m', hm, hgoing⟩ := h.handleAck hfinal ((hacks n hn).trans haccepted) hsafe
      refine .going hgoing (haccepted.trans hm) hgot hacks ?_
      intro hsuccess
      have hnet : (s.client.handleAck n).netState = s.client.netState :=
        netState_handleAck h.prevBlock hfinal
      exact NetState.noConfusion (hrun.symm.trans (hnet.symm.trans hsuccess))

/-- A packet with data that was sent is one of the first blocks. -/
theorem Going.of_mem_sent (h : Going file bs m client) (hmem : .data n bytes ∈ client.sent) :
    1 ≤ n ∧ n ≤ m ∧ bytes = block file bs n := by
  have hdata : Packet.data n bytes ∈ client.dataSent := mem_dataSent.2 ⟨hmem, rfl⟩
  rw [h.sent, mem_firstBlocks] at hdata
  obtain ⟨j, hj, hjm, heq⟩ := hdata
  obtain ⟨hn, hbytes⟩ := Packet.data.inj heq
  rw [Nat.mod_eq_of_lt (hjm.trans_lt h.small)] at hn
  subst hn
  exact ⟨hj, hjm, hbytes⟩

theorem Asks.notMem_sent (h : Asks file client) : .data n bytes ∉ client.sent := by
  intro hmem
  have hdata : Packet.data n bytes ∈ client.dataSent := mem_dataSent.2 ⟨hmem, rfl⟩
  rw [h.sent] at hdata
  exact List.not_mem_nil hdata

theorem Upload.Inv.step {oack : Option (Option ℕ)} {s t : Upload} {e : Event} (hs : s.Inv file oack)
    (hstep : Step oack s e t) (hsafe : s.Safe e) : t.Inv file oack := by
  cases hstep with
  | @accept n bytes hmem hnumber =>
    cases hs with
    | asks h => exact absurd hmem h.notMem_sent
    | @going m h haccepted hgot hacks hsuccess =>
      obtain ⟨hn, hnm, hbytes⟩ := h.of_mem_sent hmem
      have hsmall := h.small
      have hnext : n = s.accepted + 1 := by omega
      refine .going h (hnext ▸ hnm) ?_ ?_ ?_
      · dsimp only
        rw [take_succ_mul, ← hgot, hbytes, hnext]
      · intro i hi
        obtain hi | hi := List.mem_append.1 hi
        · exact Nat.le_succ_of_le (hacks i hi)
        · rw [List.mem_singleton.1 hi, hnext]
      · intro h
        obtain ⟨hfinal, heq⟩ := hsuccess h
        omega
  | @again n j bytes hmem _ hj hjaccepted hnumber =>
    cases hs with
    | asks h => exact absurd hmem h.notMem_sent
    | @going m h haccepted hgot hacks hsuccess =>
      have hsmall := h.small
      refine .going h haccepted hgot ?_ hsuccess
      intro i hi
      obtain hi | hi := List.mem_append.1 hi
      · exact hacks i hi
      · rw [List.mem_singleton.1 hi]
        dsimp only
        omega
  | refuse => exact hs
  | ack hrun hn => exact hs.ack hrun hn hsafe
  | @oack blksize hrun hoack =>
    cases hs with
    | asks h haccepted hgot hacks =>
      obtain ⟨hnil, hcur⟩ := hacks (hoack ▸ rfl)
      have hgoing : Going file (agreed oack) 1 (s.client.handleOack blksize) := by
        refine h.handleOack hcur ?_
        rw [hoack]
        rfl
      refine .going hgoing ?_ ?_ ?_ ?_
      · dsimp only
        rw [haccepted]
        exact Nat.zero_le 1
      · dsimp only
        rw [haccepted, hgot, Nat.zero_mul, List.take_zero]
      · dsimp only
        rw [hnil]
        exact fun i hi ↦ absurd hi List.not_mem_nil
      · intro hsuccess
        have hnet : (s.client.handleOack blksize).netState = s.client.netState := by
          unfold Client.handleOack
          dsimp only
          rw [netState_tftpSend]
          split
          · rfl
          · rfl
        exact NetState.noConfusion (hrun.symm.trans (hnet.symm.trans hsuccess))
    | going h =>
      have hsafe : s.client.state = .sendWrq := hsafe
      exact State.noConfusion (h.state.symm.trans hsafe)
  | timeout hrun => exact hs.timeout hrun

theorem Upload.Begins.inv {oack : Option (Option ℕ)} {s : Upload} (h : s.Begins file oack)
    (hsaved : s.client.mem.At s.client.saveAddr file)
    (hspace : s.client.saveAddr + file.length ≤ 2 ^ 32) (hlength : file.length < 2 ^ 32) :
    s.Inv file oack := by
  obtain ⟨⟨stale, hnet, hsent, hsize, hclient⟩, haccepted, hgot, hacks⟩ := h
  rw [hclient] at hsaved hspace
  have hdata : (stale.tftpStart true).dataSent = [] := by
    have hrequest : (stale.tftpStart true).sent = [.request] :=
      congrArg (· ++ [Packet.request]) hsent
    unfold Client.dataSent
    rw [hrequest]
    rfl
  refine .asks ?_ haccepted hgot ?_ ?_
  · rw [hclient]
    exact ⟨⟨rfl, rfl, hspace, hlength, hsaved, hsize, rfl, rfl⟩, rfl, hdata, rfl⟩
  · intro hsome
    rw [hacks, if_pos hsome, hclient]
    exact ⟨rfl, rfl⟩
  · rw [hclient]
    exact fun h ↦ NetState.noConfusion (hnet.symm.trans h)

/-- The blocks are those of the file, and at the end the server has the file. -/
def Upload.Delivers (file : List UInt8) (bs : ℕ) (s : Upload) : Prop :=
  (∀ i pkt, s.client.dataSent[i]? = some pkt → pkt = dataPacket file bs (i + 1)) ∧
    (s.client.netState = .loopSuccess → s.got = file)

/-- An upload delivers the file, if its numbers do not wrap and it is ended by the acknowledgement
of the last block. -/
theorem delivers_of_safe (file : List UInt8) (oack : Option (Option ℕ)) (s t : Upload)
    (events : List Upload.Event) (hbegins : s.Begins file oack)
    (hsaved : s.client.mem.At s.client.saveAddr file)
    (hspace : s.client.saveAddr + file.length ≤ 2 ^ 32) (hlength : file.length < 2 ^ 32)
    (hrun : Run (fun s e t ↦ Upload.Step oack s e t ∧ s.Safe e) s events t) :
    t.Delivers file (agreed oack) := by
  have hinv : t.Inv file oack := by
    refine hrun.invariant ?_ (hbegins.inv hsaved hspace hlength)
    exact fun s e t hs hstep ↦ hs.step hstep.1 hstep.2
  cases hinv with
  | asks h _ _ _ hnet =>
    refine ⟨fun i pkt hi ↦ ?_, fun h ↦ absurd h hnet⟩
    rw [h.sent] at hi
    exact absurd hi (by rw [List.getElem?_nil]; exact Option.some_ne_none pkt ∘ Eq.symm)
  | @going m h haccepted hgot hacks hsuccess =>
    refine ⟨fun i pkt hi ↦ ?_, fun hnet ↦ ?_⟩
    · rw [h.sent, firstBlocks, List.getElem?_map] at hi
      obtain ⟨k, hk, hpkt⟩ := Option.map_eq_some_iff.1 hi
      obtain ⟨hi, rfl⟩ := List.getElem?_eq_some_iff.1 hk
      rw [List.getElem_range] at hpkt
      exact hpkt.symm
    · obtain ⟨hfinal, heq⟩ := hsuccess hnet
      obtain ⟨hcur, hshort⟩ := h.final hfinal
      have hend : file.length ≤ m * agreed oack :=
        length_le_of_length_block_lt (hcur ▸ h.cur_pos) hshort
      rw [hgot, heq, List.take_of_length_le hend]

/-- The start of an upload of three bytes in blocks of two. -/
def Upload.start : Upload :=
  ⟨{ idle 0 with
      saveSize := 3
      mem := Mem.write (fun _ ↦ 0) 0 [7, 8, 9] }.tftpStart true, 0, [], []⟩

theorem Upload.begins_start : start.Begins [7, 8, 9] (some (some 2)) :=
  ⟨⟨_, rfl, rfl, rfl, rfl⟩, rfl, rfl, rfl⟩

theorem Upload.saved_start : start.client.mem.At start.client.saveAddr [7, 8, 9] :=
  @Mem.at_write_self (fun _ ↦ 0) 0 [7, 8, 9]

theorem Upload.safe_ack {s : Upload} (hfinal : s.client.putFinalBlockSent = false)
    (hn : n ≠ 65535) :
    s.Safe (.ack n) := by
  change if s.client.putFinalBlockSent then n = s.client.curBlock else n ≠ 65535
  rw [if_neg (by rw [hfinal]; exact Bool.false_ne_true)]
  exact hn

theorem Upload.safe_last {s : Upload} (hfinal : s.client.putFinalBlockSent = true)
    (hn : n = s.client.curBlock) : s.Safe (.ack n) := by
  change if s.client.putFinalBlockSent then n = s.client.curBlock else n ≠ 65535
  rw [if_pos hfinal]
  exact hn

/-- The first block of the three bytes was acknowledged. -/
def Upload.half : Upload :=
  ⟨(start.client.tftpHandler (.oack (some 2))).tftpHandler (.ack 1), 1, [7, 8], [1]⟩

theorem Upload.run_half :
    Run (fun s e t ↦ Step (some (some 2)) s e t ∧ s.Safe e) start [.oack, .data 1 [7, 8],
    .ack 1] half :=
  .cons ⟨.oack rfl rfl, rfl⟩ (.cons ⟨.accept (by decide) rfl, trivial⟩
    (.cons ⟨.ack rfl (by decide), Upload.safe_ack rfl (by decide)⟩ (.nil _)))

theorem delivers_threeBytes :
    Upload.Delivers [7, 8, 9] 2 ⟨Upload.half.client.tftpHandler (.ack 2), 2, [7, 8, 9],
    [1, 2]⟩ := by
  have hlast : Run (fun s e t ↦ Upload.Step (some (some 2)) s e t ∧ s.Safe e) Upload.half
      [.data 2 [9], .ack 2] ⟨Upload.half.client.tftpHandler (.ack 2), 2, [7, 8, 9], [1, 2]⟩ :=
    .cons ⟨@Upload.Step.accept _ Upload.half 2 [9] (by decide) rfl, trivial⟩
      (.cons ⟨.ack rfl (by decide), Upload.safe_last rfl rfl⟩ (.nil _))
  exact delivers_of_safe [7, 8, 9] (some (some 2)) Upload.start _ _ Upload.begins_start
    Upload.saved_start (by decide) (by decide) (Upload.run_half.append hlast)

/-- The acknowledgement of the first block arrives again behind the last block. -/
theorem not_delivers_repeated : ¬ ∀ (file : List UInt8) (oack : Option (Option ℕ)) (s t : Upload)
    (events : List Upload.Event), s.Begins file oack → s.client.mem.At s.client.saveAddr file →
    s.client.saveAddr + file.length ≤ 2 ^ 32 → file.length < 2 ^ 32 →
    Run (Upload.Step oack) s events t → t.Delivers file (agreed oack) := by
  intro hall
  have hrun := (Upload.run_half.mono_of_invariant (I := fun _ ↦ True)
    (fun _ _ _ _ h ↦ ⟨trivial, h.1⟩)
    trivial).append (.cons (.ack (n := 1) rfl (by decide)) (.nil _))
  have hgot := (hall _ _ _ _ _ Upload.begins_start Upload.saved_start (by decide)
    (by decide) hrun).2
    rfl
  exact absurd hgot (by decide)

end MiniPi.Tftp
