import MiniPi.Ymodem.Receive

/-!
# Any sender

What the receiver reads from its packet and stores for its caller, whatever arrives.  The first
block is scanned for the end of a name and of a number, which nothing puts there; the length of a
block is cut down by what was sent behind the end of the file, however much that is; and a read that
fails leaves a negative length behind.
-/

namespace MiniPi.Ymodem

open Xyz

variable {xyz : Xyz} {line : List UInt8} {lines : List (List UInt8)} {retries n N : ℕ}
  {stat size : ℤ} {buf : List UInt8}

/-! ## Numbers -/

/-- A byte that is no digit ends a number. -/
def Stops (radix : ℕ) (s : List UInt8) : Prop := ∃ c ∈ s, ∀ digit, fromHex c = some digit →
    radix ≤ digit

/-- The bytes of a number, behind spaces, are followed by one that is no digit. -/
def Ends (s : List UInt8) : Prop :=
  let t := s.dropWhile (· = 32)
  if t.take 2 = [48, 120] ∨ t.take 2 = [48, 88] then Stops 16 (t.drop 2) else Stops 10 t

theorem not_stops_nil (radix : ℕ) : ¬Stops radix [] := by
  rintro ⟨c, hc, -⟩
  exact List.not_mem_nil hc

theorem stops_cons {radix : ℕ} {c : UInt8} {s : List UInt8} :
    Stops radix (c :: s) ↔ (∀ digit, fromHex c = some digit → radix ≤ digit) ∨ Stops radix s := by
  simp [Stops]

theorem stops_zero (radix : ℕ) (s : List UInt8) : Stops radix (0 :: s) := by
  have hnone : fromHex 0 = none := rfl
  refine stops_cons.2 (.inl ?_)
  intro digit hdigit
  exact absurd (hnone.symm.trans hdigit) (Option.some_ne_none digit).symm

theorem parseDigits_ne_none {radix result : ℕ} {s : List UInt8} :
    parseDigits radix result s ≠ none ↔ Stops radix s := by
  induction s generalizing result with
  | nil =>
    rw [parseDigits]
    exact iff_of_false (fun h ↦ h rfl) (not_stops_nil radix)
  | cons c s ih =>
    rw [parseDigits, stops_cons]
    by_cases hzero : c = 0
    · rw [if_pos hzero, ← stops_cons, hzero]
      exact iff_of_true (Option.some_ne_none _) (stops_zero radix s)
    · rw [if_neg hzero]
      cases hdigit : fromHex c with
      | none =>
        dsimp only
        refine iff_of_true ?_ (.inl fun digit h ↦ by simp at h)
        split
        · exact Option.some_ne_none _
        · exact Option.some_ne_none _
      | some digit =>
        dsimp only
        by_cases hlt : digit < radix
        · rw [if_pos hlt, ih]
          refine ⟨.inr, fun h ↦ h.resolve_left ?_⟩
          intro h
          exact absurd (h digit rfl) hlt.not_ge
        · rw [if_neg hlt]
          refine iff_of_true (Option.some_ne_none _) (.inl ?_)
          rintro d ⟨⟩
          exact not_lt.1 hlt

theorem parseNum_ne_none {s : List UInt8} : parseNum s ≠ none ↔ Ends s := by
  rw [parseNum, Ends]
  generalize s.dropWhile (· = 32) = t
  split
  · rename_i x u
    by_cases hx : x = 120 ∨ x = 88
    · have htake : (48 :: x :: u).take 2 = [48, 120] ∨ (48 :: x :: u).take 2 = [48, 88] := by
        obtain rfl | rfl := hx
        · exact .inl rfl
        · exact .inr rfl
      rw [if_pos hx, if_pos htake]
      split
      · exact iff_of_true (Option.some_ne_none _) (stops_zero 16 _)
      · exact parseDigits_ne_none
    · have htake : ¬((48 :: x :: u).take 2 = [48, 120] ∨ (48 :: x :: u).take 2 = [48, 88]) := by
        simpa using hx
      rw [if_neg hx, if_neg htake]
      exact parseDigits_ne_none
  · rename_i hno
    have htake : ¬(t.take 2 = [48, 120] ∨ t.take 2 = [48, 88]) := by
      rintro (h | h)
      all_goals
        obtain ⟨y, u, rfl⟩ : ∃ y u, t = 48 :: y :: u := by
          rcases t with _ | ⟨a, _ | ⟨b, u⟩⟩
          · simp at h
          · simp at h
          · exact ⟨b, u, by simp at h; rw [h.1]⟩
        exact hno y u rfl
    rw [if_neg htake]
    exact parseDigits_ne_none

/-- A packet has the end of a name, and behind it the end of a number. -/
def Scanned (pkt : List UInt8) : Prop :=
  0 ∈ pkt ∧ Ends (pkt.drop ((pkt.takeWhile (· ≠ 0)).length + 1))

theorem not_ends_nil : ¬Ends [] := by
  unfold Ends
  exact not_stops_nil 10

theorem readInfo_ne_none (hbufp : xyz.bufp = 0) : xyz.readInfo ≠ none ↔ Scanned xyz.pkt := by
  have hval : xyz.readInfo ≠ none ↔
      parseNum (xyz.pkt.drop ((xyz.pkt.takeWhile (· ≠ 0)).length + 1)) ≠ none := by
    rw [Xyz.readInfo, hbufp]
    rw [List.drop_zero]
    cases parseNum (xyz.pkt.drop ((xyz.pkt.takeWhile (· ≠ 0)).length + 1)) <;> simp
  rw [hval, parseNum_ne_none, Scanned]
  refine ⟨fun hends ↦ ⟨?_, hends⟩, And.right⟩
  by_contra hmem
  have hall : xyz.pkt.takeWhile (· ≠ 0) = xyz.pkt := by
    rw [List.takeWhile_eq_self_iff]
    intro c hc
    exact decide_eq_true fun h ↦ hmem (h ▸ hc)
  rw [hall, List.drop_eq_nil_of_le (Nat.le_succ _)] at hends
  exact not_ends_nil hends

/-! ## Headers -/

/-- What holds of the static variable at any time, but for what a wrong length would do. -/
structure Inside (xyz : Xyz) : Prop where
  pkt : xyz.pkt.length = 1024
  len : 0 < xyz.len → xyz.bufp + xyz.len ≤ 1024
  read : xyz.readLength < 2 ^ 32
  excess : xyz.mode ≠ xmodem → xyz.fileLength ≠ 0 → xyz.readLength ≤ xyz.fileLength + 1024

/-- A whole block was read into the packet. -/
structure Filled (xyz : Xyz) : Prop where
  bufp : xyz.bufp = 0
  pos : 0 < xyz.len
  le : xyz.len ≤ 1024

theorem Inside.sendAck (h : Inside xyz) : Inside xyz.sendAck := by
  unfold Xyz.sendAck
  split
  · exact ⟨h.pkt, h.len, h.read, h.excess⟩
  · exact h

theorem Inside.putc (h : Inside xyz) (c : UInt8) : Inside (xyz.putc c) :=
  ⟨h.pkt, h.len, h.read, h.excess⟩

theorem validate_nonpos (xyz : Xyz) : xyz.validate ≤ 0 := by
  have hframe : frame ≤ 0 := by decide
  have hcksum : cksum ≤ 0 := by decide
  unfold Xyz.validate
  dsimp only
  split_ifs
  all_goals first | exact hframe | exact hcksum | exact le_rfl

/-- A header is read into the packet; the result is 0 only behind a whole block. -/
theorem readBlock_inside (h : Inside xyz) (c : UInt8) (line : List UInt8) :
    Inside (xyz.readBlock c line).2 ∧ (xyz.readBlock c line).1 ≤ 0 ∧
      ((xyz.readBlock c line).1 = 0 → Filled (xyz.readBlock c line).2) := by
  have htimeout : timeout < 0 := by decide
  rcases line with _ | ⟨blk, _ | ⟨cblk, line⟩⟩
  · exact ⟨h, htimeout.le, fun h0 ↦ absurd h0 htimeout.ne⟩
  · exact ⟨⟨h.pkt, h.len, h.read, h.excess⟩, htimeout.le, fun h0 ↦ absurd h0 htimeout.ne⟩
  have hsize : 0 < (if c = soh then 128 else 1024) ∧ (if c = soh then 128 else 1024) ≤ 1024 := by
    split_ifs
    · decide
    · decide
  rw [Xyz.readBlock]
  dsimp only
  generalize (if c = soh then 128 else 1024) = len at hsize
  have hpkt : (line.take len ++ xyz.pkt.drop (line.take len).length).length = 1024 := by
    rw [List.length_append, List.length_drop, List.length_take, h.pkt]
    omega
  have hlen : (0 : ℤ) < len → (0 : ℕ) + (len : ℤ) ≤ 1024 := by omega
  cases line.drop len with
  | nil => exact ⟨⟨hpkt, hlen, h.read, h.excess⟩, htimeout.le, fun h0 ↦ absurd h0 htimeout.ne⟩
  | cons crc1 line =>
    dsimp only
    split_ifs
    · cases line with
      | nil => exact ⟨⟨hpkt, hlen, h.read, h.excess⟩, htimeout.le, fun h0 ↦ absurd h0 htimeout.ne⟩
      | cons crc2 line =>
        exact ⟨⟨hpkt, hlen, h.read, h.excess⟩, validate_nonpos _,
          fun _ ↦ ⟨rfl, by simpa using hsize.1, by simpa using hsize.2⟩⟩
    · exact ⟨⟨hpkt, hlen, h.read, h.excess⟩, validate_nonpos _,
        fun _ ↦ ⟨rfl, by simpa using hsize.1, by simpa using hsize.2⟩⟩

theorem getHdr_inside (h : Inside xyz) (line : List UInt8) :
    Inside (xyz.getHdr line).2 ∧ (xyz.getHdr line).1 ≤ 0 ∧
      ((xyz.getHdr line).1 = 0 → Filled (xyz.getHdr line).2) := by
  have htimeout : timeout < 0 := by decide
  have hcancel : cancel < 0 := by decide
  have heof : eof < 0 := by decide
  rw [Xyz.getHdr]
  split
  · exact ⟨h.sendAck, htimeout.le, fun h0 ↦ absurd h0 htimeout.ne⟩
  · exact ⟨h.sendAck, hcancel.le, fun h0 ↦ absurd h0 hcancel.ne⟩
  · exact ⟨h.sendAck.putc ack, heof.le, fun h0 ↦ absurd h0 heof.ne⟩
  · exact readBlock_inside h.sendAck _ _

theorem length_tail_lt (h : (xyz.getHdr (lines.headD [])).1 = 0) :
    lines.tail.length < lines.length := by
  cases lines with
  | nil =>
    have htimeout : timeout ≠ 0 := by decide
    exact absurd h htimeout
  | cons line lines => exact Nat.lt_succ_self _

/-! ## Opening a stream -/

/-- The block for the file, if one is read, is scanned inside the packet. -/
def OpenMeets : ℕ → ℤ → Xyz → List (List UInt8) → Prop
  | 0, _, _, _ => True
  | retries + 1, crcRetries, xyz, lines =>
    let (stat, xyz) := xyz.getHdr (lines.headD [])
    if stat = 0 then xyz.blk = 0 → Scanned xyz.pkt
    else if stat = timeout then
      let crcRetries := crcRetries - 1
      let xyz := { xyz with crcMode := if crcRetries ≤ 0 then false else xyz.crcMode }
      OpenMeets retries crcRetries (xyz.putc xyz.request) lines.tail
    else stat ≠ cancel → OpenMeets retries crcRetries xyz lines.tail

theorem readInfo_inside (h : Inside xyz) (hread : xyz.readLength = 0) {xyz' : Xyz}
    (heq : xyz.readInfo = some xyz') : Inside { xyz' with nextBlk := 1, len := 0 } := by
  rw [Xyz.readInfo] at heq
  obtain ⟨val, -, hval⟩ := Option.bind_eq_some_iff.1 heq
  obtain rfl := Option.some.inj hval
  exact ⟨h.pkt, fun h0 ↦ absurd h0 (lt_irrefl _), h.read, fun _ _ ↦ hread ▸ Nat.zero_le _⟩

/-- Opening a stream reads behind the packet unless the name and the number end in it. -/
theorem openLoop_inside {crcRetries stat : ℤ} (h : Inside xyz) (hread : xyz.readLength = 0) :
    (xyz.openLoop retries crcRetries stat lines ≠ none ↔ OpenMeets retries crcRetries xyz lines) ∧
      ∀ err xyz' lines', xyz.openLoop retries crcRetries stat lines = some (err, xyz', lines') →
        Inside xyz' := by
  induction retries generalizing crcRetries stat xyz lines with
  | zero =>
    rw [Xyz.openLoop, OpenMeets]
    refine ⟨iff_of_true (Option.some_ne_none _) trivial, ?_⟩
    rintro err xyz' lines' ⟨⟩
    exact h
  | succ retries ih =>
    have hkeeps := keeps_getHdr xyz (lines.headD [])
    obtain ⟨hinside, -, hfilled⟩ := getHdr_inside h (lines.headD [])
    rw [Xyz.openLoop, OpenMeets]
    generalize xyz.getHdr (lines.headD []) = res at hkeeps hinside hfilled
    obtain ⟨stat', xyz₁⟩ := res
    dsimp only at hkeeps hinside hfilled ⊢
    have hread' : xyz₁.readLength = 0 := hkeeps.readLength.trans hread
    by_cases hstat : stat' = 0
    · rw [if_pos hstat, if_pos hstat]
      by_cases hblk : xyz₁.blk = 0
      · rw [if_pos hblk]
        have hne := readInfo_ne_none (hfilled hstat).bufp
        cases hinfo : xyz₁.readInfo with
        | none =>
          rw [hinfo] at hne
          refine ⟨iff_of_false (fun h0 ↦ h0 rfl) fun h0 ↦ hne.2 (h0 hblk) rfl, ?_⟩
          rintro err xyz' lines' ⟨⟩
        | some xyz₂ =>
          rw [hinfo] at hne
          refine ⟨iff_of_true (Option.some_ne_none _) fun _ ↦ hne.1 (Option.some_ne_none _), ?_⟩
          rintro err xyz' lines' ⟨⟩
          exact readInfo_inside hinside hread' hinfo
      · rw [if_neg hblk]
        refine ⟨iff_of_true (Option.some_ne_none _) fun h0 ↦ absurd h0 hblk, ?_⟩
        rintro err xyz' lines' ⟨⟩
        exact ⟨hinside.pkt, fun h0 ↦ absurd h0 (lt_irrefl _), hinside.read, hinside.excess⟩
    rw [if_neg hstat, if_neg hstat]
    by_cases htimeout : stat' = timeout
    · rw [if_pos htimeout, if_pos htimeout]
      exact ih ⟨hinside.pkt, hinside.len, hinside.read, hinside.excess⟩ hread'
    rw [if_neg htimeout, if_neg htimeout]
    by_cases hcancel : stat' = cancel
    · rw [if_pos hcancel]
      refine ⟨iff_of_true (Option.some_ne_none _) fun h0 ↦ absurd hcancel h0, ?_⟩
      rintro err xyz' lines' ⟨⟩
      exact hinside
    · rw [if_neg hcancel]
      have hnext := @ih xyz₁ lines.tail crcRetries stat' hinside hread'
      exact ⟨hnext.1.trans ⟨fun h0 _ ↦ h0, fun h0 ↦ h0 hcancel⟩, hnext.2⟩

/-! ## Accepted blocks -/

/-- A further block does not go beyond a length that was announced and is exceeded already. -/
def Room (xyz : Xyz) : Prop :=
  xyz.mode = xmodem ∨ xyz.fileLength = 0 ∨ xyz.readLength ≤ xyz.fileLength ∨
    2 ^ 32 ≤ xyz.readLength + xyz.len

theorem stripEof_len (h : Filled xyz) : 0 ≤ xyz.stripEof.len ∧ xyz.stripEof.len ≤ xyz.len := by
  have hpos := h.pos
  unfold Xyz.stripEof
  dsimp only
  split_ifs
  · have hle := (List.dropWhile_sublist (· = eofChar)
      (l := ((xyz.pkt.drop xyz.bufp).take xyz.len.toNat).reverse)).length_le
    rw [List.length_reverse, List.length_take] at hle
    dsimp only
    omega
  · exact ⟨hpos.le, le_rfl⟩

theorem stripEof_eq (xyz : Xyz) : ∃ len, xyz.stripEof = { xyz with len } := by
  unfold Xyz.stripEof
  dsimp only
  split_ifs
  · exact ⟨_, rfl⟩
  · exact ⟨xyz.len, rfl⟩

theorem stripEof_inside (h : Inside xyz) (hfilled : Filled xyz) :
    Inside xyz.stripEof ∧ 0 ≤ xyz.stripEof.len := by
  obtain ⟨hnonneg, hle⟩ := stripEof_len hfilled
  have hroom := h.len hfilled.pos
  obtain ⟨len, heq⟩ := stripEof_eq xyz
  rw [heq] at hnonneg hle ⊢
  dsimp only at hnonneg hle
  exact ⟨⟨h.pkt, fun _ ↦ by dsimp only; omega, h.read, h.excess⟩, hnonneg⟩

/-- A length that is cut down is negative if the announced one was exceeded before. -/
theorem trim_inside (h : Inside xyz) (hfilled : Filled xyz) (hmode : xyz.mode ≠ xmodem)
    (hfile : xyz.fileLength ≠ 0) :
    (Room xyz → Inside xyz.trim ∧ 0 ≤ xyz.trim.len) ∧ (¬Room xyz → xyz.trim.len < 0) := by
  have hexcess := h.excess hmode hfile
  have hread := h.read
  obtain ⟨hbufp, hpos, hle⟩ := hfilled
  constructor
  · intro hroom
    have hle' : xyz.readLength ≤ xyz.fileLength ∨ 2 ^ 32 ≤ xyz.readLength + xyz.len :=
      (hroom.resolve_left hmode).resolve_left hfile
    have hlen : 0 ≤ xyz.trim.len ∧ xyz.trim.len ≤ 1024 := by
      unfold Xyz.trim Xyz.toInt
      dsimp only
      split_ifs
      · omega
      · omega
    refine ⟨⟨h.pkt, ?_, ?_, ?_⟩, hlen.1⟩
    · intro _
      change (xyz.bufp : ℤ) + _ ≤ 1024
      rw [hbufp]
      omega
    · unfold Xyz.trim
      dsimp only
      omega
    · intro _ _
      unfold Xyz.trim
      dsimp only
      omega
  · intro hroom
    unfold Room at hroom
    unfold Xyz.trim Xyz.toInt
    dsimp only
    rw [if_pos (by omega)]
    omega

/-- An accepted block is read from its packet, if there is room for it. -/
theorem accept_inside (h : Inside xyz) (hfilled : Filled xyz) :
    (Room xyz → Inside xyz.accept ∧ 0 ≤ xyz.accept.len) ∧ (¬Room xyz → xyz.accept.len < 0) ∧
      xyz.accept.atEof = xyz.atEof ∧ xyz.accept.bufp = 0 := by
  have h' : Inside { xyz with txAck := true, nextBlk := xyz.nextBlk + 1 } :=
    ⟨h.pkt, h.len, h.read, h.excess⟩
  have hfilled' : Filled { xyz with txAck := true, nextBlk := xyz.nextBlk + 1 } :=
    ⟨hfilled.bufp, hfilled.pos, hfilled.le⟩
  by_cases hstrip : xyz.mode = xmodem ∨ xyz.fileLength = 0
  · have heq : xyz.accept =
        Xyz.stripEof { xyz with txAck := true, nextBlk := xyz.nextBlk + 1 } := by
      obtain ⟨len, hlen⟩ := stripEof_eq { xyz with txAck := true, nextBlk := xyz.nextBlk + 1 }
      rw [Xyz.accept]
      dsimp only
      rw [if_pos hstrip, hlen, if_neg]
      rintro ⟨hmode, hfile⟩
      exact hstrip.elim hmode hfile
    have hroom : Room xyz := hstrip.elim .inl fun hfile ↦ .inr (.inl hfile)
    rw [heq]
    refine ⟨fun _ ↦ stripEof_inside h' hfilled', fun hno ↦ absurd hroom hno, ?_⟩
    obtain ⟨len, hlen⟩ := stripEof_eq { xyz with txAck := true, nextBlk := xyz.nextBlk + 1 }
    rw [hlen]
    exact ⟨rfl, hfilled.bufp⟩
  · obtain ⟨hmode, hfile⟩ := not_or.1 hstrip
    have heq : xyz.accept = Xyz.trim { xyz with txAck := true, nextBlk := xyz.nextBlk + 1 } := by
      rw [Xyz.accept]
      dsimp only
      rw [if_neg hstrip, if_pos ⟨hmode, hfile⟩]
    rw [heq]
    obtain ⟨hroom, hno⟩ := trim_inside h' hfilled' hmode hfile
    exact ⟨hroom, hno, rfl, hfilled.bufp⟩

/-! ## Retries -/

/-- There is room for the block that is accepted, if one is. -/
def RetryMeets : ℕ → Xyz → List (List UInt8) → Prop
  | 0, _, _ => True
  | retries + 1, xyz, lines =>
    let (stat, xyz') := xyz.getHdr (lines.headD [])
    if stat = 0 ∧ xyz'.blk = xyz'.nextBlk then Room xyz'
    else if stat = 0 ∧ xyz'.blk = xyz'.nextBlk - 1 then
      RetryMeets retries (xyz'.putc ack) lines.tail
    else stat ≠ cancel → stat ≠ eof → RetryMeets retries (xyz'.putc xyz'.request) lines.tail

/-- How the loop over the retries ends while there is room: with an error, at the end of the file,
or with bytes that may be read from the packet. -/
def Refills (N : ℕ) (res : ℤ × Xyz × List (List UInt8)) : Prop :=
  Inside res.2.1 ∧ (res.1 < 0 ∨ res.2.1.atEof = true ∨
    (res.1 = 0 ∧ res.2.1.atEof = false ∧ 0 ≤ res.2.1.len ∧ res.2.1.bufp = 0 ∧ res.2.2.length < N))

/-- How it ends where there is none. -/
def Overruns (res : ℤ × Xyz × List (List UInt8)) : Prop :=
  res.1 = 0 ∧ res.2.1.atEof = false ∧ res.2.1.len < 0

theorem finish_refills (h : Inside xyz) : Refills N (xyz.finish lines) := by
  unfold Xyz.finish
  dsimp only
  split_ifs
  · have hinside := (getHdr_inside ((h.putc ack).putc (xyz.putc ack).request) (lines.headD [])).1
    exact ⟨⟨hinside.pkt, hinside.len, hinside.read, hinside.excess⟩, .inr (.inl rfl)⟩
  · exact ⟨⟨h.pkt, h.len, h.read, h.excess⟩, .inr (.inl rfl)⟩

theorem retryLoop_inside (h : Inside xyz) (hatEof : xyz.atEof = false) (hlines : lines.length ≤ N)
    (hstat : stat < 0 ∨ stat = 0 ∧ 0 ≤ xyz.len ∧ xyz.bufp = 0 ∧ lines.length < N) :
    (RetryMeets retries xyz lines → Refills N (xyz.retryLoop retries stat lines)) ∧
      (¬RetryMeets retries xyz lines → Overruns (xyz.retryLoop retries stat lines)) := by
  induction retries generalizing xyz stat lines with
  | zero =>
    rw [RetryMeets, Xyz.retryLoop]
    refine ⟨fun _ ↦ ⟨h, ?_⟩, fun hno ↦ absurd trivial hno⟩
    obtain hstat | ⟨hstat, hlen, hbufp, hlt⟩ := hstat
    · exact .inl hstat
    · exact .inr (.inr ⟨hstat, hatEof, hlen, hbufp, hlt⟩)
  | succ retries ih =>
    have hkeeps := keeps_getHdr xyz (lines.headD [])
    obtain ⟨hinside, hnonpos, hfilled⟩ := getHdr_inside h (lines.headD [])
    have hshort := @length_tail_lt xyz lines
    have htail : lines.tail.length ≤ N := (List.tail_sublist lines).length_le.trans hlines
    have hsequence : sequence < 0 := by decide
    rw [RetryMeets, Xyz.retryLoop]
    generalize xyz.getHdr (lines.headD []) = res at hkeeps hinside hnonpos hfilled hshort
    obtain ⟨stat', xyz'⟩ := res
    dsimp only at hkeeps hinside hnonpos hfilled hshort ⊢
    have hatEof' : xyz'.atEof = false := hkeeps.atEof.trans hatEof
    by_cases hblk : stat' = 0 ∧ xyz'.blk = xyz'.nextBlk
    · rw [if_pos hblk, if_pos hblk]
      obtain ⟨hroom, hno, hkeep, hbufp⟩ := accept_inside hinside (hfilled hblk.1)
      refine ⟨fun hmeets ↦ ⟨(hroom hmeets).1, .inr (.inr ⟨hblk.1, hkeep.trans hatEof',
        (hroom hmeets).2, hbufp, ?_⟩)⟩, fun hmeets ↦ ⟨hblk.1, hkeep.trans hatEof', hno hmeets⟩⟩
      exact (hshort hblk.1).trans_le hlines
    rw [if_neg hblk, if_neg hblk]
    by_cases hagain : stat' = 0 ∧ xyz'.blk = xyz'.nextBlk - 1
    · rw [if_pos hagain, if_pos hagain]
      exact ih (hinside.putc ack) hatEof' htail (.inr ⟨hagain.1, (hfilled hagain.1).pos.le,
        (hfilled hagain.1).bufp, (hshort hagain.1).trans_le hlines⟩)
    rw [if_neg hagain, if_neg hagain]
    have hneg : (if stat' = 0 then sequence else stat') < 0 := by
      split_ifs with hzero
      · exact hsequence
      · exact lt_of_le_of_ne hnonpos hzero
    have hcancel : (if stat' = 0 then sequence else stat') = cancel ↔ stat' = cancel := by
      split_ifs with hzero
      · rw [hzero]
        decide
      · rfl
    have heof : (if stat' = 0 then sequence else stat') = eof ↔ stat' = eof := by
      split_ifs with hzero
      · rw [hzero]
        decide
      · rfl
    by_cases hc : stat' = cancel
    · rw [if_pos (hcancel.2 hc)]
      exact ⟨fun _ ↦ ⟨hinside, .inl hneg⟩, fun hno ↦ absurd (fun h0 ↦ absurd hc h0) hno⟩
    rw [if_neg (mt hcancel.1 hc)]
    by_cases he : stat' = eof
    · rw [if_pos (heof.2 he)]
      exact ⟨fun _ ↦ finish_refills hinside, fun hno ↦ absurd (fun _ h0 ↦ absurd he h0) hno⟩
    rw [if_neg (mt heof.1 he)]
    obtain ⟨hmeets, hno⟩ := ih (hinside.putc xyz'.request) hatEof' htail (.inl hneg)
    exact ⟨fun h0 ↦ hmeets (h0 hc he), fun h0 ↦ hno fun h1 ↦ h0 fun _ _ ↦ h1⟩

/-! ## Reads -/

/-- What a turn of the loop in `xyzModem_stream_read` starts with. -/
def refill (xyz : Xyz) (lines : List (List UInt8)) : ℤ × Xyz × List (List UInt8) :=
  if xyz.len = 0 then xyz.retryLoop maxRetries cancel lines else (0, xyz, lines)

/-- Each turn starts with a length that is not negative, and there is room for the block it
accepts. -/
def ReadMeets : ℕ → Xyz → List (List UInt8) → ℤ → Prop
  | 0, _, _, _ => True
  | n + 1, xyz, lines, size =>
    xyz.atEof = false → 0 < size →
      0 ≤ xyz.len ∧ (xyz.len = 0 → RetryMeets maxRetries xyz lines) ∧
        ((refill xyz lines).1 = 0 → (refill xyz lines).2.1.atEof = false →
          ReadMeets n ((refill xyz lines).2.1.advance size) (refill xyz lines).2.2
            (size - min size (refill xyz lines).2.1.len))

/-- One turn of the loop. -/
theorem readLoop_succ (hatEof : xyz.atEof = false) (hsize : 0 < size) :
    xyz.readLoop (n + 1) lines size buf =
      if (refill xyz lines).1 < 0 then some (buf, some (refill xyz lines).1,
        { (refill xyz lines).2.1 with len := -1 }, (refill xyz lines).2.2)
      else if (refill xyz lines).2.1.atEof then
        (refill xyz lines).2.1.readLoop n (refill xyz lines).2.2 size buf
      else if min size (refill xyz lines).2.1.len < 0 ∨ (refill xyz lines).2.1.pkt.length <
          (refill xyz lines).2.1.bufp + min size (refill xyz lines).2.1.len then none
      else ((refill xyz lines).2.1.advance size).readLoop n (refill xyz lines).2.2
        (size - min size (refill xyz lines).2.1.len)
          (buf ++ (refill xyz lines).2.1.chunk size) := by
  have hdone : ¬(xyz.atEof = true ∨ size ≤ 0) := by
    rw [hatEof]
    exact not_or.2 ⟨Bool.noConfusion, hsize.not_ge⟩
  rw [Xyz.readLoop, if_neg hdone]
  rfl

theorem advance_inside (h : Inside xyz) (hlen : 0 ≤ xyz.len) (hsize : 0 < size) :
    Inside (xyz.advance size) ∧ 0 ≤ (xyz.advance size).len := by
  have hroom := h.len
  refine ⟨⟨h.pkt, ?_, h.read, h.excess⟩, ?_⟩
  · unfold Xyz.advance
    dsimp only
    omega
  · unfold Xyz.advance
    dsimp only
    omega

/-- What a read that stays inside leaves: no more bytes are stored than are asked for. -/
def Stored (buf : List UInt8) (size : ℤ)
    (res : Option (List UInt8 × Option ℤ × Xyz × List (List UInt8))) : Prop :=
  ∀ out err xyz lines, res = some (out, err, xyz, lines) →
    Inside xyz ∧ (out.length : ℤ) ≤ buf.length + max size 0

theorem stored_some (h : Inside xyz) {err : Option ℤ} :
    Stored buf size (some (buf, err, xyz, lines)) := by
  rintro out err xyz lines ⟨⟩
  exact ⟨h, by omega⟩

/-- Bytes are copied from the packet, and the rest is read. -/
theorem readLoop_copy {lines' : List (List UInt8)} (h : Inside xyz) (hlen : 0 ≤ xyz.len)
    (hsize : 0 < size) (hbufp : xyz.len = 0 → xyz.bufp = 0)
    (ih : ∀ buf, (readLoop n (xyz.advance size) lines' (size - min size xyz.len) buf ≠ none ↔
        ReadMeets n (xyz.advance size) lines' (size - min size xyz.len)) ∧
      Stored buf (size - min size xyz.len)
        (readLoop n (xyz.advance size) lines' (size - min size xyz.len) buf)) :
    let res := if min size xyz.len < 0 ∨ xyz.pkt.length < xyz.bufp + min size xyz.len then none
      else (xyz.advance size).readLoop n lines' (size - min size xyz.len) (buf ++ xyz.chunk size)
    (res ≠ none ↔ ReadMeets n (xyz.advance size) lines' (size - min size xyz.len)) ∧
      Stored buf size res := by
  have hroom := h.len
  have hinside : ¬(min size xyz.len < 0 ∨ xyz.pkt.length < xyz.bufp + min size xyz.len) := by
    rw [h.pkt]
    omega
  have hchunk : ((xyz.chunk size).length : ℤ) ≤ min size xyz.len := by
    unfold Xyz.chunk
    rw [List.length_take]
    omega
  dsimp only
  rw [if_neg hinside]
  obtain ⟨hiff, hstored⟩ := ih (buf ++ xyz.chunk size)
  refine ⟨hiff, ?_⟩
  intro out err xyz' lines'' hres
  obtain ⟨hinside', hle⟩ := hstored out err xyz' lines'' hres
  rw [List.length_append] at hle
  refine ⟨hinside', ?_⟩
  push_cast at hle
  omega

theorem readLoop_inside (h : Inside xyz) (hn : size.toNat + lines.length + 2 ≤ n) :
    (xyz.readLoop n lines size buf ≠ none ↔ ReadMeets n xyz lines size) ∧
      Stored buf size (xyz.readLoop n lines size buf) := by
  induction n generalizing xyz lines size buf with
  | zero => omega
  | succ n ih =>
    by_cases hdone : xyz.atEof = true ∨ size ≤ 0
    · rw [readLoop_of_done hdone, ReadMeets]
      refine ⟨iff_of_true (Option.some_ne_none _) ?_, stored_some h⟩
      intro hatEof hsize
      obtain hdone | hdone := hdone
      · exact absurd (hatEof.symm.trans hdone) Bool.false_ne_true
      · exact absurd hsize hdone.not_gt
    obtain ⟨hatEof, hsize⟩ := not_or.1 hdone
    replace hatEof := Bool.eq_false_of_not_eq_true hatEof
    replace hsize := not_le.1 hsize
    rw [readLoop_succ hatEof hsize, ReadMeets, forall_prop_of_true hatEof,
      forall_prop_of_true hsize]
    obtain hlen | hlen | hlen := lt_trichotomy xyz.len 0
    · -- a read after one that failed
      have hrefill : refill xyz lines = (0, xyz, lines) := if_neg hlen.ne
      rw [hrefill]
      dsimp only
      rw [if_neg (lt_irrefl 0), hatEof, if_neg Bool.false_ne_true, if_pos (by omega)]
      refine ⟨iff_of_false (fun h0 ↦ h0 rfl) fun h0 ↦ absurd hlen h0.1.not_gt, ?_⟩
      rintro out err xyz' lines' ⟨⟩
    · obtain ⟨hmeets, hno⟩ :=
        @retryLoop_inside xyz lines maxRetries lines.length cancel h hatEof le_rfl
          (.inl (by decide))
      have hrefill : refill xyz lines = xyz.retryLoop maxRetries cancel lines := if_pos hlen
      rw [← hrefill] at hmeets hno
      generalize refill xyz lines = res at hmeets hno
      obtain ⟨stat, xyz', lines'⟩ := res
      by_cases hretry : RetryMeets maxRetries xyz lines
      · obtain ⟨hinside, hend⟩ := hmeets hretry
        dsimp only at hinside hend ⊢
        by_cases hstat : stat < 0
        · rw [if_pos hstat]
          have hfailed : Inside { xyz' with len := -1 } :=
            ⟨hinside.pkt, fun h0 ↦ absurd h0 neg_one_lt_zero.not_gt, hinside.read, hinside.excess⟩
          exact ⟨iff_of_true (Option.some_ne_none _) ⟨hlen.ge, fun _ ↦ hretry, fun h0 ↦
            absurd h0 hstat.ne⟩, stored_some hfailed⟩
        rw [if_neg hstat]
        obtain hend | hend | ⟨hstat, hatEof', hlen', hbufp, hshort⟩ := hend
        · exact absurd hend hstat
        · obtain ⟨m, rfl⟩ : ∃ m, n = m + 1 := ⟨n - 1, by omega⟩
          rw [if_pos hend, readLoop_of_done (.inl hend)]
          refine ⟨iff_of_true (Option.some_ne_none _) ⟨hlen.ge, fun _ ↦ hretry, fun _ h0 ↦ ?_⟩,
            stored_some hinside⟩
          exact absurd (h0.symm.trans hend) Bool.false_ne_true
        · rw [hatEof', if_neg Bool.false_ne_true]
          obtain ⟨hiff, hstored⟩ := @readLoop_copy xyz' n size buf lines' hinside hlen' hsize
            (fun _ ↦ hbufp) fun buf ↦ ih (advance_inside hinside hlen' hsize).1 (by omega)
          exact ⟨hiff.trans ⟨fun h0 ↦ ⟨hlen.ge, fun _ ↦ hretry, fun _ _ ↦ h0⟩, fun h0 ↦
            h0.2.2 hstat rfl⟩, hstored⟩
      · obtain ⟨hstat, hatEof', hneg⟩ := hno hretry
        dsimp only at hstat hatEof' hneg ⊢
        rw [hstat, if_neg (lt_irrefl 0), hatEof', if_neg Bool.false_ne_true, if_pos (by omega)]
        refine ⟨iff_of_false (fun h0 ↦ h0 rfl) fun h0 ↦ hretry (h0.2.1 hlen), ?_⟩
        rintro out err xyz' lines' ⟨⟩
    · have hrefill : refill xyz lines = (0, xyz, lines) := if_neg hlen.ne'
      rw [hrefill]
      dsimp only
      rw [if_neg (lt_irrefl 0), hatEof, if_neg Bool.false_ne_true]
      obtain ⟨hiff, hstored⟩ := @readLoop_copy xyz n size buf lines h hlen.le hsize
        (fun h0 ↦ absurd h0 hlen.ne') fun buf ↦ ih (advance_inside h hlen.le hsize).1 (by omega)
      exact ⟨hiff.trans ⟨fun h0 ↦ ⟨hlen.le, fun h1 ↦ absurd h1 hlen.ne', fun _ _ ↦ h0⟩, fun h0 ↦
        h0.2.2 rfl rfl⟩, hstored⟩

/-! ## Programs -/

/-- The calls of a program that receives files. -/
inductive Call
  | streamOpen (mode : ℤ)
  | streamRead (size : ℤ)

/-- What the reads of a program are asked for, and what they store. -/
def runCalls : Xyz → List (List UInt8) → List Call → Option (List (ℤ × List UInt8))
  | _, _, [] => some []
  | xyz, lines, .streamOpen mode :: calls => do
    let (_, xyz, lines) ← xyz.streamOpen mode lines
    runCalls xyz lines calls
  | xyz, lines, .streamRead size :: calls => do
    let (buf, _, xyz, lines) ← xyz.streamRead lines size
    let outs ← runCalls xyz lines calls
    some ((size, buf) :: outs)

/-- The static variable when a stream is opened. -/
def opened (xyz : Xyz) (mode : ℤ) : Xyz :=
  let xyz := { xyz with
    len := 0, crcMode := true, atEof := false, txAck := false, mode
    readLength := 0, fileLength := 0 }
  xyz.putc xyz.request

/-- Each call meets what it needs to stay inside. -/
def CallsMeet : Xyz → List (List UInt8) → List Call → Prop
  | _, _, [] => True
  | xyz, lines, .streamOpen mode :: calls =>
    (mode ≠ xmodem → OpenMeets maxRetries maxRetriesWithCrc (opened xyz mode) lines) ∧
      ∀ err xyz' lines', xyz.streamOpen mode lines = some (err, xyz', lines') →
        CallsMeet xyz' lines' calls
  | xyz, lines, .streamRead size :: calls =>
    ReadMeets (size.toNat + lines.length + 2) xyz lines size ∧
      ∀ buf err xyz' lines', xyz.streamRead lines size = some (buf, err, xyz', lines') →
        CallsMeet xyz' lines' calls

/-- No call reads outside of the packet or copies a negative length, and none stores more than it is
asked for. -/
def StaysInside (xyz : Xyz) (lines : List (List UInt8)) (calls : List Call) : Prop :=
  ∃ outs, runCalls xyz lines calls = some outs ∧ ∀ out ∈ outs, (out.2.length : ℤ) ≤ max out.1 0

theorem streamOpen_inside (h : Inside xyz) (mode : ℤ) (lines : List (List UInt8)) :
    (xyz.streamOpen mode lines ≠ none ↔
      (mode ≠ xmodem → OpenMeets maxRetries maxRetriesWithCrc (opened xyz mode) lines)) ∧
      ∀ err xyz' lines', xyz.streamOpen mode lines = some (err, xyz', lines') → Inside xyz' := by
  have hopened : Inside (opened xyz mode) :=
    ⟨h.pkt, fun h0 ↦ absurd h0 (lt_irrefl _), Nat.two_pow_pos 32, fun _ _ ↦ Nat.zero_le _⟩
  unfold Xyz.streamOpen
  dsimp only
  by_cases hmode : mode = xmodem
  · rw [if_pos hmode]
    refine ⟨iff_of_true (Option.some_ne_none _) fun h0 ↦ absurd hmode h0, ?_⟩
    rintro err xyz' lines' ⟨⟩
    exact ⟨hopened.pkt, hopened.len, hopened.read, hopened.excess⟩
  · rw [if_neg hmode]
    obtain ⟨hiff, hinside⟩ :=
      @openLoop_inside (opened xyz mode) lines maxRetries maxRetriesWithCrc 0 hopened rfl
    exact ⟨hiff.trans ⟨fun h0 _ ↦ h0, fun h0 ↦ h0 hmode⟩, hinside⟩

theorem runCalls_inside (h : Inside xyz) (calls : List Call) :
    StaysInside xyz lines calls ↔ CallsMeet xyz lines calls := by
  induction calls generalizing xyz lines with
  | nil => exact iff_of_true ⟨[], rfl, fun out hout ↦ absurd hout List.not_mem_nil⟩ trivial
  | cons call calls ih =>
    cases call with
    | streamOpen mode =>
      obtain ⟨hiff, hinside⟩ := streamOpen_inside h mode lines
      unfold StaysInside at ih ⊢
      rw [CallsMeet, runCalls, ← hiff]
      cases hres : xyz.streamOpen mode lines with
      | none =>
        refine iff_of_false ?_ fun h0 ↦ h0.1 rfl
        rintro ⟨outs, ⟨⟩, -⟩
      | some res =>
        obtain ⟨err, xyz', lines'⟩ := res
        have hrest := @ih xyz' lines' (hinside err xyz' lines' hres)
        refine hrest.trans ⟨fun h0 ↦ ⟨Option.some_ne_none _, ?_⟩, fun h0 ↦ h0.2 err xyz' lines' rfl⟩
        rintro err xyz' lines' ⟨⟩
        exact h0
    | streamRead size =>
      obtain ⟨hiff, hstored⟩ :=
        @readLoop_inside xyz lines (size.toNat + lines.length + 2) size [] h le_rfl
      unfold StaysInside at ih ⊢
      rw [CallsMeet, runCalls, ← hiff]
      unfold Xyz.streamRead
      cases hres : xyz.readLoop (size.toNat + lines.length + 2) lines size [] with
      | none =>
        refine iff_of_false ?_ fun h0 ↦ h0.1 rfl
        rintro ⟨outs, ⟨⟩, -⟩
      | some res =>
        obtain ⟨buf, err, xyz', lines'⟩ := res
        obtain ⟨hinside, hle⟩ := hstored buf err xyz' lines' hres
        rw [List.length_nil, Nat.cast_zero, zero_add] at hle
        have hrest := @ih xyz' lines' hinside
        have hcons : (∃ outs, (do
            let outs ← runCalls xyz' lines' calls
            some ((size, buf) :: outs)) = some outs ∧ ∀ out ∈ outs, (out.2.length :
              ℤ) ≤ max out.1 0) ↔
            ∃ outs, runCalls xyz' lines' calls = some outs ∧
              ∀ out ∈ outs, (out.2.length : ℤ) ≤ max out.1 0 := by
          cases runCalls xyz' lines' calls with
          | none => simp
          | some outs =>
            constructor
            · rintro ⟨_, ⟨⟩, hall⟩
              exact ⟨outs, rfl, fun out hout ↦ hall out (List.mem_cons_of_mem _ hout)⟩
            · rintro ⟨_, ⟨⟩, hall⟩
              exact ⟨_, rfl, List.forall_mem_cons.2 ⟨hle, hall⟩⟩
        refine hcons.trans (hrest.trans ⟨fun h0 ↦ ⟨Option.some_ne_none _, ?_⟩, fun h0 ↦
          h0.2 buf err xyz' lines' rfl⟩)
        rintro buf err xyz' lines' ⟨⟩
        exact h0

theorem inside_idle : Inside idle :=
  ⟨List.length_replicate, fun h ↦ absurd h (lt_irrefl _), by decide, fun _ h ↦ absurd rfl h⟩

/-- Receiving stays inside the packet and the buffers of the caller if and only if, call by call,
the name block ends in its packet, no block comes behind the end of the file, and nothing is read
behind an error. -/
theorem runCalls_staysInside_iff (lines : List (List UInt8)) (calls : List Call) :
    StaysInside idle lines calls ↔ CallsMeet idle lines calls :=
  runCalls_inside inside_idle calls

theorem not_staysInside_of_none {calls : List Call} (h : runCalls xyz lines calls = none) :
    ¬StaysInside xyz lines calls := by
  rintro ⟨outs, houts, -⟩
  exact Option.some_ne_none outs (houts.symm.trans h)

/-- A name without an end, a second block for a file of one byte, and a second read behind an
error. -/
theorem not_runCalls_staysInside :
    ¬StaysInside idle [crcLine 0 (List.replicate 1024 97)] [.streamOpen ymodem] ∧
      ¬StaysInside idle [crcLine 0 noteInfo, crcLine 1 noteBlock, crcLine 2 noteBlock]
        [.streamOpen ymodem, .streamRead 200] ∧
      ¬StaysInside idle [] [.streamOpen ymodem, .streamRead 1, .streamRead 1] := by
  refine ⟨?_, ?_, ?_⟩
  · exact not_staysInside_of_none (by decide +kernel)
  · exact not_staysInside_of_none (by decide +kernel)
  · exact not_staysInside_of_none (by decide +kernel)

end MiniPi.Ymodem
