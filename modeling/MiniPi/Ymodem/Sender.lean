import MiniPi.Ymodem.Header

/-!
# The sender

What a sender of a file can make arrive: the block after the last accepted one, further copies of
the last accepted one, and the end of the transfer behind the last block; a line can fail in any way
that uses it up.
-/

namespace MiniPi.Ymodem

/-! ## Files and blocks -/

/-- A file and the blocks it is sent in. -/
structure Transfer where
  file : List UInt8
  blocks : List (List UInt8)
  info : List UInt8
  pad : List UInt8
  size : ∀ data ∈ blocks, data.length = 128 ∨ data.length = 1024
  nonempty : file ≠ []
  flatten : blocks.flatten = file ++ pad
  last : ∀ data ∈ blocks.getLast?, pad.length < data.length
  announces : ∃ name sep rest, (∀ c ∈ name, c ≠ 0) ∧ (sep = 0 ∨ sep = 32) ∧
    info = name ++ 0 :: (decimal file.length ++ sep :: rest)

namespace Transfer

variable {t : Transfer} {k : ℕ} {data : List UInt8}

/-- The blocks by their numbers. -/
def sent (t : Transfer) : List (List UInt8) := t.info :: t.blocks

/-- The bytes of the first `k` blocks. -/
def upTo (t : Transfer) (k : ℕ) : List UInt8 := (t.blocks.take k).flatten

theorem upTo_zero (t : Transfer) : t.upTo 0 = [] := rfl

theorem upTo_succ (h : t.blocks[k]? = some data) : t.upTo (k + 1) = t.upTo k ++ data := by
  unfold upTo
  rw [List.take_add_one, h, Option.toList_some, List.flatten_append, List.flatten_singleton]

theorem upTo_length (t : Transfer) : t.upTo t.blocks.length = t.file ++ t.pad := by
  unfold upTo
  rw [List.take_length, t.flatten]

/-- The first `k` blocks are a beginning of all blocks. -/
theorem upTo_prefix (t : Transfer) (k : ℕ) : t.upTo k <+: t.file ++ t.pad := by
  refine ⟨(t.blocks.drop k).flatten, ?_⟩
  unfold upTo
  rw [← List.flatten_append, List.take_append_drop, t.flatten]

theorem length_upTo_le (t : Transfer) (k : ℕ) : (t.upTo k).length ≤ t.blocks.flatten.length := by
  rw [t.flatten]
  exact (t.upTo_prefix k).length_le

theorem length_upTo_lt (h : t.blocks[k]? = some data) : (t.upTo k).length < t.file.length := by
  have hk : k < t.blocks.length := (List.getElem?_eq_some_iff.1 h).1
  have hne : t.blocks ≠ [] := List.ne_nil_of_length_pos (by omega)
  have hlast := t.last _ (List.getLast?_eq_some_getLast hne)
  have htotal : (t.upTo (t.blocks.length - 1)).length + (t.blocks.getLast hne).length =
      t.file.length + t.pad.length := by
    rw [← List.length_append, ← List.length_append, ← t.flatten]
    conv_rhs => rw [← List.dropLast_append_getLast hne]
    rw [List.flatten_append, List.flatten_singleton, List.dropLast_eq_take]
    rfl
  have hle : (t.upTo k).length ≤ (t.upTo (t.blocks.length - 1)).length := by
    have hprefix : t.upTo k <+: t.upTo (t.blocks.length - 1) :=
      List.IsPrefix.flatten (List.take_prefix_take_left (by omega))
    exact hprefix.length_le
  omega

end Transfer

/-! ## Lines -/

/-- What a line is for the receiver. -/
inductive Label
  | fault
  | next
  | again
  | eot
deriving DecidableEq

/-- The call that reads this line fails, and not by an `EOT`.  Nothing of the line is left: the
bytes that a call leaves behind wrong check bytes begin a line of their own. -/
def Faulty (crc : Bool) (line : List UInt8) : Prop :=
  ∀ xyz : Xyz, xyz.crcMode = crc →
    (xyz.getHdr line).1 < 0 ∧ (xyz.getHdr line).1 ≠ eof ∧ xyz.unread line = []

theorem faulty_nil (crc : Bool) : Faulty crc [] :=
  fun xyz _ ↦ by
    rw [getHdr_nil]
    exact ⟨by decide, by decide, rfl⟩

/-- The lines that can arrive after `k` blocks were accepted. -/
inductive Sends (t : Transfer) (crc : Bool) : ℕ → List (List UInt8) → List Label → Prop
  | silent {k : ℕ} : Sends t crc k [] []
  | fault {k : ℕ} {line : List UInt8} {lines : List (List UInt8)} {labels : List Label} :
    Faulty crc line → Sends t crc k lines labels → Sends t crc k (line :: lines) (.fault :: labels)
  | next {k : ℕ} {data line : List UInt8} {lines : List (List UInt8)} {labels : List Label} :
    t.sent[k + 1]? = some data → Intact crc (k + 1) data line → Sends t crc (k + 1) lines labels →
    Sends t crc k (line :: lines) (.next :: labels)
  | again {k : ℕ} {data line : List UInt8} {lines : List (List UInt8)} {labels : List Label} :
    t.sent[k]? = some data → Intact crc k data line → Sends t crc k lines labels →
    Sends t crc k (line :: lines) (.again :: labels)
  | eot {k : ℕ} {lines : List (List UInt8)} : k = t.blocks.length →
    Sends t crc k ([eot] :: lines) [.eot]

/-- The lines that can arrive once the stream is opened; `r` is `crc_retries`. -/
inductive Opening (t : Transfer) : ℤ → Bool → List (List UInt8) → List Label → Prop
  | silent {r : ℤ} {crc : Bool} : Opening t r crc [] []
  | timeout {r : ℤ} {crc : Bool} {line : List UInt8} {lines : List (List UInt8)}
      {labels : List Label} : (∀ xyz : Xyz, xyz.crcMode = crc → (xyz.getHdr line).1 = timeout) →
    Opening t (r - 1) (if r - 1 ≤ 0 then false else crc) lines labels →
    Opening t r crc (line :: lines) labels
  | fault {r : ℤ} {crc : Bool} {line : List UInt8} {lines : List (List UInt8)}
      {labels : List Label} : Faulty crc line →
    (∀ xyz : Xyz, xyz.crcMode = crc → (xyz.getHdr line).1 ≠ timeout) →
    Opening t r crc lines labels → Opening t r crc (line :: lines) labels
  | info {r : ℤ} {crc : Bool} {line : List UInt8} {lines : List (List UInt8)}
      {labels : List Label} : Intact crc 0 t.info line → Sends t crc 0 lines labels →
    Opening t r crc (line :: lines) labels

/-- No line after `a` others is the twentieth one since a block was accepted and a copy of that
block. -/
def Careful : ℕ → List Label → Prop
  | _, [] => True
  | _, .next :: labels => Careful 0 labels
  | a, .again :: labels => a + 1 ≠ maxRetries ∧ Careful (a + 1) labels
  | a, .fault :: labels => Careful (a + 1) labels
  | _, .eot :: _ => True

/-! ## Opening the stream -/

variable {t : Transfer} {xyz : Xyz} {crc : Bool} {k : ℕ} {data : List UInt8} {n : ℕ}
  {lines : List (List UInt8)} {labels : List Label}

/-- The receiver has accepted `k` blocks. -/
structure Tracks (t : Transfer) (crc : Bool) (k : ℕ) (xyz : Xyz) : Prop where
  nextBlk : xyz.nextBlk = UInt8.ofNat (k + 1)
  mode : xyz.mode = ymodem
  crcMode : xyz.crcMode = crc
  atEof : xyz.atEof = false
  fileLength : xyz.fileLength = t.file.length
  readLength : xyz.readLength = (t.upTo k).length

theorem Tracks.keeps {xyz' : Xyz} (h : Tracks t crc k xyz) (h' : Keeps xyz xyz') :
    Tracks t crc k xyz' :=
  ⟨h'.nextBlk.trans h.nextBlk, h'.mode.trans h.mode, h'.crcMode.trans h.crcMode,
    h'.atEof.trans h.atEof, h'.fileLength.trans h.fileLength, h'.readLength.trans h.readLength⟩

/-- The first block tells the length of the file. -/
theorem readInfo_of_holds (h : Holds xyz 0 t.info) (hfit : t.file.length < 2 ^ 32) :
    ∃ xyz', xyz.readInfo = some xyz' ∧ xyz'.fileLength = t.file.length ∧ xyz'.mode = xyz.mode ∧
      xyz'.crcMode = xyz.crcMode ∧ xyz'.atEof = xyz.atEof ∧ xyz'.readLength = xyz.readLength := by
  obtain ⟨-, -, hbufp, rest, hpkt⟩ := h
  obtain ⟨name, sep, info, hname, hsep, hinfo⟩ := t.announces
  have hdrop : xyz.pkt.drop xyz.bufp =
      name ++ 0 :: (decimal t.file.length ++ sep :: (info ++ rest)) := by
    rw [hbufp, hpkt, List.drop_zero, hinfo]
    simp only [List.append_assoc, List.cons_append]
  have htake : (xyz.pkt.drop xyz.bufp).takeWhile (· ≠ 0) = name := by
    rw [hdrop, List.takeWhile_append_of_pos, List.takeWhile_cons_of_neg, List.append_nil]
    · exact fun h ↦ of_decide_eq_true h rfl
    · exact fun c hc ↦ decide_eq_true (hname c hc)
  have hnum : Xyz.parseNum ((xyz.pkt.drop xyz.bufp).drop (name.length + 1)) =
      some (some t.file.length) := by
    rw [hdrop, ← List.drop_drop, List.drop_left, List.drop_succ_cons, List.drop_zero]
    exact parseNum_decimal (List.length_pos_of_ne_nil t.nonempty) hfit hsep
  unfold Xyz.readInfo
  dsimp only
  rw [htake, hnum]
  exact ⟨_, rfl, rfl, rfl, rfl, rfl, rfl⟩

/-- How opening a stream ends: with an error, or before the blocks. -/
def Opened (t : Transfer) (labels : List Label) (r : Option ℤ × Xyz × List (List UInt8)) : Prop :=
  (∃ stat, r.1 = some stat) ∨
    (r.1 = none ∧ ∃ crc, Tracks t crc 0 r.2.1 ∧ r.2.1.len = 0 ∧ Sends t crc 0 r.2.2 labels)

/-- One turn of the loop that ends in a timeout. -/
theorem openLoop_of_timeout {r stat : ℤ} (h : (xyz.getHdr (lines.headD [])).1 = timeout) :
    xyz.openLoop (n + 1) r stat lines =
      let xyz := (xyz.getHdr (lines.headD [])).2
      let xyz := { xyz with crcMode := if r - 1 ≤ 0 then false else xyz.crcMode }
      (xyz.putc xyz.request).openLoop n (r - 1) timeout lines.tail := by
  rw [Xyz.openLoop]
  dsimp only
  rw [h, if_neg (by decide), if_pos rfl]

/-- One turn of the loop in which reading a header fails in another way. -/
theorem openLoop_of_fault {r stat : ℤ} (hlt : (xyz.getHdr (lines.headD [])).1 < 0)
    (h : (xyz.getHdr (lines.headD [])).1 ≠ timeout) :
    (∃ res, xyz.openLoop (n + 1) r stat lines = some res ∧ ∃ stat, res.1 = some stat) ∨
      xyz.openLoop (n + 1) r stat lines = (xyz.getHdr (lines.headD [])).2.openLoop n r
        (xyz.getHdr (lines.headD [])).1 lines.tail := by
  rw [Xyz.openLoop]
  dsimp only
  rw [if_neg hlt.ne, if_neg h]
  split
  · exact .inl ⟨_, rfl, _, rfl⟩
  · exact .inr rfl

theorem openLoop_opened {r stat : ℤ} (hfit : t.file.length < 2 ^ 32)
    (h : Opening t r crc lines labels) (hmode : xyz.mode = ymodem) (hcrc : xyz.crcMode = crc)
    (hatEof : xyz.atEof = false) (hread : xyz.readLength = 0) :
    ∃ res, xyz.openLoop n r stat lines = some res ∧ Opened t labels res := by
  induction n generalizing xyz r stat crc lines with
  | zero => exact ⟨_, rfl, .inl ⟨_, rfl⟩⟩
  | succ n ih =>
    have hkeeps := keeps_getHdr xyz (lines.headD [])
    cases h with
    | silent =>
      rw [openLoop_of_timeout (getHdr_nil xyz)]
      exact ih .silent (hkeeps.mode.trans hmode) rfl (hkeeps.atEof.trans hatEof)
        (hkeeps.readLength.trans hread)
    | timeout htimeout h =>
      rw [openLoop_of_timeout (htimeout xyz hcrc)]
      refine ih h (hkeeps.mode.trans hmode) ?_ (hkeeps.atEof.trans hatEof)
        (hkeeps.readLength.trans hread)
      exact congrArg (fun c ↦ if r - 1 ≤ 0 then false else c) (hkeeps.crcMode.trans hcrc)
    | @fault _ _ line lines _ hfaulty htimeout h =>
      obtain ⟨res, hres, hstat⟩ | heq := @openLoop_of_fault xyz n (line :: lines) r stat
        (hfaulty xyz hcrc).1 (htimeout xyz hcrc)
      · exact ⟨res, hres, .inl hstat⟩
      · rw [heq]
        exact ih h (hkeeps.mode.trans hmode) (hkeeps.crcMode.trans hcrc) (hkeeps.atEof.trans hatEof)
          (hkeeps.readLength.trans hread)
    | @info _ _ line _ _ hintact h =>
      subst hcrc
      obtain ⟨hzero, hholds⟩ := getHdr_of_intact hintact
      obtain ⟨xyz', hinfo, hfile, hmode', hcrc', hatEof', hread'⟩ := readInfo_of_holds hholds hfit
      rw [Xyz.openLoop]
      dsimp only [List.headD_cons, List.tail_cons]
      have hblk : (xyz.getHdr line).2.blk = 0 := hholds.blk
      rw [if_pos hzero, if_pos hblk, hinfo]
      refine ⟨_, rfl, .inr ⟨rfl, _, ⟨rfl, ?_, rfl, ?_, hfile, ?_⟩, rfl, ?_⟩⟩
      · exact hmode'.trans (hkeeps.mode.trans hmode)
      · exact hatEof'.trans (hkeeps.atEof.trans hatEof)
      · exact hread'.trans (hkeeps.readLength.trans hread)
      · have hcrc : (xyz.getHdr line).2.crcMode = xyz.crcMode := hkeeps.crcMode
        dsimp only
        rw [hcrc', hcrc]
        exact h

/-- Opening a stream fails or gets to the blocks. -/
theorem streamOpen_opened (xyz : Xyz) (hfit : t.file.length < 2 ^ 32)
    (h : Opening t maxRetriesWithCrc true lines labels) :
    ∃ res, xyz.streamOpen ymodem lines = some res ∧ Opened t labels res := by
  unfold Xyz.streamOpen
  dsimp only
  rw [if_neg (by decide)]
  exact openLoop_opened hfit h rfl rfl rfl rfl

end MiniPi.Ymodem
