import MiniPi.Ymodem.Sender

/-!
# What is read from a stream

The bytes that reads return are a beginning of the file, as long as the last one of the retries is
not spent on a block that was accepted before and no read follows one that failed.
-/

namespace MiniPi.Ymodem

variable {t : Transfer} {xyz : Xyz} {crc : Bool} {a k n retries : ℕ} {stat size : ℤ}
  {got buf data : List UInt8} {lines : List (List UInt8)} {labels : List Label}

/-! ## An accepted block -/

/-- Behind the bytes `got` the packet has what was accepted of the file. -/
structure Midway (t : Transfer) (crc : Bool) (k : ℕ) (got : List UInt8) (xyz : Xyz) : Prop
    extends Tracks t crc k xyz where
  len : 0 ≤ xyz.len
  room : 0 < xyz.len → xyz.bufp + xyz.len ≤ xyz.pkt.length
  got : got ++ (xyz.pkt.drop xyz.bufp).take xyz.len.toNat = (t.upTo k).take t.file.length

theorem take_upTo_prefix (t : Transfer) (k : ℕ) : (t.upTo k).take t.file.length <+: t.file := by
  have h := (t.upTo_prefix k).take t.file.length
  rwa [List.take_left] at h

theorem Midway.prefix (h : Midway t crc k got xyz) : got <+: t.file :=
  (List.prefix_append got _).trans (h.got ▸ take_upTo_prefix t k)

theorem toInt_of_lt {i : ℤ} (h₀ : 0 ≤ i) (h : i < 2 ^ 31) : Xyz.toInt i = i := by
  unfold Xyz.toInt
  omega

/-- A block of a file whose length is known is cut down to what the file still has. -/
theorem accept_eq (h : Tracks t crc k xyz) :
    xyz.accept = { xyz with txAck := true, nextBlk := xyz.nextBlk + 1 }.trim := by
  have hmode : xyz.mode ≠ xmodem := by
    rw [h.mode]
    decide
  have hfile : xyz.fileLength ≠ 0 := by
    rw [h.fileLength]
    exact (List.length_pos_of_ne_nil t.nonempty).ne'
  unfold Xyz.accept
  dsimp only
  rw [if_neg (not_or.2 ⟨hmode, hfile⟩), if_pos ⟨hmode, hfile⟩]

/-- What accepting a block leaves to be read. -/
theorem midway_accept (hfit : t.blocks.flatten.length < 2 ^ 32) (h : Tracks t crc k xyz)
    (hdata : t.blocks[k]? = some data) (hholds : Holds xyz (k + 1) data) :
    Midway t crc (k + 1) ((t.upTo k).take t.file.length) xyz.accept ∧ 0 < xyz.accept.len := by
  obtain ⟨-, hlen, hbufp, rest, hpkt⟩ := hholds
  have hsize := t.size data (List.mem_of_getElem? hdata)
  have hlt := t.length_upTo_lt hdata
  have htotal : (t.upTo (k + 1)).length = (t.upTo k).length + data.length := by
    rw [t.upTo_succ hdata, List.length_append]
  have hle := t.length_upTo_le (k + 1)
  have hread : ((xyz.readLength + xyz.len) % 2 ^ 32).toNat = (t.upTo (k + 1)).length := by
    rw [h.readLength, hlen]
    omega
  have hcut : (if t.file.length < (t.upTo (k + 1)).length then
      Xyz.toInt (data.length - ((t.upTo (k + 1)).length - t.file.length)) else (data.length : ℤ)) =
      (min data.length (t.file.length - (t.upTo k).length) : ℕ) := by
    split
    · rw [toInt_of_lt (by omega) (by omega)]
      omega
    · omega
  have haccept : xyz.accept.len = (min data.length (t.file.length - (t.upTo k).length) : ℕ) := by
    rw [accept_eq h, Xyz.trim]
    dsimp only
    rw [hread, h.fileLength, hlen, hcut]
  have hpkt' : xyz.accept.pkt = data ++ rest := by
    rw [accept_eq h]
    exact hpkt
  have hbufp' : xyz.accept.bufp = 0 := by
    rw [accept_eq h]
    exact hbufp
  refine ⟨⟨⟨?_, ?_, ?_, ?_, ?_, ?_⟩, ?_, ?_, ?_⟩, ?_⟩
  · rw [accept_eq h]
    exact (congrArg (· + 1) h.nextBlk).trans (UInt8.ofNat_add (k + 1) 1).symm
  · rw [accept_eq h]
    exact h.mode
  · rw [accept_eq h]
    exact h.crcMode
  · rw [accept_eq h]
    exact h.atEof
  · rw [accept_eq h]
    exact h.fileLength
  · rw [accept_eq h]
    exact hread
  · omega
  · intro
    rw [hbufp', hpkt', haccept, List.length_append]
    omega
  · have htake : data.take (min data.length (t.file.length - (t.upTo k).length)) =
        data.take (t.file.length - (t.upTo k).length) := by
      rw [List.take_eq_take_iff]
      omega
    rw [hbufp', hpkt', haccept, Int.toNat_natCast, List.drop_zero, t.upTo_succ hdata,
      List.take_append_of_le_length (Nat.min_le_left _ _), htake, ← List.take_append]
  · omega

/-! ## Retries -/

theorem ne_add_one (b : UInt8) : b ≠ b + 1 := by
  intro h
  have hnat := congrArg UInt8.toNat h
  have hlt := b.toNat_lt
  rw [UInt8.toNat_add, UInt8.toNat_one] at hnat
  omega

/-- How the loop over the retries ends: with an error, at the end of the file, or with a block. -/
def Refilled (t : Transfer) (crc : Bool) (k : ℕ) (got : List UInt8)
    (res : ℤ × Xyz × List (List UInt8)) : Prop :=
  (res.1 < 0 ∧ res.2.1.atEof = false) ∨ (res.2.1.atEof = true ∧ k = t.blocks.length) ∨
    (res.1 = 0 ∧ 0 < res.2.1.len ∧ Midway t crc (k + 1) got res.2.1 ∧
      ∃ labels, Sends t crc (k + 1) res.2.2 labels ∧ Careful 0 labels)

/-- One turn of the loop in which reading a header fails. -/
theorem retryLoop_of_fault (hlt : (xyz.getHdr (lines.headD [])).1 < 0)
    (heof : (xyz.getHdr (lines.headD [])).1 ≠ eof) :
    let res := xyz.getHdr (lines.headD [])
    xyz.retryLoop (retries + 1) stat lines = (res.1, res.2, lines.tail) ∨
      xyz.retryLoop (retries + 1) stat lines =
        (res.2.putc res.2.request).retryLoop retries res.1 lines.tail := by
  dsimp only
  rw [Xyz.retryLoop]
  dsimp only
  rw [if_neg (fun h ↦ hlt.ne h.1), if_neg (fun h ↦ hlt.ne h.1), if_neg hlt.ne]
  rw [if_neg heof]
  split
  · exact .inl rfl
  · exact .inr rfl

theorem atEof_finish (xyz : Xyz) (lines : List (List UInt8)) :
    (xyz.finish lines).2.1.atEof = true := by
  unfold Xyz.finish
  dsimp only
  split
  · rfl
  · rfl

theorem retryLoop_refilled (hfit : t.blocks.flatten.length < 2 ^ 32) (h : Tracks t crc k xyz)
    (hsends : Sends t crc k lines labels) (hcareful : Careful a labels)
    (hretries : a + retries = maxRetries) (hstat : retries = 0 → stat < 0) :
    Refilled t crc k ((t.upTo k).take t.file.length) (xyz.retryLoop retries stat lines) := by
  induction retries generalizing xyz a stat lines labels with
  | zero => exact .inl ⟨hstat rfl, h.atEof⟩
  | succ retries ih =>
    have hkeeps := keeps_getHdr xyz (lines.headD [])
    -- after a failed header another one is asked for
    have hfault {labels : List Label} (hsends : Sends t crc k lines.tail labels)
        (hcareful : Careful (a + 1) labels) (hlt : (xyz.getHdr (lines.headD [])).1 < 0)
        (heof : (xyz.getHdr (lines.headD [])).1 ≠ eof) :
        Refilled t crc k ((t.upTo k).take t.file.length)
          (xyz.retryLoop (retries + 1) stat lines) := by
      obtain heq | heq := @retryLoop_of_fault xyz retries stat lines hlt heof
      · rw [heq]
        exact .inl ⟨hlt, hkeeps.atEof.trans h.atEof⟩
      · rw [heq]
        exact ih ((h.keeps hkeeps).keeps (keeps_putc _ _)) hsends hcareful (by omega) fun _ ↦ hlt
    cases hsends with
    | silent =>
      have hnil := faulty_nil xyz.crcMode xyz rfl
      exact hfault .silent trivial hnil.1 hnil.2.1
    | fault hfaulty hsends =>
      obtain ⟨hlt, heof, -⟩ := hfaulty xyz h.crcMode
      exact hfault hsends hcareful hlt heof
    | @next _ data line lines labels hdata hintact hsends =>
      obtain ⟨hzero, hholds⟩ := getHdr_of_intact (h.crcMode ▸ hintact)
      rw [Xyz.retryLoop]
      dsimp only [List.headD_cons, List.tail_cons]
      rw [if_pos ⟨hzero, hholds.blk.trans (h.keeps hkeeps).nextBlk.symm⟩]
      obtain ⟨hmidway, hpos⟩ := midway_accept hfit (h.keeps hkeeps) hdata hholds
      exact .inr (.inr ⟨hzero, hpos, hmidway, labels, hsends, hcareful⟩)
    | @again _ data line lines labels hdata hintact hsends =>
      obtain ⟨hzero, hholds⟩ := getHdr_of_intact (h.crcMode ▸ hintact)
      have hnext : (xyz.getHdr line).2.nextBlk = UInt8.ofNat k + 1 :=
        (h.keeps hkeeps).nextBlk.trans (UInt8.ofNat_add k 1)
      rw [Xyz.retryLoop]
      dsimp only [List.headD_cons, List.tail_cons]
      rw [hnext, hholds.blk, UInt8.add_sub_cancel, if_neg, if_pos ⟨hzero, rfl⟩]
      · refine ih ((h.keeps hkeeps).keeps (keeps_putc _ _)) hsends hcareful.2 (by omega) ?_
        intro hretries
        have := hcareful.1
        omega
      · exact fun h ↦ ne_add_one _ h.2
    | eot hk =>
      rw [Xyz.retryLoop]
      dsimp only [List.headD_cons, List.tail_cons]
      have hzero : eof ≠ 0 := by decide
      have hcancel : eof ≠ cancel := by decide
      rw [getHdr_of_eot, if_neg (fun h ↦ hzero h.1), if_neg (fun h ↦ hzero h.1), if_neg hzero,
        if_neg hcancel, if_pos rfl]
      exact .inr (.inl ⟨atEof_finish _ _, hk⟩)

/-! ## Reads -/

/-- What holds between two reads, when they have returned the bytes `got`. -/
inductive Status (t : Transfer) (got : List UInt8) (xyz : Xyz) (lines : List (List UInt8)) : Prop
  | reading {crc : Bool} {k : ℕ} {labels : List Label} : Midway t crc k got xyz →
    Sends t crc k lines labels → Careful 0 labels → Status t got xyz lines
  | ended : xyz.atEof = true → got = t.file → Status t got xyz lines
  | failed : xyz.atEof = false → xyz.len < 0 → got <+: t.file → Status t got xyz lines

theorem Status.prefix (h : Status t got xyz lines) : got <+: t.file := by
  cases h with
  | reading h => exact h.prefix
  | ended _ h => exact h ▸ List.prefix_rfl
  | failed _ _ h => exact h

theorem Status.eq_file (h : Status t got xyz lines) (hatEof : xyz.atEof = true) : got = t.file := by
  cases h with
  | reading h => exact absurd (hatEof.symm.trans h.atEof) Bool.noConfusion
  | ended _ h => exact h
  | failed h => exact absurd (hatEof.symm.trans h) Bool.noConfusion

/-- What a read stores, and what holds behind it. -/
def Reads (t : Transfer) (got buf : List UInt8)
    (res : Option (List UInt8 × Option ℤ × Xyz × List (List UInt8))) : Prop :=
  ∃ new err xyz lines, res = some (buf ++ new, err, xyz, lines) ∧ Status t (got ++ new) xyz lines

theorem Reads.of_append {new : List UInt8}
    {res : Option (List UInt8 × Option ℤ × Xyz × List (List UInt8))}
    (h : Reads t (got ++ new) (buf ++ new) res) : Reads t got buf res := by
  obtain ⟨new', err, xyz, lines, heq, hstatus⟩ := h
  rw [List.append_assoc] at heq hstatus
  exact ⟨new ++ new', err, xyz, lines, heq, hstatus⟩

/-- Nothing is read at the end of the file, and nothing if nothing is asked for. -/
theorem readLoop_of_done (h : xyz.atEof = true ∨ size ≤ 0) :
    xyz.readLoop (n + 1) lines size buf = some (buf, none, xyz, lines) := by
  rw [Xyz.readLoop, if_pos h]

theorem reads_of_done (h : xyz.atEof = true ∨ size ≤ 0) (hstatus : Status t got xyz lines) :
    Reads t got buf (xyz.readLoop (n + 1) lines size buf) := by
  refine ⟨[], none, xyz, lines, ?_, ?_⟩
  · rw [readLoop_of_done h, List.append_nil]
  · rwa [List.append_nil]

/-- The bytes at the front of the packet. -/
def Xyz.chunk (xyz : Xyz) (size : ℤ) : List UInt8 :=
  (xyz.pkt.drop xyz.bufp).take (min size xyz.len).toNat

/-- The packet without the bytes at its front. -/
def Xyz.advance (xyz : Xyz) (size : ℤ) : Xyz :=
  { xyz with len := xyz.len - min size xyz.len, bufp := xyz.bufp + (min size xyz.len).toNat }

theorem midway_advance (h : Midway t crc k got xyz) (hlen : 0 < xyz.len) (hsize : 0 < size) :
    Midway t crc k (got ++ xyz.chunk size) (xyz.advance size) := by
  have hroom := h.room hlen
  refine ⟨⟨h.nextBlk, h.mode, h.crcMode, h.atEof, h.fileLength, h.readLength⟩, ?_, ?_, ?_⟩
  · unfold Xyz.advance
    dsimp only
    omega
  · intro
    unfold Xyz.advance
    dsimp only
    omega
  · have hsplit : xyz.len.toNat = (min size xyz.len).toNat +
        (xyz.len - min size xyz.len).toNat := by
      omega
    rw [← h.got, List.append_assoc]
    unfold Xyz.advance Xyz.chunk
    dsimp only
    rw [hsplit, List.take_add, List.drop_drop]

/-- One turn of the loop that finds bytes in the packet. -/
theorem readLoop_of_len (h : Midway t crc k got xyz) (hlen : 0 < xyz.len) (hsize : 0 < size) :
    xyz.readLoop (n + 1) lines size buf =
      (xyz.advance size).readLoop n lines (size - min size xyz.len) (buf ++ xyz.chunk size) := by
  have hroom := h.room hlen
  have hdone : ¬ (xyz.atEof = true ∨ size ≤ 0) := by
    rw [h.atEof]
    exact not_or.2 ⟨Bool.noConfusion, hsize.not_ge⟩
  rw [Xyz.readLoop, if_neg hdone, if_neg hlen.ne']
  dsimp only
  rw [if_neg (lt_irrefl 0), if_neg (by rw [h.atEof]; exact Bool.false_ne_true), if_neg (by omega)]
  rfl

/-- One turn of the loop that has to wait for a block. -/
theorem readLoop_of_retry {xyz' : Xyz} {lines' : List (List UInt8)} (hsize : 0 < size)
    (hatEof : xyz.atEof = false) (hlen : xyz.len = 0)
    (hretry : xyz.retryLoop maxRetries cancel lines = (stat, xyz', lines')) :
    xyz.readLoop (n + 1) lines size buf =
      if stat < 0 then some (buf, some stat, { xyz' with len := -1 }, lines')
      else if xyz'.atEof then xyz'.readLoop n lines' size buf
      else if min size xyz'.len < 0 ∨ xyz'.pkt.length < xyz'.bufp + min size xyz'.len then none
      else (xyz'.advance size).readLoop n lines' (size - min size xyz'.len)
        (buf ++ xyz'.chunk size) := by
  have hdone : ¬ (xyz.atEof = true ∨ size ≤ 0) := by
    rw [hatEof]
    exact not_or.2 ⟨Bool.noConfusion, hsize.not_ge⟩
  rw [Xyz.readLoop, if_neg hdone, if_pos hlen, hretry]
  rfl

/-- What is read from a stream that is not at its end. -/
theorem readLoop_reads (hfit : t.blocks.flatten.length < 2 ^ 32) (h : Midway t crc k got xyz)
    (hsends : Sends t crc k lines labels) (hcareful : Careful 0 labels) (hn : size.toNat + 2 ≤ n) :
    Reads t got buf (xyz.readLoop n lines size buf) := by
  induction n generalizing xyz k got buf lines labels size with
  | zero => omega
  | succ n ih =>
    obtain hsize | hsize := le_or_gt size 0
    · exact reads_of_done (.inr hsize) (.reading h hsends hcareful)
    -- the bytes at the front of the packet are stored
    have hcopy {k : ℕ} {xyz : Xyz} {lines : List (List UInt8)} {labels : List Label}
        (h : Midway t crc k got xyz) (hlen : 0 < xyz.len) (hsends : Sends t crc k lines labels)
        (hcareful : Careful 0 labels) : Reads t got buf ((xyz.advance size).readLoop n lines
          (size - min size xyz.len) (buf ++ xyz.chunk size)) :=
      .of_append (ih (midway_advance h hlen hsize) hsends hcareful (by omega))
    obtain hlen | hlen := h.len.eq_or_lt
    · have hgot : got = (t.upTo k).take t.file.length := by
        rw [← h.got, ← hlen, Int.toNat_zero, List.take_zero, List.append_nil]
      have hretry := @retryLoop_refilled t xyz crc 0 k maxRetries cancel lines labels hfit
        h.toTracks
        hsends hcareful rfl (fun _ ↦ by decide)
      rw [← hgot] at hretry
      generalize hres : xyz.retryLoop maxRetries cancel lines = res at hretry
      obtain ⟨stat, xyz', lines'⟩ := res
      rw [readLoop_of_retry hsize h.atEof hlen.symm hres]
      obtain ⟨hstat, hatEof⟩ | ⟨hatEof, hk⟩ | ⟨hstat, hpos, hmidway, labels, hsends, hcareful⟩ :=
        hretry
      · dsimp only at hstat hatEof
        rw [if_pos hstat]
        refine ⟨[], some stat, { xyz' with len := -1 }, lines', ?_, .failed hatEof ?_ ?_⟩
        · rw [List.append_nil]
        · exact neg_one_lt_zero
        · rw [List.append_nil]
          exact h.prefix
      · dsimp only at hatEof
        have hfile : got = t.file := by
          rw [hgot, hk, t.upTo_length, List.take_left]
        split
        · refine ⟨[], some stat, { xyz' with len := -1 }, lines', ?_, .ended hatEof ?_⟩
          · rw [List.append_nil]
          · rw [List.append_nil, hfile]
        · obtain ⟨n, rfl⟩ : ∃ m, n = m + 1 := ⟨n - 1, by omega⟩
          exact reads_of_done (.inl hatEof) (.ended hatEof hfile)
      · dsimp only at hstat hpos hmidway hsends
        have hroom := hmidway.room hpos
        rw [if_neg hstat.not_lt, hmidway.atEof, if_neg Bool.false_ne_true, if_neg (by omega)]
        exact hcopy hmidway hpos hsends hcareful
    · rw [readLoop_of_len h hlen hsize]
      exact hcopy h hlen hsends hcareful

/-- A read after one that failed would copy a negative number of bytes. -/
theorem streamRead_reads (hfit : t.blocks.flatten.length < 2 ^ 32) (h : Status t got xyz lines)
    (hlen : xyz.atEof = true ∨ size ≤ 0 ∨ 0 ≤ xyz.len) :
    Reads t got [] (xyz.streamRead lines size) := by
  unfold Xyz.streamRead
  cases h with
  | reading h hsends hcareful => exact readLoop_reads hfit h hsends hcareful (by omega)
  | ended hatEof h => exact reads_of_done (.inl hatEof) (.ended hatEof h)
  | failed hatEof hneg h =>
    have hsize : size ≤ 0 := by
      obtain hatEof' | hsize | hlen := hlen
      · exact absurd (hatEof'.symm.trans hatEof) Bool.noConfusion
      · exact hsize
      · exact absurd hneg hlen.not_gt
    exact reads_of_done (.inr hsize) (.failed hatEof hneg h)

/-! ## Transfers -/

/-- The reads of a program: the bytes they return together. -/
def readAll : Xyz → List (List UInt8) → List ℤ → Option (List UInt8 × Xyz)
  | xyz, _, [] => some ([], xyz)
  | xyz, lines, size :: sizes => do
    let (buf, _, xyz, lines) ← xyz.streamRead lines size
    let (bufs, xyz) ← readAll xyz lines sizes
    some (buf ++ bufs, xyz)

/-- Nothing is asked for while the length in the packet is negative, as it is after a failed
read. -/
def Prudent : Xyz → List (List UInt8) → List ℤ → Prop
  | _, _, [] => True
  | xyz, lines, size :: sizes => (xyz.atEof = true ∨ size ≤ 0 ∨ 0 ≤ xyz.len) ∧
    ∀ buf err xyz' lines', xyz.streamRead lines size = some (buf, err, xyz', lines') →
      Prudent xyz' lines' sizes

theorem readAll_status {sizes : List ℤ} (hfit : t.blocks.flatten.length < 2 ^ 32)
    (h : Status t got xyz lines) (hprudent : Prudent xyz lines sizes) :
    ∃ data xyz' lines', readAll xyz lines sizes = some (data, xyz') ∧
      Status t (got ++ data) xyz' lines' := by
  induction sizes generalizing xyz got lines with
  | nil => exact ⟨[], xyz, lines, rfl, by rwa [List.append_nil]⟩
  | cons size sizes ih =>
    obtain ⟨new, err, xyz₁, lines₁, heq, hstatus⟩ := streamRead_reads hfit h hprudent.1
    obtain ⟨data, xyz', lines', hdata, hstatus'⟩ := ih hstatus (hprudent.2 _ _ _ _ heq)
    refine ⟨new ++ data, xyz', lines', ?_, by rwa [← List.append_assoc]⟩
    rw [readAll, heq]
    dsimp only [List.nil_append, Option.bind_eq_bind, Option.bind_some]
    rw [hdata]
    rfl

/-- The reads return a beginning of the file, and at the end of the stream the file. -/
def Delivers (t : Transfer) (xyz : Xyz) (lines : List (List UInt8)) (sizes : List ℤ) : Prop :=
  ∃ err xyz' lines', xyz.streamOpen ymodem lines = some (err, xyz', lines') ∧
    (err = none → ∃ data xyz'', readAll xyz' lines' sizes = some (data, xyz'') ∧
      data <+: t.file ∧ (xyz''.atEof = true → data = t.file))

theorem delivers_of_careful (t : Transfer) (xyz : Xyz) (lines : List (List UInt8))
    (labels : List Label) (sizes : List ℤ) (h : Opening t maxRetriesWithCrc true lines labels)
    (hfit : t.blocks.flatten.length < 2 ^ 32) (hcareful : Careful 0 labels)
    (hprudent : ∀ xyz' lines', xyz.streamOpen ymodem lines = some (none, xyz', lines') →
      Prudent xyz' lines' sizes) : Delivers t xyz lines sizes := by
  have hfile : t.file.length < 2 ^ 32 := by
    rw [t.flatten, List.length_append] at hfit
    omega
  obtain ⟨⟨err, xyz', lines'⟩, heq, hopened⟩ := streamOpen_opened xyz hfile h
  refine ⟨err, xyz', lines', heq, ?_⟩
  rintro rfl
  obtain ⟨stat, hstat⟩ | ⟨-, crc, htracks, hlen, hsends⟩ := hopened
  · exact absurd hstat (Option.some_ne_none stat).symm
  · have hmidway : Midway t crc 0 [] xyz' :=
      ⟨htracks, hlen.ge, fun h ↦ absurd hlen h.ne', by
        dsimp only at hlen
        rw [hlen, t.upTo_zero, List.take_nil, Int.toNat_zero, List.take_zero, List.append_nil]⟩
    obtain ⟨data, xyz'', _, hdata, hstatus⟩ := readAll_status hfit
      (.reading hmidway hsends hcareful) (hprudent _ _ heq)
    exact ⟨data, xyz'', hdata, hstatus.prefix, hstatus.eq_file⟩

/-! ## A file of one byte -/

/-- The first block for a file `a` of one byte. -/
def noteInfo : List UInt8 := 97 :: 0 :: 49 :: List.replicate 125 0

/-- The block of the file. -/
def noteBlock : List UInt8 := 1 :: List.replicate 127 eofChar

/-- A file of one byte. -/
def note : Transfer where
  file := [1]
  blocks := [noteBlock]
  info := noteInfo
  pad := List.replicate 127 eofChar
  size := by decide +kernel
  nonempty := List.cons_ne_nil 1 []
  flatten := by decide +kernel
  last := by decide +kernel
  announces := by
    refine ⟨[97], 0, List.replicate 124 0, by decide +kernel, .inl rfl, ?_⟩
    rw [List.length_singleton, decimal, Nat.digits_of_lt 10 1 one_ne_zero (by decide)]
    rfl

/-- A line with a block and its CRC. -/
def crcLine (j : ℕ) (data : List UInt8) : List UInt8 :=
  blockBytes j data ++
    [UInt8.ofNat (crc16Ccitt 0 data / 256), UInt8.ofNat (crc16Ccitt 0 data % 256)]

theorem crc16Tab_lt (i : ℕ) : crc16Tab.getD i 0 < 2 ^ 16 := by
  have hall : ∀ c ∈ crc16Tab, c < 2 ^ 16 := by decide +kernel
  rw [List.getD_eq_getElem?_getD]
  cases hget : crc16Tab[i]? with
  | none => exact Nat.two_pow_pos 16
  | some c => exact hall c (List.mem_of_getElem? hget)

theorem crc16Ccitt_lt {cksum : ℕ} (h : cksum < 2 ^ 16) (data : List UInt8) :
    crc16Ccitt cksum data < 2 ^ 16 := by
  induction data generalizing cksum with
  | nil => exact h
  | cons b data ih =>
      rw [crc16Ccitt]
      exact ih (Nat.xor_lt_two_pow (crc16Tab_lt _) (Nat.mod_lt _ (by decide)))

theorem intact_crcLine {j : ℕ} {data : List UInt8}
    (hsize : data.length = 128 ∨ data.length = 1024) :
    Intact true j data (crcLine j data) := by
  refine ⟨hsize, _, rfl, .crc ?_⟩
  have hlt := @crc16Ccitt_lt 0 (by decide) data
  rw [UInt8.toNat_ofNat', UInt8.toNat_ofNat', Nat.mod_mod, Nat.mod_eq_of_lt (by omega)]
  exact (Nat.div_add_mod' _ 256).symm

theorem intact_noteInfo : Intact true 0 noteInfo (crcLine 0 noteInfo) := intact_crcLine (.inl rfl)

theorem intact_noteBlock : Intact true 1 noteBlock (crcLine 1 noteBlock) :=
  intact_crcLine (.inl rfl)

/-- The static variable before the first transfer. -/
def idle : Xyz :=
  ⟨List.replicate 1024 0, 0, 0, 0, 0, 0, 0, 0, 0, false, false, false, 0, 0, []⟩

theorem opening_note : Opening note maxRetriesWithCrc true
    [crcLine 0 noteInfo, crcLine 0 noteInfo, crcLine 1 noteBlock, [eot], []]
    [.again, .next, .eot] :=
  .info intact_noteInfo (.again rfl intact_noteInfo (.next rfl intact_noteBlock (.eot rfl)))

theorem delivers_note : Delivers note idle
    [crcLine 0 noteInfo, crcLine 0 noteInfo, crcLine 1 noteBlock, [eot], []] [2] := by
  have hsize : note.blocks.flatten.length < 2 ^ 32 := (by decide : 128 < 2 ^ 32)
  refine delivers_of_careful note idle _ _ [2] opening_note hsize ⟨by decide, trivial⟩ ?_
  intro xyz lines heq
  have hlen : (idle.streamOpen ymodem [crcLine 0 noteInfo, crcLine 0 noteInfo, crcLine 1 noteBlock,
      [eot], []]).map (·.2.1.len) = some 0 := by decide +kernel
  rw [heq] at hlen
  exact ⟨.inr (.inr (Option.some.inj hlen).ge), fun _ _ _ _ _ ↦ trivial⟩

/-- Twenty further copies of the first block use up the retries: its bytes are read as the file. -/
theorem not_delivers_repeats : ¬ ∀ (t : Transfer) (xyz : Xyz) (lines : List (List UInt8))
    (labels : List Label) (sizes : List ℤ), Opening t maxRetriesWithCrc true lines labels →
    Delivers t xyz lines sizes := by
  intro h
  have hsends (n : ℕ) : Sends note true 0 (List.replicate n (crcLine 0 noteInfo))
      (List.replicate n .again) := by
    induction n with
    | zero => exact .silent
    | succ n ih => exact .again rfl intact_noteInfo ih
  obtain ⟨err, xyz, lines, hopen, hreads⟩ := h note idle _ _ [1] (.info intact_noteInfo (hsends 20))
  have hread : (idle.streamOpen ymodem (List.replicate 21 (crcLine 0 noteInfo))).bind
      (fun r ↦ (readAll r.2.1 r.2.2 [1]).map fun res ↦ (r.1, res.1)) = some (none, [97]) := by
    decide +kernel
  rw [show List.replicate 21 (crcLine 0 noteInfo) =
    crcLine 0 noteInfo :: List.replicate 20 (crcLine 0 noteInfo) from rfl, hopen,
    Option.bind_some] at hread
  obtain ⟨⟨data, xyz'⟩, hdata, heq⟩ := Option.map_eq_some_iff.1 hread
  obtain ⟨herr, hbytes⟩ := Prod.mk.inj heq
  obtain ⟨data', xyz'', hdata', hprefix, -⟩ := hreads herr
  obtain rfl : data' = data := (Prod.mk.inj (Option.some.inj (hdata'.symm.trans hdata))).1
  dsimp only at hbytes
  rw [hbytes] at hprefix
  exact absurd hprefix (by decide)

end MiniPi.Ymodem
