import MiniPi.Ustream.Fifo

/-!
# A stream is a lossless queue

Each side of a stream goes through any sequence of calls.  Beside the buffers it is recorded what
went in and what came out.
-/

namespace MiniPi.Ustream

/-- The list after `ustream_init_defaults`, with the given limits. -/
def BufList.fresh (minBuffers maxBuffers : ℤ) (bufferLen : ℕ) (h : 0 < bufferLen) : BufList where
  bufs := []
  dataTail := none
  dataBytes := 0
  minBuffers := minBuffers
  maxBuffers := maxBuffers
  bufferLen := bufferLen
  buffers := 0
  len_pos := h

theorem BufList.ok_fresh (minBuffers maxBuffers : ℤ) (bufferLen : ℕ) (h : 0 < bufferLen) :
    (fresh minBuffers maxBuffers bufferLen h).Ok := ⟨.inl ⟨rfl, rfl⟩, rfl⟩

/-! ## The write side -/

/-- A call on the write side, with what the low-level callback will accept during it. -/
inductive WriteCall
  | write (cb : BufList.Callback) (data : List UInt8) (more : Bool)
  | pending (cb : BufList.Callback)

/-- The write side of a stream. -/
structure Writer where
  w : BufList
  /-- The bytes that the callback accepted. -/
  sent : List UInt8
  /-- The bytes that `ustream_write` reported as accepted. -/
  accepted : List UInt8

namespace Writer

/-- One call; `none` would be a loop that does not end. -/
def call (s : Writer) : WriteCall → Option Writer
  | .write cb data more =>
    (s.w.write cb data more).map fun (w, sent, n) ↦
      ⟨w, s.sent ++ sent, s.accepted ++ data.take n⟩
  | .pending cb => (s.w.writePending cb).map fun (w, sent) ↦ ⟨w, s.sent ++ sent, s.accepted⟩

/-- The calls, one after the other. -/
def calls (s : Writer) (cs : List WriteCall) : Option Writer := cs.foldlM call s

/-- What went in is what came out and what is still there. -/
structure Lossless (s : Writer) : Prop where
  ok : s.w.Ok
  queue : s.sent ++ s.w.content = s.accepted

theorem Lossless.call {s : Writer} (h : s.Lossless) (c : WriteCall) :
    ∃ s', s.call c = some s' ∧ s'.Lossless := by
  cases c with
  | write cb data more =>
      obtain ⟨w, sent, n, heq, -, hok, hqueue⟩ := BufList.write_spec cb data more h.ok
      refine ⟨⟨w, s.sent ++ sent, s.accepted ++ data.take n⟩, ?_, hok, ?_⟩
      · simp only [Writer.call, heq, Option.map_some]
      · rw [← h.queue, List.append_assoc, List.append_assoc, hqueue]
  | pending cb =>
      obtain ⟨w, sent, heq, hok, hqueue⟩ := BufList.writePending_spec cb h.ok
      refine ⟨⟨w, s.sent ++ sent, s.accepted⟩, ?_, hok, ?_⟩
      · simp only [Writer.call, heq, Option.map_some]
      · rw [← h.queue, List.append_assoc, hqueue]

theorem Lossless.calls {s : Writer} (h : s.Lossless) (cs : List WriteCall) :
    ∃ s', s.calls cs = some s' ∧ s'.Lossless := by
  induction cs generalizing s with
  | nil => exact ⟨s, rfl, h⟩
  | cons c cs ih =>
      obtain ⟨s₁, heq, h₁⟩ := h.call c
      obtain ⟨s', heq', h'⟩ := ih h₁
      refine ⟨s', ?_, h'⟩
      rw [Writer.calls, List.foldlM_cons, heq]
      exact heq'

end Writer

/-! ## The read side -/

/-- A call on the read side; the bytes of `fill` are those put behind `tail`. -/
inductive ReadCall
  | reserve (len : ℕ)
  | fill (data : List UInt8)
  | consume (len : ℕ)

/-- The read side of a stream. -/
structure Reader where
  r : BufList
  /-- The bytes that were filled in. -/
  filled : List UInt8
  /-- The bytes that were consumed. -/
  consumed : List UInt8

namespace Reader

/-- One call; `none` is a call of `abort`. -/
def call (s : Reader) : ReadCall → Option Reader
  | .reserve len => some { s with r := (s.r.reserve len).1 }
  | .fill data => (s.r.fillRead data).map fun r ↦ { s with r, filled := s.filled ++ data }
  | .consume len =>
    (s.r.consume len).map fun (r, gone) ↦ { s with r, consumed := s.consumed ++ gone }

/-- The calls, one after the other. -/
def calls (s : Reader) (cs : List ReadCall) : Option Reader := cs.foldlM call s

/-- What went in is what came out and what is still there. -/
structure Lossless (s : Reader) : Prop where
  ok : s.r.Ok
  queue : s.consumed ++ s.r.content = s.filled

theorem consume_eq_none {l : BufList} (h : l.Ok) {len : ℕ} (hlen : l.content.length < len) :
    l.consume len = none := by
  have hdata := h.dataBytes
  unfold BufList.consume
  rw [if_neg (by omega), if_pos (by omega)]

theorem Lossless.call {s s' : Reader} (h : s.Lossless) {c : ReadCall} (hc : s.call c = some s') :
    s'.Lossless := by
  cases c with
  | reserve len =>
      cases hc
      obtain ⟨hok, hcontent, -⟩ := BufList.reserve_spec len h.ok
      exact ⟨hok, by rw [hcontent, h.queue]⟩
  | fill data =>
      obtain ⟨r, hr, rfl⟩ := Option.map_eq_some_iff.1 hc
      obtain ⟨hok, hcontent⟩ := BufList.fillRead_spec data h.ok hr
      exact ⟨hok, by rw [hcontent, ← List.append_assoc, h.queue]⟩
  | consume len =>
      obtain ⟨⟨r, gone⟩, hr, rfl⟩ := Option.map_eq_some_iff.1 hc
      obtain hle | hlt := le_or_gt len s.r.content.length
      · obtain ⟨r', heq, hok, hcontent⟩ := BufList.consume_spec len h.ok hle
        obtain ⟨rfl, rfl⟩ : r' = r ∧ s.r.content.take len = gone := by simpa [heq] using hr
        refine ⟨hok, ?_⟩
        rw [hcontent, List.append_assoc, List.take_append_drop, h.queue]
      · rw [consume_eq_none h.ok hlt] at hr
        cases hr

theorem Lossless.calls {s s' : Reader} (h : s.Lossless) {cs : List ReadCall}
    (hc : s.calls cs = some s') : s'.Lossless := by
  induction cs generalizing s with
  | nil =>
      cases hc
      exact h
  | cons c cs ih =>
      rw [Reader.calls, List.foldlM_cons] at hc
      obtain ⟨s₁, h₁, hc⟩ := Option.bind_eq_some_iff.1 hc
      exact ih (h.call h₁) hc

/-- What `ustream_get_read_buf` hands out comes first, and it hands out something if it can. -/
theorem getReadBuf_spec {l : BufList} (h : l.Ok) :
    l.getReadBuf <+: l.content ∧ (l.content ≠ [] → l.getReadBuf ≠ []) := by
  cases hl : l.bufs with
  | nil => simp [BufList.getReadBuf, BufList.content, hl]
  | cons b rest =>
      have hbuf : l.getReadBuf = b.bytes := by simp [BufList.getReadBuf, hl]
      rw [hbuf]
      refine ⟨?_, h.placed.head_ne_nil hl⟩
      rw [BufList.content_cons hl]
      exact List.prefix_append ..

end Reader

/-- On the write side every sequence of calls ends in a state where the bytes that the callback
accepted and the bytes in the buffers are the bytes that were reported as accepted.  On the read
side the same holds for the bytes that were consumed and filled in: the next bytes to be consumed
are those that `ustream_get_read_buf` hands out, all of them can be consumed, and the bytes for
which `ustream_reserve` found room can be filled in. -/
theorem lossless_fifo (minBuffers maxBuffers : ℤ) (bufferLen : ℕ) (h : 0 < bufferLen) :
    (∀ cs : List WriteCall,
      ∃ s, Writer.calls ⟨.fresh minBuffers maxBuffers bufferLen h, [], []⟩ cs = some s ∧
        s.sent ++ s.w.content = s.accepted ∧ s.w.dataBytes = s.w.content.length) ∧
    (∀ (cs : List ReadCall) (s : Reader),
      Reader.calls ⟨.fresh minBuffers maxBuffers bufferLen h, [], []⟩ cs = some s →
        s.consumed ++ s.r.content = s.filled ∧ s.r.dataBytes = s.r.content.length ∧
        s.r.getReadBuf <+: s.r.content ∧ (s.r.content ≠ [] → s.r.getReadBuf ≠ []) ∧
        (∀ n ≤ s.r.content.length, ∃ r', s.r.consume n = some (r', s.r.content.take n) ∧
          r'.content = s.r.content.drop n) ∧
        (∀ len data, 0 < (s.r.reserve len).2 → data.length ≤ (s.r.reserve len).2 →
          ((s.r.reserve len).1.fillRead data).isSome)) := by
  have hfresh := BufList.ok_fresh minBuffers maxBuffers bufferLen h
  refine ⟨fun cs ↦ ?_, fun cs s hs ↦ ?_⟩
  · obtain ⟨s, heq, hs⟩ := Writer.Lossless.calls (s := ⟨_, [], []⟩) ⟨hfresh, rfl⟩ cs
    exact ⟨s, heq, hs.queue, hs.ok.dataBytes⟩
  · have hs := Reader.Lossless.calls (s := ⟨_, [], []⟩) ⟨hfresh, rfl⟩ hs
    obtain ⟨hpre, hne⟩ := Reader.getReadBuf_spec hs.ok
    refine ⟨hs.queue, hs.ok.dataBytes, hpre, hne, fun n hn ↦ ?_, fun len data hpos hdata ↦ ?_⟩
    · obtain ⟨r', heq, -, hcontent⟩ := BufList.consume_spec n hs.ok hn
      exact ⟨r', heq, hcontent⟩
    · obtain ⟨before, cur, after, hcut, hroom⟩ := (BufList.reserve_spec len hs.ok).2.2 hpos
      exact hcut.fillRead_isSome (hdata.trans_eq hroom.symm)

/-- A callback that takes one byte at a time, and a stream with buffers of two bytes. -/
theorem lossless_fifo_two :
    (∃ s, Writer.calls ⟨.fresh 1 2 2 (by decide), [], []⟩
      [.write (fun _ data _ ↦ ⟨min 1 data.length, by omega⟩) [1, 2, 3, 4] false,
        .pending fun _ data _ ↦ ⟨min 1 data.length, by omega⟩] = some s ∧
      s.sent ++ s.w.content = s.accepted ∧ s.w.dataBytes = s.w.content.length) ∧
    ∃ s, Reader.calls ⟨.fresh 1 2 2 (by decide), [], []⟩
      [.reserve 2, .fill [1, 2], .reserve 1, .fill [3], .consume 1] = some s ∧
      s.consumed ++ s.r.content = s.filled := by
  refine ⟨(lossless_fifo 1 2 2 (by decide)).1 _, ?_⟩
  obtain ⟨s, hs⟩ := Option.isSome_iff_exists.1 (show (Reader.calls
    ⟨.fresh 1 2 2 (by decide), [], []⟩
    [.reserve 2, .fill [1, 2], .reserve 1, .fill [3], .consume 1]).isSome from by decide +kernel)
  exact ⟨s, hs, ((lossless_fifo 1 2 2 (by decide)).2 _ s hs).1⟩

end MiniPi.Ustream
