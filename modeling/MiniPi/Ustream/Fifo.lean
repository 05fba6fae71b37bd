import Mathlib.Tactic.Linarith
import MiniPi.Ustream.Basic

/-!
# The buffers are a queue

The buffers before `data_tail` hold bytes and the buffers behind it hold none, so that the bytes
in list order are a queue: `data_tail` is where it grows and the head of the list is where it
shrinks.
-/

namespace MiniPi.Ustream

namespace BufList

variable {l l' : BufList} {before after : List Buf} {cur : Buf}

/-- The bytes that the buffers hold, in list order. -/
def content (l : BufList) : List UInt8 := l.bufs.flatMap Buf.bytes

/-- The list is cut at `data_tail`; an empty buffer is as `ustream_init_buf` left it. -/
structure Cut (l : BufList) (before : List Buf) (cur : Buf) (after : List Buf) : Prop where
  bufs : l.bufs = before ++ cur :: after
  dataTail : l.dataTail = some before.length
  before : ∀ b ∈ before, b.bytes ≠ []
  cur : cur.bytes = [] → cur.off = 0
  after : ∀ b ∈ after, b.bytes = [] ∧ b.off = 0

/-- Without a buffer `data_tail` is null, and otherwise it cuts the list. -/
def Placed (l : BufList) : Prop :=
  (l.bufs = [] ∧ l.dataTail = none) ∨ ∃ before cur after, l.Cut before cur after

/-- The invariant between two calls. -/
structure Ok (l : BufList) : Prop where
  placed : l.Placed
  dataBytes : l.dataBytes = l.content.length

theorem flatMap_bytes_of_empty (h : ∀ b ∈ after, b.bytes = [] ∧ b.off = 0) :
    after.flatMap Buf.bytes = [] := by
  rw [List.flatMap_eq_nil_iff]
  exact fun b hb ↦ (h b hb).1

theorem Cut.content_eq (h : l.Cut before cur after) :
    l.content = before.flatMap Buf.bytes ++ cur.bytes := by
  rw [content, h.bufs, List.flatMap_append, List.flatMap_cons, flatMap_bytes_of_empty h.after,
    List.append_nil]

theorem Cut.getElem? (h : l.Cut before cur after) : l.bufs[before.length]? = some cur := by
  rw [h.bufs]
  simp

theorem Cut.placed (h : l.Cut before cur after) : l.Placed := .inr ⟨before, cur, after, h⟩

theorem Cut.congr (h : l.Cut before cur after) (hbufs : l'.bufs = l.bufs)
    (htail : l'.dataTail = l.dataTail) : l'.Cut before cur after :=
  ⟨hbufs.trans h.bufs, htail.trans h.dataTail, h.before, h.cur, h.after⟩

theorem Placed.congr (h : l.Placed) (hbufs : l'.bufs = l.bufs) (htail : l'.dataTail = l.dataTail) :
    l'.Placed := by
  obtain ⟨hb, ht⟩ | ⟨before, cur, after, h⟩ := h
  · exact .inl ⟨hbufs.trans hb, htail.trans ht⟩
  · exact (h.congr hbufs htail).placed

/-- The buffer at `data_tail` is replaced. -/
theorem Cut.set (h : l.Cut before cur after) {b : Buf} (hb : b.bytes = [] → b.off = 0)
    (hbufs : l'.bufs = l.bufs.set before.length b) (htail : l'.dataTail = l.dataTail) :
    l'.Cut before b after := by
  refine ⟨?_, htail.trans h.dataTail, h.before, hb, h.after⟩
  rw [hbufs, h.bufs]
  simp

theorem room_pos_of_empty {b : Buf} (hb : b.bytes = []) (hoff : b.off = 0) : 0 < b.room := by
  have := b.pos
  simp only [Buf.room, hb, hoff, List.length_nil]
  omega

theorem Cut.bytes_ne_nil (h : l.Cut before cur after) (hroom : cur.room = 0) : cur.bytes ≠ [] := by
  intro hnil
  have := room_pos_of_empty hnil (h.cur hnil)
  omega

/-- `data_tail` moves on. -/
theorem Cut.next {b : Buf} (h : l.Cut before cur (b :: after)) (hcur : cur.bytes ≠ [])
    (hbufs : l'.bufs = l.bufs) (htail : l'.dataTail = some (before.length + 1)) :
    l'.Cut (before ++ [cur]) b after := by
  refine ⟨?_, ?_, ?_, fun _ ↦ (h.after b (by simp)).2, fun c hc ↦ h.after c (by simp [hc])⟩
  · rw [hbufs, h.bufs]
    simp
  · rw [htail]
    simp
  · intro c hc
    obtain hc | rfl : c ∈ before ∨ c = cur := by simpa using hc
    · exact h.before c hc
    · exact hcur

/-! ## Buffers come and go -/

@[simp] theorem addBuf_dataBytes (l : BufList) (b : Buf) :
    (l.addBuf b).dataBytes = l.dataBytes := rfl

@[simp] theorem addBuf_bufs (l : BufList) (b : Buf) : (l.addBuf b).bufs = l.bufs ++ [b] := rfl

theorem addBuf_content_init (l : BufList) {n : ℕ} (hn : 0 < n) :
    (l.addBuf (Buf.init n hn)).content = l.content := by
  simp [content, Buf.init]

theorem Cut.addBuf_init (h : l.Cut before cur after) {n : ℕ} (hn : 0 < n) :
    (l.addBuf (Buf.init n hn)).Cut before cur (after ++ [Buf.init n hn]) := by
  refine ⟨?_, ?_, h.before, h.cur, ?_⟩
  · simp [h.bufs]
  · simp [addBuf, h.dataTail]
  · intro b hb
    obtain hb | rfl : b ∈ after ∨ b = Buf.init n hn := by simpa using hb
    · exact h.after b hb
    · exact ⟨rfl, rfl⟩

theorem cut_addBuf_init_of_nil (hbufs : l.bufs = []) (htail : l.dataTail = none) {n : ℕ}
    (hn : 0 < n) : (l.addBuf (Buf.init n hn)).Cut [] (Buf.init n hn) [] := by
  refine ⟨?_, ?_, by simp, fun _ ↦ rfl, by simp⟩
  · simp [hbufs]
  · simp [addBuf, htail]

theorem Placed.addBuf_init (h : l.Placed) {n : ℕ} (hn : 0 < n) :
    (l.addBuf (Buf.init n hn)).Placed := by
  obtain ⟨hb, ht⟩ | ⟨before, cur, after, h⟩ := h
  · exact (cut_addBuf_init_of_nil hb ht hn).placed
  · exact (h.addBuf_init hn).placed

/-- The place of `data_tail` without the head of the list. -/
theorem placed_of_drop_head {b : Buf} {rest : List Buf} (h : l.Placed) (hl : l.bufs = b :: rest)
    (hbufs : l'.bufs = rest)
    (htail : l'.dataTail =
      match l.dataTail with
      | some (i + 1) => some i
      | some 0 => if rest = [] then none else some 0
      | none => none) : l'.Placed := by
  obtain ⟨hb, -⟩ | ⟨before, cur, after, h⟩ := h
  · rw [hb] at hl
    cases hl
  · have hcut := h.bufs.symm.trans hl
    cases before with
    | nil =>
        obtain ⟨rfl, rfl⟩ : cur = b ∧ after = rest := by simpa using hcut
        rw [h.dataTail] at htail
        cases after with
        | nil => exact .inl ⟨hbufs, by simpa using htail⟩
        | cons c after =>
            have hc := h.after c (by simp)
            refine .inr ⟨[], c, after, hbufs, by simpa using htail, by simp, fun _ ↦ hc.2, ?_⟩
            exact fun d hd ↦ h.after d (by simp [hd])
    | cons d before =>
        obtain ⟨rfl, rfl⟩ : d = b ∧ before ++ cur :: after = rest := by simpa using hcut
        rw [h.dataTail] at htail
        refine .inr ⟨before, cur, after, hbufs, by simpa using htail, ?_, h.cur, h.after⟩
        exact fun d hd ↦ h.before d (by simp [hd])

/-- The number of buffers that hold bytes. -/
def occupied (l : BufList) : ℕ := l.bufs.countP fun b ↦ b.bytes ≠ []

theorem occupied_cons {b : Buf} {rest : List Buf} (hl : l.bufs = b :: rest) (hb : b.bytes ≠ []) :
    l.occupied = (rest.countP fun b ↦ b.bytes ≠ []) + 1 := by
  rw [occupied, hl, List.countP_cons_of_pos (by simpa using hb)]

/-- What `ustream_free_buf` does to the head of the list. -/
theorem freeHead_spec {b : Buf} {rest : List Buf} (h : l.Placed) (hl : l.bufs = b :: rest) :
    l.freeHead.Placed ∧ l.freeHead.content = rest.flatMap Buf.bytes ∧
      l.freeHead.dataBytes = l.dataBytes ∧
      l.freeHead.occupied = rest.countP fun b ↦ b.bytes ≠ [] := by
  have hplaced := fun l' ↦ @placed_of_drop_head l l' b rest h hl
  unfold freeHead
  rw [hl]
  dsimp only
  split
  · exact ⟨hplaced _ rfl rfl, rfl, rfl, rfl⟩
  · refine ⟨(hplaced _ rfl rfl).addBuf_init b.pos, ?_, rfl, ?_⟩
    · rw [addBuf_content_init]
      rfl
    · simp [occupied, Buf.init, List.countP_append]

/-- A new buffer is where the list grows; the list was full before. -/
theorem allocBuf_spec (h : l.allocBuf = some l')
    (hfull : (l.bufs = [] ∧ l.dataTail = none) ∨ ∃ before cur, l.Cut before cur [] ∧ cur.room = 0) :
    ∃ before cur, l'.Cut before cur [] ∧ 0 < cur.room ∧ l'.content = l.content ∧
      l'.dataBytes = l.dataBytes := by
  unfold allocBuf at h
  split at h
  · cases h
    have hroom := room_pos_of_empty (b := Buf.init l.bufferLen l.len_pos) rfl rfl
    have hcontent := addBuf_content_init l l.len_pos
    obtain ⟨hb, ht⟩ | ⟨before, cur, hcut, hcur⟩ := hfull
    · refine ⟨[], _, (cut_addBuf_init_of_nil hb ht l.len_pos).congr rfl ?_, hroom, hcontent, rfl⟩
      simp [addBuf, hb, ht]
    · have hnext : { l.addBuf (Buf.init l.bufferLen l.len_pos) with
          dataTail := some (before.length + 1) }.Cut (before ++ [cur]) _ [] :=
        (hcut.addBuf_init l.len_pos).next (hcut.bytes_ne_nil hcur) rfl rfl
      refine ⟨_, _, hnext.congr rfl ?_, hroom, hcontent, rfl⟩
      simp [hcut.bufs]
  · cases h

/-- `ustream_prepare_buf` with the buffer at `data_tail` and its new place. -/
theorem Cut.prepareBuf_eq (h : l.Cut before cur after) (len : ℕ) {b : Buf} {l₁ : BufList}
    (hb : b = if l.shouldMove before.length cur len then cur.move else cur)
    (hl₁ : l₁ = { l with bufs := l.bufs.set before.length b }) :
    l.prepareBuf len =
      if b.room ≠ 0 then some l₁
      else if before.length + 1 < l₁.bufs.length then
        some { l₁ with dataTail := some (before.length + 1) }
      else l₁.allocBuf := by
  unfold prepareBuf
  split
  next ht => simp [h.dataTail] at ht
  next i ht =>
    obtain rfl : before.length = i := by simpa [h.dataTail] using ht
    rw [h.getElem?, hl₁, hb]

/-- What `ustream_prepare_buf` does: it finds room, and no byte moves to another place of the
queue. -/
theorem prepareBuf_spec (h : l.Placed) {len : ℕ} (hp : l.prepareBuf len = some l') :
    ∃ before cur after, l'.Cut before cur after ∧ 0 < cur.room ∧ l'.content = l.content ∧
      l'.dataBytes = l.dataBytes := by
  obtain ⟨hb, ht⟩ | ⟨before, cur, after, h⟩ := h
  · simp only [prepareBuf, ht] at hp
    obtain ⟨before, cur, hcut⟩ := allocBuf_spec hp (.inl ⟨hb, ht⟩)
    exact ⟨before, cur, [], hcut⟩
  · obtain ⟨b, hb⟩ : ∃ b, b = if l.shouldMove before.length cur len then cur.move else cur :=
      ⟨_, rfl⟩
    obtain ⟨l₁, hl₁⟩ : ∃ l₁, l₁ = { l with bufs := l.bufs.set before.length b } := ⟨_, rfl⟩
    rw [h.prepareBuf_eq len hb hl₁] at hp
    have hbytes : b.bytes = cur.bytes := by
      rw [hb]
      split <;> rfl
    have hoff : b.bytes = [] → b.off = 0 := by
      rw [hbytes, hb]
      split
      · exact fun _ ↦ rfl
      · exact h.cur
    have hset : l₁.Cut before b after := h.set hoff (by rw [hl₁]) (by rw [hl₁])
    have hcontent : l₁.content = l.content := by rw [hset.content_eq, h.content_eq, hbytes]
    have hdata : l₁.dataBytes = l.dataBytes := by rw [hl₁]
    split at hp
    next hroom =>
      cases hp
      exact ⟨before, b, after, hset, Nat.pos_of_ne_zero hroom, hcontent, hdata⟩
    next hroom =>
      have hroom : b.room = 0 := not_not.1 hroom
      have hlen : l₁.bufs.length = before.length + 1 + after.length := by
        rw [hset.bufs, List.length_append, List.length_cons]
        omega
      split at hp
      next hlt =>
        cases hp
        cases after with
        | nil =>
            rw [List.length_nil] at hlen
            omega
        | cons c after =>
            have hc := h.after c (by simp)
            refine ⟨before ++ [b], c, after, ?_, room_pos_of_empty hc.1 hc.2, hcontent, hdata⟩
            exact hset.next (hset.bytes_ne_nil hroom) rfl rfl
      next hlt =>
        obtain rfl : after = [] := List.length_eq_zero_iff.1 (by omega)
        obtain ⟨before', cur', hcut, hpos, hc, hd⟩ :=
          allocBuf_spec hp (.inr ⟨before, b, hset, hroom⟩)
        exact ⟨before', cur', [], hcut, hpos, hc.trans hcontent, hd.trans hdata⟩

/-- A buffer with bytes behind its old ones is still as it should be. -/
theorem Cut.bytes_append (h : l.Cut before cur after) (data : List UInt8) :
    (cur.append data).bytes = [] → (cur.append data).off = 0 := by
  intro hnil
  exact h.cur (List.append_eq_nil_iff.1 hnil).1

/-- What the copy at `data_tail` does. -/
theorem Cut.append_spec (h : l.Cut before cur after) (data : List UInt8) :
    (l.append data).2 = min cur.room data.length ∧
      (l.append data).1.Placed ∧
      (l.append data).1.content = l.content ++ data.take (min cur.room data.length) ∧
      (l.append data).1.dataBytes = l.dataBytes + (min cur.room data.length : ℕ) := by
  have happend : l.append data =
      ({ l with
          bufs := l.bufs.set before.length (cur.append data)
          dataBytes := l.dataBytes + (min cur.room data.length : ℕ) },
        min cur.room data.length) := by
    simp [append, h.dataTail, h.getElem?]
  have hcut : (l.append data).1.Cut before (cur.append data) after := by
    rw [happend]
    exact h.set (h.bytes_append data) rfl rfl
  refine ⟨by rw [happend], hcut.placed, ?_, by rw [happend]⟩
  rw [hcut.content_eq, h.content_eq, List.append_assoc, ← List.take_eq_take_min]
  rfl

/-! ## Calls on the write side -/

/-- The loop takes the first bytes that it is offered, and ends. -/
theorem writeBuffered_spec (fuel : ℕ) (data : List UInt8) (wr : ℕ) (h : l.Ok)
    (hfuel : data.length ≤ fuel) :
    ∃ l' n, writeBuffered fuel l data wr = some (l', wr + n) ∧ n ≤ data.length ∧ l'.Ok ∧
      l'.content = l.content ++ data.take n := by
  induction fuel generalizing l data wr with
  | zero =>
      obtain rfl : data = [] := List.length_eq_zero_iff.1 (Nat.le_zero.1 hfuel)
      exact ⟨l, 0, by simp [writeBuffered], le_rfl, h, by simp⟩
  | succ fuel ih =>
      unfold writeBuffered
      split
      next hnil => exact ⟨l, 0, rfl, Nat.zero_le _, h, by simp⟩
      next hne =>
        split
        next => exact ⟨l, 0, rfl, Nat.zero_le _, h, by simp⟩
        next l₁ hp =>
          obtain ⟨before, cur, after, hcut, hroom, hcontent, hdata⟩ := prepareBuf_spec h.placed hp
          obtain ⟨hn, hplaced, hcontent', hdata'⟩ := hcut.append_spec data
          have hlen := List.length_pos_iff.2 hne
          set k := min cur.room data.length with hk
          have hk' : 0 < k ∧ k ≤ data.length := by omega
          have hok : (l₁.append data).1.Ok := by
            refine ⟨hplaced, ?_⟩
            rw [hdata', hdata, h.dataBytes, hcontent', hcontent, List.length_append,
              List.length_take, Nat.min_eq_left hk'.2]
            push_cast
            rfl
          have hfuel' : (data.drop k).length ≤ fuel := by
            rw [List.length_drop]
            omega
          obtain ⟨l', n, heq, hle, hok', hfinal⟩ := ih (data.drop k) (wr + k) hok hfuel'
          refine ⟨l', k + n, ?_, ?_, hok', ?_⟩
          · simp only [hn]
            rw [heq, Nat.add_assoc]
          · rw [List.length_drop] at hle
            omega
          · rw [hfinal, hcontent', hcontent, List.append_assoc, List.take_add]

/-- What `ustream_write` does: the callback gets the first bytes and the queue the next ones. -/
theorem write_spec (cb : Callback) (data : List UInt8) (more : Bool) (h : l.Ok) :
    ∃ l' sent n, write cb l data more = some (l', sent, n) ∧ n ≤ data.length ∧ l'.Ok ∧
      sent ++ l'.content = l.content ++ data.take n := by
  unfold write
  split
  next hzero =>
    have hnil : l.content = [] := by
      rw [← List.length_eq_zero_iff]
      have := h.dataBytes
      omega
    have hle : (cb 0 data more).val ≤ data.length := Nat.lt_succ_iff.1 (cb 0 data more).isLt
    dsimp only
    set wr := (cb 0 data more).val
    split
    next hall => exact ⟨l, data, wr, rfl, hle, h, by simp [hnil, hall]⟩
    next =>
      obtain ⟨l', n, heq, hn, hok, hcontent⟩ :=
        writeBuffered_spec data.length (data.drop wr) wr h (by simp)
      rw [List.length_drop] at hn
      refine ⟨l', data.take wr, wr + n, by rw [heq]; rfl, by omega, hok, ?_⟩
      rw [hcontent, hnil, List.nil_append, List.nil_append, List.take_add]
  next =>
    obtain ⟨l', n, heq, hn, hok, hcontent⟩ := writeBuffered_spec data.length data 0 h le_rfl
    exact ⟨l', [], 0 + n, by rw [heq]; rfl, by omega, hok, by simpa using hcontent⟩

/-- A head from which some bytes are taken, but not all. -/
theorem placed_advance {b : Buf} {rest : List Buf} {len : ℕ} (h : l.Placed)
    (hl : l.bufs = b :: rest) (hlen : len < b.bytes.length)
    (hbufs : l'.bufs = b.advance len :: rest) (htail : l'.dataTail = l.dataTail) : l'.Placed := by
  have hne : (b.advance len).bytes ≠ [] := by
    rw [← List.length_pos_iff]
    simp only [Buf.advance, List.length_drop]
    omega
  obtain ⟨hb, -⟩ | ⟨before, cur, after, h⟩ := h
  · rw [hb] at hl
    cases hl
  · have hcut := h.bufs.symm.trans hl
    cases before with
    | nil =>
        obtain ⟨rfl, rfl⟩ : cur = b ∧ after = rest := by simpa using hcut
        exact .inr ⟨[], _, after, hbufs, htail.trans h.dataTail, by simp,
          fun hnil ↦ absurd hnil hne, h.after⟩
    | cons d before =>
        obtain ⟨rfl, rfl⟩ : d = b ∧ before ++ cur :: after = rest := by simpa using hcut
        refine .inr ⟨d.advance len :: before, cur, after, hbufs, htail.trans h.dataTail, ?_, h.cur,
          h.after⟩
        intro c hc
        obtain rfl | hc := List.mem_cons.1 hc
        · exact hne
        · exact h.before c (by simp [hc])

theorem content_cons {b : Buf} {rest : List Buf} (hl : l.bufs = b :: rest) :
    l.content = b.bytes ++ rest.flatMap Buf.bytes := by
  rw [content, hl, List.flatMap_cons]

/-- A turn of the loop of `ustream_write_pending` that frees the head. -/
theorem Ok.freeHead {b : Buf} {rest : List Buf} (h : l.Ok) (hl : l.bufs = b :: rest) :
    { l with dataBytes := l.dataBytes - (b.bytes.length : ℕ) }.freeHead.Ok := by
  have hplaced : { l with dataBytes := l.dataBytes - (b.bytes.length : ℕ) }.Placed :=
    h.placed.congr rfl rfl
  obtain ⟨hp, hc, hd, -⟩ := freeHead_spec hplaced hl
  refine ⟨hp, ?_⟩
  have hdata := h.dataBytes
  rw [content_cons hl, List.length_append] at hdata
  rw [hd, hc]
  dsimp only
  omega

/-- A turn that takes some bytes from the head. -/
theorem Ok.advance {b : Buf} {rest : List Buf} {len : ℕ} (h : l.Ok) (hl : l.bufs = b :: rest)
    (hlen : len < b.bytes.length) :
    { l with dataBytes := l.dataBytes - len, bufs := b.advance len :: rest }.Ok := by
  refine ⟨placed_advance h.placed hl hlen rfl rfl, ?_⟩
  have hdata := h.dataBytes
  rw [content_cons hl, List.length_append] at hdata
  rw [content_cons rfl, List.length_append]
  simp only [Buf.advance, List.length_drop]
  omega

theorem take_append_advance (b : Buf) (len : ℕ) (bs : List UInt8) :
    b.bytes.take len ++ ((b.advance len).bytes ++ bs) = b.bytes ++ bs := by
  rw [← List.append_assoc]
  simp [Buf.advance]

/-- The loop hands the callback the first bytes of the queue, and ends. -/
theorem pendingLoop_spec (cb : Callback) (fuel k : ℕ) (h : l.Ok) (hfuel : l.occupied ≤ fuel) :
    ∃ l' sent, pendingLoop cb fuel k l = some (l', sent) ∧ l'.Ok ∧
      sent ++ l'.content = l.content := by
  induction fuel using Nat.strong_induction_on generalizing l k with
  | _ fuel ih =>
  unfold pendingLoop
  split
  next => exact ⟨l, [], rfl, h, rfl⟩
  next b rest hl =>
    split
    next => exact ⟨l, [], rfl, h, rfl⟩
    next hdata =>
      have hle := Nat.lt_succ_iff.1 (cb k b.bytes (decide (rest ≠ []))).isLt
      dsimp only
      generalize (cb k b.bytes (decide (rest ≠ []))).val = len at hle ⊢
      split
      next => exact ⟨l, [], rfl, h, rfl⟩
      next hpos =>
        split
        next hlt =>
          refine ⟨_, _, rfl, h.advance hl hlt, ?_⟩
          rw [content_cons rfl, content_cons hl, take_append_advance]
        next hge =>
          obtain rfl : len = b.bytes.length := by omega
          have hok := h.freeHead hl
          obtain ⟨-, hc, -, ho⟩ := freeHead_spec
            (l := { l with dataBytes := l.dataBytes - (b.bytes.length : ℕ) })
            (h.placed.congr rfl rfl) hl
          split
          next hrest =>
            refine ⟨_, _, rfl, hok, ?_⟩
            rw [hc, content_cons hl]
          next hrest =>
            have hocc := occupied_cons hl (List.length_pos_iff.1 (Nat.pos_of_ne_zero hpos))
            cases fuel with
            | zero => omega
            | succ fuel =>
                obtain ⟨l', sent, heq, hok', hsent⟩ :=
                  ih fuel (Nat.lt_succ_self _) (k + 1) hok (by omega)
                refine ⟨l', b.bytes ++ sent, by simp only [heq, Option.map_some], hok', ?_⟩
                rw [List.append_assoc, hsent, hc, content_cons hl]

/-- What `ustream_write_pending` does. -/
theorem writePending_spec (cb : Callback) (h : l.Ok) :
    ∃ l' sent, writePending cb l = some (l', sent) ∧ l'.Ok ∧ sent ++ l'.content = l.content :=
  pendingLoop_spec cb l.bufs.length 0 h List.countP_le_length

/-! ## Calls on the read side -/

/-- `ustream_reserve` leaves the queue alone, and the room is there. -/
theorem reserve_spec (len : ℕ) (h : l.Ok) :
    (l.reserve len).1.Ok ∧ (l.reserve len).1.content = l.content ∧
      (0 < (l.reserve len).2 → ∃ before cur after,
        (l.reserve len).1.Cut before cur after ∧ cur.room = (l.reserve len).2) := by
  unfold reserve
  split
  next => exact ⟨h, rfl, fun hpos ↦ absurd hpos (lt_irrefl 0)⟩
  next l' hp =>
    obtain ⟨before, cur, after, hcut, -, hc, hd⟩ := prepareBuf_spec h.placed hp
    refine ⟨⟨hcut.placed, by rw [hd, hc, h.dataBytes]⟩, hc, fun _ ↦ ⟨before, cur, after, hcut, ?_⟩⟩
    simp [hcut.dataTail, hcut.getElem?]

/-- The loop sets `data_tail` before it reads it. -/
theorem fillLoop_dataTail (fuel : ℕ) (l : BufList) (i : ℕ) (data : List UInt8) (d : Option ℕ) :
    fillLoop fuel { l with dataTail := d } i data = fillLoop fuel l i data := by
  unfold fillLoop
  rfl

/-- The loop puts the bytes at the end of the queue. -/
theorem Cut.fillLoop_spec (fuel : ℕ) (data : List UInt8) (h : l.Cut before cur after)
    (hf : fillLoop fuel l before.length data = some l') :
    l'.Placed ∧ l'.content = l.content ++ data ∧ l'.dataBytes = l.dataBytes := by
  induction fuel using Nat.strong_induction_on generalizing l before cur after data with
  | _ fuel ih =>
  unfold fillLoop at hf
  rw [h.getElem?] at hf
  dsimp only at hf
  obtain ⟨l₁, hl₁⟩ : ∃ l₁ : BufList, l₁ =
      { l with
        bufs := l.bufs.set before.length (cur.append data)
        dataTail := some before.length } := ⟨_, rfl⟩
  rw [← hl₁] at hf
  have hcut : l₁.Cut before (cur.append data) after :=
    h.set (h.bytes_append data) (by rw [hl₁]) (by rw [hl₁, h.dataTail])
  have hcontent : l₁.content = l.content ++ data.take cur.room := by
    rw [hcut.content_eq, h.content_eq, List.append_assoc]
    rfl
  have hdata : l₁.dataBytes = l.dataBytes := by rw [hl₁]
  split at hf
  next hle =>
    cases hf
    refine ⟨hcut.placed, ?_, hdata⟩
    rw [hcontent, List.take_of_length_le hle]
  next hgt =>
    cases fuel with
    | zero => cases hf
    | succ fuel =>
        dsimp only at hf
        cases after with
        | nil =>
            have hnone : l₁.bufs[before.length + 1]? = none := by
              rw [hcut.bufs]
              simp
            unfold fillLoop at hf
            rw [hnone] at hf
            cases hf
        | cons c after =>
            have hroom : (cur.append data).room = 0 := by
              have := cur.fits
              simp only [Buf.room, Buf.append, List.length_append, List.length_take] at hgt ⊢
              omega
            have hnext : { l₁ with dataTail := some (before.length + 1) }.Cut
                (before ++ [cur.append data]) c after :=
              hcut.next (hcut.bytes_ne_nil hroom) rfl rfl
            have hlen : before.length + 1 = (before ++ [cur.append data]).length := by simp
            rw [hlen, ← fillLoop_dataTail fuel l₁ _ _ (some (before.length + 1))] at hf
            obtain ⟨hp, hc, hd⟩ := ih fuel (Nat.lt_succ_self _) _ hnext hf
            refine ⟨hp, ?_, hd.trans hdata⟩
            have hsame : { l₁ with dataTail := some (before.length + 1) }.content = l₁.content :=
              rfl
            rw [hc, hsame, hcontent, List.append_assoc, List.take_append_drop]

/-- What `ustream_fill_read` does. -/
theorem fillRead_spec (data : List UInt8) (h : l.Ok) (hf : l.fillRead data = some l') :
    l'.Ok ∧ l'.content = l.content ++ data := by
  obtain ⟨-, ht⟩ | ⟨before, cur, after, hcut⟩ := h.placed
  · simp [fillRead, ht] at hf
  · have hcut' : { l with dataBytes := l.dataBytes + data.length }.Cut before cur after :=
      hcut.congr rfl rfl
    simp only [fillRead, hcut.dataTail] at hf
    rw [← hcut.dataTail] at hf
    obtain ⟨hp, hc, hd⟩ := hcut'.fillLoop_spec _ data hf
    have hsame : { l with dataBytes := l.dataBytes + data.length }.content = l.content := rfl
    refine ⟨⟨hp, ?_⟩, hc⟩
    rw [hd, hc, hsame, h.dataBytes, List.length_append]
    push_cast
    rfl

/-- The bytes that fit at `data_tail` can be filled in. -/
theorem Cut.fillRead_isSome (h : l.Cut before cur after) {data : List UInt8}
    (hdata : data.length ≤ cur.room) : (l.fillRead data).isSome := by
  unfold fillRead
  rw [h.dataTail]
  unfold fillLoop
  simp [h.getElem?, hdata]

/-- As long as there are bytes, the head of the list holds some. -/
theorem Placed.head_ne_nil {b : Buf} {rest : List Buf} (h : l.Placed) (hl : l.bufs = b :: rest)
    (hcontent : l.content ≠ []) : b.bytes ≠ [] := by
  obtain ⟨hb, -⟩ | ⟨before, cur, after, h⟩ := h
  · rw [hb] at hl
    cases hl
  · have hcut := h.bufs.symm.trans hl
    cases before with
    | nil =>
        obtain ⟨rfl, rfl⟩ : cur = b ∧ after = rest := by simpa using hcut
        rw [h.content_eq] at hcontent
        simpa using hcontent
    | cons d before =>
        obtain ⟨rfl, -⟩ : d = b ∧ before ++ cur :: after = rest := by simpa using hcut
        exact h.before d (by simp)

/-- The loop takes the first bytes off the queue. -/
theorem consumeLoop_spec (fuel len : ℕ) (h : l.Placed) (hpos : 0 < len)
    (hlen : len ≤ l.content.length) (hfuel : l.occupied ≤ fuel) :
    ∃ l', consumeLoop fuel l len = some (l', l.content.take len) ∧ l'.Placed ∧
      l'.content = l.content.drop len ∧ l'.dataBytes = l.dataBytes := by
  induction fuel using Nat.strong_induction_on generalizing l len with
  | _ fuel ih =>
  have hne : l.content ≠ [] := List.length_pos_iff.1 (by omega)
  unfold consumeLoop
  split
  next hl => exact absurd (by simp [content, hl]) hne
  next b rest hl =>
    have hcontent := content_cons hl
    have hb := h.head_ne_nil hl hne
    obtain ⟨hp, hc, hd, ho⟩ := freeHead_spec h hl
    split
    next hlt =>
      refine ⟨{ l with bufs := b.advance len :: rest }, ?_,
        placed_advance h hl hlt rfl rfl, ?_, rfl⟩
      · rw [hcontent, List.take_append_of_le_length hlt.le]
      · rw [content_cons rfl, hcontent, List.drop_append_of_le_length hlt.le]
        rfl
    next hge =>
      split
      next heq =>
        subst heq
        refine ⟨l.freeHead, ?_, hp, ?_, hd⟩
        · rw [hcontent, List.take_left]
        · rw [hc, hcontent, List.drop_left]
      next hne' =>
        rw [hcontent, List.length_append] at hlen
        split
        next hrest =>
          rw [hrest, List.flatMap_nil, List.length_nil] at hlen
          omega
        next hrest =>
          have hocc := occupied_cons hl hb
          cases fuel with
          | zero => omega
          | succ fuel =>
              obtain ⟨l', heq, hp', hc', hd'⟩ :=
                ih fuel (Nat.lt_succ_self _) (len - b.bytes.length) hp (by omega)
                  (by rw [hc]; omega) (by omega)
              obtain ⟨n, rfl⟩ : ∃ n, len = b.bytes.length + n := ⟨len - b.bytes.length, by omega⟩
              rw [Nat.add_sub_cancel_left] at heq hc'
              refine ⟨l', ?_, hp', ?_, hd'.trans hd⟩
              · simp only [Nat.add_sub_cancel_left, heq, hc, Option.map_some, hcontent]
                rw [List.take_length_add_append]
              · rw [hc', hc, hcontent, List.drop_length_add_append]

/-- What `ustream_consume` does. -/
theorem consume_spec (len : ℕ) (h : l.Ok) (hlen : len ≤ l.content.length) :
    ∃ l', l.consume len = some (l', l.content.take len) ∧ l'.Ok ∧
      l'.content = l.content.drop len := by
  unfold consume
  split
  next hzero =>
    subst hzero
    exact ⟨l, by simp, h, by simp⟩
  next hpos =>
    have hdata := h.dataBytes
    rw [if_neg (by omega)]
    have hplaced : { l with dataBytes := l.dataBytes - len }.Placed := h.placed.congr rfl rfl
    obtain ⟨l', heq, hp, hc, hd⟩ := consumeLoop_spec l.bufs.length len hplaced
      (Nat.pos_of_ne_zero hpos) hlen List.countP_le_length
    refine ⟨l', heq, ⟨hp, ?_⟩, hc⟩
    have hsame : { l with dataBytes := l.dataBytes - len }.content = l.content := rfl
    rw [hd, hc, hsame, List.length_drop]
    dsimp only
    omega

end BufList

end MiniPi.Ustream
