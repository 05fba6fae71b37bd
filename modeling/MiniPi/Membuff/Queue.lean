import MiniPi.Lib.Run
import MiniPi.Membuff.Line

/-!
# Runs of calls on a circular buffer

`Fifo` is a queue of bytes with a bounded length.  Every run of calls on a buffer is a run of the
queue with the same replies; only a call that extends the buffer past `INT_MAX` bytes may not
return.
-/

namespace MiniPi

open Lib

/-! ## The bytes are moved -/

namespace Membuff

variable {mb mb' : Membuff} {bs : List UInt8}

theorem write_cons (m : Mem) (a : ℕ) (b : UInt8) (bs : List UInt8) :
    m.write a (b :: bs) = (m.write a [b]).write (a + 1) bs := by
  funext x
  by_cases hlt : x < a
  · rw [Mem.write_of_lt hlt, Mem.write_of_lt (hlt.trans (Nat.lt_succ_self a)), Mem.write_of_lt hlt]
  by_cases hin : x < a + 1 + bs.length
  · obtain ⟨i, rfl⟩ := Nat.exists_eq_add_of_le (Nat.not_lt.1 hlt)
    cases i with
    | zero =>
      rw [Mem.write_add (by simp), Mem.write_of_lt (by omega), Mem.write_add (by simp)]
      rfl
    | succ i =>
      have hi : i < bs.length := by omega
      have hadd : a + (i + 1) = a + 1 + i := by omega
      rw [Mem.write_add (by simpa using hi), hadd, Mem.write_add hi]
      rfl
  · rw [Mem.write_of_le (by simp only [List.length_cons]; omega), Mem.write_of_le (by omega),
      Mem.write_of_le (by simp only [List.length_singleton]; omega)]

/-- `memcpy` moves bytes down as `memmove` does. -/
theorem memcpy_eq (m : Mem) {dst src : ℕ} (h : dst ≤ src) (n : ℕ) :
    memcpy m dst src n = m.write dst (m.slice src n) := by
  induction n generalizing m dst src with
  | zero => exact (Mem.write_nil m dst).symm
  | succ n ih =>
    have hrest : (m.write dst [m src]).slice (src + 1) n = m.slice (src + 1) n :=
      Mem.slice_write_of_disjoint (.inr (by rw [List.length_singleton]; omega))
    rw [memcpy, ih _ (Nat.succ_le_succ h), hrest, Mem.slice_cons]
    exact (write_cons m dst (m src) _).symm

/-- `membuff_makecontig` keeps the queue. -/
theorem Ok.makecontig_spec (h : mb.Ok) :
    mb.makecontig.2.Ok ∧ mb.makecontig.2.size = mb.size ∧
      mb.makecontig.2.contents = mb.contents := by
  have hhead := h.head_lt
  have htail := h.tail_lt
  unfold makecontig
  by_cases hwrap : mb.head < mb.tail
  · rw [if_pos hwrap]
    by_cases hroom : mb.tail ≤ mb.head + (mb.size - mb.tail)
    · rw [if_pos hroom]
      exact ⟨h, rfl, rfl⟩
    · rw [if_neg hroom]
      refine ⟨⟨?_, ?_⟩, rfl, ?_⟩
      · change mb.size - mb.tail + mb.head < mb.size
        omega
      · change 0 < mb.size
        omega
      · have hbot : (memmove mb.mem (mb.size - mb.tail) 0 mb.head).slice
          (mb.size - mb.tail) mb.head =
            mb.mem.slice 0 mb.head := by
          have := @Mem.slice_write_self mb.mem (mb.size - mb.tail) (mb.mem.slice 0 mb.head)
          rw [Mem.length_slice] at this
          exact this
        have htop : (memmove mb.mem (mb.size - mb.tail) 0 mb.head).slice mb.tail
          (mb.size - mb.tail) =
            mb.mem.slice mb.tail (mb.size - mb.tail) :=
          Mem.slice_write_of_disjoint (.inr (by rw [Mem.length_slice]; omega))
        rw [contents_of_lt hwrap, contents_of_le (Nat.zero_le _)]
        simp only [Nat.sub_zero]
        rw [memcpy_eq _ (Nat.zero_le _), htop, Mem.slice_add, Nat.zero_add]
        have hself := @Mem.slice_write_self (memmove mb.mem (mb.size - mb.tail) 0 mb.head) 0
          (mb.mem.slice mb.tail (mb.size - mb.tail))
        rw [Mem.length_slice] at hself
        rw [hself, Mem.slice_write_of_disjoint (.inr (by rw [Mem.length_slice]; omega)), hbot]
  · rw [if_neg hwrap]
    refine ⟨⟨?_, ?_⟩, rfl, ?_⟩
    · change mb.head - mb.tail < mb.size
      omega
    · change 0 < mb.size
      omega
    · have hself := @Mem.slice_write_self mb.mem 0 (mb.mem.slice mb.tail (mb.head - mb.tail))
      rw [Mem.length_slice] at hself
      rw [contents_of_le (Nat.not_lt.1 hwrap), contents_of_le (Nat.zero_le _)]
      simp only [Nat.sub_zero]
      rw [memcpy_eq _ (Nat.zero_le _), hself]

/-- The size is doubled until it reaches the target, and not further. -/
theorem doubleSize_spec {target size r : ℤ} {n : ℕ} (hsize : 0 < size)
    (h : doubleSize target n size = some r) : target ≤ r ∧ size ≤ r := by
  induction n generalizing size with
  | zero => cases h
  | succ n ih =>
    rw [doubleSize] at h
    split_ifs at h with hlt hover
    · obtain ⟨ht, hs⟩ := ih (by omega) h
      exact ⟨ht, by omega⟩
    · cases h
      exact ⟨by omega, le_rfl⟩

/-- Doubling ends before `INT_MAX` when twice the target does. -/
theorem doubleSize_isSome {target size : ℤ} {n : ℕ} (hmax : 2 * target ≤ intMax + 2)
    (hn : target ≤ size * 2 ^ n) : ∃ r, doubleSize target (n + 1) size = some r := by
  induction n generalizing size with
  | zero =>
    rw [pow_zero, mul_one] at hn
    exact ⟨size, if_neg (Int.not_lt.2 hn)⟩
  | succ n ih =>
    rw [doubleSize]
    split_ifs with hlt hover
    · exact absurd hmax (by omega)
    · refine ih ?_
      calc
        target ≤ size * 2 ^ (n + 1) := hn
        _ = 2 * size * 2 ^ n := by ring
    · exact ⟨size, rfl⟩

/-- The buffer after `realloc`; older bytes behind a jump are moved to the new end. -/
def grow (mb : Membuff) (fresh : Mem) (n : ℕ) : Membuff :=
  let mem : Mem := fun x ↦ if x < mb.size then mb.mem x else fresh x
  if mb.head < mb.tail then
    ⟨memmove mem (mb.tail + (n - mb.size)) mb.tail (mb.size - mb.tail), n, mb.head,
      mb.tail + (n - mb.size)⟩
  else ⟨mem, n, mb.head, mb.tail⟩

theorem Ok.grow_spec (h : mb.Ok) (fresh : Mem) {n : ℕ} (hn : mb.size ≤ n) :
    (mb.grow fresh n).Ok ∧ (mb.grow fresh n).size = n ∧
      (mb.grow fresh n).contents = mb.contents := by
  have hhead := h.head_lt
  have htail := h.tail_lt
  unfold grow
  set mem : Mem := fun x ↦ if x < mb.size then mb.mem x else fresh x
  have hold (a k : ℕ) (hk : a + k ≤ mb.size) : mem.slice a k = mb.mem.slice a k :=
    Mem.slice_congr fun i hi ↦ if_pos (by omega)
  by_cases hwrap : mb.head < mb.tail
  · have hself := @Mem.slice_write_self mem (mb.tail + (n - mb.size))
      (mem.slice mb.tail (mb.size - mb.tail))
    have hlen : n - (mb.tail + (n - mb.size)) = mb.size - mb.tail := by omega
    rw [Mem.length_slice] at hself
    rw [if_pos hwrap]
    refine ⟨⟨hhead.trans_le hn, ?_⟩, rfl, ?_⟩
    · change mb.tail + (n - mb.size) < n
      omega
    · rw [contents_of_lt hwrap]
      change (if mb.tail + (n - mb.size) ≤ mb.head then _ else _) = _
      simp only [hlen, memmove]
      rw [if_neg (by omega), hself, Mem.slice_write_of_disjoint (.inl (by omega)),
        hold _ _ (by omega), hold _ _ (by omega)]
  · rw [if_neg hwrap]
    refine ⟨⟨hhead.trans_le hn, htail.trans_le hn⟩, rfl, ?_⟩
    rw [contents_of_le (Nat.not_lt.1 hwrap)]
    change (if mb.tail ≤ mb.head then _ else _) = _
    rw [if_pos (Nat.not_lt.1 hwrap)]
    refine hold mb.tail (mb.head - mb.tail) ?_
    omega

/-- The size that `membuff_extend_by` asks for. -/
def cut (max size : ℤ) : ℤ := if max ≠ -1 then min size max else size

theorem extendBy_eq {fresh : Mem} {by' : ℕ} {max d : ℤ} (hover : mb.size + by' ≤ intMax)
    (hd : doubleSize (mb.size + by') 32 mb.size = some d) :
    mb.extendBy fresh by' max =
      if cut max d - mb.size ≤ 0 then some (e2big, mb)
      else some (0, mb.grow fresh (cut max d).toNat) := by
  unfold extendBy
  rw [if_neg (Int.not_lt.2 hover), hd, Option.bind_eq_bind, Option.bind_some]
  change (if cut max d - mb.size ≤ 0 then _ else _) = _
  by_cases hsmall : cut max d - mb.size ≤ 0
  · rw [if_pos hsmall, if_pos hsmall]
  · have hby : (cut max d - mb.size).toNat = (cut max d).toNat - mb.size := by omega
    rw [if_neg hsmall, if_neg hsmall, grow, ← hby]
    by_cases hwrap : mb.head < mb.tail
    · rw [if_pos hwrap, if_pos hwrap]
      rfl
    · rw [if_neg hwrap, if_neg hwrap]
      rfl

/-- A successful `membuff_extend_by` keeps the queue and gives more room; another one changes
nothing. -/
theorem Ok.extendBy_spec (h : mb.Ok) {fresh : Mem} {by' : ℕ} {max r : ℤ}
    (hext : mb.extendBy fresh by' max = some (r, mb')) :
    (r = e2big ∧ mb' = mb) ∨
    (r = 0 ∧ mb.size < mb'.size ∧ (mb.size + by' ≤ mb'.size ∨ mb'.size = max) ∧ mb'.Ok ∧
      mb'.contents = mb.contents) := by
  have hhead := h.head_lt
  by_cases hover : intMax < mb.size + by'
  · rw [extendBy, if_pos hover] at hext
    cases hext
  cases hd : doubleSize (mb.size + by') 32 mb.size with
  | none =>
    rw [extendBy, if_neg hover, hd] at hext
    cases hext
  | some d =>
    obtain ⟨htarget, hgrow⟩ := doubleSize_spec (by omega) hd
    have hreach : (mb.size + by' : ℤ) ≤ cut max d ∨ cut max d = max := by
      rw [cut]
      split_ifs <;> omega
    rw [extendBy_eq (Int.not_lt.1 hover) hd] at hext
    by_cases hsmall : cut max d - mb.size ≤ 0
    · rw [if_pos hsmall] at hext
      cases hext
      exact .inl ⟨rfl, rfl⟩
    · rw [if_neg hsmall] at hext
      cases hext
      obtain ⟨hok, hsize, hcontents⟩ := h.grow_spec fresh (n := (cut max d).toNat) (by omega)
      refine .inr ⟨rfl, ?_, ?_, hok, hcontents⟩
      · omega
      · omega

/-- `membuff_extend_by` returns when the doubled size is an `int`. -/
theorem Ok.extendBy_isSome (h : mb.Ok) (fresh : Mem) {by' : ℕ} (max : ℤ)
    (hfit : 2 * (mb.size + by' : ℤ) ≤ intMax) : ∃ res, mb.extendBy fresh by' max = some res := by
  have hhead := h.head_lt
  have hpow : (mb.size + by' : ℤ) ≤ mb.size * 2 ^ 31 := by
    rw [intMax] at hfit
    omega
  obtain ⟨d, hd⟩ := doubleSize_isSome (by omega) hpow
  rw [extendBy_eq (by omega) hd]
  split_ifs
  · exact ⟨_, rfl⟩
  · exact ⟨_, rfl⟩

end Membuff

/-! ## The queue -/

/-- A queue of bytes with room for `size - 1`. -/
structure Fifo where
  size : ℕ
  queue : List UInt8
  fits : queue.length < size

namespace Fifo

/-- The room that is left. -/
def free (q : Fifo) : ℕ := q.size - 1 - q.queue.length

/-- As many bytes are appended as there is room for. -/
def put (q : Fifo) (bs : List UInt8) : Fifo where
  size := q.size
  queue := q.queue ++ bs.take q.free
  fits := by
    have := q.fits
    rw [List.length_append, List.length_take, free]
    omega

/-- The oldest bytes are removed. -/
def drop (q : Fifo) (n : ℕ) : Fifo where
  size := q.size
  queue := q.queue.drop n
  fits := by
    have := q.fits
    rw [List.length_drop]
    omega

/-- The queue gets more room. -/
def enlarge (q : Fifo) {size : ℕ} (h : q.size < size) : Fifo := ⟨size, q.queue, q.fits.trans h⟩

end Fifo

/-- A call of a function of `lib/membuff.c`; `extendBy` is called with what `realloc` leaves behind
the old bytes. -/
inductive Call
  | put (bs : List UInt8)
  | putbyte (ch : ℤ)
  | get (maxlen : ℕ)
  | getbyte
  | peekbyte
  | readline (maxlen : ℕ) (minch : ℤ)
  | makecontig
  | extendBy (fresh : Mem) (by' : ℕ) (max : ℤ)
  | purge

/-- What a call returns, and the bytes it stores for the caller. -/
inductive Reply
  | count (n : ℤ)
  | bytes (n : ℤ) (bs : List UInt8)
  | flag (b : Bool)
  | done

namespace Membuff

/-- A call on a buffer. -/
def call (mb : Membuff) : Call → Option (Reply × Membuff)
  | .put bs => do
    let (n, mb) ← mb.put bs
    some (.count n, mb)
  | .putbyte ch => do
    let (b, mb) ← mb.putbyte ch
    some (.flag b, mb)
  | .get maxlen => do
    let (n, bs, mb) ← mb.get maxlen
    some (.bytes n bs, mb)
  | .getbyte => do
    let (c, mb) ← mb.getbyte
    some (.count c, mb)
  | .peekbyte => do
    let c ← mb.peekbyte
    some (.count c, mb)
  | .readline maxlen minch =>
    let (n, str, mb) := mb.readline maxlen minch
    some (.bytes n str, mb)
  | .makecontig =>
    let (b, mb) := mb.makecontig
    some (.flag b, mb)
  | .extendBy fresh by' max => do
    let (r, mb) ← mb.extendBy fresh by' max
    some (.count r, mb)
  | .purge => some (.done, mb.purge)

/-- A call and what it returns. -/
def Calls (mb : Membuff) (c : Call × Reply) (mb' : Membuff) : Prop := mb.call c.1 = some (c.2, mb')

end Membuff

namespace Fifo

open Membuff (lineEnd front)

/-- A call on the queue, and the reply. -/
inductive Step : Fifo → Call × Reply → Fifo → Prop
  | put (q : Fifo) (bs : List UInt8) :
    Step q (.put bs, .count ((min bs.length q.free : ℕ) : ℤ)) (q.put bs)
  | putbyte (q : Fifo) (ch : ℤ) :
    Step q (.putbyte ch, .flag (decide (0 < q.free))) (q.put [UInt8.ofInt ch])
  | get (q : Fifo) (n : ℕ) :
    Step q (.get n, .bytes ((min n q.queue.length : ℕ) : ℤ) (q.queue.take n)) (q.drop n)
  | getbyte (q : Fifo) : Step q (.getbyte, .count (front q.queue)) (q.drop 1)
  | peekbyte (q : Fifo) : Step q (.peekbyte, .count (front q.queue)) q
  | readline (q : Fifo) (maxlen : ℕ) (minch : ℤ) (i : ℕ) :
    lineEnd maxlen minch q.queue = some i →
    Step q (.readline maxlen minch, .bytes ((i : ℤ) + 1) (q.queue.take i)) (q.drop (i + 1))
  | noline (q : Fifo) (maxlen : ℕ) (minch : ℤ) :
    lineEnd maxlen minch q.queue = none → Step q (.readline maxlen minch, .bytes 0 []) q
  | makecontig (q : Fifo) (b : Bool) : Step q (.makecontig, .flag b) q
  | extended (q : Fifo) (fresh : Mem) (by' size : ℕ) (max : ℤ) (h : q.size < size) :
    q.size + by' ≤ size ∨ size = max →
    Step q (.extendBy fresh by' max, .count 0) (q.enlarge h)
  | full (q : Fifo) (fresh : Mem) (by' : ℕ) (max : ℤ) :
    Step q (.extendBy fresh by' max, .count Membuff.e2big) q
  | purge (q : Fifo) : Step q (.purge, .done) (q.drop q.queue.length)

end Fifo

namespace Membuff

variable {mb mb' : Membuff}

/-- The queue that a buffer holds. -/
structure Holds (mb : Membuff) (q : Fifo) : Prop where
  ok : mb.Ok
  size : mb.size = q.size
  contents : mb.contents = q.queue

variable {q : Fifo}

theorem Holds.space_eq (h : mb.Holds q) : mb.space = q.free := by
  rw [space, Fifo.free, h.size, h.contents]

theorem Holds.put (h : mb.Holds q) {bs : List UInt8} (hok : mb'.Ok) (hsize : mb'.size = mb.size)
    (hcontents : mb'.contents = mb.contents ++ bs.take mb.space) : mb'.Holds (q.put bs) where
  ok := hok
  size := hsize.trans h.size
  contents := by rw [hcontents, h.contents, h.space_eq]; rfl

theorem Holds.drop (h : mb.Holds q) {n : ℕ} (hok : mb'.Ok) (hsize : mb'.size = mb.size)
    (hcontents : mb'.contents = mb.contents.drop n) : mb'.Holds (q.drop n) where
  ok := hok
  size := hsize.trans h.size
  contents := by rw [hcontents, h.contents]; rfl

/-- A call on a buffer is a call on its queue. -/
theorem Holds.step (h : mb.Holds q) {c : Call × Reply} (hc : mb.Calls c mb') :
    ∃ q', q.Step c q' ∧ mb'.Holds q' := by
  obtain ⟨c, r⟩ := c
  rw [Calls] at hc
  cases c with
  | put bs =>
    obtain ⟨mb₁, hput, hok, hsize, hcontents⟩ := h.ok.put_spec bs
    rw [call, hput] at hc
    cases hc
    rw [h.space_eq]
    exact ⟨_, .put q bs, h.put hok hsize hcontents⟩
  | putbyte ch =>
    obtain ⟨mb₁, hput, hok, hsize, hcontents⟩ := h.ok.putbyte_spec ch
    rw [call, hput] at hc
    cases hc
    rw [h.space_eq]
    exact ⟨_, .putbyte q ch, h.put hok hsize hcontents⟩
  | get n =>
    obtain ⟨mb₁, hget, hok, hsize, hcontents⟩ := h.ok.get_spec n
    rw [call, hget] at hc
    cases hc
    rw [h.contents]
    exact ⟨_, .get q n, h.drop hok hsize hcontents⟩
  | getbyte =>
    obtain ⟨mb₁, hget, hok, hsize, hcontents⟩ := h.ok.getbyte_spec
    rw [call, hget] at hc
    cases hc
    rw [h.contents]
    exact ⟨_, .getbyte q, h.drop hok hsize hcontents⟩
  | peekbyte =>
    rw [call, h.ok.peekbyte_spec] at hc
    cases hc
    rw [h.contents]
    exact ⟨_, .peekbyte q, h⟩
  | readline maxlen minch =>
    obtain ⟨i, hline, hread, hi⟩ | ⟨hline, hread⟩ := h.ok.readline_spec maxlen minch
    · rw [call, hread] at hc
      cases hc
      rw [h.contents] at hline ⊢
      exact ⟨_, .readline q maxlen minch i hline,
        h.drop (h.ok.advanceTail_ok hi) rfl (h.ok.contents_advanceTail hi)⟩
    · rw [call, hread] at hc
      cases hc
      rw [h.contents] at hline
      exact ⟨_, .noline q maxlen minch hline, h⟩
  | makecontig =>
    obtain ⟨hok, hsize, hcontents⟩ := h.ok.makecontig_spec
    rw [call] at hc
    cases hc
    exact ⟨_, .makecontig q _, hok, hsize.trans h.size, hcontents.trans h.contents⟩
  | extendBy fresh by' max =>
    rw [call, Option.bind_eq_bind, Option.bind_eq_some_iff] at hc
    obtain ⟨⟨code, mb₁⟩, hext, hc⟩ := hc
    cases hc
    obtain ⟨rfl, rfl⟩ | ⟨rfl, hgrow, hreach, hok, hcontents⟩ := h.ok.extendBy_spec hext
    · exact ⟨_, .full q fresh by' max, h⟩
    · rw [h.size] at hgrow hreach
      exact ⟨_, .extended q fresh by' _ max hgrow hreach, hok, rfl, hcontents.trans h.contents⟩
  | purge =>
    rw [call] at hc
    cases hc
    refine ⟨_, .purge q, ⟨?_, ?_⟩, h.size, ?_⟩
    · exact (Nat.zero_le _).trans_lt h.ok.head_lt
    · exact (Nat.zero_le _).trans_lt h.ok.head_lt
    · exact (List.drop_length).symm

/-- The queue of a new buffer. -/
theorem init_holds (mem : Mem) {size : ℕ} (hsize : 1 ≤ size) :
    (init mem size).Holds ⟨size, [], hsize⟩ where
  ok := ⟨hsize, hsize⟩
  size := rfl
  contents := rfl

/-- Only a call that extends the buffer past `INT_MAX` may not return. -/
theorem Holds.call_isSome (h : mb.Holds q) (c : Call)
    (hfit : ∀ fresh (by' : ℕ) max, c = .extendBy fresh by' max → 2 * (mb.size + by' : ℤ) ≤ intMax) :
    ∃ res, mb.call c = some res := by
  cases c with
  | put bs =>
    obtain ⟨mb₁, hput, -⟩ := h.ok.put_spec bs
    exact ⟨_, by rw [call, hput]; rfl⟩
  | putbyte ch =>
    obtain ⟨mb₁, hput, -⟩ := h.ok.putbyte_spec ch
    exact ⟨_, by rw [call, hput]; rfl⟩
  | get n =>
    obtain ⟨mb₁, hget, -⟩ := h.ok.get_spec n
    exact ⟨_, by rw [call, hget]; rfl⟩
  | getbyte =>
    obtain ⟨mb₁, hget, -⟩ := h.ok.getbyte_spec
    exact ⟨_, by rw [call, hget]; rfl⟩
  | peekbyte => exact ⟨_, by rw [call, h.ok.peekbyte_spec]; rfl⟩
  | readline maxlen minch => exact ⟨_, rfl⟩
  | makecontig => exact ⟨_, rfl⟩
  | extendBy fresh by' max =>
    obtain ⟨res, hres⟩ := h.ok.extendBy_isSome fresh max (hfit fresh by' max rfl)
    exact ⟨_, by rw [call, hres]; rfl⟩
  | purge => exact ⟨_, rfl⟩

/-- Every run of calls on a buffer is a run of a queue with room for `size - 1` bytes. -/
theorem runs_as_fifo (mem : Mem) {size : ℕ} (hsize : 1 ≤ size) {cs : List (Call × Reply)}
    (hrun : Run Calls (init mem size) cs mb) :
    (∃ q, Run Fifo.Step ⟨size, [], hsize⟩ cs q ∧ mb.size = q.size ∧ mb.contents = q.queue) ∧
    (mb.head < mb.size ∧ mb.tail < mb.size) ∧
    (mb.avail = mb.contents.length ∧ mb.avail + mb.free = mb.size - 1) ∧
    ∀ c, (∀ fresh (by' : ℕ) max, c = .extendBy fresh by' max → 2 * (mb.size + by' : ℤ) ≤ intMax) →
      ∃ res, mb.call c = some res := by
  have hstep (s : Membuff) (c : Call × Reply) (s' : Membuff) (q : Fifo) (hrel : s.Holds q)
      (hc : s.Calls c s') : ∃ q', q.Step c q' ∧ s'.Holds q' := hrel.step hc
  obtain ⟨q, hq, h⟩ := Run.simulates hstep hrun (init_holds mem hsize)
  have hhead := h.ok.head_lt
  have hle := h.ok.length_le
  refine ⟨⟨q, hq, h.size, h.contents⟩, ⟨hhead, h.ok.tail_lt⟩, ⟨h.ok.avail_eq, ?_⟩, h.call_isSome⟩
  rw [h.ok.avail_eq, h.ok.free_eq, space]
  omega

/-- A buffer of four bytes that is filled, read in part and filled again, so that the second line
stands around the end. -/
theorem runs_as_fifo_lines :
    ∃ mb : Membuff, mb.contents = [7] ∧ ∃ q, Run Fifo.Step ⟨4, [], by decide⟩
    [(.put [104, 10, 105, 106], .count 3), (.readline 9 0, .bytes 2 [104]),
      (.put [10, 7], .count 2),
      (.readline 9 0, .bytes 2 [105])] q ∧ mb.size = q.size ∧ mb.contents = q.queue := by
  let mem : Mem := fun _ ↦ 0
  let mem₁ : Mem := (mem.write 0 [104, 10, 105]).write 3 []
  let mem₂ : Mem := (mem₁.write 3 [10]).write 0 [7]
  have h₁ : Calls (init mem 4) (.put [104, 10, 105, 106], .count 3) ⟨mem₁, 4, 3, 0⟩ := rfl
  have h₂ : Calls ⟨mem₁, 4, 3, 0⟩ (.readline 9 0, .bytes 2 [104]) ⟨mem₁, 4, 3, 2⟩ := rfl
  have h₃ : Calls ⟨mem₁, 4, 3, 2⟩ (.put [10, 7], .count 2) ⟨mem₂, 4, 1, 2⟩ := rfl
  have h₄ : Calls ⟨mem₂, 4, 1, 2⟩ (.readline 9 0, .bytes 2 [105]) ⟨mem₂, 4, 1, 0⟩ := rfl
  exact ⟨_, rfl, (runs_as_fifo mem (by decide)
    (.cons h₁ (.cons h₂ (.cons h₃ (.cons h₄ (.nil _)))))).1⟩

end Membuff

end MiniPi
