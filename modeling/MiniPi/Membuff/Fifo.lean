import MiniPi.Membuff.Basic

/-!
# A circular buffer is a bounded queue

`contents` are the bytes between `tail` and `head`, around the end of the buffer.  Each function is
described once by what it does to the contents; a run of calls then behaves like a queue with room
for `size - 1` bytes.
-/

namespace MiniPi

open Lib

/-! ## Parts of slices -/

namespace Lib.Mem

variable {m : Mem} {a n k : ℕ} {bs : List UInt8}

theorem take_slice (m : Mem) (a : ℕ) (h : k ≤ n) : (m.slice a n).take k = m.slice a k := by
  obtain ⟨d, rfl⟩ := Nat.exists_eq_add_of_le h
  rw [slice_add, List.take_append_of_le_length (by simp), List.take_of_length_le (by simp)]

theorem drop_slice (m : Mem) (a : ℕ) (h : k ≤ n) :
    (m.slice a n).drop k = m.slice (a + k) (n - k) := by
  obtain ⟨d, rfl⟩ := Nat.exists_eq_add_of_le h
  rw [slice_add, List.drop_append_of_le_length (by simp), List.drop_of_length_le (by simp),
    List.nil_append, Nat.add_sub_cancel_left]

theorem slice_cons (m : Mem) (a n : ℕ) : m.slice a (n + 1) = m a :: m.slice (a + 1) n := by
  rw [Nat.add_comm n 1, slice_add]
  rfl

@[simp] theorem slice_zero (m : Mem) (a : ℕ) : m.slice a 0 = [] := rfl

theorem slice_write_behind (m : Mem) (a n : ℕ) (bs : List UInt8) :
    (m.write (a + n) bs).slice a (n + bs.length) = m.slice a n ++ bs := by
  rw [slice_add, slice_write_of_disjoint (.inl le_rfl), slice_write_self]

end Lib.Mem

namespace Membuff

variable {mb mb' : Membuff} {bs : List UInt8}

/-- The queued bytes, the oldest one first. -/
def contents (mb : Membuff) : List UInt8 :=
  if mb.tail ≤ mb.head then mb.mem.slice mb.tail (mb.head - mb.tail)
  else mb.mem.slice mb.tail (mb.size - mb.tail) ++ mb.mem.slice 0 mb.head

theorem contents_of_le (h : mb.tail ≤ mb.head) :
    mb.contents = mb.mem.slice mb.tail (mb.head - mb.tail) := if_pos h

theorem contents_of_lt (h : mb.head < mb.tail) :
    mb.contents = mb.mem.slice mb.tail (mb.size - mb.tail) ++ mb.mem.slice 0 mb.head :=
  if_neg (Nat.not_le.2 h)

/-- The pointers are inside the buffer. -/
structure Ok (mb : Membuff) : Prop where
  head_lt : mb.head < mb.size
  tail_lt : mb.tail < mb.size

theorem length_contents (mb : Membuff) :
    mb.contents.length =
      if mb.tail ≤ mb.head then mb.head - mb.tail else mb.size - mb.tail + mb.head := by
  unfold contents
  split <;> simp

/-- The room that is left. -/
def space (mb : Membuff) : ℕ := mb.size - 1 - mb.contents.length

/-- The room up to the next jump of `head`. -/
def room (mb : Membuff) : ℕ :=
  if mb.tail ≤ mb.head then (if mb.tail = 0 then mb.size - 1 - mb.head else mb.size - mb.head)
  else mb.tail - mb.head - 1

/-- The bytes up to the next jump of `tail`. -/
def chunk (mb : Membuff) : ℕ :=
  if mb.tail ≤ mb.head then mb.head - mb.tail else mb.size - mb.tail

theorem Ok.room_le (h : mb.Ok) : mb.room ≤ mb.space := by
  have := h.head_lt
  have := h.tail_lt
  rw [room, space, length_contents]
  split_ifs <;> omega

/-! ## Putting bytes -/

/-- The state after `k` bytes are put at once. -/
def advanceHead (mb : Membuff) (bs : List UInt8) : Membuff :=
  { mb with
    mem := mb.mem.write mb.head bs
    head := if mb.head + bs.length = mb.size then 0 else mb.head + bs.length }

@[simp] theorem tail_advanceHead (mb : Membuff) (bs : List UInt8) :
    (mb.advanceHead bs).tail = mb.tail := rfl

@[simp] theorem size_advanceHead (mb : Membuff) (bs : List UInt8) :
    (mb.advanceHead bs).size = mb.size := rfl

theorem Ok.advanceHead_ok (h : mb.Ok) (hbs : bs.length ≤ mb.room) : (mb.advanceHead bs).Ok := by
  have hhead := h.head_lt
  have htail := h.tail_lt
  rw [room] at hbs
  refine ⟨?_, htail⟩
  change (if mb.head + bs.length = mb.size then 0 else mb.head + bs.length) < mb.size
  split_ifs at hbs ⊢ <;> omega

theorem Ok.contents_advanceHead (h : mb.Ok) (hbs : bs.length ≤ mb.room) :
    (mb.advanceHead bs).contents = mb.contents ++ bs := by
  have hhead := h.head_lt
  have htail := h.tail_lt
  rw [room] at hbs
  by_cases hle : mb.tail ≤ mb.head
  · obtain ⟨n, hn⟩ := Nat.exists_eq_add_of_le hle
    have hself := Mem.slice_write_behind mb.mem mb.tail n bs
    rw [← hn] at hself
    rw [if_pos hle] at hbs
    rw [contents_of_le hle]
    by_cases hend : mb.head + bs.length = mb.size
    · -- the bytes fill the end of the buffer
      have hzero : mb.tail ≠ 0 := by
        intro h0
        rw [if_pos h0] at hbs
        omega
      have hnew : (mb.advanceHead bs).head = 0 := if_pos hend
      have hlen : mb.size - mb.tail = n + bs.length := by omega
      have hn' : mb.head - mb.tail = n := by omega
      rw [contents_of_lt (by rw [hnew]; exact Nat.pos_of_ne_zero hzero), hnew, Mem.slice_zero,
        List.append_nil, hn', ← hself, ← hlen]
      rfl
    · have hnew : (mb.advanceHead bs).head = mb.head + bs.length := if_neg hend
      have hlen : mb.head + bs.length - mb.tail = n + bs.length := by omega
      have hn' : mb.head - mb.tail = n := by omega
      rw [contents_of_le (by rw [hnew, tail_advanceHead]; omega), hnew, hn', ← hself, ← hlen]
      rfl
  · rw [if_neg hle] at hbs
    have hself := Mem.slice_write_behind mb.mem 0 mb.head bs
    rw [Nat.zero_add] at hself
    have hnew : (mb.advanceHead bs).head = mb.head + bs.length := if_neg (by omega)
    have hlt : (mb.advanceHead bs).head < (mb.advanceHead bs).tail := by
      rw [hnew, tail_advanceHead]
      omega
    rw [contents_of_lt (Nat.lt_of_not_le hle), contents_of_lt hlt, hnew, List.append_assoc, ← hself]
    congr 1
    exact Mem.slice_write_of_disjoint (.inr (by omega))

theorem clip_natCast (len n : ℕ) : clip len n = ((min n len : ℕ) : ℤ) := by
  unfold clip
  split_ifs <;> omega

/-- `membuff_putraw` hands out as much room as there is up to the next jump. -/
theorem Ok.putraw_eq (h : mb.Ok) (n : ℕ) :
    mb.putraw n true = (((min n mb.room : ℕ) : ℤ), mb.head, { mb with
        head := if mb.head + min n mb.room = mb.size then 0 else mb.head + min n mb.room }) := by
  have hhead := h.head_lt
  have htail := h.tail_lt
  unfold putraw room
  simp only [↓reduceIte]
  by_cases hle : mb.tail ≤ mb.head
  · have hlen : (mb.size - mb.head - 1 : ℤ) = ((mb.size - 1 - mb.head : ℕ) : ℤ) := by omega
    rw [if_pos hle, if_pos hle, hlen, clip_natCast]
    by_cases hzero : mb.tail = 0
    · have hend : mb.head + min n (mb.size - 1 - mb.head) ≠ mb.size := by omega
      rw [if_pos hzero, if_neg (fun hc ↦ hc.2 hzero), if_neg hend]
      rfl
    · rw [if_neg hzero]
      by_cases hn : n ≤ mb.size - 1 - mb.head
      · rw [if_neg (by omega), Nat.min_eq_left hn, Nat.min_eq_left (by omega),
          if_neg (by omega)]
        rfl
      · rw [if_pos (by omega), Nat.min_eq_right (by omega), Nat.min_eq_right (by omega),
          if_pos (by omega)]
        congr 1
        omega
  · have hlen : (mb.tail - mb.head - 1 : ℤ) = ((mb.tail - mb.head - 1 : ℕ) : ℤ) := by omega
    rw [if_neg hle, if_neg hle, hlen, clip_natCast, if_neg (by omega)]
    rfl

theorem Ok.putTurn_eq (h : mb.Ok) (bs : List UInt8) :
    mb.putTurn bs = some (bs.drop mb.room, mb.advanceHead (bs.take mb.room)) := by
  have hhead := h.head_lt
  have htail := h.tail_lt
  have htake : bs.take (min bs.length mb.room) = bs.take mb.room := by
    rw [List.take_eq_take_iff]
    omega
  have hdrop : bs.drop (min bs.length mb.room) = bs.drop mb.room := by
    rw [List.drop_eq_drop_iff]
    omega
  have hfit : mb.head + (bs.take mb.room).length ≤ mb.size := by
    rw [List.length_take, room]
    split_ifs <;> omega
  unfold putTurn
  rw [h.putraw_eq]
  simp only [Int.toNat_natCast, htake, hdrop, store, if_pos hfit, Option.bind_eq_bind,
    Option.bind_some, Option.some.injEq, Prod.mk.injEq, true_and]
  rw [advanceHead, List.length_take, Nat.min_comm]

/-- When the room up to the jump is used up, what is left is behind the jump. -/
theorem Ok.room_advanceHead (h : mb.Ok) (hbs : bs.length = mb.room) :
    (mb.advanceHead bs).room = mb.space - mb.room := by
  have hhead := h.head_lt
  have htail := h.tail_lt
  have hnew : (mb.advanceHead bs).head =
      if mb.head + mb.room = mb.size then 0 else mb.head + mb.room := by
    rw [← hbs]
    rfl
  rw [space, length_contents]
  unfold room at hnew ⊢
  rw [hnew, tail_advanceHead, size_advanceHead]
  split_ifs <;> omega

/-- `membuff_put` takes as many bytes as there is room for. -/
theorem Ok.put_spec (h : mb.Ok) (bs : List UInt8) :
    ∃ mb', mb.put bs = some (((min bs.length mb.space : ℕ) : ℤ), mb') ∧ mb'.Ok ∧
      mb'.size = mb.size ∧ mb'.contents = mb.contents ++ bs.take mb.space := by
  have hroom := h.room_le
  have htake : (bs.take mb.room).length ≤ mb.room := by rw [List.length_take]; omega
  have hok := h.advanceHead_ok htake
  have hcontents := h.contents_advanceHead htake
  set mb₁ := mb.advanceHead (bs.take mb.room) with hmb₁
  have htake₁ : ((bs.drop mb.room).take mb₁.room).length ≤ mb₁.room := by
    rw [List.length_take]
    omega
  have hroom₁ : (bs.drop mb.room).take mb₁.room = (bs.drop mb.room).take (mb.space - mb.room) := by
    by_cases hlen : bs.length ≤ mb.room
    · rw [List.drop_eq_nil_of_le hlen, List.take_nil, List.take_nil]
    · rw [hmb₁, h.room_advanceHead (by rw [List.length_take]; omega)]
  refine ⟨mb₁.advanceHead ((bs.drop mb.room).take mb₁.room), ?_, hok.advanceHead_ok htake₁, rfl, ?_⟩
  · have hleft : ((bs.drop mb.room).drop mb₁.room).length = bs.length - mb.space := by
      rw [List.length_drop, List.length_drop]
      by_cases hlen : bs.length ≤ mb.room
      · omega
      · rw [hmb₁, h.room_advanceHead (by rw [List.length_take]; omega)]
        omega
    rw [put, h.putTurn_eq]
    simp only [Option.bind_eq_bind, Option.bind_some]
    rw [← hmb₁, hok.putTurn_eq]
    simp only [Option.bind_some, hleft, Option.some.injEq, Prod.mk.injEq, and_true]
    omega
  · rw [hok.contents_advanceHead htake₁, hcontents, hroom₁, List.append_assoc, ← List.take_add,
      Nat.add_sub_cancel' hroom]

/-- `membuff_putbyte` puts a byte if there is room. -/
theorem Ok.putbyte_spec (h : mb.Ok) (ch : ℤ) :
    ∃ mb', mb.putbyte ch = some (decide (0 < mb.space), mb') ∧ mb'.Ok ∧ mb'.size = mb.size ∧
      mb'.contents = mb.contents ++ [UInt8.ofInt ch].take mb.space := by
  have hhead := h.head_lt
  have htail := h.tail_lt
  have hroom := h.room_le
  by_cases hfull : mb.room = 0
  · have hspace : mb.space = 0 := by
      rw [space, length_contents]
      rw [room] at hfull
      split_ifs at hfull ⊢ <;> omega
    refine ⟨mb, ?_, h, rfl, by rw [hspace, List.take_zero, List.append_nil]⟩
    have hraw := h.putraw_eq 1
    rw [hfull, Nat.min_zero, Nat.add_zero, if_neg hhead.ne, Nat.cast_one] at hraw
    rw [putbyte, hraw, hspace]
    rfl
  · have hone : min 1 mb.room = 1 := by omega
    have hlen : [UInt8.ofInt ch].length ≤ mb.room := by
      rw [List.length_singleton]
      omega
    have hfit : mb.head + [UInt8.ofInt ch].length ≤ mb.size := by
      rw [List.length_singleton]
      omega
    refine ⟨mb.advanceHead [UInt8.ofInt ch], ?_, h.advanceHead_ok hlen, rfl, ?_⟩
    · have hraw := h.putraw_eq 1
      rw [hone, Nat.cast_one] at hraw
      rw [putbyte, hraw, decide_eq_true (by omega)]
      simp only [ne_eq, not_true_eq_false, if_false, store, if_pos hfit]
      rfl
    · rw [h.contents_advanceHead hlen,
        List.take_of_length_le (by rw [List.length_singleton]; omega)]

/-! ## Getting bytes -/

/-- The state after the oldest `k` bytes are removed. -/
def advanceTail (mb : Membuff) (k : ℕ) : Membuff :=
  { mb with tail := if mb.tail + k < mb.size then mb.tail + k else mb.tail + k - mb.size }

theorem tail_advanceTail (mb : Membuff) (k : ℕ) : (mb.advanceTail k).tail =
    if mb.tail + k < mb.size then mb.tail + k else mb.tail + k - mb.size := rfl

theorem Ok.advanceTail_ok (h : mb.Ok) {k : ℕ} (hk : k ≤ mb.contents.length) :
    (mb.advanceTail k).Ok := by
  have hhead := h.head_lt
  have htail := h.tail_lt
  rw [length_contents] at hk
  refine ⟨hhead, ?_⟩
  change (if mb.tail + k < mb.size then mb.tail + k else mb.tail + k - mb.size) < mb.size
  split_ifs at hk ⊢ <;> omega

theorem Ok.contents_advanceTail (h : mb.Ok) {k : ℕ} (hk : k ≤ mb.contents.length) :
    (mb.advanceTail k).contents = mb.contents.drop k := by
  have hhead := h.head_lt
  have htail := h.tail_lt
  rw [length_contents] at hk
  by_cases hle : mb.tail ≤ mb.head
  · rw [if_pos hle] at hk
    have hnew : (mb.advanceTail k).tail = mb.tail + k := if_pos (by omega)
    have hle' : (mb.advanceTail k).tail ≤ (mb.advanceTail k).head := by
      rw [hnew]
      change mb.tail + k ≤ mb.head
      omega
    rw [contents_of_le hle, Mem.drop_slice _ _ hk, contents_of_le hle', hnew, Nat.sub_sub]
    rfl
  · rw [if_neg hle] at hk
    have hlt : mb.head < mb.tail := Nat.lt_of_not_le hle
    rw [contents_of_lt hlt]
    by_cases htop : mb.tail + k < mb.size
    · have hnew : (mb.advanceTail k).tail = mb.tail + k := if_pos htop
      have hlt' : (mb.advanceTail k).head < (mb.advanceTail k).tail := by
        rw [hnew]
        exact hlt.trans_le (Nat.le_add_right _ _)
      rw [List.drop_append_of_le_length (by rw [Mem.length_slice]; omega),
        Mem.drop_slice _ _ (by omega), contents_of_lt hlt', hnew, Nat.sub_sub]
      rfl
    · have hnew : (mb.advanceTail k).tail = k - (mb.size - mb.tail) := by
        rw [show (mb.advanceTail k).tail = mb.tail + k - mb.size from if_neg htop]
        omega
      have hle' : (mb.advanceTail k).tail ≤ (mb.advanceTail k).head := by
        rw [hnew]
        change k - (mb.size - mb.tail) ≤ mb.head
        omega
      rw [List.drop_append, List.drop_eq_nil_of_le (by rw [Mem.length_slice]; omega),
        List.nil_append, Mem.length_slice, Mem.drop_slice _ _ (by omega), contents_of_le hle', hnew,
        Nat.zero_add]
      rfl

theorem chunk_le_length (mb : Membuff) : mb.chunk ≤ mb.contents.length := by
  rw [length_contents, chunk]
  split_ifs <;> omega

theorem take_contents {k : ℕ} (hk : k ≤ mb.chunk) :
    mb.contents.take k = mb.mem.slice mb.tail k := by
  rw [chunk] at hk
  by_cases hle : mb.tail ≤ mb.head
  · rw [if_pos hle] at hk
    rw [contents_of_le hle, Mem.take_slice _ _ hk]
  · rw [if_neg hle] at hk
    rw [contents_of_lt (Nat.lt_of_not_le hle),
      List.take_append_of_le_length (by rw [Mem.length_slice]; exact hk), Mem.take_slice _ _ hk]

/-- `membuff_getraw` hands out the bytes up to the next jump. -/
theorem Ok.getraw_eq (h : mb.Ok) (n : ℕ) :
    mb.getraw n true = (((min n mb.chunk : ℕ) : ℤ), if mb.head = mb.tail then 0 else mb.tail,
      mb.advanceTail (min n mb.chunk)) := by
  have hhead := h.head_lt
  have htail := h.tail_lt
  unfold getraw advanceTail
  simp only [↓reduceIte]
  by_cases hlt : mb.tail < mb.head
  · have hlen : (mb.head - mb.tail : ℤ) = ((mb.head - mb.tail : ℕ) : ℤ) := by omega
    have hchunk : mb.chunk = mb.head - mb.tail := if_pos hlt.le
    rw [if_pos hlt, if_neg hlt.ne', hlen, clip_natCast, Int.toNat_natCast, hchunk,
      if_pos (by omega)]
  by_cases hgt : mb.head < mb.tail
  · have hlen : (mb.size - mb.tail : ℤ) = ((mb.size - mb.tail : ℕ) : ℤ) := by omega
    have hchunk : mb.chunk = mb.size - mb.tail := if_neg (Nat.not_le.2 hgt)
    rw [if_neg hlt, if_pos hgt, if_neg hgt.ne, hlen, clip_natCast, Int.toNat_natCast, hchunk]
    by_cases hend : mb.tail + min n (mb.size - mb.tail) = mb.size
    · rw [if_pos hend, if_neg (by omega), hend, Nat.sub_self]
    · rw [if_neg hend, if_pos (by omega)]
  · have heq : mb.head = mb.tail := by omega
    have hchunk : mb.chunk = 0 := by rw [chunk, heq, if_pos le_rfl, Nat.sub_self]
    rw [if_neg hlt, if_neg hgt, if_pos heq, hchunk, Nat.min_zero, Nat.add_zero, if_pos htail]
    rfl

theorem Ok.getTurn_eq (h : mb.Ok) (n : ℕ) :
    mb.getTurn n = some (mb.contents.take (min n mb.chunk), n - ((min n mb.chunk : ℕ) : ℤ),
      mb.advanceTail (min n mb.chunk)) := by
  have hhead := h.head_lt
  have htail := h.tail_lt
  have hfit : (if mb.head = mb.tail then 0 else mb.tail) + min n mb.chunk ≤ mb.size := by
    rw [chunk]
    split_ifs <;> omega
  have hbytes : mb.mem.slice (if mb.head = mb.tail then 0 else mb.tail) (min n mb.chunk) =
      mb.contents.take (min n mb.chunk) := by
    rw [take_contents (Nat.min_le_right _ _)]
    by_cases heq : mb.head = mb.tail
    · have hzero : mb.chunk = 0 := by
        rw [chunk, heq, if_pos le_rfl, Nat.sub_self]
      rw [hzero, Nat.min_zero, Mem.slice_zero, Mem.slice_zero]
    · rw [if_neg heq]
  rw [getTurn, h.getraw_eq]
  simp only [Int.toNat_natCast, load, if_pos hfit, hbytes, Option.bind_eq_bind, Option.bind_some]

/-- When the bytes up to the jump are taken, the others are behind the jump. -/
theorem Ok.chunk_advanceTail (h : mb.Ok) :
    (mb.advanceTail mb.chunk).chunk = mb.contents.length - mb.chunk := by
  have hhead := h.head_lt
  have htail := h.tail_lt
  have hnew : (mb.advanceTail mb.chunk).tail =
    if mb.tail + mb.chunk < mb.size then mb.tail + mb.chunk else mb.tail + mb.chunk - mb.size := rfl
  rw [length_contents]
  unfold chunk at hnew ⊢
  rw [hnew]
  change (if _ ≤ mb.head then mb.head - _ else mb.size - _) = _
  split_ifs <;> omega

/-- `membuff_get` gives the oldest bytes. -/
theorem Ok.get_spec (h : mb.Ok) (n : ℕ) :
    ∃ mb', mb.get n = some (((min n mb.contents.length : ℕ) : ℤ), mb.contents.take n, mb') ∧
      mb'.Ok ∧ mb'.size = mb.size ∧ mb'.contents = mb.contents.drop n := by
  have hchunk := mb.chunk_le_length
  have hk : min n mb.chunk ≤ mb.contents.length := (Nat.min_le_right _ _).trans hchunk
  have hok := h.advanceTail_ok hk
  have hcontents := h.contents_advanceTail hk
  rw [get, h.getTurn_eq]
  simp only [Option.bind_eq_bind, Option.bind_some]
  set mb₁ := mb.advanceTail (min n mb.chunk) with hmb₁
  by_cases hnil : mb.contents.take (min n mb.chunk) = []
  · -- nothing was asked for, or the buffer is empty
    have htake : min n mb.contents.length = 0 := by
      have hhead := h.head_lt
      have htail := h.tail_lt
      have hlen := congrArg List.length hnil
      rw [List.length_take, List.length_nil, length_contents, chunk] at hlen
      rw [length_contents]
      split_ifs at hlen ⊢ <;> omega
    have htake' : mb.contents.take n = [] := by
      rw [← List.length_eq_zero_iff, List.length_take, htake]
    have hdrop : mb.contents.drop n = mb.contents.drop (min n mb.chunk) := by
      rw [List.drop_eq_drop_iff]
      omega
    refine ⟨mb₁, ?_, hok, rfl, by rw [hcontents, hdrop]⟩
    rw [if_pos hnil, htake, htake']
    rfl
  · have hrest : (n : ℤ) - ((min n mb.chunk : ℕ) : ℤ) = ((n - mb.chunk : ℕ) : ℤ) := by omega
    have hk₁ : min (n - mb.chunk) mb₁.chunk =
        min (n - mb.chunk) (mb.contents.length - mb.chunk) := by
      by_cases hle : n ≤ mb.chunk
      · omega
      · have hmin : min n mb.chunk = mb.chunk := Nat.min_eq_right (Nat.le_of_not_le hle)
        rw [hmb₁, hmin, h.chunk_advanceTail]
    have hk₁' : min (n - mb.chunk) mb₁.chunk ≤ mb₁.contents.length :=
      (Nat.min_le_right _ _).trans mb₁.chunk_le_length
    have hsum : min n mb.chunk + min (n - mb.chunk) mb₁.chunk = min n mb.contents.length := by omega
    have hbytes : mb.contents.take (min n mb.chunk) ++
        mb₁.contents.take (min (n - mb.chunk) mb₁.chunk) = mb.contents.take n := by
      rw [hcontents, ← List.take_add, hsum, List.take_eq_take_iff]
      omega
    refine ⟨mb₁.advanceTail (min (n - mb.chunk) mb₁.chunk), ?_, hok.advanceTail_ok hk₁', rfl, ?_⟩
    · rw [if_neg hnil, hrest, hok.getTurn_eq]
      simp only [Option.bind_some, hbytes, List.length_take]
    · rw [hok.contents_advanceTail hk₁', hcontents, List.drop_drop, hsum, List.drop_eq_drop_iff]
      omega

/-- Without a limit, all bytes up to the next jump are handed out. -/
theorem Ok.getraw_neg (h : mb.Ok) : mb.getraw (-1) true = mb.getraw mb.chunk true := by
  have htail := h.tail_lt
  have hneg (len : ℤ) : clip len (-1) = clip len len := by
    rw [clip, clip, if_neg (by omega), if_neg (by omega)]
  unfold getraw
  by_cases hlt : mb.tail < mb.head
  · have hchunk : (mb.chunk : ℤ) = mb.head - mb.tail := by
      rw [chunk, if_pos hlt.le]
      omega
    rw [if_pos hlt, if_pos hlt, hchunk, hneg]
  by_cases hgt : mb.head < mb.tail
  · have hchunk : (mb.chunk : ℤ) = mb.size - mb.tail := by
      rw [chunk, if_neg (Nat.not_le.2 hgt)]
      omega
    rw [if_neg hlt, if_pos hgt, if_neg hlt, if_pos hgt, hchunk, hneg]
  · rw [if_neg hlt, if_neg hgt, if_neg hlt, if_neg hgt]

/-- `membuff_avail` is the length of the queue. -/
theorem Ok.avail_eq (h : mb.Ok) : mb.avail = mb.contents.length := by
  have hchunk := mb.chunk_le_length
  have hok := h.advanceTail_ok hchunk
  rw [avail, h.getraw_neg, h.getraw_eq, Nat.min_self]
  simp only
  rw [hok.getraw_neg, hok.getraw_eq, Nat.min_self, h.chunk_advanceTail]
  simp only
  omega

theorem Ok.length_le (h : mb.Ok) : mb.contents.length ≤ mb.size - 1 := by
  have hhead := h.head_lt
  have htail := h.tail_lt
  rw [length_contents]
  split_ifs <;> omega

/-- `membuff_free` is the room that is left. -/
theorem Ok.free_eq (h : mb.Ok) : mb.free = mb.space := by
  have hhead := h.head_lt
  have hle := h.length_le
  rw [free, if_neg (by omega), h.avail_eq, space]
  omega

/-- Whether bytes are left behind the pointer does not depend on the jump. -/
theorem Ok.chunk_eq_zero (h : mb.Ok) : mb.chunk = 0 ↔ mb.contents = [] := by
  have hhead := h.head_lt
  have htail := h.tail_lt
  rw [← List.length_eq_zero_iff, length_contents, chunk]
  split_ifs <;> omega

/-- The value of the oldest byte, or `-1`. -/
def front (q : List UInt8) : ℤ := q.head?.elim (-1) fun b ↦ (b.toNat : ℤ)

/-- The byte that one call of `membuff_getraw` hands out. -/
theorem Ok.getraw_one (h : mb.Ok) :
    (mb.contents = [] ∧ (mb.getraw 1 true).1 = 0) ∨
    ∃ b, mb.contents.head? = some b ∧ (mb.getraw 1 true).1 = 1 ∧
      mb.load (mb.getraw 1 true).2.1 1 = some [b] := by
  have hhead := h.head_lt
  have htail := h.tail_lt
  have hraw := h.getraw_eq 1
  rw [Nat.cast_one] at hraw
  rw [hraw]
  by_cases hchunk : mb.chunk = 0
  · exact .inl ⟨h.chunk_eq_zero.1 hchunk, by rw [hchunk]; rfl⟩
  · have hne : mb.head ≠ mb.tail := by
      intro heq
      rw [chunk, heq, if_pos le_rfl, Nat.sub_self] at hchunk
      exact hchunk rfl
    have htake : mb.contents.take 1 = [mb.mem mb.tail] := take_contents (Nat.pos_of_ne_zero hchunk)
    refine .inr ⟨mb.mem mb.tail, ?_, ?_, ?_⟩
    · cases hq : mb.contents with
      | nil =>
        rw [hq, List.take_nil] at htake
        exact absurd htake.symm (List.cons_ne_nil _ _)
      | cons b q =>
        rw [hq, List.take_succ_cons, List.take_zero, List.cons.injEq] at htake
        rw [List.head?_cons, htake.1]
    · rw [Nat.min_eq_left (Nat.pos_of_ne_zero hchunk), Nat.cast_one]
    · have hfit : mb.tail + 1 ≤ mb.size := htail
      rw [if_neg hne]
      exact if_pos hfit

/-- `membuff_getbyte` gives the oldest byte. -/
theorem Ok.getbyte_spec (h : mb.Ok) :
    ∃ mb', mb.getbyte = some (front mb.contents, mb') ∧ mb'.Ok ∧ mb'.size = mb.size ∧
      mb'.contents = mb.contents.drop 1 := by
  have hchunk := mb.chunk_le_length
  have hraw := h.getraw_eq 1
  rw [Nat.cast_one] at hraw
  have hk : min 1 mb.chunk ≤ mb.contents.length := (Nat.min_le_right _ _).trans hchunk
  refine ⟨(mb.getraw 1 true).2.2, ?_, ?_, ?_, ?_⟩
  · obtain ⟨hnil, hlen⟩ | ⟨b, hb, hlen, hload⟩ := h.getraw_one
    · rw [getbyte, hnil]
      simp only [hlen]
      rfl
    · rw [getbyte, front, hb]
      simp only [hlen, hload]
      rfl
  · rw [hraw]
    exact h.advanceTail_ok hk
  · rw [hraw]
    rfl
  · rw [hraw, h.contents_advanceTail hk, List.drop_eq_drop_iff]
    have := h.chunk_eq_zero
    rw [← List.length_eq_zero_iff] at this
    omega

theorem getraw_false (mb : Membuff) (n : ℤ) :
    mb.getraw n false = ((mb.getraw n true).1, (mb.getraw n true).2.1, mb) := by
  unfold getraw
  by_cases hlt : mb.tail < mb.head
  · rw [if_pos hlt, if_pos hlt]
    rfl
  by_cases hgt : mb.head < mb.tail
  · rw [if_neg hlt, if_pos hgt, if_neg hlt, if_pos hgt]
    rfl
  · rw [if_neg hlt, if_neg hgt, if_neg hlt, if_neg hgt]

/-- `membuff_peekbyte` gives the oldest byte and leaves it in the buffer. -/
theorem Ok.peekbyte_spec (h : mb.Ok) : mb.peekbyte = some (front mb.contents) := by
  rw [peekbyte, getraw_false]
  obtain ⟨hnil, hlen⟩ | ⟨b, hb, hlen, hload⟩ := h.getraw_one
  · rw [hnil]
    simp only [hlen]
    rfl
  · rw [front, hb]
    simp only [hlen, hload]
    rfl

end Membuff

end MiniPi
