import MiniPi.Membuff.Fifo

/-!
# Lines

`membuff_readline` looks for the first character that ends a line.  When the queue is wrapped it
goes on behind the jump, and over the same bytes again when they hold no end of a line.
-/

namespace MiniPi

open Lib

namespace Lib.Mem

variable {m : Mem} {a i n : ℕ} {p : UInt8 → Bool}

theorem findIdx?_slice_eq_some (h : (m.slice a n).findIdx? p = some i) :
    i < n ∧ p (m (a + i)) = true ∧ ∀ j < i, p (m (a + j)) = false := by
  obtain ⟨hi, hp, hbefore⟩ := List.findIdx?_eq_some_iff_getElem.1 h
  have hget (j : ℕ) (hj : j < (m.slice a n).length) : (m.slice a n)[j] = m (a + j) := by
    simp [slice]
  have hin : i < n := by
    rw [length_slice] at hi
    exact hi
  refine ⟨hin, ?_, fun j hj ↦ ?_⟩
  · rw [← hget i hi]
    exact hp
  · rw [← hget j (hj.trans hi)]
    exact Bool.eq_false_iff.2 (hbefore j hj)

theorem findIdx?_slice_eq_none (h : (m.slice a n).findIdx? p = none) :
    ∀ j < n, p (m (a + j)) = false := by
  intro j hj
  refine List.findIdx?_eq_none_iff.1 h _ ?_
  exact List.mem_map_of_mem (List.mem_range.2 hj)

end Lib.Mem

namespace Membuff

variable {mb : Membuff}

/-! ## The loop -/

section Line

variable {minch : ℤ} {e i n s : ℕ} {str : List UInt8}

/-- The loop finds the first end of a line before the jump. -/
theorem readlineLoop_found (hbefore : ∀ j < i, endsLine minch (mb.mem (s + j)) = false)
    (hends : endsLine minch (mb.mem (s + i)) = true) (hi : s + i < e) :
    mb.readlineLoop minch n s e str =
      if i < n then some (str ++ mb.mem.slice s i, s + i + 1) else none := by
  induction i generalizing n s str with
  | zero =>
    cases n with
    | zero => rfl
    | succ n =>
      rw [readlineLoop, if_pos (by omega), if_pos (Nat.succ_pos n), Mem.slice_zero, List.append_nil]
      exact if_pos hends
  | succ i ih =>
    cases n with
    | zero => rfl
    | succ n =>
      have hfirst : endsLine minch (mb.mem s) = false := hbefore 0 (Nat.succ_pos i)
      have hrest (j : ℕ) (hj : j < i) : endsLine minch (mb.mem (s + 1 + j)) = false := by
        rw [Nat.add_assoc, Nat.add_comm 1 j]
        exact hbefore (j + 1) (Nat.succ_lt_succ hj)
      have hlast : endsLine minch (mb.mem (s + 1 + i)) = true := by
        rw [Nat.add_assoc, Nat.add_comm 1 i]
        exact hends
      rw [readlineLoop, if_pos (by omega)]
      simp only [hfirst, Bool.false_eq_true, if_false]
      rw [if_neg (by omega), ih hrest hlast (by omega), Mem.slice_cons, List.append_assoc,
        List.singleton_append, Nat.add_assoc s 1 i, Nat.add_comm 1 i]
      simp only [Nat.succ_lt_succ_iff]

/-- Without an end of a line and without a jump, nothing is found. -/
theorem readlineLoop_none (hwrap : mb.tail ≤ mb.head)
    (hnone : ∀ x, s ≤ x → x < e → endsLine minch (mb.mem x) = false) :
    mb.readlineLoop minch n s e str = none := by
  induction n generalizing s str with
  | zero => rfl
  | succ n ih =>
    rw [readlineLoop]
    by_cases hs : s < e
    · rw [if_pos hs]
      simp only [hnone s le_rfl hs, Bool.false_eq_true, if_false]
      rw [if_neg (fun hc ↦ absurd hc.2 (Nat.not_lt.2 hwrap))]
      exact ih fun x hx ↦ hnone x (Nat.le_of_succ_le hx)
    · rw [if_neg hs]

/-- At the end of the bytes behind the jump the loop starts again there, and finds nothing. -/
theorem readlineLoop_bottom (hnone : ∀ x < mb.head, endsLine minch (mb.mem x) = false) :
    mb.readlineLoop minch n s mb.head str = none := by
  induction n generalizing s str with
  | zero => rfl
  | succ n ih =>
    rw [readlineLoop]
    by_cases hs : s < mb.head
    · rw [if_pos hs]
      simp only [hnone s hs, Bool.false_eq_true, if_false]
      split_ifs
      · exact ih
      · exact ih
    · rw [if_neg hs]

/-- Without an end of a line before the jump, the loop goes on behind it. -/
theorem readlineLoop_top (hwrap : mb.head < mb.tail) (hs : s + i + 1 = e)
    (hnone : ∀ j ≤ i, endsLine minch (mb.mem (s + j)) = false) :
    mb.readlineLoop minch n s e str =
      mb.readlineLoop minch (n - (i + 1)) 0 mb.head (str ++ mb.mem.slice s (i + 1)) := by
  induction i generalizing n s str with
  | zero =>
    cases n with
    | zero => rfl
    | succ n =>
      rw [readlineLoop, if_pos (by omega)]
      simp only [show endsLine minch (mb.mem s) = false from hnone 0 le_rfl, Bool.false_eq_true,
        if_false]
      rw [if_pos ⟨hs, hwrap⟩]
      rfl
  | succ i ih =>
    cases n with
    | zero =>
      rw [Nat.zero_sub]
      rfl
    | succ n =>
      have hfirst : endsLine minch (mb.mem s) = false := hnone 0 (Nat.zero_le _)
      have hrest (j : ℕ) (hj : j ≤ i) : endsLine minch (mb.mem (s + 1 + j)) = false := by
        rw [Nat.add_assoc, Nat.add_comm 1 j]
        exact hnone (j + 1) (Nat.succ_le_succ hj)
      rw [readlineLoop, if_pos (by omega)]
      simp only [hfirst, Bool.false_eq_true, if_false]
      rw [if_neg (by omega), ih (by omega) hrest, Nat.add_sub_add_right, Mem.slice_cons mb.mem s,
        List.append_assoc, List.singleton_append]

end Line

/-! ## The function -/

/-- The place of the end of the first line, if the line is shorter than `maxlen`. -/
def lineEnd (maxlen minch : ℤ) (q : List UInt8) : Option ℕ :=
  (q.findIdx? (endsLine minch)).filter fun i ↦ decide ((i : ℤ) + 1 < maxlen)

/-- What the loop of `membuff_readline` finds. -/
theorem Ok.readlineLoop_spec (h : mb.Ok) (minch : ℤ) (n : ℕ) :
    (∃ i, i < n ∧ mb.contents.findIdx? (endsLine minch) = some i ∧
      ∃ s, mb.readlineLoop minch n mb.tail (if mb.tail ≤ mb.head then mb.head else mb.size) [] =
          some (mb.contents.take i, s) ∧
        (if s = mb.size then 0 else s) = (mb.advanceTail (i + 1)).tail) ∨
    ((∀ i, mb.contents.findIdx? (endsLine minch) = some i → n ≤ i) ∧
      mb.readlineLoop minch n mb.tail (if mb.tail ≤ mb.head then mb.head else mb.size) [] =
      none) := by
  have hhead := h.head_lt
  have htail := h.tail_lt
  by_cases hle : mb.tail ≤ mb.head
  · rw [contents_of_le hle, if_pos hle]
    cases hfind : (mb.mem.slice mb.tail (mb.head - mb.tail)).findIdx? (endsLine minch) with
    | none =>
      have hnone := Mem.findIdx?_slice_eq_none hfind
      refine .inr ⟨fun i hi ↦ (nomatch hi), readlineLoop_none hle fun x hx hx' ↦ ?_⟩
      have := hnone (x - mb.tail) (by omega)
      rw [Nat.add_sub_cancel' hx] at this
      exact this
    | some i =>
      obtain ⟨hi, hends, hbefore⟩ := Mem.findIdx?_slice_eq_some hfind
      have hloop : mb.readlineLoop minch n mb.tail mb.head [] =
          if i < n then some (mb.mem.slice mb.tail i, mb.tail + i + 1) else none :=
        readlineLoop_found hbefore hends (by omega)
      by_cases hn : i < n
      · refine .inl ⟨i, hn, rfl, mb.tail + i + 1, ?_, ?_⟩
        · rw [hloop, if_pos hn, Mem.take_slice _ _ hi.le]
        · rw [advanceTail, if_neg (by omega), if_pos (by omega)]
          rfl
      · refine .inr ⟨fun j hj ↦ ?_, hloop.trans (if_neg hn)⟩
        rw [← Option.some.inj hj]
        exact Nat.not_lt.1 hn
  · have hwrap : mb.head < mb.tail := Nat.lt_of_not_le hle
    rw [contents_of_lt hwrap, if_neg hle, List.findIdx?_append, Mem.length_slice]
    cases hfind : (mb.mem.slice mb.tail (mb.size - mb.tail)).findIdx? (endsLine minch) with
    | some i =>
      -- the line ends before the jump
      obtain ⟨hi, hends, hbefore⟩ := Mem.findIdx?_slice_eq_some hfind
      have hloop : mb.readlineLoop minch n mb.tail mb.size [] =
          if i < n then some (mb.mem.slice mb.tail i, mb.tail + i + 1) else none :=
        readlineLoop_found hbefore hends (by omega)
      by_cases hn : i < n
      · refine .inl ⟨i, hn, rfl, mb.tail + i + 1, ?_, ?_⟩
        · rw [hloop, if_pos hn,
            List.take_append_of_le_length (by rw [Mem.length_slice]; exact hi.le),
            Mem.take_slice _ _ hi.le]
        · rw [tail_advanceTail]
          split_ifs <;> omega
      · refine .inr ⟨fun j hj ↦ ?_, hloop.trans (if_neg hn)⟩
        rw [← Option.some.inj hj]
        exact Nat.not_lt.1 hn
    | none =>
      obtain ⟨k, hk⟩ : ∃ k, mb.size - mb.tail = k + 1 := ⟨mb.size - mb.tail - 1, by omega⟩
      have hnone := Mem.findIdx?_slice_eq_none hfind
      rw [hk] at hnone ⊢
      have htop : mb.readlineLoop minch n mb.tail mb.size [] =
          mb.readlineLoop minch (n - (k + 1)) 0 mb.head (mb.mem.slice mb.tail (k + 1)) :=
        readlineLoop_top hwrap (by omega) fun j hj ↦ hnone j (Nat.lt_succ_of_le hj)
      rw [Option.none_or, htop]
      cases hbot : (mb.mem.slice 0 mb.head).findIdx? (endsLine minch) with
      | none =>
        have hnone' := Mem.findIdx?_slice_eq_none hbot
        refine .inr ⟨fun i hi ↦ (nomatch hi), readlineLoop_bottom fun x hx ↦ ?_⟩
        have := hnone' x hx
        rw [Nat.zero_add] at this
        exact this
      | some i =>
        -- the line ends behind the jump
        obtain ⟨hi, hends, hbefore⟩ := Mem.findIdx?_slice_eq_some hbot
        have hloop : mb.readlineLoop minch (n - (k + 1)) 0 mb.head (mb.mem.slice mb.tail (k + 1)) =
            if i < n - (k + 1) then
              some (mb.mem.slice mb.tail (k + 1) ++ mb.mem.slice 0 i, 0 + i + 1) else none :=
          readlineLoop_found hbefore hends (by omega)
        by_cases hn : i < n - (k + 1)
        · refine .inl ⟨i + (k + 1), by omega, rfl, 0 + i + 1, ?_, ?_⟩
          · rw [hloop, if_pos hn, List.take_append, List.take_of_length_le (by simp),
              Mem.length_slice, Nat.add_sub_cancel, Mem.take_slice _ _ hi.le]
          · rw [tail_advanceTail, if_neg (by omega), if_neg (by omega)]
            omega
        · refine .inr ⟨fun j hj ↦ ?_, hloop.trans (if_neg hn)⟩
          have hj' : i + (k + 1) = j := Option.some.inj hj
          omega

/-- `membuff_readline` removes the first line with its end, if the line is short enough. -/
theorem Ok.readline_spec (h : mb.Ok) (maxlen minch : ℤ) :
    (∃ i, lineEnd maxlen minch mb.contents = some i ∧
      mb.readline maxlen minch = ((i : ℤ) + 1, mb.contents.take i, mb.advanceTail (i + 1)) ∧
      i + 1 ≤ mb.contents.length) ∨
    (lineEnd maxlen minch mb.contents = none ∧ mb.readline maxlen minch = (0, [], mb)) := by
  unfold readline lineEnd
  obtain ⟨i, hi, hfind, s, hloop, hs⟩ | ⟨hnone, hloop⟩ :=
    h.readlineLoop_spec minch (maxlen - 1).toNat
  · obtain ⟨hlt, -⟩ := List.findIdx?_eq_some_iff_getElem.1 hfind
    refine .inl ⟨i, ?_, ?_, hlt⟩
    · rw [hfind]
      exact Option.filter_some_pos (decide_eq_true (by omega))
    · simp only [hloop, hs, List.length_take, Nat.min_eq_left hlt.le]
      rfl
  · refine .inr ⟨?_, by simp only [hloop]⟩
    rw [Option.filter_eq_none_iff]
    intro i hi
    have := hnone i hi
    simp only [decide_eq_true_eq]
    omega

end Membuff

end MiniPi
