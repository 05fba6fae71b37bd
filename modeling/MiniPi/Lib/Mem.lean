import Mathlib.Data.Nat.Basic
import Mathlib.Data.List.Basic
import Mathlib.Tactic.Ring

/-!
# Byte-addressed memory

A memory gives a byte at every address.  `slice` copies bytes out of it and `write` copies
them into it; a write is seen by the reads of its own range and by no other.  Numbers are
stored in a fixed number of bytes, in either byte order.
-/

namespace MiniPi.Lib

/-- A byte at every address. -/
abbrev Mem := ℕ → UInt8

/-- The bytes of a text in ASCII. -/
def ascii (s : String) : List UInt8 := s.toList.map fun c ↦ UInt8.ofNat c.toNat

/-! ## Numbers as bytes -/

/-- The number that is stored with its low byte first. -/
def leValue : List UInt8 → ℕ
  | [] => 0
  | b :: bs => b.toNat + 256 * leValue bs

/-- The `w` low bytes of a number, the lowest one first. -/
def leBytes : ℕ → ℕ → List UInt8
  | 0, _ => []
  | w + 1, n => UInt8.ofNat n :: leBytes w (n / 256)

/-- The number that is stored with its high byte first. -/
def beValue (bs : List UInt8) : ℕ := leValue bs.reverse

/-- The `w` low bytes of a number, the highest one first. -/
def beBytes (w n : ℕ) : List UInt8 := (leBytes w n).reverse

@[simp] theorem length_leBytes (w n : ℕ) : (leBytes w n).length = w := by
  induction w generalizing n with
  | zero => rfl
  | succ w ih => simp [leBytes, ih]

@[simp] theorem length_beBytes (w n : ℕ) : (beBytes w n).length = w := by simp [beBytes]

theorem leValue_leBytes (w n : ℕ) : leValue (leBytes w n) = n % 256 ^ w := by
  induction w generalizing n with
  | zero => simp [leBytes, leValue, Nat.mod_one]
  | succ w ih =>
      have hbyte : (UInt8.ofNat n).toNat = n % 256 := by simp
      rw [leBytes, leValue, ih, hbyte, Nat.pow_succ', Nat.mod_mul]

theorem beValue_beBytes (w n : ℕ) : beValue (beBytes w n) = n % 256 ^ w := by
  simp [beValue, beBytes, leValue_leBytes]

theorem getElem?_leBytes (w n i : ℕ) :
    (leBytes w n)[i]? = if i < w then some (UInt8.ofNat (n / 256 ^ i)) else none := by
  induction w generalizing n i with
  | zero => simp [leBytes]
  | succ w ih =>
      cases i with
      | zero => simp [leBytes]
      | succ i => simp [leBytes, ih, Nat.div_div_eq_div_mul, Nat.pow_succ']

theorem leValue_lt (bs : List UInt8) : leValue bs < 256 ^ bs.length := by
  induction bs with
  | nil => simp [leValue]
  | cons b bs ih =>
      have hb : b.toNat < 256 := b.toNat_lt
      rw [leValue, List.length_cons, Nat.pow_succ']
      omega

theorem beValue_lt (bs : List UInt8) : beValue bs < 256 ^ bs.length := by
  simpa [beValue] using leValue_lt bs.reverse

namespace Mem

/-- The `n` bytes from address `a` on. -/
def slice (m : Mem) (a n : ℕ) : List UInt8 := (List.range n).map fun i ↦ m (a + i)

/-- The bytes are copied to address `a`. -/
def write (m : Mem) (a : ℕ) (bs : List UInt8) : Mem := fun x ↦
  if a ≤ x then (bs[x - a]?).getD (m x) else m x

variable {m : Mem} {a b n : ℕ} {bs : List UInt8}

@[simp] theorem length_slice : (m.slice a n).length = n := by simp [slice]

theorem getElem?_slice (i : ℕ) : (m.slice a n)[i]? = if i < n then some (m (a + i)) else none := by
  by_cases hi : i < n <;> simp [slice, hi]

theorem slice_congr {m' : Mem} (h : ∀ i < n, m (a + i) = m' (b + i)) :
    m.slice a n = m'.slice b n := by
  apply List.map_congr_left
  intro i hi
  exact h i (List.mem_range.mp hi)

theorem slice_add (m : Mem) (a n k : ℕ) : m.slice a (n + k) = m.slice a n ++ m.slice (a + n) k := by
  simp [slice, List.range_add, Function.comp_def, Nat.add_assoc]

/-- A part of a slice. -/
theorem take_drop_slice {k l : ℕ} (h : k + l ≤ n) :
    ((m.slice a n).drop k).take l = m.slice (a + k) l := by
  obtain ⟨j, rfl⟩ := Nat.exists_eq_add_of_le h
  rw [Nat.add_assoc, slice_add, List.drop_left' length_slice, slice_add,
    List.take_left' length_slice]

@[simp] theorem write_nil (m : Mem) (a : ℕ) : m.write a [] = m := by
  funext x
  simp [write]

theorem write_of_lt {x : ℕ} (h : x < a) : m.write a bs x = m x := by
  simp [write, Nat.not_le.mpr h]

theorem write_of_le {x : ℕ} (h : a + bs.length ≤ x) : m.write a bs x = m x := by
  have hnone : bs[x - a]? = none := List.getElem?_eq_none (by omega)
  simp [write, hnone]

theorem write_add {i : ℕ} (h : i < bs.length) : m.write a bs (a + i) = bs[i] := by
  simp [write, h]

/-- The effect of copying `n` bytes from one memory to another. -/
theorem write_slice_apply (m buf : Mem) (a b n x : ℕ) :
    m.write a (buf.slice b n) x = if a ≤ x ∧ x < a + n then buf (b + (x - a)) else m x := by
  unfold write
  rw [getElem?_slice]
  by_cases ha : a ≤ x
  · by_cases hn : x < a + n
    · rw [if_pos ha, if_pos (by omega), if_pos ⟨ha, hn⟩, Option.getD_some]
    · rw [if_pos ha, if_neg (by omega), if_neg (by omega), Option.getD_none]
  · rw [if_neg ha, if_neg (by omega)]

/-- Bytes that are written one part after the other. -/
theorem write_append (m : Mem) (a : ℕ) (bs cs : List UInt8) :
    (m.write a bs).write (a + bs.length) cs = m.write a (bs ++ cs) := by
  funext x
  obtain hx | hx := Nat.lt_or_ge x a
  · rw [write_of_lt (by omega), write_of_lt hx, write_of_lt hx]
  obtain ⟨i, rfl⟩ := Nat.exists_eq_add_of_le hx
  obtain hi | hi := Nat.lt_or_ge i bs.length
  · rw [write_of_lt (by omega), write_add hi, write_add (by simp; omega),
      List.getElem_append_left hi]
  · obtain ⟨j, rfl⟩ := Nat.exists_eq_add_of_le hi
    obtain hj | hj := Nat.lt_or_ge j cs.length
    · rw [← Nat.add_assoc, write_add hj, Nat.add_assoc, write_add (by simp; omega),
        List.getElem_append_right (by omega)]
      simp
    · rw [write_of_le (by omega), write_of_le (by omega), write_of_le (by simp; omega)]

/-- The bytes that were written are read back. -/
@[simp] theorem slice_write_self : (m.write a bs).slice a bs.length = bs := by
  apply List.ext_getElem
  · simp
  · intro i hi _
    simp only [slice, List.getElem_map, List.getElem_range]
    exact write_add (by simpa using hi)

/-- Reads that do not meet the write do not see it. -/
theorem slice_write_of_disjoint (h : b + n ≤ a ∨ a + bs.length ≤ b) :
    (m.write a bs).slice b n = m.slice b n := by
  apply slice_congr
  intro i hi
  rcases h with h | h
  · exact write_of_lt (by omega)
  · exact write_of_le (by omega)

/-- A part of the bytes that were written. -/
theorem slice_write_add {k : ℕ} (h : k + n ≤ bs.length) :
    (m.write a bs).slice (a + k) n = (bs.drop k).take n := by
  apply List.ext_getElem
  · simp only [length_slice, List.length_take, List.length_drop]
    omega
  · intro i hi _
    rw [length_slice] at hi
    simp only [slice, List.getElem_map, List.getElem_range, List.getElem_take, List.getElem_drop]
    rw [Nat.add_assoc]
    exact write_add (by omega)

/-- A number written to the place with number `i` in an array of numbers of `w` bytes. -/
theorem write_leBytes_apply {w : ℕ} (hw : 0 < w) (m : Mem) (i v x : ℕ) :
    m.write (w * i) (leBytes w v) x =
      if x / w = i then UInt8.ofNat (v / 256 ^ (x % w)) else m x := by
  have hx := Nat.div_add_mod x w
  have hmod := Nat.mod_lt x hw
  unfold write
  rw [getElem?_leBytes]
  by_cases hi : x / w = i
  · have hsub : x - w * i = x % w := by rw [← hi]; omega
    rw [if_pos hi, if_pos (by rw [← hi]; omega), hsub, if_pos hmod, Option.getD_some]
  · rw [if_neg hi]
    split_ifs with hle hlt
    · refine absurd ?_ hi
      rw [Nat.div_eq_of_lt_le (by rwa [Nat.mul_comm]) (by rw [Nat.add_mul, Nat.mul_comm i]; omega)]
    · rfl
    · rfl

/-- An array of numbers of `w` bytes. -/
theorem leValue_slice_write_leBytes (w : ℕ) (m : Mem) (i j v : ℕ) :
    leValue ((m.write (w * i) (leBytes w v)).slice (w * j) w) =
      if j = i then v % 256 ^ w else leValue (m.slice (w * j) w) := by
  by_cases hij : j = i
  · subst hij
    have hself := @slice_write_self m (w * j) (leBytes w v)
    rw [length_leBytes] at hself
    rw [if_pos rfl, hself, leValue_leBytes]
  · rw [if_neg hij, slice_write_of_disjoint]
    rw [length_leBytes]
    rcases Nat.lt_or_gt_of_ne hij with h | h
    · exact .inl (by simpa [Nat.mul_add] using Nat.mul_le_mul_left w h)
    · exact .inr (by simpa [Nat.mul_add] using Nat.mul_le_mul_left w h)

/-! ## Bytes at an address -/

/-- The bytes `bs` stand at address `a`. -/
def At (m : Mem) (a : ℕ) (bs : List UInt8) : Prop := m.slice a bs.length = bs

variable {cs : List UInt8}

@[simp] theorem at_nil : m.At a [] := rfl

theorem at_append : m.At a (bs ++ cs) ↔ m.At a bs ∧ m.At (a + bs.length) cs := by
  unfold At
  rw [List.length_append, slice_add]
  constructor
  · intro h
    exact List.append_inj h (by simp)
  · rintro ⟨hb, hc⟩
    rw [hb, hc]

theorem at_write_self : (m.write a bs).At a bs := slice_write_self

theorem At.write_of_disjoint (h : m.At a bs) (hdis : a + bs.length ≤ b ∨ b + cs.length ≤ a) :
    (m.write b cs).At a bs := by
  rw [At, slice_write_of_disjoint hdis, h]

/-- A part of the bytes at an address. -/
theorem At.part {k : ℕ} (h : m.At a bs) (hn : k + n ≤ bs.length) :
    m.At (a + k) ((bs.drop k).take n) := by
  have hsplit : bs = bs.take k ++ ((bs.drop k).take n ++ (bs.drop k).drop n) := by
    rw [List.take_append_drop, List.take_append_drop]
  rw [hsplit, at_append, at_append, List.length_take, Nat.min_eq_left (by omega)] at h
  exact h.2.1

/-- Writing the bytes that stand at an address again. -/
theorem At.write_eq (h : m.At a bs) : m.write a bs = m := by
  funext x
  obtain hx | hx := Nat.lt_or_ge x a
  · exact write_of_lt hx
  obtain hx' | hx' := Nat.lt_or_ge x (a + bs.length)
  · have hget := getElem?_slice (m := m) (a := a) (n := bs.length) (x - a)
    have hslice : m.slice a bs.length = bs := h
    rw [hslice, if_pos (by omega), Nat.add_sub_cancel' hx] at hget
    rw [write, if_pos hx, hget, Option.getD_some]
  · exact write_of_le hx'

/-- The bytes are copied to another place. -/
theorem At.copy {m' : Mem} (h : m.At a bs) (hcopy : ∀ i < bs.length, m' (b + i) = m (a + i)) :
    m'.At b bs := by
  rw [At, slice_congr hcopy, h]

theorem At.apply {i : ℕ} (h : m.At a bs) (hi : i < bs.length) : m (a + i) = bs[i] := by
  have hget := getElem?_slice (m := m) (a := a) (n := bs.length) i
  rw [if_pos hi] at hget
  have hslice : m.slice a bs.length = bs := h
  rw [hslice, List.getElem?_eq_getElem hi] at hget
  exact (Option.some.inj hget).symm

end Mem

end MiniPi.Lib
