import MiniPi.Lib.Mem
import Mathlib.Data.List.GetD
import Mathlib.Tactic.Push

/-!
# Blocks of bytes in memory

Data that is written to blocks of one size, in the order of a list of their addresses.
-/

namespace MiniPi.Lib.Mem

/-- The bytes `data` are written into the blocks of `n` bytes at `us`. -/
def lay (n : ℕ) : List ℕ → List UInt8 → Mem → Mem
  | [], _, m => m
  | s :: us, data, m => lay n us (data.drop n) (m.write s (data.take n))

/-- The bytes of the blocks. -/
def blocks (m : Mem) (n : ℕ) (us : List ℕ) : List UInt8 := us.flatMap fun s ↦ m.slice s n

/-- The address of byte `i` of the blocks. -/
def place (n : ℕ) (us : List ℕ) (i : ℕ) : ℕ := us.getD (i / n) 0 + i % n

variable {m : Mem} {n s : ℕ} {us : List ℕ} {data : List UInt8}

theorem length_blocks : (blocks m n us).length = us.length * n := by
  induction us with
  | nil => simp [blocks]
  | cons s us ih =>
      change (m.slice s n ++ blocks m n us).length = _
      rw [List.length_append, ih, Mem.length_slice, List.length_cons]
      ring

theorem lay_frame {p : ℕ} (hp : ∀ s ∈ us, p < s ∨ s + n ≤ p) : lay n us data m p = m p := by
  induction us generalizing data m with
  | nil => rfl
  | cons s us ih =>
      obtain ⟨hs, hus⟩ := List.forall_mem_cons.1 hp
      rw [lay, ih hus]
      rcases hs with hs | hs
      · exact Mem.write_of_lt hs
      · exact Mem.write_of_le (by simp; omega)

/-- The blocks hold what was written. -/
theorem blocks_lay (hapart : us.Pairwise fun s t ↦ s + n ≤ t) (hlen : data.length = us.length * n) :
    blocks (lay n us data m) n us = data := by
  induction us generalizing data m with
  | nil => exact (List.length_eq_zero_iff.1 (by simpa using hlen)).symm
  | cons s us ih =>
      obtain ⟨hs, hus⟩ := List.pairwise_cons.1 hapart
      rw [List.length_cons, Nat.succ_mul] at hlen
      have htake : (data.take n).length = n := by
        rw [List.length_take]
        omega
      have hslice : (lay n (s :: us) data m).slice s n = data.take n := by
        have hself := @Mem.slice_write_self m s (data.take n)
        rw [htake] at hself
        change (lay n us (data.drop n) (m.write s (data.take n))).slice s n = _
        refine (Mem.slice_congr fun i hi ↦ lay_frame fun t ht ↦ .inl ?_).trans hself
        have hle := hs t ht
        omega
      change (lay n (s :: us) data m).slice s n ++ blocks (lay n (s :: us) data m) n us = data
      rw [hslice, lay, ih hus (by rw [List.length_drop]; omega), List.take_append_drop]

theorem getElem?_blocks {i : ℕ} (hi : i < us.length * n) :
    (blocks m n us)[i]? = some (m (place n us i)) := by
  induction us generalizing i with
  | nil => simp at hi
  | cons s us ih =>
      rw [List.length_cons, Nat.succ_mul] at hi
      change (m.slice s n ++ blocks m n us)[i]? = _
      obtain hin | hin := Nat.lt_or_ge i n
      · rw [List.getElem?_append_left (by rw [length_slice]; exact hin), getElem?_slice,
          if_pos hin, place, Nat.div_eq_of_lt hin, Nat.mod_eq_of_lt hin]
        rfl
      · obtain ⟨i, rfl⟩ := Nat.exists_eq_add_of_le hin
        have hn : 0 < n := Nat.pos_of_ne_zero fun h ↦ by simp [h] at hi
        rw [List.getElem?_append_right (by rw [length_slice]; exact hin), length_slice,
          Nat.add_sub_cancel_left, ih (by omega), place, place, Nat.add_div_left _ hn,
          Nat.add_mod_left]
        rfl

theorem place_eq {k i : ℕ} (hk : k < us.length) (hi : i < n) :
    place n us (k * n + i) = us[k] + i := by
  rw [place, Nat.mul_comm, Nat.mul_add_div (by omega), Nat.div_eq_of_lt hi, Nat.mul_add_mod,
    Nat.mod_eq_of_lt hi, Nat.add_zero, List.getD_eq_getElem _ _ hk]

theorem place_lt (hapart : us.Pairwise fun s t ↦ s + n ≤ t) {i j : ℕ} (hij : i < j)
    (hj : j < us.length * n) :
    place n us i < place n us j := by
  have hn : 0 < n := Nat.pos_of_ne_zero fun h ↦ by simp [h] at hj
  have hdj : j / n < us.length := (Nat.div_lt_iff_lt_mul hn).2 hj
  have hle : i / n ≤ j / n := Nat.div_le_div_right hij.le
  have hi := Nat.mod_lt i hn
  rw [place, place, List.getD_eq_getElem _ _ hdj, List.getD_eq_getElem _ _ (hle.trans_lt hdj)]
  obtain hlt | heq := hle.lt_or_eq
  · have hst := List.pairwise_iff_getElem.1 hapart _ _ (hle.trans_lt hdj) hdj hlt
    omega
  · have hdi := Nat.div_add_mod i n
    have hdj := Nat.div_add_mod j n
    simp only [heq] at hdi ⊢
    omega

/-- The data stand at their places. -/
theorem lay_place (hapart : us.Pairwise fun s t ↦ s + n ≤ t)
    (hlen : data.length = us.length * n) {i : ℕ} (hi : i < data.length) :
    lay n us data m (place n us i) = data[i] := by
  have hget := @getElem?_blocks (lay n us data m) n us i (hlen ▸ hi)
  rw [blocks_lay hapart hlen, List.getElem?_eq_getElem hi] at hget
  exact (Option.some.inj hget).symm

/-- The bytes behind the data stay, and those outside of the blocks. -/
theorem lay_apply (hapart : us.Pairwise fun s t ↦ s + n ≤ t)
    (hlen : data.length ≤ us.length * n) {p : ℕ} (hp : ∀ i < data.length, place n us i ≠ p) :
    lay n us (data ++ (blocks m n us).drop data.length) m p = m p := by
  have hlength : (data ++ (blocks m n us).drop data.length).length = us.length * n := by
    rw [List.length_append, List.length_drop, length_blocks]
    omega
  by_cases hframe : ∀ s ∈ us, p < s ∨ s + n ≤ p
  · exact lay_frame hframe
  · push Not at hframe
    obtain ⟨s, hs, hle, hlt⟩ := hframe
    obtain ⟨k, hk, rfl⟩ := List.getElem_of_mem hs
    obtain ⟨i, rfl⟩ := Nat.exists_eq_add_of_le hle
    have hplace : place n us (k * n + i) = us[k] + i := place_eq hk (by omega)
    have hge : data.length ≤ k * n + i := by
      by_contra hlt
      exact hp _ (by omega) hplace
    have hin : k * n + i < us.length * n := by
      have hmul := Nat.mul_le_mul_right n (Nat.succ_le_of_lt hk)
      rw [Nat.succ_mul] at hmul
      omega
    have hnew := @lay_place m n us (data ++ (blocks m n us).drop data.length) hapart hlength
      (k * n + i)
      (by rw [hlength]; exact hin)
    have hold := @getElem?_blocks m n us (k * n + i) hin
    rw [hplace] at hnew hold
    rw [hnew, ← Option.some.injEq, ← List.getElem?_eq_getElem, List.getElem?_append_right hge,
      List.getElem?_drop, Nat.add_sub_cancel' hge, hold]

theorem take_blocks {k : ℕ} :
    (blocks m n (s :: us)).take k = m.slice s (min n k) ++ (blocks m n us).take (k - min n k) := by
  change (m.slice s n ++ blocks m n us).take k = _
  rw [List.take_append, Mem.length_slice]
  have htake : (m.slice s n).take k = m.slice s (min n k) := by
    have h := Mem.take_drop_slice (m := m) (a := s) (n := n) (k := 0) (l := min n k) (by omega)
    rw [List.drop_zero, Nat.add_zero] at h
    rw [← h]
    obtain hk | hk := Nat.le_total n k
    · rw [min_eq_left hk, List.take_of_length_le (by rw [Mem.length_slice]; exact hk),
        List.take_of_length_le (by rw [Mem.length_slice])]
    · rw [min_eq_right hk]
  have hsub : k - n = k - min n k := by omega
  rw [htake, hsub]

end MiniPi.Lib.Mem
