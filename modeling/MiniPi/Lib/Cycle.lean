import Mathlib.Data.ZMod.Basic

/-!
# Walking down a cycle

The numbers `1, …, p` form a cycle.  `stepDown p s` moves `s` places down it, and
`walk p s i n` is the place reached from `i` after `n` moves.  When `p` and `s` are
coprime the first `p` places of a walk are all the places there are, each once.
-/

namespace MiniPi.Lib.Cycle

/-- `s` places down on the cycle `1, …, p`. -/
def stepDown (p s i : ℕ) : ℕ := if i ≤ s then p + i - s else i - s

/-- The place reached from `i` after `n` moves. -/
def walk (p s i : ℕ) : ℕ → ℕ
  | 0 => i
  | n + 1 => stepDown p s (walk p s i n)

/-- The places of the cycle. -/
def Place (p i : ℕ) : Prop := 1 ≤ i ∧ i ≤ p

variable {p s i : ℕ}

theorem place_stepDown (hs : s < p) (hi : Place p i) : Place p (stepDown p s i) := by
  obtain ⟨h₁, h₂⟩ := hi
  unfold stepDown
  split_ifs with h
  · constructor <;> omega
  · constructor <;> omega

theorem place_walk (hs : s < p) (hi : Place p i) (n : ℕ) : Place p (walk p s i n) := by
  induction n with
  | zero => exact hi
  | succ n ih => exact place_stepDown hs ih

theorem cast_stepDown (hs : s < p) : ((stepDown p s i : ℕ) : ZMod p) = i - s := by
  unfold stepDown
  split_ifs with h
  · rw [Nat.cast_sub (by omega), Nat.cast_add, ZMod.natCast_self, zero_add]
  · rw [Nat.cast_sub (by omega)]

theorem cast_walk (hs : s < p) (n : ℕ) :
    ((walk p s i n : ℕ) : ZMod p) = i - n * s := by
  induction n with
  | zero => simp [walk]
  | succ n ih =>
      rw [walk, cast_stepDown hs, ih]
      rw [Nat.cast_succ, add_mul, one_mul, sub_sub]

/-- Two places that agree modulo `p` are the same. -/
theorem Place.eq_of_cast {j : ℕ} (hi : Place p i) (hj : Place p j)
    (h : (i : ZMod p) = j) : i = j := by
  obtain ⟨hi₁, hi₂⟩ := hi
  obtain ⟨hj₁, hj₂⟩ := hj
  rw [ZMod.natCast_eq_natCast_iff] at h
  have h' : i - 1 ≡ j - 1 [MOD p] := by
    refine Nat.ModEq.add_right_cancel' 1 ?_
    rwa [Nat.sub_add_cancel hi₁, Nat.sub_add_cancel hj₁]
  have := Nat.ModEq.eq_of_lt_of_lt h' (by omega) (by omega)
  omega

section Coprime

variable (hc : s.Coprime p) (hs : s < p)
include hc hs

/-- A walk does not meet a place twice within `p` moves. -/
theorem walk_injOn {m n : ℕ} (hm : m < p) (hn : n < p) (h : walk p s i m = walk p s i n) :
    m = n := by
  have hcast : ((m * s : ℕ) : ZMod p) = ((n * s : ℕ) : ZMod p) := by
    have h' := congrArg (Nat.cast (R := ZMod p)) h
    rw [cast_walk hs, cast_walk hs] at h'
    push_cast
    exact sub_right_inj.mp h'
  rw [ZMod.natCast_eq_natCast_iff] at hcast
  have := Nat.ModEq.cancel_right_of_coprime (hc.symm) hcast
  exact this.eq_of_lt_of_lt hm hn

variable (hi : Place p i)
include hi

/-- A walk meets every place within `p` moves. -/
theorem exists_walk_eq {j : ℕ} (hj : Place p j) : ∃ n < p, walk p s i n = j := by
  have hp : 0 < p := by omega
  let places := (Finset.range p).image (walk p s i)
  have hsub : places ⊆ Finset.Icc 1 p := by
    intro x hx
    obtain ⟨n, -, rfl⟩ := Finset.mem_image.mp hx
    exact Finset.mem_Icc.mpr (place_walk hs hi n)
  have hcard : places.card = (Finset.Icc 1 p).card := by
    rw [Finset.card_image_of_injOn, Finset.card_range, Nat.card_Icc, Nat.add_sub_cancel]
    intro m hm n hn h
    exact walk_injOn hc hs (Finset.mem_range.mp hm) (Finset.mem_range.mp hn) h
  have hall : places = Finset.Icc 1 p := Finset.eq_of_subset_of_card_le hsub hcard.ge
  have hmem : j ∈ places := hall ▸ Finset.mem_Icc.mpr hj
  obtain ⟨n, hn, h⟩ := Finset.mem_image.mp hmem
  exact ⟨n, Finset.mem_range.mp hn, h⟩

/-- A walk is back at its start after `p` moves, and not before. -/
theorem walk_eq_start_iff {n : ℕ} (h₀ : 0 < n) (hn : n ≤ p) : walk p s i n = i ↔ n = p := by
  constructor
  · intro h
    by_contra hne
    have := walk_injOn hc hs (m := n) (n := 0) (by omega) (by omega) h
    omega
  · rintro rfl
    refine (place_walk hs hi n).eq_of_cast hi ?_
    rw [cast_walk hs, ZMod.natCast_self, zero_mul, sub_zero]

end Coprime

end MiniPi.Lib.Cycle
