import Mathlib.Data.Set.Insert
import MiniPi.Net.Holes

/-!
# Fragments of a payload

A payload is cut at multiples of 8 bytes.  The fragments that have not arrived form gaps, ranges of
fragment numbers, and each gap is a hole of the buffer.
-/

namespace MiniPi.Net

open Lib

/-- A payload of `n` bytes is cut into `count` fragments; fragment `j` goes from `cut j` to
`cut (j + 1)`. -/
structure Cuts (n : ℕ) where
  count : ℕ
  cut : ℕ → ℕ
  two_le : 2 ≤ count
  cut_zero : cut 0 = 0
  cut_count : cut count = n
  lt : ∀ j < count, cut j < cut (j + 1)
  dvd : ∀ j < count, 8 ∣ cut j

namespace Cuts

variable {n : ℕ} (s : Cuts n)

theorem cut_lt {i j : ℕ} (hij : i < j) (hj : j ≤ s.count) : s.cut i < s.cut j := by
  induction j with
  | zero => omega
  | succ j ih =>
      have hlt := s.lt j (by omega)
      obtain hij | rfl := Nat.lt_succ_iff_lt_or_eq.1 hij
      · exact (ih hij (by omega)).trans hlt
      · exact hlt

theorem cut_le {i j : ℕ} (hij : i ≤ j) (hj : j ≤ s.count) : s.cut i ≤ s.cut j := by
  obtain hlt | rfl := Nat.lt_or_eq_of_le hij
  · exact (s.cut_lt hlt hj).le
  · exact le_rfl

theorem cut_le_length {j : ℕ} (hj : j ≤ s.count) : s.cut j ≤ n :=
  (s.cut_le hj le_rfl).trans_eq s.cut_count

/-- The block where a fragment starts. -/
def block (j : ℕ) : ℕ := s.cut j / 8

theorem eight_mul_block {j : ℕ} (hj : j < s.count) : 8 * s.block j = s.cut j :=
  Nat.mul_div_cancel' (s.dvd j hj)

theorem block_lt_iff {i j : ℕ} (hi : i < s.count) (hj : j < s.count) :
    s.block i < s.block j ↔ i < j := by
  have hi' := s.eight_mul_block hi
  have hj' := s.eight_mul_block hj
  constructor
  · intro h
    by_contra hij
    have := s.cut_le (Nat.le_of_not_lt hij) hi.le
    omega
  · intro h
    have := s.cut_lt h hj.le
    omega

theorem block_le_iff {i j : ℕ} (hi : i < s.count) (hj : j < s.count) :
    s.block i ≤ s.block j ↔ i ≤ j := by
  rw [← not_lt, s.block_lt_iff hj hi, not_lt]

theorem block_eq_zero {j : ℕ} (hj : j < s.count) (h : s.block j = 0) : j = 0 := by
  have h' := s.eight_mul_block hj
  obtain rfl | hpos := j.eq_zero_or_pos
  · rfl
  · have := s.cut_lt hpos hj.le
    rw [s.cut_zero] at this
    omega

/-- The hole of a gap: the last gap has no end before the last fragment has arrived. -/
def hole (g : ℕ × ℕ) : Hole := (s.block g.1, if g.2 = s.count then 65535 else s.cut g.2)

@[simp] theorem hole_fst (g : ℕ × ℕ) : (s.hole g).1 = s.block g.1 := rfl

/-- Where a hole ends, compared with the start of a fragment. -/
theorem cut_le_hole_iff (hn : n ≤ ipMaxUdp) {f : ℕ} {g : ℕ × ℕ} (hf : f < s.count)
    (hg : g.2 ≤ s.count) : s.cut f ≤ (s.hole g).2 ↔ f ≤ g.2 := by
  have hn : n ≤ 16364 := hn
  have hle := s.cut_le_length hf.le
  unfold hole
  dsimp only
  split
  next h => exact iff_of_true (by omega) (by omega)
  next h =>
    refine ⟨fun hcut ↦ ?_, fun hfg ↦ s.cut_le hfg hg⟩
    by_contra hlt
    have := s.cut_lt (Nat.lt_of_not_le hlt) hf.le
    omega

/-- Where a hole ends, compared with the end of a fragment that is not the last one. -/
theorem hole_le_cut_iff (hn : n ≤ ipMaxUdp) {f : ℕ} {g : ℕ × ℕ} (hf : f + 1 < s.count)
    (hg : g.2 ≤ s.count) : (s.hole g).2 ≤ s.cut (f + 1) ↔ g.2 ≤ f + 1 := by
  have hn : n ≤ 16364 := hn
  have hle := s.cut_le_length hf.le
  unfold hole
  dsimp only
  split
  next h => exact iff_of_false (by omega) (by omega)
  next h =>
    refine ⟨fun hcut ↦ ?_, fun hgf ↦ s.cut_le hgf hf.le⟩
    by_contra hlt
    have := s.cut_lt (Nat.lt_of_not_le hlt) hg
    omega

/-- A fragment outside of a gap does not meet the descriptor of the gap. -/
theorem disjoint_block {g : ℕ × ℕ} {j : ℕ} (hg : g.1 < g.2) (hg' : g.2 ≤ s.count)
    (hj : j < s.count) (hout : ¬ (g.1 ≤ j ∧ j < g.2)) :
    s.cut (j + 1) ≤ 8 * s.block g.1 ∨ 8 * s.block g.1 + 8 ≤ s.cut j := by
  have hblock := s.eight_mul_block (j := g.1) (by omega)
  obtain hlt | hge := Nat.lt_or_ge j g.1
  · have := s.cut_le (i := j + 1) (j := g.1) hlt (by omega)
    omega
  · have hlt := s.cut_lt hg hg'
    have hle := s.cut_le (i := g.2) (j := j) (by omega) hj.le
    have := s.eight_mul_block (j := g.2) (by omega)
    omega

end Cuts

/-! ## Gaps -/

/-- The gaps that are left when the fragments of `R` have arrived. -/
structure Gaps (count : ℕ) (R : Set ℕ) (gs : List (ℕ × ℕ)) : Prop where
  lt : ∀ g ∈ gs, g.1 < g.2
  le : ∀ g ∈ gs, g.2 ≤ count
  sorted : gs.Pairwise fun g g' ↦ g.2 < g'.1
  mem : ∀ j < count, j ∉ R ↔ ∃ g ∈ gs, g.1 ≤ j ∧ j < g.2

namespace Gaps

variable {count f : ℕ} {R : Set ℕ} {gs pre post mid : List (ℕ × ℕ)} {g : ℕ × ℕ}

theorem sorted_cut (h : Gaps count R (pre ++ g :: post)) :
    (∀ y ∈ pre, y.2 < g.1) ∧ (∀ z ∈ post, g.2 < z.1) ∧ (∀ y ∈ pre, ∀ z ∈ post, y.2 < z.1) ∧
      pre.Pairwise (fun g g' ↦ g.2 < g'.1) ∧ post.Pairwise fun g g' ↦ g.2 < g'.1 := by
  have hs := h.sorted
  rw [List.pairwise_append, List.pairwise_cons] at hs
  obtain ⟨hpre, ⟨hg, hpost⟩, hcross⟩ := hs
  exact ⟨fun y hy ↦ hcross y hy g (by simp), hg, fun y hy z hz ↦ hcross y hy z (by simp [hz]), hpre,
    hpost⟩

/-- A fragment that the gap `g` could hold has arrived if and only if it is not in `g`. -/
theorem mem_iff (h : Gaps count R (pre ++ g :: post)) (hf : f < count) (hlo : ∀ y ∈ pre, y.2 ≤ f)
    (hhi : f ≤ g.2) : f ∉ R ↔ g.1 ≤ f ∧ f < g.2 := by
  rw [h.mem f hf]
  constructor
  · rintro ⟨g', hg', hle, hlt⟩
    obtain hg' | rfl | hg' : g' ∈ pre ∨ g' = g ∨ g' ∈ post := by simpa using hg'
    · have := hlo g' hg'
      omega
    · exact ⟨hle, hlt⟩
    · have := h.sorted_cut.2.1 g' hg'
      omega
  · exact fun hg ↦ ⟨g, by simp, hg⟩

theorem insert_of_mem (h : Gaps count R gs) (hf : f ∈ R) : Gaps count (insert f R) gs := by
  rwa [Set.insert_eq_of_mem hf]

/-- A fragment arrives and its gap is replaced by what is left of it. -/
theorem replace (h : Gaps count R (pre ++ g :: post))
    (hlt : ∀ y ∈ mid, y.1 < y.2) (hin : ∀ y ∈ mid, g.1 ≤ y.1 ∧ y.2 ≤ g.2)
    (hsorted : mid.Pairwise fun g g' ↦ g.2 < g'.1)
    (hmem : ∀ j, (∃ y ∈ mid, y.1 ≤ j ∧ j < y.2) ↔ g.1 ≤ j ∧ j < g.2 ∧ j ≠ f)
    (hfg : g.1 ≤ f ∧ f < g.2) : Gaps count (insert f R) (pre ++ (mid ++ post)) := by
  obtain ⟨hpre, hpost, hcross, hsort, hsort'⟩ := h.sorted_cut
  have hg := h.le g (by simp)
  refine ⟨?_, ?_, ?_, ?_⟩
  · intro y hy
    simp only [List.mem_append] at hy
    obtain hy | hy | hy := hy
    · exact h.lt y (by simp [hy])
    · exact hlt y hy
    · exact h.lt y (by simp [hy])
  · intro y hy
    simp only [List.mem_append] at hy
    obtain hy | hy | hy := hy
    · exact h.le y (by simp [hy])
    · exact (hin y hy).2.trans hg
    · exact h.le y (by simp [hy])
  · rw [List.pairwise_append, List.pairwise_append]
    refine ⟨hsort, ⟨hsorted, hsort', fun y hy z hz ↦ ?_⟩, fun y hy z hz ↦ ?_⟩
    · exact lt_of_le_of_lt (hin y hy).2 (hpost z hz)
    · obtain hz | hz := List.mem_append.1 hz
      · exact lt_of_lt_of_le (hpre y hy) (hin z hz).1
      · exact hcross y hy z hz
  · intro j hj
    rw [Set.mem_insert_iff, not_or, h.mem j hj]
    simp only [List.mem_append, List.mem_cons, or_and_right, exists_or, exists_eq_left, hmem]
    constructor
    · rintro ⟨hne, hin | hin | hin⟩
      · exact .inl hin
      · exact .inr (.inl ⟨hin.1, hin.2, hne⟩)
      · exact .inr (.inr hin)
    · rintro (⟨y, hy, hin⟩ | hin | ⟨z, hz, hin⟩)
      · have := hpre y hy
        exact ⟨by omega, .inl ⟨y, hy, hin⟩⟩
      · exact ⟨hin.2.2, .inr (.inl ⟨hin.1, hin.2.1⟩)⟩
      · have := hpost z hz
        exact ⟨by omega, .inr (.inr ⟨z, hz, hin⟩)⟩

theorem complete_iff (h : Gaps count R gs) : (∀ j < count, j ∈ R) ↔ gs = [] := by
  constructor
  · intro hall
    by_contra hne
    obtain ⟨g, gs, rfl⟩ := List.exists_cons_of_ne_nil hne
    have hlt := h.lt g (by simp)
    have hle := h.le g (by simp)
    exact (h.mem g.1 (by omega)).2 ⟨g, by simp, le_rfl, hlt⟩ (hall g.1 (by omega))
  · rintro rfl j hj
    by_contra hmem
    simpa using (h.mem j hj).1 hmem

/-- If only `f` is missing, it is the only gap. -/
theorem eq_singleton (h : Gaps count R gs) (hne : gs ≠ []) (hall : ∀ j < count, j ∈ insert f R) :
    ∃ g, gs = [g] ∧ g.1 = f ∧ g.2 = f + 1 := by
  have hmissing : ∀ g ∈ gs, ∀ j, g.1 ≤ j → j < g.2 → j = f := by
    intro g hg j hle hlt
    have hj : j < count := lt_of_lt_of_le hlt (h.le g hg)
    exact (Set.mem_insert_iff.1 (hall j hj)).resolve_right ((h.mem j hj).2 ⟨g, hg, hle, hlt⟩)
  obtain ⟨g, gs, rfl⟩ := List.exists_cons_of_ne_nil hne
  have hlt := h.lt g (by simp)
  have hfirst := hmissing g (by simp) g.1 le_rfl hlt
  have hlast := hmissing g (by simp) (g.2 - 1) (by omega) (by omega)
  refine ⟨g, ?_, hfirst, by omega⟩
  cases gs with
  | nil => rfl
  | cons g' gs =>
      have hlt' := h.lt g' (by simp)
      have hfirst' := hmissing g' (by simp) g'.1 le_rfl hlt'
      have := (List.pairwise_cons.1 h.sorted).1 g' (by simp)
      omega

end Gaps

end MiniPi.Net
