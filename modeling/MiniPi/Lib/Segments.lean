import Mathlib

/-!
# Tables of half-open segments

A table lists values that each occupy a half-open segment `[lo a, hi a)` of the
natural numbers.  `Sorted` says that no segment is empty and that each one ends
before the next begins; `cover` is the set of numbers the table occupies.  The
lemmas say how both behave when one place of a table is rewritten, which is all
that a routine editing the table in place ever does.
-/

universe u

namespace MiniPi.Lib.Segments

variable {α : Type u} (lo hi : α → ℕ)

/-- No segment is empty, and each one ends at or before the start of any later
one. -/
structure Sorted (l : List α) : Prop where
  pos : ∀ a ∈ l, lo a < hi a
  apart : l.Pairwise fun a b ↦ hi a ≤ lo b

/-- The numbers that some segment of the table contains. -/
def cover (l : List α) : Set ℕ := {x | ∃ a ∈ l, lo a ≤ x ∧ x < hi a}

variable {lo hi}

@[simp] theorem cover_nil : cover lo hi [] = ∅ := by
  ext x; simp [cover]

@[simp] theorem cover_cons (a : α) (l : List α) :
    cover lo hi (a :: l) = Set.Ico (lo a) (hi a) ∪ cover lo hi l := by
  ext x; simp [cover]

@[simp] theorem cover_append (l l' : List α) :
    cover lo hi (l ++ l') = cover lo hi l ∪ cover lo hi l' := by
  ext x; simp [cover, or_and_right, exists_or]

theorem sorted_nil : Sorted lo hi ([] : List α) :=
  ⟨fun _ h ↦ absurd h List.not_mem_nil, .nil⟩

theorem sorted_cons {a : α} {l : List α} :
    Sorted lo hi (a :: l) ↔ lo a < hi a ∧ (∀ b ∈ l, hi a ≤ lo b) ∧ Sorted lo hi l := by
  constructor
  · rintro ⟨hpos, hap⟩
    obtain ⟨h₁, h₂⟩ := List.pairwise_cons.mp hap
    exact ⟨hpos a List.mem_cons_self, h₁, fun b hb ↦ hpos b (List.mem_cons_of_mem _ hb), h₂⟩
  · rintro ⟨h, h₁, hpos, h₂⟩
    exact ⟨List.forall_mem_cons.mpr ⟨h, hpos⟩, List.pairwise_cons.mpr ⟨h₁, h₂⟩⟩

theorem sorted_append {l l' : List α} :
    Sorted lo hi (l ++ l') ↔
      Sorted lo hi l ∧ Sorted lo hi l' ∧ ∀ a ∈ l, ∀ b ∈ l', hi a ≤ lo b := by
  constructor
  · rintro ⟨hpos, hap⟩
    obtain ⟨h₁, h₂, h₃⟩ := List.pairwise_append.mp hap
    exact ⟨⟨fun a ha ↦ hpos a (List.mem_append_left _ ha), h₁⟩,
      ⟨fun a ha ↦ hpos a (List.mem_append_right _ ha), h₂⟩, h₃⟩
  · rintro ⟨⟨hp, h₁⟩, ⟨hp', h₂⟩, h₃⟩
    refine ⟨fun a ha ↦ ?_, List.pairwise_append.mpr ⟨h₁, h₂, h₃⟩⟩
    exact (List.mem_append.mp ha).elim (hp a) (hp' a)

/-- A table split at one of its places: what lies left of it, what lies right of
it, and that the two sides stay apart. -/
theorem sorted_middle {l l' : List α} {a : α} :
    Sorted lo hi (l ++ a :: l') ↔
      Sorted lo hi l ∧ Sorted lo hi l' ∧ lo a < hi a ∧ (∀ b ∈ l, hi b ≤ lo a) ∧
        (∀ b ∈ l', hi a ≤ lo b) ∧ ∀ b ∈ l, ∀ c ∈ l', hi b ≤ lo c := by
  rw [sorted_append, sorted_cons]
  constructor
  · rintro ⟨h₁, ⟨h₂, h₃, h₄⟩, h₅⟩
    exact ⟨h₁, h₄, h₂, fun b hb ↦ h₅ b hb a List.mem_cons_self, h₃,
      fun b hb c hc ↦ h₅ b hb c (List.mem_cons_of_mem _ hc)⟩
  · rintro ⟨h₁, h₄, h₂, h₅, h₃, h₆⟩
    refine ⟨h₁, ⟨h₂, h₃, h₄⟩, fun b hb c hc ↦ ?_⟩
    rcases List.mem_cons.mp hc with rfl | hc
    · exact h₅ b hb
    · exact h₆ b hb c hc

/-- Rewriting one place keeps the table sorted when the new segment still fits
between the two sides. -/
theorem Sorted.replace {l l' : List α} {a b : α} (h : Sorted lo hi (l ++ a :: l'))
    (hb : lo b < hi b) (hl : ∀ c ∈ l, hi c ≤ lo b) (hr : ∀ c ∈ l', hi b ≤ lo c) :
    Sorted lo hi (l ++ b :: l') := by
  obtain ⟨h₁, h₂, -, -, -, h₆⟩ := sorted_middle.mp h
  exact sorted_middle.mpr ⟨h₁, h₂, hb, hl, hr, h₆⟩

/-- Dropping one place keeps the table sorted. -/
theorem Sorted.erase {l l' : List α} {a : α} (h : Sorted lo hi (l ++ a :: l')) :
    Sorted lo hi (l ++ l') := by
  obtain ⟨h₁, h₂, -, -, -, h₆⟩ := sorted_middle.mp h
  exact sorted_append.mpr ⟨h₁, h₂, h₆⟩

/-- Adding a place keeps the table sorted when its segment fits between the two
sides. -/
theorem Sorted.insert {l l' : List α} {b : α} (h : Sorted lo hi (l ++ l'))
    (hb : lo b < hi b) (hl : ∀ c ∈ l, hi c ≤ lo b) (hr : ∀ c ∈ l', hi b ≤ lo c) :
    Sorted lo hi (l ++ b :: l') := by
  obtain ⟨h₁, h₂, h₃⟩ := sorted_append.mp h
  exact sorted_middle.mpr ⟨h₁, h₂, hb, hl, hr, h₃⟩

/-- A sorted table lists its segments in strictly increasing order of start. -/
theorem Sorted.pairwise_lo_lt {l : List α} (h : Sorted lo hi l) :
    l.Pairwise fun a b ↦ lo a < lo b := by
  induction l with
  | nil => exact .nil
  | cons a l ih =>
      obtain ⟨hpos, hap, hl⟩ := sorted_cons.mp h
      exact List.pairwise_cons.mpr ⟨fun b hb ↦ lt_of_lt_of_le hpos (hap b hb), ih hl⟩

/-- The segments of a sorted table are pairwise disjoint. -/
theorem Sorted.pairwise_disjoint {l : List α} (h : Sorted lo hi l) :
    l.Pairwise fun a b ↦ Disjoint (Set.Ico (lo a) (hi a)) (Set.Ico (lo b) (hi b)) := by
  refine h.apart.imp fun hab ↦ Set.disjoint_left.mpr fun x hx hx' ↦ ?_
  exact absurd (lt_of_lt_of_le hx.2 (hab.trans hx'.1)) (lt_irrefl x)

end MiniPi.Lib.Segments
