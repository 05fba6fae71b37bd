import MiniPi.Env.HashTable
import Mathlib.Data.List.Perm.Basic

/-!
# Sorting

`qsort` of `lib/qsort.c`, a Shell sort.  It puts the elements in another order, whatever the
comparison answers.
-/

namespace MiniPi.Env

/-- `strcmp`: the difference of the first bytes that are not alike, as a `signed char`. -/
def strcmp : Str → Str → ℤ
  | [], [] => 0
  | [], b :: _ => (0 - b).toInt8.toInt
  | a :: _, [] => a.toInt8.toInt
  | a :: s, b :: t => if a = b then strcmp s t else (a - b).toInt8.toInt

variable {α : Type*} (comp : α → α → ℤ)

/-- The innermost loop of `qsort`: the element at `j` goes towards the front in steps of `gap`. -/
def qsortSink (gap : ℕ) : ℕ → ℕ → List α → List α
  | 0, _, l => l
  | n + 1, j, l =>
    match l[j - gap]?, l[j]? with
    | some a, some b =>
      if comp a b ≤ 0 then l
      else
        let l := (l.set (j - gap) b).set j a
        if gap ≤ j - gap then qsortSink gap n (j - gap) l else l
    | _, _ => l

/-- The loop of `qsort` over the elements from `i` on. -/
def qsortPass (gap : ℕ) : ℕ → ℕ → List α → List α
  | 0, _, l => l
  | n + 1, i, l =>
    let l := qsortSink comp gap i i l
    if i + 1 < l.length then qsortPass gap n (i + 1) l else l

/-- The first gap, for at most `n` turns of its loop. -/
def firstGap (nel : ℕ) : ℕ → ℕ → ℕ
  | 0, gap => gap
  | n + 1, gap => if 3 * gap + 1 < (nel - 1) / 3 then firstGap nel n (3 * gap + 1) else 3 * gap + 1

/-- The outermost loop of `qsort`. -/
def qsortGaps : ℕ → ℕ → List α → List α
  | 0, _, l => l
  | n + 1, gap, l =>
    let l := qsortPass comp gap l.length gap l
    if (gap - 1) / 3 = 0 then l else qsortGaps n ((gap - 1) / 3) l

/-- `qsort`. -/
def qsort (l : List α) : List α :=
  if 1 < l.length then qsortGaps comp l.length (firstGap l.length l.length 0) l else l

theorem qsortSink_perm (gap n j : ℕ) (l : List α) : (qsortSink comp gap n j l).Perm l := by
  induction n generalizing j l with
  | zero => exact .refl l
  | succ n ih =>
    rw [qsortSink]
    split
    · rename_i a b ha hb
      obtain ⟨hi, rfl⟩ := List.getElem?_eq_some_iff.1 ha
      obtain ⟨hj, rfl⟩ := List.getElem?_eq_some_iff.1 hb
      have hswap : ((l.set (j - gap) l[j]).set j l[j - gap]).Perm l := List.set_set_perm hi hj
      split
      · exact .refl l
      · dsimp only
        split
        · exact (ih _ _).trans hswap
        · exact hswap
    · exact .refl l

theorem qsortPass_perm (gap n i : ℕ) (l : List α) : (qsortPass comp gap n i l).Perm l := by
  induction n generalizing i l with
  | zero => exact .refl l
  | succ n ih =>
    rw [qsortPass]
    split
    · exact (ih _ _).trans (qsortSink_perm comp gap i i l)
    · exact qsortSink_perm comp gap i i l

theorem qsortGaps_perm (n gap : ℕ) (l : List α) : (qsortGaps comp n gap l).Perm l := by
  induction n generalizing gap l with
  | zero => exact .refl l
  | succ n ih =>
    rw [qsortGaps]
    split
    · exact qsortPass_perm comp gap _ gap l
    · exact (ih _ _).trans (qsortPass_perm comp gap _ gap l)

/-- `qsort` keeps the elements. -/
theorem qsort_perm (l : List α) : (qsort comp l).Perm l := by
  unfold qsort
  split
  · exact qsortGaps_perm comp _ _ l
  · exact .refl l

end MiniPi.Env
