import Mathlib.Data.List.Basic
import Mathlib.Data.List.Nodup

/-!
# Doubly linked lists

Nodes are linked by two functions, `next` and `prev`.  `Seg next prev a xs b` says that the nodes
`xs` are linked in their order, that the first of them points back to `a` and that the last of them
points on to `b`.  A list is changed by cutting it into segments and by giving the nodes at the
ends of the segments new links.
-/

universe u

namespace MiniPi.Lib

variable {ι : Type u} {next prev next' prev' : ι → ι} {a a' b b' : ι} {xs ys : List ι}

/-- The nodes `xs` are linked; `a` comes before them and `b` after them. -/
def Seg (next prev : ι → ι) : ι → List ι → ι → Prop
  | _, [], _ => True
  | a, x :: xs, b => prev x = a ∧ next x = xs.head?.getD b ∧ Seg next prev x xs b

namespace Seg

theorem append_iff :
    Seg next prev a (xs ++ ys) b ↔
      Seg next prev a xs (ys.head?.getD b) ∧ Seg next prev (xs.getLast?.getD a) ys b := by
  induction xs generalizing a with
  | nil => simp [Seg]
  | cons x xs ih =>
      rw [List.cons_append, Seg, Seg, ih, List.getLast?_cons, Option.getD_some]
      cases xs <;> simp [and_assoc]

/-- The links of other nodes do not matter. -/
theorem congr (h : Seg next prev a xs b) (hnext : ∀ x ∈ xs, next' x = next x)
    (hprev : ∀ x ∈ xs, prev' x = prev x) : Seg next' prev' a xs b := by
  induction xs generalizing a with
  | nil => trivial
  | cons x xs ih =>
      obtain ⟨hp, hn, h⟩ := h
      refine ⟨(hprev x (by simp)).trans hp, (hnext x (by simp)).trans hn, ?_⟩
      exact ih h (fun y hy ↦ hnext y (by simp [hy])) fun y hy ↦ hprev y (by simp [hy])

theorem next_getLast {x : ι} (h : Seg next prev a xs b) (hx : xs.getLast? = some x) :
    next x = b := by
  obtain ⟨ys, rfl⟩ := List.getLast?_eq_some_iff.1 hx
  exact (append_iff.1 h).2.2.1

/-- The last node gets another successor. -/
theorem concat {x : ι} (h : Seg next prev a (xs ++ [x]) b) (hlast : next' x = b')
    (hnext : ∀ y ∈ xs, next' y = next y) (hprev : ∀ y ∈ xs ++ [x], prev' y = prev y) :
    Seg next' prev' a (xs ++ [x]) b' := by
  obtain ⟨hxs, hp, -, -⟩ := append_iff.1 h
  refine append_iff.2 ⟨hxs.congr hnext fun y hy ↦ hprev y (by simp [hy]), ?_, hlast, trivial⟩
  exact (hprev x (by simp)).trans hp

/-- The first node gets another predecessor. -/
theorem cons {x : ι} (h : Seg next prev a (x :: xs) b) (hfirst : prev' x = a')
    (hprev : ∀ y ∈ xs, prev' y = prev y) (hnext : ∀ y ∈ x :: xs, next' y = next y) :
    Seg next' prev' a' (x :: xs) b := by
  obtain ⟨-, hn, hxs⟩ := h
  refine ⟨hfirst, (hnext x (by simp)).trans hn, ?_⟩
  exact hxs.congr (fun y hy ↦ hnext y (by simp [hy])) hprev

/-- The nodes between two lists are replaced by `mid`: the last node before them and the first node
behind them get new links. -/
theorem replace {c d : ι} {mid : List ι} (hxs : Seg next prev a xs c) (hys : Seg next prev d ys b)
    (hmid : Seg next' prev' (xs.getLast?.getD a) mid (ys.head?.getD b))
    (hnext : ∀ y ∈ xs.dropLast ++ ys, next' y = next y)
    (hprev : ∀ y ∈ xs ++ ys.tail, prev' y = prev y)
    (hlast : ∀ y, xs.getLast? = some y → next' y = (mid ++ ys).head?.getD b)
    (hhead : ∀ z, ys.head? = some z → prev' z = (xs ++ mid).getLast?.getD a) :
    Seg next' prev' a (xs ++ (mid ++ ys)) b := by
  rw [append_iff, append_iff]
  refine ⟨?_, hmid, ?_⟩
  · obtain rfl | ⟨xs, y, rfl⟩ := xs.eq_nil_or_concat'
    · trivial
    · refine hxs.concat (hlast y (by simp)) (fun w hw ↦ hnext w ?_) fun w hw ↦ hprev w ?_
      · simp [hw]
      · exact List.mem_append_left _ hw
  · cases ys with
    | nil => trivial
    | cons z ys =>
        refine hys.cons ?_ (fun w hw ↦ hprev w ?_) fun w hw ↦ hnext w ?_
        · rw [hhead z rfl, List.getLast?_append]
          cases mid.getLast? <;> simp
        · exact List.mem_append_right _ hw
        · exact List.mem_append_right _ hw

end Seg

/-- The nodes `xs` behind the anchor `a`, which points on to the first of them, up to `b`. -/
structure Chain (next prev : ι → ι) (a : ι) (xs : List ι) (b : ι) : Prop where
  nodup : (a :: xs).Nodup
  first : next a = xs.head?.getD b
  seg : Seg next prev a xs b

namespace Chain

theorem nil (h : next a = b) : Chain next prev a [] b := ⟨List.nodup_singleton a, h, trivial⟩

theorem congr (h : Chain next prev a xs b) (hnext : ∀ x ∈ a :: xs, next' x = next x)
    (hprev : ∀ x ∈ xs, prev' x = prev x) : Chain next' prev' a xs b :=
  ⟨h.nodup, (hnext a (by simp)).trans h.first,
    h.seg.congr (fun x hx ↦ hnext x (List.mem_cons_of_mem _ hx)) hprev⟩

theorem mem_last (a : ι) (xs : List ι) : xs.getLast?.getD a ∈ a :: xs := by
  obtain rfl | ⟨xs, y, rfl⟩ := xs.eq_nil_or_concat'
  · simp
  · simp

/-- The nodes `old` between two lists are replaced by `mid`, with links that agree elsewhere. -/
theorem replace {old mid : List ι} (h : Chain next prev a (xs ++ (old ++ ys)) b)
    (hnodup : (a :: (xs ++ (mid ++ ys))).Nodup)
    (hmid : Seg next' prev' (xs.getLast?.getD a) mid (ys.head?.getD b))
    (hnext : ∀ y ∈ a :: (xs ++ ys), y ≠ xs.getLast?.getD a → next' y = next y)
    (hprev : ∀ y ∈ xs ++ ys, ys.head? ≠ some y → prev' y = prev y)
    (hlast : next' (xs.getLast?.getD a) = (mid ++ ys).head?.getD b)
    (hhead : ∀ z, ys.head? = some z → prev' z = (xs ++ mid).getLast?.getD a) :
    Chain next' prev' a (xs ++ (mid ++ ys)) b := by
  have hsplit := h.seg
  rw [Seg.append_iff, Seg.append_iff] at hsplit
  obtain ⟨hxs, -, hys⟩ := hsplit
  have hsub : (a :: (xs ++ ys)).Nodup :=
    hnodup.sublist (((List.sublist_append_right mid ys).append_left xs).cons_cons a)
  have hdisj := List.nodup_append.1 (List.nodup_cons.1 hsub).2
  -- the last node before the cut is not one of the others
  have hne : ∀ y ∈ xs.dropLast ++ ys, y ≠ xs.getLast?.getD a := by
    intro y hy
    obtain rfl | ⟨xs, x, rfl⟩ := xs.eq_nil_or_concat'
    · rintro rfl
      exact (List.nodup_cons.1 hsub).1 (by simpa using hy)
    · rw [List.getLast?_concat, Option.getD_some]
      rintro rfl
      rw [List.dropLast_concat] at hy
      rcases List.mem_append.1 hy with hy | hy
      · exact (List.nodup_append.1 hdisj.1).2.2 y hy y (by simp) rfl
      · exact hdisj.2.2 y (by simp) y hy rfl
  have hmem : ∀ y ∈ xs.dropLast ++ ys, y ∈ a :: (xs ++ ys) := fun y hy ↦
    List.mem_cons_of_mem _ (((List.dropLast_sublist xs).append_right ys).mem hy)
  refine ⟨hnodup, ?_,
    Seg.replace hxs hys hmid (fun y hy ↦ hnext y (hmem y hy) (hne y hy)) ?_ ?_ hhead⟩
  · cases xs with
    | nil => simpa using hlast
    | cons x xs =>
        have hfirst := h.first
        refine (hnext a (by simp) ?_).trans hfirst
        intro ha
        rw [List.getLast?_cons, Option.getD_some] at ha
        exact (List.nodup_cons.1 hsub).1 (ha ▸ List.mem_append_left _ (mem_last x xs))
  · intro y hy
    refine hprev y (((List.tail_sublist ys).append_left xs).mem hy) fun hyhead ↦ ?_
    obtain ⟨zs, rfl⟩ : ∃ zs, ys = y :: zs := by
      cases ys with
      | nil => simp at hyhead
      | cons z zs => exact ⟨zs, by rw [Option.some.inj hyhead]⟩
    rcases List.mem_append.1 hy with hy | hy
    · exact hdisj.2.2 y hy y (by simp) rfl
    · exact (List.nodup_cons.1 hdisj.2.1).1 hy
  · intro y hy
    rw [hy, Option.getD_some] at hlast
    exact hlast

end Chain

end MiniPi.Lib
