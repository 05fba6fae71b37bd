import MiniPi.Lib.Links
import Mathlib.Data.List.Nodup
import Mathlib.Logic.Function.Basic
import Mathlib.Tactic.Common

/-!
# Lists with a head

`list.h`: the head and the nodes are linked in a ring.  A node that was taken out has `NULL` for its
links.
-/

universe u

namespace MiniPi.Uloop

open Lib Function

variable {ι : Type u}

/-- A pointer to the head or to a node. -/
inductive Link (ι : Type u)
  | null | head
  | node (x : ι)
deriving DecidableEq

/-- The links of `struct list_head`. -/
structure ListHead (ι : Type u) where
  next : Link ι → Link ι
  prev : Link ι → Link ι

namespace ListHead

section

variable [DecidableEq ι]

def setNext (p v : Link ι) (l : ListHead ι) : ListHead ι := { l with next := update l.next p v }

def setPrev (p v : Link ι) (l : ListHead ι) : ListHead ι := { l with prev := update l.prev p v }

/-- `_list_add`. -/
def listAddBetween (new prev next : Link ι) (l : ListHead ι) : ListHead ι :=
  (((l.setPrev next new).setNext new next).setPrev new prev).setNext prev new

def listAdd (new h : Link ι) (l : ListHead ι) : ListHead ι := l.listAddBetween new h (l.next h)

def listAddTail (new h : Link ι) (l : ListHead ι) : ListHead ι := l.listAddBetween new (l.prev h) h

def listDel (entry : Link ι) (l : ListHead ι) : ListHead ι :=
  let l := l.setPrev (l.next entry) (l.prev entry)
  let l := l.setNext (l.prev entry) (l.next entry)
  (l.setPrev entry .null).setNext entry .null

end

/-- The first node, or the head. -/
def first (xs : List ι) : Link ι := (xs.map .node).head?.getD .head

def last (xs : List ι) : Link ι := (xs.map .node).getLast?.getD .head

/-- The ring of the head and the nodes `xs`. -/
structure Holds (l : ListHead ι) (xs : List ι) : Prop where
  chain : Chain l.next l.prev .head (xs.map .node) .head
  prev_head : l.prev .head = last xs

variable {l : ListHead ι} {pre post xs : List ι} {x : ι}

@[simp] theorem first_nil : first ([] : List ι) = .head := rfl

@[simp] theorem first_cons : first (x :: xs) = .node x := rfl

@[simp] theorem last_nil : last ([] : List ι) = .head := rfl

@[simp] theorem last_concat : last (xs ++ [x]) = .node x := by
  simp [last]

theorem first_eq_node (hfirst : first xs = .node x) : ∃ post, xs = x :: post := by
  cases xs with
  | nil => simp at hfirst
  | cons y ys => exact ⟨ys, by simpa using hfirst⟩

theorem last_eq_node (hlast : last xs = .node x) : x ∈ xs := by
  rcases List.eq_nil_or_concat' xs with rfl | ⟨ys, y, rfl⟩
  · simp at hlast
  · simpa using Or.inr (by simpa using hlast.symm)

theorem last_ne (hx : x ∉ pre) : last pre ≠ .node x := fun h ↦ hx (last_eq_node h)

theorem first_ne (hx : x ∉ post) : first post ≠ .node x := by
  intro h
  obtain ⟨ys, rfl⟩ := first_eq_node h
  exact hx List.mem_cons_self

theorem nodup_nodes : (Link.head :: xs.map Link.node).Nodup ↔ xs.Nodup := by
  rw [List.nodup_cons, List.nodup_map_iff fun _ _ h ↦ Link.node.inj h]
  exact ⟨And.right, fun h ↦ ⟨by simp, h⟩⟩

theorem ne_node (hx : x ∉ xs) : ∀ y ∈ Link.head :: xs.map Link.node, y ≠ .node x := by
  rintro y hy rfl
  simp [hx] at hy

namespace Holds

theorem nodup (h : l.Holds xs) : xs.Nodup := nodup_nodes.1 h.chain.nodup

theorem next_head (h : l.Holds xs) : l.next .head = first xs := h.chain.first

theorem node (h : l.Holds (pre ++ x :: post)) :
    l.next (.node x) = first post ∧ l.prev (.node x) = last pre := by
  have hseg := h.chain.seg
  rw [List.map_append, List.map_cons, Seg.append_iff] at hseg
  exact ⟨hseg.2.2.1, hseg.2.1⟩

theorem prev_first (h : l.Holds (pre ++ post)) : l.prev (first post) = last pre := by
  cases post with
  | nil => simpa using h.prev_head
  | cons y ys => exact h.node.2

/-- The nodes `old` between two lists are replaced by `mid`, with links that agree elsewhere. -/
theorem replace {old mid : List ι} {l' : ListHead ι} (h : l.Holds (pre ++ (old ++ post)))
    (hnodup : (pre ++ (mid ++ post)).Nodup)
    (hmid : Seg l'.next l'.prev (last pre) (mid.map .node) (first post))
    (hnext : ∀ y ∈ Link.head :: (pre ++ post).map Link.node, y ≠ last pre → l'.next y = l.next y)
    (hprev : ∀ y ∈ Link.head :: (pre ++ post).map Link.node, y ≠ first post → l'.prev y = l.prev y)
    (hlast : l'.next (last pre) = first (mid ++ post))
    (hfirst : l'.prev (first post) = last (pre ++ mid)) :
    l'.Holds (pre ++ (mid ++ post)) := by
  have hchain := h.chain
  simp only [List.map_append] at hchain hnext hprev
  constructor
  · rw [List.map_append, List.map_append]
    refine hchain.replace ?_ hmid hnext (fun y hy hhead ↦ hprev y (List.mem_cons_of_mem _ hy) ?_) ?_
      fun y hy ↦ ?_
    · rw [← List.map_append, ← List.map_append]
      exact nodup_nodes.2 hnodup
    · rintro rfl
      cases post with
      | nil => simp at hy
      | cons z zs => exact hhead rfl
    · rw [← List.map_append]
      exact hlast
    · rw [← List.map_append]
      have hy' : first post = y := by rw [first, hy, Option.getD_some]
      exact hy' ▸ hfirst
  · rcases List.eq_nil_or_concat' post with rfl | ⟨zs, z, rfl⟩
    · simpa using hfirst
    · rw [hprev .head (by simp) (by cases zs <;> simp), h.prev_head, ← List.append_assoc,
        ← List.append_assoc, ← List.append_assoc, ← List.append_assoc, last_concat, last_concat]

variable [DecidableEq ι]

theorem insert (h : l.Holds (pre ++ post)) (hx : x ∉ pre ++ post) :
    (l.listAddBetween (.node x) (last pre) (first post)).Holds (pre ++ x :: post) := by
  have hlast : last pre ≠ .node x := last_ne fun hmem ↦ hx (List.mem_append_left _ hmem)
  have hfirst : first post ≠ .node x := first_ne fun hmem ↦ hx (List.mem_append_right _ hmem)
  refine @replace _ _ pre post [] [x] _ (by simpa using h) ?_ ?_ ?_ ?_ ?_ ?_
  · exact List.nodup_middle.2 (List.nodup_cons.2 ⟨hx, h.nodup⟩)
  · simp [Seg, listAddBetween, setNext, setPrev, hlast.symm]
  · intro y hy hne
    simp [listAddBetween, setNext, setPrev, hne, ne_node hx y hy]
  · intro y hy hne
    simp [listAddBetween, setNext, setPrev, hne, ne_node hx y hy]
  · simp [listAddBetween, setNext, setPrev]
  · simp [listAddBetween, setNext, setPrev, hfirst]

theorem del (h : l.Holds (pre ++ x :: post)) : (l.listDel (.node x)).Holds (pre ++ post) := by
  have hx : x ∉ pre ++ post := (List.nodup_cons.1 (List.nodup_middle.1 h.nodup)).1
  have hlast : last pre ≠ .node x := last_ne fun hmem ↦ hx (List.mem_append_left _ hmem)
  have hfirst : first post ≠ .node x := first_ne fun hmem ↦ hx (List.mem_append_right _ hmem)
  obtain ⟨hnext, hprev⟩ := h.node
  refine @replace _ _ pre post [x] [] _ (by simpa using h) ?_ trivial ?_ ?_ ?_ ?_
  · exact (List.nodup_cons.1 (List.nodup_middle.1 h.nodup)).2
  · intro y hy hne
    simp [listDel, setNext, setPrev, hnext, hprev, hne, ne_node hx y hy, hfirst.symm]
  · intro y hy hne
    simp [listDel, setNext, setPrev, hnext, hprev, hne, ne_node hx y hy]
  · simp [listDel, setNext, setPrev, hnext, hprev, hlast, hfirst.symm]
  · simp [listDel, setNext, setPrev, hnext, hprev, hfirst]

end Holds

end ListHead

end MiniPi.Uloop
