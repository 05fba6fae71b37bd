import Mathlib

/-!
# Versioned lists

A vlist is a tree of nodes with a counter.  Between `vlist_update` and `vlist_flush` the nodes of a
new configuration are added; the flush removes the nodes whose version is not the counter.  The user
is told of each change by a callback.

The tree is one of `avl.c`.  A vlist only uses its list of nodes, and searching, inserting and
deleting; what it relies on is stated here, and shown of the trees of `avl.c` in the next module.
-/

namespace MiniPi.Vlist

/-- `struct vlist_node`, without its version: the address of the node and its key. -/
structure Node (κ : Type) where
  addr : ℕ
  key : κ
deriving DecidableEq, Repr

/-- The functions of `avl.c` that a vlist uses, and the list that runs through the nodes of a
tree. -/
structure Avl (κ : Type) where
  Tree : Type
  empty : Tree
  list : Tree → List (Node κ)
  find : Tree → κ → Option (Node κ)
  insert : Tree → Node κ → Tree
  delete : Tree → Node κ → Tree

/-- What `avl.c` promises for trees without duplicate keys: the list is in order, and a search, an
insertion and a deletion are what they are for the list. -/
structure Avl.Lawful {κ : Type} [LinearOrder κ] (A : Avl κ) (Ok : A.Tree → Prop) : Prop where
  empty_ok : Ok A.empty
  list_empty : A.list A.empty = []
  sorted : ∀ t, Ok t → (A.list t).Pairwise fun n n' ↦ n.key < n'.key
  find : ∀ t key, Ok t → A.find t key = (A.list t).find? fun n ↦ n.key = key
  insert_ok : ∀ t n, Ok t → (∀ n' ∈ A.list t, n'.key ≠ n.key) → Ok (A.insert t n)
  mem_insert : ∀ t n, Ok t → (∀ n' ∈ A.list t, n'.key ≠ n.key) →
    ∀ n', n' ∈ A.list (A.insert t n) ↔ n' = n ∨ n' ∈ A.list t
  delete_ok : ∀ t n, Ok t → n ∈ A.list t → Ok (A.delete t n)
  list_delete : ∀ t n, Ok t → n ∈ A.list t →
    A.list (A.delete t n) = (A.list t).filter (·.key ≠ n.key)

/-- A call of the update callback: the new node and the old one. -/
abbrev Call (κ : Type) := Option (Node κ) × Option (Node κ)

/-- `struct vlist_tree`, with the versions of the nodes and the calls of the callback so far. -/
structure VlistTree {κ : Type} (A : Avl κ) where
  avl : A.Tree
  keepOld : Bool
  noDelete : Bool
  version : ℤ
  versions : ℕ → ℤ
  calls : List (Call κ)

namespace VlistTree

variable {κ : Type} [DecidableEq κ] {A : Avl κ}

/-- The nodes of the tree. -/
def nodes (t : VlistTree A) : List (Node κ) := A.list t.avl

/-- `tree->update`. -/
def update (t : VlistTree A) (nodeNew nodeOld : Option (Node κ)) : VlistTree A :=
  { t with calls := t.calls ++ [(nodeNew, nodeOld)] }

/-- `vlist_init`. -/
def vlistInit (versions : ℕ → ℤ) : VlistTree A := ⟨A.empty, false, false, 1, versions, []⟩

/-- `vlist_update`; the counter is an `int`. -/
def vlistUpdate (t : VlistTree A) : VlistTree A :=
  { t with version := (t.version + 1).bmod (2 ^ 32) }

/-- `vlist_delete`. -/
def vlistDelete (t : VlistTree A) (node : Node κ) : VlistTree A :=
  let t := if t.noDelete then t else { t with avl := A.delete t.avl node }
  t.update none (some node)

/-- `vlist_add`. -/
def vlistAdd (t : VlistTree A) (node : Node κ) : VlistTree A :=
  let t := { t with versions := Function.update t.versions node.addr t.version }
  match A.find t.avl node.key with
  | some oldNode =>
    if t.keepOld || t.noDelete then
      { t with versions := Function.update t.versions oldNode.addr t.version }.update (some node)
        (some oldNode)
    else
      { t with avl := A.insert (A.delete t.avl oldNode) node }.update (some node) (some oldNode)
  | none => { t with avl := A.insert t.avl node }.update (some node) none

/-- The next element of the list; behind the last node comes the head of the list. -/
def nextElement (l : List (Node κ)) : Option (Node κ) → Option (Node κ)
  | none => l.head?
  | some n => (l.dropWhile (· ≠ n)).tail.head?

/-- The body of the loop of `vlist_flush`. -/
def flushNode (t : VlistTree A) (node : Node κ) : VlistTree A :=
  if (t.versions node.addr = t.version ∨ t.versions node.addr = -1) ∧ t.version ≠ -1 then t
  else t.vlistDelete node

/-- The loop of `avl_for_each_element_safe`, for at most `fuel` turns: `ptr` is kept from before the
body, and the loop ends at the head of the list. -/
def flushLoop : ℕ → VlistTree A → Option (Node κ) → Option (Node κ) → Option (VlistTree A)
  | 0, _, _, _ => none
  | _ + 1, t, none, _ => some t
  | fuel + 1, t, some node, ptr =>
    let t := t.flushNode node
    flushLoop fuel t ptr (nextElement t.nodes ptr)

/-- `vlist_flush`. -/
def vlistFlush (fuel : ℕ) (t : VlistTree A) : Option (VlistTree A) :=
  flushLoop fuel t (nextElement t.nodes none) (nextElement t.nodes (nextElement t.nodes none))

/-- `vlist_flush_all`. -/
def vlistFlushAll (fuel : ℕ) (t : VlistTree A) : Option (VlistTree A) :=
  vlistFlush fuel { t with version := -1 }

end VlistTree

/-! ## Lists with one node for each key -/

section Lists

variable {κ : Type} [LinearOrder κ] {l : List (Node κ)} {n : Node κ} {key : κ}

/-- The nodes are in the order of their keys. -/
abbrev Sorted (l : List (Node κ)) : Prop := l.Pairwise fun n n' ↦ n.key < n'.key

theorem Sorted.nodup_keys (h : Sorted l) : (l.map Node.key).Nodup := by
  rw [List.Nodup, List.pairwise_map]
  exact h.imp fun hlt ↦ hlt.ne

theorem Sorted.eq_of_key (h : Sorted l) {n' : Node κ} (hn : n ∈ l) (hn' : n' ∈ l)
    (hkey : n.key = n'.key) : n = n' :=
  List.inj_on_of_nodup_map h.nodup_keys hn hn' hkey

theorem Sorted.nodup (h : Sorted l) : l.Nodup := by
  refine h.imp ?_
  rintro a b hlt rfl
  exact lt_irrefl _ hlt

theorem Sorted.find?_eq_some_iff (h : Sorted l) :
    (l.find? fun n ↦ n.key = key) = some n ↔ n ∈ l ∧ n.key = key := by
  constructor
  · intro hfind
    exact ⟨List.mem_of_find?_eq_some hfind, by simpa using List.find?_some hfind⟩
  · rintro ⟨hmem, hkey⟩
    cases hfind : l.find? fun n ↦ n.key = key with
    | none => exact absurd hkey (by simpa using List.find?_eq_none.mp hfind n hmem)
    | some n' =>
        have hkey' : n'.key = key := by simpa using List.find?_some hfind
        rw [h.eq_of_key hmem (List.mem_of_find?_eq_some hfind) (hkey.trans hkey'.symm)]

end Lists

end MiniPi.Vlist
