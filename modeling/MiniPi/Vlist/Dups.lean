import MiniPi.Vlist.Tree

/-!
# Trees with duplicates

A `struct avl_tree` is a tree and a list.  With `allow_dups` there may be several nodes with one
key.  Only the first of them, the leader, is in the tree; the others stand behind it in the list.
The tree is rebalanced without a look at the list, and the list is put in order without a look at
the tree: here the two are shown to stay in step.
-/

namespace MiniPi.Vlist

variable {κ : Type}

namespace AvlTree

variable [LinearOrder κ]

/-- `avl_find_rec`: the node at which the search ends, with its balance. -/
def findRec (key : κ) : AvlTree κ → Option (Node κ × ℤ)
  | nil => none
  | node l x b r =>
    if key < x.key then (l.findRec key).or (some (x, b))
    else if x.key < key then (r.findRec key).or (some (x, b))
    else some (x, b)

/-- A node takes the place of another one: its links, and the links to it. -/
def replace (old new : Node κ) : AvlTree κ → AvlTree κ
  | nil => nil
  | node l x b r => node (l.replace old new) (if x.addr = old.addr then new else x) b
      (r.replace old new)

end AvlTree

/-- A node in the list, with `node->leader`. -/
structure Entry (κ : Type) where
  node : Node κ
  leader : Bool
deriving DecidableEq, Repr

/-- `struct avl_tree`. -/
structure Dups (κ : Type) where
  root : AvlTree κ
  list : List (Entry κ)
  count : BitVec 32
  allowDups : Bool

namespace Entry

/-- The nodes of a list. -/
abbrev nodes (l : List (Entry κ)) : List (Node κ) := l.map Entry.node

/-- The entries behind a node. -/
def behind (x : Node κ) : List (Entry κ) → List (Entry κ)
  | [] => []
  | e :: l => if e.node.addr = x.addr then l else behind x l

/-- The walk of `avl_insert` to the last node with the key of a leader. -/
def last (x : Node κ) : List (Entry κ) → Node κ
  | ⟨next, false⟩ :: l => last next l
  | _ => x

/-- `list_add_tail` at a node of the list. -/
def addBefore (pos : Node κ) (e : Entry κ) : List (Entry κ) → List (Entry κ)
  | [] => []
  | e' :: l => if e'.node.addr = pos.addr then e :: e' :: l else e' :: addBefore pos e l

/-- `list_add` at a node of the list. -/
def addAfter (pos : Node κ) (e : Entry κ) : List (Entry κ) → List (Entry κ)
  | [] => []
  | e' :: l => if e'.node.addr = pos.addr then e' :: e :: l else e' :: addAfter pos e l

/-- `list_del`. -/
def del (x : Node κ) : List (Entry κ) → List (Entry κ)
  | [] => []
  | e :: l => if e.node.addr = x.addr then l else e :: del x l

/-- `node->leader = true`. -/
def promote (x : Node κ) (l : List (Entry κ)) : List (Entry κ) :=
  l.map fun e ↦ if e.node.addr = x.addr then { e with leader := true } else e

end Entry

namespace Dups

open Entry

variable [LinearOrder κ]

/-- `avl_init`. -/
def avlInit (allowDups : Bool) : Dups κ := ⟨.nil, [], 0, allowDups⟩

/-- `avl_insert`, with what it returns. -/
def avlInsert (t : Dups κ) (new : Node κ) : Option (Dups κ × ℤ) :=
  match t.root.findRec new.key with
  | none => some ({ t with root := .leaf new, list := ⟨new, true⟩ :: t.list, count := 1 }, 0)
  | some (x, b) =>
    let last := last x (behind x t.list)
    if new.key = x.key then
      if !t.allowDups then some (t, -1)
      else some ({ t with list := addAfter last ⟨new, false⟩ t.list, count := t.count + 1 }, 0)
    else do
      let root ← t.root.insert new
      -- a node that leans to a side has room on the other side only
      let list := if b = 1 ∨ b ≠ -1 ∧ new.key < x.key then addBefore x ⟨new, true⟩ t.list
        else addAfter last ⟨new, true⟩ t.list
      some ({ t with root, list, count := t.count + 1 }, 0)

/-- `avl_delete`.  The next duplicate of a leader takes its place. -/
def avlDelete (t : Dups κ) (x : Node κ) : Option (Dups κ) := do
  let e ← t.list.find? fun e ↦ e.node.addr = x.addr
  if e.leader then
    match t.allowDups, behind x t.list with
    | true, ⟨next, false⟩ :: _ =>
      some { t with
        root := t.root.replace x next, list := del x (promote next t.list), count := t.count - 1 }
    | _, _ => do
      let root ← t.root.delete x
      some { t with root, list := del x t.list, count := t.count - 1 }
  else some { t with list := del x t.list, count := t.count - 1 }

/-- `avl_find`. -/
def avlFind (t : Dups κ) (key : κ) : Option (Node κ) :=
  (t.root.findRec key).bind fun (x, _) ↦ if key = x.key then some x else none

/-- A place in the list: the nodes before it, the nearest first, the node, and those behind it. -/
structure Place (κ : Type) where
  before : List (Node κ)
  node : Node κ
  behind : List (Node κ)

/-- The place of a node in the list. -/
def place (x : Node κ) : List (Node κ) → List (Node κ) → Option (Place κ)
  | _, [] => none
  | before, n :: l => if n.addr = x.addr then some ⟨before, n, l⟩ else place x (n :: before) l

/-- The walk to the left as long as `key < node->key`; `none` is the end of the list. -/
def leftWhileLt (key : κ) : List (Node κ) → Node κ → List (Node κ) → Option (Place κ)
  | before, x, l =>
    if key < x.key then
      match before with
      | [] => none
      | prev :: before => leftWhileLt key before prev (x :: l)
    else some ⟨before, x, l⟩

/-- The walk to the right as long as `key > node->key`. -/
def rightWhileGt (key : κ) : List (Node κ) → Node κ → List (Node κ) → Option (Place κ)
  | before, x, l =>
    if x.key < key then
      match l with
      | [] => none
      | next :: l => rightWhileGt key (x :: before) next l
    else some ⟨before, x, l⟩

/-- The walk to the right as long as `key >= next->key`. -/
def rightWhileGe (key : κ) : Node κ → List (Node κ) → Node κ
  | x, [] => x
  | x, next :: l => if next.key ≤ key then rightWhileGe key next l else x

/-- The walk to the left as long as `key <= next->key`. -/
def leftWhileLe (key : κ) : Node κ → List (Node κ) → Node κ
  | x, [] => x
  | x, next :: before => if key ≤ next.key then leftWhileLe key next before else x

/-- `avl_find_lessequal`; `none` is a node of the tree that is not in the list. -/
def avlFindLessequal (t : Dups κ) (key : κ) : Option (Option (Node κ)) :=
  match t.root.findRec key with
  | none => some none
  | some (x, _) => (place x [] (nodes t.list)).map fun p ↦
    (leftWhileLt key p.before p.node p.behind).map fun p ↦ rightWhileGe key p.node p.behind

/-- `avl_find_greaterequal`. -/
def avlFindGreaterequal (t : Dups κ) (key : κ) : Option (Option (Node κ)) :=
  match t.root.findRec key with
  | none => some none
  | some (x, _) => (place x [] (nodes t.list)).map fun p ↦
    (rightWhileGt key p.before p.node p.behind).map fun p ↦ leftWhileLe key p.node p.before

end Dups

/-! ## The tree -/

namespace AvlTree

variable [LinearOrder κ] {t : AvlTree κ} {new : Node κ} {key : κ}

/-- The search ends next to the place of the key, at a node with room on its side. -/
theorem findRec_spec (ht : t.Balanced) (hs : Sorted t.toList) (hne : t ≠ nil) (key : κ) :
    ∃ pre x post b, t.findRec key = some (x, b) ∧ t.toList = pre ++ x :: post ∧
      (∀ n ∈ pre, n.key < key) ∧ (∀ n ∈ post, key < n.key) ∧ (key < x.key → b ≠ -1) ∧
      (x.key < key → b ≠ 1) := by
  induction t with
  | nil => exact absurd rfl hne
  | node l y b r ihl ihr =>
      obtain ⟨hsl, hsr, hly, hyr⟩ := sorted_node hs
      obtain ⟨hl, hr, hb, -, -⟩ := ht
      rw [findRec]
      split_ifs with hlt hgt
      · have hright := lt_of_lt_item hlt hyr
        by_cases hnil : l = nil
        · subst hnil
          refine ⟨[], y, r.toList, b, rfl, rfl, by simp, fun n hn ↦ hright n (.tail _ hn),
            fun _ ↦ ?_, fun h ↦ absurd (h.trans hlt) (lt_irrefl _)⟩
          have hr0 := height_nonneg r
          simp only [height] at hb
          omega
        · obtain ⟨pre, x, post, b', hfind, hlist, hpre, hpost, hroom⟩ := ihl hl hsl hnil
          refine ⟨pre, x, post ++ y :: r.toList, b', by rw [hfind, Option.some_or],
            by simp [toList, hlist], hpre, fun n hn ↦ ?_, hroom⟩
          obtain hn | hn := List.mem_append.mp hn
          · exact hpost n hn
          · exact hright n hn
      · have hleft : ∀ n ∈ l.toList ++ [y], n.key < key := by
          intro n hn
          obtain hn | hn := List.mem_append.mp hn
          · exact (hly n hn).trans hgt
          · rwa [List.mem_singleton.mp hn]
        by_cases hnil : r = nil
        · subst hnil
          refine ⟨l.toList, y, [], b, rfl, rfl, fun n hn ↦ hleft n (List.mem_append_left _ hn),
            by simp, fun h ↦ absurd h hlt, fun _ ↦ ?_⟩
          have hl0 := height_nonneg l
          simp only [height] at hb
          omega
        · obtain ⟨pre, x, post, b', hfind, hlist, hpre, hpost, hroom⟩ := ihr hr hsr hnil
          refine ⟨l.toList ++ y :: pre, x, post, b', by rw [hfind, Option.some_or],
            by simp [toList, hlist], fun n hn ↦ ?_, hpost, hroom⟩
          rw [← List.singleton_append, ← List.append_assoc] at hn
          obtain hn | hn := List.mem_append.mp hn
          · exact hleft n hn
          · exact hpre n hn
      · have heq : y.key = key := le_antisymm (not_lt.mp hlt) (not_lt.mp hgt)
        exact ⟨l.toList, y, r.toList, b, rfl, rfl, heq ▸ hly, heq ▸ hyr, fun h ↦ absurd h hlt,
          fun h ↦ absurd h hgt⟩

theorem findRec_eq_none : t.findRec key = none ↔ t = nil := by
  cases t with
  | nil => simp [findRec]
  | node l x b r =>
      rw [findRec]
      split_ifs <;> simp

/-- A new node stands between those with lesser and those with greater keys. -/
theorem Inserted.eq {l pre post : List (Node κ)} (h : Inserted new (pre ++ post) l)
    (hpre : ∀ n ∈ pre, n.key < new.key) (hpost : ∀ n ∈ post, new.key < n.key) :
    l = pre ++ new :: post := by
  obtain ⟨a, b, hab, rfl, ha, hb⟩ := h
  have hcut {p q : List (Node κ)} (hp : ∀ n ∈ p, n.key < new.key) (hq : ∀ n ∈ q, new.key < n.key) :
      (p ++ q).filter (·.key < new.key) = p ∧ (p ++ q).filter (new.key < ·.key) = q := by
    have hp' : p.filter (new.key < ·.key) = [] :=
      List.filter_eq_nil_iff.mpr fun n hn ↦ by simpa using (hp n hn).le
    have hq' : q.filter (·.key < new.key) = [] :=
      List.filter_eq_nil_iff.mpr fun n hn ↦ by simpa using (hq n hn).le
    rw [List.filter_append, List.filter_append, hp', hq', List.append_nil, List.nil_append]
    exact ⟨List.filter_eq_self.mpr (by simpa using hp), List.filter_eq_self.mpr (by simpa using hq)⟩
  obtain ⟨h₁, h₂⟩ := hcut ha hb
  obtain ⟨h₃, h₄⟩ := hcut hpre hpost
  have ha' : a = pre := by rw [← h₁, ← hab, h₃]
  have hb' : b = post := by rw [← h₂, ← hab, h₄]
  rw [ha', hb']

omit [LinearOrder κ] in
theorem toList_replace (old new : Node κ) (t : AvlTree κ) :
    (t.replace old new).toList = t.toList.map fun x ↦ if x.addr = old.addr then new else x := by
  induction t with
  | nil => rfl
  | node l x b r ihl ihr => simp [replace, toList, ihl, ihr]

omit [LinearOrder κ] in
theorem height_replace (old new : Node κ) (t : AvlTree κ) :
    (t.replace old new).height = t.height := by
  induction t with
  | nil => rfl
  | node l x b r ihl ihr => rw [replace, height, height, ihl, ihr]

omit [LinearOrder κ] in
theorem Balanced.replace (ht : t.Balanced) (old new : Node κ) : (t.replace old new).Balanced := by
  induction t with
  | nil => trivial
  | node l x b r ihl ihr =>
      obtain ⟨hl, hr, hb⟩ := ht
      refine ⟨ihl hl, ihr hr, ?_⟩
      rwa [height_replace, height_replace]

end AvlTree

/-! ## The list -/

namespace Entry

variable {x : Node κ} {e e' : Entry κ} {pre post l : List (Entry κ)}

theorem behind_append (hpre : ∀ n ∈ nodes pre, n.addr ≠ e.node.addr) :
    behind e.node (pre ++ e :: post) = post := by
  induction pre with
  | nil => exact if_pos rfl
  | cons p pre ih =>
      obtain ⟨hp, hpre⟩ := List.forall_mem_cons.mp hpre
      rw [List.cons_append, behind, if_neg hp, ih hpre]

theorem addBefore_append (hpre : ∀ n ∈ nodes pre, n.addr ≠ e.node.addr) :
    addBefore e.node e' (pre ++ e :: post) = pre ++ e' :: e :: post := by
  induction pre with
  | nil => exact if_pos rfl
  | cons p pre ih =>
      obtain ⟨hp, hpre⟩ := List.forall_mem_cons.mp hpre
      rw [List.cons_append, addBefore, if_neg hp, ih hpre, List.cons_append]

theorem addAfter_append (hpre : ∀ n ∈ nodes pre, n.addr ≠ e.node.addr) :
    addAfter e.node e' (pre ++ e :: post) = pre ++ e :: e' :: post := by
  induction pre with
  | nil => exact if_pos rfl
  | cons p pre ih =>
      obtain ⟨hp, hpre⟩ := List.forall_mem_cons.mp hpre
      rw [List.cons_append, addAfter, if_neg hp, ih hpre, List.cons_append]

theorem del_append (hpre : ∀ n ∈ nodes pre, n.addr ≠ e.node.addr) :
    del e.node (pre ++ e :: post) = pre ++ post := by
  induction pre with
  | nil => exact if_pos rfl
  | cons p pre ih =>
      obtain ⟨hp, hpre⟩ := List.forall_mem_cons.mp hpre
      rw [List.cons_append, del, if_neg hp, ih hpre, List.cons_append]

theorem find?_append (hpre : ∀ n ∈ nodes pre, n.addr ≠ e.node.addr) :
    (pre ++ e :: post).find? (fun e' ↦ e'.node.addr = e.node.addr) = some e := by
  induction pre with
  | nil => simp
  | cons p pre ih =>
      obtain ⟨hp, hpre⟩ := List.forall_mem_cons.mp hpre
      rw [List.cons_append, List.find?_cons_of_neg (by simpa using hp), ih hpre]

theorem promote_eq_self (hl : ∀ n ∈ nodes l, n.addr ≠ x.addr) : promote x l = l := by
  induction l with
  | nil => rfl
  | cons e l ih =>
      obtain ⟨he, hl⟩ := List.forall_mem_cons.mp hl
      rw [promote, List.map_cons, if_neg he]
      exact congrArg (e :: ·) (ih hl)

/-- The node with the address becomes a leader. -/
theorem promote_append (hpre : ∀ n ∈ nodes pre, n.addr ≠ e.node.addr)
    (hpost : ∀ n ∈ nodes post, n.addr ≠ e.node.addr) :
    promote e.node (pre ++ e :: post) = pre ++ { e with leader := true } :: post := by
  have happend : promote e.node (pre ++ e :: post) =
      promote e.node pre ++ promote e.node [e] ++ promote e.node post := by
    simp [promote]
  rw [happend, promote_eq_self hpre, promote_eq_self hpost, List.append_assoc]
  simp [promote]

/-- The addresses of the nodes of a list are different. -/
def Apart (l : List (Node κ)) : Prop := (l.map Node.addr).Nodup

theorem Apart.before {pre post : List (Node κ)} (h : Apart (pre ++ x :: post)) :
    ∀ n ∈ pre, n.addr ≠ x.addr := by
  rw [Apart, List.map_append, List.map_cons, List.nodup_append] at h
  obtain ⟨-, -, h⟩ := h
  exact fun n hn ↦ h _ (List.mem_map_of_mem hn) _ List.mem_cons_self

theorem Apart.behind {pre post : List (Node κ)} (h : Apart (pre ++ x :: post)) :
    ∀ n ∈ post, n.addr ≠ x.addr := by
  rw [Apart, List.map_append, List.map_cons, List.nodup_append, List.nodup_cons] at h
  obtain ⟨-, ⟨h, -⟩, -⟩ := h
  intro n hn heq
  exact h (heq ▸ List.mem_map_of_mem hn)

theorem Apart.put {pre post : List (Node κ)} (h : Apart (pre ++ post))
    (hnew : ∀ n ∈ pre ++ post, n.addr ≠ x.addr) : Apart (pre ++ x :: post) := by
  rw [Apart, List.map_append, List.map_cons, List.nodup_middle, List.nodup_cons, ← List.map_append]
  refine ⟨fun hmem ↦ ?_, h⟩
  obtain ⟨n, hn, heq⟩ := List.mem_map.mp hmem
  exact hnew n hn heq

theorem Apart.del {pre post : List (Node κ)} (h : Apart (pre ++ x :: post)) :
    Apart (pre ++ post) := by
  rw [Apart, List.map_append, List.map_cons, List.nodup_middle, List.nodup_cons,
    ← List.map_append] at h
  exact h.2

theorem Apart.filter {pre post : List (Node κ)} (h : Apart (pre ++ x :: post)) :
    (pre ++ x :: post).filter (·.addr ≠ x.addr) = pre ++ post := by
  rw [List.filter_append, List.filter_cons_of_neg (by simp),
    List.filter_eq_self.mpr (by simpa using h.before),
    List.filter_eq_self.mpr (by simpa using h.behind)]

/-! ### Leaders -/

/-- A leader, with the duplicates behind it. -/
abbrev Series (κ : Type) := Node κ × List (Node κ)

/-- The nodes that are not leaders. -/
abbrev dups (l : List (Node κ)) : List (Entry κ) := l.map (⟨·, false⟩)

/-- The list of all groups. -/
def flat : List (Series κ) → List (Entry κ)
  | [] => []
  | (x, ds) :: gs => ⟨x, true⟩ :: dups ds ++ flat gs

@[simp] theorem flat_append (gs gs' : List (Series κ)) :
    flat (gs ++ gs') = flat gs ++ flat gs' := by
  induction gs with
  | nil => rfl
  | cons g gs ih => simp [flat, ih]

theorem nodes_dups (l : List (Node κ)) : nodes (dups l) = l := by
  rw [nodes, List.map_map]
  exact List.map_id _

theorem nodes_flat_cons (x : Node κ) (ds : List (Node κ)) (gs : List (Series κ)) :
    nodes (flat ((x, ds) :: gs)) = x :: (ds ++ nodes (flat gs)) := by
  rw [flat, nodes, List.cons_append, List.map_cons, List.map_append]
  exact congrArg (fun l ↦ x :: (l ++ nodes (flat gs))) (nodes_dups ds)

theorem nodes_flat_append (gs gs' : List (Series κ)) :
    nodes (flat (gs ++ gs')) = nodes (flat gs) ++ nodes (flat gs') := by
  rw [flat_append, nodes, List.map_append]

theorem length_flat (gs : List (Series κ)) : (flat gs).length = (nodes (flat gs)).length :=
  (List.length_map _).symm

theorem mem_nodes_flat {gs : List (Series κ)} {n : Node κ} (hn : n ∈ gs.map Prod.fst) :
    n ∈ nodes (flat gs) := by
  induction gs with
  | nil => cases hn
  | cons g gs ih =>
      obtain ⟨y, ds⟩ := g
      rw [nodes_flat_cons, List.mem_cons, List.mem_append]
      obtain rfl | hn := List.mem_cons.mp hn
      · exact .inl rfl
      · exact .inr (.inr (ih hn))

/-- The walk of `avl_insert` ends at the next leader. -/
theorem last_dups (x : Node κ) (ds : List (Node κ)) (gs : List (Series κ)) :
    last x (dups ds ++ flat gs) = ds.getLastD x := by
  induction ds generalizing x with
  | nil =>
      cases gs with
      | nil => rfl
      | cons g gs => rfl
  | cons d ds ih =>
      rw [List.getLastD_cons]
      exact ih d

/-- An addition at the end of a group. -/
theorem addAfter_getLastD {ds : List (Node κ)} (h : Apart (nodes (pre ++ e :: dups ds))) :
    addAfter (ds.getLastD e.node) e' (pre ++ e :: (dups ds ++ post)) =
      pre ++ e :: (dups ds ++ e' :: post) := by
  induction ds generalizing pre e with
  | nil =>
      rw [nodes, List.map_append] at h
      exact addAfter_append h.before
  | cons d ds ih =>
      have h' : Apart (nodes ((pre ++ [e]) ++ ⟨d, false⟩ :: dups ds)) := by
        rw [List.append_assoc]
        exact h
      have hrec := ih h'
      rw [List.append_assoc, List.append_assoc] at hrec
      rw [List.getLastD_cons]
      exact hrec

end Entry

/-! ## Tree and list -/

namespace Dups

open Entry AvlTree

variable [LinearOrder κ] {t : Dups κ} {new x : Node κ} {key : κ} {gs : List (Series κ)}

/-- The duplicates of a leader have its key, and there are none unless they are allowed. -/
def Fits (allowDups : Bool) (g : Series κ) : Prop :=
  (∀ d ∈ g.2, d.key = g.1.key) ∧ (allowDups = false → g.2 = [])

/-- The tree holds the leaders of the list, and each leader stands before its duplicates. -/
structure Grouped (t : Dups κ) (gs : List (Series κ)) : Prop where
  balanced : t.root.Balanced
  list : t.list = flat gs
  root : t.root.toList = gs.map Prod.fst
  sorted : Sorted (gs.map Prod.fst)
  fits : ∀ g ∈ gs, Fits t.allowDups g
  apart : Apart (nodes (flat gs))
  count : t.count = BitVec.ofNat 32 (flat gs).length

/-- What all operations keep. -/
def Ok (t : Dups κ) : Prop := ∃ gs, t.Grouped gs

theorem avlInit_ok (allowDups : Bool) : (avlInit allowDups : Dups κ).Ok :=
  ⟨[], trivial, rfl, rfl, .nil, by simp, List.nodup_nil, rfl⟩

omit [LinearOrder κ] in
/-- The keys in the list are those of the leaders. -/
theorem exists_key {gs : List (Series κ)} {allowDups : Bool} (hfits : ∀ g ∈ gs, Fits allowDups g)
    {n : Node κ} (hn : n ∈ nodes (flat gs)) : ∃ y ∈ gs.map Prod.fst, n.key = y.key := by
  induction gs with
  | nil => cases hn
  | cons g gs ih =>
      obtain ⟨⟨hg, -⟩, hgs⟩ := List.forall_mem_cons.mp hfits
      obtain ⟨y, ds⟩ := g
      rw [flat, nodes, List.map_append, List.map_cons, List.mem_append, List.mem_cons] at hn
      obtain (rfl | hn) | hn := hn
      · exact ⟨_, .head _, rfl⟩
      · exact ⟨y, .head _, hg n (nodes_dups ds ▸ hn)⟩
      · obtain ⟨y', hy', hkey⟩ := ih hgs hn
        exact ⟨y', .tail _ hy', hkey⟩

theorem Grouped.eq_nil (h : t.Grouped gs) (hnil : t.root = .nil) : gs = [] := by
  have hroot := h.root
  rw [hnil] at hroot
  exact List.map_eq_nil_iff.mp hroot.symm

/-- Where the search for a key ends: the group there, and the groups before and behind it. -/
structure Found (t : Dups κ) (gs : List (Series κ)) (key : κ) (x : Node κ) (b : ℤ) where
  pre : List (Series κ)
  ds : List (Node κ)
  post : List (Series κ)
  find : t.root.findRec key = some (x, b)
  groups : gs = pre ++ (x, ds) :: post
  before : ∀ n ∈ nodes (flat pre), n.key < key
  here : ∀ d ∈ ds, d.key = x.key
  behind : ∀ n ∈ nodes (flat post), key < n.key
  room_left : key < x.key → b ≠ -1
  room_right : x.key < key → b ≠ 1

theorem Grouped.found (h : t.Grouped gs) (key : κ) (hne : t.root ≠ .nil) :
    ∃ x b, Nonempty (t.Found gs key x b) := by
  obtain ⟨pre, x, post, b, hfind, hlist, hpre, hpost, hleft, hright⟩ :=
    findRec_spec h.balanced (h.root ▸ h.sorted) hne key
  rw [h.root, List.map_eq_append_iff] at hlist
  obtain ⟨gpre, gpost, rfl, rfl, hmap⟩ := hlist
  obtain ⟨⟨x', ds⟩, gpost, rfl, rfl, rfl⟩ := List.map_eq_cons_iff.mp hmap
  obtain ⟨hfpre, hfpost⟩ := List.forall_mem_append.mp h.fits
  obtain ⟨hfx, hfpost⟩ := List.forall_mem_cons.mp hfpost
  refine ⟨x', b, ⟨gpre, ds, gpost, hfind, rfl, fun n hn ↦ ?_, hfx.1, fun n hn ↦ ?_, hleft, hright⟩⟩
  · obtain ⟨y, hy, hkey⟩ := exists_key hfpre hn
    exact hkey ▸ hpre y hy
  · obtain ⟨y, hy, hkey⟩ := exists_key hfpost hn
    exact hkey ▸ hpost y hy

theorem Found.nodes_eq {b : ℤ} (h : t.Found gs key x b) :
    nodes (flat gs) = nodes (flat h.pre) ++ x :: (h.ds ++ nodes (flat h.post)) := by
  conv_lhs => rw [h.groups]
  rw [nodes_flat_append, nodes_flat_cons]

/-! ## What the operations are for the list -/

/-- The list with a new node behind all nodes with lesser keys or the same one. -/
def put (new : Node κ) (l : List (Node κ)) : List (Node κ) :=
  l.filter (·.key ≤ new.key) ++ new :: l.filter (new.key < ·.key)

theorem put_append {pre post : List (Node κ)} (hpre : ∀ n ∈ pre, n.key ≤ new.key)
    (hpost : ∀ n ∈ post, new.key < n.key) : put new (pre ++ post) = pre ++ new :: post := by
  have h₁ : pre.filter (new.key < ·.key) = [] :=
    List.filter_eq_nil_iff.mpr fun n hn ↦ by simpa using hpre n hn
  have h₂ : post.filter (·.key ≤ new.key) = [] :=
    List.filter_eq_nil_iff.mpr fun n hn ↦ by simpa using hpost n hn
  rw [put, List.filter_append, List.filter_append, h₁, h₂, List.append_nil, List.nil_append,
    List.filter_eq_self.mpr (by simpa using hpre), List.filter_eq_self.mpr (by simpa using hpost)]

/-- A call. -/
inductive Op (κ : Type) where
  | insert (node : Node κ)
  | delete (node : Node κ)

/-- The nodes after a call. -/
def Op.spec (allowDups : Bool) (l : List (Node κ)) : Op κ → List (Node κ)
  | insert new => if allowDups = false ∧ ∃ n ∈ l, n.key = new.key then l else put new l
  | delete x => l.filter (·.addr ≠ x.addr)

/-- A node put in is not in the tree yet, and one taken out is. -/
def Op.Legal (l : List (Node κ)) : Op κ → Prop
  | insert new => ∀ n ∈ l, n.addr ≠ new.addr
  | delete x => x ∈ l

/-- A call on a tree. -/
def step (t : Dups κ) : Op κ → Option (Dups κ)
  | .insert new => (t.avlInsert new).map Prod.fst
  | .delete x => t.avlDelete x

/-! ## Insertion -/

/-- A node is added between two parts of the list, and the groups are in order. -/
theorem Grouped.inserted (h : t.Grouped gs) (hnew : ∀ n ∈ nodes (flat gs), n.addr ≠ new.addr)
    {gs' : List (Series κ)} {pre post : List (Node κ)} {root : AvlTree κ}
    (hlist : nodes (flat gs) = pre ++ post) (hlist' : nodes (flat gs') = pre ++ new :: post)
    (hbal : root.Balanced) (hroot : root.toList = gs'.map Prod.fst)
    (hsorted : Sorted (gs'.map Prod.fst)) (hfits : ∀ g ∈ gs', Fits t.allowDups g) :
    Grouped { t with root, list := flat gs', count := t.count + 1 } gs' := by
  refine ⟨hbal, rfl, hroot, hsorted, hfits, ?_, ?_⟩
  · rw [hlist']
    have happart := h.apart
    rw [hlist] at happart hnew
    exact happart.put hnew
  · have hlen : (flat gs').length = (flat gs).length + 1 := by
      rw [length_flat, length_flat, hlist, hlist', List.length_append, List.length_append,
        List.length_cons, Nat.add_assoc]
    rw [hlen, BitVec.ofNat_add, ← h.count]
    rfl

/-- A node with a new key becomes a leader, in the tree and in the list. -/
theorem Grouped.lead (h : t.Grouped gs) (hnew : ∀ n ∈ nodes (flat gs), n.addr ≠ new.addr)
    {gpre gpost : List (Series κ)} (hgs : gs = gpre ++ gpost)
    (hpre : ∀ n ∈ nodes (flat gpre), n.key < new.key)
    (hpost : ∀ n ∈ nodes (flat gpost), new.key < n.key) :
    ∃ root, t.root.insert new = some root ∧
      Grouped { t with root, list := flat (gpre ++ (new, []) :: gpost), count := t.count + 1 }
        (gpre ++ (new, []) :: gpost) := by
  have hpre' : ∀ n ∈ gpre.map Prod.fst, n.key < new.key := fun n hn ↦ hpre n (mem_nodes_flat hn)
  have hpost' : ∀ n ∈ gpost.map Prod.fst, new.key < n.key := fun n hn ↦ hpost n (mem_nodes_flat hn)
  have hroot : t.root.toList = gpre.map Prod.fst ++ gpost.map Prod.fst := by
    rw [h.root, hgs, List.map_append]
  have hfresh : ∀ n ∈ t.root.toList, n.key ≠ new.key := by
    intro n hn
    obtain hn | hn := List.mem_append.mp (hroot ▸ hn)
    · exact (hpre' n hn).ne
    · exact (hpost' n hn).ne'
  have hs : Sorted t.root.toList := h.root ▸ h.sorted
  obtain ⟨root, hinsert, hbal, hins⟩ := insert_spec h.balanced hs hfresh
  have hsorted := hins.sorted hs
  rw [hroot] at hins
  have hlist := Inserted.eq hins hpre' hpost'
  have hnodes : nodes (flat gs) = nodes (flat gpre) ++ nodes (flat gpost) := by
    rw [hgs, nodes_flat_append]
  have hnodes' : nodes (flat (gpre ++ (new, []) :: gpost)) = nodes (flat gpre) ++ new ::
      nodes (flat gpost) := by
    rw [nodes_flat_append, nodes_flat_cons, List.nil_append]
  refine ⟨root, hinsert,
    h.inserted hnew hnodes hnodes' hbal (by simp [hlist]) (by simpa [hlist] using hsorted)
    ?_⟩
  obtain ⟨hfpre, hfpost⟩ := List.forall_mem_append.mp (hgs ▸ h.fits)
  have hfnew : Fits t.allowDups (new, []) := ⟨by simp, fun _ ↦ rfl⟩
  exact List.forall_mem_append.mpr ⟨hfpre, List.forall_mem_cons.mpr ⟨hfnew, hfpost⟩⟩

theorem Found.list_eq {b : ℤ} (h : t.Found gs key x b) (ht : t.Grouped gs) :
    t.list = flat h.pre ++ ⟨x, true⟩ :: (dups h.ds ++ flat h.post) := by
  rw [ht.list]
  conv_lhs => rw [h.groups]
  rw [flat_append, flat, List.cons_append]

theorem Found.apart {b : ℤ} (h : t.Found gs key x b) (ht : t.Grouped gs) :
    Apart (nodes (flat h.pre) ++ x :: (h.ds ++ nodes (flat h.post))) :=
  h.nodes_eq ▸ ht.apart

/-- Something put behind the last duplicate of the leader at which a search ends. -/
theorem Found.addAfter_last {b : ℤ} (h : t.Found gs key x b) (ht : t.Grouped gs) (e : Entry κ) :
    addAfter (last x (Entry.behind x t.list)) e t.list =
      flat h.pre ++ ⟨x, true⟩ :: (dups h.ds ++ e :: flat h.post) := by
  have hapart := h.apart ht
  have hapart' : Apart (nodes (flat h.pre ++ ⟨x, true⟩ :: dups h.ds)) := by
    rw [nodes, List.map_append, List.map_cons]
    change Apart (nodes (flat h.pre) ++ x :: nodes (dups h.ds))
    rw [nodes_dups]
    rw [← List.cons_append, ← List.append_assoc, Apart, List.map_append] at hapart
    exact (List.nodup_append.mp hapart).1
  have hbehind : Entry.behind x t.list = dups h.ds ++ flat h.post := by
    rw [h.list_eq ht]
    exact behind_append (e := ⟨x, true⟩) hapart.before
  rw [hbehind, last_dups, h.list_eq ht]
  exact addAfter_getLastD (e := ⟨x, true⟩) hapart'

/-- `avl_insert` returns -1. -/
def Taken (t : Dups κ) (new : Node κ) : Prop :=
  t.allowDups = false ∧ ∃ n ∈ nodes t.list, n.key = new.key

/-- What `avl_insert` does with a node, in a tree that has the nodes before. -/
structure Inserts (t : Dups κ) (new : Node κ) (t' : Dups κ) (r : ℤ) : Prop where
  ok : t'.Ok
  allowDups : t'.allowDups = t.allowDups
  nodes : nodes t'.list = Op.spec t.allowDups (nodes t.list) (.insert new)
  returns : r = -1 ∧ t' = t ∧ t.Taken new ∨ r = 0 ∧ ¬t.Taken new

/-- A node with the key of a leader stands behind its other duplicates. -/
theorem Grouped.join (h : t.Grouped gs) (hnew : ∀ n ∈ nodes (flat gs), n.addr ≠ new.addr) {b : ℤ}
    (hf : t.Found gs new.key x b) (hkey : new.key = x.key) (hdups : t.allowDups = true) :
    Grouped { t with list := flat (hf.pre ++ (x, hf.ds ++ [new]) :: hf.post), count := t.count + 1 }
      (hf.pre ++ (x, hf.ds ++ [new]) :: hf.post) := by
  have hmap : gs.map Prod.fst = (hf.pre ++ (x, hf.ds ++ [new]) :: hf.post).map Prod.fst := by
    conv_lhs => rw [hf.groups]
    rw [List.map_append, List.map_append, List.map_cons, List.map_cons]
  have hnodes : nodes (flat gs) = (nodes (flat hf.pre) ++ x :: hf.ds) ++ nodes (flat hf.post) := by
    rw [hf.nodes_eq, List.append_assoc, List.cons_append]
  have hnodes' : nodes (flat (hf.pre ++ (x, hf.ds ++ [new]) :: hf.post)) =
      (nodes (flat hf.pre) ++ x :: hf.ds) ++ new :: nodes (flat hf.post) := by
    rw [nodes_flat_append, nodes_flat_cons, List.append_assoc, List.append_assoc, List.cons_append,
      List.nil_append]
    rfl
  obtain ⟨hfpre, hfpost⟩ := List.forall_mem_append.mp (hf.groups ▸ h.fits)
  obtain ⟨-, hfpost⟩ := List.forall_mem_cons.mp hfpost
  have hfx : Fits t.allowDups (x, hf.ds ++ [new]) := by
    refine ⟨List.forall_mem_append.mpr ⟨hf.here, ?_⟩, fun hno ↦ ?_⟩
    · simpa using hkey
    · rw [hdups] at hno
      cases hno
  exact h.inserted hnew hnodes hnodes' h.balanced (h.root.trans hmap) (hmap ▸ h.sorted)
    (List.forall_mem_append.mpr ⟨hfpre, List.forall_mem_cons.mpr ⟨hfx, hfpost⟩⟩)

theorem Op.spec_insert_new {allowDups : Bool} {pre post : List (Node κ)}
    (hpre : ∀ n ∈ pre, n.key < new.key) (hpost : ∀ n ∈ post, new.key < n.key) :
    Op.spec allowDups (pre ++ post) (.insert new) = pre ++ new :: post := by
  rw [Op.spec, if_neg, put_append (fun n hn ↦ (hpre n hn).le) hpost]
  rintro ⟨-, n, hn, hkey⟩
  obtain hn | hn := List.mem_append.mp hn
  · exact (hpre n hn).ne hkey
  · exact (hpost n hn).ne' hkey

/-- The outcome for a node with a new key. -/
theorem Grouped.inserts_new (h : t.Grouped gs) (hnew : ∀ n ∈ nodes (flat gs), n.addr ≠ new.addr)
    {gpre gpost : List (Series κ)} (hgs : gs = gpre ++ gpost)
    (hpre : ∀ n ∈ nodes (flat gpre), n.key < new.key)
    (hpost : ∀ n ∈ nodes (flat gpost), new.key < n.key) :
    ∃ root, t.root.insert new = some root ∧
      t.Inserts new
        { t with root, list := flat (gpre ++ (new, []) :: gpost), count := t.count + 1 } 0 := by
  obtain ⟨root, hinsert, hgrouped⟩ := h.lead hnew hgs hpre hpost
  have hnodes : nodes t.list = nodes (flat gpre) ++ nodes (flat gpost) := by
    rw [h.list, hgs, nodes_flat_append]
  refine ⟨root, hinsert, ⟨_, hgrouped⟩, rfl, ?_, .inr ⟨rfl, ?_⟩⟩
  · rw [hnodes, Op.spec_insert_new hpre hpost]
    change nodes (flat (gpre ++ (new, []) :: gpost)) = _
    rw [nodes_flat_append, nodes_flat_cons, List.nil_append]
  · rintro ⟨-, n, hn, hkey⟩
    obtain hn | hn := List.mem_append.mp (hnodes ▸ hn)
    · exact (hpre n hn).ne hkey
    · exact (hpost n hn).ne' hkey

theorem avlInsert_spec (h : t.Grouped gs) (hnew : ∀ n ∈ nodes (flat gs), n.addr ≠ new.addr) :
    ∃ t' r, t.avlInsert new = some (t', r) ∧ t.Inserts new t' r := by
  by_cases hnil : t.root = .nil
  · obtain rfl := h.eq_nil hnil
    have hlist : t.list = [] := h.list
    rw [avlInsert, findRec_eq_none.mpr hnil, hlist]
    refine ⟨_, _, rfl, ⟨[(new, [])], (leaf_balanced new).1, rfl, rfl, by simp [Sorted],
      by simp [Fits], by simp [flat, Apart], rfl⟩, rfl, ?_, .inr ⟨rfl, by simp [Taken, hlist]⟩⟩
    simp [Op.spec, put, hlist]
  · obtain ⟨x, b, ⟨hf⟩⟩ := h.found new.key hnil
    have hnodes : nodes t.list = _ := (congrArg nodes h.list).trans hf.nodes_eq
    rw [avlInsert, hf.find]
    dsimp only
    split_ifs with hkey hdups hside
    · have htaken : t.Taken new :=
        ⟨by simpa using hdups, x, by rw [hnodes]; simp, hkey.symm⟩
      exact ⟨t, -1, rfl, ⟨gs, h⟩, rfl, (if_pos htaken).symm, .inl ⟨rfl, rfl, htaken⟩⟩
    · have hdups' : t.allowDups = true := by simpa using hdups
      have hle : ∀ n ∈ nodes (flat hf.pre) ++ x :: hf.ds, n.key ≤ new.key := by
        intro n hn
        rw [List.mem_append, List.mem_cons] at hn
        obtain hn | rfl | hn := hn
        · exact (hf.before n hn).le
        · exact hkey.ge
        · exact (hf.here n hn).trans_le hkey.ge
      rw [hf.addAfter_last h]
      have hflat : flat hf.pre ++ ⟨x, true⟩ :: (dups hf.ds ++ ⟨new, false⟩ :: flat hf.post) =
          flat (hf.pre ++ (x, hf.ds ++ [new]) :: hf.post) := by
        simp [flat]
      rw [hflat]
      refine ⟨_, _, rfl, ⟨_, h.join hnew hf hkey hdups'⟩, rfl, ?_, .inr ⟨rfl, fun h ↦ ?_⟩⟩
      · rw [Op.spec, if_neg (by simp [hdups']), hnodes, ← List.cons_append, ← List.append_assoc,
          put_append hle hf.behind]
        change nodes (flat (hf.pre ++ (x, hf.ds ++ [new]) :: hf.post)) = _
        rw [nodes_flat_append, nodes_flat_cons, List.append_assoc, List.append_assoc,
          List.cons_append, List.nil_append]
        rfl
      · exact absurd h.1 (by simp [hdups'])
    · -- the new leader stands before the group where the search ended
      have hlt : new.key < x.key := by
        obtain hb | hlt := hside
        · exact (lt_or_gt_of_ne hkey).resolve_right fun hgt ↦ hf.room_right hgt hb
        · exact hlt.2
      have hpost : ∀ n ∈ nodes (flat ((x, hf.ds) :: hf.post)), new.key < n.key := by
        intro n hn
        rw [nodes_flat_cons, List.mem_cons, List.mem_append] at hn
        obtain rfl | hn | hn := hn
        · exact hlt
        · exact hlt.trans_eq (hf.here n hn).symm
        · exact hf.behind n hn
      obtain ⟨root, hinsert, hins⟩ := h.inserts_new hnew hf.groups hf.before hpost
      have hadd : addBefore x ⟨new, true⟩ t.list =
          flat (hf.pre ++ (new, []) :: (x, hf.ds) :: hf.post) := by
        rw [hf.list_eq h, addBefore_append (e := ⟨x, true⟩) (hf.apart h).before]
        simp [flat]
      rw [hinsert, hadd]
      exact ⟨_, _, rfl, hins⟩
    · -- the new leader stands behind the group where the search ended
      have hgt : x.key < new.key := by
        refine (lt_or_gt_of_ne hkey).resolve_left fun hlt ↦ hside ?_
        exact .inr ⟨hf.room_left hlt, hlt⟩
      have hpre : ∀ n ∈ nodes (flat (hf.pre ++ [(x, hf.ds)])), n.key < new.key := by
        intro n hn
        rw [nodes_flat_append, nodes_flat_cons, List.mem_append, List.mem_cons,
          List.mem_append] at hn
        obtain hn | rfl | hn | hn := hn
        · exact hf.before n hn
        · exact hgt
        · exact (hf.here n hn).trans_lt hgt
        · cases hn
      have hgs : gs = (hf.pre ++ [(x, hf.ds)]) ++ hf.post := by
        rw [List.append_assoc, List.singleton_append]
        exact hf.groups
      obtain ⟨root, hinsert, hins⟩ := h.inserts_new hnew hgs hpre hf.behind
      have hadd : addAfter (last x (Entry.behind x t.list)) ⟨new, true⟩ t.list =
          flat (hf.pre ++ [(x, hf.ds)] ++ (new, []) :: hf.post) := by
        rw [hf.addAfter_last h]
        simp [flat]
      rw [hinsert, hadd]
      exact ⟨_, _, rfl, hins⟩

/-! ## Deletion -/

omit [LinearOrder κ] in
/-- A node of the list is a leader or one of the duplicates behind it. -/
theorem exists_series {gs : List (Series κ)} (hx : x ∈ nodes (flat gs)) :
    ∃ pre y ds post, gs = pre ++ (y, ds) :: post ∧ (x = y ∨ x ∈ ds) := by
  induction gs with
  | nil => cases hx
  | cons g gs ih =>
      obtain ⟨y, ds⟩ := g
      rw [nodes_flat_cons, List.mem_cons, List.mem_append] at hx
      obtain hx | hx | hx := hx
      · exact ⟨[], y, ds, gs, rfl, .inl hx⟩
      · exact ⟨[], y, ds, gs, rfl, .inr hx⟩
      · obtain ⟨pre, y', ds', post, rfl, hx'⟩ := ih hx
        exact ⟨(y, ds) :: pre, y', ds', post, rfl, hx'⟩

/-- A node is taken out of the list, and the series are in order. -/
theorem Grouped.deleted (h : t.Grouped gs) {gs' : List (Series κ)} {pre post : List (Node κ)}
    {root : AvlTree κ} (hlist : nodes (flat gs) = pre ++ x :: post)
    (hlist' : nodes (flat gs') = pre ++ post) (hbal : root.Balanced)
    (hroot : root.toList = gs'.map Prod.fst) (hsorted : Sorted (gs'.map Prod.fst))
    (hfits : ∀ g ∈ gs', Fits t.allowDups g) :
    Grouped { t with root, list := flat gs', count := t.count - 1 } gs' := by
  refine ⟨hbal, rfl, hroot, hsorted, hfits, ?_, ?_⟩
  · have hapart := h.apart
    rw [hlist] at hapart
    exact hlist' ▸ hapart.del
  · have hlen : (flat gs).length = (flat gs').length + 1 := by
      rw [length_flat, length_flat, hlist, hlist', List.length_append, List.length_append,
        List.length_cons, Nat.add_assoc]
    rw [h.count, hlen, BitVec.ofNat_add]
    exact BitVec.add_sub_cancel _ _

/-- The tree and the list without a node. -/
structure Deletes (t : Dups κ) (x : Node κ) (t' : Dups κ) : Prop where
  ok : t'.Ok
  allowDups : t'.allowDups = t.allowDups
  nodes : nodes t'.list = Op.spec t.allowDups (nodes t.list) (.delete x)

theorem Grouped.deletes (h : t.Grouped gs) {gs' : List (Series κ)} {pre post : List (Node κ)}
    {root : AvlTree κ} (hlist : nodes (flat gs) = pre ++ x :: post)
    (hlist' : nodes (flat gs') = pre ++ post) (hbal : root.Balanced)
    (hroot : root.toList = gs'.map Prod.fst) (hsorted : Sorted (gs'.map Prod.fst))
    (hfits : ∀ g ∈ gs', Fits t.allowDups g) :
    t.Deletes x { t with root, list := flat gs', count := t.count - 1 } := by
  refine ⟨⟨gs', h.deleted hlist hlist' hbal hroot hsorted hfits⟩, rfl, ?_⟩
  have hapart := h.apart
  rw [hlist] at hapart
  rw [Op.spec, h.list, hlist, hapart.filter]
  exact hlist'

/-- A duplicate that is not a leader only leaves the list. -/
theorem Grouped.delete_dup (h : t.Grouped gs) {pre post : List (Series κ)} {y : Node κ}
    {ds ds' : List (Node κ)} (hgs : gs = pre ++ (y, ds ++ x :: ds') :: post) :
    ∃ t', t.avlDelete x = some t' ∧ t.Deletes x t' := by
  subst hgs
  have hnodes : nodes (flat (pre ++ (y, ds ++ x :: ds') :: post)) =
      (nodes (flat pre) ++ y :: ds) ++ x :: (ds' ++ nodes (flat post)) := by
    rw [nodes_flat_append, nodes_flat_cons, List.append_assoc, List.append_assoc]
    rfl
  have hapart := h.apart
  rw [hnodes] at hapart
  have hlist : t.list = (flat pre ++ ⟨y, true⟩ :: dups ds) ++ ⟨x, false⟩ ::
      (dups ds' ++ flat post) := by
    rw [h.list]
    simp [flat]
  have hbefore : ∀ n ∈ nodes (flat pre ++ ⟨y, true⟩ :: dups ds), n.addr ≠ x.addr := by
    rw [nodes, List.map_append, List.map_cons]
    exact fun n hn ↦ hapart.before n (by rwa [← nodes_dups ds])
  have hfind : t.list.find? (fun e ↦ e.node.addr = x.addr) = some ⟨x, false⟩ := by
    rw [hlist]
    exact find?_append (e := ⟨x, false⟩) hbefore
  have hdel : del x t.list = flat (pre ++ (y, ds ++ ds') :: post) := by
    rw [hlist, del_append (e := ⟨x, false⟩) hbefore]
    simp [flat]
  have hnodes' : nodes (flat (pre ++ (y, ds ++ ds') :: post)) =
      (nodes (flat pre) ++ y :: ds) ++ (ds' ++ nodes (flat post)) := by
    rw [nodes_flat_append, nodes_flat_cons, List.append_assoc, List.append_assoc]
    rfl
  have hmap : (pre ++ (y, ds ++ x :: ds') :: post).map Prod.fst =
      (pre ++ (y, ds ++ ds') :: post).map Prod.fst := by
    rw [List.map_append, List.map_append, List.map_cons, List.map_cons]
  obtain ⟨hfpre, hfpost⟩ := List.forall_mem_append.mp h.fits
  obtain ⟨hfx, hfpost⟩ := List.forall_mem_cons.mp hfpost
  have hfy : Fits t.allowDups (y, ds ++ ds') := by
    refine ⟨fun d hd ↦ hfx.1 d ?_, fun hno ↦ absurd (hfx.2 hno) (by simp)⟩
    rw [List.mem_append] at hd
    rw [List.mem_append, List.mem_cons]
    tauto
  refine ⟨_, ?_, h.deletes hnodes hnodes' h.balanced (h.root.trans hmap) (hmap ▸ h.sorted)
    (List.forall_mem_append.mpr ⟨hfpre, List.forall_mem_cons.mpr ⟨hfy, hfpost⟩⟩)⟩
  rw [avlDelete, hfind, Option.bind_eq_bind, Option.bind_some, if_neg (by simp), hdel]

/-- A leader in its place: the list and the tree around it. -/
theorem Grouped.leader (h : t.Grouped gs) {pre post : List (Series κ)} {ds : List (Node κ)}
    (hgs : gs = pre ++ (x, ds) :: post) :
    t.list = flat pre ++ ⟨x, true⟩ :: (dups ds ++ flat post) ∧
      nodes (flat gs) = nodes (flat pre) ++ x :: (ds ++ nodes (flat post)) ∧
      t.root.toList = pre.map Prod.fst ++ x :: post.map Prod.fst := by
  subst hgs
  refine ⟨?_, ?_, ?_⟩
  · rw [h.list, flat_append, flat, List.cons_append]
  · rw [nodes_flat_append, nodes_flat_cons]
  · rw [h.root, List.map_append, List.map_cons]

/-- A leader without duplicates leaves the tree. -/
theorem Grouped.delete_leader (h : t.Grouped gs) {pre post : List (Series κ)}
    (hgs : gs = pre ++ (x, []) :: post) : ∃ t', t.avlDelete x = some t' ∧ t.Deletes x t' := by
  obtain ⟨hlist, hnodes, hroot⟩ := h.leader hgs
  have hapart := h.apart
  rw [hnodes] at hapart
  have hs : Sorted t.root.toList := h.root ▸ h.sorted
  have hfind : t.list.find? (fun e ↦ e.node.addr = x.addr) = some ⟨x, true⟩ := by
    rw [hlist]
    exact find?_append (e := ⟨x, true⟩) hapart.before
  have hbehind : behind x t.list = flat post := by
    rw [hlist]
    exact behind_append (e := ⟨x, true⟩) hapart.before
  have hdel : del x t.list = flat (pre ++ post) := by
    rw [hlist, flat_append]
    exact del_append (e := ⟨x, true⟩) hapart.before
  obtain ⟨root, hdelete, hbal, hrest⟩ := delete_spec (n := x) h.balanced hs (by rw [hroot]; simp)
  have hroot' : root.toList = (pre ++ post).map Prod.fst := by
    rw [Sorted, hroot, List.pairwise_append, List.pairwise_cons] at hs
    obtain ⟨-, ⟨hpost, -⟩, hpre⟩ := hs
    have hprex : ∀ n ∈ pre.map Prod.fst, n.key ≠ x.key := fun n hn ↦ (hpre n hn x (.head _)).ne
    have hpostx : ∀ n ∈ post.map Prod.fst, n.key ≠ x.key := fun n hn ↦ (hpost n hn).ne'
    rw [hrest, hroot, List.filter_append, List.filter_cons_of_neg (by simp), filter_of_ne hprex,
      filter_of_ne hpostx, List.map_append]
  have hsorted : Sorted ((pre ++ post).map Prod.fst) := hroot' ▸ hrest ▸ hs.filter _
  obtain ⟨hfpre, hfpost⟩ := List.forall_mem_append.mp (hgs ▸ h.fits)
  obtain ⟨-, hfpost⟩ := List.forall_mem_cons.mp hfpost
  refine ⟨_, ?_, h.deletes hnodes (nodes_flat_append pre post) hbal hroot' hsorted
    (List.forall_mem_append.mpr ⟨hfpre, hfpost⟩)⟩
  rw [avlDelete, hfind, hbehind, hdel, hdelete]
  -- what stands behind the leader, if anything, is the next one
  cases post with
  | nil => cases t.allowDups <;> rfl
  | cons g post => cases t.allowDups <;> rfl

/-- The first duplicate of a leader takes its place, in the tree and in the list. -/
theorem Grouped.delete_promote (h : t.Grouped gs) {pre post : List (Series κ)} {d : Node κ}
    {ds : List (Node κ)} (hgs : gs = pre ++ (x, d :: ds) :: post) :
    ∃ t', t.avlDelete x = some t' ∧ t.Deletes x t' := by
  obtain ⟨hlist, hnodes, hroot⟩ := h.leader hgs
  obtain ⟨hfpre, hfpost⟩ := List.forall_mem_append.mp (hgs ▸ h.fits)
  obtain ⟨⟨hkeys, hsingle⟩, hfpost⟩ := List.forall_mem_cons.mp hfpost
  obtain ⟨hkey, hkeys⟩ := List.forall_mem_cons.mp hkeys
  have hdups : t.allowDups = true := by
    by_contra hno
    exact absurd (hsingle (by simpa using hno)) (by simp)
  have hfd : Fits t.allowDups (d, ds) :=
    ⟨fun d' hd' ↦ (hkeys d' hd').trans hkey.symm, fun hno ↦ by rw [hdups] at hno; cases hno⟩
  have hapart := h.apart
  rw [hnodes] at hapart
  have hapartd : Apart ((nodes (flat pre) ++ [x]) ++ d :: (ds ++ nodes (flat post))) := by
    rw [List.append_assoc]
    exact hapart
  have hlist' : t.list = (flat pre ++ [⟨x, true⟩]) ++ ⟨d, false⟩ :: (dups ds ++ flat post) := by
    rw [hlist, List.append_assoc]
    rfl
  have hfind : t.list.find? (fun e ↦ e.node.addr = x.addr) = some ⟨x, true⟩ := by
    rw [hlist]
    exact find?_append (e := ⟨x, true⟩) hapart.before
  have hbehind : behind x t.list = ⟨d, false⟩ :: (dups ds ++ flat post) := by
    rw [hlist]
    exact behind_append (e := ⟨x, true⟩) hapart.before
  have hpromote : promote d t.list = flat pre ++ ⟨x, true⟩ :: ⟨d, true⟩ ::
      (dups ds ++ flat post) := by
    rw [hlist', promote_append (e := ⟨d, false⟩), List.append_assoc]
    · rfl
    · rw [nodes, List.map_append]
      exact hapartd.before
    · rw [nodes, List.map_append]
      exact fun n hn ↦ hapartd.behind n (by rwa [← nodes_dups ds])
  have hdel : del x (promote d t.list) = flat (pre ++ (d, ds) :: post) := by
    rw [hpromote, flat_append, flat, List.cons_append]
    exact del_append (e := ⟨x, true⟩) hapart.before
  have hnodes' : nodes (flat (pre ++ (d, ds) :: post)) = nodes (flat pre) ++
      (d :: ds ++ nodes (flat post)) := by
    rw [nodes_flat_append, nodes_flat_cons]
    rfl
  have hroot' : (t.root.replace x d).toList = (pre ++ (d, ds) :: post).map Prod.fst := by
    have hpre : ∀ n ∈ pre.map Prod.fst, (if n.addr = x.addr then d else n) = n := fun n hn ↦
      if_neg (hapart.before n (mem_nodes_flat hn))
    have hpost : ∀ n ∈ post.map Prod.fst, (if n.addr = x.addr then d else n) = n := fun n hn ↦
      if_neg (hapart.behind n (List.mem_append_right _ (mem_nodes_flat hn)))
    rw [toList_replace, hroot, List.map_append, List.map_cons, if_pos rfl, List.map_congr_left hpre,
      List.map_congr_left hpost, List.map_id', List.map_id', List.map_append, List.map_cons]
  have hsorted : Sorted ((pre ++ (d, ds) :: post).map Prod.fst) := by
    have hs := h.sorted
    rw [Sorted, ← List.pairwise_map (f := Node.key) (R := (· < ·))] at hs ⊢
    rw [hgs] at hs
    simpa [hkey] using hs
  refine ⟨_, ?_, h.deletes hnodes hnodes' (h.balanced.replace x d) hroot' hsorted
    (List.forall_mem_append.mpr ⟨hfpre, List.forall_mem_cons.mpr ⟨hfd, hfpost⟩⟩)⟩
  · rw [avlDelete, hfind, Option.bind_eq_bind, Option.bind_some, hbehind, hdups]
    exact congrArg (fun l ↦ some (⟨t.root.replace x d, l, t.count - 1, true⟩ : Dups κ)) hdel

theorem avlDelete_spec (h : t.Grouped gs) (hx : x ∈ nodes t.list) :
    ∃ t', t.avlDelete x = some t' ∧ t.Deletes x t' := by
  obtain ⟨pre, y, ds, post, hgs, hx⟩ := exists_series (h.list ▸ hx)
  obtain rfl | hx := hx
  · cases ds with
    | nil => exact h.delete_leader hgs
    | cons d ds => exact h.delete_promote hgs
  · obtain ⟨ds₁, ds₂, rfl⟩ := List.append_of_mem hx
    exact h.delete_dup hgs

/-! ## Searching -/

section Search

variable {before l : List (Node κ)}

/-- The nodes are in the order of their keys, which may be the same. -/
abbrev Ordered (l : List (Node κ)) : Prop := l.Pairwise fun n n' ↦ n.key ≤ n'.key

theorem ordered_flat {gs : List (Series κ)} {allowDups : Bool} (hs : Sorted (gs.map Prod.fst))
    (hfits : ∀ g ∈ gs, Fits allowDups g) : Ordered (nodes (flat gs)) := by
  induction gs with
  | nil => exact .nil
  | cons g gs ih =>
      obtain ⟨x, ds⟩ := g
      obtain ⟨hx, hs⟩ := List.pairwise_cons.mp hs
      obtain ⟨⟨hds, -⟩, hfits⟩ := List.forall_mem_cons.mp hfits
      have hrest : ∀ n ∈ nodes (flat gs), x.key ≤ n.key := by
        intro n hn
        obtain ⟨y, hy, hkey⟩ := exists_key hfits hn
        exact hkey ▸ (hx y hy).le
      have hsame : Ordered ds := List.pairwise_of_forall_mem_list fun n hn n' hn' ↦
        ((hds n hn).trans (hds n' hn').symm).le
      rw [nodes_flat_cons, Ordered, List.pairwise_cons, List.pairwise_append]
      refine ⟨fun n hn ↦ ?_, hsame, ih hs hfits, fun n hn n' hn' ↦ ?_⟩
      · obtain hn | hn := List.mem_append.mp hn
        · exact (hds n hn).ge
        · exact hrest n hn
      · exact (hds n hn).trans_le (hrest n' hn')

theorem Grouped.ordered (h : t.Grouped gs) : Ordered (nodes t.list) :=
  h.list ▸ ordered_flat h.sorted h.fits

omit [LinearOrder κ] in
theorem place_append {pre post : List (Node κ)} (hpre : ∀ n ∈ pre, n.addr ≠ x.addr) :
    place x before (pre ++ x :: post) = some ⟨pre.reverse ++ before, x, post⟩ := by
  induction pre generalizing before with
  | nil => exact if_pos rfl
  | cons p pre ih =>
      obtain ⟨hp, hpre⟩ := List.forall_mem_cons.mp hpre
      rw [List.cons_append, place, if_neg hp, ih hpre, List.reverse_cons, List.append_assoc,
        List.singleton_append]

/-- The list that a place is in. -/
def Place.list (p : Place κ) : List (Node κ) := p.before.reverse ++ p.node :: p.behind

/-- The walk to the left ends at a node that is not greater, or all nodes are. -/
theorem leftWhileLt_spec (hl : Ordered (before.reverse ++ x :: l)) :
    (leftWhileLt key before x l = none ∧ ∀ n ∈ before.reverse ++ x :: l, key < n.key) ∨
      ∃ p, leftWhileLt key before x l = some p ∧ p.list = before.reverse ++ x :: l ∧
      p.node.key ≤ key := by
  induction before generalizing x l with
  | nil =>
      rw [leftWhileLt.eq_def]
      dsimp only
      split_ifs with hlt
      · refine .inl ⟨rfl, fun n hn ↦ ?_⟩
        obtain rfl | hn := List.mem_cons.mp hn
        · exact hlt
        · exact hlt.trans_le ((List.pairwise_cons.mp hl).1 n hn)
      · exact .inr ⟨_, rfl, rfl, not_lt.mp hlt⟩
  | cons prev before ih =>
      rw [leftWhileLt.eq_def]
      dsimp only
      split_ifs with hlt
      · rw [List.reverse_cons, List.append_assoc, List.singleton_append] at hl ⊢
        exact ih hl
      · exact .inr ⟨_, rfl, rfl, not_lt.mp hlt⟩

/-- The walk to the right ends at a node that is not less, or all nodes are. -/
theorem rightWhileGt_spec (hl : Ordered (before.reverse ++ x :: l)) :
    (rightWhileGt key before x l = none ∧ ∀ n ∈ before.reverse ++ x :: l, n.key < key) ∨
      ∃ p, rightWhileGt key before x l = some p ∧ p.list = before.reverse ++ x :: l ∧
      key ≤ p.node.key := by
  induction l generalizing x before with
  | nil =>
      rw [rightWhileGt.eq_def]
      dsimp only
      split_ifs with hlt
      · refine .inl ⟨rfl, fun n hn ↦ ?_⟩
        obtain hn | hn := List.mem_append.mp hn
        · exact ((List.pairwise_append.mp hl).2.2 n hn x (.head _)).trans_lt hlt
        · rwa [List.mem_singleton.mp hn]
      · exact .inr ⟨_, rfl, rfl, not_lt.mp hlt⟩
  | cons next l ih =>
      rw [rightWhileGt.eq_def]
      dsimp only
      split_ifs with hlt
      · have hl' : Ordered ((x :: before).reverse ++ next :: l) := by
          rw [List.reverse_cons, List.append_assoc, List.singleton_append]
          exact hl
        have hrec := ih hl'
        rw [List.reverse_cons, List.append_assoc, List.singleton_append] at hrec
        exact hrec
      · exact .inr ⟨_, rfl, rfl, not_lt.mp hlt⟩

theorem rightWhileGe_spec (hl : Ordered (x :: l)) (hx : x.key ≤ key) :
    ((x :: l).filter (·.key ≤ key)).getLast? = some (rightWhileGe key x l) := by
  induction l generalizing x with
  | nil => simp [rightWhileGe, hx]
  | cons next l ih =>
      obtain ⟨hxl, hl⟩ := List.pairwise_cons.mp hl
      rw [rightWhileGe]
      split_ifs with hle
      · rw [List.filter_cons_of_pos (by simpa using hx), ← ih hl hle,
          List.filter_cons_of_pos (by simpa using hle), List.getLast?_cons_cons]
      · have hnone : (next :: l).filter (·.key ≤ key) = [] := by
          rw [List.filter_eq_nil_iff]
          intro n hn hn'
          obtain rfl | hn := List.mem_cons.mp hn
          · exact hle (by simpa using hn')
          · exact hle (((List.pairwise_cons.mp hl).1 n hn).trans (by simpa using hn'))
        rw [List.filter_cons_of_pos (by simpa using hx), hnone]
        rfl

theorem leftWhileLe_spec (hl : Ordered (before.reverse ++ [x])) (hx : key ≤ x.key) :
    (before.reverse ++ [x]).find? (fun n ↦ key ≤ n.key) = some (leftWhileLe key x before) := by
  induction before generalizing x with
  | nil => simp [leftWhileLe, hx]
  | cons next before ih =>
      rw [List.reverse_cons] at hl ⊢
      obtain ⟨hl, -, hlx⟩ := List.pairwise_append.mp hl
      rw [leftWhileLe, List.find?_append]
      split_ifs with hle
      · rw [ih hl hle, Option.some_or]
      · have hnone : (before.reverse ++ [next]).find? (fun n ↦ key ≤ n.key) = none := by
          rw [List.find?_eq_none]
          intro n hn hn'
          obtain hn | hn := List.mem_append.mp hn
          · exact hle ((of_decide_eq_true hn').trans
              ((List.pairwise_append.mp hl).2.2 n hn next (.head _)))
          · rw [List.mem_singleton.mp hn] at hn'
            exact hle (of_decide_eq_true hn')
        rw [hnone, Option.none_or]
        simp [hx]

/-- `avl_find` finds the first of the nodes with the key. -/
theorem Grouped.avlFind_eq (h : t.Grouped gs) (key : κ) :
    t.avlFind key = (nodes t.list).find? fun n ↦ n.key = key := by
  by_cases hnil : t.root = .nil
  · rw [avlFind, findRec_eq_none.mpr hnil, h.list, h.eq_nil hnil]
    rfl
  · obtain ⟨x, b, ⟨hf⟩⟩ := h.found key hnil
    have hbefore : (nodes (flat hf.pre)).find? (fun n ↦ n.key = key) = none :=
      List.find?_eq_none.mpr fun n hn ↦ by simpa using (hf.before n hn).ne
    rw [avlFind, hf.find, h.list, hf.nodes_eq, List.find?_append, hbefore, Option.none_or,
      Option.bind_some]
    dsimp only
    split_ifs with hkey
    · rw [List.find?_cons_of_pos (by simpa using hkey.symm)]
    · have hbehind : ∀ n ∈ x :: (hf.ds ++ nodes (flat hf.post)), n.key ≠ key := by
        intro n hn
        rw [List.mem_cons, List.mem_append] at hn
        obtain rfl | hn | hn := hn
        · exact Ne.symm hkey
        · exact (hf.here n hn).trans_ne (Ne.symm hkey)
        · exact (hf.behind n hn).ne'
      exact (List.find?_eq_none.mpr fun n hn ↦ by simpa using hbehind n hn).symm

/-- The place in the list where the search in the tree ends. -/
theorem Grouped.place_eq (h : t.Grouped gs) (key : κ) (hnil : t.root ≠ .nil) :
    ∃ x b before behind, t.root.findRec key = some (x, b) ∧
      place x [] (nodes t.list) = some ⟨before, x, behind⟩ ∧
      nodes t.list = before.reverse ++ x :: behind := by
  obtain ⟨x, b, ⟨hf⟩⟩ := h.found key hnil
  have hnodes : nodes t.list = _ := (congrArg nodes h.list).trans hf.nodes_eq
  refine ⟨x, b, (nodes (flat hf.pre)).reverse, hf.ds ++ nodes (flat hf.post), hf.find, ?_, ?_⟩
  · rw [hnodes, place_append (hf.apart h).before, List.append_nil]
  · rw [hnodes, List.reverse_reverse]

/-- `avl_find_lessequal` finds the last of the nodes that are not greater. -/
theorem Grouped.avlFindLessequal_eq (h : t.Grouped gs) (key : κ) :
    t.avlFindLessequal key = some ((nodes t.list).filter (·.key ≤ key)).getLast? := by
  by_cases hnil : t.root = .nil
  · rw [avlFindLessequal, findRec_eq_none.mpr hnil, h.list, h.eq_nil hnil]
    rfl
  · obtain ⟨x, b, before, behind, hfind, hplace, hnodes⟩ := h.place_eq key hnil
    have hordered : Ordered (before.reverse ++ x :: behind) := hnodes ▸ h.ordered
    rw [avlFindLessequal, hfind]
    dsimp only
    rw [hplace, hnodes, Option.map_some]
    dsimp only
    obtain ⟨hnone, hall⟩ | ⟨p, hp, hlist, hle⟩ := leftWhileLt_spec hordered
    · have hempty : (before.reverse ++ x :: behind).filter (·.key ≤ key) = [] :=
        List.filter_eq_nil_iff.mpr fun n hn ↦ by simpa using hall n hn
      rw [hnone, hempty]
      rfl
    · have hlast := rightWhileGe_spec
        (List.pairwise_append.mp (hlist ▸ hordered : Ordered p.list)).2.1 hle
      rw [hp, Option.map_some, ← hlist, Place.list, List.filter_append, List.getLast?_append, hlast,
        Option.some_or]

/-- `avl_find_greaterequal` finds the first of the nodes that are not less. -/
theorem Grouped.avlFindGreaterequal_eq (h : t.Grouped gs) (key : κ) :
    t.avlFindGreaterequal key = some ((nodes t.list).find? fun n ↦ key ≤ n.key) := by
  by_cases hnil : t.root = .nil
  · rw [avlFindGreaterequal, findRec_eq_none.mpr hnil, h.list, h.eq_nil hnil]
    rfl
  · obtain ⟨x, b, before, behind, hfind, hplace, hnodes⟩ := h.place_eq key hnil
    have hordered : Ordered (before.reverse ++ x :: behind) := hnodes ▸ h.ordered
    rw [avlFindGreaterequal, hfind]
    dsimp only
    rw [hplace, hnodes, Option.map_some]
    dsimp only
    obtain ⟨hnone, hall⟩ | ⟨p, hp, hlist, hle⟩ := rightWhileGt_spec hordered
    · have hempty : (before.reverse ++ x :: behind).find? (fun n ↦ key ≤ n.key) = none :=
        List.find?_eq_none.mpr fun n hn ↦ by simpa using hall n hn
      rw [hnone, hempty]
      rfl
    · have hordered' : Ordered p.list := hlist ▸ hordered
      rw [Place.list, ← List.singleton_append, ← List.append_assoc] at hordered'
      have hfirst := leftWhileLe_spec (List.pairwise_append.mp hordered').1 hle
      rw [hp, Option.map_some, ← hlist, Place.list, ← List.singleton_append, ← List.append_assoc,
        List.find?_append, hfirst, Option.some_or]

end Search

/-! ## Runs -/

/-- The calls, one after the other. -/
def run (t : Dups κ) : List (Op κ) → Option (Dups κ)
  | [] => some t
  | op :: ops => (t.step op).bind fun t ↦ t.run ops

/-- Each call of a run is legal. -/
def LegalRun (allowDups : Bool) : List (Node κ) → List (Op κ) → Prop
  | _, [] => True
  | l, op :: ops => op.Legal l ∧ LegalRun allowDups (op.spec allowDups l) ops

theorem step_spec (ht : t.Ok) {op : Op κ} (hop : op.Legal (nodes t.list)) :
    ∃ t', t.step op = some t' ∧ t'.Ok ∧ t'.allowDups = t.allowDups ∧
      nodes t'.list = op.spec t.allowDups (nodes t.list) := by
  obtain ⟨gs, h⟩ := ht
  cases op with
  | insert new =>
      obtain ⟨t', r, hinsert, hins⟩ := avlInsert_spec h (h.list ▸ hop)
      exact ⟨t', congrArg (Option.map Prod.fst) hinsert, hins.ok, hins.allowDups, hins.nodes⟩
  | delete x =>
      obtain ⟨t', hdelete, hdel⟩ := avlDelete_spec h hop
      exact ⟨t', hdelete, hdel.ok, hdel.allowDups, hdel.nodes⟩

theorem run_spec (ht : t.Ok) {ops : List (Op κ)} (hops : LegalRun t.allowDups (nodes t.list) ops) :
    ∃ t', t.run ops = some t' ∧ t'.Ok ∧ t'.allowDups = t.allowDups ∧
      nodes t'.list = ops.foldl (Op.spec t.allowDups) (nodes t.list) := by
  induction ops generalizing t with
  | nil => exact ⟨t, rfl, ht, rfl, rfl⟩
  | cons op ops ih =>
      obtain ⟨hop, hops⟩ := hops
      obtain ⟨t₁, hstep, ht₁, hdups₁, hnodes₁⟩ := step_spec ht hop
      rw [← hnodes₁, ← hdups₁] at hops
      obtain ⟨t', hrun, ht', hdups, hnodes⟩ := ih ht₁ hops
      refine ⟨t', ?_, ht', hdups.trans hdups₁, ?_⟩
      · rw [run, hstep, Option.bind_some, hrun]
      · rw [hnodes, hnodes₁, hdups₁, List.foldl_cons]

omit [LinearOrder κ] in
theorem filter_leader_flat (gs : List (Series κ)) :
    ((flat gs).filter Entry.leader).map Entry.node = gs.map Prod.fst := by
  induction gs with
  | nil => rfl
  | cons g gs ih =>
      obtain ⟨x, ds⟩ := g
      have hds : (dups ds).filter Entry.leader = [] := by
        rw [List.filter_eq_nil_iff]
        intro e he
        obtain ⟨d, -, rfl⟩ := List.mem_map.mp he
        simp
      rw [flat, List.cons_append, List.filter_cons_of_pos rfl, List.filter_append, hds,
        List.nil_append, List.map_cons, ih, List.map_cons]

/-- The marks of the entries: the leaders are the first ones with their keys. -/
theorem leader_iff {gs : List (Series κ)} {allowDups : Bool} (hs : Sorted (gs.map Prod.fst))
    (hfits : ∀ g ∈ gs, Fits allowDups g) {pre post : List (Entry κ)} {e : Entry κ}
    (hl : flat gs = pre ++ e :: post) : e.leader = true ↔ ∀ n ∈ nodes pre, n.key ≠ e.node.key := by
  induction gs generalizing pre with
  | nil => simp [flat] at hl
  | cons g gs ih =>
      obtain ⟨x, ds⟩ := g
      obtain ⟨hx, hs⟩ := List.pairwise_cons.mp hs
      obtain ⟨⟨hds, -⟩, hfits⟩ := List.forall_mem_cons.mp hfits
      rw [flat, List.cons_append] at hl
      cases pre with
      | nil =>
          obtain ⟨rfl, -⟩ := List.cons.inj hl
          simp
      | cons p pre =>
          rw [List.cons_append] at hl
          obtain ⟨hp, hl'⟩ := List.cons.inj hl
          subst hp
          have hbehind {as : List (Entry κ)} (hpre : pre = dups ds ++ as) (hrest : flat gs = as ++
            e :: post) :
              e.leader = true ↔ ∀ n ∈ nodes (⟨x, true⟩ :: pre), n.key ≠ e.node.key := by
            have he : e.node ∈ nodes (flat gs) := by simp [hrest]
            obtain ⟨y, hy, hkey⟩ := exists_key hfits he
            have hlt : x.key < e.node.key := hkey ▸ hx y hy
            have hdse : ∀ n ∈ ds, n.key ≠ e.node.key := fun n hn ↦ ((hds n hn).trans_lt hlt).ne
            have hnodes : nodes (⟨x, true⟩ :: pre) = x :: (ds ++ nodes as) := by
              rw [hpre, nodes, List.map_cons, List.map_append]
              exact congrArg (fun l ↦ x :: (l ++ nodes as)) (nodes_dups ds)
            rw [ih hs hfits hrest, hnodes, List.forall_mem_cons, List.forall_mem_append]
            exact ⟨fun h ↦ ⟨hlt.ne, hdse, h⟩, fun h ↦ h.2.2⟩
          obtain ⟨as, hpre, hrest⟩ | ⟨as, hdups, hrest⟩ := List.append_eq_append_iff.mp hl'
          · exact hbehind hpre hrest
          · cases as with
            | nil =>
                have hpre : pre = dups ds ++ [] := by rw [hdups, List.append_nil, List.append_nil]
                exact hbehind hpre hrest.symm
            | cons e' as =>
                obtain ⟨rfl, -⟩ := List.cons.inj hrest
                have he : e ∈ dups ds := by rw [hdups]; simp
                obtain ⟨d, hd, rfl⟩ := List.mem_map.mp he
                refine ⟨fun h ↦ (Bool.false_ne_true h).elim, fun h ↦ ?_⟩
                exact absurd (hds d hd).symm (h x (.head _))

/-- Whatever nodes are put in and taken out, no step of a rotation is missing, the list is in order
with the nodes of one key in the order they came in, and the tree is a balanced search tree of the
first ones. -/
theorem avlInit_run {allowDups : Bool} {ops : List (Op κ)} (hops : LegalRun allowDups [] ops) :
    ∃ t, (avlInit allowDups).run ops = some t ∧
      nodes t.list = ops.foldl (Op.spec allowDups) [] ∧ Ordered (nodes t.list) ∧
      t.count = BitVec.ofNat 32 t.list.length ∧
      t.root.Balanced ∧ Sorted t.root.toList ∧
      t.root.toList = (t.list.filter Entry.leader).map Entry.node ∧
      ∀ pre e post, t.list = pre ++ e :: post →
        (e.leader = true ↔ ∀ n ∈ nodes pre, n.key ≠ e.node.key) := by
  obtain ⟨t, hrun, ⟨gs, h⟩, -, hnodes⟩ := run_spec (avlInit_ok allowDups) hops
  refine ⟨t, hrun, hnodes, h.ordered, ?_, h.balanced, h.root ▸ h.sorted, ?_, fun pre e post hl ↦ ?_⟩
  · rw [h.list]
    exact h.count
  · rw [h.root, h.list, filter_leader_flat]
  · exact leader_iff h.sorted h.fits (h.list.symm.trans hl)

/-- The searches after any run, and what the next insertion returns. -/
theorem avlFind_run {allowDups : Bool} {ops : List (Op κ)} (hops : LegalRun allowDups [] ops) :
    ∃ t, (avlInit allowDups).run ops = some t ∧
      (∀ key, t.avlFind key = (nodes t.list).find? (fun n ↦ n.key = key) ∧
        t.avlFindLessequal key = some ((nodes t.list).filter (·.key ≤ key)).getLast? ∧
        t.avlFindGreaterequal key = some ((nodes t.list).find? fun n ↦ key ≤ n.key)) ∧
      ∀ new, (∀ n ∈ nodes t.list, n.addr ≠ new.addr) → ∃ t' r, t.avlInsert new = some (t', r) ∧
        (r = -1 ∧ t' = t ∧ allowDups = false ∧ (∃ n ∈ nodes t.list, n.key = new.key) ∨
          r = 0 ∧ (allowDups = true ∨ ∀ n ∈ nodes t.list, n.key ≠ new.key) ∧
          nodes t'.list = put new (nodes t.list)) := by
  obtain ⟨t, hrun, ⟨gs, h⟩, hdups, -⟩ := run_spec (avlInit_ok allowDups) hops
  refine ⟨t, hrun, fun key ↦ ⟨h.avlFind_eq key, h.avlFindLessequal_eq key,
    h.avlFindGreaterequal_eq key⟩, fun new hnew ↦ ?_⟩
  obtain ⟨t', r, hinsert, hins⟩ := avlInsert_spec h (h.list ▸ hnew)
  have hdups' : t.allowDups = allowDups := hdups
  refine ⟨t', r, hinsert, ?_⟩
  obtain ⟨hr, heq, htaken⟩ | ⟨hr, htaken⟩ := hins.returns
  · exact .inl ⟨hr, heq, hdups' ▸ htaken.1, htaken.2⟩
  · refine .inr ⟨hr, ?_, hins.nodes.trans (if_neg htaken)⟩
    cases hno : allowDups with
    | true => exact .inl rfl
    | false => exact .inr fun n hn hkey ↦ htaken ⟨hdups'.trans hno, n, hn, hkey⟩

/-- Two nodes with the key 5, the first taken out again, and one with the key 3. -/
def someOps : List (Op ℕ) :=
  [.insert ⟨0, 5⟩, .insert ⟨1, 5⟩, .delete ⟨0, 5⟩, .insert ⟨2, 3⟩]

theorem someOps_legal : LegalRun true [] someOps := by
  simp [someOps, LegalRun, Op.Legal, Op.spec, put]

theorem avlInit_run_some :
    ∃ t : Dups ℕ, (avlInit true).run someOps = some t ∧ nodes t.list = [⟨2, 3⟩, ⟨1, 5⟩] := by
  obtain ⟨t, hrun, hnodes, -⟩ := avlInit_run someOps_legal
  exact ⟨t, hrun, hnodes.trans (by decide)⟩

theorem avlFind_run_some :
    ∃ t : Dups ℕ, (avlInit true).run someOps = some t ∧
      t.avlFindLessequal 4 = some ((nodes t.list).filter (·.key ≤ 4)).getLast? := by
  obtain ⟨t, hrun, hfind, -⟩ := avlFind_run someOps_legal
  exact ⟨t, hrun, (hfind 4).2.1⟩

end Dups

end MiniPi.Vlist
