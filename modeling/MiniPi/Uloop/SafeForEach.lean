import MiniPi.Lib.Run
import MiniPi.Uloop.SafeList
import Mathlib.Data.Int.Notation

/-!
# Walks along a changing list

`safe_list_for_each` with callbacks that add and delete elements and start further walks.  Every
iteration that is not stopped visits the elements that stay, once each and in their order.
-/

universe u

namespace MiniPi.Uloop

open Lib Function

variable {ι : Type u}

/-! ## Runs -/

/-- A `safe_list_for_each` in a callback: its iterator and, for the history, the elements that it
has visited and those that were in the list when it began and were not deleted since. -/
structure Iteration (ι : Type u) where
  iter : ℕ
  visited : List ι
  stays : List ι

/-- The list with the iterations that are active, the last one first, and the history of its
elements. -/
structure SafeLoop (ι : Type u) where
  list : SafeList ι
  active : List (Iteration ι) := []
  elems : List ι := []

/-- What the callbacks and the program do.  An iteration begins or goes on with the visit of an
element, or it ends. -/
inductive SafeAct (ι : Type u)
  | add (x : ι)
  | addFirst (x : ι)
  | del (x : ι)
  | forEach (visit : Option ι)
  | callbackReturns (ret : ℤ) (visit : Option ι)

namespace SafeLoop

variable [DecidableEq ι]

/-- An element is deleted, for the history. -/
def forget (x : ι) (s : SafeLoop ι) : SafeLoop ι :=
  { s with
    active := s.active.map fun f ↦ { f with stays := f.stays.filter (· ≠ x) }
    elems := s.elems.filter (· ≠ x) }

inductive Step : SafeLoop ι → SafeAct ι → SafeLoop ι → Prop
  | add {s : SafeLoop ι} {x : ι} : x ∉ s.elems →
      Step s (.add x) { s with list := s.list.safeListAdd x, elems := s.elems ++ [x] }
  | addFirst {s : SafeLoop ι} {x : ι} : x ∉ s.elems →
      Step s (.addFirst x) { s with list := s.list.safeListAddFirst x, elems := x :: s.elems }
  | del {s : SafeLoop ι} {x : ι} {fuel : ℕ} {list : SafeList ι} : x ∈ s.elems →
      s.list.safeListDel fuel x = some list → Step s (.del x) { s.forget x with list }
  /-- The first element is visited. -/
  | begin {s : SafeLoop ι} {k : ℕ} {cur : ι} : k ∉ s.active.map Iteration.iter →
      s.list.list.next .head = .node cur →
      Step s (.forEach (some cur))
        { s with
          list := s.list.setIterator (.node cur) (.nextI k)
          active := ⟨k, [cur], s.elems⟩ :: s.active }
  /-- The list is empty. -/
  | beginNone {s : SafeLoop ι} {k : ℕ} : k ∉ s.active.map Iteration.iter →
      s.list.list.next .head = .head →
      Step s (.forEach none)
        { s with list := (s.list.setIterator .head (.nextI k)).delIterator (.nextI k) }
  /-- The next element is visited. -/
  | visit {s : SafeLoop ι} {f : Iteration ι} {active : List (Iteration ι)} {cur : ι} :
      s.active = f :: active → s.list.next (.nextI f.iter) = .node cur →
      Step s (.callbackReturns 0 (some cur))
        { s with
          list := s.list.moveIterator (.node cur) (.nextI f.iter)
          active := { f with visited := f.visited ++ [cur] } :: active }
  /-- The iteration is at the head again. -/
  | finish {s : SafeLoop ι} {f : Iteration ι} {active : List (Iteration ι)} :
      s.active = f :: active → s.list.next (.nextI f.iter) = .head →
      Step s (.callbackReturns 0 none)
        { s with
          list := (s.list.moveIterator .head (.nextI f.iter)).delIterator (.nextI f.iter), active }
  /-- The callback stops the iteration. -/
  | stop {s : SafeLoop ι} {f : Iteration ι} {active : List (Iteration ι)} {ret : ℤ} :
      s.active = f :: active → ret ≠ 0 →
      Step s (.callbackReturns ret none) { s with
        list := s.list.delIterator (.nextI f.iter), active }

end SafeLoop

/-! ## What the iterations visit -/

/-- The iterator waits at the elements `post` of the list, and what the iteration has not visited of
those that stay is among them. -/
def Iteration.Place [DecidableEq ι] (f : Iteration ι) (elems : List ι) (c : Link ι → List ℕ) :
    Prop :=
  ∃ pre post, elems = pre ++ post ∧ f.iter ∈ c (ListHead.first post) ∧
    f.visited.filter (· ∈ f.stays) ++ post.filter (· ∈ f.stays) = f.stays

/-- What every step keeps. -/
structure SafeLoop.Ok [DecidableEq ι] (s : SafeLoop ι) (c : Link ι → List ℕ) : Prop where
  holds : s.list.list.Holds s.elems
  parked : s.list.Parked s.elems c
  active : ∀ l ∈ Link.head :: s.elems.map Link.node, ∀ k ∈ c l, k ∈ s.active.map Iteration.iter
  nodup : (s.active.map Iteration.iter).Nodup
  place : ∀ f ∈ s.active, f.Place s.elems c
  stays : ∀ f ∈ s.active, f.stays.Nodup ∧ ∀ x ∈ f.stays, x ∈ s.elems

/-- Iterations visit the elements that stay, and no deleted ones. -/
structure SafeLoop.Tolerates [DecidableEq ι] (s : SafeLoop ι) : Prop where
  /-- The list has the elements that were added and not deleted. -/
  holds : s.list.list.Holds s.elems
  /-- A visit is of an element of the list. -/
  visits : ∀ a s' x, SafeLoop.Step s a s' → a = .forEach (some x) ∨
    (∃ ret, a = .callbackReturns ret (some x)) →
    x ∈ s.elems
  /-- An iteration that is not stopped has visited those that stay once each and in their order. -/
  all : ∀ f active s', s.active = f :: active → SafeLoop.Step s (.callbackReturns 0 none) s' →
    f.visited.filter (· ∈ f.stays) = f.stays ∧ f.stays.Nodup
  /-- It goes on or ends when a callback returns 0. -/
  goes : s.active ≠ [] → ∃ visit s', SafeLoop.Step s (.callbackReturns 0 visit) s'
  /-- Without an active iteration no pointer to an iterator is left. -/
  idle : s.active = [] → ∀ l ∈ Link.head :: s.elems.map Link.node, s.list.ptr (.i l) = .null
  /-- `safe_list_del` returns. -/
  dels : ∀ x ∈ s.elems, ∃ fuel list, s.list.safeListDel fuel x = some list

section

variable [DecidableEq ι] {s s' : SafeLoop ι} {c c' : Link ι → List ℕ} {pre post : List ι} {x : ι}

omit [DecidableEq ι] in
theorem first_mem (pre post : List ι) :
    ListHead.first post ∈ Link.head :: (pre ++ post).map Link.node := by
  cases post <;> simp

theorem Iteration.Place.moved {f : Iteration ι} {elems : List ι} {k : ℕ} (hf : f.Place elems c)
    (hmoved : SafeList.Moved k c c') (hk : f.iter ≠ k) : f.Place elems c' := by
  obtain ⟨pre, post, hsplit, hiter, hvisited⟩ := hf
  exact ⟨pre, post, hsplit, (hmoved _ _ hk).2 hiter, hvisited⟩

namespace SafeLoop.Ok

/-- Where the iteration goes next. -/
theorem next (hs : s.Ok c) {f : Iteration ι} {active : List (Iteration ι)}
    (hactive : s.active = f :: active) :
    ∃ pre post, s.elems = pre ++ post ∧ f.iter ∈ c (ListHead.first post) ∧
      s.list.next (.nextI f.iter) = ListHead.first post ∧
      f.visited.filter (· ∈ f.stays) ++ post.filter (· ∈ f.stays) = f.stays := by
  obtain ⟨pre, post, hsplit, hiter, hvisited⟩ := hs.place f (by simp [hactive])
  have hwaits := hs.parked _ (hsplit ▸ first_mem pre post)
  exact ⟨pre, post, hsplit, hiter, hwaits.2 _ hiter, hvisited⟩

/-- A step that leaves the elements alone and parks no other iterator than `k`. -/
theorem keep (hs : s.Ok c) {list : SafeList ι} {active : List (Iteration ι)} {k : ℕ}
    (hlist : list.list = s.list.list) (hp : list.Parked s.elems c') (hmoved : SafeList.Moved k c c')
    (hold : ∀ f ∈ active, f.iter ≠ k → f ∈ s.active)
    (hnew : ∀ f ∈ active, f.iter = k → f.Place s.elems c' ∧ f.stays.Nodup ∧
      ∀ x ∈ f.stays, x ∈ s.elems)
    (hnodup : (active.map Iteration.iter).Nodup)
    (hactive : ∀ l ∈ Link.head :: s.elems.map Link.node, ∀ j ∈ c' l,
      j ∈ active.map Iteration.iter) :
    Ok { s with list, active } c' := by
  refine ⟨?_, hp, hactive, hnodup, fun f hf ↦ ?_, fun f hf ↦ ?_⟩
  · change list.list.Holds s.elems
    exact hlist ▸ hs.holds
  · by_cases hk : f.iter = k
    · exact (hnew f hf hk).1
    · exact (hs.place f (hold f hf hk)).moved hmoved hk
  · by_cases hk : f.iter = k
    · exact (hnew f hf hk).2
    · exact hs.stays f (hold f hf hk)

theorem begin (hs : s.Ok c) {k : ℕ} {cur : ι} (hk : k ∉ s.active.map Iteration.iter)
    (hcur : s.list.list.next .head = .node cur) :
    ∃ c', Ok { s with
      list := s.list.setIterator (.node cur) (.nextI k), active :=
        ⟨k, [cur], s.elems⟩ :: s.active } c' := by
  obtain ⟨post, helems⟩ := ListHead.first_eq_node (hs.holds.next_head.symm.trans hcur)
  have hnext : s.list.list.next (.node cur) = ListHead.first post := by
    have hholds := hs.holds
    rw [helems] at hholds
    exact (@ListHead.Holds.node _ _ [] post cur hholds).1
  obtain ⟨c', hp, hkc, hmoved⟩ := hs.parked.set (k := k) (l := .node cur)
    (by rw [hnext, helems]; exact first_mem [cur] post) fun l hl hkl ↦ hk (hs.active l hl k hkl)
  refine ⟨c', hs.keep (by simp) hp hmoved (fun f hf hfk ↦ ?_) (fun f hf hfk ↦ ?_) ?_ fun l hl j hj ↦
    ?_⟩
  · rcases List.mem_cons.1 hf with rfl | hf
    · exact absurd rfl hfk
    · exact hf
  · rcases List.mem_cons.1 hf with rfl | hf
    · refine ⟨⟨[cur], post, by simpa using helems, hnext ▸ hkc, ?_⟩, hs.holds.nodup, fun x hx ↦ hx⟩
      change [cur].filter (· ∈ s.elems) ++ post.filter (· ∈ s.elems) = s.elems
      rw [← List.filter_append, List.singleton_append, ← helems]
      exact List.filter_eq_self.2 fun x hx ↦ by simpa using hx
    · exact absurd (hfk ▸ List.mem_map_of_mem hf) hk
  · exact List.nodup_cons.2 ⟨hk, hs.nodup⟩
  · by_cases hjk : j = k
    · simp [hjk]
    · exact List.mem_cons_of_mem _ (hs.active l hl j ((hmoved l j hjk).1 hj))

/-- An iterator that is taken away. -/
theorem leave (hs : s.Ok c) {list : SafeList ι} {active : List (Iteration ι)} {k : ℕ}
    (hlist : list.list = s.list.list) (hp : list.Parked s.elems c') (hmoved : SafeList.Moved k c c')
    (hk : ∀ l ∈ Link.head :: s.elems.map Link.node, k ∉ c' l)
    (hactive : s.active.map Iteration.iter = k :: active.map Iteration.iter ∨
      s.active = active ∧ k ∉ active.map Iteration.iter)
    (hsub : ∀ f ∈ active, f ∈ s.active) : Ok { s with list, active } c' := by
  have hnodup : (k :: active.map Iteration.iter).Nodup := by
    rcases hactive with hactive | ⟨rfl, hk⟩
    · exact hactive ▸ hs.nodup
    · exact List.nodup_cons.2 ⟨hk, hs.nodup⟩
  refine hs.keep hlist hp hmoved (fun f hf _ ↦ hsub f hf) (fun f hf hfk ↦ ?_)
    (List.nodup_cons.1 hnodup).2
    fun l hl j hj ↦ ?_
  · exact absurd (hfk ▸ List.mem_map_of_mem hf) (List.nodup_cons.1 hnodup).1
  · have hjk : j ≠ k := fun heq ↦ hk l hl (heq ▸ hj)
    have hmem := hs.active l hl j ((hmoved l j hjk).1 hj)
    rcases hactive with hactive | ⟨rfl, -⟩
    · rw [hactive] at hmem
      exact (List.mem_cons.1 hmem).resolve_left hjk
    · exact hmem

theorem beginNone (hs : s.Ok c) {k : ℕ} (hk : k ∉ s.active.map Iteration.iter)
    (hhead : s.list.list.next .head = .head) :
    ∃ c', Ok { s with list := (s.list.setIterator .head (.nextI k)).delIterator (.nextI k) }
      c' := by
  obtain ⟨c', hp, hkc, hmoved⟩ := hs.parked.set (k := k) (l := .head) (by simp [hhead])
    fun l hl hkl ↦ hk (hs.active l hl k hkl)
  obtain ⟨c'', hp', hk', hmoved'⟩ := hp.del (by simp [hhead]) hkc
  exact ⟨c'', hs.leave (by simp) hp' (hmoved.trans hmoved') hk' (.inr ⟨rfl, hk⟩) fun f hf ↦ hf⟩

variable {f : Iteration ι} {active : List (Iteration ι)}

theorem visit (hs : s.Ok c) {cur : ι} (hactive : s.active = f :: active)
    (hcur : s.list.next (.nextI f.iter) = .node cur) :
    ∃ c', Ok { s with
      list := s.list.moveIterator (.node cur) (.nextI f.iter)
      active := { f with visited := f.visited ++ [cur] } :: active } c' := by
  obtain ⟨pre, post, hsplit, hiter, hnext, hvisited⟩ := hs.next hactive
  obtain ⟨rest, rfl⟩ := ListHead.first_eq_node (hnext.symm.trans hcur)
  have hsplit' : s.elems = (pre ++ [cur]) ++ rest := by simp [hsplit]
  have hholds := hs.holds
  rw [hsplit] at hholds
  have hafter : (s.list.delIterator (.nextI f.iter)).list.next (.node cur) =
      ListHead.first rest := by
    rw [SafeList.delIterator_list]
    exact hholds.node.1
  obtain ⟨c', hp, hk, hmoved⟩ := hs.parked.del (by simp [hsplit]) hiter
  obtain ⟨c'', hp', hkc, hmoved'⟩ := hp.set (l := .node cur)
    (by rw [hafter, hsplit']; exact first_mem _ _) hk
  have hnodup := hs.nodup
  rw [hactive, List.map_cons] at hnodup
  refine ⟨c'', hs.keep (by simp [SafeList.moveIterator]) hp' (hmoved.trans hmoved')
    (fun g hg hgk ↦ ?_) (fun g hg hgk ↦ ?_) hnodup fun l hl j hj ↦ ?_⟩
  · rcases List.mem_cons.1 hg with rfl | hg
    · exact absurd rfl hgk
    · simp [hactive, hg]
  · rcases List.mem_cons.1 hg with rfl | hg
    · refine ⟨⟨pre ++ [cur], rest, by simp [hsplit], hafter ▸ hkc, ?_⟩,
        hs.stays f (by simp [hactive])⟩
      change (f.visited ++ [cur]).filter (· ∈ f.stays) ++ rest.filter (· ∈ f.stays) = f.stays
      rw [List.filter_append, List.append_assoc, ← List.filter_append, List.singleton_append]
      exact hvisited
    · exact absurd (hgk ▸ List.mem_map_of_mem hg) (List.nodup_cons.1 hnodup).1
  · by_cases hjk : j = f.iter
    · simp [hjk]
    · have hmem := hs.active l hl j (((hmoved.trans hmoved') l j hjk).1 hj)
      rwa [hactive, List.map_cons] at hmem

theorem finish (hs : s.Ok c) (hactive : s.active = f :: active)
    (hhead : s.list.next (.nextI f.iter) = .head) :
    ∃ c', Ok { s with
      list := (s.list.moveIterator .head (.nextI f.iter)).delIterator (.nextI f.iter),
      active } c' := by
  obtain ⟨pre, post, hsplit, hiter, hnext, hvisited⟩ := hs.next hactive
  rw [← hnext, hhead] at hiter
  have hafter : (s.list.delIterator (.nextI f.iter)).list.next .head ∈ Link.head ::
      s.elems.map Link.node := by
    rw [SafeList.delIterator_list, hs.holds.next_head]
    exact first_mem [] s.elems
  obtain ⟨c₁, hp₁, hk₁, hmoved₁⟩ := hs.parked.del (by simp) hiter
  obtain ⟨c₂, hp₂, hkc, hmoved₂⟩ := hp₁.set (l := .head) hafter hk₁
  obtain ⟨c₃, hp₃, hk₃, hmoved₃⟩ := hp₂.del hafter hkc
  exact ⟨c₃, hs.leave (by simp [SafeList.moveIterator]) hp₃
    ((hmoved₁.trans hmoved₂).trans hmoved₃) hk₃
    (.inl (by simp [hactive])) fun g hg ↦ by simp [hactive, hg]⟩

theorem stop (hs : s.Ok c) (hactive : s.active = f :: active) :
    ∃ c', Ok { s with list := s.list.delIterator (.nextI f.iter), active } c' := by
  obtain ⟨pre, post, hsplit, hiter, -, -⟩ := hs.next hactive
  obtain ⟨c', hp, hk, hmoved⟩ := hs.parked.del (hsplit ▸ first_mem pre post) hiter
  exact ⟨c', hs.leave (by simp) hp hmoved hk (.inl (by simp [hactive]))
    fun g hg ↦ by simp [hactive, hg]⟩

/-- An element is put into the list; the place where an iterator waits may be before it. -/
theorem insert (hs : s.Ok c) {l : ListHead ι} {elems : List ι} (hx : x ∉ s.elems)
    (hholds : l.Holds elems) (hmem : ∀ y, y ∈ elems ↔ y = x ∨ y ∈ s.elems)
    (hparts : ∀ pre post, s.elems = pre ++ post → ∃ pre' post', elems = pre' ++ post' ∧
      ListHead.first post' = ListHead.first post ∧ ∀ stays : List ι, x ∉ stays →
        post'.filter (· ∈ stays) = post.filter (· ∈ stays)) :
    Ok { s with list := { s.list.setPtr (.i (.node x)) .null with list := l }, elems }
      (update c (.node x) []) := by
  have hold : ∀ l' ∈ Link.head :: elems.map Link.node, l' ≠ .node x →
      l' ∈ Link.head :: s.elems.map Link.node := by
    intro l' hl' hne
    rcases List.mem_cons.1 hl' with rfl | hl'
    · simp
    · obtain ⟨y, hy, rfl⟩ := List.mem_map.1 hl'
      have hy' : y ∈ s.elems := ((hmem y).1 hy).resolve_left fun heq ↦ hne (heq ▸ rfl)
      simp [hy']
  refine ⟨hholds, fun l' hl' ↦ ?_, fun l' hl' k hk ↦ ?_, hs.nodup, fun f hf ↦ ?_, fun f hf ↦ ?_⟩
  · by_cases heq : l' = .node x
    · rw [heq, update_self]
      exact ⟨.nil (update_self ..), by simp⟩
    · rw [update_of_ne heq]
      refine (hs.parked l' (hold l' hl' heq)).congr ?_ fun k hk ↦ ⟨?_, rfl, rfl⟩
      · exact update_of_ne (by simpa using heq) _ _
      · change update s.list.ptr (.i (.node x)) .null (.nextI k) = s.list.ptr (.nextI k)
        exact update_of_ne (by simp) _ _
  · by_cases heq : l' = .node x
    · simp [heq] at hk
    · rw [update_of_ne heq] at hk
      exact hs.active l' (hold l' hl' heq) k hk
  · obtain ⟨pre, post, hsplit, hiter, hvisited⟩ := hs.place f hf
    obtain ⟨pre', post', hsplit', hfirst, hstays⟩ := hparts pre post hsplit
    have hne : ListHead.first post' ≠ .node x := by
      rw [hfirst]
      exact ListHead.first_ne fun hmem ↦ hx (hsplit ▸ List.mem_append_right _ hmem)
    refine ⟨pre', post', hsplit', by rwa [update_of_ne hne, hfirst], ?_⟩
    rw [hstays _ fun hmem ↦ hx ((hs.stays f hf).2 x hmem)]
    exact hvisited
  · exact ⟨(hs.stays f hf).1, fun y hy ↦ (hmem y).2 (.inr ((hs.stays f hf).2 y hy))⟩

theorem add (hs : s.Ok c) (hx : x ∉ s.elems) :
    ∃ c', Ok { s with list := s.list.safeListAdd x, elems := s.elems ++ [x] } c' := by
  refine ⟨_, hs.insert hx (l := s.list.list.listAddTail (.node x) .head) ?_ ?_ fun pre post hsplit ↦
    ?_⟩
  · have hinsert := @ListHead.Holds.insert ι s.list.list s.elems [] x _ (by simpa using hs.holds)
      (by simpa using hx)
    rw [ListHead.listAddTail, hs.holds.prev_head]
    exact hinsert
  · intro y
    rw [List.mem_append, List.mem_singleton, or_comm]
  · cases post with
    | nil => exact ⟨pre ++ [x], [], by simp [hsplit], rfl, fun _ _ ↦ rfl⟩
    | cons y ys =>
        refine ⟨pre, y :: ys ++ [x], by simp [hsplit], rfl, fun stays hstays ↦ ?_⟩
        have hnil : [x].filter (· ∈ stays) = [] := by simpa using hstays
        rw [List.filter_append, hnil, List.append_nil]

theorem addFirst (hs : s.Ok c) (hx : x ∉ s.elems) :
    ∃ c', Ok { s with list := s.list.safeListAddFirst x, elems := x :: s.elems } c' := by
  refine ⟨_, hs.insert hx (l := s.list.list.listAdd (.node x) .head) ?_ ?_ fun pre post hsplit ↦ ?_⟩
  · have hinsert := @ListHead.Holds.insert ι s.list.list [] s.elems x _ hs.holds hx
    rw [ListHead.listAdd, hs.holds.next_head]
    exact hinsert
  · intro y
    rw [List.mem_cons]
  · exact ⟨x :: pre, post, by simp [hsplit], rfl, fun _ _ ↦ rfl⟩

/-- An element is deleted; its iterators wait at the next one. -/
theorem del (hs : s.Ok c) {list : SafeList ι} {fuel : ℕ} (hx : x ∈ s.elems)
    (hdel : s.list.safeListDel fuel x = some list) : ∃ c', Ok { s.forget x with list } c' := by
  obtain ⟨a, b, helems⟩ := List.append_of_mem hx
  have hholds := hs.holds
  rw [helems] at hholds
  have hmem : x ∉ a ++ b := (List.nodup_cons.1 (List.nodup_middle.1 hholds.nodup)).1
  have hnext : s.list.list.next (.node x) = ListHead.first b := hholds.node.1
  have hne : ListHead.first b ≠ .node x :=
    ListHead.first_ne fun hmem' ↦ hmem (List.mem_append_right _ hmem')
  have hin : ListHead.first b ∈ Link.head :: s.elems.map Link.node := by
    have hsplit : s.elems = (a ++ [x]) ++ b := by simp [helems]
    rw [hsplit]
    exact first_mem _ _
  obtain ⟨hlist, hwaits, hothers⟩ := SafeList.safeListDel_waits (hs.parked (.node x) (by simp [hx]))
    (hs.parked _ (by rwa [hnext])) (by rwa [hnext]) hdel
  rw [hnext] at hwaits hothers
  have hfilter : s.elems.filter (· ≠ x) = a ++ b := by
    rw [helems, List.filter_append, List.filter_cons_of_neg (by simp), ← List.filter_append,
      List.filter_eq_self]
    exact fun y hy ↦ by simpa using ne_of_mem_of_not_mem hy hmem
  have hold : ∀ l ∈ Link.head :: (a ++ b).map Link.node, l ≠ .node x ∧
      l ∈ Link.head :: s.elems.map Link.node := by
    intro l hl
    refine ⟨ListHead.ne_node hmem l hl, ?_⟩
    rw [helems]
    exact ((((List.sublist_cons_self x b).append_left a).map Link.node).cons_cons Link.head).mem hl
  have hc : ∀ l k, k ∈ c l →
      k ∈ update c (ListHead.first b) (c (.node x) ++ c (ListHead.first b)) l := by
    intro l k hk
    by_cases heq : l = ListHead.first b
    · rw [heq, update_self]
      exact List.mem_append_right _ (heq ▸ hk)
    · rwa [update_of_ne heq]
  refine ⟨update c (ListHead.first b) (c (.node x) ++ c (ListHead.first b)), ?_, ?_, ?_, ?_, ?_, ?_⟩
  · change list.list.Holds (s.elems.filter (· ≠ x))
    rw [hlist, hfilter]
    exact hholds.del
  · change list.Parked (s.elems.filter (· ≠ x)) _
    rw [hfilter]
    intro l hl
    obtain ⟨hlx, hl'⟩ := hold l hl
    by_cases heq : l = ListHead.first b
    · rw [heq, update_self]
      exact hwaits
    · rw [update_of_ne heq]
      exact hothers l _ hlx heq (hs.parked l hl')
  · change ∀ l ∈ Link.head :: (s.elems.filter (· ≠ x)).map Link.node, _
    rw [hfilter]
    intro l hl k hk
    change k ∈ (s.active.map fun f ↦ { f with stays := f.stays.filter (· ≠ x) }).map Iteration.iter
    rw [List.map_map]
    change k ∈ s.active.map Iteration.iter
    by_cases heq : l = ListHead.first b
    · rw [heq, update_self, List.mem_append] at hk
      rcases hk with hk | hk
      · exact hs.active (.node x) (by simp [hx]) k hk
      · exact hs.active _ hin k hk
    · rw [update_of_ne heq] at hk
      exact hs.active l (hold l hl).2 k hk
  · change ((s.active.map fun f ↦ { f with stays := f.stays.filter (· ≠ x) }).map
      Iteration.iter).Nodup
    rw [List.map_map]
    exact hs.nodup
  · intro g hg
    obtain ⟨f, hf, rfl⟩ := List.mem_map.1 hg
    obtain ⟨pre, post, hsplit, hiter, hvisited⟩ := hs.place f hf
    refine ⟨pre.filter (· ≠ x), post.filter (· ≠ x), ?_, ?_, ?_⟩
    · change s.elems.filter (· ≠ x) = _
      rw [hsplit, List.filter_append]
    · by_cases hfirst : ListHead.first post = .node x
      · -- the iterator goes on to the next element
        obtain ⟨rest, rfl⟩ := ListHead.first_eq_node hfirst
        have hholds' := hs.holds
        rw [hsplit] at hholds'
        have hrest : x ∉ pre ++ rest := (List.nodup_cons.1 (List.nodup_middle.1 hholds'.nodup)).1
        have hfilter' : (x :: rest).filter (· ≠ x) = rest := by
          rw [List.filter_cons_of_neg (by simp), List.filter_eq_self]
          exact fun y hy ↦ by simpa using ne_of_mem_of_not_mem (List.mem_append_right pre hy) hrest
        rw [hfilter', ← hholds'.node.1, hnext, update_self]
        exact List.mem_append_left _ hiter
      · have hfirst' : ListHead.first (post.filter (· ≠ x)) = ListHead.first post := by
          cases post with
          | nil => rfl
          | cons y ys => rw [List.filter_cons_of_pos (by simpa using hfirst), ListHead.first_cons,
              ListHead.first_cons]
        rw [hfirst']
        exact hc _ _ hiter
    · have hstays : ∀ ys : List ι, ys.filter (· ∈ f.stays.filter (· ≠ x)) =
          (ys.filter (· ∈ f.stays)).filter (· ≠ x) := by
        intro ys
        rw [List.filter_filter]
        refine List.filter_congr fun y _ ↦ ?_
        simp [List.mem_filter, and_comm]
      change f.visited.filter (· ∈ f.stays.filter (· ≠ x)) ++
        (post.filter (· ≠ x)).filter (· ∈ f.stays.filter (· ≠ x)) = f.stays.filter (· ≠ x)
      rw [List.filter_comm, hstays, hstays, List.filter_filter (l := post.filter _)]
      simp only [Bool.and_self]
      rw [← List.filter_append, hvisited]
  · intro g hg
    obtain ⟨f, hf, rfl⟩ := List.mem_map.1 hg
    obtain ⟨hnodup, hsub⟩ := hs.stays f hf
    refine ⟨hnodup.filter _, fun y hy ↦ ?_⟩
    obtain ⟨hy, hyx⟩ := List.mem_filter.1 hy
    exact List.mem_filter.2 ⟨hsub y hy, hyx⟩

theorem tolerates (hs : s.Ok c) : s.Tolerates := by
  refine ⟨hs.holds, fun a s' x hstep hx ↦ ?_, fun f active s' hactive hstep ↦ ?_, fun hne ↦ ?_,
    fun hidle l hl ↦ ?_, fun x hx ↦ ?_⟩
  · cases hstep with
    | add _ => simp at hx
    | addFirst _ => simp at hx
    | del _ _ => simp at hx
    | @begin k cur _ hcur =>
        obtain rfl : cur = x := by simpa using hx
        obtain ⟨post, helems⟩ := ListHead.first_eq_node (hs.holds.next_head.symm.trans hcur)
        simp [helems]
    | beginNone _ _ => simp at hx
    | @visit f active cur hactive hcur =>
        obtain rfl : cur = x := by simpa using hx
        obtain ⟨pre, post, hsplit, -, hnext, -⟩ := hs.next hactive
        obtain ⟨rest, rfl⟩ := ListHead.first_eq_node (hnext.symm.trans hcur)
        simp [hsplit]
    | finish _ _ => simp at hx
    | stop _ _ => simp at hx
  · cases hstep with
    | @finish g active' hactive' hhead =>
        obtain ⟨rfl, rfl⟩ := List.cons_eq_cons.1 (hactive.symm.trans hactive')
        obtain ⟨pre, post, hsplit, -, hnext, hvisited⟩ := hs.next hactive
        obtain rfl : post = [] := by
          cases post with
          | nil => rfl
          | cons y ys => simp [hnext] at hhead
        exact ⟨by simpa using hvisited, (hs.stays f (by simp [hactive])).1⟩
    | stop _ hret => exact absurd rfl hret
  · obtain ⟨f, active, hactive⟩ := List.exists_cons_of_ne_nil hne
    obtain ⟨pre, post, -, -, hnext, -⟩ := hs.next hactive
    cases post with
    | nil => exact ⟨none, _, .finish hactive hnext⟩
    | cons y ys => exact ⟨some y, _, .visit hactive hnext⟩
  · have hnil : c l = [] := List.eq_nil_iff_forall_not_mem.2 fun k hk ↦ by
      simpa [hidle] using hs.active l hl k hk
    have hfirst := (hs.parked l hl).first
    rwa [hnil] at hfirst
  · exact SafeList.safeListDel_returns (hs.parked (.node x) (by simp [hx]))

theorem step {a : SafeAct ι} (hs : s.Ok c) (hstep : SafeLoop.Step s a s') : ∃ c', s'.Ok c' := by
  cases hstep with
  | add hx => exact hs.add hx
  | addFirst hx => exact hs.addFirst hx
  | del hx hdel => exact hs.del hx hdel
  | begin hk hcur => exact hs.begin hk hcur
  | beginNone hk hhead => exact hs.beginNone hk hhead
  | visit hactive hcur => exact hs.visit hactive hcur
  | finish hactive hhead => exact hs.finish hactive hhead
  | stop hactive _ => exact hs.stop hactive

end SafeLoop.Ok

/-- In every run, whatever the callbacks add, delete and walk along, the iterations visit what
stays. -/
theorem safe_list_tolerates {list : SafeList ι} {acts : List (SafeAct ι)}
    (hempty : list.list.next .head = .head ∧ list.list.prev .head = .head)
    (hnone : list.ptr (.i .head) = .null)
    (hrun : Run SafeLoop.Step { list } acts s) : s.Tolerates := by
  have hstart : SafeLoop.Ok { list } fun _ : Link ι ↦ [] := by
    refine ⟨⟨.nil hempty.1, hempty.2⟩, fun l hl ↦ ?_, by simp, by simp, by simp, by simp⟩
    obtain rfl : l = .head := by simpa using hl
    exact ⟨.nil hnone, by simp⟩
  have hok : ∃ c, s.Ok c := by
    refine hrun.invariant (I := fun s ↦ ∃ c, s.Ok c) ?_ ⟨_, hstart⟩
    rintro s a s' ⟨c, hs⟩ hstep
    exact hs.step hstep
  obtain ⟨c, hs⟩ := hok
  exact hs.tolerates

/-- A callback that deletes the element that comes next. -/
theorem safe_list_tolerates_del : ∃ s : SafeLoop ℕ, s.elems = [0] ∧ s.Tolerates := by
  have hrun : ∃ s : SafeLoop ℕ, s.elems = [0] ∧ Run SafeLoop.Step
      { list := ⟨⟨fun _ ↦ .head, fun _ ↦ .head⟩, fun _ ↦ .null, fun _ ↦ .null, fun _ ↦ .null⟩ }
      [.add 0, .add 1, .forEach (some 0), .del 1, .callbackReturns 0 none] s := by
    refine ⟨_, ?_, .cons (.add (by simp))
      (.cons (.add (by simp))
        (.cons (@SafeLoop.Step.begin _ _ _ 0 0 (by simp) rfl)
          (.cons (@SafeLoop.Step.del _ _ _ 1 2 _ (by simp) rfl)
            (.cons (.finish rfl rfl) (.nil _)))))⟩
    rfl
  obtain ⟨s, helems, hrun⟩ := hrun
  exact ⟨s, helems, safe_list_tolerates ⟨rfl, rfl⟩ rfl hrun⟩

end

end MiniPi.Uloop
