import MiniPi.Uloop.ListHead

/-!
# Lists that are changed while they are walked

`safe_list.c`: every iterator waits at the element that comes next, in a list of iterators that
starts in this element.  An iterator is named by the place of its `next_i`, so that pointers to
iterators and pointers to such pointers are one type.
-/

universe u

namespace MiniPi.Uloop

open Lib Function

variable {ι : Type u}

/-- The pointer `i` of an element or of the head, the pointer `next_i` of an iterator, or `NULL`. -/
inductive Slot (ι : Type u)
  | null
  | i (l : Link ι)
  | nextI (k : ℕ)
deriving DecidableEq

/-- The list, the pointers to iterators, and the fields `head` and `next` of the iterators. -/
structure SafeList (ι : Type u) where
  list : ListHead ι
  ptr : Slot ι → Slot ι
  head : Slot ι → Slot ι
  next : Slot ι → Link ι

namespace SafeList

section

variable [DecidableEq ι]

/-! ## The functions -/

def setPtr (p v : Slot ι) (s : SafeList ι) : SafeList ι := { s with ptr := update s.ptr p v }

def setHead (k v : Slot ι) (s : SafeList ι) : SafeList ι := { s with head := update s.head k v }

def setNext (k : Slot ι) (v : Link ι) (s : SafeList ι) : SafeList ι :=
  { s with next := update s.next k v }

/-- `__safe_list_set_iterator`. -/
def setIterator (l : Link ι) (k : Slot ι) (s : SafeList ι) : SafeList ι :=
  let next := s.list.next l
  let nextI := s.ptr (.i next)
  let s := ((s.setPtr (.i next) k).setNext k next).setHead k (.i next)
  let s := s.setPtr k nextI
  if nextI = .null then s else s.setHead nextI k

/-- `__safe_list_del_iterator`. -/
def delIterator (k : Slot ι) (s : SafeList ι) : SafeList ι :=
  let s := s.setPtr (s.head k) (s.ptr k)
  if s.ptr k = .null then s else s.setHead (s.ptr k) (s.head k)

/-- `__safe_list_move_iterator`. -/
def moveIterator (l : Link ι) (k : Slot ι) (s : SafeList ι) : SafeList ι :=
  (s.delIterator k).setIterator l k

def safeListAdd (x : ι) (s : SafeList ι) : SafeList ι :=
  let s := s.setPtr (.i (.node x)) .null
  { s with list := s.list.listAddTail (.node x) .head }

def safeListAddFirst (x : ι) (s : SafeList ι) : SafeList ι :=
  let s := s.setPtr (.i (.node x)) .null
  { s with list := s.list.listAdd (.node x) .head }

/-- The loop of `safe_list_del`, with `tail` behind it. -/
def delLoop (next : Link ι) : ℕ → Slot ι → Slot ι → SafeList ι → Option (SafeList ι × Slot ι)
  | 0, _, _, _ => none
  | fuel + 1, k, tail, s =>
      if k = .null then some (s, tail) else delLoop next fuel (s.ptr k) k (s.setNext k next)

/-- The part of `safe_list_del` behind its loop. -/
def spliceIterators (x : ι) (next : Link ι) (nextI tail : Slot ι) (s : SafeList ι) : SafeList ι :=
  let s := s.setPtr (.i next) (s.ptr (.i (.node x)))
  let s := s.setHead (s.ptr (.i (.node x))) (.i next)
  let s := s.setPtr tail nextI
  let s := if nextI = .null then s else s.setHead nextI tail
  s.setPtr (.i (.node x)) .null

def safeListDel (fuel : ℕ) (x : ι) (s : SafeList ι) : Option (SafeList ι) :=
  let next := s.list.next (.node x)
  let s := { s with list := s.list.listDel (.node x) }
  if s.ptr (.i (.node x)) = .null then some s
  else
    (delLoop next fuel (s.ptr (.i (.node x))) (.i next) s).map fun r ↦
      r.1.spliceIterators x next (s.ptr (.i next)) r.2

end

end SafeList

/-! ## The iterators of an element -/

namespace SafeList

/-- The iterators `ks` wait at `l`. -/
def Waits (s : SafeList ι) (l : Link ι) (ks : List ℕ) : Prop :=
  Chain s.ptr s.head (.i l) (ks.map .nextI) .null ∧ ∀ k ∈ ks, s.next (.nextI k) = l

section

variable {s s' : SafeList ι} {l l' : Link ι} {pre post ks : List ℕ} {k : ℕ}

theorem Waits.congr (h : s.Waits l ks) (hl : s'.ptr (.i l) = s.ptr (.i l))
    (hks : ∀ k ∈ ks, s'.ptr (.nextI k) = s.ptr (.nextI k) ∧ s'.head (.nextI k) = s.head (.nextI k) ∧
      s'.next (.nextI k) = s.next (.nextI k)) : s'.Waits l ks := by
  refine ⟨h.1.congr ?_ ?_, fun k hk ↦ (hks k hk).2.2.trans (h.2 k hk)⟩
  · simpa [hl] using fun k hk ↦ (hks k hk).1
  · simpa using fun k hk ↦ (hks k hk).2.1

theorem nodup_slots : (Slot.i l :: ks.map Slot.nextI).Nodup ↔ ks.Nodup := by
  rw [List.nodup_cons, List.nodup_map_iff fun _ _ h ↦ Slot.nextI.inj h]
  exact ⟨And.right, fun h ↦ ⟨by simp, h⟩⟩

theorem Waits.nodup (h : s.Waits l ks) : ks.Nodup := nodup_slots.1 h.1.nodup

/-- The slot of the last iterator, or of the element. -/
def lastSlot (l : Link ι) (ks : List ℕ) : Slot ι := (ks.map .nextI).getLast?.getD (.i l)

def firstSlot (ks : List ℕ) : Slot ι := (ks.map .nextI).head?.getD .null

theorem lastSlot_eq (l : Link ι) (ks : List ℕ) :
    lastSlot l ks = .i l ∨ ∃ k ∈ ks, lastSlot l ks = .nextI k := by
  have hmem := Chain.mem_last (Slot.i l) (ks.map .nextI)
  rcases List.mem_cons.1 hmem with h | h
  · exact .inl h
  · obtain ⟨k, hk, heq⟩ := List.mem_map.1 h
    exact .inr ⟨k, hk, heq.symm⟩

theorem firstSlot_eq (ks : List ℕ) :
    (firstSlot ks : Slot ι) = .null ∨ ∃ k ∈ ks, firstSlot ks = (.nextI k : Slot ι) := by
  cases ks with
  | nil => exact .inl rfl
  | cons k ks => exact .inr ⟨k, by simp, rfl⟩

theorem Waits.ne {ks' : List ℕ} (h : s.Waits l ks) (h' : s.Waits l' ks') (hl : l' ≠ l) {k' : ℕ}
    (hk : k ∈ ks) (hk' : k' ∈ ks') : k' ≠ k := by
  rintro rfl
  exact hl ((h'.2 k' hk').symm.trans (h.2 k' hk))

theorem Waits.first (h : s.Waits l ks) : s.ptr (.i l) = firstSlot ks := h.1.first

theorem Waits.iter (h : s.Waits l (pre ++ k :: post)) :
    s.ptr (.nextI k) = firstSlot post ∧ s.head (.nextI k) = lastSlot l pre := by
  have hseg := h.1.seg
  rw [List.map_append, List.map_cons, Seg.append_iff] at hseg
  exact ⟨hseg.2.2.1, hseg.2.1⟩

/-- The slot of an iterator that is not among `ks` is not the first of theirs. -/
theorem ne_firstSlot (hk : k ∉ ks) : (.nextI k : Slot ι) ≠ firstSlot ks := by
  rcases @firstSlot_eq ι ks with hfirst | ⟨j, hj, hfirst⟩
  · simp [hfirst]
  · rw [hfirst]
    exact fun heq ↦ hk (Slot.nextI.inj heq ▸ hj)

variable [DecidableEq ι]

/-! ## One iterator -/

/-- The fields behind `__safe_list_set_iterator`. -/
theorem Waits.set_fields (h : s.Waits (s.list.next l) ks) :
    (s.setIterator l (.nextI k)).ptr =
        update (update s.ptr (.i (s.list.next l)) (.nextI k)) (.nextI k) (firstSlot ks) ∧
      (s.setIterator l (.nextI k)).head =
        (if (firstSlot ks : Slot ι) = .null then update s.head (.nextI k) (.i (s.list.next l))
          else update (update s.head (.nextI k) (.i (s.list.next l))) (firstSlot ks) (.nextI k)) ∧
      (s.setIterator l (.nextI k)).next = update s.next (.nextI k) (s.list.next l) := by
  unfold setIterator
  simp only [h.first]
  split_ifs
  · exact ⟨rfl, rfl, rfl⟩
  · exact ⟨rfl, rfl, rfl⟩

theorem Waits.set (h : s.Waits (s.list.next l) ks) (hk : k ∉ ks) :
    (s.setIterator l (.nextI k)).Waits (s.list.next l) (k :: ks) := by
  obtain ⟨hptr, hhead, hnext⟩ := h.set_fields (k := k)
  have hne : ∀ j ∈ ks, (.nextI j : Slot ι) ≠ .nextI k := fun j hj heq ↦ hk (Slot.nextI.inj heq ▸ hj)
  refine ⟨?_, fun j hj ↦ ?_⟩
  · refine @Chain.replace _ s.ptr s.head _ _ (.i (s.list.next l)) .null []
      (ks.map .nextI) [] [.nextI k] h.1
      (nodup_slots.2 (List.nodup_cons.2 ⟨hk, h.nodup⟩)) ⟨?_, ?_, trivial⟩ ?_ ?_ ?_ ?_
    · rw [hhead]
      split_ifs
      · exact update_self ..
      · rw [update_of_ne (ne_firstSlot hk), update_self]
        rfl
    · rw [hptr, update_self]
      rfl
    · intro y hy hyl
      rcases List.mem_cons.1 hy with rfl | hy
      · exact absurd rfl hyl
      · obtain ⟨j, hj, rfl⟩ := List.mem_map.1 hy
        rw [hptr, update_of_ne (hne j hj), update_of_ne (by simp)]
    · intro y hy hyfirst
      obtain ⟨j, hj, rfl⟩ := List.mem_map.1 hy
      rw [hhead]
      split_ifs
      · exact update_of_ne (hne j hj) _ _
      · rw [update_of_ne ?_, update_of_ne (hne j hj)]
        intro heq
        cases ks with
        | nil => simp at hj
        | cons j' js => exact hyfirst (by simpa [firstSlot] using heq.symm)
    · rw [hptr]
      simp
    · intro z hz
      cases ks with
      | nil => simp at hz
      | cons j js =>
          obtain rfl : Slot.nextI j = z := by simpa using hz
          rw [hhead, if_neg (by simp [firstSlot])]
          exact update_self ..
  · rw [hnext]
    rcases List.mem_cons.1 hj with rfl | hj
    · rw [update_self]
    · rw [update_of_ne (hne j hj), h.2 j hj]

theorem Waits.set_other {ks' : List ℕ} (h' : s.Waits l' ks') (h : s.Waits (s.list.next l) ks)
    (hl : l' ≠ s.list.next l) (hk : k ∉ ks') : (s.setIterator l (.nextI k)).Waits l' ks' := by
  obtain ⟨hptr, hhead, hnext⟩ := h.set_fields (k := k)
  refine h'.congr ?_ fun j hj ↦ ?_
  · rw [hptr, update_of_ne (by simp), update_of_ne (by simpa using hl)]
  · have hjk : (.nextI j : Slot ι) ≠ .nextI k := fun heq ↦ hk (Slot.nextI.inj heq ▸ hj)
    have hjs : j ∉ ks := fun hmem ↦ h.ne h' hl hmem hj rfl
    refine ⟨?_, ?_, ?_⟩
    · rw [hptr, update_of_ne hjk, update_of_ne (by simp)]
    · rw [hhead]
      split_ifs
      · exact update_of_ne hjk _ _
      · rw [update_of_ne (ne_firstSlot hjs), update_of_ne hjk]
    · rw [hnext, update_of_ne hjk]

theorem Waits.iter_fields (h : s.Waits l (pre ++ k :: post)) :
    (s.delIterator (.nextI k)).ptr = update s.ptr (lastSlot l pre) (firstSlot post) ∧
      (s.delIterator (.nextI k)).head =
        (if (firstSlot post : Slot ι) = .null then s.head
          else update s.head (firstSlot post) (lastSlot l pre)) ∧
      (s.delIterator (.nextI k)).next = s.next := by
  obtain ⟨hptr, hhead⟩ := h.iter
  have hmem : k ∉ pre ++ post := (List.nodup_cons.1 (List.nodup_middle.1 h.nodup)).1
  have hne : lastSlot l pre ≠ .nextI k := by
    rcases lastSlot_eq l pre with hlast | ⟨j, hj, hlast⟩
    · simp [hlast]
    · rw [hlast]
      exact fun heq ↦ hmem (List.mem_append_left _ (Slot.nextI.inj heq ▸ hj))
  have hk : update s.ptr (lastSlot l pre) (firstSlot post) (.nextI k) = firstSlot post := by
    rw [update_of_ne hne.symm, hptr]
  unfold delIterator
  simp only [setPtr, hhead, hptr, hk]
  split_ifs
  · exact ⟨rfl, rfl, rfl⟩
  · exact ⟨rfl, rfl, rfl⟩

theorem Waits.del (h : s.Waits l (pre ++ k :: post)) :
    (s.delIterator (.nextI k)).Waits l (pre ++ post) := by
  obtain ⟨hptr, hhead, hnext⟩ := h.iter_fields
  have hnodup : (pre ++ post).Nodup := (List.nodup_cons.1 (List.nodup_middle.1 h.nodup)).2
  have hchain := h.1
  rw [List.map_append, List.map_cons] at hchain
  refine ⟨?_, fun j hj ↦ ?_⟩
  · rw [List.map_append]
    refine @Chain.replace _ s.ptr s.head _ _ (.i l) .null (pre.map .nextI)
      (post.map .nextI) [.nextI k] []
      hchain ?_ trivial ?_ ?_ ?_ ?_
    · rw [List.nil_append, ← List.map_append]
      exact nodup_slots.2 hnodup
    · intro y _ hy
      rw [hptr]
      exact update_of_ne hy _ _
    · intro y hy hfirst
      rw [hhead]
      split_ifs with hnull
      · rfl
      · refine update_of_ne ?_ _ _
        rintro rfl
        cases post with
        | nil => exact hnull rfl
        | cons j js => exact hfirst rfl
    · rw [hptr]
      exact update_self ..
    · intro z hz
      cases post with
      | nil => simp at hz
      | cons j js =>
          obtain rfl : Slot.nextI j = z := by simpa using hz
          rw [hhead, List.append_nil]
          simp [firstSlot, lastSlot]
  · rw [hnext]
    refine h.2 j ?_
    simp only [List.mem_append, List.mem_cons] at hj ⊢
    tauto

theorem Waits.del_other {ks' : List ℕ} (h' : s.Waits l' ks') (h : s.Waits l (pre ++ k :: post))
    (hl : l' ≠ l) :
    (s.delIterator (.nextI k)).Waits l' ks' := by
  obtain ⟨hptr, hhead, hnext⟩ := h.iter_fields
  have hne : ∀ j ∈ ks', ∀ i ∈ pre ++ k :: post, (.nextI j : Slot ι) ≠ .nextI i :=
    fun j hj i hi heq ↦ h.ne h' hl hi hj (Slot.nextI.inj heq)
  refine h'.congr ?_ fun j hj ↦ ⟨?_, ?_, by rw [hnext]⟩
  · rw [hptr]
    refine update_of_ne ?_ _ _
    rcases lastSlot_eq l pre with hlast | ⟨i, hi, hlast⟩
    · simpa [hlast] using hl
    · simp [hlast]
  · rw [hptr]
    refine update_of_ne ?_ _ _
    rcases lastSlot_eq l pre with hlast | ⟨i, hi, hlast⟩
    · simp [hlast]
    · exact hlast ▸ hne j hj i (List.mem_append_left _ hi)
  · rw [hhead]
    split_ifs with hnull
    · rfl
    · exact update_of_ne (ne_firstSlot fun hmem ↦ hne j hj j (by simp [hmem]) rfl) _ _

/-! ## A deleted element -/

/-- The loop of `safe_list_del` goes over the iterators. -/
theorem delLoop_eq {n : Link ι} {a tail : Slot ι} {fuel : ℕ} {r : SafeList ι × Slot ι}
    (hseg : Seg s.ptr s.head a (ks.map .nextI) .null)
    (hloop : delLoop n fuel (firstSlot ks) tail s = some r) :
    r.1.list = s.list ∧ r.1.ptr = s.ptr ∧ r.1.head = s.head ∧
      (∀ k, r.1.next (.nextI k) = if k ∈ ks then n else s.next (.nextI k)) ∧
      r.2 = (ks.map Slot.nextI).getLast?.getD tail := by
  induction ks generalizing s a tail fuel with
  | nil =>
      cases fuel with
      | zero => simp [delLoop] at hloop
      | succ fuel =>
          obtain rfl : (s, tail) = r := by simpa [delLoop, firstSlot] using hloop
          exact ⟨rfl, rfl, rfl, by simp, rfl⟩
  | cons k ks ih =>
      cases fuel with
      | zero => simp [delLoop] at hloop
      | succ fuel =>
          obtain ⟨-, hnext, hseg⟩ := hseg
          change (if (.nextI k : Slot ι) = .null then _ else
            delLoop n fuel (s.ptr (.nextI k)) (.nextI k) (s.setNext (.nextI k) n)) = _ at hloop
          rw [if_neg (by simp), hnext] at hloop
          obtain ⟨hlist, hptr, hhead, hnexts, htail⟩ :=
            @ih (s.setNext (.nextI k) n) _ _ _ hseg hloop
          refine ⟨hlist, hptr, hhead, fun j ↦ ?_, ?_⟩
          · rw [hnexts]
            by_cases hj : j = k
            · simp [hj, setNext]
            · simp [hj, setNext]
          · rw [htail, List.map_cons, List.getLast?_cons, Option.getD_some]

theorem delLoop_isSome {n : Link ι} {a tail : Slot ι}
    (hseg : Seg s.ptr s.head a (ks.map .nextI) .null) :
    (delLoop n (ks.length + 1) (firstSlot ks) tail s).isSome = true := by
  induction ks generalizing s a tail with
  | nil => rfl
  | cons k ks ih =>
      obtain ⟨-, hnext, hseg⟩ := hseg
      change (if (.nextI k : Slot ι) = .null then _ else
        delLoop n (ks.length + 1) (s.ptr (.nextI k)) (.nextI k) (s.setNext (.nextI k) n)).isSome =
          true
      rw [if_neg (by simp), hnext]
      exact @ih (s.setNext (.nextI k) n) _ _ hseg

theorem spliceIterators_fields {x : ι} {n : Link ι} {nextI tail : Slot ι} (hn : n ≠ .node x) :
    (s.spliceIterators x n nextI tail).list = s.list ∧
      (s.spliceIterators x n nextI tail).ptr =
        update (update (update s.ptr (.i n) (s.ptr (.i (.node x)))) tail nextI)
        (.i (.node x)) .null ∧
      (s.spliceIterators x n nextI tail).head =
        (if nextI = .null then update s.head (s.ptr (.i (.node x))) (.i n)
          else update (update s.head (s.ptr (.i (.node x))) (.i n)) nextI tail) ∧
      (s.spliceIterators x n nextI tail).next = s.next := by
  have hx : update s.ptr (.i n) (s.ptr (.i (.node x))) (.i (.node x)) = s.ptr (.i (.node x)) :=
    update_of_ne (by simpa using hn.symm) _ _
  unfold spliceIterators
  simp only [setPtr, setHead, hx]
  split_ifs
  · exact ⟨rfl, rfl, rfl, rfl⟩
  · exact ⟨rfl, rfl, rfl, rfl⟩

/-- The fields behind `safe_list_del` of `x`, when `ks` and `last` wait there and `js` at the next
place `n`. -/
structure Spliced (s s' : SafeList ι) (x : ι) (n : Link ι) (k last : ℕ) (ks js : List ℕ) :
    Prop where
  list : s'.list = s.list.listDel (.node x)
  ptr : s'.ptr = update (update (update s.ptr (.i n) (.nextI k)) (.nextI last) (firstSlot js))
    (.i (.node x)) .null
  head : s'.head = (if (firstSlot js : Slot ι) = .null then update s.head (.nextI k) (.i n)
    else update (update s.head (.nextI k) (.i n)) (firstSlot js) (.nextI last))
  next : ∀ j, s'.next (.nextI j) = if j ∈ ks then n else s.next (.nextI j)

section

variable {x : ι} {n : Link ι} {last : ℕ} {front rest js ks' : List ℕ}

theorem Spliced.head_of_ne (hs : Spliced s s' x n k last ks js) {y : Slot ι} (hk : y ≠ .nextI k)
    (hjs : y ≠ firstSlot js) : s'.head y = s.head y := by
  rw [hs.head]
  split_ifs
  · exact update_of_ne hk _ _
  · rw [update_of_ne hjs, update_of_ne hk]

theorem Spliced.ptr_of_ne (hs : Spliced s s' x n k last ks js) {j : ℕ} (hj : j ≠ last) :
    s'.ptr (.nextI j) = s.ptr (.nextI j) := by
  rw [hs.ptr, update_of_ne (by simp), update_of_ne (by simpa using hj), update_of_ne (by simp)]

/-- The iterators of the element go before those of the next one. -/
theorem Spliced.waits (hs : Spliced s s' x n k last (k :: rest) js)
    (hlast : k :: rest = front ++ [last]) (hx : s.Waits (.node x) (k :: rest)) (hn : s.Waits n js)
    (hne : n ≠ .node x) :
    s'.Waits n (k :: rest ++ js) := by
  have hmem : last ∈ k :: rest := by simp [hlast]
  have hdisj : ∀ j ∈ js, ∀ i ∈ k :: rest, j ≠ i := fun j hj i hi ↦ hx.ne hn hne hi hj
  have hfirst : ∀ i ∈ k :: rest, (.nextI i : Slot ι) ≠ firstSlot js :=
    fun i hi ↦ ne_firstSlot fun hj ↦ hdisj i hj i hi rfl
  have hnodup := List.nodup_cons.1 hx.nodup
  have hheadk : s'.head (.nextI k) = .i n := by
    rw [hs.head]
    split_ifs
    · exact update_self ..
    · rw [update_of_ne (hfirst k (by simp)), update_self]
  have hrest : ∀ i ∈ rest, s'.head (.nextI i) = s.head (.nextI i) := by
    intro i hi
    refine hs.head_of_ne ?_ (hfirst i (List.mem_cons_of_mem _ hi))
    exact fun heq ↦ hnodup.1 (Slot.nextI.inj heq ▸ hi)
  have hptrlast : s'.ptr (.nextI last) = firstSlot js := by
    rw [hs.ptr, update_of_ne (by simp), update_self]
  -- the iterators of `x`, between `n` and those of `n`
  have hmid : Seg s'.ptr s'.head (.i n) ((k :: rest).map .nextI) (firstSlot js) := by
    have hseg : Seg s.ptr s'.head (.i n) ((k :: rest).map .nextI) .null := by
      refine Seg.cons hx.1.seg hheadk (fun y hy ↦ ?_) fun _ _ ↦ rfl
      obtain ⟨i, hi, rfl⟩ := List.mem_map.1 hy
      exact hrest i hi
    rw [hlast, List.map_append, List.map_singleton] at hseg ⊢
    refine hseg.concat hptrlast (fun y hy ↦ ?_) fun _ _ ↦ rfl
    obtain ⟨i, hi, rfl⟩ := List.mem_map.1 hy
    refine hs.ptr_of_ne ?_
    rintro rfl
    have hnodup' := hx.nodup
    rw [hlast, List.nodup_append] at hnodup'
    exact hnodup'.2.2 i hi i (by simp) rfl
  refine ⟨?_, fun j hj ↦ ?_⟩
  · rw [List.map_append]
    refine @Chain.replace _ s.ptr s.head _ _ (.i n) .null [] (js.map .nextI) []
      ((k :: rest).map .nextI) hn.1
      ?_ hmid ?_ ?_ ?_ ?_
    · rw [List.nil_append, ← List.map_append]
      refine nodup_slots.2 (List.nodup_append.2 ⟨hx.nodup, hn.nodup, fun i hi j hj ↦ ?_⟩)
      exact (hdisj j hj i hi).symm
    · intro y hy hyn
      rcases List.mem_cons.1 hy with rfl | hy
      · exact absurd rfl hyn
      · obtain ⟨j, hj, rfl⟩ := List.mem_map.1 hy
        exact hs.ptr_of_ne (hdisj j hj last hmem)
    · intro y hy hyfirst
      obtain ⟨j, hj, rfl⟩ := List.mem_map.1 hy
      refine hs.head_of_ne ?_ ?_
      · exact fun heq ↦ hdisj j hj k (by simp) (Slot.nextI.inj heq)
      · intro heq
        cases js with
        | nil => simp at hj
        | cons j' js => exact hyfirst (by simpa [firstSlot] using heq.symm)
    · change s'.ptr (.i n) = .nextI k
      rw [hs.ptr, update_of_ne (by simpa using hne), update_of_ne (by simp), update_self]
    · intro z hz
      cases js with
      | nil => simp at hz
      | cons j js =>
          obtain rfl : Slot.nextI j = z := by simpa using hz
          rw [hs.head, if_neg (by simp [firstSlot]), hlast]
          simp [firstSlot]
  · rw [hs.next]
    split_ifs with hmem
    · rfl
    · exact hn.2 j ((List.mem_append.1 hj).resolve_left hmem)

theorem Spliced.waits_other (hs : Spliced s s' x n k last (k :: rest) js)
    (hlast : last ∈ k :: rest) (hx : s.Waits (.node x) (k :: rest)) (hn : s.Waits n js)
    (h' : s.Waits l' ks') (hlx : l' ≠ .node x) (hln : l' ≠ n) : s'.Waits l' ks' := by
  refine h'.congr ?_ fun j hj ↦ ⟨hs.ptr_of_ne (hx.ne h' hlx hlast hj), hs.head_of_ne ?_ ?_, ?_⟩
  · rw [hs.ptr, update_of_ne (by simpa using hlx), update_of_ne (by simp),
      update_of_ne (by simpa using hln)]
  · exact fun heq ↦ hx.ne h' hlx (by simp) hj (Slot.nextI.inj heq)
  · exact ne_firstSlot fun hmem ↦ hn.ne h' hln hmem hj rfl
  · rw [hs.next, if_neg fun hmem ↦ hx.ne h' hlx hmem hj rfl]

/-- `safe_list_del`. -/
theorem safeListDel_waits {fuel : ℕ} (hx : s.Waits (.node x) ks)
    (hn : s.Waits (s.list.next (.node x)) js) (hne : s.list.next (.node x) ≠ .node x)
    (hdel : s.safeListDel fuel x = some s') :
    s'.list = s.list.listDel (.node x) ∧ s'.Waits (s.list.next (.node x)) (ks ++ js) ∧
      ∀ l' ks', l' ≠ .node x → l' ≠ s.list.next (.node x) → s.Waits l' ks' → s'.Waits l' ks' := by
  unfold safeListDel at hdel
  simp only [hx.first] at hdel
  cases ks with
  | nil =>
      rw [if_pos (show (firstSlot [] : Slot ι) = .null from rfl)] at hdel
      obtain rfl := Option.some.inj hdel
      exact ⟨rfl, hn.congr rfl fun k hk ↦ ⟨rfl, rfl, rfl⟩,
        fun l' ks' _ _ h ↦ h.congr rfl fun k hk ↦ ⟨rfl, rfl, rfl⟩⟩
  | cons k rest =>
      rw [if_neg (by simp [firstSlot]), hn.first] at hdel
      obtain ⟨⟨s₁, tail⟩, hloop, rfl⟩ := Option.map_eq_some_iff.1 hdel
      obtain ⟨hlist₁, hptr₁, hhead₁, hnext₁, htail⟩ :=
        delLoop_eq (s := { s with list := s.list.listDel (.node x) }) hx.1.seg hloop
      obtain ⟨hlist, hptr, hhead, hnext⟩ :=
        @spliceIterators_fields _ s₁ _ x (s.list.next (.node x)) (firstSlot js) tail hne
      obtain ⟨front, last, hks⟩ := List.eq_nil_or_concat' (k :: rest) |>.resolve_left (by simp)
      have htail' : tail = .nextI last := by
        simpa [hks] using htail
      have hs : Spliced s (s₁.spliceIterators x (s.list.next (.node x)) (firstSlot js) tail) x
          (s.list.next (.node x)) k last (k :: rest) js := by
        refine ⟨hlist.trans hlist₁, ?_, ?_, fun j ↦ ?_⟩
        · rw [hptr, hptr₁, hx.first, htail']
          rfl
        · rw [hhead, hptr₁, hhead₁, hx.first, htail']
          rfl
        · rw [hnext]
          exact hnext₁ j
      have hlast : last ∈ k :: rest := by simp [hks]
      exact ⟨hs.list, hs.waits hks hx hn hne,
        fun l' ks' hlx hln h' ↦ hs.waits_other hlast hx hn h' hlx hln⟩

theorem safeListDel_returns (hx : s.Waits (.node x) ks) :
    ∃ fuel s', s.safeListDel fuel x = some s' := by
  refine ⟨ks.length + 1, Option.isSome_iff_exists.1 ?_⟩
  unfold safeListDel
  simp only [hx.first]
  split_ifs
  · rfl
  · rw [Option.isSome_map]
    exact delLoop_isSome (s := { s with list := s.list.listDel (.node x) }) hx.1.seg

end

end

/-! ## All the iterators -/

/-- The iterators `c l` wait at the head and at the elements. -/
def Parked (s : SafeList ι) (elems : List ι) (c : Link ι → List ℕ) : Prop :=
  ∀ l ∈ Link.head :: elems.map Link.node, s.Waits l (c l)

/-- Only `k` is parked elsewhere. -/
def Moved (k : ℕ) (c c' : Link ι → List ℕ) : Prop := ∀ l j, j ≠ k → (j ∈ c' l ↔ j ∈ c l)

section

variable [DecidableEq ι] {s : SafeList ι} {elems : List ι} {c c' c'' : Link ι → List ℕ} {k : ℕ}
  {l : Link ι}

omit [DecidableEq ι] in
theorem Moved.trans (h : Moved k c c') (h' : Moved k c' c'') : Moved k c c'' :=
  fun l j hj ↦ (h' l j hj).trans (h l j hj)

@[simp] theorem setIterator_list {p : Slot ι} : (s.setIterator l p).list = s.list := by
  unfold setIterator
  simp only
  split_ifs <;> rfl

@[simp] theorem delIterator_list {p : Slot ι} : (s.delIterator p).list = s.list := by
  unfold delIterator
  simp only
  split_ifs <;> rfl

theorem Parked.set (hp : s.Parked elems c) (hl : s.list.next l ∈ Link.head :: elems.map Link.node)
    (hk : ∀ l' ∈ Link.head :: elems.map Link.node, k ∉ c l') :
    ∃ c', (s.setIterator l (.nextI k)).Parked elems c' ∧ k ∈ c' (s.list.next l) ∧ Moved k c c' := by
  refine ⟨update c (s.list.next l) (k :: c (s.list.next l)), fun l' hl' ↦ ?_, by simp,
    fun l' j hj ↦ ?_⟩
  · by_cases heq : l' = s.list.next l
    · rw [heq, update_self]
      exact (hp _ hl).set (hk _ hl)
    · rw [update_of_ne heq]
      exact (hp _ hl').set_other (hp _ hl) heq (hk _ hl')
  · by_cases heq : l' = s.list.next l
    · simp [heq, hj]
    · simp [heq]

theorem Parked.del (hp : s.Parked elems c) (hl : l ∈ Link.head :: elems.map Link.node)
    (hk : k ∈ c l) :
    ∃ c', (s.delIterator (.nextI k)).Parked elems c' ∧
      (∀ l' ∈ Link.head :: elems.map Link.node, k ∉ c' l') ∧ Moved k c c' := by
  obtain ⟨pre, post, hpre, hsplit, herase⟩ := List.exists_erase_eq hk
  have hwaits := hp l hl
  have hnodup := hwaits.nodup
  rw [hsplit] at hwaits
  refine ⟨update c l ((c l).erase k), fun l' hl' ↦ ?_, fun l' hl' ↦ ?_, fun l' j hj ↦ ?_⟩
  · by_cases heq : l' = l
    · rw [heq, update_self, herase]
      exact hwaits.del
    · rw [update_of_ne heq]
      exact (hp l' hl').del_other hwaits heq
  · by_cases heq : l' = l
    · rw [heq, update_self]
      exact hnodup.not_mem_erase
    · rw [update_of_ne heq]
      exact fun hk' ↦ (hp l hl).ne (hp l' hl') heq hk hk' rfl
  · by_cases heq : l' = l
    · simp [heq, List.mem_erase_of_ne hj]
    · simp [heq]

end

end SafeList

end MiniPi.Uloop
