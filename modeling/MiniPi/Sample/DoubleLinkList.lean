import MiniPi.Lib.Links
import Mathlib.Data.Int.Notation
import Mathlib.Data.List.Induction
import Mathlib.Data.List.Nodup
import Mathlib.Logic.Function.Basic
import Mathlib.Tactic.Common

/-!
# The sample of a doubly linked list

The list of `1_double_link_list.c`.  Pointers are addresses, with `NULL` as `0`; the fields of a
node are functions of its address.  `malloc` may return `NULL` or any address that is not in use,
with arbitrary bytes there.  A `char` is signed.
-/

namespace MiniPi.Sample

open Lib Function

/-- What goes wrong: an access through `NULL`, an access to a node that is not allocated, or a loop
that does not end. -/
inductive Fault
  | null | freed | endless
deriving DecidableEq

/-- The nodes, with the addresses that are allocated and the number of allocations so far, and the
ends. -/
structure DList where
  data : ℕ → UInt8 := fun _ ↦ 0
  pre : ℕ → ℕ := fun _ ↦ 0
  next : ℕ → ℕ := fun _ ↦ 0
  alloc : ℕ → Bool := fun _ ↦ false
  mallocs : ℕ := 0
  head : ℕ := 0
  tail : ℕ := 0

namespace DList

/-! ## Accesses -/

def access (s : DList) (p : ℕ) : Except Fault Unit :=
  if p = 0 then .error .null else if s.alloc p then .ok () else .error .freed

def readData (s : DList) (p : ℕ) : Except Fault UInt8 := do
  s.access p
  return s.data p

def readPre (s : DList) (p : ℕ) : Except Fault ℕ := do
  s.access p
  return s.pre p

def readNext (s : DList) (p : ℕ) : Except Fault ℕ := do
  s.access p
  return s.next p

def setData (s : DList) (p : ℕ) (c : UInt8) : Except Fault DList := do
  s.access p
  return { s with data := update s.data p c }

def setPre (s : DList) (p v : ℕ) : Except Fault DList := do
  s.access p
  return { s with pre := update s.pre p v }

def setNext (s : DList) (p v : ℕ) : Except Fault DList := do
  s.access p
  return { s with next := update s.next p v }

def free (s : DList) (p : ℕ) : Except Fault DList := do
  s.access p
  return { s with alloc := update s.alloc p false }

/-- The state behind a `malloc` that has returned `new`. -/
def malloc (s : DList) (new : ℕ) : DList :=
  if new = 0 then s else { s with alloc := update s.alloc new true, mallocs := s.mallocs + 1 }

/-! ## The functions -/

/-- The first lines of `add_head` and `add_tail`. -/
def newNode (s : DList) (new : ℕ) (c : UInt8) : Except Fault DList := do
  let s ← (s.malloc new).setData new c
  let s ← s.setNext new 0
  s.setPre new 0

/-- `add_head`. -/
def addHead (new : ℕ) (c : UInt8) (s : DList) : Except Fault (DList × ℤ) :=
  if new = 0 then return (s, 0)
  else do
    let s ← s.newNode new c
    if s.head = 0 then return ({ s with head := new, tail := new }, 1)
    else
      let s ← s.setNext new s.head
      let s ← s.setPre s.head new
      return ({ s with head := new }, 1)

/-- `add_tail`. -/
def addTail (new : ℕ) (c : UInt8) (s : DList) : Except Fault (DList × ℤ) :=
  if new = 0 then return (s, 0)
  else do
    let s ← s.newNode new c
    if s.head = 0 then return ({ s with head := new, tail := new }, 1)
    else
      let s ← s.setPre new s.tail
      let s ← s.setNext s.tail new
      return ({ s with tail := new }, 1)

/-- `pop_head`. -/
def popHead (s : DList) : Except Fault (DList × ℤ) :=
  if s.head = 0 then return (s, -1)
  else do
    let c ← s.readData s.head
    let tmp ← s.readNext s.head
    let s ← s.free s.head
    let s := { s with head := tmp }
    let s ← s.setPre s.head 0
    return (s, c.toInt8.toInt)

/-- `pop_tail`. -/
def popTail (s : DList) : Except Fault (DList × ℤ) :=
  if s.tail = 0 then return (s, -1)
  else do
    let c ← s.readData s.tail
    let tmp ← s.readPre s.tail
    let s ← s.free s.tail
    let s := { s with tail := tmp }
    let s ← s.setNext s.tail 0
    return (s, c.toInt8.toInt)

/-- The loop over the nodes from `tmp` on, up to the first with the given data: `0` when there is
none. -/
def search (s : DList) (c : UInt8) : ℕ → ℕ → Except Fault ℕ
  | 0, tmp => if tmp = 0 then return 0 else .error .endless
  | fuel + 1, tmp =>
      if tmp = 0 then return 0
      else do
        let d ← s.readData tmp
        if c = d then return tmp
        else
          let tmp ← s.readNext tmp
          s.search c fuel tmp

/-- `del_node`. -/
def delNode (c : UInt8) (s : DList) : Except Fault (DList × ℤ) := do
  let tmp ← s.search c s.mallocs s.head
  if tmp = 0 then return (s, -1)
  else
    let next ← s.readNext tmp
    let pre ← s.readPre tmp
    let s ← s.setPre next pre
    let pre ← s.readPre tmp
    let next ← s.readNext tmp
    let s ← s.setNext pre next
    let s ← s.free tmp
    return (s, 0)

/-- `add_node_before`. -/
def addNodeBefore (new : ℕ) (src c : UInt8) (s : DList) : Except Fault (DList × ℤ) := do
  let s ← (s.malloc new).setData new c
  let tmp ← s.search src s.mallocs s.head
  if tmp = 0 then return (s, -1)
  else
    let pre ← s.readPre tmp
    let s ← if pre ≠ 0 then s.setNext pre new else pure { s with head := new }
    let s ← s.setPre new pre
    let s ← s.setNext new tmp
    let s ← s.setPre tmp new
    return (s, 0)

/-- The loop of `pop_all_nodes`: `tmp` goes ahead of `head`. -/
def popAllLoop : ℕ → ℕ → DList → Except Fault DList
  | 0, tmp, s => if tmp = 0 then return s else .error .endless
  | fuel + 1, tmp, s =>
      if tmp = 0 then return s
      else do
        let tmp ← s.readNext tmp
        let s ← s.free s.head
        popAllLoop fuel tmp { s with head := tmp }

/-- `pop_all_nodes`. -/
def popAllNodes (s : DList) : Except Fault (DList × ℤ) := do
  let s ← popAllLoop s.mallocs s.head s
  return (s, 0)

/-- A call, with what `malloc` returns in it. -/
inductive Call
  | addHead (new : ℕ) (c : UInt8)
  | addTail (new : ℕ) (c : UInt8)
  | popHead
  | popTail
  | addNodeBefore (new : ℕ) (src c : UInt8)
  | delNode (c : UInt8)
  | popAllNodes

/-- The call, with the value it returns. -/
def call (s : DList) : Call → Except Fault (DList × ℤ)
  | .addHead new c => s.addHead new c
  | .addTail new c => s.addTail new c
  | .popHead => s.popHead
  | .popTail => s.popTail
  | .addNodeBefore new src c => s.addNodeBefore new src c
  | .delNode c => s.delNode c
  | .popAllNodes => s.popAllNodes

/-! ## Accesses that are fine -/

section

variable {s : DList} {p v new : ℕ} {c : UInt8}

theorem access_eq (hp : p ≠ 0) (ha : s.alloc p = true) : s.access p = .ok () := by
  unfold access
  rw [if_neg hp, if_pos ha]

theorem readData_eq (hp : p ≠ 0) (ha : s.alloc p = true) : s.readData p = .ok (s.data p) := by
  unfold readData
  rw [access_eq hp ha]
  rfl

theorem readPre_eq (hp : p ≠ 0) (ha : s.alloc p = true) : s.readPre p = .ok (s.pre p) := by
  unfold readPre
  rw [access_eq hp ha]
  rfl

theorem readNext_eq (hp : p ≠ 0) (ha : s.alloc p = true) : s.readNext p = .ok (s.next p) := by
  unfold readNext
  rw [access_eq hp ha]
  rfl

theorem setPre_eq (hp : p ≠ 0) (ha : s.alloc p = true) :
    s.setPre p v = .ok { s with pre := update s.pre p v } := by
  unfold setPre
  rw [access_eq hp ha]
  rfl

theorem setNext_eq (hp : p ≠ 0) (ha : s.alloc p = true) :
    s.setNext p v = .ok { s with next := update s.next p v } := by
  unfold setNext
  rw [access_eq hp ha]
  rfl

theorem free_eq (hp : p ≠ 0) (ha : s.alloc p = true) :
    s.free p = .ok { s with alloc := update s.alloc p false } := by
  unfold free
  rw [access_eq hp ha]
  rfl

theorem setData_malloc_eq (hnew : new ≠ 0) : (s.malloc new).setData new c = .ok { s with
    alloc := update s.alloc new true, mallocs := s.mallocs + 1, data := update s.data new c } := by
  unfold setData malloc
  rw [if_neg hnew, access_eq hnew (update_self ..)]
  rfl

theorem newNode_eq (hnew : new ≠ 0) : s.newNode new c = .ok
    { s with
      alloc := update s.alloc new true
      mallocs := s.mallocs + 1
      data := update s.data new c
      next := update s.next new 0
      pre := update s.pre new 0 } := by
  unfold newNode
  rw [setData_malloc_eq hnew]
  change (setNext _ new 0 >>= fun s ↦ s.setPre new 0) = _
  rw [setNext_eq hnew (update_self ..)]
  change setPre _ new 0 = _
  rw [setPre_eq hnew (update_self ..)]

end

/-! ## The list -/

/-- The nodes `xs` are allocated and linked, from `head` to `tail`. -/
structure Linked (s : DList) (xs : List ℕ) : Prop where
  seg : Seg s.next s.pre 0 xs 0
  head : s.head = xs.head?.getD 0
  tail : s.tail = xs.getLast?.getD 0
  nodup : xs.Nodup
  pos : 0 ∉ xs
  alloc : ∀ a ∈ xs, s.alloc a = true
  bound : xs.length ≤ s.mallocs

section

variable {s : DList} {xs ys zs : List ℕ} {a b new : ℕ} {c d src : UInt8}

theorem Linked.ne_zero (h : s.Linked xs) (ha : a ∈ xs) : a ≠ 0 := fun h0 ↦ h.pos (h0 ▸ ha)

theorem Linked.head_eq_zero_iff (h : s.Linked xs) : s.head = 0 ↔ xs = [] := by
  rw [h.head]
  cases xs with
  | nil => simp
  | cons a xs => simpa using h.ne_zero List.mem_cons_self

/-- The nodes `old` give way to `mid`. -/
theorem Linked.splice (xs old mid ys : List ℕ) {next' pre' : ℕ → ℕ}
    (h : s.Linked (xs ++ (old ++ ys)))
    (hmid : Seg next' pre' (xs.getLast?.getD 0) mid (ys.head?.getD 0))
    (hnext : ∀ y ∈ xs.dropLast ++ ys, next' y = s.next y)
    (hpre : ∀ y ∈ xs ++ ys.tail, pre' y = s.pre y)
    (hlast : ∀ y, xs.getLast? = some y → next' y = (mid ++ ys).head?.getD 0)
    (hhead : ∀ z, ys.head? = some z → pre' z = (xs ++ mid).getLast?.getD 0) :
    Seg next' pre' 0 (xs ++ (mid ++ ys)) 0 := by
  obtain ⟨hxs, hrest⟩ := Seg.append_iff.1 h.seg
  obtain ⟨-, hys⟩ := Seg.append_iff.1 hrest
  exact hxs.replace hys hmid hnext hpre hlast hhead

theorem Linked.fresh (h : s.Linked xs) (hfresh : s.alloc new = false) : new ∉ xs := by
  intro hmem
  rw [h.alloc new hmem] at hfresh
  exact absurd hfresh (by decide)

theorem Linked.addHead (h : s.Linked xs) (hnew : new ≠ 0) (hfresh : s.alloc new = false) :
    ∃ s', s.addHead new c = .ok (s', 1) ∧ s'.Linked (new :: xs) := by
  have hmem : new ∉ xs := h.fresh hfresh
  unfold DList.addHead
  rw [if_neg hnew, newNode_eq hnew]
  cases xs with
  | nil =>
      have hhead : s.head = 0 := h.head_eq_zero_iff.2 rfl
      change ∃ s', (if s.head = 0 then _ else _) = _ ∧ _
      rw [if_pos hhead]
      refine ⟨_, rfl, ?_⟩
      exact ⟨by simp [Seg], rfl, rfl, by simp, by simpa using hnew.symm, by simp, by simp⟩
  | cons b xs =>
      have hhead : s.head = b := h.head
      have hb : b ≠ 0 := h.ne_zero List.mem_cons_self
      have hne : b ≠ new := fun hb ↦ hmem (by simp [hb])
      change ∃ s', (if s.head = 0 then _ else _) = _ ∧ _
      rw [if_neg (hhead ▸ hb), setNext_eq hnew (update_self ..)]
      change ∃ s', (setPre _ s.head new >>= _) = _ ∧ _
      rw [hhead, setPre_eq hb (by simpa [hne] using h.alloc b List.mem_cons_self)]
      refine ⟨_, rfl, ?_⟩
      have hold : ∀ y ∈ b :: xs, y ≠ new := fun y hy heq ↦ hmem (heq ▸ hy)
      constructor
      · refine Linked.splice [] [] [new] (b :: xs) h ?_ ?_ ?_ ?_ ?_
        · simp [Seg, hne.symm]
        · intro y hy
          simp [hold y hy]
        · intro y hy
          have hb : y ≠ b := fun heq ↦ (List.nodup_cons.1 h.nodup).1 (heq ▸ hy)
          simp [hold y (List.mem_cons_of_mem _ hy), hb]
        · simp
        · simp
      · rfl
      · simpa using h.tail
      · exact List.nodup_cons.2 ⟨hmem, h.nodup⟩
      · simpa [hnew.symm] using h.pos
      · intro y hy
        by_cases hy' : y = new
        · simp [hy']
        · simpa [hy'] using h.alloc y (by simpa [hy'] using hy)
      · simpa using h.bound

theorem Linked.addTail (h : s.Linked xs) (hnew : new ≠ 0) (hfresh : s.alloc new = false) :
    ∃ s', s.addTail new c = .ok (s', 1) ∧ s'.Linked (xs ++ [new]) := by
  have hmem : new ∉ xs := h.fresh hfresh
  unfold DList.addTail
  rw [if_neg hnew, newNode_eq hnew]
  obtain rfl | ⟨xs, b, rfl⟩ := xs.eq_nil_or_concat'
  · have hhead : s.head = 0 := h.head_eq_zero_iff.2 rfl
    change ∃ s', (if s.head = 0 then _ else _) = _ ∧ _
    rw [if_pos hhead]
    refine ⟨_, rfl, ?_⟩
    exact ⟨by simp [Seg], rfl, rfl, by simp, by simpa using hnew.symm, by simp, by simp⟩
  · have hhead : s.head ≠ 0 := fun h0 ↦ by simpa using h.head_eq_zero_iff.1 h0
    have htail : s.tail = b := by simpa using h.tail
    have hb : b ≠ 0 := h.ne_zero (by simp)
    have hne : b ≠ new := fun hb ↦ hmem (by simp [hb])
    change ∃ s', (if s.head = 0 then _ else _) = _ ∧ _
    rw [if_neg hhead, setPre_eq hnew (update_self ..)]
    change ∃ s', (setNext _ s.tail new >>= _) = _ ∧ _
    rw [htail, setNext_eq hb (by simpa [hne] using h.alloc b (by simp))]
    refine ⟨_, rfl, ?_⟩
    have hold : ∀ y ∈ xs ++ [b], y ≠ new := fun y hy heq ↦ hmem (heq ▸ hy)
    constructor
    · refine Linked.splice (xs ++ [b]) [] [new] [] (by simpa using h) ?_ ?_ ?_ ?_ ?_
      · simp [Seg, hne.symm]
      · intro y hy
        have hyxs : y ∈ xs := by simpa using hy
        have hb : y ≠ b := by
          rintro rfl
          exact (List.nodup_append.1 h.nodup).2.2 y hyxs y (by simp) rfl
        simp [hold y (by simp [hyxs]), hb]
      · intro y hy
        simp [hold y (by simpa using hy)]
      · simp
      · simp
    · have := h.head
      cases xs <;> simpa using this
    · simp
    · rw [List.nodup_append]
      exact ⟨h.nodup, by simp, by simpa using hold⟩
    · simpa [hnew.symm] using h.pos
    · intro y hy
      by_cases hy' : y = new
      · simp [hy']
      · simpa [hy'] using h.alloc y (by simpa [hy'] using hy)
    · simpa using h.bound

theorem Linked.popHead (h : s.Linked (a :: b :: xs)) :
    ∃ s' ret, s.popHead = .ok (s', ret) ∧ s'.Linked (b :: xs) := by
  have hhead : s.head = a := h.head
  have ha : a ≠ 0 := h.ne_zero List.mem_cons_self
  have hb : b ≠ 0 := h.ne_zero (by simp)
  have hab : a ≠ b ∧ a ∉ xs := by simpa using (List.nodup_cons.1 h.nodup).1
  have halloc : s.alloc a = true := h.alloc a List.mem_cons_self
  have hnext : s.next a = b := h.seg.2.1
  unfold DList.popHead
  rw [hhead, if_neg ha, readData_eq ha halloc]
  change ∃ s' ret, (s.readNext a >>= _) = _ ∧ _
  rw [readNext_eq ha halloc]
  change ∃ s' ret, (s.free a >>= _) = _ ∧ _
  rw [free_eq ha halloc, hnext]
  change ∃ s' ret, (setPre _ b 0 >>= _) = _ ∧ _
  rw [setPre_eq hb (by simpa [hab.1.symm] using h.alloc b (by simp))]
  refine ⟨_, _, rfl, ?_⟩
  have hnodup := List.nodup_cons.1 (List.nodup_cons.1 h.nodup).2
  constructor
  · refine Linked.splice [] [a] [] (b :: xs) h trivial (fun y hy ↦ rfl) ?_ ?_ ?_
    · intro y hy
      have hy' : y ≠ b := fun heq ↦ hnodup.1 (heq ▸ hy)
      simp [hy']
    · simp
    · simp
  · rfl
  · simpa using h.tail
  · exact (List.nodup_cons.1 h.nodup).2
  · exact fun h0 ↦ h.pos (List.mem_cons_of_mem _ h0)
  · intro y hy
    have hy' : y ≠ a := by
      rintro rfl
      exact (List.nodup_cons.1 h.nodup).1 hy
    simpa [hy'] using h.alloc y (List.mem_cons_of_mem _ hy)
  · exact Nat.le_of_succ_le h.bound

theorem Linked.popTail (h : s.Linked (xs ++ [b] ++ [a])) :
    ∃ s' ret, s.popTail = .ok (s', ret) ∧ s'.Linked (xs ++ [b]) := by
  have htail : s.tail = a := by simpa using h.tail
  have ha : a ≠ 0 := h.ne_zero (by simp)
  have hb : b ≠ 0 := h.ne_zero (by simp)
  obtain ⟨hnodup, -, hdis⟩ := List.nodup_append.1 h.nodup
  have hab : b ≠ a := hdis b (by simp) a (by simp)
  have halloc : s.alloc a = true := h.alloc a (by simp)
  have hpre : s.pre a = b := by simpa using (Seg.append_iff.1 h.seg).2.1
  unfold DList.popTail
  rw [htail, if_neg ha, readData_eq ha halloc]
  change ∃ s' ret, (s.readPre a >>= _) = _ ∧ _
  rw [readPre_eq ha halloc]
  change ∃ s' ret, (s.free a >>= _) = _ ∧ _
  rw [free_eq ha halloc, hpre]
  change ∃ s' ret, (setNext _ b 0 >>= _) = _ ∧ _
  rw [setNext_eq hb (by simpa [hab] using h.alloc b (by simp))]
  refine ⟨_, _, rfl, ?_⟩
  constructor
  · have hseg := @Linked.splice s (xs ++ [b]) [a] [] [] (update s.next b 0) s.pre
      (by simpa using h) trivial ?_ (fun y hy ↦ rfl) ?_ ?_
    · simpa using hseg
    · intro y hy
      have hy' : y ≠ b := by
        rintro rfl
        exact (List.nodup_append.1 hnodup).2.2 y (by simpa using hy) y (by simp) rfl
      simp [hy']
    · simp
    · simp
  · have := h.head
    cases xs <;> simpa using this
  · simp
  · exact hnodup
  · exact fun h0 ↦ h.pos (List.mem_append_left _ h0)
  · intro y hy
    have hy' : y ≠ a := hdis y hy a (by simp)
    simpa [hy'] using h.alloc y (List.mem_append_left _ hy)
  · have := h.bound
    simp only [List.length_append, List.length_singleton] at this ⊢
    omega

theorem Linked.popHead_single (h : s.Linked [a]) : s.popHead = .error .null := by
  have hhead : s.head = a := h.head
  have ha : a ≠ 0 := h.ne_zero List.mem_cons_self
  have halloc : s.alloc a = true := h.alloc a List.mem_cons_self
  unfold DList.popHead
  rw [hhead, if_neg ha, readData_eq ha halloc]
  change (s.readNext a >>= _) = _
  rw [readNext_eq ha halloc]
  change (s.free a >>= _) = _
  rw [free_eq ha halloc, show s.next a = 0 from h.seg.2.1]
  rfl

theorem Linked.popTail_single (h : s.Linked [a]) : s.popTail = .error .null := by
  have htail : s.tail = a := h.tail
  have ha : a ≠ 0 := h.ne_zero List.mem_cons_self
  have halloc : s.alloc a = true := h.alloc a List.mem_cons_self
  unfold DList.popTail
  rw [htail, if_neg ha, readData_eq ha halloc]
  change (s.readPre a >>= _) = _
  rw [readPre_eq ha halloc]
  change (s.free a >>= _) = _
  rw [free_eq ha halloc, show s.pre a = 0 from h.seg.1]
  rfl

/-! ## The loops over the list -/

theorem search_eq {p fuel : ℕ} (hseg : Seg s.next s.pre p xs 0)
    (halloc : ∀ a ∈ xs, a ≠ 0 ∧ s.alloc a = true) (hfuel : xs.length ≤ fuel) :
    s.search c fuel (xs.head?.getD 0) = .ok ((xs.find? fun a ↦ c = s.data a).getD 0) := by
  induction xs generalizing p fuel with
  | nil => cases fuel <;> rfl
  | cons a xs ih =>
      obtain ⟨ha, hlive⟩ := halloc a List.mem_cons_self
      obtain ⟨-, hnext, hrest⟩ := hseg
      cases fuel with
      | zero => exact absurd hfuel (by simp)
      | succ fuel =>
          have hfuel' : xs.length ≤ fuel := by simpa using hfuel
          rw [List.head?_cons, Option.getD_some, search, if_neg ha, readData_eq ha hlive,
            List.find?_cons]
          change (if c = s.data a then _ else _) = _
          by_cases hc : c = s.data a
          · rw [if_pos hc]
            simp [hc]
            rfl
          · rw [if_neg hc, readNext_eq ha hlive, hnext]
            simp only [hc, decide_false]
            exact ih hrest (fun b hb ↦ halloc b (List.mem_cons_of_mem _ hb)) hfuel'

theorem Linked.search (h : s.Linked xs) (c : UInt8) :
    s.search c s.mallocs s.head = .ok ((xs.find? fun a ↦ c = s.data a).getD 0) := by
  rw [h.head]
  exact search_eq h.seg (fun a ha ↦ ⟨h.ne_zero ha, h.alloc a ha⟩) h.bound

theorem find?_getD_split {q : ℕ → Bool} (hpos : 0 ∉ xs) (hfind : (xs.find? q).getD 0 ≠ 0) :
    ∃ ys a zs, xs = ys ++ a :: zs ∧ (xs.find? q).getD 0 = a := by
  cases hq : xs.find? q with
  | none => simp [hq] at hfind
  | some a =>
      obtain ⟨ys, zs, rfl⟩ := List.append_of_mem (List.mem_of_find?_eq_some hq)
      exact ⟨ys, a, zs, rfl, rfl⟩

/-- `del_node` with a node that stands between two others. -/
theorem Linked.delNode {e : ℕ} (h : s.Linked ((xs ++ [b]) ++ a :: e :: ys))
    (hfound : s.search c s.mallocs s.head = .ok a) :
    ∃ s', s.delNode c = .ok (s', 0) ∧ s'.Linked ((xs ++ [b]) ++ e :: ys) := by
  have ha : a ≠ 0 := h.ne_zero (by simp)
  have hb : b ≠ 0 := h.ne_zero (by simp)
  have he : e ≠ 0 := h.ne_zero (by simp)
  have halloc : s.alloc a = true := h.alloc a (by simp)
  obtain ⟨hleft, hright, hdis⟩ := List.nodup_append.1 h.nodup
  obtain ⟨hae, hright⟩ := List.nodup_cons.1 hright
  have hne : a ≠ e := fun heq ↦ hae (by simp [heq])
  have hba : b ≠ a := hdis b (by simp) a (by simp)
  have hbe : b ≠ e := hdis b (by simp) e (by simp)
  obtain ⟨-, hpre, hnext, -⟩ := Seg.append_iff.1 h.seg
  replace hpre : s.pre a = b := by simpa using hpre
  replace hnext : s.next a = e := hnext
  unfold DList.delNode
  rw [hfound]
  change ∃ s', (if a = 0 then _ else _) = _ ∧ _
  rw [if_neg ha, readNext_eq ha halloc]
  change ∃ s', (s.readPre a >>= _) = _ ∧ _
  rw [readPre_eq ha halloc, hpre, hnext]
  change ∃ s', (s.setPre e b >>= _) = _ ∧ _
  rw [setPre_eq he (h.alloc e (by simp))]
  have hkept : update s.pre e b a = b := (update_of_ne hne ..).trans hpre
  change ∃ s', (readPre _ a >>= _) = _ ∧ _
  rw [@readPre_eq { s with pre := update s.pre e b } a ha halloc]
  simp only [hkept]
  change ∃ s', (readNext _ a >>= _) = _ ∧ _
  rw [@readNext_eq { s with pre := update s.pre e b } a ha halloc]
  simp only [hnext]
  change ∃ s', (setNext _ b e >>= _) = _ ∧ _
  rw [@setNext_eq { s with pre := update s.pre e b } b e hb (h.alloc b (by simp))]
  change ∃ s', (free _ a >>= _) = _ ∧ _
  rw [@free_eq { s with pre := update s.pre e b, next := update s.next b e } a ha halloc]
  refine ⟨_, rfl, ?_⟩
  constructor
  · refine Linked.splice (xs ++ [b]) [a] [] (e :: ys) h trivial ?_ ?_ ?_ ?_
    · intro y hy
      have hy' : y ≠ b := by
        rintro rfl
        rcases List.mem_append.1 hy with hy | hy
        · exact (List.nodup_append.1 hleft).2.2 y (by simpa using hy) y (by simp) rfl
        · exact hdis y (by simp) y (List.mem_cons_of_mem _ hy) rfl
      simp [hy']
    · intro y hy
      have hy' : y ≠ e := by
        rintro rfl
        rcases List.mem_append.1 hy with hy | hy
        · exact hdis y hy y (by simp) rfl
        · exact (List.nodup_cons.1 hright).1 hy
      simp [hy']
    · simp
    · simp
  · have := h.head
    cases xs <;> simpa using this
  · have := h.tail
    cases ys <;> simpa using this
  · rw [List.nodup_append]
    exact ⟨hleft, hright, fun y hy z hz ↦ hdis y hy z (List.mem_cons_of_mem _ hz)⟩
  · intro h0
    apply h.pos
    simp only [List.mem_append, List.mem_cons] at h0 ⊢
    tauto
  · intro y hy
    have hy' : y ≠ a := by
      rintro rfl
      rcases List.mem_append.1 hy with hy | hy
      · exact hdis y hy y (by simp) rfl
      · exact hae hy
    have hmem : y ∈ (xs ++ [b]) ++ a :: e :: ys := by
      simp only [List.mem_append, List.mem_cons] at hy ⊢
      tauto
    simpa [hy'] using h.alloc y hmem
  · have := h.bound
    simp only [List.length_append, List.length_cons] at this ⊢
    omega

/-- `del_node` with the first or the last node. -/
theorem Linked.delNode_end (h : s.Linked (xs ++ a :: ys)) (hend : xs = [] ∨ ys = [])
    (hfound : s.search c s.mallocs s.head = .ok a) : s.delNode c = .error .null := by
  have ha : a ≠ 0 := h.ne_zero (by simp)
  have halloc : s.alloc a = true := h.alloc a (by simp)
  obtain ⟨-, hpre, hnext, -⟩ := Seg.append_iff.1 h.seg
  unfold DList.delNode
  rw [hfound]
  change (if a = 0 then _ else _) = _
  rw [if_neg ha, readNext_eq ha halloc]
  change (s.readPre a >>= _) = _
  rw [readPre_eq ha halloc]
  change (s.setPre (s.next a) (s.pre a) >>= _) = _
  cases ys with
  | nil =>
      rw [show s.next a = 0 from hnext]
      rfl
  | cons e ys =>
      obtain rfl : xs = [] := hend.resolve_right (by simp)
      replace hpre : s.pre a = 0 := hpre
      replace hnext : s.next a = e := hnext
      have he : e ≠ 0 := h.ne_zero (by simp)
      have hne : a ≠ e := fun heq ↦ (List.nodup_cons.1 h.nodup).1 (by simp [heq])
      have hkept : update s.pre e 0 a = 0 := (update_of_ne hne ..).trans hpre
      rw [hnext, hpre, setPre_eq he (h.alloc e (by simp))]
      change (readPre _ a >>= _) = _
      rw [@readPre_eq { s with pre := update s.pre e 0 } a ha halloc]
      simp only [hkept]
      change (readNext _ a >>= _) = _
      rw [@readNext_eq { s with pre := update s.pre e 0 } a ha halloc]
      rfl

theorem Linked.malloc (h : s.Linked xs) (hfresh : s.alloc new = false) : Linked { s with
    alloc := update s.alloc new true, mallocs := s.mallocs + 1, data := update s.data new c } xs
    where
  seg := h.seg
  head := h.head
  tail := h.tail
  nodup := h.nodup
  pos := h.pos
  alloc a ha := by
    have hne : a ≠ new := fun heq ↦ h.fresh hfresh (heq ▸ ha)
    simpa [hne] using h.alloc a ha
  bound := Nat.le_succ_of_le h.bound

theorem Linked.insert (h : s.Linked (xs ++ a :: ys)) (hnew : new ≠ 0) (hmem : new ∉ xs ++ a :: ys)
    (halloc : s.alloc new = true) (hbound : (xs ++ a :: ys).length < s.mallocs) :
    ∃ s', (do
      let pre ← s.readPre a
      let s ← if pre ≠ 0 then s.setNext pre new else pure { s with head := new }
      let s ← s.setPre new pre
      let s ← s.setNext new a
      let s ← s.setPre a new
      return (s, (0 : ℤ))) = .ok (s', 0) ∧ s'.Linked (xs ++ new :: a :: ys) := by
  have ha : a ≠ 0 := h.ne_zero (by simp)
  have hlive : s.alloc a = true := h.alloc a (by simp)
  have hold : ∀ y ∈ xs ++ a :: ys, y ≠ new := fun y hy heq ↦ hmem (heq ▸ hy)
  obtain ⟨hleft, hright, hdis⟩ := List.nodup_append.1 h.nodup
  have hays := (List.nodup_cons.1 hright).1
  have hpre : s.pre a = xs.getLast?.getD 0 := (Seg.append_iff.1 h.seg).2.1
  have hperm : ∀ y, y ∈ xs ++ new :: a :: ys ↔ y = new ∨ y ∈ xs ++ a :: ys := by
    intro y
    simp only [List.mem_append, List.mem_cons]
    tauto
  have hnodup : (xs ++ new :: a :: ys).Nodup := by
    rw [List.nodup_middle]
    exact List.nodup_cons.2 ⟨hmem, h.nodup⟩
  have hpos : 0 ∉ xs ++ new :: a :: ys := by
    rw [hperm]
    rintro (h0 | h0)
    · exact hnew h0.symm
    · exact h.pos h0
  have hliveAll : ∀ y ∈ xs ++ new :: a :: ys, s.alloc y = true := by
    intro y hy
    rcases (hperm y).1 hy with rfl | hy
    · exact halloc
    · exact h.alloc y hy
  have hlen : (xs ++ new :: a :: ys).length ≤ s.mallocs := by
    simp only [List.length_append, List.length_cons] at hbound ⊢
    omega
  rw [readPre_eq ha hlive, hpre]
  obtain rfl | ⟨xs, b, rfl⟩ := xs.eq_nil_or_concat'
  · change ∃ s', (setPre { s with head := new } new 0 >>= _) = _ ∧ _
    rw [@setPre_eq { s with head := new } new 0 hnew halloc]
    change ∃ s', (setNext { s with head := new, pre := update s.pre new 0 } new a >>= _) = _ ∧ _
    rw [@setNext_eq { s with head := new, pre := update s.pre new 0 } new a hnew halloc]
    change ∃ s', (setPre { s with
      head := new, pre := update s.pre new 0, next := update s.next new a } a new >>= _) = _ ∧ _
    rw [@setPre_eq
      { s with head := new, pre := update s.pre new 0, next := update s.next new a } a new ha
      hlive]
    refine ⟨_, rfl, ?_, rfl, ?_, hnodup, hpos, hliveAll, hlen⟩
    · refine Linked.splice [] [] [new] (a :: ys) h ?_ ?_ ?_ ?_ ?_
      · simp [Seg, (hold a (by simp)).symm]
      · intro y hy
        simp [hold y (by simpa using hy)]
      · intro y hy
        have hy' : y ≠ a := fun heq ↦ hays (heq ▸ hy)
        simp [hy', hold y (List.mem_append_right _ (List.mem_cons_of_mem _ hy))]
      · simp
      · simp
    · simpa using h.tail
  · have hb : b ≠ 0 := h.ne_zero (by simp)
    have hab : b ≠ a := hdis b (by simp) a (by simp)
    rw [List.getLast?_concat, Option.getD_some]
    change ∃ s', (if b ≠ 0 then _ else _) = _ ∧ _
    rw [if_pos hb, setNext_eq hb (h.alloc b (by simp))]
    change ∃ s', (setPre { s with next := update s.next b new } new b >>= _) = _ ∧ _
    rw [@setPre_eq { s with next := update s.next b new } new b hnew halloc]
    change ∃ s', (setNext { s with
      next := update s.next b new, pre := update s.pre new b } new a >>= _) = _ ∧ _
    rw [@setNext_eq { s with next := update s.next b new, pre := update s.pre new b } new a
      hnew halloc]
    change ∃ s', (setPre { s with
      next := update (update s.next b new) new a, pre := update s.pre new b } a new >>= _) = _ ∧ _
    rw [@setPre_eq { s with
      next := update (update s.next b new) new a, pre := update s.pre new b } a new ha hlive]
    refine ⟨_, rfl, ?_, ?_, ?_, hnodup, hpos, hliveAll, hlen⟩
    · refine Linked.splice (xs ++ [b]) [] [new] (a :: ys) h ?_ ?_ ?_ ?_ ?_
      · simp [Seg, (hold a (by simp)).symm]
      · intro y hy
        have hy' : y ≠ b := by
          rintro rfl
          rcases List.mem_append.1 hy with hy | hy
          · exact (List.nodup_append.1 hleft).2.2 y (by simpa using hy) y (by simp) rfl
          · exact hdis y (by simp) y hy rfl
        have hmem' : y ∈ (xs ++ [b]) ++ a :: ys := by
          rcases List.mem_append.1 hy with hy | hy
          · exact List.mem_append_left _ (by simpa using .inl (by simpa using hy))
          · exact List.mem_append_right _ hy
        simp [hy', hold y hmem']
      · intro y hy
        have hy' : y ≠ a := by
          rintro rfl
          rcases List.mem_append.1 hy with hy | hy
          · exact hdis y hy y (by simp) rfl
          · exact hays hy
        have hmem' : y ∈ (xs ++ [b]) ++ a :: ys := by
          rcases List.mem_append.1 hy with hy | hy
          · exact List.mem_append_left _ hy
          · exact List.mem_append_right _ (List.mem_cons_of_mem _ hy)
        simp [hy', hold y hmem']
      · simp [(hold b (by simp))]
      · simp
    · have := h.head
      cases xs <;> simpa using this
    · simpa using h.tail

/-- `add_node_before`: without a node that holds `src`, the new one is not linked. -/
theorem Linked.addNodeBefore (h : s.Linked xs) (hnew : new ≠ 0) (hfresh : s.alloc new = false) :
    ∃ s' ret ys, s.addNodeBefore new src c = .ok (s', ret) ∧ s'.Linked ys ∧
      ys.length = if ret = 0 then xs.length + 1 else xs.length := by
  have h₁ : Linked { s with
      alloc := update s.alloc new true, mallocs := s.mallocs + 1, data :=
        update s.data new c } xs :=
    h.malloc hfresh
  have hmem : new ∉ xs := h.fresh hfresh
  have hlive : update s.alloc new true new = true := update_self ..
  have hbound := h.bound
  unfold DList.addNodeBefore
  rw [setData_malloc_eq hnew]
  change ∃ s' ret ys, (DList.search { s with
    alloc := update s.alloc new true, mallocs := s.mallocs + 1, data := update s.data new c } src
      (s.mallocs + 1) s.head >>= _) = _ ∧ _
  rw [h₁.search src]
  generalize hfound : ((xs.find? fun a ↦ src = update s.data new c a).getD 0) = p
  change ∃ s' ret ys, (if p = 0 then _ else _) = _ ∧ _
  by_cases hp : p = 0
  · rw [if_pos hp]
    exact ⟨_, _, xs, rfl, h₁, rfl⟩
  · rw [if_neg hp]
    obtain ⟨ys, a, zs, rfl, ha⟩ := find?_getD_split h.pos (hfound ▸ hp)
    obtain rfl : p = a := hfound.symm.trans ha
    obtain ⟨s', hrun, hlinked⟩ := h₁.insert hnew hmem hlive (Nat.lt_succ_of_le hbound)
    exact ⟨s', 0, _, hrun, hlinked, by simp; rfl⟩

/-- `pop_all_nodes` leaves `tail` alone. -/
theorem popAllLoop_ends {fuel tmp : ℕ} {s' : DList} (hhead : s.head = tmp)
    (hrun : popAllLoop fuel tmp s = .ok s') : s'.head = 0 ∧ s'.tail = s.tail := by
  induction fuel generalizing s tmp with
  | zero =>
      rw [popAllLoop] at hrun
      split_ifs at hrun with htmp
      cases hrun
      exact ⟨hhead.trans htmp, rfl⟩
  | succ fuel ih =>
      rw [popAllLoop] at hrun
      split_ifs at hrun with htmp
      · cases hrun
        exact ⟨hhead.trans htmp, rfl⟩
      · unfold readNext free at hrun
        cases hread : s.access tmp with
        | error e => simp [hread, bind, Except.bind] at hrun
        | ok =>
            rw [hhead, hread] at hrun
            exact @ih { s with alloc := update s.alloc tmp false, head := s.next tmp }
              (s.next tmp) rfl hrun

end

/-! ## Runs -/

/-- The nodes that a traversal meets, from `p` on along `link`, up to `NULL`. -/
def Follows (s : DList) (link : ℕ → ℕ) : ℕ → List ℕ → Prop
  | p, [] => p = 0
  | p, a :: as => p = a ∧ a ≠ 0 ∧ s.alloc a = true ∧ s.Follows link (link a) as

/-- The traversals agree, and meet `n` nodes. -/
structure Consistent (s : DList) (n : ℕ) : Prop where
  ends : s.head = 0 ↔ s.tail = 0
  nodes : ∃ xs : List ℕ, xs.length = n ∧ s.Follows s.next s.head xs ∧
    s.Follows s.pre s.tail xs.reverse

/-- The number of live nodes behind a call that has returned `ret`. -/
def liveAfter (s : DList) (ret : ℤ) (n : ℕ) : Call → ℕ
  | .addHead _ _ | .addTail _ _ => if ret = 1 then n + 1 else n
  | .popHead => if s.head = 0 then n else n - 1
  | .popTail => if s.tail = 0 then n else n - 1
  | .addNodeBefore _ _ _ => if ret = 0 then n + 1 else n
  | .delNode _ => if ret = 0 then n - 1 else n
  | .popAllNodes => 0

/-- What `malloc` returns in a call. -/
def Call.new : Call → ℕ
  | .addHead new _ | .addTail new _ | .addNodeBefore new _ _ => new
  | _ => 0

/-- The list is not popped down to nothing, the node that `del_node` finds is not at an end, and
`malloc` does not fail in `add_node_before`. -/
def Call.Safe (s : DList) : Call → Prop
  | .popHead | .popTail => s.head = 0 ∨ s.head ≠ s.tail
  | .addNodeBefore new _ _ => new ≠ 0
  | .delNode c => ∀ p, s.search c s.mallocs s.head = .ok p → p = 0 ∨ p ≠ s.head ∧ p ≠ s.tail
  | .popAllNodes => s.head = 0
  | _ => True

/-- `malloc` returns addresses that are not in use. -/
def Fresh : DList → List Call → Prop
  | _, [] => True
  | s, c :: cs => (c.new = 0 ∨ s.alloc c.new = false) ∧ ∀ s' ret, s.call c = .ok (s', ret) →
      Fresh s' cs

/-- No call of the run goes wrong, and every state of it is consistent. -/
def Sound : DList → ℕ → List Call → Prop
  | s, n, [] => s.Consistent n
  | s, n, c :: cs =>
      s.Consistent n ∧ ∃ s' ret, s.call c = .ok (s', ret) ∧ Sound s' (s.liveAfter ret n c) cs

/-- Every call of the run is safe. -/
def Careful : DList → List Call → Prop
  | _, [] => True
  | s, c :: cs => c.Safe s ∧ ∀ s' ret, s.call c = .ok (s', ret) → Careful s' cs

section

variable {s : DList} {xs : List ℕ} {a b : ℕ}

theorem follows_next {p q : ℕ} {next pre : ℕ → ℕ} (hseg : Seg next pre q xs 0)
    (halloc : ∀ a ∈ xs, a ≠ 0 ∧ s.alloc a = true) (hp : p = xs.head?.getD 0) :
    s.Follows next p xs := by
  induction xs generalizing p q with
  | nil => exact hp
  | cons a xs ih =>
      obtain ⟨ha, hlive⟩ := halloc a List.mem_cons_self
      exact ⟨hp, ha, hlive, ih hseg.2.2 (fun b hb ↦ halloc b (List.mem_cons_of_mem _ hb)) hseg.2.1⟩

theorem follows_pre {p q : ℕ} {next pre : ℕ → ℕ} (hseg : Seg next pre 0 xs q)
    (halloc : ∀ a ∈ xs, a ≠ 0 ∧ s.alloc a = true) (hp : p = xs.getLast?.getD 0) :
    s.Follows pre p xs.reverse := by
  induction xs using List.reverseRecOn generalizing p q with
  | nil => exact hp
  | append_singleton xs a ih =>
      obtain ⟨ha, hlive⟩ := halloc a (by simp)
      obtain ⟨hxs, hpre, -, -⟩ := Seg.append_iff.1 hseg
      rw [List.reverse_append]
      refine ⟨by simpa using hp, ha, hlive, ?_⟩
      exact ih hxs (fun b hb ↦ halloc b (List.mem_append_left _ hb)) hpre

theorem Linked.consistent (h : s.Linked xs) : s.Consistent xs.length := by
  have halloc : ∀ a ∈ xs, a ≠ 0 ∧ s.alloc a = true := fun a ha ↦ ⟨h.ne_zero ha, h.alloc a ha⟩
  refine ⟨?_, xs, rfl, follows_next h.seg halloc h.head, follows_pre h.seg halloc h.tail⟩
  rw [h.head_eq_zero_iff, h.tail]
  obtain rfl | ⟨ys, b, rfl⟩ := xs.eq_nil_or_concat'
  · simp
  · simpa using (h.ne_zero (by simp : b ∈ ys ++ [b]))

/-- At a single node the ends agree, and only there. -/
theorem Linked.eq_single (h : s.Linked xs) (hhead : s.head ≠ 0) (heq : s.head = s.tail) :
    ∃ a, xs = [a] := by
  cases xs with
  | nil => exact absurd h.head hhead
  | cons a xs =>
      obtain rfl | ⟨ys, b, rfl⟩ := xs.eq_nil_or_concat'
      · exact ⟨a, rfl⟩
      · have hab : a = b := by
          rw [h.head, h.tail, ← List.cons_append, List.getLast?_concat] at heq
          exact heq
        exact absurd hab (by
          rintro rfl
          exact (List.nodup_cons.1 h.nodup).1 (by simp))

theorem Linked.call_safe {c : Call} (h : s.Linked xs) (hfresh : c.new = 0 ∨ s.alloc c.new = false)
    (hsafe : c.Safe s) :
    ∃ s' ret ys, s.call c = .ok (s', ret) ∧ s'.Linked ys ∧
      ys.length = s.liveAfter ret xs.length c := by
  cases c with
  | addHead new c =>
      by_cases hnew : new = 0
      · exact ⟨s, 0, xs, if_pos hnew, h, rfl⟩
      · obtain ⟨s', hrun, hlinked⟩ := h.addHead hnew (hfresh.resolve_left hnew)
        exact ⟨s', 1, _, hrun, hlinked, rfl⟩
  | addTail new c =>
      by_cases hnew : new = 0
      · exact ⟨s, 0, xs, if_pos hnew, h, rfl⟩
      · obtain ⟨s', hrun, hlinked⟩ := h.addTail hnew (hfresh.resolve_left hnew)
        exact ⟨s', 1, _, hrun, hlinked, by simp [liveAfter]⟩
  | popHead =>
      by_cases hhead : s.head = 0
      · exact ⟨s, -1, xs, if_pos hhead, h, by simp [liveAfter, hhead]⟩
      · cases xs with
        | nil => exact absurd h.head hhead
        | cons a xs =>
            cases xs with
            | nil => exact absurd (h.head.trans h.tail.symm) (hsafe.resolve_left hhead)
            | cons b xs =>
                obtain ⟨s', ret, hrun, hlinked⟩ := h.popHead
                exact ⟨s', ret, _, hrun, hlinked, by simp [liveAfter, hhead]⟩
  | popTail =>
      by_cases hhead : s.head = 0
      · have htail : s.tail = 0 := h.consistent.ends.1 hhead
        exact ⟨s, -1, xs, if_pos htail, h, by simp [liveAfter, htail]⟩
      · have htail : s.tail ≠ 0 := fun h0 ↦ hhead (h.consistent.ends.2 h0)
        obtain rfl | ⟨ys, a, rfl⟩ := xs.eq_nil_or_concat'
        · exact absurd h.head hhead
        · obtain rfl | ⟨ys, b, rfl⟩ := ys.eq_nil_or_concat'
          · exact absurd (h.head.trans h.tail.symm) (hsafe.resolve_left hhead)
          · obtain ⟨s', ret, hrun, hlinked⟩ := h.popTail
            exact ⟨s', ret, _, hrun, hlinked, by simp [liveAfter, htail]⟩
  | addNodeBefore new src c =>
      obtain ⟨s', ret, ys, hrun, hlinked, hlen⟩ :=
        @Linked.addNodeBefore s xs new c src h hsafe (hfresh.resolve_left hsafe)
      exact ⟨s', ret, ys, hrun, hlinked, hlen⟩
  | delNode c =>
      have hfound := h.search c
      rcases hsafe _ hfound with h0 | ⟨hhead, htail⟩
      · refine ⟨s, -1, xs, ?_, h, rfl⟩
        change s.delNode c = _
        unfold DList.delNode
        rw [hfound, h0]
        rfl
      · by_cases hp : ((xs.find? fun a ↦ c = s.data a).getD 0) = 0
        · refine ⟨s, -1, xs, ?_, h, rfl⟩
          change s.delNode c = _
          unfold DList.delNode
          rw [hfound, hp]
          rfl
        · obtain ⟨ys, a, zs, rfl, ha⟩ := find?_getD_split h.pos hp
          rw [ha] at hfound hhead htail
          obtain rfl | ⟨ys, b, rfl⟩ := ys.eq_nil_or_concat'
          · exact absurd h.head.symm hhead
          · cases zs with
            | nil => exact absurd (by simpa using h.tail.symm) htail
            | cons e zs =>
                obtain ⟨s', hrun, hlinked⟩ := h.delNode hfound
                exact ⟨s', 0, _, hrun, hlinked, by simp [liveAfter]⟩
  | popAllNodes =>
      have hnil := h.head_eq_zero_iff.1 hsafe
      refine ⟨s, 0, xs, ?_, h, by simp [hnil, liveAfter]⟩
      change s.popAllNodes = _
      unfold DList.popAllNodes
      rw [show s.head = 0 from hsafe]
      cases s.mallocs <;> rfl

/-- A node that stands at an end has nothing on its other side. -/
theorem Linked.eq_nil_of_end {ys zs : List ℕ} (h : s.Linked (ys ++ a :: zs))
    (hend : a = s.head ∨ a = s.tail) : ys = [] ∨ zs = [] := by
  obtain ⟨hleft, hright, hdis⟩ := List.nodup_append.1 h.nodup
  rcases hend with hhead | htail
  · cases ys with
    | nil => exact .inl rfl
    | cons y ys =>
        have hy : s.head = y := h.head
        exact absurd (hy.symm.trans hhead.symm) (hdis y (by simp) a (by simp))
  · obtain rfl | ⟨zs, z, rfl⟩ := zs.eq_nil_or_concat'
    · exact .inr rfl
    · have hz : s.tail = z := by
        rw [h.tail, ← List.cons_append, ← List.append_assoc, List.getLast?_concat]
        rfl
      have haz : a = z := htail.trans hz
      exact absurd (by simp [haz]) (List.nodup_cons.1 hright).1

theorem Linked.call_careless {c : Call} (h : s.Linked xs) (hcareless : ¬ c.Safe s) (s' : DList)
    (ret : ℤ) (n : ℕ) (hrun : s.call c = .ok (s', ret)) : ¬ s'.Consistent n := by
  cases c with
  | addHead new c => exact absurd trivial hcareless
  | addTail new c => exact absurd trivial hcareless
  | popHead =>
      obtain ⟨hhead, heq⟩ := not_or.1 hcareless
      obtain ⟨a, rfl⟩ := h.eq_single hhead (not_not.1 heq)
      rw [show s.call .popHead = .error .null from h.popHead_single] at hrun
      cases hrun
  | popTail =>
      obtain ⟨hhead, heq⟩ := not_or.1 hcareless
      obtain ⟨a, rfl⟩ := h.eq_single hhead (not_not.1 heq)
      rw [show s.call .popTail = .error .null from h.popTail_single] at hrun
      cases hrun
  | addNodeBefore new src c =>
      obtain rfl : new = 0 := not_not.1 hcareless
      change s.addNodeBefore 0 src c = _ at hrun
      unfold DList.addNodeBefore at hrun
      cases hrun
  | delNode c =>
      have hfound := h.search c
      have hbad : ((xs.find? fun a ↦ c = s.data a).getD 0) ≠ 0 ∧
          (((xs.find? fun a ↦ c = s.data a).getD 0) = s.head ∨
            ((xs.find? fun a ↦ c = s.data a).getD 0) = s.tail) := by
        by_contra hgood
        apply hcareless
        intro p hp
        rw [hfound] at hp
        cases hp
        by_cases h0 : ((xs.find? fun a ↦ c = s.data a).getD 0) = 0
        · exact .inl h0
        · exact .inr (not_or.1 fun hor ↦ hgood ⟨h0, hor⟩)
      obtain ⟨ys, a, zs, rfl, ha⟩ := find?_getD_split h.pos hbad.1
      rw [ha] at hfound hbad
      have herr : s.call (.delNode c) = .error .null :=
        h.delNode_end (h.eq_nil_of_end hbad.2) hfound
      rw [herr] at hrun
      cases hrun
  | popAllNodes =>
      change s.popAllNodes = _ at hrun
      unfold DList.popAllNodes at hrun
      cases hloop : popAllLoop s.mallocs s.head s with
      | error e => simp [hloop, bind, Except.bind] at hrun
      | ok t =>
          rw [hloop] at hrun
          obtain ⟨hhead, htail⟩ := popAllLoop_ends rfl hloop
          cases hrun
          intro hcons
          exact hcareless (h.consistent.ends.2 (htail.symm.trans (hcons.ends.1 hhead)))

theorem Linked.sound_iff (h : s.Linked xs) (cs : List Call) (hfresh : s.Fresh cs) :
    s.Sound xs.length cs ↔ s.Careful cs := by
  induction cs generalizing s xs with
  | nil => exact iff_of_true h.consistent trivial
  | cons c cs ih =>
      obtain ⟨hnew, hrest⟩ := hfresh
      by_cases hsafe : c.Safe s
      · obtain ⟨s', ret, ys, hrun, hlinked, hlen⟩ := h.call_safe hnew hsafe
        have hih := ih hlinked (hrest s' ret hrun)
        rw [hlen] at hih
        constructor
        · rintro ⟨-, t, r, ht, hsound⟩
          rw [hrun] at ht
          cases ht
          refine ⟨hsafe, fun t r ht ↦ ?_⟩
          rw [hrun] at ht
          cases ht
          exact hih.1 hsound
        · rintro ⟨-, hcareful⟩
          exact ⟨h.consistent, s', ret, hrun, hih.2 (hcareful s' ret hrun)⟩
      · constructor
        · rintro ⟨-, t, r, ht, hsound⟩
          have hcons : t.Consistent (s.liveAfter r xs.length c) := by
            cases cs with
            | nil => exact hsound
            | cons c' cs => exact hsound.1
          exact absurd hcons (h.call_careless hsafe t r _ ht)
        · rintro ⟨hsafe', -⟩
          exact absurd hsafe' hsafe

/-- From the empty list, whatever the memory holds. -/
theorem sound_iff_careful (s : DList) (hhead : s.head = 0) (htail : s.tail = 0) (cs : List Call)
    (hfresh : s.Fresh cs) : s.Sound 0 cs ↔ s.Careful cs := by
  have hempty : s.Linked [] :=
    ⟨trivial, hhead, htail, List.nodup_nil, List.not_mem_nil, by simp, Nat.zero_le _⟩
  exact hempty.sound_iff cs hfresh

/-- A node is put in and popped. -/
theorem not_sound_popHead :
    ¬∀ (s : DList) (cs : List Call), s.head = 0 → s.tail = 0 → s.Fresh cs → s.Sound 0 cs := by
  intro h
  have hfresh : Fresh {} [.addHead 1 97, .popHead] :=
    ⟨.inr rfl, fun _ _ _ ↦ ⟨.inl rfl, fun _ _ _ ↦ trivial⟩⟩
  obtain ⟨-, s', ret, hadd, -, t, r, hpop, -⟩ := h {} [.addHead 1 97, .popHead] rfl rfl hfresh
  cases hadd
  cases hpop

theorem sound_iff_careful_two :
    Sound {} 0 [.addHead 1 97, .addTail 2 98, .popHead] := by
  refine (sound_iff_careful {} rfl rfl _ ?_).2 ?_
  · refine ⟨.inr rfl, fun _ _ h ↦ ⟨.inr ?_, fun _ _ _ ↦ ⟨.inl rfl, fun _ _ _ ↦ trivial⟩⟩⟩
    cases h
    rfl
  · refine ⟨trivial, fun _ _ h ↦ ⟨trivial, fun _ _ h' ↦ ⟨.inr ?_, fun _ _ _ ↦ trivial⟩⟩⟩
    cases h
    cases h'
    decide

end

end DList

end MiniPi.Sample
