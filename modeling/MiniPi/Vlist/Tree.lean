import MiniPi.Vlist.Basic

/-!
# The trees of `avl.c`

Each node keeps the height of its right subtree less that of its left one.  The climb to the root
after an insertion or a deletion is the way back of the recursion, with a flag that says whether the
subtree has grown or shrunk.  `none` is an access to a node that is not there.
-/

namespace MiniPi.Vlist

variable {κ : Type}

/-- `struct avl_node`: the children, the balance, and the node of the list that it is in. -/
inductive AvlTree (κ : Type) where
  | nil
  | node (left : AvlTree κ) (item : Node κ) (balance : ℤ) (right : AvlTree κ)

namespace AvlTree

/-- The list that runs through the nodes: a new node stands next to its parent. -/
def toList : AvlTree κ → List (Node κ)
  | nil => []
  | node l x _ r => l.toList ++ x :: r.toList

/-- `node->balance`. -/
def balance? : AvlTree κ → Option ℤ
  | nil => none
  | node _ _ b _ => some b

/-- `avl_find`, with `avl_find_rec`. -/
def find [LinearOrder κ] : AvlTree κ → κ → Option (Node κ)
  | nil, _ => none
  | node l x _ r, key => if key < x.key then l.find key else if x.key < key then r.find key
      else some x

/-! ## Rotations -/

/-- `avl_rotate_right`. -/
def rotateRight : AvlTree κ → Option (AvlTree κ)
  | node (node ll lx lb lr) x b r =>
    let b := b + (1 - min lb 0)
    some (node ll lx (lb + (1 + max b 0)) (node lr x b r))
  | _ => none

/-- `avl_rotate_left`. -/
def rotateLeft : AvlTree κ → Option (AvlTree κ)
  | node l x b (node rl rx rb rr) =>
    let b := b - (1 + max rb 0)
    some (node (node l x b rl) rx (rb - (1 - min b 0)) rr)
  | _ => none

/-! ## Insertion -/

/-- `post_insert`, at the parent of a left child that has grown. -/
def postInsertLeft (l : AvlTree κ) (x : Node κ) (b : ℤ) (r : AvlTree κ) :
    Option (AvlTree κ × Bool) :=
  let b := b - 1
  if b = 0 then some (node l x b r, false)
  else if b = -1 then some (node l x b r, true)
  else do
    let lb ← l.balance?
    if lb = -1 then (node l x b r).rotateRight.map (·, false)
    else do
      let l ← l.rotateLeft
      (node l x b r).rotateRight.map (·, false)

/-- `post_insert`, at the parent of a right child that has grown. -/
def postInsertRight (l : AvlTree κ) (x : Node κ) (b : ℤ) (r : AvlTree κ) :
    Option (AvlTree κ × Bool) :=
  let b := b + 1
  if b = 0 then some (node l x b r, false)
  else if b = 1 then some (node l x b r, true)
  else do
    let rb ← r.balance?
    if rb = 1 then (node l x b r).rotateLeft.map (·, false)
    else do
      let r ← r.rotateRight
      (node l x b r).rotateLeft.map (·, false)

/-- A node without children. -/
def leaf (new : Node κ) : AvlTree κ := node nil new 0 nil

/-- The end of `avl_insert`: the new node becomes a child of the node where the search ended; `less`
is the outcome of the last comparison. -/
def attach (new : Node κ) (less : Bool) (l : AvlTree κ) (x : Node κ) (b : ℤ) (r : AvlTree κ) :
    AvlTree κ × Bool :=
  if b = 1 then (node (leaf new) x 0 r, false)
  else if b = -1 then (node l x 0 (leaf new), false)
  else if less then (node (leaf new) x (-1) r, true)
  else (node l x 1 (leaf new), true)

/-- `avl_insert` in a tree that is not empty; a node with the same key is an error. -/
def insertRec [LinearOrder κ] (new : Node κ) : AvlTree κ → Option (AvlTree κ × Bool)
  | nil => none
  | node l x b r =>
    if new.key < x.key then
      match l with
      | nil => some (attach new true nil x b r)
      | node ll lx lb lr => do
        let (l, grew) ← insertRec new (node ll lx lb lr)
        if grew then postInsertLeft l x b r else some (node l x b r, false)
    else if x.key < new.key then
      match r with
      | nil => some (attach new false l x b nil)
      | node rl rx rb rr => do
        let (r, grew) ← insertRec new (node rl rx rb rr)
        if grew then postInsertRight l x b r else some (node l x b r, false)
    else none

/-- `avl_insert`. -/
def insert [LinearOrder κ] (new : Node κ) : AvlTree κ → Option (AvlTree κ)
  | nil => some (leaf new)
  | t => (insertRec new t).map Prod.fst

/-! ## Deletion -/

/-- `avl_post_delete`, at the parent of a left child that has shrunk. -/
def postDeleteLeft (l : AvlTree κ) (x : Node κ) (b : ℤ) (r : AvlTree κ) :
    Option (AvlTree κ × Bool) :=
  let b := b + 1
  if b = 0 then some (node l x b r, true)
  else if b = 1 then some (node l x b r, false)
  else do
    let rb ← r.balance?
    if rb = 0 then (node l x b r).rotateLeft.map (·, false)
    else if rb = 1 then (node l x b r).rotateLeft.map (·, true)
    else do
      let r ← r.rotateRight
      (node l x b r).rotateLeft.map (·, true)

/-- `avl_post_delete`, at the parent of a right child that has shrunk. -/
def postDeleteRight (l : AvlTree κ) (x : Node κ) (b : ℤ) (r : AvlTree κ) :
    Option (AvlTree κ × Bool) :=
  let b := b - 1
  if b = 0 then some (node l x b r, true)
  else if b = -1 then some (node l x b r, false)
  else do
    let lb ← l.balance?
    if lb = 0 then (node l x b r).rotateRight.map (·, false)
    else if lb = -1 then (node l x b r).rotateRight.map (·, true)
    else do
      let l ← l.rotateLeft
      (node l x b r).rotateRight.map (·, true)

/-- `avl_delete_worker` for `avl_local_min`: the node, and the tree without it. -/
def deleteMin : AvlTree κ → Option (Node κ × AvlTree κ × Bool)
  | nil => none
  | node l x b r =>
    match l with
    | nil => some (x, r, true)
    | node ll lx lb lr => do
      let (min, l, shrank) ← deleteMin (node ll lx lb lr)
      if shrank then (postDeleteLeft l x b r).map (min, ·) else some (min, node l x b r, false)

/-- `avl_delete_worker`: the node is the one with the key.  With two children, the least node behind
it takes its place. -/
def deleteRec [LinearOrder κ] (key : κ) : AvlTree κ → Option (AvlTree κ × Bool)
  | nil => none
  | node l x b r =>
    if key < x.key then do
      let (l, shrank) ← deleteRec key l
      if shrank then postDeleteLeft l x b r else some (node l x b r, false)
    else if x.key < key then do
      let (r, shrank) ← deleteRec key r
      if shrank then postDeleteRight l x b r else some (node l x b r, false)
    else
      match l, r with
      | nil, r => some (r, true)
      | l, nil => some (l, true)
      | l, r => do
        let (min, r, shrank) ← deleteMin r
        if shrank then postDeleteRight l min b r else some (node l min b r, false)

/-- `avl_delete`. -/
def delete [LinearOrder κ] (n : Node κ) (t : AvlTree κ) : Option (AvlTree κ) :=
  (deleteRec n.key t).map Prod.fst

/-! ## Balance -/

/-- The height of a tree. -/
def height : AvlTree κ → ℤ
  | nil => 0
  | node l _ _ r => max l.height r.height + 1

/-- The balances are right, and the heights of siblings differ by at most one. -/
def Balanced : AvlTree κ → Prop
  | nil => True
  | node l _ b r => l.Balanced ∧ r.Balanced ∧ b = r.height - l.height ∧ -1 ≤ b ∧ b ≤ 1

/-- A tree that has grown is a new leaf, or leans to a side. -/
def Leans (t : AvlTree κ) : Prop := t.height = 1 ∨ t.balance? = some 1 ∨ t.balance? = some (-1)

theorem height_nonneg (t : AvlTree κ) : 0 ≤ t.height := by
  induction t with
  | nil => exact le_rfl
  | node l x b r ihl ihr =>
      rw [height]
      omega

/-- The height of a subtree by which a parent has to be rebalanced. -/
def grown (grew : Bool) : ℤ := if grew then 1 else 0

section Balance

variable {l r : AvlTree κ} {x : Node κ} {b lb rb : ℤ}

theorem Balanced.exists_balance (hl : l.Balanced) (h0 : l.height ≠ 0) :
    ∃ lb, l.balance? = some lb ∧ -1 ≤ lb ∧ lb ≤ 1 := by
  cases l with
  | nil => exact absurd rfl h0
  | node ll lx lb lr =>
      obtain ⟨-, -, -, hlo, hhi⟩ := hl
      exact ⟨lb, rfl, hlo, hhi⟩

/-- One rotation, where the left child is too high and does not lean to the right. -/
theorem rotateRight_spec (hl : l.Balanced) (hr : r.Balanced) (hb : b = r.height - l.height)
    (htwo : b = -2) (hlb : l.balance? = some lb) (hle : lb ≤ 0) :
    ∃ t, (node l x b r).rotateRight = some t ∧ t.Balanced ∧ t.toList = l.toList ++ x :: r.toList ∧
      t.height = l.height + 1 + lb := by
  rcases l with _ | ⟨ll, lx, lb', lr⟩
  · cases hlb
  obtain rfl : lb' = lb := Option.some_inj.mp hlb
  obtain ⟨hll, hlr, hlb', hlo, hhi⟩ := hl
  have hll0 := height_nonneg ll
  have hlr0 := height_nonneg lr
  simp only [height] at hb
  refine ⟨_, rfl, ?_, by simp [toList], ?_⟩
  · simp only [Balanced, height]
    refine ⟨hll, ⟨hlr, hr, ?_, ?_, ?_⟩, ?_, ?_, ?_⟩ <;> omega
  · simp only [height]
    omega

/-- One rotation, where the right child is too high and does not lean to the left. -/
theorem rotateLeft_spec (hl : l.Balanced) (hr : r.Balanced) (hb : b = r.height - l.height)
    (htwo : b = 2) (hrb : r.balance? = some rb) (hle : 0 ≤ rb) :
    ∃ t, (node l x b r).rotateLeft = some t ∧ t.Balanced ∧ t.toList = l.toList ++ x :: r.toList ∧
      t.height = r.height + 1 - rb := by
  rcases r with _ | ⟨rl, rx, rb', rr⟩
  · cases hrb
  obtain rfl : rb' = rb := Option.some_inj.mp hrb
  obtain ⟨hrl, hrr, hrb', hlo, hhi⟩ := hr
  have hrl0 := height_nonneg rl
  have hrr0 := height_nonneg rr
  simp only [height] at hb
  refine ⟨_, rfl, ?_, by simp [toList], ?_⟩
  · simp only [Balanced, height]
    refine ⟨⟨hl, hrl, ?_, ?_, ?_⟩, hrr, ?_, ?_, ?_⟩ <;> omega
  · simp only [height]
    omega

/-- Two rotations, where the left child is too high and leans to the right. -/
theorem rotateLeft_rotateRight_spec (hl : l.Balanced) (hr : r.Balanced)
    (hb : b = r.height - l.height) (htwo : b = -2) (hlb : l.balance? = some 1) :
    ∃ l' t, l.rotateLeft = some l' ∧ (node l' x b r).rotateRight = some t ∧ t.Balanced ∧
      t.toList = l.toList ++ x :: r.toList ∧ t.height = l.height := by
  rcases l with _ | ⟨ll, lx, lb, lr⟩
  · cases hlb
  obtain rfl : lb = 1 := Option.some_inj.mp hlb
  obtain ⟨hll, hlr, hlb', -, -⟩ := hl
  have hll0 := height_nonneg ll
  rcases lr with _ | ⟨a, y, c, d⟩
  · simp only [height] at hlb'
    omega
  obtain ⟨ha, hd, hc, hclo, hchi⟩ := hlr
  have ha0 := height_nonneg a
  have hd0 := height_nonneg d
  simp only [height] at hlb' hb
  refine ⟨_, _, rfl, rfl, ?_, by simp [toList], ?_⟩
  · simp only [Balanced, height]
    refine ⟨⟨hll, ha, ?_, ?_, ?_⟩, ⟨hd, hr, ?_, ?_, ?_⟩, ?_, ?_, ?_⟩ <;> omega
  · simp only [height]
    omega

/-- Two rotations, where the right child is too high and leans to the left. -/
theorem rotateRight_rotateLeft_spec (hl : l.Balanced) (hr : r.Balanced)
    (hb : b = r.height - l.height) (htwo : b = 2) (hrb : r.balance? = some (-1)) :
    ∃ r' t, r.rotateRight = some r' ∧ (node l x b r').rotateLeft = some t ∧ t.Balanced ∧
      t.toList = l.toList ++ x :: r.toList ∧ t.height = r.height := by
  rcases r with _ | ⟨rl, rx, rb, rr⟩
  · cases hrb
  obtain rfl : rb = -1 := Option.some_inj.mp hrb
  obtain ⟨hrl, hrr, hrb', -, -⟩ := hr
  have hrr0 := height_nonneg rr
  rcases rl with _ | ⟨a, y, c, d⟩
  · simp only [height] at hrb'
    omega
  obtain ⟨ha, hd, hc, hclo, hchi⟩ := hrl
  have ha0 := height_nonneg a
  have hd0 := height_nonneg d
  simp only [height] at hrb' hb
  refine ⟨_, _, rfl, rfl, ?_, by simp [toList], ?_⟩
  · simp only [Balanced, height]
    refine ⟨⟨hl, ha, ?_, ?_, ?_⟩, ⟨hd, hrr, ?_, ?_, ?_⟩, ?_, ?_, ?_⟩ <;> omega
  · simp only [height]
    omega

theorem postInsertLeft_spec (hl : l.Balanced) (hr : r.Balanced) (hb : b = r.height - (l.height - 1))
    (hlo : -1 ≤ b) (hhi : b ≤ 1) (hleans : l.Leans) :
    ∃ t grew, postInsertLeft l x b r = some (t, grew) ∧ t.Balanced ∧
      t.toList = l.toList ++ x :: r.toList ∧
      t.height = max (l.height - 1) r.height + 1 + grown grew ∧ (grew = true → t.Leans) := by
  unfold postInsertLeft
  dsimp only
  have hr0 := height_nonneg r
  by_cases h0 : b - 1 = 0
  · refine ⟨_, _, if_pos h0, ⟨hl, hr, by omega, by omega, by omega⟩, rfl, ?_, by simp⟩
    simp only [height, grown, if_false, Bool.false_eq_true]
    omega
  rw [if_neg h0]
  by_cases h1 : b - 1 = -1
  · refine ⟨_, _, if_pos h1, ⟨hl, hr, by omega, by omega, by omega⟩, rfl, ?_, fun _ ↦ ?_⟩
    · simp only [height, grown, if_true]
      omega
    · exact .inr (.inr (congrArg some h1))
  rw [if_neg h1]
  have hb' : b - 1 = r.height - l.height := by omega
  have htwo : b - 1 = -2 := by omega
  obtain ⟨lb, hlb, -, -⟩ := hl.exists_balance (by omega)
  simp only [hlb, Option.bind_eq_bind, Option.bind_some]
  by_cases hm : lb = -1
  · obtain ⟨t, hrot, hbal, hlist, hheight⟩ :=
      @rotateRight_spec κ l r x (b - 1) lb hl hr hb' htwo hlb (by omega)
    refine ⟨t, false, ?_, hbal, hlist, ?_, by simp⟩
    · rw [if_pos hm, hrot, Option.map_some]
    · simp only [grown, if_false, Bool.false_eq_true]
      omega
  · have hone : lb = 1 := by
      obtain h | h | h := hleans
      · omega
      · exact Option.some_inj.mp (hlb.symm.trans h)
      · exact absurd (Option.some_inj.mp (hlb.symm.trans h)) hm
    subst hone
    obtain ⟨l', t, hleft, hright, hbal, hlist, hheight⟩ :=
      @rotateLeft_rotateRight_spec κ l r x (b - 1) hl hr hb' htwo hlb
    refine ⟨t, false, ?_, hbal, hlist, ?_, by simp⟩
    · rw [if_neg hm, hleft, Option.bind_some, hright, Option.map_some]
    · simp only [grown, if_false, Bool.false_eq_true]
      omega

theorem postInsertRight_spec (hl : l.Balanced) (hr : r.Balanced)
    (hb : b = (r.height - 1) - l.height) (hlo : -1 ≤ b) (hhi : b ≤ 1) (hleans : r.Leans) :
    ∃ t grew, postInsertRight l x b r = some (t, grew) ∧ t.Balanced ∧
      t.toList = l.toList ++ x :: r.toList ∧
      t.height = max l.height (r.height - 1) + 1 + grown grew ∧ (grew = true → t.Leans) := by
  unfold postInsertRight
  dsimp only
  have hl0 := height_nonneg l
  by_cases h0 : b + 1 = 0
  · refine ⟨_, _, if_pos h0, ⟨hl, hr, by omega, by omega, by omega⟩, rfl, ?_, by simp⟩
    simp only [height, grown, if_false, Bool.false_eq_true]
    omega
  rw [if_neg h0]
  by_cases h1 : b + 1 = 1
  · refine ⟨_, _, if_pos h1, ⟨hl, hr, by omega, by omega, by omega⟩, rfl, ?_, fun _ ↦ ?_⟩
    · simp only [height, grown, if_true]
      omega
    · exact .inr (.inl (congrArg some h1))
  rw [if_neg h1]
  have hb' : b + 1 = r.height - l.height := by omega
  have htwo : b + 1 = 2 := by omega
  obtain ⟨rb, hrb, -, -⟩ := hr.exists_balance (by omega)
  simp only [hrb, Option.bind_eq_bind, Option.bind_some]
  by_cases hm : rb = 1
  · obtain ⟨t, hrot, hbal, hlist, hheight⟩ :=
      @rotateLeft_spec κ l r x (b + 1) rb hl hr hb' htwo hrb (by omega)
    refine ⟨t, false, ?_, hbal, hlist, ?_, by simp⟩
    · rw [if_pos hm, hrot, Option.map_some]
    · simp only [grown, if_false, Bool.false_eq_true]
      omega
  · have hone : rb = -1 := by
      obtain h | h | h := hleans
      · omega
      · exact absurd (Option.some_inj.mp (hrb.symm.trans h)) hm
      · exact Option.some_inj.mp (hrb.symm.trans h)
    subst hone
    obtain ⟨r', t, hright, hleft, hbal, hlist, hheight⟩ :=
      @rotateRight_rotateLeft_spec κ l r x (b + 1) hl hr hb' htwo hrb
    refine ⟨t, false, ?_, hbal, hlist, ?_, by simp⟩
    · rw [if_neg hm, hright, Option.bind_some, hleft, Option.map_some]
    · simp only [grown, if_false, Bool.false_eq_true]
      omega

theorem postDeleteLeft_spec (hl : l.Balanced) (hr : r.Balanced) (hb : b = r.height - (l.height + 1))
    (hlo : -1 ≤ b) (hhi : b ≤ 1) :
    ∃ t shrank, postDeleteLeft l x b r = some (t, shrank) ∧ t.Balanced ∧
      t.toList = l.toList ++ x :: r.toList ∧
      max (l.height + 1) r.height + 1 = t.height + grown shrank := by
  unfold postDeleteLeft
  dsimp only
  have hl0 := height_nonneg l
  by_cases h0 : b + 1 = 0
  · refine ⟨_, _, if_pos h0, ⟨hl, hr, by omega, by omega, by omega⟩, rfl, ?_⟩
    simp only [height, grown, if_true]
    omega
  rw [if_neg h0]
  by_cases h1 : b + 1 = 1
  · refine ⟨_, _, if_pos h1, ⟨hl, hr, by omega, by omega, by omega⟩, rfl, ?_⟩
    simp only [height, grown, if_false, Bool.false_eq_true]
    omega
  rw [if_neg h1]
  have hb' : b + 1 = r.height - l.height := by omega
  have htwo : b + 1 = 2 := by omega
  obtain ⟨rb, hrb, hrlo, hrhi⟩ := hr.exists_balance (by omega)
  simp only [hrb, Option.bind_eq_bind, Option.bind_some]
  by_cases hneg : rb = -1
  · subst hneg
    obtain ⟨r', t, hright, hleft, hbal, hlist, hheight⟩ :=
      @rotateRight_rotateLeft_spec κ l r x (b + 1) hl hr hb' htwo hrb
    refine ⟨t, true, ?_, hbal, hlist, ?_⟩
    · rw [if_neg (by omega), if_neg (by omega), hright, Option.bind_some, hleft, Option.map_some]
    · simp only [grown, if_true]
      omega
  obtain ⟨t, hrot, hbal, hlist, hheight⟩ :=
    @rotateLeft_spec κ l r x (b + 1) rb hl hr hb' htwo hrb (by omega)
  by_cases hz : rb = 0
  · refine ⟨t, false, ?_, hbal, hlist, ?_⟩
    · rw [if_pos hz, hrot, Option.map_some]
    · simp only [grown, if_false, Bool.false_eq_true]
      omega
  · refine ⟨t, true, ?_, hbal, hlist, ?_⟩
    · rw [if_neg hz, if_pos (by omega), hrot, Option.map_some]
    · simp only [grown, if_true]
      omega

theorem postDeleteRight_spec (hl : l.Balanced) (hr : r.Balanced)
    (hb : b = (r.height + 1) - l.height) (hlo : -1 ≤ b) (hhi : b ≤ 1) :
    ∃ t shrank, postDeleteRight l x b r = some (t, shrank) ∧ t.Balanced ∧
      t.toList = l.toList ++ x :: r.toList ∧
      max l.height (r.height + 1) + 1 = t.height + grown shrank := by
  unfold postDeleteRight
  dsimp only
  have hr0 := height_nonneg r
  by_cases h0 : b - 1 = 0
  · refine ⟨_, _, if_pos h0, ⟨hl, hr, by omega, by omega, by omega⟩, rfl, ?_⟩
    simp only [height, grown, if_true]
    omega
  rw [if_neg h0]
  by_cases h1 : b - 1 = -1
  · refine ⟨_, _, if_pos h1, ⟨hl, hr, by omega, by omega, by omega⟩, rfl, ?_⟩
    simp only [height, grown, if_false, Bool.false_eq_true]
    omega
  rw [if_neg h1]
  have hb' : b - 1 = r.height - l.height := by omega
  have htwo : b - 1 = -2 := by omega
  obtain ⟨lb, hlb, hllo, hlhi⟩ := hl.exists_balance (by omega)
  simp only [hlb, Option.bind_eq_bind, Option.bind_some]
  by_cases hpos : lb = 1
  · subst hpos
    obtain ⟨l', t, hleft, hright, hbal, hlist, hheight⟩ :=
      @rotateLeft_rotateRight_spec κ l r x (b - 1) hl hr hb' htwo hlb
    refine ⟨t, true, ?_, hbal, hlist, ?_⟩
    · rw [if_neg (by omega), if_neg (by omega), hleft, Option.bind_some, hright, Option.map_some]
    · simp only [grown, if_true]
      omega
  obtain ⟨t, hrot, hbal, hlist, hheight⟩ :=
    @rotateRight_spec κ l r x (b - 1) lb hl hr hb' htwo hlb (by omega)
  by_cases hz : lb = 0
  · refine ⟨t, false, ?_, hbal, hlist, ?_⟩
    · rw [if_pos hz, hrot, Option.map_some]
    · simp only [grown, if_false, Bool.false_eq_true]
      omega
  · refine ⟨t, true, ?_, hbal, hlist, ?_⟩
    · rw [if_neg hz, if_pos (by omega), hrot, Option.map_some]
    · simp only [grown, if_true]
      omega

theorem leaf_balanced (new : Node κ) : (leaf new).Balanced ∧ (leaf new).height = 1 := by
  refine ⟨⟨trivial, trivial, ?_, ?_, ?_⟩, ?_⟩ <;> simp [leaf, height]

theorem toList_leaf (new : Node κ) : (leaf new).toList = [new] := rfl

end Balance

/-! ## Insertion and deletion in the list -/

section List

variable [LinearOrder κ] {t : AvlTree κ} {new : Node κ} {key : κ}

/-- A node put into a list in the order of the keys. -/
def Inserted (new : Node κ) (l l' : List (Node κ)) : Prop :=
  ∃ pre post, l = pre ++ post ∧ l' = pre ++ new :: post ∧ (∀ n ∈ pre, n.key < new.key) ∧
    ∀ n ∈ post, new.key < n.key

theorem Inserted.append_right {l l' post : List (Node κ)} (h : Inserted new l l')
    (hpost : ∀ n ∈ post, new.key < n.key) : Inserted new (l ++ post) (l' ++ post) := by
  obtain ⟨a, b, rfl, rfl, ha, hb⟩ := h
  refine ⟨a, b ++ post, by simp, by simp, ha, fun n hn ↦ ?_⟩
  obtain hn | hn := List.mem_append.mp hn
  · exact hb n hn
  · exact hpost n hn

theorem Inserted.append_left {l l' pre : List (Node κ)} (h : Inserted new l l')
    (hpre : ∀ n ∈ pre, n.key < new.key) : Inserted new (pre ++ l) (pre ++ l') := by
  obtain ⟨a, b, rfl, rfl, ha, hb⟩ := h
  refine ⟨pre ++ a, b, by simp, by simp, fun n hn ↦ ?_, hb⟩
  obtain hn | hn := List.mem_append.mp hn
  · exact hpre n hn
  · exact ha n hn

theorem Inserted.sorted {l l' : List (Node κ)} (h : Inserted new l l') (hl : Sorted l) :
    Sorted l' := by
  obtain ⟨a, b, rfl, rfl, ha, hb⟩ := h
  rw [Sorted, List.pairwise_append] at hl ⊢
  obtain ⟨hsa, hsb, hab⟩ := hl
  refine ⟨hsa, List.pairwise_cons.mpr ⟨hb, hsb⟩, fun n hn n' hn' ↦ ?_⟩
  obtain rfl | hn' := List.mem_cons.mp hn'
  · exact ha n hn
  · exact hab n hn n' hn'

theorem Inserted.mem_iff {l l' : List (Node κ)} (h : Inserted new l l') (n : Node κ) :
    n ∈ l' ↔ n = new ∨ n ∈ l := by
  obtain ⟨a, b, rfl, rfl, -, -⟩ := h
  simp only [List.mem_append, List.mem_cons]
  tauto

/-- The keys in the parts of a tree. -/
theorem sorted_node {l r : AvlTree κ} {x : Node κ} {b : ℤ} (h : Sorted (node l x b r).toList) :
    Sorted l.toList ∧ Sorted r.toList ∧ (∀ n ∈ l.toList, n.key < x.key) ∧
      ∀ n ∈ r.toList, x.key < n.key := by
  rw [toList, Sorted, List.pairwise_append, List.pairwise_cons] at h
  obtain ⟨hl, ⟨hx, hr⟩, hlr⟩ := h
  exact ⟨hl, hr, fun n hn ↦ hlr n hn x List.mem_cons_self, hx⟩

/-- A key less than that of a node is less than all behind the node. -/
theorem lt_of_lt_item {r : AvlTree κ} {x : Node κ} (hlt : key < x.key)
    (hxr : ∀ n ∈ r.toList, x.key < n.key) : ∀ n ∈ x :: r.toList, key < n.key := by
  intro n hn
  obtain rfl | hn := List.mem_cons.mp hn
  · exact hlt
  · exact hlt.trans (hxr n hn)

theorem find_eq (h : Sorted t.toList) (key : κ) :
    t.find key = t.toList.find? fun n ↦ n.key = key := by
  induction t with
  | nil => rfl
  | node l x b r ihl ihr =>
      obtain ⟨hl, hr, hlx, hxr⟩ := sorted_node h
      have hnone (s : List (Node κ)) (hs : ∀ n ∈ s, n.key ≠ key) :
          (s.find? fun n ↦ n.key = key) = none :=
        List.find?_eq_none.mpr fun n hn ↦ by simpa using hs n hn
      rw [find, toList, List.find?_append]
      split_ifs with hlt hgt
      · have hright : ∀ n ∈ x :: r.toList, n.key ≠ key :=
          fun n hn ↦ (lt_of_lt_item hlt hxr n hn).ne'
        rw [ihl hl, hnone _ hright, Option.or_none]
      · have hleft : ∀ n ∈ l.toList, n.key ≠ key := fun n hn ↦ ((hlx n hn).trans hgt).ne
        rw [hnone _ hleft, Option.none_or, List.find?_cons_of_neg (by simpa using hgt.ne), ihr hr]
      · have heq : x.key = key := le_antisymm (not_lt.mp hlt) (not_lt.mp hgt)
        have hleft : ∀ n ∈ l.toList, n.key ≠ key := fun n hn ↦ heq ▸ (hlx n hn).ne
        rw [hnone _ hleft, Option.none_or, List.find?_cons_of_pos (by simpa using heq)]

omit [LinearOrder κ] in
/-- A new leaf on the left of a node. -/
theorem attach_left_spec {x : Node κ} {b : ℤ} {r : AvlTree κ} (hr : r.Balanced)
    (hb : b = r.height - (nil : AvlTree κ).height) (hhi : b ≤ 1) :
    ∃ t' grew, attach new true nil x b r = (t', grew) ∧ t'.Balanced ∧
      t'.toList = new :: x :: r.toList ∧ t'.height = (node nil x b r).height + grown grew ∧
      (grew = true → t'.Leans) := by
  obtain ⟨hleaf, hone⟩ := leaf_balanced new
  have hr0 := height_nonneg r
  simp only [height] at hb
  unfold attach
  by_cases h1 : b = 1
  · refine ⟨_, _, if_pos h1, ⟨hleaf, hr, by omega, by omega, by omega⟩,
      by simp [toList, toList_leaf], ?_,
      by simp⟩
    simp only [height, hone, grown, if_false, Bool.false_eq_true]
    omega
  · rw [if_neg h1, if_neg (by omega), if_pos rfl]
    refine ⟨_, _, rfl, ⟨hleaf, hr, by omega, by omega, by omega⟩, by simp [toList, toList_leaf], ?_,
      fun _ ↦ .inr (.inr rfl)⟩
    simp only [height, hone, grown, if_true]
    omega

omit [LinearOrder κ] in
/-- A new leaf on the right of a node. -/
theorem attach_right_spec {l : AvlTree κ} {x : Node κ} {b : ℤ} (hl : l.Balanced)
    (hb : b = (nil : AvlTree κ).height - l.height) (hlo : -1 ≤ b) :
    ∃ t' grew, attach new false l x b nil = (t', grew) ∧ t'.Balanced ∧
      t'.toList = l.toList ++ [x, new] ∧ t'.height = (node l x b nil).height + grown grew ∧
      (grew = true → t'.Leans) := by
  obtain ⟨hleaf, hone⟩ := leaf_balanced new
  have hl0 := height_nonneg l
  simp only [height] at hb
  unfold attach
  rw [if_neg (show b ≠ 1 by omega)]
  by_cases h1 : b = -1
  · refine ⟨_, _, if_pos h1, ⟨hl, hleaf, by omega, by omega, by omega⟩,
      by simp [toList, toList_leaf], ?_,
      by simp⟩
    simp only [height, hone, grown, if_false, Bool.false_eq_true]
    omega
  · rw [if_neg h1, if_neg Bool.false_ne_true]
    refine ⟨_, _, rfl, ⟨hl, hleaf, by omega, by omega, by omega⟩, by simp [toList, toList_leaf], ?_,
      fun _ ↦ .inr (.inl rfl)⟩
    simp only [height, hone, grown, if_true]
    omega

theorem insertRec_spec (ht : t.Balanced) (hs : Sorted t.toList)
    (hnew : ∀ n ∈ t.toList, n.key ≠ new.key) (hne : t ≠ nil) :
    ∃ t' grew, insertRec new t = some (t', grew) ∧ t'.Balanced ∧ Inserted new t.toList t'.toList ∧
      t'.height = t.height + grown grew ∧ (grew = true → t'.Leans) := by
  induction t with
  | nil => exact absurd rfl hne
  | node l x b r ihl ihr =>
      obtain ⟨hsl, hsr, hlx, hxr⟩ := sorted_node hs
      obtain ⟨hl, hr, hb, hlo, hhi⟩ := ht
      have hl0 := height_nonneg l
      have hr0 := height_nonneg r
      rw [insertRec.eq_def]
      dsimp only
      split_ifs with hlt hgt
      · have hright := lt_of_lt_item hlt hxr
        rcases l with _ | ⟨ll, lx, lb, lr⟩
        · obtain ⟨t', grew, hattach, hbal, hlist, hheight, hleans⟩ :=
            @attach_left_spec κ new x b r hr hb hhi
          refine ⟨t', grew, congrArg some hattach, hbal, ?_, hheight, hleans⟩
          exact ⟨[], x :: r.toList, rfl, hlist, by simp, hright⟩
        · have hnewl : ∀ n ∈ (node ll lx lb lr).toList, n.key ≠ new.key := fun n hn ↦
            hnew n (List.mem_append_left _ hn)
          obtain ⟨l', grew, hrec, hl', hins, hheight, hleans⟩ := ihl hl hsl hnewl (by simp)
          have hins' := hins.append_right hright
          dsimp only [Option.bind_eq_bind]
          rw [hrec, Option.bind_some]
          cases grew with
          | false =>
              simp only [grown, Bool.false_eq_true, if_false, Int.add_zero] at hheight
              have hb' : b = r.height - l'.height := by omega
              refine ⟨node l' x b r, false, rfl, ⟨hl', hr, hb', hlo, hhi⟩, hins', ?_, by simp⟩
              simp only [height, grown, Bool.false_eq_true, if_false] at hheight ⊢
              omega
          | true =>
              simp only [grown, if_true] at hheight
              obtain ⟨t', grew', hpost, hbal, hlist, hheight', hleans'⟩ :=
                @postInsertLeft_spec κ l' r x b hl' hr (by omega) hlo hhi (hleans rfl)
              refine ⟨t', grew', hpost, hbal, ?_, ?_, hleans'⟩
              · rw [hlist]
                exact hins'
              · rw [hheight', hheight]
                simp only [height]
                omega
      · have hleft : ∀ n ∈ l.toList ++ [x], n.key < new.key := by
          intro n hn
          obtain hn | hn := List.mem_append.mp hn
          · exact (hlx n hn).trans hgt
          · rwa [List.mem_singleton.mp hn]
        rcases r with _ | ⟨rl, rx, rb, rr⟩
        · obtain ⟨t', grew, hattach, hbal, hlist, hheight, hleans⟩ :=
            @attach_right_spec κ new l x b hl hb hlo
          refine ⟨t', grew, congrArg some hattach, hbal, ?_, hheight, hleans⟩
          exact ⟨l.toList ++ [x], [], by simp [toList], by simp [hlist], hleft, by simp⟩
        · have hnewr : ∀ n ∈ (node rl rx rb rr).toList, n.key ≠ new.key := fun n hn ↦
            hnew n (List.mem_append_right _ (List.mem_cons_of_mem _ hn))
          obtain ⟨r', grew, hrec, hr', hins, hheight, hleans⟩ := ihr hr hsr hnewr (by simp)
          have hins' := hins.append_left hleft
          rw [List.append_assoc, List.append_assoc, List.singleton_append,
            List.singleton_append] at hins'
          dsimp only [Option.bind_eq_bind]
          rw [hrec, Option.bind_some]
          cases grew with
          | false =>
              simp only [grown, Bool.false_eq_true, if_false, Int.add_zero] at hheight
              have hb' : b = r'.height - l.height := by omega
              refine ⟨node l x b r', false, rfl, ⟨hl, hr', hb', hlo, hhi⟩, hins', ?_, by simp⟩
              simp only [height, grown, Bool.false_eq_true, if_false] at hheight ⊢
              omega
          | true =>
              simp only [grown, if_true] at hheight
              obtain ⟨t', grew', hpost, hbal, hlist, hheight', hleans'⟩ :=
                @postInsertRight_spec κ l r' x b hl hr' (by omega) hlo hhi (hleans rfl)
              refine ⟨t', grew', hpost, hbal, ?_, ?_, hleans'⟩
              · rw [hlist]
                exact hins'
              · rw [hheight', hheight]
                simp only [height]
                omega
      · have heq : x.key = new.key := le_antisymm (not_lt.mp hlt) (not_lt.mp hgt)
        exact absurd heq (hnew x (by simp [toList]))

/-- `avl_insert` puts a node with a new key in its place. -/
theorem insert_spec (ht : t.Balanced) (hs : Sorted t.toList)
    (hnew : ∀ n ∈ t.toList, n.key ≠ new.key) :
    ∃ t', insert new t = some t' ∧ t'.Balanced ∧ Inserted new t.toList t'.toList := by
  cases t with
  | nil => exact ⟨_, rfl, (leaf_balanced new).1, [], [], rfl, rfl, by simp, by simp⟩
  | node l x b r =>
      obtain ⟨t', grew, hrec, hbal, hins, -⟩ := insertRec_spec ht hs hnew (by simp)
      exact ⟨t', congrArg (Option.map Prod.fst) hrec, hbal, hins⟩

omit [LinearOrder κ] in
theorem deleteMin_spec (ht : t.Balanced) (hne : t ≠ nil) :
    ∃ min t' shrank, deleteMin t = some (min, t', shrank) ∧ t'.Balanced ∧
      t.toList = min :: t'.toList ∧ t.height = t'.height + grown shrank := by
  induction t with
  | nil => exact absurd rfl hne
  | node l x b r ihl _ =>
      obtain ⟨hl, hr, hb, hlo, hhi⟩ := ht
      have hr0 := height_nonneg r
      rw [deleteMin.eq_def]
      dsimp only
      rcases l with _ | ⟨ll, lx, lb, lr⟩
      · refine ⟨x, r, true, rfl, hr, rfl, ?_⟩
        simp only [height, grown, if_true]
        omega
      · obtain ⟨min, l', shrank, hrec, hl', hlist, hheight⟩ := ihl hl (by simp)
        dsimp only [Option.bind_eq_bind]
        rw [hrec, Option.bind_some]
        cases shrank with
        | false =>
            simp only [grown, Bool.false_eq_true, if_false, Int.add_zero] at hheight
            have hb' : b = r.height - l'.height := by omega
            refine ⟨min, node l' x b r, false, rfl, ⟨hl', hr, hb', hlo, hhi⟩, ?_, ?_⟩
            · rw [toList, hlist]
              rfl
            · rw [height, hheight]
              simp only [height, grown, Bool.false_eq_true, if_false]
              omega
        | true =>
            simp only [grown, if_true] at hheight
            obtain ⟨t', shrank', hpost, hbal, hlist', hheight'⟩ :=
              @postDeleteLeft_spec κ l' r x b hl' hr (by omega) hlo hhi
            refine ⟨min, t', shrank', congrArg (Option.map (min, ·)) hpost, hbal, ?_, ?_⟩
            · rw [toList, hlist, hlist']
              rfl
            · rw [height, hheight]
              omega

theorem filter_of_ne {l : List (Node κ)} (h : ∀ n ∈ l, n.key ≠ key) :
    l.filter (·.key ≠ key) = l := by
  rw [List.filter_eq_self]
  intro n hn
  simpa using h n hn

omit [LinearOrder κ] in
/-- What is left of a node with the key and two children, the least node on the right aside. -/
theorem delete_here_spec {l r : AvlTree κ} {x : Node κ} {b : ℤ} (ht : (node l x b r).Balanced)
    (hne : r ≠ nil) : ∃ t' shrank,
      ((deleteMin r).bind fun (min, r, shrank) ↦
        if shrank then postDeleteRight l min b r else some (node l min b r, false)) =
        some (t', shrank) ∧ t'.Balanced ∧ t'.toList = l.toList ++ r.toList ∧
      (node l x b r).height = t'.height + grown shrank := by
  obtain ⟨hl, hr, hb, hlo, hhi⟩ := ht
  obtain ⟨min, r', shrank, hmin, hr', hlist, hheight⟩ := deleteMin_spec hr hne
  rw [hmin, Option.bind_some, hlist]
  cases shrank with
  | false =>
      simp only [grown, Bool.false_eq_true, if_false, Int.add_zero] at hheight
      have hb' : b = r'.height - l.height := by omega
      refine ⟨node l min b r', false, rfl, ⟨hl, hr', hb', hlo, hhi⟩, rfl, ?_⟩
      simp only [height, grown, Bool.false_eq_true, if_false]
      omega
  | true =>
      simp only [grown, if_true] at hheight
      obtain ⟨t', shrank', hpost, hbal, hlist', hheight'⟩ :=
        @postDeleteRight_spec κ l r' min b hl hr' (by omega) hlo hhi
      refine ⟨t', shrank', hpost, hbal, hlist', ?_⟩
      rw [height, hheight]
      omega

theorem deleteRec_spec (ht : t.Balanced) (hs : Sorted t.toList)
    (hkey : key ∈ t.toList.map Node.key) :
    ∃ t' shrank, deleteRec key t = some (t', shrank) ∧ t'.Balanced ∧
      t'.toList = t.toList.filter (·.key ≠ key) ∧ t.height = t'.height + grown shrank := by
  induction t with
  | nil => cases hkey
  | node l x b r ihl ihr =>
      obtain ⟨hsl, hsr, hlx, hxr⟩ := sorted_node hs
      have hbal₀ := ht
      obtain ⟨hl, hr, hb, hlo, hhi⟩ := ht
      have hl0 := height_nonneg l
      have hr0 := height_nonneg r
      have hfilter : (node l x b r).toList.filter (·.key ≠ key) = l.toList.filter (·.key ≠ key) ++
          (x :: r.toList).filter (·.key ≠ key) := List.filter_append ..
      rw [toList, List.map_append, List.mem_append, List.map_cons, List.mem_cons] at hkey
      rw [hfilter, deleteRec.eq_def]
      dsimp only
      split_ifs with hlt hgt
      · have hleft : key ∈ l.toList.map Node.key := by
          obtain hin | rfl | hin := hkey
          · exact hin
          · exact absurd hlt (lt_irrefl _)
          · obtain ⟨n, hn, rfl⟩ := List.mem_map.mp hin
            exact absurd (hlt.trans (hxr n hn)) (lt_irrefl _)
        have hright : ∀ n ∈ x :: r.toList, n.key ≠ key :=
          fun n hn ↦ (lt_of_lt_item hlt hxr n hn).ne'
        obtain ⟨l', shrank, hrec, hl', hlist, hheight⟩ := ihl hl hsl hleft
        rw [filter_of_ne hright, ← hlist]
        dsimp only [Option.bind_eq_bind]
        rw [hrec, Option.bind_some]
        cases shrank with
        | false =>
            simp only [grown, Bool.false_eq_true, if_false, Int.add_zero] at hheight
            have hb' : b = r.height - l'.height := by omega
            refine ⟨node l' x b r, false, rfl, ⟨hl', hr, hb', hlo, hhi⟩, rfl, ?_⟩
            simp only [height, grown, Bool.false_eq_true, if_false]
            omega
        | true =>
            simp only [grown, if_true] at hheight
            obtain ⟨t', shrank', hpost, hbal, hlist', hheight'⟩ :=
              @postDeleteLeft_spec κ l' r x b hl' hr (by omega) hlo hhi
            refine ⟨t', shrank', hpost, hbal, hlist', ?_⟩
            rw [height, hheight]
            omega
      · have hright : key ∈ r.toList.map Node.key := by
          obtain hin | rfl | hin := hkey
          · obtain ⟨n, hn, rfl⟩ := List.mem_map.mp hin
            exact absurd (hgt.trans (hlx n hn)) (lt_irrefl _)
          · exact absurd hgt (lt_irrefl _)
          · exact hin
        have hleft : ∀ n ∈ l.toList, n.key ≠ key := fun n hn ↦ ((hlx n hn).trans hgt).ne
        obtain ⟨r', shrank, hrec, hr', hlist, hheight⟩ := ihr hr hsr hright
        rw [filter_of_ne hleft, List.filter_cons_of_pos (by simpa using hgt.ne), ← hlist]
        dsimp only [Option.bind_eq_bind]
        rw [hrec, Option.bind_some]
        cases shrank with
        | false =>
            simp only [grown, Bool.false_eq_true, if_false, Int.add_zero] at hheight
            have hb' : b = r'.height - l.height := by omega
            refine ⟨node l x b r', false, rfl, ⟨hl, hr', hb', hlo, hhi⟩, rfl, ?_⟩
            simp only [height, grown, Bool.false_eq_true, if_false]
            omega
        | true =>
            simp only [grown, if_true] at hheight
            obtain ⟨t', shrank', hpost, hbal, hlist', hheight'⟩ :=
              @postDeleteRight_spec κ l r' x b hl hr' (by omega) hlo hhi
            refine ⟨t', shrank', hpost, hbal, hlist', ?_⟩
            rw [height, hheight]
            omega
      · have heq : x.key = key := le_antisymm (not_lt.mp hlt) (not_lt.mp hgt)
        have hleft : ∀ n ∈ l.toList, n.key ≠ key := fun n hn ↦ heq ▸ (hlx n hn).ne
        have hright : ∀ n ∈ r.toList, n.key ≠ key := fun n hn ↦ heq ▸ (hxr n hn).ne'
        rw [filter_of_ne hleft, List.filter_cons_of_neg (by simpa using heq), filter_of_ne hright]
        rcases l with _ | ⟨ll, lx, lb, lr⟩
        · refine ⟨r, true, rfl, hr, rfl, ?_⟩
          simp only [height, grown, if_true]
          omega
        rcases r with _ | ⟨rl, rx, rb, rr⟩
        · refine ⟨_, true, rfl, hl, (List.append_nil _).symm, ?_⟩
          simp only [height, grown, if_true] at hl0 ⊢
          omega
        · exact delete_here_spec hbal₀ (by simp)

/-- `avl_delete` takes a node of the tree out. -/
theorem delete_spec {n : Node κ} (ht : t.Balanced) (hs : Sorted t.toList) (hn : n ∈ t.toList) :
    ∃ t', delete n t = some t' ∧ t'.Balanced ∧ t'.toList = t.toList.filter (·.key ≠ n.key) := by
  obtain ⟨t', shrank, hrec, hbal, hlist, -⟩ := deleteRec_spec ht hs (List.mem_map_of_mem hn)
  exact ⟨t', congrArg (Option.map Prod.fst) hrec, hbal, hlist⟩

end List

/-! ## A tree for vlists -/

/-- Balanced, with one node for each key. -/
def Ok [LinearOrder κ] (t : AvlTree κ) : Prop := t.Balanced ∧ Sorted t.toList

end AvlTree

/-- The functions of `avl.c`; a call that fails leaves the tree as it is. -/
def avl (κ : Type) [LinearOrder κ] : Avl κ where
  Tree := AvlTree κ
  empty := .nil
  list := AvlTree.toList
  find := AvlTree.find
  insert t n := (AvlTree.insert n t).getD t
  delete t n := (AvlTree.delete n t).getD t

theorem avl_lawful (κ : Type) [LinearOrder κ] : (avl κ).Lawful AvlTree.Ok where
  empty_ok := ⟨trivial, .nil⟩
  list_empty := rfl
  sorted _ ht := ht.2
  find _ key ht := AvlTree.find_eq ht.2 key
  insert_ok t n ht hn := by
    obtain ⟨t', hinsert, hbal, hins⟩ := AvlTree.insert_spec ht.1 ht.2 hn
    change AvlTree.Ok ((AvlTree.insert n t).getD t)
    rw [hinsert]
    exact ⟨hbal, hins.sorted ht.2⟩
  mem_insert t n ht hn n' := by
    obtain ⟨t', hinsert, -, hins⟩ := AvlTree.insert_spec ht.1 ht.2 hn
    change n' ∈ ((AvlTree.insert n t).getD t).toList ↔ _
    rw [hinsert]
    exact hins.mem_iff n'
  delete_ok t n ht hn := by
    obtain ⟨t', hdelete, hbal, hlist⟩ := AvlTree.delete_spec ht.1 ht.2 hn
    change AvlTree.Ok ((AvlTree.delete n t).getD t)
    rw [hdelete]
    refine ⟨hbal, ?_⟩
    change Sorted t'.toList
    rw [hlist]
    exact ht.2.filter _
  list_delete t n ht hn := by
    obtain ⟨t', hdelete, -, hlist⟩ := AvlTree.delete_spec ht.1 ht.2 hn
    change ((AvlTree.delete n t).getD t).toList = _
    rw [hdelete]
    exact hlist

end MiniPi.Vlist
