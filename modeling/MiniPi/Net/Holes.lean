import MiniPi.Lib.Links
import MiniPi.Net.Defragment

/-!
# The list of holes

The descriptors in the buffer are read as a doubly linked list of blocks, in the order of their
places.  Each way of fixing the list is described once, for a list that is cut at the hole in
question: what the list is afterwards, and that the bytes outside of the descriptors stay.
-/

namespace MiniPi.Net

open Lib

/-! ## Descriptors as fields -/

variable {m m' : Mem} {f g : HoleField} {i j v : ℕ}

/-- A member of the descriptor at block `i`. -/
def fld (m : Mem) (f : HoleField) (i : ℕ) : ℕ := leValue (m.slice (ipHdrSize + 8 * i + f.offset) 2)

/-- The descriptor at block `i` lies in the buffer. -/
def Inside (i : ℕ) : Prop := 8 * i + 8 ≤ ipMaxUdp

/-- An address outside of the descriptor at block `i`. -/
def Off (x i : ℕ) : Prop := x < ipHdrSize + 8 * i ∨ ipHdrSize + 8 * i + 8 ≤ x

theorem offset_le (f : HoleField) : f.offset + 2 ≤ 6 := by cases f <;> decide

theorem fieldAddr_natCast (i : ℕ) (f : HoleField) :
    fieldAddr i f = ((ipHdrSize + 8 * i + f.offset : ℕ) : ℤ) := by
  simp [fieldAddr]

theorem Inside.field (h : Inside i) (f : HoleField) :
    0 ≤ fieldAddr i f ∧ fieldAddr i f + 2 ≤ ipPktSize := by
  have hf := offset_le f
  have h : 8 * i + 8 ≤ 16364 := h
  rw [fieldAddr_natCast]
  simp only [ipHdrSize, ipPktSize]
  omega

theorem readField_eq (h : Inside i) (m : Mem) (f : HoleField) :
    readField m i f = some (fld m f i) := by
  rw [readField, if_pos (h.field f), fieldAddr_natCast]
  rfl

/-- The memory after a member is set. -/
def setFld (m : Mem) (f : HoleField) (i v : ℕ) : Mem :=
  m.write (ipHdrSize + 8 * i + f.offset) (leBytes 2 v)

theorem writeField_eq (h : Inside i) (m : Mem) (f : HoleField) (hv : v < 65536) :
    writeField m i f v = some (setFld m f i v) := by
  have hmod : ((v : ℤ) % 65536).toNat = v := by omega
  rw [writeField, if_pos (h.field f), fieldAddr_natCast, hmod]
  rfl

theorem writeField_zero (h : Inside i) (m : Mem) (f : HoleField) :
    writeField m i f 0 = some (setFld m f i 0) := writeField_eq h m f (by decide)

theorem fld_setFld (hv : v < 65536) :
    fld (setFld m f i v) g j = if f = g ∧ i = j then v else fld m g j := by
  split
  next h =>
    obtain ⟨rfl, rfl⟩ := h
    have hself := @Mem.slice_write_self m (ipHdrSize + 8 * i + f.offset) (leBytes 2 v)
    rw [length_leBytes] at hself
    rw [fld, setFld, hself, leValue_leBytes]
    exact Nat.mod_eq_of_lt hv
  next h =>
    have hf := offset_le f
    have hg := offset_le g
    have hdisj : ipHdrSize + 8 * j + g.offset + 2 ≤ ipHdrSize + 8 * i + f.offset ∨
        ipHdrSize + 8 * i + f.offset + (leBytes 2 v).length ≤ ipHdrSize + 8 * j + g.offset := by
      rw [length_leBytes]
      obtain hij | rfl := ne_or_eq i j
      · omega
      · have hne : f ≠ g := fun hfg ↦ h ⟨hfg, rfl⟩
        cases f <;> cases g <;> simp [HoleField.offset] at hne ⊢
    rw [fld, setFld, Mem.slice_write_of_disjoint hdisj, fld]

theorem setFld_of_off {x : ℕ} (h : Off x i) : setFld m f i v x = m x := by
  have hf := offset_le f
  obtain h | h := h
  · exact Mem.write_of_lt (by omega)
  · exact Mem.write_of_le (by rw [length_leBytes]; omega)

/-- The memory after the descriptor at block `i` is copied to block `j`. -/
def copied (m : Mem) (i j : ℕ) : Mem :=
  m.write (ipHdrSize + 8 * j) (m.slice (ipHdrSize + 8 * i) 8)

theorem copyHole_eq (hi : Inside i) (hj : Inside j) (m : Mem) :
    copyHole m i j = some (copied m i j) := by
  have hi : 8 * i + 8 ≤ 16364 := hi
  have hj : 8 * j + 8 ≤ 16364 := hj
  have hcond : 0 ≤ (ipHdrSize : ℤ) + 8 * i ∧ (ipHdrSize : ℤ) + 8 * i + 8 ≤ ipPktSize ∧
      0 ≤ (ipHdrSize : ℤ) + 8 * j ∧ (ipHdrSize : ℤ) + 8 * j + 8 ≤ ipPktSize := by
    simp only [ipHdrSize, ipPktSize]
    omega
  rw [copyHole, if_pos hcond]
  rfl

theorem fld_copied (m : Mem) (f : HoleField) (i j k : ℕ) :
    fld (copied m i j) f k = if k = j then fld m f i else fld m f k := by
  have hf := offset_le f
  unfold fld copied
  split
  next h =>
    subst h
    congr 1
    apply Mem.slice_congr
    intro n hn
    rw [Mem.write_slice_apply, if_pos (by omega)]
    congr 1
    omega
  next h =>
    rw [Mem.slice_write_of_disjoint]
    rw [Mem.length_slice]
    omega

theorem copied_of_off {x : ℕ} (h : Off x j) : copied m i j x = m x := by
  obtain h | h := h
  · exact Mem.write_of_lt h
  · exact Mem.write_of_le (by rw [Mem.length_slice]; omega)

/-- A copy beside a descriptor leaves it alone. -/
theorem fld_write {a : ℕ} {bs : List UInt8}
    (h : ipHdrSize + 8 * i + 8 ≤ a ∨ a + bs.length ≤ ipHdrSize + 8 * i) :
    fld (m.write a bs) f i = fld m f i := by
  have hf := offset_le f
  rw [fld, Mem.slice_write_of_disjoint (by omega), fld]

theorem fld_lt (m : Mem) (f : HoleField) (i : ℕ) : fld m f i < 65536 := by
  have h := leValue_lt (m.slice (ipHdrSize + 8 * i + f.offset) 2)
  rw [Mem.length_slice] at h
  exact h

/-! ## The list -/

/-- A hole: its first block, and the byte behind it. -/
abbrev Hole := ℕ × ℕ

/-- The holes `hs` are linked in the buffer. -/
structure HoleList (m : Mem) (first : ℕ) (hs : List Hole) : Prop where
  first : first = (hs.map Prod.fst).head?.getD 0
  seg : Seg (fld m .nextHole) (fld m .prevHole) 0 (hs.map Prod.fst) 0
  last : ∀ x ∈ hs, fld m .lastByte x.1 = x.2
  inside : ∀ x ∈ hs, Inside x.1
  sorted : (hs.map Prod.fst).Pairwise (· < ·)

namespace HoleList

variable {first : ℕ} {pre post hs : List Hole} {x : Hole}

/-- The blocks before and behind a hole. -/
theorem sorted_cut (h : HoleList m first (pre ++ x :: post)) :
    (∀ y ∈ pre, y.1 < x.1) ∧ (∀ z ∈ post, x.1 < z.1) ∧ (∀ y ∈ pre, ∀ z ∈ post, y.1 < z.1) ∧
      (pre.map Prod.fst).Pairwise (· < ·) ∧ (post.map Prod.fst).Pairwise (· < ·) := by
  have hs := h.sorted
  rw [List.map_append, List.map_cons, List.pairwise_append, List.pairwise_cons] at hs
  obtain ⟨hpre, ⟨hx, hpost⟩, hcross⟩ := hs
  refine ⟨fun y hy ↦ ?_, fun z hz ↦ ?_, fun y hy z hz ↦ ?_, hpre, hpost⟩
  · exact hcross y.1 (List.mem_map_of_mem hy) x.1 (by simp)
  · exact hx z.1 (List.mem_map_of_mem hz)
  · exact hcross y.1 (List.mem_map_of_mem hy) z.1 (List.mem_cons_of_mem _ (List.mem_map_of_mem hz))

/-- The links of a hole, and of the lists before and behind it. -/
theorem seg_cut (h : HoleList m first (pre ++ x :: post)) :
    Seg (fld m .nextHole) (fld m .prevHole) 0 (pre.map Prod.fst) x.1 ∧
      fld m .prevHole x.1 = (pre.map Prod.fst).getLast?.getD 0 ∧
      fld m .nextHole x.1 = (post.map Prod.fst).head?.getD 0 ∧
      Seg (fld m .nextHole) (fld m .prevHole) x.1 (post.map Prod.fst) 0 := by
  have hseg := h.seg
  rw [List.map_append, List.map_cons, Seg.append_iff] at hseg
  exact ⟨hseg.1, hseg.2.1, hseg.2.2.1, hseg.2.2.2⟩

/-- The number of the next block is 0 only at the end of the list. -/
theorem nextHole_eq_zero_iff (h : HoleList m first (pre ++ x :: post)) :
    fld m .nextHole x.1 = 0 ↔ post = [] := by
  rw [h.seg_cut.2.2.1]
  cases post with
  | nil => simp
  | cons z post =>
      have := h.sorted_cut.2.1 z (by simp)
      simp only [List.map_cons, List.head?_cons, Option.getD_some, reduceCtorEq, iff_false]
      omega

/-- The loop finds the first hole that does not end before `start`. -/
theorem findHole_eq (h : HoleList m first (pre ++ x :: post)) {start fuel : ℕ}
    (hfuel : post.length ≤ fuel) :
    findHole m start fuel x.1 =
      some (((x :: post).find? fun y ↦ decide (start ≤ y.2)).map fun y ↦ (y.1 : ℤ)) := by
  induction post generalizing pre x fuel with
  | nil =>
      have hx := h.inside x (by simp)
      have hnext := h.nextHole_eq_zero_iff.2 rfl
      have hlast := h.last x (by simp)
      unfold findHole
      rw [readField_eq hx, readField_eq hx, hlast, hnext]
      by_cases hle : start ≤ x.2
      · have : ¬ x.2 < start := by omega
        simp [hle, this]
      · have : x.2 < start := by omega
        simp [hle, this]
  | cons z post ih =>
      have hx := h.inside x (by simp)
      have hnext : fld m .nextHole x.1 = z.1 := by
        rw [h.seg_cut.2.2.1]
        rfl
      have hz : z.1 ≠ 0 := by
        have := h.sorted_cut.2.1 z (by simp)
        omega
      have hlast := h.last x (by simp)
      obtain ⟨fuel, rfl⟩ : ∃ k, fuel = k + 1 := ⟨fuel - 1, by rw [List.length_cons] at hfuel; omega⟩
      have hrec := @ih (pre ++ [x]) z (by simpa using h) fuel (by simpa using hfuel)
      unfold findHole
      rw [readField_eq hx, readField_eq hx, hlast, hnext]
      by_cases hle : start ≤ x.2
      · have : ¬ x.2 < start := by omega
        simp [hle, this]
      · have hlt : x.2 < start := by omega
        rw [List.find?_cons_of_neg (by simpa using hle), ← hrec]
        simp [hlt, hz]

/-! ## Fixing the list -/

/-- The new memory agrees with the old one outside of the descriptors. -/
def Same (m m' : Mem) (is : List ℕ) : Prop := ∀ x, (∀ i ∈ is, Off x i) → m' x = m x

theorem same_setFld {is : List ℕ} (hi : i ∈ is) : Same m (setFld m f i v) is :=
  fun _ hx ↦ setFld_of_off (hx i hi)

theorem same_copied {is : List ℕ} (hj : j ∈ is) : Same m (copied m i j) is :=
  fun _ hx ↦ copied_of_off (hx j hj)

theorem Same.trans {m'' : Mem} {is : List ℕ} (h : Same m m' is) (h' : Same m' m'' is) :
    Same m m'' is := fun x hx ↦ (h' x hx).trans (h x hx)

theorem Same.mono {is js : List ℕ} (h : Same m m' is) (hsub : ∀ k ∈ is, k ∈ js) : Same m m' js :=
  fun x hx ↦ h x fun i hi ↦ hx i (hsub i hi)

/-- The number of the block before a hole is 0 only at the start of the list, unless block 0 is a
hole. -/
theorem prevHole_eq_zero_iff (h : HoleList m first (pre ++ x :: post))
    (hzero : ∀ y, pre.getLast? = some y → y.1 ≠ 0) : fld m .prevHole x.1 = 0 ↔ pre = [] := by
  rw [h.seg_cut.2.1, List.getLast?_map]
  obtain rfl | ⟨pre, y, rfl⟩ := pre.eq_nil_or_concat'
  · simp
  · simpa using hzero y (by simp)

theorem inside_lt (h : Inside i) : i < 65536 := by
  have h : 8 * i + 8 ≤ 16364 := h
  omega

/-- A hole is replaced by the holes `mid`. -/
theorem replace {mid : List Hole} (h : HoleList m first (pre ++ x :: post))
    (hmid : Seg (fld m' .nextHole) (fld m' .prevHole) ((pre.map Prod.fst).getLast?.getD 0)
      (mid.map Prod.fst) ((post.map Prod.fst).head?.getD 0))
    (hnext : ∀ y ∈ pre.dropLast ++ post, fld m' .nextHole y.1 = fld m .nextHole y.1)
    (hprev : ∀ y ∈ pre ++ post.tail, fld m' .prevHole y.1 = fld m .prevHole y.1)
    (hpre : ∀ y, pre.getLast? = some y →
      fld m' .nextHole y.1 = ((mid ++ post).map Prod.fst).head?.getD 0)
    (hpost : ∀ z, post.head? = some z →
      fld m' .prevHole z.1 = ((pre ++ mid).map Prod.fst).getLast?.getD 0)
    (hbytes : ∀ y ∈ pre ++ post, fld m' .lastByte y.1 = fld m .lastByte y.1)
    (hlast : ∀ y ∈ mid, fld m' .lastByte y.1 = y.2) (hinside : ∀ y ∈ mid, Inside y.1)
    (hlt : ∀ y ∈ mid, x.1 ≤ y.1 ∧ ∀ z ∈ post, y.1 < z.1)
    (hsorted : (mid.map Prod.fst).Pairwise (· < ·)) :
    HoleList m' (((pre ++ (mid ++ post)).map Prod.fst).head?.getD 0) (pre ++ (mid ++ post)) := by
  obtain ⟨hseg, -, -, hseg'⟩ := h.seg_cut
  obtain ⟨hlt₁, -, hlt₃, hsort, hsort'⟩ := h.sorted_cut
  refine ⟨rfl, ?_, ?_, ?_, ?_⟩
  · rw [List.map_append, List.map_append]
    refine hseg.replace hseg' hmid ?_ ?_ ?_ ?_
    · intro k hk
      rw [← List.map_dropLast, ← List.map_append] at hk
      obtain ⟨y, hy, rfl⟩ := List.mem_map.1 hk
      exact hnext y hy
    · intro k hk
      rw [← List.map_tail, ← List.map_append] at hk
      obtain ⟨y, hy, rfl⟩ := List.mem_map.1 hk
      exact hprev y hy
    · intro k hk
      rw [List.getLast?_map] at hk
      obtain ⟨y, hy, rfl⟩ := Option.map_eq_some_iff.1 hk
      rw [hpre y hy, List.map_append]
    · intro k hk
      rw [List.head?_map] at hk
      obtain ⟨z, hz, rfl⟩ := Option.map_eq_some_iff.1 hk
      rw [hpost z hz, List.map_append]
  · intro y hy
    have hold := fun hy ↦ (hbytes y hy).trans (h.last y (by
      obtain hy | hy := List.mem_append.1 hy <;> simp [hy]))
    simp only [List.mem_append] at hy hold
    obtain hy | hy | hy := hy
    · exact hold (.inl hy)
    · exact hlast y hy
    · exact hold (.inr hy)
  · intro y hy
    simp only [List.mem_append] at hy
    obtain hy | hy | hy := hy
    · exact h.inside y (by simp [hy])
    · exact hinside y hy
    · exact h.inside y (by simp [hy])
  · rw [List.pairwise_map] at hsort hsort' hsorted ⊢
    rw [List.pairwise_append, List.pairwise_append]
    refine ⟨hsort, ⟨hsorted, hsort', fun y hy z hz ↦ (hlt y hy).2 z hz⟩, fun y hy z hz ↦ ?_⟩
    obtain hz | hz := List.mem_append.1 hz
    · exact lt_of_lt_of_le (hlt₁ y hy) (hlt z hz).1
    · exact hlt₃ y hy z hz

/-- The links at the ends of the lists before and behind a hole, with their blocks. -/
theorem getLast_lt (h : HoleList m first (pre ++ x :: post)) {y w : Hole}
    (hy : pre.getLast? = some y) (hw : w ∈ pre.dropLast) : w.1 < y.1 := by
  obtain ⟨pre, rfl⟩ := List.getLast?_eq_some_iff.1 hy
  have hsort := h.sorted_cut.2.2.2.1
  rw [List.pairwise_map, List.pairwise_append] at hsort
  exact hsort.2.2 w (by simpa using hw) y (by simp)

theorem head_lt (h : HoleList m first (pre ++ x :: post)) {z w : Hole}
    (hz : post.head? = some z) (hw : w ∈ post.tail) : z.1 < w.1 := by
  obtain ⟨post, rfl⟩ := List.head?_eq_some_iff.1 hz
  have hsort := h.sorted_cut.2.2.2.2
  rw [List.pairwise_map, List.pairwise_cons] at hsort
  exact hsort.1 w (by simpa using hw)

theorem getLast_ne (h : HoleList m first (pre ++ x :: post)) {y : Hole}
    (hy : y ∈ pre.dropLast ++ post) : pre.getLast?.map Prod.fst ≠ some y.1 := by
  intro hlast
  obtain ⟨w, hw, hwy⟩ := Option.map_eq_some_iff.1 hlast
  obtain hy | hy := List.mem_append.1 hy
  · have := h.getLast_lt hw hy
    omega
  · have := h.sorted_cut.2.2.1 w (List.mem_of_getLast? hw) y hy
    omega

theorem head_ne (h : HoleList m first (pre ++ x :: post)) {y : Hole}
    (hy : y ∈ pre ++ post.tail) : post.head?.map Prod.fst ≠ some y.1 := by
  intro hhead
  obtain ⟨w, hw, hwy⟩ := Option.map_eq_some_iff.1 hhead
  obtain hy | hy := List.mem_append.1 hy
  · have := h.sorted_cut.2.2.1 y hy w (List.mem_of_head? hw)
    omega
  · have := h.head_lt hw hy
    omega

/-- The memory after the block behind a list of holes was told what is before it. -/
def setHeadPrev (m : Mem) (post : List Hole) (v : ℕ) : Mem :=
  match post with
  | [] => m
  | z :: _ => setFld m .prevHole z.1 v

/-- The memory after the block before a list of holes was told what is behind it. -/
def setLastNext (m : Mem) (pre : List Hole) (v : ℕ) : Mem :=
  match pre.getLast? with
  | none => m
  | some y => setFld m .nextHole y.1 v

@[simp] theorem setLastNext_concat (m : Mem) (pre : List Hole) (y : Hole) (v : ℕ) :
    setLastNext m (pre ++ [y]) v = setFld m .nextHole y.1 v := by
  simp [setLastNext]

theorem fld_setHeadPrev (hv : v < 65536) (k : ℕ) :
    fld (setHeadPrev m post v) f k =
      if f = .prevHole ∧ post.head?.map Prod.fst = some k then v else fld m f k := by
  cases post with
  | nil => simp [setHeadPrev]
  | cons z post => simp [setHeadPrev, fld_setFld hv, eq_comm]

theorem fld_setLastNext (hv : v < 65536) (k : ℕ) :
    fld (setLastNext m pre v) f k =
      if f = .nextHole ∧ pre.getLast?.map Prod.fst = some k then v else fld m f k := by
  unfold setLastNext
  cases pre.getLast? with
  | none => simp
  | some y => simp [fld_setFld hv, eq_comm]

theorem same_setHeadPrev : Same m (setHeadPrev m post v) (post.map Prod.fst) := by
  cases post with
  | nil => exact fun _ _ ↦ rfl
  | cons z post => exact same_setFld (by simp)

theorem same_setLastNext : Same m (setLastNext m pre v) (pre.map Prod.fst) := by
  unfold setLastNext
  cases h : pre.getLast? with
  | none => exact fun _ _ ↦ rfl
  | some y => exact same_setFld (List.mem_map_of_mem (List.mem_of_getLast? h))

/-- The step of the code that tells the hole behind a hole what is before it. -/
theorem linkNext_eq (h : HoleList m first (pre ++ x :: post)) {e : ℕ} (he : Inside e) :
    linkNext m' ((post.map Prod.fst).head?.getD 0) e = some (setHeadPrev m' post e) := by
  cases post with
  | nil => rfl
  | cons z post =>
      have hz := h.inside z (by simp)
      have hnz := h.sorted_cut.2.1 z (by simp)
      rw [linkNext, List.map_cons, List.head?_cons, Option.getD_some, if_neg (by omega),
        writeField_eq hz _ _ (inside_lt he)]
      rfl

theorem removeHole_singleton (h : HoleList m first [x]) (first₀ : ℕ) :
    removeHole m first₀ x.1 = some (m, first₀, true) := by
  have hx := h.inside x (by simp)
  have hprev : fld m .prevHole x.1 = 0 := (@prevHole_eq_zero_iff m first [] [] x h (by simp)).2 rfl
  have hnext : fld m .nextHole x.1 = 0 := (@nextHole_eq_zero_iff m first [] [] x h).2 rfl
  simp [removeHole, readField_eq hx, hprev, hnext]

/-- "remove hole", where other holes remain; the number of the first hole is read only when there
are holes before this one. -/
theorem removeHole_spec (h : HoleList m first (pre ++ x :: post)) (hne : pre ++ post ≠ [])
    (hzero : ∀ y, pre.getLast? = some y → y.1 ≠ 0) {first₀ : ℕ} (hfirst₀ : pre ≠ [] →
      first₀ = first) :
    ∃ m' first', removeHole m first₀ x.1 = some (m', first', false) ∧
      HoleList m' first' (pre ++ post) ∧ Same m m' ((pre ++ post).map Prod.fst) := by
  have hx := h.inside x (by simp)
  have hprev := h.prevHole_eq_zero_iff hzero
  have hnext := h.nextHole_eq_zero_iff
  obtain ⟨-, hprev', hnext', -⟩ := h.seg_cut
  have hp : fld m .prevHole x.1 < 65536 := fld_lt ..
  have hn : fld m .nextHole x.1 < 65536 := fld_lt ..
  refine ⟨setLastNext (setHeadPrev m post (fld m .prevHole x.1)) pre (fld m .nextHole x.1),
    ((pre ++ post).map Prod.fst).head?.getD 0, ?_, ?_, ?_⟩
  · have hfirst := h.first
    unfold removeHole
    rw [readField_eq hx, readField_eq hx]
    obtain rfl | ⟨pre, y, rfl⟩ := pre.eq_nil_or_concat'
    · cases post with
      | nil => simp at hne
      | cons z post =>
          have hz := h.inside z (by simp)
          have hz' : fld m .nextHole x.1 = z.1 := by rw [hnext']; rfl
          have hnz : z.1 ≠ 0 := by rw [← hz']; simp [hnext]
          simp [hprev.2 rfl, hz', hnz, writeField_zero hz, setLastNext, setHeadPrev]
    · have hy := h.inside y (by simp)
      have hy' : fld m .prevHole x.1 = y.1 := by rw [hprev']; simp
      have hny : y.1 ≠ 0 := hzero y (by simp)
      have hfirst' : first = (((pre ++ [y]) ++ post).map Prod.fst).head?.getD 0 := by
        rw [hfirst]
        cases pre <;> simp
      rw [setLastNext_concat, ← hfirst', hfirst₀ (by simp)]
      cases post with
      | nil => simp [hnext.2 rfl, hy', hny, writeField_zero hy, setHeadPrev]
      | cons z post =>
          have hz := h.inside z (by simp)
          have hz' : fld m .nextHole x.1 = z.1 := by rw [hnext']; rfl
          have hnz : z.1 ≠ 0 := by rw [← hz']; simp [hnext]
          simp [hy', hny, hz', hnz, writeField_eq hz m .prevHole (inside_lt hy),
            writeField_eq hy _ .nextHole (inside_lt hz), setHeadPrev]
  · have hfld : ∀ f k, fld (setLastNext (setHeadPrev m post (fld m .prevHole x.1)) pre
        (fld m .nextHole x.1)) f k =
        if f = .nextHole ∧ pre.getLast?.map Prod.fst = some k then fld m .nextHole x.1
        else if f = .prevHole ∧ post.head?.map Prod.fst = some k then fld m .prevHole x.1
        else fld m f k := by
      intro f k
      rw [fld_setLastNext hn, fld_setHeadPrev hp]
    refine @replace m _ first pre post x [] h trivial ?_ ?_ ?_ ?_ ?_ (by simp) (by simp) (by simp)
      .nil
    · intro y hy
      simp [hfld, h.getLast_ne hy]
    · intro y hy
      simp [hfld, h.head_ne hy]
    · intro y hy
      rw [hfld, if_pos (by simp [hy]), hnext', List.nil_append]
    · intro z hz
      rw [hfld, if_neg (by simp), if_pos (by simp [hz]), hprev', List.append_nil]
    · intro y _
      simp [hfld]
  · refine Same.trans (same_setHeadPrev.mono ?_) (same_setLastNext.mono ?_)
    · exact fun k hk ↦ by simp [List.mem_map.1 hk]
    · exact fun k hk ↦ by simp [List.mem_map.1 hk]

theorem shorten (h : HoleList m first (pre ++ x :: post)) {l : ℕ} (hl : l < 65536) :
    HoleList (setFld m .lastByte x.1 l) first (pre ++ (x.1, l) :: post) := by
  obtain ⟨hlt₁, hlt₂, -, -, -⟩ := h.sorted_cut
  have hblocks : (pre ++ (x.1, l) :: post).map Prod.fst = (pre ++ x :: post).map Prod.fst := by simp
  refine ⟨by rw [hblocks]; exact h.first, ?_, ?_, ?_, by rw [hblocks]; exact h.sorted⟩
  · rw [hblocks]
    exact h.seg.congr (fun k _ ↦ by simp [fld_setFld, hl]) fun k _ ↦ by simp [fld_setFld, hl]
  · intro y hy
    rw [fld_setFld hl]
    obtain hy | rfl | hy : y ∈ pre ∨ y = (x.1, l) ∨ y ∈ post := by simpa using hy
    · have := hlt₁ y hy
      rw [if_neg (by omega)]
      exact h.last y (by simp [hy])
    · simp
    · have := hlt₂ y hy
      rw [if_neg (by omega)]
      exact h.last y (by simp [hy])
  · intro y hy
    obtain hy | rfl | hy : y ∈ pre ∨ y = (x.1, l) ∨ y ∈ post := by simpa using hy
    · exact h.inside y (by simp [hy])
    · exact h.inside x (by simp)
    · exact h.inside y (by simp [hy])

/-- "move this hole". -/
theorem moveHole_spec (h : HoleList m first (pre ++ x :: post)) {e : ℕ} (he : Inside e)
    (hlt : x.1 < e) (hpost : ∀ z ∈ post, e < z.1)
    (hzero : ∀ y, pre.getLast? = some y → y.1 ≠ 0) {first₀ : ℕ} (hfirst₀ : pre ≠ [] →
      first₀ = first) :
    ∃ m' first', moveHole m first₀ x.1 e = some (m', first', false) ∧
      HoleList m' first' (pre ++ (e, x.2) :: post) ∧
      Same m m' (e :: (pre ++ post).map Prod.fst) := by
  have hx := h.inside x (by simp)
  have hprev := h.prevHole_eq_zero_iff hzero
  obtain ⟨hlt₁, hlt₂, hlt₃, -, -⟩ := h.sorted_cut
  obtain ⟨-, hprev', hnext', -⟩ := h.seg_cut
  have he' := inside_lt he
  have hhead : ∀ k, post.head?.map Prod.fst = some k → e < k := by
    intro k hk
    obtain ⟨z, hz, rfl⟩ := Option.map_eq_some_iff.1 hk
    exact hpost z (List.mem_of_head? hz)
  have hlast : ∀ k, pre.getLast?.map Prod.fst = some k → k < x.1 := by
    intro k hk
    obtain ⟨y, hy, rfl⟩ := Option.map_eq_some_iff.1 hk
    exact hlt₁ y (List.mem_of_getLast? hy)
  obtain ⟨m₂, hm₂⟩ : ∃ m₂, m₂ = setHeadPrev (copied m x.1 e) post e := ⟨_, rfl⟩
  have hfld : ∀ f k, fld (setLastNext m₂ pre e) f k =
      if f = .nextHole ∧ pre.getLast?.map Prod.fst = some k then e
      else if f = .prevHole ∧ post.head?.map Prod.fst = some k then e
      else if k = e then fld m f x.1 else fld m f k := by
    intro f k
    rw [fld_setLastNext he', hm₂, fld_setHeadPrev he', fld_copied]
  have hprev₂ : fld m₂ .prevHole e = fld m .prevHole x.1 := by
    rw [hm₂, fld_setHeadPrev he', fld_copied, if_pos rfl, if_neg]
    exact fun hk ↦ lt_irrefl _ (hhead e hk.2)
  have hsame : Same m (setLastNext m₂ pre e) (e :: (pre ++ post).map Prod.fst) := by
    have hcopy : Same m (copied m x.1 e) (e :: (pre ++ post).map Prod.fst) := same_copied (by simp)
    have hhead : Same (copied m x.1 e) m₂ (e :: (pre ++ post).map Prod.fst) := by
      rw [hm₂]
      exact same_setHeadPrev.mono fun k hk ↦ by simp [List.mem_map.1 hk]
    refine hcopy.trans (hhead.trans (same_setLastNext.mono ?_))
    exact fun k hk ↦ by simp [List.mem_map.1 hk]
  refine ⟨setLastNext m₂ pre e, ((pre ++ (e, x.2) :: post).map Prod.fst).head?.getD 0, ?_,
    ?_, hsame⟩
  · have hread : fld (copied m x.1 e) .nextHole e = (post.map Prod.fst).head?.getD 0 := by
      rw [fld_copied, if_pos rfl, hnext']
    unfold moveHole
    simp only [Option.bind_eq_bind]
    rw [copyHole_eq hx he, Option.bind_some, readField_eq he, Option.bind_some, hread,
      h.linkNext_eq he, Option.bind_some, ← hm₂, readField_eq he, Option.bind_some, hprev₂]
    obtain rfl | ⟨pre, y, rfl⟩ := pre.eq_nil_or_concat'
    · have hmod : ((e : ℤ) % 65536).toNat = e := by omega
      rw [if_pos (hprev.2 rfl), hmod]
      rfl
    · have hy := h.inside y (by simp)
      have hy' : fld m .prevHole x.1 = y.1 := by rw [hprev']; simp
      have hfirst := h.first
      rw [hfirst₀ (by simp), if_neg (by simp [hprev]), hy', writeField_eq hy _ _ he',
        Option.bind_some, hfirst, setLastNext_concat]
      cases pre <;> simp
  · have hpre' : ∀ y ∈ pre, y.1 ≠ e := fun y hy ↦ by have := hlt₁ y hy; omega
    have hpost' : ∀ z ∈ post, z.1 ≠ e := fun z hz ↦ by have := hpost z hz; omega
    have hnot : ∀ y ∈ pre ++ post, y.1 ≠ e := fun y hy ↦
      (List.mem_append.1 hy).elim (hpre' y) (hpost' y)
    have hne : pre.getLast?.map Prod.fst ≠ some e := fun hk ↦ by have := hlast e hk; omega
    have hne' : post.head?.map Prod.fst ≠ some e := fun hk ↦ lt_irrefl _ (hhead e hk)
    refine @replace m (setLastNext m₂ pre e) first pre post x [(e, x.2)] h ?_ ?_ ?_ ?_ ?_ ?_
      ?_ ?_ ?_ ?_
    · refine ⟨?_, ?_, trivial⟩
      · simp [hfld, hne', hprev']
      · simp [hfld, hne, hnext']
    · intro y hy
      have : y.1 ≠ e := (List.mem_append.1 hy).elim (fun hy ↦ hpre' y (List.dropLast_subset _ hy))
        (hpost' y)
      simp [hfld, h.getLast_ne hy, this]
    · intro y hy
      have : y.1 ≠ e := (List.mem_append.1 hy).elim (hpre' y) fun hy ↦
        hpost' y (List.mem_of_mem_tail hy)
      simp [hfld, h.head_ne hy, this]
    · intro y hy
      simp [hfld, hy]
    · intro z hz
      simp [hfld, hz]
    · intro y hy
      simp [hfld, hnot y hy]
    · simp [hfld, h.last x (by simp)]
    · simpa using he
    · simpa using ⟨hlt.le, fun a b ↦ hpost (a, b)⟩
    · simp

/-- "split the hole". -/
theorem splitHole_spec (h : HoleList m first (pre ++ x :: post)) {e start : ℕ} (he : Inside e)
    (hlt : x.1 < e) (hpost : ∀ z ∈ post, e < z.1) (hstart : start < 65536) :
    ∃ m', splitHole m first x.1 e start = some (m', first, false) ∧
      HoleList m' first (pre ++ (x.1, start) :: (e, x.2) :: post) ∧
      Same m m' (e :: (pre ++ x :: post).map Prod.fst) := by
  have hx := h.inside x (by simp)
  obtain ⟨hlt₁, hlt₂, hlt₃, -, -⟩ := h.sorted_cut
  obtain ⟨-, hprev', hnext', -⟩ := h.seg_cut
  have he' := inside_lt he
  have hx' := inside_lt hx
  have hhead : ∀ k, post.head?.map Prod.fst = some k → e < k := by
    intro k hk
    obtain ⟨z, hz, rfl⟩ := Option.map_eq_some_iff.1 hk
    exact hpost z (List.mem_of_head? hz)
  obtain ⟨m₂, hm₂⟩ : ∃ m₂, m₂ =
      setFld (setFld (setFld (copied m x.1 e) .lastByte x.1 start) .nextHole x.1 e)
      .prevHole e x.1 :=
    ⟨_, rfl⟩
  have hfld₂ : ∀ f k, fld m₂ f k =
      if f = .prevHole ∧ k = e then x.1
      else if f = .nextHole ∧ k = x.1 then e
      else if f = .lastByte ∧ k = x.1 then start
      else if k = e then fld m f x.1 else fld m f k := by
    intro f k
    rw [hm₂, fld_setFld hx', fld_setFld he', fld_setFld hstart, fld_copied]
    simp only [eq_comm]
  have hfld : ∀ f k, fld (setHeadPrev m₂ post e) f k =
      if f = .prevHole ∧ post.head?.map Prod.fst = some k then e else fld m₂ f k := by
    intro f k
    rw [fld_setHeadPrev he']
  refine ⟨setHeadPrev m₂ post e, ?_, ?_, ?_⟩
  · have hread : fld m₂ .nextHole e = (post.map Prod.fst).head?.getD 0 := by
      rw [hfld₂, if_neg (by simp), if_neg (by simp; omega), if_neg (by simp), if_pos rfl, hnext']
    unfold splitHole
    simp only [Option.bind_eq_bind]
    rw [copyHole_eq hx he, Option.bind_some, writeField_eq hx _ _ hstart, Option.bind_some,
      writeField_eq hx _ _ he', Option.bind_some, writeField_eq he _ _ hx', Option.bind_some, ← hm₂,
      readField_eq he, Option.bind_some, hread, h.linkNext_eq he, Option.bind_some]
  · have hfirst : first =
        ((pre ++ (x.1, start) :: (e, x.2) :: post).map Prod.fst).head?.getD 0 := by
      rw [h.first]
      cases pre <;> simp
    have hpre' : ∀ y ∈ pre, y.1 ≠ e ∧ y.1 ≠ x.1 := fun y hy ↦ by have := hlt₁ y hy; omega
    have hpost' : ∀ z ∈ post, z.1 ≠ e ∧ z.1 ≠ x.1 := fun z hz ↦ by have := hpost z hz; omega
    have hne' : post.head?.map Prod.fst ≠ some e := fun hk ↦ lt_irrefl _ (hhead e hk)
    have hne'' : post.head?.map Prod.fst ≠ some x.1 := fun hk ↦ by have := hhead _ hk; omega
    rw [hfirst]
    refine @replace m (setHeadPrev m₂ post e) first pre post x [(x.1, start), (e, x.2)] h
      ?_ ?_ ?_ ?_ ?_ ?_ ?_ ?_ ?_ ?_
    · refine ⟨?_, ?_, ?_, ?_, trivial⟩
      · simp [hfld, hfld₂, hne'', hlt.ne, hprev']
      · simp [hfld, hfld₂]
      · simp [hfld, hfld₂, hne']
      · simp [hfld, hfld₂, hlt.ne', hnext']
    · intro y hy
      have := (List.mem_append.1 hy).elim (fun hy ↦ hpre' y (List.dropLast_subset _ hy)) (hpost' y)
      simp [hfld, hfld₂, this]
    · intro y hy
      have := (List.mem_append.1 hy).elim (hpre' y) fun hy ↦ hpost' y (List.mem_of_mem_tail hy)
      simp [hfld, hfld₂, h.head_ne hy, this]
    · intro y hy
      have hnext : fld m .nextHole y.1 = x.1 := h.seg_cut.1.next_getLast (by simp [hy])
      have := hpre' y (List.mem_of_getLast? hy)
      simp [hfld, hfld₂, this, hnext]
    · intro z hz
      simp [hfld, hz]
    · intro y hy
      have := (List.mem_append.1 hy).elim (hpre' y) (hpost' y)
      simp [hfld, hfld₂, this]
    · simp [hfld, hfld₂, h.last x (by simp), hlt.ne']
    · simpa using ⟨hx, he⟩
    · intro y hy
      obtain rfl | rfl : y = (x.1, start) ∨ y = (e, x.2) := by simpa using hy
      · exact ⟨le_rfl, hlt₂⟩
      · exact ⟨hlt.le, hpost⟩
    · simpa using hlt
  · have hm : Same m m₂ (e :: (pre ++ x :: post).map Prod.fst) := by
      rw [hm₂]
      refine (same_copied (by simp)).trans ((same_setFld (by simp)).trans
        ((same_setFld (by simp)).trans (same_setFld (by simp))))
    refine hm.trans (same_setHeadPrev.mono ?_)
    exact fun k hk ↦ by simp [List.mem_map.1 hk]

/-- How the list is fixed for a fragment of `len` bytes that starts at block `o`. -/
theorem fixHoles_eq (h : HoleList m first (pre ++ x :: post)) {o len : ℕ} (ho : 8 * o < 65536) :
    fixHoles m first x.1 o len =
      if o ≤ x.1 then
        if x.2 ≤ 8 * o + len then removeHole m first x.1
        else moveHole m first x.1 ((o + len / 8 : ℕ) : ℤ)
      else if x.2 ≤ 8 * o + len then some (setFld m .lastByte x.1 (8 * o), first, false)
      else splitHole m first x.1 ((o + len / 8 : ℕ) : ℤ) ((8 * o : ℕ) : ℤ) := by
  have hx := h.inside x (by simp)
  have hnewh : (o : ℤ) + (len : ℤ).tdiv 8 = ((o + len / 8 : ℕ) : ℤ) := by
    rw [Int.tdiv_eq_ediv_of_nonneg (by omega)]
    omega
  have hstart : 8 * (o : ℤ) = ((8 * o : ℕ) : ℤ) := by omega
  unfold fixHoles
  simp only [Option.bind_eq_bind]
  rw [readField_eq hx, Option.bind_some, h.last x (by simp), hnewh, hstart,
    writeField_eq hx _ _ ho, Option.bind_some]
  by_cases hle : o ≤ x.1
  · by_cases hend : x.2 ≤ 8 * o + len
    · rw [if_pos (by omega), if_pos hle, if_pos hend]
    · rw [if_neg (by omega), if_neg (by omega), if_pos (by omega), if_pos hle, if_neg hend]
  · by_cases hend : x.2 ≤ 8 * o + len
    · rw [if_neg (by omega), if_pos (by omega), if_neg hle, if_pos hend]
    · rw [if_neg (by omega), if_neg (by omega), if_neg (by omega), if_neg hle, if_neg hend]

end HoleList

end MiniPi.Net
