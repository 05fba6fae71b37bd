import MiniPi.Ext4.Directory

/-!
# Lookups and deletion

`ext4fs_iterate_dir` also finds unused records, and ends at a record without a type whose inode
cannot be read; `search_dir` does neither.  `ext4fs_filename_unlink` leaves the name of the first
record of a block where it was.
-/

namespace MiniPi.Ext4

open Lib

/-- The walk over the file ends at such a record. -/
def Entry.Stops (readInode : ℕ → Option ℕ) (e : Entry) : Bool :=
  decide (e.name ≠ []) && (recordType readInode e.inode e.filetype).isNone

/-- The records that the walk over the file gets to. -/
def reached (readInode : ℕ → Option ℕ) (es : List Entry) : List Entry :=
  es.takeWhile fun e ↦ !e.Stops readInode

/-- Both lookups find every other name as before. -/
def KeepsOthers (readInode : ℕ → Option ℕ) (dir dir' : Directory) (name : List UInt8) : Prop :=
  ∀ other ≠ name,
    ext4fsIterateDir dir' readInode other = ext4fsIterateDir dir readInode other ∧
      searchDir dir' other = searchDir dir other

/-- Both lookups find the same; after the record is unlinked neither finds it, and each finds every
other name as before. -/
def LookupsAgree (readInode : ℕ → Option ℕ) (dir : Directory) (name : List UInt8) : Prop :=
  (∃ r, ext4fsIterateDir dir readInode name = some r ∧ r.map Prod.fst = searchDir dir name) ∧
    ∀ stored i dir', ext4fsFilenameUnlink dir stored name = some (i, dir') →
      ext4fsIterateDir dir' readInode name = some none ∧ searchDir dir' name = none ∧
        KeepsOthers readInode dir dir' name

/-- The record is not the first one of its block. -/
def Behind (blocks : List (List Entry)) (e : Entry) : Prop := ∀ b ∈ blocks, b.head? ≠ some e

/-- With its inode cleared the record ends the walk over the file, and all the other names behind it
also stand in front of it. -/
def Hides (readInode : ℕ → Option ℕ) (A : List Entry) (e : Entry) (B : List Entry) : Prop :=
  Entry.Stops readInode { e with inode := 0 } ∧
    ∀ x ∈ reached readInode B, x.name ≠ [] → x.name = e.name ∨ x.name ∈ A.map Entry.name

/-- When the lookups of a name agree: the first record of the name that the walk over the file gets
to is the used one, and when that is deleted, its name is not read again and no other name gets
lost. -/
structure Agreeable (readInode : ℕ → Option ℕ) (blocks : List (List Entry)) (name : List UInt8) :
    Prop where
  first : name ≠ [] → (reached readInode blocks.flatten).find? (·.name = name) =
    blocks.flatten.find? fun e ↦ e.inode ≠ 0 ∧ e.inode < 2 ^ 31 ∧ e.name = name
  deleted : ∀ A e B, blocks.flatten = A ++ e :: B → e.inode ≠ 0 → e.inode < 2 ^ 31 → e.name = name →
    (Behind blocks e ∧ ∀ u ∈ reached readInode B, u.name ≠ name) ∨
      (¬ Behind blocks e ∧ Hides readInode A e B)

/-! ## The walk over the file -/

section

variable {readInode : ℕ → Option ℕ} {name : List UInt8} {e : Entry} {A B es : List Entry}

theorem iterateEntries_of_stops (h : e.Stops readInode) :
    iterateEntries readInode name (e :: es) = none := by
  rw [Entry.Stops, Bool.and_eq_true, decide_eq_true_iff, Option.isNone_iff_eq_none] at h
  rw [iterateEntries, if_neg h.1, h.2]

theorem type_of_not_stops (h : e.Stops readInode = false) (hname : e.name ≠ []) :
    ∃ type, recordType readInode e.inode e.filetype = some type := by
  rw [Entry.Stops, decide_eq_true hname, Bool.true_and] at h
  apply Option.ne_none_iff_exists'.mp
  intro hnone
  rw [hnone] at h
  cases h

theorem iterateEntries_of_ne (h : e.Stops readInode = false) (hne : e.name = name → name = []) :
    iterateEntries readInode name (e :: es) = iterateEntries readInode name es := by
  rw [iterateEntries]
  by_cases hname : e.name = []
  · rw [if_pos hname]
  · obtain ⟨type, htype⟩ := type_of_not_stops h hname
    have hother : e.name ≠ name := by
      intro heq
      exact hname (heq.trans (hne heq))
    rw [if_neg hname, htype]
    dsimp only
    rw [if_neg hother]

theorem iterateEntries_of_eq (h : e.Stops readInode = false) (hname : name ≠ [])
    (heq : e.name = name) :
    ∃ type, iterateEntries readInode name (e :: es) = some (e.inode, type) := by
  subst heq
  obtain ⟨type, htype⟩ := type_of_not_stops h hname
  refine ⟨type, ?_⟩
  rw [iterateEntries, if_neg hname, htype]
  dsimp only
  rw [if_pos rfl]

theorem reached_cons_of_stops (h : e.Stops readInode) : reached readInode (e :: es) = [] := by
  rw [reached, List.takeWhile_cons_of_neg (by simp [h])]

theorem reached_cons (h : e.Stops readInode = false) :
    reached readInode (e :: es) = e :: reached readInode es := by
  rw [reached, List.takeWhile_cons_of_pos (by simp [h])]
  rfl

/-- Nothing is found if the name is at no record that is reached. -/
theorem iterateEntries_eq_none :
    iterateEntries readInode name es = none ↔ ∀ u ∈ reached readInode es, u.name = name →
    name = [] := by
  induction es with
  | nil => simp [iterateEntries, reached]
  | cons e es ih =>
      cases hstops : e.Stops readInode with
      | true => simp [iterateEntries_of_stops hstops, reached_cons_of_stops hstops]
      | false =>
          rw [reached_cons hstops, List.forall_mem_cons]
          by_cases hne : e.name = name → name = []
          · rw [iterateEntries_of_ne hstops hne, ih]
            exact (and_iff_right hne).symm
          · obtain ⟨heq, hname⟩ := Classical.not_imp.mp hne
            obtain ⟨type, hfound⟩ := @iterateEntries_of_eq _ _ _ es hstops hname heq
            rw [hfound]
            constructor
            · rintro ⟨⟩
            · rintro ⟨hnil, -⟩
              exact absurd hnil hne

/-- Behind records that do not end the walk. -/
theorem iterateEntries_append (hA : ∀ x ∈ A, x.Stops readInode = false) :
    iterateEntries readInode name (A ++ B) =
      (iterateEntries readInode name A).or (iterateEntries readInode name B) := by
  induction A with
  | nil => rfl
  | cons a A ih =>
      obtain ⟨ha, hA⟩ := List.forall_mem_cons.mp hA
      rw [List.cons_append]
      by_cases hne : a.name = name → name = []
      · rw [iterateEntries_of_ne ha hne, iterateEntries_of_ne ha hne, ih hA]
      · obtain ⟨heq, hname⟩ := Classical.not_imp.mp hne
        have hnil : a.name ≠ [] := by rwa [heq]
        obtain ⟨type, htype⟩ := type_of_not_stops ha hnil
        rw [iterateEntries, iterateEntries, if_neg hnil, if_neg hnil, htype]
        dsimp only
        rw [if_pos heq, if_pos heq]
        rfl

/-- The length of a record does not matter. -/
theorem iterateEntries_congr {p p' : Entry} (hinode : p'.inode = p.inode)
    (htype : p'.filetype = p.filetype) (hname : p'.name = p.name) :
    iterateEntries readInode name (A ++ p' :: B) = iterateEntries readInode name (A ++ p :: B) := by
  induction A with
  | nil => simp only [List.nil_append, iterateEntries, hinode, htype, hname]
  | cons a A ih => simp only [List.cons_append, iterateEntries, ih]

theorem iterateEntries_skip (h : e.Stops readInode = false) (hne : e.name = name → name = []) :
    iterateEntries readInode name (A ++ e :: B) = iterateEntries readInode name (A ++ B) := by
  induction A with
  | nil => exact iterateEntries_of_ne h hne
  | cons a A ih => simp only [List.cons_append, iterateEntries, ih]

theorem reached_append (hA : ∀ x ∈ A, x.Stops readInode = false) :
    reached readInode (A ++ B) = A ++ reached readInode B := by
  apply List.takeWhile_append_of_pos
  intro x hx
  simp [hA x hx]

theorem stops_of_mem_reached (hA : e ∉ A) (h : e ∈ reached readInode (A ++ e :: B)) :
    (∀ x ∈ A, x.Stops readInode = false) ∧ e.Stops readInode = false := by
  induction A with
  | nil =>
      refine ⟨by simp, ?_⟩
      by_contra hstops
      rw [Bool.not_eq_false] at hstops
      rw [List.nil_append, reached_cons_of_stops hstops] at h
      cases h
  | cons a A ih =>
      rw [List.mem_cons, not_or] at hA
      cases hstops : a.Stops readInode with
      | true =>
          rw [List.cons_append, reached_cons_of_stops hstops] at h
          cases h
      | false =>
          rw [List.cons_append, reached_cons hstops, List.mem_cons] at h
          obtain ⟨hrest, he⟩ := ih hA.2 (h.resolve_left hA.1)
          exact ⟨List.forall_mem_cons.mpr ⟨hstops, hrest⟩, he⟩

end

/-! ## The walk over the blocks -/

section

variable {readInode : ℕ → Option ℕ} {dir : Directory} {name : List UInt8}
  {blocks : List (List Entry)}

/-- The used records have different names. -/
def Distinct (es : List Entry) : Prop :=
  es.Pairwise fun e f ↦ e.inode ≠ 0 → f.inode ≠ 0 → e.name ≠ f.name

theorem Distinct.not_mem {A B : List Entry} {e : Entry} (h : Distinct (A ++ e :: B))
    (hused : e.inode ≠ 0) :
    ∀ x ∈ A ++ B, x.inode ≠ 0 → x.name ≠ e.name := by
  rw [Distinct, List.pairwise_append] at h
  intro x hx hx'
  rcases List.mem_append.mp hx with hA | hB
  · exact h.2.2 x hA e (by simp) hx' hused
  · exact ((List.pairwise_cons.mp h.2.1).1 x hB hused hx').symm

theorem Distinct.eq {es : List Entry} (h : Distinct es) {e f : Entry} (he : e ∈ es) (hf : f ∈ es)
    (hused : e.inode ≠ 0) (hused' : f.inode ≠ 0) (hname : e.name = f.name) : e = f := by
  obtain ⟨A, B, rfl⟩ := List.append_of_mem he
  by_contra hne
  have hmem : f ∈ A ++ B := by simpa [Ne.symm hne] using hf
  exact h.not_mem hused f hmem hused' hname.symm

/-- A used record stands in one block. -/
theorem Distinct.block_eq (h : Distinct blocks.flatten) {e : Entry} {b b' : List Entry}
    (hused : e.inode ≠ 0) (hb : b ∈ blocks) (hb' : b' ∈ blocks) (he : e ∈ b) (he' : e ∈ b') :
    b = b' := by
  obtain ⟨X, Y, rfl⟩ := List.append_of_mem hb
  obtain ⟨A, B, rfl⟩ := List.append_of_mem he
  by_contra hne
  have hother : b' ∈ X ++ Y := by simpa [Ne.symm hne] using hb'
  have hmem : e ∈ X.flatten ++ A ++ (B ++ Y.flatten) := by
    rcases List.mem_append.mp hother with hX | hY
    · exact List.mem_append_left _ (List.mem_append_left _ (List.mem_flatten.mpr ⟨b', hX, he'⟩))
    · exact List.mem_append_right _ (List.mem_append_right _ (List.mem_flatten.mpr ⟨b', hY, he'⟩))
  have hsplit : (X ++ (A ++ e :: B) :: Y).flatten = X.flatten ++ A ++ e :: (B ++ Y.flatten) := by
    simp
  rw [hsplit] at h
  exact h.not_mem hused e hmem hused rfl

/-- `search_dir` finds the used record of the name. -/
theorem LaidOut.searchDir_eq_some (h : LaidOut dir blocks) (hd : Distinct blocks.flatten) {i : ℕ} :
    searchDir dir name = some i ↔
      ∃ e ∈ blocks.flatten, e.inode = i ∧ e.inode ≠ 0 ∧ e.inode < 2 ^ 31 ∧ e.name = name := by
  have hfound {i : ℕ} (hi : searchDir dir name = some i) :
      ∃ e ∈ blocks.flatten, e.inode = i ∧ e.inode ≠ 0 ∧ e.inode < 2 ^ 31 ∧ e.name = name := by
    obtain ⟨k, hk, hk'⟩ := List.exists_of_findSome?_eq_some hi
    rw [List.mem_range, h.directoryBlocks_eq] at hk
    obtain ⟨r, hr, rfl⟩ := Option.map_eq_some_iff.mp hk'
    obtain ⟨pre, e, post, heq, hused, hlt, hname, hinode, -⟩ := h.findInBlock_eq_some hk hr
    refine ⟨e, List.mem_flatten.mpr ⟨blocks[k], List.getElem_mem hk, ?_⟩, hinode.symm, hused,
      hlt, hname⟩
    rw [heq]
    simp
  refine ⟨hfound, ?_⟩
  rintro ⟨e, he, rfl, hused, hlt, hname⟩
  obtain ⟨b, hb, heb⟩ := List.mem_flatten.mp he
  obtain ⟨k, hk, rfl⟩ := List.getElem_of_mem hb
  have hall : ∀ f ∈ blocks[k], f.inode ≠ 0 → f.name = name → f.inode < 2 ^ 31 := by
    intro f hf hused' hname'
    rw [← hd.eq he (List.mem_flatten.mpr ⟨_, hb, hf⟩) hused hused' (hname.trans hname'.symm)]
    exact hlt
  have hsome : searchDir dir name ≠ none := by
    intro hnone
    rw [searchDir, List.findSome?_eq_none_iff] at hnone
    have hnone := hnone k (by rw [List.mem_range, h.directoryBlocks_eq]; exact hk)
    rw [Option.map_eq_none_iff] at hnone
    exact h.findInBlock_ne_none hk heb hused hall hname hnone
  obtain ⟨i, hi⟩ := Option.ne_none_iff_exists'.mp hsome
  obtain ⟨f, hf, rfl, hused', -, hname'⟩ := hfound hi
  rw [hi, hd.eq hf he hused' hused (hname'.trans hname.symm)]

theorem LaidOut.searchDir_eq_none (h : LaidOut dir blocks) (hd : Distinct blocks.flatten)
    (hnone : ∀ e ∈ blocks.flatten, e.inode ≠ 0 → e.name = name → ¬ e.inode < 2 ^ 31) :
    searchDir dir name = none := by
  rw [Option.eq_none_iff_forall_ne_some]
  intro i hi
  obtain ⟨e, he, -, hused, hlt, hname⟩ := (h.searchDir_eq_some hd).mp hi
  exact hnone e he hused hname hlt

/-- Two directories with the same used records of a name. -/
theorem searchDir_congr {dir' : Directory} {blocks' : List (List Entry)} (h : LaidOut dir blocks)
    (h' : LaidOut dir' blocks') (hd : Distinct blocks.flatten) (hd' : Distinct blocks'.flatten)
    (hmem : ∀ i, (∃ e ∈ blocks'.flatten, e.inode = i ∧ e.inode ≠ 0 ∧ e.inode < 2 ^ 31 ∧
      e.name = name) ↔
      ∃ e ∈ blocks.flatten, e.inode = i ∧ e.inode ≠ 0 ∧ e.inode < 2 ^ 31 ∧ e.name = name) :
    searchDir dir' name = searchDir dir name := by
  ext i
  rw [h.searchDir_eq_some hd, h'.searchDir_eq_some hd', hmem]

end

/-! ## Deletion -/

section

variable {data : Mem} {a b new : ℕ} {e p : Entry} {post init : List Entry}

theorem Holds.setLength (h : Holds data a p) (hlen : p.direntlen ≤ new) (hdvd : 4 ∣ new)
    (hlt : new < 2 ^ 16) :
    Holds (data.write (a + 4) (leBytes 2 new)) a { p with direntlen := new } := by
  have hvalid := h.valid.length_le
  have hslice (k n : ℕ) (hk : k + n ≤ 4 ∨ 6 ≤ k) :
      (data.write (a + 4) (leBytes 2 new)).slice (a + k) n = data.slice (a + k) n := by
    apply Mem.slice_write_of_disjoint
    rw [length_leBytes]
    omega
  have hself : (data.write (a + 4) (leBytes 2 new)).slice (a + 4) 2 = leBytes 2 new := by
    have := @Mem.slice_write_self data (a + 4) (leBytes 2 new)
    rwa [length_leBytes] at this
  refine ⟨?_, ?_, ⟨by dsimp only; omega, hdvd, h.valid.terminated, h.valid.named⟩⟩
  · have hd := h.dirent_eq
    rw [dirent, Dirent.mk.injEq] at hd ⊢
    refine ⟨?_, ?_, ?_, ?_⟩
    · rw [← hd.1]
      exact congrArg leValue (hslice 0 4 (by omega))
    · rw [hself, leValue_leBytes]
      exact Nat.mod_eq_of_lt (by omega)
    · rw [← hd.2.2.1, Mem.write_of_le (by rw [length_leBytes])]
    · rw [← hd.2.2.2, Mem.write_of_le (by rw [length_leBytes]; omega)]
  · rw [hslice 8 _ (by omega), h.name_eq]

theorem Holds.clear (h : Holds data a e) :
    Holds (data.write a (leBytes 4 0)) a { e with inode := 0 } := by
  have hslice (k n : ℕ) (hk : 4 ≤ k) :
      (data.write a (leBytes 4 0)).slice (a + k) n = data.slice (a + k) n := by
    apply Mem.slice_write_of_disjoint
    rw [length_leBytes]
    omega
  have hself : (data.write a (leBytes 4 0)).slice a 4 = leBytes 4 0 := by
    have := @Mem.slice_write_self data a (leBytes 4 0)
    rwa [length_leBytes] at this
  refine ⟨?_, ?_, ⟨h.valid.length_le, h.valid.dvd, h.valid.terminated,
    fun hused ↦ absurd rfl hused⟩⟩
  · have hd := h.dirent_eq
    rw [dirent, Dirent.mk.injEq] at hd ⊢
    refine ⟨?_, ?_, ?_, ?_⟩
    · rw [hself, leValue_leBytes]
      rfl
    · rw [← hd.2.1, hslice 4 2 le_rfl]
    · rw [← hd.2.2.1, Mem.write_of_le (by rw [length_leBytes]; omega)]
    · rw [← hd.2.2.2, Mem.write_of_le (by rw [length_leBytes]; omega)]
  · dsimp only
    rw [hslice 8 _ (by omega), h.name_eq]

/-- A record is merged with the one in front of it. -/
theorem Lists.merge (h : Lists data a (init ++ p :: e :: post) b) (hlt : b - a < 2 ^ 16) :
    Lists (data.write (a + span init + 4) (leBytes 2 (p.direntlen + e.direntlen))) a
      (init ++ { p with direntlen := p.direntlen + e.direntlen } :: post) b := by
  have hend := h.end_eq
  rw [span_append, span_cons, span_cons] at hend
  rw [lists_append] at h ⊢
  obtain ⟨hinit, hp, he, hpost⟩ := h
  have hlen := hp.valid.length_le
  refine ⟨hinit.congr ?_, ?_, ?_⟩
  · intro x _ hx
    exact Mem.write_of_lt (by omega)
  · exact hp.setLength (Nat.le_add_right _ _) (Nat.dvd_add hp.valid.dvd he.valid.dvd) (by omega)
  · dsimp only
    rw [← Nat.add_assoc]
    apply hpost.congr
    intro x hx _
    apply Mem.write_of_le
    rw [length_leBytes]
    omega

theorem Lists.clear (h : Lists data a (e :: post) b) :
    Lists (data.write a (leBytes 4 0)) a ({ e with inode := 0 } :: post) b := by
  have hlen := h.1.valid.length_le
  refine ⟨h.1.clear, h.2.congr ?_⟩
  intro x hx _
  apply Mem.write_of_le
  rw [length_leBytes]
  omega

end

section

variable {readInode : ℕ → Option ℕ} {dir dir' : Directory} {name : List UInt8}
  {blocks : List (List Entry)} {stored : ℕ → Bool} {i : ℕ}

/-- One block is stored. -/
theorem LaidOut.set (h : LaidOut dir blocks) {k : ℕ} {data : Mem} {b : List Entry}
    (hb : Lists data (k * dir.blksz) b ((k + 1) * dir.blksz))
    (hframe : ∀ x, x < k * dir.blksz ∨ (k + 1) * dir.blksz ≤ x → data x = dir.data x) :
    LaidOut { dir with data } (blocks.set k b) := by
  refine ⟨h.log2_ge, by rw [List.length_set]; exact h.size_eq, h.size_lt, ?_⟩
  intro j hj
  rw [List.length_set] at hj
  rw [List.getElem_set]
  split_ifs with heq
  · subst heq
    exact hb
  · apply (h.lists j hj).congr
    intro x hx hx'
    apply hframe
    rcases Nat.lt_or_gt_of_ne heq with hlt | hgt
    · exact .inr ((Nat.mul_le_mul_right _ hlt).trans hx)
    · exact .inl (hx'.trans_le (Nat.mul_le_mul_right _ hgt))

/-- What is deleted: a record that is merged or invalidated, with the records around it. -/
inductive Deletion (dir' : Directory) (blocks : List (List Entry)) (e : Entry) : Prop
  | merge (A B : List Entry) (p p' : Entry) (blocks' : List (List Entry))
      (laidOut : LaidOut dir' blocks') (eq : blocks.flatten = A ++ p :: e :: B)
      (eq' : blocks'.flatten = A ++ p' :: B) (inode : p'.inode = p.inode)
      (filetype : p'.filetype = p.filetype) (name : p'.name = p.name) (behind : Behind blocks e)
  | clear (A B : List Entry) (blocks' : List (List Entry)) (laidOut : LaidOut dir' blocks')
      (eq : blocks.flatten = A ++ e :: B) (eq' : blocks'.flatten = A ++ { e with inode := 0 } :: B)
      (first : ¬ Behind blocks e)

theorem flatten_set {k : ℕ} (hk : k < blocks.length) (b : List Entry) :
    (blocks.set k b).flatten = (blocks.take k).flatten ++ b ++ (blocks.drop (k + 1)).flatten := by
  rw [List.set_eq_take_append_cons_drop, if_pos hk, List.flatten_append, List.flatten_cons,
    List.append_assoc]

theorem flatten_eq {k : ℕ} (hk : k < blocks.length) :
    blocks.flatten = (blocks.take k).flatten ++ blocks[k] ++ (blocks.drop (k + 1)).flatten := by
  rw [← flatten_set hk, List.set_getElem_self]

namespace WellFormed

variable (h : WellFormed readInode dir blocks)

include h

theorem distinct' : Distinct blocks.flatten := h.distinct

/-- `ext4fs_filename_unlink` deletes the used record of the name. -/
theorem unlink_eq_some (hu : ext4fsFilenameUnlink dir stored name = some (i, dir')) :
    ∃ e ∈ blocks.flatten, e.inode ≠ 0 ∧ e.inode < 2 ^ 31 ∧ e.name = name ∧
    Deletion dir' blocks e := by
  obtain ⟨k, hk, hk'⟩ := List.exists_of_findSome?_eq_some hu
  rw [List.mem_range, h.directoryBlocks_eq] at hk
  obtain ⟨r, hr, hdir⟩ := Option.map_eq_some_iff.mp hk'
  rw [Prod.mk.injEq] at hdir
  obtain ⟨pre, e, post, heq, hused, hlt, hname, -, hoffset, hprev⟩ :=
    h.findInBlock_eq_some hk (Option.filter_eq_some_iff.mp hr).1
  have hflat := flatten_eq hk
  rw [heq] at hflat
  have hmem : e ∈ blocks.flatten := by
    rw [hflat]
    simp
  have hsucc : (k + 1) * dir.blksz = k * dir.blksz + dir.blksz := Nat.succ_mul _ _
  have hlists := h.lists k hk
  rw [heq] at hlists
  refine ⟨e, hmem, hused, hlt, hname, ?_⟩
  obtain ⟨prev, offset⟩ := r
  dsimp only at hoffset hprev
  subst hoffset
  rcases hprev with ⟨rfl, rfl⟩ | ⟨init, p, rfl, rfl⟩
  · have hend := hlists.end_eq
    have hlen := hlists.1.valid.length_le
    rw [List.nil_append, span_cons] at hend
    have hlaid := h.toLaidOut.set hlists.clear (by
      intro x hx
      rcases hx with hx | hx
      · exact Mem.write_of_lt hx
      · apply Mem.write_of_le
        rw [length_leBytes]
        omega)
    rw [← hdir.2]
    refine .clear ((blocks.take k).flatten) (post ++ (blocks.drop (k + 1)).flatten) _ hlaid ?_ ?_ ?_
    · rw [hflat]
      simp
    · rw [flatten_set hk]
      simp
    · intro hbehind
      exact hbehind blocks[k] (List.getElem_mem hk) (by rw [heq]; rfl)
  · rw [List.append_assoc, List.singleton_append] at heq hlists
    have hend := hlists.end_eq
    rw [span_append, span_cons, span_cons] at hend
    have hp := (lists_append.mp hlists).2.1
    have he := (lists_append.mp hlists).2.2.1
    have hlen := hp.valid.length_le
    have hblksz := h.blksz_lt
    have hlaid := h.toLaidOut.set (hlists.merge (by omega)) (by
      intro x hx
      rcases hx with hx | hx
      · exact Mem.write_of_lt (by omega)
      · apply Mem.write_of_le
        rw [length_leBytes]
        omega)
    have hdata : unlinkRecord dir.data (k * dir.blksz) (some (span init), span (init ++ [p])) =
        dir.data.write (k * dir.blksz + span init + 4) (leBytes 2 (p.direntlen + e.direntlen)) := by
      have hoffset : span (init ++ [p]) = span init + p.direntlen := by simp
      rw [unlinkRecord, hp.dirent_eq, hoffset, ← Nat.add_assoc, he.dirent_eq]
    rw [← hdir.2, hdata]
    refine .merge ((blocks.take k).flatten ++ init) (post ++ (blocks.drop (k + 1)).flatten) p
      { p with direntlen := p.direntlen + e.direntlen } _ hlaid ?_ ?_ rfl rfl rfl ?_
    · rw [hflat]
      simp
    · rw [flatten_set hk]
      simp
    · intro b hb hhead
      obtain rfl := h.distinct'.block_eq hused hb (List.getElem_mem hk)
        (List.mem_of_mem_head? hhead) (by rw [heq]; simp)
      have hmem : e ∈ (blocks.take k).flatten ++ init ++ [p] := by
        rw [heq] at hhead
        cases init with
        | nil =>
            cases hhead
            simp
        | cons c init =>
            cases hhead
            simp
      have hdistinct := h.distinct'
      rw [show blocks.flatten = (blocks.take k).flatten ++ init ++ [p] ++ e ::
        (post ++ (blocks.drop (k + 1)).flatten) by rw [hflat]; simp] at hdistinct
      exact hdistinct.not_mem hused e (List.mem_append_left _ hmem) hused rfl

/-- The used record of a name can be deleted. -/
theorem exists_unlink {e : Entry} (he : e ∈ blocks.flatten) (hused : e.inode ≠ 0)
    (hlt : e.inode < 2 ^ 31) (hname : e.name = name) :
    ∃ i dir', ext4fsFilenameUnlink dir (fun _ ↦ true) name = some (i, dir') := by
  suffices hsome : ext4fsFilenameUnlink dir (fun _ ↦ true) name ≠ none by
    obtain ⟨⟨i, dir'⟩, hr⟩ := Option.ne_none_iff_exists'.mp hsome
    exact ⟨i, dir', hr⟩
  obtain ⟨b, hb, heb⟩ := List.mem_flatten.mp he
  obtain ⟨k, hk, rfl⟩ := List.getElem_of_mem hb
  intro hnone
  rw [ext4fsFilenameUnlink, List.findSome?_eq_none_iff] at hnone
  have hk' := hnone k (by rw [List.mem_range, h.directoryBlocks_eq]; exact hk)
  rw [Option.map_eq_none_iff] at hk'
  have hfound : findInBlock dir name k ≠ none := by
    apply h.findInBlock_ne_none hk heb hused ?_ hname
    intro f hf hused' hname'
    rw [← h.distinct'.eq he (List.mem_flatten.mpr ⟨_, hb, hf⟩) hused hused'
      (hname.trans hname'.symm)]
    exact hlt
  obtain ⟨r, hr⟩ := Option.ne_none_iff_exists'.mp hfound
  rw [hr] at hk'
  cases hk'

theorem not_stops {e : Entry} (he : e ∈ blocks.flatten) (hused : e.inode ≠ 0) :
    e.Stops readInode = false := by
  obtain ⟨mode, hmode⟩ := Option.ne_none_iff_exists'.mp (h.readable e he hused)
  rw [Entry.Stops, recordType, hmode]
  split_ifs <;> simp

theorem name_ne_nil {e : Entry} (he : e ∈ blocks.flatten) (hused : e.inode ≠ 0) : e.name ≠ [] :=
  (h.lists_flatten.valid e he).named hused

end WellFormed

end

/-! ## Agreement -/

section

variable {readInode : ℕ → Option ℕ} {dir dir' : Directory} {name : List UInt8}
  {blocks : List (List Entry)} {e : Entry} {A B es : List Entry}

theorem iterateEntries_eq_find (hname : name ≠ []) :
    (iterateEntries readInode name es).map Prod.fst =
      ((reached readInode es).find? (·.name = name)).map Entry.inode := by
  induction es with
  | nil => rfl
  | cons e es ih =>
      cases hstops : e.Stops readInode with
      | true =>
          rw [iterateEntries_of_stops hstops, reached_cons_of_stops hstops]
          rfl
      | false =>
          rw [reached_cons hstops]
          by_cases heq : e.name = name
          · obtain ⟨type, hfound⟩ := @iterateEntries_of_eq readInode name e es hstops hname heq
            rw [hfound, List.find?_cons_of_pos (by simpa using heq)]
            rfl
          · rw [iterateEntries_of_ne hstops (fun h ↦ absurd h heq),
              List.find?_cons_of_neg (by simpa using heq), ih]

theorem WellFormed.searchDir_eq_find (h : WellFormed readInode dir blocks) :
    searchDir dir name = (blocks.flatten.find? fun e ↦
      e.inode ≠ 0 ∧ e.inode < 2 ^ 31 ∧ e.name = name).map Entry.inode := by
  cases hfind : blocks.flatten.find? fun e ↦ e.inode ≠ 0 ∧ e.inode < 2 ^ 31 ∧ e.name = name with
  | none =>
      rw [List.find?_eq_none] at hfind
      apply h.toLaidOut.searchDir_eq_none h.distinct'
      intro e he hused hname hlt
      exact hfind e he (decide_eq_true ⟨hused, hlt, hname⟩)
  | some e =>
      have hprop := List.find?_some hfind
      rw [decide_eq_true_iff] at hprop
      rw [Option.map_some, h.toLaidOut.searchDir_eq_some h.distinct']
      exact ⟨e, List.mem_of_find?_eq_some hfind, rfl, hprop⟩

/-- Both lookups find the same before anything is deleted. -/
theorem WellFormed.agree_iff (h : WellFormed readInode dir blocks) :
    (iterateEntries readInode name blocks.flatten).map Prod.fst = searchDir dir name ↔
      (name ≠ [] → (reached readInode blocks.flatten).find? (·.name = name) =
        blocks.flatten.find? fun e ↦ e.inode ≠ 0 ∧ e.inode < 2 ^ 31 ∧ e.name = name) := by
  obtain rfl | hname := eq_or_ne name []
  · have hnone : iterateEntries readInode [] blocks.flatten = none := by
      rw [iterateEntries_eq_none]
      intro u _ _
      rfl
    have hsearch : searchDir dir [] = none := by
      apply h.toLaidOut.searchDir_eq_none h.distinct'
      intro e he hused hnil
      exact absurd hnil (h.name_ne_nil he hused)
    rw [hnone, hsearch]
    exact iff_of_true rfl (fun hne ↦ absurd rfl hne)
  · rw [iterateEntries_eq_find hname, h.searchDir_eq_find]
    constructor
    · intro heq _
      cases hu : (reached readInode blocks.flatten).find? (·.name = name) with
      | none =>
          rw [hu] at heq
          exact (Option.map_eq_none_iff.mp heq.symm).symm
      | some u =>
          rw [hu] at heq
          obtain ⟨e, he, hinode⟩ := Option.map_eq_some_iff.mp heq.symm
          have hprop := List.find?_some he
          have huname := List.find?_some hu
          rw [decide_eq_true_iff] at hprop huname
          have hmem : u ∈ blocks.flatten :=
            (List.takeWhile_sublist _).subset (List.mem_of_find?_eq_some hu)
          rw [he, h.distinct'.eq hmem (List.mem_of_find?_eq_some he) (hinode ▸ hprop.1) hprop.1
            (huname.trans hprop.2.2.symm)]
    · intro heq
      rw [heq hname]

/-- What stands in front of the record that both lookups find. -/
theorem WellFormed.front (h : WellFormed readInode dir blocks) (hfirst : name ≠ [] →
      (reached readInode blocks.flatten).find? (·.name = name) =
        blocks.flatten.find? fun e ↦ e.inode ≠ 0 ∧ e.inode < 2 ^ 31 ∧ e.name = name)
    (hsplit : blocks.flatten = A ++ e :: B) (hused : e.inode ≠ 0) (hlt : e.inode < 2 ^ 31)
    (hname : e.name = name) :
    (∀ x ∈ A, x.Stops readInode = false) ∧ ∀ x ∈ A, x.name ≠ name := by
  have hmem : e ∈ blocks.flatten := by
    rw [hsplit]
    simp
  have hnil : name ≠ [] := by
    rw [← hname]
    exact h.name_ne_nil hmem hused
  have hdistinct := h.distinct'
  rw [hsplit] at hdistinct
  have hA : e ∉ A := fun he ↦ hdistinct.not_mem hused e (List.mem_append_left _ he) hused rfl
  have hfind : blocks.flatten.find? (fun e ↦ e.inode ≠ 0 ∧ e.inode < 2 ^ 31 ∧ e.name = name) =
      some e := by
    cases hfind : blocks.flatten.find? fun e ↦ e.inode ≠ 0 ∧ e.inode < 2 ^ 31 ∧ e.name = name with
    | none =>
        rw [List.find?_eq_none] at hfind
        exact absurd (decide_eq_true ⟨hused, hlt, hname⟩) (hfind e hmem)
    | some f =>
        have hprop := List.find?_some hfind
        rw [decide_eq_true_iff] at hprop
        rw [h.distinct'.eq (List.mem_of_find?_eq_some hfind) hmem hprop.1 hused
          (hprop.2.2.trans hname.symm)]
  have hreached := (hfirst hnil).trans hfind
  have hstops := @stops_of_mem_reached readInode e A B hA
    (by rw [← hsplit]; exact List.mem_of_find?_eq_some hreached)
  refine ⟨hstops.1, ?_⟩
  intro x hx hxname
  rw [hsplit, reached_append hstops.1, List.find?_append] at hreached
  cases hfront : A.find? (·.name = name) with
  | none =>
      rw [List.find?_eq_none] at hfront
      exact hfront x hx (decide_eq_true hxname)
  | some u =>
      rw [hfront, Option.some_or, Option.some.injEq] at hreached
      exact hA (hreached ▸ List.mem_of_find?_eq_some hfront)

/-! ## Names after a deletion -/

theorem Distinct.split {A' B' : List Entry} (h : Distinct (A ++ e :: B)) (hused : e.inode ≠ 0)
    (heq : A ++ e :: B = A' ++ e :: B') : A = A' ∧ B = B' := by
  have hA : e ∉ A := fun he ↦ h.not_mem hused e (List.mem_append_left _ he) hused rfl
  have hA' : e ∉ A' := by
    rw [heq] at h
    exact fun he ↦ h.not_mem hused e (List.mem_append_left _ he) hused rfl
  induction A generalizing A' with
  | nil =>
      cases A' with
      | nil => simpa using heq
      | cons a A' =>
          rw [List.nil_append, List.cons_append, List.cons.injEq] at heq
          exact absurd (heq.1 ▸ List.mem_cons_self) hA'
  | cons a A ih =>
      cases A' with
      | nil =>
          rw [List.nil_append, List.cons_append, List.cons.injEq] at heq
          exact absurd (heq.1 ▸ List.mem_cons_self) hA
      | cons a' A' =>
          rw [List.cons_append, List.cons_append, List.cons.injEq] at heq
          rw [List.mem_cons, not_or] at hA hA'
          obtain ⟨hAA, hBB⟩ := ih (List.Pairwise.of_cons h) heq.2 hA.2 hA'.2
          exact ⟨by rw [heq.1, hAA], hBB⟩

theorem Distinct.merge {p p' : Entry} (h : Distinct (A ++ p :: e :: B))
    (hinode : p'.inode = p.inode) (hname : p'.name = p.name) : Distinct (A ++ p' :: B) := by
  have hsub : Distinct (A ++ p :: B) :=
    List.Pairwise.sublist (List.Sublist.append_left (.cons_cons p (.cons e (.refl B))) A) h
  simpa only [Distinct, List.pairwise_append, List.pairwise_cons, List.forall_mem_cons,
    hinode, hname]
    using hsub

theorem Distinct.clear (h : Distinct (A ++ e :: B)) :
    Distinct (A ++ { e with inode := 0 } :: B) := by
  have hsub : Distinct (A ++ B) :=
    List.Pairwise.sublist (List.Sublist.append_left (.cons e (.refl B)) A) h
  rw [Distinct, List.pairwise_append] at hsub ⊢
  refine ⟨hsub.1, List.pairwise_cons.mpr ⟨fun x _ h0 ↦ absurd rfl h0, hsub.2.1⟩, ?_⟩
  intro x hx
  rw [List.forall_mem_cons]
  exact ⟨fun _ h0 ↦ absurd rfl h0, hsub.2.2 x hx⟩

/-- After a record is merged with the one in front of it. -/
theorem WellFormed.after_merge (h : WellFormed readInode dir blocks) {p p' : Entry}
    {blocks' : List (List Entry)} (hlaid : LaidOut dir' blocks')
    (heq : blocks.flatten = A ++ p :: e :: B) (heq' : blocks'.flatten = A ++ p' :: B)
    (hinode : p'.inode = p.inode) (htype : p'.filetype = p.filetype) (hpname : p'.name = p.name)
    (hused : e.inode ≠ 0) (hname : e.name = name) :
    ext4fsIterateDir dir' readInode name = some (iterateEntries readInode name (A ++ [p] ++ B)) ∧
      searchDir dir' name = none ∧ KeepsOthers readInode dir dir' name := by
  have hdistinct := h.distinct'
  have hsplit : A ++ p :: e :: B = A ++ [p] ++ e :: B := by simp
  have hmerged := hdistinct
  rw [heq] at hmerged
  have hdistinct' : Distinct blocks'.flatten := by
    rw [heq']
    exact hmerged.merge hinode hpname
  have hother := hdistinct
  rw [heq, hsplit] at hother
  have hstops : e.Stops readInode = false := h.not_stops (by rw [heq]; simp) hused
  have hiter (n : List UInt8) : ext4fsIterateDir dir' readInode n =
      some (iterateEntries readInode n (A ++ [p] ++ B)) := by
    rw [hlaid.iterateDir_eq, heq', iterateEntries_congr hinode htype hpname, List.append_assoc]
    rfl
  refine ⟨hiter name, ?_, ?_⟩
  · apply hlaid.searchDir_eq_none hdistinct'
    intro x hx hx' hxname _
    rw [heq', List.mem_append, List.mem_cons] at hx
    rcases hx with hx | rfl | hx
    · exact hother.not_mem hused x (by simp [hx]) hx' (hxname.trans hname.symm)
    · rw [hinode] at hx'
      exact hother.not_mem hused p (by simp) hx' (hpname ▸ hxname.trans hname.symm)
    · exact hother.not_mem hused x (by simp [hx]) hx' (hxname.trans hname.symm)
  · intro other hne
    have hne' : e.name ≠ other := by
      rw [hname]
      exact hne.symm
    constructor
    · rw [hiter, h.toLaidOut.iterateDir_eq, heq, hsplit,
        iterateEntries_skip hstops (fun heq ↦ absurd heq hne')]
    · apply searchDir_congr h.toLaidOut hlaid hdistinct hdistinct'
      intro i
      rw [heq, heq']
      simp only [List.mem_append, List.mem_cons, or_and_right, exists_or, exists_eq_left,
        hinode, hpname, hne', and_false, false_or]

/-- After a record is invalidated. -/
theorem WellFormed.after_clear (h : WellFormed readInode dir blocks) {blocks' : List (List Entry)}
    (hlaid : LaidOut dir' blocks') (heq : blocks.flatten = A ++ e :: B)
    (heq' : blocks'.flatten = A ++ { e with inode := 0 } :: B) (hused : e.inode ≠ 0)
    (hname : e.name = name) :
    searchDir dir' name = none ∧ ∀ other ≠ name, searchDir dir' other = searchDir dir other := by
  have hdistinct := h.distinct'
  have hother := hdistinct
  rw [heq] at hother
  have hdistinct' : Distinct blocks'.flatten := by
    rw [heq']
    exact hother.clear
  constructor
  · apply hlaid.searchDir_eq_none hdistinct'
    intro x hx hx' hxname _
    rw [heq', List.mem_append, List.mem_cons] at hx
    rcases hx with hx | rfl | hx
    · exact hother.not_mem hused x (by simp [hx]) hx' (hxname.trans hname.symm)
    · exact hx' rfl
    · exact hother.not_mem hused x (by simp [hx]) hx' (hxname.trans hname.symm)
  · intro other hne
    have hne' : e.name ≠ other := by
      rw [hname]
      exact hne.symm
    apply searchDir_congr h.toLaidOut hlaid hdistinct hdistinct'
    intro i
    rw [heq, heq']
    simp only [List.mem_append, List.mem_cons, or_and_right, exists_or, exists_eq_left, hne',
      and_false, false_or, ne_eq, not_true_eq_false]

/-- Names are lost behind a record that ends the walk over the file, unless they also stand in
front. -/
theorem iterateEntries_clear (hA : ∀ x ∈ A, x.Stops readInode = false)
    (he : e.Stops readInode = false) (h0 : Entry.Stops readInode { e with inode := 0 })
    (hne : e.name ≠ name) :
    iterateEntries readInode name (A ++ { e with inode := 0 } :: B) =
        iterateEntries readInode name (A ++ e :: B) ↔
      (name ∉ A.map Entry.name → ∀ x ∈ reached readInode B, x.name = name → name = []) := by
  rw [iterateEntries_append hA, iterateEntries_append hA, iterateEntries_of_stops h0,
    iterateEntries_of_ne he (fun heq ↦ absurd heq hne), Option.or_none]
  have hreached : reached readInode A = A := by
    have := reached_append (B := []) hA
    simpa [reached] using this
  cases hfront : iterateEntries readInode name A with
  | none =>
      rw [iterateEntries_eq_none, hreached] at hfront
      rw [Option.none_or, eq_comm, iterateEntries_eq_none]
      constructor
      · intro hnone _
        exact hnone
      · intro hnone
        by_cases hmem : name ∈ A.map Entry.name
        · obtain ⟨a, ha, haname⟩ := List.mem_map.mp hmem
          intro _ _ _
          exact hfront a ha haname
        · exact hnone hmem
  | some r =>
      refine iff_of_true rfl ?_
      intro hmem
      have hnone : iterateEntries readInode name A = none := by
        rw [iterateEntries_eq_none, hreached]
        intro u hu huname
        exact absurd (List.mem_map.mpr ⟨u, hu, huname⟩) hmem
      rw [hfront] at hnone
      cases hnone

/-! ## Both -/

/-- What a deletion needs when both lookups have found the record. -/
theorem WellFormed.deletion_iff (h : WellFormed readInode dir blocks)
    (hdel : Deletion dir' blocks e) (hsplit : blocks.flatten = A ++ e :: B) (hused : e.inode ≠ 0)
    (hname : e.name = name) (hA : ∀ x ∈ A, x.Stops readInode = false)
    (hAname : ∀ x ∈ A, x.name ≠ name) :
    (ext4fsIterateDir dir' readInode name = some none ∧ searchDir dir' name = none ∧
        KeepsOthers readInode dir dir' name) ↔
      (Behind blocks e ∧ ∀ u ∈ reached readInode B, u.name ≠ name) ∨
        (¬ Behind blocks e ∧ Hides readInode A e B) := by
  have hmem : e ∈ blocks.flatten := by
    rw [hsplit]
    simp
  have hnil : name ≠ [] := by
    rw [← hname]
    exact h.name_ne_nil hmem hused
  have hstops := h.not_stops hmem hused
  have hfront : iterateEntries readInode name A = none := by
    rw [iterateEntries_eq_none]
    intro u hu huname
    exact absurd huname (hAname u ((List.takeWhile_sublist _).subset hu))
  have hdistinct := h.distinct'
  rw [hsplit] at hdistinct
  cases hdel with
  | merge A' B' p p' blocks' hlaid heq heq' hinode htype hpname hbehind =>
      have heq'' : blocks.flatten = A' ++ [p] ++ e :: B' := by simpa using heq
      obtain ⟨rfl, rfl⟩ := hdistinct.split hused (hsplit.symm.trans heq'')
      obtain ⟨hiter, hsearch, hkeeps⟩ :=
        h.after_merge hlaid heq heq' hinode htype hpname hused hname
      have hnone : ext4fsIterateDir dir' readInode name = some none ↔ ∀ u ∈ reached readInode B,
          u.name ≠ name := by
        rw [hiter, iterateEntries_append hA, hfront, Option.none_or, Option.some.injEq,
          iterateEntries_eq_none]
        constructor
        · intro hall u hu huname
          exact hnil (hall u hu huname)
        · intro hall u hu huname
          exact absurd huname (hall u hu)
      constructor
      · rintro ⟨hit, -, -⟩
        exact .inl ⟨hbehind, hnone.mp hit⟩
      · rintro (⟨-, hall⟩ | ⟨hfirst, -⟩)
        · exact ⟨hnone.mpr hall, hsearch, hkeeps⟩
        · exact absurd hbehind hfirst
  | clear A' B' blocks' hlaid heq heq' hfirst =>
      obtain ⟨rfl, rfl⟩ := hdistinct.split hused (hsplit.symm.trans heq)
      obtain ⟨hsearch, hsearches⟩ := h.after_clear hlaid heq heq' hused hname
      have hiter (n : List UInt8) : ext4fsIterateDir dir' readInode n =
          some (iterateEntries readInode n (A ++ { e with inode := 0 } :: B)) := by
        rw [hlaid.iterateDir_eq, heq']
      have hnone : ext4fsIterateDir dir' readInode name = some none ↔
          Entry.Stops readInode { e with inode := 0 } := by
        rw [hiter, iterateEntries_append hA, hfront, Option.none_or, Option.some.injEq]
        cases h0 : Entry.Stops readInode { e with inode := 0 } with
        | true => simp [iterateEntries_of_stops h0]
        | false =>
            obtain ⟨type, hfound⟩ :=
              @iterateEntries_of_eq readInode name { e with inode := 0 } B h0 hnil hname
            simp [hfound]
      have hkeeps (h0 : Entry.Stops readInode { e with inode := 0 }) :
          KeepsOthers readInode dir dir' name ↔ Hides readInode A e B := by
        have hlookups (n : List UInt8) (hn : n ≠ name) :
            ext4fsIterateDir dir' readInode n = ext4fsIterateDir dir readInode n ↔
              (n ∉ A.map Entry.name → ∀ x ∈ reached readInode B, x.name = n → n = []) := by
          rw [hiter, h.toLaidOut.iterateDir_eq, hsplit, Option.some.injEq]
          exact iterateEntries_clear hA hstops h0 (by rw [hname]; exact hn.symm)
        constructor
        · intro hkeeps
          refine ⟨h0, ?_⟩
          intro x hx hxnil
          by_contra hnot
          obtain ⟨hxname, hxA⟩ := not_or.mp hnot
          rw [hname] at hxname
          exact hxnil ((hlookups x.name hxname).mp (hkeeps x.name hxname).1 hxA x hx rfl)
        · rintro ⟨-, hhides⟩ other hne
          refine ⟨(hlookups other hne).mpr ?_, hsearches other hne⟩
          rintro hother x hx rfl
          by_contra hxnil
          rcases hhides x hx hxnil with hxname | hxA
          · exact hne (hxname.trans hname)
          · exact hother hxA
      constructor
      · rintro ⟨hit, -, hall⟩
        exact .inr ⟨hfirst, (hkeeps (hnone.mp hit)).mp hall⟩
      · rintro (⟨hbehind, -⟩ | ⟨-, hhides⟩)
        · exact absurd hbehind hfirst
        · exact ⟨hnone.mpr hhides.1, hsearch, (hkeeps hhides.1).mpr hhides⟩

theorem WellFormed.lookupsAgree_of_agreeable (h : WellFormed readInode dir blocks)
    (ha : Agreeable readInode blocks name) : LookupsAgree readInode dir name := by
  constructor
  · exact ⟨_, h.toLaidOut.iterateDir_eq, h.agree_iff.mpr ha.first⟩
  · intro stored i dir' hu
    obtain ⟨e, he, hused, hlt, hname, hdel⟩ := h.unlink_eq_some hu
    obtain ⟨A, B, hsplit⟩ := List.append_of_mem he
    obtain ⟨hA, hAname⟩ := h.front ha.first hsplit hused hlt hname
    exact (h.deletion_iff hdel hsplit hused hname hA hAname).mpr
      (ha.deleted A e B hsplit hused hlt hname)

theorem WellFormed.agreeable_of_lookupsAgree (h : WellFormed readInode dir blocks)
    (ha : LookupsAgree readInode dir name) : Agreeable readInode blocks name := by
  obtain ⟨⟨r, hr, hsearch⟩, hunlink⟩ := ha
  rw [h.toLaidOut.iterateDir_eq, Option.some.injEq] at hr
  subst hr
  have hfirst := h.agree_iff.mp hsearch
  refine ⟨hfirst, ?_⟩
  intro A e B hsplit hused hlt hname
  have he : e ∈ blocks.flatten := by
    rw [hsplit]
    simp
  obtain ⟨i, dir', hu⟩ := h.exists_unlink he hused hlt hname
  obtain ⟨f, hf, hfused, -, hfname, hdel⟩ := h.unlink_eq_some hu
  rw [h.distinct'.eq hf he hfused hused (hfname.trans hname.symm)] at hdel
  obtain ⟨hA, hAname⟩ := h.front hfirst hsplit hused hlt hname
  exact (h.deletion_iff hdel hsplit hused hname hA hAname).mp (hunlink _ i dir' hu)

/-- The lookups of a name agree with each other and with its deletion exactly if the name is
agreeable. -/
theorem lookupsAgree_iff (h : WellFormed readInode dir blocks) (name : List UInt8) :
    LookupsAgree readInode dir name ↔ Agreeable readInode blocks name :=
  ⟨h.agreeable_of_lookupsAgree, h.lookupsAgree_of_agreeable⟩

end

/-! ## A name at the start of a block -/

/-- A directory of two blocks, and a file `a` in the second one. -/
def twoBlocks : Directory where
  log2BlockSize := 10
  size := 2048
  data := ((Mem.write (fun _ ↦ 0) 0 [2, 0, 0, 0, 12, 0, 1, 2, 0x2e]).write 12
    [2, 0, 0, 0, 0xf4, 3, 2, 2, 0x2e, 0x2e]).write 1024 [12, 0, 0, 0, 0, 4, 1, 1, 0x61]

def twoBlocksEntries : List (List Entry) :=
  [[⟨2, 12, 2, [0x2e]⟩, ⟨2, 1012, 2, [0x2e, 0x2e]⟩], [⟨12, 1024, 1, [0x61]⟩]]

theorem wellFormed_twoBlocks : WellFormed (fun _ ↦ some 0) twoBlocks twoBlocksEntries where
  log2_ge := by decide
  size_eq := by decide
  size_lt := by decide
  lists k hk := by
    have hk' : k = 0 ∨ k = 1 := by
      change k < 2 at hk
      omega
    rcases hk' with rfl | rfl
    · refine ⟨⟨by decide +kernel, by decide +kernel, ⟨by decide, by decide, by decide, by decide⟩⟩,
        ⟨by decide +kernel, by decide +kernel, ⟨by decide, by decide, by decide, by decide⟩⟩, rfl⟩
    · refine ⟨⟨by decide +kernel, by decide +kernel, ⟨by decide, by decide, by decide, by decide⟩⟩,
        rfl⟩
  blksz_lt := by decide
  distinct := by simp [twoBlocksEntries]
  readable := by simp

theorem lookupsAgree_iff_dot :
    LookupsAgree (fun _ ↦ some 0) twoBlocks [0x2e, 0x2e] ↔
      Agreeable (fun _ ↦ some 0) twoBlocksEntries [0x2e, 0x2e] :=
  lookupsAgree_iff wellFormed_twoBlocks _

/-- The name of the first record of a block is found after the record was unlinked. -/
theorem not_lookupsAgree_first : ¬ LookupsAgree (fun _ ↦ some 0) twoBlocks [0x61] := by
  intro hagree
  have ha := wellFormed_twoBlocks.agreeable_of_lookupsAgree hagree
  have hdeleted := ha.deleted [⟨2, 12, 2, [0x2e]⟩, ⟨2, 1012, 2, [0x2e, 0x2e]⟩] ⟨12, 1024, 1,
    [0x61]⟩ [] rfl
    (by decide) (by decide) rfl
  rcases hdeleted with ⟨hbehind, -⟩ | ⟨-, hstops, -⟩
  · exact hbehind [⟨12, 1024, 1, [0x61]⟩] (by simp [twoBlocksEntries]) rfl
  · exact absurd hstops (by decide)

end MiniPi.Ext4
