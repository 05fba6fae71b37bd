import Mathlib.Data.List.TakeWhile
import MiniPi.Lib.Mem

/-!
# Directories

The model of `ext4fs_iterate_dir`, `search_dir` and `ext4fs_filename_unlink` over the bytes of a
directory, whose blocks are mapped and can be read.  A name is a string without its terminator.  A
block that is unlinked from is stored as a whole later on; here it is stored at once.
-/

namespace MiniPi.Ext4

open Lib

/-- An `ext2_dirent`. -/
structure Dirent where
  inode : ℕ
  direntlen : ℕ
  namelen : ℕ
  filetype : ℕ
deriving DecidableEq

def dirent (data : Mem) (a : ℕ) : Dirent where
  inode := leValue (data.slice a 4)
  direntlen := leValue (data.slice (a + 4) 2)
  namelen := (data (a + 6)).toNat
  filetype := (data (a + 7)).toNat

structure Directory where
  log2BlockSize : ℕ
  size : ℕ
  data : Mem

namespace Directory

variable (dir : Directory)

def blksz : ℕ := 2 ^ dir.log2BlockSize

def directoryBlocks : ℕ := dir.size / dir.blksz

end Directory

/-! ## The walk over the file -/

/-- `FILETYPE_UNKNOWN`, `FILETYPE_REG`, `FILETYPE_DIRECTORY` or `FILETYPE_SYMLINK`. -/
def fileType (isDirectory isSymlink isReg : Bool) : ℕ :=
  if isDirectory then 2 else if isSymlink then 7 else if isReg then 1 else 0

/-- The type of a record.  `readInode` is `ext4fs_read_inode`, of which the mode is used. -/
def recordType (readInode : ℕ → Option ℕ) (inode filetype : ℕ) : Option ℕ :=
  if filetype ≠ 0 then some (fileType (filetype = 2) (filetype = 7) (filetype = 1))
  else
    (readInode inode).map fun mode ↦
      let mode := mode &&& 0o170000
      fileType (mode = 0o040000) (mode = 0o120000) (mode = 0o100000)

/-- The loop of `ext4fs_iterate_dir`, for at most `fuel` records: the inode number and the type. -/
def iterateLoop (dir : Directory) (readInode : ℕ → Option ℕ) (name : List UInt8) :
    ℕ → ℕ → Option (Option (ℕ × ℕ))
  | 0, _ => none
  | fuel + 1, fpos =>
    if fpos < dir.size then
      let d := dirent dir.data fpos
      if d.direntlen = 0 then some none
      else if d.namelen ≠ 0 then
        match recordType readInode d.inode d.filetype with
        | none => some none
        | some type =>
          if (dir.data.slice (fpos + 8) d.namelen).takeWhile (· ≠ 0) = name then
            some (some (d.inode, type))
          else iterateLoop dir readInode name fuel ((fpos + d.direntlen) % 2 ^ 32)
      else iterateLoop dir readInode name fuel ((fpos + d.direntlen) % 2 ^ 32)
    else some none

/-- `ext4fs_iterate_dir`, for as many records as the file has bytes. -/
def ext4fsIterateDir (dir : Directory) (readInode : ℕ → Option ℕ) (name : List UInt8) :
    Option (Option (ℕ × ℕ)) :=
  iterateLoop dir readInode name (dir.size + 1) 0

/-! ## The walk over the blocks -/

/-- The loop over the block at `base` in `search_dir` and `unlink_filename`: the offset of the
record, behind that of the record in front of it. -/
def findLoop (data : Mem) (base blksz : ℕ) (name : List UInt8) (prev : Option ℕ) (offset : ℕ) :
    Option (Option ℕ × ℕ) :=
  if offset < blksz then
    if offset % 4 ≠ 0 then none
    else
      let d := dirent data (base + offset)
      if d.direntlen < 8 then none
      else if d.inode ≠ 0 ∧ name.length = d.namelen ∧
        data.slice (base + offset + 8) d.namelen = name then
        some (prev, offset)
      else findLoop data base blksz name (some offset) (offset + d.direntlen)
  else none
termination_by blksz - offset
decreasing_by
  have hd : d.direntlen = (dirent data (base + offset)).direntlen := rfl
  omega

/-- The record of that name in block `k`; an inode number is an `int`. -/
def findInBlock (dir : Directory) (name : List UInt8) (k : ℕ) : Option (Option ℕ × ℕ) :=
  (findLoop dir.data (k * dir.blksz) dir.blksz name none 0).filter fun r ↦
    (dirent dir.data (k * dir.blksz + r.2)).inode < 2 ^ 31

def searchDir (dir : Directory) (name : List UInt8) : Option ℕ :=
  (List.range dir.directoryBlocks).findSome? fun k ↦
    (findInBlock dir name k).map fun r ↦ (dirent dir.data (k * dir.blksz + r.2)).inode

/-- A record is merged with the one in front of it, or invalidated. -/
def unlinkRecord (data : Mem) (base : ℕ) : Option ℕ × ℕ → Mem
  | (some prev, offset) =>
    data.write (base + prev + 4)
      (leBytes 2 ((dirent data (base + prev)).direntlen + (dirent data (base + offset)).direntlen))
  | (none, offset) => data.write (base + offset) (leBytes 4 0)

/-- `ext4fs_filename_unlink`.  The journal and the metadata of block `k` can be kept if
`stored k`. -/
def ext4fsFilenameUnlink (dir : Directory) (stored : ℕ → Bool) (name : List UInt8) :
    Option (ℕ × Directory) :=
  (List.range dir.directoryBlocks).findSome? fun k ↦
    ((findInBlock dir name k).filter fun _ ↦ stored k).map fun r ↦
      ((dirent dir.data (k * dir.blksz + r.2)).inode,
        { dir with data := unlinkRecord dir.data (k * dir.blksz) r })

/-! ## Well-formed directories -/

/-- What a record says. -/
structure Entry where
  inode : ℕ
  direntlen : ℕ
  filetype : ℕ
  name : List UInt8
deriving DecidableEq

/-- A record has room for its name, and a used record has a name. -/
structure Entry.Valid (e : Entry) : Prop where
  length_le : 8 + e.name.length ≤ e.direntlen
  dvd : 4 ∣ e.direntlen
  terminated : 0 ∉ e.name
  named : e.inode ≠ 0 → e.name ≠ []

/-- The record at address `a`. -/
structure Holds (data : Mem) (a : ℕ) (e : Entry) : Prop where
  dirent_eq : dirent data a = ⟨e.inode, e.direntlen, e.name.length, e.filetype⟩
  name_eq : data.slice (a + 8) e.name.length = e.name
  valid : e.Valid

/-- The records from address `a` up to address `b`. -/
def Lists (data : Mem) : ℕ → List Entry → ℕ → Prop
  | a, [], b => a = b
  | a, e :: es, b => Holds data a e ∧ Lists data (a + e.direntlen) es b

/-- The records fill the blocks. -/
structure LaidOut (dir : Directory) (blocks : List (List Entry)) : Prop where
  log2_ge : 2 ≤ dir.log2BlockSize
  size_eq : dir.size = blocks.length * dir.blksz
  size_lt : dir.size < 2 ^ 32
  lists : ∀ k (hk : k < blocks.length),
    Lists dir.data (k * dir.blksz) blocks[k] ((k + 1) * dir.blksz)

/-- The used records have different names and inodes that can be read.  One record may cover a
block, so the size of a block has 16 bits. -/
structure WellFormed (readInode : ℕ → Option ℕ) (dir : Directory) (blocks : List (List Entry)) :
    Prop
    extends LaidOut dir blocks where
  blksz_lt : dir.blksz < 2 ^ 16
  distinct : blocks.flatten.Pairwise fun e f ↦ e.inode ≠ 0 → f.inode ≠ 0 → e.name ≠ f.name
  readable : ∀ e ∈ blocks.flatten, e.inode ≠ 0 → readInode e.inode ≠ none

/-! ## Records one behind the other -/

section

variable {data data' : Mem} {a b : ℕ} {e : Entry} {es es' : List Entry}

def span (es : List Entry) : ℕ := (es.map Entry.direntlen).sum

@[simp] theorem span_nil : span [] = 0 := rfl

@[simp] theorem span_cons : span (e :: es) = e.direntlen + span es := by simp [span]

@[simp] theorem span_append : span (es ++ es') = span es + span es' := by simp [span]

theorem Lists.end_eq (h : Lists data a es b) : b = a + span es := by
  induction es generalizing a with
  | nil =>
      change a = b at h
      simp [h]
  | cons e es ih =>
      rw [ih h.2, span_cons, Nat.add_assoc]

theorem lists_append :
    Lists data a (es ++ es') b ↔ Lists data a es (a + span es) ∧
    Lists data (a + span es) es' b := by
  induction es generalizing a with
  | nil => simp [Lists]
  | cons e es ih => simp [Lists, ih, Nat.add_assoc, and_assoc]

theorem Holds.congr (h : Holds data a e)
    (heq : ∀ x, a ≤ x → x < a + e.direntlen → data' x = data x) :
    Holds data' a e := by
  have hlen := h.valid.length_le
  have hslice (k n : ℕ) (hn : k + n ≤ 8 + e.name.length) :
      data'.slice (a + k) n = data.slice (a + k) n := by
    apply Mem.slice_congr
    intro i hi
    exact heq _ (by omega) (by omega)
  refine ⟨?_, ?_, h.valid⟩
  · rw [← h.dirent_eq]
    unfold dirent
    rw [show data'.slice a 4 = data.slice a 4 from hslice 0 4 (by omega), hslice 4 2 (by omega),
      heq (a + 6) (by omega) (by omega), heq (a + 7) (by omega) (by omega)]
  · rw [hslice 8 _ le_rfl, h.name_eq]

/-- Records are still there after a write to another place. -/
theorem Lists.congr (h : Lists data a es b) (heq : ∀ x, a ≤ x → x < b → data' x = data x) :
    Lists data' a es b := by
  induction es generalizing a with
  | nil => exact h
  | cons e es ih =>
      obtain ⟨hhead, htail⟩ := h
      have hend := htail.end_eq
      refine ⟨hhead.congr ?_, ih htail ?_⟩
      · intro x hx hx'
        exact heq x hx (by omega)
      · intro x hx hx'
        exact heq x (by omega) hx'

theorem Lists.valid (h : Lists data a es b) : ∀ e ∈ es, e.Valid := by
  induction es generalizing a with
  | nil => simp
  | cons e es ih =>
      rintro f (_ | ⟨_, hf⟩)
      · exact h.1.valid
      · exact ih h.2 f hf

theorem Lists.length_le (h : Lists data a es b) : es.length ≤ span es := by
  induction es generalizing a with
  | nil => exact le_rfl
  | cons e es ih =>
      have hlen := h.1.valid.length_le
      have htail := ih h.2
      rw [List.length_cons, span_cons]
      omega

end

/-! ## The walk over the file reads the records -/

/-- What the walk over the file finds among the records. -/
def iterateEntries (readInode : ℕ → Option ℕ) (name : List UInt8) : List Entry → Option (ℕ × ℕ)
  | [] => none
  | e :: es =>
    if e.name = [] then iterateEntries readInode name es
    else
      match recordType readInode e.inode e.filetype with
      | none => none
      | some type => if e.name = name then some (e.inode, type)
          else iterateEntries readInode name es

/-- What the walk over a block finds among the records. -/
def findEntry (name : List UInt8) : Option ℕ → ℕ → List Entry → Option (Option ℕ × ℕ)
  | _, _, [] => none
  | prev, offset, e :: es =>
    if e.inode ≠ 0 ∧ e.name = name then some (prev, offset)
    else findEntry name (some offset) (offset + e.direntlen) es

section

variable {dir : Directory} {readInode : ℕ → Option ℕ} {name : List UInt8} {es : List Entry}
  {blocks : List (List Entry)}

theorem takeWhile_of_terminated {e : Entry} (h : e.Valid) : e.name.takeWhile (· ≠ 0) = e.name := by
  rw [List.takeWhile_eq_self_iff]
  intro c hc
  rw [decide_eq_true_iff]
  rintro rfl
  exact h.terminated hc

theorem iterateLoop_eq {a : ℕ} (fuel : ℕ) (hsize : dir.size < 2 ^ 32)
    (h : Lists dir.data a es dir.size) (hfuel : es.length < fuel) :
    iterateLoop dir readInode name fuel a = some (iterateEntries readInode name es) := by
  induction es generalizing a fuel with
  | nil =>
      obtain ⟨fuel, rfl⟩ := Nat.exists_eq_add_of_lt hfuel
      have ha : a = dir.size := h
      rw [iterateLoop, if_neg (by omega)]
      rfl
  | cons e es ih =>
      obtain ⟨hhead, htail⟩ := h
      obtain ⟨fuel, rfl⟩ : ∃ n, fuel = n + 1 := Nat.exists_eq_succ_of_ne_zero (by omega)
      have hlen := hhead.valid.length_le
      have hend := htail.end_eq
      have hnext : (a + e.direntlen) % 2 ^ 32 = a + e.direntlen := Nat.mod_eq_of_lt (by omega)
      have hrest := ih fuel htail (by rw [List.length_cons] at hfuel; omega)
      rw [iterateLoop, if_pos (by omega), hhead.dirent_eq, iterateEntries]
      dsimp only
      rw [if_neg (by omega), hnext, hrest, hhead.name_eq, takeWhile_of_terminated hhead.valid]
      by_cases hname : e.name = []
      · rw [if_neg (by simp [hname]), if_pos hname]
      · rw [if_pos (by simpa using hname), if_neg hname]
        cases recordType readInode e.inode e.filetype with
        | none => rfl
        | some type =>
            dsimp only
            split_ifs <;> rfl

theorem findLoop_eq {base : ℕ} (h4 : 4 ∣ dir.blksz) (prev : Option ℕ) (offset : ℕ)
    (hoffset : 4 ∣ offset) (h : Lists dir.data (base + offset) es (base + dir.blksz)) :
    findLoop dir.data base dir.blksz name prev offset = findEntry name prev offset es := by
  induction es generalizing prev offset with
  | nil =>
      have ha : base + offset = base + dir.blksz := h
      rw [findLoop, if_neg (by omega)]
      rfl
  | cons e es ih =>
      obtain ⟨hhead, htail⟩ := h
      have hlen := hhead.valid.length_le
      have hend := htail.end_eq
      have hrest := ih (some offset) (offset + e.direntlen) (Nat.dvd_add hoffset hhead.valid.dvd)
        (by rwa [← Nat.add_assoc])
      rw [findLoop, if_pos (by omega), if_neg (by omega), hhead.dirent_eq, findEntry]
      dsimp only
      rw [if_neg (by omega), hrest, hhead.name_eq]
      by_cases hfound : e.inode ≠ 0 ∧ e.name = name
      · rw [if_pos hfound, if_pos ⟨hfound.1, by rw [hfound.2], hfound.2⟩]
      · rw [if_neg hfound, if_neg (fun hf ↦ hfound ⟨hf.1, hf.2.2⟩)]

/-- The record that is found, with what stands in front of it. -/
theorem findEntry_eq_some {prev : Option ℕ} {offset : ℕ} {r : Option ℕ × ℕ}
    (h : findEntry name prev offset es = some r) :
    ∃ pre e post, es = pre ++ e :: post ∧ e.inode ≠ 0 ∧ e.name = name ∧ r.2 = offset + span pre ∧
      ((pre = [] ∧ r.1 = prev) ∨ ∃ init p, pre = init ++ [p] ∧
        r.1 = some (offset + span init)) := by
  induction es generalizing prev offset with
  | nil => cases h
  | cons e es ih =>
      rw [findEntry] at h
      split_ifs at h with hfound
      · cases h
        exact ⟨[], e, es, rfl, hfound.1, hfound.2, rfl, .inl ⟨rfl, rfl⟩⟩
      · obtain ⟨pre, f, post, rfl, hused, hname, hoffset, hprev⟩ := ih h
        refine ⟨e :: pre, f, post, rfl, hused, hname, by rw [hoffset, span_cons, Nat.add_assoc],
          .inr ?_⟩
        rcases hprev with ⟨rfl, hprev⟩ | ⟨init, p, rfl, hprev⟩
        · exact ⟨[], e, rfl, hprev⟩
        · exact ⟨e :: init, p, rfl, by rw [hprev, span_cons, Nat.add_assoc]⟩

theorem findEntry_ne_none {prev : Option ℕ} {offset : ℕ} {e : Entry} (he : e ∈ es)
    (hused : e.inode ≠ 0) (hname : e.name = name) : findEntry name prev offset es ≠ none := by
  induction es generalizing prev offset with
  | nil => cases he
  | cons f es ih =>
      rw [findEntry]
      split_ifs with hfound
      · simp
      · rcases he with _ | ⟨_, he⟩
        · exact absurd ⟨hused, hname⟩ hfound
        · exact ih he

namespace LaidOut

theorem dvd_blksz (h : LaidOut dir blocks) : 4 ∣ dir.blksz := Nat.pow_dvd_pow 2 h.log2_ge

theorem directoryBlocks_eq (h : LaidOut dir blocks) : dir.directoryBlocks = blocks.length := by
  rw [Directory.directoryBlocks, h.size_eq]
  exact Nat.mul_div_cancel _ (Nat.two_pow_pos _)

theorem lists_flatten (h : LaidOut dir blocks) : Lists dir.data 0 blocks.flatten dir.size := by
  have htake (n : ℕ) (hn : n ≤ blocks.length) :
      Lists dir.data 0 (blocks.take n).flatten (n * dir.blksz) := by
    induction n with
    | zero => simp [Lists]
    | succ n ih =>
        have hfirst := ih (by omega)
        have hend := hfirst.end_eq
        rw [List.take_succ_eq_append_getElem (by omega), List.flatten_append, lists_append, ← hend]
        refine ⟨hfirst, ?_⟩
        rw [List.flatten_singleton]
        exact h.lists n (by omega)
  rw [h.size_eq]
  simpa using htake blocks.length le_rfl

theorem iterateDir_eq (h : LaidOut dir blocks) :
    ext4fsIterateDir dir readInode name = some (iterateEntries readInode name blocks.flatten) := by
  have hlists := h.lists_flatten
  have hlen := hlists.length_le
  have hend := hlists.end_eq
  exact iterateLoop_eq _ h.size_lt hlists (by omega)

theorem findLoop_block (h : LaidOut dir blocks) {k : ℕ} (hk : k < blocks.length) :
    findLoop dir.data (k * dir.blksz) dir.blksz name none 0 = findEntry name none 0 blocks[k] := by
  apply findLoop_eq h.dvd_blksz none 0 (Nat.dvd_zero 4)
  have hlists := h.lists k hk
  rwa [Nat.succ_mul] at hlists

/-- What is found in a block. -/
theorem findInBlock_eq_some (h : LaidOut dir blocks) {k : ℕ} (hk : k < blocks.length)
    {r : Option ℕ × ℕ} (hr : findInBlock dir name k = some r) :
    ∃ pre e post, blocks[k] = pre ++ e :: post ∧ e.inode ≠ 0 ∧ e.inode < 2 ^ 31 ∧ e.name = name ∧
      (dirent dir.data (k * dir.blksz + r.2)).inode = e.inode ∧ r.2 = span pre ∧
      ((pre = [] ∧ r.1 = none) ∨ ∃ init p, pre = init ++ [p] ∧ r.1 = some (span init)) := by
  rw [findInBlock, Option.filter_eq_some_iff, h.findLoop_block hk] at hr
  obtain ⟨hfind, hlt⟩ := hr
  obtain ⟨pre, e, post, heq, hused, hname, hoffset, hprev⟩ := findEntry_eq_some hfind
  have hlists := h.lists k hk
  rw [heq, lists_append] at hlists
  rw [Nat.zero_add] at hoffset
  have hinode : (dirent dir.data (k * dir.blksz + r.2)).inode = e.inode := by
    rw [hoffset, hlists.2.1.dirent_eq]
  rw [decide_eq_true_iff, hinode] at hlt
  refine ⟨pre, e, post, heq, hused, hlt, hname, hinode, hoffset, ?_⟩
  simpa using hprev

theorem findInBlock_ne_none (h : LaidOut dir blocks) {k : ℕ} (hk : k < blocks.length) {e : Entry}
    (he : e ∈ blocks[k]) (hused : e.inode ≠ 0) (hlt : ∀ f ∈ blocks[k], f.inode ≠ 0 → f.name = name →
      f.inode < 2 ^ 31) (hname : e.name = name) : findInBlock dir name k ≠ none := by
  obtain ⟨r, hr⟩ := Option.ne_none_iff_exists'.mp
    (@findEntry_ne_none name blocks[k] none 0 e he hused hname)
  obtain ⟨pre, f, post, heq, hused', hname', hoffset, -⟩ := findEntry_eq_some hr
  have hlists := h.lists k hk
  rw [heq, lists_append] at hlists
  rw [Nat.zero_add] at hoffset
  have hf := hlt f (by rw [heq]; simp) hused' hname'
  have hinode : (dirent dir.data (k * dir.blksz + r.2)).inode < 2 ^ 31 := by
    rw [hoffset, hlists.2.1.dirent_eq]
    exact hf
  rw [findInBlock, h.findLoop_block hk, hr, Option.filter_some, if_pos (decide_eq_true hinode)]
  exact Option.some_ne_none r

end LaidOut

end

end MiniPi.Ext4
