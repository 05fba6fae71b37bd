import MiniPi.Fat.Create
import MiniPi.Lib.Run
import Mathlib.Data.List.Nodup

/-!
# The 8.3 names of a directory

Every file that `file_fat_write_at` creates gets the 8.3 name `set_name` makes of its long
name, and nothing looks whether that name is taken.  The names stay different as long as each
new file brings one that no entry has, and as long as no call fails after it has given the
directory a cluster with old entries in it.
-/

open MiniPi.Lib

namespace MiniPi.Fat

/-- The record is an entry: neither unused nor deleted, and no slot or label. -/
def Dent.Live (d : Dent) : Prop := d.name0 ≠ 0 ∧ d.name0 ≠ 0xe5 ∧ d.isVolume = false

instance (d : Dent) : Decidable d.Live := inferInstanceAs (Decidable (_ ∧ _ ∧ _))

/-- The 8.3 names of the entries of a table. -/
def liveNames (table : List Dent) : List Str :=
  (table.filter fun d ↦ decide d.Live).map Dent.nameExt

/-- No two entries have the same 8.3 name. -/
def Dir.UniqueAliases (dir : Dir) : Prop := (liveNames dir.table).Nodup

instance (dir : Dir) : Decidable dir.UniqueAliases := inferInstanceAs (Decidable (List.Nodup _))

/-! ## Names under changes of the table -/

section Tables

variable {table table' : List Dent} {d : Dent} {i n : ℕ}

theorem liveNames_append : liveNames (table ++ table') = liveNames table ++ liveNames table' := by
  simp [liveNames]

theorem liveNames_eq_nil (h : ∀ d ∈ table, ¬d.Live) : liveNames table = [] := by
  have : (table.filter fun d ↦ decide d.Live) = [] :=
    List.filter_eq_nil_iff.mpr fun d hd ↦ by simpa using h d hd
  rw [liveNames, this]
  rfl

theorem liveNames_cons : liveNames (d :: table) =
    if d.Live then d.nameExt :: liveNames table else liveNames table := by
  by_cases h : d.Live <;> simp [liveNames, h]

theorem not_live_zero : ¬Dent.zero.Live := by decide

theorem liveNames_zeros : liveNames (List.replicate n Dent.zero) = [] :=
  liveNames_eq_nil fun d hd ↦ by
    rw [List.eq_of_mem_replicate hd]
    exact not_live_zero

theorem liveNames_set_sublist (h : ¬d.Live) :
    (liveNames (table.set i d)).Sublist (liveNames table) := by
  induction table generalizing i with
  | nil => simp
  | cons e table ih =>
      cases i with
      | zero =>
          rw [List.set_cons_zero, liveNames_cons, if_neg h, liveNames_cons]
          split_ifs
          · exact List.sublist_cons_self ..
          · exact List.Sublist.refl _
      | succ i =>
          rw [List.set_cons_succ, liveNames_cons, liveNames_cons]
          split_ifs
          · exact ih.cons_cons _
          · exact ih

/-- A record replaced by one that is an entry exactly if the old one was, and then of the
same name. -/
theorem liveNames_set_same {e : Dent} (he : table[i]? = some e) (hlive : d.Live ↔ e.Live)
    (hname : d.nameExt = e.nameExt) : liveNames (table.set i d) = liveNames table := by
  induction table generalizing i with
  | nil => simp
  | cons f table ih =>
      cases i with
      | zero =>
          obtain rfl : f = e := by simpa using he
          rw [List.set_cons_zero, liveNames_cons, liveNames_cons, hname]
          simp only [hlive]
      | succ i =>
          rw [List.set_cons_succ, liveNames_cons, liveNames_cons, ih (by simpa using he)]

theorem mem_liveNames_set {s : Str} (h : s ∈ liveNames (table.set i d)) :
    s ∈ liveNames table ∨ s = d.nameExt := by
  obtain ⟨e, he, rfl⟩ := List.mem_map.mp h
  obtain ⟨hmem, hlive⟩ := List.mem_filter.mp he
  rcases List.mem_or_eq_of_mem_set hmem with hmem | rfl
  · exact .inl (List.mem_map.mpr ⟨e, List.mem_filter.mpr ⟨hmem, hlive⟩, rfl⟩)
  · exact .inr rfl

theorem nodup_liveNames_set (h : (liveNames table).Nodup) (hd : d.nameExt ∉ liveNames table) :
    (liveNames (table.set i d)).Nodup := by
  induction table generalizing i with
  | nil => simpa using h
  | cons e table ih =>
      cases i with
      | zero =>
          have hrest : (liveNames table).Nodup ∧ d.nameExt ∉ liveNames table := by
            rw [liveNames_cons] at h hd
            split_ifs at h hd
            · exact ⟨(List.nodup_cons.mp h).2, fun hm ↦ hd (List.mem_cons_of_mem _ hm)⟩
            · exact ⟨h, hd⟩
          rw [List.set_cons_zero, liveNames_cons]
          split_ifs
          · exact List.nodup_cons.mpr ⟨hrest.2, hrest.1⟩
          · exact hrest.1
      | succ i =>
          rw [List.set_cons_succ, liveNames_cons]
          rw [liveNames_cons] at h hd
          split_ifs at h hd ⊢ with he
          · obtain ⟨he', hn⟩ := List.nodup_cons.mp h
            rw [List.mem_cons, not_or] at hd
            refine List.nodup_cons.mpr ⟨fun hm ↦ ?_, ih hn hd.2⟩
            rcases mem_liveNames_set hm with hm | hm
            · exact he' hm
            · exact hd.1 hm.symm
          · exact ih h hd

end Tables

/-! ## The records that are written -/

section Records

variable {d : Dent} {filename : Str}

theorem length_padTo (n : ℕ) (s : Str) : (padTo n s).length = n := by
  simp only [padTo, List.length_append, List.length_take, List.length_replicate]
  omega

theorem length_aliasOf (filename : Str) : (aliasOf filename).length = 11 := by
  unfold aliasOf
  dsimp only
  rw [List.length_append, length_padTo]
  split_ifs with h
  · rw [length_padTo]
  · rw [List.length_append, List.length_take]
    simp only [List.length_cons, List.length_nil]
    omega

theorem nameExt_setName (h : filename ≠ []) : (setName d filename).nameExt = aliasOf filename := by
  rw [setName, if_neg h, Dent.nameExt, ← length_aliasOf filename, List.take_left]

theorem take_setBytes (bs : Str) {offset n : ℕ} (h : n ≤ offset) :
    (setBytes d offset bs).take n = d.take n := by
  induction bs generalizing d offset with
  | nil => rfl
  | cons b bs ih =>
      rw [setBytes, ih (by omega), List.take_set_of_le h]

theorem take_setStartCluster (fatSize : FatSize) (start : ℕ) {n : ℕ} (h : n ≤ 20) :
    (setStartCluster fatSize d start).take n = d.take n := by
  unfold setStartCluster
  rw [take_setBytes _ (by omega)]
  split_ifs
  · exact take_setBytes _ h
  · rfl

theorem take_setFile (fatSize : FatSize) (start size : ℕ) (attr : UInt8) {n : ℕ} (h : n ≤ 20) :
    (setFile fatSize d start size attr).take n = (d.set 11 attr).take n := by
  unfold setFile
  rw [take_setBytes _ (by omega), take_setStartCluster _ _ h]

theorem nameExt_setFile (fatSize : FatSize) (start size : ℕ) (attr : UInt8) :
    (setFile fatSize d start size attr).nameExt = d.nameExt := by
  unfold Dent.nameExt
  rw [take_setFile _ _ _ _ (by omega), List.take_set_of_le (by omega)]

theorem byte_eq_of_take_eq {e : Dent} {n j : ℕ} (h : d.take n = e.take n) (hj : j < n) :
    d.byte j = e.byte j := by
  have := congrArg (fun l : List UInt8 ↦ l[j]?) h
  simp only [List.getElem?_take, hj, if_true] at this
  simp [Dent.byte, List.getD_eq_getElem?_getD, this]

/-- New contents of a file leave its entry an entry of the same name. -/
theorem live_setFile_self (fatSize : FatSize) (start size : ℕ) :
    (setFile fatSize d start size d.attr).Live ↔ d.Live := by
  have hset : d.set 11 d.attr = d := by
    refine List.ext_getElem? fun j ↦ ?_
    rw [List.getElem?_set]
    split_ifs with hj hlt
    · subst hj
      simp [Dent.attr, Dent.byte, hlt]
    · subst hj
      rw [List.getElem?_eq_none (by omega)]
    · rfl
  have htake := @take_setFile d fatSize start size d.attr 12 (by omega)
  rw [hset] at htake
  have hname : (setFile fatSize d start size d.attr).name0 = d.name0 :=
    byte_eq_of_take_eq htake (by omega)
  have hattr : (setFile fatSize d start size d.attr).attr = d.attr :=
    byte_eq_of_take_eq htake (by omega)
  rw [Dent.Live, hname, Dent.isVolume, hattr]
  rfl

theorem length_of_mem_slotUnits {chars : Str} : ∀ u ∈ slotUnits chars, u.length = 2 := by
  intro u hu
  unfold slotUnits at hu
  rcases List.mem_append.mp hu with hu | hu
  · obtain ⟨c, -, rfl⟩ := List.mem_map.mp hu
    rfl
  · split_ifs at hu
    · rcases List.mem_cons.mp hu with rfl | hu
      · rfl
      · rw [List.eq_of_mem_replicate hu]
        rfl
    · cases hu

theorem length_flatten_slotUnits (chars : Str) :
    ((slotUnits chars).take 5).flatten.length = 10 := by
  have hlen : 13 ≤ (slotUnits chars).length := by
    unfold slotUnits
    split_ifs with h
    · simp only [List.length_append, List.length_map, List.length_cons, List.length_replicate]
      omega
    · simp only [List.length_append, List.length_map, List.length_nil]
      omega
  rw [List.length_flatten,
    List.map_congr_left fun u hu ↦ length_of_mem_slotUnits u (List.mem_of_mem_take hu),
    List.map_const', List.length_take, min_eq_left (by omega)]
  rfl

section Slot

variable (id : ℕ) (checksum : UInt8) (chars : Str)

/-- The bytes behind the first five characters of a slot. -/
theorem byte_mkSlot {j : ℕ} (hj : j < 3) :
    (mkSlot id checksum chars).byte (11 + j) = [0x0f, 0, checksum].getD j 0 := by
  have hlen : (UInt8.ofNat id :: ((slotUnits chars).take 5).flatten).length = 11 := by
    rw [List.length_cons, length_flatten_slotUnits]
  unfold Dent.byte mkSlot
  dsimp only
  rw [List.append_assoc, List.append_assoc, List.append_assoc, List.getD_eq_getElem?_getD,
    List.getElem?_append_right (by omega), hlen, Nat.add_sub_cancel_left,
    List.getElem?_append_left (by simpa using hj), List.getD_eq_getElem?_getD]

@[simp] theorem attr_mkSlot : (mkSlot id checksum chars).attr = 0x0f :=
  byte_mkSlot id checksum chars (show 0 < 3 by decide)

theorem not_live_mkSlot : ¬(mkSlot id checksum chars).Live := by
  rintro ⟨-, -, hv⟩
  rw [Dent.isVolume, attr_mkSlot] at hv
  exact absurd hv (by decide)

end Slot

theorem not_live_of_mem_lfnSlots {checksum : UInt8} {slot : Dent}
    (h : slot ∈ lfnSlots checksum filename) : ¬slot.Live := by
  unfold lfnSlots at h
  rw [List.mem_reverse, List.mem_mapIdx] at h
  obtain ⟨i, hi, rfl⟩ := h
  exact not_live_mkSlot _ _ _

theorem lfnSlots_ne_nil {checksum : UInt8} (h : filename ≠ []) :
    lfnSlots checksum filename ≠ [] := by
  have hparts : slotParts filename.length filename ≠ [] := by
    obtain ⟨c, name, rfl⟩ := List.exists_cons_of_ne_nil h
    rw [List.length_cons, slotParts]
    split_ifs <;> simp
  unfold lfnSlots
  simpa using hparts

end Records

/-! ## The state of a call

`L` are the 8.3 names before the call.  Until the directory grows, the tables in memory and on
the disk hold no other names.  Afterwards the table on the disk ends in a cluster with what was
there before, and all records of that cluster the iterator has not reached are zero in
memory. -/

/-- The directory has not grown since its last cluster was written back. -/
structure Early (dir : Dir) (L : List Str) (w : Work) : Prop where
  disk_clean : (liveNames w.disk).Sublist L
  mem_clean : (liveNames w.mem).Sublist L
  length_eq : w.mem.length = w.disk.length
  aligned : dir.growable = true → dir.perClust ∣ w.disk.length

/-- The directory has grown, and the iterator is in the new cluster at record `i`. -/
structure Late (dir : Dir) (L : List Str) (stale : List Dent) (w : Work) (kept : List Dent)
    (i : ℕ) : Prop where
  growable : dir.growable = true
  disk_eq : w.disk = kept ++ stale
  kept_clean : (liveNames kept).Sublist L
  mem_clean : (liveNames w.mem).Sublist L
  aligned : dir.perClust ∣ kept.length
  length_eq : w.mem.length = kept.length + dir.perClust
  itr_eq : w.itr = ⟨i + 1, some i⟩
  le : kept.length ≤ i
  lt : i < w.mem.length
  zero : ∀ j, i < j → j < w.mem.length → w.mem[j]? = some Dent.zero

/-- One or the other. -/
def WorkInv (dir : Dir) (L : List Str) (stale : List Dent) (w : Work) : Prop :=
  Early dir L w ∨ ∃ kept i, Late dir L stale w kept i

section Calls

variable {dir : Dir} {L : List Str} {stale kept : List Dent} {w : Work} {i : ℕ} {d : Dent}

theorem Early.put (h : Early dir L w) (hd : ¬d.Live) (i : ℕ) : Early dir L (w.put i d) where
  disk_clean := h.disk_clean
  mem_clean := (liveNames_set_sublist hd).trans h.mem_clean
  length_eq := by simpa [Work.put] using h.length_eq
  aligned := h.aligned

theorem Late.put (h : Late dir L stale w kept i) (hd : ¬d.Live) :
    Late dir L stale (w.put i d) kept i where
  growable := h.growable
  disk_eq := h.disk_eq
  kept_clean := h.kept_clean
  mem_clean := (liveNames_set_sublist hd).trans h.mem_clean
  aligned := h.aligned
  length_eq := by simpa [Work.put] using h.length_eq
  itr_eq := h.itr_eq
  le := h.le
  lt := by simpa [Work.put] using h.lt
  zero j hij hj := by
    have hj' : j < w.mem.length := by simpa [Work.put] using hj
    show (w.mem.set i d)[j]? = _
    rw [List.getElem?_set_ne (by omega)]
    exact h.zero j hij hj'

theorem Early.flushAtEnd (h : Early dir L w) (i : ℕ) : Early dir L (dir.flushAtEnd w i) := by
  unfold Dir.flushAtEnd
  split_ifs
  · exact ⟨h.mem_clean, h.mem_clean, rfl, fun hg ↦ h.length_eq ▸ h.aligned hg⟩
  · exact h

/-- A directory that ends and can grow gets a cluster. -/
theorem late_grow (hg : dir.growable = true) (hclean : (liveNames w.disk).Sublist L)
    (haligned : dir.perClust ∣ w.disk.length) (hper : 0 < dir.perClust)
    (hdent : w.itr.dent = none) : Late dir L stale (dir.grow stale w) w.disk w.disk.length := by
  have hlen : (w.disk ++ List.replicate dir.perClust Dent.zero).length =
      w.disk.length + dir.perClust := by simp
  rw [Dir.grow, if_pos ⟨hdent, hg⟩]
  refine ⟨hg, rfl, hclean, ?_, haligned, hlen, rfl, le_rfl, by rw [hlen]; omega, fun j hj hlt ↦ ?_⟩
  · rw [liveNames_append, liveNames_zeros, List.append_nil]
    exact hclean
  · rw [hlen] at hlt
    show (w.disk ++ List.replicate dir.perClust Dent.zero)[j]? = _
    rw [List.getElem?_append_right (by omega), List.getElem?_replicate, if_pos (by omega)]

theorem Early.grow (h : Early dir L w) (hper : 0 < dir.perClust) :
    WorkInv dir L stale (dir.grow stale w) := by
  by_cases hgrow : w.itr.dent = none ∧ dir.growable = true
  · exact .inr ⟨_, _, late_grow hgrow.2 h.disk_clean (h.aligned hgrow.2) hper hgrow.1⟩
  · rw [Dir.grow, if_neg hgrow]
    exact .inl h

theorem Early.moveOn (h : Early dir L w) (hper : 0 < dir.perClust) (i : ℕ) :
    WorkInv dir L stale (dir.moveOn stale w i) := by
  have hmoved : ∀ (b : Bool) (itr : Itr),
      Early dir L { w with mem := if b then w.mem else w.disk, itr := itr } := by
    intro b itr
    cases b with
    | true => exact ⟨h.disk_clean, h.mem_clean, h.length_eq, h.aligned⟩
    | false => exact ⟨h.disk_clean, h.disk_clean, rfl, h.aligned⟩
  unfold Dir.moveOn
  dsimp only
  by_cases hr : (fatItrNext w.mem w.itr).1 = none
  · rw [if_pos hr]
    exact (hmoved _ _).grow hper
  · rw [if_neg hr]
    exact .inl (hmoved _ _)

/-- A record whose name begins with a zero ends the directory. -/
theorem fatItrNext_of_name0 {table : List Dent} {itr : Itr} {d : Dent}
    (h : table[itr.next]? = some d) (hd : d.name0 = 0) :
    fatItrNext table itr = (none, ⟨itr.next + 1, some itr.next⟩) := by
  have hn : nextDent table itr = (none, ⟨itr.next + 1, some itr.next⟩) := by
    simp only [nextDent, h, if_pos hd]
  rw [fatItrNext, fatItrNextLoop, hn]

theorem fatItrNext_of_end {table : List Dent} {itr : Itr} (h : table[itr.next]? = none) :
    fatItrNext table itr = (none, { itr with dent := none }) := by
  have hn : nextDent table itr = (none, { itr with dent := none }) := by
    simp only [nextDent, h]
  rw [fatItrNext, fatItrNextLoop, hn]

/-- In the new cluster the iterator goes from record to record, and at its end to another
new cluster. -/
theorem Late.moveOn (h : Late dir L stale w kept i) (hper : 0 < dir.perClust) :
    ∃ kept' i', Late dir L stale (dir.moveOn stale (dir.flushAtEnd w i) i) kept' i' := by
  obtain ⟨q, hq⟩ := h.aligned
  have hlen := h.length_eq
  have hle := h.le
  have hlt := h.lt
  have hnext : w.itr.next = i + 1 := by rw [h.itr_eq]
  have hdiv : ∀ j, kept.length ≤ j → j < w.mem.length → j / dir.perClust = q := by
    intro j hj hj'
    rw [Nat.div_eq_iff hper]
    constructor
    · rw [Nat.mul_comm]
      omega
    · rw [Nat.mul_comm]
      omega
  by_cases hend : i + 1 = w.mem.length
  · have hflush : dir.flushAtEnd w i = w.flushDir := if_pos (.inr hend)
    have hitr : fatItrNext w.mem w.itr = (none, { w.itr with dent := none }) :=
      fatItrNext_of_end (by rw [hnext, hend, List.getElem?_eq_none le_rfl])
    have hmem : dir.perClust ∣ w.mem.length := by
      rw [hlen]
      exact Nat.dvd_add h.aligned (dvd_refl _)
    rw [hflush]
    unfold Dir.moveOn Work.flushDir
    dsimp only
    rw [hitr]
    exact ⟨_, _, late_grow h.growable (by split_ifs <;> exact h.mem_clean) hmem hper rfl⟩
  · have hmod : (i + 1) % dir.perClust ≠ 0 := by
      have hi := hdiv (i + 1) (by omega) (by omega)
      have := Nat.div_add_mod (i + 1) dir.perClust
      rw [hi] at this
      omega
    have hflush : dir.flushAtEnd w i = w := if_neg (by simp [hmod, hend])
    have hitr : fatItrNext w.mem w.itr = (none, ⟨i + 1 + 1, some (i + 1)⟩) := by
      have hzero := h.zero (i + 1) (by omega) (by omega)
      rw [← hnext] at hzero
      rw [fatItrNext_of_name0 hzero rfl, hnext]
    have hsame : dir.sameCluster i ⟨i + 1 + 1, some (i + 1)⟩ = true := by
      have h₁ := hdiv (i + 1) (by omega) (by omega)
      have h₂ := hdiv i (by omega) (by omega)
      simp [Dir.sameCluster, h₁, h₂]
    have hstay : dir.moveOn stale w i = { w with itr := ⟨i + 1 + 1, some (i + 1)⟩ } := by
      unfold Dir.moveOn
      dsimp only
      rw [hitr, if_pos rfl, hsame, if_pos rfl, Dir.grow, if_neg (by simp)]
    rw [hflush, hstay]
    exact ⟨kept, i + 1, h.growable, h.disk_eq, h.kept_clean, h.mem_clean, h.aligned, h.length_eq,
      rfl, by omega, by show i + 1 < w.mem.length; omega, fun j hj hj' ↦ h.zero j (by omega) hj'⟩

theorem WorkInv.writeSlot (h : WorkInv dir L stale w) (hper : 0 < dir.perClust) (hd : ¬d.Live)
    (hi : w.itr.dent = some i) :
    WorkInv dir L stale (dir.moveOn stale (dir.flushAtEnd (w.put i d) i) i) := by
  rcases h with h | ⟨kept, j, h⟩
  · exact ((h.put hd i).flushAtEnd i).moveOn hper i
  · obtain rfl : j = i := by
      rw [h.itr_eq] at hi
      exact Option.some.inj hi
    exact .inr ((h.put hd).moveOn hper)

theorem WorkInv.fillDirSlot {slots : List Dent} {w' : Work} (h : WorkInv dir L stale w)
    (hper : 0 < dir.perClust) (hslots : ∀ s ∈ slots, ¬s.Live)
    (hfill : dir.fillDirSlot stale slots w = some w') : WorkInv dir L stale w' := by
  induction slots generalizing w with
  | nil =>
      cases hfill
      exact h
  | cons slot slots ih =>
      unfold Dir.fillDirSlot at hfill
      cases hi : w.itr.dent with
      | none =>
          rw [hi] at hfill
          cases hfill
      | some i =>
          rw [hi] at hfill
          exact ih (h.writeSlot hper (hslots slot (List.mem_cons_self ..)) hi)
            (fun s hs ↦ hslots s (List.mem_cons_of_mem _ hs)) hfill

theorem fillDirSlot_put {slots : List Dent} (hslots : slots ≠ []) (hi : w.itr.dent = some i)
    (d : Dent) : dir.fillDirSlot stale slots (w.put i d) = dir.fillDirSlot stale slots w := by
  obtain ⟨slot, slots, rfl⟩ := List.exists_cons_of_ne_nil hslots
  have hput : (w.put i d).put i slot = w.put i slot := by
    simp [Work.put]
  have hdent : (w.put i d).itr.dent = some i := hi
  simp only [Dir.fillDirSlot, hdent, hi, hput]

end Calls

/-! ## What a call leaves behind -/

/-- A directory of whole clusters with different 8.3 names. -/
structure DirInv (dir : Dir) : Prop where
  perClust_pos : 0 < dir.perClust
  aligned : dir.growable = true → dir.perClust ∣ dir.table.length
  unique : dir.UniqueAliases

/-- What a new cluster held brings no 8.3 name twice. -/
def Dir.Harmless (dir : Dir) (stale : List Dent) : Prop :=
  (liveNames dir.table ++ liveNames stale).Nodup

instance (dir : Dir) (stale : List Dent) : Decidable (dir.Harmless stale) :=
  inferInstanceAs (Decidable (List.Nodup _))

section Left

variable {dir : Dir} {stale : List Dent} {w : Work} {d : Dent}

theorem WorkInv.left (hdir : DirInv dir) (h : WorkInv dir (liveNames dir.table) stale w)
    (hlen : stale.length = dir.perClust) (hstale : dir.Harmless stale) : DirInv (dir.left w) := by
  rcases h with h | ⟨kept, i, h⟩
  · exact ⟨hdir.perClust_pos, h.aligned, hdir.unique.sublist h.disk_clean⟩
  · refine ⟨hdir.perClust_pos, fun _ ↦ ?_, ?_⟩
    · show _ ∣ w.disk.length
      rw [h.disk_eq, List.length_append, hlen]
      exact Nat.dvd_add h.aligned (dvd_refl _)
    · show (liveNames w.disk).Nodup
      rw [h.disk_eq, liveNames_append]
      exact List.Nodup.sublist (h.kept_clean.append (List.Sublist.refl _)) hstale

theorem WorkInv.left_put (hdir : DirInv dir) (h : WorkInv dir (liveNames dir.table) stale w)
    (hd : d.nameExt ∉ liveNames dir.table) (i : ℕ) : DirInv (dir.left (w.put i d).flushDir) := by
  have hmem : (liveNames w.mem).Sublist (liveNames dir.table) ∧
      (dir.growable = true → dir.perClust ∣ w.mem.length) := by
    rcases h with h | ⟨kept, j, h⟩
    · exact ⟨h.mem_clean, fun hg ↦ h.length_eq ▸ h.aligned hg⟩
    · exact ⟨h.mem_clean, fun _ ↦ h.length_eq ▸ Nat.dvd_add h.aligned (dvd_refl _)⟩
  refine ⟨hdir.perClust_pos, fun hg ↦ ?_, ?_⟩
  · show _ ∣ (w.mem.set i d).length
    rw [List.length_set]
    exact hmem.2 hg
  · exact nodup_liveNames_set (hdir.unique.sublist hmem.1) fun hm ↦ hd (hmem.1.subset hm)

theorem DirInv.search (h : DirInv dir) {filename : Str}
    (hfind : dir.findDirectoryEntry filename stale = (none, w)) :
    WorkInv dir (liveNames dir.table) stale w := by
  unfold Dir.findDirectoryEntry at hfind
  split at hfind
  · cases hfind
  · cases hfind
    exact Early.grow ⟨List.Sublist.refl _, List.Sublist.refl _, rfl, h.aligned⟩ h.perClust_pos

/-- Without a record to write to, the directory has not grown. -/
theorem WorkInv.left_of_dent_eq_none (hdir : DirInv dir)
    (h : WorkInv dir (liveNames dir.table) stale w) (hdent : w.itr.dent = none) :
    DirInv (dir.left w) := by
  rcases h with h | ⟨kept, i, h⟩
  · exact ⟨hdir.perClust_pos, h.aligned, hdir.unique.sublist h.disk_clean⟩
  · rw [h.itr_eq] at hdent
    cases hdent

end Left

/-! ## Careful calls -/

/-- The call goes on to create the file and succeeds. -/
def Dir.Creates (dir : Dir) (lName : Str) (pos : ℤ) (contents : Bool) : Prop :=
  contents = true ∧ pos = 0 ∧ ¬(dir.isRoot = true ∧ (lName = [46] ∨ lName = [46, 46]))

instance (dir : Dir) (lName : Str) (pos : ℤ) (contents : Bool) :
    Decidable (dir.Creates lName pos contents) := inferInstanceAs (Decidable (_ ∧ _ ∧ _))

/-- What a call must meet for the 8.3 names to stay different: a file that is created has an
8.3 name no entry has, and a call that fails with the name not found finds no entries in the
cluster it gives to the directory, or only such with new names. -/
def Careful (dir : Dir) : Request → Prop
  | .write filename pos _ _ contents stale =>
      stale.length = dir.perClust ∧ ∀ lName, normalizeLongname filename = some lName →
        filename ≠ [] → (findEntry dir.table lName).1 = none →
        if dir.Creates lName pos contents then aliasOf filename ∉ liveNames dir.table
        else dir.Harmless stale
  | .unlink basename _ stale =>
      stale.length = dir.perClust ∧
        ((findEntry dir.table basename).1 = none → dir.Harmless stale)

section Handle

variable {dir dir' : Dir} {stale : List Dent} {w : Work} {d : Dent} {i : ℕ} {filename : Str}
  {answer : Except Errno Unit}

theorem findDirectoryEntry_fst (dir : Dir) (filename : Str) (stale : List Dent) :
    (dir.findDirectoryEntry filename stale).1 = (findEntry dir.table filename).1 := by
  unfold Dir.findDirectoryEntry
  split <;> simp_all

/-- An entry that is found stands in the table, which has not changed. -/
theorem findDirectoryEntry_some (h : dir.findDirectoryEntry filename stale = (some d, w)) :
    w.disk = dir.table ∧ w.mem = dir.table ∧ w.itr.At dir.table d := by
  unfold Dir.findDirectoryEntry at h
  split at h
  · rename_i hfind
    cases h
    exact ⟨rfl, rfl, at_findEntry hfind⟩
  · cases h

theorem DirInv.overwrite (h : DirInv dir) (hmem : w.mem = dir.table) (hd : dir.table[i]? = some d)
    (pos : ℤ) (size start : ℕ) (contents : Bool) :
    DirInv (dir.overwrite w d i pos size start contents).2 := by
  unfold Dir.overwrite
  generalize (if pos = -1 then (d.size : ℤ) else pos) = pos'
  dsimp only
  split_ifs
  · exact h
  · exact h
  · exact h
  · refine ⟨h.perClust_pos, fun hg ↦ ?_, ?_⟩
    · show _ ∣ (w.mem.set i _).length
      rw [List.length_set, hmem]
      exact h.aligned hg
    · show (liveNames (w.mem.set i _)).Nodup
      rw [hmem, liveNames_set_same hd (live_setFile_self _ _ _) (nameExt_setFile _ _ _ _)]
      exact h.unique

theorem DirInv.create (h : DirInv dir) (hw : WorkInv dir (liveNames dir.table) stale w)
    (hi : w.itr.dent = some i) (hname : filename ≠ []) (hlen : stale.length = dir.perClust)
    {size start : ℕ} {contents : Bool}
    (hfresh : contents = true → aliasOf filename ∉ liveNames dir.table)
    (hstale : contents = false → dir.Harmless stale)
    (hr : dir.create w i filename size start contents stale = some (answer, dir')) :
    DirInv dir' := by
  unfold Dir.create at hr
  simp only [Option.bind_eq_bind] at hr
  obtain ⟨w', hfill, hr⟩ := Option.bind_eq_some_iff.mp hr
  obtain ⟨j, -, hr⟩ := Option.bind_eq_some_iff.mp hr
  rw [fillDirSlot_put (lfnSlots_ne_nil hname) hi] at hfill
  have hw' := hw.fillDirSlot h.perClust_pos (fun s hs ↦ not_live_of_mem_lfnSlots hs) hfill
  cases contents with
  | true =>
      cases hr
      refine hw'.left_put h ?_ j
      rw [nameExt_setFile, nameExt_setName hname]
      exact hfresh rfl
  | false =>
      cases hr
      -- the entry is in memory only
      show DirInv (dir.left w')
      exact hw'.left h hlen (hstale rfl)

theorem DirInv.write (h : DirInv dir) {pos : ℤ} {size start : ℕ} {contents : Bool}
    (hc : Careful dir (.write filename pos size start contents stale))
    (hr : dir.write filename pos size start contents stale = some (answer, dir')) :
    DirInv dir' := by
  obtain ⟨hlen, hc⟩ := hc
  unfold Dir.write at hr
  cases hnorm : normalizeLongname filename with
  | none =>
      rw [hnorm] at hr
      cases hr
      exact h
  | some lName =>
      simp only [hnorm] at hr
      by_cases hname : filename = []
      · rw [if_pos hname] at hr
        cases hr
        exact h
      · rw [if_neg hname] at hr
        have hfst := findDirectoryEntry_fst dir lName stale
        cases hfind : dir.findDirectoryEntry lName stale with
        | mk r w =>
            rw [hfind] at hr hfst
            cases r with
            | some d =>
                obtain ⟨-, hmem, i, hi, hd⟩ := findDirectoryEntry_some hfind
                simp only [hi, Option.bind_eq_bind, Option.bind_some] at hr
                obtain rfl : (dir.overwrite w d i pos size start contents).2 = dir' :=
                  congrArg Prod.snd (Option.some.inj hr)
                exact h.overwrite hmem hd pos size start contents
            | none =>
                have hcond := hc lName hnorm hname hfst.symm
                have hw := h.search hfind
                dsimp only at hr
                by_cases hdots : dir.isRoot = true ∧ (lName = [46] ∨ lName = [46, 46])
                · rw [if_pos hdots] at hr
                  rw [if_neg fun hcr ↦ hcr.2.2 hdots] at hcond
                  cases hr
                  exact hw.left h hlen hcond
                rw [if_neg hdots] at hr
                cases hi : w.itr.dent with
                | none =>
                    rw [hi] at hr
                    cases hr
                    exact hw.left_of_dent_eq_none h hi
                | some i =>
                    simp only [hi] at hr
                    by_cases hpos : pos = 0
                    · rw [if_neg (not_not.mpr hpos)] at hr
                      refine h.create hw hi hname hlen (fun hcon ↦ ?_) (fun hcon ↦ ?_) hr
                      · rwa [if_pos ⟨hcon, hpos, hdots⟩] at hcond
                      · rwa [if_neg fun hcr ↦ Bool.false_ne_true (hcon.symm.trans hcr.1)] at hcond
                    · rw [if_pos hpos] at hr
                      rw [if_neg fun hcr ↦ hpos hcr.2.1] at hcond
                      cases hr
                      exact hw.left h hlen hcond

theorem DirInv.unlink (h : DirInv dir) {empty : Bool}
    (hc : Careful dir (.unlink filename empty stale))
    (hr : dir.unlink filename empty stale = some (answer, dir')) : DirInv dir' := by
  obtain ⟨hlen, hc⟩ := hc
  unfold Dir.unlink at hr
  have hfst := findDirectoryEntry_fst dir filename stale
  cases hfind : dir.findDirectoryEntry filename stale with
  | mk r w =>
      rw [hfind] at hr hfst
      cases r with
      | none =>
          cases hr
          exact (h.search hfind).left h hlen (hc hfst.symm)
      | some d =>
          obtain ⟨-, hmem, i, hi, hd⟩ := findDirectoryEntry_some hfind
          simp only [hi, Option.bind_eq_bind, Option.bind_some] at hr
          split_ifs at hr
          · cases hr
            exact h
          · cases hr
            have hdead : ¬deletedDent.Live := by decide
            refine ⟨h.perClust_pos, fun hg ↦ ?_, ?_⟩
            · show _ ∣ (w.mem.set i _).length
              rw [List.length_set, hmem]
              exact h.aligned hg
            · show (liveNames (w.mem.set i _)).Nodup
              rw [hmem]
              exact h.unique.sublist (liveNames_set_sublist hdead)

theorem DirInv.handle (h : DirInv dir) {req : Request} (hc : Careful dir req)
    (hr : dir.handle req = some (answer, dir')) : DirInv dir' := by
  cases req with
  | write filename pos size start contents stale => exact h.write hc hr
  | unlink basename empty stale => exact h.unlink hc hr

end Handle

/-! ## Runs -/

/-- One call, what it returns, and the directory it leaves. -/
def Handles (dir : Dir) (event : Request × Except Errno Unit) (dir' : Dir) : Prop :=
  dir.handle event.1 = some (event.2, dir')

/-- A directory without files: no entries, or only `.` and `..`. -/
def Dir.Empty (dir : Dir) : Prop :=
  liveNames dir.table = [] ∨ liveNames dir.table = [padTo 11 [46], padTo 11 [46, 46]]

instance (dir : Dir) : Decidable dir.Empty := inferInstanceAs (Decidable (_ ∨ _))

/-- In every run of careful calls from an empty directory of whole clusters, the entries have
different 8.3 names. -/
theorem uniqueAliases_of_careful {dir dir' : Dir} {events : List (Request × Except Errno Unit)}
    (hempty : dir.Empty) (hper : 0 < dir.perClust)
    (haligned : dir.growable = true → dir.perClust ∣ dir.table.length)
    (hrun : Run (fun d e d' ↦ Careful d e.1 ∧ Handles d e d') dir events dir') :
    dir'.UniqueAliases := by
  have hunique : dir.UniqueAliases := by
    unfold Dir.UniqueAliases
    rcases hempty with h | h
    · rw [h]
      exact List.nodup_nil
    · rw [h]
      decide
  refine (Run.invariant (I := DirInv) ?_ hrun ⟨hper, haligned, hunique⟩).unique
  rintro d ⟨req, answer⟩ d' hd ⟨hcareful, hhandles⟩
  exact hd.handle hcareful hhandles

/-- The root directory of a FAT32 volume with sixteen records in a cluster. -/
def emptyRoot : Dir := ⟨.fat32, List.replicate 16 Dent.zero, 16, true⟩

/-- A small file is written. -/
def writeFile (name : String) : Request :=
  .write (ascii name) 0 1 3 true (List.replicate 16 Dent.zero)

/-- A file is deleted. -/
def unlinkFile (name : String) : Request :=
  .unlink (ascii name) true (List.replicate 16 Dent.zero)

/-- The directory after a call. -/
def dirAfter (dir : Dir) (req : Request) : Dir :=
  ((dir.handle req).getD (.error .eio, dir)).2

theorem handles_dirAfter {dir : Dir} {req : Request} {answer : Except Errno Unit}
    (h : (dir.handle req).map Prod.fst = some answer) :
    Handles dir (req, answer) (dirAfter dir req) := by
  obtain ⟨⟨a, dir'⟩, hr, rfl⟩ := Option.map_eq_some_iff.mp h
  rw [Handles, dirAfter, hr]
  rfl

theorem careful_writeFile {dir : Dir} {name : String} (hlen : dir.perClust = 16)
    (hdots : downcase (ascii name) ≠ [46] ∧ downcase (ascii name) ≠ [46, 46])
    (hfresh : aliasOf (ascii name) ∉ liveNames dir.table) : Careful dir (writeFile name) := by
  refine ⟨by rw [hlen]; rfl, fun lName hnorm _ _ ↦ ?_⟩
  obtain rfl : downcase (ascii name) = lName := by
    unfold normalizeLongname at hnorm
    split_ifs at hnorm
    exact Option.some.inj hnorm
  rwa [if_pos ⟨rfl, rfl, fun h ↦ h.2.elim hdots.1 hdots.2⟩]

/-- A file is deleted and another one with the same 8.3 name takes its place. -/
theorem uniqueAliases_of_careful_reuse :
    ∃ dir, Run (fun d e d' ↦ Careful d e.1 ∧ Handles d e d') emptyRoot
        [(writeFile "longfilename1.txt", .ok ()), (unlinkFile "LONGFI~1.TXT", .ok ()),
          (writeFile "longfilename2.txt", .ok ())] dir ∧
      dir.UniqueAliases ∧ liveNames dir.table = [ascii "LONGFI~1TXT"] := by
  have hfirst : Careful emptyRoot (writeFile "longfilename1.txt") :=
    careful_writeFile rfl (by decide) (by decide +kernel)
  have hsecond : Careful (dirAfter emptyRoot (writeFile "longfilename1.txt"))
      (unlinkFile "LONGFI~1.TXT") := by
    have hfind : (findEntry (dirAfter emptyRoot (writeFile "longfilename1.txt")).table
        (ascii "LONGFI~1.TXT")).1 ≠ none := by decide +kernel
    exact ⟨by decide +kernel, fun h ↦ absurd h hfind⟩
  have hthird : Careful (dirAfter (dirAfter emptyRoot (writeFile "longfilename1.txt"))
      (unlinkFile "LONGFI~1.TXT")) (writeFile "longfilename2.txt") :=
    careful_writeFile (by decide +kernel) (by decide) (by decide +kernel)
  have hrun : Run (fun d e d' ↦ Careful d e.1 ∧ Handles d e d') emptyRoot
      [(writeFile "longfilename1.txt", .ok ()), (unlinkFile "LONGFI~1.TXT", .ok ()),
        (writeFile "longfilename2.txt", .ok ())]
      (dirAfter (dirAfter (dirAfter emptyRoot (writeFile "longfilename1.txt"))
        (unlinkFile "LONGFI~1.TXT")) (writeFile "longfilename2.txt")) :=
    .cons ⟨hfirst, handles_dirAfter (by decide +kernel)⟩
      (.cons ⟨hsecond, handles_dirAfter (by decide +kernel)⟩
        (.cons ⟨hthird, handles_dirAfter (by decide +kernel)⟩ (.nil _)))
  exact ⟨_, hrun, uniqueAliases_of_careful (by decide +kernel) (by decide) (by decide) hrun,
    by decide +kernel⟩

/-- Two long names with the same beginning and extension get one 8.3 name. -/
theorem not_uniqueAliases_same_start :
    normalizeLongname (ascii "longfilename1.txt") = some (ascii "longfilename1.txt") ∧
    normalizeLongname (ascii "longfilename2.txt") = some (ascii "longfilename2.txt") ∧
    emptyRoot.Empty ∧
    ∃ dir, Run Handles emptyRoot
        [(writeFile "longfilename1.txt", .ok ()), (writeFile "longfilename2.txt", .ok ())] dir ∧
      ¬dir.UniqueAliases := by
  refine ⟨by decide +kernel, by decide +kernel, by decide +kernel,
    dirAfter (dirAfter emptyRoot (writeFile "longfilename1.txt")) (writeFile "longfilename2.txt"),
    ?_, by decide +kernel⟩
  exact .cons (handles_dirAfter (by decide +kernel))
    (.cons (handles_dirAfter (by decide +kernel)) (.nil _))

end MiniPi.Fat
