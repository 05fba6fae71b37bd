import MiniPi.Fat.Entry

/-!
# The buffer of the allocation table

Six sectors of the table are held in memory.  They are changed there, and go back to all copies
of the table on the disk when other sectors are needed.
-/

namespace MiniPi.Fat

open Lib

/-- Where a volume has its tables, as `get_fs_info` reads it from the boot sector. -/
structure Volume where
  fatSize : FatSize
  sectSize : ℕ
  fatSect : ℕ
  /-- The number of sectors of one table. -/
  fatLength : ℕ
  /-- The number of tables. -/
  fats : ℕ
  totalSect : ℕ
  sect_pos : 0 < sectSize
  sect_even : 2 ∣ sectSize
  fats_pos : 0 < fats
  /-- The tables lie inside of the volume. -/
  fits : fatSect + fats * fatLength ≤ totalSect
  lt : totalSect < 2 ^ 32

namespace Volume

variable (v : Volume)

/-- `FATBUFSIZE`, the bytes of the buffer. -/
def fatBufSize : ℕ := v.sectSize * 6

/-- `FAT12BUFSIZE`, `FAT16BUFSIZE` and `FAT32BUFSIZE`, the entries of the buffer. -/
def bufSize : ℕ :=
  match v.fatSize with
  | .fat12 => v.fatBufSize * 2 / 3
  | .fat16 => v.fatBufSize / 2
  | .fat32 => v.fatBufSize / 4

/-- The number of sectors in the buffer, in unsigned arithmetic. -/
def getSize (bufnum : ℕ) : ℕ :=
  if v.fatLength < bufnum * 6 + 6 then (v.fatLength + (2 ^ 32 - bufnum * 6)) % 2 ^ 32 else 6

end Volume

/-- The disk, and the state of the buffer. -/
structure Cache where
  disk : Mem
  fatbuf : Mem
  /-- The number of the sectors in the buffer; `-1` is `none`. -/
  fatbufnum : Option ℕ
  dirty : Bool

/-- `disk_write`. -/
def diskWrite (v : Volume) (disk : Mem) (block nrBlocks : ℕ) (buf : Mem) : Option Mem :=
  if v.totalSect < block + nrBlocks then none
  else some (disk.write (block * v.sectSize) (buf.slice 0 (nrBlocks * v.sectSize)))

/-- `flush_dirty_fat_buffer`; `none` is a negative result. -/
def flushDirtyFatBuffer (v : Volume) (st : Cache) : Option Cache :=
  match st.fatbufnum, st.dirty with
  | some bufnum, true => do
    let startblock := bufnum * 6 + v.fatSect
    let disk ← diskWrite v st.disk startblock (v.getSize bufnum) st.fatbuf
    let disk ←
      if v.fats = 2 then diskWrite v disk (startblock + v.fatLength) (v.getSize bufnum) st.fatbuf
      else some disk
    some { st with disk := disk, dirty := false }
  | _, _ => some st

/-- The block of `get_fatent` and of `set_fatent_value` that brings an entry into the buffer. -/
def readFatBuffer (v : Volume) (st : Cache) (bufnum : ℕ) : Option Cache :=
  if st.fatbufnum = some bufnum then some st
  else do
    let st ← flushDirtyFatBuffer v st
    let sectors := st.disk.slice ((bufnum * 6 + v.fatSect) * v.sectSize)
      (v.getSize bufnum * v.sectSize)
    some { st with fatbuf := st.fatbuf.write 0 sectors, fatbufnum := some bufnum }

/-- `get_fatent`. -/
def getFatent (v : Volume) (st : Cache) (entry : ℕ) : ℕ × Cache :=
  if v.fatSize.checkClust entry then (0, st)
  else
    let bufnum := entry / v.bufSize
    let offset := entry - bufnum * v.bufSize
    match readFatBuffer v st bufnum with
    | none => (2 ^ 32 - 1, st)
    | some st => (getEntry v.fatSize st.fatbuf offset, st)

/-- `set_fatent_value`. -/
def setFatentValue (v : Volume) (st : Cache) (entry value : ℕ) : Option Cache :=
  let bufnum := entry / v.bufSize
  let offset := entry - bufnum * v.bufSize
  (readFatBuffer v st bufnum).map fun st ↦
    { st with dirty := true, fatbuf := setEntry v.fatSize st.fatbuf offset value }

/-! ## The table that the buffer stands for -/

namespace Volume

variable (v : Volume)

/-- The address of a copy of the table. -/
def copyAt (k : ℕ) : ℕ := (v.fatSect + k * v.fatLength) * v.sectSize

/-- The bytes of a table. -/
def tableSize : ℕ := v.fatLength * v.sectSize

/-- The bytes of the table that are in the buffer. -/
def windowLen (bufnum : ℕ) : ℕ := min v.fatBufSize (v.tableSize - bufnum * v.fatBufSize)

theorem fatBufSize_pos : 0 < v.fatBufSize := by
  have := v.sect_pos
  unfold fatBufSize
  omega

theorem copyAt_one : v.copyAt 1 = v.copyAt 0 + v.tableSize := by
  simp only [copyAt, tableSize, Nat.zero_mul, Nat.add_zero, Nat.one_mul, Nat.add_mul]

theorem startblock_mul (bufnum k : ℕ) :
    (bufnum * 6 + v.fatSect + k * v.fatLength) * v.sectSize = v.copyAt k +
    bufnum * v.fatBufSize := by
  unfold copyAt fatBufSize
  ring

theorem div_fatBufSize_iff {x bufnum : ℕ} :
    x / v.fatBufSize = bufnum ↔
      bufnum * v.fatBufSize ≤ x ∧ x < bufnum * v.fatBufSize + v.fatBufSize := by
  have hpos := v.fatBufSize_pos
  rw [Nat.div_eq_iff hpos]
  omega

theorem getSize_eq {bufnum : ℕ} (h : bufnum * 6 < v.fatLength) :
    v.getSize bufnum = min 6 (v.fatLength - bufnum * 6) := by
  have hlt : v.fatLength < 2 ^ 32 := by
    have := v.lt
    have := v.fits
    have := Nat.le_mul_of_pos_left v.fatLength v.fats_pos
    omega
  unfold getSize
  split_ifs with hcap
  · omega
  · omega

theorem getSize_mul {bufnum : ℕ} (h : bufnum * 6 < v.fatLength) :
    v.getSize bufnum * v.sectSize = v.windowLen bufnum := by
  rw [v.getSize_eq h, Nat.mul_comm, ← Nat.mul_min_mul_left, Nat.mul_sub, windowLen, fatBufSize,
    tableSize, Nat.mul_comm v.fatLength, Nat.mul_left_comm]

theorem mul_lt_tableSize_iff {bufnum : ℕ} :
    bufnum * v.fatBufSize < v.tableSize ↔ bufnum * 6 < v.fatLength := by
  rw [fatBufSize, tableSize, Nat.mul_left_comm, Nat.mul_comm v.fatLength]
  exact Nat.mul_lt_mul_left v.sect_pos

end Volume

/-- The sectors in the buffer are copied to copy `k` of the table. -/
def writeWindow (v : Volume) (disk buf : Mem) (bufnum k : ℕ) : Mem :=
  disk.write (v.copyAt k + bufnum * v.fatBufSize) (buf.slice 0 (v.windowLen bufnum))

theorem diskWrite_window (v : Volume) {k bufnum : ℕ} (hk : k < v.fats)
    (h : bufnum * 6 < v.fatLength) (disk buf : Mem) :
    diskWrite v disk (bufnum * 6 + v.fatSect + k * v.fatLength) (v.getSize bufnum) buf =
      some (writeWindow v disk buf bufnum k) := by
  have hget := v.getSize_eq h
  have hfits := v.fits
  have hcopies : k * v.fatLength + v.fatLength ≤ v.fats * v.fatLength := by
    rw [← Nat.succ_mul]
    exact Nat.mul_le_mul_right _ hk
  rw [diskWrite, if_neg (by omega), v.startblock_mul, v.getSize_mul h, writeWindow]

/-- Byte `x` of copy `j`, after the sectors in the buffer were written to copy `k`. -/
theorem writeWindow_apply (v : Volume) {j k bufnum x : ℕ} (hj : j < 2) (hk : k < 2)
    (hx : x < v.tableSize) (disk buf : Mem) :
    writeWindow v disk buf bufnum k (v.copyAt j + x) =
      if j = k ∧ x / v.fatBufSize = bufnum then buf (x % v.fatBufSize)
      else disk (v.copyAt j + x) := by
  have hone := v.copyAt_one
  have hrange : (v.copyAt k + bufnum * v.fatBufSize ≤ v.copyAt j + x ∧
      v.copyAt j + x < v.copyAt k + bufnum * v.fatBufSize + v.windowLen bufnum) ↔
        j = k ∧ x / v.fatBufSize = bufnum := by
    rw [v.div_fatBufSize_iff, Volume.windowLen]
    obtain rfl | rfl : j = 0 ∨ j = 1 := by omega
    all_goals
      obtain rfl | rfl : k = 0 ∨ k = 1 := by omega
      all_goals omega
  rw [writeWindow, Mem.write_slice_apply, if_congr hrange rfl rfl]
  split_ifs with hjk
  · obtain ⟨rfl, rfl⟩ := hjk
    have hmod := Nat.div_add_mod' x v.fatBufSize
    congr 1
    omega
  · rfl

/-! ## The invariant -/

namespace Cache

variable (v : Volume)

/-- Byte `x` of the table: from the buffer, if it is there. -/
def tableByte (st : Cache) (x : ℕ) : UInt8 :=
  if st.fatbufnum = some (x / v.fatBufSize) then st.fatbuf (x % v.fatBufSize)
  else st.disk (v.copyAt 0 + x)

/-- The buffer is dirty, and byte `x` is in it. -/
def Pending (st : Cache) (x : ℕ) : Prop := st.dirty = true ∧ st.fatbufnum = some (x / v.fatBufSize)

/-- The buffer holds sectors of the table, and every copy of the table has the bytes that are not
waiting in the buffer. -/
structure Synced (st : Cache) : Prop where
  clean : st.fatbufnum = none → st.dirty = false
  window : ∀ bufnum, st.fatbufnum = some bufnum → bufnum * 6 < v.fatLength
  copies : ∀ x < v.tableSize, ¬st.Pending v x →
    ∀ k < v.fats, st.disk (v.copyAt k + x) = st.tableByte v x

end Cache

variable {v : Volume} {st : Cache}

/-- What is written for a dirty buffer. -/
theorem flushDirtyFatBuffer_dirty (hfats : v.fats ≤ 2) {bufnum : ℕ}
    (hnum : st.fatbufnum = some bufnum) (hdirty : st.dirty = true) (h : bufnum * 6 < v.fatLength) :
    ∃ disk, flushDirtyFatBuffer v st = some { st with disk := disk, dirty := false } ∧
      ∀ x < v.tableSize, ∀ k < v.fats, disk (v.copyAt k + x) =
        if x / v.fatBufSize = bufnum then st.fatbuf (x % v.fatBufSize)
        else st.disk (v.copyAt k + x) := by
  have hfirst := diskWrite_window v v.fats_pos h st.disk st.fatbuf
  rw [Nat.zero_mul, Nat.add_zero] at hfirst
  by_cases htwo : v.fats = 2
  · have hsecond := diskWrite_window v (show 1 < v.fats by omega) h
      (writeWindow v st.disk st.fatbuf bufnum 0) st.fatbuf
    rw [Nat.one_mul] at hsecond
    refine ⟨writeWindow v (writeWindow v st.disk st.fatbuf bufnum 0) st.fatbuf bufnum 1, ?_,
      fun x hx k hk ↦ ?_⟩
    · simp [flushDirtyFatBuffer, hnum, hdirty, hfirst, htwo, hsecond]
    · rw [writeWindow_apply v (by omega) (by decide) hx,
        writeWindow_apply v (by omega) (by decide) hx]
      obtain rfl | rfl : k = 0 ∨ k = 1 := by omega
      · simp
      · simp
  · obtain hone : v.fats = 1 := by
      have := v.fats_pos
      omega
    refine ⟨writeWindow v st.disk st.fatbuf bufnum 0, ?_, fun x hx k hk ↦ ?_⟩
    · simp [flushDirtyFatBuffer, hnum, hdirty, hfirst, htwo]
    · rw [writeWindow_apply v (by omega) (by decide) hx]
      simp [show k = 0 by omega]

/-- A flush does not change the table, and brings it to every copy. -/
theorem flushDirtyFatBuffer_spec (hfats : v.fats ≤ 2) (h : st.Synced v) :
    ∃ st', flushDirtyFatBuffer v st = some st' ∧ st'.fatbufnum = st.fatbufnum ∧
      st'.fatbuf = st.fatbuf ∧ st'.dirty = false ∧
      ∀ x < v.tableSize, ∀ k < v.fats, st'.disk (v.copyAt k + x) = st.tableByte v x := by
  by_cases hdirty : st.dirty = true
  · cases hnum : st.fatbufnum with
    | none => simp [h.clean hnum] at hdirty
    | some bufnum =>
        obtain ⟨disk, hflush, hdisk⟩ :=
          flushDirtyFatBuffer_dirty hfats hnum hdirty (h.window _ hnum)
        refine ⟨_, hflush, hnum, rfl, rfl, fun x hx k hk ↦ ?_⟩
        refine (hdisk x hx k hk).trans ?_
        rw [Cache.tableByte, hnum]
        split_ifs with h₁ h₂ h₂
        · rfl
        · exact absurd (congrArg some h₁.symm) h₂
        · exact absurd (Option.some.inj h₂).symm h₁
        · have hpending : ¬st.Pending v x := fun hp ↦ h₂ (hnum.symm.trans hp.2)
          rw [h.copies x hx hpending k hk, Cache.tableByte, hnum, if_neg h₂]
  · have hclean : st.dirty = false := by simpa using hdirty
    refine ⟨st, ?_, rfl, rfl, hclean, fun x hx k hk ↦ h.copies x hx (fun hp ↦ hdirty hp.1) k hk⟩
    simp [flushDirtyFatBuffer, hclean]

/-- The table is as before, and the entry's sectors are in the buffer. -/
theorem readFatBuffer_spec (hfats : v.fats ≤ 2) (h : st.Synced v) {bufnum : ℕ}
    (hnum : bufnum * 6 < v.fatLength) :
    ∃ st', readFatBuffer v st bufnum = some st' ∧ st'.fatbufnum = some bufnum ∧ st'.Synced v ∧
      ∀ x < v.tableSize, st'.tableByte v x = st.tableByte v x := by
  unfold readFatBuffer
  split_ifs with hsame
  · exact ⟨st, rfl, hsame, h, fun _ _ ↦ rfl⟩
  · obtain ⟨st', hflush, -, -, hclean, hdisk⟩ := flushDirtyFatBuffer_spec hfats h
    have hbyte : ∀ x < v.tableSize, Cache.tableByte v { st' with
        fatbuf := st'.fatbuf.write 0 (st'.disk.slice ((bufnum * 6 + v.fatSect) * v.sectSize)
          (v.getSize bufnum * v.sectSize))
        fatbufnum := some bufnum } x = st.tableByte v x := by
      intro x hx
      refine Eq.trans ?_ (hdisk x hx 0 v.fats_pos)
      have hstart := v.startblock_mul bufnum 0
      rw [Nat.zero_mul, Nat.add_zero] at hstart
      rw [Cache.tableByte]
      split_ifs with hwin
      · have hdiv := (v.div_fatBufSize_iff (x := x)).mp (Option.some.inj hwin).symm
        have hmod := Nat.div_add_mod' x v.fatBufSize
        rw [← Option.some.inj hwin] at hmod
        dsimp only
        rw [hstart, v.getSize_mul hnum, Mem.write_slice_apply, if_pos, Nat.sub_zero]
        · congr 1
          omega
        · unfold Volume.windowLen
          omega
      · rfl
    rw [hflush]
    refine ⟨_, rfl, rfl, ⟨by simp, ?_, ?_⟩, hbyte⟩
    · intro n hn
      exact Option.some.inj hn ▸ hnum
    · intro x hx _ k hk
      rw [hbyte x hx]
      exact hdisk x hx k hk

/-! ## Entries of the table -/

namespace Volume

variable (v : Volume)

/-- The bytes of the entry lie inside of the table. -/
def Inside (e : ℕ) : Prop := entryEnd v.fatSize e ≤ v.tableSize

instance (e : ℕ) : Decidable (v.Inside e) :=
  inferInstanceAs (Decidable (entryEnd v.fatSize e ≤ v.tableSize))

/-- A buffer holds a whole number of dozens of bytes. -/
theorem exists_dozens :
    ∃ t, 0 < t ∧ v.fatBufSize = 12 * t ∧ v.bufSize = v.fatSize.perDozen * t := by
  obtain ⟨t, ht⟩ := v.sect_even
  have hpos := v.sect_pos
  refine ⟨t, by omega, by unfold fatBufSize; omega, ?_⟩
  unfold bufSize fatBufSize FatSize.perDozen
  cases v.fatSize <;> dsimp only <;> omega

/-- Where an entry is, in terms of the sectors that hold it. -/
theorem entry_eq (e : ℕ) : ∃ t q o, v.fatBufSize = 12 * t ∧ o < v.fatSize.perDozen * t ∧
    e = v.fatSize.perDozen * q + o ∧ e - e / v.bufSize * v.bufSize = o ∧
    e / v.bufSize * v.fatBufSize = 12 * q := by
  obtain ⟨t, ht, hbytes, hentries⟩ := v.exists_dozens
  have hpos : 0 < v.bufSize := by
    rw [hentries]
    exact Nat.mul_pos (by cases v.fatSize <;> decide) ht
  have hmod := Nat.div_add_mod' e v.bufSize
  refine ⟨t, e / v.bufSize * t, e % v.bufSize, hbytes, ?_, ?_, by omega, by rw [hbytes]; ring⟩
  · exact hentries ▸ Nat.mod_lt e hpos
  · have hprod : v.fatSize.perDozen * (e / v.bufSize * t) = e / v.bufSize * v.bufSize := by
      rw [Nat.mul_left_comm, ← hentries]
    omega

theorem entryEnd_pos (fatSize : FatSize) (e : ℕ) : entryStart fatSize e < entryEnd fatSize e := by
  cases fatSize <;> simp only [entryStart, entryEnd] <;> omega

/-- The sectors that hold an entry of the table are sectors of the table. -/
theorem div_bufSize_lt {e : ℕ} (h : v.Inside e) : e / v.bufSize * 6 < v.fatLength := by
  obtain ⟨t, q, o, -, -, he, -, hq⟩ := v.entry_eq e
  have hpos := entryEnd_pos v.fatSize o
  rw [← v.mul_lt_tableSize_iff, hq]
  unfold Inside at h
  rw [he, entryEnd_add] at h
  omega

end Volume

/-- The buffer, seen as a part of the table. -/
theorem tableByte_add {bufnum q t x : ℕ} (hnum : st.fatbufnum = some bufnum)
    (ht : v.fatBufSize = 12 * t) (hq : bufnum * v.fatBufSize = 12 * q) (hx : x < 12 * t) :
    st.tableByte v (12 * q + x) = st.fatbuf x := by
  have hdiv : (12 * q + x) / v.fatBufSize = bufnum := v.div_fatBufSize_iff.mpr (by omega)
  have hmod := Nat.div_add_mod' (12 * q + x) v.fatBufSize
  rw [hdiv] at hmod
  rw [Cache.tableByte, hdiv, if_pos hnum]
  congr 1
  omega

theorem getFatent_spec (hfats : v.fats ≤ 2) (h : st.Synced v) {e : ℕ} (hin : v.Inside e)
    (hclust : v.fatSize.checkClust e = false) :
    ∃ st', getFatent v st e = (getEntry v.fatSize (st.tableByte v) e, st') ∧ st'.Synced v ∧
      ∀ x < v.tableSize, st'.tableByte v x = st.tableByte v x := by
  obtain ⟨st', hread, hnum, hsynced, hbytes⟩ := readFatBuffer_spec hfats h (v.div_bufSize_lt hin)
  obtain ⟨t, q, o, ht, ho, he, hoff, hq⟩ := v.entry_eq e
  refine ⟨st', ?_, hsynced, hbytes⟩
  have hend := entryEnd_le v.fatSize ho
  have hentry : getEntry v.fatSize st'.fatbuf o = getEntry v.fatSize (st.tableByte v) e := by
    rw [he, getEntry_add]
    apply getEntry_congr
    intro x _ hx
    unfold Volume.Inside at hin
    rw [he, entryEnd_add] at hin
    rw [← hbytes _ (by omega), tableByte_add hnum ht hq (by omega)]
  simp only [getFatent, hclust, hread, hoff, hentry]
  rfl

theorem setFatentValue_spec (hfats : v.fats ≤ 2) (h : st.Synced v) {e : ℕ} (hin : v.Inside e)
    (value : ℕ) :
    ∃ st', setFatentValue v st e value = some st' ∧ st'.Synced v ∧
      ∀ x < v.tableSize, st'.tableByte v x = setEntry v.fatSize (st.tableByte v) e value x := by
  obtain ⟨st', hread, hnum, hsynced, hbytes⟩ := readFatBuffer_spec hfats h (v.div_bufSize_lt hin)
  obtain ⟨t, q, o, ht, ho, he, hoff, hq⟩ := v.entry_eq e
  have hend := entryEnd_le v.fatSize ho
  refine ⟨{ st' with dirty := true, fatbuf := setEntry v.fatSize st'.fatbuf o value }, ?_, ?_, ?_⟩
  · simp only [setFatentValue, hread, hoff, Option.map_some]
  · refine ⟨fun hnone ↦ by simp [hnum] at hnone, hsynced.window, fun x hx hpending k hk ↦ ?_⟩
    -- A byte that is not pending now was not pending before, and is not in the buffer.
    have hout : st'.fatbufnum ≠ some (x / v.fatBufSize) := fun hin ↦ hpending ⟨rfl, hin⟩
    have hbefore := hsynced.copies x hx (fun hp ↦ hout hp.2) k hk
    rw [Cache.tableByte, if_neg hout] at hbefore
    rw [Cache.tableByte, if_neg hout]
    exact hbefore
  · intro x hx
    rw [setEntry_apply, ← hbytes x hx]
    by_cases hwin : x / v.fatBufSize = e / v.bufSize
    · obtain ⟨y, hy, rfl⟩ : ∃ y < 12 * t, x = 12 * q + y :=
        ⟨x - 12 * q, by have := v.div_fatBufSize_iff.mp hwin; omega,
          by have := v.div_fatBufSize_iff.mp hwin; omega⟩
      have hnew : Cache.tableByte v { st' with
          dirty := true, fatbuf := setEntry v.fatSize st'.fatbuf o value } (12 * q + y) =
            setEntry v.fatSize st'.fatbuf o value y := tableByte_add hnum ht hq hy
      rw [hnew, tableByte_add hnum ht hq hy, setEntry_apply, he, patch_add]
    · have hout : st'.fatbufnum ≠ some (x / v.fatBufSize) := by
        rw [hnum]
        exact fun h ↦ hwin (Option.some.inj h).symm
      rw [Cache.tableByte, Cache.tableByte, if_neg hout, if_neg hout, patch_of_outside]
      rw [he, entryStart_add, entryEnd_add]
      have := @Volume.div_fatBufSize_iff v x (e / v.bufSize)
      omega

/-! ## Sequences of calls -/

/-- A call on the table. -/
inductive Call
  | get (entry : ℕ)
  | set (entry value : ℕ)

/-- The entry of the call lies inside of the table, and the value fits into it. -/
def Call.Valid (v : Volume) : Call → Prop
  | .get e => v.Inside e
  | .set e value => v.Inside e ∧ value < 2 ^ v.fatSize.bits

/-- The calls in order, with what the reads among them return; `none` if a write fails. -/
def calls (v : Volume) : Cache → List Call → Option (List ℕ × Cache)
  | st, [] => some ([], st)
  | st, .get e :: cs => (calls v (getFatent v st e).2 cs).map fun (rs, st') ↦
      ((getFatent v st e).1 :: rs, st')
  | st, .set e value :: cs => (setFatentValue v st e value).bind fun st ↦ calls v st cs

/-- The same calls on an array; `read` is how an entry of it is read. -/
def arrayCalls (read : (ℕ → ℕ) → ℕ → ℕ) : (ℕ → ℕ) → List Call → List ℕ × (ℕ → ℕ)
  | a, [] => ([], a)
  | a, .get e :: cs => (read a e :: (arrayCalls read a cs).1, (arrayCalls read a cs).2)
  | a, .set e value :: cs => arrayCalls read (Function.update a e value) cs

/-- The entries of copy `k` of the table on a disk. -/
def tableOf (v : Volume) (disk : Mem) (k : ℕ) : ℕ → ℕ :=
  getEntry v.fatSize fun x ↦ disk (v.copyAt k + x)

/-- The calls, and a flush at the end, do what they do on an array, from a buffer that is empty. -/
def RefinesArray (read : (ℕ → ℕ) → ℕ → ℕ) (v : Volume) (disk fatbuf : Mem) (cs : List Call) :
    Prop :=
  ∃ st st', calls v ⟨disk, fatbuf, none, false⟩ cs =
    some ((arrayCalls read (tableOf v disk 0) cs).1, st) ∧
    flushDirtyFatBuffer v st = some st' ∧
    ∀ k < v.fats, ∀ e, v.Inside e →
    tableOf v st'.disk k e = (arrayCalls read (tableOf v disk 0) cs).2 e

/-- Numbers that are not those of clusters read as 0. -/
def guardedRead (v : Volume) (a : ℕ → ℕ) (e : ℕ) : ℕ := if v.fatSize.checkClust e then 0 else a e

/-- The calls, by induction; `a` is the table as it stands. -/
theorem calls_spec (hfats : v.fats ≤ 2) {cs : List Call} (hvalid : ∀ c ∈ cs, c.Valid v) {a : ℕ → ℕ}
    (h : st.Synced v) (ha : ∀ e, v.Inside e → getEntry v.fatSize (st.tableByte v) e = a e) :
    ∃ st', calls v st cs = some ((arrayCalls (guardedRead v) a cs).1, st') ∧ st'.Synced v ∧
      ∀ e, v.Inside e → getEntry v.fatSize (st'.tableByte v) e =
      (arrayCalls (guardedRead v) a cs).2 e := by
  induction cs generalizing st a with
  | nil => exact ⟨st, rfl, h, ha⟩
  | cons c cs ih =>
      have hrest := fun c' hc' ↦ hvalid c' (List.mem_cons_of_mem c hc')
      have hc := hvalid c List.mem_cons_self
      cases c with
      | get e =>
          by_cases hclust : v.fatSize.checkClust e = true
          · obtain ⟨st', hcalls, hst'⟩ := ih hrest h ha
            refine ⟨st', ?_, hst'⟩
            simp only [calls, getFatent, hclust, if_true, hcalls, Option.map_some, arrayCalls,
              guardedRead]
          · obtain ⟨st₁, hget, hst₁, hbytes⟩ := getFatent_spec hfats h hc (by simpa using hclust)
            have ha₁ : ∀ e, v.Inside e → getEntry v.fatSize (st₁.tableByte v) e = a e := by
              intro e he
              rw [← ha e he]
              exact getEntry_congr fun x _ hx ↦ hbytes x (lt_of_lt_of_le hx he)
            obtain ⟨st', hcalls, hst'⟩ := ih hrest hst₁ ha₁
            refine ⟨st', ?_, hst'⟩
            simp only [calls, hget, hcalls, Option.map_some, arrayCalls, guardedRead,
              hclust, ha e hc]
            rfl
      | set e value =>
          obtain ⟨st₁, hset, hst₁, hbytes⟩ := setFatentValue_spec hfats h hc.1 value
          have ha₁ : ∀ e', v.Inside e' →
              getEntry v.fatSize (st₁.tableByte v) e' = Function.update a e value e' := by
            intro e' he'
            rw [getEntry_congr fun x _ hx ↦ hbytes x (lt_of_lt_of_le hx he'),
              getEntry_setEntry _ _ hc.2, ha e' he', Function.update_apply]
          obtain ⟨st', hcalls, hst'⟩ := ih hrest hst₁ ha₁
          refine ⟨st', ?_, hst'⟩
          simp only [calls, hset, Option.bind_some, hcalls, arrayCalls]

/-- On a volume with one or two equal copies of the table, the buffer is an array. -/
theorem refinesArray (hfats : v.fats ≤ 2) {disk : Mem} (fatbuf : Mem) {cs : List Call}
    (hcopies : ∀ x < v.tableSize, ∀ k < v.fats, disk (v.copyAt k + x) = disk (v.copyAt 0 + x))
    (hvalid : ∀ c ∈ cs, c.Valid v) : RefinesArray (guardedRead v) v disk fatbuf cs := by
  have hsynced : Cache.Synced v ⟨disk, fatbuf, none, false⟩ :=
    ⟨fun _ ↦ rfl, by simp, fun x hx _ k hk ↦ hcopies x hx k hk⟩
  obtain ⟨st, hcalls, hst, harray⟩ :=
    calls_spec hfats hvalid (a := tableOf v disk 0) hsynced fun _ _ ↦ rfl
  obtain ⟨st', hflush, -, -, -, hdisk⟩ := flushDirtyFatBuffer_spec hfats hst
  refine ⟨st, st', hcalls, hflush, fun k hk e he ↦ ?_⟩
  rw [← harray e he]
  exact getEntry_congr fun x _ hx ↦ hdisk x (lt_of_lt_of_le hx he) k hk

/-- A volume with two tables of one sector. -/
def smallVolume : Volume where
  fatSize := .fat12
  sectSize := 512
  fatSect := 1
  fatLength := 1
  fats := 2
  totalSect := 64
  sect_pos := by decide
  sect_even := by decide
  fats_pos := by decide
  fits := by decide
  lt := by decide

/-- Two neighbours are set, and read back. -/
theorem refinesArray_smallVolume :
    RefinesArray (guardedRead smallVolume) smallVolume (fun _ ↦ 0) (fun _ ↦ 0)
      [.set 2 0xabc, .set 3 0xdef, .get 2, .get 3] :=
  refinesArray (by decide) _ (fun _ _ _ _ ↦ rfl) (by
    intro c hc
    simp only [List.mem_cons, List.not_mem_nil, or_false] at hc
    rcases hc with rfl | rfl | rfl | rfl
    · exact ⟨by decide, by decide⟩
    · exact ⟨by decide, by decide⟩
    · exact (by decide : smallVolume.Inside 2)
    · exact (by decide : smallVolume.Inside 3))

/-- Entry 0, which is inside of the table, is refused. -/
theorem not_refinesArray :
    ¬ ∀ (v : Volume) (disk fatbuf : Mem) (cs : List Call), (∀ c ∈ cs, c.Valid v) →
      RefinesArray (fun a e ↦ a e) v disk fatbuf cs := by
  intro h
  have hvalid : ∀ c ∈ [Call.get 0], c.Valid smallVolume := by
    intro c hc
    obtain rfl := List.mem_singleton.mp hc
    exact (by decide : smallVolume.Inside 0)
  obtain ⟨st, st', hcalls, -⟩ := h smallVolume (fun _ ↦ 0xf8) (fun _ ↦ 0) [.get 0] hvalid
  have hzero : [0] =
    (arrayCalls (fun a e ↦ a e) (tableOf smallVolume (fun _ ↦ 0xf8) 0) [.get 0]).1 :=
    congrArg Prod.fst (Option.some.inj hcalls)
  exact absurd hzero (by decide)

end MiniPi.Fat
