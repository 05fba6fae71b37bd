import MiniPi.Lib.Mem

/-!
# Entries of a file allocation table

A table is a sequence of entries of 12, 16 or 32 bits, stored with the low byte first.
Entries of 12 bits share bytes with their neighbours, and are updated through the 16-bit words
that hold them.
-/

namespace MiniPi.Fat

open Lib

/-- The width of an entry, `mydata->fatsize`. -/
inductive FatSize
  | fat12
  | fat16
  | fat32
deriving DecidableEq, Repr

/-- The number of bits. -/
def FatSize.bits : FatSize → ℕ
  | .fat12 => 12
  | .fat16 => 16
  | .fat32 => 32

/-- `CHECK_CLUST`: the number is not that of a cluster. -/
def FatSize.checkClust : FatSize → ℕ → Bool
  | .fat12, x => decide (x ≤ 1) || decide (0xff0 ≤ x)
  | .fat16, x => decide (x ≤ 1) || decide (0xfff0 ≤ x)
  | .fat32, x => decide (x ≤ 1) || decide (0xffffff0 ≤ x)

/-- Word `i` of a buffer. -/
def word (m : Mem) (i : ℕ) : ℕ := leValue (m.slice (2 * i) 2)

/-- Word `i` of a buffer is assigned. -/
def setWord (m : Mem) (i v : ℕ) : Mem := m.write (2 * i) (leBytes 2 v)

/-- The end of `get_fatent`: the entry of a buffer. -/
def getEntry : FatSize → Mem → ℕ → ℕ
  | .fat32, m, offset => leValue (m.slice (4 * offset) 4)
  | .fat16, m, offset => word m offset
  | .fat12, m, offset =>
    let off8 := offset * 3 / 2
    let ret := (m off8).toNat + (m (off8 + 1)).toNat * 2 ^ 8
    if offset % 2 = 1 then ret / 2 ^ 4 % 2 ^ 12 else ret % 2 ^ 12

/-- The end of `set_fatent_value`: the entry of a buffer is set. -/
def setEntry : FatSize → Mem → ℕ → ℕ → Mem
  | .fat32, m, offset, v => m.write (4 * offset) (leBytes 4 v)
  | .fat16, m, offset, v => setWord m offset v
  | .fat12, m, offset, v =>
    let off16 := offset * 3 / 4
    match offset % 4 with
    | 0 => setWord m off16 (word m off16 / 2 ^ 12 * 2 ^ 12 + v % 2 ^ 12)
    | 1 =>
      let m := setWord m off16 (word m off16 % 2 ^ 12 + v % 2 ^ 4 * 2 ^ 12)
      setWord m (off16 + 1) (word m (off16 + 1) / 2 ^ 8 * 2 ^ 8 + v / 2 ^ 4 % 2 ^ 8)
    | 2 =>
      let m := setWord m off16 (word m off16 % 2 ^ 8 + v % 2 ^ 8 * 2 ^ 8)
      setWord m (off16 + 1) (word m (off16 + 1) / 2 ^ 4 * 2 ^ 4 + v / 2 ^ 8 % 2 ^ 4)
    | _ => setWord m off16 (word m off16 % 2 ^ 4 + v % 2 ^ 12 * 2 ^ 4)

/-! ## Byte by byte

An update changes each byte on its own, so that it can be moved along with the buffer. -/

/-- Byte `x` after an update of entry `e`. -/
def patch : FatSize → ℕ → ℕ → ℕ → UInt8 → UInt8
  | .fat32, e, v, x, old => if x / 4 = e then UInt8.ofNat (v / 256 ^ (x % 4)) else old
  | .fat16, e, v, x, old => if x / 2 = e then UInt8.ofNat (v / 256 ^ (x % 2)) else old
  | .fat12, e, v, x, old =>
    -- Three bytes hold an entry with an even number and the one behind it.
    if e % 2 = 0 then
      if x = e / 2 * 3 then UInt8.ofNat v
      else if x = e / 2 * 3 + 1 then UInt8.ofNat (old.toNat / 16 * 16 + v / 256 % 16)
      else old
    else
      if x = e / 2 * 3 + 1 then UInt8.ofNat (old.toNat % 16 + v % 16 * 16)
      else if x = e / 2 * 3 + 2 then UInt8.ofNat (v / 16)
      else old

theorem word_eq (m : Mem) (i : ℕ) : word m i = (m (2 * i)).toNat + 256 * (m (2 * i + 1)).toNat := by
  simp [word, Mem.slice, leValue, List.range_succ]

theorem setWord_apply (m : Mem) (i v x : ℕ) :
    setWord m i v x =
      if x = 2 * i then UInt8.ofNat v else if x = 2 * i + 1 then UInt8.ofNat (v / 256)
      else m x := by
  rw [setWord, Mem.write_leBytes_apply (by decide)]
  by_cases h₀ : x = 2 * i
  · rw [if_pos (by omega), if_pos h₀, show x % 2 = 0 by omega, pow_zero, Nat.div_one]
  · rw [if_neg h₀]
    by_cases h₁ : x = 2 * i + 1
    · rw [if_pos (by omega), if_pos h₁, show x % 2 = 1 by omega, pow_one]
    · rw [if_neg (by omega), if_neg h₁]

theorem ofNat_eq_iff {a : ℕ} {b : UInt8} : UInt8.ofNat a = b ↔ a % 256 = b.toNat := by
  rw [← UInt8.toNat_inj]
  simp

theorem word_setWord_of_ne {m : Mem} {i j v : ℕ} (h : i ≠ j) :
    word (setWord m i v) j = word m j := by
  rw [word_eq, word_eq, setWord_apply, setWord_apply, if_neg (by omega), if_neg (by omega),
    if_neg (by omega), if_neg (by omega)]

theorem ofNat_eq_ofNat_iff {a b : ℕ} : UInt8.ofNat a = UInt8.ofNat b ↔ a % 256 = b % 256 := by
  rw [ofNat_eq_iff]
  simp

/-- The words that are rewritten hold an entry with 12 bits, and parts of its neighbours; the
cases are the four places of an entry in a group of three words. -/
theorem setEntry_fat12_apply (m : Mem) (e v x : ℕ) :
    setEntry .fat12 m e v x = patch .fat12 e v x (m x) := by
  have hlt : ∀ i, (m i).toNat < 256 := fun i ↦ (m i).toNat_lt
  obtain ⟨k, r, hr, rfl⟩ : ∃ k r, r < 4 ∧ e = 4 * k + r :=
    ⟨e / 4, e % 4, Nat.mod_lt _ (by decide), by omega⟩
  have hmod : (4 * k + r) % 4 = r := by omega
  simp only [setEntry, patch, hmod]
  match r, hr with
  | 0, _ =>
      have h₀ := hlt (6 * k)
      have h₁ := hlt (6 * k + 1)
      simp only [show (4 * k + 0) * 3 / 4 = 3 * k by omega, show (4 * k + 0) / 2 * 3 =
        6 * k by omega,
        setWord_apply, word_eq, show 2 * (3 * k) = 6 * k by omega]
      rw [if_pos (show (4 * k + 0) % 2 = 0 by omega)]
      split_ifs
      · exact ofNat_eq_ofNat_iff.mpr (by omega)
      · subst x
        exact ofNat_eq_ofNat_iff.mpr (by omega)
      · rfl
  | 1, _ =>
      have h₀ := hlt (6 * k)
      have h₁ := hlt (6 * k + 1)
      have h₂ := hlt (6 * k + 2)
      have h₃ := hlt (6 * k + 3)
      simp only [show (4 * k + 1) * 3 / 4 = 3 * k by omega, show (4 * k + 1) / 2 * 3 =
        6 * k by omega,
        word_setWord_of_ne (show 3 * k ≠ 3 * k + 1 by omega), setWord_apply, word_eq,
        show 2 * (3 * k) = 6 * k by omega, show 2 * (3 * k + 1) = 6 * k + 2 by omega, Nat.add_assoc,
        Nat.reduceAdd]
      rw [if_neg (show (4 * k + 1) % 2 ≠ 0 by omega)]
      split_ifs
      all_goals first | omega | skip
      · exact ofNat_eq_ofNat_iff.mpr (by omega)
      · subst x
        exact ofNat_eq_iff.mpr (by omega)
      · subst x
        exact ofNat_eq_iff.mpr (by omega)
      · subst x
        exact ofNat_eq_ofNat_iff.mpr (by omega)
      · rfl
  | 2, _ =>
      have h₂ := hlt (6 * k + 2)
      have h₃ := hlt (6 * k + 3)
      have h₄ := hlt (6 * k + 4)
      have h₅ := hlt (6 * k + 5)
      simp only [show (4 * k + 2) * 3 / 4 = 3 * k + 1 by omega,
        show (4 * k + 2) / 2 * 3 = 6 * k + 3 by omega,
        word_setWord_of_ne (show 3 * k + 1 ≠ 3 * k + 1 + 1 by omega), setWord_apply, word_eq,
        show 2 * (3 * k + 1) = 6 * k + 2 by omega, show 2 * (3 * k + 1 + 1) = 6 * k + 4 by omega,
        Nat.add_assoc, Nat.reduceAdd]
      rw [if_pos (show (4 * k + 2) % 2 = 0 by omega)]
      split_ifs
      all_goals first | omega | skip
      · subst x
        exact ofNat_eq_ofNat_iff.mpr (by omega)
      · subst x
        exact ofNat_eq_iff.mpr (by omega)
      · subst x
        exact ofNat_eq_iff.mpr (by omega)
      · exact ofNat_eq_ofNat_iff.mpr (by omega)
      · rfl
  | 3, _ =>
      have h₄ := hlt (6 * k + 4)
      have h₅ := hlt (6 * k + 5)
      simp only [show (4 * k + 3) * 3 / 4 = 3 * k + 2 by omega,
        show (4 * k + 3) / 2 * 3 = 6 * k + 3 by omega, setWord_apply, word_eq,
        show 2 * (3 * k + 2) = 6 * k + 4 by omega, Nat.add_assoc, Nat.reduceAdd]
      rw [if_neg (show (4 * k + 3) % 2 ≠ 0 by omega)]
      split_ifs
      · subst x
        exact ofNat_eq_ofNat_iff.mpr (by omega)
      · exact ofNat_eq_ofNat_iff.mpr (by omega)
      · rfl

theorem setEntry_apply (fatSize : FatSize) (m : Mem) (e v x : ℕ) :
    setEntry fatSize m e v x = patch fatSize e v x (m x) := by
  cases fatSize with
  | fat12 => exact setEntry_fat12_apply m e v x
  | fat16 => exact Mem.write_leBytes_apply (by decide) m e v x
  | fat32 => exact Mem.write_leBytes_apply (by decide) m e v x

/-! ## Reading back -/

/-- The bytes that hold an entry: the first one, and the one behind the last. -/
def entryStart : FatSize → ℕ → ℕ
  | .fat12, e => e * 3 / 2
  | .fat16, e => 2 * e
  | .fat32, e => 4 * e

/-- The first byte behind an entry. -/
def entryEnd : FatSize → ℕ → ℕ
  | .fat12, e => e * 3 / 2 + 2
  | .fat16, e => 2 * e + 2
  | .fat32, e => 4 * e + 4

theorem getEntry_congr {fatSize : FatSize} {m m' : Mem} {e : ℕ}
    (h : ∀ x, entryStart fatSize e ≤ x → x < entryEnd fatSize e → m x = m' x) :
    getEntry fatSize m e = getEntry fatSize m' e := by
  cases fatSize with
  | fat12 =>
      simp only [entryStart, entryEnd] at h
      simp only [getEntry, h _ le_rfl (by omega), h (e * 3 / 2 + 1) (by omega) (by omega)]
  | fat16 =>
      simp only [entryStart, entryEnd] at h
      exact congrArg leValue (Mem.slice_congr fun i hi ↦ h _ (by omega) (by omega))
  | fat32 =>
      simp only [entryStart, entryEnd] at h
      exact congrArg leValue (Mem.slice_congr fun i hi ↦ h _ (by omega) (by omega))

theorem getEntry_fat12_even (m : Mem) (k : ℕ) :
    getEntry .fat12 m (2 * k) = (m (3 * k)).toNat + 256 * ((m (3 * k + 1)).toNat % 16) := by
  have h := (m (3 * k)).toNat_lt
  simp only [getEntry, show 2 * k * 3 / 2 = 3 * k by omega]
  rw [if_neg (by omega)]
  omega

theorem getEntry_fat12_odd (m : Mem) (k : ℕ) :
    getEntry .fat12 m (2 * k + 1) = (m (3 * k + 1)).toNat / 16 + 16 * (m (3 * k + 2)).toNat := by
  have h := (m (3 * k + 1)).toNat_lt
  have h' := (m (3 * k + 2)).toNat_lt
  simp only [getEntry, show (2 * k + 1) * 3 / 2 = 3 * k + 1 by omega, Nat.add_assoc, Nat.reduceAdd]
  rw [if_pos (by omega)]
  omega

theorem getEntry_setEntry_fat12 (m : Mem) {v : ℕ} (hv : v < 2 ^ 12) (e e' : ℕ) :
    getEntry .fat12 (setEntry .fat12 m e v) e' = if e' = e then v else getEntry .fat12 m e' := by
  have hlt : ∀ i, (m i).toNat < 256 := fun i ↦ (m i).toNat_lt
  obtain ⟨k', rfl | rfl⟩ : ∃ k', e' = 2 * k' ∨ e' = 2 * k' + 1 := ⟨e' / 2, by omega⟩
  · have h₀ := hlt (3 * k')
    have h₁ := hlt (3 * k' + 1)
    simp only [getEntry_fat12_even, setEntry_apply, patch]
    split_ifs
    all_goals try simp only [UInt8.toNat_ofNat']
    all_goals omega
  · have h₁ := hlt (3 * k' + 1)
    have h₂ := hlt (3 * k' + 2)
    simp only [getEntry_fat12_odd, setEntry_apply, patch]
    split_ifs
    all_goals try simp only [UInt8.toNat_ofNat']
    all_goals omega

/-- An entry that was set is read back, and the others are as before. -/
theorem getEntry_setEntry (fatSize : FatSize) (m : Mem) {v : ℕ} (hv : v < 2 ^ fatSize.bits)
    (e e' : ℕ) :
    getEntry fatSize (setEntry fatSize m e v) e' =
      if e' = e then v else getEntry fatSize m e' := by
  cases fatSize with
  | fat12 => exact getEntry_setEntry_fat12 m hv e e'
  | fat16 =>
      have hmod : v % 256 ^ 2 = v := Nat.mod_eq_of_lt hv
      have h := Mem.leValue_slice_write_leBytes 2 m e e' v
      rwa [hmod] at h
  | fat32 =>
      have hmod : v % 256 ^ 4 = v := Nat.mod_eq_of_lt hv
      have h := Mem.leValue_slice_write_leBytes 4 m e e' v
      rwa [hmod] at h

/-! ## Moving the table

Twelve bytes hold a whole number of entries of each width, so that an entry keeps its shape when
the table is moved by a multiple of twelve bytes. -/

/-- The entries in twelve bytes. -/
def FatSize.perDozen : FatSize → ℕ
  | .fat12 => 8
  | .fat16 => 6
  | .fat32 => 3

variable (fatSize : FatSize)

theorem entryStart_add (q o : ℕ) :
    entryStart fatSize (fatSize.perDozen * q + o) = 12 * q + entryStart fatSize o := by
  cases fatSize <;> simp only [entryStart, FatSize.perDozen] <;> omega

theorem entryEnd_add (q o : ℕ) :
    entryEnd fatSize (fatSize.perDozen * q + o) = 12 * q + entryEnd fatSize o := by
  cases fatSize <;> simp only [entryEnd, FatSize.perDozen] <;> omega

theorem entryEnd_le {o t : ℕ} (h : o < fatSize.perDozen * t) : entryEnd fatSize o ≤ 12 * t := by
  cases fatSize <;> simp only [entryEnd, FatSize.perDozen] at h ⊢ <;> omega

theorem getEntry_add (m : Mem) (q o : ℕ) :
    getEntry fatSize m (fatSize.perDozen * q + o) =
    getEntry fatSize (fun x ↦ m (12 * q + x)) o := by
  cases fatSize with
  | fat12 =>
      simp only [getEntry, FatSize.perDozen, show (8 * q + o) * 3 / 2 = 12 * q + o * 3 / 2 by omega,
        show (8 * q + o) % 2 = o % 2 by omega, Nat.add_assoc]
  | fat16 =>
      refine congrArg leValue (Mem.slice_congr fun i _ ↦ ?_)
      rw [FatSize.perDozen, show 2 * (6 * q + o) + i = 12 * q + (2 * o + i) by omega]
  | fat32 =>
      refine congrArg leValue (Mem.slice_congr fun i _ ↦ ?_)
      rw [FatSize.perDozen, show 4 * (3 * q + o) + i = 12 * q + (4 * o + i) by omega]

theorem patch_add (q o v x : ℕ) (old : UInt8) :
    patch fatSize (fatSize.perDozen * q + o) v (12 * q + x) old = patch fatSize o v x old := by
  cases fatSize with
  | fat12 =>
      simp only [patch, FatSize.perDozen, show (8 * q + o) % 2 = o % 2 by omega,
        show (8 * q + o) / 2 * 3 = 12 * q +
        o / 2 * 3 by omega, Nat.add_assoc, Nat.add_left_cancel_iff]
  | fat16 =>
      simp only [patch, FatSize.perDozen, show (12 * q + x) / 2 = 6 * q + x / 2 by omega,
        show (12 * q + x) % 2 = x % 2 by omega, Nat.add_left_cancel_iff]
  | fat32 =>
      simp only [patch, FatSize.perDozen, show (12 * q + x) / 4 = 3 * q + x / 4 by omega,
        show (12 * q + x) % 4 = x % 4 by omega, Nat.add_left_cancel_iff]

theorem patch_of_outside {e v x : ℕ} (old : UInt8)
    (h : x < entryStart fatSize e ∨ entryEnd fatSize e ≤ x) : patch fatSize e v x old = old := by
  cases fatSize with
  | fat12 =>
      simp only [entryStart, entryEnd] at h
      simp only [patch]
      split_ifs
      all_goals first | rfl | omega
  | fat16 =>
      simp only [entryStart, entryEnd] at h
      exact if_neg (by omega)
  | fat32 =>
      simp only [entryStart, entryEnd] at h
      exact if_neg (by omega)

end MiniPi.Fat
