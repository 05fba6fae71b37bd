import MiniPi.Ext4.Basic
import Mathlib

/-!
# Block bitmaps

The bit of block `k` of a group is bit `k % 8` of byte `k / 8` of the bitmap of the group.  The code
has two ways to find a place for a new block: a search for the first clear bit, and a test of one
bit.
-/

namespace MiniPi.Ext4

open Lib

/-- `*ptr & (1 << i)`. -/
def testBit (b : UInt8) (i : ℕ) : Bool := b.toNat.testBit i

/-- `*ptr | (1 << i)`. -/
def setBit (b : UInt8) (i : ℕ) : UInt8 := UInt8.ofNat (b.toNat ||| 2 ^ i)

/-- `_get_new_blk_no`, from a byte of the bitmap on: the number of the block and the bitmap with its
bit. -/
def getNewBlkNo (blksz : ℕ) : List UInt8 → ℕ → Option (ℕ × List UInt8)
  | [], _ => none
  | b :: bs, count =>
      if b = 255 then (getNewBlkNo blksz bs (count + 8)).map fun (n, bs) ↦ (n, b :: bs)
      else
        let count := if blksz = 1024 then count + 1 else count
        ((List.range 8).find? fun i ↦ !testBit b i).map fun i ↦ (count + i, setBit b i :: bs)

/-- What `ext4fs_set_block_bmap` does: the index is outside the bitmap, the bit is set already, or
it is set now. -/
inductive SetBlock
  | outOfRange
  | taken
  | done (bitmap : List UInt8)

/-- The test and the update of one bit. -/
def setAt (buffer : List UInt8) (i : ℤ) (bit : ℕ) : SetBlock :=
  if i < 0 then .outOfRange
  else
    match buffer[i.toNat]? with
    | none => .outOfRange
    | some b => if testBit b bit then .taken else .done (buffer.set i.toNat (setBit b bit))

def ext4fsSetBlockBmap (blksz : ℕ) (blockno : ℤ) (buffer : List UInt8) (index : ℕ) : SetBlock :=
  let i := blockno.tdiv 8 - index * blksz
  let remainder := blockno.tmod 8
  if blksz ≠ 1024 then setAt buffer i remainder.toNat
  else if remainder = 0 then setAt buffer (i - 1) 7
  else setAt buffer i (remainder.toNat - 1)

/-! ## Bits -/

/-- The bit of block `k`. -/
def bit (bitmap : List UInt8) (k : ℕ) : Bool := testBit (bitmap.getD (k / 8) 0) (k % 8)

theorem testBit_setBit {b : UInt8} {i j : ℕ} (hj : j < 8) :
    testBit (setBit b i) j = (testBit b j || decide (i = j)) := by
  have hmod : (UInt8.ofNat (b.toNat ||| 2 ^ i)).toNat = (b.toNat ||| 2 ^ i) % 2 ^ 8 :=
    UInt8.toNat_ofNat'
  rw [testBit, setBit, hmod, Nat.testBit_mod_two_pow, decide_eq_true hj, Bool.true_and,
    Nat.testBit_or, Nat.testBit_two_pow, testBit]

theorem bit_set {bitmap : List UInt8} {b : UInt8} {k j : ℕ} (hb : bitmap[k / 8]? = some b) :
    bit (bitmap.set (k / 8) (setBit b (k % 8))) j = (bit bitmap j || decide (j = k)) := by
  obtain ⟨hlt, rfl⟩ := List.getElem?_eq_some_iff.mp hb
  unfold bit
  by_cases hbyte : j / 8 = k / 8
  · have hsame : decide (k % 8 = j % 8) = decide (j = k) := by
      apply decide_eq_decide.mpr
      omega
    rw [hbyte, List.getD_eq_getElem?_getD, List.getElem?_set_self hlt, Option.getD_some,
      testBit_setBit (Nat.mod_lt _ (by decide)), hsame, List.getD_eq_getElem?_getD,
      List.getElem?_eq_getElem hlt, Option.getD_some]
  · have hne : decide (j = k) = false := by
      apply decide_eq_false
      rintro rfl
      exact hbyte rfl
    rw [List.getD_eq_getElem?_getD, List.getElem?_set_ne (Ne.symm hbyte),
      ← List.getD_eq_getElem?_getD, hne, Bool.or_false]

theorem bit_replicate (n k : ℕ) : bit (List.replicate n 0) k = false := by
  have hzero : (List.replicate n (0 : UInt8)).getD (k / 8) 0 = 0 := by
    rw [List.getD_eq_getElem?_getD, List.getElem?_replicate]
    split_ifs <;> rfl
  rw [bit, hzero]
  exact Nat.zero_testBit _

theorem testBit_255 {i : ℕ} (hi : i < 8) : testBit 255 i = true := by
  interval_cases i <;> decide

theorem exists_clear {b : UInt8} (hb : b ≠ 255) : ∃ i < 8, testBit b i = false := by
  by_contra hno
  push Not at hno
  apply hb
  apply UInt8.toNat_inj.mp
  apply Nat.eq_of_testBit_eq
  intro i
  obtain hi | hi := Nat.lt_or_ge i 8
  · have hset : testBit b i = true := Bool.not_eq_false _ ▸ hno i hi
    exact hset.trans (testBit_255 hi).symm
  · have hsmall (c : UInt8) : c.toNat.testBit i = false :=
      Nat.testBit_lt_two_pow (c.toNat_lt.trans_le (Nat.pow_le_pow_right Nat.two_pos hi))
    rw [hsmall, hsmall]

/-! ## The search -/

theorem bit_cons_lt (b : UInt8) (bs : List UInt8) {k : ℕ} (hk : k < 8) :
    bit (b :: bs) k = testBit b k := by
  rw [bit, Nat.div_eq_of_lt hk, Nat.mod_eq_of_lt hk]
  rfl

theorem bit_cons_add (b : UInt8) (bs : List UInt8) (k : ℕ) : bit (b :: bs) (k + 8) = bit bs k := by
  have hdiv : (k + 8) / 8 = k / 8 + 1 := by omega
  have hmod : (k + 8) % 8 = k % 8 := by omega
  rw [bit, hdiv, hmod]
  rfl

/-- The search finds the first clear bit. -/
theorem getNewBlkNo_spec (blksz : ℕ) (bitmap : List UInt8) (count : ℕ) {k : ℕ}
    (hk : k < 8 * bitmap.length) (hclear : bit bitmap k = false)
    (hfirst : ∀ j < k, bit bitmap j = true) :
    ∃ b, bitmap[k / 8]? = some b ∧ getNewBlkNo blksz bitmap count =
      some (count + k + (if blksz = 1024 then 1 else 0),
      bitmap.set (k / 8) (setBit b (k % 8))) := by
  induction bitmap generalizing count k with
  | nil => exact absurd hk (Nat.not_lt_zero k)
  | cons b bs ih =>
      by_cases hfull : b = 255
      · have hk8 : 8 ≤ k := by
          by_contra hlt
          rw [bit_cons_lt b bs (Nat.not_le.mp hlt), hfull,
            testBit_255 (Nat.not_le.mp hlt)] at hclear
          exact absurd hclear (by decide)
        obtain ⟨k, rfl⟩ := Nat.exists_eq_add_of_le' hk8
        rw [bit_cons_add] at hclear
        have hrest : ∀ j < k, bit bs j = true := by
          intro j hj
          rw [← bit_cons_add b]
          exact hfirst (j + 8) (by omega)
        obtain ⟨c, hget, hsearch⟩ :=
          ih (count + 8) (by rw [List.length_cons] at hk; omega) hclear hrest
        have hdiv : (k + 8) / 8 = k / 8 + 1 := by omega
        have hmod : (k + 8) % 8 = k % 8 := by omega
        refine ⟨c, by rw [hdiv]; exact hget, ?_⟩
        rw [getNewBlkNo, if_pos hfull, hsearch, hdiv, hmod, Option.map_some, List.set_cons_succ]
        have hcount : count + 8 + k = count + (k + 8) := by omega
        rw [hcount]
      · obtain ⟨i, hi, hzero⟩ := exists_clear hfull
        have hk8 : k < 8 := by
          by_contra hge
          have hset := hfirst i (by omega)
          rw [bit_cons_lt b bs hi, hzero] at hset
          exact absurd hset (by decide)
        have hfind : (List.range 8).find? (fun i ↦ !testBit b i) = some k := by
          rw [List.find?_range_eq_some]
          refine ⟨?_, List.mem_range.mpr hk8, ?_⟩
          · rw [← bit_cons_lt b bs hk8, hclear]
            rfl
          · intro j hj
            rw [← bit_cons_lt b bs (by omega), hfirst j hj]
            rfl
        rw [Nat.div_eq_of_lt hk8, Nat.mod_eq_of_lt hk8]
        refine ⟨b, rfl, ?_⟩
        rw [getNewBlkNo, if_neg hfull, hfind]
        simp only [Option.map_some, List.set_cons_zero, Option.some.injEq, Prod.mk.injEq, and_true]
        split_ifs <;> omega

/-- A block of a group is looked up at its place. -/
theorem ext4fsSetBlockBmap_eq {blksz index blockno k : ℕ} (buffer : List UInt8)
    (hblock : blockno = (if blksz = 1024 then 1 else 0) + index * (8 * blksz) + k) :
    ext4fsSetBlockBmap blksz blockno buffer index = setAt buffer (k / 8 : ℕ) (k % 8) := by
  have hmul : index * (8 * blksz) = 8 * (index * blksz) := by ring
  rw [hmul] at hblock
  have hcast : ((index : ℤ) * blksz) = ((index * blksz : ℕ) : ℤ) := by push_cast; rfl
  have hdiv : ((blockno : ℤ).tdiv 8) = ((blockno / 8 : ℕ) : ℤ) := by
    rw [Int.tdiv_eq_ediv_of_nonneg (by omega)]
    omega
  have hmod : ((blockno : ℤ).tmod 8) = ((blockno % 8 : ℕ) : ℤ) := by
    rw [Int.tmod_eq_emod_of_nonneg (by omega)]
    omega
  unfold ext4fsSetBlockBmap
  dsimp only
  rw [hdiv, hmod, hcast]
  generalize index * blksz = m at *
  by_cases hsize : blksz = 1024
  · rw [if_neg (not_not.mpr hsize)]
    rw [if_pos hsize] at hblock
    split_ifs with hrem
    · have hi : ((blockno / 8 : ℕ) : ℤ) - (m : ℕ) - 1 = (k / 8 : ℕ) := by omega
      have hb : k % 8 = 7 := by omega
      rw [hi, hb]
    · have hi : ((blockno / 8 : ℕ) : ℤ) - (m : ℕ) = (k / 8 : ℕ) := by omega
      have hb : ((blockno % 8 : ℕ) : ℤ).toNat - 1 = k % 8 := by omega
      rw [hi, hb]
  · rw [if_pos hsize]
    rw [if_neg hsize] at hblock
    have hi : ((blockno / 8 : ℕ) : ℤ) - (m : ℕ) = (k / 8 : ℕ) := by omega
    have hb : ((blockno % 8 : ℕ) : ℤ).toNat = k % 8 := by omega
    rw [hi, hb]

theorem setAt_of_lt {buffer : List UInt8} {k : ℕ} (hk : k < 8 * buffer.length) :
    ∃ b, buffer[k / 8]? = some b ∧ setAt buffer (k / 8 : ℕ) (k % 8) =
      if bit buffer k then .taken else .done (buffer.set (k / 8) (setBit b (k % 8))) := by
  have hlt : k / 8 < buffer.length := by omega
  refine ⟨buffer[k / 8], List.getElem?_eq_getElem hlt, ?_⟩
  have hbit : bit buffer k = testBit buffer[k / 8] (k % 8) := by
    rw [bit, List.getD_eq_getElem?_getD, List.getElem?_eq_getElem hlt, Option.getD_some]
  rw [setAt, if_neg (by omega), Int.toNat_natCast, List.getElem?_eq_getElem hlt]
  dsimp only
  rw [hbit]

end MiniPi.Ext4
