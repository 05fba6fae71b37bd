import MiniPi.Ymodem.Basic
import Mathlib

/-!
# What the receiver reads

An intact copy of a block is read as that block; nothing that is read changes what the receiver
expects.  The length in the first block is read as it was written.
-/

namespace MiniPi.Ymodem

open Xyz

variable {xyz : Xyz} {line data : List UInt8} {j : ℕ}

/-! ## Copies of blocks -/

/-- The bytes of block number `j`, without the check bytes. -/
def blockBytes (j : ℕ) (data : List UInt8) : List UInt8 :=
  (if data.length = 128 then soh else stx) :: UInt8.ofNat j :: (UInt8.ofNat j ^^^ 0xFF) :: data

/-- The check bytes behind a block are right. -/
inductive Checks (data : List UInt8) : Bool → List UInt8 → Prop
  | crc {c₁ c₂ : UInt8} : crc16Ccitt 0 data = c₁.toNat * 256 + c₂.toNat → Checks data true [c₁, c₂]
  | sum {c₁ : UInt8} : c₁.toNat = (data.map UInt8.toNat).sum % 256 → Checks data false [c₁]

/-- An intact copy of block number `j`. -/
structure Intact (crc : Bool) (j : ℕ) (data line : List UInt8) : Prop where
  size : data.length = 128 ∨ data.length = 1024
  bytes : ∃ tail, line = blockBytes j data ++ tail ∧ Checks data crc tail

/-- The parts of the state that reading a header leaves alone. -/
structure Keeps (xyz xyz' : Xyz) : Prop where
  nextBlk : xyz'.nextBlk = xyz.nextBlk
  mode : xyz'.mode = xyz.mode
  crcMode : xyz'.crcMode = xyz.crcMode
  atEof : xyz'.atEof = xyz.atEof
  fileLength : xyz'.fileLength = xyz.fileLength
  readLength : xyz'.readLength = xyz.readLength

theorem Keeps.refl (xyz : Xyz) : Keeps xyz xyz := ⟨rfl, rfl, rfl, rfl, rfl, rfl⟩

theorem Keeps.trans {x y z : Xyz} (h : Keeps x y) (h' : Keeps y z) : Keeps x z :=
  ⟨h'.nextBlk.trans h.nextBlk, h'.mode.trans h.mode, h'.crcMode.trans h.crcMode,
    h'.atEof.trans h.atEof, h'.fileLength.trans h.fileLength, h'.readLength.trans h.readLength⟩

theorem keeps_putc (xyz : Xyz) (c : UInt8) : Keeps xyz (xyz.putc c) :=
  ⟨rfl, rfl, rfl, rfl, rfl, rfl⟩

theorem keeps_sendAck (xyz : Xyz) : Keeps xyz xyz.sendAck := by
  unfold Xyz.sendAck
  split
  · exact ⟨rfl, rfl, rfl, rfl, rfl, rfl⟩
  · exact .refl xyz

theorem keeps_readBlock (xyz : Xyz) (c : UInt8) (line : List UInt8) :
    Keeps xyz (xyz.readBlock c line).2 := by
  rcases line with _ | ⟨blk, _ | ⟨cblk, line⟩⟩
  · exact .refl xyz
  · exact ⟨rfl, rfl, rfl, rfl, rfl, rfl⟩
  · unfold Xyz.readBlock
    dsimp only
    cases line.drop (if c = soh then 128 else 1024) with
    | nil => exact ⟨rfl, rfl, rfl, rfl, rfl, rfl⟩
    | cons crc1 line =>
      dsimp only
      split
      · split
        · exact ⟨rfl, rfl, rfl, rfl, rfl, rfl⟩
        · exact ⟨rfl, rfl, rfl, rfl, rfl, rfl⟩
      · exact ⟨rfl, rfl, rfl, rfl, rfl, rfl⟩

theorem keeps_getHdr (xyz : Xyz) (line : List UInt8) : Keeps xyz (xyz.getHdr line).2 := by
  unfold Xyz.getHdr
  split
  · exact keeps_sendAck xyz
  · exact keeps_sendAck xyz
  · exact (keeps_sendAck xyz).trans (keeps_putc _ _)
  · exact (keeps_sendAck xyz).trans (keeps_readBlock _ _ _)

/-- A block was read into the packet. -/
structure Holds (xyz : Xyz) (j : ℕ) (data : List UInt8) : Prop where
  blk : xyz.blk = UInt8.ofNat j
  len : xyz.len = data.length
  bufp : xyz.bufp = 0
  pkt : ∃ rest, xyz.pkt = data ++ rest

theorem xor_complement (b : UInt8) : b ^^^ (b ^^^ 0xFF) = 0xFF := by
  rw [← UInt8.xor_assoc, UInt8.xor_self, UInt8.zero_xor]

/-- A block with right check bytes is valid. -/
theorem validate_eq_zero (h : Holds xyz j data) (hcblk : xyz.cblk = UInt8.ofNat j ^^^ 0xFF)
    (hcheck : if xyz.crcMode then crc16Ccitt 0 data = xyz.crc1.toNat * 256 + xyz.crc2.toNat
      else xyz.crc1.toNat = (data.map UInt8.toNat).sum % 256) : xyz.validate = 0 := by
  obtain ⟨hblk, hlen, -, rest, hpkt⟩ := h
  have hdata : xyz.pkt.take xyz.len.toNat = data := by
    rw [hpkt, hlen, Int.toNat_natCast, List.take_left]
  have hframe : ¬ xyz.blk ^^^ xyz.cblk ≠ 0xFF := by
    rw [hblk, hcblk, xor_complement]
    exact fun h ↦ h rfl
  unfold Xyz.validate
  rw [hdata, if_neg hframe]
  cases hcrc : xyz.crcMode with
  | true =>
    rw [hcrc, if_pos rfl] at hcheck
    rw [if_pos rfl, if_neg (not_not.2 hcheck)]
  | false =>
    rw [hcrc, if_neg Bool.false_ne_true] at hcheck
    rw [if_neg Bool.false_ne_true, if_neg (not_not.2 hcheck)]

theorem getHdr_of_intact (h : Intact xyz.crcMode j data line) :
    (xyz.getHdr line).1 = 0 ∧ Holds (xyz.getHdr line).2 j data := by
  obtain ⟨hsize, tail, rfl, hchecks⟩ := h
  have hcrc : xyz.sendAck.crcMode = xyz.crcMode := (keeps_sendAck xyz).crcMode
  have hlen : (if (if data.length = 128 then soh else stx) = soh then 128 else 1024) =
      data.length := by
    obtain hsize | hsize := hsize
    · rw [hsize]
      rfl
    · rw [hsize]
      rfl
  have hfound : Xyz.findHeader 0 true (blockBytes j data ++ tail) =
      .found (if data.length = 128 then soh else stx)
        (UInt8.ofNat j :: (UInt8.ofNat j ^^^ 0xFF) :: (data ++ tail)) := by
    rw [blockBytes, List.cons_append, Xyz.findHeader, if_pos]
    · rfl
    · split
      · exact .inl rfl
      · exact .inr rfl
  unfold Xyz.getHdr
  rw [hfound]
  unfold Xyz.readBlock
  dsimp only
  rw [hlen, List.drop_left, List.take_left, hcrc]
  cases hmode : xyz.crcMode with
  | true =>
    rw [hmode] at hchecks
    obtain hcheck | _ := hchecks
    dsimp only
    rw [if_pos rfl]
    refine ⟨@validate_eq_zero _ data j ⟨rfl, rfl, rfl, _, rfl⟩ rfl ?_, rfl, rfl, rfl, _, rfl⟩
    rw [if_pos rfl]
    exact hcheck
  | false =>
    rw [hmode] at hchecks
    obtain _ | hcheck := hchecks
    dsimp only
    rw [if_neg Bool.false_ne_true]
    refine ⟨@validate_eq_zero _ data j ⟨rfl, rfl, rfl, _, rfl⟩ rfl ?_, rfl, rfl, rfl, _, rfl⟩
    rw [if_neg Bool.false_ne_true]
    exact hcheck

/-- The sender's `EOT` is read as the end of the file. -/
theorem getHdr_of_eot (xyz : Xyz) : (xyz.getHdr [eot]).1 = eof := rfl

theorem getHdr_nil (xyz : Xyz) : (xyz.getHdr []).1 = timeout := rfl

/-! ## The length in the first block -/

/-- A number in decimal digits. -/
def decimal (n : ℕ) : List UInt8 := (Nat.digits 10 n).reverse.map fun d ↦ UInt8.ofNat (48 + d)

theorem fromHex_digit {d : ℕ} (hd : d < 10) : fromHex (UInt8.ofNat (48 + d)) = some d := by
  interval_cases d <;> rfl

theorem foldl_digits_le (ds : List ℕ) (r : ℕ) : r ≤ ds.foldl (fun a d ↦ a * 10 + d) r := by
  induction ds generalizing r with
  | nil => exact le_rfl
  | cons d ds ih =>
    have := ih (r * 10 + d)
    rw [List.foldl_cons]
    omega

/-- Digits are read up to the end of the number. -/
theorem parseDigits_eq {ds : List ℕ} {r : ℕ} {c : UInt8} {rest : List UInt8}
    (hds : ∀ d ∈ ds, d < 10) (hc : c = 0 ∨ c = 32)
    (hfit : ds.foldl (fun a d ↦ a * 10 + d) r < 2 ^ 32) :
    parseDigits 10 r (ds.map (fun d ↦ UInt8.ofNat (48 + d)) ++ c :: rest) =
      some (some (ds.foldl (fun a d ↦ a * 10 + d) r)) := by
  induction ds generalizing r with
  | nil =>
    obtain rfl | rfl := hc
    · rfl
    · rfl
  | cons d ds ih =>
    have hd := hds d List.mem_cons_self
    have hne : UInt8.ofNat (48 + d) ≠ 0 := by
      interval_cases d <;> decide
    have hle := foldl_digits_le ds (r * 10 + d)
    rw [List.foldl_cons] at hfit
    rw [List.map_cons, List.cons_append, parseDigits, if_neg hne, fromHex_digit hd]
    dsimp only
    rw [if_pos hd, Nat.mod_eq_of_lt (hle.trans_lt hfit),
      ih (fun d hd ↦ hds d (List.mem_cons_of_mem _ hd)) hfit, List.foldl_cons]

theorem foldl_digits (n : ℕ) : (Nat.digits 10 n).reverse.foldl (fun a d ↦ a * 10 + d) 0 = n := by
  rw [List.foldl_reverse]
  have hfold := Nat.ofDigits_eq_foldr 10 (Nat.digits 10 n)
  rw [Nat.ofDigits_digits] at hfold
  have hstep : (fun d a ↦ a * 10 + d : ℕ → ℕ → ℕ) = fun d a ↦ (d : ℕ) + 10 * a := by
    funext d a
    rw [Nat.add_comm, Nat.mul_comm]
  rw [hstep]
  exact hfold.symm

theorem parseNum_decimal {n : ℕ} {c : UInt8} {rest : List UInt8} (hn : 0 < n) (hfit : n < 2 ^ 32)
    (hc : c = 0 ∨ c = 32) : parseNum (decimal n ++ c :: rest) = some (some n) := by
  have hds (d : ℕ) (hd : d ∈ (Nat.digits 10 n).reverse) : d < 10 :=
    Nat.digits_lt_base (by decide) (List.mem_reverse.1 hd)
  have hvalue := foldl_digits n
  have hdigits : parseDigits 10 0 (decimal n ++ c :: rest) = some (some n) := by
    have hparse := @parseDigits_eq _ 0 c rest hds hc (hvalue.symm ▸ hfit)
    rwa [hvalue] at hparse
  -- the number does not begin with a blank or a zero
  have hne : Nat.digits 10 n ≠ [] := Nat.digits_ne_nil_iff_ne_zero.2 hn.ne'
  have hlast : (Nat.digits 10 n).getLast hne ≠ 0 := Nat.getLast_digit_ne_zero 10 hn.ne'
  have hlt : (Nat.digits 10 n).getLast hne < 10 :=
    Nat.digits_lt_base (by decide) (List.getLast_mem hne)
  obtain ⟨tail, htail⟩ : ∃ tail, decimal n =
      UInt8.ofNat (48 + (Nat.digits 10 n).getLast hne) :: tail := by
    have hrev : (Nat.digits 10 n).reverse =
        (Nat.digits 10 n).getLast hne :: (Nat.digits 10 n).dropLast.reverse := by
      conv_lhs => rw [← List.dropLast_append_getLast hne]
      rw [List.reverse_append, List.reverse_singleton, List.singleton_append]
    unfold decimal
    rw [hrev, List.map_cons]
    exact ⟨_, rfl⟩
  rw [htail] at hdigits ⊢
  generalize (Nat.digits 10 n).getLast hne = d at hlast hlt hdigits
  have hblank : UInt8.ofNat (48 + d) ≠ 32 := by
    interval_cases d <;> decide
  have hzero : UInt8.ofNat (48 + d) ≠ 48 := by
    interval_cases d
    · exact absurd rfl hlast
    all_goals decide
  rw [List.cons_append] at hdigits ⊢
  unfold parseNum
  rw [List.dropWhile_cons_of_neg (by simpa using hblank)]
  split
  · rename_i heq
    exact absurd (List.cons.inj heq).1 hzero
  · exact hdigits

end MiniPi.Ymodem
