import Mathlib

/-!
# Digits

The digit generators of `number`: `put_dec` for base 10, and the loop with shifts for the bases 8
and 16.  They store the lowest digit first.
-/

namespace MiniPi.Printf

/-- A digit as a character. -/
def digit (d : ℕ) : UInt8 := UInt8.ofNat (d + 48)

/-! ## Base 10 -/

/-- `put_dec_trunc`: the one to five digits of a number below 100000. -/
def putDecTrunc (q : ℕ) : List UInt8 :=
  let d1 := q >>> 4 &&& 0xf
  let d2 := q >>> 8 &&& 0xf
  let d3 := q >>> 12
  let d0 := 6 * (d3 + d2 + d1) + (q &&& 0xf)
  let q := (d0 * 0xcd) >>> 11
  let first := digit (d0 - 10 * q)
  let d1 := q + 9 * d3 + 5 * d2 + d1
  if d1 ≠ 0 then
    let q := (d1 * 0xcd) >>> 11
    let second := digit (d1 - 10 * q)
    let d2 := q + 2 * d2
    if d2 ≠ 0 ∨ d3 ≠ 0 then
      let q := (d2 * 0xd) >>> 7
      let third := digit (d2 - 10 * q)
      let d3 := q + 4 * d3
      if d3 ≠ 0 then
        let q := (d3 * 0xcd) >>> 11
        let fourth := digit (d3 - 10 * q)
        if q ≠ 0 then [first, second, third, fourth, digit q] else [first, second, third, fourth]
      else [first, second, third]
    else [first, second]
  else [first]

/-- `put_dec_full`: always five digits. -/
def putDecFull (q : ℕ) : List UInt8 :=
  let d1 := q >>> 4 &&& 0xf
  let d2 := q >>> 8 &&& 0xf
  let d3 := q >>> 12
  let d0 := 6 * (d3 + d2 + d1) + (q &&& 0xf)
  let q := (d0 * 0xcd) >>> 11
  let first := digit (d0 - 10 * q)
  let d1 := q + 9 * d3 + 5 * d2 + d1
  let q := (d1 * 0xcd) >>> 11
  let second := digit (d1 - 10 * q)
  let d2 := q + 2 * d2
  let q := (d2 * 0xd) >>> 7
  let third := digit (d2 - 10 * q)
  let d3 := q + 4 * d3
  let q := (d3 * 0xcd) >>> 11
  [first, second, third, digit (d3 - 10 * q), digit q]

def putDec (num : ℕ) : List UInt8 :=
  if num < 100000 then putDecTrunc num
  else putDecFull (num % 100000) ++ putDec (num / 100000)
termination_by num
decreasing_by omega

/-! ### The approximate divisions -/

theorem mul_cd_shiftRight {n : ℕ} (h : n ≤ 1028) : (n * 0xcd) >>> 11 = n / 10 := by
  rw [Nat.shiftRight_eq_div_pow]
  omega

theorem mul_d_shiftRight {n : ℕ} (h : n ≤ 68) : (n * 0xd) >>> 7 = n / 10 := by
  rw [Nat.shiftRight_eq_div_pow]
  omega

/-- The nibbles `d1`, `d2` and `d3` of a number, and its lowest nibble. -/
theorem exists_nibbles {q : ℕ} (h : q < 100000) :
    ∃ d0 d1 d2 d3, d0 < 16 ∧ d1 < 16 ∧ d2 < 16 ∧ d3 < 25 ∧ q = 4096 * d3 + 256 * d2 + 16 * d1 + d0 ∧
      q >>> 4 &&& 0xf = d1 ∧ q >>> 8 &&& 0xf = d2 ∧ q >>> 12 = d3 ∧ q &&& 0xf = d0 := by
  have hand (n : ℕ) : n &&& 0xf = n % 16 := Nat.and_two_pow_sub_one_eq_mod n 4
  simp only [hand, Nat.shiftRight_eq_div_pow]
  refine ⟨_, _, _, _, ?_, ?_, ?_, ?_, ?_, rfl, rfl, rfl, rfl⟩ <;> omega

theorem digits_eq {q : ℕ} {l : List ℕ} (hlt : ∀ d ∈ l, d < 10)
    (hlast : ∀ h : l ≠ [], l.getLast h ≠ 0) (hq : Nat.ofDigits 10 l = q) : Nat.digits 10 q = l := by
  rw [← hq]
  exact Nat.digits_ofDigits 10 (by decide) l hlt hlast

/-- The carries of the weights of the nibbles, and the digits that they leave. -/
theorem exists_carries {d0 d1 d2 d3 : ℕ} (h0 : d0 < 16) (h1 : d1 < 16) (h2 : d2 < 16)
    (h3 : d3 < 25) :
    ∃ c1 c2 c3 c4, ((6 * (d3 + d2 + d1) + d0) * 0xcd) >>> 11 = c1 ∧
      ((c1 + 9 * d3 + 5 * d2 + d1) * 0xcd) >>> 11 = c2 ∧ ((c2 + 2 * d2) * 0xd) >>> 7 = c3 ∧
      ((c3 + 4 * d3) * 0xcd) >>> 11 = c4 ∧ c1 = (6 * (d3 + d2 + d1) + d0) / 10 ∧
      c2 = (c1 + 9 * d3 + 5 * d2 + d1) / 10 ∧ c3 = (c2 + 2 * d2) / 10 ∧
      c4 = (c3 + 4 * d3) / 10 := by
  refine ⟨_, _, _, _, rfl, rfl, rfl, rfl, ?_⟩
  have e1 : ((6 * (d3 + d2 + d1) + d0) * 0xcd) >>> 11 = (6 * (d3 + d2 + d1) + d0) / 10 :=
    mul_cd_shiftRight (by omega)
  rw [e1]
  obtain ⟨c1, hc1⟩ : ∃ c, (6 * (d3 + d2 + d1) + d0) / 10 = c := ⟨_, rfl⟩
  have e2 : ((c1 + 9 * d3 + 5 * d2 + d1) * 0xcd) >>> 11 = (c1 + 9 * d3 + 5 * d2 + d1) / 10 :=
    mul_cd_shiftRight (by omega)
  rw [hc1, e2]
  obtain ⟨c2, hc2⟩ : ∃ c, (c1 + 9 * d3 + 5 * d2 + d1) / 10 = c := ⟨_, rfl⟩
  have e3 : ((c2 + 2 * d2) * 0xd) >>> 7 = (c2 + 2 * d2) / 10 := mul_d_shiftRight (by omega)
  rw [hc2, e3]
  obtain ⟨c3, hc3⟩ : ∃ c, (c2 + 2 * d2) / 10 = c := ⟨_, rfl⟩
  rw [hc3]
  exact ⟨rfl, rfl, rfl, mul_cd_shiftRight (by omega)⟩

/-- The digits that the carries leave make up the number. -/
theorem sum_of_carries {q d0 d1 d2 d3 c1 c2 c3 c4 : ℕ} (h : q < 100000)
    (hq : q = 4096 * d3 + 256 * d2 + 16 * d1 + d0) (hc1 : c1 = (6 * (d3 + d2 + d1) + d0) / 10)
    (hc2 : c2 = (c1 + 9 * d3 + 5 * d2 + d1) / 10) (hc3 : c3 = (c2 + 2 * d2) / 10)
    (hc4 : c4 = (c3 + 4 * d3) / 10) :
    ∃ r0 r1 r2 r3, 6 * (d3 + d2 + d1) + d0 - 10 * c1 = r0 ∧
      c1 + 9 * d3 + 5 * d2 + d1 - 10 * c2 = r1 ∧
      c2 + 2 * d2 - 10 * c3 = r2 ∧ c3 + 4 * d3 - 10 * c4 = r3 ∧
      (r0 < 10 ∧ r1 < 10 ∧ r2 < 10 ∧ r3 < 10 ∧ c4 < 10) ∧
      q = r0 + 10 * (r1 + 10 * (r2 + 10 * (r3 + 10 * c4))) := by
  refine ⟨_, _, _, _, rfl, rfl, rfl, rfl, ?_, ?_⟩ <;> omega

theorem digits_of_sum {q r0 r1 r2 r3 r4 : ℕ} (hlt : r0 < 10 ∧ r1 < 10 ∧ r2 < 10 ∧ r3 < 10 ∧ r4 < 10)
    (hsum : q = r0 + 10 * (r1 + 10 * (r2 + 10 * (r3 + 10 * r4)))) :
    q % 10 = r0 ∧ q / 10 % 10 = r1 ∧ q / 100 % 10 = r2 ∧ q / 1000 % 10 = r3 ∧ q / 10000 = r4 := by
  omega

theorem putDecFull_eq {q : ℕ} (h : q < 100000) :
    putDecFull q = [q % 10, q / 10 % 10, q / 100 % 10, q / 1000 % 10, q / 10000].map digit := by
  obtain ⟨d0, d1, d2, d3, h0, h1, h2, h3, hq, e1, e2, e3, e0⟩ := exists_nibbles h
  obtain ⟨c1, c2, c3, c4, s1, s2, s3, s4, hc1, hc2, hc3, hc4⟩ := exists_carries h0 h1 h2 h3
  obtain ⟨r0, r1, r2, r3, hr0, hr1, hr2, hr3, hlt, hsum⟩ := sum_of_carries h hq hc1 hc2 hc3 hc4
  obtain ⟨t0, t1, t2, t3, t4⟩ := digits_of_sum hlt hsum
  unfold putDecFull
  simp only [e0, e1, e2, e3, s1, s2, s3, s4, hr0, hr1, hr2, hr3, t0, t1, t2, t3, t4, List.map_cons,
    List.map_nil]

/-- Which carries and digits are zero. -/
theorem leading_digits {d0 d1 d2 d3 c1 c2 c3 c4 r0 r1 r2 r3 q : ℕ}
    (hc2 : c2 = (c1 + 9 * d3 + 5 * d2 + d1) / 10) (hc3 : c3 = (c2 + 2 * d2) / 10)
    (hc4 : c4 = (c3 + 4 * d3) / 10) (hr1 : c1 + 9 * d3 + 5 * d2 + d1 - 10 * c2 = r1)
    (hr2 : c2 + 2 * d2 - 10 * c3 = r2) (hr3 : c3 + 4 * d3 - 10 * c4 = r3)
    (hq : q = 4096 * d3 + 256 * d2 + 16 * d1 + d0) (hc1 : c1 = (6 * (d3 + d2 + d1) + d0) / 10)
    (hr0 : 6 * (d3 + d2 + d1) + d0 - 10 * c1 = r0) (hpos : q ≠ 0) :
    (c1 + 9 * d3 + 5 * d2 + d1 = 0 → r0 ≠ 0 ∧ r1 = 0 ∧ r2 = 0 ∧ r3 = 0 ∧ c4 = 0) ∧
      (c1 + 9 * d3 + 5 * d2 + d1 ≠ 0 → ¬ (c2 + 2 * d2 ≠ 0 ∨ d3 ≠ 0) →
        r1 ≠ 0 ∧ r2 = 0 ∧ r3 = 0 ∧ c4 = 0) ∧
      (c2 + 2 * d2 ≠ 0 ∨ d3 ≠ 0 → c3 + 4 * d3 = 0 → r2 ≠ 0 ∧ r3 = 0 ∧ c4 = 0) ∧
      (c3 + 4 * d3 ≠ 0 → c4 = 0 → r3 ≠ 0) := by
  refine ⟨?_, ?_, ?_, ?_⟩ <;> omega

theorem putDecTrunc_eq {q : ℕ} (h : q < 100000) (hpos : q ≠ 0) :
    putDecTrunc q = (Nat.digits 10 q).map digit := by
  obtain ⟨d0, d1, d2, d3, h0, h1, h2, h3, hq, e1, e2, e3, e0⟩ := exists_nibbles h
  obtain ⟨c1, c2, c3, c4, s1, s2, s3, s4, hc1, hc2, hc3, hc4⟩ := exists_carries h0 h1 h2 h3
  obtain ⟨r0, r1, r2, r3, hr0, hr1, hr2, hr3, hlt, hsum⟩ := sum_of_carries h hq hc1 hc2 hc3 hc4
  obtain ⟨hone, htwo, hthree, hfour⟩ := leading_digits hc2 hc3 hc4 hr1 hr2 hr3 hq hc1 hr0 hpos
  unfold putDecTrunc
  simp only [e0, e1, e2, e3, s1, s2, s3, s4, hr0, hr1, hr2, hr3]
  clear e0 e1 e2 e3 s1 s2 s3 s4
  split_ifs with htens hhundreds hthousands hlast
  · rw [@digits_eq q [r0, r1, r2, r3, c4] (by simpa using hlt) (by simpa using hlast)
      (by simpa [Nat.ofDigits] using hsum.symm)]
    rfl
  · obtain rfl := not_not.mp hlast
    have hr := hfour hthousands rfl
    rw [@digits_eq q [r0, r1, r2, r3] (by simpa using ⟨hlt.1, hlt.2.1, hlt.2.2.1, hlt.2.2.2.1⟩)
      (by simpa using hr) (by simpa [Nat.ofDigits] using hsum.symm)]
    rfl
  · obtain ⟨hr, rfl, rfl⟩ := hthree hhundreds (not_not.mp hthousands)
    rw [@digits_eq q [r0, r1, r2] (by simpa using ⟨hlt.1, hlt.2.1, hlt.2.2.1⟩) (by simpa using hr)
      (by simpa [Nat.ofDigits] using hsum.symm)]
    rfl
  · obtain ⟨hr, rfl, rfl, rfl⟩ := htwo htens hhundreds
    rw [@digits_eq q [r0, r1] (by simpa using ⟨hlt.1, hlt.2.1⟩) (by simpa using hr)
      (by simpa [Nat.ofDigits] using hsum.symm)]
    rfl
  · obtain ⟨hr, rfl, rfl, rfl, rfl⟩ := hone (not_not.mp htens)
    rw [@digits_eq q [r0] (by simpa using hlt.1) (by simpa using hr)
      (by simpa [Nat.ofDigits] using hsum.symm)]
    rfl

/-- The decimal digits of a number, the lowest one first. -/
theorem putDec_eq {num : ℕ} (hpos : num ≠ 0) : putDec num = (Nat.digits 10 num).map digit := by
  induction num using Nat.strong_induction_on with
  | _ num ih =>
      rw [putDec]
      split_ifs with h
      · exact putDecTrunc_eq h hpos
      · have hrest : num / 100000 ≠ 0 := by omega
        rw [ih (num / 100000) (by omega) hrest, putDecFull_eq (Nat.mod_lt _ (by decide)),
          ← List.map_append]
        congr 1
        symm
        refine digits_eq ?_ ?_ ?_
        · intro d hd
          rcases List.mem_append.mp hd with hd | hd
          · simp at hd
            omega
          · exact Nat.digits_lt_base (by decide) hd
        · intro hne
          rw [List.getLast_append_of_ne_nil _ (Nat.digits_ne_nil_iff_ne_zero.mpr hrest)]
          exact Nat.getLast_digit_ne_zero 10 hrest
        · rw [Nat.ofDigits_append, Nat.ofDigits_digits]
          simp [Nat.ofDigits]
          omega

/-! ## Bases 8 and 16 -/

/-- `digits[d] | locase`. -/
def digitChar (small : Bool) (d : ℕ) : UInt8 :=
  (if d < 10 then UInt8.ofNat (d + 48) else UInt8.ofNat (d + 55)) ||| (if small then 0x20 else 0)

/-- The loop with shifts. -/
def putShift (small : Bool) (mask shift : ℕ) (hshift : 0 < shift) (num : ℕ) : List UInt8 :=
  let d := digitChar small (num % 256 &&& mask)
  if _h : num >>> shift ≠ 0 then d :: putShift small mask shift hshift (num >>> shift) else [d]
termination_by num
decreasing_by
  rw [Nat.shiftRight_eq_div_pow] at _h ⊢
  exact Nat.div_lt_self (Nat.pos_of_ne_zero fun h ↦ _h (by rw [h, Nat.zero_div]))
    (Nat.one_lt_two_pow hshift.ne')

theorem putShift_eq (small : Bool) {shift : ℕ} (hshift : 0 < shift) (hle : shift ≤ 8) {num : ℕ}
    (hpos : num ≠ 0) :
    putShift small (2 ^ shift - 1) shift hshift num = (Nat.digits (2 ^ shift) num).map
      (digitChar small) := by
  have hbase : 1 < 2 ^ shift := Nat.one_lt_two_pow hshift.ne'
  induction num using Nat.strong_induction_on with
  | _ num ih =>
      have hdigit : num % 256 &&& (2 ^ shift - 1) = num % 2 ^ shift := by
        rw [Nat.and_two_pow_sub_one_eq_mod]
        exact Nat.mod_mod_of_dvd num (pow_dvd_pow 2 hle)
      rw [putShift, Nat.digits_def' hbase (Nat.pos_of_ne_zero hpos), List.map_cons]
      simp only [hdigit, Nat.shiftRight_eq_div_pow]
      split_ifs with hrest
      · rw [ih (num / 2 ^ shift) (Nat.div_lt_self (Nat.pos_of_ne_zero hpos) hbase) hrest]
      · rw [not_not.mp hrest, Nat.digits_zero]
        rfl

end MiniPi.Printf
