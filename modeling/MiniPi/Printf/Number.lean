import MiniPi.Printf.Digits

/-!
# Formatted numbers

The model of `number`: the characters that it adds to the output.  An `int` has 32 bits and wraps
around.
-/

namespace MiniPi.Printf

/-- A number as an `int`. -/
def int (n : ℤ) : ℤ := Int.bmod n (2 ^ 32)

def charCode (c : Char) : UInt8 := UInt8.ofNat c.toNat

/-- The flags of a conversion. -/
structure Flags where
  zeropad : Bool := false
  sign : Bool := false
  plus : Bool := false
  space : Bool := false
  left : Bool := false
  small : Bool := false
  special : Bool := false
deriving DecidableEq

/-- `while (--size >= 0)`: the number of rounds, and `size` behind the loop. -/
def padding (size : ℤ) : ℕ × ℤ :=
  let size := int (size - 1)
  if 0 ≤ size then (size.toNat + 1, -1) else (0, size)

section

variable (num base : ℕ) (size precision : ℤ) (type : Flags)

/-- The character in front of a signed number. -/
def signText : List UInt8 :=
  if type.sign then
    if 2 ^ 63 ≤ num then [charCode '-']
    else if type.plus then [charCode '+']
    else if type.space then [charCode ' ']
    else []
  else []

/-- The number without its sign. -/
def magnitude : ℕ := if type.sign ∧ 2 ^ 63 ≤ num then 2 ^ 64 - num else num

/-- The characters in front of a number that is not decimal. -/
def prefixText : List UInt8 :=
  if type.special ∧ base ≠ 10 then
    if base = 16 then [charCode '0', charCode 'X' ||| (if type.small then 0x20 else 0)]
      else [charCode '0']
  else []

/-- The array `tmp`. -/
def tmpDigits : List UInt8 :=
  let num := magnitude num type
  if num = 0 then [charCode '0']
  else if base ≠ 10 then
    putShift type.small (base - 1) (if base = 16 then 4 else 3) (by split_ifs <;> decide) num
  else putDec num

def number : List UInt8 :=
  let zeropad := type.zeropad && !type.left
  let sign := signText num type
  let pfx := prefixText base type
  let size := if sign ≠ [] then int (size - 1) else size
  let size :=
    if type.special ∧ base ≠ 10 then
      let size := int (size - 1)
      if base = 16 then int (size - 1) else size
    else size
  let tmp := tmpDigits num base type
  let precision : ℤ := if precision < tmp.length then tmp.length else precision
  let size := int (size - precision)
  let lead := if !(zeropad || type.left) then padding size else (0, size)
  let mid := if !type.left then padding lead.2 else (0, lead.2)
  let trail := padding mid.2
  List.replicate lead.1 (charCode ' ') ++ sign ++ pfx ++
    List.replicate mid.1 (if zeropad then charCode '0' else charCode ' ') ++
    List.replicate (precision - tmp.length).toNat (charCode '0') ++ tmp.reverse ++
    List.replicate trail.1 (charCode ' ')

/-! ## What a formatted number is -/

/-- The positional numeral of a number. -/
def numeral (small : Bool) (base num : ℕ) : List UInt8 :=
  if num = 0 then [charCode '0'] else ((Nat.digits base num).map (digitChar small)).reverse

/-- `max(precision, number of digits)`. -/
def bodyLength : ℤ := max precision (numeral type.small base (magnitude num type)).length

/-- Padding, sign, prefix, zeros and numeral, as long as the field asks for. -/
def NumberText (text : List UInt8) : Prop :=
  let sign := signText num type
  let pfx := prefixText base type
  let digits := numeral type.small base (magnitude num type)
  ∃ leading zeros trailing : ℕ,
    text = List.replicate leading (charCode ' ') ++ sign ++ pfx ++
    List.replicate zeros (charCode '0') ++
      digits ++ List.replicate trailing (charCode ' ') ∧
    (text.length : ℤ) = max size (sign.length + pfx.length + bodyLength num base precision type) ∧
    (type.left → leading = 0) ∧ (¬ type.left → trailing = 0) ∧
    (type.zeropad ∧ ¬ type.left → leading = 0) ∧
    (¬ (type.zeropad ∧ ¬ type.left) →
      (zeros : ℤ) = bodyLength num base precision type - digits.length)

/-- The value of `size` in front of the padding, without wrapping around. -/
def fieldRest : ℤ :=
  size - (signText num type).length - (prefixText base type).length -
    bodyLength num base precision type

/-- The number of padding loops. -/
def paddingLoops : ℤ := if type.left then 1 else if type.zeropad then 2 else 3

/-- The counter of the padding loops does not fall below the smallest `int`, or by so much that it
comes out at zero again. -/
def CounterFits : Prop :=
  paddingLoops type - 2 ^ 31 ≤ fieldRest num base size precision type ∨
    fieldRest num base size precision type ≤ -2 ^ 32

end

/-! ## The padding loops -/

theorem int_int_sub (a b : ℤ) : int (int a - b) = int (a - b) := Int.bmod_sub_bmod

theorem int_of_lt {n : ℤ} (h : -2 ^ 31 ≤ n) (h' : n < 2 ^ 31) : int n = n :=
  Int.bmod_eq_of_le_mul_two (by omega) (by omega)

theorem int_of_lt_neg {n : ℤ} (h : -2 ^ 32 - 2 ^ 31 ≤ n) (h' : n < -2 ^ 31) :
    int n = n + 2 ^ 32 := by
  have hadd : int n = int (n + 2 ^ 32) := by
    unfold int
    exact (Int.add_bmod_right n (2 ^ 32)).symm
  rw [hadd]
  exact int_of_lt (by omega) (by omega)

theorem padding_of_pos {n : ℤ} (h : 0 < n) (h' : n < 2 ^ 31) : padding n = (n.toNat, -1) := by
  unfold padding
  rw [int_of_lt (by omega) (by omega)]
  simp only
  rw [if_pos (by omega)]
  congr 1
  omega

theorem padding_of_nonpos {n : ℤ} (h : -2 ^ 31 < n) (h' : n ≤ 0) : padding n = (0, n - 1) := by
  unfold padding
  rw [int_of_lt (by omega) (by omega)]
  simp only
  rw [if_neg (by omega)]

theorem padding_min : padding (-2 ^ 31) = (2 ^ 31, -1) := by rfl

/-- The three loops, of which the first two are left out for some flags. -/
def pads (left zeropad : Bool) (size : ℤ) : ℕ × ℕ × ℕ :=
  let lead := if !(zeropad && !left || left) then padding size else (0, size)
  let mid := if !left then padding lead.2 else (0, lead.2)
  (lead.1, mid.1, (padding mid.2).1)

/-- Without wrapping around, one of the loops does all the padding. -/
theorem pads_of_fits {left zeropad : Bool} {n : ℤ}
    (h : (if left then 1 else if zeropad then 2 else 3) - 2 ^ 31 ≤ n) (h' : n < 2 ^ 31) :
    pads left zeropad n =
      if left then (0, 0, n.toNat) else if zeropad then (0, n.toNat, 0) else (n.toNat, 0, 0) := by
  have hm1 : padding (-1) = (0, -2) := padding_of_nonpos (by decide) (by decide)
  have hm2 : padding (-2) = (0, -3) := padding_of_nonpos (by decide) (by decide)
  obtain hpos | hneg := lt_or_ge 0 n
  · have hn := padding_of_pos hpos h'
    cases left <;> cases zeropad <;> simp [pads, hn, hm1, hm2]
  · have hzero : n.toNat = 0 := Int.toNat_of_nonpos hneg
    cases left with
    | true =>
        have h0 : padding n = (0, n - 1) := padding_of_nonpos (by simp at h; omega) hneg
        simp [pads, h0, hzero]
    | false =>
        cases zeropad with
        | true =>
            have h0 : padding n = (0, n - 1) := padding_of_nonpos (by simp at h; omega) hneg
            have h1 : padding (n - 1) = (0, n - 1 - 1) :=
              padding_of_nonpos (by simp at h; omega) (by omega)
            simp [pads, h0, h1, hzero]
        | false =>
            have h0 : padding n = (0, n - 1) := padding_of_nonpos (by simp at h; omega) hneg
            have h1 : padding (n - 1) = (0, n - 1 - 1) :=
              padding_of_nonpos (by simp at h; omega) (by omega)
            have h2 : padding (n - 1 - 1) = (0, n - 1 - 1 - 1) :=
              padding_of_nonpos (by simp at h; omega) (by omega)
            simp [pads, h0, h1, h2, hzero]

/-- Where a loop counts below the smallest `int`, it pads. -/
theorem pads_of_not_fits {left zeropad : Bool} {n : ℤ} (hmin : -2 ^ 31 ≤ n)
    (h : n < (if left then 1 else if zeropad then 2 else 3) - 2 ^ 31) :
    0 < (pads left zeropad n).1 + (pads left zeropad n).2.1 + (pads left zeropad n).2.2 := by
  have hm := padding_min
  have h1 : padding (-2 ^ 31 + 1) = (0, -2 ^ 31) := by
    rw [padding_of_nonpos (by decide) (by decide)]
    rfl
  have h2 : padding (-2 ^ 31 + 2) = (0, -2 ^ 31 + 1) := by
    rw [padding_of_nonpos (by decide) (by decide)]
    rfl
  cases left with
  | true =>
      obtain rfl : n = -2 ^ 31 := by simp at h; omega
      simp only [pads, Bool.or_true, Bool.not_true, Bool.false_eq_true, if_false, hm]
      decide
  | false =>
      cases zeropad with
      | true =>
          obtain rfl | rfl : n = -2 ^ 31 ∨ n = -2 ^ 31 + 1 := by simp at h; omega
          · simp only [pads, Bool.or_false, Bool.not_false, Bool.and_true, Bool.not_true,
              Bool.false_eq_true, if_false, if_true, hm]
            omega
          · simp only [pads, Bool.or_false, Bool.not_false, Bool.and_true, Bool.not_true,
              Bool.false_eq_true, if_false, if_true, h1, hm]
            omega
      | false =>
          obtain rfl | rfl | rfl : n = -2 ^ 31 ∨ n = -2 ^ 31 + 1 ∨ n = -2 ^ 31 + 2 := by
            simp at h; omega
          · simp only [pads, Bool.or_false, Bool.not_false, Bool.and_true, if_true, hm]
            omega
          · simp only [pads, Bool.or_false, Bool.not_false, Bool.and_true, if_true, h1, hm]
            omega
          · simp only [pads, Bool.or_false, Bool.not_false, Bool.and_true, if_true, h2, h1, hm]
            omega

/-! ## Numbers -/

section

variable {num base : ℕ} {size precision : ℤ} {type : Flags}

theorem digitChar_of_lt (small : Bool) {d : ℕ} (h : d < 10) : digitChar small d = digit d := by
  interval_cases d <;> cases small <;> decide

theorem reverse_tmpDigits (hbase : base = 8 ∨ base = 10 ∨ base = 16) :
    (tmpDigits num base type).reverse = numeral type.small base (magnitude num type) := by
  unfold tmpDigits numeral
  simp only
  by_cases hzero : magnitude num type = 0
  · rw [if_pos hzero, if_pos hzero]
    rfl
  rw [if_neg hzero, if_neg hzero]
  congr 1
  rcases hbase with rfl | rfl | rfl
  · exact @putShift_eq type.small 3 (by decide) (by decide) _ hzero
  · rw [if_neg (by decide), putDec_eq hzero]
    apply List.map_congr_left
    intro d hd
    exact (digitChar_of_lt type.small (Nat.digits_lt_base (by decide) hd)).symm
  · exact @putShift_eq type.small 4 (by decide) (by decide) _ hzero

theorem length_numeral (hbase : base = 8 ∨ base = 10 ∨ base = 16) (hnum : num < 2 ^ 64) :
    0 < (numeral type.small base (magnitude num type)).length ∧
      (numeral type.small base (magnitude num type)).length ≤ 22 := by
  have hmag : magnitude num type < 8 ^ 22 := by
    unfold magnitude
    split_ifs <;> omega
  unfold numeral
  split_ifs with hzero
  · decide
  · rw [List.length_reverse, List.length_map]
    constructor
    · exact List.length_pos_iff.mpr (Nat.digits_ne_nil_iff_ne_zero.mpr hzero)
    · have hle : magnitude num type < base ^ 22 :=
        hmag.trans_le (Nat.pow_le_pow_left (by omega) 22)
      exact (Nat.digits_length_le_iff (by omega) _).mpr hle

theorem length_signText : (signText num type).length ≤ 1 := by
  unfold signText
  split_ifs <;> decide

theorem length_prefixText : (prefixText base type).length ≤ 2 := by
  unfold prefixText
  split_ifs <;> decide

/-- The size that is left for the padding. -/
theorem size_eq (hsize : -2 ^ 31 ≤ size) (hsize' : size < 2 ^ 31) (body : ℤ) :
    int ((if type.special ∧ base ≠ 10 then
        if base = 16 then int
          (int ((if signText num type ≠ [] then int (size - 1) else size) - 1) - 1)
        else int ((if signText num type ≠ [] then int (size - 1) else size) - 1)
      else if signText num type ≠ [] then int (size - 1) else size) - body) =
      int (size - (signText num type).length - (prefixText base type).length - body) := by
  have hsign : (if signText num type ≠ [] then int (size - 1) else size) =
      int (size - (signText num type).length) := by
    have hlen := @length_signText num type
    split_ifs with h
    · have : 0 < (signText num type).length := List.length_pos_iff.mpr h
      rw [show (signText num type).length = 1 by omega]
      rfl
    · rw [not_not.mp h, List.length_nil, Nat.cast_zero, sub_zero, int_of_lt hsize hsize']
  have hpfx : (prefixText base type).length =
      if type.special ∧ base ≠ 10 then if base = 16 then 2 else 1 else 0 := by
    unfold prefixText
    split_ifs <;> rfl
  have hsub (a b c : ℤ) : int (int a - b - c) = int (a - b - c) := by
    rw [sub_sub, int_int_sub, ← sub_sub]
  rw [hsign, hpfx]
  split_ifs
  · rw [int_int_sub, hsub, sub_sub _ 1 1, hsub]
    rfl
  · rw [int_int_sub, hsub]
    rfl
  · rw [int_int_sub, Nat.cast_zero, sub_zero]

variable (num base size precision type) in
theorem number_eq (hbase : base = 8 ∨ base = 10 ∨ base = 16) (hsize : -2 ^ 31 ≤ size)
    (hsize' : size < 2 ^ 31) :
    number num base size precision type =
      List.replicate (pads type.left type.zeropad (int (fieldRest num base size precision type))).1
          (charCode ' ') ++ signText num type ++ prefixText base type ++
        List.replicate (pads type.left type.zeropad
        (int (fieldRest num base size precision type))).2.1
          (if type.zeropad && !type.left then charCode '0' else charCode ' ') ++
        List.replicate (bodyLength num base precision type -
          (numeral type.small base (magnitude num type)).length).toNat (charCode '0') ++
        numeral type.small base (magnitude num type) ++
        List.replicate (pads type.left type.zeropad
        (int (fieldRest num base size precision type))).2.2
          (charCode ' ') := by
  have hdigits := @reverse_tmpDigits num base type hbase
  have hlen : (tmpDigits num base type).length =
      (numeral type.small base (magnitude num type)).length := by
    rw [← hdigits, List.length_reverse]
  have hbody : (if precision < (numeral type.small base (magnitude num type)).length then
      ((numeral type.small base (magnitude num type)).length : ℤ) else precision) =
        bodyLength num base precision type := by
    rw [bodyLength, max_def]
    split_ifs <;> omega
  unfold number pads fieldRest
  simp only [hlen, hbody, hdigits, size_eq hsize hsize']

/-- A number that has been formatted, for padding loops that pad as they should. -/
theorem numberText_of_pads (hbase : base = 8 ∨ base = 10 ∨ base = 16) (hsize : -2 ^ 31 ≤ size)
    (hsize' : size < 2 ^ 31)
    (hpads : pads type.left type.zeropad (int (fieldRest num base size precision type)) =
      if type.left then (0, 0, (fieldRest num base size precision type).toNat)
      else if type.zeropad then (0, (fieldRest num base size precision type).toNat, 0)
      else ((fieldRest num base size precision type).toNat, 0, 0)) :
    NumberText num base size precision type (number num base size precision type) := by
  have hdigits : ((numeral type.small base (magnitude num type)).length : ℤ) ≤
      bodyLength num base precision type := le_max_right _ _
  unfold NumberText
  simp only
  rw [number_eq num base size precision type hbase hsize hsize', hpads]
  cases hleft : type.left with
  | true =>
      refine ⟨0, (bodyLength num base precision type -
        (numeral type.small base (magnitude num type)).length).toNat,
        (fieldRest num base size precision type).toNat, ?_, ?_, ?_, ?_, ?_, ?_⟩
      · simp
      · simp only [fieldRest] at *
        simp
        omega
      · simp
      · simp
      · simp
      · simp
        omega
  | false =>
      cases hzeropad : type.zeropad with
      | true =>
          refine ⟨0, (fieldRest num base size precision type).toNat +
            (bodyLength num base precision type -
              (numeral type.small base (magnitude num type)).length).toNat, 0, ?_, ?_, ?_,
              ?_, ?_, ?_⟩
          · simp only [Bool.false_eq_true, if_false, if_true, Bool.not_false, Bool.and_true,
              List.replicate_zero, List.nil_append, List.append_nil, List.replicate_add,
              List.append_assoc]
          · simp only [fieldRest] at *
            simp
            omega
          · simp
          · simp
          · simp
          · simp
      | false =>
          refine ⟨(fieldRest num base size precision type).toNat,
            (bodyLength num base precision type -
            (numeral type.small base (magnitude num type)).length).toNat, 0, ?_, ?_, ?_, ?_, ?_, ?_⟩
          · simp
          · simp only [fieldRest] at *
            simp
            omega
          · simp
          · simp
          · simp
          · simp
            omega

theorem length_number (hbase : base = 8 ∨ base = 10 ∨ base = 16) (hsize : -2 ^ 31 ≤ size)
    (hsize' : size < 2 ^ 31) :
    ((number num base size precision type).length : ℤ) =
      ((pads type.left type.zeropad (int (fieldRest num base size precision type))).1 +
        (pads type.left type.zeropad (int (fieldRest num base size precision type))).2.1 +
        (pads type.left type.zeropad (int (fieldRest num base size precision type))).2.2 : ℕ) +
      (signText num type).length + (prefixText base type).length +
      bodyLength num base precision type := by
  have hdigits : ((numeral type.small base (magnitude num type)).length : ℤ) ≤
      bodyLength num base precision type := le_max_right _ _
  rw [number_eq num base size precision type hbase hsize hsize']
  simp only [List.length_append, List.length_replicate, Nat.cast_add]
  omega

theorem fieldRest_bounds (hbase : base = 8 ∨ base = 10 ∨ base = 16) (hnum : num < 2 ^ 64)
    (hsize : -2 ^ 31 ≤ size) (hsize' : size < 2 ^ 31) (hprecision : precision < 2 ^ 31) :
    -2 ^ 32 - 2 ≤ fieldRest num base size precision type ∧
      fieldRest num base size precision type < 2 ^ 31 := by
  have hsign := @length_signText num type
  have hpfx := @length_prefixText base type
  obtain ⟨hpos, hle⟩ := @length_numeral num base type hbase hnum
  unfold fieldRest bodyLength
  omega

theorem numberText_of_counterFits (hbase : base = 8 ∨ base = 10 ∨ base = 16) (hnum : num < 2 ^ 64)
    (hsize : -2 ^ 31 ≤ size) (hsize' : size < 2 ^ 31) (hprecision : precision < 2 ^ 31)
    (h : CounterFits num base size precision type) :
    NumberText num base size precision type (number num base size precision type) := by
  obtain ⟨hmin, hmax⟩ :=
    @fieldRest_bounds num base size precision type hbase hnum hsize hsize' hprecision
  refine numberText_of_pads hbase hsize hsize' ?_
  have hloops : 1 ≤ paddingLoops type ∧ paddingLoops type ≤ 3 := by
    unfold paddingLoops
    split_ifs <;> omega
  rcases h with h | h
  · rw [int_of_lt (by omega) hmax]
    exact pads_of_fits h hmax
  · -- the counter has wrapped around to a number that is not positive
    have hwrap : int (fieldRest num base size precision type) =
        fieldRest num base size precision type + 2 ^ 32 := int_of_lt_neg (by omega) (by omega)
    have hfits := @pads_of_fits type.left type.zeropad
      (fieldRest num base size precision type + 2 ^ 32)
      (by change paddingLoops type - 2 ^ 31 ≤ _; omega) (by omega)
    rw [hwrap, hfits, Int.toNat_of_nonpos (by omega), Int.toNat_of_nonpos (by omega)]

theorem counterFits_of_numberText (hbase : base = 8 ∨ base = 10 ∨ base = 16) (hnum : num < 2 ^ 64)
    (hsize : -2 ^ 31 ≤ size) (hsize' : size < 2 ^ 31) (hprecision : precision < 2 ^ 31)
    (h : NumberText num base size precision type (number num base size precision type)) :
    CounterFits num base size precision type := by
  obtain ⟨hmin, hmax⟩ :=
    @fieldRest_bounds num base size precision type hbase hnum hsize hsize' hprecision
  obtain ⟨-, -, -, -, hlen, -⟩ := h
  rw [length_number hbase hsize hsize'] at hlen
  by_contra hnot
  obtain ⟨hlow, hhigh⟩ := not_or.mp hnot
  rw [not_le] at hlow hhigh
  have hloops : paddingLoops type ≤ 3 := by
    unfold paddingLoops
    split_ifs <;> omega
  -- nothing may be padded, but some loop has padded
  have hpads : 0 < (pads type.left type.zeropad (int (fieldRest num base size precision type))).1 +
      (pads type.left type.zeropad (int (fieldRest num base size precision type))).2.1 +
      (pads type.left type.zeropad (int (fieldRest num base size precision type))).2.2 := by
    obtain hge | hlt := le_or_gt (-2 ^ 31) (fieldRest num base size precision type)
    · rw [int_of_lt hge hmax]
      exact pads_of_not_fits hge hlow
    · rw [int_of_lt_neg (by omega) hlt, pads_of_fits
        (by change paddingLoops type - 2 ^ 31 ≤ _; omega) (by omega)]
      split_ifs <;> simp <;> omega
  have hneg : size - (signText num type).length - (prefixText base type).length -
      bodyLength num base precision type < 0 := by
    change fieldRest num base size precision type < 0
    omega
  omega

/-- A number is formatted as it should be exactly if the counter of the padding does not wrap
around. -/
theorem numberText_iff (hbase : base = 8 ∨ base = 10 ∨ base = 16) (hnum : num < 2 ^ 64)
    (hsize : -2 ^ 31 ≤ size ∧ size < 2 ^ 31)
    (hprecision : -2 ^ 31 ≤ precision ∧ precision < 2 ^ 31) :
    NumberText num base size precision type (number num base size precision type) ↔
      CounterFits num base size precision type :=
  ⟨counterFits_of_numberText hbase hnum hsize.1 hsize.2 hprecision.2,
    numberText_of_counterFits hbase hnum hsize.1 hsize.2 hprecision.2⟩

theorem numberText_iff_minus :
    NumberText (2 ^ 64 - 5) 10 8 3 { sign := true } (number (2 ^ 64 - 5) 10 8 3 { sign := true }) ↔
      CounterFits (2 ^ 64 - 5) 10 8 3 { sign := true } :=
  numberText_iff (by decide) (by decide) (by decide) (by decide)

/-- The largest precision without a field width: the counter goes below the smallest `int`. -/
theorem not_numberText_maxPrecision :
    ¬ NumberText 5 10 (-1) (2 ^ 31 - 1) { sign := true }
    (number 5 10 (-1) (2 ^ 31 - 1) { sign := true }) := by
  intro h
  have hfits := counterFits_of_numberText (by decide) (by decide) (by decide) (by decide)
    (by decide) h
  have hbody : bodyLength 5 10 (2 ^ 31 - 1) { sign := true } = 2 ^ 31 - 1 := by
    simp [bodyLength, numeral, magnitude]
  have hrest : fieldRest 5 10 (-1) (2 ^ 31 - 1) { sign := true } = -2 ^ 31 := by
    rw [fieldRest, hbody]
    rfl
  unfold CounterFits at hfits
  rw [hrest] at hfits
  exact absurd hfits (by decide)

end

end MiniPi.Printf
