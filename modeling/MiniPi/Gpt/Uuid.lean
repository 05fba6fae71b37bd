import MiniPi.Env.Flags
import MiniPi.Gpt.Restore

/-!
# GUIDs as text

`uuid_str_to_bin` and `uuid_bin_to_str` of `lib/uuid.c` for GUIDs, with the conversions of
`lib/strto.c` that they use.  The first three numbers of a GUID are stored with their low bytes
first.
-/

namespace MiniPi.Gpt

open MiniPi.Env (isdigit isxdigit)
open Lib (leBytes beBytes)

/-! ## Numbers -/

/-- `islower`. -/
def islower (c : UInt8) : Bool := decide (97 ≤ c ∧ c ≤ 122 ∨ 0xdf ≤ c ∧ c ≠ 0xf7)

/-- `isupper`. -/
def isupper (c : UInt8) : Bool := decide (65 ≤ c ∧ c ≤ 90 ∨ 0xc0 ≤ c ∧ c ≤ 0xde ∧ c ≠ 0xd7)

/-- `tolower`. -/
def tolower (c : UInt8) : UInt8 := if isupper c then c + 32 else c

/-- `toupper`. -/
def toupper (c : UInt8) : UInt8 := if islower c then c - 32 else c

/-- The value of a digit. -/
def digitValue (c : UInt8) : ℕ :=
  if isdigit c then c.toNat - 48 else (if islower c then toupper c else c).toNat - 65 + 10

/-- The loop of `simple_strtoul` and `simple_strtoull` to base 16, for numbers of `w` bits. -/
def strtoLoop (w : ℕ) : Str → ℕ → ℕ
  | [], result => result
  | c :: cp, result =>
    if isxdigit c ∧ digitValue c < 16 then strtoLoop w cp ((result * 16 + digitValue c) % 2 ^ w)
    else result

/-- `_parse_integer_fixup_radix`, for base 16. -/
def parseIntegerFixupRadix (s : Str) : Str :=
  if s.getD 0 0 = 48 ∧ tolower (s.getD 1 0) = 120 then s.drop 2 else s

/-- `simple_strtoul`. -/
def simpleStrtoul (cp : Str) : ℕ := strtoLoop 32 (parseIntegerFixupRadix cp) 0

/-- `simple_strtoull`. -/
def simpleStrtoull (cp : Str) : ℕ := strtoLoop 64 (parseIntegerFixupRadix cp) 0

/-! ## GUIDs -/

/-- A character that may stand at some place of a UUID. -/
def uuidChar (i : ℕ) (c : UInt8) : Bool :=
  if i = 8 ∨ i = 13 ∨ i = 18 ∨ i = 23 then c == 45 else isxdigit c

/-- The loop of `uuid_str_valid`. -/
def uuidLoop : Str → ℕ → Bool → ℕ × Bool
  | [], i, valid => (i, valid)
  | c :: uuid, i, valid => if valid then uuidLoop uuid (i + 1) (uuidChar i c) else (i, valid)

/-- `uuid_str_valid`. -/
def uuidStrValid (uuid : Str) : Bool :=
  let (i, valid) := uuidLoop uuid 0 true
  !(i != 36 || !valid)

/-- `uuid_str_to_bin` for a GUID. -/
def uuidStrToBin (uuidStr : Str) : Option Guid :=
  if uuidStrValid uuidStr = false then none
  else
    some (leBytes 4 (simpleStrtoul uuidStr) ++ leBytes 2 (simpleStrtoul (uuidStr.drop 9)) ++
      leBytes 2 (simpleStrtoul (uuidStr.drop 14)) ++ beBytes 2 (simpleStrtoul (uuidStr.drop 19)) ++
      (beBytes 8 (simpleStrtoull (uuidStr.drop 24))).drop 2)

/-- `guid_char_order`. -/
def guidCharOrder : List ℕ := [3, 2, 1, 0, 5, 4, 7, 6, 8, 9, 10, 11, 12, 13, 14, 15]

/-- A digit to base 16 in lower case. -/
def digitChar (n : ℕ) : UInt8 := UInt8.ofNat (if n < 10 then 48 + n else 87 + n)

/-- `sprintf` with `%02x`. -/
def sprintf02x (b : UInt8) : Str := [digitChar (b.toNat / 16), digitChar (b.toNat % 16)]

/-- `uuid_bin_to_str` for a GUID in lower case. -/
def uuidBinToStr (uuidBin : Guid) : Str :=
  (List.range 16).flatMap fun i ↦
    sprintf02x (uuidBin.getD (guidCharOrder.getD i 0) 0) ++
      if i = 3 ∨ i = 5 ∨ i = 7 ∨ i = 9 then [45] else []

theorem length_uuidStrToBin (s : Str) (guid : Guid) (h : uuidStrToBin s = some guid) :
    guid.length = 16 := by
  obtain ⟨-, h⟩ := Option.ite_none_left_eq_some.1 h
  rw [← Option.some.inj h]
  simp

/-! ## Digits -/

/-- A text of digits to base 16. -/
def IsHex (s : Str) : Prop := ∀ c ∈ s, isxdigit c = true

/-- The number that digits stand for. -/
def hexValue (s : Str) : ℕ := s.foldl (fun r c ↦ r * 16 + digitValue c) 0

theorem digitValue_lt : ∀ c, isxdigit c = true → digitValue c < 16 := by decide +kernel

theorem digitChar_digitValue : ∀ c, isxdigit c = true → digitChar (digitValue c) = tolower c := by
  decide +kernel

/-- No digit is the letter of a prefix. -/
theorem tolower_ne : ∀ c, isxdigit c = true → tolower c ≠ 120 := by decide +kernel

theorem hexValue_concat (s : Str) (c : UInt8) :
    hexValue (s ++ [c]) = hexValue s * 16 + digitValue c := by
  rw [hexValue, List.foldl_append]
  rfl

/-- The loop reads digits up to something that is none. -/
theorem strtoLoop_eq {w : ℕ} {s rest : Str} (h : IsHex s) (hrest : ∀ c ∈ rest.head?, c = 45)
    (hw : 4 * s.length ≤ w) : strtoLoop w (s ++ rest) 0 = hexValue s := by
  have hstop (r : ℕ) : strtoLoop w rest r = r := by
    cases rest with
    | nil => rfl
    | cons c rest =>
        rw [hrest c rfl, strtoLoop, if_neg fun hc ↦ absurd hc.1 (by decide)]
  have hread : ∀ (s : Str) (r : ℕ), IsHex s → r * 16 ^ s.length + 16 ^ s.length ≤ 2 ^ w →
      strtoLoop w (s ++ rest) r = s.foldl (fun r c ↦ r * 16 + digitValue c) r := by
    intro s
    induction s with
    | nil => exact fun r _ _ ↦ hstop r
    | cons c s ih =>
        intro r hs hle
        have hc := digitValue_lt c (hs c List.mem_cons_self)
        have hnext : (r * 16 + digitValue c) * 16 ^ s.length + 16 ^ s.length ≤ 2 ^ w := by
          rw [List.length_cons, Nat.pow_succ] at hle
          have hmul : (digitValue c + 1) * 16 ^ s.length ≤ 16 * 16 ^ s.length :=
            Nat.mul_le_mul_right _ hc
          linarith
        have hlt : r * 16 + digitValue c < 2 ^ w := by
          have hpos : 0 < 16 ^ s.length := Nat.pow_pos (by decide)
          have := Nat.le_mul_of_pos_right (r * 16 + digitValue c) hpos
          omega
        rw [List.cons_append, strtoLoop, if_pos ⟨hs c List.mem_cons_self, hc⟩,
          Nat.mod_eq_of_lt hlt, ih _ (fun d hd ↦ hs d (List.mem_cons_of_mem _ hd)) hnext,
          List.foldl_cons]
  apply hread s 0 h
  rw [Nat.zero_mul, Nat.zero_add, show (16 : ℕ) = 2 ^ 4 from rfl, ← Nat.pow_mul]
  exact Nat.pow_le_pow_right (by decide) hw

theorem parseIntegerFixupRadix_eq {s rest : Str} (h : IsHex s) (hs : 2 ≤ s.length) :
    parseIntegerFixupRadix (s ++ rest) = s ++ rest := by
  refine if_neg fun hx ↦ ?_
  have hget : (s ++ rest).getD 1 0 = s[1] := by
    rw [List.getD_append _ _ _ _ (by omega), List.getD_eq_getElem _ _ (by omega)]
  rw [hget] at hx
  exact tolower_ne _ (h _ (List.getElem_mem _)) hx.2

theorem simpleStrtoul_eq {s rest : Str} (h : IsHex s) (hrest : ∀ c ∈ rest.head?, c = 45)
    (hlo : 2 ≤ s.length) (hhi : s.length ≤ 8) : simpleStrtoul (s ++ rest) = hexValue s := by
  rw [simpleStrtoul, parseIntegerFixupRadix_eq h hlo, strtoLoop_eq h hrest (by omega)]

/-- Two digits make a byte. -/
theorem sprintf02x_digits {c d : UInt8} (hc : isxdigit c = true) (hd : isxdigit d = true) {n : ℕ} :
    sprintf02x (UInt8.ofNat (n * 256 + (digitValue c * 16 + digitValue d))) =
      [tolower c, tolower d] := by
  have hltc := digitValue_lt c hc
  have hltd := digitValue_lt d hd
  have hbyte : (UInt8.ofNat (n * 256 + (digitValue c * 16 + digitValue d))).toNat =
      digitValue c * 16 + digitValue d := by
    rw [UInt8.toNat_ofNat']
    omega
  rw [sprintf02x, hbyte, show (digitValue c * 16 + digitValue d) / 16 = digitValue c by omega,
    show (digitValue c * 16 + digitValue d) % 16 = digitValue d by omega,
    digitChar_digitValue c hc, digitChar_digitValue d hd]

theorem beBytes_succ (w n : ℕ) : beBytes (w + 1) n = beBytes w (n / 256) ++ [UInt8.ofNat n] := by
  rw [beBytes, leBytes, List.reverse_cons]
  rfl

/-- Digits are printed as they were, in lower case. -/
theorem sprintf02x_beBytes {n : ℕ} {s : Str} (h : IsHex s) (hlen : s.length = 2 * n) :
    (beBytes n (hexValue s)).flatMap sprintf02x = s.map tolower := by
  induction n generalizing s with
  | zero =>
      obtain rfl := List.length_eq_zero_iff.1 hlen
      rfl
  | succ n ih =>
      obtain rfl | ⟨s, d, rfl⟩ := List.eq_nil_or_concat s
      · simp at hlen
      obtain rfl | ⟨s, c, rfl⟩ := List.eq_nil_or_concat s
      · simp at hlen
        omega
      simp only [List.concat_eq_append, List.length_append, List.length_singleton] at h hlen ⊢
      have hc := h c (by simp)
      have hd := h d (by simp)
      have hs : IsHex s := fun e he ↦ h e (by simp [he])
      have hltc := digitValue_lt c hc
      have hltd := digitValue_lt d hd
      have hvalue : hexValue (s ++ [c] ++ [d]) =
          hexValue s * 256 + (digitValue c * 16 + digitValue d) := by
        rw [hexValue_concat, hexValue_concat]
        ring
      rw [beBytes_succ, List.flatMap_append, hvalue,
        show (hexValue s * 256 + (digitValue c * 16 + digitValue d)) / 256 = hexValue s by omega,
        ih hs (by omega), List.flatMap_singleton, sprintf02x_digits hc hd]
      simp

/-! ## The parts of a GUID -/

theorem uuidLoop_false (uuid : Str) (i : ℕ) : uuidLoop uuid i false = (i, false) := by
  cases uuid <;> rfl

/-- The loop that stays valid has looked at every character. -/
theorem uuidLoop_true {uuid : Str} {i n : ℕ} (h : uuidLoop uuid i true = (n, true)) :
    n = i + uuid.length ∧ ∀ j (hj : j < uuid.length), uuidChar (i + j) uuid[j] = true := by
  induction uuid generalizing i with
  | nil =>
      obtain ⟨rfl, -⟩ := Prod.mk.inj h
      exact ⟨rfl, fun j hj ↦ absurd hj (Nat.not_lt_zero _)⟩
  | cons c uuid ih =>
      rw [uuidLoop, if_pos rfl] at h
      cases hc : uuidChar i c with
      | false =>
          rw [hc, uuidLoop_false] at h
          exact absurd (Prod.mk.inj h).2 Bool.false_ne_true
      | true =>
          rw [hc] at h
          obtain ⟨hn, hall⟩ := ih h
          refine ⟨by rw [hn, List.length_cons]; omega, fun j hj ↦ ?_⟩
          cases j with
          | zero => exact hc
          | succ j =>
              rw [Nat.add_succ, ← Nat.succ_add]
              exact hall j (Nat.lt_of_succ_lt_succ hj)

theorem uuidStrValid_spec {s : Str} (h : uuidStrValid s = true) :
    s.length = 36 ∧ ∀ j (hj : j < s.length), uuidChar j s[j] = true := by
  rw [uuidStrValid] at h
  rcases hloop : uuidLoop s 0 true with ⟨i, valid⟩
  rw [hloop] at h
  obtain ⟨rfl, rfl⟩ : i = 36 ∧ valid = true := by simpa using h
  obtain ⟨hlen, hall⟩ := uuidLoop_true hloop
  simp only [Nat.zero_add] at hlen hall
  exact ⟨hlen.symm, hall⟩

/-- A piece of a valid GUID between two of the hyphens. -/
theorem isHex_slice {s : Str} (h : ∀ j (hj : j < s.length), uuidChar j s[j] = true) {i n : ℕ}
    (hno : ∀ j, i ≤ j → j < i + n → ¬(j = 8 ∨ j = 13 ∨ j = 18 ∨ j = 23)) :
    IsHex ((s.drop i).take n) := by
  intro c hc
  obtain ⟨j, hj, rfl⟩ := List.getElem_of_mem hc
  rw [List.length_take, List.length_drop] at hj
  have hchar := h (i + j) (by omega)
  rw [uuidChar, if_neg (hno _ (by omega) (by omega))] at hchar
  rw [List.getElem_take, List.getElem_drop]
  exact hchar

/-- A hyphen and what stands in front of it. -/
theorem drop_hyphen {s : Str} (h : ∀ j (hj : j < s.length), uuidChar j s[j] = true) {i n : ℕ}
    (hlt : i + n < s.length) (hat : i + n = 8 ∨ i + n = 13 ∨ i + n = 18 ∨ i + n = 23) :
    s.drop i = (s.drop i).take n ++ 45 :: s.drop (i + n + 1) := by
  have hchar := h (i + n) hlt
  rw [uuidChar, if_pos hat, beq_iff_eq] at hchar
  conv_lhs => rw [← List.take_append_drop n (s.drop i), List.drop_drop,
    List.drop_eq_getElem_cons hlt, hchar]

/-- A valid GUID: five groups of digits. -/
theorem uuidStrValid_parts {s : Str} (h : uuidStrValid s = true) : ∃ a b c d e,
    s = a ++ 45 :: (b ++ 45 :: (c ++ 45 :: (d ++ 45 :: e))) ∧ (IsHex a ∧ a.length = 8) ∧
      (IsHex b ∧ b.length = 4) ∧ (IsHex c ∧ c.length = 4) ∧ (IsHex d ∧ d.length = 4) ∧
      IsHex e ∧ e.length = 12 := by
  obtain ⟨hlen, hall⟩ := uuidStrValid_spec h
  refine ⟨(s.drop 0).take 8, (s.drop 9).take 4, (s.drop 14).take 4, (s.drop 19).take 4,
    (s.drop 24).take 12, ?_, ⟨isHex_slice hall (by omega), by simp [hlen]⟩,
    ⟨isHex_slice hall (by omega), by simp [hlen]⟩, ⟨isHex_slice hall (by omega), by simp [hlen]⟩,
    ⟨isHex_slice hall (by omega), by simp [hlen]⟩, isHex_slice hall (by omega), by simp [hlen]⟩
  have hlast : (s.drop 24).take 12 = s.drop 24 := List.take_of_length_le (by simp [hlen])
  rw [hlast, ← @drop_hyphen s hall 19 4 (by omega) (by omega),
    ← @drop_hyphen s hall 14 4 (by omega) (by omega),
    ← @drop_hyphen s hall 9 4 (by omega) (by omega),
    ← @drop_hyphen s hall 0 8 (by omega) (by omega), List.drop_zero]

/-- The bytes of five numbers, as they are printed. -/
theorem uuidBinToStr_eq (a b c d e : ℕ) :
    uuidBinToStr (leBytes 4 a ++ leBytes 2 b ++ leBytes 2 c ++ beBytes 2 d ++
      (beBytes 8 e).drop 2) =
      (beBytes 4 a).flatMap sprintf02x ++ 45 :: ((beBytes 2 b).flatMap sprintf02x ++
        45 :: ((beBytes 2 c).flatMap sprintf02x ++ 45 :: ((beBytes 2 d).flatMap sprintf02x ++
          45 :: (beBytes 6 e).flatMap sprintf02x))) := by
  simp [uuidBinToStr, leBytes, beBytes, guidCharOrder, List.range_succ]

/-- The GUID of a valid text is printed as that text, in lower case. -/
theorem uuidBinToStr_uuidStrToBin {s : Str} (h : uuidStrValid s = true) :
    (uuidStrToBin s).map uuidBinToStr = some (s.map tolower) := by
  obtain ⟨a, b, c, d, e, rfl, ⟨ha, hla⟩, ⟨hb, hlb⟩, ⟨hc, hlc⟩, ⟨hd, hld⟩, he, hle⟩ :=
    uuidStrValid_parts h
  have hhyphen (rest : Str) : ∀ c ∈ (45 :: rest : Str).head?, c = 45 := by
    rintro c ⟨⟩
    rfl
  have hva := simpleStrtoul_eq ha (hhyphen (b ++ 45 :: (c ++ 45 :: (d ++ 45 :: e))))
    (by omega) (by omega)
  have hvb := simpleStrtoul_eq hb (hhyphen (c ++ 45 :: (d ++ 45 :: e))) (by omega) (by omega)
  have hvc := simpleStrtoul_eq hc (hhyphen (d ++ 45 :: e)) (by omega) (by omega)
  have hvd := simpleStrtoul_eq hd (hhyphen e) (by omega) (by omega)
  have hve : simpleStrtoull e = hexValue e := by
    have hfix := @parseIntegerFixupRadix_eq e [] he (by omega)
    have hloop := @strtoLoop_eq 64 e [] he (by simp) (by omega)
    rw [List.append_nil] at hfix hloop
    rw [simpleStrtoull, hfix, hloop]
  have hdrop {p rest : Str} {n : ℕ} (hn : n = p.length + 1) : (p ++ 45 :: rest).drop n = rest := by
    rw [hn, List.append_cons, List.drop_left' (by simp)]
  have hdropb := @hdrop a (b ++ 45 :: (c ++ 45 :: (d ++ 45 :: e))) 9 (by omega)
  have hdropc : (b ++ 45 :: (c ++ 45 :: (d ++ 45 :: e))).drop 5 = _ := hdrop (by omega)
  have hdropd : (c ++ 45 :: (d ++ 45 :: e)).drop 5 = _ := hdrop (by omega)
  have hdrope : (d ++ 45 :: e).drop 5 = e := hdrop (by omega)
  rw [uuidStrToBin, if_neg (by simp [h]), Option.map_some, Option.some_inj,
    show (14 : ℕ) = 9 + 5 from rfl, show (19 : ℕ) = 9 + 5 + 5 from rfl,
    show (24 : ℕ) = 9 + 5 + 5 + 5 from rfl]
  simp only [← List.drop_drop, hdropb, hdropc, hdropd, hdrope, hva, hvb, hvc, hvd, hve]
  rw [uuidBinToStr_eq, sprintf02x_beBytes ha hla, sprintf02x_beBytes hb hlb,
    sprintf02x_beBytes hc hlc, sprintf02x_beBytes hd hld, sprintf02x_beBytes he hle]
  have hhyphen' : tolower 45 = 45 := by decide
  simp only [List.map_append, List.map_cons, hhyphen']

end MiniPi.Gpt
