import MiniPi.Charset.RoundTrip

/-!
# Lengths of conversions

`utf8_utf16_strnlen` and `utf16_utf8_strnlen` tell how much room a conversion needs.  Both loops of
a conversion walk over the same code points; they differ at a code point 0 that is encoded in more
than one byte, which ends the count but not the copy.
-/

namespace MiniPi.Charset

/-! ## From UTF-8 -/

/-- The code points that `utf8_get` reads, `count` of them at most. -/
def codes (src : Str8) : ℕ → List ℕ
  | 0 => []
  | count + 1 => if src.headD 0 = 0 then [] else (getCode src).1 :: codes (getCode src).2 count

/-- The units that `utf16_put` stores. -/
def stored (code : ℕ) : ℕ := ((utf16Put code).getD []).length

/-- The units that `utf8_utf16_strnlen` reserves. -/
def reserved (code : ℕ) : ℕ := if code < 0x10000 then 1 else 2

/-- A code point that is reserved for in a UTF-8 string but not stored. -/
def IsSurrogate (code : ℕ) : Prop := 0xD800 ≤ code ∧ code ≤ 0xDFFF

instance : DecidablePred IsSurrogate := fun _ ↦ inferInstanceAs (Decidable (_ ∧ _))

theorem length_utf8Utf16Strncpy (src : Str8) (count : ℕ) :
    (utf8Utf16Strncpy src count).length = ((codes src count).map stored).sum := by
  induction count generalizing src with
  | zero => rfl
  | succ count ih =>
      rw [utf8Utf16Strncpy, codes]
      by_cases hend : src.headD 0 = 0
      · rw [if_pos hend, if_pos hend]
        rfl
      · rw [if_neg hend, if_neg hend, List.map_cons, List.sum_cons, ← ih]
        exact List.length_append

theorem utf8Utf16Strnlen_eq (src : Str8) (count : ℕ) :
    utf8Utf16Strnlen src count = (((codes src count).takeWhile (· ≠ 0)).map reserved).sum := by
  induction count generalizing src with
  | zero => rfl
  | succ count ih =>
      rw [utf8Utf16Strnlen, codes]
      by_cases hend : src.headD 0 = 0
      · rw [if_pos hend, if_pos hend]
        rfl
      · rw [if_neg hend, if_neg hend]
        change (if (getCode src).1 = 0 then 0
          else reserved (getCode src).1 + utf8Utf16Strnlen (getCode src).2 count) = _
        by_cases hzero : (getCode src).1 = 0
        · rw [if_pos hzero, List.takeWhile_cons_of_neg (by simpa using hzero)]
          rfl
        · rw [if_neg hzero, List.takeWhile_cons_of_pos (by simpa using hzero), List.map_cons,
            List.sum_cons, ih]

/-! ## What is read -/

theorem readString_lt (src : Str8) : (readString src).1 < 256 := by
  cases src with
  | nil => exact Nat.zero_lt_succ _
  | cons c src =>
      rw [readString]
      split_ifs
      · exact Nat.zero_lt_succ _
      · exact c.toNat_lt

theorem getCodeTail_lt {code ch : ℕ} (src : Str8) (h : code + 0x1000 ≤ 0x110000) :
    (getCodeTail code ch src).1 < 0x110000 := by
  have hch : (ch &&& 0x3f) <<< 6 ≤ 0xfc0 := by
    rw [and_0x3f, Nat.shiftLeft_eq]
    omega
  have hlast : (readString src).1 &&& 0x3f < 64 := by
    rw [and_0x3f]
    exact Nat.mod_lt _ (by decide)
  simp only [getCodeTail]
  split_ifs
  · exact (by decide : '?'.toNat < 0x110000)
  · dsimp only
    omega

theorem getCodeMiddle_lt {code ch : ℕ} (src : Str8) (hcode : 2 ^ 12 ∣ code) :
    (getCodeMiddle code ch src).1 < 0x110000 := by
  simp only [getCodeMiddle, Nat.shiftLeft_eq]
  split_ifs with hbad hcont
  · exact (by decide : '?'.toNat < 0x110000)
  · exact (by decide : '?'.toNat < 0x110000)
  · exact getCodeTail_lt _ (by omega)

theorem getCode_lt (src : Str8) : (getCode src).1 < 0x110000 := by
  have hread := readString_lt src
  have hshift : 2 ^ 12 ∣ ((readString src).1 &&& 0x07) <<< 18 := by
    rw [Nat.shiftLeft_eq]
    exact Dvd.dvd.mul_left (by decide) _
  simp only [getCode]
  split_ifs
  · exact Nat.zero_lt_succ _
  · exact (by decide : '?'.toNat < 0x110000)
  · exact getCodeMiddle_lt _ hshift
  · exact getCodeMiddle_lt _ (Nat.dvd_zero _)
  · exact getCodeTail_lt _ (by decide)
  · exact (by decide : '?'.toNat < 0x110000)
  · dsimp only
    omega

theorem mem_codes_lt {src : Str8} {count code : ℕ} (h : code ∈ codes src count) :
    code < 0x110000 := by
  induction count generalizing src with
  | zero => cases h
  | succ count ih =>
      rw [codes] at h
      split_ifs at h
      · cases h
      · obtain rfl | h := List.mem_cons.mp h
        · exact getCode_lt src
        · exact ih h

/-- Nothing is stored for a surrogate, and what is reserved for any other code point. -/
theorem stored_add_surrogate {code : ℕ} (h : code < 0x110000) :
    stored code + (if IsSurrogate code then 1 else 0) = reserved code := by
  by_cases hs : IsSurrogate code
  · have hr : refused code = true := decide_eq_true (.inl hs)
    have hlt : code < 0x10000 := Nat.lt_of_le_of_lt hs.2 (by decide)
    rw [stored, utf16Put, if_pos hr, if_pos hs, reserved, if_pos hlt]
    rfl
  · have hr : ¬refused code = true := by
      rw [refused, decide_eq_true_iff, not_or]
      exact ⟨hs, Nat.not_le.mpr h⟩
    rw [stored, utf16Put, if_neg hr, if_neg hs, reserved]
    split_ifs
    · rfl
    · rfl

theorem sum_stored_add_surrogates {cs : List ℕ} (h : ∀ code ∈ cs, code < 0x110000) :
    (cs.map stored).sum + cs.countP (IsSurrogate ·) = (cs.map reserved).sum := by
  induction cs with
  | nil => rfl
  | cons code cs ih =>
      obtain ⟨hcode, hcs⟩ := List.forall_mem_cons.mp h
      have hone := stored_add_surrogate hcode
      have hrest := ih hcs
      rw [List.map_cons, List.sum_cons, List.map_cons, List.sum_cons, List.countP_cons]
      simp only [decide_eq_true_eq]
      omega

/-! ## From UTF-16 -/

/-- A code point that is read from a string that has not ended is not 0. -/
theorem utf16Get_ne_zero {src : Str16} (h : src.headD 0 ≠ 0) : (utf16Get src).1 ≠ some 0 := by
  cases src with
  | nil => exact absurd rfl h
  | cons u src =>
      have hu : u.toNat ≠ 0 := fun hz ↦ h (UInt16.toNat_inj.mp hz)
      rw [utf16Get]
      dsimp only
      rw [if_neg hu]
      split_ifs
      · rintro ⟨⟩
      · rintro ⟨⟩
      · rintro ⟨⟩
      · rw [Ne, Option.some.injEq, Nat.shiftLeft_eq]
        omega
      · rw [Ne, Option.some.injEq]
        exact hu

theorem length_utf8Put_le (code : ℕ) :
    ((utf8Put code).getD []).length ≤
      if code < 0x80 then 1 else if code < 0x800 then 2 else if code < 0x10000 then 3 else 4 := by
  rw [utf8Put]
  split_ifs <;> first | omega | exact Nat.zero_le _ | exact le_rfl

theorem length_utf16Utf8Strncpy_le (src : Str16) (count : ℕ) :
    (utf16Utf8Strncpy src count).length ≤ utf16Utf8Strnlen src count := by
  induction count generalizing src with
  | zero => exact le_rfl
  | succ count ih =>
      rw [utf16Utf8Strncpy, utf16Utf8Strnlen]
      by_cases hend : src.headD 0 = 0
      · rw [if_pos hend, if_pos hend]
        exact le_rfl
      · rw [if_neg hend, if_neg hend]
        have hne := utf16Get_ne_zero hend
        generalize utf16Get src = r at hne ⊢
        obtain ⟨code, rest⟩ := r
        change ((utf8Put (code.getD '?'.toNat)).getD [] ++ utf16Utf8Strncpy rest count).length ≤ _
        rw [List.length_append]
        cases code with
        | none => exact Nat.add_le_add (length_utf8Put_le _) (ih rest)
        | some code =>
            have hcode : code ≠ 0 := fun hz ↦ hne (congrArg some hz)
            dsimp only
            rw [if_neg hcode]
            exact Nat.add_le_add (length_utf8Put_le code) (ih rest)

/-! ## Both -/

/-- The first code point 0 that is read, if there is one, stands behind as many surrogates as
units are stored from it on. -/
def Covered (src : Str8) (count : ℕ) : Prop :=
  (((codes src count).dropWhile (· ≠ 0)).map stored).sum ≤
    ((codes src count).takeWhile (· ≠ 0)).countP (IsSurrogate ·)

/-- The conversion to UTF-16 keeps to its length function exactly if the string is covered; the
conversion to UTF-8 always does. -/
theorem conversions_bounded_iff (src : Str8) (src16 : Str16) (count : ℕ) :
    ((utf8Utf16Strncpy src count).length ≤ utf8Utf16Strnlen src count ↔ Covered src count) ∧
      (utf16Utf8Strncpy src16 count).length ≤ utf16Utf8Strnlen src16 count := by
  refine ⟨?_, length_utf16Utf8Strncpy_le src16 count⟩
  have hlt : ∀ code ∈ (codes src count).takeWhile (· ≠ 0), code < 0x110000 :=
    fun code hcode ↦ mem_codes_lt ((List.takeWhile_sublist _).subset hcode)
  have hsplit : ((codes src count).map stored).sum =
      (((codes src count).takeWhile (· ≠ 0)).map stored).sum +
        (((codes src count).dropWhile (· ≠ 0)).map stored).sum := by
    rw [← List.sum_append, ← List.map_append, List.takeWhile_append_dropWhile]
  rw [length_utf8Utf16Strncpy, utf8Utf16Strnlen_eq, ← sum_stored_add_surrogates hlt, hsplit,
    Nat.add_le_add_iff_left, Covered]

/-- The overlong zero ends the count, and the text behind it is stored all the same. -/
theorem not_conversions_bounded_overlong :
    ¬(utf8Utf16Strncpy [0xE0, 0x80, 0x80, 0x61] 4).length ≤
      utf8Utf16Strnlen [0xE0, 0x80, 0x80, 0x61] 4 := by
  decide

end MiniPi.Charset
