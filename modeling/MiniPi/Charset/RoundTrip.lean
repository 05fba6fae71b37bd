import MiniPi.Charset.Basic

/-!
# Round trips between UTF-8 and UTF-16

What the coders do with one code point is said once, for any units behind it; the strings follow by
induction over the code points.  `utf16_get` refuses the low surrogates `0xDC00` and `0xDFFF`, so
the code points that need one of them are lost.
-/

namespace MiniPi.Charset

/-- A Unicode scalar value other than 0. -/
structure Scalar where
  /-- The code point. -/
  code : ℕ
  pos : 0 < code
  lt : code < 0x110000
  notSurrogate : ¬ (0xD800 ≤ code ∧ code ≤ 0xDFFF)

namespace Scalar

/-- The bytes of a code point. -/
def utf8 (c : Scalar) : Str8 := (utf8Put c.code).getD []

/-- The units of a code point. -/
def utf16 (c : Scalar) : Str16 := (utf16Put c.code).getD []

/-- The low surrogate of the code point is one that `utf16_get` refuses. -/
def Lost (c : Scalar) : Prop := 0x10000 ≤ c.code ∧ (c.code % 1024 = 0 ∨ c.code % 1024 = 1023)

instance (c : Scalar) : Decidable c.Lost := inferInstanceAs (Decidable (_ ∧ _))

/-- The code point that `utf16_get` gives back. -/
def reread (c : Scalar) : Option ℕ := if c.Lost then none else some c.code

theorem refused_eq (c : Scalar) : refused c.code = false := by
  have := c.notSurrogate
  have := c.lt
  simp only [refused, decide_eq_false_iff_not]
  omega

end Scalar

/-! ## Bits -/

theorem and_0x3f (n : ℕ) : n &&& 0x3f = n % 64 := Nat.and_two_pow_sub_one_eq_mod n 6

theorem and_0x3ff (n : ℕ) : n &&& 0x3ff = n % 1024 := Nat.and_two_pow_sub_one_eq_mod n 10

theorem or_mark {n k : ℕ} (h : n < 2 ^ k) (a : ℕ) : n ||| a <<< k = a * 2 ^ k + n := by
  rw [Nat.or_comm, ← Nat.shiftLeft_add_eq_or_of_lt h, Nat.shiftLeft_eq]

theorem toNat_mark8 {n k a : ℕ} (h : n < 2 ^ k) (ha : a * 2 ^ k + n < 256) :
    (UInt8.ofNat (n ||| a <<< k)).toNat = a * 2 ^ k + n := by
  rw [or_mark h, UInt8.toNat_ofNat', Nat.mod_eq_of_lt ha]

theorem toNat_mark16 {n k a : ℕ} (h : n < 2 ^ k) (ha : a * 2 ^ k + n < 65536) :
    (UInt16.ofNat (n ||| a <<< k)).toNat = a * 2 ^ k + n := by
  rw [or_mark h, UInt16.toNat_ofNat', Nat.mod_eq_of_lt ha]

theorem toNat_tail (n : ℕ) : (UInt8.ofNat ((n &&& 0x3F) ||| 0x80)).toNat = 128 + n % 64 := by
  rw [and_0x3f]
  exact @toNat_mark8 (n % 64) 6 2 (by omega) (by omega)

/-! ## One code point in UTF-8 -/

theorem readString_cons {b : UInt8} {rest : Str8} {n : ℕ} (hb : b.toNat = n) (hn : n ≠ 0) :
    readString (b :: rest) = (n, rest) := by
  have hne : b ≠ 0 := by
    rintro rfl
    exact hn hb.symm
  rw [readString, if_neg hne, hb]

theorem badTail_eq (n : ℕ) : badTail (128 + n % 64) = false := by
  simp only [badTail, decide_eq_false_iff_not]
  omega

/-- The last two bytes are read. -/
theorem getCodeTail_eq {code n : ℕ} (ch : ℕ) {b : UInt8} {rest : Str8}
    (hb : b.toNat = 128 + n % 64) :
    getCodeTail code ch (b :: rest) = (n % 64 + (code + ch % 64 * 64), rest) := by
  have hmod : (128 + n % 64) % 64 = n % 64 := by omega
  simp only [getCodeTail, readString_cons hb (by omega), badTail_eq, and_0x3f, hmod,
    Nat.shiftLeft_eq]
  rfl

/-- The last three bytes are read. -/
theorem getCodeMiddle_eq {code ch n : ℕ} {b b' : UInt8} {rest : Str8}
    (hcode : ¬ ((0xD800 ≤ code + ch * 2 ^ 12 ∧ code + ch * 2 ^ 12 ≤ 0xDFFF) ∨
      0x110000 ≤ code + ch * 2 ^ 12))
    (hb : b.toNat = 128 + n / 64 % 64) (hb' : b'.toNat = 128 + n % 64) :
    getCodeMiddle code ch (b :: b' :: rest) =
      (n % 64 + (code + ch * 2 ^ 12 + n / 64 % 64 * 64), rest) := by
  have hmod : (128 + n / 64 % 64) % 64 = n / 64 % 64 := by omega
  simp only [getCodeMiddle, Nat.shiftLeft_eq, if_neg hcode, readString_cons hb (by omega),
    badTail_eq, getCodeTail_eq _ hb', hmod]
  rfl

namespace Scalar

/-- The bytes of a code point, by its size. -/
theorem utf8_eq (c : Scalar) :
    c.utf8 =
      if c.code ≤ 0x7F then [.ofNat c.code]
      else if c.code ≤ 0x7FF then
        [.ofNat (c.code >>> 6 ||| 0xC0), .ofNat ((c.code &&& 0x3F) ||| 0x80)]
      else if c.code < 0x10000 then
        [.ofNat (c.code >>> 12 ||| 0xE0), .ofNat ((c.code >>> 6 &&& 0x3F) ||| 0x80),
          .ofNat ((c.code &&& 0x3F) ||| 0x80)]
      else
        [.ofNat (c.code >>> 18 ||| 0xF0), .ofNat ((c.code >>> 12 &&& 0x3F) ||| 0x80),
          .ofNat ((c.code >>> 6 &&& 0x3F) ||| 0x80), .ofNat ((c.code &&& 0x3F) ||| 0x80)] := by
  rw [utf8, utf8Put, c.refused_eq, if_neg (by decide)]
  split_ifs <;> rfl

/-- `utf8_get` gives the code point back. -/
theorem utf8Get_utf8 (c : Scalar) (rest : Str8) :
    utf8Get (c.utf8 ++ rest) = (some c.code, rest) := by
  have hpos := c.pos
  have hlt := c.lt
  have hsur := c.notSurrogate
  suffices h : getCode (c.utf8 ++ rest) = (c.code, rest) by rw [utf8Get, h]
  have htail := toNat_tail c.code
  have htail' : (UInt8.ofNat ((c.code >>> 6 &&& 0x3F) ||| 0x80)).toNat =
      128 + c.code / 64 % 64 := by
    rw [toNat_tail, Nat.shiftRight_eq_div_pow]
  have htail'' : (UInt8.ofNat ((c.code >>> 12 &&& 0x3F) ||| 0x80)).toNat =
      128 + c.code / 4096 % 64 := by
    rw [toNat_tail, Nat.shiftRight_eq_div_pow]
  rw [utf8_eq]
  by_cases h1 : c.code ≤ 0x7F
  · have hb : (UInt8.ofNat c.code).toNat = c.code := by
      rw [UInt8.toNat_ofNat', Nat.mod_eq_of_lt (by omega)]
    rw [if_pos h1, List.singleton_append, getCode, readString_cons hb (by omega)]
    dsimp only
    rw [if_neg (by omega), if_neg (by omega), if_neg (by omega)]
  rw [if_neg h1]
  by_cases h2 : c.code ≤ 0x7FF
  · have hb : (UInt8.ofNat (c.code >>> 6 ||| 0xC0)).toNat = 192 + c.code / 64 := by
      rw [Nat.shiftRight_eq_div_pow]
      exact @toNat_mark8 (c.code / 64) 6 3 (by omega) (by omega)
    rw [if_pos h2, List.cons_append, List.singleton_append, getCode,
      readString_cons hb (by omega)]
    dsimp only
    rw [if_neg (by omega), if_pos (by omega), if_neg (by omega), getCodeTail_eq _ htail]
    congr 1
    omega
  rw [if_neg h2]
  by_cases h3 : c.code < 0x10000
  · have hb : (UInt8.ofNat (c.code >>> 12 ||| 0xE0)).toNat = 224 + c.code / 4096 := by
      rw [Nat.shiftRight_eq_div_pow]
      exact @toNat_mark8 (c.code / 4096) 5 7 (by omega) (by omega)
    have hbits : (224 + c.code / 4096) &&& 0x0f = c.code / 4096 := by
      rw [show 0x0f = 2 ^ 4 - 1 from rfl, Nat.and_two_pow_sub_one_eq_mod]
      omega
    rw [if_pos h3, List.cons_append, List.cons_append, List.singleton_append, getCode,
      readString_cons hb (by omega)]
    dsimp only
    rw [if_neg (by omega), if_pos (by omega), if_pos (by omega), if_neg (by omega), hbits,
      getCodeMiddle_eq (by omega) htail' htail]
    congr 1
    omega
  · have hb : (UInt8.ofNat (c.code >>> 18 ||| 0xF0)).toNat = 240 + c.code / 2 ^ 18 := by
      rw [Nat.shiftRight_eq_div_pow]
      exact @toNat_mark8 (c.code / 2 ^ 18) 4 15 (by omega) (by omega)
    have hbits : (240 + c.code / 2 ^ 18) &&& 0x07 = c.code / 2 ^ 18 := by
      rw [show 0x07 = 2 ^ 3 - 1 from rfl, Nat.and_two_pow_sub_one_eq_mod]
      omega
    rw [if_neg h3, List.cons_append, List.cons_append, List.cons_append, List.singleton_append,
      getCode, readString_cons hb (by omega)]
    dsimp only
    rw [if_neg (by omega), if_pos (by omega), if_pos (by omega), if_pos (by omega), hbits,
      readString_cons htail'' (by omega)]
    dsimp only
    have hbits' : (128 + c.code / 4096 % 64) &&& 0x3f = c.code / 4096 % 64 := by
      rw [and_0x3f]
      omega
    rw [badTail_eq, hbits', Nat.shiftLeft_eq, if_neg (by decide),
      getCodeMiddle_eq (by omega) htail' htail]
    congr 1
    omega

theorem headD_utf8 (c : Scalar) (rest : Str8) : (c.utf8 ++ rest).headD 0 ≠ 0 := by
  intro h
  have hpos := c.pos
  have hget := c.utf8Get_utf8 rest
  have hread : readString (c.utf8 ++ rest) = (0, c.utf8 ++ rest) := by
    cases hs : c.utf8 ++ rest with
    | nil => rfl
    | cons b s =>
        rw [hs] at h
        rw [readString, if_pos (show b = 0 from h)]
  have hzero : utf8Get (c.utf8 ++ rest) = (some 0, c.utf8 ++ rest) := by
    rw [utf8Get, getCode, hread]
    rfl
  rw [hget, Prod.mk.injEq, Option.some.injEq] at hzero
  omega

/-! ## One code point in UTF-16 -/

/-- The units of a code point, by its size. -/
theorem utf16_eq (c : Scalar) :
    c.utf16 =
      if c.code < 0x10000 then [.ofNat c.code]
      else
        [.ofNat ((c.code - 0x10000) >>> 10 ||| 0xD800),
          .ofNat (((c.code - 0x10000) &&& 0x3ff) ||| 0xDC00)] := by
  rw [utf16, utf16Put, c.refused_eq, if_neg (by decide)]
  split_ifs <;> rfl

theorem length_utf16 (c : Scalar) : c.utf16.length = if c.code < 0x10000 then 1 else 2 := by
  rw [utf16_eq]
  split_ifs <;> rfl

/-- `utf16_get` gives the code point back, or -1 if it is lost. -/
theorem utf16Get_utf16 (c : Scalar) (rest : Str16) :
    utf16Get (c.utf16 ++ rest) = (c.reread, rest) := by
  have hpos := c.pos
  have hlt := c.lt
  have hsur := c.notSurrogate
  rw [utf16_eq]
  by_cases h1 : c.code < 0x10000
  · have hb : (UInt16.ofNat c.code).toNat = c.code := by
      rw [UInt16.toNat_ofNat', Nat.mod_eq_of_lt (by omega)]
    have hkept : ¬ c.Lost := fun h ↦ by
      have := h.1
      omega
    rw [if_pos h1, List.singleton_append, utf16Get, hb, reread, if_neg hkept]
    dsimp only
    rw [if_neg (by omega), if_neg (by omega), if_neg (by omega)]
  · have hhigh : (UInt16.ofNat ((c.code - 0x10000) >>> 10 ||| 0xD800)).toNat =
        0xD800 + (c.code - 0x10000) / 1024 := by
      rw [Nat.shiftRight_eq_div_pow]
      exact @toNat_mark16 ((c.code - 0x10000) / 1024) 11 27 (by omega) (by omega)
    have hlow : (UInt16.ofNat (((c.code - 0x10000) &&& 0x3ff) ||| 0xDC00)).toNat =
        0xDC00 + (c.code - 0x10000) % 1024 := by
      rw [and_0x3ff]
      exact @toNat_mark16 ((c.code - 0x10000) % 1024) 10 55 (by omega) (by omega)
    have hmod : (0xDC00 + (c.code - 0x10000) % 1024) % 1024 = (c.code - 0x10000) % 1024 := by omega
    rw [if_neg h1, List.cons_append, List.singleton_append, utf16Get, hhigh]
    dsimp only
    rw [if_neg (by omega), if_neg (by omega), if_pos (by omega), List.headD_cons, hlow,
      if_neg (by omega), List.tail_cons, reread]
    by_cases hlost : c.Lost
    · have := hlost.2
      rw [if_pos (by omega), if_pos hlost]
    · have hlow' : ¬ (c.code % 1024 = 0 ∨ c.code % 1024 = 1023) := fun h ↦
        hlost ⟨by omega, h⟩
      rw [if_neg (by omega), if_neg hlost, and_0x3ff, and_0x3ff, hmod, Nat.shiftLeft_eq,
        Prod.mk.injEq, Option.some.injEq]
      exact ⟨by omega, rfl⟩

theorem headD_utf16 (c : Scalar) (rest : Str16) : (c.utf16 ++ rest).headD 0 ≠ 0 := by
  intro h
  have hpos := c.pos
  have hget := c.utf16Get_utf16 rest
  have hzero : utf16Get (c.utf16 ++ rest) = (some 0, c.utf16 ++ rest) := by
    cases hs : c.utf16 ++ rest with
    | nil => rfl
    | cons u s =>
        rw [hs] at h
        have hu : u = 0 := h
        rw [utf16Get, hu]
        rfl
  rw [hget, Prod.mk.injEq, reread] at hzero
  obtain ⟨hzero, -⟩ := hzero
  split at hzero
  · cases hzero
  · rw [Option.some.injEq] at hzero
    omega

/-- The bytes that the conversion back gives for a code point. -/
def converted (c : Scalar) : Str8 := if c.Lost then [0x3f] else c.utf8

theorem utf8Put_reread (c : Scalar) :
    (utf8Put (c.reread.getD '?'.toNat)).getD [] = c.converted := by
  unfold reread converted
  split
  · rfl
  · rfl

/-- The length that the conversion back reserves for a code point is the one it needs. -/
theorem length_converted (c : Scalar) :
    c.converted.length =
      match c.reread with
      | none => 1
      | some code =>
        if code < 0x80 then 1 else if code < 0x800 then 2 else if code < 0x10000 then 3 else 4 := by
  unfold converted reread
  split
  · rfl
  · dsimp only
    rw [utf8_eq]
    split_ifs <;> first | rfl | omega

theorem length_converted_lt {c : Scalar} (h : c.Lost) : c.converted.length < c.utf8.length := by
  have := h.1
  rw [converted, if_pos h, utf8_eq, if_neg (by omega), if_neg (by omega), if_neg (by omega)]
  simp

theorem length_converted_le (c : Scalar) : c.converted.length ≤ c.utf8.length := by
  by_cases h : c.Lost
  · exact (length_converted_lt h).le
  · rw [converted, if_neg h]

end Scalar

/-! ## Strings -/

/-- The UTF-8 encoding of a string, by `utf8_put`. -/
def utf8 (cs : List Scalar) : Str8 := cs.flatMap Scalar.utf8

/-- The UTF-16 encoding of a string, by `utf16_put`. -/
def utf16 (cs : List Scalar) : Str16 := cs.flatMap Scalar.utf16

variable {cs : List Scalar} {n : ℕ}

theorem utf8Utf16Strncpy_utf8 (h : cs.length ≤ n) : utf8Utf16Strncpy (utf8 cs) n = utf16 cs := by
  induction cs generalizing n with
  | nil => cases n <;> rfl
  | cons c cs ih =>
      obtain ⟨n, rfl⟩ : ∃ k, n = k + 1 := ⟨n - 1, by rw [List.length_cons] at h; omega⟩
      rw [List.length_cons, Nat.add_le_add_iff_right] at h
      rw [utf8, List.flatMap_cons, utf8Utf16Strncpy, if_neg (c.headD_utf8 _), c.utf8Get_utf8]
      exact congrArg (c.utf16 ++ ·) (ih h)

theorem utf8Utf16Strnlen_utf8 (h : cs.length ≤ n) :
    utf8Utf16Strnlen (utf8 cs) n = (utf16 cs).length := by
  induction cs generalizing n with
  | nil => cases n <;> rfl
  | cons c cs ih =>
      have hpos := c.pos
      obtain ⟨n, rfl⟩ : ∃ k, n = k + 1 := ⟨n - 1, by rw [List.length_cons] at h; omega⟩
      rw [List.length_cons, Nat.add_le_add_iff_right] at h
      rw [utf8, List.flatMap_cons, utf8Utf16Strnlen, if_neg (c.headD_utf8 _), c.utf8Get_utf8,
        utf16, List.flatMap_cons, List.length_append, c.length_utf16]
      dsimp only
      rw [if_neg (by omega)]
      exact congrArg _ (ih h)

theorem utf16Utf8Strncpy_utf16 (h : cs.length ≤ n) :
    utf16Utf8Strncpy (utf16 cs) n = cs.flatMap Scalar.converted := by
  induction cs generalizing n with
  | nil => cases n <;> rfl
  | cons c cs ih =>
      obtain ⟨n, rfl⟩ : ∃ k, n = k + 1 := ⟨n - 1, by rw [List.length_cons] at h; omega⟩
      rw [List.length_cons, Nat.add_le_add_iff_right] at h
      rw [utf16, List.flatMap_cons, utf16Utf8Strncpy, if_neg (c.headD_utf16 _),
        c.utf16Get_utf16]
      change (utf8Put (c.reread.getD '?'.toNat)).getD [] ++ _ = _
      rw [c.utf8Put_reread, List.flatMap_cons]
      exact congrArg _ (ih h)

theorem utf16Utf8Strnlen_utf16 (h : cs.length ≤ n) :
    utf16Utf8Strnlen (utf16 cs) n = (cs.flatMap Scalar.converted).length := by
  induction cs generalizing n with
  | nil => cases n <;> rfl
  | cons c cs ih =>
      have hpos := c.pos
      obtain ⟨n, rfl⟩ : ∃ k, n = k + 1 := ⟨n - 1, by rw [List.length_cons] at h; omega⟩
      rw [List.length_cons, Nat.add_le_add_iff_right] at h
      rw [utf16, List.flatMap_cons, utf16Utf8Strnlen, if_neg (c.headD_utf16 _),
        c.utf16Get_utf16, List.flatMap_cons, List.length_append, c.length_converted,
        ← ih h, utf16, Scalar.reread]
      by_cases hlost : c.Lost
      · rw [if_pos hlost]
      · rw [if_neg hlost]
        dsimp only
        rw [if_neg (by omega)]

/-- The conversion back gives as many bytes only if no code point is lost. -/
theorem flatMap_converted_eq_iff :
    cs.flatMap Scalar.converted = utf8 cs ↔ ∀ c ∈ cs, ¬ c.Lost := by
  constructor
  · intro h c hc hlost
    have hlen := congrArg List.length h
    rw [utf8, List.length_flatMap, List.length_flatMap] at hlen
    refine hlen.not_lt (List.sum_lt_sum _ _ (fun c _ ↦ c.length_converted_le) ⟨c, hc, ?_⟩)
    exact Scalar.length_converted_lt hlost
  · intro h
    refine List.flatMap_congr fun c hc ↦ ?_
    rw [Scalar.converted, if_neg (h c hc)]

/-- The string comes back from UTF-16, and both lengths are the numbers of units written. -/
def RoundTrips (cs : List Scalar) : Prop :=
  ∀ n m, cs.length ≤ n → cs.length ≤ m →
    utf16Utf8Strncpy (utf8Utf16Strncpy (utf8 cs) n) m = utf8 cs ∧
      utf8Utf16Strnlen (utf8 cs) n = (utf8Utf16Strncpy (utf8 cs) n).length ∧
      utf16Utf8Strnlen (utf8Utf16Strncpy (utf8 cs) n) m =
        (utf16Utf8Strncpy (utf8Utf16Strncpy (utf8 cs) n) m).length

/-- A string makes the round trip exactly when no code point of it is lost. -/
theorem roundTrips_iff_kept (cs : List Scalar) : RoundTrips cs ↔ ∀ c ∈ cs, ¬ c.Lost := by
  rw [← flatMap_converted_eq_iff]
  constructor
  · intro h
    obtain ⟨hback, -, -⟩ := h cs.length cs.length le_rfl le_rfl
    rw [utf8Utf16Strncpy_utf8 le_rfl, utf16Utf8Strncpy_utf16 le_rfl] at hback
    exact hback
  · intro h n m hn hm
    rw [utf8Utf16Strncpy_utf8 hn, utf16Utf8Strncpy_utf16 hm]
    exact ⟨h, utf8Utf16Strnlen_utf8 hn, utf16Utf8Strnlen_utf16 hm⟩

/-- The first code point that needs a pair of surrogates is lost. -/
theorem not_roundTrips_lost :
    ¬ RoundTrips [⟨0x10000, by decide, by decide, by decide⟩] := by
  intro h
  exact absurd (h 1 1 le_rfl le_rfl).1 (by decide)

end MiniPi.Charset
