import MiniPi.Charset.RoundTrip

/-!
# `utf16_to_utf8`

The loop makes one turn for each unit.  A high surrogate is kept for the next turn, and a unit that
cannot follow it is looked at again, but the turn is spent: each such error takes a unit away from
the end of the array.  A high surrogate that is kept at the end is dropped.
-/

namespace MiniPi.Charset

/-- The four bytes of a code point behind the basic plane. -/
def fourBytes (code : ℕ) : Str8 :=
  [.ofNat (code >>> 18 ||| 0xF0), .ofNat ((code >>> 12 &&& 0x3F) ||| 0x80),
    .ofNat ((code >>> 6 &&& 0x3F) ||| 0x80), .ofNat ((code &&& 0x3F) ||| 0x80)]

/-- The loop of `utf16_to_utf8` for the next `size` turns, with the unit at `pos` to be read next.
The result is what is stored; `none` is a read behind the array. -/
def utf16ToUtf8Loop (src : Str16) : ℕ → ℕ → ℕ → Option Str8
  | 0, _, _ => some []
  | size + 1, codeHigh, pos => do
    let unit ← src[pos]?
    let code := unit.toNat
    if codeHigh ≠ 0 then
      if 0xDC00 ≤ code ∧ code ≤ 0xDFFF then
        let code := (codeHigh - 0xD800) <<< 10 + (code - 0xDC00) + 0x10000
        (fourBytes code ++ ·) <$> utf16ToUtf8Loop src size 0 (pos + 1)
      else (.ofNat '?'.toNat :: ·) <$> utf16ToUtf8Loop src size 0 pos
    else if code ≤ 0x007F then ([.ofNat code] ++ ·) <$> utf16ToUtf8Loop src size 0 (pos + 1)
    else if code ≤ 0x07FF then
      ([.ofNat (code >>> 6 ||| 0xC0), .ofNat ((code &&& 0x3F) ||| 0x80)] ++ ·) <$>
        utf16ToUtf8Loop src size 0 (pos + 1)
    else if 0xD800 ≤ code ∧ code ≤ 0xDBFF then utf16ToUtf8Loop src size code (pos + 1)
    else if 0xDC00 ≤ code ∧ code ≤ 0xDFFF then
      (.ofNat '?'.toNat :: ·) <$> utf16ToUtf8Loop src size 0 (pos + 1)
    else if code < 0x10000 then
      ([.ofNat (code >>> 12 ||| 0xE0), .ofNat ((code >>> 6 &&& 0x3F) ||| 0x80),
        .ofNat ((code &&& 0x3F) ||| 0x80)] ++ ·) <$> utf16ToUtf8Loop src size 0 (pos + 1)
    else (fourBytes code ++ ·) <$> utf16ToUtf8Loop src size 0 (pos + 1)

/-- `utf16_to_utf8`, for an array of `size` units. -/
def utf16ToUtf8 (src : Str16) : Option Str8 := utf16ToUtf8Loop src src.length 0 0

/-! ## The characters of an array -/

/-- A high surrogate. -/
def High (u : UInt16) : Prop := 0xD800 ≤ u.toNat ∧ u.toNat ≤ 0xDBFF

/-- A low surrogate. -/
def Low (u : UInt16) : Prop := 0xDC00 ≤ u.toNat ∧ u.toNat ≤ 0xDFFF

instance : DecidablePred High := fun _ ↦ inferInstanceAs (Decidable (_ ∧ _))

instance : DecidablePred Low := fun _ ↦ inferInstanceAs (Decidable (_ ∧ _))

/-- The character of a surrogate pair. -/
def pairChar (u v : UInt16) : Char :=
  .ofNat ((u.toNat - 0xD800) * 0x400 + (v.toNat - 0xDC00) + 0x10000)

/-- The scalar values of an array, in order; an unpaired surrogate is `none`. -/
def scalars : Str16 → List (Option Char)
  | [] => []
  | [u] => if High u ∨ Low u then [none] else [some (.ofNat u.toNat)]
  | u :: v :: src =>
    if High u then
      if Low v then some (pairChar u v) :: scalars src else none :: scalars (v :: src)
    else if Low u then none :: scalars (v :: src)
    else some (.ofNat u.toNat) :: scalars (v :: src)

/-- What stands for a scalar value in UTF-8. -/
def encoded : Option Char → Str8
  | none => [.ofNat '?'.toNat]
  | some c => String.utf8EncodeChar c

/-- The scalar values of an array in UTF-8. -/
def encodedScalars (src : Str16) : Str8 := (scalars src).flatMap encoded

/-- Each high surrogate is directly followed by a low one. -/
def HighsPaired (src : Str16) : Prop :=
  ∀ i u, src[i]? = some u → High u → ∃ v, src[i + 1]? = some v ∧ Low v

section Scalars

variable {u v : UInt16} {src : Str16}

theorem scalars_single (hu : ¬High u) :
    scalars (u :: src) = (if Low u then none else some (.ofNat u.toNat)) :: scalars src := by
  rcases src with _ | ⟨v, src⟩
  · by_cases hlow : Low u <;> simp [scalars, hu, hlow]
  · rw [scalars, if_neg hu]
    split_ifs <;> rfl

theorem scalars_pair (hu : High u) (hv : Low v) :
    scalars (u :: v :: src) = some (pairChar u v) :: scalars src := by
  rw [scalars, if_pos hu, if_pos hv]

theorem scalars_unpaired (hu : High u) (hv : ¬Low v) :
    scalars (u :: v :: src) = none :: scalars (v :: src) := by
  rw [scalars, if_pos hu, if_neg hv]

theorem scalars_ne_nil : scalars (u :: src) ≠ [] := by
  rcases src with _ | ⟨v, src⟩
  · rw [scalars]
    split_ifs <;> simp
  · rw [scalars]
    split_ifs <;> simp

theorem encoded_ne_nil (c : Option Char) : encoded c ≠ [] := by
  cases c with
  | none => simp [encoded]
  | some c => exact String.utf8EncodeChar_ne_nil

theorem length_encodedScalars_pos : 0 < (encodedScalars (u :: src)).length := by
  rw [encodedScalars]
  cases hs : scalars (u :: src) with
  | nil => exact absurd hs scalars_ne_nil
  | cons c cs =>
      have := List.length_pos_of_ne_nil (encoded_ne_nil c)
      rw [List.flatMap_cons, List.length_append]
      omega

theorem HighsPaired.nil : HighsPaired [] := by
  intro i u hu
  simp at hu

theorem highsPaired_cons :
    HighsPaired (u :: src) ↔ (High u → ∃ v, src[0]? = some v ∧ Low v) ∧ HighsPaired src := by
  constructor
  · intro h
    exact ⟨fun hu ↦ h 0 u rfl hu, fun i w hw hhigh ↦ h (i + 1) w hw hhigh⟩
  · rintro ⟨hfirst, hrest⟩ i w hw hhigh
    cases i with
    | zero =>
        obtain rfl := Option.some.inj hw
        exact hfirst hhigh
    | succ i => exact hrest i w hw hhigh

end Scalars

/-! ## Bytes -/

section Bytes

variable {code : ℕ}

theorem ofNat_tail (n : ℕ) : UInt8.ofNat ((n &&& 0x3F) ||| 0x80) = .ofNat (n % 64 + 0x80) := by
  rw [and_0x3f]
  have hmark : n % 64 ||| 0x80 = 0x80 + n % 64 := @or_mark (n % 64) 7 (by omega) 1
  rw [hmark, Nat.add_comm]

theorem toNat_char (hlt : code < 0x110000) (hsur : ¬(0xD800 ≤ code ∧ code ≤ 0xDFFF)) :
    (Char.ofNat code).val.toNat = code := by
  have hvalid : code.isValidChar := by
    rw [Nat.isValidChar]
    omega
  rw [Char.ofNat, dif_pos hvalid]
  exact UInt32.toNat_ofNatLT

theorem fourBytes_eq (hlo : 0x10000 ≤ code) (hlt : code < 0x110000) :
    fourBytes code = encoded (some (.ofNat code)) := by
  have hval := toNat_char hlt (by omega)
  have hhead : code >>> 18 ||| 0xF0 = code / 262144 % 0x08 + 0xf0 := by
    have hmark : code / 2 ^ 18 ||| 0xF0 = 15 * 2 ^ 4 + code / 2 ^ 18 :=
      @or_mark (code / 2 ^ 18) 4 (by omega) 15
    rw [Nat.shiftRight_eq_div_pow, hmark]
    omega
  rw [encoded, String.utf8EncodeChar, hval, if_neg (by omega), if_neg (by omega), if_neg (by omega),
    fourBytes, hhead, ofNat_tail, ofNat_tail, ofNat_tail, Nat.shiftRight_eq_div_pow,
    Nat.shiftRight_eq_div_pow]

theorem threeBytes_eq (hlo : 0x07FF < code) (hlt : code < 0x10000)
    (hsur : ¬(0xD800 ≤ code ∧ code ≤ 0xDFFF)) :
    [UInt8.ofNat (code >>> 12 ||| 0xE0), .ofNat ((code >>> 6 &&& 0x3F) ||| 0x80),
      .ofNat ((code &&& 0x3F) ||| 0x80)] = encoded (some (.ofNat code)) := by
  have hval := toNat_char (hlt.trans (by decide)) hsur
  have hhead : code >>> 12 ||| 0xE0 = code / 4096 % 0x10 + 0xe0 := by
    have hmark : code / 2 ^ 12 ||| 0xE0 = 14 * 2 ^ 4 + code / 2 ^ 12 :=
      @or_mark (code / 2 ^ 12) 4 (by omega) 14
    rw [Nat.shiftRight_eq_div_pow, hmark]
    omega
  rw [encoded, String.utf8EncodeChar, hval, if_neg (by omega), if_neg (by omega), if_pos (by omega),
    hhead, ofNat_tail, ofNat_tail, Nat.shiftRight_eq_div_pow]

theorem twoBytes_eq (hlo : 0x007F < code) (hlt : code ≤ 0x07FF) :
    [UInt8.ofNat (code >>> 6 ||| 0xC0), .ofNat ((code &&& 0x3F) ||| 0x80)] =
      encoded (some (.ofNat code)) := by
  have hval := toNat_char (show code < 0x110000 by omega) (by omega)
  have hhead : code >>> 6 ||| 0xC0 = code / 64 % 0x20 + 0xc0 := by
    have hmark : code / 2 ^ 6 ||| 0xC0 = 6 * 2 ^ 5 + code / 2 ^ 6 :=
      @or_mark (code / 2 ^ 6) 5 (by omega) 6
    rw [Nat.shiftRight_eq_div_pow, hmark]
    omega
  rw [encoded, String.utf8EncodeChar, hval, if_neg (by omega), if_pos (by omega), hhead, ofNat_tail]

theorem oneByte_eq (hlt : code ≤ 0x007F) : [UInt8.ofNat code] = encoded (some (.ofNat code)) := by
  have hval := toNat_char (show code < 0x110000 by omega) (by omega)
  rw [encoded, String.utf8EncodeChar, hval, if_pos (by omega)]

end Bytes

/-! ## The loop -/

section Loop

variable {src rest : Str16} {pos : ℕ}

/-- What the loop does with a unit that is not a high surrogate. -/
theorem utf16ToUtf8Loop_single {u : UInt16} (size : ℕ) (hread : src[pos]? = some u) (hu : ¬High u) :
    utf16ToUtf8Loop src (size + 1) 0 pos =
      (encoded (if Low u then none else some (.ofNat u.toNat)) ++ ·) <$>
        utf16ToUtf8Loop src size 0 (pos + 1) := by
  have hlt : u.toNat < 0x10000 := u.toNat_lt
  rw [utf16ToUtf8Loop, hread]
  dsimp only [Option.bind_eq_bind, Option.bind_some]
  rw [if_neg (by simp)]
  by_cases h1 : u.toNat ≤ 0x007F
  · have hlow : ¬Low u := fun h ↦ absurd h.1 (by omega)
    rw [if_pos h1, if_neg hlow, oneByte_eq h1]
  rw [if_neg h1]
  by_cases h2 : u.toNat ≤ 0x07FF
  · have hlow : ¬Low u := fun h ↦ absurd h.1 (by omega)
    rw [if_pos h2, if_neg hlow, twoBytes_eq (by omega) h2]
  rw [if_neg h2, if_neg (show ¬(0xD800 ≤ u.toNat ∧ u.toNat ≤ 0xDBFF) from hu)]
  by_cases hlow : Low u
  · rw [if_pos hlow, if_pos (show 0xDC00 ≤ u.toNat ∧ u.toNat ≤ 0xDFFF from hlow)]
    rfl
  · have hsur : ¬(0xD800 ≤ u.toNat ∧ u.toNat ≤ 0xDFFF) := by
      rw [High] at hu
      rw [Low] at hlow
      omega
    rw [if_neg hlow, if_neg (show ¬(0xDC00 ≤ u.toNat ∧ u.toNat ≤ 0xDFFF) from hlow), if_pos hlt,
      threeBytes_eq (by omega) hlt hsur]

theorem utf16ToUtf8Loop_high {u : UInt16} (size : ℕ) (hread : src[pos]? = some u) (hu : High u) :
    utf16ToUtf8Loop src (size + 1) 0 pos = utf16ToUtf8Loop src size u.toNat (pos + 1) := by
  obtain ⟨hlo, hhi⟩ := hu
  rw [utf16ToUtf8Loop, hread]
  dsimp only [Option.bind_eq_bind, Option.bind_some]
  rw [if_neg (by simp), if_neg (by omega), if_neg (by omega), if_pos ⟨hlo, hhi⟩]

/-- The turn behind a high surrogate: a pair, or an error that eats no unit. -/
theorem utf16ToUtf8Loop_kept {u v : UInt16} (size : ℕ) (hread : src[pos]? = some v) (hu : High u) :
    utf16ToUtf8Loop src (size + 1) u.toNat pos =
      if Low v then (encoded (some (pairChar u v)) ++ ·) <$> utf16ToUtf8Loop src size 0 (pos + 1)
      else (encoded none ++ ·) <$> utf16ToUtf8Loop src size 0 pos := by
  obtain ⟨hlo, hhi⟩ := hu
  rw [utf16ToUtf8Loop, hread]
  dsimp only [Option.bind_eq_bind, Option.bind_some]
  rw [if_pos (by omega)]
  by_cases hv : Low v
  · obtain ⟨hlo', hhi'⟩ := id hv
    rw [if_pos hv, if_pos ⟨hlo', hhi'⟩, Nat.shiftLeft_eq, fourBytes_eq (by omega) (by omega)]
    rfl
  · rw [if_neg hv, if_neg (show ¬(0xDC00 ≤ v.toNat ∧ v.toNat ≤ 0xDFFF) from hv)]
    rfl

/-- What the loop stores in `size` turns, when `rest` is what is left of the array: all of it, if
there are as many turns as units and no error takes a turn away. -/
structure Stores (size : ℕ) (rest : Str16) (out : Str8) : Prop where
  eq : size = rest.length → HighsPaired rest → out = encodedScalars rest
  lt : ¬(size = rest.length ∧ HighsPaired rest) → out.length < (encodedScalars rest).length

theorem Stores.nil (hne : ¬(rest = [])) : Stores 0 rest [] := by
  rcases rest with _ | ⟨u, rest⟩
  · exact absurd rfl hne
  · exact ⟨fun h ↦ by simp at h, fun _ ↦ length_encodedScalars_pos⟩

/-- A character is stored in front. -/
theorem Stores.cons {size size' : ℕ} {rest' : Str16} {out : Str8} {c : Option Char}
    (h : Stores size rest out) (hscalars : scalars rest' = c :: scalars rest)
    (hiff : size' = rest'.length ∧ HighsPaired rest' ↔ size = rest.length ∧ HighsPaired rest) :
    Stores size' rest' (encoded c ++ out) := by
  have henc : encodedScalars rest' = encoded c ++ encodedScalars rest := by
    rw [encodedScalars, hscalars, List.flatMap_cons]
    rfl
  refine ⟨fun hsize hpaired ↦ ?_, fun hnot ↦ ?_⟩
  · obtain ⟨hsize', hpaired'⟩ := hiff.mp ⟨hsize, hpaired⟩
    rw [henc, h.eq hsize' hpaired']
  · have := h.lt (mt hiff.mpr hnot)
    rw [henc, List.length_append, List.length_append]
    omega

theorem utf16ToUtf8Loop_stores {size : ℕ} (hrest : src.drop pos = rest)
    (hsize : size ≤ rest.length) :
    ∃ out, utf16ToUtf8Loop src size 0 pos = some out ∧ Stores size rest out := by
  induction size using Nat.strong_induction_on generalizing pos rest with
  | _ size ih =>
      rcases size with _ | size
      · refine ⟨[], rfl, ?_⟩
        rcases rest with _ | ⟨u, rest⟩
        · exact ⟨fun _ _ ↦ rfl, fun hnot ↦ absurd ⟨rfl, .nil⟩ hnot⟩
        · exact .nil (by simp)
      rcases rest with _ | ⟨u, rest⟩
      · simp at hsize
      have hread : src[pos]? = some u := by
        have := congrArg List.head? hrest
        rwa [List.head?_drop] at this
      have hdrop : src.drop (pos + 1) = rest := by
        rw [← List.tail_drop, hrest, List.tail_cons]
      rw [List.length_cons] at hsize
      by_cases hu : High u
      swap
      · obtain ⟨out, hloop, hstores⟩ := ih size (by omega) hdrop (by omega)
        refine ⟨_, by rw [utf16ToUtf8Loop_single size hread hu, hloop]; rfl,
          hstores.cons (scalars_single hu) ?_⟩
        rw [highsPaired_cons, List.length_cons]
        simp [hu]
      rw [utf16ToUtf8Loop_high size hread hu]
      rcases size with _ | size
      · refine ⟨[], rfl, fun hone hpaired ↦ ?_, fun _ ↦ length_encodedScalars_pos⟩
        -- the last unit is a high surrogate
        obtain ⟨v, hv, -⟩ := (highsPaired_cons.mp hpaired).1 hu
        obtain rfl : rest = [] := List.eq_nil_of_length_eq_zero (by simpa using hone.symm)
        simp at hv
      rcases rest with _ | ⟨v, rest⟩
      · simp at hsize
      have hread' : src[pos + 1]? = some v := by
        have := congrArg List.head? hdrop
        rwa [List.head?_drop] at this
      have hdrop' : src.drop (pos + 1 + 1) = rest := by
        rw [← List.tail_drop, hdrop, List.tail_cons]
      rw [List.length_cons] at hsize
      rw [utf16ToUtf8Loop_kept size hread' hu]
      by_cases hv : Low v
      · have hnot : ¬High v :=
          fun h ↦ absurd (h.2.trans_lt (show 0xDBFF < 0xDC00 by decide)) hv.1.not_gt
        obtain ⟨out, hloop, hstores⟩ := ih size (by omega) hdrop' (by omega)
        refine ⟨_, by rw [if_pos hv, hloop]; rfl, hstores.cons (scalars_pair hu hv) ?_⟩
        rw [highsPaired_cons, highsPaired_cons, List.length_cons, List.length_cons]
        simp [hnot, hv]
      · -- the turn is spent without a unit, so there are fewer turns than units from here on
        obtain ⟨out, hloop, hstores⟩ := ih size (by omega) hdrop (by simp; omega)
        refine ⟨_, by rw [if_neg hv, hloop]; rfl, hstores.cons (scalars_unpaired hu hv) ?_⟩
        refine iff_of_false (fun h ↦ ?_) (fun h ↦ ?_)
        · obtain ⟨w, hw, hlow⟩ := (highsPaired_cons.mp h.2).1 hu
          obtain rfl := Option.some.inj hw
          exact hv hlow
        · rw [List.length_cons] at h
          omega

end Loop

/-- The conversion stays in the array, and it is right exactly where every high surrogate is
directly followed by a low one. -/
theorem utf16ToUtf8_iff (src : Str16) :
    (∃ out, utf16ToUtf8 src = some out) ∧
      (utf16ToUtf8 src = some (encodedScalars src) ↔ HighsPaired src) := by
  obtain ⟨out, hloop, hstores⟩ := @utf16ToUtf8Loop_stores src src 0 src.length rfl le_rfl
  refine ⟨⟨out, hloop⟩, ?_⟩
  rw [utf16ToUtf8, hloop, Option.some_inj]
  constructor
  · rintro rfl
    by_contra hnot
    exact absurd (hstores.lt fun h ↦ hnot h.2) (lt_irrefl _)
  · exact hstores.eq rfl

/-- After a high surrogate that stands alone, the last character of the array is lost. -/
theorem not_utf16ToUtf8_unpaired :
    utf16ToUtf8 [0xD800, 0x41, 0x42] ≠ some (encodedScalars [0xD800, 0x41, 0x42]) ∧
      utf16ToUtf8 [0xD800, 0x41, 0x42] = some [0x3F, 0x41] ∧
      encodedScalars [0xD800, 0x41, 0x42] = [0x3F, 0x41, 0x42] := by decide

end MiniPi.Charset
