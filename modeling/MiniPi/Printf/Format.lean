import MiniPi.Charset.Bound
import MiniPi.Charset.RoundTrip
import MiniPi.Lib.Mem
import MiniPi.Printf.Number

/-!
# Formatted text

The model of `vsnprintf_internal` with the emitters `string` and `string16`.  A pointer into the
buffer is its offset, and a string is the list of its units without the terminator.  What has been
emitted has no influence on how the format is read, so the format is turned into pieces first, and
the pieces are emitted one after the other.  `%n`, which stores to memory, and `%p` with a letter of
the extended format specifiers behind it are not modelled: such a format has no pieces.
-/

namespace MiniPi.Printf

open Lib Charset

/-! ## The format -/

/-- An argument.  The integers and the pointer of `%p` are numbers, and a string may be NULL. -/
inductive Arg
  | num (n : ℕ)
  | str (s : Option Str8)
  | wstr (s : Option Str16)

/-- `va_arg` for a number. -/
def nextNum : List Arg → ℕ × List Arg
  | .num n :: args => (n, args)
  | args => (0, args.tail)

/-- `va_arg(args, char *)`. -/
def nextStr : List Arg → Option Str8 × List Arg
  | .str s :: args => (s, args)
  | args => (none, args.tail)

/-- `va_arg(args, u16 *)`. -/
def nextWstr : List Arg → Option Str16 × List Arg
  | .wstr s :: args => (s, args)
  | args => (none, args.tail)

def isDigit (c : UInt8) : Bool := decide (charCode '0' ≤ c ∧ c ≤ charCode '9')

def skipAtoi : List UInt8 → ℤ → ℤ × List UInt8
  | [], i => (i, [])
  | c :: fmt, i =>
    if isDigit c then skipAtoi fmt (int (i * 10 + c.toNat - (charCode '0').toNat))
      else (i, c :: fmt)

/-- From `repeat` on. -/
def parseFlags : List UInt8 → Flags → Flags × List UInt8
  | [], flags => (flags, [])
  | c :: fmt, flags =>
    if c = charCode '-' then parseFlags fmt { flags with left := true }
    else if c = charCode '+' then parseFlags fmt { flags with plus := true }
    else if c = charCode ' ' then parseFlags fmt { flags with space := true }
    else if c = charCode '#' then parseFlags fmt { flags with special := true }
    else if c = charCode '0' then parseFlags fmt { flags with zeropad := true }
    else (flags, c :: fmt)

/-- `skip_atoi` or the next argument: a number in the format. -/
def parseNumber (fmt : List UInt8) (args : List Arg) : ℤ × List UInt8 × List Arg :=
  if isDigit (fmt.headD 0) then ((skipAtoi fmt 0).1, (skipAtoi fmt 0).2, args)
  else if fmt.headD 0 = charCode '*' then (int (nextNum args).1, fmt.tail, (nextNum args).2)
  else (-1, fmt, args)

/-- The field width; a negative argument justifies to the left. -/
def parseWidth (fmt : List UInt8) (args : List Arg) (flags : Flags) :
    ℤ × Flags × List UInt8 × List Arg :=
  let r := parseNumber fmt args
  if fmt.headD 0 = charCode '*' ∧ r.1 < 0 then (int (-r.1), { flags with left := true }, r.2)
  else (r.1, flags, r.2)

def parsePrecision (fmt : List UInt8) (args : List Arg) : ℤ × List UInt8 × List Arg :=
  if fmt.headD 0 = charCode '.' then
    let r := parseNumber fmt.tail args
    (if r.1 < 0 then 0 else r.1, r.2)
  else (-1, fmt, args)

/-- The conversion qualifier; `ll` is `L`. -/
def parseQualifier (fmt : List UInt8) : Option UInt8 × List UInt8 :=
  if fmt.headD 0 ∈ ['h', 'l', 'L', 'Z', 'z', 't'].map charCode then
    if fmt.headD 0 = charCode 'l' ∧ fmt.tail.headD 0 = charCode 'l' then
      (some (charCode 'L'), fmt.tail.tail)
    else (some (fmt.headD 0), fmt.tail)
  else (none, fmt)

/-! ## The pieces -/

/-- What is emitted at once: characters, each with `ADDCH`, or a UTF-16 string between its
padding. -/
inductive Piece
  | text (bs : List UInt8)
  | wide (lead trail : ℕ) (src : Str16) (count : ℕ)

/-- `while (--field_width > 0)`: the number of rounds, and the width behind the loop. -/
def paddingChar (width : ℤ) : ℕ × ℤ :=
  let width := int (width - 1)
  if 0 < width then (width.toNat, 0) else (0, width)

/-- The conversion `%c`. -/
def charText (n : ℕ) (width : ℤ) (flags : Flags) : List UInt8 :=
  let lead := if !flags.left then paddingChar width else (0, width)
  List.replicate lead.1 (charCode ' ') ++ [UInt8.ofNat n] ++
    List.replicate (paddingChar lead.2).1 (charCode ' ')

/-- `while (len < field_width--)`: the number of rounds, and the width behind the loop. -/
def paddingString (len width : ℤ) : ℕ × ℤ :=
  if len < width then ((width - len).toNat, len - 1) else (0, int (width - 1))

/-- The count of `strnlen` for a precision; -1 is the largest `size_t`. -/
def countOf (precision : ℤ) : ℕ := (precision % 2 ^ 64).toNat

/-- The characters that `string` emits. -/
def string (s : Option Str8) (width precision : ℤ) (flags : Flags) : List UInt8 :=
  let s := (s.getD (ascii "<NULL>")).takeWhile (· ≠ 0)
  let len := int (min s.length (countOf precision))
  let lead := if !flags.left then paddingString len width else (0, width)
  List.replicate lead.1 (charCode ' ') ++ s.take len.toNat ++
    List.replicate (paddingString len lead.2).1 (charCode ' ')

def utf16Strnlen (src : Str16) : ℕ → ℕ
  | 0 => 0
  | count + 1 =>
    if src.headD 0 = 0 then 0
    else
      match utf16Get src with
      | (none, src) => 1 + utf16Strnlen src count
      | (some code, src) => if code = 0 then 0 else 1 + utf16Strnlen src count

/-- The text `L"<NULL>"`. -/
def wideNull : Str16 := "<NULL>".toList.map fun c ↦ UInt16.ofNat c.toNat

/-- `string16`: the padding, and the string with the count for `utf16_strnlen`. -/
def string16 (s : Option Str16) (width precision : ℤ) (flags : Flags) : Piece :=
  let str := s.getD wideNull
  let pad := (width - utf16Strnlen str (countOf precision)).toNat
  .wide (if flags.left then 0 else pad) (if flags.left then pad else 0) str (countOf precision)

/-- A signed number of `k` bits as an `u64`. -/
def signExtend (k n : ℕ) : ℕ := if 2 ^ (k - 1) ≤ n then n + (2 ^ 64 - 2 ^ k) else n

/-- The number for an integer format. -/
def intArg (qualifier : Option UInt8) (sign : Bool) (n : ℕ) : ℕ :=
  if qualifier ∈ ['L', 'l', 'Z', 'z', 't'].map fun c : Char ↦ some (charCode c) then n % 2 ^ 64
  else
    let k := if qualifier = some (charCode 'h') then 16 else 32
    if sign then signExtend k (n % 2 ^ k) else n % 2 ^ k

/-- The base and the flags for an integer format. -/
def intFormat (c : UInt8) (flags : Flags) : Option (ℕ × Flags) :=
  if c = charCode 'o' then some (8, flags)
  else if c = charCode 'x' then some (16, { flags with small := true })
  else if c = charCode 'X' then some (16, flags)
  else if c = charCode 'd' ∨ c = charCode 'i' then some (10, { flags with sign := true })
  else if c = charCode 'u' then some (10, flags)
  else none

/-- The letters that `pointer` looks at. -/
def isExtension (c : UInt8) : Bool := c ∈ ['D', 'a', 'm', 'M', 'i', 'I', 'U'].map charCode

/-- `isalnum`; the table has the letters of Latin-1 too, which are the bytes from `0xC0` on but the
signs for times and division. -/
def isAlnum (c : UInt8) : Bool :=
  isDigit c || decide (charCode 'A' ≤ c ∧ c ≤ charCode 'Z' ∨ charCode 'a' ≤ c ∧ c ≤ charCode 'z' ∨
    0xC0 ≤ c ∧ c ≠ 0xD7 ∧ c ≠ 0xF7)

/-- The default case of `pointer`. -/
def pointer (n : ℕ) (width precision : ℤ) (flags : Flags) : List UInt8 :=
  let flags := { flags with small := true }
  if width = -1 then number (n % 2 ^ 64) 16 (2 * 8) precision { flags with zeropad := true }
  else number (n % 2 ^ 64) 16 width precision flags

/-- One conversion, from behind the `%` on. -/
def convert (fmt : List UInt8) (args : List Arg) : Option (Piece × List UInt8 × List Arg) :=
  let (flags, fmt) := parseFlags fmt {}
  let (width, flags, fmt, args) := parseWidth fmt args flags
  let (precision, fmt, args) := parsePrecision fmt args
  let (qualifier, fmt) := parseQualifier fmt
  match fmt with
  | [] => some (.text [charCode '%'], [], args)
  | c :: fmt =>
    if c = charCode 'c' then
      some (.text (charText (nextNum args).1 width flags), fmt, (nextNum args).2)
    else if c = charCode 's' then
      if qualifier = some (charCode 'l') then
        some (string16 (nextWstr args).1 width precision flags, fmt, (nextWstr args).2)
      else some (.text (string (nextStr args).1 width precision flags), fmt, (nextStr args).2)
    else if c = charCode 'p' then
      if isExtension (fmt.headD 0) then none
      else
        some (.text (pointer (nextNum args).1 width precision flags), fmt.dropWhile isAlnum,
          (nextNum args).2)
    else if c = charCode 'n' then none
    else if c = charCode '%' then some (.text [charCode '%'], fmt, args)
    else
      match intFormat c flags with
      | some (base, flags) =>
        some (.text (number (intArg qualifier flags.sign (nextNum args).1) base width precision
          flags), fmt,
          (nextNum args).2)
      | none => some (.text [charCode '%', c], fmt, args)

section

variable {fmt rest : List UInt8} {args args' : List Arg} {flags : Flags} {piece : Piece}

theorem length_skipAtoi_le (fmt : List UInt8) (i : ℤ) : (skipAtoi fmt i).2.length ≤ fmt.length := by
  induction fmt generalizing i with
  | nil => exact le_rfl
  | cons c fmt ih =>
      rw [skipAtoi]
      split_ifs
      · exact (ih _).trans (Nat.le_succ _)
      · exact le_rfl

theorem length_parseFlags_le (fmt : List UInt8) (flags : Flags) :
    (parseFlags fmt flags).2.length ≤ fmt.length := by
  induction fmt generalizing flags with
  | nil => exact le_rfl
  | cons c fmt ih =>
      rw [parseFlags]
      split_ifs <;> first | exact (ih _).trans (Nat.le_succ _) | exact le_rfl

theorem length_tail_le (fmt : List UInt8) : fmt.tail.length ≤ fmt.length := by
  rw [List.length_tail]
  exact Nat.sub_le _ _

theorem length_parseNumber_le (fmt : List UInt8) (args : List Arg) :
    (parseNumber fmt args).2.1.length ≤ fmt.length := by
  rw [parseNumber]
  split_ifs
  · exact length_skipAtoi_le fmt 0
  · exact length_tail_le fmt
  · exact le_rfl

theorem length_parseWidth_le (fmt : List UInt8) (args : List Arg) (flags : Flags) :
    (parseWidth fmt args flags).2.2.1.length ≤ fmt.length := by
  rw [parseWidth]
  split_ifs <;> exact length_parseNumber_le fmt args

theorem length_parsePrecision_le (fmt : List UInt8) (args : List Arg) :
    (parsePrecision fmt args).2.1.length ≤ fmt.length := by
  rw [parsePrecision]
  split_ifs
  · exact (length_parseNumber_le fmt.tail args).trans (length_tail_le fmt)
  · exact le_rfl

theorem length_parseQualifier_le (fmt : List UInt8) :
    (parseQualifier fmt).2.length ≤ fmt.length := by
  rw [parseQualifier]
  split_ifs
  · exact (length_tail_le _).trans (length_tail_le fmt)
  · exact length_tail_le fmt
  · exact le_rfl

theorem length_convert_le (h : convert fmt args = some (piece, rest, args')) :
    rest.length ≤ fmt.length := by
  have hflags := length_parseFlags_le fmt {}
  rw [convert] at h
  generalize parseFlags fmt {} = r at h hflags
  obtain ⟨flags, fmt₁⟩ := r
  have hwidth := length_parseWidth_le fmt₁ args flags
  dsimp only at h hflags
  generalize parseWidth fmt₁ args flags = r at h hwidth
  obtain ⟨width, flags, fmt₂, args₂⟩ := r
  have hprecision := length_parsePrecision_le fmt₂ args₂
  dsimp only at h hwidth
  generalize parsePrecision fmt₂ args₂ = r at h hprecision
  obtain ⟨precision, fmt₃, args₃⟩ := r
  have hqualifier := length_parseQualifier_le fmt₃
  dsimp only at h hprecision
  generalize parseQualifier fmt₃ = r at h hqualifier
  obtain ⟨qualifier, fmt₄⟩ := r
  dsimp only at h hqualifier
  suffices hrest : rest.length ≤ fmt₄.length by omega
  cases fmt₄ with
  | nil =>
      cases h
      exact le_rfl
  | cons c fmt =>
      have hdrop := (List.dropWhile_sublist (l := fmt) isAlnum).length_le
      dsimp only at h
      rw [List.length_cons]
      split_ifs at h
      · cases h
        omega
      · cases h
        omega
      · cases h
        omega
      · cases h
        omega
      · cases h
        omega
      · cases hint : intFormat c flags with
        | none =>
            rw [hint] at h
            cases h
            omega
        | some r =>
            rw [hint] at h
            cases h
            omega

end

/-- The loop over the format. -/
def pieces (fmt : List UInt8) (args : List Arg) : Option (List Piece) :=
  match fmt with
  | [] => some []
  | c :: fmt =>
    if c ≠ charCode '%' then (pieces fmt args).map (.text [c] :: ·)
    else
      match _ : convert fmt args with
      | none => none
      | some (piece, rest, args) => (pieces rest args).map (piece :: ·)
termination_by fmt.length
decreasing_by
  · exact Nat.lt_succ_self _
  · exact Nat.lt_succ_of_le (length_convert_le ‹_›)

/-! ## The output -/

/-- The memory from the buffer on, and the cursor, which may lie behind the end of the buffer. -/
@[ext]
structure Out where
  mem : Mem
  str : ℕ

namespace Out

/-- Bytes are stored at the cursor. -/
def put (out : Out) (bs : List UInt8) : Out := ⟨out.mem.write out.str bs, out.str + bs.length⟩

/-- `ADDCH`. -/
def addch (size : ℕ) (out : Out) (ch : UInt8) : Out :=
  ⟨if out.str < size then out.mem.write out.str [ch] else out.mem, out.str + 1⟩

def addText (size : ℕ) (out : Out) (text : List UInt8) : Out := text.foldl (addch size) out

end Out

/-- The loop of `string16` over `len` characters. -/
def wideLoop (size : ℕ) : ℕ → Str16 → Out → Out
  | 0, _, out => out
  | len + 1, src, out =>
    if out.str + utf16Utf8Strnlen src 1 ≤ size then
      let (code, src) := utf16Get src
      wideLoop size len src (out.put ((utf8Put (code.getD '?'.toNat)).getD []))
    else out

def Piece.emit (size : ℕ) (out : Out) : Piece → Out
  | .text bs => out.addText size bs
  | .wide lead trail src count =>
    let out := out.addText size (List.replicate lead (charCode ' '))
    let out := wideLoop size (utf16Strnlen src count) src out
    out.addText size (List.replicate trail (charCode ' '))

def emitAll (size : ℕ) (out : Out) (ps : List Piece) : Out := ps.foldl (Piece.emit size) out

/-- Behind the loop over the format: the terminator and the length. -/
def finish (size : ℕ) (out : Out) : ℤ × Mem :=
  if 0 < size then
    let out := out.addch size 0
    (int (out.str - 1), if size < out.str then out.mem.write (size - 1) [0] else out.mem)
  else (int out.str, out.mem)

/-- The length that is returned, and the memory. -/
def vsnprintf (size : ℕ) (fmt : List UInt8) (args : List Arg) (mem : Mem) : Option (ℤ × Mem) :=
  (pieces fmt args).map fun ps ↦ finish size (emitAll size ⟨mem, 0⟩ ps)

/-! ## What is emitted -/

def Piece.bytes : Piece → List UInt8
  | .text bs => bs
  | .wide lead trail src count =>
    List.replicate lead (charCode ' ') ++ utf16Utf8Strncpy src count ++
      List.replicate trail (charCode ' ')

/-- The text for an unlimited buffer. -/
def textOf (ps : List Piece) : List UInt8 := ps.flatMap Piece.bytes

/-- A UTF-16 string that starts at offset `p` with its padding does not reach behind the buffer. -/
def Piece.Fits (size p : ℕ) : Piece → Prop
  | .text _ => True
  | .wide lead _ src count =>
    utf16Utf8Strncpy src count = [] ∨ p + lead + (utf16Utf8Strncpy src count).length ≤ size

/-- No UTF-16 string reaches behind the buffer, from offset `p` on. -/
def WideFits (size : ℕ) : ℕ → List Piece → Prop
  | _, [] => True
  | p, piece :: ps => piece.Fits size p ∧ WideFits size (p + piece.bytes.length) ps

/-- The text is cut to the buffer, and its whole length is returned. -/
def TruncatesExactly (n : ℕ) (text : List UInt8) (mem : Mem) (r : ℤ × Mem) : Prop :=
  r.1 = text.length ∧
    r.2 = if 0 < n then mem.write 0 (text.take (min text.length (n - 1)) ++ [0]) else mem

namespace Out

variable {size : ℕ} {out : Out} {text text' : List UInt8}

theorem addText_append :
    out.addText size (text ++ text') = (out.addText size text).addText size text' :=
  List.foldl_append

theorem put_append : out.put (text ++ text') = (out.put text).put text' := by
  unfold put
  rw [Mem.write_append, List.length_append, Nat.add_assoc]

theorem addText_of_le (h : out.str + text.length ≤ size) :
    out.addText size text = out.put text := by
  induction text generalizing out with
  | nil =>
      unfold put
      rw [Mem.write_nil]
      rfl
  | cons c text ih =>
      rw [List.length_cons] at h
      have hc : out.addch size c = out.put [c] := by
        unfold addch
        rw [if_pos (by omega)]
        rfl
      have hle : (out.put [c]).str + text.length ≤ size := by
        change out.str + 1 + text.length ≤ size
        omega
      change (out.addch size c).addText size text = _
      rw [hc, ih hle, ← put_append]
      rfl

theorem addText_of_ge (h : size ≤ out.str) :
    out.addText size text = ⟨out.mem, out.str + text.length⟩ := by
  induction text generalizing out with
  | nil => rfl
  | cons c text ih =>
      have hc : out.addch size c = ⟨out.mem, out.str + 1⟩ := by
        unfold addch
        rw [if_neg (by omega)]
      have hge : size ≤ (⟨out.mem, out.str + 1⟩ : Out).str := by
        change size ≤ out.str + 1
        omega
      change (out.addch size c).addText size text = _
      rw [hc, ih hge, List.length_cons]
      ext1
      · rfl
      · change out.str + 1 + text.length = out.str + (text.length + 1)
        omega

/-- A text is stored as far as the buffer goes, and the cursor moves on by its whole length. -/
theorem addText_eq (h : out.str ≤ size) :
    out.addText size text =
      ⟨out.mem.write out.str (text.take (size - out.str)), out.str + text.length⟩ := by
  obtain hle | hgt := Nat.le_total (out.str + text.length) size
  · rw [addText_of_le hle, List.take_of_length_le (by omega)]
    rfl
  · have hlen : (text.take (size - out.str)).length = size - out.str := by
      rw [List.length_take]
      omega
    have hput : (out.put (text.take (size - out.str))).str = size := by
      change out.str + (text.take (size - out.str)).length = size
      omega
    conv_lhs => rw [← List.take_append_drop (size - out.str) text]
    rw [addText_append, @addText_of_le _ _ (text.take (size - out.str)) (by omega),
      addText_of_ge hput.ge]
    ext1
    · rfl
    · change (out.put (text.take (size - out.str))).str + (text.drop (size - out.str)).length =
        out.str + text.length
      rw [hput, List.length_drop]
      omega

@[simp] theorem str_addText : (out.addText size text).str = out.str + text.length := by
  induction text generalizing out with
  | nil => rfl
  | cons c text ih =>
      change ((out.addch size c).addText size text).str = _
      rw [ih, List.length_cons]
      change out.str + 1 + text.length = _
      omega

end Out

/-! ## UTF-16 strings -/

section

variable {size : ℕ} {out : Out} {src : Str16} {count : ℕ}

theorem refused_utf16Get (src : Str16) : refused ((utf16Get src).1.getD '?'.toNat) = false := by
  have hquestion : refused '?'.toNat = false := rfl
  cases src with
  | nil => rfl
  | cons u src =>
      have hu := u.toNat_lt
      have hv := Nat.mod_lt ((src.headD 0).toNat) (by decide : 0 < 1024)
      have hu' := Nat.mod_lt u.toNat (by decide : 0 < 1024)
      rw [utf16Get]
      dsimp only
      split_ifs with h1 h2 h3
      · rfl
      · exact hquestion
      · exact hquestion
      · exact hquestion
      · rw [Option.getD_some, refused, and_0x3ff, and_0x3ff, Nat.shiftLeft_eq]
        rw [decide_eq_false_iff_not]
        omega
      · rw [Option.getD_some, refused, decide_eq_false_iff_not]
        omega

/-- The length of the next character is what `utf8_put` stores of it. -/
theorem utf16Utf8Strnlen_one (h : src.headD 0 ≠ 0) :
    utf16Utf8Strnlen src 1 = ((utf8Put ((utf16Get src).1.getD '?'.toNat)).getD []).length := by
  have hput := refused_utf16Get src
  have hzero := utf16Get_ne_zero h
  rw [utf16Utf8Strnlen, if_neg h]
  generalize utf16Get src = r at hput hzero ⊢
  obtain ⟨code, rest⟩ := r
  cases code with
  | none => rfl
  | some code =>
      have hne : code ≠ 0 := fun hz ↦ hzero (congrArg some hz)
      have hput' : refused code = false := hput
      dsimp only
      rw [if_neg hne, Option.getD_some, utf8Put, hput', utf16Utf8Strnlen]
      split_ifs <;> first | rfl | contradiction | omega

/-- A string that is written character by character. -/
theorem wideLoop_step (h : src.headD 0 ≠ 0) :
    utf16Strnlen src (count + 1) = utf16Strnlen (utf16Get src).2 count + 1 ∧
      utf16Utf8Strncpy src (count + 1) =
        (utf8Put ((utf16Get src).1.getD '?'.toNat)).getD [] ++
        utf16Utf8Strncpy (utf16Get src).2 count := by
  have hzero := utf16Get_ne_zero h
  constructor
  · rw [utf16Strnlen, if_neg h]
    generalize utf16Get src = r at hzero ⊢
    obtain ⟨code, rest⟩ := r
    cases code with
    | none => exact Nat.add_comm _ _
    | some code =>
        have hne : code ≠ 0 := fun hz ↦ hzero (congrArg some hz)
        dsimp only
        rw [if_neg hne, Nat.add_comm]
  · rw [utf16Utf8Strncpy, if_neg h]

/-- A string that fits is written as a whole. -/
theorem wideLoop_of_fits
    (h : utf16Utf8Strncpy src count = [] ∨ out.str + (utf16Utf8Strncpy src count).length ≤ size) :
    wideLoop size (utf16Strnlen src count) src out = out.put (utf16Utf8Strncpy src count) := by
  induction count generalizing src out with
  | zero =>
      unfold Out.put
      rw [utf16Utf8Strncpy, Mem.write_nil]
      rfl
  | succ count ih =>
      by_cases hend : src.headD 0 = 0
      · unfold Out.put
        rw [utf16Strnlen, if_pos hend, utf16Utf8Strncpy, if_pos hend, Mem.write_nil]
        rfl
      · obtain ⟨hlen, hbytes⟩ := @wideLoop_step src count hend
        have hone := utf16Utf8Strnlen_one hend
        have hpos : 0 < utf16Utf8Strnlen src 1 := by
          have hzero := utf16Get_ne_zero hend
          rw [utf16Utf8Strnlen, if_neg hend]
          generalize utf16Get src = r at hzero ⊢
          obtain ⟨code, rest⟩ := r
          cases code with
          | none => exact Nat.zero_lt_one
          | some code =>
              have hne : code ≠ 0 := fun hz ↦ hzero (congrArg some hz)
              dsimp only
              rw [if_neg hne]
              split_ifs <;> omega
        rw [hbytes, List.length_append, List.append_eq_nil_iff] at h
        have hfits : out.str + (utf16Utf8Strnlen src 1 +
            (utf16Utf8Strncpy (utf16Get src).2 count).length) ≤ size := by
          rcases h with ⟨hnil, -⟩ | h
          · rw [hone, hnil] at hpos
            exact absurd hpos (Nat.lt_irrefl _)
          · rw [hone]
            exact h
        have hstr : (out.put ((utf8Put ((utf16Get src).1.getD '?'.toNat)).getD [])).str =
            out.str + utf16Utf8Strnlen src 1 := by
          rw [hone]
          rfl
        have hih := @ih (out.put ((utf8Put ((utf16Get src).1.getD '?'.toNat)).getD []))
          (utf16Get src).2
          (.inr (by rw [hstr]; omega))
        rw [hlen, wideLoop, if_pos (by omega), hbytes, Out.put_append]
        exact hih

/-- A string that does not fit is cut, and its rest is not counted. -/
theorem str_wideLoop_lt (hne : utf16Utf8Strncpy src count ≠ [])
    (h : size < out.str + (utf16Utf8Strncpy src count).length) :
    (wideLoop size (utf16Strnlen src count) src out).str <
      out.str + (utf16Utf8Strncpy src count).length := by
  induction count generalizing src out with
  | zero => exact absurd rfl hne
  | succ count ih =>
      by_cases hend : src.headD 0 = 0
      · rw [utf16Utf8Strncpy, if_pos hend] at hne
        exact absurd rfl hne
      · obtain ⟨hlen, hbytes⟩ := @wideLoop_step src count hend
        have hone := utf16Utf8Strnlen_one hend
        rw [hbytes, List.length_append, ← hone] at h ⊢
        rw [hlen, wideLoop]
        split_ifs with hfit
        · -- the next character fits, so one of the others does not
          have hrest : utf16Utf8Strncpy (utf16Get src).2 count ≠ [] := by
            intro hnil
            rw [hnil, List.length_nil] at h
            omega
          have hstr : (out.put ((utf8Put ((utf16Get src).1.getD '?'.toNat)).getD [])).str =
              out.str + utf16Utf8Strnlen src 1 := by
            rw [hone]
            rfl
          have hih := @ih (out.put ((utf8Put ((utf16Get src).1.getD '?'.toNat)).getD []))
            (utf16Get src).2 hrest (by omega)
          rw [hstr] at hih
          rw [← Nat.add_assoc]
          exact hih
        · have hpos : 0 < utf16Utf8Strnlen src 1 +
              (utf16Utf8Strncpy (utf16Get src).2 count).length := by
            rw [hone, ← List.length_append, ← hbytes]
            exact List.length_pos_iff.mpr hne
          omega

end

/-! ## Pieces -/

section

variable {size : ℕ} {out : Out} {piece : Piece} {ps : List Piece}

theorem emit_of_fits (h : piece.Fits size out.str) :
    piece.emit size out = out.addText size piece.bytes := by
  cases piece with
  | text bs => rfl
  | wide lead trail src count =>
      have hstr : (out.addText size (List.replicate lead (charCode ' '))).str = out.str + lead := by
        rw [Out.str_addText, List.length_replicate]
      have hloop : wideLoop size (utf16Strnlen src count) src
            (out.addText size (List.replicate lead (charCode ' '))) =
          (out.addText size (List.replicate lead (charCode ' '))).addText size
            (utf16Utf8Strncpy src count) := by
        rcases h with hnil | hle
        · rw [wideLoop_of_fits (.inl hnil), hnil]
          unfold Out.put
          rw [Mem.write_nil]
          rfl
        · rw [← hstr] at hle
          rw [wideLoop_of_fits (.inr hle), Out.addText_of_le hle]
      rw [Piece.emit, Piece.bytes, hloop, Out.addText_append, Out.addText_append]

theorem str_emit_lt (h : ¬ piece.Fits size out.str) :
    (piece.emit size out).str < out.str + piece.bytes.length := by
  cases piece with
  | text bs => exact absurd trivial h
  | wide lead trail src count =>
      obtain ⟨hne, hgt⟩ := not_or.mp h
      have hstr : (out.addText size (List.replicate lead (charCode ' '))).str = out.str + lead := by
        rw [Out.str_addText, List.length_replicate]
      have hloop := @str_wideLoop_lt size
        (out.addText size (List.replicate lead (charCode ' '))) src
        count hne (by omega)
      rw [Piece.emit, Piece.bytes, Out.str_addText, List.length_append, List.length_append,
        List.length_replicate, List.length_replicate]
      omega

theorem str_emit_le (piece : Piece) (out : Out) :
    (piece.emit size out).str ≤ out.str + piece.bytes.length := by
  by_cases h : piece.Fits size out.str
  · rw [emit_of_fits h, Out.str_addText]
  · exact (str_emit_lt h).le

theorem emitAll_cons : emitAll size out (piece :: ps) = emitAll size (piece.emit size out) ps := rfl

theorem length_textOf_cons :
    (textOf (piece :: ps)).length = piece.bytes.length + (textOf ps).length := by
  rw [textOf, List.flatMap_cons, List.length_append]
  rfl

theorem emitAll_of_fits (h : WideFits size out.str ps) :
    emitAll size out ps = out.addText size (textOf ps) := by
  induction ps generalizing out with
  | nil => rfl
  | cons piece ps ih =>
      obtain ⟨hpiece, hps⟩ := h
      have hstr : (piece.emit size out).str = out.str + piece.bytes.length := by
        rw [emit_of_fits hpiece, Out.str_addText]
      rw [emitAll_cons, ih (by rwa [hstr]), emit_of_fits hpiece, ← Out.addText_append]
      rfl

theorem str_emitAll_le (out : Out) (ps : List Piece) :
    (emitAll size out ps).str ≤ out.str + (textOf ps).length := by
  induction ps generalizing out with
  | nil => exact le_rfl
  | cons piece ps ih =>
      have hpiece := @str_emit_le size piece out
      have hps := ih (piece.emit size out)
      rw [emitAll_cons, length_textOf_cons]
      omega

theorem str_emitAll_lt (h : ¬ WideFits size out.str ps) :
    (emitAll size out ps).str < out.str + (textOf ps).length := by
  induction ps generalizing out with
  | nil => exact absurd trivial h
  | cons piece ps ih =>
      rw [emitAll_cons, length_textOf_cons]
      by_cases hpiece : piece.Fits size out.str
      · have hstr : (piece.emit size out).str = out.str + piece.bytes.length := by
          rw [emit_of_fits hpiece, Out.str_addText]
        have hps := @ih (piece.emit size out) (by
          intro hfits
          rw [hstr] at hfits
          exact h ⟨hpiece, hfits⟩)
        omega
      · have hlt := str_emit_lt hpiece
        have hps := @str_emitAll_le size (piece.emit size out) ps
        omega

end

/-! ## The terminator -/

section

variable {size n : ℕ} {mem : Mem} {text : List UInt8} {fmt : List UInt8} {args : List Arg}
  {ps : List Piece} {r : ℤ × Mem}

theorem finish_fst (size : ℕ) (out : Out) : (finish size out).1 = int out.str := by
  unfold finish
  split_ifs
  · dsimp only [Out.addch]
    rw [Nat.cast_add, Nat.cast_one, add_sub_cancel_right]
  · dsimp only

theorem write_single_write (m : Mem) (a : ℕ) (b c : UInt8) :
    (m.write a [b]).write a [c] = m.write a [c] := by
  funext x
  unfold Mem.write
  split_ifs with hx
  · cases x - a <;> rfl
  · rfl

theorem finish_snd : (finish n (Out.addText n ⟨mem, 0⟩ text)).2 =
    if 0 < n then mem.write 0 (text.take (min text.length (n - 1)) ++ [0]) else mem := by
  obtain rfl | hn := Nat.eq_zero_or_pos n
  · rw [Out.addText_of_ge (Nat.zero_le _)]
    rfl
  · rw [Out.addText_eq (Nat.zero_le n), finish, if_pos hn, if_pos hn, Nat.sub_zero]
    dsimp only [Out.addch]
    obtain hlt | hge := Nat.lt_or_ge text.length n
    · -- there is room for the terminator behind the text
      rw [if_neg (by omega), if_pos (by omega), List.take_of_length_le (by omega),
        Nat.min_eq_left (by omega), List.take_of_length_le le_rfl, Nat.zero_add, ← Mem.write_append,
        Nat.zero_add]
    · -- the last character in the buffer is overwritten
      have htake : text.take n = text.take (n - 1) ++ [text[n - 1]] := by
        have hsucc := (List.take_concat_get' text (n - 1) (by omega)).symm
        rwa [Nat.sub_add_cancel hn] at hsucc
      have hlen : (text.take (n - 1)).length = n - 1 := by
        rw [List.length_take]
        omega
      rw [if_pos (by omega), if_neg (by omega), Nat.min_eq_right (by omega), htake,
        ← Mem.write_append, ← Mem.write_append, Nat.zero_add, hlen, write_single_write]

/-- `vsnprintf` truncates as it should exactly if no UTF-16 string has to be cut and the length of
the text is an `int`. -/
theorem truncatesExactly_iff (hps : pieces fmt args = some ps)
    (h : vsnprintf n fmt args mem = some r) :
    TruncatesExactly n (textOf ps) mem r ↔ WideFits n 0 ps ∧ (textOf ps).length < 2 ^ 31 := by
  rw [vsnprintf, hps, Option.map_some, Option.some.injEq] at h
  subst h
  rw [TruncatesExactly, finish_fst]
  constructor
  · rintro ⟨hlen, -⟩
    have hle := @str_emitAll_le n ⟨mem, 0⟩ ps
    have hint : int (emitAll n ⟨mem, 0⟩ ps).str < 2 ^ 31 := Int.bmod_lt (by decide)
    have hlt : (textOf ps).length < 2 ^ 31 := by omega
    have hstr : int (emitAll n ⟨mem, 0⟩ ps).str = (emitAll n ⟨mem, 0⟩ ps).str :=
      int_of_lt (by omega) (by simp at hle; omega)
    refine ⟨?_, hlt⟩
    by_contra hfits
    have hlt' := @str_emitAll_lt n ⟨mem, 0⟩ ps hfits
    simp at hlt'
    omega
  · rintro ⟨hfits, hlt⟩
    rw [@emitAll_of_fits n ⟨mem, 0⟩ ps hfits]
    refine ⟨?_, finish_snd⟩
    rw [Out.str_addText, Nat.zero_add]
    exact int_of_lt (by omega) (by omega)

theorem pieces_percent {piece : Piece} {rest : List UInt8} {args' : List Arg}
    (h : convert fmt args = some (piece, rest, args')) :
    pieces (charCode '%' :: fmt) args = (pieces rest args').map (piece :: ·) := by
  rw [pieces, if_neg (by simp)]
  split
  · next hnone =>
      rw [hnone] at h
      cases h
  · next hsome =>
      rw [hsome] at h
      cases h
      rfl

/-- The text `ab` for the format `%ls`. -/
theorem pieces_ls :
    pieces (ascii "%ls") [.wstr (some [0x61, 0x62])] =
    some [.wide 0 0 [0x61, 0x62] (2 ^ 64 - 1)] := by
  have hconvert : convert (ascii "ls") [.wstr (some [0x61, 0x62])] =
      some (.wide 0 0 [0x61, 0x62] (2 ^ 64 - 1), [], []) := by rfl
  have hfmt : ascii "%ls" = charCode '%' :: ascii "ls" := by rfl
  rw [hfmt, pieces_percent hconvert, pieces]
  rfl

theorem truncatesExactly_iff_ls :
    TruncatesExactly 3 (textOf [.wide 0 0 [0x61, 0x62] (2 ^ 64 - 1)]) (fun _ ↦ 0)
        (finish 3 (emitAll 3 ⟨fun _ ↦ 0, 0⟩ [.wide 0 0 [0x61, 0x62] (2 ^ 64 - 1)])) ↔
      WideFits 3 0 [.wide 0 0 [0x61, 0x62] (2 ^ 64 - 1)] ∧
        (textOf [.wide 0 0 [0x61, 0x62] (2 ^ 64 - 1)]).length < 2 ^ 31 :=
  truncatesExactly_iff pieces_ls (by rw [vsnprintf, pieces_ls, Option.map_some])

/-- In a buffer of one byte, `string16` does not count the second character. -/
theorem not_truncatesExactly_ls :
    ∃ ps r, pieces (ascii "%ls") [.wstr (some [0x61, 0x62])] = some ps ∧
      vsnprintf 1 (ascii "%ls") [.wstr (some [0x61, 0x62])] (fun _ ↦ 0) = some r ∧
      ¬ TruncatesExactly 1 (textOf ps) (fun _ ↦ 0) r := by
  refine ⟨_, _, pieces_ls, by rw [vsnprintf, pieces_ls, Option.map_some], ?_⟩
  rintro ⟨hlen, -⟩
  exact absurd hlen (by decide)

end

end MiniPi.Printf
