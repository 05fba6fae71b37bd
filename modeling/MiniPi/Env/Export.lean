import MiniPi.Env.Qsort

/-!
# Export and import of the environment

`hexport_r` writes the entries of the table, sorted by key, as `name=value` texts
that each end in a separator, and `himport_r` reads such a text back.

A buffer is the list of its bytes.  `hexport_r` sizes its buffer in a first pass
and fills it in a second one; a second pass that writes more bytes than the buffer
has is the outcome `overflow`.  `himport_r` works on a copy of its input with a NUL
behind it, and the pointer `dp` is the part of the copy it has not passed yet.
What the function stores into the copy lies behind `dp` and is never read through
`dp` again, so the names and values are returned instead.
-/

namespace MiniPi.Env

/-- The byte of an ASCII character. -/
abbrev chr (c : Char) : UInt8 := c.toUInt8

/-- The byte that ends a C string. -/
abbrev nul : UInt8 := 0

/-! ## Export -/

/-- `cmpkey`. -/
def cmpkey (e₁ e₂ : Entry) : ℤ := strcmp e₁.key e₂.key

/-- The entries that pass 1 of `hexport_r` collects, in slot order.  `found` is the
answer of `match_entry`, and `hideDot` the flag `H_HIDE_DOT`. -/
def collect (htab : Htab) (hideDot : Bool) (argc : ℕ) (found : Entry → Bool) : List Entry :=
  ((List.range' 1 htab.size).map htab.node).filterMap fun node ↦
    if 0 < node.used then
      if 0 < argc ∧ found node.entry = false then none
      else if hideDot ∧ node.entry.key.head? = some (chr '.') then none
      else some node.entry
    else none

/-- The characters pass 2 puts a backslash before. -/
def needsEscape (sep c : UInt8) : Bool := c == sep || c == chr '\\'

/-- The room pass 1 reckons for a value. -/
def valueRoom (sep : UInt8) (data : Str) : ℕ :=
  if sep = nul then data.length
  else (data.map fun c ↦ if needsEscape sep c then 2 else 1).sum

/-- The room pass 1 reckons for an entry: two more for `=` and the separator. -/
def entryRoom (sep : UInt8) (e : Entry) : ℕ := e.key.length + valueRoom sep e.data + 2

/-- `totlen` after pass 1. -/
def totlen (sep : UInt8) (list : List Entry) : ℕ := (list.map (entryRoom sep)).sum

/-- A value as pass 2 writes it. -/
def escapeValue (sep : UInt8) (data : Str) : Str :=
  data.flatMap fun c ↦ if needsEscape sep c then [chr '\\', c] else [c]

/-- An entry as pass 2 writes it. -/
def writeEntry (sep : UInt8) (e : Entry) : Str :=
  e.key ++ chr '=' :: escapeValue sep e.data ++ [sep]

/-- Everything pass 2 writes, with the final NUL. -/
def writeEntries (sep : UInt8) (list : List Entry) : Str :=
  list.flatMap (writeEntry sep) ++ [nul]

/-- How `hexport_r` ends. -/
inductive Exported where
  /-- `-1` with `ENOMEM`: the buffer size given is too small. -/
  | tooSmall
  /-- Pass 2 writes past the end of the buffer. -/
  | overflow
  /-- The buffer; its length is the return value. -/
  | ok (buf : List UInt8)
deriving DecidableEq, Repr

/-- The buffer size `hexport_r` works with: the one given, or as much as pass 1
reckoned. -/
def bufferSize (sep : UInt8) (list : List Entry) (size : ℕ) : ℕ :=
  if size ≠ 0 then size else totlen sep list + 1

/-- Pass 2 of `hexport_r` into a buffer of `size` zeroed bytes. -/
def fillBuffer (text : Str) (size : ℕ) : Exported :=
  if size < text.length then .overflow
  else .ok (text ++ List.replicate (size - text.length) nul)

/-- `hexport_r`. -/
def hexportR (htab : Htab) (sep : UInt8) (hideDot : Bool) (size argc : ℕ)
    (found : Entry → Bool) : Exported :=
  let list := collect htab hideDot argc found
  let total := totlen sep list
  let list := qsort cmpkey list
  if size ≠ 0 ∧ size < total + 1 then .tooSmall
  else fillBuffer (writeEntries sep list) (bufferSize sep list size)

/-! ## Import -/

/-- `isblank`. -/
def isblank (c : UInt8) : Bool := c == chr ' ' || c == chr '\t'

/-- `*dp`. -/
def peek (dp : Str) : UInt8 := dp.headD nul

/-- The characters before `=`, NUL and the separator are the name. -/
def inName (sep c : UInt8) : Bool := c != chr '=' && c != nul && c != sep

/-- The loop that reads a value: the value and the place where it ends. -/
def parseValue (sep : UInt8) : Str → Str × Str
  | [] => ([], [])
  | c :: dp =>
      if c = nul ∨ c = sep then ([], c :: dp)
      else if c = chr '\\' ∧ peek dp ≠ nul then
        match dp with
        | [] => ([c], [])
        | d :: dp => ((parseValue sep dp).map (d :: ·) id)
      else (parseValue sep dp).map (c :: ·) id

/-- What one round of the loop of `himport_r` reads. -/
inductive Item where
  /-- A comment line. -/
  | comment
  /-- `name` or `name=`, which deletes the variable. -/
  | delete (name : Str)
  /-- `name=value`. -/
  | enter (name value : Str)
deriving DecidableEq, Repr

/-- The reading part of one round of the loop, and `dp` after it. -/
def parseItem (sep : UInt8) (dp : Str) : Item × Str :=
  let dp := dp.dropWhile isblank
  if peek dp = chr '#' then
    (.comment, (dp.dropWhile fun c ↦ c != nul && c != sep).tail)
  else
    let name := dp.takeWhile (inName sep)
    let dp := dp.dropWhile (inName sep)
    if peek dp = nul ∨ peek dp.tail = nul ∨ peek dp = sep ∨ peek dp.tail = sep then
      (.delete name, if peek dp = chr '=' then dp.tail.tail else dp.tail)
    else
      let (value, dp) := parseValue sep dp.tail
      (.enter name value, dp.tail)

/-- The state of `himport_r`: the table, and the variables still looked for. -/
structure Import where
  /-- The table. -/
  htab : Htab
  /-- `localvars`, where a variable already met is `none`. -/
  vars : List (Option Str)
deriving DecidableEq, Repr

/-- `drop_var_from_set`. -/
def dropVarFromSet (name : Str) (vars : List (Option Str)) : Bool × List (Option Str) :=
  if vars.length = 0 then (true, vars)
  else (decide (some name ∈ vars), vars.map fun v ↦ if v = some name then none else v)

/-- The answers of the hooks to a new value, or to a deletion. -/
abbrev Hooks := Htab → Str → Option Str → Verdict

/-- How the loop of `himport_r` goes on after an item. -/
inductive Round where
  /-- The next round follows. -/
  | next (st : Import)
  /-- The function returns `0`. -/
  | stop (st : Import)
deriving DecidableEq, Repr

/-- The acting part of one round. -/
def importItem (hooks : Hooks) (st : Import) : Item → Option Round
  | .comment => some (.next st)
  | .delete name =>
      let (listed, vars) := dropVarFromSet name st.vars
      if listed = false then some (.next { st with vars := vars })
      else
        (hdeleteR st.htab name (hooks st.htab name none)).map fun (_, htab) ↦ .next ⟨htab, vars⟩
  | .enter name value =>
      if name = [] then some (.stop st)
      else
        let (listed, vars) := dropVarFromSet name st.vars
        if listed = false then some (.next { st with vars := vars })
        else
          (hsearchR st.htab name (.enter value (hooks st.htab name (some value)))).map
            fun (_, htab) ↦ .next ⟨htab, vars⟩

/-- The loop of `himport_r`.  `spare` is the number of bytes of the copy from
`data + size` on; the loop goes on while `dp` is before that place and not at a
NUL.  `none` means that the fuel ran out. -/
def importLoop (sep : UInt8) (hooks : Hooks) (spare : ℕ) : ℕ → Str → Import → Option Round
  | 0, _, _ => none
  | fuel + 1, dp, st =>
      let (item, dp) := parseItem sep dp
      match importItem hooks st item with
      | none => none
      | some (.stop st) => some (.stop st)
      | some (.next st) =>
          if spare < dp.length ∧ peek dp ≠ nul then importLoop sep hooks spare fuel dp st
          else some (.next st)

/-- The bytes kept when carriage returns in front of line feeds are dropped, up to
the first NUL or the end. -/
def dropCrs : Str → Str
  | [] => []
  | c :: s =>
      if c = nul then []
      else if c = chr '\r' ∧ s.head? = some (chr '\n') then dropCrs s
      else c :: dropCrs s

/-- The loop for `crlf_is_lf`: the copy, in which the kept bytes have moved up, and
the new size. -/
def crlfIsLf (env : Str) : Str × ℕ :=
  let kept := dropCrs env
  let passed := (env.takeWhile (· != nul)).length
  (kept ++ (env ++ [nul]).drop kept.length, env.length - (passed - kept.length))

/-- The deletion of the listed variables that the text did not mention. -/
def deleteUnseen (hooks : Hooks) : List (Option Str) → Htab → Option Htab
  | [], htab => some htab
  | none :: vars, htab => deleteUnseen hooks vars htab
  | some name :: vars, htab =>
      match hdeleteR htab name (hooks htab name none) with
      | none => none
      | some (_, htab) => deleteUnseen hooks vars htab

/-- The number of entries `himport_r` creates a table for. -/
def importEntries (size : ℕ) : ℕ := min (64 + size / 8) 512

/-- `himport_r`: whether it returns `1`, and the table afterwards.  `old` is the
table `htab` has before the call, if it has one. -/
def himportR (hooks : Hooks) (old : Option Htab) (env : Str) (sep : UInt8)
    (noclear crlf : Bool) (vars : List Str) : Option (Bool × Htab) :=
  let old := if noclear = false ∧ vars = [] then none else old
  match old.or (hcreateR (importEntries env.length)) with
  | none => none
  | some htab =>
      if env.length = 0 then some (true, htab)
      else
        let (data, size) := if crlf then crlfIsLf env else (env ++ [nul], env.length)
        match importLoop sep hooks (data.length - size) data.length data
            ⟨htab, vars.map some⟩ with
        | none => none
        | some (.stop st) => some (false, st.htab)
        | some (.next st) =>
            if noclear then some (true, st.htab)
            else (deleteUnseen hooks st.vars st.htab).map fun htab ↦ (true, htab)

end MiniPi.Env
