import Mathlib

/-!
# Packages, sections and options

The configuration store of `libuci`: the records of `uci.h`, the validators of
`util.c` and the operations of `list.h`.

A string is the list of its characters, a `char` being a `Char` other than NUL.
The linked lists are Lean lists and a pointer to an element of one is its index, so
`uci_lookup_list` returns the index of the first element of the name.  An option
whose name pointer is `NULL` has the empty name.  An operation that throws or returns
an error code is `Except.error`; allocation does not fail.
-/

namespace MiniPi.Uci

/-- A C string. -/
abbrev Str := List Char

/-- The error codes of `uci.h` that the modelled functions throw or return.  `mem`
is the code `1`, which `uci_delete` returns for an index that is no number; `undefined`
is a step whose effect the C standard leaves open. -/
inductive Err where
  | mem
  | inval
  | notfound
  | parse
  | undefined
deriving DecidableEq, Repr

/-- The two kinds of option. -/
inductive Value where
  | string (v : Str)
  | list (items : List Str)
deriving DecidableEq, Repr

/-- `struct uci_option`. -/
structure Opt where
  name : Str
  value : Value
deriving DecidableEq, Repr

/-- `struct uci_section`.  `inplace` says that `type` points behind the structure
itself, where `uci_alloc_section` puts it. -/
structure Section where
  name : Str
  type : Str
  anonymous : Bool
  inplace : Bool
  options : List Opt
deriving DecidableEq, Repr

/-- `enum uci_command`. -/
inductive Cmd where
  | add
  | remove
  | change
  | rename
  | reorder
  | listAdd
  | listDel
deriving DecidableEq, Repr

/-- `struct uci_delta`; the option name is the name of its element. -/
structure Delta where
  cmd : Cmd
  sec : Str
  option : Option Str
  value : Option Str
deriving DecidableEq, Repr

/-- `struct uci_package`. -/
structure Package where
  name : Str
  sections : List Section
  nSection : ℕ
  hasDelta : Bool
  delta : List Delta
deriving DecidableEq, Repr

/-- `uci_alloc_package`. -/
def allocPackage (name : Str) (hasDelta : Bool) : Package where
  name := name
  sections := []
  nSection := 0
  hasDelta := hasDelta
  delta := []

/-! ## Validators -/

/-- `isspace` of the C locale. -/
def isspace (c : Char) : Bool := c == ' ' || (9 ≤ c.toNat && c.toNat ≤ 13)

/-- What the loop of `uci_validate_str` asks of one character. -/
def validChar (name package : Bool) (c : Char) : Bool :=
  c.isAlphanum || c == '_' || (c == '-' && package) || !(name || c.toNat < 33 || 126 < c.toNat)

/-- `uci_validate_str`. -/
def validateStr (str : Str) (name package : Bool) : Bool :=
  !str.isEmpty && str.all (validChar name package)

/-- `uci_validate_package`. -/
def validatePackage (str : Str) : Bool := validateStr str false true

/-- `uci_validate_type`. -/
def validateType (str : Str) : Bool := validateStr str false false

/-- `uci_validate_name`. -/
def validateName (str : Str) : Bool := validateStr str true false

/-- `uci_validate_text`. -/
def validateText (str : Str) : Bool :=
  str.all fun c ↦ !(c.toNat < 32 && c != '\t' && c != '\n' && c != '\r')

/-! ## Numbers in strings -/

/-- The value of a run of decimal digits. -/
def digitsValue (ds : Str) : ℕ := ds.foldl (fun n c ↦ 10 * n + (c.toNat - '0'.toNat)) 0

/-- The sign, the leading digits and the rest of a number, as the `strto*` functions
and `%d` read it. -/
def scanNumber (str : Str) : Bool × Str × Str :=
  let str := str.dropWhile isspace
  let (neg, str) := match str with
    | '-' :: str => (true, str)
    | '+' :: str => (false, str)
    | _ => (false, str)
  (neg, str.takeWhile Char.isDigit, str.dropWhile Char.isDigit)

/-- A number brought into the range of a 32 bit `long`. -/
def clamp (n : ℤ) : ℤ := max (-2 ^ 31) (min n (2 ^ 31 - 1))

/-- `strtol(str, &t, 10)` where the whole of `str` has to be read. -/
def strtol (str : Str) : Option ℤ :=
  let (neg, ds, rest) := scanNumber str
  if str = [] then some 0
  else if ds = [] ∨ rest ≠ [] then none
  else some (clamp (if neg then -(digitsValue ds : ℤ) else digitsValue ds))

/-- `sscanf(str, "%d", &index)`: no conversion is the code `1` of the caller, and
a string of blanks leaves `index` unset. -/
def sscanf (str : Str) : Except Err ℤ :=
  let (neg, ds, _) := scanNumber str
  if str.dropWhile isspace = [] then .error .undefined
  else if ds = [] then .error .mem
  else .ok (clamp (if neg then -(digitsValue ds : ℤ) else digitsValue ds))

/-- `strtoul(str, NULL, 10)` passed on as an `int`. -/
def strtoul (str : Str) : ℤ :=
  let (neg, ds, _) := scanNumber str
  let n := min (digitsValue ds) (2 ^ 32)
  if n = 2 ^ 32 then -1
  else Int.bmod (if neg then -(n : ℤ) else n) (2 ^ 32)

/-- `%d` of `sprintf`. -/
def printInt (n : ℤ) : Str :=
  if n < 0 then '-' :: Nat.toDigits 10 n.natAbs else Nat.toDigits 10 n.natAbs

/-- `%0wx` of `sprintf`. -/
def printHex (w n : ℕ) : Str :=
  let ds := Nat.toDigits 16 n
  List.replicate (w - ds.length) '0' ++ ds

/-! ## Lists -/

/-- `uci_lookup_list` on sections. -/
def lookupSection (sections : List Section) (name : Str) : Option ℕ :=
  sections.findIdx? (·.name == name)

/-- `uci_lookup_list` on options. -/
def lookupOption (options : List Opt) (name : Str) : Option ℕ :=
  options.findIdx? (·.name == name)

/-- The index at which `uci_list_set_pos` puts an element back, among `n` others. -/
def setPos (n : ℕ) (pos : ℤ) : ℕ := min pos.toNat n

/-- `uci_alloc_option`. -/
def allocOption (s : Section) (name value : Str) : Section :=
  { s with options := s.options ++ [⟨name, .string value⟩] }

/-- `uci_alloc_list` with the items added to the new list. -/
def allocList (s : Section) (name : Str) (items : List Str) : Section :=
  { s with options := s.options ++ [⟨name, .list items⟩] }

/-- `uci_free_option`. -/
def freeOption (s : Section) (k : ℕ) : Section := { s with options := s.options.eraseIdx k }

/-- The option `k` of a section, changed. -/
def modifyOption (s : Section) (k : ℕ) (f : Opt → Opt) : Section :=
  { s with options := s.options.modify k f }

/-- The section `i` of a package, changed. -/
def modifySection (p : Package) (i : ℕ) (f : Section → Section) : Package :=
  { p with sections := p.sections.modify i f }

/-- `uci_free_section`. -/
def freeSection (p : Package) (i : ℕ) : Package := { p with sections := p.sections.eraseIdx i }

/-- `djbhash`; `2 ^ 32 - 1` is `~0`. -/
def djbhash (hash : ℕ) (str : Str) : ℕ :=
  let hash := if hash = 2 ^ 32 - 1 then 5381 else hash
  str.foldl (fun h c ↦ (h * 33 + c.toNat) % 2 ^ 32) hash % 2 ^ 31

/-- The hash that `uci_fixup_section` computes. -/
def sectionHash (s : Section) : ℕ :=
  s.options.foldl (fun h o ↦ match o.value with
    | .string v => djbhash (djbhash h o.name) v
    | .list _ => djbhash h o.name) (djbhash (2 ^ 32 - 1) s.type)

/-- `uci_fixup_section`: `nSection` is the counter of the package. -/
def fixupSection (nSection : ℕ) (s : Section) : Section :=
  if s.name ≠ [] then s
  else { s with
    name := ['c', 'f', 'g'] ++ printHex 2 (nSection % 2 ^ 32) ++
      printHex 4 (sectionHash s % 2 ^ 16) }

/-- The section that `uci_alloc_section` makes. -/
def newSection (type name : Str) : Section where
  name := name
  type := type
  anonymous := name.isEmpty
  inplace := true
  options := []

/-- `uci_alloc_section`. -/
def allocSection (p : Package) (s : Section) : Package :=
  { p with sections := p.sections ++ [s], nSection := p.nSection + 1 }

/-- `uci_add_delta` on the delta list of the package, under the condition all callers
put before it. -/
def addDelta (internal : Bool) (p : Package) (cmd : Cmd) (sec : Str) (option value : Option Str) :
    Package :=
  if !internal && p.hasDelta then { p with delta := p.delta ++ [⟨cmd, sec, option, value⟩] } else p

/-! ## Pointers -/

/-- `struct uci_ptr` without the package, which is passed along.  `done`, `complete` and
`extended` are the lookup flags; `last` is the section that `ptr->last` points to,
where it points to one. -/
structure Ptr where
  sec : Option Str
  option : Option Str
  value : Option Str
  extended : Bool
  done : Bool
  complete : Bool
  s : Option ℕ
  o : Option ℕ
  last : Option ℕ
deriving DecidableEq, Repr

/-- The names and the value that a caller puts into a pointer.  `extended` is the flag
that `uci_parse_ptr` sets for a section that is no valid name. -/
structure Target where
  sec : Option Str
  option : Option Str
  value : Option Str
  extended : Bool
deriving DecidableEq, Repr

/-- The pointer before its lookup. -/
def Target.ptr (t : Target) : Ptr where
  sec := t.sec
  option := t.option
  value := t.value
  extended := t.extended
  done := false
  complete := false
  s := none
  o := none
  last := none

/-- The parts of `@type[index]`, when the text has this shape. -/
def splitExt (sec : Str) : Option (Str × Str) :=
  match sec with
  | '@' :: rest =>
    match rest.dropWhile (· != '[') with
    | [] => none
    | _ :: idx =>
      match idx.dropWhile (· != ']') with
      | [_] => some (rest.takeWhile (· != '['), idx.takeWhile (· != ']'))
      | _ => none
  | _ => none

/-- The sections that an extended lookup counts: all, or those of a type. -/
def extCandidates (sections : List Section) (type : Str) : List ℕ :=
  (List.range sections.length).filter fun i ↦
    type.isEmpty || (sections[i]?.map (·.type)) == some type

/-- The candidate of an index; a negative one counts from the end. -/
def extPick (found : List ℕ) (idx : ℤ) : Option ℕ :=
  let idx := if idx < 0 then idx + found.length else idx
  if idx < 0 then none else found[idx.toNat]?

/-- `uci_lookup_ext_section`. -/
def lookupExtSection (p : Package) (sec : Str) : Except Err (Option ℕ) :=
  match splitExt sec with
  | none => .error .inval
  | some (type, idxstr) =>
    match strtol idxstr with
    | none => .error .inval
    | some idx =>
      if !type.isEmpty && !validateType type then .error .inval
      else .ok (extPick (extCandidates p.sections type) idx)

/-- The search for the section of a pointer in `uci_lookup_ptr`. -/
def lookupPtrSection (p : Package) (extended : Bool) (sec : Str) : Except Err (Option ℕ) :=
  if extended then lookupExtSection p sec else .ok (lookupSection p.sections sec)

/-- What `uci_lookup_ptr` stores once it has the section `i`. -/
def lookupPtrOption (ptr : Ptr) (i : ℕ) (s : Section) : Ptr :=
  let ptr := { ptr with
    s := some i
    last := some i
    sec := if ptr.extended then some s.name else ptr.sec }
  match ptr.option with
  | none => { ptr with complete := true }
  | some name =>
    match lookupOption s.options name with
    | none => ptr
    | some k => { ptr with o := some k, complete := true }

/-- `uci_lookup_ptr` in a package that is loaded. -/
def lookupPtr (p : Package) (ptr : Ptr) : Except Err Ptr :=
  let ptr := { ptr with done := true }
  match ptr.sec with
  | none => .ok { ptr with complete := true }
  | some sec =>
    match lookupPtrSection p ptr.extended sec with
    | .error e => .error e
    | .ok none => .ok ptr
    | .ok (some i) =>
      match p.sections[i]? with
      | none => .ok ptr
      | some s => .ok (lookupPtrOption ptr i s)

/-- `uci_expand_ptr`. -/
def expandPtr (p : Package) (ptr : Ptr) (complete : Bool) : Except Err Ptr :=
  match if ptr.done then .ok ptr else lookupPtr p ptr with
  | .error e => .error e
  | .ok ptr => if complete && !ptr.complete then .error .notfound else .ok ptr

end MiniPi.Uci
