import MiniPi.Uci.Basic

/-!
# The operations of `list.h`

Each function takes the flag `internal` (a call through `UCI_INTERNAL`, which records
no delta), the package and its arguments.  What an operation does once
`uci_expand_ptr` has resolved the pointer is a function of its own, since `uci_import`
comes in with pointers it has filled itself.  `uci_set` also returns `ptr->last`.
-/

namespace MiniPi.Uci

/-- The option that `ptr->o` points to. -/
def ptrOption (p : Package) (ptr : Ptr) : Option (ℕ × Opt) :=
  match ptr.s, ptr.o with
  | some i, some k => (p.sections[i]?.bind (·.options[k]?)).map (k, ·)
  | _, _ => none

/-! ## Rename, reorder and add -/

/-- `uci_rename` behind `uci_expand_ptr`. -/
def renameAt (internal : Bool) (p : Package) (ptr : Ptr) : Except Err Package :=
  match ptr.s, ptr.value with
  | some i, some v =>
    let p := addDelta internal p .rename (ptr.sec.getD []) ptr.option (some v)
    match ptr.o with
    | some k => .ok (modifySection p i (modifyOption · k ({ · with name := v })))
    | none => .ok (modifySection p i ({ · with name := v, anonymous := false }))
  | _, _ => .error .inval

/-- `uci_rename`. -/
def uciRename (internal : Bool) (p : Package) (ptr : Ptr) : Except Err Package :=
  (expandPtr p ptr true).bind (renameAt internal p)

/-- `uci_reorder_section` on the section `i`. -/
def uciReorderSection (internal : Bool) (p : Package) (i : ℕ) (pos : ℤ) : Except Err Package :=
  match p.sections[i]? with
  | none => .error .inval
  | some s =>
    let others := p.sections.eraseIdx i
    let j := setPos others.length pos
    let p := { p with sections := others.insertIdx j s }
    -- The head before the element differs exactly when its index does.
    .ok (if j ≠ i then addDelta internal p .reorder s.name none (some (printInt pos)) else p)

/-- The section that `uci_add_section` makes. -/
def anonSection (p : Package) (type : Str) : Section :=
  fixupSection (p.nSection + 1) (newSection type [])

/-- `uci_add_section`; the section added is the last one. -/
def uciAddSection (internal : Bool) (p : Package) (type : Str) : Package :=
  let s := anonSection p type
  addDelta internal (allocSection p s) .add s.name none (some type)

/-! ## Delete -/

/-- The part of `uci_delete` that removes the item of a list. -/
def deleteItem (internal : Bool) (p : Package) (ptr : Ptr) (i k : ℕ) (items : List Str) (v : Str) :
    Except Err Package :=
  match sscanf v with
  | .error e => .error e
  | .ok index =>
    if 0 ≤ index ∧ index < items.length then
      let p := addDelta internal p .remove (ptr.sec.getD []) ptr.option (some v)
      .ok (modifySection p i
        (modifyOption · k ({ · with value := .list (items.eraseIdx index.toNat) })))
    else .ok p

/-- The part of `uci_delete` that removes the element itself. -/
def deleteElement (internal : Bool) (p : Package) (ptr : Ptr) (i : ℕ) : Package :=
  let p := addDelta internal p .remove (ptr.sec.getD []) ptr.option none
  match ptr.o with
  | some k => modifySection p i (freeOption · k)
  | none => freeSection p i

/-- `uci_delete` behind `uci_expand_ptr`. -/
def deleteAt (internal : Bool) (p : Package) (ptr : Ptr) : Except Err Package :=
  match ptr.s with
  | none => .error .inval
  | some i =>
    match ptrOption p ptr, ptr.value with
    | some (k, ⟨_, .list items⟩), some (c :: v) => deleteItem internal p ptr i k items (c :: v)
    | _, _ => .ok (deleteElement internal p ptr i)

/-- `uci_delete`. -/
def uciDelete (internal : Bool) (p : Package) (ptr : Ptr) : Except Err Package :=
  (expandPtr p ptr true).bind (deleteAt internal p)

/-! ## Lists -/

/-- `uci_add_list` behind `uci_expand_ptr`. -/
def addListAt (internal : Bool) (p : Package) (ptr : Ptr) : Except Err Package :=
  match ptr.s, ptr.value with
  | some i, some v =>
    let q := addDelta internal p .listAdd (ptr.sec.getD []) ptr.option (some v)
    let name := ptr.option.getD []
    match ptrOption p ptr with
    | some (k, ⟨_, .list items⟩) =>
      .ok (modifySection q i (modifyOption · k ({ · with value := .list (items ++ [v]) })))
    -- A string becomes a list: the new option stands at the end.
    | some (k, ⟨_, .string old⟩) =>
      .ok (modifySection q i fun s ↦ allocList (freeOption s k) name [old, v])
    | none => .ok (modifySection q i (allocList · name [v]))
  | _, _ => .error .inval

/-- `uci_add_list`. -/
def uciAddList (internal : Bool) (p : Package) (ptr : Ptr) : Except Err Package :=
  (expandPtr p ptr false).bind (addListAt internal p)

/-- `uci_del_list` behind `uci_expand_ptr`. -/
def delListAt (internal : Bool) (p : Package) (ptr : Ptr) : Except Err Package :=
  match ptr.s, ptr.value with
  | some i, some v =>
    match ptrOption p ptr with
    | some (k, ⟨_, .list items⟩) =>
      let q := addDelta internal p .listDel (ptr.sec.getD []) ptr.option (some v)
      .ok (modifySection q i (modifyOption · k ({ · with value := .list (items.filter (· != v)) })))
    | _ => .ok p
  | _, _ => .error .inval

/-- `uci_del_list`. -/
def uciDelList (internal : Bool) (p : Package) (ptr : Ptr) : Except Err Package :=
  (expandPtr p ptr false).bind (delListAt internal p)

/-! ## Set -/

/-- The lookup of a missing `ptr->o` in `uci_set`. -/
def fillOption (p : Package) (ptr : Ptr) : Ptr :=
  match ptr.o, ptr.s, ptr.option with
  | none, some i, some name =>
    { ptr with o := p.sections[i]?.bind fun s ↦ lookupOption s.options name }
  | _, _, _ => ptr

/-- The branches of `uci_set` for an option and a value that is not empty. -/
def setOption (internal : Bool) (p : Package) (ptr : Ptr) (i : ℕ) (name v : Str) : Package :=
  let q := addDelta internal p .change (ptr.sec.getD []) ptr.option (some v)
  match ptrOption p ptr with
  -- new option
  | none => modifySection q i (allocOption · name v)
  -- update option
  | some (k, o) =>
    if o.value = .string v then p
    else modifySection q i fun s ↦ allocOption (freeOption s k) name v

/-- The branches of `uci_set` for a section and a type that is not empty. -/
def setSection (internal : Bool) (p : Package) (ptr : Ptr) (v : Str) : Package × Option ℕ :=
  let q := addDelta internal p .change (ptr.sec.getD []) none (some v)
  match ptr.s with
  -- new section
  | none => (allocSection q (newSection v (ptr.sec.getD [])), some p.sections.length)
  -- update section
  | some i =>
    (modifySection q i ({ · with type := v, inplace := false }),
      if (p.sections[i]?.map (·.inplace)) = some true then some i else ptr.last)

/-- `uci_set` behind `uci_expand_ptr`. -/
def setAt (internal : Bool) (p : Package) (ptr : Ptr) : Except Err (Package × Option ℕ) :=
  match ptr.value with
  | none => .error .inval
  | some v =>
    if ptr.s = none ∧ (ptr.option ≠ none ∨ ptr.sec = none) then .error .inval
    else if ptr.option = none ∧ v ≠ [] ∧ validateType v = false then .error .inval
    else
      let ptr := fillOption p ptr
      if v = [] then
        if ptr.complete then
          -- `UCI_HANDLE_ERR` has cleared the flag `internal`, so the delete is recorded.
          (uciDelete false p ptr).map (·, ptr.last)
        else .ok (p, ptr.last)
      else
        match ptr.option, ptr.s with
        | some name, some i => .ok (setOption internal p ptr i name v, none)
        | _, _ => .ok (setSection internal p ptr v)

/-- `uci_set`. -/
def uciSet (internal : Bool) (p : Package) (ptr : Ptr) : Except Err (Package × Option ℕ) :=
  (expandPtr p ptr false).bind (setAt internal p)

end MiniPi.Uci
