import MiniPi.Env.Attr
import MiniPi.Env.HashMap

/-!
# Flags and callbacks of the environment

`env/flags.c` and `env/callback.c`: every entry of `env_htab` carries the binary flags and
the callback that the lists `.flags` and `.callbacks`, or the static lists, give its name.
They are set for all entries when one of the two variables changes, and for a new entry
when it is created.

The table is the one of `MiniPi.Env.HashTable`; the fields `callback` and `flags` of the
entry in a slot are kept beside it.  `GD_FLG_ENV_READY` is set, so `env_get` reads the
table.  `first_call` and the pointer cached after it are a `CachedList`, which also
records when the string the pointer leads to has been freed; a function that then reads
it, or copies attributes into a buffer too small for them, has no result.
-/

open MiniPi.Lib

namespace MiniPi.Env

/-! ## Binary flags -/

/-- `ENV_FLAGS_VAR`. -/
def flagsVar : Str := ascii ".flags"

/-- `ENV_CALLBACK_VAR`. -/
def callbackVar : Str := ascii ".callbacks"

/-- `ENV_FLAGS_VARACCESS_PREVENT_DELETE`. -/
def preventDelete : ℕ := 0x08

/-- `ENV_FLAGS_VARACCESS_PREVENT_CREATE`. -/
def preventCreate : ℕ := 0x10

/-- `ENV_FLAGS_VARACCESS_PREVENT_OVERWR`. -/
def preventOverwr : ℕ := 0x20

/-- `ENV_FLAGS_VARACCESS_PREVENT_NONDEF_OVERWR`. -/
def preventNondefOverwr : ℕ := 0x40

/-- `env_flags_vartype_rep`, with the types of the network. -/
def envFlagsVartypeRep : Str := ascii "sdxbim"

/-- `env_flags_varaccess_rep`. -/
def envFlagsVaraccessRep : Str := ascii "aroc"

/-- `env_flags_varaccess_mask`. -/
def envFlagsVaraccessMask : List ℕ :=
  [0, preventDelete ||| preventCreate ||| preventOverwr, preventDelete ||| preventOverwr,
    preventDelete ||| preventNondefOverwr]

/-- The position of a character of the flags in the table of its kind, or the first one. -/
def parseRep (rep flags : Str) (loc : ℕ) : ℕ :=
  match flags[loc]? with
  | none => 0
  | some c => if c ∈ rep then rep.idxOf c else 0

/-- `env_flags_parse_vartype`. -/
def envFlagsParseVartype (flags : Str) : ℕ := parseRep envFlagsVartypeRep flags 0

/-- `env_flags_parse_varaccess`. -/
def envFlagsParseVaraccess (flags : Str) : ℕ := parseRep envFlagsVaraccessRep flags 1

/-- `env_parse_flags_to_bin`. -/
def envParseFlagsToBin (flags : Str) : ℕ :=
  envFlagsParseVartype flags &&& 0x7 |||
    envFlagsVaraccessMask.getD (envFlagsParseVaraccess flags) 0

/-! ## Checking a change -/

/-- `isxdigit`. -/
def isxdigit (c : UInt8) : Bool := isdigit c || (65 ≤ c && c ≤ 70) || (97 ≤ c && c ≤ 102)

/-- `is_hex_prefix`. -/
def isHexPrefix (value : Str) : Bool :=
  value[0]? == some 48 && (value[1]? == some 120 || value[1]? == some 88)

/-- `skip_num`: what stands after the digits, of which there may be any number or at most
`maxDigits`. -/
def skipNum (hex : Bool) (value : Str) (maxDigits : Option ℕ) : Str :=
  let value := if hex && isHexPrefix value then value.drop 2 else value
  let digits := value.takeWhile fun c ↦ if hex then isxdigit c else isdigit c
  value.drop (match maxDigits with
    | none => digits.length
    | some n => min n digits.length)

/-- `value + 2 == end && is_hex_prefix(value)`. -/
def isBarePrefix (value rest : Str) : Bool :=
  isHexPrefix value && decide (value.length = rest.length + 2)

/-- The loop of `eth_validate_ethaddr_str`, for the groups that are left. -/
def ethValidateLoop : ℕ → Str → Bool
  | 0, _ => true
  | n + 1, cur =>
      let rest := skipNum true cur (some 2)
      if rest = cur ∨ isBarePrefix cur rest then false
      else if n = 0 then rest = []
      else rest.head? = some 58 && ethValidateLoop n rest.tail

/-- The loop of `_env_flags_validate_type` over the parts of an IP address. -/
def ipaddrValidateLoop : ℕ → Str → Bool
  | 0, _ => true
  | n + 1, cur =>
      let rest := skipNum false cur (some 3)
      if rest = cur then false
      else if n = 0 then rest = []
      else rest.head? = some 46 && ipaddrValidateLoop n rest.tail

/-- `_env_flags_validate_type`. -/
def envFlagsValidateType (value : Str) (type : ℕ) : Bool :=
  match type with
  | 0 => true
  | 1 => skipNum false value none = []
  | 2 => skipNum true value none = [] && !isBarePrefix value (skipNum true value none)
  | 3 => decide (value.length = 1) && (ascii "1ytYT0nfNF").contains (value.headD 0)
  | 4 => ipaddrValidateLoop 4 value
  | 5 => ethValidateLoop 6 value
  | 6 => false
  | _ => true

/-- `enum env_op`. -/
inductive Op where
  | create
  | delete
  | overwrite
deriving DecidableEq, Repr

/-- What the build fixes: the static lists, the callbacks that exist besides `flags` and
`callbacks`, and the default environment. -/
structure Board where
  /-- `ENV_FLAGS_LIST_STATIC`. -/
  flagsListStatic : Str
  /-- `ENV_CALLBACK_LIST_STATIC`. -/
  callbackListStatic : Str
  /-- The names of the other callbacks in the linker list. -/
  callbacks : List Str
  /-- `env_get_default`. -/
  envGetDefault : Str → Option Str
  /-- The flags of the static list fit the buffer of `env_flags_init`. -/
  flags_fit : ∀ e ∈ attrEntries flagsListStatic, (e.2.getD []).length ≤ 2
  /-- The names of callbacks fit the buffer of `env_callback_init`. -/
  callbacks_fit : ∀ e ∈ attrEntries callbackListStatic, (e.2.getD []).length ≤ 255

/-- `env_flags_validate`: whether the change is accepted.  `flags` and `data` are those of
the entry, and `force` is `H_FORCE`. -/
def Board.envFlagsValidate (board : Board) (name : Str) (flags : ℕ) (data : Str)
    (newval : Option Str) (op : Op) (force : Bool) : Bool :=
  if op ≠ .delete ∧ ¬envFlagsValidateType (newval.getD []) (flags &&& 0x7) then false
  else if force then true
  else match op with
    | .delete => flags &&& preventDelete == 0
    | .overwrite =>
        if flags &&& preventOverwr ≠ 0 then false
        else if flags &&& preventNondefOverwr ≠ 0 then
          data = (board.envGetDefault name).getD []
        else true
    | .create => flags &&& preventCreate == 0

/-! ## The state -/

/-- A function in the linker list of callbacks. -/
inductive Callback where
  /-- `on_flags`. -/
  | flags
  /-- `on_callbacks`. -/
  | callbacks
  /-- A callback of another subsystem, which leaves the environment alone. -/
  | other (name : Str)
deriving DecidableEq, Repr

/-- The fields of `struct env_entry` besides the key and the data. -/
structure EntryHooks where
  callback : Option Callback
  flags : ℕ
deriving DecidableEq, Repr

/-- `first_call` and the list cached after it. -/
inductive CachedList where
  /-- `first_call` is set. -/
  | uncalled
  /-- There was no list at the first call. -/
  | null
  /-- The pointer leads to the value the variable still has. -/
  | live
  /-- The pointer leads to a value that was freed. -/
  | dangling
deriving DecidableEq, Repr

/-- `env_htab` and the static variables of the two files. -/
structure State where
  /-- The keys and values. -/
  htab : Htab
  /-- The other fields of the entry in a slot. -/
  hooks : ℕ → EntryHooks
  /-- `flags_list`. -/
  flagsList : CachedList
  /-- `callback_list`. -/
  callbackList : CachedList

/-- The slot `hsearch_r` finds a key in. -/
def findSlot (htab : Htab) (key : Str) : Option ℕ :=
  match hsearchR htab key .find with
  | some (.ok (idx, _), _) => some idx
  | _ => none

/-- `env_get`. -/
def envGet (htab : Htab) (name : Str) : Option Str :=
  (findSlot htab name).map fun idx ↦ (htab.node idx).entry.data

/-- The cached list after the test of `first_call`, where `value` is what `env_get`
returns. -/
def CachedList.called (list : CachedList) (value : Option Str) : CachedList :=
  if list = .uncalled then (if value = none then .null else .live) else list

/-- The list a cached pointer leads to, while the variable has the value `value`. -/
def CachedList.read (list : CachedList) (value : Option Str) : Option (Option Str) :=
  match list with
  | .uncalled | .null => some none
  | .live => some value
  | .dangling => none

/-- The cached list after the value of the variable was freed. -/
def CachedList.freed (list : CachedList) : CachedList :=
  if list = .live then .dangling else list

/-- The cached lists after the value of a variable was freed. -/
def State.freed (s : State) (key : Str) : State :=
  { s with
    flagsList := if key = flagsVar then s.flagsList.freed else s.flagsList
    callbackList := if key = callbackVar then s.callbackList.freed else s.callbackList }

/-! ## New entries -/

/-- The lookup both `env_flags_lookup` and `env_callback_init` make: in the list of the
variable, and failing that in the static list. -/
def lookupEither (attrList : Option Str) (static name : Str) : Option Str :=
  match attrList.map (envAttrLookup · name) with
  | some (.ok attributes) => some attributes
  | _ =>
      match envAttrLookup static name with
      | .ok attributes => some attributes
      | .error _ => none

/-- `env_flags_init` with the list in hand: the flags of an entry that had `flags`. -/
def Board.envFlagsInit (board : Board) (attrList : Option Str) (name : Str) (flags : ℕ) :
    Option ℕ :=
  match lookupEither attrList board.flagsListStatic name with
  | none => some flags
  | some attributes =>
      if 2 < attributes.length then none
      else some (if attributes = [] then flags else envParseFlagsToBin attributes)

/-- `find_env_callback`. -/
def Board.findEnvCallback (board : Board) (name : Str) : Option Callback :=
  if name = ascii "flags" then some .flags
  else if name = ascii "callbacks" then some .callbacks
  else if name ∈ board.callbacks then some (.other name)
  else none

/-- `env_callback_init` with the list in hand: the callback of an entry that had
`callback`. -/
def Board.envCallbackInit (board : Board) (attrList : Option Str) (name : Str)
    (callback : Option Callback) : Option (Option Callback) :=
  match lookupEither attrList board.callbackListStatic name with
  | none => some callback
  | some attributes =>
      if 255 < attributes.length then none
      else some (if attributes = [] then callback
        else (board.findEnvCallback attributes).or callback)

/-! ## The blanket updates -/

/-- `hwalk_r`: every entry is changed. -/
def hwalkR (htab : Htab) (f : EntryHooks → EntryHooks) (hooks : ℕ → EntryHooks) :
    ℕ → EntryHooks := fun i ↦
  if 1 ≤ i ∧ i ≤ htab.size ∧ 0 < (htab.node i).used then f (hooks i) else hooks i

/-- `env_attr_walk` with a callback that changes the entry of every name it is given. -/
def walkEntries (htab : Htab) (attrList : Option Str) (f : Option Str → EntryHooks → EntryHooks)
    (hooks : ℕ → EntryHooks) : ℕ → EntryHooks :=
  ((attrList.map attrEntries).getD []).foldl (fun hooks e ↦
    match findSlot htab e.1 with
    | none => hooks
    | some idx => Function.update hooks idx (f e.2 (hooks idx))) hooks

/-- The flags `set_flags` makes of the attributes of an entry. -/
def flagsOf : Option Str → ℕ
  | none => 0
  | some attributes => if attributes = [] then 0 else envParseFlagsToBin attributes

/-- `set_flags`, once the entry is found. -/
def setFlags (attributes : Option Str) (h : EntryHooks) : EntryHooks :=
  { h with flags := flagsOf attributes }

/-- `on_flags`. -/
def Board.onFlags (board : Board) (htab : Htab) (value : Option Str) (hooks : ℕ → EntryHooks) :
    ℕ → EntryHooks :=
  walkEntries htab value setFlags
    (walkEntries htab (some board.flagsListStatic) setFlags
      (hwalkR htab (fun h ↦ { h with flags := 0 }) hooks))

/-- `set_callback`, once the entry is found. -/
def Board.setCallback (board : Board) (attributes : Option Str) (h : EntryHooks) : EntryHooks :=
  match attributes with
  | none | some [] => { h with callback := none }
  | some attributes => { h with callback := (board.findEnvCallback attributes).or h.callback }

/-- `on_callbacks`. -/
def Board.onCallbacks (board : Board) (htab : Htab) (value : Option Str) (hooks : ℕ → EntryHooks) :
    ℕ → EntryHooks :=
  walkEntries htab value board.setCallback
    (walkEntries htab (some board.callbackListStatic) board.setCallback
      (hwalkR htab (fun h ↦ { h with callback := none }) hooks))

/-- The call of the callback of an entry: whether it accepts, and the hooks afterwards.
`answer` is what a callback of another subsystem says. -/
def Board.runCallback (board : Board) (htab : Htab) (callback : Option Callback)
    (value : Option Str) (answer : Bool) (hooks : ℕ → EntryHooks) : Bool × (ℕ → EntryHooks) :=
  match callback with
  | none => (true, hooks)
  | some .flags => (true, board.onFlags htab value hooks)
  | some .callbacks => (true, board.onCallbacks htab value hooks)
  | some (.other _) => (answer, hooks)

/-! ## Changes -/

/-- `hsearch_r(ENV_ENTER)` or `hdelete_r`, with `H_FORCE` or not, and the answer of the
callback if it belongs to another subsystem. -/
inductive Request where
  | enter (key data : Str) (force answer : Bool)
  | delete (key : Str) (force answer : Bool)
deriving DecidableEq, Repr

namespace Board

variable (board : Board)

/-- The overwriting of `_compare_and_overwrite_entry`. -/
def overwrite (s : State) (idx : ℕ) (key data : Str) (force answer : Bool) :
    Except Errno Unit × State :=
  let node := s.htab.node idx
  if !board.envFlagsValidate key (s.hooks idx).flags node.entry.data (some data) .overwrite
      force then (.error .eperm, s)
  else
    let (ok, hooks) := board.runCallback s.htab (s.hooks idx).callback (some data) answer s.hooks
    if !ok then (.error .einval, { s with hooks := hooks })
    else
      (.ok (), State.freed { s with
        htab := s.htab.setNode idx { node with entry := { node.entry with data := data } }
        hooks := hooks } key)

/-- `_hdelete`. -/
def hdelete (s : State) (idx : ℕ) (key : Str) : State :=
  State.freed { s with
    htab := Env.hdelete s.htab idx
    hooks := Function.update s.hooks idx ⟨none, 0⟩ } key

/-- `env_callback_init` and `env_flags_init` for the new entry in a slot. -/
def initEntry (s : State) (idx : ℕ) (key : Str) : Option State := do
  let callbackList := s.callbackList.called (envGet s.htab callbackVar)
  let flagsList := s.flagsList.called (envGet s.htab flagsVar)
  let callback ← board.envCallbackInit
    (← callbackList.read (envGet s.htab callbackVar)) key (s.hooks idx).callback
  let flags ← board.envFlagsInit
    (← flagsList.read (envGet s.htab flagsVar)) key (s.hooks idx).flags
  return { s with
    hooks := Function.update s.hooks idx ⟨callback, flags⟩
    flagsList := flagsList
    callbackList := callbackList }

/-- The checks of a new entry, which is removed again when one fails. -/
def checkEntry (s : State) (idx : ℕ) (key data : Str) (force answer : Bool) :
    Except Errno Unit × State :=
  if !board.envFlagsValidate key (s.hooks idx).flags data (some data) .create force then
    (.error .eperm, hdelete s idx key)
  else
    let (ok, hooks) := board.runCallback s.htab (s.hooks idx).callback (some data) answer s.hooks
    let s := { s with hooks := hooks }
    if !ok then (.error .einval, hdelete s idx key) else (.ok (), s)

/-- The creation of a new entry in `hsearch_r`. -/
def create (s : State) (idx : ℕ) (key data : Str) (force answer : Bool) :
    Option (Except Errno Unit × State) := do
  let htab := { s.htab.setNode idx ⟨firstHash s.htab.size key, ⟨key, data⟩⟩ with
    filled := s.htab.filled + 1 }
  let s ← board.initEntry { s with htab := htab } idx key
  return board.checkEntry s idx key data force answer

/-- `hdelete_r`, for an entry that was found. -/
def delete (s : State) (idx : ℕ) (key : Str) (force answer : Bool) : Except Errno Unit × State :=
  if !board.envFlagsValidate key (s.hooks idx).flags (s.htab.node idx).entry.data none .delete
      force then (.error .eperm, s)
  else
    let (ok, hooks) := board.runCallback s.htab (s.hooks idx).callback none answer s.hooks
    let s := { s with hooks := hooks }
    if !ok then (.error .einval, s) else (.ok (), hdelete s idx key)

/-- One request. -/
def handle (s : State) : Request → Option (Except Errno Unit × State)
  | .enter key data force answer =>
      match probe s.htab key with
      | none => none
      | some (.found idx) => some (board.overwrite s idx key data force answer)
      | some (.missing idx firstDeleted) =>
          if s.htab.filled = s.htab.size then some (.error .enomem, s)
          else
            board.create s (if firstDeleted ≠ 0 then firstDeleted else idx) key data force answer
  | .delete key force answer =>
      match probe s.htab key with
      | none => none
      | some (.found idx) => some (board.delete s idx key force answer)
      | some (.missing _ _) => some (.error .esrch, s)

end Board

end MiniPi.Env
