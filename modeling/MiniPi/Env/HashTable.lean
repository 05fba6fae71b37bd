import MiniPi.Lib.Cycle

/-!
# The hash table of the environment

The table of `lib/hashtable.c`: open addressing with double hashing over the slots
`1, …, size`, where slot `0` is never used and deleted slots are kept as
`USED_DELETED`.

Strings are the bytes before the terminating NUL.  `unsigned int` arithmetic is
done on natural numbers, with `% 2 ^ 32` where a value can pass `2 ^ 32`; `char` is
unsigned, as on the ARM cores the boards have.  The `callback` and `flags` fields
of an entry only decide whether a change is refused, so they are replaced by the
`Verdict` each call is given.  `strdup` and `calloc` succeed.

The probe loop of `hsearch_r` calls `_compare_and_overwrite_entry` at every slot,
which does nothing before it meets the key.  The loop is therefore split: `probe`
finds the slot, and the overwriting follows.
-/

open MiniPi.Lib

namespace MiniPi.Env

/-- A C string, without its terminator. -/
abbrev Str := List UInt8

/-- `struct env_entry`. -/
structure Entry where
  /-- The name of the variable. -/
  key : Str
  /-- Its value. -/
  data : Str
deriving DecidableEq, Repr

/-- `USED_FREE`. -/
def usedFree : ℤ := 0

/-- `USED_DELETED`. -/
def usedDeleted : ℤ := -1

/-- `struct env_entry_node`: a slot of the table. -/
structure Node where
  /-- `USED_FREE`, `USED_DELETED`, or the first hash of the key. -/
  used : ℤ
  /-- The entry, meaningful when `used` is positive. -/
  entry : Entry
deriving DecidableEq, Repr

/-- A slot as `calloc` leaves it. -/
def Node.zero : Node := ⟨usedFree, ⟨[], []⟩⟩

/-- `struct hsearch_data` with a table. -/
structure Htab where
  /-- The number of slots that may be used. -/
  size : ℕ
  /-- The number of entries. -/
  filled : ℕ
  /-- The slots `0, …, size`. -/
  table : List Node
deriving DecidableEq, Repr

/-- `htab->table[idx]`. -/
def Htab.node (htab : Htab) (idx : ℕ) : Node := htab.table.getD idx Node.zero

/-- The table with slot `idx` overwritten. -/
def Htab.setNode (htab : Htab) (idx : ℕ) (node : Node) : Htab :=
  { htab with table := htab.table.set idx node }

/-! ## Creating a table -/

/-- The loop of `isprime`: the divisor at which it stops. -/
def isprimeLoop (number : ℕ) : ℕ → ℕ → Option ℕ
  | 0, _ => none
  | fuel + 1, div =>
      if div * div % 2 ^ 32 < number ∧ number % div ≠ 0 then isprimeLoop number fuel (div + 2)
      else some div

/-- `isprime`. -/
def isprime (number : ℕ) : Option Bool :=
  (isprimeLoop number number 3).map fun div ↦ number % div != 0

/-- The loop of `hcreate_r`: the first number from `nel` on, in steps of two, that
`isprime` accepts. -/
def hcreateLoop : ℕ → ℕ → Option ℕ
  | 0, _ => none
  | fuel + 1, nel =>
      match isprime nel with
      | none => none
      | some true => some nel
      | some false => hcreateLoop fuel (nel + 2)

/-- `hcreate_r`, for an `htab` that has no table yet. -/
def hcreateR (nel : ℕ) : Option Htab :=
  (hcreateLoop (nel + 1) (nel ||| 1)).map fun size ↦
    ⟨size, 0, List.replicate (size + 1) Node.zero⟩

/-! ## Searching -/

/-- The number `hsearch_r` computes from the key. -/
def hashKey (key : Str) : ℕ :=
  key.foldr (fun c hval ↦ (hval * 16 + c.toNat) % 2 ^ 32) (key.length % 2 ^ 32)

/-- The first hash function, which is also the first index tried. -/
def firstHash (size : ℕ) (key : Str) : ℕ :=
  let hval := hashKey key % size
  if hval = 0 then hval + 1 else hval

/-- The second hash function: the stride of the search. -/
def secondHash (size hval : ℕ) : ℕ := 1 + hval % (size - 2)

/-- The test of `_compare_and_overwrite_entry` that a slot holds the key. -/
def isEntry (node : Node) (hval : ℕ) (key : Str) : Bool :=
  decide (node.used = hval) && decide (key = node.entry.key)

/-- The update of `first_deleted` at a slot. -/
def noteDeleted (node : Node) (idx firstDeleted : ℕ) : ℕ :=
  if node.used = usedDeleted ∧ firstDeleted = 0 then idx else firstDeleted

/-- How the search for a key ends. -/
inductive Probe where
  /-- The key is in this slot. -/
  | found (idx : ℕ)
  /-- The search stopped at slot `idx` after it had seen the deleted slot
  `firstDeleted`, or none. -/
  | missing (idx firstDeleted : ℕ)
deriving DecidableEq, Repr

/-- The `do` loop of `hsearch_r`. -/
def probeLoop (htab : Htab) (key : Str) (hval hval2 : ℕ) : ℕ → ℕ → ℕ → Option Probe
  | 0, _, _ => none
  | fuel + 1, idx, firstDeleted =>
      let idx := Cycle.stepDown htab.size hval2 idx
      if idx = hval then some (.missing idx firstDeleted)
      else
        let firstDeleted := noteDeleted (htab.node idx) idx firstDeleted
        if isEntry (htab.node idx) hval key then some (.found idx)
        else if (htab.node idx).used ≠ usedFree then
          probeLoop htab key hval hval2 fuel idx firstDeleted
        else some (.missing idx firstDeleted)

/-- The search of `hsearch_r`. -/
def probe (htab : Htab) (key : Str) : Option Probe :=
  let hval := firstHash htab.size key
  if (htab.node hval).used ≠ usedFree then
    let firstDeleted := noteDeleted (htab.node hval) hval 0
    if isEntry (htab.node hval) hval key then some (.found hval)
    else probeLoop htab key hval (secondHash htab.size hval) htab.size hval firstDeleted
  else some (.missing hval 0)

/-! ## Changing the table -/

/-- The values of `errno` the table sets. -/
inductive Errno where
  | esrch
  | eperm
  | einval
  | enomem
deriving DecidableEq, Repr

/-- What `change_ok` and the callback of an entry say to a change; `true` accepts
it, as a missing hook does. -/
structure Verdict where
  /-- The answer of `change_ok`. -/
  changeOk : Bool
  /-- The answer of the callback. -/
  callback : Bool
deriving DecidableEq, Repr

/-- The error of a refused change: `change_ok` is asked first. -/
def Verdict.errno (v : Verdict) : Option Errno :=
  if !v.changeOk then some .eperm
  else if !v.callback then some .einval
  else none

/-- `ENV_FIND`, or `ENV_ENTER` with data. -/
inductive Action where
  | find
  | enter (data : Str) (verdict : Verdict)
deriving DecidableEq, Repr

/-- `_compare_and_overwrite_entry` at the slot that holds the key. -/
def overwriteEntry (htab : Htab) (idx : ℕ) : Action → Except Errno (ℕ × Entry) × Htab
  | .find => (.ok (idx, (htab.node idx).entry), htab)
  | .enter data verdict =>
      match verdict.errno with
      | some errno => (.error errno, htab)
      | none =>
          let node := htab.node idx
          let entry := { node.entry with data := data }
          (.ok (idx, entry), htab.setNode idx { node with entry := entry })

/-- `_hdelete`. -/
def hdelete (htab : Htab) (idx : ℕ) : Htab :=
  let node := htab.node idx
  { htab.setNode idx { node with used := usedDeleted } with filled := htab.filled - 1 }

/-- The creation of a new entry in `hsearch_r`, undone when it is refused. -/
def createEntry (htab : Htab) (idx hval : ℕ) (entry : Entry) (verdict : Verdict) :
    Except Errno (ℕ × Entry) × Htab :=
  let htab := { htab.setNode idx ⟨hval, entry⟩ with filled := htab.filled + 1 }
  match verdict.errno with
  | some errno => (.error errno, hdelete htab idx)
  | none => (.ok (1, entry), htab)

/-- `hsearch_r`: its return value and `*retval`, or the error when it returns `0`. -/
def hsearchR (htab : Htab) (key : Str) (action : Action) :
    Option (Except Errno (ℕ × Entry) × Htab) :=
  match probe htab key with
  | none => none
  | some (.found idx) => some (overwriteEntry htab idx action)
  | some (.missing idx firstDeleted) =>
      match action with
      | .find => some (.error .esrch, htab)
      | .enter data verdict =>
          if htab.filled = htab.size then some (.error .enomem, htab)
          else
            let idx := if firstDeleted ≠ 0 then firstDeleted else idx
            some (createEntry htab idx (firstHash htab.size key) ⟨key, data⟩ verdict)

/-- `hdelete_r`. -/
def hdeleteR (htab : Htab) (key : Str) (verdict : Verdict) :
    Option (Except Errno Unit × Htab) :=
  match hsearchR htab key .find with
  | none => none
  | some (.error _, htab) => some (.error .esrch, htab)
  | some (.ok (idx, _), htab) =>
      match verdict.errno with
      | some errno => some (.error errno, htab)
      | none => some (.ok (), hdelete htab idx)

end MiniPi.Env
