import MiniPi.Env.Slre
import Mathlib.Data.List.DropRight

/-!
# Attribute lists

The lists `name[:attributes],…` of `env/attr.c`, as the variables `.flags` and
`.callbacks` and the static lists hold them.  `envAttrWalk` visits the entries in order
and compares names literally where its callback does; `envAttrLookup` takes every name as
a regular expression and keeps the last one that matches.

`given` is what a list of plain names means.
-/

namespace MiniPi.Env

/-- `strim`. -/
def strim (s : Str) : Str := (s.dropWhile isspace).rdropWhile isspace

/-- One entry of a list: the name and, after a `:`, the attributes. -/
def attrEntry (entry : Str) : Str × Option Str :=
  (strim (entry.takeWhile (· ≠ 58)),
    if 58 ∈ entry then some (strim (entry.dropWhile (· ≠ 58)).tail) else none)

/-- The entries `env_attr_walk` hands to its callback: those that have a name. -/
def attrEntries (attrList : Str) : List (Str × Option Str) :=
  ((attrList.splitOn 44).map attrEntry).filter fun e ↦ e.1 ≠ []

/-- `env_attr_walk`, with a callback that changes a state and may abort. -/
def envAttrWalk {σ ε : Type} (attrList : Str) (callback : Str → Option Str → σ → Except ε σ)
    (st : σ) : Except ε σ :=
  (attrEntries attrList).foldlM (fun st e ↦ callback e.1 e.2 st) st

/-- The errors of `env_attr_lookup`. -/
inductive AttrError where
  | einval
  | enoent
deriving DecidableEq, Repr

/-- `regex_callback`; the state is the attributes of the last match. -/
def regexCallback (searchedFor name : Str) (attributes : Option Str) (last : Option Str) :
    Except AttrError (Option Str) :=
  match regexMatch name searchedFor with
  | none => .error .einval
  | some false => .ok last
  | some true =>
      match attributes with
      | none => .error .einval
      | some a => .ok (some a)

/-- `env_attr_lookup`. -/
def envAttrLookup (attrList name : Str) : Except AttrError Str :=
  match envAttrWalk attrList (regexCallback name) none with
  | .error e => .error e
  | .ok none => .error .enoent
  | .ok (some a) => .ok a

/-! ## What a list gives a name -/

/-- The attributes of the last entry for a name, if there is one. -/
def lastEntry (name : Str) (entries : List (Str × Option Str)) : Option (Option Str) :=
  entries.foldl (fun last e ↦ if e.1 = name then some e.2 else last) none

/-- What a list of plain names gives a name: the attributes of the last entry for it,
which may be missing. -/
def given (attrList name : Str) : Option (Option Str) := lastEntry name (attrEntries attrList)

section LastEntry

variable {name : Str} {e : Str × Option Str} {entries : List (Str × Option Str)}

@[simp] theorem lastEntry_nil : lastEntry name [] = none := rfl

theorem lastEntry_concat_self (a : Option Str) :
    lastEntry name (entries ++ [(name, a)]) = some a := by
  simp [lastEntry]

theorem lastEntry_concat_of_ne (h : e.1 ≠ name) :
    lastEntry name (entries ++ [e]) = lastEntry name entries := by
  simp [lastEntry, h]

theorem mem_of_lastEntry {a : Option Str} (h : lastEntry name entries = some a) :
    (name, a) ∈ entries := by
  induction entries using List.reverseRecOn with
  | nil => cases h
  | append_singleton entries e ih =>
      by_cases he : e.1 = name
      · obtain ⟨n, b⟩ := e
        obtain rfl : n = name := he
        rw [lastEntry_concat_self, Option.some.injEq] at h
        simp [h]
      · rw [lastEntry_concat_of_ne he] at h
        exact List.mem_append_left _ (ih h)

end LastEntry

/-- The lists on which looking a name up and reading the list agree: the names are plain,
and no entry for the name lacks its attributes. -/
structure LooksUp (attrList name : Str) : Prop where
  /-- Every name is its own pattern. -/
  plain : ∀ e ∈ attrEntries attrList, PlainName e.1
  /-- The entries for the name have attributes. -/
  has_attributes : (name, none) ∉ attrEntries attrList

/-- The walk of `env_attr_lookup` ends with the attributes of the last entry for the
name. -/
theorem foldlM_regexCallback {name : Str} (entries : List (Str × Option Str))
    (hplain : ∀ e ∈ entries, PlainName e.1) (hattr : (name, none) ∉ entries) :
    entries.foldlM (fun st e ↦ regexCallback name e.1 e.2 st) none =
      .ok ((lastEntry name entries).join) := by
  -- the state after a part of the list is what that part gives the name
  induction entries using List.reverseRecOn with
  | nil => rfl
  | append_singleton entries e ih =>
      have hplain' : ∀ e ∈ entries, PlainName e.1 :=
        fun e he ↦ hplain e (List.mem_append_left _ he)
      have hattr' : (name, none) ∉ entries := fun h ↦ hattr (List.mem_append_left _ h)
      rw [List.foldlM_append, ih hplain' hattr']
      obtain ⟨n, a⟩ := e
      have hn : PlainName n := hplain (n, a) (by simp)
      show List.foldlM (fun st e ↦ regexCallback name e.1 e.2 st) (lastEntry name entries).join
        [(n, a)] = _
      rw [List.foldlM_cons]
      dsimp only
      rw [regexCallback.eq_def, regexMatch_plain hn]
      by_cases hname : n = name
      · subst hname
        cases a with
        | none => exact absurd (by simp) hattr
        | some a =>
            rw [lastEntry_concat_self, decide_eq_true rfl]
            rfl
      · rw [lastEntry_concat_of_ne (by exact hname), decide_eq_false hname]
        rfl

theorem envAttrLookup_eq {attrList name : Str} (h : LooksUp attrList name) :
    envAttrLookup attrList name = match given attrList name with
      | some (some a) => .ok a
      | _ => .error .enoent := by
  have hwalk := foldlM_regexCallback (attrEntries attrList) h.plain h.has_attributes
  unfold envAttrLookup envAttrWalk
  rw [hwalk, given]
  rcases lastEntry name (attrEntries attrList) with _ | _ | a <;> rfl

end MiniPi.Env
