import MiniPi.Env.Flags
import MiniPi.Env.Create

/-!
# The flags of an entry follow `.flags`

`Board.derived` says which flags a name should have: those the value of `.flags` gives it,
and failing that those of the static list.  `on_flags` reads the static list by name and
not by pattern, and `env_flags_init` reads a list that was cached when the first variable
was created; `Careful` is what a request must meet so that neither makes a difference.
-/

open MiniPi.Lib

namespace MiniPi.Env

namespace Board

variable (board : Board)

/-- The flags of the static list. -/
def staticFlags (name : Str) : ℕ :=
  match envAttrLookup board.flagsListStatic name with
  | .ok attributes => flagsOf (some attributes)
  | .error _ => 0

/-- The flags of a name when `.flags` has the value `value`. -/
def derived (value : Option Str) (name : Str) : ℕ :=
  match value.bind (given · name) with
  | some attributes => flagsOf attributes
  | none => board.staticFlags name

/-- The flags of the static list, its names taken literally. -/
def literalFlags (name : Str) : ℕ :=
  match given board.flagsListStatic name with
  | some attributes => flagsOf attributes
  | none => 0

/-- The flags `on_flags` gives a name. -/
def walked (value : Option Str) (name : Str) : ℕ :=
  match value.bind (given · name) with
  | some attributes => flagsOf attributes
  | none => board.literalFlags name

end Board

/-! ## Finding a slot -/

section Slots

variable {htab : Htab} {m : VarMap} {key : Str} {i idx fd : ℕ}

/-- The slot holds an entry. -/
def Htab.Holds (htab : Htab) (i : ℕ) : Prop := Cycle.Place htab.size i ∧ (htab.node i).Live

theorem findSlot_of_found (h : probe htab key = some (.found idx)) :
    findSlot htab key = some idx := by
  simp [findSlot, hsearchR, h, overwriteEntry]

theorem findSlot_of_missing (h : probe htab key = some (.missing idx fd)) :
    findSlot htab key = none := by
  simp [findSlot, hsearchR, h]

theorem findSlot_eq_some_iff (h : Represents htab m) :
    findSlot htab key = some i ↔ htab.Holds i ∧ (htab.node i).entry.key = key := by
  obtain ⟨r, hr, hspec⟩ := probe_spec h.good key
  cases r with
  | found idx =>
      obtain ⟨hi, hl, he, -⟩ := h.of_found hspec
      have hkey : (htab.node idx).entry.key = key := by rw [he]
      rw [findSlot_of_found hr, Option.some.injEq]
      constructor
      · rintro rfl
        exact ⟨⟨hi, hl⟩, hkey⟩
      · rintro ⟨⟨hi', hl'⟩, hkey'⟩
        exact h.unique _ _ hi hi' hl hl' (hkey.trans hkey'.symm)
  | missing idx fd =>
      have hm := h.of_missing hspec
      rw [findSlot_of_missing hr]
      simp only [reduceCtorEq, false_iff]
      rintro ⟨⟨hi, hl⟩, hkey⟩
      have : m key = some (htab.node i).entry.data :=
        (h.stored _ _).mpr ⟨i, hi, hl, by rw [← hkey]⟩
      rw [hm] at this
      cases this

theorem envGet_eq (h : Represents htab m) (key : Str) : envGet htab key = m key := by
  obtain ⟨r, hr, hspec⟩ := probe_spec h.good key
  cases r with
  | found idx =>
      obtain ⟨-, -, -, hm⟩ := h.of_found hspec
      rw [envGet, findSlot_of_found hr, Option.map_some, hm]
  | missing idx fd => rw [envGet, findSlot_of_missing hr, Option.map_none, h.of_missing hspec]

end Slots

/-! ## The blanket updates -/

section Walk

variable {htab : Htab} {m : VarMap} {i : ℕ} {hooks : ℕ → EntryHooks} {board : Board}

/-- A walk over a list leaves a slot without an entry alone. -/
theorem walkEntries_of_not_holds (h : Represents htab m) (hi : ¬htab.Holds i)
    (attrList : Option Str) (f : Option Str → EntryHooks → EntryHooks) :
    walkEntries htab attrList f hooks i = hooks i := by
  unfold walkEntries
  generalize (attrList.map attrEntries).getD [] = entries
  induction entries generalizing hooks with
  | nil => rfl
  | cons e entries ih =>
      rw [List.foldl_cons, ih]
      cases hf : findSlot htab e.1 with
      | none => rfl
      | some idx =>
          have hne : i ≠ idx := by
            rintro rfl
            exact hi ((findSlot_eq_some_iff h).mp hf).1
          exact Function.update_of_ne hne ..

/-- A walk whose function keeps a field keeps that field in every slot. -/
theorem flags_walkEntries {f : Option Str → EntryHooks → EntryHooks}
    (hf : ∀ a h, (f a h).flags = h.flags) (attrList : Option Str) :
    (walkEntries htab attrList f hooks i).flags = (hooks i).flags := by
  unfold walkEntries
  generalize (attrList.map attrEntries).getD [] = entries
  induction entries generalizing hooks with
  | nil => rfl
  | cons e entries ih =>
      rw [List.foldl_cons, ih]
      cases findSlot htab e.1 with
      | none => rfl
      | some idx =>
          by_cases hidx : i = idx
          · subst hidx
            simp [hf]
          · simp [Function.update_of_ne hidx]

/-- The walk of `set_flags` gives an entry the flags of the last item of the list that
names it. -/
theorem walkEntries_setFlags (h : Represents htab m) (hi : htab.Holds i)
    (attrList : Option Str) :
    walkEntries htab attrList setFlags hooks i =
      { hooks i with flags := match attrList.bind (given · (htab.node i).entry.key) with
        | some attributes => flagsOf attributes
        | none => (hooks i).flags } := by
  have hlast : attrList.bind (given · (htab.node i).entry.key) =
      lastEntry (htab.node i).entry.key ((attrList.map attrEntries).getD []) := by
    cases attrList <;> rfl
  rw [hlast]
  unfold walkEntries
  generalize (attrList.map attrEntries).getD [] = entries
  -- the last item of the list is the last one the walk meets
  induction entries using List.reverseRecOn with
  | nil => rfl
  | append_singleton entries e ih =>
      obtain ⟨name, a⟩ := e
      rw [List.foldl_append, List.foldl_cons, List.foldl_nil]
      by_cases hname : name = (htab.node i).entry.key
      · subst hname
        have hfind : findSlot htab (htab.node i).entry.key = some i :=
          (findSlot_eq_some_iff h).mpr ⟨hi, rfl⟩
        simp only [hfind, Function.update_self, lastEntry_concat_self, ih]
        rfl
      · rw [lastEntry_concat_of_ne (by exact hname), ← ih]
        cases hfind : findSlot htab name with
        | none => rfl
        | some idx =>
            have hne : i ≠ idx := by
              rintro rfl
              exact hname ((findSlot_eq_some_iff h).mp hfind).2.symm
            exact Function.update_of_ne hne ..

theorem hwalkR_of_holds (hi : htab.Holds i) (f : EntryHooks → EntryHooks) :
    hwalkR htab f hooks i = f (hooks i) :=
  if_pos ⟨hi.1.1, hi.1.2, hi.2⟩

theorem hwalkR_of_not_holds (hi : ¬htab.Holds i) (f : EntryHooks → EntryHooks) :
    hwalkR htab f hooks i = hooks i :=
  if_neg fun ⟨h₁, h₂, h₃⟩ ↦ hi ⟨⟨h₁, h₂⟩, h₃⟩

theorem onFlags_of_holds (h : Represents htab m) (hi : htab.Holds i) (value : Option Str) :
    board.onFlags htab value hooks i =
      { hooks i with flags := board.walked value (htab.node i).entry.key } := by
  unfold Board.onFlags
  rw [walkEntries_setFlags h hi, walkEntries_setFlags h hi, hwalkR_of_holds hi]
  rfl

/-- What the callback of an entry does to the hooks of a slot. -/
structure CallbackSpec (board : Board) (htab : Htab) (callback : Option Callback)
    (value : Option Str) (hooks hooks' : ℕ → EntryHooks) : Prop where
  /-- Slots without an entry are left alone. -/
  blank : ∀ i, ¬htab.Holds i → hooks' i = hooks i
  /-- `on_flags` sets the flags of every entry. -/
  walked : callback = some .flags → ∀ i, htab.Holds i →
    (hooks' i).flags = board.walked value (htab.node i).entry.key
  /-- No other callback changes flags. -/
  kept : callback ≠ some .flags → ∀ i, (hooks' i).flags = (hooks i).flags

theorem callbackSpec_runCallback (h : Represents htab m) (callback : Option Callback)
    (value : Option Str) (answer : Bool) :
    CallbackSpec board htab callback value hooks
      (board.runCallback htab callback value answer hooks).2 := by
  rcases callback with _ | _ | _ | name
  · exact ⟨fun _ _ ↦ rfl, nofun, fun _ _ ↦ rfl⟩
  · refine ⟨fun i hi ↦ ?_, fun _ i hi ↦ ?_, fun h ↦ absurd rfl h⟩
    · show board.onFlags htab value hooks i = hooks i
      unfold Board.onFlags
      rw [walkEntries_of_not_holds h hi, walkEntries_of_not_holds h hi, hwalkR_of_not_holds hi]
    · show (board.onFlags htab value hooks i).flags = _
      rw [onFlags_of_holds h hi]
  · have hset : ∀ a h, (board.setCallback a h).flags = h.flags := by
      rintro (_ | _ | ⟨c, a⟩) h <;> rfl
    refine ⟨fun i hi ↦ ?_, nofun, fun _ i ↦ ?_⟩
    · show board.onCallbacks htab value hooks i = hooks i
      unfold Board.onCallbacks
      rw [walkEntries_of_not_holds h hi, walkEntries_of_not_holds h hi, hwalkR_of_not_holds hi]
    · show (board.onCallbacks htab value hooks i).flags = _
      unfold Board.onCallbacks
      rw [flags_walkEntries hset, flags_walkEntries hset, hwalkR]
      split_ifs <;> rfl
  · exact ⟨fun _ _ ↦ rfl, nofun, fun _ _ ↦ rfl⟩

end Walk

/-! ## New entries -/

section Init

variable {board : Board} {attrList : Option Str} {name static : Str}

/-- What `env_attr_lookup` finds stands in the list. -/
theorem mem_of_envAttrLookup {list a : Str} (h : envAttrLookup list name = .ok a) :
    ∃ e ∈ attrEntries list, e.2 = some a := by
  have hwalk : ∀ (entries : List (Str × Option Str)) (last : Option Str),
      entries.foldlM (fun st e ↦ regexCallback name e.1 e.2 st) last = .ok (some a) →
      last = some a ∨ ∃ e ∈ entries, e.2 = some a := by
    intro entries
    induction entries with
    | nil =>
        intro last hlast
        cases hlast
        exact .inl rfl
    | cons e entries ih =>
        intro last hlast
        rw [List.foldlM_cons] at hlast
        cases hcb : regexCallback name e.1 e.2 last with
        | error err =>
            rw [hcb] at hlast
            cases hlast
        | ok last' =>
            rw [hcb] at hlast
            rcases ih last' hlast with rfl | ⟨e', he', ha⟩
            · unfold regexCallback at hcb
              split at hcb
              · cases hcb
              · cases hcb
                exact .inl rfl
              · split at hcb
                · cases hcb
                · cases hcb
                  exact .inr ⟨e, List.mem_cons_self .., by assumption⟩
            · exact .inr ⟨e', List.mem_cons_of_mem _ he', ha⟩
  unfold envAttrLookup at h
  split at h
  · cases h
  · cases h
  · rename_i last hlast
    cases h
    rcases hwalk _ none hlast with h | h
    · cases h
    · exact h

theorem envFlagsInit_none (name : Str) :
    board.envFlagsInit none name 0 = some (board.staticFlags name) := by
  unfold Board.envFlagsInit Board.staticFlags lookupEither
  dsimp only [Option.map_none]
  cases hl : envAttrLookup board.flagsListStatic name with
  | error e => rfl
  | ok a =>
      obtain ⟨e, he, ha⟩ := mem_of_envAttrLookup hl
      have hfit := board.flags_fit e he
      rw [ha, Option.getD_some] at hfit
      simp [not_lt.mpr hfit, flagsOf]

/-- A list is safe for looking up the flags of a name: the lookup agrees with what the
list says, and the flags fit the buffer. -/
structure SafeList (list name : Str) : Prop extends LooksUp list name where
  /-- The flags of the name fit the buffer of `env_flags_init`. -/
  fit : ∀ a, given list name = some (some a) → a.length ≤ 2

/-- `env_flags_init` gives a new entry the flags derived from the list it reads. -/
theorem envFlagsInit_eq (h : ∀ list, attrList = some list → SafeList list name) :
    board.envFlagsInit attrList name 0 = some (board.derived attrList name) := by
  cases attrList with
  | none => exact envFlagsInit_none name
  | some list =>
      have hlist := h list rfl
      have hlookup := envAttrLookup_eq hlist.toLooksUp
      have hstatic := @envFlagsInit_none board name
      unfold Board.envFlagsInit Board.derived lookupEither at *
      rw [Option.map_some, hlookup, Option.bind_some]
      cases hg : given list name with
      | none => simpa using hstatic
      | some a =>
          cases a with
          | none => exact absurd (mem_of_lastEntry hg) hlist.has_attributes
          | some a => simp [not_lt.mpr (hlist.fit a hg), flagsOf]

end Init

/-! ## Careful requests -/

/-- The value of a variable once `key` has been given `data`. -/
def State.valueAfter (s : State) (key data name : Str) : Option Str :=
  if name = key then some data else envGet s.htab name

/-- The callback a new entry for `key` gets. -/
def Board.newCallback (board : Board) (s : State) (key data : Str) : Option (Option Callback) := do
  let value := s.valueAfter key data callbackVar
  board.envCallbackInit (← (s.callbackList.called value).read value) key none

/-- A change that runs `on_flags` if and only if it is a change of `.flags`, and then at a
time when no live variable that the new value leaves out has its static flags from a
pattern. -/
structure CarefulChange (board : Board) (s : State) (key : Str) (callback : Option Callback)
    (value : Option Str) : Prop where
  /-- `on_flags` is the callback of `.flags` and of no other variable. -/
  hooked : callback = some .flags ↔ key = flagsVar
  /-- The static list names the variables by their names. -/
  literal : key = flagsVar → ∀ name, envGet s.htab name ≠ none ∨ name = flagsVar →
    value.bind (given · name) = none → board.literalFlags name = board.staticFlags name

/-- A creation at which the cached lists are still there and the flags in them are those
of the value `.flags` has now. -/
structure CarefulCreate (board : Board) (s : State) (key data : Str) : Prop where
  /-- The value `flags_list` leads to was not freed. -/
  flagsList_ne : s.flagsList ≠ .dangling
  /-- The lookup in the cached list agrees with what the list says. -/
  flagsList_safe : s.flagsList.called (s.valueAfter key data flagsVar) = .live →
    ∀ list, s.valueAfter key data flagsVar = some list → SafeList list key
  /-- Where no list was cached, `.flags` gives the variable nothing the static list does
  not give it. -/
  flagsList_null : s.flagsList.called (s.valueAfter key data flagsVar) = .null →
    key ≠ flagsVar → board.derived none key = board.derived (s.valueAfter key data flagsVar) key
  /-- The callback can be looked up, and the new entry is a careful change. -/
  callback : ∃ callback, board.newCallback s key data = some callback ∧
    CarefulChange board s key callback (some data)

/-- What a request must meet for the flags to follow `.flags`. -/
def Careful (board : Board) (s : State) : Request → Prop
  | .enter key data force _ =>
      match findSlot s.htab key with
      | none => s.htab.filled ≠ s.htab.size → CarefulCreate board s key data
      | some idx =>
          board.envFlagsValidate key (s.hooks idx).flags (s.htab.node idx).entry.data (some data)
            .overwrite force = true →
          CarefulChange board s key (s.hooks idx).callback (some data)
  | .delete key force _ =>
      match findSlot s.htab key with
      | none => True
      | some idx =>
          board.envFlagsValidate key (s.hooks idx).flags (s.htab.node idx).entry.data none
            .delete force = true →
          CarefulChange board s key (s.hooks idx).callback none

/-! ## The invariant -/

/-- The table represents `m`, every entry has the flags derived from the value of
`.flags`, and the other slots are blank. -/
structure FlagsInv (board : Board) (s : State) (m : VarMap) : Prop where
  rep : Represents s.htab m
  follow : ∀ i, s.htab.Holds i →
    (s.hooks i).flags = board.derived (m flagsVar) (s.htab.node i).entry.key
  blank : ∀ i, ¬s.htab.Holds i → s.hooks i = ⟨none, 0⟩

section Step

variable {board : Board} {s : State} {m : VarMap} {key data : Str} {idx : ℕ}
  {force answer : Bool} {value : Option Str} {callback : Option Callback}

/-- A refusing callback has changed nothing. -/
theorem runCallback_refused {htab : Htab} {hooks : ℕ → EntryHooks}
    (h : (board.runCallback htab callback value answer hooks).1 = false) :
    (board.runCallback htab callback value answer hooks).2 = hooks := by
  rcases callback with _ | _ | _ | name
  · cases h
  · cases h
  · cases h
  · rfl

/-- The flags after the callback of a careful change of the entries of `m`: for a change
of `.flags`, those derived from the new value. -/
theorem CarefulChange.flags_eq (hc : CarefulChange board s key callback value)
    {htab : Htab} {hooks hooks' : ℕ → EntryHooks}
    (hs : CallbackSpec board htab callback value hooks hooks') {i : ℕ} (hi : htab.Holds i)
    (hlive : key = flagsVar →
      envGet s.htab (htab.node i).entry.key ≠ none ∨ (htab.node i).entry.key = flagsVar)
    {old : Option Str} (hold : key ≠ flagsVar →
      (hooks i).flags = board.derived old (htab.node i).entry.key) :
    (hooks' i).flags =
      board.derived (if key = flagsVar then value else old) (htab.node i).entry.key := by
  by_cases hkey : key = flagsVar
  · rw [if_pos hkey, hs.walked (hc.hooked.mpr hkey) i hi]
    unfold Board.walked Board.derived
    cases hg : value.bind (given · (htab.node i).entry.key) with
    | some a => rfl
    | none => exact hc.literal hkey _ (hlive hkey) hg
  · rw [if_neg hkey, hs.kept (fun h ↦ hkey (hc.hooked.mp h)) i, hold hkey]

theorem FlagsInv.withFreed (h : FlagsInv board s m) (key : Str) :
    FlagsInv board (s.freed key) m := ⟨h.rep, h.follow, h.blank⟩

theorem FlagsInv.live (h : FlagsInv board s m) {i : ℕ} (hi : s.htab.Holds i) :
    envGet s.htab (s.htab.node i).entry.key ≠ none := by
  have := (findSlot_eq_some_iff h.rep).mpr ⟨hi, rfl⟩
  simp [envGet, this]

/-! ### Slots of changed tables -/

theorem holds_setNode_ne {htab : Htab} {i j filled : ℕ} {node : Node} (hj : j ≠ i) :
    Htab.Holds { htab.setNode i node with filled := filled } j ↔ htab.Holds j := by
  show _ ∧ ((htab.setNode i node).node j).Live ↔ _
  rw [node_setNode_ne hj]
  rfl

/-- New data for an entry changes neither which slots are used nor their keys. -/
theorem holds_overwrite {htab : Htab} {i : ℕ} (hlen : idx < htab.table.length) :
    Htab.Holds (htab.setNode idx ⟨(htab.node idx).used, ⟨(htab.node idx).entry.key, data⟩⟩) i ↔
      htab.Holds i := by
  by_cases hi : i = idx
  · subst hi
    show _ ∧ Node.Live (Htab.node _ _) ↔ _
    rw [node_setNode_self _ hlen]
    rfl
  · exact holds_setNode_ne hi

theorem key_overwrite {htab : Htab} {i : ℕ} (hlen : idx < htab.table.length) :
    ((htab.setNode idx ⟨(htab.node idx).used, ⟨(htab.node idx).entry.key, data⟩⟩).node
      i).entry.key =
      (htab.node i).entry.key := by
  by_cases hi : i = idx
  · subst hi
    rw [node_setNode_self _ hlen]
  · rw [node_setNode_ne hi]

theorem holds_hdelete {htab : Htab} {i : ℕ} (hlen : idx < htab.table.length) :
    (Env.hdelete htab idx).Holds i ↔ htab.Holds i ∧ i ≠ idx := by
  by_cases hi : i = idx
  · subst hi
    simp only [ne_eq, not_true_eq_false, and_false, iff_false]
    rintro ⟨-, hl⟩
    change ((htab.setNode i ⟨usedDeleted, (htab.node i).entry⟩).node i).Live at hl
    rw [node_setNode_self _ hlen] at hl
    exact absurd hl (by simp [Node.Live, usedDeleted])
  · rw [and_iff_left hi]
    exact holds_setNode_ne hi

theorem node_hdelete_ne {htab : Htab} {i : ℕ} (hi : i ≠ idx) :
    (Env.hdelete htab idx).node i = htab.node i := node_setNode_ne hi

/-! ### One request -/

theorem FlagsInv.overwrite (h : FlagsInv board s m) (hf : findSlot s.htab key = some idx)
    (hc : board.envFlagsValidate key (s.hooks idx).flags (s.htab.node idx).entry.data (some data)
        .overwrite force = true → CarefulChange board s key (s.hooks idx).callback (some data)) :
    ∃ m', FlagsInv board (board.overwrite s idx key data force answer).2 m' := by
  obtain ⟨hold, hkey⟩ := (findSlot_eq_some_iff h.rep).mp hf
  have hlen := h.rep.lt_length hold.1
  have hspec : CallbackSpec board s.htab _ _ s.hooks _ :=
    callbackSpec_runCallback h.rep (s.hooks idx).callback (some data) answer
  unfold Board.overwrite
  cases hok : board.envFlagsValidate key (s.hooks idx).flags (s.htab.node idx).entry.data
      (some data) .overwrite force with
  | false =>
      simp only [hok]
      exact ⟨m, h⟩
  | true =>
      have hcareful := hc hok
      cases hcb : (board.runCallback s.htab (s.hooks idx).callback
        (some data) answer s.hooks).1 with
      | false =>
          have hsame := runCallback_refused hcb
          simp only [hok, hcb, hsame]
          exact ⟨m, h⟩
      | true =>
          simp only [hok, hcb, Bool.not_true, Bool.false_eq_true, if_false]
          refine ⟨m.set key (some data), FlagsInv.withFreed ⟨?_, fun i hi ↦ ?_, fun i hi ↦ ?_⟩ key⟩
          · have := h.rep.overwrite data hold.1 hold.2 hkey
            rw [← hkey] at this ⊢
            exact this
          · have hi' := (holds_overwrite hlen).mp hi
            rw [key_overwrite hlen]
            have hflags := hcareful.flags_eq hspec hi' (fun _ ↦ .inl (h.live hi')) fun _ ↦
              h.follow i hi'
            rw [hflags]
            by_cases hfv : key = flagsVar
            · rw [if_pos hfv, hfv, VarMap.set_self]
            · rw [if_neg hfv, VarMap.set_of_ne (Ne.symm hfv)]
          · have hi' := fun hh ↦ hi ((holds_overwrite hlen).mpr hh)
            exact (hspec.blank i hi').trans (h.blank i hi')

theorem FlagsInv.delete (h : FlagsInv board s m) (hf : findSlot s.htab key = some idx)
    (hc : board.envFlagsValidate key (s.hooks idx).flags (s.htab.node idx).entry.data none
        .delete force = true → CarefulChange board s key (s.hooks idx).callback none) :
    ∃ m', FlagsInv board (board.delete s idx key force answer).2 m' := by
  obtain ⟨hold, hkey⟩ := (findSlot_eq_some_iff h.rep).mp hf
  have hlen := h.rep.lt_length hold.1
  have hspec : CallbackSpec board s.htab _ _ s.hooks _ :=
    callbackSpec_runCallback h.rep (s.hooks idx).callback none answer
  unfold Board.delete
  cases hok : board.envFlagsValidate key (s.hooks idx).flags (s.htab.node idx).entry.data none
      .delete force with
  | false => exact ⟨m, h⟩
  | true =>
      have hcareful := hc hok
      cases hcb : (board.runCallback s.htab (s.hooks idx).callback none answer s.hooks).1 with
      | false =>
          have hsame := runCallback_refused hcb
          simp only [hcb, hsame]
          exact ⟨m, h⟩
      | true =>
          simp only [hcb, Bool.not_true, Bool.false_eq_true, if_false]
          refine ⟨m.set key none, FlagsInv.withFreed
            ⟨h.rep.delete hold.1 hold.2 hkey, fun i hi ↦ ?_, fun i hi ↦ ?_⟩ key⟩
          · obtain ⟨hi', hne⟩ := (holds_hdelete hlen).mp hi
            dsimp only
            rw [Function.update_of_ne hne, node_hdelete_ne hne]
            rw [hcareful.flags_eq hspec hi' (fun _ ↦ .inl (h.live hi')) fun _ ↦ h.follow i hi']
            by_cases hfv : key = flagsVar
            · rw [if_pos hfv, hfv, VarMap.set_self]
            · rw [if_neg hfv, VarMap.set_of_ne (Ne.symm hfv)]
          · dsimp only
            by_cases hne : i = idx
            · rw [hne, Function.update_self]
            · have hi' : ¬s.htab.Holds i := fun hh ↦ hi ((holds_hdelete hlen).mpr ⟨hh, hne⟩)
              rw [Function.update_of_ne hne]
              exact (hspec.blank i hi').trans (h.blank i hi')

/-- The list `env_flags_init` reads in a careful creation, and the flags it finds. -/
theorem CarefulCreate.flags (hc : CarefulCreate board s key data) :
    ∃ list flags, (s.flagsList.called (s.valueAfter key data flagsVar)).read
        (s.valueAfter key data flagsVar) = some list ∧
      board.envFlagsInit list key 0 = some flags ∧
      (key ≠ flagsVar → flags = board.derived (s.valueAfter key data flagsVar) key) := by
  cases hl : s.flagsList.called (s.valueAfter key data flagsVar) with
  | uncalled =>
      unfold CachedList.called at hl
      split_ifs at hl
      contradiction
  | null =>
      exact ⟨none, _, rfl, envFlagsInit_eq nofun, hc.flagsList_null hl⟩
  | live =>
      exact ⟨_, _, rfl, envFlagsInit_eq (hc.flagsList_safe hl), fun _ ↦ rfl⟩
  | dangling =>
      unfold CachedList.called at hl
      split_ifs at hl
      exact absurd hl hc.flagsList_ne

/-- The table after a new entry was written. -/
def Htab.withEntry (htab : Htab) (idx : ℕ) (key data : Str) : Htab :=
  { htab.setNode idx ⟨firstHash htab.size key, ⟨key, data⟩⟩ with filled := htab.filled + 1 }

theorem CarefulCreate.initEntry_eq (hc : CarefulCreate board s key data)
    (hvalue : ∀ name, envGet (s.htab.withEntry idx key data) name = s.valueAfter key data name)
    (hblank : s.hooks idx = ⟨none, 0⟩) :
    ∃ callback flags flagsList callbackList,
      board.initEntry { s with htab := s.htab.withEntry idx key data } idx key =
        some ⟨s.htab.withEntry idx key data, Function.update s.hooks idx ⟨callback, flags⟩,
          flagsList, callbackList⟩ ∧
      CarefulChange board s key callback (some data) ∧
      (key ≠ flagsVar → flags = board.derived (s.valueAfter key data flagsVar) key) := by
  obtain ⟨callback, hcallback, hchange⟩ := hc.callback
  obtain ⟨list, flags, hread, hinit, hflags⟩ := hc.flags
  refine ⟨callback, flags, s.flagsList.called (s.valueAfter key data flagsVar),
    s.callbackList.called (s.valueAfter key data callbackVar), ?_, hchange, hflags⟩
  unfold Board.newCallback at hcallback
  simp only [Option.bind_eq_bind] at hcallback
  obtain ⟨clist, hcread, hcinit⟩ := Option.bind_eq_some_iff.mp hcallback
  unfold Board.initEntry
  simp only [hvalue, hblank, Option.bind_eq_bind]
  rw [hcread, Option.bind_some, hcinit, Option.bind_some, hread, Option.bind_some, hinit,
    Option.bind_some]
  rfl

section Create

variable {callback : Option Callback} {flags : ℕ} {flagsList callbackList : CachedList}

theorem holds_withEntry_ne {i : ℕ} (hi : i ≠ idx) :
    (s.htab.withEntry idx key data).Holds i ↔ s.htab.Holds i := holds_setNode_ne hi

theorem node_withEntry_ne {i : ℕ} (hi : i ≠ idx) :
    (s.htab.withEntry idx key data).node i = s.htab.node i := node_setNode_ne hi

theorem node_withEntry_self (hlen : idx < s.htab.table.length) :
    (s.htab.withEntry idx key data).node idx = ⟨firstHash s.htab.size key, ⟨key, data⟩⟩ :=
  node_setNode_self _ hlen

/-- A new entry that is refused leaves everything as it was. -/
theorem FlagsInv.hdelete_withEntry (h : FlagsInv board s m) (hm : m key = none)
    (hrep : Represents (s.htab.withEntry idx key data) (m.set key (some data)))
    (hholds : (s.htab.withEntry idx key data).Holds idx) (hlen : idx < s.htab.table.length) :
    FlagsInv board (Board.hdelete ⟨s.htab.withEntry idx key data,
      Function.update s.hooks idx ⟨callback, flags⟩, flagsList, callbackList⟩ idx key) m := by
  have hlen' := hrep.lt_length hholds.1
  have hkey : ((s.htab.withEntry idx key data).node idx).entry.key = key := by
    rw [node_withEntry_self hlen]
  have hback : (m.set key (some data)).set key none = m := by
    rw [VarMap.set_set, ← hm, VarMap.set_eq_self]
  refine FlagsInv.withFreed ⟨?_, fun i hi ↦ ?_, fun i hi ↦ ?_⟩ key
  · have := hrep.delete hholds.1 hholds.2 hkey
    rwa [hback] at this
  · obtain ⟨hi', hne⟩ := (holds_hdelete hlen').mp hi
    dsimp only
    rw [Function.update_of_ne hne, Function.update_of_ne hne, node_hdelete_ne hne,
      node_withEntry_ne hne]
    exact h.follow i ((holds_withEntry_ne hne).mp hi')
  · dsimp only
    by_cases hne : i = idx
    · rw [hne, Function.update_self]
    · rw [Function.update_of_ne hne, Function.update_of_ne hne]
      refine h.blank i fun hh ↦ hi ((holds_hdelete hlen').mpr ⟨?_, hne⟩)
      exact (holds_withEntry_ne hne).mpr hh

/-- A new entry that is accepted. -/
theorem FlagsInv.checkEntry (h : FlagsInv board s m) (hm : m key = none)
    (hrep : Represents (s.htab.withEntry idx key data) (m.set key (some data)))
    (hholds : (s.htab.withEntry idx key data).Holds idx) (hlen : idx < s.htab.table.length)
    (hchange : CarefulChange board s key callback (some data))
    (hflags : key ≠ flagsVar → flags = board.derived (s.valueAfter key data flagsVar) key) :
    ∃ m', FlagsInv board (board.checkEntry ⟨s.htab.withEntry idx key data,
      Function.update s.hooks idx ⟨callback, flags⟩, flagsList, callbackList⟩ idx key data
        force answer).2 m' := by
  set hooks := Function.update s.hooks idx ⟨callback, flags⟩ with hhooks
  have hself : hooks idx = ⟨callback, flags⟩ := Function.update_self ..
  have hspec : CallbackSpec board (s.htab.withEntry idx key data) callback (some data) hooks _ :=
    callbackSpec_runCallback hrep callback (some data) answer
  unfold Board.checkEntry
  dsimp only
  simp only [hself]
  cases hok : board.envFlagsValidate key flags data (some data) .create force with
  | false => exact ⟨m, h.hdelete_withEntry hm hrep hholds hlen⟩
  | true =>
      cases hcb : (board.runCallback (s.htab.withEntry idx key data) callback (some data) answer
          hooks).1 with
      | false =>
          have hsame := runCallback_refused hcb
          simp only [hsame]
          exact ⟨m, h.hdelete_withEntry hm hrep hholds hlen⟩
      | true =>
          simp only [Bool.not_true, Bool.false_eq_true, if_false]
          refine ⟨m.set key (some data), hrep, fun i hi ↦ ?_, fun i hi ↦ ?_⟩
          · have hvalue : (m.set key (some data)) flagsVar =
                if key = flagsVar then some data else m flagsVar := by
              by_cases hfv : key = flagsVar
              · rw [if_pos hfv, hfv, VarMap.set_self]
              · rw [if_neg hfv, VarMap.set_of_ne (Ne.symm hfv)]
            rw [hvalue]
            by_cases hne : i = idx
            · subst hne
              have hkey : ((s.htab.withEntry i key data).node i).entry.key = key := by
                rw [node_withEntry_self hlen]
              refine hchange.flags_eq hspec hi (fun hfv ↦ .inr (hkey.trans hfv)) fun hfv ↦ ?_
              rw [hself, hkey, hflags hfv, State.valueAfter, if_neg (Ne.symm hfv), envGet_eq h.rep]
            · have hi' := (holds_withEntry_ne hne).mp hi
              refine hchange.flags_eq hspec hi (fun _ ↦ .inl ?_) fun _ ↦ ?_
              · rw [node_withEntry_ne hne]
                exact h.live hi'
              · rw [hhooks, Function.update_of_ne hne, node_withEntry_ne hne]
                exact h.follow i hi'
          · have hne : i ≠ idx := by
              rintro rfl
              exact hi hholds
            dsimp only
            rw [hspec.blank i hi, hhooks, Function.update_of_ne hne]
            exact h.blank i fun hh ↦ hi ((holds_withEntry_ne hne).mpr hh)

theorem FlagsInv.create (h : FlagsInv board s m) (hm : m key = none) {n : ℕ}
    (hn : n < s.htab.size) (hpath : path s.htab.size key n = idx) (hl : ¬(s.htab.node idx).Live)
    (hfree : ∀ j < n, (s.htab.node (path s.htab.size key j)).used ≠ usedFree)
    (hc : CarefulCreate board s key data) :
    ∃ r m', board.create s idx key data force answer = some r ∧ FlagsInv board r.2 m' := by
  have hrep : Represents (s.htab.withEntry idx key data) (m.set key (some data)) :=
    h.rep.create data hm hn hpath hl hfree
  have hplace : Cycle.Place s.htab.size idx := hpath ▸ h.rep.good.place_path key n
  have hlen := h.rep.lt_length hplace
  have hholds : (s.htab.withEntry idx key data).Holds idx := by
    refine ⟨hplace, ?_⟩
    rw [node_withEntry_self hlen]
    have hpos := (place_firstHash h.rep.good.five_le key).1
    show (0 : ℤ) < firstHash s.htab.size key
    omega
  have hvalue : ∀ name, envGet (s.htab.withEntry idx key data) name =
      s.valueAfter key data name := by
    intro name
    rw [envGet_eq hrep, State.valueAfter, envGet_eq h.rep]
    by_cases hname : name = key
    · rw [hname, VarMap.set_self, if_pos rfl]
    · rw [VarMap.set_of_ne hname, if_neg hname]
  obtain ⟨callback, flags, flagsList, callbackList, hinit, hchange, hflags⟩ :=
    hc.initEntry_eq hvalue (h.blank idx fun hh ↦ hl hh.2)
  obtain ⟨m', hinv⟩ : ∃ m', FlagsInv board (board.checkEntry ⟨s.htab.withEntry idx key data,
      Function.update s.hooks idx ⟨callback, flags⟩, flagsList, callbackList⟩ idx key data
        force answer).2 m' := h.checkEntry hm hrep hholds hlen hchange hflags
  refine ⟨_, m', ?_, hinv⟩
  unfold Board.create
  simp only [Option.bind_eq_bind]
  change (board.initEntry { s with htab := s.htab.withEntry idx key data } idx key).bind _ = _
  rw [hinit, Option.bind_some]
  rfl

end Create

/-- A careful request is answered, and the flags still follow `.flags`. -/
theorem FlagsInv.handle (h : FlagsInv board s m) {req : Request} (hc : Careful board s req) :
    ∃ r m', board.handle s req = some r ∧ FlagsInv board r.2 m' := by
  cases req with
  | enter key data force answer =>
      obtain ⟨p, hp, hspec⟩ := probe_spec h.rep.good key
      unfold Board.handle
      dsimp only
      rw [hp]
      cases p with
      | found idx =>
          have hf := findSlot_of_found hp
          unfold Careful at hc
          simp only [hf] at hc
          obtain ⟨m', hinv⟩ := h.overwrite hf hc
          exact ⟨_, m', rfl, hinv⟩
      | missing idx fd =>
          by_cases hfull : s.htab.filled = s.htab.size
          · exact ⟨_, m, if_pos hfull, h⟩
          · have hf := findSlot_of_missing hp
            unfold Careful at hc
            simp only [hf] at hc
            obtain ⟨n, hn, htarget, hl, hfree⟩ := h.rep.target_of_missing hspec hfull
            dsimp only
            rw [if_neg hfull, htarget]
            exact h.create (h.rep.of_missing hspec) hn rfl hl hfree (hc hfull)
  | delete key force answer =>
      obtain ⟨p, hp, hspec⟩ := probe_spec h.rep.good key
      unfold Board.handle
      dsimp only
      rw [hp]
      cases p with
      | found idx =>
          have hf := findSlot_of_found hp
          unfold Careful at hc
          simp only [hf] at hc
          obtain ⟨m', hinv⟩ := h.delete hf hc
          exact ⟨_, m', rfl, hinv⟩
      | missing idx fd => exact ⟨_, m, rfl, h⟩

end Step

/-! ## Runs -/

/-- One request, its answer, and the state it leaves. -/
def Handles (board : Board) (s : State) (event : Request × Except Errno Unit) (s' : State) : Prop :=
  board.handle s event.1 = some (event.2, s')

/-- `env_htab` after `hcreate_r`, before any variable was created. -/
def State.init (htab : Htab) : State := ⟨htab, fun _ ↦ ⟨none, 0⟩, .uncalled, .uncalled⟩

/-- The flags of every live variable are those derived from the value of `.flags`. -/
def FlagsFollow (board : Board) (s : State) : Prop :=
  ∀ name idx, findSlot s.htab name = some idx →
    (s.hooks idx).flags = board.derived (envGet s.htab flagsVar) name

/-- In every run of careful requests from an empty table, the flags of every live variable
follow `.flags`, and every careful request is answered. -/
theorem flags_follow_of_careful {board : Board} {nel : ℕ} {htab : Htab}
    (hc : hcreateR nel = some htab) (h4 : 4 ≤ nel) (hnel : nel < 2 ^ 29)
    {events : List (Request × Except Errno Unit)} {s : State}
    (hrun : Run (fun s e s' ↦ Careful board s e.1 ∧
      Handles board s e s') (State.init htab) events s) :
    FlagsFollow board s ∧ ∀ req, Careful board s req → ∃ r, board.handle s req = some r := by
  have hinit : ∃ m, FlagsInv board (State.init htab) m := by
    obtain ⟨htab', hc', hg, -⟩ := hcreateR_spec nel h4 hnel
    obtain rfl : htab = htab' := by simpa [hc] using hc'
    have hrep := represents_hcreateR hc hg
    refine ⟨fun _ ↦ none, hrep, fun i hi ↦ ?_, fun _ _ ↦ rfl⟩
    obtain ⟨hi, hl⟩ := hi
    have := (hrep.stored (htab.node i).entry.key (htab.node i).entry.data).mpr ⟨i, hi, hl, rfl⟩
    cases this
  have hinv : ∃ m, FlagsInv board s m := by
    refine Run.invariant (I := fun s ↦ ∃ m, FlagsInv board s m) ?_ hrun hinit
    rintro s e t ⟨m, hm⟩ ⟨hcareful, hstep⟩
    obtain ⟨r, m', hr, hm'⟩ := hm.handle hcareful
    have : r = (e.2, t) := by
      rw [Handles, hr] at hstep
      exact Option.some.inj hstep
    rw [this] at hm'
    exact ⟨m', hm'⟩
  obtain ⟨m, hm⟩ := hinv
  refine ⟨fun name idx hidx ↦ ?_, fun req hreq ↦ ?_⟩
  · obtain ⟨hh, hkey⟩ := (findSlot_eq_some_iff hm.rep).mp hidx
    rw [envGet_eq hm.rep, ← hkey]
    exact hm.follow idx hh
  · obtain ⟨r, -, hr, -⟩ := hm.handle hreq
    exact ⟨r, hr⟩

/-! ## The shipped lists -/

/-- The lists of the `rpi_2` build.  No name used below is in the default environment. -/
def rpi2 : Board where
  flagsListStatic := ["eth\\d*addr:mo,", "ipaddr:i,", "gatewayip:i,", "netmask:i,", "serverip:i,",
    "nvlan:d,", "vlan:d,", "dnsip:i,", "serial#:so,"].flatMap ascii
  callbackListStatic := ["\\.callbacks:callbacks,", "\\.flags:flags,", "baudrate:baudrate,",
    "bootfile:bootfile,", "ipaddr:ipaddr,", "gatewayip:gatewayip,", "netmask:netmask,",
    "serverip:serverip,", "nvlan:nvlan,", "vlan:vlan,", "eth\\d*addr:ethaddr,",
    "loadaddr:loadaddr,", "stdin:console,", "stdout:console,", "stderr:console,",
    "serial#:serialno,"].flatMap ascii
  callbacks := ["baudrate", "console", "ethaddr", "gatewayip", "ipaddr", "loadaddr", "netmask",
    "nvlan", "serverip", "vlan"].map ascii
  envGetDefault _ := none
  flags_fit := by decide +kernel
  callbacks_fit := by decide +kernel

/-- A table for five variables. -/
def fiveSlots : Htab := ⟨5, 0, List.replicate 6 Node.zero⟩

/-- The state after a request that was answered. -/
def after (s : State) (req : Request) : State :=
  ((rpi2.handle s req).getD (.error .esrch, s)).2

theorem handles_after {s : State} {req : Request} {answer : Except Errno Unit}
    (h : (rpi2.handle s req).map Prod.fst = some answer) :
    Handles rpi2 s (req, answer) (after s req) := by
  obtain ⟨⟨a, s'⟩, hr, rfl⟩ := Option.map_eq_some_iff.mp h
  rw [Handles, after, hr]
  rfl

/-- `setenv .flags b:so` as the first command. -/
def setFlagsFirst : Request := .enter flagsVar (ascii "b:so") false true

/-- `setenv b 1`. -/
def setB : Request := .enter (ascii "b") (ascii "1") false true

theorem hcreateR_fiveSlots : hcreateR 5 = some fiveSlots := by rfl

theorem envGet_fiveSlots (name : Str) : envGet fiveSlots name = none := by
  have hg : GoodSize fiveSlots.size := ⟨by decide, by decide⟩
  exact envGet_eq (represents_hcreateR hcreateR_fiveSlots hg) name

theorem careful_of_create {board : Board} {s : State} {key data : Str} (force answer : Bool)
    (hf : findSlot s.htab key = none) (h : CarefulCreate board s key data) :
    Careful board s (.enter key data force answer) := by
  unfold Careful
  simp only [hf]
  exact fun _ ↦ h

/-- The list `b:so` is safe for every name. -/
theorem safeList_b (name : Str) : SafeList (ascii "b:so") name := by
  have hentries : attrEntries (ascii "b:so") = [(ascii "b", some (ascii "so"))] := by
    decide +kernel
  refine ⟨⟨by decide +kernel, by simp [hentries]⟩, fun a ha ↦ ?_⟩
  have hmem := mem_of_lastEntry ha
  rw [hentries, List.mem_singleton, Prod.mk.injEq, Option.some.injEq] at hmem
  rw [hmem.2]
  decide

/-- What the first request meets, what the second one meets after it, and what they leave. -/
theorem states_setFlagsFirst :
    let s := State.init fiveSlots
    let s₁ := after s setFlagsFirst
    let s₂ := after s₁ setB
    (findSlot s.htab flagsVar = none ∧
      rpi2.newCallback s flagsVar (ascii "b:so") = some (some .flags) ∧
        rpi2.literalFlags flagsVar = rpi2.staticFlags flagsVar) ∧
      (findSlot s₁.htab (ascii "b") = none ∧ s₁.flagsList = .live ∧
        s₁.valueAfter (ascii "b") (ascii "1") flagsVar = some (ascii "b:so") ∧
        rpi2.newCallback s₁ (ascii "b") (ascii "1") = some none) ∧
      (rpi2.handle s setFlagsFirst).map Prod.fst = some (.ok ()) ∧
      (rpi2.handle s₁ setB).map Prod.fst = some (.ok ()) ∧
      envGet s₂.htab (ascii "b") = some (ascii "1") ∧
      rpi2.derived (envGet s₂.htab flagsVar) (ascii "b") = 0x28 := by
  decide +kernel

theorem careful_setFlagsFirst : Careful rpi2 (State.init fiveSlots) setFlagsFirst := by
  have hvalue : (State.init fiveSlots).valueAfter flagsVar (ascii "b:so") flagsVar =
      some (ascii "b:so") := if_pos rfl
  obtain ⟨hfind, hcallback, hflags⟩ := states_setFlagsFirst.1
  refine careful_of_create false true hfind
    ⟨nofun, fun _ list hlist ↦ ?_, fun _ hne ↦ absurd rfl hne, some .flags, hcallback, ?_, ?_⟩
  · rw [hvalue, Option.some.injEq] at hlist
    exact hlist ▸ safeList_b flagsVar
  · exact iff_of_true rfl rfl
  · rintro - name (hname | rfl) -
    · exact absurd (envGet_fiveSlots name) hname
    · exact hflags

theorem careful_setB : Careful rpi2 (after (State.init fiveSlots) setFlagsFirst) setB := by
  obtain ⟨hfind, hlive, hvalue, hcallback⟩ := states_setFlagsFirst.2.1
  have hne : ascii "b" ≠ flagsVar := by decide
  refine careful_of_create false true hfind
    ⟨?_, fun _ list hlist ↦ ?_, fun hnull ↦ ?_, none, hcallback, ?_, fun h ↦ absurd h hne⟩
  · rw [hlive]
    nofun
  · rw [hvalue, Option.some.injEq] at hlist
    exact hlist ▸ safeList_b (ascii "b")
  · rw [hlive] at hnull
    cases hnull
  · exact iff_of_false nofun hne

/-- With `.flags` as the first variable, `b` becomes write-once when it is created. -/
theorem flags_follow_of_careful_first :
    ∃ events s, Run (fun s e s' ↦ Careful rpi2 s e.1 ∧ Handles rpi2 s e s')
        (State.init fiveSlots) events s ∧
      FlagsFollow rpi2 s ∧ envGet s.htab (ascii "b") = some (ascii "1") ∧
      rpi2.derived (envGet s.htab flagsVar) (ascii "b") = 0x28 := by
  obtain ⟨hf, hb, hend⟩ := states_setFlagsFirst.2.2
  have hrun : Run (fun s e s' ↦ Careful rpi2 s e.1 ∧ Handles rpi2 s e s') (State.init fiveSlots)
      [(setFlagsFirst, .ok ()), (setB, .ok ())]
      (after (after (State.init fiveSlots) setFlagsFirst) setB) :=
    .cons ⟨careful_setFlagsFirst, handles_after hf⟩
      (.cons ⟨careful_setB, handles_after hb⟩ (.nil _))
  exact ⟨_, _, hrun, (flags_follow_of_careful hcreateR_fiveSlots (by decide) (by decide) hrun).1,
    hend⟩

/-- `setenv a 1` as the first command. -/
def setA : Request := .enter (ascii "a") (ascii "1") false true

/-- The list cached when `a` is created is empty, so `b` is created without the flags
`.flags` has for it by then. -/
theorem not_flags_follow_stale :
    ∃ s, Run (Handles rpi2) (State.init fiveSlots)
        [(setA, .ok ()), (setFlagsFirst, .ok ()), (setB, .ok ())] s ∧
      envGet s.htab flagsVar = some (ascii "b:so") ∧
      (∀ e ∈ attrEntries (ascii "b:so"), PlainName e.1) ∧ ¬FlagsFollow rpi2 s := by
  have hend :
      let s₁ := after (State.init fiveSlots) setA
      let s₂ := after s₁ setFlagsFirst
      let s := after s₂ setB
      (rpi2.handle (State.init fiveSlots) setA).map Prod.fst = some (.ok ()) ∧
        (rpi2.handle s₁ setFlagsFirst).map Prod.fst = some (.ok ()) ∧
        (rpi2.handle s₂ setB).map Prod.fst = some (.ok ()) ∧
        envGet s.htab flagsVar = some (ascii "b:so") ∧ findSlot s.htab (ascii "b") = some 4 ∧
        (s.hooks 4).flags ≠ rpi2.derived (some (ascii "b:so")) (ascii "b") := by
    decide +kernel
  obtain ⟨ha, hf, hb, hvalue, hslot, hflags⟩ := hend
  refine ⟨after (after (after (State.init fiveSlots) setA) setFlagsFirst) setB,
    .cons (handles_after ha) (.cons (handles_after hf) (.cons (handles_after hb) (.nil _))), hvalue,
    (safeList_b []).plain, fun h ↦ hflags ?_⟩
  have hstale := h (ascii "b") 4 hslot
  rwa [hvalue] at hstale

end MiniPi.Env
