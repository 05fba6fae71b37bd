import MiniPi.Env.Create
import MiniPi.Env.Export

/-!
# Running out of memory in `hsearch_r`

The table again, with strings that may be null pointers: `strdup` may fail, and a
null key or value that is read is a fault.  Both paths of `ENV_ENTER` change the slot
before they know that they have the memory, so a failed `strdup` leaves a used slot
with a null pointer in it, which the next `hexport_r` reads.
-/

open MiniPi.Lib

namespace MiniPi.Env

/-- Why a call does not return. -/
inductive Stuck where
  /-- It reads through a null pointer. -/
  | nullDeref
  /-- Its search does not end. -/
  | noEnd
deriving DecidableEq, Repr

/-- `struct env_entry_node`, whose pointers may be null. -/
structure RawNode where
  /-- `USED_FREE`, `USED_DELETED`, or the first hash of the key. -/
  used : ℤ
  /-- `entry.key`. -/
  key : Option Str
  /-- `entry.data`. -/
  data : Option Str
deriving DecidableEq, Repr

/-- A slot as `calloc` leaves it. -/
def RawNode.zero : RawNode := ⟨usedFree, none, none⟩

/-- `struct hsearch_data` with a table. -/
structure RawTab where
  /-- The number of slots that may be used. -/
  size : ℕ
  /-- The number of entries. -/
  filled : ℕ
  /-- The slots `0, …, size`. -/
  table : List RawNode
deriving DecidableEq, Repr

/-- `htab->table[idx]`. -/
def RawTab.node (t : RawTab) (idx : ℕ) : RawNode := t.table.getD idx RawNode.zero

/-- The table with slot `idx` overwritten. -/
def RawTab.setNode (t : RawTab) (idx : ℕ) (node : RawNode) : RawTab :=
  { t with table := t.table.set idx node }

/-- `hcreate_r`. -/
def rawHcreateR (nel : ℕ) : Option RawTab :=
  (hcreateLoop (nel + 1) (nel ||| 1)).map fun size ↦
    ⟨size, 0, List.replicate (size + 1) RawNode.zero⟩

/-! ## The calls -/

/-- The test that a slot holds the key: `strcmp` reads the key of the slot. -/
def rawIsEntry (node : RawNode) (hval : ℕ) (key : Str) : Except Stuck Bool :=
  if node.used = hval then
    match node.key with
    | some k => .ok (decide (key = k))
    | none => .error .nullDeref
  else .ok false

/-- The update of `first_deleted` at a slot. -/
def rawNoteDeleted (node : RawNode) (idx firstDeleted : ℕ) : ℕ :=
  if node.used = usedDeleted ∧ firstDeleted = 0 then idx else firstDeleted

/-- The `do` loop of `hsearch_r`. -/
def rawProbeLoop (t : RawTab) (key : Str) (hval hval2 : ℕ) :
    ℕ → ℕ → ℕ → Except Stuck Probe
  | 0, _, _ => .error .noEnd
  | fuel + 1, idx, firstDeleted =>
      let idx := Cycle.stepDown t.size hval2 idx
      if idx = hval then .ok (.missing idx firstDeleted)
      else
        let firstDeleted := rawNoteDeleted (t.node idx) idx firstDeleted
        match rawIsEntry (t.node idx) hval key with
        | .error e => .error e
        | .ok true => .ok (.found idx)
        | .ok false =>
            if (t.node idx).used ≠ usedFree then
              rawProbeLoop t key hval hval2 fuel idx firstDeleted
            else .ok (.missing idx firstDeleted)

/-- The search of `hsearch_r`. -/
def rawProbe (t : RawTab) (key : Str) : Except Stuck Probe :=
  let hval := firstHash t.size key
  if (t.node hval).used ≠ usedFree then
    let firstDeleted := rawNoteDeleted (t.node hval) hval 0
    match rawIsEntry (t.node hval) hval key with
    | .error e => .error e
    | .ok true => .ok (.found hval)
    | .ok false =>
        rawProbeLoop t key hval (secondHash t.size hval) t.size hval firstDeleted
  else .ok (.missing hval 0)

/-- Which calls of `strdup` succeed. -/
structure Dups where
  /-- The copy of the key. -/
  key : Bool
  /-- The copy of the value. -/
  data : Bool
deriving DecidableEq, Repr

/-- `strdup`. -/
def strdup (ok : Bool) (s : Str) : Option Str := if ok then some s else none

/-- `ENV_FIND`, or `ENV_ENTER` with data. -/
inductive RawAction where
  | find
  | enter (data : Str) (verdict : Verdict) (dups : Dups)
deriving DecidableEq, Repr

/-- `_compare_and_overwrite_entry` at the slot that holds the key. -/
def rawOverwriteEntry (t : RawTab) (idx : ℕ) :
    RawAction → Except Errno (ℕ × RawNode) × RawTab
  | .find => (.ok (idx, t.node idx), t)
  | .enter data verdict dups =>
      match verdict.errno with
      | some errno => (.error errno, t)
      | none =>
          let node := { t.node idx with data := strdup dups.data data }
          (if node.data = none then .error .enomem else .ok (idx, node), t.setNode idx node)

/-- `_hdelete`. -/
def rawDelete (t : RawTab) (idx : ℕ) : RawTab :=
  { t.setNode idx { t.node idx with used := usedDeleted } with filled := t.filled - 1 }

/-- The creation of a new entry in `hsearch_r`. -/
def rawCreateEntry (t : RawTab) (idx hval : ℕ) (key data : Str) (verdict : Verdict)
    (dups : Dups) : Except Errno (ℕ × RawNode) × RawTab :=
  let node : RawNode := ⟨hval, strdup dups.key key, strdup dups.data data⟩
  let t := t.setNode idx node
  if node.key = none ∨ node.data = none then (.error .enomem, t)
  else
    let t := { t with filled := t.filled + 1 }
    match verdict.errno with
    | some errno => (.error errno, rawDelete t idx)
    | none => (.ok (1, node), t)

/-- `hsearch_r`. -/
def rawHsearchR (t : RawTab) (key : Str) (action : RawAction) :
    Except Stuck (Except Errno (ℕ × RawNode) × RawTab) :=
  match rawProbe t key with
  | .error e => .error e
  | .ok (.found idx) => .ok (rawOverwriteEntry t idx action)
  | .ok (.missing idx firstDeleted) =>
      match action with
      | .find => .ok (.error .esrch, t)
      | .enter data verdict dups =>
          if t.filled = t.size then .ok (.error .enomem, t)
          else
            let idx := if firstDeleted ≠ 0 then firstDeleted else idx
            .ok (rawCreateEntry t idx (firstHash t.size key) key data verdict dups)

/-- `hdelete_r`. -/
def rawHdeleteR (t : RawTab) (key : Str) (verdict : Verdict) :
    Except Stuck (Except Errno Unit × RawTab) :=
  match rawHsearchR t key .find with
  | .error e => .error e
  | .ok (.error _, t) => .ok (.error .esrch, t)
  | .ok (.ok (idx, _), t) =>
      match verdict.errno with
      | some errno => .ok (.error errno, t)
      | none => .ok (.ok (), rawDelete t idx)

/-- `match_entry`, as far as it can read a null pointer. -/
abbrev Matcher := Option Str → Option Str → Except Stuck Bool

/-- The body of the loop in pass 1 of `hexport_r` at a used slot: the entry it
collects. -/
def rawSelect (hideDot : Bool) (argc : ℕ) (found : Matcher) (node : RawNode) :
    Except Stuck (Option Entry) :=
  match if 0 < argc then found node.key node.data else .ok true with
  | .error e => .error e
  | .ok false => .ok none
  | .ok true =>
      match node.key with
      | none => .error .nullDeref
      | some k =>
          if hideDot ∧ k.head? = some (chr '.') then .ok none
          else
            match node.data with
            | none => .error .nullDeref
            | some d => .ok (some ⟨k, d⟩)

/-- Pass 1 of `hexport_r` over the slots that are left. -/
def rawCollect (hideDot : Bool) (argc : ℕ) (found : Matcher) :
    List RawNode → Except Stuck (List Entry)
  | [] => .ok []
  | node :: nodes =>
      if 0 < node.used then
        match rawSelect hideDot argc found node with
        | .error e => .error e
        | .ok none => rawCollect hideDot argc found nodes
        | .ok (some e) => (rawCollect hideDot argc found nodes).map (e :: ·)
      else rawCollect hideDot argc found nodes

/-- `hexport_r` after pass 1. -/
def exportEntries (sep : UInt8) (size : ℕ) (list : List Entry) : Exported :=
  let total := totlen sep list
  let list := qsort cmpkey list
  if size ≠ 0 ∧ size < total + 1 then .tooSmall
  else fillBuffer (writeEntries sep list) (bufferSize sep list size)

/-- `hexport_r`. -/
def rawHexportR (t : RawTab) (sep : UInt8) (hideDot : Bool) (size argc : ℕ)
    (found : Matcher) : Except Stuck Exported :=
  (rawCollect hideDot argc found ((List.range' 1 t.size).map t.node)).map
    (exportEntries sep size)

/-! ## A table without null pointers -/

section Nodes

variable {t : RawTab} {i j : ℕ} {node : RawNode}

theorem RawTab.node_set_self (node : RawNode) (h : i < t.table.length) :
    (t.setNode i node).node i = node := by
  simp [RawTab.node, RawTab.setNode, List.getD_eq_getElem?_getD, h]

theorem RawTab.node_set_ne (h : j ≠ i) : (t.setNode i node).node j = t.node j := by
  simp [RawTab.node, RawTab.setNode, List.getD_eq_getElem?_getD,
    List.getElem?_set_ne (Ne.symm h)]

end Nodes

/-- A slot shows an entry: a used slot has its key and its value. -/
structure RawNode.Shows (node : RawNode) (shown : Node) : Prop where
  used : node.used = shown.used
  key : shown.Live → node.key = some shown.entry.key
  data : shown.Live → node.data = some shown.entry.data

/-- A table shows another one: slot by slot, with no null pointer in a used slot. -/
structure RawTab.Shows (t : RawTab) (htab : Htab) : Prop where
  size : t.size = htab.size
  filled : t.filled = htab.filled
  length : t.table.length = htab.table.length
  node : ∀ i, (t.node i).Shows (htab.node i)

section Shows

variable {t : RawTab} {htab : Htab} {m : VarMap}

theorem RawTab.Shows.setNode (h : t.Shows htab) (i : ℕ) {rnode : RawNode} {node : Node}
    (hn : rnode.Shows node) : (t.setNode i rnode).Shows (htab.setNode i node) where
  size := h.size
  filled := h.filled
  length := by simpa [RawTab.setNode, Htab.setNode] using h.length
  node j := by
    by_cases hj : j = i
    · subst hj
      by_cases hlen : j < htab.table.length
      · rw [RawTab.node_set_self _ (h.length.symm ▸ hlen), node_setNode_self _ hlen]
        exact hn
      · have h₁ : t.setNode j rnode = t := by
          rw [RawTab.setNode, List.set_eq_of_length_le (h.length.symm ▸ not_lt.mp hlen)]
        have h₂ : htab.setNode j node = htab := by
          rw [Htab.setNode, List.set_eq_of_length_le (not_lt.mp hlen)]
        rw [h₁, h₂]
        exact h.node j
    · rw [RawTab.node_set_ne hj, node_setNode_ne hj]
      exact h.node j

theorem RawTab.Shows.withFilled (h : t.Shows htab) {filled filled' : ℕ} (he : filled = filled') :
    RawTab.Shows { t with filled := filled } { htab with filled := filled' } :=
  ⟨h.size, he, h.length, h.node⟩

theorem RawTab.Shows.delete (h : t.Shows htab) (i : ℕ) :
    (rawDelete t i).Shows (hdelete htab i) := by
  have hdead : ∀ e, ¬Node.Live ⟨usedDeleted, e⟩ := fun e ↦ by simp [Node.Live, usedDeleted]
  have hnode : RawNode.Shows { t.node i with used := usedDeleted }
      { htab.node i with used := usedDeleted } :=
    ⟨rfl, fun hl ↦ absurd hl (hdead _), fun hl ↦ absurd hl (hdead _)⟩
  exact (h.setNode i hnode).withFilled (congrArg (· - 1) h.filled)

theorem rawIsEntry_eq {rnode : RawNode} {node : Node} (h : rnode.Shows node) {hval : ℕ}
    (hpos : 0 < hval) (key : Str) : rawIsEntry rnode hval key = .ok (isEntry node hval key) := by
  rw [rawIsEntry, isEntry, h.used]
  by_cases hu : node.used = hval
  · have hl : node.Live := by
      rw [Node.Live, hu]
      exact Int.natCast_pos.mpr hpos
    rw [if_pos hu, h.key hl]
    simp [hu]
  · rw [if_neg hu]
    simp [hu]

theorem rawNoteDeleted_eq {rnode : RawNode} {node : Node} (h : rnode.Shows node) (idx fd : ℕ) :
    rawNoteDeleted rnode idx fd = noteDeleted node idx fd := by
  rw [rawNoteDeleted, noteDeleted, h.used]

/-- The search meets the same slots. -/
theorem rawProbeLoop_eq (h : t.Shows htab) (key : Str) {hval : ℕ} (hpos : 0 < hval) (hval2 : ℕ)
    {fuel idx fd : ℕ} {r : Probe} (hr : probeLoop htab key hval hval2 fuel idx fd = some r) :
    rawProbeLoop t key hval hval2 fuel idx fd = .ok r := by
  induction fuel generalizing idx fd with
  | zero => cases hr
  | succ fuel ih =>
      rw [probeLoop] at hr
      rw [rawProbeLoop, h.size]
      dsimp only at hr ⊢
      generalize Cycle.stepDown htab.size hval2 idx = i at hr ⊢
      rw [rawIsEntry_eq (h.node i) hpos, rawNoteDeleted_eq (h.node i), (h.node i).used]
      by_cases h₁ : i = hval
      · rw [if_pos h₁] at hr ⊢
        exact congrArg _ (Option.some.inj hr)
      · rw [if_neg h₁] at hr ⊢
        cases he : isEntry (htab.node i) hval key with
        | true =>
            rw [he, if_pos rfl] at hr
            exact congrArg _ (Option.some.inj hr)
        | false =>
            rw [he, if_neg Bool.false_ne_true] at hr
            dsimp only
            split_ifs at hr ⊢
            · exact ih hr
            · exact congrArg _ (Option.some.inj hr)

theorem rawProbe_eq (h : t.Shows htab) (hg : GoodSize htab.size) {key : Str} {r : Probe}
    (hr : probe htab key = some r) : rawProbe t key = .ok r := by
  have hpos := (place_firstHash hg.five_le key).1
  rw [probe] at hr
  rw [rawProbe, h.size]
  dsimp only at hr ⊢
  generalize firstHash htab.size key = i at hr hpos ⊢
  rw [rawIsEntry_eq (h.node i) hpos, rawNoteDeleted_eq (h.node i), (h.node i).used]
  by_cases h₁ : (htab.node i).used ≠ usedFree
  · rw [if_pos h₁] at hr ⊢
    cases he : isEntry (htab.node i) i key with
    | true =>
        rw [he, if_pos rfl] at hr
        exact congrArg _ (Option.some.inj hr)
    | false =>
        rw [he, if_neg Bool.false_ne_true] at hr
        exact rawProbeLoop_eq h key hpos _ hr
  · rw [if_neg h₁] at hr ⊢
    exact congrArg _ (Option.some.inj hr)

/-- The action with every `strdup` successful. -/
def Action.raw : Action → RawAction
  | .find => .find
  | .enter data verdict => .enter data verdict ⟨true, true⟩

theorem RawTab.Shows.overwrite (h : t.Shows htab) (idx : ℕ) (action : Action) :
    (rawOverwriteEntry t idx action.raw).2.Shows (overwriteEntry htab idx action).2 := by
  cases action with
  | find => exact h
  | enter data verdict =>
      rw [Action.raw, rawOverwriteEntry, overwriteEntry]
      cases verdict.errno with
      | some errno => exact h
      | none => exact h.setNode idx ⟨(h.node idx).used, (h.node idx).key, fun _ ↦ rfl⟩

theorem RawTab.Shows.create (h : t.Shows htab) (idx hval : ℕ) (key data : Str)
    (verdict : Verdict) : (rawCreateEntry t idx hval key data verdict ⟨true, true⟩).2.Shows
      (createEntry htab idx hval ⟨key, data⟩ verdict).2 := by
  have hnode : RawNode.Shows ⟨hval, some key, some data⟩ ⟨hval, ⟨key, data⟩⟩ :=
    ⟨rfl, fun _ ↦ rfl, fun _ ↦ rfl⟩
  have hnew := (h.setNode idx hnode).withFilled (congrArg (· + 1) h.filled)
  rw [rawCreateEntry, createEntry]
  simp only [strdup, if_true, reduceCtorEq, or_self, if_false]
  cases verdict.errno with
  | none => exact hnew
  | some errno => exact hnew.delete idx

/-- With every `strdup` successful `hsearch_r` keeps the table free of null pointers. -/
theorem rawHsearchR_shows (h : t.Shows htab) (hg : GoodSize htab.size) (key : Str)
    (action : Action) {r : Except Errno (ℕ × Entry) × Htab}
    (hr : hsearchR htab key action = some r) :
    ∃ r', rawHsearchR t key action.raw = .ok r' ∧ r'.2.Shows r.2 := by
  rw [hsearchR] at hr
  obtain ⟨p, hp, -⟩ := probe_spec hg key
  rw [rawHsearchR, rawProbe_eq h hg hp]
  rw [hp] at hr
  cases p with
  | found idx =>
      obtain rfl := Option.some.inj hr
      exact ⟨_, rfl, h.overwrite idx action⟩
  | missing idx fd =>
      cases action with
      | find =>
          obtain rfl := Option.some.inj hr
          exact ⟨_, rfl, h⟩
      | enter data verdict =>
          dsimp only [Action.raw] at hr ⊢
          rw [h.filled, h.size]
          split_ifs at hr ⊢
          · obtain rfl := Option.some.inj hr
            exact ⟨_, rfl, h⟩
          · obtain rfl := Option.some.inj hr
            exact ⟨_, rfl, h.create _ _ key data verdict⟩
          · obtain rfl := Option.some.inj hr
            exact ⟨_, rfl, h.create _ _ key data verdict⟩

theorem rawHdeleteR_shows (h : t.Shows htab) (hg : GoodSize htab.size) (key : Str)
    (verdict : Verdict) {r : Except Errno Unit × Htab} (hr : hdeleteR htab key verdict = some r) :
    ∃ r', rawHdeleteR t key verdict = .ok r' ∧ r'.2.Shows r.2 := by
  obtain ⟨p, hp, -⟩ := probe_spec hg key
  rw [hdeleteR, hsearchR, hp] at hr
  rw [rawHdeleteR, rawHsearchR, rawProbe_eq h hg hp]
  cases p with
  | missing idx fd =>
      obtain rfl := Option.some.inj hr
      exact ⟨_, rfl, h⟩
  | found idx =>
      dsimp only [rawOverwriteEntry, overwriteEntry] at hr ⊢
      cases hv : verdict.errno with
      | some errno =>
          rw [hv] at hr
          obtain rfl := Option.some.inj hr
          exact ⟨_, rfl, h⟩
      | none =>
          rw [hv] at hr
          obtain rfl := Option.some.inj hr
          exact ⟨_, rfl, h.delete idx⟩

/-- `hexport_r` reads no null pointer in such a table. -/
theorem rawCollect_shows {found : Matcher} (hfound : ∀ k d, ∃ b, found (some k) (some d) = .ok b)
    (h : t.Shows htab) (hideDot : Bool) (argc : ℕ) (is : List ℕ) :
    ∃ list, rawCollect hideDot argc found (is.map t.node) = .ok list := by
  induction is with
  | nil => exact ⟨[], rfl⟩
  | cons i is ih =>
      obtain ⟨list, hlist⟩ := ih
      rw [List.map_cons, rawCollect]
      split_ifs with hl
      · rw [(h.node i).used] at hl
        obtain ⟨b, hb⟩ := hfound (htab.node i).entry.key (htab.node i).entry.data
        have hmatch : ∃ b', (if 0 < argc then found (t.node i).key (t.node i).data else .ok true) =
            .ok b' := by
          split_ifs
          · exact ⟨b, by rw [(h.node i).key hl, (h.node i).data hl, hb]⟩
          · exact ⟨true, rfl⟩
        obtain ⟨b', hb'⟩ := hmatch
        rw [rawSelect, hb', (h.node i).key hl, (h.node i).data hl]
        cases b' with
        | false => exact ⟨list, hlist⟩
        | true =>
            dsimp only
            split_ifs
            · exact ⟨list, hlist⟩
            · exact ⟨_, by rw [hlist]; rfl⟩
      · exact ⟨list, hlist⟩

end Shows

/-! ## Runs -/

/-- A call on the table. -/
inductive RawCall where
  /-- `hsearch_r` with `ENV_FIND`. -/
  | find (key : Str)
  /-- `hsearch_r` with `ENV_ENTER`. -/
  | enter (key data : Str) (verdict : Verdict) (dups : Dups)
  /-- `hdelete_r`. -/
  | delete (key : Str) (verdict : Verdict)
deriving DecidableEq, Repr

/-- The table after a call. -/
def RawCall.run (t : RawTab) : RawCall → Except Stuck RawTab
  | .find key => (rawHsearchR t key .find).map Prod.snd
  | .enter key data verdict dups => (rawHsearchR t key (.enter data verdict dups)).map Prod.snd
  | .delete key verdict => (rawHdeleteR t key verdict).map Prod.snd

/-- Every `strdup` of the call succeeds. -/
def RawCall.Duplicates : RawCall → Prop
  | .enter _ _ _ dups => dups = ⟨true, true⟩
  | _ => True

/-- A call in which every `strdup` succeeds is a move of the table. -/
def RawMove (t : RawTab) (call : RawCall) (t' : RawTab) : Prop :=
  call.Duplicates ∧ call.run t = .ok t'

/-- A table that some table with a map shows. -/
def RawTab.Sound (t : RawTab) : Prop := ∃ htab m, t.Shows htab ∧ Represents htab m

theorem RawTab.Sound.run {t : RawTab} (h : t.Sound) {call : RawCall} (hd : call.Duplicates) :
    ∃ t', call.run t = .ok t' ∧ t'.Sound := by
  obtain ⟨htab, m, hshows, hrep⟩ := h
  cases call with
  | find key =>
      obtain ⟨hrun, -, -⟩ := simulates_find hrep key
      obtain ⟨⟨r, htab''⟩, hs, hmap⟩ := Option.map_eq_some_iff.mp hrun
      obtain rfl : htab'' = htab := congrArg Prod.snd hmap
      obtain ⟨r', hr', hshows'⟩ := rawHsearchR_shows hshows hrep.good key .find hs
      exact ⟨r'.2, by rw [RawCall.run, show RawAction.find = Action.raw .find from rfl, hr']; rfl,
        _, m, hshows', hrep⟩
  | enter key data verdict dups =>
      obtain rfl : dups = ⟨true, true⟩ := hd
      obtain ⟨htab', hrun, -, hrep'⟩ := simulates_enter hrep key data verdict
      obtain ⟨⟨r, htab''⟩, hs, hmap⟩ := Option.map_eq_some_iff.mp hrun
      obtain rfl : htab'' = htab' := congrArg Prod.snd hmap
      obtain ⟨r', hr', hshows'⟩ := rawHsearchR_shows hshows hrep.good key (.enter data verdict) hs
      exact ⟨r'.2, by rw [RawCall.run]; exact congrArg _ hr', _, _, hshows', hrep'⟩
  | delete key verdict =>
      obtain ⟨htab', hrun, -, hrep'⟩ := simulates_delete hrep key verdict
      obtain ⟨⟨r, htab''⟩, hs, hmap⟩ := Option.map_eq_some_iff.mp hrun
      obtain rfl : htab'' = htab' := congrArg Prod.snd hmap
      obtain ⟨r', hr', hshows'⟩ := rawHdeleteR_shows hshows hrep.good key verdict hs
      exact ⟨r'.2, by rw [RawCall.run, hr']; rfl, _, _, hshows', hrep'⟩

theorem RawTab.Sound.runs {t t' : RawTab} {calls : List RawCall} (hrun : Run RawMove t calls t')
    (h : t.Sound) : t'.Sound := by
  induction hrun with
  | nil _ => exact h
  | cons hmove _ ih =>
      obtain ⟨t₁, h₁, hsound⟩ := h.run hmove.1
      rw [hmove.2] at h₁
      obtain rfl := Except.ok.inj h₁
      exact ih hsound

theorem sound_rawHcreateR {nel : ℕ} (h4 : 4 ≤ nel) (hlt : nel < 2 ^ 29) {t : RawTab}
    (hc : rawHcreateR nel = some t) : t.Sound := by
  obtain ⟨htab, hcreate, hg, -⟩ := hcreateR_spec nel h4 hlt
  obtain ⟨size, hsize, rfl⟩ := Option.map_eq_some_iff.mp hc
  obtain ⟨size', hsize', rfl⟩ := Option.map_eq_some_iff.mp hcreate
  rw [hsize, Option.some.injEq] at hsize'
  subst hsize'
  refine ⟨_, _, ⟨rfl, rfl, by simp, fun i ↦ ?_⟩, represents_hcreateR hcreate hg⟩
  have hraw : RawTab.node ⟨size, 0, List.replicate (size + 1) RawNode.zero⟩ i = RawNode.zero := by
    simp only [RawTab.node, List.getD_eq_getElem?_getD, List.getElem?_replicate]
    split_ifs <;> rfl
  have hzero : Htab.node ⟨size, 0, List.replicate (size + 1) Node.zero⟩ i = Node.zero := by
    simp only [Htab.node, List.getD_eq_getElem?_getD, List.getElem?_replicate]
    split_ifs <;> rfl
  have hdead : ¬Node.zero.Live := by simp [Node.Live, Node.zero, usedFree]
  rw [hraw, hzero]
  exact ⟨rfl, fun hl ↦ absurd hl hdead, fun hl ↦ absurd hl hdead⟩

/-! ## A failed `strdup` -/

/-- What `ENV_FIND` shows of an entry, or its error. -/
def rawFind (t : RawTab) (key : Str) : Except Stuck (Except Errno (Option Str × Option Str)) :=
  (rawHsearchR t key .find).map fun r ↦ r.1.map fun p ↦ (p.2.key, p.2.data)

/-- `ENV_FIND` and `hexport_r` see the same in both tables. -/
def SameView (t t' : RawTab) : Prop :=
  (∀ key, rawFind t' key = rawFind t key) ∧
    ∀ sep hideDot size argc found,
      rawHexportR t' sep hideDot size argc found = rawHexportR t sep hideDot size argc found

/-- No later call reads through a null pointer, whatever calls came before it. -/
def Safe (t : RawTab) : Prop :=
  ∀ calls t', Run RawMove t calls t' →
    (∀ call : RawCall, call.Duplicates → call.run t' ≠ .error .nullDeref) ∧
    ∀ sep hideDot size argc found, (∀ k d, ∃ b, found (some k) (some d) = .ok b) →
      rawHexportR t' sep hideDot size argc found ≠ .error .nullDeref

/-- A call that fails with `ENOMEM` changes nothing that is seen later and leaves no
null pointer to be read. -/
def Atomic (t : RawTab) (key data : Str) (verdict : Verdict) (dups : Dups) : Prop :=
  ∀ t', rawHsearchR t key (.enter data verdict dups) = .ok (.error .enomem, t') →
    SameView t t' ∧ Safe t'

/-- Every `strdup` the call makes succeeds: an accepted overwrite copies the value, and
a new entry in a table with room copies the key and the value. -/
def DupsSucceed (t : RawTab) (key : Str) (verdict : Verdict) (dups : Dups) : Prop :=
  match rawFind t key with
  | .ok (.ok _) => verdict.errno = none → dups.data = true
  | _ => t.filled ≠ t.size → dups.key = true ∧ dups.data = true

theorem RawTab.Sound.safe {t : RawTab} (h : t.Sound) : Safe t := by
  intro calls t' hrun
  have h' := h.runs hrun
  refine ⟨fun call hd ↦ ?_, fun sep hideDot size argc found hfound ↦ ?_⟩
  · obtain ⟨t₁, h₁, -⟩ := h'.run hd
    simp [h₁]
  · obtain ⟨htab, m, hshows, -⟩ := h'
    obtain ⟨list, hlist⟩ := rawCollect_shows hfound hshows hideDot argc (List.range' 1 t'.size)
    rw [rawHexportR, hlist]
    simp [Except.map]

/-- An export of everything collects an entry, or reads a null pointer. -/
theorem rawSelect_all (found : Matcher) (n : RawNode) :
    rawSelect false 0 found n = .error .nullDeref ∨
    ∃ e, rawSelect false 0 found n = .ok (some e) := by
  rcases n with ⟨u, _ | k, _ | d⟩ <;> simp [rawSelect]

theorem rawSelect_null {found : Matcher} {n : RawNode} (hnull : n.key = none ∨ n.data = none) :
    rawSelect false 0 found n = .error .nullDeref := by
  rcases n with ⟨u, _ | k, _ | d⟩
  · rfl
  · rfl
  · rfl
  · simp at hnull

/-- An export of everything reads every string of a used slot. -/
theorem rawCollect_null {found : Matcher} {nodes : List RawNode} {node : RawNode}
    (hmem : node ∈ nodes) (hused : 0 < node.used) (hnull : node.key = none ∨ node.data = none) :
    rawCollect false 0 found nodes = .error .nullDeref := by
  induction nodes with
  | nil => exact absurd hmem List.not_mem_nil
  | cons n nodes ih =>
      rw [rawCollect]
      rcases List.mem_cons.mp hmem with rfl | hmem
      · rw [if_pos hused, rawSelect_null hnull]
      · rw [ih hmem]
        rcases rawSelect_all found n with h | ⟨e, h⟩
        · rw [h]
          split_ifs <;> rfl
        · rw [h]
          split_ifs <;> rfl

/-- A used slot with a null pointer is not safe. -/
theorem not_safe_of_null {t : RawTab} {i : ℕ} (hi : Cycle.Place t.size i)
    (hused : 0 < (t.node i).used) (hnull : (t.node i).key = none ∨ (t.node i).data = none) :
    ¬Safe t := by
  intro h
  obtain ⟨-, hexport⟩ := h [] t (.nil t)
  refine hexport nul false 0 0 (fun _ _ ↦ .ok false) (fun _ _ ↦ ⟨false, rfl⟩) ?_
  have hmem : t.node i ∈ (List.range' 1 t.size).map t.node := by
    refine List.mem_map.mpr ⟨i, List.mem_range'_1.mpr ⟨hi.1, ?_⟩, rfl⟩
    have := hi.2
    omega
  rw [rawHexportR, rawCollect_null hmem hused hnull]
  rfl

theorem strdup_eq_none {ok : Bool} {s : Str} : strdup ok s = none ↔ ok = false := by
  cases ok <;> simp [strdup]

section Enter

variable {t : RawTab} {htab : Htab} {m : VarMap} {key : Str} {idx fd : ℕ}

theorem rawFind_of_found (hp : rawProbe t key = .ok (.found idx)) :
    rawFind t key = .ok (.ok ((t.node idx).key, (t.node idx).data)) := by
  rw [rawFind, rawHsearchR, hp]
  rfl

theorem rawFind_of_missing (hp : rawProbe t key = .ok (.missing idx fd)) :
    rawFind t key = .ok (.error .esrch) := by
  rw [rawFind, rawHsearchR, hp]
  rfl

/-- An overwrite is atomic exactly when it is refused or has the memory. -/
theorem atomic_of_found (h : t.Shows htab) (hrep : Represents htab m)
    (hs : ProbeSpec htab key (.found idx)) (hp : rawProbe t key = .ok (.found idx)) (data : Str)
    (verdict : Verdict) (dups : Dups) :
    Atomic t key data verdict dups ↔ (verdict.errno = none → dups.data = true) := by
  obtain ⟨hi, hl, -, -⟩ := hrep.of_found hs
  have hrun : rawHsearchR t key (.enter data verdict dups) =
      .ok (rawOverwriteEntry t idx (.enter data verdict dups)) := by rw [rawHsearchR, hp]
  rw [Atomic, hrun, rawOverwriteEntry]
  cases hv : verdict.errno with
  | some errno =>
      refine iff_of_true (fun t' heq ↦ ?_) (fun hnone ↦ absurd hnone (by simp))
      have : errno = .enomem := by simpa using (Prod.mk.inj (Except.ok.inj heq)).1
      subst this
      rcases verdict with ⟨_ | _, _ | _⟩ <;> simp [Verdict.errno] at hv
  | none =>
      dsimp only
      cases hd : dups.data with
      | true =>
          refine iff_of_true (fun t' heq ↦ ?_) fun _ ↦ rfl
          simp [strdup] at heq
      | false =>
          refine iff_of_false (fun hatomic ↦ ?_) (by simp)
          obtain ⟨-, hsafe⟩ := hatomic _ (by simp [strdup]; rfl)
          have hlen : idx < t.table.length := h.length.symm ▸ hrep.lt_length hi
          refine not_safe_of_null (t := t.setNode idx _) (i := idx) (h.size.symm ▸ hi) ?_ ?_ hsafe
          · rw [RawTab.node_set_self _ hlen]
            exact (h.node idx).used.symm ▸ hl
          · rw [RawTab.node_set_self _ hlen]
            exact Or.inr rfl

/-- A new entry is atomic exactly when the table is full or both copies are made. -/
theorem atomic_of_missing (h : t.Shows htab) (hrep : Represents htab m)
    (hs : ProbeSpec htab key (.missing idx fd)) (hp : rawProbe t key = .ok (.missing idx fd))
    (data : Str) (verdict : Verdict) (dups : Dups) :
    Atomic t key data verdict dups ↔
      (t.filled ≠ t.size → dups.key = true ∧ dups.data = true) := by
  have hrun : rawHsearchR t key (.enter data verdict dups) =
      if t.filled = t.size then .ok (.error .enomem, t)
      else .ok (rawCreateEntry t (if fd ≠ 0 then fd else idx) (firstHash t.size key) key data
        verdict dups) := by rw [rawHsearchR, hp]
  rw [Atomic, hrun]
  by_cases hfull : t.filled = t.size
  · refine iff_of_true (fun t' heq ↦ ?_) fun hne ↦ absurd hfull hne
    rw [if_pos hfull] at heq
    obtain rfl : t = t' := (Prod.mk.inj (Except.ok.inj heq)).2
    exact ⟨⟨fun _ ↦ rfl, fun _ _ _ _ _ ↦ rfl⟩, RawTab.Sound.safe ⟨htab, m, h, hrep⟩⟩
  · rw [if_neg hfull, rawCreateEntry]
    dsimp only
    simp only [strdup_eq_none]
    by_cases hdups : dups.key = true ∧ dups.data = true
    · refine iff_of_true (fun t' heq ↦ ?_) fun _ ↦ hdups
      rw [if_neg (by simp [hdups.1, hdups.2])] at heq
      rcases verdict with ⟨_ | _, _ | _⟩ <;> simp [Verdict.errno] at heq
    · have hfail : dups.key = false ∨ dups.data = false := by
        rw [← Bool.not_eq_true, ← Bool.not_eq_true]
        exact not_and_or.mp hdups
      refine iff_of_false (fun hatomic ↦ ?_) fun hall ↦ hdups (hall hfull)
      obtain ⟨-, hsafe⟩ := hatomic _ (by rw [if_pos hfail])
      have hfull' : htab.filled ≠ htab.size := by rwa [← h.filled, ← h.size]
      obtain ⟨n, -, htarget, -, -⟩ := hrep.target_of_missing hs hfull'
      have hi := hrep.good.place_path key n
      rw [← htarget] at hi
      have hlen : (if fd ≠ 0 then fd else idx) < t.table.length :=
        h.length.symm ▸ hrep.lt_length hi
      refine not_safe_of_null (i := if fd ≠ 0 then fd else idx) (h.size.symm ▸ hi) ?_ ?_ hsafe
      · rw [RawTab.node_set_self _ hlen, h.size]
        exact Int.natCast_pos.mpr (place_firstHash hrep.good.five_le key).1
      · rw [RawTab.node_set_self _ hlen]
        exact hfail.imp strdup_eq_none.mpr strdup_eq_none.mpr

end Enter

/-- In a table for four entries or more, a call that fails for want of memory is atomic exactly when
every `strdup` it makes succeeds, which leaves the full table as the only cause. -/
theorem enomem_atomic_iff {nel : ℕ} (h4 : 4 ≤ nel) (hlt : nel < 2 ^ 29) {t₀ t : RawTab}
    {calls : List RawCall} (hc : rawHcreateR nel = some t₀) (hrun : Run RawMove t₀ calls t)
    (key data : Str) (verdict : Verdict) (dups : Dups) :
    Atomic t key data verdict dups ↔ DupsSucceed t key verdict dups := by
  obtain ⟨htab, m, hshows, hrep⟩ := (sound_rawHcreateR h4 hlt hc).runs hrun
  obtain ⟨p, hp, hspec⟩ := probe_spec hrep.good key
  have hp' := rawProbe_eq hshows hrep.good hp
  cases p with
  | found idx =>
      rw [atomic_of_found hshows hrep hspec hp', DupsSucceed, rawFind_of_found hp']
  | missing idx fd =>
      rw [atomic_of_missing hshows hrep hspec hp', DupsSucceed, rawFind_of_missing hp']

/-- The table of five slots after `a=1`. -/
def rawOneVar : RawTab :=
  ⟨5, 1, [.zero, .zero, .zero, ⟨3, some [97], some [49]⟩, .zero, .zero]⟩

theorem run_rawOneVar : Run RawMove ⟨5, 0, List.replicate 6 RawNode.zero⟩
    [.enter [97] [49] ⟨true, true⟩ ⟨true, true⟩] rawOneVar :=
  .cons ⟨rfl, by rfl⟩ (.nil _)

/-- An overwrite that has its memory is atomic. -/
theorem enomem_atomic_overwrite : Atomic rawOneVar [97] [50] ⟨true, true⟩ ⟨false, true⟩ :=
  (enomem_atomic_iff (show 4 ≤ 5 by decide) (by decide) (by rfl) run_rawOneVar _ _ _ _).mpr
    fun _ ↦ rfl

/-- Setting `a=2` without memory for the value loses `a`, and the next export reads a
null pointer. -/
theorem enomem_loses_value :
    ∃ t₀ t', rawHcreateR 5 = some t₀ ∧
      Run RawMove t₀ [.enter [97] [49] ⟨true, true⟩ ⟨true, true⟩] rawOneVar ∧
      rawHsearchR rawOneVar [97] (.enter [50] ⟨true, true⟩ ⟨true, false⟩) =
        .ok (.error .enomem, t') ∧
      rawFind rawOneVar [97] = .ok (.ok (some [97], some [49])) ∧
      rawFind t' [97] = .ok (.ok (some [97], none)) ∧
      rawHexportR t' nul false 0 0 (fun _ _ ↦ .ok false) = .error .nullDeref :=
  ⟨_, _, by rfl, run_rawOneVar, by rfl, by rfl, by rfl, by rfl⟩

end MiniPi.Env
