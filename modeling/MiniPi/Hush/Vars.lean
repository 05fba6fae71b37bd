import MiniPi.Hush.Command

/-!
# The local variables of the shell

`set_local_var`, `get_local_var` and `unset_local_var` of `common/cli_hush.c`.  The variables are a
linked list that is never empty: the walks to its end and to the variable in front of another one
rely on the read-only `HUSH_VERSION` at its head.  `none` is a walk that leaves the list.
-/

namespace MiniPi.Hush

/-- `struct variables`. -/
@[ext]
structure Variable where
  name : Str
  value : Str
  flgExport : ℤ
  flgReadOnly : Bool
deriving DecidableEq, Repr

namespace Variable

/-- `HUSH_VERSION`. -/
def hushVersion : Str := Lib.ascii "HUSH_VERSION"

/-- `u_boot_hush_start`. -/
def uBootHushStart : List Variable → List Variable
  | [] => [⟨hushVersion, Lib.ascii "0.01", 0, true⟩]
  | vars => vars

/-- `get_dollar_var`. -/
def getDollarVar (lastReturnCode : ℕ) : Option UInt8 → Option Str
  | some 63 => some (Lib.ascii (toString lastReturnCode))
  | _ => none

/-- The value that a list has for a name. -/
def lookup (vars : List Variable) (name : Str) : Option Str :=
  (vars.find? fun cur ↦ cur.name = name).map Variable.value

/-- `get_local_var`. -/
def getLocalVar (vars : List Variable) (lastReturnCode : ℕ) (s : Str) : Option Str :=
  if s.head? = some 36 then getDollarVar lastReturnCode (s.drop 1).head? else lookup vars s

/-- A change of the first variable with a name. -/
def modify (name : Str) (f : Variable → Variable) : List Variable → List Variable
  | [] => []
  | cur :: vars => if cur.name = name then f cur :: vars else cur :: modify name f vars

/-- A variable that is exported. -/
def exported (flgExport : ℤ) (cur : Variable) : Variable := { cur with flgExport }

/-- A variable with another value. -/
def assigned (value : Str) (flgExport : ℤ) (cur : Variable) : Variable :=
  { cur with value, flgExport := if 0 < flgExport ∨ 1 < cur.flgExport then 1 else cur.flgExport }

/-- The part of `NAME=VALUE` in front of the first `=`. -/
def nameOf (s : Str) : Str := s.takeWhile (· ≠ 61)

/-- The part of `NAME=VALUE` behind the first `=`. -/
def valueOf (s : Str) : Str := (s.dropWhile (· ≠ 61)).drop 1

/-- `set_local_var`, with what it returns; `env` is `env_get`. -/
def setLocalVar (env : Str → Option Str) (vars : List Variable) (s : Str) (flgExport : ℤ) :
    Option (ℤ × List Variable) :=
  if s.head?.all (!isalpha ·) then some (-1, vars)
  -- the name is looked up before it is cut at the `=`
  else if env s ≠ none then some (-1, vars)
  else if 61 ∉ s ∨ valueOf s = [] then some (-1, vars)
  else
    match vars.find? fun cur ↦ cur.name = nameOf s with
    | some cur =>
      if cur.value = valueOf s then
        if 0 < flgExport ∧ cur.flgExport = 0 then
          some (0, modify (nameOf s) (exported flgExport) vars)
        else some (1, vars)
      else if cur.flgReadOnly then some (-1, vars)
      else some (0, modify (nameOf s) (assigned (valueOf s) flgExport) vars)
    | none => if vars = [] then none
        else some (0, vars ++ [⟨nameOf s, valueOf s, flgExport, false⟩])

/-- The walk of `unset_local_var` to the variable in front of the one with the name. -/
def unlink (name : Str) : List Variable → Option (List Variable)
  | [] => none
  | next :: vars =>
    match vars with
    | [] => none
    | cur :: vars' => if cur.name = name then some (next :: vars')
        else (unlink name vars).map (next :: ·)

/-- `unset_local_var`. -/
def unsetLocalVar (vars : List Variable) (name : Str) : Option (List Variable) :=
  match vars.find? fun cur ↦ cur.name = name with
  | none => some vars
  | some cur =>
    if cur.flgReadOnly then some vars
    else if (vars.head?.map Variable.name) = some name then none
    else unlink name vars

/-! ## The list in order -/

/-- A name that `set_local_var` takes. -/
def Good (name : Str) : Prop := name.head?.all (!isalpha ·) = false ∧ 61 ∉ name

/-- A list that starts with `HUSH_VERSION`, the only one that is read-only, and has each name
once. -/
structure Ok (vars : List Variable) : Prop where
  start : ∃ flgExport rest, vars = ⟨hushVersion, Lib.ascii "0.01", flgExport, true⟩ :: rest ∧
    ∀ v ∈ rest, v.flgReadOnly = false
  nodup : (vars.map Variable.name).Nodup
  good : ∀ v ∈ vars, Good v.name ∧ v.value ≠ []

/-- A string that is in the form `NAME=VALUE`, and that is not itself the name of a global
variable. -/
def Accepted (env : Str → Option Str) (s : Str) : Prop :=
  s.head?.all (!isalpha ·) = false ∧ env s = none ∧ 61 ∈ s ∧ valueOf s ≠ []

instance (env : Str → Option Str) (s : Str) : Decidable (Accepted env s) :=
  inferInstanceAs (Decidable (_ ∧ _))

variable {vars : List Variable} {name s : Str} {env : Str → Option Str}

theorem uBootHushStart_ok : Ok (uBootHushStart []) where
  start := ⟨0, [], rfl, by simp⟩
  nodup := by simp [uBootHushStart]
  good := by
    intro v hv
    obtain rfl := List.mem_singleton.mp hv
    exact ⟨⟨by decide, by decide⟩, by decide⟩

theorem good_nameOf (hs : s.head?.all (!isalpha ·) = false) (heq : 61 ∈ s) : Good (nameOf s) := by
  cases s with
  | nil => cases heq
  | cons c s =>
      have hc : c ≠ 61 := by
        rintro rfl
        rw [List.head?_cons] at hs
        exact absurd hs (by decide)
      refine ⟨?_, fun hmem ↦ by simpa using List.mem_takeWhile_imp hmem⟩
      rw [nameOf, List.takeWhile_cons_of_pos (by simpa using hc)]
      exact hs

theorem lookup_modify {f : Variable → Variable} (hf : ∀ v, (f v).name = v.name) (n : Str) :
    lookup (modify name f vars) n =
      if n = name then (vars.find? fun cur ↦ cur.name = name).map fun cur ↦ (f cur).value
      else lookup vars n := by
  induction vars with
  | nil => simp [modify, lookup]
  | cons cur vars ih =>
      rw [modify]
      by_cases hcur : cur.name = name
      · rw [if_pos hcur]
        by_cases hn : n = name
        · simp [lookup, hf, hcur, hn]
        · have hne : ¬name = n := fun h ↦ hn h.symm
          simp [lookup, hf, hcur, hn, hne]
      · rw [if_neg hcur]
        by_cases hn : cur.name = n
        · have hne : n ≠ name := fun h ↦ hcur (hn.trans h)
          simp [lookup, hn, hne]
        · rw [lookup, List.find?_cons_of_neg (by simpa using hn), ← lookup, ih,
            List.find?_cons_of_neg (by simpa using hcur), lookup, lookup,
            List.find?_cons_of_neg (by simpa using hn)]

theorem map_name_modify {f : Variable → Variable} (hf : ∀ v, (f v).name = v.name) :
    (modify name f vars).map Variable.name = vars.map Variable.name := by
  induction vars with
  | nil => rfl
  | cons cur vars ih =>
      rw [modify]
      split_ifs
      · rw [List.map_cons, List.map_cons, hf]
      · rw [List.map_cons, List.map_cons, ih]

theorem mem_modify {f : Variable → Variable} {v : Variable} (hv : v ∈ modify name f vars) :
    v ∈ vars ∨ ∃ cur ∈ vars, cur.name = name ∧ v = f cur := by
  induction vars with
  | nil => cases hv
  | cons cur vars ih =>
      rw [modify] at hv
      split_ifs at hv with hcur
      · obtain rfl | hv := List.mem_cons.mp hv
        · exact .inr ⟨cur, .head _, hcur, rfl⟩
        · exact .inl (.tail _ hv)
      · obtain rfl | hv := List.mem_cons.mp hv
        · exact .inl (.head _)
        · obtain hv | ⟨cur', hcur', hname, rfl⟩ := ih hv
          · exact .inl (.tail _ hv)
          · exact .inr ⟨cur', .tail _ hcur', hname, rfl⟩

/-! ## Calls -/

/-- A call that changes the variables; the environment may be another one each time. -/
inductive Call where
  | set (env : Str → Option Str) (s : Str) (flgExport : ℤ)
  | unset (name : Str)

/-- The list after a call. -/
def Call.run (vars : List Variable) : Call → Option (List Variable)
  | set env s flgExport => (setLocalVar env vars s flgExport).map Prod.snd
  | unset name => unsetLocalVar vars name

/-- The values of the names after a call. -/
def Call.spec (values : Str → Option Str) : Call → Str → Option Str
  | set env s _ =>
    if Accepted env s ∧ nameOf s ≠ hushVersion then
      Function.update values (nameOf s) (some (valueOf s))
    else values
  | unset name => if name = hushVersion then values else Function.update values name none

/-- One call after the other. -/
def run (vars : List Variable) : List Call → Option (List Variable)
  | [] => some vars
  | call :: calls => (call.run vars).bind fun vars ↦ run vars calls

theorem Ok.ne_nil (h : Ok vars) : vars ≠ [] := by
  obtain ⟨flgExport, rest, rfl, -⟩ := h.start
  exact List.cons_ne_nil _ _

theorem Ok.lookup_hushVersion (h : Ok vars) :
    lookup vars hushVersion = some (Lib.ascii "0.01") := by
  obtain ⟨flgExport, rest, rfl, -⟩ := h.start
  simp [lookup]

theorem Ok.flgReadOnly_iff (h : Ok vars) {v : Variable} (hv : v ∈ vars) :
    v.flgReadOnly = true ↔ v.name = hushVersion := by
  obtain ⟨flgExport, rest, rfl, hrest⟩ := h.start
  obtain rfl | hv := List.mem_cons.mp hv
  · simp
  · obtain ⟨hversion, -⟩ := List.nodup_cons.mp h.nodup
    constructor
    · intro hro
      rw [hrest v hv] at hro
      cases hro
    · intro hname
      exact absurd (List.mem_map.mpr ⟨v, hv, hname⟩) hversion

/-- What a change of a variable may do. -/
theorem Ok.modify (h : Ok vars) {f : Variable → Variable} (hname : ∀ v, (f v).name = v.name)
    (hro : ∀ v, (f v).flgReadOnly = v.flgReadOnly) (hvalue : ∀ v, v.value ≠ [] → (f v).value ≠ [])
    (hversion : name = hushVersion → ∀ v, (f v).value = v.value) : Ok (modify name f vars) := by
  refine ⟨?_, (map_name_modify hname).symm ▸ h.nodup, fun v hv ↦ ?_⟩
  · obtain ⟨flgExport, rest, rfl, hrest⟩ := h.start
    rw [Variable.modify]
    split_ifs with heq
    · have hf : f ⟨hushVersion, Lib.ascii "0.01", flgExport, true⟩ =
          ⟨hushVersion, Lib.ascii "0.01",
          (f ⟨hushVersion, Lib.ascii "0.01", flgExport, true⟩).flgExport,
            true⟩ := by
        ext1
        · exact hname _
        · exact hversion heq.symm _
        · rfl
        · exact hro _
      exact ⟨_, rest, by rw [← hf], hrest⟩
    · refine ⟨flgExport, _, rfl, fun v hv ↦ ?_⟩
      obtain hv | ⟨cur, hcur, -, rfl⟩ := mem_modify hv
      · exact hrest v hv
      · exact (hro cur).trans (hrest cur hcur)
  · obtain hv | ⟨cur, hcur, -, rfl⟩ := mem_modify hv
    · exact h.good v hv
    · obtain ⟨hgood, hne⟩ := h.good cur hcur
      exact ⟨(hname cur).symm ▸ hgood, hvalue cur hne⟩

/-- A new variable stands at the end. -/
theorem Ok.append (h : Ok vars) {v : Variable} (hnew : v.name ∉ vars.map Variable.name)
    (hro : v.flgReadOnly = false) (hgood : Good v.name) (hne : v.value ≠ []) :
    Ok (vars ++ [v]) := by
  refine ⟨?_, ?_, fun w hw ↦ ?_⟩
  · obtain ⟨flgExport, rest, rfl, hrest⟩ := h.start
    refine ⟨flgExport, rest ++ [v], rfl, fun w hw ↦ ?_⟩
    obtain hw | hw := List.mem_append.mp hw
    · exact hrest w hw
    · rwa [List.mem_singleton.mp hw]
  · rw [List.map_append, List.nodup_append]
    refine ⟨h.nodup, by simp, fun n hn n' hn' ↦ ?_⟩
    rw [List.map_singleton, List.mem_singleton] at hn'
    rintro rfl
    exact hnew (hn' ▸ hn)
  · obtain hw | hw := List.mem_append.mp hw
    · exact h.good w hw
    · rw [List.mem_singleton.mp hw]
      exact ⟨hgood, hne⟩

theorem lookup_append {v : Variable} (hnew : v.name ∉ vars.map Variable.name) (n : Str) :
    lookup (vars ++ [v]) n = Function.update (lookup vars) v.name (some v.value) n := by
  rw [lookup, List.find?_append]
  by_cases hn : n = v.name
  · have hne : ∀ w ∈ vars, w.name ≠ v.name := fun w hw h ↦ hnew (h ▸ List.mem_map_of_mem hw)
    have hnone : (vars.find? fun cur ↦ cur.name = v.name) = none :=
      List.find?_eq_none.mpr fun w hw ↦ by simpa using hne w hw
    rw [hn, hnone, Function.update_self, Option.none_or]
    simp
  · have hne : ¬v.name = n := fun h ↦ hn h.symm
    rw [Function.update_of_ne hn, List.find?_cons_of_neg (by simpa using hne), List.find?_nil,
      Option.or_none]
    rfl

theorem setLocalVar_of_not_accepted (hs : ¬Accepted env s) (flgExport : ℤ) :
    setLocalVar env vars s flgExport = some (-1, vars) := by
  rw [setLocalVar]
  by_cases halpha : s.head?.all (!isalpha ·) = true
  · exact if_pos halpha
  rw [if_neg halpha]
  by_cases henv : env s ≠ none
  · exact if_pos henv
  rw [if_neg henv]
  refine if_pos ?_
  by_contra heq
  obtain ⟨hmem, hne⟩ := not_or.mp heq
  exact hs ⟨by simpa using halpha, not_not.mp henv, not_not.mp hmem, hne⟩

/-- What `set_local_var` returns: -1 for a string that it does not take and for another version of
the shell. -/
theorem setLocalVar_spec (h : Ok vars) (env : Str → Option Str) (s : Str) (flgExport : ℤ) :
    ∃ r vars', setLocalVar env vars s flgExport = some (r, vars') ∧ Ok vars' ∧
      lookup vars' = Call.spec (lookup vars) (.set env s flgExport) ∧
      (r = -1 ↔ ¬Accepted env s ∨ nameOf s = hushVersion ∧ valueOf s ≠ Lib.ascii "0.01") := by
  by_cases hs : Accepted env s
  swap
  · refine ⟨-1, vars, setLocalVar_of_not_accepted hs flgExport, h, ?_, by simp [hs]⟩
    exact (if_neg fun hc ↦ hs hc.1).symm
  obtain ⟨halpha, henv, hmem, hne⟩ := id hs
  have hgood := good_nameOf halpha hmem
  rw [setLocalVar, if_neg (by simp [halpha]), if_neg (not_not.mpr henv),
    if_neg (by simp [hmem, hne])]
  cases hfind : vars.find? fun cur ↦ cur.name = nameOf s with
  | none =>
      have hnew : nameOf s ∉ vars.map Variable.name := by
        intro hin
        obtain ⟨v, hv, hname⟩ := List.mem_map.mp hin
        simpa [hname] using List.find?_eq_none.mp hfind v hv
      have hversion : nameOf s ≠ hushVersion := by
        intro heq
        have hlookup := h.lookup_hushVersion
        rw [← heq, lookup, hfind] at hlookup
        cases hlookup
      have hlook : lookup (vars ++ [⟨nameOf s, valueOf s, flgExport, false⟩]) =
          Call.spec (lookup vars) (.set env s flgExport) := by
        funext n
        rw [lookup_append hnew, Call.spec, if_pos ⟨hs, hversion⟩]
      refine ⟨0, _, ?_, h.append hnew rfl hgood hne, hlook, by simp [hs, hversion]⟩
      exact if_neg h.ne_nil
  | some cur =>
      have hcur : cur ∈ vars := List.mem_of_find?_eq_some hfind
      have hname : cur.name = nameOf s := by simpa using List.find?_some hfind
      have hlook : lookup vars (nameOf s) = some cur.value := by rw [lookup, hfind]; rfl
      have hvalue : nameOf s = hushVersion → cur.value = Lib.ascii "0.01" := by
        intro heq
        rw [heq, h.lookup_hushVersion] at hlook
        exact (Option.some.inj hlook).symm
      have hiff := h.flgReadOnly_iff hcur
      dsimp only
      split_ifs with hval hexp hro
      · -- only the mark for the export changes
        have hok : Ok (modify (nameOf s) (exported flgExport) vars) :=
          h.modify (fun _ ↦ rfl) (fun _ ↦ rfl) (fun _ h ↦ h) fun _ _ ↦ rfl
        refine ⟨0, _, rfl, hok, ?_, ?_⟩
        · funext n
          rw [lookup_modify (f := exported flgExport) (fun _ ↦ rfl), Call.spec]
          split_ifs with hn hc hc
          · rw [hn, Function.update_self, hfind, ← hval]
            rfl
          · rw [hn, hlook, hfind]
            rfl
          · rw [Function.update_of_ne hn]
          · rfl
        · simp only [hs, not_true, false_or]
          exact iff_of_false (by decide) fun hc ↦ hc.2 (hval ▸ hvalue hc.1)
      · refine ⟨1, vars, rfl, h, ?_, ?_⟩
        · rw [Call.spec]
          split_ifs
          · rw [← hval, ← hlook, Function.update_eq_self]
          · rfl
        · simp only [hs, not_true, false_or]
          exact iff_of_false (by decide) fun hc ↦ hc.2 (hval ▸ hvalue hc.1)
      · have hversion : nameOf s = hushVersion := hname ▸ hiff.mp hro
        refine ⟨-1, vars, rfl, h, ?_, ?_⟩
        · rw [Call.spec, if_neg fun hc ↦ hc.2 hversion]
        · exact iff_of_true rfl (.inr ⟨hversion, fun heq ↦ hval ((hvalue hversion).trans heq.symm)⟩)
      · have hversion : nameOf s ≠ hushVersion := fun heq ↦ hro (hiff.mpr (hname.trans heq))
        have hok : Ok (modify (nameOf s) (assigned (valueOf s) flgExport) vars) :=
          h.modify (fun _ ↦ rfl) (fun _ ↦ rfl) (fun _ _ ↦ hne) fun heq ↦ absurd heq hversion
        refine ⟨0, _, rfl, hok, ?_, by simp [hs, hversion]⟩
        funext n
        rw [Call.spec, if_pos ⟨hs, hversion⟩,
          lookup_modify (f := assigned (valueOf s) flgExport) (fun _ ↦ rfl)]
        split_ifs with hn
        · rw [hn, Function.update_self, hfind]
          rfl
        · rw [Function.update_of_ne hn]

/-! ### Taking a variable out -/

theorem unlink_cons {next : Variable} (hnodup : (vars.map Variable.name).Nodup)
    (hname : name ∈ vars.map Variable.name) :
    unlink name (next :: vars) = some (next :: vars.filter (·.name ≠ name)) := by
  induction vars generalizing next with
  | nil => cases hname
  | cons cur vars ih =>
      rw [List.map_cons, List.nodup_cons] at hnodup
      obtain ⟨hcur, hnodup⟩ := hnodup
      rw [unlink.eq_def]
      dsimp only
      split_ifs with heq
      · have hrest : ∀ v ∈ vars, v.name ≠ name := fun v hv h ↦
          hcur (heq ▸ h ▸ List.mem_map_of_mem hv)
        rw [List.filter_cons_of_neg (by simpa using heq),
          List.filter_eq_self.mpr (by simpa using hrest)]
      · have hin : name ∈ vars.map Variable.name := by
          obtain h | h := List.mem_cons.mp hname
          · exact absurd h.symm heq
          · exact h
        rw [ih hnodup hin, List.filter_cons_of_pos (by simpa using heq)]
        rfl

theorem lookup_filter (n : Str) :
    lookup (vars.filter (·.name ≠ name)) n = Function.update (lookup vars) name none n := by
  rw [lookup, List.find?_filter]
  by_cases hn : n = name
  · rw [hn, Function.update_self, Option.map_eq_none_iff, List.find?_eq_none]
    intro v hv
    simp
  · rw [Function.update_of_ne hn, lookup]
    congr 2
    funext v
    by_cases hv : v.name = n
    · simp [hv, hn]
    · simp [hv]

theorem unsetLocalVar_spec (h : Ok vars) (name : Str) :
    ∃ vars', unsetLocalVar vars name = some vars' ∧ Ok vars' ∧
      lookup vars' = Call.spec (lookup vars) (.unset name) := by
  rw [unsetLocalVar]
  cases hfind : vars.find? fun cur ↦ cur.name = name with
  | none =>
      have hlook : lookup vars name = none := by rw [lookup, hfind]; rfl
      refine ⟨vars, rfl, h, ?_⟩
      rw [Call.spec]
      split_ifs
      · rfl
      · rw [← hlook, Function.update_eq_self]
  | some cur =>
      have hcur : cur ∈ vars := List.mem_of_find?_eq_some hfind
      have hname : cur.name = name := by simpa using List.find?_some hfind
      have hiff := h.flgReadOnly_iff hcur
      dsimp only
      split_ifs with hro hhead
      · refine ⟨vars, rfl, h, ?_⟩
        rw [Call.spec, if_pos (hname ▸ hiff.mp hro)]
      · -- the head is read-only
        obtain ⟨flgExport, rest, rfl, -⟩ := h.start
        have hversion : hushVersion = name := Option.some.inj hhead
        exact absurd (hiff.mpr (hname.trans hversion.symm)) hro
      · have hversion : name ≠ hushVersion := fun heq ↦ hro (hiff.mpr (hname.trans heq))
        have hok := h
        obtain ⟨flgExport, rest, rfl, hrest⟩ := h.start
        have hin : name ∈ rest.map Variable.name := by
          obtain rfl | hcur := List.mem_cons.mp hcur
          · exact absurd hname.symm hversion
          · exact hname ▸ List.mem_map_of_mem hcur
        have hkept : (⟨hushVersion, Lib.ascii "0.01", flgExport, true⟩ :: rest :
          List Variable).filter
            (·.name ≠ name) = ⟨hushVersion, Lib.ascii "0.01", flgExport, true⟩ ::
              rest.filter (·.name ≠ name) :=
          List.filter_cons_of_pos (by simpa using hversion.symm)
        refine ⟨_, unlink_cons (List.nodup_cons.mp hok.nodup).2 hin,
          ⟨⟨flgExport, _, rfl, fun v hv ↦ ?_⟩, ?_, fun v hv ↦ ?_⟩, ?_⟩
        · exact hrest v (List.mem_of_mem_filter hv)
        · rw [← hkept]
          exact hok.nodup.sublist (List.filter_sublist.map _)
        · rw [← hkept] at hv
          exact hok.good v (List.mem_of_mem_filter hv)
        · funext n
          rw [← hkept, lookup_filter, Call.spec, if_neg hversion]

/-! ### Runs -/

theorem run_spec (h : Ok vars) (calls : List Call) :
    ∃ vars', run vars calls = some vars' ∧ Ok vars' ∧
    lookup vars' = calls.foldl Call.spec (lookup vars) := by
  induction calls generalizing vars with
  | nil => exact ⟨vars, rfl, h, rfl⟩
  | cons call calls ih =>
      have hcall : ∃ vars₁, call.run vars = some vars₁ ∧ Ok vars₁ ∧
          lookup vars₁ = call.spec (lookup vars) := by
        cases call with
        | set env s flgExport =>
            obtain ⟨r, vars₁, hset, hok, hlook, -⟩ := setLocalVar_spec h env s flgExport
            exact ⟨vars₁, congrArg (Option.map Prod.snd) hset, hok, hlook⟩
        | unset name => exact unsetLocalVar_spec h name
      obtain ⟨vars₁, hrun₁, hok₁, hlook₁⟩ := hcall
      obtain ⟨vars', hrun, hok, hlook⟩ := ih hok₁
      refine ⟨vars', ?_, hok, ?_⟩
      · rw [run, hrun₁, Option.bind_some, hrun]
      · rw [hlook, hlook₁, List.foldl_cons]

/-- Whatever is set and unset, no walk leaves the list, each name is there once, and the values are
those of the calls; `HUSH_VERSION` stays what it was. -/
theorem uBootHushStart_run (calls : List Call) :
    ∃ vars, run (uBootHushStart []) calls = some vars ∧ (vars.map Variable.name).Nodup ∧
      getLocalVar vars 0 hushVersion = some (Lib.ascii "0.01") ∧
      ∀ lastReturnCode name, name.head? ≠ some 36 → getLocalVar vars lastReturnCode name =
        calls.foldl Call.spec (Function.update (fun _ ↦ none) hushVersion (some (Lib.ascii "0.01")))
        name := by
  obtain ⟨vars, hrun, hok, hlook⟩ := run_spec uBootHushStart_ok calls
  have hstart : lookup (uBootHushStart []) =
      Function.update (fun _ ↦ none) hushVersion (some (Lib.ascii "0.01")) := by
    funext n
    by_cases hn : n = hushVersion
    · rw [hn, Function.update_self]
      exact uBootHushStart_ok.lookup_hushVersion
    · rw [Function.update_of_ne hn, lookup, uBootHushStart,
        List.find?_cons_of_neg (by simpa using fun h ↦ hn h.symm)]
      rfl
  refine ⟨vars, hrun, hok.nodup, hok.lookup_hushVersion, fun lastReturnCode name hname ↦ ?_⟩
  rw [getLocalVar, if_neg hname, hlook, hstart]

end Variable

/-! ## A machine with these variables -/

open Variable

variable {E : Type}

/-- An environment, and local variables that are in order. -/
structure Locals (E : Type) where
  env : E
  vars : {vars : List Variable // Ok vars}

namespace Locals

variable {b : Locals E} {ifs : E → Str} {envGet : E → Str → Option Str}
  {cmdProcess : List Str → Locals E → ℤ × Locals E}

theorem ok_of_setLocalVar {env : Str → Option Str} {vars vars' : List Variable} {s : Str}
    {flgExport r : ℤ} (h : Ok vars) (hset : setLocalVar env vars s flgExport = some (r, vars')) :
    Ok vars' := by
  obtain ⟨r', vars₁, hset', hok, -⟩ := setLocalVar_spec h env s flgExport
  rw [hset] at hset'
  obtain ⟨-, rfl⟩ := Prod.mk.inj (Option.some.inj hset')
  exact hok

/-- `set_local_var` as the shell calls it. -/
def set (envGet : E → Str → Option Str) (s : Str) (b : Locals E) : Locals E :=
  match h : setLocalVar (envGet b.env) b.vars.1 s 0 with
  | none => b
  | some (_, vars) => { b with vars := ⟨vars, ok_of_setLocalVar b.vars.2 h⟩ }

/-- The boot loader as the shell sees it, with the variables of the shell. -/
def machine (ifs : E → Str) (envGet : E → Str → Option Str)
    (cmdProcess : List Str → Locals E → ℤ × Locals E) : Machine (Locals E) where
  ifs b := ifs b.env
  envGet b := envGet b.env
  getLocalVar b := getLocalVar b.vars.1
  setLocalVar := set envGet
  cmdProcess := cmdProcess

theorem env_set (b : Locals E) (s : Str) : (b.set envGet s).env = b.env := by
  rw [set]
  split <;> rfl

theorem lookup_set (b : Locals E) (s : Str) :
    lookup (b.set envGet s).vars.1 = Call.spec (lookup b.vars.1) (.set (envGet b.env) s 0) := by
  obtain ⟨r, vars, hset, -, hlook, -⟩ := setLocalVar_spec b.vars.2 (envGet b.env) s 0
  rw [set]
  split
  · rename_i hnone
    rw [hset] at hnone
    cases hnone
  · rename_i hsome
    rw [hset] at hsome
    obtain ⟨-, rfl⟩ := Prod.mk.inj (Option.some.inj hsome)
    exact hlook

/-- `name=value` in two parts. -/
theorem nameOf_append {name value : Str} (hname : 61 ∉ name) :
    nameOf (name ++ 61 :: value) = name ∧ valueOf (name ++ 61 :: value) = value := by
  have hne : ∀ c ∈ name, c ≠ 61 := fun c hc h ↦ hname (h ▸ hc)
  constructor
  · rw [nameOf, List.takeWhile_append_of_pos (by simpa using hne)]
    simp
  · rw [valueOf, List.dropWhile_append_of_pos (by simpa using hne)]
    simp

/-- The names of the environment have no `=`. -/
def Global (envGet : E → Str → Option Str) (env : E) : Prop := ∀ s, 61 ∈ s → envGet env s = none

/-- A variable that is set reads as its value unless there is a global one with the same name: that
one hides it, and `set_local_var` does not see it. -/
theorem value_set {name value : Str} (henv : Global envGet b.env) (hname : Good name)
    (hversion : name ≠ hushVersion) (hvalue : value ≠ []) (lastReturnCode : ℕ) (n : Str) :
    (machine ifs envGet cmdProcess).value (b.set envGet (name ++ 61 :: value)) lastReturnCode n =
      if n = name then (envGet b.env name).or (some value)
      else (machine ifs envGet cmdProcess).value b lastReturnCode n := by
  obtain ⟨hn, hv⟩ := @nameOf_append name value hname.2
  have hhead : (name ++ 61 :: value).head?.all (!isalpha ·) = false := by
    cases name with
    | nil => exact absurd hname.1 (by decide)
    | cons c name => exact hname.1
  have haccepted : Accepted (envGet b.env) (name ++ 61 :: value) :=
    ⟨hhead, henv _ (by simp), by simp, hv.symm ▸ hvalue⟩
  have hlook : lookup (b.set envGet (name ++ 61 :: value)).vars.1 =
      Call.spec (lookup b.vars.1) (.set (envGet b.env) (name ++ 61 :: value) 0) := lookup_set b _
  rw [Call.spec, hn, hv, if_pos ⟨haccepted, hversion⟩] at hlook
  change (envGet (b.set envGet _).env n <|> getLocalVar (b.set envGet _).vars.1 lastReturnCode n) =
    _
  rw [env_set, getLocalVar, hlook]
  split_ifs with hdollar heq heq
  · rw [heq] at hdollar
    cases name with
    | nil => cases hdollar
    | cons c name =>
        obtain rfl := Option.some.inj hdollar
        have hhead := hname.1
        rw [List.head?_cons] at hhead
        exact absurd hhead (by decide)
  · change _ = (envGet b.env n <|> getLocalVar b.vars.1 lastReturnCode n)
    rw [getLocalVar, if_pos hdollar]
  · rw [heq, Function.update_self]
    cases envGet b.env name <;> rfl
  · change _ = (envGet b.env n <|> getLocalVar b.vars.1 lastReturnCode n)
    rw [getLocalVar, if_neg hdollar, Function.update_of_ne heq]

theorem isAssignment_append {name value : Str} {c : UInt8} (hc : isalpha c = true)
    (hname : ∀ d ∈ name, isname d = true) : isAssignment (c :: name ++ 61 :: value) = true := by
  rw [List.cons_append, isAssignment, hc, List.dropWhile_append_of_pos hname]
  rfl

/-- The text `name=value`, given to `run_command`: it succeeds, and afterwards the variable has the
value, or the one of the global variable that hides it, and all others have theirs. -/
theorem runCommand_assign {c : UInt8} {name value : Str} {l : ℕ} (hc : isalpha c = true)
    (hname : ∀ d ∈ name, isname d = true) (hversion : c :: name ≠ hushVersion) (hvalue : value ≠ [])
    (hno : NoVars (c :: name ++ 61 :: value)) (henv : Global envGet b.env)
    (hifs : Common (ifs b.env) runFlags) (hnl : 10 ∈ ifs b.env)
    (hwf : (Cmd.simple (c :: name ++ 61 :: value) []).Wf (ifs b.env) runFlags) :
    ∃ b' : Locals E, b'.env = b.env ∧
      (∃ N, ∀ n k, N ≤ n → N ≤ k → runCommand (machine ifs envGet cmdProcess) n k
        (Cmd.simple (c :: name ++ 61 :: value) []).text ⟨l, some b⟩ =
          some (.inside 0 ⟨0, some b'⟩)) ∧
      ∀ lastReturnCode n, (machine ifs envGet cmdProcess).value b' lastReturnCode n =
        if n = c :: name then (envGet b.env (c :: name)).or (some value)
        else (machine ifs envGet cmdProcess).value b lastReturnCode n := by
  have hgood : Good (c :: name) := by
    refine ⟨by simp [hc], fun hmem ↦ ?_⟩
    obtain rfl | hmem := List.mem_cons.mp hmem
    · exact absurd hc (by decide)
    · exact absurd (hname 61 hmem) (by decide)
  have hcommand : (machine ifs envGet cmdProcess).command [c :: name ++ 61 :: value] b =
      (0, b.set envGet (c :: name ++ 61 :: value)) := by
    rw [Machine.command, List.takeWhile_cons_of_pos (isAssignment_append hc hname)]
    exact if_pos ⟨List.cons_ne_nil _ _, rfl⟩
  have hexec : Exec (machine ifs envGet cmdProcess).prims (.simple (c :: name ++ 61 :: value) [])
      (0, ⟨l, some b⟩) (ran (0, ⟨l, some (b.set envGet (c :: name ++ 61 :: value))⟩)) := by
    refine .simple ⟨List.forall_mem_singleton.2 hno, b, rfl, ?_⟩
    rw [hcommand]
  obtain ⟨N, hrun⟩ := runCommand_exec rfl hifs hnl hwf hexec
  exact ⟨_, env_set b _, ⟨N, hrun⟩, value_set henv hgood hversion hvalue⟩

/-- No variables but `HUSH_VERSION`, in an environment without any. -/
def fresh : Locals Unit := ⟨(), uBootHushStart [], uBootHushStart_ok⟩

theorem plain_assign_x : ∀ s ∈ ([[120, 61, 49]] : List Str), Plain usualIfs runFlags s := by
  simp [Plain, mapOf, usualIfs, runFlags, substedVarSymbol]

/-- `x=1`. -/
theorem runCommand_assign_x : ∃ b' : Locals Unit, b'.env = () ∧
    (∃ N, ∀ n k, N ≤ n → N ≤ k →
      runCommand (machine (fun _ ↦ usualIfs) (fun _ _ ↦ none) fun _ b ↦ (0, b)) n k
        (Cmd.simple [120, 61, 49] []).text ⟨0, some fresh⟩ = some (.inside 0 ⟨0, some b'⟩)) ∧
    ∀ lastReturnCode n, (machine (fun _ ↦ usualIfs) (fun _ _ ↦ none) fun _ b ↦ (0, b)).value b'
      lastReturnCode n = if n = [120] then some [49]
        else (machine (fun _ ↦ usualIfs) (fun _ _ ↦ none) fun _ b ↦ (0, b)).value fresh
          lastReturnCode n :=
  @runCommand_assign Unit fresh (fun _ ↦ usualIfs) (fun _ _ ↦ none) (fun _ b ↦ (0, b)) 120 [] [49] 0
    (by decide) (by simp) (by decide) (by decide) ⟨by decide, by decide⟩
      (fun _ _ ↦ rfl) common_usualIfs
    (by decide) ⟨by decide, plain_assign_x, fun _ hs ↦ Option.some.inj hs ▸ by decide⟩

end Locals

end MiniPi.Hush
