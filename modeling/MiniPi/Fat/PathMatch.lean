import Mathlib
import MiniPi.Fat.Create
import MiniPi.Fat.Termination

/-!
# Path lookups follow the names

What a path means, and that `fat_itr_resolve` follows it: every component leads to the
first entry with that name, in upper or lower case, as its long or short name.
-/

open MiniPi.Lib

namespace MiniPi.Fat

/-! ## Components -/

/-- The components of a path, without the empty ones. -/
def components (path : Str) : List Str := (path.splitOnP isDirDelim).filter (· ≠ [])

/-- The path ends with a separator. -/
def endsInDelim (path : Str) : Bool := path.getLast?.any isDirDelim

section Components

variable {path comp next : Str}

theorem components_cons_delim {c : UInt8} (hc : isDirDelim c = true) :
    components (c :: path) = components path := by
  rw [components, List.splitOnP_cons_eq_if_modifyHead, if_pos hc, List.filter_cons_of_neg (by simp)]
  rfl

theorem components_chomp (path : Str) : components (chomp path) = components path := by
  induction path with
  | nil => rfl
  | cons c path ih =>
      rw [chomp]
      by_cases hc : isDirDelim c = true
      · rw [List.dropWhile_cons_of_pos hc, components_cons_delim hc]
        exact ih
      · rw [List.dropWhile_cons_of_neg hc]

theorem component_append (path : Str) : component path ++ afterComponent path = path :=
  List.takeWhile_append_dropWhile

theorem not_isDirDelim_of_mem {c : UInt8} (h : c ∈ component path) : isDirDelim c = false := by
  simpa using List.mem_takeWhile_imp h

/-- Behind a component there is nothing, or a separator. -/
theorem afterComponent_cases (path : Str) :
    afterComponent path = [] ∨ ∃ c rest, afterComponent path = c :: rest ∧ isDirDelim c = true := by
  rw [afterComponent]
  cases hafter : path.dropWhile fun c ↦ !isDirDelim c with
  | nil => exact .inl rfl
  | cons c rest =>
      refine .inr ⟨c, rest, rfl, ?_⟩
      have hne : (path.dropWhile fun c ↦ !isDirDelim c) ≠ [] := by simp [hafter]
      have hhead := List.head_dropWhile_not (fun c ↦ !isDirDelim c) hne
      simpa only [hafter, List.head_cons, Bool.not_eq_false'] using hhead

theorem component_ne_nil (h : chomp path ≠ []) : component (chomp path) ≠ [] := by
  intro hnil
  have happ := component_append (chomp path)
  rw [hnil, List.nil_append] at happ
  rcases afterComponent_cases (chomp path) with hafter | ⟨c, rest, hafter, hc⟩
  · exact h (happ ▸ hafter)
  · have hhead : isDirDelim ((chomp path).head h) = false := List.head_dropWhile_not isDirDelim h
    have hcons : chomp path = c :: rest := happ.symm.trans hafter
    simp only [hcons, List.head_cons, hc] at hhead
    cases hhead

theorem components_of_chomp_eq_nil (h : chomp path = []) : components path = [] := by
  rw [← components_chomp, h]
  rfl

theorem components_of_chomp_ne_nil (h : chomp path ≠ []) : components path =
    component (chomp path) :: components (afterComponent (chomp path)) := by
  have hcomp : ∀ c ∈ component (chomp path), isDirDelim c = false :=
    fun c hc ↦ not_isDirDelim_of_mem hc
  have hne := component_ne_nil h
  rw [← components_chomp path]
  conv_lhs => rw [← component_append (chomp path)]
  rcases afterComponent_cases (chomp path) with hafter | ⟨c, rest, hafter, hc⟩
  · rw [hafter, List.append_nil, components, List.splitOnP_eq_singleton hcomp,
      List.filter_cons_of_pos (by simpa using hne)]
    rfl
  · rw [hafter, components, List.splitOnP_append_cons_of_forall_mem hcomp c hc,
      List.filter_cons_of_pos (by simpa using hne), components_cons_delim hc]
    rfl

theorem endsInDelim_chomp_append {pre : Str} (h : path ≠ []) :
    endsInDelim (pre ++ path) = endsInDelim path := by
  rw [endsInDelim, List.getLast?_append_of_ne_nil _ h]
  rfl

/-- A path ends with its last component exactly when nothing follows that. -/
theorem afterComponent_eq_nil_iff (h : chomp path ≠ [])
    (hlast : components (afterComponent (chomp path)) = []) :
    afterComponent (chomp path) = [] ↔ endsInDelim path = false := by
  obtain ⟨pre, hpre⟩ : ∃ pre, path = pre ++ chomp path :=
    ⟨path.takeWhile isDirDelim, List.takeWhile_append_dropWhile.symm⟩
  have happ := component_append (chomp path)
  have hends : endsInDelim path = endsInDelim (chomp path) := by
    conv_lhs => rw [hpre]
    exact endsInDelim_chomp_append h
  constructor
  · intro hnil
    rw [hnil, List.append_nil] at happ
    rw [hends, endsInDelim, ← happ, List.getLast?_eq_some_getLast (component_ne_nil h)]
    simpa using not_isDirDelim_of_mem (List.getLast_mem (component_ne_nil h))
  · intro hfalse
    by_contra hne
    have hchomp : chomp (afterComponent (chomp path)) = [] := by
      by_contra hc
      rw [components_of_chomp_ne_nil hc] at hlast
      cases hlast
    have hall : ∀ c ∈ afterComponent (chomp path), isDirDelim c = true :=
      List.dropWhile_eq_nil_iff.mp hchomp
    rw [hends, ← happ, endsInDelim_chomp_append hne, endsInDelim,
      List.getLast?_eq_some_getLast hne] at hfalse
    simp only [Option.any_some, hall _ (List.getLast_mem hne)] at hfalse
    cases hfalse

theorem endsInDelim_afterComponent (hne : afterComponent (chomp path) ≠ []) :
    endsInDelim (afterComponent (chomp path)) = endsInDelim path := by
  have happ : path = path.takeWhile isDirDelim ++ component (chomp path) ++
      afterComponent (chomp path) := by
    rw [List.append_assoc, component_append]
    exact List.takeWhile_append_dropWhile.symm
  conv_rhs => rw [happ]
  exact (endsInDelim_chomp_append hne).symm

end Components

/-! ## The comparison -/

theorem strncasecmp_iff {s₁ s₂ : Str} (n : ℕ) (h₁ : (0 : UInt8) ∉ s₁) (h₂ : (0 : UInt8) ∉ s₂) :
    strncasecmp n s₁ s₂ = true ↔ downcase (s₁.take n) = downcase (s₂.take n) := by
  induction n generalizing s₁ s₂ with
  | zero => simp [strncasecmp]
  | succ n ih =>
      rcases s₁ with _ | ⟨a, s₁⟩
      · rcases s₂ with _ | ⟨b, s₂⟩
        · simp [strncasecmp]
        · have hb : (0 : UInt8) ≠ b := fun h ↦ h₂ (h ▸ List.mem_cons_self)
          simp [strncasecmp, downcase, hb]
      · have ha : a ≠ 0 := fun h ↦ h₁ (h ▸ List.mem_cons_self)
        rcases s₂ with _ | ⟨b, s₂⟩
        · simp [strncasecmp, downcase, ha]
        · have hb : b ≠ 0 := fun h ↦ h₂ (h ▸ List.mem_cons_self)
          have hrec := ih (fun h ↦ h₁ (List.mem_cons_of_mem _ h))
            (fun h ↦ h₂ (List.mem_cons_of_mem _ h))
          rw [strncasecmp]
          simp only [List.headD_cons, ha, hb, or_self, if_false, List.tail_cons, Bool.and_eq_true,
            hrec, List.take_succ_cons, downcase, List.map_cons, List.cons.injEq]
          exact and_congr_left' decide_eq_true_iff

theorem isDirDelim_of_tolower {a c : UInt8} (h : tolower a = tolower c)
    (hc : isDirDelim c = true) : isDirDelim a = true := by
  revert a
  have hc' : c = 47 ∨ c = 92 := by simpa [isDirDelim] using hc
  rcases hc' with rfl | rfl
  · decide +kernel
  · decide +kernel

/-- A separator in one of two strings that differ in case only is in the other one. -/
theorem exists_delim_of_downcase {s t : Str} (h : downcase s = downcase t)
    (hs : ∃ c ∈ s, isDirDelim c = true) : ∃ c ∈ t, isDirDelim c = true := by
  obtain ⟨c, hcs, hc⟩ := hs
  have hmem : tolower c ∈ downcase t := h ▸ List.mem_map_of_mem hcs
  obtain ⟨a, ha, heq⟩ := List.mem_map.mp hmem
  exact ⟨a, ha, isDirDelim_of_tolower heq hc⟩

theorem length_eq_of_downcase {s t : Str} (h : downcase s = downcase t) : s.length = t.length := by
  simpa [downcase] using congrArg List.length h

/-- The names of an entry are strings without separators. -/
def Names.Proper (names : Names) : Prop :=
  (∀ c ∈ names.name, c ≠ 0 ∧ isDirDelim c = false) ∧ ∀ c ∈ names.short, c ≠ 0 ∧ isDirDelim c = false

/-- The length that is compared does not get in the way of the short name: a component that
is the short name stands last or is not shorter than the long name, and none that is
not shorter than the long name is the beginning of the short name. -/
def Names.Fits (path : Str) (names : Names) : Prop :=
  names.long.isSome = true → downcase (component path) ≠ downcase names.name →
    (downcase (component path) = downcase names.short →
      afterComponent path = [] ∨ names.name.length ≤ (component path).length) ∧
    (names.name.length ≤ (component path).length → (component path).length < names.short.length →
      downcase (component path) ≠ downcase (names.short.take (component path).length))

section Compare

variable {path : Str} {names : Names}

theorem take_length_component (path : Str) :
    path.take (component path).length = component path :=
  calc path.take (component path).length
      = (component path ++ afterComponent path).take (component path).length := by
        rw [component_append]
    _ = component path := List.take_left

/-- What is compared beyond the component begins with a separator. -/
theorem exists_delim_take {n : ℕ} (hn : (component path).length < n)
    (hafter : afterComponent path ≠ []) : ∃ c ∈ path.take n, isDirDelim c = true := by
  obtain hnil | ⟨c, rest, hcons, hc⟩ := afterComponent_cases path
  · exact absurd hnil hafter
  · refine ⟨c, ?_, hc⟩
    obtain ⟨k, hk⟩ := Nat.exists_eq_add_of_lt hn
    have hpath : path = component path ++ c :: rest := by rw [← hcons, component_append]
    rw [hpath, hk, Nat.add_assoc, List.take_length_add_append, List.take_succ_cons]
    exact List.mem_append_right _ List.mem_cons_self

theorem take_of_afterComponent_eq_nil {n : ℕ} (hn : (component path).length ≤ n)
    (hafter : afterComponent path = []) : path.take n = component path := by
  have hpath : path = component path := by
    conv_lhs => rw [← component_append path, hafter, List.append_nil]
  rw [List.take_of_length_le (by rw [hpath]; exact hn), ← hpath]

theorem downcase_take_iff {name : Str} {n : ℕ} (hname : ∀ c ∈ name, isDirDelim c = false)
    (hn : n = max name.length (component path).length) :
    downcase (path.take n) = downcase (name.take n) ↔
      downcase (component path) = downcase name := by
  have hle : name.length ≤ n := hn ▸ le_max_left _ _
  rw [List.take_of_length_le hle]
  rcases le_or_gt name.length (component path).length with hlen | hlen
  · rw [hn, max_eq_right hlen, take_length_component]
  · rw [max_eq_left hlen.le] at hn
    have hcomp : downcase (component path) ≠ downcase name :=
      fun h ↦ absurd (length_eq_of_downcase h) hlen.ne
    refine iff_of_false (fun h ↦ ?_) hcomp
    by_cases hafter : afterComponent path = []
    · rw [take_of_afterComponent_eq_nil (by omega) hafter] at h
      exact hcomp h
    · obtain ⟨c, hc, hdelim⟩ :=
        exists_delim_of_downcase h (exists_delim_take (by omega) hafter)
      rw [hname c hc] at hdelim
      cases hdelim

/-- The comparison of the short name, where its length does not get in the way. -/
theorem downcase_take_short_iff {n : ℕ} (hproper : names.Proper) (hfits : names.Fits path)
    (hlong : names.long.isSome = true) (hne : downcase (component path) ≠ downcase names.name)
    (hn : n = max names.name.length (component path).length) :
    downcase (path.take n) = downcase (names.short.take n) ↔
      downcase (component path) = downcase names.short := by
  obtain ⟨hshort, hbegin⟩ := hfits hlong hne
  rcases le_or_gt names.name.length (component path).length with hlen | hlen
  · rw [hn, max_eq_right hlen, take_length_component]
    rcases le_or_gt names.short.length (component path).length with hle | hlt
    · rw [List.take_of_length_le hle]
    · exact iff_of_false (hbegin hlen hlt) fun h ↦ absurd (length_eq_of_downcase h) hlt.ne
  · rw [max_eq_left hlen.le] at hn
    by_cases hafter : afterComponent path = []
    · rw [take_of_afterComponent_eq_nil (by omega) hafter]
      constructor
      · intro h
        have hlength := length_eq_of_downcase h
        rw [List.length_take] at hlength
        rwa [List.take_of_length_le (by omega)] at h
      · intro h
        have hlength := length_eq_of_downcase h
        rwa [List.take_of_length_le (by omega)]
    · refine iff_of_false (fun h ↦ ?_) fun h ↦ ?_
      · obtain ⟨c, hc, hdelim⟩ :=
          exists_delim_of_downcase h (exists_delim_take (by omega) hafter)
        rw [(hproper.2 c (List.mem_of_mem_take hc)).2] at hdelim
        cases hdelim
      · exact (hshort h).elim hafter hlen.not_ge

theorem Names.matchesPath_iff (h0 : (0 : UInt8) ∉ path) (hproper : names.Proper)
    (hfits : names.Fits path) :
    names.matchesPath path (component path).length = names.matches (component path) := by
  have hname0 : (0 : UInt8) ∉ names.name := fun h ↦ (hproper.1 0 h).1 rfl
  have hshort0 : (0 : UInt8) ∉ names.short := fun h ↦ (hproper.2 0 h).1 rfl
  rw [Bool.eq_iff_iff, Names.matchesPath, Names.matches]
  simp only [Bool.or_eq_true, Bool.and_eq_true, beq_iff_eq, strncasecmp_iff _ h0 hname0,
    strncasecmp_iff _ h0 hshort0]
  rw [downcase_take_iff (fun c hc ↦ (hproper.1 c hc).2) rfl]
  by_cases hne : downcase (component path) = downcase names.name
  · simp only [hne, true_or]
  · by_cases hlong : names.long.isSome = true
    · rw [downcase_take_short_iff hproper hfits hlong hne rfl]
    · simp [hne, hlong]

end Compare

/-! ## What a path means -/

/-- The two points in which the meaning of a path can be chosen. -/
structure Rules where
  /-- `.` and `..` stand for the root in the root. -/
  dots : Bool
  /-- The path asks for a directory. -/
  asksDir : Bool

namespace Image

variable (im : Image)

/-- The entries of a directory, up to its end. -/
def Lists (itr : DirItr) (es : List (Dent × Names)) : Prop :=
  ∃ fuel, im.entries fuel itr = some es

/-- The components lead from a directory to a place of the tree: each of them to the first
entry that has it as its long or short name. -/
inductive Leads (rules : Rules) (type : FileType) : DirItr → List Str → Resolved → Prop
  | here {itr : DirItr} (ht : type.dir = true) : Leads rules type itr [] (.dir itr)
  | dots {itr : DirItr} {comp : Str} {comps : List Str} {r : Resolved} (hr : rules.dots = true)
      (hroot : itr.isRoot = true) (hdots : isDots comp = true)
      (h : Leads rules type im.fatItrRoot comps r) : Leads rules type itr (comp :: comps) r
  | dir {itr : DirItr} {comp : Str} {comps : List Str} {r : Resolved} {es : List (Dent × Names)}
      {d : Dent} {names : Names}
      (hr : ¬(rules.dots = true ∧ itr.isRoot = true ∧ isDots comp = true)) (hes : im.Lists itr es)
      (hd : es.find? (fun e ↦ e.2.matches comp) = some (d, names)) (hdir : d.isDir = true)
      (h : Leads rules type (im.fatItrChild d) comps r) : Leads rules type itr (comp :: comps) r
  | file {itr : DirItr} {comp : Str} {es : List (Dent × Names)} {d : Dent} {names : Names}
      (hr : ¬(rules.dots = true ∧ itr.isRoot = true ∧ isDots comp = true)) (hes : im.Lists itr es)
      (hd : es.find? (fun e ↦ e.2.matches comp) = some (d, names)) (hfile : d.isDir = false)
      (ht : type.file = true) (hasks : rules.asksDir = false) :
      Leads rules type itr [comp] (.file d names)

/-- The directories along a path are well-formed: they have an end, and their names are
strings without separators to which the comparison does justice. -/
inductive Suits : Str → DirItr → Prop
  | nil {path : Str} {itr : DirItr} (h : chomp path = []) : Suits path itr
  | dots {path : Str} {itr : DirItr} (hne : chomp path ≠ [])
      (hd : itr.isRoot = true ∧ isDots (component (chomp path)) = true)
      (hrest : Suits (afterComponent (chomp path)) im.fatItrRoot) : Suits path itr
  | search {path : Str} {itr : DirItr} {es : List (Dent × Names)} (hs : Searches path itr)
      (hes : im.Lists itr es) (hnames : ∀ e ∈ es, e.2.Proper ∧ e.2.Fits (chomp path))
      (hrest : ∀ d names, es.find? (fun e ↦ e.2.matches (component (chomp path))) =
        some (d, names) →
        d.isDir = true → Suits (afterComponent (chomp path)) (im.fatItrChild d)) :
      Suits path itr

section Follows

variable {im} {type : FileType} {rules : Rules} {itr itr' : DirItr} {path path' : Str}
  {es es' : List (Dent × Names)} {r : Resolved}

theorem Lists.unique (h : im.Lists itr es) (h' : im.Lists itr es') : es = es' := by
  obtain ⟨fuel, hf⟩ := h
  obtain ⟨fuel', hf'⟩ := h'
  have h₁ := entries_mono hf (Nat.le_max_left fuel fuel')
  rw [entries_mono hf' (Nat.le_max_right fuel fuel')] at h₁
  exact (Option.some.inj h₁).symm

/-- The search of a directory with an end finds the first entry that matches. -/
theorem findMatch_of_entries {fuel : ℕ} (h : im.entries fuel itr = some es) :
    im.findMatch path fuel itr =
      some (es.find? fun e ↦ e.2.matchesPath path (component path).length) := by
  induction fuel generalizing itr es with
  | zero => cases h
  | succ fuel ih =>
      rw [entries] at h
      rw [findMatch]
      split at h
      · cases h
      · rename_i hn
        cases h
        rw [hn]
        rfl
      · rename_i hn
        obtain ⟨es', hes, rfl⟩ := Option.map_eq_some_iff.mp h
        rw [hn]
        dsimp only
        rw [List.find?_cons]
        split_ifs with hm
        · simp only [hm]
        · simp only [hm]
          exact ih hes

/-- In a well-formed directory one call finds the entry whose name is the component. -/
theorem resolveLevel_of_search (type : FileType) (h0 : (0 : UInt8) ∉ chomp path)
    (hs : Searches path itr) (hes : im.Lists itr es)
    (hnames : ∀ e ∈ es, e.2.Proper ∧ e.2.Fits (chomp path)) :
    ∃ fuel, im.resolveLevel type fuel path itr = some (im.levelAt type (afterComponent (chomp path))
      (es.find? fun e ↦ e.2.matches (component (chomp path)))) := by
  obtain ⟨fuel, hfuel⟩ := hes
  have hfind : (es.find? fun e ↦ e.2.matchesPath (chomp path) (component (chomp path)).length) =
      es.find? fun e ↦ e.2.matches (component (chomp path)) := by
    refine List.find?_congr fun e he ↦ ?_
    obtain ⟨hproper, hfits⟩ := hnames e he
    exact Names.matchesPath_iff h0 hproper hfits
  refine ⟨fuel, ?_⟩
  rw [resolveLevel]
  dsimp only
  rw [if_neg hs.1, if_neg hs.2, findMatch_of_entries hfuel, Option.map_some, hfind]

/-- A lookup succeeds. -/
def Succeeds (im : Image) (type : FileType) (path : Str) (itr : DirItr) (r : Resolved) : Prop :=
  ∃ fuel, im.fatItrResolve type fuel path itr = some (.ok r)

theorem succeeds_of_ends {fuel : ℕ} {x : Except ResolveError Resolved}
    (h : im.resolveLevel type fuel path itr = some (.ends x)) :
    im.Succeeds type path itr r ↔ x = .ok r := by
  constructor
  · rintro ⟨n, hn⟩
    have h₁ := fatItrResolve_mono hn (Nat.le_max_left n fuel |>.trans (Nat.le_succ _))
    rw [fatItrResolve, resolveLevel_mono h (Nat.le_max_right n fuel |>.trans (Nat.le_succ _))] at h₁
    exact Option.some.inj h₁
  · rintro rfl
    exact ⟨fuel + 1, by rw [fatItrResolve, resolveLevel_mono h (Nat.le_succ _)]⟩

theorem succeeds_of_goesOn {fuel : ℕ}
    (h : im.resolveLevel type fuel path itr = some (.goesOn path' itr')) :
    im.Succeeds type path itr r ↔ im.Succeeds type path' itr' r := by
  constructor
  · rintro ⟨n, hn⟩
    refine ⟨max n fuel, ?_⟩
    have h₁ := fatItrResolve_mono hn (Nat.le_max_left n fuel |>.trans (Nat.le_succ _))
    rwa [fatItrResolve,
      resolveLevel_mono h (Nat.le_max_right n fuel |>.trans (Nat.le_succ _))] at h₁
  · rintro ⟨n, hn⟩
    refine ⟨max n fuel + 1, ?_⟩
    rw [fatItrResolve, resolveLevel_mono h (Nat.le_max_right n fuel |>.trans (Nat.le_succ _))]
    exact fatItrResolve_mono hn (Nat.le_max_left _ _)

theorem leads_nil_iff : im.Leads rules type itr [] r ↔ type.dir = true ∧ r = .dir itr := by
  constructor
  · rintro ⟨ht⟩
    exact ⟨ht, rfl⟩
  · rintro ⟨ht, rfl⟩
    exact .here ht

theorem atDir_eq_ok_iff : type.atDir itr = .ok r ↔ type.dir = true ∧ r = .dir itr := by
  rw [FileType.atDir]
  split_ifs with ht
  · simp [ht, eq_comm]
  · simp [ht]

/-- Behind a component the path still asks for a directory, or there is nothing left. -/
theorem leads_afterComponent_iff {dots : Bool} :
    im.Leads ⟨dots, endsInDelim (afterComponent (chomp path))⟩ type itr
        (components (afterComponent (chomp path))) r ↔
      im.Leads ⟨dots, endsInDelim path⟩ type itr (components (afterComponent (chomp path))) r := by
  by_cases hnil : afterComponent (chomp path) = []
  · rw [hnil]
    exact leads_nil_iff.trans leads_nil_iff.symm
  · rw [endsInDelim_afterComponent hnil]

theorem leads_dots_iff {comp : Str} {comps : List Str} {asksDir : Bool}
    (h : itr.isRoot = true ∧ isDots comp = true) :
    im.Leads ⟨true, asksDir⟩ type itr (comp :: comps) r ↔
      im.Leads ⟨true, asksDir⟩ type im.fatItrRoot comps r := by
  constructor
  · intro hl
    cases hl with
    | dots _ _ _ hl => exact hl
    | dir hr => exact absurd ⟨rfl, h.1, h.2⟩ hr
    | file hr => exact absurd ⟨rfl, h.1, h.2⟩ hr
  · exact .dots rfl h.1 h.2

theorem leads_search_iff {comp : Str} {comps : List Str} (hes : im.Lists itr es)
    (hr : ¬(rules.dots = true ∧ itr.isRoot = true ∧ isDots comp = true)) :
    im.Leads rules type itr (comp :: comps) r ↔
      ∃ d names, es.find? (fun e ↦ e.2.matches comp) = some (d, names) ∧
        ((d.isDir = true ∧ im.Leads rules type (im.fatItrChild d) comps r) ∨
          (d.isDir = false ∧ comps = [] ∧ rules.asksDir = false ∧ type.file = true ∧
            r = .file d names)) := by
  constructor
  · intro hl
    cases hl with
    | dots hdots hroot hd _ => exact absurd ⟨hdots, hroot, hd⟩ hr
    | dir _ hes' hd hdir hl =>
        rw [hes'.unique hes] at hd
        exact ⟨_, _, hd, .inl ⟨hdir, hl⟩⟩
    | file _ hes' hd hfile ht hasks =>
        rw [hes'.unique hes] at hd
        exact ⟨_, _, hd, .inr ⟨hfile, rfl, hasks, ht, rfl⟩⟩
  · rintro ⟨d, names, hd, ⟨hdir, hl⟩ | ⟨hfile, rfl, hasks, ht, rfl⟩⟩
    · exact .dir hr hes hd hdir hl
    · exact .file hr hes hd hfile ht hasks

/-- A lookup succeeds exactly with what the components of the path lead to, where `.` and
`..` stand for the root in the root, and a separator at the end asks for a directory. -/
theorem succeeds_iff_leads (h0 : (0 : UInt8) ∉ path) (h : im.Suits path itr) :
    im.Succeeds type path itr r ↔
      im.Leads ⟨true, endsInDelim path⟩ type itr (components path) r := by
  induction h with
  | @nil path itr hnil =>
      have hl : im.resolveLevel type 0 path itr = some (.ends (type.atDir itr)) := by
        rw [resolveLevel]
        exact if_pos hnil
      rw [succeeds_of_ends hl, atDir_eq_ok_iff, components_of_chomp_eq_nil hnil, leads_nil_iff]
  | @dots path itr hne hd hrest ih =>
      have h0' : (0 : UInt8) ∉ afterComponent (chomp path) := fun hmem ↦
        h0 ((List.dropWhile_sublist _).subset ((List.dropWhile_sublist _).subset hmem))
      rw [components_of_chomp_ne_nil hne, leads_dots_iff hd, ← leads_afterComponent_iff]
      by_cases hnext : afterComponent (chomp path) = []
      · have hl : im.resolveLevel type 0 path itr = some (.ends (type.atDir im.fatItrRoot)) := by
          rw [resolveLevel]
          dsimp only
          rw [if_neg hne, if_pos hd, if_pos hnext]
        rw [succeeds_of_ends hl, atDir_eq_ok_iff, hnext]
        exact leads_nil_iff.symm
      · have hl : im.resolveLevel type 0 path itr =
            some (.goesOn (afterComponent (chomp path)) im.fatItrRoot) := by
          rw [resolveLevel]
          dsimp only
          rw [if_neg hne, if_pos hd, if_neg hnext]
        rw [succeeds_of_goesOn hl]
        exact ih h0'
  | @search path itr es hs hes hnames hrest ih =>
      have hchomp : (0 : UInt8) ∉ chomp path := fun hmem ↦
        h0 ((List.dropWhile_sublist _).subset hmem)
      have h0' : (0 : UInt8) ∉ afterComponent (chomp path) := fun hmem ↦
        hchomp ((List.dropWhile_sublist _).subset hmem)
      obtain ⟨fuel, hl⟩ := resolveLevel_of_search type hchomp hs hes hnames
      rw [components_of_chomp_ne_nil hs.1, leads_search_iff hes fun hr ↦ hs.2 hr.2]
      cases hfind : es.find? fun e ↦ e.2.matches (component (chomp path)) with
      | none =>
          rw [hfind] at hl
          rw [succeeds_of_ends hl]
          simp
      | some e =>
          obtain ⟨d, names⟩ := e
          rw [hfind, levelAt] at hl
          by_cases hdir : d.isDir = true
          · rw [if_pos hdir] at hl
            rw [succeeds_of_goesOn hl, ih d names hfind hdir h0', leads_afterComponent_iff]
            simp [hdir]
          · rw [if_neg hdir] at hl
            rw [succeeds_of_ends hl]
            have hdir' : d.isDir = false := by simpa using hdir
            constructor
            · intro hx
              by_cases hnext : afterComponent (chomp path) = []
              · have hcomps : components (afterComponent (chomp path)) = [] := by
                  rw [hnext]
                  rfl
                rw [if_neg (not_not.mpr hnext)] at hx
                split_ifs at hx with ht
                exact ⟨d, names, rfl, .inr ⟨hdir', hcomps,
                  (afterComponent_eq_nil_iff hs.1 hcomps).mp hnext, ht, (Except.ok.inj hx).symm⟩⟩
              · rw [if_pos hnext] at hx
                cases hx
            · rintro ⟨d', names', heq, ⟨hdir'', -⟩ | ⟨-, hcomps, hasks, ht, rfl⟩⟩
              · cases heq
                exact absurd hdir'' hdir
              · cases heq
                have hnext := (afterComponent_eq_nil_iff hs.1 hcomps).mpr hasks
                rw [if_neg (not_not.mpr hnext), if_pos ht]

theorem not_succeeds_of_error {fuel : ℕ} {x : ResolveError}
    (h : im.fatItrResolve type fuel path itr = some (.error x)) : ¬im.Succeeds type path itr r := by
  rintro ⟨n, hn⟩
  have h₁ := fatItrResolve_mono hn (Nat.le_max_left n fuel)
  rw [fatItrResolve_mono h (Nat.le_max_right n fuel)] at h₁
  cases h₁

end Follows

end Image

/-! ## A small tree -/

instance (names : Names) : Decidable names.Proper := inferInstanceAs (Decidable (_ ∧ _))

instance (path : Str) (names : Names) : Decidable (names.Fits path) :=
  inferInstanceAs (Decidable (_ → _ → _ ∧ _))

/-- The records of an entry with a long name. -/
def entryRecords (name : String) (start size : ℕ) (attr : UInt8) : List Dent :=
  lfnSlots (mkcksum (aliasOf (ascii name))) (ascii name) ++
    [setFile .fat32 (setName Dent.zero (ascii name)) start size attr]

/-- A volume with a directory in the root and a file in the directory. -/
def smallTree : Image where
  fatSize := .fat32
  fat c := if c = 2 ∨ c = 3 then 0xfffffff else 0
  fat_of_checkClust := by
    intro c hc
    split_ifs with h
    · rcases h with rfl | rfl
      · cases hc
      · cases hc
    · rfl
  cluster c :=
    match (if c = 2 then entryRecords "Longdirname" 3 0 0x10 else entryRecords "x" 4 9 0x20) with
    | [] => none
    | d :: ds => some (d, ds ++ [Dent.zero])
  rootCluster := 2
  rootArea := unusedRootArea
  rootArea_ne_nil := unusedRootArea_ne_nil

/-- The directory in the root of the small tree. -/
def smallChild : DirItr := ⟨false, some 3, []⟩

/-- The entries of a directory of the small tree. -/
def smallEntries (itr : DirItr) : List (Dent × Names) := (smallTree.entries 5 itr).getD []

theorem suits_smallTree {path : Str} (hs : Image.Searches path smallTree.fatItrRoot)
    (hnames : ∀ e ∈ smallEntries smallTree.fatItrRoot, e.2.Proper ∧ e.2.Fits (chomp path))
    (hrest : smallTree.Suits (afterComponent (chomp path)) smallChild) :
    smallTree.Suits path smallTree.fatItrRoot := by
  have hlists : smallTree.Lists smallTree.fatItrRoot (smallEntries smallTree.fatItrRoot) :=
    ⟨5, by rfl⟩
  have hchild : ∀ e ∈ smallEntries smallTree.fatItrRoot, smallTree.fatItrChild e.1 =
      smallChild := by
    decide
  refine .search hs hlists hnames fun d names hfind _ ↦ ?_
  rw [hchild _ (List.mem_of_find?_eq_some hfind)]
  exact hrest

/-- In the directory of the small tree a file can be looked up. -/
theorem suits_smallChild {path : Str} (hs : Image.Searches path smallChild)
    (hnames : ∀ e ∈ smallEntries smallChild, e.2.Proper ∧ e.2.Fits (chomp path)) :
    smallTree.Suits path smallChild := by
  have hlists : smallTree.Lists smallChild (smallEntries smallChild) := ⟨5, by rfl⟩
  have hfiles : ∀ e ∈ smallEntries smallChild, e.1.isDir = false := by decide
  refine .search hs hlists hnames fun d names hfind hdir ↦ ?_
  rw [hfiles _ (List.mem_of_find?_eq_some hfind)] at hdir
  cases hdir

/-- The file in the directory of the small tree. -/
def smallFile : Resolved :=
  .file (setFile .fat32 (setName Dent.zero (ascii "x")) 4 9 0x20) ⟨some (ascii "x"), ascii "X"⟩

/-- A file is found through the long name of its directory in capital letters. -/
theorem succeeds_iff_leads_small :
    smallTree.Succeeds ⟨true, true⟩ (ascii "/LONGDIRNAME//X") smallTree.fatItrRoot smallFile ↔
      smallTree.Leads ⟨true, false⟩ ⟨true, true⟩ smallTree.fatItrRoot
        [ascii "LONGDIRNAME", ascii "X"] smallFile :=
  Image.succeeds_iff_leads (by decide)
    (suits_smallTree ⟨by decide, by decide⟩ (by decide +kernel)
      (suits_smallChild ⟨by decide, by decide⟩ (by decide +kernel)))

/-- Two paths that the lookup does not take for their components: `.` in the root, which
has no such entry, and the short name of a directory, which is shorter than its long name,
in front of another component. -/
theorem not_leads_plainly :
    (smallTree.Succeeds ⟨true, true⟩ (ascii ".") smallTree.fatItrRoot
        (.dir smallTree.fatItrRoot) ∧
      ¬smallTree.Leads ⟨false, false⟩ ⟨true, true⟩ smallTree.fatItrRoot (components (ascii "."))
        (.dir smallTree.fatItrRoot)) ∧
    ¬smallTree.Succeeds ⟨true, true⟩ (ascii "longdi~1/x") smallTree.fatItrRoot smallFile ∧
      smallTree.Leads ⟨false, false⟩ ⟨true, true⟩ smallTree.fatItrRoot
        (components (ascii "longdi~1/x")) smallFile := by
  have hroot : smallTree.Lists smallTree.fatItrRoot (smallEntries smallTree.fatItrRoot) :=
    ⟨5, by rfl⟩
  have hchild : smallTree.Lists smallChild (smallEntries smallChild) := ⟨5, by rfl⟩
  have hdots : components (ascii ".") = [ascii "."] := by rfl
  have hcomps : components (ascii "longdi~1/x") = [ascii "longdi~1", ascii "x"] := by rfl
  refine ⟨⟨⟨1, by rfl⟩, fun h ↦ ?_⟩, ?_, ?_⟩
  · rw [hdots] at h
    obtain ⟨d, names, hd, -⟩ := (Image.leads_search_iff hroot fun hr ↦ by cases hr.1).mp h
    have hnone : ((smallEntries smallTree.fatItrRoot).find? fun e ↦ e.2.matches (ascii ".")) =
        none := by
      rfl
    rw [hnone] at hd
    cases hd
  · have herr : smallTree.fatItrResolve ⟨true, true⟩ 9 (ascii "longdi~1/x") smallTree.fatItrRoot =
        some (.error .enoent) := by
      rfl
    exact Image.not_succeeds_of_error herr
  · rw [hcomps]
    have hdir : ((smallEntries smallTree.fatItrRoot).find? fun e ↦ e.2.matches (ascii "longdi~1")) =
        some (setFile .fat32 (setName Dent.zero (ascii "Longdirname")) 3 0 0x10,
          ⟨some (ascii "Longdirname"), ascii "LONGDI~1"⟩) := by
      rfl
    have hfile : ((smallEntries smallChild).find? fun e ↦ e.2.matches (ascii "x")) =
        some (setFile .fat32 (setName Dent.zero (ascii "x")) 4 9 0x20,
          ⟨some (ascii "x"), ascii "X"⟩) := by
      rfl
    refine .dir (fun hr ↦ by cases hr.1) hroot hdir rfl ?_
    exact .file (fun hr ↦ by cases hr.1) hchild hfile rfl rfl rfl

end MiniPi.Fat
