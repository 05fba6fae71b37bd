import MiniPi.Uci.Quote
import MiniPi.Uci.Names

/-!
# The delta file

`uci_delta_save` writes the recorded changes of a package, one line each unless a
value has newlines, and `uci_parse_delta` carries them out again on another copy of
the package.  A line that cannot be read or carried out is passed over.
-/

namespace MiniPi.Uci

open Lib

/-! ## The writer -/

/-- `uci_command_char`; a change has none. -/
def commandChar : Cmd → Option Char
  | .add => some '+'
  | .remove => some '-'
  | .change => none
  | .rename => some '@'
  | .reorder => some '^'
  | .listAdd => some '|'
  | .listDel => some '~'

/-- `uci_delta_save`; `name` is the name of the package. -/
def deltaSave (name : Str) (h : Delta) : Str :=
  (commandChar h.cmd).toList ++ (name ++ '.' :: (h.sec ++
    ((match h.option with
      | none => []
      | some o => '.' :: o) ++
    match h.cmd, h.value with
      | .remove, none => ['\n']
      | _, v => '=' :: (quoted (v.getD []) ++ ['\n']))))

/-- What `uci_save` appends to the delta file. -/
def deltaText (name : Str) (delta : List Delta) : Str := delta.flatMap (deltaSave name)

/-! ## The reader -/

/-- `strsep(&str, ..)` with one separator, and `strchr` with the separator overwritten. -/
def strsep (sep : Char) (str : Str) : Str × Option Str :=
  (str.takeWhile (· != sep), (str.dropWhile (· != sep)).tail?)

/-- The checks at the end of `uci_parse_ptr`. -/
def checkPtr (package : Str) (sec option value : Option Str) : Except Err (Str × Target) :=
  if validatePackage package && option.all validateName && value.all validateText then
    .ok (package, ⟨sec, option, value, !sec.all validateName⟩)
  else .error .parse

/-- `uci_parse_ptr`. -/
def parsePtr (str : Str) : Except Err (Str × Target) :=
  let (str, value) := strsep '=' str
  match strsep '.' str with
  | (package, none) => checkPtr package none none value
  | (package, some str) =>
    match strsep '.' str with
    | (sec, none) => checkPtr package (some sec) none value
    | (sec, some str) =>
      match strsep '.' str with
      | (option, none) => checkPtr package (some sec) (some option) value
      | (_, some _) => .error .parse

/-- The command of a line; the character is compared with the table. -/
def lineCommand (arg : Str) : Cmd :=
  match arg with
  | '+' :: _ => .add
  | '-' :: _ => .remove
  | '@' :: _ => .rename
  | '^' :: _ => .reorder
  | '|' :: _ => .listAdd
  | '~' :: _ => .listDel
  | _ => .change

/-- The checks of `uci_parse_delta_tuple`. -/
def checkTuple (cmd : Cmd) (t : Target) : Bool :=
  t.sec.isSome && !t.extended && (cmd == .remove || t.value.isSome) &&
    match cmd with
    | .reorder => t.value.isSome && t.option.isNone
    | .rename => t.value.any validateName
    | .listAdd | .listDel => t.option.isSome
    | _ => true

/-- `uci_parse_delta_tuple`, on the line that was fetched. -/
def parseDeltaTuple : Reader (Cmd × Str × Target) := do
  let arg ← nextArg false false false
  fun l ↦
    if l.line ≠ [] then .error .inval l
    else
      let cmd := lineCommand arg
      match parsePtr (if cmd = .change then arg else arg.tail) with
      | .error e => .error e l
      | .ok (package, t) => if checkTuple cmd t then .ok (cmd, package, t) l else .error .inval l

/-- The `switch` of `uci_parse_delta_line`. -/
def execDelta (p : Package) (cmd : Cmd) (t : Target) : Except Err Package :=
  match cmd with
  | .reorder =>
    (expandPtr p t.ptr true).bind fun ptr ↦
      match ptr.s with
      | none => .error .notfound
      | some i => uciReorderSection true p i (strtoul (t.value.getD []))
  | .rename => uciRename true p t.ptr
  | .remove => uciDelete true p t.ptr
  | .listAdd => uciAddList true p t.ptr
  | .listDel => uciDelList true p t.ptr
  | .change => (uciSet true p t.ptr).map (·.1)
  | .add =>
    (uciSet true p t.ptr).map fun (p, last) ↦
      match t.option, last with
      | none, some i => modifySection p i ({ · with anonymous := true })
      | _, _ => p

/-- `uci_parse_delta_line`; an error leaves the package as it is. -/
def parseDeltaLine (p : Package) (cmd : Cmd) (package : Str) (t : Target) : Package :=
  if package = p.name then
    match execDelta p cmd t with
    | .ok p' => p'
    | .error _ => p
  else p

/-- The loop of `uci_parse_delta`: every turn fetches a line. -/
def parseDeltaLoop : ℕ → Str → Package → Package
  | 0, _, p => p
  | n + 1, file, p =>
    if file = [] then p
    else
      match parseDeltaTuple (getln file) with
      | .error _ l => parseDeltaLoop n l.file p
      | .ok (cmd, package, t) l => parseDeltaLoop n l.file (parseDeltaLine p cmd package t)

/-- `uci_parse_delta`. -/
def parseDelta (file : Str) (p : Package) : Package := parseDeltaLoop file.length file p

/-! ## Reading a line back -/

/-- A package name that the lines of a delta file can hold: it is one bare word without
the separators of `uci_parse_ptr`, and does not begin with a command character. -/
structure SafeName (name : Str) : Prop where
  valid : validatePackage name = true
  chars : ∀ c ∈ name, c ∉ ['\'', '"', '#', ';', '\\', '.', '=']
  start : lineCommand name = .change

/-- A delta whose line can be read back. -/
structure Delta.Printable (d : Delta) : Prop where
  sec : validateName d.sec = true
  option : d.option.all validateName = true
  value : d.value.all validateText = true
  tuple : checkTuple d.cmd ⟨some d.sec, d.option, d.value, false⟩ = true

theorem strsep_append {sep : Char} {w : Str} (hw : sep ∉ w) (s : Str) :
    strsep sep (w ++ sep :: s) = (w, some s) := by
  have hall : ∀ c ∈ w, (c != sep) = true := by
    intro c hc
    simp only [bne_iff_ne]
    rintro rfl
    exact hw hc
  simp [strsep, List.takeWhile_append_of_pos hall, List.dropWhile_append_of_pos hall]

theorem strsep_self {sep : Char} {w : Str} (hw : sep ∉ w) : strsep sep w = (w, none) := by
  have hall : ∀ c ∈ w, (c != sep) = true := by
    intro c hc
    simp only [bne_iff_ne]
    rintro rfl
    exact hw hc
  have htake : (w ++ []).takeWhile (· != sep) = w ++ [].takeWhile (· != sep) :=
    List.takeWhile_append_of_pos hall
  have hdrop : (w ++ []).dropWhile (· != sep) = [].dropWhile (· != sep) :=
    List.dropWhile_append_of_pos hall
  rw [List.append_nil] at htake hdrop
  simp [strsep, htake, hdrop]

theorem notMem_of_validateName {w : Str} (h : validateName w = true) {c : Char}
    (hc : validChar true false c = false) : c ∉ w := by
  simp only [validateName, validateStr, Bool.and_eq_true, List.all_eq_true] at h
  intro hm
  simp [h.2 c hm] at hc

/-- The name part of a line. -/
def tupleNames (name sec : Str) (option : Option Str) : Str :=
  name ++ '.' :: (sec ++ option.elim [] ('.' :: ·))

/-- What `next_arg` returns for a line, behind the command character. -/
def tupleText (name sec : Str) (option value : Option Str) : Str :=
  tupleNames name sec option ++ value.elim [] ('=' :: ·)

section Line

variable {name : Str} {d : Delta} (hname : SafeName name) (hd : d.Printable)
include hname hd

theorem notMem_tupleNames : '=' ∉ tupleNames name d.sec d.option := by
  have hn : '=' ∉ name := fun h ↦ hname.chars _ h (by decide)
  have hs := notMem_of_validateName hd.sec (c := '=') (by decide)
  cases ho : d.option with
  | none => simp [tupleNames, hn, hs]
  | some o =>
      have hvalid : validateName o = true := by simpa [ho] using hd.option
      have hopt := notMem_of_validateName hvalid (c := '=') (by decide)
      simp [tupleNames, hn, hs, hopt]

theorem parsePtr_tupleText :
    parsePtr (tupleText name d.sec d.option d.value) =
      .ok (name, ⟨some d.sec, d.option, d.value, false⟩) := by
  have heq := notMem_tupleNames hname hd
  have hvalue : strsep '=' (tupleText name d.sec d.option d.value) =
      (tupleNames name d.sec d.option, d.value) := by
    cases hv : d.value with
    | none =>
        simp only [tupleText, Option.elim_none, List.append_nil]
        exact strsep_self heq
    | some v => exact strsep_append heq v
  have hn : '.' ∉ name := fun h ↦ hname.chars _ h (by decide)
  have hs := notMem_of_validateName hd.sec (c := '.') (by decide)
  unfold parsePtr
  rw [hvalue]
  simp only [tupleNames]
  rw [strsep_append hn]
  cases ho : d.option with
  | none =>
      simp only [Option.elim_none, List.append_nil]
      rw [strsep_self hs]
      simp [checkPtr, hname.valid, hd.value, hd.sec]
  | some o =>
      have hvalid : validateName o = true := by simpa [ho] using hd.option
      have hdot := notMem_of_validateName hvalid (c := '.') (by decide)
      simp only [Option.elim_some]
      rw [strsep_append hs]
      simp only [strsep_self hdot]
      simp [checkPtr, hname.valid, hd.value, hd.sec, hvalid]

end Line

theorem bareChar_of_safeName {name : Str} (h : SafeName name) : ∀ c ∈ name, bareChar c = true := by
  intro c hc
  have hvalid := h.valid
  simp only [validatePackage, validateStr, Bool.and_eq_true, List.all_eq_true] at hvalid
  have hspace := not_isspace_of_lt (lt_toNat_of_validChar (hvalid.2 c hc))
  have hn := h.chars c hc
  simp only [List.mem_cons, List.not_mem_nil, or_false, not_or] at hn
  simp [bareChar, hspace, hn]

theorem bareChar_tupleNames {name : Str} {d : Delta} (hname : SafeName name) (hd : d.Printable) :
    ∀ c ∈ (commandChar d.cmd).toList ++ tupleNames name d.sec d.option, bareChar c = true := by
  have hcmd : ∀ c ∈ (commandChar d.cmd).toList, bareChar c = true := by
    rw [← List.all_eq_true]
    cases d.cmd <;> decide
  have hdot : bareChar '.' = true := by decide
  have hsec := bareChar_of_validateStr hd.sec
  have hbare := bareChar_of_safeName hname
  have hopt : ∀ c ∈ d.option.elim [] ('.' :: ·), bareChar c = true := by
    cases ho : d.option with
    | none => simp
    | some o =>
        have hvalid : validateName o = true := by simpa [ho] using hd.option
        simpa [hdot] using bareChar_of_validateStr hvalid
  intro c hc
  simp only [tupleNames, List.mem_append, List.mem_cons] at hc
  rcases hc with hc | hc | rfl | hc | hc
  · exact hcmd c hc
  · exact hbare c hc
  · exact hdot
  · exact hsec c hc
  · exact hopt c hc

/-- `next_arg` returns the whole line, unquoted. -/
theorem nextArg_deltaSave {name : Str} {d : Delta} (hname : SafeName name) (hd : d.Printable)
    (rest : Str) :
    nextArg false false false (getln (deltaSave name d ++ rest)) =
      .ok ((commandChar d.cmd).toList ++ tupleText name d.sec d.option d.value) ⟨[], rest⟩ := by
  have hbare := bareChar_tupleNames hname hd
  have hne : (commandChar d.cmd).toList ++ tupleNames name d.sec d.option ≠ [] := by
    simp [tupleNames]
  have hopt : (match d.option with
      | none => []
      | some o => '.' :: o) = d.option.elim [] ('.' :: ·) := by
    cases d.option <;> rfl
  cases hv : d.value with
  | none =>
      have hcmd : d.cmd = .remove := by
        have := hd.tuple
        simp only [checkTuple, hv, Option.isSome_none, Bool.or_false, Bool.and_eq_true, beq_iff_eq]
          at this
        exact this.1.2
      have hline : deltaSave name d ++ rest =
          (commandChar d.cmd).toList ++ tupleNames name d.sec d.option ++ '\n' :: rest := by
        simp [deltaSave, hv, hcmd, tupleNames, hopt]
      rw [hline, nextArg_word_newline _ _ _ hne hbare, checkArg_optional (by simp)]
      simp [tupleText]
  | some v =>
      have hline : deltaSave name d ++ rest =
          ((commandChar d.cmd).toList ++ tupleNames name d.sec d.option ++ ['=']) ++
            (quoted v ++ '\n' :: rest) := by
        cases hcmd : d.cmd <;> simp [deltaSave, hv, hcmd, tupleNames, hopt]
      have hbare' : ∀ c ∈ (commandChar d.cmd).toList ++ tupleNames name d.sec d.option ++ ['='],
          bareChar c = true := by
        intro c hc
        rcases List.mem_append.mp hc with hc | hc
        · exact hbare c hc
        · rw [List.mem_singleton.mp hc]
          decide
      rw [hline, nextArg_word _ _ _ (by simp) hbare', parseStr_quoted, parseStr_bare_newline]
      simp only [addWord_some, List.append_nil]
      rw [checkArg_optional (by simp)]
      simp [tupleText]

/-- The pointer that a delta is read back as. -/
def Delta.target (d : Delta) : Target := ⟨some d.sec, d.option, d.value, false⟩

theorem lineCommand_append {w : Str} (hw : w ≠ []) (s : Str) :
    lineCommand (w ++ s) = lineCommand w := by
  obtain ⟨c, w, rfl⟩ := List.exists_cons_of_ne_nil hw
  unfold lineCommand
  split <;> simp_all

theorem lineCommand_text {name : Str} {d : Delta} (hname : SafeName name) (s : Str) :
    lineCommand ((commandChar d.cmd).toList ++ (name ++ s)) = d.cmd := by
  cases hcmd : d.cmd with
  | change =>
      have hne : name ≠ [] := ne_nil_of_validateStr hname.valid
      exact (lineCommand_append hne s).trans hname.start
  | _ => rfl

/-- A line is read back as the delta it was written from. -/
theorem parseDeltaTuple_deltaSave {name : Str} {d : Delta} (hname : SafeName name)
    (hd : d.Printable) (rest : Str) :
    parseDeltaTuple (getln (deltaSave name d ++ rest)) = .ok (d.cmd, name, d.target) ⟨[],
      rest⟩ := by
  refine reader_bind_ok.mpr ⟨_, _, nextArg_deltaSave hname hd rest, ?_⟩
  have hcmd : lineCommand ((commandChar d.cmd).toList ++ tupleText name d.sec d.option d.value) =
      d.cmd := by
    simp only [tupleText, tupleNames, List.append_assoc]
    exact lineCommand_text hname _
  have harg : (if d.cmd = .change then
      (commandChar d.cmd).toList ++ tupleText name d.sec d.option d.value
      else ((commandChar d.cmd).toList ++ tupleText name d.sec d.option d.value).tail) =
        tupleText name d.sec d.option d.value := by
    cases hc : d.cmd <;> rfl
  have htuple := hd.tuple
  simp only [hcmd, harg, parsePtr_tupleText hname hd, ne_eq, not_true, if_false]
  exact if_pos htuple

/-- The deltas carried out one after the other. -/
def replay (name : Str) (p : Package) (delta : List Delta) : Package :=
  delta.foldl (fun p d ↦ parseDeltaLine p d.cmd name d.target) p

theorem deltaSave_ne_nil (name : Str) (d : Delta) (s : Str) : deltaSave name d ++ s ≠ [] := by
  simp [deltaSave]

/-- The text of a list of deltas, by induction on the list. -/
theorem parseDeltaLoop_deltaText {name : Str} (hname : SafeName name) {delta : List Delta}
    (hd : ∀ d ∈ delta, d.Printable) {n : ℕ} (hn : delta.length ≤ n) (p : Package) :
    parseDeltaLoop n (deltaText name delta) p = replay name p delta := by
  induction delta generalizing n p with
  | nil => cases n <;> rfl
  | cons d delta ih =>
      obtain ⟨m, rfl⟩ : ∃ m, n = m + 1 := ⟨n - 1, by simp at hn; omega⟩
      have htext : deltaText name (d :: delta) = deltaSave name d ++ deltaText name delta := rfl
      rw [htext, parseDeltaLoop, if_neg (deltaSave_ne_nil name d _),
        parseDeltaTuple_deltaSave hname (hd d List.mem_cons_self)]
      exact ih (fun d' hd' ↦ hd d' (List.mem_cons_of_mem _ hd')) (by simpa using hn) _

theorem length_le_deltaText (name : Str) (delta : List Delta) :
    delta.length ≤ (deltaText name delta).length := by
  induction delta with
  | nil => simp
  | cons d delta ih =>
      have hpos : 0 < (deltaSave name d).length := by
        simpa using List.length_pos_of_ne_nil (deltaSave_ne_nil name d [])
      simp only [deltaText, List.flatMap_cons, List.length_append, List.length_cons] at ih ⊢
      omega

/-- Reading the text of printable deltas carries them out. -/
theorem parseDelta_deltaText {name : Str} (hname : SafeName name) {delta : List Delta}
    (hd : ∀ d ∈ delta, d.Printable) (p : Package) :
    parseDelta (deltaText name delta) p = replay name p delta :=
  parseDeltaLoop_deltaText hname hd (length_le_deltaText name delta) p

end MiniPi.Uci
