import Mathlib

/-!
# Typed lines

The model of `cread_line` and of the part of `get_user_input` that copies a line to `the_command`.
A text in a buffer is the list of its characters up to the NUL, and every store into one of the two
buffers is recorded with its index.  `console_buffer` and `the_command` have `cbsize + 1` bytes.
-/

namespace MiniPi.Cli

/-- A store into one of the buffers. -/
inductive Store
  | console (i : ℕ)
  | command (i : ℤ)
deriving DecidableEq

def Store.InRange (cbsize : ℕ) : Store → Prop
  | .console i => i ≤ cbsize
  | .command i => 0 ≤ i ∧ i ≤ cbsize

/-! ## The history -/

def histMax : ℕ := 20

/-- `hist_list` with the three indices. -/
structure History where
  list : ℕ → List UInt8 := fun _ ↦ []
  max : ℕ := 0
  addIdx : ℕ := 0
  cur : ℤ := -1

def creadAddToHist (line : List UInt8) (h : History) : History :=
  let addIdx := if histMax ≤ h.addIdx + 1 then 0 else h.addIdx + 1
  { h with
    list := fun i ↦ if i = h.addIdx then line else h.list i
    addIdx
    max := if h.max < addIdx then addIdx else h.max }

def histPrev (h : History) : History × Option (List UInt8) :=
  if h.cur < 0 then (h, none)
  else
    let cur := if h.cur - 1 < 0 then (h.max : ℤ) else h.cur - 1
    if cur = h.addIdx then (h, none) else ({ h with cur }, some (h.list cur.toNat))

def histNext (h : History) : History × Option (List UInt8) :=
  if h.cur < 0 then (h, none)
  else if h.cur = h.addIdx then (h, none)
  else
    let cur := if h.max < h.cur + 1 then 0 else h.cur + 1
    ({ h with cur }, some (if cur = h.addIdx then [] else h.list cur.toNat))

/-! ## The line editor -/

/-- The local variables of `cread_line`: `eol_num` is the length of `line`, and `esc_len` that of
`escSave`. -/
structure Edit where
  line : List UInt8 := []
  num : ℕ := 0
  insert : Bool := true
  escSave : List UInt8 := []

/-- The indices that `memmove` or `strcpy` write. -/
def indices (first n : ℕ) : List ℕ := (List.range n).map (first + ·)

def creadAddChar (cbsize : ℕ) (ichar : UInt8) (e : Edit) : Edit × List ℕ :=
  if e.insert ∨ e.num = e.line.length then
    if cbsize - 1 < e.line.length then (e, [])
    else if e.insert then
      let wlen := e.line.length + 1 - e.num
      ({ e with line := e.line.take e.num ++ ichar :: e.line.drop e.num, num := e.num + 1 },
        indices (e.num + 1) (wlen - 1) ++ [e.num])
    else ({ e with line := e.line ++ [ichar], num := e.num + 1 }, [e.num])
  else ({ e with line := e.line.set e.num ichar, num := e.num + 1 }, [e.num])

def creadAddStr (cbsize : ℕ) : List UInt8 → Edit → Edit × List ℕ
  | [], e => (e, [])
  | c :: cs, e =>
      let r := creadAddChar cbsize c e
      let rest := creadAddStr cbsize cs r.1
      (rest.1, r.2 ++ rest.2)

/-- `CTL_CH`. -/
def ctlCh (c : Char) : UInt8 := UInt8.ofNat (c.toNat - 'a'.toNat + 1)

def charCode (c : Char) : UInt8 := UInt8.ofNat c.toNat

/-- What is done with the next character of an escape sequence. -/
inductive EscAct
  | reject
  | save
  | converted (ichar : UInt8)

def escAct (escSave : List UInt8) (ichar : UInt8) : EscAct :=
  match escSave with
  | [_] => if ichar = charCode '[' ∨ ichar = charCode 'O' then .save else .reject
  | [_, second] =>
      if ichar = charCode 'D' then .converted (ctlCh 'b')
      else if ichar = charCode 'C' then .converted (ctlCh 'f')
      else if ichar = charCode 'H' then .converted (ctlCh 'a')
      else if ichar = charCode 'F' then .converted (ctlCh 'e')
      else if ichar = charCode 'A' then .converted (ctlCh 'p')
      else if ichar = charCode 'B' then .converted (ctlCh 'n')
      else if ichar ∈ ['1', '3', '4', '7', '8'].map charCode ∧ second = charCode '[' then .save
      else .reject
  | [_, _, third] =>
      if ichar = charCode '~' then
        if third = charCode '3' then .converted (ctlCh 'd')
        else if third = charCode '1' ∨ third = charCode '7' then .converted (ctlCh 'a')
        else if third = charCode '4' ∨ third = charCode '8' then .converted (ctlCh 'e')
        else .reject
      else .reject
  | _ => .reject

/-- The cases of the switch. -/
inductive Key
  | escape | home | discard | right | left | delete | killToEol | endOfLine | overwrite | eraseLine
  | backspace | prev | next
  | char (ichar : UInt8)

/-- The labels of the switch. -/
def keys : List (UInt8 × Key) :=
  [(0x1b, .escape), (ctlCh 'a', .home), (ctlCh 'c', .discard), (ctlCh 'f', .right),
    (ctlCh 'b', .left), (ctlCh 'd', .delete), (ctlCh 'k', .killToEol), (ctlCh 'e', .endOfLine),
    (ctlCh 'o', .overwrite),
    (ctlCh 'x', .eraseLine), (ctlCh 'u', .eraseLine), (255, .backspace), (127, .backspace),
    (8, .backspace), (ctlCh 'p', .prev), (ctlCh 'n', .next)]

def keyOf (ichar : UInt8) : Key :=
  match keys.find? (·.1 = ichar) with
  | some label => label.2
  | none => .char ichar

/-- What a character does to a line: the indices are those that are stored to. -/
inductive Typed
  | more (e : Edit) (h : History) (stores : List ℕ)
  | entered
  | discarded

/-- A line of the history takes the place of the typed one. -/
def fromHistory (e : Edit) (r : History × Option (List UInt8)) : Typed :=
  let e := { e with escSave := [] }
  match r.2 with
  | none => .more e r.1 []
  | some hline => .more { e with line := hline, num := hline.length } r.1
      (indices 0 (hline.length + 1))

def onKey (cbsize : ℕ) (e : Edit) (h : History) : Key → Typed
  | .escape => .more { e with escSave := if e.escSave = [] then [0x1b] else [] } h []
  | .home => .more { e with num := 0 } h []
  | .discard => .discarded
  | .right => .more { e with num := if e.num < e.line.length then e.num + 1 else e.num } h []
  | .left => .more { e with num := e.num - 1 } h []
  | .delete =>
      if e.num < e.line.length then
        .more { e with line := e.line.eraseIdx e.num } h (indices e.num (e.line.length - e.num - 1))
      else .more e h []
  | .killToEol => .more { e with line := e.line.take e.num } h []
  | .endOfLine => .more { e with num := e.line.length } h []
  | .overwrite => .more { e with insert := !e.insert } h []
  | .eraseLine => .more { e with line := [], num := 0 } h []
  | .backspace =>
      if e.num ≠ 0 then
        .more { e with line := e.line.eraseIdx (e.num - 1), num := e.num - 1 } h
          (indices (e.num - 1) (e.line.length - e.num))
      else .more e h []
  | .prev => fromHistory e (histPrev h)
  | .next => fromHistory e (histNext h)
  | .char ichar =>
      let r := creadAddChar cbsize ichar e
      .more r.1 h r.2

/-- One round of the loop of `cread_line`. -/
def typeChar (cbsize : ℕ) (ichar : UInt8) (e : Edit) (h : History) : Typed :=
  if ichar = 0 then .more e h []
  else if ichar = charCode '\n' ∨ ichar = charCode '\r' then .entered
  else if e.escSave ≠ [] then
    match escAct e.escSave ichar with
    | .save => .more { e with escSave := e.escSave ++ [ichar] } h []
    | .reject =>
        let r := creadAddStr cbsize (e.escSave ++ [ichar]) e
        .more { r.1 with escSave := [] } h r.2
    | .converted ichar => onKey cbsize { e with escSave := [] } h (keyOf ichar)
  else onKey cbsize e h (keyOf ichar)

/-! ## The prompt -/

/-- The state of the prompt, with the line that is typed. -/
structure Prompt where
  edit : Edit := {}
  hist : History := {}
  promptmode : ℕ := 1
  flagRepeat : Bool := false
  doRepeat : Bool := false
  theCommand : List UInt8 := []

/-- The text up to the first NUL. -/
def cString (bytes : List UInt8) : List UInt8 := bytes.takeWhile (· ≠ 0)

def newline : UInt8 := charCode '\n'

/-- The stores of a `strcpy` to `the_command`. -/
def strcpyCommand (first : ℕ) (text : List UInt8) : List Store :=
  (indices first (text.length + 1)).map fun i : ℕ ↦ .command i

/-- A further line is put behind `the_command`, over its newline. -/
def continueCommand (cbsize : ℕ) (console : List UInt8) (s : Prompt) : Prompt × List Store :=
  if console.head? ≠ some newline then
    if s.theCommand.length + console.length < cbsize then
      ({ s with theCommand := s.theCommand.dropLast ++ charCode ' ' :: console },
        Store.command (s.theCommand.length - 1) :: strcpyCommand s.theCommand.length console)
    else ({ s with theCommand := [newline], flagRepeat := false }, [.command 0, .command 1])
  else (s, [])

/-- `get_user_input` behind the call that has read `line`, or that was broken off. -/
def getUserInput (cbsize : ℕ) (line : Option (List UInt8)) (s : Prompt) : Prompt × List Store :=
  let text := cString (line.getD [])
  let console := text ++ [newline]
  let appended := [Store.console text.length, .console (text.length + 1)]
  let s := { s with flagRepeat := if line = none then false else s.flagRepeat, doRepeat := false }
  if s.promptmode = 1 then
    if console.head? = some newline ∧ s.flagRepeat = false then
      ({ s with theCommand := console }, appended ++ strcpyCommand 0 console)
    else if console.head? ≠ some newline then
      ({ s with theCommand := console, flagRepeat := true }, appended ++ strcpyCommand 0 console)
    else ({ s with doRepeat := true }, appended)
  else
    let r := continueCommand cbsize console s
    if line = none then
      ({ r.1 with theCommand := [newline] }, appended ++ (r.2 ++ [.command 0, .command 1]))
    else (r.1, appended ++ r.2)

/-- What happens at the prompt: a character is typed, the parser begins a new command, or something
clears `flag_repeat`. -/
inductive Event
  | char (ichar : UInt8)
  | newCommand
  | noRepeat

/-- The end of `cread_line`: the line becomes the last one of the history. -/
def History.remember (h : History) (line : List UInt8) : History :=
  let h := if line ≠ [] ∧ line.head? ≠ some (charCode '!') then creadAddToHist line h else h
  { h with cur := h.addIdx }

/-- What follows a line, up to the point where the buffer is emptied for the next one. -/
def Prompt.endLine (cbsize : ℕ) (line : Option (List UInt8)) (s : Prompt) : Prompt × List Store :=
  let r := getUserInput cbsize line s
  ({ r.1 with edit := {}, promptmode := 2 }, r.2 ++ [.console 0])

def Prompt.step (cbsize : ℕ) (s : Prompt) : Event → Prompt × List Store
  | .newCommand => ({ s with promptmode := 1 }, [])
  | .noRepeat => ({ s with flagRepeat := false }, [])
  | .char ichar =>
      match typeChar cbsize ichar s.edit s.hist with
      | .more edit hist stores => ({ s with edit, hist }, stores.map .console)
      | .entered =>
          let line := s.edit.line
          let r := Prompt.endLine cbsize (some line) { s with hist := s.hist.remember line }
          (r.1, .console line.length :: r.2)
      | .discarded =>
          let r := Prompt.endLine cbsize none s
          (r.1, .console 0 :: r.2)

/-- The stores of a run. -/
def stores (cbsize : ℕ) : Prompt → List Event → List Store
  | _, [] => []
  | s, ev :: evs => (s.step cbsize ev).2 ++ stores cbsize (s.step cbsize ev).1 evs

/-! ## The bounds of the editor -/

structure Edit.Fits (cbsize : ℕ) (e : Edit) : Prop where
  line : e.line.length ≤ cbsize
  num : e.num ≤ e.line.length
  text : (0 : UInt8) ∉ e.line
  escSave : (0 : UInt8) ∉ e.escSave

def History.Fits (cbsize : ℕ) (h : History) : Prop :=
  ∀ i, (h.list i).length ≤ cbsize ∧ (0 : UInt8) ∉ h.list i

/-- The line goes on within the buffer. -/
def Typed.Fits (cbsize : ℕ) : Typed → Prop
  | .more e h stores => e.Fits cbsize ∧ h.Fits cbsize ∧ ∀ i ∈ stores, i ≤ cbsize
  | _ => True

section

variable {cbsize : ℕ} {e : Edit} {h : History}

theorem mem_indices {first n i : ℕ} : i ∈ indices first n ↔ first ≤ i ∧ i < first + n := by
  unfold indices
  rw [List.mem_map]
  constructor
  · rintro ⟨k, hk, rfl⟩
    rw [List.mem_range] at hk
    omega
  · rintro ⟨hle, hlt⟩
    exact ⟨i - first, List.mem_range.mpr (by omega), by omega⟩

theorem creadAddChar_fits (hpos : 0 < cbsize) (he : e.Fits cbsize) {ichar : UInt8}
    (hchar : ichar ≠ 0) :
    (creadAddChar cbsize ichar e).1.Fits cbsize ∧
      ∀ i ∈ (creadAddChar cbsize ichar e).2, i ≤ cbsize := by
  obtain ⟨hline, hnum, htext, hesc⟩ := he
  unfold creadAddChar
  split_ifs with hroom hfull hinsert
  · exact ⟨⟨hline, hnum, htext, hesc⟩, by simp⟩
  · refine ⟨⟨?_, ?_, ?_, hesc⟩, ?_⟩
    · simp only [List.length_append, List.length_take, List.length_cons, List.length_drop]
      omega
    · simp only [List.length_append, List.length_take, List.length_cons, List.length_drop]
      omega
    · rw [List.mem_append, List.mem_cons]
      rintro (hmem | rfl | hmem)
      · exact htext (List.mem_of_mem_take hmem)
      · exact hchar rfl
      · exact htext (List.mem_of_mem_drop hmem)
    · intro i hi
      simp only [List.mem_append, mem_indices, List.mem_singleton] at hi
      omega
  · refine ⟨⟨?_, ?_, ?_, hesc⟩, ?_⟩
    · simp only [List.length_append, List.length_singleton]
      omega
    · simp only [List.length_append, List.length_singleton]
      omega
    · rw [List.mem_append, List.mem_singleton]
      rintro (hmem | rfl)
      · exact htext hmem
      · exact hchar rfl
    · intro i hi
      rw [List.mem_singleton] at hi
      omega
  · have hlt : e.num < e.line.length := by omega
    refine ⟨⟨?_, ?_, ?_, hesc⟩, ?_⟩
    · rwa [List.length_set]
    · rw [List.length_set]
      exact hlt
    · intro hmem
      rcases List.mem_or_eq_of_mem_set hmem with hmem | rfl
      · exact htext hmem
      · exact hchar rfl
    · intro i hi
      rw [List.mem_singleton] at hi
      omega

theorem creadAddStr_fits (hpos : 0 < cbsize) (he : e.Fits cbsize) {cs : List UInt8}
    (hcs : (0 : UInt8) ∉ cs) :
    (creadAddStr cbsize cs e).1.Fits cbsize ∧ ∀ i ∈ (creadAddStr cbsize cs e).2, i ≤ cbsize := by
  induction cs generalizing e with
  | nil => exact ⟨he, by simp [creadAddStr]⟩
  | cons c cs ih =>
      rw [List.mem_cons, not_or] at hcs
      obtain ⟨hfits, hstores⟩ := creadAddChar_fits hpos he (Ne.symm hcs.1)
      obtain ⟨ihfits, ihstores⟩ := ih hfits hcs.2
      refine ⟨ihfits, ?_⟩
      intro i hi
      rcases List.mem_append.mp hi with hi | hi
      · exact hstores i hi
      · exact ihstores i hi

theorem fromHistory_fits (he : e.Fits cbsize) {r : History × Option (List UInt8)}
    (hr : r.1.Fits cbsize) (hline : ∀ hline ∈ r.2, hline.length ≤ cbsize ∧ (0 : UInt8) ∉ hline) :
    (fromHistory e r).Fits cbsize := by
  unfold fromHistory
  cases hr2 : r.2 with
  | none => exact ⟨⟨he.line, he.num, he.text, List.not_mem_nil⟩, hr, by simp⟩
  | some text =>
      obtain ⟨hlen, htext⟩ := hline text hr2
      refine ⟨⟨hlen, le_rfl, htext, List.not_mem_nil⟩, hr, ?_⟩
      intro i hi
      rw [mem_indices] at hi
      omega

theorem histPrev_fits (hh : h.Fits cbsize) : (histPrev h).1.Fits cbsize ∧
    ∀ hline ∈ (histPrev h).2, hline.length ≤ cbsize ∧ (0 : UInt8) ∉ hline := by
  unfold histPrev
  by_cases hneg : h.cur < 0
  · rw [if_pos hneg]
    exact ⟨hh, by simp⟩
  rw [if_neg hneg]
  simp only
  generalize (if h.cur - 1 < 0 then (h.max : ℤ) else h.cur - 1) = cur
  split_ifs
  · exact ⟨hh, by simp⟩
  · refine ⟨hh, ?_⟩
    rintro _ ⟨⟩
    exact hh _

theorem histNext_fits (hh : h.Fits cbsize) : (histNext h).1.Fits cbsize ∧
    ∀ hline ∈ (histNext h).2, hline.length ≤ cbsize ∧ (0 : UInt8) ∉ hline := by
  unfold histNext
  by_cases hneg : h.cur < 0
  · rw [if_pos hneg]
    exact ⟨hh, by simp⟩
  rw [if_neg hneg]
  by_cases heq : h.cur = h.addIdx
  · rw [if_pos heq]
    exact ⟨hh, by simp⟩
  rw [if_neg heq]
  refine ⟨hh, ?_⟩
  simp only
  generalize (if h.max < h.cur + 1 then 0 else h.cur + 1) = cur
  rintro _ ⟨⟩
  split_ifs
  · exact ⟨Nat.zero_le _, List.not_mem_nil⟩
  · exact hh _

theorem creadAddToHist_fits (hh : h.Fits cbsize) {line : List UInt8} (hline : line.length ≤ cbsize)
    (htext : (0 : UInt8) ∉ line) : (creadAddToHist line h).Fits cbsize := by
  intro i
  unfold creadAddToHist
  simp only
  split_ifs
  · exact ⟨hline, htext⟩
  · exact hh i

theorem onKey_fits (hpos : 0 < cbsize) (he : e.Fits cbsize) (hh : h.Fits cbsize) {key : Key}
    (hkey : key ≠ .char 0) : (onKey cbsize e h key).Fits cbsize := by
  obtain ⟨hline, hnum, htext, hesc⟩ := id he
  cases key with
  | escape =>
      refine ⟨⟨hline, hnum, htext, ?_⟩, hh, by simp⟩
      change (0 : UInt8) ∉ (if e.escSave = [] then [0x1b] else [])
      split_ifs <;> decide
  | home => exact ⟨⟨hline, Nat.zero_le _, htext, hesc⟩, hh, by simp⟩
  | discard => trivial
  | right =>
      refine ⟨⟨hline, ?_, htext, hesc⟩, hh, by simp⟩
      change (if e.num < e.line.length then e.num + 1 else e.num) ≤ e.line.length
      split_ifs <;> omega
  | left => exact ⟨⟨hline, (Nat.sub_le _ _).trans hnum, htext, hesc⟩, hh, by simp⟩
  | delete =>
      simp only [onKey]
      split_ifs with hlt
      · refine ⟨⟨?_, ?_, ?_, hesc⟩, hh, ?_⟩
        · rw [List.length_eraseIdx_of_lt hlt]
          omega
        · rw [List.length_eraseIdx_of_lt hlt]
          exact Nat.le_sub_one_of_lt hlt
        · exact fun hmem ↦ htext (List.mem_of_mem_eraseIdx hmem)
        · intro i hi
          rw [mem_indices] at hi
          omega
      · exact ⟨he, hh, by simp⟩
  | killToEol =>
      refine ⟨⟨(List.length_take_le' _ _).trans hline, ?_, ?_, hesc⟩, hh, by simp⟩
      · rw [List.length_take]
        exact le_min le_rfl hnum
      · exact fun hmem ↦ htext (List.mem_of_mem_take hmem)
  | endOfLine => exact ⟨⟨hline, le_rfl, htext, hesc⟩, hh, by simp⟩
  | overwrite => exact ⟨⟨hline, hnum, htext, hesc⟩, hh, by simp⟩
  | eraseLine => exact ⟨⟨Nat.zero_le _, le_rfl, List.not_mem_nil, hesc⟩, hh, by simp⟩
  | backspace =>
      simp only [onKey]
      split_ifs with hzero
      · have hlt : e.num - 1 < e.line.length := by omega
        refine ⟨⟨?_, ?_, ?_, hesc⟩, hh, ?_⟩
        · rw [List.length_eraseIdx_of_lt hlt]
          omega
        · rw [List.length_eraseIdx_of_lt hlt]
          exact Nat.le_sub_one_of_lt hlt
        · exact fun hmem ↦ htext (List.mem_of_mem_eraseIdx hmem)
        · intro i hi
          rw [mem_indices] at hi
          omega
      · exact ⟨he, hh, by simp⟩
  | prev => exact fromHistory_fits he (histPrev_fits hh).1 (histPrev_fits hh).2
  | next => exact fromHistory_fits he (histNext_fits hh).1 (histNext_fits hh).2
  | char ichar =>
      have hchar : ichar ≠ 0 := by
        rintro rfl
        exact hkey rfl
      obtain ⟨hfits, hstores⟩ := creadAddChar_fits hpos he hchar
      exact ⟨hfits, hh, hstores⟩

theorem eq_of_keyOf {ichar c : UInt8} (hkey : keyOf ichar = .char c) : ichar = c := by
  have hlabels : ∀ label ∈ keys, label.2 ≠ .char c := by simp [keys]
  unfold keyOf at hkey
  split at hkey
  · rename_i label hfind
    exact absurd hkey (hlabels label (List.mem_of_find?_eq_some hfind))
  · exact Key.char.inj hkey

theorem keyOf_ne {ichar : UInt8} (hchar : ichar ≠ 0) : keyOf ichar ≠ .char 0 :=
  fun hkey ↦ hchar (eq_of_keyOf hkey)

theorem escAct_ne {escSave : List UInt8} {ichar ichar' : UInt8}
    (hact : escAct escSave ichar = .converted ichar') : ichar' ≠ 0 := by
  unfold escAct at hact
  split at hact
  · split_ifs at hact
  · split_ifs at hact <;> cases hact <;> decide
  · split_ifs at hact <;> cases hact <;> decide
  · cases hact

theorem typeChar_fits (hpos : 0 < cbsize) (he : e.Fits cbsize) (hh : h.Fits cbsize)
    (ichar : UInt8) :
    (typeChar cbsize ichar e h).Fits cbsize := by
  have hclear : Edit.Fits cbsize { e with escSave := [] } :=
    ⟨he.line, he.num, he.text, List.not_mem_nil⟩
  unfold typeChar
  split_ifs with hzero hnewline hesc
  · exact ⟨he, hh, by simp⟩
  · trivial
  · have hsave : (0 : UInt8) ∉ e.escSave ++ [ichar] := by
      rw [List.mem_append, List.mem_singleton, not_or]
      exact ⟨he.escSave, Ne.symm hzero⟩
    cases hact : escAct e.escSave ichar with
    | save => exact ⟨⟨he.line, he.num, he.text, hsave⟩, hh, by simp⟩
    | reject =>
        obtain ⟨hfits, hstores⟩ := creadAddStr_fits hpos he hsave
        exact ⟨⟨hfits.line, hfits.num, hfits.text, List.not_mem_nil⟩, hh, hstores⟩
    | converted ichar' => exact onKey_fits hpos hclear hh (keyOf_ne (escAct_ne hact))
  · exact onKey_fits hpos he hh (keyOf_ne hzero)

end

/-! ## The bounds of the prompt -/

structure Prompt.Fits (cbsize : ℕ) (s : Prompt) : Prop where
  edit : s.edit.Fits cbsize
  hist : s.hist.Fits cbsize
  command : s.theCommand.length ≤ cbsize
  repeated : s.flagRepeat = true → s.theCommand ≠ []
  continued : s.promptmode ≠ 1 → s.theCommand ≠ []

/-- What `get_user_input` leaves behind. -/
structure Copied (cbsize : ℕ) (s : Prompt) (r : Prompt × List Store) : Prop where
  hist : r.1.hist = s.hist
  command : r.1.theCommand.length ≤ cbsize
  nonempty : r.1.theCommand ≠ []
  stores : ∀ st ∈ r.2, st.InRange cbsize

section

variable {cbsize : ℕ} {s : Prompt}

theorem cString_eq {bytes : List UInt8} (h : (0 : UInt8) ∉ bytes) : cString bytes = bytes := by
  refine List.takeWhile_eq_self_iff.mpr ?_
  intro b hb
  refine decide_eq_true ?_
  rintro rfl
  exact h hb

theorem inRange_strcpy {first : ℕ} {text : List UInt8} (h : first + text.length ≤ cbsize) :
    ∀ st ∈ strcpyCommand first text, st.InRange cbsize := by
  intro st hst
  obtain ⟨i, hi, rfl⟩ := List.mem_map.mp hst
  rw [mem_indices] at hi
  constructor
  · exact Int.natCast_nonneg i
  · exact Int.ofNat_le.mpr (by omega)

theorem inRange_append {st₁ st₂ : List Store} (h₁ : ∀ st ∈ st₁, st.InRange cbsize)
    (h₂ : ∀ st ∈ st₂, st.InRange cbsize) : ∀ st ∈ st₁ ++ st₂, st.InRange cbsize := by
  intro st hst
  rcases List.mem_append.mp hst with h | h
  · exact h₁ st h
  · exact h₂ st h

/-- The newline and the NUL behind a line that is not full. -/
theorem inRange_appended {n : ℕ} (h : n < cbsize) :
    ∀ st ∈ [Store.console n, .console (n + 1)], st.InRange cbsize := by
  intro st hst
  rcases List.mem_cons.mp hst with rfl | hst
  · exact h.le
  · rw [List.mem_singleton.mp hst]
    exact h

theorem inRange_reset (hpos : 0 < cbsize) :
    ∀ st ∈ [Store.command 0, .command 1], st.InRange cbsize := by
  intro st hst
  rcases List.mem_cons.mp hst with rfl | hst
  · exact ⟨le_rfl, Int.natCast_nonneg _⟩
  · rw [List.mem_singleton.mp hst]
    exact ⟨by decide, by exact_mod_cast hpos⟩

theorem continueCommand_copied (hpos : 0 < cbsize) (console : List UInt8)
    (hlen : s.theCommand.length ≤ cbsize) (hcommand : s.theCommand ≠ []) :
    Copied cbsize s (continueCommand cbsize console s) := by
  have hfirst : 0 < s.theCommand.length := List.length_pos_iff.mpr hcommand
  unfold continueCommand
  split_ifs with hhead hroom
  · refine ⟨rfl, ?_, by simp, ?_⟩
    · simp only [List.length_append, List.length_dropLast, List.length_cons]
      omega
    · intro st hst
      rcases List.mem_cons.mp hst with rfl | hst
      · constructor <;> omega
      · exact inRange_strcpy hroom.le st hst
  · exact ⟨rfl, hpos, List.cons_ne_nil _ _, inRange_reset hpos⟩
  · exact ⟨rfl, hlen, hcommand, by simp⟩

theorem getUserInput_copied (hs : s.Fits cbsize) {line : Option (List UInt8)} {text : List UInt8}
    (htext : cString (line.getD []) = text) (hlen : text.length < cbsize) :
    Copied cbsize s (getUserInput cbsize line s) := by
  have hpos : 0 < cbsize := Nat.zero_lt_of_lt hlen
  have hconsole : (text ++ [newline]).length ≤ cbsize := by simpa using hlen
  have hnonempty : text ++ [newline] ≠ [] := by simp
  have hcopy : ∀ st ∈ strcpyCommand 0 (text ++ [newline]), st.InRange cbsize :=
    inRange_strcpy (by omega)
  have happended := inRange_appended hlen
  have hflag : (if line = none then false else s.flagRepeat) = true → s.flagRepeat = true := by
    split_ifs
    · intro h
      cases h
    · exact id
  unfold getUserInput
  simp only [htext]
  generalize (if line = none then false else s.flagRepeat) = flag at hflag ⊢
  split_ifs with hmode hempty hhead hnone
  · exact ⟨rfl, hconsole, hnonempty, inRange_append happended hcopy⟩
  · exact ⟨rfl, hconsole, hnonempty, inRange_append happended hcopy⟩
  · -- an empty line repeats the last command
    have hset : flag = true := by
      rw [not_and_or] at hempty
      rcases hempty with h | h
      · exact absurd (not_not.mp hhead) h
      · exact Bool.eq_true_of_not_eq_false h
    exact ⟨rfl, hs.command, hs.repeated (hflag hset), happended⟩
  · obtain ⟨hhist, -, -, hstores⟩ := @continueCommand_copied cbsize
      { s with flagRepeat := flag, doRepeat := false } hpos (text ++ [newline]) hs.command
      (hs.continued hmode)
    exact ⟨hhist, hpos, List.cons_ne_nil _ _,
      inRange_append happended (inRange_append hstores (inRange_reset hpos))⟩
  · obtain ⟨hhist, hcommand, hne, hstores⟩ := @continueCommand_copied cbsize
      { s with flagRepeat := flag, doRepeat := false } hpos (text ++ [newline]) hs.command
      (hs.continued hmode)
    exact ⟨hhist, hcommand, hne, inRange_append happended hstores⟩

/-- The newline and the NUL are stored behind every line. -/
theorem appended_mem_getUserInput (line : Option (List UInt8)) :
    Store.console ((cString (line.getD [])).length + 1) ∈ (getUserInput cbsize line s).2 := by
  unfold getUserInput
  simp only
  split_ifs <;> simp

/-- A line is entered that fills the buffer. -/
def EntersFullLine (cbsize : ℕ) (s : Prompt) (ev : Event) : Prop :=
  (ev = .char (charCode '\n') ∨ ev = .char (charCode '\r')) ∧ s.edit.line.length = cbsize

/-- No step of a run enters a full line. -/
def NoFullLine (cbsize : ℕ) : Prompt → List Event → Prop
  | _, [] => True
  | s, ev :: evs => ¬ EntersFullLine cbsize s ev ∧ NoFullLine cbsize (s.step cbsize ev).1 evs

theorem onKey_ne_entered {e : Edit} {h : History} (key : Key) :
    onKey cbsize e h key ≠ .entered := by
  have hhistory (r : History × Option (List UInt8)) : fromHistory e r ≠ .entered := by
    unfold fromHistory
    cases r.2 <;> simp
  cases key <;> simp only [onKey] <;> try split_ifs
  case prev => exact hhistory _
  case next => exact hhistory _
  all_goals simp

theorem typeChar_entered {ichar : UInt8} {e : Edit} {h : History}
    (hentered : typeChar cbsize ichar e h = .entered) :
    ichar = charCode '\n' ∨ ichar = charCode '\r' := by
  unfold typeChar at hentered
  split_ifs at hentered with hzero hnewline hesc
  · exact hnewline
  · cases hact : escAct e.escSave ichar with
    | save => simp [hact] at hentered
    | reject => simp [hact] at hentered
    | converted ichar' =>
        simp only [hact] at hentered
        exact absurd hentered (onKey_ne_entered _)
  · exact absurd hentered (onKey_ne_entered _)

theorem typeChar_newline {ichar : UInt8} (h : ichar = charCode '\n' ∨ ichar = charCode '\r')
    (e : Edit) (hist : History) : typeChar cbsize ichar e hist = .entered := by
  have hzero : ichar ≠ 0 := by
    rcases h with rfl | rfl <;> decide
  rw [typeChar, if_neg hzero, if_pos h]

theorem endLine_fits (hs : s.Fits cbsize) {line : Option (List UInt8)} {text : List UInt8}
    (htext : cString (line.getD []) = text) (hlen : text.length < cbsize) :
    (s.endLine cbsize line).1.Fits cbsize ∧
      ∀ st ∈ (s.endLine cbsize line).2, st.InRange cbsize := by
  obtain ⟨hhist, hcommand, hne, hstores⟩ := getUserInput_copied hs htext hlen
  refine ⟨⟨?_, ?_, hcommand, fun _ ↦ hne, fun _ ↦ hne⟩, ?_⟩
  · exact ⟨Nat.zero_le _, le_rfl, List.not_mem_nil, List.not_mem_nil⟩
  · exact hhist ▸ hs.hist
  · refine inRange_append hstores ?_
    intro st hst
    rw [List.mem_singleton.mp hst]
    exact Nat.zero_le _

theorem remember_fits {h : History} (hh : h.Fits cbsize) {line : List UInt8}
    (hline : line.length ≤ cbsize) (htext : (0 : UInt8) ∉ line) :
    (h.remember line).Fits cbsize := by
  have hadd := creadAddToHist_fits hh hline htext
  intro i
  unfold History.remember
  simp only
  split_ifs
  · exact hadd i
  · exact hh i

theorem inRange_cons {st : Store} {sts : List Store} (h : st.InRange cbsize)
    (hs : ∀ st ∈ sts, st.InRange cbsize) : ∀ st' ∈ st :: sts, st'.InRange cbsize :=
  List.forall_mem_cons.mpr ⟨h, hs⟩

/-- A step that enters no full line stores in range, and leaves texts behind that fit. -/
theorem step_fits (hpos : 0 < cbsize) (hs : s.Fits cbsize) {ev : Event}
    (hev : ¬ EntersFullLine cbsize s ev) :
    (s.step cbsize ev).1.Fits cbsize ∧ ∀ st ∈ (s.step cbsize ev).2, st.InRange cbsize := by
  cases ev with
  | newCommand =>
      exact ⟨⟨hs.edit, hs.hist, hs.command, hs.repeated, fun h ↦ absurd rfl h⟩,
        by simp [Prompt.step]⟩
  | noRepeat =>
      exact ⟨⟨hs.edit, hs.hist, hs.command, fun h ↦ absurd h Bool.false_ne_true, hs.continued⟩,
        by simp [Prompt.step]⟩
  | char ichar =>
      have hfits := typeChar_fits hpos hs.edit hs.hist ichar
      simp only [Prompt.step]
      cases htyped : typeChar cbsize ichar s.edit s.hist with
      | more e h stores =>
          rw [htyped] at hfits
          refine ⟨⟨hfits.1, hfits.2.1, hs.command, hs.repeated, hs.continued⟩, ?_⟩
          intro st hst
          obtain ⟨i, hi, rfl⟩ := List.mem_map.mp hst
          exact hfits.2.2 i hi
      | entered =>
          have hnewline := typeChar_entered htyped
          have hlt : s.edit.line.length < cbsize := by
            refine lt_of_le_of_ne hs.edit.line ?_
            intro hfull
            refine hev ⟨?_, hfull⟩
            rcases hnewline with rfl | rfl
            · exact .inl rfl
            · exact .inr rfl
          have hremember : Prompt.Fits cbsize { s with hist := s.hist.remember s.edit.line } :=
            ⟨hs.edit, remember_fits hs.hist hs.edit.line hs.edit.text, hs.command, hs.repeated,
              hs.continued⟩
          obtain ⟨hend, hstores⟩ := @endLine_fits cbsize _ hremember (some s.edit.line) _
            (cString_eq hs.edit.text) hlt
          exact ⟨hend, inRange_cons hs.edit.line hstores⟩
      | discarded =>
          obtain ⟨hend, hstores⟩ := @endLine_fits cbsize s hs none [] rfl hpos
          exact ⟨hend, inRange_cons (Nat.zero_le _) hstores⟩

/-- A full line that is entered is followed by a NUL behind the buffer. -/
theorem step_fullLine (hs : s.Fits cbsize) {ev : Event} (hev : EntersFullLine cbsize s ev) :
    Store.console (cbsize + 1) ∈ (s.step cbsize ev).2 := by
  obtain ⟨hev, hfull⟩ := hev
  have hmem : Store.console (cbsize + 1) ∈ (getUserInput cbsize (some s.edit.line)
      { s with hist := s.hist.remember s.edit.line }).2 := by
    have := @appended_mem_getUserInput cbsize { s with hist := s.hist.remember s.edit.line }
      (some s.edit.line)
    rwa [Option.getD_some, cString_eq hs.edit.text, hfull] at this
  have hstep (ichar : UInt8) (h : ichar = charCode '\n' ∨ ichar = charCode '\r') :
      Store.console (cbsize + 1) ∈ (s.step cbsize (.char ichar)).2 := by
    simp only [Prompt.step, typeChar_newline h]
    exact List.mem_cons_of_mem _ (List.mem_append_left _ hmem)
  rcases hev with rfl | rfl
  · exact hstep _ (.inl rfl)
  · exact hstep _ (.inr rfl)

theorem fits_initial : Prompt.Fits cbsize {} :=
  ⟨⟨Nat.zero_le _, le_rfl, List.not_mem_nil, List.not_mem_nil⟩,
    fun _ ↦ ⟨Nat.zero_le _, List.not_mem_nil⟩, Nat.zero_le _, fun h ↦ absurd h Bool.false_ne_true,
    fun h ↦ absurd rfl h⟩

theorem stores_inRange_iff_of_fits (hpos : 0 < cbsize) (hs : s.Fits cbsize) (evs : List Event) :
    (∀ st ∈ stores cbsize s evs, st.InRange cbsize) ↔ NoFullLine cbsize s evs := by
  induction evs generalizing s with
  | nil => simp [stores, NoFullLine]
  | cons ev evs ih =>
      rw [stores, NoFullLine]
      constructor
      · intro h
        have hev : ¬ EntersFullLine cbsize s ev := by
          intro hfull
          have : cbsize + 1 ≤ cbsize := h _ (List.mem_append_left _ (step_fullLine hs hfull))
          omega
        exact ⟨hev, (ih (step_fits hpos hs hev).1).mp fun st hst ↦
          h st (List.mem_append_right _ hst)⟩
      · rintro ⟨hev, hrest⟩
        obtain ⟨hfits, hstores⟩ := step_fits hpos hs hev
        exact inRange_append hstores ((ih hfits).mpr hrest)

end

/-- In every run all stores are in range if and only if no line is entered that fills the buffer. -/
theorem stores_inRange_iff {cbsize : ℕ} (hpos : 0 < cbsize) (evs : List Event) :
    (∀ st ∈ stores cbsize {} evs, st.InRange cbsize) ↔ NoFullLine cbsize {} evs :=
  stores_inRange_iff_of_fits hpos fits_initial evs

theorem stores_inRange_iff_short :
    (∀ st ∈ stores 4 {} ([97, 97, 97, 10].map .char), st.InRange 4) ↔
      NoFullLine 4 {} ([97, 97, 97, 10].map .char) :=
  stores_inRange_iff (by decide) _

theorem step_append {cbsize : ℕ} {s : Prompt} {line : List UInt8}
    (hedit : s.edit = { line, num := line.length }) (hroom : line.length < cbsize) :
    (s.step cbsize (.char 97)).1 =
      { s with edit := { line := line ++ [97], num := line.length + 1 } } := by
  have hfull : ¬ cbsize - 1 < line.length := by omega
  have hkey : keyOf 97 = .char 97 := rfl
  simp [Prompt.step, typeChar, hedit, hkey, onKey, creadAddChar, hfull, charCode]

theorem not_noFullLine_append {cbsize : ℕ} (n : ℕ) {s : Prompt} {line : List UInt8}
    (hedit : s.edit = { line, num := line.length }) (hn : line.length + n = cbsize) :
    ¬ NoFullLine cbsize s (List.replicate n (.char 97) ++ [.char 10]) := by
  induction n generalizing s line with
  | zero =>
      intro h
      refine h.1 ⟨.inl rfl, ?_⟩
      rw [hedit]
      exact hn
  | succ n ih =>
      intro h
      have hstep := @step_append cbsize _ _ hedit (by omega)
      refine @ih _ (line ++ [97]) ?_ (by simp; omega) h.2
      rw [hstep]
      simp

/-- A line of 1024 characters: the NUL behind the newline is stored behind the buffer. -/
theorem stores_fullLine :
    ¬ ∀ st ∈ stores 1024 {} (List.replicate 1024 (.char 97) ++ [.char 10]), st.InRange 1024 := by
  rw [stores_inRange_iff_of_fits (by decide) fits_initial]
  exact @not_noFullLine_append _ 1024 _ [] rfl rfl

end MiniPi.Cli
