import MiniPi.Cli.History
import MiniPi.Lib.Mem

/-!
# The line editor

`cread_line` on the bytes of its buffer: the cursor `num`, the end of the line `eol_num` and the
moves of `memmove`.  It is compared with an editor on two texts, the one before the cursor and the
one behind it.
-/

namespace MiniPi.Cli

open Lib

/-! ## The buffer -/

/-- The local variables of `cread_line`, with the buffer. -/
structure LineBuf where
  buf : Mem
  num : ℕ := 0
  eolNum : ℕ := 0
  insert : Bool := true
  escSave : List UInt8 := []

def memmove (buf : Mem) (dst src n : ℕ) : Mem := buf.write dst (buf.slice src n)

namespace LineBuf

/-- `BEGINNING_OF_LINE`. -/
def beginningOfLine (l : LineBuf) : LineBuf := { l with num := 0 }

/-- `ERASE_TO_EOL`. -/
def eraseToEol (l : LineBuf) : LineBuf := if l.num < l.eolNum then { l with eolNum := l.num } else l

/-- `REFRESH_TO_EOL`. -/
def refreshToEol (l : LineBuf) : LineBuf :=
  if l.num < l.eolNum then { l with num := l.eolNum } else l

/-- `cread_add_char`. -/
def creadAddChar (len : ℕ) (ichar : UInt8) (l : LineBuf) : LineBuf :=
  if (l.insert ∨ l.num = l.eolNum) ∧ len - 1 < l.eolNum then l
  else
    let eolNum := if l.insert ∨ l.num = l.eolNum then l.eolNum + 1 else l.eolNum
    if l.insert then
      let wlen := eolNum - l.num
      let buf := if 1 < wlen then memmove l.buf (l.num + 1) l.num (wlen - 1) else l.buf
      { l with buf := buf.write l.num [ichar], num := l.num + 1, eolNum }
    else { l with buf := l.buf.write l.num [ichar], num := l.num + 1, eolNum }

/-- `cread_add_str`. -/
def creadAddStr (len : ℕ) (str : List UInt8) (l : LineBuf) : LineBuf :=
  str.foldl (fun l ichar ↦ l.creadAddChar len ichar) l

/-- The case of `^D`. -/
def deleteChar (l : LineBuf) : LineBuf :=
  if l.num < l.eolNum then
    let wlen := l.eolNum - l.num - 1
    { l with
      buf := if wlen ≠ 0 then memmove l.buf l.num (l.num + 1) wlen else l.buf
      eolNum := l.eolNum - 1 }
  else l

/-- The case of the backspace. -/
def backspace (l : LineBuf) : LineBuf :=
  if l.num ≠ 0 then
    let wlen := l.eolNum - l.num
    let num := l.num - 1
    { l with buf := memmove l.buf num (num + 1) wlen, num, eolNum := l.eolNum - 1 }
  else l

/-- A line of the history is copied into the buffer, with the `NUL` behind it. -/
def loadLine (l : LineBuf) (hline : List UInt8) : LineBuf :=
  let l := l.beginningOfLine.eraseToEol
  let l := { l with buf := l.buf.write 0 (hline ++ [0]), eolNum := hline.length }
  l.refreshToEol

/-- How a round of the loop of `cread_line` ends. -/
inductive Round
  | more (l : LineBuf) (h : History)
  | entered
  | discarded

/-- The cases of `^P` and `^N`. -/
def fromHistory (l : LineBuf) (r : History × Option (List UInt8)) : Round :=
  let l := { l with escSave := [] }
  match r.2 with
  | none => .more l r.1
  | some hline => .more (l.loadLine hline) r.1

def onKey (len : ℕ) (l : LineBuf) (h : History) : Key → Round
  | .escape => .more { l with escSave := if l.escSave = [] then [0x1b] else [] } h
  | .home => .more l.beginningOfLine h
  | .discard => .discarded
  | .right => .more (if l.num < l.eolNum then { l with num := l.num + 1 } else l) h
  | .left => .more (if l.num ≠ 0 then { l with num := l.num - 1 } else l) h
  | .delete => .more l.deleteChar h
  | .killToEol => .more l.eraseToEol h
  | .endOfLine => .more l.refreshToEol h
  | .overwrite => .more { l with insert := !l.insert } h
  | .eraseLine => .more l.beginningOfLine.eraseToEol h
  | .backspace => .more l.backspace h
  | .prev => l.fromHistory (histPrev h)
  | .next => l.fromHistory (histNext h)
  | .char ichar => .more (l.creadAddChar len ichar) h

/-- One round of the loop of `cread_line`. -/
def round (len : ℕ) (ichar : UInt8) (l : LineBuf) (h : History) : Round :=
  if ichar = 0 then .more l h
  else if ichar = charCode '\n' ∨ ichar = charCode '\r' then .entered
  else if l.escSave ≠ [] then
    match escAct l.escSave ichar with
    | .save => .more { l with escSave := l.escSave ++ [ichar] } h
    | .reject => .more { l.creadAddStr len (l.escSave ++ [ichar]) with escSave := [] } h
    | .converted ichar => { l with escSave := [] }.onKey len h (keyOf ichar)
  else l.onKey len h (keyOf ichar)

/-- The text of the buffer, ended at `eol_num`. -/
def text (l : LineBuf) : List UInt8 := cString (l.buf.slice 0 l.eolNum)

/-- `cread_line` on the characters that are typed: the value it returns, the text and the history
behind it.  `none` means that it waits for more. -/
def creadLine (len : ℕ) : LineBuf → History → List UInt8 → Option (ℤ × List UInt8 × History)
  | _, _, [] => none
  | l, h, ichar :: rest =>
      match l.round len ichar h with
      | .more l h => creadLine len l h rest
      | .entered => some (0, l.text, h.remember l.text)
      | .discarded => some (-1, [], h)

end LineBuf

/-! ## The reference editor -/

/-- The text on both sides of the cursor, the mode, and the place in the history. -/
structure Editor where
  before : List UInt8 := []
  after : List UInt8 := []
  insert : Bool := true
  pos : ℕ := 0

namespace Editor

def text (r : Editor) : List UInt8 := r.before ++ r.after

/-- A character is put in at the cursor, or takes the place of the one there. -/
def type (cbsize : ℕ) (c : UInt8) (r : Editor) : Editor :=
  if r.insert ∨ r.after = [] then
    if r.text.length < cbsize then { r with before := r.before ++ [c] } else r
  else { r with before := r.before ++ [c], after := r.after.tail }

/-- The line that is recalled, if any, with the cursor at its end. -/
def recalled (r : Editor) (line : ℕ × Option (List UInt8)) : Editor :=
  match line.2 with
  | none => { r with pos := line.1 }
  | some text => { r with before := text, after := [], pos := line.1 }

def step (cbsize : ℕ) (lines : List (List UInt8)) (r : Editor) : Key → Editor
  | .home => { r with before := [], after := r.text }
  | .endOfLine => { r with before := r.text, after := [] }
  | .left => { r with before := r.before.dropLast, after := r.before.getLast?.toList ++ r.after }
  | .right => { r with before := r.before ++ r.after.head?.toList, after := r.after.tail }
  | .delete => { r with after := r.after.tail }
  | .backspace => { r with before := r.before.dropLast }
  | .killToEol => { r with after := [] }
  | .eraseLine => { r with before := [], after := [] }
  | .overwrite => { r with insert := !r.insert }
  | .prev => r.recalled (recallPrev lines r.pos)
  | .next => r.recalled (recallNext lines r.pos)
  | .char c => r.type cbsize c
  | .escape | .discard => r

/-- What the keys of the reference editor stand for: the control characters of Emacs, the two codes
of the backspace key and a third one for it, and else the characters themselves. -/
def meaning (c : UInt8) : Key :=
  if c = 1 then .home
  else if c = 5 then .endOfLine
  else if c = 2 then .left
  else if c = 6 then .right
  else if c = 16 then .prev
  else if c = 14 then .next
  else if c = 4 then .delete
  else if c = 8 ∨ c = 127 ∨ c = 255 then .backspace
  else if c = 11 then .killToEol
  else if c = 21 ∨ c = 24 then .eraseLine
  else if c = 15 then .overwrite
  else .char c

def run (cbsize : ℕ) (lines : List (List UInt8)) (r : Editor) (keys : List UInt8) : Editor :=
  keys.foldl (fun r c ↦ r.step cbsize lines (meaning c)) r

end Editor

/-- The printable characters and the keys of the editor. -/
def Typable (c : UInt8) : Prop :=
  32 ≤ c.toNat ∧ c.toNat ≤ 126 ∨
    c ∈ [ctlCh 'a', ctlCh 'b', ctlCh 'd', ctlCh 'e', ctlCh 'f', ctlCh 'k', ctlCh 'o', ctlCh 'u',
    ctlCh 'x',
      8, 127, 255, ctlCh 'p', ctlCh 'n']

/-- The buffer holds what the reference editor does. -/
structure LineBuf.Shows (cbsize : ℕ) (l : LineBuf) (r : Editor) : Prop where
  before : l.buf.slice 0 l.num = r.before
  after : l.buf.slice l.num (l.eolNum - l.num) = r.after
  num_le : l.num ≤ l.eolNum
  eolNum_le : l.eolNum ≤ cbsize
  insert : l.insert = r.insert
  escSave : l.escSave = []

section

variable {cbsize : ℕ} {l : LineBuf} {r : Editor} {h : History} {lines : List (List UInt8)}
  {c : UInt8} {m : Mem} {a n : ℕ}

theorem slice_one : m.slice a 1 = [m a] := by
  simp [Mem.slice]

theorem slice_succ : m.slice a (n + 1) = m a :: m.slice (a + 1) n := by
  rw [Nat.add_comm n 1, Mem.slice_add, slice_one, List.singleton_append]

theorem slice_zero : m.slice a 0 = [] := rfl

theorem slice_all (hle : l.num ≤ l.eolNum) :
    l.buf.slice 0 l.eolNum = l.buf.slice 0 l.num ++ l.buf.slice l.num (l.eolNum - l.num) := by
  have hadd := l.buf.slice_add 0 l.num (l.eolNum - l.num)
  rwa [Nat.zero_add, Nat.add_sub_cancel' hle] at hadd

namespace LineBuf.Shows

theorem home (hs : l.Shows cbsize r) :
    l.beginningOfLine.Shows cbsize { r with before := [], after := r.text } := by
  refine ⟨rfl, ?_, Nat.zero_le _, hs.eolNum_le, hs.insert, hs.escSave⟩
  change l.buf.slice 0 (l.eolNum - 0) = _
  rw [Nat.sub_zero, slice_all hs.num_le, hs.before, hs.after, Editor.text]

theorem kill (hs : l.Shows cbsize r) : l.eraseToEol.Shows cbsize { r with after := [] } := by
  unfold eraseToEol
  split_ifs with hlt
  · refine ⟨hs.before, ?_, le_rfl, hs.num_le.trans hs.eolNum_le, hs.insert, hs.escSave⟩
    change l.buf.slice l.num (l.num - l.num) = _
    rw [Nat.sub_self, slice_zero]
  · refine ⟨hs.before, ?_, hs.num_le, hs.eolNum_le, hs.insert, hs.escSave⟩
    rw [show l.eolNum - l.num = 0 by omega, slice_zero]

theorem endOfLine (hs : l.Shows cbsize r) :
    l.refreshToEol.Shows cbsize { r with before := r.text, after := [] } := by
  unfold refreshToEol
  split_ifs with hlt
  · refine ⟨?_, ?_, le_rfl, hs.eolNum_le, hs.insert, hs.escSave⟩
    · change l.buf.slice 0 l.eolNum = _
      rw [slice_all hs.num_le, hs.before, hs.after, Editor.text]
    · change l.buf.slice l.eolNum (l.eolNum - l.eolNum) = _
      rw [Nat.sub_self, slice_zero]
  · have hnil : r.after = [] := by
      rw [← hs.after, show l.eolNum - l.num = 0 by omega, slice_zero]
    refine ⟨?_, hs.after.trans hnil, hs.num_le, hs.eolNum_le, hs.insert, hs.escSave⟩
    rw [hs.before, Editor.text, hnil, List.append_nil]

theorem right (hs : l.Shows cbsize r) :
    Shows cbsize (if l.num < l.eolNum then { l with num := l.num + 1 } else l)
      { r with before := r.before ++ r.after.head?.toList, after := r.after.tail } := by
  split_ifs with hlt
  · have hafter := hs.after
    rw [show l.eolNum - l.num = (l.eolNum - (l.num + 1)) + 1 by omega, slice_succ] at hafter
    refine ⟨?_, ?_, hlt, hs.eolNum_le, hs.insert, hs.escSave⟩
    · change l.buf.slice 0 (l.num + 1) = _
      rw [Mem.slice_add, hs.before, slice_one, ← hafter, Nat.zero_add]
      rfl
    · change l.buf.slice (l.num + 1) (l.eolNum - (l.num + 1)) = _
      rw [← hafter, List.tail_cons]
  · have hnil : r.after = [] := by
      rw [← hs.after, show l.eolNum - l.num = 0 by omega, slice_zero]
    refine ⟨?_, ?_, hs.num_le, hs.eolNum_le, hs.insert, hs.escSave⟩
    · simp [hnil, hs.before]
    · rw [hs.after, hnil, List.tail_nil]

theorem before_eq (hs : l.Shows cbsize r) (hnum : l.num ≠ 0) :
    r.before = l.buf.slice 0 (l.num - 1) ++ [l.buf (l.num - 1)] := by
  have hadd := l.buf.slice_add 0 (l.num - 1) 1
  rwa [Nat.sub_add_cancel (Nat.one_le_iff_ne_zero.2 hnum), hs.before, slice_one,
    Nat.zero_add] at hadd

theorem before_eq_nil (hs : l.Shows cbsize r) (hnum : l.num = 0) : r.before = [] := by
  rw [← hs.before, hnum, slice_zero]

theorem left (hs : l.Shows cbsize r) :
    Shows cbsize (if l.num ≠ 0 then { l with num := l.num - 1 } else l)
      { r with before := r.before.dropLast, after := r.before.getLast?.toList ++ r.after } := by
  have hle := hs.num_le
  split_ifs with hnum
  · have hbefore := hs.before_eq hnum
    refine ⟨?_, ?_, by change l.num - 1 ≤ l.eolNum; omega, hs.eolNum_le, hs.insert, hs.escSave⟩
    · simp [hbefore]
    · change l.buf.slice (l.num - 1) (l.eolNum - (l.num - 1)) = _
      rw [show l.eolNum - (l.num - 1) = (l.eolNum - l.num) + 1 by omega, slice_succ,
        Nat.sub_add_cancel (Nat.one_le_iff_ne_zero.2 hnum), hs.after, hbefore]
      simp
  · have hnil := hs.before_eq_nil (not_not.1 hnum)
    refine ⟨?_, ?_, hle, hs.eolNum_le, hs.insert, hs.escSave⟩
    · rw [hs.before, hnil, List.dropLast_nil]
    · simp [hs.after, hnil]

theorem delete (hs : l.Shows cbsize r) :
    l.deleteChar.Shows cbsize { r with after := r.after.tail } := by
  have heol := hs.eolNum_le
  unfold deleteChar
  by_cases hlt : l.num < l.eolNum
  · rw [if_pos hlt]
    have hafter := hs.after
    rw [show l.eolNum - l.num = (l.eolNum - l.num - 1) + 1 by omega, slice_succ] at hafter
    have hmove : (if l.eolNum - l.num - 1 ≠ 0 then
        memmove l.buf l.num (l.num + 1) (l.eolNum - l.num - 1) else l.buf) =
          memmove l.buf l.num (l.num + 1) (l.eolNum - l.num - 1) := by
      split_ifs with hzero
      · rfl
      · rw [not_not.1 hzero, memmove, slice_zero, Mem.write_nil]
    simp only [hmove]
    refine ⟨?_, ?_, by change l.num ≤ l.eolNum - 1; omega, by change l.eolNum - 1 ≤ cbsize; omega,
      hs.insert, hs.escSave⟩
    · change (memmove l.buf l.num (l.num + 1) (l.eolNum - l.num - 1)).slice 0 l.num = _
      rw [memmove, Mem.slice_write_of_disjoint (.inl (by omega)), hs.before]
    · change (memmove l.buf l.num (l.num + 1) (l.eolNum - l.num - 1)).slice l.num
        (l.eolNum - 1 - l.num) = _
      have hself := @Mem.slice_write_self l.buf l.num
        (l.buf.slice (l.num + 1) (l.eolNum - l.num - 1))
      rw [Mem.length_slice] at hself
      rw [memmove, show l.eolNum - 1 - l.num = l.eolNum - l.num - 1 by omega, hself, ← hafter,
        List.tail_cons]
  · rw [if_neg hlt]
    have hnil : r.after = [] := by
      rw [← hs.after, show l.eolNum - l.num = 0 by omega, slice_zero]
    refine ⟨hs.before, ?_, hs.num_le, heol, hs.insert, hs.escSave⟩
    rw [hs.after, hnil, List.tail_nil]

theorem backspace (hs : l.Shows cbsize r) :
    l.backspace.Shows cbsize { r with before := r.before.dropLast } := by
  have heol := hs.eolNum_le
  have hle := hs.num_le
  unfold LineBuf.backspace
  by_cases hnum : l.num ≠ 0
  · rw [if_pos hnum]
    have hbefore := hs.before_eq hnum
    refine ⟨?_, ?_, by change l.num - 1 ≤ l.eolNum - 1; omega,
      by change l.eolNum - 1 ≤ cbsize; omega, hs.insert, hs.escSave⟩
    · change (memmove l.buf (l.num - 1) (l.num - 1 + 1) (l.eolNum - l.num)).slice 0 (l.num - 1) = _
      rw [memmove, Mem.slice_write_of_disjoint (.inl (by omega)), hbefore]
      simp
    · change (memmove l.buf (l.num - 1) (l.num - 1 + 1) (l.eolNum - l.num)).slice (l.num - 1)
        (l.eolNum - 1 - (l.num - 1)) = _
      rw [Nat.sub_add_cancel (Nat.one_le_iff_ne_zero.2 hnum)]
      have hself := @Mem.slice_write_self l.buf (l.num - 1) (l.buf.slice l.num (l.eolNum - l.num))
      rw [Mem.length_slice] at hself
      rw [memmove, show l.eolNum - 1 - (l.num - 1) = l.eolNum - l.num by omega, hself, hs.after]
  · rw [if_neg hnum]
    have hnil := hs.before_eq_nil (not_not.1 hnum)
    refine ⟨?_, hs.after, hle, heol, hs.insert, hs.escSave⟩
    rw [hs.before, hnil, List.dropLast_nil]

theorem after_eq_nil_iff (hs : l.Shows cbsize r) : r.after = [] ↔ l.num = l.eolNum := by
  have hle := hs.num_le
  rw [← hs.after, ← List.length_eq_zero_iff, Mem.length_slice]
  omega

theorem length_text (hs : l.Shows cbsize r) : r.text.length = l.eolNum := by
  have hle := hs.num_le
  rw [Editor.text, List.length_append, ← hs.before, ← hs.after, Mem.length_slice, Mem.length_slice]
  omega

/-- The character stands where the cursor was, and what is behind it is `after'`. -/
theorem put {buf : Mem} {after' : List UInt8} {eolNum : ℕ} (hs : l.Shows cbsize r)
    (hbefore : buf.slice 0 l.num = l.buf.slice 0 l.num)
    (hafter : buf.slice (l.num + 1) (eolNum - (l.num + 1)) = after') (hnum : l.num + 1 ≤ eolNum)
    (heol : eolNum ≤ cbsize) (c : UInt8) :
    Shows cbsize { l with buf := buf.write l.num [c], num := l.num + 1, eolNum }
      { r with before := r.before ++ [c], after := after' } := by
  refine ⟨?_, ?_, hnum, heol, hs.insert, hs.escSave⟩
  · change (buf.write l.num [c]).slice 0 (l.num + 1) = _
    have hself := @Mem.slice_write_self buf l.num [c]
    rw [List.length_singleton] at hself
    rw [Mem.slice_add, Nat.zero_add, hself, Mem.slice_write_of_disjoint (.inl (by omega)), hbefore,
      hs.before]
  · change (buf.write l.num [c]).slice (l.num + 1) (eolNum - (l.num + 1)) = _
    rw [Mem.slice_write_of_disjoint (.inr (by simp)), hafter]

theorem type (hs : l.Shows cbsize r) (hpos : 0 < cbsize) (c : UInt8) :
    (l.creadAddChar cbsize c).Shows cbsize (r.type cbsize c) := by
  have hle := hs.num_le
  have heol := hs.eolNum_le
  have hgrows : (l.insert = true ∨ l.num = l.eolNum) ↔ (r.insert = true ∨ r.after = []) := by
    rw [hs.insert, hs.after_eq_nil_iff]
  unfold LineBuf.creadAddChar Editor.type
  rw [hs.length_text]
  by_cases hgrow : l.insert = true ∨ l.num = l.eolNum
  · rw [if_pos (hgrows.1 hgrow)]
    by_cases hfull : cbsize - 1 < l.eolNum
    · rw [if_pos ⟨hgrow, hfull⟩, if_neg (show ¬ l.eolNum < cbsize by omega)]
      exact hs
    · rw [if_neg fun h ↦ hfull h.2, if_pos (show l.eolNum < cbsize by omega)]
      simp only [if_pos hgrow]
      by_cases hinsert : l.insert = true
      · -- the characters behind the cursor move on by one
        have hmove : (if 1 < l.eolNum + 1 - l.num then
            memmove l.buf (l.num + 1) l.num (l.eolNum + 1 - l.num - 1) else l.buf) =
              memmove l.buf (l.num + 1) l.num (l.eolNum - l.num) := by
          split_ifs with hone
          · rw [show l.eolNum + 1 - l.num - 1 = l.eolNum - l.num by omega]
          · rw [show l.eolNum - l.num = 0 by omega, memmove, slice_zero, Mem.write_nil]
        rw [if_pos hinsert, hmove]
        refine hs.put ?_ ?_ (by omega) (by omega) c
        · rw [memmove, Mem.slice_write_of_disjoint (.inl (by omega))]
        · have hself := @Mem.slice_write_self l.buf (l.num + 1)
            (l.buf.slice l.num (l.eolNum - l.num))
          rw [Mem.length_slice] at hself
          rw [memmove, show l.eolNum + 1 - (l.num + 1) = l.eolNum - l.num by omega, hself, hs.after]
      · -- the cursor is at the end
        have hend : l.num = l.eolNum := hgrow.resolve_left hinsert
        rw [if_neg hinsert]
        refine hs.put rfl ?_ (by omega) (by omega) c
        rw [hs.after_eq_nil_iff.2 hend, hend, Nat.sub_self, slice_zero]
  · rw [if_neg fun h ↦ hgrow h.1, if_neg (mt hgrows.2 hgrow)]
    have hinsert : ¬ l.insert = true := fun h ↦ hgrow (.inl h)
    have hlt : l.num < l.eolNum := lt_of_le_of_ne hle fun h ↦ hgrow (.inr h)
    simp only [if_neg hgrow, if_neg hinsert]
    refine hs.put rfl ?_ (by omega) heol c
    have hafter := hs.after
    rw [show l.eolNum - l.num = (l.eolNum - (l.num + 1)) + 1 by omega, slice_succ] at hafter
    rw [← hafter, List.tail_cons]

theorem load (hs : l.Shows cbsize r) {line : List UInt8} (hline : line.length ≤ cbsize) (pos : ℕ) :
    (l.loadLine line).Shows cbsize { r with before := line, after := [], pos } := by
  have hslice : (l.buf.write 0 (line ++ [0])).slice 0 line.length = line := by
    have h := @Mem.slice_write_add l.buf 0 line.length (line ++ [0]) 0 (by simp)
    simpa using h
  have hnum : l.beginningOfLine.eraseToEol.num = 0 := by
    unfold eraseToEol
    split_ifs <;> rfl
  have hflags : l.beginningOfLine.eraseToEol.insert = l.insert ∧
      l.beginningOfLine.eraseToEol.escSave = l.escSave ∧
      l.beginningOfLine.eraseToEol.buf = l.buf := by
    unfold eraseToEol
    split_ifs <;> exact ⟨rfl, rfl, rfl⟩
  unfold loadLine
  simp only
  rw [hflags.2.2]
  unfold refreshToEol
  split_ifs with hlt
  · refine ⟨hslice, ?_, le_rfl, hline, hflags.1.trans hs.insert, hflags.2.1.trans hs.escSave⟩
    change Mem.slice _ line.length (line.length - line.length) = _
    rw [Nat.sub_self, slice_zero]
  · have hnil : line = [] := by
      change ¬ l.beginningOfLine.eraseToEol.num < line.length at hlt
      exact List.length_eq_zero_iff.1 (by omega)
    subst hnil
    refine ⟨?_, ?_, ?_, hline, hflags.1.trans hs.insert, hflags.2.1.trans hs.escSave⟩
    · change Mem.slice _ 0 l.beginningOfLine.eraseToEol.num = _
      rw [hnum, slice_zero]
    · change Mem.slice _ l.beginningOfLine.eraseToEol.num (0 - l.beginningOfLine.eraseToEol.num) = _
      rw [hnum, slice_zero]
    · change l.beginningOfLine.eraseToEol.num ≤ 0
      exact hnum.le

end LineBuf.Shows

/-! ## Keys -/

theorem mem_keys_of_keyOf {key : Key} (hkey : keyOf c = key) (hchar : ∀ d, key ≠ .char d) :
    (c, key) ∈ keys := by
  unfold keyOf at hkey
  cases hfind : keys.find? (·.1 = c) with
  | none =>
      rw [hfind] at hkey
      exact absurd hkey.symm (hchar c)
  | some label =>
      rw [hfind] at hkey
      have hlabel : label.1 = c := by simpa using List.find?_some hfind
      have hmem := List.mem_of_find?_eq_some hfind
      rwa [← hlabel, ← hkey]

theorem Typable.ne_escape (hc : Typable c) : keyOf c ≠ .escape := by
  intro hkey
  have hmem := mem_keys_of_keyOf hkey (by simp)
  obtain rfl : c = 0x1b := by simpa [keys] using hmem
  revert hc
  unfold Typable
  decide

theorem Typable.ne_discard (hc : Typable c) : keyOf c ≠ .discard := by
  intro hkey
  have hmem := mem_keys_of_keyOf hkey (by simp)
  obtain rfl : c = ctlCh 'c' := by simpa [keys] using hmem
  revert hc
  unfold Typable
  decide

/-- The labels of the switch are the keys of the reference editor. -/
theorem Typable.keyOf_eq (hc : Typable c) : keyOf c = Editor.meaning c := by
  rcases hc with ⟨hge, hle⟩ | hmem
  · have hplain (d : UInt8) (hd : d.toNat < 32 ∨ 126 < d.toNat) : c ≠ d := by
      rintro rfl
      omega
    have hlabels : ∀ label ∈ keys, label.1.toNat < 32 ∨ 126 < label.1.toNat := by decide
    have hnone : keys.find? (·.1 = c) = none :=
      List.find?_eq_none.2 fun label hlabel h ↦
        hplain label.1 (hlabels label hlabel) (of_decide_eq_true h).symm
    rw [keyOf, hnone]
    simp [Editor.meaning, hplain]
  · simp only [List.mem_cons, List.not_mem_nil, or_false] at hmem
    rcases hmem with rfl | rfl | rfl | rfl | rfl | rfl | rfl | rfl | rfl | rfl | rfl | rfl
      | rfl | rfl
    all_goals rfl

theorem Typable.ne_enter (hc : Typable c) : c ≠ 0 ∧ ¬(c = charCode '\n' ∨ c = charCode '\r') := by
  refine ⟨?_, ?_⟩
  · rintro rfl
    revert hc
    unfold Typable
    decide
  · rintro (rfl | rfl)
    · revert hc
      unfold Typable
      decide
    · revert hc
      unfold Typable
      decide

/-- The lines fit the buffer, and are texts. -/
def LinesFit (cbsize : ℕ) (lines : List (List UInt8)) : Prop :=
  ∀ line ∈ lines, line.length ≤ cbsize ∧ (0 : UInt8) ∉ line

theorem recallPrev_fits (hlines : LinesFit cbsize lines) {pos : ℕ} {line : List UInt8}
    (hline : (recallPrev lines pos).2 = some line) : line.length ≤ cbsize ∧ (0 : UInt8) ∉ line := by
  unfold recallPrev at hline
  split_ifs at hline
  exact hlines line (List.mem_of_getElem? hline)

theorem recallNext_fits (hlines : LinesFit cbsize lines) {pos : ℕ} {line : List UInt8}
    (hline : (recallNext lines pos).2 = some line) : line.length ≤ cbsize ∧ (0 : UInt8) ∉ line := by
  unfold recallNext at hline
  split_ifs at hline with hzero hone
  · obtain rfl := Option.some.inj hline
    exact ⟨Nat.zero_le _, List.not_mem_nil⟩
  · obtain rfl := Option.some.inj hline
    rw [List.getD_eq_getElem?_getD]
    cases hget : lines[pos - 2]? with
    | none => exact ⟨Nat.zero_le _, List.not_mem_nil⟩
    | some line => exact hlines line (List.mem_of_getElem? hget)

/-! ## One key -/

@[simp] theorem Editor.type_pos : (r.type cbsize c).pos = r.pos := by
  unfold Editor.type
  split_ifs <;> rfl

/-- A line that the ring gives is the one that the list gives. -/
theorem LineBuf.Shows.fromHistory (hs : l.Shows cbsize r) {ring : History × Option (List UInt8)}
    {line : ℕ × Option (List UInt8)} (hholds : ring.1.Holds lines line.1) (heq : ring.2 = line.2)
    (hfits : ∀ text, line.2 = some text → text.length ≤ cbsize) :
    ∃ l' h', l.fromHistory ring = .more l' h' ∧ l'.Shows cbsize (r.recalled line) ∧
      h'.Holds lines (r.recalled line).pos := by
  unfold LineBuf.fromHistory Editor.recalled
  rw [heq]
  have hs' : LineBuf.Shows cbsize { l with escSave := [] } r :=
    ⟨hs.before, hs.after, hs.num_le, hs.eolNum_le, hs.insert, rfl⟩
  cases hline : line.2 with
  | none =>
      exact ⟨_, _, rfl, ⟨hs'.before, hs'.after, hs'.num_le, hs'.eolNum_le, hs'.insert, rfl⟩, hholds⟩
  | some text => exact ⟨_, _, rfl, hs'.load (hfits text hline) line.1, hholds⟩

theorem LineBuf.Shows.onKey (hs : l.Shows cbsize r) (hpos : 0 < cbsize) (hh : h.Holds lines r.pos)
    (hlines : LinesFit cbsize lines) {key : Key} (hesc : key ≠ .escape) (hdis : key ≠ .discard) :
    ∃ l' h', l.onKey cbsize h key = .more l' h' ∧ l'.Shows cbsize (r.step cbsize lines key) ∧
      h'.Holds lines (r.step cbsize lines key).pos := by
  cases key with
  | escape => exact absurd rfl hesc
  | discard => exact absurd rfl hdis
  | home => exact ⟨_, _, rfl, hs.home, hh⟩
  | right => exact ⟨_, _, rfl, hs.right, hh⟩
  | left => exact ⟨_, _, rfl, hs.left, hh⟩
  | delete => exact ⟨_, _, rfl, hs.delete, hh⟩
  | killToEol => exact ⟨_, _, rfl, hs.kill, hh⟩
  | endOfLine => exact ⟨_, _, rfl, hs.endOfLine, hh⟩
  | overwrite =>
      refine ⟨_, _, rfl, ⟨hs.before, hs.after, hs.num_le, hs.eolNum_le, ?_, hs.escSave⟩, hh⟩
      change (!l.insert) = !r.insert
      rw [hs.insert]
  | eraseLine => exact ⟨_, _, rfl, hs.home.kill, hh⟩
  | backspace => exact ⟨_, _, rfl, hs.backspace, hh⟩
  | prev => exact hs.fromHistory hh.prev.1 hh.prev.2 fun _ hline ↦ (recallPrev_fits hlines hline).1
  | next => exact hs.fromHistory hh.next.1 hh.next.2 fun _ hline ↦ (recallNext_fits hlines hline).1
  | char c => exact ⟨_, _, rfl, hs.type hpos c, by simpa [Editor.step] using hh⟩

theorem Editor.mem_recalled {d : UInt8} {line : ℕ × Option (List UInt8)}
    (hmem : d ∈ (r.recalled line).text) :
    d ∈ r.text ∨ ∃ text, line.2 = some text ∧ d ∈ text := by
  unfold Editor.recalled at hmem
  cases hline : line.2 with
  | none =>
      rw [hline] at hmem
      exact .inl hmem
  | some text =>
      rw [hline] at hmem
      exact .inr ⟨text, rfl, by simpa [Editor.text] using hmem⟩

theorem Editor.mem_type {d : UInt8} (hmem : d ∈ (r.type cbsize c).text) : d ∈ r.text ∨ d = c := by
  unfold Editor.type at hmem
  split_ifs at hmem
  · simp only [Editor.text, List.mem_append, List.mem_singleton] at hmem ⊢
    tauto
  · exact .inl hmem
  · simp only [Editor.text, List.mem_append, List.mem_singleton] at hmem ⊢
    rcases hmem with (hmem | rfl) | hmem
    · exact .inl (.inl hmem)
    · exact .inr rfl
    · exact .inl (.inr (List.mem_of_mem_tail hmem))

/-- A character of the text was there before, was typed, or stands in a line of the history. -/
theorem Editor.mem_step {d : UInt8} {key : Key} (hmem : d ∈ (r.step cbsize lines key).text) :
    d ∈ r.text ∨ key = .char d ∨ ∃ line, ((recallPrev lines r.pos).2 = some line ∨
      (recallNext lines r.pos).2 = some line) ∧ d ∈ line := by
  have hmove : ∀ {before after : List UInt8}, before ++ after = r.text → d ∈ before ++ after →
    d ∈ r.text :=
    fun heq hmem ↦ heq ▸ hmem
  cases key with
  | escape => exact .inl hmem
  | discard => exact .inl hmem
  | overwrite => exact .inl hmem
  | home => exact .inl (hmove (List.nil_append _) hmem)
  | endOfLine => exact .inl (hmove (List.append_nil _) hmem)
  | right =>
      refine .inl (hmove ?_ hmem)
      unfold Editor.step Editor.text
      rw [List.append_assoc]
      cases r.after <;> rfl
  | left =>
      refine .inl (hmove ?_ hmem)
      unfold Editor.step Editor.text
      rw [← List.append_assoc]
      rcases List.eq_nil_or_concat r.before with hnil | ⟨front, last, hlast⟩
      · simp [hnil]
      · simp [hlast]
  | delete =>
      simp only [Editor.step, Editor.text, List.mem_append] at hmem ⊢
      exact .inl (hmem.imp_right List.mem_of_mem_tail)
  | backspace =>
      simp only [Editor.step, Editor.text, List.mem_append] at hmem ⊢
      exact .inl (hmem.imp_left List.mem_of_mem_dropLast)
  | killToEol =>
      simp only [Editor.step, Editor.text, List.append_nil] at hmem
      exact .inl (List.mem_append_left _ hmem)
  | eraseLine => exact absurd hmem List.not_mem_nil
  | prev =>
      rcases Editor.mem_recalled hmem with hmem | ⟨line, hline, hmem⟩
      · exact .inl hmem
      · exact .inr (.inr ⟨line, .inl hline, hmem⟩)
  | next =>
      rcases Editor.mem_recalled hmem with hmem | ⟨line, hline, hmem⟩
      · exact .inl hmem
      · exact .inr (.inr ⟨line, .inr hline, hmem⟩)
  | char c =>
      rcases Editor.mem_type hmem with hmem | rfl
      · exact .inl hmem
      · exact .inr (.inl rfl)

/-- The texts stay free of `NUL`. -/
theorem Editor.step_text (hr : (0 : UInt8) ∉ r.text) (hlines : LinesFit cbsize lines) {key : Key}
    (hkey : key ≠ .char 0) : (0 : UInt8) ∉ (r.step cbsize lines key).text := by
  intro hmem
  rcases Editor.mem_step hmem with hmem | hmem | ⟨line, hline | hline, hmem⟩
  · exact hr hmem
  · exact hkey hmem
  · exact (recallPrev_fits hlines hline).2 hmem
  · exact (recallNext_fits hlines hline).2 hmem

theorem keyOf_ne_char_zero (hc : c ≠ 0) : keyOf c ≠ .char 0 := by
  intro hkey
  unfold keyOf at hkey
  cases hfind : keys.find? (·.1 = c) with
  | none =>
      rw [hfind] at hkey
      exact hc (Key.char.inj hkey)
  | some label =>
      rw [hfind] at hkey
      have hmem := List.mem_of_find?_eq_some hfind
      rw [show label = (label.1, Key.char 0) from Prod.ext rfl hkey] at hmem
      simp [keys] at hmem

/-! ## Runs -/

/-- What `cread_line` holds behind the characters, and the history. -/
def LineBuf.typed (len : ℕ) (l : LineBuf) (h : History) : List UInt8 → LineBuf × History
  | [] => (l, h)
  | ichar :: rest =>
      match l.round len ichar h with
      | .more l h => l.typed len h rest
      | _ => (l, h)

/-- The buffer and the history agree with the reference editor. -/
structure Agrees (cbsize : ℕ) (lines : List (List UInt8)) (s : LineBuf × History) (r : Editor) :
    Prop where
  shows : s.1.Shows cbsize r
  holds : s.2.Holds lines r.pos
  text : (0 : UInt8) ∉ r.text

theorem Agrees.round {s : LineBuf × History} (ha : Agrees cbsize lines s r) (hpos : 0 < cbsize)
    (hlines : LinesFit cbsize lines) (hc : Typable c) :
    ∃ l' h', s.1.round cbsize c s.2 = .more l' h' ∧
      Agrees cbsize lines (l', h') (r.step cbsize lines (Editor.meaning c)) := by
  rw [← hc.keyOf_eq]
  obtain ⟨l', h', hkey, hs, hh⟩ := ha.shows.onKey hpos ha.holds hlines hc.ne_escape hc.ne_discard
  refine ⟨l', h', ?_, hs, hh, Editor.step_text ha.text hlines (keyOf_ne_char_zero hc.ne_enter.1)⟩
  unfold LineBuf.round
  rw [if_neg hc.ne_enter.1, if_neg hc.ne_enter.2, if_neg (not_not.2 ha.shows.escSave), hkey]

theorem Agrees.typed {s : LineBuf × History} (ha : Agrees cbsize lines s r) (hpos : 0 < cbsize)
    (hlines : LinesFit cbsize lines) (cs : List UInt8) (hcs : ∀ c ∈ cs, Typable c) :
    Agrees cbsize lines (s.1.typed cbsize s.2 cs) (r.run cbsize lines cs) ∧
      ∀ rest, s.1.creadLine cbsize s.2 (cs ++ rest) =
        (s.1.typed cbsize s.2 cs).1.creadLine cbsize (s.1.typed cbsize s.2 cs).2 rest := by
  induction cs generalizing s r with
  | nil => exact ⟨ha, fun _ ↦ rfl⟩
  | cons c cs ih =>
      obtain ⟨hc, hcs⟩ := List.forall_mem_cons.1 hcs
      obtain ⟨l', h', hround, ha'⟩ := ha.round hpos hlines hc
      obtain ⟨hrun, hline⟩ := ih ha' hcs
      have htyped : s.1.typed cbsize s.2 (c :: cs) = l'.typed cbsize h' cs := by
        rw [LineBuf.typed, hround]
      rw [htyped]
      refine ⟨hrun, fun rest ↦ ?_⟩
      rw [List.cons_append, LineBuf.creadLine, hround]
      exact hline rest

theorem cString_eq_self {text : List UInt8} (htext : (0 : UInt8) ∉ text) : cString text = text := by
  unfold cString
  exact List.takeWhile_eq_self_iff.2 fun c hc ↦ by simpa using ne_of_mem_of_not_mem hc htext

theorem Agrees.text_eq {s : LineBuf × History} (ha : Agrees cbsize lines s r) :
    s.1.text = r.text := by
  unfold LineBuf.text
  rw [slice_all ha.shows.num_le, ha.shows.before, ha.shows.after]
  exact cString_eq_self ha.text

/-- The line editor from an empty line, behind any prompts: the cursor and the end of the line stay
where the reference editor has them, within the buffer, and `cread_line` returns its text. -/
theorem creadLine_edits (hpos : 0 < cbsize) (ps : List Prompted)
    (hps : LinesFit cbsize (entered ps)) (buf : Mem) :
    ∃ pos, ((∀ p, ps.getLast? = some p → p.line ≠ none) → pos = 0) ∧
      ∀ cs, (∀ c ∈ cs, Typable c) →
        (LineBuf.typed cbsize { buf } (ps.foldl History.prompt {}) cs).1.num =
            (Editor.run cbsize (entered ps) { pos } cs).before.length ∧
          (LineBuf.typed cbsize { buf } (ps.foldl History.prompt {}) cs).1.eolNum =
            (Editor.run cbsize (entered ps) { pos } cs).text.length ∧
          (Editor.run cbsize (entered ps) { pos } cs).text.length ≤ cbsize ∧
          ∀ enter, enter = charCode '\n' ∨ enter = charCode '\r' →
            ∃ h', LineBuf.creadLine cbsize { buf } (ps.foldl History.prompt {}) (cs ++ [enter]) =
              some (0, (Editor.run cbsize (entered ps) { pos } cs).text, h') := by
  obtain ⟨pos, hh, hzero⟩ := holds_prompts ps
  refine ⟨pos, hzero, fun cs hcs ↦ ?_⟩
  have hstart : Agrees cbsize (entered ps) (({ buf } : LineBuf), ps.foldl History.prompt {})
    { pos } :=
    ⟨⟨rfl, rfl, le_rfl, Nat.zero_le _, rfl, rfl⟩, hh, List.not_mem_nil⟩
  obtain ⟨ha, hline⟩ := hstart.typed hpos hps cs hcs
  have hlen := ha.shows.length_text
  refine ⟨?_, hlen.symm, hlen.le.trans ha.shows.eolNum_le, fun enter henter ↦ ?_⟩
  · rw [← ha.shows.before, Mem.length_slice]
  · have hround : ∀ s : LineBuf × History, s.1.round cbsize enter s.2 = .entered := by
      intro s
      unfold LineBuf.round
      rw [if_neg (by rcases henter with rfl | rfl <;> decide), if_pos henter]
    have henter := hline [enter]
    rw [LineBuf.creadLine, hround, ha.text_eq] at henter
    exact ⟨_, henter⟩

/-- The line `ab` is recalled; its `b` is deleted and `c` typed; `c` is cut off behind `a`, `d` is
typed in its place, and `e` over the `a`. -/
theorem creadLine_edits_two :
    ∃ h', LineBuf.creadLine 4 { buf := fun _ ↦ 0 } ([⟨[], some [97, 98]⟩].foldl History.prompt {})
      [ctlCh 'p', ctlCh 'b', ctlCh 'd', 99, ctlCh 'a', ctlCh 'f', ctlCh 'k', 100, ctlCh 'a',
        ctlCh 'o', 101, charCode '\n'] = some (0, [101, 100], h') := by
  obtain ⟨pos, hzero, hedits⟩ := @creadLine_edits 4 (by decide) [⟨[], some [97, 98]⟩]
    (by unfold LinesFit; decide) fun _ ↦ 0
  obtain rfl := hzero (by decide)
  obtain ⟨-, -, -, hline⟩ := hedits [ctlCh 'p', ctlCh 'b', ctlCh 'd', 99, ctlCh 'a', ctlCh 'f',
    ctlCh 'k', 100, ctlCh 'a', ctlCh 'o', 101] (by simp [Typable])
  exact hline (charCode '\n') (.inl rfl)

end

end MiniPi.Cli
