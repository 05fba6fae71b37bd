import Mathlib
import MiniPi.Env.HashTable
import MiniPi.Lib.Mem

/-!
# The regular expressions of attribute lists

`lib/slre.c`: a pattern is compiled to at most 256 bytes of code and 256 bytes of data,
and the code is run against a string.  The captures are left out, since no caller in
`env/attr.c` looks at them.

The compiler of the source writes into fixed arrays.  Here the code and the data are the
bytes written so far, and `none` stands for a pattern that is refused, that makes the
compiler run past the pattern or past its arrays, or on which it does not return.
-/

open MiniPi.Lib

namespace MiniPi.Env

/-- The commands of the compiled code. -/
inductive Opcode where
  | END | BRANCH | ANY | EXACT | ANYOF | ANYBUT | OPEN | CLOSE | BOL | EOL
  | STAR | PLUS | STARQ | PLUSQ | QUEST | SPACE | NONSPACE | DIGIT
deriving DecidableEq, Repr

/-- The commands in the order of their numbers. -/
def Opcode.all : List Opcode :=
  [.END, .BRANCH, .ANY, .EXACT, .ANYOF, .ANYBUT, .OPEN, .CLOSE, .BOL, .EOL,
    .STAR, .PLUS, .STARQ, .PLUSQ, .QUEST, .SPACE, .NONSPACE, .DIGIT]

/-- The number of a command. -/
def Opcode.toByte (op : Opcode) : ℕ := Opcode.all.idxOf op

/-- `isspace`. -/
def isspace (c : UInt8) : Bool := (9 ≤ c && c ≤ 13) || c == 32 || c == 160

/-- `isdigit`. -/
def isdigit (c : UInt8) : Bool := 48 ≤ c && c ≤ 57

/-- `meta_chars`. -/
def metaChars : Str := ascii "|.^$*+?()[\\"

/-- `struct slre`, without `anchored`. -/
structure Slre where
  /-- The code, operands included. -/
  code : List ℕ
  /-- The characters the code refers to. -/
  data : Str
  /-- The number of bracket pairs. -/
  numCaps : ℕ
deriving DecidableEq, Repr

namespace Slre

/-- `r->code[pc]`. -/
def byte (r : Slre) (pc : ℕ) : ℕ := r.code.getD pc 0

/-- The command at `pc`. -/
def opcode (r : Slre) (pc : ℕ) : Option Opcode := Opcode.all[r.byte pc]?

/-! ## Compiling -/

/-- `emit`. -/
def emit (r : Slre) (code : ℕ) : Option Slre :=
  if r.code.length < 256 then some { r with code := r.code ++ [code % 256] } else none

/-- `emit` for each of several bytes. -/
def emits (r : Slre) (codes : List ℕ) : Option Slre := codes.foldlM emit r

/-- `store_char_in_data`. -/
def storeCharInData (r : Slre) (ch : UInt8) : Option Slre :=
  if r.data.length < 256 then some { r with data := r.data ++ [ch] } else none

/-- `set_jump_offset`. -/
def setJumpOffset (r : Slre) (pc offset : ℕ) : Option Slre :=
  if 255 < r.code.length - offset then none
  else some { r with code := r.code.set pc (r.code.length - offset) }

/-- `exact`, and the rest of the pattern. -/
def exact (r : Slre) (re : Str) : Option (Slre × Str) := do
  let chars := re.takeWhile (!metaChars.contains ·)
  let r' ← chars.foldlM storeCharInData r
  let r' ← r'.emits [Opcode.EXACT.toByte, r.data.length, r'.data.length - r.data.length]
  return (r', re.dropWhile (!metaChars.contains ·))

/-- What an escape stands for: a class, or a character. -/
inductive Escape where
  | cls (op : Opcode)
  | char (c : UInt8)
deriving DecidableEq, Repr

/-- `get_escape_char` for the character after the backslash. -/
def getEscapeChar (c : UInt8) : Escape :=
  if c = 110 then .char 10
  else if c = 114 then .char 13
  else if c = 116 then .char 9
  else if c = 48 then .char 0
  else if c = 83 then .cls .NONSPACE
  else if c = 115 then .cls .SPACE
  else if c = 100 then .cls .DIGIT
  else .char c

/-- The loop of `anyof` over the characters of a set. -/
def anyofLoop (op : Opcode) (start : ℕ) : Slre → Str → Option (Slre × Str)
  | _, [] => none
  | r, 93 :: re => do
      let r ← r.emits [op.toByte, start, r.data.length - start]
      return (r, re)
  | _, [92] => none
  | r, 92 :: c :: re => do
      let r ← match getEscapeChar c with
        | .cls op => do (← r.storeCharInData 0).storeCharInData (UInt8.ofNat op.toByte)
        | .char 0 => do (← r.storeCharInData 0).storeCharInData 0
        | .char c => r.storeCharInData c
      anyofLoop op start r re
  | r, c :: re => do anyofLoop op start (← r.storeCharInData c) re

/-- `anyof`, and the rest of the pattern. -/
def anyof (r : Slre) : Str → Option (Slre × Str)
  | 94 :: re => anyofLoop .ANYBUT r.data.length r re
  | re => anyofLoop .ANYOF r.data.length r re

/-- `relocate`.  The bytes it makes room for are written by its callers. -/
def relocate (r : Slre) (begin_ shift : ℕ) : Option Slre := do
  let r ← r.emit Opcode.END.toByte
  if 256 < r.code.length + shift then none
  else return { r with
    code := r.code.take begin_ ++ List.replicate shift 0 ++ r.code.drop begin_ }

/-- The first half of `quantifier`: the last character of an exact string is split off,
since only it is repeated. -/
def splitLast (r : Slre) (prev : ℕ) : Option (Slre × ℕ) :=
  if r.opcode prev = some .EXACT ∧ 1 < r.byte (prev + 2) then do
    let r := { r with code := r.code.set (prev + 2) (r.byte (prev + 2) - 1) }
    let r ← r.emits [Opcode.EXACT.toByte, r.byte (prev + 1) + r.byte (prev + 2), 1]
    return (r, r.code.length - 3)
  else some (r, prev)

/-- `quantifier`. -/
def quantifier (r : Slre) (prev : ℕ) (op : Opcode) : Option Slre := do
  let (r, prev) ← r.splitLast prev
  let r ← r.relocate prev 2
  setJumpOffset { r with code := r.code.set prev op.toByte } (prev + 1) prev

/-- `exact_one_char`. -/
def exactOneChar (r : Slre) (ch : UInt8) : Option Slre := do
  (← r.emits [Opcode.EXACT.toByte, r.data.length, 1]).storeCharInData ch

/-- `fixup_branch`. -/
def fixupBranch (r : Slre) (fixup : ℕ) : Option Slre :=
  if 0 < fixup then do setJumpOffset (← r.emit Opcode.END.toByte) fixup (fixup - 2)
  else some r

/-- The branch of `compile` for an escape. -/
def compileEscape (r : Slre) (c : UInt8) : Option Slre :=
  match getEscapeChar c with
  | .cls op => r.emit op.toByte
  | .char c => r.exactOneChar c

/-- The branch of `compile` for `|`. -/
def compileBranch (r : Slre) (fixup branchStart : ℕ) : Option Slre := do
  let r ← (← r.fixupBranch fixup).relocate branchStart 3
  let r ← setJumpOffset { r with code := r.code.set branchStart Opcode.BRANCH.toByte }
    (branchStart + 1) branchStart
  return { r with code := r.code.set (branchStart + 2) 255 }

/-- The repetition a quantifier stands for, and the rest of the pattern. -/
def quantifierOp (c : UInt8) (re : Str) : Opcode × Str :=
  if c = 63 then (.QUEST, re)
  else if re.head? = some 63 then (if c = 42 then .STARQ else .PLUSQ, re.tail)
  else (if c = 42 then .STAR else .PLUS, re)

/-- The loop of `compile`. -/
def compileLoop (level branchStart : ℕ) : ℕ → Slre → Str → ℕ → ℕ → Option (Slre × Str)
  | 0, _, _, _, _ => none
  | _ + 1, r, [], _, _ => some (r, [])
  | fuel + 1, r, c :: re, lastOp, fixup =>
      if c = 94 then do
        compileLoop level branchStart fuel (← r.emit Opcode.BOL.toByte) re lastOp fixup
      else if c = 36 then do
        compileLoop level branchStart fuel (← r.emit Opcode.EOL.toByte) re lastOp fixup
      else if c = 46 then do
        compileLoop level branchStart fuel (← r.emit Opcode.ANY.toByte) re r.code.length fixup
      else if c = 91 then do
        let (r', re) ← r.anyof re
        compileLoop level branchStart fuel r' re r.code.length fixup
      else if c = 92 then
        match re with
        | [] => none
        | e :: re => do
            compileLoop level branchStart fuel (← r.compileEscape e) re r.code.length fixup
      else if c = 40 then do
        let cap := r.numCaps + 1
        let r' ← { r with numCaps := cap }.emits [Opcode.OPEN.toByte, cap]
        let (r', re) ← compileLoop cap r'.code.length fuel r' re r'.code.length 0
        if re.head? ≠ some 41 then none
        else
          compileLoop level branchStart fuel (← r'.emits [Opcode.CLOSE.toByte, cap]) re.tail
            r.code.length fixup
      else if c = 41 then do
        let r ← r.fixupBranch fixup
        if level = 0 then none else return (r, c :: re)
      else if c = 42 ∨ c = 43 ∨ c = 63 then do
        let (op, re) := quantifierOp c re
        compileLoop level branchStart fuel (← r.quantifier lastOp op) re lastOp fixup
      else if c = 124 then do
        compileLoop level branchStart fuel (← r.compileBranch fixup branchStart) re lastOp
          (branchStart + 2)
      else do
        let (r', re) ← r.exact (c :: re)
        compileLoop level branchStart fuel r' re r.code.length fixup

/-- `slre_compile`.  Its loop calls `compile` again only at a bracket that closes
nothing, where `compile` stops at once. -/
def slreCompile (re : Str) : Option Slre := do
  let r ← Slre.emits ⟨[], [], 0⟩ [Opcode.OPEN.toByte, 0]
  let (r, rest) ← compileLoop 0 r.code.length (re.length + 1) r re r.code.length 0
  if rest ≠ [] then none
  else
    let r ← if r.opcode 2 = some .BRANCH then r.fixupBranch 4 else some r
    r.emits [Opcode.CLOSE.toByte, 0, Opcode.END.toByte]

/-! ## Matching -/

/-- `is_any_of`: whether the character is in the set. -/
def isAnyOf (r : Slre) (pc : ℕ) (c : UInt8) : Bool :=
  ((r.data.drop (r.byte (pc + 1))).take (r.byte (pc + 2))).contains c

/-- A command that reads one character. -/
def readOne (s : Str) (ofs : ℕ) (p : UInt8 → Bool) : Bool × ℕ :=
  match s[ofs]? with
  | none => (false, ofs)
  | some c => if p c then (true, ofs + 1) else (false, ofs)

/-- The command `EXACT` at `pc`. -/
def readExact (r : Slre) (pc : ℕ) (s : Str) (ofs : ℕ) : Bool × ℕ :=
  let n := r.byte (pc + 2)
  if n ≤ s.length - ofs ∧
      (s.drop ofs).take n = (r.data.drop (r.byte (pc + 1))).take n then (true, ofs + n)
  else (false, ofs)

mutual

/-- `match`: whether the code from `pc` on matches, and the offset it leaves. -/
def exec (r : Slre) (s : Str) : ℕ → ℕ → ℕ → Option (Bool × ℕ)
  | 0, _, _ => none
  | fuel + 1, pc, ofs =>
      -- a command that fails ends the loop of `match`
      let go : Bool × ℕ → ℕ → Option (Bool × ℕ) := fun res pc ↦
        if res.1 then exec r s fuel pc res.2 else some res
      match r.opcode pc with
      | none => none
      | some .END => some (true, ofs)
      | some .BRANCH => do
          let (ok, ofs') ← exec r s fuel (pc + 3) ofs
          if ok then go (ok, ofs') (pc + r.byte (pc + 2))
          else go (← exec r s fuel (pc + r.byte (pc + 1)) ofs) (pc + r.byte (pc + 2))
      | some .EXACT => go (r.readExact pc s ofs) (pc + 3)
      | some .QUEST => do
          let (ok, ofs') ← exec r s fuel (pc + 2) ofs
          go (true, if ok then ofs' else ofs) (pc + r.byte (pc + 1))
      | some .STAR => do
          go (true, ← loopGreedy r s fuel pc ofs ofs) (pc + r.byte (pc + 1))
      | some .STARQ => do
          go (true, ← loopNonGreedy r s fuel pc ofs ofs) (pc + r.byte (pc + 1))
      | some .PLUS => do
          let (ok, ofs) ← exec r s fuel (pc + 2) ofs
          if ok then go (true, ← loopGreedy r s fuel pc ofs ofs) (pc + r.byte (pc + 1))
          else some (false, ofs)
      | some .PLUSQ => do
          let (ok, ofs) ← exec r s fuel (pc + 2) ofs
          if ok then go (true, ← loopNonGreedy r s fuel pc ofs ofs) (pc + r.byte (pc + 1))
          else some (false, ofs)
      | some .SPACE => go (readOne s ofs isspace) (pc + 1)
      | some .NONSPACE => go (readOne s ofs (!isspace ·)) (pc + 1)
      | some .DIGIT => go (readOne s ofs isdigit) (pc + 1)
      | some .ANY => go (readOne s ofs fun _ ↦ true) (pc + 1)
      | some .ANYOF => go (readOne s ofs (r.isAnyOf pc)) (pc + 3)
      | some .ANYBUT => go (readOne s ofs (!r.isAnyOf pc ·)) (pc + 3)
      | some .BOL => go (ofs = 0, ofs) (pc + 1)
      | some .EOL => go (ofs = s.length, ofs) (pc + 1)
      | some .OPEN => go (true, ofs) (pc + 2)
      | some .CLOSE => go (true, ofs) (pc + 2)

/-- `loop_greedy`: the offset it leaves, where `matched` is the one found so far. -/
def loopGreedy (r : Slre) (s : Str) : ℕ → ℕ → ℕ → ℕ → Option ℕ
  | 0, _, _, _ => none
  | fuel + 1, pc, ofs, matched => do
      let (ok, saved) ← exec r s fuel (pc + 2) ofs
      if ok then
        let (rest, _) ← exec r s fuel (pc + r.byte (pc + 1)) saved
        loopGreedy r s fuel pc saved (if rest then saved else matched)
      else some matched

/-- `loop_non_greedy`: the offset it leaves.  After a failed attempt at the rest it goes
on from where that attempt stopped. -/
def loopNonGreedy (r : Slre) (s : Str) : ℕ → ℕ → ℕ → ℕ → Option ℕ
  | 0, _, _, _ => none
  | fuel + 1, pc, ofs, saved => do
      let (ok, ofs) ← exec r s fuel (pc + 2) ofs
      if ok then
        let (rest, ofs') ← exec r s fuel (pc + r.byte (pc + 1)) ofs
        if rest then some ofs else loopNonGreedy r s fuel pc ofs' ofs
      else some saved

end

end Slre

/-- `slre_compile` and `slre_match` for the pattern `regex_callback` makes of a name,
which has to match all of the string; the pattern is anchored at the start. -/
def regexMatch (name s : Str) : Option Bool := do
  let r ← Slre.slreCompile (94 :: name ++ [36])
  return (← r.exec s ((r.code.length + 1) * (s.length + 2)) 0 0).1

/-! ## Plain names -/

/-- A name that is its own pattern: none of its characters is special to the compiler,
and its length fits an operand of the code. -/
structure PlainName (name : Str) : Prop where
  ne_nil : name ≠ []
  length_lt : name.length < 256
  plain : ∀ c ∈ name, metaChars.contains c = false

instance (name : Str) : Decidable (PlainName name) :=
  decidable_of_iff (name ≠ [] ∧ name.length < 256 ∧ ∀ c ∈ name, metaChars.contains c = false)
    ⟨fun ⟨h₁, h₂, h₃⟩ ↦ ⟨h₁, h₂, h₃⟩, fun ⟨h₁, h₂, h₃⟩ ↦ ⟨h₁, h₂, h₃⟩⟩

namespace Slre

/-- The code of a plain name. -/
def plainCode (name : Str) : Slre := ⟨[6, 0, 8, 3, 0, name.length, 9, 7, 0, 0], name, 0⟩

theorem foldlM_storeCharInData (chars : Str) (r : Slre)
    (h : r.data.length + chars.length ≤ 256) :
    chars.foldlM storeCharInData r = some { r with data := r.data ++ chars } := by
  induction chars generalizing r with
  | nil => simp
  | cons c chars ih =>
      rw [List.length_cons] at h
      have hlt : r.data.length < 256 := by omega
      rw [List.foldlM_cons, storeCharInData, if_pos hlt, Option.bind_eq_bind, Option.bind_some,
        ih _ (by rw [List.length_append, List.length_singleton]; omega)]
      simp

theorem exact_plain {name : Str} (h : PlainName name) :
    Slre.exact ⟨[6, 0, 8], [], 0⟩ (name ++ [36]) =
      some (⟨[6, 0, 8, 3, 0, name.length], name, 0⟩, [36]) := by
  have htake : (name ++ [36]).takeWhile (!metaChars.contains ·) = name := by
    rw [List.takeWhile_append_of_pos fun c hc ↦ by rw [h.plain c hc]; rfl]
    have : ([36] : Str).takeWhile (!metaChars.contains ·) = [] := by decide
    rw [this, List.append_nil]
  have hdrop : (name ++ [36]).dropWhile (!metaChars.contains ·) = [36] := by
    rw [List.dropWhile_append_of_pos fun c hc ↦ by rw [h.plain c hc]; rfl]
    decide
  have hlen := h.length_lt
  have hmod : name.length % 256 = name.length := Nat.mod_eq_of_lt hlen
  unfold Slre.exact
  simp only [htake, hdrop]
  rw [foldlM_storeCharInData _ _ (by simp only [List.length_nil]; omega)]
  simp only [Option.bind_eq_bind, Option.bind_some, List.nil_append, List.length_nil, emits,
    Nat.sub_zero]
  have hop : Opcode.EXACT.toByte = 3 := by decide
  simp [emit, hmod, hop]

section Compile

variable {level branchStart fuel lastOp fixup : ℕ} {r : Slre} {re : Str}

theorem compileLoop_bol : compileLoop level branchStart (fuel + 1) r (94 :: re) lastOp fixup =
    (r.emit Opcode.BOL.toByte).bind
      (compileLoop level branchStart fuel · re lastOp fixup) := rfl

theorem compileLoop_eol : compileLoop level branchStart (fuel + 1) r (36 :: re) lastOp fixup =
    (r.emit Opcode.EOL.toByte).bind
      (compileLoop level branchStart fuel · re lastOp fixup) := rfl

theorem compileLoop_exact {c : UInt8} (hc : metaChars.contains c = false) :
    compileLoop level branchStart (fuel + 1) r (c :: re) lastOp fixup =
      (r.exact (c :: re)).bind fun p ↦
        compileLoop level branchStart fuel p.1 p.2 r.code.length fixup := by
  have hmeta : metaChars = [124, 46, 94, 36, 42, 43, 63, 40, 41, 91, 92] := by decide
  rw [hmeta] at hc
  have hne : ¬c = 124 ∧ ¬c = 46 ∧ ¬c = 94 ∧ ¬c = 36 ∧ ¬c = 42 ∧ ¬c = 43 ∧ ¬c = 63 ∧ ¬c = 40 ∧
      ¬c = 41 ∧ ¬c = 91 ∧ ¬c = 92 := by simpa using hc
  obtain ⟨h124, h46, h94, h36, h42, h43, h63, h40, h41, h91, h92⟩ := hne
  rw [compileLoop.eq_def]
  simp only [h94, h36, h46, h91, h92, h40, h41, h42, h43, h63, h124, or_self, if_false]
  rfl

end Compile

theorem slreCompile_plain {name : Str} (h : PlainName name) :
    slreCompile (94 :: name ++ [36]) = some (plainCode name) := by
  obtain ⟨c, name', hname⟩ := List.exists_cons_of_ne_nil h.ne_nil
  have hc : metaChars.contains c = false := h.plain c (by simp [hname])
  have hstart : Slre.emits ⟨[], [], 0⟩ [Opcode.OPEN.toByte, 0] = some ⟨[6, 0], [], 0⟩ := by decide
  have hbol : Slre.emit ⟨[6, 0], [], 0⟩ Opcode.BOL.toByte = some ⟨[6, 0, 8], [], 0⟩ := by decide
  have heol : Slre.emit ⟨[6, 0, 8, 3, 0, name.length], name, 0⟩ Opcode.EOL.toByte =
      some ⟨[6, 0, 8, 3, 0, name.length, 9], name, 0⟩ := rfl
  have hloop : compileLoop 0 2 ((94 :: name ++ [36]).length + 1) ⟨[6, 0], [], 0⟩
      (94 :: name ++ [36]) 2 0 = some (⟨[6, 0, 8, 3, 0, name.length, 9], name, 0⟩, []) := by
    have hexact := exact_plain h
    have hfuel : (94 :: name ++ [36]).length + 1 = name'.length + 1 + 1 + 1 + 1 := by
      simp [hname]
    rw [hfuel, List.cons_append, compileLoop_bol, hbol, Option.bind_some]
    rw [hname, List.cons_append] at hexact ⊢
    rw [compileLoop_exact hc, hexact, Option.bind_some, compileLoop_eol, ← hname, heol,
      Option.bind_some]
    rfl
  have hend : Slre.emits ⟨[6, 0, 8, 3, 0, name.length, 9], name, 0⟩
      [Opcode.CLOSE.toByte, 0, Opcode.END.toByte] = some (plainCode name) := rfl
  have hop : (⟨[6, 0, 8, 3, 0, name.length, 9], name, 0⟩ : Slre).opcode 2 ≠ some .BRANCH := by
    show Opcode.all[8]? ≠ some .BRANCH
    decide
  unfold slreCompile
  rw [hstart]
  simp only [Option.bind_eq_bind, Option.bind_some]
  show (compileLoop 0 2 _ _ _ 2 0).bind _ = _
  rw [hloop]
  simp only [Option.bind_some, ne_eq, not_true_eq_false, if_false, if_neg hop, hend]

section Exec

variable {r : Slre} {s : Str} {fuel pc ofs : ℕ}

theorem exec_end (h : r.opcode pc = some .END) : r.exec s (fuel + 1) pc ofs = some (true, ofs) := by
  rw [exec, h]

theorem exec_open (h : r.opcode pc = some .OPEN) :
    r.exec s (fuel + 1) pc ofs = r.exec s fuel (pc + 2) ofs := by
  rw [exec, h]
  rfl

theorem exec_close (h : r.opcode pc = some .CLOSE) :
    r.exec s (fuel + 1) pc ofs = r.exec s fuel (pc + 2) ofs := by
  rw [exec, h]
  rfl

theorem exec_bol (h : r.opcode pc = some .BOL) :
    r.exec s (fuel + 1) pc 0 = r.exec s fuel (pc + 1) 0 := by
  rw [exec, h]
  rfl

theorem exec_eol (h : r.opcode pc = some .EOL) :
    r.exec s (fuel + 1) pc ofs =
      if ofs = s.length then r.exec s fuel (pc + 1) ofs else some (false, ofs) := by
  rw [exec, h]
  by_cases hofs : ofs = s.length
  · simp only [hofs, decide_true, if_true]
  · simp only [hofs, decide_false, Bool.false_eq_true, if_false]

theorem exec_exact (h : r.opcode pc = some .EXACT) :
    r.exec s (fuel + 1) pc ofs =
      if (r.readExact pc s ofs).1 then r.exec s fuel (pc + 3) (r.readExact pc s ofs).2
      else some (r.readExact pc s ofs) := by
  rw [exec, h]

end Exec

theorem readExact_plainCode (name s : Str) :
    (plainCode name).readExact 3 s 0 =
      if name.length ≤ s.length ∧ s.take name.length = name then (true, name.length)
      else (false, 0) := by
  show (if name.length ≤ s.length - 0 ∧ s.take name.length = name.take name.length then
    (true, 0 + name.length) else (false, 0)) = _
  rw [Nat.sub_zero, List.take_length, Nat.zero_add]

theorem exec_plainCode (name s : Str) (fuel : ℕ) :
    ((plainCode name).exec s (fuel + 6) 0 0).map Prod.fst = some (decide (name = s)) := by
  have hopen : (plainCode name).opcode 0 = some .OPEN := rfl
  have hbol : (plainCode name).opcode 2 = some .BOL := rfl
  have hexact : (plainCode name).opcode 3 = some .EXACT := rfl
  have heol : (plainCode name).opcode 6 = some .EOL := rfl
  have hclose : (plainCode name).opcode 7 = some .CLOSE := rfl
  have hend : (plainCode name).opcode 9 = some .END := rfl
  rw [exec_open hopen, exec_bol hbol, exec_exact hexact, readExact_plainCode]
  by_cases hread : name.length ≤ s.length ∧ s.take name.length = name
  · rw [if_pos hread, if_pos rfl, exec_eol heol]
    by_cases hlen : name.length = s.length
    · have heq : name = s := by rw [← hread.2, hlen, List.take_length]
      rw [if_pos hlen, exec_close hclose, exec_end hend, Option.map_some, decide_eq_true heq]
    · have hne : name ≠ s := fun heq ↦ hlen (congrArg List.length heq)
      rw [if_neg hlen, Option.map_some, decide_eq_false hne]
  · have hne : name ≠ s := by
      rintro rfl
      exact hread ⟨le_rfl, List.take_length⟩
    rw [if_neg hread, if_neg Bool.false_ne_true, Option.map_some, decide_eq_false hne]

end Slre

theorem regexMatch_plain {name : Str} (h : PlainName name) (s : Str) :
    regexMatch name s = some (decide (name = s)) := by
  have hfuel : ((Slre.plainCode name).code.length + 1) * (s.length + 2) =
      (11 * s.length + 16) + 6 := by
    show 11 * (s.length + 2) = _
    omega
  have hexec := Slre.exec_plainCode name s (11 * s.length + 16)
  rw [← hfuel, Option.map_eq_bind] at hexec
  unfold regexMatch
  rw [Slre.slreCompile_plain h]
  exact hexec

end MiniPi.Env
