import MiniPi.Uci.Lines

/-!
# The lexer in its line buffer

`parse_str` of `file.c` copies an argument over the place it was read from, in the buffer
that `uci_getln` fills and enlarges.  Text in single quotes comes out of the buffer as it was
before it was quoted, wherever the buffer ends.

Sizes and positions are natural numbers: an `int` that overflows stands behind a line of
`2 ^ 30` characters, for which there is no memory.
-/

namespace MiniPi.Uci

/-- The character that ends a string. -/
def nul : Char := Char.ofNat 0

/-- The parse context, as far as the lexer goes. -/
structure Pctx where
  /-- `bufsz` characters. -/
  buf : Str
  pos : ℕ
  /-- What is left of the stream. -/
  file : Str
deriving DecidableEq, Repr

/-- How the lexer fails. -/
inductive LexError where
  /-- `uci_parse_error`. -/
  | parse
  /-- The fuel is used up. -/
  | fuel
deriving DecidableEq, Repr

/-! ## Lines -/

/-- Up to `n` characters of a stream, to the end of a line, and what is left of it. -/
def chunk : ℕ → Str → Str × Str
  | 0, file => ([], file)
  | _ + 1, [] => ([], [])
  | n + 1, c :: file =>
      if c = '\n' then ([c], file) else (c :: (chunk n file).1, (chunk n file).2)

/-- `fgets` into `n` characters: what it stores before the NUL; `none` at the end of the
file. -/
def fgets (n : ℕ) (file : Str) : Option (Str × Str) :=
  if n ≤ 1 then some ([], file) else if file = [] then none else some (chunk (n - 1) file)

/-- The string is stored in the buffer. -/
def store (buf : Str) (ofs : ℕ) (s : Str) : Str := buf.take ofs ++ s ++ buf.drop (ofs + s.length)

/-- `strlen`. -/
def strlen (s : Str) : ℕ := (s.takeWhile (· ≠ nul)).length

/-- `realloc` to the double size; `fresh` is what the new memory holds. -/
def grow (fresh : ℕ → Char) (buf : Str) : Str :=
  buf ++ (List.range buf.length).map fun i ↦ fresh (buf.length + i)

/-- `LINEBUF`. -/
def lineBuf : ℕ := 32

namespace Pctx

variable (fresh : ℕ → Char)

/-- The loop of `uci_getln`. -/
def getlnLoop : ℕ → ℕ → Pctx → Option Pctx
  | 0, _, _ => none
  | fuel + 1, ofs, p =>
      let buf := store p.buf ofs [nul]
      match fgets (buf.length - ofs) p.file with
      | none => some { p with buf }
      | some (s, file) =>
          let buf := store buf ofs (s ++ [nul])
          if strlen s = 0 then some { p with buf, file }
          else if buf.getD (ofs + strlen s - 1) nul = '\n' then some { p with buf, file }
          else getlnLoop fuel (ofs + strlen s) { p with buf := grow fresh buf, file }

/-- `uci_getln`, which reads something in every turn of its loop. -/
def uciGetln (p : Pctx) (offset : ℕ) : Option Pctx :=
  let p := if p.buf = [] then { p with buf := (List.range lineBuf).map fresh } else p
  -- It takes 2 slots for `fgets` to read 1 character.
  let p := if p.buf.length - 1 ≤ offset then { p with buf := grow fresh p.buf } else p
  getlnLoop fresh (p.file.length + 1) offset p

/-! ## Arguments -/

/-- `pctx_cur_char`. -/
def cur (p : Pctx) : Char := p.buf.getD p.pos nul

/-- The next character. -/
def skip (p : Pctx) : Pctx := { p with pos := p.pos + 1 }

/-- `addc`. -/
def addc (p : Pctx) (target : ℕ) : Pctx × ℕ :=
  ({ p with buf := p.buf.set target p.cur, pos := p.pos + 1 }, target + 1)

/-- `uci_getln` at the position. -/
def fetch (p : Pctx) : Except LexError Pctx :=
  match p.uciGetln fresh p.pos with
  | none => .error .fuel
  | some p => .ok p

/-- `parse_backslash`. -/
def parseBackslash (p : Pctx) : Except LexError (Pctx × Bool) :=
  let p := p.skip
  if p.cur = nul ∨ p.cur = '\n' ∨
      (p.cur = '\r' ∧ p.buf.getD (p.pos + 1) nul = '\n' ∧ p.buf.getD (p.pos + 2) nul = nul) then
    (p.fetch fresh).map (·, false)
  else .ok (p, true)

/-- `uci_getln` inside quotes. -/
def fetchQuoted (p : Pctx) : Except LexError Pctx :=
  (p.fetch fresh).bind fun p ↦ if p.cur = nul then .error .parse else .ok p

/-- The loop of `parse_double_quote`. -/
def parseDoubleQuoteLoop : ℕ → Pctx → ℕ → Except LexError (Pctx × ℕ)
  | 0, _, _ => .error .fuel
  | fuel + 1, p, target =>
      if p.cur = '"' then .ok (p.skip, target)
      else if p.cur = nul then
        (p.fetchQuoted fresh).bind fun p ↦ parseDoubleQuoteLoop fuel p target
      else if p.cur = '\\' then
        (p.parseBackslash fresh).bind fun (p, escaped) ↦
          if escaped then parseDoubleQuoteLoop fuel (p.addc target).1 (p.addc target).2
          else parseDoubleQuoteLoop fuel p target
      else parseDoubleQuoteLoop fuel (p.addc target).1 (p.addc target).2

/-- The loop of `parse_single_quote`. -/
def parseSingleQuoteLoop : ℕ → Pctx → ℕ → Except LexError (Pctx × ℕ)
  | 0, _, _ => .error .fuel
  | fuel + 1, p, target =>
      if p.cur = '\'' then .ok (p.skip, target)
      else if p.cur = nul then
        (p.fetchQuoted fresh).bind fun p ↦ parseSingleQuoteLoop fuel p target
      else parseSingleQuoteLoop fuel (p.addc target).1 (p.addc target).2

/-- The loop of `parse_str`: the context, `*target` and `next` at `done`. -/
def parseStrLoop : ℕ → Pctx → ℕ → Except LexError (Pctx × ℕ × Bool)
  | 0, _, _ => .error .fuel
  | fuel + 1, p, target =>
      let goOn (r : Pctx × ℕ) : Except LexError (Pctx × ℕ × Bool) :=
        if r.1.cur ≠ nul ∧ isspace r.1.cur = false then parseStrLoop fuel r.1 r.2
        else .ok (r.1, r.2, true)
      if p.cur = '\'' then (parseSingleQuoteLoop fresh fuel p.skip target).bind goOn
      else if p.cur = '"' then (parseDoubleQuoteLoop fresh fuel p.skip target).bind goOn
      else if p.cur = '#' then .ok ({ p with buf := p.buf.set p.pos nul }, target, true)
      else if p.cur = nul then .ok (p, target, true)
      else if p.cur = ';' then .ok (p, target, false)
      else if p.cur = '\\' then
        (p.parseBackslash fresh).bind fun (p, escaped) ↦
          goOn (if escaped then p.addc target else (p, target))
      else goOn (p.addc target)

/-- `parse_str`. -/
def parseStr (fuel : ℕ) (p : Pctx) (target : ℕ) : Except LexError Pctx :=
  (parseStrLoop fresh fuel p target).map fun (p, target, next) ↦
    let p := if p.cur ≠ nul ∧ next then p.skip else p
    { p with buf := p.buf.set target nul }

/-- `skip_whitespace`. -/
def skipWhitespace (p : Pctx) : Pctx :=
  { p with pos := p.pos + ((p.buf.drop p.pos).takeWhile isspace).length }

/-- `pctx_str`. -/
def str (p : Pctx) (i : ℕ) : Str := (p.buf.drop i).takeWhile (· ≠ nul)

/-- `next_arg`: the context after it and where the argument is. -/
def nextArg (fuel : ℕ) (required name package : Bool) (p : Pctx) :
    Except LexError (Pctx × ℕ) :=
  let p := p.skipWhitespace
  let val := p.pos
  let parsed : Except LexError Pctx :=
    if p.cur = ';' then .ok { p with buf := p.buf.set p.pos nul, pos := p.pos + 1 }
    else parseStr fresh fuel p val
  parsed.bind fun p ↦
    if p.buf.getD val nul = nul then if required then .error .parse else .ok (p, val)
    else if name && !validateStr (p.str val) name package then .error .parse
    else .ok (p, val)

end Pctx

/-! ## Filling the buffer -/

theorem chunk_append (n : ℕ) (file : Str) : (chunk n file).1 ++ (chunk n file).2 = file := by
  induction n generalizing file with
  | zero => rfl
  | succ n ih =>
      cases file with
      | nil => rfl
      | cons c file =>
          rw [chunk]
          split_ifs
          · rfl
          · rw [List.cons_append, ih]

theorem length_chunk_le (n : ℕ) (file : Str) : (chunk n file).1.length ≤ n := by
  induction n generalizing file with
  | zero => exact le_rfl
  | succ n ih =>
      cases file with
      | nil => exact Nat.zero_le _
      | cons c file =>
          rw [chunk]
          split_ifs
          · exact Nat.succ_le_succ (Nat.zero_le _)
          · exact Nat.succ_le_succ (ih file)

theorem chunk_ne_nil {n : ℕ} (hn : n ≠ 0) {file : Str} (h : file ≠ []) : (chunk n file).1 ≠ [] := by
  obtain ⟨n, rfl⟩ := Nat.exists_eq_succ_of_ne_zero hn
  obtain ⟨c, file, rfl⟩ := List.exists_cons_of_ne_nil h
  rw [chunk]
  split_ifs
  · exact List.cons_ne_nil _ _
  · exact List.cons_ne_nil _ _

/-- A chunk is a whole line, or a part of one without its newline. -/
theorem chunk_cases (n : ℕ) (file : Str) :
    ((chunk n file).1 = (getln file).line ∧ (chunk n file).2 = (getln file).file ∧
      (chunk n file).1.getLast? = some '\n') ∨ '\n' ∉ (chunk n file).1 := by
  induction n generalizing file with
  | zero => exact .inr List.not_mem_nil
  | succ n ih =>
      cases file with
      | nil => exact .inr List.not_mem_nil
      | cons c file =>
          rw [chunk, getln]
          by_cases hc : c = '\n'
          · rw [if_pos hc, if_pos hc, hc]
            exact .inl ⟨rfl, rfl, rfl⟩
          · rw [if_neg hc, if_neg hc]
            rcases ih file with ⟨hline, hfile, hlast⟩ | hnl
            · refine .inl ⟨congrArg (c :: ·) hline, hfile, ?_⟩
              rw [List.getLast?_cons, hlast]
              rfl
            · exact .inr fun hmem ↦ (List.mem_cons.mp hmem).elim (fun h ↦ hc h.symm) hnl

theorem strlen_of_notMem {s : Str} (h : nul ∉ s) : strlen s = s.length := by
  have hall : s.takeWhile (· ≠ nul) = s := by
    rw [List.takeWhile_eq_self_iff]
    exact fun c hc ↦ by simpa using fun heq : c = nul ↦ h (heq ▸ hc)
  rw [strlen, hall]

theorem store_append (pre s junk : Str) :
    store (pre ++ junk) pre.length s = pre ++ s ++ junk.drop s.length := by
  rw [store, List.take_left, ← List.drop_drop, List.drop_left]

/-- A NUL stands behind the first characters of the buffer and the line. -/
def Holds (buf pre line : Str) : Prop := ∃ junk, buf = pre ++ line ++ nul :: junk

theorem getD_append_cons (pre s : Str) (c : Char) : (pre ++ c :: s).getD pre.length nul = c := by
  rw [List.getD_eq_getElem?_getD, List.getElem?_append_right le_rfl, Nat.sub_self]
  rfl

theorem getD_last {pre s t : Str} {c : Char} (hs : s.getLast? = some c) :
    (pre ++ s ++ t).getD (pre.length + s.length - 1) nul = c := by
  obtain ⟨s, rfl⟩ : ∃ s', s = s' ++ [c] := List.getLast?_eq_some_iff.mp hs
  have hindex : pre.length + (s ++ [c]).length - 1 = (pre ++ s).length := by
    simp only [List.length_append, List.length_cons, List.length_nil]
    omega
  have hsplit : pre ++ (s ++ [c]) ++ t = (pre ++ s) ++ c :: t := by simp
  rw [hindex, hsplit, getD_append_cons]

section Getln

variable (fresh : ℕ → Char)

/-- The loop of `uci_getln` reads a line of the stream behind the first characters of the
buffer, whatever the size of that. -/
theorem getlnLoop_spec {fuel : ℕ} {p : Pctx} {pre junk : Str} (hbuf : p.buf = pre ++ junk)
    (hroom : 2 ≤ junk.length) (hfile : nul ∉ (getln p.file).line) (hfuel : p.file.length < fuel) :
    ∃ p', p.getlnLoop fresh fuel pre.length = some p' ∧ p'.pos = p.pos ∧
      p'.file = (getln p.file).file ∧ Holds p'.buf pre (getln p.file).line := by
  induction fuel generalizing p pre junk with
  | zero => exact absurd hfuel (Nat.not_lt_zero _)
  | succ fuel ih =>
      have hstore : store p.buf pre.length [nul] = pre ++ (nul :: junk.drop 1) := by
        rw [hbuf, store_append, List.append_assoc]
        rfl
      have hlen : (pre ++ (nul :: junk.drop 1)).length - pre.length = junk.length := by
        simp only [List.length_append, List.length_cons, List.length_drop]
        omega
      rw [Pctx.getlnLoop]
      dsimp only
      rw [hstore, hlen, fgets, if_neg (by omega)]
      by_cases hnil : p.file = []
      · rw [if_pos hnil]
        refine ⟨_, rfl, rfl, ?_, junk.drop 1, ?_⟩
        · rw [hnil]
          rfl
        · rw [hnil]
          exact (List.append_nil pre).symm ▸ rfl
      · rw [if_neg hnil]
        have happ := chunk_append (junk.length - 1) p.file
        have hle := length_chunk_le (junk.length - 1) p.file
        have hne := chunk_ne_nil (show junk.length - 1 ≠ 0 by omega) hnil
        have hcases := chunk_cases (junk.length - 1) p.file
        generalize chunk (junk.length - 1) p.file = r at happ hle hne hcases
        obtain ⟨s, file⟩ := r
        dsimp only at happ hle hne hcases ⊢
        have hnul : nul ∉ s := by
          rcases hcases with ⟨hline, -, -⟩ | hnl
          · rwa [hline]
          · rw [← happ, getln_append hnl] at hfile
            exact fun h ↦ hfile (List.mem_append_left _ h)
        have hpos : 0 < s.length := List.length_pos_iff.mpr hne
        have hbuf₂ : store (pre ++ (nul :: junk.drop 1)) pre.length (s ++ [nul]) =
            pre ++ s ++ nul :: (nul :: junk.drop 1).drop (s ++ [nul]).length := by
          rw [store_append]
          simp
        generalize (nul :: junk.drop 1).drop (s ++ [nul]).length = junk₂ at hbuf₂
        rw [hbuf₂, strlen_of_notMem hnul, if_neg hpos.ne']
        obtain ⟨c, hc⟩ : ∃ c, s.getLast? = some c :=
          ⟨_, List.getLast?_eq_some_getLast hne⟩
        rw [getD_last hc]
        rcases hcases with ⟨hline, hrest, hlast⟩ | hnl
        · rw [if_pos (Option.some.inj (hc.symm.trans hlast))]
          exact ⟨_, rfl, rfl, hrest, junk₂, by rw [hline]⟩
        · have hcn : c ≠ '\n' := fun h ↦ hnl (h ▸ List.mem_of_getLast? hc)
          rw [if_neg hcn]
          have hgetln : getln p.file = ⟨s ++ (getln file).line, (getln file).file⟩ := by
            rw [← happ, getln_append hnl]
          have hgrow : ∃ more, grow fresh (pre ++ s ++ nul :: junk₂) =
              pre ++ s ++ (nul :: junk₂ ++ more) ∧ 1 ≤ more.length := by
            refine ⟨_, List.append_assoc _ _ _, ?_⟩
            simp only [List.length_map, List.length_range, List.length_append, List.length_cons]
            omega
          obtain ⟨more, hgrow, hmore⟩ := hgrow
          have hroom₂ : 2 ≤ (nul :: junk₂ ++ more).length := by
            simp only [List.length_append, List.length_cons]
            omega
          have hfile₂ : nul ∉ (getln file).line := by
            rw [hgetln] at hfile
            exact fun h ↦ hfile (List.mem_append_right s h)
          have hfuel₂ : file.length < fuel := by
            rw [← happ, List.length_append] at hfuel
            omega
          obtain ⟨p', hp', hpos', hfile', hholds⟩ :=
            ih (p := ⟨grow fresh (pre ++ s ++ nul :: junk₂), p.pos, file⟩) hgrow hroom₂
              hfile₂ hfuel₂
          rw [List.length_append] at hp'
          refine ⟨p', hp', hpos', hfile'.trans (by rw [hgetln]), ?_⟩
          rw [hgetln]
          obtain ⟨junk₃, hjunk₃⟩ := hholds
          exact ⟨junk₃, by rw [hjunk₃, List.append_assoc pre]⟩

/-- `uci_getln` reads a line of the stream behind the first characters of the buffer. -/
theorem uciGetln_spec {p : Pctx} {pre junk : Str} (hbuf : p.buf = pre ++ nul :: junk)
    (hfile : nul ∉ (getln p.file).line) :
    ∃ p', p.uciGetln fresh pre.length = some p' ∧ p'.pos = p.pos ∧
      p'.file = (getln p.file).file ∧ Holds p'.buf pre (getln p.file).line := by
  have hne : p.buf ≠ [] := by simp [hbuf]
  rw [Pctx.uciGetln, if_neg hne]
  by_cases hsize : p.buf.length - 1 ≤ pre.length
  · rw [if_pos hsize]
    have hgrow : grow fresh p.buf =
        pre ++ (nul :: junk ++ (List.range p.buf.length).map fun i ↦ fresh (p.buf.length + i)) := by
      rw [← List.append_assoc, ← hbuf]
      rfl
    refine getlnLoop_spec fresh (p := { p with buf := grow fresh p.buf }) hgrow ?_ hfile
      (Nat.lt_succ_self _)
    simp only [List.length_append, List.length_cons, List.length_map, List.length_range, hbuf]
    omega
  · rw [if_neg hsize]
    refine getlnLoop_spec fresh hbuf ?_ hfile (Nat.lt_succ_self _)
    rw [hbuf, List.length_append, List.length_cons] at hsize
    rw [List.length_cons]
    omega

end Getln

/-! ## The place of the lexer in the buffer -/

/-- The lexer stands before `line` in the buffer: `arg` is what it has read of an argument,
and `gap` what lies between that and the text ahead. -/
structure At (p : Pctx) (target : ℕ) (pre arg gap line : Str) : Prop where
  holds : Holds p.buf (pre ++ arg ++ gap) line
  target_eq : target = (pre ++ arg).length
  pos_eq : p.pos = (pre ++ arg ++ gap).length

/-- The line is the first one of the text ahead. -/
def Full (line file : Str) : Prop := getln (line ++ file) = ⟨line, file⟩

theorem full_getln (s : Str) : Full (getln s).line (getln s).file := by
  rw [Full, getln_eq]

theorem Full.tail {c : Char} {line file : Str} (h : Full (c :: line) file) (hc : c ≠ '\n') :
    Full line file := by
  rw [Full, List.cons_append, getln, if_neg hc] at h
  obtain ⟨hline, hfile⟩ := Lex.mk.inj h
  rw [Full]
  exact congrArg₂ Lex.mk (List.cons.inj hline).2 hfile

theorem Full.newline {line file : Str} (h : Full ('\n' :: line) file) : line = [] := by
  rw [Full, List.cons_append, getln, if_pos rfl] at h
  exact (List.cons.inj (Lex.mk.inj h).1).2.symm

/-- A full line is not empty where there is text ahead. -/
theorem Full.eq_cons {line file rest : Str} {d : Char} (h : Full line file)
    (hahead : line ++ file = d :: rest) : ∃ line', line = d :: line' := by
  rw [Full, hahead, getln] at h
  split_ifs at h
  · exact ⟨[], (Lex.mk.inj h).1.symm⟩
  · exact ⟨_, (Lex.mk.inj h).1.symm⟩

section At

variable {p : Pctx} {target : ℕ} {pre arg gap line : Str} {c : Char}

theorem At.cur_eq (h : At p target pre arg gap (c :: line)) : p.cur = c := by
  obtain ⟨junk, hbuf⟩ := h.holds
  rw [Pctx.cur, hbuf, h.pos_eq, List.append_assoc _ (c :: line), List.cons_append, getD_append_cons]

theorem At.cur_nil (h : At p target pre arg gap []) : p.cur = nul := by
  obtain ⟨junk, hbuf⟩ := h.holds
  rw [Pctx.cur, hbuf, h.pos_eq, List.append_nil, getD_append_cons]

theorem At.skip (h : At p target pre arg gap (c :: line)) :
    At p.skip target pre arg (gap ++ [c]) line where
  holds := by
    obtain ⟨junk, hbuf⟩ := h.holds
    exact ⟨junk, hbuf.trans (by simp)⟩
  target_eq := h.target_eq
  pos_eq := by
    rw [Pctx.skip, h.pos_eq]
    simp only [List.length_append, List.length_cons, List.length_nil]
    omega

/-- The character is copied to the end of the argument, over the gap or over itself. -/
theorem At.addc (h : At p target pre arg gap (c :: line)) :
    ∃ gap', At (p.addc target).1 (p.addc target).2 pre (arg ++ [c]) gap' line := by
  have hcur := h.cur_eq
  obtain ⟨junk, hbuf⟩ := h.holds
  have htarget := h.target_eq
  have hpos := h.pos_eq
  have hset : ∀ x xs, (pre ++ arg ++ x :: xs).set target c = pre ++ arg ++ c :: xs := by
    intro x xs
    rw [htarget, List.set_append_right _ _ le_rfl, Nat.sub_self]
    rfl
  cases gap with
  | nil =>
      refine ⟨[], ⟨junk, ?_⟩, ?_, ?_⟩
      · rw [Pctx.addc, hcur, hbuf, List.append_nil, List.append_assoc, List.cons_append, hset]
        simp
      · rw [Pctx.addc, htarget]
        simp only [List.length_append, List.length_cons, List.length_nil]
        omega
      · rw [Pctx.addc, hpos]
        simp only [List.length_append, List.length_cons, List.length_nil]
        omega
  | cons g gs =>
      refine ⟨gs ++ [c], ⟨junk, ?_⟩, ?_, ?_⟩
      · rw [Pctx.addc, hcur, hbuf, List.append_assoc, List.append_assoc, List.cons_append, hset]
        simp
      · rw [Pctx.addc, htarget]
        simp only [List.length_append, List.length_cons, List.length_nil]
        omega
      · rw [Pctx.addc, hpos]
        simp only [List.length_append, List.length_cons, List.length_nil]
        omega

/-- Where the line is used up, the next one is read behind what is in the buffer. -/
theorem At.fetch (h : At p target pre arg gap []) (fresh : ℕ → Char)
    (hfile : nul ∉ (getln p.file).line) :
    ∃ p', p.fetch fresh = .ok p' ∧ p'.file = (getln p.file).file ∧
      At p' target pre arg gap (getln p.file).line := by
  obtain ⟨junk, hbuf⟩ := h.holds
  rw [List.append_nil] at hbuf
  obtain ⟨p', hp', hpos', hfile', hholds⟩ := uciGetln_spec fresh hbuf hfile
  refine ⟨p', ?_, hfile', hholds, h.target_eq, hpos'.trans h.pos_eq⟩
  rw [Pctx.fetch, h.pos_eq, hp']

end At

/-! ## Quoted text -/

section Quoted

variable {fresh : ℕ → Char} {p : Pctx} {target : ℕ} {pre arg gap line : Str}

theorem notMem_getln {w file : Str} (h : nul ∉ w) : nul ∉ (getln (w ++ '\n' :: file)).line := by
  induction w with
  | nil =>
      rw [List.nil_append, getln, if_pos rfl]
      exact fun hm ↦ absurd (List.mem_singleton.mp hm) (by decide)
  | cons c w ih =>
      obtain ⟨hc, hw⟩ := not_or.mp (List.mem_cons.not.mp h)
      rw [List.cons_append, getln]
      split_ifs
      · exact fun hm ↦ hc (List.mem_singleton.mp hm)
      · exact fun hm ↦ (List.mem_cons.mp hm).elim hc (ih hw)

/-- Inside single quotes the lexer gets to the next character of the text, from the buffer
or from the stream. -/
theorem singleQuote_ready {d : Char} {rest : Str} (h : At p target pre arg gap line)
    (hline : line = [] ∨ Full line p.file) (hahead : line ++ p.file = d :: rest)
    (hd : d ≠ nul) (hnul : nul ∉ (getln (d :: rest)).line) :
    ∃ k p₁ line₁, (∀ fuel, p.parseSingleQuoteLoop fresh (fuel + k) target =
        p₁.parseSingleQuoteLoop fresh fuel target) ∧
      At p₁ target pre arg gap (d :: line₁) ∧ Full (d :: line₁) p₁.file ∧
        line₁ ++ p₁.file = rest := by
  by_cases hnil : line = []
  · subst hnil
    have hfile : nul ∉ (getln p.file).line := by
      rwa [show p.file = d :: rest from hahead]
    obtain ⟨p₁, hfetch, hfile₁, hat⟩ := h.fetch fresh hfile
    have hfull := full_getln p.file
    obtain ⟨line₁, hline₁⟩ := hfull.eq_cons (by rw [getln_eq]; exact hahead)
    have happ : line₁ ++ p₁.file = rest := by
      have heq := getln_eq p.file
      rw [hline₁, ← hfile₁] at heq
      exact (List.cons.inj (heq.trans hahead)).2
    rw [hline₁] at hat hfull
    refine ⟨1, p₁, line₁, fun fuel ↦ ?_, hat, by rw [hfile₁]; exact hfull, happ⟩
    have hcur : p₁.cur ≠ nul := by
      rwa [hat.cur_eq]
    rw [Pctx.parseSingleQuoteLoop, h.cur_nil, if_neg (by decide), if_pos rfl,
      Pctx.fetchQuoted, hfetch]
    change Except.bind (if p₁.cur = nul then _ else _) _ = _
    rw [if_neg hcur]
    rfl
  · have hfull := hline.resolve_left hnil
    obtain ⟨line₁, rfl⟩ := hfull.eq_cons hahead
    exact ⟨0, p, line₁, fun fuel ↦ rfl, h, hfull, (List.cons.inj hahead).2⟩

/-- The text in single quotes is added to the argument. -/
theorem parseSingleQuoteLoop_eq {w rest file : Str} (hw : '\'' ∉ w) (hwnul : nul ∉ w)
    (hrest : nul ∉ rest) (h : At p target pre arg gap line) (hline : line = [] ∨ Full line p.file)
    (hahead : line ++ p.file = w ++ '\'' :: (rest ++ '\n' :: file)) :
    ∃ N p' target' gap' line',
      (∀ fuel, N ≤ fuel → p.parseSingleQuoteLoop fresh fuel target = .ok (p', target')) ∧
      At p' target' pre (arg ++ w) gap' line' ∧ gap' ≠ [] ∧ Full line' p'.file ∧
        line' ++ p'.file = rest ++ '\n' :: file := by
  induction w generalizing p target arg gap line with
  | nil =>
      have hnul : nul ∉ (getln ('\'' :: (rest ++ '\n' :: file))).line :=
        notMem_getln (w := '\'' :: rest) fun hm ↦ (List.mem_cons.mp hm).elim (by decide) hrest
      obtain ⟨k, p₁, line₁, hloop, hat, hfull, happ⟩ :=
        singleQuote_ready h hline hahead (by decide) hnul
      refine ⟨k + 1, p₁.skip, target, gap ++ ['\''], line₁, fun fuel hfuel ↦ ?_, ?_,
        by simp, hfull.tail (by decide), happ⟩
      · obtain ⟨n, rfl⟩ := Nat.exists_eq_add_of_le hfuel
        rw [show k + 1 + n = n + 1 + k by omega, hloop, Pctx.parseSingleQuoteLoop, hat.cur_eq,
          if_pos rfl]
      · rw [List.append_nil]
        exact hat.skip
  | cons c w ih =>
      obtain ⟨hc, hw⟩ := not_or.mp (List.mem_cons.not.mp hw)
      obtain ⟨hcn, hwnul⟩ := not_or.mp (List.mem_cons.not.mp hwnul)
      have hsplit : c :: w ++ '\'' :: (rest ++ '\n' :: file) =
          (c :: w ++ '\'' :: rest) ++ '\n' :: file := by
        simp
      have hall : nul ∉ c :: w ++ '\'' :: rest := by
        simp only [List.cons_append, List.mem_cons, List.mem_append, not_or]
        exact ⟨hcn, hwnul, by decide, hrest⟩
      have hnul : nul ∉ (getln (c :: (w ++ '\'' :: (rest ++ '\n' :: file)))).line := by
        rw [← List.cons_append, hsplit]
        exact notMem_getln hall
      obtain ⟨k, p₁, line₁, hloop, hat, hfull, happ⟩ :=
        singleQuote_ready h hline hahead (Ne.symm hcn) hnul
      obtain ⟨gap₁, hat₁⟩ := hat.addc
      have hline₁ : line₁ = [] ∨ Full line₁ (p₁.addc target).1.file := by
        by_cases hn : c = '\n'
        · subst hn
          exact .inl hfull.newline
        · exact .inr (hfull.tail hn)
      obtain ⟨N, p', target', gap', line', hrun, hat', hgap', hfull', happ'⟩ :=
        ih hw hwnul hat₁ hline₁ happ
      refine ⟨N + 1 + k, p', target', gap', line', fun fuel hfuel ↦ ?_, ?_, hgap', hfull', happ'⟩
      · obtain ⟨n, rfl⟩ := Nat.exists_eq_add_of_le hfuel
        rw [show N + 1 + k + n = N + n + 1 + k by omega, hloop, Pctx.parseSingleQuoteLoop,
          hat.cur_eq, if_neg (Ne.symm hc), if_neg (Ne.symm hcn)]
        exact hrun _ (Nat.le_add_right _ _)
      · rwa [List.append_assoc] at hat'

/-- The text between two quotes of a value, and what is behind them. -/
theorem quoted_append (w v : Str) (hw : '\'' ∉ w) :
    quoted (w ++ '\'' :: v) = '\'' :: (w ++ '\'' :: '\\' :: '\'' :: quoted v) := by
  have happ : uciEscape (w ++ '\'' :: v) = uciEscape w ++ uciEscape ('\'' :: v) :=
    List.flatMap_append
  rw [quoted, happ, uciEscape_eq_self hw, uciEscape_cons, quoted]
  simp

theorem notMem_quoted {v : Str} (hv : nul ∉ v) : nul ∉ quoted v := by
  intro hm
  rcases List.mem_cons.mp hm with h | hm
  · exact absurd h (by decide)
  · rcases List.mem_append.mp hm with hm | hm
    · obtain ⟨c, hc, hcm⟩ := List.mem_flatMap.mp hm
      split_ifs at hcm
      · exact absurd hcm (by decide)
      · exact hv (List.mem_singleton.mp hcm ▸ hc)
    · exact absurd (List.mem_singleton.mp hm) (by decide)

/-- `parse_str` reads a quoted value, and ends at the newline behind it. -/
theorem parseStrLoop_quoted (fresh : ℕ → Char) {v file : Str} (hv : nul ∉ v)
    (h : At p target pre arg gap line) (hfull : Full line p.file)
    (hahead : line ++ p.file = quoted v ++ '\n' :: file) :
    ∃ N p' target' gap',
      (∀ fuel, N ≤ fuel → p.parseStrLoop fresh fuel target = .ok (p', target', true)) ∧
      At p' target' pre (arg ++ v) gap' ['\n'] ∧ gap' ≠ [] ∧ p'.file = file := by
  generalize hn : v.length = n
  induction n using Nat.strong_induction_on generalizing v p target arg gap line with
  | _ n ih =>
      by_cases hquote : '\'' ∈ v
      · -- The quotes are closed, the quote of the value is added, and they are opened again.
        obtain ⟨w, v₂, rfl, hw⟩ := List.eq_append_cons_of_mem hquote
        obtain ⟨hwnul, hv₂⟩ : nul ∉ w ∧ nul ∉ v₂ :=
          ⟨fun hm ↦ hv (List.mem_append_left _ hm),
            fun hm ↦ hv (List.mem_append_right _ (List.mem_cons_of_mem _ hm))⟩
        rw [quoted_append w v₂ hw] at hahead
        have hahead' : line ++ p.file =
            '\'' :: (w ++ '\'' :: ('\\' :: '\'' :: quoted v₂ ++ '\n' :: file)) := by
          rw [hahead]
          simp
        obtain ⟨line₀, rfl⟩ := hfull.eq_cons hahead'
        have hrest : nul ∉ '\\' :: '\'' :: quoted v₂ := by
          simp only [List.mem_cons, not_or]
          exact ⟨by decide, by decide, notMem_quoted hv₂⟩
        obtain ⟨N₁, p₁, t₁, gap₁, line₁, hrun₁, hat₁, -, hfull₁, happ₁⟩ :=
          parseSingleQuoteLoop_eq hw hwnul hrest h.skip (.inr (hfull.tail (by decide)))
            (List.cons.inj hahead').2
        obtain ⟨line₂, rfl⟩ := hfull₁.eq_cons happ₁
        have hfull₂ := hfull₁.tail (by decide)
        obtain ⟨line₃, rfl⟩ := hfull₂.eq_cons (List.cons.inj happ₁).2
        have hat₂ := hat₁.skip
        obtain ⟨gap₃, hat₃⟩ := hat₂.addc
        have happ₃ : line₃ ++ (p₁.skip.addc t₁).1.file = quoted v₂ ++ '\n' :: file :=
          (List.cons.inj (List.cons.inj happ₁).2).2
        have hfull₃ : Full line₃ (p₁.skip.addc t₁).1.file := hfull₂.tail (by decide)
        have hopen : quoted v₂ ++ '\n' :: file = '\'' ::
            (uciEscape v₂ ++ '\'' :: '\n' :: file) := by
          simp [quoted]
        obtain ⟨line₄, rfl⟩ := hfull₃.eq_cons (happ₃.trans hopen)
        obtain ⟨N₂, p', t', gap', hrun₂, hat', hgap', hfile'⟩ :=
          ih v₂.length (by rw [← hn, List.length_append, List.length_cons]; omega) hv₂ hat₃ hfull₃
            happ₃ rfl
        refine ⟨max N₁ N₂ + 2, p', t', gap', fun fuel hfuel ↦ ?_, ?_, hgap', hfile'⟩
        · obtain ⟨m, rfl⟩ := Nat.exists_eq_add_of_le hfuel
          have hback : p₁.parseBackslash fresh = .ok (p₁.skip, true) := by
            have hcur := hat₂.cur_eq
            rw [Pctx.parseBackslash, hcur, if_neg]
            rintro (heq | heq | ⟨heq, -⟩)
            · exact absurd heq (by decide)
            · exact absurd heq (by decide)
            · exact absurd heq (by decide)
          rw [show max N₁ N₂ + 2 + m = max N₁ N₂ + m + 1 + 1 by omega, Pctx.parseStrLoop]
          dsimp only
          rw [h.cur_eq, if_pos rfl, hrun₁ _ (by omega)]
          change (if p₁.cur ≠ nul ∧ isspace p₁.cur = false then _ else _) = _
          rw [hat₁.cur_eq, if_pos (by decide), Pctx.parseStrLoop]
          dsimp only
          rw [hat₁.cur_eq, if_neg (by decide), if_neg (by decide), if_neg (by decide),
            if_neg (by decide), if_neg (by decide), if_pos rfl, hback]
          change (if (p₁.skip.addc t₁).1.cur ≠ nul ∧ isspace (p₁.skip.addc t₁).1.cur = false then _
            else _) = _
          rw [hat₃.cur_eq, if_pos (by decide)]
          exact hrun₂ _ (by omega)
        · simpa using hat'
      · have hahead' : line ++ p.file = '\'' :: (v ++ '\'' :: ([] ++ '\n' :: file)) := by
          rw [hahead, quoted, uciEscape_eq_self hquote]
          simp
        obtain ⟨line₀, rfl⟩ := hfull.eq_cons hahead'
        obtain ⟨N, p', t', gap', line', hrun, hat', hgap', hfull', happ'⟩ :=
          parseSingleQuoteLoop_eq hquote hv List.not_mem_nil h.skip (.inr (hfull.tail (by decide)))
            (List.cons.inj hahead').2
        obtain ⟨line₁, rfl⟩ := hfull'.eq_cons happ'
        obtain rfl := hfull'.newline
        refine ⟨N + 1, p', t', gap', fun fuel hfuel ↦ ?_, hat', hgap', (List.cons.inj happ').2⟩
        obtain ⟨m, rfl⟩ := Nat.exists_eq_add_of_le hfuel
        rw [show N + 1 + m = N + m + 1 by omega, Pctx.parseStrLoop]
        dsimp only
        rw [h.cur_eq, if_pos rfl, hrun _ (Nat.le_add_right _ _)]
        change (if p'.cur ≠ nul ∧ isspace p'.cur = false then _ else _) = _
        rw [hat'.cur_eq, if_neg (by decide)]

end Quoted

/-! ## The argument -/

section NextArg

variable {fresh : ℕ → Char} {p : Pctx} {pre arg gap line : Str} {target : ℕ}

/-- The final NUL of a quoted argument falls into the gap behind it. -/
theorem At.terminate (h : At p target pre arg gap []) (hgap : gap ≠ []) (harg : nul ∉ arg) :
    ({ p with buf := p.buf.set target nul } : Pctx).str pre.length = arg ∧
      ({ p with buf := p.buf.set target nul } : Pctx).buf.getD pre.length nul = arg.headD nul ∧
        ({ p with buf := p.buf.set target nul } : Pctx).cur = nul := by
  obtain ⟨g, gs, rfl⟩ := List.exists_cons_of_ne_nil hgap
  obtain ⟨junk, hbuf⟩ := h.holds
  have hset : p.buf.set target nul = pre ++ (arg ++ nul :: (gs ++ nul :: junk)) := by
    have hsplit : p.buf = (pre ++ arg) ++ g :: (gs ++ nul :: junk) := hbuf.trans (by simp)
    rw [hsplit, h.target_eq, List.set_append_right _ _ le_rfl, Nat.sub_self, List.append_assoc]
    rfl
  have hpos : p.pos = (pre ++ arg ++ nul :: gs).length := by
    rw [h.pos_eq]
    simp
  have hsplit : pre ++ (arg ++ nul :: (gs ++ nul :: junk)) = pre ++ arg ++ nul :: gs ++ nul ::
      junk := by
    simp
  refine ⟨?_, ?_, ?_⟩
  · have hall : ∀ c ∈ arg, decide (c ≠ nul) = true := fun c hc ↦ by
      simpa using fun heq : c = nul ↦ harg (heq ▸ hc)
    rw [Pctx.str, hset, List.drop_left, List.takeWhile_append_of_pos hall,
      List.takeWhile_cons_of_neg (by decide), List.append_nil]
  · change (p.buf.set target nul).getD pre.length nul = _
    rw [hset]
    cases arg with
    | nil => rw [List.nil_append, getD_append_cons, List.headD_nil]
    | cons c arg => rw [List.cons_append, getD_append_cons, List.headD_cons]
  · change (p.buf.set target nul).getD p.pos nul = nul
    rw [hset, hsplit, hpos, getD_append_cons]

/-- The checks of `next_arg` on an argument. -/
def Refused (required name package : Bool) (arg : Str) : Prop :=
  (arg = [] ∧ required = true) ∨ (arg ≠ [] ∧ name = true ∧ validateStr arg name package = false)

theorem checked_of_refused {required name package : Bool} {arg : Str}
    (h : Refused required name package arg) :
    checked required name package arg = .error .parse := by
  rw [checked]
  rcases h with ⟨rfl, hreq⟩ | ⟨hne, hname, hinvalid⟩
  · rw [if_pos rfl, if_pos hreq]
  · rw [if_neg hne, if_pos (by rw [hinvalid, hname]; rfl)]

theorem checked_of_not_refused {required name package : Bool} {arg : Str}
    (h : ¬Refused required name package arg) : checked required name package arg = .ok arg := by
  rw [checked]
  by_cases hnil : arg = []
  · have hreq : ¬required = true := fun hreq ↦ h (.inl ⟨hnil, hreq⟩)
    rw [if_pos hnil, if_neg hreq]
  · have hvalid : ¬(name && !validateStr arg name package) = true := by
      intro hinvalid
      rw [Bool.and_eq_true, Bool.not_eq_true'] at hinvalid
      exact h (.inr ⟨hnil, hinvalid⟩)
    rw [if_neg hnil, if_neg hvalid]

/-- `next_arg` on a quoted value, with its checks apart. -/
theorem nextArg_quoted_spec (fresh : ℕ → Char) {v file : Str} (hv : nul ∉ v)
    (hbuf : Holds p.buf pre line) (hpos : p.pos = pre.length) (hline : Full line p.file)
    (hahead : line ++ p.file = quoted v ++ '\n' :: file) (required name package : Bool) :
    ∃ N p', p'.str pre.length = v ∧ p'.cur = nul ∧ p'.file = file ∧ ∀ fuel, N ≤ fuel →
      p.nextArg fresh fuel required name package =
        ((checked required name package v).mapError fun _ ↦ .parse).map fun _ ↦
          (p', pre.length) := by
  have hat : At p pre.length pre [] [] line :=
    ⟨by simpa using hbuf, by simp, by simpa using hpos⟩
  obtain ⟨N, p₁, t₁, gap₁, hrun, hat₁, hgap₁, hfile₁⟩ :=
    parseStrLoop_quoted fresh hv hat hline hahead
  have hat₂ := hat₁.skip
  obtain ⟨hstr, hhead, hcur⟩ := hat₂.terminate (by simp) hv
  rw [List.nil_append] at hstr hhead
  have hopen : quoted v ++ '\n' :: file = '\'' :: (uciEscape v ++ '\'' :: '\n' :: file) := by
    simp [quoted]
  obtain ⟨line₀, rfl⟩ := hline.eq_cons (hahead.trans hopen)
  have hskip : p.skipWhitespace = p := by
    obtain ⟨junk, hjunk⟩ := hbuf
    have hdrop : p.buf.drop p.pos = '\'' :: line₀ ++ nul :: junk := by
      rw [hjunk, hpos, List.append_assoc, List.drop_left]
    rw [Pctx.skipWhitespace, hdrop, List.cons_append, List.takeWhile_cons_of_neg (by decide)]
    rfl
  have hparse : ∀ fuel, N ≤ fuel → p.parseStr fresh fuel pre.length =
      .ok { p₁.skip with buf := p₁.skip.buf.set t₁ nul } := by
    intro fuel hfuel
    rw [Pctx.parseStr, hrun fuel hfuel]
    have hnl : p₁.cur ≠ nul ∧ true = true := ⟨by rw [hat₁.cur_eq]; decide, rfl⟩
    change Except.ok _ = _
    dsimp only
    rw [if_pos hnl]
  have hfile : ({ p₁.skip with buf := p₁.skip.buf.set t₁ nul } : Pctx).file = file := hfile₁
  obtain ⟨p', hp'⟩ : ∃ p', p' = ({ p₁.skip with buf := p₁.skip.buf.set t₁ nul } : Pctx) := ⟨_, rfl⟩
  rw [← hp'] at hstr hhead hcur hparse hfile
  refine ⟨N, p', hstr, hcur, hfile, fun fuel hfuel ↦ ?_⟩
  have hnext : p.nextArg fresh fuel required name package =
      if p'.buf.getD pre.length nul = nul then
        if required then .error .parse else .ok (p', pre.length)
      else if name && !validateStr (p'.str pre.length) name package then .error .parse
      else .ok (p', pre.length) := by
    rw [Pctx.nextArg, hskip, hat.cur_eq, if_neg (by decide), hpos, hparse fuel hfuel]
    rfl
  have hnil : v.headD nul = nul ↔ v = [] := by
    cases v with
    | nil => exact ⟨fun _ ↦ rfl, fun _ ↦ rfl⟩
    | cons c v =>
        have hc : c ≠ nul := fun h ↦ hv (h ▸ List.mem_cons_self)
        exact ⟨fun h ↦ absurd h hc, fun h ↦ absurd h (List.cons_ne_nil c v)⟩
  rw [hnext, hhead, hstr, checked]
  simp only [hnil]
  split_ifs
  · rfl
  · rfl
  · rfl
  · rfl

/-- The lexer gives back the text that was quoted, whatever the size of the buffer and
wherever it has to be filled, and ends at the end of the buffered text. -/
theorem nextArg_quoted (fresh : ℕ → Char) {v file : Str} (hv : nul ∉ v)
    (hbuf : Holds p.buf pre line) (hpos : p.pos = pre.length) (hline : Full line p.file)
    (hahead : line ++ p.file = quoted v ++ '\n' :: file) (required name package : Bool) :
    ∃ N p', p'.str pre.length = v ∧ p'.cur = nul ∧ p'.file = file ∧
      (¬Refused required name package v → ∀ fuel, N ≤ fuel →
        p.nextArg fresh fuel required name package = .ok (p', pre.length)) ∧
      (Refused required name package v → ∀ fuel, N ≤ fuel →
        p.nextArg fresh fuel required name package = .error .parse) := by
  obtain ⟨N, p', hstr, hcur, hfile, hnext⟩ :=
    nextArg_quoted_spec fresh hv hbuf hpos hline hahead required name package
  refine ⟨N, p', hstr, hcur, hfile, fun hok fuel hfuel ↦ ?_, fun hbad fuel hfuel ↦ ?_⟩
  · rw [hnext fuel hfuel, checked_of_not_refused hok]
    rfl
  · rw [hnext fuel hfuel, checked_of_refused hbad]
    rfl

/-- What is left of the line, and of the stream. -/
def Pctx.lex (p : Pctx) : Lex := ⟨p.str p.pos, p.file⟩

end NextArg

/-- A context whose buffer has no room for a second line. -/
def smallPctx : Pctx where
  buf := ['\'', 'i', '\'', '\\', '\'', '\'', '\n', nul]
  pos := 0
  file := ['#', '\'', '\n', 'x']

/-- A value with a quote and a newline is read from two lines. -/
theorem nextArg_quoted_small :
    ∃ N p', p'.str 0 = ['i', '\'', '\n', '#'] ∧ p'.cur = nul ∧ p'.file = ['x'] ∧
      (¬Refused false false false ['i', '\'', '\n', '#'] → ∀ fuel, N ≤ fuel →
        smallPctx.nextArg (fun _ ↦ 'z') fuel false false false = .ok (p', 0)) ∧
      (Refused false false false ['i', '\'', '\n', '#'] → ∀ fuel, N ≤ fuel →
        smallPctx.nextArg (fun _ ↦ 'z') fuel false false false = .error .parse) := by
  have hbuf : Holds smallPctx.buf [] ['\'', 'i', '\'', '\\', '\'', '\'', '\n'] := ⟨[], rfl⟩
  exact nextArg_quoted (fun _ ↦ 'z') (by decide) hbuf rfl rfl rfl false false false

end MiniPi.Uci
