import MiniPi.Env.Crlf

/-!
# The import in its buffer

`himport_r` parses a copy of the text in place: names and values are terminated and unescaped where
they stand.  Here the copy is an array of bytes, and a read or a write that misses it gives `none`.
The text model reads the same items.
-/

namespace MiniPi.Env

/-! ## The loops -/

/-- A write to `data[i]`. -/
def putByte (data : Str) (i : ℕ) (c : UInt8) : Option Str :=
  if i < data.length then some (data.set i c) else none

/-- A loop that goes on while the byte at `dp` passes a test, for at most `fuel` turns. -/
def skipWhile (p : UInt8 → Bool) (data : Str) : ℕ → ℕ → Option ℕ
  | 0, _ => none
  | fuel + 1, dp => do
    let c ← data[dp]?
    if p c then skipWhile p data fuel (dp + 1) else some dp

/-- A C string that starts at `data[i]`; its NUL has to be in the copy. -/
def cString (data : Str) (i : ℕ) : Option Str :=
  if nul ∈ data.drop i then some ((data.drop i).takeWhile (· != nul)) else none

/-- A backslash at `dp` is passed, unless it is the last byte. -/
def skipEscape (data : Str) (dp : ℕ) (c : UInt8) : Option ℕ :=
  if c = chr '\\' then (data[dp + 1]?).map fun d ↦ if d ≠ nul then dp + 1 else dp
  else some dp

/-- The loop that removes escapes from a value: the copy, `sp` and `dp`. -/
def valueLoop (sep : UInt8) : ℕ → Str → ℕ → ℕ → Option (Str × ℕ × ℕ)
  | 0, _, _, _ => none
  | fuel + 1, data, sp, dp => do
    let c ← data[dp]?
    if c = nul ∨ c = sep then some (data, sp, dp)
    else
      let dp ← skipEscape data dp c
      let c ← data[dp]?
      let data ← putByte data sp c
      valueLoop sep fuel data (sp + 1) (dp + 1)

/-- The test for entries that are no assignments. -/
def deleteCandidate (sep : UInt8) (data : Str) (dp : ℕ) : Option Bool := do
  let c ← data[dp]?
  if c = nul then some true
  else
    let d ← data[dp + 1]?
    some (d = nul ∨ c = sep ∨ d = sep)

/-- The `=` of `name=` is overwritten. -/
def clearEquals (data : Str) (dp : ℕ) (c : UInt8) : Option (Str × ℕ) :=
  if c = chr '=' then (putByte data dp nul).map (·, dp + 1) else some (data, dp)

/-- One round of the loop of `himport_r`: what it finds, with the strings at `name` and `value`, the
copy and `dp`.  The loops inside are given as many turns as the copy has bytes. -/
def readRound (sep : UInt8) (data : Str) (dp : ℕ) : Option (Item × Str × ℕ) := do
  let name ← skipWhile isblank data data.length dp
  let c ← data[name]?
  if c = chr '#' then
    let dp ← skipWhile (fun c ↦ c != nul && c != sep) data data.length name
    some (.comment, data, dp + 1)
  else
    let dp ← skipWhile (inName sep) data data.length name
    if ← deleteCandidate sep data dp then
      let c ← data[dp]?
      let (data, dp) ← clearEquals data dp c
      let data ← putByte data dp nul
      let key ← cString data name
      some (.delete key, data, dp + 1)
    else
      let data ← putByte data dp nul
      let value := dp + 1
      let (data, sp, dp) ← valueLoop sep data.length data value value
      let data ← putByte data sp nul
      let key ← cString data name
      let val ← cString data value
      some (.enter key val, data, dp + 1)

/-- The loop of `himport_r`, up to its end or to an assignment to the empty name. -/
def readLoop (sep : UInt8) (size : ℕ) : ℕ → Str → ℕ → Option (List Item × Bool)
  | 0, _, _ => none
  | fuel + 1, data, dp => do
    let (item, data, dp) ← readRound sep data dp
    if item.stops then some ([], true)
    else if dp < size then
      let c ← data[dp]?
      if c ≠ nul then (readLoop sep size fuel data dp).map (Prod.map (item :: ·) id)
      else some ([item], false)
    else some ([item], false)

/-- There is a carriage return at `dp`, in front of a line feed. -/
def crBeforeLf (size : ℕ) (data : Str) (dp : ℕ) (c : UInt8) : Option Bool :=
  if c = chr '\r' ∧ dp < size - 1 then (data[dp + 1]?).map (· == chr '\n') else some false

/-- The loop for `crlf_is_lf`: the copy, and the number of carriage returns that are dropped. -/
def crlfLoop (size : ℕ) : ℕ → Str → ℕ → ℕ → Option (Str × ℕ)
  | 0, _, _, _ => none
  | fuel + 1, data, dp, ignored =>
    if dp < size then do
      let c ← data[dp]?
      if c = nul then some (data, ignored)
      else
        if ← crBeforeLf size data dp c then crlfLoop size fuel data (dp + 1) (ignored + 1)
        else
          let data ← putByte data (dp - ignored) c
          crlfLoop size fuel data (dp + 1) ignored
    else some (data, ignored)

/-- The copy and the number of carriage returns that are dropped from it. -/
def copyBytes (fuel : ℕ) (crlf : Bool) (env : Str) : Option (Str × ℕ) :=
  if crlf then crlfLoop env.length fuel (env ++ [nul]) 0 0 else some (env ++ [nul], 0)

/-- What `himport_r` reads from its copy of the text; the loops are given `fuel` turns. -/
def readBuffer (fuel : ℕ) (sep : UInt8) (crlf : Bool) (env : Str) : Option (List Item × Bool) :=
  if env.length = 0 then some ([], true)
  else do
    let (data, ignored) ← copyBytes fuel crlf env
    readLoop sep (env.length - ignored) fuel data 0

/-- `himport_r` on its copy of the text; `none` is a read or a write outside of the copy, or a loop
that needs more than `fuel` turns.  What the table holds has no effect on what is read, so the items
are read before they are entered. -/
def himportBuffer (fuel : ℕ) (hooks : Hooks) (old : Option Htab) (env : Str) (sep : UInt8)
    (noclear crlf : Bool) (vars : List Str) : Option (Option (Bool × Htab)) :=
  let old := if noclear = false ∧ vars = [] then none else old
  match old.or (hcreateR (importEntries env.length)) with
  | none => some none
  | some htab =>
    (readBuffer fuel sep crlf env).map fun read ↦
      importResult noclear hooks read env ⟨htab, vars.map some⟩

/-! ## Reading -/

section Reading

variable {sep : UInt8} {pre rest : Str}

/-- The copy from some place on; it ends in the NUL behind the text. -/
def Terminated (rest : Str) : Prop := ∃ x, rest = x ++ [nul]

theorem Terminated.nul_mem (h : Terminated rest) : nul ∈ rest := by
  obtain ⟨x, rfl⟩ := h
  simp

theorem Terminated.of_suffix {rest' : Str} (h : Terminated rest) (hsuf : rest' <:+ rest)
    (hne : rest' ≠ []) : Terminated rest' := by
  obtain ⟨x, rfl⟩ := h
  obtain ⟨y, hy⟩ := hsuf
  obtain ⟨z, c, rfl⟩ := (List.eq_nil_or_concat' rest').resolve_left hne
  rw [← List.append_assoc] at hy
  obtain ⟨-, hc⟩ := List.append_inj' hy rfl
  exact ⟨z, by rw [hc]⟩

theorem getElem?_append_add (pre rest : Str) (i : ℕ) :
    (pre ++ rest)[pre.length + i]? = rest[i]? := by
  rw [List.getElem?_append_right (Nat.le_add_right ..), Nat.add_sub_cancel_left]

theorem getElem?_append_length (pre rest : Str) : (pre ++ rest)[pre.length]? = rest[0]? :=
  getElem?_append_add pre rest 0

/-- A loop over bytes ends at the first one that fails the test, the NUL at the latest. -/
theorem skipWhile_eq {p : UInt8 → Bool} (hp : p nul = false) (h : nul ∈ rest) {fuel : ℕ}
    (hfuel : rest.length ≤ fuel) : skipWhile p (pre ++ rest) fuel pre.length =
      some (pre ++ rest.takeWhile p).length := by
  induction rest generalizing pre fuel with
  | nil => cases h
  | cons c rest ih =>
      obtain ⟨fuel, rfl⟩ : ∃ k, fuel = k + 1 := ⟨fuel - 1, by rw [List.length_cons] at hfuel; omega⟩
      rw [skipWhile, getElem?_append_length, List.getElem?_cons_zero]
      dsimp only [Option.bind_eq_bind, Option.bind_some]
      cases hc : p c with
      | false => simp [hc]
      | true =>
          have hne : nul ≠ c := fun heq ↦ by simp [← heq, hp] at hc
          have hrec := @ih (pre ++ [c]) ((List.mem_cons.mp h).resolve_left hne) fuel
            (by simpa using hfuel)
          rw [List.append_assoc, List.singleton_append, List.length_append,
            List.length_singleton] at hrec
          rw [if_pos rfl, hrec, List.takeWhile_cons_of_pos hc, List.append_assoc,
            List.singleton_append]

/-- A write to the place behind `pre`. -/
theorem putByte_append (pre rest : Str) (c d : UInt8) :
    putByte (pre ++ d :: rest) pre.length c = some (pre ++ c :: rest) := by
  rw [putByte, if_pos (by simp), List.set_append_right _ _ le_rfl, Nat.sub_self, List.set_cons_zero]

/-- The gap that is left when a byte has moved up over it. -/
theorem exists_tail_gap (gap : Str) (d : UInt8) :
    ∃ g gap', gap ++ [d] = g :: gap' ∧ gap'.length = gap.length := by
  cases gap with
  | nil => exact ⟨d, [], rfl, rfl⟩
  | cons g gap => exact ⟨g, gap ++ [d], rfl, by simp⟩

/-- A byte moves up over a gap, which stays as long as it was. -/
theorem putByte_gap {gap gap' : Str} {d g : UInt8} (h : gap ++ [d] = g :: gap') (kept rest : Str)
    (c : UInt8) :
    putByte (kept ++ (gap ++ d :: rest)) kept.length c =
      some ((kept ++ [c]) ++ (gap' ++ rest)) := by
  have hsplit : gap ++ d :: rest = g :: (gap' ++ rest) := by
    rw [← List.cons_append, ← h, List.append_assoc, List.singleton_append]
  rw [hsplit, putByte_append, List.append_assoc, List.singleton_append]

theorem Terminated.tail {c : UInt8} (h : Terminated (c :: rest)) (hc : c ≠ nul) :
    Terminated rest := by
  refine h.of_suffix (List.suffix_cons c rest) ?_
  rintro rfl
  exact hc (List.mem_singleton.mp h.nul_mem).symm

/-- Where the byte comes from that the loop over a value copies. -/
theorem skipEscape_eq {c : UInt8} (h : Terminated (c :: rest)) (hc : c ≠ nul) (pre : Str) :
    skipEscape (pre ++ c :: rest) pre.length c =
      some (if c = chr '\\' ∧ peek rest ≠ nul then pre.length + 1 else pre.length) := by
  unfold skipEscape
  by_cases hesc : c = chr '\\'
  · rcases rest with _ | ⟨d, rest⟩
    · exact absurd (h.tail hc).nul_mem List.not_mem_nil
    · rw [if_pos hesc, getElem?_append_add]
      simp [hesc, peek]
  · simp [hesc]

/-- The loop over a value finds the value of the text, and leaves a gap between it and `dp`. -/
theorem valueLoop_eq (h : Terminated rest) (kept gap : Str) {fuel : ℕ}
    (hfuel : rest.length ≤ fuel) :
    ∃ gap' : Str, valueLoop sep fuel (kept ++ (gap ++ rest)) kept.length (kept ++ gap).length =
      some (kept ++ (parseValue sep rest).1 ++ (gap' ++ (parseValue sep rest).2),
        (kept ++ (parseValue sep rest).1).length,
        (kept ++ (parseValue sep rest).1 ++ gap').length) ∧
      (parseValue sep rest).1.length + gap'.length + (parseValue sep rest).2.length =
        gap.length + rest.length := by
  induction hn : rest.length using Nat.strong_induction_on generalizing rest kept gap fuel with
  | _ n ih =>
      subst hn
      rcases rest with _ | ⟨c, rest⟩
      · exact absurd h.nul_mem List.not_mem_nil
      obtain ⟨fuel, rfl⟩ : ∃ k, fuel = k + 1 := ⟨fuel - 1, by rw [List.length_cons] at hfuel; omega⟩
      rw [List.length_cons] at hfuel
      rw [valueLoop, ← List.append_assoc, getElem?_append_length, List.getElem?_cons_zero]
      dsimp only [Option.bind_eq_bind, Option.bind_some]
      rw [parseValue.eq_def]
      dsimp only
      by_cases hend : c = nul ∨ c = sep
      · exact ⟨gap, by rw [if_pos hend, if_pos hend]; simp, by rw [if_pos hend]; simp⟩
      have hc : c ≠ nul := fun heq ↦ hend (.inl heq)
      have hrest := h.tail hc
      rw [if_neg hend, if_neg hend, skipEscape_eq h hc, Option.bind_some]
      by_cases hesc : c = chr '\\' ∧ peek rest ≠ nul
      · rcases rest with _ | ⟨d, rest⟩
        · exact absurd hrest.nul_mem List.not_mem_nil
        rw [if_pos hesc, if_pos hesc, getElem?_append_add, List.getElem?_cons_succ,
          List.getElem?_cons_zero, Option.bind_some]
        obtain ⟨g, gap', hgap, hlen⟩ := exists_tail_gap (gap ++ [c]) d
        have hput := putByte_gap hgap kept rest d
        obtain ⟨gap'', hloop, hsum⟩ :=
          ih rest.length (by simp) (hrest.tail hesc.2) (kept ++ [d]) gap'
            (show rest.length ≤ fuel by rw [List.length_cons] at hfuel; omega) rfl
        have hdp : (kept ++ gap).length + 1 + 1 = (kept ++ [d] ++ gap').length := by
          simp [hlen]
          omega
        rw [List.append_assoc, List.singleton_append] at hput
        rw [List.append_assoc, hput, Option.bind_some, hdp]
        rw [List.length_append, List.length_singleton] at hloop
        refine ⟨gap'', by rw [hloop]; simp, ?_⟩
        simp only [Prod.map_fst, Prod.map_snd, id_eq, List.length_cons, List.length_append,
          List.length_nil] at hlen hsum ⊢
        omega
      · rw [if_neg hesc, if_neg hesc, getElem?_append_length, List.getElem?_cons_zero,
          Option.bind_some]
        obtain ⟨g, gap', hgap, hlen⟩ := exists_tail_gap gap c
        have hput := putByte_gap hgap kept rest c
        obtain ⟨gap'', hloop, hsum⟩ := ih rest.length (by simp) hrest (kept ++ [c]) gap'
          (show rest.length ≤ fuel by omega) rfl
        have hdp : (kept ++ gap).length + 1 = (kept ++ [c] ++ gap').length := by
          simp [hlen]
          omega
        rw [List.append_assoc, hput, Option.bind_some, hdp]
        rw [List.length_append, List.length_singleton] at hloop
        refine ⟨gap'', by rw [hloop]; simp, ?_⟩
        simp only [Prod.map_fst, Prod.map_snd, id_eq, List.length_cons] at hlen hsum ⊢
        omega

/-- What is left after a value still ends in the NUL, and there is none in the value. -/
theorem terminated_parseValue (h : Terminated rest) :
    Terminated (parseValue sep rest).2 ∧ nul ∉ (parseValue sep rest).1 := by
  induction hn : rest.length using Nat.strong_induction_on generalizing rest with
  | _ n ih =>
      subst hn
      rcases rest with _ | ⟨c, rest⟩
      · exact absurd h.nul_mem List.not_mem_nil
      rw [parseValue.eq_def]
      dsimp only
      split_ifs with hend hesc
      · exact ⟨h, List.not_mem_nil⟩
      · have hrest := h.tail fun heq ↦ hend (.inl heq)
        rcases rest with _ | ⟨d, rest⟩
        · exact absurd hrest.nul_mem List.not_mem_nil
        · obtain ⟨hterm, hval⟩ := ih rest.length (by simp) (hrest.tail hesc.2) rfl
          exact ⟨hterm, fun hmem ↦ (List.mem_cons.mp hmem).elim hesc.2.symm hval⟩
      · obtain ⟨hterm, hval⟩ := ih rest.length (by simp) (h.tail fun heq ↦ hend (.inl heq)) rfl
        exact ⟨hterm, fun hmem ↦ (List.mem_cons.mp hmem).elim (fun heq ↦ hend (.inl heq.symm)) hval⟩

theorem Terminated.dropWhile {p : UInt8 → Bool} (hp : p nul = false) (h : Terminated rest) :
    Terminated (rest.dropWhile p) := by
  refine h.of_suffix (List.dropWhile_suffix p) ?_
  intro hnil
  have := List.dropWhile_eq_nil_iff.mp hnil nul h.nul_mem
  rw [hp] at this
  cases this

theorem Terminated.getElem? (h : Terminated rest) (pre : Str) :
    (pre ++ rest)[pre.length]? = some (peek rest) := by
  rcases rest with _ | ⟨c, rest⟩
  · exact absurd h.nul_mem List.not_mem_nil
  · rw [getElem?_append_length, List.getElem?_cons_zero]
    rfl

theorem Terminated.eq_cons (h : Terminated rest) : rest = peek rest :: rest.tail := by
  rcases rest with _ | ⟨c, rest⟩
  · exact absurd h.nul_mem List.not_mem_nil
  · rfl

theorem Terminated.length_eq (h : Terminated rest) : rest.length = rest.tail.length + 1 := by
  rw [← List.length_cons, ← h.eq_cons]

/-- A loop over bytes splits the copy. -/
theorem skipWhile_split {p : UInt8 → Bool} (hp : p nul = false) (h : Terminated rest) (pre : Str) :
    ∃ pre', pre' = pre ++ rest.takeWhile p ∧ pre ++ rest = pre' ++ rest.dropWhile p ∧
      skipWhile p (pre ++ rest) (pre ++ rest).length pre.length = some pre'.length := by
  refine ⟨_, rfl, ?_, skipWhile_eq hp h.nul_mem (by simp)⟩
  rw [List.append_assoc, List.takeWhile_append_dropWhile]

theorem deleteCandidate_eq (h : Terminated rest) (pre : Str) :
    deleteCandidate sep (pre ++ rest) pre.length =
      some (decide (peek rest = nul ∨ peek rest.tail = nul ∨ peek rest = sep ∨
        peek rest.tail = sep)) := by
  rw [deleteCandidate, h.getElem?]
  dsimp only [Option.bind_eq_bind, Option.bind_some]
  by_cases hc : peek rest = nul
  · simp [hc]
  · have hterm := (h.eq_cons ▸ h : Terminated (peek rest :: rest.tail)).tail hc
    have hget : (pre ++ rest)[pre.length + 1]? = some (peek rest.tail) := by
      rw [getElem?_append_add, h.eq_cons, List.getElem?_cons_succ]
      exact hterm.getElem? []
    rw [if_neg hc, hget]
    simp [hc]

theorem cString_eq {s : Str} (h : nul ∉ s) (pre rest : Str) :
    cString (pre ++ (s ++ nul :: rest)) pre.length = some s := by
  have hpos : ∀ c ∈ s, (c != nul) = true := by
    intro c hc
    simpa using fun heq : c = nul ↦ h (heq ▸ hc)
  rw [cString, List.drop_left, if_pos (by simp), List.takeWhile_append_of_pos hpos]
  simp

theorem length_add_one (pre : Str) (c : UInt8) : pre.length + 1 = (pre ++ [c]).length := by
  rw [List.length_append, List.length_singleton]

/-- The byte at `dp` is overwritten, and `dp` goes on. -/
theorem Terminated.putByte_eq (h : Terminated rest) (pre : Str) (c : UInt8) :
    putByte (pre ++ rest) pre.length c = some (pre ++ [c] ++ rest.tail) := by
  rw [h.eq_cons, putByte_append, List.append_assoc]
  rfl

/-- A candidate for deletion: what follows its name is overwritten by one or two NULs. -/
theorem readRound_delete (h : Terminated rest) {pre name : Str} (hname : nul ∉ name) :
    ∃ pre', (do
        let (data, dp) ← clearEquals (pre ++ name ++ rest) (pre ++ name).length (peek rest)
        let data ← putByte data dp nul
        let key ← cString data pre.length
        some (Item.delete key, data, dp + 1)) =
      some (Item.delete name, pre' ++ (if peek rest = chr '=' then rest.tail.tail else rest.tail),
        pre'.length) ∧
      (pre' ++ (if peek rest = chr '=' then rest.tail.tail else rest.tail)).length =
        (pre ++ name ++ rest).length := by
  by_cases heq : peek rest = chr '='
  · have hterm : Terminated rest.tail :=
      (h.eq_cons ▸ h : Terminated (peek rest :: rest.tail)).tail (by rw [heq]; decide)
    refine ⟨pre ++ name ++ [nul] ++ [nul], ?_⟩
    have hlen := length_add_one (pre ++ name) nul
    rw [clearEquals, if_pos heq, if_pos heq, h.putByte_eq]
    dsimp only [Option.map_some, Option.bind_eq_bind, Option.bind_some]
    rw [hlen, hterm.putByte_eq, Option.bind_some]
    have hkey : pre ++ name ++ [nul] ++ [nul] ++ rest.tail.tail =
        pre ++ (name ++ nul :: ([nul] ++ rest.tail.tail)) := by simp
    have h₁ := h.length_eq
    have h₂ := hterm.length_eq
    rw [hkey, cString_eq hname]
    constructor
    · simp
      omega
    · simp only [List.length_append, List.length_cons, List.length_nil]
      omega
  · refine ⟨pre ++ name ++ [nul], ?_⟩
    rw [clearEquals, if_neg heq, if_neg heq]
    dsimp only [Option.bind_eq_bind, Option.bind_some]
    rw [h.putByte_eq, Option.bind_some]
    have hkey : pre ++ name ++ [nul] ++ rest.tail = pre ++ (name ++ nul :: rest.tail) := by simp
    have h₁ := h.length_eq
    rw [hkey, cString_eq hname]
    constructor
    · simp
      omega
    · simp only [List.length_append, List.length_cons]
      omega

/-- An assignment: the name and the value are terminated where they are. -/
theorem readRound_enter (h : Terminated rest) {pre name : Str} (hname : nul ∉ name)
    (hcand : peek rest ≠ nul) :
    ∃ pre', (do
        let data ← putByte (pre ++ name ++ rest) (pre ++ name).length nul
        let value := (pre ++ name).length + 1
        let (data, sp, dp) ← valueLoop sep data.length data value value
        let data ← putByte data sp nul
        let key ← cString data pre.length
        let val ← cString data value
        some (Item.enter key val, data, dp + 1)) =
      some (Item.enter name (parseValue sep rest.tail).1,
        pre' ++ (parseValue sep rest.tail).2.tail, pre'.length) ∧
      (pre' ++ (parseValue sep rest.tail).2.tail).length = (pre ++ name ++ rest).length := by
  have hterm : Terminated rest.tail :=
    (h.eq_cons ▸ h : Terminated (peek rest :: rest.tail)).tail hcand
  obtain ⟨hrest, hval⟩ := @terminated_parseValue sep _ hterm
  generalize hv : parseValue sep rest.tail = r at hrest hval
  obtain ⟨val, rest'⟩ := r
  have hlen := length_add_one (pre ++ name) nul
  obtain ⟨gap, hloop, hsum⟩ := @valueLoop_eq sep _ hterm (pre ++ name ++ [nul]) []
    (pre ++ name ++ [nul] ++ rest.tail).length (List.length_append ▸ Nat.le_add_left ..)
  rw [hv, List.nil_append, List.append_nil] at hloop
  rw [hv] at hsum
  dsimp only at hrest hval hloop hsum
  obtain ⟨g, gap', htail, hgap⟩ := exists_tail_gap gap (peek rest')
  have hput := putByte_gap htail (pre ++ name ++ [nul] ++ val) rest'.tail nul
  rw [← hrest.eq_cons] at hput
  refine ⟨pre ++ name ++ [nul] ++ val ++ [nul] ++ gap', ?_⟩
  rw [h.putByte_eq]
  dsimp only [Option.bind_eq_bind, Option.bind_some]
  rw [hlen, hloop]
  dsimp only [Option.bind_some]
  rw [hput, Option.bind_some]
  have hkey : pre ++ name ++ [nul] ++ val ++ [nul] ++ (gap' ++ rest'.tail) =
      pre ++ (name ++ nul :: (val ++ [nul] ++ (gap' ++ rest'.tail))) := by simp
  have hvalue : pre ++ name ++ [nul] ++ val ++ [nul] ++ (gap' ++ rest'.tail) =
      (pre ++ name ++ [nul]) ++ (val ++ nul :: (gap' ++ rest'.tail)) := by simp
  have hkey' := cString_eq hname pre (val ++ [nul] ++ (gap' ++ rest'.tail))
  have hvalue' := cString_eq hval (pre ++ name ++ [nul]) (gap' ++ rest'.tail)
  rw [← hkey] at hkey'
  rw [← hvalue] at hvalue'
  rw [hkey', Option.bind_some, hvalue', Option.bind_some]
  have h₁ := h.length_eq
  have h₂ := hterm.length_eq
  have h₃ := hrest.length_eq
  constructor
  · simp [hgap]
    omega
  · simp only [List.length_append, List.length_cons, List.length_nil] at hsum ⊢
    omega

theorem isblank_nul : isblank nul = false := by decide

theorem inName_nul (sep : UInt8) : inName sep nul = false := by simp [inName]

theorem nul_notMem_takeWhile {p : UInt8 → Bool} (hp : p nul = false) (s : Str) :
    nul ∉ s.takeWhile p := by
  intro h
  have := List.mem_takeWhile_imp h
  rw [hp] at this
  cases this

/-- A round in the copy is a round in the text. -/
theorem readRound_eq (h : Terminated rest) (pre : Str) :
    ∃ pre', readRound sep (pre ++ rest) pre.length =
      some ((parseItem sep rest).1, pre' ++ (parseItem sep rest).2, pre'.length) ∧
      (pre' ++ (parseItem sep rest).2).length = (pre ++ rest).length := by
  obtain ⟨pre₁, -, hsplit₁, hskip₁⟩ := skipWhile_split isblank_nul h pre
  have hterm₁ := h.dropWhile isblank_nul
  rw [readRound, hskip₁, parseItem]
  dsimp only [Option.bind_eq_bind, Option.bind_some]
  rw [hsplit₁]
  generalize rest.dropWhile isblank = rest₁ at hterm₁
  rw [hterm₁.getElem?]
  dsimp only [Option.bind_some]
  by_cases hcomment : peek rest₁ = chr '#'
  · obtain ⟨pre₂, -, hsplit₂, hskip₂⟩ := @skipWhile_split rest₁ (fun c ↦ c != nul && c != sep)
      (by simp) hterm₁ pre₁
    have hterm₂ := hterm₁.dropWhile (p := fun c ↦ c != nul && c != sep) (by simp)
    rw [if_pos hcomment, if_pos hcomment, hskip₂, Option.bind_some, hsplit₂]
    generalize (rest₁.dropWhile fun c ↦ c != nul && c != sep) = rest₂ at hterm₂
    refine ⟨pre₂ ++ [peek rest₂], ?_, ?_⟩
    · rw [← length_add_one, List.append_assoc, List.singleton_append, ← hterm₂.eq_cons]
    · rw [List.append_assoc, List.singleton_append, ← hterm₂.eq_cons]
  · obtain ⟨pre₂, hpre₂, hsplit₂, hskip₂⟩ := skipWhile_split (inName_nul sep) hterm₁ pre₁
    have hterm₂ := hterm₁.dropWhile (inName_nul sep)
    have hname := nul_notMem_takeWhile (inName_nul sep) rest₁
    rw [if_neg hcomment, if_neg hcomment, hskip₂, Option.bind_some, hsplit₂]
    generalize rest₁.dropWhile (inName sep) = rest₂ at hterm₂
    generalize rest₁.takeWhile (inName sep) = name at hname hpre₂
    subst hpre₂
    rw [deleteCandidate_eq hterm₂, Option.bind_some]
    by_cases hcand : peek rest₂ = nul ∨ peek rest₂.tail = nul ∨ peek rest₂ = sep ∨
      peek rest₂.tail = sep
    · rw [if_pos (decide_eq_true hcand), if_pos hcand, hterm₂.getElem?]
      exact readRound_delete hterm₂ hname
    · rw [if_neg (by simpa using hcand), if_neg hcand]
      exact readRound_enter hterm₂ hname fun h ↦ hcand (.inl h)

/-- The loop over the copy finds the items of the text. -/
theorem readLoop_eq (h : Terminated rest) (pre : Str) {size fuel : ℕ} (hfuel : rest.length ≤ fuel)
    (hsize : size < (pre ++ rest).length) : readLoop sep size fuel (pre ++ rest) pre.length =
      textItems sep ((pre ++ rest).length - size) fuel rest := by
  induction fuel generalizing pre rest with
  | zero =>
      rw [h.length_eq] at hfuel
      omega
  | succ fuel ih =>
      obtain ⟨pre', hround, hlen⟩ := @readRound_eq sep rest h pre
      rw [readLoop, textItems, hround]
      dsimp only [Option.bind_eq_bind, Option.bind_some]
      have hshort := length_parseItem sep rest
      have hsuf := @parseItem_suffix sep rest
      rw [← hlen] at hsize ⊢
      generalize parseItem sep rest = r at hshort hsuf hsize ⊢
      obtain ⟨item, rest'⟩ := r
      dsimp only at hshort hsuf hsize ⊢
      by_cases hstop : item.stops = true
      · rw [if_pos hstop, if_pos hstop]
      rw [if_neg hstop, if_neg hstop]
      by_cases hdp : pre'.length < size
      · have hlong : (pre' ++ rest').length - size < rest'.length := by
          rw [List.length_append] at hsize ⊢
          omega
        have hterm : Terminated rest' := h.of_suffix hsuf (List.ne_nil_of_length_pos (by omega))
        rw [if_pos hdp, hterm.getElem?, Option.bind_some]
        by_cases hpeek : peek rest' ≠ nul
        · rw [if_pos hpeek, if_pos ⟨hlong, hpeek⟩, ih hterm pre' (by omega) hsize]
        · rw [if_neg hpeek, if_neg fun hboth ↦ hpeek hboth.2]
      · have hlong : ¬(pre' ++ rest').length - size < rest'.length := by
          rw [List.length_append] at hsize ⊢
          omega
        rw [if_neg hdp, if_neg fun hboth ↦ hlong hboth.1]

end Reading

/-! ## The carriage returns -/

/-- The test for a carriage return in front of a line feed looks at the bytes of the text only. -/
theorem crBeforeLf_eq (pre rest tail : Str) (c : UInt8) :
    crBeforeLf (pre ++ c :: rest).length (pre ++ c :: rest ++ tail) pre.length c =
      some (decide (c = chr '\r' ∧ rest.head? = some (chr '\n'))) := by
  unfold crBeforeLf
  rcases rest with _ | ⟨d, rest⟩
  · simp
  · have hget : (pre ++ c :: d :: rest ++ tail)[pre.length + 1]? = some d := by
      rw [List.append_assoc, getElem?_append_add]
      rfl
    by_cases hc : c = chr '\r'
    · rw [if_pos ⟨hc, by simp⟩, hget]
      simp [hc, beq_eq_decide]
    · simp [hc]

theorem length_dropCrs (s : Str) : (dropCrs s).length ≤ (s.takeWhile (· != nul)).length := by
  induction s with
  | nil => exact le_rfl
  | cons c s ih =>
      rw [dropCrs]
      split_ifs with hnul hcr
      · exact Nat.zero_le _
      · rw [List.takeWhile_cons_of_pos (by simpa using hnul), List.length_cons]
        omega
      · rw [List.takeWhile_cons_of_pos (by simpa using hnul), List.length_cons, List.length_cons]
        omega

/-- The loop drops the carriage returns of the text: the kept bytes move up over `gap`, and nothing
behind them changes. -/
theorem crlfLoop_eq (kept gap rest tail : Str) {fuel : ℕ} (hfuel : rest.length < fuel) :
    crlfLoop (kept ++ gap ++ rest).length fuel (kept ++ (gap ++ rest ++ tail))
        (kept ++ gap).length gap.length =
      some (kept ++ dropCrs rest ++ (gap ++ rest ++ tail).drop (dropCrs rest).length,
        gap.length + ((rest.takeWhile (· != nul)).length - (dropCrs rest).length)) := by
  induction rest generalizing kept gap fuel with
  | nil =>
      obtain ⟨fuel, rfl⟩ : ∃ k, fuel = k + 1 := ⟨fuel - 1, by omega⟩
      rw [crlfLoop, if_neg (by simp)]
      simp [dropCrs]
  | cons c rest ih =>
      obtain ⟨fuel, rfl⟩ : ∃ k, fuel = k + 1 := ⟨fuel - 1, by omega⟩
      rw [List.length_cons] at hfuel
      have hdata : kept ++ (gap ++ c :: rest ++ tail) = (kept ++ gap) ++ c :: (rest ++ tail) := by
        simp
      rw [crlfLoop, if_pos (by simp), hdata, getElem?_append_length, List.getElem?_cons_zero]
      dsimp only [Option.bind_eq_bind, Option.bind_some]
      by_cases hnul : c = nul
      · rw [if_pos hnul]
        simp [dropCrs, hnul]
      have hcr := crBeforeLf_eq (kept ++ gap) rest tail c
      rw [List.append_assoc _ _ tail, List.cons_append] at hcr
      rw [if_neg hnul, hcr, Option.bind_some, dropCrs, if_neg hnul,
        List.takeWhile_cons_of_pos (by simpa using hnul), List.length_cons]
      have hle := length_dropCrs rest
      by_cases hdrop : c = chr '\r' ∧ rest.head? = some (chr '\n')
      · rw [if_pos (decide_eq_true hdrop), if_pos hdrop]
        have hrec := ih kept (gap ++ [c]) (show rest.length < fuel by omega)
        have hcount : (gap ++ [c]).length = gap.length + 1 := by simp
        have hdp : (kept ++ (gap ++ [c])).length = (kept ++ gap).length + 1 := by
          rw [← List.append_assoc, length_add_one]
        have hrest : gap ++ [c] ++ rest ++ tail = gap ++ c :: rest ++ tail := by simp
        have hsize : kept ++ (gap ++ [c]) ++ rest = kept ++ gap ++ c :: rest := by simp
        rw [hrest, hsize, hdata, hdp, hcount] at hrec
        rw [hrec, Nat.add_right_comm, Nat.sub_add_comm hle, Nat.add_assoc]
      · obtain ⟨g, gap', hgap, hlen⟩ := exists_tail_gap gap c
        have hput := putByte_gap hgap kept (rest ++ tail) c
        have hrec := ih (kept ++ [c]) gap' (show rest.length < fuel by omega)
        have hindex : (kept ++ gap).length - gap.length = kept.length := by simp
        have hdp : (kept ++ [c] ++ gap').length = (kept ++ gap).length + 1 := by
          simp [hlen]
          omega
        have hsize : (kept ++ [c] ++ gap' ++ rest).length = (kept ++ gap ++ c :: rest).length := by
          simp [hlen]
          omega
        have hrest : gap ++ c :: rest ++ tail = g :: (gap' ++ rest ++ tail) := by
          rw [← List.cons_append, ← List.cons_append, ← hgap]
          simp
        rw [← List.append_assoc kept] at hput
        rw [hsize, hdp, hlen, List.append_assoc gap'] at hrec
        rw [if_neg (by simpa using hdrop), if_neg hdrop, hindex, hput, Option.bind_some,
          hrec, hrest, List.length_cons, List.drop_succ_cons, Nat.add_sub_add_right]
        simp

theorem copyBytes_eq {fuel : ℕ} (crlf : Bool) {env : Str} (hfuel : env.length < fuel) :
    copyBytes fuel crlf env = some ((copyText crlf env).1, env.length - (copyText crlf env).2) := by
  have hle := length_dropCrs env
  have htake := (List.takeWhile_sublist (· != nul) (l := env)).length_le
  cases crlf with
  | false => simp [copyBytes, copyText]
  | true =>
      have hloop := crlfLoop_eq [] [] env [nul] hfuel
      simp only [List.nil_append, List.length_nil, Nat.zero_add] at hloop
      simp only [copyBytes, copyText, crlfIsLf, if_true]
      rw [hloop, Nat.sub_sub_self (by omega)]

/-! ## The import -/

/-- The size of the text after the carriage returns are dropped is smaller than the copy. -/
theorem copyText_spec (crlf : Bool) (env : Str) :
    (copyText crlf env).2 ≤ env.length ∧ (copyText crlf env).1.length = env.length + 1 ∧
      Terminated (copyText crlf env).1 := by
  cases crlf with
  | false => exact ⟨le_rfl, by simp [copyText], env, rfl⟩
  | true =>
      have hle := length_dropCrs env
      have htake := (List.takeWhile_sublist (· != nul) (l := env)).length_le
      simp only [copyText, crlfIsLf, if_true]
      rw [List.drop_append_of_le_length (hle.trans htake)]
      refine ⟨Nat.sub_le .., ?_, dropCrs env ++ env.drop (dropCrs env).length, by simp⟩
      simp only [List.length_append, List.length_drop, List.length_singleton]
      omega

theorem textItems_mono {sep : UInt8} {spare fuel fuel' : ℕ} {dp : Str} {r : List Item × Bool}
    (h : textItems sep spare fuel dp = some r) (hle : fuel ≤ fuel') :
    textItems sep spare fuel' dp = some r := by
  induction fuel generalizing fuel' dp r with
  | zero => cases h
  | succ fuel ih =>
      obtain ⟨fuel', rfl⟩ : ∃ k, fuel' = k + 1 := ⟨fuel' - 1, by omega⟩
      rw [textItems] at h ⊢
      dsimp only at h ⊢
      split_ifs at h ⊢ with hstop hgo
      · exact h
      · obtain ⟨r', hr', rfl⟩ := Option.map_eq_some_iff.mp h
        rw [ih hr' (by omega), Option.map_some]
      · exact h

/-- Every text is read without a step outside of its copy. -/
theorem readBuffer_eq {fuel : ℕ} (sep : UInt8) (crlf : Bool) {env : Str}
    (hfuel : env.length < fuel) :
    readBuffer fuel sep crlf env = some (readText sep crlf env) := by
  rw [readBuffer, readText]
  by_cases hempty : env.length = 0
  · rw [if_pos hempty, if_pos hempty]
  obtain ⟨hle, hlen, hterm⟩ := copyText_spec crlf env
  rw [if_neg hempty, if_neg hempty, copyBytes_eq crlf hfuel]
  generalize copyText crlf env = copy at hle hlen hterm
  obtain ⟨data, size⟩ := copy
  dsimp only [Option.bind_eq_bind, Option.bind_some] at hle hlen hterm ⊢
  rw [Nat.sub_sub_self hle]
  have hloop := @readLoop_eq sep data hterm [] size fuel (by omega)
    (by rw [List.nil_append]; omega)
  rw [List.nil_append, List.length_nil] at hloop
  obtain ⟨r, hr⟩ := exists_textItems sep (data.length - size) data.length data (by omega) le_rfl
  rw [hloop, hr, Option.getD_some]
  exact textItems_mono hr (by omega)

/-- `himport_r` stays in its copy and ends, whatever the text, the separator, the flags, the
variables and the table are, and does what it does to the text. -/
theorem himportBuffer_eq (hooks : Hooks) (old : Option Htab) (env : Str) (sep : UInt8)
    (noclear crlf : Bool) (vars : List Str) {fuel : ℕ} (hfuel : env.length < fuel) :
    himportBuffer fuel hooks old env sep noclear crlf vars =
      some (himportR hooks old env sep noclear crlf vars) := by
  unfold himportBuffer
  dsimp only
  generalize htable : (if noclear = false ∧ vars = [] then none else old).or
    (hcreateR (importEntries env.length)) = table
  cases table with
  | none => rw [himportR, htable]
  | some htab =>
      rw [himportR_eq_importResult htable]
      dsimp only
      rw [readBuffer_eq sep crlf hfuel, Option.map_some]

/-- An assignment with an escape in front of the end of the text. -/
theorem himportBuffer_eq_escape :
    himportBuffer 6 accept none [97, 61, 98, 92, 10] (chr '\n') false true [] =
    some (himportR accept none [97, 61, 98, 92, 10] (chr '\n') false true []) :=
  himportBuffer_eq accept none _ (chr '\n') false true [] (by decide)

end MiniPi.Env
