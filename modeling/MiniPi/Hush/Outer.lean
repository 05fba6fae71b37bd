import MiniPi.Hush.Parse

/-!
# Parsing a string to its end

`parse_stream_outer` and `parse_string_outer` for a string, with commands that leave the input
alone.  Each line is read inside of the string, whatever it holds; behind a line with a syntax error
the loop looks for a further line at the address 0.
-/

namespace MiniPi.Hush

/-- What surrounds the parser: the value of `IFS`, or its default, and `run_list`. -/
structure Caller (W : Type) where
  ifs : W → Str
  runList : List ProgPipe → W → ℤ × W

/-- `parse_stream_outer` behind a call of `parse_stream` that came to the end of a line or of the
string. -/
def lineStream (flag : Flags) (temp : OString) (input : Str) : Stream :=
  ⟨temp, ⟨initFrame, [], flag.parseSemicolon⟩, input⟩

/-- The list that is run for a line. -/
def lineList (st : Stream) : List ProgPipe := ((doneWord st.dest st.ctx).2.2.donePipe .seq).top.list

/-- `temp` behind `b_free`. -/
def lineTemp (st : Stream) : OString := (doneWord st.dest st.ctx).2.1.reset

/-- The return value of `parse_stream_outer`. -/
def outerCode (code : ℤ) : ℤ := if code ≠ 0 then 1 else 0

/-- A run of the parser: it returned, or it read a character that is not one of the string. -/
inductive Outcome (W : Type)
  | inside (code : ℤ) (w : W)
  | outside

/-- The loop of `parse_stream_outer`. -/
def outerLoop {W : Type} (sh : Caller W) (flag : Flags) :
    ℕ → OString → Str → ℤ → W → Option (Outcome W)
  | 0, _, _, _, _ => none
  | fuel + 1, temp, input, code, w =>
    match parseStream (sh.ifs w) flag (input.length + 1) (lineStream flag temp input) with
    | none => some .outside
    | some (rcode, st) =>
      if rcode ≠ 1 ∧ st.ctx.top.oldFlag = [] then
        let (code, w) := sh.runList (lineList st) w
        if code = -2 then some (.inside (outerCode 0) w)
        else if rcode = -1 ∨ flag.exitFromLoop then some (.inside (outerCode code) w)
        else
          match staticPeek st.input with
          | none => some .outside
          | some c =>
            if c = 0 then some (.inside (outerCode code) w)
            else outerLoop sh flag fuel (lineTemp st) st.input code w
      -- the pointer into the string is NULL from here on
      else if rcode = -1 ∨ flag.exitFromLoop then some (.inside (outerCode code) w)
      else some .outside

/-- The string that is parsed: a newline is put behind it unless its only one is there. -/
def outerText (s : Str) : Str :=
  if 10 ∈ s ∧ (s.dropWhile (· ≠ 10)).tail = [] then s else s ++ [10]

/-- `parse_string_outer`. -/
def parseStringOuter {W : Type} (sh : Caller W) (s : Str) (flag : Flags) (w : W) :
    Option (Outcome W) :=
  if s = [] then some (.inside 0 w)
  else outerLoop sh flag (s.length + 3) nullOString (outerText s ++ [0]) 1 w

/-! ## The rest of a string -/

/-- What is left of a string that ends with a newline. -/
inductive Ended : Str → Prop
  | nul : Ended [0]
  | newline : Ended [10, 0]
  | cons {c d : UInt8} {p : Str} : c ≠ 0 → Ended (d :: p) → d ≠ 0 → Ended (c :: d :: p)

theorem Ended.tail {c : UInt8} {p : Str} (h : Ended (c :: p)) (hc : c ≠ 0) :
    Ended p ∧ (c ≠ 10 → ∃ d q, p = d :: q ∧ d ≠ 0) := by
  cases h with
  | nul => exact absurd rfl hc
  | newline => exact ⟨.nul, fun h ↦ absurd rfl h⟩
  | cons _ h hd => exact ⟨h, fun _ ↦ ⟨_, _, rfl, hd⟩⟩

theorem Ended.ne_nil {p : Str} (h : Ended p) : p ≠ [] := by
  cases h <;> exact List.cons_ne_nil _ _

theorem ended_text {t : Str} (h : 0 ∉ t) : Ended (t ++ [10] ++ [0]) := by
  induction t with
  | nil => exact .newline
  | cons c t ih =>
    rw [List.mem_cons, not_or] at h
    have hrest := ih h.2
    cases t with
    | nil => exact .cons (Ne.symm h.1) hrest (by decide)
    | cons d t => exact .cons (Ne.symm h.1) hrest fun hd ↦ h.2 (hd ▸ List.mem_cons_self)

/-! ## The loops over characters -/

theorem getUntil_inside (close : UInt8) {p : Str} (h : Ended p) :
    ∃ s found q, getUntil close p = some (s, found, q) ∧
      (found = true → Ended q ∨ close = 0) ∧ q.length ≤ p.length := by
  induction p with
  | nil => exact absurd rfl h.ne_nil
  | cons c p ih =>
    rw [getUntil]
    by_cases hc : c = 0
    · rw [if_pos hc]
      exact ⟨_, _, _, rfl, fun hfound ↦ Bool.noConfusion hfound, Nat.le_succ _⟩
    rw [if_neg hc]
    by_cases hclose : c = close
    · rw [if_pos hclose]
      exact ⟨_, _, _, rfl, fun _ ↦ .inl (h.tail hc).1, Nat.le_succ _⟩
    · rw [if_neg hclose]
      obtain ⟨s, found, q, hs, hfound, hle⟩ := ih (h.tail hc).1
      rw [hs]
      exact ⟨_, _, _, rfl, hfound, hle.trans (Nat.le_succ _)⟩

theorem skipComment_inside {c : UInt8} {p : Str} (h : Ended (c :: p)) (hc : c ≠ 0) :
    ∃ q, skipComment (c :: p) = some q ∧ Ended q ∧ q.length ≤ p.length + 1 := by
  induction p generalizing c with
  | nil => exact absurd rfl (h.tail hc).1.ne_nil
  | cons d p ih =>
    rw [skipComment]
    by_cases hnl : c = 10
    · rw [if_pos hnl]
      exact ⟨_, rfl, h, le_rfl⟩
    · rw [if_neg hnl]
      obtain ⟨hrest, hnext⟩ := h.tail hc
      obtain ⟨d', q, heq, hd⟩ := hnext hnl
      obtain ⟨rfl, rfl⟩ := List.cons.inj heq
      obtain ⟨r, hr, hended, hle⟩ := ih hrest hd
      exact ⟨r, hr, hended, hle.trans (Nat.le_succ _)⟩

theorem getName_inside {p : Str} (h : Ended p) :
    ∃ name q, getName p = some (name, q) ∧ Ended q ∧ q.length ≤ p.length := by
  induction p with
  | nil => exact absurd rfl h.ne_nil
  | cons c p ih =>
    rw [getName]
    by_cases hname : isname c = true
    · rw [if_pos hname]
      have hc : c ≠ 0 := by
        rintro rfl
        exact absurd hname (by decide)
      obtain ⟨name, q, hq, hended, hle⟩ := ih (h.tail hc).1
      rw [hq]
      exact ⟨_, _, rfl, hended, hle.trans (Nat.le_succ _)⟩
    · rw [if_neg hname]
      exact ⟨_, _, rfl, h, le_rfl⟩

/-! ## Reserved words -/

/-- Outside of compound commands no reserved word is waited for. -/
def Frame.Ok (f : Frame) : Prop := f.w = .resNone → f.oldFlag = []

/-- All lists that are parsed are like that. -/
structure Ctx.Ok (ctx : Ctx) : Prop where
  top : ctx.top.Ok
  stack : ∀ f ∈ ctx.stack, f.Ok

theorem Ctx.Ok.donePipe {ctx : Ctx} (h : ctx.Ok) (type : PipeStyle) : (ctx.donePipe type).Ok := by
  refine ⟨?_, h.stack⟩
  have htop := h.top
  unfold Frame.Ok at htop ⊢
  unfold Ctx.donePipe Frame.donePipe Frame.doneCommand
  dsimp only
  split_ifs
  · exact htop
  · exact htop

theorem Ctx.Ok.incSp {ctx : Ctx} (h : ctx.Ok) : ctx.incSp.Ok := ⟨h.top, h.stack⟩

theorem Ctx.Ok.syntaxError {ctx : Ctx} (h : ctx.Ok) : ctx.syntaxError.Ok :=
  ⟨fun hw ↦ Reserved.noConfusion hw, h.stack⟩

theorem reservedList_code : ∀ r ∈ reservedList, r.code ≠ .resNone := by
  decide

theorem Ctx.Ok.reserved {ctx : Ctx} (h : ctx.Ok) {r : ReservedCombo} (hr : r.code ≠ .resNone) :
    (ctx.reserved r).Ok := by
  have htop (pipes : List ProgPipe) (progs : List Prog) (child : Prog) (flag : List Reserved) :
      Frame.Ok ⟨pipes, progs, child, r.code, flag⟩ := fun hw ↦ absurd hw hr
  unfold Ctx.reserved
  split_ifs
  · exact h.syntaxError
  · exact ⟨htop _ _ _ _, List.forall_mem_cons.2 ⟨h.top, h.stack⟩⟩
  · exact h.syntaxError
  · unfold Ctx.popFrame
    have hall := h.stack
    dsimp only
    generalize ctx.stack = stack at hall ⊢
    cases stack with
    | nil => exact ⟨htop _ _ _ _, hall⟩
    | cons old stack =>
      rw [List.forall_mem_cons] at hall
      exact ⟨hall.1, hall.2⟩
  · exact ⟨htop _ _ _ _, h.stack⟩

theorem Ctx.Ok.doneWord {ctx : Ctx} (h : ctx.Ok) (dest : OString) : (doneWord dest ctx).2.2.Ok := by
  unfold Hush.doneWord
  by_cases hnull : dest.data = [] ∧ dest.nonnull = false
  · rw [if_pos hnull]
    exact h
  rw [if_neg hnull]
  by_cases hgroup : ctx.top.child.group.isSome = true
  · rw [if_pos hgroup]
    exact h
  rw [if_neg hgroup]
  cases hr : (if ctx.top.child.words = [] ∧ ctx.semicolon then
      reservedList.find? (·.literal = dest.data) else none) with
  | some r =>
    have hmem : r ∈ reservedList := by
      split_ifs at hr
      exact List.mem_of_find?_eq_some hr
    exact h.reserved (reservedList_code r hmem)
  | none =>
    have hword : (ctx.addWord (strip dest.data, dest.nonnull)).Ok := ⟨h.top, h.stack⟩
    dsimp only
    split_ifs
    · exact hword.donePipe .seq
    · exact hword

/-! ## A turn of the loop -/

/-- What is left is the rest of a string of at most `n` characters. -/
structure Stream.Inside (st : Stream) (n : ℕ) : Prop where
  ended : Ended st.input
  length_le : st.input.length ≤ n
  ctx : st.ctx.Ok

/-- A turn goes on inside of the string, reports a syntax error, or ends a line inside of the
string. -/
def Step.Inside (n : ℕ) : Step → Prop
  | .next st => st.Inside n
  | .ret rcode st => rcode = 1 ∨ rcode = 0 ∧ st.Inside n ∧ st.ctx.top.oldFlag = []

theorem quotedPart_inside {close : UInt8} (hclose : close ≠ 0) {st : Stream} {n : ℕ}
    (h : st.Inside n) :
    ∃ r, quotedPart close st = some r ∧ r.Inside n := by
  obtain ⟨s, found, q, hs, hfound, hle⟩ := getUntil_inside close h.ended
  cases found with
  | false =>
    refine ⟨.ret 1 ⟨{ st.dest.addAll s with nonnull := true }, st.ctx, q⟩, ?_, .inl rfl⟩
    simp only [quotedPart, hs, Option.bind_eq_bind, Option.bind_some, Bool.false_eq_true, if_false]
  | true =>
    refine ⟨.next ⟨{ st.dest.addAll s with nonnull := true }, st.ctx, q⟩, ?_, ?_⟩
    · simp only [quotedPart, hs, Option.bind_eq_bind, Option.bind_some, if_true]
    · exact ⟨(hfound rfl).resolve_right hclose, hle.trans h.length_le, h.ctx⟩

theorem handleDollar_inside {st : Stream} {n : ℕ} (h : st.Inside n) :
    ∃ r, handleDollar st = some r ∧ r.Inside n := by
  obtain ⟨dest, ctx, p⟩ := st
  obtain ⟨hended, hle, hctx⟩ := h
  dsimp only at hended hle hctx
  cases p with
  | nil => exact absurd rfl hended.ne_nil
  | cons c p =>
    rw [List.length_cons] at hle
    simp only [handleDollar, staticPeek, Option.bind_eq_bind, Option.bind_some]
    by_cases halpha : isalpha c = true
    · rw [if_pos halpha]
      obtain ⟨name, q, hq, hrest, hlen⟩ := getName_inside hended
      simp only [hq, Option.bind_some]
      exact ⟨_, rfl, hrest, hlen.trans hle, hctx.incSp⟩
    rw [if_neg halpha]
    by_cases hmark : c = 63
    · rw [if_pos hmark, staticGet]
      have hc : c ≠ 0 := hmark ▸ (by decide)
      exact ⟨_, rfl, (hended.tail hc).1, (Nat.le_succ _).trans hle, hctx.incSp⟩
    rw [if_neg hmark]
    by_cases hbrace : c = 123
    · rw [if_pos hbrace, staticGet]
      have hc : c ≠ 0 := hbrace ▸ (by decide)
      obtain ⟨name, found, q, hq, hfound, hlen⟩ := getUntil_inside 125 (hended.tail hc).1
      simp only [Option.bind_some, hq]
      cases found with
      | false => exact ⟨_, rfl, .inl rfl⟩
      | true =>
        exact ⟨_, rfl, (hfound rfl).resolve_right (by decide),
          (hlen.trans (Nat.le_succ _)).trans hle, hctx.incSp⟩
    · rw [if_neg hbrace]
      exact ⟨_, rfl, hended, hle, hctx⟩

theorem doubled_inside {ch next : UInt8} {type : PipeStyle} {st : Stream} {n : ℕ} (h : st.Inside n)
    (hpeek : staticPeek st.input = some next) (hch : ch ≠ 0) :
    ∃ r, doubled ch next type st = some r ∧ r.Inside n := by
  obtain ⟨dest, ctx, p⟩ := st
  obtain ⟨hended, hle, hctx⟩ := h
  dsimp only at hended hle hctx hpeek
  have hword := hctx.doneWord dest
  cases p with
  | nil => cases hpeek
  | cons c p =>
    obtain rfl := Option.some.inj hpeek
    rw [List.length_cons] at hle
    by_cases hnext : c = ch
    · have hc : c ≠ 0 := hnext ▸ hch
      refine ⟨.next ⟨(doneWord dest ctx).2.1, (doneWord dest ctx).2.2.donePipe type, p⟩, ?_,
        (hended.tail hc).1, (Nat.le_succ _).trans hle, hword.donePipe type⟩
      simp only [doubled, if_pos hnext, staticGet, Option.bind_eq_bind, Option.bind_some]
    · refine ⟨.ret 1 ⟨(doneWord dest ctx).2.1, (doneWord dest ctx).2.2, c :: p⟩, ?_, .inl rfl⟩
      simp only [doubled, if_neg hnext]

theorem parseBlank_inside {flag : Flags} {ch : UInt8} {st : Stream} {n : ℕ} (h : st.Inside n) :
    (parseBlank flag ch st).Inside n := by
  have hword := h.ctx.doneWord st.dest
  unfold parseBlank
  generalize doneWord st.dest st.ctx = r at hword ⊢
  obtain ⟨err, dest, ctx⟩ := r
  cases err with
  | true => exact .inl rfl
  | false =>
    have hline : (if ch = 10 then ctx.donePipe .seq else ctx).Ok := by
      split_ifs
      · exact hword.donePipe .seq
      · exact hword
    simp only [Bool.false_eq_true, if_false]
    generalize (if ch = 10 then ctx.donePipe .seq else ctx) = ctx' at hline ⊢
    split_ifs with hret
    · exact .inr ⟨rfl, ⟨h.ended, h.length_le, hline⟩, hline.top hret.2.2.2⟩
    · exact ⟨h.ended, h.length_le, hline⟩

theorem parseSpecial_inside {ch next : UInt8} {st : Stream} {n : ℕ} (h : st.Inside n)
    (hpeek : staticPeek st.input = some next) (hnext : next ≠ 0) :
    ∃ r, parseSpecial ch next st = some r ∧ r.Inside n := by
  unfold parseSpecial
  split_ifs with hhash hempty hback hdollar hquote hdquote hsemi hand hor hsubst
  · obtain ⟨dest, ctx, p⟩ := st
    obtain ⟨hended, hle, hctx⟩ := h
    dsimp only at hended hle hctx hpeek ⊢
    cases p with
    | nil => cases hpeek
    | cons c p =>
      obtain rfl := Option.some.inj hpeek
      obtain ⟨q, hq, hrest, hlen⟩ := skipComment_inside hended hnext
      exact ⟨.next ⟨dest, ctx, q⟩, by rw [hq]; rfl, hrest, hlen.trans hle, hctx⟩
  · exact ⟨_, rfl, h.ended, h.length_le, h.ctx⟩
  · obtain ⟨dest, ctx, p⟩ := st
    obtain ⟨hended, hle, hctx⟩ := h
    dsimp only at hended hle hctx hpeek ⊢
    cases p with
    | nil => cases hpeek
    | cons c p =>
      obtain rfl := Option.some.inj hpeek
      exact ⟨_, rfl, (hended.tail hnext).1, (Nat.le_succ _).trans hle, hctx⟩
  · exact handleDollar_inside h
  · exact quotedPart_inside (by decide) h
  · exact ⟨_, rfl, h.ended, h.length_le, h.ctx⟩
  · exact ⟨_, rfl, h.ended, h.length_le, (h.ctx.doneWord st.dest).donePipe .seq⟩
  · exact doubled_inside h hpeek (hand ▸ by decide)
  · exact doubled_inside h hpeek (hor ▸ by decide)
  · exact quotedPart_inside (by decide) h
  · exact ⟨_, rfl, .inl rfl⟩

theorem parseChar_eq (ifs : Str) (flag : Flags) (ch : UInt8) (st : Stream) :
    parseChar ifs flag ch st =
      (if ch = 10 then some 0 else staticPeek st.input).bind fun next ↦
        if mapOf ifs flag ch = 0 ∨ (mapOf ifs flag ch = 1 ∨ mapOf ifs flag ch = 2) ∧
          st.dest.quote then
          some (.next { st with dest := st.dest.addqchr ch })
        else if mapOf ifs flag ch = 2 then some (parseBlank flag ch st)
        else parseSpecial ch next st := by
  by_cases hnl : ch = 10
  · simp only [parseChar, if_pos hnl, Option.bind_eq_bind]
  · simp only [parseChar, if_neg hnl, Option.bind_eq_bind]

theorem mapOf_newline (ifs : Str) (flag : Flags) :
    mapOf ifs flag 10 = 0 ∨ mapOf ifs flag 10 = 2 := by
  have hspecial : (10 : UInt8) ∉ ([59, 38, 124, 35] : Str) := by decide
  have hquote : (10 : UInt8) ∉ ([92, 36, 39, 34, substedVarSymbol] : Str) := by decide
  unfold mapOf
  rw [if_neg hspecial, if_neg hquote]
  split_ifs
  · exact .inl rfl
  · exact .inr rfl
  · exact .inl rfl

/-- A character is read, and the ones behind it that belong to it. -/
theorem parseChar_inside (ifs : Str) (flag : Flags) (dest : OString) {ch : UInt8} {ctx : Ctx}
    {p : Str} (h : Ended (ch :: p)) (hch : ch ≠ 0) (hctx : ctx.Ok) :
    ∃ r, parseChar ifs flag ch ⟨dest, ctx, p⟩ = some r ∧ r.Inside p.length := by
  obtain ⟨hrest, hnext⟩ := h.tail hch
  have hst : Stream.Inside ⟨dest, ctx, p⟩ p.length := ⟨hrest, le_rfl, hctx⟩
  by_cases hnl : ch = 10
  · subst hnl
    simp only [parseChar, if_true, Option.bind_eq_bind, Option.bind_some]
    obtain hmap | hmap := mapOf_newline ifs flag
    · rw [if_pos (.inl hmap)]
      exact ⟨_, rfl, hst.ended, hst.length_le, hst.ctx⟩
    · rw [if_pos hmap]
      split_ifs
      · exact ⟨_, rfl, hst.ended, hst.length_le, hst.ctx⟩
      · exact ⟨_, rfl, parseBlank_inside hst⟩
  · obtain ⟨d, q, rfl, hd⟩ := hnext hnl
    simp only [parseChar, if_neg hnl, staticPeek, Option.bind_eq_bind, Option.bind_some]
    split_ifs
    · exact ⟨_, rfl, hst.ended, hst.length_le, hst.ctx⟩
    · exact ⟨_, rfl, parseBlank_inside hst⟩
    · exact parseSpecial_inside hst rfl hd

/-! ## A line -/

/-- `parse_stream` on the rest of a string: it comes to its NUL, it finds a syntax error, or it
comes to the end of a line. -/
theorem parseStream_inside (ifs : Str) (flag : Flags) {fuel : ℕ} {st : Stream}
    (hst : Ended st.input) (hctx : st.ctx.Ok) (hfuel : st.input.length < fuel) :
    ∃ rcode st', parseStream ifs flag fuel st = some (rcode, st') ∧
      (rcode = -1 ∨ rcode = 1 ∨ rcode = 0 ∧ Ended st'.input ∧ st'.input.length < st.input.length ∧
        st'.ctx.top.oldFlag = []) := by
  induction fuel generalizing st with
  | zero => exact absurd hfuel (Nat.not_lt_zero _)
  | succ fuel ih =>
    obtain ⟨dest, ctx, p⟩ := st
    dsimp only at hst hctx hfuel ⊢
    cases p with
    | nil => exact absurd rfl hst.ne_nil
    | cons ch p =>
      rw [List.length_cons] at hfuel
      by_cases hch : ch = 0
      · refine ⟨-1, ⟨dest, ctx, p⟩, ?_, .inl rfl⟩
        simp only [parseStream, staticGet, if_pos hch, Option.bind_eq_bind, Option.bind_some]
      obtain ⟨r, hr, hinside⟩ := parseChar_inside ifs flag dest hst hch hctx
      have hturn : parseStream ifs flag (fuel + 1) ⟨dest, ctx, ch :: p⟩ =
          Step.rec (fun rcode st ↦ some (rcode, st)) (fun st ↦ parseStream ifs flag fuel st) r := by
        simp only [parseStream, staticGet, if_neg hch, Option.bind_eq_bind, Option.bind_some, hr]
        cases r <;> rfl
      rw [hturn]
      cases r with
      | ret rcode st' =>
        refine ⟨rcode, st', rfl, ?_⟩
        obtain hone | ⟨hzero, hline, hflag⟩ := hinside
        · exact .inr (.inl hone)
        · exact .inr (.inr ⟨hzero, hline.ended, Nat.lt_succ_of_le hline.length_le, hflag⟩)
      | next st' =>
        have hlen : st'.input.length < fuel :=
          lt_of_le_of_lt hinside.length_le (Nat.lt_of_succ_lt_succ hfuel)
        obtain ⟨rcode, st'', hrun, hend⟩ := ih hinside.ended hinside.ctx hlen
        refine ⟨rcode, st'', hrun, hend.imp_right (Or.imp_right ?_)⟩
        rintro ⟨hzero, hended, hshort, hflag⟩
        exact ⟨hzero, hended, hshort.trans (Nat.lt_succ_of_le hinside.length_le), hflag⟩

/-- The line that `parse_stream_outer` is in front of. -/
theorem lineStream_inside (ifs : Str) (flag : Flags) (temp : OString) {input : Str}
    (h : Ended input) :
    ∃ rcode st, parseStream ifs flag (input.length + 1) (lineStream flag temp input) =
      some (rcode, st) ∧
      (rcode = -1 ∨ rcode = 1 ∨ rcode = 0 ∧ Ended st.input ∧ st.input.length < input.length ∧
        st.ctx.top.oldFlag = []) :=
  have hctx : Ctx.Ok (lineStream flag temp input).ctx := ⟨fun _ ↦ rfl, List.forall_mem_nil _⟩
  @parseStream_inside ifs flag _ (lineStream flag temp input) h hctx (Nat.lt_succ_self _)

/-! ## All lines -/

variable {W : Type} {sh : Caller W} {flag : Flags}

/-- Where the loop of `parse_stream_outer` is in front of a line: `temp`, the string from there on,
and what the commands have made of the world. -/
structure Line (W : Type) where
  temp : OString
  input : Str
  w : W

/-- `parse_stream` with a line. -/
def Line.parse (sh : Caller W) (flag : Flags) (l : Line W) : Option (ℤ × Stream) :=
  parseStream (sh.ifs l.w) flag (l.input.length + 1) (lineStream flag l.temp l.input)

/-- A line with a quote, `${` or value that is not closed, a single `&` or `|`, or a reserved word
or a word where there may be none. -/
def Line.SyntaxError (sh : Caller W) (flag : Flags) (l : Line W) : Prop :=
  ∃ st, l.parse sh flag = some (1, st)

/-- The line behind a line, which is there when the commands do not exit and the string goes on. -/
def Line.Next (sh : Caller W) (flag : Flags) (l l' : Line W) : Prop :=
  ∃ st, l.parse sh flag = some (0, st) ∧ (sh.runList (lineList st) l.w).1 ≠ -2 ∧
    staticPeek st.input ≠ some 0 ∧ l' = ⟨lineTemp st, st.input, (sh.runList (lineList st) l.w).2⟩

/-- All lines from a line on are without syntax errors. -/
def Line.Clean (sh : Caller W) (flag : Flags) (l : Line W) : Prop :=
  ∀ l', Relation.ReflTransGen (Line.Next sh flag) l l' → ¬ l'.SyntaxError sh flag

theorem Line.clean_of_last {l : Line W} (hlast : ∀ l', ¬ l.Next sh flag l') :
    l.Clean sh flag ↔ ¬ l.SyntaxError sh flag := by
  constructor
  · intro h
    exact h l .refl
  · intro h l' hl'
    obtain rfl | ⟨l₁, hnext, _⟩ := hl'.cases_head
    · exact h
    · exact absurd hnext (hlast l₁)

theorem Line.clean_of_next {l l₁ : Line W} (hnext : l.Next sh flag l₁) :
    l.Clean sh flag ↔ l₁.Clean sh flag := by
  constructor
  · intro h l' hl'
    exact h l' (.head hnext hl')
  · intro h l' hl'
    obtain ⟨st, hst, -, -, rfl⟩ := hnext
    obtain rfl | ⟨l₂, ⟨st₂, hst₂, -, -, rfl⟩, hrest⟩ := hl'.cases_head
    · rintro ⟨st', hst'⟩
      rw [hst] at hst'
      cases hst'
    · rw [hst] at hst₂
      cases hst₂
      exact h l' hrest

theorem outerLoop_exit (l : Line W) (fuel : ℕ) (code : ℤ) (hexit : flag.exitFromLoop = true)
    (hl : Ended l.input) :
    ∃ c w, outerLoop sh flag (fuel + 1) l.temp l.input code l.w = some (.inside c w) := by
  obtain ⟨rcode, st, hrun, -⟩ := lineStream_inside (sh.ifs l.w) flag l.temp hl
  simp only [outerLoop, hrun, hexit, or_true, if_true]
  split_ifs <;> exact ⟨_, _, rfl⟩

/-- The loop without `FLAG_EXIT_FROM_LOOP`, by induction on the lines. -/
theorem outerLoop_inside_iff {fuel : ℕ} (l : Line W) (code : ℤ) (hexit : flag.exitFromLoop = false)
    (hl : Ended l.input) (hfuel : l.input.length < fuel) :
    ∃ o, outerLoop sh flag fuel l.temp l.input code l.w = some o ∧
      (o ≠ .outside ↔ l.Clean sh flag) := by
  induction fuel generalizing l code with
  | zero => exact absurd hfuel (Nat.not_lt_zero _)
  | succ fuel ih =>
    obtain ⟨rcode, st, hrun, hend⟩ := lineStream_inside (sh.ifs l.w) flag l.temp hl
    have hparse : l.parse sh flag = some (rcode, st) := hrun
    have hinside {c : ℤ} {w : W} : Outcome.inside c w ≠ .outside := by
      rintro ⟨⟩
    have hclean (hone : rcode ≠ 1) : ¬ l.SyntaxError sh flag := by
      rintro ⟨st', hst'⟩
      rw [hparse] at hst'
      exact hone (congrArg Prod.fst (Option.some.inj hst'))
    rw [Line.parse] at hparse
    simp only [outerLoop, hparse, hexit, Bool.false_eq_true, or_false]
    obtain rfl | rfl | ⟨rfl, hended, hshort, hflag⟩ := hend
    · -- the string has ended
      have hlast (l' : Line W) : ¬ l.Next sh flag l' := by
        rintro ⟨st', hst', -⟩
        rw [Line.parse, hparse] at hst'
        cases hst'
      simp only [if_true]
      split_ifs <;> exact ⟨_, rfl,
        iff_of_true hinside ((Line.clean_of_last hlast).2 (hclean (by decide)))⟩
    · -- a syntax error
      refine ⟨.outside, ?_, iff_of_false (fun h ↦ h rfl) fun h ↦ h l .refl ⟨st, hparse⟩⟩
      rw [if_neg (fun h ↦ h.1 rfl), if_neg (by decide)]
    · -- the end of a line
      have hne : (0 : ℤ) ≠ 1 ∧ st.ctx.top.oldFlag = [] := ⟨by decide, hflag⟩
      rw [if_pos hne]
      by_cases hquit : (sh.runList (lineList st) l.w).1 = -2
      · have hlast (l' : Line W) : ¬ l.Next sh flag l' := by
          rintro ⟨st', hst', hrun', -⟩
          rw [Line.parse, hparse] at hst'
          cases hst'
          exact hrun' hquit
        rw [if_pos hquit]
        exact ⟨_, rfl, iff_of_true hinside ((Line.clean_of_last hlast).2 (hclean (by decide)))⟩
      rw [if_neg hquit, if_neg (by decide)]
      cases hinput : st.input with
      | nil => exact absurd hinput hended.ne_nil
      | cons c p =>
        rw [hinput] at hended hshort
        simp only [staticPeek]
        by_cases hc : c = 0
        · have hlast (l' : Line W) : ¬ l.Next sh flag l' := by
            rintro ⟨st', hst', -, hpeek, -⟩
            rw [Line.parse, hparse] at hst'
            cases hst'
            rw [hinput, hc] at hpeek
            exact hpeek rfl
          rw [if_pos hc]
          exact ⟨_, rfl, iff_of_true hinside ((Line.clean_of_last hlast).2 (hclean (by decide)))⟩
        · have hnext : l.Next sh flag ⟨lineTemp st, c :: p, (sh.runList (lineList st) l.w).2⟩ := by
            refine ⟨st, hparse, hquit, ?_, by rw [hinput]⟩
            rw [hinput]
            exact fun h ↦ hc (Option.some.inj h)
          rw [if_neg hc, Line.clean_of_next hnext]
          exact ih ⟨lineTemp st, c :: p, (sh.runList (lineList st) l.w).2⟩ _ hended
            (lt_of_lt_of_le hshort (Nat.le_of_lt_succ hfuel))

/-! ## The whole string -/

theorem eq_append_newline {s : Str} (hmem : 10 ∈ s) (hlast : (s.dropWhile (· ≠ 10)).tail = []) :
    ∃ t, s = t ++ [10] := by
  have hcut := List.takeWhile_append_dropWhile (p := (· ≠ (10 : UInt8))) (l := s)
  cases hd : s.dropWhile (· ≠ 10) with
  | nil =>
    rw [List.dropWhile_eq_nil_iff] at hd
    exact absurd rfl (of_decide_eq_true (hd 10 hmem))
  | cons c r =>
    have hne : s.dropWhile (· ≠ 10) ≠ [] := hd ▸ List.cons_ne_nil c r
    have hc := List.head_dropWhile_not (· ≠ (10 : UInt8)) hne
    have hhead : (s.dropWhile (· ≠ 10)).head hne = c := by simp only [hd, List.head_cons]
    rw [hhead] at hc
    rw [hd, List.tail_cons] at hlast
    rw [hd, not_not.1 (of_decide_eq_false hc), hlast] at hcut
    exact ⟨_, hcut.symm⟩

theorem ended_outerText {s : Str} (hs : 0 ∉ s) : Ended (outerText s ++ [0]) := by
  unfold outerText
  split_ifs with hnl
  · obtain ⟨t, rfl⟩ := eq_append_newline hnl.1 hnl.2
    exact ended_text fun ht ↦ hs (List.mem_append_left _ ht)
  · exact ended_text hs

theorem length_outerText_le (s : Str) : (outerText s).length ≤ s.length + 1 := by
  unfold outerText
  split_ifs
  · exact Nat.le_succ _
  · exact (List.length_append).le

/-- The parser returns and reads nothing but the string exactly when it leaves its loop behind the
first line, or no line it comes to has a syntax error. -/
theorem parseStringOuter_inside_iff (sh : Caller W) (flag : Flags) {s : Str} (hs : 0 ∉ s) (w : W) :
    ∃ o, parseStringOuter sh s flag w = some o ∧
      (o ≠ .outside ↔ s = [] ∨ flag.exitFromLoop = true ∨
        Line.Clean sh flag ⟨nullOString, outerText s ++ [0], w⟩) := by
  unfold parseStringOuter
  by_cases hempty : s = []
  · rw [if_pos hempty]
    exact ⟨_, rfl, iff_of_true (by rintro ⟨⟩) (.inl hempty)⟩
  rw [if_neg hempty]
  have hl := ended_outerText hs
  cases hexit : flag.exitFromLoop with
  | true =>
    obtain ⟨c, w', hrun⟩ := @outerLoop_exit W sh flag ⟨nullOString, outerText s ++ [0], w⟩
      (s.length + 2) 1 hexit hl
    exact ⟨_, hrun, iff_of_true (by rintro ⟨⟩) (.inr (.inl rfl))⟩
  | false =>
    have hfuel : (outerText s ++ [0]).length < s.length + 3 := by
      rw [List.length_append]
      exact Nat.lt_of_le_of_lt (Nat.add_le_add_right (length_outerText_le s) _) (Nat.lt_succ_self _)
    obtain ⟨o, hrun, hiff⟩ := @outerLoop_inside_iff W sh flag (s.length + 3)
      ⟨nullOString, outerText s ++ [0], w⟩ 1 hexit hl hfuel
    refine ⟨o, hrun, hiff.trans ?_⟩
    rw [or_iff_right hempty, or_iff_right Bool.false_ne_true]

/-- The default value of `IFS`. -/
def defaultIfs : Str := [32, 9, 10]

/-- A shell with the default `IFS` whose commands do nothing. -/
def idleCaller : Caller Unit := ⟨fun _ ↦ defaultIfs, fun _ w ↦ (0, w)⟩

/-- The flags of `run_command_list`. -/
def commandFlags : Flags := ⟨false, true, false, false⟩

/-- The condition for `ab`. -/
theorem parseStringOuter_inside_iff_ab :
    ∃ o, parseStringOuter idleCaller [97, 98] commandFlags () = some o ∧
      (o ≠ .outside ↔ ([97, 98] : Str) = [] ∨ commandFlags.exitFromLoop = true ∨
        Line.Clean idleCaller commandFlags ⟨nullOString, outerText [97, 98] ++ [0], ()⟩) :=
  parseStringOuter_inside_iff idleCaller commandFlags (by decide) ()

/-- A single `&` is a syntax error, behind which the parser reads the address 0. -/
theorem not_parseStringOuter_inside :
    ¬ ∀ (flag : Flags) (s : Str), 0 ∉ s → parseStringOuter idleCaller s flag () ≠ some .outside :=
  fun h ↦ h commandFlags [38] (by decide) rfl

end MiniPi.Hush
