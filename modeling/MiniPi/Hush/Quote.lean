import MiniPi.Hush.Outer

/-!
# Quoted words

A word in single quotes is collected as it is, and `done_word` takes a layer of backslashes from it
like from any other word.
-/

namespace MiniPi.Hush

/-! ## The layer of backslashes -/

theorem strip_plain {s : Str} (h : 92 ∉ s) : strip s = some s := by
  induction s with
  | nil => rfl
  | cons c s ih =>
    rw [List.mem_cons, not_or] at h
    have hc : c ≠ 92 := Ne.symm h.1
    cases s with
    | nil => rw [strip, if_neg hc]
    | cons d s => rw [strip, if_neg hc, ih h.2, Option.map_some]

/-- A word gets shorter by each backslash that is taken from it. -/
theorem length_strip {s t : Str} (h : strip s = some t) :
    t.length ≤ s.length ∧ (92 ∈ s → t.length < s.length) := by
  fun_induction strip s generalizing t with
  | case1 =>
    cases h
    exact ⟨le_rfl, fun hmem ↦ absurd hmem List.not_mem_nil⟩
  | case2 => cases h
  | case3 c hc =>
    cases h
    exact ⟨le_rfl, fun hmem ↦ absurd (List.mem_singleton.1 hmem).symm hc⟩
  | case4 d s ih =>
    obtain ⟨u, hu, rfl⟩ := Option.map_eq_some_iff.1 h
    have hle : u.length + 1 < s.length + 1 + 1 := Nat.succ_lt_succ (Nat.lt_succ_of_le (ih hu).1)
    exact ⟨hle.le, fun _ ↦ hle⟩
  | case5 c d s hc ih =>
    obtain ⟨u, hu, rfl⟩ := Option.map_eq_some_iff.1 h
    obtain ⟨hle, hlt⟩ := ih hu
    refine ⟨Nat.succ_le_succ hle, fun hmem ↦ Nat.succ_lt_succ (hlt ?_)⟩
    exact (List.mem_cons.1 hmem).resolve_left (Ne.symm hc)

theorem strip_eq_self_iff {s : Str} : strip s = some s ↔ 92 ∉ s := by
  constructor
  · intro h hmem
    exact lt_irrefl _ ((length_strip h).2 hmem)
  · exact strip_plain

/-! ## Reading a word -/

theorem getUntil_found {close : UInt8} {s p : Str} (hs : 0 ∉ s) (hclose : close ∉ s)
    (hne : close ≠ 0) :
    getUntil close (s ++ close :: p) = some (s, true, p) := by
  induction s with
  | nil => rw [List.nil_append, getUntil, if_neg hne, if_pos rfl]
  | cons c s ih =>
    rw [List.mem_cons, not_or] at hs hclose
    rw [List.cons_append, getUntil, if_neg (Ne.symm hs.1), if_neg (Ne.symm hclose.1),
      ih hs.2 hclose.2, Option.map_some]

/-- A string of characters that mean nothing to the parser. -/
def Plain (ifs : Str) (flag : Flags) (s : Str) : Prop := ∀ c ∈ s, c ≠ 0 ∧ mapOf ifs flag c = 0

instance (ifs : Str) (flag : Flags) (s : Str) : Decidable (Plain ifs flag s) :=
  inferInstanceAs (Decidable (∀ c ∈ s, c ≠ 0 ∧ mapOf ifs flag c = 0))

theorem OString.addqchr_unquoted {o : OString} (h : o.quote = false) (ch : UInt8) :
    o.addqchr ch = o.addchr ch := by
  rw [addqchr, if_neg]
  rintro ⟨hquote, -⟩
  exact Bool.false_ne_true (h.symm.trans hquote)

@[simp]
theorem OString.addAll_quote (o : OString) (s : Str) : (o.addAll s).quote = o.quote := rfl

@[simp]
theorem OString.addAll_nil (o : OString) : o.addAll [] = o := by
  rw [addAll, List.append_nil]

theorem OString.addAll_cons (o : OString) (c : UInt8) (s : Str) :
    o.addAll (c :: s) = (o.addchr c).addAll s := by
  simp only [addAll, addchr, List.append_assoc, List.singleton_append]

variable {ifs : Str} {flag : Flags} {fuel : ℕ} {o : OString} {ctx : Ctx}

theorem parseStream_next {c : UInt8} {p : Str} {st : Stream} (hc : c ≠ 0)
    (hturn : parseChar ifs flag c ⟨o, ctx, p⟩ = some (.next st)) :
    parseStream ifs flag (fuel + 1) ⟨o, ctx, c :: p⟩ = parseStream ifs flag fuel st := by
  simp only [parseStream, staticGet, if_neg hc, Option.bind_eq_bind, Option.bind_some, hturn]

/-- A plain character is added to the word. -/
theorem parseChar_plain {c d : UInt8} {p : Str} (hmap : mapOf ifs flag c = 0)
    (hquote : o.quote = false) :
    parseChar ifs flag c ⟨o, ctx, d :: p⟩ = some (.next ⟨o.addchr c, ctx, d :: p⟩) := by
  simp only [parseChar, Option.bind_eq_bind, hmap, true_or, if_true,
    OString.addqchr_unquoted hquote]
  split_ifs <;> rfl

theorem parseStream_plain {s : Str} (h : Plain ifs flag s) {d : UInt8} {p : Str}
    (hquote : o.quote = false) :
    parseStream ifs flag (fuel + s.length) ⟨o, ctx, s ++ d :: p⟩ =
      parseStream ifs flag fuel ⟨o.addAll s, ctx, d :: p⟩ := by
  induction s generalizing o with
  | nil =>
    rw [OString.addAll_nil]
    rfl
  | cons c s ih =>
    obtain ⟨⟨hc, hmap⟩, hrest⟩ := List.forall_mem_cons.1 h
    obtain ⟨d', q, hq⟩ : ∃ d' q, s ++ d :: p = d' :: q := List.exists_cons_of_ne_nil (by simp)
    have hturn : parseChar ifs flag c ⟨o, ctx, s ++ d :: p⟩ =
        some (.next ⟨o.addchr c, ctx, s ++ d :: p⟩) := by
      rw [hq]
      exact parseChar_plain hmap hquote
    rw [List.length_cons, ← Nat.add_assoc, List.cons_append, parseStream_next hc hturn,
      ih hrest (o := o.addchr c) hquote, ← OString.addAll_cons]

/-! ## The end of a word -/

/-- A character of `IFS` that is not special is a blank. -/
theorem mapOf_ifs {c : UInt8} (hc : c ∈ ifs) (hspecial : c ∉ ([59, 36, 38, 124] : Str)) :
    mapOf ifs flag c = 2 := by
  rw [mapOf, if_neg (fun h ↦ hspecial h.2), if_pos hc]

theorem mapOf_quote (h : 39 ∉ ifs) : mapOf ifs flag 39 = 3 := by
  have hspecial : (39 : UInt8) ∉ ([59, 36, 38, 124] : Str) := by decide
  rw [mapOf, if_neg (fun h ↦ hspecial h.2), if_neg h, if_neg (by decide), if_pos (by decide)]

/-- A context in which a word is one of a simple command, and no name of a compound one. -/
structure Ctx.Simple (ctx : Ctx) (word : Str) : Prop where
  group : ctx.top.child.group = none
  reserved : ctx.top.child.words = [] → ∀ r ∈ reservedList, r.literal ≠ word
  w : ctx.top.w = .resNone

theorem doneWord_simple (hctx : ctx.Simple o.data) (hne : ¬(o.data = [] ∧ o.nonnull = false)) :
    doneWord o ctx = (false, o.reset, ctx.addWord (strip o.data, o.nonnull)) := by
  have hfor : (ctx.addWord (strip o.data, o.nonnull)).top.w ≠ .resFor := by
    rw [show (ctx.addWord (strip o.data, o.nonnull)).top.w = .resNone from hctx.w]
    decide
  have hfind : (if ctx.top.child.words = [] ∧ ctx.semicolon then
      reservedList.find? (·.literal = o.data) else none) = none := by
    split_ifs with hwords
    · rw [List.find?_eq_none]
      intro r hr heq
      exact hctx.reserved hwords.1 r hr (of_decide_eq_true heq)
    · rfl
  rw [doneWord, if_neg hne, if_neg (by rw [hctx.group]; exact Bool.false_ne_true), hfind]
  dsimp only
  rw [if_neg hfor]

@[simp]
theorem Ctx.donePipe_w (ctx : Ctx) (type : PipeStyle) : (ctx.donePipe type).top.w = ctx.top.w := by
  unfold donePipe Frame.donePipe Frame.doneCommand
  dsimp only
  split_ifs <;> rfl

theorem parseChar_blank (flag : Flags) {d : UInt8} {p : Str} (hblank : 32 ∈ ifs)
    (hquote : o.quote = false) (hctx : ctx.Simple o.data)
    (hne : ¬(o.data = [] ∧ o.nonnull = false)) :
    parseChar ifs flag 32 ⟨o, ctx, d :: p⟩ =
      some (.next ⟨o.reset, ctx.addWord (strip o.data, o.nonnull), d :: p⟩) := by
  have hmap : mapOf ifs flag 32 = 2 := mapOf_ifs hblank (by decide)
  have hturn : parseBlank flag 32 ⟨o, ctx, d :: p⟩ =
      .next ⟨o.reset, ctx.addWord (strip o.data, o.nonnull), d :: p⟩ := by
    rw [parseBlank, doneWord_simple hctx hne]
    rfl
  simp only [parseChar, staticPeek, hmap, hquote, hturn, Option.bind_eq_bind, Option.bind_some]
  rfl

/-- The end of the line, and of the string. -/
theorem parseStream_newline (hnl : 10 ∈ ifs) (hquote : o.quote = false) (hctx : ctx.Simple o.data)
    (hne : ¬(o.data = [] ∧ o.nonnull = false)) :
    ∃ rcode p, parseStream ifs flag (fuel + 2) ⟨o, ctx, [10, 0]⟩ =
        some (rcode, ⟨o.reset, (ctx.addWord (strip o.data, o.nonnull)).donePipe .seq, p⟩) ∧
      rcode ≠ 1 := by
  have hmap : mapOf ifs flag 10 = 2 := mapOf_ifs hnl (by decide)
  have hw : ((ctx.addWord (strip o.data, o.nonnull)).donePipe .seq).top.w = .resNone := by
    rw [Ctx.donePipe_w]
    exact hctx.w
  have hblank : parseBlank flag 10 ⟨o, ctx, [0]⟩ =
      if flag.contOnNewline = false then
        .ret 0 ⟨o.reset, (ctx.addWord (strip o.data, o.nonnull)).donePipe .seq, [0]⟩
      else .next ⟨o.reset, (ctx.addWord (strip o.data, o.nonnull)).donePipe .seq, [0]⟩ := by
    have hreset : o.reset.quote = false := hquote
    rw [parseBlank, doneWord_simple hctx hne]
    simp only [Bool.false_eq_true, if_false, if_true, hw, hreset, and_true, true_and]
  have hturn : parseChar ifs flag 10 ⟨o, ctx, [0]⟩ = some (parseBlank flag 10 ⟨o, ctx, [0]⟩) := by
    simp only [parseChar, hmap, hquote, Option.bind_eq_bind, Option.bind_some]
    rfl
  rw [hblank] at hturn
  cases hcont : flag.contOnNewline with
  | false =>
    rw [if_pos hcont] at hturn
    refine ⟨0, [0], ?_, by decide⟩
    simp only [parseStream, staticGet, if_neg (show (10 : UInt8) ≠ 0 by decide),
      Option.bind_eq_bind, Option.bind_some, hturn]
  | true =>
    rw [if_neg (by rw [hcont]; decide)] at hturn
    refine ⟨-1, [], ?_, by decide⟩
    rw [parseStream_next (by decide) hturn]
    rfl

/-! ## A line -/

/-- A word that is the name of a command: not empty, plain, and not reserved. -/
structure Name (ifs : Str) (flag : Flags) (cmd : Str) : Prop where
  ne_nil : cmd ≠ []
  plain : Plain ifs flag cmd
  reserved : ∀ r ∈ reservedList, r.literal ≠ cmd

theorem Plain.not_mem {s : Str} {c : UInt8} (h : Plain ifs flag s) (hc : mapOf ifs flag c ≠ 0) :
    c ∉ s :=
  fun hmem ↦ hc (h c hmem).2

theorem mapOf_backslash : mapOf ifs flag 92 ≠ 0 := by
  have hspecial : (92 : UInt8) ∉ ([59, 36, 38, 124] : Str) := by decide
  rw [mapOf, if_neg (fun h ↦ hspecial h.2)]
  split_ifs with hifs h₁ h₂
  · decide
  · decide
  · decide
  · exact absurd (by decide) h₂

/-- The context in front of a line. -/
def lineCtx (flag : Flags) : Ctx := ⟨initFrame, [], flag.parseSemicolon⟩

/-- Up to the blank behind the name of the command. -/
theorem parseStream_name (fuel : ℕ) (d : UInt8) (p : Str) {cmd : Str} (hcmd : Name ifs flag cmd)
    (hblank : 32 ∈ ifs) :
    parseStream ifs flag (fuel + 1 + cmd.length)
      (lineStream flag nullOString (cmd ++ 32 :: d :: p)) =
      parseStream ifs flag fuel ⟨nullOString, (lineCtx flag).addWord (some cmd, false),
      d :: p⟩ := by
  have hsimple : (lineCtx flag).Simple (nullOString.addAll cmd).data :=
    ⟨rfl, fun _ ↦ hcmd.reserved, rfl⟩
  have hne : ¬((nullOString.addAll cmd).data = [] ∧ (nullOString.addAll cmd).nonnull = false) :=
    fun h ↦ hcmd.ne_nil h.1
  have hword : strip cmd = some cmd := strip_plain (hcmd.plain.not_mem mapOf_backslash)
  have hturn := @parseChar_blank ifs _ _ flag d p hblank rfl hsimple hne
  rw [lineStream, parseStream_plain hcmd.plain rfl]
  rw [show (nullOString.addAll cmd).data = cmd from rfl, hword] at hturn
  exact parseStream_next (by decide) hturn

/-- A part in single quotes at the beginning of a word. -/
theorem parseChar_quote (flag : Flags) {s p : Str} (hifs : 39 ∉ ifs) (hs : 0 ∉ s)
    (hquote : 39 ∉ s) :
    parseChar ifs flag 39 ⟨nullOString, ctx, s ++ 39 :: p⟩ =
      some (.next ⟨⟨s, true, false⟩, ctx, p⟩) := by
  have hread : getUntil 39 (s ++ 39 :: p) = some (s, true, p) :=
    getUntil_found hs hquote (by decide)
  have hpart : quotedPart 39 ⟨nullOString, ctx, s ++ 39 :: p⟩ =
      some (.next ⟨⟨s, true, false⟩, ctx, p⟩) := by
    simp only [quotedPart, hread, Option.bind_eq_bind, Option.bind_some, if_true]
    rfl
  have hspecial (next : UInt8) : parseSpecial 39 next ⟨nullOString, ctx, s ++ 39 :: p⟩ =
      quotedPart 39 ⟨nullOString, ctx, s ++ 39 :: p⟩ := rfl
  obtain ⟨d, q, hq⟩ : ∃ d q, s ++ 39 :: p = d :: q := List.exists_cons_of_ne_nil (by simp)
  have hpeek : staticPeek (s ++ 39 :: p) = some d := by rw [hq, staticPeek]
  simp only [parseChar, mapOf_quote hifs, hpeek, hspecial, hpart, Option.bind_eq_bind,
    Option.bind_some]
  rfl

/-- A word in single quotes up to the end of the line. -/
theorem parseStream_quoted (flag : Flags) (fuel : ℕ) {s : Str} (hnl : 10 ∈ ifs) (hifs : 39 ∉ ifs)
    (hs : 0 ∉ s) (hquote : 39 ∉ s) (hctx : ctx.Simple s) :
    ∃ rcode p, parseStream ifs flag (fuel + 3) ⟨nullOString, ctx, 39 :: s ++ [39, 10, 0]⟩ =
        some (rcode, ⟨nullOString, (ctx.addWord (strip s, true)).donePipe .seq, p⟩) ∧
        rcode ≠ 1 := by
  rw [List.cons_append, parseStream_next (by decide) (parseChar_quote flag hifs hs hquote)]
  exact parseStream_newline (o := ⟨s, true, false⟩) hnl rfl hctx fun h ↦ Bool.noConfusion h.2

/-- The line `cmd 's'`, with its newline and its NUL. -/
def quotedLine (cmd s : Str) : Str := cmd ++ 32 :: (39 :: s ++ [39, 10, 0])

/-- The command of `cmd 's'`: its words are `cmd` and what `done_word` makes of `s`. -/
theorem parse_quotedLine {cmd s : Str} (hcmd : Name ifs flag cmd) (hblank : 32 ∈ ifs)
    (hnl : 10 ∈ ifs) (hifs : 39 ∉ ifs) (hs : 0 ∉ s) (hquote : 39 ∉ s) :
    ∃ rcode st, parseStream ifs flag ((quotedLine cmd s).length + 1)
        (lineStream flag nullOString (quotedLine cmd s)) = some (rcode, st) ∧ rcode ≠ 1 ∧
      st.dest = nullOString ∧ st.ctx = ((((lineCtx flag).addWord (some cmd, false)).addWord
        (strip s, true)).donePipe .seq) := by
  have hsimple : ((lineCtx flag).addWord (some cmd, false)).Simple s :=
    ⟨rfl, fun h ↦ absurd h (List.cons_ne_nil _ _), rfl⟩
  have hlen : (quotedLine cmd s).length + 1 = s.length + 2 + 3 + 1 + cmd.length := by
    simp only [quotedLine, List.length_append, List.length_cons, List.length_nil]
    omega
  have hname := parseStream_name (s.length + 2 + 3) 39 (s ++ [39, 10, 0]) hcmd hblank
  obtain ⟨rcode, p, hrun, hone⟩ :=
    parseStream_quoted flag (s.length + 2) hnl hifs hs hquote hsimple
  rw [hlen]
  exact ⟨rcode, _, hname.trans hrun, hone, rfl, rfl⟩

/-- What the parser makes of `cmd 's'` is one command with the words `cmd` and `s`. -/
def Literal (ifs : Str) (flag : Flags) (cmd s : Str) : Prop :=
  ∃ rcode st, parseStream ifs flag ((quotedLine cmd s).length + 1)
      (lineStream flag nullOString (quotedLine cmd s)) = some (rcode, st) ∧ rcode ≠ 1 ∧
    st.ctx.top.pipes = [([.mk [(some cmd, false), (some s, true)] 0 none], .seq, .resNone)]

theorem literal_iff_strip {cmd s : Str} (hcmd : Name ifs flag cmd) (hblank : 32 ∈ ifs)
    (hnl : 10 ∈ ifs) (hifs : 39 ∉ ifs) (hs : 0 ∉ s) (hquote : 39 ∉ s) :
    Literal ifs flag cmd s ↔ strip s = some s := by
  obtain ⟨rcode, st, hrun, hone, -, hctx⟩ := parse_quotedLine hcmd hblank hnl hifs hs hquote
  have hpipes : st.ctx.top.pipes =
      [([.mk [(some cmd, false), (strip s, true)] 0 none], .seq, .resNone)] := by
    rw [hctx]
    rfl
  constructor
  · rintro ⟨rcode', st', hrun', -, hpipes'⟩
    rw [hrun] at hrun'
    cases hrun'
    rw [hpipes] at hpipes'
    simpa using hpipes'
  · intro hstrip
    exact ⟨rcode, st, hrun, hone, by rw [hpipes, hstrip]⟩

/-- A word in single quotes is the argument exactly when no backslash is in it. -/
theorem literal_iff {cmd s : Str} (hcmd : Name ifs flag cmd) (hblank : 32 ∈ ifs) (hnl : 10 ∈ ifs)
    (hifs : 39 ∉ ifs) (hs : 0 ∉ s) (hquote : 39 ∉ s) : Literal ifs flag cmd s ↔ 92 ∉ s :=
  (literal_iff_strip hcmd hblank hnl hifs hs hquote).trans strip_eq_self_iff

/-- `echo` is the name of a command. -/
theorem name_echo (flag : Flags) : Name defaultIfs flag [101, 99, 104, 111] := by
  have hplain : ∀ a b c d : Bool, Plain defaultIfs ⟨a, b, c, d⟩ [101, 99, 104, 111] := by
    decide +kernel
  exact ⟨List.cons_ne_nil _ _, hplain _ _ _ _, by decide⟩

/-- `echo 'ab'` with the default `IFS`. -/
theorem literal_iff_echo :
    Literal defaultIfs commandFlags [101, 99, 104, 111] [97, 98] ↔ 92 ∉ ([97, 98] : Str) :=
  literal_iff (name_echo _) (by decide) (by decide) (by decide) (by decide) (by decide)

/-- `echo 'a\b'` has the argument `ab`. -/
theorem not_literal :
    ¬ ∀ s : Str, (∀ c ∈ s, c ∉ ([0, 10, 39, specialVarSymbol, substedVarSymbol] : Str)) →
      Literal defaultIfs commandFlags [101, 99, 104, 111] s := by
  intro h
  have hstrip := (literal_iff_strip (name_echo _) (by decide) (by decide) (by decide) (by decide)
    (by decide)).1 (h [97, 92, 98] (by simp [specialVarSymbol, substedVarSymbol]))
  simp [strip] at hstrip

end MiniPi.Hush
