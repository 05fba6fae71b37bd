import MiniPi.Hush.Quote
import MiniPi.Hush.Simulate

/-!
# The text of compound commands

A command is written out with a blank behind each word and `; ` behind each command, and
`parse_stream` reads it back: what it leaves are the pipes of the command, one list inside of the
other.
-/

namespace MiniPi.Hush

/-! ## Text -/

/-- The entry of `reserved_list` for a word. -/
def comboOf (rm : Reserved) : ReservedCombo :=
  (reservedList.find? (·.code = rm)).getD ⟨[], rm, false, []⟩

/-- A word with a blank behind it. -/
def wordText (s : Str) : Str := s ++ [32]

/-- A reserved word with a blank behind it. -/
def keyText (rm : Reserved) : Str := wordText (comboOf rm).literal

/-- The text of a command. -/
def Cmd.text : {k : Kind} → Cmd k → Str
  | _, .simple cmd args => (cmd :: args).flatMap wordText ++ [59, 32]
  | _, .seq c d => c.text ++ d.text
  | _, .group g => g.text ++ [59, 32]
  | _, .cond c t e => keyText .resIf ++ (c.text ++ (keyText .resThen ++ (t.text ++ e.text)))
  | _, .fi => keyText .resFi
  | _, .els d => keyText .resElse ++ (d.text ++ keyText .resFi)
  | _, .elif c t e => keyText .resElif ++ (c.text ++ (keyText .resThen ++ (t.text ++ e.text)))
  | _, .loop isUntil c b => keyText (loopWord isUntil) ++
      (c.text ++ (keyText .resDo ++ (b.text ++ keyText .resDone)))
  | _, .forIn name words b => keyText .resFor ++
      (wordText name ++ (keyText .resIn ++ (words.flatMap wordText ++
      ([59, 32] ++ (keyText .resDo ++ (b.text ++ keyText .resDone))))))
  | _, .turns _ _ => []

/-- The words of a program, as the parser has them. -/
def progOf (argv : List Str) : Prog := .mk (argv.map fun s ↦ (some s, false)) 0 none

/-- The empty pipes behind a compound command, as the parser has them. -/
def closingParsed (rm : Reserved) : List ProgPipe := [([], .seq, rm), ([], .invalid, .resNone)]

/-- The pipes of a command, as the parser has them: for the word in force. -/
def Cmd.parsed : {k : Kind} → Cmd k → Reserved → List ProgPipe
  | _, .simple cmd args, rm => [([progOf (cmd :: args)], .seq, rm)]
  | _, .seq c d, rm => c.parsed rm ++ d.parsed rm
  | _, .group g, rm => [([.mk [] 0 (some (g.parsed .resNone))], .seq, rm)]
  | _, .cond c t e, _ => c.parsed .resIf ++ (t.parsed .resThen ++ e.parsed .resNone)
  | _, .fi, _ => closingParsed .resFi
  | _, .els d, _ => d.parsed .resElse ++ closingParsed .resFi
  | _, .elif c t e, _ => c.parsed .resElif ++ (t.parsed .resThen ++ e.parsed .resNone)
  | _, .loop isUntil c b, _ => c.parsed (loopWord isUntil) ++
      (b.parsed .resDo ++ closingParsed .resDone)
  | _, .forIn name words b, _ => ([progOf [name]], .seq, .resFor) ::
      (if words = [] then [] else [progOf words], .seq, .resIn) ::
      (b.parsed .resDo ++ closingParsed .resDone)
  | _, .turns _ _, _ => []

attribute [simp] Cmd.text Cmd.parsed

section Parser

variable (ifs : Str) (flag : Flags)

/-- Words that are read as they are, the first one no reserved one. -/
structure Words (argv : List Str) : Prop where
  ne_nil : ∀ s ∈ argv, s ≠ []
  plain : ∀ s ∈ argv, Plain ifs flag s
  reserved : ∀ s, argv.head? = some s → ∀ r ∈ reservedList, r.literal ≠ s

/-- All words of a command are read as they are. -/
def Cmd.Wf : {k : Kind} → Cmd k → Prop
  | _, .simple cmd args => Words ifs flag (cmd :: args)
  | _, .seq c d => c.Wf ∧ d.Wf
  | _, .group g => g.Wf
  | _, .cond c t e => c.Wf ∧ t.Wf ∧ e.Wf
  | _, .fi => True
  | _, .els d => d.Wf
  | _, .elif c t e => c.Wf ∧ t.Wf ∧ e.Wf
  | _, .loop _ c b => c.Wf ∧ b.Wf
  | _, .forIn name words b => Words ifs flag [name] ∧ Words ifs flag words ∧ b.Wf
  | _, .turns _ _ => False

/-- The letters of the reserved words are plain, a blank ends a word, and `;` ends a command. -/
structure Common : Prop where
  blank : 32 ∈ ifs
  semicolon : 59 ∉ ifs
  letters : ∀ r ∈ reservedList, Plain ifs flag r.literal
  parse : flag.parseSemicolon = true
  reparsing : flag.reparsing = false

/-- The parser reads a text and comes from a context to another one, between words. -/
def Feeds (s : Str) (ctx ctx' : Ctx) : Prop :=
  ∀ fuel d p, parseStream ifs flag (fuel + s.length) ⟨nullOString, ctx, s ++ d :: p⟩ =
    parseStream ifs flag fuel ⟨nullOString, ctx', d :: p⟩

end Parser

variable {ifs : Str} {flag : Flags} {s t : Str} {ctx ctx' ctx'' : Ctx}

theorem Feeds.append (h : Feeds ifs flag s ctx ctx') (h' : Feeds ifs flag t ctx' ctx'') :
    Feeds ifs flag (s ++ t) ctx ctx'' := by
  intro fuel d p
  obtain ⟨e, q, hq⟩ := List.exists_cons_of_ne_nil (show t ++ d :: p ≠ [] by simp)
  rw [List.append_assoc, hq, List.length_append, Nat.add_comm s.length, ← Nat.add_assoc, h,
    ← hq, h']

/-- A word, for what `done_word` does with it. -/
theorem feeds_word (hblank : 32 ∈ ifs) (hplain : Plain ifs flag s)
    (hdone : doneWord ⟨s, false, false⟩ ctx = (false, nullOString, ctx')) :
    Feeds ifs flag (wordText s) ctx ctx' := by
  intro fuel d p
  have hmap : mapOf ifs flag 32 = 2 := mapOf_ifs hblank (by decide)
  have hturn : parseChar ifs flag 32 ⟨⟨s, false, false⟩, ctx, d :: p⟩ =
      some (.next ⟨nullOString, ctx', d :: p⟩) := by
    simp [parseChar, staticPeek, hmap, parseBlank, hdone]
  have hlen : fuel + (wordText s).length = fuel + 1 + s.length := by
    simp [wordText]
    omega
  rw [hlen, wordText, List.append_assoc, List.singleton_append, parseStream_plain hplain rfl]
  exact parseStream_next (by decide) hturn

theorem feeds_semi (h : Common ifs flag) : Feeds ifs flag [59, 32] ctx (ctx.donePipe .seq) := by
  intro fuel d p
  have hmap : mapOf ifs flag 32 = 2 := mapOf_ifs h.blank (by decide)
  have hsemi : mapOf ifs flag 59 = 1 := by
    simp [mapOf, h.parse, h.reparsing, h.semicolon]
  have hdone (ctx : Ctx) : doneWord nullOString ctx = (false, nullOString, ctx) := rfl
  have hquote : nullOString.quote = false := rfl
  have hturn : parseChar ifs flag 59 ⟨nullOString, ctx, 32 :: d :: p⟩ =
      some (.next ⟨nullOString, ctx.donePipe .seq, 32 :: d :: p⟩) := by
    simp [parseChar, staticPeek, hsemi, parseSpecial, hdone, hquote]
  have hturn' : parseChar ifs flag 32 ⟨nullOString, ctx.donePipe .seq, d :: p⟩ =
      some (.next ⟨nullOString, ctx.donePipe .seq, d :: p⟩) := by
    simp [parseChar, staticPeek, hmap, parseBlank, hdone, hquote]
  exact (parseStream_next (by decide) hturn).trans (parseStream_next (by decide) hturn')

/-! ## Words -/

/-- The words at which the parser takes words of a command. -/
structure Frame.Open (f : Frame) : Prop where
  progs : f.progs = []
  child : f.child = emptyProg
  notFor : f.w ≠ .resFor
  notIn : f.w ≠ .resIn
  notSntx : f.w ≠ .resSntx

/-- A program with words. -/
def Frame.withWords (f : Frame) (argv : List Str) : Frame := { f with child := progOf argv }

theorem strip_of_plain (h : Plain ifs flag s) : strip s = some s :=
  strip_plain (h.not_mem mapOf_backslash)

theorem doneWord_add {f : Frame} {stack : List Frame} {argv : List Str} (hne : s ≠ [])
    (hplain : Plain ifs flag s) (hreserved : argv = [] → ∀ r ∈ reservedList, r.literal ≠ s) :
    doneWord ⟨s, false, false⟩ ⟨f.withWords argv, stack, true⟩ = (false, nullOString,
      if f.w = .resFor then ⟨(f.withWords (argv ++ [s])).donePipe .seq, stack, true⟩
      else ⟨f.withWords (argv ++ [s]), stack, true⟩) := by
  have hwords : (f.withWords argv).child.words = argv.map fun s ↦ (some s, false) := rfl
  have hfind : (if (f.withWords argv).child.words = [] ∧ true then
      reservedList.find? (·.literal = s) else none) = none := by
    split_ifs with hempty
    · rw [List.find?_eq_none]
      intro r hr heq
      exact hreserved (List.map_eq_nil_iff.1 hempty.1) r hr (of_decide_eq_true heq)
    · rfl
  have hadd : Ctx.addWord ⟨f.withWords argv, stack, true⟩ (some s, false) =
      ⟨f.withWords (argv ++ [s]), stack, true⟩ := by
    simp [Ctx.addWord, Frame.withWords, progOf, Prog.words, Prog.sp, Prog.group]
  rw [doneWord, if_neg (fun h ↦ hne h.1), if_neg (by simp [Frame.withWords, progOf, Prog.group])]
  dsimp only
  rw [hfind]
  dsimp only
  rw [strip_of_plain hplain, hadd]
  rfl

/-- The words of a program. -/
theorem feeds_words {f : Frame} {stack : List Frame} {argv argv' : List Str} (hblank : 32 ∈ ifs)
    (hfor : f.w ≠ .resFor) (hne : ∀ s ∈ argv', s ≠ []) (hplain : ∀ s ∈ argv', Plain ifs flag s)
    (hreserved : argv = [] → ∀ s, argv'.head? = some s → ∀ r ∈ reservedList, r.literal ≠ s) :
    Feeds ifs flag (argv'.flatMap wordText) ⟨f.withWords argv, stack, true⟩
      ⟨f.withWords (argv ++ argv'), stack, true⟩ := by
  induction argv' generalizing argv with
  | nil =>
      rw [List.append_nil]
      exact fun fuel d p ↦ rfl
  | cons s argv' ih =>
      obtain ⟨hs, hne⟩ := List.forall_mem_cons.1 hne
      obtain ⟨hp, hplain⟩ := List.forall_mem_cons.1 hplain
      have hdone := @doneWord_add ifs flag s f stack argv hs hp fun h ↦ hreserved h s rfl
      rw [if_neg hfor] at hdone
      have hrest := @ih (argv ++ [s]) hne hplain fun h ↦ absurd h (by simp)
      rw [List.append_assoc] at hrest
      exact (feeds_word hblank hp hdone).append hrest

theorem comboOf_spec : ∀ rm ∈ reservedList.map (·.code), comboOf rm ∈ reservedList ∧
    reservedList.find? (·.literal = (comboOf rm).literal) = some (comboOf rm) ∧
    (comboOf rm).literal ≠ [] := by
  intro rm hrm
  cases rm
  case resNone | resXxxx | resSntx => exact absurd hrm (by decide)
  all_goals exact ⟨by simp [comboOf, reservedList], rfl, by decide⟩

/-- A reserved word. -/
theorem feeds_key {f : Frame} {stack : List Frame} {rm : Reserved} (h : Common ifs flag)
    (hrm : rm ∈ reservedList.map (·.code)) (hchild : f.child = emptyProg)
    (hctx : Ctx.reserved ⟨f, stack, true⟩ (comboOf rm) = ctx) (hsntx : ctx.top.w ≠ .resSntx) :
    Feeds ifs flag (keyText rm) ⟨f, stack, true⟩ ctx := by
  obtain ⟨hmem, hfind, hne⟩ := comboOf_spec rm hrm
  refine feeds_word h.blank (h.letters _ hmem) ?_
  have hlook : (if f.child.words = [] ∧ true then
      reservedList.find? (·.literal = (comboOf rm).literal) else none) = some (comboOf rm) := by
    rw [if_pos ⟨by rw [hchild]; rfl, rfl⟩, hfind]
  rw [doneWord, if_neg (fun h ↦ hne h.1), if_neg (by rw [hchild]; exact Bool.false_ne_true)]
  dsimp only
  rw [hlook]
  dsimp only
  rw [hctx, decide_eq_false hsntx]
  rfl

/-! ## Commands -/

/-- What the parser does with the text of a command: the pipes of a list are added to the list, a
compound command becomes its program, and what is behind the branches of an `if` ends the compound
command. -/
def Parses (ifs : Str) (flag : Flags) : {k : Kind} → Cmd k → Prop
  | .list, c => ∀ f stack, f.Open →
    Feeds ifs flag c.text ⟨f, stack, true⟩ ⟨{ f with pipes := f.pipes ++ c.parsed f.w },
    stack, true⟩
  | .compound, g => ∀ f stack, f.Open →
    Feeds ifs flag g.text ⟨f, stack, true⟩ ⟨{ f with child := .mk [] 0 (some (g.parsed .resNone)) },
    stack, true⟩
  | .tail, e => ∀ pipes f stack, f.Open →
    Feeds ifs flag e.text ⟨⟨pipes, [], emptyProg, .resThen, [.resElif, .resElse, .resFi]⟩,
    f :: stack, true⟩
      ⟨{ f with child := .mk [] 0 (some (pipes ++ e.parsed .resNone)) }, stack, true⟩
  | .turns, _ => True

section Rules

variable {c d t b : Cmd .list} {e : Cmd .tail} (h : Common ifs flag)

include h

theorem parses_simple {cmd : Str} {args : List Str} (hwords : Words ifs flag (cmd :: args)) :
    Parses ifs flag (.simple cmd args) := by
  intro f stack hopen
  have hempty : f.withWords [] = f := by
    cases f
    cases hopen.child
    rfl
  have hread := @feeds_words ifs flag f stack [] (cmd :: args) h.blank hopen.notFor hwords.ne_nil
    hwords.plain
    fun _ ↦ hwords.reserved
  rw [hempty, List.nil_append] at hread
  refine hread.append ?_
  have hpipe : Ctx.donePipe ⟨f.withWords (cmd :: args), stack, true⟩ .seq =
      ⟨{ f with pipes := f.pipes ++ [([progOf (cmd :: args)], .seq, f.w)] }, stack, true⟩ := by
    have hprogs := hopen.progs
    have hchild := hopen.child
    simp [Ctx.donePipe, Frame.donePipe, Frame.doneCommand, Frame.withWords, progOf, Prog.words,
      hprogs, hchild]
  rw [Cmd.parsed, ← hpipe]
  exact feeds_semi h

omit h in
theorem parses_seq (hc : Parses ifs flag c) (hd : Parses ifs flag d) :
    Parses ifs flag (.seq c d) := by
  intro f stack hopen
  have hnext := hd { f with pipes := f.pipes ++ c.parsed f.w } stack
    ⟨hopen.progs, hopen.child, hopen.notFor, hopen.notIn, hopen.notSntx⟩
  rw [Cmd.text, Cmd.parsed, ← List.append_assoc]
  exact (hc f stack hopen).append hnext

theorem parses_group {g : Cmd .compound} (hg : Parses ifs flag g) : Parses ifs flag (.group g) := by
  intro f stack hopen
  rw [Cmd.text]
  refine (hg f stack hopen).append ?_
  have hpipe : Ctx.donePipe ⟨{ f with child := .mk [] 0 (some (g.parsed .resNone)) }, stack,
    true⟩ .seq =
      ⟨{ f with pipes := f.pipes ++ (Cmd.group g).parsed f.w }, stack, true⟩ := by
    have hprogs := hopen.progs
    have hchild := hopen.child
    simp [Ctx.donePipe, Frame.donePipe, Frame.doneCommand, Prog.group, Cmd.parsed, hprogs, hchild]
  rw [← hpipe]
  exact feeds_semi h

/-- The frame of a compound command, behind one of its words. -/
def within (pipes : List ProgPipe) (w : Reserved) (oldFlag : List Reserved) : Frame :=
  ⟨pipes, [], emptyProg, w, oldFlag⟩

omit h in
theorem open_within {pipes : List ProgPipe} {w : Reserved} {oldFlag : List Reserved}
    (hw : w ≠ .resFor ∧ w ≠ .resIn ∧ w ≠ .resSntx) : (within pipes w oldFlag).Open :=
  ⟨rfl, rfl, hw.1, hw.2.1, hw.2.2⟩

omit h in
/-- A list inside of a compound command. -/
theorem Parses.list (hc : Parses ifs flag c) {pipes : List ProgPipe} {w : Reserved}
    {oldFlag : List Reserved} {stack : List Frame} (hw : w ≠ .resFor ∧ w ≠ .resIn ∧ w ≠ .resSntx) :
    Feeds ifs flag c.text
      ⟨within pipes w oldFlag, stack, true⟩ ⟨within (pipes ++ c.parsed w) w oldFlag, stack, true⟩ :=
  hc (within pipes w oldFlag) stack (open_within hw)

/-- The first word of a compound command. -/
theorem feeds_start {f : Frame} {stack : List Frame} {rm : Reserved} (hopen : f.Open)
    (hrm : rm ∈ reservedList.map (·.code)) (hstart : (comboOf rm).start = true)
    (hcode : (comboOf rm).code = rm) :
    Feeds ifs flag (keyText rm) ⟨f, stack, true⟩ ⟨within [] rm (comboOf rm).flag, f :: stack,
      true⟩ := by
  refine feeds_key h hrm hopen.child ?_ ?_
  · rw [Ctx.reserved, if_pos hstart, if_neg (by simp [hopen.notIn, hopen.notFor]), hcode]
    rfl
  · rintro rfl
    exact absurd hrm (by decide)

/-- A word inside of a compound command. -/
theorem feeds_next {pipes : List ProgPipe} {w rm : Reserved} {oldFlag : List Reserved}
    {stack : List Frame} (hrm : rm ∈ reservedList.map (·.code))
    (hstart : (comboOf rm).start = false) (hcode : (comboOf rm).code = rm) (hw : w ≠ .resNone)
    (hflag : rm ∈ oldFlag) (hne : (comboOf rm).flag ≠ []) :
    Feeds ifs flag (keyText rm) ⟨within pipes w oldFlag, stack, true⟩
      ⟨within pipes rm (comboOf rm).flag, stack, true⟩ := by
  refine feeds_key h hrm rfl ?_ ?_
  · simp [Ctx.reserved, within, hstart, hcode, hw, hflag, hne]
  · rintro rfl
    exact absurd hrm (by decide)

/-- The last word of a compound command. -/
theorem feeds_end {f : Frame} {pipes : List ProgPipe} {w rm : Reserved} {oldFlag : List Reserved}
    {stack : List Frame} (hopen : f.Open) (hrm : rm = .resFi ∨ rm = .resDone) (hw : w ≠ .resNone)
    (hflag : rm ∈ oldFlag) :
    Feeds ifs flag (keyText rm) ⟨within pipes w oldFlag, f :: stack, true⟩
      ⟨{ f with child := .mk [] 0 (some (pipes ++ closingParsed rm)) }, stack, true⟩ := by
  have hchild := hopen.child
  refine feeds_key h ?_ rfl ?_ hopen.notSntx
  · obtain rfl | rfl := hrm <;> decide
  · obtain rfl | rfl := hrm
    all_goals
      simp [Ctx.reserved, comboOf, reservedList, within, hw, hflag, Ctx.popFrame, Frame.donePipe,
        Frame.doneCommand, Frame.list, emptyProg, Prog.group, Prog.words, Prog.sp,
        closingParsed, hchild]

theorem parses_cond (hc : Parses ifs flag c) (ht : Parses ifs flag t) (he : Parses ifs flag e) :
    Parses ifs flag (.cond c t e) := by
  intro f stack hopen
  have hif := @feeds_start ifs flag h f stack .resIf hopen (by decide) rfl rfl
  have hthen := @feeds_next ifs flag h ([] ++ c.parsed .resIf) .resIf .resThen _ (f :: stack)
    (by decide) rfl rfl
    (by decide) (by decide : Reserved.resThen ∈ (comboOf .resIf).flag) (by decide)
  have htail := he ([] ++ c.parsed .resIf ++ t.parsed .resThen) f stack hopen
  rw [List.nil_append, List.append_assoc] at htail
  rw [Cmd.text, Cmd.parsed]
  exact hif.append ((hc.list (by decide)).append
    (hthen.append ((ht.list (by decide)).append htail)))

omit h in
theorem Parses.tail (he : Parses ifs flag e) (pipes : List ProgPipe) {f : Frame}
    (stack : List Frame) (hopen : f.Open) :
    Feeds ifs flag e.text ⟨within pipes .resThen (comboOf .resThen).flag, f :: stack, true⟩
      ⟨{ f with child := .mk [] 0 (some (pipes ++ e.parsed .resNone)) }, stack, true⟩ :=
        he pipes f stack hopen

theorem parses_fi : Parses ifs flag .fi := by
  intro pipes f stack hopen
  rw [Cmd.text, Cmd.parsed]
  exact feeds_end h hopen (.inl rfl) (by decide) (by decide)

theorem parses_els (hd : Parses ifs flag d) : Parses ifs flag (.els d) := by
  intro pipes f stack hopen
  have helse := @feeds_next ifs flag h pipes .resThen .resElse (comboOf .resThen).flag (f :: stack)
    (by decide) rfl rfl
    (by decide) (by decide) (by decide)
  have hend := @feeds_end ifs flag h f (pipes ++ d.parsed .resElse) .resElse .resFi
    (comboOf .resElse).flag stack hopen
    (.inl rfl) (by decide) (by decide)
  rw [List.append_assoc] at hend
  rw [Cmd.text, Cmd.parsed]
  exact helse.append ((hd.list (by decide)).append hend)

theorem parses_elif (hc : Parses ifs flag c) (ht : Parses ifs flag t) (he : Parses ifs flag e) :
    Parses ifs flag (.elif c t e) := by
  intro pipes f stack hopen
  have helif := @feeds_next ifs flag h pipes .resThen .resElif (comboOf .resThen).flag (f :: stack)
    (by decide) rfl rfl
    (by decide) (by decide) (by decide)
  have hthen := @feeds_next ifs flag h (pipes ++ c.parsed .resElif) .resElif .resThen
    (comboOf .resElif).flag
    (f :: stack) (by decide) rfl rfl (by decide) (by decide) (by decide)
  have htail := he.tail (pipes ++ c.parsed .resElif ++ t.parsed .resThen) stack hopen
  have hassoc : pipes ++ c.parsed .resElif ++ t.parsed .resThen ++ e.parsed .resNone =
      pipes ++ (c.parsed .resElif ++ (t.parsed .resThen ++ e.parsed .resNone)) := by simp
  rw [hassoc] at htail
  rw [Cmd.text, Cmd.parsed]
  exact helif.append
    ((hc.list (by decide)).append (hthen.append ((ht.list (by decide)).append htail)))

theorem parses_loop {isUntil : Bool} (hc : Parses ifs flag c) (hb : Parses ifs flag b) :
    Parses ifs flag (.loop isUntil c b) := by
  intro f stack hopen
  have hstart := @feeds_start ifs flag h f stack (loopWord isUntil) hopen
    (by cases isUntil <;> decide)
    (by cases isUntil <;> rfl) (by cases isUntil <;> rfl)
  have hdo := @feeds_next ifs flag h ([] ++ c.parsed (loopWord isUntil)) (loopWord isUntil) .resDo
    (comboOf (loopWord isUntil)).flag (f :: stack) (by decide) rfl rfl (by cases isUntil <;> decide)
    (by cases isUntil <;> decide) (by decide)
  have hend := @feeds_end ifs flag h f ([] ++ c.parsed (loopWord isUntil) ++ b.parsed .resDo)
    .resDo .resDone
    (comboOf .resDo).flag stack hopen (.inr rfl) (by decide) (by decide)
  rw [List.nil_append, List.append_assoc] at hend
  rw [Cmd.text, Cmd.parsed]
  exact hstart.append
    ((hc.list (by cases isUntil <;> decide)).append
      (hdo.append ((hb.list (by decide)).append hend)))

theorem parses_forIn {name : Str} {words : List Str} (hname : Words ifs flag [name])
    (hwords : Words ifs flag words) (hb : Parses ifs flag b) :
    Parses ifs flag (.forIn name words b) := by
  intro f stack hopen
  have hstart := @feeds_start ifs flag h f stack .resFor hopen (by decide) rfl rfl
  have hadd := @doneWord_add ifs flag name (within [] .resFor (comboOf .resFor).flag)
    (f :: stack) [] (hname.ne_nil name (by simp)) (hname.plain name (by simp)) fun _ ↦
      hname.reserved name rfl
  rw [if_pos (show (within [] .resFor (comboOf .resFor).flag).w = .resFor from rfl)] at hadd
  have hword := feeds_word h.blank (hname.plain name (by simp)) hadd
  have hin := @feeds_next ifs flag h [([progOf [name]], .seq, .resFor)] .resFor .resIn
    (comboOf .resFor).flag
    (f :: stack) (by decide) rfl rfl (by decide) (by decide) (by decide)
  have hvalues := @feeds_words ifs flag
    (within [([progOf [name]], .seq, .resFor)] .resIn (comboOf .resIn).flag)
    (f :: stack) [] words h.blank (show Reserved.resIn ≠ .resFor by decide) hwords.ne_nil
    hwords.plain
    fun _ ↦ hwords.reserved
  have hsemi := @feeds_semi ifs flag
    ⟨(within [([progOf [name]], .seq, .resFor)] .resIn (comboOf .resIn).flag).withWords
    ([] ++ words), f :: stack, true⟩ h
  have hpipe : Ctx.donePipe
    ⟨(within [([progOf [name]], .seq, .resFor)] .resIn (comboOf .resIn).flag).withWords
      ([] ++ words), f :: stack, true⟩ .seq = ⟨within [([progOf [name]], .seq, .resFor),
        (if words = [] then [] else [progOf words], .seq, .resIn)] .resIn (comboOf .resIn).flag,
        f :: stack, true⟩ := by
    by_cases hnil : words = []
    · subst hnil
      rfl
    · simp [Ctx.donePipe, Frame.donePipe, Frame.doneCommand, Frame.withWords, within, progOf,
        Prog.words, hnil]
  rw [hpipe] at hsemi
  have hdo := @feeds_next ifs flag h [([progOf [name]], .seq, .resFor),
    (if words = [] then [] else [progOf words], .seq, .resIn)] .resIn .resDo (comboOf .resIn).flag
    (f :: stack)
    (by decide) rfl rfl (by decide) (by decide) (by decide)
  have hend := @feeds_end ifs flag h f ([([progOf [name]], .seq, .resFor),
    (if words = [] then [] else [progOf words], .seq, .resIn)] ++ b.parsed .resDo) .resDo .resDone
    (comboOf .resDo).flag stack hopen (.inr rfl) (by decide) (by decide)
  rw [List.append_assoc] at hend
  rw [Cmd.text, Cmd.parsed]
  exact hstart.append (hword.append (hin.append (hvalues.append (hsemi.append (hdo.append
    ((hb.list (by decide)).append hend))))))

end Rules

/-- The parser reads the text of a command. -/
theorem Cmd.Wf.parses (h : Common ifs flag) : ∀ {k : Kind} (c : Cmd k), c.Wf ifs flag →
    Parses ifs flag c
  | _, .simple _ _, hwf => parses_simple h hwf
  | _, .seq c d, hwf => parses_seq (parses h c hwf.1) (parses h d hwf.2)
  | _, .group g, hwf => parses_group h (parses h g hwf)
  | _, .cond c t e, hwf =>
      parses_cond h (parses h c hwf.1) (parses h t hwf.2.1) (parses h e hwf.2.2)
  | _, .fi, _ => parses_fi h
  | _, .els d, hwf => parses_els h (parses h d hwf)
  | _, .elif c t e, hwf =>
      parses_elif h (parses h c hwf.1) (parses h t hwf.2.1) (parses h e hwf.2.2)
  | _, .loop _ c b, hwf => parses_loop h (parses h c hwf.1) (parses h b hwf.2)
  | _, .forIn _ _ b, hwf => parses_forIn h hwf.1 hwf.2.1 (parses h b hwf.2.2)
  | _, .turns _ _, _ => trivial

/-- The parser reads a line with commands up to its newline, and leaves their pipes. -/
theorem parseStream_text (h : Common ifs flag) (hnl : 10 ∈ ifs) (hcont : flag.contOnNewline = false)
    (c : Cmd .list) (hwf : c.Wf ifs flag) (fuel : ℕ) : ∃ st,
      parseStream ifs flag (fuel + 1 + c.text.length)
      (lineStream flag nullOString (c.text ++ [10, 0])) = some (0, st) ∧
        st.ctx.top.oldFlag = [] ∧ lineList st = c.parsed .resNone ++
          [([], .seq, .resNone), ([], .seq, .resNone), ([], .invalid, .resNone)] := by
  have hopen : initFrame.Open := ⟨rfl, rfl, by decide, by decide, by decide⟩
  have hread := hwf.parses h c initFrame [] hopen (fuel + 1) 10 [0]
  have hmap : mapOf ifs flag 10 = 2 := mapOf_ifs hnl (by decide)
  have hline : lineStream flag nullOString (c.text ++ [10, 0]) =
      ⟨nullOString, ⟨initFrame, [], true⟩, c.text ++ [10, 0]⟩ := by
    rw [lineStream, h.parse]
  have hdone (ctx : Ctx) : doneWord nullOString ctx = (false, nullOString, ctx) := rfl
  have hquote : nullOString.quote = false := rfl
  rw [hline, hread]
  refine ⟨⟨nullOString,
    Ctx.donePipe ⟨{ initFrame with pipes := [] ++ c.parsed .resNone }, [], true⟩ .seq, [0]⟩,
    ?_, rfl, ?_⟩
  · simp [parseStream, staticGet, parseChar, hmap, parseBlank, hdone, hquote, hcont, initFrame]
  · simp [lineList, hdone, Ctx.donePipe, Frame.donePipe, Frame.doneCommand, Frame.list, initFrame,
      emptyProg, Prog.group, Prog.words]

/-- `IFS` is not set. -/
def usualIfs : Str := [32, 9, 10]

theorem plain_usualIfs (h : ∀ c ∈ s, 97 ≤ c ∧ c ≤ 122) :
    Plain usualIfs ⟨true, true, false, false⟩ s := by
  intro c hc
  obtain ⟨hlo, hhi⟩ := h c hc
  have hne {d : UInt8} (hd : d < 97) : c ≠ d := by
    rintro rfl
    exact absurd hlo (UInt8.not_le.mpr hd)
  have hbar : c ≠ 124 := by
    rintro rfl
    exact absurd hhi (by decide)
  refine ⟨hne (by decide), ?_⟩
  have h32 : c ≠ 32 := hne (by decide)
  have h9 : c ≠ 9 := hne (by decide)
  have h10 : c ≠ 10 := hne (by decide)
  have h59 : c ≠ 59 := hne (by decide)
  have h38 : c ≠ 38 := hne (by decide)
  have h35 : c ≠ 35 := hne (by decide)
  have h92 : c ≠ 92 := hne (by decide)
  have h36 : c ≠ 36 := hne (by decide)
  have h39 : c ≠ 39 := hne (by decide)
  have h34 : c ≠ 34 := hne (by decide)
  have h4 : c ≠ 4 := hne (by decide)
  simp [mapOf, usualIfs, substedVarSymbol, *]

theorem common_usualIfs : Common usualIfs ⟨true, true, false, false⟩ := by
  refine ⟨by decide, by decide, fun r hr ↦ plain_usualIfs fun c hc ↦ ?_, rfl, rfl⟩
  have hall : (reservedList.all fun r ↦ r.literal.all fun c ↦ 97 ≤ c && c ≤ 122) = true := rfl
  simpa using List.all_eq_true.mp (List.all_eq_true.mp hall r hr) c hc

end MiniPi.Hush
