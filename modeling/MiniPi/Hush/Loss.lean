import MiniPi.Hush.Quote

/-!
# What a second pass loses

The parser counts: a character of the input is at most one of the words, and quotes, and the
backslashes outside of double quotes, are none.  So a value with a quote, in quotes, comes out
shorter.
-/

namespace MiniPi.Hush

/-! ## Counting characters -/

/-- A character counts, but for newline and NUL. -/
def weight (c : UInt8) : ℕ := if c = 10 ∨ c = 0 then 0 else 1

/-- The characters of a string that count. -/
def weigh (s : Str) : ℕ := (s.map weight).sum

@[simp]
theorem weigh_nil : weigh [] = 0 := rfl

@[simp]
theorem weigh_cons (c : UInt8) (s : Str) : weigh (c :: s) = weight c + weigh s := by
  rw [weigh, List.map_cons, List.sum_cons]
  rfl

@[simp]
theorem weigh_append (s t : Str) : weigh (s ++ t) = weigh s + weigh t := by
  rw [weigh, List.map_append, List.sum_append]
  rfl

/-- The characters that a word has without its layer of backslashes; a backslash that takes nothing
yet is one. -/
def units : Str → ℕ
  | [] => 0
  | [c] => weight c
  | c :: d :: s => if c = 92 then weight d + units s else weight c + units (d :: s)

theorem weigh_strip {s t : Str} (h : strip s = some t) : weigh t = units s := by
  fun_induction strip s generalizing t with
  | case1 =>
    cases h
    rfl
  | case2 => cases h
  | case3 c hc =>
    cases h
    rfl
  | case4 d s ih =>
    obtain ⟨u, hu, rfl⟩ := Option.map_eq_some_iff.1 h
    rw [weigh_cons, ih hu, units, if_pos rfl]
  | case5 c d s hc ih =>
    obtain ⟨u, hu, rfl⟩ := Option.map_eq_some_iff.1 h
    rw [weigh_cons, ih hu, units, if_neg hc]

theorem units_append_le (s : Str) (c : UInt8) : units (s ++ [c]) ≤ units s + weight c := by
  fun_induction units s with
  | case1 => exact (Nat.zero_add _).ge
  | case2 d =>
    rw [List.singleton_append, units]
    split_ifs
    · exact Nat.le_add_left _ _
    · exact le_rfl
  | case3 d s ih =>
    rw [List.cons_append, List.cons_append, units, if_pos rfl, Nat.add_assoc]
    exact Nat.add_le_add_left ih _
  | case4 b d s hb ih =>
    rw [List.cons_append, List.cons_append, units, if_neg hb, Nat.add_assoc]
    exact Nat.add_le_add_left ih _

theorem units_append_backslash_le (s : Str) (c : UInt8) :
    units (s ++ [92, c]) ≤ units s + weight c := by
  fun_induction units s with
  | case1 =>
    rw [List.nil_append, units, if_pos rfl, units, Nat.add_zero, Nat.zero_add]
  | case2 d =>
    rw [List.singleton_append, units]
    split_ifs with hd
    · subst hd
      exact le_rfl
    · rw [units, if_pos rfl, units, Nat.add_zero]
  | case3 d s ih =>
    rw [List.cons_append, List.cons_append, units, if_pos rfl, Nat.add_assoc]
    exact Nat.add_le_add_left ih _
  | case4 b d s hb ih =>
    rw [List.cons_append, List.cons_append, units, if_neg hb, Nat.add_assoc]
    exact Nat.add_le_add_left ih _

theorem units_append_weigh_le (s t : Str) : units (s ++ t) ≤ units s + weigh t := by
  induction t generalizing s with
  | nil => rw [List.append_nil, weigh_nil, Nat.add_zero]
  | cons c t ih =>
    rw [List.append_cons, weigh_cons, ← Nat.add_assoc]
    exact (ih _).trans (Nat.add_le_add_right (units_append_le s c) _)

theorem OString.units_addqchr_le (o : OString) (c : UInt8) :
    units (o.addqchr c).data ≤ units o.data + weight c := by
  unfold addqchr
  split_ifs
  · simp only [addchr, List.append_assoc, List.singleton_append]
    exact units_append_backslash_le o.data c
  · exact units_append_le o.data c

/-- The characters of the words of a program. -/
def weighWords (words : List (Option Str × Bool)) : ℕ := (words.map fun x ↦ x.1.elim 0 weigh).sum

theorem weighWords_append (words : List (Option Str × Bool)) (data : Str) (nonnull : Bool) :
    weighWords (words ++ [(strip data, nonnull)]) ≤ weighWords words + units data := by
  rw [weighWords, List.map_append, List.sum_append]
  refine Nat.add_le_add_left ?_ _
  cases hstrip : strip data with
  | none => exact Nat.zero_le _
  | some t => exact (weigh_strip hstrip).le

/-! ## A turn of the second pass -/

/-- The flags for a string that is parsed again. -/
def reparseFlags : Flags := ⟨true, false, true, false⟩

/-- The context of a command that is parsed again. -/
def cmdCtx (words : List (Option Str × Bool)) : Ctx :=
  ⟨⟨[], [], .mk words 0 none, .resNone, []⟩, [], false⟩

variable {ifs : Str} {w₀ : Option Str × Bool} {words : List (Option Str × Bool)} {n : ℕ}

/-- The words behind the first one, and what is left, have at most `n` characters. -/
def Spent (w₀ : Option Str × Bool) (n : ℕ) : Step → Prop
  | .next st =>
    ∃ words, st.ctx = cmdCtx (w₀ :: words) ∧
      weighWords words + units st.dest.data + weigh st.input ≤ n
  | .ret rcode st =>
    rcode = 1 ∨ st.dest.data = [] ∧ st.dest.nonnull = false ∧
      ∃ words, st.ctx = (cmdCtx (w₀ :: words)).donePipe .seq ∧ weighWords words ≤ n

theorem Spent.mono {r : Step} {n' : ℕ} (h : Spent w₀ n r) (hle : n ≤ n') : Spent w₀ n' r := by
  cases r with
  | next st =>
    obtain ⟨words, hctx, hn⟩ := h
    exact ⟨words, hctx, hn.trans hle⟩
  | ret rcode st =>
    obtain hone | ⟨hdata, hnonnull, words, hctx, hn⟩ := h
    · exact .inl hone
    · exact .inr ⟨hdata, hnonnull, words, hctx, hn.trans hle⟩

/-- The end of a word, of a command with its name. -/
theorem doneWord_cmdCtx (o : OString) (words : List (Option Str × Bool)) :
    ∃ o' words', doneWord o (cmdCtx (w₀ :: words)) = (false, o', cmdCtx (w₀ :: words')) ∧
      o'.data = [] ∧ o'.nonnull = false ∧ o'.quote = o.quote ∧
      weighWords words' ≤ weighWords words + units o.data := by
  by_cases hnull : o.data = [] ∧ o.nonnull = false
  · refine ⟨o, words, ?_, hnull.1, hnull.2, rfl, Nat.le_add_right _ _⟩
    rw [doneWord, if_pos hnull]
  · have hsimple : (cmdCtx (w₀ :: words)).Simple o.data :=
      ⟨rfl, fun h ↦ absurd h (List.cons_ne_nil _ _), rfl⟩
    exact ⟨o.reset, words ++ [(strip o.data, o.nonnull)], doneWord_simple hsimple hnull, rfl,
      rfl, rfl, weighWords_append _ _ _⟩

theorem weigh_getUntil {close : UInt8} {p s q : Str} {found : Bool}
    (h : getUntil close p = some (s, found, q)) : weigh s + weigh q ≤ weigh p := by
  induction p generalizing s with
  | nil => cases h
  | cons c p ih =>
    rw [getUntil] at h
    split_ifs at h
    · cases h
      rw [weigh_cons, weigh_nil]
      omega
    · cases h
      rw [weigh_cons, weigh_nil]
      omega
    · obtain ⟨⟨s', found', q'⟩, hrest, heq⟩ := Option.map_eq_some_iff.1 h
      cases heq
      rw [weigh_cons, weigh_cons, Nat.add_assoc]
      exact Nat.add_le_add_left (ih hrest) _

theorem weigh_skipComment {p q : Str} (h : skipComment p = some q) : weigh q ≤ weigh p := by
  induction p with
  | nil => cases h
  | cons c p ih =>
    rw [skipComment] at h
    split_ifs at h
    · cases h
      exact le_rfl
    · rw [weigh_cons]
      exact (ih h).trans (Nat.le_add_left _ _)

theorem quotedPart_spent {close : UInt8} {o : OString} {p : Str} {r : Step}
    (h : quotedPart close ⟨o, cmdCtx (w₀ :: words), p⟩ = some r) :
    Spent w₀ (weighWords words + units o.data + weigh p) r := by
  obtain ⟨⟨s, found, q⟩, hread, hr⟩ := Option.bind_eq_some_iff.1 h
  have hle : weigh s + weigh q ≤ weigh p := weigh_getUntil hread
  have hunits : units (o.addAll s).data ≤ units o.data + weigh s := units_append_weigh_le o.data s
  dsimp only at hr
  split_ifs at hr
  · cases hr
    refine ⟨words, rfl, ?_⟩
    change weighWords words + units (o.addAll s).data + weigh q ≤ _
    omega
  · cases hr
    exact .inl rfl

/-- A special character is never plain in the second pass but for quotes, backslash and `#`. -/
theorem mapOf_reparse {c : UInt8} (hc : c ∈ ([59, 36, 38, 124] : Str)) :
    mapOf ifs reparseFlags c = 0 := by
  rw [mapOf, if_pos ⟨.inl rfl, hc⟩]

/-- A turn adds the character to the word, or the character is lost, but perhaps between double
quotes. -/
theorem parseChar_spent {o : OString} {c : UInt8} {p : Str} {r : Step} (hended : Ended (c :: p))
    (hc : c ≠ 0) (h : parseChar ifs reparseFlags c ⟨o, cmdCtx (w₀ :: words), p⟩ = some r) :
    r = .next ⟨o.addqchr c, cmdCtx (w₀ :: words), p⟩ ∨
      Spent w₀ (weighWords words + units o.data + weigh p + if o.quote then weight c else 0) r := by
  rw [parseChar_eq] at h
  obtain ⟨next, -, h⟩ := Option.bind_eq_some_iff.1 h
  dsimp only at h
  by_cases hplain : mapOf ifs reparseFlags c = 0 ∨
      (mapOf ifs reparseFlags c = 1 ∨ mapOf ifs reparseFlags c = 2) ∧ o.quote = true
  · rw [if_pos hplain] at h
    exact .inl (Option.some.inj h).symm
  rw [if_neg hplain] at h
  by_cases hblank : mapOf ifs reparseFlags c = 2
  · rw [if_pos hblank] at h
    right
    obtain rfl := Option.some.inj h
    obtain ⟨o', words', hword, hdata, hnonnull, hsame, hle⟩ := @doneWord_cmdCtx w₀ o words
    have hquote : o'.quote = false := by
      rw [hsame]
      exact Bool.eq_false_of_not_eq_true fun h ↦ hplain (.inr ⟨.inr hblank, h⟩)
    rw [parseBlank, hword]
    by_cases hnl : c = 10
    · have hw : ((cmdCtx (w₀ :: words')).donePipe .seq).top.w = .resNone := Ctx.donePipe_w _ _
      simp only [hnl, Bool.false_eq_true, if_false, if_true]
      have hend : True ∧ reparseFlags.contOnNewline = false ∧ o'.quote = false ∧
          ((cmdCtx (w₀ :: words')).donePipe .seq).top.w = .resNone := ⟨trivial, rfl, hquote, hw⟩
      rw [if_pos hend]
      exact .inr ⟨hdata, hnonnull, words', rfl, hle.trans (by omega)⟩
    · simp only [hnl, Bool.false_eq_true, if_false, false_and]
      refine ⟨words', rfl, ?_⟩
      dsimp only
      rw [hdata, units]
      omega
  rw [if_neg hblank] at h
  have hspecial (d : UInt8) (hd : d ∈ ([59, 36, 38, 124] : Str)) : c ≠ d := by
    rintro rfl
    exact hplain (.inl (mapOf_reparse hd))
  have hnl : c ≠ 10 := by
    rintro rfl
    obtain hmap | hmap := mapOf_newline ifs reparseFlags
    · exact hplain (.inl hmap)
    · exact hblank hmap
  unfold parseSpecial at h
  split_ifs at h with hhash hempty hback hdollar hquote hdquote hsemi hand hor hsubst
  · right
    obtain ⟨q, hq, hr⟩ := Option.bind_eq_some_iff.1 h
    obtain rfl := Option.some.inj hr
    have hle : weigh q ≤ weigh p := weigh_skipComment hq
    refine ⟨words, rfl, ?_⟩
    dsimp only
    omega
  · exact .inl (Option.some.inj h).symm
  · right
    obtain ⟨hrest, hnext⟩ := hended.tail hc
    obtain ⟨d, q, rfl, hd⟩ := hnext hnl
    simp only [staticGet, if_neg hd, Option.bind_eq_bind, Option.bind_some, Option.getD_some] at h
    obtain rfl := Option.some.inj h
    have hunits : units ((o.addqchr 92).addqchr d).data ≤
        units o.data + weight d + if o.quote then weight c else 0 := by
      cases hquoted : o.quote with
      | true =>
        have h₁ := o.units_addqchr_le 92
        have h₂ := (o.addqchr 92).units_addqchr_le d
        rw [if_pos rfl, hback]
        omega
      | false =>
        have hquoted' : (o.addchr 92).quote = false := hquoted
        rw [OString.addqchr_unquoted hquoted, OString.addqchr_unquoted hquoted']
        simp only [OString.addchr, List.append_assoc, List.singleton_append]
        exact units_append_backslash_le o.data d
    refine ⟨words, rfl, ?_⟩
    dsimp only
    rw [weigh_cons]
    omega
  · exact absurd hdollar (hspecial 36 (by decide))
  · exact .inr ((quotedPart_spent h).mono (Nat.le_add_right _ _))
  · right
    obtain rfl := Option.some.inj h
    exact ⟨words, rfl, Nat.le_add_right _ _⟩
  · exact absurd hsemi (hspecial 59 (by decide))
  · exact absurd hand (hspecial 38 (by decide))
  · exact absurd hor (hspecial 124 (by decide))
  · exact .inr ((quotedPart_spent h).mono (Nat.le_add_right _ _))
  · right
    obtain rfl := Option.some.inj h
    exact .inl rfl

/-! ## The second pass -/

/-- A list with one program, and empty pipes behind it. -/
def single (p : Prog) (n : ℕ) : List ProgPipe :=
  ([p], .seq, .resNone) :: (List.replicate n ([], .seq, .resNone) ++ [([], .invalid, .resNone)])

/-- The list that is run behind `parse_stream` has one command, with these words. -/
def Runs (st : Stream) (words : List (Option Str × Bool)) : Prop :=
  st.ctx.top.oldFlag = [] ∧ ∃ n ≤ 1, lineList st = single (.mk words 0 none) n

theorem runs_newline {o : OString} {p : Str} (hdata : o.data = []) (hnonnull : o.nonnull = false) :
    Runs ⟨o, (cmdCtx (w₀ :: words)).donePipe .seq, p⟩ (w₀ :: words) := by
  refine ⟨rfl, 1, le_rfl, ?_⟩
  rw [lineList, doneWord, if_pos ⟨hdata, hnonnull⟩]
  rfl

theorem cmdCtx_ok (words : List (Option Str × Bool)) : (cmdCtx words).Ok :=
  ⟨fun _ ↦ rfl, List.forall_mem_nil _⟩

theorem parseStream_ret {flag : Flags} {fuel : ℕ} {o : OString} {ctx : Ctx} {c : UInt8} {p : Str}
    {rcode : ℤ} {st : Stream} (hc : c ≠ 0)
    (hturn : parseChar ifs flag c ⟨o, ctx, p⟩ = some (.ret rcode st)) :
    parseStream ifs flag (fuel + 1) ⟨o, ctx, c :: p⟩ = some (rcode, st) := by
  simp only [parseStream, staticGet, if_neg hc, Option.bind_eq_bind, Option.bind_some, hturn]

/-- What is run has no more characters than are there behind a turn. -/
theorem Spent.finish {r : Step} {fuel m : ℕ} {o : OString} {ctx : Ctx} {c : UInt8} {p : Str}
    {rcode : ℤ} {st : Stream} (hspent : Spent w₀ n r) (hc : c ≠ 0)
    (hr : parseChar ifs reparseFlags c ⟨o, ctx, p⟩ = some r) (hinside : r.Inside m)
    (h : parseStream ifs reparseFlags (fuel + 1) ⟨o, ctx, c :: p⟩ = some (rcode, st))
    (hrest : ∀ words o p, Ended p →
      parseStream ifs reparseFlags fuel ⟨o, cmdCtx (w₀ :: words), p⟩ = some (rcode, st) →
      rcode = 1 ∨ ∃ words', Runs st (w₀ :: words') ∧
        weighWords words' ≤ weighWords words + units o.data + weigh p) :
    rcode = 1 ∨ ∃ words', Runs st (w₀ :: words') ∧ weighWords words' ≤ n := by
  cases r with
  | next st' =>
    obtain ⟨words, hctx, hle⟩ := hspent
    obtain ⟨o', ctx', p'⟩ := st'
    dsimp only at hctx hle
    subst hctx
    rw [parseStream_next hc hr] at h
    obtain hone | ⟨words', hruns, hle'⟩ := hrest words o' p' hinside.ended h
    · exact .inl hone
    · exact .inr ⟨words', hruns, hle'.trans hle⟩
  | ret rcode' st' =>
    rw [parseStream_ret hc hr] at h
    cases h
    obtain hone | ⟨hdata, hnonnull, words, hctx, hle⟩ := hspent
    · exact .inl hone
    · obtain ⟨o', ctx', p'⟩ := st
      dsimp only at hdata hnonnull hctx
      subst hctx
      exact .inr ⟨words, runs_newline hdata hnonnull, hle⟩

/-- All characters that count are there at first. -/
theorem parseStream_spent {fuel : ℕ} {o : OString} {p : Str} {rcode : ℤ} {st : Stream}
    (hended : Ended p)
    (h : parseStream ifs reparseFlags fuel ⟨o, cmdCtx (w₀ :: words), p⟩ = some (rcode, st)) :
    rcode = 1 ∨ ∃ words', Runs st (w₀ :: words') ∧
      weighWords words' ≤ weighWords words + units o.data + weigh p := by
  induction fuel generalizing o p words with
  | zero => cases h
  | succ fuel ih =>
    cases p with
    | nil => cases h
    | cons c p =>
      rw [weigh_cons]
      by_cases hc : c = 0
      · simp only [parseStream, staticGet, if_pos hc, Option.bind_eq_bind, Option.bind_some] at h
        cases h
        obtain ⟨o', words', hword, -, -, -, hle⟩ := @doneWord_cmdCtx w₀ o words
        refine .inr ⟨words', ⟨rfl, 0, Nat.zero_le _, ?_⟩, by omega⟩
        rw [lineList, hword]
        rfl
      obtain ⟨r, hr, hinside⟩ :=
        parseChar_inside ifs reparseFlags o hended hc (cmdCtx_ok (w₀ :: words))
      obtain rfl | hspent := parseChar_spent hended hc hr
      · rw [parseStream_next hc hr] at h
        have hrest : Ended p := hinside.ended
        obtain hone | ⟨words', hruns, hle⟩ := ih hrest h
        · exact .inl hone
        · have hunits := o.units_addqchr_le c
          exact .inr ⟨words', hruns, by omega⟩
      · have hle : (weighWords words + units o.data + weigh p + if o.quote then weight c else 0) ≤
            weighWords words + units o.data + (weight c + weigh p) := by
          split_ifs <;> omega
        exact (hspent.mono hle).finish hc hr hinside h fun words o p ↦ ih

theorem OString.addqchr_quote (o : OString) (c : UInt8) : (o.addqchr c).quote = o.quote := by
  unfold addqchr
  split_ifs <;> rfl

/-- With the quote that closes a value left over, a character is lost. -/
theorem parseStream_lost {fuel : ℕ} {o : OString} {r : Str} {rcode : ℤ} {st : Stream}
    (hifs : 39 ∉ ifs) (hr : ∀ c ∈ r, c ≠ 10 ∧ c ≠ 0) (hquote : o.quote = false)
    (h : parseStream ifs reparseFlags fuel ⟨o, cmdCtx (w₀ :: words), r ++ [39, 10, 0]⟩ =
      some (rcode, st)) :
    rcode = 1 ∨ ∃ words', Runs st (w₀ :: words') ∧
      weighWords words' < weighWords words + units o.data + weigh r + 1 := by
  induction r generalizing fuel o with
  | nil =>
    cases fuel with
    | zero => cases h
    | succ fuel =>
      have hturn : parseChar ifs reparseFlags 39 ⟨o, cmdCtx (w₀ :: words), [10, 0]⟩ =
          some (.ret 1 ⟨{ o.addAll [10] with nonnull := true }, cmdCtx (w₀ :: words), []⟩) := by
        simp only [parseChar, mapOf_quote hifs, staticPeek, Option.bind_eq_bind, Option.bind_some]
        rfl
      rw [List.nil_append, parseStream_ret (by decide) hturn] at h
      cases h
      exact .inl rfl
  | cons c r ih =>
    cases fuel with
    | zero => cases h
    | succ fuel =>
      obtain ⟨⟨hnl, hc⟩, hrest⟩ := List.forall_mem_cons.1 hr
      have hended : Ended (c :: (r ++ [39, 10, 0])) := by
        have hmem : (0 : UInt8) ∉ c :: r ++ [39] := by
          rw [List.mem_append, not_or]
          exact ⟨fun hmem ↦ (hr 0 hmem).2 rfl, by decide⟩
        have htext := ended_text hmem
        rwa [List.append_assoc, List.append_assoc, List.cons_append] at htext
      have hweight : weight c = 1 := if_neg (not_or.2 ⟨hnl, hc⟩)
      rw [weigh_cons, hweight]
      obtain ⟨t, ht, hinside⟩ :=
        parseChar_inside ifs reparseFlags o hended hc (cmdCtx_ok (w₀ :: words))
      obtain rfl | hspent := parseChar_spent hended hc ht
      · rw [List.cons_append, parseStream_next hc ht] at h
        have hunits := o.units_addqchr_le c
        obtain hone | ⟨words', hruns, hlt⟩ := ih hrest ((o.addqchr_quote c).trans hquote) h
        · exact .inl hone
        · exact .inr ⟨words', hruns, by omega⟩
      · rw [hquote] at hspent
        obtain hone | ⟨words', hruns, hle⟩ :=
          hspent.finish hc ht hinside h fun _ _ _ ↦ parseStream_spent
        · exact .inl hone
        · rw [if_neg Bool.false_ne_true, weigh_append] at hle
          have htail : weigh [39, 10, 0] = 1 := rfl
          exact .inr ⟨words', hruns, by omega⟩

end MiniPi.Hush
