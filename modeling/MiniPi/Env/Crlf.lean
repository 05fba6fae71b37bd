import Mathlib.Data.List.DropRight
import MiniPi.Env.Selective

/-!
# Importing text with CR LF line ends

The loop for `crlf_is_lf` moves the kept bytes up and shortens the size, but it writes
no NUL behind them: the bytes of the old end of the text stay where the last line can
run into them.  The import equals the one of the text with LF line ends when the last
item reads the same in front of those bytes.
-/

open MiniPi.Lib

namespace MiniPi.Env

/-- The text with every CR LF replaced by LF. -/
def crlfToLf : Str → Str
  | [] => []
  | c :: s =>
      if c = chr '\r' ∧ s.head? = some (chr '\n') then crlfToLf s else c :: crlfToLf s

/-- Without a NUL the loop for `crlf_is_lf` keeps the text with LF line ends. -/
theorem dropCrs_eq {env : Str} (h : nul ∉ env) : dropCrs env = crlfToLf env := by
  induction env with
  | nil => rfl
  | cons c s ih =>
      have hc : c ≠ nul := fun hc ↦ h (hc ▸ List.mem_cons_self)
      rw [dropCrs, crlfToLf, if_neg hc, ih fun hs ↦ h (List.mem_cons_of_mem _ hs)]

theorem crlfToLf_subset (env : Str) : ∀ c ∈ crlfToLf env, c ∈ env := by
  induction env with
  | nil => exact fun c hc ↦ hc
  | cons d s ih =>
      intro c hc
      rw [crlfToLf] at hc
      split_ifs at hc
      · exact List.mem_cons_of_mem _ (ih c hc)
      · rcases List.mem_cons.mp hc with rfl | hc
        · exact List.mem_cons_self
        · exact List.mem_cons_of_mem _ (ih c hc)

theorem length_crlfToLf (env : Str) : (crlfToLf env).length ≤ env.length := by
  induction env with
  | nil => exact le_rfl
  | cons d s ih =>
      rw [crlfToLf]
      split_ifs <;> simp only [List.length_cons] <;> omega

theorem crlfToLf_ne_nil {env : Str} (h : env ≠ []) : crlfToLf env ≠ [] := by
  induction env with
  | nil => exact absurd rfl h
  | cons d s ih =>
      rw [crlfToLf]
      split_ifs with hcr
      · refine ih fun hs ↦ ?_
        rw [hs] at hcr
        exact absurd hcr.2 (by simp)
      · exact List.cons_ne_nil _ _

/-- What follows the kept bytes in the copy: the last bytes of the text, as many as
were dropped, and the NUL. -/
def leftover (env : Str) : Str := (env ++ [nul]).drop (crlfToLf env).length

/-- The copy with its carriage returns dropped, and its size. -/
theorem copyText_crlf {env : Str} (h : nul ∉ env) :
    copyText true env = (crlfToLf env ++ leftover env, (crlfToLf env).length) := by
  have hall : env.takeWhile (· != nul) = env := by
    have hpos : ∀ c ∈ env, (c != nul) = true := by
      intro c hc
      simpa using fun heq : c = nul ↦ h (heq ▸ hc)
    have happ : (env ++ []).takeWhile (· != nul) = env ++ [].takeWhile (· != nul) :=
      List.takeWhile_append_of_pos hpos
    simpa using happ
  have hle := length_crlfToLf env
  simp only [copyText, if_true, crlfIsLf, dropCrs_eq h, hall, leftover]
  rw [Nat.sub_sub_self hle]

/-! ## Where an item ends -/

section Local

variable {sep : UInt8}

/-- A reader either ends inside the text `x`, whatever follows it, or reads all of
it. -/
def Local {α : Type} (read : Str → α × Str) (x : Str) : Prop :=
  (∃ a y, ∀ tail, tail ≠ [] → read (x ++ tail) = (a, y ++ tail)) ∨
    ∀ tail, tail ≠ [] → (read (x ++ tail)).2.length ≤ tail.length

theorem dropWhile_append_of_ne_nil {p : UInt8 → Bool} {x : Str} (h : x.dropWhile p ≠ [])
    (tail : Str) : (x ++ tail).dropWhile p = x.dropWhile p ++ tail := by
  rw [List.dropWhile_append, if_neg]
  simpa [List.isEmpty_iff] using h

theorem dropWhile_append_of_eq_nil {p : UInt8 → Bool} {x : Str} (h : x.dropWhile p = [])
    (tail : Str) : (x ++ tail).dropWhile p = tail.dropWhile p := by
  rw [List.dropWhile_append, if_pos]
  simp [h]

theorem length_dropWhile_append {p : UInt8 → Bool} {x : Str} (h : x.dropWhile p = [])
    (tail : Str) : ((x ++ tail).dropWhile p).length ≤ tail.length := by
  rw [dropWhile_append_of_eq_nil h]
  exact (List.dropWhile_suffix p).length_le

theorem takeWhile_append_of_ne_nil {p : UInt8 → Bool} {x : Str} (h : x.dropWhile p ≠ [])
    (tail : Str) : (x ++ tail).takeWhile p = x.takeWhile p := by
  rw [List.takeWhile_append, if_neg]
  intro hlen
  have := congrArg List.length (List.takeWhile_append_dropWhile (p := p) (l := x))
  rw [List.length_append, hlen] at this
  exact h (List.length_eq_zero_iff.mp (by omega))

/-- A value ends at the first unescaped separator, or goes on behind the text. -/
theorem local_parseValue (sep : UInt8) {x : Str} (hnul : nul ∉ x) :
    (∃ v y, ∀ tail, tail ≠ [] → parseValue sep (x ++ tail) = (v, sep :: y ++ tail)) ∨
      ∀ tail, tail ≠ [] → (parseValue sep (x ++ tail)).2.length ≤ tail.length := by
  induction hn : x.length using Nat.strong_induction_on generalizing x with
  | _ n ih =>
      subst hn
      rcases x with _ | ⟨c, x⟩
      · exact Or.inr fun tail _ ↦ length_parseValue sep tail
      · have hc : c ≠ nul := fun h ↦ hnul (h ▸ List.mem_cons_self)
        have hx : nul ∉ x := fun h ↦ hnul (List.mem_cons_of_mem _ h)
        by_cases hsep : c = sep
        · exact Or.inl ⟨[], x, fun tail _ ↦ by simp [parseValue.eq_def, hsep]⟩
        · by_cases hesc : c = chr '\\'
          · rcases x with _ | ⟨d, x⟩
            · -- a backslash at the very end escapes what follows
              refine Or.inr fun tail htail ↦ ?_
              obtain ⟨d, tail, rfl⟩ := List.exists_cons_of_ne_nil htail
              have h₁ := length_parseValue sep tail
              have h₂ := length_parseValue sep (d :: tail)
              simp only [List.singleton_append, List.length_cons] at h₂ ⊢
              rw [parseValue.eq_def]
              dsimp only
              rw [if_neg (not_or.mpr ⟨hc, hsep⟩)]
              split_ifs
              · simp only [Prod.map_snd, id_eq]
                omega
              · simp only [Prod.map_snd, id_eq]
                omega
            · have hd : d ≠ nul := fun h ↦ hx (h ▸ List.mem_cons_self)
              have hstep : ∀ tail, parseValue sep (c :: d :: x ++ tail) =
                  (parseValue sep (x ++ tail)).map (d :: ·) id := by
                intro tail
                rw [List.cons_append, List.cons_append, parseValue.eq_def]
                dsimp only
                rw [if_neg (not_or.mpr ⟨hc, hsep⟩), if_pos ⟨hesc, hd⟩]
              rcases ih x.length (by simp) (fun h ↦ hx (List.mem_cons_of_mem _ h)) rfl with
                ⟨v, y, h⟩ | h
              · exact Or.inl ⟨d :: v, y, fun tail ht ↦ by rw [hstep, h tail ht]; rfl⟩
              · exact Or.inr fun tail ht ↦ by rw [hstep]; exact h tail ht
          · have hstep : ∀ tail, parseValue sep (c :: x ++ tail) =
                (parseValue sep (x ++ tail)).map (c :: ·) id := by
              intro tail
              rw [List.cons_append, parseValue.eq_def]
              simp [hc, hsep, hesc]
            rcases ih x.length (by simp) hx rfl with ⟨v, y, h⟩ | h
            · exact Or.inl ⟨c :: v, y, fun tail ht ↦ by rw [hstep, h tail ht]; rfl⟩
            · exact Or.inr fun tail ht ↦ by rw [hstep]; exact h tail ht

/-- What follows the name of an item. -/
def parseRest (sep : UInt8) (name dp : Str) : Item × Str :=
  if peek dp = nul ∨ peek dp.tail = nul ∨ peek dp = sep ∨ peek dp.tail = sep then
    (.delete name, if peek dp = chr '=' then dp.tail.tail else dp.tail)
  else (.enter name (parseValue sep dp.tail).1, (parseValue sep dp.tail).2.tail)

theorem length_parseRest (sep : UInt8) (name dp : Str) :
    (parseRest sep name dp).2.length ≤ dp.length - 1 := by
  have hvalue := length_parseValue sep dp.tail
  simp only [parseRest]
  split_ifs <;> simp only [List.length_tail] at * <;> omega

theorem parseItem_eq (dp : Str) : parseItem sep dp =
    let dp := dp.dropWhile isblank
    if peek dp = chr '#' then (.comment, (dp.dropWhile fun c ↦ c != nul && c != sep).tail)
    else parseRest sep (dp.takeWhile (inName sep)) (dp.dropWhile (inName sep)) := by
  rw [parseItem]
  rfl

theorem local_parseRest (hsep : sep ≠ chr '=') (name : Str) {w : Str} (hw : w ≠ [])
    (hnul : nul ∉ w) : Local (parseRest sep name) w := by
  obtain ⟨d, w, rfl⟩ := List.exists_cons_of_ne_nil hw
  by_cases hd : d = sep
  · refine Or.inl ⟨.delete name, w, fun tail _ ↦ ?_⟩
    subst hd
    have hpeek : peek (d :: w ++ tail) = d := rfl
    rw [parseRest, if_pos (Or.inr (Or.inr (Or.inl hpeek))), if_neg (hpeek.trans_ne hsep)]
    rfl
  · rcases w with _ | ⟨e, w⟩
    · exact Or.inr fun tail _ ↦ length_parseRest sep name (d :: tail)
    · have he : e ≠ nul := fun h ↦ hnul (h ▸ List.mem_cons_of_mem _ List.mem_cons_self)
      have hd₀ : d ≠ nul := fun h ↦ hnul (h ▸ List.mem_cons_self)
      by_cases hes : e = sep
      · subst hes
        refine Or.inl ⟨.delete name, if d = chr '=' then w else e :: w, fun tail _ ↦ ?_⟩
        have hpeek : peek (d :: e :: w ++ tail).tail = e := rfl
        rw [parseRest, if_pos (Or.inr (Or.inr (Or.inr hpeek)))]
        by_cases hdeq : d = chr '='
        · rw [if_pos hdeq, if_pos (show peek (d :: e :: w ++ tail) = _ from hdeq)]
          rfl
        · rw [if_neg hdeq, if_neg (show ¬peek (d :: e :: w ++ tail) = _ from hdeq)]
          rfl
      · have hstep : ∀ tail, parseRest sep name (d :: e :: w ++ tail) =
            (.enter name (parseValue sep (e :: w ++ tail)).1,
              (parseValue sep (e :: w ++ tail)).2.tail) := by
          intro tail
          rw [parseRest, if_neg]
          · rfl
          · rintro (h | h | h | h)
            · exact hd₀ h
            · exact he h
            · exact hd h
            · exact hes h
        rcases local_parseValue sep
          (show nul ∉ e :: w from fun h ↦ hnul (List.mem_cons_of_mem _ h)) with ⟨v, y, h⟩ | h
        · refine Or.inl ⟨.enter name v, y, fun tail ht ↦ ?_⟩
          rw [hstep, h tail ht]
          rfl
        · refine Or.inr fun tail ht ↦ ?_
          rw [hstep]
          have := h tail ht
          simp only [List.length_tail]
          omega

theorem local_parseItem (hsep : sep ≠ chr '=') {x : Str} (hnul : nul ∉ x) :
    Local (parseItem sep) x := by
  by_cases hz : x.dropWhile isblank = []
  · refine Or.inr fun tail _ ↦ ?_
    have h₁ := length_dropWhile_append hz tail
    have h₂ := length_parseItem sep ((x ++ tail).dropWhile isblank)
    have h₃ : parseItem sep ((x ++ tail).dropWhile isblank) = parseItem sep (x ++ tail) := by
      rw [parseItem_eq, parseItem_eq, List.dropWhile_idempotent]
    rw [h₃] at h₂
    omega
  · have hblank := dropWhile_append_of_ne_nil hz
    have hnul' : nul ∉ x.dropWhile isblank :=
      fun h ↦ hnul ((List.dropWhile_suffix isblank).subset h)
    have hread : ∀ tail, parseItem sep (x ++ tail) =
        if peek (x.dropWhile isblank) = chr '#' then (.comment,
          ((x.dropWhile isblank ++ tail).dropWhile fun c ↦ c != nul && c != sep).tail)
        else parseRest sep ((x.dropWhile isblank ++ tail).takeWhile (inName sep))
          ((x.dropWhile isblank ++ tail).dropWhile (inName sep)) := by
      intro tail
      rw [parseItem_eq, hblank]
      obtain ⟨c, z, hcz⟩ := List.exists_cons_of_ne_nil hz
      rw [hcz]
      rfl
    generalize x.dropWhile isblank = z at hread hnul'
    by_cases hc : peek z = chr '#'
    · by_cases hw : (z.dropWhile fun c ↦ c != nul && c != sep) = []
      · refine Or.inr fun tail _ ↦ ?_
        have := length_dropWhile_append hw tail
        rw [hread, if_pos hc, List.length_tail]
        omega
      · refine Or.inl ⟨.comment, (z.dropWhile fun c ↦ c != nul && c != sep).tail, fun tail _ ↦ ?_⟩
        rw [hread, if_pos hc, dropWhile_append_of_ne_nil hw, List.tail_append_of_ne_nil hw]
    · by_cases hw : z.dropWhile (inName sep) = []
      · refine Or.inr fun tail _ ↦ ?_
        have h₁ := length_dropWhile_append hw tail
        have h₂ := length_parseRest sep ((z ++ tail).takeWhile (inName sep))
          ((z ++ tail).dropWhile (inName sep))
        rw [hread, if_neg hc]
        omega
      · have hstep : ∀ tail, parseItem sep (x ++ tail) =
            parseRest sep (z.takeWhile (inName sep)) (z.dropWhile (inName sep) ++ tail) := by
          intro tail
          rw [hread, if_neg hc, takeWhile_append_of_ne_nil hw, dropWhile_append_of_ne_nil hw]
        have hlocal := local_parseRest hsep (z.takeWhile (inName sep)) hw
          fun h ↦ hnul' ((List.dropWhile_suffix _).subset h)
        unfold Local at hlocal ⊢
        simpa only [hstep] using hlocal

theorem parseValue_suffix (dp : Str) : (parseValue sep dp).2 <:+ dp := by
  induction hn : dp.length using Nat.strong_induction_on generalizing dp with
  | _ n ih =>
      subst hn
      rcases dp with _ | ⟨c, dp⟩
      · exact List.suffix_refl _
      · rw [parseValue.eq_def]
        dsimp only
        split_ifs with hend hesc
        · exact List.suffix_refl _
        · rcases dp with _ | ⟨d, dp⟩
          · exact List.nil_suffix
          · have h := ih dp.length (by simp) dp rfl
            exact (h.trans (List.suffix_cons d dp)).trans (List.suffix_cons c _)
        · exact (ih dp.length (by simp) dp rfl).trans (List.suffix_cons c dp)

theorem parseItem_suffix (dp : Str) : (parseItem sep dp).2 <:+ dp := by
  rw [parseItem_eq]
  dsimp only
  have hblank := List.dropWhile_suffix isblank (l := dp)
  split_ifs
  · exact ((List.tail_suffix _).trans (List.dropWhile_suffix _)).trans hblank
  · refine List.IsSuffix.trans ?_ ((List.dropWhile_suffix (inName sep)).trans hblank)
    rw [parseRest]
    split_ifs
    · exact (List.tail_suffix _).trans (List.tail_suffix _)
    · exact List.tail_suffix _
    · exact ((List.tail_suffix _).trans (parseValue_suffix _)).trans (List.tail_suffix _)

theorem suffix_of_concat {y x : Str} {c : UInt8} (h : y ++ [c] <:+ x ++ [c]) : y <:+ x := by
  obtain ⟨s, hs⟩ := h
  rw [← List.append_assoc] at hs
  exact ⟨s, List.append_cancel_right hs⟩

/-! ## The last item -/

/-- The place in the text at which the last round of the loop starts. -/
def lastRound (sep : UInt8) : ℕ → Str → Str
  | 0, dp => dp
  | fuel + 1, dp =>
      let (item, dp') := parseItem sep dp
      if ¬item.stops ∧ 1 < dp'.length ∧ peek dp' ≠ nul then lastRound sep fuel dp' else dp

/-- The last item of the text `x` reads the same with `tail` behind it as with a NUL
behind it. -/
def LastAlike (sep : UInt8) (x tail : Str) : Prop :=
  let dp := lastRound sep (x.length + 1) (x ++ [nul])
  (parseItem sep (dp.dropLast ++ tail)).1 = (parseItem sep dp).1

theorem lastRound_eq (fuel : ℕ) (dp : Str) (hlen : dp.length ≤ fuel) :
    lastRound sep (fuel + 1) dp = lastRound sep fuel dp := by
  induction fuel generalizing dp with
  | zero =>
      have := length_parseItem sep dp
      simp only [lastRound]
      rw [if_neg]
      rintro ⟨-, h, -⟩
      omega
  | succ fuel ih =>
      have := length_parseItem sep dp
      rw [lastRound, lastRound]
      dsimp only
      split_ifs with h
      · exact ih _ (by omega)
      · rfl

theorem lastRound_of_le {fuel fuel' : ℕ} (dp : Str) (hlen : dp.length ≤ fuel)
    (hle : fuel ≤ fuel') : lastRound sep fuel' dp = lastRound sep fuel dp := by
  induction hle with
  | refl => rfl
  | step hle ih => exact (lastRound_eq _ dp (hlen.trans hle)).trans ih

/-- A text whose last item reads the same has the same items in front of the old bytes
as in front of a NUL. -/
theorem textItems_append (hsep : sep ≠ chr '=') {x tail : Str} (hx : x ≠ []) (hnul : nul ∉ x)
    (htail : tail ≠ []) (hlast : LastAlike sep x tail) (fuel fuel' : ℕ)
    (hfuel : (x ++ tail).length ≤ fuel) (hfuel' : x.length + 1 ≤ fuel') :
    textItems sep tail.length fuel (x ++ tail) = textItems sep 1 fuel' (x ++ [nul]) := by
  induction hn : x.length using Nat.strong_induction_on generalizing x fuel fuel' with
  | _ n ih =>
      subst hn
      obtain ⟨fuel, rfl⟩ : ∃ f, fuel = f + 1 :=
        Nat.exists_eq_add_one.mpr (lt_of_lt_of_le (by simp [List.length_pos_of_ne_nil hx]) hfuel)
      obtain ⟨fuel', rfl⟩ : ∃ f, fuel' = f + 1 := Nat.exists_eq_add_one.mpr (by omega)
      have hone : [nul] ≠ ([] : Str) := List.cons_ne_nil _ _
      rw [textItems, textItems]
      rcases local_parseItem hsep hnul with ⟨item, y, h⟩ | h
      · have hy : y <:+ x := suffix_of_concat (h [nul] hone ▸ parseItem_suffix (x ++ [nul]))
        have hshort := h [nul] hone ▸ length_parseItem sep (x ++ [nul])
        rw [h tail htail, h [nul] hone]
        dsimp only
        by_cases hstop : item.stops = true
        · rw [if_pos hstop, if_pos hstop]
        rw [if_neg hstop, if_neg hstop]
        by_cases hy₀ : y = []
        · simp [hy₀]
        · have hpeek : ∀ s, peek (y ++ s) ≠ nul := by
            intro s
            obtain ⟨c, y', rfl⟩ := List.exists_cons_of_ne_nil hy₀
            exact fun hc ↦ hnul (hc ▸ hy.subset List.mem_cons_self)
          have hpos := List.length_pos_of_ne_nil hy₀
          have hlt : y.length < x.length := by
            simp only [List.length_append, List.length_singleton] at hshort
            omega
          rw [if_pos ⟨by simp only [List.length_append]; omega, hpeek tail⟩,
            if_pos ⟨by simp only [List.length_append, List.length_singleton]; omega, hpeek [nul]⟩]
          have hlast' : LastAlike sep y tail := by
            have hround : lastRound sep (x.length + 1) (x ++ [nul]) =
                lastRound sep (y.length + 1) (y ++ [nul]) := by
              rw [lastRound, h [nul] hone]
              dsimp only
              rw [if_pos ⟨hstop, by simp only [List.length_append, List.length_singleton]; omega,
                hpeek [nul]⟩]
              exact lastRound_of_le _ (by simp) hlt
            rw [LastAlike, hround] at hlast
            exact hlast
          rw [ih y.length hlt hy₀ (fun hc ↦ hnul (hy.subset hc)) hlast' fuel fuel'
            (by simp only [List.length_append] at hfuel ⊢; omega) (by omega) rfl]
      · have h₁ := h tail htail
        have h₂ := h [nul] hone
        have hround : lastRound sep (x.length + 1) (x ++ [nul]) = x ++ [nul] := by
          rw [lastRound]
          dsimp only
          rw [if_neg fun hc ↦ absurd hc.2.1 (not_lt.mpr h₂)]
        rw [LastAlike, hround] at hlast
        rw [List.dropLast_concat] at hlast
        dsimp only
        rw [hlast, if_neg (fun hc : tail.length < _ ∧ _ ↦ absurd hc.1 (not_lt.mpr h₁)),
          if_neg (fun hc : 1 < _ ∧ _ ↦ absurd hc.1 (not_lt.mpr h₂))]

end Local

/-- The two imports read the same items. -/
theorem readText_crlf {env : Str} (hnul : nul ∉ env)
    (hlast : LastAlike (chr '\n') (crlfToLf env) (leftover env)) :
    readText (chr '\n') true env = readText (chr '\n') false (crlfToLf env) := by
  by_cases hne : env = []
  · subst hne
    rfl
  · have hne' := crlfToLf_ne_nil hne
    have hlen : env.length ≠ 0 := fun h ↦ hne (List.length_eq_zero_iff.mp h)
    have hlen' : (crlfToLf env).length ≠ 0 := fun h ↦ hne' (List.length_eq_zero_iff.mp h)
    have hle := length_crlfToLf env
    have htail : leftover env ≠ [] := by
      intro h
      have := congrArg List.length h
      simp only [leftover, List.length_drop, List.length_append, List.length_singleton,
        List.length_nil] at this
      omega
    have hitems := textItems_append (by decide) hne' (fun h ↦ hnul (crlfToLf_subset env nul h))
      htail hlast (crlfToLf env ++ leftover env).length ((crlfToLf env).length + 1) le_rfl le_rfl
    rw [readText, if_neg hlen, readText, if_neg hlen', copyText_crlf hnul]
    simp only [copyText, Bool.false_eq_true, if_false, List.length_append, List.length_singleton,
      Nat.add_sub_cancel_left] at hitems ⊢
    rw [hitems]

/-! ## Two tables with one map -/

/-- The call an item makes, unless it is skipped. -/
def Item.call (hooks : Hooks) (st : Import) : Item → Option Call
  | .comment => none
  | .delete name =>
      if (dropVarFromSet name st.vars).1 then some (.delete name (hooks st.htab name none))
      else none
  | .enter name value =>
      if (dropVarFromSet name st.vars).1 then
        some (.enter name value (hooks st.htab name (some value)))
      else none

/-- The list of variables after an item. -/
def Item.strike (vars : List (Option Str)) : Item → List (Option Str)
  | .comment => vars
  | .delete name => (dropVarFromSet name vars).2
  | .enter name _ => (dropVarFromSet name vars).2

/-- The map after a call on a table of `size` slots, or after none. -/
noncomputable def VarMap.called (m : VarMap) (size : ℕ) : Option Call → VarMap
  | none => m
  | some call => m.after (call, m.answer size call)

/-- No call of the run fails for want of room. -/
def NeverFull (hooks : Hooks) : List Item → Import → Prop
  | [], _ => True
  | item :: items, st =>
      (∀ call, item.call hooks st = some call →
        (call.run st.htab).map Prod.fst ≠ some (.error .enomem)) ∧
      ∀ st', importItem hooks st item = some (.next st') → NeverFull hooks items st'

/-- The hooks look at the values of the variables, not at the slots they are in. -/
def MapHooks (hooks : Hooks) : Prop :=
  ∀ htab₁ htab₂ : Htab, (∀ k, htab₁.lookup k = htab₂.lookup k) → hooks htab₁ = hooks htab₂

section Tables

variable (hooks : Hooks) {m : VarMap}

/-- An item makes its call and strikes its name off the list. -/
theorem importItem_call (st : Import) (h : Represents st.htab m) {item : Item}
    (hstop : ¬item.stops = true) :
    ∃ st', importItem hooks st item = some (.next st') ∧
      Represents st'.htab (m.called st.htab.size (item.call hooks st)) ∧
      st'.vars = item.strike st.vars := by
  cases item with
  | comment => exact ⟨st, rfl, h, rfl⟩
  | delete name =>
      cases hl : (dropVarFromSet name st.vars).1 with
      | false => exact ⟨⟨st.htab, (dropVarFromSet name st.vars).2⟩, by simp [importItem, hl],
          by simpa [VarMap.called, Item.call, hl] using h, rfl⟩
      | true =>
          obtain ⟨htab', hrun, -, hrep⟩ := simulates_delete h name (hooks st.htab name none)
          obtain ⟨⟨res, htab''⟩, hd, hmap⟩ := Option.map_eq_some_iff.mp hrun
          obtain rfl : htab'' = htab' := congrArg Prod.snd hmap
          exact ⟨⟨htab'', (dropVarFromSet name st.vars).2⟩, by simp [importItem, hl, hd],
            by simpa [VarMap.called, Item.call, hl] using hrep, rfl⟩
  | enter name value =>
      have hname : name ≠ [] := fun hn ↦ hstop (List.isEmpty_iff.mpr hn)
      cases hl : (dropVarFromSet name st.vars).1 with
      | false => exact ⟨⟨st.htab, (dropVarFromSet name st.vars).2⟩,
          by simp [importItem, hname, hl], by simpa [VarMap.called, Item.call, hl] using h, rfl⟩
      | true =>
          obtain ⟨htab', hrun, -, hrep⟩ :=
            simulates_enter h name value (hooks st.htab name (some value))
          obtain ⟨⟨res, htab''⟩, hs, hmap⟩ := Option.map_eq_some_iff.mp hrun
          obtain rfl : htab'' = htab' := congrArg Prod.snd hmap
          exact ⟨⟨htab'', (dropVarFromSet name st.vars).2⟩,
            by simp [importItem, hname, hl, hs],
            by simpa [VarMap.called, Item.call, hl] using hrep, rfl⟩

/-- A run of items ends. -/
theorem exists_runItems {items : List Item} (st : Import) (h : Represents st.htab m)
    (hstop : ∀ item ∈ items, ¬item.stops = true) :
    ∃ st' m', runItems hooks items st = some st' ∧ Represents st'.htab m' := by
  induction items generalizing st m with
  | nil => exact ⟨st, m, rfl, h⟩
  | cons item items ih =>
      obtain ⟨st₁, h₁, hrep₁, -⟩ := importItem_call hooks st h
        (hstop item List.mem_cons_self)
      obtain ⟨st', m', h₂, hrep₂⟩ := ih st₁ hrep₁ fun i hi ↦ hstop i (List.mem_cons_of_mem _ hi)
      exact ⟨st', m', by rw [runItems, h₁]; exact h₂, hrep₂⟩

theorem answer_eq {size₁ size₂ : ℕ} {call : Call} (h₁ : m.answer size₁ call ≠ .error .enomem)
    (h₂ : m.answer size₂ call ≠ .error .enomem) : m.answer size₁ call = m.answer size₂ call := by
  cases call with
  | find key => rfl
  | delete key verdict => rfl
  | enter key data verdict =>
      rw [VarMap.answer] at h₁ h₂ ⊢
      rw [VarMap.answer]
      split_ifs at h₁ h₂ ⊢ <;> first | rfl | exact absurd rfl h₁ | exact absurd rfl h₂

theorem called_eq {htab₁ htab₂ : Htab} (h₁ : Represents htab₁ m) (h₂ : Represents htab₂ m)
    {call : Option Call}
    (hfull₁ : ∀ c, call = some c → (c.run htab₁).map Prod.fst ≠ some (.error .enomem))
    (hfull₂ : ∀ c, call = some c → (c.run htab₂).map Prod.fst ≠ some (.error .enomem)) :
    m.called htab₁.size call = m.called htab₂.size call := by
  cases call with
  | none => rfl
  | some c =>
      obtain ⟨_, hans₁, -⟩ := simulates_call h₁ c
      obtain ⟨_, hans₂, -⟩ := simulates_call h₂ c
      have hne₁ := hfull₁ c rfl
      have hne₂ := hfull₂ c rfl
      rw [hans₁] at hne₁
      rw [hans₂] at hne₂
      rw [VarMap.called, VarMap.called, answer_eq (fun h ↦ hne₁ (congrArg some h))
        fun h ↦ hne₂ (congrArg some h)]

/-- Hooks that look at the map only make the same call on both tables. -/
theorem call_eq (hhooks : MapHooks hooks) (st₁ st₂ : Import) (h₁ : Represents st₁.htab m)
    (h₂ : Represents st₂.htab m) (hvars : st₁.vars = st₂.vars) (item : Item) :
    item.call hooks st₁ = item.call hooks st₂ := by
  have : hooks st₁.htab = hooks st₂.htab :=
    hhooks _ _ fun k ↦ (h₁.lookup_eq k).trans (h₂.lookup_eq k).symm
  cases item <;> simp only [Item.call, this, hvars]

/-- Two tables with one map have one map after the same items, if neither gets full. -/
theorem runItems_alike (hhooks : MapHooks hooks) {items : List Item} (st₁ st₂ : Import)
    (h₁ : Represents st₁.htab m) (h₂ : Represents st₂.htab m) (hvars : st₁.vars = st₂.vars)
    (hstop : ∀ item ∈ items, ¬item.stops = true) (hfull₁ : NeverFull hooks items st₁)
    (hfull₂ : NeverFull hooks items st₂) :
    ∃ st₁' st₂' m', runItems hooks items st₁ = some st₁' ∧
      runItems hooks items st₂ = some st₂' ∧ Represents st₁'.htab m' ∧
      Represents st₂'.htab m' ∧ st₁'.vars = st₂'.vars := by
  induction items generalizing st₁ st₂ m with
  | nil => exact ⟨st₁, st₂, m, rfl, rfl, h₁, h₂, hvars⟩
  | cons item items ih =>
      have hno := hstop item List.mem_cons_self
      obtain ⟨st₁', hi₁, hrep₁, hv₁⟩ := importItem_call hooks st₁ h₁ hno
      obtain ⟨st₂', hi₂, hrep₂, hv₂⟩ := importItem_call hooks st₂ h₂ hno
      have hcall := call_eq hooks hhooks st₁ st₂ h₁ h₂ hvars item
      rw [hcall] at hrep₁
      rw [called_eq h₁ h₂ (hcall ▸ hfull₁.1) hfull₂.1] at hrep₁
      obtain ⟨t₁, t₂, m', hr₁, hr₂, hrest⟩ := ih st₁' st₂' hrep₁ hrep₂ (by rw [hv₁, hv₂, hvars])
        (fun i hi ↦ hstop i (List.mem_cons_of_mem _ hi)) (hfull₁.2 _ hi₁) (hfull₂.2 _ hi₂)
      exact ⟨t₁, t₂, m', by rw [runItems, hi₁]; exact hr₁, by rw [runItems, hi₂]; exact hr₂, hrest⟩

/-- The final pass leaves two tables with one map with one map. -/
theorem deleteUnseen_alike (hhooks : MapHooks hooks) (vars : List (Option Str))
    {htab₁ htab₂ : Htab} (h₁ : Represents htab₁ m) (h₂ : Represents htab₂ m) :
    ∃ htab₁' htab₂' m', deleteUnseen hooks vars htab₁ = some htab₁' ∧
      deleteUnseen hooks vars htab₂ = some htab₂' ∧ Represents htab₁' m' ∧
      Represents htab₂' m' := by
  induction vars generalizing htab₁ htab₂ m with
  | nil => exact ⟨htab₁, htab₂, m, rfl, rfl, h₁, h₂⟩
  | cons v vars ih =>
      cases v with
      | none => exact ih h₁ h₂
      | some name =>
          have hno : ¬(Item.delete name).stops = true := by simp [Item.stops]
          obtain ⟨st₁, hi₁, hrep₁, -⟩ := importItem_call hooks ⟨htab₁, []⟩ h₁ hno
          obtain ⟨st₂, hi₂, hrep₂, -⟩ := importItem_call hooks ⟨htab₂, []⟩ h₂ hno
          have hcall := call_eq hooks hhooks ⟨htab₁, []⟩ ⟨htab₂, []⟩ h₁ h₂ rfl
            (.delete name)
          rw [hcall] at hrep₁
          obtain ⟨⟨r₁, t₁⟩, hd₁, hst₁⟩ := Option.map_eq_some_iff.mp hi₁
          obtain ⟨⟨r₂, t₂⟩, hd₂, hst₂⟩ := Option.map_eq_some_iff.mp hi₂
          obtain rfl : (⟨t₁, []⟩ : Import) = st₁ := Round.next.inj hst₁
          obtain rfl : (⟨t₂, []⟩ : Import) = st₂ := Round.next.inj hst₂
          obtain ⟨u₁, u₂, m', hu₁, hu₂, hrep⟩ := ih (m := m.called htab₁.size
            (Item.call hooks ⟨htab₂, []⟩ (.delete name))) hrep₁ hrep₂
          exact ⟨u₁, u₂, m', by simp [deleteUnseen, hd₁, hu₁], by simp [deleteUnseen, hd₂, hu₂],
            hrep⟩

end Tables

/-! ## The import -/

/-- Two imports return the same and leave the same map. -/
def SameImport (r₁ r₂ : Option (Bool × Htab)) : Prop :=
  ∃ b htab₁ htab₂, r₁ = some (b, htab₁) ∧ r₂ = some (b, htab₂) ∧
    ∀ k, htab₁.lookup k = htab₂.lookup k

/-- Two tables with one map give one result, when they are one table or neither gets
full. -/
theorem sameImport_of_represents {hooks : Hooks} (hhooks : MapHooks hooks) {F₁ F₂ : Htab}
    {m : VarMap} (h₁ : Represents F₁ m) (h₂ : Represents F₂ m) {read : List Item × Bool}
    (hstop : ∀ item ∈ read.1, ¬item.stops = true) {env env' : Str} (henv : env = [] ↔ env' = [])
    (noclear : Bool) {vars : List (Option Str)} (hroom : F₁ = F₂ ∨
      NeverFull hooks read.1 ⟨F₁, vars⟩ ∧ NeverFull hooks read.1 ⟨F₂, vars⟩) :
    SameImport (importResult noclear hooks read env ⟨F₁, vars⟩)
      (importResult noclear hooks read env' ⟨F₂, vars⟩) := by
  have hrun : ∃ st₁ st₂ m', runItems hooks read.1 ⟨F₁, vars⟩ = some st₁ ∧
      runItems hooks read.1 ⟨F₂, vars⟩ = some st₂ ∧ Represents st₁.htab m' ∧
      Represents st₂.htab m' ∧ st₁.vars = st₂.vars := by
    rcases hroom with rfl | ⟨hfull₁, hfull₂⟩
    · obtain ⟨st, m', hr, hrep⟩ := exists_runItems hooks ⟨F₁, vars⟩ h₁ hstop
      exact ⟨st, st, m', hr, hr, hrep, hrep, rfl⟩
    · exact runItems_alike hooks hhooks ⟨F₁, vars⟩ ⟨F₂, vars⟩ h₁ h₂ rfl hstop
        hfull₁ hfull₂
  obtain ⟨⟨htab₁, vars₁⟩, ⟨htab₂, vars₂⟩, m', hr₁, hr₂, hrep₁, hrep₂, hvars⟩ := hrun
  obtain rfl : vars₁ = vars₂ := hvars
  have hsame : ∀ {t₁ t₂ : Htab} {m₀ : VarMap}, Represents t₁ m₀ → Represents t₂ m₀ →
      ∀ k, t₁.lookup k = t₂.lookup k :=
    fun r₁ r₂ k ↦ (r₁.lookup_eq k).trans (r₂.lookup_eq k).symm
  obtain ⟨u₁, u₂, m'', hu₁, hu₂, hrepu₁, hrepu₂⟩ :=
    deleteUnseen_alike hooks hhooks vars₁ hrep₁ hrep₂
  rw [importResult, importResult, hr₁, hr₂]
  dsimp only
  by_cases hend : read.2 = true
  · rw [if_pos hend, if_pos hend]
    exact ⟨decide (env = []), htab₁, htab₂, rfl, by simp only [henv], hsame hrep₁ hrep₂⟩
  · rw [if_neg hend, if_neg hend]
    cases noclear with
    | true => exact ⟨true, htab₁, htab₂, rfl, rfl, hsame hrep₁ hrep₂⟩
    | false => exact ⟨true, u₁, u₂, by simp [hu₁], by simp [hu₂], hsame hrepu₁ hrepu₂⟩

/-- The import of a text with `crlf_is_lf` is the import of the text with LF line ends,
if the last item reads the same in front of the bytes the loop leaves behind and, where
new tables are made, they have one size or room for what is entered. -/
theorem crlf_import_of_lastAlike {hooks : Hooks} (hhooks : MapHooks hooks) {old : Option Htab}
    (hold : ∀ T, old = some T → ∃ m, Represents T m) {env : Str} (hnul : nul ∉ env)
    (noclear : Bool) (vars : List Str)
    (hlast : LastAlike (chr '\n') (crlfToLf env) (leftover env))
    (hroom : (if noclear = false ∧ vars = [] then none else old) = none →
      ∀ F₁ F₂, hcreateR (importEntries env.length) = some F₁ →
        hcreateR (importEntries (crlfToLf env).length) = some F₂ → F₁ = F₂ ∨
          NeverFull hooks (readText (chr '\n') true env).1 ⟨F₁, vars.map some⟩ ∧
          NeverFull hooks (readText (chr '\n') true env).1 ⟨F₂, vars.map some⟩) :
    SameImport (himportR hooks old env (chr '\n') noclear true vars)
      (himportR hooks old (crlfToLf env) (chr '\n') noclear false vars) := by
  have hread := readText_crlf hnul hlast
  have hstop := readText_not_stops (chr '\n') true env
  have henv : env = [] ↔ crlfToLf env = [] :=
    ⟨fun h ↦ by rw [h]; rfl, fun h ↦ by_contra fun hne ↦ crlfToLf_ne_nil hne h⟩
  obtain ⟨F₁, hc₁, hg₁, -⟩ := hcreateR_spec (importEntries env.length)
    (by unfold importEntries; omega) (by unfold importEntries; omega)
  obtain ⟨F₂, hc₂, hg₂, -⟩ := hcreateR_spec (importEntries (crlfToLf env).length)
    (by unfold importEntries; omega) (by unfold importEntries; omega)
  cases hkept : (if noclear = false ∧ vars = [] then none else old) with
  | none =>
      have htable : ∀ o : Option Htab, (if noclear = false ∧ vars = [] then none else old).or o =
          o := fun o ↦ by rw [hkept]; rfl
      rw [himportR_eq_importResult ((htable _).trans hc₁),
        himportR_eq_importResult ((htable _).trans hc₂), ← hread]
      exact sameImport_of_represents hhooks (represents_hcreateR hc₁ hg₁)
        (represents_hcreateR hc₂ hg₂) hstop henv noclear (hroom hkept F₁ F₂ hc₁ hc₂)
  | some T =>
      have hT : old = some T := by
        split_ifs at hkept
        exact hkept
      obtain ⟨m, hm⟩ := hold T hT
      have htable : ∀ o : Option Htab, (if noclear = false ∧ vars = [] then none else old).or o =
          some T := fun o ↦ by rw [hkept]; rfl
      rw [himportR_eq_importResult (htable _), himportR_eq_importResult (htable _), ← hread]
      exact sameImport_of_represents hhooks hm hm hstop henv noclear (Or.inl rfl)

/-- The text `a=b`, `c=d` with CR LF behind both lines. -/
theorem crlf_import_two_lines :
    SameImport (himportR accept none [97, 61, 98, 13, 10, 99, 61, 100, 13, 10] (chr '\n') false
        true [])
      (himportR accept none [97, 61, 98, 10, 99, 61, 100, 10] (chr '\n') false false []) := by
  have hold : ∀ T, (none : Option Htab) = some T → ∃ m, Represents T m :=
    fun _ h ↦ absurd h (by simp)
  have hnul : nul ∉ [97, 61, 98, 13, 10, 99, 61, 100, 13, 10] := by decide
  refine crlf_import_of_lastAlike (fun _ _ _ ↦ rfl) hold hnul false [] (by rfl) ?_
  intro _ F₁ F₂ hc₁ hc₂
  have hsize : importEntries 10 = importEntries 8 := by decide
  have hc₁' : hcreateR (importEntries 8) = some F₁ := hsize ▸ hc₁
  exact Or.inl (Option.some.inj (hc₁'.symm.trans hc₂))

/-- Without the CR LF at the end, the value of `c` is `dd`. -/
theorem crlf_import_runs_on :
    ∃ htab₁ htab₂, himportR accept none [97, 61, 98, 13, 10, 99, 61, 100] (chr '\n') false true [] =
        some (true, htab₁) ∧
      himportR accept none (crlfToLf [97, 61, 98, 13, 10, 99, 61, 100]) (chr '\n') false false [] =
        some (true, htab₂) ∧
      htab₁.lookup [99] = some [100, 100] ∧ htab₂.lookup [99] = some [100] :=
  ⟨_, _, by rfl, by rfl, by rfl, by rfl⟩

end MiniPi.Env
