import MiniPi.Env.Attr

/-!
# Looking up a name without regular expressions

Without `CONFIG_REGEX`, `env_attr_lookup` searches the text of a list for the last place that holds
the name and nothing else of an entry.  It finds what a walk over the list finds.
-/

namespace MiniPi.Env

namespace Plain

/-! ## The search -/

/-- `strstr`, from place `cur` of the string on. -/
def strstr (s pat : Str) (cur : ℕ) : Option ℕ :=
  (List.range' cur (s.length + 1 - cur)).find? fun i ↦ pat.isPrefixOf (s.drop i)

/-- `prevch` after the spaces in front of a match are skipped, as the number of bytes up to it; the
loop stops in front of the string. -/
def skipBack (s : Str) : ℕ → ℕ
  | 0 => 0
  | k + 1 => if s[k]? = some 32 then skipBack s k else k + 1

/-- `nextch` after the spaces behind a match are skipped. -/
def skipSpaces (s : Str) (i : ℕ) : Str := (s.drop i).dropWhile (· = 32)

/-- The checks for an exact match; `before` is the byte in front of the string. -/
def isExact (before : UInt8) (searched searchFor : Str) (m : ℕ) : Bool :=
  let prevch := skipBack searched m
  let prev := if prevch = 0 then before else searched.getD (prevch - 1) 0
  let next := (skipSpaces searched (m + searchFor.length)).headD 0
  !(m ≠ 0 && prev ≠ 44 && prevch ≠ 0) && !(next ≠ 58 && next ≠ 44 && next ≠ 0)

/-- The loop of `reverse_name_search`, for at most `fuel` matches. -/
def searchLoop (before : UInt8) (searched searchFor : Str) : ℕ → ℕ → Option ℕ → Option (Option ℕ)
  | 0, _, _ => none
  | fuel + 1, cur, result =>
    match strstr searched searchFor cur with
    | none => some result
    | some m =>
      searchLoop before searched searchFor fuel (m + 1)
        (if isExact before searched searchFor m then some m else result)

/-- `reverse_name_search`: the size and the place of the result. -/
def reverseNameSearch (before : UInt8) (searched searchFor : Str) : Option (ℕ × Option ℕ) :=
  if searchFor = [] then some (searched.length, some 0)
  else
    (searchLoop before searched searchFor (searched.length + 2) 0 none).map fun result ↦
      (if result.isSome then searchFor.length else 0, result)

/-- The attributes behind a name that ends at place `i`. -/
def attributesAt (s : Str) (i : ℕ) : Str :=
  let entry := skipSpaces s i
  if entry.headD 0 ≠ 58 then []
  else (skipSpaces entry 1).takeWhile fun c ↦ c ≠ 44 ∧ c ≠ 32

/-- `env_attr_lookup`, with a list and a buffer: the string in the buffer. -/
def envAttrLookup (before : UInt8) (attrList name : Str) : Option (Except AttrError Str) :=
  (reverseNameSearch before attrList name).map fun (entryLen, entry) ↦
    match entry with
    | some entry => .ok (attributesAt attrList (entry + entryLen))
    | none => .error .enoent

/-! ## The lists -/

/-- White space at an end. -/
def Trimmed (s : Str) : Prop := (∀ c ∈ s.head?, isspace c = false) ∧
    ∀ c ∈ s.getLast?, isspace c = false

/-- An entry of a list: a name and attributes, with spaces around them. -/
structure Entry where
  before : ℕ
  name : Str
  after : ℕ
  attributes : Option (ℕ × Str × ℕ)
  trimmed : Trimmed name
  name_plain : ∀ c ∈ name, c ≠ 44 ∧ c ≠ 58 ∧ c ≠ 0
  attributes_plain : ∀ a ∈ attributes, ∀ c ∈ a.2.1, c ≠ 44 ∧ c ≠ 58 ∧ c ≠ 0 ∧ isspace c = false

/-- Some spaces. -/
def spaces (n : ℕ) : Str := List.replicate n 32

/-- The text of the attributes of an entry. -/
def Entry.tail (e : Entry) : Str :=
  match e.attributes with
  | none => []
  | some (l, a, r) => 58 :: (spaces l ++ a ++ spaces r)

/-- The text of an entry. -/
def Entry.text (e : Entry) : Str := spaces e.before ++ e.name ++ spaces e.after ++ e.tail

/-- The text of a list. -/
def listText (es : List Entry) : Str := [44].intercalate (es.map Entry.text)

/-! ## Exact matches -/

/-- The name stands at place `m` of the list, alone between delimiters. -/
def ExactAt (s pat : Str) (m : ℕ) : Prop :=
  ∃ pre j k rest, s = pre ++ (spaces j ++ (pat ++ (spaces k ++ rest))) ∧ m = pre.length + j ∧
    (pre = [] ∨ pre.getLast? = some 44) ∧
      (rest.headD 0 = 58 ∨ rest.headD 0 = 44 ∨ rest.headD 0 = 0)

section Search

variable {before : UInt8} {s pat : Str} {m cur : ℕ}

theorem strstr_eq_some (h : strstr s pat cur = some m) :
    cur ≤ m ∧ m ≤ s.length ∧ pat <+: s.drop m ∧ ∀ k, cur ≤ k → k < m → ¬pat <+: s.drop k := by
  obtain ⟨hp, hmem, hall⟩ := List.find?_range'_eq_some.mp h
  rw [List.mem_range'_1] at hmem
  refine ⟨hmem.1, by omega, List.isPrefixOf_iff_prefix.mp hp, fun k hk hlt hpre ↦ ?_⟩
  have := hall k hk hlt
  rw [List.isPrefixOf_iff_prefix.mpr hpre] at this
  cases this

theorem strstr_eq_none (h : strstr s pat cur = none) {k : ℕ} (hk : cur ≤ k) (hle : k ≤ s.length) :
    ¬pat <+: s.drop k := by
  intro hpre
  have := List.find?_range'_eq_none.mp h k hk (by omega)
  rw [List.isPrefixOf_iff_prefix.mpr hpre] at this
  cases this

/-- The loop over spaces goes back to the last byte that is none. -/
theorem skipBack_eq {pre : Str} {j : ℕ} (hs : (pre ++ spaces j) <+: s)
    (hpre : pre.getLast? ≠ some 32) : skipBack s (pre.length + j) = pre.length := by
  obtain ⟨rest, rfl⟩ := hs
  induction j generalizing rest with
  | zero =>
      obtain rfl | ⟨pre, c, rfl⟩ := List.eq_nil_or_concat' pre
      · rfl
      · have hc : c ≠ 32 := by simpa using hpre
        rw [Nat.add_zero, List.length_append, List.length_singleton, skipBack, if_neg]
        simpa [spaces] using hc
  | succ j ih =>
      have hsplit : pre ++ spaces (j + 1) ++ rest = pre ++ spaces j ++ 32 :: rest := by
        simp [spaces, List.replicate_succ']
      have hlen : pre.length + j = (pre ++ spaces j).length := by simp [spaces]
      rw [← Nat.add_assoc, skipBack, if_pos, hsplit]
      · exact ih _
      · rw [hsplit, hlen, List.getElem?_append_right le_rfl, Nat.sub_self]
        rfl

theorem exists_skipBack (hm : m ≤ s.length) : ∃ pre j, s.take m = pre ++ spaces j ∧
    skipBack s m = pre.length ∧ pre.getLast? ≠ some 32 := by
  induction m with
  | zero => exact ⟨[], 0, rfl, rfl, by simp⟩
  | succ m ih =>
      have htake := List.take_succ_eq_append_getElem (show m < s.length by omega)
      by_cases hc : s[m]? = some 32
      · obtain ⟨pre, j, hsplit, hskip, hlast⟩ := ih (by omega)
        refine ⟨pre, j + 1, ?_, by rw [skipBack, if_pos hc, hskip], hlast⟩
        have h32 : s[m] = 32 := by
          rw [List.getElem?_eq_getElem (by omega)] at hc
          exact Option.some_inj.mp hc
        rw [htake, hsplit, h32, List.append_assoc, spaces, spaces, List.replicate_succ']
      · refine ⟨s.take (m + 1), 0, by simp [spaces], ?_, ?_⟩
        · rw [skipBack, if_neg hc, List.length_take]
          omega
        · rw [htake, List.getLast?_concat]
          rwa [List.getElem?_eq_getElem (by omega)] at hc

/-- Spaces are dropped up to the first byte that is none. -/
theorem dropWhile_spaces (k : ℕ) {rest : Str} (h : rest.headD 0 ≠ 32) :
    (spaces k ++ rest).dropWhile (· = 32) = rest := by
  rw [List.dropWhile_append_of_pos]
  · cases rest with
    | nil => rfl
    | cons c rest => exact List.dropWhile_cons_of_neg (by simpa using h)
  · intro c hc
    simpa using List.eq_of_mem_replicate hc

theorem exists_spaces (t : Str) : ∃ k, t = spaces k ++ t.dropWhile (· = 32) := by
  refine ⟨(t.takeWhile (· = 32)).length, ?_⟩
  have hall : t.takeWhile (· = 32) = spaces (t.takeWhile (· = 32)).length := by
    refine List.eq_replicate_of_mem fun c hc ↦ ?_
    simpa using List.mem_takeWhile_imp hc
  rw [← hall, List.takeWhile_append_dropWhile]

theorem getD_getLast {pre rest : Str} {c : UInt8} (h : pre.getLast? = some c) :
    (pre ++ rest).getD (pre.length - 1) 0 = c := by
  obtain rfl | ⟨pre, d, rfl⟩ := List.eq_nil_or_concat' pre
  · cases h
  · have : d = c := by simpa using h
    simp [this]

theorem isExact_iff (hm : m ≤ s.length) (h : pat <+: s.drop m) :
    isExact before s pat m = true ↔ ExactAt s pat m := by
  obtain ⟨t, ht⟩ := h
  have hsplit : s = s.take m ++ (pat ++ t) := by rw [ht, List.take_append_drop]
  have hdrop : s.drop (m + pat.length) = t := by rw [← List.drop_drop, ← ht, List.drop_left]
  unfold isExact skipSpaces
  rw [hdrop]
  constructor
  · intro hexact
    obtain ⟨pre, j, htake, hskip, -⟩ := exists_skipBack hm
    obtain ⟨k, hk⟩ := exists_spaces t
    have hlen := congrArg List.length htake
    rw [List.length_take, List.length_append, spaces, List.length_replicate] at hlen
    have hs : s = pre ++ (spaces j ++ (pat ++ (spaces k ++ t.dropWhile (· = 32)))) := by
      rw [← hk, ← List.append_assoc, ← htake]
      exact hsplit
    simp only [hskip, Bool.and_eq_true, Bool.not_eq_true', Bool.and_eq_false_iff,
      decide_eq_false_iff_not, not_not] at hexact
    obtain ⟨hprev, hnext⟩ := hexact
    refine ⟨pre, j, k, _, hs, by omega, ?_, by tauto⟩
    by_cases hnil : pre = []
    · exact .inl hnil
    · have hpos := List.length_pos_iff.mpr hnil
      obtain ⟨c, hc⟩ := Option.isSome_iff_exists.mp (List.getLast?_isSome.mpr hnil)
      have hget : s.getD (pre.length - 1) 0 = c := by
        rw [hs]
        exact getD_getLast hc
      rw [if_neg (by omega), hget] at hprev
      obtain (hzero | h44) | hzero := hprev
      · omega
      · exact .inr (hc.trans (congrArg some h44))
      · omega
  · rintro ⟨pre, j, k, rest, hs, rfl, hpre, hrest⟩
    have hlast : pre.getLast? ≠ some 32 := by
      obtain rfl | hlast := hpre
      · simp
      · rw [hlast]
        decide
    have hskip := @skipBack_eq s pre j ⟨_, (List.append_assoc ..).trans hs.symm⟩ hlast
    have ht' : t = spaces k ++ rest := by
      rw [← hdrop, hs, ← List.append_assoc, ← List.append_assoc]
      exact List.drop_left' (by simp [spaces, Nat.add_assoc])
    have hne : rest.headD 0 ≠ 32 := by
      obtain h | h | h := hrest <;> rw [h] <;> decide
    simp only [hskip, ht', dropWhile_spaces k hne, Bool.and_eq_true, Bool.not_eq_true',
      Bool.and_eq_false_iff, decide_eq_false_iff_not, not_not]
    refine ⟨?_, by tauto⟩
    obtain rfl | hlast := hpre
    · exact .inr rfl
    · have hget : s.getD (pre.length - 1) 0 = 44 := by
        rw [hs]
        exact getD_getLast hlast
      by_cases hzero : pre.length = 0
      · exact .inr hzero
      · rw [if_neg hzero]
        exact .inl (.inr hget)

/-- The result of the loop is the last exact match. -/
def IsLast (s pat : Str) (cur : ℕ) (result : Option ℕ) : Prop :=
  (∀ m < cur, ExactAt s pat m → ∃ r ∈ result, m ≤ r) ∧ ∀ r ∈ result, ExactAt s pat r

theorem ExactAt.starts (h : ExactAt s pat m) : m ≤ s.length ∧ pat <+: s.drop m := by
  obtain ⟨pre, j, k, rest, rfl, rfl, -, -⟩ := h
  have hlen : (pre ++ spaces j).length = pre.length + j := by simp [spaces]
  rw [← List.append_assoc, List.drop_left' hlen, List.length_append, hlen]
  exact ⟨Nat.le_add_right .., List.prefix_append ..⟩

/-- One match is looked at. -/
theorem IsLast.step {result : Option ℕ} (h : IsLast s pat cur result)
    (hm : strstr s pat cur = some m) :
    IsLast s pat (m + 1) (if isExact before s pat m then some m else result) := by
  obtain ⟨hle, hlen, hpre, hnone⟩ := strstr_eq_some hm
  obtain ⟨hlast, hres⟩ := h
  by_cases hexact : isExact before s pat m = true
  · have hat := (isExact_iff hlen hpre).mp hexact
    rw [if_pos hexact]
    refine ⟨fun k hk _ ↦ ⟨m, rfl, by omega⟩, ?_⟩
    rintro r ⟨⟩
    exact hat
  · rw [if_neg hexact]
    refine ⟨fun k hk hat ↦ ?_, hres⟩
    obtain hlt | hge := Nat.lt_or_ge k cur
    · exact hlast k hlt hat
    · obtain hlt | rfl : k < m ∨ k = m := by omega
      · exact absurd hat.starts.2 (hnone k hge hlt)
      · exact absurd ((isExact_iff hlen hpre).mpr hat) hexact

theorem searchLoop_spec {fuel : ℕ} {result : Option ℕ} (hfuel : s.length + 1 - cur < fuel)
    (h : IsLast s pat cur result) :
    ∃ r, searchLoop before s pat fuel cur result = some r ∧ IsLast s pat (s.length + 1) r := by
  induction fuel generalizing cur result with
  | zero => omega
  | succ fuel ih =>
      rw [searchLoop]
      cases hm : strstr s pat cur with
      | none =>
          refine ⟨result, rfl, fun k hk hat ↦ ?_, h.2⟩
          obtain hlt | hge := Nat.lt_or_ge k cur
          · exact h.1 k hlt hat
          · exact absurd hat.starts.2 (strstr_eq_none hm hge (by omega))
      | some m =>
          obtain ⟨hle, hlen, -⟩ := strstr_eq_some hm
          exact ih (by omega) (h.step hm)

end Search

/-! ## Entry by entry -/

section Lists

variable {s t pat : Str} {m : ℕ}

theorem getLast?_cons_of_getLast? {c : UInt8} {pre : Str} (h : pre = [] ∨ pre.getLast? = some c) :
    (c :: pre).getLast? = some c := by
  obtain rfl | h := h
  · rfl
  · rw [List.getLast?_cons, h, Option.getD_some]

/-- The exact matches of a list are those of its first entry and those of the rest. -/
theorem exactAt_append_iff (ht : 44 ∉ t) (hpat : 44 ∉ pat) (hne : pat ≠ []) :
    ExactAt (t ++ 44 :: s) pat m ↔
      ExactAt t pat m ∨ ∃ m', m = t.length + 1 + m' ∧ ExactAt s pat m' := by
  constructor
  · rintro ⟨pre, j, k, rest, heq, rfl, hpre, hrest⟩
    obtain ⟨a, rfl, ha⟩ | ⟨c, rfl, hc⟩ := List.append_eq_append_iff.mp heq
    · right
      rcases a with _ | ⟨d, a⟩
      · -- a match does not start with the delimiter
        exfalso
        rcases pat with _ | ⟨p, pat⟩
        · exact hne rfl
        · rcases j with _ | j
          · simp only [spaces, List.replicate_zero, List.nil_append, List.cons_append,
              List.cons.injEq] at ha
            exact hpat (ha.1 ▸ List.mem_cons_self)
          · simp [spaces, List.replicate_succ] at ha
      · rw [List.cons_append, List.cons.injEq] at ha
        obtain ⟨rfl, rfl⟩ := ha
        refine ⟨a.length + j, by simp; omega, a, j, k, rest, rfl, rfl, ?_, hrest⟩
        have hlast := hpre.resolve_left (by simp)
        rw [List.getLast?_append, List.getLast?_cons, Option.some_or, Option.some_inj] at hlast
        cases ha : a.getLast? with
        | none => exact .inl (List.getLast?_eq_none_iff.mp ha)
        | some d =>
            rw [ha, Option.getD_some] at hlast
            exact .inr (by rw [hlast])
    · left
      have hnil : pre = [] := by
        refine hpre.resolve_right fun hlast ↦ ht ?_
        exact List.mem_append_left _ (List.mem_of_getLast? hlast)
      subst hnil
      have hword : 44 ∉ spaces j ++ (pat ++ spaces k) := by
        simp only [List.mem_append, not_or, spaces, List.mem_replicate, not_and]
        exact ⟨fun _ ↦ by decide, hpat, fun _ ↦ by decide⟩
      have hc' : (spaces j ++ (pat ++ spaces k)) ++ rest = c ++ 44 :: s := by
        rw [← hc]
        simp
      rw [List.nil_append]
      obtain ⟨a, rfl, ha⟩ | ⟨a, ha, hrest'⟩ := List.append_eq_append_iff.mp hc'
      · refine ⟨[], j, k, a, by simp, rfl, .inl rfl, ?_⟩
        rcases a with _ | ⟨d, a⟩
        · exact .inr (.inr rfl)
        · rw [ha] at hrest
          exact hrest
      · rcases a with _ | ⟨d, a⟩
        · rw [List.append_nil] at ha
          exact ⟨[], j, k, [], by rw [← ha]; simp, rfl, .inl rfl, .inr (.inr rfl)⟩
        · rw [List.cons_append, List.cons.injEq] at hrest'
          exact absurd (ha ▸ by simp [hrest'.1]) hword
  · rintro (⟨pre, j, k, rest, rfl, rfl, hpre, hrest⟩ | ⟨m', rfl, pre, j, k, rest, rfl, rfl,
      hpre, hrest⟩)
    · refine ⟨pre, j, k, rest ++ 44 :: s, by simp, rfl, hpre, ?_⟩
      cases rest with
      | nil => exact .inr (.inl rfl)
      | cons c rest => exact hrest
    · refine ⟨t ++ 44 :: pre, j, k, rest, by simp, by simp; omega, .inr ?_, hrest⟩
      rw [List.getLast?_append, getLast?_cons_of_getLast? hpre, Option.some_or]

/-- The name of an entry, as it can be looked up. -/
structure Word (pat : Str) : Prop where
  ne_nil : pat ≠ []
  no_space : 32 ∉ pat
  no_delim : 44 ∉ pat
  no_sep : 58 ∉ pat

theorem notMem_spaces {c : UInt8} (hc : c ≠ 32) (n : ℕ) : c ∉ spaces n := fun h ↦
  hc (List.eq_of_mem_replicate h)

theorem headD_ne_of_notMem {c : UInt8} (h : c ∉ t) (hc : c ≠ 0) : t.headD 0 ≠ c := by
  rcases t with _ | ⟨d, t⟩
  · exact hc.symm
  · intro heq
    exact h (heq ▸ List.mem_cons_self)

theorem headD_append (h : t ≠ []) : (t ++ s).headD 0 = t.headD 0 := by
  rcases t with _ | ⟨c, t⟩
  · exact absurd rfl h
  · rfl

theorem spaces_append_inj {a b : ℕ} {x y : Str} (h : spaces a ++ x = spaces b ++ y)
    (hx : x.headD 0 ≠ 32) (hy : y.headD 0 ≠ 32) : a = b ∧ x = y := by
  have hxy : x = y := by
    rw [← dropWhile_spaces a hx, h, dropWhile_spaces b hy]
  subst hxy
  have hlen := congrArg List.length h
  simp only [List.length_append, spaces, List.length_replicate] at hlen
  exact ⟨by omega, rfl⟩

theorem append_spaces_inj {a b : ℕ} {x y : Str} (h : x ++ spaces a = y ++ spaces b)
    (hx : x.reverse.headD 0 ≠ 32) (hy : y.reverse.headD 0 ≠ 32) : x = y := by
  have hrev := congrArg List.reverse h
  rw [List.reverse_append, List.reverse_append] at hrev
  simp only [spaces, List.reverse_replicate] at hrev
  exact List.reverse_injective (spaces_append_inj hrev hx hy).2

theorem Trimmed.headD (h : Trimmed t) : t.headD 0 ≠ 32 ∧ t.reverse.headD 0 ≠ 32 := by
  obtain ⟨hhead, hlast⟩ := h
  constructor
  · rcases t with _ | ⟨c, t⟩
    · decide
    · rintro rfl
      cases hhead 32 rfl
  · obtain rfl | ⟨t, c, rfl⟩ := List.eq_nil_or_concat' t
    · decide
    · rw [List.reverse_concat]
      rintro rfl
      cases hlast 32 (by simp)

namespace Entry

variable (e : Entry)

theorem tail_cases : e.tail = [] ∨ ∃ t, e.tail = 58 :: t := by
  unfold tail
  split
  · exact .inl rfl
  · exact .inr ⟨_, rfl⟩

theorem notMem_text {c : UInt8} (hc : c = 44 ∨ c = 0) : c ∉ e.text := by
  have h32 : c ≠ 32 := by
    obtain rfl | rfl := hc <;> decide
  have hname : c ∉ e.name := by
    intro hmem
    have := e.name_plain c hmem
    tauto
  have htail : c ∉ e.tail := by
    unfold tail
    split
    · exact List.not_mem_nil
    · rename_i l a r hattr
      have ha : c ∉ a := by
        intro hmem
        have := e.attributes_plain _ hattr c hmem
        tauto
      simp only [List.mem_cons, List.mem_append, not_or]
      refine ⟨?_, ⟨notMem_spaces h32 l, ha⟩, notMem_spaces h32 r⟩
      obtain rfl | rfl := hc <;> decide
  simp only [text, List.mem_append, not_or]
  exact ⟨⟨⟨notMem_spaces h32 _, hname⟩, notMem_spaces h32 _⟩, htail⟩

/-- The part of an entry in front of its attributes. -/
theorem takeWhile_sep {x rest : Str} (hx : 58 ∉ x) (hrest : rest = [] ∨ ∃ t, rest = 58 :: t) :
    (x ++ rest).takeWhile (· ≠ 58) = x := by
  rw [List.takeWhile_append_of_pos]
  · obtain rfl | ⟨t, rfl⟩ := hrest <;> simp
  · intro c hc
    have : c ≠ 58 := fun h ↦ hx (h ▸ hc)
    simpa using this

theorem exactAt_iff (hpat : Word pat) : ExactAt e.text pat m ↔ e.name = pat ∧ m = e.before := by
  have hno := e.notMem_text (.inl rfl)
  have hno0 := e.notMem_text (.inr rfl)
  constructor
  · rintro ⟨pre, j, k, rest, heq, rfl, hpre, hrest⟩
    have hnil : pre = [] := by
      refine hpre.resolve_right fun hlast ↦ hno ?_
      rw [heq]
      exact List.mem_append_left _ (List.mem_of_getLast? hlast)
    subst hnil
    rw [List.nil_append] at heq
    have hrest' : rest = [] ∨ ∃ t, rest = 58 :: t := by
      rcases rest with _ | ⟨c, rest⟩
      · exact .inl rfl
      · have hmem : c ∈ e.text := by
          rw [heq]
          simp
        obtain h | h | h := hrest
        · exact .inr ⟨rest, by rw [← h]; rfl⟩
        · exact absurd (h ▸ hmem) hno
        · exact absurd (h ▸ hmem) hno0
    have hname58 : 58 ∉ e.name := fun h ↦ (e.name_plain 58 h).2.1 rfl
    have hleft : 58 ∉ spaces e.before ++ e.name ++ spaces e.after := by
      simp only [List.mem_append, not_or]
      exact ⟨⟨notMem_spaces (by decide) _, hname58⟩, notMem_spaces (by decide) _⟩
    have hright : 58 ∉ spaces j ++ (pat ++ spaces k) := by
      simp only [List.mem_append, not_or]
      exact ⟨notMem_spaces (by decide) _, hpat.no_sep, notMem_spaces (by decide) _⟩
    have hparts : spaces e.before ++ e.name ++ spaces e.after = spaces j ++ (pat ++ spaces k) := by
      rw [← takeWhile_sep hleft e.tail_cases, ← takeWhile_sep hright hrest']
      congr 1
      rw [← text, heq]
      simp
    have hpat₁ : (pat ++ spaces k).headD 0 ≠ 32 := by
      rw [headD_append hpat.ne_nil]
      exact headD_ne_of_notMem hpat.no_space (by decide)
    have hpat₂ : pat.reverse.headD 0 ≠ 32 :=
      headD_ne_of_notMem (fun h ↦ hpat.no_space (List.mem_reverse.mp h)) (by decide)
    have hname : e.name ≠ [] := by
      intro hnil
      obtain ⟨c, hc⟩ := List.exists_mem_of_ne_nil pat hpat.ne_nil
      have hmem : c ∈ spaces e.before ++ e.name ++ spaces e.after := by
        rw [hparts]
        simp [hc]
      rw [hnil, List.append_nil, List.mem_append] at hmem
      have h32 : c = 32 := hmem.elim List.eq_of_mem_replicate List.eq_of_mem_replicate
      exact hpat.no_space (h32 ▸ hc)
    have hname₁ : (e.name ++ spaces e.after).headD 0 ≠ 32 := by
      rw [headD_append hname]
      exact e.trimmed.headD.1
    rw [List.append_assoc] at hparts
    obtain ⟨hj, hrest⟩ := spaces_append_inj hparts hname₁ hpat₁
    exact ⟨append_spaces_inj hrest e.trimmed.headD.2 hpat₂, by simp [hj]⟩
  · rintro ⟨rfl, rfl⟩
    refine ⟨[], e.before, e.after, e.tail, ?_, by simp, .inl rfl, ?_⟩
    · simp [text]
    · obtain h | ⟨t, h⟩ := e.tail_cases
      · exact .inr (.inr (by rw [h]; rfl))
      · exact .inl (by rw [h]; rfl)

/-- The attributes of an entry, as the walk reports them. -/
def pair : Str × Option Str := (e.name, e.attributes.map fun a ↦ a.2.1)

/-- The attributes that the lookup copies, behind the name of an entry. -/
theorem attributesAt_eq {i : ℕ} {more : Str} (hmore : more = [] ∨ ∃ t, more = 44 :: t)
    (hs : s.drop i = spaces e.after ++ (e.tail ++ more)) :
    attributesAt s i = (e.pair.2).getD [] := by
  have hhead : (e.tail ++ more).headD 0 ≠ 32 := by
    obtain h | ⟨t, h⟩ := e.tail_cases
    · obtain rfl | ⟨u, rfl⟩ := hmore <;> rw [h] <;> simp
    · rw [h]
      simp
  unfold attributesAt skipSpaces
  rw [hs, dropWhile_spaces _ hhead]
  dsimp only
  unfold tail pair
  cases hattr : e.attributes with
  | none => obtain rfl | ⟨u, rfl⟩ := hmore <;> simp
  | some a =>
      obtain ⟨l, a, r⟩ := a
      have hplain : ∀ c ∈ a, c ≠ 44 ∧ c ≠ 32 := by
        intro c hc
        obtain ⟨h44, -, -, hspace⟩ := e.attributes_plain _ hattr c hc
        refine ⟨h44, ?_⟩
        rintro rfl
        cases hspace
      have hend : ∀ n, (spaces n ++ more).takeWhile (fun c ↦ c ≠ 44 ∧ c ≠ 32) = [] := by
        intro n
        obtain rfl | ⟨u, rfl⟩ := hmore <;> cases n <;> simp [spaces, List.replicate_succ]
      have hstop : more.headD 0 ≠ 32 := by
        obtain rfl | ⟨u, rfl⟩ := hmore <;> simp
      have hsplit : (58 :: (spaces l ++ a ++ spaces r) ++ more).drop 1 =
          spaces l ++ (a ++ (spaces r ++ more)) := by simp
      rw [if_neg (by simp), hsplit]
      by_cases hnil : a = []
      · have hsum : spaces l ++ (a ++ (spaces r ++ more)) = spaces (l + r) ++ more := by
          rw [hnil, List.nil_append, ← List.append_assoc, spaces, spaces,
            List.replicate_append_replicate]
          rfl
        rw [hsum, dropWhile_spaces _ hstop, hnil]
        exact hend 0
      · have hhead : (a ++ (spaces r ++ more)).headD 0 ≠ 32 := by
          rw [headD_append hnil]
          exact headD_ne_of_notMem (fun h ↦ (hplain 32 h).2 rfl) (by decide)
        rw [dropWhile_spaces _ hhead, List.takeWhile_append_of_pos, hend, List.append_nil]
        · rfl
        · intro c hc
          simpa using hplain c hc

end Entry

/-! ## The walk -/

theorem isspace_of_mem_spaces {n : ℕ} : ∀ c ∈ spaces n, isspace c = true := by
  intro c hc
  rw [List.eq_of_mem_replicate hc]
  decide

theorem strim_spaces (a b : ℕ) {x : Str} (h : Trimmed x) :
    strim (spaces a ++ x ++ spaces b) = x := by
  obtain ⟨hhead, hlast⟩ := h
  unfold strim
  rw [List.append_assoc, List.dropWhile_append_of_pos isspace_of_mem_spaces]
  obtain rfl | ⟨x, d, rfl⟩ := List.eq_nil_or_concat' x
  · have hnil : ([] ++ spaces b).dropWhile isspace = [] :=
      List.dropWhile_eq_nil_iff.mpr isspace_of_mem_spaces
    rw [hnil]
    rfl
  · have hd : isspace d = false := hlast d (by simp)
    have hfirst : (x ++ [d] ++ spaces b).dropWhile isspace = x ++ [d] ++ spaces b := by
      cases x with
      | nil => exact List.dropWhile_cons_of_neg (by simp [hd])
      | cons c x => exact List.dropWhile_cons_of_neg (by simp [hhead c rfl])
    have hrev : (spaces b).reverse = spaces b := List.reverse_replicate ..
    rw [hfirst, List.rdropWhile, List.reverse_append, hrev,
      List.dropWhile_append_of_pos isspace_of_mem_spaces, List.reverse_concat,
      List.dropWhile_cons_of_neg (by simp [hd])]
    simp

namespace Entry

variable (e : Entry)

theorem attrEntry_text : attrEntry e.text = e.pair := by
  have hname58 : 58 ∉ spaces e.before ++ e.name ++ spaces e.after := by
    simp only [List.mem_append, not_or]
    exact ⟨⟨notMem_spaces (by decide) _, fun h ↦ (e.name_plain 58 h).2.1 rfl⟩,
      notMem_spaces (by decide) _⟩
  have hname : e.text.takeWhile (· ≠ 58) = spaces e.before ++ e.name ++ spaces e.after :=
    takeWhile_sep hname58 e.tail_cases
  have hdrop : e.text.dropWhile (· ≠ 58) = e.tail := by
    have happ := List.takeWhile_append_dropWhile (p := fun c : UInt8 ↦ decide (c ≠ 58))
      (l := e.text)
    rw [hname] at happ
    exact List.append_cancel_left happ
  have hmem : 58 ∈ e.text ↔ e.tail ≠ [] := by
    rw [text, List.mem_append, or_iff_right hname58]
    obtain h | ⟨t, h⟩ := e.tail_cases <;> simp [h]
  rw [attrEntry, hname, hdrop, strim_spaces _ _ e.trimmed, pair]
  congr 1
  cases hattr : e.attributes with
  | none =>
      have htail : e.tail = [] := by simp [tail, hattr]
      rw [if_neg fun h ↦ hmem.mp h htail]
      rfl
  | some a =>
      obtain ⟨l, a, r⟩ := a
      have htail : e.tail = 58 :: (spaces l ++ a ++ spaces r) := by simp [tail, hattr]
      have hplain : ∀ c ∈ a, isspace c = false := fun c hc ↦
        (e.attributes_plain _ hattr c hc).2.2.2
      have htrim : Trimmed a :=
        ⟨fun c hc ↦ hplain c (List.mem_of_mem_head? hc),
          fun c hc ↦ hplain c (List.mem_of_mem_getLast? hc)⟩
      rw [if_pos (hmem.mpr (by simp [htail])), htail, List.tail_cons, strim_spaces _ _ htrim]
      rfl

end Entry

theorem attrEntries_listText (es : List Entry) (hne : es ≠ []) :
    attrEntries (listText es) = (es.map Entry.pair).filter fun p ↦ p.1 ≠ [] := by
  have hno : ∀ l ∈ es.map Entry.text, 44 ∉ l := by
    intro l hl
    obtain ⟨e, -, rfl⟩ := List.mem_map.mp hl
    exact e.notMem_text (.inl rfl)
  have hmap : (es.map Entry.text).map attrEntry = es.map Entry.pair := by
    rw [List.map_map]
    exact List.map_congr_left fun e _ ↦ e.attrEntry_text
  rw [attrEntries, listText, List.splitOn_intercalate 44 hno (by simpa using hne), hmap]

theorem lastEntry_cons (p : Str × Option Str) (ps : List (Str × Option Str)) :
    lastEntry pat (p :: ps) = (lastEntry pat ps).or (if p.1 = pat then some p.2 else none) := by
  induction ps using List.reverseRecOn with
  | nil => simp [lastEntry]
  | append_singleton ps q ih =>
      obtain ⟨n, a⟩ := q
      rw [← List.cons_append]
      by_cases hn : n = pat
      · subst hn
        rw [lastEntry_concat_self, lastEntry_concat_self, Option.some_or]
      · rw [lastEntry_concat_of_ne hn, lastEntry_concat_of_ne hn, ih]

theorem lastEntry_filter (hpat : pat ≠ []) (ps : List (Str × Option Str)) :
    lastEntry pat (ps.filter fun p ↦ p.1 ≠ []) = lastEntry pat ps := by
  induction ps with
  | nil => rfl
  | cons p ps ih =>
      rw [lastEntry_cons, ← ih]
      by_cases hp : p.1 = []
      · rw [List.filter_cons_of_neg (by simpa using hp), if_neg (fun h ↦ hpat (h.symm.trans hp)),
          Option.or_none]
      · rw [List.filter_cons_of_pos (by simpa using hp), lastEntry_cons]

theorem given_listText (hpat : pat ≠ []) (es : List Entry) :
    given (listText es) pat = lastEntry pat (es.map Entry.pair) := by
  rw [given]
  by_cases hne : es = []
  · subst hne
    rfl
  · rw [attrEntries_listText es hne, lastEntry_filter hpat]

/-! ## The last entry -/

/-- What is found of a name in a list: nothing, or the place of the last entry for it. -/
def Found (es : List Entry) (pat : Str) : Prop :=
  (lastEntry pat (es.map Entry.pair) = none ∧ ∀ m, ¬ExactAt (listText es) pat m) ∨
    ∃ a r, lastEntry pat (es.map Entry.pair) = some a ∧ ExactAt (listText es) pat r ∧
      (∀ m, ExactAt (listText es) pat m → m ≤ r) ∧
        attributesAt (listText es) (r + pat.length) = a.getD []

theorem listText_cons_cons (e e' : Entry) (es : List Entry) :
    listText (e :: e' :: es) = e.text ++ 44 :: listText (e' :: es) := by
  simp [listText, List.intercalate]

theorem drop_text (e : Entry) (more : Str) :
    (e.text ++ more).drop (e.before + e.name.length) = spaces e.after ++ (e.tail ++ more) := by
  have hsplit : e.text ++ more = (spaces e.before ++ e.name) ++
      (spaces e.after ++ (e.tail ++ more)) := by
    simp [Entry.text]
  rw [hsplit]
  exact List.drop_left' (by simp [spaces])

theorem found_singleton (hpat : Word pat) (e : Entry) : Found [e] pat := by
  have htext : listText [e] = e.text := by simp [listText, List.intercalate]
  unfold Found
  rw [htext, List.map_singleton, lastEntry_cons, lastEntry_nil, Option.none_or]
  by_cases hname : e.name = pat
  · right
    refine ⟨_, e.before, if_pos hname, (e.exactAt_iff hpat).mpr ⟨hname, rfl⟩, ?_, ?_⟩
    · intro m hat
      exact ((e.exactAt_iff hpat).mp hat).2.le
    · have hdrop := drop_text e []
      rw [List.append_nil, hname] at hdrop
      exact e.attributesAt_eq (.inl rfl) hdrop
  · left
    exact ⟨if_neg hname, fun m hat ↦ hname ((e.exactAt_iff hpat).mp hat).1⟩

/-- The induction is on the list: a match in the rest comes after those in the first entry. -/
theorem found (hpat : Word pat) (es : List Entry) (hne : es ≠ []) : Found es pat := by
  induction es with
  | nil => exact absurd rfl hne
  | cons e es ih =>
      rcases es with _ | ⟨e', es⟩
      · exact found_singleton hpat e
      have hmatch (m : ℕ) := @exactAt_append_iff (listText (e' :: es)) e.text pat m
        (e.notMem_text (.inl rfl)) hpat.no_delim hpat.ne_nil
      unfold Found
      rw [listText_cons_cons, List.map_cons, lastEntry_cons]
      obtain ⟨hnone, hno⟩ | ⟨a, r, hsome, hat, hmax, hattr⟩ := ih (List.cons_ne_nil _ _)
      · rw [hnone, Option.none_or]
        by_cases hname : e.name = pat
        · right
          refine ⟨_, e.before, if_pos hname,
            (hmatch _).mpr (.inl ((e.exactAt_iff hpat).mpr ⟨hname, rfl⟩)), ?_, ?_⟩
          · intro m hat
            obtain hat | ⟨m', -, hat⟩ := (hmatch m).mp hat
            · exact ((e.exactAt_iff hpat).mp hat).2.le
            · exact absurd hat (hno m')
          · have hdrop := drop_text e (44 :: listText (e' :: es))
            rw [hname] at hdrop
            exact e.attributesAt_eq (.inr ⟨_, rfl⟩) hdrop
        · left
          refine ⟨if_neg hname, fun m hat ↦ ?_⟩
          obtain hat | ⟨m', -, hat⟩ := (hmatch m).mp hat
          · exact hname ((e.exactAt_iff hpat).mp hat).1
          · exact hno m' hat
      · right
        rw [hsome, Option.some_or]
        refine ⟨a, e.text.length + 1 + r, rfl, (hmatch _).mpr (.inr ⟨r, rfl, hat⟩), ?_, ?_⟩
        · intro m hat'
          obtain hfirst | ⟨m', rfl, hrest⟩ := (hmatch m).mp hat'
          · have := hfirst.starts.1
            omega
          · have := hmax m' hrest
            omega
        · have hdrop : (e.text ++ 44 :: listText (e' :: es)).drop
            (e.text.length + 1 + r + pat.length) =
              (listText (e' :: es)).drop (r + pat.length) := by
            rw [Nat.add_assoc, Nat.add_assoc, ← List.drop_drop, List.drop_left, Nat.add_comm 1,
              List.drop_succ_cons]
          unfold attributesAt skipSpaces at hattr ⊢
          rw [hdrop]
          exact hattr

end Lists

/-- A callback of the walk that keeps the last entry for a name. -/
def keepLast (name n : Str) (attributes : Option Str) (last : Option (Option Str)) :
    Except AttrError (Option (Option Str)) :=
  .ok (if n = name then some attributes else last)

theorem envAttrWalk_keepLast (attrList name : Str) :
    envAttrWalk attrList (keepLast name) none = .ok (given attrList name) := by
  unfold envAttrWalk given
  induction attrEntries attrList using List.reverseRecOn with
  | nil => rfl
  | append_singleton es e ih =>
      rw [List.foldlM_append, ih]
      obtain ⟨n, a⟩ := e
      by_cases hn : n = name
      · subst hn
        rw [lastEntry_concat_self]
        simp [keepLast, bind, Except.bind, pure, Except.pure]
      · rw [lastEntry_concat_of_ne hn]
        simp [keepLast, hn, bind, Except.bind, pure, Except.pure]

/-- The result of a lookup, for the last entry of the walk. -/
def reported : Option (Option Str) → Except AttrError Str
  | some attributes => .ok (attributes.getD [])
  | none => .error .enoent

/-- Looking a name up gives the attributes of the last entry that a walk reports for it. -/
theorem envAttrLookup_listText (before : UInt8) (es : List Entry) (name : Str) (hname : Word name) :
    ∃ last, envAttrWalk (listText es) (keepLast name) none = .ok last ∧
      envAttrLookup before (listText es) name = some (reported last) := by
  refine ⟨_, envAttrWalk_keepLast .., ?_⟩
  have hstart : IsLast (listText es) name 0 none :=
    ⟨fun m hm ↦ absurd hm (Nat.not_lt_zero m), by simp⟩
  obtain ⟨r, hloop, hlast, hexact⟩ := @searchLoop_spec before _ _ _
    ((listText es).length + 2) _ (by omega) hstart
  rw [envAttrLookup, reverseNameSearch, if_neg hname.ne_nil, hloop, given_listText hname.ne_nil]
  by_cases hne : es = []
  · subst hne
    cases r with
    | none => rfl
    | some r =>
        obtain ⟨c, hc⟩ := List.exists_mem_of_ne_nil name hname.ne_nil
        have := (hexact r rfl).starts.2.subset hc
        simp [listText, List.intercalate] at this
  obtain ⟨hnone, hno⟩ | ⟨a, m, hsome, hat, hmax, hattr⟩ := found hname es hne
  · cases r with
    | none =>
        rw [hnone]
        rfl
    | some r => exact absurd (hexact r rfl) (hno r)
  · obtain ⟨r, rfl, hle⟩ := hlast m (Nat.lt_succ_of_le hat.starts.1) hat
    obtain rfl : m = r := le_antisymm hle (hmax r (hexact r rfl))
    rw [hsome]
    simp [reported, hattr]

theorem trimmed_a : Trimmed [97] := by simp [Trimmed, isspace]

theorem trimmed_nil : Trimmed [] := by simp [Trimmed]

theorem plain_a : ∀ c ∈ ([97] : Str), c ≠ 44 ∧ c ≠ 58 ∧ c ≠ 0 := by simp

theorem plain_nil : ∀ c ∈ ([] : Str), c ≠ 44 ∧ c ≠ 58 ∧ c ≠ 0 := by simp

theorem plain_attributes_none : ∀ a ∈ (none : Option (ℕ × Str × ℕ)), ∀ c ∈ a.2.1,
    c ≠ 44 ∧ c ≠ 58 ∧ c ≠ 0 ∧ isspace c = false := by simp

theorem plain_attributes_s : ∀ a ∈ some ((0, [115], 0) : ℕ × Str × ℕ), ∀ c ∈ a.2.1,
    c ≠ 44 ∧ c ≠ 58 ∧ c ≠ 0 ∧ isspace c = false := by simp [isspace]

/-- The list `a:s,, a `: two entries for one name, spaces and an empty entry. -/
def twoEntries : List Entry :=
  [⟨0, [97], 0, some (0, [115], 0), trimmed_a, plain_a, plain_attributes_s⟩,
    ⟨0, [], 0, none, trimmed_nil, plain_nil, plain_attributes_none⟩,
    ⟨1, [97], 1, none, trimmed_a, plain_a, plain_attributes_none⟩]

theorem envAttrLookup_twoEntries :
    ∃ last, envAttrWalk (listText twoEntries) (keepLast [97]) none = .ok last ∧
      envAttrLookup 0 (listText twoEntries) [97] = some (reported last) :=
  envAttrLookup_listText 0 twoEntries [97] ⟨by simp, by simp, by simp, by simp⟩

end Plain

end MiniPi.Env
