import MiniPi.FwEnv.Basic

/-!
# `fw_env_write` edits a map

A well-formed text holds a list of variables with distinct names.  The functions of `fw_env.c` are
described by what they do to the list.
-/

namespace MiniPi.FwEnv

open Env

/-! ## Texts that hold variables -/

/-- A variable: its name and its value. -/
abbrev Var := Str × Str

/-- A name has no `=`, and it is a C string. -/
def IsName (name : Str) : Prop := chr '=' ∉ name ∧ nul ∉ name

instance : DecidablePred IsName := fun _ ↦ inferInstanceAs (Decidable (_ ∧ _))

/-- `name=value`, with its NUL. -/
def entry (e : Var) : Str := e.1 ++ chr '=' :: e.2 ++ [nul]

/-- The entries one behind the other. -/
def block (vars : List Var) : Str := vars.flatMap entry

/-- The text holds the variables: `name=value` strings up to a double NUL. -/
structure Holds (data : Str) (vars : List Var) : Prop where
  names : ∀ e ∈ vars, IsName e.1
  values : ∀ e ∈ vars, nul ∉ e.2
  nodup : (vars.map Prod.fst).Nodup
  text : ∃ rest, data = block vars ++ nul :: rest ∧ (vars = [] → rest.head? = some nul)

/-- The other variables, in their order. -/
def others (vars : List Var) (name : Str) : List Var := vars.filter (·.1 ≠ name)

/-- The variables after one of them is set; an empty value deletes it. -/
def edited (vars : List Var) (name value : Str) : List Var :=
  others vars name ++ if value = [] then [] else [(name, value)]

/-- The value of a variable. -/
def valueOf (vars : List Var) (name : Str) : Option Str := (vars.find? (·.1 = name)).map Prod.snd

section Entries

variable {e : Var} {vars : List Var} {pre post rest : Str} {name : Str}

theorem block_cons : block (e :: vars) = entry e ++ block vars := List.flatMap_cons

theorem block_append (vars vars' : List Var) : block (vars ++ vars') = block vars ++ block vars' :=
  List.flatMap_append

theorem length_entry : (entry e).length = e.1.length + 1 + e.2.length + 1 := by
  simp [entry]
  omega

/-- An entry does not start with a NUL. -/
theorem entry_eq_cons (h : IsName e.1) : ∃ c s, entry e = c :: s ∧ c ≠ nul := by
  obtain ⟨name, value⟩ := e
  rcases name with _ | ⟨c, name⟩
  · exact ⟨chr '=', value ++ [nul], rfl, by decide⟩
  · exact ⟨c, _, rfl, fun heq ↦ h.2 (heq ▸ List.mem_cons_self)⟩

theorem nul_notMem_assignment (hname : IsName e.1) (hvalue : nul ∉ e.2) :
    nul ∉ e.1 ++ chr '=' :: e.2 := by
  rw [List.mem_append, List.mem_cons]
  rintro (h | h | h)
  · exact hname.2 h
  · exact absurd h (by decide)
  · exact hvalue h

/-- `envmatch` compares the names. -/
theorem envmatch_entry {k : Str} (hname : IsName name) (hk : IsName k) (pre post : Str) :
    envmatch (pre ++ (k ++ chr '=' :: post)) name pre.length =
      some (if k = name then some (pre.length + k.length + 1) else none) := by
  induction name generalizing k pre with
  | nil =>
      rw [envmatch, getElem?_append_length]
      rcases k with _ | ⟨c, k⟩
      · rfl
      · have hc : c ≠ nul := fun heq ↦ hk.2 (heq ▸ List.mem_cons_self)
        have hc' : c ≠ chr '=' := fun heq ↦ hk.1 (heq ▸ List.mem_cons_self)
        simp [hc, hc']
  | cons a name ih =>
      have ha : a ≠ chr '=' := fun heq ↦ hname.1 (heq ▸ List.mem_cons_self)
      rw [envmatch, getElem?_append_length]
      rcases k with _ | ⟨c, k⟩
      · simp [ha]
      · have hname' : IsName name := ⟨fun h ↦ hname.1 (List.mem_cons_of_mem _ h),
          fun h ↦ hname.2 (List.mem_cons_of_mem _ h)⟩
        have hk' : IsName k := ⟨fun h ↦ hk.1 (List.mem_cons_of_mem _ h),
          fun h ↦ hk.2 (List.mem_cons_of_mem _ h)⟩
        have hrec := ih hname' hk' (pre ++ [c])
        rw [List.append_assoc, List.length_append, List.length_singleton] at hrec
        simp only [List.cons_append, List.getElem?_cons_zero, Option.bind_eq_bind, Option.bind_some]
        by_cases hac : a = c
        · subst hac
          rw [if_pos rfl, if_neg ha]
          refine hrec.trans ?_
          simp [Nat.add_comm, Nat.add_left_comm]
        · rw [if_neg hac, if_neg fun heq ↦ hac (List.cons.inj heq).1.symm]

/-- The inner loop of the search passes an entry. -/
theorem skipWhile_entry (hname : IsName e.1) (hvalue : nul ∉ e.2) (pre post : Str) :
    skipWhile (· != nul) (pre ++ (entry e ++ post)) (pre ++ (entry e ++ post)).length pre.length =
      some (pre.length + e.1.length + 1 + e.2.length) := by
  have hmem : nul ∈ entry e ++ post := by simp [entry]
  have hfuel : (entry e ++ post).length ≤ (pre ++ (entry e ++ post)).length := by
    rw [@List.length_append _ pre]
    exact Nat.le_add_left ..
  rw [skipWhile_eq (by decide) hmem hfuel]
  have htake : (entry e ++ post).takeWhile (· != nul) = e.1 ++ chr '=' :: e.2 := by
    have hsplit : entry e ++ post = (e.1 ++ chr '=' :: e.2) ++ nul :: post := by simp [entry]
    rw [hsplit, List.takeWhile_append_of_pos, List.takeWhile_cons_of_neg (by decide),
      List.append_nil]
    intro c hc
    rw [bne_iff_ne]
    rintro rfl
    exact nul_notMem_assignment hname hvalue hc
  rw [htake]
  simp
  omega

/-- One turn of the search. -/
theorem search_entry (hname : IsName name) (he : IsName e.1) (hvalue : nul ∉ e.2) (pre post : Str)
    (fuel nxt : ℕ) : search (pre ++ (entry e ++ post)) name (fuel + 1) pre.length nxt =
      if e.1 = name then
        some (some (pre.length + e.1.length + 1), pre.length,
          pre.length + e.1.length + 1 + e.2.length)
      else search (pre ++ (entry e ++ post)) name fuel (pre ++ entry e).length
        (pre.length + e.1.length + 1 + e.2.length) := by
  obtain ⟨c, s, hc, hne⟩ := entry_eq_cons he
  have hfirst : (pre ++ (entry e ++ post))[pre.length]? = some c := by
    rw [getElem?_append_length, hc]
    rfl
  have hmatch : envmatch (pre ++ (entry e ++ post)) name pre.length =
      some (if e.1 = name then some (pre.length + e.1.length + 1) else none) := by
    have := envmatch_entry hname he pre (e.2 ++ nul :: post)
    simpa [entry] using this
  rw [search, hfirst]
  dsimp only [Option.bind_eq_bind, Option.bind_some]
  rw [if_neg hne, skipWhile_entry he hvalue, Option.bind_some, hmatch, Option.bind_some]
  have hlen : pre.length + e.1.length + 1 + e.2.length + 1 = (pre ++ entry e).length := by
    rw [List.length_append, length_entry]
    omega
  by_cases hkey : e.1 = name
  · rw [if_pos hkey, if_pos hkey]
  · rw [if_neg hkey, if_neg hkey, ← hlen]

/-- The search passes the entries with other names. -/
theorem search_block (hname : IsName name) (hnames : ∀ e ∈ vars, IsName e.1)
    (hvalues : ∀ e ∈ vars, nul ∉ e.2) (hother : ∀ e ∈ vars, e.1 ≠ name) (pre post : Str)
    (fuel nxt : ℕ) : ∃ nxt', search (pre ++ (block vars ++ post)) name
    (fuel + vars.length) pre.length nxt =
      search (pre ++ (block vars ++ post)) name fuel (pre ++ block vars).length nxt' := by
  induction vars generalizing pre nxt with
  | nil => exact ⟨nxt, by simp [block]⟩
  | cons e vars ih =>
      have hmem := @List.mem_cons_self _ e vars
      obtain ⟨nxt', hrec⟩ := ih (fun x hx ↦ hnames x (List.mem_cons_of_mem _ hx))
        (fun x hx ↦ hvalues x (List.mem_cons_of_mem _ hx))
        (fun x hx ↦ hother x (List.mem_cons_of_mem _ hx)) (pre ++ entry e)
        (pre.length + e.1.length + 1 + e.2.length)
      refine ⟨nxt', ?_⟩
      rw [block_cons, List.append_assoc, List.length_cons, ← Nat.add_assoc,
        search_entry hname (hnames e hmem) (hvalues e hmem), if_neg (hother e hmem)]
      rw [List.append_assoc] at hrec
      rw [hrec, List.append_assoc]

theorem length_le_block (vars : List Var) : vars.length ≤ (block vars).length := by
  induction vars with
  | nil => exact Nat.zero_le _
  | cons e vars ih =>
      rw [block_cons, List.length_append, List.length_cons, length_entry]
      omega

/-- The search for a name that is not there. -/
theorem search_none (hname : IsName name) (hnames : ∀ e ∈ vars, IsName e.1)
    (hvalues : ∀ e ∈ vars, nul ∉ e.2) (hother : ∀ e ∈ vars, e.1 ≠ name) (rest : Str) {fuel : ℕ}
    (hfuel : (block vars ++ nul :: rest).length ≤ fuel) :
    ∃ env nxt, search (block vars ++ nul :: rest) name fuel 0 0 = some (none, env, nxt) := by
  have hle := length_le_block vars
  rw [List.length_append, List.length_cons] at hfuel
  obtain ⟨k, rfl⟩ : ∃ k, fuel = k + 1 + vars.length := ⟨fuel - 1 - vars.length, by omega⟩
  obtain ⟨nxt', hsearch⟩ := search_block hname hnames hvalues hother [] (nul :: rest) (k + 1) 0
  refine ⟨(block vars).length, nxt', hsearch.trans ?_⟩
  rw [search, List.nil_append, List.nil_append, getElem?_append_length]
  rfl

/-- The search for a name that is there. -/
theorem search_some (hname : IsName e.1) (hvalue : nul ∉ e.2) (hnames : ∀ e ∈ vars, IsName e.1)
    (hvalues : ∀ e ∈ vars, nul ∉ e.2) (hother : ∀ x ∈ vars, x.1 ≠ e.1) (post : Str) {fuel : ℕ}
    (hfuel : (block vars ++ (entry e ++ post)).length ≤ fuel) :
    search (block vars ++ (entry e ++ post)) e.1 fuel 0 0 =
      some (some ((block vars).length + e.1.length + 1), (block vars).length,
        (block vars).length + e.1.length + 1 + e.2.length) := by
  have hle := length_le_block vars
  rw [List.length_append, List.length_append, length_entry] at hfuel
  obtain ⟨k, rfl⟩ : ∃ k, fuel = k + 1 + vars.length := ⟨fuel - 1 - vars.length, by omega⟩
  obtain ⟨nxt', hsearch⟩ := search_block hname hnames hvalues hother [] (entry e ++ post) (k + 1) 0
  refine hsearch.trans ?_
  rw [List.nil_append, List.nil_append, search_entry hname hname hvalue, if_pos rfl]

end Entries

/-! ## An entry is taken out -/

section Remove

variable {e : Var} {vars : List Var} {rest : Str}

/-- The loop shifts a string without NUL down over a gap. -/
theorem shiftLoop_string {x : Str} (hx : nul ∉ x) (kept gap rest : Str) (fuel : ℕ) :
    ∃ gap', gap'.length = gap.length ∧
      shiftLoop (fuel + x.length) (kept ++ (gap ++ (x ++ rest))) kept.length
          (kept.length + gap.length) =
        shiftLoop fuel (kept ++ x ++ (gap' ++ rest)) (kept ++ x).length
          ((kept ++ x).length + gap.length) := by
  induction x generalizing kept gap with
  | nil => exact ⟨gap, rfl, by simp⟩
  | cons c x ih =>
      have hc : c ≠ nul := fun heq ↦ hx (heq ▸ List.mem_cons_self)
      obtain ⟨g, gap', hgap, hlen⟩ := exists_tail_gap gap c
      obtain ⟨gap'', hlen', hloop⟩ := ih (fun h ↦ hx (List.mem_cons_of_mem _ h)) (kept ++ [c]) gap'
      refine ⟨gap'', hlen'.trans hlen, ?_⟩
      have hread : (kept ++ (gap ++ (c :: x ++ rest)))[kept.length + gap.length]? = some c := by
        rw [getElem?_append_add, getElem?_append_length]
        rfl
      rw [List.length_cons, ← Nat.add_assoc, shiftLoop, hread]
      dsimp only [Option.bind_eq_bind, Option.bind_some]
      rw [List.cons_append, putByte_gap hgap, Option.bind_some, if_neg hc]
      rw [List.length_append, List.length_singleton, hlen] at hloop
      rw [Nat.add_right_comm kept.length gap.length 1, hloop]
      simp

/-- The NUL of an entry is shifted down; it is the last one in front of another NUL. -/
theorem shiftLoop_nul (kept gap rest : Str) (d : UInt8) (fuel : ℕ) :
    ∃ gap', gap'.length = gap.length ∧
      shiftLoop (fuel + 1) (kept ++ (gap ++ nul :: d :: rest)) kept.length
          (kept.length + gap.length) =
        if d = nul then some (kept ++ [nul] ++ (gap' ++ d :: rest), kept.length)
        else shiftLoop fuel (kept ++ [nul] ++ (gap' ++ d :: rest)) (kept ++ [nul]).length
          ((kept ++ [nul]).length + gap.length) := by
  obtain ⟨g, gap', hgap, hlen⟩ := exists_tail_gap gap nul
  refine ⟨gap', hlen, ?_⟩
  have hread : (kept ++ (gap ++ nul :: d :: rest))[kept.length + gap.length]? = some nul := by
    rw [getElem?_append_add, getElem?_append_length]
    rfl
  have hnext : (kept ++ [nul] ++ (gap' ++ d :: rest))[kept.length + gap.length + 1]? = some d := by
    have hplace : kept.length + gap.length + 1 = (kept ++ [nul]).length + gap'.length := by
      simp [hlen]
      omega
    rw [hplace, getElem?_append_add, getElem?_append_length]
    rfl
  rw [shiftLoop, hread]
  dsimp only [Option.bind_eq_bind, Option.bind_some]
  rw [putByte_gap hgap, Option.bind_some, if_pos rfl, hnext, Option.bind_some, List.length_append,
    List.length_singleton, Nat.add_right_comm]

/-- The entries behind a gap are shifted down. -/
theorem shiftLoop_block (hnames : ∀ e ∈ vars, IsName e.1) (hvalues : ∀ e ∈ vars, nul ∉ e.2)
    (hne : vars ≠ []) (kept gap rest : Str) {fuel : ℕ} (hfuel : (block vars).length ≤ fuel) :
    ∃ gap', gap'.length = gap.length ∧
      shiftLoop fuel (kept ++ (gap ++ (block vars ++ nul :: rest))) kept.length
          (kept.length + gap.length) =
        some (kept ++ block vars ++ (gap' ++ nul :: rest), (kept ++ block vars).length - 1) := by
  induction vars generalizing kept gap fuel with
  | nil => exact absurd rfl hne
  | cons e vars ih =>
      have hmem := @List.mem_cons_self _ e vars
      have hx := nul_notMem_assignment (hnames e hmem) (hvalues e hmem)
      rw [block_cons, List.length_append, length_entry] at hfuel
      obtain ⟨k, rfl⟩ : ∃ k, fuel = k + 1 + (e.1 ++ chr '=' :: e.2).length := by
        refine ⟨fuel - 1 - (e.1 ++ chr '=' :: e.2).length, ?_⟩
        rw [List.length_append, List.length_cons]
        omega
      rw [List.length_append, List.length_cons] at hfuel
      obtain ⟨gap₁, hlen₁, hloop₁⟩ := shiftLoop_string hx kept gap
        (nul :: (block vars ++ nul :: rest)) (k + 1)
      have htext : entry e ++ block vars ++ nul :: rest =
          (e.1 ++ chr '=' :: e.2) ++ nul :: (block vars ++ nul :: rest) := by simp [entry]
      have hkept : kept ++ (e.1 ++ chr '=' :: e.2) ++ [nul] = kept ++ entry e := by simp [entry]
      rw [block_cons, htext, hloop₁, ← hlen₁]
      rcases vars with _ | ⟨e', vars⟩
      · obtain ⟨gap₂, hlen₂, hloop₂⟩ :=
          shiftLoop_nul (kept ++ (e.1 ++ chr '=' :: e.2)) gap₁ rest nul k
        refine ⟨gap₂, hlen₂, hloop₂.trans ?_⟩
        rw [if_pos rfl, hkept]
        simp [block, entry]
        omega
      · obtain ⟨c, s, hc, hne'⟩ :=
          entry_eq_cons (hnames e' (List.mem_cons_of_mem _ List.mem_cons_self))
        have hhead : block (e' :: vars) ++ nul :: rest = c :: (s ++ block vars ++ nul :: rest) := by
          rw [block_cons, hc]
          simp
        obtain ⟨gap₂, hlen₂, hloop₂⟩ := shiftLoop_nul (kept ++ (e.1 ++ chr '=' :: e.2)) gap₁
          (s ++ block vars ++ nul :: rest) c k
        rw [← hhead, if_neg hne', hkept, ← hlen₂] at hloop₂
        obtain ⟨gap₃, hlen₃, hloop₃⟩ := ih (fun x hx ↦ hnames x (List.mem_cons_of_mem _ hx))
          (fun x hx ↦ hvalues x (List.mem_cons_of_mem _ hx)) (by simp) (kept ++ entry e) gap₂
          (show (block (e' :: vars)).length ≤ k by omega)
        refine ⟨gap₃, hlen₃.trans hlen₂, ?_⟩
        rw [← hlen₂, hloop₂, hloop₃]
        simp

/-- What is left when an entry is taken out. -/
theorem removeEntry_spec {before after : List Var} (he : IsName e.1)
    (hnames : ∀ x ∈ after, IsName x.1) (hvalues : ∀ x ∈ after, nul ∉ x.2) (rest : Str) :
    ∃ rest', removeEntry (block before ++ (entry e ++ (block after ++ nul :: rest)))
        (block before).length ((block before).length + e.1.length + 1 + e.2.length) =
          some (block (before ++ after) ++ nul :: rest') ∧
      (block (before ++ after) ++ nul :: rest').length =
        (block before ++ (entry e ++ (block after ++ nul :: rest))).length ∧
      (before ++ after = [] → rest'.head? = some nul) := by
  have hnxt : (block before).length + e.1.length + 1 + e.2.length + 1 =
      (block before).length + (entry e).length := by
    rw [length_entry]
    omega
  obtain ⟨c, s, hc, -⟩ := entry_eq_cons he
  rcases after with _ | ⟨e', after⟩
  · obtain ⟨d, s', rfl⟩ : ∃ d s', s = d :: s' := by
      rcases s with _ | ⟨d, s'⟩
      · have := congrArg List.length hc
        rw [length_entry, List.length_singleton] at this
        omega
      · exact ⟨d, s', rfl⟩
    refine ⟨nul :: (s' ++ nul :: rest), ?_, ?_, fun _ ↦ rfl⟩
    · have hread : (block before ++ (entry e ++ (block [] ++ nul :: rest)))[(block before).length +
          (entry e).length]? = some nul := by
        rw [getElem?_append_add, getElem?_append_length]
        rfl
      rw [removeEntry, hnxt, hread]
      dsimp only [Option.bind_eq_bind, Option.bind_some]
      rw [if_pos rfl, hc, List.cons_append, putByte_append, Option.bind_some, length_add_one _ nul,
        List.append_cons, List.cons_append, putByte_append]
      simp [block]
    · rw [hc]
      simp [block]
  · obtain ⟨c', s', hc', hne'⟩ := entry_eq_cons (hnames e' List.mem_cons_self)
    have hread : (block before ++ (entry e ++ (block (e' :: after) ++ nul :: rest)))[
        (block before).length + (entry e).length]? = some c' := by
      rw [getElem?_append_add, getElem?_append_length, block_cons, hc']
      rfl
    have hfuel : (block (e' :: after)).length ≤
        (block before ++ (entry e ++ (block (e' :: after) ++ nul :: rest))).length := by
      simp only [List.length_append]
      omega
    obtain ⟨gap, hlen, hloop⟩ :=
      shiftLoop_block hnames hvalues (by simp) (block before) (entry e) rest hfuel
    obtain ⟨g, gap', rfl⟩ : ∃ g gap', gap = g :: gap' := by
      rcases gap with _ | ⟨g, gap'⟩
      · rw [length_entry, List.length_nil] at hlen
        omega
      · exact ⟨g, gap', rfl⟩
    refine ⟨gap' ++ nul :: rest, ?_, ?_, by simp⟩
    · have hpos : (block before ++ block (e' :: after)).length - 1 + 1 =
          (block before ++ block (e' :: after)).length := by
        rw [List.length_append, block_cons, List.length_append, length_entry]
        omega
      rw [removeEntry, hnxt, hread]
      dsimp only [Option.bind_eq_bind, Option.bind_some]
      rw [if_neg hne', hloop, Option.bind_some]
      dsimp only
      rw [hpos, List.cons_append, putByte_append, block_append]
    · rw [List.length_cons] at hlen
      simp only [block_append, List.length_append, List.length_cons]
      omega

end Remove

/-! ## An entry is appended -/

section Append

variable {vars : List Var} {name value : Str}

theorem findEnd_string {x : Str} (hx : nul ∉ x) (pre rest : Str) (fuel : ℕ) :
    findEnd (pre ++ (x ++ rest)) (fuel + x.length) pre.length =
      findEnd (pre ++ x ++ rest) fuel (pre ++ x).length := by
  induction x generalizing pre with
  | nil => simp
  | cons c x ih =>
      have hc : c ≠ nul := fun heq ↦ hx (heq ▸ List.mem_cons_self)
      have hrec := ih (fun h ↦ hx (List.mem_cons_of_mem _ h)) (pre ++ [c])
      rw [List.length_cons, ← Nat.add_assoc, findEnd, getElem?_append_length]
      simp only [List.cons_append, List.getElem?_cons_zero, Option.bind_eq_bind, Option.bind_some]
      rw [if_pos hc]
      simpa using hrec

/-- The double NUL is the end of the last entry. -/
theorem findEnd_block (hnames : ∀ e ∈ vars, IsName e.1) (hvalues : ∀ e ∈ vars, nul ∉ e.2)
    (hne : vars ≠ []) (pre rest : Str) {fuel : ℕ} (hfuel : (block vars).length ≤ fuel) :
    findEnd (pre ++ (block vars ++ nul :: rest)) fuel pre.length =
      some ((pre ++ block vars).length - 1) := by
  induction vars generalizing pre fuel with
  | nil => exact absurd rfl hne
  | cons e vars ih =>
      have hmem := @List.mem_cons_self _ e vars
      have hx := nul_notMem_assignment (hnames e hmem) (hvalues e hmem)
      rw [block_cons, List.length_append, length_entry] at hfuel
      obtain ⟨k, rfl⟩ : ∃ k, fuel = k + 1 + (e.1 ++ chr '=' :: e.2).length := by
        refine ⟨fuel - 1 - (e.1 ++ chr '=' :: e.2).length, ?_⟩
        rw [List.length_append, List.length_cons]
        omega
      rw [List.length_append, List.length_cons] at hfuel
      have htext : block (e :: vars) ++ nul :: rest =
          (e.1 ++ chr '=' :: e.2) ++ nul ::
          (block vars ++ nul :: rest) := by simp [block_cons, entry]
      have hkept : pre ++ (e.1 ++ chr '=' :: e.2) ++ [nul] = pre ++ entry e := by simp [entry]
      have hnext : (pre ++ (e.1 ++ chr '=' :: e.2) ++ nul :: (block vars ++ nul :: rest))[
          (pre ++ (e.1 ++ chr '=' :: e.2)).length + 1]? = (block vars ++ nul :: rest)[0]? := by
        rw [getElem?_append_add]
        rfl
      rw [htext, findEnd_string hx, findEnd, getElem?_append_length, hnext]
      simp only [List.getElem?_cons_zero, Option.bind_eq_bind, Option.bind_some]
      rw [if_neg (by simp)]
      rcases vars with _ | ⟨e', vars⟩
      · simp [block, entry]
        omega
      · obtain ⟨c, s, hc, hne'⟩ :=
          entry_eq_cons (hnames e' (List.mem_cons_of_mem _ List.mem_cons_self))
        have hhead : (block (e' :: vars) ++ nul :: rest)[0]? = some c := by
          rw [block_cons, hc]
          rfl
        have hrec := ih (fun x hx ↦ hnames x (List.mem_cons_of_mem _ hx))
          (fun x hx ↦ hvalues x (List.mem_cons_of_mem _ hx)) (by simp) (pre ++ entry e)
          (show (block (e' :: vars)).length ≤ k by omega)
        rw [hhead, Option.bind_some, if_pos hne', length_add_one _ nul, hkept,
          List.append_cons, hkept, hrec]
        simp [block_cons]

/-- Where the new definition goes: behind the last entry. -/
theorem findEnd_spec (hnames : ∀ e ∈ vars, IsName e.1) (hvalues : ∀ e ∈ vars, nul ∉ e.2)
    {rest : Str} (hrest : vars = [] → rest.head? = some nul) :
    ∃ env, findEnd (block vars ++ nul :: rest) (block vars ++ nul :: rest).length 0 = some env ∧
      (if 0 < env then env + 1 else env) = (block vars).length := by
  rcases vars with _ | ⟨e, vars⟩
  · obtain ⟨rest', rfl⟩ : ∃ rest', rest = nul :: rest' := by
      have := hrest rfl
      rcases rest with _ | ⟨c, rest'⟩
      · simp at this
      · exact ⟨rest', by simpa using this⟩
    exact ⟨0, rfl, rfl⟩
  · have hlen : 1 < (block (e :: vars)).length := by
      rw [block_cons, List.length_append, length_entry]
      omega
    refine ⟨(block (e :: vars)).length - 1, ?_, ?_⟩
    · refine findEnd_block hnames hvalues (by simp) [] rest ?_
      rw [List.length_append]
      exact Nat.le_add_right ..
    · rw [if_pos (by omega)]
      omega

theorem putBytes_append {old s : Str} (hlen : old.length = s.length) (pre post : Str) :
    putBytes (pre ++ (old ++ post)) pre.length s = some (pre ++ (s ++ post)) := by
  induction s generalizing pre old with
  | nil =>
      obtain rfl := List.eq_nil_of_length_eq_zero hlen
      rfl
  | cons c s ih =>
      rcases old with _ | ⟨d, old⟩
      · simp at hlen
      · rw [putBytes, List.cons_append, putByte_append]
        dsimp only [Option.bind_eq_bind, Option.bind_some]
        rw [length_add_one _ c, List.append_cons, ih (by simpa using hlen)]
        simp

theorem storeEntry_spec {tail : Str} (hroom : name.length + value.length + 3 ≤ tail.length)
    (pre : Str) :
    ∃ rest, storeEntry (pre ++ tail) pre.length name value =
        some (pre ++ (entry (name, value) ++ nul :: rest)) ∧
      (entry (name, value) ++ nul :: rest).length = tail.length := by
  obtain ⟨old₁, old₂, rfl, hlen₁⟩ :
    ∃ old₁ old₂, tail = old₁ ++ old₂ ∧ old₁.length = name.length + 1 :=
    ⟨tail.take (name.length + 1), tail.drop (name.length + 1), (List.take_append_drop ..).symm,
      List.length_take_of_le (by omega)⟩
  rw [List.length_append] at hroom
  obtain ⟨old₃, old₄, rfl, hlen₃⟩ :
    ∃ old₃ old₄, old₂ = old₃ ++ old₄ ∧ old₃.length = value.length + 1 :=
    ⟨old₂.take (value.length + 1), old₂.drop (value.length + 1), (List.take_append_drop ..).symm,
      List.length_take_of_le (by omega)⟩
  obtain ⟨d, rest, rfl⟩ : ∃ d rest, old₄ = d :: rest := by
    rcases old₄ with _ | ⟨d, rest⟩
    · rw [List.append_nil] at hroom
      omega
    · exact ⟨d, rest, rfl⟩
  refine ⟨rest, ?_, ?_⟩
  · have hname : putBytes (pre ++ (old₁ ++ (old₃ ++ d :: rest))) pre.length (name ++ [nul]) =
        some (pre ++ name ++ nul :: (old₃ ++ d :: rest)) := by
      rw [putBytes_append (by simpa using hlen₁)]
      simp
    have hvalue : putBytes (pre ++ name ++ [chr '='] ++ (old₃ ++ d :: rest))
        (pre ++ name ++ [chr '=']).length (value ++ [nul]) =
          some (pre ++ name ++ [chr '='] ++ value ++ [nul] ++ d :: rest) := by
      rw [putBytes_append (by simpa using hlen₃)]
      simp
    have hplace₁ : pre.length + name.length = (pre ++ name).length := List.length_append.symm
    have hplace₂ : (pre ++ name).length + 1 = (pre ++ name ++ [chr '=']).length := length_add_one ..
    have hplace₃ : (pre ++ name ++ [chr '=']).length + value.length + 1 =
        (pre ++ name ++ [chr '='] ++ value ++ [nul]).length := by
      simp only [List.length_append, List.length_singleton]
    rw [storeEntry, hname]
    dsimp only [Option.bind_eq_bind, Option.bind_some]
    rw [hplace₁, putByte_append, Option.bind_some, hplace₂, List.append_cons, hvalue,
      Option.bind_some, hplace₃, putByte_append]
    simp [entry]
  · simp only [List.length_append, List.length_cons, length_entry, hlen₁, hlen₃]
    omega

theorem bmod_eq {n : ℕ} (h : n < 2 ^ 31) : (n : ℤ).bmod (2 ^ 32) = n := by
  apply Int.bmod_eq_of_le_mul_two
  · omega
  · omega

/-- The length is not changed by its conversion to `int`. -/
theorem entryLen_eq (hint : name.length + 2 + value.length + 1 < 2 ^ 31) :
    entryLen name value = ((name.length + 2 + value.length + 1 : ℕ) : ℤ) := by
  unfold entryLen
  exact bmod_eq hint

/-- An entry is stored in the room behind the others. -/
theorem appendEntry_spec (hnames : ∀ e ∈ vars, IsName e.1) (hvalues : ∀ e ∈ vars, nul ∉ e.2)
    {rest : Str} (hrest : vars = [] → rest.head? = some nul)
    (hint : name.length + 2 + value.length + 1 < 2 ^ 31) :
    if rest.length + 1 < name.length + value.length + 3 then
      appendEntry (block vars ++ nul :: rest) name value = some (-1, block vars ++ nul :: rest)
    else ∃ rest', appendEntry (block vars ++ nul :: rest) name value =
        some (0, block (vars ++ [(name, value)]) ++ nul :: rest') ∧
      (block (vars ++ [(name, value)]) ++ nul :: rest').length =
      (block vars ++ nul :: rest).length := by
  obtain ⟨env, hend, henv⟩ := findEnd_spec hnames hvalues hrest
  have hlen := entryLen_eq hint
  have htest : ((block vars ++ nul :: rest).length : ℤ) - (block vars).length <
    entryLen name value ↔
      rest.length + 1 < name.length + value.length + 3 := by
    rw [hlen, List.length_append, List.length_cons]
    omega
  have happend : appendEntry (block vars ++ nul :: rest) name value =
      storeAt (block vars ++ nul :: rest) (block vars).length name value := by
    rw [appendEntry, hend, Option.bind_eq_bind, Option.bind_some, henv]
  rw [happend]
  by_cases hroom : rest.length + 1 < name.length + value.length + 3
  · rw [if_pos hroom, storeAt, if_pos (htest.mpr hroom)]
  · rw [if_neg hroom, storeAt, if_neg (mt htest.mp hroom)]
    obtain ⟨rest', hstore, hlen'⟩ := @storeEntry_spec name value (nul :: rest)
      (by rw [List.length_cons]; omega) (block vars)
    have hblock : block (vars ++ [(name, value)]) ++ nul :: rest' =
        block vars ++ (entry (name, value) ++ nul :: rest') := by simp [block]
    refine ⟨rest', ?_, ?_⟩
    · rw [hstore, hblock]
      rfl
    · rw [hblock, List.length_append, hlen', List.length_append]

end Append

/-! ## Reading -/

section Read

variable {data : Str} {vars : List Var} {name : Str}

/-- The variables around one of them. -/
theorem exists_split {e : Var} (he : e ∈ vars) (h : (vars.map Prod.fst).Nodup) :
    ∃ before after, vars = before ++ e :: after ∧ others vars e.1 = before ++ after ∧
      (∀ x ∈ before, x.1 ≠ e.1) ∧ ∀ x ∈ after, x.1 ≠ e.1 := by
  obtain ⟨before, after, rfl⟩ := List.append_of_mem he
  rw [List.map_append, List.map_cons, List.nodup_append, List.nodup_cons] at h
  obtain ⟨-, ⟨hafter, -⟩, hbefore⟩ := h
  have hb : ∀ x ∈ before, x.1 ≠ e.1 := fun x hx ↦
    hbefore x.1 (List.mem_map_of_mem hx) e.1 List.mem_cons_self
  have ha : ∀ x ∈ after, x.1 ≠ e.1 := fun x hx heq ↦ hafter (heq ▸ List.mem_map_of_mem hx)
  refine ⟨before, after, rfl, ?_, hb, ha⟩
  rw [others, List.filter_append, List.filter_cons_of_neg (by simp),
    List.filter_eq_self.mpr fun x hx ↦ decide_eq_true (hb x hx),
    List.filter_eq_self.mpr fun x hx ↦ decide_eq_true (ha x hx)]

theorem valueOf_eq_none (h : ∀ e ∈ vars, e.1 ≠ name) : valueOf vars name = none := by
  rw [valueOf, List.find?_eq_none.mpr fun e he ↦ by simpa using h e he]
  rfl

theorem valueOf_split {before after : List Var} {e : Var} (h : ∀ x ∈ before, x.1 ≠ e.1) :
    valueOf (before ++ e :: after) e.1 = some e.2 := by
  rw [valueOf, List.find?_append, List.find?_eq_none.mpr fun x hx ↦ by simpa using h x hx,
    Option.none_or, List.find?_cons_of_pos (by simp)]
  rfl

/-- A text around one of its entries. -/
theorem block_split (before after : List Var) (e : Var) (rest : List UInt8) :
    block (before ++ e :: after) ++ nul :: rest =
      block before ++ (entry e ++ (block after ++ nul :: rest)) := by
  rw [block_append, block_cons]
  simp

/-- The value of an entry stands where `search` finds it. -/
theorem cString_block {before after : List Var} {e : Var} {rest : List UInt8} (hvalue : nul ∉ e.2) :
    cString (block (before ++ e :: after) ++ nul :: rest) ((block before).length + e.1.length + 1) =
      some e.2 := by
  have hsplit : block before ++ (entry e ++ (block after ++ nul :: rest)) =
      (block before ++ e.1 ++ [chr '=']) ++ (e.2 ++ nul :: (block after ++ nul :: rest)) := by
    simp [entry]
  have hplace : (block before).length + e.1.length + 1 =
      (block before ++ e.1 ++ [chr '=']).length := by
    simp only [List.length_append, List.length_singleton]
  rw [block_split, hplace, hsplit, cString_eq hvalue]

/-- `fw_getenv` gives the value that the text holds. -/
theorem Holds.fwGetenv_eq (h : Holds data vars) (hname : IsName name) :
    fwGetenv data name = some (valueOf vars name) := by
  obtain ⟨rest, rfl, -⟩ := h.text
  by_cases hmem : ∃ e ∈ vars, e.1 = name
  · obtain ⟨e, he, rfl⟩ := hmem
    have hvalue := h.values e he
    obtain ⟨before, after, rfl, -, hbefore, -⟩ := exists_split he h.nodup
    rw [block_split, fwGetenv,
      search_some hname hvalue (fun x hx ↦ h.names x (List.mem_append_left _ hx))
      (fun x hx ↦ h.values x (List.mem_append_left _ hx)) hbefore _ (Nat.le_succ _)]
    dsimp only [Option.bind_eq_bind, Option.bind_some]
    rw [← block_split, cString_block hvalue, valueOf_split hbefore]
    rfl
  · have hother : ∀ e ∈ vars, e.1 ≠ name := fun e he heq ↦ hmem ⟨e, he, heq⟩
    obtain ⟨env, nxt, hsearch⟩ := search_none hname h.names h.values hother rest (Nat.le_succ _)
    rw [fwGetenv, hsearch, valueOf_eq_none hother]
    rfl

theorem valueOf_others_self : valueOf (others vars name) name = none :=
  valueOf_eq_none fun e he ↦ by simpa using List.of_mem_filter he

theorem valueOf_others {name' : Str} (hne : name' ≠ name) :
    valueOf (others vars name) name' = valueOf vars name' := by
  unfold valueOf others
  rw [List.find?_filter]
  congr 2
  funext e
  by_cases heq : e.1 = name' <;> simp [heq, hne]

end Read

/-! ## Writing -/

section Write

variable {data : Str} {vars : List Var} {name value : Str}

theorem Holds.others_holds (h : Holds data vars) {data' rest : Str} (name : Str)
    (hdata : data' = block (others vars name) ++ nul :: rest)
    (hrest : others vars name = [] → rest.head? = some nul) : Holds data' (others vars name) where
  names e he := h.names e (List.mem_of_mem_filter he)
  values e he := h.values e (List.mem_of_mem_filter he)
  nodup := h.nodup.sublist (List.filter_sublist.map _)
  text := ⟨rest, hdata, hrest⟩

/-- The old entry is taken out. -/
theorem Holds.removeEntry_eq (h : Holds data vars) {e : Var} (he : e ∈ vars) :
    ∃ oldval env nxt data', search data e.1 (data.length + 1) 0 0 = some (some oldval, env, nxt) ∧
      cString data oldval = some e.2 ∧ removeEntry data env nxt = some data' ∧
      data'.length = data.length ∧ Holds data' (others vars e.1) := by
  obtain ⟨rest, rfl, -⟩ := id h.text
  have hvalue := h.values e he
  obtain ⟨before, after, rfl, hothers, hbefore, -⟩ := exists_split he h.nodup
  obtain ⟨rest', hremove, hlen, hrest'⟩ := removeEntry_spec (h.names e he)
    (fun x hx ↦ h.names x (List.mem_append_right _ (List.mem_cons_of_mem _ hx)))
    (fun x hx ↦ h.values x (List.mem_append_right _ (List.mem_cons_of_mem _ hx))) rest
  rw [← block_split] at hremove hlen
  refine ⟨(block before).length + e.1.length + 1, _, _, _, ?_, ?_, hremove, hlen,
    h.others_holds e.1 (by rw [hothers]) (by rwa [hothers])⟩
  · rw [block_split]
    exact search_some (h.names e he) hvalue (fun x hx ↦ h.names x (List.mem_append_left _ hx))
      (fun x hx ↦ h.values x (List.mem_append_left _ hx)) hbefore _ (Nat.le_succ _)
  · exact cString_block hvalue

/-- A variable that is not there is appended, or there is no room for it. -/
theorem Holds.appendEntry_eq (h : Holds data vars) (hname : IsName name) (hvalue : nul ∉ value)
    (hother : ∀ e ∈ vars, e.1 ≠ name) (hint : name.length + 2 + value.length + 1 < 2 ^ 31) :
    appendEntry data name value = some (-1, data) ∧
        data.length < (block vars).length + (entry (name, value)).length + 1 ∨
      ∃ data', appendEntry data name value = some (0, data') ∧ data'.length = data.length ∧
        Holds data' (vars ++ [(name, value)]) := by
  obtain ⟨rest, rfl, hrest⟩ := id h.text
  have happend := appendEntry_spec h.names h.values hrest hint
  split_ifs at happend with hroom
  · refine .inl ⟨happend, ?_⟩
    rw [length_entry, List.length_append, List.length_cons]
    dsimp only
    omega
  · obtain ⟨rest', hrun, hlen⟩ := happend
    refine .inr ⟨_, hrun, hlen, ?_, ?_, ?_, rest', rfl, by simp⟩
    · intro e he
      obtain he | he := List.mem_append.mp he
      · exact h.names e he
      · rw [List.mem_singleton.mp he]
        exact hname
    · intro e he
      obtain he | he := List.mem_append.mp he
      · exact h.values e he
      · rw [List.mem_singleton.mp he]
        exact hvalue
    · rw [List.map_append, List.nodup_append]
      refine ⟨h.nodup, by simp, fun k hk k' hk' heq ↦ ?_⟩
      obtain ⟨e, he, rfl⟩ := List.mem_map.mp hk
      rw [List.map_singleton, List.mem_singleton] at hk'
      exact hother e he (heq.trans hk')

/-- What a call leaves: the map is edited, the text is as it was, or an existing variable is deleted
as there is no room for its new value. -/
inductive Written (data : Str) (vars : List Var) (name value : Str) : ℤ → Str → Prop
  | edited {data' : Str} (h : Holds data' (edited vars name value)) :
      Written data vars name value 0 data'
  | refused : Written data vars name value (-1) data
  | deleted {data' : Str} (hmem : name ∈ vars.map Prod.fst) (hne : value ≠ [])
      (hroom : data.length < (block (others vars name)).length + (entry (name, value)).length + 1)
      (h : Holds data' (others vars name)) : Written data vars name value (-1) data'

/-- `fw_env_write` stays in the text. -/
theorem fwEnvWrite_written (checks : Checks) (h : Holds data vars) (hname : IsName name)
    (value : Option Str) (hvalue : nul ∉ value.getD [])
    (hint : name.length + 2 + (value.getD []).length + 1 < 2 ^ 31) :
    ∃ rc data', fwEnvWrite checks data name value = some (rc, data') ∧ data'.length = data.length ∧
      Written data vars name (value.getD []) rc data' := by
  unfold fwEnvWrite
  generalize value.getD [] = value at hvalue hint
  by_cases hmem : ∃ e ∈ vars, e.1 = name
  · obtain ⟨e, he, rfl⟩ := hmem
    obtain ⟨oldval, env, nxt, data₁, hsearch, hold, hremove, hlen, hholds⟩ := h.removeEntry_eq he
    rw [hsearch]
    dsimp only [Option.bind_eq_bind, Option.bind_some]
    by_cases hempty : value = []
    · rw [if_pos hempty]
      split_ifs with hdenied
      · exact ⟨_, _, rfl, rfl, .refused⟩
      · refine ⟨0, data₁, by rw [hremove]; rfl, hlen, .edited ?_⟩
        rwa [edited, if_pos hempty, List.append_nil]
    · rw [if_neg hempty]
      obtain ⟨allowed, hallowed⟩ : ∃ b, mayOverwrite checks data e.1 oldval = some b := by
        rw [mayOverwrite, hold]
        split_ifs
        · exact ⟨_, rfl⟩
        · exact ⟨_, rfl⟩
        · exact ⟨_, rfl⟩
      rw [hallowed, Option.bind_some]
      cases allowed with
      | false => exact ⟨_, _, rfl, rfl, .refused⟩
      | true =>
          rw [if_pos rfl, hremove, Option.bind_some]
          have hother : ∀ x ∈ others vars e.1, x.1 ≠ e.1 := fun x hx ↦ by
            simpa using List.of_mem_filter hx
          obtain ⟨hfull, hroom⟩ | ⟨data₂, happend, hlen₂, hholds₂⟩ :=
            hholds.appendEntry_eq hname hvalue hother hint
          · rw [hlen] at hroom
            exact ⟨_, _, hfull, hlen, .deleted (List.mem_map_of_mem he) hempty hroom hholds⟩
          · refine ⟨_, _, happend, hlen₂.trans hlen, .edited ?_⟩
            rwa [edited, if_neg hempty]
  · have hother : ∀ e ∈ vars, e.1 ≠ name := fun e he heq ↦ hmem ⟨e, he, heq⟩
    have hothers : others vars name = vars := List.filter_eq_self.mpr fun e he ↦
      decide_eq_true (hother e he)
    obtain ⟨rest, hdata, -⟩ := h.text
    obtain ⟨env, nxt, hsearch⟩ := search_none hname h.names h.values hother rest
      (Nat.le_succ (block vars ++ nul :: rest).length)
    rw [← hdata] at hsearch
    rw [hsearch]
    dsimp only [Option.bind_eq_bind, Option.bind_some]
    by_cases hempty : value = []
    · rw [if_pos hempty]
      refine ⟨0, data, rfl, rfl, .edited ?_⟩
      rwa [edited, if_pos hempty, List.append_nil, hothers]
    · rw [if_neg hempty]
      split_ifs with hdenied
      · exact ⟨_, _, rfl, rfl, .refused⟩
      · obtain ⟨hfull, -⟩ | ⟨data₂, happend, hlen₂, hholds₂⟩ :=
          h.appendEntry_eq hname hvalue hother hint
        · exact ⟨_, _, hfull, rfl, .refused⟩
        · refine ⟨_, _, happend, hlen₂, .edited ?_⟩
          rwa [edited, if_neg hempty, hothers]

theorem Holds.valueOf_edited (name value : Str) : valueOf (edited vars name value) name =
    if value = [] then none else some value := by
  by_cases hempty : value = []
  · rw [edited, if_pos hempty, if_pos hempty, List.append_nil, valueOf_others_self]
  · rw [edited, if_neg hempty, if_neg hempty]
    exact @valueOf_split (others vars name) [] (name, value) fun x hx ↦ by
      simpa using List.of_mem_filter hx

theorem valueOf_edited_other {name' : Str} (value : Str) (hne : name' ≠ name) :
    valueOf (edited vars name value) name' = valueOf vars name' := by
  by_cases hempty : value = []
  · rw [edited, if_pos hempty, List.append_nil, valueOf_others hne]
  · have hnot : ([(name, value)] : List Var).find? (·.1 = name') = none := by
      simpa using hne.symm
    rw [edited, if_neg hempty, valueOf, List.find?_append, hnot, Option.or_none]
    exact valueOf_others hne

/-- `fw_env_write` edits the text like a map; where it fails, the text is as it was, but for a
variable that is deleted as there is no room for its new value. -/
theorem fwEnvWrite_edits (checks : Checks) (data : Str) (vars : List Var) (h : Holds data vars)
    (name : Str) (hname : IsName name) (value : Option Str) (hvalue : nul ∉ value.getD [])
    (hint : name.length + 2 + (value.getD []).length + 1 < 2 ^ 31) :
    ∃ rc data', fwEnvWrite checks data name value = some (rc, data') ∧ data'.length = data.length ∧
      Written data vars name (value.getD []) rc data' ∧
      (rc = 0 → fwGetenv data' name =
          some (if value.getD [] = [] then none else some (value.getD [])) ∧
        ∀ name', IsName name' → name' ≠ name → fwGetenv data' name' = fwGetenv data name') := by
  obtain ⟨rc, data', hrun, hlen, hwritten⟩ := fwEnvWrite_written checks h hname value hvalue hint
  refine ⟨rc, data', hrun, hlen, hwritten, fun hrc ↦ ?_⟩
  cases hwritten with
  | edited hholds =>
      refine ⟨?_, fun name' hname' hne ↦ ?_⟩
      · rw [hholds.fwGetenv_eq hname, Holds.valueOf_edited]
      · rw [hholds.fwGetenv_eq hname', h.fwGetenv_eq hname', valueOf_edited_other _ hne]
  | refused => exact absurd hrc (by decide)
  | deleted => exact absurd hrc (by decide)

/-- The environment without flags and defaults. -/
def unrestricted : Checks := ⟨fun _ _ _ ↦ false, fun _ ↦ none⟩

/-- `a=1` in a text of eight bytes. -/
theorem holds_a : Holds [97, 61, 49, 0, 0, 7, 7, 7] [([97], [49])] where
  names := by decide
  values := by decide
  nodup := by decide
  text := ⟨[7, 7, 7], rfl, by simp⟩

theorem fwEnvWrite_edits_two : ∃ rc data',
    fwEnvWrite unrestricted [97, 61, 49, 0, 0, 7, 7, 7] [97] (some [50, 51]) = some (rc, data') ∧
      data'.length = 8 ∧ Written [97, 61, 49, 0, 0, 7, 7, 7] [([97], [49])] [97] [50, 51] rc data' ∧
      (rc = 0 → fwGetenv data' [97] = some (some [50, 51]) ∧ ∀ name', IsName name' → name' ≠ [97] →
        fwGetenv data' name' = fwGetenv [97, 61, 49, 0, 0, 7, 7, 7] name') :=
  fwEnvWrite_edits unrestricted [97, 61, 49, 0, 0, 7, 7, 7] [([97], [49])] holds_a [97] (by decide)
    (some [50, 51]) (by decide) (by decide)

end Write

/-! ## Where it is no map -/

/-- The length of a value of almost `2 ^ 32` bytes comes out as 0. -/
theorem entryLen_wraps {name value : Str} (h : name.length + 2 + value.length + 1 = 2 ^ 32) :
    entryLen name value = 0 := by
  unfold entryLen
  rw [h]
  exact Int.bmod_self

theorem storeEntry_outside (c : UInt8) (s : Str) : storeEntry [0, 0] 0 [97] (c :: s) = none := rfl

/-- Such a value is stored although there is no room for it. -/
theorem appendEntry_outside {c : UInt8} {s : Str} (hlen : s.length = 2 ^ 32 - 5) :
    appendEntry [0, 0] [97] (c :: s) = none := by
  have hint : ([97] : Str).length + 2 + (c :: s).length + 1 = 2 ^ 32 := by
    simp only [List.length_cons, List.length_nil, hlen]
    omega
  have hend : findEnd [0, 0] ([0, 0] : Str).length 0 = some 0 := rfl
  rw [appendEntry, hend, Option.bind_eq_bind, Option.bind_some, storeAt, entryLen_wraps hint,
    if_neg (by decide), if_neg (by decide), storeEntry_outside]
  rfl

theorem fwEnvWrite_creates {checks : Checks} {data name value : Str} {env nxt : ℕ}
    (hsearch : search data name (data.length + 1) 0 0 = some (none, env, nxt)) (hne : value ≠ [])
    (hallowed : ¬checks.denied data name preventCreate = true) :
    fwEnvWrite checks data name (some value) = appendEntry data name value := by
  rw [fwEnvWrite, hsearch]
  dsimp only [Option.bind_eq_bind, Option.bind_some, Option.getD_some]
  rw [if_neg hne, if_neg hallowed]

/-- A call that fails deletes the variable; and a value of almost `2 ^ 32` bytes is stored outside
of the text. -/
theorem not_fwEnvWrite_edits :
    (Holds [97, 61, 49, 0, 0, 7, 7, 7] [([97], [49])] ∧
      fwEnvWrite unrestricted [97, 61, 49, 0, 0, 7, 7, 7] [97] (some [50, 51, 52, 53, 54, 55]) =
        some (-1, [0, 0, 49, 0, 0, 7, 7, 7])) ∧
      Holds [0, 0] [] ∧ ∃ value, nul ∉ value ∧
      fwEnvWrite unrestricted [0, 0] [97] (some value) = none := by
  refine ⟨⟨holds_a, by decide⟩, ⟨by simp, by simp, by simp, [0], rfl, fun _ ↦ rfl⟩,
    98 :: List.replicate (2 ^ 32 - 5) 98, ?_, ?_⟩
  · intro hmem
    obtain h | h := List.mem_cons.mp hmem
    · exact absurd h (by decide)
    · exact absurd (List.eq_of_mem_replicate h) (by decide)
  · have happend := @appendEntry_outside 98 _ (@List.length_replicate UInt8 (2 ^ 32 - 5) 98)
    have hsearch : search [0, 0] [97] (([0, 0] : Str).length + 1) 0 0 = some (none, 0, 0) := rfl
    rw [fwEnvWrite_creates hsearch (List.cons_ne_nil _ _) Bool.false_ne_true, happend]

end MiniPi.FwEnv
