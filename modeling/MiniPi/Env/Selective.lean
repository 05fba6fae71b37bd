import MiniPi.Env.Items

/-!
# Importing selected variables

With a list of variables `himport_r` strikes a name off the list when it meets it
first, so the first item of a listed name acts, where an import of everything lets the
last one win.  The names left on the list are deleted at the end, unless the function
returned before.
-/

open MiniPi.Lib

namespace MiniPi.Env

/-! ## Items and maps -/

/-- The name an item is about and the value it gives it. -/
def Item.target : Item → Option (Str × Option Str)
  | .comment => none
  | .delete name => some (name, none)
  | .enter name value => some (name, some value)

/-- The values the items give a name, in order. -/
def mentions (k : Str) (items : List Item) : List (Option Str) :=
  items.filterMap fun item ↦ item.target.bind fun t ↦ if t.1 = k then some t.2 else none

/-- What an item does to the map and to the list of variables. -/
def VarMap.select (s : VarMap × List (Option Str)) (item : Item) :
    VarMap × List (Option Str) :=
  match item.target with
  | none => s
  | some (name, value) =>
      let (listed, vars) := dropVarFromSet name s.2
      (if listed then s.1.set name value else s.1, vars)

section Mentions

variable {k : Str} {item : Item} {items : List Item} {m : VarMap} {vars : List (Option Str)}

theorem mentions_cons_none (h : item.target = none) :
    mentions k (item :: items) = mentions k items := by
  simp [mentions, h]

theorem mentions_cons_self {v : Option Str} (h : item.target = some (k, v)) :
    mentions k (item :: items) = v :: mentions k items := by
  simp [mentions, h]

theorem mentions_cons_ne {name : Str} {v : Option Str} (h : item.target = some (name, v))
    (hk : name ≠ k) : mentions k (item :: items) = mentions k items := by
  simp [mentions, h, hk]

@[simp] theorem dropVarFromSet_nil (name : Str) : dropVarFromSet name [] = (true, []) := rfl

theorem dropVarFromSet_of_ne_nil (name : Str) (h : vars ≠ []) : dropVarFromSet name vars =
    (decide (some name ∈ vars), vars.map fun v ↦ if v = some name then none else v) := by
  rw [dropVarFromSet, if_neg]
  exact fun hlen ↦ h (List.length_eq_zero_iff.mp hlen)

theorem dropVarFromSet_ne_nil (name : Str) (h : vars ≠ []) :
    (dropVarFromSet name vars).2 ≠ [] := by
  rw [dropVarFromSet_of_ne_nil name h]
  simpa using h

theorem mem_dropVarFromSet {name : Str} (h : vars ≠ []) :
    some k ∈ (dropVarFromSet name vars).2 ↔ some k ∈ vars ∧ k ≠ name := by
  rw [dropVarFromSet_of_ne_nil name h]
  simp only [List.mem_map]
  constructor
  · rintro ⟨v, hv, heq⟩
    split_ifs at heq with hname
    subst heq
    exact ⟨hv, fun hk ↦ hname (congrArg some hk)⟩
  · rintro ⟨hk, hne⟩
    exact ⟨some k, hk, if_neg fun heq ↦ hne (Option.some.inj heq)⟩

/-- Without a list every item acts, and the last one for a name wins. -/
theorem foldl_select_nil (items : List Item) (m : VarMap) :
    ((items.foldl VarMap.select (m, [])).1 k = (mentions k items).getLast?.getD (m k)) ∧
      (items.foldl VarMap.select (m, [])).2 = [] := by
  induction items generalizing m with
  | nil => exact ⟨rfl, rfl⟩
  | cons item items ih =>
      rw [List.foldl_cons]
      cases ht : item.target with
      | none =>
          have hs : VarMap.select (m, []) item = (m, []) := by simp [VarMap.select, ht]
          rw [hs, mentions_cons_none ht]
          exact ih m
      | some t =>
          obtain ⟨name, value⟩ := t
          have hs : VarMap.select (m, []) item = (m.set name value, []) := by
            simp [VarMap.select, ht]
          rw [hs]
          refine ⟨?_, (ih _).2⟩
          rw [(ih _).1]
          by_cases hk : name = k
          · subst hk
            rw [mentions_cons_self ht, List.getLast?_cons, VarMap.set_self]
            rfl
          · rw [mentions_cons_ne ht hk, VarMap.set_of_ne (Ne.symm hk)]

/-- With a list the first item for a name on it wins and strikes the name off; a name
that is not on the list keeps its value. -/
theorem foldl_select (items : List Item) (m : VarMap) (hvars : vars ≠ []) :
    ((items.foldl VarMap.select (m, vars)).1 k =
      if some k ∈ vars then (mentions k items).head?.getD (m k) else m k) ∧
    (some k ∈ (items.foldl VarMap.select (m, vars)).2 ↔ some k ∈ vars ∧ mentions k items = []) := by
  induction items generalizing m vars with
  | nil => simp [mentions]
  | cons item items ih =>
      rw [List.foldl_cons]
      cases ht : item.target with
      | none =>
          have hs : VarMap.select (m, vars) item = (m, vars) := by simp [VarMap.select, ht]
          rw [hs, mentions_cons_none ht]
          exact ih m hvars
      | some t =>
          obtain ⟨name, value⟩ := t
          have hs : VarMap.select (m, vars) item =
              (if some name ∈ vars then m.set name value else m,
                (dropVarFromSet name vars).2) := by
            simp [VarMap.select, ht, dropVarFromSet_of_ne_nil name hvars]
          rw [hs]
          obtain ⟨h₁, h₂⟩ := ih (if some name ∈ vars then m.set name value else m)
            (dropVarFromSet_ne_nil name hvars)
          simp only [h₁, h₂, mem_dropVarFromSet hvars]
          by_cases hk : name = k
          · subst hk
            rw [mentions_cons_self ht]
            by_cases hmem : some name ∈ vars <;> simp [hmem]
          · rw [mentions_cons_ne ht hk]
            have hk' : k ≠ name := Ne.symm hk
            by_cases hmem : some name ∈ vars <;> simp [hmem, hk', VarMap.set_of_ne hk']

end Mentions

/-! ## Acting on a table -/

/-- An assignment that acts finds room in the table. -/
def ItemInserted (st : Import) : Item → Prop
  | .enter name value => (dropVarFromSet name st.vars).1 = true →
      ∃ r htab, hsearchR st.htab name (.enter value ⟨true, true⟩) = some (.ok r, htab)
  | _ => True

/-- No insertion of the run fails. -/
def AllInserted : List Item → Import → Prop
  | [], _ => True
  | item :: items, st => ItemInserted st item ∧
      ∀ st', importItem accept st item = some (.next st') → AllInserted items st'

section Acting

variable {m : VarMap}

/-- One item does to the table what it does to the map. -/
theorem importItem_select (st : Import) (h : Represents st.htab m) {item : Item}
    (hstop : ¬item.stops = true) (hins : ItemInserted st item) :
    ∃ st', importItem accept st item = some (.next st') ∧
      Represents st'.htab (VarMap.select (m, st.vars) item).1 ∧
      st'.vars = (VarMap.select (m, st.vars) item).2 := by
  cases item with
  | comment => exact ⟨st, rfl, h, rfl⟩
  | delete name =>
      cases hl : (dropVarFromSet name st.vars).1 with
      | false => exact ⟨⟨st.htab, (dropVarFromSet name st.vars).2⟩, by simp [importItem, hl],
          by simpa [VarMap.select, Item.target, hl] using h, rfl⟩
      | true =>
          obtain ⟨htab', hrun, -, hrep⟩ := simulates_delete h name ⟨true, true⟩
          obtain ⟨⟨res, htab''⟩, hd, hmap⟩ := Option.map_eq_some_iff.mp hrun
          obtain rfl : htab'' = htab' := congrArg Prod.snd hmap
          refine ⟨⟨htab'', (dropVarFromSet name st.vars).2⟩, by simp [importItem, hl, accept, hd],
            ?_, rfl⟩
          have hset : m.after (.delete name ⟨true, true⟩,
              m.answer st.htab.size (.delete name ⟨true, true⟩)) = m.set name none := by
            by_cases hm : m name = none
            · rw [VarMap.answer, if_pos hm, ← hm, VarMap.set_eq_self]
              rfl
            · rw [VarMap.answer, if_neg hm]
              rfl
          rw [hset] at hrep
          simpa [VarMap.select, Item.target, hl] using hrep
  | enter name value =>
      have hname : name ≠ [] := fun hn ↦ hstop (List.isEmpty_iff.mpr hn)
      cases hl : (dropVarFromSet name st.vars).1 with
      | false => exact ⟨⟨st.htab, (dropVarFromSet name st.vars).2⟩,
          by simp [importItem, hname, hl], by simpa [VarMap.select, Item.target, hl] using h, rfl⟩
      | true =>
          obtain ⟨r, htab₁, hs⟩ := hins hl
          obtain ⟨htab', hrun, -, hrep⟩ := simulates_enter h name value ⟨true, true⟩
          simp only [Call.run, hs, Option.map_some, Option.some.injEq, Prod.map_apply,
            Prod.mk.injEq, id_eq] at hrun
          obtain ⟨hans, rfl⟩ := hrun
          rw [← hans] at hrep
          have hset : Represents htab₁ (m.set name (some value)) := hrep
          exact ⟨⟨htab₁, (dropVarFromSet name st.vars).2⟩,
            by simp [importItem, hname, hl, accept, hs],
            by simpa [VarMap.select, Item.target, hl] using hset, rfl⟩

/-- A run does to the table what its items do to the map. -/
theorem runItems_select {items : List Item} (st : Import) (h : Represents st.htab m)
    (hstop : ∀ item ∈ items, ¬item.stops = true) (hins : AllInserted items st) :
    ∃ st', runItems accept items st = some st' ∧
      Represents st'.htab (items.foldl VarMap.select (m, st.vars)).1 ∧
      st'.vars = (items.foldl VarMap.select (m, st.vars)).2 := by
  induction items generalizing st m with
  | nil => exact ⟨st, rfl, h, rfl⟩
  | cons item items ih =>
      obtain ⟨hitem, hrest⟩ := hins
      obtain ⟨st₁, h₁, hrep₁, hvars₁⟩ :=
        importItem_select st h (hstop item List.mem_cons_self) hitem
      obtain ⟨st', h₂, hrep₂, hvars₂⟩ := ih st₁ hrep₁
        (fun i hi ↦ hstop i (List.mem_cons_of_mem _ hi)) (hrest st₁ h₁)
      rw [hvars₁] at hrep₂ hvars₂
      exact ⟨st', by rw [runItems, h₁]; exact h₂, hrep₂, hvars₂⟩

/-- The final pass deletes the names left on the list. -/
theorem deleteUnseen_spec (vars : List (Option Str)) {htab : Htab} (h : Represents htab m) :
    ∃ htab' m', deleteUnseen accept vars htab = some htab' ∧ Represents htab' m' ∧
      ∀ k, m' k = if some k ∈ vars then none else m k := by
  induction vars generalizing htab m with
  | nil => exact ⟨htab, m, rfl, h, fun k ↦ by simp⟩
  | cons v vars ih =>
      cases v with
      | none =>
          obtain ⟨htab', m', hd, hrep, hm'⟩ := ih h
          exact ⟨htab', m', hd, hrep, fun k ↦ by simp [hm' k]⟩
      | some name =>
          have hno : ¬(Item.delete name).stops = true := by simp [Item.stops]
          obtain ⟨st₁, hi, hrep₁, -⟩ := importItem_select ⟨htab, []⟩ h hno trivial
          obtain ⟨⟨res, htab₁⟩, hdel, hst⟩ := Option.map_eq_some_iff.mp hi
          obtain rfl : (⟨htab₁, []⟩ : Import) = st₁ := Round.next.inj hst
          obtain ⟨htab', m', hd, hrep, hm'⟩ := ih hrep₁
          refine ⟨htab', m', by simp [deleteUnseen, hdel, hd], hrep, fun k ↦ ?_⟩
          rw [hm' k]
          by_cases hk : k = name
          · subst hk
            simp [VarMap.select, Item.target]
          · have : some k ≠ some name := fun h ↦ hk (Option.some.inj h)
            simp [VarMap.select, Item.target, hk, VarMap.set_of_ne hk]

end Acting

/-! ## The selective import and the full one -/

/-- What `T'` should be when it was made from `T` by importing the variables `V` of a
text, and `F` by importing all of the text into an empty table. -/
def Restricts (T T' F : Htab) (V : List Str) : Prop :=
  (∀ k ∉ V, T'.lookup k = T.lookup k) ∧ ∀ k ∈ V, T'.lookup k = F.lookup k

/-- The first and the last item for a name give it the same value; a name without an
item is deleted at the end, or is not in the table. -/
def ReadAlike (read : List Item × Bool) (T : Htab) (k : Str) : Prop :=
  (mentions k read.1).head? = (mentions k read.1).getLast? ∧
    (mentions k read.1 = [] → read.2 = true → T.lookup k = none)

/-- The table after the loop and the final pass, name by name. -/
theorem importResult_spec {htab : Htab} {m : VarMap} (h : Represents htab m)
    {read : List Item × Bool} (env : Str) (vars : List (Option Str))
    (hstop : ∀ item ∈ read.1, ¬item.stops = true) (hins : AllInserted read.1 ⟨htab, vars⟩) :
    ∃ b htab', importResult false accept read env ⟨htab, vars⟩ = some (b, htab') ∧
      ∀ k, htab'.lookup k =
        if read.2 = false ∧ some k ∈ (read.1.foldl VarMap.select (m, vars)).2 then none
        else (read.1.foldl VarMap.select (m, vars)).1 k := by
  obtain ⟨⟨htab₁, vars₁⟩, hrun, hrep, hvars⟩ := runItems_select ⟨htab, vars⟩ h hstop hins
  dsimp only at hrep hvars
  cases hend : read.2 with
  | true =>
      refine ⟨decide (env = []), htab₁, by rw [importResult, hrun]; simp [hend], fun k ↦ ?_⟩
      rw [hrep.lookup_eq, if_neg (fun hc ↦ Bool.noConfusion hc.1)]
  | false =>
      obtain ⟨htab', m', hdel, hrep', hm'⟩ := deleteUnseen_spec vars₁ hrep
      refine ⟨true, htab', by rw [importResult, hrun]; simp [hend, hdel], fun k ↦ ?_⟩
      rw [hrep'.lookup_eq, hm', ← hvars]
      simp only [true_and]

/-- A selective import restricts the full import exactly when for every listed name
the text's first and last items agree, and a listed name the text does not mention is
deleted at the end or absent. -/
theorem selective_import_iff {T : Htab} {m : VarMap} (h : Represents T m) {V : List Str}
    (hV : V ≠ []) (env : Str) (sep : UInt8) (crlf : Bool)
    (hT : AllInserted (readText sep crlf env).1 ⟨T, V.map some⟩)
    (hF : ∀ F₀, hcreateR (importEntries env.length) = some F₀ →
      AllInserted (readText sep crlf env).1 ⟨F₀, []⟩) :
    ∃ b T' b' F, himportR accept (some T) env sep false crlf V = some (b, T') ∧
      himportR accept none env sep false crlf [] = some (b', F) ∧
      (Restricts T T' F V ↔ ∀ k ∈ V, ReadAlike (readText sep crlf env) T k) := by
  obtain ⟨F₀, hcreate, hgood, -⟩ := hcreateR_spec (importEntries env.length)
    (by unfold importEntries; omega) (by unfold importEntries; omega)
  have hstop := readText_not_stops sep crlf env
  have hV' : V.map some ≠ [] := by simpa using hV
  obtain ⟨b, T', hT', hlookT⟩ := importResult_spec h env (V.map some) hstop hT
  obtain ⟨b', F, hF', hlookF⟩ :=
    importResult_spec (represents_hcreateR hcreate hgood) env [] hstop (hF F₀ hcreate)
  refine ⟨b, T', b', F, ?_, ?_, ?_⟩
  · have htable : (if false = false ∧ V = [] then none else some T).or
        (hcreateR (importEntries env.length)) = some T := by simp [hV]
    rw [himportR_eq_importResult htable]
    exact hT'
  · have htable : (if false = false ∧ ([] : List Str) = [] then none else none).or
        (hcreateR (importEntries env.length)) = some F₀ := by simpa using hcreate
    rw [himportR_eq_importResult htable]
    exact hF'
  · generalize readText sep crlf env = read at *
    have hmem : ∀ k, some k ∈ V.map some ↔ k ∈ V := fun k ↦ by simp
    have hT₁ : ∀ k ∉ V, T'.lookup k = T.lookup k := by
      intro k hk
      simp only [hlookT, (foldl_select read.1 m hV').1, (foldl_select read.1 m hV').2, h.lookup_eq]
      simp [hk]
    have hT₂ : ∀ k ∈ V, T'.lookup k =
        if mentions k read.1 = [] then (if read.2 then m k else none)
        else (mentions k read.1).head?.getD (m k) := by
      intro k hk
      simp only [hlookT, (foldl_select read.1 m hV').1, (foldl_select read.1 m hV').2]
      by_cases hnil : mentions k read.1 = []
      · cases hend : read.2 <;> simp [hk, hnil]
      · simp [hk, hnil]
    have hF₁ : ∀ k, F.lookup k = (mentions k read.1).getLast?.getD none := by
      intro k
      rw [hlookF, (foldl_select_nil read.1 _).1, (foldl_select_nil (k := k) read.1 _).2]
      simp
    rw [Restricts, and_iff_right hT₁]
    refine forall₂_congr fun k hk ↦ ?_
    rw [hT₂ k hk, hF₁, ReadAlike, h.lookup_eq]
    by_cases hnil : mentions k read.1 = []
    · cases hend : read.2 <;> simp [hnil]
    · obtain ⟨v, vs, hvs⟩ := List.exists_cons_of_ne_nil hnil
      rw [if_neg hnil, hvs]
      simp only [List.head?_cons, Option.getD_some, reduceCtorEq, false_imp_iff, and_true,
        List.getLast?_cons]
      exact ⟨congrArg some, Option.some.inj⟩

/-- The text `a=`, read for `a`, deletes `a` in both imports. -/
theorem selective_import_delete :
    ∃ b T' b' F, himportR accept (some (oneVar [49])) [97, 61, 10] (chr '\n') false false [[97]] =
        some (b, T') ∧
      himportR accept none [97, 61, 10] (chr '\n') false false [] = some (b', F) ∧
      Restricts (oneVar [49]) T' F [[97]] := by
  have hread : readText (chr '\n') false [97, 61, 10] = ([.delete [97]], false) := by decide
  have hins : ∀ st, AllInserted (readText (chr '\n') false [97, 61, 10]).1 st := by
    intro st
    rw [hread]
    exact ⟨trivial, fun _ _ ↦ trivial⟩
  obtain ⟨b, T', b', F, h₁, h₂, hiff⟩ := selective_import_iff (represents_oneVar [49])
    (List.cons_ne_nil [97] []) [97, 61, 10] (chr '\n') false (hins _) (fun _ _ ↦ hins _)
  refine ⟨b, T', b', F, h₁, h₂, hiff.mpr ?_⟩
  rw [hread]
  intro k hk
  obtain rfl := List.mem_singleton.mp hk
  exact ⟨rfl, fun _ hstop ↦ Bool.noConfusion hstop⟩

/-- The text `a=1`, `a=2` gives `a` the value `1` when it is read for `a`, and the
value `2` when all of it is read. -/
theorem selective_import_first_wins :
    ∃ T' F, himportR accept (some (oneVar [48])) [97, 61, 49, 10, 97, 61, 50, 10] (chr '\n')
        false false [[97]] = some (true, T') ∧
      himportR accept none [97, 61, 49, 10, 97, 61, 50, 10] (chr '\n') false false [] =
        some (true, F) ∧
      Represents (oneVar [48]) (VarMap.set (fun _ ↦ none) [97] (some [48])) ∧
      T'.lookup [97] = some [49] ∧ F.lookup [97] = some [50] ∧
      ¬Restricts (oneVar [48]) T' F [[97]] := by
  refine ⟨_, _, by rfl, by rfl, represents_oneVar _, by rfl, by rfl, fun h ↦ ?_⟩
  exact absurd (h.2 [97] (List.mem_singleton.mpr rfl)) (by decide)

end MiniPi.Env
