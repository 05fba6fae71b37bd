import MiniPi.Env.Create
import MiniPi.Env.Export

/-!
# Reading back what was exported

Every entry that `hexport_r` writes is read back by one round of `himport_r`, so an
export that stays inside its buffer is imported as the same map.  With a NUL as
separator the two passes of `hexport_r` disagree: the first one leaves no room for
the backslashes that the second one writes before backslashes.
-/

open MiniPi.Lib

namespace MiniPi.Env

/-! ## What is exported -/

/-- The entries that an export of everything writes, in slot order. -/
abbrev exportList (htab : Htab) : List Entry := collect htab false 0 fun _ ↦ false

/-- The same entries in the order they are written. -/
abbrev sortedList (htab : Htab) : List Entry := qsort cmpkey (exportList htab)

theorem exportList_eq (htab : Htab) : exportList htab = (List.range' 1 htab.size).filterMap
    fun i ↦ if 0 < (htab.node i).used then some (htab.node i).entry else none := by
  simp only [exportList, collect, List.filterMap_map]
  congr 1

theorem mem_exportList {htab : Htab} {e : Entry} : e ∈ exportList htab ↔
    ∃ i, Cycle.Place htab.size i ∧ (htab.node i).Live ∧ (htab.node i).entry = e := by
  rw [exportList_eq, List.mem_filterMap]
  refine exists_congr fun i ↦ ?_
  simp only [List.mem_range'_1, Cycle.Place, Node.Live]
  split_ifs with hu
  · simp only [hu, Option.some.injEq, true_and]
    exact and_congr_left fun _ ↦ by omega
  · simp [hu]

section Represented

variable {htab : Htab} {m : VarMap} (h : Represents htab m)
include h

theorem mem_sortedList {e : Entry} : e ∈ sortedList htab ↔ m e.key = some e.data := by
  rw [(qsort_perm cmpkey _).mem_iff, mem_exportList, h.stored]

theorem nodup_sortedList : ((sortedList htab).map Entry.key).Nodup := by
  have hperm := (qsort_perm cmpkey (exportList htab)).map Entry.key
  rw [hperm.nodup_iff, exportList_eq, List.Nodup, List.pairwise_map, List.pairwise_filterMap]
  refine (List.pairwise_lt_range' ..).imp_of_mem fun {i j} hi hj hlt e he e' he' hk ↦ ?_
  simp only [Option.ite_none_right_eq_some, Option.some.injEq] at he he'
  obtain ⟨hli, rfl⟩ := he
  obtain ⟨hlj, rfl⟩ := he'
  rw [List.mem_range'_1] at hi hj
  have := h.unique i j ⟨hi.1, by omega⟩ ⟨hj.1, by omega⟩ hli hlj hk
  omega

end Represented

/-! ## The room an export needs -/

/-- The backslashes in the values. -/
def backslashes (list : List Entry) : ℕ := (list.map fun e ↦ e.data.count (chr '\\')).sum

/-- The condition on names and values: names are not empty, hold neither `=` nor NUL
nor the separator, and do not start like a blank or a comment; values are not empty
and hold no NUL. -/
structure Entry.Printable (sep : UInt8) (e : Entry) : Prop where
  key_ne_nil : e.key ≠ []
  key_inName : ∀ c ∈ e.key, inName sep c = true
  key_not_blank : isblank (peek e.key) = false
  key_not_comment : peek e.key ≠ chr '#'
  data_ne_nil : e.data ≠ []
  data_no_nul : nul ∉ e.data

theorem length_escapeValue (sep : UInt8) (data : Str) :
    (escapeValue sep data).length = (data.map fun c ↦ if needsEscape sep c then 2 else 1).sum := by
  rw [escapeValue, List.length_flatMap]
  congr 2
  funext c
  split_ifs <;> rfl

/-- An escaped value has one byte more for each character that is escaped. -/
theorem length_escapeValue_eq (sep : UInt8) (data : Str) :
    (escapeValue sep data).length = data.length + data.countP (needsEscape sep) := by
  rw [length_escapeValue]
  induction data with
  | nil => rfl
  | cons c data ih =>
      rw [List.map_cons, List.sum_cons, ih, List.length_cons, List.countP_cons]
      split_ifs <;> omega

/-- In a C string only backslashes are escaped when the separator is a NUL. -/
theorem countP_needsEscape_nul {data : Str} (h : nul ∉ data) :
    data.countP (needsEscape nul) = data.count (chr '\\') := by
  refine List.countP_congr fun c hc ↦ ?_
  have hne : (c == nul) = false := beq_eq_false_iff_ne.mpr fun heq ↦ h (heq ▸ hc)
  simp only [needsEscape, hne, Bool.false_or]

/-- The characters of the values that are escaped. -/
def escapes (sep : UInt8) (list : List Entry) : ℕ :=
  (list.map fun e ↦ e.data.countP (needsEscape sep)).sum

theorem length_writeEntry (sep : UInt8) (e : Entry) :
    (writeEntry sep e).length =
      entryRoom sep e + if sep = nul then e.data.countP (needsEscape sep) else 0 := by
  simp only [writeEntry, entryRoom, valueRoom, List.length_append, List.length_cons,
    List.length_nil]
  split_ifs with hsep
  · rw [length_escapeValue_eq]
    omega
  · rw [length_escapeValue]
    omega

/-- What pass 2 writes is what pass 1 reckoned, and with a NUL as separator the
escapes on top. -/
theorem length_writeEntries_eq (sep : UInt8) (list : List Entry) :
    (writeEntries sep list).length =
      totlen sep list + 1 + if sep = nul then escapes sep list else 0 := by
  rw [writeEntries, List.length_append, List.length_singleton, List.length_flatMap]
  suffices hsum : (list.map fun e ↦ (writeEntry sep e).length).sum =
      totlen sep list + if sep = nul then escapes sep list else 0 by omega
  induction list with
  | nil => simp [totlen, escapes]
  | cons e list ih =>
      rw [List.map_cons, List.sum_cons, ih, length_writeEntry]
      simp only [totlen, escapes, List.map_cons, List.sum_cons]
      split_ifs <;> omega

theorem length_writeEntries {sep : UInt8} {list : List Entry} (h : ∀ e ∈ list, e.Printable sep) :
    (writeEntries sep list).length =
      totlen sep list + 1 + if sep = nul then backslashes list else 0 := by
  rw [length_writeEntries_eq]
  split_ifs with hsep
  · subst hsep
    rw [escapes, backslashes,
      List.map_congr_left fun e he ↦ countP_needsEscape_nul (h e he).data_no_nul]
  · rfl

theorem length_le_totlen (sep : UInt8) (list : List Entry) : list.length ≤ totlen sep list := by
  induction list with
  | nil => exact Nat.zero_le _
  | cons e list ih =>
      simp only [totlen, entryRoom, List.map_cons, List.sum_cons, List.length_cons] at ih ⊢
      omega

/-! ## Reading one entry back -/

theorem parseValue_end {sep c : UInt8} (h : c = nul ∨ c = sep) (dp : Str) :
    parseValue sep (c :: dp) = ([], c :: dp) := by
  rw [parseValue.eq_def]
  exact if_pos h

theorem parseValue_escaped {sep d : UInt8} (hsep : sep ≠ chr '\\') (hd : d ≠ nul) (dp : Str) :
    parseValue sep (chr '\\' :: d :: dp) = (parseValue sep dp).map (d :: ·) id := by
  rw [parseValue.eq_def]
  dsimp only
  rw [if_neg, if_pos ⟨rfl, hd⟩]
  rintro (h | h)
  · exact absurd h (by decide)
  · exact hsep h.symm

theorem parseValue_plain {sep c : UInt8} (h₀ : c ≠ nul) (h₁ : c ≠ sep) (h₂ : c ≠ chr '\\')
    (dp : Str) : parseValue sep (c :: dp) = (parseValue sep dp).map (c :: ·) id := by
  rw [parseValue.eq_def]
  dsimp only
  rw [if_neg (not_or.mpr ⟨h₀, h₁⟩), if_neg fun h ↦ h₂ h.1]

theorem parseValue_escapeValue {sep : UInt8} (hsep : sep ≠ chr '\\') {data : Str}
    (h : nul ∉ data) (rest : Str) :
    parseValue sep (escapeValue sep data ++ sep :: rest) = (data, sep :: rest) := by
  induction data with
  | nil => exact parseValue_end (Or.inr rfl) rest
  | cons c data ih =>
      rw [List.mem_cons, not_or] at h
      have hc : c ≠ nul := fun hc ↦ h.1 hc.symm
      have ih := ih h.2
      rw [escapeValue] at ih
      rw [escapeValue, List.flatMap_cons]
      by_cases hesc : needsEscape sep c = true
      · rw [if_pos hesc]
        simp only [List.cons_append, List.nil_append]
        rw [parseValue_escaped hsep hc, ih]
        rfl
      · rw [if_neg hesc]
        simp only [needsEscape, Bool.or_eq_true, beq_iff_eq, not_or] at hesc
        simp only [List.cons_append, List.nil_append]
        rw [parseValue_plain hc hesc.1 hesc.2, ih]
        rfl

/-- The first byte of a value as it is written is neither NUL nor the separator. -/
theorem peek_escapeValue {sep : UInt8} (hsep : sep ≠ chr '\\') {data : Str} (hne : data ≠ [])
    (h : nul ∉ data) (rest : Str) :
    peek (escapeValue sep data ++ rest) ≠ nul ∧ peek (escapeValue sep data ++ rest) ≠ sep := by
  cases data with
  | nil => exact absurd rfl hne
  | cons c data =>
      rw [List.mem_cons, not_or] at h
      rw [escapeValue, List.flatMap_cons]
      by_cases hesc : needsEscape sep c = true
      · rw [if_pos hesc]
        exact ⟨show chr '\\' ≠ nul by decide, hsep.symm⟩
      · rw [if_neg hesc]
        simp only [needsEscape, Bool.or_eq_true, beq_iff_eq, not_or] at hesc
        exact ⟨fun hc ↦ h.1 hc.symm, hesc.1⟩

theorem parseItem_writeEntry {sep : UInt8} (hsep : sep = nul ∨ sep = chr '\n') {e : Entry}
    (h : e.Printable sep) (rest : Str) :
    parseItem sep (writeEntry sep e ++ rest) = (.enter e.key e.data, rest) := by
  have hbs : sep ≠ chr '\\' := by rcases hsep with rfl | rfl <;> decide
  have heq : chr '=' ≠ sep := by rcases hsep with rfl | rfl <;> decide
  obtain ⟨c, key, hkey⟩ := List.exists_cons_of_ne_nil h.key_ne_nil
  have hpeek : peek e.key = c := by rw [hkey]; rfl
  have htext : writeEntry sep e ++ rest =
      e.key ++ chr '=' :: (escapeValue sep e.data ++ sep :: rest) := by
    simp [writeEntry]
  have hblank : (e.key ++ chr '=' :: (escapeValue sep e.data ++ sep :: rest)).dropWhile isblank =
      e.key ++ chr '=' :: (escapeValue sep e.data ++ sep :: rest) := by
    rw [hkey, List.cons_append, List.dropWhile_cons_of_neg]
    rw [← hpeek, h.key_not_blank]
    decide
  have hstop : inName sep (chr '=') = false := by simp [inName]
  obtain ⟨hv₀, hv₁⟩ := peek_escapeValue hbs h.data_ne_nil h.data_no_nul (sep :: rest)
  rw [parseItem, htext, hblank]
  dsimp only
  rw [if_neg, List.takeWhile_append_of_pos h.key_inName, List.dropWhile_append_of_pos h.key_inName,
    List.takeWhile_cons_of_neg (by simp [hstop]), List.dropWhile_cons_of_neg (by simp [hstop]),
    if_neg, List.tail_cons, parseValue_escapeValue hbs h.data_no_nul]
  · simp
  · rintro (h' | h' | h' | h')
    · exact absurd h' (show chr '=' ≠ nul by decide)
    · exact hv₀ h'
    · exact heq h'
    · exact hv₁ h'
  · rw [hkey]
    exact fun h' ↦ h.key_not_comment (hpeek.trans h')

/-! ## Reading all entries back -/

/-- Hooks that accept everything. -/
def accept : Hooks := fun _ _ _ ↦ ⟨true, true⟩

/-- The map after the entries of a list were entered. -/
def VarMap.setAll (m : VarMap) (list : List Entry) : VarMap :=
  list.foldl (fun m e ↦ m.set e.key (some e.data)) m

theorem VarMap.setAll_of_notMem {list : List Entry} {k : Str} (h : k ∉ list.map Entry.key)
    (m : VarMap) : m.setAll list k = m k := by
  induction list generalizing m with
  | nil => rfl
  | cons e list ih =>
      rw [List.map_cons, List.mem_cons, not_or] at h
      exact (ih h.2 _).trans (VarMap.set_of_ne h.1 _)

theorem VarMap.setAll_of_mem {list : List Entry} (hn : (list.map Entry.key).Nodup) {e : Entry}
    (h : e ∈ list) (m : VarMap) : m.setAll list e.key = some e.data := by
  induction list generalizing m with
  | nil => exact absurd h List.not_mem_nil
  | cons e' list ih =>
      rw [List.map_cons, List.nodup_cons] at hn
      rcases List.mem_cons.mp h with rfl | h
      · exact (VarMap.setAll_of_notMem hn.1 _).trans (VarMap.set_self _)
      · exact ih hn.2 h _

theorem setAll_sortedList {htab : Htab} {m : VarMap} (h : Represents htab m) :
    VarMap.setAll (fun _ ↦ none) (sortedList htab) = m := by
  funext k
  by_cases hk : k ∈ (sortedList htab).map Entry.key
  · obtain ⟨e, he, rfl⟩ := List.mem_map.mp hk
    rw [VarMap.setAll_of_mem (nodup_sortedList h) he, (mem_sortedList h).mp he]
  · rw [VarMap.setAll_of_notMem hk]
    by_contra hne
    obtain ⟨d, hd⟩ := Option.ne_none_iff_exists'.mp (Ne.symm hne)
    exact hk (List.mem_map.mpr ⟨⟨k, d⟩, (mem_sortedList h).mpr hd, rfl⟩)

theorem length_sortedList {htab : Htab} {m : VarMap} (h : Represents htab m) :
    (sortedList htab).length = m.present.ncard := by
  have hkeys : m.present = ↑((sortedList htab).map Entry.key).toFinset := by
    ext k
    rw [VarMap.mem_present, List.coe_toFinset, Set.mem_ofPred_eq, List.mem_map]
    constructor
    · intro hne
      obtain ⟨d, hd⟩ := Option.ne_none_iff_exists'.mp hne
      exact ⟨⟨k, d⟩, (mem_sortedList h).mpr hd, rfl⟩
    · rintro ⟨e, he, rfl⟩
      rw [(mem_sortedList h).mp he]
      simp
  rw [hkeys, Set.ncard_coe_finset, List.toFinset_card_of_nodup (nodup_sortedList h),
    List.length_map]

/-- One accepted entry under a new name in a table that has room. -/
theorem importItem_enter {htab : Htab} {m : VarMap} (h : Represents htab m) {e : Entry}
    (hne : e.key ≠ []) (habsent : m e.key = none) (hroom : htab.filled < htab.size) :
    ∃ htab', importItem accept ⟨htab, []⟩ (.enter e.key e.data) = some (.next ⟨htab', []⟩) ∧
      Represents htab' (m.set e.key (some e.data)) ∧ htab'.size = htab.size ∧
      htab'.filled = htab.filled + 1 := by
  obtain ⟨htab', hrun, hsize, hrep⟩ := simulates_enter h e.key e.data ⟨true, true⟩
  have hcard : m.present.ncard ≠ htab.size := by
    rw [← h.filled]
    exact hroom.ne
  have hans : m.answer htab.size (.enter e.key e.data ⟨true, true⟩) = .ok (some e) := by
    simp [VarMap.answer, hcard, Verdict.errno]
  rw [hans] at hrep
  refine ⟨htab', ?_, hrep, hsize, ?_⟩
  · obtain ⟨⟨res, htab''⟩, hs, hmap⟩ := Option.map_eq_some_iff.mp hrun
    have : htab'' = htab' := congrArg Prod.snd hmap
    subst this
    simp [importItem, hne, dropVarFromSet, accept, hs]
  · rw [hrep.filled, h.filled]
    change (m.set e.key (some e.data)).present.ncard = _
    rw [VarMap.present_set_some, Set.ncard_insert_of_notMem _ h.finite_present]
    rwa [VarMap.mem_present, not_not]

theorem importLoop_writeEntries {sep : UInt8} (hsep : sep = nul ∨ sep = chr '\n') {pad : Str}
    (hpad : pad ≠ []) (list : List Entry) :
    ∀ (fuel : ℕ) (htab : Htab) (m : VarMap), list.length ≤ fuel → list ≠ [] →
      Represents htab m → (∀ e ∈ list, e.Printable sep) → (list.map Entry.key).Nodup →
      (∀ e ∈ list, m e.key = none) → htab.filled + list.length ≤ htab.size →
      ∃ htab', importLoop sep accept 1 fuel (list.flatMap (writeEntry sep) ++ nul :: pad)
          ⟨htab, []⟩ = some (.next ⟨htab', []⟩) ∧ Represents htab' (m.setAll list) := by
  induction list with
  | nil => exact fun fuel htab m _ hne ↦ absurd rfl hne
  | cons e list ih =>
      intro fuel htab m hfuel _ hrep hprint hnodup habsent hroom
      obtain ⟨hpe, hpl⟩ := List.forall_mem_cons.mp hprint
      rw [List.map_cons, List.nodup_cons] at hnodup
      rw [List.length_cons] at hfuel hroom
      obtain ⟨fuel, rfl⟩ := Nat.exists_eq_add_of_le' (show 1 ≤ fuel by omega)
      obtain ⟨htab₁, hitem, hrep₁, hsize, hfilled⟩ :=
        importItem_enter hrep hpe.key_ne_nil (habsent e List.mem_cons_self) (by omega)
      rw [importLoop, List.flatMap_cons, List.append_assoc, parseItem_writeEntry hsep hpe]
      dsimp only
      rw [hitem]
      dsimp only
      cases list with
      | nil =>
          rw [if_neg (fun hgo ↦ hgo.2 rfl)]
          exact ⟨htab₁, rfl, hrep₁⟩
      | cons e' list =>
          have hpe' := hpl e' List.mem_cons_self
          obtain ⟨c, key, hkey⟩ := List.exists_cons_of_ne_nil hpe'.key_ne_nil
          have hc : c ≠ nul := by
            have := hpe'.key_inName c (by simp [hkey])
            simp only [inName, Bool.and_eq_true, bne_iff_ne] at this
            exact this.1.2
          rw [if_pos]
          · refine ih fuel htab₁ (m.set e.key (some e.data)) (by omega) (by simp) hrep₁ hpl
              hnodup.2 (fun e'' he'' ↦ ?_) (by omega)
            rw [VarMap.set_of_ne]
            · exact habsent e'' (List.mem_cons_of_mem _ he'')
            · intro hk
              exact hnodup.1 (List.mem_map.mpr ⟨e'', he'', hk⟩)
          · have hpos := List.length_pos_of_ne_nil hpad
            constructor
            · simp only [List.length_append, List.length_cons]
              omega
            · simpa [writeEntry, hkey, peek] using hc

/-- An export of nothing is read as the deletion of a variable without a name. -/
theorem importLoop_empty {sep : UInt8} {pad : Str} (hpad : peek pad = nul) {htab : Htab}
    (h : Represents htab fun _ ↦ none) (fuel : ℕ) :
    importLoop sep accept 1 (fuel + 1) (nul :: pad) ⟨htab, []⟩ = some (.next ⟨htab, []⟩) := by
  have hpeek : peek (nul :: pad) = nul := rfl
  have hname : ¬inName sep nul = true := by simp [inName]
  have hitem : parseItem sep (nul :: pad) = (.delete [], pad) := by
    rw [parseItem, List.dropWhile_cons_of_neg (by decide)]
    dsimp only
    rw [List.takeWhile_cons_of_neg hname, List.dropWhile_cons_of_neg (p := inName sep) hname,
      hpeek, if_neg (by decide), if_pos (Or.inl rfl), if_neg (by decide), List.tail_cons]
  have hdelete : hdeleteR htab [] ⟨true, true⟩ = some (.error .esrch, htab) := by
    obtain ⟨r, hr, hspec⟩ := probe_spec h.good []
    cases r with
    | found idx =>
        obtain ⟨-, -, -, hm⟩ := h.of_found hspec
        exact absurd hm (by simp)
    | missing idx fd => simp [hdeleteR, hsearchR, hr]
  rw [importLoop, hitem]
  simp [importItem, dropVarFromSet, accept, hdelete, hpad]

/-! ## The round trip -/

/-- The value `ENV_FIND` returns for a name. -/
def Htab.lookup (htab : Htab) (key : Str) : Option Str :=
  match hsearchR htab key .find with
  | some (.ok (_, e), _) => some e.data
  | _ => none

theorem Represents.lookup_eq {htab : Htab} {m : VarMap} (h : Represents htab m) (key : Str) :
    htab.lookup key = m key := by
  obtain ⟨r, hr, hspec⟩ := probe_spec h.good key
  cases r with
  | found idx =>
      obtain ⟨-, -, -, hm⟩ := h.of_found hspec
      simp [Htab.lookup, hsearchR, hr, overwriteEntry, hm]
  | missing idx fd => simp [Htab.lookup, hsearchR, hr, h.of_missing hspec]

/-- The export of a table, read back, gives every name the value it had. -/
def RoundTrips (htab : Htab) (sep : UInt8) (size : ℕ) (old : Option Htab) : Prop :=
  ∃ buf htab', hexportR htab sep false size 0 (fun _ ↦ false) = .ok buf ∧
    himportR accept old buf sep false false [] = some (true, htab') ∧
    ∀ key, htab'.lookup key = htab.lookup key

theorem totlen_sortedList (sep : UInt8) (htab : Htab) :
    totlen sep (sortedList htab) = totlen sep (exportList htab) :=
  ((qsort_perm cmpkey _).map _).sum_eq

theorem backslashes_sortedList (htab : Htab) :
    backslashes (sortedList htab) = backslashes (exportList htab) :=
  ((qsort_perm cmpkey _).map _).sum_eq

/-- What `hexport_r` returns unless it finds the buffer too small at once. -/
theorem hexportR_eq {htab : Htab} {sep : UInt8} {size : ℕ}
    (h : hexportR htab sep false size 0 (fun _ ↦ false) ≠ .tooSmall) :
    hexportR htab sep false size 0 (fun _ ↦ false) =
        fillBuffer (writeEntries sep (sortedList htab))
          (bufferSize sep (exportList htab) size) ∧
      totlen sep (exportList htab) + 1 ≤ bufferSize sep (exportList htab) size := by
  simp only [hexportR, bufferSize, totlen_sortedList] at h ⊢
  by_cases hs : size ≠ 0 ∧ size < totlen sep (exportList htab) + 1
  · rw [if_pos hs] at h
    exact absurd rfl h
  · rw [if_neg hs]
    refine ⟨rfl, ?_⟩
    split_ifs <;> omega

/-- An import of everything into a fresh table is the loop. -/
theorem himportR_eq {hooks : Hooks} {old : Option Htab} {env : Str} {sep : UInt8}
    {htab htab' : Htab} (hne : env.length ≠ 0)
    (hcreate : hcreateR (importEntries env.length) = some htab)
    (hloop : importLoop sep hooks 1 (env.length + 1) (env ++ [nul]) ⟨htab, []⟩ =
      some (.next ⟨htab', []⟩)) :
    himportR hooks old env sep false false [] = some (true, htab') := by
  have hspare : env.length + 1 - env.length = 1 := by omega
  simp only [himportR, and_self, if_true, Option.none_or, hcreate, hne, if_false,
    List.length_append, List.length_singleton, hspare, List.map_nil, hloop, deleteUnseen,
    Option.map_some, Bool.false_eq_true]

section

variable {htab : Htab} {m : VarMap} {sep : UInt8}

/-- A buffer that holds the whole text is read back as the map. -/
theorem himportR_writeEntries (h : Represents htab m) (hsep : sep = nul ∨ sep = chr '\n')
    (hprint : ∀ k d, m k = some d → Entry.Printable sep ⟨k, d⟩) (n : ℕ) (old : Option Htab)
    (hroom : ∀ htab', hcreateR (importEntries ((writeEntries sep (sortedList htab)).length + n)) =
      some htab' → m.present.ncard ≤ htab'.size) :
    ∃ htab', himportR accept old (writeEntries sep (sortedList htab) ++ List.replicate n nul)
        sep false false [] = some (true, htab') ∧ Represents htab' m := by
  have hlen : (writeEntries sep (sortedList htab) ++ List.replicate n nul).length =
      (writeEntries sep (sortedList htab)).length + n := by simp
  have hpos : 1 ≤ (writeEntries sep (sortedList htab)).length := by simp [writeEntries]
  have hall : ∀ e ∈ sortedList htab, e.Printable sep :=
    fun e he ↦ hprint _ _ ((mem_sortedList h).mp he)
  obtain ⟨htab₀, hcreate, hgood, -⟩ := hcreateR_spec
    (importEntries ((writeEntries sep (sortedList htab)).length + n))
    (by unfold importEntries; omega) (by unfold importEntries; omega)
  have hfresh := represents_hcreateR hcreate hgood
  have hroom₀ : (sortedList htab).length ≤ htab₀.size :=
    (length_sortedList h).trans_le (hroom htab₀ hcreate)
  have hzero : htab₀.filled = 0 := by
    rw [hfresh.filled]
    simp [VarMap.present]
  have hloop : ∃ htab', importLoop sep accept 1
      ((writeEntries sep (sortedList htab)).length + n + 1)
      (writeEntries sep (sortedList htab) ++ List.replicate n nul ++ [nul]) ⟨htab₀, []⟩ =
        some (.next ⟨htab', []⟩) ∧ Represents htab' m := by
    have htext : writeEntries sep (sortedList htab) ++ List.replicate n nul ++ [nul] =
        (sortedList htab).flatMap (writeEntry sep) ++ nul :: (List.replicate n nul ++ [nul]) := by
      simp [writeEntries]
    rw [htext]
    by_cases hnil : sortedList htab = []
    · rw [hnil]
      have hm : m = fun _ ↦ none := by
        rw [← setAll_sortedList h, hnil]
        rfl
      have hpad : peek (List.replicate n nul ++ [nul]) = nul := by cases n <;> rfl
      exact ⟨htab₀, importLoop_empty hpad hfresh _, hm ▸ hfresh⟩
    · have hfuel : (sortedList htab).length ≤
          (writeEntries sep (sortedList htab)).length + n + 1 := by
        rw [length_writeEntries hall]
        have := length_le_totlen sep (sortedList htab)
        omega
      obtain ⟨htab', hrun, hrep⟩ := importLoop_writeEntries hsep
        (show List.replicate n nul ++ [nul] ≠ [] by simp) (sortedList htab) _ htab₀
          (fun _ ↦ none) hfuel hnil hfresh hall
        (nodup_sortedList h) (fun _ _ ↦ rfl) (by omega)
      exact ⟨htab', hrun, setAll_sortedList h ▸ hrep⟩
  obtain ⟨htab', hrun, hrep⟩ := hloop
  refine ⟨htab', ?_, hrep⟩
  exact himportR_eq (by omega) (by rw [hlen, hcreate]) (by rw [hlen, hrun])

/-- An export that `hexport_r` does not refuse is read back as the same map exactly
when the separator is a newline or the buffer has room for the backslashes that
pass 1 does not count. -/
theorem roundTrips_iff {size : ℕ} {old : Option Htab} (h : Represents htab m)
    (hsep : sep = nul ∨ sep = chr '\n')
    (hprint : ∀ k d, m k = some d → Entry.Printable sep ⟨k, d⟩)
    (hsize : hexportR htab sep false size 0 (fun _ ↦ false) ≠ .tooSmall)
    (hroom : ∀ htab', hcreateR (importEntries (bufferSize sep (exportList htab) size)) =
      some htab' → m.present.ncard ≤ htab'.size) :
    RoundTrips htab sep size old ↔ sep = chr '\n' ∨
      totlen sep (exportList htab) + backslashes (exportList htab) + 1 ≤
        bufferSize sep (exportList htab) size := by
  obtain ⟨hexp, hle⟩ := hexportR_eq hsize
  have hall : ∀ e ∈ sortedList htab, e.Printable sep :=
    fun e he ↦ hprint _ _ ((mem_sortedList h).mp he)
  have hlen := length_writeEntries hall
  rw [totlen_sortedList, backslashes_sortedList] at hlen
  have hfits : (writeEntries sep (sortedList htab)).length ≤
      bufferSize sep (exportList htab) size ↔ sep = chr '\n' ∨
        totlen sep (exportList htab) + backslashes (exportList htab) + 1 ≤
          bufferSize sep (exportList htab) size := by
    rcases hsep with rfl | rfl
    · rw [hlen, if_pos rfl, or_iff_right (by decide)]
      omega
    · rw [hlen, if_neg (by decide)]
      exact iff_of_true (by omega) (Or.inl rfl)
  rw [← hfits]
  constructor
  · rintro ⟨buf, htab', hok, -, -⟩
    rw [hexp, fillBuffer] at hok
    split_ifs at hok with hover
    exact not_lt.mp hover
  · intro hfit
    obtain ⟨n, hn⟩ := Nat.exists_eq_add_of_le hfit
    rw [hn] at hroom hexp
    obtain ⟨htab', himp, hrep⟩ := himportR_writeEntries h hsep hprint n old hroom
    refine ⟨_, htab', ?_, himp, fun key ↦ ?_⟩
    · rw [hexp, fillBuffer, if_neg (by omega), Nat.add_sub_cancel_left]
    · rw [hrep.lookup_eq, h.lookup_eq]

end

/-- A table of five slots with the one variable `a`. -/
def oneVar (data : Str) : Htab :=
  ⟨5, 1, [Node.zero, Node.zero, Node.zero, ⟨3, ⟨[97], data⟩⟩, Node.zero, Node.zero]⟩

theorem represents_oneVar (data : Str) :
    Represents (oneVar data) (VarMap.set (fun _ ↦ none) [97] (some data)) := by
  have hrun : Run Move ⟨5, 0, List.replicate 6 Node.zero⟩
      [(.enter [97] data ⟨true, true⟩, .ok (some ⟨[97], data⟩))] (oneVar data) :=
    .cons rfl (.nil _)
  exact (represents_run hrun
    (represents_hcreateR (show hcreateR 5 = _ from rfl) ⟨by decide, le_rfl⟩)).1

theorem printable_oneVar {sep : UInt8} (hsep : sep = nul ∨ sep = chr '\n') {data : Str}
    (hne : data ≠ []) (hnul : nul ∉ data) :
    ∀ k d, VarMap.set (fun _ ↦ none) [97] (some data) k = some d →
      Entry.Printable sep ⟨k, d⟩ := by
  intro k d h
  by_cases hk : k = [97]
  · subst hk
    rw [VarMap.set_self, Option.some.injEq] at h
    subst h
    refine ⟨by simp, ?_, rfl, show (97 : UInt8) ≠ chr '#' by decide, hne, hnul⟩
    rcases hsep with rfl | rfl <;> simp [inName] <;> decide
  · rw [VarMap.set_of_ne hk] at h
    exact absurd h (by simp)

theorem room_oneVar (data : Str) (n : ℕ) : ∀ htab', hcreateR (importEntries n) = some htab' →
    (VarMap.set (fun _ ↦ none) [97] (some data)).present.ncard ≤ htab'.size := by
  intro htab' hcreate
  obtain ⟨htab₀, hcreate₀, hgood, -⟩ := hcreateR_spec (importEntries n)
    (by unfold importEntries; omega) (by unfold importEntries; omega)
  rw [hcreate, Option.some.injEq] at hcreate₀
  rw [← (represents_oneVar data).filled, hcreate₀]
  exact le_trans (show 1 ≤ 5 by decide) hgood.five_le

/-- The value is four backslashes and the separator a NUL: pass 1 allocates eight
bytes, and pass 2 writes twelve. -/
theorem export_overflows_on_backslashes :
    ¬∀ (htab : Htab) (m : VarMap) (size : ℕ) (old : Option Htab), Represents htab m →
      (∀ k d, m k = some d → Entry.Printable nul ⟨k, d⟩) →
      hexportR htab nul false size 0 (fun _ ↦ false) ≠ .tooSmall →
      (∀ htab', hcreateR (importEntries (bufferSize nul (exportList htab) size)) = some htab' →
        m.present.ncard ≤ htab'.size) →
      RoundTrips htab nul size old := by
  intro h
  obtain ⟨buf, htab', hexp, -⟩ := h (oneVar [92, 92, 92, 92]) _ 0 none (represents_oneVar _)
    (printable_oneVar (Or.inl rfl) (by decide) (by decide)) (by decide) (room_oneVar _ _)
  have hover : hexportR (oneVar [92, 92, 92, 92]) nul false 0 0 (fun _ ↦ false) = .overflow := by
    decide
  rw [hover] at hexp
  exact absurd hexp (by simp)

/-- With a newline as separator a value of a backslash and a newline survives. -/
theorem roundTrips_backslash_newline : RoundTrips (oneVar [92, 10]) (chr '\n') 0 none :=
  (roundTrips_iff (represents_oneVar _) (Or.inr rfl)
    (printable_oneVar (Or.inr rfl) (by decide) (by decide)) (by decide) (room_oneVar _ _)).mpr
    (Or.inl rfl)

end MiniPi.Env
