import MiniPi.Env.RoundTrip

/-!
# The items of a text

What `himport_r` reads does not depend on the table: the loop reads a list of items,
and acts on them in order.  `textItems` is the list, `runItems` the acting, and
`importLoop_eq` splits the loop into the two.
-/

namespace MiniPi.Env

/-- An assignment to the empty name, at which `himport_r` returns `0`. -/
def Item.stops : Item → Bool
  | .enter name _ => name.isEmpty
  | _ => false

/-- The items the loop of `himport_r` acts on, and whether it returns `0` after
them. -/
def textItems (sep : UInt8) (spare : ℕ) : ℕ → Str → Option (List Item × Bool)
  | 0, _ => none
  | fuel + 1, dp =>
      let (item, dp) := parseItem sep dp
      if item.stops then some ([], true)
      else if spare < dp.length ∧ peek dp ≠ nul then
        (textItems sep spare fuel dp).map (Prod.map (item :: ·) id)
      else some ([item], false)

/-- The acting parts of the rounds, in order. -/
def runItems (hooks : Hooks) : List Item → Import → Option Import
  | [], st => some st
  | item :: items, st =>
      match importItem hooks st item with
      | some (.next st) => runItems hooks items st
      | _ => none

section Reading

variable (sep : UInt8)

theorem length_parseValue (dp : Str) : (parseValue sep dp).2.length ≤ dp.length := by
  induction hn : dp.length using Nat.strong_induction_on generalizing dp with
  | _ n ih =>
      subst hn
      rcases dp with _ | ⟨c, dp⟩
      · exact le_rfl
      · rw [parseValue.eq_def]
        dsimp only
        split_ifs with hend hesc
        · exact le_rfl
        · rcases dp with _ | ⟨d, dp⟩
          · exact Nat.zero_le _
          · have := ih dp.length (by simp) dp rfl
            simp only [Prod.map_snd, id_eq, List.length_cons]
            omega
        · have := ih dp.length (by simp) dp rfl
          simp only [Prod.map_snd, id_eq, List.length_cons]
          omega

theorem length_parseItem (dp : Str) : (parseItem sep dp).2.length ≤ dp.length - 1 := by
  have hblank := (List.dropWhile_suffix isblank (l := dp)).length_le
  generalize hd : dp.dropWhile isblank = dp₁ at hblank
  have hname := (List.dropWhile_suffix (inName sep) (l := dp₁)).length_le
  have hcomment := (List.dropWhile_suffix (fun c ↦ c != nul && c != sep) (l := dp₁)).length_le
  have hvalue := length_parseValue sep (dp₁.dropWhile (inName sep)).tail
  simp only [parseItem, hd]
  split_ifs <;> simp only [List.length_tail] at * <;> omega

/-- Fuel for every byte is enough. -/
theorem exists_textItems (spare fuel : ℕ) (dp : Str) (h₁ : 1 ≤ fuel)
    (hlen : dp.length ≤ fuel) : ∃ r, textItems sep spare fuel dp = some r := by
  induction fuel generalizing dp with
  | zero => omega
  | succ fuel ih =>
      have hshort := length_parseItem sep dp
      rw [textItems]
      dsimp only
      split_ifs with hstop hgo
      · exact ⟨_, rfl⟩
      · obtain ⟨r, hr⟩ := ih (parseItem sep dp).2 (by omega) (by omega)
        exact ⟨_, by rw [hr]; rfl⟩
      · exact ⟨_, rfl⟩

/-- The item at which the import stops is not among the items. -/
theorem textItems_not_stops {spare : ℕ} (fuel : ℕ) {dp : Str} {r : List Item × Bool}
    (h : textItems sep spare fuel dp = some r) : ∀ item ∈ r.1, ¬item.stops = true := by
  induction fuel generalizing dp r with
  | zero => cases h
  | succ fuel ih =>
      rw [textItems] at h
      dsimp only at h
      split_ifs at h with hstop hgo
      · obtain rfl := Option.some.inj h
        exact fun item hi ↦ absurd hi List.not_mem_nil
      · obtain ⟨r', hr', rfl⟩ := Option.map_eq_some_iff.mp h
        intro item hi
        rcases List.mem_cons.mp hi with rfl | hi
        · exact hstop
        · exact ih hr' item hi
      · obtain rfl := Option.some.inj h
        intro item hi
        rwa [List.mem_singleton.mp hi]

end Reading

section Acting

variable {sep : UInt8} (hooks : Hooks) {spare : ℕ}

/-- How the loop ends after its items. -/
def endRound (stopped : Bool) (st : Import) : Round := if stopped then .stop st else .next st

theorem importItem_of_stops {item : Item} (h : item.stops = true) (st : Import) :
    importItem hooks st item = some (.stop st) := by
  cases item with
  | comment => cases h
  | delete name => cases h
  | enter name value =>
      have : name = [] := List.isEmpty_iff.mp h
      simp [importItem, this]

theorem importItem_ne_stop {item : Item} (h : ¬item.stops = true) (st st' : Import) :
    importItem hooks st item ≠ some (.stop st') := by
  cases item with
  | comment => simp [importItem]
  | delete name =>
      simp only [importItem]
      split_ifs <;> simp
  | enter name value =>
      have : name ≠ [] := fun hn ↦ h (List.isEmpty_iff.mpr hn)
      simp only [importItem, this, if_false]
      split_ifs <;> simp

/-- The loop reads the items and acts on them. -/
theorem importLoop_eq (fuel : ℕ) (dp : Str) (st : Import) :
    importLoop sep hooks spare fuel dp st = (textItems sep spare fuel dp).bind fun r ↦
      (runItems hooks r.1 st).map (endRound r.2) := by
  induction fuel generalizing dp st with
  | zero => rfl
  | succ fuel ih =>
      rw [importLoop, textItems]
      rcases hp : parseItem sep dp with ⟨item, dp'⟩
      dsimp only
      by_cases hstop : item.stops = true
      · rw [importItem_of_stops hooks hstop, if_pos hstop]
        rfl
      · rw [if_neg hstop]
        have hno := importItem_ne_stop hooks hstop st
        cases hi : importItem hooks st item with
        | none => split_ifs <;> cases textItems sep spare fuel dp' <;> simp [runItems, hi]
        | some r =>
            cases r with
            | stop st' => exact absurd hi (hno st')
            | next st' =>
                dsimp only
                split_ifs with hgo
                · rw [ih]
                  cases textItems sep spare fuel dp' <;> simp [runItems, hi]
                · simp [runItems, hi, endRound]

end Acting

/-! ## The whole text -/

/-- The copy `himport_r` reads and the size it takes for its length. -/
def copyText (crlf : Bool) (env : Str) : Str × ℕ :=
  if crlf then crlfIsLf env else (env ++ [nul], env.length)

/-- The items of a text, and whether `himport_r` returns after them without the final
deletions: at an empty name, or because the text is empty. -/
def readText (sep : UInt8) (crlf : Bool) (env : Str) : List Item × Bool :=
  if env.length = 0 then ([], true)
  else
    let (data, size) := copyText crlf env
    (textItems sep (data.length - size) data.length data).getD ([], true)

theorem length_copyText (crlf : Bool) (env : Str) : 1 ≤ (copyText crlf env).1.length := by
  cases crlf with
  | false => simp [copyText]
  | true =>
      simp only [copyText, crlfIsLf, if_true, List.length_append, List.length_drop,
        List.length_singleton]
      omega

theorem readText_not_stops (sep : UInt8) (crlf : Bool) (env : Str) :
    ∀ item ∈ (readText sep crlf env).1, ¬item.stops = true := by
  rw [readText]
  split_ifs
  · exact fun item hi ↦ absurd hi List.not_mem_nil
  · obtain ⟨r, hr⟩ := exists_textItems sep
      ((copyText crlf env).1.length - (copyText crlf env).2) _ _
      (length_copyText crlf env) le_rfl
    dsimp only
    rw [hr]
    exact textItems_not_stops sep _ hr

/-- The return value of `himport_r`, once a table is there. -/
def importResult (noclear : Bool) (hooks : Hooks) (read : List Item × Bool) (env : Str)
    (st : Import) : Option (Bool × Htab) :=
  match runItems hooks read.1 st with
  | none => none
  | some st =>
      if read.2 then some (decide (env = []), st.htab)
      else if noclear then some (true, st.htab)
      else (deleteUnseen hooks st.vars st.htab).map fun htab ↦ (true, htab)

/-- `himport_r` acts on the items of the text. -/
theorem himportR_eq_importResult {hooks : Hooks} {old : Option Htab} {env : Str} {sep : UInt8}
    {noclear crlf : Bool} {vars : List Str} {htab : Htab}
    (htable : (if noclear = false ∧ vars = [] then none else old).or
      (hcreateR (importEntries env.length)) = some htab) :
    himportR hooks old env sep noclear crlf vars =
      importResult noclear hooks (readText sep crlf env) env ⟨htab, vars.map some⟩ := by
  rw [himportR, htable]
  dsimp only
  by_cases hne : env.length = 0
  · have : env = [] := List.length_eq_zero_iff.mp hne
    simp [importResult, readText, runItems, this]
  · have hne' : env ≠ [] := fun h ↦ hne (List.length_eq_zero_iff.mpr h)
    obtain ⟨r, hr⟩ := exists_textItems sep
      ((copyText crlf env).1.length - (copyText crlf env).2) _ _
      (length_copyText crlf env) le_rfl
    rw [importResult, readText, if_neg hne, if_neg hne]
    simp only [copyText] at hr ⊢
    simp only [hr, importLoop_eq, Option.bind_some, Option.getD_some]
    cases hrun : runItems hooks r.1 ⟨htab, vars.map some⟩ with
    | none => rfl
    | some st =>
        cases hstop : r.2 with
        | true => simp [endRound, hne']
        | false => simp [endRound]

end MiniPi.Env
