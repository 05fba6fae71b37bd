import MiniPi.Env.Create

/-!
# Prefix enumeration

`hmatch_r` of `lib/hashtable.c`, and the loop in which `env_complete` calls it.  The
scan runs over the slots below `size`, while the search of `hsearch_r` also uses the
slot `size`: the one entry that slot may hold is never enumerated.
-/

open MiniPi.Lib

namespace MiniPi.Env

/-- The test of `hmatch_r` at a slot. -/
def hits (htab : Htab) (pre : Str) (idx : ℕ) : Bool :=
  decide (0 < (htab.node idx).used) && pre.isPrefixOf (htab.node idx).entry.key

/-- The loop of `hmatch_r`, from the slot `idx` on. -/
def hmatchLoop (htab : Htab) (pre : Str) : ℕ → ℕ → Option ℕ
  | 0, _ => none
  | fuel + 1, idx =>
      if idx < htab.size then
        if hits htab pre idx then some idx else hmatchLoop htab pre fuel (idx + 1)
      else none

/-- `hmatch_r`: the index it returns and `*retval`, or `none` when it returns `0`. -/
def hmatchR (htab : Htab) (pre : Str) (lastIdx : ℕ) : Option (ℕ × Entry) :=
  (hmatchLoop htab pre htab.size (lastIdx + 1)).map fun idx ↦ (idx, (htab.node idx).entry)

/-- The calls of `hmatch_r`, each with the index last returned, until one returns
`0`: the entries in the order they are met. -/
def hmatchAll (htab : Htab) (pre : Str) : ℕ → ℕ → Option (List Entry)
  | 0, _ => none
  | fuel + 1, lastIdx =>
      match hmatchR htab pre lastIdx with
      | none => some []
      | some (idx, entry) => (hmatchAll htab pre fuel idx).map (entry :: ·)

section Scan

variable {htab : Htab} {pre : Str} {idx : ℕ}

theorem hits_iff : hits htab pre idx ↔
    (htab.node idx).Live ∧ pre <+: (htab.node idx).entry.key := by
  rw [hits, Bool.and_eq_true, decide_eq_true_iff, List.isPrefixOf_iff_prefix]
  rfl

/-- The scan stops at the first hit below `size`. -/
theorem hmatchLoop_eq_some {fuel i : ℕ} (h : hmatchLoop htab pre fuel idx = some i) :
    idx ≤ i ∧ i < htab.size ∧ hits htab pre i ∧ ∀ j, idx ≤ j → j < i → ¬hits htab pre j := by
  induction fuel generalizing idx with
  | zero => exact absurd h (by simp [hmatchLoop])
  | succ fuel ih =>
      rw [hmatchLoop] at h
      split_ifs at h with hlt hhit
      · obtain rfl := Option.some.inj h
        exact ⟨le_rfl, hlt, hhit, fun j h₁ h₂ ↦ absurd h₂ (not_lt.mpr h₁)⟩
      · obtain ⟨h₁, h₂, h₃, h₄⟩ := ih h
        refine ⟨by omega, h₂, h₃, fun j hj hji ↦ ?_⟩
        rcases Nat.eq_or_lt_of_le hj with rfl | hj'
        · exact hhit
        · exact h₄ j hj' hji

/-- The scan fails only when no slot below `size` is a hit. -/
theorem hmatchLoop_eq_none {fuel : ℕ} (h : hmatchLoop htab pre fuel idx = none)
    (hfuel : htab.size ≤ idx + fuel) : ∀ j, idx ≤ j → j < htab.size → ¬hits htab pre j := by
  induction fuel generalizing idx with
  | zero =>
      intro j h₁ h₂
      omega
  | succ fuel ih =>
      rw [hmatchLoop] at h
      split_ifs at h with hlt hhit
      · intro j hj hjs
        rcases Nat.eq_or_lt_of_le hj with rfl | hj'
        · exact hhit
        · exact ih h (by omega) j hj' hjs
      · intro j h₁ h₂
        omega

/-- The loop of calls ends, and meets exactly the hits between the index it starts
with and `size`, each once. -/
theorem hmatchAll_spec (fuel : ℕ) (hidx : idx ≤ htab.size) (hfuel : htab.size < idx + fuel) :
    ∃ is : List ℕ, hmatchAll htab pre fuel idx = some (is.map fun i ↦ (htab.node i).entry) ∧
      is.Nodup ∧ ∀ i, i ∈ is ↔ idx < i ∧ i < htab.size ∧ hits htab pre i := by
  induction fuel generalizing idx with
  | zero => exact absurd hfuel (not_lt.mpr hidx)
  | succ fuel ih =>
      cases hm : hmatchLoop htab pre htab.size (idx + 1) with
      | none =>
          have hnone := hmatchLoop_eq_none hm (by omega)
          refine ⟨[], by simp [hmatchAll, hmatchR, hm], List.nodup_nil, fun i ↦ ?_⟩
          refine iff_of_false List.not_mem_nil ?_
          rintro ⟨h₁, h₂, h₃⟩
          exact hnone i h₁ h₂ h₃
      | some i =>
          obtain ⟨h₁, h₂, h₃, h₄⟩ := hmatchLoop_eq_some hm
          have hfuel' : htab.size < i + fuel := by omega
          obtain ⟨is, his, hnd, hmem⟩ := ih h₂.le hfuel'
          refine ⟨i :: is, by simp [hmatchAll, hmatchR, hm, his], ?_, fun j ↦ ?_⟩
          · refine List.nodup_cons.mpr ⟨fun hi ↦ ?_, hnd⟩
            exact lt_irrefl i ((hmem i).mp hi).1
          · rw [List.mem_cons, hmem]
            constructor
            · rintro (rfl | ⟨ha, hb, hc⟩)
              · exact ⟨h₁, h₂, h₃⟩
              · exact ⟨by omega, hb, hc⟩
            · rintro ⟨ha, hb, hc⟩
              rcases lt_trichotomy j i with hji | rfl | hij
              · exact absurd hc (h₄ j ha hji)
              · exact Or.inl rfl
              · exact Or.inr ⟨hij, hb, hc⟩

end Scan

/-- What an enumeration for `pre` should give: the bindings of the map whose name
starts with `pre`, each once. -/
def Complete (m : VarMap) (pre : Str) (es : List Entry) : Prop :=
  es.Nodup ∧ ∀ e, e ∈ es ↔ m e.key = some e.data ∧ pre <+: e.key

/-- The entry the scan cannot see: the one in the slot `size`. -/
def LastSlotHit (htab : Htab) (pre : Str) : Prop :=
  (htab.node htab.size).Live ∧ pre <+: (htab.node htab.size).entry.key

/-- The slots below `size` give the map's bindings for `pre` exactly when the slot
`size` holds none of them. -/
theorem Represents.complete_iff {htab : Htab} {m : VarMap} (h : Represents htab m) {pre : Str}
    {is : List ℕ} (hnd : is.Nodup)
    (hmem : ∀ i, i ∈ is ↔ 0 < i ∧ i < htab.size ∧ hits htab pre i) :
    Complete m pre (is.map fun i ↦ (htab.node i).entry) ↔ ¬LastSlotHit htab pre := by
  have hplace : ∀ i ∈ is, Cycle.Place htab.size i ∧ (htab.node i).Live := by
    intro i hi
    obtain ⟨h₁, h₂, h₃⟩ := (hmem i).mp hi
    exact ⟨⟨h₁, h₂.le⟩, (hits_iff.mp h₃).1⟩
  have hlast : Cycle.Place htab.size htab.size := ⟨by have := h.good.five_le; omega, le_rfl⟩
  constructor
  · rintro ⟨-, hall⟩ ⟨hlive, hpre⟩
    have hm := (h.stored _ (htab.node htab.size).entry.data).mpr ⟨_, hlast, hlive, rfl⟩
    obtain ⟨i, hi, heq⟩ := List.mem_map.mp ((hall (htab.node htab.size).entry).mpr ⟨hm, hpre⟩)
    have hkey := congrArg Entry.key heq
    have := h.unique i _ (hplace i hi).1 hlast (hplace i hi).2 hlive hkey
    have := ((hmem i).mp hi).2.1
    omega
  · intro hno
    refine ⟨hnd.map_on fun i hi j hj heq ↦ ?_, fun e ↦ ?_⟩
    · exact h.unique i j (hplace i hi).1 (hplace j hj).1 (hplace i hi).2 (hplace j hj).2
        (congrArg Entry.key heq)
    · rw [List.mem_map, h.stored]
      constructor
      · rintro ⟨i, hi, rfl⟩
        exact ⟨⟨i, (hplace i hi).1, (hplace i hi).2, rfl⟩, (hits_iff.mp ((hmem i).mp hi).2.2).2⟩
      · rintro ⟨⟨i, hi, hlive, heq⟩, hpre⟩
        have hpre' : pre <+: (htab.node i).entry.key := by rwa [heq]
        refine ⟨i, (hmem i).mpr ⟨hi.1, lt_of_le_of_ne hi.2 ?_, hits_iff.mpr ⟨hlive, hpre'⟩⟩, heq⟩
        rintro rfl
        exact hno ⟨hlive, hpre'⟩

/-- In a table for four entries or more, enumeration by prefix gives every entry with the prefix,
once, and no other, exactly when the slot `size` does not hold an entry with the prefix. -/
theorem hmatch_complete_iff {nel : ℕ} (h4 : 4 ≤ nel) (hlt : nel < 2 ^ 29) {htab₀ htab : Htab}
    {history : List (Call × Answer)} (hc : hcreateR nel = some htab₀)
    (hrun : Run Move htab₀ history htab) (pre : Str) :
    ∃ es, hmatchAll htab pre (htab.size + 1) 0 = some es ∧
      (Complete (VarMap.ofHistory history) pre es ↔ ¬LastSlotHit htab pre) := by
  obtain ⟨htab₁, hc₁, hg, -⟩ := hcreateR_spec nel h4 hlt
  obtain rfl := Option.some.inj (hc.symm.trans hc₁)
  obtain ⟨h, -⟩ := represents_run hrun (represents_hcreateR hc hg)
  have hfuel : htab.size < 0 + (htab.size + 1) := by omega
  obtain ⟨is, his, hnd, hmem⟩ := hmatchAll_spec (htab.size + 1) (Nat.zero_le _) hfuel
  exact ⟨_, his, h.complete_iff hnd hmem⟩

/-- The history in which `b=1`, `g=1` and `l=1` are entered, in this order: the
first hash of each is `4`. -/
def threeEnters : List (Call × Answer) :=
  [(.enter [98] [49] ⟨true, true⟩, .ok (some ⟨[98], [49]⟩)),
    (.enter [103] [49] ⟨true, true⟩, .ok (some ⟨[103], [49]⟩)),
    (.enter [108] [49] ⟨true, true⟩, .ok (some ⟨[108], [49]⟩))]

/-- The five slots after `threeEnters`: `l` is in the last one. -/
def threeEntered : Htab :=
  ⟨5, 3, [Node.zero, Node.zero, ⟨4, ⟨[103], [49]⟩⟩, Node.zero, ⟨4, ⟨[98], [49]⟩⟩,
    ⟨4, ⟨[108], [49]⟩⟩]⟩

theorem run_threeEnters :
    Run Move ⟨5, 0, List.replicate 6 Node.zero⟩ threeEnters threeEntered :=
  .cons (by rfl) (.cons (by rfl) (.cons (by rfl) (.nil _)))

/-- `b` is enumerated in that table: the slot `5` holds another name. -/
theorem hmatch_complete_iff_b :
    ∃ es, hmatchAll threeEntered [98] 6 0 = some es ∧
      Complete (VarMap.ofHistory threeEnters) [98] es := by
  have h4 : 4 ≤ 5 := by decide
  obtain ⟨es, hes, hiff⟩ := hmatch_complete_iff h4 (by decide) (by rfl) run_threeEnters [98]
  exact ⟨es, hes, hiff.mpr fun ⟨_, hpre⟩ ↦ absurd hpre (by decide)⟩

/-- `l` is found and is not enumerated. -/
theorem hmatch_misses_l :
    ∃ htab₀, hcreateR 5 = some htab₀ ∧ Run Move htab₀ threeEnters threeEntered ∧
      VarMap.ofHistory threeEnters [108] = some [49] ∧
      (Call.find [108]).run threeEntered = some (.ok (some ⟨[108], [49]⟩), threeEntered) ∧
      hmatchAll threeEntered [108] 6 0 = some [] ∧
      ¬Complete (VarMap.ofHistory threeEnters) [108] [] := by
  have hl : VarMap.ofHistory threeEnters [108] = some [49] := by decide
  refine ⟨_, rfl, run_threeEnters, hl, by rfl, by rfl, fun ⟨_, hall⟩ ↦ ?_⟩
  have hmem := (hall ⟨[108], [49]⟩).mpr ⟨hl, List.prefix_refl _⟩
  exact absurd hmem List.not_mem_nil

end MiniPi.Env
