import MiniPi.Lib.Run
import MiniPi.Env.HashTable
import Mathlib.Data.Set.Card

/-!
# The hash table as a finite map

`Represents htab m` relates a table to the map it stores.  Its heart is the field
`path`: the slots a search for a key passes before it meets the key are not free.
A search that stops at a free slot, or that has walked all slots, has therefore
shown that the key is absent, and this survives every change because no change
ever frees a slot.
-/

open MiniPi.Lib

namespace MiniPi.Env

/-! ## The path of a key -/

theorem place_firstHash {size : ℕ} (h : 5 ≤ size) (key : Str) :
    Cycle.Place size (firstHash size key) := by
  have := Nat.mod_lt (hashKey key) (show 0 < size by omega)
  unfold firstHash
  dsimp only
  split_ifs
  · constructor <;> omega
  · constructor <;> omega

theorem secondHash_lt {size : ℕ} (h : 5 ≤ size) (hval : ℕ) : secondHash size hval < size := by
  have := Nat.mod_lt hval (show 0 < size - 2 by omega)
  unfold secondHash
  omega

theorem coprime_secondHash {size : ℕ} (hp : size.Prime) (h : 5 ≤ size) (hval : ℕ) :
    (secondHash size hval).Coprime size := by
  refine (hp.coprime_iff_not_dvd.mpr fun hdvd ↦ ?_).symm
  have := Nat.le_of_dvd (by unfold secondHash; omega) hdvd
  have := secondHash_lt h hval
  omega

/-- The slot a search for `key` comes to after `n` moves. -/
def path (size : ℕ) (key : Str) (n : ℕ) : ℕ :=
  Cycle.walk size (secondHash size (firstHash size key)) (firstHash size key) n

theorem path_succ (size : ℕ) (key : Str) (n : ℕ) :
    Cycle.stepDown size (secondHash size (firstHash size key)) (path size key n) =
      path size key (n + 1) := rfl

/-- A size the search works for. -/
structure GoodSize (size : ℕ) : Prop where
  prime : size.Prime
  five_le : 5 ≤ size

namespace GoodSize

variable {size : ℕ} (h : GoodSize size) (key : Str)
include h

theorem place_path (n : ℕ) : Cycle.Place size (path size key n) :=
  Cycle.place_walk (secondHash_lt h.five_le _) (place_firstHash h.five_le key) n

theorem exists_path_eq {i : ℕ} (hi : Cycle.Place size i) : ∃ n < size, path size key n = i :=
  Cycle.exists_walk_eq (coprime_secondHash h.prime h.five_le _) (secondHash_lt h.five_le _)
    (place_firstHash h.five_le key) hi

theorem path_eq_start_iff {n : ℕ} (h₀ : 0 < n) (hn : n ≤ size) :
    path size key n = firstHash size key ↔ n = size :=
  Cycle.walk_eq_start_iff (coprime_secondHash h.prime h.five_le _) (secondHash_lt h.five_le _)
    (place_firstHash h.five_le key) h₀ hn

end GoodSize

/-! ## The search -/

theorem isEntry_iff {node : Node} {hval : ℕ} {key : Str} :
    isEntry node hval key = true ↔ node.used = hval ∧ key = node.entry.key := by
  simp [isEntry]

section Search

variable {htab : Htab} {key : Str}

/-- The first `n` slots on the path are in use or deleted, and none holds the key. -/
def Missed (htab : Htab) (key : Str) (n : ℕ) : Prop :=
  ∀ j < n, (htab.node (path htab.size key j)).used ≠ usedFree ∧
    isEntry (htab.node (path htab.size key j)) (firstHash htab.size key) key = false

/-- `fd` is a deleted slot among the first `n` on the path, or `0` if there is
none. -/
def NotesDeleted (htab : Htab) (key : Str) (n fd : ℕ) : Prop :=
  (fd = 0 ∧ ∀ j < n, (htab.node (path htab.size key j)).used ≠ usedDeleted) ∨
    ∃ j < n, fd = path htab.size key j ∧ (htab.node fd).used = usedDeleted

/-- What the search has established when it ends. -/
def ProbeSpec (htab : Htab) (key : Str) : Probe → Prop
  | .found idx => Cycle.Place htab.size idx ∧
      isEntry (htab.node idx) (firstHash htab.size key) key = true
  | .missing idx fd => ∃ n ≤ htab.size, idx = path htab.size key n ∧ Missed htab key n ∧
      NotesDeleted htab key n fd ∧ (n = htab.size ∨ (htab.node idx).used = usedFree)

theorem Missed.succ {n : ℕ} (h : Missed htab key n)
    (hu : (htab.node (path htab.size key n)).used ≠ usedFree)
    (he : isEntry (htab.node (path htab.size key n)) (firstHash htab.size key) key = false) :
    Missed htab key (n + 1) := by
  intro j hj
  rcases Nat.lt_succ_iff_lt_or_eq.mp hj with hj | rfl
  · exact h j hj
  · exact ⟨hu, he⟩

theorem NotesDeleted.succ {n fd : ℕ} (hpos : 0 < path htab.size key n)
    (h : NotesDeleted htab key n fd) :
    NotesDeleted htab key (n + 1)
      (noteDeleted (htab.node (path htab.size key n)) (path htab.size key n) fd) := by
  unfold noteDeleted
  split_ifs with hd
  · exact Or.inr ⟨n, n.lt_succ_self, rfl, hd.1⟩
  · rcases h with ⟨rfl, h⟩ | ⟨j, hj, rfl, h⟩
    · refine Or.inl ⟨rfl, fun j hj ↦ ?_⟩
      rcases Nat.lt_succ_iff_lt_or_eq.mp hj with hj | rfl
      · exact h j hj
      · exact fun hu ↦ hd ⟨hu, rfl⟩
    · exact Or.inr ⟨j, hj.trans n.lt_succ_self, rfl, h⟩

theorem noteDeleted_of_free {node : Node} (h : node.used = usedFree) (idx fd : ℕ) :
    noteDeleted node idx fd = fd := by
  unfold noteDeleted
  rw [if_neg]
  rintro ⟨hd, -⟩
  rw [h] at hd
  exact absurd hd (by decide)

theorem probeLoop_spec (hg : GoodSize htab.size) :
    ∀ (fuel n fd : ℕ), n < htab.size → htab.size ≤ n + fuel →
      Missed htab key (n + 1) → NotesDeleted htab key (n + 1) fd →
      ∃ r, probeLoop htab key (firstHash htab.size key)
          (secondHash htab.size (firstHash htab.size key)) fuel (path htab.size key n) fd = some r ∧
        ProbeSpec htab key r := by
  intro fuel
  induction fuel with
  | zero => intro n fd hn hf; omega
  | succ fuel ih =>
      intro n fd hn hf hm hd
      rw [probeLoop, path_succ]
      dsimp only
      split_ifs with hstart he hu
      · rw [hg.path_eq_start_iff key n.succ_pos hn] at hstart
        exact ⟨_, rfl, n + 1, hn, rfl, hm, hd, Or.inl hstart⟩
      · exact ⟨_, rfl, hg.place_path key (n + 1), he⟩
      · have hlt : n + 1 < htab.size := by
          rw [hg.path_eq_start_iff key n.succ_pos hn] at hstart
          omega
        exact ih (n + 1) _ hlt (by omega) (hm.succ hu (Bool.eq_false_of_not_eq_true he))
          (hd.succ (hg.place_path key (n + 1)).1)
      · rw [not_not] at hu
        refine ⟨_, rfl, n + 1, hn, rfl, hm, ?_, Or.inr hu⟩
        rwa [noteDeleted_of_free hu]

/-- The search always ends, and it ends with what `ProbeSpec` says. -/
theorem probe_spec (hg : GoodSize htab.size) (key : Str) :
    ∃ r, probe htab key = some r ∧ ProbeSpec htab key r := by
  unfold probe
  dsimp only
  split_ifs with hu he
  · exact ⟨_, rfl, hg.place_path key 0, he⟩
  · have hpos : 0 < path htab.size key 0 := (hg.place_path key 0).1
    have hm : Missed htab key 0 := fun j hj ↦ absurd hj (Nat.not_lt_zero j)
    have hd : NotesDeleted htab key 0 0 := Or.inl ⟨rfl, fun j hj ↦ absurd hj (Nat.not_lt_zero j)⟩
    exact probeLoop_spec hg htab.size 0 _ hg.prime.pos (by omega)
      (hm.succ hu (Bool.eq_false_of_not_eq_true he)) (hd.succ hpos)
  · rw [not_not] at hu
    refine ⟨_, rfl, 0, Nat.zero_le _, rfl, fun j hj ↦ absurd hj (Nat.not_lt_zero j), ?_,
      Or.inr hu⟩
    exact Or.inl ⟨rfl, fun j hj ↦ absurd hj (Nat.not_lt_zero j)⟩

end Search

/-! ## The map a table stores -/

/-- A finite map from names to values. -/
abbrev VarMap := Str → Option Str

/-- The names a map has a value for. -/
def VarMap.present (m : VarMap) : Set Str := {k | m k ≠ none}

/-- The map with a new value, or none, for one name. -/
def VarMap.set (m : VarMap) (k : Str) (v : Option Str) : VarMap := Function.update m k v

section VarMaps

variable {m : VarMap} {k k' : Str}

@[simp] theorem VarMap.set_self (v : Option Str) : m.set k v k = v := Function.update_self ..

theorem VarMap.set_of_ne (h : k' ≠ k) (v : Option Str) : m.set k v k' = m k' :=
  Function.update_of_ne h ..

theorem VarMap.set_eq_self : m.set k (m k) = m := Function.update_eq_self k m

theorem VarMap.set_set (v v' : Option Str) : (m.set k v).set k v' = m.set k v' :=
  Function.update_idem ..

theorem VarMap.mem_present : k ∈ m.present ↔ m k ≠ none := Iff.rfl

theorem VarMap.present_set_some (d : Str) : (m.set k (some d)).present = insert k m.present := by
  ext k'
  by_cases h : k' = k
  · subst h
    simp [VarMap.mem_present]
  · simp [VarMap.mem_present, VarMap.set_of_ne h, h]

theorem VarMap.present_set_none : (m.set k none).present = m.present \ {k} := by
  ext k'
  by_cases h : k' = k
  · subst h
    simp [VarMap.mem_present]
  · simp [VarMap.mem_present, VarMap.set_of_ne h, h]

end VarMaps

/-- A slot that holds an entry. -/
def Node.Live (node : Node) : Prop := 0 < node.used

/-- What holds of every table, whatever it stores. -/
structure WellFormed (htab : Htab) : Prop where
  /-- The search works for the size. -/
  good : GoodSize htab.size
  /-- There is one slot more than the size says. -/
  length : htab.table.length = htab.size + 1
  /-- A slot is free, deleted, or carries the first hash of its key. -/
  used : ∀ i, Cycle.Place htab.size i → (htab.node i).used = usedFree ∨
    (htab.node i).used = usedDeleted ∨
      (htab.node i).used = firstHash htab.size (htab.node i).entry.key
  /-- No key is in two slots. -/
  unique : ∀ i j, Cycle.Place htab.size i → Cycle.Place htab.size j → (htab.node i).Live →
    (htab.node j).Live → (htab.node i).entry.key = (htab.node j).entry.key → i = j
  /-- The slots on the path to a key are not free. -/
  path : ∀ i, Cycle.Place htab.size i → (htab.node i).Live →
    ∃ n < htab.size, path htab.size (htab.node i).entry.key n = i ∧
      ∀ j < n, (htab.node (path htab.size (htab.node i).entry.key j)).used ≠ usedFree

/-- The map has exactly the entries of the live slots. -/
def Stores (htab : Htab) (m : VarMap) : Prop :=
  ∀ k d, m k = some d ↔
    ∃ i, Cycle.Place htab.size i ∧ (htab.node i).Live ∧ (htab.node i).entry = ⟨k, d⟩

/-- The table is well formed, stores the map `m` and counts its names. -/
structure Represents (htab : Htab) (m : VarMap) : Prop extends WellFormed htab where
  /-- The map has exactly the entries of the live slots. -/
  stored : Stores htab m
  /-- `filled` counts the keys. -/
  filled : htab.filled = m.present.ncard

section Nodes

variable {htab : Htab} {i j : ℕ} {node : Node}

@[simp] theorem size_setNode : (htab.setNode i node).size = htab.size := rfl

theorem node_setNode_self (node : Node) (h : i < htab.table.length) :
    (htab.setNode i node).node i = node := by
  simp [Htab.node, Htab.setNode, h]

theorem node_setNode_ne {node : Node} (h : j ≠ i) : (htab.setNode i node).node j = htab.node j := by
  simp only [Htab.node, Htab.setNode, List.getD_eq_getElem?_getD, List.getElem?_set_ne h.symm]

theorem Node.live_of_isEntry {size : ℕ} (hs : 5 ≤ size) {key : Str}
    (h : isEntry node (firstHash size key) key = true) : node.Live := by
  rw [isEntry_iff] at h
  have := (place_firstHash hs key).1
  unfold Node.Live
  omega

/-- Overwriting the only slot that may hold the name `k` changes the map at `k`. -/
theorem Stores.setNode {m : VarMap} {k : Str} {v : Option Str} (h : Stores htab m)
    (hi : Cycle.Place htab.size i) (hlen : i < htab.table.length)
    (hother : ∀ j, Cycle.Place htab.size j → j ≠ i → (htab.node j).Live →
      (htab.node j).entry.key ≠ k)
    (hold : (htab.node i).Live → (htab.node i).entry.key = k)
    (hnew : node.Live ∧ (∃ d, node.entry = ⟨k, d⟩ ∧ v = some d) ∨ ¬node.Live ∧ v = none) :
    Stores (htab.setNode i node) (m.set k v) := by
  have hself := node_setNode_self node hlen
  intro k' d
  rw [size_setNode]
  by_cases hk : k' = k
  · subst hk
    rw [VarMap.set_self]
    constructor
    · rintro rfl
      obtain ⟨hl, d', he, hd⟩ := hnew.resolve_right fun hn ↦ by simp at hn
      exact ⟨i, hi, by rwa [hself], by rw [hself, he, Option.some.inj hd]⟩
    · rintro ⟨j, hj, hlj, he⟩
      by_cases hji : j = i
      · subst hji
        rw [hself] at hlj he
        obtain ⟨-, d', he', rfl⟩ := hnew.resolve_right fun hn ↦ hn.1 hlj
        rw [he] at he'
        rw [(Entry.mk.inj he').2]
      · rw [node_setNode_ne hji] at hlj he
        exact absurd (by rw [he]) (hother j hj hji hlj)
  · rw [VarMap.set_of_ne hk, h]
    refine exists_congr fun j ↦ and_congr_right fun hj ↦ ?_
    by_cases hji : j = i
    · subst hji
      rw [hself]
      refine iff_of_false (fun hc ↦ hk ?_) fun hc ↦ ?_
      · rw [← hold hc.1, hc.2]
      · obtain ⟨-, d', he', -⟩ := hnew.resolve_right fun hn ↦ hn.1 hc.1
        rw [hc.2] at he'
        exact hk (Entry.mk.inj he').1
    · rw [node_setNode_ne hji]

end Nodes

namespace WellFormed

variable {htab : Htab} (h : WellFormed htab)
include h

theorem used_eq_of_live {i : ℕ} (hi : Cycle.Place htab.size i) (hl : (htab.node i).Live) :
    (htab.node i).used = firstHash htab.size (htab.node i).entry.key := by
  unfold Node.Live at hl
  rcases h.used i hi with hu | hu | hu
  · rw [hu] at hl
    exact absurd hl (by decide)
  · rw [hu] at hl
    exact absurd hl (by decide)
  · exact hu

theorem lt_length {i : ℕ} (hi : Cycle.Place htab.size i) : i < htab.table.length := by
  rw [h.length]
  exact Nat.lt_succ_of_le hi.2

theorem withFilled (filled : ℕ) : WellFormed { htab with filled := filled } :=
  ⟨h.good, h.length, h.used, h.unique, h.path⟩

/-- A slot may be overwritten by a deleted one, or by an entry whose key is in no
other slot and whose path to this slot is not free. -/
theorem setNode {i : ℕ} (hi : Cycle.Place htab.size i) {node : Node}
    (hnode : node.used = usedDeleted ∨
      node.used = firstHash htab.size node.entry.key ∧
      (∃ n < htab.size, Env.path htab.size node.entry.key n = i ∧
        ∀ j < n, (htab.node (Env.path htab.size node.entry.key j)).used ≠ usedFree) ∧
      ∀ j, Cycle.Place htab.size j → (htab.node j).Live →
        (htab.node j).entry.key = node.entry.key → j = i) :
    WellFormed (htab.setNode i node) := by
  have hself := node_setNode_self node (h.lt_length hi)
  have hne {j : ℕ} (hj : j ≠ i) : (htab.setNode i node).node j = htab.node j :=
    node_setNode_ne hj
  have hnot : ¬node.Live ∨ node.used ≠ usedDeleted := by
    by_cases hd : node.used = usedDeleted
    · exact Or.inl fun hl ↦ absurd (hd ▸ hl : 0 < usedDeleted) (by decide)
    · exact Or.inr hd
  -- overwriting never frees a slot
  have hkeep : ∀ j, (htab.node j).used ≠ usedFree →
      ((htab.setNode i node).node j).used ≠ usedFree := by
    intro j hj
    by_cases hji : j = i
    · subst hji
      rw [hself]
      rcases hnode with hd | ⟨hu, -, -⟩
      · rw [hd]
        decide
      · have := (place_firstHash h.good.five_le node.entry.key).1
        rw [hu]
        simp only [usedFree]
        omega
    · rwa [hne hji]
  refine ⟨h.good, by simpa [Htab.setNode] using h.length, fun j hj ↦ ?_,
    fun j j' hj hj' hl hl' hk ↦ ?_, fun j hj hl ↦ ?_⟩
  · by_cases hji : j = i
    · subst hji
      rw [hself, size_setNode]
      exact Or.inr (hnode.imp id fun hn ↦ hn.1)
    · rw [hne hji]
      exact h.used j hj
  · by_cases hji : j = i
    · by_cases hji' : j' = i
      · rw [hji, hji']
      · rw [hji, hself] at hl hk
        rw [hne hji'] at hl' hk
        obtain ⟨-, -, hu⟩ := hnode.resolve_left (hnot.resolve_left (not_not.mpr hl))
        exact absurd (hu j' hj' hl' hk.symm) hji'
    · by_cases hji' : j' = i
      · rw [hji', hself] at hl' hk
        rw [hne hji] at hl hk
        obtain ⟨-, -, hu⟩ := hnode.resolve_left (hnot.resolve_left (not_not.mpr hl'))
        exact absurd (hu j hj hl hk) hji
      · rw [hne hji] at hl hk
        rw [hne hji'] at hl' hk
        exact h.unique j j' hj hj' hl hl' hk
  · by_cases hji : j = i
    · subst hji
      rw [hself] at hl ⊢
      obtain ⟨-, ⟨n, hn, hp, hfree⟩, -⟩ := hnode.resolve_left (hnot.resolve_left (not_not.mpr hl))
      exact ⟨n, hn, hp, fun a ha ↦ hkeep _ (hfree a ha)⟩
    · rw [hne hji] at hl ⊢
      obtain ⟨n, hn, hp, hfree⟩ := h.path j hj hl
      exact ⟨n, hn, hp, fun a ha ↦ hkeep _ (hfree a ha)⟩

end WellFormed

namespace Represents

variable {htab : Htab} {m : VarMap} (h : Represents htab m)
include h

theorem present_eq : m.present =
    (fun i ↦ (htab.node i).entry.key) '' {i | Cycle.Place htab.size i ∧ (htab.node i).Live} := by
  ext k
  simp only [VarMap.present, Set.mem_ofPred_eq, Option.ne_none_iff_exists', h.stored k _,
    Set.mem_image]
  constructor
  · rintro ⟨d, i, hi, hl, he⟩
    exact ⟨i, ⟨hi, hl⟩, by rw [he]⟩
  · rintro ⟨i, ⟨hi, hl⟩, rfl⟩
    exact ⟨_, i, hi, hl, rfl⟩

theorem finite_present : m.present.Finite := by
  rw [h.present_eq]
  refine Set.Finite.image _ (Set.Finite.subset (Set.finite_Icc 1 htab.size) ?_)
  exact fun i hi ↦ hi.1

theorem filled_eq_size_of_all_live (hall : ∀ i, Cycle.Place htab.size i → (htab.node i).Live) :
    htab.filled = htab.size := by
  rw [h.filled, h.present_eq, Set.InjOn.ncard_image]
  · have : {i | Cycle.Place htab.size i ∧ (htab.node i).Live} = ↑(Finset.Icc 1 htab.size) := by
      ext i
      simp only [Set.mem_ofPred_eq, Finset.coe_Icc, Set.mem_Icc]
      exact ⟨fun hi ↦ hi.1, fun hi ↦ ⟨hi, hall i hi⟩⟩
    rw [this, Set.ncard_coe_finset, Nat.card_Icc, Nat.add_sub_cancel]
  · exact fun i hi j hj hk ↦ h.unique i j hi.1 hj.1 hi.2 hj.2 hk

/-- A slot found holds the key with its value. -/
theorem of_found {key : Str} {idx : ℕ} (hs : ProbeSpec htab key (.found idx)) :
    Cycle.Place htab.size idx ∧ (htab.node idx).Live ∧
      (htab.node idx).entry = ⟨key, (htab.node idx).entry.data⟩ ∧
      m key = some (htab.node idx).entry.data := by
  obtain ⟨hi, he⟩ := hs
  have hl := Node.live_of_isEntry h.good.five_le he
  have hentry : (htab.node idx).entry = ⟨key, (htab.node idx).entry.data⟩ := by
    rw [(isEntry_iff.mp he).2]
  exact ⟨hi, hl, hentry, (h.stored _ _).mpr ⟨idx, hi, hl, hentry⟩⟩

theorem of_missing {key : Str} {idx fd : ℕ} (hs : ProbeSpec htab key (.missing idx fd)) :
    m key = none := by
  obtain ⟨n, hn, rfl, hm, -, hend⟩ := hs
  by_contra hne
  obtain ⟨d, hd⟩ := Option.ne_none_iff_exists'.mp hne
  obtain ⟨i, hi, hl, he⟩ := (h.stored _ _).mp hd
  have hu := h.used_eq_of_live hi hl
  obtain ⟨n₀, hn₀, hpath, hfree⟩ := h.path i hi hl
  rw [he] at hu hpath hfree
  dsimp only at hu hpath hfree
  -- the place of the key on its path against the place where the search stopped
  rcases Nat.lt_trichotomy n₀ n with hlt | rfl | hgt
  · have hmiss := (hm n₀ hlt).2
    rw [hpath, Bool.eq_false_iff] at hmiss
    exact hmiss (isEntry_iff.mpr ⟨hu, by rw [he]⟩)
  · rcases hend with hend | hend
    · omega
    · rw [hpath] at hend
      rw [Node.Live, hend] at hl
      exact absurd hl (by decide)
  · rcases hend with hend | hend
    · omega
    · exact hfree n hgt hend

/-- The slot a new entry goes to is not live, and the path to it is not free. -/
theorem target_of_missing {key : Str} {idx fd : ℕ} (hs : ProbeSpec htab key (.missing idx fd))
    (hfull : htab.filled ≠ htab.size) :
    ∃ n < htab.size, (if fd ≠ 0 then fd else idx) = Env.path htab.size key n ∧
      ¬(htab.node (Env.path htab.size key n)).Live ∧
      ∀ j < n, (htab.node (Env.path htab.size key j)).used ≠ usedFree := by
  obtain ⟨n, hn, rfl, hm, hd, hend⟩ := hs
  rcases hd with ⟨rfl, hd⟩ | ⟨j, hj, rfl, hd⟩
  · rw [if_neg (by simp)]
    rcases hend with rfl | hend
    · -- every slot was seen, and none was free or deleted
      refine absurd (h.filled_eq_size_of_all_live fun i hi ↦ ?_) hfull
      obtain ⟨j, hj, rfl⟩ := h.good.exists_path_eq key hi
      rcases h.used _ hi with hu | hu | hu
      · exact absurd hu (hm j hj).1
      · exact absurd hu (hd j hj)
      · have := (place_firstHash h.good.five_le
          (htab.node (Env.path htab.size key j)).entry.key).1
        unfold Node.Live
        omega
    · have hlt : n < htab.size := by
        refine lt_of_le_of_ne hn fun hns ↦ ?_
        have hpos := h.good.prime.pos
        have hback : Env.path htab.size key n = Env.path htab.size key 0 :=
          (h.good.path_eq_start_iff key (by omega) hn).mpr hns
        exact (hm 0 (by omega)).1 (hback ▸ hend)
      refine ⟨n, hlt, rfl, fun hl ↦ ?_, fun j hj ↦ (hm j hj).1⟩
      rw [Node.Live, hend] at hl
      exact absurd hl (by decide)
  · have hpos := (h.good.place_path key j).1
    refine ⟨j, hj.trans_le hn, if_pos (by omega), fun hl ↦ ?_, fun j' hj' ↦ (hm j' (by omega)).1⟩
    rw [Node.Live, hd] at hl
    exact absurd hl (by decide)

/-! ### The three changes -/

/-- A new entry. -/
theorem create {key : Str} (data : Str) {i n : ℕ} (hk : m key = none) (hn : n < htab.size)
    (hi : Env.path htab.size key n = i) (hl : ¬(htab.node i).Live)
    (hfree : ∀ j < n, (htab.node (Env.path htab.size key j)).used ≠ usedFree) :
    Represents { htab.setNode i ⟨firstHash htab.size key, ⟨key, data⟩⟩ with
      filled := htab.filled + 1 } (m.set key (some data)) := by
  have hplace : Cycle.Place htab.size i := hi ▸ h.good.place_path key n
  have hpos := (place_firstHash h.good.five_le key).1
  have habsent : ∀ j, Cycle.Place htab.size j → (htab.node j).Live →
      (htab.node j).entry.key ≠ key := by
    rintro j hj hlj rfl
    have := (h.stored _ _).mpr ⟨j, hj, hlj, rfl⟩
    rw [hk] at this
    exact absurd this (by simp)
  have hwf : WellFormed (htab.setNode i ⟨firstHash htab.size key, ⟨key, data⟩⟩) :=
    h.setNode hplace (Or.inr ⟨rfl, ⟨n, hn, hi, hfree⟩,
      fun j hj hlj hkj ↦ absurd hkj (habsent j hj hlj)⟩)
  have hst : Stores (htab.setNode i ⟨firstHash htab.size key, ⟨key, data⟩⟩)
      (m.set key (some data)) :=
    h.stored.setNode hplace (h.lt_length hplace) (fun j hj _ ↦ habsent j hj)
      (fun hlive ↦ absurd hlive hl) (Or.inl ⟨Int.natCast_pos.mpr hpos, data, rfl, rfl⟩)
  refine ⟨hwf.withFilled _, hst, ?_⟩
  rw [VarMap.present_set_some, Set.ncard_insert_of_notMem _ h.finite_present, ← h.filled]
  rwa [VarMap.mem_present, not_not]

/-- A new value for an entry. -/
theorem overwrite {key : Str} (data : Str) {i : ℕ} (hi : Cycle.Place htab.size i)
    (hl : (htab.node i).Live) (hkey : (htab.node i).entry.key = key) :
    Represents (htab.setNode i ⟨(htab.node i).used, ⟨key, data⟩⟩) (m.set key (some data)) := by
  have hpath := h.path i hi hl
  have hused := h.used_eq_of_live hi hl
  have hunique : ∀ j, Cycle.Place htab.size j → (htab.node j).Live →
      (htab.node j).entry.key = key → j = i :=
    fun j hj hlj hkj ↦ h.unique j i hj hi hlj hl (hkj.trans hkey.symm)
  rw [hkey] at hpath hused
  refine ⟨h.setNode hi (Or.inr ⟨hused, hpath, hunique⟩), ?_, ?_⟩
  · exact h.stored.setNode hi (h.lt_length hi) (fun j hj hji hlj hkj ↦ hji (hunique j hj hlj hkj))
      (fun _ ↦ hkey) (Or.inl ⟨hl, data, rfl, rfl⟩)
  · have hmem : key ∈ m.present := by
      rw [h.present_eq]
      exact ⟨i, ⟨hi, hl⟩, hkey⟩
    rw [VarMap.present_set_some, Set.insert_eq_of_mem hmem, ← h.filled]
    rfl

/-- An entry deleted. -/
theorem delete {key : Str} {i : ℕ} (hi : Cycle.Place htab.size i) (hl : (htab.node i).Live)
    (hkey : (htab.node i).entry.key = key) :
    Represents (hdelete htab i) (m.set key none) := by
  have hst : Stores (htab.setNode i ⟨usedDeleted, (htab.node i).entry⟩) (m.set key none) :=
    h.stored.setNode hi (h.lt_length hi)
      (fun j hj hji hlj hkj ↦ hji (h.unique j i hj hi hlj hl (hkj.trans hkey.symm)))
      (fun _ ↦ hkey) (Or.inr ⟨by simp [Node.Live, usedDeleted], rfl⟩)
  refine ⟨(h.setNode hi (Or.inl rfl)).withFilled _, hst, ?_⟩
  have hmem : key ∈ m.present := by
    rw [h.present_eq]
    exact ⟨i, ⟨hi, hl⟩, hkey⟩
  rw [VarMap.present_set_none, Set.ncard_sdiff_singleton_of_mem hmem, ← h.filled]
  rfl

end Represents

/-! ## Calls -/

/-- A call of the table's interface. -/
inductive Call where
  /-- `hsearch_r` with `ENV_FIND`. -/
  | find (key : Str)
  /-- `hsearch_r` with `ENV_ENTER`, data, and the answers of the hooks. -/
  | enter (key data : Str) (verdict : Verdict)
  /-- `hdelete_r`, and the answers of the hooks. -/
  | delete (key : Str) (verdict : Verdict)
deriving DecidableEq, Repr

/-- What a call returns: an error, or the entry that `*retval` points to, if any. -/
abbrev Answer := Except Errno (Option Entry)

/-- The answer of a call and the table afterwards. -/
def Call.run (htab : Htab) : Call → Option (Answer × Htab)
  | .find key => (hsearchR htab key .find).map (Prod.map (Except.map (some ∘ Prod.snd)) id)
  | .enter key data verdict =>
      (hsearchR htab key (.enter data verdict)).map (Prod.map (Except.map (some ∘ Prod.snd)) id)
  | .delete key verdict => (hdeleteR htab key verdict).map (Prod.map (Except.map fun _ ↦ none) id)

/-- The map after a call was answered: a successful `ENV_ENTER` sets the value, a
successful `hdelete_r` removes it, and everything else leaves the map alone. -/
def VarMap.after (m : VarMap) : Call × Answer → VarMap
  | (.enter key data _, .ok _) => m.set key (some data)
  | (.delete key _, .ok _) => m.set key none
  | _ => m

open Classical in
/-- The answer a finite map with room for `size` names gives. -/
noncomputable def VarMap.answer (m : VarMap) (size : ℕ) : Call → Answer
  | .find key =>
      match m key with
      | some data => .ok (some ⟨key, data⟩)
      | none => .error .esrch
  | .enter key data verdict =>
      if m key = none ∧ m.present.ncard = size then .error .enomem
      else
        match verdict.errno with
        | some errno => .error errno
        | none => .ok (some ⟨key, data⟩)
  | .delete key verdict =>
      if m key = none then .error .esrch
      else
        match verdict.errno with
        | some errno => .error errno
        | none => .ok none

section Calls

variable {htab : Htab} {m : VarMap}

/-- A call answers as the map does and leaves a table that stores the map
afterwards. -/
def Simulates (htab : Htab) (m : VarMap) (call : Call) (htab' : Htab) : Prop :=
  call.run htab = some (m.answer htab.size call, htab') ∧ htab'.size = htab.size ∧
    Represents htab' (m.after (call, m.answer htab.size call))

theorem simulates_find (h : Represents htab m) (key : Str) :
    Simulates htab m (.find key) htab := by
  obtain ⟨r, hr, hspec⟩ := probe_spec h.good key
  cases r with
  | found idx =>
      obtain ⟨-, -, he, hm⟩ := h.of_found hspec
      refine ⟨?_, rfl, by simpa [VarMap.after] using h⟩
      simp only [Call.run, hsearchR, hr, overwriteEntry, VarMap.answer, hm]
      simp [Except.map, ← he]
  | missing idx fd =>
      have hm := h.of_missing hspec
      refine ⟨?_, rfl, by simpa [VarMap.after] using h⟩
      simp [Call.run, hsearchR, hr, VarMap.answer, hm, Except.map]

theorem simulates_enter (h : Represents htab m) (key data : Str) (verdict : Verdict) :
    ∃ htab', Simulates htab m (.enter key data verdict) htab' := by
  obtain ⟨r, hr, hspec⟩ := probe_spec h.good key
  cases r with
  | found idx =>
      obtain ⟨hi, hl, he, hm⟩ := h.of_found hspec
      have hkey : (htab.node idx).entry.key = key := by rw [he]
      cases hv : verdict.errno with
      | some errno =>
          refine ⟨htab, ?_, rfl, ?_⟩
          · simp [Call.run, hsearchR, hr, overwriteEntry, VarMap.answer, hm, hv, Except.map]
          · simpa [VarMap.answer, hm, hv, VarMap.after] using h
      | none =>
          refine ⟨htab.setNode idx ⟨(htab.node idx).used, ⟨key, data⟩⟩, ?_, rfl, ?_⟩
          · simp [Call.run, hsearchR, hr, overwriteEntry, VarMap.answer, hm, hv, Except.map, hkey]
          · simpa [VarMap.answer, hm, hv, VarMap.after] using h.overwrite data hi hl hkey
  | missing idx fd =>
      have hm := h.of_missing hspec
      by_cases hfull : htab.filled = htab.size
      · have hcard : m.present.ncard = htab.size := by rw [← h.filled, hfull]
        refine ⟨htab, ?_, rfl, ?_⟩
        · simp [Call.run, hsearchR, hr, hfull, VarMap.answer, hm, hcard, Except.map]
        · simpa [VarMap.answer, hm, hcard, VarMap.after] using h
      · have hcard : m.present.ncard ≠ htab.size := by rwa [← h.filled]
        obtain ⟨n, hn, htarget, hl, hfree⟩ := h.target_of_missing hspec hfull
        have hi := h.good.place_path key n
        have hnew := h.create data hm hn rfl hl hfree
        cases hv : verdict.errno with
        | some errno =>
            -- the entry is created and then deleted again
            have hself := node_setNode_self ⟨firstHash htab.size key, ⟨key, data⟩⟩
              (h.lt_length hi)
            have hpos := (place_firstHash h.good.five_le key).1
            have hundo := hnew.delete hi
              (show ((htab.setNode _ _).node _).Live by
                rw [hself]; exact Int.natCast_pos.mpr hpos)
              (show ((htab.setNode _ _).node _).entry.key = key by rw [hself])
            rw [VarMap.set_set, ← hm, VarMap.set_eq_self] at hundo
            refine ⟨_, ?_, ?_, by simpa [VarMap.answer, hm, hcard, hv, VarMap.after] using hundo⟩
            · simp [Call.run, hsearchR, hr, hfull, VarMap.answer, hm, hcard, hv, htarget,
                createEntry, Except.map]
            · rfl
        | none =>
            refine ⟨_, ?_, ?_, by simpa [VarMap.answer, hm, hcard, hv, VarMap.after] using hnew⟩
            · simp [Call.run, hsearchR, hr, hfull, VarMap.answer, hm, hcard, hv, htarget,
                createEntry, Except.map]
            · rfl

theorem simulates_delete (h : Represents htab m) (key : Str) (verdict : Verdict) :
    ∃ htab', Simulates htab m (.delete key verdict) htab' := by
  obtain ⟨r, hr, hspec⟩ := probe_spec h.good key
  cases r with
  | found idx =>
      obtain ⟨hi, hl, he, hm⟩ := h.of_found hspec
      have hkey : (htab.node idx).entry.key = key := by rw [he]
      cases hv : verdict.errno with
      | some errno =>
          refine ⟨htab, ?_, rfl, ?_⟩
          · simp [Call.run, hdeleteR, hsearchR, hr, overwriteEntry, VarMap.answer, hm, hv,
              Except.map]
          · simpa [VarMap.answer, hm, hv, VarMap.after] using h
      | none =>
          refine ⟨hdelete htab idx, ?_, rfl, ?_⟩
          · simp [Call.run, hdeleteR, hsearchR, hr, overwriteEntry, VarMap.answer, hm, hv,
              Except.map]
          · simpa [VarMap.answer, hm, hv, VarMap.after] using h.delete hi hl hkey
  | missing idx fd =>
      have hm := h.of_missing hspec
      refine ⟨htab, ?_, rfl, ?_⟩
      · simp [Call.run, hdeleteR, hsearchR, hr, VarMap.answer, hm, Except.map]
      · simpa [VarMap.answer, hm, VarMap.after] using h

/-- Every call returns, and it answers and acts as the map does. -/
theorem simulates_call (h : Represents htab m) (call : Call) :
    ∃ htab', Simulates htab m call htab' := by
  cases call with
  | find key => exact ⟨htab, simulates_find h key⟩
  | enter key data verdict => exact simulates_enter h key data verdict
  | delete key verdict => exact simulates_delete h key verdict

end Calls

/-! ## Runs -/

/-- A call together with its answer is a move of the table. -/
def Move (htab : Htab) (event : Call × Answer) (htab' : Htab) : Prop :=
  event.1.run htab = some (event.2, htab')

/-- The map a history of answered calls leaves behind: for every name the value of
the last successful `ENV_ENTER`, unless a successful `hdelete_r` came after it. -/
def VarMap.ofHistory (history : List (Call × Answer)) : VarMap :=
  history.foldl VarMap.after fun _ ↦ none

theorem represents_run {htab htab' : Htab} {history : List (Call × Answer)}
    (hrun : Run Move htab history htab') {m : VarMap} (h : Represents htab m) :
    Represents htab' (history.foldl VarMap.after m) ∧ htab'.size = htab.size := by
  induction hrun generalizing m with
  | nil _ => exact ⟨h, rfl⟩
  | cons hmove _ ih =>
      obtain ⟨htab₁, hcall, hsize, hrep⟩ := simulates_call h _
      rw [hmove, Option.some.injEq, Prod.mk.injEq] at hcall
      obtain ⟨hans, rfl⟩ := hcall
      rw [← hans] at hrep
      obtain ⟨h₁, h₂⟩ := ih hrep
      exact ⟨h₁, h₂.trans hsize⟩

theorem represents_hcreateR {nel : ℕ} {htab : Htab} (hc : hcreateR nel = some htab)
    (hg : GoodSize htab.size) : Represents htab fun _ ↦ none := by
  obtain ⟨size, -, rfl⟩ := Option.map_eq_some_iff.mp hc
  have hzero : ∀ i, Htab.node ⟨size, 0, List.replicate (size + 1) Node.zero⟩ i = Node.zero := by
    intro i
    simp only [Htab.node, List.getD_eq_getElem?_getD, List.getElem?_replicate]
    split_ifs <;> rfl
  have hdead : ¬Node.zero.Live := by simp [Node.Live, Node.zero, usedFree]
  refine ⟨⟨hg, by simp, fun i _ ↦ Or.inl (by rw [hzero]; rfl), fun i j _ _ hl ↦ ?_,
    fun i _ hl ↦ ?_⟩, fun k d ↦ iff_of_false (by simp) ?_, ?_⟩
  · exact absurd (hzero i ▸ hl) hdead
  · exact absurd (hzero i ▸ hl) hdead
  · rintro ⟨i, -, hl, -⟩
    exact absurd (hzero i ▸ hl) hdead
  · simp [VarMap.present]

/-- The table is a finite map.  In every state a table with a prime size of at
least five reaches, `ENV_FIND` finds exactly the names last entered and not deleted
since, with the value last accepted; a call that fails leaves every value as it
was; `ENV_ENTER` of an absent name fails with `ENOMEM` exactly when `size` names
are present; `filled` counts the names; and no name is in two slots. -/
theorem hashtable_is_map {nel : ℕ} {htab₀ htab : Htab} {history : List (Call × Answer)}
    (hc : hcreateR nel = some htab₀) (hp : htab₀.size.Prime) (hs : 5 ≤ htab₀.size)
    (hrun : Run Move htab₀ history htab) :
    (∀ call : Call, ∃ htab', call.run htab =
      some ((VarMap.ofHistory history).answer htab₀.size call, htab')) ∧
    (∀ key, (Call.find key).run htab = some (match VarMap.ofHistory history key with
      | some data => .ok (some ⟨key, data⟩)
      | none => .error .esrch, htab)) ∧
    (∀ (call : Call) errno htab', call.run htab = some (.error errno, htab') →
      ∀ key, ((Call.find key).run htab').map Prod.fst = ((Call.find key).run htab).map Prod.fst) ∧
    (∀ key data verdict, VarMap.ofHistory history key = none →
      ((∃ htab', (Call.enter key data verdict).run htab = some (.error .enomem, htab')) ↔
        (VarMap.ofHistory history).present.ncard = htab₀.size)) ∧
    htab.filled = (VarMap.ofHistory history).present.ncard ∧
    (∀ i j, Cycle.Place htab.size i → Cycle.Place htab.size j → (htab.node i).Live →
      (htab.node j).Live → (htab.node i).entry.key = (htab.node j).entry.key → i = j) := by
  obtain ⟨h, hsize⟩ := represents_run hrun (represents_hcreateR hc ⟨hp, hs⟩)
  change Represents htab (VarMap.ofHistory history) at h
  generalize VarMap.ofHistory history = m at h ⊢
  rw [← hsize]
  refine ⟨fun call ↦ ?_, fun key ↦ (simulates_find h key).1, fun call errno htab' hcall key ↦ ?_,
    fun key data verdict hm ↦ ?_, h.filled, h.unique⟩
  · obtain ⟨htab', hsim⟩ := simulates_call h call
    exact ⟨htab', hsim.1⟩
  · obtain ⟨htab'', hans, -, hrep⟩ := simulates_call h call
    rw [hcall, Option.some.injEq, Prod.mk.injEq] at hans
    obtain ⟨hans, rfl⟩ := hans
    rw [← hans] at hrep
    have hsame : m.after (call, .error errno) = m := by cases call <;> rfl
    rw [hsame] at hrep
    rw [(simulates_find h key).1, (simulates_find hrep key).1]
    rfl
  · obtain ⟨htab', hans, -, -⟩ := simulates_call h (.enter key data verdict)
    rw [hans]
    constructor
    · rintro ⟨_, hcall⟩
      by_contra hcard
      simp only [VarMap.answer, hm, hcard, and_false, if_false, Option.some.injEq,
        Prod.mk.injEq] at hcall
      rcases verdict with ⟨_ | _, _ | _⟩ <;> simp [Verdict.errno] at hcall
    · intro hcard
      exact ⟨htab', by simp [VarMap.answer, hm, hcard]⟩

/-- A table of five slots in which `a=1` is accepted and `b=2` is refused: `a` is
found, and `b` is not. -/
theorem hashtable_is_map_five :
    ∃ htab₀ htab, hcreateR 5 = some htab₀ ∧
      Run Move htab₀ [(.enter [97] [49] ⟨true, true⟩, .ok (some ⟨[97], [49]⟩)),
        (.enter [98] [50] ⟨false, true⟩, .error .eperm)] htab ∧
      (Call.find [97]).run htab = some (.ok (some ⟨[97], [49]⟩), htab) ∧
      (Call.find [98]).run htab = some (.error .esrch, htab) := by
  have hrun : Run Move ⟨5, 0, List.replicate 6 Node.zero⟩
      [(.enter [97] [49] ⟨true, true⟩, .ok (some ⟨[97], [49]⟩)),
        (.enter [98] [50] ⟨false, true⟩, .error .eperm)]
      ⟨5, 1, [Node.zero, Node.zero, Node.zero, ⟨3, ⟨[97], [49]⟩⟩, ⟨-1, ⟨[98], [50]⟩⟩, Node.zero]⟩ :=
    .cons (by rfl) (.cons (by rfl) (.nil _))
  obtain ⟨-, hfind, -⟩ := hashtable_is_map (show hcreateR 5 = _ by rfl) (by decide) le_rfl hrun
  exact ⟨_, _, rfl, hrun, hfind [97], hfind [98]⟩

end MiniPi.Env
