import MiniPi.Vlist.Tree

/-!
# Update cycles

After `vlist_update`, calls of `vlist_add` and `vlist_flush` the tree holds what was added, and the
callback has been told of the difference.
-/

namespace MiniPi.Vlist

variable {κ : Type} [LinearOrder κ]

/-! ## What a cycle should do -/

/-- The last of the added nodes for a key. -/
def lastAdded (adds : List (Node κ)) (key : κ) : Option (Node κ) :=
  adds.reverse.find? fun n ↦ n.key = key

/-- The node that an added node replaces: the last one that was added before for its key, or the old
one. -/
def replaced (old adds : List (Node κ)) (key : κ) : Option (Node κ) :=
  (lastAdded adds key).or (old.find? fun n ↦ n.key = key)

/-- The calls for the nodes that are added. -/
def addCalls (old : List (Node κ)) : List (Node κ) → List (Node κ) → List (Call κ)
  | _, [] => []
  | before, n :: adds => (some n, replaced old before n.key) :: addCalls old (before ++ [n]) adds

/-- The old nodes whose keys are not added again. -/
def dropped (old adds : List (Node κ)) : List (Node κ) :=
  old.filter fun n ↦ (lastAdded adds n.key).isNone

/-- The tree holds the last node that was added for each key, and the callback was called once for
each added node, with the node that it replaced, and once for each dropped node. -/
structure Updated {A : Avl κ} (t t' : VlistTree A) (adds : List (Node κ)) : Prop where
  mem : ∀ n, n ∈ t'.nodes ↔ lastAdded adds n.key = some n
  unique : (t'.nodes.map Node.key).Nodup
  calls : t'.calls = t.calls ++ addCalls t.nodes [] adds ++
    (dropped t.nodes adds).map fun n ↦ (none, some n)

section LastAdded

variable {adds : List (Node κ)} {n : Node κ} {key : κ}

theorem lastAdded_concat :
    lastAdded (adds ++ [n]) key = if n.key = key then some n else lastAdded adds key := by
  rw [lastAdded, List.reverse_concat, List.find?_cons]
  by_cases hkey : n.key = key <;> simp [hkey, lastAdded]

theorem mem_of_lastAdded (h : lastAdded adds key = some n) : n ∈ adds ∧ n.key = key :=
  ⟨List.mem_reverse.mp (List.mem_of_find?_eq_some h), by simpa using List.find?_some h⟩

end LastAdded

/-! ## Adding -/

section Adding

variable {A : Avl κ} {Ok : A.Tree → Prop} {t t₀ : VlistTree A} {adds : List (Node κ)} {n : Node κ}

/-- The state in a cycle that started in `t₀`, after the given nodes are added. -/
structure Adding (Ok : A.Tree → Prop) (t₀ : VlistTree A) (adds : List (Node κ)) (t : VlistTree A) :
    Prop where
  ok : Ok t.avl
  keepOld : t.keepOld = false
  noDelete : t.noDelete = false
  version : t.version = t₀.version + 1
  mem : ∀ n, n ∈ t.nodes ↔ replaced t₀.nodes adds n.key = some n
  added : ∀ n ∈ adds, t.versions n.addr = t.version
  old : ∀ n ∈ t₀.nodes, t.versions n.addr = t₀.versions n.addr
  calls : t.calls = t₀.calls ++ addCalls t₀.nodes [] adds

theorem addCalls_concat (old before adds : List (Node κ)) (n : Node κ) :
    addCalls old before (adds ++ [n]) =
      addCalls old before adds ++ [(some n, replaced old (before ++ adds) n.key)] := by
  induction adds generalizing before with
  | nil => simp [addCalls]
  | cons a adds ih => simp [addCalls, ih]

theorem replaced_concat {old : List (Node κ)} {key : κ} : replaced old (adds ++ [n]) key =
    if n.key = key then some n else replaced old adds key := by
  rw [replaced, lastAdded_concat]
  by_cases hkey : n.key = key <;> simp [hkey, replaced]

theorem key_of_replaced {old : List (Node κ)} {key : κ} (h : replaced old adds key = some n) :
    n.key = key := by
  rw [replaced, Option.or_eq_some_iff] at h
  obtain h | ⟨-, h⟩ := h
  · exact (mem_of_lastAdded h).2
  · simpa using List.find?_some h

theorem Adding.find (hA : A.Lawful Ok) (h : Adding Ok t₀ adds t) (key : κ) :
    A.find t.avl key = replaced t₀.nodes adds key := by
  rw [hA.find _ _ h.ok]
  ext m
  rw [Sorted.find?_eq_some_iff (hA.sorted _ h.ok)]
  constructor
  · rintro ⟨hmem, rfl⟩
    exact (h.mem m).mp hmem
  · intro hrep
    have hkey := key_of_replaced hrep
    exact ⟨(h.mem m).mpr (hkey ▸ hrep), hkey⟩

/-- The state after a fresh node is added, with any tree that holds the right nodes. -/
theorem Adding.insert (h : Adding Ok t₀ adds t) {avl : A.Tree} (hok : Ok avl)
    (hmem : ∀ n', n' ∈ A.list avl ↔ n' = n ∨ n' ∈ t.nodes ∧ n'.key ≠ n.key)
    (hfresh : n.addr ∉ t₀.nodes.map Node.addr) :
    Adding Ok t₀ (adds ++ [n]) (VlistTree.update
      { t with versions := Function.update t.versions n.addr t.version, avl := avl } (some n)
        (replaced t₀.nodes adds n.key)) := by
  refine ⟨hok, h.keepOld, h.noDelete, h.version, fun n' ↦ ?_, fun n' hn' ↦ ?_, fun n' hn' ↦ ?_, ?_⟩
  · refine (hmem n').trans ?_
    rw [replaced_concat]
    by_cases hkey : n.key = n'.key
    · rw [if_pos hkey, Option.some_inj]
      exact ⟨fun hor ↦ (hor.resolve_right fun hand ↦ hand.2 hkey.symm).symm,
        fun heq ↦ .inl heq.symm⟩
    · rw [if_neg hkey, h.mem n']
      constructor
      · rintro (rfl | ⟨hrep, -⟩)
        · exact absurd rfl hkey
        · exact hrep
      · exact fun hrep ↦ .inr ⟨hrep, fun heq ↦ hkey heq.symm⟩
  · change Function.update t.versions n.addr t.version n'.addr = t.version
    by_cases haddr : n'.addr = n.addr
    · rw [haddr, Function.update_self]
    · rw [Function.update_of_ne haddr]
      obtain hn' | hn' := List.mem_append.mp hn'
      · exact h.added n' hn'
      · exact absurd (List.mem_singleton.mp hn' ▸ rfl) haddr
  · change Function.update t.versions n.addr t.version n'.addr = t₀.versions n'.addr
    have haddr : n'.addr ≠ n.addr := fun heq ↦ hfresh (heq ▸ List.mem_map_of_mem hn')
    rw [Function.update_of_ne haddr, h.old n' hn']
  · rw [addCalls_concat, List.nil_append, ← List.append_assoc, ← h.calls]
    rfl

theorem Adding.vlistAdd (hA : A.Lawful Ok) (h : Adding Ok t₀ adds t)
    (hfresh : n.addr ∉ t₀.nodes.map Node.addr) : Adding Ok t₀ (adds ++ [n]) (t.vlistAdd n) := by
  have hfind := h.find hA n.key
  unfold VlistTree.vlistAdd
  dsimp only
  rw [hfind]
  cases hrep : replaced t₀.nodes adds n.key with
  | none =>
      have hnone : ∀ n' ∈ A.list t.avl, n'.key ≠ n.key := by
        intro n' hn' hkey
        have := (h.mem n').mp hn'
        rw [hkey, hrep] at this
        cases this
      have hmem : ∀ n', n' ∈ A.list (A.insert t.avl n) ↔ n' = n ∨ n' ∈ t.nodes ∧
          n'.key ≠ n.key := by
        intro n'
        rw [hA.mem_insert _ _ h.ok hnone]
        exact or_congr_right ⟨fun hn' ↦ ⟨hn', hnone n' hn'⟩, And.left⟩
      have hinsert := h.insert (hA.insert_ok _ _ h.ok hnone) hmem hfresh
      rw [hrep] at hinsert
      exact hinsert
  | some old =>
      have hkey := key_of_replaced hrep
      have hold : old ∈ A.list t.avl := (h.mem old).mpr (hkey ▸ hrep)
      have hlist := hA.list_delete _ _ h.ok hold
      have hok := hA.delete_ok _ _ h.ok hold
      have hother : ∀ n' ∈ A.list (A.delete t.avl old), n'.key ≠ n.key := by
        intro n' hn'
        rw [hlist, List.mem_filter, decide_eq_true_iff, hkey] at hn'
        exact hn'.2
      have hmem : ∀ n', n' ∈ A.list (A.insert (A.delete t.avl old) n) ↔
          n' = n ∨ n' ∈ t.nodes ∧ n'.key ≠ n.key := by
        intro n'
        rw [hA.mem_insert _ _ hok hother, hlist, List.mem_filter, decide_eq_true_iff, hkey]
        rfl
      have hinsert := h.insert (hA.insert_ok _ _ hok hother) hmem hfresh
      have hflags : (t.keepOld || t.noDelete) = false := by
        rw [h.keepOld, h.noDelete]
        rfl
      rw [hrep] at hinsert
      dsimp only
      rw [hflags, if_neg Bool.false_ne_true]
      exact hinsert

theorem Adding.foldl (hA : A.Lawful Ok) {news : List (Node κ)} (h : Adding Ok t₀ adds t)
    (hfresh : ∀ n ∈ news, n.addr ∉ t₀.nodes.map Node.addr) :
    Adding Ok t₀ (adds ++ news) (news.foldl VlistTree.vlistAdd t) := by
  induction news generalizing adds t with
  | nil => simpa using h
  | cons n news ih =>
      have hstep := h.vlistAdd hA (hfresh n List.mem_cons_self)
      have := ih hstep fun n' hn' ↦ hfresh n' (List.mem_cons_of_mem _ hn')
      simpa using this

end Adding

/-! ## Flushing -/

section Flushing

variable {A : Avl κ} {Ok : A.Tree → Prop} {t : VlistTree A} {kept rest : List (Node κ)} {n : Node κ}

/-- The flush leaves the node in the tree. -/
def Stays (t : VlistTree A) (n : Node κ) : Prop :=
  (t.versions n.addr = t.version ∨ t.versions n.addr = -1) ∧ t.version ≠ -1

instance (t : VlistTree A) (n : Node κ) : Decidable (Stays t n) :=
  inferInstanceAs (Decidable (_ ∧ _))

/-- The state after the nodes in front of `rest` are looked at; `kept` are those that stay. -/
structure Flushing (Ok : A.Tree → Prop) (t : VlistTree A) (kept rest : List (Node κ)) : Prop where
  ok : Ok t.avl
  noDelete : t.noDelete = false
  nodes : t.nodes = kept ++ rest

omit [LinearOrder κ] in
theorem flushNode_of_stays (h : Stays t n) : t.flushNode n = t := if_pos h

omit [LinearOrder κ] in
theorem flushNode_of_not_stays (h : ¬Stays t n) : t.flushNode n = t.vlistDelete n := if_neg h

/-- A node in the middle of the list is the only one with its key. -/
theorem Sorted.filter_key (h : Sorted (kept ++ n :: rest)) :
    (kept ++ n :: rest).filter (fun n' ↦ n'.key ≠ n.key) = kept ++ rest := by
  rw [Sorted, List.pairwise_append, List.pairwise_cons] at h
  obtain ⟨-, ⟨hrest, -⟩, hkept⟩ := h
  have hkept' : kept.filter (fun n' ↦ n'.key ≠ n.key) = kept := by
    rw [List.filter_eq_self]
    intro n' hn'
    simpa using (hkept n' hn' n List.mem_cons_self).ne
  have hrest' : rest.filter (fun n' ↦ n'.key ≠ n.key) = rest := by
    rw [List.filter_eq_self]
    intro n' hn'
    simpa using (hrest n' hn').ne'
  rw [List.filter_append, hkept', List.filter_cons_of_neg (by simp), hrest']

/-- The flush changes the tree and the calls only. -/
structure SameStamps (t t' : VlistTree A) : Prop where
  version : t'.version = t.version
  versions : t'.versions = t.versions
  keepOld : t'.keepOld = t.keepOld

omit [LinearOrder κ] in
theorem SameStamps.stays_iff {t' : VlistTree A} (h : SameStamps t t') : Stays t' n ↔ Stays t n := by
  unfold Stays
  rw [h.version, h.versions]

/-- One node is looked at: it stays, or it is deleted and reported. -/
theorem Flushing.flushNode (hA : A.Lawful Ok) (h : Flushing Ok t kept (n :: rest)) :
    Flushing Ok (t.flushNode n) (kept ++ [n].filter (Stays t ·)) rest ∧
      (t.flushNode n).calls = t.calls ++ ([n].filter (¬Stays t ·)).map (fun n ↦ (none, some n)) ∧
      SameStamps t (t.flushNode n) := by
  by_cases hstays : Stays t n
  · rw [flushNode_of_stays hstays]
    refine ⟨⟨h.ok, h.noDelete, ?_⟩, ?_, rfl, rfl, rfl⟩
    · rw [h.nodes]
      simp [hstays]
    · simp [hstays]
  · have hnodes : A.list t.avl = kept ++ n :: rest := h.nodes
    have hmem : n ∈ A.list t.avl := by
      rw [hnodes]
      simp
    have hlist := hA.list_delete _ _ h.ok hmem
    have hsorted := hA.sorted _ h.ok
    rw [hnodes] at hlist hsorted
    have hflag : ¬t.noDelete = true := by simp [h.noDelete]
    rw [flushNode_of_not_stays hstays, VlistTree.vlistDelete, if_neg hflag]
    refine ⟨⟨hA.delete_ok _ _ h.ok hmem, h.noDelete, ?_⟩, ?_, rfl, rfl, rfl⟩
    · refine hlist.trans ((Sorted.filter_key hsorted).trans ?_)
      simp [hstays]
    · simp [hstays, VlistTree.update]

/-- The node that was kept as the next one is still there. -/
theorem nextElement_some (h : (kept ++ n :: rest).Nodup) :
    VlistTree.nextElement (kept ++ n :: rest) (some n) = rest.head? := by
  have hall : ∀ n' ∈ kept, decide (n' ≠ n) = true := by
    intro n' hn'
    rw [decide_eq_true_iff]
    rintro rfl
    exact (List.nodup_append.mp h).2.2 n' hn' n' List.mem_cons_self rfl
  rw [VlistTree.nextElement, List.dropWhile_append_of_pos hall,
    List.dropWhile_cons_of_neg (by simp), List.tail_cons]

theorem Flushing.flushLoop (hA : A.Lawful Ok) (h : Flushing Ok t kept rest) {fuel : ℕ}
    (hfuel : rest.length < fuel) {ptr : Option (Node κ)} (hptr : rest = [] ∨
      ptr = rest.tail.head?) :
    ∃ t', VlistTree.flushLoop fuel t rest.head? ptr = some t' ∧
      Flushing Ok t' (kept ++ rest.filter (Stays t ·)) [] ∧
      t'.calls = t.calls ++ (rest.filter (¬Stays t ·)).map (fun n ↦ (none, some n)) ∧
      SameStamps t t' := by
  induction rest generalizing kept t fuel ptr with
  | nil =>
      obtain ⟨fuel, rfl⟩ : ∃ k, fuel = k + 1 := ⟨fuel - 1, by omega⟩
      exact ⟨t, rfl, by simpa using h, by simp, rfl, rfl, rfl⟩
  | cons n rest ih =>
      obtain ⟨fuel, rfl⟩ : ∃ k, fuel = k + 1 := ⟨fuel - 1, by omega⟩
      obtain rfl := hptr.resolve_left (List.cons_ne_nil n rest)
      obtain ⟨hstep, hcalls, hsame⟩ := h.flushNode hA
      have hnext : rest = [] ∨
          VlistTree.nextElement (t.flushNode n).nodes rest.head? = rest.tail.head? := by
        rcases rest with _ | ⟨r, rest⟩
        · exact .inl rfl
        · right
          have hnodup := Sorted.nodup (hA.sorted _ hstep.ok)
          have hnodes := hstep.nodes
          unfold VlistTree.nodes at hnodes
          rw [hnodes] at hnodup
          rw [hstep.nodes]
          exact nextElement_some hnodup
      rw [List.length_cons] at hfuel
      obtain ⟨t', hloop, hflush, hcalls', hsame'⟩ :=
        ih hstep (show rest.length < fuel by omega) hnext
      have hkeep : (fun x ↦ decide (Stays (t.flushNode n) x)) = fun x ↦ decide (Stays t x) := by
        funext x
        exact decide_eq_decide.mpr hsame.stays_iff
      have hdrop : (fun x ↦ decide ¬Stays (t.flushNode n) x) = fun x ↦ decide ¬Stays t x := by
        funext x
        exact decide_eq_decide.mpr (not_congr hsame.stays_iff)
      rw [hkeep] at hflush
      rw [hdrop] at hcalls'
      refine ⟨t', hloop, ?_, ?_, hsame'.version.trans hsame.version,
        hsame'.versions.trans hsame.versions, hsame'.keepOld.trans hsame.keepOld⟩
      · rwa [List.append_assoc, ← List.filter_append, List.singleton_append] at hflush
      · rw [hcalls', hcalls, List.append_assoc, ← List.map_append, ← List.filter_append,
          List.singleton_append]

/-- The whole flush: the nodes that do not stay are deleted and reported. -/
theorem vlistFlush_spec (hA : A.Lawful Ok) (hok : Ok t.avl) (hnoDelete : t.noDelete = false)
    {fuel : ℕ} (hfuel : t.nodes.length < fuel) : ∃ t', t.vlistFlush fuel = some t' ∧ Ok t'.avl ∧
      t'.noDelete = false ∧ t'.nodes = t.nodes.filter (Stays t ·) ∧
      t'.calls = t.calls ++ (t.nodes.filter (¬Stays t ·)).map (fun n ↦ (none, some n)) ∧
      SameStamps t t' := by
  have hstart : Flushing Ok t [] t.nodes := ⟨hok, hnoDelete, rfl⟩
  have hptr : t.nodes = [] ∨ VlistTree.nextElement t.nodes (VlistTree.nextElement t.nodes none) =
      t.nodes.tail.head? := by
    cases t.nodes with
    | nil => exact .inl rfl
    | cons n l => exact .inr (by simp [VlistTree.nextElement])
  obtain ⟨t', hloop, hflush, hcalls, hsame⟩ := hstart.flushLoop hA hfuel hptr
  refine ⟨t', hloop, hflush.ok, hflush.noDelete, ?_, hcalls, hsame⟩
  rw [hflush.nodes, List.append_nil, List.nil_append]

end Flushing

/-! ## Cycles -/

section Cycles

variable {A : Avl κ} {Ok : A.Tree → Prop} {t : VlistTree A}

/-- The trees that a user can get without `keep_old` and `no_delete`: added nodes are fresh, and the
counter does not overflow.  A version of -1 is set by the user. -/
inductive Reachable (A : Avl κ) : VlistTree A → Prop
  | init (versions : ℕ → ℤ) : Reachable A (VlistTree.vlistInit versions)
  | update {t : VlistTree A} (h : Reachable A t) (hmax : t.version < 2 ^ 31 - 1) :
      Reachable A t.vlistUpdate
  | add {t : VlistTree A} (h : Reachable A t) (n : Node κ)
      (hfresh : n.addr ∉ t.nodes.map Node.addr) :
      Reachable A (t.vlistAdd n)
  | delete {t : VlistTree A} (h : Reachable A t) (n : Node κ) (hn : n ∈ t.nodes) :
      Reachable A (t.vlistDelete n)
  | pin {t : VlistTree A} (h : Reachable A t) (n : Node κ) :
      Reachable A { t with versions := Function.update t.versions n.addr (-1) }
  | flush {t t' : VlistTree A} (h : Reachable A t) (fuel : ℕ) (hfuel : t.nodes.length < fuel)
      (ht' : t.vlistFlush fuel = some t') :
      Reachable A t'
  | flushAll {t t' : VlistTree A} (h : Reachable A t) (fuel : ℕ) (hfuel : t.nodes.length < fuel)
      (ht' : t.vlistFlushAll fuel = some t') : Reachable A t'

/-- No node is newer than the counter. -/
structure Invariant (Ok : A.Tree → Prop) (t : VlistTree A) : Prop where
  ok : Ok t.avl
  keepOld : t.keepOld = false
  noDelete : t.noDelete = false
  lo : -1 ≤ t.version
  hi : t.version < 2 ^ 31
  versions : ∀ n ∈ t.nodes, t.versions n.addr ≤ t.version

omit [LinearOrder κ] in
theorem Invariant.vlistUpdate (h : Invariant Ok t) (hmax : t.version < 2 ^ 31 - 1) :
    t.vlistUpdate.version = t.version + 1 := by
  have hlo := h.lo
  unfold VlistTree.vlistUpdate
  dsimp only
  rw [Int.bmod_def]
  omega

/-- Nothing is added yet. -/
theorem Invariant.adding (hA : A.Lawful Ok) (h : Invariant Ok t) {t₀ : VlistTree A}
    (hnodes : t₀.nodes = t.nodes) (hversion : t.version = t₀.version + 1)
    (hversions : t.versions = t₀.versions) (hcalls : t.calls = t₀.calls) : Adding Ok t₀ [] t := by
  refine ⟨h.ok, h.keepOld, h.noDelete, hversion, fun n ↦ ?_, by simp,
    fun n _ ↦ by rw [hversions], ?_⟩
  · have hfind := @Sorted.find?_eq_some_iff κ _ t.nodes n n.key (hA.sorted _ h.ok)
    rw [hnodes, replaced, lastAdded, List.reverse_nil, List.find?_nil, Option.none_or, hfind]
    simp
  · rw [hcalls, addCalls, List.append_nil]

/-- A node of the tree was added, or is one of the old nodes. -/
theorem Adding.mem_or {t₀ : VlistTree A} {adds : List (Node κ)} {n : Node κ}
    (h : Adding Ok t₀ adds t) (hn : n ∈ t.nodes) :
    lastAdded adds n.key = some n ∨ lastAdded adds n.key = none ∧ n ∈ t₀.nodes := by
  have hrep := (h.mem n).mp hn
  rw [replaced, Option.or_eq_some_iff] at hrep
  exact hrep.imp_right fun ⟨hnone, hfind⟩ ↦ ⟨hnone, List.mem_of_find?_eq_some hfind⟩

theorem Reachable.invariant (hA : A.Lawful Ok) (h : Reachable A t) : Invariant Ok t := by
  induction h with
  | init versions =>
      have hone : (VlistTree.vlistInit versions : VlistTree A).version = 1 := rfl
      refine ⟨hA.empty_ok, rfl, rfl, by omega, by omega, fun n hn ↦ ?_⟩
      have hnil : n ∈ A.list A.empty := hn
      rw [hA.list_empty] at hnil
      cases hnil
  | @update t _ hmax ih =>
      have hversion := ih.vlistUpdate hmax
      have hlo := ih.lo
      refine ⟨ih.ok, ih.keepOld, ih.noDelete, by omega, by omega, fun n hn ↦ ?_⟩
      have : t.versions n.addr ≤ t.version := ih.versions n hn
      change t.versions n.addr ≤ t.vlistUpdate.version
      omega
  | @add t _ n hfresh ih =>
      -- as in a cycle that starts with the counter one lower
      have hstart : Adding Ok { t with version := t.version - 1 } [] t :=
        ih.adding hA rfl (by simp) rfl rfl
      have hadd := hstart.vlistAdd hA hfresh
      have hversion : (t.vlistAdd n).version = t.version := by
        rw [hadd.version]
        simp
      refine ⟨hadd.ok, hadd.keepOld, hadd.noDelete, by rw [hversion]; exact ih.lo,
        by rw [hversion]; exact ih.hi, fun n' hn' ↦ ?_⟩
      obtain hlast | ⟨-, hold⟩ := hadd.mem_or hn'
      · exact (hadd.added n' (mem_of_lastAdded hlast).1).le
      · rw [hadd.old n' hold, hversion]
        exact ih.versions n' hold
  | @delete t _ n hn ih =>
      have hflag : ¬t.noDelete = true := by simp [ih.noDelete]
      rw [VlistTree.vlistDelete, if_neg hflag]
      refine ⟨hA.delete_ok _ _ ih.ok hn, ih.keepOld, ih.noDelete, ih.lo, ih.hi, fun n' hn' ↦ ?_⟩
      have hmem : n' ∈ A.list (A.delete t.avl n) := hn'
      rw [hA.list_delete _ _ ih.ok hn] at hmem
      exact ih.versions n' (List.mem_of_mem_filter hmem)
  | @pin t _ n ih =>
      refine ⟨ih.ok, ih.keepOld, ih.noDelete, ih.lo, ih.hi, fun n' hn' ↦ ?_⟩
      change Function.update t.versions n.addr (-1) n'.addr ≤ t.version
      by_cases heq : n'.addr = n.addr
      · rw [heq, Function.update_self]
        exact ih.lo
      · rw [Function.update_of_ne heq]
        exact ih.versions n' hn'
  | @flush t t' _ fuel hfuel ht' ih =>
      obtain ⟨t'', hflush, hok, hnoDelete, hnodes, -, hsame⟩ :=
        vlistFlush_spec hA ih.ok ih.noDelete hfuel
      obtain rfl : t'' = t' := Option.some_inj.mp (hflush.symm.trans ht')
      refine ⟨hok, hsame.keepOld.trans ih.keepOld, hnoDelete, by rw [hsame.version]; exact ih.lo,
        by rw [hsame.version]; exact ih.hi, fun n hn ↦ ?_⟩
      rw [hnodes] at hn
      rw [hsame.version, hsame.versions]
      exact ih.versions n (List.mem_of_mem_filter hn)
  | @flushAll t t' _ fuel hfuel ht' ih =>
      obtain ⟨t'', hflush, hok, hnoDelete, hnodes, -, hsame⟩ :=
        @vlistFlush_spec κ _ A Ok { t with version := -1 } hA ih.ok ih.noDelete fuel hfuel
      obtain rfl : t'' = t' := Option.some_inj.mp (hflush.symm.trans ht')
      have hversion : t''.version = -1 := hsame.version
      refine ⟨hok, hsame.keepOld.trans ih.keepOld, hnoDelete, by omega, by omega, fun n hn ↦ ?_⟩
      rw [hnodes, List.mem_filter, decide_eq_true_iff] at hn
      exact absurd rfl hn.2.2

/-- What stays after a cycle is what was added in it. -/
theorem Adding.stays_iff {t₀ : VlistTree A} {adds : List (Node κ)} {n : Node κ}
    (h : Adding Ok t₀ adds t) (h₀ : Invariant Ok t₀)
    (hold : ∀ n ∈ t₀.nodes, t₀.versions n.addr ≠ -1) (hn : n ∈ t.nodes) :
    Stays t n ↔ lastAdded adds n.key = some n := by
  have hlo := h₀.lo
  have hversion := h.version
  constructor
  · rintro ⟨hstamp, -⟩
    refine (h.mem_or hn).resolve_right ?_
    rintro ⟨-, hmem⟩
    have hle := h₀.versions n hmem
    have hne := hold n hmem
    rw [h.old n hmem] at hstamp
    omega
  · intro hlast
    exact ⟨.inl (h.added n (mem_of_lastAdded hlast).1), by omega⟩

/-- What is deleted is what was not added again. -/
theorem Adding.filter_not_stays (hA : A.Lawful Ok) {t₀ : VlistTree A} {adds : List (Node κ)}
    (h : Adding Ok t₀ adds t) (h₀ : Invariant Ok t₀)
    (hold : ∀ n ∈ t₀.nodes, t₀.versions n.addr ≠ -1) :
    t.nodes.filter (¬Stays t ·) = dropped t₀.nodes adds := by
  have : Std.Irrefl fun n n' : Node κ ↦ n.key < n'.key := ⟨fun n ↦ lt_irrefl n.key⟩
  have hsorted := hA.sorted _ h₀.ok
  refine ((hA.sorted _ h.ok).filter _).eq_of_mem_iff (hsorted.filter _) fun n ↦ ?_
  rw [List.mem_filter, dropped, List.mem_filter, decide_eq_true_iff, Option.isNone_iff_eq_none]
  constructor
  · rintro ⟨hn, hstays⟩
    rw [h.stays_iff h₀ hold hn] at hstays
    obtain hlast | ⟨hnone, hmem⟩ := h.mem_or hn
    · exact absurd hlast hstays
    · exact ⟨hmem, hnone⟩
  · rintro ⟨hmem, hnone⟩
    have hn : n ∈ t.nodes := by
      rw [h.mem, replaced, hnone, Option.none_or]
      exact (Sorted.find?_eq_some_iff hsorted).mpr ⟨hmem, rfl⟩
    refine ⟨hn, ?_⟩
    rw [h.stays_iff h₀ hold hn, hnone]
    simp

/-- Nodes that are not yet in use. -/
structure Fresh (t : VlistTree A) (adds : List (Node κ)) : Prop where
  nodup : (adds.map Node.addr).Nodup
  notMem : ∀ n ∈ adds, n.addr ∉ t.nodes.map Node.addr

/-- A cycle with any tree that keeps the promises of `avl.c`. -/
theorem Avl.Lawful.cycle (A : Avl κ) (Ok : A.Tree → Prop) (hA : A.Lawful Ok) (t : VlistTree A)
    (ht : Reachable A t) (hmax : t.version < 2 ^ 31 - 1)
    (hnodes : ∀ n ∈ t.nodes, t.versions n.addr ≠ -1) (adds : List (Node κ))
    (hfresh : Fresh t adds) :
    ∃ turns, ∀ fuel, turns < fuel → ∃ t',
      (adds.foldl VlistTree.vlistAdd t.vlistUpdate).vlistFlush fuel = some t' ∧
      Updated t t' adds := by
  have hinv := ht.invariant hA
  have hstart : Adding Ok t [] t.vlistUpdate :=
    (Reachable.update ht hmax |>.invariant hA).adding hA rfl (hinv.vlistUpdate hmax) rfl rfl
  have hadds := hstart.foldl hA hfresh.notMem
  rw [List.nil_append] at hadds
  generalize adds.foldl VlistTree.vlistAdd t.vlistUpdate = t₁ at hadds
  refine ⟨t₁.nodes.length, fun fuel hfuel ↦ ?_⟩
  obtain ⟨t', hflush, hok, -, hkept, hcalls, -⟩ := vlistFlush_spec hA hadds.ok hadds.noDelete hfuel
  refine ⟨t', hflush, fun n ↦ ?_, Sorted.nodup_keys (hA.sorted _ hok), ?_⟩
  · rw [hkept, List.mem_filter, decide_eq_true_iff]
    constructor
    · rintro ⟨hn, hstays⟩
      exact (hadds.stays_iff hinv hnodes hn).mp hstays
    · intro hlast
      have hn : n ∈ t₁.nodes := (hadds.mem n).mpr (by rw [replaced, hlast, Option.some_or])
      exact ⟨hn, (hadds.stays_iff hinv hnodes hn).mpr hlast⟩
  · have hdropped : t₁.nodes.filter (¬Stays t₁ ·) = dropped t.nodes adds :=
      hadds.filter_not_stays hA hinv hnodes
    rw [hcalls, hadds.calls, hdropped]

/-- In a cycle the tree becomes what was added, and the callback is told of the difference. -/
theorem vlist_cycle (t : VlistTree (avl κ)) (ht : Reachable (avl κ) t)
    (hmax : t.version < 2 ^ 31 - 1) (hnodes : ∀ n ∈ t.nodes, t.versions n.addr ≠ -1)
    (adds : List (Node κ)) (hfresh : Fresh t adds) :
    ∃ turns, ∀ fuel, turns < fuel → ∃ t',
      (adds.foldl VlistTree.vlistAdd t.vlistUpdate).vlistFlush fuel = some t' ∧ Updated t t' adds :=
  Avl.Lawful.cycle (avl κ) AvlTree.Ok (avl_lawful κ) t ht hmax hnodes adds hfresh

/-- A tree with two nodes, at the addresses 0 and 1; one key is dropped and one is added twice. -/
theorem vlist_cycle_two :
    let t := ((VlistTree.vlistInit fun _ ↦ 0 : VlistTree (avl ℕ)).vlistAdd ⟨0, 4⟩).vlistAdd ⟨1, 6⟩
    let adds := [⟨2, 6⟩, ⟨3, 5⟩, ⟨4, 6⟩]
    ∃ turns, ∀ fuel, turns < fuel → ∃ t',
      (adds.foldl VlistTree.vlistAdd t.vlistUpdate).vlistFlush fuel = some t' ∧
      Updated t t' adds := by
  intro t adds
  have ht : Reachable (avl ℕ) t := .add (.add (.init _) _ (by decide)) _ (by decide)
  exact vlist_cycle t ht (by decide) (by decide) adds ⟨by decide, by decide⟩

end Cycles

end MiniPi.Vlist
