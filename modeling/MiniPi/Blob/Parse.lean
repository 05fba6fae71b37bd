import MiniPi.Blob.Check
import MiniPi.Blob.RoundTrip

/-!
# Fields looked up by name

`blobmsg_parse` fills a table with the first field for each entry of a policy.  On a message that
was built, the validator accepts every field that has a name.
-/

namespace MiniPi.Blob

open Lib

/-- `struct blobmsg_policy`. -/
structure BlobmsgPolicy where
  name : Option (List UInt8)
  type : ℕ
deriving DecidableEq, Repr

/-- The table of attributes, by the index of the policy. -/
abbrev Table := ℕ → Option ℕ

/-- The body of the inner loop of `blobmsg_parse`; an error is the end with -1.  `pslen` is an array
of bytes. -/
def parsePolicy (m : Mem) (attr : ℕ) (tb : Table) (i : ℕ) (policy : BlobmsgPolicy) :
    Except Table Table :=
  match policy.name with
  | none => .ok tb
  | some name =>
    if policy.type ≠ 0 ∧ blobId m attr ≠ policy.type then .ok tb
    else if blobmsgNamelen m attr ≠ name.length % 2 ^ 8 then .ok tb
    else if (blobmsgCheckAttr m attr true).1 = false then .error tb
    else if (tb i).isSome then .ok tb
    else if name ≠ blobmsgName m attr then .ok tb
    else .ok (Function.update tb i (some attr))

/-- The inner loop of `blobmsg_parse`, from the entry `i` of the policies on. -/
def parsePolicies (m : Mem) (attr : ℕ) : List BlobmsgPolicy → ℕ → Table → Except Table Table
  | [], _, tb => .ok tb
  | policy :: policies, i, tb =>
    (parsePolicy m attr tb i policy).bind (parsePolicies m attr policies (i + 1))

/-- The outer loop of `blobmsg_parse`, over the attributes of the walk. -/
def parseAttrs (m : Mem) (policies : List BlobmsgPolicy) : List ℕ → Table → Except Table Table
  | [], tb => .ok tb
  | attr :: attrs, tb => (parsePolicies m attr policies 0 tb).bind (parseAttrs m policies attrs)

/-- `blobmsg_parse`, for at most `n` attributes: what it returns, and the table. -/
def blobmsgParse (m : Mem) (n : ℕ) (policies : List BlobmsgPolicy) (data : ℕ) (len : ℤ) :
    Option (ℤ × Table) :=
  (attrLoop m n data len.toNat).map fun w ↦
    match parseAttrs m policies w.children fun _ ↦ none with
    | .ok tb => (0, tb)
    | .error tb => (-1, tb)

/-! ## What it is for -/

/-- A field of a message: where its attribute is, its name and its type. -/
structure Entry where
  attr : ℕ
  name : List UInt8
  type : ℕ
deriving DecidableEq, Repr

/-- The fields of a message that is encoded at `a`. -/
def entries : Fields → ℕ → List Entry
  | .nil, _ => []
  | .value name v rest, a =>
    ⟨a, name, v.type⟩ ::
      entries rest (a + (attrBytes v.type name v.data ++ padding v.data.length).length)
  | .nested name array children rest, a =>
    ⟨a, name, nestedType array⟩ ::
      entries rest (a + (attrBytes (nestedType array) name (encode children)).length)

/-- The field has the name and the type of the policy. -/
def BlobmsgPolicy.Matches (policy : BlobmsgPolicy) (e : Entry) : Prop :=
  policy.name = some e.name ∧ (policy.type = 0 ∨ e.type = policy.type)

instance (policy : BlobmsgPolicy) (e : Entry) : Decidable (policy.Matches e) :=
  inferInstanceAs (Decidable (_ ∧ _))

/-- The first field that a policy is for. -/
def firstMatch (es : List Entry) (policy : BlobmsgPolicy) : Option ℕ :=
  (es.find? fun e ↦ policy.Matches e).map Entry.attr

/-- A policy asks for a field without a name, and there is one. -/
def AsksUnnamed (es : List Entry) (policies : List BlobmsgPolicy) : Prop :=
  ∃ e ∈ es, ∃ policy ∈ policies, policy.Matches e ∧ e.name = []

/-! ## One field -/

/-- What a field looks like in memory. -/
structure EntryAt (m : Mem) (e : Entry) : Prop where
  id : blobId m e.attr = e.type
  namelen : blobmsgNamelen m e.attr = e.name.length
  name : blobmsgName m e.attr = e.name
  check : (blobmsgCheckAttr m e.attr true).1 = true ↔ e.name ≠ []

section Loops

variable {m : Mem} {e : Entry} {es : List Entry} {policy : BlobmsgPolicy}
  {policies : List BlobmsgPolicy} {tb : Table} {i : ℕ}

/-- The length of the name fits the byte that `blobmsg_parse` keeps of it. -/
def BlobmsgPolicy.Short (policy : BlobmsgPolicy) : Prop :=
  ∀ name, policy.name = some name → name.length < 2 ^ 8

/-- A name that is not empty does not have the length byte of an empty one. -/
def BlobmsgPolicy.NoWrap (policy : BlobmsgPolicy) : Prop :=
  ∀ name, policy.name = some name → 2 ^ 8 ∣ name.length → name = []

/-- The policy without its name, if the length of the name does not fit. -/
def BlobmsgPolicy.cut (policy : BlobmsgPolicy) : BlobmsgPolicy :=
  { policy with name := policy.name.filter (·.length < 2 ^ 8) }

theorem BlobmsgPolicy.short_cut (policy : BlobmsgPolicy) : policy.cut.Short := by
  intro name hname
  obtain ⟨-, hlt⟩ := Option.filter_eq_some_iff.mp hname
  exact of_decide_eq_true hlt

theorem BlobmsgPolicy.Short.cut_eq (h : policy.Short) : policy.cut = policy := by
  obtain ⟨name, type⟩ := policy
  cases name with
  | none => rfl
  | some name =>
      have hfilter : (some name).filter (·.length < 2 ^ 8) = some name :=
        Option.filter_eq_some_iff.mpr ⟨rfl, decide_eq_true (h name rfl)⟩
      rw [BlobmsgPolicy.cut, hfilter]

theorem BlobmsgPolicy.Short.noWrap (h : policy.Short) : policy.NoWrap := by
  intro name hname hdvd
  exact List.eq_nil_of_length_eq_zero (Nat.eq_zero_of_dvd_of_lt hdvd (h name hname))

/-- A table with an attribute put into the free places that are asked for. -/
def Table.put (tb : Table) (asked : ℕ → Prop) [DecidablePred asked] (attr : ℕ) : Table := fun j ↦
  (tb j).or (if asked j then some attr else none)

theorem parsePolicy_unnamed (he : EntryAt m e) (hmatch : policy.Matches e) (hname : e.name = []) :
    parsePolicy m e.attr tb i policy = .error tb := by
  obtain ⟨hpname, htype⟩ := hmatch
  have hcheck : (blobmsgCheckAttr m e.attr true).1 = false :=
    Bool.eq_false_iff.mpr fun h ↦ he.check.mp h hname
  have htype' : ¬(policy.type ≠ 0 ∧ blobId m e.attr ≠ policy.type) := by
    rw [he.id]
    rintro ⟨hne, hne'⟩
    exact htype.elim hne hne'
  simp only [parsePolicy, hpname]
  rw [if_neg htype', if_neg (by simp [he.namelen, hname]), if_pos hcheck]

theorem parsePolicy_ok (he : EntryAt m e) (hshort : policy.Short)
    (hno : ¬(policy.Matches e ∧ e.name = [])) :
    parsePolicy m e.attr tb i policy = .ok (tb.put (fun j ↦ j = i ∧ policy.Matches e) e.attr) := by
  have hstay (hnot : ¬policy.Matches e ∨ (tb i).isSome) :
      tb.put (fun j ↦ j = i ∧ policy.Matches e) e.attr = tb := by
    funext j
    unfold Table.put
    by_cases hj : j = i ∧ policy.Matches e
    · obtain ⟨rfl, hmatch⟩ := hj
      obtain ⟨a, ha⟩ := Option.isSome_iff_exists.mp (hnot.resolve_left (not_not.mpr hmatch))
      rw [ha, Option.some_or]
    · rw [if_neg hj, Option.or_none]
  unfold parsePolicy
  cases hpname : policy.name with
  | none =>
      have hnot : ¬policy.Matches e := by simp [BlobmsgPolicy.Matches, hpname]
      rw [hstay (.inl hnot)]
  | some name =>
      have hlen := hshort name hpname
      dsimp only
      split_ifs with htype hnamelen hcheck htb hname
      · have hnot : ¬policy.Matches e := by
          rintro ⟨-, hzero | heq⟩
          · exact htype.1 hzero
          · exact htype.2 (he.id.trans heq)
        rw [hstay (.inl hnot)]
      · have hnot : ¬policy.Matches e := by
          rintro ⟨heq, -⟩
          rw [hpname, Option.some_inj] at heq
          rw [he.namelen, ← heq, Nat.mod_eq_of_lt hlen] at hnamelen
          exact hnamelen rfl
        rw [hstay (.inl hnot)]
      · exfalso
        have hempty : e.name = [] := by
          by_contra hne
          rw [he.check.mpr hne] at hcheck
          cases hcheck
        have hpempty : name = [] := by
          rw [he.namelen, hempty, Nat.mod_eq_of_lt hlen] at hnamelen
          exact List.eq_nil_of_length_eq_zero (not_not.mp hnamelen).symm
        refine hno ⟨⟨by rw [hpname, hpempty, hempty], ?_⟩, hempty⟩
        by_contra hnot
        obtain ⟨hzero, hne⟩ := not_or.mp hnot
        exact htype ⟨hzero, he.id ▸ hne⟩
      · rw [hstay (.inr htb)]
      · have hnot : ¬policy.Matches e := by
          rintro ⟨heq, -⟩
          rw [hpname, Option.some_inj] at heq
          exact hname (heq.trans he.name.symm)
        rw [hstay (.inl hnot)]
      · have hmatch : policy.Matches e := by
          refine ⟨by rw [hpname, ← he.name, not_not.mp hname], ?_⟩
          by_contra hnot
          obtain ⟨hzero, hne⟩ := not_or.mp hnot
          exact htype ⟨hzero, he.id ▸ hne⟩
        congr 1
        funext j
        unfold Table.put
        by_cases hj : j = i
        · subst hj
          rw [Function.update_self, Option.not_isSome_iff_eq_none.mp htb, if_pos ⟨rfl, hmatch⟩,
            Option.none_or]
        · rw [Function.update_of_ne hj, if_neg fun h ↦ hj h.1, Option.or_none]

/-- A policy with a name that is too long is passed over, as one without a name is. -/
theorem parsePolicy_cut (he : EntryAt m e) (hwrap : policy.NoWrap) :
    parsePolicy m e.attr tb i policy.cut = parsePolicy m e.attr tb i policy := by
  by_cases hshort : policy.Short
  · rw [hshort.cut_eq]
  obtain ⟨name, hname⟩ := not_forall.mp hshort
  obtain ⟨hpname, hlong⟩ := Classical.not_imp.mp hname
  have hcut : policy.cut.name = none := by
    rw [BlobmsgPolicy.cut, hpname, Option.filter_some, if_neg]
    rwa [decide_eq_true_iff]
  rw [parsePolicy, hcut, parsePolicy, hpname]
  dsimp only
  split_ifs with htype hnamelen hcheck htb hne
  · rfl
  · rfl
  · exfalso
    have hempty : e.name = [] := by
      by_contra hne
      rw [he.check.mpr hne] at hcheck
      cases hcheck
    have hmod : name.length % 2 ^ 8 = 0 := by
      rw [← not_not.mp hnamelen, he.namelen, hempty, List.length_nil]
    obtain rfl := hwrap name hpname (Nat.dvd_of_mod_eq_zero hmod)
    exact hlong (by decide)
  · rfl
  · rfl
  · exfalso
    -- the name of the field is as long as the policy's, and its length does not fit either
    have hsame : e.name = name := by rw [not_not.mp hne, he.name]
    have hmod : name.length = name.length % 2 ^ 8 := by
      rw [← not_not.mp hnamelen, he.namelen, hsame]
    have hlt := Nat.mod_lt name.length (show 0 < 2 ^ 8 by decide)
    omega

/-- One field is put where a policy asks for it. -/
theorem parsePolicies_ok (he : EntryAt m e) (hshort : ∀ policy ∈ policies, policy.Short)
    (hno : ∀ policy ∈ policies, ¬(policy.Matches e ∧ e.name = [])) :
    parsePolicies m e.attr policies i tb = .ok
      (tb.put (fun j ↦ i ≤ j ∧ ∃ policy ∈ policies[j - i]?, policy.Matches e) e.attr) := by
  induction policies generalizing i tb with
  | nil =>
      rw [parsePolicies]
      congr 1
      funext j
      simp [Table.put]
  | cons policy policies ih =>
      obtain ⟨hshort', hshorts⟩ := List.forall_mem_cons.mp hshort
      obtain ⟨hno', hnos⟩ := List.forall_mem_cons.mp hno
      rw [parsePolicies, parsePolicy_ok he hshort' hno', Except.bind, ih hshorts hnos]
      congr 1
      funext j
      unfold Table.put
      obtain hj | rfl | hj := Nat.lt_trichotomy j i
      · have hne : j ≠ i := by omega
        have hlt : ¬i ≤ j := by omega
        have hlt' : ¬i + 1 ≤ j := by omega
        simp only [hne, hlt, hlt', false_and, if_false, Option.or_none]
      · have hlt : ¬j + 1 ≤ j := by omega
        simp [hlt]
      · have hne : j ≠ i := by omega
        have hle : i ≤ j := by omega
        have hle' : i + 1 ≤ j := by omega
        obtain ⟨k, rfl⟩ : ∃ k, j = i + (k + 1) := ⟨j - i - 1, by omega⟩
        have hk : i + (k + 1) - (i + 1) = k := by omega
        simp only [hne, hle, hle', hk, Nat.add_sub_cancel_left, false_and, true_and, if_false,
          Option.or_none, List.getElem?_cons_succ]

/-- A field without a name ends the loop where a policy asks for it. -/
theorem parsePolicies_unnamed (he : EntryAt m e) (hshort : ∀ policy ∈ policies, policy.Short)
    (hno : ∃ policy ∈ policies, policy.Matches e ∧ e.name = []) :
    ∃ tb', parsePolicies m e.attr policies i tb = .error tb' := by
  induction policies generalizing i tb with
  | nil => simp at hno
  | cons policy policies ih =>
      obtain ⟨hshort', hshorts⟩ := List.forall_mem_cons.mp hshort
      rw [parsePolicies]
      by_cases hmatch : policy.Matches e ∧ e.name = []
      · exact ⟨tb, by rw [parsePolicy_unnamed he hmatch.1 hmatch.2, Except.bind]⟩
      · rw [parsePolicy_ok he hshort' hmatch, Except.bind]
        refine ih hshorts ?_
        obtain ⟨policy', hmem, hboth⟩ := hno
        obtain rfl | hmem := List.mem_cons.mp hmem
        · exact absurd hboth hmatch
        · exact ⟨policy', hmem, hboth⟩

theorem parsePolicies_cut (he : EntryAt m e) (hwrap : ∀ policy ∈ policies, policy.NoWrap) :
    parsePolicies m e.attr (policies.map BlobmsgPolicy.cut) i tb =
      parsePolicies m e.attr policies i tb := by
  induction policies generalizing i tb with
  | nil => rfl
  | cons policy policies ih =>
      obtain ⟨hwrap', hwraps⟩ := List.forall_mem_cons.mp hwrap
      rw [List.map_cons, parsePolicies, parsePolicies, parsePolicy_cut he hwrap']
      congr 1
      funext tb
      exact ih hwraps

theorem parseAttrs_cut (hes : ∀ e ∈ es, EntryAt m e) (hwrap : ∀ policy ∈ policies, policy.NoWrap) :
    parseAttrs m (policies.map BlobmsgPolicy.cut) (es.map Entry.attr) tb =
      parseAttrs m policies (es.map Entry.attr) tb := by
  induction es generalizing tb with
  | nil => rfl
  | cons e es ih =>
      obtain ⟨he, hes'⟩ := List.forall_mem_cons.mp hes
      rw [List.map_cons, parseAttrs, parseAttrs, parsePolicies_cut he hwrap]
      congr 1
      funext tb
      exact ih hes'

theorem asksUnnamed_cut :
    AsksUnnamed es (policies.map BlobmsgPolicy.cut) ↔ AsksUnnamed es policies := by
  have hcut (policy : BlobmsgPolicy) (e : Entry) :
      policy.cut.Matches e ∧ e.name = [] ↔ policy.Matches e ∧ e.name = [] := by
    refine and_congr_left fun hempty ↦ and_congr_left fun _ ↦ ?_
    rw [hempty, BlobmsgPolicy.cut, Option.filter_eq_some_iff]
    exact and_iff_left rfl
  simp only [AsksUnnamed, List.mem_map, exists_exists_and_eq_and, hcut]

/-- The free places get the first fields that are asked for. -/
theorem parseAttrs_ok (hes : ∀ e ∈ es, EntryAt m e) (hshort : ∀ policy ∈ policies, policy.Short)
    (hno : ¬AsksUnnamed es policies) :
    parseAttrs m policies (es.map Entry.attr) tb =
      .ok fun j ↦ (tb j).or ((policies[j]?).bind (firstMatch es)) := by
  induction es generalizing tb with
  | nil =>
      rw [List.map_nil, parseAttrs]
      congr 1
      funext j
      cases policies[j]? <;> simp [firstMatch]
  | cons e es ih =>
      obtain ⟨he, hes'⟩ := List.forall_mem_cons.mp hes
      have hhere : ∀ policy ∈ policies, ¬(policy.Matches e ∧ e.name = []) := fun policy hmem hboth ↦
        hno ⟨e, List.mem_cons_self, policy, hmem, hboth⟩
      have hrest : ¬AsksUnnamed es policies := fun ⟨e', hmem, h⟩ ↦
        hno ⟨e', List.mem_cons_of_mem _ hmem, h⟩
      rw [List.map_cons, parseAttrs, parsePolicies_ok he hshort hhere, Except.bind, ih hes' hrest]
      congr 1
      funext j
      unfold Table.put
      cases hpolicy : policies[j]? with
      | none => simp [hpolicy]
      | some policy =>
          by_cases hmatch : policy.Matches e
          · simp [hpolicy, hmatch, firstMatch]
          · simp [hpolicy, hmatch, firstMatch]

/-- The loop ends with -1 at a field without a name that is asked for. -/
theorem parseAttrs_unnamed (hes : ∀ e ∈ es, EntryAt m e)
    (hshort : ∀ policy ∈ policies, policy.Short) (hasks : AsksUnnamed es policies) :
    ∃ tb', parseAttrs m policies (es.map Entry.attr) tb = .error tb' := by
  induction es generalizing tb with
  | nil =>
      obtain ⟨e, hmem, -⟩ := hasks
      cases hmem
  | cons e es ih =>
      obtain ⟨he, hes'⟩ := List.forall_mem_cons.mp hes
      rw [List.map_cons, parseAttrs]
      by_cases hhere : ∃ policy ∈ policies, policy.Matches e ∧ e.name = []
      · obtain ⟨tb', heq⟩ := parsePolicies_unnamed he hshort hhere
        exact ⟨tb', by rw [heq, Except.bind]⟩
      · have hok := @parsePolicies_ok m e policies tb 0 he hshort fun policy hmem hboth ↦
          hhere ⟨policy, hmem, hboth⟩
        rw [hok, Except.bind]
        refine ih hes' ?_
        obtain ⟨e', hmem, policy, h⟩ := hasks
        obtain rfl | hmem := List.mem_cons.mp hmem
        · exact absurd ⟨policy, h⟩ hhere
        · exact ⟨e', hmem, policy, h⟩

end Loops

/-! ## Messages that were built -/

section Built

variable {m : Mem} {a n type : ℕ} {name data : List UInt8}

theorem blobmsgNamelen_eq (h : m.At a (attrBytes type name data)) (hname : name.length < 2 ^ 16) :
    blobmsgNamelen m a = name.length := by
  obtain ⟨-, hnm, -⟩ := at_attrBytes h
  rw [nameBytes, List.append_assoc, Mem.at_append] at hnm
  have hslice := hnm.1
  rw [Mem.At, length_beBytes] at hslice
  rw [blobmsgNamelen, blobData, hslice, beValue_beBytes]
  exact Nat.mod_eq_of_lt hname

theorem nul_of_attrBytes (h : m.At a (attrBytes type name data)) (hname : name.length < 2 ^ 16) :
    m (hdrName a + blobmsgNamelen m a) = 0 := by
  obtain ⟨-, hnm, -⟩ := at_attrBytes h
  have hlen := length_nameBytes name
  have hpos := lt_blobmsgHdrlen name.length
  have hbyte := hnm.apply (show 2 + name.length < (nameBytes name).length by omega)
  rw [blobmsgNamelen_eq h hname, hdrName, blobData, Nat.add_assoc (a + 4), hbyte]
  simp only [nameBytes]
  rw [List.getElem_append_right (by simp), List.getElem_replicate]

/-- The validator accepts an attribute with a name if its data are right. -/
theorem check_attrBytes (h : m.At a (attrBytes type name data)) (htype : type ≤ 7)
    (hname : NameOk name) (hlt : 4 + (nameBytes name).length + data.length < 2 ^ 24)
    (hdata : blobType type ≠ 0 → ∀ ptr, m.At ptr data →
      (blobCheckType (fun _ ↦ 0) m ptr data.length (blobType type)).1 = true) :
    (blobmsgCheckAttr m a true).1 = true ↔ name ≠ [] := by
  have hnamelen := blobmsgNamelen_eq h hname.1
  have hnul := nul_of_attrBytes h hname.1
  obtain ⟨hword, -, hat⟩ := at_attrBytes h
  obtain ⟨hptr, hdlen⟩ := blobmsgData_eq h (by omega) hname hlt
  have hlen := blobLen_of_word hword (by omega) hlt (by omega)
  have hid := blobId_of_word hword (by omega) hlt
  have hhdr := length_nameBytes name
  have hpos := lt_blobmsgHdrlen name.length
  have hid' : blobId m a = type := by omega
  by_cases hempty : name = []
  · have hun : Unnamed m a true := .inr (.inl ⟨by rw [hnamelen, hempty, List.length_nil], rfl⟩)
    obtain ⟨reads, heq, -⟩ := blobmsgCheckAttr_of_unnamed hun
    simp [heq, hempty]
  · have hun : ¬Unnamed m a true := by
      have hne := mt List.eq_nil_of_length_eq_zero hempty
      rintro (hshort | ⟨hzero, -⟩ | hlong) <;> omega
    refine iff_of_true ?_ hempty
    rw [blobmsgCheckAttr_of_not_unnamed hun, if_neg (not_not.mpr hnul), hid', if_neg (by omega)]
    split_ifs with hzero
    · rfl
    · rw [hdlen, hptr]
      exact hdata hzero _ hat

theorem blobCheckType_data (v : Value) (ptr : ℕ) (h : m.At ptr v.data) :
    (blobCheckType (fun _ ↦ 0) m ptr v.data.length (blobType v.type)).1 = true := by
  cases v with
  | string s =>
      have hlast := h.apply (show s.length < (s ++ [0]).length by simp)
      simp only [Value.data, List.getElem_concat_length] at hlast
      have hlen : ¬((s ++ [0]).length : ℤ) < 1 := by
        rw [List.length_append, List.length_singleton]
        omega
      have hindex : (((s ++ [0]).length : ℤ) - 1).toNat = s.length := by
        rw [List.length_append, List.length_singleton]
        omega
      simp only [blobCheckType, Value.type, Value.data, blobType, blobTypeMinlen, attrLast,
        attrString]
      rw [if_neg (by decide), if_neg (by omega), if_neg (by omega), if_pos trivial, hindex, hlast]
      rfl
  | raw data =>
      have hlen : ¬(data.length : ℤ) < blobTypeMinlen (fun _ ↦ 0) 2 :=
        not_lt.mpr (Int.natCast_nonneg data.length)
      simp only [blobCheckType, Value.type, Value.data, blobType, attrLast, attrString]
      rw [if_neg (by decide), if_neg (by omega), if_neg (fun h ↦ hlen h.2), if_neg (by decide)]
  | u8 v => rfl
  | u16 v => simp [blobCheckType, Value.type, Value.data, blobType, blobTypeMinlen, attrLast,
      attrString]
  | u32 v => simp [blobCheckType, Value.type, Value.data, blobType, blobTypeMinlen, attrLast,
      attrString]
  | u64 v => simp [blobCheckType, Value.type, Value.data, blobType, blobTypeMinlen, attrLast,
      attrString]

theorem entryAt_attrBytes (h : m.At a (attrBytes type name data)) (htype : type ≤ 7)
    (hname : NameOk name) (hlt : 4 + (nameBytes name).length + data.length < 2 ^ 24)
    (hdata : blobType type ≠ 0 → ∀ ptr, m.At ptr data →
      (blobCheckType (fun _ ↦ 0) m ptr data.length (blobType type)).1 = true) :
    EntryAt m ⟨a, name, type⟩ := by
  have hid := blobId_of_word (at_attrBytes h).1 (by omega) hlt
  refine ⟨?_, blobmsgNamelen_eq h hname.1, blobmsgName_eq h (by omega) hname hlt,
    check_attrBytes h htype hname hlt hdata⟩
  dsimp only
  omega

/-- The fields of a message are where they are looked for. -/
theorem entryAt_encode (fs : Fields) (hfs : fs.Ok) (h : m.At a (encode fs))
    (hlt : (encode fs).length < 2 ^ 24) : ∀ e ∈ entries fs a, EntryAt m e := by
  induction fs generalizing a with
  | nil => simp [entries]
  | value name v rest ih =>
      obtain ⟨hname, -, hrest⟩ := hfs
      rw [encode, Mem.at_append] at h
      rw [encode, List.length_append] at hlt
      have hrec := ih hrest h.2 (by omega)
      rw [List.length_append, length_attrBytes] at hlt
      have hattr := (Mem.at_append.1 h.1).1
      have htype : v.type ≤ 7 := by cases v <;> simp [Value.type]
      refine List.forall_mem_cons.mpr ⟨entryAt_attrBytes hattr htype hname (by omega) ?_, hrec⟩
      exact fun _ ptr hat ↦ blobCheckType_data v ptr hat
  | nested name array children rest _ ih =>
      obtain ⟨hname, -, hrest⟩ := hfs
      rw [encode, Mem.at_append] at h
      rw [encode, List.length_append] at hlt
      have hrec := ih hrest h.2 (by omega)
      rw [length_attrBytes] at hlt
      have htype : nestedType array ≤ 7 := by cases array <;> decide
      refine List.forall_mem_cons.mpr ⟨entryAt_attrBytes h.1 htype hname (by omega) ?_, hrec⟩
      intro hne
      cases array <;> exact absurd rfl hne

theorem map_attr_entries (fs : Fields) (a : ℕ) : (entries fs a).map Entry.attr = places fs a := by
  induction fs generalizing a with
  | nil => rfl
  | value name v rest ih => rw [entries, places, List.map_cons, ih]
  | nested name array children rest _ ih => rw [entries, places, List.map_cons, ih]

end Built

/-- What `blobmsg_parse` does with a message: it fails if a policy asks for a field without a name
that is there; otherwise the table has the first field for each policy with a name that fits. -/
structure Selects (fs : Fields) (a : ℕ) (policies : List BlobmsgPolicy) (result : ℤ × Table) :
    Prop where
  fails : AsksUnnamed (entries fs a) policies → result.1 = -1
  succeeds : ¬AsksUnnamed (entries fs a) policies → result.1 = 0
  table : ¬AsksUnnamed (entries fs a) policies → ∀ i, (∀ policy ∈ policies[i]?, policy.Short) →
    result.2 i = (policies[i]?).bind (firstMatch (entries fs a))

theorem blobmsgParse_encode {m : Mem} {a n : ℕ} {fs : Fields} {policies : List BlobmsgPolicy}
    (hfs : fs.Ok) (h : m.At a (encode fs)) (hlt : (encode fs).length < 2 ^ 24) (hn : fs.size ≤ n)
    (hwrap : ∀ policy ∈ policies, policy.NoWrap) :
    ∃ result, blobmsgParse m n policies a (encode fs).length = some result ∧
      Selects fs a policies result := by
  obtain ⟨w, hw, hplaces⟩ := attrLoop_encode fs h hlt hn
  have hes := entryAt_encode fs hfs h hlt
  have hshort : ∀ policy ∈ policies.map BlobmsgPolicy.cut, policy.Short :=
    List.forall_mem_map.mpr fun policy _ ↦ policy.short_cut
  rw [blobmsgParse, Int.toNat_natCast, hw, Option.map_some, hplaces, ← map_attr_entries,
    ← parseAttrs_cut hes hwrap]
  refine ⟨_, rfl, ?_⟩
  by_cases hasks : AsksUnnamed (entries fs a) policies
  · obtain ⟨tb', heq⟩ := @parseAttrs_unnamed m _ _ (fun _ ↦ none) hes hshort
      (asksUnnamed_cut.mpr hasks)
    rw [heq]
    exact ⟨fun _ ↦ rfl, fun h ↦ absurd hasks h, fun h ↦ absurd hasks h⟩
  · rw [parseAttrs_ok hes hshort fun h ↦ hasks (asksUnnamed_cut.mp h)]
    refine ⟨fun h ↦ absurd h hasks, fun _ ↦ rfl, fun _ i hi ↦ ?_⟩
    change none.or (((policies.map BlobmsgPolicy.cut)[i]?).bind _) = _
    rw [Option.none_or, List.getElem?_map]
    cases hpolicy : policies[i]? with
    | none => rfl
    | some policy => rw [Option.map_some, (hi policy hpolicy).cut_eq]

/-- A message that was built is parsed as the policies ask. -/
theorem blobmsgParse_build (realloc : ℕ → ℕ) (b : BlobBuf) (id : ℕ) (fs : Fields) (hfs : fs.Ok)
    (hlt : 4 + (encode fs).length < 2 ^ 24) (policies : List BlobmsgPolicy)
    (hwrap : ∀ policy ∈ policies, policy.NoWrap) :
    ∃ b', b.build realloc id fs = some b' ∧ ∀ n, fs.size ≤ n → ∃ result,
      blobmsgParse b'.mem n policies (blobData b'.head) (blobLen b'.mem b'.head) = some result ∧
        Selects fs (blobData b'.head) policies result := by
  obtain ⟨b', hbuild, hlen, hbody⟩ := build_spec realloc b id fs hfs hlt
  refine ⟨b', hbuild, fun n hn ↦ ?_⟩
  rw [hlen]
  exact blobmsgParse_encode hfs hbody (by omega) hn hwrap

/-- A string is asked for by its name, and a field that is not there, behind a name that does not
fit. -/
theorem blobmsgParse_build_string :
    ∃ b', BlobBuf.build (fun len ↦ 1000 * len) ⟨fun _ ↦ 0, 0, 0, 0, rfl⟩ 0
        (.value [97] (.string [104, 105]) .nil) = some b' ∧ ∀ n, 1 ≤ n → ∃ result,
      blobmsgParse b'.mem n [⟨some (List.replicate 257 97), 3⟩, ⟨some [97], 3⟩, ⟨some [98], 0⟩]
          (blobData b'.head) (blobLen b'.mem b'.head) = some result ∧
        Selects (.value [97] (.string [104, 105]) .nil) (blobData b'.head)
          [⟨some (List.replicate 257 97), 3⟩, ⟨some [97], 3⟩, ⟨some [98], 0⟩] result := by
  refine blobmsgParse_build _ _ 0 _ (by simp [Fields.Ok, NameOk, Value.Ok]) (by decide) _ ?_
  refine List.forall_mem_cons.mpr ⟨?_, ?_⟩
  · intro name hname hdvd
    obtain rfl := Option.some.inj hname
    rw [List.length_replicate] at hdvd
    exact absurd hdvd (by decide)
  · intro policy hpolicy
    refine BlobmsgPolicy.Short.noWrap ?_
    rcases List.mem_pair.mp hpolicy with rfl | rfl <;> simp [BlobmsgPolicy.Short]

/-- A field with an empty name is not found by a policy with an empty name. -/
theorem not_blobmsgParse_unnamed :
    ¬∀ (realloc : ℕ → ℕ) (b : BlobBuf) (id : ℕ) (fs : Fields), fs.Ok →
    4 + (encode fs).length < 2 ^ 24 → ∀ policies : List BlobmsgPolicy,
    ∃ b', b.build realloc id fs = some b' ∧ ∀ n, fs.size ≤ n → ∃ result,
      blobmsgParse b'.mem n policies (blobData b'.head) (blobLen b'.mem b'.head) = some result ∧
        result.1 = 0 ∧
          ∀ i, result.2 i = (policies[i]?).bind (firstMatch (entries fs (blobData b'.head))) := by
  intro h
  have hfs : (Fields.value [] (.u32 7) .nil).Ok := by simp [Fields.Ok, NameOk, Value.Ok]
  have hlt : 4 + (encode (.value [] (.u32 7) .nil)).length < 2 ^ 24 := by decide
  obtain ⟨realloc, hrealloc⟩ : ∃ realloc : ℕ → ℕ, realloc = fun len ↦ 1000 * len := ⟨_, rfl⟩
  obtain ⟨b, hb⟩ : ∃ b : BlobBuf, b = ⟨fun _ ↦ 0, 0, 0, 0, rfl⟩ := ⟨_, rfl⟩
  obtain ⟨b', hbuild, hparse⟩ := h realloc b 0 _ hfs hlt [⟨some [], 0⟩]
  obtain ⟨b'', hbuild', hlen, hbody⟩ := build_spec realloc b 0 _ hfs hlt
  obtain rfl : b' = b'' := Option.some_inj.mp (hbuild.symm.trans hbuild')
  obtain ⟨result, hresult, hzero, -⟩ := hparse _ le_rfl
  rw [hlen] at hresult
  obtain ⟨result', hresult', hselects⟩ := @blobmsgParse_encode _ _ _ _ [⟨some [], 0⟩] hfs hbody
    (by omega) le_rfl (by simp [BlobmsgPolicy.NoWrap])
  obtain rfl : result = result' := Option.some_inj.mp (hresult.symm.trans hresult')
  have hasks : AsksUnnamed (entries (.value [] (.u32 7) .nil) (blobData b'.head))
      [⟨some [], 0⟩] := by
    simp [AsksUnnamed, entries, BlobmsgPolicy.Matches]
  have := hselects.fails hasks
  omega

end MiniPi.Blob
