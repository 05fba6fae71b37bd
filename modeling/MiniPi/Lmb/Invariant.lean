import MiniPi.Lib.Run
import MiniPi.Lmb.Alloc

/-!
# The tables along every run of the allocator

Six calls change the two tables, and each of them changes a table in one of two
ways: `lmb_free` may rewrite or drop one region in place, and everything else is
one call of `lmb_add_region`.  `addCall` says which such call an operation makes,
if it makes one.

A run of operations keeps both tables sorted and disjoint as long as the
arguments of every call of `lmb_add_region` are safe (`AddSafe`) and no limited
allocation is asked for more bytes than lie below its limit (`NoUnderflow`).
-/

open MiniPi.Lib

namespace MiniPi.Lmb

variable {w : ℕ}

/-- A call of the interface that changes the tables. -/
inductive Op (w : ℕ) where
  /-- `lmb_add`. -/
  | add (base size : BitVec w)
  /-- `lmb_reserve`. -/
  | reserve (base size : BitVec w)
  /-- `lmb_free`. -/
  | free (base size : BitVec w)
  /-- `lmb_alloc`. -/
  | alloc (size align : BitVec w)
  /-- `lmb_alloc_base`. -/
  | allocBase (size align maxAddr : BitVec w)
  /-- `lmb_alloc_addr`. -/
  | allocAddr (base size : BitVec w)
deriving DecidableEq, Repr

namespace Op

/-- The state after a call. -/
def run (lmb : Tables w) : Op w → Option (Tables w)
  | add base size => some (lmbAdd lmb base size).2
  | reserve base size => some (lmbReserve lmb base size).2
  | free base size => some (lmbFree lmb base size).2
  | alloc size align => (lmbAlloc lmb size align).map Prod.snd
  | allocBase size align maxAddr => (lmbAllocBase lmb size align maxAddr).map Prod.snd
  | allocAddr base size => some (lmbAllocAddr lmb base size).2

/-- The ranges passed are not empty and do not wrap. -/
def Args : Op w → Prop
  | add base size => Property.Fits ⟨base, size⟩
  | reserve base size => Property.Fits ⟨base, size⟩
  | free base size => Property.Fits ⟨base, size⟩
  | alloc size _ => 0 < size.toNat
  | allocBase size _ _ => 0 < size.toNat
  | allocAddr base size => Property.Fits ⟨base, size⟩

/-- The call of `lmb_add_region` that `__lmb_alloc_base` makes. -/
def allocCall (lmb : Tables w) (size align maxAddr : BitVec w) :
    Option (Region w × Property w) :=
  match findBase lmb.reserved size align maxAddr lmb.memory.reverse with
  | some (some b) => some (lmb.reserved, ⟨b, size⟩)
  | _ => none

/-- The call of `lmb_add_region` that an operation makes: the table and the range. -/
def addCall (lmb : Tables w) : Op w → Option (Region w × Property w)
  | add base size => some (lmb.memory, ⟨base, size⟩)
  | reserve base size => some (lmb.reserved, ⟨base, size⟩)
  | free base size =>
      match freePlan lmb.reserved base size with
      | .split rgn back => some (rgn, back)
      | _ => none
  | alloc size align => allocCall lmb size align lmbAllocAnywhere
  | allocBase size align maxAddr => allocCall lmb size align maxAddr
  | allocAddr base size =>
      if inMemory lmb.memory base size then some (lmb.reserved, ⟨base, size⟩) else none

/-- The condition under which an operation keeps the tables: a limited allocation
does not ask for more than lies below its limit, and the range handed to
`lmb_add_region` is safe for its table. -/
structure Safe (lmb : Tables w) (op : Op w) : Prop where
  limit : ∀ size align maxAddr, op = allocBase size align maxAddr →
    NoUnderflow lmb.memory size maxAddr
  range : ∀ t new, addCall lmb op = some (t, new) → AddSafe t new

end Op

/-! ## Freeing -/

/-- A region that contains a range contains its segment. -/
theorem containsRange_iff {new r : Property w} (hn : new.Fits) (hr : r.Fits) :
    containsRange new.base (new.base + new.size - 1) r = true ↔
      r.lo ≤ new.lo ∧ new.hi ≤ r.hi := by
  have hpn := hn.pos
  have hpr := hr.pos
  simp only [containsRange, Bool.and_eq_true, decide_eq_true_eq, BitVec.le_def,
    toNat_last hn, toNat_last hr, Property.lo, Property.hi]
  omega

/-- What the rewriting in place of `lmb_free` leaves behind. -/
def FreeSpec (t : Region w) : FreePlan w → Prop
  | .notFound => True
  | .done rgn => Valid rgn ∧ rgn.length ≤ t.length
  | .split rgn back => Valid rgn ∧ rgn.length ≤ t.length ∧ back.Fits

/-- The region the loop of `lmb_free` stops at. -/
theorem span_containsRange {t before after : Region w} {base last : BitVec w} {r : Property w}
    (h : t.span (fun r ↦ !containsRange base last r) = (before, r :: after)) :
    t = before ++ r :: after ∧ containsRange base last r = true := by
  rw [List.span_eq_takeWhile_dropWhile, Prod.mk.injEq] at h
  obtain ⟨h₁, h₂⟩ := h
  refine ⟨?_, ?_⟩
  · rw [← h₁, ← h₂, List.takeWhile_append_dropWhile]
  · have := List.head_dropWhile_not (fun r ↦ !containsRange base last r) (l := t) (by simp [h₂])
    simpa [h₂] using this

/-- A region may be replaced by a non-empty part of itself. -/
theorem Valid.shrink {before after : Region w} {r r' : Property w}
    (hv : Valid (before ++ r :: after)) (hlo : r.lo ≤ r'.lo) (hlt : r'.lo < r'.hi)
    (hhi : r'.hi ≤ r.hi) : Valid (before ++ r' :: after) ∧ r'.Fits := by
  obtain ⟨-, -, -, hbr, hra, -⟩ := Segments.sorted_middle.mp hv.sorted
  have hfits : r'.Fits := by
    refine ⟨?_, hhi.trans (hv.top r (by simp))⟩
    have := r'.size_eq
    omega
  exact ⟨hv.replace hfits (fun c hc ↦ (hbr c hc).trans hlo) fun c hc ↦ hhi.trans (hra c hc), hfits⟩

theorem toNat_last_add_one (new : Property w) (h : new.hi < 2 ^ w) :
    (new.base + new.size - 1 + 1).toNat = new.hi := by
  rw [BitVec.sub_add_cancel, BitVec.toNat_add]
  exact Nat.mod_eq_of_lt h

/-- What `lmb_free` does up to its call of `lmb_add_region`: it finds no region that contains the
range, or it drops the region, cuts it off at one end or splits it. -/
inductive Cut (t : Region w) (new : Property w) : FreePlan w → Prop
  | notFound : (∀ r ∈ t, ¬(r.lo ≤ new.lo ∧ new.hi ≤ r.hi)) → Cut t new .notFound
  | whole {before after : Region w} {r : Property w} : t = before ++ r :: after →
      r.lo = new.lo → r.hi = new.hi → Cut t new (.done (before ++ after))
  | front {before after : Region w} {r rest : Property w} : t = before ++ r :: after →
      r.lo = new.lo → new.hi < r.hi → rest.lo = new.hi → rest.hi = r.hi →
      Cut t new (.done (before ++ rest :: after))
  | back {before after : Region w} {r rest : Property w} : t = before ++ r :: after →
      r.lo < new.lo → r.hi = new.hi → rest.lo = r.lo → rest.hi = new.lo →
      Cut t new (.done (before ++ rest :: after))
  | split {before after : Region w} {r front back : Property w} : t = before ++ r :: after →
      r.lo < new.lo → new.hi < r.hi → front.lo = r.lo → front.hi = new.lo →
      back.lo = new.hi → back.hi = r.hi → Cut t new (.split (before ++ front :: after) back)

theorem freePlan_cut {t : Region w} {new : Property w} (hv : Valid t) (hn : new.Fits) :
    Cut t new (freePlan t new.base new.size) := by
  unfold freePlan
  dsimp only
  rcases hsp : t.span fun r ↦ !containsRange new.base (new.base + new.size - 1) r with
    ⟨before, - | ⟨r, after⟩⟩
  · refine .notFound fun r hr hcon ↦ ?_
    rw [List.span_eq_takeWhile_dropWhile, Prod.mk.injEq, List.dropWhile_eq_nil_iff] at hsp
    have hno := hsp.2 r hr
    rw [(containsRange_iff hn (hv.fits hr)).mpr hcon] at hno
    exact absurd hno (by simp)
  obtain ⟨rfl, hc⟩ := span_containsRange hsp
  have hr : r.Fits := hv.fits (by simp)
  obtain ⟨hlo, hhi⟩ := (containsRange_iff hn hr).mp hc
  have hns := new.size_eq
  have hrs := r.size_eq
  have hnlt := hn.lo_lt_hi
  have hrt := hr.top
  have hlast : r.base + r.size - 1 = new.base + new.size - 1 ↔ r.hi = new.hi := by
    rw [← BitVec.toNat_inj, toNat_last hn, toNat_last hr]
    change r.hi - 1 = new.hi - 1 ↔ _
    omega
  have hbase : r.base = new.base ↔ r.lo = new.lo := BitVec.toNat_inj.symm
  have hsub : (r.size - new.size).toNat = r.size.toNat - new.size.toNat :=
    BitVec.toNat_sub_of_le (BitVec.le_def.mpr (by omega))
  dsimp only
  split_ifs with hall hfront hback
  · rw [hlast, hbase] at hall
    exact .whole rfl hall.1 hall.2
  · rw [hlast, hbase] at hall
    rw [hbase] at hfront
    obtain ⟨hlo', hhi'⟩ := lo_hi_of_toNat _ _ (a := new.hi) (b := r.hi)
      (toNat_last_add_one new (by omega)) (hsub.trans (by omega)) (by omega)
    exact .front rfl hfront (by omega) hlo' hhi'
  · rw [hlast] at hback
    rw [hbase] at hfront
    obtain ⟨hlo', hhi'⟩ := lo_hi_of_toNat r.base _ (a := r.lo) (b := new.lo) rfl
      (hsub.trans (by omega)) hlo
    exact .back rfl (by omega) hback hlo' hhi'
  · rw [hlast] at hback
    rw [hbase] at hfront
    have hcut : (new.base - r.base).toNat = new.lo - r.lo :=
      BitVec.toNat_sub_of_le (BitVec.le_def.mpr hlo)
    have hrest : (r.base + r.size - 1 - (new.base + new.size - 1)).toNat = r.hi - new.hi := by
      rw [BitVec.toNat_sub_of_le, toNat_last hr, toNat_last hn]
      · change r.hi - 1 - (new.hi - 1) = _
        omega
      · rw [BitVec.le_def, toNat_last hr, toNat_last hn]
        change new.hi - 1 ≤ r.hi - 1
        omega
    obtain ⟨hlo₁, hhi₁⟩ := lo_hi_of_toNat r.base _ (a := r.lo) (b := new.lo) rfl hcut hlo
    obtain ⟨hlo₂, hhi₂⟩ := lo_hi_of_toNat _ _ (toNat_last_add_one new (by omega)) hrest hhi
    exact .split rfl (by omega) (by omega) hlo₁ hhi₁ hlo₂ hhi₂

theorem freePlan_spec {t : Region w} {new : Property w} (hv : Valid t) (hn : new.Fits) :
    FreeSpec t (freePlan t new.base new.size) := by
  have hcut := freePlan_cut hv hn
  have hnlt := hn.lo_lt_hi
  generalize freePlan t new.base new.size = plan at hcut ⊢
  cases hcut with
  | notFound => trivial
  | whole heq =>
      subst heq
      exact ⟨hv.erase, by simp⟩
  | front heq hlo hhi hlo' hhi' | back heq hlo hhi hlo' hhi' =>
      subst heq
      exact ⟨(hv.shrink (by omega) (by omega) (by omega)).1, by simp⟩
  | split heq hlo hhi hlo₁ hhi₁ hlo₂ hhi₂ =>
      subst heq
      exact ⟨(hv.shrink hlo₁.ge (by omega) (by omega)).1, by simp,
        (hv.shrink (by omega) (by omega) hhi₂.le).2⟩

/-! ## One operation -/

/-- A table as the interface promises it: sorted strictly by base, with pairwise
disjoint regions, and within its array. -/
structure Sound (t : Region w) : Prop where
  sorted : t.Pairwise fun a b ↦ a.base < b.base
  disjoint : t.Pairwise fun a b ↦ Disjoint a.bytes b.bytes
  bounded : t.length ≤ maxLmbRegions

/-- What holds of both tables along every safe run. -/
structure Inv (lmb : Tables w) : Prop where
  memory : Valid lmb.memory
  reserved : Valid lmb.reserved
  memoryLength : lmb.memory.length ≤ maxLmbRegions
  reservedLength : lmb.reserved.length ≤ maxLmbRegions

theorem Valid.sound {t : Region w} (hv : Valid t) (h : t.length ≤ maxLmbRegions) : Sound t where
  sorted := hv.sorted.pairwise_lo_lt.imp BitVec.lt_def.mpr
  disjoint := hv.sorted.pairwise_disjoint
  bounded := h

theorem allocCall_spec {lmb : Tables w} {size align maxAddr : BitVec w} (hi : Inv lmb)
    (hs : 0 < size.toNat) (hu : NoUnderflow lmb.memory size maxAddr) {t : Region w}
    {new : Property w} (h : Op.allocCall lmb size align maxAddr = some (t, new)) :
    Valid t ∧ t.length ≤ maxLmbRegions ∧ new.Fits := by
  unfold Op.allocCall at h
  split at h
  · rename_i b hf
    simp only [Option.some.injEq, Prod.mk.injEq] at h
    obtain ⟨rfl, rfl⟩ := h
    obtain ⟨-, -, -, -, hn⟩ := findBase_candidate hi.memory hi.reserved hs hu hf
    exact ⟨hi.reserved, hi.reservedLength, hn⟩
  · simp at h

/-- The arguments of the `lmb_add_region` an operation makes are a valid table
within its bound and a range that fits. -/
theorem addCall_spec {lmb : Tables w} {op : Op w} (hi : Inv lmb) (ha : op.Args)
    (hs : op.Safe lmb) {t : Region w} {new : Property w} (h : op.addCall lmb = some (t, new)) :
    Valid t ∧ t.length ≤ maxLmbRegions ∧ new.Fits := by
  cases op with
  | add base size =>
      simp only [Op.addCall, Option.some.injEq, Prod.mk.injEq] at h
      obtain ⟨rfl, rfl⟩ := h
      exact ⟨hi.memory, hi.memoryLength, ha⟩
  | reserve base size =>
      simp only [Op.addCall, Option.some.injEq, Prod.mk.injEq] at h
      obtain ⟨rfl, rfl⟩ := h
      exact ⟨hi.reserved, hi.reservedLength, ha⟩
  | free base size =>
      have hspec := freePlan_spec hi.reserved ha
      simp only [Op.addCall] at h
      split at h
      · rename_i rgn back hplan
        rw [hplan] at hspec
        simp only [Option.some.injEq, Prod.mk.injEq] at h
        obtain ⟨rfl, rfl⟩ := h
        exact ⟨hspec.1, hspec.2.1.trans hi.reservedLength, hspec.2.2⟩
      · simp at h
  | alloc size align => exact allocCall_spec hi ha (Or.inl rfl) h
  | allocBase size align maxAddr => exact allocCall_spec hi ha (hs.limit _ _ _ rfl) h
  | allocAddr base size =>
      simp only [Op.addCall] at h
      split_ifs at h
      simp only [Option.some.injEq, Prod.mk.injEq] at h
      obtain ⟨rfl, rfl⟩ := h
      exact ⟨hi.reserved, hi.reservedLength, ha⟩

theorem runAlloc_inv {lmb : Tables w} {size align maxAddr : BitVec w} (hi : Inv lmb)
    (hs : 0 < size.toNat)
    (hcall : ∀ t new, Op.allocCall lmb size align maxAddr = some (t, new) →
      AddSpec t new (lmbAddRegion t new.base new.size)) :
    ∃ b lmb', lmbAllocBaseCore lmb size align maxAddr = some (b, lmb') ∧ Inv lmb' := by
  unfold lmbAllocBaseCore
  unfold Op.allocCall at hcall
  cases hf : findBase lmb.reserved size align maxAddr lmb.memory.reverse with
  | none => exact absurd hf (findBase_ne_none hi.reserved hs _)
  | some res =>
      cases res with
      | none => exact ⟨0, lmb, rfl, hi⟩
      | some b =>
          rw [hf] at hcall
          have hadd := hcall _ _ rfl
          exact ⟨_, _, rfl, hi.memory, hadd.valid, hi.memoryLength,
            hadd.length hi.reservedLength⟩

/-- An operation with proper arguments returns, and it keeps the tables when its
call of `lmb_add_region` keeps its promise. -/
theorem run_inv {lmb : Tables w} {op : Op w} (hi : Inv lmb) (ha : op.Args)
    (hcall : ∀ t new, op.addCall lmb = some (t, new) →
      AddSpec t new (lmbAddRegion t new.base new.size)) :
    ∃ lmb', op.run lmb = some lmb' ∧ Inv lmb' := by
  cases op with
  | add base size =>
      have hadd := hcall _ _ rfl
      exact ⟨_, rfl, hadd.valid, hi.reserved, hadd.length hi.memoryLength, hi.reservedLength⟩
  | reserve base size =>
      have hadd := hcall _ _ rfl
      exact ⟨_, rfl, hi.memory, hadd.valid, hi.memoryLength, hadd.length hi.reservedLength⟩
  | free base size =>
      refine ⟨_, rfl, ?_⟩
      have hspec := freePlan_spec hi.reserved ha
      simp only [Op.addCall] at hcall
      unfold lmbFree
      dsimp only at hspec
      cases hplan : freePlan lmb.reserved base size with
      | notFound => exact hi
      | done rgn =>
          rw [hplan] at hspec
          exact ⟨hi.memory, hspec.1, hi.memoryLength, hspec.2.trans hi.reservedLength⟩
      | split rgn back =>
          rw [hplan] at hspec hcall
          have hadd := hcall _ _ rfl
          exact ⟨hi.memory, hadd.valid, hi.memoryLength,
            hadd.length (hspec.2.1.trans hi.reservedLength)⟩
  | alloc size align =>
      obtain ⟨b, lmb', h, hi'⟩ := runAlloc_inv hi ha hcall
      exact ⟨lmb', by simp [Op.run, lmbAlloc, lmbAllocBase, h], hi'⟩
  | allocBase size align maxAddr =>
      obtain ⟨b, lmb', h, hi'⟩ := runAlloc_inv hi ha hcall
      exact ⟨lmb', by simp [Op.run, lmbAllocBase, h], hi'⟩
  | allocAddr base size =>
      refine ⟨_, rfl, ?_⟩
      simp only [Op.addCall] at hcall
      unfold lmbAllocAddr
      split_ifs at hcall ⊢
      · have hadd := hcall _ _ rfl
        exact ⟨hi.memory, hadd.valid, hi.memoryLength, hadd.length hi.reservedLength⟩
      · exact hi

/-! ## Runs -/

/-- A move of the allocator: an operation with proper arguments. -/
structure Move (lmb : Tables w) (op : Op w) (lmb' : Tables w) : Prop where
  args : op.Args
  run : op.run lmb = some lmb'

/-- A move that starts in a state in which the operation is safe. -/
structure SafeMove (lmb : Tables w) (op : Op w) (lmb' : Tables w) : Prop
    extends Move lmb op lmb' where
  /-- The operation is safe in the state it is taken in. -/
  safe : op.Safe lmb

/-- Every safe call of `lmb_add_region` keeps its promise. -/
theorem addCall_addSpec {lmb : Tables w} {op : Op w} (hi : Inv lmb) (ha : op.Args)
    (hs : op.Safe lmb) {t : Region w} {new : Property w} (h : op.addCall lmb = some (t, new)) :
    AddSpec t new (lmbAddRegion t new.base new.size) := by
  obtain ⟨hv, -, hn⟩ := addCall_spec hi ha hs h
  exact lmbAddRegion_spec hv hn (hs.range t new h)

theorem safeMove_inv (lmb : Tables w) (op : Op w) (lmb' : Tables w) (hi : Inv lmb)
    (h : SafeMove lmb op lmb') : Inv lmb' := by
  obtain ⟨lmb'', hrun, hi'⟩ := run_inv hi h.args fun _ _ ↦ addCall_addSpec hi h.args h.safe
  rw [h.run] at hrun
  exact Option.some.inj hrun ▸ hi'

/-- Both tables stay sorted, disjoint and within their arrays in every state a safe
run reaches.  Whatever safe operation comes next returns, and the call of
`lmb_add_region` it makes either fails and changes nothing or adds exactly its
range, which was free or a region already. -/
theorem tables_sound_of_safe_run {ops : List (Op w)} {lmb : Tables w}
    (h : Run SafeMove lmbInit ops lmb) :
    Sound lmb.memory ∧ Sound lmb.reserved ∧
      ∀ op : Op w, op.Args → op.Safe lmb →
        (∃ lmb', op.run lmb = some lmb') ∧
        ∀ t new, op.addCall lmb = some (t, new) →
          ((lmbAddRegion t new.base new.size).1 < 0 →
            (lmbAddRegion t new.base new.size).2 = t) ∧
          (0 ≤ (lmbAddRegion t new.base new.size).1 →
            covered (lmbAddRegion t new.base new.size).2 = covered t ∪ new.bytes ∧
            (Disjoint (covered t) new.bytes ∨ new ∈ t)) := by
  have hi : Inv lmb := h.invariant safeMove_inv
    ⟨Valid.nil, Valid.nil, Nat.zero_le _, Nat.zero_le _⟩
  refine ⟨hi.memory.sound hi.memoryLength, hi.reserved.sound hi.reservedLength,
    fun op ha hs ↦ ⟨?_, fun t new hcall ↦ ?_⟩⟩
  · obtain ⟨lmb', hrun, -⟩ := run_inv hi ha fun _ _ ↦ addCall_addSpec hi ha hs
    exact ⟨lmb', hrun⟩
  · have hadd := addCall_addSpec hi ha hs hcall
    exact ⟨hadd.unchanged, fun hret ↦ ⟨hadd.added hret, hadd.fresh hret⟩⟩

/-- Two regions with a gap of 16 bytes between them, and a range of 24 bytes from
the end of the first: the scan extends the first region without ever comparing the
range with the second one. -/
theorem tables_overlap_of_adjacent_add :
    ¬∀ (ops : List (Op 32)) (lmb : Tables 32), Run Move lmbInit ops lmb →
      Sound lmb.reserved := by
  intro h
  have hrun : Run Move (lmbInit : Tables 32)
      [.reserve 0x40000000 0x10, .reserve 0x40000020 0x10, .reserve 0x40000010 0x18]
      ⟨[], [⟨0x40000000, 0x28⟩, ⟨0x40000020, 0x10⟩]⟩ := by
    refine .cons ⟨⟨by decide, by decide⟩, rfl⟩ <| .cons ⟨⟨by decide, by decide⟩, rfl⟩ <|
      .cons ⟨⟨by decide, by decide⟩, ?_⟩ (.nil _)
    decide
  have hd := (List.pairwise_cons.mp (h _ _ hrun).disjoint).1 _ List.mem_cons_self
  exact Set.disjoint_left.mp hd
    (show 0x40000020 ∈ _ from ⟨by decide, by decide⟩) ⟨by decide, by decide⟩

/-- 512 MiB of memory of which the first page is reserved. -/
theorem tables_sound_after_reserve :
    Run SafeMove (lmbInit : Tables 32)
        [.add 0x40000000 0x20000000, .reserve 0x40000000 0x1000]
        ⟨[⟨0x40000000, 0x20000000⟩], [⟨0x40000000, 0x1000⟩]⟩ ∧
      Sound ([⟨0x40000000, 0x20000000⟩] : Region 32) ∧
      Sound ([⟨0x40000000, 0x1000⟩] : Region 32) := by
  have hsafe : ∀ (lmb : Tables 32) (op : Op 32),
      (∀ size align maxAddr, op ≠ .allocBase size align maxAddr) →
      (∀ t new, op.addCall lmb = some (t, new) → t = []) → op.Safe lmb := by
    intro lmb op hop hnil
    refine ⟨fun size align maxAddr h ↦ absurd h (hop _ _ _), fun t new h ↦ ?_⟩
    obtain rfl := hnil t new h
    exact ⟨by simp, by simp, by simp, by simp⟩
  have hrun : Run SafeMove (lmbInit : Tables 32)
      [.add 0x40000000 0x20000000, .reserve 0x40000000 0x1000]
      ⟨[⟨0x40000000, 0x20000000⟩], [⟨0x40000000, 0x1000⟩]⟩ := by
    refine .cons ⟨⟨⟨by decide, by decide⟩, rfl⟩, hsafe _ _ (by simp) ?_⟩ <|
      .cons ⟨⟨⟨by decide, by decide⟩, rfl⟩, hsafe _ _ (by simp) ?_⟩ (.nil _)
    · rintro t new ⟨⟩
      rfl
    · rintro t new ⟨⟩
      rfl
  obtain ⟨hm, hr, -⟩ := tables_sound_of_safe_run hrun
  exact ⟨hrun, hm, hr⟩

end MiniPi.Lmb
