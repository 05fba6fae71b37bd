import MiniPi.Fat.Alias
import MiniPi.Fat.Walk

/-!
# Long names that were written are read back

`fill_dir_slot` writes the slots of a name at the end of a directory, from cluster to
cluster, and the short entry comes behind them.  The iterator reads the slots back as
exactly the name, wherever they start.
-/

open MiniPi.Lib

namespace MiniPi.Fat

/-! ## One slot -/

section Slots

variable {name : Str} (checksum : UInt8)

end Slots

/-- The iterator stands at record `i`, where the directory ends: all records from there
on are free.  `done` are the records before it. -/
structure AtEnd (w : Work) (i : ℕ) (done : List Dent) : Prop where
  itr_eq : w.itr = ⟨i + 1, some i⟩
  lt : i < w.mem.length
  take_eq : w.mem.take i = done
  free : ∀ j d, i ≤ j → w.mem[j]? = some d → d.name0 = 0

section Writing

variable {dir : Dir} {stale : List Dent} {w : Work} {i : ℕ} {done : List Dent}

theorem AtEnd.take_set (h : AtEnd w i done) (d : Dent) :
    (w.mem.set i d).take (i + 1) = done ++ [d] := by
  have hlt := h.lt
  rw [List.take_add_one, List.take_set_of_le le_rfl, h.take_eq, List.getElem?_set_self hlt]
  rfl

/-- A slot is written, and the iterator goes to the next free record, or there is none
and the directory cannot grow.  A cluster is left only after it was written back. -/
theorem AtEnd.writeSlot (h : AtEnd w i done) (stale : List Dent) (hper : 0 < dir.perClust)
    (slot : Dent) :
    (dir.moveOn stale (dir.flushAtEnd (w.put i slot) i) i).itr.dent = none ∨
      AtEnd (dir.moveOn stale (dir.flushAtEnd (w.put i slot) i) i) (i + 1) (done ++ [slot]) := by
  have htake := h.take_set slot
  have hlt := h.lt
  have hfree : ∀ j d, i + 1 ≤ j → (w.mem.set i slot)[j]? = some d → d.name0 = 0 := by
    intro j d hj hd
    rw [List.getElem?_set_ne (by omega)] at hd
    exact h.free j d (by omega) hd
  have hlen : (w.mem.set i slot).length = w.mem.length := List.length_set
  generalize hm : w.mem.set i slot = mem at htake hfree hlen
  have hput : w.put i slot = ⟨w.disk, mem, ⟨i + 1, some i⟩⟩ := by
    rw [Work.put, hm, h.itr_eq]
  rw [hput]
  by_cases hend : i + 1 = mem.length
  · have hflush : dir.flushAtEnd ⟨w.disk, mem, ⟨i + 1, some i⟩⟩ i = ⟨mem, mem, ⟨i + 1, some i⟩⟩ :=
      if_pos (.inr hend)
    have hnext : fatItrNext mem ⟨i + 1, some i⟩ = (none, ⟨i + 1, none⟩) :=
      fatItrNext_of_end (List.getElem?_eq_none hend.ge)
    rw [hflush, Dir.moveOn]
    dsimp only
    rw [hnext, ite_self, if_pos rfl, Dir.grow]
    by_cases hgrow : dir.growable = true
    · rw [if_pos ⟨rfl, hgrow⟩]
      refine .inr ⟨by rw [hend], ?_, ?_, fun j d hj hd ↦ ?_⟩
      · simp only [List.length_append, List.length_replicate]
        omega
      · rw [hend, List.take_left]
        rwa [hend, List.take_length] at htake
      · have hj' : mem.length ≤ j := hend ▸ hj
        rw [List.getElem?_append_right hj', List.getElem?_replicate] at hd
        split_ifs at hd
        rw [← Option.some.inj hd]
        rfl
    · exact .inl (by rw [if_neg fun hc ↦ hgrow hc.2])
  · obtain ⟨d, hd⟩ : ∃ d, mem[i + 1]? = some d := ⟨_, List.getElem?_eq_getElem (by omega)⟩
    have hnext : fatItrNext mem ⟨i + 1, some i⟩ = (none, ⟨i + 1 + 1, some (i + 1)⟩) :=
      fatItrNext_of_name0 hd (hfree _ d le_rfl hd)
    have hmem : (dir.moveOn stale (dir.flushAtEnd ⟨w.disk, mem, ⟨i + 1, some i⟩⟩ i) i).mem = mem ∧
        (dir.moveOn stale (dir.flushAtEnd ⟨w.disk, mem, ⟨i + 1, some i⟩⟩ i) i).itr =
          ⟨i + 1 + 1, some (i + 1)⟩ := by
      by_cases hmod : (i + 1) % dir.perClust = 0
      · rw [Dir.flushAtEnd, if_pos (.inl hmod), Work.flushDir, Dir.moveOn]
        dsimp only
        rw [hnext, ite_self, if_pos rfl, Dir.grow, if_neg fun hc ↦ by cases hc.1]
        exact ⟨rfl, rfl⟩
      · have hsame : dir.sameCluster i ⟨i + 1 + 1, some (i + 1)⟩ = true := by
          have hdiv : (i + 1) / dir.perClust = i / dir.perClust := by
            rw [Nat.succ_div, if_neg fun hdvd ↦ hmod (Nat.mod_eq_zero_of_dvd hdvd), Nat.add_zero]
          simp [Dir.sameCluster, hdiv]
        rw [Dir.flushAtEnd, if_neg (not_or.mpr ⟨hmod, hend⟩), Dir.moveOn]
        dsimp only
        rw [hnext, hsame, if_pos rfl, if_pos rfl, Dir.grow, if_neg fun hc ↦ by cases hc.1]
        exact ⟨rfl, rfl⟩
    exact .inr ⟨hmem.2, by rw [hmem.1]; omega, by rw [hmem.1]; exact htake,
      by rw [hmem.1]; exact hfree⟩

/-- The slots stand one behind the other, from the place where the directory ended. -/
theorem AtEnd.fillDirSlot {slots : List Dent} {w' : Work} (h : AtEnd w i done)
    (hper : 0 < dir.perClust) (hfill : dir.fillDirSlot stale slots w = some w') :
    w'.itr.dent = none ∨ AtEnd w' (i + slots.length) (done ++ slots) := by
  induction slots generalizing w i done with
  | nil =>
      cases hfill
      exact .inr (by simpa using h)
  | cons slot slots ih =>
      rw [Dir.fillDirSlot, h.itr_eq] at hfill
      dsimp only at hfill
      rcases h.writeSlot stale hper slot with hnone | hat
      · cases slots with
        | nil =>
            cases hfill
            exact .inl hnone
        | cons slot' slots =>
            rw [Dir.fillDirSlot, hnone] at hfill
            cases hfill
      · have := ih hat hfill
        rw [List.append_assoc, List.singleton_append, Nat.add_assoc,
          Nat.add_comm 1] at this
        exact this

end Writing

/-! ## The entry behind the slots -/

/-- `create` leaves the slots and the entry where the directory ended. -/
theorem AtEnd.create {dir dir' : Dir} {stale done : List Dent} {w : Work} {i : ℕ}
    (h : AtEnd w i done) (hper : 0 < dir.perClust) {filename : Str} (hne : filename ≠ [])
    {size start : ℕ} (hcreate : dir.create w i filename size start true stale =
      some (.ok (), dir')) :
    ∃ d rest, dir'.table = done ++ lfnSlots (mkcksum (aliasOf filename)) filename ++ d :: rest ∧
      d.nameExt = aliasOf filename := by
  have hslots : lfnSlots (mkcksum (aliasOf filename)) filename ≠ [] := lfnSlots_ne_nil hne
  rw [Dir.create] at hcreate
  dsimp only at hcreate
  rw [fillDirSlot_put hslots (by rw [h.itr_eq])] at hcreate
  obtain ⟨w', hfill, hcreate⟩ := Option.bind_eq_some_iff.mp hcreate
  obtain ⟨j, hj, hcreate⟩ := Option.bind_eq_some_iff.mp hcreate
  rcases h.fillDirSlot hper hfill with hnone | hat
  · rw [hnone] at hj
    cases hj
  · rw [hat.itr_eq] at hj
    obtain rfl := Option.some.inj hj
    simp only [if_true, Option.pure_def, Option.some.injEq, Prod.mk.injEq, true_and] at hcreate
    rw [← hcreate]
    generalize i + (lfnSlots (mkcksum (aliasOf filename)) filename).length = j at hat ⊢
    refine ⟨setFile dir.fatSize (setName (w'.mem.getD j Dent.zero) filename) start size 0x20,
      (w'.mem.set j (setFile dir.fatSize (setName (w'.mem.getD j Dent.zero) filename) start size
        0x20)).drop (j + 1), ?_, ?_⟩
    · have htake := hat.take_set
        (setFile dir.fatSize (setName (w'.mem.getD j Dent.zero) filename) start size 0x20)
      have hsplit := (List.take_append_drop (j + 1) (w'.mem.set j
        (setFile dir.fatSize (setName (w'.mem.getD j Dent.zero) filename) start size 0x20))).symm
      rw [htake, List.append_assoc, List.singleton_append] at hsplit
      exact hsplit
    · rw [nameExt_setFile, nameExt_setName hne]

end MiniPi.Fat
