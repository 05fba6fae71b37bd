import Mathlib.Data.List.Find
import Mathlib.Data.List.Perm.Subperm
import MiniPi.Net.Fragments

/-!
# Reassembly gives the payload back

The fragments of one payload arrive in any order and any number of times.  The invariant ties the
holes of the buffer to the gaps that the arrived fragments leave, and says that the arrived
fragments are in their places.  It is kept as long as no step needs the link back to the hole at
block 0, which cannot be told from "no hole".
-/

namespace MiniPi.Net

open Lib

section Payload

variable (P : List UInt8) (s : Cuts P.length) (id : List UInt8)

/-- The number of bytes of a fragment. -/
def Cuts.len {n : ℕ} (s : Cuts n) (f : ℕ) : ℕ := s.cut (f + 1) - s.cut f

/-- The packet carries the fragment `f`. -/
structure IsFragment (f : ℕ) (ip : Packet) : Prop where
  lt : f < s.count
  ipId : ip.ipId = id
  offset8 : ip.offset8 = s.block f
  moreFragments : ip.moreFragments = decide (f + 1 < s.count)
  ipLen : ip.ipLen = ipHdrSize + s.len f
  data : (ip.drop ipHdrSize).take (s.len f) = (P.drop (s.cut f)).take (s.len f)
  length : ipHdrSize + s.len f ≤ ip.length

/-- The bytes of fragment `j` are in their place. -/
def InPlace (m : Mem) (j : ℕ) : Prop :=
  m.slice (ipHdrSize + s.cut j) (s.len j) = (P.drop (s.cut j)).take (s.len j)

/-- The invariant of a reassembly that is not complete: the fragments of `R` have arrived and leave
the gaps `gs`. -/
structure Partial (R : Set ℕ) (gs : List (ℕ × ℕ)) (st : Defrag) : Prop where
  gaps : Gaps s.count R gs
  ne : gs ≠ []
  holes : HoleList st.pktBuff st.firstHole (gs.map s.hole)
  total : st.totalLen ≠ 0
  ended : s.count - 1 ∈ R → st.totalLen = P.length
  ipId : st.pktBuff.slice 4 2 = id
  data : ∀ j < s.count, j ∈ R → InPlace P s st.pktBuff j

/-- Until fragment 0 arrives, no new fragment may start where the lowest arrived run of fragments
ends: its hole is linked back to block 0. -/
def Cuts.Ambiguous {n : ℕ} (s : Cuts n) (R : Set ℕ) (f : ℕ) : Prop :=
  f < s.count ∧ ∃ k, 0 < k ∧ k < f ∧ ∀ j < f, j ∈ R ↔ k ≤ j

/-- The descriptor of what is left behind a new fragment does not fit the buffer. -/
def Cuts.Overrun {n : ℕ} (s : Cuts n) (R : Set ℕ) (f : ℕ) : Prop :=
  f + 1 < s.count ∧ f + 1 ∉ R ∧ ipMaxUdp < s.cut (f + 1) + 8

/-- A fragment that may arrive when those of `R` have. -/
def Cuts.Careful {n : ℕ} (s : Cuts n) (R : Set ℕ) (f : ℕ) : Prop :=
  f ∉ R → ¬ s.Ambiguous R f ∧ ¬ s.Overrun R f

end Payload

section Step

variable {P : List UInt8} {s : Cuts P.length} {id : List UInt8} {R : Set ℕ} {gs : List (ℕ × ℕ)}
  {st : Defrag} {f : ℕ} {ip : Packet} {m' : Mem} {first' : ℕ}

theorem Cuts.cut_add_len {n : ℕ} (s : Cuts n) {f : ℕ} (hf : f < s.count) :
    s.cut f + s.len f = s.cut (f + 1) := by
  have := s.lt f hf
  unfold len
  omega

theorem length_take_drop (s : Cuts P.length) (hf : f < s.count) :
    ((P.drop (s.cut f)).take (s.len f)).length = s.len f := by
  have hle := s.cut_le_length (j := f + 1) hf
  have := s.cut_add_len hf
  rw [List.length_take, List.length_drop]
  omega

/-- The copy of a fragment. -/
theorem IsFragment.copyFragment_eq (h : IsFragment P s id f ip) (hP : P.length ≤ ipMaxUdp)
    (m : Mem) :
    copyFragment ip m (s.cut f) (s.len f) =
      some (m.write (ipHdrSize + s.cut f) ((P.drop (s.cut f)).take (s.len f))) := by
  have hP : P.length ≤ 16364 := hP
  have hle := s.cut_le_length (j := f + 1) h.lt
  have hlen := s.cut_add_len h.lt
  have hip := h.length
  have hcond : 0 ≤ (s.len f : ℤ) ∧ (ipHdrSize : ℤ) + s.cut f + s.len f ≤ ipPktSize ∧
      (ipHdrSize : ℤ) + s.len f ≤ ip.length := by
    simp only [ipHdrSize, ipPktSize] at hip ⊢
    omega
  rw [copyFragment, if_pos hcond, ← h.data]
  rfl

/-- A copied fragment is in its place, and the others stay in theirs. -/
theorem InPlace.write {m : Mem} {j : ℕ} (hf : f < s.count) (hj : j < s.count)
    (h : j ≠ f → InPlace P s m j) :
    InPlace P s (m.write (ipHdrSize + s.cut f) ((P.drop (s.cut f)).take (s.len f))) j := by
  have hlen := length_take_drop s hf
  obtain rfl | hne := eq_or_ne j f
  · have hself := @Mem.slice_write_self m (ipHdrSize + s.cut j) ((P.drop (s.cut j)).take (s.len j))
    rwa [hlen] at hself
  · have hcut := s.cut_add_len hf
    have hcut' := s.cut_add_len hj
    rw [InPlace, Mem.slice_write_of_disjoint, h hne]
    rw [hlen]
    obtain hlt | hgt := Nat.lt_or_gt_of_ne hne
    · have := s.cut_le (i := j + 1) (j := f) hlt hf.le
      omega
    · have := s.cut_le (i := f + 1) (j := j) hgt hj.le
      omega

/-- A fragment stays in its place when only descriptors of gaps change that it is not in. -/
theorem InPlace.same {m m' : Mem} {j : ℕ} (h : InPlace P s m j) (hj : j < s.count)
    (hlt : ∀ g ∈ gs, g.1 < g.2) (hle : ∀ g ∈ gs, g.2 ≤ s.count)
    (hout : ∀ g ∈ gs, ¬ (g.1 ≤ j ∧ j < g.2))
    (hsame : HoleList.Same m m' (gs.map fun g ↦ s.block g.1)) : InPlace P s m' j := by
  rw [InPlace, ← h]
  apply Mem.slice_congr
  intro i hi
  apply hsame
  intro k hk
  obtain ⟨g, hg, rfl⟩ := List.mem_map.1 hk
  have hdis := s.disjoint_block (hlt g hg) (hle g hg) hj (hout g hg)
  have hcut := s.cut_add_len hj
  unfold Off
  omega

/-- The holes stay linked when bytes are copied beside their descriptors. -/
theorem HoleList.write {m : Mem} {first a : ℕ} {hs : List Hole} {bs : List UInt8}
    (h : HoleList m first hs)
    (hdis : ∀ x ∈ hs, ipHdrSize + 8 * x.1 + 8 ≤ a ∨ a + bs.length ≤ ipHdrSize + 8 * x.1) :
    HoleList (m.write a bs) first hs := by
  have hfld : ∀ f, ∀ i ∈ hs.map Prod.fst, fld (m.write a bs) f i = fld m f i := by
    intro f i hi
    obtain ⟨x, hx, rfl⟩ := List.mem_map.1 hi
    exact fld_write (hdis x hx)
  refine ⟨h.first, h.seg.congr (hfld _) (hfld _), fun x hx ↦ ?_, h.inside, h.sorted⟩
  rw [hfld _ _ (List.mem_map_of_mem hx), h.last x hx]

/-- What the last part of the function leaves, whatever was done to the list of holes before. -/
theorem Partial.copied (h : Partial P s id R gs st) (hP : P.length ≤ ipMaxUdp)
    (hip : IsFragment P s id f ip) {gs' : List (ℕ × ℕ)} (hgaps : Gaps s.count (insert f R) gs')
    (hsame : HoleList.Same st.pktBuff m' ((gs ++ gs').map fun g ↦ s.block g.1)) :
    ∃ m'', copyFragment ip m' (s.cut f) (s.len f) = some m'' ∧
      m''.slice 4 2 = id ∧ (∀ j < s.count, j ∈ insert f R → InPlace P s m'' j) ∧
      (HoleList m' first' (gs'.map s.hole) → HoleList m'' first' (gs'.map s.hole)) := by
  refine ⟨_, hip.copyFragment_eq hP m', ?_, ?_, ?_⟩
  · rw [Mem.slice_write_of_disjoint (.inl (by simp only [ipHdrSize]; omega)), ← h.ipId]
    apply Mem.slice_congr
    intro i hi
    apply hsame
    intro k hk
    unfold Off
    simp only [ipHdrSize]
    omega
  · intro j hj hmem
    refine InPlace.write hip.lt hj fun hne ↦ ?_
    have hmem' : j ∈ R := (Set.mem_insert_iff.1 hmem).resolve_left hne
    refine (h.data j hj hmem').same hj ?_ ?_ ?_ hsame
    · exact fun g hg ↦ (List.mem_append.1 hg).elim (h.gaps.lt g) (hgaps.lt g)
    · exact fun g hg ↦ (List.mem_append.1 hg).elim (h.gaps.le g) (hgaps.le g)
    · intro g hg hin
      obtain hg | hg := List.mem_append.1 hg
      · exact (h.gaps.mem j hj).2 ⟨g, hg, hin⟩ hmem'
      · exact (hgaps.mem j hj).2 ⟨g, hg, hin⟩ hmem
  · intro hholes
    apply hholes.write
    intro x hx
    obtain ⟨g, hg, rfl⟩ := List.mem_map.1 hx
    have hout : ¬ (g.1 ≤ f ∧ f < g.2) := fun hin ↦
      (hgaps.mem f hip.lt).2 ⟨g, hg, hin⟩ (Set.mem_insert f R)
    have hdis := s.disjoint_block (hgaps.lt g hg) (hgaps.le g hg) hip.lt hout
    have hcut := s.cut_add_len hip.lt
    rw [length_take_drop s hip.lt, Cuts.hole_fst]
    omega

/-! ## One call -/

/-- `total_len` after a fragment. -/
def totalLen (s : Cuts P.length) (st : Defrag) (f : ℕ) : ℕ :=
  if f + 1 < s.count then st.totalLen else P.length

/-- The function along the path where the list of holes is fixed. -/
theorem IsFragment.insertFragment_eq (h : IsFragment P s id f ip) (hP : P.length ≤ ipMaxUdp)
    {x : ℕ} {m₁ m₂ m₃ : Mem} {done : Bool}
    (hfind : findHole st.pktBuff (s.cut f) 65536 st.firstHole = some (some (x : ℤ)))
    (hle : x ≤ s.block f) (htrunc : truncateHole ip st.pktBuff x (s.cut (f + 1) : ℕ) = some m₁)
    (hfix : fixHoles m₁ st.firstHole x (s.block f) (s.len f) = some (m₂, first', done))
    (hcopy : copyFragment ip m₂ (s.cut f) (s.len f) = some m₃) :
    insertFragment ip st =
      if done then
        some (⟨m₃.write 2 (beBytes 2 (totalLen s st f)), first', totalLen s st f⟩,
          some (totalLen s st f + ipHdrSize))
      else some (⟨m₃, first', totalLen s st f⟩, none) := by
  have hP : P.length ≤ 16364 := hP
  have hcut := s.eight_mul_block h.lt
  have hlen := s.cut_add_len h.lt
  have hpos := s.lt f h.lt
  have hstart : 8 * (ip.offset8 : ℤ) = (s.cut f : ℕ) := by
    rw [h.offset8]
    omega
  have hlen' : (ip.ipLen : ℤ) - (ipHdrSize : ℕ) = (s.len f : ℕ) := by
    rw [h.ipLen]
    omega
  have hend : (s.cut f : ℤ) + s.len f = (s.cut (f + 1) : ℕ) := by omega
  have hdup : ¬ ((ip.offset8 : ℤ) + ((s.len f : ℤ) + 7).tdiv 8 ≤ x) := by
    rw [h.offset8, Int.tdiv_eq_ediv_of_nonneg (by omega)]
    omega
  have htotal : (if ip.moreFragments then st.totalLen
      else (((s.cut (f + 1) : ℕ) : ℤ) % 65536).toNat) = totalLen s st f := by
    rw [h.moreFragments, totalLen]
    by_cases hf : f + 1 < s.count
    · simp [hf]
    · have hcount : f + 1 = s.count := by have := h.lt; omega
      have := s.cut_count
      rw [hcount]
      simp only [lt_self_iff_false, decide_false, Bool.false_eq_true, if_false]
      omega
  unfold insertFragment
  simp only [Option.bind_eq_bind]
  rw [hstart, hlen', hfind, Option.bind_some]
  dsimp only
  rw [if_neg hdup, hend, htrunc, Option.bind_some, h.offset8, hfix, Option.bind_some]
  dsimp only
  rw [hcopy, Option.bind_some, htotal]

theorem HoleList.length_le {m : Mem} {first : ℕ} {hs : List Hole} (h : HoleList m first hs) :
    hs.length ≤ 2046 := by
  have hnodup : (hs.map Prod.fst).Nodup := h.sorted.imp fun hlt ↦ hlt.ne
  have hsub : hs.map Prod.fst ⊆ List.range 2046 := by
    intro i hi
    obtain ⟨x, hx, rfl⟩ := List.mem_map.1 hi
    have hx : 8 * x.1 + 8 ≤ 16364 := h.inside x hx
    rw [List.mem_range]
    omega
  simpa using (List.Nodup.subperm hnodup hsub).length_le

/-- The hole that the loop finds, as a gap. -/
theorem Partial.findHole_eq (h : Partial P s id R gs st) (hP : P.length ≤ ipMaxUdp)
    (hf : f < s.count) :
    findHole st.pktBuff (s.cut f) 65536 st.firstHole =
      some ((gs.find? fun g ↦ decide (f ≤ g.2)).map fun g ↦ ((s.block g.1 : ℕ) : ℤ)) := by
  obtain ⟨g, gs', hgs⟩ := List.exists_cons_of_ne_nil h.ne
  have hholes := h.holes
  have hlen := hholes.length_le
  have hfirst : st.firstHole = (s.hole g).1 := by
    rw [hholes.first, hgs]
    rfl
  have hcongr : (gs.find? fun g ↦ decide (s.cut f ≤ (s.hole g).2)) =
      gs.find? fun g ↦ decide (f ≤ g.2) := by
    apply List.find?_congr
    intro g hg
    exact decide_eq_decide.2 (s.cut_le_hole_iff hP hf (h.gaps.le g hg))
  rw [hgs, List.map_cons] at hholes hlen
  have hcut : HoleList st.pktBuff st.firstHole ([] ++ s.hole g :: gs'.map s.hole) := hholes
  rw [hfirst, hcut.findHole_eq (by rw [List.length_cons] at hlen; omega), ← List.map_cons, ← hgs,
    List.find?_map, ← hcongr, Option.map_map]
  rfl

/-- A gap is where the fragment belongs, or the fragment has arrived. -/
theorem Partial.find_cases (h : Partial P s id R gs st) (hf : f < s.count) :
    (f ∈ R ∧ gs.find? (fun g ↦ decide (f ≤ g.2)) = none) ∨
      ∃ pre g post, gs = pre ++ g :: post ∧ (∀ y ∈ pre, y.2 < f) ∧ f ≤ g.2 ∧
        gs.find? (fun g ↦ decide (f ≤ g.2)) = some g := by
  cases hfind : gs.find? fun g ↦ decide (f ≤ g.2) with
  | none =>
      refine .inl ⟨?_, rfl⟩
      by_contra hmem
      obtain ⟨g, hg, -, hlt⟩ := (h.gaps.mem f hf).1 hmem
      have := List.find?_eq_none.1 hfind g hg
      simp only [decide_eq_true_eq] at this
      omega
  | some g =>
      obtain ⟨hg, pre, post, rfl, hpre⟩ := List.find?_eq_some_iff_append.1 hfind
      refine .inr ⟨pre, g, post, rfl, fun y hy ↦ ?_, by simpa using hg, rfl⟩
      simpa using hpre y hy

/-- The end of the hole after `truncateHole`. -/
def truncated (s : Cuts P.length) (f : ℕ) (g : ℕ × ℕ) : ℕ :=
  if f + 1 < s.count then (s.hole g).2 else s.cut (f + 1)

/-- The last fragment fixes the end of the hole where it belongs. -/
theorem IsFragment.truncateHole_eq (hip : IsFragment P s id f ip) (hP : P.length ≤ ipMaxUdp)
    {m : Mem} {first : ℕ} {pre post : List Hole} {g : ℕ × ℕ}
    (h : HoleList m first (pre ++ s.hole g :: post)) :
    ∃ m₁, truncateHole ip m (s.block g.1 : ℕ) (s.cut (f + 1) : ℕ) = some m₁ ∧
      HoleList m₁ first (pre ++ (s.block g.1, truncated s f g) :: post) ∧
      HoleList.Same m m₁ [s.block g.1] := by
  have hP : P.length ≤ 16364 := hP
  have hle := s.cut_le_length (j := f + 1) hip.lt
  have hin : Inside (s.block g.1) := h.inside (s.hole g) (by simp)
  unfold truncateHole truncated
  rw [hip.moreFragments]
  by_cases hf : f + 1 < s.count
  · simp only [hf, decide_true, if_true]
    exact ⟨m, rfl, h, fun _ _ ↦ rfl⟩
  · simp only [hf, decide_false, Bool.false_eq_true, if_false]
    refine ⟨_, writeField_eq hin m .lastByte (by omega), ?_, HoleList.same_setFld (by simp)⟩
    exact h.shorten (by omega)

/-- Where the truncated hole ends, compared with the end of the fragment. -/
theorem truncated_le_iff (s : Cuts P.length) (hP : P.length ≤ ipMaxUdp) (hf : f < s.count)
    {g : ℕ × ℕ} (hg : g.2 ≤ s.count) : truncated s f g ≤ s.cut (f + 1) ↔ g.2 ≤ f + 1 := by
  unfold truncated
  split
  next h => exact s.hole_le_cut_iff hP h hg
  next h => exact iff_of_true le_rfl (by omega)

/-- The block behind a fragment that is not the last one. -/
theorem block_add_len (s : Cuts P.length) (hf : f + 1 < s.count) :
    s.block f + s.len f / 8 = s.block (f + 1) := by
  have hcut := s.eight_mul_block (j := f) (by omega)
  have hcut' := s.eight_mul_block hf
  have hlen := s.cut_add_len (f := f) (by omega)
  omega

/-- If the hole before a gap is at block 0 and the fragment starts the gap, the link back to block 0
is needed. -/
theorem Gaps.ambiguous {pre post : List (ℕ × ℕ)} {g y : ℕ × ℕ}
    (h : Gaps s.count R (pre ++ g :: post)) (hy : pre.getLast? = some y) (hzero : s.block y.1 = 0) :
    s.Ambiguous R g.1 := by
  obtain ⟨pre, rfl⟩ := List.getLast?_eq_some_iff.1 hy
  obtain ⟨hpre, hpost, -, hsort, -⟩ := h.sorted_cut
  have hg := h.lt g (by simp)
  have hg' := h.le g (by simp)
  have hy' := h.lt y (by simp)
  have hyg := hpre y (by simp)
  have hy₁ : y.1 = 0 := s.block_eq_zero (by omega) hzero
  refine ⟨by omega, y.2, by omega, hyg, fun j hj ↦ ?_⟩
  rw [← not_iff_not, h.mem j (by omega), not_le]
  constructor
  · rintro ⟨z, hz, hle, hlt⟩
    rw [List.pairwise_append] at hsort
    obtain hz | rfl | rfl | hz : z ∈ pre ∨ z = y ∨ z = g ∨ z ∈ post := by simpa using hz
    · have := hsort.2.2 z hz y (by simp)
      omega
    · exact hlt
    · omega
    · have := hpost z hz
      omega
  · exact fun hlt ↦ ⟨y, by simp, by omega, hlt⟩

section Fix

variable {pre post : List (ℕ × ℕ)} {g : ℕ × ℕ} {m₁ : Mem}

/-- The hole before the one in question is not at block 0, if the fragment may arrive. -/
theorem Gaps.block_ne_zero (h : Gaps s.count R (pre ++ g :: post)) (hf : ¬ s.Ambiguous R g.1) :
    ∀ y, (pre.map s.hole).getLast? = some y → y.1 ≠ 0 := by
  intro y hy hzero
  rw [List.getLast?_map] at hy
  obtain ⟨z, hz, rfl⟩ := Option.map_eq_some_iff.1 hy
  exact hf (h.ambiguous hz hzero)

theorem Gaps.block_lt (h : Gaps s.count R (pre ++ g :: post)) {e : ℕ} (he : e < g.2) :
    ∀ z ∈ post.map s.hole, s.block e < z.1 := by
  intro x hx
  obtain ⟨z, hz, rfl⟩ := List.mem_map.1 hx
  have hz₁ := h.sorted_cut.2.1 z hz
  have hz₂ := h.lt z (by simp [hz])
  have hz₃ := h.le z (by simp [hz])
  exact (s.block_lt_iff (by omega) (by omega)).2 (by omega)

theorem mem_blocks {gs' : List (ℕ × ℕ)} {k : ℕ} (hsub : ∀ y ∈ gs, y ∈ gs')
    (hk : k ∈ (gs.map s.hole).map Prod.fst) : k ∈ gs'.map fun g ↦ s.block g.1 := by
  rw [List.map_map] at hk
  obtain ⟨y, hy, rfl⟩ := List.mem_map.1 hk
  exact List.mem_map.2 ⟨y, hsub y hy, rfl⟩

/-- The list of holes was fixed for a fragment that leaves gaps. -/
def Fixed (s : Cuts P.length) (R : Set ℕ) (gs : List (ℕ × ℕ)) (f : ℕ) (m₁ : Mem)
    (r : Option (Mem × ℕ × Bool)) : Prop :=
  ∃ m₂ first' gs', r = some (m₂, first', false) ∧ gs' ≠ [] ∧ Gaps s.count (insert f R) gs' ∧
    HoleList m₂ first' (gs'.map s.hole) ∧
    HoleList.Same m₁ m₂ ((gs ++ gs').map fun g ↦ s.block g.1)

theorem Gaps.fix_remove (h : Gaps s.count R (pre ++ g :: post)) {first l : ℕ}
    (hholes : HoleList m₁ first (pre.map s.hole ++ (s.block g.1, l) :: post.map s.hole))
    (hg : g.1 = f ∧ g.2 = f + 1) (hne : pre ++ post ≠ []) (hf : ¬ s.Ambiguous R f) :
    Fixed s R (pre ++ g :: post) f m₁ (removeHole m₁ first (s.block g.1 : ℕ)) := by
  obtain ⟨rfl, hg⟩ := hg
  obtain ⟨m₂, first', hrem, hlist, hsame⟩ :=
    hholes.removeHole_spec (by simpa using hne) (h.block_ne_zero hf) fun _ ↦ rfl
  have hgaps : Gaps s.count (insert g.1 R) (pre ++ ([] ++ post)) :=
    h.replace (by simp) (by simp) .nil (fun j ↦ by simp; omega) ⟨le_rfl, by omega⟩
  refine ⟨m₂, first', pre ++ post, hrem, hne, hgaps, by rwa [List.map_append], hsame.mono ?_⟩
  intro k hk
  rw [← List.map_append] at hk
  exact mem_blocks (fun y hy ↦ List.mem_append_right _ hy) hk

theorem Gaps.fix_shorten (h : Gaps s.count R (pre ++ g :: post)) (hP : P.length ≤ ipMaxUdp)
    (hf : f < s.count) {first l : ℕ}
    (hholes : HoleList m₁ first (pre.map s.hole ++ (s.block g.1, l) :: post.map s.hole))
    (hg : g.1 < f ∧ g.2 = f + 1) :
    Fixed s R (pre ++ g :: post) f m₁
      (some (setFld m₁ .lastByte (s.block g.1) (8 * s.block f), first, false)) := by
  have hP : P.length ≤ 16364 := hP
  have hle := s.cut_le_length hf.le
  have hblock := s.eight_mul_block hf
  have hhole : s.hole (g.1, f) = (s.block g.1, 8 * s.block f) := by
    rw [Cuts.hole, if_neg hf.ne, hblock]
  have hgaps : Gaps s.count (insert f R) (pre ++ ([(g.1, f)] ++ post)) :=
    h.replace (by simpa using hg.1) (by simp; omega) (by simp) (fun j ↦ by simp; omega) (by omega)
  refine ⟨_, first, pre ++ (g.1, f) :: post, rfl, by simp, hgaps, ?_,
    HoleList.same_setFld (by simp)⟩
  rw [List.map_append, List.map_cons, hhole]
  exact hholes.shorten (by omega)

theorem Gaps.fix_move (h : Gaps s.count R (pre ++ g :: post)) {first : ℕ}
    (hholes : HoleList m₁ first (pre.map s.hole ++ s.hole g :: post.map s.hole))
    (hg : g.1 = f ∧ f + 1 < g.2) (hf : ¬ s.Ambiguous R f) (hin : Inside (s.block (f + 1))) :
    Fixed s R (pre ++ g :: post) f m₁
      (moveHole m₁ first (s.block g.1 : ℕ) (s.block (f + 1) : ℕ)) := by
  obtain ⟨rfl, hg⟩ := hg
  have hle := h.le g (by simp)
  obtain ⟨m₂, first', hmove, hlist, hsame⟩ := hholes.moveHole_spec hin
    ((s.block_lt_iff (by omega) (by omega)).2 (by omega)) (h.block_lt hg) (h.block_ne_zero hf)
    fun _ ↦ rfl
  have hgaps : Gaps s.count (insert g.1 R) (pre ++ ([(g.1 + 1, g.2)] ++ post)) :=
    h.replace (by simpa using hg) (by simp) (by simp) (fun j ↦ by simp; omega) (by omega)
  refine ⟨m₂, first', pre ++ (g.1 + 1, g.2) :: post, hmove, by simp, hgaps, ?_, hsame.mono ?_⟩
  · rw [List.map_append, List.map_cons]
    exact hlist
  · intro k hk
    rw [← List.map_append] at hk
    obtain rfl | hk := List.mem_cons.1 hk
    · simp
    · refine mem_blocks (fun y hy ↦ ?_) hk
      obtain hy | hy := List.mem_append.1 hy <;> simp [hy]

theorem Gaps.fix_split (h : Gaps s.count R (pre ++ g :: post)) (hP : P.length ≤ ipMaxUdp)
    (hf : f < s.count) {first : ℕ}
    (hholes : HoleList m₁ first (pre.map s.hole ++ s.hole g :: post.map s.hole))
    (hg : g.1 < f ∧ f + 1 < g.2) (hin : Inside (s.block (f + 1))) :
    Fixed s R (pre ++ g :: post) f m₁
      (splitHole m₁ first (s.block g.1 : ℕ) (s.block (f + 1) : ℕ) ((8 * s.block f : ℕ) : ℤ)) := by
  have hP : P.length ≤ 16364 := hP
  have hle := h.le g (by simp)
  have hcut := s.cut_le_length hf.le
  have hblock := s.eight_mul_block hf
  have hhole : s.hole (g.1, f) = (s.block g.1, 8 * s.block f) := by
    rw [Cuts.hole, if_neg hf.ne, hblock]
  obtain ⟨m₂, hsplit, hlist, hsame⟩ := hholes.splitHole_spec hin
    ((s.block_lt_iff (by omega) (by omega)).2 (by omega)) (h.block_lt hg.2)
    (show 8 * s.block f < 65536 by omega)
  have hgaps : Gaps s.count (insert f R) (pre ++ ([(g.1, f), (f + 1, g.2)] ++ post)) :=
    h.replace (by simpa using hg) (by simp; omega) (by simp) (fun j ↦ by simp; omega) (by omega)
  refine ⟨m₂, first, pre ++ (g.1, f) :: (f + 1, g.2) :: post, hsplit, by simp, hgaps, ?_,
    hsame.mono ?_⟩
  · rw [List.map_append, List.map_cons, List.map_cons, hhole]
    exact hlist
  · intro k hk
    rw [← List.map_cons, ← List.map_append] at hk
    obtain rfl | hk := List.mem_cons.1 hk
    · simp
    · exact mem_blocks (fun y hy ↦ List.mem_append_left _ hy) hk

end Fix

/-- The whole payload is in its place when all fragments are. -/
theorem slice_of_inPlace {m : Mem} (h : ∀ j < s.count, InPlace P s m j) :
    m.slice ipHdrSize P.length = P := by
  have htake : ∀ j ≤ s.count, m.slice ipHdrSize (s.cut j) = P.take (s.cut j) := by
    intro j hj
    induction j with
    | zero => simp [s.cut_zero, Mem.slice]
    | succ j ih =>
        rw [← s.cut_add_len (by omega), Mem.slice_add, ih (by omega), h j (by omega), List.take_add]
  have hall := htake s.count le_rfl
  rwa [s.cut_count, List.take_length] at hall

/-- A fragment that leaves gaps. -/
theorem Partial.of_fixed (h : Partial P s id R gs st) (hP : P.length ≤ ipMaxUdp)
    (hip : IsFragment P s id f ip) {x : ℕ} {m₁ : Mem}
    (hfind : findHole st.pktBuff (s.cut f) 65536 st.firstHole = some (some (x : ℤ)))
    (hle : x ≤ s.block f) (htrunc : truncateHole ip st.pktBuff x (s.cut (f + 1) : ℕ) = some m₁)
    (hsame : HoleList.Same st.pktBuff m₁ (gs.map fun g ↦ s.block g.1))
    (hfix : Fixed s R gs f m₁ (fixHoles m₁ st.firstHole x (s.block f) (s.len f))) :
    ∃ st' gs', insertFragment ip st = some (st', none) ∧ Partial P s id (insert f R) gs' st' := by
  obtain ⟨m₂, first', gs', heq, hne, hgaps, hlist, hsame'⟩ := hfix
  have hsame'' : HoleList.Same st.pktBuff m₂ ((gs ++ gs').map fun g ↦ s.block g.1) :=
    (hsame.mono fun k hk ↦ by rw [List.map_append]; exact List.mem_append_left _ hk).trans hsame'
  obtain ⟨m₃, hcopy, hid, hdata, hholes⟩ := h.copied hP hip hgaps hsame''
  have hstep := hip.insertFragment_eq hP hfind hle htrunc heq hcopy
  have hpos := s.lt f hip.lt
  have hcut := s.cut_le_length (j := f + 1) hip.lt
  refine ⟨_, gs', hstep, hgaps, hne, hholes hlist, ?_, ?_, hid, hdata⟩
  · dsimp only [totalLen]
    split
    · exact h.total
    · omega
  · intro hmem
    dsimp only [totalLen]
    split
    next hlt =>
      have hne : s.count - 1 ≠ f := by omega
      exact h.ended ((Set.mem_insert_iff.1 hmem).resolve_left hne)
    next => rfl

/-- The function where there is no hole for the fragment. -/
theorem IsFragment.insertFragment_null (h : IsFragment P s id f ip) {r : Option ℤ}
    (hfind : findHole st.pktBuff (s.cut f) 65536 st.firstHole = some r)
    (hr : ∀ x ∈ r, ((s.block f : ℕ) : ℤ) + ((s.len f : ℤ) + 7).tdiv 8 ≤ x) :
    insertFragment ip st = some (st, none) := by
  have hcut := s.eight_mul_block h.lt
  have hstart : 8 * (ip.offset8 : ℤ) = (s.cut f : ℕ) := by
    rw [h.offset8]
    omega
  have hlen : (ip.ipLen : ℤ) - (ipHdrSize : ℕ) = (s.len f : ℕ) := by
    rw [h.ipLen]
    omega
  unfold insertFragment
  simp only [Option.bind_eq_bind]
  rw [hstart, hlen, hfind, Option.bind_some]
  cases r with
  | none => rfl
  | some x =>
      dsimp only
      rw [if_pos (by rw [h.offset8]; exact hr x rfl)]

/-- A fragment arrives that was there before. -/
theorem Partial.insertFragment_of_mem (h : Partial P s id R gs st) (hP : P.length ≤ ipMaxUdp)
    (hip : IsFragment P s id f ip) (hf : f ∈ R) :
    ∃ st' gs', insertFragment ip st = some (st', none) ∧ Partial P s id (insert f R) gs' st' := by
  have hfind := h.findHole_eq hP hip.lt
  have hkept : Partial P s id (insert f R) gs st := by rwa [Set.insert_eq_of_mem hf]
  have hlt := hip.lt
  obtain ⟨-, hnone⟩ | ⟨pre, g, post, rfl, hpre, hg, hsome⟩ := h.find_cases hip.lt
  · rw [hnone] at hfind
    exact ⟨st, gs, hip.insertFragment_null hfind (by simp), hkept⟩
  · rw [hsome, Option.map_some] at hfind
    have hg₁ := h.gaps.lt g (by simp)
    have hg₂ := h.gaps.le g (by simp)
    have hout : ¬ (g.1 ≤ f ∧ f < g.2) := fun hin ↦
      (h.gaps.mem_iff hip.lt (fun y hy ↦ (hpre y hy).le) hg).2 hin hf
    have hcut := s.cut_add_len hip.lt
    have hblock := s.eight_mul_block hip.lt
    obtain hfg | hfg := Nat.lt_or_ge f g.1
    · -- the hole is behind the fragment
      refine ⟨st, _, hip.insertFragment_null hfind ?_, hkept⟩
      have hle := s.cut_le (i := f + 1) (j := g.1) hfg (by omega)
      have hblock' := s.eight_mul_block (j := g.1) (by omega)
      rintro x ⟨⟩
      rw [Int.tdiv_eq_ediv_of_nonneg (by omega)]
      omega
    · -- the hole ends where the fragment starts, and is given the end that it has
      obtain rfl : g.2 = f := by omega
      have hholes := h.holes
      rw [List.map_append, List.map_cons] at hholes
      obtain ⟨m₁, htrunc, hlist, hsame⟩ := hip.truncateHole_eq hP hholes
      have hP' : P.length ≤ 16364 := hP
      have hle := s.cut_le_length hip.lt.le
      have hblock' := (s.block_lt_iff (by omega) hip.lt).2 hg₁
      have hend := (truncated_le_iff s hP hip.lt hg₂).2 (Nat.le_succ _)
      have hhole : s.hole g = (s.block g.1, 8 * s.block g.2) := by
        rw [Cuts.hole, if_neg hip.lt.ne, hblock]
      have hfix := @HoleList.fixHoles_eq m₁ _ _ _ _ hlist (s.block g.2) (s.len g.2) (by omega)
      rw [if_neg (by dsimp only; omega), if_pos (by dsimp only; omega)] at hfix
      refine h.of_fixed hP hip hfind hblock'.le htrunc (hsame.mono (by simp)) ?_
      rw [hfix]
      refine ⟨_, _, _, rfl, by simp, h.gaps.insert_of_mem hf, ?_, HoleList.same_setFld (by simp)⟩
      rw [List.map_append, List.map_cons, hhole]
      exact hlist.shorten (by omega)

/-- The last missing fragment arrives. -/
theorem Partial.insertFragment_of_last {g : ℕ × ℕ} (h : Partial P s id R [g] st)
    (hP : P.length ≤ ipMaxUdp) (hip : IsFragment P s id f ip) (hg : g.1 = f ∧ g.2 = f + 1) :
    ∃ st', insertFragment ip st = some (st', some (P.length + ipHdrSize)) ∧
      st'.pktBuff.slice ipHdrSize P.length = P := by
  have hP' : P.length ≤ 16364 := hP
  have hcut := s.cut_add_len hip.lt
  have hblock := s.eight_mul_block hip.lt
  have hle := s.cut_le_length hip.lt.le
  obtain ⟨rfl, hg⟩ := hg
  have hfind := h.findHole_eq hP hip.lt
  rw [List.find?_cons_of_pos (by simp; omega), Option.map_some] at hfind
  have hholes : HoleList st.pktBuff st.firstHole ([] ++ s.hole g :: []) := h.holes
  obtain ⟨m₁, htrunc, hlist, hsame⟩ := hip.truncateHole_eq hP hholes
  have hend := (truncated_le_iff s hP hip.lt (h.gaps.le g (by simp))).2 hg.le
  have hfix := @HoleList.fixHoles_eq m₁ _ _ _ _ hlist (s.block g.1) (s.len g.1) (by omega)
  rw [if_pos le_rfl, if_pos (by dsimp only; omega), HoleList.removeHole_singleton hlist] at hfix
  have hgaps : Gaps s.count (insert g.1 R) ([] ++ ([] ++ [])) :=
    @Gaps.replace s.count g.1 R [] [] [] g h.gaps (by simp) (by simp) .nil
      (fun j ↦ by simp; omega) (by omega)
  obtain ⟨m₃, hcopy, -, hdata, -⟩ := @Partial.copied P s id R [g] st g.1 ip m₁ 0 h hP hip [] hgaps
    (hsame.mono (by simp))
  have hall := hgaps.complete_iff.2 rfl
  have htotal : totalLen s st g.1 = P.length := by
    unfold totalLen
    split
    next hlt =>
      refine h.ended ((Set.mem_insert_iff.1 (hall (s.count - 1) (by omega))).resolve_left ?_)
      omega
    next => rfl
  have hstep := hip.insertFragment_eq hP hfind le_rfl htrunc hfix hcopy
  rw [if_pos rfl, htotal] at hstep
  refine ⟨_, hstep, ?_⟩
  dsimp only
  rw [Mem.slice_write_of_disjoint (by rw [length_beBytes]; simp only [ipHdrSize]; omega)]
  exact slice_of_inPlace fun j hj ↦ hdata j hj (hall j hj)

/-- A new fragment arrives that leaves gaps. -/
theorem Partial.insertFragment_of_notMem (h : Partial P s id R gs st) (hP : P.length ≤ ipMaxUdp)
    (hip : IsFragment P s id f ip) (hf : f ∉ R) (hc : s.Careful R f)
    (hmore : ∃ j < s.count, j ∉ insert f R) :
    ∃ st' gs', insertFragment ip st = some (st', none) ∧ Partial P s id (insert f R) gs' st' := by
  have hP' : P.length ≤ 16364 := hP
  obtain ⟨hamb, hover⟩ := hc hf
  have hfind := h.findHole_eq hP hip.lt
  obtain ⟨hmem, -⟩ | ⟨pre, g, post, rfl, hpre, hg, hsome⟩ := h.find_cases hip.lt
  · exact absurd hmem hf
  have hin := (h.gaps.mem_iff hip.lt (fun y hy ↦ (hpre y hy).le) hg).1 hf
  have hg₂ := h.gaps.le g (by simp)
  have hcut := s.cut_add_len hip.lt
  have hblock := s.eight_mul_block hip.lt
  have hle := s.cut_le_length hip.lt.le
  rw [hsome, Option.map_some] at hfind
  have hholes := h.holes
  rw [List.map_append, List.map_cons] at hholes
  obtain ⟨m₁, htrunc, hlist, hsame⟩ := hip.truncateHole_eq hP hholes
  have hblock' := s.block_le_iff (i := g.1) (j := f) (by omega) hip.lt
  have hblock'' := s.block_le_iff (i := f) (j := g.1) hip.lt (by omega)
  have hend := truncated_le_iff s hP hip.lt hg₂
  -- behind a fragment in front of others, the rest of the hole is still a hole
  have hrest : f + 1 < g.2 → Inside (s.block (f + 1)) ∧ truncated s f g = (s.hole g).2 := by
    intro hlt
    have hnot : f + 1 ∉ R := (h.gaps.mem (f + 1) (by omega)).2 ⟨g, by simp, by omega, hlt⟩
    have hroom : ¬ ipMaxUdp < s.cut (f + 1) + 8 := fun hgt ↦ hover ⟨by omega, hnot, hgt⟩
    have := s.eight_mul_block (j := f + 1) (by omega)
    refine ⟨?_, if_pos (by omega)⟩
    unfold Inside
    omega
  have hfix := @HoleList.fixHoles_eq m₁ _ _ _ _ hlist (s.block f) (s.len f) (by omega)
  dsimp only at hfix
  rw [hblock, hcut] at hfix
  refine h.of_fixed hP hip hfind (hblock'.2 hin.1) htrunc (hsame.mono (by simp)) ?_
  rw [hfix]
  by_cases hstart : g.1 = f
  · rw [if_pos (hblock''.2 hstart.ge)]
    by_cases hstop : g.2 = f + 1
    · rw [if_pos (hend.2 hstop.le)]
      refine h.gaps.fix_remove hlist ⟨hstart, hstop⟩ ?_ hamb
      intro hnil
      obtain ⟨rfl, rfl⟩ := List.append_eq_nil_iff.1 hnil
      obtain ⟨j, hj, hjR⟩ := hmore
      obtain ⟨hjf, hjR⟩ : j ≠ f ∧ j ∉ R := by simpa using hjR
      have := (h.gaps.mem j hj).1 hjR
      simp at this
      omega
    · obtain ⟨hinside, htr⟩ := hrest (by omega)
      rw [htr] at hlist
      rw [if_neg (by rw [hend]; omega), block_add_len s (by omega)]
      exact h.gaps.fix_move hlist ⟨hstart, by omega⟩ hamb hinside
  · rw [if_neg (by rw [hblock'']; omega)]
    by_cases hstop : g.2 = f + 1
    · rw [if_pos (hend.2 hstop.le), ← hblock]
      exact h.gaps.fix_shorten hP hip.lt hlist ⟨by omega, hstop⟩
    · obtain ⟨hinside, htr⟩ := hrest (by omega)
      rw [htr] at hlist
      rw [if_neg (by rw [hend]; omega), block_add_len s (by omega), ← hblock]
      exact h.gaps.fix_split hP hip.lt hlist ⟨by omega, by omega⟩ hinside

/-- One call: it returns the packet if nothing is missing any more, and `NULL` otherwise. -/
theorem Partial.insertFragment_spec (h : Partial P s id R gs st) (hP : P.length ≤ ipMaxUdp)
    (hip : IsFragment P s id f ip) (hc : s.Careful R f) :
    ((∀ j < s.count, j ∈ insert f R) →
      ∃ st', insertFragment ip st = some (st', some (P.length + ipHdrSize)) ∧
        st'.pktBuff.slice ipHdrSize P.length = P) ∧
    (¬ (∀ j < s.count, j ∈ insert f R) →
      ∃ st' gs', insertFragment ip st = some (st', none) ∧
        Partial P s id (insert f R) gs' st') := by
  constructor
  · intro hall
    obtain ⟨g, rfl, hg⟩ := h.gaps.eq_singleton h.ne hall
    exact h.insertFragment_of_last hP hip hg
  · intro hmore
    push Not at hmore
    by_cases hf : f ∈ R
    · exact h.insertFragment_of_mem hP hip hf
    · exact h.insertFragment_of_notMem hP hip hf hc hmore

/-! ## The first call -/

/-- No fragment of the packet is in the buffer. -/
def Fresh (id : List UInt8) (st : Defrag) : Prop := st.totalLen = 0 ∨ st.pktBuff.slice 4 2 ≠ id

theorem gaps_empty (s : Cuts P.length) : Gaps s.count ∅ [(0, s.count)] := by
  have := s.two_le
  refine ⟨by simp; omega, by simp, by simp, fun j hj ↦ ?_⟩
  simp [hj]

/-- The reset leaves one hole over the whole buffer, and the header. -/
theorem reset_eq {ip : Packet} (hip : ipHdrSize ≤ ip.length) (st : Defrag) :
    ∃ m, reset ip st = some ⟨m, 0, 65535⟩ ∧ HoleList m 0 [(0, 65535)] ∧ m.slice 4 2 = ip.ipId := by
  have hin : Inside 0 := show 8 * 0 + 8 ≤ ipMaxUdp by decide
  have hlen : (ip.take ipHdrSize).length = ipHdrSize := by
    rw [List.length_take]
    omega
  obtain ⟨m, hm⟩ : ∃ m, m = setFld (setFld (setFld st.pktBuff .lastByte 0 65535) .nextHole 0 0)
      .prevHole 0 0 := ⟨_, rfl⟩
  have hreset : reset ip st = some ⟨m.write 0 (ip.take ipHdrSize), 0, 65535⟩ := by
    have h₁ : ∀ m f, writeField m 0 f 0 = some (setFld m f 0 0) := writeField_zero hin
    have h₂ : writeField st.pktBuff 0 .lastByte 65535 =
      some (setFld st.pktBuff .lastByte 0 65535) :=
      writeField_eq hin st.pktBuff .lastByte (by decide)
    unfold reset
    simp only [Option.bind_eq_bind]
    rw [h₂, Option.bind_some, h₁, Option.bind_some, h₁, Option.bind_some,
      if_neg (Nat.not_lt.2 hip), hm]
  have hfld : ∀ g, fld (m.write 0 (ip.take ipHdrSize)) g 0 = if g = .lastByte then 65535
      else 0 := by
    intro g
    rw [fld_write (.inr (by rw [hlen]; omega)), hm, fld_setFld (by decide), fld_setFld (by decide),
      fld_setFld (by decide)]
    cases g <;> simp
  refine ⟨_, hreset, ⟨rfl, ⟨?_, ?_, trivial⟩, ?_, ?_, by simp⟩, ?_⟩
  · simp [hfld]
  · simp [hfld]
  · simp [hfld]
  · simpa using hin
  · have hslice := @Mem.slice_write_add m 0 2 (ip.take ipHdrSize) 4 (by rw [hlen]; decide)
    rw [Nat.zero_add] at hslice
    rw [hslice, Packet.ipId, List.drop_take, List.take_take]
    rfl

/-- The state after the reset: everything is missing. -/
theorem IsFragment.reset_spec (hip : IsFragment P s id f ip) (st : Defrag) :
    ∃ st', reset ip st = some st' ∧ Partial P s id ∅ [(0, s.count)] st' := by
  obtain ⟨m, hreset, hholes, hid⟩ := reset_eq (show ipHdrSize ≤ ip.length by
    have := hip.length
    omega) st
  have hzero : s.block 0 = 0 := by
    rw [Cuts.block, s.cut_zero]
  have hhole : [(0, s.count)].map s.hole = [(0, 65535)] := by
    simp [Cuts.hole, hzero]
  refine ⟨_, hreset, gaps_empty s, by simp, ?_, by simp, by simp, ?_, by simp⟩
  · rw [hhole]
    exact hholes
  · rw [hid, hip.ipId]

/-- The state between two calls: before the first one, or with gaps. -/
def Ready (P : List UInt8) (s : Cuts P.length) (id : List UInt8) (R : Set ℕ) (st : Defrag) : Prop :=
  (R = ∅ ∧ Fresh id st) ∨ ∃ gs, Partial P s id R gs st

/-- One call of `__net_defragment`. -/
theorem Ready.netDefragment_spec (h : Ready P s id R st) (hP : P.length ≤ ipMaxUdp)
    (hip : IsFragment P s id f ip) (hc : s.Careful R f) :
    ((∀ j < s.count, j ∈ insert f R) →
      ∃ st', netDefragment ip st = some (st', some (P.length + ipHdrSize)) ∧
        st'.pktBuff.slice ipHdrSize P.length = P) ∧
    (¬ (∀ j < s.count, j ∈ insert f R) →
      ∃ st', netDefragment ip st = some (st', none) ∧ Ready P s id (insert f R) st') := by
  have hcut := s.cut_add_len hip.lt
  have hblock := s.eight_mul_block hip.lt
  have hle := s.cut_le_length (j := f + 1) hip.lt
  have hfits : ¬ (ipMaxUdp : ℤ) < ip.fragmentEnd := by
    have hP : P.length ≤ 16364 := hP
    have hmax : (ipMaxUdp : ℤ) = 16364 := rfl
    rw [Packet.fragmentEnd, hip.offset8, hip.ipLen, hmax]
    omega
  obtain ⟨st₁, gs, heq, hpart⟩ : ∃ st₁ gs, netDefragment ip st = insertFragment ip st₁ ∧
      Partial P s id R gs st₁ := by
    unfold netDefragment
    rw [if_neg hfits]
    obtain ⟨rfl, hfresh⟩ | ⟨gs, hpart⟩ := h
    · obtain ⟨st₁, hreset, hpart⟩ := hip.reset_spec st
      rw [Fresh, ← hip.ipId] at hfresh
      exact ⟨st₁, _, by rw [if_pos hfresh, hreset, Option.bind_some], hpart⟩
    · have hsame : ¬ (st.totalLen = 0 ∨ st.pktBuff.slice 4 2 ≠ ip.ipId) := by
        rw [hpart.ipId, hip.ipId]
        simpa using hpart.total
      exact ⟨st, gs, if_neg hsame, hpart⟩
  obtain ⟨hdone, hmore⟩ := hpart.insertFragment_spec hP hip hc
  rw [heq]
  refine ⟨hdone, fun hnot ↦ ?_⟩
  obtain ⟨st', gs', hstep, hpart'⟩ := hmore hnot
  exact ⟨st', hstep, .inr ⟨gs', hpart'⟩⟩

end Step

end MiniPi.Net
