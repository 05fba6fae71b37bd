import MiniPi.Cli.Readline

/-!
# The command history

The ring of `hist_list` as a list of lines, the last one first, and a place in it.  One slot of the
ring is kept apart for the line that is being typed, so the last `HIST_MAX - 1` lines can be
recalled.
-/

namespace MiniPi.Cli

/-! ## The lines and the ring -/

/-- The lines that can be recalled. -/
def reach (lines : List (List UInt8)) : ℕ := min lines.length (histMax - 1)

/-- One line back from the place `pos`. -/
def recallPrev (lines : List (List UInt8)) (pos : ℕ) : ℕ × Option (List UInt8) :=
  if pos < reach lines then (pos + 1, lines[pos]?) else (pos, none)

/-- One line on from the place `pos`; at the end of it stands the empty line. -/
def recallNext (lines : List (List UInt8)) (pos : ℕ) : ℕ × Option (List UInt8) :=
  if pos = 0 then (0, none) else (pos - 1, some (if pos = 1 then [] else lines.getD (pos - 2) []))

/-- The slot `k` steps before the one where the next line goes. -/
def History.slot (h : History) (k : ℕ) : ℕ :=
  if k ≤ h.addIdx then h.addIdx - k else h.addIdx + (h.max + 1) - k

/-- The ring holds the lines, and `hist_cur` stands at the place `pos` of them. -/
structure History.Holds (h : History) (lines : List (List UInt8)) (pos : ℕ) : Prop where
  addIdx : h.addIdx = lines.length % histMax
  max : h.max = min lines.length (histMax - 1)
  slots : ∀ j (hj : j < lines.length), j < histMax → h.list (h.slot (j + 1)) = lines[j]
  pos_le : pos ≤ reach lines
  cur : h.cur = h.slot pos ∨ h.cur = -1 ∧ lines = []

section

variable {h : History} {lines : List (List UInt8)} {pos : ℕ} {line : List UInt8}

theorem History.holds_init : ({} : History).Holds [] 0 :=
  ⟨rfl, rfl, fun _ hj ↦ absurd hj (Nat.not_lt_zero _), le_rfl, .inr ⟨rfl, rfl⟩⟩

theorem History.Holds.slot_succ (hh : h.Holds lines pos) (hpos : pos < reach lines) :
    (if (h.slot pos : ℤ) - 1 < 0 then (h.max : ℤ) else h.slot pos - 1) = h.slot (pos + 1) ∧
      h.slot (pos + 1) ≠ h.addIdx := by
  have haddIdx := hh.addIdx
  have hmax := hh.max
  unfold reach histMax at *
  unfold History.slot
  constructor
  · split_ifs <;> omega
  · split_ifs <;> omega

/-- The slot before the last line that can be recalled is the one kept apart. -/
theorem History.Holds.slot_reach (hh : h.Holds lines pos) :
    (if (h.slot (reach lines) : ℤ) - 1 < 0 then (h.max : ℤ) else h.slot (reach lines) - 1) =
    h.addIdx := by
  have haddIdx := hh.addIdx
  have hmax := hh.max
  unfold History.slot
  unfold reach histMax at *
  split_ifs <;> omega

/-- `hist_prev`. -/
theorem History.Holds.prev (hh : h.Holds lines pos) :
    (histPrev h).1.Holds lines (recallPrev lines pos).1 ∧
    (histPrev h).2 = (recallPrev lines pos).2 := by
  unfold histPrev recallPrev
  rcases hh.cur with hcur | ⟨hcur, hnil⟩
  · rw [if_neg (by omega)]
    simp only
    by_cases hpos : pos < reach lines
    · obtain ⟨hstep, hne⟩ := hh.slot_succ hpos
      have hlen : pos < lines.length := hpos.trans_le (min_le_left _ _)
      rw [hcur, hstep, if_neg (by exact_mod_cast hne), if_pos hpos]
      refine ⟨⟨hh.addIdx, hh.max, hh.slots, hpos, .inl rfl⟩, ?_⟩
      have hslot := hh.slots pos hlen (hpos.trans_le ((min_le_right _ _).trans (by decide)))
      simpa [hlen] using hslot
    · obtain rfl : pos = reach lines := le_antisymm hh.pos_le (not_lt.1 hpos)
      rw [hcur, if_pos hh.slot_reach, if_neg hpos]
      exact ⟨hh, rfl⟩
  · have hreach : reach lines = 0 := by rw [hnil]; rfl
    rw [if_pos (by omega), if_neg (by omega)]
    exact ⟨hh, rfl⟩

theorem History.Holds.slot_pred (hh : h.Holds lines pos) (hpos : 0 < pos) :
    h.slot pos ≠ h.addIdx ∧
      (if (h.max : ℤ) < h.slot pos + 1 then 0 else (h.slot pos : ℤ) + 1) = h.slot (pos - 1) ∧
      (h.slot (pos - 1) = h.addIdx ↔ pos = 1) := by
  have haddIdx := hh.addIdx
  have hmax := hh.max
  have hle := hh.pos_le
  unfold History.slot
  unfold reach histMax at *
  refine ⟨?_, ?_, ?_⟩
  · split_ifs <;> omega
  · split_ifs <;> omega
  · split_ifs <;> omega

/-- `hist_next`. -/
theorem History.Holds.next (hh : h.Holds lines pos) :
    (histNext h).1.Holds lines (recallNext lines pos).1 ∧
    (histNext h).2 = (recallNext lines pos).2 := by
  unfold histNext recallNext
  rcases hh.cur with hcur | ⟨hcur, hnil⟩
  · rw [if_neg (by omega)]
    rcases Nat.eq_zero_or_pos pos with rfl | hpos
    · rw [if_pos (by rw [hcur, History.slot]; simp)]
      exact ⟨hh, rfl⟩
    · obtain ⟨hne, hstep, hfirst⟩ := hh.slot_pred hpos
      rw [hcur, if_neg (by exact_mod_cast hne), if_neg hpos.ne']
      simp only [hstep]
      refine ⟨⟨hh.addIdx, hh.max, hh.slots, (Nat.sub_le _ _).trans hh.pos_le, .inl rfl⟩, ?_⟩
      by_cases hone : pos = 1
      · rw [if_pos (by exact_mod_cast hfirst.2 hone), if_pos hone]
      · have hle := hh.pos_le.trans (min_le_left _ _)
        have hle' := hh.pos_le.trans (min_le_right _ _)
        have hlen : pos - 2 < lines.length := by omega
        have hslot := hh.slots (pos - 2) hlen (by unfold histMax at *; omega)
        rw [show pos - 2 + 1 = pos - 1 by omega] at hslot
        rw [if_neg (by exact_mod_cast mt hfirst.1 hone), if_neg hone]
        simp [hlen, hslot]
  · have hreach : pos = 0 := by simpa [hnil, reach] using hh.pos_le
    rw [if_pos (by omega), if_pos hreach]
    exact ⟨hreach ▸ hh, rfl⟩

/-- The line goes to the slot kept apart, and the others move one place back. -/
theorem History.Holds.slot_add (hh : h.Holds lines pos) (line : List UInt8) :
    (creadAddToHist line h).slot 1 = h.addIdx ∧
      ∀ j < lines.length, j + 1 < histMax → (creadAddToHist line h).slot (j + 2) = h.slot (j + 1) ∧
        h.slot (j + 1) ≠ h.addIdx := by
  have haddIdx := hh.addIdx
  have hmax := hh.max
  unfold creadAddToHist History.slot
  unfold histMax at *
  simp only
  constructor
  · split_ifs <;> omega
  · intro j hj hlt
    constructor
    · split_ifs <;> omega
    · split_ifs <;> omega

/-- `cread_add_to_hist`, with `hist_cur` set behind it. -/
theorem History.Holds.add (hh : h.Holds lines pos) (line : List UInt8) :
    History.Holds { creadAddToHist line h with cur := (creadAddToHist line h).addIdx }
    (line :: lines) 0 := by
  have haddIdx := hh.addIdx
  have hmax := hh.max
  obtain ⟨hfirst, hothers⟩ := hh.slot_add line
  constructor
  · unfold creadAddToHist
    unfold histMax at *
    simp only [List.length_cons]
    split_ifs <;> omega
  · unfold creadAddToHist
    unfold histMax at *
    simp only [List.length_cons]
    split_ifs <;> omega
  · intro j hj hlt
    change (if (creadAddToHist line h).slot (j + 1) = h.addIdx then line
      else h.list ((creadAddToHist line h).slot (j + 1))) = _
    cases j with
    | zero => rw [if_pos hfirst, List.getElem_cons_zero]
    | succ j =>
        have hj' : j < lines.length := by simpa using hj
        obtain ⟨heq, hne⟩ := hothers j hj' hlt
        rw [heq, if_neg hne, List.getElem_cons_succ]
        exact hh.slots j hj' (Nat.lt_of_succ_lt hlt)
  · exact Nat.zero_le _
  · left
    simp [History.slot]

theorem History.Holds.reset (hh : h.Holds lines pos) :
    History.Holds { h with cur := h.addIdx } lines 0 :=
  ⟨hh.addIdx, hh.max, hh.slots, Nat.zero_le _, .inl (by simp [History.slot])⟩

/-! ## Prompts -/

/-- The lines that go into the history. -/
def remembered (line : List UInt8) : Bool := line ≠ [] ∧ line.head? ≠ some (charCode '!')

theorem History.Holds.remember (hh : h.Holds lines pos) (line : List UInt8) :
    (h.remember line).Holds (if remembered line then line :: lines else lines) 0 := by
  unfold History.remember remembered
  by_cases hline : line ≠ [] ∧ line.head? ≠ some (charCode '!')
  · simp only [if_pos hline, decide_eq_true hline, if_true]
    exact hh.add line
  · simp only [if_neg hline, decide_eq_false hline, Bool.false_eq_true, if_false]
    exact hh.reset

/-- A key that moves in the history. -/
inductive Recall
  | prev | next

def History.recall (h : History) : Recall → History × Option (List UInt8)
  | .prev => histPrev h
  | .next => histNext h

/-- What the keys recall, one after the other. -/
def History.recalls (h : History) : List Recall → History × List (Option (List UInt8))
  | [] => (h, [])
  | r :: rs => ((h.recall r).1.recalls rs |>.1, (h.recall r).2 :: ((h.recall r).1.recalls rs).2)

/-- A prompt: the keys that move in the history, and the line it ends with, unless it is broken
off. -/
structure Prompted where
  keys : List Recall
  line : Option (List UInt8)

def History.prompt (h : History) (p : Prompted) : History :=
  match p.line with
  | some line => (h.recalls p.keys).1.remember line
  | none => (h.recalls p.keys).1

/-- The lines of the prompts that go into the history, the last one first. -/
def entered (ps : List Prompted) : List (List UInt8) :=
  ((ps.filterMap Prompted.line).filter remembered).reverse

theorem History.Holds.recall (hh : h.Holds lines pos) (r : Recall) :
    ∃ pos', (h.recall r).1.Holds lines pos' := by
  cases r with
  | prev => exact ⟨_, hh.prev.1⟩
  | next => exact ⟨_, hh.next.1⟩

theorem History.Holds.recalls (hh : h.Holds lines pos) (rs : List Recall) :
    ∃ pos', (h.recalls rs).1.Holds lines pos' := by
  induction rs generalizing h pos with
  | nil => exact ⟨pos, hh⟩
  | cons r rs ih =>
      obtain ⟨pos', hr⟩ := hh.recall r
      exact ih hr

theorem entered_append (ps : List Prompted) (p : Prompted) :
    entered (ps ++ [p]) = (p.line.toList.filter remembered) ++ entered ps := by
  unfold entered
  rw [List.filterMap_append, List.filter_append, List.reverse_append]
  cases hline : p.line with
  | none => simp [hline]
  | some line => cases hr : remembered line <;> simp [hline, hr]

theorem History.prompt_of_none {p : Prompted} (hline : p.line = none) :
    h.prompt p = (h.recalls p.keys).1 := by
  unfold History.prompt
  rw [hline]

theorem History.prompt_of_line {p : Prompted} (hline : p.line = some line) :
    h.prompt p = (h.recalls p.keys).1.remember line := by
  unfold History.prompt
  rw [hline]

/-- The ring behind any prompts. -/
theorem holds_prompts (ps : List Prompted) :
    ∃ pos, (ps.foldl History.prompt {}).Holds (entered ps) pos ∧
      ((∀ p, ps.getLast? = some p → p.line ≠ none) → pos = 0) := by
  induction ps using List.reverseRecOn with
  | nil => exact ⟨0, History.holds_init, fun _ ↦ rfl⟩
  | append_singleton ps p ih =>
      obtain ⟨pos, hh, -⟩ := ih
      obtain ⟨pos', hkeys⟩ := hh.recalls p.keys
      rw [List.foldl_append, List.foldl_cons, List.foldl_nil, entered_append]
      cases hline : p.line with
      | none =>
          rw [History.prompt_of_none hline]
          exact ⟨pos', hkeys, fun hlast ↦ absurd hline (hlast p (by simp))⟩
      | some line =>
          rw [History.prompt_of_line hline]
          refine ⟨0, ?_, fun _ ↦ rfl⟩
          have hnext := hkeys.remember line
          cases hr : remembered line <;> simpa [hr] using hnext

/-- Lines are recalled one after the other, the last one first. -/
theorem History.Holds.prevs (hh : h.Holds lines pos) (k : ℕ) :
    (h.recalls (List.replicate k .prev)).1.Holds lines (min (pos + k) (reach lines)) ∧
      (h.recalls (List.replicate k .prev)).2 =
        (List.range k).map fun i ↦ if pos + i < reach lines then lines[pos + i]? else none := by
  induction k generalizing h pos with
  | zero =>
      refine ⟨?_, rfl⟩
      rwa [Nat.add_zero, min_eq_left hh.pos_le]
  | succ k ih =>
      obtain ⟨hnext, hline⟩ := hh.prev
      obtain ⟨hend, hlines⟩ := ih hnext
      rw [List.replicate_succ, List.range_succ_eq_map, List.map_cons, List.map_map]
      change (((histPrev h).1.recalls _).1).Holds _ _ ∧
        (histPrev h).2 :: ((histPrev h).1.recalls _).2 = _
      rw [hlines, hline]
      unfold recallPrev at hend ⊢
      by_cases hpos : pos < reach lines
      · rw [if_pos hpos] at hend ⊢
        refine ⟨by rwa [Nat.add_right_comm] at hend, ?_⟩
        simp [hpos, Function.comp_def, Nat.add_assoc, Nat.add_comm 1]
      · rw [if_neg hpos] at hend ⊢
        have hle := hh.pos_le
        refine ⟨?_, ?_⟩
        · rwa [show min (pos + (k + 1)) (reach lines) = min (pos + k) (reach lines) by omega]
        · have hfar : ∀ i, ¬ pos + i < reach lines := fun i ↦ by omega
          simp [hpos, hfar, Function.comp_def]

/-- And back again, up to the empty line. -/
theorem History.Holds.nexts (hh : h.Holds lines pos) (m : ℕ) (hm : m ≤ pos) :
    (h.recalls (List.replicate m .next)).2 =
      (List.range m).map fun i ↦
        some (if i + 1 = pos then [] else lines.getD (pos - 2 - i) []) := by
  induction m generalizing h pos with
  | zero => rfl
  | succ m ih =>
      obtain ⟨hnext, hline⟩ := hh.next
      have hpos : pos ≠ 0 := by omega
      unfold recallNext at hnext hline
      rw [if_neg hpos] at hnext hline
      have hlines := ih hnext (by simp; omega)
      rw [List.replicate_succ, List.range_succ_eq_map, List.map_cons, List.map_map]
      change (histNext h).2 :: ((histNext h).1.recalls _).2 = _
      rw [hlines, hline]
      congr 1
      · simp [eq_comm]
      · apply List.map_congr_left
        intro i hi
        have hiff : i + 1 = pos - 1 ↔ i + 1 + 1 = pos := by omega
        simp only [Function.comp_apply, Nat.succ_eq_add_one, hiff]
        congr 3
        omega

/-- At the prompt behind a line that was completed, `hist_prev` recalls the lines in turn as far as
the ring goes, and `hist_next` walks back through them. -/
theorem recalls_lines (ps : List Prompted) (hlast : ∀ p, ps.getLast? = some p → p.line ≠ none)
    (k : ℕ) :
    ((ps.foldl History.prompt {}).recalls (List.replicate k .prev)).2 =
        ((List.range k).map fun i ↦
          if i < min (entered ps).length (histMax - 1) then (entered ps)[i]? else none) ∧
      (k ≤ min (entered ps).length (histMax - 1) → ∀ m ≤ k,
        (((ps.foldl History.prompt {}).recalls (List.replicate k .prev)).1.recalls
          (List.replicate m .next)).2 =
          (List.range m).map fun i ↦
            some (if i + 1 = k then [] else (entered ps).getD (k - 2 - i) [])) := by
  obtain ⟨pos, hh, hpos⟩ := holds_prompts ps
  obtain rfl := hpos hlast
  obtain ⟨hend, hlines⟩ := hh.prevs k
  refine ⟨?_, ?_⟩
  · simpa [reach] using hlines
  · intro hk m hm
    rw [Nat.zero_add, min_eq_left (show k ≤ reach (entered ps) from hk)] at hend
    exact hend.nexts m hm

/-- Two lines, and a prompt that is broken off between them. -/
theorem recalls_lines_two :
    ((([⟨[], some [97]⟩, ⟨[.prev], none⟩, ⟨[], some [98]⟩] : List Prompted).foldl History.prompt
      {}).recalls
      [.prev, .prev, .prev]).2 = [some [98], some [97], none] := by
  have h := (recalls_lines [⟨[], some [97]⟩, ⟨[.prev], none⟩, ⟨[], some [98]⟩] (by simp) 3).1
  exact h.trans rfl

end

end MiniPi.Cli
