import MiniPi.Env.RoundTrip

/-!
# The bytes an export stores

Pass 2 of `hexport_r` escapes by the same rule for every separator, and pass 1 leaves
room for escapes only when the separator is not a NUL.
-/

namespace MiniPi.Env

variable (htab : Htab) (sep : UInt8) (hideDot : Bool) (size argc : ℕ) (found : Entry → Bool)

/-- The entries that pass 1 collects, in the order pass 2 writes them. -/
abbrev sortedEntries : List Entry :=
  qsort cmpkey (collect htab hideDot argc found)

/-- The size given is refused: pass 2 is not reached. -/
def Refused : Prop := size ≠ 0 ∧ size < totlen sep (collect htab hideDot argc found) + 1

instance : Decidable (Refused htab sep hideDot size argc found) :=
  inferInstanceAs (Decidable (_ ∧ _))

/-- Pass 2, when it is reached, stores no more bytes than pass 1 reckoned, and so none behind the
buffer. -/
structure Bounded : Prop where
  /-- The bytes stored, the final NUL included. -/
  stored : ¬Refused htab sep hideDot size argc found →
    (writeEntries sep (sortedEntries htab hideDot argc found)).length ≤
      totlen sep (collect htab hideDot argc found) + 1
  /-- They fit the buffer. -/
  inBuffer : hexportR htab sep hideDot size argc found ≠ .overflow

/-- The numbers of the two passes do not depend on the order of the entries. -/
theorem totlen_sortedEntries :
    totlen sep (sortedEntries htab hideDot argc found) =
      totlen sep (collect htab hideDot argc found) :=
  ((qsort_perm cmpkey _).map _).sum_eq

theorem escapes_eq_zero {list : List Entry} :
    escapes sep list = 0 ↔ ∀ e ∈ list, ∀ c ∈ e.data, needsEscape sep c = false := by
  rw [escapes, List.sum_eq_zero_iff]
  simp only [List.mem_map, forall_exists_index, and_imp, forall_apply_eq_imp_iff₂,
    List.countP_eq_zero, Bool.not_eq_true]

/-- What pass 1 reckoned fits the buffer of an export that is not refused. -/
theorem not_overflow_of_stored
    (h : ¬Refused htab sep hideDot size argc found →
      (writeEntries sep (sortedEntries htab hideDot argc found)).length ≤
        totlen sep (collect htab hideDot argc found) + 1) :
    hexportR htab sep hideDot size argc found ≠ .overflow := by
  rw [hexportR]
  split_ifs with hsmall
  · exact fun heq ↦ Exported.noConfusion heq
  · rw [fillBuffer, if_neg]
    · exact fun heq ↦ Exported.noConfusion heq
    · have hstored := h hsmall
      rw [not_and_or, not_not, not_lt] at hsmall
      change ¬bufferSize sep (sortedEntries htab hideDot argc found) size <
        (writeEntries sep (sortedEntries htab hideDot argc found)).length
      rw [bufferSize, totlen_sortedEntries] at *
      split_ifs <;> omega

/-- Pass 2 keeps within the reckoning of pass 1 exactly when it is not reached, the separator is not
a NUL, or no value collected holds a character that is escaped, which in a C string is a
backslash. -/
theorem hexportR_bounded_iff :
    Bounded htab sep hideDot size argc found ↔ Refused htab sep hideDot size argc found ∨
      sep ≠ nul ∨ ∀ e ∈ collect htab hideDot argc found, ∀ c ∈ e.data, needsEscape sep c =
      false := by
  have hlen := length_writeEntries_eq sep (sortedEntries htab hideDot argc found)
  rw [totlen_sortedEntries] at hlen
  have hnone : escapes sep (sortedEntries htab hideDot argc found) = 0 ↔
      ∀ e ∈ collect htab hideDot argc found, ∀ c ∈ e.data, needsEscape sep c = false := by
    rw [escapes_eq_zero]
    simp only [sortedEntries, (qsort_perm cmpkey _).mem_iff]
  rw [← hnone]
  constructor
  · intro h
    by_cases hrefused : Refused htab sep hideDot size argc found
    · exact .inl hrefused
    · have hstored := h.stored hrefused
      by_cases hsep : sep = nul
      · rw [if_pos hsep] at hlen
        exact .inr (.inr (by omega))
      · exact .inr (.inl hsep)
  · intro h
    have hstored (hrefused : ¬Refused htab sep hideDot size argc found) :
        (writeEntries sep (sortedEntries htab hideDot argc found)).length ≤
          totlen sep (collect htab hideDot argc found) + 1 := by
      rw [hlen]
      split_ifs with hsep
      · rw [(h.resolve_left hrefused).resolve_left fun hne ↦ hne hsep]
      · exact le_rfl
    exact ⟨hstored, not_overflow_of_stored htab sep hideDot size argc found hstored⟩

/-- A value of four backslashes, exported with a NUL as separator into a buffer that
`hexport_r` allocates: eight bytes are reckoned and twelve stored. -/
theorem hexportR_stores_escapes :
    ¬∀ (htab : Htab) (sep : UInt8) (hideDot : Bool) (size argc : ℕ) (found : Entry → Bool),
      Bounded htab sep hideDot size argc found := by
  intro h
  have hstored := (h (oneVar [92, 92, 92, 92]) nul false 0 0 fun _ ↦ false).stored (by decide)
  exact absurd hstored (by decide)

end MiniPi.Env
