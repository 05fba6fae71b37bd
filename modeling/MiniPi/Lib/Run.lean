import Mathlib.Order.Basic
import Mathlib.Data.List.Basic

/-!
# Runs of labelled transition systems

A system is a relation `R s a s'`: the state `s` moves to `s'` when the action
`a` is taken.  `Run R s as s'` chains finitely many moves.  A property that
holds of every state reached is proved once per move with `Run.invariant`; two
systems are compared once per move with `Run.simulates`.
-/

universe u v

namespace MiniPi.Lib

variable {S T : Type u} {A : Type v}

/-- `Run R s as s'`: the actions `as`, taken in order from `s`, end in `s'`. -/
inductive Run (R : S → A → S → Prop) : S → List A → S → Prop
  /-- No action leaves the state alone. -/
  | nil (s : S) : Run R s [] s
  /-- One move followed by a run. -/
  | cons {s t u : S} {a : A} {as : List A} : R s a t → Run R t as u → Run R s (a :: as) u

namespace Run

variable {R R' : S → A → S → Prop} {Q : T → A → T → Prop}

/-- A property every move keeps holds at the end of every run. -/
theorem invariant {I : S → Prop} (hstep : ∀ s a t, I s → R s a t → I t)
    {s t : S} {as : List A} (h : Run R s as t) (hs : I s) : I t := by
  induction h with
  | nil _ => exact hs
  | cons hr _ ih => exact ih (hstep _ _ _ hs hr)

/-- Runs concatenate. -/
theorem append {s t u : S} {as bs : List A} (h : Run R s as t) (h' : Run R t bs u) :
    Run R s (as ++ bs) u := by
  induction h with
  | nil _ => exact h'
  | cons hr _ ih => exact .cons hr (ih h')

/-- A run of the weaker relation is a run of the stronger one, when the moves
made along it satisfy the stronger relation from states the invariant allows. -/
theorem mono_of_invariant {I : S → Prop} (hstep : ∀ s a t, I s → R s a t → I t ∧ R' s a t)
    {s t : S} {as : List A} (h : Run R s as t) (hs : I s) : Run R' s as t := by
  induction h with
  | nil s => exact .nil s
  | cons hr _ ih =>
      obtain ⟨hI, hR'⟩ := hstep _ _ _ hs hr
      exact .cons hR' (ih hI)

/-- If every move of `R` is matched by a move of `Q` that restores the relation
`rel`, then every run of `R` is matched by a run of `Q` on the same actions. -/
theorem simulates {rel : S → T → Prop}
    (hstep : ∀ s a s' t, rel s t → R s a s' → ∃ t', Q t a t' ∧ rel s' t')
    {s s' : S} {as : List A} (h : Run R s as s') {t : T} (hst : rel s t) :
    ∃ t', Run Q t as t' ∧ rel s' t' := by
  induction h generalizing t with
  | nil _ => exact ⟨t, .nil t, hst⟩
  | cons hr _ ih =>
      obtain ⟨t₁, hq, hrel⟩ := hstep _ _ _ _ hst hr
      obtain ⟨t₂, hrun, hrel'⟩ := ih hrel
      exact ⟨t₂, .cons hq hrun, hrel'⟩

end Run

end MiniPi.Lib
