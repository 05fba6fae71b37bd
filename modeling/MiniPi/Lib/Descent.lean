import Mathlib

/-!
# Recursions that follow links

A call with the arguments `s` makes the calls with the arguments in `calls s`.  The recursion ends
if some depth is enough for it; over finitely many arguments this is so unless arguments come back.
-/

namespace MiniPi.Lib.Descent

variable {σ : Type*} (calls : σ → List σ)

/-- The depth `n` is enough for a call. -/
def Within : ℕ → σ → Prop
  | 0, _ => False
  | n + 1, s => ∀ t ∈ calls s, Within n t

/-- A call makes another one. -/
def Calls (s t : σ) : Prop := t ∈ calls s

/-- No call that is reached comes back to its own arguments. -/
def NoReturn (s : σ) : Prop :=
  ∀ t, Relation.ReflTransGen (Calls calls) s t → ¬ Relation.TransGen (Calls calls) t t

variable {calls}

theorem Within.mono {n m : ℕ} (hle : n ≤ m) {s : σ} (h : Within calls n s) : Within calls m s := by
  induction n generalizing m s with
  | zero => exact h.elim
  | succ n ih =>
      obtain ⟨m, rfl⟩ := Nat.exists_eq_add_of_le' (Nat.le_trans (Nat.succ_pos n) hle)
      intro t ht
      exact ih (Nat.le_of_succ_le_succ hle) (h t ht)

/-- A depth for each of finitely many calls gives one for all of them. -/
theorem exists_within_forall {l : List σ} (h : ∀ t ∈ l, ∃ n, Within calls n t) :
    ∃ n, ∀ t ∈ l, Within calls n t := by
  induction l with
  | nil => exact ⟨0, by simp⟩
  | cons a l ih =>
      obtain ⟨n, hn⟩ := h a List.mem_cons_self
      obtain ⟨m, hm⟩ := ih fun t ht ↦ h t (List.mem_cons_of_mem a ht)
      refine ⟨max n m, ?_⟩
      intro t ht
      rcases List.mem_cons.mp ht with rfl | ht
      · exact hn.mono (le_max_left n m)
      · exact (hm t ht).mono (le_max_right n m)

theorem exists_within_iff_acc {s : σ} :
    (∃ n, Within calls n s) ↔ Acc (fun t s ↦ Calls calls s t) s := by
  constructor
  · rintro ⟨n, hn⟩
    induction n generalizing s with
    | zero => exact hn.elim
    | succ n ih =>
        constructor
        intro t ht
        exact ih (hn t ht)
  · intro h
    induction h with
    | intro s _ ih =>
        obtain ⟨n, hn⟩ := exists_within_forall ih
        exact ⟨n + 1, hn⟩

theorem NoReturn.of_calls {s t : σ} (h : NoReturn calls s) (ht : Calls calls s t) :
    NoReturn calls t :=
  fun u hu ↦ h u (Relation.ReflTransGen.head ht hu)

/-- A recursion that makes fewer calls. -/
theorem NoReturn.mono {calls' : σ → List σ} (hsub : ∀ s t, Calls calls' s t → Calls calls s t)
    {s : σ} (h : NoReturn calls s) : NoReturn calls' s := by
  intro t ht hcycle
  have hreach : Relation.ReflTransGen (Calls calls') ≤ Relation.ReflTransGen (Calls calls) :=
    Relation.ReflTransGen.mono hsub
  have hreturn : Relation.TransGen (Calls calls') ≤ Relation.TransGen (Calls calls) :=
    Relation.TransGen.mono hsub
  exact h t (hreach s t ht) (hreturn t t hcycle)

theorem noReturn_of_acc {s : σ} (h : Acc (fun t s ↦ Calls calls s t) s) : NoReturn calls s := by
  induction h with
  | intro s _ ih =>
      intro t ht hcycle
      obtain rfl | ⟨u, hu, hut⟩ := Relation.ReflTransGen.cases_head ht
      · -- the first call on the way back comes back as well
        obtain ⟨u, hu, hut⟩ := Relation.TransGen.head'_iff.mp hcycle
        exact ih u hu u .refl (Relation.TransGen.tail' hut hu)
      · exact ih u hu t hut hcycle

/-- Where the arguments that are reached are in a finite set, the recursion ends if and only if none
of them comes back. -/
theorem exists_within_iff_noReturn {S : Set σ} (hfin : S.Finite)
    (hclosed : ∀ s ∈ S, ∀ t ∈ calls s, t ∈ S) {s : σ} (hs : s ∈ S) :
    (∃ n, Within calls n s) ↔ NoReturn calls s := by
  rw [exists_within_iff_acc]
  refine ⟨noReturn_of_acc, ?_⟩
  intro h
  let Reached := { t // t ∈ S ∧ NoReturn calls t }
  have : Finite Reached := Set.Finite.subset hfin fun t ht ↦ ht.1
  let r (t u : Reached) : Prop := Relation.TransGen (Calls calls) u.1 t.1
  have htrans : IsTrans Reached r := ⟨fun _ _ _ hab hbc ↦ hbc.trans hab⟩
  have hirrefl : Std.Irrefl r := ⟨fun t ↦ t.2.2 t.1 .refl⟩
  have hwf : WellFounded r := Finite.wellFounded_of_trans_of_irrefl r
  have hacc (t : Reached) : Acc (fun t s ↦ Calls calls s t) t.1 := by
    induction t using hwf.induction with
    | _ t ih =>
        constructor
        intro u hu
        exact ih ⟨u, hclosed t.1 t.2.1 u hu, t.2.2.of_calls hu⟩ (.single hu)
  exact hacc ⟨s, hs, h⟩

end MiniPi.Lib.Descent
