import Mathlib.Data.List.Nodup
import Mathlib.Logic.Function.Basic

/-!
# Writes to a store

A store gives a value at every address, and a list of writes is done in its order.  Where the writes
go to different addresses, a prefix of the list tells at each address whether the write to it was
done.
-/

namespace MiniPi.Lib

variable {α β : Type*} [DecidableEq α]

/-- The store after the writes. -/
def applyWrites (ws : List (α × β)) (d : α → β) : α → β :=
  ws.foldl (fun d w ↦ Function.update d w.1 w.2) d

variable {ws : List (α × β)} {d : α → β} {a : α} {b : β}

/-- An address that is not written. -/
theorem applyWrites_of_notMem (h : a ∉ ws.map Prod.fst) : applyWrites ws d a = d a := by
  induction ws generalizing d with
  | nil => rfl
  | cons w ws ih =>
      rw [List.map_cons, List.mem_cons, not_or] at h
      change applyWrites ws (Function.update d w.1 w.2) a = d a
      rw [ih h.2, Function.update_of_ne h.1]

/-- An address that is written once. -/
theorem applyWrites_of_mem (hnodup : (ws.map Prod.fst).Nodup) (h : (a, b) ∈ ws) :
    applyWrites ws d a = b := by
  induction ws generalizing d with
  | nil => cases h
  | cons w ws ih =>
      obtain ⟨hw, hws⟩ := List.nodup_cons.1 hnodup
      change applyWrites ws (Function.update d w.1 w.2) a = b
      obtain rfl | h := List.mem_cons.1 h
      · rw [applyWrites_of_notMem hw, Function.update_self]
      · exact ih hws h

/-- The writes up to one of them. -/
theorem applyWrites_take (hnodup : (ws.map Prod.fst).Nodup) (k : ℕ) {i : ℕ}
    (h : ws[i]? = some (a, b)) :
    applyWrites (ws.take k) d a = if i < k then b else d a := by
  obtain ⟨hi, hget⟩ := List.getElem?_eq_some_iff.1 h
  split_ifs with hk
  · refine applyWrites_of_mem (hnodup.sublist ((List.take_sublist k ws).map _)) ?_
    rw [← hget]
    exact List.mem_take_iff_getElem.2 ⟨i, by omega, rfl⟩
  · refine applyWrites_of_notMem fun hmem ↦ ?_
    obtain ⟨w, hw, hfst⟩ := List.mem_map.1 hmem
    obtain ⟨j, hj, rfl⟩ := List.mem_take_iff_getElem.1 hw
    have hinj := (List.nodup_iff_injective_getElem.1 hnodup)
    have heq := @hinj ⟨j, by rw [List.length_map]; omega⟩ ⟨i, by rw [List.length_map]; exact hi⟩
      (by simp only [List.getElem_map, hget, hfst])
    have := congrArg Fin.val heq
    simp only at this
    omega

end MiniPi.Lib
