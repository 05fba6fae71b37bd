import Mathlib.Data.List.Nodup
import Mathlib.Data.List.Perm.Basic

/-!
# Lists of elements with a key

`Distinct key l` says that no two elements of `l` have the same key.  The edits of a
list by index keep it under conditions on the key of the edited element, and where it
holds a search for a key finds the element and no other.
-/

universe u v

namespace MiniPi.Lib

variable {α : Type u} {κ : Type v} {key : α → κ} {l : List α} {a b : α} {i : ℕ} {f : α → α}

/-- No two elements have the same key. -/
def Distinct (key : α → κ) (l : List α) : Prop := (l.map key).Nodup

instance [DecidableEq κ] : Decidable (Distinct key l) := inferInstanceAs (Decidable (List.Nodup _))

theorem mem_modify (h : b ∈ l.modify i f) : b ∈ l ∨ ∃ a, l[i]? = some a ∧ b = f a := by
  obtain ⟨j, hj⟩ := List.mem_iff_getElem?.mp h
  rw [List.getElem?_modify] at hj
  obtain ⟨a, ha, hb⟩ := Option.map_eq_some_iff.mp hj
  by_cases hij : i = j
  · subst hij
    exact .inr ⟨a, ha, by simpa using hb.symm⟩
  · obtain rfl : a = b := by simpa [hij] using hb
    exact .inl (List.mem_of_getElem? ha)

/-- An edit that keeps the key of the element keeps the list of keys. -/
theorem map_modify_of_key_eq (h : ∀ a, l[i]? = some a → key (f a) = key a) :
    (l.modify i f).map key = l.map key := by
  apply List.ext_getElem?
  intro j
  simp only [List.getElem?_map, List.getElem?_modify, Option.map_eq_map, Option.map_map]
  cases hj : l[j]? with
  | none => rfl
  | some a =>
      by_cases hij : i = j
      · subst hij
        simp [h a hj]
      · simp [hij]

/-- The last element, changed. -/
theorem modify_concat (l : List α) (a : α) (f : α → α) :
    (l ++ [a]).modify l.length f = l ++ [f a] := by
  induction l with
  | nil => rfl
  | cons b l ih => simp [ih]

namespace Distinct

theorem nil : Distinct key ([] : List α) := List.nodup_nil

theorem concat (h : Distinct key l) (ha : key a ∉ l.map key) : Distinct key (l ++ [a]) := by
  unfold Distinct
  rw [List.map_append, List.nodup_append]
  refine ⟨h, List.nodup_singleton _, ?_⟩
  rintro x hx y hy rfl
  rw [List.map_singleton, List.mem_singleton] at hy
  exact ha (hy ▸ hx)

theorem eraseIdx (h : Distinct key l) (i : ℕ) : Distinct key (l.eraseIdx i) :=
  List.Nodup.sublist ((List.eraseIdx_sublist l i).map key) h

theorem perm {l' : List α} (h : Distinct key l) (hp : l'.Perm l) : Distinct key l' :=
  (hp.map key).nodup_iff.mpr h

/-- An element stands at one index only. -/
theorem index_eq {j : ℕ} (h : Distinct key l) (hi : l[i]? = some a) (hj : l[j]? = some b)
    (hk : key a = key b) : i = j := by
  obtain ⟨hi', rfl⟩ := List.getElem?_eq_some_iff.mp hi
  obtain ⟨hj', rfl⟩ := List.getElem?_eq_some_iff.mp hj
  have hi'' : i < (l.map key).length := by simpa using hi'
  have hj'' : j < (l.map key).length := by simpa using hj'
  have hk' : (l.map key)[i] = (l.map key)[j] := by simpa using hk
  exact (List.Nodup.getElem_inj_iff h).mp hk'

theorem notMem_eraseIdx (h : Distinct key l) (hi : l[i]? = some a) :
    key a ∉ (l.eraseIdx i).map key := by
  intro hm
  obtain ⟨b, hb, hk⟩ := List.mem_map.mp hm
  obtain ⟨j, hj, hjb⟩ := List.mem_eraseIdx_iff_getElem?.mp hb
  exact hj (h.index_eq hjb hi hk)

theorem modify (h : Distinct key l) (hf : ∀ a, l[i]? = some a → key (f a) = key a) :
    Distinct key (l.modify i f) := by
  unfold Distinct
  rwa [map_modify_of_key_eq hf]

/-- A new key has to differ from the keys of the other elements. -/
theorem modify_fresh (h : Distinct key l)
    (hf : ∀ a, l[i]? = some a → key (f a) ∉ (l.eraseIdx i).map key) :
    Distinct key (l.modify i f) := by
  by_cases hi : i < l.length
  · rw [List.modify_eq_take_cons_drop hi]
    have hperm : (l.take i ++ f l[i] :: l.drop (i + 1)).Perm (l.eraseIdx i ++ [f l[i]]) := by
      rw [List.eraseIdx_eq_take_drop_succ, List.append_assoc]
      exact List.perm_middle.trans (List.perm_append_singleton _ _).symm |>.trans
        (by rw [List.append_assoc])
    exact ((h.eraseIdx i).concat (hf _ (List.getElem?_eq_getElem hi))).perm hperm
  · rwa [List.modify_eq_self (by omega)]

/-- Moving an element. -/
theorem move {j : ℕ} (h : Distinct key l) (hi : l[i]? = some a) (hj : j ≤ (l.eraseIdx i).length) :
    Distinct key ((l.eraseIdx i).insertIdx j a) := by
  obtain ⟨hi', rfl⟩ := List.getElem?_eq_some_iff.mp hi
  exact h.perm ((List.perm_insertIdx _ _ hj).trans (List.getElem_cons_eraseIdx_perm hi'))

variable [BEq κ] [LawfulBEq κ]

/-- A search for the key of an element finds that element. -/
theorem findIdx?_eq (h : Distinct key l) (hi : l[i]? = some a) :
    l.findIdx? (key · == key a) = some i := by
  obtain ⟨hi', rfl⟩ := List.getElem?_eq_some_iff.mp hi
  refine List.findIdx?_eq_some_iff_getElem.mpr ⟨hi', by simp, ?_⟩
  intro j hj hk
  have hj' : l[j]? = some l[j] := List.getElem?_eq_getElem (Nat.lt_trans hj hi')
  exact Nat.ne_of_lt hj (h.index_eq hj' hi (by simpa using hk))

end Distinct

/-- What a search finds. -/
theorem getElem?_of_findIdx? [BEq κ] [LawfulBEq κ] {k : κ} (h : l.findIdx? (key · == k) = some i) :
    ∃ a, l[i]? = some a ∧ key a = k := by
  obtain ⟨hi, hk, -⟩ := List.findIdx?_eq_some_iff_getElem.mp h
  exact ⟨l[i], List.getElem?_eq_getElem hi, by simpa using hk⟩

/-- A search that finds nothing. -/
theorem notMem_of_findIdx? [BEq κ] [LawfulBEq κ] {k : κ} (h : l.findIdx? (key · == k) = none) :
    k ∉ l.map key := by
  rintro hm
  obtain ⟨a, ha, rfl⟩ := List.mem_map.mp hm
  simpa using List.findIdx?_eq_none_iff.mp h a ha

end MiniPi.Lib
