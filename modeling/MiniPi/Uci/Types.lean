import MiniPi.Uci.RoundTrip
import MiniPi.Uci.Replay

/-!
# Types of sections

The type of every section that a file gives is valid.
-/

namespace MiniPi.Uci

open Lib

/-- All types are valid. -/
def TypesOk (sections : List Section) : Prop := ∀ s ∈ sections, validateType s.type = true

theorem typesOk_of_heads {sections sections' : List Section} (h : heads sections' = heads sections)
    (hok : TypesOk sections) : TypesOk sections' := by
  intro s hs
  have hmem : head s ∈ heads sections := h ▸ List.mem_map_of_mem hs
  obtain ⟨s', hs', hhead⟩ := List.mem_map.mp hmem
  have htype : s'.type = s.type := congrArg (·.2.1) hhead
  exact htype ▸ hok s' hs'

theorem typesOk_concat {sections : List Section} {s : Section} (hok : TypesOk sections)
    (hs : validateType s.type = true) : TypesOk (sections ++ [s]) := by
  intro s' hs'
  obtain hs' | hs' := List.mem_append.mp hs'
  · exact hok s' hs'
  · rwa [List.mem_singleton.mp hs']

theorem setSection_typesOk {internal : Bool} {p : Package} {ptr : Ptr} {v : Str}
    (hok : TypesOk p.sections) (hv : validateType v = true) :
    TypesOk (setSection internal p ptr v).1.sections := by
  unfold setSection
  split
  · simp only [allocSection, addDelta_sections]
    exact typesOk_concat hok hv
  · simp only [modifySection, addDelta_sections]
    intro s hs
    rcases mem_modify hs with hs | ⟨s', -, rfl⟩
    · exact hok s hs
    · exact hv

theorem fixupSection_type (n : ℕ) (s : Section) : (fixupSection n s).type = s.type := by
  unfold fixupSection
  split_ifs
  · rfl
  · rfl

theorem execConfig_typesOk {strict merge : Bool} {p p' : Package} {type name : Str} {sec : Option ℕ}
    (hok : TypesOk p.sections) (htype : validateType type = true)
    (h : execConfig strict merge p type name = .ok (p', sec)) : TypesOk p'.sections := by
  rcases execConfig_cases h with ⟨-, rfl⟩ | ⟨-, s, hr, hset, -⟩
  · simp only [uciAddSection, addDelta_sections, allocSection, anonSection]
    refine typesOk_concat hok ?_
    rwa [fixupSection_type]
  · rcases setAt_cases hr hset with ⟨-, hc, -⟩ | ⟨-, rfl⟩ | ⟨_, _, _, -, -, hopt, -⟩ |
      ⟨v, -, -, -, -, hvalid, hset⟩
    · cases hc
    · exact hok
    · cases hopt
    · obtain rfl := congrArg Prod.fst hset
      exact setSection_typesOk hok hvalid

theorem exec_typesOk {strict merge : Bool} {p p' : Package} {sec sec' : Option ℕ} {c : Command}
    (hok : TypesOk p.sections) (hc : c.TypeOk) (h : exec strict merge p sec c = .ok (p', sec')) :
    TypesOk p'.sections := by
  rcases exec_cases h with rfl | ⟨type, name, rfl, hconfig⟩ | ⟨list, name, value, i, -, hoption⟩
  · exact hok
  · exact execConfig_typesOk hok hc hconfig
  · exact typesOk_of_heads (execOption_heads hoption) hok

theorem uciLoad_typesOk {strict hasDelta : Bool} {name text : Str} {p : Package}
    (h : uciLoad strict hasDelta name text = .ok p) :
    validatePackage name = true ∧ TypesOk p.sections := by
  unfold uciLoad at h
  split_ifs at h with hname
  obtain ⟨st, hst, rfl⟩ := map_eq_ok.mp h
  exact ⟨hname, importLoop_invariant (I := fun p ↦ TypesOk p.sections)
    (fun _ htype hexec hok ↦ exec_typesOk hok htype hexec) hst
    fun s hs ↦ absurd hs List.not_mem_nil⟩

end MiniPi.Uci
