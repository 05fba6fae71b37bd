import Mathlib.Data.List.Induction
import MiniPi.Net.Reassembly

/-!
# Deliveries

The fragments of a payload are delivered one after the other, in any order and with repetitions.
The function should be quiet until the last missing fragment arrives and then return the payload.
-/

namespace MiniPi.Net

open Lib

/-- The state after calls that all return `NULL`. -/
def quiet : Defrag → List Packet → Option Defrag
  | st, [] => some st
  | st, ip :: ips =>
    match netDefragment ip st with
    | some (st', none) => quiet st' ips
    | _ => none

/-- Deliveries: the numbers of the fragments, and the packets. -/
abbrev Deliveries := List (ℕ × Packet)

/-- The fragments that have arrived. -/
def arrived (ds : Deliveries) : Set ℕ := {j | j ∈ ds.map Prod.fst}

theorem arrived_concat (ds : Deliveries) (d : ℕ × Packet) :
    arrived (ds ++ [d]) = insert d.1 (arrived ds) := by
  ext j
  simp [arrived, or_comm]

section

variable (P : List UInt8) (s : Cuts P.length) (id : List UInt8)

/-- Every fragment has arrived. -/
def Complete (ds : Deliveries) : Prop := ∀ j < s.count, j ∈ arrived ds

/-- Before the fragments are complete every call returns `NULL`, and the call that completes them
returns the payload and its length with the header. -/
def Exact (st : Defrag) (ds : Deliveries) : Prop :=
  ∀ before d after, ds = before ++ d :: after → ¬ Complete P s before →
    ∃ st₁, quiet st (before.map Prod.snd) = some st₁ ∧
      (¬ Complete P s (before ++ [d]) → ∃ st₂, netDefragment d.2 st₁ = some (st₂, none)) ∧
      (Complete P s (before ++ [d]) →
        ∃ st₂, netDefragment d.2 st₁ = some (st₂, some (P.length + ipHdrSize)) ∧
          st₂.pktBuff.slice ipHdrSize P.length = P)

/-- The packets carry fragments of the payload. -/
def Delivered (ds : Deliveries) : Prop := ∀ d ∈ ds, IsFragment P s id d.1 d.2

/-- Every new fragment that arrives before the fragments are complete may do so. -/
def Careful (ds : Deliveries) : Prop :=
  ∀ before d after, ds = before ++ d :: after → ¬ Complete P s before →
    s.Careful (arrived before) d.1

end

variable {P : List UInt8} {s : Cuts P.length} {id : List UInt8} {R : Set ℕ} {st : Defrag}
  {ds before after : Deliveries} {d : ℕ × Packet}

theorem quiet_concat (st : Defrag) (ips : List Packet) (ip : Packet) :
    quiet st (ips ++ [ip]) = (quiet st ips).bind fun st' ↦ quiet st' [ip] := by
  induction ips generalizing st with
  | nil => rfl
  | cons i ips ih =>
      rw [List.cons_append, quiet, quiet]
      split
      · exact ih _
      · rfl

theorem quiet_singleton {ip : Packet} {st' : Defrag} (h : netDefragment ip st = some (st', none)) :
    quiet st [ip] = some st' := by
  rw [quiet, h]
  rfl

theorem Complete.mono (h : Complete P s before) : Complete P s (before ++ after) := by
  intro j hj
  have := h j hj
  simp only [arrived, Set.mem_ofPred_eq, List.map_append, List.mem_append] at this ⊢
  exact .inl this

/-- After deliveries that leave gaps, all calls returned `NULL` and the invariant holds. -/
theorem ready_of_delivered (hP : P.length ≤ ipMaxUdp) (hst : Fresh id st)
    (hds : Delivered P s id (before ++ after)) (hc : Careful P s (before ++ after))
    (hnot : ¬ Complete P s before) :
    ∃ st', quiet st (before.map Prod.snd) = some st' ∧ Ready P s id (arrived before) st' := by
  -- the deliveries are taken one by one from the end of `before`
  induction before using List.reverseRecOn generalizing after with
  | nil => exact ⟨st, rfl, .inl ⟨by simp [arrived], hst⟩⟩
  | append_singleton before d ih =>
      have hnot' : ¬ Complete P s before := fun hcomp ↦ hnot hcomp.mono
      rw [List.append_assoc, List.singleton_append] at hds hc
      obtain ⟨st₁, hquiet, hready⟩ := ih hds hc hnot'
      have hip := hds d (by simp)
      obtain ⟨-, hmore⟩ := hready.netDefragment_spec hP hip (hc before d after rfl hnot')
      unfold Complete at hnot
      rw [arrived_concat] at hnot ⊢
      obtain ⟨st₂, hcall, hready'⟩ := hmore hnot
      refine ⟨st₂, ?_, hready'⟩
      rw [List.map_append, List.map_singleton, quiet_concat, hquiet, Option.bind_some,
        quiet_singleton hcall]

/-- For careful deliveries, the function is quiet until the last missing fragment arrives and then
returns exactly the payload. -/
theorem exact_of_careful (hP : P.length ≤ ipMaxUdp) (hst : Fresh id st)
    (hds : Delivered P s id ds) (hc : Careful P s ds) : Exact P s st ds := by
  rintro before d after rfl hnot
  obtain ⟨st₁, hquiet, hready⟩ := ready_of_delivered hP hst hds hc hnot
  have hip := hds d (by simp)
  obtain ⟨hdone, hmore⟩ := hready.netDefragment_spec hP hip (hc before d after rfl hnot)
  refine ⟨st₁, hquiet, fun hcomp ↦ ?_, fun hcomp ↦ ?_⟩
  · rw [Complete, arrived_concat] at hcomp
    obtain ⟨st₂, hcall, -⟩ := hmore hcomp
    exact ⟨st₂, hcall⟩
  · rw [Complete, arrived_concat] at hcomp
    exact hdone hcomp

/-! ## Three fragments -/

/-- 21 bytes, cut at 8 and 16. -/
def sample : List UInt8 := List.replicate 8 1 ++ List.replicate 8 2 ++ List.replicate 5 3

def sampleCuts : Cuts sample.length where
  count := 3
  cut j := min (8 * j) 21
  two_le := by decide
  cut_zero := rfl
  cut_count := rfl
  lt j hj := by omega
  dvd j hj := by omega

/-- The packet with a fragment of `sample`. -/
def samplePacket (off : UInt8) (more : Bool) (data : List UInt8) : Packet :=
  [0x45, 0, 0, UInt8.ofNat (20 + data.length), 0, 7, if more then 0x20 else 0, off] ++
    List.replicate 12 0 ++ data

def samplePacket₀ : Packet := samplePacket 0 true (List.replicate 8 1)
def samplePacket₁ : Packet := samplePacket 1 true (List.replicate 8 2)
def samplePacket₂ : Packet := samplePacket 2 false (List.replicate 5 3)

theorem isFragment_samplePacket₀ : IsFragment sample sampleCuts [0, 7] 0 samplePacket₀ :=
  ⟨by decide, by decide, by decide, by decide, by decide, by decide, by decide⟩

theorem isFragment_samplePacket₁ : IsFragment sample sampleCuts [0, 7] 1 samplePacket₁ :=
  ⟨by decide, by decide, by decide, by decide, by decide, by decide, by decide⟩

theorem isFragment_samplePacket₂ : IsFragment sample sampleCuts [0, 7] 2 samplePacket₂ :=
  ⟨by decide, by decide, by decide, by decide, by decide, by decide, by decide⟩

/-- The static variables before the first packet. -/
def blank : Defrag := ⟨fun _ ↦ 0, 0, 0⟩

/-- The fragments in order give the payload back. -/
theorem exact_of_careful_sample :
    Exact sample sampleCuts blank [(0, samplePacket₀), (1, samplePacket₁), (2, samplePacket₂)] := by
  refine @exact_of_careful sample sampleCuts [0, 7] blank _ (by decide) (.inl rfl) ?_ ?_
  · intro d hd
    obtain rfl | rfl | rfl : d = (0, samplePacket₀) ∨ d = (1, samplePacket₁) ∨
        d = (2, samplePacket₂) := by simpa using hd
    · exact isFragment_samplePacket₀
    · exact isFragment_samplePacket₁
    · exact isFragment_samplePacket₂
  · intro before d after hds _ _
    refine ⟨?_, fun hover ↦ ?_⟩
    · rintro ⟨-, k, hk, hkf, hrun⟩
      cases before with
      | nil =>
          obtain ⟨rfl, -⟩ := List.cons.inj hds
          omega
      | cons d' before =>
          obtain ⟨rfl, -⟩ := List.cons.inj hds
          have := (hrun 0 (by omega)).1 (by simp [arrived])
          omega
    · have hroom : ipMaxUdp < min (8 * (d.1 + 1)) 21 + 8 := hover.2.2
      have : ipMaxUdp = 16364 := rfl
      omega

/-- If the first fragment comes last, the call for the third one returns a packet in which the first
one is missing. -/
theorem not_exact_sample :
    sample.length ≤ ipMaxUdp ∧ Fresh [0, 7] blank ∧
      Delivered sample sampleCuts [0, 7]
        [(1, samplePacket₁), (2, samplePacket₂), (0, samplePacket₀)] ∧
      ¬ Exact sample sampleCuts blank
        [(1, samplePacket₁), (2, samplePacket₂), (0, samplePacket₀)] := by
  refine ⟨by decide, .inl rfl, ?_, fun h ↦ ?_⟩
  · intro d hd
    obtain rfl | rfl | rfl : d = (1, samplePacket₁) ∨ d = (2, samplePacket₂) ∨
        d = (0, samplePacket₀) := by simpa using hd
    · exact isFragment_samplePacket₁
    · exact isFragment_samplePacket₂
    · exact isFragment_samplePacket₀
  · have hmissing : ∀ ds : Deliveries, 0 ∉ ds.map Prod.fst → ¬ Complete sample sampleCuts ds :=
      fun ds hds hcomp ↦ hds (hcomp 0 (by decide))
    obtain ⟨st₁, hquiet, hnull, -⟩ := h [(1, samplePacket₁)] (2, samplePacket₂)
      [(0, samplePacket₀)] rfl (hmissing _ (by simp))
    obtain ⟨st₂, hcall⟩ := hnull (hmissing _ (by simp))
    have hrun : ((quiet blank [samplePacket₁]).bind fun st ↦
        (netDefragment samplePacket₂ st).map Prod.snd) = some (some 41) := by decide +kernel
    rw [show quiet blank [samplePacket₁] = some st₁ from hquiet, Option.bind_some, hcall] at hrun
    cases hrun

end MiniPi.Net
