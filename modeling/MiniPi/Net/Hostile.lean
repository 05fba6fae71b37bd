import MiniPi.Net.Delivery

/-!
# Hostile packets

Any packets that pass the checks before `net_defragment` may arrive.  Every access stays inside the
packets as long as no descriptor in the buffer is overwritten by the bytes of a fragment, no new
descriptor is put behind the end of the buffer, and no packet that was returned is read as a list of
holes.
-/

namespace MiniPi.Net

open Lib

/-! ## The checks before the call -/

/-- The sum of the 16-bit words, the low byte first. -/
def wordSum : List UInt8 → ℕ
  | a :: b :: bs => a.toNat + 256 * b.toNat + wordSum bs
  | _ => 0

/-- `compute_ip_checksum`, for an even number of bytes. -/
def computeIpChecksum (bs : List UInt8) : ℕ :=
  let sum := wordSum bs
  let sum := sum / 65536 + sum % 65536
  let sum := sum + sum / 65536
  65535 - sum % 65536

/-- `ip_checksum_ok`. -/
def ipChecksumOk (bs : List UInt8) : Bool := decide (computeIpChecksum bs / 2 = 0)

/-- `IP_UDP_HDR_SIZE`. -/
def ipUdpHdrSize : ℕ := 28

/-- The checks of `net_process_received_packet` for an IP packet, with the value of `net_ip`. -/
structure Checked (netIp : List UInt8) (ip : Packet) : Prop where
  length : ipUdpHdrSize ≤ ip.length
  ipLen : ip.ipLen ≤ ip.length
  version : (ip.headD 0).toNat / 16 = 4
  headerLen : (ip.headD 0).toNat % 16 ≤ 5
  checksum : ipChecksumOk (ip.take ipHdrSize) = true
  dst : netIp = [0, 0, 0, 0] ∨ (ip.drop 16).take 4 = netIp ∨
    (ip.drop 16).take 4 = [255, 255, 255, 255]

instance (netIp : List UInt8) (ip : Packet) : Decidable (Checked netIp ip) :=
  decidable_of_iff (ipUdpHdrSize ≤ ip.length ∧ ip.ipLen ≤ ip.length ∧ (ip.headD 0).toNat / 16 = 4 ∧
      (ip.headD 0).toNat % 16 ≤ 5 ∧ ipChecksumOk (ip.take ipHdrSize) = true ∧
      (netIp = [0, 0, 0, 0] ∨ (ip.drop 16).take 4 = netIp ∨
        (ip.drop 16).take 4 = [255, 255, 255, 255]))
    ⟨fun ⟨h₁, h₂, h₃, h₄, h₅, h₆⟩ ↦ ⟨h₁, h₂, h₃, h₄, h₅, h₆⟩,
      fun ⟨h₁, h₂, h₃, h₄, h₅, h₆⟩ ↦ ⟨h₁, h₂, h₃, h₄, h₅, h₆⟩⟩

/-! ## Runs -/

/-- The packet is not refused at once. -/
def Packet.Fits (ip : Packet) : Prop := ip.fragmentEnd ≤ ipMaxUdp

instance (ip : Packet) : Decidable ip.Fits := inferInstanceAs (Decidable (_ ≤ _))

/-- The packet starts a new reassembly. -/
def IsNew (ip : Packet) (st : Defrag) : Prop := st.totalLen = 0 ∨ st.pktBuff.slice 4 2 ≠ ip.ipId

instance (ip : Packet) (st : Defrag) : Decidable (IsNew ip st) :=
  inferInstanceAs (Decidable (_ ∨ _))

/-- The static variables, and whether the packet in the buffer was returned. -/
structure Seen where
  st : Defrag
  returned : Bool

/-- The static variables before the first packet. -/
def Seen.init : Seen := ⟨blank, false⟩

/-- `net_defragment`: a packet that is not a fragment is handed on. -/
def Seen.receive (s : Seen) (ip : Packet) : Option Seen :=
  if ip.offset8 = 0 ∧ ip.moreFragments = false then some s
  else do
    let (st, r) ← netDefragment ip s.st
    some ⟨st, r.isSome || (s.returned && !(decide (ip.Fits ∧ IsNew ip s.st)))⟩

/-- All packets are received in their order; `none` if one call leaves the packets or does not
return. -/
def Seen.receiveAll (s : Seen) (ips : List Packet) : Option Seen := ips.foldlM Seen.receive s

/-! ## Harmless packets -/

/-- Behind block `i`, the first hole that does not end before `start` is the one at block `h`. -/
inductive Target (m : Mem) (start : ℕ) : ℕ → ℕ → Prop
  | here {i : ℕ} : start ≤ fld m .lastByte i → Target m start i i
  | next {i h : ℕ} : fld m .lastByte i < start → fld m .nextHole i ≠ 0 →
    Target m start (fld m .nextHole i) h → Target m start i h

/-- The list of holes that a packet meets. -/
def current (ip : Packet) (st : Defrag) : Defrag :=
  if IsNew ip st then (reset ip st).getD st else st

/-- The bytes of a fragment do not run into a descriptor when they are put into the hole at block
`h`, and the descriptor of what is left of the hole is in the buffer. -/
structure Harmless (ip : Packet) (m : Mem) (h : ℕ) : Prop where
  nonneg : ipHdrSize ≤ ip.ipLen
  beforeNext : fld m .nextHole h ≠ 0 →
    8 * ip.offset8 + (ip.ipLen - ipHdrSize) ≤ 8 * fld m .nextHole h
  rest : ip.moreFragments = true → 8 * ip.offset8 + (ip.ipLen - ipHdrSize) < fld m .lastByte h →
    (ip.ipLen - ipHdrSize) % 8 = 0 ∧ 8 * ip.offset8 + (ip.ipLen - ipHdrSize) + 8 ≤ ipMaxUdp

/-- A packet does no harm: it is refused, or it is put into a hole where it does none, and a packet
that was returned is not taken for a list of holes. -/
def Seen.Harmless (s : Seen) (ip : Packet) : Prop :=
  ip.Fits →
    (s.returned = true → IsNew ip s.st) ∧
    ∀ h, Target (current ip s.st).pktBuff (8 * ip.offset8) (current ip s.st).firstHole h →
      (h : ℤ) < ip.offset8 + (ip.ipLen - ipHdrSize + 7 : ℤ).tdiv 8 →
      Net.Harmless ip (current ip s.st).pktBuff h

/-- A packet that is not refused ends between the start and the end of the buffer. -/
theorem Packet.Fits.bounds {ip : Packet} (h : ip.Fits) :
    0 ≤ 8 * (ip.offset8 : ℤ) + (ip.ipLen - ipHdrSize) ∧
      8 * (ip.offset8 : ℤ) + (ip.ipLen - ipHdrSize) ≤ ipMaxUdp := by
  have hlen : ip.ipLen < 65536 :=
    (beValue_lt _).trans_le (Nat.pow_le_pow_right (by decide) (List.length_take_le 2 _))
  have hoffset : ip.offset8 < 8192 := Nat.mod_lt _ (by decide)
  have hhdr : ipHdrSize = 20 := rfl
  have hmax : (ipMaxUdp : ℤ) = 16364 := rfl
  unfold Packet.Fits Packet.fragmentEnd at h
  rw [hmax] at h ⊢
  omega

/-! ## The list of holes -/

variable {m : Mem} {first o len : ℕ} {pre post hs : List Hole} {x y : Hole}

/-- The holes are not empty and each one ends before the next. -/
structure Apart (hs : List Hole) : Prop where
  wide : ∀ x ∈ hs, 8 * x.1 < x.2
  apart : hs.Pairwise fun x y ↦ x.2 ≤ 8 * y.1

theorem apart_append {hs' : List Hole} : Apart (hs ++ hs') ↔
    Apart hs ∧ Apart hs' ∧ ∀ x ∈ hs, ∀ y ∈ hs', x.2 ≤ 8 * y.1 := by
  constructor
  · rintro ⟨hwide, hapart⟩
    rw [List.pairwise_append] at hapart
    exact ⟨⟨fun x hx ↦ hwide x (List.mem_append_left _ hx), hapart.1⟩,
      ⟨fun x hx ↦ hwide x (List.mem_append_right _ hx), hapart.2.1⟩, hapart.2.2⟩
  · rintro ⟨⟨hwide, hapart⟩, ⟨hwide', hapart'⟩, hcross⟩
    refine ⟨fun x hx ↦ ?_, List.pairwise_append.2 ⟨hapart, hapart', hcross⟩⟩
    obtain hx | hx := List.mem_append.1 hx
    · exact hwide x hx
    · exact hwide' x hx

theorem apart_cons : Apart (x :: hs) ↔
    8 * x.1 < x.2 ∧ (∀ y ∈ hs, x.2 ≤ 8 * y.1) ∧ Apart hs := by
  constructor
  · rintro ⟨hwide, hapart⟩
    rw [List.pairwise_cons] at hapart
    exact ⟨hwide x List.mem_cons_self, hapart.1,
      fun y hy ↦ hwide y (List.mem_cons_of_mem _ hy), hapart.2⟩
  · rintro ⟨hx, hlow, hwide, hapart⟩
    exact ⟨List.forall_mem_cons.2 ⟨hx, hwide⟩, List.pairwise_cons.2 ⟨hlow, hapart⟩⟩

/-- The holes are linked, and none of their descriptors meets the bytes from `8 * o` to
`8 * o + len`. -/
structure Beside (m : Mem) (first : ℕ) (hs : List Hole) (o len : ℕ) : Prop where
  holes : HoleList m first hs
  ne : hs ≠ []
  apart : Apart hs
  clear : ∀ x ∈ hs, 8 * x.1 + 8 ≤ 8 * o ∨ 8 * o + len ≤ 8 * x.1

theorem HoleList.drop_zero (h : HoleList m first (pre ++ x :: post)) (hy : pre.getLast? = some y)
    (hzero : y.1 = 0) : HoleList m x.1 (x :: post) := by
  obtain ⟨-, hprev, hnext, hseg⟩ := h.seg_cut
  refine ⟨rfl, ⟨?_, ?_, hseg⟩, ?_, ?_, ?_⟩
  · rw [hprev, List.getLast?_map, hy]
    exact hzero
  · exact hnext
  · exact fun z hz ↦ h.last z (List.mem_append_right _ hz)
  · exact fun z hz ↦ h.inside z (List.mem_append_right _ hz)
  · have hsorted := h.sorted
    rw [List.map_append, List.pairwise_append] at hsorted
    exact hsorted.2.1

/-- The holes before a hole that are seen from it. -/
theorem HoleList.seen_before (h : HoleList m first (pre ++ x :: post)) :
    ∃ pre' first', HoleList m first' (pre' ++ x :: post) ∧ (∀ y ∈ pre', y ∈ pre) ∧
      (∀ y, pre'.getLast? = some y → y.1 ≠ 0) ∧ (pre' ≠ [] → first = first') ∧
      (Apart (pre ++ x :: post) → Apart (pre' ++ x :: post)) := by
  by_cases hzero : ∀ y, pre.getLast? = some y → y.1 ≠ 0
  · exact ⟨pre, first, h, fun _ hy ↦ hy, hzero, fun _ ↦ rfl, id⟩
  · push Not at hzero
    obtain ⟨y, hy, hzero⟩ := hzero
    refine ⟨[], x.1, h.drop_zero hy hzero, fun _ hy ↦ absurd hy List.not_mem_nil,
      fun _ hy ↦ (nomatch hy), fun hne ↦ absurd rfl hne, fun hapart ↦ ?_⟩
    exact (apart_append.1 hapart).2.1

section Fix

variable (h : HoleList m first (pre ++ x :: post)) (hapart : Apart (pre ++ x :: post))
  (hpre : ∀ y ∈ pre, y.2 < 8 * o) (hpost : ∀ z ∈ post, 8 * o + len ≤ 8 * z.1)

include hapart hpre in
theorem clear_before : ∀ y ∈ pre, 8 * y.1 + 8 ≤ 8 * o := by
  intro y hy
  have := hapart.wide y (List.mem_append_left _ hy)
  have := hpre y hy
  omega

include h hapart hpre hpost in
/-- The hole is filled. -/
theorem fix_remove :
    ∃ m' first' done, removeHole m first x.1 = some (m', first', done) ∧
      (done = false → ∃ hs, Beside m' first' hs o len) := by
  obtain ⟨pre', first₁, h', hsub, hzero, hfirst, hapart'⟩ := h.seen_before
  have hbefore := clear_before hapart hpre
  by_cases hne : pre' ++ post = []
  · obtain ⟨rfl, rfl⟩ := List.append_eq_nil_iff.1 hne
    exact ⟨_, _, true, HoleList.removeHole_singleton h' first, fun hd ↦ (nomatch hd)⟩
  · obtain ⟨m', first', hrem, hlist, -⟩ := h'.removeHole_spec hne hzero hfirst
    refine ⟨m', first', false, hrem, fun _ ↦ ⟨pre' ++ post, hlist, hne, ?_, ?_⟩⟩
    · obtain ⟨ha, hb, hc⟩ := apart_append.1 (hapart' hapart)
      obtain ⟨-, -, hd⟩ := apart_cons.1 hb
      exact apart_append.2 ⟨ha, hd, fun y hy z hz ↦ hc y hy z (List.mem_cons_of_mem _ hz)⟩
    · intro y hy
      obtain hy | hy := List.mem_append.1 hy
      · exact .inl (hbefore y (hsub y hy))
      · exact .inr (hpost y hy)

include h hapart hpre hpost in
theorem fix_shorten (ho : x.1 < o) (hfit : 8 * o < 65536) :
    Beside (setFld m .lastByte x.1 (8 * o)) first (pre ++ (x.1, 8 * o) :: post) o len := by
  have hbefore := clear_before hapart hpre
  obtain ⟨ha, hb, hc⟩ := apart_append.1 hapart
  obtain ⟨hx, -, hd⟩ := apart_cons.1 hb
  refine ⟨h.shorten hfit, by simp, ?_, ?_⟩
  · refine apart_append.2 ⟨ha, apart_cons.2 ⟨by dsimp only; omega, fun z hz ↦ ?_, hd⟩, ?_⟩
    · have := hpost z hz
      dsimp only
      omega
    · intro y hy z hz
      obtain rfl | hz := List.mem_cons.1 hz
      · exact hc y hy x List.mem_cons_self
      · exact hc y hy z (List.mem_cons_of_mem _ hz)
  · intro y hy
    obtain hy | hy := List.mem_append.1 hy
    · exact .inl (hbefore y hy)
    obtain rfl | hy := List.mem_cons.1 hy
    · exact .inl (by dsimp only; omega)
    · exact .inr (hpost y hy)

include h hapart hpre hpost in
/-- The hole is moved behind the fragment. -/
theorem fix_move {e : ℕ} (he : 8 * o + len = 8 * e) (hx : x.1 < e) (hend : 8 * e < x.2)
    (hin : Inside e) :
    ∃ m' first' hs, moveHole m first x.1 e = some (m', first', false) ∧
      Beside m' first' hs o len := by
  obtain ⟨pre', first₁, h', hsub, hzero, hfirst, hapart'⟩ := h.seen_before
  have hbefore := clear_before hapart hpre
  obtain ⟨ha, hb, hc⟩ := apart_append.1 (hapart' hapart)
  obtain ⟨-, hd, hf⟩ := apart_cons.1 hb
  have hlt : ∀ z ∈ post, e < z.1 := fun z hz ↦ by
    have := hd z hz
    omega
  obtain ⟨m', first', hmove, hlist, -⟩ := h'.moveHole_spec hin hx hlt hzero hfirst
  refine ⟨m', first', _, hmove, hlist, by simp, ?_, ?_⟩
  · refine apart_append.2 ⟨ha, apart_cons.2 ⟨hend, hd, hf⟩, fun y hy z hz ↦ ?_⟩
    obtain rfl | hz := List.mem_cons.1 hz
    · have := hc y hy x List.mem_cons_self
      dsimp only
      omega
    · exact hc y hy z (List.mem_cons_of_mem _ hz)
  · intro y hy
    obtain hy | hy := List.mem_append.1 hy
    · exact .inl (hbefore y (hsub y hy))
    obtain rfl | hy := List.mem_cons.1 hy
    · exact .inr he.le
    · exact .inr (hpost y hy)

include h hapart hpre hpost in
/-- The hole is split. -/
theorem fix_split {e : ℕ} (ho : x.1 < o) (he : 8 * o + len = 8 * e) (hend : 8 * e < x.2)
    (hin : Inside e) :
    ∃ m' hs, splitHole m first x.1 e ((8 * o : ℕ) : ℤ) = some (m', first, false) ∧
      Beside m' first hs o len := by
  have hbefore := clear_before hapart hpre
  obtain ⟨ha, hb, hc⟩ := apart_append.1 hapart
  obtain ⟨-, hd, hf⟩ := apart_cons.1 hb
  have hlt : ∀ z ∈ post, e < z.1 := fun z hz ↦ by
    have := hd z hz
    omega
  have hfit : 8 * o < 65536 := by
    have hin : 8 * e + 8 ≤ 16364 := hin
    omega
  obtain ⟨m', hsplit, hlist, -⟩ := h.splitHole_spec hin (by omega) hlt hfit
  refine ⟨m', _, hsplit, hlist, by simp, ?_, ?_⟩
  · refine apart_append.2 ⟨ha, apart_cons.2 ⟨by dsimp only; omega, ?_, apart_cons.2 ⟨hend, hd, hf⟩⟩,
      ?_⟩
    · intro z hz
      obtain rfl | hz := List.mem_cons.1 hz
      · dsimp only
        omega
      · have := hpost z hz
        dsimp only
        omega
    · intro y hy z hz
      have hyx := hc y hy x List.mem_cons_self
      obtain rfl | hz := List.mem_cons.1 hz
      · exact hyx
      obtain rfl | hz := List.mem_cons.1 hz
      · dsimp only
        omega
      · exact hc y hy z (List.mem_cons_of_mem _ hz)
  · intro y hy
    obtain hy | hy := List.mem_append.1 hy
    · exact .inl (hbefore y hy)
    obtain rfl | hy := List.mem_cons.1 hy
    · exact .inl (by dsimp only; omega)
    obtain rfl | hy := List.mem_cons.1 hy
    · exact .inr he.le
    · exact .inr (hpost y hy)

end Fix

/-- The list is fixed without an access outside of the buffer, and the descriptors stay clear of the
bytes of the fragment. -/
theorem fixHoles_spec (h : HoleList m first (pre ++ x :: post)) (hapart : Apart (pre ++ x :: post))
    (hpre : ∀ y ∈ pre, y.2 < 8 * o) (hpost : ∀ z ∈ post, 8 * o + len ≤ 8 * z.1)
    (hfit : 8 * o + len ≤ ipMaxUdp) (hover : x.1 < o + (len + 7) / 8)
    (hrest : 8 * o + len < x.2 → len % 8 = 0 ∧ 8 * o + len + 8 ≤ ipMaxUdp) :
    ∃ m' first' done, fixHoles m first x.1 o len = some (m', first', done) ∧
      (done = false → ∃ hs, Beside m' first' hs o len) := by
  have hfit : 8 * o + len ≤ 16364 := hfit
  rw [h.fixHoles_eq (by omega)]
  by_cases hend : x.2 ≤ 8 * o + len
  · by_cases ho : o ≤ x.1
    · rw [if_pos ho, if_pos hend]
      exact fix_remove h hapart hpre hpost
    · rw [if_neg ho, if_pos hend]
      exact ⟨_, _, _, rfl, fun _ ↦
        ⟨_, fix_shorten h hapart hpre hpost (Nat.not_le.1 ho) (by omega)⟩⟩
  · obtain ⟨hmod, hin⟩ := hrest (Nat.not_le.1 hend)
    have he : 8 * o + len = 8 * (o + len / 8) := by omega
    have hin : Inside (o + len / 8) := by
      rw [Inside, ← he]
      exact hin
    by_cases ho : o ≤ x.1
    · rw [if_pos ho, if_neg hend]
      obtain ⟨m', first', hs, hmove, hbeside⟩ :=
        fix_move h hapart hpre hpost he (by omega) (by omega) hin
      exact ⟨m', first', false, hmove, fun _ ↦ ⟨hs, hbeside⟩⟩
    · rw [if_neg ho, if_neg hend]
      obtain ⟨m', hs, hsplit, hbeside⟩ :=
        fix_split h hapart hpre hpost (Nat.not_le.1 ho) he (by omega) hin
      exact ⟨m', first, false, hsplit, fun _ ↦ ⟨hs, hbeside⟩⟩

/-! ## One packet -/

/-- A hole that the loop finds is a target. -/
theorem HoleList.target (h : HoleList m first (pre ++ x :: post)) {start : ℕ}
    (hfind : (x :: post).find? (fun y ↦ decide (start ≤ y.2)) = some y) :
    Target m start x.1 y.1 := by
  induction post generalizing pre x with
  | nil =>
    have hlast := h.last x (List.mem_append_right _ List.mem_cons_self)
    obtain ⟨hx, rfl⟩ : start ≤ x.2 ∧ x = y := by simpa using hfind
    exact .here (hlast ▸ hx)
  | cons z post ih =>
    have hlast := h.last x (List.mem_append_right _ List.mem_cons_self)
    by_cases hle : start ≤ x.2
    · rw [List.find?_cons_of_pos (by simpa using hle), Option.some.injEq] at hfind
      subst hfind
      exact .here (hlast ▸ hle)
    · rw [List.find?_cons_of_neg (by simpa using hle)] at hfind
      have hnext : fld m .nextHole x.1 = z.1 := by
        rw [h.seg_cut.2.2.1]
        rfl
      have hz : z.1 ≠ 0 := by
        have := h.sorted_cut.2.1 z List.mem_cons_self
        omega
      refine .next (hlast ▸ Nat.not_le.1 hle) (hnext ▸ hz) ?_
      rw [hnext]
      exact @ih (pre ++ [x]) z (by simpa using h) hfind

/-- The static variables hold a list of holes. -/
def Linked (st : Defrag) : Prop :=
  ∃ hs, HoleList st.pktBuff st.firstHole hs ∧ hs ≠ [] ∧ Apart hs

/-- The hole that a fragment goes into, after the last fragment has cut it. -/
theorem truncateHole_spec {ip : Packet} (h : HoleList m first (pre ++ y :: post))
    (hapart : Apart (pre ++ y :: post)) (hfit : 8 * o + len ≤ ipMaxUdp)
    (hover : y.1 < o + (len + 7) / 8) (hpost : ∀ z ∈ post, 8 * o + len ≤ 8 * z.1) :
    ∃ m' l, truncateHole ip m y.1 ((8 * o + len : ℕ) : ℤ) = some m' ∧
      HoleList m' first (pre ++ (y.1, l) :: post) ∧ Apart (pre ++ (y.1, l) :: post) ∧
      (8 * o + len < l → ip.moreFragments = true ∧ l = y.2) := by
  have hfit : 8 * o + len ≤ 16364 := hfit
  have hy := h.inside y (List.mem_append_right _ List.mem_cons_self)
  unfold truncateHole
  by_cases hmore : ip.moreFragments = true
  · rw [if_pos hmore]
    exact ⟨m, y.2, rfl, h, hapart, fun _ ↦ ⟨hmore, rfl⟩⟩
  · rw [if_neg hmore, writeField_eq hy _ _ (by omega)]
    refine ⟨_, 8 * o + len, rfl, h.shorten (by omega), ?_, fun hlt ↦ absurd hlt (lt_irrefl _)⟩
    obtain ⟨ha, hb, hc⟩ := apart_append.1 hapart
    obtain ⟨-, -, hd⟩ := apart_cons.1 hb
    refine apart_append.2 ⟨ha, apart_cons.2 ⟨by dsimp only; omega, hpost, hd⟩, fun w hw z hz ↦ ?_⟩
    obtain rfl | hz := List.mem_cons.1 hz
    · exact hc w hw y List.mem_cons_self
    · exact hc w hw z (List.mem_cons_of_mem _ hz)

/-- A fragment is put into a hole where it does no harm. -/
theorem fill_spec {ip : Packet} (h : HoleList m first (pre ++ y :: post))
    (hapart : Apart (pre ++ y :: post)) (hpre : ∀ z ∈ pre, z.2 < 8 * ip.offset8)
    (hlen : ip.ipLen = ipHdrSize + len) (hip : ip.ipLen ≤ ip.length)
    (hfit : 8 * ip.offset8 + len ≤ ipMaxUdp) (hover : y.1 < ip.offset8 + (len + 7) / 8)
    (hharm : Harmless ip m y.1) :
    ∃ m₁ m₂ first' done m₃,
      truncateHole ip m y.1 (8 * ip.offset8 + len) = some m₁ ∧
      fixHoles m₁ first y.1 ip.offset8 len = some (m₂, first', done) ∧
      copyFragment ip m₂ (8 * ip.offset8) len = some m₃ ∧
      (done = false → ∃ hs, HoleList m₃ first' hs ∧ hs ≠ [] ∧ Apart hs) := by
  have hsub : ip.ipLen - ipHdrSize = len := by omega
  obtain ⟨-, hnext, hrest⟩ := hharm
  rw [hsub] at hnext hrest
  have hpost : ∀ z ∈ post, 8 * ip.offset8 + len ≤ 8 * z.1 := by
    intro z hz
    obtain ⟨-, -, hnext', -⟩ := h.seg_cut
    obtain ⟨w, post', rfl⟩ := List.exists_cons_of_ne_nil (List.ne_nil_of_mem hz)
    have hw : fld m .nextHole y.1 = w.1 := by
      rw [hnext']
      rfl
    have hwy := h.sorted_cut.2.1 w List.mem_cons_self
    have hwz : w.1 ≤ z.1 := by
      obtain rfl | hz := List.mem_cons.1 hz
      · exact le_rfl
      · exact (h.head_lt rfl hz).le
    rw [hw] at hnext
    have := hnext (by omega)
    omega
  have hlast := h.last y (List.mem_append_right _ List.mem_cons_self)
  obtain ⟨m₁, l, htrunc, h₁, hapart₁, hl⟩ := truncateHole_spec h hapart hfit hover hpost
  obtain ⟨m₂, first', done, hfix, hdone⟩ := fixHoles_spec h₁ hapart₁ hpre hpost hfit hover
    (fun hlt ↦ by
      obtain ⟨hmore, rfl⟩ := hl hlt
      rw [hlast] at hrest
      exact hrest hmore hlt)
  have hfit' : 8 * ip.offset8 + len ≤ 16364 := hfit
  have hcond : (0 : ℤ) ≤ (len : ℤ) ∧
      ((ipHdrSize : ℕ) : ℤ) + 8 * (ip.offset8 : ℤ) + (len : ℤ) ≤ ((ipPktSize : ℕ) : ℤ) ∧
      ((ipHdrSize : ℕ) : ℤ) + (len : ℤ) ≤ (ip.length : ℤ) := by
    simp only [ipHdrSize, ipPktSize] at hlen ⊢
    omega
  have haddr : (((ipHdrSize : ℕ) : ℤ) + 8 * (ip.offset8 : ℤ)).toNat = ipHdrSize +
      8 * ip.offset8 := by
    omega
  have hbytes : ((ip.drop ipHdrSize).take (len : ℤ).toNat).length = len := by
    rw [List.length_take, List.length_drop]
    omega
  refine ⟨m₁, m₂, first', done, m₂.write (ipHdrSize + 8 * ip.offset8)
    ((ip.drop ipHdrSize).take (len : ℤ).toNat), ?_, hfix, ?_, fun hd ↦ ?_⟩
  · rw [← htrunc]
    push_cast
    rfl
  · rw [copyFragment, if_pos hcond, haddr]
  · obtain ⟨hs, hholes, hne, hap, hclear⟩ := hdone hd
    refine ⟨hs, hholes.write fun z hz ↦ ?_, hne, hap⟩
    rw [hbytes]
    have := hclear z hz
    omega

theorem Linked.insertFragment_spec {st : Defrag} {ip : Packet} (h : Linked st)
    (hip : ip.ipLen ≤ ip.length) (hfits : ip.Fits)
    (hharm : ∀ h, Target st.pktBuff (8 * ip.offset8) st.firstHole h →
      (h : ℤ) < ip.offset8 + (ip.ipLen - ipHdrSize + 7 : ℤ).tdiv 8 → Harmless ip st.pktBuff h) :
    ∃ st' r, insertFragment ip st = some (st', r) ∧ (r = none → Linked st') := by
  obtain ⟨hs, hholes, hne, hapart⟩ := id h
  obtain ⟨x₀, hs₀, rfl⟩ := List.exists_cons_of_ne_nil hne
  have hlen := hholes.length_le
  rw [List.length_cons] at hlen
  have hcut : HoleList st.pktBuff st.firstHole ([] ++ x₀ :: hs₀) := hholes
  have hfirst : st.firstHole = x₀.1 := hholes.first
  have hfind : findHole st.pktBuff ((8 * ip.offset8 : ℕ) : ℤ) 65536 x₀.1 = _ :=
    hcut.findHole_eq (by omega)
  have hstart : ((8 * ip.offset8 : ℕ) : ℤ) = 8 * (ip.offset8 : ℤ) := by omega
  rw [hstart] at hfind
  unfold insertFragment
  simp only [Option.bind_eq_bind]
  rw [hfirst, hfind, Option.bind_some]
  cases hres : (x₀ :: hs₀).find? fun y ↦ decide (8 * ip.offset8 ≤ y.2) with
  | none => exact ⟨st, none, rfl, fun _ ↦ h⟩
  | some y =>
    simp only [Option.map_some]
    by_cases hdup : (ip.offset8 : ℤ) + ((ip.ipLen : ℤ) - (ipHdrSize : ℕ) + 7).tdiv 8 ≤ (y.1 : ℤ)
    · rw [if_pos hdup]
      exact ⟨st, none, rfl, fun _ ↦ h⟩
    rw [if_neg hdup]
    have htarget := hcut.target hres
    rw [← hfirst] at htarget
    have hharm := hharm y.1 htarget (Int.not_le.1 hdup)
    obtain ⟨-, pre, post, hsplit, hbefore⟩ := List.find?_eq_some_iff_append.1 hres
    rw [hsplit] at hholes hapart
    obtain ⟨len, hlen⟩ := Nat.exists_eq_add_of_le hharm.nonneg
    have hlen' : (ip.ipLen : ℤ) - (ipHdrSize : ℕ) = (len : ℤ) := by omega
    rw [hlen'] at hdup
    have hover : y.1 < ip.offset8 + (len + 7) / 8 := by
      rw [Int.tdiv_eq_ediv_of_nonneg (by omega)] at hdup
      omega
    have hfit : 8 * ip.offset8 + len ≤ ipMaxUdp := by
      have hle := hfits.bounds.2
      rw [hlen'] at hle
      omega
    obtain ⟨m₁, m₂, first', done, m₃, htrunc, hfix, hcopy, hdone⟩ := fill_spec hholes
      hapart (fun z hz ↦ by simpa using hbefore z hz) hlen hip hfit hover hharm
    rw [hlen', htrunc, Option.bind_some, ← hfirst, hfix, Option.bind_some]
    simp only [hcopy, Option.bind_some]
    cases done with
    | true => exact ⟨_, _, rfl, fun hr ↦ (nomatch hr)⟩
    | false => exact ⟨_, _, rfl, fun _ ↦ hdone rfl⟩

/-- The buffer holds a list of holes, unless its packet was returned or there never was one. -/
def Seen.Safe (s : Seen) : Prop := s.returned = false → s.st.totalLen ≠ 0 → Linked s.st

theorem netDefragment_of_not_fits {ip : Packet} {st : Defrag} (h : ¬ ip.Fits) :
    netDefragment ip st = some (st, none) := if_pos (Int.not_le.1 h)

theorem netDefragment_of_new {ip : Packet} {st : Defrag} (h : ip.Fits) (hnew : IsNew ip st) :
    netDefragment ip st = (reset ip st).bind (insertFragment ip) :=
  (if_neg (Int.not_lt.2 h)).trans (if_pos hnew)

theorem netDefragment_of_not_new {ip : Packet} {st : Defrag} (h : ip.Fits) (hnew : ¬ IsNew ip st) :
    netDefragment ip st = insertFragment ip st :=
  (if_neg (Int.not_lt.2 h)).trans (if_neg hnew)

/-- A harmless packet is received without an access outside of the packets. -/
theorem Seen.Safe.receive {s : Seen} {ip : Packet} {netIp : List UInt8} (h : s.Safe)
    (hip : Checked netIp ip) (hharm : s.Harmless ip) : ∃ s', s.receive ip = some s' ∧ s'.Safe := by
  have hheader : ipHdrSize ≤ ip.length := by
    have : 28 ≤ ip.length := hip.length
    have : ipHdrSize = 20 := rfl
    omega
  unfold Seen.receive
  by_cases hwhole : ip.offset8 = 0 ∧ ip.moreFragments = false
  · rw [if_pos hwhole]
    exact ⟨s, rfl, h⟩
  rw [if_neg hwhole]
  by_cases hfits : ip.Fits
  · obtain ⟨hreturned, htarget⟩ := hharm hfits
    -- the list of holes that the packet meets
    obtain ⟨st, heq, hlinked, htarget⟩ : ∃ st, netDefragment ip s.st = insertFragment ip st ∧
        Linked st ∧ ∀ h, Target st.pktBuff (8 * ip.offset8) st.firstHole h →
          (h : ℤ) < ip.offset8 + (ip.ipLen - ipHdrSize + 7 : ℤ).tdiv 8 →
          Net.Harmless ip st.pktBuff h := by
      unfold current at htarget
      by_cases hnew : IsNew ip s.st
      · obtain ⟨m, hreset, hholes, -⟩ := reset_eq hheader s.st
        rw [if_pos hnew, hreset, Option.getD_some] at htarget
        refine ⟨_, ?_, ⟨_, hholes, List.cons_ne_nil _ _, ?_, List.pairwise_singleton _ _⟩, htarget⟩
        · rw [netDefragment_of_new hfits hnew, hreset, Option.bind_some]
        · intro x hx
          rw [List.mem_singleton.1 hx]
          decide
      · rw [if_neg hnew] at htarget
        have hret : s.returned = false := Bool.eq_false_iff.2 fun hs ↦ hnew (hreturned hs)
        exact ⟨s.st, netDefragment_of_not_new hfits hnew, h hret fun htotal ↦ hnew (.inl htotal),
          htarget⟩
    obtain ⟨st', r, hins, hr⟩ := hlinked.insertFragment_spec hip.ipLen hfits htarget
    rw [heq, hins]
    refine ⟨_, rfl, fun hret _ ↦ hr ?_⟩
    cases r with
    | none => rfl
    | some n => cases hret
  · rw [netDefragment_of_not_fits hfits]
    refine ⟨_, rfl, fun hret ↦ ?_⟩
    have hnot : decide (ip.Fits ∧ IsNew ip s.st) = false := decide_eq_false fun hc ↦ hfits hc.1
    simp only [hnot, Option.isSome_none, Bool.not_false, Bool.and_true, Bool.false_or] at hret
    exact h hret

/-- Every packet is harmless when it arrives. -/
def Seen.HarmlessRun (s : Seen) (ips : List Packet) : Prop :=
  ∀ before ip after s', ips = before ++ ip :: after → s.receiveAll before = some s' → s'.Harmless ip

/-- While every packet is harmless when it arrives, no call leaves the packets, and every call
returns. -/
theorem receiveAll_of_harmless {netIp : List UInt8} {ips : List Packet}
    (hips : ∀ ip ∈ ips, Checked netIp ip) (hharm : Seen.init.HarmlessRun ips) :
    ∃ s, Seen.init.receiveAll ips = some s := by
  have hrun : ∃ s, Seen.init.receiveAll ips = some s ∧ s.Safe := by
    induction ips using List.reverseRecOn with
    | nil => exact ⟨.init, rfl, fun _ htotal ↦ absurd rfl htotal⟩
    | append_singleton ips ip ih =>
      obtain ⟨s, hs, hsafe⟩ := ih (fun ip hip ↦ hips ip (List.mem_append_left _ hip))
        fun before ip' after s' heq hbefore ↦
          hharm before ip' (after ++ [ip]) s' (by rw [heq]; simp) hbefore
      obtain ⟨s', hs', hsafe'⟩ := hsafe.receive
        (hips ip (List.mem_append_right _ List.mem_cons_self)) (hharm ips ip [] s rfl hs)
      refine ⟨s', ?_, hsafe'⟩
      unfold Seen.receiveAll at hs ⊢
      rw [List.foldlM_append, hs]
      exact (bind_pure _).trans hs'
  obtain ⟨s, hs, -⟩ := hrun
  exact ⟨s, hs⟩

/-! ## Fixed packets -/

/-- A packet with a good checksum. -/
def checkedPacket (ipLen : UInt8) (off : UInt8) (more : Bool) (data : List UInt8) : Packet :=
  let front : List UInt8 := [0x45, 0, 0, ipLen, 0, 7, if more then 0x20 else 0, off, 64, 17]
  let back : List UInt8 := [10, 0, 0, 1, 10, 0, 0, 2]
  front ++ leBytes 2 (computeIpChecksum (front ++ back)) ++ back ++ data

/-- A packet in two fragments. -/
def twoFragments : List Packet :=
  [checkedPacket 28 0 true (List.replicate 8 1), checkedPacket 28 1 false (List.replicate 8 2)]

theorem checked_twoFragments : ∀ ip ∈ twoFragments, Checked [0, 0, 0, 0] ip := by decide

/-- Behind the last hole there is no other. -/
theorem Target.eq_of_last {start i h : ℕ} (ht : Target m start i h)
    (hnext : fld m .nextHole i = 0) :
    h = i := by
  cases ht with
  | here _ => rfl
  | next _ hne _ => exact absurd hnext hne

theorem harmlessRun_cons {s : Seen} {ip : Packet} {ips : List Packet} (hip : s.Harmless ip)
    (hips : ∀ s', s.receive ip = some s' → s'.HarmlessRun ips) : s.HarmlessRun (ip :: ips) := by
  rintro before ip' after s' heq hs'
  cases before with
  | nil =>
    obtain ⟨rfl, -⟩ := List.cons.inj heq
    cases hs'
    exact hip
  | cons ip₀ before =>
    obtain ⟨hfirst, hrest⟩ := List.cons.inj heq
    subst hfirst
    unfold Seen.receiveAll at hs'
    rw [List.foldlM_cons, Option.bind_eq_bind, Option.bind_eq_some_iff] at hs'
    obtain ⟨s₁, hs₁, hs'⟩ := hs'
    exact hips s₁ hs₁ before ip' after s' hrest hs'

theorem harmless_first : Seen.init.Harmless (checkedPacket 28 0 true (List.replicate 8 1)) := by
  refine fun _ ↦ ⟨fun hret ↦ (nomatch hret), fun h ht _ ↦ ?_⟩
  obtain rfl := ht.eq_of_last (by decide +kernel)
  exact ⟨by decide, fun hnext ↦ absurd (by decide +kernel) hnext, fun _ _ ↦ by decide⟩

/-- The state after the first fragment. -/
def afterFirst : Seen :=
  (Seen.init.receive (checkedPacket 28 0 true (List.replicate 8 1))).get (by decide +kernel)

theorem harmless_second : afterFirst.Harmless (checkedPacket 28 1 false (List.replicate 8 2)) := by
  refine fun _ ↦ ⟨fun hret ↦ absurd hret (by decide +kernel), fun h ht _ ↦ ?_⟩
  obtain rfl := ht.eq_of_last (by decide +kernel)
  exact ⟨by decide, fun hnext ↦ absurd (by decide +kernel) hnext, fun hmore ↦ (nomatch hmore)⟩

theorem receiveAll_twoFragments : ∃ s, Seen.init.receiveAll twoFragments = some s := by
  refine receiveAll_of_harmless checked_twoFragments (harmlessRun_cons harmless_first fun s hs ↦ ?_)
  obtain rfl : afterFirst = s := Option.some.inj ((Option.some_get _).trans hs)
  refine harmlessRun_cons harmless_second fun s' _ before ip after s'' heq _ ↦ ?_
  exact absurd heq.symm (by simp)

/-- A header that gives a length below its own makes the length of the data negative; the end of the
fragment is not, and the packet is not refused. -/
theorem not_receiveAll_negative :
    Checked [0, 0, 0, 0] (checkedPacket 12 2 true (List.replicate 8 1)) ∧
      (checkedPacket 12 2 true (List.replicate 8 1)).Fits ∧
      Seen.init.receiveAll [checkedPacket 12 2 true (List.replicate 8 1)] = none := by
  refine ⟨by decide, by decide, ?_⟩
  exact Option.isNone_iff_eq_none.1 (by decide +kernel)

end MiniPi.Net
