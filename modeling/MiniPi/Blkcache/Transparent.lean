import MiniPi.Blkcache.Basic
import MiniPi.Lib.Run
import Mathlib

/-!
# What a read gives

Every node holds what its device would give.  A read gives what the driver gives unless its range
wraps around past the largest block number and a node covers what is left of it, and a change of the
partition drops the nodes of the device if the driver does.
-/

namespace MiniPi.Blkcache

open Lib

variable {w u : ℕ}

/-! ## Nodes -/

/-- The node holds what the device has. -/
structure Holds (d : Device w u) (node : BlockCacheNode) : Prop where
  small : node.blksz * node.blkcnt < 2 ^ u
  room : node.blksz * node.blkcnt ≤ node.cache.length
  inside : node.start + node.blkcnt ≤ d.lba d.hwpart
  copy : node.cache.take (node.blksz * node.blkcnt) =
    (d.content d.hwpart).slice (node.start * node.blksz) (node.blksz * node.blkcnt)

/-- The number of entries is counted, and every node holds what its device has. -/
structure Inv (s : Sys w u) : Prop where
  entries : s.cache.stats.entries = s.cache.nodes.length
  entries_le : s.cache.stats.entries ≤ s.cache.stats.maxEntries
  nodes : ∀ node ∈ s.cache.nodes, Holds (s.devs node.iftype node.devnum) node

theorem cacheFind_some {nodes nodes' : List BlockCacheNode} {node : BlockCacheNode} {r : Range}
    (h : cacheFind w nodes r = some (node, nodes')) :
    node.Covers w r ∧ node ∈ nodes ∧ nodes'.length = nodes.length ∧ ∀ n ∈ nodes', n ∈ nodes := by
  rw [cacheFind, Option.map_eq_some_iff] at h
  obtain ⟨found, hfind, heq⟩ := h
  obtain ⟨rfl, rfl⟩ := Prod.mk.inj heq
  have hcov := List.find?_some hfind
  have hmem := List.mem_of_find?_eq_some hfind
  refine ⟨of_decide_eq_true hcov, hmem, ?_, ?_⟩
  · rw [List.length_cons, List.length_eraseP_of_mem hmem hcov]
    exact Nat.sub_add_cancel (List.length_pos_of_mem hmem)
  · intro n hn
    obtain rfl | hn := List.mem_cons.mp hn
    · exact hmem
    · exact List.mem_of_mem_eraseP hn

/-- A range that does not wrap around and is covered by a node is inside it, and the copy is
what the device has. -/
theorem Holds.copy_eq {d : Device w u} {node : BlockCacheNode} {r : Range} (h : Holds d node)
    (hcov : node.Covers w r) (hwrap : r.start + r.blkcnt < 2 ^ w) :
    let copy : Copy :=
      { buffer := node.cache
        offset := (r.start - node.start) * r.blksz % 2 ^ u
        length := r.blksz * r.blkcnt % 2 ^ u }
    copy.InBuffer ∧ r.start + r.blkcnt ≤ d.lba d.hwpart ∧
      copy.bytes = (d.content d.hwpart).slice (r.start * r.blksz) (r.blkcnt * r.blksz) := by
  obtain ⟨-, -, hblksz, hstart, hend⟩ := hcov
  have hlt : node.start + node.blkcnt < 2 ^ w := h.inside.trans_lt (d.lba_lt _)
  rw [Nat.mod_eq_of_lt hwrap, Nat.mod_eq_of_lt hlt] at hend
  obtain ⟨k, hk⟩ := Nat.exists_eq_add_of_le hstart
  have hsmall := h.small
  have hroom := h.room
  have hcopy := h.copy
  rw [hblksz] at hsmall hroom hcopy
  -- the range begins `k` blocks behind the start of the node
  have hpart : k * r.blksz + r.blksz * r.blkcnt ≤ r.blksz * node.blkcnt := by
    rw [Nat.mul_comm k, ← Nat.mul_add]
    exact Nat.mul_le_mul_left _ (by omega)
  have hoff : (r.start - node.start) * r.blksz % 2 ^ u = k * r.blksz := by
    rw [hk, Nat.add_sub_cancel_left]
    exact Nat.mod_eq_of_lt (by omega)
  have hlen : r.blksz * r.blkcnt % 2 ^ u = r.blksz * r.blkcnt := Nat.mod_eq_of_lt (by omega)
  intro copy
  have hcopyeq : copy = ⟨node.cache, k * r.blksz, r.blksz * r.blkcnt⟩ := by
    simp only [copy, hoff, hlen]
  refine ⟨?_, hend.trans h.inside, ?_⟩
  · rw [hcopyeq]
    exact hpart.trans hroom
  · have htake : (node.cache.drop (k * r.blksz)).take (r.blksz * r.blkcnt) =
        ((node.cache.take (r.blksz * node.blkcnt)).drop (k * r.blksz)).take
        (r.blksz * r.blkcnt) := by
      rw [List.drop_take, List.take_take, Nat.min_eq_left (by omega)]
    rw [hcopyeq, Copy.bytes]
    dsimp only
    rw [htake, hcopy, Mem.take_drop_slice hpart, hk, Nat.add_mul, Nat.mul_comm r.blkcnt]

/-- A range that was read from the device, in a buffer that is large enough. -/
theorem holds_filled {d : Device w u} {r : Range} {cache : List UInt8}
    (hsmall : r.blksz * r.blkcnt < 2 ^ u) (hinside : r.start + r.blkcnt ≤ d.lba d.hwpart) :
    let bytes := (d.content d.hwpart).slice (r.start * r.blksz) (r.blkcnt * r.blksz)
    Holds d { r with cache := bytes.take (r.blksz * r.blkcnt) ++ cache } := by
  intro bytes
  have hlength : bytes.length = r.blksz * r.blkcnt := by
    rw [Mem.length_slice, Nat.mul_comm]
  have htake : bytes.take (r.blksz * r.blkcnt) = bytes := List.take_of_length_le hlength.le
  rw [htake]
  refine ⟨hsmall, ?_, hinside, ?_⟩
  · dsimp only
    rw [List.length_append]
    omega
  · dsimp only
    rw [List.take_left' hlength, Nat.mul_comm r.blksz]

/-! ## The operations on the cache -/

/-- The cache is counted afterwards, and a node that was not there before has the property `P`. -/
structure Keeps (c c' : BlockCache) (P : BlockCacheNode → Prop) : Prop where
  entries : c'.stats.entries = c'.nodes.length
  entries_le : c'.stats.entries ≤ c'.stats.maxEntries
  nodes : ∀ node ∈ c'.nodes, node ∈ c.nodes ∨ P node

theorem fillNode_keeps {m : Mallocs} {c : BlockCache} {r : Range} {buffer : List UInt8}
    {cache : Option (List UInt8)} {P : BlockCacheNode → Prop}
    (hentries : c.stats.entries = c.nodes.length) (hroom : c.stats.entries < c.stats.maxEntries)
    (hsmall : r.blksz * r.blkcnt < 2 ^ u) (hu : u ≤ w)
    (hP : ∀ cache, P { r with cache := buffer.take (r.blksz * r.blkcnt) ++ cache }) :
    Keeps c (fillNode w u m c r buffer cache) P := by
  have hbytes : r.blksz * r.blkcnt % 2 ^ w % 2 ^ u = r.blksz * r.blkcnt := by
    rw [Nat.mod_eq_of_lt (hsmall.trans_le (Nat.pow_le_pow_right Nat.two_pos hu)),
      Nat.mod_eq_of_lt hsmall]
  have hadd (bytes : List UInt8) (hbytes : P { r with cache := bytes }) :
      Keeps c { nodes := { r with cache := bytes } :: c.nodes,
                stats := { c.stats with entries := c.stats.entries + 1 } } P := by
    refine ⟨by simp [hentries], hroom, ?_⟩
    intro node hnode
    obtain rfl | hnode := List.mem_cons.mp hnode
    · exact Or.inr hbytes
    · exact Or.inl hnode
  cases cache with
  | some cache =>
      simp only [fillNode, hbytes]
      exact hadd _ (hP _)
  | none =>
      simp only [fillNode, hbytes]
      split_ifs with hok
      · refine hadd _ ?_
        rw [← List.append_nil (buffer.take _)]
        exact hP []
      · exact ⟨hentries, hroom.le, fun _ ↦ Or.inl⟩

theorem blkcacheFill_keeps {m : Mallocs} {c : BlockCache} {r : Range} {buffer : List UInt8}
    {P : BlockCacheNode → Prop} (hentries : c.stats.entries = c.nodes.length)
    (hle : c.stats.entries ≤ c.stats.maxEntries) (hsmall : r.blksz * r.blkcnt < 2 ^ u) (hu : u ≤ w)
    (hP : ∀ cache, P { r with cache := buffer.take (r.blksz * r.blkcnt) ++ cache }) :
    Keeps c (blkcacheFill w u m c r buffer) P := by
  have hsame : Keeps c c P := ⟨hentries, hle, fun _ ↦ Or.inl⟩
  rw [blkcacheFill]
  split_ifs with hbig hzero hfull hok
  · exact hsame
  · exact hsame
  · cases hlast : c.nodes.getLast? with
    | none => exact hsame
    | some node =>
        have hne : c.nodes ≠ [] := by
          rintro hnil
          simp [hnil] at hlast
        have hpos := List.length_pos_of_ne_nil hne
        have hfill (cache : Option (List UInt8)) : Keeps
            { nodes := c.nodes.dropLast, stats := { c.stats with entries := c.stats.entries - 1 } }
            (fillNode w u m { nodes := c.nodes.dropLast,
                              stats := { c.stats with entries := c.stats.entries - 1 } }
              r buffer cache) P :=
          fillNode_keeps (by simp [hentries]) (by dsimp only; omega) hsmall hu hP
        specialize hfill (if node.blkcnt * node.blksz % 2 ^ w < r.blksz * r.blkcnt % 2 ^ w then none
          else some node.cache)
        exact ⟨hfill.entries, hfill.entries_le,
          fun n hn ↦ (hfill.nodes n hn).imp_left List.mem_of_mem_dropLast⟩
  · exact fillNode_keeps hentries (by omega) hsmall hu hP
  · exact hsame

theorem blkcacheInvalidate_entries {c : BlockCache} (iftype devnum : ℤ)
    (h : c.stats.entries = c.nodes.length) :
    (blkcacheInvalidate c iftype devnum).stats.entries =
      (blkcacheInvalidate c iftype devnum).nodes.length := by
  have hle := List.length_filter_le
    (fun node : BlockCacheNode ↦ !(node.iftype = iftype ∧ node.devnum = devnum)) c.nodes
  simp only [blkcacheInvalidate, h]
  omega

theorem mem_blkcacheInvalidate {c : BlockCache} {iftype devnum : ℤ} {node : BlockCacheNode} :
    node ∈ (blkcacheInvalidate c iftype devnum).nodes ↔
      node ∈ c.nodes ∧ ¬(node.iftype = iftype ∧ node.devnum = devnum) := by
  simp only [blkcacheInvalidate, List.mem_filter, Bool.not_eq_true', decide_eq_false_iff_not]

theorem blkcacheRead_keeps {c : BlockCache} {r : Range}
    (hentries : c.stats.entries = c.nodes.length) (hle : c.stats.entries ≤ c.stats.maxEntries) :
    Keeps c (blkcacheRead w u c r).1 fun _ ↦ False := by
  unfold blkcacheRead
  cases hfind : cacheFind w c.nodes r with
  | none => exact ⟨hentries, hle, fun _ ↦ Or.inl⟩
  | some found =>
      obtain ⟨node, nodes⟩ := found
      obtain ⟨-, -, hlength, hmem⟩ := cacheFind_some hfind
      exact ⟨hentries.trans hlength.symm, hle, fun n hn ↦ Or.inl (hmem n hn)⟩

/-! ## Calls -/

inductive Call
  | dread (iftype devnum : ℤ) (start blkcnt : ℕ) (pos : 1 ≤ blkcnt) (m : Mallocs)
  | dwrite (iftype devnum : ℤ) (start blkcnt : ℕ) (buffer : List UInt8)
  | derase (iftype devnum : ℤ) (start blkcnt : ℕ)
  | configure (blocks entries : ℕ)
  | selectHwpart (iftype devnum hwpart : ℤ)

/-- The state after a call. -/
def Sys.call (s : Sys w u) : Call → Sys w u
  | .dread i n start blkcnt _ m => (blkDread m s i n start blkcnt).1
  | .dwrite i n start blkcnt buffer => (blkDwrite s i n start blkcnt buffer).1
  | .derase i n start blkcnt => (blkDerase s i n start blkcnt).1
  | .configure blocks entries => { s with cache := blkcacheConfigure s.cache blocks entries }
  | .selectHwpart i n hwpart => (blkSelectHwpart s i n hwpart).1

/-- A read gives what the driver gives, and copies out of no buffer more than it has. -/
def Transparent (s : Sys w u) : Call → Prop
  | .dread i n start blkcnt _ m =>
      let r := (blkDread m s i n start blkcnt).2
      let driver := (s.devs i n).read start blkcnt
      ((s.devs i n).hasRead → r.ret = driver.1 ∧ (r.ret = blkcnt → r.buffer = driver.2)) ∧
        ∀ copy ∈ r.copy, copy.InBuffer
  | _ => True

/-- The cache has as many nodes as it counts, and not more than it may have. -/
def Counted (s : Sys w u) : Prop :=
  s.cache.stats.entries = s.cache.nodes.length ∧ s.cache.stats.entries ≤ s.cache.stats.maxEntries

/-- The bytes that are asked for fit into the memory, and the range does not wrap around or no node
seems to cover it; a change of the partition drops the nodes of the device if there are any. -/
def Careful (s : Sys w u) : Call → Prop
  | .dread i n start blkcnt _ _ =>
      (s.devs i n).blksz * blkcnt < 2 ^ u ∧
        (start + blkcnt < 2 ^ w ∨
          ∀ node ∈ s.cache.nodes, ¬node.Covers w ⟨i, n, start, blkcnt, (s.devs i n).blksz⟩)
  | .selectHwpart i n hwpart =>
      ∀ select ∈ (s.devs i n).select,
        (select (s.devs i n).hwpart hwpart).hwpart = (s.devs i n).hwpart ∨
          (select (s.devs i n).hwpart hwpart).invalidates = true ∨
          ∀ node ∈ s.cache.nodes, ¬(node.iftype = i ∧ node.devnum = n)
  | _ => True

def Calls (s : Sys w u) (c : Call) (s' : Sys w u) : Prop := s' = s.call c

def CarefulCalls (s : Sys w u) (c : Call) (s' : Sys w u) : Prop := Careful s c ∧ s' = s.call c

/-- The nodes stay if the devices do. -/
theorem Inv.keeps {s : Sys w u} (h : Inv s) {c : BlockCache} {P : BlockCacheNode → Prop}
    (hkeeps : Keeps s.cache c P)
    (hP : ∀ node, P node → Holds (s.devs node.iftype node.devnum) node) :
    Inv { s with cache := c } :=
  ⟨hkeeps.entries, hkeeps.entries_le, fun node hnode ↦
    (hkeeps.nodes node hnode).elim (h.nodes node) (hP node)⟩

/-- A device may change in any way when its nodes are dropped. -/
theorem Inv.invalidate {s : Sys w u} (h : Inv s) (iftype devnum : ℤ) (d : Device w u) :
    Inv ((s.invalidate iftype devnum).setDev iftype devnum d) := by
  refine ⟨blkcacheInvalidate_entries iftype devnum h.entries, ?_, ?_⟩
  · exact (Nat.sub_le _ _).trans h.entries_le
  · intro node hnode
    obtain ⟨hmem, hother⟩ := mem_blkcacheInvalidate.mp hnode
    simpa only [Sys.setDev, Sys.invalidate, if_neg hother] using h.nodes node hmem

/-- A device that no node is of may change in any way. -/
theorem Inv.setDev {s : Sys w u} (h : Inv s) {iftype devnum : ℤ} {d : Device w u}
    (hnone : ∀ node ∈ s.cache.nodes, ¬(node.iftype = iftype ∧ node.devnum = devnum)) :
    Inv (s.setDev iftype devnum d) := by
  refine ⟨h.entries, h.entries_le, ?_⟩
  intro node hnode
  simpa only [Sys.setDev, if_neg (hnone node hnode)] using h.nodes node hnode

theorem Inv.setHwpart {s : Sys w u} (h : Inv s) {iftype devnum : ℤ} {p : ℕ}
    (hc : p = (s.devs iftype devnum).hwpart ∨
      ∀ node ∈ s.cache.nodes, ¬(node.iftype = iftype ∧ node.devnum = devnum)) :
    Inv (s.setDev iftype devnum { s.devs iftype devnum with hwpart := p }) := by
  rcases hc with rfl | hnone
  · have hself : s.setDev iftype devnum (s.devs iftype devnum) = s := by
      unfold Sys.setDev
      congr 1
      funext i n
      split_ifs with heq
      · rw [heq.1, heq.2]
      · rfl
    exact hself.symm ▸ h
  · exact h.setDev hnone

theorem Inv.configure {s : Sys w u} (h : Inv s) (blocks entries : ℕ) :
    Inv { s with cache := blkcacheConfigure s.cache blocks entries } := by
  by_cases hchange : blocks ≠ s.cache.stats.maxBlocksPerEntry ∨ entries ≠ s.cache.stats.maxEntries
  · simp only [blkcacheConfigure, if_pos hchange]
    exact ⟨rfl, Nat.zero_le _, by simp⟩
  · simp only [blkcacheConfigure, if_neg hchange]
    have hsame : entries = s.cache.stats.maxEntries := by tauto
    exact ⟨h.entries, h.entries_le.trans hsame.ge, h.nodes⟩

/-- What a careful read does: it gives what the driver gives and keeps the nodes right. -/
theorem Inv.dread {s : Sys w u} (h : Inv s) (hu : u ≤ w) {i n : ℤ} {start blkcnt : ℕ}
    (hpos : 1 ≤ blkcnt) (m : Mallocs) (hc : Careful s (.dread i n start blkcnt hpos m)) :
    Inv (blkDread m s i n start blkcnt).1 ∧ Transparent s (.dread i n start blkcnt hpos m) := by
  obtain ⟨hsmall, hcover⟩ := hc
  have hblk : blkcnt < 2 ^ u :=
    (Nat.le_mul_of_pos_left _ (s.devs i n).blksz_pos).trans_lt hsmall
  set r : Range := ⟨i, n, start, blkcnt, (s.devs i n).blksz⟩ with hr
  have hkeeps : Keeps s.cache (blkcacheRead w u s.cache r).1 fun _ ↦ False :=
    blkcacheRead_keeps h.entries h.entries_le
  have hread : Inv { s with cache := (blkcacheRead w u s.cache r).1 } :=
    h.keeps hkeeps fun _ ↦ False.elim
  unfold Transparent blkDread
  dsimp only
  rw [← hr]
  by_cases hhas : (s.devs i n).hasRead
  swap
  · simp [hhas, h]
  simp only [hhas, Bool.not_true, Bool.false_eq_true, if_false, forall_const]
  cases hfind : cacheFind w s.cache.nodes r with
  | some found =>
      obtain ⟨node, nodes⟩ := found
      obtain ⟨hcov, hmem, -, -⟩ := cacheFind_some hfind
      have hwrap : r.start + r.blkcnt < 2 ^ w :=
        hcover.resolve_right fun hnone ↦ hnone node hmem hcov
      have hdev : s.devs node.iftype node.devnum = s.devs i n := by rw [hcov.1, hcov.2.1]
      obtain ⟨hin, hinside, hbytes⟩ := (h.nodes node hmem).copy_eq hcov hwrap
      rw [hdev] at hinside hbytes
      have hdriver : (s.devs i n).read start blkcnt = (blkcnt % 2 ^ u,
          ((s.devs i n).content (s.devs i n).hwpart).slice (start * (s.devs i n).blksz)
            (blkcnt * (s.devs i n).blksz)) := if_pos hinside
      simp only [blkcacheRead, hfind] at hread ⊢
      refine ⟨hread, ⟨by rw [hdriver], fun _ ↦ by rw [hdriver]; exact hbytes⟩, ?_⟩
      rintro copy hcopy
      obtain rfl := Option.mem_some.mp hcopy
      exact hin
  | none =>
      simp only [blkcacheRead, hfind] at hkeeps hread ⊢
      by_cases hfull : ((s.devs i n).read start blkcnt).1 = blkcnt
      · simp only [hfull, if_true]
        refine ⟨?_, ⟨trivial, fun _ ↦ trivial⟩, by simp⟩
        have hinside : start + blkcnt ≤ (s.devs i n).lba (s.devs i n).hwpart := by
          by_contra hout
          rw [Device.read, if_neg hout] at hfull
          exact (s.devs i n).short_ne _ _ _ hpos hfull
        have hbuffer : ((s.devs i n).read start blkcnt).2 =
            ((s.devs i n).content (s.devs i n).hwpart).slice (start * (s.devs i n).blksz)
              (blkcnt * (s.devs i n).blksz) := by
          rw [Device.read, if_pos hinside]
        rw [hbuffer]
        exact hread.keeps (blkcacheFill_keeps (P := fun node ↦ Holds (s.devs i n) node ∧
            node.iftype = i ∧ node.devnum = n) hkeeps.entries hkeeps.entries_le hsmall hu
          fun cache ↦ ⟨holds_filled hsmall hinside, rfl, rfl⟩) (by
            rintro node ⟨hholds, rfl, rfl⟩
            exact hholds)
      · simp only [hfull, if_false]
        exact ⟨hread, ⟨trivial, fun _ ↦ trivial⟩, by simp⟩

theorem Inv.call {s : Sys w u} (h : Inv s) (hu : u ≤ w) {c : Call} (hc : Careful s c) :
    Inv (s.call c) := by
  cases c with
  | dread i n start blkcnt hpos m => exact (h.dread hu hpos m hc).1
  | dwrite i n start blkcnt buffer =>
      unfold Sys.call blkDwrite
      dsimp only
      split
      · exact h
      · exact h.invalidate i n _
  | derase i n start blkcnt =>
      unfold Sys.call blkDerase
      dsimp only
      split
      · exact h
      · exact h.invalidate i n _
  | configure blocks entries => exact h.configure blocks entries
  | selectHwpart i n hwpart =>
      unfold Sys.call blkSelectHwpart
      dsimp only
      split
      · exact h
      · rename_i select hselect
        split_ifs with hinv
        · exact h.invalidate i n _
        · rcases hc select hselect with hsame | htrue | hnone
          · exact h.setHwpart (Or.inl hsame)
          · exact absurd htrue hinv
          · exact h.setHwpart (Or.inr hnone)

/-- A range that wraps around and seems to be covered is never read as the driver reads it. -/
theorem not_transparent_of_covered {s : Sys w u} {i n : ℤ} {start blkcnt : ℕ} (hpos : 1 ≤ blkcnt)
    (m : Mallocs) (hread : (s.devs i n).hasRead = true) (hblk : blkcnt < 2 ^ u)
    (hwrap : 2 ^ w ≤ start + blkcnt) {node : BlockCacheNode} (hmem : node ∈ s.cache.nodes)
    (hcov : node.Covers w ⟨i, n, start, blkcnt, (s.devs i n).blksz⟩) :
    ¬Transparent s (.dread i n start blkcnt hpos m) := by
  have hout : ¬start + blkcnt ≤ (s.devs i n).lba (s.devs i n).hwpart :=
    Nat.not_le.mpr (((s.devs i n).lba_lt _).trans_le hwrap)
  have hfind : ∃ found, cacheFind w s.cache.nodes ⟨i, n, start, blkcnt, (s.devs i n).blksz⟩ =
      some found := by
    rw [← Option.isSome_iff_exists, cacheFind, Option.isSome_map, List.find?_isSome]
    exact ⟨node, hmem, decide_eq_true hcov⟩
  obtain ⟨found, hfind⟩ := hfind
  rintro ⟨hsame, -⟩
  have hret := (hsame hread).1
  simp only [blkDread, hread, blkcacheRead, hfind, Device.read, if_neg hout, Bool.not_true,
    Bool.false_eq_true, if_false, Nat.mod_eq_of_lt hblk] at hret
  exact (s.devs i n).short_ne _ _ _ hpos hret.symm

/-- In every run of careful calls from an empty cache, every careful read gives what the driver
gives. -/
theorem transparent_of_careful {s s' : Sys w u} {cs : List Call} (hu : u ≤ w) (h0 : s.cache = {})
    (h : Run CarefulCalls s cs s') :
    Counted s' ∧ ∀ c, Careful s' c → Transparent s' c := by
  have hinv : Inv s' := by
    refine h.invariant (fun t c t' ht hcall ↦ ?_) ⟨?_, ?_, ?_⟩
    · obtain ⟨hc, rfl⟩ := hcall
      exact ht.call hu hc
    all_goals simp [h0]
  refine ⟨⟨hinv.entries, hinv.entries_le⟩, ?_⟩
  intro c hc
  cases c with
  | dread i n start blkcnt hpos m => exact (hinv.dread hu hpos m hc).2
  | _ => trivial

/-- A device of eight blocks of one byte, whose reads of other ranges return `0`. -/
def eightBlocks : Device 64 32 where
  blksz := 1
  blksz_pos := Nat.one_pos
  lba := fun _ ↦ 8
  lba_lt := fun _ ↦ by decide
  hwpart := 0
  content := fun _ i ↦ UInt8.ofNat i
  hasRead := true
  short := fun _ _ _ ↦ 0
  short_ne := fun _ _ _ h ↦ (Nat.pos_iff_ne_zero.mp h).symm
  write := none
  erase := none
  select := none

def readEight : Call := .dread 0 0 0 8 (by decide) ⟨true, true⟩

theorem transparent_of_careful_eight :
    let s : Sys 64 32 := { devs := fun _ _ ↦ eightBlocks }
    Transparent (s.call readEight) (.dread 0 0 2 3 (by decide) ⟨true, true⟩) := by
  intro s
  have hsmall (start blkcnt : ℕ) (hs : start + blkcnt < 2 ^ 64) (hb : 1 * blkcnt < 2 ^ 32)
    (t : Sys 64 32)
      (hpos : 1 ≤ blkcnt) (m : Mallocs) (ht : (t.devs 0 0).blksz = 1) :
      Careful t (.dread 0 0 start blkcnt hpos m) := by
    refine ⟨?_, Or.inl hs⟩
    rwa [ht]
  exact (transparent_of_careful (by decide) rfl
    (Run.cons ⟨hsmall 0 8 (by decide) (by decide) s _ _ rfl, rfl⟩ (Run.nil (s.call readEight)))).2 _
      (hsmall 2 3 (by decide) (by decide) _ _ _ rfl)

/-- Four blocks from the last but one block number on: the driver fails, and the code finds them in
the node of the blocks `0` to `7`. -/
theorem not_transparent_wrapped :
    ¬∀ (s s' : Sys 64 32) (cs : List Call), s.cache = {} → Run Calls s cs s' →
      Counted s' ∧ ∀ c, Transparent s' c := by
  intro h
  have hread := (h { devs := fun _ _ ↦ eightBlocks } _ [readEight] rfl (.cons rfl (.nil _))).2
    (.dread 0 0 (2 ^ 64 - 2) 4 (by decide) ⟨true, true⟩)
  have hret := (hread.1 rfl).1
  exact absurd hret (by decide +kernel)

end MiniPi.Blkcache
