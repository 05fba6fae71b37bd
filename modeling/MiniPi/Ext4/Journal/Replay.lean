import MiniPi.Ext4.Journal.Recover
import Mathlib

/-!
# The two passes

A pass over the log is a walk over its committed transactions and over the incomplete one behind
them.  The first pass collects the revoke blocks, and the second one writes the copies that they let
through.
-/

namespace MiniPi.Ext4.Journal

open Lib

variable {geo : Geometry} {log : ℕ → List UInt8} {sequence fuel p first n b : ℕ} {recover : Bool}
  {l : Loop} {disk : Disk} {ts : List Logged} {tx : Transaction} {txs : List Transaction}
    {s : State}

/-! ## The copies of one transaction -/

/-- The blocks of a list of tags are written one after the other, except those to skip. -/
def writeTags (skip : ℕ → Bool) : List Logged → Disk → Disk
  | [], disk => disk
  | t :: ts, disk => writeTags skip ts (if skip t.block then disk else putExt4 disk t.block t.data)

theorem writeTags_other (skip : ℕ → Bool) (hb : ∀ t ∈ ts, t.block ≠ b) :
    writeTags skip ts disk b = disk b := by
  induction ts generalizing disk with
  | nil => rfl
  | cons t ts ih =>
      obtain ⟨ht, hts⟩ := List.forall_mem_cons.mp hb
      rw [writeTags, ih hts]
      split
      · rfl
      · rw [putExt4, if_neg ht.symm]

theorem writeTags_apply (skip : ℕ → Bool) : writeTags skip ts disk b =
    if skip b then disk b else ((lastTag b ts).map Logged.data).getD (disk b) := by
  induction ts generalizing disk with
  | nil => exact (ite_self _).symm
  | cons t ts ih =>
      rw [writeTags, ih, lastTag]
      by_cases hb : t.block = b
      · subst hb
        by_cases hskip : skip t.block = true
        · rw [if_pos hskip, if_pos hskip, if_pos hskip]
        · rw [if_neg hskip, if_neg hskip, if_neg hskip, if_pos rfl, putExt4, if_pos rfl]
          cases lastTag t.block ts <;> rfl
      · have hsame : (if skip t.block then disk else putExt4 disk t.block t.data) b = disk b := by
          split
          · rfl
          · rw [putExt4, if_neg (Ne.symm hb)]
        rw [hsame, if_neg hb, Option.or_none]

/-- The first `n` blocks of the log are on the disk. -/
def Reads (geo : Geometry) (first n : ℕ) (log : ℕ → List UInt8) (disk : Disk) : Prop :=
  ∀ q < n, disk (geo.journal (first + q)) = log q

/-- The tags name none of these blocks. -/
def Outside (geo : Geometry) (first n : ℕ) (ts : List Logged) : Prop :=
  ∀ t ∈ ts, ∀ q < n, geo.journal (first + q) ≠ t.block

theorem Reads.writeTags (hread : Reads geo first n log disk) (skip : ℕ → Bool)
    (hout : Outside geo first n ts) : Reads geo first n log (writeTags skip ts disk) := by
  intro q hq
  rw [writeTags_other skip fun t ht ↦ (hout t ht q hq).symm]
  exact hread q hq

/-- The code writes the blocks behind the descriptor block, and these are the data blocks. -/
theorem replayTags_eq (revk : List (List UInt8)) (number q : ℕ) (hread : Reads geo first n log disk)
    (hout : Outside geo first n ts) (hdata : ∀ k t, ts[k]? = some t → log (q + 1 + k) = t.data)
    (hn : q + ts.length < n) :
    replayTags geo revk number (ts.map Logged.toTag) (first + q) disk =
      writeTags (fun b ↦ checkBlknrForRevoke revk b number) ts disk := by
  induction ts generalizing q disk with
  | nil => rfl
  | cons t ts ih =>
      obtain ⟨ht, hts⟩ := List.forall_mem_cons.mp hout
      rw [List.length_cons] at hn
      have hblock : disk (geo.journal (first + q + 1)) = t.data := by
        rw [Nat.add_assoc, hread (q + 1) (by omega)]
        exact hdata 0 t rfl
      have hone : Outside geo first n [t] := List.forall_mem_singleton.mpr ht
      have hread' := hread.writeTags (fun b ↦ checkBlknrForRevoke revk b number) hone
      rw [List.map_cons, replayTags, hblock]
      refine ih (q + 1) hread' hts ?_ (by omega)
      intro k u hu
      rw [← hdata (k + 1) u hu]
      congr 1
      omega

theorem recoverTransaction_eq {q : ℕ} (hread : Reads geo first n log s.disk)
    (hdesc : IsDescriptor geo.blksz sequence ts (log q)) (hout : Outside geo first n ts)
    (hdata : ∀ k t, ts[k]? = some t → log (q + 1 + k) = t.data) (hn : q + ts.length < n) :
    recoverTransaction geo s (first + q) = { s with
      disk := writeTags (fun b ↦ checkBlknrForRevoke s.revkBlkList b (sequence % 2 ^ 32)) ts
        s.disk } := by
  rw [recoverTransaction, hread q (by omega), hdesc.tags_eq, hdesc.header.2,
    replayTags_eq s.revkBlkList (sequence % 2 ^ 32) q hread hout hdata hn]

/-! ## One committed transaction -/

/-- The loop is at position `p`, between two transactions. -/
structure Between (first sequence p : ℕ) (l : Loop) : Prop where
  sequence : l.sequence = sequence % 2 ^ 32
  i : l.i = first + p
  running : l.transactionRunning = false
  found : l.dbFound = false

/-- The state behind a committed transaction. -/
def State.commit (recover : Bool) (log : ℕ → List UInt8) (sequence p : ℕ) (tx : Transaction)
    (s : State) :
    State :=
  if recover then { s with
    disk := writeTags (fun b ↦ checkBlknrForRevoke s.revkBlkList b (sequence % 2 ^ 32))
      tx.tags s.disk }
  else { s with revkBlkList := s.revkBlkList ++ revokeHeads log p tx }

theorem journalLoop_commit (hcommit : IsCommit sequence (log p))
    (hseq : l.sequence = sequence % 2 ^ 32) (hread : l.state.disk (geo.journal l.i) = log p)
    (hmode : l.transactionRunning = l.dbFound) :
    journalLoop geo recover (fuel + 1) l = journalLoop geo recover fuel
      { i := l.i + 1
        prevDescLogicalNo := l.currDescLogicalNo
        currDescLogicalNo := l.currDescLogicalNo
        sequence := (l.sequence + 1) % 2 ^ 32
        state := if recover && l.dbFound then recoverTransaction geo l.state l.currDescLogicalNo
          else l.state } := by
  obtain ⟨htype, hnumber⟩ := hcommit.header
  rw [journalLoop]
  dsimp only
  rw [hread, htype, if_neg (by decide), if_pos rfl, hnumber, if_neg (not_not.mpr hseq.symm)]
  obtain ⟨i, running, found, prev, curr, number, s⟩ := l
  obtain rfl : running = found := hmode
  cases running <;> cases recover <;> rfl

/-- The loop walks over a committed transaction. -/
theorem journalLoop_transaction (recover : Bool)
    (hheads : HeadsAt geo.blksz sequence log p tx) (hdata : DataAt log p tx)
    (hcommit : IsCommit sequence (log (p + tx.size))) (hone : tx.descriptors ≤ 1)
    (hout : Outside geo first n tx.tags) (hn : p + tx.size < n) (hl : Between first sequence p l)
    (hread : Reads geo first n log l.state.disk) :
    ∃ l', (∀ fuel, journalLoop geo recover (fuel + 1 + List.length tx) l =
      journalLoop geo recover fuel l') ∧
      Between first (sequence + 1) (p + tx.size + 1) l' ∧
      l'.state = l.state.commit recover log sequence p tx := by
  obtain ⟨hi, hseq, hstate⟩ := records_passed recover log tx p l
  have hdisk : (l.records recover log p tx).state.disk = l.state.disk := by rw [hstate]
  have hwalk (fuel : ℕ) : journalLoop geo recover (fuel + 1 + List.length tx) l =
      journalLoop geo recover (fuel + 1) (l.records recover log p tx) := by
    refine journalLoop_records hheads hl.sequence hl.i ?_ ?_
    · intro q _ hq
      exact hread q (by omega)
    · rw [hl.running]
      exact hone
  have hmode : (l.records recover log p tx).transactionRunning =
    (l.records recover log p tx).dbFound ∧
      (if recover && (l.records recover log p tx).dbFound then recoverTransaction geo
        (l.records recover log p tx).state (l.records recover log p tx).currDescLogicalNo
        else (l.records recover log p tx).state) = l.state.commit recover log sequence p tx := by
    rcases Nat.le_one_iff_eq_zero_or_eq_one.mp hone with hnone | hone
    · obtain ⟨htags, hrun, hfound, -⟩ := records_of_none recover log hnone l p
      rw [hrun, hfound, hl.running, hl.found, hstate, State.commit, htags]
      refine ⟨rfl, ?_⟩
      cases recover <;> rfl
    · obtain ⟨hrun, hfound, q, hcurr, hpq, hq, hdesc, hall⟩ :=
        records_of_one hone hheads hdata l hl.i
      rw [hrun, hfound, hcurr]
      refine ⟨rfl, ?_⟩
      cases recover with
      | false => exact hstate
      | true =>
          refine (recoverTransaction_eq (hdisk ▸ hread) hdesc hout hall (by omega)).trans ?_
          rw [hstate]
          rfl
  refine ⟨_, fun fuel ↦ (hwalk fuel).trans (journalLoop_commit hcommit ?_ ?_ hmode.1), ?_, hmode.2⟩
  · rw [hseq, hl.sequence]
  · rw [hdisk, hi, hl.i, Nat.add_assoc]
    exact hread _ hn
  · refine ⟨?_, ?_, rfl, rfl⟩
    · change ((l.records recover log p tx).sequence + 1) % 2 ^ 32 = _
      rw [hseq, hl.sequence, Nat.mod_add_mod]
    · change (l.records recover log p tx).i + 1 = _
      rw [hi, hl.i]
      omega

/-! ## The whole log -/

/-- The state behind committed transactions. -/
def State.commits (recover : Bool) (log : ℕ → List UInt8) : ℕ → ℕ → List Transaction → State → State
  | _, _, [], s => s
  | sequence, p, tx :: txs, s =>
      State.commits recover log (sequence + 1) (p + tx.size + 1) txs
        (s.commit recover log sequence p tx)

/-- The number of rounds for committed transactions. -/
def rounds (txs : List Transaction) : ℕ := (txs.map fun tx ↦ 1 + List.length tx).sum

theorem committedSize_cons (tx : Transaction) (txs : List Transaction) :
    committedSize (tx :: txs) = tx.size + 1 + committedSize txs := by
  rw [committedSize, List.map_cons, List.sum_cons]
  rfl

theorem Reads.commit (hread : Reads geo first n log s.disk) (hout : Outside geo first n tx.tags) :
    Reads geo first n log (s.commit recover log sequence p tx).disk := by
  cases recover with
  | false => exact hread
  | true => exact hread.writeTags _ hout

/-- The loop walks over the committed transactions. -/
theorem journalLoop_committed (recover : Bool) (fuel : ℕ)
    (hcommitted : CommittedAt geo.blksz log sequence p txs)
    (hone : ∀ tx ∈ txs, Transaction.descriptors tx ≤ 1)
    (hout : ∀ tx ∈ txs, Outside geo first n (Transaction.tags tx)) (hn : p + committedSize txs ≤ n)
    (hl : Between first sequence p l) (hread : Reads geo first n log l.state.disk) :
    ∃ l', journalLoop geo recover (fuel + rounds txs) l = journalLoop geo recover fuel l' ∧
      Between first (sequence + txs.length) (p + committedSize txs) l' ∧
      l'.state = l.state.commits recover log sequence p txs ∧
      Reads geo first n log l'.state.disk := by
  induction txs generalizing sequence p l with
  | nil => exact ⟨l, rfl, hl, rfl, hread⟩
  | cons tx txs ih =>
      obtain ⟨hheads, hdata, hcommit, hrest⟩ := hcommitted
      obtain ⟨hone, hones⟩ := List.forall_mem_cons.mp hone
      obtain ⟨hout, houts⟩ := List.forall_mem_cons.mp hout
      rw [committedSize_cons] at hn
      obtain ⟨l₁, hstep, hl₁, hs₁⟩ := journalLoop_transaction recover
        hheads hdata hcommit hone hout (by omega) hl hread
      have hread₁ : Reads geo first n log l₁.state.disk := by
        rw [hs₁]
        exact hread.commit hout
      obtain ⟨l₂, hsteps, hl₂, hs₂, hread₂⟩ := ih hrest hones houts (by omega) hl₁ hread₁
      refine ⟨l₂, ?_, ?_, ?_, hread₂⟩
      · have hrounds : fuel + rounds (tx :: txs) = fuel + rounds txs + 1 + List.length tx := by
          rw [rounds, List.map_cons, List.sum_cons, ← rounds]
          omega
        rw [hrounds, hstep (fuel + rounds txs), hsteps]
      · rw [committedSize_cons, List.length_cons]
        have hnumber : sequence + (txs.length + 1) = sequence + 1 + txs.length := by omega
        have hposition : p + (tx.size + 1 + committedSize txs) = p + tx.size + 1 +
            committedSize txs := by
          omega
        rw [hnumber, hposition]
        exact hl₂
      · rw [hs₂, hs₁]
        rfl

/-- The loop ends at a block with another sequence number. -/
theorem journalLoop_end (fuel : ℕ)
    (hnumber : be32At (l.state.disk (geo.journal l.i)) 8 ≠ l.sequence) :
    journalLoop geo recover (fuel + 1) l = some (.done l.sequence l.state) := by
  rw [journalLoop]
  dsimp only
  rw [if_pos hnumber, if_pos hnumber, if_pos hnumber, if_pos hnumber, ite_self, ite_self, ite_self]

/-- The state behind the incomplete transaction. -/
def State.passed (recover : Bool) (log : ℕ → List UInt8) (p : ℕ) (tx : Transaction) (s : State) :
    State :=
  { s with revkBlkList := if recover then s.revkBlkList else s.revkBlkList ++ revokeHeads log p tx }

/-- The loop walks over the log, up to a block behind it. -/
theorem journalLoop_log (recover : Bool) {tail : Transaction}
    (hcommitted : CommittedAt geo.blksz log sequence p txs)
    (htail : HeadsAt geo.blksz (sequence + txs.length) log (p + committedSize txs) tail)
    (hone : ∀ tx ∈ txs, Transaction.descriptors tx ≤ 1) (htailOne : tail.descriptors ≤ 1)
    (hout : ∀ tx ∈ txs, Outside geo first n (Transaction.tags tx))
    (hn : p + committedSize txs + tail.size < n) (hl : Between first sequence p l)
    (hread : Reads geo first n log l.state.disk)
    (hend : be32At (log (p + committedSize txs + tail.size)) 8 ≠ (sequence + txs.length) % 2 ^ 32) :
    journalLoop geo recover (1 + List.length tail + rounds txs) l =
      some (.done ((sequence + txs.length) % 2 ^ 32)
        ((l.state.commits recover log sequence p txs).passed recover log
          (p + committedSize txs) tail)) := by
  obtain ⟨l', hwalk, hl', hs', hread'⟩ := journalLoop_committed recover
    (1 + List.length tail) hcommitted hone hout (by omega) hl hread
  obtain ⟨hi, hseq, hstate⟩ := records_passed recover log tail (p + committedSize txs) l'
  have htailWalk : journalLoop geo recover (1 + List.length tail) l' =
      journalLoop geo recover 1 (l'.records recover log (p + committedSize txs) tail) := by
    refine journalLoop_records htail hl'.sequence hl'.i ?_ ?_
    · intro q _ hq
      exact hread' q (by omega)
    · rw [hl'.running]
      exact htailOne
  rw [hwalk, htailWalk, journalLoop_end, hseq, hl'.sequence, hstate, hs']
  · rfl
  · rw [hi, hseq, hl'.sequence, hl'.i, hstate, Nat.add_assoc, hread' _ hn]
    exact hend

/-! ## Transactions with a second descriptor block -/

theorem journalLoop_mono {o : LoopEnd} (n : ℕ) (h : journalLoop geo recover fuel l = some o) :
    journalLoop geo recover (fuel + n) l = some o := by
  induction fuel generalizing l with
  | zero => cases h
  | succ fuel ih =>
      rw [Nat.succ_add]
      rw [journalLoop] at h ⊢
      dsimp only at h ⊢
      split_ifs at h ⊢ <;> first | exact h | exact ih h

/-- The loop fails at the second descriptor block of a transaction. -/
theorem journalLoop_second (hheads : HeadsAt geo.blksz sequence log p tx)
    (hseq : l.sequence = sequence % 2 ^ 32) (hi : l.i = first + p)
    (hread : ∀ q, p ≤ q → q < p + tx.size → l.state.disk (geo.journal (first + q)) = log q)
    (hmany : 1 < tx.descriptors + if l.transactionRunning then 1 else 0) :
    ∃ s, journalLoop geo recover (List.length tx) l = some (.failed s) := by
  induction tx generalizing p l with
  | nil =>
      change 1 < 0 + _ at hmany
      split_ifs at hmany
      · exact absurd hmany (lt_irrefl 1)
      · exact absurd hmany (Nat.not_lt_zero 1)
  | cons r tx ih =>
      obtain ⟨hhead, hrest⟩ := hheads
      rw [descriptors_cons] at hmany
      have hpos := size_pos r
      have hblock : l.state.disk (geo.journal l.i) = log p := by
        rw [hi]
        refine hread p le_rfl ?_
        rw [size_cons]
        omega
      by_cases hsecond : r.isDescriptor = true ∧ l.transactionRunning = true
      · obtain ⟨hdesc, hrun⟩ := hsecond
        cases r with
        | descriptor tags =>
            have hd : IsDescriptor geo.blksz sequence tags (log p) := hhead
            refine ⟨l.state, ?_⟩
            rw [List.length_cons, journalLoop]
            dsimp only
            rw [hblock, if_pos hd.header.1, hd.header.2, if_neg (not_not.mpr hseq.symm),
              if_pos hrun]
        | revoke blocks => cases hdesc
      · have hrun (hdesc : r.isDescriptor = true) : l.transactionRunning = false :=
          Bool.eq_false_iff.mpr fun h ↦ hsecond ⟨hdesc, h⟩
        rw [List.length_cons, journalLoop_record hhead hseq hblock hrun]
        refine ih hrest ?_ ?_ ?_ ?_
        · rw [record_sequence, hseq]
        · rw [record_i, hi, Nat.add_assoc]
        · intro q hq hqlt
          rw [record_disk]
          refine hread q (by omega) ?_
          rw [size_cons]
          omega
        · rw [record_running]
          cases hdesc : r.isDescriptor with
          | false => simpa [hdesc] using hmany
          | true =>
              rw [hrun hdesc, if_pos hdesc] at hmany
              rw [Bool.true_or, if_pos rfl]
              exact hmany

/-- The loop fails on a log in which some transaction has a second descriptor block. -/
theorem journalLoop_refused (recover : Bool) {tail : Transaction}
    (hcommitted : CommittedAt geo.blksz log sequence p txs)
    (htail : HeadsAt geo.blksz (sequence + txs.length) log (p + committedSize txs) tail)
    (hout : ∀ tx ∈ txs, Outside geo first n (Transaction.tags tx))
    (hn : p + committedSize txs + tail.size ≤ n) (hl : Between first sequence p l)
    (hread : Reads geo first n log l.state.disk)
    (hmany : (∃ tx ∈ txs, 1 < Transaction.descriptors tx) ∨ 1 < tail.descriptors) :
    ∃ fuel s, journalLoop geo recover fuel l = some (.failed s) := by
  induction txs generalizing sequence p l with
  | nil =>
      have htailMany : 1 < tail.descriptors + if l.transactionRunning then 1 else 0 :=
        Nat.lt_add_right _ (hmany.resolve_left fun ⟨_, hmem, _⟩ ↦ absurd hmem List.not_mem_nil)
      refine ⟨_, journalLoop_second htail hl.sequence hl.i ?_ htailMany⟩
      intro q _ hq
      exact hread q (by omega)
  | cons tx txs ih =>
      obtain ⟨hheads, hdata, hcommit, hrest⟩ := hcommitted
      obtain ⟨hout, houts⟩ := List.forall_mem_cons.mp hout
      rw [committedSize_cons] at hn htail
      by_cases hone : tx.descriptors ≤ 1
      · have hlater : (∃ u ∈ txs, 1 < Transaction.descriptors u) ∨ 1 < tail.descriptors := by
          refine hmany.imp_left fun hex ↦ ?_
          exact ((List.exists_mem_cons_iff _ tx txs).mp hex).resolve_left (Nat.not_lt.mpr hone)
        have hnumber : sequence + (tx :: txs).length = sequence + 1 + txs.length := by
          rw [List.length_cons]
          omega
        have hposition : p + (tx.size + 1 + committedSize txs) = p + tx.size + 1 +
            committedSize txs := by
          omega
        rw [hnumber, hposition] at htail
        obtain ⟨l', hstep, hl', hs'⟩ :=
          journalLoop_transaction recover hheads hdata hcommit hone hout (by omega) hl hread
        have hread' : Reads geo first n log l'.state.disk := by
          rw [hs']
          exact hread.commit hout
        obtain ⟨fuel, s, hfail⟩ := ih hrest htail houts (by omega) hl' hread' hlater
        exact ⟨fuel + 1 + List.length tx, s, (hstep fuel).trans hfail⟩
      · have htxMany : 1 < tx.descriptors + if l.transactionRunning then 1 else 0 :=
          Nat.lt_add_right _ (Nat.not_le.mp hone)
        refine ⟨_, journalLoop_second hheads hl.sequence hl.i ?_ htxMany⟩
        intro q _ hq
        exact hread q (by omega)

/-! ## The first pass -/

/-- The revoke blocks of committed transactions. -/
def committedHeads (log : ℕ → List UInt8) : ℕ → List Transaction → List (List UInt8)
  | _, [] => []
  | p, tx :: txs => revokeHeads log p tx ++ committedHeads log (p + tx.size + 1) txs

theorem commits_scan (log : ℕ → List UInt8) (sequence p : ℕ) (txs : List Transaction) (s : State) :
    s.commits false log sequence p txs = { s with
      revkBlkList := s.revkBlkList ++ committedHeads log p txs } := by
  induction txs generalizing sequence p s with
  | nil => rw [State.commits, committedHeads, List.append_nil]
  | cons tx txs ih =>
      rw [State.commits, ih, committedHeads, ← List.append_assoc]
      rfl

theorem checkBlknrForRevoke_append (r₁ r₂ : List (List UInt8)) (b number : ℕ) :
    checkBlknrForRevoke (r₁ ++ r₂) b number =
      (checkBlknrForRevoke r₁ b number || checkBlknrForRevoke r₂ b number) := List.any_append

/-- The revoke blocks of a transaction say what its revoke records do, for earlier numbers. -/
theorem checkBlknrForRevoke_heads (hsize : geo.blksz ≤ 2 ^ 16)
    (hheads : HeadsAt geo.blksz sequence log p tx) (b number : ℕ) :
    checkBlknrForRevoke (revokeHeads log p tx) b number = true ↔
      number < sequence % 2 ^ 32 ∧ b ∈ tx.revokes := by
  induction tx generalizing p with
  | nil => exact ⟨fun h ↦ absurd h Bool.false_ne_true, fun h ↦ absurd h.2 List.not_mem_nil⟩
  | cons r tx ih =>
      obtain ⟨hhead, hrest⟩ := hheads
      cases r with
      | descriptor tags => exact ih hrest
      | revoke blocks =>
          have hr : IsRevoke geo.blksz sequence blocks (log p) := hhead
          have hone : checkBlknrForRevoke [log p] b number = true ↔
              number < sequence % 2 ^ 32 ∧ b ∈ blocks := by
            rw [checkBlknrForRevoke, List.any_cons, List.any_nil, Bool.or_false, hr.header.2,
              hr.blocks_eq hsize, Bool.and_eq_true, decide_eq_true_iff, List.contains_iff_mem]
          have hmem : b ∈ Transaction.revokes (.revoke blocks :: tx) ↔
              b ∈ blocks ∨ b ∈ Transaction.revokes tx := List.mem_append
          have hsplit := checkBlknrForRevoke_append [log p] (revokeHeads log (p + 1) tx) b number
          rw [revokeHeads]
          change checkBlknrForRevoke ([log p] ++ revokeHeads log (p + 1) tx) b number = true ↔ _
          have htail : HeadsAt geo.blksz sequence log (p + 1) tx := hrest
          rw [hsplit, Bool.or_eq_true, hone, ih htail, hmem, and_or_left]

/-- The check finds the revoke records of transactions with greater numbers. -/
theorem checkBlknrForRevoke_committed (hsize : geo.blksz ≤ 2 ^ 16)
    (hcommitted : CommittedAt geo.blksz log sequence p txs) (b number : ℕ) :
    checkBlknrForRevoke (committedHeads log p txs) b number = true ↔
      ∃ m u, txs[m]? = some u ∧ number < (sequence + m) % 2 ^ 32 ∧ b ∈ Transaction.revokes u := by
  induction txs generalizing sequence p with
  | nil => exact ⟨fun h ↦ absurd h Bool.false_ne_true, by rintro ⟨m, u, ⟨⟩, -⟩⟩
  | cons tx txs ih =>
      obtain ⟨hheads, -, -, hrest⟩ := hcommitted
      have hshift (m : ℕ) : sequence + 1 + m = sequence + (m + 1) := by omega
      rw [committedHeads, checkBlknrForRevoke_append, Bool.or_eq_true,
        checkBlknrForRevoke_heads hsize hheads, ih hrest]
      constructor
      · rintro (⟨hnumber, hb⟩ | ⟨m, u, hu, hnumber, hb⟩)
        · exact ⟨0, tx, rfl, hnumber, hb⟩
        · exact ⟨m + 1, u, hu, hshift m ▸ hnumber, hb⟩
      · rintro ⟨m, u, hu, hnumber, hb⟩
        cases m with
        | zero =>
            obtain rfl : tx = u := Option.some.inj hu
            exact Or.inl ⟨hnumber, hb⟩
        | succ m => exact Or.inr ⟨m, u, hu, (hshift m).symm ▸ hnumber, hb⟩

/-! ## The second pass -/

/-- The copies of the committed transactions, with the check of the code. -/
def writeAll (revk : List (List UInt8)) : ℕ → List Transaction → Disk → Disk
  | _, [], disk => disk
  | sequence, tx :: txs, disk => writeAll revk (sequence + 1) txs
      (writeTags (fun b ↦ checkBlknrForRevoke revk b (sequence % 2 ^ 32)) tx.tags disk)

theorem commits_recover (log : ℕ → List UInt8) (sequence p : ℕ) (txs : List Transaction)
    (s : State) :
    s.commits true log sequence p txs = { s with
      disk := writeAll s.revkBlkList sequence txs s.disk } := by
  induction txs generalizing sequence p s with
  | nil => rfl
  | cons tx txs ih =>
      rw [State.commits, ih]
      rfl

/-- Some tag of the transactions names the block. -/
def Logs (txs : List Transaction) (b : ℕ) : Prop :=
  ∃ tx ∈ txs, ∃ t ∈ Transaction.tags tx, t.block = b

theorem lastTag_none (hb : ∀ t ∈ ts, t.block ≠ b) : lastTag b ts = none := by
  induction ts with
  | nil => rfl
  | cons t ts ih =>
      obtain ⟨ht, hts⟩ := List.forall_mem_cons.mp hb
      rw [lastTag, ih hts, if_neg ht]
      rfl

theorem lastTag_isSome {t : Logged} (ht : t ∈ ts) (hb : t.block = b) :
    (lastTag b ts).isSome = true := by
  induction ts with
  | nil => exact absurd ht List.not_mem_nil
  | cons u ts ih =>
      rw [lastTag, Option.isSome_or]
      rcases List.mem_cons.mp ht with rfl | hmem
      · rw [if_pos hb]
        exact Bool.or_true _
      · rw [ih hmem]
        rfl

theorem mem_of_lastTag {t : Logged} (h : lastTag b ts = some t) : t ∈ ts := by
  induction ts with
  | nil => cases h
  | cons u ts ih =>
      rw [lastTag, Option.or_eq_some_iff] at h
      rcases h with h | ⟨-, h⟩
      · exact List.mem_cons_of_mem u (ih h)
      · obtain ⟨-, hu⟩ := Option.ite_none_right_eq_some.mp h
        obtain rfl := Option.some.inj hu
        exact List.mem_cons_self

theorem mem_of_latest {t : Logged} (h : latest b txs = some t) :
    ∃ tx ∈ txs, t ∈ Transaction.tags tx := by
  induction txs with
  | nil => cases h
  | cons tx txs ih =>
      rw [latest, Option.or_eq_some_iff] at h
      rcases h with h | ⟨-, h⟩
      · obtain ⟨u, hu, ht⟩ := ih h
        exact ⟨u, List.mem_cons_of_mem tx hu, ht⟩
      · obtain ⟨-, hlast⟩ := Option.ite_none_left_eq_some.mp h
        exact ⟨tx, List.mem_cons_self, mem_of_lastTag hlast⟩

/-- A block that is logged and not revoked has a latest copy. -/
theorem latest_isSome (hlogs : Logs txs b) (hrevoked : ¬Revoked txs b) :
    (latest b txs).isSome = true := by
  induction txs with
  | nil =>
      obtain ⟨_, hmem, _⟩ := hlogs
      exact absurd hmem List.not_mem_nil
  | cons tx txs ih =>
      have hrest : ¬Revoked txs b :=
        fun ⟨u, hu, hbu⟩ ↦ hrevoked ⟨u, List.mem_cons_of_mem tx hu, hbu⟩
      rw [latest, if_neg hrevoked, Option.isSome_or]
      rcases (List.exists_mem_cons_iff _ tx txs).mp hlogs with ⟨t, ht, hb⟩ | hlater
      · rw [lastTag_isSome ht hb]
        exact Bool.or_true _
      · rw [ih hlater hrest]
        rfl

/-- The second pass leaves the data of the latest tags, if the check finds what cancels a copy, or
if there is a later one. -/
theorem writeAll_apply (revk : List (List UInt8))
    (hcheck : ∀ k tx, txs[k]? = some tx → ∀ t ∈ Transaction.tags tx, t.block = b →
      (Logs (txs.drop (k + 1)) b ∧ ¬Revoked (txs.drop (k + 1)) b) ∨
        (checkBlknrForRevoke revk b ((sequence + k) % 2 ^ 32) = true ↔ Revoked (txs.drop k) b)) :
    writeAll revk sequence txs disk b = ((latest b txs).map Logged.data).getD (disk b) := by
  induction txs generalizing sequence disk with
  | nil => rfl
  | cons tx txs ih =>
      have hrest : ∀ k u, txs[k]? = some u → ∀ t ∈ Transaction.tags u, t.block = b →
          (Logs (txs.drop (k + 1)) b ∧ ¬Revoked (txs.drop (k + 1)) b) ∨
            (checkBlknrForRevoke revk b ((sequence + 1 + k) % 2 ^ 32) = true ↔
              Revoked (txs.drop k) b) := by
        intro k u hu t ht hb
        have hnext := hcheck (k + 1) u hu t ht hb
        rwa [List.drop_succ_cons, List.drop_succ_cons, Nat.add_comm k 1, ← Nat.add_assoc,
          Nat.add_comm 1 k] at hnext
      rw [writeAll, ih hrest, latest]
      by_cases hlogged : ∃ t ∈ tx.tags, t.block = b
      · obtain ⟨t, ht, hb⟩ := hlogged
        rcases hcheck 0 tx rfl t ht hb with ⟨hlogs, hlater⟩ | hnow
        · obtain ⟨u, hu⟩ := Option.isSome_iff_exists.mp (latest_isSome hlogs hlater)
          rw [List.drop_succ_cons, List.drop_zero] at hu
          rw [hu]
          rfl
        · rw [Nat.add_zero, List.drop_zero] at hnow
          rw [writeTags_apply]
          by_cases hrevoked : Revoked (tx :: txs) b
          · rw [if_pos (hnow.mpr hrevoked), if_pos hrevoked, Option.or_none]
          · rw [if_neg (mt hnow.mp hrevoked), if_neg hrevoked]
            cases latest b txs <;> rfl
      · have hother : ∀ t ∈ tx.tags, t.block ≠ b := fun t ht hb ↦ hlogged ⟨t, ht, hb⟩
        rw [writeTags_other _ hother, lastTag_none hother, ite_self, Option.or_none]

end MiniPi.Ext4.Journal
