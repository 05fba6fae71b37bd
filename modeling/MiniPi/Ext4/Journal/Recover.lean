import MiniPi.Ext4.Journal.Log
import Mathlib

/-!
# What recovery leaves

Both passes walk the same log, and agree on where a transaction ends as long as it has one
descriptor block at most.  The first pass collects the revoke blocks, and the second one writes the
copies that no later transaction revokes.
-/

namespace MiniPi.Ext4.Journal

open Lib

/-! ## Transactions -/

/-- The number of blocks of a record. -/
def Record.size : Record → ℕ
  | .descriptor tags => tags.length + 1
  | .revoke _ => 1

def Record.tags : Record → List Logged
  | .descriptor tags => tags
  | .revoke _ => []

def Record.revokes : Record → List ℕ
  | .descriptor _ => []
  | .revoke blocks => blocks

/-- The records of a transaction, without its commit block. -/
abbrev Transaction := List Record

def Transaction.size (tx : Transaction) : ℕ := (tx.map Record.size).sum

def Transaction.tags (tx : Transaction) : List Logged := tx.flatMap Record.tags

def Transaction.revokes (tx : Transaction) : List ℕ := tx.flatMap Record.revokes

/-- The first block of a record is at position `p`. -/
def Record.HeadAt (blksz sequence : ℕ) (log : ℕ → List UInt8) (p : ℕ) : Record → Prop
  | .descriptor tags => IsDescriptor blksz sequence tags (log p)
  | .revoke blocks => IsRevoke blksz sequence blocks (log p)

/-- The data blocks of a record are behind position `p`. -/
def Record.DataAt (log : ℕ → List UInt8) (p : ℕ) : Record → Prop
  | .descriptor tags => ∀ k t, tags[k]? = some t → log (p + 1 + k) = t.data
  | .revoke _ => True

def HeadsAt (blksz sequence : ℕ) (log : ℕ → List UInt8) : ℕ → Transaction → Prop
  | _, [] => True
  | p, r :: tx => r.HeadAt blksz sequence log p ∧ HeadsAt blksz sequence log (p + r.size) tx

def DataAt (log : ℕ → List UInt8) : ℕ → Transaction → Prop
  | _, [] => True
  | p, r :: tx => r.DataAt log p ∧ DataAt log (p + r.size) tx

/-- The committed transactions are in the log from position `p` on. -/
def CommittedAt (blksz : ℕ) (log : ℕ → List UInt8) : ℕ → ℕ → List Transaction → Prop
  | _, _, [] => True
  | sequence, p, tx :: txs =>
      HeadsAt blksz sequence log p tx ∧ DataAt log p tx ∧ IsCommit sequence (log (p + tx.size)) ∧
        CommittedAt blksz log (sequence + 1) (p + tx.size + 1) txs

/-- The number of blocks of committed transactions. -/
def committedSize (txs : List Transaction) : ℕ := (txs.map fun tx ↦ Transaction.size tx + 1).sum

/-! ## What recovery should leave -/

/-- The last tag of a list that names a block. -/
def lastTag (b : ℕ) : List Logged → Option Logged
  | [] => none
  | t :: ts => (lastTag b ts).or (if t.block = b then some t else none)

/-- Some of the transactions revokes the block. -/
def Revoked (txs : List Transaction) (b : ℕ) : Prop := ∃ tx ∈ txs, b ∈ Transaction.revokes tx

instance (txs : List Transaction) (b : ℕ) : Decidable (Revoked txs b) :=
  inferInstanceAs (Decidable (∃ tx ∈ txs, _))

/-- The latest tag for a block that no revoke record of the same or a later transaction cancels. -/
def latest (b : ℕ) : List Transaction → Option Logged
  | [] => none
  | tx :: txs => (latest b txs).or
      (if Revoked (tx :: txs) b then none else lastTag b (Transaction.tags tx))

/-! ## The walk over a transaction -/

variable {geo : Geometry} {log : ℕ → List UInt8} {sequence fuel p first : ℕ} {recover : Bool}
  {l : Loop}

/-- The loop behind a record whose first block is `block`. -/
def Loop.record (recover : Bool) (block : List UInt8) (l : Loop) : Record → Loop
  | .descriptor tags =>
      { l with
        currDescLogicalNo := l.i, transactionRunning := true, i := l.i + tags.length + 1
        dbFound := true }
  | .revoke _ =>
      { l with
        state := if recover then l.state
          else { l.state with revkBlkList := l.state.revkBlkList ++ [block] }
        i := l.i + 1 }

def Loop.records (recover : Bool) (log : ℕ → List UInt8) : ℕ → Loop → Transaction → Loop
  | _, l, [] => l
  | p, l, r :: tx => Loop.records recover log (p + r.size) (l.record recover (log p) r) tx

def Record.isDescriptor : Record → Bool
  | .descriptor _ => true
  | .revoke _ => false

/-- The number of descriptor blocks of a transaction. -/
def Transaction.descriptors (tx : Transaction) : ℕ := tx.countP Record.isDescriptor

theorem journalLoop_record {r : Record} (hhead : r.HeadAt geo.blksz sequence log p)
    (hseq : l.sequence = sequence % 2 ^ 32)
    (hread : l.state.disk (geo.journal l.i) = log p)
    (hrun : r.isDescriptor = true → l.transactionRunning = false) :
    journalLoop geo recover (fuel + 1) l = journalLoop geo recover fuel
      (l.record recover (log p) r) := by
  cases r with
  | descriptor tags =>
      have hd : IsDescriptor geo.blksz sequence tags (log p) := hhead
      obtain ⟨htype, hnumber⟩ := hd.header
      have hnot : ¬l.transactionRunning = true := by
        rw [hrun rfl]
        decide
      rw [journalLoop]
      dsimp only
      rw [hread, if_pos htype, hnumber, if_neg (not_not.mpr hseq.symm), if_neg hnot, hd.tags_eq,
        List.length_map]
      rfl
  | revoke blocks =>
      have hd : IsRevoke geo.blksz sequence blocks (log p) := hhead
      obtain ⟨htype, hnumber⟩ := hd.header
      rw [journalLoop]
      dsimp only
      rw [hread, htype, if_neg (by decide), if_neg (by decide), if_pos rfl, hnumber,
        if_neg (not_not.mpr hseq.symm)]
      rfl

@[simp] theorem size_cons (r : Record) (tx : Transaction) :
    Transaction.size (r :: tx) = r.size + Transaction.size tx := by
  rw [Transaction.size, List.map_cons, List.sum_cons]
  rfl

theorem descriptors_cons (r : Record) (tx : Transaction) : Transaction.descriptors (r :: tx) =
    Transaction.descriptors tx + if r.isDescriptor then 1 else 0 := List.countP_cons

theorem size_pos (r : Record) : 0 < r.size := by
  cases r <;> exact Nat.succ_pos _

theorem record_i (recover : Bool) (block : List UInt8) (l : Loop) (r : Record) :
    (l.record recover block r).i = l.i + r.size := by
  cases r <;> rfl

theorem record_sequence (recover : Bool) (block : List UInt8) (l : Loop) (r : Record) :
    (l.record recover block r).sequence = l.sequence := by
  cases r <;> rfl

theorem record_disk (recover : Bool) (block : List UInt8) (l : Loop) (r : Record) :
    (l.record recover block r).state.disk = l.state.disk := by
  cases r with
  | descriptor tags => rfl
  | revoke blocks => cases recover <;> rfl

theorem record_running (recover : Bool) (block : List UInt8) (l : Loop) (r : Record) :
    (l.record recover block r).transactionRunning = (r.isDescriptor || l.transactionRunning) := by
  cases r <;> rfl

/-- The loop walks over the records of a transaction that has no second descriptor block. -/
theorem journalLoop_records {tx : Transaction} (hheads : HeadsAt geo.blksz sequence log p tx)
    (hseq : l.sequence = sequence % 2 ^ 32) (hi : l.i = first + p)
    (hread : ∀ q, p ≤ q → q < p + tx.size → l.state.disk (geo.journal (first + q)) = log q)
    (hone : tx.descriptors + (if l.transactionRunning then 1 else 0) ≤ 1) :
    journalLoop geo recover (fuel + tx.length) l =
      journalLoop geo recover fuel (l.records recover log p tx) := by
  induction tx generalizing p l with
  | nil => rfl
  | cons r tx ih =>
      obtain ⟨hhead, hrest⟩ := hheads
      rw [descriptors_cons] at hone
      have hstep : journalLoop geo recover (fuel + tx.length + 1) l =
          journalLoop geo recover (fuel + tx.length) (l.record recover (log p) r) := by
        refine journalLoop_record hhead hseq ?_ ?_
        · rw [hi]
          refine hread p le_rfl ?_
          have hpos := size_pos r
          rw [size_cons]
          omega
        · intro hdesc
          rw [if_pos hdesc] at hone
          by_contra hrun
          rw [Bool.not_eq_false] at hrun
          rw [if_pos hrun] at hone
          omega
      rw [List.length_cons, ← Nat.add_assoc, hstep, Loop.records]
      refine ih hrest ?_ ?_ ?_ ?_
      · rw [record_sequence, hseq]
      · rw [record_i, hi, Nat.add_assoc]
      · intro q hq hqlt
        rw [record_disk]
        refine hread q (by omega) ?_
        rw [size_cons]
        omega
      · rw [record_running]
        cases hdesc : r.isDescriptor with
        | false => simpa [hdesc] using hone
        | true =>
            rw [if_pos hdesc] at hone
            rw [Bool.true_or, if_pos rfl]
            omega

/-- The revoke blocks of a transaction. -/
def revokeHeads (log : ℕ → List UInt8) : ℕ → Transaction → List (List UInt8)
  | _, [] => []
  | p, .descriptor tags :: tx => revokeHeads log (p + (tags.length + 1)) tx
  | p, .revoke _ :: tx => log p :: revokeHeads log (p + 1) tx

/-- What the walk over a transaction changes. -/
structure Passed (recover : Bool) (log : ℕ → List UInt8) (p : ℕ) (tx : Transaction) (l l' : Loop) :
    Prop where
  i : l'.i = l.i + tx.size
  sequence : l'.sequence = l.sequence
  state : l'.state = { l.state with
    revkBlkList := if recover then l.state.revkBlkList
      else l.state.revkBlkList ++ revokeHeads log p tx }

theorem records_passed (recover : Bool) (log : ℕ → List UInt8) (tx : Transaction) (p : ℕ)
    (l : Loop) :
    Passed recover log p tx l (l.records recover log p tx) := by
  induction tx generalizing p l with
  | nil =>
      refine ⟨rfl, rfl, ?_⟩
      cases recover
      · simp [Loop.records, revokeHeads]
      · rfl
  | cons r tx ih =>
      obtain ⟨hi, hseq, hstate⟩ := ih (p + r.size) (l.record recover (log p) r)
      rw [Loop.records]
      refine ⟨?_, ?_, ?_⟩
      · rw [hi, record_i, size_cons, Nat.add_assoc]
      · rw [hseq, record_sequence]
      · rw [hstate]
        cases r with
        | descriptor tags => rfl
        | revoke blocks =>
            cases recover with
            | false =>
                simp only [Loop.record, Record.size, revokeHeads, Bool.false_eq_true, if_false,
                  List.append_assoc, List.singleton_append]
            | true => rfl

/-- A transaction without descriptor blocks logs nothing and does not change what is known of the
last descriptor block. -/
theorem records_of_none (recover : Bool) (log : ℕ → List UInt8) {tx : Transaction}
    (hnone : tx.descriptors = 0) (l : Loop) (p : ℕ) :
    tx.tags = [] ∧ (l.records recover log p tx).transactionRunning = l.transactionRunning ∧
      (l.records recover log p tx).dbFound = l.dbFound ∧
      (l.records recover log p tx).currDescLogicalNo = l.currDescLogicalNo := by
  induction tx generalizing p l with
  | nil => exact ⟨rfl, rfl, rfl, rfl⟩
  | cons r tx ih =>
      rw [descriptors_cons] at hnone
      cases r with
      | descriptor tags => exact absurd hnone (Nat.succ_ne_zero _)
      | revoke blocks =>
          obtain ⟨htags, hrun, hfound, hcurr⟩ :=
            ih hnone (l.record recover (log p) (.revoke blocks)) (p + 1)
          exact ⟨htags, hrun, hfound, hcurr⟩

/-- A transaction with one descriptor block: the code knows where it is. -/
theorem records_of_one {tx : Transaction} (hone : tx.descriptors = 1)
    (hheads : HeadsAt geo.blksz sequence log p tx) (hdata : DataAt log p tx) (l : Loop)
    (hi : l.i = first + p) :
    (l.records recover log p tx).transactionRunning = true ∧
      (l.records recover log p tx).dbFound = true ∧
      ∃ q, (l.records recover log p tx).currDescLogicalNo = first + q ∧ p ≤ q ∧
        q + tx.tags.length < p + tx.size ∧ IsDescriptor geo.blksz sequence tx.tags (log q) ∧
        ∀ k t, tx.tags[k]? = some t → log (q + 1 + k) = t.data := by
  induction tx generalizing p l with
  | nil => exact absurd hone (by decide)
  | cons r tx ih =>
      obtain ⟨hhead, hheads⟩ := hheads
      obtain ⟨hd, hdata⟩ := hdata
      rw [descriptors_cons] at hone
      cases r with
      | descriptor tags =>
          have hnone : Transaction.descriptors tx = 0 := Nat.succ.inj hone
          obtain ⟨htags, hrun, hfound, hcurr⟩ := records_of_none recover log hnone
            (l.record recover (log p) (.descriptor tags)) (p + (tags.length + 1))
          have hall : Transaction.tags (.descriptor tags :: tx) = tags := by
            rw [Transaction.tags, List.flatMap_cons]
            change tags ++ Transaction.tags tx = tags
            rw [htags, List.append_nil]
          rw [hall, Loop.records]
          refine ⟨hrun, hfound, p, hcurr.trans hi, le_rfl, ?_, hhead, hd⟩
          rw [size_cons, Record.size]
          omega
      | revoke blocks =>
          have hi' : (l.record recover (log p) (.revoke blocks)).i = first + (p + 1) := by
            rw [record_i, hi]
            rfl
          obtain ⟨hrun, hfound, q, hcurr, hle, hlt, hdesc, hall⟩ := ih hone hheads hdata _ hi'
          refine ⟨hrun, hfound, q, hcurr, by omega, ?_, hdesc, hall⟩
          rw [size_cons]
          change q + (Transaction.tags tx).length < p + (1 + Transaction.size tx)
          change q + (Transaction.tags tx).length < p + 1 + Transaction.size tx at hlt
          omega

end MiniPi.Ext4.Journal
