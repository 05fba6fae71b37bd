import MiniPi.Ext4.Journal.Replay
import Mathlib

/-!
# The circular log

A log begins at block `s_start` of the journal and goes on at `s_first` behind the last block.  The
code begins at `s_first`, does not go back to it, and takes a second descriptor block for an error.
-/

namespace MiniPi.Ext4.Journal

open Lib

/-- The place of a log in the journal, its committed transactions, and the incomplete one behind
them. -/
structure CircularLog where
  first : ℕ
  start : ℕ
  maxlen : ℕ
  sequence : ℕ
  txs : List Transaction
  tail : Transaction

variable {geo : Geometry} {disk : Disk} {j : CircularLog} {s : State}

/-- The number of blocks of the log. -/
def CircularLog.size (j : CircularLog) : ℕ := committedSize j.txs + j.tail.size

def CircularLog.block (j : CircularLog) (geo : Geometry) (disk : Disk) (q : ℕ) : List UInt8 :=
  disk (geo.journal (j.first + (j.start - j.first + q) % (j.maxlen - j.first)))

/-- The number of the incomplete transaction. -/
def CircularLog.last (j : CircularLog) : ℕ := (j.sequence + j.txs.length) % 2 ^ 32

structure CircularLog.WellFormed (j : CircularLog) (geo : Geometry) (disk : Disk) : Prop where
  blksz_ge : 1024 ≤ geo.blksz
  blksz_le : geo.blksz ≤ 2 ^ 16
  jsb_length : (disk (geo.journal 0)).length = geo.blksz
  jsb_maxlen : be32At (disk (geo.journal 0)) 16 = j.maxlen
  jsb_first : be32At (disk (geo.journal 0)) 20 = j.first
  jsb_sequence : be32At (disk (geo.journal 0)) 24 = j.sequence
  jsb_start : be32At (disk (geo.journal 0)) 28 = j.start
  first_pos : 0 < j.first
  first_le : j.first ≤ j.start
  start_lt : j.start < j.maxlen
  size_le : j.size ≤ j.maxlen - j.first
  committed : CommittedAt geo.blksz (j.block geo disk) j.sequence 0 j.txs
  tail : HeadsAt geo.blksz (j.sequence + j.txs.length) (j.block geo disk)
    (committedSize j.txs) j.tail
  behind : j.size < j.maxlen - j.first → be32At (j.block geo disk j.size) 0 = journalMagic →
    be32At (j.block geo disk j.size) 8 ≠ j.last
  outside : ∀ tx ∈ j.txs, ∀ t ∈ Transaction.tags tx, ∀ i < j.maxlen, geo.journal i ≠ t.block

/-- Both calls return, and leave the latest copies in the blocks outside the journal and the
superblock. -/
def CircularLog.Recovered (j : CircularLog) (geo : Geometry) (disk : Disk) (featureIncompat : ℕ) :
    Prop :=
  ∃ fuel s, recoverJournal geo fuel { disk := disk, featureIncompat := featureIncompat } =
    some (0, s) ∧
    ∀ b, b ≠ superBlock geo → (∀ i < j.maxlen, geo.journal i ≠ b) →
      s.disk b = ((latest b j.txs).map Logged.copy).getD (disk b)

/-- Some transaction with a greater number than the `k`-th one revokes the block, be it incomplete
or not. -/
def CircularLog.Finds (j : CircularLog) (k b : ℕ) : Prop :=
  (∃ m u, j.txs[m]? = some u ∧ (j.sequence + k) % 2 ^ 32 < (j.sequence + m) % 2 ^ 32 ∧
    b ∈ Transaction.revokes u) ∨
  ((j.sequence + k) % 2 ^ 32 < j.last ∧ b ∈ j.tail.revokes)

/-- What the code takes for granted. -/
structure CircularLog.Safe (j : CircularLog) (geo : Geometry) (disk : Disk) : Prop where
  start : j.start = j.first
  room : j.size < j.maxlen - j.first
  descriptors : ∀ tx ∈ j.txs, Transaction.descriptors tx ≤ 1
  tail_descriptors : j.tail.descriptors ≤ 1
  /-- The code does not look at the magic number of a block. -/
  behind : be32At (j.block geo disk j.size) 8 ≠ j.last
  /-- The numbers tell which revoke records cancel a copy, unless there is a later copy that
  counts. -/
  revokes : ∀ k tx, j.txs[k]? = some tx → ∀ t ∈ Transaction.tags tx, t.block ≠ superBlock geo →
    (Logs (j.txs.drop (k + 1)) t.block ∧ ¬Revoked (j.txs.drop (k + 1)) t.block) ∨
      (j.Finds k t.block ↔ Revoked (j.txs.drop k) t.block)
  escape : ∀ b ≠ superBlock geo, ∀ t, latest b j.txs = some t → ¬t.Escape

/-! ## The journal superblock -/

theorem be32At_setBe32 (bs : List UInt8) (v : ℕ) {off o : ℕ} (ho : off + 4 ≤ o)
    (hlen : o ≤ bs.length) :
    be32At (setBe32 bs o v) off = be32At bs off := by
  have htake : (bs.take o).length = o := List.length_take_of_le hlen
  have hsame : ((bs.take o).drop off).take 4 = (bs.drop off).take 4 := by
    rw [List.drop_take, List.take_take, Nat.min_eq_left (by omega)]
  rw [be32At, be32At, setBe32, List.append_assoc, List.drop_append_of_le_length (by omega),
    List.take_append_of_le_length (by rw [List.length_drop]; omega), hsame]

theorem be32At_lt (bs : List UInt8) (off : ℕ) : be32At bs off < 2 ^ 32 := by
  refine (beValue_lt _).trans_le ?_
  have hlen : ((bs.drop off).take 4).length ≤ 4 := List.length_take_le 4 _
  exact (Nat.pow_le_pow_right (by norm_num) hlen).trans (by norm_num)

/-- A call walks over the journal from `s_first` on. -/
theorem ext4fsCheckJournalState_eq (recover : Bool) (fuel : ℕ) (hwf : j.WellFormed geo s.disk)
    (hflag : s.featureIncompat.testBit 2 = true) :
    ∃ jsb, ext4fsCheckJournalState geo recover fuel s =
      match journalLoop geo recover fuel { i := j.first, sequence := j.sequence, state := s } with
      | none => none
      | some (.failed s') => some (-1, s')
      | some (.done number s') =>
          some (0, if recover then finishRecovery geo jsb number s' else s') := by
  have hlen : 1024 ≤ (s.disk (geo.journal 0)).length := by
    rw [hwf.jsb_length]
    exact hwf.blksz_ge
  have hstart : ¬be32At (s.disk (geo.journal 0)) 28 = 0 := by
    rw [hwf.jsb_start]
    exact (hwf.first_pos.trans_le hwf.first_le).ne'
  rw [ext4fsCheckJournalState]
  dsimp only
  rw [hflag, if_neg (by decide), if_neg hstart, be32At_setBe32 _ _ (by norm_num) (by omega),
    be32At_setBe32 _ _ (by norm_num) (by omega), hwf.jsb_first, hwf.jsb_sequence]
  exact ⟨_, rfl⟩

theorem ext4fsCheckJournalState_of_done {fuel number : ℕ} {s' : State} (recover : Bool)
    (hwf : j.WellFormed geo s.disk) (hflag : s.featureIncompat.testBit 2 = true)
    (hloop : journalLoop geo recover fuel { i := j.first, sequence := j.sequence, state := s } =
      some (.done number s')) :
    ∃ jsb, ext4fsCheckJournalState geo recover fuel s =
      some (0, if recover then finishRecovery geo jsb number s' else s') := by
  obtain ⟨jsb, heq⟩ := ext4fsCheckJournalState_eq recover fuel hwf hflag
  rw [hloop] at heq
  exact ⟨jsb, heq⟩

theorem finishRecovery_disk (jsb : List UInt8) (number : ℕ) {b : ℕ} (hb : b ≠ superBlock geo)
    (hj : b ≠ geo.journal 0) : (finishRecovery geo jsb number s).disk b = s.disk b :=
  (if_neg hj).trans (if_neg hb)

/-- If block `s_first` does not have the first sequence number, nothing is replayed. -/
theorem disk_of_end {featureIncompat fuel b : ℕ} (hwf : j.WellFormed geo disk)
    (hflag : featureIncompat.testBit 2 = true)
    (hend : be32At (disk (geo.journal j.first)) 8 ≠ j.sequence)
    (hs : recoverJournal geo fuel { disk := disk, featureIncompat := featureIncompat } =
      some (0, s)) (hb : b ≠ superBlock geo) (hj : b ≠ geo.journal 0) : s.disk b = disk b := by
  cases fuel with
  | zero =>
      obtain ⟨jsb, hscan⟩ :=
        ext4fsCheckJournalState_eq (s := ⟨disk, featureIncompat, []⟩) false 0 hwf hflag
      rw [recoverJournal, hscan] at hs
      cases hs
  | succ fuel =>
      have hdone (recover : Bool) :=
        ext4fsCheckJournalState_of_done (s := ⟨disk, featureIncompat, []⟩) recover hwf hflag
          (journalLoop_end fuel hend)
      obtain ⟨_, hscan⟩ := hdone false
      obtain ⟨jsb, hrecover⟩ := hdone true
      rw [recoverJournal, hscan] at hs
      change ext4fsCheckJournalState geo true (fuel + 1) ⟨disk, featureIncompat, []⟩ = _ at hs
      rw [hrecover] at hs
      cases hs
      exact finishRecovery_disk jsb j.sequence hb hj

/-! ## Logs that the code recovers -/

theorem CircularLog.reads (hstart : j.start = j.first) (hroom : j.size < j.maxlen - j.first) :
    Reads geo j.first (j.size + 1) (j.block geo disk) disk := by
  intro q hq
  have hmod : (j.start - j.first + q) % (j.maxlen - j.first) = q := by
    rw [hstart, Nat.sub_self, Nat.zero_add]
    exact Nat.mod_eq_of_lt (by omega)
  rw [CircularLog.block, hmod]

theorem CircularLog.WellFormed.outside_log (hwf : j.WellFormed geo disk)
    (hroom : j.size < j.maxlen - j.first) :
    ∀ tx ∈ j.txs, Outside geo j.first (j.size + 1) (Transaction.tags tx) := by
  intro tx htx t ht q hq
  exact hwf.outside tx htx t ht (j.first + q) (by omega)

theorem CircularLog.WellFormed.between (hwf : j.WellFormed geo disk) (s : State) :
    Between j.first j.sequence 0 { i := j.first, sequence := j.sequence, state := s } := by
  refine ⟨?_, rfl, rfl, rfl⟩
  refine (Nat.mod_eq_of_lt ?_).symm
  rw [← hwf.jsb_sequence]
  exact be32At_lt _ _

/-- Either pass walks over the whole log. -/
theorem journalLoop_of_safe (recover : Bool) (hwf : j.WellFormed geo s.disk)
    (hsafe : j.Safe geo s.disk) :
    journalLoop geo recover (1 + List.length j.tail + rounds j.txs)
        { i := j.first, sequence := j.sequence, state := s } =
      some (.done j.last ((s.commits recover (j.block geo s.disk) j.sequence 0 j.txs).passed recover
        (j.block geo s.disk) (committedSize j.txs) j.tail)) := by
  have htail := hwf.tail
  have hbehind := hsafe.behind
  rw [CircularLog.size] at hbehind
  rw [← Nat.zero_add (committedSize j.txs)] at htail hbehind ⊢
  refine journalLoop_log recover hwf.committed htail hsafe.descriptors hsafe.tail_descriptors
    (hwf.outside_log hsafe.room) ?_ (hwf.between s)
      (CircularLog.reads hsafe.start hsafe.room) hbehind
  rw [Nat.zero_add]
  exact Nat.lt_succ_self _

/-- The check on the revoke blocks that the first pass leaves. -/
theorem checkBlknrForRevoke_iff (hwf : j.WellFormed geo disk) (k b : ℕ) :
    checkBlknrForRevoke (committedHeads (j.block geo disk) 0 j.txs ++
        revokeHeads (j.block geo disk) (committedSize j.txs) j.tail) b ((j.sequence + k) % 2 ^ 32) =
        true ↔
      j.Finds k b := by
  rw [checkBlknrForRevoke_append, Bool.or_eq_true,
    checkBlknrForRevoke_committed hwf.blksz_le hwf.committed,
    checkBlknrForRevoke_heads hwf.blksz_le hwf.tail]
  exact Iff.rfl

/-- Where nothing the code takes for granted fails, recovery leaves the latest copies. -/
theorem recovered_of_safe (j : CircularLog) (geo : Geometry) (disk : Disk) (featureIncompat : ℕ)
    (hflag : featureIncompat.testBit 2 = true) (hwf : j.WellFormed geo disk)
    (hsafe : j.Safe geo disk) :
    j.Recovered geo disk featureIncompat := by
  let log := j.block geo disk
  let revk := committedHeads log 0 j.txs ++ revokeHeads log (committedSize j.txs) j.tail
  let s₀ : State := { disk := disk, featureIncompat := featureIncompat }
  let s₁ : State := { s₀ with revkBlkList := revk }
  let s₂ : State := { s₁ with disk := writeAll revk j.sequence j.txs disk }
  let fuel := 1 + List.length j.tail + rounds j.txs
  have hscan : ext4fsCheckJournalState geo false fuel s₀ = some (0, s₁) := by
    have hloop := journalLoop_of_safe false (s := s₀) hwf hsafe
    rw [commits_scan] at hloop
    obtain ⟨jsb, hcheck⟩ := ext4fsCheckJournalState_of_done false hwf hflag hloop
    exact hcheck
  have hrecover : ∃ jsb, ext4fsCheckJournalState geo true fuel s₁ =
      some (0, finishRecovery geo jsb j.last s₂) := by
    have hloop := journalLoop_of_safe true (s := s₁) hwf hsafe
    rw [commits_recover] at hloop
    exact ext4fsCheckJournalState_of_done true hwf hflag hloop
  obtain ⟨jsb, hrecover⟩ := hrecover
  refine ⟨fuel, finishRecovery geo jsb j.last s₂, ?_, ?_⟩
  · rw [recoverJournal, hscan]
    exact hrecover
  · intro b hb hout
    have hj : b ≠ geo.journal 0 := (hout 0 (Nat.zero_lt_of_lt hwf.start_lt)).symm
    have hdisk : s₂.disk b = ((latest b j.txs).map Logged.data).getD (disk b) := by
      refine writeAll_apply revk fun k tx htx t ht htb ↦ ?_
      rw [checkBlknrForRevoke_iff hwf]
      subst htb
      exact hsafe.revokes k tx htx t ht hb
    have hcopy : (latest b j.txs).map Logged.data = (latest b j.txs).map Logged.copy := by
      refine Option.map_congr fun t ht ↦ ?_
      rw [Logged.copy, if_neg (hsafe.escape b hb t ht)]
    rw [finishRecovery_disk jsb j.last hb hj, hdisk, hcopy]

/-- A log with a second descriptor block in some transaction is refused. -/
theorem not_recovered_of_descriptors (featureIncompat : ℕ)
    (hflag : featureIncompat.testBit 2 = true) (hwf : j.WellFormed geo disk)
    (hstart : j.start = j.first) (hroom : j.size < j.maxlen - j.first)
    (hmany : (∃ tx ∈ j.txs, 1 < Transaction.descriptors tx) ∨ 1 < j.tail.descriptors) :
    ¬j.Recovered geo disk featureIncompat := by
  let s₀ : State := { disk := disk, featureIncompat := featureIncompat }
  rintro ⟨fuel, s, hs, -⟩
  have htail := hwf.tail
  rw [← Nat.zero_add (committedSize j.txs)] at htail
  obtain ⟨fuel', s', hfail⟩ := journalLoop_refused false hwf.committed htail (hwf.outside_log hroom)
    (by rw [Nat.zero_add]; exact Nat.le_succ _) (hwf.between s₀)
    (CircularLog.reads hstart hroom) hmany
  obtain ⟨jsb, hscan⟩ := ext4fsCheckJournalState_eq (s := s₀) false fuel hwf hflag
  rw [recoverJournal, hscan] at hs
  cases hloop : journalLoop geo false fuel
      { i := j.first, sequence := j.sequence, state := s₀ } with
  | none =>
      rw [hloop] at hs
      cases hs
  | some o =>
      have hmono := journalLoop_mono fuel' hloop
      rw [Nat.add_comm, journalLoop_mono fuel hfail] at hmono
      obtain rfl : LoopEnd.failed s' = o := Option.some.inj hmono
      rw [hloop] at hs
      cases hs

/-! ## Two logs -/

def oneGeometry : Geometry := { blksz := 1024, journal := fun i ↦ 100 + i }

/-- The superblock of a journal of eight blocks with the first sequence number `1`. -/
def journalSb (start : ℕ) : List UInt8 :=
  header 4 0 ++ (beBytes 4 1024 ++ (beBytes 4 8 ++ (beBytes 4 1 ++ (beBytes 4 1 ++
    (beBytes 4 start ++ List.replicate 992 0)))))

/-- A disk of empty blocks, but for those of the journal. -/
def journalDisk (blocks : List (List UInt8)) : Disk := fun b ↦
  if b < 100 then List.replicate 1024 0 else blocks.getD (b - 100) (List.replicate 1024 0)

theorem length_journalSb (start : ℕ) : (journalSb start).length = 1024 := by
  simp only [journalSb, List.length_append, length_header, length_beBytes, List.length_replicate]

def twoTags : List Logged :=
  [{ block := 50, flags := 2, uuid := [], data := List.replicate 1024 7 },
    { block := 60, flags := 10, uuid := [], data := List.replicate 1024 9 }]

/-- A transaction for the blocks 50 and 60, and one that revokes block 60. -/
def twoTransactions : CircularLog where
  first := 1
  start := 1
  maxlen := 8
  sequence := 1
  txs := [[.descriptor twoTags], [.revoke [60]]]
  tail := []

def twoDisk : Disk := journalDisk [
  journalSb 1,
  header journalDescriptorBlock 1 ++ twoTags.flatMap Logged.encode ++ List.replicate 996 0,
  List.replicate 1024 7,
  List.replicate 1024 9,
  header journalCommitBlock 1 ++ List.replicate 1012 0,
  header journalRevokeBlock 2 ++ beBytes 4 20 ++ [60].flatMap (beBytes 4) ++ List.replicate 1004 0,
  header journalCommitBlock 2 ++ List.replicate 1012 0]

theorem twoTransactions_wellFormed : twoTransactions.WellFormed oneGeometry twoDisk := by
  have hdescriptor : IsDescriptor 1024 1 twoTags
      (twoTransactions.block oneGeometry twoDisk 0) := by
    refine ⟨?_, ⟨_, rfl⟩, ⟨by decide, show Tag.LastTag _ by decide⟩, ?_⟩
    · change (header journalDescriptorBlock 1 ++ twoTags.flatMap Logged.encode ++
        List.replicate 996 0).length = 1024
      rw [List.length_append, List.length_append, length_header, List.length_replicate]
      rfl
    · intro t ht
      rcases List.mem_pair.mp ht with rfl | rfl <;> exact ⟨by decide, by decide, by decide⟩
  have hrevoke : IsRevoke 1024 2 [60] (twoTransactions.block oneGeometry twoDisk 4) := by
    refine ⟨?_, ⟨_, rfl⟩, List.forall_mem_singleton.mpr (by decide)⟩
    change (header journalRevokeBlock 2 ++ beBytes 4 20 ++ [60].flatMap (beBytes 4) ++
      List.replicate 1004 0).length = 1024
    rw [List.length_append, List.length_append, List.length_append, length_header,
      List.length_replicate, length_beBytes]
    rfl
  constructor
  · exact le_rfl
  · decide
  · exact length_journalSb 1
  · decide
  · decide
  · decide
  · decide
  · exact Nat.one_pos
  · exact le_rfl
  · decide
  · decide
  · refine ⟨⟨hdescriptor, trivial⟩, ⟨?_, trivial⟩, ⟨List.replicate 1012 0, rfl⟩, ⟨hrevoke, trivial⟩,
      ⟨trivial, trivial⟩, ⟨List.replicate 1012 0, rfl⟩, trivial⟩
    intro k t ht
    obtain rfl | rfl : k = 0 ∨ k = 1 := by
      have hk := (List.getElem?_eq_some_iff.mp ht).1
      change k < 2 at hk
      omega
    · obtain rfl := Option.some.inj ht
      rfl
    · obtain rfl := Option.some.inj ht
      rfl
  · trivial
  · intro _ hmagic
    exact absurd hmagic (by decide)
  · intro tx htx t ht i _
    rcases List.mem_pair.mp htx with rfl | rfl
    · rcases List.mem_pair.mp ht with rfl | rfl
      · exact show 100 + i ≠ 50 by omega
      · exact show 100 + i ≠ 60 by omega
    · exact absurd ht List.not_mem_nil

/-- The copy of block 50 is written, and that of block 60, which is revoked later, is not. -/
theorem recovered_of_safe_two : twoTransactions.Recovered oneGeometry twoDisk 4 := by
  refine recovered_of_safe twoTransactions oneGeometry twoDisk 4 (by decide)
    twoTransactions_wellFormed ?_
  constructor
  · rfl
  · decide
  · decide
  · decide
  · decide
  · intro k tx htx t ht _
    have hk : k = 0 := by
      match k, htx with
      | 0, _ => rfl
      | 1, htx =>
          obtain rfl := Option.some.inj htx
          exact absurd ht List.not_mem_nil
    subst hk
    obtain rfl := Option.some.inj htx
    rcases List.mem_pair.mp ht with rfl | rfl
    · refine Or.inr (iff_of_false ?_ (by decide))
      rintro (⟨m, u, hu, -, hb⟩ | ⟨-, hb⟩)
      · exact absurd ⟨u, List.mem_of_getElem? hu, hb⟩
          (show ¬Revoked twoTransactions.txs 50 by decide)
      · exact absurd hb List.not_mem_nil
    · exact Or.inr (iff_of_true (Or.inl ⟨1, [.revoke [60]], rfl, by decide, by decide⟩) (by decide))
  · intro b _ t ht
    obtain ⟨tx, htx, htags⟩ := mem_of_latest ht
    rcases List.mem_pair.mp htx with rfl | rfl
    · rcases List.mem_pair.mp htags with rfl | rfl <;> decide
    · exact absurd htags List.not_mem_nil

def oneTag : Logged := { block := 50, flags := 10, uuid := [], data := List.replicate 1024 7 }

/-- A log of one transaction for block 50, which begins at the second block. -/
def oneTransaction : CircularLog where
  first := 1
  start := 2
  maxlen := 8
  sequence := 1
  txs := [[.descriptor [oneTag]]]
  tail := []

def oneDisk : Disk := journalDisk [
  journalSb 2,
  List.replicate 1024 0,
  header journalDescriptorBlock 1 ++ [oneTag].flatMap Logged.encode ++ List.replicate 1004 0,
  oneTag.data,
  header journalCommitBlock 1 ++ List.replicate 1012 0]

theorem oneTransaction_wellFormed : oneTransaction.WellFormed oneGeometry oneDisk := by
  have hdescriptor : IsDescriptor 1024 1 [oneTag] (oneTransaction.block oneGeometry oneDisk 0) := by
    refine ⟨?_, ⟨_, rfl⟩, show oneTag.LastTag by decide, ?_⟩
    · change (header journalDescriptorBlock 1 ++ [oneTag].flatMap Logged.encode ++
        List.replicate 1004 0).length = 1024
      rw [List.length_append, List.length_append, length_header, List.length_replicate]
      rfl
    · exact List.forall_mem_singleton.mpr ⟨by decide, by decide, by decide⟩
  constructor
  · exact le_rfl
  · decide
  · exact length_journalSb 2
  · decide
  · decide
  · decide
  · decide
  · exact Nat.one_pos
  · decide
  · decide
  · decide
  · refine ⟨⟨hdescriptor, trivial⟩, ⟨?_, trivial⟩, ⟨List.replicate 1012 0, rfl⟩, trivial⟩
    intro k t ht
    obtain rfl : k = 0 := by
      have hk := (List.getElem?_eq_some_iff.mp ht).1
      exact Nat.lt_one_iff.mp hk
    obtain rfl : oneTag = t := Option.some.inj ht
    rfl
  · trivial
  · intro _ hmagic
    exact absurd hmagic (by decide)
  · intro tx htx t ht i _
    obtain rfl := List.mem_singleton.mp htx
    obtain rfl : t = oneTag := List.mem_singleton.mp ht
    exact show 100 + i ≠ 50 by omega

/-- A log that begins at another block is not replayed. -/
theorem not_recovered_elsewhere :
    ¬∀ (j : CircularLog) (geo : Geometry) (disk : Disk) (featureIncompat : ℕ),
      featureIncompat.testBit 2 = true → j.WellFormed geo disk →
      j.Recovered geo disk featureIncompat := by
  intro h
  have hwf := oneTransaction_wellFormed
  obtain ⟨fuel, s, hs, hblocks⟩ := h oneTransaction oneGeometry oneDisk 4 (by decide) hwf
  have hlatest := hblocks 50 (by decide) fun i _ ↦ show 100 + i ≠ 50 by omega
  have hcopy : ((latest 50 oneTransaction.txs).map Logged.copy).getD (oneDisk 50) =
      List.replicate 1024 7 := rfl
  rw [hcopy, disk_of_end hwf (by decide) (by decide) hs (by decide) (by decide)] at hlatest
  exact absurd hlatest (by decide)

end MiniPi.Ext4.Journal
