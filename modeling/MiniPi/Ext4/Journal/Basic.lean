import MiniPi.Lib.Mem

/-!
# Journal recovery

The model of `ext4fs_check_journal_state`.  The disk is given block by block, and `journal` gives
the block that `read_allocated_block` returns for each block of the journal inode.
-/

namespace MiniPi.Ext4.Journal

open Lib

/-- The `__be32` at an offset. -/
def be32At (bs : List UInt8) (off : ℕ) : ℕ := beValue ((bs.drop off).take 4)

def setBe32 (bs : List UInt8) (off v : ℕ) : List UInt8 :=
  bs.take off ++ beBytes 4 v ++ bs.drop (off + 4)

/-- The size of a block, and the blocks of the journal. -/
structure Geometry where
  blksz : ℕ
  journal : ℕ → ℕ

abbrev Disk := ℕ → List UInt8

/-- `put_ext4` for a whole block. -/
def putExt4 (disk : Disk) (b : ℕ) (buf : List UInt8) : Disk := fun x ↦ if x = b then buf else disk x

/-- The disk, the word `feature_incompat` of the superblock in memory, and the list of revoke
blocks. -/
structure State where
  disk : Disk
  featureIncompat : ℕ
  revkBlkList : List (List UInt8) := []

def journalDescriptorBlock : ℕ := 1
def journalCommitBlock : ℕ := 2
def journalRevokeBlock : ℕ := 5

/-- `struct ext3_journal_block_tag`. -/
structure Tag where
  block : ℕ
  flags : ℕ
deriving DecidableEq

/-- `EXT3_JOURNAL_FLAG_ESCAPE`. -/
def Tag.Escape (t : Tag) : Prop := t.flags.testBit 0 = true

/-- `EXT3_JOURNAL_FLAG_SAME_UUID`. -/
def Tag.SameUuid (t : Tag) : Prop := t.flags.testBit 1 = true

/-- `EXT3_JOURNAL_FLAG_LAST_TAG`. -/
def Tag.LastTag (t : Tag) : Prop := t.flags.testBit 3 = true

instance (t : Tag) : Decidable t.Escape := inferInstanceAs (Decidable (_ = _))
instance (t : Tag) : Decidable t.SameUuid := inferInstanceAs (Decidable (_ = _))
instance (t : Tag) : Decidable t.LastTag := inferInstanceAs (Decidable (_ = _))

/-- The loop over the tags of a descriptor block, from an offset on. -/
def tagsFrom (blksz : ℕ) (block : List UInt8) : ℕ → ℕ → List Tag
  | 0, _ => []
  | n + 1, ofs =>
      if blksz < ofs + 8 then []
      else
        let tag : Tag := { block := be32At block ofs, flags := be32At block (ofs + 4) }
        if tag.LastTag then [tag]
        else tag :: tagsFrom blksz block n (ofs + 8 + if tag.SameUuid then 0 else 16)

/-- The tags the code finds in a descriptor block. -/
def descriptorTags (blksz : ℕ) (block : List UInt8) : List Tag := tagsFrom blksz block blksz 12

/-- The blocks that a revoke block names. -/
def revokeBlocks (block : List UInt8) : List ℕ :=
  (List.range ((be32At block 12 - 16 + 3) / 4)).map fun k ↦ be32At block (16 + 4 * k)

/-- `check_blknr_for_revoke` returns `0`. -/
def checkBlknrForRevoke (revkBlkList : List (List UInt8)) (blknr sequenceNo : ℕ) : Bool :=
  revkBlkList.any fun block ↦ decide (sequenceNo < be32At block 8) &&
    (revokeBlocks block).contains blknr

/-- The loop of `recover_transaction`, behind block `i` of the journal. -/
def replayTags (geo : Geometry) (revkBlkList : List (List UInt8)) (sequenceNo : ℕ) :
    List Tag → ℕ → Disk → Disk
  | [], _, disk => disk
  | tag :: tags, i, disk =>
      replayTags geo revkBlkList sequenceNo tags (i + 1)
        (if checkBlknrForRevoke revkBlkList tag.block sequenceNo then disk
          else putExt4 disk tag.block (disk (geo.journal (i + 1))))

def recoverTransaction (geo : Geometry) (s : State) (prevDescLogicalNo : ℕ) : State :=
  let block := s.disk (geo.journal prevDescLogicalNo)
  let tags := descriptorTags geo.blksz block
  { s with disk := replayTags geo s.revkBlkList (be32At block 8) tags prevDescLogicalNo s.disk }

/-- The variables of the loop. -/
structure Loop where
  i : ℕ
  transactionRunning : Bool := false
  dbFound : Bool := false
  prevDescLogicalNo : ℕ := 0
  currDescLogicalNo : ℕ := 0
  sequence : ℕ
  state : State

/-- How the loop ends: at a block with another sequence number, or with the value `-1`. -/
inductive LoopEnd
  | done (sequence : ℕ) (state : State)
  | failed (state : State)

/-- The loop over the journal, in at most `fuel` rounds. -/
def journalLoop (geo : Geometry) (recover : Bool) : ℕ → Loop → Option LoopEnd
  | 0, _ => none
  | fuel + 1, l =>
      let block := l.state.disk (geo.journal l.i)
      if be32At block 4 = journalDescriptorBlock then
        if be32At block 8 ≠ l.sequence then some (.done l.sequence l.state)
        else if l.transactionRunning then some (.failed l.state)
        else
          journalLoop geo recover fuel { l with
            currDescLogicalNo := l.i
            transactionRunning := true
            i := l.i + (descriptorTags geo.blksz block).length + 1
            dbFound := true }
      else if be32At block 4 = journalCommitBlock then
        if be32At block 8 ≠ l.sequence then some (.done l.sequence l.state)
        else
          let l :=
            if l.transactionRunning || !l.dbFound then
              { l with
                transactionRunning := false, i := l.i + 1, sequence := (l.sequence + 1) % 2 ^ 32 }
            else l
          let l := { l with prevDescLogicalNo := l.currDescLogicalNo }
          let l :=
            if recover && l.dbFound then
              { l with state := recoverTransaction geo l.state l.prevDescLogicalNo }
            else l
          journalLoop geo recover fuel { l with dbFound := false }
      else if be32At block 4 = journalRevokeBlock then
        if be32At block 8 ≠ l.sequence then some (.done l.sequence l.state)
        else
          let s := l.state
          journalLoop geo recover fuel { l with
            state := if recover then s else { s with revkBlkList := s.revkBlkList ++ [block] }
            i := l.i + 1 }
      else if be32At block 8 ≠ l.sequence then some (.done l.sequence l.state)
      else journalLoop geo recover fuel l

/-- The block of the superblock, and the offset of `feature_incompat` in it. -/
def superBlock (geo : Geometry) : ℕ := 1024 / geo.blksz

def featureOffset (geo : Geometry) : ℕ := 1024 % geo.blksz + 96

/-- The code from the label `end` on, for `RECOVER`. -/
def finishRecovery (geo : Geometry) (jsb : List UInt8) (sequence : ℕ) (s : State) : State :=
  let jsb := setBe32 (setBe32 jsb 28 1) 24 ((sequence + 1) % 2 ^ 32)
  let sb := s.disk (superBlock geo)
  let ofs := featureOffset geo
  let feature := leValue ((sb.drop ofs).take 4) ||| 4
  let disk := putExt4 s.disk (superBlock geo) (sb.take ofs ++ leBytes 4 feature ++
    sb.drop (ofs + 4))
  { disk := putExt4 disk (geo.journal 0) jsb, featureIncompat := feature, revkBlkList := [] }

/-- `ext4fs_check_journal_state`: its value and the new state, or `none` if the loop takes more than
`fuel` rounds. -/
def ext4fsCheckJournalState (geo : Geometry) (recover : Bool) (fuel : ℕ) (s : State) :
    Option (ℤ × State) :=
  let jsb := s.disk (geo.journal 0)
  let finish (jsb : List UInt8) (sequence : ℕ) (s : State) : Option (ℤ × State) :=
    some (0, if recover then finishRecovery geo jsb sequence s else s)
  if !s.featureIncompat.testBit 2 then finish jsb (be32At jsb 24) s
  else if be32At jsb 28 = 0 then finish jsb (be32At jsb 24) s
  else
    let jsb := setBe32 jsb 36 (be32At jsb 36 ||| 1)
    match journalLoop geo recover fuel
        { i := be32At jsb 20, sequence := be32At jsb 24, state := s } with
    | none => none
    | some (.failed s) => some (-1, s)
    | some (.done sequence s) => finish jsb sequence s

/-- The two calls: `SCAN`, and `RECOVER` if the first one returns `0`. -/
def recoverJournal (geo : Geometry) (fuel : ℕ) (s : State) : Option (ℤ × State) :=
  match ext4fsCheckJournalState geo false fuel s with
  | some (0, s) => ext4fsCheckJournalState geo true fuel s
  | o => o

end MiniPi.Ext4.Journal
