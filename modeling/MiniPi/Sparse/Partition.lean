import MiniPi.Sparse.Image

/-!
# Writes and the partition

The ranges of blocks that `write_sparse_image` passes to `info->write`.  The only guard compares
sums of 32 bits, and a DONT_CARE chunk moves the counter without one: the writes stay in the
partition just where the counter has not come round below its start.
-/

namespace MiniPi.Sparse

open Lib

/-! ## The ranges that are written -/

/-- The writes of the loop over a chunk of type FILL: a block and a number of blocks each. -/
def Storage.fillWrites (info : Storage) (blkcnt : ℕ) : ℕ → ℕ → ℕ → List (ℕ × ℕ)
  | 0, _, _ => []
  | fuel + 1, i, blk =>
    if i < blkcnt then
      let j := blkcnt - i
      let j := if j < 2 ^ 31 ∧ info.fillBufNumBlks < j then info.fillBufNumBlks else j
      (blk, j) :: info.fillWrites blkcnt fuel (i + j) ((blk + j) % wide)
    else []

section

variable (info : Storage) (header : SparseHeader) (image heap : Mem)

/-- The bytes of a chunk that is expanded, as `chunk_data_sz` holds them. -/
def chunkDataSize (chunk : ChunkHeader) : ℕ := header.blkSz * chunk.chunkSz % wide

/-- The place behind a chunk header. -/
def behindHeader (data : ℕ) : ℕ :=
  if chunkHeaderSize < header.chunkHdrSz then
    data + chunkHeaderSize + (header.chunkHdrSz - chunkHeaderSize)
  else data + chunkHeaderSize

/-- The writes of one round of the loop over the chunks. -/
def chunkWrites (st : State) : List (ℕ × ℕ) :=
  let chunk := readChunkHeader image st.data
  let size := chunkDataSize header chunk
  let blkcnt := size / info.blksz
  if chunk.chunkType = chunkTypeRaw then
    if chunk.totalSz ≠ (header.chunkHdrSz + size) % wide ∨ exceeds info st.blk blkcnt then []
    else [(st.blk, blkcnt)]
  else if chunk.chunkType = chunkTypeFill then
    if chunk.totalSz ≠ (header.chunkHdrSz + 4) % wide ∨ exceeds info st.blk blkcnt then []
    else info.fillWrites blkcnt blkcnt 0 st.blk
  else []

/-- The writes of the loop over the chunks. -/
def chunksWrites : ℕ → State → List (ℕ × ℕ)
  | 0, _ => []
  | n + 1, st =>
    chunkWrites info header image st ++
      match processChunk info header image heap st with
      | some (.ok st) => chunksWrites n st
      | _ => []

end

/-- The ranges that `write_sparse_image` writes. -/
def sparseWrites (info : Storage) (image heap : Mem) (data : ℕ) (dev : Mem) : List (ℕ × ℕ) :=
  let header := readSparseHeader image data
  let data := data + header.fileHdrSz
  let data :=
    if sparseHeaderSize < header.fileHdrSz then data + (header.fileHdrSz - sparseHeaderSize)
    else data
  if header.blkSz % info.blksz ≠ 0 then []
  else chunksWrites info header image heap header.totalChunks ⟨data, info.start, 0, dev⟩

/-- A range of blocks lies in the partition. -/
def Storage.Inside (info : Storage) (r : ℕ × ℕ) : Prop :=
  r.2 = 0 ∨ info.start ≤ r.1 ∧ r.1 + r.2 ≤ info.start + info.size

/-! ## The counter -/

/-- The counter has not come round: it is not below the start, and the blocks end before
`2 ^ 32`. -/
def Storage.KeepsUp (info : Storage) (pos blkcnt : ℕ) : Prop :=
  blkcnt = 0 ∨ info.start ≤ pos % wide ∧ pos % wide + blkcnt < wide

section

variable (info : Storage) (header : SparseHeader) (image : Mem)

/-- The next `n` chunks from `data` on, with the blocks up to `pos` passed: at every chunk that is
to be written the counter keeps up, and a FILL chunk finds a buffer of at least one block and an
image whose blocks are not empty. -/
def Tame : ℕ → ℕ → ℕ → Prop
  | 0, _, _ => True
  | n + 1, data, pos =>
    let chunk := readChunkHeader image data
    let size := chunkDataSize header chunk
    let blkcnt := size / info.blksz
    if chunk.chunkType = chunkTypeRaw then
      chunk.totalSz = (header.chunkHdrSz + size) % wide → exceeds info pos blkcnt = false →
        info.KeepsUp pos blkcnt ∧ Tame n (behindHeader header data + size) (pos + blkcnt)
    else if chunk.chunkType = chunkTypeFill then
      chunk.totalSz = (header.chunkHdrSz + 4) % wide → exceeds info pos blkcnt = false →
        (info.KeepsUp pos blkcnt ∧ (blkcnt = 0 ∨ info.blksz ≤ fillbufSize)) ∧ header.blkSz ≠ 0 ∧
          Tame n (behindHeader header data + 4) (pos + blkcnt)
    else if chunk.chunkType = chunkTypeDontCare then
      Tame n (behindHeader header data) (pos + blkcnt)
    else if chunk.chunkType = chunkTypeCrc32 then
      chunk.totalSz = header.chunkHdrSz → Tame n (behindHeader header data + size) pos
    else True

end

/-- The chunks of an image, with the counter at the start of the partition. -/
def TameImage (info : Storage) (image : Mem) (data : ℕ) : Prop :=
  let header := readSparseHeader image data
  let data := data + header.fileHdrSz
  let data :=
    if sparseHeaderSize < header.fileHdrSz then data + (header.fileHdrSz - sparseHeaderSize)
    else data
  Tame info header image header.totalChunks data info.start

/-! ## The loop over a FILL chunk -/

section

variable {info : Storage} {header : SparseHeader} {image heap src dev : Mem}
  {blkcnt fuel i blk pos : ℕ}

theorem exceeds_mod (pos blkcnt : ℕ) :
    exceeds info (pos % wide) blkcnt = exceeds info pos blkcnt := by
  unfold exceeds
  rw [Nat.mod_add_mod]

theorem KeepsUp_mod : info.KeepsUp (pos % wide) blkcnt ↔ info.KeepsUp pos blkcnt := by
  unfold Storage.KeepsUp
  rw [Nat.mod_mod]

/-- With a buffer of at least one block, every round gets on. -/
theorem fillLoop_ne_none (hnum : 0 < info.fillBufNumBlks) (hfuel : blkcnt - i ≤ fuel) :
    info.fillLoop src blkcnt fuel i blk dev ≠ none := by
  induction fuel generalizing i blk dev with
  | zero =>
      rw [Storage.fillLoop, if_neg (by omega)]
      exact Option.some_ne_none _
  | succ fuel ih =>
      rw [Storage.fillLoop]
      split_ifs with hlt
      · simp only
        apply ih
        split_ifs <;> omega
      · exact Option.some_ne_none _

theorem fillLoop_eq_none (hnum : info.fillBufNumBlks = 0) (hcnt : blkcnt < 2 ^ 31)
    (hlt : i < blkcnt) :
    info.fillLoop src blkcnt fuel i blk dev = none := by
  induction fuel generalizing i blk dev with
  | zero => rw [Storage.fillLoop, if_pos hlt]
  | succ fuel ih =>
      rw [Storage.fillLoop, if_pos hlt]
      simp only [hnum]
      rw [if_pos (by omega)]
      exact ih hlt

/-- The counter behind the loop. -/
theorem fillLoop_blk {b : ℕ} {d : Mem} (hi : i ≤ blkcnt)
    (h : info.fillLoop src blkcnt fuel i (blk % wide) dev = some (b, d)) :
    b = (blk + (blkcnt - i)) % wide := by
  induction fuel generalizing i blk dev with
  | zero =>
      rw [Storage.fillLoop] at h
      split_ifs at h with hlt
      obtain ⟨rfl, rfl⟩ := Prod.mk.inj (Option.some.inj h)
      rw [show blkcnt - i = 0 by omega, Nat.add_zero]
  | succ fuel ih =>
      rw [Storage.fillLoop] at h
      split_ifs at h with hlt
      · simp only at h
        generalize hj : (if blkcnt - i < 2 ^ 31 ∧ info.fillBufNumBlks < blkcnt - i then
          info.fillBufNumBlks else blkcnt - i) = j at h
        have hle : j ≤ blkcnt - i := by
          rw [← hj]
          split_ifs <;> omega
        rw [Nat.mod_add_mod] at h
        rw [ih (by omega) h]
        congr 1
        omega
      · obtain ⟨rfl, rfl⟩ := Prod.mk.inj (Option.some.inj h)
        rw [show blkcnt - i = 0 by omega, Nat.add_zero]

/-- The writes of a chunk that lies in the partition. -/
theorem fillWrites_inside (hstart : info.start ≤ blk)
    (hend : blk + (blkcnt - i) ≤ info.start + info.size) (hwrap : info.start + info.size < wide)
    (hi : i ≤ blkcnt) :
    ∀ r ∈ info.fillWrites blkcnt fuel i blk, info.Inside r := by
  induction fuel generalizing i blk with
  | zero => exact List.forall_mem_nil _
  | succ fuel ih =>
      rw [Storage.fillWrites]
      split_ifs with hlt
      · simp only
        generalize hj : (if blkcnt - i < 2 ^ 31 ∧ info.fillBufNumBlks < blkcnt - i then
          info.fillBufNumBlks else blkcnt - i) = j
        have hle : j ≤ blkcnt - i := by
          rw [← hj]
          split_ifs <;> omega
        refine List.forall_mem_cons.2 ⟨.inr ⟨hstart, ?_⟩, ?_⟩
        · change blk + j ≤ _
          omega
        · rw [Nat.mod_eq_of_lt (by omega)]
          exact ih (by omega) (by omega) (by omega)
      · exact List.forall_mem_nil _

/-- Writes that all lie in the partition leave no gap. -/
theorem blk_of_fillWrites_inside (hnum : 0 < info.fillBufNumBlks) (hfuel : blkcnt - i ≤ fuel)
    (hwrap : info.start + info.size < wide) (hlt : i < blkcnt)
    (h : ∀ r ∈ info.fillWrites blkcnt fuel i blk, info.Inside r) :
    info.start ≤ blk ∧ blk + (blkcnt - i) ≤ info.start + info.size := by
  induction fuel generalizing i blk with
  | zero => omega
  | succ fuel ih =>
      rw [Storage.fillWrites, if_pos hlt] at h
      simp only at h
      generalize hj : (if blkcnt - i < 2 ^ 31 ∧ info.fillBufNumBlks < blkcnt - i then
        info.fillBufNumBlks else blkcnt - i) = j at h
      have hle : 0 < j ∧ j ≤ blkcnt - i := by
        rw [← hj]
        split_ifs <;> omega
      obtain ⟨hfirst, hrest⟩ := List.forall_mem_cons.1 h
      rcases hfirst with hzero | ⟨hstart, hend⟩
      · change j = 0 at hzero
        omega
      change info.start ≤ blk at hstart
      change blk + j ≤ _ at hend
      by_cases hmore : i + j < blkcnt
      · rw [Nat.mod_eq_of_lt (by omega)] at hrest
        have := ih (by omega) hmore hrest
        omega
      · omega

/-- A FILL chunk that the guard lets pass. -/
theorem fill_iff (hblksz : 0 < info.blksz) (hwrap : info.start + info.size < wide)
    (hcnt : blkcnt * info.blksz < wide) (hguard : exceeds info blk blkcnt = false)
    (hblk : blk < wide) :
    ((∀ r ∈ info.fillWrites blkcnt blkcnt 0 blk, info.Inside r) ∧
      info.fillLoop src blkcnt blkcnt 0 blk dev ≠ none) ↔
    info.KeepsUp blk blkcnt ∧ (blkcnt = 0 ∨ info.blksz ≤ fillbufSize) := by
  unfold Storage.KeepsUp
  rw [Nat.mod_eq_of_lt hblk]
  rcases Nat.eq_zero_or_pos blkcnt with rfl | hpos
  · simp [Storage.fillWrites, Storage.fillLoop]
  have hnum : 0 < info.fillBufNumBlks ↔ info.blksz ≤ fillbufSize := by
    rw [Storage.fillBufNumBlks, Nat.div_pos_iff]
    exact ⟨fun h ↦ h.2, fun h ↦ ⟨hblksz, h⟩⟩
  simp only [hpos.ne', false_or]
  constructor
  · rintro ⟨hinside, hends⟩
    have hbuf : 0 < info.fillBufNumBlks := by
      by_contra hzero
      have hbig : fillbufSize < info.blksz := by
        rw [← not_le, ← hnum]
        exact hzero
      refine hends (fillLoop_eq_none (by omega) ?_ hpos)
      by_contra hge
      have hmul : 2 ^ 31 * fillbufSize ≤ blkcnt * info.blksz := Nat.mul_le_mul (by omega) hbig.le
      have : wide ≤ 2 ^ 31 * fillbufSize := by decide
      omega
    have := blk_of_fillWrites_inside hbuf (by omega) hwrap hpos hinside
    exact ⟨⟨this.1, by omega⟩, hnum.1 hbuf⟩
  · rintro ⟨⟨hstart, hlt⟩, hbuf⟩
    unfold exceeds at hguard
    rw [Nat.mod_eq_of_lt hwrap, Nat.mod_eq_of_lt hlt, decide_eq_false_iff_not, not_lt] at hguard
    exact ⟨fillWrites_inside hstart (by omega) hwrap (by omega),
      fillLoop_ne_none (hnum.2 hbuf) (by omega)⟩

/-! ## The loop over the chunks -/

section

variable {st : State} {chunk : ChunkHeader} (heap)

/-- The size that a chunk of type RAW or FILL has to give. -/
def wantedSize (header : SparseHeader) (chunk : ChunkHeader) : ℕ :=
  if chunk.chunkType = chunkTypeRaw then (header.chunkHdrSz + chunkDataSize header chunk) % wide
  else (header.chunkHdrSz + 4) % wide

theorem chunk_raw (hchunk : readChunkHeader image st.data = chunk)
    (htype : chunk.chunkType = chunkTypeRaw)
    (hsize : chunk.totalSz = (header.chunkHdrSz + chunkDataSize header chunk) % wide)
    (hguard : exceeds info st.blk (chunkDataSize header chunk / info.blksz) = false) :
    chunkWrites info header image st = [(st.blk, chunkDataSize header chunk / info.blksz)] ∧
      ∃ total dev, processChunk info header image heap st = some (.ok
        ⟨behindHeader header st.data + chunkDataSize header chunk,
          (st.blk + chunkDataSize header chunk / info.blksz) % wide, total, dev⟩) := by
  subst hchunk
  unfold chunkDataSize at hsize hguard
  unfold chunkWrites processChunk behindHeader chunkDataSize
  simp only [if_pos htype]
  rw [if_neg (by simp [hsize, hguard]), if_neg (not_not.2 hsize), if_neg (by simp [hguard])]
  exact ⟨rfl, _, _, rfl⟩

theorem chunk_fill (hchunk : readChunkHeader image st.data = chunk)
    (htype : chunk.chunkType = chunkTypeFill)
    (hsize : chunk.totalSz = (header.chunkHdrSz + 4) % wide)
    (hguard : exceeds info st.blk (chunkDataSize header chunk / info.blksz) = false) :
    chunkWrites info header image st = info.fillWrites (chunkDataSize header chunk / info.blksz)
        (chunkDataSize header chunk / info.blksz) 0 st.blk ∧
      ∃ src total, processChunk info header image heap st =
        if header.blkSz = 0 then none
        else (info.fillLoop src (chunkDataSize header chunk / info.blksz)
          (chunkDataSize header chunk / info.blksz) 0 st.blk st.dev).map
          fun r ↦ .ok ⟨behindHeader header st.data + 4, r.1, total, r.2⟩ := by
  subst hchunk
  have hraw : (readChunkHeader image st.data).chunkType ≠ chunkTypeRaw := by
    rw [htype]
    decide
  unfold chunkDataSize at hguard
  unfold chunkWrites processChunk behindHeader chunkDataSize
  simp only [if_neg hraw, if_pos htype]
  rw [if_neg (by simp [hsize, hguard]), if_neg (not_not.2 hsize), if_neg (by simp [hguard])]
  refine ⟨rfl, ?_⟩
  unfold divide
  by_cases hzero : header.blkSz = 0
  · simp only [if_pos hzero, Option.map_none, Option.bind_fun_none, exists_const]
  · simp only [if_neg hzero, Option.map_some]
    exact ⟨_, _, Option.map_eq_bind.symm⟩

/-- A chunk that is not written for its size or for the guard ends the call. -/
theorem chunk_refused (hchunk : readChunkHeader image st.data = chunk)
    (htype : chunk.chunkType = chunkTypeRaw ∨ chunk.chunkType = chunkTypeFill)
    (h : chunk.totalSz ≠ wantedSize header chunk ∨
      exceeds info st.blk (chunkDataSize header chunk / info.blksz) = true) :
    chunkWrites info header image st = [] ∧
      ∃ message, processChunk info header image heap st = some (.fail message st.dev) := by
  subst hchunk
  unfold wantedSize chunkDataSize at h
  unfold chunkWrites chunkDataSize processChunk
  rcases htype with hraw | hfill
  · simp only [if_pos hraw] at h ⊢
    refine ⟨if_pos h, ?_⟩
    by_cases hsize : (readChunkHeader image st.data).totalSz ≠ (header.chunkHdrSz +
      header.blkSz * (readChunkHeader image st.data).chunkSz % wide) % wide
    · rw [if_pos hsize]
      exact ⟨_, rfl⟩
    · rw [if_neg hsize, if_pos (h.resolve_left hsize)]
      exact ⟨_, rfl⟩
  · have hraw : (readChunkHeader image st.data).chunkType ≠ chunkTypeRaw := by
      rw [hfill]
      decide
    simp only [if_neg hraw, if_pos hfill] at h ⊢
    refine ⟨if_pos h, ?_⟩
    by_cases hsize : (readChunkHeader image st.data).totalSz ≠ (header.chunkHdrSz + 4) % wide
    · rw [if_pos hsize]
      exact ⟨_, rfl⟩
    · rw [if_neg hsize, if_pos (h.resolve_left hsize)]
      exact ⟨_, rfl⟩

theorem chunkWrites_other (hchunk : readChunkHeader image st.data = chunk)
    (hraw : chunk.chunkType ≠ chunkTypeRaw) (hfill : chunk.chunkType ≠ chunkTypeFill) :
    chunkWrites info header image st = [] := by
  subst hchunk
  unfold chunkWrites
  simp only [if_neg hraw, if_neg hfill]

theorem chunk_dontCare (hchunk : readChunkHeader image st.data = chunk)
    (hraw : chunk.chunkType ≠ chunkTypeRaw) (hfill : chunk.chunkType ≠ chunkTypeFill)
    (htype : chunk.chunkType = chunkTypeDontCare) :
    ∃ total, processChunk info header image heap st = some (.ok ⟨behindHeader header st.data,
      (st.blk + chunkDataSize header chunk / info.blksz) % wide, total, st.dev⟩) := by
  subst hchunk
  unfold processChunk behindHeader chunkDataSize
  simp only [if_neg hraw, if_neg hfill, if_pos htype]
  exact ⟨_, rfl⟩

/-- The chunks that neither write nor move the counter. -/
theorem chunk_passed (hchunk : readChunkHeader image st.data = chunk)
    (hraw : chunk.chunkType ≠ chunkTypeRaw) (hfill : chunk.chunkType ≠ chunkTypeFill)
    (hdont : chunk.chunkType ≠ chunkTypeDontCare) :
    if chunk.chunkType = chunkTypeCrc32 ∧ chunk.totalSz = header.chunkHdrSz then
      ∃ total, processChunk info header image heap st = some (.ok
        ⟨behindHeader header st.data + chunkDataSize header chunk, st.blk, total, st.dev⟩)
    else ∃ message, processChunk info header image heap st = some (.fail message st.dev) := by
  subst hchunk
  unfold processChunk behindHeader chunkDataSize
  simp only [if_neg hraw, if_neg hfill, if_neg hdont]
  by_cases hcrc : (readChunkHeader image st.data).chunkType = chunkTypeCrc32
  · by_cases hsize : (readChunkHeader image st.data).totalSz = header.chunkHdrSz
    · rw [if_pos ⟨hcrc, hsize⟩, if_pos hcrc, if_neg (not_not.2 hsize)]
      exact ⟨_, rfl⟩
    · rw [if_neg fun h ↦ hsize h.2, if_pos hcrc, if_pos hsize]
      exact ⟨_, rfl⟩
  · rw [if_neg fun h ↦ hcrc h.1, if_neg hcrc]
    exact ⟨_, rfl⟩

end

/-- The guard compares sums that may have come round. -/
theorem inside_iff_keepsUp (hwrap : info.start + info.size < wide) (hblk : blk < wide)
    (hguard : exceeds info blk blkcnt = false) : info.Inside (blk, blkcnt) ↔
    info.KeepsUp blk blkcnt := by
  unfold exceeds at hguard
  rw [Nat.mod_eq_of_lt hwrap, decide_eq_false_iff_not, not_lt] at hguard
  unfold Storage.Inside Storage.KeepsUp
  rw [Nat.mod_eq_of_lt hblk]
  apply or_congr_right
  constructor
  · rintro ⟨hstart, hend⟩
    exact ⟨hstart, hend.trans_lt hwrap⟩
  · rintro ⟨hstart, hlt⟩
    rw [Nat.mod_eq_of_lt hlt] at hguard
    exact ⟨hstart, hguard⟩

/-- The writes of the next `n` chunks lie in the partition, and the loop returns. -/
def Harmless (info : Storage) (header : SparseHeader) (image heap : Mem) (n : ℕ)
    (st : State) : Prop :=
  (∀ r ∈ chunksWrites info header image heap n st, info.Inside r) ∧
    processChunks info header image heap n st ≠ none

section

variable {n : ℕ} {st next : State} {chunk : ChunkHeader} {message : String} {d : Mem}

theorem harmless_of_fail (hnone : chunkWrites info header image st = [])
    (hfail : processChunk info header image heap st = some (.fail message d)) :
    Harmless info header image heap (n + 1) st := by
  unfold Harmless
  rw [chunksWrites, processChunks, hnone, hfail]
  exact ⟨List.forall_mem_nil _, Option.some_ne_none _⟩

theorem not_harmless_of_none (hnone : processChunk info header image heap st = none) :
    ¬Harmless info header image heap (n + 1) st := by
  unfold Harmless
  rw [processChunks, hnone]
  exact fun h ↦ h.2 rfl

theorem harmless_iff_of_ok (hok : processChunk info header image heap st = some (.ok next)) :
    Harmless info header image heap (n + 1) st ↔
      (∀ r ∈ chunkWrites info header image st, info.Inside r) ∧
        Harmless info header image heap n next := by
  unfold Harmless
  rw [chunksWrites, processChunks, hok, List.forall_mem_append]
  exact and_assoc

/-- A chunk that ends the call does no harm. -/
theorem harmless_of_refused (hchunk : readChunkHeader image st.data = chunk)
    (htype : chunk.chunkType = chunkTypeRaw ∨ chunk.chunkType = chunkTypeFill)
    (h : ¬(chunk.totalSz = wantedSize header chunk ∧
      exceeds info st.blk (chunkDataSize header chunk / info.blksz) = false)) :
    Harmless info header image heap (n + 1) st := by
  obtain ⟨hnone, message, hfail⟩ :=
    @chunk_refused info header image heap st chunk hchunk htype
      (by rwa [not_and_or, Bool.not_eq_false] at h)
  exact harmless_of_fail hnone hfail

/-! One lemma for each type of chunk, given the equivalence for the chunks behind it. -/

variable (ih : ∀ {next : State} {pos : ℕ}, next.blk = pos % wide →
  (Harmless info header image heap n next ↔ Tame info header image n next.data pos))
  (hchunk : readChunkHeader image st.data = chunk) (hblk : st.blk = pos % wide)

include ih hchunk hblk

theorem harmless_raw_iff (hwrap : info.start + info.size < wide)
    (htype : chunk.chunkType = chunkTypeRaw) :
    Harmless info header image heap (n + 1) st ↔
      (chunk.totalSz = (header.chunkHdrSz + chunkDataSize header chunk) % wide →
        exceeds info pos (chunkDataSize header chunk / info.blksz) = false →
        info.KeepsUp pos (chunkDataSize header chunk / info.blksz) ∧
          Tame info header image n
            (behindHeader header st.data + chunkDataSize header chunk)
            (pos + chunkDataSize header chunk / info.blksz)) := by
  have hwanted : wantedSize header chunk = _ := if_pos htype
  have hmod := @exceeds_mod info pos (chunkDataSize header chunk / info.blksz)
  by_cases hgoes : chunk.totalSz = wantedSize header chunk ∧
    exceeds info st.blk (chunkDataSize header chunk / info.blksz) = false
  swap
  · refine iff_of_true (harmless_of_refused hchunk (.inl htype) hgoes) fun hsize hguard ↦ ?_
    exact absurd ⟨hsize.trans hwanted.symm, by rwa [hblk, hmod]⟩ hgoes
  obtain ⟨hsize, hguard⟩ := hgoes
  rw [hwanted] at hsize
  obtain ⟨hwrites, total, dev, hok⟩ := chunk_raw heap hchunk htype hsize hguard
  rw [harmless_iff_of_ok hok, hwrites, List.forall_mem_singleton,
    @ih _ (pos + chunkDataSize header chunk / info.blksz) (by rw [hblk, Nat.mod_add_mod])]
  rw [hblk] at hguard ⊢
  rw [inside_iff_keepsUp hwrap (Nat.mod_lt _ (by decide)) hguard, KeepsUp_mod]
  exact ⟨fun h _ _ ↦ h, fun h ↦ h hsize (hmod ▸ hguard)⟩

theorem harmless_fill_iff (hblksz : 0 < info.blksz) (hwrap : info.start + info.size < wide)
    (htype : chunk.chunkType = chunkTypeFill) :
    Harmless info header image heap (n + 1) st ↔
      (chunk.totalSz = (header.chunkHdrSz + 4) % wide →
        exceeds info pos (chunkDataSize header chunk / info.blksz) = false →
        (info.KeepsUp pos (chunkDataSize header chunk / info.blksz) ∧
          (chunkDataSize header chunk / info.blksz = 0 ∨ info.blksz ≤ fillbufSize)) ∧
          header.blkSz ≠ 0 ∧ Tame info header image n (behindHeader header st.data + 4)
            (pos + chunkDataSize header chunk / info.blksz)) := by
  have hwanted : wantedSize header chunk = (header.chunkHdrSz + 4) % wide := by
    rw [wantedSize, htype, if_neg (by decide)]
  have hmod := @exceeds_mod info pos (chunkDataSize header chunk / info.blksz)
  by_cases hgoes : chunk.totalSz = wantedSize header chunk ∧
    exceeds info st.blk (chunkDataSize header chunk / info.blksz) = false
  swap
  · refine iff_of_true (harmless_of_refused hchunk (.inr htype) hgoes) fun hsize hguard ↦ ?_
    exact absurd ⟨hsize.trans hwanted.symm, by rwa [hblk, hmod]⟩ hgoes
  obtain ⟨hsize, hguard⟩ := hgoes
  rw [hwanted] at hsize
  have hpasses : exceeds info pos (chunkDataSize header chunk / info.blksz) = false := by
    rwa [hblk, hmod] at hguard
  obtain ⟨hwrites, src, total, hok⟩ := chunk_fill heap hchunk htype hsize hguard
  by_cases hzero : header.blkSz = 0
  · rw [if_pos hzero] at hok
    exact iff_of_false (not_harmless_of_none hok) fun h ↦ (h hsize hpasses).2.1 hzero
  rw [if_neg hzero] at hok
  have hlt : st.blk < wide := hblk ▸ Nat.mod_lt _ (by decide)
  have hcnt : chunkDataSize header chunk / info.blksz * info.blksz < wide :=
    (Nat.div_mul_le_self _ _).trans_lt (Nat.mod_lt _ (by decide))
  have hfill := @fill_iff info src st.dev _ _ hblksz hwrap hcnt hguard hlt
  rw [← KeepsUp_mod, ← hblk, ← hfill, ← hwrites]
  cases hloop : info.fillLoop src (chunkDataSize header chunk / info.blksz)
    (chunkDataSize header chunk / info.blksz) 0 st.blk st.dev with
  | none =>
      rw [hloop] at hok
      exact iff_of_false (not_harmless_of_none hok) fun h ↦ (h hsize hpasses).1.2 rfl
  | some r =>
      rw [hloop] at hok
      have hend := @fillLoop_blk info src st.dev _ _ 0 st.blk r.1 r.2 (Nat.zero_le _)
        (by rwa [Nat.mod_eq_of_lt hlt])
      rw [Nat.sub_zero, hblk, Nat.mod_add_mod] at hend
      rw [harmless_iff_of_ok hok, ih hend]
      exact ⟨fun h _ _ ↦ ⟨⟨h.1, Option.some_ne_none _⟩, hzero, h.2⟩,
        fun h ↦ ⟨(h hsize hpasses).1.1, (h hsize hpasses).2.2⟩⟩

theorem harmless_dontCare_iff (hraw : chunk.chunkType ≠ chunkTypeRaw)
    (hfill : chunk.chunkType ≠ chunkTypeFill) (htype : chunk.chunkType = chunkTypeDontCare) :
    Harmless info header image heap (n + 1) st ↔
      Tame info header image n (behindHeader header st.data)
        (pos + chunkDataSize header chunk / info.blksz) := by
  obtain ⟨total, hok⟩ := chunk_dontCare heap hchunk hraw hfill htype
  rw [harmless_iff_of_ok hok, chunkWrites_other hchunk hraw hfill,
    and_iff_right (List.forall_mem_nil _)]
  exact ih (by rw [hblk, Nat.mod_add_mod])

theorem harmless_passed_iff (hraw : chunk.chunkType ≠ chunkTypeRaw)
    (hfill : chunk.chunkType ≠ chunkTypeFill) (hdont : chunk.chunkType ≠ chunkTypeDontCare) :
    Harmless info header image heap (n + 1) st ↔
      (chunk.chunkType = chunkTypeCrc32 ∧ chunk.totalSz = header.chunkHdrSz →
        Tame info header image n (behindHeader header st.data + chunkDataSize header chunk)
          pos) := by
  have hnone := @chunkWrites_other info header image st chunk hchunk hraw hfill
  have hpassed := @chunk_passed info header image heap st chunk hchunk hraw hfill hdont
  split_ifs at hpassed with hgoes
  · obtain ⟨total, hok⟩ := hpassed
    rw [harmless_iff_of_ok hok, hnone, and_iff_right (List.forall_mem_nil _),
      imp_iff_right hgoes]
    exact ih hblk
  · obtain ⟨message, hfail⟩ := hpassed
    exact iff_of_true (harmless_of_fail hnone hfail) fun h ↦ absurd h hgoes

end

theorem chunks_iff (hblksz : 0 < info.blksz) (hwrap : info.start + info.size < wide) (n : ℕ)
    (st : State) (hblk : st.blk = pos % wide) :
    Harmless info header image heap n st ↔ Tame info header image n st.data pos := by
  induction n generalizing st pos with
  | zero => simp [Harmless, chunksWrites, processChunks, Tame]
  | succ n ih =>
      rw [Tame]
      generalize hchunk : readChunkHeader image st.data = chunk
      split_ifs with hraw hfill hdont hcrc
      · exact harmless_raw_iff (ih _) hchunk hblk hwrap hraw
      · exact harmless_fill_iff (ih _) hchunk hblk hblksz hwrap hfill
      · exact harmless_dontCare_iff (ih _) hchunk hblk hraw hfill hdont
      · rw [harmless_passed_iff (ih _) hchunk hblk hraw hfill hdont, and_iff_right hcrc]
      · rw [harmless_passed_iff (ih _) hchunk hblk hraw hfill hdont]
        exact iff_true_intro fun h ↦ absurd h.1 hcrc

/-! ## The whole call -/

/-- The writes of a call stay in the partition, and the call returns, just where the counter keeps
up. -/
theorem sparseWrites_inside_iff {data : ℕ} (hblksz : 0 < info.blksz)
    (haccept : (readSparseHeader image data).blkSz % info.blksz = 0) (hsize : 0 < info.size)
    (hwrap : info.start + info.size < wide) :
    ((∀ r ∈ sparseWrites info image heap data dev, info.Inside r) ∧
      writeSparseImage info image heap data dev ≠ none) ↔ TameImage info image data := by
  have hstart : info.start = info.start % wide := (Nat.mod_eq_of_lt (by omega)).symm
  unfold sparseWrites writeSparseImage TameImage
  simp only
  rw [if_neg (not_not.2 haccept), if_neg (not_not.2 haccept)]
  generalize (if sparseHeaderSize < (readSparseHeader image data).fileHdrSz then _ else _) = first
  rw [← @chunks_iff info _ image heap info.start hblksz hwrap _ ⟨first, info.start, 0, dev⟩ hstart]
  apply and_congr_right'
  cases hloop : processChunks info (readSparseHeader image data) image heap
    (readSparseHeader image data).totalChunks ⟨first, info.start, 0, dev⟩ with
  | none => simp
  | some out =>
      cases out with
      | fail message dev => simp
      | ok st =>
          simp only [ne_eq, reduceCtorEq, not_false_eq_true, iff_true]
          split_ifs <;> simp

end

/-- A hundred skipped blocks take the counter round to the first block of the device. -/
theorem not_sparseWrites_inside_wrap :
    ¬∀ (info : Storage) (image heap dev : Mem) (data : ℕ), 0 < info.blksz →
      (readSparseHeader image data).blkSz % info.blksz = 0 → 0 < info.size →
      info.start + info.size < wide →
      (∀ r ∈ sparseWrites info image heap data dev, info.Inside r) ∧
        writeSparseImage info image heap data dev ≠ none := by
  intro h
  have hwrites : sparseWrites ⟨512, 2 ^ 32 - 100, 10⟩ (Mem.write (fun _ ↦ 0) 0
      (Image.encode ⟨0, 512, 0, [], 12,
        [⟨0, [], 100, .dontCare⟩, ⟨0, [], 1, .fill [7, 7, 7, 7]⟩]⟩))
      (fun _ ↦ 0) 0 (fun _ ↦ 0) = [(0, 1)] := rfl
  have hinside := (h ⟨512, 2 ^ 32 - 100, 10⟩ (Mem.write (fun _ ↦ 0) 0
      (Image.encode ⟨0, 512, 0, [], 12,
        [⟨0, [], 100, .dontCare⟩, ⟨0, [], 1, .fill [7, 7, 7, 7]⟩]⟩))
      (fun _ ↦ 0) (fun _ ↦ 0) 0 (by decide) rfl (by decide) (by decide)).1
  rw [hwrites, List.forall_mem_singleton] at hinside
  revert hinside
  unfold Storage.Inside
  decide

/-- A block of data that is written to the one block of the partition. -/
theorem sparseWrites_inside_iff_block :
    (∀ r ∈ sparseWrites ⟨4, 1, 1⟩ (Mem.write (fun _ ↦ 0) 0
        (Image.encode ⟨0, 4, 0, [], 12, [⟨0, [], 1, .raw [1, 2, 3, 4]⟩]⟩)) (fun _ ↦ 0) 0
          (fun _ ↦ 0),
        Storage.Inside ⟨4, 1, 1⟩ r) ∧
      writeSparseImage ⟨4, 1, 1⟩ (Mem.write (fun _ ↦ 0) 0
        (Image.encode ⟨0, 4, 0, [], 12, [⟨0, [], 1, .raw [1, 2, 3, 4]⟩]⟩)) (fun _ ↦ 0) 0
          (fun _ ↦ 0) ≠
        none := by
  refine (sparseWrites_inside_iff (by decide) rfl (by decide) (by decide)).2 ?_
  exact fun _ _ ↦ ⟨.inr ⟨by decide, by decide⟩, trivial⟩

end MiniPi.Sparse
