import MiniPi.Sparse.Image

/-!
# Expanding an image

The loop over the chunks keeps its cursor at the next chunk, its block counter at the place
of the chunk and its total at the blocks passed.  Where the counter has fallen behind, after
a DONT_CARE chunk that is too large, nothing more is written.
-/

namespace MiniPi.Sparse

open Lib

variable {info : Storage} {image heap dev : Mem} {val : List UInt8} {blkcnt blk : ℕ}

/-! ## The fill buffer -/

theorem slice_fillBuf {n : ℕ} (hn : n ≤ info.blksz * info.fillBufNumBlks / 4 * 4) :
    (info.fillBuf heap val).slice 0 n = fillBytes val n := by
  refine List.map_congr_left fun i hi ↦ ?_
  have hlt := List.mem_range.mp hi
  rw [Storage.fillBuf, Nat.zero_add, if_pos (by omega)]

/-- One write from the fill buffer goes on where the bytes end. -/
theorem write_fillBuf {i j : ℕ} (hwords : 4 ∣ info.blksz * i)
    (hj : info.blksz * j ≤ info.blksz * info.fillBufNumBlks / 4 * 4) :
    info.write (dev.write (info.blksz * blk) (fillBytes val (info.blksz * i))) (blk + i) j
        (info.fillBuf heap val) 0 =
      dev.write (info.blksz * blk) (fillBytes val (info.blksz * (i + j))) := by
  have happend := Mem.write_append dev (info.blksz * blk) (fillBytes val (info.blksz * i))
    (fillBytes val (info.blksz * j))
  rw [length_fillBytes, ← Nat.mul_add] at happend
  rw [Storage.write, slice_fillBuf hj, happend, Nat.mul_add, fillBytes_add val _ hwords]

/-- The loop over the blocks of a FILL chunk, when the buffer consists of words. -/
theorem fillLoop_words (hwords : 4 ∣ info.blksz * info.fillBufNumBlks)
    (hpos : 0 < info.fillBufNumBlks) (hcnt : blkcnt < 2 ^ 31) (hblk : blk + blkcnt < wide)
    (fuel i : ℕ) (hfuel : blkcnt - i ≤ fuel) (hi : i ≤ blkcnt)
    (haligned : i < blkcnt → 4 ∣ info.blksz * i) :
    info.fillLoop (info.fillBuf heap val) blkcnt fuel i (blk + i)
        (dev.write (info.blksz * blk) (fillBytes val (info.blksz * i))) =
      some (blk + blkcnt, dev.write (info.blksz * blk) (fillBytes val (info.blksz * blkcnt))) := by
  induction fuel generalizing i with
  | zero =>
    obtain rfl : i = blkcnt := by omega
    rw [Storage.fillLoop, if_neg (Nat.lt_irrefl _)]
  | succ fuel ih =>
    rw [Storage.fillLoop]
    by_cases hlt : i < blkcnt
    · rw [if_pos hlt]
      have hfull : info.blksz * info.fillBufNumBlks / 4 * 4 = info.blksz * info.fillBufNumBlks :=
        Nat.div_mul_cancel hwords
      by_cases hbig : blkcnt - i < 2 ^ 31 ∧ info.fillBufNumBlks < blkcnt - i
      · -- a whole buffer
        simp only [if_pos hbig]
        rw [write_fillBuf (haligned hlt) hfull.ge, Nat.add_assoc, Nat.mod_eq_of_lt (by omega)]
        refine ih _ (by omega) (by omega) fun _ ↦ ?_
        rw [Nat.mul_add]
        exact Nat.dvd_add (haligned hlt) hwords
      · simp only [if_neg hbig]
        have hle : blkcnt - i ≤ info.fillBufNumBlks := by omega
        rw [write_fillBuf (haligned hlt) ((Nat.mul_le_mul_left _ hle).trans hfull.ge),
          Nat.add_assoc, Nat.mod_eq_of_lt (by omega)]
        exact ih _ (by omega) (by omega) fun h ↦ by omega
    · obtain rfl : i = blkcnt := by omega
      rw [if_neg hlt]

/-- The loop over the blocks of a FILL chunk that the buffer serves for. -/
theorem fillLoop_spec (hok : FillOk info (info.blksz * blkcnt)) (hblksz : 0 < info.blksz)
    (hblk : blk + blkcnt < wide) :
    info.fillLoop (info.fillBuf heap val) blkcnt blkcnt 0 blk dev =
      some (blk + blkcnt, dev.write (info.blksz * blk) (fillBytes val (info.blksz * blkcnt))) := by
  have hstart : dev = dev.write (info.blksz * blk) (fillBytes val (info.blksz * 0)) :=
    (Mem.write_nil dev _).symm
  rcases Nat.eq_zero_or_pos blkcnt with rfl | hpos
  · rw [Storage.fillLoop, if_neg (Nat.lt_irrefl _), ← hstart]
    rfl
  have hcnt := hok.signed
  rw [Nat.mul_div_cancel_left _ hblksz] at hcnt
  have hnum := hok.buffer (Nat.mul_pos hblksz hpos).ne'
  rcases hok.words with hwords | hone
  · have hloop := @fillLoop_words info heap dev val blkcnt blk hwords hnum hcnt hblk blkcnt 0
      (by omega) (by omega) fun _ ↦ ⟨0, rfl⟩
    rwa [← hstart] at hloop
  · -- all blocks are written at once
    have hle : blkcnt ≤ info.fillBufNumBlks := by
      have hdiv := Nat.div_mul_le_self (info.blksz * info.fillBufNumBlks) 4
      exact Nat.le_of_mul_le_mul_left (hone.trans hdiv) hblksz
    obtain ⟨fuel, rfl⟩ := Nat.exists_eq_succ_of_ne_zero hpos.ne'
    have hwrite := @write_fillBuf info heap dev val blk 0 (fuel + 1) ⟨0, rfl⟩ hone
    rw [← hstart, Nat.add_zero, Nat.zero_add] at hwrite
    have hsmall : ¬(fuel + 1 < 2 ^ 31 ∧ info.fillBufNumBlks < fuel + 1) := by omega
    rw [Storage.fillLoop, if_pos hpos]
    simp only [Nat.sub_zero, if_neg hsmall, Nat.zero_add]
    rw [hwrite, Nat.mod_eq_of_lt hblk]
    cases fuel with
    | zero => rfl
    | succ fuel => rw [Storage.fillLoop, if_neg (Nat.lt_irrefl _)]

/-! ## One chunk -/

/-- What the chunks are read with: the header of a well-formed image and a partition that
holds the expansion. -/
structure Setting (info : Storage) (header : SparseHeader) : Prop where
  blksz : 0 < info.blksz
  blocks : info.blksz ∣ header.blkSz
  blkPos : 0 < header.blkSz
  device : info.start + info.size < wide
  chunkHdr : header.chunkHdrSz < 2 ^ 16

variable {header : SparseHeader} {st : State} {c : Chunk} {cs : List Chunk} {pos : ℕ}

/-- The blocks of the device that a chunk stands for. -/
def deviceBlocks (info : Storage) (header : SparseHeader) (n : ℕ) : ℕ :=
  n * (header.blkSz / info.blksz)

theorem Setting.blksz_mul (hset : Setting info header) (n : ℕ) :
    info.blksz * deviceBlocks info header n = n * header.blkSz := by
  rw [deviceBlocks, Nat.mul_left_comm, Nat.mul_div_cancel' hset.blocks]

theorem Setting.div_blksz (hset : Setting info header) (n : ℕ) :
    n * header.blkSz / info.blksz = deviceBlocks info header n := by
  rw [deviceBlocks, Nat.mul_div_assoc _ hset.blocks]

/-- A state of the loop in front of the chunks `cs`, with the place `pos` of the next one on
the device: the counter is at that place, or behind it while nothing more is written. -/
structure Ready (info : Storage) (header : SparseHeader) (image : Mem) (cs : List Chunk) (pos : ℕ)
    (st : State) : Prop where
  cursor : image.At st.data (cs.flatMap (Chunk.encode header.chunkHdrSz))
  total : st.totalBlocks + totalBlocks cs < wide
  fits : st.blk + deviceBlocks info header (totalBlocks cs) ≤ info.start + info.size
  place : info.blksz * st.blk = pos ∨ ∀ d ∈ cs, d.body.Writes → d.blocks = 0

theorem deviceBlocks_add (m n : ℕ) :
    deviceBlocks info header (m + n) = deviceBlocks info header m + deviceBlocks info header n :=
  Nat.add_mul _ _ _

@[simp] theorem totalBlocks_cons (c : Chunk) (cs : List Chunk) :
    totalBlocks (c :: cs) = c.blocks + totalBlocks cs := by
  simp [totalBlocks]

/-- The check of the partition's end passes. -/
theorem Ready.exceeds_eq (h : Ready info header image (c :: cs) pos st)
    (hset : Setting info header) {n : ℕ} (hn : n ≤ deviceBlocks info header c.blocks) :
    exceeds info st.blk n = false := by
  have hfits := h.fits
  have hdev := hset.device
  rw [totalBlocks_cons, deviceBlocks_add] at hfits
  rw [exceeds, Nat.mod_eq_of_lt hdev, Nat.mod_eq_of_lt (by omega), decide_eq_false_iff_not]
  omega

/-- The bytes of a chunk go to its place. -/
theorem Ready.write_eq (h : Ready info header image (c :: cs) pos st) (hwrites : c.body.Writes)
    (dev : Mem) {bs : List UInt8} (hlength : bs.length = c.blocks * header.blkSz) :
    dev.write (info.blksz * st.blk) bs = dev.write pos bs := by
  rcases h.place with hpos | hnone
  · rw [hpos]
  · rw [hnone c List.mem_cons_self hwrites, Nat.zero_mul] at hlength
    rw [List.length_eq_zero_iff.1 hlength, Mem.write_nil, Mem.write_nil]

/-- The state after a chunk. -/
theorem Ready.next (h : Ready info header image (c :: cs) pos st) (hset : Setting info header)
    (hc : chunkHeaderSize + c.ext.length = header.chunkHdrSz) {n : ℕ}
    (hn : n ≤ deviceBlocks info header c.blocks) (dev : Mem)
    (hplace : info.blksz * st.blk = pos → n = deviceBlocks info header c.blocks ∨
      ∀ d ∈ cs, d.body.Writes → d.blocks = 0) :
    Ready info header image cs (pos + c.blocks * header.blkSz)
      ⟨st.data + header.chunkHdrSz + c.body.payload.length, st.blk + n, st.totalBlocks + c.blocks,
        dev⟩ := by
  have hcursor := h.cursor
  have htotal := h.total
  have hfits := h.fits
  rw [List.flatMap_cons, Mem.at_append, Chunk.length_encode hc] at hcursor
  rw [totalBlocks_cons, deviceBlocks_add] at hfits
  rw [totalBlocks_cons] at htotal
  refine ⟨?_, ?_, ?_, ?_⟩
  · rw [Nat.add_assoc]
    exact hcursor.2
  · rwa [Nat.add_assoc]
  · change st.blk + n + _ ≤ _
    omega
  · rcases h.place with hpos | hnone
    · rcases hplace hpos with rfl | hnone
      · refine Or.inl ?_
        rw [Nat.mul_add, hpos, hset.blksz_mul]
      · exact Or.inr hnone
    · exact Or.inr fun d hd ↦ hnone d (List.mem_cons_of_mem _ hd)

/-- What the round finds at the cursor. -/
theorem Ready.reads (h : Ready info header image (c :: cs) pos st)
    (hwf : c.WellFormed header.blkSz header.chunkHdrSz) :
    readChunkHeader image st.data =
        ⟨c.body.chunkType, c.blocks, header.chunkHdrSz + c.body.payload.length⟩ ∧
      image.At (st.data + header.chunkHdrSz) c.body.payload := by
  have hcursor := h.cursor
  have htotal := h.total
  rw [List.flatMap_cons, Mem.at_append] at hcursor
  rw [totalBlocks_cons] at htotal
  exact chunk_at hcursor.1 hwf.header (by omega) hwf.fits

/-- The sums of the counters do not wrap. -/
theorem Ready.blk_mod (h : Ready info header image (c :: cs) pos st)
    (hset : Setting info header) {n : ℕ} (hn : n ≤ deviceBlocks info header c.blocks) :
    (st.blk + n) % wide = st.blk + n := by
  have hfits := h.fits
  have hdev := hset.device
  rw [totalBlocks_cons, deviceBlocks_add] at hfits
  exact Nat.mod_eq_of_lt (by omega)

theorem Ready.total_mod (h : Ready info header image (c :: cs) pos st) :
    (st.totalBlocks + c.blocks) % wide = st.totalBlocks + c.blocks := by
  have htotal := h.total
  rw [totalBlocks_cons] at htotal
  exact Nat.mod_eq_of_lt (by omega)

theorem Chunk.WellFormed.headerEnd (hwf : c.WellFormed header.blkSz header.chunkHdrSz) (a : ℕ) :
    (if chunkHeaderSize < header.chunkHdrSz then
      a + chunkHeaderSize + (header.chunkHdrSz - chunkHeaderSize) else a + chunkHeaderSize) =
      a + header.chunkHdrSz := by
  have hhdr := hwf.header
  split_ifs <;> omega

/-- A round that puts the chunk in its place and goes on to the next. -/
def Applied (info : Storage) (header : SparseHeader) (image heap : Mem) (c : Chunk)
    (cs : List Chunk) (pos : ℕ) (st : State) : Prop :=
  ∃ st', processChunk info header image heap st = some (.ok st') ∧
    Ready info header image cs (pos + c.blocks * header.blkSz) st' ∧
    st'.totalBlocks = st.totalBlocks + c.blocks ∧ st'.dev = c.apply header.blkSz pos st.dev

section

variable (hset : Setting info header) (hready : Ready info header image (c :: cs) pos st)
  (hwf : c.WellFormed header.blkSz header.chunkHdrSz)

include hset hready hwf

theorem applied_raw {data : List UInt8} (hbody : c.body = .raw data) :
    Applied info header image heap c cs pos st := by
  obtain ⟨hread, hpayload⟩ := hready.reads hwf
  have hnext := @Ready.next info image header st c cs pos hready hset hwf.header
  have hsized := hwf.sized
  have hfit := hwf.fits
  rw [hbody] at hsized hpayload hfit hnext hread
  have hlength : data.length = c.blocks * header.blkSz := hsized
  have hsz : header.blkSz * c.blocks % wide = c.blocks * header.blkSz := by
    rw [Nat.mul_comm, ← hlength, Nat.mod_eq_of_lt (by simp only [Body.payload] at hfit; omega)]
  have htype : (Body.raw data).chunkType = chunkTypeRaw := rfl
  unfold Applied
  rw [processChunk, hread]
  simp only [hwf.headerEnd]
  rw [hsz, hset.div_blksz, if_pos htype, if_neg, if_neg]
  · refine ⟨_, rfl, ?_, hready.total_mod, ?_⟩
    · rw [hready.blk_mod hset le_rfl, hready.total_mod]
      rw [show (Body.raw data).payload.length = c.blocks * header.blkSz from hlength] at hnext
      exact hnext le_rfl _ fun _ ↦ Or.inl rfl
    · simp only [Chunk.apply, hbody, Storage.write, hset.blksz_mul]
      have hslice : image.slice (st.data + header.chunkHdrSz) data.length = data := hpayload
      rw [← hlength, hslice]
      exact hready.write_eq (by rw [hbody]; trivial) _ hlength
  · rw [hready.exceeds_eq hset le_rfl]
    exact Bool.false_ne_true
  · rw [not_not, Body.payload, hlength, Nat.mod_eq_of_lt]
    rwa [← hlength]

theorem applied_fill {val : List UInt8} (hbody : c.body = .fill val)
    (hfill : FillOk info (c.blocks * header.blkSz)) :
    Applied info header image heap c cs pos st := by
  obtain ⟨hread, hpayload⟩ := hready.reads hwf
  have hnext := @Ready.next info image header st c cs pos hready hset hwf.header
  have hsized := hwf.sized
  have hfit := hwf.fits
  rw [hbody] at hsized hpayload hfit hnext hread
  have hlength : val.length = 4 := hsized
  have hsz : header.blkSz * c.blocks % wide = c.blocks * header.blkSz := by
    rw [Nat.mul_comm, Nat.mod_eq_of_lt hfill.fits]
  have hslice : image.slice (st.data + header.chunkHdrSz) 4 = val := by
    rw [← hlength]
    exact hpayload
  have hraw : (Body.fill val).chunkType ≠ chunkTypeRaw :=
    show chunkTypeFill ≠ chunkTypeRaw by decide
  have htype : (Body.fill val).chunkType = chunkTypeFill := rfl
  have hlt : st.blk + deviceBlocks info header c.blocks < wide :=
    hready.blk_mod hset le_rfl ▸ Nat.mod_lt _ (by decide)
  unfold Applied
  rw [processChunk, hread]
  simp only [hwf.headerEnd]
  rw [hsz, hset.div_blksz, if_neg hraw, if_pos htype, if_neg, if_neg, hslice,
    @fillLoop_spec info heap st.dev val _ st.blk (by rwa [hset.blksz_mul]) hset.blksz hlt,
    Option.bind_some, divide, if_neg hset.blkPos.ne']
  · refine ⟨_, rfl, ?_, ?_, ?_⟩
    · dsimp only
      rw [Nat.mul_div_cancel _ hset.blkPos, hready.total_mod, ← hlength]
      exact hnext le_rfl _ fun _ ↦ Or.inl rfl
    · dsimp only
      rw [Nat.mul_div_cancel _ hset.blkPos, hready.total_mod]
    · simp only [Chunk.apply, hbody, hset.blksz_mul]
      exact hready.write_eq (by rw [hbody]; trivial) _ (length_fillBytes _ _)
  · rw [hready.exceeds_eq hset le_rfl]
    exact Bool.false_ne_true
  · rw [not_not, Body.payload, hlength, Nat.mod_eq_of_lt]
    rw [Body.payload, hlength] at hfit
    exact hfit

theorem applied_dontCare (hbody : c.body = .dontCare)
    (hcond : c.blocks * header.blkSz < wide ∨ ∀ d ∈ cs, d.body.Writes → d.blocks = 0) :
    Applied info header image heap c cs pos st := by
  obtain ⟨hread, -⟩ := hready.reads hwf
  have hnext := @Ready.next info image header st c cs pos hready hset hwf.header
  rw [hbody] at hread hnext
  have hmod : header.blkSz * c.blocks % wide / info.blksz ≤ deviceBlocks info header c.blocks := by
    rw [Nat.mul_comm, ← hset.div_blksz]
    exact Nat.div_le_div_right (Nat.mod_le _ _)
  have htype : Body.dontCare.chunkType = chunkTypeDontCare := rfl
  unfold Applied
  rw [processChunk, hread]
  simp only [hwf.headerEnd]
  rw [if_neg (by decide), if_neg (by decide), if_pos htype]
  refine ⟨_, rfl, ?_, hready.total_mod, ?_⟩
  · rw [hready.blk_mod hset hmod, hready.total_mod]
    refine hnext hmod _ fun _ ↦ ?_
    rcases hcond with hsmall | hnone
    · rw [Nat.mul_comm, Nat.mod_eq_of_lt hsmall, hset.div_blksz]
      exact Or.inl rfl
    · exact Or.inr hnone
  · simp only [Chunk.apply, hbody]

theorem processChunk_spec (hok : ChunksOk info header.blkSz (c :: cs)) :
    Applied info header image heap c cs pos st := by
  have hcond := hok.1
  cases hbody : c.body with
  | raw data => exact applied_raw hset hready hwf hbody
  | fill val =>
    rw [hbody] at hcond
    exact applied_fill hset hready hwf hbody hcond
  | dontCare =>
    rw [hbody] at hcond
    exact applied_dontCare hset hready hwf hbody hcond
  | crc32 crc =>
    -- The code skips the bytes of the blocks here, where the image has four bytes of checksum.
    rw [hbody] at hcond
    exact absurd hcond id

end

variable (heap) in
/-- The loop over the chunks expands them. -/
theorem processChunks_spec (hset : Setting info header) (cs : List Chunk) (pos : ℕ) (st : State)
    (hready : Ready info header image cs pos st)
    (hwf : ∀ c ∈ cs, c.WellFormed header.blkSz header.chunkHdrSz)
    (hok : ChunksOk info header.blkSz cs) :
    ∃ st', processChunks info header image heap cs.length st = some (.ok st') ∧
      st'.totalBlocks = st.totalBlocks + totalBlocks cs ∧
      st'.dev = expand header.blkSz pos cs st.dev := by
  induction cs generalizing pos st with
  | nil => exact ⟨st, rfl, rfl, rfl⟩
  | cons c cs ih =>
    obtain ⟨hc, hcs⟩ := List.forall_mem_cons.mp hwf
    obtain ⟨st₁, hstep, hready₁, htotal₁, hdev₁⟩ :=
      @processChunk_spec info image heap header st c cs pos hset hready hc hok
    obtain ⟨st₂, hloop, htotal₂, hdev₂⟩ := ih _ st₁ hready₁ hcs hok.2
    refine ⟨st₂, ?_, ?_, ?_⟩
    · rw [List.length_cons, processChunks, hstep]
      exact hloop
    · rw [htotal₂, htotal₁, totalBlocks_cons, Nat.add_assoc]
    · rw [hdev₂, hdev₁]
      rfl

/-- An image that the code expands: the call returns `0`, and the device holds the expansion
from the start of the partition on. -/
theorem writeSparseImage_expands (info : Storage) (img : Image) (image heap dev : Mem) (data : ℕ)
    (hwf : img.WellFormed) (hholds : Holds info img) (himage : image.At data img.encode)
    (hexp : img.Expandable info) :
    writeSparseImage info image heap data dev =
      some (.ok (expand img.blkSz (info.blksz * info.start) img.chunks dev)) := by
  obtain ⟨hread, hchunks⟩ := image_at himage hwf
  rw [writeSparseImage, hread]
  dsimp only
  have hset : Setting info ⟨sparseHeaderSize + img.fileExt.length, img.chunkHdrSz, img.blkSz,
      totalBlocks img.chunks, img.chunks.length⟩ :=
    ⟨hholds.blksz, hholds.blocks, hwf.blkPos, hholds.device, hwf.chunkHdr⟩
  rw [if_neg (not_not.mpr (Nat.mod_eq_zero_of_dvd hholds.blocks))]
  generalize hd : (if sparseHeaderSize < sparseHeaderSize + img.fileExt.length then
    data + (sparseHeaderSize + img.fileExt.length) +
      (sparseHeaderSize + img.fileExt.length - sparseHeaderSize)
    else data + (sparseHeaderSize + img.fileExt.length)) = start
  have hcursor : image.At start (img.chunks.flatMap (Chunk.encode img.chunkHdrSz)) := by
    rcases hexp.header with hext | hnil
    · rw [hext, List.length_nil, Nat.add_zero] at hchunks
      rw [hext, List.length_nil, Nat.add_zero, if_neg (Nat.lt_irrefl sparseHeaderSize)] at hd
      exact hd ▸ hchunks
    · rw [hnil]
      exact Mem.at_nil
  obtain ⟨st, hloop, htotal, hdev⟩ := processChunks_spec heap hset img.chunks
    (info.blksz * info.start) ⟨start, info.start, 0, dev⟩
    ⟨hcursor, by rw [Nat.zero_add]; exact hwf.total, Nat.add_le_add_left hholds.size _, Or.inl rfl⟩
    hwf.chunks hexp.chunks
  rw [hloop]
  dsimp only
  rw [htotal, Nat.zero_add, if_neg (not_not.mpr rfl), hdev]

/-- An image that holds a checksum only: its size is taken for a wrong one. -/
theorem writeSparseImage_rejects_checksum :
    ¬∀ (info : Storage) (img : Image) (image heap dev : Mem) (data : ℕ), img.WellFormed →
      Holds info img → image.At data img.encode →
      writeSparseImage info image heap data dev =
        some (.ok (expand img.blkSz (info.blksz * info.start) img.chunks dev)) := by
  intro h
  have hfail : ∃ d, writeSparseImage ⟨512, 0, 8⟩ (Mem.write (fun _ ↦ 0) 0
      (Image.encode ⟨0, 4096, 0, [], 12, [⟨0, [], 0, .crc32 [0, 0, 0, 0]⟩]⟩)) (fun _ ↦ 0) 0
      (fun _ ↦ 0) = some (.fail "Bogus chunk size for chunk type Dont Care" d) := ⟨_, rfl⟩
  obtain ⟨d, hfail⟩ := hfail
  have hcall := h ⟨512, 0, 8⟩ ⟨0, 4096, 0, [], 12, [⟨0, [], 0, .crc32 [0, 0, 0, 0]⟩]⟩
    (Mem.write (fun _ ↦ 0) 0
      (Image.encode ⟨0, 4096, 0, [], 12, [⟨0, [], 0, .crc32 [0, 0, 0, 0]⟩]⟩))
    (fun _ ↦ 0) (fun _ ↦ 0) 0
    ⟨by decide, by decide, by decide, by decide, by decide, by decide, by decide, by
      intro c hc
      obtain rfl := List.mem_singleton.mp hc
      exact ⟨rfl, ⟨rfl, rfl⟩, by decide⟩⟩
    ⟨by decide, by decide, by decide, by decide⟩ Mem.at_write_self
  injection hfail.symm.trans hcall with heq
  injection heq

/-- A block of data, two blocks of a word, a block that is left as it is, and a block of data,
written from the second block of the device on. -/
theorem writeSparseImage_expands_chunks :
    writeSparseImage ⟨4, 1, 5⟩
        (Mem.write (fun _ ↦ 0) 0
          (Image.encode ⟨0, 4, 0, [], 12,
            [⟨0, [], 1, .raw [1, 2, 3, 4]⟩, ⟨0, [], 2, .fill [7, 8, 9, 10]⟩,
            ⟨0, [], 1, .dontCare⟩, ⟨0, [], 1, .raw [5, 6, 7, 8]⟩]⟩))
        (fun _ ↦ 0) 0 (fun _ ↦ 255) =
      some (.ok (Mem.write (Mem.write (Mem.write (fun _ ↦ 255) 4 [1, 2, 3, 4])
        8 [7, 8, 9, 10, 7, 8, 9, 10]) 20 [5, 6, 7, 8])) := by
  refine writeSparseImage_expands ⟨4, 1, 5⟩ ⟨0, 4, 0, [], 12, [⟨0, [], 1, .raw [1, 2, 3, 4]⟩,
      ⟨0, [], 2, .fill [7, 8, 9, 10]⟩, ⟨0, [], 1, .dontCare⟩, ⟨0, [], 1, .raw [5, 6, 7, 8]⟩]⟩ _ _ _
      0
    ⟨by decide, by decide, by decide, by decide, by decide, by decide, by decide, ?_⟩
    ⟨by decide, by decide, by decide, by decide⟩ Mem.at_write_self
    ⟨Or.inl rfl, trivial, ?_, Or.inl (by decide), trivial, trivial⟩
  · simp only [List.forall_mem_cons]
    exact ⟨⟨rfl, rfl, by decide⟩, ⟨rfl, rfl, by decide⟩, ⟨rfl, trivial, by decide⟩,
      ⟨rfl, rfl, by decide⟩, List.forall_mem_nil _⟩
  · exact ⟨by decide, by decide, fun _ ↦ by decide, Or.inl (by decide)⟩

end MiniPi.Sparse
