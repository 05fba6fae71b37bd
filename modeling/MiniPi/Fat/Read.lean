import MiniPi.Fat.Entry

/-!
# Reading a file in batches

`get_contents` of `fs/fat/fat.c` reads the cluster in which the position lies through
a buffer of its own, and then one run of consecutive clusters after the other.

The sectors of a volume have numbers below `2 ^ 32`, so the sector of a cluster is
computed on natural numbers.  The device reads every block, and there is memory for
the buffer.  `unsigned long` has 32 bits, `loff_t` has 64.
-/

namespace MiniPi.Fat

open Lib

/-- What a file is read from: `fsdata`, with `get_fatent` as a function, and the bytes
of the partition. -/
structure Reader where
  fatSize : FatSize
  sectSize : ℕ
  clustSize : ℕ
  rootdirSect : ℕ
  /-- The first sector of cluster 2, `data_begin + 2 * clust_size`. -/
  dataStart : ℕ
  /-- `get_fatent`. -/
  fat : ℕ → ℕ
  disk : Mem
  sect_pos : 0 < sectSize
  clust_pos : 0 < clustSize

/-- `ARCH_DMA_MINALIGN`. -/
def archDmaMinalign : ℕ := 64

namespace Reader

variable (r : Reader)

/-- `bytesperclust`. -/
def bytesPerClust : ℕ := r.clustSize * r.sectSize

theorem bytesPerClust_pos : 0 < r.bytesPerClust := Nat.mul_pos r.clust_pos r.sect_pos

/-- `clust_to_sect`, for the clusters from 2 on. -/
def clustToSect (clust : ℕ) : ℕ := r.dataStart + (clust - 2) * r.clustSize

/-- `disk_read`. -/
def diskRead (block nrBlocks : ℕ) : List UInt8 :=
  r.disk.slice (block * r.sectSize) (nrBlocks * r.sectSize)

/-- The loop of `get_cluster` for a misaligned buffer: what it stores, and `startsect`
and `size` after it. -/
def bounceLoop : ℕ → ℕ → ℕ → List UInt8 × ℕ × ℕ
  | 0, startsect, size => ([], startsect, size)
  | fuel + 1, startsect, size =>
      if r.sectSize ≤ size then
        let (out, rest) := bounceLoop fuel (startsect + 1) (size - r.sectSize)
        (r.diskRead startsect 1 ++ out, rest)
      else ([], startsect, size)

/-- `get_cluster`: what it stores at `buffer`. -/
def getCluster (clustnum buffer size : ℕ) : List UInt8 :=
  let startsect := if 0 < clustnum then r.clustToSect clustnum else r.rootdirSect
  let (out, startsect, size) :=
    if buffer % archDmaMinalign ≠ 0 then r.bounceLoop size startsect size
    else (r.diskRead startsect (size / r.sectSize), startsect + size / r.sectSize,
      size - size / r.sectSize * r.sectSize)
  if size ≠ 0 then out ++ (r.diskRead startsect 1).take size else out

/-! ## `get_contents` -/

/-- The loop that goes to the cluster at `pos`: the cluster and `actsize`, or `none`
inside when the table ends before. -/
def seekLoop (pos : ℕ) : ℕ → ℕ → ℕ → Option (Option (ℕ × ℕ))
  | 0, _, _ => none
  | fuel + 1, curclust, actsize =>
      if actsize ≤ pos then
        if r.fatSize.checkClust (r.fat curclust) then some none
        else seekLoop pos fuel (r.fat curclust) (actsize + r.bytesPerClust)
      else some (some (curclust, actsize))

/-- How the search for consecutive clusters ends. -/
inductive RunEnd where
  /-- At a jump behind the cluster `endclust`, after `actsize` bytes. -/
  | getit (endclust actsize : ℕ)
  /-- At a number that is not that of a cluster. -/
  | invalid
  /-- With the end of what is to be read. -/
  | rest
deriving DecidableEq, Repr

/-- The search for consecutive clusters. -/
def runLoop (filesize : ℕ) : ℕ → ℕ → ℕ → Option RunEnd
  | 0, _, _ => none
  | fuel + 1, endclust, actsize =>
      if actsize < filesize then
        let newclust := r.fat endclust
        if (newclust + (2 ^ 32 - 1)) % 2 ^ 32 ≠ endclust then some (.getit endclust actsize)
        else if r.fatSize.checkClust newclust then some .invalid
        else runLoop filesize fuel newclust (actsize + r.bytesPerClust)
      else some .rest

/-- What `get_contents` leaves behind: its return value, `*gotsize`, and the bytes
stored from `buffer` on. -/
structure Got where
  ret : ℤ
  gotsize : ℤ
  stored : List UInt8
deriving DecidableEq, Repr

/-- The `do` loop of `get_contents`; `buffer` is the address of the first byte, and
`got` what was read before. -/
def readLoop (buffer : ℕ) : ℕ → ℕ → ℕ → Got → Option Got
  | 0, _, _, _ => none
  | fuel + 1, curclust, filesize, got =>
      match r.runLoop filesize (filesize + 1) curclust r.bytesPerClust with
      | none => none
      | some .invalid => some { got with ret := 0 }
      | some .rest =>
          some ⟨0, got.gotsize + filesize, got.stored ++
            r.getCluster curclust (buffer + got.stored.length) (filesize % 2 ^ 32)⟩
      | some (.getit endclust actsize) =>
          -- `(int)actsize` is negative from `2 ^ 31` on
          let got : Got := ⟨0, got.gotsize + Int.bmod actsize (2 ^ 32), got.stored ++
            r.getCluster curclust (buffer + got.stored.length) (actsize % 2 ^ 32)⟩
          if r.fatSize.checkClust (r.fat endclust) then some got
          else readLoop buffer fuel (r.fat endclust) (filesize - actsize) got

/-- `get_contents` from the cluster at `pos` on, where `pos` is counted from the start
of that cluster, and `filesize` too. -/
def readFrom (buffer curclust filesize pos : ℕ) : Option Got :=
  if pos ≠ 0 then
    let actsize := min filesize r.bytesPerClust
    let tmp := r.getCluster curclust 0 (actsize % 2 ^ 32)
    let got : Got := ⟨0, (actsize - pos : ℕ), (tmp.drop pos).take (actsize - pos)⟩
    if filesize - actsize = 0 then some got
    else if r.fatSize.checkClust (r.fat curclust) then some got
    else r.readLoop buffer (filesize + 1) (r.fat curclust) (filesize - actsize) got
  else r.readLoop buffer (filesize + 1) curclust filesize ⟨0, 0, []⟩

/-- `get_contents`, for a file of `size` bytes that starts with the cluster `start`.
There is no result when `pos + maxsize` overflows, which is undefined. -/
def getContents (start size pos buffer maxsize : ℕ) : Option Got :=
  if size ≤ pos then some ⟨0, 0, []⟩
  else if 0 < maxsize ∧ 2 ^ 63 ≤ pos + maxsize then none
  else
    let filesize := if 0 < maxsize ∧ pos + maxsize < size then pos + maxsize else size
    match r.seekLoop pos (pos + 1) start r.bytesPerClust with
    | none => none
    | some none => some ⟨0, 0, []⟩
    | some (some (curclust, actsize)) =>
        let actsize := actsize - r.bytesPerClust
        r.readFrom buffer curclust (filesize - actsize) (pos - actsize)

/-! ## One request -/

variable {r}

theorem diskRead_add (block n k : ℕ) :
    r.diskRead block (n + k) = r.diskRead block n ++ r.diskRead (block + n) k := by
  rw [diskRead, Nat.add_mul, Mem.slice_add, diskRead, diskRead, Nat.add_mul]

/-- The loop reads all whole sectors. -/
theorem bounceLoop_eq (fuel startsect size : ℕ) (hfuel : size ≤ fuel) :
    r.bounceLoop fuel startsect size = (r.diskRead startsect (size / r.sectSize),
      startsect + size / r.sectSize, size - size / r.sectSize * r.sectSize) := by
  have hpos := r.sect_pos
  have hsmall : ∀ {s}, s < r.sectSize → s / r.sectSize = 0 := fun h ↦ Nat.div_eq_of_lt h
  induction fuel generalizing startsect size with
  | zero =>
      obtain rfl : size = 0 := by omega
      simp [bounceLoop, diskRead, Mem.slice]
  | succ fuel ih =>
      rw [bounceLoop]
      split_ifs with hle
      · have hdiv : size / r.sectSize = 1 + (size - r.sectSize) / r.sectSize := by
          rw [Nat.div_eq_sub_div hpos hle, Nat.add_comm]
        rw [ih (startsect + 1) (size - r.sectSize) (by omega), hdiv, diskRead_add,
          Nat.add_assoc, Nat.add_mul, one_mul, Nat.sub_sub]
      · rw [hsmall (not_le.mp hle)]
        simp [diskRead, Mem.slice]

/-- `get_cluster` stores the bytes from the first sector of the cluster on, whether the
buffer is aligned or not. -/
theorem getCluster_eq {clustnum : ℕ} (h : 0 < clustnum) (buffer size : ℕ) :
    r.getCluster clustnum buffer size = r.disk.slice (r.clustToSect clustnum * r.sectSize)
    size := by
  have hpos := r.sect_pos
  have hmod : size - size / r.sectSize * r.sectSize = size % r.sectSize := by
    rw [Nat.mul_comm, ← Nat.mod_eq_sub]
  have hsplit : r.disk.slice (r.clustToSect clustnum * r.sectSize) size =
      r.diskRead (r.clustToSect clustnum) (size / r.sectSize) ++
        (r.diskRead (r.clustToSect clustnum + size / r.sectSize) 1).take (size % r.sectSize) := by
    have hlt := Nat.mod_lt size hpos
    have htake : (r.diskRead (r.clustToSect clustnum + size / r.sectSize) 1).take
        (size % r.sectSize) = r.disk.slice ((r.clustToSect clustnum + size / r.sectSize) *
          r.sectSize) (size % r.sectSize) := by
      have := Mem.take_drop_slice (m := r.disk) (a := (r.clustToSect clustnum +
        size / r.sectSize) * r.sectSize) (n := 1 * r.sectSize) (k := 0) (l := size % r.sectSize)
        (by omega)
      simpa [diskRead] using this
    rw [htake, diskRead, Nat.add_mul, ← Mem.slice_add, Nat.mul_comm (size / r.sectSize),
      Nat.div_add_mod]
  rw [getCluster, if_pos h, bounceLoop_eq size _ size le_rfl, ite_self, hmod, hsplit]
  dsimp only
  split_ifs with hz
  · rfl
  · rw [not_not.mp hz, List.take_zero, List.append_nil]

/-! ## The chain of a file -/

variable (r)

/-- Cluster `i` of the chain that begins with `start`. -/
def chain (start i : ℕ) : ℕ := r.fat^[i] start

/-- The first `n` clusters of the chain, one behind the other. -/
def concat (start n : ℕ) : List UInt8 :=
  (List.range n).flatMap fun i ↦
    r.disk.slice (r.clustToSect (r.chain start i) * r.sectSize) r.bytesPerClust

/-- The number of clusters that hold `size` bytes. -/
def clusters (size : ℕ) : ℕ := (size + r.bytesPerClust - 1) / r.bytesPerClust

/-- The bytes of the file by position. -/
def bytes (start : ℕ) : Mem := fun x ↦
  r.disk (r.clustToSect (r.chain start (x / r.bytesPerClust)) * r.sectSize + x % r.bytesPerClust)

/-- The clusters from number `a` to number `b` are consecutive. -/
def Consecutive (start a b : ℕ) : Prop :=
  ∀ q, a ≤ q → q < b → r.chain start (q + 1) = r.chain start q + 1

/-- From cluster number `i` on there is a run of `2 ^ 31` bytes or more that a jump
ends before the position `stop`. -/
def LongRun (start i stop : ℕ) : Prop :=
  ∃ a b, i ≤ a ∧ a ≤ b ∧ (b + 1) * r.bytesPerClust < stop ∧ r.Consecutive start a b ∧
    r.chain start (b + 1) ≠ r.chain start b + 1 ∧ 2 ^ 31 ≤ (b + 1 - a) * r.bytesPerClust

variable {r} {start stop : ℕ}

theorem chain_succ (i : ℕ) : r.chain start (i + 1) = r.fat (r.chain start i) :=
  Function.iterate_succ_apply' r.fat i start

theorem lt_clusters_iff {i size : ℕ} : i < r.clusters size ↔ i * r.bytesPerClust < size := by
  have hpos := r.bytesPerClust_pos
  rw [clusters, Nat.lt_iff_add_one_le, Nat.le_div_iff_mul_le hpos, Nat.add_mul, one_mul]
  omega

theorem bounds_of_checkClust {fatSize : FatSize} {c : ℕ} (h : ¬fatSize.checkClust c = true) :
    2 ≤ c ∧ c < 2 ^ 32 := by
  cases fatSize <;>
    simp only [FatSize.checkClust, Bool.or_eq_true, decide_eq_true_eq, not_or] at h <;> omega

theorem slice_bytes_cluster (i : ℕ) :
    r.disk.slice (r.clustToSect (r.chain start i) * r.sectSize) r.bytesPerClust =
      (r.bytes start).slice (i * r.bytesPerClust) r.bytesPerClust := by
  refine Mem.slice_congr fun x hx ↦ ?_
  rw [bytes, Nat.mul_comm i, Nat.mul_add_div r.bytesPerClust_pos, Nat.div_eq_of_lt hx,
    Nat.add_zero, Nat.mul_add_mod, Nat.mod_eq_of_lt hx]

theorem concat_eq (n : ℕ) :
    r.concat start n = (r.bytes start).slice 0 (n * r.bytesPerClust) := by
  induction n with
  | zero => simp [concat, Mem.slice]
  | succ n ih =>
      rw [concat, List.range_succ, List.flatMap_append, List.flatMap_singleton,
        slice_bytes_cluster, Nat.add_mul, one_mul, Mem.slice_add, Nat.zero_add]
      exact congrArg (· ++ _) ih

/-- A run of consecutive clusters lies in one piece on the disk. -/
theorem slice_bytes_run {i len : ℕ} (h2 : 2 ≤ r.chain start i)
    (hrun : ∀ q, q * r.bytesPerClust < len → r.chain start (i + q) = r.chain start i + q) :
    r.disk.slice (r.clustToSect (r.chain start i) * r.sectSize) len =
      (r.bytes start).slice (i * r.bytesPerClust) len := by
  refine Mem.slice_congr fun x hx ↦ ?_
  have hq : x / r.bytesPerClust * r.bytesPerClust < len :=
    (Nat.div_mul_le_self x _).trans_lt hx
  have hsect : ∀ q, r.clustToSect (r.chain start i + q) * r.sectSize =
      r.clustToSect (r.chain start i) * r.sectSize + q * r.bytesPerClust := by
    intro q
    rw [clustToSect, clustToSect, show r.chain start i + q - 2 = r.chain start i - 2 + q by omega,
      bytesPerClust]
    ring
  rw [bytes, Nat.mul_comm i, Nat.mul_add_div r.bytesPerClust_pos, Nat.mul_add_mod,
    hrun _ hq, hsect, Nat.add_assoc, Nat.div_add_mod']

theorem Consecutive.eq_add {a b q : ℕ} (h : r.Consecutive start a b) (hq : a + q ≤ b) :
    r.chain start (a + q) = r.chain start a + q := by
  induction q with
  | zero => rfl
  | succ q ih =>
      rw [← Nat.add_assoc, h (a + q) (by omega) (by omega), ih (by omega), Nat.add_assoc]

/-! ## The loops -/

/-- The clusters of the part of the file before `stop` are clusters. -/
def Valid (r : Reader) (start stop : ℕ) : Prop :=
  ∀ i, i * r.bytesPerClust < stop → ¬r.fatSize.checkClust (r.chain start i) = true

/-- The first loop ends at the cluster that holds `pos`. -/
theorem seekLoop_eq (hv : r.Valid start stop) {pos : ℕ} (hpos : pos < stop) (fuel i : ℕ)
    (hi : i * r.bytesPerClust ≤ pos) (hfuel : pos < fuel + i) :
    r.seekLoop pos fuel (r.chain start i) ((i + 1) * r.bytesPerClust) =
      some (some (r.chain start (pos / r.bytesPerClust),
        (pos / r.bytesPerClust + 1) * r.bytesPerClust)) := by
  have hbpc := r.bytesPerClust_pos
  induction fuel generalizing i with
  | zero =>
      have := Nat.le_mul_of_pos_right i hbpc
      omega
  | succ fuel ih =>
      rw [seekLoop]
      split_ifs with hle hbad
      · rw [← chain_succ] at hbad
        exact absurd hbad (hv (i + 1) (hle.trans_lt hpos))
      · rw [← chain_succ, show (i + 1) * r.bytesPerClust + r.bytesPerClust =
          (i + 1 + 1) * r.bytesPerClust by ring]
        exact ih (i + 1) hle (by omega)
      · have : pos / r.bytesPerClust = i :=
          Nat.div_eq_of_lt_le hi (not_le.mp hle)
        rw [this]

/-- The search for consecutive clusters ends at the first jump before `stop`, or at
`stop`. -/
theorem runLoop_spec (hv : r.Valid start stop) {i : ℕ} (fuel j : ℕ) (hij : i ≤ j)
    (hj : j * r.bytesPerClust < stop) (hcons : r.Consecutive start i j)
    (hfuel : stop < fuel + j * r.bytesPerClust) :
    (∃ b, i ≤ b ∧ (b + 1) * r.bytesPerClust < stop ∧ r.Consecutive start i b ∧
      r.chain start (b + 1) ≠ r.chain start b + 1 ∧
      r.runLoop (stop - i * r.bytesPerClust) fuel (r.chain start j)
        ((j + 1 - i) * r.bytesPerClust) =
          some (.getit (r.chain start b) ((b + 1 - i) * r.bytesPerClust))) ∨
    ((∀ q, i ≤ q → (q + 1) * r.bytesPerClust < stop →
        r.chain start (q + 1) = r.chain start q + 1) ∧
      r.runLoop (stop - i * r.bytesPerClust) fuel (r.chain start j)
        ((j + 1 - i) * r.bytesPerClust) = some .rest) := by
  have hbpc := r.bytesPerClust_pos
  induction fuel generalizing j with
  | zero => omega
  | succ fuel ih =>
      have hle : i * r.bytesPerClust ≤ (j + 1) * r.bytesPerClust :=
        Nat.mul_le_mul_right _ (by omega)
      have hprod : (j + 1 - i) * r.bytesPerClust =
          (j + 1) * r.bytesPerClust - i * r.bytesPerClust := Nat.sub_mul ..
      have hsucc : (j + 1) * r.bytesPerClust = j * r.bytesPerClust + r.bytesPerClust := by ring
      rw [runLoop]
      by_cases hnext : (j + 1) * r.bytesPerClust < stop
      · have hval := hv (j + 1) hnext
        have hb := bounds_of_checkClust hval
        rw [if_pos (by omega)]
        dsimp only
        rw [← chain_succ]
        have hpred : (r.chain start (j + 1) + (2 ^ 32 - 1)) % 2 ^ 32 = r.chain start j ↔
            r.chain start (j + 1) = r.chain start j + 1 := by omega
        by_cases hjump : r.chain start (j + 1) = r.chain start j + 1
        · rw [if_neg (not_not.mpr (hpred.mpr hjump)), if_neg hval,
            show (j + 1 - i) * r.bytesPerClust + r.bytesPerClust =
              (j + 1 + 1 - i) * r.bytesPerClust by
                rw [show j + 1 + 1 - i = j + 1 - i + 1 by omega]
                ring]
          refine ih (j + 1) (by omega) hnext (fun q hq₁ hq₂ ↦ ?_) (by omega)
          rcases Nat.lt_succ_iff_lt_or_eq.mp hq₂ with hq | rfl
          · exact hcons q hq₁ hq
          · exact hjump
        · rw [if_pos (fun h ↦ hjump (hpred.mp h))]
          exact Or.inl ⟨j, hij, hnext, hcons, hjump, rfl⟩
      · rw [if_neg (by omega)]
        refine Or.inr ⟨fun q hq₁ hq₂ ↦ hcons q hq₁ ?_, rfl⟩
        have : q + 1 < j + 1 :=
          Nat.lt_of_mul_lt_mul_right (hq₂.trans_le (not_lt.mp hnext))
        omega

/-- At a jump behind cluster number `b` the long runs are the one that ends there, if
it is long, and those behind it. -/
theorem longRun_iff {i b : ℕ} (hib : i ≤ b) (hstop : (b + 1) * r.bytesPerClust < stop)
    (hcons : r.Consecutive start i b) (hjump : r.chain start (b + 1) ≠ r.chain start b + 1) :
    r.LongRun start i stop ↔
      2 ^ 31 ≤ (b + 1 - i) * r.bytesPerClust ∨ r.LongRun start (b + 1) stop := by
  constructor
  · rintro ⟨a, c, hia, hac, hcs, hrun, hend, hlong⟩
    by_cases hab : b < a
    · exact Or.inr ⟨a, c, hab, hac, hcs, hrun, hend, hlong⟩
    · have hcb : c = b := by
        rcases lt_trichotomy c b with h | h | h
        · exact absurd (hcons c (hia.trans hac) h) hend
        · exact h
        · exact absurd (hrun b (not_lt.mp hab) h) hjump
      subst hcb
      exact Or.inl (hlong.trans (Nat.mul_le_mul_right _ (by omega)))
  · rintro (hlong | ⟨a, c, hba, hrest⟩)
    · exact ⟨i, b, le_rfl, hib, hstop, hcons, hjump, hlong⟩
    · exact ⟨a, c, by omega, hrest⟩

/-- `(int)actsize`. -/
theorem bmod_eq {n : ℕ} (h : n < 2 ^ 32) :
    Int.bmod n (2 ^ 32) = n - 2 ^ 32 * (if 2 ^ 31 ≤ n then 1 else 0 : ℕ) := by
  rw [Int.bmod_def]
  split_ifs <;> omega

/-- The second loop stores what is left of the file, and takes `2 ^ 32` from `*gotsize`
for every long run it meets. -/
theorem readLoop_spec (hv : r.Valid start stop) (hsize : stop < 2 ^ 32) {pos : ℕ} (buffer : ℕ)
    (fuel i : ℕ) (hpi : pos ≤ i * r.bytesPerClust) (hi : i * r.bytesPerClust < stop)
    (hfuel : stop < fuel + i * r.bytesPerClust) (got : ℤ) :
    ∃ k : ℕ, r.readLoop buffer fuel (r.chain start i) (stop - i * r.bytesPerClust)
        ⟨0, got, (r.bytes start).slice pos (i * r.bytesPerClust - pos)⟩ =
          some ⟨0, got + (stop - i * r.bytesPerClust : ℕ) - 2 ^ 32 * k,
            (r.bytes start).slice pos (stop - pos)⟩ ∧
      (k = 0 ↔ ¬r.LongRun start i stop) := by
  have hbpc := r.bytesPerClust_pos
  induction fuel generalizing i got with
  | zero => omega
  | succ fuel ih =>
      have hrun := runLoop_spec hv (stop - i * r.bytesPerClust + 1) i le_rfl hi
        (fun q h₁ h₂ ↦ absurd h₂ (not_lt.mpr h₁)) (by omega)
      rw [show (i + 1 - i) * r.bytesPerClust = r.bytesPerClust by
        rw [Nat.add_sub_cancel_left, one_mul]] at hrun
      have h2 := (bounds_of_checkClust (hv i hi)).1
      have hstored : ∀ len, len ≤ stop - i * r.bytesPerClust →
          (r.bytes start).slice pos (i * r.bytesPerClust - pos) ++
            (r.bytes start).slice (i * r.bytesPerClust) len =
          (r.bytes start).slice pos (i * r.bytesPerClust + len - pos) := by
        intro len _
        have h := Mem.slice_add (r.bytes start) pos (i * r.bytesPerClust - pos) len
        rw [show pos + (i * r.bytesPerClust - pos) = i * r.bytesPerClust by omega] at h
        rw [← h]
        congr 1
        omega
      rw [readLoop]
      rcases hrun with ⟨b, hib, hb, hcons, hjump, hrun⟩ | ⟨hcons, hrun⟩
      · have hsucc : i * r.bytesPerClust + (b + 1 - i) * r.bytesPerClust =
            (b + 1) * r.bytesPerClust := by
          rw [← Nat.add_mul]
          congr 1
          omega
        have hlt : (b + 1 - i) * r.bytesPerClust < 2 ^ 32 := by omega
        have hcluster : ∀ addr, r.getCluster (r.chain start i) addr
            ((b + 1 - i) * r.bytesPerClust) =
              (r.bytes start).slice (i * r.bytesPerClust) ((b + 1 - i) * r.bytesPerClust) := by
          intro addr
          rw [getCluster_eq (by omega), slice_bytes_run h2]
          intro q hq
          have := Nat.lt_of_mul_lt_mul_right hq
          exact hcons.eq_add (by omega)
        rw [hrun]
        dsimp only
        rw [← chain_succ, if_neg (hv (b + 1) hb), Nat.mod_eq_of_lt hlt, hcluster,
          hstored _ (by omega), hsucc, bmod_eq hlt, Nat.sub_sub, hsucc]
        obtain ⟨k, hread, hk⟩ := ih (b + 1) (by omega) hb (by
          have := Nat.le_mul_of_pos_left r.bytesPerClust (show 0 < b + 1 - i by omega)
          omega) (got + (((b + 1 - i) * r.bytesPerClust : ℕ) -
            2 ^ 32 * (if 2 ^ 31 ≤ (b + 1 - i) * r.bytesPerClust then 1 else 0 : ℕ)))
        refine ⟨k + if 2 ^ 31 ≤ (b + 1 - i) * r.bytesPerClust then 1 else 0, ?_, ?_⟩
        · rw [hread]
          congr 2
          push_cast
          omega
        · rw [longRun_iff hib hb hcons hjump, not_or, ← hk]
          by_cases hlong : 2 ^ 31 ≤ (b + 1 - i) * r.bytesPerClust
          · rw [if_pos hlong]
            exact iff_of_false (by omega) fun h ↦ h.1 hlong
          · rw [if_neg hlong, Nat.add_zero]
            exact (and_iff_right hlong).symm
      · have hlt : stop - i * r.bytesPerClust < 2 ^ 32 := by omega
        have hcluster : ∀ addr, r.getCluster (r.chain start i) addr
            (stop - i * r.bytesPerClust) =
              (r.bytes start).slice (i * r.bytesPerClust) (stop - i * r.bytesPerClust) := by
          intro addr
          rw [getCluster_eq (by omega), slice_bytes_run h2]
          intro q hq
          induction q with
          | zero => rfl
          | succ q ihq =>
              have hprod : (i + q + 1) * r.bytesPerClust =
                  i * r.bytesPerClust + (q + 1) * r.bytesPerClust := by ring
              rw [← Nat.add_assoc, hcons (i + q) (by omega) (by omega),
                ihq ((Nat.mul_le_mul_right _ (Nat.le_succ q)).trans_lt hq), Nat.add_assoc]
        rw [hrun]
        dsimp only
        rw [Nat.mod_eq_of_lt hlt, hcluster, hstored _ le_rfl]
        refine ⟨0, ?_, iff_of_true rfl ?_⟩
        · rw [show i * r.bytesPerClust + (stop - i * r.bytesPerClust) - pos = stop - pos by omega]
          simp
        · rintro ⟨a, c, hia, hac, hcs, -, hend, -⟩
          exact hend (hcons c (hia.trans hac) hcs)

/-! ## The whole read -/

/-- Where a request ends: at the end of the file, or after `maxsize` bytes, where `0`
sets no limit. -/
def requestEnd (size pos maxsize : ℕ) : ℕ := if maxsize = 0 then size else min size (pos + maxsize)

/-- The bytes a request asks for. -/
def requested (r : Reader) (start size pos maxsize : ℕ) : List UInt8 :=
  ((r.concat start (r.clusters size)).take (requestEnd size pos maxsize)).drop pos

/-- The first cluster from `pos` on that is read whole. -/
def firstWhole (r : Reader) (pos : ℕ) : ℕ := (pos + r.bytesPerClust - 1) / r.bytesPerClust

theorem requested_eq (r : Reader) (start size pos maxsize : ℕ) :
    r.requested start size pos maxsize =
      (r.bytes start).slice pos (requestEnd size pos maxsize - pos) := by
  have hpos := r.bytesPerClust_pos
  have hsize : size ≤ r.clusters size * r.bytesPerClust := by
    by_contra h
    exact lt_irrefl _ (lt_clusters_iff.mpr (not_le.mp h))
  have hend : requestEnd size pos maxsize ≤ size := by
    rw [requestEnd]
    split_ifs <;> omega
  have htake : ((r.bytes start).slice 0 (r.clusters size * r.bytesPerClust)).take
      (requestEnd size pos maxsize) = (r.bytes start).slice 0 (requestEnd size pos maxsize) := by
    have h := Mem.take_drop_slice (m := r.bytes start) (a := 0) (k := 0)
      (show 0 + requestEnd size pos maxsize ≤ r.clusters size * r.bytesPerClust by omega)
    simpa using h
  rw [requested, concat_eq, htake]
  by_cases hle : pos ≤ requestEnd size pos maxsize
  · obtain ⟨n, hn⟩ := Nat.exists_eq_add_of_le hle
    rw [hn, Mem.slice_add, List.drop_left' Mem.length_slice, Nat.zero_add, Nat.add_sub_cancel_left]
  · rw [show requestEnd size pos maxsize - pos = 0 by omega, List.drop_eq_nil_of_le]
    · rfl
    · rw [Mem.length_slice]
      omega

/-- From the cluster that holds `pos` on, everything up to `stop` is stored. -/
theorem readFrom_spec (hv : r.Valid start stop) (hsize : stop < 2 ^ 32) {pos i : ℕ}
    (hi : i * r.bytesPerClust ≤ pos) (hpi : pos < (i + 1) * r.bytesPerClust) (hpos : pos < stop)
    (buffer : ℕ) :
    ∃ k : ℕ, r.readFrom buffer (r.chain start i) (stop - i * r.bytesPerClust)
        (pos - i * r.bytesPerClust) =
          some ⟨0, (stop - pos : ℕ) - 2 ^ 32 * k, (r.bytes start).slice pos (stop - pos)⟩ ∧
      (k = 0 ↔ ¬r.LongRun start (r.firstWhole pos) stop) := by
  have hbpc := r.bytesPerClust_pos
  have hsucc : (i + 1) * r.bytesPerClust = i * r.bytesPerClust + r.bytesPerClust := by ring
  rw [readFrom]
  by_cases hhead : pos = i * r.bytesPerClust
  · have hfirst : r.firstWhole pos = i := by
      rw [firstWhole, hhead]
      exact Nat.div_eq_of_lt_le (by omega) (by omega)
    obtain ⟨k, hread, hk⟩ := readLoop_spec hv hsize buffer (stop - i * r.bytesPerClust + 1) i
      hhead.le (by omega) (by omega) 0
    rw [show i * r.bytesPerClust - pos = 0 by omega] at hread
    rw [if_neg (by omega), hfirst]
    refine ⟨k, ?_, hk⟩
    rw [show stop - pos = stop - i * r.bytesPerClust by omega]
    simpa [Mem.slice, hhead] using hread
  · have hfirst : r.firstWhole pos = i + 1 := by
      rw [firstWhole]
      exact Nat.div_eq_of_lt_le (by omega) (by rw [Nat.add_mul, hsucc]; omega)
    have h2 := (bounds_of_checkClust (hv i (by omega))).1
    have hcluster : ∀ len, len ≤ r.bytesPerClust → len < 2 ^ 32 →
        ((r.getCluster (r.chain start i) 0 (len % 2 ^ 32)).drop (pos - i * r.bytesPerClust)).take
            (len - (pos - i * r.bytesPerClust)) =
          (r.bytes start).slice pos (len - (pos - i * r.bytesPerClust)) := by
      intro len hlen hlt
      have hslice : r.getCluster (r.chain start i) 0 (len % 2 ^ 32) =
          (r.bytes start).slice (i * r.bytesPerClust) len := by
        rw [Nat.mod_eq_of_lt hlt, getCluster_eq (by omega), slice_bytes_run h2]
        intro q hq
        have : q < 1 := Nat.lt_of_mul_lt_mul_right (show q * r.bytesPerClust < 1 * _ by omega)
        rw [show q = 0 by omega]
        rfl
      rw [hslice]
      by_cases hle : pos - i * r.bytesPerClust ≤ len
      · rw [Mem.take_drop_slice (by omega),
          show i * r.bytesPerClust + (pos - i * r.bytesPerClust) = pos by omega]
      · rw [show len - (pos - i * r.bytesPerClust) = 0 by omega]
        rfl
    rw [if_pos (by omega), hfirst]
    dsimp only
    by_cases hlast : stop ≤ (i + 1) * r.bytesPerClust
    · have hmin : min (stop - i * r.bytesPerClust) r.bytesPerClust =
          stop - i * r.bytesPerClust := by omega
      rw [hmin, Nat.sub_self, if_pos rfl, hcluster _ (by omega) (by omega),
        show stop - i * r.bytesPerClust - (pos - i * r.bytesPerClust) = stop - pos by omega]
      refine ⟨0, by simp, iff_of_true rfl ?_⟩
      rintro ⟨a, c, hia, hac, hcs, -⟩
      have := Nat.mul_le_mul_right r.bytesPerClust (show i + 1 ≤ c + 1 by omega)
      omega
    · have hmin : min (stop - i * r.bytesPerClust) r.bytesPerClust = r.bytesPerClust := by omega
      rw [hmin, if_neg (by omega), ← chain_succ, if_neg (hv (i + 1) (by omega)),
        hcluster _ le_rfl (by omega),
        show r.bytesPerClust - (pos - i * r.bytesPerClust) = (i + 1) * r.bytesPerClust -
        pos by omega,
        show stop - i * r.bytesPerClust - r.bytesPerClust = stop -
        (i + 1) * r.bytesPerClust by omega]
      obtain ⟨k, hread, hk⟩ := readLoop_spec hv hsize buffer (stop - i * r.bytesPerClust + 1)
        (i + 1) hpi.le (by omega) (by omega) ((i + 1) * r.bytesPerClust - pos : ℕ)
      refine ⟨k, ?_, hk⟩
      rw [hread]
      congr 2
      push_cast
      omega

/-- Without overflow a read succeeds and stores exactly the bytes asked for, and
`*gotsize` is short of their number by a multiple of `2 ^ 32`. -/
theorem getContents_spec (r : Reader) {start size : ℕ} (hsize : size < 2 ^ 32)
    (hchain : ∀ i < r.clusters size, ¬r.fatSize.checkClust (r.chain start i) = true)
    {pos maxsize : ℕ} (hpos : pos < size) (hover : ¬(0 < maxsize ∧ 2 ^ 63 ≤ pos + maxsize))
    (buffer : ℕ) :
    ∃ k : ℕ, r.getContents start size pos buffer maxsize =
        some ⟨0, (r.requested start size pos maxsize).length - 2 ^ 32 * k,
          r.requested start size pos maxsize⟩ ∧
      (k = 0 ↔ ¬r.LongRun start (r.firstWhole pos) (requestEnd size pos maxsize)) := by
  have hbpc := r.bytesPerClust_pos
  have hstop : (if 0 < maxsize ∧ pos + maxsize < size then pos + maxsize else size) =
      requestEnd size pos maxsize := by
    rw [requestEnd]
    split_ifs <;> omega
  have hlt : pos < requestEnd size pos maxsize := by
    rw [requestEnd]
    split_ifs <;> omega
  have hend : requestEnd size pos maxsize ≤ size := by
    rw [requestEnd]
    split_ifs <;> omega
  rw [requested_eq, Mem.length_slice, getContents, if_neg (not_le.mpr hpos), if_neg hover]
  dsimp only
  rw [hstop]
  generalize requestEnd size pos maxsize = stop at hlt hend ⊢
  have hv : r.Valid start stop := fun i hi ↦ hchain i (lt_clusters_iff.mpr (hi.trans_le hend))
  have hseek := seekLoop_eq hv hlt (pos + 1) 0 (by omega) (by omega)
  rw [Nat.zero_add, one_mul, show r.chain start 0 = start from rfl] at hseek
  obtain ⟨k, hread, hk⟩ := readFrom_spec hv (hend.trans_lt hsize)
    (Nat.div_mul_le_self pos r.bytesPerClust)
    ((Nat.div_lt_iff_lt_mul hbpc).mp (Nat.lt_succ_self _)) hlt buffer
  rw [hseek]
  dsimp only
  rw [Nat.add_mul, one_mul, Nat.add_sub_cancel, hread]
  exact ⟨k, rfl, hk⟩

/-- A read stores exactly the bytes asked for and reports their number exactly when
`pos + maxsize` does not overflow and no run of `2 ^ 31` bytes or more that is read in one
request is followed by a jump. -/
theorem getContents_exact_iff (r : Reader) {start size : ℕ} (hsize : size < 2 ^ 32)
    (hchain : ∀ i < r.clusters size, ¬r.fatSize.checkClust (r.chain start i) = true)
    (pos buffer maxsize : ℕ) :
    r.getContents start size pos buffer maxsize =
        some ⟨0, (r.requested start size pos maxsize).length, r.requested start size pos maxsize⟩ ↔
      ¬(pos < size ∧ 0 < maxsize ∧ 2 ^ 63 ≤ pos + maxsize) ∧
        ¬r.LongRun start (r.firstWhole pos) (requestEnd size pos maxsize) := by
  by_cases heof : size ≤ pos
  · have hend : requestEnd size pos maxsize - pos = 0 := by
      rw [requestEnd]
      split_ifs <;> omega
    rw [requested_eq, Mem.length_slice, getContents, if_pos heof, hend]
    refine iff_of_true rfl ⟨fun h ↦ absurd h.1 (not_lt.mpr heof), ?_⟩
    rintro ⟨a, c, hia, hac, hcs, -⟩
    have hwhole : pos ≤ r.firstWhole pos * r.bytesPerClust := by
      by_contra h
      have hlt : r.firstWhole pos < r.clusters pos := lt_clusters_iff.mpr (not_le.mp h)
      exact lt_irrefl _ hlt
    have := Nat.mul_le_mul_right r.bytesPerClust (show r.firstWhole pos ≤ c + 1 by omega)
    omega
  · by_cases hover : 0 < maxsize ∧ 2 ^ 63 ≤ pos + maxsize
    · rw [getContents, if_neg heof, if_pos hover]
      exact iff_of_false (by simp) fun h ↦ h.1 ⟨not_le.mp heof, hover⟩
    · rw [and_iff_right fun h ↦ hover h.2]
      obtain ⟨k, hread, hk⟩ := r.getContents_spec hsize hchain (not_le.mp heof) hover buffer
      rw [hread, ← hk]
      constructor
      · intro h
        have hgot := congrArg Got.gotsize (Option.some.inj h)
        dsimp only at hgot
        omega
      · rintro rfl
        simp

theorem usualSectSize_pos : 0 < 512 := by decide

theorem largestClustSize_pos : 0 < 128 := by decide

/-- A volume with clusters of 512 bytes on which cluster 5 follows cluster 2. -/
def twoClusters : Reader where
  fatSize := .fat16
  sectSize := 512
  clustSize := 1
  rootdirSect := 3
  dataStart := 4
  fat c := if c = 2 then 5 else 0xffff
  disk x := UInt8.ofNat x
  sect_pos := usualSectSize_pos
  clust_pos := Nat.one_pos

/-- The last 900 bytes of a file of 1000 bytes are read whole. -/
theorem getContents_exact_twoClusters :
    twoClusters.getContents 2 1000 100 0 0 =
      some ⟨0, (twoClusters.requested 2 1000 100 0).length,
      twoClusters.requested 2 1000 100 0⟩ := by
  have hchain : ∀ i < twoClusters.clusters 1000,
      ¬twoClusters.fatSize.checkClust (twoClusters.chain 2 i) = true := by decide
  refine (getContents_exact_iff twoClusters (by decide) hchain 100 0 0).mpr
    ⟨fun h ↦ absurd h.2.1 (lt_irrefl 0), ?_⟩
  rintro ⟨a, b, -, -, hb, -, -, hlong⟩
  have hend : requestEnd 1000 100 0 = 1000 := rfl
  have hbpc : twoClusters.bytesPerClust = 512 := rfl
  rw [hend, hbpc] at hb
  rw [hbpc] at hlong
  omega

/-- A volume with clusters of 64 KiB on which the clusters 2 to 32769 follow each other,
and cluster 40000 comes then. -/
def longRunReader : Reader where
  fatSize := .fat32
  sectSize := 512
  clustSize := 128
  rootdirSect := 32
  dataStart := 32
  fat c := if c < 32769 then c + 1 else 40000
  disk _ := 0
  sect_pos := usualSectSize_pos
  clust_pos := largestClustSize_pos

theorem chain_longRunReader {i : ℕ} (hi : i ≤ 32767) : longRunReader.chain 2 i = i + 2 := by
  induction i with
  | zero => rfl
  | succ i ih =>
      rw [chain_succ, ih (by omega)]
      exact if_pos (by omega)

theorem chain_longRunReader_jump : longRunReader.chain 2 32768 = 40000 := by
  rw [chain_succ, chain_longRunReader le_rfl]
  rfl

/-- A file of `2 ^ 31 + 1` bytes in 32768 consecutive clusters and one elsewhere: the
read does not report the number of bytes it stores. -/
theorem getContents_not_exact :
    (∀ i < longRunReader.clusters (2 ^ 31 + 1),
      ¬longRunReader.fatSize.checkClust (longRunReader.chain 2 i) = true) ∧
    longRunReader.getContents 2 (2 ^ 31 + 1) 0 0 0 ≠
      some ⟨0, (longRunReader.requested 2 (2 ^ 31 + 1) 0 0).length,
        longRunReader.requested 2 (2 ^ 31 + 1) 0 0⟩ := by
  have hbpc : longRunReader.bytesPerClust = 65536 := rfl
  have hchain : ∀ i < longRunReader.clusters (2 ^ 31 + 1),
      ¬longRunReader.fatSize.checkClust (longRunReader.chain 2 i) = true := by
    intro i hi
    rw [lt_clusters_iff, hbpc] at hi
    rcases Nat.lt_or_ge i 32768 with h | h
    · rw [chain_longRunReader (by omega)]
      simp only [longRunReader, FatSize.checkClust, Bool.or_eq_true, decide_eq_true_eq]
      omega
    · obtain rfl : i = 32768 := by omega
      rw [chain_longRunReader_jump]
      decide
  refine ⟨hchain, fun h ↦ ?_⟩
  obtain ⟨k, hread, hk⟩ := getContents_spec longRunReader (by decide) hchain
    (show 0 < 2 ^ 31 + 1 by decide) (fun h : 0 < 0 ∧ _ ↦ absurd h.1 (lt_irrefl 0)) 0
  have hlong : longRunReader.LongRun 2 (longRunReader.firstWhole 0)
      (requestEnd (2 ^ 31 + 1) 0 0) := by
    refine ⟨0, 32767, le_of_eq rfl, Nat.zero_le _, ?_, fun q _ hq ↦ ?_, ?_, ?_⟩
    · rw [hbpc]
      decide
    · rw [chain_longRunReader (by omega), chain_longRunReader (by omega)]
    · rw [chain_longRunReader_jump, chain_longRunReader le_rfl]
      decide
    · rw [hbpc]
      decide
  have hk₀ : k ≠ 0 := fun h₀ ↦ hk.mp h₀ hlong
  rw [hread] at h
  have hgot := congrArg Got.gotsize (Option.some.inj h)
  dsimp only at hgot
  omega

end Reader

end MiniPi.Fat
