import MiniPi.Ext4.Basic
import Mathlib

/-!
# Extent trees

The walk down an extent tree finds the leaf that the keys of the indices lead to, and the extents of
that leaf are the ones that matter.  The loop over them takes the raw length of an unwritten extent,
which has its top bit set, for the number of its blocks.
-/

namespace MiniPi.Ext4

open Lib

variable {w : ℕ} {fs : FileSystem w} {b leaf : List UInt8} {c : ExtBlockCache} {d lo hi n p : ℕ}

/-! ## Blocks -/

/-- The bytes of a block. -/
def FileSystem.block (fs : FileSystem w) (p : ℕ) : List UInt8 :=
  fs.disk.slice (p * fs.blksz) fs.blksz

/-- The block is inside the partition. -/
def Inside (fs : FileSystem w) (p : ℕ) : Prop := (p + 1) * 2 ^ fs.log2Sectors ≤ fs.totalSect

theorem blksz_eq (fs : FileSystem w) : fs.blksz = 2 ^ fs.log2Sectors * 2 ^ fs.log2blksz := by
  rw [FileSystem.blksz, FileSystem.log2Sectors, ← Nat.pow_add, Nat.sub_add_cancel fs.log2blksz_le]

@[simp] theorem length_block : (fs.block p).length = fs.blksz := Mem.length_slice

theorem Inside.lt (h : Inside fs p) : p * 2 ^ fs.log2Sectors < 2 ^ w := by
  have hpos : 0 < 2 ^ fs.log2Sectors := Nat.two_pow_pos _
  have hlt := fs.totalSect_lt
  rw [Inside, Nat.succ_mul] at h
  omega

theorem inside_zero (fs : FileSystem w) : Inside fs 0 := by
  rw [Inside, Nat.zero_add, Nat.one_mul]
  exact fs.block_le

theorem ext4fsDevread_block (h : Inside fs p) :
    ext4fsDevread fs (p * 2 ^ fs.log2Sectors) = some (fs.block p) := by
  have hsect : 0 < 2 ^ fs.log2Sectors := Nat.two_pow_pos _
  have hbyte : 0 < 2 ^ fs.log2blksz := Nat.two_pow_pos _
  have hlast : (fs.blksz - 1) / 2 ^ fs.log2blksz = 2 ^ fs.log2Sectors - 1 := by
    rw [blksz_eq, Nat.div_eq_iff hbyte]
    obtain ⟨a, ha⟩ := Nat.exists_eq_add_of_le' hsect
    rw [ha, Nat.add_sub_cancel, Nat.succ_mul]
    omega
  rw [Inside, Nat.succ_mul] at h
  rw [ext4fsDevread, if_neg (by omega), FileSystem.block, blksz_eq, Nat.mul_assoc]

/-! ## The cache of the walk -/

/-- The buffer holds the block it is said to hold. -/
def ExtBlockCache.Valid (fs : FileSystem w) (c : ExtBlockCache) : Prop :=
  ∀ buf, c.buf = some buf → c.size = fs.blksz → ext4fsDevread fs c.block = some buf

theorem extCacheRead_spec (hc : c.Valid fs) (hp : Inside fs p) :
    ∃ c', extCacheRead fs true c (p * 2 ^ fs.log2Sectors) = (c', some (fs.block p)) ∧
    c'.Valid fs := by
  have hread := ext4fsDevread_block hp
  have hmiss : extCacheRead.read fs true (p * 2 ^ fs.log2Sectors) =
      (⟨some (fs.block p), p * 2 ^ fs.log2Sectors, fs.blksz⟩, some (fs.block p)) := by
    simp [extCacheRead.read, hread]
  have hnew : ExtBlockCache.Valid fs ⟨some (fs.block p), p * 2 ^ fs.log2Sectors, fs.blksz⟩ := by
    rintro buf hbuf -
    obtain rfl := Option.some.inj hbuf
    exact hread
  unfold extCacheRead
  cases hbuf : c.buf with
  | none => exact ⟨_, hmiss, hnew⟩
  | some buf =>
      dsimp only
      split_ifs with hsame
      · have hold := hc buf hbuf hsame.2
        rw [hsame.1, hread] at hold
        obtain rfl := Option.some.inj hold
        exact ⟨c, rfl, hc⟩
      · exact ⟨_, hmiss, hnew⟩

/-! ## What an extent tree says -/

/-- An extent of more than `32768` blocks is an unwritten one. -/
def Extent.Initialised (e : Extent) : Prop := e.eeLen ≤ 32768

/-- The number of blocks of an extent. -/
def Extent.len (e : Extent) : ℕ := if e.eeLen ≤ 32768 then e.eeLen else e.eeLen - 32768

/-- The keys below the index with number `i` are below this one. -/
def upperKey (b : List UInt8) (hi i : ℕ) : ℕ :=
  if i + 1 < (extentHeader b).ehEntries then (extentIdx b (i + 1)).eiBlock else hi

/-- A sorted extent tree of depth `d` for the blocks from `lo` to `hi` of a file. -/
def WellFormedTree (fs : FileSystem w) : ℕ → ℕ → ℕ → List UInt8 → Prop
  | 0, lo, hi, b =>
      ((extentHeader b).ehMagic = ext4ExtMagic ∧ (extentHeader b).ehDepth = 0 ∧
        12 + 12 * (extentHeader b).ehEntries ≤ b.length) ∧
      (∀ i < (extentHeader b).ehEntries,
        lo ≤ (extent b i).eeBlock ∧ (extent b i).eeBlock + (extent b i).len ≤ hi) ∧
      ∀ i j, i < j → j < (extentHeader b).ehEntries →
        (extent b i).eeBlock + (extent b i).len ≤ (extent b j).eeBlock
  | d + 1, lo, hi, b =>
      ((extentHeader b).ehMagic = ext4ExtMagic ∧ (extentHeader b).ehDepth = d + 1 ∧
        12 + 12 * (extentHeader b).ehEntries ≤ b.length ∧ 0 < (extentHeader b).ehEntries) ∧
      (∀ i < (extentHeader b).ehEntries, lo ≤ (extentIdx b i).eiBlock ∧ upperKey b hi i ≤ hi ∧
        Inside fs (extentIdx b i).leaf ∧
        WellFormedTree fs d (extentIdx b i).eiBlock (upperKey b hi i)
        (fs.block (extentIdx b i).leaf)) ∧
      ∀ i j, i < j → j < (extentHeader b).ehEntries →
      (extentIdx b i).eiBlock < (extentIdx b j).eiBlock

/-- The tree has an initialised extent that assigns the physical block `p` to the file block `n`. -/
def Assigns (fs : FileSystem w) : ℕ → List UInt8 → ℕ → ℕ → Prop
  | 0, b, n, p => ∃ i < (extentHeader b).ehEntries, (extent b i).Initialised ∧
      (extent b i).eeBlock ≤ n ∧ n < (extent b i).eeBlock + (extent b i).len ∧
      p = (extent b i).start + (n - (extent b i).eeBlock)
  | d + 1, b, n, p => ∃ i < (extentHeader b).ehEntries,
      Assigns fs d (fs.block (extentIdx b i).leaf) n p

/-- The loop over the extents of a leaf ends at this one. -/
def Extent.Stops (e : Extent) (n : ℕ) : Prop :=
  (n : ℤ) < long e.eeBlock ∨ (n : ℤ) < long (long e.eeBlock + e.eeLen)

/-- An extent of the leaf that the keys lead to, that the loop looks at. -/
def LooksAt (fs : FileSystem w) : ℕ → List UInt8 → ℕ → Extent → Prop
  | 0, b, n, e => ∃ i < (extentHeader b).ehEntries, e = extent b i ∧ ∀ j < i, ¬(extent b j).Stops n
  | d + 1, b, n, e => ∃ i < (extentHeader b).ehEntries, (i = 0 ∨ (extentIdx b i).eiBlock ≤ n) ∧
      (i + 1 < (extentHeader b).ehEntries → n < (extentIdx b (i + 1)).eiBlock) ∧
      LooksAt fs d (fs.block (extentIdx b i).leaf) n e

/-- An extent whose raw length reaches the block is an initialised one, and no number is too large
for a `long`. -/
structure Extent.Safe (e : Extent) (n : ℕ) : Prop where
  reaches : e.eeBlock ≤ n → n < e.eeBlock + e.eeLen → e.Initialised ∧ e.eeBlock + e.eeLen < 2 ^ 31 ∧
    e.start + (n - e.eeBlock) < 2 ^ 31
  above : 2 ^ 31 ≤ e.eeBlock → e.eeBlock + e.eeLen ≤ n + 2 ^ 32

theorem Extent.len_le (e : Extent) : e.len ≤ e.eeLen := by
  unfold Extent.len
  split_ifs <;> omega

theorem eeBlock_lt (b : List UInt8) (i : ℕ) : (extent b i).eeBlock < 2 ^ 32 := by
  have hlt := leValue_lt ((b.drop (12 + 12 * i)).take 4)
  have hlen : ((b.drop (12 + 12 * i)).take 4).length ≤ 4 := List.length_take_le _ _
  exact hlt.trans_le (Nat.pow_le_pow_right (by decide) hlen)

theorem eeLen_lt (b : List UInt8) (i : ℕ) : (extent b i).eeLen < 2 ^ 16 := by
  have hlt := leValue_lt ((b.drop (16 + 12 * i)).take 2)
  have hlen : ((b.drop (16 + 12 * i)).take 2).length ≤ 2 := List.length_take_le _ _
  exact hlt.trans_le (Nat.pow_le_pow_right (by decide) hlen)

theorem leaf_lt (b : List UInt8) (i : ℕ) : (extentIdx b i).leaf < 2 ^ 48 := by
  have hlo := leValue_lt ((b.drop (16 + 12 * i)).take 4)
  have hhi := leValue_lt ((b.drop (20 + 12 * i)).take 2)
  have hlo' : leValue ((b.drop (16 + 12 * i)).take 4) < 256 ^ 4 :=
    hlo.trans_le (Nat.pow_le_pow_right (by decide) (List.length_take_le _ _))
  have hhi' : leValue ((b.drop (20 + 12 * i)).take 2) < 256 ^ 2 :=
    hhi.trans_le (Nat.pow_le_pow_right (by decide) (List.length_take_le _ _))
  simp only [ExtentIdx.leaf, extentIdx]
  omega

theorem Assigns.mem_range (h : Assigns fs d b n p) (hwf : WellFormedTree fs d lo hi b) :
    lo ≤ n ∧ n < hi := by
  induction d generalizing lo hi b with
  | zero =>
      obtain ⟨i, hi', -, hle, hlt, -⟩ := h
      obtain ⟨hlo, hhi⟩ := hwf.2.1 i hi'
      omega
  | succ d ih =>
      obtain ⟨i, hi', hchild⟩ := h
      obtain ⟨hlo, hhi, -, hsub⟩ := hwf.2.1 i hi'
      obtain ⟨h₁, h₂⟩ := ih hchild hsub
      omega

/-! ## The walk -/

theorem idxAbove_spec (b : List UInt8) (n m i : ℕ) :
    i ≤ idxAbove b n m i ∧ idxAbove b n m i ≤ i + m ∧
      (∀ j, i ≤ j → j < idxAbove b n m i → (extentIdx b j).eiBlock ≤ n) ∧
      (idxAbove b n m i < i + m → n < (extentIdx b (idxAbove b n m i)).eiBlock) := by
  induction m generalizing i with
  | zero =>
      refine ⟨le_rfl, le_rfl, ?_, ?_⟩
      · intro j hj hlt
        exact absurd hlt (Nat.not_lt.mpr hj)
      · intro hlt
        exact absurd hlt (lt_irrefl _)
  | succ m ih =>
      rw [idxAbove]
      split_ifs with hkey
      · obtain ⟨h₁, h₂, h₃, h₄⟩ := ih (i + 1)
        refine ⟨by omega, by omega, ?_, fun hlt ↦ h₄ (by omega)⟩
        intro j hj hlt
        obtain rfl | hj := hj.eq_or_lt
        · exact hkey
        · exact h₃ j hj hlt
      · refine ⟨le_rfl, by omega, ?_, fun _ ↦ Nat.not_le.mp hkey⟩
        intro j hj hlt
        exact absurd hlt (Nat.not_lt.mpr hj)

/-- The index the walk follows: the keys lead there. -/
theorem idxAbove_sub_one {entries : ℕ} (hpos : 0 < entries)
    (hsorted : ∀ i j, i < j → j < entries → (extentIdx b i).eiBlock < (extentIdx b j).eiBlock) :
    idxAbove b n entries 0 - 1 < entries ∧
      (idxAbove b n entries 0 - 1 = 0 ∨ (extentIdx b (idxAbove b n entries 0 - 1)).eiBlock ≤ n) ∧
      (idxAbove b n entries 0 - 1 + 1 < entries →
        n < (extentIdx b (idxAbove b n entries 0 - 1 + 1)).eiBlock) := by
  obtain ⟨-, hle, hbelow, habove⟩ := idxAbove_spec b n entries 0
  rw [Nat.zero_add] at hle habove
  generalize idxAbove b n entries 0 = k at *
  cases k with
  | zero =>
      refine ⟨hpos, Or.inl rfl, ?_⟩
      intro hone
      exact (habove hpos).trans (hsorted 0 1 Nat.one_pos hone)
  | succ k =>
      refine ⟨hle, Or.inr (hbelow k (Nat.zero_le k) (Nat.lt_succ_self k)), ?_⟩
      exact habove

/-- The only child that can assign a block is the one the keys lead to. -/
theorem assigns_child {i : ℕ} (hwf : WellFormedTree fs (d + 1) lo hi b)
    (hi' : i < (extentHeader b).ehEntries)
    (hlow : i = 0 ∨ (extentIdx b i).eiBlock ≤ n)
    (hhigh : i + 1 < (extentHeader b).ehEntries → n < (extentIdx b (i + 1)).eiBlock)
    (h : Assigns fs (d + 1) b n p) : Assigns fs d (fs.block (extentIdx b i).leaf) n p := by
  obtain ⟨j, hj, hchild⟩ := h
  obtain ⟨-, hsub, hsorted⟩ := hwf
  obtain ⟨hkey, hupper⟩ := hchild.mem_range (hsub j hj).2.2.2
  obtain hji | rfl | hij := lt_trichotomy j i
  · exfalso
    have hlow' : (extentIdx b i).eiBlock ≤ n := hlow.resolve_left (by omega)
    have hle : (extentIdx b (j + 1)).eiBlock ≤ (extentIdx b i).eiBlock := by
      obtain heq | hlt := (Nat.succ_le_of_lt hji).eq_or_lt
      · rw [← heq]
      · exact (hsorted (j + 1) i hlt hi').le
    rw [upperKey, if_pos (by omega)] at hupper
    omega
  · exact hchild
  · exfalso
    have hnext := hhigh (by omega)
    obtain heq | hlt := (Nat.succ_le_of_lt hij).eq_or_lt
    · rw [← heq] at hkey
      exact absurd hkey (Nat.not_le.mpr hnext)
    · have hsort := hsorted (i + 1) j hlt hj
      omega

/-- The walk ends in a leaf that assigns what the tree assigns. -/
theorem ext4fsGetExtentBlock_spec {fuel : ℕ} (hwf : WellFormedTree fs d lo hi b) (hc : c.Valid fs)
    (hfuel : d < fuel) :
    ∃ c' leaf lo' hi', ext4fsGetExtentBlock fs true n fuel c b = some (c', some leaf) ∧
      c'.Valid fs ∧
      WellFormedTree fs 0 lo' hi' leaf ∧ (∀ e, LooksAt fs 0 leaf n e → LooksAt fs d b n e) ∧
      ∀ p, Assigns fs d b n p ↔ Assigns fs 0 leaf n p := by
  induction d generalizing lo hi b c fuel with
  | zero =>
      obtain ⟨fuel, rfl⟩ := Nat.exists_eq_add_of_lt hfuel
      obtain ⟨hmagic, hdepth, -⟩ := hwf.1
      refine ⟨c, b, lo, hi, ?_, hc, hwf, fun _ ↦ id, fun _ ↦ Iff.rfl⟩
      rw [Nat.zero_add, ext4fsGetExtentBlock]
      dsimp only
      rw [if_neg (not_not.mpr hmagic), if_pos hdepth]
  | succ d ih =>
      obtain ⟨fuel, rfl⟩ := Nat.exists_eq_add_of_lt hfuel
      obtain ⟨⟨hmagic, hdepth, -, hpos⟩, hsub, hsorted⟩ := id hwf
      obtain ⟨hlt, hlow, hhigh⟩ := idxAbove_sub_one (n := n) hpos hsorted
      set i := idxAbove b n (extentHeader b).ehEntries 0 - 1 with hidx
      obtain ⟨-, -, hin, hchild⟩ := hsub i hlt
      have hblock : (extentIdx b i).leaf * 2 ^ fs.log2Sectors % 2 ^ 64 % 2 ^ w =
          (extentIdx b i).leaf * 2 ^ fs.log2Sectors := by
        have hshift : 2 ^ fs.log2Sectors ≤ 2 ^ 16 :=
          Nat.pow_le_pow_right Nat.two_pos ((Nat.sub_le _ _).trans fs.le_max)
        have hbound : (extentIdx b i).leaf * 2 ^ fs.log2Sectors < 2 ^ 48 * 2 ^ 16 :=
          Nat.mul_lt_mul_of_lt_of_le (leaf_lt b i) hshift (Nat.two_pow_pos _)
        rw [Nat.mod_eq_of_lt (hbound.trans_eq (by norm_num)), Nat.mod_eq_of_lt hin.lt]
      obtain ⟨c₁, hread, hc₁⟩ := extCacheRead_spec hc hin
      have hfuel' : d < d + 1 + fuel := by omega
      obtain ⟨c', leaf, lo', hi', hwalk, hc', hleaf, hlooks, hassigns⟩ := ih hchild hc₁ hfuel'
      refine ⟨c', leaf, lo', hi', ?_, hc', hleaf, ?_, ?_⟩
      · rw [ext4fsGetExtentBlock]
        dsimp only
        rw [if_neg (not_not.mpr hmagic), if_neg (by omega), ← hidx, hblock, hread]
        exact hwalk
      · intro e he
        exact ⟨i, hlt, hlow, hhigh, hlooks e he⟩
      · intro p
        rw [← hassigns]
        exact ⟨assigns_child hwf hlt hlow hhigh, fun h ↦ ⟨i, hlt, h⟩⟩

/-! ## The loop over a leaf -/

theorem long_of_lt {z : ℤ} (h : -2 ^ 31 ≤ z) (h' : z < 2 ^ 31) : long z = z := by
  rw [long, Int.bmod_def]
  omega

theorem long_of_ge {z : ℤ} (h : 2 ^ 31 ≤ z) (h' : z < 2 ^ 32) : long z = z - 2 ^ 32 := by
  rw [long, Int.bmod_def]
  omega

/-- A safe extent: its raw length reaches the block, or the loop ends there because it begins above
the block, or the loop goes on. -/
theorem Extent.Safe.cases {e : Extent} (h : e.Safe n) (hn : n < 2 ^ 31)
    (hblock : e.eeBlock < 2 ^ 32) (hlen : e.eeLen < 2 ^ 16) :
    (long e.eeBlock = e.eeBlock ∧ e.eeBlock ≤ n ∧ n < e.eeBlock + e.eeLen ∧
        long (long e.eeBlock + e.eeLen) = e.eeBlock + e.eeLen) ∨
      (long e.eeBlock = e.eeBlock ∧ n < e.eeBlock) ∨
      (¬e.Stops n ∧ (n < e.eeBlock ∨ e.eeBlock + e.eeLen ≤ n)) := by
  obtain ⟨hreach, habove⟩ := h
  obtain hle | hlt := le_or_gt e.eeBlock n
  · have hstart : long (e.eeBlock : ℤ) = e.eeBlock := long_of_lt (by omega) (by omega)
    obtain hin | hout := Nat.lt_or_ge n (e.eeBlock + e.eeLen)
    · obtain ⟨-, hend, -⟩ := hreach hle hin
      refine Or.inl ⟨hstart, hle, hin, ?_⟩
      rw [hstart]
      exact long_of_lt (by omega) (by omega)
    · refine Or.inr (Or.inr ⟨?_, Or.inr hout⟩)
      have hend : long (e.eeBlock + e.eeLen : ℤ) = e.eeBlock + e.eeLen :=
        long_of_lt (by omega) (by omega)
      rw [Extent.Stops, hstart, hend]
      omega
  · obtain hlow | hhigh := Nat.lt_or_ge e.eeBlock (2 ^ 31)
    · exact Or.inr (Or.inl ⟨long_of_lt (by omega) (by omega), hlt⟩)
    · -- the number of the first block is negative as a `long`
      have hend := habove hhigh
      have hstart : long (e.eeBlock : ℤ) = e.eeBlock - 2 ^ 32 := long_of_ge (by omega) (by omega)
      have hsum : long (e.eeBlock - 2 ^ 32 + e.eeLen : ℤ) = e.eeBlock - 2 ^ 32 + e.eeLen :=
        long_of_lt (by omega) (by omega)
      refine Or.inr (Or.inr ⟨?_, Or.inl hlt⟩)
      rw [Extent.Stops, hstart, hsum]
      omega

/-- The loop from the extent with number `i` on finds the extent of the block. -/
theorem findExtent_spec (hwf : WellFormedTree fs 0 lo hi leaf) (hn : n < 2 ^ 31)
    (hsafe : ∀ e, LooksAt fs 0 leaf n e → e.Safe n) (m i : ℕ)
    (hi' : i + m = (extentHeader leaf).ehEntries) (hpassed : ∀ j < i, ¬(extent leaf j).Stops n) :
    (∀ j, i ≤ j → j < (extentHeader leaf).ehEntries → (extent leaf j).Initialised →
      (extent leaf j).eeBlock ≤ n → n < (extent leaf j).eeBlock + (extent leaf j).len →
      findExtent leaf n m i = ((extent leaf j).start + (n - (extent leaf j).eeBlock) : ℕ)) ∧
    ((∀ j, i ≤ j → j < (extentHeader leaf).ehEntries → (extent leaf j).Initialised →
      (extent leaf j).eeBlock ≤ n → (extent leaf j).eeBlock + (extent leaf j).len ≤ n) →
      findExtent leaf n m i = 0) := by
  obtain ⟨-, -, hsorted⟩ := hwf
  induction m generalizing i with
  | zero =>
      refine ⟨?_, fun _ ↦ rfl⟩
      intro j hj hlt
      omega
  | succ m ih =>
      have hlt : i < (extentHeader leaf).ehEntries := by omega
      have hsafe' := hsafe _ ⟨i, hlt, rfl, hpassed⟩
      have hlen := (extent leaf i).len_le
      -- the extents behind this one
      have hnext {j : ℕ} (hij : i < j) (hj : j < (extentHeader leaf).ehEntries) :
          (extent leaf i).eeBlock + (extent leaf i).len ≤ (extent leaf j).eeBlock :=
            hsorted i j hij hj
      rw [findExtent]
      rcases hsafe'.cases hn (eeBlock_lt leaf i) (eeLen_lt leaf i) with
        ⟨hstart, hle, hin, hend⟩ | ⟨hstart, habove⟩ | ⟨hpass, hout⟩
      · obtain ⟨hinit, -, hsmall⟩ := hsafe'.reaches hle hin
        have hleneq : (extent leaf i).len = (extent leaf i).eeLen := if_pos hinit
        have hval : long ((n : ℤ) - (extent leaf i).eeBlock + (extent leaf i).start) =
            ((extent leaf i).start + (n - (extent leaf i).eeBlock) : ℕ) := by
          rw [long_of_lt (by omega) (by omega)]
          omega
        rw [hend, hstart, if_neg (by omega), if_pos (by omega), hval]
        constructor
        · intro j hj hjlt _ hjle _
          obtain rfl | hij := hj.eq_or_lt
          · rfl
          · have hge := hnext hij hjlt
            omega
        · intro hnone
          have hfar := hnone i le_rfl hlt hinit hle
          omega
      · rw [hstart, if_pos (by omega)]
        refine ⟨?_, fun _ ↦ rfl⟩
        intro j hj hjlt _ hjle _
        obtain rfl | hij := hj.eq_or_lt
        · omega
        · have hge := hnext hij hjlt
          omega
      · rw [if_neg (fun h ↦ hpass (Or.inl h)), if_neg (fun h ↦ hpass (Or.inr h))]
        obtain ⟨hfound, hnone⟩ := ih (i + 1) (by omega) (by
          intro j hj
          obtain hj | rfl := (Nat.le_of_lt_succ hj).lt_or_eq
          · exact hpassed j hj
          · exact hpass)
        constructor
        · intro j hj hjlt hinit hjle hjin
          obtain rfl | hij := hj.eq_or_lt
          · omega
          · exact hfound j hij hjlt hinit hjle hjin
        · intro h
          exact hnone fun j hj ↦ h j (by omega)

/-- The call for an inode with extents. -/
theorem readExtent_spec {inode : Inode} {alloc : Allocs} {fuel : ℕ} {bufs : Buffers} (cache : Bool)
    (hwf : WellFormedTree fs d lo hi inode.blocks) (halloc : alloc.cache = true) (hfuel : d < fuel)
    (hc : bufs.cache.Valid fs) (hn : n < 2 ^ 31)
    (hsafe : ∀ e, LooksAt fs d inode.blocks n e → e.Safe n) :
    ∃ (c : ExtBlockCache) (z : ℤ), c.Valid fs ∧
      readExtent fs alloc fuel bufs inode n cache = ({ bufs with cache := c }, .ret z) ∧
      (∀ p, Assigns fs d inode.blocks n p → z = p) ∧
      ((∀ p, ¬Assigns fs d inode.blocks n p) → z = 0) := by
  have hblock : ((n : ℤ) % 2 ^ 32).toNat = n := by omega
  have hstart : ExtBlockCache.Valid fs (if cache then bufs.cache else {}) := by
    split_ifs
    · exact hc
    · rintro buf hbuf
      exact absurd hbuf (by simp)
  obtain ⟨c, leaf, lo', hi', hwalk, hc', hleaf, hlooks, hassigns⟩ :=
    ext4fsGetExtentBlock_spec (n := n) hwf hstart hfuel
  obtain ⟨hfound, hnone⟩ := findExtent_spec hleaf hn (fun e he ↦ hsafe e (hlooks e he))
    (extentHeader leaf).ehEntries 0 (Nat.zero_add _) (fun j hj ↦ absurd hj (Nat.not_lt_zero j))
  have hcall : readExtent fs alloc fuel bufs inode n cache =
      (if cache then { bufs with cache := c } else bufs,
        .ret (findExtent leaf n (extentHeader leaf).ehEntries 0)) := by
    rw [readExtent]
    dsimp only
    rw [hblock, halloc, hwalk]
  refine ⟨if cache then c else bufs.cache, findExtent leaf n (extentHeader leaf).ehEntries 0, ?_,
    ?_, ?_, ?_⟩
  · split_ifs
    · exact hc'
    · exact hc
  · rw [hcall]
    split_ifs <;> rfl
  · intro p hp
    obtain ⟨j, hj, hinit, hle, hin, rfl⟩ := (hassigns p).mp hp
    exact hfound j (Nat.zero_le j) hj hinit hle hin
  · intro hno
    apply hnone
    intro j _ hj hinit hle
    by_contra hin
    exact hno _ ((hassigns _).mpr ⟨j, hj, hinit, hle, Nat.not_le.mp hin, rfl⟩)

end MiniPi.Ext4
