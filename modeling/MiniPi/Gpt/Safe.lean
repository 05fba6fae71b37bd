import MiniPi.Gpt.Parse

/-!
# When the GPT parser stays in its buffers

The size of the header, the number of entries and their size are taken from the disk.  The header is
read as far as the disk says, and an entry is taken to have 128 bytes whatever the disk says.
-/

namespace MiniPi.Gpt

variable {m : Machine} {h : Bytes} {e : Entries} {lba : UInt32}

/-! ## Sizes -/

/-- The allocated buffer holds what is counted. -/
def Padded (m : Machine) (h : Bytes) : Prop := (count h).toNat + m.dev.blksz ≤ 2 ^ 32

theorem blockCnt_toNat (m : Machine) {size : UInt32} (h0 : size ≠ 0) :
    (blockCnt m size).toNat = (size.toNat - 1) / m.dev.blksz + 1 := by
  have hpos : 0 < size.toNat := by
    rw [Nat.pos_iff_ne_zero]
    exact fun hz ↦ h0 (UInt32.toNat_inj.mp hz)
  have hlt := size.toNat_lt
  have hle : (size.toNat - 1) / m.dev.blksz ≤ (2 ^ 32 - 2) / 512 :=
    Nat.div_le_div (by omega) m.dev.le_blksz (by decide)
  have hone : (size - 1).toNat = size.toNat - 1 := by
    rw [UInt32.toNat_sub]
    simp
    omega
  rw [blockCnt, padCount, UInt32.toNat_add, UInt32.toNat_div, hone, m.dev.blksz_toNat]
  simp
  omega

/-- The padded size, unless it is `2 ^ 32`. -/
theorem padToBlocksize_toNat (m : Machine) {size : UInt32} (h0 : size ≠ 0) :
    (padToBlocksize m size).toNat = ((size.toNat - 1) / m.dev.blksz + 1) * m.dev.blksz %
    2 ^ 32 := by
  rw [padToBlocksize, UInt32.toNat_mul, blockCnt_toNat m h0, m.dev.blksz_toNat]

theorem count_le_padded (h0 : count h ≠ 0) :
    (count h).toNat ≤ (padToBlocksize m (count h)).toNat ↔ Padded m h := by
  have hblk := m.dev.blksz_mem
  have hlt := (count h).toNat_lt
  have hpos : 0 < (count h).toNat := by
    rw [Nat.pos_iff_ne_zero]
    exact fun hz ↦ h0 (UInt32.toNat_inj.mp hz)
  rw [padToBlocksize_toNat m h0, Padded]
  generalize (count h).toNat = n at hlt hpos
  simp only [blockSizes, List.mem_cons, List.not_mem_nil, or_false] at hblk
  obtain hb | hb | hb | hb | hb | hb := hblk <;> rw [hb] <;> omega

theorem dvd_padded (h0 : count h ≠ 0) : 128 ∣ (padToBlocksize m (count h)).toNat := by
  have hblk := m.dev.blksz_mem
  rw [padToBlocksize_toNat m h0]
  simp only [blockSizes, List.mem_cons, List.not_mem_nil, or_false] at hblk
  obtain hb | hb | hb | hb | hb | hb := hblk <;> rw [hb] <;> omega

/-! ## Reads -/

theorem readBytes_ne_none {data : Bytes} {size off len : ℕ} :
    readBytes data size off len ≠ none ↔ off + len ≤ size := by
  rw [readBytes]
  split_ifs with hle <;> simp [hle]

theorem isPteValid_ne_none {i : ℕ} (hdvd : 128 ∣ e.size) :
    isPteValid e i ≠ none ↔ (i + 1) * 128 ≤ e.size := by
  obtain ⟨k, hk⟩ := hdvd
  have hread : isPteValid e i ≠ none ↔ readBytes e.data e.size (i * 128) 16 ≠ none := by
    rw [isPteValid]
    cases readBytes e.data e.size (i * 128) 16 <;> simp
  rw [hread, readBytes_ne_none]
  omega

/-- The loop that prints stays in the buffer, if it is as long as the entries that are counted. -/
theorem printLoop_ne_none (hdvd : 128 ∣ e.size) {n i : ℕ} (hle : (i + n) * 128 ≤ e.size) :
    printLoop e n i ≠ none := by
  induction n generalizing i with
  | zero => simp [printLoop]
  | succ n ih =>
      have hvalid : isPteValid e i ≠ none := (isPteValid_ne_none hdvd).mpr (by omega)
      have hread : readBytes e.data e.size (i * 128) 128 ≠ none := readBytes_ne_none.mpr (by omega)
      have hrec := @ih (i + 1) (by omega)
      obtain ⟨b, hb⟩ := Option.ne_none_iff_exists'.mp hvalid
      obtain ⟨bytes, hbytes⟩ := Option.ne_none_iff_exists'.mp hread
      obtain ⟨es, hes⟩ := Option.ne_none_iff_exists'.mp hrec
      rw [printLoop, hb, hbytes, hes]
      cases b <;> simp

/-! ## Headers -/

/-- The header at some block, when the protective MBR can be read as well. -/
def HeaderAt (m : Machine) (lba : UInt32) (h : Bytes) : Prop :=
  (∃ mbr, m.block 0 = some mbr) ∧ m.block lba = some h

/-- The header has the signature, its checksum and its block numbers are right. -/
def ValidHeader (m : Machine) (lba : UInt32) (h : Bytes) : Prop :=
  signature h = gptHeaderSignature ∧
    (m.crc32 ((clearCrc h).take (headerSize h))).toNat = headerCrc32 h ∧
    myLba h = lba.toNat ∧ firstUsableLba h ≤ m.dev.lba.toNat ∧ lastUsableLba h ≤ m.dev.lba.toNat

/-- The entries are read into their buffer, and their checksum is right. -/
def ValidEntries (m : Machine) (h : Bytes) (e : Entries) : Prop :=
  allocReadGptEntries m h = some e ∧
    (m.crc32 (e.data.take (count h).toNat)).toNat = partitionEntryArrayCrc32 h

/-- There is a valid GPT with its header at some block. -/
def Valid (m : Machine) (lba : UInt32) (h : Bytes) (e : Entries) : Prop :=
  HeaderAt m lba h ∧ ValidHeader m lba h ∧ ValidEntries m h e

/-- The header at some block is not longer than a block, and the entries fit the buffer that is
allocated for them. -/
structure Fits (m : Machine) (lba : UInt32) : Prop where
  header : ∀ h, HeaderAt m lba h → signature h = gptHeaderSignature → headerSize h ≤ m.dev.blksz
  entries : ∀ h e, HeaderAt m lba h → ValidHeader m lba h → allocReadGptEntries m h = some e →
    Padded m h

theorem validateGptHeader_eq (hsig : signature h = gptHeaderSignature)
    (hfits : headerSize h ≤ m.dev.blksz) :
    ∃ b, validateGptHeader m h lba m.dev.lba = some b ∧ (b = true ↔ ValidHeader m lba h) := by
  have hread : readBytes (clearCrc h) m.dev.blksz 0 (headerSize h) =
      some ((clearCrc h).take (headerSize h)) := by
    rw [readBytes, if_pos (by omega), List.drop_zero]
  rw [validateGptHeader, if_neg (not_not.mpr hsig), hread]
  dsimp only [Option.bind_eq_bind, Option.bind_some]
  by_cases hcrc : (m.crc32 ((clearCrc h).take (headerSize h))).toNat = headerCrc32 h
  · rw [if_neg (not_not.mpr hcrc)]
    exact ⟨_, rfl, by simp [ValidHeader, hsig, hcrc]⟩
  · rw [if_pos hcrc]
    exact ⟨_, rfl, by simp [ValidHeader, hcrc]⟩

theorem validateGptHeader_unsigned (hsig : signature h ≠ gptHeaderSignature) :
    validateGptHeader m h lba m.dev.lba = some false := by
  rw [validateGptHeader, if_pos hsig]

theorem validateGptHeader_outside (hsig : signature h = gptHeaderSignature)
    (hlong : ¬headerSize h ≤ m.dev.blksz) : validateGptHeader m h lba m.dev.lba = none := by
  have hread : readBytes (clearCrc h) m.dev.blksz 0 (headerSize h) = none := by
    rw [readBytes, if_neg (by omega)]
  rw [validateGptHeader, if_neg (not_not.mpr hsig), hread]
  rfl

theorem allocReadGptEntries_spec (he : allocReadGptEntries m h = some e) :
    count h ≠ 0 ∧ e.size = (padToBlocksize m (count h)).toNat := by
  rw [allocReadGptEntries] at he
  split_ifs at he with hno
  rw [not_or] at hno
  obtain ⟨data, -, rfl⟩ := Option.map_eq_some_iff.mp he
  exact ⟨hno.1, rfl⟩

theorem validateGptEntries_eq (he : allocReadGptEntries m h = some e) (hpad : Padded m h) :
    ∃ b, validateGptEntries m h e = some b ∧ (b = true ↔ ValidEntries m h e) := by
  obtain ⟨h0, hsize⟩ := allocReadGptEntries_spec he
  have hread : readBytes e.data e.size 0 (count h).toNat = some (e.data.take (count h).toNat) := by
    rw [readBytes, hsize, if_pos (by rw [Nat.zero_add]; exact (count_le_padded h0).mpr hpad),
      List.drop_zero]
  rw [validateGptEntries, hread]
  exact ⟨_, rfl, by simp [ValidEntries, he]⟩

theorem validateGptEntries_outside (he : allocReadGptEntries m h = some e) (hpad : ¬Padded m h) :
    validateGptEntries m h e = none := by
  obtain ⟨h0, hsize⟩ := allocReadGptEntries_spec he
  have hread : readBytes e.data e.size 0 (count h).toNat = none := by
    rw [readBytes, hsize, if_neg (by rw [Nat.zero_add]; exact mt (count_le_padded h0).mp hpad)]
  rw [validateGptEntries, hread]
  rfl

theorem signature_ne (hsig : signature h = gptHeaderSignature) :
    signature h ≠ gptHeaderChromeosIgnore := by
  rw [hsig]
  decide

/-- A header that does not fit is read outside of its buffer. -/
theorem fits_of_isGptValid (hrun : isGptValid m lba ≠ none) : Fits m lba := by
  have hheader : ∀ h, HeaderAt m lba h → signature h = gptHeaderSignature →
      headerSize h ≤ m.dev.blksz := by
    rintro h ⟨⟨mbr, hmbr⟩, hblock⟩ hsig
    by_contra hlong
    refine hrun ?_
    rw [isGptValid, hmbr, hblock]
    dsimp only
    rw [if_neg (signature_ne hsig), validateGptHeader_outside hsig hlong]
    rfl
  refine ⟨hheader, ?_⟩
  intro h e hat hvalid he
  obtain ⟨b, hval, hb⟩ := @validateGptHeader_eq m h lba hvalid.1 (hheader h hat hvalid.1)
  obtain rfl := hb.mpr hvalid
  obtain ⟨⟨mbr, hmbr⟩, hblock⟩ := hat
  by_contra hpad
  refine hrun ?_
  rw [isGptValid, hmbr, hblock]
  dsimp only
  rw [if_neg (signature_ne hvalid.1), hval, Option.bind_eq_bind, Option.bind_some, if_pos rfl, he]
  dsimp only
  rw [validateGptEntries_outside he hpad]
  rfl

/-- A header that fits is judged. -/
theorem isGptValid_eq (hfits : Fits m lba) : ∃ v, isGptValid m lba = some v ∧
    ∀ h e, v = .valid h e ↔ Valid m lba h e := by
  have hnone (hno : ∀ h, ¬HeaderAt m lba h) (h : Bytes) (e : Entries) :
      Validity.error = .valid h e ↔ Valid m lba h e :=
    iff_of_false (by simp) fun hvalid ↦ hno h hvalid.1
  rw [isGptValid]
  cases hmbr : m.block 0 with
  | none => exact ⟨_, rfl, hnone fun h hat ↦ hat.1.elim fun mbr hm ↦ by simp [hmbr] at hm⟩
  | some mbr =>
      cases hblock : m.block lba with
      | none => exact ⟨_, rfl, hnone fun h hat ↦ by simp [HeaderAt, hblock] at hat⟩
      | some h =>
          have hat : HeaderAt m lba h := ⟨⟨mbr, hmbr⟩, hblock⟩
          have huniq : ∀ h', HeaderAt m lba h' → h' = h := fun h' hat' ↦
            Option.some.inj (hat'.2.symm.trans hblock)
          -- what is not valid here is not valid at all
          have hnot (v : Validity) (hv : ∀ h' e', v ≠ .valid h' e') (hno : ∀ e', ¬Valid m lba h e')
              (h' : Bytes) (e' : Entries) : v = .valid h' e' ↔ Valid m lba h' e' :=
            iff_of_false (hv h' e') fun hvalid ↦ hno e' (huniq h' hvalid.1 ▸ hvalid)
          dsimp only
          by_cases hignore : signature h = gptHeaderChromeosIgnore
          · rw [if_pos hignore]
            exact ⟨_, rfl, hnot _ (by simp) fun e' hvalid ↦ signature_ne hvalid.2.1.1 hignore⟩
          rw [if_neg hignore]
          by_cases hsig : signature h = gptHeaderSignature
          swap
          · rw [validateGptHeader_unsigned hsig]
            exact ⟨_, rfl, hnot _ (by simp) fun e' hvalid ↦ hsig hvalid.2.1.1⟩
          obtain ⟨b, hval, hb⟩ := @validateGptHeader_eq m h lba hsig (hfits.header h hat hsig)
          rw [hval, Option.bind_eq_bind, Option.bind_some]
          by_cases hvalid : ValidHeader m lba h
          swap
          · rw [if_neg (mt hb.mp hvalid)]
            exact ⟨_, rfl, hnot _ (by simp) fun e' h' ↦ hvalid h'.2.1⟩
          rw [if_pos (hb.mpr hvalid)]
          cases he : allocReadGptEntries m h with
          | none => exact ⟨_, rfl, hnot _ (by simp) fun e' h' ↦ by simp [h'.2.2.1] at he⟩
          | some e =>
              obtain ⟨b', hval', hb'⟩ := validateGptEntries_eq he (hfits.entries h e hat hvalid he)
              dsimp only
              rw [hval', Option.bind_some]
              by_cases hentries : ValidEntries m h e
              · rw [if_pos (hb'.mpr hentries)]
                refine ⟨_, rfl, fun h' e' ↦ ⟨?_, ?_⟩⟩
                · rintro ⟨⟩
                  exact ⟨hat, hvalid, hentries⟩
                · intro h''
                  obtain rfl := huniq h' h''.1
                  rw [Option.some.inj (he.symm.trans h''.2.2.1)]
              · rw [if_neg (mt hb'.mp hentries)]
                refine ⟨_, rfl, hnot _ (by simp) fun e' h'' ↦ hentries ?_⟩
                rw [Option.some.inj (he.symm.trans h''.2.2.1)]
                exact h''.2.2

/-! ## The whole parser -/

/-- The GPT that is used: the primary one, or the backup where the primary one is not valid. -/
def Used (m : Machine) (h : Bytes) (e : Entries) : Prop :=
  Valid m 1 h e ∨ (∀ h' e', ¬Valid m 1 h' e') ∧ Valid m (m.dev.lba - 1) h e

/-- The headers that are looked at fit their buffers, and the entries of the GPT that is used, of
128 bytes each, fit theirs. -/
structure SafeDisk (m : Machine) : Prop where
  primary : Fits m 1
  backup : (∀ h e, ¬Valid m 1 h e) → Fits m (m.dev.lba - 1)
  entries : ∀ h e, Used m h e →
    numPartitionEntries h * 128 ≤ (padToBlocksize m (count h)).toNat

/-- The backup is looked at when the primary GPT is not valid. -/
theorem findValidGpt_backup {v : Validity} (hv : isGptValid m 1 = some v)
    (hno : ∀ h e, v ≠ .valid h e) :
    findValidGpt m = (isGptValid m (m.dev.lba - 1)).bind fun w ↦
      Validity.rec (some none) (some none) (fun h e ↦ some (some (h, e))) w := by
  rw [findValidGpt, hv, Option.bind_eq_bind, Option.bind_some]
  cases v with
  | valid h e => exact absurd rfl (hno h e)
  | error =>
      refine congrArg (Option.bind _) (funext fun w ↦ ?_)
      cases w <;> rfl
  | ignored =>
      refine congrArg (Option.bind _) (funext fun w ↦ ?_)
      cases w <;> rfl

theorem findValidGpt_eq (h1 : Fits m 1) (h2 : (∀ h e, ¬Valid m 1 h e) → Fits m (m.dev.lba - 1)) :
    ∃ r, findValidGpt m = some r ∧ ∀ h e, r = some (h, e) ↔ Used m h e := by
  obtain ⟨v, hv, hiff⟩ := isGptValid_eq h1
  by_cases hprimary : ∃ h e, Valid m 1 h e
  · obtain ⟨h, e, hvalid⟩ := hprimary
    obtain rfl := (hiff h e).mpr hvalid
    refine ⟨some (h, e), ?_, ?_⟩
    · rw [findValidGpt, hv]
      rfl
    · intro h' e'
      have huse : Used m h' e' ↔ Valid m 1 h' e' :=
        ⟨fun hu ↦ hu.resolve_right fun hno ↦ hno.1 h e hvalid, .inl⟩
      rw [huse, ← hiff h' e']
      simp
  · have hno : ∀ h e, ¬Valid m 1 h e := fun h e hvalid ↦ hprimary ⟨h, e, hvalid⟩
    have hv' : ∀ h e, v ≠ .valid h e := fun h e hv' ↦ hno h e ((hiff h e).mp hv')
    obtain ⟨w, hw, hiff'⟩ := isGptValid_eq (h2 hno)
    have huse (h : Bytes) (e : Entries) : Used m h e ↔ w = .valid h e := by
      rw [hiff' h e]
      exact ⟨fun hu ↦ (hu.resolve_left (hno h e)).2, fun hb ↦ .inr ⟨hno, hb⟩⟩
    rw [findValidGpt_backup hv hv', hw, Option.bind_some]
    cases w with
    | error => exact ⟨none, rfl, fun h e ↦ by rw [huse]; simp⟩
    | ignored => exact ⟨none, rfl, fun h e ↦ by rw [huse]; simp⟩
    | valid h e => exact ⟨some (h, e), rfl, fun h' e' ↦ by rw [huse]; simp⟩

/-- A search that stays in its buffers looked at headers that fit. -/
theorem fits_of_findValidGpt (hrun : findValidGpt m ≠ none) :
    Fits m 1 ∧ ((∀ h e, ¬Valid m 1 h e) → Fits m (m.dev.lba - 1)) := by
  have h1 : isGptValid m 1 ≠ none := by
    intro hnone
    rw [findValidGpt, hnone] at hrun
    exact hrun rfl
  have hfits := fits_of_isGptValid h1
  refine ⟨hfits, ?_⟩
  intro hno
  obtain ⟨v, hv, hiff⟩ := isGptValid_eq hfits
  apply fits_of_isGptValid
  intro hnone
  rw [findValidGpt_backup hv fun h e hv' ↦ hno h e ((hiff h e).mp hv'), hnone] at hrun
  exact hrun rfl

theorem used_size (huse : Used m h e) :
    count h ≠ 0 ∧ e.size = (padToBlocksize m (count h)).toNat := by
  obtain hvalid | ⟨-, hvalid⟩ := huse
  · exact allocReadGptEntries_spec hvalid.2.2.1
  · exact allocReadGptEntries_spec hvalid.2.2.1

theorem partGetInfoEfi_ne_none (hsafe : SafeDisk m) (part : ℤ) : partGetInfoEfi m part ≠ none := by
  rw [partGetInfoEfi]
  by_cases hpart : part < 1
  · rw [if_pos hpart]
    simp
  obtain ⟨r, hr, huse⟩ := findValidGpt_eq hsafe.primary hsafe.backup
  rw [if_neg hpart, hr, Option.bind_eq_bind, Option.bind_some]
  cases r with
  | none => simp
  | some he =>
      obtain ⟨h, e⟩ := he
      have hu := (huse h e).mp rfl
      obtain ⟨h0, hsize⟩ := used_size hu
      have hall := hsafe.entries h e hu
      have hdvd : 128 ∣ e.size := hsize ▸ dvd_padded h0
      dsimp only
      by_cases hnum : (numPartitionEntries h : ℤ) < part
      · rw [if_pos hnum]
        simp
      rw [if_neg hnum]
      have hin : ((part - 1).toNat + 1) * 128 ≤ e.size := by omega
      obtain ⟨b, hb⟩ := Option.ne_none_iff_exists'.mp ((isPteValid_ne_none hdvd).mpr hin)
      obtain ⟨bytes, hbytes⟩ := Option.ne_none_iff_exists'.mp
        (readBytes_ne_none.mpr (by omega :
          (part - 1).toNat * 128 + 128 ≤ e.size) : readBytes e.data e.size _ 128 ≠ none)
      rw [hb, hbytes]
      cases b <;> simp

theorem partPrintEfi_ne_none (hsafe : SafeDisk m) : partPrintEfi m ≠ none := by
  obtain ⟨r, hr, huse⟩ := findValidGpt_eq hsafe.primary hsafe.backup
  rw [partPrintEfi, hr, Option.bind_eq_bind, Option.bind_some]
  cases r with
  | none => simp
  | some he =>
      obtain ⟨h, e⟩ := he
      have hu := (huse h e).mp rfl
      obtain ⟨h0, hsize⟩ := used_size hu
      have hall := hsafe.entries h e hu
      apply printLoop_ne_none (hsize ▸ dvd_padded h0)
      omega

/-- The last entry that may be asked for is in the buffer. -/
theorem entries_of_partGetInfoEfi (h1 : Fits m 1)
    (h2 : (∀ h e, ¬Valid m 1 h e) → Fits m (m.dev.lba - 1)) (huse : Used m h e)
    (hrun : partGetInfoEfi m (numPartitionEntries h) ≠ none) :
    numPartitionEntries h * 128 ≤ (padToBlocksize m (count h)).toNat := by
  obtain ⟨r, hr, hiff⟩ := findValidGpt_eq h1 h2
  obtain rfl := (hiff h e).mpr huse
  obtain ⟨h0, hsize⟩ := used_size huse
  rcases Nat.eq_zero_or_pos (numPartitionEntries h) with hz | hpos
  · omega
  by_contra hlong
  refine hrun ?_
  have hout : isPteValid e (numPartitionEntries h - 1) = none := by
    by_contra hin
    have := (isPteValid_ne_none (hsize ▸ dvd_padded h0)).mp hin
    rw [Nat.sub_add_cancel hpos, hsize] at this
    exact hlong this
  have hindex : ((numPartitionEntries h : ℤ) - 1).toNat = numPartitionEntries h - 1 := by omega
  rw [partGetInfoEfi, if_neg (by omega), hr, Option.bind_eq_bind, Option.bind_some]
  dsimp only
  rw [if_neg (by omega), hindex, hout]
  rfl

/-- Reading a GPT stays inside the buffers if and only if the numbers of the disk fit them. -/
theorem gptParse_inside_iff (m : Machine) :
    ((∀ part : ℤ, 1 ≤ part → partGetInfoEfi m part ≠ none) ∧ partPrintEfi m ≠ none) ↔
      SafeDisk m := by
  constructor
  · rintro ⟨hinfo, hprint⟩
    have hfind : findValidGpt m ≠ none := by
      intro hnone
      rw [partPrintEfi, hnone] at hprint
      exact hprint rfl
    obtain ⟨h1, h2⟩ := fits_of_findValidGpt hfind
    refine ⟨h1, h2, ?_⟩
    intro h e huse
    rcases Nat.eq_zero_or_pos (numPartitionEntries h) with hz | hpos
    · omega
    · exact entries_of_partGetInfoEfi h1 h2 huse (hinfo _ (by omega))
  · intro hsafe
    exact ⟨fun part _ ↦ partGetInfoEfi_ne_none hsafe part, partPrintEfi_ne_none hsafe⟩

/-! ## A header that is longer than its block -/

/-- A header with the signature, a size of 513 bytes and nothing else. -/
def longHeader : Bytes :=
  Lib.ascii "EFI PART" ++ [0, 0, 1, 0] ++ Lib.leBytes 4 513 ++ List.replicate 496 0

theorem length_longHeader : longHeader.length = 512 := by decide +kernel

/-- The blocks of a disk with this header. -/
def longHeaderBlock (i : UInt32) : Option Bytes :=
  some (if i = 1 then longHeader else List.replicate 512 0)

theorem length_longHeaderBlock (i : UInt32) (b : Bytes) (hb : longHeaderBlock i = some b) :
    b.length = smallDev.blksz := by
  obtain rfl := Option.some.inj hb
  split
  · exact length_longHeader
  · exact List.length_replicate

/-- The checksum does not matter: the bytes it is computed from are not all in the buffer. -/
def longHeaderMachine : Machine :=
  ⟨smallDev, longHeaderBlock, length_longHeaderBlock, fun _ ↦ 0, fun _ ↦ true⟩

theorem signature_longHeader : signature longHeader = gptHeaderSignature := by decide +kernel

theorem headerSize_longHeader : headerSize longHeader = 513 := by decide +kernel

theorem not_fits_longHeader : ¬Fits longHeaderMachine 1 := by
  intro hfits
  have hle := hfits.header longHeader ⟨⟨_, rfl⟩, rfl⟩ signature_longHeader
  rw [headerSize_longHeader] at hle
  exact absurd hle (by decide)

theorem findValidGpt_longHeader : findValidGpt longHeaderMachine = none := by
  by_contra hrun
  exact not_fits_longHeader (fits_of_findValidGpt hrun).1

/-- Both functions read behind the buffer of the header. -/
theorem not_gptParse_inside :
    partGetInfoEfi longHeaderMachine 1 = none ∧ partPrintEfi longHeaderMachine = none := by
  constructor
  · rw [partGetInfoEfi, findValidGpt_longHeader]
    rfl
  · rw [partPrintEfi, findValidGpt_longHeader]
    rfl

end MiniPi.Gpt
