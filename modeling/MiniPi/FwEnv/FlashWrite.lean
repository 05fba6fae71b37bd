import MiniPi.Lib.Blocks
import MiniPi.FwEnv.Flash

/-!
# The environment is written to flash

`flash_write_buf` writes the environment to the good blocks and keeps the rest of the last one,
where the sectors of NOR flash are those that the environment needs.
-/

namespace MiniPi.FwEnv

open Lib

section

variable {m : Mem} {n : ℕ} {data : List UInt8}

theorem and_erased (b : UInt8) : 0xff &&& b = b := by
  rw [← UInt8.toBitVec_inj, UInt8.toBitVec_and]
  exact BitVec.allOnes_and

/-- The erased bytes take any values. -/
theorem write_program (pos : ℕ) (bytes : List UInt8) :
    (m.write pos (List.replicate bytes.length 0xff)).write pos
      (List.zipWith (· &&& ·)
        ((m.write pos (List.replicate bytes.length 0xff)).slice pos bytes.length) bytes) =
        m.write pos bytes := by
  have hself := @Mem.slice_write_self m pos (List.replicate bytes.length 0xff)
  rw [List.length_replicate] at hself
  have hand : List.zipWith (· &&& ·) (List.replicate bytes.length (0xff : UInt8)) bytes =
      bytes := by
    apply List.ext_getElem
    · simp
    · intro i hi _
      rw [List.getElem_zipWith, List.getElem_replicate]
      exact and_erased _
  rw [hself, hand]
  funext p
  obtain hp | hp := Nat.lt_or_ge p pos
  · rw [Mem.write_of_lt hp, Mem.write_of_lt hp, Mem.write_of_lt hp]
  · obtain ⟨i, rfl⟩ := Nat.exists_eq_add_of_le hp
    obtain hi | hi := Nat.lt_or_ge i bytes.length
    · rw [Mem.write_add hi, Mem.write_add hi]
    · rw [Mem.write_of_le (by omega), Mem.write_of_le (by simp; omega), Mem.write_of_le (by omega)]

theorem part_eq {heap : ℕ → UInt8} {k : ℕ} (hlen : k + n ≤ data.length) :
    Flash.part data heap k n = (data.drop k).take n := by
  apply List.ext_getElem
  · simp only [Flash.part, List.length_map, List.length_range, List.length_take, List.length_drop]
    omega
  · intro i hi _
    have hi' : i < n := by simpa [Flash.part] using hi
    simp only [Flash.part, List.getElem_map, List.getElem_range, List.getElem_take,
      List.getElem_drop]
    rw [List.getD_eq_getElem _ _ (by omega)]

end

/-! ## Good blocks -/

/-- The loops visit the good blocks at `us`, from `s` on and up to `stop`. -/
inductive Visits (d : Flash) (n stop : ℕ) : ℕ → List ℕ → Prop
  | done {s : ℕ} : Visits d n stop s []
  | bad {s : ℕ} {us : List ℕ} : s < d.size → s + n ≤ stop → d.bad s = true →
      Visits d n stop (s + n) us →
      Visits d n stop s us
  | good {s : ℕ} {us : List ℕ} : s < d.size → s + n ≤ d.size → s + n ≤ stop → d.bad s = false →
      Visits d n stop (s + n) us → Visits d n stop s (s :: us)

section

variable {dev : EnvDevice} {d d' : Flash} {n stop s : ℕ} {us : List ℕ} {data buf : List UInt8}
  {fuel count : ℕ}

theorem Visits.congr (hv : Visits d n stop s us) (hsize : d'.size = d.size)
    (hbad : d'.bad = d.bad) :
    Visits d' n stop s us := by
  induction hv with
  | done => exact .done
  | bad hlt hle hb _ ih => exact .bad (hsize ▸ hlt) hle (hbad ▸ hb) ih
  | good hlt hsz hle hb _ ih => exact .good (hsize ▸ hlt) (hsize ▸ hsz) hle (hbad ▸ hb) ih

/-- The blocks that are visited. -/
theorem Visits.mem (hv : Visits d n stop s us) :
    (∀ t ∈ us, s ≤ t ∧ t + n ≤ stop ∧ d.bad t = false ∧ n ∣ t - s) ∧
    us.Pairwise fun t t' ↦ t + n ≤ t' := by
  induction hv with
  | done => exact ⟨by simp, List.Pairwise.nil⟩
  | @bad s us _ _ _ _ ih =>
      refine ⟨fun t ht ↦ ?_, ih.2⟩
      obtain ⟨hle, hstop, hbad, hdvd⟩ := ih.1 t ht
      refine ⟨by omega, hstop, hbad, ?_⟩
      have hsub : t - s = t - (s + n) + n := by omega
      exact hsub ▸ Nat.dvd_add hdvd dvd_rfl
  | @good s us _ _ hstop hbad _ ih =>
      refine ⟨List.forall_mem_cons.2 ⟨⟨le_rfl, hstop, hbad, by simp⟩, fun t ht ↦ ?_⟩,
        List.pairwise_cons.2 ⟨fun t ht ↦ (ih.1 t ht).1, ih.2⟩⟩
      obtain ⟨hle, hstop', hbad', hdvd⟩ := ih.1 t ht
      refine ⟨by omega, hstop', hbad', ?_⟩
      have hsub : t - s = t - (s + n) + n := by omega
      exact hsub ▸ Nat.dvd_add hdvd dvd_rfl

namespace Flash

/-- More fuel does not matter. -/
theorem readLoop_add {blocklen blockstart blockSeek readlen k : ℕ} {r : List UInt8}
    (h : d.readLoop dev count blocklen fuel blockstart blockSeek readlen buf = some r) :
    d.readLoop dev count blocklen (fuel + k) blockstart blockSeek readlen buf = some r := by
  induction fuel generalizing blockstart blockSeek readlen buf with
  | zero => simp [readLoop] at h
  | succ fuel ih =>
      rw [Nat.add_right_comm, readLoop]
      rw [readLoop] at h
      by_cases hdone : count ≤ buf.length
      · rw [if_pos hdone] at h ⊢
        exact h
      · rw [if_neg hdone] at h ⊢
        cases hbad : d.flashBadBlock dev.mtdType blockstart with
        | none => simp [hbad] at h
        | some bad =>
            simp only [hbad, Option.bind_eq_bind, Option.bind_some] at h ⊢
            split_ifs at h ⊢ with hend hb
            · exact ih h
            · cases hread : d.read ((blockstart + blockSeek) % 2 ^ 64) readlen with
              | none => simp only [hread, Option.bind_none, reduceCtorEq] at h
              | some bytes =>
                  simp only [hread, Option.bind_some] at h ⊢
                  exact ih h

theorem flashReadBuf_inj {fuel' offset : ℕ} {r r' : List UInt8}
    (h : d.flashReadBuf dev fuel count offset = some r)
    (h' : d.flashReadBuf dev fuel' count offset = some r') :
    r = r' := by
  unfold flashReadBuf at h h'
  simp only at h h'
  split_ifs at h h'
  · have hadd := readLoop_add (k := fuel') h
    rw [Nat.add_comm, readLoop_add h'] at hadd
    exact (Option.some.inj hadd).symm
  · have hadd := readLoop_add (k := fuel') h
    rw [Nat.add_comm, readLoop_add h'] at hadd
    exact (Option.some.inj hadd).symm

/-- `flash_read_buf` reads the good blocks. -/
theorem readLoop_visits (hnand : dev.mtdType = .nandFlash) (hstop : stop ≤ dev.environmentEnd)
    (hsmall : n ≤ maxRw) (hv : Visits d n stop s us) (hcount : count ≤ buf.length + us.length * n) :
    ∃ fuel, d.readLoop dev count n fuel s 0 (min n (count - buf.length)) buf =
      some (buf ++ (Mem.blocks d.content n us).take (count - buf.length)) := by
  have hsize := d.size_lt
  have hrw : maxRw = 0x7ffff000 := rfl
  induction hv generalizing buf with
  | done =>
      refine ⟨1, ?_⟩
      rw [readLoop, if_pos (by simpa using hcount)]
      simp [Mem.blocks]
  | @bad s us hlt hle hbad _ ih =>
      by_cases hdone : count ≤ buf.length
      · refine ⟨1, ?_⟩
        rw [readLoop, if_pos hdone, Nat.sub_eq_zero_of_le hdone]
        simp
      · obtain ⟨fuel, hfuel⟩ := ih hcount
        refine ⟨fuel + 1, ?_⟩
        have hmod : (s + n) % 2 ^ 64 = s + n := Nat.mod_eq_of_lt (by omega)
        have hend : ¬ dev.environmentEnd < (s + 0 + min n (count - buf.length)) % 2 ^ 64 := by
          rw [Nat.mod_eq_of_lt (by omega)]
          omega
        have hblock : d.flashBadBlock dev.mtdType s = some true := by
          rw [flashBadBlock, if_pos hnand, if_pos hlt, hbad]
        rw [readLoop, if_neg hdone, hblock]
        simp only [Option.bind_eq_bind, Option.bind_some, if_neg hend, if_true, hmod]
        exact hfuel
  | @good s us hlt hsz hle hbad _ ih =>
      by_cases hdone : count ≤ buf.length
      · refine ⟨1, ?_⟩
        rw [readLoop, if_pos hdone, Nat.sub_eq_zero_of_le hdone]
        simp
      · rw [List.length_cons, Nat.succ_mul] at hcount
        obtain ⟨fuel, hfuel⟩ := @ih (buf ++ d.content.slice s (min n (count - buf.length)))
          (by rw [List.length_append, Mem.length_slice]; omega)
        refine ⟨fuel + 1, ?_⟩
        have hmod : (s + n) % 2 ^ 64 = s + n := Nat.mod_eq_of_lt (by omega)
        have hseek : (s + 0) % 2 ^ 64 = s := Nat.mod_eq_of_lt (by omega)
        have hend : ¬ dev.environmentEnd < (s + 0 + min n (count - buf.length)) % 2 ^ 64 := by
          rw [Nat.mod_eq_of_lt (by omega)]
          omega
        have hblock : d.flashBadBlock dev.mtdType s = some false := by
          rw [flashBadBlock, if_pos hnand, if_pos hlt, hbad]
        have hread : d.read s (min n (count - buf.length)) =
            some (d.content.slice s (min n (count - buf.length))) := by
          rw [read, if_pos (by omega)]
        rw [readLoop, if_neg hdone, hblock]
        simp only [Option.bind_eq_bind, Option.bind_some, if_neg hend, Bool.false_eq_true, if_false,
          hmod, hseek, hread]
        rw [hfuel, List.append_assoc, Mem.take_blocks, List.length_append, Mem.length_slice,
          Nat.sub_add_eq]

/-- A block that is not on NAND is read at once. -/
theorem flashReadBuf_once {offset : ℕ} (hnand : dev.mtdType ≠ .nandFlash) (hoff : offset < 2 ^ 64)
    {r : List UInt8} (h : d.flashReadBuf dev fuel count offset = some r) :
    r = d.content.slice offset count ∧
      (0 < count → offset + count ≤ d.size ∧ (offset + count) % 2 ^ 64 ≤ dev.environmentEnd) := by
  have hadd : offset / dev.eraseSize * dev.eraseSize +
    (offset - offset / dev.eraseSize * dev.eraseSize) =
      offset := Nat.add_sub_cancel' (Nat.div_mul_le_self _ _)
  simp only [flashReadBuf, if_neg hnand] at h
  cases fuel with
  | zero => simp [readLoop] at h
  | succ fuel =>
      rw [readLoop] at h
      by_cases hdone : count ≤ 0
      · rw [List.length_nil, if_pos hdone] at h
        rw [← Option.some.inj h, Nat.le_zero.1 hdone]
        exact ⟨rfl, fun hpos ↦ absurd hpos (Nat.lt_irrefl 0)⟩
      · rw [List.length_nil, if_neg hdone, flashBadBlock, if_neg hnand] at h
        simp only [Option.bind_eq_bind, Option.bind_some, Bool.false_eq_true, if_false, hadd,
          Nat.mod_eq_of_lt hoff, List.nil_append] at h
        split_ifs at h with hend
        obtain ⟨bytes, hread, h⟩ := Option.bind_eq_some_iff.1 h
        simp only [read, Option.ite_none_right_eq_some, Option.some.injEq] at hread
        obtain ⟨⟨_, hsize⟩, rfl⟩ := hread
        cases fuel with
        | zero => simp [readLoop] at h
        | succ fuel =>
            rw [readLoop, if_pos (by rw [Mem.length_slice])] at h
            exact ⟨(Option.some.inj h).symm, fun _ ↦ ⟨hsize, not_lt.1 hend⟩⟩

theorem flashReadBuf_ok {offset : ℕ} (hnand : dev.mtdType ≠ .nandFlash) (hcount : count ≤ maxRw)
    (hsize : offset + count ≤ d.size) (hend : 0 < count → offset + count ≤ dev.environmentEnd) :
    d.flashReadBuf dev 2 count offset = some (d.content.slice offset count) := by
  have hlt := d.size_lt
  have hadd : offset / dev.eraseSize * dev.eraseSize +
    (offset - offset / dev.eraseSize * dev.eraseSize) =
      offset := Nat.add_sub_cancel' (Nat.div_mul_le_self _ _)
  simp only [flashReadBuf, if_neg hnand]
  rw [readLoop]
  by_cases hdone : count ≤ 0
  · rw [List.length_nil, if_pos hdone, Nat.le_zero.1 hdone]
    rfl
  · have hend' : ¬ dev.environmentEnd < (offset + count) % 2 ^ 64 := by
      rw [Nat.mod_eq_of_lt (by omega)]
      omega
    rw [List.length_nil, if_neg hdone, flashBadBlock, if_neg hnand]
    simp only [Option.bind_eq_bind, Option.bind_some, Bool.false_eq_true, if_false, hadd,
      Nat.mod_eq_of_lt (show offset < 2 ^ 64 by omega), List.nil_append, if_neg hend', read,
      if_pos (And.intro hcount hsize)]
    rw [readLoop, if_pos (by rw [Mem.length_slice])]

/-! ## What is written -/

variable {d₁ d₂ : Flash} {heap : ℕ → UInt8}

theorem program_some {type : MtdType} {pos : ℕ} {bytes : List UInt8}
    (h : d.program type pos bytes = some d') :
    bytes.length ≤ maxRw ∧ pos + bytes.length ≤ d'.size ∧ d'.bad = d.bad ∧
      (type ≠ .absent → d'.size = d.size) ∧
      (type = .absent ∨ type = .dataFlash → d'.content = d.content.write pos bytes) ∧
      (type = .norFlash ∨ type = .nandFlash → d'.content = d.content.write pos
        (List.zipWith (· &&& ·) (d.content.slice pos bytes.length) bytes)) := by
  unfold program at h
  split_ifs at h with hpos habsent hsize hdata
  · obtain rfl := Option.some.inj h
    simp [habsent, hpos.1]
  · obtain rfl := Option.some.inj h
    simp [hdata, hpos.1, hsize]
  · obtain rfl := Option.some.inj h
    simp [habsent, hdata, hpos.1, hsize]

/-- Flash that is erased takes the bytes, where `MEMERASE` can say its start. -/
theorem erase_program {type : MtdType} {bytes : List UInt8}
    (htype : type = .norFlash ∨ type = .nandFlash) (hlen : bytes.length = n)
    (herase : d.erase s n = some d₁) (hprog : d₁.program type s bytes = some d') :
    n ≤ maxRw ∧ s + n ≤ d.size ∧ d'.size = d.size ∧ d'.bad = d.bad ∧
      (s < 2 ^ 32 → d'.content = d.content.write s bytes) := by
  have hrw : maxRw = 0x7ffff000 := rfl
  obtain ⟨hmax, hend, hbad, hsize, -, hcontent⟩ := program_some hprog
  have hsize := hsize (by rintro rfl; simp at htype)
  have hcontent := hcontent htype
  unfold erase at herase
  simp only at herase
  split_ifs at herase with hle
  obtain rfl := Option.some.inj herase
  refine ⟨hlen ▸ hmax, by rw [← hlen, ← hsize]; exact hend, hsize, hbad, fun hsmall ↦ ?_⟩
  rw [hcontent]
  simp only
  rw [Nat.mod_eq_of_lt (show n < 2 ^ 32 by omega)]
  rw [Nat.mod_eq_of_lt hsmall, ← hlen]
  exact write_program s bytes

theorem length_part {k n : ℕ} : (part data heap k n).length = n := by
  rw [part, List.length_map, List.length_range]

theorem writeLoop_done {blocklen erasesize total processed : ℕ} (hdone : total ≤ processed)
    (h : d.writeLoop dev data heap blocklen erasesize total fuel processed s = some d') :
    d' = d := by
  cases fuel with
  | zero => simp [writeLoop] at h
  | succ fuel =>
      rw [writeLoop, if_pos hdone] at h
      split_ifs at h
      exact (Option.some.inj h).symm

/-- All is written at once where there are no bad blocks. -/
theorem writeLoop_once {blocklen erasesize total : ℕ} (hnand : dev.mtdType ≠ .nandFlash)
    (htotal : total ≤ erasesize) (hpos : 0 < total)
    (h : d.writeLoop dev data heap blocklen erasesize total fuel 0 s = some d') :
    (s + erasesize) % 2 ^ 64 ≤ dev.environmentEnd ∧
      ∃ d₁, ((dev.mtdType = .absent ∨ dev.mtdType = .dataFlash) ∧ d₁ = d ∨
          ¬ (dev.mtdType = .absent ∨ dev.mtdType = .dataFlash) ∧ d.erase s erasesize = some d₁) ∧
        d₁.program dev.mtdType s (part data heap 0 erasesize) = some d' := by
  cases fuel with
  | zero => simp [writeLoop] at h
  | succ fuel =>
      rw [writeLoop, if_neg (by omega), flashBadBlock, if_neg hnand] at h
      simp only [Option.bind_eq_bind, Option.bind_some, Bool.false_eq_true, if_false,
        Option.ite_none_left_eq_some] at h
      obtain ⟨hend, h⟩ := h
      refine ⟨by omega, ?_⟩
      by_cases hplain : dev.mtdType = .absent ∨ dev.mtdType = .dataFlash
      · rw [if_pos hplain] at h
        obtain ⟨d₂, hprog, h⟩ := Option.bind_eq_some_iff.1 h
        exact ⟨d, .inl ⟨hplain, rfl⟩, by rw [hprog, writeLoop_done (by omega) h]⟩
      · rw [if_neg hplain] at h
        obtain ⟨d₁, herase, h⟩ := Option.bind_eq_some_iff.1 h
        obtain ⟨d₂, hprog, h⟩ := Option.bind_eq_some_iff.1 h
        exact ⟨d₁, .inr ⟨hplain, herase⟩, by rw [hprog, writeLoop_done (by omega) h]⟩

/-- A block of more bytes than `write` takes is not written. -/
theorem writeLoop_le {blocklen erasesize total processed : ℕ} (hpos : processed < total)
    (h : d.writeLoop dev data heap blocklen erasesize total fuel processed s = some d') :
    erasesize ≤ maxRw := by
  induction fuel generalizing s with
  | zero => simp [writeLoop] at h
  | succ fuel ih =>
      rw [writeLoop, if_neg (by omega)] at h
      obtain ⟨bad, _, h⟩ := Option.bind_eq_some_iff.1 h
      split_ifs at h with hend hbad
      · exact ih h
      all_goals
        obtain ⟨d₁, _, h⟩ := Option.bind_eq_some_iff.1 h
        obtain ⟨d₂, hprog, _⟩ := Option.bind_eq_some_iff.1 h
        have hmax := (program_some hprog).1
        rwa [length_part] at hmax

/-- `flash_write_buf` writes to the good blocks. -/
theorem writeLoop_visits {total processed : ℕ} (hnand : dev.mtdType = .nandFlash) (hmax : n ≤ maxRw)
    (hle : processed ≤ total) (hdvd : n ∣ total - processed)
    (h : d.writeLoop dev data heap n n total fuel processed s = some d') :
    ∃ us, Visits d n dev.environmentEnd s us ∧ us.length * n = total - processed ∧
      d'.size = d.size ∧
      d'.bad = d.bad ∧
      (data.length = total → (∀ t ∈ us, t < 2 ^ 32) →
        d'.content = Mem.lay n us (data.drop processed) d.content) := by
  have hrw : maxRw = 0x7ffff000 := rfl
  induction fuel generalizing s d processed with
  | zero => simp [writeLoop] at h
  | succ fuel ih =>
      rw [writeLoop] at h
      by_cases hdone : total ≤ processed
      · rw [if_pos hdone] at h
        split_ifs at h
        obtain rfl := Option.some.inj h
        refine ⟨[], .done, by simp; omega, rfl, rfl, fun _ _ ↦ rfl⟩
      · rw [if_neg hdone] at h
        obtain ⟨bad, hblock, h⟩ := Option.bind_eq_some_iff.1 h
        rw [flashBadBlock, if_pos hnand, Option.ite_none_right_eq_some, Option.some.injEq] at hblock
        obtain ⟨hlt, hbad⟩ := hblock
        have hsize := d.size_lt
        have hmod : (s + n) % 2 ^ 64 = s + n := Nat.mod_eq_of_lt (by omega)
        rw [hmod] at h
        split_ifs at h with hend hb habsent
        · obtain ⟨us, hvisits, hus⟩ := ih hle hdvd h
          exact ⟨us, .bad hlt (by omega) (hbad.trans hb) hvisits, hus⟩
        · simp [hnand] at habsent
        · obtain ⟨d₁, herase, h⟩ := Option.bind_eq_some_iff.1 h
          obtain ⟨d₂, hprog, h⟩ := Option.bind_eq_some_iff.1 h
          obtain ⟨-, hfit, hsize₂, hbad₂, hcontent⟩ :=
            erase_program (.inr hnand) length_part herase hprog
          have hstep : n ≤ total - processed := Nat.le_of_dvd (by omega) hdvd
          have hsub : total - processed - n = total - (processed + n) := by omega
          obtain ⟨us, hvisits, hus, hsize', hbad', hlay⟩ :=
            ih (by omega) (hsub ▸ Nat.dvd_sub hdvd dvd_rfl) h
          have hgood : d.bad s = false := by simpa [hbad] using hb
          refine ⟨s :: us, .good hlt hfit (by omega) hgood (hvisits.congr hsize₂.symm hbad₂.symm),
            ?_, hsize'.trans hsize₂, hbad'.trans hbad₂, fun hdata hsmall ↦ ?_⟩
          · rw [List.length_cons, Nat.succ_mul]
            omega
          · obtain ⟨hs, hus'⟩ := List.forall_mem_cons.1 hsmall
            rw [hlay hdata hus', hcontent hs, Mem.lay, List.drop_drop, part_eq (by omega)]

theorem flashReadBuf_zero {offset : ℕ} : d.flashReadBuf dev 1 0 offset = some [] := by
  simp [flashReadBuf, readLoop]

theorem flashReadBuf_visits (hnand : dev.mtdType = .nandFlash) (hdvd : dev.eraseSize ∣ s)
    (hmax : dev.eraseSize ≤ maxRw) (hv : Visits d dev.eraseSize dev.environmentEnd s us)
    (hcount : count ≤ us.length * dev.eraseSize) :
    ∃ fuel, d.flashReadBuf dev fuel count s =
      some ((Mem.blocks d.content dev.eraseSize us).take count) := by
  obtain ⟨fuel, hfuel⟩ := @readLoop_visits dev d _ _ s us [] count hnand le_rfl hmax hv
    (by rw [List.length_nil]; omega)
  refine ⟨fuel, ?_⟩
  simp only [flashReadBuf, if_pos hnand, Nat.div_mul_cancel hdvd, Nat.sub_self, Nat.sub_zero]
  rw [min_comm]
  exact hfuel

end Flash

/-! ## The environment -/

/-- The device `d'` holds the environment `buf`, and nothing else of `d` has changed. -/
structure Stored (dev : EnvDevice) (d d' : Flash) (buf : List UInt8) : Prop where
  readback : ∃ fuel, d'.flashReadBuf dev fuel buf.length (u64 dev.devoff) = some buf
  source : ∃ place : ℕ → ℕ, (∀ i j, i < j → j < buf.length → place i < place j) ∧
    (∀ i (hi : i < buf.length), d'.content (place i) = buf[i]) ∧
    ∀ p, (∀ i < buf.length, place i ≠ p) → d'.content p = d.content p
  sectors : ∀ p, d'.content p ≠ d.content p → u64 dev.devoff ≤ p ∧ p < u64 dev.devoff + dev.area
  bad : dev.mtdType = .nandFlash → ∀ s, dev.eraseSize ∣ s → d.bad s = true →
    ∀ p, s ≤ p → p < s + dev.eraseSize → d'.content p = d.content p

/-- A byte of the device is as it was or comes from the environment. -/
theorem Stored.mem {dev : EnvDevice} {d d' : Flash} {buf : List UInt8} (h : Stored dev d d' buf)
    (p : ℕ) :
    d'.content p = d.content p ∨ d'.content p ∈ buf := by
  obtain ⟨place, -, hget, hrest⟩ := h.source
  by_cases hp : ∀ i < buf.length, place i ≠ p
  · exact .inl (hrest p hp)
  · push Not at hp
    obtain ⟨i, hi, rfl⟩ := hp
    rw [hget i hi]
    exact .inr (List.getElem_mem hi)

/-- Where the environment is not empty: on NOR flash and dataflash the sectors are those that it
needs, and blocks that are erased start below 4 GiB. -/
def Fits (d : Flash) (dev : EnvDevice) : Prop :=
  0 < dev.envSize →
    (dev.mtdType = .norFlash ∨ dev.mtdType = .dataFlash →
      dev.area = Flash.writeTotal dev dev.envSize) ∧
    (dev.mtdType = .norFlash → u64 dev.devoff < 2 ^ 32) ∧
    (dev.mtdType = .nandFlash → dev.envSize + dev.eraseSize ≤ 2 ^ 64 ∧
      ∀ us, Visits d dev.eraseSize dev.environmentEnd (u64 dev.devoff) us →
        us.length * dev.eraseSize = Flash.writeTotal dev dev.envSize → ∀ s ∈ us, s < 2 ^ 32)

theorem u64_lt (z : ℤ) : u64 z < 2 ^ 64 := by
  unfold u64
  omega

theorem le_writeTotal (hpos : 0 < dev.eraseSize) (hcount : count + dev.eraseSize ≤ 2 ^ 64) :
    count ≤ Flash.writeTotal dev count := by
  have hdiv := Nat.div_add_mod (count + dev.eraseSize - 1) dev.eraseSize
  have hmod := Nat.mod_lt (count + dev.eraseSize - 1) hpos
  rw [Flash.writeTotal, Nat.mod_eq_of_lt (by omega), Nat.mul_comm]
  omega

theorem stored_refl : Stored dev d d [] where
  readback := ⟨1, Flash.flashReadBuf_zero⟩
  source := ⟨id, fun _ _ hij _ ↦ hij, nofun, fun _ _ ↦ rfl⟩
  sectors _ hp := absurd rfl hp
  bad _ _ _ _ _ _ _ := rfl

theorem source_lay {n : ℕ} (hapart : us.Pairwise fun s t ↦ s + n ≤ t)
    (hle : buf.length ≤ us.length * n)
    (hcontent : d'.content =
      Mem.lay n us (buf ++ (Mem.blocks d.content n us).drop buf.length) d.content) :
    ∃ place : ℕ → ℕ, (∀ i j, i < j → j < buf.length → place i < place j) ∧
      (∀ i (hi : i < buf.length), d'.content (place i) = buf[i]) ∧
      ∀ p, (∀ i < buf.length, place i ≠ p) → d'.content p = d.content p := by
  have hlength : (buf ++ (Mem.blocks d.content n us).drop buf.length).length = us.length * n := by
    rw [List.length_append, List.length_drop, Mem.length_blocks]
    omega
  refine ⟨Mem.place n us, fun i j hij hj ↦ Mem.place_lt hapart hij (by omega), fun i hi ↦ ?_,
    fun p hp ↦ ?_⟩
  · rw [hcontent, Mem.lay_place hapart hlength (by omega), List.getElem_append_left hi]
  · rw [hcontent, Mem.lay_apply hapart hle hp]

/-- A device that is written at once. -/
theorem stored_once {total : ℕ} (hnand : dev.mtdType ≠ .nandFlash) (hle : buf.length ≤ total)
    (harea : total ≤ dev.area) (hmax : total ≤ Flash.maxRw)
    (hsize : u64 dev.devoff + total ≤ d'.size)
    (hend : (u64 dev.devoff + total) % 2 ^ 64 ≤ dev.environmentEnd)
    (hcontent : d'.content = d.content.write (u64 dev.devoff)
      (buf ++ (d.content.slice (u64 dev.devoff) total).drop buf.length)) : Stored dev d d' buf := by
  have hlt := d'.size_lt
  rw [Nat.mod_eq_of_lt (by omega)] at hend
  have hblocks : Mem.blocks d.content total [u64 dev.devoff] =
      d.content.slice (u64 dev.devoff) total := by
    simp [Mem.blocks]
  have hlength : (buf ++ (d.content.slice (u64 dev.devoff) total).drop buf.length).length =
      total := by
    rw [List.length_append, List.length_drop, Mem.length_slice]
    omega
  have hlay : d'.content = Mem.lay total [u64 dev.devoff]
      (buf ++ (Mem.blocks d.content total [u64 dev.devoff]).drop buf.length) d.content := by
    rw [hblocks, Mem.lay, Mem.lay, List.take_of_length_le hlength.le]
    exact hcontent
  refine ⟨⟨2, ?_⟩, source_lay (List.pairwise_singleton _ _) (by simpa using hle) hlay,
    fun p hp ↦ ?_, fun h ↦ absurd h hnand⟩
  · rw [Flash.flashReadBuf_ok hnand (by omega) (by omega) (by omega), hcontent]
    have hslice : (d.content.write (u64 dev.devoff)
        (buf ++ (d.content.slice (u64 dev.devoff) total).drop buf.length)).slice
        (u64 dev.devoff + 0) buf.length =
        ((buf ++ (d.content.slice (u64 dev.devoff) total).drop buf.length).drop 0).take
        buf.length :=
      Mem.slice_write_add (by rw [hlength]; omega)
    rw [Nat.add_zero, List.drop_zero, List.take_left' rfl] at hslice
    rw [hslice]
  · by_contra hout
    refine hp ?_
    rw [hcontent]
    obtain hp | hp := Nat.lt_or_ge p (u64 dev.devoff)
    · exact Mem.write_of_lt hp
    · exact Mem.write_of_le (by omega)

/-- A device of good and bad blocks. -/
theorem stored_visits (hacc : Accepted dev) (hnand : dev.mtdType = .nandFlash)
    (hmax : dev.eraseSize ≤ Flash.maxRw)
    (hv : Visits d dev.eraseSize dev.environmentEnd (u64 dev.devoff) us)
    (hle : buf.length ≤ us.length * dev.eraseSize) (hsize : d'.size = d.size)
    (hbad : d'.bad = d.bad)
    (hcontent : d'.content =
      Mem.lay dev.eraseSize us (buf ++ (Mem.blocks d.content dev.eraseSize us).drop buf.length)
      d.content) : Stored dev d d' buf := by
  obtain ⟨hmem, hapart⟩ := hv.mem
  refine ⟨?_, source_lay hapart hle hcontent, fun p hp ↦ ?_, fun _ s hs hsbad p hsp hps ↦ ?_⟩
  · obtain ⟨fuel, hfuel⟩ :=
      Flash.flashReadBuf_visits hnand hacc.aligned hmax (hv.congr hsize hbad) hle
    refine ⟨fuel, ?_⟩
    rw [hfuel, hcontent, Mem.blocks_lay hapart, List.take_left' rfl]
    rw [List.length_append, List.length_drop, Mem.length_blocks]
    omega
  · by_contra hout
    refine hp ?_
    rw [hcontent]
    refine Mem.lay_frame fun t ht ↦ ?_
    obtain ⟨hge, hstop, -, -⟩ := hmem t ht
    have hmod := Nat.mod_le (u64 dev.devoff + dev.area) (2 ^ 64)
    have hstop' : t + dev.eraseSize ≤ (u64 dev.devoff + dev.area) % 2 ^ 64 := hstop
    omega
  · rw [hcontent]
    refine Mem.lay_frame fun t ht ↦ ?_
    obtain ⟨hge, -, htbad, htdvd⟩ := hmem t ht
    obtain ⟨a, rfl⟩ := hs
    obtain ⟨b, rfl⟩ : dev.eraseSize ∣ t := by
      have hadd := Nat.dvd_add htdvd hacc.aligned
      rwa [Nat.sub_add_cancel hge] at hadd
    obtain hab | rfl | hab := Nat.lt_trichotomy a b
    · have hmul := Nat.mul_le_mul_left dev.eraseSize (Nat.succ_le_of_lt hab)
      rw [Nat.mul_succ] at hmul
      omega
    · rw [htbad] at hsbad
      cases hsbad
    · have hmul := Nat.mul_le_mul_left dev.eraseSize (Nat.succ_le_of_lt hab)
      rw [Nat.mul_succ] at hmul
      omega

theorem ne_nandFlash (htype : dev.mtdType = .norFlash ∨ dev.mtdType = .dataFlash) :
    dev.mtdType ≠ .nandFlash := by
  rcases htype with htype | htype <;> simp [htype]

theorem ne_absent (htype : dev.mtdType = .norFlash ∨ dev.mtdType = .dataFlash) :
    dev.mtdType ≠ .absent := by
  rcases htype with htype | htype <;> simp [htype]

/-- The bytes that `flash_write_buf` writes, where `old` was read. -/
theorem flashWriteBuf_some {heap : ℕ → UInt8} (htype : dev.mtdType ≠ .absent)
    (h : d.flashWriteBuf dev heap fuel buf = some d') :
    (∃ old, buf.length < Flash.writeTotal dev buf.length ∧
      d.flashReadBuf dev fuel (Flash.writeTotal dev buf.length) (u64 dev.devoff) = some old ∧
      d.writeLoop dev (buf ++ old.drop buf.length) heap dev.eraseSize
        (if dev.mtdType = .nandFlash then dev.eraseSize else dev.area)
        (Flash.writeTotal dev buf.length) fuel 0 (u64 dev.devoff) = some d') ∨
    Flash.writeTotal dev buf.length ≤ buf.length ∧
      d.writeLoop dev buf heap dev.eraseSize (if dev.mtdType = .nandFlash then dev.eraseSize
      else dev.area)
        (Flash.writeTotal dev buf.length) fuel 0 (u64 dev.devoff) = some d' := by
  simp only [Flash.flashWriteBuf, if_neg htype] at h
  by_cases hlt : buf.length < Flash.writeTotal dev buf.length
  · rw [if_pos hlt] at h
    left
    by_cases hint : Flash.writeTotal dev buf.length < 2 ^ 31
    · rw [if_pos hint] at h
      obtain ⟨old, hread, h⟩ := Option.bind_eq_some_iff.1 h
      exact ⟨old, hlt, hread, h⟩
    · rw [if_neg hint] at h
      cases h
  · rw [if_neg hlt] at h
    exact .inr ⟨by omega, h⟩

variable {heap : ℕ → UInt8}

/-- What is written to NOR flash and dataflash. -/
theorem flashWriteBuf_area (htype : dev.mtdType = .norFlash ∨ dev.mtdType = .dataFlash)
    (h : d.flashWriteBuf dev heap fuel buf = some d') :
    d.writeLoop dev
      (buf ++ (d.content.slice (u64 dev.devoff) (Flash.writeTotal dev buf.length)).drop buf.length)
        heap
      dev.eraseSize dev.area (Flash.writeTotal dev buf.length) fuel 0 (u64 dev.devoff) =
        some d' := by
  have hnand := ne_nandFlash htype
  have habsent := ne_absent htype
  obtain ⟨old, -, hread, hwrite⟩ | ⟨hge, hwrite⟩ := flashWriteBuf_some habsent h
  · rw [if_neg hnand] at hwrite
    rwa [← (Flash.flashReadBuf_once hnand (u64_lt _) hread).1]
  · rw [if_neg hnand] at hwrite
    rwa [List.drop_eq_nil_of_le (by rw [Mem.length_slice]; exact hge), List.append_nil]

theorem length_preserved {total : ℕ} {old : List UInt8} (hlt : buf.length ≤ total)
    (hold : old.length = total) :
    (buf ++ old.drop buf.length).length = total := by
  rw [List.length_append, List.length_drop]
  omega

/-- A file. -/
theorem stored_absent (hacc : Accepted dev) (htype : dev.mtdType = .absent)
    (hlen : buf.length = dev.envSize) (h : d.flashWriteBuf dev heap fuel buf = some d') :
    Stored dev d d' buf := by
  simp only [Flash.flashWriteBuf, if_pos htype] at h
  obtain hzero | hpos := Nat.eq_zero_or_pos buf.length
  · rw [Flash.writeLoop_done (by omega) h, List.eq_nil_of_length_eq_zero hzero]
    exact stored_refl
  · obtain ⟨hend, d₁, hcase, hprog⟩ := Flash.writeLoop_once (by rw [htype]; simp) le_rfl hpos h
    obtain ⟨-, rfl⟩ | ⟨hplain, -⟩ := hcase
    · have hpart := @part_eq buf.length buf heap 0 (by omega)
      rw [List.drop_zero, List.take_length] at hpart
      rw [hpart] at hprog
      obtain ⟨hmax, hsize, -, -, hcontent, -⟩ := Flash.program_some hprog
      refine stored_once (by rw [htype]; simp) le_rfl (hlen ▸ hacc.envSize_le) hmax hsize hend ?_
      rw [hcontent (.inl htype), List.drop_eq_nil_of_le (by rw [Mem.length_slice]), List.append_nil]
    · exact absurd (.inl htype) hplain

/-- NOR flash and dataflash. -/
theorem stored_area (htype : dev.mtdType = .norFlash ∨ dev.mtdType = .dataFlash)
    (hle : buf.length ≤ dev.area) (htotal : dev.area = Flash.writeTotal dev buf.length)
    (hsmall : dev.mtdType = .norFlash → u64 dev.devoff < 2 ^ 32)
    (h : d.flashWriteBuf dev heap fuel buf = some d') : Stored dev d d' buf := by
  have hnand := ne_nandFlash htype
  have hwrite := flashWriteBuf_area htype h
  rw [← htotal] at hwrite
  obtain hzero | hpos := Nat.eq_zero_or_pos dev.area
  · rw [Flash.writeLoop_done (by omega) hwrite, List.eq_nil_of_length_eq_zero (l := buf) (by omega)]
    exact stored_refl
  · obtain ⟨hend, d₁, hcase, hprog⟩ := Flash.writeLoop_once hnand le_rfl hpos hwrite
    have hlength := length_preserved hle
      (Mem.length_slice (m := d.content) (a := u64 dev.devoff) (n := dev.area))
    have hpart := @part_eq dev.area
      (buf ++ (d.content.slice (u64 dev.devoff) dev.area).drop buf.length) heap 0
      (by rw [hlength, Nat.zero_add])
    rw [List.drop_zero, List.take_of_length_le hlength.le] at hpart
    rw [hpart] at hprog
    obtain ⟨hdata, rfl⟩ | ⟨hplain, herase⟩ := hcase
    · obtain ⟨hmax, hsize, -, -, hcontent, -⟩ := Flash.program_some hprog
      rw [hlength] at hmax hsize
      exact stored_once hnand hle le_rfl hmax hsize hend (hcontent hdata)
    · have hnor : dev.mtdType = .norFlash := by
        rcases htype with htype | htype
        · exact htype
        · exact absurd (.inr htype) hplain
      obtain ⟨hmax, hfit, hsize, -, hcontent⟩ :=
        Flash.erase_program (.inl hnor) hlength herase hprog
      exact stored_once hnand hle le_rfl hmax (hsize ▸ hfit) hend (hcontent (hsmall hnor))

/-- NAND flash. -/
theorem stored_nand (hacc : Accepted dev) (hnand : dev.mtdType = .nandFlash)
    (hle : buf.length ≤ Flash.writeTotal dev buf.length)
    (hsmall : ∀ us, Visits d dev.eraseSize dev.environmentEnd (u64 dev.devoff) us →
      us.length * dev.eraseSize = Flash.writeTotal dev buf.length → ∀ s ∈ us, s < 2 ^ 32)
    (h : d.flashWriteBuf dev heap fuel buf = some d') : Stored dev d d' buf := by
  have hdvd : dev.eraseSize ∣ Flash.writeTotal dev buf.length := Nat.dvd_mul_left _ _
  generalize htotal : Flash.writeTotal dev buf.length = total at hle hsmall hdvd
  have hwrite := flashWriteBuf_some (by rw [hnand]; simp) h
  rw [htotal, if_pos hnand] at hwrite
  obtain hzero | hpos := Nat.eq_zero_or_pos total
  · have hnil : buf = [] := List.eq_nil_of_length_eq_zero (by omega)
    obtain ⟨old, hlt, -, -⟩ | ⟨-, hwrite⟩ := hwrite
    · omega
    · rw [Flash.writeLoop_done (by omega) hwrite, hnil]
      exact stored_refl
  · obtain ⟨old, hlt, hread, hwrite⟩ | ⟨hge, hwrite⟩ := hwrite
    · have hmax := Flash.writeLoop_le hpos hwrite
      obtain ⟨us, hv, hus, hsize, hbad, hcontent⟩ :=
        Flash.writeLoop_visits hnand hmax (by omega) hdvd hwrite
      obtain ⟨fuel', hread'⟩ := Flash.flashReadBuf_visits hnand hacc.aligned hmax hv hus.ge
      have hold := Flash.flashReadBuf_inj hread hread'
      rw [List.take_of_length_le (by rw [Mem.length_blocks]; omega)] at hold
      refine stored_visits hacc hnand hmax hv (by omega) hsize hbad ?_
      rw [hcontent (length_preserved hle (by rw [hold, Mem.length_blocks, hus, Nat.sub_zero]))
        (hsmall us hv hus),
        List.drop_zero, hold]
    · have hmax := Flash.writeLoop_le hpos hwrite
      obtain ⟨us, hv, hus, hsize, hbad, hcontent⟩ :=
        Flash.writeLoop_visits hnand hmax (by omega) hdvd hwrite
      refine stored_visits hacc hnand hmax hv (by omega) hsize hbad ?_
      rw [hcontent (by omega) (hsmall us hv hus), List.drop_zero,
        List.drop_eq_nil_of_le (by rw [Mem.length_blocks]; omega), List.append_nil]

theorem stored_empty (hacc : Accepted dev) (habsent : dev.mtdType ≠ .absent) (hlen : buf.length = 0)
    (h : d.flashWriteBuf dev heap fuel buf = some d') : Stored dev d d' buf := by
  have hpos := hacc.eraseSize_pos
  have hmod := Nat.mod_le (0 + dev.eraseSize - 1) (2 ^ 64)
  have hzero : Flash.writeTotal dev buf.length = 0 := by
    rw [hlen, Flash.writeTotal, Nat.div_eq_of_lt (by omega), Nat.zero_mul]
  obtain ⟨_, hlt, -⟩ | ⟨-, hwrite⟩ := flashWriteBuf_some habsent h
  · omega
  · rw [Flash.writeLoop_done (by omega) hwrite, List.eq_nil_of_length_eq_zero hlen]
    exact stored_refl

/-- The environment is stored, and nothing else, where the sectors fit. -/
theorem stored_of_fits {probe : Probe} {dev₀ : EnvDevice}
    (hcheck : dev₀.checkDeviceConfig probe = some dev) (hprobe : probe.Known)
    (hlen : buf.length = dev.envSize) (hfits : Fits d dev)
    (h : d.flashWriteBuf dev heap fuel buf = some d') : Stored dev d d' buf := by
  have hacc := EnvDevice.checkDeviceConfig_accepted hcheck hprobe
  obtain habsent | hmtd := hacc.type
  · exact stored_absent hacc habsent hlen h
  · have hne : dev.mtdType ≠ .absent := by
      rcases hmtd with htype | htype | htype <;> rw [htype] <;> simp
    obtain hzero | hpos := Nat.eq_zero_or_pos dev.envSize
    · exact stored_empty hacc hne (hlen.trans hzero) h
    · obtain ⟨harea, hsmall, hblocks⟩ := hfits hpos
      rw [← hlen] at harea hblocks
      obtain hnor | hnand | hdata := hmtd
      · exact stored_area (.inl hnor) (hlen ▸ hacc.envSize_le) (harea (.inl hnor)) hsmall h
      · obtain ⟨hword, hblocks⟩ := hblocks hnand
        exact stored_nand hacc hnand (le_writeTotal hacc.eraseSize_pos hword) hblocks h
      · exact stored_area (.inr hdata) (hlen ▸ hacc.envSize_le) (harea (.inr hdata)) hsmall h

end

end MiniPi.FwEnv
