import MiniPi.FwEnv.FlashWrite

/-!
# The environment is lost on flash

Whether `flash_write_buf` succeeds depends on the size and the bad blocks of a device.  Where the
sectors do not fit, the whole area is written from behind the buffer, or blocks are erased
elsewhere, and there is a content of the device and of the heap for which an image is lost.
-/

namespace MiniPi.FwEnv

open Lib

section

variable {dev : EnvDevice} {d d' e e' : Flash} {n stop s : ℕ} {us : List ℕ}
  {data data' buf buf' : List UInt8} {fuel count : ℕ} {heap heap' : ℕ → UInt8}

/-! ## Success does not depend on the bytes -/

namespace Flash

/-- Devices that differ in their bytes only. -/
def Same (d e : Flash) : Prop := e.size = d.size ∧ e.bad = d.bad

theorem Same.flashBadBlock (h : d.Same e) (type : MtdType) (s : ℕ) :
    e.flashBadBlock type s = d.flashBadBlock type s := by
  unfold Flash.flashBadBlock
  rw [h.1, h.2]

theorem erase_same {d₁ : Flash} (h : d.erase s n = some d₁) : d.Same d₁ := by
  unfold erase at h
  simp only at h
  split_ifs at h
  obtain rfl := Option.some.inj h
  exact ⟨rfl, rfl⟩

theorem Same.erase {d₁ : Flash} (hsame : d.Same e) (h : d.erase s n = some d₁) :
    ∃ e₁, e.erase s n = some e₁ ∧ d₁.Same e₁ := by
  have hd := erase_same h
  unfold Flash.erase at h
  simp only at h
  split_ifs at h with hle
  unfold Flash.erase
  exact ⟨_, if_pos (by rw [hsame.1]; exact hle), hsame.1.trans hd.1.symm, hsame.2.trans hd.2.symm⟩

theorem Same.program {d₁ : Flash} {type : MtdType} (hsame : d.Same e)
    (hlen : data'.length = data.length) (h : d.program type s data = some d₁) :
    ∃ e₁, e.program type s data' = some e₁ ∧ d₁.Same e₁ := by
  unfold Flash.program at h
  split_ifs at h with hpos habsent hfit hdata
  all_goals
    have hpos' : data'.length ≤ maxRw ∧ s + data'.length < 2 ^ 63 := by rwa [hlen]
    obtain rfl := Option.some.inj h
    unfold Flash.program
    rw [dif_pos hpos']
  · rw [if_pos habsent]
    exact ⟨_, rfl, by simp only [hsame.1, hlen], hsame.2⟩
  · rw [if_neg habsent, if_pos (by rw [hsame.1, hlen]; exact hfit), if_pos hdata]
    exact ⟨_, rfl, hsame⟩
  · rw [if_neg habsent, if_pos (by rw [hsame.1, hlen]; exact hfit), if_neg hdata]
    exact ⟨_, rfl, hsame⟩

theorem Same.readLoop {blocklen blockstart blockSeek readlen : ℕ} {r : List UInt8}
    (hsame : d.Same e) (hlen : buf'.length = buf.length)
    (h : d.readLoop dev count blocklen fuel blockstart blockSeek readlen buf = some r) :
    ∃ r', e.readLoop dev count blocklen fuel blockstart blockSeek readlen buf' = some r' := by
  induction fuel generalizing blockstart blockSeek readlen buf buf' with
  | zero => simp [Flash.readLoop] at h
  | succ fuel ih =>
      rw [Flash.readLoop] at h ⊢
      rw [hlen, hsame.flashBadBlock]
      by_cases hdone : count ≤ buf.length
      · exact ⟨_, if_pos hdone⟩
      · rw [if_neg hdone] at h ⊢
        obtain ⟨bad, hbad, h⟩ := Option.bind_eq_some_iff.1 h
        simp only [hbad, Option.bind_eq_bind, Option.bind_some]
        by_cases hend : dev.environmentEnd < (blockstart + blockSeek + readlen) % 2 ^ 64
        · rw [if_pos hend] at h
          cases h
        · rw [if_neg hend] at h ⊢
          cases bad with
          | true => exact ih hlen h
          | false =>
              simp only [Bool.false_eq_true, if_false, Option.bind_eq_bind] at h ⊢
              obtain ⟨bytes, hread, h⟩ := Option.bind_eq_some_iff.1 h
              unfold Flash.read at hread ⊢
              rw [hsame.1]
              split_ifs at hread ⊢ with hfit
              obtain rfl := Option.some.inj hread
              simp only [Option.bind_some]
              have hstep : (buf' ++
                e.content.slice ((blockstart + blockSeek) % 2 ^ 64) readlen).length =
                  (buf ++ d.content.slice ((blockstart + blockSeek) % 2 ^ 64) readlen).length := by
                simp only [List.length_append, Mem.length_slice, hlen]
              rw [hstep]
              exact ih hstep h

theorem Same.writeLoop {blocklen erasesize total processed : ℕ} (hsame : d.Same e)
    (h : d.writeLoop dev data heap blocklen erasesize total fuel processed s = some d') :
    ∃ e', e.writeLoop dev data' heap' blocklen erasesize total fuel processed s = some e' := by
  induction fuel generalizing d e s processed with
  | zero => simp [Flash.writeLoop] at h
  | succ fuel ih =>
      rw [Flash.writeLoop] at h ⊢
      rw [hsame.flashBadBlock]
      by_cases hdone : total ≤ processed
      · rw [if_pos hdone] at h ⊢
        split_ifs at h ⊢
        exact ⟨e, rfl⟩
      · rw [if_neg hdone] at h ⊢
        obtain ⟨bad, hbad, h⟩ := Option.bind_eq_some_iff.1 h
        simp only [hbad, Option.bind_eq_bind, Option.bind_some]
        by_cases hend : dev.environmentEnd < (s + erasesize) % 2 ^ 64
        · rw [if_pos hend] at h
          cases h
        · rw [if_neg hend] at h ⊢
          cases bad with
          | true => exact ih hsame h
          | false =>
              simp only [Bool.false_eq_true, if_false, Option.bind_eq_bind] at h ⊢
              have hprogram : ∀ {d₁ e₁ : Flash}, d₁.Same e₁ →
                  ((d₁.program dev.mtdType s (part data heap processed erasesize)).bind fun d ↦
                    d.writeLoop dev data heap blocklen erasesize total fuel (processed + erasesize)
                      ((s + erasesize) % 2 ^ 64)) = some d' →
                  ∃ e', ((e₁.program dev.mtdType s (part data' heap' processed erasesize)).bind
                  fun d ↦
                    d.writeLoop dev data' heap' blocklen erasesize total fuel
                      (processed + erasesize)
                      ((s + erasesize) % 2 ^ 64)) = some e' := by
                intro d₁ e₁ hsame₁ h₁
                obtain ⟨d₂, hprog, h₂⟩ := Option.bind_eq_some_iff.1 h₁
                have hlen : (part data' heap' processed erasesize).length =
                    (part data heap processed erasesize).length := by rw [length_part, length_part]
                obtain ⟨e₂, hprog', hsame₂⟩ := hsame₁.program hlen hprog
                rw [hprog']
                exact ih hsame₂ h₂
              by_cases hplain : dev.mtdType = .absent ∨ dev.mtdType = .dataFlash
              · rw [if_pos hplain] at h ⊢
                exact hprogram hsame h
              · rw [if_neg hplain] at h ⊢
                obtain ⟨d₁, herase, h⟩ := Option.bind_eq_some_iff.1 h
                obtain ⟨e₁, herase', hsame₁⟩ := hsame.erase herase
                rw [herase']
                exact hprogram hsame₁ h

/-- Whether `flash_write_buf` succeeds does not depend on the bytes. -/
theorem Same.flashWriteBuf (hsame : d.Same e) (hlen : buf'.length = buf.length)
    (h : d.flashWriteBuf dev heap fuel buf = some d') :
    ∃ e', e.flashWriteBuf dev heap' fuel buf' = some e' := by
  by_cases habsent : dev.mtdType = .absent
  · simp only [Flash.flashWriteBuf, if_pos habsent] at h ⊢
    rw [hlen]
    exact hsame.writeLoop h
  · simp only [Flash.flashWriteBuf, if_neg habsent] at h ⊢
    rw [hlen]
    by_cases hlt : buf.length < Flash.writeTotal dev buf.length
    · rw [if_pos hlt] at h ⊢
      by_cases hint : Flash.writeTotal dev buf.length < 2 ^ 31
      · rw [if_pos hint] at h ⊢
        obtain ⟨old, hread, h⟩ := Option.bind_eq_some_iff.1 h
        have hread' : ∃ old', e.flashReadBuf dev fuel (Flash.writeTotal dev buf.length)
          (u64 dev.devoff) =
            some old' := by
          unfold Flash.flashReadBuf at hread ⊢
          simp only at hread ⊢
          split_ifs at hread ⊢
          · exact hsame.readLoop rfl hread
          · exact hsame.readLoop rfl hread
        obtain ⟨old', hread'⟩ := hread'
        simp only [hread', Option.bind_eq_bind, Option.bind_some]
        exact hsame.writeLoop h
      · rw [if_neg hint] at h
        cases h
    · rw [if_neg hlt] at h ⊢
      exact hsame.writeLoop h

/-! ## Bytes that are lost -/

theorem readLoop_mem {blocklen blockstart blockSeek readlen : ℕ} {r : List UInt8}
    (h : d.readLoop dev count blocklen fuel blockstart blockSeek readlen buf = some r) {b : UInt8}
    (hb : b ∈ r) :
    b ∈ buf ∨ ∃ p, d.content p = b := by
  induction fuel generalizing blockstart blockSeek readlen buf with
  | zero => simp [readLoop] at h
  | succ fuel ih =>
      rw [readLoop] at h
      by_cases hdone : count ≤ buf.length
      · rw [if_pos hdone, Option.some.injEq] at h
        exact .inl (h ▸ hb)
      · rw [if_neg hdone] at h
        obtain ⟨bad, _, h⟩ := Option.bind_eq_some_iff.1 h
        split_ifs at h
        · exact ih h
        · obtain ⟨bytes, hread, h⟩ := Option.bind_eq_some_iff.1 h
          unfold read at hread
          split_ifs at hread
          obtain rfl := Option.some.inj hread
          rcases ih h with hmem | hp
          · obtain hmem | hmem := List.mem_append.1 hmem
            · exact .inl hmem
            · obtain ⟨i, -, hi⟩ := List.mem_map.1 hmem
              exact .inr ⟨_, hi⟩
          · exact .inr hp

theorem flashReadBuf_mem {offset : ℕ} {r : List UInt8}
    (h : d.flashReadBuf dev fuel count offset = some r) {b : UInt8} (hb : b ∈ r) :
    ∃ p, d.content p = b := by
  unfold flashReadBuf at h
  simp only at h
  split_ifs at h
  all_goals exact (readLoop_mem h hb).resolve_left List.not_mem_nil

theorem erase_content (h : d.erase s n = some d') :
    d'.content = d.content.write (s % 2 ^ 32) (List.replicate (n % 2 ^ 32) 0xff) := by
  unfold erase at h
  simp only at h
  split_ifs at h
  obtain rfl := Option.some.inj h
  rfl

theorem erase_apply (h : d.erase s n = some d') (p : ℕ) :
    d'.content p = d.content p ∨ d'.content p = 0xff := by
  rw [erase_content h, Mem.write]
  split_ifs
  · obtain hp | hp := Nat.lt_or_ge (p - s % 2 ^ 32) (n % 2 ^ 32)
    · right
      rw [List.getElem?_replicate, if_pos hp]
      rfl
    · left
      rw [List.getElem?_replicate, if_neg (by omega)]
      rfl
  · exact .inl rfl

/-- Flash that is erased elsewhere keeps its zeros. -/
theorem erase_program_high {type : MtdType} {bytes : List UInt8} {d₁ : Flash}
    (htype : type = .norFlash ∨ type = .nandFlash) (hn : 0 < n) (hlen : bytes.length = n)
    (hhigh : 2 ^ 32 ≤ s) (hzero : d.content s = 0) (herase : d.erase s n = some d₁)
    (hprog : d₁.program type s bytes = some d') :
    d'.content s = 0 := by
  have hkept : d₁.content s = 0 := by
    rw [erase_content herase, Mem.write_of_le (by rw [List.length_replicate]; omega), hzero]
  obtain ⟨-, -, -, -, -, hcontent⟩ := program_some hprog
  have hadd := @Mem.write_add d₁.content s
    (List.zipWith (· &&& ·) (d₁.content.slice s bytes.length) bytes) 0 (by simp; omega)
  rw [Nat.add_zero] at hadd
  rw [hcontent htype, hadd]
  simp [Mem.slice, hkept]

/-- What stands before the blocks is erased at most. -/
theorem writeLoop_before {total processed p : ℕ} (hnand : dev.mtdType = .nandFlash)
    (hmax : n ≤ maxRw) (hp : p < s) (hinv : d.content p = 0 ∨ d.content p = 0xff)
    (h : d.writeLoop dev data heap n n total fuel processed s = some d') :
    d'.content p = 0 ∨ d'.content p = 0xff := by
  have hrw : maxRw = 0x7ffff000 := rfl
  induction fuel generalizing s d processed with
  | zero => simp [writeLoop] at h
  | succ fuel ih =>
      rw [writeLoop] at h
      by_cases hdone : total ≤ processed
      · rw [if_pos hdone] at h
        split_ifs at h
        obtain rfl := Option.some.inj h
        exact hinv
      · rw [if_neg hdone] at h
        obtain ⟨bad, hblock, h⟩ := Option.bind_eq_some_iff.1 h
        rw [flashBadBlock, if_pos hnand, Option.ite_none_right_eq_some, Option.some.injEq] at hblock
        obtain ⟨hlt, -⟩ := hblock
        have hsize := d.size_lt
        have hmod : (s + n) % 2 ^ 64 = s + n := Nat.mod_eq_of_lt (by omega)
        rw [hmod] at h
        split_ifs at h with hend hb habsent
        · exact ih (by omega) hinv h
        · simp [hnand] at habsent
        · obtain ⟨d₁, herase, h⟩ := Option.bind_eq_some_iff.1 h
          obtain ⟨d₂, hprog, h⟩ := Option.bind_eq_some_iff.1 h
          obtain ⟨-, -, -, -, -, hcontent⟩ := program_some hprog
          refine ih (by omega) ?_ h
          rw [hcontent (.inr hnand), Mem.write_of_lt hp]
          rcases erase_apply herase p with hsame | hff
          · rw [hsame]
            exact hinv
          · exact .inr hff

/-- The first block that starts from 4 GiB on is programmed without being erased. -/
theorem writeLoop_high {total processed p : ℕ} (hnand : dev.mtdType = .nandFlash) (hn : 0 < n)
    (hmax : n ≤ maxRw) (hv : Visits d n stop s us) (hlen : us.length * n = total - processed)
    (hp : p ∈ us) (hhigh : 2 ^ 32 ≤ p) (hfirst : ∀ t ∈ us, t < p → t < 2 ^ 32) (hsame : d.Same e)
    (hzero : e.content p = 0) (h : e.writeLoop dev data heap n n total fuel processed s = some e') :
    e'.content p = 0 ∨ e'.content p = 0xff := by
  have hrw : maxRw = 0x7ffff000 := rfl
  have hsize := d.size_lt
  induction hv generalizing e processed fuel with
  | done => simp at hp
  | @bad s us hlt hle hbad _ ih =>
      have hpos : 0 < us.length * n := Nat.mul_pos (List.length_pos_of_mem hp) hn
      cases fuel with
      | zero => simp [writeLoop] at h
      | succ fuel =>
          have hmod : (s + n) % 2 ^ 64 = s + n := Nat.mod_eq_of_lt (by omega)
          have hblock : e.flashBadBlock dev.mtdType s = some true := by
            rw [hsame.flashBadBlock, flashBadBlock, if_pos hnand, if_pos hlt, hbad]
          rw [writeLoop, if_neg (by omega), hblock] at h
          simp only [Option.bind_eq_bind, Option.bind_some, if_true, hmod] at h
          split_ifs at h
          exact ih hlen hp hfirst hsame hzero h
  | @good s us hlt hsz hle hbad hv ih =>
      have hpos : 0 < (s :: us).length * n := Nat.mul_pos (by simp) hn
      rw [List.length_cons, Nat.succ_mul] at hlen hpos
      cases fuel with
      | zero => simp [writeLoop] at h
      | succ fuel =>
          have hmod : (s + n) % 2 ^ 64 = s + n := Nat.mod_eq_of_lt (by omega)
          have hblock : e.flashBadBlock dev.mtdType s = some false := by
            rw [hsame.flashBadBlock, flashBadBlock, if_pos hnand, if_pos hlt, hbad]
          have hplain : ¬ (dev.mtdType = .absent ∨ dev.mtdType = .dataFlash) := by simp [hnand]
          rw [writeLoop, if_neg (by omega), hblock] at h
          simp only [Option.bind_eq_bind, Option.bind_some, Bool.false_eq_true, if_false, hmod,
            if_neg hplain] at h
          split_ifs at h
          obtain ⟨e₁, herase, h⟩ := Option.bind_eq_some_iff.1 h
          obtain ⟨e₂, hprog, h⟩ := Option.bind_eq_some_iff.1 h
          obtain ⟨-, -, hsize₂, hbad₂, hcontent⟩ :=
            erase_program (.inr hnand) length_part herase hprog
          obtain rfl | hmem := List.mem_cons.1 hp
          · have hkept := erase_program_high (.inr hnand) hn length_part hhigh hzero herase hprog
            exact writeLoop_before hnand hmax (by omega) (.inl hkept) h
          · have hsp := (hv.mem.1 p hmem).1
            refine ih (by omega) hmem (fun t ht ↦ hfirst t (List.mem_cons_of_mem _ ht))
              ⟨hsize₂.trans hsame.1, hbad₂.trans hsame.2⟩ ?_ h
            rw [hcontent (hfirst s List.mem_cons_self (by omega)),
              Mem.write_of_le (by rw [length_part]; exact hsp),
              hzero]

theorem write_ones {m : Mem} (hm : ∀ p, m p = 0xff) (s n p : ℕ) :
    m.write s (List.replicate n 0xff) p = 0xff := by
  rw [Mem.write]
  split_ifs
  · rw [List.getElem?_replicate]
    split_ifs
    · rfl
    · exact hm p
  · exact hm p

theorem part_heap {k : ℕ} (hk : data.length ≤ k) (hkn : k < (part data heap 0 n).length) :
    (part data heap 0 n)[k] = heap k := by
  simp only [part, List.getElem_map, List.getElem_range, Nat.zero_add]
  exact List.getD_eq_default _ _ hk

/-- On erased flash the heap is written behind the data. -/
theorem writeLoop_heap {blocklen erasesize total : ℕ}
    (htype : dev.mtdType = .norFlash ∨ dev.mtdType = .dataFlash) (hones : ∀ p, d.content p = 0xff)
    (hpos : 0 < total) (hlt : total < erasesize) (hdata : data.length = total)
    (h : d.writeLoop dev data heap blocklen erasesize total fuel 0 s = some d') :
    d'.content (s + total) = heap total := by
  have hnand := ne_nandFlash htype
  obtain ⟨-, d₁, hcase, hprog⟩ := writeLoop_once hnand hlt.le hpos h
  have hones₁ : ∀ p, d₁.content p = 0xff := by
    obtain ⟨-, rfl⟩ | ⟨-, herase⟩ := hcase
    · exact hones
    · intro p
      rw [erase_content herase]
      exact write_ones hones _ _ p
  have hpart := @part_heap erasesize data heap total hdata.le (by rw [length_part]; exact hlt)
  obtain ⟨-, -, -, -, hdataflash, hnor⟩ := program_some hprog
  rcases htype with htype | htype
  · rw [hnor (.inl htype), Mem.write_add (by simp [length_part]; exact hlt),
      List.getElem_zipWith, hpart]
    simp only [Mem.slice, List.getElem_map, hones₁]
    exact and_erased _
  · rw [hdataflash (.inr htype), Mem.write_add (by rw [length_part]; exact hlt), hpart]

end Flash

/-! ## The condition -/

theorem writeTotal_eq_zero (hpos : 0 < dev.eraseSize) (hcount : count < 2 ^ 64)
    (hword : 2 ^ 64 < count + dev.eraseSize) : Flash.writeTotal dev count = 0 := by
  have hmod : (count + dev.eraseSize - 1) % 2 ^ 64 < dev.eraseSize := by omega
  rw [Flash.writeTotal, Nat.div_eq_of_lt hmod, Nat.zero_mul]

theorem writeTotal_lt (hpos : 0 < dev.eraseSize) :
    Flash.writeTotal dev count < count + dev.eraseSize := by
  have hle := Nat.div_mul_le_self ((count + dev.eraseSize - 1) % 2 ^ 64) dev.eraseSize
  have hmod := Nat.mod_le (count + dev.eraseSize - 1) (2 ^ 64)
  rw [Flash.writeTotal]
  omega

/-- Every image that is written with success is stored, whatever the device and the heap hold. -/
def AlwaysStored (d : Flash) (dev : EnvDevice) : Prop :=
  ∀ (content : Mem) (heap : ℕ → UInt8) (fuel : ℕ) (buf : List UInt8) (d' : Flash),
    buf.length = dev.envSize →
    { d with content := content }.flashWriteBuf dev heap fuel buf = some d' →
      Stored dev { d with content := content } d' buf

/-- An image of bytes 55. -/
def image (dev : EnvDevice) : List UInt8 := List.replicate dev.envSize 0x55

theorem length_image : (image dev).length = dev.envSize := List.length_replicate

theorem AlwaysStored.filled (hall : AlwaysStored d dev) (hlen : buf.length = dev.envSize)
    (h : d.flashWriteBuf dev heap fuel buf = some d') (content : Mem) (heap' : ℕ → UInt8) :
    ∃ e, { d with content := content }.flashWriteBuf dev heap' fuel (image dev) = some e ∧
      Stored dev { d with content := content } e (image dev) := by
  have hsame : d.Same { d with content := content } := ⟨rfl, rfl⟩
  obtain ⟨e, hwrite⟩ := hsame.flashWriteBuf (length_image.trans hlen.symm) h
  exact ⟨e, hwrite, hall _ _ _ _ _ length_image hwrite⟩

namespace AlwaysStored

theorem word (hall : AlwaysStored d dev) (hacc : Accepted dev) (habsent : dev.mtdType ≠ .absent)
    (hpos : 0 < dev.envSize) (hlen : buf.length = dev.envSize)
    (h : d.flashWriteBuf dev heap fuel buf = some d') :
    dev.envSize + dev.eraseSize ≤ 2 ^ 64 := by
  by_contra hword
  have harea : dev.area < 2 ^ 64 := Nat.mod_lt _ (by decide)
  have hzero : Flash.writeTotal dev (image dev).length = 0 :=
    writeTotal_eq_zero hacc.eraseSize_pos
      (by rw [length_image]; exact hacc.envSize_le.trans_lt harea)
      (by rw [length_image]; omega)
  obtain ⟨e, hwrite, hstored⟩ := hall.filled hlen h (fun _ ↦ 0) heap
  obtain ⟨_, hlt, -⟩ | ⟨-, hwrite⟩ := flashWriteBuf_some habsent hwrite
  · omega
  · rw [Flash.writeLoop_done (by omega) hwrite] at hstored
    obtain ⟨fuel', hread⟩ := hstored.readback
    obtain ⟨p, hp⟩ := Flash.flashReadBuf_mem hread (List.mem_replicate.2 ⟨hpos.ne', rfl⟩)
    exact absurd (show (0 : UInt8) = 0x55 from hp) (by decide)

theorem le_total (hall : AlwaysStored d dev) (hacc : Accepted dev) (habsent : dev.mtdType ≠ .absent)
    (hpos : 0 < dev.envSize) (hlen : buf.length = dev.envSize)
    (h : d.flashWriteBuf dev heap fuel buf = some d') :
    dev.envSize ≤ Flash.writeTotal dev dev.envSize :=
  le_writeTotal hacc.eraseSize_pos (hall.word hacc habsent hpos hlen h)

theorem area_eq (hall : AlwaysStored d dev) (hacc : Accepted dev)
    (htype : dev.mtdType = .norFlash ∨ dev.mtdType = .dataFlash) (hpos : 0 < dev.envSize)
    (hlen : buf.length = dev.envSize) (h : d.flashWriteBuf dev heap fuel buf = some d') :
    dev.area = Flash.writeTotal dev dev.envSize := by
  have hnand := ne_nandFlash htype
  have habsent := ne_absent htype
  have hle := hall.le_total hacc habsent hpos hlen h
  have henv := hacc.envSize_le
  obtain hlt | heq | hgt := Nat.lt_trichotomy dev.area (Flash.writeTotal dev dev.envSize)
  · -- the sectors that are read end behind the environment
    rw [← hlen] at hlt hle henv
    obtain ⟨old, -, hread, -⟩ | ⟨hge, -⟩ := flashWriteBuf_some habsent h
    · obtain ⟨hsize, hend⟩ := (Flash.flashReadBuf_once hnand (u64_lt _) hread).2 (by omega)
      have hbound := d.size_lt
      have hmod := Nat.mod_le (u64 dev.devoff + dev.area) (2 ^ 64)
      have hend' : (u64 dev.devoff + Flash.writeTotal dev buf.length) % 2 ^ 64 ≤
        (u64 dev.devoff + dev.area) % 2 ^ 64 := hend
      rw [Nat.mod_eq_of_lt (by omega)] at hend'
      omega
    · omega
  · exact heq
  · obtain ⟨e, hwrite, hstored⟩ := hall.filled hlen h (fun _ ↦ 0xff) (fun _ ↦ 0x33)
    rw [← @length_image dev] at hle hgt hpos
    have hheap := Flash.writeLoop_heap htype (fun _ ↦ rfl) (by omega) hgt
      (length_preserved hle Mem.length_slice) (flashWriteBuf_area htype hwrite)
    rcases hstored.mem (u64 dev.devoff + Flash.writeTotal dev (image dev).length) with hold | himage
    · rw [hheap] at hold
      exact absurd (show (0x33 : UInt8) = 0xff from hold) (by decide)
    · rw [hheap] at himage
      exact absurd (List.eq_of_mem_replicate himage) (by decide)

theorem nor (hall : AlwaysStored d dev) (hacc : Accepted dev) (hnor : dev.mtdType = .norFlash)
    (hpos : 0 < dev.envSize) (hlen : buf.length = dev.envSize)
    (h : d.flashWriteBuf dev heap fuel buf = some d') :
    u64 dev.devoff < 2 ^ 32 := by
  by_contra hhigh
  have hnand : dev.mtdType ≠ .nandFlash := by rw [hnor]; simp
  have hle := hall.le_total hacc (by rw [hnor]; simp) hpos hlen h
  have harea := hall.area_eq hacc (.inl hnor) hpos hlen h
  obtain ⟨e, hwrite, hstored⟩ := hall.filled hlen h (fun _ ↦ 0) heap
  rw [← @length_image dev] at hle harea hpos
  obtain ⟨-, d₁, hcase, hprog⟩ := Flash.writeLoop_once hnand harea.ge (by omega)
    (flashWriteBuf_area (.inl hnor) hwrite)
  obtain ⟨hplain, -⟩ | ⟨-, herase⟩ := hcase
  · simp [hnor] at hplain
  · have hzero := Flash.erase_program_high (.inl hnor) (by omega) Flash.length_part
      (not_lt.1 hhigh) rfl herase hprog
    obtain ⟨fuel', hread⟩ := hstored.readback
    have hslice := (Flash.flashReadBuf_once hnand (u64_lt _) hread).1
    have hget := Mem.getElem?_slice (m := e.content) (a := u64 dev.devoff)
      (n := (image dev).length) 0
    rw [← hslice, if_pos hpos, Nat.add_zero, hzero, image, List.getElem?_replicate,
      if_pos (by rwa [length_image] at hpos)] at hget
    exact absurd (Option.some.inj hget) (by decide)

theorem nand (hall : AlwaysStored d dev) (hacc : Accepted dev) (hnand : dev.mtdType = .nandFlash)
    (hpos : 0 < dev.envSize) (hlen : buf.length = dev.envSize)
    (h : d.flashWriteBuf dev heap fuel buf = some d')
    (hv : Visits d dev.eraseSize dev.environmentEnd (u64 dev.devoff) us)
    (hus : us.length * dev.eraseSize = Flash.writeTotal dev dev.envSize) :
    ∀ s ∈ us, s < 2 ^ 32 := by
  by_contra hnot
  push Not at hnot
  have hex : ∃ p, p ∈ us ∧ 2 ^ 32 ≤ p := hnot
  obtain ⟨hp, hhigh⟩ := Nat.find_spec hex
  have hfirst : ∀ t ∈ us, t < Nat.find hex → t < 2 ^ 32 := fun t ht hlt ↦
    not_le.1 fun hle ↦ Nat.find_min hex hlt ⟨ht, hle⟩
  generalize Nat.find hex = p at hp hhigh hfirst
  have habsent : dev.mtdType ≠ .absent := by rw [hnand]; simp
  have hle := hall.le_total hacc habsent hpos hlen h
  obtain ⟨e, hwrite, hstored⟩ := hall.filled hlen h (fun _ ↦ 0) heap
  have hwrite' : ∃ data, { d with content := fun _ ↦ 0 }.writeLoop dev data heap dev.eraseSize
    dev.eraseSize
      (Flash.writeTotal dev dev.envSize) fuel 0 (u64 dev.devoff) = some e := by
    have hsome := flashWriteBuf_some habsent hwrite
    rw [if_pos hnand, length_image] at hsome
    obtain ⟨old, -, -, hwrite⟩ | ⟨-, hwrite⟩ := hsome
    · exact ⟨_, hwrite⟩
    · exact ⟨_, hwrite⟩
  obtain ⟨data, hwrite'⟩ := hwrite'
  have hmax := Flash.writeLoop_le (by omega) hwrite'
  have hsame : d.Same { d with content := fun _ ↦ 0 } := ⟨rfl, rfl⟩
  have hlength : us.length * dev.eraseSize = Flash.writeTotal dev dev.envSize - 0 := hus
  have hvalue :=
    Flash.writeLoop_high hnand hacc.eraseSize_pos hmax hv hlength hp hhigh hfirst hsame rfl hwrite'
  -- what is read back
  obtain ⟨_, -, -, hsize, hbad, -⟩ := Flash.writeLoop_visits hnand hmax (Nat.zero_le _)
    (Nat.dvd_mul_left _ _) hwrite'
  obtain ⟨fuel', hread⟩ := hstored.readback
  obtain ⟨fuel'', hread'⟩ := Flash.flashReadBuf_visits hnand hacc.aligned hmax (hv.congr hsize hbad)
    (show (image dev).length ≤ _ by rw [length_image]; omega)
  have hblocks := Flash.flashReadBuf_inj hread hread'
  obtain ⟨k, hk, rfl⟩ := List.getElem_of_mem hp
  have hbehind := @writeTotal_lt dev dev.envSize hacc.eraseSize_pos
  have hmul := Nat.mul_le_mul_right dev.eraseSize (Nat.succ_le_of_lt hk)
  rw [Nat.succ_mul] at hmul
  have hplace := @Mem.place_eq dev.eraseSize us k 0 hk hacc.eraseSize_pos
  have hget := @Mem.getElem?_blocks e.content dev.eraseSize us (k * dev.eraseSize + 0) (by omega)
  rw [hplace, Nat.add_zero us[k]] at hget
  have himage : (image dev)[k * dev.eraseSize + 0]? = some 0x55 := by
    rw [image, List.getElem?_replicate, if_pos (by omega)]
  rw [hblocks, List.getElem?_take, if_pos (by rw [length_image]; omega), hget] at himage
  rw [Option.some.inj himage] at hvalue
  exact absurd hvalue (by decide)

end AlwaysStored

theorem Fits.congr {d : Flash} (h : Fits d dev) (hsame : d.Same e) : Fits e dev := fun hpos ↦ by
  obtain ⟨harea, hsmall, hblocks⟩ := h hpos
  refine ⟨harea, hsmall, fun hnand ↦ ⟨(hblocks hnand).1, fun us hv ↦ ?_⟩⟩
  exact (hblocks hnand).2 us (hv.congr hsame.1.symm hsame.2.symm)

/-- On a device that is written with success, every image is stored if and only if the sectors
fit. -/
theorem flashWriteBuf_faithful_iff {probe : Probe} {dev₀ : EnvDevice}
    (hcheck : dev₀.checkDeviceConfig probe = some dev) (hprobe : probe.Known)
    (hlen : buf.length = dev.envSize) (h : d.flashWriteBuf dev heap fuel buf = some d') :
    AlwaysStored d dev ↔ Fits d dev := by
  have hacc := EnvDevice.checkDeviceConfig_accepted hcheck hprobe
  constructor
  · intro hall hpos
    refine ⟨fun htype ↦ hall.area_eq hacc htype hpos hlen h,
      fun hnor ↦ hall.nor hacc hnor hpos hlen h, fun hnand ↦
        ⟨?_, fun us hv hus ↦ hall.nand hacc hnand hpos hlen h hv hus⟩⟩
    exact hall.word hacc (by rw [hnand]; simp) hpos hlen h
  · intro hfits content heap' fuel' buf' e hlen' hwrite
    exact stored_of_fits hcheck hprobe hlen' (hfits.congr ⟨rfl, rfl⟩) hwrite

end

/-- Flash of 16 bytes, erased. -/
def erased : Flash := ⟨fun _ ↦ 0xff, 16, by decide, fun _ ↦ false⟩

theorem flashWriteBuf_faithful_iff_nor : AlwaysStored erased ⟨8, 3, 4, 1, .norFlash⟩ := by
  obtain ⟨d', hwrite⟩ : ∃ d',
      erased.flashWriteBuf ⟨8, 3, 4, 1, .norFlash⟩ (fun _ ↦ 0) 2 [1, 2, 3] = some d' := ⟨_, rfl⟩
  have hcheck : EnvDevice.checkDeviceConfig (.chr (some .norFlash)) ⟨8, 3, 4, 0, .absent⟩ =
      some ⟨8, 3, 4, 1, .norFlash⟩ := rfl
  exact (flashWriteBuf_faithful_iff hcheck (.inl rfl) rfl hwrite).2
    fun _ ↦ ⟨fun _ ↦ rfl, fun _ ↦ by decide, nofun⟩

/-- The environment fills the first of the two sectors of NOR flash, and the second gets what stands
behind the buffer. -/
theorem not_flashWriteBuf_faithful : ∃ (dev : EnvDevice) (buf : List UInt8) (d' : Flash),
    EnvDevice.checkDeviceConfig (.chr (some .norFlash)) ⟨0, 8, 8, 2, .absent⟩ = some dev ∧
      buf.length = dev.envSize ∧ erased.flashWriteBuf dev (fun _ ↦ 0x5a) 2 buf = some d' ∧
      ¬ Stored dev erased d' buf := by
  refine ⟨⟨0, 8, 8, 2, .norFlash⟩, [0x1c, 0xdf, 0x44, 0x21, 0, 0, 0, 0], _, rfl, rfl, rfl,
    fun h ↦ ?_⟩
  have hsource := h.mem 8
  revert hsource
  decide

end MiniPi.FwEnv
