import MiniPi.Lib.Mem

/-!
# Blob attributes

An attribute is a word in network byte order, with the id in its bits 24 to 30 and the length
of the attribute (header included) in its low 24 bits, and a payload.  The next attribute starts
at the next multiple of four.
-/

namespace MiniPi.Blob

open Lib

/-- `attr->id_len`, in the byte order of the host. -/
def idLen (m : Mem) (attr : ℕ) : ℕ := beValue (m.slice attr 4)

/-- `blob_id`. -/
def blobId (m : Mem) (attr : ℕ) : ℕ := idLen m attr / 2 ^ 24 % 2 ^ 7

/-- `blob_is_extended`. -/
def blobIsExtended (m : Mem) (attr : ℕ) : Bool := idLen m attr / 2 ^ 31 % 2 == 1

/-- `blob_data`. -/
def blobData (attr : ℕ) : ℕ := attr + 4

/-- `blob_len`, an `unsigned int`: a length below that of the header wraps around. -/
def blobLen (m : Mem) (attr : ℕ) : ℕ := (idLen m attr % 2 ^ 24 + (2 ^ 32 - 4)) % 2 ^ 32

/-- `blob_raw_len`. -/
def blobRawLen (m : Mem) (attr : ℕ) : ℕ := (blobLen m attr + 4) % 2 ^ 32

/-- `blob_pad_len`. -/
def blobPadLen (m : Mem) (attr : ℕ) : ℕ := (blobRawLen m attr + 3) / 4 * 4

/-- `blob_next`. -/
def blobNext (m : Mem) (attr : ℕ) : ℕ := attr + blobPadLen m attr

theorem blobRawLen_eq (m : Mem) (attr : ℕ) : blobRawLen m attr = idLen m attr % 2 ^ 24 := by
  unfold blobRawLen blobLen
  omega

theorem blobRawLen_lt (m : Mem) (attr : ℕ) : blobRawLen m attr < 2 ^ 24 := by
  rw [blobRawLen_eq]
  exact Nat.mod_lt _ (by decide)

theorem blobLen_of_le {m : Mem} {attr : ℕ} (h : 4 ≤ blobRawLen m attr) :
    blobLen m attr = blobRawLen m attr - 4 := by
  rw [blobRawLen_eq] at h ⊢
  unfold blobLen
  omega

theorem blobRawLen_le_padLen (m : Mem) (attr : ℕ) : blobRawLen m attr ≤ blobPadLen m attr := by
  unfold blobPadLen
  omega

end MiniPi.Blob
