import MiniPi.Blob.Build
import MiniPi.Blob.Iterate

/-!
# Messages

A message is a blob whose attributes carry a name in front of their data: the length of the name,
the name with its NUL, and padding.  Tables and arrays are attributes whose data are attributes
again.
-/

namespace MiniPi.Blob

open Lib

/-! ## Fields -/

/-- The data of a field that is not nested. -/
inductive Value
  | u8 (v : UInt8)
  | u16 (v : UInt16)
  | u32 (v : UInt32)
  | u64 (v : UInt64)
  | string (s : List UInt8)
  | raw (data : List UInt8)
deriving DecidableEq, Repr

/-- Named fields, one after the other; tables and arrays hold fields. -/
inductive Fields
  | nil
  | value (name : List UInt8) (v : Value) (rest : Fields)
  | nested (name : List UInt8) (array : Bool) (children rest : Fields)
deriving DecidableEq, Repr

/-- `enum blobmsg_type`. -/
def Value.type : Value → ℕ
  | .raw _ => 0
  | .string _ => 3
  | .u64 _ => 4
  | .u32 _ => 5
  | .u16 _ => 6
  | .u8 _ => 7

/-- The type of a table or an array. -/
def nestedType (array : Bool) : ℕ := if array then 1 else 2

/-- The bytes that are given to `blobmsg_add_field`. -/
def Value.data : Value → List UInt8
  | .raw data => data
  | .string s => s ++ [0]
  | .u64 v => beBytes 8 v.toNat
  | .u32 v => beBytes 4 v.toNat
  | .u16 v => beBytes 2 v.toNat
  | .u8 v => [v]

/-- A C string whose length fits the field for it. -/
def NameOk (name : List UInt8) : Prop := name.length < 2 ^ 16 ∧ 0 ∉ name

/-- The strings are C strings. -/
def Value.Ok : Value → Prop
  | .string s => 0 ∉ s
  | _ => True

/-- The names and the strings are C strings, and the lengths of the names fit the field for them. -/
def Fields.Ok : Fields → Prop
  | .nil => True
  | .value name v rest => NameOk name ∧ v.Ok ∧ rest.Ok
  | .nested name _ children rest => NameOk name ∧ children.Ok ∧ rest.Ok

/-! ## Writing -/

/-- `blobmsg_hdrlen`. -/
def blobmsgHdrlen (namelen : ℕ) : ℕ := (2 + namelen + 1 + 3) / 4 * 4

/-- `blobmsg_data`. -/
def blobmsgData (m : Mem) (attr : ℕ) : ℕ :=
  blobData attr +
    if blobIsExtended m attr then blobmsgHdrlen (beValue (m.slice (blobData attr) 2)) else 0

namespace BlobBuf

/-- `blobmsg_new`: the attribute, and where its data go. -/
def blobmsgNew (realloc : ℕ → ℕ) (b : BlobBuf) (type : ℕ) (name : List UInt8) (payloadLen : ℕ) :
    Option (BlobBuf × ℕ × ℕ) := do
  let namelen := name.length
  let (b, attr) ← b.blobNew realloc type (blobmsgHdrlen namelen + payloadLen)
  let b ← b.store attr (beBytes 4 (idLen b.mem attr % 2 ^ 31 + 2 ^ 31))
  let b ← b.store (blobData attr) (beBytes 2 namelen)
  let b ← b.store (blobData attr + 2) (name ++ [0])
  let data := blobmsgData b.mem attr
  let padStart := blobData attr + 2 + namelen
  let b ← b.store padStart (List.replicate (data - padStart) 0)
  some (b, attr, data)

/-- `blobmsg_open_nested`: the cookie is the offset of the attribute that was open. -/
def blobmsgOpenNested (realloc : ℕ → ℕ) (b : BlobBuf) (name : List UInt8) (array : Bool) :
    Option (BlobBuf × ℕ) := do
  let offset := b.attrToOffset b.head
  let (b, head, _) ← b.blobmsgNew realloc (nestedType array) name 0
  let b ← b.blobSetRawLen b.head (blobPadLen b.mem b.head - blobmsgHdrlen name.length)
  some ({ b with head }, offset)

/-- `blobmsg_add_field`. -/
def blobmsgAddField (realloc : ℕ → ℕ) (b : BlobBuf) (type : ℕ) (name data : List UInt8) :
    Option BlobBuf := do
  let (b, _, dest) ← b.blobmsgNew realloc type name data.length
  b.store dest data

/-- The calls that add fields: `blobmsg_add_u8` and its siblings, and `blobmsg_open_table` or
`blobmsg_open_array` with `blob_nest_end`. -/
def addFields (realloc : ℕ → ℕ) (b : BlobBuf) : Fields → Option BlobBuf
  | .nil => some b
  | .value name v rest => do
    let b ← b.blobmsgAddField realloc v.type name v.data
    addFields realloc b rest
  | .nested name array children rest => do
    let (b, cookie) ← b.blobmsgOpenNested realloc name array
    let b ← addFields realloc b children
    let b ← b.blobNestEnd cookie
    addFields realloc b rest

/-- `blob_buf_init`, and the calls that add fields. -/
def build (realloc : ℕ → ℕ) (b : BlobBuf) (id : ℕ) (fs : Fields) : Option BlobBuf := do
  let b ← b.blobBufInit realloc id
  addFields realloc b fs

end BlobBuf

/-! ## Reading -/

/-- `blobmsg_name`, as far as the attribute goes. -/
def blobmsgName (m : Mem) (attr : ℕ) : List UInt8 :=
  (m.slice (blobData attr + 2) (blobLen m attr)).takeWhile (· ≠ 0)

/-- `blobmsg_data_len`. -/
def blobmsgDataLen (m : Mem) (attr : ℕ) : ℤ :=
  blobLen m attr - (blobmsgData m attr - blobData attr : ℕ)

/-- The loop of `blobmsg_for_each_attr`. -/
def blobmsgForEachAttr (m : Mem) (n attr : ℕ) : Option Walk :=
  attrLoop m n (blobmsgData m attr) (blobmsgDataLen m attr).toNat

/-- The value of a type in the data of an attribute. -/
def readValue (type : ℕ) (data : List UInt8) : Option Value :=
  match type with
  | 0 => some (.raw data)
  | 3 => some (.string (data.takeWhile (· ≠ 0)))
  | 4 => if data.length = 8 then some (.u64 (.ofNat (beValue data))) else none
  | 5 => if data.length = 4 then some (.u32 (.ofNat (beValue data))) else none
  | 6 => if data.length = 2 then some (.u16 (.ofNat (beValue data))) else none
  | 7 => if data.length = 1 then some (.u8 (.ofNat (beValue data))) else none
  | _ => none

/-- The fields at the given attributes, for at most `n` fields. -/
def readFields (m : Mem) : ℕ → List ℕ → Option Fields
  | _, [] => some .nil
  | 0, _ :: _ => none
  | n + 1, attr :: attrs => do
    let rest ← readFields m n attrs
    let name := blobmsgName m attr
    if blobId m attr = 1 ∨ blobId m attr = 2 then
      let w ← blobmsgForEachAttr m n attr
      let children ← readFields m n w.children
      some (.nested name (decide (blobId m attr = 1)) children rest)
    else
      let v ← readValue (blobId m attr)
        (m.slice (blobmsgData m attr) (blobmsgDataLen m attr).toNat)
      some (.value name v rest)

/-- The fields of a message. -/
def readMessage (m : Mem) (n attr : ℕ) : Option Fields := do
  let w ← forEachAttr m n attr
  readFields m n w.children

end MiniPi.Blob
