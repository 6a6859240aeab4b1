import MelsecMc.AsciiApi

/-!
# The public requests as one type

Every public function that makes a request, with its arguments apart from the
descriptor, as one constructor for a family of functions. `mc` and `mcAscii`
lead to the functions under their own names. Lengths are `int`s.
-/
namespace MelsecMc

/-- The C types with batch functions, apart from `bool`. -/
inductive BatchType where
  | short
  | ushort
  | int32
  | uint32
  | float
  deriving DecidableEq, Repr

def BatchType.type : BatchType → ValueType
  | short => .short
  | ushort => .ushort
  | int32 => .int32
  | uint32 => .uint32
  | float => .float

namespace ValueType

def mcRead (network : PlcNetworkAddress) (fd : ℤ) (address : Option CString) (val : Bool) :
    (T : ValueType) → Call (ErrorCode × Option T.Value)
  | short => mcReadShort network fd address val
  | ushort => mcReadUshort network fd address val
  | int32 => mcReadInt32 network fd address val
  | uint32 => mcReadUint32 network fd address val
  | int64 => mcReadInt64 network fd address val
  | uint64 => mcReadUint64 network fd address val
  | float => mcReadFloat network fd address val
  | double => mcReadDouble network fd address val

def mcWrite (network : PlcNetworkAddress) (fd : ℤ) (address : Option CString) :
    (T : ValueType) → T.Value → Call (ErrorCode × Unit)
  | short => mcWriteShort network fd address
  | ushort => mcWriteUshort network fd address
  | int32 => mcWriteInt32 network fd address
  | uint32 => mcWriteUint32 network fd address
  | int64 => mcWriteInt64 network fd address
  | uint64 => mcWriteUint64 network fd address
  | float => mcWriteFloat network fd address
  | double => mcWriteDouble network fd address

open Ascii in
def mcAsciiRead (network : PlcNetworkAddress) (fd : ℤ) (address : Option CString) (val : Bool) :
    (T : ValueType) → Call (ErrorCode × Option T.Value)
  | short => mcAsciiReadShort network fd address val
  | ushort => mcAsciiReadUshort network fd address val
  | int32 => mcAsciiReadInt32 network fd address val
  | uint32 => mcAsciiReadUint32 network fd address val
  | int64 => mcAsciiReadInt64 network fd address val
  | uint64 => mcAsciiReadUint64 network fd address val
  | float => mcAsciiReadFloat network fd address val
  | double => mcAsciiReadDouble network fd address val

open Ascii in
def mcAsciiWrite (network : PlcNetworkAddress) (fd : ℤ) (address : Option CString) :
    (T : ValueType) → T.Value → Call (ErrorCode × Unit)
  | short => mcAsciiWriteShort network fd address
  | ushort => mcAsciiWriteUshort network fd address
  | int32 => mcAsciiWriteInt32 network fd address
  | uint32 => mcAsciiWriteUint32 network fd address
  | int64 => mcAsciiWriteInt64 network fd address
  | uint64 => mcAsciiWriteUint64 network fd address
  | float => mcAsciiWriteFloat network fd address
  | double => mcAsciiWriteDouble network fd address

section

variable (T : ValueType) {network : PlcNetworkAddress} {fd : ℤ} {address : Option CString}

theorem mcWrite_eq (v : T.Value) : T.mcWrite network fd address v =
    MelsecMc.writeValue (writeWordValue network) T.words T.codec fd address v := by
  cases T <;> rfl

theorem mcAsciiWrite_eq (v : T.Value) : T.mcAsciiWrite network fd address v =
    MelsecMc.writeValue (Ascii.writeWordValue network) T.words T.codec fd address v := by
  cases T <;> rfl

/-- The readers differ in the length they ask for, and all take the length of their value. -/
theorem mcRead_eq (network : PlcNetworkAddress) (fd : ℤ) (address : Option CString) (val : Bool) :
    ∃ enough : ℤ → Bool, T.mcRead network fd address val =
      MelsecMc.readValue (readWordValue network) T.words enough T.codec fd address val ∧
    enough (2 * T.words : ℕ) = true := by
  cases T with
  | short => exact ⟨fun n => decide (0 < n), rfl, rfl⟩
  | ushort => exact ⟨fun n => decide (2 ≤ n), rfl, rfl⟩
  | int32 | uint32 | float => exact ⟨fun n => decide (4 ≤ n), rfl, rfl⟩
  | int64 | uint64 | double => exact ⟨fun n => decide (8 ≤ n), rfl, rfl⟩

theorem mcAsciiRead_eq {val : Bool} : T.mcAsciiRead network fd address val =
    MelsecMc.readValue (Ascii.readWordValue network) T.words
      (fun n => decide (((2 * T.words : ℕ) : ℤ) ≤ n)) T.codec fd address val := by
  cases T <;> rfl

theorem words_le : T.words ≤ 4 := by cases T <;> decide

theorem toUShort_words : (toUShort T.words : ℤ) = T.words := by
  have hle := T.words_le
  rw [toUShort_eq (by omega)]

end

end ValueType

namespace BatchType

/-- The point count that a batch function computes. -/
def points (length : ℤ) : BatchType → ℤ
  | short | ushort => length
  | int32 | uint32 | float => toInt32 (length * 2)

def mcReadBatch (network : PlcNetworkAddress) (fd : ℤ) (address : Option CString) (length : ℤ)
    (values : Bool) : (T : BatchType) → Call (ErrorCode × Option (List T.type.Value))
  | short => mcReadShortBatch network fd address length values
  | ushort => mcReadUshortBatch network fd address length values
  | int32 => mcReadInt32Batch network fd address length values
  | uint32 => mcReadUint32Batch network fd address length values
  | float => mcReadFloatBatch network fd address length values

def mcWriteBatch (network : PlcNetworkAddress) (fd : ℤ) (address : Option CString) (length : ℤ) :
    (T : BatchType) → Option (Elements T.type.Value length) → Call (ErrorCode × Unit)
  | short => mcWriteShortBatch network fd address length
  | ushort => mcWriteUshortBatch network fd address length
  | int32 => mcWriteInt32Batch network fd address length
  | uint32 => mcWriteUint32Batch network fd address length
  | float => mcWriteFloatBatch network fd address length

theorem mcReadBatch_eq (T : BatchType) {network : PlcNetworkAddress} {fd : ℤ}
    {address : Option CString} {length : ℤ} {values : Bool} :
    T.mcReadBatch network fd address length values =
      readBatch network (T.points length) T.type.codec fd address length values := by
  cases T <;> rfl

theorem mcWriteBatch_eq (T : BatchType) {network : PlcNetworkAddress} {fd : ℤ}
    {address : Option CString} {length : ℤ} :
    T.mcWriteBatch network fd address length =
      writeBatch network (T.points length) T.type.codec fd address length := by
  cases T <;> rfl

end BatchType

/-- Reads and writes that both modules offer. -/
inductive Access where
  | readBool (val : Bool)
  | readValue (T : ValueType) (val : Bool)
  | readString (length : ℤ) (range : InInt32 length) (val : Bool)
  | writeBool (val : Bool)
  | writeValue (T : ValueType) (val : T.Value)
  | writeString (length : ℤ) (range : InInt32 length) (val : Option (Elements Byte length))

/-- The batch functions of the binary module. -/
inductive BatchAccess where
  | readBool (length : ℤ) (range : InInt32 length) (values : Bool)
  | read (T : BatchType) (length : ℤ) (range : InInt32 length) (values : Bool)
  | writeBool (length : ℤ) (range : InInt32 length) (values : Option (Elements Bool length))
  | write (T : BatchType) (length : ℤ) (range : InInt32 length)
      (values : Option (Elements T.type.Value length))

inductive Remote where
  | run
  | stop
  | reset
  | readPlcType (type : Bool)

/-- The error code that a call returns. -/
def Call.code {β : Type} (c : Call (ErrorCode × β)) : Call ErrorCode :=
  c >>= fun result => .ret result.1

variable (network : PlcNetworkAddress) (fd : ℤ)

def Access.mc (address : Option CString) : Access → Call ErrorCode
  | readBool val => (mcReadBool network fd address val).code
  | readValue T val => (T.mcRead network fd address val).code
  | readString length _ val => (mcReadString network fd address length val).code
  | writeBool val => (mcWriteBool network fd address val).code
  | writeValue T val => (T.mcWrite network fd address val).code
  | writeString length _ val => (mcWriteString network fd address length val).code

open Ascii in
def Access.mcAscii (address : Option CString) : Access → Call ErrorCode
  | readBool val => (mcAsciiReadBool network fd address val).code
  | readValue T val => (T.mcAsciiRead network fd address val).code
  | readString length _ val => (mcAsciiReadString network fd address length val).code
  | writeBool val => (mcAsciiWriteBool network fd address val).code
  | writeValue T val => (T.mcAsciiWrite network fd address val).code
  | writeString length _ val => (mcAsciiWriteString network fd address length val).code

def BatchAccess.mc (address : Option CString) : BatchAccess → Call ErrorCode
  | readBool length _ values => (mcReadBoolBatch network fd address length values).code
  | read T length _ values => (T.mcReadBatch network fd address length values).code
  | writeBool length _ values => (mcWriteBoolBatch network fd address length values).code
  | write T length _ values => (T.mcWriteBatch network fd address length values).code

def Remote.mc : Remote → Call ErrorCode
  | run => (mcRemoteRun network fd).code
  | stop => (mcRemoteStop network fd).code
  | reset => (mcRemoteReset network fd).code
  | readPlcType type => (mcReadPlcType network fd type).code

open Ascii in
def Remote.mcAscii : Remote → Call ErrorCode
  | run => (mcAsciiRemoteRun network fd).code
  | stop => (mcAsciiRemoteStop network fd).code
  | reset => (mcAsciiRemoteReset network fd).code
  | readPlcType type => (mcAsciiReadPlcType network fd type).code

end MelsecMc
