import MelsecMc.Call
import MelsecMc.Utill

/-!
# Public functions of the binary module (melsec_mc_bin.c, melsec_mc_bin_batch.c)

`network` is the content of `g_network_address` when the request is packed. An
output parameter that is assigned is `some` value, `none` means that it keeps
what the caller had there. A caller's `val` pointer is only asked whether it is
null.
-/
namespace MelsecMc

variable (network : PlcNetworkAddress)

/-- `read_bool_value`. -/
def readBoolValue (fd : ℤ) (address : Option CString) (length : ℤ) (out_bytes : ByteArrayInfo) :
    Call (ErrorCode × ByteArrayInfo) :=
  if fd ≤ 0 ∨ address.isNone ∨ length ≤ 0 then .ret (.invalidParameter, out_bytes)
  else analysed address length out_bytes fun address_data =>
    exchange packMcCommand minResponseHeaderSize network fd
      (buildReadCoreCommand address_data true) out_bytes fun response => do
        let (ret, data) ← mcParseReadResponse response (some out_bytes)
        let out_bytes := data.getD out_bytes
        if ret = .success then return (ret, ← extractActualBoolData out_bytes)
        else return (ret, out_bytes)

/-- `read_address_data`. -/
def readAddressData (fd : ℤ) (address_data : MelsecMcAddressData) (out_bytes : ByteArrayInfo) :
    Call (ErrorCode × ByteArrayInfo) :=
  if fd ≤ 0 then .ret (.invalidParameter, out_bytes)
  else exchange packMcCommand minResponseHeaderSize network fd
    (buildReadCoreCommand address_data false) out_bytes fun response => do
      let (ret, data) ← mcParseReadResponse response (some out_bytes)
      return (ret, data.getD out_bytes)

/-- `read_word_value`. -/
def readWordValue (fd : ℤ) (address : Option CString) (length : ℤ) (out_bytes : ByteArrayInfo) :
    Call (ErrorCode × ByteArrayInfo) :=
  if fd ≤ 0 ∨ address.isNone ∨ length ≤ 0 then .ret (.invalidParameter, out_bytes)
  else analysed address length out_bytes fun address_data =>
    readAddressData network fd address_data out_bytes

/-- A request whose response carries nothing. -/
def writeExchange (fd : ℤ) (core_cmd : ByteArrayInfo) : Call (ErrorCode × Unit) :=
  exchange packMcCommand minResponseHeaderSize network fd core_cmd () fun response => do
    let (ret, _) ← mcParseWriteResponse response none
    return (ret, ())

/-- `write_bool_value`. -/
def writeBoolValue (fd : ℤ) (address : Option CString) (length : ℤ) (in_bytes : BoolArrayInfo) :
    Call (ErrorCode × Unit) :=
  if fd ≤ 0 ∨ address.isNone ∨ length ≤ 0 ∨ in_bytes.data.isNone then
    .ret (.invalidParameter, ())
  else analysed address length () fun address_data => do
    let core_cmd ← .ofOption (buildWriteBitCoreCommand address_data in_bytes)
    writeExchange network fd core_cmd

/-- `write_address_data`. -/
def writeAddressData (fd : ℤ) (address_data : MelsecMcAddressData) (in_bytes : ByteArrayInfo) :
    Call (ErrorCode × Unit) := do
  let core_cmd ← .ofOption (buildWriteWordCoreCommand address_data in_bytes)
  writeExchange network fd core_cmd

/-- `write_word_value`. -/
def writeWordValue (fd : ℤ) (address : Option CString) (length : ℤ) (in_bytes : ByteArrayInfo) :
    Call (ErrorCode × Unit) :=
  analysed address length () fun address_data => writeAddressData network fd address_data in_bytes

/-- `mc_remote_run`. -/
def mcRemoteRun (fd : ℤ) : Call (ErrorCode × Unit) :=
  if fd ≤ 0 then .ret (.invalidParameter, ())
  else writeExchange network fd (.ofList [0x01, 0x10, 0x00, 0x00, 0x01, 0x00, 0x00, 0x00])

/-- `mc_remote_stop`. The descriptor is checked in the transaction only. -/
def mcRemoteStop (fd : ℤ) : Call (ErrorCode × Unit) :=
  writeExchange network fd (.ofList [0x02, 0x10, 0x00, 0x00, 0x01, 0x00])

/-- `mc_remote_reset`. -/
def mcRemoteReset (fd : ℤ) : Call (ErrorCode × Unit) :=
  if fd ≤ 0 then .ret (.invalidParameter, ())
  else writeExchange network fd (.ofList [0x06, 0x10, 0x00, 0x00, 0x01, 0x00])

/-- The zero-terminated copy of a payload. -/
def terminatedCopy (data : ByteArrayInfo) : Option (List Byte) :=
  if 0 < data.length then (data.data.bind (memcpy · data.length)).map (· ++ [0]) else some [0]

/-- `mc_read_plc_type`. -/
def mcReadPlcType (fd : ℤ) (type : Bool) : Call (ErrorCode × Option (List Byte)) :=
  if fd ≤ 0 ∨ ¬ type then .ret (.invalidParameter, none)
  else exchange packMcCommand minResponseHeaderSize network fd
    (.ofList [0x01, 0x01, 0x00, 0x00, 0x01, 0x00]) none fun response => do
      let (ret, plc_type_data) ← mcParseWriteResponse response (some .empty)
      if ret ≠ .success then return (ret, none)
      else
        let out ← terminatedCopy (plc_type_data.getD .empty)
        return (.success, some out)

section Typed

variable {size : ℕ}

/-- A single-value reader: the words it asks for, the payload lengths it decodes. -/
def readValue
    (readWord : ℤ → Option CString → ℤ → ByteArrayInfo → Call (ErrorCode × ByteArrayInfo))
    (points : ℤ) (enough : ℤ → Bool) (C : ValueCodec size) (fd : ℤ) (address : Option CString)
    (val : Bool) : Call (ErrorCode × Option (BitVec (8 * size))) :=
  if fd ≤ 0 ∨ address.isNone ∨ ¬ val then .ret (.invalidParameter, none)
  else do
    let (ret, read_data) ← readWord fd address points .empty
    if ret = .success ∧ enough read_data.length then
      let v ← .ofOption (read_data.data.bind C.decode)
      return (ret, some v)
    else return (ret, none)

/-- A single-value writer. -/
def writeValue (writeWord : ℤ → Option CString → ℤ → ByteArrayInfo → Call (ErrorCode × Unit))
    (points : ℤ) (C : ValueCodec size) (fd : ℤ) (address : Option CString)
    (val : BitVec (8 * size)) : Call (ErrorCode × Unit) :=
  if fd ≤ 0 ∨ address.isNone then .ret (.invalidParameter, ())
  else writeWord fd address points (.ofList (C.encode val))

/-- A batch reader. The product with the element size is an `int`. -/
def readBatch (points : ℤ) (C : ValueCodec size) (fd : ℤ) (address : Option CString)
    (length : ℤ) (values : Bool) : Call (ErrorCode × Option (List (BitVec (8 * size)))) :=
  if fd ≤ 0 ∨ address.isNone ∨ ¬ values ∨ length ≤ 0 then .ret (.invalidParameter, none)
  else do
    let (ret, read_data) ← readWordValue network fd address points .empty
    if ret = .success ∧ read_data.length ≥ toInt32 (length * size) then
      let vs ← .ofOption ((List.range length.toNat).mapM fun i =>
        read_data.data.bind fun data => C.decode (data.drop (i * size)))
      return (ret, some vs)
    else return (ret, none)

/-- A batch writer. The conversion loop stores `length * size` bytes, whatever was allocated. -/
def writeBatch (points : ℤ) (C : ValueCodec size) (fd : ℤ) (address : Option CString)
    (length : ℤ) (values : Option (Elements (BitVec (8 * size)) length)) :
    Call (ErrorCode × Unit) :=
  match values with
  | none => .ret (.invalidParameter, ())
  | some values =>
    if fd ≤ 0 ∨ address.isNone ∨ length ≤ 0 then .ret (.invalidParameter, ())
    else
      let byte_len := toInt32 (length * size)
      if malloc byte_len then
        if length * size ≤ byte_len then
          writeWordValue network fd address points ⟨some (values.used.flatMap C.encode), byte_len⟩
        else .fault
      else .ret (.mallocFailed, ())

end Typed

/-- `mc_read_bool`. -/
def mcReadBool (fd : ℤ) (address : Option CString) (val : Bool) :
    Call (ErrorCode × Option Bool) :=
  if fd ≤ 0 ∨ address.isNone ∨ ¬ val then .ret (.invalidParameter, none)
  else do
    let (ret, read_data) ← readBoolValue network fd address 1 .empty
    if ret = .success ∧ 0 < read_data.length then
      let b ← .ofOption (read_data.data.bind (·[0]?))
      return (ret, some (b != 0))
    else return (ret, none)

/-- `mc_read_short`. It decodes a payload of a single byte, too. -/
def mcReadShort := readValue (readWordValue network) 1 (fun n => decide (0 < n)) shortCodec

/-- `mc_read_ushort`. -/
def mcReadUshort := readValue (readWordValue network) 1 (fun n => decide (2 ≤ n)) ushortCodec

/-- `mc_read_int32`. -/
def mcReadInt32 := readValue (readWordValue network) 2 (fun n => decide (4 ≤ n)) int32Codec

/-- `mc_read_uint32`. -/
def mcReadUint32 := readValue (readWordValue network) 2 (fun n => decide (4 ≤ n)) uint32Codec

/-- `mc_read_int64`. -/
def mcReadInt64 := readValue (readWordValue network) 4 (fun n => decide (8 ≤ n)) int64Codec

/-- `mc_read_uint64`. -/
def mcReadUint64 := readValue (readWordValue network) 4 (fun n => decide (8 ≤ n)) uint64Codec

/-- `mc_read_float`. -/
def mcReadFloat := readValue (readWordValue network) 2 (fun n => decide (4 ≤ n)) floatCodec

/-- `mc_read_double`. -/
def mcReadDouble := readValue (readWordValue network) 4 (fun n => decide (8 ≤ n)) doubleCodec

/-- The number of bytes of the words that hold a string of `length` bytes. -/
def evenLength (length : ℤ) : ℤ := if length.tmod 2 = 1 then toInt32 (length + 1) else length

/-- `mc_read_string`. The result has no room for a terminator, and `val` is not checked. -/
def mcReadString (fd : ℤ) (address : Option CString) (length : ℤ) (val : Bool) :
    Call (ErrorCode × Option (List Byte)) :=
  if fd ≤ 0 ∨ address.isNone ∨ length ≤ 0 then .ret (.invalidParameter, none)
  else do
    let read_len := evenLength length
    let (ret, read_data) ← readWordValue network fd address (read_len.tdiv 2) .empty
    if ret = .success ∧ read_data.length ≥ read_len then
      if malloc read_len then
        let ret_str ← .ofOption (read_data.data.bind (memcpy · read_len))
        if val then return (ret, some ret_str) else .fault
      else return (.mallocFailed, none)
    else return (ret, none)

/-- `mc_write_bool`. -/
def mcWriteBool (fd : ℤ) (address : Option CString) (val : Bool) : Call (ErrorCode × Unit) :=
  if fd ≤ 0 ∨ address.isNone then .ret (.invalidParameter, ())
  else writeBoolValue network fd address 1 ⟨some [val], 1⟩

/-- `mc_write_short`. -/
def mcWriteShort := writeValue (writeWordValue network) 1 shortCodec

/-- `mc_write_ushort`. -/
def mcWriteUshort := writeValue (writeWordValue network) 1 ushortCodec

/-- `mc_write_int32`. -/
def mcWriteInt32 := writeValue (writeWordValue network) 2 int32Codec

/-- `mc_write_uint32`. -/
def mcWriteUint32 := writeValue (writeWordValue network) 2 uint32Codec

/-- `mc_write_int64`. -/
def mcWriteInt64 := writeValue (writeWordValue network) 4 int64Codec

/-- `mc_write_uint64`. -/
def mcWriteUint64 := writeValue (writeWordValue network) 4 uint64Codec

/-- `mc_write_float`. -/
def mcWriteFloat := writeValue (writeWordValue network) 2 floatCodec

/-- `mc_write_double`. -/
def mcWriteDouble := writeValue (writeWordValue network) 4 doubleCodec

/-- `mc_write_string`. A length of zero or less is not refused here. -/
def mcWriteString (fd : ℤ) (address : Option CString) (length : ℤ)
    (val : Option (Elements Byte length)) : Call (ErrorCode × Unit) :=
  match val with
  | none => .ret (.invalidParameter, ())
  | some val =>
    if fd ≤ 0 ∨ address.isNone then .ret (.invalidParameter, ())
    else
      let write_len := evenLength length
      if malloc write_len then
        writeWordValue network fd address (write_len.tdiv 2)
          ⟨some (val.used ++ List.replicate (write_len - length).toNat 0), write_len⟩
      else .ret (.buildCoreCmdFailed, ())

/-- `mc_read_bool_batch`. -/
def mcReadBoolBatch (fd : ℤ) (address : Option CString) (length : ℤ) (values : Bool) :
    Call (ErrorCode × Option (List Bool)) :=
  if fd ≤ 0 ∨ address.isNone ∨ ¬ values ∨ length ≤ 0 then .ret (.invalidParameter, none)
  else do
    let (ret, read_data) ← readBoolValue network fd address length .empty
    if ret = .success ∧ read_data.length ≥ length then
      let bs ← .ofOption (read_data.data.bind (memcpy · length))
      return (ret, some (bs.map (· != 0)))
    else return (ret, none)

/-- `mc_read_short_batch`. -/
def mcReadShortBatch (fd : ℤ) (address : Option CString) (length : ℤ) :=
  readBatch network length shortCodec fd address length

/-- `mc_read_ushort_batch`. -/
def mcReadUshortBatch (fd : ℤ) (address : Option CString) (length : ℤ) :=
  readBatch network length ushortCodec fd address length

/-- `mc_read_int32_batch`. -/
def mcReadInt32Batch (fd : ℤ) (address : Option CString) (length : ℤ) :=
  readBatch network (toInt32 (length * 2)) int32Codec fd address length

/-- `mc_read_uint32_batch`. -/
def mcReadUint32Batch (fd : ℤ) (address : Option CString) (length : ℤ) :=
  readBatch network (toInt32 (length * 2)) uint32Codec fd address length

/-- `mc_read_float_batch`. -/
def mcReadFloatBatch (fd : ℤ) (address : Option CString) (length : ℤ) :=
  readBatch network (toInt32 (length * 2)) floatCodec fd address length

/-- `mc_write_bool_batch`. -/
def mcWriteBoolBatch (fd : ℤ) (address : Option CString) (length : ℤ)
    (values : Option (Elements Bool length)) : Call (ErrorCode × Unit) :=
  match values with
  | none => .ret (.invalidParameter, ())
  | some values =>
    if fd ≤ 0 ∨ address.isNone ∨ length ≤ 0 then .ret (.invalidParameter, ())
    else writeBoolValue network fd address length ⟨some values.used, length⟩

/-- `mc_write_short_batch`. -/
def mcWriteShortBatch (fd : ℤ) (address : Option CString) (length : ℤ) :=
  writeBatch network length shortCodec fd address length

/-- `mc_write_ushort_batch`. -/
def mcWriteUshortBatch (fd : ℤ) (address : Option CString) (length : ℤ) :=
  writeBatch network length ushortCodec fd address length

/-- `mc_write_int32_batch`. -/
def mcWriteInt32Batch (fd : ℤ) (address : Option CString) (length : ℤ) :=
  writeBatch network (toInt32 (length * 2)) int32Codec fd address length

/-- `mc_write_uint32_batch`. -/
def mcWriteUint32Batch (fd : ℤ) (address : Option CString) (length : ℤ) :=
  writeBatch network (toInt32 (length * 2)) uint32Codec fd address length

/-- `mc_write_float_batch`. -/
def mcWriteFloatBatch (fd : ℤ) (address : Option CString) (length : ℤ) :=
  writeBatch network (toInt32 (length * 2)) floatCodec fd address length

end MelsecMc
