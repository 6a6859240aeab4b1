import MelsecMc.BinaryApi

/-!
# Public functions of the ASCII module (melsec_mc_ascii.c)

The module repeats the functions of the binary one over its own frames, without
the batch functions. `network` is the content of `g_ascii_network_address`.
-/
namespace MelsecMc.Ascii

variable (network : PlcNetworkAddress)

/-- `read_bool_value` and `read_word_value` of this module. -/
def readDeviceValue (is_bit : Bool) (fd : ℤ) (address : Option CString) (length : ℤ)
    (out_bytes : ByteArrayInfo) : Call (ErrorCode × ByteArrayInfo) :=
  if fd ≤ 0 ∨ address.isNone ∨ length ≤ 0 then .ret (.invalidParameter, out_bytes)
  else analysed address length out_bytes fun address_data =>
    exchange packMcAsciiCommand asciiMinResponseHeaderSize network fd
      (mcAsciiBuildReadCoreCommand address_data is_bit) out_bytes fun response => do
        let (ret, data) ← mcAsciiParseReadResponse response (some out_bytes) is_bit
        return (ret, data.getD out_bytes)

/-- `read_bool_value`. -/
def readBoolValue := readDeviceValue network true

/-- `read_word_value`. -/
def readWordValue := readDeviceValue network false

/-- A request whose response carries nothing. -/
def writeExchange (fd : ℤ) (core_cmd : ByteArrayInfo) : Call (ErrorCode × Unit) :=
  exchange packMcAsciiCommand 0 network fd core_cmd () fun response => do
    let (ret, _) ← mcAsciiParseWriteResponse response none
    return (ret, ())

/-- `write_bool_value`. -/
def writeBoolValue (fd : ℤ) (address : Option CString) (length : ℤ) (in_bytes : BoolArrayInfo) :
    Call (ErrorCode × Unit) :=
  if fd ≤ 0 ∨ address.isNone ∨ length ≤ 0 ∨ in_bytes.data.isNone then
    .ret (.invalidParameter, ())
  else analysed address length () fun address_data => do
    let core_cmd ← .ofOption (mcAsciiBuildWriteBitCoreCommand address_data in_bytes)
    writeExchange network fd core_cmd

/-- `write_word_value`. -/
def writeWordValue (fd : ℤ) (address : Option CString) (length : ℤ) (in_bytes : ByteArrayInfo) :
    Call (ErrorCode × Unit) :=
  if fd ≤ 0 ∨ address.isNone ∨ length ≤ 0 ∨ in_bytes.data.isNone then
    .ret (.invalidParameter, ())
  else analysed address length () fun address_data => do
    let core_cmd ← .ofOption (mcAsciiBuildWriteWordCoreCommand address_data in_bytes)
    writeExchange network fd core_cmd

/-- `mc_ascii_execute_raw_command`. -/
def mcAsciiExecuteRawCommand (fd : ℤ) (raw_cmd : List Byte) (out_payload : Option ByteArrayInfo) :
    Call (ErrorCode × Option ByteArrayInfo) :=
  if fd ≤ 0 ∨ raw_cmd.length = 0 then .ret (.invalidParameter, out_payload)
  else exchange packMcAsciiCommand 0 network fd (mcAsciiBuildCoreFromLeWords raw_cmd) out_payload
    fun response => mcAsciiParseWriteResponse response out_payload

/-- `mc_ascii_remote_run`. -/
def mcAsciiRemoteRun (fd : ℤ) : Call (ErrorCode × Option ByteArrayInfo) :=
  mcAsciiExecuteRawCommand network fd [0x01, 0x10, 0x00, 0x00, 0x01, 0x00, 0x00, 0x00] none

/-- `mc_ascii_remote_stop`. -/
def mcAsciiRemoteStop (fd : ℤ) : Call (ErrorCode × Option ByteArrayInfo) :=
  mcAsciiExecuteRawCommand network fd [0x02, 0x10, 0x00, 0x00, 0x01, 0x00] none

/-- `mc_ascii_remote_reset`. -/
def mcAsciiRemoteReset (fd : ℤ) : Call (ErrorCode × Option ByteArrayInfo) :=
  mcAsciiExecuteRawCommand network fd [0x06, 0x10, 0x00, 0x00, 0x01, 0x00] none

/-- `mc_ascii_read_plc_type`. -/
def mcAsciiReadPlcType (fd : ℤ) (type : Bool) : Call (ErrorCode × Option (List Byte)) :=
  if ¬ type then .ret (.invalidParameter, none)
  else do
    let (ret, payload) ←
      mcAsciiExecuteRawCommand network fd [0x01, 0x01, 0x00, 0x00, 0x01, 0x00] (some .empty)
    if ret ≠ .success then return (ret, none)
    else
      let out ← .ofOption (terminatedCopy (payload.getD .empty))
      return (.success, some out)

/-- `mc_ascii_read_bool`. -/
def mcAsciiReadBool (fd : ℤ) (address : Option CString) (val : Bool) :
    Call (ErrorCode × Option Bool) :=
  if fd ≤ 0 ∨ address.isNone ∨ ¬ val then .ret (.invalidParameter, none)
  else do
    let (ret, read_data) ← readBoolValue network fd address 1 .empty
    if ret = .success ∧ 0 < read_data.length then
      let b ← .ofOption (read_data.data.bind (·[0]?))
      return (ret, some (b != 0))
    else return (ret, none)

/-- `mc_ascii_read_short`. -/
def mcAsciiReadShort := readValue (readWordValue network) 1 (fun n => decide (2 ≤ n)) shortCodec

/-- `mc_ascii_read_ushort`. -/
def mcAsciiReadUshort := readValue (readWordValue network) 1 (fun n => decide (2 ≤ n)) ushortCodec

/-- `mc_ascii_read_int32`. -/
def mcAsciiReadInt32 := readValue (readWordValue network) 2 (fun n => decide (4 ≤ n)) int32Codec

/-- `mc_ascii_read_uint32`. -/
def mcAsciiReadUint32 := readValue (readWordValue network) 2 (fun n => decide (4 ≤ n)) uint32Codec

/-- `mc_ascii_read_int64`. -/
def mcAsciiReadInt64 := readValue (readWordValue network) 4 (fun n => decide (8 ≤ n)) int64Codec

/-- `mc_ascii_read_uint64`. -/
def mcAsciiReadUint64 := readValue (readWordValue network) 4 (fun n => decide (8 ≤ n)) uint64Codec

/-- `mc_ascii_read_float`. -/
def mcAsciiReadFloat := readValue (readWordValue network) 2 (fun n => decide (4 ≤ n)) floatCodec

/-- `mc_ascii_read_double`. -/
def mcAsciiReadDouble := readValue (readWordValue network) 4 (fun n => decide (8 ≤ n)) doubleCodec

/-- `mc_ascii_read_string`. -/
def mcAsciiReadString (fd : ℤ) (address : Option CString) (length : ℤ) (val : Bool) :
    Call (ErrorCode × Option (List Byte)) :=
  if fd ≤ 0 ∨ address.isNone ∨ length ≤ 0 ∨ ¬ val then .ret (.invalidParameter, none)
  else do
    let read_len := evenLength length
    let (ret, read_data) ← readWordValue network fd address (read_len.tdiv 2) .empty
    if ret = .success ∧ read_data.length ≥ read_len then
      let out ← .ofOption (read_data.data.bind (memcpy · length))
      return (ret, some (out ++ List.replicate (read_len + 1 - length).toNat 0))
    else return (ret, none)

/-- `mc_ascii_write_bool`. -/
def mcAsciiWriteBool (fd : ℤ) (address : Option CString) (val : Bool) : Call (ErrorCode × Unit) :=
  if fd ≤ 0 ∨ address.isNone then .ret (.invalidParameter, ())
  else writeBoolValue network fd address 1 ⟨some [val], 1⟩

/-- `mc_ascii_write_short`. -/
def mcAsciiWriteShort := writeValue (writeWordValue network) 1 shortCodec

/-- `mc_ascii_write_ushort`. -/
def mcAsciiWriteUshort := writeValue (writeWordValue network) 1 ushortCodec

/-- `mc_ascii_write_int32`. -/
def mcAsciiWriteInt32 := writeValue (writeWordValue network) 2 int32Codec

/-- `mc_ascii_write_uint32`. -/
def mcAsciiWriteUint32 := writeValue (writeWordValue network) 2 uint32Codec

/-- `mc_ascii_write_int64`. -/
def mcAsciiWriteInt64 := writeValue (writeWordValue network) 4 int64Codec

/-- `mc_ascii_write_uint64`. -/
def mcAsciiWriteUint64 := writeValue (writeWordValue network) 4 uint64Codec

/-- `mc_ascii_write_float`. -/
def mcAsciiWriteFloat := writeValue (writeWordValue network) 2 floatCodec

/-- `mc_ascii_write_double`. -/
def mcAsciiWriteDouble := writeValue (writeWordValue network) 4 doubleCodec

/-- `mc_ascii_write_string`. -/
def mcAsciiWriteString (fd : ℤ) (address : Option CString) (length : ℤ)
    (val : Option (Elements Byte length)) : Call (ErrorCode × Unit) :=
  match val with
  | none => .ret (.invalidParameter, ())
  | some val =>
    if fd ≤ 0 ∨ address.isNone ∨ length ≤ 0 then .ret (.invalidParameter, ())
    else
      let write_len := evenLength length
      if malloc write_len then
        writeWordValue network fd address (write_len.tdiv 2)
          ⟨some (val.used ++ List.replicate (write_len - length).toNat 0), write_len⟩
      else .ret (.mallocFailed, ())

end MelsecMc.Ascii
