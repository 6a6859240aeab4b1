import MelsecMc.Addressing
import MelsecMc.HeapParsers

/-!
# Calls on the heap

The public functions of both modules with the blocks that they allocate and free.
A call is run with the outcome of its transaction: the response in it is a block
that `mc_read_response` allocated, and that it freed again where it leaves a
pointer to a released buffer. What a call hands to its caller is one block at most.
-/
namespace MelsecMc.OnHeap

open HeapBlocks HeapProgram

/-- What `mc_send_and_receive_transaction` returns and stores. -/
structure HeapTransacted where
  code : ErrorCode
  response : HeapBytes
  recvSize : ℤ

/-- `mc_send_and_receive_transaction` with the outcome `r`. -/
def transaction (fd : ℤ) (cmd : HeapBytes) (r : Transacted) : HeapProgram HeapTransacted :=
  if fd ≤ 0 ∨ cmd.block.isNone ∨ cmd.length ≤ 0 then return ⟨.invalidParameter, .null 0, 0⟩
  else do
    use cmd.block
    match r.response.data with
    | .null => return ⟨r.code, .null r.response.length, r.recvSize⟩
    | .live bytes =>
      let b ← grant
      return ⟨r.code, ⟨b, bytes, r.response.length⟩, r.recvSize⟩
    | .released =>
      let b ← grant
      free b
      return ⟨r.code, ⟨b, [], r.response.length⟩, r.recvSize⟩

/-- The end of every request. The core command is freed once it is packed, the request once it is
sent; `finish` evaluates the response and frees it. -/
def exchange {γ : Type} (pack : HeapBytes → PlcNetworkAddress → HeapProgram HeapBytes)
    (min_size : ℕ) (network : PlcNetworkAddress) (fd : ℤ) (core_cmd : HeapBytes) (out : γ)
    (finish : HeapBytes → HeapProgram (ErrorCode × γ)) (r : Transacted) :
    HeapProgram (ErrorCode × γ) :=
  if core_cmd.block.isNone then return (.buildCoreCmdFailed, out)
  else do
    let cmd ← pack core_cmd network
    free core_cmd.block
    if cmd.block.isNone then return (.buildCoreCmdFailed, out)
    else
      let t ← transaction fd cmd r
      free cmd.block
      if t.code ≠ .success then
        free t.response.block
        return (t.code, out)
      else if t.recvSize < min_size then
        free t.response.block
        return (.responseHeaderFailed, out)
      else finish t.response

/-- `mc_analysis_address` as the functions use it. -/
def analysed {γ : Type} (address : Option CString) (length : ℤ) (rejected : HeapProgram γ)
    (next : MelsecMcAddressData → HeapProgram γ) : HeapProgram γ := do
  match ← ofOption (mcAnalysisAddress address length) with
  | none => rejected
  | some address_data => next address_data

/-- The end of `read_bool_value`: parse the response into the zeroed descriptor, convert, free. -/
def finishBoolRead (response : HeapBytes) : HeapProgram (ErrorCode × HeapBytes) := do
  let (ret, data) ← mcParseReadResponse response (some (.null 0))
  let out_bytes ← (if ret = .success then extractActualBoolData (data.getD (.null 0))
    else pure (data.getD (.null 0)))
  free response.block
  return (ret, out_bytes)

/-- The end of `read_address_data`. -/
def finishWordRead (response : HeapBytes) : HeapProgram (ErrorCode × HeapBytes) := do
  let (ret, data) ← mcParseReadResponse response (some (.null 0))
  free response.block
  return (ret, data.getD (.null 0))

/-- The end of a function that takes nothing from the response, in either module. -/
def finishWrite (parse : HeapBytes → Option HeapBytes →
    HeapProgram (ErrorCode × Option HeapBytes)) (response : HeapBytes) :
    HeapProgram (ErrorCode × Unit) := do
  let (ret, _) ← parse response none
  free response.block
  return (ret, ())

/-- The zero-terminated copy of a payload. -/
def terminated (data : HeapBytes) : HeapProgram (List Byte) :=
  if 0 < data.length then do
    let content ← copy data data.length
    return content ++ [0]
  else return [0]

/-- The end of `mc_read_plc_type`. -/
def finishPlcType (response : HeapBytes) : HeapProgram (ErrorCode × Option HeapBytes) := do
  let (ret, data) ← mcParseWriteResponse response (some (.null 0))
  let plc_type_data := data.getD (.null 0)
  if ret ≠ .success then
    free response.block
    free plc_type_data.block
    return (ret, none)
  else
    match ← mallocInt (toInt32 (plc_type_data.length + 1)) with
    | none =>
      free response.block
      free plc_type_data.block
      return (.mallocFailed, none)
    | some out =>
      let content ← terminated plc_type_data
      free response.block
      free plc_type_data.block
      return (.success, some ⟨some out, content, plc_type_data.length + 1⟩)

variable (network : PlcNetworkAddress)

/-- `read_bool_value` for a zeroed descriptor. -/
def readBoolValue (fd : ℤ) (address : Option CString) (length : ℤ) (r : Transacted) :
    HeapProgram (ErrorCode × HeapBytes) :=
  if fd ≤ 0 ∨ address.isNone ∨ length ≤ 0 then return (.invalidParameter, .null 0)
  else analysed address length (pure (.parseAddressFailed, .null 0)) fun address_data => do
    let core_cmd ← buildReadCoreCommand address_data true
    exchange packMcCommand minResponseHeaderSize network fd core_cmd (.null 0) finishBoolRead r

/-- `read_word_value` with `read_address_data`, for a zeroed descriptor. -/
def readWordValue (fd : ℤ) (address : Option CString) (length : ℤ) (r : Transacted) :
    HeapProgram (ErrorCode × HeapBytes) :=
  if fd ≤ 0 ∨ address.isNone ∨ length ≤ 0 then return (.invalidParameter, .null 0)
  else analysed address length (pure (.parseAddressFailed, .null 0)) fun address_data => do
    let core_cmd ← buildReadCoreCommand address_data false
    exchange packMcCommand minResponseHeaderSize network fd core_cmd (.null 0) finishWordRead r

/-- A request whose response carries nothing. -/
def writeExchange (fd : ℤ) (core_cmd : HeapBytes) (r : Transacted) :
    HeapProgram (ErrorCode × Unit) :=
  exchange packMcCommand minResponseHeaderSize network fd core_cmd ()
    (finishWrite mcParseWriteResponse) r

/-- `write_bool_value`. A rejected address leaves the points to nobody. -/
def writeBoolValue (fd : ℤ) (address : Option CString) (length : ℤ) (in_bytes : HeapArray Bool)
    (r : Transacted) : HeapProgram (ErrorCode × Unit) :=
  if fd ≤ 0 ∨ address.isNone ∨ length ≤ 0 ∨ in_bytes.block.isNone then
    return (.invalidParameter, ())
  else analysed address length (pure (.parseAddressFailed, ())) fun address_data => do
    let core_cmd ← buildWriteBitCoreCommand address_data in_bytes
    free in_bytes.block
    writeExchange network fd core_cmd r

/-- `write_word_value` with `write_address_data`. Only the builder frees the words. -/
def writeWordValue (fd : ℤ) (address : Option CString) (length : ℤ) (in_bytes : HeapBytes)
    (r : Transacted) : HeapProgram (ErrorCode × Unit) :=
  analysed address length (pure (.parseAddressFailed, ())) fun address_data => do
    let core_cmd ← buildWriteWordCoreCommand address_data in_bytes
    writeExchange network fd core_cmd r

/-- A command that is copied from a constant into a new block. -/
def constantCommand {γ : Type} (core_cmd : List Byte) (refused : HeapProgram γ)
    (next : HeapBytes → HeapProgram γ) : HeapProgram γ := do
  match ← mallocInt core_cmd.length with
  | none => refused
  | some b => next ⟨some b, core_cmd, core_cmd.length⟩

/-- `mc_remote_run`. -/
def mcRemoteRun (fd : ℤ) (r : Transacted) : HeapProgram (ErrorCode × Unit) :=
  if fd ≤ 0 then return (.invalidParameter, ())
  else constantCommand [0x01, 0x10, 0x00, 0x00, 0x01, 0x00, 0x00, 0x00]
    (pure (.mallocFailed, ())) fun core_cmd => writeExchange network fd core_cmd r

/-- `mc_remote_stop`. It copies to what `malloc` returned without a look at it. -/
def mcRemoteStop (fd : ℤ) (r : Transacted) : HeapProgram (ErrorCode × Unit) :=
  constantCommand [0x02, 0x10, 0x00, 0x00, 0x01, 0x00]
    (ofOption none) fun core_cmd => writeExchange network fd core_cmd r

/-- `mc_remote_reset`. -/
def mcRemoteReset (fd : ℤ) (r : Transacted) : HeapProgram (ErrorCode × Unit) :=
  if fd ≤ 0 then return (.invalidParameter, ())
  else constantCommand [0x06, 0x10, 0x00, 0x00, 0x01, 0x00]
    (pure (.mallocFailed, ())) fun core_cmd => writeExchange network fd core_cmd r

/-- `mc_read_plc_type`. -/
def mcReadPlcType (fd : ℤ) (type : Bool) (r : Transacted) :
    HeapProgram (ErrorCode × Option HeapBytes) :=
  if fd ≤ 0 ∨ ¬ type then return (.invalidParameter, none)
  else constantCommand [0x01, 0x01, 0x00, 0x00, 0x01, 0x00] (pure (.mallocFailed, none))
    fun core_cmd => exchange packMcCommand minResponseHeaderSize network fd core_cmd none
      finishPlcType r

section Typed

variable {size : ℕ}

/-- What every reader of values does with the payload: it is looked at and freed where the read
succeeded and the payload is long enough, and left alone otherwise. -/
def taken {γ : Type} (read : HeapProgram (ErrorCode × HeapBytes)) (enough : ℤ → Bool)
    (decode : List Byte → Option γ) : HeapProgram (ErrorCode × Option γ) := do
  let (ret, read_data) ← read
  if ret = .success ∧ enough read_data.length then
    use read_data.block
    let v ← ofOption (decode read_data.content)
    free read_data.block
    return (ret, some v)
  else return (ret, none)

/-- A single-value reader. -/
def readValue (readWord : ℤ → Option CString → ℤ → Transacted → HeapProgram (ErrorCode × HeapBytes))
    (points : ℤ) (enough : ℤ → Bool) (C : ValueCodec size) (fd : ℤ) (address : Option CString)
    (val : Bool) (r : Transacted) : HeapProgram (ErrorCode × Option (BitVec (8 * size))) :=
  if fd ≤ 0 ∨ address.isNone ∨ ¬ val then return (.invalidParameter, none)
  else taken (readWord fd address points r) enough C.decode

/-- A single-value writer. `refused` is what follows a `malloc` that fails. -/
def writeValue (refused : HeapProgram (ErrorCode × Unit))
    (writeWord : ℤ → Option CString → ℤ → HeapBytes → Transacted → HeapProgram (ErrorCode × Unit))
    (points : ℤ) (C : ValueCodec size) (fd : ℤ) (address : Option CString)
    (val : BitVec (8 * size)) (r : Transacted) : HeapProgram (ErrorCode × Unit) :=
  if fd ≤ 0 ∨ address.isNone then return (.invalidParameter, ())
  else do
    match ← mallocInt size with
    | none => refused
    | some b => writeWord fd address points ⟨some b, C.encode val, size⟩ r

/-- A batch reader. -/
def readBatch (points : ℤ) (C : ValueCodec size) (fd : ℤ) (address : Option CString)
    (length : ℤ) (values : Bool) (r : Transacted) :
    HeapProgram (ErrorCode × Option (List (BitVec (8 * size)))) :=
  if fd ≤ 0 ∨ address.isNone ∨ ¬ values ∨ length ≤ 0 then return (.invalidParameter, none)
  else taken (readWordValue network fd address points r)
    (fun n => decide (n ≥ toInt32 (length * size)))
    fun data => (List.range length.toNat).mapM fun i => C.decode (data.drop (i * size))

/-- A batch writer. -/
def writeBatch (points : ℤ) (C : ValueCodec size) (fd : ℤ) (address : Option CString)
    (length : ℤ) (values : Option (Elements (BitVec (8 * size)) length)) (r : Transacted) :
    HeapProgram (ErrorCode × Unit) :=
  match values with
  | none => return (.invalidParameter, ())
  | some values =>
    if fd ≤ 0 ∨ address.isNone ∨ length ≤ 0 then return (.invalidParameter, ())
    else do
      let byte_len := toInt32 (length * size)
      match ← mallocInt byte_len with
      | none => return (.mallocFailed, ())
      | some b =>
        if length * size ≤ byte_len then
          writeWordValue network fd address points
            ⟨some b, values.used.flatMap C.encode, byte_len⟩ r
        else ofOption none

end Typed

/-- `mc_read_bool`. -/
def mcReadBool (fd : ℤ) (address : Option CString) (val : Bool) (r : Transacted) :
    HeapProgram (ErrorCode × Option Bool) :=
  if fd ≤ 0 ∨ address.isNone ∨ ¬ val then return (.invalidParameter, none)
  else taken (readBoolValue network fd address 1 r) (fun n => decide (0 < n))
    fun data => data[0]?.map (· != 0)

/-- `mc_read_string`. Without room for the string the payload is not freed. -/
def mcReadString (fd : ℤ) (address : Option CString) (length : ℤ) (val : Bool) (r : Transacted) :
    HeapProgram (ErrorCode × Option HeapBytes) :=
  if fd ≤ 0 ∨ address.isNone ∨ length ≤ 0 then return (.invalidParameter, none)
  else do
    let read_len := evenLength length
    let (ret, read_data) ← readWordValue network fd address (read_len.tdiv 2) r
    if ret = .success ∧ read_data.length ≥ read_len then
      match ← mallocInt read_len with
      | none => return (.mallocFailed, none)
      | some b =>
        let ret_str ← copy read_data read_len
        free read_data.block
        if val then return (ret, some ⟨some b, ret_str, read_len⟩) else ofOption none
    else return (ret, none)

/-- `mc_write_bool`. -/
def mcWriteBool (fd : ℤ) (address : Option CString) (val : Bool) (r : Transacted) :
    HeapProgram (ErrorCode × Unit) :=
  if fd ≤ 0 ∨ address.isNone then return (.invalidParameter, ())
  else do
    match ← mallocInt 1 with
    | none => return (.mallocFailed, ())
    | some b => writeBoolValue network fd address 1 ⟨some b, [val], 1⟩ r

/-- `mc_write_string`. -/
def mcWriteString (fd : ℤ) (address : Option CString) (length : ℤ)
    (val : Option (Elements Byte length)) (r : Transacted) : HeapProgram (ErrorCode × Unit) :=
  match val with
  | none => return (.invalidParameter, ())
  | some val =>
    if fd ≤ 0 ∨ address.isNone then return (.invalidParameter, ())
    else do
      let write_len := evenLength length
      match ← mallocInt write_len with
      | none => return (.buildCoreCmdFailed, ())
      | some b =>
        writeWordValue network fd address (write_len.tdiv 2)
          ⟨some b, val.used ++ List.replicate (write_len - length).toNat 0, write_len⟩ r

/-- `mc_read_bool_batch`. -/
def mcReadBoolBatch (fd : ℤ) (address : Option CString) (length : ℤ) (values : Bool)
    (r : Transacted) : HeapProgram (ErrorCode × Option (List Bool)) :=
  if fd ≤ 0 ∨ address.isNone ∨ ¬ values ∨ length ≤ 0 then return (.invalidParameter, none)
  else taken (readBoolValue network fd address length r) (fun n => decide (n ≥ length))
    fun data => (memcpy data length).map fun bs => bs.map (· != 0)

/-- `mc_write_bool_batch`. -/
def mcWriteBoolBatch (fd : ℤ) (address : Option CString) (length : ℤ)
    (values : Option (Elements Bool length)) (r : Transacted) : HeapProgram (ErrorCode × Unit) :=
  match values with
  | none => return (.invalidParameter, ())
  | some values =>
    if fd ≤ 0 ∨ address.isNone ∨ length ≤ 0 then return (.invalidParameter, ())
    else do
      match ← mallocInt length with
      | none => return (.mallocFailed, ())
      | some b => writeBoolValue network fd address length ⟨some b, values.used, length⟩ r

/-- A single-value writer of the binary module, `mc_write_short` to `mc_write_double`: the value
is stored through whatever `malloc` returned. -/
def mcWriteValue (T : ValueType) (fd : ℤ) (address : Option CString) :
    T.Value → Transacted → HeapProgram (ErrorCode × Unit) :=
  writeValue (ofOption none) (writeWordValue network) T.words T.codec fd address

/-- The least payload length that the readers of the binary module take. -/
def enoughFor : ValueType → ℤ → Bool
  | .short => fun n => decide (0 < n)
  | T => fun n => decide (((2 * T.words : ℕ) : ℤ) ≤ n)

/-- A single-value reader of the binary module, `mc_read_short` to `mc_read_double`. -/
def mcReadValue (T : ValueType) := readValue (readWordValue network) T.words (enoughFor T) T.codec

namespace Ascii

/-- The end of `read_bool_value` and `read_word_value` of this module. -/
def finishDeviceRead (is_bit : Bool) (response : HeapBytes) :
    HeapProgram (ErrorCode × HeapBytes) := do
  let (ret, data) ← mcAsciiParseReadResponse response is_bit
  free response.block
  return (ret, data)

/-- The end of `mc_ascii_execute_raw_command`. -/
def finishRaw (out_payload : Option HeapBytes) (response : HeapBytes) :
    HeapProgram (ErrorCode × Option HeapBytes) := do
  let result ← mcAsciiParseWriteResponse response out_payload
  free response.block
  return result

/-- `read_bool_value` and `read_word_value` of this module. -/
def readDeviceValue (is_bit : Bool) (fd : ℤ) (address : Option CString) (length : ℤ)
    (r : Transacted) : HeapProgram (ErrorCode × HeapBytes) :=
  if fd ≤ 0 ∨ address.isNone ∨ length ≤ 0 then return (.invalidParameter, .null 0)
  else analysed address length (pure (.parseAddressFailed, .null 0)) fun address_data => do
    let core_cmd ← mcAsciiBuildReadCoreCommand address_data is_bit
    exchange packMcAsciiCommand asciiMinResponseHeaderSize network fd core_cmd (.null 0)
      (finishDeviceRead is_bit) r

/-- A request whose response carries nothing. -/
def writeExchange (fd : ℤ) (core_cmd : HeapBytes) (r : Transacted) :
    HeapProgram (ErrorCode × Unit) :=
  exchange packMcAsciiCommand 0 network fd core_cmd () (finishWrite mcAsciiParseWriteResponse) r

/-- `write_bool_value` for points in a block. -/
def writeBoolValue (fd : ℤ) (address : Option CString) (length : ℤ) (in_bytes : HeapArray Bool)
    (r : Transacted) : HeapProgram (ErrorCode × Unit) :=
  if fd ≤ 0 ∨ address.isNone ∨ length ≤ 0 ∨ in_bytes.block.isNone then
    return (.invalidParameter, ())
  else analysed address length (do free in_bytes.block; return (.parseAddressFailed, ()))
    fun address_data => do
      let core_cmd ← mcAsciiBuildWriteBitCoreCommand address_data in_bytes
      free in_bytes.block
      writeExchange network fd core_cmd r

/-- `write_word_value`. The words are freed on every path. -/
def writeWordValue (fd : ℤ) (address : Option CString) (length : ℤ) (in_bytes : HeapBytes)
    (r : Transacted) : HeapProgram (ErrorCode × Unit) :=
  if fd ≤ 0 ∨ address.isNone ∨ length ≤ 0 ∨ in_bytes.block.isNone then do
    free in_bytes.block
    return (.invalidParameter, ())
  else analysed address length (do free in_bytes.block; return (.parseAddressFailed, ()))
    fun address_data => do
      let core_cmd ← mcAsciiBuildWriteWordCoreCommand address_data in_bytes
      free in_bytes.block
      writeExchange network fd core_cmd r

/-- `mc_ascii_execute_raw_command`. -/
def mcAsciiExecuteRawCommand (fd : ℤ) (raw_cmd : List Byte) (out_payload : Option HeapBytes)
    (r : Transacted) : HeapProgram (ErrorCode × Option HeapBytes) :=
  if fd ≤ 0 ∨ raw_cmd.length = 0 then return (.invalidParameter, out_payload)
  else do
    let core_cmd ← mcAsciiBuildCoreFromLeWords raw_cmd
    exchange packMcAsciiCommand 0 network fd core_cmd out_payload (finishRaw out_payload) r

/-- `mc_ascii_remote_run`. -/
def mcAsciiRemoteRun (fd : ℤ) (r : Transacted) : HeapProgram (ErrorCode × Option HeapBytes) :=
  mcAsciiExecuteRawCommand network fd [0x01, 0x10, 0x00, 0x00, 0x01, 0x00, 0x00, 0x00] none r

/-- `mc_ascii_remote_stop`. -/
def mcAsciiRemoteStop (fd : ℤ) (r : Transacted) : HeapProgram (ErrorCode × Option HeapBytes) :=
  mcAsciiExecuteRawCommand network fd [0x02, 0x10, 0x00, 0x00, 0x01, 0x00] none r

/-- `mc_ascii_remote_reset`. -/
def mcAsciiRemoteReset (fd : ℤ) (r : Transacted) : HeapProgram (ErrorCode × Option HeapBytes) :=
  mcAsciiExecuteRawCommand network fd [0x06, 0x10, 0x00, 0x00, 0x01, 0x00] none r

/-- `mc_ascii_read_plc_type`. -/
def mcAsciiReadPlcType (fd : ℤ) (type : Bool) (r : Transacted) :
    HeapProgram (ErrorCode × Option HeapBytes) :=
  if ¬ type then return (.invalidParameter, none)
  else do
    let (ret, data) ← mcAsciiExecuteRawCommand network fd [0x01, 0x01, 0x00, 0x00, 0x01, 0x00]
      (some (.null 0)) r
    let payload := data.getD (.null 0)
    if ret ≠ .success then
      free payload.block
      return (ret, none)
    else
      match ← mallocInt (payload.length + 1) with
      | none =>
        free payload.block
        return (.mallocFailed, none)
      | some out =>
        let content ← terminated payload
        free payload.block
        return (.success, some ⟨some out, content, payload.length + 1⟩)

/-- `mc_ascii_read_bool`. -/
def mcAsciiReadBool (fd : ℤ) (address : Option CString) (val : Bool) (r : Transacted) :
    HeapProgram (ErrorCode × Option Bool) :=
  if fd ≤ 0 ∨ address.isNone ∨ ¬ val then return (.invalidParameter, none)
  else taken (readDeviceValue network true fd address 1 r) (fun n => decide (0 < n))
    fun data => data[0]?.map (· != 0)

/-- A single-value reader, `mc_ascii_read_short` to `mc_ascii_read_double`. -/
def mcAsciiReadValue (T : ValueType) := readValue (readDeviceValue network false) T.words
  (fun n => decide (((2 * T.words : ℕ) : ℤ) ≤ n)) T.codec

/-- `mc_ascii_read_string`. -/
def mcAsciiReadString (fd : ℤ) (address : Option CString) (length : ℤ) (val : Bool)
    (r : Transacted) : HeapProgram (ErrorCode × Option HeapBytes) :=
  if fd ≤ 0 ∨ address.isNone ∨ length ≤ 0 ∨ ¬ val then return (.invalidParameter, none)
  else do
    let read_len := evenLength length
    let (ret, read_data) ← readDeviceValue network false fd address (read_len.tdiv 2) r
    if ret = .success ∧ read_data.length ≥ read_len then
      match ← mallocInt (read_len + 1) with
      | none =>
        free read_data.block
        return (.mallocFailed, none)
      | some b =>
        let out ← copy read_data length
        free read_data.block
        return (ret, some ⟨some b, out ++ List.replicate (read_len + 1 - length).toNat 0,
          read_len + 1⟩)
    else return (ret, none)

/-- `mc_ascii_write_bool`. -/
def mcAsciiWriteBool (fd : ℤ) (address : Option CString) (val : Bool) (r : Transacted) :
    HeapProgram (ErrorCode × Unit) :=
  if fd ≤ 0 ∨ address.isNone then return (.invalidParameter, ())
  else do
    match ← mallocInt 1 with
    | none => return (.mallocFailed, ())
    | some b => writeBoolValue network fd address 1 ⟨some b, [val], 1⟩ r

/-- A single-value writer, `mc_ascii_write_short` to `mc_ascii_write_double`. -/
def mcAsciiWriteValue (T : ValueType) (fd : ℤ) (address : Option CString) :
    T.Value → Transacted → HeapProgram (ErrorCode × Unit) :=
  writeValue (pure (.mallocFailed, ())) (writeWordValue network) T.words T.codec fd address

/-- `mc_ascii_write_string`. -/
def mcAsciiWriteString (fd : ℤ) (address : Option CString) (length : ℤ)
    (val : Option (Elements Byte length)) (r : Transacted) : HeapProgram (ErrorCode × Unit) :=
  match val with
  | none => return (.invalidParameter, ())
  | some val =>
    if fd ≤ 0 ∨ address.isNone ∨ length ≤ 0 then return (.invalidParameter, ())
    else do
      let write_len := evenLength length
      match ← mallocInt write_len with
      | none => return (.mallocFailed, ())
      | some b =>
        writeWordValue network fd address (write_len.tdiv 2)
          ⟨some b, val.used ++ List.replicate (write_len - length).toNat 0, write_len⟩ r

end Ascii

end MelsecMc.OnHeap
