import MelsecMc.Call
import MelsecMc.HeapBlocks

/-!
# Builders and parsers on the heap

The buffers of the library are blocks that one function allocates and another
frees. The definitions here are those of `Helper`, `Binary` and `Ascii` again, with
the calls of `malloc`, `free` and every access through a pointer, and with a
`malloc` that may fail. A descriptor comes with what its block holds.
-/
namespace MelsecMc.OnHeap

open HeapBlocks HeapProgram

/-- A descriptor with the content of the block that its `data` points to. -/
structure HeapArray (α : Type) where
  block : Pointer
  content : List α
  length : ℤ

namespace HeapArray

variable {α : Type}

/-- A null pointer with the length field. -/
def null (length : ℤ) : HeapArray α := ⟨none, [], length⟩

def bytes (a : HeapArray Byte) : ByteArrayInfo := ⟨a.block.map fun _ => a.content, a.length⟩

def bools (a : HeapArray Bool) : BoolArrayInfo := ⟨a.block.map fun _ => a.content, a.length⟩

end HeapArray

abbrev HeapBytes := HeapArray Byte

/-- `malloc` of a size computed in `int`. -/
def mallocInt (size : ℤ) : HeapProgram Pointer :=
  if MelsecMc.malloc size then HeapProgram.malloc else pure none

/-- `memcpy` of `n` bytes out of a block. -/
def copy (src : HeapBytes) (n : ℤ) : HeapProgram (List Byte) := do
  use src.block
  ofOption (memcpy src.content n)

/-- A new block with the length, filled from the others, or `refused`. -/
def filled {α : Type} (size : ℤ) (refused : HeapArray α) (fill : HeapProgram (List α))
    (length : ℤ) : HeapProgram (HeapArray α) := do
  match ← mallocInt size with
  | none => return refused
  | some b =>
    let content ← fill
    return ⟨some b, content, length⟩

/-- `build_read_core_command`. -/
def buildReadCoreCommand (address_data : MelsecMcAddressData) (is_bit : Bool) :
    HeapProgram HeapBytes :=
  filled 10 (.null 0) (pure (coreHeader (0x01, 0x04, if is_bit then 0x01 else 0x00, 0x00)
    address_data address_data.length)) 10

/-- `build_write_word_core_command`. The value is freed only where there is a command. -/
def buildWriteWordCoreCommand (address_data : MelsecMcAddressData) (value : HeapBytes) :
    HeapProgram HeapBytes := do
  let val_len := if value.block.isSome then value.length else 0
  match ← mallocInt (toInt32 (10 + val_len)) with
  | none => return .null 0
  | some command =>
    let header := coreHeader (0x01, 0x14, 0x00, 0x00) address_data (shiftRight val_len 1)
    if value.block.isSome then
      let content ← copy value val_len
      free value.block
      return ⟨some command, header ++ content, toInt32 (10 + val_len)⟩
    else return ⟨some command, header, toInt32 (10 + val_len)⟩

/-- `trans_bool_array_to_byte_data`. -/
def transBoolArrayToByteData (value : HeapArray Bool) : HeapProgram HeapBytes :=
  if value.block.isNone then return .null 0
  else
    let length := (toInt32 (value.length + 1)).tdiv 2
    filled length (.null length) (do
      use value.block
      ofOption ((List.range length.toNat).mapM (packPoints value.content length.toNat))) length

/-- `build_write_bit_core_command`. -/
def buildWriteBitCoreCommand (address_data : MelsecMcAddressData) (value : HeapArray Bool) :
    HeapProgram HeapBytes := do
  let buffer ← transBoolArrayToByteData value
  if buffer.block.isNone then return .null 0
  else
    let val_len := buffer.length
    match ← mallocInt (toInt32 (10 + val_len)) with
    | none =>
      free buffer.block
      return .null 0
    | some command =>
      let content ← copy buffer val_len
      free buffer.block
      return ⟨some command, coreHeader (0x01, 0x14, 0x01, 0x00) address_data
        address_data.length ++ content, toInt32 (10 + val_len)⟩

/-- `build_ascii_bytes_from_byte_array`. A null pointer from `malloc` is written through. -/
def buildAsciiBytesFromByteArray (data : HeapBytes) (length : ℤ) : HeapProgram HeapBytes :=
  if data.block.isSome ∧ 0 < length then do
    let out ← mallocInt (toInt32 (length * 2 + 1))
    use out
    let content ← copy data length
    return ⟨out, content.flatMap hexStrPair, toInt32 (length * 2)⟩
  else return .null (toInt32 (length * 2))

/-- `build_ascii_bytes_from_bool_array`. -/
def buildAsciiBytesFromBoolArray (value : HeapArray Bool) (length : ℤ) : HeapProgram HeapBytes :=
  if value.block.isSome ∧ 0 < length then do
    let out ← mallocInt length
    use out
    use value.block
    let points ← ofOption (if length ≤ value.content.length then
      some (value.content.take length.toNat) else none)
    return ⟨out, points.map fun p => if p then 0x31 else 0x30, length⟩
  else return .null length

/-- What both binary parsers compute from the first eleven bytes: the code and the length of the
payload. -/
def responseHead (response : ByteArrayInfo) : Option (ErrorCode × ℕ) := do
  let bytes ← response.data
  let b₇ ← bytes[7]?
  let b₈ ← bytes[8]?
  let b₉ ← bytes[9]?
  let b₁₀ ← bytes[10]?
  let rsCount := toUShort ((b₈.toNat * 256 + b₇.toNat : ℤ) - 2)
  let rsCode := toUShort (b₉.toNat * 256 + b₁₀.toNat)
  return (if rsCode = 0 ∧ (rsCount : ℤ) = response.length - 11 then .success else .failed, rsCount)

/-- The body of both binary parsers. A refused copy leaves the length in the caller's descriptor
as it is. -/
def parseResponse (attach : ℕ → Bool) (response : HeapBytes) (data : Option HeapBytes) :
    HeapProgram (ErrorCode × Option HeapBytes) :=
  if response.length = 0 then return (.invalidParameter, data)
  else do
    use response.block
    let (ret, rsCount) ← ofOption (responseHead response.bytes)
    match data with
    | none => return (ret, none)
    | some out =>
      if attach rsCount then
        match ← mallocInt rsCount with
        | none => return (.mallocFailed, some (.null out.length))
        | some b =>
          let content ← ofOption (memcpy (response.content.drop 11) rsCount)
          return (ret, some ⟨some b, content, rsCount⟩)
      else return (ret, some out)

/-- `mc_parse_read_response`. -/
def mcParseReadResponse := parseResponse fun rsCount => decide (rsCount > 0)

/-- `mc_parse_write_response`. -/
def mcParseWriteResponse := parseResponse fun rsCount => decide (rsCount > 2)

/-- A new block of `cmd_len` bytes with the header and the core command. -/
def packed (header : List Byte) (cmd_len : ℤ) (mc_core : HeapBytes) : HeapProgram HeapBytes :=
  if mc_core.block.isNone ∨ mc_core.length ≤ 0 then return .null 0
  else filled cmd_len (.null 0) (do
    let core ← copy mc_core mc_core.length
    return header ++ core) cmd_len

/-- `pack_mc_command`. -/
def packMcCommand (mc_core : HeapBytes) (network : PlcNetworkAddress) : HeapProgram HeapBytes :=
  let cmd_len := toInt32 (mc_core.length + 11)
  packed (mcCommandHeader network cmd_len) cmd_len mc_core

/-- `extract_actual_bool_data`. The new block takes the place of the old one. -/
def extractActualBoolData (response : HeapBytes) : HeapProgram HeapBytes :=
  if response.block.isNone ∨ response.length ≤ 0 then return response
  else do
    let resp_len := toInt32 (response.length * 2)
    match ← mallocInt resp_len with
    | none => return response
    | some content =>
      let data ← copy response response.length
      free response.block
      return ⟨some content, data.flatMap actualBools, resp_len⟩

/-- `mc_ascii_build_read_core_command`. -/
def mcAsciiBuildReadCoreCommand (address_data : MelsecMcAddressData) (is_bit : Bool) :
    HeapProgram HeapBytes := do
  match ← mallocInt 21 with
  | none => return .null 0
  | some command =>
    match asciiCoreHeader
      (['0', '4', '0', '1'] ++ if is_bit then ['0', '0', '0', '1'] else ['0', '0', '0', '0'])
      address_data with
    | none =>
      free (some command)
      return .null 0
    | some header => return ⟨some command, header, header.length⟩

/-- The end of both write builders, which free the payload. -/
def asciiCoreCommand (command : List Char) (address_data : MelsecMcAddressData)
    (payload : HeapBytes) : HeapProgram HeapBytes :=
  if payload.block.isNone ∨ payload.length ≤ 0 then return .null 0
  else do
    let cmd_len := toInt32 (20 + payload.length)
    match ← mallocInt cmd_len with
    | none =>
      free payload.block
      return .null 0
    | some out =>
      match asciiCoreHeader command address_data with
      | none =>
        free payload.block
        free (some out)
        return .null 0
      | some header =>
        let content ← copy payload payload.length
        free payload.block
        return ⟨some out, header ++ content, cmd_len⟩

/-- `mc_ascii_build_write_word_core_command`. -/
def mcAsciiBuildWriteWordCoreCommand (address_data : MelsecMcAddressData) (value : HeapBytes) :
    HeapProgram HeapBytes :=
  if value.block.isNone ∨ value.length ≤ 0 then return .null 0
  else if value.length.tmod 2 ≠ 0 then return .null 0
  else do
    match ← mallocInt value.length with
    | none => return .null 0
    | some payload_bytes =>
      let bytes ← copy value value.length
      let payload ← buildAsciiBytesFromByteArray
        ⟨some payload_bytes, swapWords bytes, value.length⟩ value.length
      free (some payload_bytes)
      asciiCoreCommand ['1', '4', '0', '1', '0', '0', '0', '0'] address_data payload

/-- `mc_ascii_build_write_bit_core_command`. -/
def mcAsciiBuildWriteBitCoreCommand (address_data : MelsecMcAddressData)
    (value : HeapArray Bool) : HeapProgram HeapBytes :=
  if value.block.isNone ∨ value.length ≤ 0 then return .null 0
  else do
    let payload ← buildAsciiBytesFromBoolArray value value.length
    asciiCoreCommand ['1', '4', '0', '1', '0', '0', '0', '1'] address_data payload

/-- `mc_ascii_build_core_from_le_words`. -/
def mcAsciiBuildCoreFromLeWords (raw_cmd : List Byte) : HeapProgram HeapBytes :=
  if raw_cmd.length = 0 ∨ raw_cmd.length % 2 ≠ 0 then return .null 0
  else filled (toInt32 (raw_cmd.length * 2)) (.null 0) (pure (asciiOfLeWords raw_cmd))
    (asciiOfLeWords raw_cmd).length

/-- `pack_mc_ascii_command`. -/
def packMcAsciiCommand (mc_core : HeapBytes) (network : PlcNetworkAddress) :
    HeapProgram HeapBytes :=
  packed (mcAsciiCommandHeader network (toUShort (mc_core.length + 4)))
    (toInt32 (22 + mc_core.length)) mc_core

/-- `mc_ascii_parse_response_end_code`. -/
def mcAsciiParseResponseEndCode (response : HeapBytes) : HeapProgram ErrorCode :=
  if response.block.isNone ∨ response.length < asciiMinResponseHeaderSize then
    return .responseHeaderFailed
  else do
    use response.block
    ofOption (MelsecMc.mcAsciiParseResponseEndCode response.bytes)

/-- The bytes that pairs of hexadecimal digits of the payload stand for, in a new block that is
freed again when a pair is none. -/
def hexPayload (response : HeapBytes) (payload_ascii_len : ℤ) (order : List Byte → List Byte) :
    HeapProgram (ErrorCode × HeapBytes) := do
  let byte_len := payload_ascii_len.tdiv 2
  match ← mallocInt byte_len with
  | none => return (.mallocFailed, .null 0)
  | some data =>
    use response.block
    let payload ← ofOption (memcpy (response.content.drop asciiMinResponseHeaderSize)
      payload_ascii_len)
    match hexPairsToBytes payload with
    | none =>
      free (some data)
      return (.responseHeaderFailed, .null 0)
    | some bytes => return (.success, ⟨some data, order bytes, byte_len⟩)

/-- `mc_ascii_parse_read_response`, for a descriptor that the caller has zeroed. -/
def mcAsciiParseReadResponse (response : HeapBytes) (is_bit : Bool) :
    HeapProgram (ErrorCode × HeapBytes) :=
  if response.block.isNone ∨ response.length < asciiMinResponseHeaderSize then
    return (.invalidParameter, .null 0)
  else do
    let ret ← mcAsciiParseResponseEndCode response
    if ret ≠ .success then return (ret, .null 0)
    else
      let payload_ascii_len := response.length - asciiMinResponseHeaderSize
      if payload_ascii_len ≤ 0 then return (.success, .null 0)
      else if is_bit then
        match ← mallocInt payload_ascii_len with
        | none => return (.mallocFailed, .null 0)
        | some bits =>
          use response.block
          let payload ← ofOption (memcpy (response.content.drop asciiMinResponseHeaderSize)
            payload_ascii_len)
          return (.success, ⟨some bits, payload.map fun c => if c = chr '1' then 0x01 else 0x00,
            payload_ascii_len⟩)
      else if payload_ascii_len.tmod 2 ≠ 0 then return (.responseHeaderFailed, .null 0)
      else hexPayload response payload_ascii_len fun bytes =>
        if (payload_ascii_len.tdiv 2).tmod 2 = 0 then swapWords bytes else bytes

/-- `mc_ascii_parse_write_response`. -/
def mcAsciiParseWriteResponse (response : HeapBytes) (out_data : Option HeapBytes) :
    HeapProgram (ErrorCode × Option HeapBytes) := do
  let ret ← mcAsciiParseResponseEndCode response
  if ret ≠ .success then return (ret, out_data)
  else
    match out_data with
    | none => return (.success, none)
    | some _ =>
      let payload_ascii_len := response.length - asciiMinResponseHeaderSize
      if payload_ascii_len ≤ 0 then return (.success, some (.null 0))
      else if payload_ascii_len.tmod 2 ≠ 0 then return (.responseHeaderFailed, some (.null 0))
      else
        let (ret, data) ← hexPayload response payload_ascii_len id
        return (ret, some data)

end MelsecMc.OnHeap
