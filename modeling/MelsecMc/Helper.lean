import MelsecMc.Address

/-!
# Core commands and response parsers (melsec_helper.c)

The core command is the part of a request that follows the 3E header: command,
subcommand, device, point count, data. The two response parsers differ only in
the payload length from which they attach the payload to the caller's descriptor.
-/
namespace MelsecMc

/-- The ten bytes of a core command before the data: command and subcommand, first device
number, device code, point count. -/
def coreHeader (command : Byte × Byte × Byte × Byte) (address_data : MelsecMcAddressData)
    (points : ℤ) : List Byte :=
  [command.1, command.2.1, command.2.2.1, command.2.2.2,
    toByte (address_data.addressStart.tmod 256), toByte (shiftRight address_data.addressStart 8),
    toByte (shiftRight address_data.addressStart 16), address_data.dataType.dataCode,
    toByte (points.tmod 256), toByte (shiftRight points 8)]

@[simp] theorem coreHeader_length (command : Byte × Byte × Byte × Byte)
    (address_data : MelsecMcAddressData) (points : ℤ) :
    (coreHeader command address_data points).length = 10 := rfl

/-- `build_read_core_command`. -/
def buildReadCoreCommand (address_data : MelsecMcAddressData) (is_bit : Bool) : ByteArrayInfo :=
  .ofList (coreHeader (0x01, 0x04, if is_bit then 0x01 else 0x00, 0x00) address_data
    address_data.length)

/-- `build_write_word_core_command`. The point count comes from the length of the value. -/
def buildWriteWordCoreCommand (address_data : MelsecMcAddressData) (value : ByteArrayInfo) :
    Option ByteArrayInfo :=
  let val_len := if value.data.isSome then value.length else 0
  if malloc (toInt32 (10 + val_len)) then
    (memcpy (value.data.getD []) val_len).map fun content =>
      ⟨some (coreHeader (0x01, 0x14, 0x00, 0x00) address_data (shiftRight val_len 1) ++ content),
        toInt32 (10 + val_len)⟩
  else some ⟨none, 0⟩

/-- A byte of two points, the first in the high nibble. -/
def nibbles (high low : Bool) : Byte :=
  (if high then 0x10 else 0x00) + (if low then 0x01 else 0x00)

/-- One pass of the packing loop, for `length` bytes. The second point is looked at only while
its index is below the number of bytes. -/
def packPoints (points : List Bool) (length i : ℕ) : Option Byte := do
  let high ← points[i * 2 + 0]?
  let low ← (if i * 2 + 1 < length then points[i * 2 + 1]? else some false)
  return nibbles high low

/-- `trans_bool_array_to_byte_data`. -/
def transBoolArrayToByteData (value : BoolArrayInfo) : Option ByteArrayInfo :=
  match value.data with
  | none => some ⟨none, 0⟩
  | some points =>
    let length := (toInt32 (value.length + 1)).tdiv 2
    if malloc length then
      ((List.range length.toNat).mapM (packPoints points length.toNat)).map fun out =>
        ⟨some out, length⟩
    else some ⟨none, length⟩

/-- `build_write_bit_core_command`. The point count is the length of the address data. -/
def buildWriteBitCoreCommand (address_data : MelsecMcAddressData) (value : BoolArrayInfo) :
    Option ByteArrayInfo := do
  let buffer ← transBoolArrayToByteData value
  match buffer.data with
  | none => return .empty
  | some content =>
    let val_len := buffer.length
    if malloc (toInt32 (10 + val_len)) then
      let content ← memcpy content val_len
      return ⟨some (coreHeader (0x01, 0x14, 0x01, 0x00) address_data address_data.length ++
        content), toInt32 (10 + val_len)⟩
    else return .empty

/-- `hex_str`. -/
def hexStr : List Byte :=
  text ['0', '1', '2', '3', '4', '5', '6', '7', '8', '9', 'A', 'B', 'C', 'D', 'E', 'F']

/-- The two characters that `hex_str` gives for a byte. -/
def hexStrPair (b : Byte) : List Byte :=
  [hexStr.getD ((b >>> 4) &&& 0x0F).toNat 0, hexStr.getD (b &&& 0x0F).toNat 0]

/-- `build_ascii_bytes_from_byte_array`. The result of `malloc` is not checked. -/
def buildAsciiBytesFromByteArray (data : Option (List Byte)) (length : ℤ) :
    Option ByteArrayInfo :=
  match data with
  | some bytes =>
    if 0 < length then
      if malloc (toInt32 (length * 2 + 1)) then
        (memcpy bytes length).map fun bytes =>
          ⟨some (bytes.flatMap hexStrPair), toInt32 (length * 2)⟩
      else none
    else some ⟨none, toInt32 (length * 2)⟩
  | none => some ⟨none, toInt32 (length * 2)⟩

/-- `build_ascii_bytes_from_bool_array`. -/
def buildAsciiBytesFromBoolArray (value : Option (List Bool)) (length : ℤ) :
    Option ByteArrayInfo :=
  match value with
  | some points =>
    if 0 < length then
      if length ≤ points.length then
        some ⟨some ((points.take length.toNat).map fun p => if p then 0x31 else 0x30), length⟩
      else none
    else some ⟨none, length⟩
  | none => some ⟨none, length⟩

/-- The body of both parsers. `attach` decides on the payload length in the header whether the
payload is copied to the caller's descriptor, where there is one. -/
def parseResponse (attach : ℕ → Bool) (response : ByteArrayInfo) (data : Option ByteArrayInfo) :
    Option (ErrorCode × Option ByteArrayInfo) :=
  if response.length = 0 then some (.invalidParameter, data)
  else do
    let bytes ← response.data
    let b₇ ← bytes[7]?
    let b₈ ← bytes[8]?
    let b₉ ← bytes[9]?
    let b₁₀ ← bytes[10]?
    let rsCount := toUShort ((b₈.toNat * 256 + b₇.toNat : ℤ) - 2)
    let rsCode := toUShort (b₉.toNat * 256 + b₁₀.toNat)
    let ret := if rsCode = 0 ∧ (rsCount : ℤ) = response.length - 11 then ErrorCode.success
      else ErrorCode.failed
    if attach rsCount ∧ data.isSome then
      let content ← memcpy (bytes.drop 11) rsCount
      return (ret, some ⟨some content, rsCount⟩)
    else return (ret, data)

/-- `mc_parse_read_response`. -/
def mcParseReadResponse (response : ByteArrayInfo) (data : Option ByteArrayInfo) :
    Option (ErrorCode × Option ByteArrayInfo) :=
  parseResponse (fun rsCount => decide (rsCount > 0)) response data

/-- `mc_parse_write_response`. -/
def mcParseWriteResponse (response : ByteArrayInfo) (data : Option ByteArrayInfo) :
    Option (ErrorCode × Option ByteArrayInfo) :=
  parseResponse (fun rsCount => decide (rsCount > 2)) response data

end MelsecMc
