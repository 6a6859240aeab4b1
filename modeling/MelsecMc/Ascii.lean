import MelsecMc.Helper
import MelsecMc.Numeral
import MelsecMc.Receive

/-!
# ASCII 3E frames (melsec_mc_ascii.c)

An ASCII frame writes every field as text, numbers with the most significant
digit first. Its length, four hexadecimal digits at characters 14 to 17, counts
the characters after it. Words of device data are written high byte first, so
writers and readers swap the two bytes of every word.
-/
namespace MelsecMc

open FramedStream

/-- `mc_ascii_to_hex_char`. -/
def mcAsciiToHexChar (nibble : Byte) : Byte :=
  let nibble := nibble &&& 0x0F
  if nibble.toNat < 10 then chr '0' + nibble else chr 'A' + (nibble - 10)

/-- `mc_ascii_write_hex_byte`. -/
def mcAsciiWriteHexByte (value : Byte) : List Byte :=
  [mcAsciiToHexChar (value >>> 4), mcAsciiToHexChar (value &&& 0x0F)]

/-- `mc_ascii_write_hex_u16_be`. -/
def mcAsciiWriteHexU16Be (value : ℕ) : List Byte :=
  mcAsciiWriteHexByte (BitVec.ofNat 8 ((value >>> 8) &&& 0xFF)) ++
    mcAsciiWriteHexByte (BitVec.ofNat 8 (value &&& 0xFF))

/-- `mc_ascii_hex_to_nibble`, `none` for -1. -/
def mcAsciiHexToNibble (c : Byte) : Option ℕ :=
  if (chr '0').toNat ≤ c.toNat ∧ c.toNat ≤ (chr '9').toNat then some (c.toNat - (chr '0').toNat)
  else if (chr 'A').toNat ≤ c.toNat ∧ c.toNat ≤ (chr 'F').toNat then
    some (10 + (c.toNat - (chr 'A').toNat))
  else if (chr 'a').toNat ≤ c.toNat ∧ c.toNat ≤ (chr 'f').toNat then
    some (10 + (c.toNat - (chr 'a').toNat))
  else none

/-- `mc_ascii_hex_pair_to_byte`. -/
def mcAsciiHexPairToByte (c₀ c₁ : Byte) : Option Byte := do
  let hi ← mcAsciiHexToNibble c₀
  let lo ← mcAsciiHexToNibble c₁
  return BitVec.ofNat 8 ((hi <<< 4) ||| lo)

/-- `mc_ascii_parse_u16_be`. -/
def mcAsciiParseU16Be (c₀ c₁ c₂ c₃ : Byte) : Option ℕ := do
  let b₀ ← mcAsciiHexPairToByte c₀ c₁
  let b₁ ← mcAsciiHexPairToByte c₂ c₃
  return (b₀.toNat <<< 8) ||| b₁.toNat

theorem mcAsciiHexToNibble_lt {c : Byte} {x : ℕ} (h : mcAsciiHexToNibble c = some x) :
    x < 16 := by
  unfold mcAsciiHexToNibble at h
  have h0 : (chr '0').toNat = 48 := rfl
  have h9 : (chr '9').toNat = 57 := rfl
  have hA : (chr 'A').toNat = 65 := rfl
  have hF : (chr 'F').toNat = 70 := rfl
  have ha : (chr 'a').toNat = 97 := rfl
  have hf : (chr 'f').toNat = 102 := rfl
  split_ifs at h
  · have := Option.some.inj h
    omega
  · have := Option.some.inj h
    omega
  · have := Option.some.inj h
    omega

/-- The hexadecimal digits that the library writes, and reads in either case. -/
def hexAlphabet : Numeral.Alphabet Byte where
  base := 16
  symbol d := mcAsciiToHexChar (BitVec.ofNat 8 d)
  value := mcAsciiHexToNibble
  base_pos := by decide
  value_symbol := by decide
  value_lt _ _ h := mcAsciiHexToNibble_lt h

def decimalAlphabet : Numeral.Alphabet Byte where
  base := 10
  symbol d := chr '0' + BitVec.ofNat 8 d
  value c := if (chr '0').toNat ≤ c.toNat ∧ c.toNat ≤ (chr '9').toNat then
    some (c.toNat - (chr '0').toNat) else none
  base_pos := by decide
  value_symbol := by decide
  value_lt c d h := by
    have h0 : (chr '0').toNat = 48 := rfl
    have h9 : (chr '9').toNat = 57 := rfl
    split_ifs at h
    have := Option.some.inj h
    omega

/-- `snprintf` of a number below `2 ^ 32` with the conversion `%06` and room for six characters. -/
def snprintf06 (A : Numeral.Alphabet Byte) (n : ℕ) : List Byte :=
  let digits := Numeral.shortest A 10 n
  (List.replicate (6 - digits.length) (chr '0') ++ digits).take 6

/-- `mc_ascii_format_device_number`. -/
def mcAsciiFormatDeviceNumber (address_data : MelsecMcAddressData) : Option (List Byte) :=
  if address_data.addressStart < 0 then none
  else if address_data.dataType.fromBase = 16 then
    some (snprintf06 hexAlphabet address_data.addressStart.toNat)
  else some (snprintf06 decimalAlphabet address_data.addressStart.toNat)

/-- The twenty characters of a core command before the data. -/
def asciiCoreHeader (command : List Char) (address_data : MelsecMcAddressData) :
    Option (List Byte) :=
  (mcAsciiFormatDeviceNumber address_data).map fun number =>
    text command ++ [address_data.dataType.asciiCode.1, address_data.dataType.asciiCode.2] ++
      number ++ mcAsciiWriteHexU16Be (toUShort address_data.length)

/-- `mc_ascii_build_read_core_command`. -/
def mcAsciiBuildReadCoreCommand (address_data : MelsecMcAddressData) (is_bit : Bool) :
    ByteArrayInfo :=
  match asciiCoreHeader
    (['0', '4', '0', '1'] ++ if is_bit then ['0', '0', '0', '1'] else ['0', '0', '0', '0'])
    address_data with
  | none => .empty
  | some command => .ofList command

/-- The bytes of every word exchanged. -/
def swapWords : List Byte → List Byte
  | b₀ :: b₁ :: bytes => b₁ :: b₀ :: swapWords bytes
  | bytes => bytes

/-- The end of both write builders: header and payload in one buffer. -/
def asciiCoreCommand (command : List Char) (address_data : MelsecMcAddressData)
    (payload : ByteArrayInfo) : ByteArrayInfo :=
  match payload.data with
  | none => .empty
  | some content =>
    if payload.length ≤ 0 then .empty
    else
      let cmd_len := toInt32 (20 + payload.length)
      if malloc cmd_len then
        match asciiCoreHeader command address_data with
        | none => .empty
        | some header => ⟨some (header ++ content), cmd_len⟩
      else .empty

/-- `mc_ascii_build_write_word_core_command`. -/
def mcAsciiBuildWriteWordCoreCommand (address_data : MelsecMcAddressData)
    (value : ByteArrayInfo) : Option ByteArrayInfo :=
  match value.data with
  | none => some .empty
  | some content =>
    if value.length ≤ 0 then some .empty
    else if value.length.tmod 2 ≠ 0 then some .empty
    else do
      let payload_bytes ← memcpy content value.length
      let payload ← buildAsciiBytesFromByteArray (some (swapWords payload_bytes)) value.length
      return asciiCoreCommand ['1', '4', '0', '1', '0', '0', '0', '0'] address_data payload

/-- `mc_ascii_build_write_bit_core_command`. -/
def mcAsciiBuildWriteBitCoreCommand (address_data : MelsecMcAddressData)
    (value : BoolArrayInfo) : Option ByteArrayInfo :=
  match value.data with
  | none => some .empty
  | some content =>
    if value.length ≤ 0 then some .empty
    else do
      let payload ← buildAsciiBytesFromBoolArray (some content) value.length
      return asciiCoreCommand ['1', '4', '0', '1', '0', '0', '0', '1'] address_data payload

/-- The loop of `mc_ascii_build_core_from_le_words`. -/
def asciiOfLeWords : List Byte → List Byte
  | b₀ :: b₁ :: raw_cmd =>
    mcAsciiWriteHexByte b₁ ++ mcAsciiWriteHexByte b₀ ++ asciiOfLeWords raw_cmd
  | _ => []

/-- `mc_ascii_build_core_from_le_words`. -/
def mcAsciiBuildCoreFromLeWords (raw_cmd : List Byte) : ByteArrayInfo :=
  if raw_cmd.length = 0 ∨ raw_cmd.length % 2 ≠ 0 then .empty
  else if malloc (toInt32 (raw_cmd.length * 2)) then .ofList (asciiOfLeWords raw_cmd)
  else .empty

/-- The twenty-two characters in front of the core command. -/
def mcAsciiCommandHeader (network : PlcNetworkAddress) (data_len : ℕ) : List Byte :=
  text ['5', '0', '0', '0'] ++ mcAsciiWriteHexByte network.networkNumber ++
    text ['F', 'F', '0', '3', 'F', 'F'] ++ mcAsciiWriteHexByte network.stationNumber ++
    mcAsciiWriteHexU16Be data_len ++ text ['0', '0', '1', '0']

/-- `pack_mc_ascii_command`. -/
def packMcAsciiCommand (mc_core : ByteArrayInfo) (network : PlcNetworkAddress) :
    Option ByteArrayInfo :=
  match mc_core.data with
  | none => some .empty
  | some core =>
    if mc_core.length ≤ 0 then some .empty
    else
      let cmd_len := toInt32 (22 + mc_core.length)
      if malloc cmd_len then
        (memcpy core mc_core.length).map fun core =>
          ⟨some (mcAsciiCommandHeader network (toUShort (mc_core.length + 4)) ++ core), cmd_len⟩
      else some .empty

/-- `ASCII_MIN_RECV_HEADER_SIZE`. -/
def asciiMinRecvHeaderSize : ℕ := 18

/-- `ASCII_MIN_RESPONSE_HEADER_SIZE`. -/
def asciiMinResponseHeaderSize : ℕ := 22

/-- The size that `mc_ascii_read_response` computes from the header. -/
def mcAsciiResponseTotalLen (header : List Byte) : Option ℕ :=
  match mcAsciiParseU16Be (header.getD 14 0) (header.getD 15 0) (header.getD 16 0)
    (header.getD 17 0) with
  | none => none
  | some payload_with_end_code =>
    if payload_with_end_code < 4 then none
    else
      let total_len := asciiMinRecvHeaderSize + payload_with_end_code
      if total_len < asciiMinResponseHeaderSize then none else some total_len

def asciiResponseFraming : Framing Byte where
  header := asciiMinRecvHeaderSize
  total := mcAsciiResponseTotalLen
  header_le := by
    intro front n h
    simp only [mcAsciiResponseTotalLen] at h
    split at h
    · simp at h
    · split_ifs at h
      have := Option.some.inj h
      omega

def asciiRequestFraming : Framing Byte where
  header := 18
  total header := (mcAsciiParseU16Be (header.getD 14 0) (header.getD 15 0) (header.getD 16 0)
    (header.getD 17 0)).map (18 + ·)
  header_le := by
    intro front n h
    obtain ⟨length, -, rfl⟩ := Option.map_eq_some_iff.mp h
    omega

/-- The descriptor is set only once the response is complete. -/
def asciiProtocol : Protocol where
  request := asciiRequestFraming
  response := asciiResponseFraming
  abandoned response := response
  request_header := by decide
  response_header := by decide

/-- `mc_ascii_read_response`. -/
def mcAsciiReadResponse (fd : ℤ) (response : Response) (read_count : ℤ) (events : List Event)
    (stream : List Byte) : Received :=
  asciiProtocol.readResponse fd response read_count events stream

/-- `mc_ascii_parse_response_end_code`. -/
def mcAsciiParseResponseEndCode (response : ByteArrayInfo) : Option ErrorCode :=
  match response.data with
  | none => some .responseHeaderFailed
  | some bytes =>
    if response.length < asciiMinResponseHeaderSize then some .responseHeaderFailed
    else do
      let c₀ ← bytes[18]?
      let c₁ ← bytes[19]?
      let c₂ ← bytes[20]?
      let c₃ ← bytes[21]?
      match mcAsciiParseU16Be c₀ c₁ c₂ c₃ with
      | none => return .responseHeaderFailed
      | some end_code => return if end_code = 0 then .success else .failed

/-- The loop that turns pairs of hexadecimal digits into bytes. -/
def hexPairsToBytes : List Byte → Option (List Byte)
  | c₀ :: c₁ :: chars => do
    let b ← mcAsciiHexPairToByte c₀ c₁
    let bytes ← hexPairsToBytes chars
    return b :: bytes
  | _ => some []

/-- `mc_ascii_parse_read_response`. -/
def mcAsciiParseReadResponse (response : ByteArrayInfo) (out_data : Option ByteArrayInfo)
    (is_bit : Bool) : Option (ErrorCode × Option ByteArrayInfo) :=
  match out_data, response.data with
  | none, _ => some (.invalidParameter, out_data)
  | _, none => some (.invalidParameter, out_data)
  | some _, some bytes =>
    if response.length < asciiMinResponseHeaderSize then some (.invalidParameter, out_data)
    else do
      let ret ← mcAsciiParseResponseEndCode response
      if ret ≠ .success then return (ret, some .empty)
      else
        let payload_ascii_len := response.length - asciiMinResponseHeaderSize
        if payload_ascii_len ≤ 0 then return (.success, some .empty)
        else
          if is_bit then
            let payload ← memcpy (bytes.drop asciiMinResponseHeaderSize) payload_ascii_len
            return (.success, some ⟨some (payload.map fun c => if c = chr '1' then 0x01 else 0x00),
              payload_ascii_len⟩)
          else if payload_ascii_len.tmod 2 ≠ 0 then return (.responseHeaderFailed, some .empty)
          else
            let byte_len := payload_ascii_len.tdiv 2
            let payload ← memcpy (bytes.drop asciiMinResponseHeaderSize) payload_ascii_len
            match hexPairsToBytes payload with
            | none => return (.responseHeaderFailed, some .empty)
            | some data =>
              return (.success,
                some ⟨some (if byte_len.tmod 2 = 0 then swapWords data else data), byte_len⟩)

/-- `mc_ascii_parse_write_response`. -/
def mcAsciiParseWriteResponse (response : ByteArrayInfo) (out_data : Option ByteArrayInfo) :
    Option (ErrorCode × Option ByteArrayInfo) := do
  let ret ← mcAsciiParseResponseEndCode response
  if ret ≠ .success then return (ret, out_data)
  else
    match out_data, response.data with
    | none, _ => return (.success, out_data)
    -- the end code is never a success without a buffer
    | some _, none => return (.success, some .empty)
    | some _, some bytes =>
      let payload_ascii_len := response.length - asciiMinResponseHeaderSize
      if payload_ascii_len ≤ 0 then return (.success, some .empty)
      else if payload_ascii_len.tmod 2 ≠ 0 then return (.responseHeaderFailed, some .empty)
      else
        let payload ← memcpy (bytes.drop asciiMinResponseHeaderSize) payload_ascii_len
        match hexPairsToBytes payload with
        | none => return (.responseHeaderFailed, some .empty)
        | some data => return (.success, some ⟨some data, payload_ascii_len.tdiv 2⟩)

end MelsecMc
