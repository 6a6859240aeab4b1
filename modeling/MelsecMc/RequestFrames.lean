import MelsecMc.HexText

/-!
# What the request builders build

For arguments that no `int` computation overflows the builders return a header of
fixed size in front of the payload, and the packers put the frame header in front
of a core command.
-/
namespace MelsecMc

open Numeral (write)

/-- A number as two bytes, the low one first, keeps what fits 16 bits. -/
theorem le16_toByte (v : ℤ) : le16 (toByte v) (toByte (shiftRight v 8)) = toUShort v := by
  rw [le16_eq, toByte_toNat, toByte_toNat, toUShort, shiftRight]
  push_cast
  omega

theorem toByte_tmod (v : ℤ) : toByte (v.tmod 256) = toByte v := by
  apply BitVec.eq_of_toNat_eq
  rw [toByte_toNat, toByte_toNat, Int.tmod_def]
  omega

theorem mcAsciiWriteHexByte_length (b : Byte) : (mcAsciiWriteHexByte b).length = 2 := rfl

theorem mcAsciiWriteHexU16Be_length (v : ℕ) : (mcAsciiWriteHexU16Be v).length = 4 := rfl

@[simp] theorem mcAsciiCommandHeader_length (network : PlcNetworkAddress) (data_len : ℕ) :
    (mcAsciiCommandHeader network data_len).length = 22 := rfl

theorem hexStrPair_flatMap_length (bytes : List Byte) :
    (bytes.flatMap hexStrPair).length = 2 * bytes.length := by
  simp [hexStrPair, List.length_flatMap, Nat.mul_comm]

/-- A word write carries the value behind the header. The point count is half its length. -/
theorem buildWriteWordCoreCommand_ofList (address_data : MelsecMcAddressData)
    {payload : List Byte} (h : 10 + payload.length < 2 ^ 31) :
    buildWriteWordCoreCommand address_data (.ofList payload) =
      some (.ofList (coreHeader (0x01, 0x14, 0x00, 0x00) address_data
        ((payload.length / 2 : ℕ) : ℤ) ++ payload)) := by
  have hlen : toInt32 (10 + (payload.length : ℤ)) = 10 + payload.length :=
    toInt32_eq ⟨by omega, by omega⟩
  have hhalf : shiftRight payload.length 1 = (payload.length / 2 : ℕ) := by
    rw [shiftRight]
    rfl
  simp only [buildWriteWordCoreCommand, ByteArrayInfo.ofList_data, ByteArrayInfo.ofList_length,
    Option.isSome_some, if_true, hlen, hhalf, malloc, Option.getD_some, memcpy_length]
  rw [if_pos (by simp; omega)]
  simp [ByteArrayInfo.ofList]

/-- What is sent for an ASCII core command. -/
theorem packMcAsciiCommand_ofList (network : PlcNetworkAddress) (core : List Byte)
    (h0 : core ≠ []) (h : 22 + core.length < 2 ^ 31) :
    packMcAsciiCommand (.ofList core) network =
      some (.ofList (mcAsciiCommandHeader network (toUShort (core.length + 4)) ++ core)) := by
  have hpos := List.length_pos_iff.mpr h0
  have hlen : toInt32 (22 + (core.length : ℤ)) = 22 + core.length :=
    toInt32_eq ⟨by omega, by omega⟩
  simp only [packMcAsciiCommand, ByteArrayInfo.ofList_data, ByteArrayInfo.ofList_length, hlen,
    memcpy_length, malloc, Option.map_some]
  rw [if_neg (by omega), if_pos (by simp; omega)]
  simp only [ByteArrayInfo.ofList, List.length_append, mcAsciiCommandHeader_length]
  push_cast
  rfl

/-- A core command that does not fit an `int` with its header is refused. -/
theorem packMcAsciiCommand_refused {core : List Byte} (network : PlcNetworkAddress)
    (h : 2 ^ 31 ≤ 22 + core.length) (hc : core.length < 2 ^ 31) :
    packMcAsciiCommand (.ofList core) network = some .empty := by
  have hneg : toInt32 (22 + (core.length : ℤ)) < 0 := by
    rw [toInt32_of_ge (by omega) (by omega)]
    omega
  have hroom : malloc (toInt32 (22 + (core.length : ℤ))) = false :=
    decide_eq_false (not_le.mpr hneg)
  simp only [packMcAsciiCommand, ByteArrayInfo.ofList_data, ByteArrayInfo.ofList_length, hroom]
  rw [if_neg (by omega), if_neg (by simp)]

theorem packMcCommand_refused {core : List Byte} (network : PlcNetworkAddress)
    (h : 2 ^ 31 ≤ core.length + 11) (hc : core.length < 2 ^ 31) :
    packMcCommand (.ofList core) network = some .empty := by
  have hneg : toInt32 ((core.length : ℤ) + 11) < 0 := by
    rw [toInt32_of_ge (by omega) (by omega)]
    omega
  have hroom : malloc (toInt32 ((core.length : ℤ) + 11)) = false :=
    decide_eq_false (not_le.mpr hneg)
  simp only [packMcCommand, ByteArrayInfo.ofList_data, ByteArrayInfo.ofList_length, hroom]
  rw [if_neg (by omega), if_neg (by simp)]

theorem snprintf06_length (A : Numeral.Alphabet Byte) (n : ℕ) : (snprintf06 A n).length = 6 := by
  simp only [snprintf06, List.length_take, List.length_append, List.length_replicate]
  omega

/-- Every header has the same size, whatever the device. -/
theorem asciiCoreHeader_length {command : List Char} {address_data : MelsecMcAddressData}
    {header : List Byte} (hcommand : command.length = 8)
    (h : asciiCoreHeader command address_data = some header) : header.length = 20 := by
  obtain ⟨number, hnumber, rfl⟩ := Option.map_eq_some_iff.mp h
  have hsix : number.length = 6 := by
    unfold mcAsciiFormatDeviceNumber at hnumber
    split_ifs at hnumber
    · rw [← Option.some.inj hnumber, snprintf06_length]
    · rw [← Option.some.inj hnumber, snprintf06_length]
  simp only [List.length_append, text, List.length_map, hcommand, hsix,
    mcAsciiWriteHexU16Be_length, List.length_cons, List.length_nil]

/-- Only a negative start address is refused. -/
theorem asciiCoreHeader_eq_none {command : List Char} {address_data : MelsecMcAddressData} :
    asciiCoreHeader command address_data = none ↔ address_data.addressStart < 0 := by
  rw [asciiCoreHeader, Option.map_eq_none_iff, mcAsciiFormatDeviceNumber]
  split_ifs with h0 hb
  · simp [h0]
  · simp [h0]
  · simp [h0]

/-- A header and a payload in one buffer. -/
theorem asciiCoreCommand_ofList {command : List Char} (address_data : MelsecMcAddressData)
    {content : List Byte} (hcommand : command.length = 8) (h0 : content ≠ [])
    (h : 20 + content.length < 2 ^ 31) :
    asciiCoreCommand command address_data (.ofList content) =
      (asciiCoreHeader command address_data).elim .empty fun header =>
        .ofList (header ++ content) := by
  have hpos := List.length_pos_iff.mpr h0
  have hlen : toInt32 (20 + (content.length : ℤ)) = 20 + content.length :=
    toInt32_eq ⟨by omega, by omega⟩
  simp only [asciiCoreCommand, ByteArrayInfo.ofList_data, ByteArrayInfo.ofList_length, hlen,
    malloc]
  rw [if_neg (by omega), if_pos (by simp; omega)]
  cases hheader : asciiCoreHeader command address_data with
  | none => rfl
  | some header =>
    have hsize := asciiCoreHeader_length hcommand hheader
    simp only [Option.elim_some, ByteArrayInfo.ofList, List.length_append, hsize]
    push_cast
    rfl

/-- The text of bytes, two digits for each. -/
theorem buildAsciiBytesFromByteArray_ofList {bytes : List Byte} (h0 : bytes ≠ [])
    (h : bytes.length < 2 ^ 30) :
    buildAsciiBytesFromByteArray (some bytes) bytes.length =
      some (.ofList (bytes.flatMap hexStrPair)) := by
  have hpos := List.length_pos_iff.mpr h0
  have hroom : malloc (toInt32 ((bytes.length : ℤ) * 2 + 1)) = true := by
    rw [toInt32_eq ⟨by omega, by omega⟩]
    exact decide_eq_true (by omega)
  have hdouble : toInt32 ((bytes.length : ℤ) * 2) = 2 * bytes.length := by
    rw [toInt32_eq ⟨by omega, by omega⟩, Int.mul_comm]
  simp only [buildAsciiBytesFromByteArray, hroom, hdouble, memcpy_length]
  rw [if_pos (by omega), if_pos trivial]
  simp only [Option.map_some, ByteArrayInfo.ofList, hexStrPair_flatMap_length]
  push_cast
  rfl

/-- The text of the swapped words. -/
theorem buildAsciiBytesFromByteArray_swapWords {payload : List Byte} (h0 : payload ≠ [])
    (h : payload.length < 2 ^ 30) :
    buildAsciiBytesFromByteArray (some (swapWords payload)) payload.length =
      some (.ofList ((swapWords payload).flatMap hexStrPair)) := by
  have hpos := List.length_pos_iff.mpr h0
  have hlen := swapWords_length payload
  rw [← hlen]
  exact buildAsciiBytesFromByteArray_ofList (List.ne_nil_of_length_pos (by omega)) (by omega)

/-- The builder of an ASCII word write, with the text of the payload still to be produced. -/
theorem mcAsciiBuildWriteWordCoreCommand_eq (address_data : MelsecMcAddressData)
    {payload : List Byte} (h0 : payload ≠ []) (heven : payload.length % 2 = 0) :
    mcAsciiBuildWriteWordCoreCommand address_data (.ofList payload) =
      (buildAsciiBytesFromByteArray (some (swapWords payload)) payload.length).map
        (asciiCoreCommand ['1', '4', '0', '1', '0', '0', '0', '0'] address_data) := by
  have hpos := List.length_pos_iff.mpr h0
  have hmod : ¬ ((payload.length : ℤ).tmod 2 ≠ 0) := by
    rw [Int.tmod_eq_emod_of_nonneg (by omega)]
    omega
  simp only [mcAsciiBuildWriteWordCoreCommand, ByteArrayInfo.ofList_data,
    ByteArrayInfo.ofList_length, memcpy_length, Option.bind_eq_bind, Option.bind_some]
  rw [if_neg (by omega), if_neg hmod]
  cases buildAsciiBytesFromByteArray (some (swapWords payload)) payload.length with
  | none => rfl
  | some text => rfl

/-- The payload of an ASCII word write: the text of the swapped words. -/
theorem mcAsciiBuildWriteWordCoreCommand_ofList (address_data : MelsecMcAddressData)
    {payload : List Byte} (h0 : payload ≠ []) (heven : payload.length % 2 = 0)
    (h : 20 + 2 * payload.length < 2 ^ 31) :
    mcAsciiBuildWriteWordCoreCommand address_data (.ofList payload) =
      some ((asciiCoreHeader ['1', '4', '0', '1', '0', '0', '0', '0'] address_data).elim .empty
        fun header => .ofList (header ++ (swapWords payload).flatMap hexStrPair)) := by
  have hpos := List.length_pos_iff.mpr h0
  have hsize : ((swapWords payload).flatMap hexStrPair).length = 2 * payload.length := by
    rw [hexStrPair_flatMap_length, swapWords_length]
  have hne : (swapWords payload).flatMap hexStrPair ≠ [] :=
    List.ne_nil_of_length_pos (by omega)
  rw [mcAsciiBuildWriteWordCoreCommand_eq address_data h0 heven,
    buildAsciiBytesFromByteArray_swapWords h0 (by omega), Option.map_some,
    asciiCoreCommand_ofList address_data rfl hne (by omega)]

/-- Text that does not fit an `int` with its header is refused. -/
theorem asciiCoreCommand_refused {command : List Char} (address_data : MelsecMcAddressData)
    {content : List Byte} (h : 2 ^ 31 ≤ 20 + content.length) (hc : content.length < 2 ^ 31) :
    asciiCoreCommand command address_data (.ofList content) = .empty := by
  have hneg : toInt32 (20 + (content.length : ℤ)) < 0 := by
    rw [toInt32_of_ge (by omega) (by omega)]
    omega
  have hroom : malloc (toInt32 (20 + (content.length : ℤ))) = false :=
    decide_eq_false (not_le.mpr hneg)
  simp only [asciiCoreCommand, ByteArrayInfo.ofList_data, ByteArrayInfo.ofList_length, hroom]
  split <;> rfl

/-- From half the size of an `int` on, the text of a payload has no buffer. -/
theorem mcAsciiBuildWriteWordCoreCommand_fault (address_data : MelsecMcAddressData)
    {payload : List Byte} (heven : payload.length % 2 = 0) (h : 2 ^ 30 ≤ payload.length)
    (hp : payload.length < 2 ^ 31) :
    mcAsciiBuildWriteWordCoreCommand address_data (.ofList payload) = none := by
  have hneg : toInt32 ((payload.length : ℤ) * 2 + 1) < 0 := by
    rw [toInt32_of_ge (by omega) (by omega)]
    omega
  have hroom : malloc (toInt32 ((payload.length : ℤ) * 2 + 1)) = false :=
    decide_eq_false (not_le.mpr hneg)
  rw [mcAsciiBuildWriteWordCoreCommand_eq address_data (List.ne_nil_of_length_pos (by omega))
    heven]
  simp only [buildAsciiBytesFromByteArray, hroom]
  rw [if_pos (by omega)]
  rfl

end MelsecMc
