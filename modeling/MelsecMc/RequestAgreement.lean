import MelsecMc.RequestFrames

/-!
# The two request formats say the same thing

A decoder for each format reads a request frame as a PLC does: fields of fixed
width, little-endian numbers in the binary format, numerals in the ASCII one.
Both decoders give the same record for the frames that the two modules build
from the same arguments.
-/
namespace MelsecMc

open Numeral (write)

/-- What a request says, apart from the monitoring timer. -/
structure Request where
  network : ℕ
  pc : ℕ
  moduleIo : ℕ
  station : ℕ
  command : ℕ
  subcommand : ℕ
  device : MelsecMcDataType
  start : ℕ
  points : ℕ
  words : List ℕ
  deriving DecidableEq, Repr

/-- Cut fields of the given widths off the front. -/
def cut {α : Type} : List ℕ → List α → Option (List (List α) × List α)
  | [], l => some ([], l)
  | n :: widths, l =>
    if n ≤ l.length then
      (cut widths (l.drop n)).map fun (fields, rest) => (l.take n :: fields, rest)
    else none

theorem cut_flatten {α : Type} (fields : List (List α)) (rest : List α) :
    cut (fields.map List.length) (fields.flatten ++ rest) = some (fields, rest) := by
  induction fields with
  | nil => rfl
  | cons field fields ih =>
    rw [List.map_cons, List.flatten_cons, List.append_assoc, cut, if_pos (by simp),
      List.drop_left, List.take_left, ih]
    rfl

/-- The numeral system of a device's start address. -/
def MelsecMcDataType.alphabet (d : MelsecMcDataType) : Numeral.Alphabet Byte :=
  if d.fromBase = 16 then hexAlphabet else decimalAlphabet

/-- A binary request frame. -/
def decodeBinaryRequest : List Byte → Option Request
  | h₀ :: h₁ :: network :: pc :: io₀ :: io₁ :: station :: l₀ :: l₁ :: _ :: _ :: c₀ :: c₁ :: s₀ ::
      s₁ :: a₀ :: a₁ :: a₂ :: code :: n₀ :: n₁ :: payload =>
    if le16 h₀ h₁ = 0x0050 ∧ le16 l₀ l₁ = payload.length + 12 then do
      let device ← deviceTable.find? (·.dataCode == code)
      let words ← leWords payload
      return ⟨network.toNat, pc.toNat, le16 io₀ io₁, station.toNat, le16 c₀ c₁, le16 s₀ s₁, device,
        le16 a₀ a₁ + 65536 * a₂.toNat, le16 n₀ n₁, words⟩
    else none
  | _ => none

/-- An ASCII request frame. -/
def decodeAsciiRequest (frame : List Byte) : Option Request :=
  match cut [4, 2, 2, 4, 2, 4, 4, 4, 4, 2, 6, 4] frame with
  | some ([subheader, network, pc, moduleIo, station, length, _, command, subcommand, device,
      start, points], payload) => do
    let network ← Numeral.read hexAlphabet network
    let pc ← Numeral.read hexAlphabet pc
    let moduleIo ← Numeral.read hexAlphabet moduleIo
    let station ← Numeral.read hexAlphabet station
    let length ← Numeral.read hexAlphabet length
    let command ← Numeral.read hexAlphabet command
    let subcommand ← Numeral.read hexAlphabet subcommand
    let device ← deviceTable.find? (fun d => [d.asciiCode.1, d.asciiCode.2] == device)
    let start ← Numeral.read device.alphabet start
    let points ← Numeral.read hexAlphabet points
    let words ← hexWords payload
    if subheader = text ['5', '0', '0', '0'] ∧ length = payload.length + 24 then
      return ⟨network, pc, moduleIo, station, command, subcommand, device, start, points, words⟩
    else none
  | _ => none

/-- The greatest start address with a numeral of six digits. -/
def MelsecMcDataType.maxStart (d : MelsecMcDataType) : ℕ :=
  if d.fromBase = 16 then 0xFFFFFF else 999999

theorem MelsecMcDataType.maxStart_lt (d : MelsecMcDataType) : d.maxStart < d.alphabet.base ^ 6 := by
  rw [maxStart, alphabet]
  split_ifs <;> decide

theorem MelsecMcDataType.maxStart_lt_binary (d : MelsecMcDataType) : d.maxStart < 2 ^ 24 := by
  rw [maxStart]
  split_ifs <;> decide

/-- The ASCII device code finds the device. -/
theorem find_asciiCode : ∀ d ∈ deviceTable,
    deviceTable.find? (fun e => [e.asciiCode.1, e.asciiCode.2] ==
      [d.asciiCode.1, d.asciiCode.2]) = some d := by
  intro d hd
  have hnodup : (deviceTable.map fun e => [e.asciiCode.1, e.asciiCode.2]).Nodup := by
    rw [show (fun e : MelsecMcDataType => [e.asciiCode.1, e.asciiCode.2]) =
      (fun c => [c.1, c.2]) ∘ MelsecMcDataType.asciiCode from rfl, ← List.map_map]
    refine deviceTable_asciiCode_nodup.map fun a b hab => ?_
    simp only [List.cons.injEq, and_true] at hab
    exact Prod.ext hab.1 hab.2
  exact find_of_key (fun e => [e.asciiCode.1, e.asciiCode.2]) hnodup hd

/-- The start address is written with six digits. -/
theorem mcAsciiFormatDeviceNumber_eq (d : MelsecMcDataType) {a : ℕ} (ha : a ≤ d.maxStart)
    (n : ℤ) : mcAsciiFormatDeviceNumber ⟨d, a, n⟩ = some (write d.alphabet 6 a) := by
  have hlt := lt_of_le_of_lt ha d.maxStart_lt
  rw [mcAsciiFormatDeviceNumber, if_neg (by simp)]
  simp only [MelsecMcDataType.alphabet] at hlt ⊢
  split_ifs with hbase
  · rw [if_pos hbase] at hlt
    rw [Int.toNat_natCast, snprintf06_eq (by decide) hlt]
  · rw [if_neg hbase] at hlt
    rw [Int.toNat_natCast, snprintf06_eq (by decide) hlt]

/-- A start address in three bytes, the low one first. -/
theorem start_bytes {a : ℕ} (ha : a < 2 ^ 24) :
    le16 (toByte ((a : ℤ).tmod 256)) (toByte (shiftRight a 8)) +
      65536 * (toByte (shiftRight a 16)).toNat = a := by
  rw [toByte_tmod, le16_toByte, toByte_toNat, toUShort, shiftRight]
  push_cast
  omega

section Decoding

variable {d : MelsecMcDataType} {a n : ℕ} {ws : List ℕ}

theorem decodeBinaryRequest_frame (network : PlcNetworkAddress) (payload : List Byte)
    (hd : d ∈ deviceTable) (ha : a ≤ d.maxStart)
    (hn : n < 2 ^ 16) (hw : leWords payload = some ws) (hl : payload.length + 12 < 2 ^ 16)
    (command : Byte × Byte × Byte × Byte) (points : ℤ) :
    decodeBinaryRequest (mcCommandHeader network
        ((coreHeader command ⟨d, a, points⟩ n ++ payload).length + 11) ++
          (coreHeader command ⟨d, a, points⟩ n ++ payload)) =
      some ⟨network.networkNumber.toNat, 0xFF, 0x03FF, network.stationNumber.toNat,
        le16 command.1 command.2.1, le16 command.2.2.1 command.2.2.2, d, a, n, ws⟩ := by
  have hstart := start_bytes (lt_of_le_of_lt ha d.maxStart_lt_binary)
  have hpoints : le16 (toByte ((n : ℤ).tmod 256)) (toByte (shiftRight n 8)) = n := by
    rw [toByte_tmod, le16_toByte, toUShort_eq hn]
  have hsize : (((coreHeader command ⟨d, a, points⟩ n ++ payload).length : ℤ) + 11) - 9 =
      (payload.length + 12 : ℕ) := by
    rw [List.length_append, coreHeader_length]
    push_cast
    omega
  have hlen := le16_toByte ((payload.length + 12 : ℕ) : ℤ)
  rw [toUShort_eq hl] at hlen
  simp only [mcCommandHeader, hsize]
  simp only [coreHeader, List.cons_append, List.nil_append, decodeBinaryRequest]
  rw [if_pos ⟨by decide, hlen⟩, find_dataCode d hd, hw, hstart, hpoints]
  rfl

theorem read_hexByte (b : Byte) :
    Numeral.read hexAlphabet (mcAsciiWriteHexByte b) = some b.toNat := by
  rw [mcAsciiWriteHexByte_eq]
  exact Numeral.read_write hexAlphabet 2 b.toNat b.isLt

theorem read_hexU16 {v : ℕ} (h : v < 2 ^ 16) :
    Numeral.read hexAlphabet (mcAsciiWriteHexU16Be v) = some v := by
  rw [mcAsciiWriteHexU16Be_eq h]
  exact Numeral.read_write hexAlphabet 4 v h

theorem asciiCoreHeader_eq (command : List Char) (ha : a ≤ d.maxStart) (n : ℤ) :
    asciiCoreHeader command ⟨d, a, n⟩ = some (text command ++ [d.asciiCode.1, d.asciiCode.2] ++
      write d.alphabet 6 a ++ mcAsciiWriteHexU16Be (toUShort n)) := by
  rw [asciiCoreHeader, mcAsciiFormatDeviceNumber_eq d ha]
  rfl

theorem decodeAsciiRequest_frame (network : PlcNetworkAddress) (payload : List Byte)
    (command subcommand : List Char) {c s : ℕ} (hd : d ∈ deviceTable) (ha : a ≤ d.maxStart)
    (hn : n < 2 ^ 16) (hw : hexWords payload = some ws) (hl : payload.length + 24 < 2 ^ 16)
    (hclen : command.length = 4)
    (hslen : subcommand.length = 4) (hc : Numeral.read hexAlphabet (text command) = some c)
    (hs : Numeral.read hexAlphabet (text subcommand) = some s) :
    decodeAsciiRequest (mcAsciiCommandHeader network (payload.length + 24) ++
        (text (command ++ subcommand) ++ [d.asciiCode.1, d.asciiCode.2] ++ write d.alphabet 6 a ++
          mcAsciiWriteHexU16Be n ++ payload)) =
      some ⟨network.networkNumber.toNat, 0xFF, 0x03FF, network.stationNumber.toNat, c, s, d, a, n,
        ws⟩ := by
  let fields : List (List Byte) := [text ['5', '0', '0', '0'],
    mcAsciiWriteHexByte network.networkNumber, text ['F', 'F'], text ['0', '3', 'F', 'F'],
    mcAsciiWriteHexByte network.stationNumber, mcAsciiWriteHexU16Be (payload.length + 24),
    text ['0', '0', '1', '0'], text command, text subcommand,
    [d.asciiCode.1, d.asciiCode.2], write d.alphabet 6 a, mcAsciiWriteHexU16Be n]
  have hframe : mcAsciiCommandHeader network (payload.length + 24) ++
        (text (command ++ subcommand) ++ [d.asciiCode.1, d.asciiCode.2] ++ write d.alphabet 6 a ++
          mcAsciiWriteHexU16Be n ++ payload) = fields.flatten ++ payload := by
    simp [fields, mcAsciiCommandHeader, text]
  have hwidths : fields.map List.length = [4, 2, 2, 4, 2, 4, 4, 4, 4, 2, 6, 4] := by
    simp [fields, text, hclen, hslen, mcAsciiWriteHexByte_length, mcAsciiWriteHexU16Be_length]
  have hcut := cut_flatten fields payload
  rw [hwidths] at hcut
  have hpc : Numeral.read hexAlphabet (text ['F', 'F']) = some 0xFF := by decide
  have hio : Numeral.read hexAlphabet (text ['0', '3', 'F', 'F']) = some 0x03FF := by decide
  have hstart := Numeral.read_write d.alphabet 6 a (lt_of_le_of_lt ha d.maxStart_lt)
  rw [decodeAsciiRequest, hframe, hcut]
  simp only [fields, Option.bind_eq_bind, Option.bind_some, read_hexByte, hpc, hio,
    read_hexU16 hl, hc, hs, find_asciiCode d hd, hstart, read_hexU16 hn, hw, and_self, if_true]
  rfl

end Decoding

/-- The request to read `n` points from device `d`, start address `a`. -/
def Request.readPoints (network : PlcNetworkAddress) (is_bit : Bool) (d : MelsecMcDataType)
    (a n : ℕ) : Request :=
  ⟨network.networkNumber.toNat, 0xFF, 0x03FF, network.stationNumber.toNat, 0x0401,
    if is_bit then 1 else 0, d, a, n, []⟩

/-- The request to write words to device `d`, start address `a`. -/
def Request.writeWords (network : PlcNetworkAddress) (d : MelsecMcDataType) (a : ℕ)
    (words : List ℕ) : Request :=
  ⟨network.networkNumber.toNat, 0xFF, 0x03FF, network.stationNumber.toNat, 0x1401, 0, d, a,
    words.length, words⟩

section Frames

variable {d : MelsecMcDataType} {a n : ℕ}

theorem asciiCore_length (command subcommand : List Char) (hclen : command.length = 4)
    (hslen : subcommand.length = 4) (payload : List Byte) :
    (text (command ++ subcommand) ++ [d.asciiCode.1, d.asciiCode.2] ++ write d.alphabet 6 a ++
      mcAsciiWriteHexU16Be n ++ payload).length = payload.length + 20 := by
  simp only [text, List.map_append, List.length_append, List.length_map, hclen, hslen,
    Numeral.write_length, mcAsciiWriteHexU16Be_length, List.length_cons, List.length_nil]
  omega

/-- What is sent for a core command with a payload that fits the length field. -/
theorem packMcAsciiCommand_fits {core : List Byte} {k : ℕ} (network : PlcNetworkAddress)
    (hcore : core.length = k + 20) (hk : k + 24 < 2 ^ 16) :
    packMcAsciiCommand (.ofList core) network =
      some (.ofList (mcAsciiCommandHeader network (k + 24) ++ core)) := by
  have hlen : toUShort ((core.length : ℤ) + 4) = k + 24 := by
    have hcast : (core.length : ℤ) + 4 = (k + 24 : ℕ) := by omega
    rw [hcast, toUShort_eq hk]
  rw [packMcAsciiCommand_ofList network core (List.ne_nil_of_length_pos (by omega)) (by omega),
    hlen]

/-- The two read requests. -/
theorem read_requests (hd : d ∈ deviceTable) (ha : a ≤ d.maxStart) (hn : n < 2 ^ 16)
    (network : PlcNetworkAddress) (is_bit : Bool) :
    ∃ frame asciiFrame,
      packMcCommand (buildReadCoreCommand ⟨d, a, n⟩ is_bit) network = some (.ofList frame) ∧
      packMcAsciiCommand (mcAsciiBuildReadCoreCommand ⟨d, a, n⟩ is_bit) network =
        some (.ofList asciiFrame) ∧
      decodeBinaryRequest frame = some (.readPoints network is_bit d a n) ∧
      decodeAsciiRequest asciiFrame = some (.readPoints network is_bit d a n) := by
  have hnum : (write d.alphabet 6 a).length = 6 := Numeral.write_length d.alphabet 6 a
  have hbin := decodeBinaryRequest_frame network [] hd ha hn rfl (by decide)
    (0x01, 0x04, if is_bit then 0x01 else 0x00, 0x00) n
  have hs : Numeral.read hexAlphabet (text (if is_bit then ['0', '0', '0', '1'] else
      ['0', '0', '0', '0'])) = some (if is_bit then 1 else 0) := by
    cases is_bit <;> decide
  have hasc := decodeAsciiRequest_frame network [] ['0', '4', '0', '1']
    (if is_bit then ['0', '0', '0', '1'] else ['0', '0', '0', '0']) (c := 0x0401) hd ha hn rfl
    (by decide) rfl (by cases is_bit <;> rfl) (by decide) hs
  rw [List.append_nil] at hbin hasc
  refine ⟨_, _, packMcCommand_ofList network _ (by simp [coreHeader]) (by simp), ?_, ?_, hasc⟩
  · have hlen := asciiCore_length (d := d) (a := a) (n := n) ['0', '4', '0', '1']
      (if is_bit then ['0', '0', '0', '1'] else ['0', '0', '0', '0']) rfl
      (by cases is_bit <;> rfl) []
    rw [List.append_nil] at hlen
    rw [mcAsciiBuildReadCoreCommand, asciiCoreHeader_eq _ ha, toUShort_eq hn]
    exact packMcAsciiCommand_fits network hlen (by decide)
  · rw [hbin]
    cases is_bit <;> rfl

/-- The two requests to write words. -/
theorem write_requests (hd : d ∈ deviceTable) (ha : a ≤ d.maxStart) (h1 : 1 ≤ n)
    (network : PlcNetworkAddress) {payload : List Byte} (hp : payload.length = 2 * n)
    (hl : 4 * n + 24 < 2 ^ 16) :
    ∃ core asciiCore frame asciiFrame words,
      buildWriteWordCoreCommand ⟨d, a, n⟩ (.ofList payload) = some core ∧
      mcAsciiBuildWriteWordCoreCommand ⟨d, a, n⟩ (.ofList payload) = some asciiCore ∧
      packMcCommand core network = some (.ofList frame) ∧
      packMcAsciiCommand asciiCore network = some (.ofList asciiFrame) ∧
      leWords payload = some words ∧ words.length = n ∧
      decodeBinaryRequest frame = some (.writeWords network d a words) ∧
      decodeAsciiRequest asciiFrame = some (.writeWords network d a words) := by
  obtain ⟨words, hw⟩ := leWords_isSome (show payload.length % 2 = 0 by omega)
  have hwlen : words.length = n := by
    have := leWords_length hw
    omega
  have htext := hexWords_flatMap_hexStrPair payload
  rw [hw] at htext
  have hnum : (write d.alphabet 6 a).length = 6 := Numeral.write_length d.alphabet 6 a
  have htlen : ((swapWords payload).flatMap hexStrPair).length = 4 * n := by
    rw [hexStrPair_flatMap_length, swapWords_length]
    omega
  have hheader := asciiCoreHeader_eq (['1', '4', '0', '1'] ++ ['0', '0', '0', '0']) ha (n : ℤ)
  rw [toUShort_eq (show n < 2 ^ 16 by omega)] at hheader
  have hasccore := mcAsciiBuildWriteWordCoreCommand_ofList ⟨d, a, n⟩
    (List.ne_nil_of_length_pos (l := payload) (by omega)) (by omega) (by omega)
  change _ = some ((asciiCoreHeader (['1', '4', '0', '1'] ++ ['0', '0', '0', '0']) _).elim _ _)
    at hasccore
  rw [hheader] at hasccore
  have hclen := asciiCore_length (d := d) (a := a) (n := n) ['1', '4', '0', '1']
    ['0', '0', '0', '0'] rfl rfl ((swapWords payload).flatMap hexStrPair)
  have hasc := decodeAsciiRequest_frame network ((swapWords payload).flatMap hexStrPair)
    ['1', '4', '0', '1'] ['0', '0', '0', '0'] (c := 0x1401) (s := 0) hd ha (n := n) (by omega) htext
    (by omega) rfl rfl (by decide) (by decide)
  have hbin := decodeBinaryRequest_frame network payload hd ha (n := n) (by omega) hw (by omega)
    (0x01, 0x14, 0x00, 0x00) n
  have hhalf : payload.length / 2 = n := by omega
  refine ⟨_, _, _, _, words, buildWriteWordCoreCommand_ofList _ (by omega),
    hasccore,
    packMcCommand_ofList network _ (by simp [coreHeader]) ?_,
    packMcAsciiCommand_fits network hclen (by omega), hw, hwlen, ?_, ?_⟩
  · rw [List.length_append, coreHeader_length]
    omega
  · rw [hhalf, hbin, ← hwlen]
    rfl
  · rw [hasc, ← hwlen]
    rfl

end Frames

/-- A read and a word write say the same thing in both formats. A payload that fits an ASCII
frame fits a binary one. -/
theorem requests_agree (d : MelsecMcDataType) (a n : ℕ) (network : PlcNetworkAddress)
    (hd : d ∈ deviceTable) (ha : a ≤ d.maxStart) (h1 : 1 ≤ n) (hn : n ≤ 65535) :
    (∀ is_bit : Bool, ∃ frame asciiFrame,
      packMcCommand (buildReadCoreCommand ⟨d, a, n⟩ is_bit) network = some (.ofList frame) ∧
      packMcAsciiCommand (mcAsciiBuildReadCoreCommand ⟨d, a, n⟩ is_bit) network =
        some (.ofList asciiFrame) ∧
      decodeBinaryRequest frame = some (.readPoints network is_bit d a n) ∧
      decodeAsciiRequest asciiFrame = some (.readPoints network is_bit d a n)) ∧
    ∀ payload : List Byte, payload.length = 2 * n → 4 * n + 24 < 2 ^ 16 →
      ∃ core asciiCore frame asciiFrame words,
        buildWriteWordCoreCommand ⟨d, a, n⟩ (.ofList payload) = some core ∧
        mcAsciiBuildWriteWordCoreCommand ⟨d, a, n⟩ (.ofList payload) = some asciiCore ∧
        packMcCommand core network = some (.ofList frame) ∧
        packMcAsciiCommand asciiCore network = some (.ofList asciiFrame) ∧
        leWords payload = some words ∧ words.length = n ∧
        decodeBinaryRequest frame = some (.writeWords network d a words) ∧
        decodeAsciiRequest asciiFrame = some (.writeWords network d a words) := by
  constructor
  · intro is_bit
    exact read_requests hd ha (by omega) network is_bit
  · intro payload hp hl
    exact write_requests hd ha h1 network hp hl

/-- Reading and writing one word at D140. -/
theorem requests_agree_D140 :
    (∃ frame asciiFrame,
      packMcCommand (buildReadCoreCommand ⟨deviceD, 140, 1⟩ false) ⟨0, 0⟩ =
        some (.ofList frame) ∧
      packMcAsciiCommand (mcAsciiBuildReadCoreCommand ⟨deviceD, 140, 1⟩ false) ⟨0, 0⟩ =
        some (.ofList asciiFrame) ∧
      decodeBinaryRequest frame = some (.readPoints ⟨0, 0⟩ false deviceD 140 1) ∧
      decodeAsciiRequest asciiFrame = some (.readPoints ⟨0, 0⟩ false deviceD 140 1)) ∧
    ∃ core asciiCore frame asciiFrame words,
      buildWriteWordCoreCommand ⟨deviceD, 140, 1⟩ (.ofList [0x34, 0x12]) = some core ∧
      mcAsciiBuildWriteWordCoreCommand ⟨deviceD, 140, 1⟩ (.ofList [0x34, 0x12]) =
        some asciiCore ∧
      packMcCommand core ⟨0, 0⟩ = some (.ofList frame) ∧
      packMcAsciiCommand asciiCore ⟨0, 0⟩ = some (.ofList asciiFrame) ∧
      leWords [0x34, 0x12] = some words ∧ words.length = 1 ∧
      decodeBinaryRequest frame = some (.writeWords ⟨0, 0⟩ deviceD 140 words) ∧
      decodeAsciiRequest asciiFrame = some (.writeWords ⟨0, 0⟩ deviceD 140 words) :=
  have h := requests_agree deviceD 140 1 ⟨0, 0⟩ (by decide) (by decide) (by decide) (by decide)
  ⟨h.1 false, h.2 [0x34, 0x12] rfl (by decide)⟩

end MelsecMc
