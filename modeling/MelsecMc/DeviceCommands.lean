import MelsecMc.Linearizability
import MelsecMc.RequestAgreement
import MelsecMc.ResponseAgreement
import Mathlib.Data.Vector.Basic

/-!
# Commands to the devices of a PLC

What a request asks a PLC to do, whatever the format: read or write points or words
of a device. A PLC is an object with these commands. Each module has a decoder, which
takes a request frame as the PLC does, and writes the answers as payloads.
-/
namespace MelsecMc

open FramedStream
open Numeral (write)

/-- A command: a device, a start address, and how many points or words to read, or which to
write. -/
inductive Command where
  | readPoints (d : MelsecMcDataType) (start n : ℕ)
  | readWords (d : MelsecMcDataType) (start n : ℕ)
  | writePoints (d : MelsecMcDataType) (start : ℕ) (points : List Bool)
  | writeWords (d : MelsecMcDataType) (start : ℕ) (words : List (BitVec 16))
  deriving DecidableEq, Repr

/-- What a PLC answers that carries a command out. -/
@[reducible] def Command.Data : Command → Type
  | readPoints _ _ n => List.Vector Bool n
  | readWords _ _ n => List.Vector (BitVec 16) n
  | writePoints _ _ _ | writeWords _ _ _ => Unit

/-- The end code of a refusal. -/
abbrev EndCode := { code : BitVec 16 // code ≠ 0 }

abbrev Command.Answer (c : Command) := Except EndCode c.Data

/-- A PLC, as what its commands do. -/
abbrev DeviceObject (σ : Type*) := SeqObject σ Command Command.Answer

/-- The fields of a request frame behind the access route. -/
structure RequestFields where
  command : ℕ
  subcommand : ℕ
  device : MelsecMcDataType
  start : ℕ
  points : ℕ
  payload : List Byte
  deriving DecidableEq, Repr

/-- The fields of a binary request. -/
def binaryFields : List Byte → Option RequestFields
  | h₀ :: h₁ :: _ :: _ :: _ :: _ :: _ :: l₀ :: l₁ :: _ :: _ :: c₀ :: c₁ :: s₀ :: s₁ :: a₀ :: a₁ ::
      a₂ :: code :: n₀ :: n₁ :: payload =>
    if le16 h₀ h₁ = 0x0050 ∧ le16 l₀ l₁ = payload.length + 12 then
      (deviceTable.find? (·.dataCode == code)).map fun device =>
        ⟨le16 c₀ c₁, le16 s₀ s₁, device, le16 a₀ a₁ + 65536 * a₂.toNat, le16 n₀ n₁, payload⟩
    else none
  | _ => none

/-- The fields of an ASCII request. -/
def asciiFields (frame : List Byte) : Option RequestFields :=
  match cut [4, 2, 2, 4, 2, 4, 4, 4, 4, 2, 6, 4] frame with
  | some ([subheader, _, _, _, _, length, _, command, subcommand, device, start, points],
      payload) => do
    let length ← Numeral.read hexAlphabet length
    let command ← Numeral.read hexAlphabet command
    let subcommand ← Numeral.read hexAlphabet subcommand
    let device ← deviceTable.find? (fun d => [d.asciiCode.1, d.asciiCode.2] == device)
    let start ← Numeral.read device.alphabet start
    let points ← Numeral.read hexAlphabet points
    if subheader = text ['5', '0', '0', '0'] ∧ length = payload.length + 24 then
      return ⟨command, subcommand, device, start, points, payload⟩
    else none
  | _ => none

/-- The two points in a byte of a binary frame. -/
def nibblePoints (b : Byte) : List Bool := [b.toNat / 16 != 0, b.toNat % 16 != 0]

/-- A point in an ASCII frame. -/
def pointOfChar (c : Byte) : Option Bool :=
  if c = chr '0' then some false else if c = chr '1' then some true else none

namespace Module

def fields : Module → List Byte → Option RequestFields
  | binary => binaryFields
  | ascii => asciiFields

/-- The words of a payload. -/
def readWords (payload : List Byte) : Module → Option (List (BitVec 16))
  | binary => (leWords payload).map (List.map (BitVec.ofNat 16))
  | ascii => (hexWords payload).map (List.map (BitVec.ofNat 16))

/-- The `n` points of a payload. -/
def readPoints (n : ℕ) (payload : List Byte) : Module → Option (List Bool)
  | binary =>
    if payload.length = packedLength n then some ((payload.flatMap nibblePoints).take n) else none
  | ascii => if payload.length = n then payload.mapM pointOfChar else none

/-- The command in a request frame. -/
def command (m : Module) (frame : List Byte) : Option Command := do
  let r ← m.fields frame
  if r.command = 0x0401 ∧ r.payload = [] then
    if r.subcommand = 0 then return .readWords r.device r.start r.points
    else if r.subcommand = 1 then return .readPoints r.device r.start r.points
    else none
  else if r.command = 0x1401 then
    if r.subcommand = 0 then
      let words ← readWords r.payload m
      if words.length = r.points then return .writeWords r.device r.start words else none
    else if r.subcommand = 1 then
      let points ← readPoints r.points r.payload m
      return .writePoints r.device r.start points
    else none
  else none

/-- Words and points as they are in a payload. -/
def wordBytes : Module → List (BitVec 16) → List Byte
  | binary => binaryWords
  | ascii => asciiWords

def pointBytes : Module → List Bool → List Byte
  | binary => binaryBits
  | ascii => asciiBits

def payload (m : Module) : (c : Command) → c.Data → List Byte
  | .readPoints _ _ _, points => m.pointBytes points.toList
  | .readWords _ _ _, words => m.wordBytes words.toList
  | .writePoints _ _ _, _ | .writeWords _ _ _, _ => []

/-- The size of a response in front of its length field, and that of its end code. -/
def frontLength : Module → ℕ
  | binary => 7
  | ascii => 14

def endCodeLength : Module → ℕ
  | binary => 2
  | ascii => 4

def response : Module → List Byte → BitVec 16 → List Byte → List Byte
  | binary => binaryResponse
  | ascii => asciiResponse

/-- What an answer carries has a length that the length field can hold. -/
def Fits (m : Module) (c : Command) : Prop :=
  ∀ data : c.Data, m.endCodeLength + (m.payload c data).length < 2 ^ 16

theorem fits_writeWords (m : Module) (d : MelsecMcDataType) (a : ℕ) (words : List (BitVec 16)) :
    m.Fits (.writeWords d a words) := by
  intro data
  cases m <;> change _ + 0 < _ <;> decide

theorem fits_writePoints (m : Module) (d : MelsecMcDataType) (a : ℕ) (points : List Bool) :
    m.Fits (.writePoints d a points) := by
  intro data
  cases m <;> change _ + 0 < _ <;> decide

/-- A response frame with the answer. Behind the end code of a refusal is anything. -/
def Encodes (m : Module) {c : Command} : c.Answer → List Byte → Prop
  | .ok data, frame => ∃ front, front.length = m.frontLength ∧
      frame = m.response front 0 (m.payload c data)
  | .error code, frame => ∃ front payload, front.length = m.frontLength ∧
      m.endCodeLength + payload.length < 2 ^ 16 ∧ frame = m.response front code.1 payload

theorem response_isFrame (m : Module) {front payload : List Byte} (code : BitVec 16)
    (hf : front.length = m.frontLength) (h : m.endCodeLength + payload.length < 2 ^ 16) :
    IsFrame m.protocol.response (m.response front code payload) := by
  cases m with
  | binary => exact (binaryResponse_wellFormed code payload hf h).isFrame
  | ascii => exact (asciiResponse_wellFormed code payload hf h).isFrame

theorem Encodes.isFrame {m : Module} {c : Command} {answer : c.Answer} {frame : List Byte}
    (h : m.Encodes answer frame) (hc : m.Fits c) : IsFrame m.protocol.response frame := by
  cases answer with
  | ok data =>
    obtain ⟨front, hf, rfl⟩ := h
    exact m.response_isFrame 0 hf (hc data)
  | error code =>
    obtain ⟨front, payload, hf, hlen, rfl⟩ := h
    exact m.response_isFrame code.1 hf hlen

end Module

section Frames

variable {d : MelsecMcDataType} {a n : ℕ}

/-- A binary request frame around a payload. -/
def binaryRequest (network : PlcNetworkAddress) (command : Byte × Byte × Byte × Byte)
    (d : MelsecMcDataType) (a n : ℕ) (payload : List Byte) : List Byte :=
  mcCommandHeader network ((10 + payload.length : ℕ) + 11) ++
    (coreHeader command ⟨d, a, n⟩ n ++ payload)

theorem binaryRequest_field {payload : List Byte} (hl : payload.length + 12 < 2 ^ 16) :
    le16 (toByte (((10 + payload.length : ℕ) : ℤ) + 11 - 9))
      (toByte (shiftRight (((10 + payload.length : ℕ) : ℤ) + 11 - 9) 8)) =
        payload.length + 12 := by
  have hcast : ((10 + payload.length : ℕ) : ℤ) + 11 - 9 = (payload.length + 12 : ℕ) := by
    push_cast
    omega
  rw [hcast, le16_toByte, toUShort_eq hl]

theorem binaryRequest_length (network : PlcNetworkAddress)
    (command : Byte × Byte × Byte × Byte) (payload : List Byte) :
    (binaryRequest network command d a n payload).length = payload.length + 21 := by
  simp only [binaryRequest, mcCommandHeader, coreHeader, List.length_append, List.length_cons,
    List.length_nil]
  omega

theorem binaryRequest_isFrame (network : PlcNetworkAddress)
    (command : Byte × Byte × Byte × Byte) {payload : List Byte}
    (hl : payload.length + 12 < 2 ^ 16) :
    IsFrame binaryProtocol.request (binaryRequest network command d a n payload) := by
  have hh : binaryProtocol.request.header = 9 := rfl
  have hlen := binaryRequest_length (d := d) (a := a) (n := n) network command payload
  refine ⟨by omega, ?_⟩
  rw [hlen]
  exact congrArg (fun k => some (k + 9)) (binaryRequest_field hl)

theorem binaryFields_frame (network : PlcNetworkAddress) (command : Byte × Byte × Byte × Byte)
    {payload : List Byte} (hd : d ∈ deviceTable) (ha : a ≤ d.maxStart) (hn : n < 2 ^ 16)
    (hl : payload.length + 12 < 2 ^ 16) :
    binaryFields (binaryRequest network command d a n payload) =
      some ⟨le16 command.1 command.2.1, le16 command.2.2.1 command.2.2.2, d, a, n, payload⟩ := by
  have hstart := start_bytes (lt_of_le_of_lt ha d.maxStart_lt_binary)
  have hpoints : le16 (toByte ((n : ℤ).tmod 256)) (toByte (shiftRight n 8)) = n := by
    rw [toByte_tmod, le16_toByte, toUShort_eq hn]
  have hlen := binaryRequest_field hl
  simp only [binaryRequest, mcCommandHeader, coreHeader, List.cons_append, List.nil_append,
    binaryFields]
  rw [if_pos ⟨by decide, hlen⟩, find_dataCode d hd, hstart, hpoints]
  rfl

/-- An ASCII request frame around a payload. -/
def asciiRequest (network : PlcNetworkAddress) (command : List Char) (d : MelsecMcDataType)
    (a n : ℕ) (payload : List Byte) : List Byte :=
  mcAsciiCommandHeader network (payload.length + 24) ++
    (text command ++ [d.asciiCode.1, d.asciiCode.2] ++ write d.alphabet 6 a ++
      mcAsciiWriteHexU16Be n ++ payload)

theorem asciiFields_frame (network : PlcNetworkAddress) (command subcommand : List Char)
    {payload : List Byte} {c s : ℕ} (hd : d ∈ deviceTable) (ha : a ≤ d.maxStart)
    (hn : n < 2 ^ 16) (hl : payload.length + 24 < 2 ^ 16) (hclen : command.length = 4)
    (hslen : subcommand.length = 4) (hc : Numeral.read hexAlphabet (text command) = some c)
    (hs : Numeral.read hexAlphabet (text subcommand) = some s) :
    asciiFields (asciiRequest network (command ++ subcommand) d a n payload) =
      some ⟨c, s, d, a, n, payload⟩ := by
  let fields : List (List Byte) := [text ['5', '0', '0', '0'],
    mcAsciiWriteHexByte network.networkNumber, text ['F', 'F'], text ['0', '3', 'F', 'F'],
    mcAsciiWriteHexByte network.stationNumber, mcAsciiWriteHexU16Be (payload.length + 24),
    text ['0', '0', '1', '0'], text command, text subcommand,
    [d.asciiCode.1, d.asciiCode.2], write d.alphabet 6 a, mcAsciiWriteHexU16Be n]
  have hframe : asciiRequest network (command ++ subcommand) d a n payload =
      fields.flatten ++ payload := by
    simp [fields, asciiRequest, mcAsciiCommandHeader, text]
  have hwidths : fields.map List.length = [4, 2, 2, 4, 2, 4, 4, 4, 4, 2, 6, 4] := by
    simp [fields, text, hclen, hslen, mcAsciiWriteHexByte_length, mcAsciiWriteHexU16Be_length]
  have hcut := cut_flatten fields payload
  rw [hwidths] at hcut
  have hstart := Numeral.read_write d.alphabet 6 a (lt_of_le_of_lt ha d.maxStart_lt)
  rw [asciiFields, hframe, hcut]
  simp only [fields, Option.bind_eq_bind, Option.bind_some, read_hexU16 hl, hc, hs,
    find_asciiCode d hd, hstart, read_hexU16 hn, and_self, if_true]
  rfl

theorem asciiRequest_isFrame (network : PlcNetworkAddress) (command : List Char)
    {payload : List Byte} (hclen : command.length = 8) (hl : payload.length + 24 < 2 ^ 16) :
    IsFrame asciiProtocol.request (asciiRequest network command d a n payload) := by
  have hh : asciiProtocol.request.header = 18 := rfl
  have hlen : (asciiRequest network command d a n payload).length = 18 + (payload.length + 24) := by
    simp only [asciiRequest, text, List.length_append, List.length_map, Numeral.write_length,
      mcAsciiWriteHexU16Be_length, mcAsciiCommandHeader_length, hclen, List.length_cons,
      List.length_nil]
    omega
  refine ⟨by omega, ?_⟩
  have hsplit : asciiRequest network command d a n payload =
      (text ['5', '0', '0', '0'] ++ mcAsciiWriteHexByte network.networkNumber ++
        text ['F', 'F', '0', '3', 'F', 'F'] ++ mcAsciiWriteHexByte network.stationNumber) ++
      write hexAlphabet 4 (payload.length + 24) ++ (text ['0', '0', '1', '0'] ++
        (text command ++ [d.asciiCode.1, d.asciiCode.2] ++ write d.alphabet 6 a ++
          mcAsciiWriteHexU16Be n ++ payload)) := by
    rw [← mcAsciiWriteHexU16Be_eq hl]
    simp only [asciiRequest, mcAsciiCommandHeader, List.append_assoc]
  have hfield := mcAsciiParseU16Be_field (i := 14) (v := payload.length + 24)
    (l := text ['5', '0', '0', '0'] ++ mcAsciiWriteHexByte network.networkNumber ++
      text ['F', 'F', '0', '3', 'F', 'F'] ++ mcAsciiWriteHexByte network.stationNumber)
    (r := text ['0', '0', '1', '0'] ++ (text command ++ [d.asciiCode.1, d.asciiCode.2] ++
      write d.alphabet 6 a ++ mcAsciiWriteHexU16Be n ++ payload)) rfl hl
  rw [← hsplit] at hfield
  rw [hlen]
  change (mcAsciiParseU16Be (List.getD (List.take 18 _) 14 0) (List.getD (List.take 18 _) 15 0)
    (List.getD (List.take 18 _) 16 0) (List.getD (List.take 18 _) 17 0)).map (18 + ·) = _
  rw [getD_take _ (by omega), getD_take _ (by omega), getD_take _ (by omega),
    getD_take _ (by omega), hfield]
  rfl

namespace Module

/-- What the length field of a request counts besides the payload. -/
def coreLength : Module → ℕ
  | binary => 12
  | ascii => 24

/-- A request frame: batch read or write, in words or in points. -/
def frame (m : Module) (network : PlcNetworkAddress) (is_write is_bit : Bool)
    (d : MelsecMcDataType) (a n : ℕ) (payload : List Byte) : List Byte :=
  match m with
  | binary => binaryRequest network
      (0x01, if is_write then 0x14 else 0x04, if is_bit then 0x01 else 0x00, 0x00) d a n payload
  | ascii => asciiRequest network ((if is_write then ['1', '4', '0', '1'] else
      ['0', '4', '0', '1']) ++ if is_bit then ['0', '0', '0', '1'] else ['0', '0', '0', '0'])
      d a n payload

section Fields

variable (m : Module) (network : PlcNetworkAddress) (is_write is_bit : Bool) {payload : List Byte}

theorem fields_frame (hd : d ∈ deviceTable) (ha : a ≤ d.maxStart) (hn : n < 2 ^ 16)
    (hl : payload.length + m.coreLength < 2 ^ 16) :
    m.fields (m.frame network is_write is_bit d a n payload) =
      some ⟨if is_write then 0x1401 else 0x0401, if is_bit then 1 else 0, d, a, n, payload⟩ := by
  cases m with
  | binary =>
    refine (binaryFields_frame network _ hd ha hn hl).trans ?_
    cases is_write <;> cases is_bit <;> rfl
  | ascii =>
    refine asciiFields_frame network _ _ hd ha hn hl ?_ ?_ ?_ ?_
    · cases is_write <;> rfl
    · cases is_bit <;> rfl
    · cases is_write <;> decide
    · cases is_bit <;> decide

theorem frame_isFrame (hl : payload.length + m.coreLength < 2 ^ 16) :
    IsFrame m.protocol.request (m.frame network is_write is_bit d a n payload) := by
  cases m with
  | binary => exact binaryRequest_isFrame network _ hl
  | ascii =>
    refine asciiRequest_isFrame network _ ?_ hl
    cases is_write <;> cases is_bit <;> rfl

end Fields

/-- Points as the packer of the module puts them into a request. -/
def packed (points : List Bool) : Module → List Byte
  | binary => packedBytes points
  | ascii => asciiBits points

/-- The request frame for a command. -/
def request (m : Module) (network : PlcNetworkAddress) : Command → List Byte
  | .readPoints d a n => m.frame network false true d a n []
  | .readWords d a n => m.frame network false false d a n []
  | .writePoints d a points => m.frame network true true d a points.length (packed points m)
  | .writeWords d a words => m.frame network true false d a words.length (m.wordBytes words)

end Module

/-- The bytes that a point takes, or a word. -/
def Module.pointsLength (n : ℕ) : Module → ℕ
  | .binary => packedLength n
  | .ascii => n

def Module.wordsLength (n : ℕ) : Module → ℕ
  | .binary => 2 * n
  | .ascii => 4 * n

/-- A command whose request says what was asked for: a supported device, a start address that its
field can hold, counts that fit theirs, a frame that fits its length field, and in the binary module
no point that the packer loses. The functions accept more than that: larger start addresses and
counts, which lose their upper digits, and points with a `true` at an odd index behind the packed
bytes, which is lost. -/
def Command.Sendable (m : Module) : Command → Prop
  | readPoints d a n | readWords d a n => d ∈ deviceTable ∧ a ≤ d.maxStart ∧ n < 2 ^ 16
  | writePoints d a points => d ∈ deviceTable ∧ a ≤ d.maxStart ∧ points.length < 2 ^ 16 ∧
      m.pointsLength points.length + m.coreLength < 2 ^ 16 ∧ (m = .binary → OddPointsEarly points)
  | writeWords d a words => d ∈ deviceTable ∧ a ≤ d.maxStart ∧
      m.wordsLength words.length + m.coreLength < 2 ^ 16

theorem leWords_binaryWords (words : List (BitVec 16)) :
    leWords (binaryWords words) = some (words.map BitVec.toNat) := by
  induction words with
  | nil => rfl
  | cons w words ih =>
    change (leWords (binaryWords words)).map _ = _
    rw [ih, Option.map_some, le16_wordBytes w.isLt]
    rfl

theorem map_ofNat_toNat (words : List (BitVec 16)) :
    (words.map BitVec.toNat).map (BitVec.ofNat 16) = words := by
  rw [List.map_map]
  conv_rhs => rw [← List.map_id words]
  exact List.map_congr_left fun w _ => by simp

theorem Module.wordBytes_length (m : Module) (words : List (BitVec 16)) :
    (m.wordBytes words).length = m.wordsLength words.length := by
  cases m with
  | binary => exact binaryWords_length words
  | ascii => simp [Module.wordBytes, asciiWords, Module.wordsLength, List.length_flatMap,
      Nat.mul_comm]

theorem Module.pointBytes_length (m : Module) (points : List Bool) :
    (m.pointBytes points).length = m.pointsLength points.length := by
  cases m with
  | binary => exact binaryBits_length points
  | ascii => simp [Module.pointBytes, asciiBits, Module.pointsLength]

section Fits

variable {m : Module} {n : ℕ}

theorem Module.fits_readWords (d : MelsecMcDataType) (a : ℕ)
    (h : m.endCodeLength + m.wordsLength n < 2 ^ 16) : m.Fits (.readWords d a n) := by
  intro words
  rwa [Module.payload, m.wordBytes_length, words.toList_length]

theorem Module.fits_readPoints (d : MelsecMcDataType) (a : ℕ)
    (h : m.endCodeLength + m.pointsLength n < 2 ^ 16) : m.Fits (.readPoints d a n) := by
  intro points
  rwa [Module.payload, m.pointBytes_length, points.toList_length]

end Fits

/-- Words come out of a payload as they were put in. -/
theorem Module.readWords_wordBytes (m : Module) (words : List (BitVec 16)) :
    Module.readWords (m.wordBytes words) m = some words := by
  cases m with
  | binary =>
    rw [Module.wordBytes, Module.readWords, leWords_binaryWords, Option.map_some, map_ofNat_toNat]
  | ascii =>
    rw [Module.wordBytes, Module.readWords, hexWords_asciiWords, Option.map_some]
    exact congrArg some (map_ofNat_toNat words)

theorem map_boolByte_nibblePoints (b : Byte) (hb : ∃ p q, b = nibbles p q) :
    (nibblePoints b).map boolByte = actualBools b := by
  obtain ⟨p, q, rfl⟩ := hb
  cases p <;> cases q <;> decide

theorem boolByte_injective : Function.Injective boolByte := by
  intro p q
  cases p <;> cases q <;> decide

/-- The points that the packer does not lose are the ones that the PLC finds. -/
theorem readPoints_packedBytes {points : List Bool} (h : OddPointsEarly points) :
    Module.readPoints points.length (packedBytes points) .binary = some points := by
  have hmap : ((packedBytes points).flatMap nibblePoints).map boolByte =
      points.map boolByte ++ List.replicate (points.length % 2) 0 := by
    rw [← expectedBools, ← (packedBytes_flatMap points).mpr h, List.map_flatMap]
    refine List.flatMap_congr fun b hb => map_boolByte_nibblePoints b ?_
    obtain ⟨i, -, rfl⟩ := List.mem_map.mp hb
    exact ⟨_, _, rfl⟩
  rw [Module.readPoints, if_pos (packedBytes_length points)]
  refine congrArg some (List.map_injective_iff.mpr boolByte_injective ?_)
  rw [List.map_take, hmap, List.take_left' (List.length_map ..)]

theorem Module.packed_length (m : Module) (points : List Bool) :
    (packed points m).length = m.pointsLength points.length := by
  cases m with
  | binary => exact packedBytes_length points
  | ascii => simp [packed, asciiBits, Module.pointsLength]

theorem readPoints_asciiBits (points : List Bool) :
    Module.readPoints points.length (asciiBits points) .ascii = some points := by
  rw [Module.readPoints, if_pos (by simp [asciiBits])]
  induction points with
  | nil => rfl
  | cons p points ih =>
    have hp : pointOfChar (if p then chr '1' else chr '0') = some p := by
      cases p <;> decide
    rw [asciiBits, List.map_cons, List.mapM_cons, hp, ← asciiBits, ih]
    rfl

/-- A request frame says what its command says. -/
theorem Command.Sendable.request {m : Module} {c : Command} (h : c.Sendable m)
    (network : PlcNetworkAddress) :
    m.command (m.request network c) = some c ∧
      IsFrame m.protocol.request (m.request network c) := by
  cases c with
  | readPoints d a n =>
    obtain ⟨hd, ha, hn⟩ := h
    have hl : ([] : List Byte).length + m.coreLength < 2 ^ 16 := by cases m <;> decide
    refine ⟨?_, m.frame_isFrame network false true hl⟩
    rw [Module.command, Module.request, m.fields_frame network false true hd ha hn hl]
    rfl
  | readWords d a n =>
    obtain ⟨hd, ha, hn⟩ := h
    have hl : ([] : List Byte).length + m.coreLength < 2 ^ 16 := by cases m <;> decide
    refine ⟨?_, m.frame_isFrame network false false hl⟩
    rw [Module.command, Module.request, m.fields_frame network false false hd ha hn hl]
    rfl
  | writePoints d a points =>
    obtain ⟨hd, ha, hn, hl, hearly⟩ := h
    rw [← m.packed_length] at hl
    have hread : Module.readPoints points.length (Module.packed points m) m = some points := by
      cases m with
      | binary => exact readPoints_packedBytes (hearly rfl)
      | ascii => exact readPoints_asciiBits points
    refine ⟨?_, m.frame_isFrame network true true hl⟩
    rw [Module.command, Module.request, m.fields_frame network true true hd ha hn hl]
    simp [hread]
  | writeWords d a words =>
    obtain ⟨hd, ha, hl⟩ := h
    rw [← m.wordBytes_length] at hl
    have hn : words.length < 2 ^ 16 := by
      have := m.wordBytes_length words
      cases m <;> simp only [Module.wordsLength, Module.coreLength] at * <;> omega
    refine ⟨?_, m.frame_isFrame network true false hl⟩
    rw [Module.command, Module.request, m.fields_frame network true false hd ha hn hl]
    simp [Module.readWords_wordBytes]

end Frames

/-- The words of a buffer, the low byte of each first. -/
def wordsOf (bytes : List Byte) : List (BitVec 16) :=
  ((leWords bytes).getD []).map (BitVec.ofNat 16)

section Buffers

variable {bytes : List Byte}

theorem wordsOf_length (h : bytes.length % 2 = 0) : (wordsOf bytes).length = bytes.length / 2 := by
  obtain ⟨ws, hws⟩ := leWords_isSome h
  have hlen := leWords_length hws
  rw [wordsOf, hws, Option.getD_some, List.length_map]
  omega

theorem even_tail {b₀ b₁ : Byte} (h : (b₀ :: b₁ :: bytes).length % 2 = 0) :
    bytes.length % 2 = 0 := by
  simp only [List.length_cons] at h
  omega

theorem wordsOf_cons {b₀ b₁ : Byte} (h : (b₀ :: b₁ :: bytes).length % 2 = 0) :
    wordsOf (b₀ :: b₁ :: bytes) = BitVec.ofNat 16 (le16 b₀ b₁) :: wordsOf bytes := by
  obtain ⟨ws, hws⟩ := leWords_isSome (even_tail h)
  rw [wordsOf, leWords, hws, wordsOf, hws]
  rfl

theorem toNat_word (b₀ b₁ : Byte) :
    (BitVec.ofNat 16 (le16 b₀ b₁)).toNat = b₀.toNat + 256 * b₁.toNat := by
  have h0 := b₀.isLt
  have h1 := b₁.isLt
  rw [le16_eq, BitVec.toNat_ofNat]
  omega

/-- A buffer goes into a binary frame as it is. -/
theorem binaryWords_wordsOf (h : bytes.length % 2 = 0) : binaryWords (wordsOf bytes) = bytes := by
  induction bytes using leWords.induct with
  | case1 => rfl
  | case2 b₀ b₁ bytes ih =>
    have h0 := b₀.isLt
    have h1 := b₁.isLt
    have hlow : BitVec.ofNat 8 (b₀.toNat + 256 * b₁.toNat) = b₀ :=
      BitVec.eq_of_toNat_eq (by rw [BitVec.toNat_ofNat]; omega)
    have hhigh : BitVec.ofNat 8 ((b₀.toNat + 256 * b₁.toNat) / 256) = b₁ :=
      BitVec.eq_of_toNat_eq (by rw [BitVec.toNat_ofNat]; omega)
    rw [wordsOf_cons h, binaryWords, List.flatMap_cons, ← binaryWords, ih (even_tail h),
      toNat_word, wordBytes, hlow, hhigh]
    rfl
  | case3 bytes h0 h2 =>
    obtain rfl | ⟨b, rfl⟩ := eq_nil_or_singleton h2
    · exact absurd rfl h0
    · simp at h

/-- Into an ASCII frame it goes with the bytes of each word exchanged, two digits for each. -/
theorem asciiWords_wordsOf (h : bytes.length % 2 = 0) :
    asciiWords (wordsOf bytes) = (swapWords bytes).flatMap hexStrPair := by
  induction bytes using leWords.induct with
  | case1 => rfl
  | case2 b₀ b₁ bytes ih =>
    have h0 := b₀.isLt
    have hhigh : (b₀.toNat + 256 * b₁.toNat) / 256 = b₁.toNat := by omega
    have hlow : (b₀.toNat + 256 * b₁.toNat) % 256 = b₀.toNat := by omega
    have hsplit := Numeral.write_append hexAlphabet 2 2 (b₀.toNat + 256 * b₁.toNat)
    have hmod := Numeral.write_mod hexAlphabet 2 (b₀.toNat + 256 * b₁.toNat)
    change write hexAlphabet 2 ((b₀.toNat + 256 * b₁.toNat) / 256) ++ _ = _ at hsplit
    change write hexAlphabet 2 ((b₀.toNat + 256 * b₁.toNat) % 256) = _ at hmod
    rw [hlow] at hmod
    rw [hhigh, ← hmod, ← hexStrPair_eq, ← hexStrPair_eq] at hsplit
    rw [wordsOf_cons h, asciiWords, List.flatMap_cons, ← asciiWords, ih (even_tail h), toNat_word,
      ← hsplit, swapWords, List.flatMap_cons, List.flatMap_cons, List.append_assoc]
  | case3 bytes h0 h2 =>
    obtain rfl | ⟨b, rfl⟩ := eq_nil_or_singleton h2
    · exact absurd rfl h0
    · simp at h

end Buffers

end MelsecMc
