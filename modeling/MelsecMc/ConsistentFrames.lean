import MelsecMc.Requests

/-!
# Frames with the right counts

A request counts twice: its length field the bytes or characters behind it, its
point count the points that the caller asks for. A frame is consistent when both
fields tell the truth. For the frames that the packers build, this is a condition
on the size of the payload and the number of points.
-/
namespace MelsecMc

/-- What a request carries besides its header. -/
inductive Carried where
  | nothing
  | words
  | bits
  deriving DecidableEq, Repr

/-- The bytes of the payload in a binary frame. -/
def Carried.bytes (points : ℕ) : Carried → ℕ
  | nothing => 0
  | words => 2 * points
  | bits => (points + 1) / 2

/-- The characters of the payload in an ASCII frame. -/
def Carried.chars (points : ℕ) : Carried → ℕ
  | nothing => 0
  | words => 4 * points
  | bits => points

/-- A binary frame whose counts are right for `asked` points. -/
def BinaryConsistent (asked : ℤ) (carried : Carried) (cmd : ByteArrayInfo) : Prop :=
  ∃ (frame : List Byte) (points : ℕ), cmd = .ofList frame ∧ (points : ℤ) = asked ∧
    frame.length = 9 + le16 (frame.getD 7 0) (frame.getD 8 0) ∧
    le16 (frame.getD 19 0) (frame.getD 20 0) = points ∧
    frame.length = 21 + carried.bytes points

/-- An ASCII frame whose counts are right for `asked` points. -/
def AsciiConsistent (asked : ℤ) (carried : Carried) (cmd : ByteArrayInfo) : Prop :=
  ∃ (frame : List Byte) (length points : ℕ), cmd = .ofList frame ∧ (points : ℤ) = asked ∧
    mcAsciiParseU16Be (frame.getD 14 0) (frame.getD 15 0) (frame.getD 16 0) (frame.getD 17 0) =
      some length ∧ frame.length = 18 + length ∧
    mcAsciiParseU16Be (frame.getD 38 0) (frame.getD 39 0) (frame.getD 40 0) (frame.getD 41 0) =
      some points ∧ frame.length = 42 + carried.chars points
/-- When the counts of a binary frame are right. -/
theorem binaryConsistent_frame (network : PlcNetworkAddress)
    (command : Byte × Byte × Byte × Byte) (address_data : MelsecMcAddressData) (points asked : ℤ)
    (carried : Carried) (payload : List Byte) :
    BinaryConsistent asked carried
        (.ofList (binaryFrame network command address_data points payload)) ↔
      payload.length + 12 < 2 ^ 16 ∧ (toUShort points : ℤ) = asked ∧
        payload.length = carried.bytes (toUShort points) := by
  have hlen : le16 (toByte (((10 + payload.length : ℕ) : ℤ) + 11 - 9))
      (toByte (shiftRight (((10 + payload.length : ℕ) : ℤ) + 11 - 9) 8)) =
        (payload.length + 12) % 2 ^ 16 := by
    rw [le16_toByte, toUShort]
    push_cast
    omega
  have hpoints :
      le16 (toByte (points.tmod 256)) (toByte (shiftRight points 8)) = toUShort points := by
    rw [toByte_tmod, le16_toByte]
  simp only [binaryFrame, BinaryConsistent, ByteArrayInfo.ofList_inj]
  constructor
  · rintro ⟨frame, n, rfl, hasked, hl, hn, hcarried⟩
    change _ = 9 + le16 (toByte (_ : ℤ)) (toByte _) at hl
    change le16 (toByte (_ : ℤ)) (toByte _) = n at hn
    rw [hlen] at hl
    rw [hpoints] at hn
    subst hn
    simp only [List.length_append, mcCommandHeader_length, coreHeader_length] at hl hcarried
    exact ⟨by omega, hasked, by omega⟩
  · rintro ⟨hfit, hasked, hcarried⟩
    refine ⟨_, toUShort points, rfl, hasked, ?_, hpoints, ?_⟩
    · change _ = 9 + le16 (toByte (_ : ℤ)) (toByte _)
      rw [hlen]
      simp only [List.length_append, mcCommandHeader_length, coreHeader_length]
      omega
    · simp only [List.length_append, mcCommandHeader_length, coreHeader_length]
      omega

/-- When the counts of an ASCII frame are right. -/
theorem asciiConsistent_frame {network : PlcNetworkAddress} {command : List Char}
    {address_data : MelsecMcAddressData} {asked : ℤ} {carried : Carried}
    {header payload : List Byte} (hcommand : command.length = 8)
    (hheader : asciiCoreHeader command address_data = some header) :
    AsciiConsistent asked carried (.ofList (Ascii.asciiFrame network header payload)) ↔
      payload.length + 24 < 2 ^ 16 ∧ (toUShort address_data.length : ℤ) = asked ∧
        payload.length = carried.chars (toUShort address_data.length) := by
  have hsize := asciiCoreHeader_length hcommand hheader
  obtain ⟨number, hnumber, hh⟩ := Option.map_eq_some_iff.mp hheader
  have hsix : number.length = 6 := by
    have h := congrArg List.length hh
    simp only [List.length_append, text, List.length_map, hcommand, hsize,
      mcAsciiWriteHexU16Be_length, List.length_cons, List.length_nil] at h
    omega
  have hfield : toUShort ((header ++ payload).length + 4) = (payload.length + 24) % 2 ^ 16 := by
    rw [List.length_append, hsize, toUShort]
    push_cast
    omega
  rw [Ascii.asciiFrame]
  set frame := mcAsciiCommandHeader network (toUShort ((header ++ payload).length + 4)) ++
    (header ++ payload) with hframe
  have hflen : frame.length = payload.length + 42 := by
    simp only [hframe, List.length_append, mcAsciiCommandHeader_length, hsize]
    omega
  have hlength : mcAsciiParseU16Be (frame.getD 14 0) (frame.getD 15 0) (frame.getD 16 0)
      (frame.getD 17 0) = some ((payload.length + 24) % 2 ^ 16) := by
    have hsplit : frame = (text ['5', '0', '0', '0'] ++ mcAsciiWriteHexByte network.networkNumber ++
        text ['F', 'F', '0', '3', 'F', 'F'] ++ mcAsciiWriteHexByte network.stationNumber) ++
          Numeral.write hexAlphabet 4 ((payload.length + 24) % 2 ^ 16) ++
            (text ['0', '0', '1', '0'] ++ (header ++ payload)) := by
      rw [hframe, hfield, mcAsciiCommandHeader, mcAsciiWriteHexU16Be_eq (by omega)]
      simp only [List.append_assoc]
    rw [hsplit]
    exact mcAsciiParseU16Be_field (i := 14) rfl (by omega)
  have hpoints : mcAsciiParseU16Be (frame.getD 38 0) (frame.getD 39 0) (frame.getD 40 0)
      (frame.getD 41 0) = some (toUShort address_data.length) := by
    have hlt := toUShort_lt address_data.length
    have hsplit :
      frame = (mcAsciiCommandHeader network (toUShort ((header ++ payload).length + 4)) ++
        (text command ++ [address_data.dataType.asciiCode.1, address_data.dataType.asciiCode.2] ++
          number)) ++ Numeral.write hexAlphabet 4 (toUShort address_data.length) ++ payload := by
      rw [hframe, ← mcAsciiWriteHexU16Be_eq hlt]
      simp only [← hh, List.append_assoc]
    rw [hsplit]
    refine mcAsciiParseU16Be_field (i := 38) ?_ hlt
    simp [text, hcommand, hsix]
  simp only [AsciiConsistent, ByteArrayInfo.ofList_inj]
  constructor
  · rintro ⟨frame', length, n, rfl, hasked, hl, hn, hp, hcarried⟩
    rw [hlength] at hl
    rw [hpoints] at hp
    rw [← Option.some.inj hp] at hasked hcarried
    rw [hflen, ← Option.some.inj hl] at hn
    exact ⟨by omega, hasked, by omega⟩
  · rintro ⟨hfit, hasked, hcarried⟩
    exact ⟨frame, _, _, rfl, hasked, hlength, by omega, hpoints, by omega⟩

section Binary

variable (network : PlcNetworkAddress) (command : Byte × Byte × Byte × Byte)
  (address_data : MelsecMcAddressData)

/-- A read asks for the points that fit its field. -/
theorem binaryConsistent_read (points : ℤ) :
    BinaryConsistent points .nothing
        (.ofList (binaryFrame network command address_data points [])) ↔
      (toUShort points : ℤ) = points := by
  rw [binaryConsistent_frame]
  exact ⟨fun h => h.2.1, fun h => ⟨by decide, h, rfl⟩⟩

/-- The bytes of a word write fit the length field. -/
theorem binaryConsistent_words {points : ℤ} {bytes : List Byte}
    (h : (bytes.length : ℤ) = 2 * points) :
    BinaryConsistent points .words
        (.ofList (binaryFrame network command address_data points bytes)) ↔
      bytes.length + 12 < 2 ^ 16 := by
  rw [binaryConsistent_frame]
  constructor
  · exact fun hframe => hframe.1
  · intro hfit
    have hpoints : (toUShort points : ℤ) = points := (toUShort_eq_iff (by omega)).mpr (by omega)
    refine ⟨hfit, hpoints, ?_⟩
    rw [Carried.bytes]
    omega

/-- The points of a bit write fit their field. -/
theorem binaryConsistent_bits {points : ℤ} {bools : List Bool} (h : points = bools.length) :
    BinaryConsistent points .bits
        (.ofList (binaryFrame network command address_data points (packedBytes bools))) ↔
      points ≤ 65535 := by
  have hlen : (packedBytes bools).length = (bools.length + 1) / 2 := packedBytes_length bools
  rw [binaryConsistent_frame]
  constructor
  · rintro ⟨-, hasked, -⟩
    exact (toUShort_eq_iff (by omega)).mp hasked
  · intro hfit
    have hpoints := (toUShort_eq_iff (show 0 ≤ points by omega)).mpr hfit
    refine ⟨by omega, hpoints, ?_⟩
    rw [hlen, Carried.bytes]
    omega

end Binary

section Ascii

variable {network : PlcNetworkAddress} {command : List Char} {address_data : MelsecMcAddressData}
  {header : List Byte}

theorem asciiConsistent_read {points : ℤ} {is_bit : Bool} (hlength : address_data.length = points)
    (hheader : asciiCoreHeader (Ascii.readCommand is_bit) address_data = some header) :
    AsciiConsistent points .nothing (.ofList (Ascii.asciiFrame network header [])) ↔
      (toUShort points : ℤ) = points := by
  rw [asciiConsistent_frame (by cases is_bit <;> rfl) hheader, hlength]
  exact ⟨fun h => h.2.1, fun h => ⟨by decide, h, rfl⟩⟩

theorem asciiConsistent_words {points : ℤ} {chars : List Byte} (hcommand : command.length = 8)
    (hlength : address_data.length = points) (h : (chars.length : ℤ) = 4 * points)
    (hheader : asciiCoreHeader command address_data = some header) :
    AsciiConsistent points .words (.ofList (Ascii.asciiFrame network header chars)) ↔
      chars.length + 24 < 2 ^ 16 := by
  rw [asciiConsistent_frame hcommand hheader, hlength]
  constructor
  · exact fun hframe => hframe.1
  · intro hfit
    have hpoints : (toUShort points : ℤ) = points := (toUShort_eq_iff (by omega)).mpr (by omega)
    refine ⟨hfit, hpoints, ?_⟩
    rw [Carried.chars]
    omega

end Ascii

end MelsecMc
