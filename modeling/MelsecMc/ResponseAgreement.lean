import MelsecMc.BitPacking
import MelsecMc.ResponseFraming

/-!
# The two response formats carry the same data

A response in either format is a front that no parser looks at, a length field,
an end code and a payload. The words of a binary payload have their low byte
first, those of an ASCII payload are four-digit numerals; points are nibbles in
the one format and the characters `0` and `1` in the other. Both parsers read
the same thing.
-/
namespace MelsecMc

open Numeral (write)

/-- A binary response frame: `front` is subheader and access route. -/
def binaryResponse (front : List Byte) (end_code : BitVec 16) (payload : List Byte) : List Byte :=
  front ++ wordBytes (2 + payload.length) ++ wordBytes end_code.toNat ++ payload

/-- An ASCII response frame. -/
def asciiResponse (front : List Byte) (end_code : BitVec 16) (payload : List Byte) : List Byte :=
  front ++ write hexAlphabet 4 (4 + payload.length) ++ write hexAlphabet 4 end_code.toNat ++
    payload

/-- Words of device data in a binary frame. -/
def binaryWords (words : List (BitVec 16)) : List Byte :=
  words.flatMap fun w => wordBytes w.toNat

/-- Words of device data in an ASCII frame. -/
def asciiWords (words : List (BitVec 16)) : List Byte :=
  words.flatMap fun w => write hexAlphabet 4 w.toNat

/-- Points in a binary frame: two in a byte, the first in the high nibble. -/
def binaryBits : List Bool → List Byte
  | [] => []
  | [p] => [nibbles p false]
  | p :: q :: points => nibbles p q :: binaryBits points

/-- Points in an ASCII frame. -/
def asciiBits (points : List Bool) : List Byte :=
  points.map fun p => if p then chr '1' else chr '0'

theorem le16_wordBytes {w : ℕ} (h : w < 2 ^ 16) :
    le16 (BitVec.ofNat 8 w) (BitVec.ofNat 8 (w / 256)) = w := by
  rw [le16_eq, BitVec.toNat_ofNat, BitVec.toNat_ofNat]
  omega

section Binary

variable {front : List Byte} (end_code : BitVec 16) (payload : List Byte)

theorem binaryResponse_length (hf : front.length = 7) :
    (binaryResponse front end_code payload).length = payload.length + 11 := by
  simp only [binaryResponse, wordBytes, List.length_append, List.length_cons, List.length_nil]
  omega

theorem binaryResponse_drop (hf : front.length = 7) :
    (binaryResponse front end_code payload).drop 11 = payload := by
  rw [binaryResponse, List.drop_left']
  simp only [wordBytes, List.length_append, List.length_cons, List.length_nil]
  omega

/-- The four bytes behind the front. -/
theorem binaryResponse_getD (hf : front.length = 7) (i : ℕ) :
    (binaryResponse front end_code payload).getD (7 + i) 0 =
      (wordBytes (2 + payload.length) ++ wordBytes end_code.toNat ++ payload).getD i 0 := by
  simp only [binaryResponse, List.append_assoc]
  exact getD_append_right hf i

theorem binaryResponse_endCode (hf : front.length = 7) :
    binaryEndCode (binaryResponse front end_code payload) = end_code.toNat := by
  have h9 := binaryResponse_getD end_code payload hf 2
  have h10 := binaryResponse_getD end_code payload hf 3
  rw [binaryEndCode, h9, h10]
  exact le16_wordBytes end_code.isLt

theorem binaryResponse_wellFormed (hf : front.length = 7) (h : 2 + payload.length < 2 ^ 16) :
    WellFormedBinary (binaryResponse front end_code payload) := by
  have h7 := binaryResponse_getD end_code payload hf 0
  have h8 := binaryResponse_getD end_code payload hf 1
  have hlen : le16 ((binaryResponse front end_code payload).getD 7 0)
      ((binaryResponse front end_code payload).getD 8 0) = 2 + payload.length := by
    rw [h7, h8]
    exact le16_wordBytes h
  rw [WellFormedBinary, hlen, binaryResponse_length end_code payload hf]
  omega

/-- The binary parser on a response. -/
theorem binaryResponse_parsed (hf : front.length = 7) (h : 2 + payload.length < 2 ^ 16)
    (data : ByteArrayInfo) :
    mcParseReadResponse (.ofList (binaryResponse front end_code payload)) (some data) =
      some (if end_code.toNat = 0 then .success else .failed, some (attached data payload)) := by
  rw [mcParseReadResponse_wellFormed (binaryResponse_wellFormed end_code payload hf h),
    binaryResponse_endCode end_code payload hf, binaryResponse_drop end_code payload hf]

end Binary

section Ascii

variable {front : List Byte} (end_code : BitVec 16) (payload : List Byte)

theorem asciiResponse_length (hf : front.length = 14) :
    (asciiResponse front end_code payload).length = payload.length + 22 := by
  simp only [asciiResponse, List.length_append, Numeral.write_length]
  omega

theorem asciiResponse_drop (hf : front.length = 14) :
    (asciiResponse front end_code payload).drop 22 = payload := by
  rw [asciiResponse, List.drop_left']
  simp only [List.length_append, Numeral.write_length]
  omega

theorem asciiResponse_endCode (hf : front.length = 14) :
    asciiEndCode (asciiResponse front end_code payload) = some end_code.toNat :=
  mcAsciiParseU16Be_field (i := 18) (by simp [hf]) end_code.isLt

theorem asciiResponse_wellFormed (hf : front.length = 14) (h : 4 + payload.length < 2 ^ 16) :
    WellFormedAscii (asciiResponse front end_code payload) := by
  refine ⟨4 + payload.length, ?_, by omega, by rw [asciiResponse_length end_code payload hf]; omega⟩
  rw [asciiResponse, List.append_assoc]
  exact mcAsciiParseU16Be_field (i := 14) hf h

/-- The ASCII parser on an error response. -/
theorem asciiResponse_error (hf : front.length = 14) (hc : end_code.toNat ≠ 0)
    (data : ByteArrayInfo) (is_bit : Bool) :
    mcAsciiParseReadResponse (.ofList (asciiResponse front end_code payload)) (some data) is_bit =
      some (.failed, some .empty) := by
  have hlen := asciiResponse_length end_code payload hf
  have hcode := asciiResponse_endCode end_code payload hf
  rw [mcAsciiParseReadResponse_error (by omega) (by simp [hcode, hc]), hcode]
  obtain ⟨n, hn⟩ := Nat.exists_eq_succ_of_ne_zero hc
  rw [hn]
  rfl

end Ascii

theorem hexWords_asciiWords (words : List (BitVec 16)) :
    hexWords (asciiWords words) = some (words.map (·.toNat)) := by
  induction words with
  | nil => rfl
  | cons w words ih =>
    have hread := Numeral.read_write hexAlphabet 4 w.toNat w.isLt
    have hlen := Numeral.write_length hexAlphabet 4 w.toNat
    rw [asciiWords, List.flatMap_cons, ← asciiWords]
    generalize write hexAlphabet 4 w.toNat = field at hread hlen
    match field, hlen with
    | [c₀, c₁, c₂, c₃], _ =>
      change (Numeral.read hexAlphabet [c₀, c₁, c₂, c₃]).bind (fun v =>
        (hexWords (asciiWords words)).map (v :: ·)) = _
      rw [hread, ih]
      rfl

theorem actualBools_binaryBits (points : List Bool) :
    (binaryBits points).flatMap actualBools =
      points.map boolByte ++ List.replicate (points.length % 2) 0 := by
  induction points using List.twoStepInduction with
  | nil => rfl
  | singleton p => cases p <;> rfl
  | cons_cons p q points ih _ =>
    have hm : (p :: q :: points).length % 2 = points.length % 2 := by
      simp only [List.length_cons]
      omega
    rw [binaryBits, List.flatMap_cons, ih, actualBools_nibbles, hm]
    rfl

theorem binaryBits_length (points : List Bool) :
    (binaryBits points).length = packedLength points.length := by
  induction points using List.twoStepInduction with
  | nil => rfl
  | singleton p => simp [binaryBits, packedLength]
  | cons_cons p q points ih _ =>
    simp only [binaryBits, List.length_cons, ih, packedLength]
    omega

theorem binaryWords_length (words : List (BitVec 16)) :
    (binaryWords words).length = 2 * words.length := by
  simp [binaryWords, wordBytes, List.length_flatMap, Nat.mul_comm]

theorem mcAsciiParseReadResponse_bits {frame : List Byte} (h : 22 ≤ frame.length)
    (hc : asciiEndCode frame = some 0) {points : List Bool}
    (hp : frame.drop 22 = asciiBits points) (data : ByteArrayInfo) :
    mcAsciiParseReadResponse (.ofList frame) (some data) true =
      some (.success, some (attached .empty (points.map boolByte))) := by
  have hmap : ((asciiBits points).map fun c => if c = chr '1' then (0x01 : Byte) else 0x00) =
      points.map boolByte := by
    rw [asciiBits, List.map_map]
    exact List.map_congr_left fun p _ => by cases p <;> rfl
  rw [mcAsciiParseReadResponse_points h hc, hp, hmap]

/-- The points come out of their bytes, behind an odd number of them one more zero. -/
theorem extractActualBoolData_binaryBits {points : List Bool} (h : points.length + 1 < 2 ^ 31) :
    extractActualBoolData (attached .empty (binaryBits points)) =
      some (attached .empty (points.map boolByte ++ List.replicate (points.length % 2) 0)) := by
  have hlen := binaryBits_length points
  by_cases h0 : points = []
  · subst h0
    rfl
  · have hpos := List.length_pos_iff.mpr h0
    simp only [packedLength] at hlen
    have hne : binaryBits points ≠ [] := List.ne_nil_of_length_pos (by omega)
    rw [attached, if_neg hne, extractActualBoolData_ofList hne (by omega),
      actualBools_binaryBits, attached, if_neg (by simp [h0])]

theorem attached_take {n : ℕ} {l r : List Byte} (h : l.length = n) :
    ((attached .empty (l ++ r)).data.getD []).take n = l := by
  rw [attached]
  split_ifs with h0
  · simp [(List.append_eq_nil_iff.mp h0).1]
  · exact List.take_left' h

/-- Responses that carry the same end code and the same data have the same result. What fits
an ASCII frame fits a binary one. -/
theorem responses_agree (front asciiFront : List Byte) (end_code : BitVec 16)
    (old : ByteArrayInfo) (hf : front.length = 7) (ha : asciiFront.length = 14) :
    (∀ words : List (BitVec 16), 4 + 4 * words.length < 2 ^ 16 →
      ∃ ret out out',
        mcParseReadResponse (.ofList (binaryResponse front end_code (binaryWords words)))
          (some .empty) = some (ret, some out) ∧
        mcAsciiParseReadResponse (.ofList (asciiResponse asciiFront end_code (asciiWords words)))
          (some old) false = some (ret, some out') ∧
        (ret = .success ↔ end_code = 0) ∧
        (ret = .success → out = out' ∧ out = attached .empty (binaryWords words))) ∧
    ∀ points : List Bool, 4 + points.length < 2 ^ 16 →
      ∃ ret out out',
        mcParseReadResponse (.ofList (binaryResponse front end_code (binaryBits points)))
          (some .empty) = some (ret, some out) ∧
        mcAsciiParseReadResponse (.ofList (asciiResponse asciiFront end_code (asciiBits points)))
          (some old) true = some (ret, some out') ∧
        (ret = .success ↔ end_code = 0) ∧
        (ret = .success → ∃ bits, extractActualBoolData out = some bits ∧
          (bits.data.getD []).take points.length = points.map boolByte ∧
          (out'.data.getD []).take points.length = points.map boolByte) := by
  have hzero : end_code = 0 ↔ end_code.toNat = 0 := by
    rw [← BitVec.toNat_inj]
    rfl
  constructor
  · intro words h
    have hblen := binaryWords_length words
    have hlen := asciiResponse_length end_code (asciiWords words) ha
    have hcode := asciiResponse_endCode end_code (asciiWords words) ha
    have htext := hexWords_asciiWords words
    rw [← asciiResponse_drop end_code (asciiWords words) ha] at htext
    rw [binaryResponse_parsed _ _ hf (by omega), hzero]
    by_cases hc : end_code.toNat = 0
    · rw [hc] at hcode
      refine ⟨_, _, attached .empty (binaryWords words), rfl, ?_, by simp [hc],
        fun _ => ⟨rfl, rfl⟩⟩
      rw [mcAsciiParseReadResponse_words (by omega) hcode htext, if_pos hc, List.flatMap_map]
      rfl
    · refine ⟨_, _, .empty, rfl, ?_, by simp [hc], by simp [hc]⟩
      rw [asciiResponse_error _ _ ha hc, if_neg hc]
  · intro points h
    have hblen := binaryBits_length points
    simp only [packedLength] at hblen
    have hlen := asciiResponse_length end_code (asciiBits points) ha
    have hcode := asciiResponse_endCode end_code (asciiBits points) ha
    have htext := asciiResponse_drop end_code (asciiBits points) ha
    rw [binaryResponse_parsed _ _ hf (by omega), hzero]
    by_cases hc : end_code.toNat = 0
    · rw [hc] at hcode
      refine ⟨_, _, attached .empty (points.map boolByte), rfl, ?_, by simp [hc], fun _ =>
        ⟨_, extractActualBoolData_binaryBits (by omega), attached_take (by simp), ?_⟩⟩
      · rw [mcAsciiParseReadResponse_bits (by omega) hcode htext, if_pos hc]
      · have htake := attached_take (r := []) (l := points.map boolByte) (List.length_map ..)
        rwa [List.append_nil] at htake
    · refine ⟨_, _, .empty, rfl, ?_, by simp [hc], by simp [hc]⟩
      rw [asciiResponse_error _ _ ha hc, if_neg hc]

/-- Two words and three points from the station with number 0. -/
theorem responses_agree_three_points :
    (∃ ret out out',
      mcParseReadResponse (.ofList (binaryResponse [0xD0, 0x00, 0x00, 0xFF, 0xFF, 0x03, 0x00] 0
        (binaryWords [0x1234, 0xABCD]))) (some .empty) = some (ret, some out) ∧
      mcAsciiParseReadResponse (.ofList (asciiResponse
        (text ['D', '0', '0', '0', '0', '0', 'F', 'F', '0', '3', 'F', 'F', '0', '0']) 0
        (asciiWords [0x1234, 0xABCD]))) (some .empty) false = some (ret, some out') ∧
      (ret = .success ↔ (0 : BitVec 16) = 0) ∧
      (ret = .success → out = out' ∧ out = attached .empty (binaryWords [0x1234, 0xABCD]))) ∧
    ∃ ret out out',
      mcParseReadResponse (.ofList (binaryResponse [0xD0, 0x00, 0x00, 0xFF, 0xFF, 0x03, 0x00] 0
        (binaryBits [true, false, true]))) (some .empty) = some (ret, some out) ∧
      mcAsciiParseReadResponse (.ofList (asciiResponse
        (text ['D', '0', '0', '0', '0', '0', 'F', 'F', '0', '3', 'F', 'F', '0', '0']) 0
        (asciiBits [true, false, true]))) (some .empty) true = some (ret, some out') ∧
      (ret = .success ↔ (0 : BitVec 16) = 0) ∧
      (ret = .success → ∃ bits, extractActualBoolData out = some bits ∧
        (bits.data.getD []).take 3 = [0x01, 0x00, 0x01] ∧
        (out'.data.getD []).take 3 = [0x01, 0x00, 0x01]) :=
  ⟨(responses_agree [0xD0, 0x00, 0x00, 0xFF, 0xFF, 0x03, 0x00]
      (text ['D', '0', '0', '0', '0', '0', 'F', 'F', '0', '3', 'F', 'F', '0', '0']) 0 .empty rfl
      rfl).1 [0x1234, 0xABCD] (by decide),
    (responses_agree [0xD0, 0x00, 0x00, 0xFF, 0xFF, 0x03, 0x00]
      (text ['D', '0', '0', '0', '0', '0', 'F', 'F', '0', '3', 'F', 'F', '0', '0']) 0 .empty rfl
      rfl).2 [true, false, true] (by decide)⟩

end MelsecMc
