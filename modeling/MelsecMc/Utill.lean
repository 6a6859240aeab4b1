import MelsecMc.CTypes
import MelsecMc.WordBytes

/-!
# Typed values as bytes (utill.c)

The conversions between C values and byte buffers, with the masks and shifts of
the source. A `float` or a `double` is its bit pattern. Every encoder writes the
little-endian bytes of its value and every decoder reads them back; a
`ValueCodec` carries both facts with its two functions.
-/
namespace MelsecMc

open WordBytes

/-- `short2bytes`. The argument is promoted to `int` first. -/
def short2bytes (i : BitVec 16) : List Byte :=
  let i := i.signExtend 32
  [(0xff#32 &&& i).setWidth 8, ((0xff00#32 &&& i) >>> 8).setWidth 8]

/-- `bytes2short`. -/
def bytes2short (bytes : List Byte) : Option (BitVec 16) := do
  let b₀ ← bytes[0]?
  let b₁ ← bytes[1]?
  let iRetVal := (b₀.setWidth 32 &&& 0xFF#32).setWidth 16
  return (iRetVal.signExtend 32 ||| ((b₁.setWidth 32 <<< 8) &&& 0xFF00#32)).setWidth 16

/-- `ushort2bytes`. -/
def ushort2bytes (i : BitVec 16) : List Byte :=
  let i := i.setWidth 32
  [(0xff#32 &&& i).setWidth 8, ((0xff00#32 &&& i) >>> 8).setWidth 8]

/-- `bytes2ushort`. -/
def bytes2ushort (bytes : List Byte) : Option (BitVec 16) := do
  let b₀ ← bytes[0]?
  let b₁ ← bytes[1]?
  let iRetVal := (b₀.setWidth 32 &&& 0xFF#32).setWidth 16
  return (iRetVal.setWidth 32 ||| ((b₁.setWidth 32 <<< 8) &&& 0xFF00#32)).setWidth 16

/-- `int2bytes`. The masked values are nonnegative, so both shifts agree. -/
def int2bytes (i : BitVec 32) : List Byte :=
  [(0xff#32 &&& i).setWidth 8, ((0xff00#32 &&& i) >>> 8).setWidth 8,
    ((0xff0000#32 &&& i) >>> 16).setWidth 8, ((0xff000000#32 &&& i) >>> 24).setWidth 8]

/-- `bytes2int32`. -/
def bytes2int32 (bytes : List Byte) : Option (BitVec 32) := do
  let b₀ ← bytes[0]?
  let b₁ ← bytes[1]?
  let b₂ ← bytes[2]?
  let b₃ ← bytes[3]?
  return b₀.setWidth 32 &&& 0xFF#32 ||| ((b₁.setWidth 32 <<< 8) &&& 0xFF00#32) |||
    ((b₂.setWidth 32 <<< 16) &&& 0xFF0000#32) ||| ((b₃.setWidth 32 <<< 24) &&& 0xFF000000#32)

/-- `uint2bytes`. -/
def uint2bytes (i : BitVec 32) : List Byte := int2bytes i

/-- `bytes2uint32`. -/
def bytes2uint32 (bytes : List Byte) : Option (BitVec 32) := bytes2int32 bytes

/-- `bigInt2bytes`. -/
def bigInt2bytes (i : BitVec 64) : List Byte :=
  [(0xff#64 &&& i).setWidth 8, (0xff#64 &&& i.sshiftRight 8).setWidth 8,
    (0xff#64 &&& i.sshiftRight 16).setWidth 8, (0xff#64 &&& i.sshiftRight 24).setWidth 8,
    (0xff#64 &&& i.sshiftRight 32).setWidth 8, (0xff#64 &&& i.sshiftRight 40).setWidth 8,
    (0xff#64 &&& i.sshiftRight 48).setWidth 8, (0xff#64 &&& i.sshiftRight 56).setWidth 8]

/-- `bytes2bigInt`. -/
def bytes2bigInt (bytes : List Byte) : Option (BitVec 64) := do
  let b₀ ← bytes[0]?
  let b₁ ← bytes[1]?
  let b₂ ← bytes[2]?
  let b₃ ← bytes[3]?
  let b₄ ← bytes[4]?
  let b₅ ← bytes[5]?
  let b₆ ← bytes[6]?
  let b₇ ← bytes[7]?
  return b₀.setWidth 64 &&& 0xFF#64 ||| ((b₁.setWidth 64 <<< 8) &&& 0xFF00#64) |||
    ((b₂.setWidth 64 <<< 16) &&& 0xFF0000#64) ||| ((b₃.setWidth 64 <<< 24) &&& 0xFF000000#64) |||
    ((b₄.setWidth 64 <<< 32) &&& 0xFF00000000#64) |||
    ((b₅.setWidth 64 <<< 40) &&& 0xFF0000000000#64) |||
    ((b₆.setWidth 64 <<< 48) &&& 0xFF000000000000#64) |||
    ((b₇.setWidth 64 <<< 56) &&& 0xFF00000000000000#64)

/-- `ubigInt2bytes`. The shifts of an unsigned value bring in zeros. -/
def ubigInt2bytes (i : BitVec 64) : List Byte :=
  [(0xff#64 &&& i).setWidth 8, (0xff#64 &&& i >>> 8).setWidth 8,
    (0xff#64 &&& i >>> 16).setWidth 8, (0xff#64 &&& i >>> 24).setWidth 8,
    (0xff#64 &&& i >>> 32).setWidth 8, (0xff#64 &&& i >>> 40).setWidth 8,
    (0xff#64 &&& i >>> 48).setWidth 8, (0xff#64 &&& i >>> 56).setWidth 8]

/-- `bytes2ubigInt`. -/
def bytes2ubigInt (bytes : List Byte) : Option (BitVec 64) := bytes2bigInt bytes

/-- `float2bytes`. -/
def float2bytes (i : BitVec 32) : List Byte := int2bytes i

/-- `bytes2float`. -/
def bytes2float (bytes : List Byte) : Option (BitVec 32) := bytes2int32 bytes

/-- `double2bytes`. -/
def double2bytes (i : BitVec 64) : List Byte := bigInt2bytes i

/-- `bytes2double`. -/
def bytes2double (bytes : List Byte) : Option (BitVec 64) := bytes2bigInt bytes

theorem low_masked {w : ℕ} (x : BitVec w) (hw : 8 ≤ w) :
    (BitVec.ofNat w 255 &&& x).setWidth 8 = x.extractLsb' 0 8 := by
  simpa using masked_shift_down x 0 (by omega)

theorem shift_down_masked_unsigned {w : ℕ} (x : BitVec w) (s : ℕ) (hs : s + 8 ≤ w) :
    (BitVec.ofNat w 255 &&& x >>> s).setWidth 8 = x.extractLsb' s 8 := by
  rw [low_masked (x >>> s) (by omega)]
  apply BitVec.eq_of_getLsbD_eq
  intro i hi
  simp [hi]

theorem low_byte {w : ℕ} (b : Byte) : b.setWidth w &&& BitVec.ofNat w 255 = b.setWidth w := by
  simpa using shift_up_masked (w := w) b 0

theorem short2bytes_eq (i : BitVec 16) : short2bytes i = bytesOf 2 i := by
  have h0 := low_masked (i.signExtend 32) (by omega)
  have h1 := masked_shift_down (i.signExtend 32) 8 (by omega)
  have he : ∀ s, s + 8 ≤ 16 → (i.signExtend 32).extractLsb' s 8 = i.extractLsb' s 8 := by
    intro s hs
    apply BitVec.eq_of_getLsbD_eq
    intro j hj
    rw [BitVec.getLsbD_extractLsb', BitVec.getLsbD_extractLsb', BitVec.getLsbD_signExtend]
    simp [show s + j < 16 by omega, show s + j < 32 by omega]
  rw [he _ (by omega)] at h0 h1
  simp only [short2bytes, bytesOf, List.range, List.range.loop, List.map]
  exact congrArg₂ (fun a b => [a, b]) h0 h1

theorem ushort2bytes_eq (i : BitVec 16) : ushort2bytes i = bytesOf 2 i := by
  have h0 := low_masked (i.setWidth 32) (by omega)
  have h1 := masked_shift_down (i.setWidth 32) 8 (by omega)
  have he : ∀ s, s + 8 ≤ 16 → (i.setWidth 32).extractLsb' s 8 = i.extractLsb' s 8 := by
    intro s hs
    apply BitVec.eq_of_getLsbD_eq
    intro j hj
    simp [hj, show s + j < 32 by omega]
  rw [he _ (by omega)] at h0 h1
  simp only [ushort2bytes, bytesOf, List.range, List.range.loop, List.map]
  exact congrArg₂ (fun a b => [a, b]) h0 h1

theorem int2bytes_eq (i : BitVec 32) : int2bytes i = bytesOf 4 i := by
  have h0 := low_masked i (by omega)
  have h1 := masked_shift_down i 8 (by omega)
  have h2 := masked_shift_down i 16 (by omega)
  have h3 := masked_shift_down i 24 (by omega)
  simp only [int2bytes, bytesOf, List.range, List.range.loop, List.map]
  rw [← h0, ← h1, ← h2, ← h3]
  rfl

theorem bigInt2bytes_eq (i : BitVec 64) : bigInt2bytes i = bytesOf 8 i := by
  simp only [bigInt2bytes, bytesOf, List.range, List.range.loop, List.map,
    low_masked i (by omega), shift_down_masked i 8 (by omega), shift_down_masked i 16 (by omega),
    shift_down_masked i 24 (by omega), shift_down_masked i 32 (by omega),
    shift_down_masked i 40 (by omega), shift_down_masked i 48 (by omega),
    shift_down_masked i 56 (by omega)]

theorem ubigInt2bytes_eq (i : BitVec 64) : ubigInt2bytes i = bytesOf 8 i := by
  simp only [ubigInt2bytes, bytesOf, List.range, List.range.loop, List.map,
    low_masked i (by omega), shift_down_masked_unsigned i 8 (by omega),
    shift_down_masked_unsigned i 16 (by omega), shift_down_masked_unsigned i 24 (by omega),
    shift_down_masked_unsigned i 32 (by omega), shift_down_masked_unsigned i 40 (by omega),
    shift_down_masked_unsigned i 48 (by omega), shift_down_masked_unsigned i 56 (by omega)]

/-- The four bytes of a decoder, each at its place and without its mask. -/
theorem bytes2int32_cons (b₀ b₁ b₂ b₃ : Byte) (bs : List Byte) :
    bytes2int32 (b₀ :: b₁ :: b₂ :: b₃ :: bs) = some (ofBytes 32 [b₀, b₁, b₂, b₃]) := by
  have h0 := low_byte (w := 32) b₀
  have h1 := shift_up_masked (w := 32) b₁ 8
  have h2 := shift_up_masked (w := 32) b₂ 16
  have h3 := shift_up_masked (w := 32) b₃ 24
  change some (b₀.setWidth 32 &&& BitVec.ofNat 32 255 |||
    ((b₁.setWidth 32 <<< 8) &&& (BitVec.ofNat 32 255 <<< 8)) |||
    ((b₂.setWidth 32 <<< 16) &&& (BitVec.ofNat 32 255 <<< 16)) |||
    ((b₃.setWidth 32 <<< 24) &&& (BitVec.ofNat 32 255 <<< 24))) = _
  rw [h0, h1, h2, h3]
  simp [ofBytes, BitVec.shiftLeft_or_distrib, ← BitVec.shiftLeft_add, BitVec.or_assoc]

theorem bytes2bigInt_cons (b₀ b₁ b₂ b₃ b₄ b₅ b₆ b₇ : Byte) (bs : List Byte) :
    bytes2bigInt (b₀ :: b₁ :: b₂ :: b₃ :: b₄ :: b₅ :: b₆ :: b₇ :: bs) =
      some (ofBytes 64 [b₀, b₁, b₂, b₃, b₄, b₅, b₆, b₇]) := by
  change some (b₀.setWidth 64 &&& BitVec.ofNat 64 255 |||
    ((b₁.setWidth 64 <<< 8) &&& (BitVec.ofNat 64 255 <<< 8)) |||
    ((b₂.setWidth 64 <<< 16) &&& (BitVec.ofNat 64 255 <<< 16)) |||
    ((b₃.setWidth 64 <<< 24) &&& (BitVec.ofNat 64 255 <<< 24)) |||
    ((b₄.setWidth 64 <<< 32) &&& (BitVec.ofNat 64 255 <<< 32)) |||
    ((b₅.setWidth 64 <<< 40) &&& (BitVec.ofNat 64 255 <<< 40)) |||
    ((b₆.setWidth 64 <<< 48) &&& (BitVec.ofNat 64 255 <<< 48)) |||
    ((b₇.setWidth 64 <<< 56) &&& (BitVec.ofNat 64 255 <<< 56))) = _
  rw [low_byte, shift_up_masked, shift_up_masked, shift_up_masked, shift_up_masked,
    shift_up_masked, shift_up_masked, shift_up_masked]
  simp [ofBytes, BitVec.shiftLeft_or_distrib, ← BitVec.shiftLeft_add, BitVec.or_assoc]

theorem bytes2ushort_cons (b₀ b₁ : Byte) (bs : List Byte) :
    bytes2ushort (b₀ :: b₁ :: bs) = some (ofBytes 16 [b₀, b₁]) := by
  change some (((((b₀.setWidth 32 &&& BitVec.ofNat 32 255).setWidth 16).setWidth 32) |||
    ((b₁.setWidth 32 <<< 8) &&& (BitVec.ofNat 32 255 <<< 8))).setWidth 16) = _
  rw [low_byte, shift_up_masked]
  simp only [ofBytes, Option.some.injEq]
  apply BitVec.eq_of_getLsbD_eq
  intro i hi
  simp [hi]

theorem bytes2short_cons (b₀ b₁ : Byte) (bs : List Byte) :
    bytes2short (b₀ :: b₁ :: bs) = some (ofBytes 16 [b₀, b₁]) := by
  change some (((((b₀.setWidth 32 &&& BitVec.ofNat 32 255).setWidth 16).signExtend 32) |||
    ((b₁.setWidth 32 <<< 8) &&& (BitVec.ofNat 32 255 <<< 8))).setWidth 16) = _
  rw [low_byte, shift_up_masked]
  simp only [ofBytes, Option.some.injEq]
  apply BitVec.eq_of_getLsbD_eq
  intro i hi
  simp [hi, show i < 32 by omega, BitVec.getElem_signExtend]

/-- An encoder and a decoder of one C type of `size` bytes. -/
structure ValueCodec (size : ℕ) where
  encode : BitVec (8 * size) → List Byte
  decode : List Byte → Option (BitVec (8 * size))
  encode_eq : ∀ v, encode v = bytesOf size v
  decode_eq : ∀ bytes, size ≤ bytes.length →
    decode bytes = some (ofBytes (8 * size) (bytes.take size))

namespace ValueCodec

variable {size : ℕ} (C : ValueCodec size)

@[simp] theorem encode_length (v : BitVec (8 * size)) : (C.encode v).length = size := by
  rw [C.encode_eq, bytesOf_length]

theorem flatMap_encode_length (vs : List (BitVec (8 * size))) :
    (vs.flatMap C.encode).length = vs.length * size := by
  simp [List.length_flatMap]

/-- A value survives its bytes, whatever follows them in the buffer. -/
theorem decode_encode (v : BitVec (8 * size)) (rest : List Byte) :
    C.decode (C.encode v ++ rest) = some v := by
  have htake : (C.encode v ++ rest).take size = bytesOf size v := by
    rw [← C.encode_eq]
    exact List.take_left' (C.encode_length v)
  rw [C.decode_eq _ (by rw [List.length_append, C.encode_length]; omega), htake, ofBytes_bytesOf]

end ValueCodec

theorem decode_two {f : List Byte → Option (BitVec 16)}
    (hf : ∀ b₀ b₁ bs, f (b₀ :: b₁ :: bs) = some (ofBytes 16 [b₀, b₁])) (bytes : List Byte)
    (h : 2 ≤ bytes.length) : f bytes = some (ofBytes 16 (bytes.take 2)) := by
  match bytes, h with
  | b₀ :: b₁ :: bs, _ => exact hf b₀ b₁ bs

theorem decode_four {f : List Byte → Option (BitVec 32)}
    (hf : ∀ b₀ b₁ b₂ b₃ bs, f (b₀ :: b₁ :: b₂ :: b₃ :: bs) =
      some (ofBytes 32 [b₀, b₁, b₂, b₃])) (bytes : List Byte)
    (h : 4 ≤ bytes.length) : f bytes = some (ofBytes 32 (bytes.take 4)) := by
  match bytes, h with
  | b₀ :: b₁ :: b₂ :: b₃ :: bs, _ => exact hf b₀ b₁ b₂ b₃ bs

theorem decode_eight {f : List Byte → Option (BitVec 64)}
    (hf : ∀ b₀ b₁ b₂ b₃ b₄ b₅ b₆ b₇ bs, f (b₀ :: b₁ :: b₂ :: b₃ :: b₄ :: b₅ :: b₆ :: b₇ :: bs) =
      some (ofBytes 64 [b₀, b₁, b₂, b₃, b₄, b₅, b₆, b₇])) (bytes : List Byte)
    (h : 8 ≤ bytes.length) : f bytes = some (ofBytes 64 (bytes.take 8)) := by
  match bytes, h with
  | b₀ :: b₁ :: b₂ :: b₃ :: b₄ :: b₅ :: b₆ :: b₇ :: bs, _ => exact hf b₀ b₁ b₂ b₃ b₄ b₅ b₆ b₇ bs

def shortCodec : ValueCodec 2 :=
  ⟨short2bytes, bytes2short, short2bytes_eq, decode_two bytes2short_cons⟩

def ushortCodec : ValueCodec 2 :=
  ⟨ushort2bytes, bytes2ushort, ushort2bytes_eq, decode_two bytes2ushort_cons⟩

def int32Codec : ValueCodec 4 :=
  ⟨int2bytes, bytes2int32, int2bytes_eq, decode_four bytes2int32_cons⟩

def uint32Codec : ValueCodec 4 :=
  ⟨uint2bytes, bytes2uint32, int2bytes_eq, decode_four bytes2int32_cons⟩

def int64Codec : ValueCodec 8 :=
  ⟨bigInt2bytes, bytes2bigInt, bigInt2bytes_eq, decode_eight bytes2bigInt_cons⟩

def uint64Codec : ValueCodec 8 :=
  ⟨ubigInt2bytes, bytes2ubigInt, ubigInt2bytes_eq, decode_eight bytes2bigInt_cons⟩

def floatCodec : ValueCodec 4 :=
  ⟨float2bytes, bytes2float, int2bytes_eq, decode_four bytes2int32_cons⟩

def doubleCodec : ValueCodec 8 :=
  ⟨double2bytes, bytes2double, bigInt2bytes_eq, decode_eight bytes2bigInt_cons⟩

/-- The C types with a single-value reader and writer. -/
inductive ValueType where
  | short
  | ushort
  | int32
  | uint32
  | int64
  | uint64
  | float
  | double
  deriving DecidableEq, Repr

namespace ValueType

/-- The words that a value takes. -/
def words : ValueType → ℕ
  | short | ushort => 1
  | int32 | uint32 | float => 2
  | int64 | uint64 | double => 4

def codec : (T : ValueType) → ValueCodec (2 * T.words)
  | short => shortCodec
  | ushort => ushortCodec
  | int32 => int32Codec
  | uint32 => uint32Codec
  | int64 => int64Codec
  | uint64 => uint64Codec
  | float => floatCodec
  | double => doubleCodec

/-- A value of the type, as its bits. -/
abbrev Value (T : ValueType) : Type := BitVec (8 * (2 * T.words))

theorem words_pos (T : ValueType) : 0 < T.words := by cases T <;> decide

end ValueType

end MelsecMc
