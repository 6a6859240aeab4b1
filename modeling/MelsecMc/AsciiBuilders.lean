import MelsecMc.Checksum
import MelsecMc.RequestAgreement

/-!
# The ASCII builders of melsec_helper.c

melsec_helper.c has builders of its own for the ASCII core commands, which no public
function calls. They put the bytes of the start address and of the point count in the
order of the binary frame, the low byte first, write start addresses in base 16 for
every device, and do not exchange the bytes of a word. The two families write the same
text where the order of the bytes makes no difference.
-/
namespace MelsecMc

open Numeral (write)

/-- `build_ascii_bytes_from_int`. -/
def buildAsciiBytesFromInt (data : ℤ) : ByteArrayInfo :=
  ⟨some ([toByte data, toByte (shiftRight data 8), toByte (shiftRight data 16),
    toByte (shiftRight data 24)].flatMap hexStrPair), 8⟩

/-- `build_bytes_from_address`. The data type is not looked at. -/
def buildBytesFromAddress (address : ℤ) (_type : MelsecMcDataType) : ByteArrayInfo :=
  buildAsciiBytesFromInt address

/-- The twenty characters before the data. Six of the eight characters of the start address and
the four of the point count are copied. -/
def helperAsciiHeader (command : List Char) (address_data : MelsecMcAddressData) : List Byte :=
  let start := buildBytesFromAddress address_data.addressStart address_data.dataType
  let points := buildAsciiBytesFromUshort (toUShort address_data.length)
  text command ++ [address_data.dataType.asciiCode.1, address_data.dataType.asciiCode.2] ++
    (start.data.getD []).take 6 ++ (points.data.getD []).take 4

/-- `build_ascii_read_core_command`. -/
def buildAsciiReadCoreCommand (address_data : MelsecMcAddressData) (is_bit : Bool) :
    ByteArrayInfo :=
  .ofList (helperAsciiHeader
    (['0', '4', '0', '1'] ++ if is_bit then ['0', '0', '0', '1'] else ['0', '0', '0', '0'])
    address_data)

/-- The end of both write builders. `val_len` is the length of the value, and `buffer` its text.
Without text the buffer of the command has to hold the header. -/
def helperAsciiCommand (command : List Char) (address_data : MelsecMcAddressData) (val_len : ℤ)
    (buffer : ByteArrayInfo) : Option ByteArrayInfo :=
  let val_len := if buffer.data.isSome then buffer.length else val_len
  if malloc (toInt32 (20 + val_len)) then
    match buffer.data with
    | some content => (memcpy content val_len).map fun content =>
        ⟨some (helperAsciiHeader command address_data ++ content), toInt32 (20 + val_len)⟩
    | none =>
      if 0 ≤ val_len then some ⟨some (helperAsciiHeader command address_data),
        toInt32 (20 + val_len)⟩
      else none
  else some .empty

/-- `build_ascii_write_word_core_command`. -/
def buildAsciiWriteWordCoreCommand (address_data : MelsecMcAddressData) (value : ByteArrayInfo) :
    Option ByteArrayInfo :=
  let val_len := if value.data.isSome then value.length else 0
  (buildAsciiBytesFromByteArray value.data val_len).bind
    (helperAsciiCommand ['1', '4', '0', '1', '0', '0', '0', '0'] address_data val_len)

/-- `build_ascii_write_bit_core_command`. -/
def buildAsciiWriteBitCoreCommand (address_data : MelsecMcAddressData) (value : BoolArrayInfo) :
    Option ByteArrayInfo :=
  let val_len := if value.data.isSome then value.length else 0
  (buildAsciiBytesFromBoolArray value.data val_len).bind
    (helperAsciiCommand ['1', '4', '0', '1', '0', '0', '0', '1'] address_data val_len)

/-- What both families build. -/
inductive CoreCommand where
  | read (is_bit : Bool)
  | writeWord (payload : List Byte)
  | writeBit (points : List Bool)

namespace CoreCommand

/-- As melsec_helper.c builds it. -/
def helper (address_data : MelsecMcAddressData) : CoreCommand → Option ByteArrayInfo
  | read is_bit => some (buildAsciiReadCoreCommand address_data is_bit)
  | writeWord payload => buildAsciiWriteWordCoreCommand address_data (.ofList payload)
  | writeBit points => buildAsciiWriteBitCoreCommand address_data ⟨some points, points.length⟩

/-- As melsec_mc_ascii.c builds it. -/
def mcAscii (address_data : MelsecMcAddressData) : CoreCommand → Option ByteArrayInfo
  | read is_bit => some (mcAsciiBuildReadCoreCommand address_data is_bit)
  | writeWord payload => mcAsciiBuildWriteWordCoreCommand address_data (.ofList payload)
  | writeBit points => mcAsciiBuildWriteBitCoreCommand address_data ⟨some points, points.length⟩

/-- A payload is not empty, consists of whole words and has a length that is an `int`. -/
def Valid : CoreCommand → Prop
  | read _ => True
  | writeWord payload => payload ≠ [] ∧ payload.length % 2 = 0 ∧ payload.length < 2 ^ 31
  | writeBit points => points ≠ [] ∧ points.length < 2 ^ 31

instance : DecidablePred Valid
  | read _ => .isTrue trivial
  | writeWord payload => inferInstanceAs
      (Decidable (payload ≠ [] ∧ payload.length % 2 = 0 ∧ payload.length < 2 ^ 31))
  | writeBit points => inferInstanceAs (Decidable (points ≠ [] ∧ points.length < 2 ^ 31))

/-- Both builders produce a command, of the same characters. -/
def BuiltAlike (address_data : MelsecMcAddressData) (c : CoreCommand) : Prop :=
  ∃ chars, c.helper address_data = some (.ofList chars) ∧
    c.mcAscii address_data = some (.ofList chars)

end CoreCommand

/-- The two bytes of every word are equal. -/
def EqualBytes : List Byte → Prop
  | b₀ :: b₁ :: bytes => b₀ = b₁ ∧ EqualBytes bytes
  | _ => True

instance EqualBytes.decidable : DecidablePred EqualBytes
  | [] => .isTrue trivial
  | [_] => .isTrue trivial
  | b₀ :: b₁ :: bytes =>
    have := EqualBytes.decidable bytes
    inferInstanceAs (Decidable (b₀ = b₁ ∧ EqualBytes bytes))

/-- The text of the start address is the same in both orders: in base 16 where the low and the
high byte are equal, in base 10 for 0 and for 545108, which is 0x085154. -/
def SameStart (d : MelsecMcDataType) (start : ℕ) : Prop :=
  if d.fromBase = 16 then start % 256 = start / 65536 else start = 0 ∨ start = 545108

instance (d : MelsecMcDataType) (start : ℕ) : Decidable (SameStart d start) :=
  inferInstanceAs (Decidable (if d.fromBase = 16 then _ else _))

/-- The text of the payload is the same without exchanging bytes, and fits an `int` with the
header. -/
def CoreCommand.SamePayload : CoreCommand → Prop
  | read _ => True
  | writeWord payload => EqualBytes payload ∧ 20 + 2 * payload.length < 2 ^ 31
  | writeBit points => 20 + points.length < 2 ^ 31

instance : DecidablePred CoreCommand.SamePayload
  | .read _ => .isTrue trivial
  | .writeWord payload =>
    inferInstanceAs (Decidable (EqualBytes payload ∧ 20 + 2 * payload.length < 2 ^ 31))
  | .writeBit points => inferInstanceAs (Decidable (20 + points.length < 2 ^ 31))

section Start

theorem decimal_symbol_eq : ∀ x < 10, ∀ y < 16,
    decimalAlphabet.symbol x = hexAlphabet.symbol y ↔ x = y := by decide

/-- Five digits with the decimal weights on one side and those of the bytes on the other. -/
theorem digits_balance : ∀ x₅ x₄ x₀ : Fin 10,
    33328 * x₅.val + 3333 * x₄.val < 21845 * x₀.val ∨
      21845 * x₀.val + 9756 < 33328 * x₅.val + 3333 * x₄.val ∨
      ∀ x₃ x₂ : Fin 10, 33328 * x₅.val + 3333 * x₄.val =
        1032 * x₃.val + 52 * x₂.val + 21845 * x₀.val →
      (x₅.val = 0 ∧ x₄.val = 0 ∧ x₃.val = 0 ∧ x₂.val = 0 ∧ x₀.val = 0) ∨
        (x₅.val = 5 ∧ x₄.val = 4 ∧ x₃.val = 5 ∧ x₂.val = 1 ∧ x₀.val = 8) := by
  decide +kernel

/-- Only 0 and 545108 have the same digits in base 10 and as bytes in base 16. -/
theorem eq_of_digits {a x₅ x₄ x₃ x₂ x₁ x₀ : ℕ} (h₅ : x₅ < 10) (h₄ : x₄ < 10) (h₃ : x₃ < 10)
    (h₂ : x₂ < 10) (h₀ : x₀ < 10)
    (hdecimal : a = 100000 * x₅ + 10000 * x₄ + 1000 * x₃ + 100 * x₂ + 10 * x₁ + x₀)
    (hhex : a = 16 * x₅ + x₄ + 256 * (16 * x₃ + x₂) + 65536 * (16 * x₁ + x₀)) :
    a = 0 ∨ a = 545108 := by
  obtain rfl : x₁ = 0 := by
    by_contra hpos
    have hone : 1 ≤ x₁ := by omega
    linarith
  have hsum : 33328 * x₅ + 3333 * x₄ = 1032 * x₃ + 52 * x₂ + 21845 * x₀ := by linarith
  rcases digits_balance ⟨x₅, h₅⟩ ⟨x₄, h₄⟩ ⟨x₀, h₀⟩ with hlt | hlt | hall
  · simp only at hlt
    linarith
  · simp only at hlt
    linarith
  · have hdigits := hall ⟨x₃, h₃⟩ ⟨x₂, h₂⟩ hsum
    simp only at hdigits
    rcases hdigits with ⟨rfl, rfl, rfl, rfl, rfl⟩ | ⟨rfl, rfl, rfl, rfl, rfl⟩
    · left
      omega
    · right
      omega

/-- Two digits of a byte. -/
theorem write_two_inj {m n : ℕ} (hm : m < 256) (hn : n < 256)
    (h : write hexAlphabet 2 m = write hexAlphabet 2 n) : m = n :=
  Numeral.write_inj hexAlphabet hm hn h

/-- The six characters of the start address that are copied: its bytes, the low one first. -/
theorem start_text {a : ℕ} (ha : a < 2 ^ 24) (d : MelsecMcDataType) :
    ((buildBytesFromAddress a d).data.getD []).take 6 =
      write hexAlphabet 2 (a % 256) ++ write hexAlphabet 2 (a / 256 % 256) ++
        write hexAlphabet 2 (a / 65536) := by
  have hlow : (toByte a).toNat = a % 256 := by rw [toByte_toNat]; omega
  have hmid : (toByte (shiftRight a 8)).toNat = a / 256 % 256 := by
    rw [toByte_toNat, shiftRight]
    omega
  have hhigh : (toByte (shiftRight a 16)).toNat = a / 65536 := by
    rw [toByte_toNat, shiftRight]
    omega
  rw [← hlow, ← hmid, ← hhigh, ← hexStrPair_eq, ← hexStrPair_eq, ← hexStrPair_eq]
  rfl

/-- In base 16 the middle byte is in its place. -/
theorem start_text_hex_iff {a : ℕ} (ha : a < 2 ^ 24) :
    write hexAlphabet 2 (a % 256) ++ write hexAlphabet 2 (a / 256 % 256) ++
        write hexAlphabet 2 (a / 65536) = write hexAlphabet 6 a ↔ a % 256 = a / 65536 := by
  have hsplit : write hexAlphabet 6 a = write hexAlphabet 2 (a / 65536) ++
      write hexAlphabet 2 (a / 256 % 256) ++ write hexAlphabet 2 (a % 256) := by
    have hfour := Numeral.write_append hexAlphabet 4 2 a
    have htwo := Numeral.write_append hexAlphabet 2 2 (a / 256)
    have hlow := Numeral.write_mod hexAlphabet 2 a
    have hmid := Numeral.write_mod hexAlphabet 2 (a / 256)
    have hbase : hexAlphabet.base ^ 2 = 256 := rfl
    rw [hbase] at hfour htwo hlow hmid
    rw [← hfour, ← htwo, hlow, hmid, Nat.div_div_eq_div_mul]
  rw [hsplit]
  constructor
  · intro h
    obtain ⟨-, hlast⟩ := List.append_inj h (by simp)
    exact write_two_inj (Nat.mod_lt _ (by omega)) (by omega) hlast.symm
  · intro h
    rw [h]

/-- In base 10 there are two addresses whose digits are their bytes in base 16, the low one
first. -/
theorem start_text_decimal_iff {a : ℕ} (ha : a < 10 ^ 6) :
    write hexAlphabet 2 (a % 256) ++ write hexAlphabet 2 (a / 256 % 256) ++
        write hexAlphabet 2 (a / 65536) = write decimalAlphabet 6 a ↔ a = 0 ∨ a = 545108 := by
  constructor
  · intro h
    have hhex : ∀ n, write hexAlphabet 2 n =
        [hexAlphabet.symbol (n / 16 % 16), hexAlphabet.symbol (n % 16)] := fun _ => rfl
    have hdecimal : write decimalAlphabet 6 a =
        [a / 10 / 10 / 10 / 10 / 10 % 10, a / 10 / 10 / 10 / 10 % 10, a / 10 / 10 / 10 % 10,
          a / 10 / 10 % 10, a / 10 % 10, a % 10].map decimalAlphabet.symbol := rfl
    rw [hhex, hhex, hhex, hdecimal] at h
    simp only [List.cons_append, List.nil_append, List.map_cons, List.map_nil, List.cons.injEq,
      and_true] at h
    have hdigit : ∀ x y, hexAlphabet.symbol (y % 16) = decimalAlphabet.symbol (x % 10) →
        x % 10 = y % 16 := fun x y hxy =>
      (decimal_symbol_eq _ (Nat.mod_lt _ (by omega)) _ (Nat.mod_lt _ (by omega))).mp hxy.symm
    obtain ⟨h₅, h₄, h₃, h₂, h₁, h₀⟩ := h
    have hhexsum : a = 16 * (a % 256 / 16 % 16) + a % 256 % 16 +
        256 * (16 * (a / 256 % 256 / 16 % 16) + a / 256 % 256 % 16) +
        65536 * (16 * (a / 65536 / 16 % 16) + a / 65536 % 16) := by omega
    rw [← hdigit _ _ h₅, ← hdigit _ _ h₄, ← hdigit _ _ h₃, ← hdigit _ _ h₂, ← hdigit _ _ h₁,
      ← hdigit _ _ h₀] at hhexsum
    have hdecimalsum : a = 100000 * (a / 10 / 10 / 10 / 10 / 10 % 10) +
        10000 * (a / 10 / 10 / 10 / 10 % 10) + 1000 * (a / 10 / 10 / 10 % 10) +
        100 * (a / 10 / 10 % 10) + 10 * (a / 10 % 10) + a % 10 := by
      clear hhexsum h₅ h₄ h₃ h₂ h₁ h₀ hdigit
      omega
    have hten : ∀ x, x % 10 < 10 := fun x => Nat.mod_lt x (by omega)
    exact eq_of_digits (hten _) (hten _) (hten _) (hten _) (hten _) hdecimalsum hhexsum
  · rintro (rfl | rfl)
    · decide
    · decide

end Start

section Header

variable {d : MelsecMcDataType} {a n : ℕ}

/-- The four characters of the point count, the low byte first. -/
theorem points_text {n : ℕ} (hn : n < 2 ^ 16) :
    ((buildAsciiBytesFromUshort n).data.getD []).take 4 =
      write hexAlphabet 2 (n % 256) ++ write hexAlphabet 2 (n / 256) := by
  have hhigh : (BitVec.ofNat 8 (n / 256)).toNat = n / 256 := by
    rw [BitVec.toNat_ofNat]
    omega
  have hbytes := buildAsciiBytesFromUshort_eq n
  rw [Nat.mod_eq_of_lt hn, hexStrPair_eq, hhigh] at hbytes
  have hlow := Numeral.write_mod hexAlphabet 2 n
  rw [hbytes, ← hlow]
  rfl

theorem points_text_iff (hn : n < 2 ^ 16) :
    write hexAlphabet 2 (n % 256) ++ write hexAlphabet 2 (n / 256) = write hexAlphabet 4 n ↔
      n % 256 = n / 256 := by
  have hsplit := Numeral.write_append hexAlphabet 2 2 n
  have hlow := Numeral.write_mod hexAlphabet 2 n
  have hbase : hexAlphabet.base ^ 2 = 256 := rfl
  rw [hbase] at hsplit hlow
  rw [← hsplit, ← hlow]
  constructor
  · intro h
    obtain ⟨hfirst, -⟩ := List.append_inj h (by simp)
    exact write_two_inj (Nat.mod_lt _ (by omega)) (by omega) hfirst
  · intro h
    rw [h]

theorem helperAsciiHeader_eq (command : List Char) (ha : a ≤ d.maxStart) (hn : n < 2 ^ 16) :
    helperAsciiHeader command ⟨d, a, n⟩ = text command ++ [d.asciiCode.1, d.asciiCode.2] ++
      (write hexAlphabet 2 (a % 256) ++ write hexAlphabet 2 (a / 256 % 256) ++
        write hexAlphabet 2 (a / 65536)) ++
      (write hexAlphabet 2 (n % 256) ++ write hexAlphabet 2 (n / 256)) := by
  have hlt := lt_of_le_of_lt ha d.maxStart_lt_binary
  simp only [helperAsciiHeader, toUShort_eq hn, start_text hlt, points_text hn]

theorem helperAsciiHeader_length {command : List Char} (hcommand : command.length = 8)
    (ha : a ≤ d.maxStart) (hn : n < 2 ^ 16) :
    (helperAsciiHeader command ⟨d, a, n⟩).length = 20 := by
  rw [helperAsciiHeader_eq command ha hn]
  simp [text, hcommand]

/-- The text of a start address is the same in both families for these addresses only. -/
theorem start_text_iff (ha : a ≤ d.maxStart) :
    write hexAlphabet 2 (a % 256) ++ write hexAlphabet 2 (a / 256 % 256) ++
        write hexAlphabet 2 (a / 65536) = write d.alphabet 6 a ↔ SameStart d a := by
  have hlt := lt_of_le_of_lt ha d.maxStart_lt_binary
  rw [MelsecMcDataType.maxStart] at ha
  rw [SameStart, MelsecMcDataType.alphabet]
  split_ifs with hbase
  · exact start_text_hex_iff hlt
  · rw [if_neg hbase] at ha
    exact start_text_decimal_iff (by omega)

/-- Both families write the same header for the same start address and a count whose two bytes are
equal. -/
theorem header_iff (command : List Char) (ha : a ≤ d.maxStart) (hn : n < 2 ^ 16) :
    asciiCoreHeader command ⟨d, a, n⟩ = some (helperAsciiHeader command ⟨d, a, n⟩) ↔
      SameStart d a ∧ n % 256 = n / 256 := by
  rw [asciiCoreHeader_eq command ha, helperAsciiHeader_eq command ha hn, toUShort_eq hn,
    mcAsciiWriteHexU16Be_eq hn, Option.some.injEq, ← start_text_iff ha, ← points_text_iff hn]
  constructor
  · intro h
    obtain ⟨hfront, hpoints⟩ := List.append_inj h (by simp)
    exact ⟨(List.append_inj hfront rfl).2.symm, hpoints.symm⟩
  · rintro ⟨hstart, hpoints⟩
    rw [hstart, hpoints]

end Header

section Payload

theorem swapWords_eq_iff (bytes : List Byte) : swapWords bytes = bytes ↔ EqualBytes bytes := by
  induction bytes using swapWords.induct with
  | case1 b₀ b₁ bytes ih =>
    rw [swapWords, EqualBytes, List.cons.injEq, List.cons.injEq, ih]
    exact ⟨fun h => ⟨h.2.1, h.2.2⟩, fun h => ⟨h.1.symm, h.1, h.2⟩⟩
  | case2 bytes hshort =>
    obtain rfl | ⟨b, rfl⟩ := eq_nil_or_singleton hshort
    · exact ⟨fun _ => trivial, fun _ => rfl⟩
    · exact ⟨fun _ => trivial, fun _ => rfl⟩

/-- Different bytes have different text. -/
theorem flatMap_hexStrPair_inj {bytes bytes' : List Byte}
    (h : bytes.flatMap hexStrPair = bytes'.flatMap hexStrPair) : bytes = bytes' := by
  have hread := congrArg hexPairsToBytes h
  rw [hexPairsToBytes_flatMap, hexPairsToBytes_flatMap] at hread
  exact Option.some.inj hread

variable {d : MelsecMcDataType} {a n : ℕ} {content content' : List Byte} {command : List Char}

theorem helperAsciiCommand_ofList (val_len : ℤ) (hcommand : command.length = 8)
    (ha : a ≤ d.maxStart) (hn : n < 2 ^ 16) (h : 20 + content.length < 2 ^ 31) :
    helperAsciiCommand command ⟨d, a, n⟩ val_len (.ofList content) =
      some (.ofList (helperAsciiHeader command ⟨d, a, n⟩ ++ content)) := by
  have hlen : toInt32 (20 + (content.length : ℤ)) = 20 + content.length :=
    toInt32_eq ⟨by omega, by omega⟩
  have hroom : malloc (20 + (content.length : ℤ)) = true := decide_eq_true (by omega)
  simp only [helperAsciiCommand, ByteArrayInfo.ofList_data, ByteArrayInfo.ofList_length,
    Option.isSome_some, if_true, hlen, hroom, memcpy_length, Option.map_some]
  simp only [ByteArrayInfo.ofList, List.length_append, helperAsciiHeader_length hcommand ha hn]
  push_cast
  rfl

/-- The ends of the write builders with text of the same length. -/
theorem write_iff (command : List Char) (content content' : List Byte) (val_len : ℤ)
    (hcommand : command.length = 8) (ha : a ≤ d.maxStart) (hn : n < 2 ^ 16) (h0 : content ≠ [])
    (hlen : content'.length = content.length) (hint : content.length < 2 ^ 31) :
    (∃ chars, helperAsciiCommand command ⟨d, a, n⟩ val_len (.ofList content) =
        some (.ofList chars) ∧
      asciiCoreCommand command ⟨d, a, n⟩ (.ofList content') = .ofList chars) ↔
      (SameStart d a ∧ n % 256 = n / 256) ∧ content = content' ∧ 20 + content.length < 2 ^ 31 := by
  by_cases hfits : 20 + content.length < 2 ^ 31
  · have hne : content' ≠ [] := List.ne_nil_of_length_pos (hlen ▸ List.length_pos_iff.mpr h0)
    rw [helperAsciiCommand_ofList val_len hcommand ha hn hfits,
      asciiCoreCommand_ofList _ hcommand hne (by omega), ← header_iff command ha hn]
    obtain ⟨header, hheader⟩ : ∃ header, asciiCoreHeader command ⟨d, a, n⟩ = some header :=
      ⟨_, asciiCoreHeader_eq command ha n⟩
    have hsize := asciiCoreHeader_length hcommand hheader
    have hsize' := helperAsciiHeader_length hcommand ha hn
    simp only [hheader, Option.elim_some, Option.some.injEq, ByteArrayInfo.ofList_inj]
    constructor
    · rintro ⟨chars, rfl, hchars⟩
      obtain ⟨hhead, htail⟩ := List.append_inj hchars (by omega)
      exact ⟨hhead, htail.symm, hfits⟩
    · rintro ⟨rfl, rfl, -⟩
      exact ⟨_, rfl, rfl⟩
  · rw [asciiCoreCommand_refused _ (by omega) (by omega)]
    constructor
    · rintro ⟨chars, -, hchars⟩
      cases hchars
    · rintro ⟨-, -, h⟩
      exact absurd h hfits

theorem read_iff (is_bit : Bool) (ha : a ≤ d.maxStart) (hn : n < 2 ^ 16) :
    (CoreCommand.read is_bit).BuiltAlike ⟨d, a, n⟩ ↔ SameStart d a ∧ n % 256 = n / 256 := by
  have hiff := header_iff
    (['0', '4', '0', '1'] ++ if is_bit then ['0', '0', '0', '1'] else ['0', '0', '0', '0']) ha hn
  obtain ⟨header, hheader⟩ : ∃ header, asciiCoreHeader
      (['0', '4', '0', '1'] ++ if is_bit then ['0', '0', '0', '1'] else ['0', '0', '0', '0'])
      ⟨d, a, n⟩ = some header := ⟨_, asciiCoreHeader_eq _ ha n⟩
  rw [← hiff]
  simp only [CoreCommand.BuiltAlike, CoreCommand.helper, CoreCommand.mcAscii,
    buildAsciiReadCoreCommand, mcAsciiBuildReadCoreCommand, hheader, Option.some.injEq,
    ByteArrayInfo.ofList_inj]
  constructor
  · rintro ⟨chars, rfl, hchars⟩
    exact hchars
  · rintro rfl
    exact ⟨_, rfl, rfl⟩

theorem buildAsciiWriteWordCoreCommand_ofList (address_data : MelsecMcAddressData)
    {payload : List Byte} (h0 : payload ≠ []) (h : payload.length < 2 ^ 30) :
    buildAsciiWriteWordCoreCommand address_data (.ofList payload) =
      helperAsciiCommand ['1', '4', '0', '1', '0', '0', '0', '0'] address_data payload.length
        (.ofList (payload.flatMap hexStrPair)) := by
  change (buildAsciiBytesFromByteArray (some payload) payload.length).bind _ = _
  rw [buildAsciiBytesFromByteArray_ofList h0 h, Option.bind_some]
  rfl

theorem writeWord_iff {payload : List Byte} (h0 : payload ≠ []) (heven : payload.length % 2 = 0)
    (hint : payload.length < 2 ^ 31) (ha : a ≤ d.maxStart) (hn : n < 2 ^ 16) :
    (CoreCommand.writeWord payload).BuiltAlike ⟨d, a, n⟩ ↔
      (SameStart d a ∧ n % 256 = n / 256) ∧ EqualBytes payload ∧
        20 + 2 * payload.length < 2 ^ 31 := by
  have hpos := List.length_pos_iff.mpr h0
  by_cases hfits : payload.length < 2 ^ 30
  · have hlen := hexStrPair_flatMap_length payload
    have hswapped := hexStrPair_flatMap_length (swapWords payload)
    rw [swapWords_length] at hswapped
    have hwrite := write_iff ['1', '4', '0', '1', '0', '0', '0', '0'] (payload.flatMap hexStrPair)
      ((swapWords payload).flatMap hexStrPair) payload.length rfl ha hn
      (List.ne_nil_of_length_pos (by omega)) (hswapped.trans hlen.symm) (by omega)
    have htext : payload.flatMap hexStrPair = (swapWords payload).flatMap hexStrPair ↔
        EqualBytes payload := by
      rw [← swapWords_eq_iff]
      exact ⟨fun h => (flatMap_hexStrPair_inj h).symm, fun h => by rw [h]⟩
    rw [htext, hlen] at hwrite
    rw [← hwrite]
    simp only [CoreCommand.BuiltAlike, CoreCommand.helper, CoreCommand.mcAscii,
      buildAsciiWriteWordCoreCommand_ofList _ h0 hfits,
      mcAsciiBuildWriteWordCoreCommand_eq _ h0 heven,
      buildAsciiBytesFromByteArray_swapWords h0 hfits, Option.map_some, Option.some.injEq]
  · simp only [CoreCommand.BuiltAlike, CoreCommand.mcAscii,
      mcAsciiBuildWriteWordCoreCommand_fault _ heven (by omega) hint]
    constructor
    · rintro ⟨chars, -, hchars⟩
      cases hchars
    · rintro ⟨-, -, h⟩
      omega

/-- A bit as the digit 0 or 1, in both families. -/
def bitText (points : List Bool) : List Byte := points.map fun p => if p then 0x31 else 0x30

theorem buildAsciiBytesFromBoolArray_ofList {points : List Bool} (h0 : points ≠ []) :
    buildAsciiBytesFromBoolArray (some points) points.length = some (.ofList (bitText points)) := by
  have hpos := List.length_pos_iff.mpr h0
  simp only [buildAsciiBytesFromBoolArray]
  rw [if_pos (by omega), if_pos le_rfl]
  simp [ByteArrayInfo.ofList, bitText]

theorem buildAsciiWriteBitCoreCommand_ofList (address_data : MelsecMcAddressData)
    {points : List Bool} (h0 : points ≠ []) :
    buildAsciiWriteBitCoreCommand address_data ⟨some points, points.length⟩ =
      helperAsciiCommand ['1', '4', '0', '1', '0', '0', '0', '1'] address_data points.length
        (.ofList (bitText points)) := by
  change (buildAsciiBytesFromBoolArray (some points) points.length).bind _ = _
  rw [buildAsciiBytesFromBoolArray_ofList h0, Option.bind_some]
  rfl

theorem mcAsciiBuildWriteBitCoreCommand_ofList (address_data : MelsecMcAddressData)
    {points : List Bool} (h0 : points ≠ []) :
    mcAsciiBuildWriteBitCoreCommand address_data ⟨some points, points.length⟩ =
      some (asciiCoreCommand ['1', '4', '0', '1', '0', '0', '0', '1'] address_data
        (.ofList (bitText points))) := by
  have hpos := List.length_pos_iff.mpr h0
  simp only [mcAsciiBuildWriteBitCoreCommand, buildAsciiBytesFromBoolArray_ofList h0,
    Option.bind_some, Option.bind_eq_bind, Option.pure_def]
  rw [if_neg (by omega)]

theorem writeBit_iff {points : List Bool} (h0 : points ≠ []) (hint : points.length < 2 ^ 31)
    (ha : a ≤ d.maxStart) (hn : n < 2 ^ 16) :
    (CoreCommand.writeBit points).BuiltAlike ⟨d, a, n⟩ ↔
      (SameStart d a ∧ n % 256 = n / 256) ∧ 20 + points.length < 2 ^ 31 := by
  have hlen : (bitText points).length = points.length := List.length_map ..
  have hpos := List.length_pos_iff.mpr h0
  have hwrite := write_iff ['1', '4', '0', '1', '0', '0', '0', '1'] (bitText points)
    (bitText points) points.length rfl ha hn (List.ne_nil_of_length_pos (by omega)) rfl (by omega)
  simp only [true_and, hlen] at hwrite
  rw [← hwrite]
  simp only [CoreCommand.BuiltAlike, CoreCommand.helper, CoreCommand.mcAscii,
    buildAsciiWriteBitCoreCommand_ofList _ h0, mcAsciiBuildWriteBitCoreCommand_ofList _ h0,
    Option.some.injEq]

end Payload

/-- The two families build the same characters if and only if the order of the bytes makes no
difference in any field, and a payload fits an `int` with its header: for every device, start
address of six characters, point count and payload. -/
theorem builders_agree_iff (c : CoreCommand) (d : MelsecMcDataType) (start points : ℕ)
    (hc : c.Valid) (hstart : start ≤ d.maxStart) (hpoints : points ≤ 65535) :
    c.BuiltAlike ⟨d, start, points⟩ ↔
      (SameStart d start ∧ points % 256 = points / 256) ∧ c.SamePayload := by
  have hn : points < 2 ^ 16 := by omega
  cases c with
  | read is_bit => simpa [CoreCommand.SamePayload] using read_iff is_bit hstart hn
  | writeWord payload => exact writeWord_iff hc.1 hc.2.1 hc.2.2 hstart hn
  | writeBit bits => exact writeBit_iff hc.1 hc.2 hstart hn

/-- A write of 257 points from W120012 on, and one of a word with equal bytes to D545108. -/
theorem builders_agree_iff_symmetric :
    (CoreCommand.writeBit [true, false]).BuiltAlike ⟨deviceW, 0x120012, 257⟩ ∧
      (CoreCommand.writeWord [0x41, 0x41]).BuiltAlike ⟨deviceD, 545108, 0⟩ :=
  ⟨(builders_agree_iff (.writeBit [true, false]) deviceW 0x120012 257 (by decide) (by decide)
      (by decide)).mpr (by decide),
    (builders_agree_iff (.writeWord [0x41, 0x41]) deviceD 545108 0 (by decide) (by decide)
      (by decide)).mpr (by decide)⟩

/-- A read of one word at D100. -/
theorem builders_differ :
    buildAsciiReadCoreCommand ⟨deviceD, 100, 1⟩ false = .ofList (text
        ['0', '4', '0', '1', '0', '0', '0', '0', 'D', '*', '6', '4', '0', '0', '0', '0',
          '0', '1', '0', '0']) ∧
      mcAsciiBuildReadCoreCommand ⟨deviceD, 100, 1⟩ false = .ofList (text
        ['0', '4', '0', '1', '0', '0', '0', '0', 'D', '*', '0', '0', '0', '1', '0', '0',
          '0', '0', '0', '1']) ∧
      ¬ (CoreCommand.read false).BuiltAlike ⟨deviceD, 100, 1⟩ := by
  have hhelper : buildAsciiReadCoreCommand ⟨deviceD, 100, 1⟩ false = .ofList (text
      ['0', '4', '0', '1', '0', '0', '0', '0', 'D', '*', '6', '4', '0', '0', '0', '0',
        '0', '1', '0', '0']) := by decide
  have hmcAscii : mcAsciiBuildReadCoreCommand ⟨deviceD, 100, 1⟩ false = .ofList (text
      ['0', '4', '0', '1', '0', '0', '0', '0', 'D', '*', '0', '0', '0', '1', '0', '0',
        '0', '0', '0', '1']) := by decide
  refine ⟨hhelper, hmcAscii, ?_⟩
  rintro ⟨chars, hchars, hchars'⟩
  have hsame := hchars.trans hchars'.symm
  rw [CoreCommand.helper, CoreCommand.mcAscii, hhelper, hmcAscii] at hsame
  exact absurd hsame (by decide)

end MelsecMc
