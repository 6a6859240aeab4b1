import MelsecMc.ConsistentFrames

/-!
# The counts in the requests

A call does what it should when it is refused before anything is sent, or sends
a request whose counts are those of the caller. The conditions below say for
every public function for which arguments this is so.
-/
namespace MelsecMc

/-- The points that the caller asks for. A string takes a word for every two bytes begun. -/
def Access.asked : Access → ℤ
  | readBool _ => 1
  | readValue T _ => T.words
  | readString length _ _ => (length + 1) / 2
  | writeBool _ => 1
  | writeValue T _ => T.words
  | writeString length _ _ => (length + 1) / 2

def Access.carried : Access → Carried
  | readBool _ => .nothing
  | readValue _ _ => .nothing
  | readString _ _ _ => .nothing
  | writeBool _ => .bits
  | writeValue _ _ => .words
  | writeString _ _ _ => .words

def BatchAccess.asked : BatchAccess → ℤ
  | readBool length _ _ => length
  | read T length _ _ => length * T.type.words
  | writeBool length _ _ => length
  | write T length _ _ => length * T.type.words

def BatchAccess.carried : BatchAccess → Carried
  | readBool _ _ _ => .nothing
  | read _ _ _ _ => .nothing
  | writeBool _ _ _ => .bits
  | write _ _ _ _ => .words

/-- When a call of the binary module is refused, or sends a request with the right counts. -/
def Access.BinaryCounts (fd : ℤ) (address : Option CString) : Access → Prop
  | readBool val => (fd ≤ 0 ∨ address.isNone ∨ ¬ val) ∨ Parsed address True
  | readValue _ val => (fd ≤ 0 ∨ address.isNone ∨ ¬ val) ∨ Parsed address True
  | readString length _ _ => (fd ≤ 0 ∨ address.isNone ∨ length ≤ 0 ∨ length = 2 ^ 31 - 1) ∨
      Parsed address (length ≤ 131070)
  | writeBool _ => (fd ≤ 0 ∨ address.isNone) ∨ Parsed address True
  | writeValue _ _ => (fd ≤ 0 ∨ address.isNone) ∨ Parsed address True
  | writeString length _ val =>
      (val.isNone ∨ fd ≤ 0 ∨ address.isNone ∨ length < 0 ∨ length = 2 ^ 31 - 1) ∨
        Parsed address (length ≤ 65522 ∨ 2 ^ 31 - 21 ≤ length)

/-- The same for the ASCII module. From `2 ^ 30 - 1` on, the write of a string leaves its
buffers. -/
def Access.AsciiCounts (fd : ℤ) (address : Option CString) : Access → Prop
  | readBool val => (fd ≤ 0 ∨ address.isNone ∨ ¬ val) ∨ Parsed address True
  | readValue _ val => (fd ≤ 0 ∨ address.isNone ∨ ¬ val) ∨ Parsed address True
  | readString length _ val =>
      (fd ≤ 0 ∨ address.isNone ∨ length ≤ 0 ∨ ¬ val ∨ length = 2 ^ 31 - 1) ∨
        Parsed address (NegativeStart address ∨ length ≤ 131070)
  | writeBool _ => (fd ≤ 0 ∨ address.isNone) ∨ Parsed address True
  | writeValue _ _ => (fd ≤ 0 ∨ address.isNone) ∨ Parsed address True
  | writeString length _ val =>
      (val.isNone ∨ fd ≤ 0 ∨ address.isNone ∨ length ≤ 0 ∨ length = 2 ^ 31 - 1) ∨
        Parsed address (length < 2 ^ 30 - 1 ∧
          (NegativeStart address ∨ length ≤ 32754 ∨ 2 ^ 30 - 21 ≤ length))

/-- The same for the batch functions. A size in bytes that is negative as an `int` is refused,
one beyond `2 ^ 32` that is not negative leaves the buffer. -/
def BatchAccess.BinaryCounts (fd : ℤ) (address : Option CString) : BatchAccess → Prop
  | readBool length _ values => (fd ≤ 0 ∨ address.isNone ∨ ¬ values ∨ length ≤ 0) ∨
      Parsed address (length ≤ 65535)
  | read T length _ values =>
      (fd ≤ 0 ∨ address.isNone ∨ ¬ values ∨ length ≤ 0 ∨ 2 ^ 31 ≤ length * T.type.words) ∨
        Parsed address (length * T.type.words ≤ 65535)
  | writeBool length _ values => (values.isNone ∨ fd ≤ 0 ∨ address.isNone ∨ length ≤ 0) ∨
      Parsed address (length ≤ 65535 ∨ length = 2 ^ 31 - 1)
  | write T length _ values =>
      (values.isNone ∨ fd ≤ 0 ∨ address.isNone ∨ length ≤ 0 ∨
          2 ^ 31 ≤ length * (2 * T.type.words) % 2 ^ 32) ∨
        length * (2 * T.type.words) < 2 ^ 31 ∧
          Parsed address (length * (2 * T.type.words) ≤ 65523 ∨
            2 ^ 31 - 21 ≤ length * (2 * T.type.words))

section Functions

variable {network : PlcNetworkAddress} {fd : ℤ} {address : Option CString}

/-- The calls of the binary module, one by one. -/
theorem Access.mc_counts (access : Access) :
    (access.mc network fd address).Opens (BinaryConsistent access.asked access.carried)
        (· ≠ .success) ↔ access.BinaryCounts fd address := by
  cases access with
  | readBool val =>
    have hfit : (toUShort 1 : ℤ) = 1 := by decide
    refine (mc_opens _ fun _ d => binaryConsistent_read network _ d 1).trans ?_
    rw [Parsed.of_true (.inr hfit), Refused, BinaryCounts]
    tauto
  | readValue T val =>
    have hfit := T.toUShort_words
    refine (mc_opens _ fun _ d => binaryConsistent_read network _ d T.words).trans ?_
    rw [Parsed.of_true (.inr hfit), Refused, BinaryCounts]
    tauto
  | readString length range val =>
    have hS := fun d => binaryConsistent_read network (0x01, 0x04, 0x00, 0x00) d ((length + 1) / 2)
    refine (mc_opens (P := length ≤ 131070) _ fun hr d => (hS d).trans ?_).trans ?_
    · simp only [Refused, not_or] at hr
      rw [toUShort_eq_iff (by omega)]
      omega
    · simp only [Refused, BinaryCounts, TooLarge, false_or]
      tauto
  | writeBool val =>
    refine (mc_opens _ fun _ d => binaryConsistent_bits network _ d rfl).trans ?_
    rw [Parsed.of_true (.inr (by simp)), Refused, BinaryCounts, or_assoc]
  | writeValue T v =>
    have hlen := T.codec.encode_length v
    have hle := T.words_le
    have hS := fun d => binaryConsistent_words network (0x01, 0x14, 0x00, 0x00) d
      (show ((T.codec.encode v).length : ℤ) = 2 * T.words by omega)
    refine (mc_opens _ fun _ d => hS d).trans ?_
    rw [Parsed.of_true (.inr (by omega)), Refused, BinaryCounts, or_assoc]
  | writeString length range val =>
    refine (mc_opens (P := length ≤ 65522) _ fun hr d => ?_).trans ?_
    · cases val with
      | none => simp [Refused] at hr
      | some val =>
        simp only [Refused, not_or] at hr
        have := range.2
        have hlen := paddedString_length val (by omega) (by omega)
        refine (binaryConsistent_words network _ d hlen).trans ?_
        omega
    · simp only [Refused, BinaryCounts, TooLarge, or_comm (a := 2 ^ 31 - 21 ≤ length)]
      tauto

/-- The batch functions, one by one. -/
theorem BatchAccess.mc_counts (access : BatchAccess) :
    (access.mc network fd address).Opens (BinaryConsistent access.asked access.carried)
        (· ≠ .success) ↔ access.BinaryCounts fd address := by
  cases access with
  | readBool length range values =>
    refine (mc_opens (P := length ≤ 65535) _ fun hr d =>
      (binaryConsistent_read network _ d length).trans ?_).trans ?_
    · simp only [Refused, not_or] at hr
      exact toUShort_eq_iff (by omega)
    · simp only [Refused, BinaryCounts, TooLarge, Fits, false_or, true_and]
      tauto
  | read T length range values =>
    refine (mc_opens (P := length * T.type.words ≤ 65535) _ fun hr d =>
      (binaryConsistent_read network _ d (length * T.type.words)).trans ?_).trans ?_
    · simp only [Refused, not_or, not_le] at hr
      exact toUShort_eq_iff (T.points_range range hr.2.2.1).1.le
    · simp only [Refused, BinaryCounts, TooLarge, Fits, false_or, true_and]
      tauto
  | writeBool length range values =>
    refine (mc_opens (P := length ≤ 65535) _ fun hr d => ?_).trans ?_
    · cases values with
      | none => simp [Refused] at hr
      | some values =>
        simp only [Refused, not_or] at hr
        have hlen : length = values.used.length := by
          rw [values.used_length, Int.toNat_of_nonneg (by omega)]
        exact binaryConsistent_bits network _ d hlen
    · simp only [Refused, BinaryCounts, TooLarge, Fits, true_and,
        or_comm (a := length = 2 ^ 31 - 1)]
      tauto
  | write T length range values =>
    refine (mc_opens (P := length * (2 * T.type.words) ≤ 65523) _ fun hr d => ?_).trans ?_
    · cases values with
      | none => simp [Refused] at hr
      | some values =>
        simp only [Refused, not_or, not_le] at hr
        have hlen : ((values.used.flatMap T.type.codec.encode).length : ℤ) =
            length * (2 * T.type.words) := by
          rw [ValueCodec.flatMap_encode_length, values.used_length]
          push_cast
          rw [Int.toNat_of_nonneg (by omega)]
        have hwords : ((values.used.flatMap T.type.codec.encode).length : ℤ) =
            2 * (length * T.type.words) := by
          rw [hlen]
          ring
        refine (binaryConsistent_words network _ d hwords).trans ?_
        omega
    · simp only [Refused, BinaryCounts, TooLarge, Fits,
        or_comm (a := 2 ^ 31 - 21 ≤ length * (2 * (T.type.words : ℤ)))]
      tauto

/-- The calls of the ASCII module, one by one. -/
theorem Access.mcAscii_counts (access : Access) :
    (access.mcAscii network fd address).Opens (AsciiConsistent access.asked access.carried)
        (· ≠ .success) ↔ access.AsciiCounts fd address := by
  cases access with
  | readBool val =>
    have hfit : (toUShort 1 : ℤ) = 1 := by decide
    refine (mcAscii_opens (P := (toUShort 1 : ℤ) = 1) (.readBool val) fun _ d header hd =>
      asciiConsistent_read hd).trans ?_
    rw [Parsed.of_true ⟨trivial, .inr (.inr hfit)⟩, AsciiRefused, AsciiCounts]
    tauto
  | readValue T val =>
    have hfit := T.toUShort_words
    refine (mcAscii_opens (P := (toUShort T.words : ℤ) = T.words) (.readValue T val)
      fun _ d header hd => asciiConsistent_read hd).trans ?_
    rw [Parsed.of_true ⟨trivial, .inr (.inr hfit)⟩, AsciiRefused, AsciiCounts]
    tauto
  | readString length range val =>
    refine (mcAscii_opens (P := length ≤ 131070) (.readString length range val)
      fun hr d header hd hh => (asciiConsistent_read hd hh).trans ?_).trans ?_
    · simp only [AsciiRefused, not_or] at hr
      change (toUShort ((length + 1) / 2) : ℤ) = (length + 1) / 2 ↔ length ≤ 131070
      rw [toUShort_eq_iff (by omega)]
      omega
    · simp only [AsciiRefused, AsciiCounts, AsciiTooLarge, AsciiFits, false_or, true_and]
      tauto
  | writeBool val =>
    refine (mcAscii_opens (P := True) (.writeBool val) fun _ d header hd hh =>
      (asciiConsistent_frame rfl hh).trans ?_).trans ?_
    · rw [hd]
      have hfit : (toUShort 1 : ℤ) = 1 := by decide
      exact iff_of_true ⟨by simp [asciiParts], hfit, rfl⟩ trivial
    · rw [Parsed.of_true ⟨trivial, .inr (.inr trivial)⟩, AsciiRefused, AsciiCounts, or_assoc]
  | writeValue T v =>
    have hlen := T.codec.encode_length v
    have hle := T.words_le
    have hchars : ((swapWords (T.codec.encode v)).flatMap hexStrPair).length = 4 * T.words := by
      rw [hexStrPair_flatMap_length, swapWords_length, hlen]
      ring
    refine (mcAscii_opens (.writeValue T v) fun _ d header hd =>
      asciiConsistent_words rfl hd (by rw [asciiParts, hchars]; push_cast; rfl)).trans ?_
    rw [Parsed.of_true ⟨trivial, .inr (.inr (by simp only [asciiParts]; omega))⟩, AsciiRefused,
      AsciiCounts, or_assoc]
  | writeString length range val =>
    refine (mcAscii_opens (P := length ≤ 32754) (.writeString length range val)
      fun hr d header hd hh => ?_).trans ?_
    · cases val with
      | none => simp [AsciiRefused] at hr
      | some val =>
        simp only [AsciiRefused, not_or] at hr
        have := range.2
        have hlen := paddedString_length val (by omega) (by omega)
        have hchars : ((swapWords (paddedString val)).flatMap hexStrPair).length =
            2 * (paddedString val).length := by
          rw [hexStrPair_flatMap_length, swapWords_length]
        refine (asciiConsistent_words rfl hd ?_ hh).trans ?_
        · change (((swapWords (paddedString val)).flatMap hexStrPair).length : ℤ) =
            4 * ((length + 1) / 2)
          omega
        · change ((swapWords (paddedString val)).flatMap hexStrPair).length + 24 < 2 ^ 16 ↔ _
          omega
    · simp only [AsciiRefused, AsciiCounts, AsciiTooLarge, AsciiFits,
        or_comm (a := 2 ^ 30 - 21 ≤ length)]
      tauto

/-- A call is refused before anything is sent, or sends a request whose counts are right, if and
only if its arguments meet its condition. -/
theorem request_counts_iff (network : PlcNetworkAddress) (fd : ℤ) (address : Option CString) :
    (∀ access : Access,
      (access.mc network fd address).Opens (BinaryConsistent access.asked access.carried)
        (· ≠ .success) ↔ access.BinaryCounts fd address) ∧
    (∀ access : Access,
      (access.mcAscii network fd address).Opens (AsciiConsistent access.asked access.carried)
        (· ≠ .success) ↔ access.AsciiCounts fd address) ∧
    ∀ access : BatchAccess,
      (access.mc network fd address).Opens (BinaryConsistent access.asked access.carried)
        (· ≠ .success) ↔ access.BinaryCounts fd address :=
  ⟨Access.mc_counts, Access.mcAscii_counts, BatchAccess.mc_counts⟩

end Functions

/-- A read of 65536 words from D0 asks for none of them. -/
theorem read_batch_wraps :
    ((BatchAccess.read .short 65536 (by decide) true).mc ⟨0, 0⟩ 3
        (some ⟨text ['D', '0'], by decide⟩)).request =
      some (.ofList (mcCommandHeader ⟨0, 0⟩ 21 ++ [0x01, 0x04, 0x00, 0x00, 0x00, 0x00, 0x00, 0xA8,
        0x00, 0x00])) ∧
    ¬ ((BatchAccess.read .short 65536 (by decide) true).mc ⟨0, 0⟩ 3
        (some ⟨text ['D', '0'], by decide⟩)).Opens (BinaryConsistent 65536 .nothing)
          (· ≠ .success) := by
  constructor
  · decide
  · rintro ⟨frame, points, hframe, hasked, -, hpoints, -⟩
    rw [← ByteArrayInfo.ofList_inj.mp hframe] at hpoints
    have hzero : points = 0 := hpoints.symm
    omega

end MelsecMc
