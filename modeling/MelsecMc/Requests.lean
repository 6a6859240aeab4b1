import MelsecMc.AsciiRequests
import MelsecMc.BinaryRequests

/-!
# The requests of the public functions

Every public function checks its arguments before it looks at the address; the
address may be refused; a frame may be beyond an `int` or, in ASCII, have a
negative device number. In every other case the function hands one frame over,
which depends on its arguments and the parsed address.
-/
namespace MelsecMc

/-- The arguments beside the address that a function of the binary module refuses. -/
def Access.Refused (fd : ℤ) : Access → Prop
  | readBool val => fd ≤ 0 ∨ ¬ val
  | readValue _ val => fd ≤ 0 ∨ ¬ val
  | readString length _ _ => fd ≤ 0 ∨ length ≤ 0 ∨ length = 2 ^ 31 - 1
  | writeBool _ => fd ≤ 0
  | writeValue _ _ => fd ≤ 0
  | writeString length _ val => val.isNone ∨ fd ≤ 0 ∨ length < 0 ∨ length = 2 ^ 31 - 1

/-- The same for the ASCII module. -/
def Access.AsciiRefused (fd : ℤ) : Access → Prop
  | readBool val => fd ≤ 0 ∨ ¬ val
  | readValue _ val => fd ≤ 0 ∨ ¬ val
  | readString length _ val => fd ≤ 0 ∨ length ≤ 0 ∨ ¬ val ∨ length = 2 ^ 31 - 1
  | writeBool _ => fd ≤ 0
  | writeValue _ _ => fd ≤ 0
  | writeString length _ val => val.isNone ∨ fd ≤ 0 ∨ length ≤ 0 ∨ length = 2 ^ 31 - 1

/-- The same for the batch functions. A size in bytes is refused when it is negative as an
`int`. -/
def BatchAccess.Refused (fd : ℤ) : BatchAccess → Prop
  | readBool length _ values => fd ≤ 0 ∨ ¬ values ∨ length ≤ 0
  | read T length _ values => fd ≤ 0 ∨ ¬ values ∨ length ≤ 0 ∨ 2 ^ 31 ≤ length * T.type.words
  | writeBool length _ values => values.isNone ∨ fd ≤ 0 ∨ length ≤ 0
  | write T length _ values =>
      values.isNone ∨ fd ≤ 0 ∨ length ≤ 0 ∨ 2 ^ 31 ≤ length * (2 * T.type.words) % 2 ^ 32

/-- A frame beyond an `int`: nothing is built. -/
def Access.TooLarge : Access → Prop
  | writeString length _ _ => 2 ^ 31 - 21 ≤ length
  | _ => False

/-- The same for the text of an ASCII frame. -/
def Access.AsciiTooLarge : Access → Prop
  | writeString length _ _ => 2 ^ 30 - 21 ≤ length
  | _ => False

def BatchAccess.TooLarge : BatchAccess → Prop
  | writeBool length _ _ => length = 2 ^ 31 - 1
  | write T length _ _ => 2 ^ 31 - 21 ≤ length * (2 * T.type.words)
  | _ => False

/-- The text of the payload fits the buffer that is allocated for it. -/
def Access.AsciiFits : Access → Prop
  | writeString length _ _ => length < 2 ^ 30 - 1
  | _ => True

/-- The bytes of the payload fit the buffer that is allocated for them. -/
def BatchAccess.Fits : BatchAccess → Prop
  | write T length _ _ => length * (2 * T.type.words) < 2 ^ 31
  | _ => True

/-- The frame for a parsed address. -/
def Access.frame (network : PlcNetworkAddress) (d : MelsecMcAddressData) : Access → List Byte
  | readBool _ => binaryFrame network (0x01, 0x04, 0x01, 0x00) d 1 []
  | readValue T _ => binaryFrame network (0x01, 0x04, 0x00, 0x00) d T.words []
  | readString length _ _ =>
      binaryFrame network (0x01, 0x04, 0x00, 0x00) d ((length + 1) / 2) []
  | writeBool val => binaryFrame network (0x01, 0x14, 0x01, 0x00) d 1 (packedBytes [val])
  | writeValue T val =>
      binaryFrame network (0x01, 0x14, 0x00, 0x00) d T.words (T.codec.encode val)
  | writeString length _ val =>
      binaryFrame network (0x01, 0x14, 0x00, 0x00) d ((length + 1) / 2)
        (val.elim [] paddedString)

def BatchAccess.frame (network : PlcNetworkAddress) (d : MelsecMcAddressData) :
    BatchAccess → List Byte
  | readBool length _ _ => binaryFrame network (0x01, 0x04, 0x01, 0x00) d length []
  | read T length _ _ =>
      binaryFrame network (0x01, 0x04, 0x00, 0x00) d (length * T.type.words) []
  | writeBool length _ values =>
      binaryFrame network (0x01, 0x14, 0x01, 0x00) d length
        (packedBytes (values.elim [] Elements.used))
  | write T length _ values =>
      binaryFrame network (0x01, 0x14, 0x00, 0x00) d (length * T.type.words)
        (values.elim [] fun vs => vs.used.flatMap T.type.codec.encode)

/-- The command of an ASCII request, the points in its header and its payload. -/
def Access.asciiParts : Access → List Char × ℤ × List Byte
  | readBool _ => (Ascii.readCommand true, 1, [])
  | readValue T _ => (Ascii.readCommand false, T.words, [])
  | readString length _ _ => (Ascii.readCommand false, (length + 1) / 2, [])
  | writeBool val => (['1', '4', '0', '1', '0', '0', '0', '1'], 1, [if val then 0x31 else 0x30])
  | writeValue T val =>
      (['1', '4', '0', '1', '0', '0', '0', '0'], T.words,
        (swapWords (T.codec.encode val)).flatMap hexStrPair)
  | writeString length _ val =>
      (['1', '4', '0', '1', '0', '0', '0', '0'], (length + 1) / 2,
        (swapWords (val.elim [] paddedString)).flatMap hexStrPair)

section Opens

variable {network : PlcNetworkAddress} {fd : ℤ} {address : Option CString}
  {S : ByteArrayInfo → Prop} {P : Prop}

/-- The calls of the binary module, one by one. -/
theorem Access.mc_frame (access : Access)
    (hS : ∀ d, S (.ofList (access.frame network d)) ↔ P) :
    (access.mc network fd address).Opens S (· ≠ .success) ↔
      access.Refused fd ∨ address.isNone ∨ Parsed address (access.TooLarge ∨ P) := by
  cases access with
  | readBool val =>
    rw [mc, code_opens, mcReadBool_opens (by simp) hS]
    simp only [Refused, TooLarge, false_or]
    tauto
  | readValue T val =>
    rw [mc, code_opens, mcRead_opens T (by simp) hS]
    simp only [Refused, TooLarge, false_or]
    tauto
  | readString length range val =>
    rw [mc, code_opens, mcReadString_opens range (by simp) hS]
    simp only [Refused, TooLarge, false_or]
    tauto
  | writeBool val =>
    rw [mc, code_opens, mcWriteBool_opens (by simp) hS]
    simp only [Refused, TooLarge, false_or, or_assoc]
  | writeValue T v =>
    rw [mc, code_opens, mcWrite_opens T (by simp) hS]
    simp only [Refused, TooLarge, false_or, or_assoc]
  | writeString length range val =>
    rw [mc, code_opens, mcWriteString_opens (P := P) range (by simp)]
    · simp only [Refused, TooLarge]
      tauto
    · rintro v rfl
      exact hS

/-- The batch functions, one by one. -/
theorem BatchAccess.mc_frame (access : BatchAccess)
    (hS : ∀ d, S (.ofList (access.frame network d)) ↔ P) :
    (access.mc network fd address).Opens S (· ≠ .success) ↔
      access.Refused fd ∨ address.isNone ∨
        access.Fits ∧ Parsed address (access.TooLarge ∨ P) := by
  cases access with
  | readBool length range values =>
    rw [mc, code_opens, mcReadBoolBatch_opens (by simp) hS]
    simp only [Refused, TooLarge, Fits, false_or, true_and]
    tauto
  | read T length range values =>
    rw [mc, code_opens, T.mcReadBatch_eq, readBatch_opens T range (by simp) hS]
    simp only [Refused, TooLarge, Fits, false_or, true_and]
    tauto
  | writeBool length range values =>
    rw [mc, code_opens, mcWriteBoolBatch_opens (P := P) range (by simp)]
    · simp only [Refused, TooLarge, Fits, true_and]
      tauto
    · rintro vs rfl
      exact hS
  | write T length range values =>
    rw [mc, code_opens, T.mcWriteBatch_eq, writeBatch_opens (P := P) T (by simp)]
    · simp only [Refused, TooLarge, Fits]
      tauto
    · rintro vs rfl
      exact hS

open Ascii in
/-- The calls of the ASCII module, one by one. -/
theorem Access.mcAscii_frame (access : Access)
    (hS : ∀ d header, d.length = access.asciiParts.2.1 →
      asciiCoreHeader access.asciiParts.1 d = some header →
        (S (.ofList (asciiFrame network header access.asciiParts.2.2)) ↔ P)) :
    (access.mcAscii network fd address).Opens S (· ≠ .success) ↔
      access.AsciiRefused fd ∨ address.isNone ∨
        Parsed address (access.AsciiFits ∧
          (NegativeStart address ∨ access.AsciiTooLarge ∨ P)) := by
  cases access with
  | readBool val =>
    rw [mcAscii, code_opens, mcAsciiReadBool_opens (by simp) hS]
    simp only [AsciiRefused, AsciiTooLarge, AsciiFits, false_or, true_and]
    tauto
  | readValue T val =>
    rw [mcAscii, code_opens, mcAsciiRead_opens T (by simp) hS]
    simp only [AsciiRefused, AsciiTooLarge, AsciiFits, false_or, true_and]
    tauto
  | readString length range val =>
    rw [mcAscii, code_opens, mcAsciiReadString_opens range (by simp) hS]
    simp only [AsciiRefused, AsciiTooLarge, AsciiFits, false_or, true_and]
    tauto
  | writeBool val =>
    rw [mcAscii, code_opens, mcAsciiWriteBool_opens (by simp) hS]
    simp only [AsciiRefused, AsciiTooLarge, AsciiFits, false_or, true_and, or_assoc]
  | writeValue T v =>
    rw [mcAscii, code_opens, mcAsciiWrite_opens T (by simp) hS]
    simp only [AsciiRefused, AsciiTooLarge, AsciiFits, false_or, true_and, or_assoc]
  | writeString length range val =>
    rw [mcAscii, code_opens, mcAsciiWriteString_opens (P := P) range (by simp)]
    · simp only [AsciiRefused, AsciiTooLarge, AsciiFits]
      tauto
    · rintro v rfl
      exact hS

/-- Nothing is sent for refused arguments. -/
theorem Access.mc_refused {access : Access} (hr : access.Refused fd) :
    (access.mc network fd address).Opens (fun _ => False) (· ≠ .success) :=
  (access.mc_frame fun _ => Iff.rfl).mpr (.inl hr)

theorem BatchAccess.mc_refused {access : BatchAccess} (hr : access.Refused fd) :
    (access.mc network fd address).Opens (fun _ => False) (· ≠ .success) :=
  (access.mc_frame fun _ => Iff.rfl).mpr (.inl hr)

theorem Access.mcAscii_refused {access : Access} (hr : access.AsciiRefused fd) :
    (access.mcAscii network fd address).Opens (fun _ => False) (· ≠ .success) :=
  (access.mcAscii_frame fun _ _ _ _ => Iff.rfl).mpr (.inl hr)

/-- The frame matters only where the arguments are not refused. -/
theorem Access.mc_opens (access : Access)
    (hS : ¬ access.Refused fd → ∀ d, (S (.ofList (access.frame network d)) ↔ P)) :
    (access.mc network fd address).Opens S (· ≠ .success) ↔
      access.Refused fd ∨ address.isNone ∨ Parsed address (access.TooLarge ∨ P) := by
  by_cases hr : access.Refused fd
  · exact iff_of_true ((Access.mc_refused hr).mono fun _ => False.elim) (.inl hr)
  · exact access.mc_frame (hS hr)

theorem BatchAccess.mc_opens (access : BatchAccess)
    (hS : ¬ access.Refused fd → ∀ d, (S (.ofList (access.frame network d)) ↔ P)) :
    (access.mc network fd address).Opens S (· ≠ .success) ↔
      access.Refused fd ∨ address.isNone ∨
        access.Fits ∧ Parsed address (access.TooLarge ∨ P) := by
  by_cases hr : access.Refused fd
  · exact iff_of_true ((BatchAccess.mc_refused hr).mono fun _ => False.elim) (.inl hr)
  · exact access.mc_frame (hS hr)

open Ascii in
theorem Access.mcAscii_opens (access : Access)
    (hS : ¬ access.AsciiRefused fd → ∀ (d : MelsecMcAddressData) (header : List Byte),
      d.length = access.asciiParts.2.1 → asciiCoreHeader access.asciiParts.1 d = some header →
        (S (.ofList (asciiFrame network header access.asciiParts.2.2)) ↔ P)) :
    (access.mcAscii network fd address).Opens S (· ≠ .success) ↔
      access.AsciiRefused fd ∨ address.isNone ∨
        Parsed address (access.AsciiFits ∧
          (NegativeStart address ∨ access.AsciiTooLarge ∨ P)) := by
  by_cases hr : access.AsciiRefused fd
  · exact iff_of_true ((Access.mcAscii_refused hr).mono fun _ => False.elim) (.inl hr)
  · exact access.mcAscii_frame (hS hr)

end Opens

/-- A call that opens with a request or a refusal, and not with a refusal, hands over a request. -/
theorem Call.request_of_opens {α : Type} {R : α → Prop} {c : Call α}
    (h : c.Opens (fun _ => True) R) (hno : ¬ c.Opens (fun _ => False) R) : c.request ≠ none := by
  cases c with
  | fault => exact h.elim
  | ret a => exact absurd h hno
  | transact fd cmd next => exact Option.some_ne_none _

theorem Call.code_request {β : Type} (c : Call (ErrorCode × β)) : c.code.request = c.request :=
  Call.request_bind fun _ => rfl

/-- `mc_analysis_address` accepts the address. -/
def AddressAccepted (address : Option CString) : Prop :=
  ∃ address_data, mcAnalysisAddress address 0 = some (some address_data)

theorem AddressAccepted.isNone {address : Option CString} (h : AddressAccepted address) :
    ¬ address.isNone = true := by
  obtain ⟨address_data, ha⟩ := h
  simp [isNone_of_analysed ha]

theorem AddressAccepted.parsed_iff {address : Option CString} (h : AddressAccepted address)
    {P : Prop} : Parsed address P ↔ P := by
  obtain ⟨s, rfl⟩ := Option.ne_none_iff_exists'.mp (mt Option.isNone_iff_eq_none.mpr h.isNone)
  obtain ⟨address_data, ha⟩ := h
  rcases mcAnalysisAddress_cases s 0 with ⟨-, hno⟩ | ⟨-, hno⟩ | ⟨hne, hlone, -⟩
  · cases ha.symm.trans hno
  · cases ha.symm.trans hno
  · have hempty : ¬ EmptyText (some s) := by
      rintro ⟨s', hs', hnil⟩
      rw [← Option.some.inj hs'] at hnil
      exact hne hnil
    simp only [Parsed, hlone, hempty, not_false_eq_true, true_and, false_or]

section Accepted

variable (network : PlcNetworkAddress) (fd : ℤ) {address : Option CString}

/-- With an accepted address, every call that is not refused hands over its request. -/
theorem Access.mc_request (access : Access) (ha : AddressAccepted address)
    (h : ¬ access.Refused fd) (hsize : ¬ access.TooLarge) :
    (access.mc network fd address).request ≠ none := by
  refine Call.request_of_opens ((access.mc_frame fun _ => Iff.rfl).mpr
    (.inr (.inr (ha.parsed_iff.mpr (.inr trivial))))) fun hno => ?_
  rcases (access.mc_frame fun _ => Iff.rfl).mp hno with hno | hno | hno
  · exact h hno
  · exact ha.isNone hno
  · exact (ha.parsed_iff.mp hno).elim hsize id

theorem BatchAccess.mc_request (access : BatchAccess) (ha : AddressAccepted address)
    (h : ¬ access.Refused fd) (hfits : access.Fits) (hsize : ¬ access.TooLarge) :
    (access.mc network fd address).request ≠ none := by
  refine Call.request_of_opens ((access.mc_frame fun _ => Iff.rfl).mpr
    (.inr (.inr ⟨hfits, ha.parsed_iff.mpr (.inr trivial)⟩))) fun hno => ?_
  rcases (access.mc_frame fun _ => Iff.rfl).mp hno with hno | hno | ⟨-, hno⟩
  · exact h hno
  · exact ha.isNone hno
  · exact (ha.parsed_iff.mp hno).elim hsize id

theorem Access.mcAscii_request (access : Access) (ha : AddressAccepted address)
    (hstart : ¬ NegativeStart address) (h : ¬ access.AsciiRefused fd) (hfits : access.AsciiFits)
    (hsize : ¬ access.AsciiTooLarge) : (access.mcAscii network fd address).request ≠ none := by
  refine Call.request_of_opens ((access.mcAscii_frame fun _ _ _ _ => Iff.rfl).mpr
    (.inr (.inr (ha.parsed_iff.mpr ⟨hfits, .inr (.inr trivial)⟩)))) fun hno => ?_
  rcases (access.mcAscii_frame fun _ _ _ _ => Iff.rfl).mp hno with hno | hno | hno
  · exact h hno
  · exact ha.isNone hno
  · exact (ha.parsed_iff.mp hno).2.elim hstart fun hno => hno.elim hsize id

end Accepted

end MelsecMc
