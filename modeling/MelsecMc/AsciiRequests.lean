import MelsecMc.CheckedCalls

/-!
# The requests of the ASCII module

The ASCII functions differ from the binary ones in more than the frame: a
negative start address sends nothing, the string functions check other
arguments, and the text of a write has twice the size of its bytes.
-/
namespace MelsecMc.Ascii

/-- An ASCII request: header, core command, payload. -/
def asciiFrame (network : PlcNetworkAddress) (header payload : List Byte) : List Byte :=
  mcAsciiCommandHeader network (toUShort ((header ++ payload).length + 4)) ++ (header ++ payload)

variable {network : PlcNetworkAddress} {fd : ℤ} {address : Option CString} {length : ℤ}
  {S : ByteArrayInfo → Prop} {P : Prop}

/-- What an ASCII core command sends: nothing for a negative start address. -/
theorem core_opens {β : Type} {R : ErrorCode × β → Prop} {out : β} {min_size : ℕ}
    {parse : ByteArrayInfo → Option (ErrorCode × β)} {command : List Char}
    {address_data : MelsecMcAddressData} {content : List Byte}
    (hfd : 0 < fd) (hcommand : command.length = 8) (h : 42 + content.length < 2 ^ 31)
    (hR : ∀ code, code ≠ .success → R (code, out))
    (hS : ∀ header, asciiCoreHeader command address_data = some header →
      (S (.ofList (asciiFrame network header content)) ↔ P)) :
    (exchange packMcAsciiCommand min_size network fd
        ((asciiCoreHeader command address_data).elim .empty fun header =>
          .ofList (header ++ content)) out parse).Opens S R ↔
      address_data.addressStart < 0 ∨ P := by
  cases hheader : asciiCoreHeader command address_data with
  | none =>
    rw [Option.elim_none, exchange_none rfl]
    exact ⟨fun _ => .inl (asciiCoreHeader_eq_none.mp hheader), fun _ => hR _ (by simp)⟩
  | some header =>
    have hsize := asciiCoreHeader_length hcommand hheader
    have hstart : ¬ address_data.addressStart < 0 := fun hneg => by
      rw [asciiCoreHeader_eq_none.mpr hneg] at hheader
      simp at hheader
    have hpack := packMcAsciiCommand_ofList network (header ++ content)
      (List.ne_nil_of_length_pos (by rw [List.length_append]; omega))
      (by rw [List.length_append]; omega)
    rw [Option.elim_some, exchange_opens hfd hpack (List.ne_nil_of_length_pos (by simp)),
      or_iff_right hstart]
    exact hS header hheader

/-- The command of a read. -/
def readCommand (is_bit : Bool) : List Char :=
  ['0', '4', '0', '1'] ++ if is_bit then ['0', '0', '0', '1'] else ['0', '0', '0', '0']

theorem readDeviceValue_opens {is_bit : Bool} {R : ErrorCode × ByteArrayInfo → Prop}
    {out : ByteArrayInfo} (hR : ∀ code, code ≠ .success → R (code, out))
    (hS : 0 < length → ∀ d header, d.length = length →
      asciiCoreHeader (readCommand is_bit) d = some header →
        (S (.ofList (asciiFrame network header [])) ↔ P)) :
    (readDeviceValue network is_bit fd address length out).Opens S R ↔
      (fd ≤ 0 ∨ address.isNone ∨ length ≤ 0) ∨ Parsed address (NegativeStart address ∨ P) := by
  refine guarded_opens (hR _ (by simp)) fun hok =>
    analysed_opens (fun hnone => hok (.inr (.inl hnone))) (hR _ (by simp)) ?_
  intro d ha
  have hread : mcAsciiBuildReadCoreCommand d is_bit =
      (asciiCoreHeader (readCommand is_bit) d).elim .empty fun header =>
        .ofList (header ++ []) := by
    rw [mcAsciiBuildReadCoreCommand, ← readCommand]
    cases asciiCoreHeader (readCommand is_bit) d with
    | none => rfl
    | some header => rw [Option.elim_some, List.append_nil]
  rw [hread, negativeStart_iff ha]
  exact core_opens (by omega) (by cases is_bit <;> rfl) (by decide) hR fun header =>
    hS (by omega) d header (mcAnalysisAddress_length ha)

/-- An ASCII word write, unless its text does not fit a buffer. A frame beyond an `int` is not
sent. -/
theorem writeWordValue_opens {R : ErrorCode × Unit → Prop} {bytes : List Byte}
    (heven : bytes.length % 2 = 0) (h0 : bytes ≠ []) (h : bytes.length < 2 ^ 31)
    (hlength : length = (bytes.length / 2 : ℕ)) (hR : ∀ code, code ≠ .success → R (code, ()))
    (hS : ∀ (d : MelsecMcAddressData) (header : List Byte), d.length = length →
      asciiCoreHeader ['1', '4', '0', '1', '0', '0', '0', '0'] d = some header →
        (S (.ofList (asciiFrame network header ((swapWords bytes).flatMap hexStrPair))) ↔ P)) :
    (writeWordValue network fd address length (.ofList bytes)).Opens S R ↔
      (fd ≤ 0 ∨ address.isNone) ∨ Parsed address (bytes.length < 2 ^ 30 ∧
        (NegativeStart address ∨ 2 ^ 31 ≤ 2 * bytes.length + 42 ∨ P)) := by
  have hpos := List.length_pos_iff.mpr h0
  have hsize : ((swapWords bytes).flatMap hexStrPair).length = 2 * bytes.length := by
    rw [hexStrPair_flatMap_length, swapWords_length]
  have hguard : (fd ≤ 0 ∨ address.isNone = true ∨ length ≤ 0 ∨
      (ByteArrayInfo.ofList bytes).data.isNone = true) ↔ fd ≤ 0 ∨ address.isNone = true := by
    have h1 : ¬ length ≤ 0 := by omega
    simp [h1]
  rw [← hguard]
  refine guarded_opens (hR _ (by simp)) fun hok =>
    analysed_opens (fun hnone => hok (.inr (.inl hnone))) (hR _ (by simp)) ?_
  intro d ha
  have hfd : 0 < fd := not_le.mp fun hle => hok (.inl hle)
  by_cases h30 : bytes.length < 2 ^ 30
  · rw [and_iff_right h30]
    by_cases h20 : 20 + 2 * bytes.length < 2 ^ 31
    · rw [mcAsciiBuildWriteWordCoreCommand_ofList d h0 heven h20, Call.ofOption_some,
        Call.ret_bind, writeExchange]
      by_cases h42 : 42 + 2 * bytes.length < 2 ^ 31
      · have hlarge : ¬ 2 ^ 31 ≤ 2 * bytes.length + 42 := by omega
        rw [or_iff_right hlarge, negativeStart_iff ha]
        exact core_opens hfd rfl (by omega) hR fun header =>
          hS d header (mcAnalysisAddress_length ha)
      · refine ⟨fun _ => .inr (.inl (by omega)), fun _ => ?_⟩
        cases hheader : asciiCoreHeader ['1', '4', '0', '1', '0', '0', '0', '0'] d with
        | none =>
          rw [Option.elim_none, exchange_none rfl]
          exact hR _ (by simp)
        | some header =>
          have hcore : (header ++ (swapWords bytes).flatMap hexStrPair).length =
              20 + 2 * bytes.length := by
            rw [List.length_append, asciiCoreHeader_length rfl hheader, hsize]
          rw [Option.elim_some,
            exchange_unpacked (packMcAsciiCommand_refused network (by omega) (by omega))]
          exact hR _ (by simp)
    · rw [mcAsciiBuildWriteWordCoreCommand_eq d h0 heven,
        buildAsciiBytesFromByteArray_swapWords h0 h30, Option.map_some,
        asciiCoreCommand_refused d (by omega) (by omega), Call.ofOption_some, Call.ret_bind,
        writeExchange, exchange_none rfl]
      exact ⟨fun _ => .inr (.inl (by omega)), fun _ => hR _ (by simp)⟩
  · rw [mcAsciiBuildWriteWordCoreCommand_fault d heven (by omega) h]
    exact ⟨False.elim, fun hfit => absurd hfit.1 h30⟩

/-- A single point. -/
theorem mcAsciiWriteBool_opens {val : Bool} {R : ErrorCode × Unit → Prop}
    (hR : ∀ code, code ≠ .success → R (code, ()))
    (hS : ∀ (d : MelsecMcAddressData) (header : List Byte), d.length = 1 →
      asciiCoreHeader ['1', '4', '0', '1', '0', '0', '0', '1'] d = some header →
        (S (.ofList (asciiFrame network header [if val then 0x31 else 0x30])) ↔ P)) :
    (mcAsciiWriteBool network fd address val).Opens S R ↔
      (fd ≤ 0 ∨ address.isNone) ∨ Parsed address (NegativeStart address ∨ P) := by
  refine guarded_opens (hR _ (by simp)) fun hok => ?_
  have hguard : ¬ (fd ≤ 0 ∨ address.isNone = true ∨ (1 : ℤ) ≤ 0 ∨ (some [val]).isNone = true) := by
    rintro (h | h | h | h)
    · exact hok (.inl h)
    · exact hok (.inr h)
    · omega
    · simp at h
  rw [writeBoolValue, if_neg hguard]
  refine analysed_opens (fun hnone => hok (.inr hnone)) (hR _ (by simp)) fun d ha => ?_
  have hbuild : mcAsciiBuildWriteBitCoreCommand d ⟨some [val], 1⟩ =
      some ((asciiCoreHeader ['1', '4', '0', '1', '0', '0', '0', '1'] d).elim .empty
        fun header => .ofList (header ++ [if val then 0x31 else 0x30])) :=
    congrArg some (asciiCoreCommand_ofList d rfl (by simp) (by simp))
  rw [hbuild, Call.ofOption_some, Call.ret_bind, writeExchange, negativeStart_iff ha]
  exact core_opens (not_le.mp fun hle => hok (.inl hle)) rfl (by simp) hR fun header =>
    hS d header (mcAnalysisAddress_length ha)

theorem mcAsciiReadBool_opens {val : Bool} {R : ErrorCode × Option Bool → Prop}
    (hR : ∀ code, code ≠ .success → R (code, none))
    (hS : ∀ (d : MelsecMcAddressData) (header : List Byte), d.length = 1 →
      asciiCoreHeader (readCommand true) d = some header →
        (S (.ofList (asciiFrame network header [])) ↔ P)) :
    (mcAsciiReadBool network fd address val).Opens S R ↔
      (fd ≤ 0 ∨ address.isNone ∨ ¬ val) ∨ Parsed address (NegativeStart address ∨ P) := by
  refine guarded_opens (hR _ (by simp)) fun hok => ?_
  rw [Call.opens_bind, readBoolValue, readDeviceValue_opens (P := P)]
  · exact points_checked hok one_pos
  · intro code hcode
    simp only [if_failed hcode]
    exact hR code hcode
  · exact fun _ => hS

theorem mcAsciiRead_opens (T : ValueType) {val : Bool} {R : ErrorCode × Option T.Value → Prop}
    (hR : ∀ code, code ≠ .success → R (code, none))
    (hS : ∀ (d : MelsecMcAddressData) (header : List Byte), d.length = T.words →
      asciiCoreHeader (readCommand false) d = some header →
        (S (.ofList (asciiFrame network header [])) ↔ P)) :
    (T.mcAsciiRead network fd address val).Opens S R ↔
      (fd ≤ 0 ∨ address.isNone ∨ ¬ val) ∨ Parsed address (NegativeStart address ∨ P) := by
  have hpos := T.words_pos
  rw [T.mcAsciiRead_eq]
  exact readValue_opens (fun R' hR' => readDeviceValue_opens hR' fun _ => hS) (by omega) hR

theorem mcAsciiWrite_opens (T : ValueType) {v : T.Value} {R : ErrorCode × Unit → Prop}
    (hR : ∀ code, code ≠ .success → R (code, ()))
    (hS : ∀ (d : MelsecMcAddressData) (header : List Byte), d.length = T.words →
      asciiCoreHeader ['1', '4', '0', '1', '0', '0', '0', '0'] d = some header →
        (S (.ofList (asciiFrame network header
          ((swapWords (T.codec.encode v)).flatMap hexStrPair))) ↔ P)) :
    (T.mcAsciiWrite network fd address v).Opens S R ↔
      (fd ≤ 0 ∨ address.isNone) ∨ Parsed address (NegativeStart address ∨ P) := by
  have hlen := T.codec.encode_length v
  have hle := T.words_le
  have hpos := T.words_pos
  have hwords : (T.words : ℤ) = ((T.codec.encode v).length / 2 : ℕ) := by omega
  have hfits : (T.codec.encode v).length < 2 ^ 30 := by omega
  have hlarge : ¬ 2 ^ 31 ≤ 2 * (T.codec.encode v).length + 42 := by omega
  rw [T.mcAsciiWrite_eq]
  refine writeValue_opens hR fun hfd hsome => ?_
  rw [writeWordValue_opens (by omega) (List.ne_nil_of_length_pos (by omega)) (by omega) hwords hR
    hS, or_iff_right (by rintro (h | h); exacts [by omega, hsome h]), and_iff_right hfits,
    or_iff_right hlarge]

theorem mcAsciiReadString_opens (range : InInt32 length) {val : Bool}
    {R : ErrorCode × Option (List Byte) → Prop} (hR : ∀ code, code ≠ .success → R (code, none))
    (hS : ∀ (d : MelsecMcAddressData) (header : List Byte), d.length = (length + 1) / 2 →
      asciiCoreHeader (readCommand false) d = some header →
        (S (.ofList (asciiFrame network header [])) ↔ P)) :
    (mcAsciiReadString network fd address length val).Opens S R ↔
      (fd ≤ 0 ∨ address.isNone ∨ length ≤ 0 ∨ ¬ val) ∨ length = 2 ^ 31 - 1 ∨
        Parsed address (NegativeStart address ∨ P) := by
  refine guarded_opens (hR _ (by simp)) fun hok => ?_
  have hpos : 0 < length := not_le.mp fun h => hok (.inr (.inr (.inl h)))
  have htop := evenLength_tdiv_nonpos range hpos
  rw [Call.opens_bind, readWordValue, readDeviceValue_opens (P := P), htop]
  · constructor
    · rintro ((h | h | h) | h)
      · exact absurd (.inl h) hok
      · exact absurd (.inr (.inl h)) hok
      · exact .inl h
      · exact .inr h
    · exact Or.imp_left fun h => .inr (.inr h)
  · intro code hcode
    simp only [if_failed hcode]
    exact hR code hcode
  · intro hwords d header hd
    have := range.2
    have hlt := htop.not.mp (not_le.mpr hwords)
    exact hS d header (by rw [hd, evenLength_tdiv hpos.le (by omega)])

theorem mcAsciiWriteString_opens (range : InInt32 length) {val : Option (Elements Byte length)}
    {R : ErrorCode × Unit → Prop} (hR : ∀ code, code ≠ .success → R (code, ()))
    (hS : ∀ v, val = some v → ∀ d header, d.length = (length + 1) / 2 →
      asciiCoreHeader ['1', '4', '0', '1', '0', '0', '0', '0'] d = some header →
        (S (.ofList (asciiFrame network header
          ((swapWords (paddedString v)).flatMap hexStrPair))) ↔ P)) :
    (mcAsciiWriteString network fd address length val).Opens S R ↔
      val.isNone ∨ (fd ≤ 0 ∨ address.isNone ∨ length ≤ 0) ∨ length = 2 ^ 31 - 1 ∨
        Parsed address (length < 2 ^ 30 - 1 ∧
          (NegativeStart address ∨ 2 ^ 30 - 21 ≤ length ∨ P)) := by
  cases val with
  | none => exact ⟨fun _ => .inl rfl, fun _ => hR _ (by simp)⟩
  | some val =>
    rw [Option.isNone_some, or_iff_right Bool.false_ne_true]
    refine guarded_opens (hR _ (by simp)) fun hok => ?_
    have h0 : 0 < length := not_le.mp fun h => hok (.inr (.inr h))
    have hneg : evenLength length < 0 ↔ length = 2 ^ 31 - 1 := by
      rw [evenLength_neg_iff range, or_iff_right (by omega)]
    rw [← hneg]
    refine allocated_opens (hR _ (by simp)) fun hroom => ?_
    have htop : length < 2 ^ 31 - 1 := by
      have := range.2
      omega
    have hlen := paddedString_length val h0.le htop
    have hbuffer := paddedString_buffer val h0.le htop
    have hpoints : (evenLength length).tdiv 2 = ((paddedString val).length / 2 : ℕ) := by
      rw [evenLength_tdiv h0.le htop]
      omega
    have hlarge : 2 ^ 31 ≤ 2 * (paddedString val).length + 42 ↔ 2 ^ 30 - 21 ≤ length := by omega
    have hfits : (paddedString val).length < 2 ^ 30 ↔ length < 2 ^ 30 - 1 := by omega
    have hopen : ¬ (fd ≤ 0 ∨ address.isNone = true) := fun h => hok (h.imp_right .inl)
    rw [← paddedString, hbuffer, writeWordValue_opens (P := P) (by omega)
      (List.ne_nil_of_length_pos (by omega)) (by omega) hpoints hR, or_iff_right hopen, hlarge,
      hfits]
    intro d header hd
    exact hS val rfl d header (by omega)

end MelsecMc.Ascii
