import MelsecMc.CheckedCalls

/-!
# The requests of the binary module

What each public function of the binary module hands over, or returns without a
request. Past the checks of its arguments and the parser, a function sends one
frame, unless the frame would leave the range of an `int`.
-/
namespace MelsecMc

/-- A binary request: header, core command, payload. -/
def binaryFrame (network : PlcNetworkAddress) (command : Byte × Byte × Byte × Byte)
    (address_data : MelsecMcAddressData) (points : ℤ) (payload : List Byte) : List Byte :=
  mcCommandHeader network ((10 + payload.length : ℕ) + 11) ++
    (coreHeader command address_data points ++ payload)

variable {network : PlcNetworkAddress} {fd : ℤ} {address : Option CString} {length : ℤ}
  {S : ByteArrayInfo → Prop} {P : Prop}

section Opens

variable {β : Type} {R : ErrorCode × β → Prop} {out : β}

theorem readCore_opens {is_bit : Bool} {min_size : ℕ}
    {parse : ByteArrayInfo → Option (ErrorCode × β)} {address_data : MelsecMcAddressData}
    (hfd : 0 < fd) :
    (exchange packMcCommand min_size network fd (buildReadCoreCommand address_data is_bit) out
        parse).Opens S R ↔
      S (.ofList (binaryFrame network (0x01, 0x04, if is_bit then 0x01 else 0x00, 0x00)
        address_data address_data.length [])) := by
  have hpack := packMcCommand_ofList network (coreHeader
    (0x01, 0x04, if is_bit then 0x01 else 0x00, 0x00) address_data address_data.length)
    (by simp [coreHeader]) (by simp)
  rw [buildReadCoreCommand, exchange_opens hfd hpack (by simp [mcCommandHeader]), binaryFrame,
    List.append_nil]
  rfl

theorem readWordValue_opens {R : ErrorCode × ByteArrayInfo → Prop} {out : ByteArrayInfo}
    (hR : ∀ code, code ≠ .success → R (code, out))
    (hS : 0 < length → ∀ d,
      (S (.ofList (binaryFrame network (0x01, 0x04, 0x00, 0x00) d length [])) ↔ P)) :
    (readWordValue network fd address length out).Opens S R ↔
      (fd ≤ 0 ∨ address.isNone ∨ length ≤ 0) ∨ Parsed address P := by
  refine guarded_opens (hR _ (by simp)) fun hok => analysed_opens (by tauto) (hR _ (by simp)) ?_
  intro d ha
  rw [readAddressData, if_neg (by tauto), readCore_opens (by omega), mcAnalysisAddress_length ha]
  exact hS (by omega) d

theorem readBoolValue_opens {R : ErrorCode × ByteArrayInfo → Prop} {out : ByteArrayInfo}
    (hR : ∀ code, code ≠ .success → R (code, out))
    (hS : ∀ d, S (.ofList (binaryFrame network (0x01, 0x04, 0x01, 0x00) d length [])) ↔ P) :
    (readBoolValue network fd address length out).Opens S R ↔
      (fd ≤ 0 ∨ address.isNone ∨ length ≤ 0) ∨ Parsed address P := by
  refine guarded_opens (hR _ (by simp)) fun hok => analysed_opens (by tauto) (hR _ (by simp)) ?_
  intro d ha
  rw [readCore_opens (by omega), mcAnalysisAddress_length ha]
  exact hS d

/-- A binary word write, unless the frame is beyond an `int`. -/
theorem writeWordValue_opens {R : ErrorCode × Unit → Prop} {bytes : List Byte} (hfd : 0 < fd)
    (hsome : ¬ address.isNone = true) (h : bytes.length < 2 ^ 31)
    (hR : ∀ code, code ≠ .success → R (code, ()))
    (hS : ∀ d, S (.ofList (binaryFrame network (0x01, 0x14, 0x00, 0x00) d
      ((bytes.length / 2 : ℕ) : ℤ) bytes)) ↔ P) :
    (writeWordValue network fd address length (.ofList bytes)).Opens S R ↔
      Parsed address (2 ^ 31 ≤ bytes.length + 21 ∨ P) := by
  refine analysed_opens hsome (hR _ (by simp)) fun d _ => ?_
  rw [writeAddressData]
  by_cases h10 : 10 + bytes.length < 2 ^ 31
  · rw [buildWriteWordCoreCommand_ofList d h10, Call.ofOption_some, Call.ret_bind, writeExchange]
    set core := coreHeader (0x01, 0x14, 0x00, 0x00) d ((bytes.length / 2 : ℕ) : ℤ) ++ bytes
      with hcore
    have hclen : core.length = 10 + bytes.length := by
      rw [hcore, List.length_append, coreHeader_length]
    have hne : core ≠ [] := List.ne_nil_of_length_pos (by omega)
    by_cases h21 : bytes.length + 21 < 2 ^ 31
    · have hpack := packMcCommand_ofList network core hne (by omega)
      rw [exchange_opens hfd hpack (by simp [mcCommandHeader]), hclen, hcore,
        or_iff_right (by omega)]
      exact hS d
    · have hpack := packMcCommand_refused network (show 2 ^ 31 ≤ core.length + 11 by omega)
        (by omega)
      rw [exchange_unpacked hpack]
      exact ⟨fun _ => .inl (by omega), fun _ => hR _ (by simp)⟩
  · have hbuild : buildWriteWordCoreCommand d (.ofList bytes) = some ⟨none, 0⟩ := by
      have hover : toInt32 (10 + (bytes.length : ℤ)) = 10 + bytes.length - 2 ^ 32 :=
        toInt32_of_ge (by omega) (by omega)
      have hroom : malloc (10 + (bytes.length : ℤ) - 2 ^ 32) = false := decide_eq_false (by omega)
      simp only [buildWriteWordCoreCommand, ByteArrayInfo.ofList_data,
        ByteArrayInfo.ofList_length, Option.isSome_some, if_true, hover, hroom,
        Bool.false_eq_true, if_false]
    rw [hbuild, Call.ofOption_some, Call.ret_bind, writeExchange, exchange_none rfl]
    exact ⟨fun _ => .inl (by omega), fun _ => hR _ (by simp)⟩

/-- A binary bit write. For the greatest `int` the packer of the points fails. -/
theorem writeBoolValue_opens {R : ErrorCode × Unit → Prop} (points : List Bool)
    (hlen : length = points.length) (hpoints : length < 2 ^ 31)
    (hR : ∀ code, code ≠ .success → R (code, ()))
    (hS : ∀ d, S (.ofList (binaryFrame network (0x01, 0x14, 0x01, 0x00) d length
      (packedBytes points))) ↔ P) :
    (writeBoolValue network fd address length ⟨some points, length⟩).Opens S R ↔
      (fd ≤ 0 ∨ address.isNone ∨ length ≤ 0 ∨ (some points).isNone) ∨
        Parsed address (length = 2 ^ 31 - 1 ∨ P) := by
  subst hlen
  refine guarded_opens (hR _ (by simp)) fun hok =>
    analysed_opens (fun hnone => hok (.inr (.inl hnone))) (hR _ (by simp)) ?_
  intro d ha
  by_cases hn : points.length + 1 < 2 ^ 31
  · have hcore : (bitWriteCore d points).length = 10 + (packedBytes points).length := by
      rw [bitWriteCore_length, packedBytes_length]
    have hplen : (packedBytes points).length = (points.length + 1) / 2 := packedBytes_length points
    have hpack := packMcCommand_ofList network (bitWriteCore d points)
      (List.ne_nil_of_length_pos (by omega)) (by omega)
    rw [buildWriteBitCoreCommand_eq hn, Call.ofOption_some, Call.ret_bind, writeExchange,
      exchange_opens (by omega) hpack (by simp [mcCommandHeader]), hcore, bitWriteCore,
      mcAnalysisAddress_length ha, or_iff_right (by omega)]
    exact hS d
  · have htop : (points.length : ℤ) + 1 = 2 ^ 31 := by omega
    have hfail : transBoolArrayToByteData ⟨some points, points.length⟩ =
        some ⟨none, (toInt32 (2 ^ 31)).tdiv 2⟩ := by
      simp only [transBoolArrayToByteData, htop]
      rfl
    have hbuild : buildWriteBitCoreCommand d ⟨some points, points.length⟩ = some .empty := by
      rw [buildWriteBitCoreCommand, hfail]
      rfl
    rw [hbuild, Call.ofOption_some, Call.ret_bind, writeExchange, exchange_none rfl]
    exact ⟨fun _ => .inl (by omega), fun _ => hR _ (by simp)⟩

end Opens

section Functions

theorem mcReadBool_opens {val : Bool} {R : ErrorCode × Option Bool → Prop}
    (hR : ∀ code, code ≠ .success → R (code, none))
    (hS : ∀ d, S (.ofList (binaryFrame network (0x01, 0x04, 0x01, 0x00) d 1 [])) ↔ P) :
    (mcReadBool network fd address val).Opens S R ↔
      (fd ≤ 0 ∨ address.isNone ∨ ¬ val) ∨ Parsed address P := by
  refine guarded_opens (hR _ (by simp)) fun hok => ?_
  rw [Call.opens_bind, readBoolValue_opens (P := P)]
  · exact points_checked hok one_pos
  · intro code hcode
    simp only [if_failed hcode]
    exact hR code hcode
  · exact hS

theorem mcWriteBool_opens {val : Bool} {R : ErrorCode × Unit → Prop}
    (hR : ∀ code, code ≠ .success → R (code, ()))
    (hS : ∀ d, S (.ofList (binaryFrame network (0x01, 0x14, 0x01, 0x00) d 1
      (packedBytes [val]))) ↔ P) :
    (mcWriteBool network fd address val).Opens S R ↔
      (fd ≤ 0 ∨ address.isNone) ∨ Parsed address P := by
  refine guarded_opens (hR _ (by simp)) fun hok => ?_
  have hguard : ¬ (fd ≤ 0 ∨ address.isNone = true ∨ (1 : ℤ) ≤ 0 ∨ (some [val]).isNone = true) := by
    rintro (h | h | h | h)
    · exact hok (.inl h)
    · exact hok (.inr h)
    · omega
    · simp at h
  have htop : ¬ (1 : ℤ) = 2 ^ 31 - 1 := by decide
  have hwrite : (writeBoolValue network fd address 1 ⟨some [val], 1⟩).Opens S R ↔
      (fd ≤ 0 ∨ address.isNone ∨ (1 : ℤ) ≤ 0 ∨ (some [val]).isNone) ∨
        Parsed address ((1 : ℤ) = 2 ^ 31 - 1 ∨ P) :=
    writeBoolValue_opens [val] rfl (by norm_num) hR hS
  rw [hwrite, or_iff_right hguard, or_iff_right htop]

/-- A single value is written in one or more whole words. -/
theorem mcWrite_opens (T : ValueType) {v : T.Value} {R : ErrorCode × Unit → Prop}
    (hR : ∀ code, code ≠ .success → R (code, ()))
    (hS : ∀ d, S (.ofList (binaryFrame network (0x01, 0x14, 0x00, 0x00) d T.words
      (T.codec.encode v))) ↔ P) :
    (T.mcWrite network fd address v).Opens S R ↔
      (fd ≤ 0 ∨ address.isNone) ∨ Parsed address P := by
  have hlen := T.codec.encode_length v
  have hle := T.words_le
  have hwords : (T.words : ℤ) = ((T.codec.encode v).length / 2 : ℕ) := by omega
  have hlarge : ¬ 2 ^ 31 ≤ (T.codec.encode v).length + 21 := by omega
  rw [hwords] at hS
  rw [T.mcWrite_eq]
  refine writeValue_opens hR fun hfd hsome => ?_
  rw [writeWordValue_opens hfd hsome (by omega) hR hS, or_iff_right hlarge]

theorem mcRead_opens (T : ValueType) {val : Bool} {R : ErrorCode × Option T.Value → Prop}
    (hR : ∀ code, code ≠ .success → R (code, none))
    (hS : ∀ d, S (.ofList (binaryFrame network (0x01, 0x04, 0x00, 0x00) d T.words [])) ↔ P) :
    (T.mcRead network fd address val).Opens S R ↔
      (fd ≤ 0 ∨ address.isNone ∨ ¬ val) ∨ Parsed address P := by
  have hpos := T.words_pos
  obtain ⟨enough, heq, -⟩ := T.mcRead_eq network fd address val
  rw [heq]
  exact readValue_opens (fun R' hR' => readWordValue_opens hR' fun _ => hS) (by omega) hR

theorem mcReadString_opens (range : InInt32 length) {val : Bool}
    {R : ErrorCode × Option (List Byte) → Prop} (hR : ∀ code, code ≠ .success → R (code, none))
    (hS : ∀ d, S (.ofList (binaryFrame network (0x01, 0x04, 0x00, 0x00) d ((length + 1) / 2)
      [])) ↔ P) :
    (mcReadString network fd address length val).Opens S R ↔
      (fd ≤ 0 ∨ address.isNone ∨ length ≤ 0) ∨ length = 2 ^ 31 - 1 ∨ Parsed address P := by
  refine guarded_opens (hR _ (by simp)) fun hok => ?_
  have hpos : 0 < length := not_le.mp fun h => hok (.inr (.inr h))
  have htop := evenLength_tdiv_nonpos range hpos
  rw [Call.opens_bind, readWordValue_opens (P := P), htop]
  · constructor
    · rintro ((h | h | h) | h)
      · exact absurd (.inl h) hok
      · exact absurd (.inr (.inl h)) hok
      · exact .inl h
      · exact .inr h
    · exact Or.imp_left fun h => .inr (.inr h)
  · intro code hcode
    simp only [if_failed hcode]
    exact hR code hcode
  · intro hwords d
    have := range.2
    rw [evenLength_tdiv hpos.le (by have := htop.not.mp (not_le.mpr hwords); omega)]
    exact hS d

theorem mcWriteString_opens (range : InInt32 length) {val : Option (Elements Byte length)}
    {R : ErrorCode × Unit → Prop} (hR : ∀ code, code ≠ .success → R (code, ()))
    (hS : ∀ v, val = some v → ∀ d, (S (.ofList (binaryFrame network (0x01, 0x14, 0x00, 0x00) d
      ((length + 1) / 2) (paddedString v))) ↔ P)) :
    (mcWriteString network fd address length val).Opens S R ↔
      val.isNone ∨ (fd ≤ 0 ∨ address.isNone) ∨ (length < 0 ∨ length = 2 ^ 31 - 1) ∨
        Parsed address (2 ^ 31 - 21 ≤ length ∨ P) := by
  cases val with
  | none => exact ⟨fun _ => .inl rfl, fun _ => hR _ (by simp)⟩
  | some val =>
    rw [Option.isNone_some, ← evenLength_neg_iff range, or_iff_right Bool.false_ne_true]
    refine guarded_opens (hR _ (by simp)) fun hok =>
      allocated_opens (hR _ (by simp)) fun hroom => ?_
    have hsize := mt (evenLength_neg_iff range).mpr (not_lt.mpr hroom)
    have h0 : 0 ≤ length := by omega
    have htop : length < 2 ^ 31 - 1 := by
      have := range.2
      omega
    have hlen := paddedString_length val h0 htop
    have hbuffer := paddedString_buffer val h0 htop
    have hasked : (length + 1) / 2 = ((paddedString val).length / 2 : ℕ) := by omega
    have hlarge : 2 ^ 31 ≤ (paddedString val).length + 21 ↔ 2 ^ 31 - 21 ≤ length := by omega
    have hfd : 0 < fd := not_le.mp fun h => hok (.inl h)
    rw [← paddedString, hbuffer, writeWordValue_opens hfd (fun hnone => hok (.inr hnone))
      (by omega) hR fun d => by rw [← hasked]; exact hS val rfl d, hlarge]

theorem BatchType.points_eq (T : BatchType) (range : InInt32 length) :
    T.points length = toInt32 (length * T.type.words) := by
  have hone : toInt32 (length * (1 : ℕ)) = length := by
    rw [Nat.cast_one, mul_one]
    exact toInt32_eq range
  cases T with
  | short | ushort => exact hone.symm
  | int32 | uint32 | float => rfl

/-- The number of words leaves the `int`, but not twice its range. -/
theorem BatchType.points_range (T : BatchType) (range : InInt32 length) (hpos : 0 < length) :
    0 < length * T.type.words ∧ length * T.type.words < 2 ^ 32 := by
  obtain ⟨-, hr⟩ := range
  have hwords : (T.type.words : ℤ) = 1 ∨ (T.type.words : ℤ) = 2 := by cases T <;> decide
  rcases hwords with h | h
  · rw [h]
    omega
  · rw [h]
    omega

theorem mcReadBoolBatch_opens {values : Bool} {R : ErrorCode × Option (List Bool) → Prop}
    (hR : ∀ code, code ≠ .success → R (code, none))
    (hS : ∀ d, S (.ofList (binaryFrame network (0x01, 0x04, 0x01, 0x00) d length [])) ↔ P) :
    (mcReadBoolBatch network fd address length values).Opens S R ↔
      (fd ≤ 0 ∨ address.isNone ∨ ¬ values ∨ length ≤ 0) ∨ Parsed address P := by
  refine guarded_opens (hR _ (by simp)) fun hok => ?_
  rw [Call.opens_bind, readBoolValue_opens (P := P)]
  · exact points_checked hok (not_le.mp fun h => hok (.inr (.inr (.inr h))))
  · intro code hcode
    simp only [if_failed hcode]
    exact hR code hcode
  · exact hS

theorem mcWriteBoolBatch_opens (range : InInt32 length) {values : Option (Elements Bool length)}
    {R : ErrorCode × Unit → Prop} (hR : ∀ code, code ≠ .success → R (code, ()))
    (hS : ∀ vs, values = some vs → ∀ d, (S (.ofList (binaryFrame network (0x01, 0x14, 0x01, 0x00)
      d length (packedBytes vs.used))) ↔ P)) :
    (mcWriteBoolBatch network fd address length values).Opens S R ↔
      values.isNone ∨ (fd ≤ 0 ∨ address.isNone ∨ length ≤ 0) ∨
        Parsed address (length = 2 ^ 31 - 1 ∨ P) := by
  cases values with
  | none => exact ⟨fun _ => .inl rfl, fun _ => hR _ (by simp)⟩
  | some values =>
    rw [Option.isNone_some, or_iff_right Bool.false_ne_true]
    refine guarded_opens (hR _ (by simp)) fun hok => ?_
    have hlen : length = values.used.length := by
      rw [values.used_length, Int.toNat_of_nonneg (by omega)]
    have hguard : ¬ (fd ≤ 0 ∨ address.isNone = true ∨ length ≤ 0 ∨
        (some values.used).isNone = true) := by
      rintro (h | h | h | h)
      · exact hok (.inl h)
      · exact hok (.inr (.inl h))
      · exact hok (.inr (.inr h))
      · simp at h
    rw [writeBoolValue_opens values.used hlen range.2 hR (hS values rfl), or_iff_right hguard]

theorem readBatch_opens (T : BatchType) (range : InInt32 length) {values : Bool}
    {R : ErrorCode × Option (List T.type.Value) → Prop}
    (hR : ∀ code, code ≠ .success → R (code, none))
    (hS : ∀ d, S (.ofList (binaryFrame network (0x01, 0x04, 0x00, 0x00) d
      (length * T.type.words) [])) ↔ P) :
    (readBatch network (T.points length) T.type.codec fd address length values).Opens S R ↔
      (fd ≤ 0 ∨ address.isNone ∨ ¬ values ∨ length ≤ 0) ∨ 2 ^ 31 ≤ length * T.type.words ∨
        Parsed address P := by
  refine guarded_opens (hR _ (by simp)) fun hok => ?_
  obtain ⟨hpos, hsize⟩ := T.points_range range (not_le.mp fun h => hok (.inr (.inr (.inr h))))
  rw [Call.opens_bind, readWordValue_opens (P := P), T.points_eq range]
  · by_cases hover : 2 ^ 31 ≤ length * (T.type.words : ℤ)
    · rw [toInt32_of_ge hover hsize]
      exact ⟨fun _ => .inl hover, fun _ => .inl (.inr (.inr (by omega)))⟩
    · rw [toInt32_eq ⟨by omega, by omega⟩, points_checked hok hpos, or_iff_right hover]
  · intro code hcode
    simp only [if_failed hcode]
    exact hR code hcode
  · intro hpoints d
    rw [T.points_eq range] at hpoints ⊢
    by_cases hover : 2 ^ 31 ≤ length * (T.type.words : ℤ)
    · rw [toInt32_of_ge hover hsize] at hpoints
      omega
    · rw [toInt32_eq ⟨by omega, by omega⟩]
      exact hS d

theorem writeBatch_opens (T : BatchType) {values : Option (Elements T.type.Value length)}
    {R : ErrorCode × Unit → Prop} (hR : ∀ code, code ≠ .success → R (code, ()))
    (hS : ∀ vs, values = some vs → ∀ d, (S (.ofList (binaryFrame network (0x01, 0x14, 0x00, 0x00)
      d (length * T.type.words) (vs.used.flatMap T.type.codec.encode))) ↔ P)) :
    (writeBatch network (T.points length) T.type.codec fd address length values).Opens S R ↔
      values.isNone ∨ (fd ≤ 0 ∨ address.isNone ∨ length ≤ 0) ∨
        2 ^ 31 ≤ length * (2 * T.type.words) % 2 ^ 32 ∨
          length * (2 * T.type.words) < 2 ^ 31 ∧
            Parsed address (2 ^ 31 - 21 ≤ length * (2 * T.type.words) ∨ P) := by
  cases values with
  | none => exact ⟨fun _ => .inl rfl, fun _ => hR _ (by simp)⟩
  | some values =>
    have hcast : length * (2 * T.type.words) = length * (2 * T.type.words : ℕ) := by
      push_cast
      rfl
    rw [Option.isNone_some, or_iff_right Bool.false_ne_true, hcast, ← toInt32_neg_iff]
    refine guarded_opens (hR _ (by simp)) fun hok =>
      allocated_opens (hR _ (by simp)) fun hroom => ?_
    have hpos : 0 < length := not_le.mp fun h => hok (.inr (.inr h))
    have hfd : 0 < fd := not_le.mp fun h => hok (.inl h)
    have hlen : ((values.used.flatMap T.type.codec.encode).length : ℤ) =
        length * (2 * T.type.words : ℕ) := by
      rw [ValueCodec.flatMap_encode_length, values.used_length]
      push_cast
      rw [Int.toNat_of_nonneg hpos.le]
    have hhalf : length * T.type.words =
        ((values.used.flatMap T.type.codec.encode).length / 2 : ℕ) := by
      have : length * (2 * T.type.words) = 2 * (length * T.type.words) := by ring
      omega
    have hframe := hS values rfl
    rw [hhalf] at hframe
    rw [← hlen] at hroom ⊢
    generalize values.used.flatMap T.type.codec.encode = bytes at hframe hroom ⊢
    by_cases hlt : (bytes.length : ℤ) < 2 ^ 31
    · have hsize : toInt32 (bytes.length : ℤ) = bytes.length := toInt32_eq ⟨by omega, hlt⟩
      have hlarge : 2 ^ 31 ≤ bytes.length + 21 ↔ 2 ^ 31 - 21 ≤ (bytes.length : ℤ) := by omega
      rw [hsize, if_pos le_rfl, and_iff_right hlt, ← hlarge]
      exact writeWordValue_opens hfd (fun hnone => hok (.inr (.inl hnone))) (by omega) hR hframe
    · -- the loop writes behind the buffer that the wrapped size asked for
      have hover := (toInt32_range (bytes.length : ℤ)).2
      rw [if_neg fun hle => hlt (lt_of_le_of_lt hle hover)]
      exact ⟨False.elim, fun h => hlt h.1⟩

end Functions

end MelsecMc
