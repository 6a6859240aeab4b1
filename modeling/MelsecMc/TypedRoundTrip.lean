import MelsecMc.Requests
import MelsecMc.ResponseAgreement

/-!
# Typed values survive the wire

The payload of a write request, sent back as the payload of a response, is read
as the value that was written: for single values in both formats, and element by
element for the batch functions.
-/
namespace MelsecMc

open Numeral (write)

/-- The request of a call behind its first `header` bytes. -/
def Call.payload {α : Type} (header : ℕ) (c : Call α) : List Byte :=
  match c.request with
  | some ⟨some data, _⟩ => data.drop header
  | _ => []

/-- The words of bytes give the bytes back. -/
theorem leWords_wordBytes {bytes : List Byte} {ws : List ℕ} (h : leWords bytes = some ws) :
    ws.flatMap wordBytes = bytes := by
  induction bytes using leWords.induct generalizing ws with
  | case1 => simp only [leWords, Option.some.injEq] at h; subst h; rfl
  | case2 b₀ b₁ bytes ih =>
    rw [leWords] at h
    obtain ⟨vs, hvs, rfl⟩ := Option.map_eq_some_iff.mp h
    have h0 := b₀.isLt
    have h1 := b₁.isLt
    have hlow : BitVec.ofNat 8 (le16 b₀ b₁) = b₀ := by
      apply BitVec.eq_of_toNat_eq
      rw [le16_eq, BitVec.toNat_ofNat]
      omega
    have hhigh : BitVec.ofNat 8 (le16 b₀ b₁ / 256) = b₁ := by
      apply BitVec.eq_of_toNat_eq
      rw [le16_eq, BitVec.toNat_ofNat]
      omega
    rw [List.flatMap_cons, wordBytes, hlow, hhigh, ih hvs]
    rfl
  | case3 bytes h0 h2 => simp [leWords] at h

section Words

variable {network : PlcNetworkAddress} {fd : ℤ} {address : Option CString} {length : ℤ}
  {front : List Byte}

theorem writeWordValue_of_request {in_bytes : ByteArrayInfo}
    (hw : (writeWordValue network fd address length in_bytes).request ≠ none) :
    0 < fd ∧ ∃ address_data, mcAnalysisAddress address length = some (some address_data) := by
  obtain ⟨address_data, ha, he⟩ := analysed_of_request hw
  rw [writeWordValue, he, writeAddressData] at hw
  cases hc : buildWriteWordCoreCommand address_data in_bytes with
  | none =>
    rw [hc] at hw
    exact absurd rfl hw
  | some core_cmd =>
    rw [hc] at hw
    obtain ⟨cmd, -, hfd, -⟩ := exchange_of_request hw
    exact ⟨hfd, address_data, ha⟩

/-- The request of a word write. -/
theorem writeWordValue_transact (network : PlcNetworkAddress)
    {address_data : MelsecMcAddressData} (bytes : List Byte) (hfd : 0 < fd)
    (ha : mcAnalysisAddress address length = some (some address_data))
    (h : bytes.length + 21 < 2 ^ 31) : ∃ next,
    writeWordValue network fd address length (.ofList bytes) =
      .transact fd (.ofList (mcCommandHeader network ((10 + bytes.length : ℕ) + 11) ++
        (coreHeader (0x01, 0x14, 0x00, 0x00) address_data ((bytes.length / 2 : ℕ) : ℤ) ++ bytes)))
        next := by
  have hcore : (coreHeader (0x01, 0x14, 0x00, 0x00) address_data ((bytes.length / 2 : ℕ) : ℤ) ++
      bytes).length = 10 + bytes.length := by
    rw [List.length_append, coreHeader_length]
  have hpack := packMcCommand_ofList network _ (List.ne_nil_of_length_pos (by rw [hcore]; omega))
    (show _ + 11 < 2 ^ 31 by rw [hcore]; omega)
  rw [hcore] at hpack
  have hcall : writeWordValue network fd address length (.ofList bytes) =
      writeExchange network fd (.ofList (coreHeader (0x01, 0x14, 0x00, 0x00) address_data
        ((bytes.length / 2 : ℕ) : ℤ) ++ bytes)) := by
    simp only [writeWordValue, analysed, ha, writeAddressData]
    rw [buildWriteWordCoreCommand_ofList _ (by omega), Call.ofOption_some, Call.ret_bind]
  exact ⟨_, hcall.trans (exchange_packed hfd hpack (by simp [mcCommandHeader]))⟩

/-- The payload of a word write in a binary frame. -/
theorem writeWordValue_payload (bytes : List Byte) (h : bytes.length + 21 < 2 ^ 31)
    (hw : (writeWordValue network fd address length (.ofList bytes)).request ≠ none) :
    (writeWordValue network fd address length (.ofList bytes)).payload 21 = bytes := by
  obtain ⟨hfd, address_data, ha⟩ := writeWordValue_of_request hw
  obtain ⟨next, hnext⟩ := writeWordValue_transact network bytes hfd ha h
  rw [hnext]
  rfl

/-- The payload of a word write in an ASCII frame. -/
theorem Ascii.writeWordValue_payload {bytes : List Byte} (h0 : bytes ≠ [])
    (heven : bytes.length % 2 = 0) (h : 2 * bytes.length + 42 < 2 ^ 31)
    (hw : (Ascii.writeWordValue network fd address length (.ofList bytes)).request ≠ none) :
    (Ascii.writeWordValue network fd address length (.ofList bytes)).payload 42 =
      (swapWords bytes).flatMap hexStrPair := by
  unfold Ascii.writeWordValue at hw ⊢
  split at hw
  · exact absurd rfl hw
  · rename_i hok
    rw [if_neg hok]
    obtain ⟨address_data, -, he⟩ := analysed_of_request hw
    rw [he] at hw ⊢
    have hlen := hexStrPair_flatMap_length (swapWords bytes)
    rw [swapWords_length] at hlen
    rw [mcAsciiBuildWriteWordCoreCommand_ofList _ h0 heven (by omega), Call.ofOption_some,
      Call.ret_bind] at hw ⊢
    cases hh : asciiCoreHeader ['1', '4', '0', '1', '0', '0', '0', '0'] address_data with
    | none =>
      rw [hh] at hw
      exact absurd rfl hw
    | some header =>
      have hsize := asciiCoreHeader_length rfl hh
      rw [hh, Option.elim_some, Ascii.writeExchange] at hw
      rw [Option.elim_some, Ascii.writeExchange]
      obtain ⟨cmd, hp, -, hx⟩ := exchange_of_request hw
      rw [packMcAsciiCommand_ofList network _ (List.ne_nil_of_length_pos (by simp; omega))
        (by rw [List.length_append]; omega)] at hp
      rw [hx, ← Option.some.inj hp]
      change List.drop 42 (mcAsciiCommandHeader network _ ++ (header ++ _)) = _
      rw [← List.append_assoc, List.drop_left']
      rw [List.length_append, mcAsciiCommandHeader_length, hsize]

/-- A word read of a binary response hands over its payload. -/
theorem readWordValue_answer {bytes : List Byte} (hf : front.length = 7) (h0 : bytes ≠ [])
    (h : 2 + bytes.length < 2 ^ 16)
    (hr : (readWordValue network fd address length .empty).request ≠ none) :
    (readWordValue network fd address length .empty).answer
        (.ofFrame (binaryResponse front 0 bytes)) = some (.success, .ofList bytes) := by
  unfold readWordValue at hr ⊢
  split at hr
  · exact absurd rfl hr
  · rename_i hok
    rw [if_neg hok]
    obtain ⟨address_data, -, he⟩ := analysed_of_request hr
    rw [he, readAddressData, if_neg (by omega)] at hr ⊢
    have hmin : minResponseHeaderSize = 11 := rfl
    have hlen := binaryResponse_length 0 bytes hf
    rw [exchange_answer hr (by omega), binaryResponse_parsed 0 bytes hf h, attached, if_neg h0]
    rfl

/-- A word read of an ASCII response hands over the bytes behind its text. -/
theorem Ascii.readWordValue_answer {bytes : List Byte} (hf : front.length = 14) (h0 : bytes ≠ [])
    (heven : bytes.length % 2 = 0)
    (hr : (Ascii.readWordValue network fd address length .empty).request ≠ none) :
    (Ascii.readWordValue network fd address length .empty).answer
        (.ofFrame (asciiResponse front 0 ((swapWords bytes).flatMap hexStrPair))) =
      some (.success, .ofList bytes) := by
  unfold Ascii.readWordValue Ascii.readDeviceValue at hr ⊢
  split at hr
  · exact absurd rfl hr
  · rename_i hok
    rw [if_neg hok]
    obtain ⟨address_data, -, he⟩ := analysed_of_request hr
    rw [he] at hr ⊢
    obtain ⟨words, hwords⟩ := leWords_isSome heven
    have hmin : asciiMinResponseHeaderSize = 22 := rfl
    have hlen := asciiResponse_length 0 ((swapWords bytes).flatMap hexStrPair) hf
    have hcode := asciiResponse_endCode 0 ((swapWords bytes).flatMap hexStrPair) hf
    have htext := hexWords_flatMap_hexStrPair bytes
    rw [hwords, ← asciiResponse_drop 0 ((swapWords bytes).flatMap hexStrPair) hf] at htext
    rw [exchange_answer hr (by omega), mcAsciiParseReadResponse_words (by omega) hcode htext,
      leWords_wordBytes hwords, attached, if_neg h0]
    rfl

end Words

section Values

variable {size : ℕ} (C : ValueCodec size) {fd : ℤ} {address : Option CString}

/-- A reader that is given the bytes of a value returns the value. -/
theorem readValue_answer
    {readWord : ℤ → Option CString → ℤ → ByteArrayInfo → Call (ErrorCode × ByteArrayInfo)}
    {points : ℤ} {enough : ℤ → Bool} (he : enough size = true) {v : BitVec (8 * size)}
    {r : Transacted}
    (hr : (readValue readWord points enough C fd address true).request ≠ none)
    (ha : (readWord fd address points .empty).request ≠ none →
      (readWord fd address points .empty).answer r = some (.success, .ofList (C.encode v))) :
    (readValue readWord points enough C fd address true).answer r = some (.success, some v) := by
  unfold readValue at hr ⊢
  split at hr
  · exact absurd rfl hr
  · rename_i hok
    have hdecode := C.decode_encode v []
    rw [List.append_nil] at hdecode
    have hcont : ∀ result : ErrorCode × ByteArrayInfo,
        (if result.1 = .success ∧ enough result.2.length then do
          let v ← Call.ofOption (result.2.data.bind C.decode)
          return (result.1, some v)
        else return (result.1, none) : Call (ErrorCode × Option (BitVec (8 * size)))).request =
          none := by
      intro result
      split
      · exact Call.request_ofOption_bind _ fun _ => rfl
      · rfl
    have hword := Call.request_bind (c := readWord fd address points .empty) hcont
    rw [if_neg hok, Call.answer_bind, ha (hword ▸ hr)]
    simp [hdecode, he]

end Values

/-- What a single-value writer sends. -/
theorem writeValue_payload {size : ℕ} (C : ValueCodec size) {fd : ℤ} {address : Option CString}
    {writeWord : ℤ → Option CString → ℤ → ByteArrayInfo → Call (ErrorCode × Unit)}
    {points : ℤ} {v : BitVec (8 * size)} {header : ℕ} {payload : List Byte}
    (hw : (writeValue writeWord points C fd address v).request ≠ none)
    (hp : (writeWord fd address points (.ofList (C.encode v))).request ≠ none →
      (writeWord fd address points (.ofList (C.encode v))).payload header = payload) :
    (writeValue writeWord points C fd address v).payload header = payload := by
  unfold writeValue at hw ⊢
  split at hw
  · exact absurd rfl hw
  · rename_i hok
    rw [if_neg hok]
    exact hp hw

namespace ValueType

variable (T : ValueType) {network : PlcNetworkAddress} {fd : ℤ} {address : Option CString}
  {front : List Byte} {v : T.Value}

theorem encode_ne_nil : T.codec.encode v ≠ [] := by
  have := T.words_pos
  apply List.ne_nil_of_length_pos
  rw [ValueCodec.encode_length]
  omega

/-- The payload of a binary write. -/
theorem mcWrite_payload (hw : (T.mcWrite network fd address v).request ≠ none) :
    (T.mcWrite network fd address v).payload 21 = T.codec.encode v := by
  have := T.words_le
  rw [mcWrite_eq] at hw ⊢
  exact writeValue_payload T.codec hw
    (writeWordValue_payload (T.codec.encode v) (by rw [ValueCodec.encode_length]; omega))

/-- The payload of an ASCII write. -/
theorem mcAsciiWrite_payload (hw : (T.mcAsciiWrite network fd address v).request ≠ none) :
    (T.mcAsciiWrite network fd address v).payload 42 =
      (swapWords (T.codec.encode v)).flatMap hexStrPair := by
  have := T.words_le
  rw [mcAsciiWrite_eq] at hw ⊢
  exact writeValue_payload T.codec hw
    (Ascii.writeWordValue_payload T.encode_ne_nil (by rw [ValueCodec.encode_length]; omega)
      (by rw [ValueCodec.encode_length]; omega))

theorem mcRead_answer (hf : front.length = 7)
    (hr : (T.mcRead network fd address true).request ≠ none) :
    (T.mcRead network fd address true).answer
        (.ofFrame (binaryResponse front 0 (T.codec.encode v))) = some (.success, some v) := by
  have := T.words_le
  obtain ⟨enough, hread, he⟩ := T.mcRead_eq network fd address true
  rw [hread] at hr ⊢
  exact readValue_answer T.codec he hr
    (readWordValue_answer hf T.encode_ne_nil (by rw [ValueCodec.encode_length]; omega))

theorem mcAsciiRead_answer (hf : front.length = 14)
    (hr : (T.mcAsciiRead network fd address true).request ≠ none) :
    (T.mcAsciiRead network fd address true).answer
        (.ofFrame (asciiResponse front 0 ((swapWords (T.codec.encode v)).flatMap hexStrPair))) =
      some (.success, some v) := by
  rw [mcAsciiRead_eq] at hr ⊢
  exact readValue_answer T.codec (by simp) hr
    (Ascii.readWordValue_answer hf T.encode_ne_nil (by rw [ValueCodec.encode_length]; omega))

end ValueType

section Batch

variable {size : ℕ} (C : ValueCodec size)

/-- The elements of a batch lie one behind the other. -/
theorem drop_flatMap_encode (vs : List (BitVec (8 * size))) (i : ℕ) :
    (vs.flatMap C.encode).drop (i * size) = (vs.drop i).flatMap C.encode := by
  induction vs generalizing i with
  | nil => simp
  | cons v vs ih =>
    cases i with
    | zero => simp
    | succ i =>
      have hsize : (i + 1) * size = (C.encode v).length + i * size := by
        rw [C.encode_length]
        ring
      rw [List.flatMap_cons, hsize, ← List.drop_drop, List.drop_left, ih, List.drop_succ_cons]

/-- The loop of a batch reader gives every element back. -/
theorem decode_batch (vs : List (BitVec (8 * size))) :
    ((List.range vs.length).mapM fun i => C.decode ((vs.flatMap C.encode).drop (i * size))) =
      some vs := by
  have hall : ∀ i ∈ List.range vs.length,
      C.decode ((vs.flatMap C.encode).drop (i * size)) = some (vs.getD i 0) := by
    intro i hi
    have hlt := List.mem_range.mp hi
    rw [drop_flatMap_encode, List.drop_eq_getElem_cons hlt, List.flatMap_cons, C.decode_encode,
      List.getD_eq_getElem?_getD, List.getElem?_eq_getElem hlt, Option.getD_some]
  rw [mapM_some hall]
  congr 1
  apply List.ext_getElem
  · simp
  · intro i h1 h2
    simp [h2]

variable {network : PlcNetworkAddress} {fd : ℤ} {address : Option CString} {points : ℤ}
  {front : List Byte} {vs : List (BitVec (8 * size))}

/-- The size in bytes of a batch that is an `int`. -/
theorem batch_size (h : vs.length * size < 2 ^ 31) :
    (vs.length : ℤ) * size = (vs.flatMap C.encode).length ∧
      toInt32 ((vs.flatMap C.encode).length : ℤ) = (vs.flatMap C.encode).length := by
  rw [C.flatMap_encode_length vs]
  refine ⟨by push_cast; rfl, toInt32_eq ⟨by omega, by omega⟩⟩

/-- A batch that fits a frame is one word write. -/
theorem writeBatch_eq (h : vs.length * size + 12 < 2 ^ 16)
    (hw : (writeBatch network points C fd address vs.length (some (.ofList vs))).request ≠ none) :
    writeBatch network points C fd address vs.length (some (.ofList vs)) =
      writeWordValue network fd address points (.ofList (vs.flatMap C.encode)) := by
  have hlen := C.flatMap_encode_length vs
  obtain ⟨hcast, hsize⟩ := batch_size C (show vs.length * size < 2 ^ 31 by omega)
  have hroom : malloc ((vs.flatMap C.encode).length : ℤ) = true := decide_eq_true (by omega)
  unfold writeBatch at hw ⊢
  simp only [hcast, hsize, hroom, le_refl, Elements.used_ofList, if_true] at hw ⊢
  split at hw
  · exact absurd rfl hw
  · rename_i hok
    rw [if_neg hok]
    rfl

theorem readBatch_answer (hf : front.length = 7) (h0 : vs ≠ []) (hs : 0 < size)
    (h : vs.length * size + 12 < 2 ^ 16)
    (hr : (readBatch network points C fd address vs.length true).request ≠ none) :
    (readBatch network points C fd address vs.length true).answer
        (.ofFrame (binaryResponse front 0 (vs.flatMap C.encode))) = some (.success, some vs) := by
  have hpos := List.length_pos_iff.mpr h0
  have hlen := C.flatMap_encode_length vs
  have hne : vs.flatMap C.encode ≠ [] := by
    apply List.ne_nil_of_length_pos
    rw [hlen]
    positivity
  obtain ⟨hcast, hsize⟩ := batch_size C (show vs.length * size < 2 ^ 31 by omega)
  unfold readBatch at hr ⊢
  simp only [hcast, hsize, Int.toNat_natCast] at hr ⊢
  split at hr
  · exact absurd rfl hr
  · rename_i hok
    have hcont : ∀ result : ErrorCode × ByteArrayInfo,
        (if result.1 = .success ∧ result.2.length ≥ (vs.flatMap C.encode).length then do
          let vs ← Call.ofOption ((List.range vs.length).mapM fun i =>
            result.2.data.bind fun data => C.decode (data.drop (i * size)))
          return (result.1, some vs)
        else return (result.1, none) : Call (ErrorCode × Option (List (BitVec (8 * size))))).request
          = none := by
      intro result
      split
      · exact Call.request_ofOption_bind _ fun _ => rfl
      · rfl
    have hword := Call.request_bind (c := readWordValue network fd address points .empty) hcont
    rw [if_neg hok, Call.answer_bind, readWordValue_answer hf hne (by omega) (hword ▸ hr)]
    simp [decode_batch]

end Batch

section Requests

variable (network : PlcNetworkAddress) {fd : ℤ} {address : Option CString}

namespace ValueType

variable (T : ValueType)

theorem mcWrite_request (v : T.Value) (hfd : 0 < fd) (ha : AddressAccepted address) :
    (T.mcWrite network fd address v).request ≠ none := by
  have hcall := Access.mc_request network fd (.writeValue T v) ha
    (not_le.mpr hfd) id
  rwa [Access.mc, Call.code_request] at hcall

theorem mcRead_request (hfd : 0 < fd) (ha : AddressAccepted address) :
    (T.mcRead network fd address true).request ≠ none := by
  have hcall := Access.mc_request network fd (.readValue T true) ha
    (by simp [Access.Refused, hfd]) id
  rwa [Access.mc, Call.code_request] at hcall

theorem mcAsciiWrite_request (v : T.Value) (hfd : 0 < fd) (ha : AddressAccepted address)
    (hstart : ¬ NegativeStart address) : (T.mcAsciiWrite network fd address v).request ≠ none := by
  have hcall := Access.mcAscii_request network fd (.writeValue T v) ha hstart
    (not_le.mpr hfd) trivial id
  rwa [Access.mcAscii, Call.code_request] at hcall

theorem mcAsciiRead_request (hfd : 0 < fd) (ha : AddressAccepted address)
    (hstart : ¬ NegativeStart address) :
    (T.mcAsciiRead network fd address true).request ≠ none := by
  have hcall := Access.mcAscii_request network fd (.readValue T true) ha hstart
    (by simp [Access.AsciiRefused, hfd]) trivial id
  rwa [Access.mcAscii, Call.code_request] at hcall

end ValueType

namespace BatchType

variable (T : BatchType) {vs : List T.type.Value}

theorem mcWriteBatch_request (h0 : vs ≠ [])
    (h : vs.length * (2 * T.type.words) + 12 < 2 ^ 16) (hfd : 0 < fd)
    (ha : AddressAccepted address) :
    (T.mcWriteBatch network fd address vs.length (some (.ofList vs))).request ≠ none := by
  have hpos := List.length_pos_iff.mpr h0
  have hwords := T.type.words_pos
  have hle : vs.length ≤ vs.length * (2 * T.type.words) := Nat.le_mul_of_pos_right _ (by omega)
  have hcast : (vs.length : ℤ) * (2 * T.type.words) = (vs.length * (2 * T.type.words) : ℕ) := by
    push_cast
    rfl
  have hcall := BatchAccess.mc_request network fd
    (.write T vs.length ⟨by omega, by omega⟩ (some (.ofList vs))) ha ?_ ?_ ?_
  · simpa only [BatchAccess.mc, Call.code_request] using hcall
  · simp only [BatchAccess.Refused, hcast, Option.isNone_some, Bool.false_eq_true, false_or]
    omega
  · simp only [BatchAccess.Fits, hcast]
    omega
  · simp only [BatchAccess.TooLarge, hcast]
    omega

theorem mcReadBatch_request (h0 : vs ≠ [])
    (h : vs.length * (2 * T.type.words) + 12 < 2 ^ 16) (hfd : 0 < fd)
    (ha : AddressAccepted address) :
    (T.mcReadBatch network fd address vs.length true).request ≠ none := by
  have hpos := List.length_pos_iff.mpr h0
  have hwords := T.type.words_pos
  have hle : vs.length ≤ vs.length * (2 * T.type.words) := Nat.le_mul_of_pos_right _ (by omega)
  have hhalf : vs.length * T.type.words ≤ vs.length * (2 * T.type.words) :=
    Nat.mul_le_mul_left _ (by omega)
  have hcast : (vs.length : ℤ) * T.type.words = (vs.length * T.type.words : ℕ) := by
    push_cast
    rfl
  have hcall := BatchAccess.mc_request network fd
    (.read T vs.length ⟨by omega, by omega⟩ true) ha ?_ trivial id
  · simpa only [BatchAccess.mc, Call.code_request] using hcall
  · simp only [BatchAccess.Refused, hcast, not_true_eq_false, false_or]
    omega

end BatchType

end Requests

theorem addressAccepted_D100 :
    AddressAccepted (some ⟨text ['D', '1', '0', '0'], by decide⟩) :=
  ⟨⟨deviceD, 100, 0⟩, by decide⟩

theorem not_negativeStart_D100 :
    ¬ NegativeStart (some ⟨text ['D', '1', '0', '0'], by decide⟩) := by
  have haddress : mcAnalysisAddress (some ⟨text ['D', '1', '0', '0'], by decide⟩) 0 =
      some (some ⟨deviceD, 100, 0⟩) := by decide
  rw [negativeStart_iff haddress]
  decide

/-- With an accepted address and an open descriptor, all typed functions of both modules hand over
their requests, and values and lists of values come back as they were written. The payload of a
batch is that of the single values one behind the other. In ASCII the number of the device must not
be negative. -/
theorem typed_values_survive (front asciiFront : List Byte) (hf : front.length = 7)
    (haf : asciiFront.length = 14) (network network' : PlcNetworkAddress) (fd fd' : ℤ)
    (hfd : 0 < fd) (hfd' : 0 < fd') (address address' : Option CString)
    (ha : AddressAccepted address) (ha' : AddressAccepted address') :
    (∀ (T : ValueType) (v : T.Value),
      (T.mcWrite network fd address v).request ≠ none ∧
      (T.mcRead network' fd' address' true).request ≠ none ∧
      (T.mcRead network' fd' address' true).answer (.ofFrame (binaryResponse front 0
        ((T.mcWrite network fd address v).payload 21))) = some (.success, some v)) ∧
    (¬ NegativeStart address → ¬ NegativeStart address' → ∀ (T : ValueType) (v : T.Value),
      (T.mcAsciiWrite network fd address v).request ≠ none ∧
      (T.mcAsciiRead network' fd' address' true).request ≠ none ∧
      (T.mcAsciiRead network' fd' address' true).answer (.ofFrame (asciiResponse asciiFront 0
        ((T.mcAsciiWrite network fd address v).payload 42))) = some (.success, some v)) ∧
    ∀ (T : BatchType) (vs : List T.type.Value), vs ≠ [] →
      vs.length * (2 * T.type.words) + 12 < 2 ^ 16 →
      (T.mcWriteBatch network fd address vs.length (some (.ofList vs))).request ≠ none ∧
      (T.mcReadBatch network' fd' address' vs.length true).request ≠ none ∧
      (T.mcWriteBatch network fd address vs.length (some (.ofList vs))).payload 21 =
        (vs.flatMap fun v => (T.type.mcWrite network fd address v).payload 21) ∧
      (T.mcReadBatch network' fd' address' vs.length true).answer (.ofFrame
        (binaryResponse front 0 ((T.mcWriteBatch network fd address vs.length
          (some (.ofList vs))).payload 21))) = some (.success, some vs) := by
  refine ⟨fun T v => ?_, fun hstart hstart' T v => ?_, fun T vs h0 h => ?_⟩
  · have hw := T.mcWrite_request network v hfd ha
    have hr := T.mcRead_request network' hfd' ha'
    refine ⟨hw, hr, ?_⟩
    rw [T.mcWrite_payload hw]
    exact T.mcRead_answer hf hr
  · have hw := T.mcAsciiWrite_request network v hfd ha hstart
    have hr := T.mcAsciiRead_request network' hfd' ha' hstart'
    refine ⟨hw, hr, ?_⟩
    rw [T.mcAsciiWrite_payload hw]
    exact T.mcAsciiRead_answer haf hr
  · have hw := T.mcWriteBatch_request network h0 h hfd ha
    have hr := T.mcReadBatch_request network' h0 h hfd' ha'
    refine ⟨hw, hr, ?_⟩
    have hlen := T.type.codec.flatMap_encode_length vs
    have hwords := T.type.words_pos
    rw [T.mcWriteBatch_eq] at hw ⊢
    have heq := writeBatch_eq T.type.codec h hw
    rw [heq] at hw ⊢
    rw [writeWordValue_payload (vs.flatMap T.type.codec.encode) (by omega) hw]
    refine ⟨?_, ?_⟩
    · exact congrArg (vs.flatMap ·)
        (funext fun v => (T.type.mcWrite_payload (T.type.mcWrite_request network v hfd ha)).symm)
    · rw [T.mcReadBatch_eq] at hr ⊢
      exact readBatch_answer T.type.codec hf h0 (by omega) h hr

/-- A `float`, a negative 64-bit value in ASCII, and two `short`s, through D100. -/
theorem typed_values_survive_D100 :
    ((ValueType.float).mcRead ⟨0, 0⟩ 3 (some ⟨text ['D', '1', '0', '0'], by decide⟩) true).answer
        (.ofFrame (binaryResponse [0xD0, 0x00, 0x00, 0xFF, 0xFF, 0x03, 0x00] 0
          (((ValueType.float).mcWrite ⟨0, 0⟩ 3 (some ⟨text ['D', '1', '0', '0'], by decide⟩)
            0x41200000#32).payload 21))) = some (.success, some 0x41200000#32) ∧
      ((ValueType.int64).mcAsciiRead ⟨0, 0⟩ 3
        (some ⟨text ['D', '1', '0', '0'], by decide⟩) true).answer
        (.ofFrame (asciiResponse
          (text ['D', '0', '0', '0', '0', '0', 'F', 'F', '0', '3', 'F', 'F', '0', '0']) 0
          (((ValueType.int64).mcAsciiWrite ⟨0, 0⟩ 3 (some ⟨text ['D', '1', '0', '0'], by decide⟩)
            (-2#64)).payload 42))) = some (.success, some (-2#64)) ∧
      ((BatchType.short).mcReadBatch ⟨0, 0⟩ 3 (some ⟨text ['D', '1', '0', '0'], by decide⟩) 2
        true).answer
        (.ofFrame (binaryResponse [0xD0, 0x00, 0x00, 0xFF, 0xFF, 0x03, 0x00] 0
          (((BatchType.short).mcWriteBatch ⟨0, 0⟩ 3 (some ⟨text ['D', '1', '0', '0'], by decide⟩) 2
            (some (.ofList [1#16, -1#16]))).payload 21))) =
        some (.success, some [1#16, -1#16]) := by
  obtain ⟨hvalues, hascii, hbatches⟩ := typed_values_survive
    [0xD0, 0x00, 0x00, 0xFF, 0xFF, 0x03, 0x00]
    (text ['D', '0', '0', '0', '0', '0', 'F', 'F', '0', '3', 'F', 'F', '0', '0']) rfl rfl ⟨0, 0⟩
    ⟨0, 0⟩ 3 3 (by decide) (by decide) (some ⟨text ['D', '1', '0', '0'], by decide⟩)
    (some ⟨text ['D', '1', '0', '0'], by decide⟩) addressAccepted_D100
    addressAccepted_D100
  exact ⟨(hvalues .float 0x41200000#32).2.2,
    (hascii not_negativeStart_D100 not_negativeStart_D100 .int64 (-2#64)).2.2,
    (hbatches .short [1#16, -1#16] (by decide) (by decide)).2.2.2⟩

end MelsecMc
