import MelsecMc.AsciiApi
import MelsecMc.RequestFrames
import MelsecMc.ResponseAgreement

/-!
# Responses to commands

The answers to writes and to commands go through two parsers of their own. Both
take the code from the end code. The ASCII one hands over any payload, the binary
one only payloads of more than two bytes, so a payload of one or two bytes is lost
in the binary format.
-/
namespace MelsecMc

/-- The bytes of a payload, one behind the other, in an ASCII frame. -/
def hexPayload (payload : List Byte) : List Byte := payload.flatMap hexStrPair

theorem hexPayload_length (payload : List Byte) :
    (hexPayload payload).length = 2 * payload.length :=
  hexStrPair_flatMap_length payload

theorem hexPairsToBytes_hexPayload (payload : List Byte) :
    hexPairsToBytes (hexPayload payload) = some payload :=
  hexPairsToBytes_flatMap payload

/-- The binary parser on a response: short payloads are not attached. -/
theorem mcParseWriteResponse_binaryResponse {front : List Byte} (hf : front.length = 7)
    (end_code : BitVec 16) {payload : List Byte} (h : 2 + payload.length < 2 ^ 16)
    (data : Option ByteArrayInfo) :
    mcParseWriteResponse (.ofList (binaryResponse front end_code payload)) data =
      some (if end_code.toNat = 0 then .success else .failed,
        if payload.length > 2 ∧ data.isSome then some (.ofList payload) else data) := by
  have hlen := binaryResponse_length end_code payload hf
  have hcount : (binaryResponse front end_code payload).length - 11 = payload.length := by omega
  rw [mcParseWriteResponse,
    parseResponse_wellFormed _ (binaryResponse_wellFormed end_code payload hf h),
    binaryResponse_endCode end_code payload hf, binaryResponse_drop end_code payload hf, hcount]
  simp only [decide_eq_true_eq]

/-- The ASCII parser on a response to a caller without a descriptor. -/
theorem mcAsciiParseWriteResponse_none {front : List Byte} (hf : front.length = 14)
    (end_code : BitVec 16) (payload : List Byte) :
    mcAsciiParseWriteResponse (.ofList (asciiResponse front end_code payload)) none =
      some (if end_code.toNat = 0 then .success else .failed, none) := by
  have hlen := asciiResponse_length end_code payload hf
  rw [mcAsciiParseWriteResponse, mcAsciiParseResponseEndCode_ofList (by omega),
    asciiResponse_endCode end_code payload hf]
  cases end_code.toNat with
  | zero => rfl
  | succ n => rfl

/-- The ASCII parser behind a zero end code: every payload is attached. -/
theorem mcAsciiParseWriteResponse_accepted {frame payload : List Byte} (h : 22 ≤ frame.length)
    (hc : asciiEndCode frame = some 0) (hp : frame.drop 22 = hexPayload payload)
    (data : ByteArrayInfo) :
    mcAsciiParseWriteResponse (.ofList frame) (some data) =
      some (.success, some (attached .empty payload)) := by
  have hret := mcAsciiParseResponseEndCode_ofList h
  have hcopy := memcpy_drop h
  have hmin : asciiMinResponseHeaderSize = 22 := rfl
  have hlen : (frame.drop 22).length = 2 * payload.length := by rw [hp, hexPayload_length]
  rw [List.length_drop] at hlen
  have hcount : (frame.length : ℤ) - (22 : ℕ) = 2 * payload.length := by omega
  rw [hcount, hp] at hcopy
  have htwo : (2 * (payload.length : ℤ)).tdiv 2 = payload.length := by
    rw [Int.tdiv_eq_ediv_of_nonneg (by omega)]
    omega
  have hmod : (2 * (payload.length : ℤ)).tmod 2 = 0 := by
    rw [Int.tmod_eq_emod_of_nonneg (by omega)]
    omega
  rw [hc] at hret
  simp only [mcAsciiParseWriteResponse, hret, asciiEndResult, Option.bind_eq_bind,
    Option.bind_some, ne_eq, not_true_eq_false, if_false, ByteArrayInfo.ofList_data,
    ByteArrayInfo.ofList_length, hmin, hcount, hmod, hp, hcopy, htwo, hexPairsToBytes_hexPayload]
  by_cases h0 : payload = []
  · subst h0
    rfl
  · have hpos := List.length_pos_iff.mpr h0
    rw [if_neg (by omega), attached, if_neg h0]
    rfl

/-- An end code other than zero leaves the descriptor as it is. -/
theorem mcAsciiParseWriteResponse_error {frame : List Byte} (h : 22 ≤ frame.length)
    (hc : asciiEndCode frame ≠ some 0) (data : Option ByteArrayInfo) :
    mcAsciiParseWriteResponse (.ofList frame) data =
      some (asciiEndResult (asciiEndCode frame), data) := by
  rw [← asciiEndResult_success.ne] at hc
  simp only [mcAsciiParseWriteResponse, mcAsciiParseResponseEndCode_ofList h,
    Option.bind_eq_bind, Option.bind_some]
  rw [if_pos hc]
  rfl

/-- Both parsers return the same code, with and without a descriptor, and on success hand the
payload over. -/
def ParsersAgree (frame asciiFrame payload : List Byte) : Prop :=
  (∃ ret, mcParseWriteResponse (.ofList frame) none = some (ret, none) ∧
    mcAsciiParseWriteResponse (.ofList asciiFrame) none = some (ret, none)) ∧
  ∃ ret out out', mcParseWriteResponse (.ofList frame) (some .empty) = some (ret, some out) ∧
    mcAsciiParseWriteResponse (.ofList asciiFrame) (some .empty) = some (ret, some out') ∧
    (ret = .success → out = attached .empty payload ∧ out' = attached .empty payload)

/-- Both readers of the controller type return the same code and the same string. -/
def PlcTypesAgree (frame asciiFrame : List Byte) : Prop :=
  ∀ (network network' : PlcNetworkAddress) (fd : ℤ), ∃ result,
    (mcReadPlcType network fd true).answer (.ofFrame frame) = some result ∧
    (Ascii.mcAsciiReadPlcType network' fd true).answer (.ofFrame asciiFrame) = some result

/-- What both readers of the controller type make of a parsed response. -/
def plcType (ret : ErrorCode) (data : ByteArrayInfo) :
    Option (ErrorCode × Option (List Byte)) := do
  if ret ≠ .success then return (ret, none)
  else
    let out ← terminatedCopy data
    return (.success, some out)

theorem terminatedCopy_attached (payload : List Byte) :
    terminatedCopy (attached .empty payload) = some (payload ++ [0]) := by
  rw [attached]
  split
  · rename_i h0
    rw [h0]
    rfl
  · rename_i h0
    have hpos := List.length_pos_iff.mpr h0
    simp only [terminatedCopy, ByteArrayInfo.ofList_length, ByteArrayInfo.ofList_data,
      Option.bind_some, memcpy_length, Option.map_some]
    rw [if_pos (by omega)]

theorem mcReadPlcType_answer (network : PlcNetworkAddress) {fd : ℤ} (hfd : 0 < fd)
    {frame : List Byte} (h : 11 ≤ frame.length) {ret : ErrorCode} {out : ByteArrayInfo}
    (hp : mcParseWriteResponse (.ofList frame) (some .empty) = some (ret, some out)) :
    (mcReadPlcType network fd true).answer (.ofFrame frame) = plcType ret out := by
  have hpack := packMcCommand_ofList network [0x01, 0x01, 0x00, 0x00, 0x01, 0x00] (by simp)
    (by simp)
  have hmin : minResponseHeaderSize = 11 := rfl
  rw [mcReadPlcType, if_neg (by simp [hfd]), exchange_packed hfd hpack (by simp [mcCommandHeader])]
  change (evaluate _ _ _ (Transacted.ofFrame frame)).answer _ = _
  rw [evaluate_ofFrame (by omega), Call.answer_ofOption, hp]
  rfl

theorem mcAsciiReadPlcType_answer (network : PlcNetworkAddress) {fd : ℤ} (hfd : 0 < fd)
    {frame : List Byte} {ret : ErrorCode} {out : ByteArrayInfo}
    (hp : mcAsciiParseWriteResponse (.ofList frame) (some .empty) = some (ret, some out)) :
    (Ascii.mcAsciiReadPlcType network fd true).answer (.ofFrame frame) = plcType ret out := by
  have hcore : mcAsciiBuildCoreFromLeWords [0x01, 0x01, 0x00, 0x00, 0x01, 0x00] =
      .ofList (asciiOfLeWords [0x01, 0x01, 0x00, 0x00, 0x01, 0x00]) := by decide
  have hpack := packMcAsciiCommand_ofList network
    (asciiOfLeWords [0x01, 0x01, 0x00, 0x00, 0x01, 0x00]) (by decide) (by decide)
  rw [Ascii.mcAsciiReadPlcType, if_neg (by simp), Call.answer_bind,
    Ascii.mcAsciiExecuteRawCommand, if_neg (by simp [hfd]), hcore,
    exchange_packed hfd hpack (List.ne_nil_of_length_pos (by simp))]
  change ((evaluate _ _ _ (Transacted.ofFrame frame)).answer _).bind _ = _
  rw [evaluate_ofFrame (Nat.zero_le _), Call.answer_ofOption, hp]
  simp only [Option.bind_some, Option.getD_some, plcType]
  split
  · rfl
  · rw [Call.answer_bind, Call.answer_ofOption]
    rfl

/-- The readers of the controller type follow the parsers; without a connection both refuse. -/
theorem plcTypesAgree_of_parsed {frame asciiFrame : List Byte} (h : 11 ≤ frame.length)
    {ret : ErrorCode} {out out' : ByteArrayInfo}
    (hp : mcParseWriteResponse (.ofList frame) (some .empty) = some (ret, some out))
    (hp' : mcAsciiParseWriteResponse (.ofList asciiFrame) (some .empty) = some (ret, some out'))
    {result : ErrorCode × Option (List Byte)} (hr : plcType ret out = some result)
    (hr' : plcType ret out' = some result) : PlcTypesAgree frame asciiFrame := by
  intro network network' fd
  by_cases hfd : 0 < fd
  · refine ⟨result, ?_, ?_⟩
    · rw [mcReadPlcType_answer network hfd h hp, hr]
    · rw [mcAsciiReadPlcType_answer network' hfd hp', hr']
  · refine ⟨(.invalidParameter, none), ?_, ?_⟩
    · rw [mcReadPlcType, if_pos (.inl (by omega))]
      rfl
    · rw [Ascii.mcAsciiReadPlcType, if_neg (by simp), Ascii.mcAsciiExecuteRawCommand,
        if_pos (.inl (by omega))]
      rfl

/-- A payload of one or two bytes behind a zero end code. -/
def ShortAnswer (end_code : BitVec 16) (payload : List Byte) : Prop :=
  end_code = 0 ∧ (payload.length = 1 ∨ payload.length = 2)

/-- What the binary parser attaches to an empty descriptor. -/
theorem attached_short_iff (payload : List Byte) :
    (if payload.length > 2 then .ofList payload else .empty) = attached .empty payload ↔
      ¬ (payload.length = 1 ∨ payload.length = 2) := by
  by_cases h0 : payload = []
  · subst h0
    simp [attached]
  · have hpos := List.length_pos_iff.mpr h0
    rw [attached, if_neg h0]
    by_cases hlong : payload.length > 2
    · rw [if_pos hlong]
      exact iff_of_true rfl (by omega)
    · rw [if_neg hlong]
      apply iff_of_false
      · intro heq
        cases congrArg ByteArrayInfo.data heq
      · omega

section Frames

variable {front asciiFront : List Byte} (end_code : BitVec 16) {payload : List Byte}

/-- Behind an end code other than zero both report the error. -/
theorem commands_agree_failed (hf : front.length = 7) (ha : asciiFront.length = 14)
    (h : 4 + 2 * payload.length < 2 ^ 16) (hc : end_code.toNat ≠ 0) :
    ParsersAgree (binaryResponse front end_code payload)
        (asciiResponse asciiFront end_code (hexPayload payload)) payload ∧
      PlcTypesAgree (binaryResponse front end_code payload)
        (asciiResponse asciiFront end_code (hexPayload payload)) := by
  have hlen := binaryResponse_length end_code payload hf
  have halen := asciiResponse_length end_code (hexPayload payload) ha
  have hcode := asciiResponse_endCode end_code (hexPayload payload) ha
  have hparse := mcParseWriteResponse_binaryResponse hf end_code
    (show 2 + payload.length < 2 ^ 16 by omega)
  have hfailed : asciiEndResult (some end_code.toNat) = .failed := by
    obtain ⟨n, hn⟩ := Nat.exists_eq_succ_of_ne_zero hc
    rw [hn]
    rfl
  have hascii (data : Option ByteArrayInfo) : mcAsciiParseWriteResponse
      (.ofList (asciiResponse asciiFront end_code (hexPayload payload))) data =
        some (.failed, data) := by
    rw [mcAsciiParseWriteResponse_error (by omega) (by simp [hcode, hc]), hcode, hfailed]
  simp only [if_neg hc] at hparse
  have hnone := hparse none
  have hsome := hparse (some .empty)
  rw [if_neg (by simp)] at hnone
  rw [← apply_ite some] at hsome
  refine ⟨⟨⟨_, hnone, hascii none⟩, _, _, _, hsome, hascii _, by simp⟩, ?_⟩
  exact plcTypesAgree_of_parsed (by omega) hsome (hascii _) (by rfl) (by rfl)

/-- Behind the end code zero they agree unless the payload is lost. -/
theorem commands_agree_success (hf : front.length = 7) (ha : asciiFront.length = 14)
    (h : 4 + 2 * payload.length < 2 ^ 16) (hc : end_code.toNat = 0) :
    (ParsersAgree (binaryResponse front end_code payload)
        (asciiResponse asciiFront end_code (hexPayload payload)) payload ∧
      PlcTypesAgree (binaryResponse front end_code payload)
        (asciiResponse asciiFront end_code (hexPayload payload))) ↔
      ¬ (payload.length = 1 ∨ payload.length = 2) := by
  have hlen := binaryResponse_length end_code payload hf
  have halen := asciiResponse_length end_code (hexPayload payload) ha
  have hcode := asciiResponse_endCode end_code (hexPayload payload) ha
  have hparse := mcParseWriteResponse_binaryResponse hf end_code
    (show 2 + payload.length < 2 ^ 16 by omega)
  have hanone := mcAsciiParseWriteResponse_none ha end_code (hexPayload payload)
  rw [hc] at hcode
  have hascii := mcAsciiParseWriteResponse_accepted (by omega) hcode
    (asciiResponse_drop end_code (hexPayload payload) ha) .empty
  simp only [if_pos hc] at hparse hanone
  have hnone := hparse none
  have hsome := hparse (some .empty)
  rw [if_neg (by simp)] at hnone
  simp only [Option.isSome_some, and_true] at hsome
  rw [← apply_ite some] at hsome
  rw [← attached_short_iff payload]
  constructor
  · intro hagree
    obtain ⟨-, ret, out, out', hb, -, hdata⟩ := hagree.1
    obtain ⟨rfl, hout⟩ := Prod.mk.inj (Option.some.inj (hsome.symm.trans hb))
    rw [Option.some.inj hout]
    exact (hdata rfl).1
  · intro hout
    rw [hout] at hsome
    have hplc : plcType .success (attached .empty payload) =
        some (.success, some (payload ++ [0])) := by
      rw [plcType, if_neg (by simp), terminatedCopy_attached]
      rfl
    exact ⟨⟨⟨_, hnone, hanone⟩, _, _, _, hsome, hascii, fun _ => ⟨rfl, rfl⟩⟩,
      plcTypesAgree_of_parsed (by omega) hsome hascii hplc hplc⟩

/-- For every end code and every payload that fits both length fields, the two formats give the
same code, payload and controller type, exactly when the payload is not a short one. -/
theorem command_responses_agree_iff (hf : front.length = 7) (ha : asciiFront.length = 14)
    (h : 4 + 2 * payload.length < 2 ^ 16) :
    (ParsersAgree (binaryResponse front end_code payload)
        (asciiResponse asciiFront end_code (hexPayload payload)) payload ∧
      PlcTypesAgree (binaryResponse front end_code payload)
        (asciiResponse asciiFront end_code (hexPayload payload))) ↔
      ¬ ShortAnswer end_code payload := by
  have hzero : end_code = 0 ↔ end_code.toNat = 0 := by
    rw [← BitVec.toNat_inj]
    rfl
  rw [ShortAnswer, hzero]
  by_cases hc : end_code.toNat = 0
  · rw [commands_agree_success end_code hf ha h hc]
    simp [hc]
  · exact iff_of_true (commands_agree_failed end_code hf ha h hc) fun hs => hc hs.1

end Frames

/-- The payload `Q` in answers of the station with number 0. -/
theorem command_responses_agree_iff_one :
    (ParsersAgree (binaryResponse [0xD0, 0x00, 0x00, 0xFF, 0xFF, 0x03, 0x00] 0 [0x51])
        (asciiResponse (text ['D', '0', '0', '0', '0', '0', 'F', 'F', '0', '3', 'F', 'F', '0', '0'])
          0 (hexPayload [0x51])) [0x51] ∧
      PlcTypesAgree (binaryResponse [0xD0, 0x00, 0x00, 0xFF, 0xFF, 0x03, 0x00] 0 [0x51])
        (asciiResponse (text ['D', '0', '0', '0', '0', '0', 'F', 'F', '0', '3', 'F', 'F', '0', '0'])
          0 (hexPayload [0x51]))) ↔
      ¬ ShortAnswer 0 [0x51] :=
  command_responses_agree_iff 0 rfl rfl (by decide)

/-- The binary parser loses the payload `Q`. -/
theorem command_responses_disagree :
    ¬ ∀ (front asciiFront : List Byte) (end_code : BitVec 16) (payload : List Byte),
      front.length = 7 → asciiFront.length = 14 → 4 + 2 * payload.length < 2 ^ 16 →
      ParsersAgree (binaryResponse front end_code payload)
        (asciiResponse asciiFront end_code (hexPayload payload)) payload ∧
      PlcTypesAgree (binaryResponse front end_code payload)
        (asciiResponse asciiFront end_code (hexPayload payload)) := by
  intro hall
  obtain ⟨⟨-, ret, out, out', hb, -, hdata⟩, -⟩ := hall
    [0xD0, 0x00, 0x00, 0xFF, 0xFF, 0x03, 0x00]
    (text ['D', '0', '0', '0', '0', '0', 'F', 'F', '0', '3', 'F', 'F', '0', '0']) 0 [0x51] rfl rfl
    (by decide)
  have hparse : mcParseWriteResponse
      (.ofList (binaryResponse [0xD0, 0x00, 0x00, 0xFF, 0xFF, 0x03, 0x00] 0 [0x51]))
      (some .empty) = some (.success, some .empty) := by decide
  obtain ⟨rfl, hout⟩ := Prod.mk.inj (Option.some.inj (hb.symm.trans hparse))
  rw [(hdata rfl).1] at hout
  revert hout
  decide

end MelsecMc
