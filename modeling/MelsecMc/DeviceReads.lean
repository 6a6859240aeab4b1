import MelsecMc.Api
import MelsecMc.BitPacking
import MelsecMc.RejectedResponses

/-!
# What a device read returns for a response

Both modules read device data through two functions, one for points and one for
words. For every response that a reader of frames can hand over, such a read either
reports an error or returns the data of the response, of whatever length: the payload
of a binary frame, its points one byte each, or the bytes that the text of an ASCII
frame stands for.
-/
namespace MelsecMc

open FramedStream

theorem isFrame_binary {frame : List Byte} :
    IsFrame binaryProtocol.response frame ↔ WellFormedBinary frame := by
  refine ⟨fun ⟨hle, htotal⟩ => ?_, WellFormedBinary.isFrame⟩
  have hmin : minResponseHeaderSize = 11 := rfl
  change minResponseHeaderSize ≤ frame.length at hle
  change mcResponseTotalLen (frame.take minResponseHeaderSize) = _ at htotal
  rw [mcResponseTotalLen, getD_take _ (by omega), getD_take _ (by omega)] at htotal
  simp only at htotal
  split_ifs at htotal
  have := Option.some.inj htotal
  constructor <;> omega

theorem isFrame_ascii {frame : List Byte} :
    IsFrame asciiProtocol.response frame ↔ WellFormedAscii frame := by
  refine ⟨fun ⟨hle, htotal⟩ => ?_, WellFormedAscii.isFrame⟩
  have hrecv : asciiMinRecvHeaderSize = 18 := rfl
  change asciiMinRecvHeaderSize ≤ frame.length at hle
  change mcAsciiResponseTotalLen (frame.take asciiMinRecvHeaderSize) = _ at htotal
  rw [mcAsciiResponseTotalLen, getD_take _ (by omega), getD_take _ (by omega),
    getD_take _ (by omega), getD_take _ (by omega)] at htotal
  split at htotal
  · simp at htotal
  · rename_i length hlength
    simp only at htotal
    split_ifs at htotal
    have := Option.some.inj htotal
    exact ⟨length, hlength, by omega, by omega⟩

/-- The data of a response, `none` for an error. -/
def content : Module → Bool → List Byte → Option (List Byte)
  | .binary, is_bit, frame =>
    if binaryEndCode frame = 0 then
      some (if is_bit then (frame.drop 11).flatMap actualBools else frame.drop 11)
    else none
  | .ascii, is_bit, frame =>
    if asciiEndCode frame = some 0 then
      if is_bit then some ((frame.drop 22).map fun c => if c = chr '1' then 0x01 else 0x00)
      else asciiData (frame.drop 22)
    else none

/-- The functions behind the typed readers: `read_bool_value` and `read_word_value` of either
module. -/
def deviceRead (network : PlcNetworkAddress) : Module → Bool → ℤ → Option CString → ℤ →
    ByteArrayInfo → Call (ErrorCode × ByteArrayInfo)
  | .binary, true => readBoolValue network
  | .binary, false => readWordValue network
  | .ascii, true => Ascii.readBoolValue network
  | .ascii, false => Ascii.readWordValue network

/-- A read ends with an error, or with all the data there is. -/
def Returns (result : Option (ErrorCode × ByteArrayInfo)) : Option (List Byte) → Prop
  | none => ∃ code out, code ≠ .success ∧ result = some (code, out)
  | some data => result = some (.success, attached .empty data)

/-- Points come out of any payload, two of each byte. -/
theorem extractActualBoolData_attached {payload : List Byte} (h : payload.length * 2 < 2 ^ 31) :
    extractActualBoolData (attached .empty payload) =
      some (attached .empty (payload.flatMap actualBools)) := by
  by_cases h0 : payload = []
  · subst h0
    rfl
  · have hne : payload.flatMap actualBools ≠ [] := by
      obtain ⟨b, bytes, rfl⟩ := List.exists_cons_of_ne_nil h0
      simp [actualBools]
    rw [attached, if_neg h0, extractActualBoolData_ofList h0 h, attached, if_neg hne]

theorem mcAsciiParseReadResponse_returns {frame : List Byte} (h : 22 ≤ frame.length)
    (out_bytes : ByteArrayInfo) (is_bit : Bool) :
    Returns (do
      let (ret, data) ← mcAsciiParseReadResponse (.ofList frame) (some out_bytes) is_bit
      return (ret, data.getD out_bytes)) (content .ascii is_bit frame) := by
  rw [content]
  by_cases hc : asciiEndCode frame = some 0
  · rw [if_pos hc]
    cases is_bit with
    | true =>
      rw [mcAsciiParseReadResponse_points h hc]
      rfl
    | false =>
      rw [mcAsciiParseReadResponse_text h hc]
      cases asciiData (frame.drop 22) with
      | none => exact ⟨.responseHeaderFailed, .empty, by simp, rfl⟩
      | some data => rfl
  · rw [if_neg hc, mcAsciiParseReadResponse_error h hc]
    exact ⟨_, .empty, asciiEndResult_success.not.mpr hc, rfl⟩

theorem mcParseReadResponse_returns {frame : List Byte} (h : WellFormedBinary frame) :
    Returns (do
      let (ret, data) ← mcParseReadResponse (.ofList frame) (some .empty)
      return (ret, data.getD .empty)) (content .binary false frame) := by
  rw [content, mcParseReadResponse_wellFormed h]
  by_cases hc : binaryEndCode frame = 0
  · rw [if_pos hc, if_pos hc]
    rfl
  · rw [if_neg hc, if_neg hc]
    exact ⟨.failed, _, by simp, rfl⟩

theorem mcParseReadResponse_returns_points {frame : List Byte} (h : WellFormedBinary frame) :
    Returns (do
      let (ret, data) ← mcParseReadResponse (.ofList frame) (some .empty)
      let out_bytes := data.getD .empty
      if ret = .success then return (ret, ← extractActualBoolData out_bytes)
      else return (ret, out_bytes)) (content .binary true frame) := by
  have h7 := binaryLengthField_lt frame
  have hlen : (frame.drop 11).length * 2 < 2 ^ 31 := by
    have := h.2
    rw [List.length_drop]
    rw [binaryLengthField] at h7
    omega
  rw [content, mcParseReadResponse_wellFormed h]
  by_cases hc : binaryEndCode frame = 0
  · rw [if_pos hc, if_pos hc]
    simp [extractActualBoolData_attached hlen, Returns]
  · rw [if_neg hc, if_neg hc]
    exact ⟨.failed, _, by simp, rfl⟩

/-- A device read that made its request ends with an error or with the data of the response. -/
theorem deviceRead_returns {network : PlcNetworkAddress} {m : Module} {is_bit : Bool} {fd : ℤ}
    {address : Option CString} {length : ℤ} {frame : List Byte}
    (hr : (deviceRead network m is_bit fd address length .empty).request ≠ none)
    (hf : IsFrame m.protocol.response frame) :
    Returns ((deviceRead network m is_bit fd address length .empty).answer (.ofFrame frame))
      (content m is_bit frame) := by
  cases m with
  | binary =>
    have hw := isFrame_binary.mp hf
    have hmin : minResponseHeaderSize ≤ frame.length := hf.1
    cases is_bit with
    | true =>
      simp only [deviceRead, readBoolValue] at hr ⊢
      split at hr
      · exact absurd rfl hr
      · rename_i hok
        rw [if_neg hok]
        obtain ⟨address_data, -, he⟩ := analysed_of_request hr
        rw [he] at hr ⊢
        rw [exchange_answer hr hmin]
        exact mcParseReadResponse_returns_points hw
    | false =>
      simp only [deviceRead, readWordValue] at hr ⊢
      split at hr
      · exact absurd rfl hr
      · rename_i hok
        rw [if_neg hok]
        obtain ⟨address_data, -, he⟩ := analysed_of_request hr
        rw [he] at hr ⊢
        unfold readAddressData at hr ⊢
        split at hr
        · exact absurd rfl hr
        · rename_i hfd
          rw [if_neg hfd, exchange_answer hr hmin]
          exact mcParseReadResponse_returns hw
  | ascii =>
    obtain ⟨length, -, h4, hlen⟩ := isFrame_ascii.mp hf
    have hmin : asciiMinResponseHeaderSize ≤ frame.length := by
      change 22 ≤ frame.length
      omega
    have hread : deviceRead network .ascii is_bit = Ascii.readDeviceValue network is_bit := by
      cases is_bit <;> rfl
    rw [hread, Ascii.readDeviceValue] at hr ⊢
    split at hr
    · exact absurd rfl hr
    · rename_i hok
      rw [if_neg hok]
      obtain ⟨address_data, -, he⟩ := analysed_of_request hr
      rw [he] at hr ⊢
      rw [exchange_answer hr hmin]
      exact mcAsciiParseReadResponse_returns hmin .empty is_bit

/-- A read whose transaction failed does not report a success. -/
theorem deviceRead_failed {network : PlcNetworkAddress} {m : Module} {is_bit : Bool} {fd : ℤ}
    {address : Option CString} {length : ℤ} {out : ByteArrayInfo} {r : Transacted}
    (hr : r.code ≠ .success) {result : ErrorCode × ByteArrayInfo}
    (h : (deviceRead network m is_bit fd address length out).answer r = some result) :
    result.1 ≠ .success := by
  have hinvalid : some (ErrorCode.invalidParameter, out) = some result → result.1 ≠ .success := by
    intro heq
    obtain rfl := Option.some.inj heq
    simp
  cases m with
  | binary =>
    cases is_bit with
    | true =>
      simp only [deviceRead, readBoolValue] at h
      split at h
      · exact hinvalid h
      · exact analysed_failed (fun _ => exchange_failed hr) h
    | false =>
      simp only [deviceRead, readWordValue] at h
      split at h
      · exact hinvalid h
      · refine analysed_failed (fun address_data hd => ?_) h
        unfold readAddressData at hd
        split at hd
        · exact hinvalid hd
        · exact exchange_failed hr hd
  | ascii =>
    have hread : deviceRead network .ascii is_bit = Ascii.readDeviceValue network is_bit := by
      cases is_bit <;> rfl
    rw [hread, Ascii.readDeviceValue] at h
    split at h
    · exact hinvalid h
    · exact analysed_failed (fun _ => exchange_failed hr) h

end MelsecMc
