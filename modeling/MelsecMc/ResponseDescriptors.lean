import MelsecMc.Call
import MelsecMc.RejectedResponses

/-!
# The caller's response descriptor

A caller passes a zeroed descriptor to a response reader and releases its buffer on
every path, also after an error. The binary reader attaches the buffer before the
rest of the frame arrives, releases it when that fails, and leaves the pointer behind:
the caller releases it once more. The ASCII reader attaches the buffer at the end.
-/
namespace MelsecMc

open FramedStream

/-- What a caller relies on that passed a zeroed descriptor. -/
def Settled (received : Received) : Prop :=
  ∀ code, received.code = some code →
    (code = .success → ∃ bytes, received.response.data = .live bytes ∧
      (bytes.length : ℤ) = received.readCount) ∧
    (code ≠ .success → received.response = .zero)

/-- A read ends because the connection is closed or fails. -/
def Broken (o : Outcome) : Prop := o = .closed ∨ o = .failed

/-- The header of a response arrives, and the connection is closed or fails before the rest. -/
def Protocol.CutShort (P : Protocol) (events : List Event) (stream : List Byte) : Prop :=
  let header := mcRecvExact events stream P.response.header
  header.outcome = .complete ∧
    ∃ total_len, P.response.total (stream.take P.response.header) = some total_len ∧
      Broken (mcRecvExact header.events (stream.drop P.response.header)
        (total_len - P.response.header)).outcome

namespace Protocol

variable (P : Protocol) {events : List Event} {stream : List Byte}

theorem settled_of_code {received : Received} {code : ErrorCode}
    (hcode : received.code = some code) (hne : code ≠ .success)
    (hz : received.response = .zero) : Settled received := by
  intro code' hcode'
  obtain rfl := Option.some.inj (hcode.symm.trans hcode')
  exact ⟨fun h => absurd h hne, fun _ => hz⟩

theorem settled_of_waiting {received : Received} (hcode : received.code = none) :
    Settled received := by
  intro code hcode'
  rw [hcode] at hcode'
  cases hcode'

/-- Only what is left behind a header without its rest matters. -/
theorem readResponse_settled_iff (fd n : ℤ) (events : List Event) (stream : List Byte) :
    Settled (P.readResponse fd .zero n events stream) ↔
      (0 < fd → P.CutShort events stream → P.abandoned .zero = .zero) := by
  by_cases hfd : fd ≤ 0
  · rw [readResponse, if_pos hfd]
    exact ⟨fun _ h => absurd h (by omega), fun _ => settled_of_code rfl (by simp) rfl⟩
  rw [readResponse, if_neg hfd]
  have hpos : 0 < fd := by omega
  simp only [CutShort, hpos, true_imp_iff]
  cases hheader : (mcRecvExact events stream P.response.header).outcome with
  | complete =>
    obtain ⟨hgot, hrest, hle⟩ := readExact_eq hheader
    change (mcRecvExact events stream P.response.header).got = _ at hgot
    change (mcRecvExact events stream P.response.header).rest = _ at hrest
    simp only [true_and, hgot, hrest]
    cases htotal : P.response.total (stream.take P.response.header) with
    | none =>
      simp only [reduceCtorEq, false_and, exists_false, false_imp_iff, iff_true]
      exact settled_of_code rfl (by simp) rfl
    | some total =>
      have hheader_le := P.response.header_le _ _ htotal
      simp only [Option.some.injEq, exists_eq_left']
      cases hpayload : (mcRecvExact (mcRecvExact events stream P.response.header).events
          (stream.drop P.response.header) (total - P.response.header)).outcome with
      | complete =>
        have hlen := readExact_complete _ _ _ hpayload
        simp only [Broken, reduceCtorEq, or_self, false_imp_iff, iff_true]
        intro code hcode
        obtain rfl := Option.some.inj hcode
        refine ⟨fun _ => ⟨_, rfl, ?_⟩, fun h => absurd rfl h⟩
        change (mcRecvExact _ _ _).got.length = _ at hlen
        rw [List.length_append, hlen, List.length_take, min_eq_left hle]
        change _ = (total : ℤ)
        omega
      | closed =>
        have hne : ErrorCode.connectionClosed ≠ .success := by simp
        simp only [Broken, true_or, true_imp_iff, recvCode]
        exact ⟨fun h => (h _ rfl).2 hne, fun h => settled_of_code rfl hne h⟩
      | failed =>
        have hne : ErrorCode.socketRecvFailed ≠ .success := by simp
        simp only [Broken, or_true, true_imp_iff, recvCode]
        exact ⟨fun h => (h _ rfl).2 hne, fun h => settled_of_code rfl hne h⟩
      | blocked =>
        simp only [Broken, reduceCtorEq, or_self, false_imp_iff, iff_true]
        exact settled_of_waiting rfl
  | closed =>
    simp only [reduceCtorEq, false_and, false_imp_iff, iff_true]
    exact settled_of_code rfl (by simp) rfl
  | failed =>
    simp only [reduceCtorEq, false_and, false_imp_iff, iff_true]
    exact settled_of_code rfl (by simp) rfl
  | blocked =>
    simp only [reduceCtorEq, false_and, false_imp_iff, iff_true]
    exact settled_of_waiting rfl

theorem cutShort_binary : binaryProtocol.CutShort events stream ↔
    (mcRecvExact events stream 11).outcome = .complete ∧ 2 ≤ binaryLengthField stream ∧
      Broken (mcRecvExact (mcRecvExact events stream 11).events (stream.drop 11)
        (binaryLengthField stream - 2)).outcome := by
  have hfield : binaryLengthField (stream.take 11) = binaryLengthField stream := by
    rw [binaryLengthField, getD_take _ (by omega), getD_take _ (by omega)]
    rfl
  have hsize : binaryLengthField stream + 9 - 11 = binaryLengthField stream - 2 := by omega
  have htotal : ∀ total, mcResponseTotalLen (stream.take 11) = some total ↔
      2 ≤ binaryLengthField stream ∧ binaryLengthField stream + 9 = total := by
    intro total
    have hmin : minResponseHeaderSize = 11 := rfl
    change (if binaryLengthField (stream.take 11) < 2 then none
      else if binaryLengthField (stream.take 11) + 9 < minResponseHeaderSize then none
      else some (binaryLengthField (stream.take 11) + 9)) = some total ↔ _
    rw [hfield]
    split_ifs with h2 h11
    · simp
      omega
    · simp
      omega
    · simp
      omega
  change (_ ∧ ∃ total, mcResponseTotalLen (stream.take 11) = some total ∧
    Broken (mcRecvExact _ (stream.drop 11) (total - 11)).outcome) ↔ _
  refine and_congr_right fun _ => ?_
  constructor
  · rintro ⟨total, ht, hbroken⟩
    obtain ⟨h2, rfl⟩ := (htotal total).mp ht
    exact ⟨h2, hsize ▸ hbroken⟩
  · rintro ⟨h2, hbroken⟩
    exact ⟨_, (htotal _).mpr ⟨h2, rfl⟩, hsize.symm ▸ hbroken⟩

end Protocol

/-- The binary reader leaves a settled descriptor exactly where the connection is not closed
and does not fail behind a header with a valid length; the ASCII reader always does. -/
theorem failed_receive_settled_iff (fd n : ℤ) (events : List Event) (stream : List Byte) :
    (Settled (mcReadResponse fd .zero n events stream) ↔
      ¬ (0 < fd ∧ (mcRecvExact events stream 11).outcome = .complete ∧
        2 ≤ binaryLengthField stream ∧
        Broken (mcRecvExact (mcRecvExact events stream 11).events (stream.drop 11)
          (binaryLengthField stream - 2)).outcome)) ∧
    Settled (mcAsciiReadResponse fd .zero n events stream) := by
  constructor
  · rw [mcReadResponse, binaryProtocol.readResponse_settled_iff, Protocol.cutShort_binary]
    have habandoned : binaryProtocol.abandoned .zero ≠ .zero := by decide
    simp only [habandoned, imp_false, not_and]
  · exact (asciiProtocol.readResponse_settled_iff fd n events stream).mpr fun _ _ => rfl

/-- The header of a response with four bytes behind it, and then the end of the connection: the
caller of the binary reader releases the buffer a second time. -/
theorem closed_behind_header :
    let stream : List Byte := [0xD0, 0x00, 0x00, 0xFF, 0xFF, 0x03, 0x00, 0x04, 0x00, 0x00, 0x00]
    let received := mcReadResponse 3 .zero 0 [.deliver 10, .closed] stream
    received.code = some .connectionClosed ∧ received.response = ⟨.released, 0⟩ ∧
      ¬ Settled received ∧ releaseData received.response.data = none ∧
      ∀ parse, evaluate minResponseHeaderSize ByteArrayInfo.empty parse
        ⟨.connectionClosed, received.response, received.readCount⟩ = .fault := by
  refine ⟨by decide, by decide, fun hs => ?_, by decide, fun parse => rfl⟩
  exact absurd ((hs .connectionClosed (by decide)).2 (by simp)) (by decide)

end MelsecMc
