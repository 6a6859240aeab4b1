import MelsecMc.Call
import MelsecMc.ResponseFraming
import MelsecMc.SendPhase

/-!
# Transactions one after the other on one connection

The connection is a pair of byte streams. The PLC answers every complete request,
in order, with any bytes. A response may be on its way for as long as it likes: a
`recv` that times out leaves it in the stream. Frames carry no number, so a
transaction returns whatever frame comes first. It is its own response as long as
no `recv` of an earlier transaction failed and every earlier answer was one frame
with a valid length field; otherwise the rest of the earlier response is still
there.
-/
namespace MelsecMc

open FramedStream

variable {P : Protocol}

/-- What the PLC sends in answer to its `n`-th request, a frame or not. -/
structure Plc (P : Protocol) where
  answer : ℕ → List Byte → List Byte

/-- A connection: the bytes of an incomplete request, the bytes of responses that were not
received, and the number of requests answered. -/
structure Line where
  toPlc : List Byte
  fromPlc : List Byte
  answered : ℕ
  deriving DecidableEq

namespace Line

/-- A connection that was just opened. -/
def fresh : Line := ⟨[], [], 0⟩

/-- The PLC gets more bytes and answers the requests that they complete. -/
def receive (plc : Plc P) (line : Line) (bytes : List Byte) : Line :=
  let stream := line.toPlc ++ bytes
  let (requests, rest) := splitFrames P.request stream.length stream
  ⟨rest, line.fromPlc ++ (requests.zipIdx line.answered).flatMap fun x => plc.answer x.2 x.1,
    line.answered + requests.length⟩

/-- Every request was complete, and its response was received. -/
def Settled (line : Line) : Prop := line.toPlc = [] ∧ line.fromPlc = []

theorem receive_nil (plc : Plc P) {line : Line} (h : line.Settled) :
    line.receive plc [] = line := by
  obtain ⟨toPlc, fromPlc, answered⟩ := line
  obtain ⟨rfl, rfl⟩ := h
  simp [receive, splitFrames]

theorem receive_request (plc : Plc P) {line : Line} (h : line.toPlc = []) {cmd : List Byte}
    (hc : IsFrame P.request cmd) :
    line.receive plc cmd =
      ⟨[], line.fromPlc ++ plc.answer line.answered cmd, line.answered + 1⟩ := by
  obtain ⟨toPlc, fromPlc, answered⟩ := line
  obtain rfl : toPlc = [] := h
  simp [receive, splitFrames_frame P.request P.request_header hc]

end Line

/-- One call: the request, the configured `retry_count`, what locking and unlocking the mutex of
the descriptor return, and the returns of `send` and `recv`. -/
structure Exchange where
  cmd : List Byte
  retryCount : ℤ
  lockRet : ErrorCode
  unlockRet : ErrorCode
  sends : List SendEvent
  recvs : List Event

/-- The end of a call: its code, `none` while it waits, the out parameters, the connection. -/
structure Ended where
  code : Option ErrorCode
  response : Response
  recvSize : ℤ
  line : Line

/-- The condition on a call behind which nothing is left on the connection: its request is one
frame, inside which no `send` fails, no `recv` fails other than by `EINTR`, and the answer of the
PLC is one frame with a valid length field. -/
structure Line.Clean (plc : Plc P) (line : Line) (x : Exchange) : Prop where
  cmd : IsFrame P.request x.cmd
  sends : Unbroken x.cmd.length 0 x.sends
  recvs : Live x.recvs
  answer : IsFrame P.response (plc.answer line.answered x.cmd)

/-- `mc_send_and_receive_transaction` behind its parameter check. -/
def transaction (plc : Plc P) (fd : ℤ) (line : Line) (x : Exchange) : Ended :=
  if x.lockRet ≠ .success then ⟨some x.lockRet, .zero, 0, line⟩
  else
    let sent := sendPhase fd x.cmd x.retryCount x.sends
    let line := line.receive plc sent.accepted
    match sent.result with
    | none => ⟨none, .zero, 0, line⟩
    | some false => ⟨some .socketSendFailed, .zero, 0, line⟩
    | some true =>
      let received := P.readResponse fd .zero 0 x.recvs line.fromPlc
      ⟨received.code.map fun ret =>
          if ret = .success ∧ x.unlockRet ≠ .success then x.unlockRet else ret,
        received.response, received.readCount, { line with fromPlc := received.rest }⟩

/-- The connection after a sequence of calls, each of which returns. -/
def afterAll (plc : Plc P) (fd : ℤ) : Line → List Exchange → Option Line
  | line, [] => some line
  | line, x :: xs =>
    let ended := transaction plc fd line x
    if ended.code = none then none else afterAll plc fd ended.line xs

/-- Every call of a sequence meets the condition on the connection that it finds. -/
def AllClean (plc : Plc P) (fd : ℤ) : Line → List Exchange → Prop
  | _, [] => True
  | line, x :: xs => line.Clean plc x ∧ AllClean plc fd (transaction plc fd line x).line xs

section Step

variable {plc : Plc P} {fd : ℤ} {line : Line} {x : Exchange}

/-- A call whose request went out as it is reads behind what is left of earlier responses. -/
theorem transaction_sent (hl : line.toPlc = []) (hc : IsFrame P.request x.cmd)
    (hlock : x.lockRet = .success)
    (hs : (sendPhase fd x.cmd x.retryCount x.sends).result = some true)
    (hu : Unbroken x.cmd.length 0 x.sends) :
    transaction plc fd line x =
      let received := P.readResponse fd .zero 0 x.recvs
        (line.fromPlc ++ plc.answer line.answered x.cmd)
      ⟨received.code.map fun ret =>
          if ret = .success ∧ x.unlockRet ≠ .success then x.unlockRet else ret,
        received.response, received.readCount, ⟨[], received.rest, line.answered + 1⟩⟩ := by
  have hacc := (sendPhase_one_copy fd x.cmd x.retryCount x.sends hs).mpr hu
  unfold transaction
  rw [if_neg (by simp [hlock])]
  simp only [hacc, hs, Line.receive_request plc hl hc]

/-- A call that succeeds has sent its request, and a response was read. -/
theorem transaction_success (hcode : (transaction plc fd line x).code = some .success) :
    x.lockRet = .success ∧ (sendPhase fd x.cmd x.retryCount x.sends).result = some true := by
  unfold transaction at hcode
  split at hcode
  · exact absurd (Option.some.inj hcode) ‹_›
  · rename_i hlock
    refine ⟨not_not.mp hlock, ?_⟩
    cases hs : (sendPhase fd x.cmd x.retryCount x.sends).result with
    | none => simp [hs] at hcode
    | some ok =>
      cases ok with
      | false => simp [hs] at hcode
      | true => rfl

/-- A call that succeeds returns the frame at the front of the stream. -/
theorem transaction_front (hl : line.toPlc = []) (hc : IsFrame P.request x.cmd)
    (hu : Unbroken x.cmd.length 0 x.sends)
    (hcode : (transaction plc fd line x).code = some .success) :
    ∃ f rest, line.fromPlc ++ plc.answer line.answered x.cmd = f ++ rest ∧
      IsFrame P.response f ∧ (transaction plc fd line x).response = .ofFrame f ∧
      (transaction plc fd line x).recvSize = f.length := by
  obtain ⟨hlock, hs⟩ := transaction_success hcode
  rw [transaction_sent hl hc hlock hs hu] at hcode ⊢
  obtain ⟨ret, hret, hunlock⟩ := Option.map_eq_some_iff.mp hcode
  have hsuc : ret = .success := by
    split at hunlock
    · rename_i h
      exact h.1
    · exact hunlock
  exact P.readResponse_isFrame (by rw [hret, hsuc])

/-- A clean call takes its own response out of the stream. -/
theorem transaction_settled (hfd : 0 < fd) (hl : line.Settled) (hx : line.Clean plc x)
    (hcode : (transaction plc fd line x).code ≠ none) :
    (transaction plc fd line x).line.Settled := by
  by_cases hlock : x.lockRet = .success
  · cases hs : (sendPhase fd x.cmd x.retryCount x.sends).result with
    | none =>
      unfold transaction at hcode
      rw [if_neg (by simp [hlock])] at hcode
      simp [hs] at hcode
    | some ok =>
      cases ok with
      | false =>
        have hacc :=
          sendPhase_failed hfd (hx.cmd.ne_nil P.request P.request_header) hx.sends hs
        unfold transaction
        rw [if_neg (by simp [hlock])]
        simp only [hs, hacc, Line.receive_nil plc hl]
        exact hl
      | true =>
        have hfront : line.fromPlc ++ plc.answer line.answered x.cmd =
            plc.answer line.answered x.cmd ++ [] := by simp [hl.2]
        rw [transaction_sent hl.1 hx.cmd hlock hs hx.sends, hfront] at hcode ⊢
        obtain ⟨hor, -⟩ := P.readResponse_of_live hfd .zero 0 [] hx.answer hx.recvs
        rcases hor with hor | ⟨hor, -⟩
        · exact ⟨rfl, (P.readResponse_success hfd .zero 0 hx.answer hor).2.2⟩
        · exact absurd (by simp only [hor, Option.map_none]) hcode
  · unfold transaction
    rw [if_pos hlock]
    exact hl

/-- When nothing is left of earlier responses, success means the frame at the front of the answer
to this request. -/
theorem transaction_own (hl : line.Settled) (hc : IsFrame P.request x.cmd)
    (hu : Unbroken x.cmd.length 0 x.sends)
    (hcode : (transaction plc fd line x).code = some .success) :
    ∃ f rest, plc.answer line.answered x.cmd = f ++ rest ∧ IsFrame P.response f ∧
      (transaction plc fd line x).response = .ofFrame f ∧
      (transaction plc fd line x).recvSize = f.length := by
  have hfront := transaction_front hl.1 hc hu hcode
  rwa [hl.2, List.nil_append] at hfront

/-- A request whose response did not begin to arrive before `recv` failed leaves all of it to the
next call. -/
theorem transaction_timeout (hfd : 0 < fd) (hl : line.Settled) (hc : IsFrame P.request x.cmd)
    (hu : Unbroken x.cmd.length 0 x.sends) (hlock : x.lockRet = .success)
    (hs : (sendPhase fd x.cmd x.retryCount x.sends).result = some true) {events : List Event}
    (hr : x.recvs = .failed :: events) (hf : IsFrame P.response (plc.answer line.answered x.cmd))
    {y : Exchange} (hcy : IsFrame P.request y.cmd) (huy : Unbroken y.cmd.length 0 y.sends)
    (hcode : (transaction plc fd (transaction plc fd line x).line y).code = some .success) :
    (transaction plc fd (transaction plc fd line x).line y).response =
      .ofFrame (plc.answer line.answered x.cmd) := by
  have hline : (transaction plc fd line x).line =
      ⟨[], plc.answer line.answered x.cmd, line.answered + 1⟩ := by
    obtain ⟨n, hn⟩ : ∃ n, P.response.header = n + 1 :=
      ⟨P.response.header - 1, by have := P.response_header; omega⟩
    rw [transaction_sent hl.1 hc hlock hs hu, hr, hl.2, List.nil_append]
    simp only [Protocol.readResponse, if_neg (show ¬ fd ≤ 0 by omega), mcRecvExact, hn, readExact]
  rw [hline] at hcode ⊢
  obtain ⟨f, rest, hfront, hframe, hres, -⟩ := transaction_front rfl hcy huy hcode
  rwa [← (hf.prefix_free P.response hframe hfront).1] at hres

/-- An answer with an invalid length field leaves all bytes behind its header to the next call. -/
theorem transaction_invalid (hfd : 0 < fd) (hl : line.Settled) (hc : IsFrame P.request x.cmd)
    (hu : Unbroken x.cmd.length 0 x.sends) (hlock : x.lockRet = .success)
    (hs : (sendPhase fd x.cmd x.retryCount x.sends).result = some true) (hr : Live x.recvs)
    {header tail : List Byte} (hanswer : plc.answer line.answered x.cmd = header ++ tail)
    (hsize : header.length = P.response.header) (htotal : P.response.total header = none)
    (hcode : (transaction plc fd line x).code ≠ none) :
    (transaction plc fd line x).code = some .responseHeaderFailed ∧
      (transaction plc fd line x).line = ⟨[], tail, line.answered + 1⟩ := by
  have hle : P.response.header ≤ (header ++ tail).length := by
    rw [List.length_append, hsize]
    exact Nat.le_add_right _ _
  have hread := (readExact_of_live x.recvs (header ++ tail) P.response.header hr hle).1
  rw [transaction_sent hl.1 hc hlock hs hu, hl.2, List.nil_append, hanswer] at hcode ⊢
  simp only [Protocol.readResponse, if_neg (not_le.mpr hfd), mcRecvExact] at hcode ⊢
  rcases hread with hread | ⟨hread, -⟩
  · obtain ⟨hgot, hrest, -⟩ := readExact_eq hread
    rw [List.take_left' hsize] at hgot
    rw [List.drop_left' hsize] at hrest
    simp [hread, hgot, hrest, htotal]
  · simp [hread, recvCode] at hcode

end Step

/-- Clean calls leave an empty stream behind. -/
theorem afterAll_settled (plc : Plc P) {fd : ℤ} (hfd : 0 < fd) (xs : List Exchange)
    {line after : Line} (hclean : AllClean plc fd line xs) (hl : line.Settled)
    (h : afterAll plc fd line xs = some after) : after.Settled := by
  induction xs generalizing line with
  | nil =>
    obtain rfl := Option.some.inj h
    exact hl
  | cons x xs ih =>
    simp only [afterAll] at h
    split at h
    · simp at h
    · rename_i hcode
      obtain ⟨hx, hxs⟩ := hclean
      exact ih hxs (transaction_settled hfd hl hx hcode) h

/-- In every sequence of calls of either module on one connection, a call that succeeds returns
the response to its own request, provided that every earlier call was clean and the request of this
one is a frame that goes out unbroken. It is the frame at the front of the answer of the PLC, and
the whole answer where that is a frame. -/
theorem success_returns_own (m : Module) (plc : Plc m.protocol) (fd : ℤ) (hfd : 0 < fd)
    (earlier : List Exchange) (x : Exchange) (line : Line)
    (hline : afterAll plc fd .fresh earlier = some line)
    (hclean : AllClean plc fd .fresh earlier) (hcmd : IsFrame m.protocol.request x.cmd)
    (hsend : Unbroken x.cmd.length 0 x.sends)
    (hcode : (transaction plc fd line x).code = some .success) :
    ∃ f rest, plc.answer line.answered x.cmd = f ++ rest ∧ IsFrame m.protocol.response f ∧
      (transaction plc fd line x).response = .ofFrame f ∧
      (transaction plc fd line x).recvSize = f.length ∧
      (IsFrame m.protocol.response (plc.answer line.answered x.cmd) → rest = []) := by
  have hl := afterAll_settled plc hfd earlier hclean ⟨rfl, rfl⟩ hline
  obtain ⟨f, rest, hfront, hf, hres, hsize⟩ := transaction_own hl hcmd hsend hcode
  refine ⟨f, rest, hfront, hf, hres, hsize, fun hwhole => ?_⟩
  have hsplit : plc.answer line.answered x.cmd ++ [] = f ++ rest := by
    rw [List.append_nil, hfront]
  exact (hwhole.prefix_free m.protocol.response hf hsplit).2.symm

/-- A PLC that numbers its answers in the first word of the payload. -/
def numbering : Plc Module.binary.protocol where
  answer n _ := [0xD0, 0x00, 0x00, 0xFF, 0xFF, 0x03, 0x00, 0x04, 0x00, 0x00, 0x00,
    BitVec.ofNat 8 n, 0x00]

theorem numbering_isFrame (n : ℕ) (cmd : List Byte) :
    IsFrame Module.binary.protocol.response (numbering.answer n cmd) := by
  apply WellFormedBinary.isFrame
  unfold WellFormedBinary
  simp only [numbering, List.getD_cons_succ, List.getD_cons_zero, List.length_cons,
    List.length_nil]
  decide

/-- A read of D140 for which `recv` returns as in `recvs`. -/
def readingD140 (recvs : List Event) : Exchange :=
  ⟨readD140, 3, .success, .success, [.accept 20], recvs⟩

/-- A slow but complete exchange before the second one. -/
theorem success_returns_own_second :
    ∃ f rest, numbering.answer 1 readD140 = f ++ rest ∧
      IsFrame Module.binary.protocol.response f ∧
      (transaction numbering 3 ⟨[], [], 1⟩ (readingD140 [.deliver 10, .deliver 1])).response =
        .ofFrame f ∧
      (transaction numbering 3 ⟨[], [], 1⟩ (readingD140 [.deliver 10, .deliver 1])).recvSize =
        f.length ∧
      (IsFrame Module.binary.protocol.response (numbering.answer 1 readD140) → rest = []) :=
  success_returns_own .binary numbering 3 (by decide)
    [readingD140 [.interrupted, .deliver 3, .deliver 20, .deliver 20]]
    (readingD140 [.deliver 10, .deliver 1]) ⟨[], [], 1⟩ (by decide)
    ⟨⟨by decide, by decide, by unfold Live; decide, numbering_isFrame 0 readD140⟩, trivial⟩
    (by decide) (by decide) (by decide)

/-- The first call times out before its response arrives, the second one succeeds with it. -/
theorem timeout_leaves_stale :
    ∃ line, afterAll numbering 3 .fresh [readingD140 [.failed]] = some line ∧
      (transaction numbering 3 .fresh (readingD140 [.failed])).code = some .socketRecvFailed ∧
      (transaction numbering 3 line (readingD140 [.deliver 10, .deliver 1])).code =
        some .success ∧
      (transaction numbering 3 line (readingD140 [.deliver 10, .deliver 1])).response =
        .ofFrame (numbering.answer 0 readD140) ∧
      (transaction numbering 3 line (readingD140 [.deliver 10, .deliver 1])).response ≠
        .ofFrame (numbering.answer line.answered readD140) := by
  refine ⟨_, rfl, ?_⟩
  decide

end MelsecMc
