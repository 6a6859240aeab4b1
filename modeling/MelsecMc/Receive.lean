import MelsecMc.CTypes
import MelsecMc.FramedStream

/-!
# Receiving a response

Both protocol modules receive with their own copy of `mc_recv_exact`, the exact
read of `FramedStream`, and read a header before the rest of the frame. They
differ in the framing and in what they leave in the caller's descriptor when the
rest of the frame does not arrive. Both consume what `readFrame` consumes.
-/
namespace MelsecMc

open FramedStream

/-- `mc_recv_exact`. An event is one return of `recv`: a positive count, `EINTR`, zero, or
another error, a timeout among them. -/
def mcRecvExact (events : List Event) (stream : List Byte) (bytes_to_read : ℕ) : Reading Byte :=
  readExact events stream bytes_to_read

/-- The code of `mc_recv_exact`. A read that still waits has none. -/
def recvCode : Outcome → Option ErrorCode
  | .complete => some .success
  | .closed => some .connectionClosed
  | .failed => some .socketRecvFailed
  | .blocked => none

/-- A pointer to a heap buffer. -/
inductive Buffer where
  | null
  | live (bytes : List Byte)
  | released
  deriving DecidableEq, Repr

/-- `RELEASE_DATA`. The pointer keeps its value, so a second release is an error. -/
def releaseData : Buffer → Option Unit
  | .released => none
  | _ => some ()

/-- The `byte_array_info` of a response. -/
structure Response where
  data : Buffer
  length : ℤ
  deriving DecidableEq, Repr

namespace Response

/-- `{ 0 }`. -/
def zero : Response := ⟨.null, 0⟩

/-- A received frame. -/
def ofFrame (frame : List Byte) : Response := ⟨.live frame, frame.length⟩

/-- What a callee sees that gets the descriptor by value. -/
def view (response : Response) : Option ByteArrayInfo :=
  match response.data with
  | .null => some ⟨none, response.length⟩
  | .live bytes => some ⟨some bytes, response.length⟩
  | .released => none

@[simp] theorem view_ofFrame (frame : List Byte) :
    (ofFrame frame).view = some (.ofList frame) := rfl

end Response

/-- The state after a call that reads one response: its code, `none` while it waits, the
two out parameters, and what is left of stream and events. -/
structure Received where
  code : Option ErrorCode
  response : Response
  readCount : ℤ
  rest : List Byte
  events : List Event

/-- How one protocol module delimits requests and responses, and the descriptor it leaves
behind when the rest of a response does not arrive. -/
structure Protocol where
  request : Framing Byte
  response : Framing Byte
  abandoned : Response → Response
  request_header : 0 < request.header
  response_header : 0 < response.header

namespace Protocol

variable (P : Protocol)

/-- The body of `mc_read_response` and `mc_ascii_read_response`. -/
def readResponse (fd : ℤ) (response : Response) (read_count : ℤ) (events : List Event)
    (stream : List Byte) : Received :=
  if fd ≤ 0 then ⟨some .invalidParameter, response, read_count, stream, events⟩
  else
    let header := mcRecvExact events stream P.response.header
    match header.outcome with
    | .complete =>
      match P.response.total header.got with
      | none => ⟨some .responseHeaderFailed, response, read_count, header.rest, header.events⟩
      | some total_len =>
        let payload := mcRecvExact header.events header.rest (total_len - P.response.header)
        match payload.outcome with
        | .complete =>
          ⟨some .success, ⟨.live (header.got ++ payload.got), total_len⟩, total_len,
            payload.rest, payload.events⟩
        | o => ⟨recvCode o, P.abandoned response, read_count, payload.rest, payload.events⟩
    | o => ⟨recvCode o, response, read_count, header.rest, header.events⟩

/-- The code of a reader, by the outcome of reading one frame. -/
def frameCode : FrameOutcome → Option ErrorCode
  | .complete => some .success
  | .invalid => some .responseHeaderFailed
  | .stopped o => recvCode o

theorem frameCode_success {o : FrameOutcome} (h : frameCode o = some .success)
    (hs : o ≠ .stopped .complete) : o = .complete := by
  cases o with
  | complete => rfl
  | invalid => simp [frameCode] at h
  | stopped o => cases o <;> simp_all [frameCode, recvCode]

/-- A call consumes what `readFrame` consumes, and hands over the frame that it completes. -/
theorem readResponse_follows {fd : ℤ} (hfd : 0 < fd) (r : Response) (n : ℤ)
    (events : List Event) (stream : List Byte) :
    (P.readResponse fd r n events stream).code =
        frameCode (readFrame P.response events stream).outcome ∧
      (P.readResponse fd r n events stream).rest =
        (readFrame P.response events stream).rest ∧
      (P.readResponse fd r n events stream).events =
        (readFrame P.response events stream).events ∧
      ((readFrame P.response events stream).outcome = .complete →
        (P.readResponse fd r n events stream).response =
            .ofFrame (readFrame P.response events stream).frame ∧
          (P.readResponse fd r n events stream).readCount =
            (readFrame P.response events stream).frame.length) := by
  simp only [readResponse, if_neg (show ¬ fd ≤ 0 by omega), mcRecvExact, readFrame]
  have hlen := readExact_complete events stream P.response.header
  generalize readExact events stream P.response.header = header at hlen ⊢
  obtain ⟨o, got, rest, events'⟩ := header
  cases o with
  | complete =>
    have hle := P.response.header_le got
    cases ht : P.response.total got with
    | none => simp [frameCode]
    | some total =>
      have hbody := readExact_complete events' rest (total - P.response.header)
      simp only
      generalize readExact events' rest (total - P.response.header) = body at hbody ⊢
      obtain ⟨o, got', rest', events''⟩ := body
      have hle' := hle total ht
      have hg : got.length = P.response.header := hlen rfl
      cases o with
      | complete =>
        have hg' : got'.length = total - P.response.header := hbody rfl
        have htotal : (got ++ got').length = total := by
          rw [List.length_append]
          omega
        simp [frameCode, Response.ofFrame, ← htotal]
      | closed => simp [frameCode]
      | failed => simp [frameCode]
      | blocked => simp [frameCode]
  | closed => simp [frameCode]
  | failed => simp [frameCode]
  | blocked => simp [frameCode]

/-- A reader that succeeds returns a frame at the front of the stream. -/
theorem readResponse_isFrame {fd : ℤ} {response : Response} {read_count : ℤ}
    {events : List Event} {stream : List Byte}
    (h : (P.readResponse fd response read_count events stream).code = some .success) :
    ∃ frame rest, stream = frame ++ rest ∧ IsFrame P.response frame ∧
      (P.readResponse fd response read_count events stream).response = .ofFrame frame ∧
      (P.readResponse fd response read_count events stream).readCount = frame.length := by
  by_cases hfd : fd ≤ 0
  · rw [readResponse, if_pos hfd] at h
    cases h
  · obtain ⟨hcode, -, -, hres⟩ :=
      P.readResponse_follows (not_le.mp hfd) response read_count events stream
    rw [hcode] at h
    have hcomplete := frameCode_success h (readFrame_not_stopped P.response events stream)
    obtain ⟨hframe, hstream⟩ := readFrame_isFrame P.response hcomplete
    obtain ⟨hresponse, hcount⟩ := hres hcomplete
    exact ⟨_, _, hstream.symm, hframe, hresponse, hcount⟩

/-- Success means that the frame at the front of the stream was received as a whole. -/
theorem readResponse_success {fd : ℤ} (hfd : 0 < fd) (r : Response) (n : ℤ)
    {events : List Event} {f rest : List Byte} (hf : IsFrame P.response f)
    (h : (P.readResponse fd r n events (f ++ rest)).code = some .success) :
    (P.readResponse fd r n events (f ++ rest)).response = .ofFrame f ∧
      (P.readResponse fd r n events (f ++ rest)).readCount = f.length ∧
      (P.readResponse fd r n events (f ++ rest)).rest = rest := by
  obtain ⟨hcode, hrest, -, hres⟩ := P.readResponse_follows hfd r n events (f ++ rest)
  rw [hcode] at h
  have ho := frameCode_success h (readFrame_not_stopped P.response events (f ++ rest))
  obtain ⟨hframe, hfrest⟩ := readFrame_complete P.response hf ho
  obtain ⟨hresponse, hcount⟩ := hres ho
  exact ⟨by rw [hresponse, hframe], by rw [hcount, hframe], hrest.trans hfrest⟩

/-- While the connection stays up, the frame at the front is received, or the call waits because
no event is left. -/
theorem readResponse_of_live {fd : ℤ} (hfd : 0 < fd) (r : Response) (n : ℤ)
    {events : List Event} {f : List Byte} (rest : List Byte) (hf : IsFrame P.response f)
    (hl : Live events) :
    ((P.readResponse fd r n events (f ++ rest)).code = some .success ∨
        (P.readResponse fd r n events (f ++ rest)).code = none ∧
          (P.readResponse fd r n events (f ++ rest)).events = []) ∧
      Live (P.readResponse fd r n events (f ++ rest)).events := by
  obtain ⟨hcode, -, hevents, -⟩ := P.readResponse_follows hfd r n events (f ++ rest)
  obtain ⟨ho, hl'⟩ := readFrame_of_live P.response (r := rest) hf hl
  rw [hcode, hevents]
  rcases ho with ho | ⟨ho, he⟩
  · exact ⟨.inl (by rw [ho]; rfl), hl'⟩
  · exact ⟨.inr ⟨by rw [ho]; rfl, he⟩, hl'⟩

theorem readResponse_nil {fd : ℤ} (hfd : 0 < fd) (r : Response) (n : ℤ) (stream : List Byte) :
    (P.readResponse fd r n [] stream).code = none ∧
      (P.readResponse fd r n [] stream).events = [] := by
  obtain ⟨hcode, -, hevents, -⟩ := P.readResponse_follows hfd r n [] stream
  obtain ⟨ho, he⟩ := readFrame_nil P.response P.response_header stream
  rw [hcode, hevents, ho]
  exact ⟨rfl, he⟩

/-- While the connection stays up and delivers, the frame at the front is received. -/
theorem readResponse_live {fd : ℤ} (hfd : 0 < fd) (r : Response) (n : ℤ)
    {events : List Event} {f : List Byte} (rest : List Byte) (hf : IsFrame P.response f)
    (hl : Live events) (hd : f.length ≤ deliveries events) :
    (P.readResponse fd r n events (f ++ rest)).code = some .success ∧
      Live (P.readResponse fd r n events (f ++ rest)).events ∧
      deliveries events ≤
        deliveries (P.readResponse fd r n events (f ++ rest)).events + f.length := by
  obtain ⟨hcode, -, hevents, -⟩ := P.readResponse_follows hfd r n events (f ++ rest)
  obtain ⟨ho, hl', hd'⟩ := readFrame_live P.response (r := rest) hf hl hd
  rw [hcode, hevents, ho]
  exact ⟨rfl, hl', hd'⟩

end Protocol

end MelsecMc
