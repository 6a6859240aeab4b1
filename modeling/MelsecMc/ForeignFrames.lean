import MelsecMc.Addressing
import MelsecMc.CommandResponses
import MelsecMc.Transactions

/-!
# Responses of other protocols

Nothing looks at a response in front of its length field, neither at the
subheader nor at the access route. Whatever a stream begins with, a call succeeds
only with a frame that is delimited by its length field and has the end code zero,
and it returns the same for any other front.
-/
namespace MelsecMc

open FramedStream

namespace Module

/-- The number of bytes in front of the length field of a response. -/
def frontSize : Module → ℕ
  | binary => 7
  | ascii => 14

/-- The least size of a response. -/
def responseSize : Module → ℕ
  | binary => minResponseHeaderSize
  | ascii => asciiMinResponseHeaderSize

/-- The end code of a response, where its field is a number. -/
def endCode (frame : List Byte) : Module → Option ℕ
  | binary => some (binaryEndCode frame)
  | ascii => asciiEndCode frame

/-- The subheader of a 3E response. -/
def subheader : Module → List Byte
  | binary => [0xD0, 0x00]
  | ascii => text ['D', '0', '0', '0']

end Module

/-- What a transaction behind its request returns and stores, `none` while it waits for `recv`. -/
def delivered (m : Module) (fd : ℤ) (unlock_ret : ErrorCode) (events : List Event)
    (stream : List Byte) : Option Transacted :=
  let received := m.protocol.readResponse fd .zero 0 events stream
  received.code.map fun ret =>
    ⟨if ret = .success ∧ unlock_ret ≠ .success then unlock_ret else ret, received.response,
      received.readCount⟩

/-- A transaction whose request was sent, on its connection. -/
theorem transaction_delivered {m : Module} (plc : Plc m.protocol) (fd : ℤ) (line : Line)
    {x : Exchange} (hlock : x.lockRet = .success)
    (hsent : (sendPhase fd x.cmd x.retryCount x.sends).result = some true) :
    ((transaction plc fd line x).code.map fun code =>
        ⟨code, (transaction plc fd line x).response, (transaction plc fd line x).recvSize⟩) =
      delivered m fd x.unlockRet x.recvs
        (line.receive plc (sendPhase fd x.cmd x.retryCount x.sends).accepted).fromPlc := by
  rw [transaction, if_neg (not_not.mpr hlock)]
  simp only [hsent, delivered, Option.map_map]
  rfl

/-- Two responses that differ at most in front of their length fields. -/
structure SameBehind (m : Module) (frame frame' : List Byte) : Prop where
  size : m.responseSize ≤ frame.length
  length : frame.length = frame'.length
  drop : frame.drop m.frontSize = frame'.drop m.frontSize

/-- Two transactions that end in the same way, with responses that differ at most in front. -/
def Alike (m : Module) (r r' : Transacted) : Prop :=
  r = r' ∨ ∃ code frame frame', SameBehind m frame frame' ∧
    r = ⟨code, .ofFrame frame, frame.length⟩ ∧ r' = ⟨code, .ofFrame frame', frame'.length⟩

/-- A parser that does not look at the front of a response, and takes no response with an end code
other than zero for a success. -/
structure Evaluates {β : Type} (m : Module)
    (parse : ByteArrayInfo → Option (ErrorCode × β)) : Prop where
  blind : ∀ frame frame', SameBehind m frame frame' →
    parse (.ofList frame) = parse (.ofList frame')
  accepts : ∀ frame result, m.responseSize ≤ frame.length → parse (.ofList frame) = some result →
    result.1 = .success → m.endCode frame = some 0

namespace Call

variable {α β : Type}

/-- A call with the same result for transactions that are alike, which succeeds only with a
received response with the end code zero. -/
structure Judges (m : Module) (code : α → ErrorCode) (c : Call α) : Prop where
  blind : ∀ r r', Alike m r r' → c.answer r = c.answer r'
  accepts : ∀ r a, c.answer r = some a → code a = .success → r.code = .success ∧
    ∀ frame, m.responseSize ≤ frame.length → r = .ofFrame frame → m.endCode frame = some 0

/-- A computation without a transaction that succeeds only where `ret` is a success. -/
def Keeps (code : α → ErrorCode) (ret : ErrorCode) (c : Call α) : Prop :=
  ∃ o : Option α, c = .ofOption o ∧ ∀ a, o = some a → code a = .success → ret = .success

end Call

section Stream

/-- A read that is longer than the front goes in the same way behind every front. -/
theorem readExact_fronts {n size : ℕ} (hn : n ≤ size) (events : List Event) (tail : List Byte) :
    ∃ outcome left, ∀ front : List Byte, front.length = n →
      (readExact events (front ++ tail) size).outcome = outcome ∧
      (readExact events (front ++ tail) size).events = left ∧
      (outcome = .complete →
        (readExact events (front ++ tail) size).got = front ++ tail.take (size - n) ∧
        (readExact events (front ++ tail) size).rest = tail.drop (size - n)) := by
  -- zeros stand for every front
  have hzeros : ∀ front : List Byte, front.length = n →
      (front ++ tail).length = (List.replicate n 0 ++ tail).length := by
    intro front hfront
    rw [List.length_append, List.length_append, List.length_replicate, hfront]
  refine ⟨(readExact events (List.replicate n 0 ++ tail) size).outcome,
    (readExact events (List.replicate n 0 ++ tail) size).events, fun front hfront => ?_⟩
  obtain ⟨houtcome, hevents⟩ := readExact_congr events (front ++ tail) size _ (hzeros front hfront)
  refine ⟨houtcome, hevents, fun hcomplete => ?_⟩
  obtain ⟨hgot, hrest, -⟩ := readExact_eq (houtcome.trans hcomplete)
  have hle : front.length ≤ size := hfront.trans_le hn
  rw [hgot, hrest, List.take_append, List.drop_append, List.take_of_length_le hle,
    List.drop_eq_nil_of_le hle, List.nil_append, hfront]
  exact ⟨rfl, rfl⟩

/-- A reader whose header does not arrive. -/
theorem Protocol.readResponse_stopped (P : Protocol) {fd : ℤ} (hfd : ¬ fd ≤ 0)
    (response : Response) (read_count : ℤ) {events : List Event} {stream : List Byte}
    (h : (readExact events stream P.response.header).outcome ≠ .complete) :
    P.readResponse fd response read_count events stream =
      ⟨recvCode (readExact events stream P.response.header).outcome, response, read_count,
        (readExact events stream P.response.header).rest,
        (readExact events stream P.response.header).events⟩ := by
  simp only [Protocol.readResponse, if_neg hfd, mcRecvExact]

/-- Where the size of a frame does not depend on the front, a reader does the same with every
front, or it returns a frame with that front. -/
theorem Protocol.readResponse_front (P : Protocol) {n : ℕ} (hn : n ≤ P.response.header)
    (htotal : ∀ got got' : List Byte, got.drop n = got'.drop n →
      P.response.total got = P.response.total got')
    (fd : ℤ) (response : Response) (read_count : ℤ) (events : List Event) (tail : List Byte) :
    (∃ code out count, ∀ front : List Byte, front.length = n →
      (P.readResponse fd response read_count events (front ++ tail)).code = code ∧
      (P.readResponse fd response read_count events (front ++ tail)).response = out ∧
      (P.readResponse fd response read_count events (front ++ tail)).readCount = count) ∨
    ∃ behind, ∀ front : List Byte, front.length = n →
      (P.readResponse fd response read_count events (front ++ tail)).code = some .success ∧
      (P.readResponse fd response read_count events (front ++ tail)).response =
        .ofFrame (front ++ behind) ∧
      (P.readResponse fd response read_count events (front ++ tail)).readCount =
        (front ++ behind).length := by
  by_cases hfd : fd ≤ 0
  · refine .inl ⟨some .invalidParameter, response, read_count, fun front _ => ?_⟩
    rw [Protocol.readResponse, if_pos hfd]
    exact ⟨rfl, rfl, rfl⟩
  obtain ⟨outcome, left, hheader⟩ := readExact_fronts hn events tail
  by_cases houtcome : outcome = .complete
  · subst houtcome
    obtain ⟨size, hsize⟩ : ∃ size, ∀ front : List Byte, front.length = n →
        P.response.total (front ++ tail.take (P.response.header - n)) = size := by
      refine ⟨_, fun front hfront => htotal _
        (List.replicate n 0 ++ tail.take (P.response.header - n)) ?_⟩
      rw [List.drop_left' hfront, List.drop_left' List.length_replicate]
    cases size with
    | none =>
      refine .inl ⟨some .responseHeaderFailed, response, read_count, fun front hfront => ?_⟩
      obtain ⟨hcomplete, -, hread⟩ := hheader front hfront
      simp only [Protocol.readResponse, if_neg hfd, mcRecvExact, hcomplete, (hread rfl).1,
        hsize front hfront, and_self]
    | some total_len =>
      have hbodylen := readExact_complete left (tail.drop (P.response.header - n))
        (total_len - P.response.header)
      generalize hbody : readExact left (tail.drop (P.response.header - n))
        (total_len - P.response.header) = body at hbodylen
      cases hend : body.outcome with
      | complete =>
        refine .inr ⟨tail.take (P.response.header - n) ++ body.got, fun front hfront => ?_⟩
        obtain ⟨hcomplete, hleft, hread⟩ := hheader front hfront
        obtain ⟨hgot, hrest⟩ := hread rfl
        have hlen := readExact_complete _ _ _ hcomplete
        have hle := P.response.header_le _ _ (hsize front hfront)
        have hbody_size : body.got.length = total_len - P.response.header := hbodylen hend
        have hframe : (front ++ (tail.take (P.response.header - n) ++ body.got)).length =
            total_len := by
          rw [hgot] at hlen
          rw [← List.append_assoc, List.length_append, hlen, hbody_size]
          omega
        simp only [Protocol.readResponse, if_neg hfd, mcRecvExact, hcomplete, hleft, hgot, hrest,
          hsize front hfront, hbody, hend, Response.ofFrame, hframe, List.append_assoc, and_self]
      | closed | failed | blocked =>
        refine .inl ⟨recvCode body.outcome, P.abandoned response, read_count,
          fun front hfront => ?_⟩
        obtain ⟨hcomplete, hleft, hread⟩ := hheader front hfront
        obtain ⟨hgot, hrest⟩ := hread rfl
        simp only [Protocol.readResponse, if_neg hfd, mcRecvExact, hcomplete, hleft, hgot, hrest,
          hsize front hfront, hbody, hend, and_self]
  · refine .inl ⟨recvCode outcome, response, read_count, fun front hfront => ?_⟩
    obtain ⟨hstopped, -⟩ := hheader front hfront
    rw [P.readResponse_stopped hfd response read_count (hstopped.trans_ne houtcome), hstopped]
    exact ⟨rfl, rfl, rfl⟩

theorem getElem?_of_drop {l l' : List Byte} {n : ℕ} (h : l.drop n = l'.drop n) {i : ℕ}
    (hi : n ≤ i) : l[i]? = l'[i]? := by
  have hdrop := congrArg (·[i - n]?) h
  simp only [List.getElem?_drop, Nat.add_sub_cancel' hi] at hdrop
  exact hdrop

theorem getD_of_drop {l l' : List Byte} {n : ℕ} (h : l.drop n = l'.drop n) {i : ℕ}
    (hi : n ≤ i) : l.getD i 0 = l'.getD i 0 := by
  rw [List.getD_eq_getElem?_getD, List.getD_eq_getElem?_getD, getElem?_of_drop h hi]

theorem Module.total_front (m : Module) (got got' : List Byte)
    (h : got.drop m.frontSize = got'.drop m.frontSize) :
    m.protocol.response.total got = m.protocol.response.total got' := by
  cases m with
  | binary =>
    have hbehind : ∀ i, 7 ≤ i → got.getD i 0 = got'.getD i 0 := fun i hi => getD_of_drop h hi
    change mcResponseTotalLen got = mcResponseTotalLen got'
    simp only [mcResponseTotalLen, hbehind 7 le_rfl, hbehind 8 (by omega)]
  | ascii =>
    have hbehind : ∀ i, 14 ≤ i → got.getD i 0 = got'.getD i 0 := fun i hi => getD_of_drop h hi
    change mcAsciiResponseTotalLen got = mcAsciiResponseTotalLen got'
    simp only [mcAsciiResponseTotalLen, hbehind 14 le_rfl, hbehind 15 (by omega),
      hbehind 16 (by omega), hbehind 17 (by omega)]

theorem Module.frontSize_le (m : Module) : m.frontSize ≤ m.protocol.response.header := by
  cases m with
  | binary => decide
  | ascii => decide

/-- No header announces less than a response. -/
theorem Module.responseSize_le (m : Module) {frame : List Byte}
    (h : IsFrame m.protocol.response frame) : m.responseSize ≤ frame.length := by
  have htotal := h.2
  cases m with
  | binary => exact h.1
  | ascii =>
    change mcAsciiResponseTotalLen _ = _ at htotal
    rw [mcAsciiResponseTotalLen] at htotal
    split at htotal
    · cases htotal
    · split at htotal
      · cases htotal
      · simp only at htotal
        split at htotal
        · cases htotal
        · rename_i hsize
          have := Option.some.inj htotal
          change asciiMinResponseHeaderSize ≤ frame.length
          omega

theorem delivered_success {m : Module} {fd : ℤ} {unlock_ret : ErrorCode} {events : List Event}
    {stream : List Byte} {r : Transacted} (h : delivered m fd unlock_ret events stream = some r)
    (hr : r.code = .success) :
    ∃ frame rest, stream = frame ++ rest ∧ IsFrame m.protocol.response frame ∧
      r = .ofFrame frame := by
  obtain ⟨ret, hcode, rfl⟩ := Option.map_eq_some_iff.mp h
  have hret : ret = .success := by
    simp only at hr
    split_ifs at hr with hunlock
    · exact absurd hr hunlock.2
    · exact hr
  subst hret
  obtain ⟨frame, rest, hstream, hframe, hresponse, hcount⟩ := m.protocol.readResponse_isFrame hcode
  refine ⟨frame, rest, hstream, hframe, ?_⟩
  rw [Transacted.ofFrame, ← hresponse, ← hcount]
  congr 1

/-- With another front a transaction ends in the same way. -/
theorem delivered_front (m : Module) (fd : ℤ) (unlock_ret : ErrorCode) (events : List Event)
    {front front' : List Byte} (tail : List Byte) (hfront : front.length = m.frontSize)
    (hfront' : front'.length = m.frontSize) :
    (delivered m fd unlock_ret events (front ++ tail) = none ∧
      delivered m fd unlock_ret events (front' ++ tail) = none) ∨
    ∃ r r', delivered m fd unlock_ret events (front ++ tail) = some r ∧
      delivered m fd unlock_ret events (front' ++ tail) = some r' ∧ Alike m r r' := by
  obtain ⟨code, out, count, hsame⟩ | ⟨behind, hframe⟩ := m.protocol.readResponse_front
    m.frontSize_le m.total_front fd .zero 0 events tail
  · obtain ⟨hcode, hout, hcount⟩ := hsame front hfront
    obtain ⟨hcode', hout', hcount'⟩ := hsame front' hfront'
    simp only [delivered, hcode, hout, hcount, hcode', hout', hcount']
    cases code with
    | none => exact .inl ⟨rfl, rfl⟩
    | some ret => exact .inr ⟨_, _, rfl, rfl, .inl rfl⟩
  · obtain ⟨hcode, hout, hcount⟩ := hframe front hfront
    obtain ⟨hcode', hout', hcount'⟩ := hframe front' hfront'
    obtain ⟨frame, rest, -, hisFrame, hresponse, -⟩ := m.protocol.readResponse_isFrame hcode
    have heq : front ++ behind = frame := by
      rw [hout, Response.ofFrame, Response.ofFrame, Response.mk.injEq, Buffer.live.injEq]
        at hresponse
      exact hresponse.1
    subst heq
    simp only [delivered, hcode, hout, hcount, hcode', hout', hcount', Option.map_some]
    refine .inr ⟨_, _, rfl, rfl, .inr ⟨_, _, _, ⟨m.responseSize_le hisFrame, ?_, ?_⟩, rfl, rfl⟩⟩
    · rw [List.length_append, List.length_append, hfront, hfront']
    · rw [List.drop_left' hfront, List.drop_left' hfront']

end Stream

namespace Call.Keeps

variable {α β γ : Type} {code : α → ErrorCode} {ret : ErrorCode}

theorem of_ret {a : α} (h : code a = .success → ret = .success) : (Call.ret a).Keeps code ret := by
  refine ⟨some a, rfl, fun b hb hcode => h ?_⟩
  rw [Option.some.inj hb]
  exact hcode

theorem fault : (Call.fault : Call α).Keeps code ret := ⟨none, rfl, fun a ha => by cases ha⟩

theorem ite {p : Prop} [Decidable p] {c d : Call α} (hc : c.Keeps code ret)
    (hd : d.Keeps code ret) : (if p then c else d).Keeps code ret := by
  split
  · exact hc
  · exact hd

theorem ofOption_bind {o : Option γ} {f : γ → Call α} (hf : ∀ a, (f a).Keeps code ret) :
    (Call.ofOption o >>= f).Keeps code ret := by
  cases o with
  | none => exact fault
  | some a => exact hf a

/-- How the readers end: a conversion where the payload is long enough. -/
theorem convert {p : Prop} [Decidable p] {o : Option γ} {f : γ → β} {b : β} :
    (if p then Call.ofOption o >>= fun a => .ret (ret, f a) else .ret (ret, b) :
      Call (ErrorCode × β)).Keeps Prod.fst ret :=
  ite (ofOption_bind fun _ => of_ret id) (of_ret id)

end Call.Keeps

namespace Call.Judges

variable {α β γ : Type} {m : Module} {code : α → ErrorCode}

theorem error {a : α} (ha : code a ≠ .success) : (Call.ret a).Judges m code := by
  refine ⟨fun _ _ _ => rfl, fun r b hb hcode => ?_⟩
  obtain rfl := Option.some.inj hb
  exact absurd hcode ha

theorem fault : (Call.fault : Call α).Judges m code :=
  ⟨fun _ _ _ => rfl, fun r a ha => by cases ha⟩

theorem ite {p : Prop} [Decidable p] {c d : Call α} (hc : c.Judges m code)
    (hd : d.Judges m code) : (if p then c else d).Judges m code := by
  split
  · exact hc
  · exact hd

theorem ofOption_bind {o : Option γ} {f : γ → Call α} (hf : ∀ a, (f a).Judges m code) :
    (Call.ofOption o >>= f).Judges m code := by
  cases o with
  | none => exact fault
  | some a => exact hf a

/-- What follows a call may change its success to an error. -/
theorem bind {code' : β → ErrorCode} {c : Call α} {f : α → Call β} (hc : c.Judges m code)
    (hf : ∀ a, (f a).Keeps code' (code a)) : (c >>= f).Judges m code' := by
  choose o ho hkeeps using hf
  have hanswer : ∀ r, (c >>= f).answer r = (c.answer r).bind o := by
    intro r
    rw [answer_bind]
    congr 1
    funext a
    rw [ho, answer_ofOption]
  constructor
  · intro r r' halike
    rw [hanswer, hanswer, hc.blind r r' halike]
  · intro r b hb hcode
    rw [hanswer] at hb
    obtain ⟨a, ha, hab⟩ := Option.bind_eq_some_iff.mp hb
    exact hc.accepts r a ha (hkeeps a b hab hcode)

theorem coded {c : Call (ErrorCode × β)} (hc : c.Judges m Prod.fst) : c.code.Judges m id :=
  hc.bind fun _ => .of_ret id

theorem analysed {address : Option CString} {length : ℤ} {out : β}
    {next : MelsecMcAddressData → Call (ErrorCode × β)}
    (h : ∀ address_data, (next address_data).Judges m Prod.fst) :
    (analysed address length out next).Judges m Prod.fst := by
  unfold MelsecMc.analysed
  split
  · exact fault
  · exact error (by simp)
  · exact h _

end Call.Judges

section Evaluation

variable {β : Type} {m : Module} {parse : ByteArrayInfo → Option (ErrorCode × β)}

theorem evaluate_alike (hparse : Evaluates m parse) {min_size : ℕ}
    (hmin : min_size ≤ m.responseSize) (out : β) {r r' : Transacted} (h : Alike m r r') :
    evaluate min_size out parse r = evaluate min_size out parse r' := by
  obtain rfl | ⟨code, frame, frame', hsame, rfl, rfl⟩ := h
  · rfl
  · have hsize := hsame.size
    have hlength := hsame.length
    by_cases hcode : code = .success
    · subst hcode
      change evaluate min_size out parse (.ofFrame frame) =
        evaluate min_size out parse (.ofFrame frame')
      rw [evaluate_ofFrame (by omega), evaluate_ofFrame (by omega), hparse.blind _ _ hsame]
    · rw [evaluate, evaluate, if_pos hcode, if_pos hcode]
      rfl

/-- A request whose response is evaluated so. -/
theorem exchange_judges (hparse : Evaluates m parse)
    {pack : ByteArrayInfo → PlcNetworkAddress → Option ByteArrayInfo} {min_size : ℕ}
    (hmin : min_size ≤ m.responseSize) {network : PlcNetworkAddress} {fd : ℤ}
    {core_cmd : ByteArrayInfo} {out : β} :
    (exchange pack min_size network fd core_cmd out parse).Judges m Prod.fst := by
  by_cases hrequest : (exchange pack min_size network fd core_cmd out parse).request = none
  · refine ⟨fun r r' _ => Call.answer_of_no_request hrequest r r', fun r a ha hcode => ?_⟩
    rw [Call.answer_of_no_request hrequest r ⟨.failed, .zero, 0⟩] at ha
    exact absurd hcode (exchange_failed (by simp) ha)
  · refine ⟨fun r r' halike => ?_, fun r a ha hcode => ⟨?_, fun frame hframe hr => ?_⟩⟩
    · obtain ⟨cmd, -, -, htransact⟩ := exchange_of_request hrequest
      obtain ⟨o, ho⟩ : (evaluate min_size out parse r').IsLocal := .evaluate r'
      rw [htransact]
      change (evaluate min_size out parse r).answer r = (evaluate min_size out parse r').answer r'
      rw [evaluate_alike hparse hmin out halike, ho, Call.answer_ofOption, Call.answer_ofOption]
    · by_contra hne
      exact exchange_failed hne ha hcode
    · subst hr
      rw [exchange_answer hrequest (hmin.trans hframe)] at ha
      exact hparse.accepts frame a hframe ha hcode

/-- A parser with more computations behind it. -/
theorem Evaluates.bind {γ : Type} (hparse : Evaluates m parse)
    {f : ErrorCode × β → Option (ErrorCode × γ)}
    (hf : ∀ a b, f a = some b → b.1 = .success → a.1 = .success) :
    Evaluates m fun response => (parse response).bind f := by
  constructor
  · intro frame frame' hsame
    simp only [hparse.blind frame frame' hsame]
  · intro frame result hframe hresult hcode
    obtain ⟨a, ha, hfa⟩ := Option.bind_eq_some_iff.mp hresult
    exact hparse.accepts frame a hframe ha (hf a result hfa hcode)

theorem Evaluates.map {γ : Type} (hparse : Evaluates m parse) (f : β → γ) :
    Evaluates m fun response => (parse response).bind fun a => some (a.1, f a.2) := by
  apply hparse.bind
  intro a b hb hcode
  obtain rfl := Option.some.inj hb
  exact hcode

/-- Both parsers of the binary module. -/
theorem parseResponse_evaluates (attach : ℕ → Bool) (data : Option ByteArrayInfo) :
    Evaluates .binary fun response => parseResponse attach response data := by
  constructor
  · intro frame frame' hsame
    have hsize : 11 ≤ frame.length := hsame.size
    have hlength := hsame.length
    have hbehind : ∀ i, 7 ≤ i → frame.getD i 0 = frame'.getD i 0 :=
      fun i hi => getD_of_drop hsame.drop hi
    have hpayload : frame.drop 11 = frame'.drop 11 := by
      have hdrop := congrArg (List.drop 4) hsame.drop
      rwa [List.drop_drop, List.drop_drop] at hdrop
    have hannounced : announced frame = announced frame' := by
      simp only [announced, binaryLengthField, hbehind 7 le_rfl, hbehind 8 (by omega)]
    have haccepted : Accepted frame ↔ Accepted frame' := by
      rw [Accepted, Accepted, hannounced, hlength, binaryEndCode, binaryEndCode,
        hbehind 9 (by omega), hbehind 10 (by omega)]
    simp only [parseResponse_ofList attach hsize,
      parseResponse_ofList attach (hlength ▸ hsize : 11 ≤ frame'.length), hannounced, hpayload,
      haccepted]
  · intro frame result hframe hresult hcode
    rw [parseResponse_ofList attach hframe] at hresult
    obtain ⟨out, -, rfl⟩ := Option.map_eq_some_iff.mp hresult
    simp only at hcode
    split_ifs at hcode with haccepted
    exact congrArg some haccepted.1

/-- What the ASCII parsers look at. -/
theorem SameBehind.ascii {frame frame' : List Byte} (h : SameBehind .ascii frame frame') :
    22 ≤ frame.length ∧ frame.length = frame'.length ∧ asciiEndCode frame = asciiEndCode frame' ∧
      frame.drop 22 = frame'.drop 22 := by
  have hbehind : ∀ i, 14 ≤ i → frame.getD i 0 = frame'.getD i 0 :=
    fun i hi => getD_of_drop h.drop hi
  have hpayload := congrArg (List.drop 8) h.drop
  rw [List.drop_drop, List.drop_drop] at hpayload
  refine ⟨h.size, h.length, ?_, hpayload⟩
  rw [asciiEndCode, asciiEndCode, hbehind 18 (by omega), hbehind 19 (by omega),
    hbehind 20 (by omega), hbehind 21 (by omega)]

theorem mcAsciiParseReadResponse_evaluates (out : ByteArrayInfo) (is_bit : Bool) :
    Evaluates .ascii fun response => mcAsciiParseReadResponse response (some out) is_bit := by
  constructor
  · intro frame frame' hsame
    obtain ⟨hsize, hlength, hcode, hpayload⟩ := hsame.ascii
    have hmin : asciiMinResponseHeaderSize = 22 := rfl
    simp only [mcAsciiParseReadResponse, ByteArrayInfo.ofList_data, ByteArrayInfo.ofList_length,
      mcAsciiParseResponseEndCode_ofList hsize,
      mcAsciiParseResponseEndCode_ofList (hlength ▸ hsize : 22 ≤ frame'.length), hcode, hlength,
      hmin, hpayload]
  · intro frame result hframe hresult hcode
    by_contra hne
    rw [mcAsciiParseReadResponse_error hframe hne] at hresult
    obtain rfl := Option.some.inj hresult
    exact hne (asciiEndResult_success.mp hcode)

theorem mcAsciiParseWriteResponse_evaluates (out : Option ByteArrayInfo) :
    Evaluates .ascii fun response => mcAsciiParseWriteResponse response out := by
  constructor
  · intro frame frame' hsame
    obtain ⟨hsize, hlength, hcode, hpayload⟩ := hsame.ascii
    have hmin : asciiMinResponseHeaderSize = 22 := rfl
    simp only [mcAsciiParseWriteResponse, ByteArrayInfo.ofList_data, ByteArrayInfo.ofList_length,
      mcAsciiParseResponseEndCode_ofList hsize,
      mcAsciiParseResponseEndCode_ofList (hlength ▸ hsize : 22 ≤ frame'.length), hcode, hlength,
      hmin]
    cases out with
    | none => rfl
    | some out => simp only [hpayload]
  · intro frame result hframe hresult hcode
    by_contra hne
    rw [mcAsciiParseWriteResponse_error hframe hne] at hresult
    obtain rfl := Option.some.inj hresult
    exact hne (asciiEndResult_success.mp hcode)

end Evaluation

section Functions

open Call

variable {network : PlcNetworkAddress} {fd : ℤ} {size : ℕ} {m : Module}

theorem readValue_judges
    {readWord : ℤ → Option CString → ℤ → ByteArrayInfo → Call (ErrorCode × ByteArrayInfo)}
    {points : ℤ} {enough : ℤ → Bool} {C : ValueCodec size} {address : Option CString} {val : Bool}
    (h : ∀ address length out, (readWord fd address length out).Judges m Prod.fst) :
    (readValue readWord points enough C fd address val).Judges m Prod.fst :=
  .ite (.error (by simp)) ((h _ _ _).bind fun _ => .convert)

theorem writeValue_judges
    {writeWord : ℤ → Option CString → ℤ → ByteArrayInfo → Call (ErrorCode × Unit)}
    {points : ℤ} {C : ValueCodec size} {address : Option CString} {val : BitVec (8 * size)}
    (h : ∀ address length data, (writeWord fd address length data).Judges m Prod.fst) :
    (writeValue writeWord points C fd address val).Judges m Prod.fst :=
  .ite (.error (by simp)) (h _ _ _)

theorem readBoolValue_judges (address : Option CString) (length : ℤ) (out : ByteArrayInfo) :
    (readBoolValue network fd address length out).Judges .binary Prod.fst := by
  refine .ite (.error (by simp)) (.analysed fun _ => exchange_judges ?_ le_rfl)
  refine (parseResponse_evaluates _ (some out)).bind fun a b hb hcode => ?_
  simp only at hb
  split_ifs at hb with hret
  · exact hret
  · obtain rfl := Option.some.inj hb
    exact hcode

theorem readWordValue_judges (address : Option CString) (length : ℤ) (out : ByteArrayInfo) :
    (readWordValue network fd address length out).Judges .binary Prod.fst := by
  refine .ite (.error (by simp)) (.analysed fun _ => .ite (.error (by simp))
    (exchange_judges ?_ le_rfl))
  exact (parseResponse_evaluates _ (some out)).map fun data => data.getD out

theorem writeExchange_judges (core_cmd : ByteArrayInfo) :
    (writeExchange network fd core_cmd).Judges .binary Prod.fst :=
  exchange_judges ((parseResponse_evaluates _ none).map fun _ => ()) le_rfl

theorem writeBoolValue_judges (address : Option CString) (length : ℤ) (data : BoolArrayInfo) :
    (writeBoolValue network fd address length data).Judges .binary Prod.fst :=
  .ite (.error (by simp)) (.analysed fun _ => .ofOption_bind fun _ => writeExchange_judges _)

theorem writeWordValue_judges (address : Option CString) (length : ℤ) (data : ByteArrayInfo) :
    (writeWordValue network fd address length data).Judges .binary Prod.fst :=
  .analysed fun _ => .ofOption_bind fun _ => writeExchange_judges _

theorem mcReadPlcType_judges (type : Bool) :
    (mcReadPlcType network fd type).Judges .binary Prod.fst := by
  refine .ite (.error (by simp)) (exchange_judges ?_ le_rfl)
  refine (parseResponse_evaluates _ (some .empty)).bind fun a b hb hcode => ?_
  simp only at hb
  split_ifs at hb with hret
  · obtain rfl := Option.some.inj hb
    exact hcode
  · exact not_not.mp hret

theorem Access.mc_judges (address : Option CString) (a : Access) :
    (a.mc network fd address).Judges .binary id := by
  cases a with
  | readBool val =>
    refine .coded (.ite (.error (by simp)) ?_)
    exact (readBoolValue_judges _ _ _).bind fun _ => .convert
  | readValue T val =>
    obtain ⟨enough, hread, -⟩ := T.mcRead_eq network fd address val
    rw [mc, hread]
    exact .coded (readValue_judges readWordValue_judges)
  | readString length range val =>
    refine .coded (.ite (.error (by simp)) ((readWordValue_judges _ _ _).bind fun result => ?_))
    refine .ite (.ite (.ofOption_bind fun _ => .ite (.of_ret id) .fault) (.of_ret ?_)) (.of_ret id)
    simp
  | writeBool val => exact .coded (.ite (.error (by simp)) (writeBoolValue_judges _ _ _))
  | writeValue T val =>
    rw [mc, T.mcWrite_eq]
    exact .coded (writeValue_judges writeWordValue_judges)
  | writeString length range val =>
    cases val with
    | none => exact .coded (.error (by simp))
    | some val =>
      exact .coded (.ite (.error (by simp)) (.ite (writeWordValue_judges _ _ _)
        (.error (by simp))))

theorem BatchAccess.mc_judges (address : Option CString) (a : BatchAccess) :
    (a.mc network fd address).Judges .binary id := by
  cases a with
  | readBool length range values =>
    refine .coded (.ite (.error (by simp)) ?_)
    exact (readBoolValue_judges _ _ _).bind fun _ => .convert
  | read T length range values =>
    rw [mc, T.mcReadBatch_eq]
    refine .coded (.ite (.error (by simp)) ?_)
    exact (readWordValue_judges _ _ _).bind fun _ => .convert
  | writeBool length range values =>
    cases values with
    | none => exact .coded (.error (by simp))
    | some values => exact .coded (.ite (.error (by simp)) (writeBoolValue_judges _ _ _))
  | write T length range values =>
    rw [mc, T.mcWriteBatch_eq]
    cases values with
    | none => exact .coded (.error (by simp))
    | some values =>
      exact .coded (.ite (.error (by simp)) (.ite (.ite (writeWordValue_judges _ _ _) .fault)
        (.error (by simp))))

theorem Remote.mc_judges (a : Remote) : (a.mc network fd).Judges .binary id := by
  cases a with
  | run => exact .coded (.ite (.error (by simp)) (writeExchange_judges _))
  | stop => exact .coded (writeExchange_judges _)
  | reset => exact .coded (.ite (.error (by simp)) (writeExchange_judges _))
  | readPlcType type => exact .coded (mcReadPlcType_judges type)

namespace Ascii

theorem readDeviceValue_judges {is_bit : Bool} (address : Option CString) (length : ℤ)
    (out : ByteArrayInfo) :
    (readDeviceValue network is_bit fd address length out).Judges .ascii Prod.fst := by
  refine .ite (.error (by simp)) (.analysed fun _ => exchange_judges ?_ le_rfl)
  exact (mcAsciiParseReadResponse_evaluates out is_bit).map fun data => data.getD out

theorem writeExchange_judges (core_cmd : ByteArrayInfo) :
    (writeExchange network fd core_cmd).Judges .ascii Prod.fst :=
  exchange_judges ((mcAsciiParseWriteResponse_evaluates none).map fun _ => ()) (Nat.zero_le _)

theorem writeBoolValue_judges (address : Option CString) (length : ℤ) (data : BoolArrayInfo) :
    (writeBoolValue network fd address length data).Judges .ascii Prod.fst :=
  .ite (.error (by simp)) (.analysed fun _ => .ofOption_bind fun _ => writeExchange_judges _)

theorem writeWordValue_judges (address : Option CString) (length : ℤ) (data : ByteArrayInfo) :
    (writeWordValue network fd address length data).Judges .ascii Prod.fst :=
  .ite (.error (by simp)) (.analysed fun _ => .ofOption_bind fun _ => writeExchange_judges _)

theorem mcAsciiExecuteRawCommand_judges (raw_cmd : List Byte) (out : Option ByteArrayInfo) :
    (mcAsciiExecuteRawCommand network fd raw_cmd out).Judges .ascii Prod.fst :=
  .ite (.error (by simp))
    (exchange_judges (mcAsciiParseWriteResponse_evaluates out) (Nat.zero_le _))

end Ascii

open Ascii in
theorem Access.mcAscii_judges (address : Option CString) (a : Access) :
    (a.mcAscii network fd address).Judges .ascii id := by
  cases a with
  | readBool val =>
    refine .coded (.ite (.error (by simp)) ?_)
    exact (readDeviceValue_judges _ _ _).bind fun _ => .convert
  | readValue T val =>
    rw [mcAscii, T.mcAsciiRead_eq]
    exact .coded (readValue_judges readDeviceValue_judges)
  | readString length range val =>
    refine .coded (.ite (.error (by simp)) ?_)
    exact (readDeviceValue_judges _ _ _).bind fun _ => .convert
  | writeBool val => exact .coded (.ite (.error (by simp)) (Ascii.writeBoolValue_judges _ _ _))
  | writeValue T val =>
    rw [mcAscii, T.mcAsciiWrite_eq]
    exact .coded (writeValue_judges Ascii.writeWordValue_judges)
  | writeString length range val =>
    cases val with
    | none => exact .coded (.error (by simp))
    | some val =>
      exact .coded (.ite (.error (by simp)) (.ite (Ascii.writeWordValue_judges _ _ _)
        (.error (by simp))))

open Ascii in
theorem Remote.mcAscii_judges (a : Remote) : (a.mcAscii network fd).Judges .ascii id := by
  cases a with
  | run | stop | reset => exact .coded (mcAsciiExecuteRawCommand_judges _ _)
  | readPlcType type =>
    refine .coded (.ite (.error (by simp))
      ((mcAsciiExecuteRawCommand_judges _ _).bind fun result => ?_))
    obtain ⟨ret, payload⟩ := result
    simp only
    split_ifs with hret
    · exact .of_ret id
    · exact .ofOption_bind fun _ => .of_ret fun _ => not_not.mp hret

/-- The public functions, one by one. -/
theorem Operation.call_judges (op : Operation) : (op.call network fd).Judges op.module id := by
  cases op with
  | mc address access => exact access.mc_judges address
  | mcBatch address access => exact access.mc_judges address
  | mcRemote remote => exact remote.mc_judges
  | mcAscii address access => exact access.mcAscii_judges address
  | mcAsciiRemote remote => exact remote.mcAscii_judges

end Functions

/-- The code that a call returns when its transaction reads from `stream`, if it returns. -/
def codeOn (op : Operation) (network : PlcNetworkAddress) (fd : ℤ) (unlock_ret : ErrorCode)
    (events : List Event) (stream : List Byte) : Option ErrorCode :=
  (delivered op.module fd unlock_ret events stream).bind fun r => (op.call network fd).answer r

/-- For every public call, every stream and every way in which it is received: the call succeeds
only if the stream begins with a complete response with the end code zero, and what stands in front
of the length field makes no difference. -/
theorem success_requires_end_code (op : Operation) (network : PlcNetworkAddress) (fd : ℤ)
    (unlock_ret : ErrorCode) (events : List Event) :
    (∀ stream, codeOn op network fd unlock_ret events stream = some .success →
      ∃ frame rest, stream = frame ++ rest ∧ IsFrame op.module.protocol.response frame ∧
        op.module.endCode frame = some 0) ∧
    ∀ front front' tail : List Byte, front.length = op.module.frontSize →
      front'.length = op.module.frontSize →
      codeOn op network fd unlock_ret events (front ++ tail) =
        codeOn op network fd unlock_ret events (front' ++ tail) := by
  have hjudges : (op.call network fd).Judges op.module id := op.call_judges
  constructor
  · intro stream h
    obtain ⟨r, hr, hanswer⟩ := Option.bind_eq_some_iff.mp h
    obtain ⟨hcode, hend⟩ := hjudges.accepts r .success hanswer rfl
    obtain ⟨frame, rest, hstream, hframe, hof⟩ := delivered_success hr hcode
    exact ⟨frame, rest, hstream, hframe,
      hend frame (op.module.responseSize_le hframe) hof⟩
  · intro front front' tail hfront hfront'
    obtain ⟨hnone, hnone'⟩ | ⟨r, r', hr, hr', halike⟩ :=
      delivered_front op.module fd unlock_ret events tail hfront hfront'
    · rw [codeOn, codeOn, hnone, hnone']
    · rw [codeOn, codeOn, hr, hr']
      exact hjudges.blind r r' halike

/-- Reading the word at D20. -/
def readingWord : Operation :=
  .mc (some ⟨text ['D', '2', '0'], by decide⟩) (.readValue .short true)

def asciiReadingWord : Operation :=
  .mcAscii (some ⟨text ['D', '2', '0'], by decide⟩) (.readValue .short true)

/-- A frame with the subheader of a request that has the shape of a response with one word. -/
def requestLike : List Byte :=
  [0x50, 0x00, 0x00, 0xFF, 0xFF, 0x03, 0x00, 0x04, 0x00, 0x00, 0x00, 0x34, 0x12]

def asciiRequestLike : List Byte :=
  text ['5', '0', '0', '0', '0', '0', 'F', 'F', '0', '3', 'F', 'F', '0', '0', '0', '0', '0', '8',
    '0', '0', '0', '0', '1', '2', '3', '4']

theorem success_requires_end_code_word :
    (∃ frame rest, requestLike = frame ++ rest ∧
      IsFrame Module.binary.protocol.response frame ∧ Module.binary.endCode frame = some 0) ∧
    codeOn readingWord ⟨0, 0⟩ 3 .success [.deliver 10, .deliver 1]
        ([0x50, 0x00, 0x00, 0xFF, 0xFF, 0x03, 0x00] ++ requestLike.drop 7) =
      codeOn readingWord ⟨0, 0⟩ 3 .success [.deliver 10, .deliver 1]
        ([0xD0, 0x00, 0x00, 0xFF, 0xFF, 0x03, 0x00] ++ requestLike.drop 7) :=
  ⟨(success_requires_end_code readingWord ⟨0, 0⟩ 3 .success [.deliver 10, .deliver 1]).1
      requestLike (by decide +kernel),
    (success_requires_end_code readingWord ⟨0, 0⟩ 3 .success [.deliver 10, .deliver 1]).2
      [0x50, 0x00, 0x00, 0xFF, 0xFF, 0x03, 0x00] [0xD0, 0x00, 0x00, 0xFF, 0xFF, 0x03, 0x00]
      (requestLike.drop 7) rfl rfl⟩

/-- Both modules take a frame with the subheader of a request for a response. -/
theorem foreign_subheader_accepted :
    codeOn readingWord ⟨0, 0⟩ 3 .success [.deliver 10, .deliver 1] requestLike = some .success ∧
      codeOn asciiReadingWord ⟨0, 0⟩ 3 .success [.deliver 17, .deliver 7] asciiRequestLike =
        some .success ∧
      ¬ ∀ op network fd unlock_ret events stream,
        codeOn op network fd unlock_ret events stream = some .success →
          op.module.subheader <+: stream := by
  have hcode : codeOn readingWord ⟨0, 0⟩ 3 .success [.deliver 10, .deliver 1] requestLike =
      some .success := by
    decide +kernel
  refine ⟨hcode, by decide +kernel, fun h => ?_⟩
  exact absurd (h _ _ _ _ _ _ hcode) (by decide)

end MelsecMc
