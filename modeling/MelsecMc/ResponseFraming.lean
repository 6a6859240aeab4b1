import MelsecMc.HexText

/-!
# Reading and parsing response frames

Repeated calls of a response reader return the frames of a stream one by one,
however `recv` cuts the stream. The parsers take the whole payload out of a frame
whose end code is zero, and report an error for every other end code.
-/
namespace MelsecMc

open FramedStream

/-- A binary 3E response: the length field counts at least the end code, and the frame ends
where it says. -/
def WellFormedBinary (frame : List Byte) : Prop :=
  2 ≤ le16 (frame.getD 7 0) (frame.getD 8 0) ∧
    frame.length = le16 (frame.getD 7 0) (frame.getD 8 0) + 9

/-- An ASCII 3E response. -/
def WellFormedAscii (frame : List Byte) : Prop :=
  ∃ length, mcAsciiParseU16Be (frame.getD 14 0) (frame.getD 15 0) (frame.getD 16 0)
    (frame.getD 17 0) = some length ∧ 4 ≤ length ∧ frame.length = length + 18

theorem getD_take {α : Type} (l : List α) {i n : ℕ} (h : i < n) (d : α) :
    (l.take n).getD i d = l.getD i d := by
  rw [List.getD_eq_getElem?_getD, List.getD_eq_getElem?_getD, List.getElem?_take_of_lt h]

theorem WellFormedBinary.isFrame {frame : List Byte} (h : WellFormedBinary frame) :
    IsFrame binaryProtocol.response frame := by
  obtain ⟨h2, hlen⟩ := h
  have hh : binaryProtocol.response.header = 11 := rfl
  refine ⟨by omega, ?_⟩
  change mcResponseTotalLen (frame.take 11) = _
  have hmin : minResponseHeaderSize = 11 := rfl
  rw [mcResponseTotalLen, getD_take _ (by omega), getD_take _ (by omega)]
  simp only
  rw [if_neg (by omega), if_neg (by omega), hlen]

theorem WellFormedAscii.isFrame {frame : List Byte} (h : WellFormedAscii frame) :
    IsFrame asciiProtocol.response frame := by
  obtain ⟨length, hparse, h4, hlen⟩ := h
  have hh : asciiProtocol.response.header = 18 := rfl
  refine ⟨by omega, ?_⟩
  change mcAsciiResponseTotalLen (frame.take 18) = _
  have hrecv : asciiMinRecvHeaderSize = 18 := rfl
  have hmin : asciiMinResponseHeaderSize = 22 := rfl
  rw [mcAsciiResponseTotalLen, getD_take _ (by omega), getD_take _ (by omega),
    getD_take _ (by omega), getD_take _ (by omega), hparse]
  simp only
  rw [if_neg (by omega), if_neg (by omega), hlen, hrecv, Nat.add_comm]

/-- A reader of one response: descriptor, out parameters, events, stream. -/
abbrev Reader := ℤ → Response → ℤ → List Event → List Byte → Received

/-- `n` calls one after the other, each with a zeroed descriptor. -/
def readResponses (read : Reader) (fd : ℤ) : ℕ → List Event → List Byte → List Received
  | 0, _, _ => []
  | n + 1, events, stream =>
    let received := read fd .zero 0 events stream
    received :: readResponses read fd n received.events received.rest

/-- On a connection that stays up the calls return exactly the frames, and each one consumes its
own frame. A call waits only when no event is left, and never where the events hand over at
least as many pieces as there are symbols. -/
def ReadsExactly (read : Reader) (WellFormed : List Byte → Prop) : Prop :=
  ∀ (fd : ℤ) (frames : List (List Byte)) (rest : List Byte) (events : List Event),
    0 < fd → (∀ f ∈ frames, WellFormed f) → Live events →
    ∀ i (hi : i < frames.length), ∃ received,
      (readResponses read fd frames.length events (frames.flatten ++ rest))[i]? = some received ∧
      (received.code = none ∨
        received.code = some .success ∧ received.response = .ofFrame frames[i] ∧
          received.readCount = frames[i].length ∧
          received.rest = (frames.drop (i + 1)).flatten ++ rest) ∧
      (frames.flatten.length ≤ deliveries events → received.code ≠ none)

/-- Once the events are used up, every call waits. -/
theorem readResponses_nil (P : Protocol) {fd : ℤ} (hfd : 0 < fd) (n : ℕ) (stream : List Byte)
    (i : ℕ) (hi : i < n) : ∃ received,
      (readResponses P.readResponse fd n [] stream)[i]? = some received ∧
        received.code = none := by
  induction n generalizing stream i with
  | zero => omega
  | succ n ih =>
    obtain ⟨hcode, hevents⟩ := P.readResponse_nil hfd .zero 0 stream
    cases i with
    | zero => exact ⟨_, rfl, hcode⟩
    | succ i =>
      simp only [readResponses, hevents, List.getElem?_cons_succ]
      exact ih _ i (by omega)

theorem Protocol.readsExactly (P : Protocol) {WellFormed : List Byte → Prop}
    (hw : ∀ f, WellFormed f → IsFrame P.response f) : ReadsExactly P.readResponse WellFormed := by
  intro fd frames rest events hfd hframes hl
  induction frames generalizing events with
  | nil => intro i hi; exact absurd hi (Nat.not_lt_zero i)
  | cons f frames ih =>
    intro i hi
    have hf := hw f (hframes f List.mem_cons_self)
    have hstream : (f :: frames).flatten ++ rest = f ++ (frames.flatten ++ rest) := by
      simp
    obtain ⟨hcode, hlive⟩ :=
      P.readResponse_of_live hfd .zero 0 (frames.flatten ++ rest) hf hl
    rw [hstream]
    simp only [List.length_cons, readResponses]
    rcases hcode with hcode | ⟨hcode, hevents⟩
    · obtain ⟨hres, hcount, hrest⟩ := P.readResponse_success hfd .zero 0 hf hcode
      cases i with
      | zero =>
        refine ⟨_, rfl, .inr ⟨hcode, hres, hcount, by simpa using hrest⟩, fun _ => ?_⟩
        rw [hcode]
        simp
      | succ i =>
        obtain ⟨received, hget, hor, hdel⟩ := ih _
          (fun g hg => hframes g (List.mem_cons_of_mem f hg)) hlive i (by simpa using hi)
        rw [hrest]
        refine ⟨received, hget, hor, fun hd => hdel ?_⟩
        rw [List.flatten_cons, List.length_append] at hd
        have hlive' := P.readResponse_live hfd .zero 0 (frames.flatten ++ rest) hf hl
          (by omega)
        have := hlive'.2.2
        omega
    · have hwait : ¬ (f :: frames).flatten.length ≤ deliveries events := by
        intro hd
        rw [List.flatten_cons, List.length_append] at hd
        have hlive' := P.readResponse_live hfd .zero 0 (frames.flatten ++ rest) hf hl
          (by omega)
        rw [hlive'.1] at hcode
        simp at hcode
      cases i with
      | zero => exact ⟨_, rfl, .inl hcode, fun hd => absurd hd hwait⟩
      | succ i =>
        rw [hevents]
        obtain ⟨received, hget, hnone⟩ := readResponses_nil P hfd frames.length
          (P.readResponse fd .zero 0 events (f ++ (frames.flatten ++ rest))).rest i
          (by simpa using hi)
        exact ⟨received, hget, .inl hnone, fun hd => absurd hd hwait⟩

/-- The end code of a binary response. -/
def binaryEndCode (frame : List Byte) : ℕ := le16 (frame.getD 9 0) (frame.getD 10 0)

/-- The end code of an ASCII response, where its field is a numeral. -/
def asciiEndCode (frame : List Byte) : Option ℕ :=
  mcAsciiParseU16Be (frame.getD 18 0) (frame.getD 19 0) (frame.getD 20 0) (frame.getD 21 0)

/-- The descriptor after a payload was attached; an empty payload leaves it as it is. -/
def attached (old : ByteArrayInfo) (payload : List Byte) : ByteArrayInfo :=
  if payload = [] then old else .ofList payload

theorem getElem?_eq_getD {l : List Byte} {i : ℕ} (h : i < l.length) :
    l[i]? = some (l.getD i 0) := by
  rw [List.getD_eq_getElem?_getD, List.getElem?_eq_getElem h, Option.getD_some]

/-- The length field of a binary response. -/
def binaryLengthField (frame : List Byte) : ℕ := le16 (frame.getD 7 0) (frame.getD 8 0)

/-- The payload length that the binary parsers compute from it, a `uint16_t`. -/
def announced (frame : List Byte) : ℕ := toUShort ((binaryLengthField frame : ℤ) - 2)

/-- What the binary parsers take for a success. -/
def Accepted (frame : List Byte) : Prop :=
  binaryEndCode frame = 0 ∧ announced frame + 11 = frame.length

instance (frame : List Byte) : Decidable (Accepted frame) :=
  inferInstanceAs (Decidable (_ ∧ _))

/-- Both binary parsers on a buffer that has a header: the code and the copy are decided apart. -/
theorem parseResponse_ofList (attach : ℕ → Bool) {frame : List Byte} (h : 11 ≤ frame.length)
    (data : Option ByteArrayInfo) :
    parseResponse attach (.ofList frame) data =
      (if attach (announced frame) ∧ data.isSome then
        (memcpy (frame.drop 11) (announced frame)).map fun content =>
          some ⟨some content, announced frame⟩
      else some data).map fun out => (if Accepted frame then .success else .failed, out) := by
  have hzero : ¬ (ByteArrayInfo.ofList frame).length = 0 := by
    rw [ByteArrayInfo.ofList_length]
    omega
  have hcount : toUShort (((frame.getD 8 0).toNat * 256 + (frame.getD 7 0).toNat : ℤ) - 2) =
      announced frame := by
    rw [announced, binaryLengthField, le16_eq]
    push_cast
    ring_nf
  have hret : (toUShort ((frame.getD 9 0).toNat * 256 + (frame.getD 10 0).toNat) = 0 ∧
      (announced frame : ℤ) = (ByteArrayInfo.ofList frame).length - 11) ↔ Accepted frame := by
    have h9 := (frame.getD 9 0).isLt
    have h10 := (frame.getD 10 0).isLt
    rw [Accepted, binaryEndCode, le16_eq, ByteArrayInfo.ofList_length]
    simp only [toUShort]
    omega
  rw [parseResponse, if_neg hzero, ByteArrayInfo.ofList_data]
  simp only [Option.bind_eq_bind, Option.bind_some,
    getElem?_eq_getD (show 7 < frame.length by omega),
    getElem?_eq_getD (show 8 < frame.length by omega),
    getElem?_eq_getD (show 9 < frame.length by omega),
    getElem?_eq_getD (show 10 < frame.length by omega), hcount, hret]
  split_ifs with hattach hacc hacc
  · cases memcpy (frame.drop 11) (announced frame) <;> rfl
  · cases memcpy (frame.drop 11) (announced frame) <;> rfl
  · rfl
  · rfl

/-- On a well-formed frame the length check always passes. -/
theorem parseResponse_wellFormed (attach : ℕ → Bool) {frame : List Byte}
    (h : WellFormedBinary frame) (data : Option ByteArrayInfo) :
    parseResponse attach (.ofList frame) data =
      some (if binaryEndCode frame = 0 then .success else .failed,
        if attach (frame.length - 11) ∧ data.isSome then some (.ofList (frame.drop 11))
        else data) := by
  obtain ⟨h2, hlen⟩ := h
  have h7 := (frame.getD 7 0).isLt
  have h8 := (frame.getD 8 0).isLt
  have hcount : announced frame = frame.length - 11 := by
    rw [announced, binaryLengthField, hlen, le16_eq]
    simp only [toUShort]
    rw [le16_eq] at h2
    omega
  have hacc : Accepted frame ↔ binaryEndCode frame = 0 :=
    and_iff_left (by rw [hcount]; omega)
  have hdrop : ((frame.length - 11 : ℕ) : ℤ) = (frame.drop 11).length := by
    rw [List.length_drop]
  rw [parseResponse_ofList attach (by omega), hcount, hdrop, memcpy_length]
  simp only [hacc]
  split_ifs <;> rfl

theorem mcParseReadResponse_wellFormed {frame : List Byte} (h : WellFormedBinary frame)
    (data : ByteArrayInfo) :
    mcParseReadResponse (.ofList frame) (some data) =
      some (if binaryEndCode frame = 0 then .success else .failed,
        some (attached data (frame.drop 11))) := by
  have hempty : frame.drop 11 = [] ↔ ¬ (frame.length - 11 > 0) := by
    rw [← List.length_eq_zero_iff, List.length_drop]
    omega
  rw [mcParseReadResponse, parseResponse_wellFormed _ h, attached]
  simp only [decide_eq_true_eq, Option.isSome_some, and_true, hempty]
  split_ifs <;> rfl

/-- What the end code of an ASCII response means. -/
def asciiEndResult : Option ℕ → ErrorCode
  | some 0 => .success
  | some _ => .failed
  | none => .responseHeaderFailed

theorem asciiEndResult_success {end_code : Option ℕ} :
    asciiEndResult end_code = .success ↔ end_code = some 0 := by
  match end_code with
  | none => simp [asciiEndResult]
  | some 0 => simp [asciiEndResult]
  | some (n + 1) => simp [asciiEndResult]

theorem mcAsciiParseResponseEndCode_ofList {frame : List Byte} (h : 22 ≤ frame.length) :
    mcAsciiParseResponseEndCode (.ofList frame) = some (asciiEndResult (asciiEndCode frame)) := by
  have hmin : ¬ (ByteArrayInfo.ofList frame).length < asciiMinResponseHeaderSize := by
    have : asciiMinResponseHeaderSize = 22 := rfl
    rw [ByteArrayInfo.ofList_length]
    omega
  rw [mcAsciiParseResponseEndCode, ByteArrayInfo.ofList_data]
  simp only
  rw [if_neg hmin, getElem?_eq_getD (show 18 < frame.length by omega),
    getElem?_eq_getD (show 19 < frame.length by omega),
    getElem?_eq_getD (show 20 < frame.length by omega),
    getElem?_eq_getD (show 21 < frame.length by omega)]
  simp only [Option.bind_eq_bind, Option.bind_some, asciiEndCode]
  cases mcAsciiParseU16Be (frame.getD 18 0) (frame.getD 19 0) (frame.getD 20 0)
    (frame.getD 21 0) with
  | none => rfl
  | some end_code => cases end_code <;> rfl

/-- An end code other than zero ends the ASCII parser with an error and an empty descriptor. -/
theorem mcAsciiParseReadResponse_error {frame : List Byte} (h : 22 ≤ frame.length)
    (hc : asciiEndCode frame ≠ some 0) (data : ByteArrayInfo) (is_bit : Bool) :
    mcAsciiParseReadResponse (.ofList frame) (some data) is_bit =
      some (asciiEndResult (asciiEndCode frame), some .empty) := by
  have hmin : ¬ (ByteArrayInfo.ofList frame).length < asciiMinResponseHeaderSize := by
    have : asciiMinResponseHeaderSize = 22 := rfl
    rw [ByteArrayInfo.ofList_length]
    omega
  rw [← asciiEndResult_success.ne] at hc
  simp only [mcAsciiParseReadResponse, ByteArrayInfo.ofList_data]
  rw [if_neg hmin, mcAsciiParseResponseEndCode_ofList h]
  simp only [Option.bind_eq_bind, Option.bind_some]
  rw [if_pos hc]
  rfl

theorem memcpy_drop {bytes : List Byte} {n : ℕ} (h : n ≤ bytes.length) :
    memcpy (bytes.drop n) (bytes.length - n : ℤ) = some (bytes.drop n) := by
  have hcopy := memcpy_length (bytes.drop n)
  rwa [List.length_drop, Nat.cast_sub h] at hcopy

/-- Up to the payload the ASCII parser does not depend on the mode. -/
theorem mcAsciiParseReadResponse_accepted {frame : List Byte} (h : 22 ≤ frame.length)
    (hc : asciiEndCode frame = some 0) (data : ByteArrayInfo) (is_bit : Bool) :
    mcAsciiParseReadResponse (.ofList frame) (some data) is_bit =
      if frame.drop 22 = [] then some (.success, some .empty)
      else if is_bit then
        some (.success, some (.ofList ((frame.drop 22).map fun c =>
          if c = chr '1' then 0x01 else 0x00)))
      else some (match asciiData (frame.drop 22) with
        | none => (.responseHeaderFailed, some .empty)
        | some bytes => (.success, some (.ofList bytes))) := by
  have hmin : asciiMinResponseHeaderSize = 22 := rfl
  have hlen : (frame.drop 22).length = frame.length - 22 := List.length_drop
  have hret := mcAsciiParseResponseEndCode_ofList h
  rw [hc] at hret
  have hcopy := memcpy_drop h
  have hempty : frame.drop 22 = [] ↔ (frame.length : ℤ) - (22 : ℕ) ≤ 0 := by
    rw [← List.length_eq_zero_iff]
    omega
  simp only [mcAsciiParseReadResponse, ByteArrayInfo.ofList_data, ByteArrayInfo.ofList_length,
    hret, hmin]
  rw [if_neg (by omega)]
  simp only [Option.bind_eq_bind, Option.bind_some]
  rw [if_neg (by simp [asciiEndResult])]
  simp only [hempty]
  by_cases h0 : (frame.length : ℤ) - (22 : ℕ) ≤ 0
  · rw [if_pos h0, if_pos h0]
    rfl
  have hcount : (frame.length : ℤ) - (22 : ℕ) = (frame.drop 22).length := by omega
  rw [if_neg h0, if_neg h0, hcopy, hcount]
  cases is_bit with
  | true => simp [ByteArrayInfo.ofList]
  | false =>
    rw [Int.tmod_eq_emod_of_nonneg (by omega), Int.tdiv_eq_ediv_of_nonneg (by omega), asciiData]
    by_cases heven : (frame.drop 22).length % 2 = 0
    · simp only [Bool.false_eq_true, if_false, Option.bind_some]
      rw [if_neg (by omega), if_pos heven]
      cases hpairs : hexPairsToBytes (frame.drop 22) with
      | none => rfl
      | some bytes =>
        have hbytes := hexPairsToBytes_length hpairs
        have hhalf : ((frame.drop 22).length : ℤ) / 2 = bytes.length := by omega
        rw [hhalf, Int.tmod_eq_emod_of_nonneg (by omega)]
        by_cases hwords : bytes.length % 2 = 0
        · simp [hwords, ByteArrayInfo.ofList, show (bytes.length : ℤ) % 2 = 0 by omega]
        · simp [hwords, ByteArrayInfo.ofList, show ¬ (bytes.length : ℤ) % 2 = 0 by omega]
    · simp only [Bool.false_eq_true, if_false]
      rw [if_pos (by omega), if_neg heven]
      rfl

/-- The ASCII parser in word mode behind a zero end code. -/
theorem mcAsciiParseReadResponse_text {frame : List Byte} (h : 22 ≤ frame.length)
    (hc : asciiEndCode frame = some 0) (data : ByteArrayInfo) :
    mcAsciiParseReadResponse (.ofList frame) (some data) false =
      some (match asciiData (frame.drop 22) with
        | none => (.responseHeaderFailed, some .empty)
        | some bytes => (.success, some (attached .empty bytes))) := by
  rw [mcAsciiParseReadResponse_accepted h hc]
  by_cases h0 : frame.drop 22 = []
  · rw [if_pos h0, h0]
    rfl
  · rw [if_neg h0, if_neg (by simp)]
    cases hdata : asciiData (frame.drop 22) with
    | none => rfl
    | some bytes =>
      have hlen := asciiData_length hdata
      have heven : (frame.drop 22).length % 2 = 0 := by
        by_contra hodd
        rw [asciiData, if_neg hodd] at hdata
        simp at hdata
      have hpos := List.length_pos_iff.mpr h0
      have hne : bytes ≠ [] := List.ne_nil_of_length_pos (by omega)
      simp only [attached, if_neg hne]

theorem mcAsciiParseReadResponse_words {frame : List Byte} (h : 22 ≤ frame.length)
    (hc : asciiEndCode frame = some 0) {ws : List ℕ} (hw : hexWords (frame.drop 22) = some ws)
    (data : ByteArrayInfo) :
    mcAsciiParseReadResponse (.ofList frame) (some data) false =
      some (.success, some (attached .empty (ws.flatMap wordBytes))) := by
  rw [mcAsciiParseReadResponse_text h hc, asciiData_hexWords hw]

/-- The ASCII parser in bit mode behind a zero end code. -/
theorem mcAsciiParseReadResponse_points {frame : List Byte} (h : 22 ≤ frame.length)
    (hc : asciiEndCode frame = some 0) (data : ByteArrayInfo) :
    mcAsciiParseReadResponse (.ofList frame) (some data) true =
      some (.success, some (attached .empty ((frame.drop 22).map fun c =>
        if c = chr '1' then 0x01 else 0x00))) := by
  rw [mcAsciiParseReadResponse_accepted h hc]
  by_cases h0 : frame.drop 22 = []
  · rw [if_pos h0, h0]
    rfl
  · rw [if_neg h0, if_pos rfl, attached, if_neg (by simpa using h0)]

/-- A binary response with the word 0x1234. -/
def wordResponse : List Byte := [0xD0, 0, 0, 0xFF, 0xFF, 3, 0, 4, 0, 0, 0, 0x34, 0x12]

/-- An ASCII response with the word 0x1234. -/
def asciiWordResponse : List Byte :=
  text ['D', '0', '0', '0', '0', '0', 'F', 'F', '0', '3', 'F', 'F', '0', '0', '0', '0', '0', '8',
    '0', '0', '0', '0', '1', '2', '3', '4']

/-- Both readers return the frames of a stream one by one, and both parsers tell a response
from an error and hand over its whole payload. -/
theorem response_framing_exact :
    ReadsExactly mcReadResponse WellFormedBinary ∧
      ReadsExactly mcAsciiReadResponse WellFormedAscii ∧
      (∀ (frame : List Byte) (data : ByteArrayInfo), WellFormedBinary frame →
        ∃ ret out, mcParseReadResponse (.ofList frame) (some data) = some (ret, some out) ∧
          (ret = .success ↔ binaryEndCode frame = 0) ∧
          (ret = .success → out = attached data (frame.drop 11))) ∧
      ∀ (frame : List Byte) (data : ByteArrayInfo) (ws : List ℕ), WellFormedAscii frame →
        hexWords (frame.drop 22) = some ws →
        ∃ ret out, mcAsciiParseReadResponse (.ofList frame) (some data) false =
            some (ret, some out) ∧
          (ret = .success ↔ asciiEndCode frame = some 0) ∧
          (ret = .success → out = attached .empty (ws.flatMap wordBytes)) := by
  refine ⟨binaryProtocol.readsExactly fun f => WellFormedBinary.isFrame,
    asciiProtocol.readsExactly fun f => WellFormedAscii.isFrame, ?_, ?_⟩
  · intro frame data h
    refine ⟨_, _, mcParseReadResponse_wellFormed h data, ?_, fun _ => rfl⟩
    by_cases hc : binaryEndCode frame = 0
    · simp [hc]
    · simp [hc]
  · intro frame data ws ⟨length, _, h4, hlen⟩ hw
    have h22 : 22 ≤ frame.length := by omega
    by_cases hc : asciiEndCode frame = some 0
    · exact ⟨_, _, mcAsciiParseReadResponse_words h22 hc hw data, by simp [hc], fun _ => rfl⟩
    · have hne := asciiEndResult_success.not.mpr hc
      exact ⟨_, _, mcAsciiParseReadResponse_error h22 hc data false, by simp [hc, hne],
        fun h => absurd h hne⟩

/-- Two binary frames, the first without a payload, and one ASCII frame, in pieces of at most three
bytes with an interruption. -/
theorem response_framing_exact_pieces :
    (∃ received, (readResponses mcReadResponse 5 2 (.interrupted :: List.replicate 24 (.deliver 2))
        ([0xD0, 0, 0, 0xFF, 0xFF, 3, 0, 2, 0, 0, 0] ++ wordResponse))[1]? = some received ∧
      received.response = .ofFrame wordResponse) ∧
    (∃ received, (readResponses mcAsciiReadResponse 5 1
        (.interrupted :: List.replicate 26 (.deliver 2)) asciiWordResponse)[0]? = some received ∧
      received.response = .ofFrame asciiWordResponse) ∧
    (∃ ret out, mcParseReadResponse (.ofList wordResponse) (some .empty) = some (ret, some out) ∧
      ret = .success ∧ out = .ofList [0x34, 0x12]) ∧
    ∃ ret out, mcAsciiParseReadResponse (.ofList asciiWordResponse) (some .empty) false =
        some (ret, some out) ∧ ret = .success ∧ out = .ofList [0x34, 0x12] := by
  obtain ⟨hread, hascii, hparse, hasciiParse⟩ := response_framing_exact
  have hword : WellFormedBinary wordResponse := by
    unfold WellFormedBinary
    decide
  have hasciiWord : WellFormedAscii asciiWordResponse := ⟨8, by decide⟩
  refine ⟨?_, ?_, ?_, ?_⟩
  · obtain ⟨received, hget, hor, hdelivered⟩ := hread 5
      [[0xD0, 0, 0, 0xFF, 0xFF, 3, 0, 2, 0, 0, 0], wordResponse] []
      (.interrupted :: List.replicate 24 (.deliver 2)) (by decide)
      (by unfold WellFormedBinary; decide) (by unfold Live; decide) 1 (by decide)
    exact ⟨received, hget, (hor.resolve_left (hdelivered (by decide))).2.1⟩
  · obtain ⟨received, hget, hor, hdelivered⟩ := hascii 5 [asciiWordResponse] []
      (.interrupted :: List.replicate 26 (.deliver 2)) (by decide)
      (List.forall_mem_singleton.mpr hasciiWord) (by unfold Live; decide) 0 (by decide)
    exact ⟨received, hget, (hor.resolve_left (hdelivered (by decide))).2.1⟩
  · obtain ⟨ret, out, hret, hcode, hout⟩ := hparse wordResponse .empty hword
    have hsuccess := hcode.mpr (by decide)
    exact ⟨ret, out, hret, hsuccess, hout hsuccess⟩
  · obtain ⟨ret, out, hret, hcode, hout⟩ :=
      hasciiParse asciiWordResponse .empty [0x1234] hasciiWord (by decide)
    have hsuccess := hcode.mpr (by decide)
    exact ⟨ret, out, hret, hsuccess, hout hsuccess⟩

end MelsecMc
