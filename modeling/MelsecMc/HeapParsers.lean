import MelsecMc.HeapBuilders

/-!
# What the parsers leave on the heap

A parser looks at the response and takes at most one block, the copy of the
payload that it attaches to the caller's descriptor. The response itself stays with
the caller. Only the conversion of points frees the block that it replaces.
-/
namespace MelsecMc.OnHeap

open HeapBlocks HeapProgram

variable {g : Allocator} {L M N : Finset Block}

/-- The block of a descriptor that the caller passed, if it passed one. -/
def attachedBlock (data : Option HeapBytes) : Pointer := data.bind (·.block)

/-- A parser takes the block that it attaches to the caller's descriptor, if there is one. -/
def Parses (g : Allocator) (L : Finset Block) (data : Option HeapBytes)
    (p : HeapProgram (ErrorCode × Option HeapBytes))
    (model : Option (ErrorCode × Option ByteArrayInfo)) : Prop :=
  Holds g L p (Faults g model) fun a M => Takes L (attachedBlock a.2) M ∧
    (a.2.isSome → data.isSome) ∧ (Granted g → model = some (a.1, a.2.map HeapArray.bytes))

theorem parseResponse_eq (attach : ℕ → Bool) (response : ByteArrayInfo)
    (data : Option ByteArrayInfo) : MelsecMc.parseResponse attach response data =
      if response.length = 0 then some (.invalidParameter, data)
      else do
        let (ret, rsCount) ← responseHead response
        if attach rsCount ∧ data.isSome then
          let content ← memcpy ((response.data.getD []).drop 11) rsCount
          return (ret, some ⟨some content, rsCount⟩)
        else return (ret, data) := by
  obtain ⟨_ | bytes, length⟩ := response
  · rfl
  simp only [MelsecMc.parseResponse, responseHead, Option.bind_eq_bind, Option.bind_some]
  cases bytes[7]? <;> cases bytes[8]? <;> cases bytes[9]? <;> cases bytes[10]? <;> rfl

theorem parseResponse_parses (attach : ℕ → Bool) {response : HeapBytes} (data : Option HeapBytes)
    (h : Live L response.block) (hd : attachedBlock data = none) :
    Parses g L data (parseResponse attach response data)
      (MelsecMc.parseResponse attach response.bytes (data.map HeapArray.bytes)) := by
  rw [parseResponse_eq]
  obtain ⟨block, content, length⟩ := response
  unfold parseResponse
  by_cases hlen : length = 0
  · simp only [HeapArray.bytes, hlen, if_true]
    exact .pure ⟨by rw [hd]; rfl, id, fun _ => rfl⟩
  simp only [HeapArray.bytes, hlen, if_false]
  cases block with
  | none => exact .bind (.use_null ⟨rfl, fun _ => rfl⟩)
  | some b =>
    refine .bind (.use h (.bind (.ofOption (fun hnone => ⟨rfl, fun _ => ?_⟩) ?_)))
    · simp only [Option.map_some] at hnone ⊢
      rw [hnone]
      rfl
    rintro ⟨ret, rsCount⟩ hhead
    simp only [Option.map_some] at hhead ⊢
    rw [hhead]
    simp only [Option.bind_eq_bind, Option.bind_some]
    cases data with
    | none => exact .pure ⟨rfl, id, fun _ => if_neg (by simp)⟩
    | some out =>
      simp only [Option.map_some, Option.isSome_some, and_true]
      by_cases hattach : attach rsCount
      · rw [if_pos hattach, if_pos hattach]
        refine .bind (holds_mallocInt fun o M ht hg => ?_)
        cases o with
        | none =>
          refine .pure ⟨ht, fun _ => trivial, fun hall => absurd ?_ (hg.of_none hall)⟩
          exact decide_eq_true (Int.natCast_nonneg rsCount)
        | some b' =>
          refine .bind (.ofOption (fun hnone => ⟨rfl, fun _ => ?_⟩) fun copied hcopied => ?_)
          · simp only [Option.getD_some, hnone]
            rfl
          · refine .pure ⟨ht, fun _ => trivial, fun _ => ?_⟩
            simp only [Option.getD_some, hcopied]
            rfl
      · rw [if_neg hattach, if_neg hattach]
        exact .pure ⟨by rw [hd]; rfl, fun _ => trivial, fun _ => rfl⟩

/-- The end code of a response with a buffer. -/
theorem holds_endCode {response : HeapBytes} (h : Live L response.block)
    {Q : ErrorCode → Finset Block → Prop} {E : Halt → Prop}
    (hE : MelsecMc.mcAsciiParseResponseEndCode response.bytes = none → E .outside)
    (hQ : ∀ ret, MelsecMc.mcAsciiParseResponseEndCode response.bytes = some ret → Q ret L) :
    Holds g L (mcAsciiParseResponseEndCode response) E Q := by
  obtain ⟨_ | b, content, length⟩ := response
  · exact .pure (hQ _ rfl)
  unfold mcAsciiParseResponseEndCode
  simp only [Option.isNone_some, Bool.false_eq_true, false_or]
  by_cases hlen : length < asciiMinResponseHeaderSize
  · rw [if_pos hlen]
    exact .pure (hQ _ (if_pos hlen))
  · rw [if_neg hlen]
    exact .bind (.use h (.ofOption hE hQ))

/-- The payload of a response as bytes, without the heap. -/
def hexPayloadModel (bytes : List Byte) (payload_ascii_len : ℤ) (order : List Byte → List Byte) :
    Option (ErrorCode × ByteArrayInfo) :=
  (memcpy (bytes.drop asciiMinResponseHeaderSize) payload_ascii_len).map fun payload =>
    match hexPairsToBytes payload with
    | none => (.responseHeaderFailed, .empty)
    | some data => (.success, ⟨some (order data), payload_ascii_len.tdiv 2⟩)

/-- The end of both parsers of the module. -/
theorem hexPayloadModel_attached (bytes : List Byte) (payload_ascii_len : ℤ)
    (order : List Byte → List Byte) :
    (hexPayloadModel bytes payload_ascii_len order).map (fun x => (x.1, some x.2)) = do
      let payload ← memcpy (bytes.drop asciiMinResponseHeaderSize) payload_ascii_len
      match hexPairsToBytes payload with
      | none => return (.responseHeaderFailed, some .empty)
      | some data => return (.success, some ⟨some (order data), payload_ascii_len.tdiv 2⟩) := by
  unfold hexPayloadModel
  cases memcpy (bytes.drop asciiMinResponseHeaderSize) payload_ascii_len with
  | none => rfl
  | some payload =>
    simp only [Option.map_some, Option.bind_eq_bind, Option.bind_some]
    cases hexPairsToBytes payload <;> rfl

theorem hexPayload_holds {b : Block} {content : List Byte} {length payload_ascii_len : ℤ}
    {order : List Byte → List Byte} (h : Live L (some b)) (hpos : 0 < payload_ascii_len) :
    Holds g L (hexPayload ⟨some b, content, length⟩ payload_ascii_len order)
      (Faults g (hexPayloadModel content payload_ascii_len order)) fun a M =>
        Takes L a.2.block M ∧
        (Granted g → hexPayloadModel content payload_ascii_len order =
          some (a.1, a.2.bytes)) := by
  refine .bind (holds_mallocInt fun o M ht hg => ?_)
  cases o with
  | none =>
    refine .pure ⟨ht, fun hall => absurd ?_ (hg.of_none hall)⟩
    exact decide_eq_true (Int.tdiv_nonneg hpos.le (by omega))
  | some data =>
    refine .bind (.use (h.mono ht.subset) (.bind (.ofOption
      (fun hnone => ⟨rfl, fun _ => by rw [hexPayloadModel, hnone]; rfl⟩)
      fun payload hpayload => ?_)))
    rw [hexPayloadModel, hpayload, Option.map_some]
    cases hexPairsToBytes payload with
    | none => exact .bind (.free ht (.pure ⟨rfl, fun _ => rfl⟩))
    | some bytes => exact .pure ⟨ht, fun _ => rfl⟩

theorem mcAsciiParseReadResponse_holds {response : HeapBytes} (is_bit : Bool)
    (h : Live L response.block) :
    Holds g L (mcAsciiParseReadResponse response is_bit)
      (Faults g (MelsecMc.mcAsciiParseReadResponse response.bytes (some .empty) is_bit)) fun a M =>
        Takes L a.2.block M ∧
        (Granted g → MelsecMc.mcAsciiParseReadResponse response.bytes (some .empty) is_bit =
          some (a.1, some a.2.bytes)) := by
  obtain ⟨_ | b, content, length⟩ := response
  · exact .pure ⟨rfl, fun _ => rfl⟩
  unfold mcAsciiParseReadResponse
  simp only [Option.isNone_some, Bool.false_eq_true, false_or]
  by_cases hlen : length < asciiMinResponseHeaderSize
  · rw [if_pos hlen]
    exact .pure ⟨rfl, fun _ => if_pos hlen⟩
  rw [if_neg hlen]
  -- past the check of the length, the model is this
  have hmodel : MelsecMc.mcAsciiParseReadResponse (HeapArray.bytes ⟨some b, content, length⟩)
      (some .empty) is_bit =
    (MelsecMc.mcAsciiParseResponseEndCode (HeapArray.bytes ⟨some b, content, length⟩)).bind
      fun ret =>
        if ret ≠ .success then some (ret, some .empty)
        else if length - asciiMinResponseHeaderSize ≤ 0 then some (.success, some .empty)
        else if is_bit then
          (memcpy (content.drop asciiMinResponseHeaderSize)
            (length - asciiMinResponseHeaderSize)).map fun payload =>
              (.success, some ⟨some (payload.map fun c => if c = chr '1' then 0x01 else 0x00),
                length - asciiMinResponseHeaderSize⟩)
        else if (length - asciiMinResponseHeaderSize).tmod 2 ≠ 0 then
          some (.responseHeaderFailed, some .empty)
        else (hexPayloadModel content (length - asciiMinResponseHeaderSize) fun bytes =>
          if ((length - asciiMinResponseHeaderSize).tdiv 2).tmod 2 = 0 then swapWords bytes
          else bytes).map fun x => (x.1, some x.2) := by
    refine (if_neg hlen).trans (congrArg _ (funext fun ret => ?_))
    by_cases hok : ret ≠ .success
    · rw [if_pos hok, if_pos hok]
      rfl
    rw [if_neg hok, if_neg hok]
    by_cases hpos : length - asciiMinResponseHeaderSize ≤ 0
    · rw [if_pos hpos]
      exact if_pos hpos
    rw [if_neg hpos]
    refine (if_neg hpos).trans ?_
    cases is_bit with
    | true =>
      simp only [if_true, Option.bind_eq_bind]
      exact (Option.map_eq_bind ..).symm
    | false =>
      simp only [Bool.false_eq_true, if_false]
      by_cases hodd : (length - asciiMinResponseHeaderSize).tmod 2 ≠ 0
      · rw [if_pos hodd]
        exact if_pos hodd
      rw [if_neg hodd]
      refine (if_neg hodd).trans ?_
      exact (hexPayloadModel_attached ..).symm
  rw [hmodel]
  refine .bind (holds_endCode h (fun hnone => ⟨rfl, fun _ => by rw [hnone]; rfl⟩)
    fun ret hret => ?_)
  rw [hret, Option.bind_some]
  by_cases hok : ret ≠ .success
  · rw [if_pos hok, if_pos hok]
    exact .pure ⟨rfl, fun _ => rfl⟩
  rw [if_neg hok, if_neg hok]
  by_cases hpos : length - asciiMinResponseHeaderSize ≤ 0
  · rw [if_pos hpos, if_pos hpos]
    exact .pure ⟨rfl, fun _ => rfl⟩
  rw [if_neg hpos, if_neg hpos]
  cases is_bit with
  | true =>
    simp only [if_true]
    refine .bind (holds_mallocInt fun o M ht hg => ?_)
    cases o with
    | none =>
      exact .pure ⟨ht, fun hall => absurd (decide_eq_true (not_le.mp hpos).le) (hg.of_none hall)⟩
    | some bits =>
      refine .bind (.use (h.mono ht.subset) (.bind (.ofOption
        (fun hnone => ⟨rfl, fun _ => by rw [hnone]; rfl⟩) fun payload hpayload => ?_)))
      exact .pure ⟨ht, fun _ => by rw [hpayload]; rfl⟩
  | false =>
    simp only [Bool.false_eq_true, if_false]
    by_cases hodd : (length - asciiMinResponseHeaderSize).tmod 2 ≠ 0
    · rw [if_pos hodd, if_pos hodd]
      exact .pure ⟨rfl, fun _ => rfl⟩
    rw [if_neg hodd, if_neg hodd]
    refine (hexPayload_holds h (not_le.mp hpos)).mono
      (fun e he => he.congr fun _ hnone => by rw [hnone]; rfl) ?_
    rintro ⟨ret, data⟩ M ⟨ht, hdata⟩
    exact ⟨ht, fun hall => by rw [hdata hall]; rfl⟩

/-- The parser by the end code. A success comes with a buffer. -/
theorem mcAsciiParseWriteResponse_eq (response : ByteArrayInfo) (data : Option ByteArrayInfo) :
    MelsecMc.mcAsciiParseWriteResponse response data =
      (MelsecMc.mcAsciiParseResponseEndCode response).bind fun ret =>
        if ret ≠ .success then some (ret, data)
        else if data.isNone then some (.success, none)
        else if response.length - asciiMinResponseHeaderSize ≤ 0 then some (.success, some .empty)
        else if (response.length - asciiMinResponseHeaderSize).tmod 2 ≠ 0 then
          some (.responseHeaderFailed, some .empty)
        else (hexPayloadModel (response.data.getD []) (response.length - asciiMinResponseHeaderSize)
          id).map fun x => (x.1, some x.2) := by
  obtain ⟨_ | bytes, length⟩ := response
  · rfl
  refine congrArg _ (funext fun ret => ?_)
  by_cases hok : ret ≠ .success
  · rw [if_pos hok, if_pos hok]
    rfl
  rw [if_neg hok, if_neg hok]
  cases data with
  | none => rfl
  | some out =>
    simp only [Option.isNone_some, Bool.false_eq_true, if_false]
    by_cases hpos : length - asciiMinResponseHeaderSize ≤ 0
    · rw [if_pos hpos, if_pos hpos]
      rfl
    by_cases hodd : (length - asciiMinResponseHeaderSize).tmod 2 ≠ 0
    · rw [if_neg hpos, if_pos hodd, if_neg hpos, if_pos hodd]
      rfl
    rw [if_neg hpos, if_neg hodd, if_neg hpos, if_neg hodd, hexPayloadModel_attached]
    rfl

/-- A payload in hexadecimal digits has no negative length. -/
theorem mcAsciiParseWriteResponse_length {response out : ByteArrayInfo} {ret : ErrorCode}
    (h : MelsecMc.mcAsciiParseWriteResponse response (some .empty) = some (ret, some out)) :
    0 ≤ out.length := by
  have hempty : ∀ {code : ErrorCode}, some (code, some ByteArrayInfo.empty) = some (ret, some out) →
      0 ≤ out.length := by
    intro code heq
    obtain rfl := Option.some.inj (Prod.mk.inj (Option.some.inj heq)).2
    exact le_rfl
  rw [mcAsciiParseWriteResponse_eq] at h
  obtain ⟨code, -, h⟩ := Option.bind_eq_some_iff.mp h
  split at h
  · exact hempty h
  rw [if_neg (by simp)] at h
  split at h
  · exact hempty h
  split at h
  · exact hempty h
  rename_i hpos _
  obtain ⟨⟨code', data⟩, hdata, h⟩ := Option.map_eq_some_iff.mp h
  obtain rfl := Option.some.inj (Prod.mk.inj h).2
  obtain ⟨payload, -, hpayload⟩ := Option.map_eq_some_iff.mp hdata
  split at hpayload
  · obtain rfl := (Prod.mk.inj hpayload).2
    exact le_rfl
  · obtain rfl := (Prod.mk.inj hpayload).2
    exact Int.tdiv_nonneg (not_le.mp hpos).le (by omega)

theorem mcAsciiParseWriteResponse_parses {response : HeapBytes} {data : Option HeapBytes}
    (h : Live L response.block) (hd : attachedBlock data = none) :
    Parses g L data (mcAsciiParseWriteResponse response data)
      (MelsecMc.mcAsciiParseWriteResponse response.bytes (data.map HeapArray.bytes)) := by
  obtain ⟨block, content, length⟩ := response
  rw [mcAsciiParseWriteResponse_eq]
  refine .bind (holds_endCode h (fun hnone => ⟨rfl, fun _ => by rw [hnone]; rfl⟩)
    fun ret hret => ?_)
  rw [hret, Option.bind_some]
  by_cases hok : ret ≠ .success
  · rw [if_pos hok, if_pos hok]
    exact .pure ⟨by rw [hd]; rfl, id, fun _ => rfl⟩
  rw [if_neg hok, if_neg hok]
  have hnull : block ≠ none := by
    rintro rfl
    obtain rfl := not_not.mp hok
    cases hret
  obtain ⟨b, rfl⟩ := Option.ne_none_iff_exists'.mp hnull
  cases data with
  | none => exact .pure ⟨rfl, id, fun _ => rfl⟩
  | some out =>
    simp only [HeapArray.bytes, Option.map_some, Option.isNone_some, Bool.false_eq_true, if_false,
      Option.getD_some]
    by_cases hpos : length - asciiMinResponseHeaderSize ≤ 0
    · simp only [hpos, if_true]
      exact .pure ⟨rfl, fun _ => rfl, fun _ => rfl⟩
    by_cases hodd : (length - asciiMinResponseHeaderSize).tmod 2 ≠ 0
    · simp only [hpos, ne_eq, hodd, not_false_eq_true, if_false, if_true]
      exact .pure ⟨rfl, fun _ => rfl, fun _ => rfl⟩
    simp only [hpos, hodd, if_false]
    refine .bind ((hexPayload_holds h (not_le.mp hpos)).mono
      (fun e he => he.congr fun _ hnone => by rw [hnone]; rfl) ?_)
    rintro ⟨ret, data⟩ M ⟨ht, hdata⟩
    exact .pure ⟨ht, fun _ => rfl, fun hall => by rw [hdata hall]; rfl⟩

/-- The points take the place of the bytes, unless there is no room for them. -/
theorem extractActualBoolData_builds {response : HeapBytes} (h : Takes L response.block N) :
    Builds g N L (extractActualBoolData response)
      (MelsecMc.extractActualBoolData response.bytes) := by
  obtain ⟨_ | b, content, length⟩ := response
  · exact .pure ⟨h, fun _ => rfl⟩
  unfold extractActualBoolData
  simp only [Option.isNone_some, Bool.false_eq_true, false_or]
  by_cases hpos : length ≤ 0
  · rw [if_pos hpos]
    exact .pure ⟨h, fun _ => if_pos hpos⟩
  rw [if_neg hpos]
  have hmodel : MelsecMc.extractActualBoolData (HeapArray.bytes ⟨some b, content, length⟩) =
      if MelsecMc.malloc (toInt32 (length * 2)) then
        (memcpy content length).map fun data =>
          ⟨some (data.flatMap actualBools), toInt32 (length * 2)⟩
      else some (HeapArray.bytes ⟨some b, content, length⟩) := if_neg hpos
  rw [hmodel]
  refine .bind (holds_mallocInt fun o M ht hg => ?_)
  cases o with
  | none =>
    obtain rfl := ht
    exact .pure ⟨h, fun hall => if_neg (hg.of_none hall)⟩
  | some points =>
    rw [if_pos hg.of_some]
    obtain ⟨M', ht', hM'⟩ := h.swap ht
    refine .bind (holds_copy hM'.live (fun hnone => ⟨rfl, fun _ => by rw [hnone]; rfl⟩)
      fun data hdata => ?_)
    exact .bind (.free hM' (.pure ⟨ht', fun _ => by rw [hdata]; rfl⟩))

end MelsecMc.OnHeap
