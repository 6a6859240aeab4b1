import MelsecMc.HeapExchange

/-!
# What the evaluation of a response leaves on the heap

Every request ends in one of a few ways: parse the response, free it, and keep the
payload, or hand over a text made of it, or nothing. A response that was released
before reaches neither end without being used or freed once more.
-/
namespace MelsecMc.OnHeap

open HeapBlocks HeapProgram

variable {g : Allocator} {r : Transacted} {L M N : Finset Block}

section Dead

variable {b : Block} {content : List Byte} {length : ℤ} {E : Halt → Prop}

/-- A parser that does not look at the response leaves the descriptor of the caller alone. -/
theorem parseResponse_dead (attach : ℕ → Bool) {data : Option HeapBytes}
    {Q : ErrorCode × Option HeapBytes → Finset Block → Prop} (h : b ∉ L) (hE : E .misuse)
    (hQ : Q (.invalidParameter, data) L) :
    Holds g L (parseResponse attach ⟨some b, content, length⟩ data) E Q := by
  unfold parseResponse
  split
  · exact .pure hQ
  · exact .bind (.use_dead h hE)

theorem mcAsciiParseResponseEndCode_dead {Q : ErrorCode → Finset Block → Prop} (h : b ∉ L)
    (hE : E .misuse) (hQ : Q .responseHeaderFailed L) :
    Holds g L (mcAsciiParseResponseEndCode ⟨some b, content, length⟩) E Q := by
  unfold mcAsciiParseResponseEndCode
  split
  · exact .pure hQ
  · exact .bind (.use_dead h hE)

theorem mcParseWriteResponse_dead {data : Option HeapBytes} (h : b ∉ L) :
    Holds g L (mcParseWriteResponse ⟨some b, content, length⟩ data) (· = .misuse) fun a M =>
      M = L ∧ a.1 ≠ .success ∧ a.2 = data :=
  parseResponse_dead _ h rfl ⟨rfl, by simp, rfl⟩

theorem mcAsciiParseWriteResponse_dead {data : Option HeapBytes} (h : b ∉ L) :
    Holds g L (mcAsciiParseWriteResponse ⟨some b, content, length⟩ data) (· = .misuse) fun a M =>
      M = L ∧ a.1 ≠ .success ∧ a.2 = data := by
  refine .bind (mcAsciiParseResponseEndCode_dead h rfl ?_)
  rw [if_pos (by simp)]
  exact .pure ⟨rfl, by simp, rfl⟩

end Dead

/-- The descriptor of the caller, zeroed where none was passed. -/
theorem attachedBlock_eq (data : Option HeapBytes) :
    attachedBlock data = (data.getD (.null 0)).block := by
  cases data <;> rfl

theorem getD_bytes (data : Option HeapBytes) :
    (data.map HeapArray.bytes).getD .empty = (data.getD (.null 0)).bytes := by
  cases data <;> rfl

/-- The end of `read_bool_value` without the heap. -/
def boolReadModel (response : ByteArrayInfo) : Option (ErrorCode × ByteArrayInfo) := do
  let (ret, data) ← MelsecMc.mcParseReadResponse response (some .empty)
  let out_bytes := data.getD .empty
  if ret = .success then return (ret, ← MelsecMc.extractActualBoolData out_bytes)
  else return (ret, out_bytes)

/-- The end of `read_address_data` without the heap. -/
def wordReadModel (response : ByteArrayInfo) : Option (ErrorCode × ByteArrayInfo) := do
  let (ret, data) ← MelsecMc.mcParseReadResponse response (some .empty)
  return (ret, data.getD .empty)

/-- The end of a function that takes nothing from the response, without the heap. -/
def writeModel (parse : ByteArrayInfo → Option ByteArrayInfo →
    Option (ErrorCode × Option ByteArrayInfo)) (response : ByteArrayInfo) :
    Option (ErrorCode × Unit) := do
  let (ret, _) ← parse response none
  return (ret, ())

/-- The end of `mc_read_plc_type` without the heap. -/
def plcTypeModel (response : ByteArrayInfo) : Option (ErrorCode × Option (List Byte)) := do
  let (ret, plc_type_data) ← MelsecMc.mcParseWriteResponse response (some .empty)
  if ret ≠ .success then return (ret, none)
  else
    let out ← terminatedCopy (plc_type_data.getD .empty)
    return (.success, some out)

/-- The end of the read functions of the ASCII module without the heap. -/
def deviceReadModel (is_bit : Bool) (response : ByteArrayInfo) :
    Option (ErrorCode × ByteArrayInfo) := do
  let (ret, data) ← MelsecMc.mcAsciiParseReadResponse response (some .empty) is_bit
  return (ret, data.getD .empty)

theorem boolRead_finishes :
    Finishes g finishBoolRead boolReadModel HeapArray.block HeapArray.bytes := by
  constructor
  · intro L M response ht
    refine .bind ((parseResponse_parses _ (some (.null 0)) ht.live rfl).mono
      (fun e he => he.congr fun _ hnone => ?_) ?_)
    · exact congrArg (Option.bind · _) hnone
    rintro ⟨ret, data⟩ M' ⟨htd, -, hdata⟩
    rw [attachedBlock_eq] at htd
    -- the model of what follows the parser
    have hmodel : ∀ {result}, (if ret = .success then
          (MelsecMc.extractActualBoolData (data.getD (.null 0)).bytes).map fun out => (ret, out)
        else some (ret, (data.getD (.null 0)).bytes)) = result →
        Granted g → boolReadModel response.bytes = result := by
      rintro _ rfl hall
      have hparsed : MelsecMc.mcParseReadResponse response.bytes (some .empty) = _ := hdata hall
      rw [boolReadModel, hparsed]
      simp only [Option.bind_eq_bind, Option.bind_some, getD_bytes]
      split
      · rw [Option.map_eq_bind]
        rfl
      · rfl
    by_cases hret : ret = .success
    · simp only [hret, if_true] at hmodel ⊢
      refine .bind ((extractActualBoolData_builds htd).mono
        (fun e he => he.congr fun hall hnone => hmodel (by rw [hnone]; rfl) hall) ?_)
      rintro out M₁ ⟨hto, hout⟩
      obtain ⟨M₂, hM₂, hresponse⟩ := ht.swap hto
      exact .bind (.free hresponse (.pure ⟨hM₂, fun hall => hmodel (by rw [hout hall]; rfl) hall⟩))
    · simp only [hret, if_false] at hmodel ⊢
      obtain ⟨M₂, hM₂, hresponse⟩ := ht.swap htd
      exact .bind (.pure (.bind (.free hresponse (.pure ⟨hM₂, hmodel rfl⟩))))
  · intro L b content length hb
    refine .bind (parseResponse_dead _ hb rfl ?_)
    exact .bind (.pure (.bind (.free_dead hb rfl)))

theorem wordRead_finishes :
    Finishes g finishWordRead wordReadModel HeapArray.block HeapArray.bytes := by
  constructor
  · intro L M response ht
    refine .bind ((parseResponse_parses _ (some (.null 0)) ht.live rfl).mono
      (fun e he => he.congr fun _ hnone => ?_) ?_)
    · exact congrArg (Option.bind · _) hnone
    rintro ⟨ret, data⟩ M' ⟨htd, -, hdata⟩
    rw [attachedBlock_eq] at htd
    obtain ⟨M₂, hM₂, hresponse⟩ := ht.swap htd
    refine .bind (.free hresponse (.pure ⟨hM₂, fun hall => ?_⟩))
    have hparsed : MelsecMc.mcParseReadResponse response.bytes (some .empty) = _ := hdata hall
    simp only [wordReadModel, hparsed, Option.bind_eq_bind, Option.bind_some, getD_bytes]
    rfl
  · intro L b content length hb
    exact .bind (parseResponse_dead _ hb rfl (.bind (.free_dead hb rfl)))

/-- A write passes no descriptor to its parser, and takes no block. -/
theorem write_finishes {parse : HeapBytes → Option HeapBytes →
      HeapProgram (ErrorCode × Option HeapBytes)}
    {parseModel : ByteArrayInfo → Option ByteArrayInfo → Option (ErrorCode × Option ByteArrayInfo)}
    (hparse : ∀ {L : Finset Block} {response : HeapBytes}, Live L response.block →
      Parses g L none (parse response none) (parseModel response.bytes none))
    (hdead : ∀ {L : Finset Block} {b : Block} {content : List Byte} {length : ℤ}, b ∉ L →
      Holds g L (parse ⟨some b, content, length⟩ none) (· = .misuse) fun a M =>
        M = L ∧ a.1 ≠ .success ∧ a.2 = none) :
    Finishes g (finishWrite parse) (writeModel parseModel) (fun _ => none) id := by
  constructor
  · intro L M response ht
    refine .bind ((hparse ht.live).mono (fun e he => he.congr fun _ hnone => ?_) ?_)
    · exact congrArg (Option.bind · _) hnone
    rintro ⟨ret, data⟩ M' ⟨htd, hdata, hret⟩
    cases data with
    | none =>
      obtain rfl := htd
      refine .bind (.free ht (.pure ⟨rfl, fun hall => ?_⟩))
      simp only [writeModel, hret hall, Option.bind_eq_bind, Option.bind_some]
      rfl
    | some out => cases hdata rfl
  · intro L b content length hb
    refine .bind ((hdead hb).mono (fun _ he => he) ?_)
    rintro a _ ⟨rfl, -, -⟩
    exact .bind (.free_dead hb rfl)

/-- A raw command hands the payload to the caller, if it passed a descriptor. -/
theorem raw_finishes {data : Option HeapBytes} (hd : attachedBlock data = none)
    {owned : Option HeapBytes → Pointer}
    (howned : ∀ out : Option HeapBytes, (out.isSome → data.isSome) →
      owned out = attachedBlock out) :
    Finishes g (Ascii.finishRaw data)
      (MelsecMc.mcAsciiParseWriteResponse · (data.map HeapArray.bytes)) owned
      (Option.map HeapArray.bytes) := by
  constructor
  · intro L M response ht
    refine .bind ((mcAsciiParseWriteResponse_parses ht.live hd).mono (fun e he => he) ?_)
    rintro ⟨ret, out⟩ M' ⟨hto, hsome, hret⟩
    obtain ⟨M₂, hM₂, hresponse⟩ := ht.swap hto
    refine .bind (.free hresponse (.pure ⟨?_, hret⟩))
    rw [howned out hsome]
    exact hM₂
  · intro L b content length hb
    refine .bind ((mcAsciiParseWriteResponse_dead hb).mono (fun _ he => he) ?_)
    rintro a _ ⟨rfl, -, -⟩
    exact .bind (.free_dead hb rfl)

theorem deviceRead_finishes (is_bit : Bool) :
    Finishes g (Ascii.finishDeviceRead is_bit) (deviceReadModel is_bit) HeapArray.block
      HeapArray.bytes := by
  constructor
  · intro L M response ht
    refine .bind ((mcAsciiParseReadResponse_holds is_bit ht.live).mono
      (fun e he => he.congr fun _ hnone => congrArg (Option.bind · _) hnone) ?_)
    rintro ⟨ret, data⟩ M' ⟨htd, hret⟩
    obtain ⟨M₂, hM₂, hresponse⟩ := ht.swap htd
    refine .bind (.free hresponse (.pure ⟨hM₂, fun hall => ?_⟩))
    simp only [deviceReadModel, hret hall, Option.bind_eq_bind, Option.bind_some]
    rfl
  · intro L b content length hb
    refine .bind ?_
    unfold mcAsciiParseReadResponse
    split
    · exact .pure (.bind (.free_dead hb rfl))
    · refine .bind (mcAsciiParseResponseEndCode_dead hb rfl ?_)
      rw [if_pos (by simp)]
      exact .pure (.bind (.free_dead hb rfl))

theorem holds_terminated {data : HeapBytes} (h : Live L data.block) :
    Holds g L (terminated data) (fun e => e = .outside ∧ terminatedCopy data.bytes = none)
      fun content M => M = L ∧ terminatedCopy data.bytes = some content := by
  obtain ⟨block, content, length⟩ := data
  unfold terminated terminatedCopy
  by_cases hpos : 0 < length
  · simp only [HeapArray.bytes, hpos, if_true]
    cases block with
    | none => exact .bind (.bind (.use_null ⟨rfl, rfl⟩))
    | some b =>
      refine .bind (holds_copy h (fun hnone => ⟨rfl, ?_⟩) fun bytes hbytes => .pure ⟨rfl, ?_⟩)
      · simp only [Option.map_some, Option.bind_some, hnone]
        rfl
      · simp only [Option.map_some, Option.bind_some, hbytes]
  · simp only [HeapArray.bytes, hpos, if_false]
    exact .pure ⟨rfl, rfl⟩

/-- The length field has two bytes. -/
theorem responseHead_lt {response : ByteArrayInfo} {ret : ErrorCode} {rsCount : ℕ}
    (h : responseHead response = some (ret, rsCount)) : rsCount < 2 ^ 16 := by
  obtain ⟨bytes, -, h⟩ := Option.bind_eq_some_iff.mp h
  obtain ⟨b₇, -, h⟩ := Option.bind_eq_some_iff.mp h
  obtain ⟨b₈, -, h⟩ := Option.bind_eq_some_iff.mp h
  obtain ⟨b₉, -, h⟩ := Option.bind_eq_some_iff.mp h
  obtain ⟨b₁₀, -, h⟩ := Option.bind_eq_some_iff.mp h
  rw [← (Prod.mk.inj (Option.some.inj h)).2]
  exact toUShort_lt _

theorem parseResponse_length {attach : ℕ → Bool} {response out : ByteArrayInfo} {ret : ErrorCode}
    (h : MelsecMc.parseResponse attach response (some .empty) = some (ret, some out)) :
    0 ≤ out.length ∧ out.length < 2 ^ 16 := by
  have hempty : ∀ {code : ErrorCode}, some (code, some ByteArrayInfo.empty) = some (ret, some out) →
      0 ≤ out.length ∧ out.length < 2 ^ 16 := by
    intro code heq
    obtain rfl := Option.some.inj (Prod.mk.inj (Option.some.inj heq)).2
    exact ⟨le_rfl, by simp⟩
  rw [parseResponse_eq] at h
  split at h
  · exact hempty h
  obtain ⟨⟨code, rsCount⟩, hhead, h⟩ := Option.bind_eq_some_iff.mp h
  have hlt := responseHead_lt hhead
  dsimp only at h
  split at h
  · obtain ⟨content, -, h⟩ := Option.bind_eq_some_iff.mp h
    obtain rfl := Option.some.inj (Prod.mk.inj (Option.some.inj h)).2
    exact ⟨Int.natCast_nonneg _, Int.ofNat_lt.mpr hlt⟩
  · exact hempty h

/-- The end of `mc_read_plc_type`: response and payload are freed, the text is handed over. -/
theorem plcType_finishes :
    Finishes g finishPlcType plcTypeModel attachedBlock (Option.map HeapArray.content) := by
  constructor
  · intro L M response ht
    refine .bind ((parseResponse_parses _ (some (.null 0)) ht.live rfl).mono
      (fun e he => he.congr fun _ hnone => congrArg (Option.bind · _) hnone) ?_)
    rintro ⟨ret, data⟩ M' ⟨htd, -, hdata⟩
    rw [attachedBlock_eq] at htd
    -- the model of what follows the parser
    have hmodel : ∀ {result}, (if ret ≠ .success then some (ret, none)
          else (terminatedCopy (data.getD (.null 0)).bytes).map
            fun out => (ErrorCode.success, some out)) = result →
        Granted g → plcTypeModel response.bytes = result := by
      rintro _ rfl hall
      have hparsed : MelsecMc.mcParseWriteResponse response.bytes (some .empty) = _ := hdata hall
      rw [plcTypeModel, hparsed]
      simp only [Option.bind_eq_bind, Option.bind_some, getD_bytes]
      split
      · rfl
      · rw [Option.map_eq_bind]
        rfl
    have hlen : Granted g →
        0 ≤ (data.getD (.null 0)).length ∧ (data.getD (.null 0)).length < 2 ^ 16 := by
      intro hall
      cases data with
      | none => exact ⟨le_rfl, by decide⟩
      | some out => exact parseResponse_length (hdata hall)
    dsimp only at htd hmodel ⊢
    generalize data.getD (.null 0) = payload at htd hmodel hlen ⊢
    obtain ⟨M₁, hM₁, hresponse⟩ := ht.swap htd
    by_cases hret : ret ≠ .success
    · rw [if_pos hret] at hmodel ⊢
      exact .bind (.free hresponse (.bind (.free hM₁ (.pure ⟨rfl, hmodel rfl⟩))))
    rw [if_neg hret] at hmodel ⊢
    refine .bind (holds_mallocInt fun o M₂ ho hg => ?_)
    cases o with
    | none =>
      obtain rfl := ho
      refine .bind (.free hresponse (.bind (.free hM₁ (.pure ⟨rfl, fun hall => ?_⟩))))
      obtain ⟨h0, hlt⟩ := hlen hall
      refine absurd (decide_eq_true ?_) (hg.of_none hall)
      rw [toInt32_eq ⟨by omega, by omega⟩]
      omega
    | some out =>
      obtain ⟨A, hA, hresponse⟩ := hresponse.swap ho
      obtain ⟨B, hB, hpayload⟩ := hM₁.swap hA
      refine .bind ((holds_terminated (hpayload.live.mono hresponse.subset)).mono ?_ ?_)
      · rintro e ⟨rfl, hnone⟩
        exact ⟨rfl, hmodel (by rw [hnone]; rfl)⟩
      · rintro content _ ⟨rfl, hcontent⟩
        exact .bind (.free hresponse (.bind (.free hpayload
          (.pure ⟨hB, hmodel (by rw [hcontent]; rfl)⟩))))
  · intro L b content length hb
    refine .bind ((mcParseWriteResponse_dead hb).mono (fun _ he => he) ?_)
    rintro ⟨ret, data⟩ _ ⟨rfl, hret, rfl⟩
    dsimp only
    rw [if_pos hret]
    exact .bind (.free_dead hb rfl)

end MelsecMc.OnHeap
