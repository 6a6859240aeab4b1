import MelsecMc.HeapResponses

/-!
# What the requests of both modules leave on the heap

The functions that make a request are brought to one form: from the blocks that they
are given to the block that they return, with the one that they may lose. Reads
and commands lose nothing. A write of the binary module loses its data where the
address is rejected or the command does not fit an `int`; the ASCII module frees the
data on every path.
-/
namespace MelsecMc.OnHeap

open HeapBlocks HeapProgram

variable {g : Allocator} {r : Transacted} {L M N : Finset Block}

/-- A call that was given the blocks of `N` beside `L` leaves one block lost at most, and beside it
only the one that it returns. -/
def Accounts {α β : Type} (g : Allocator) (r : Transacted) (N L : Finset Block)
    (p : HeapProgram α) (owned : α → Pointer) (view : α → β) (c : Call β) (loses : Prop) : Prop :=
  Holds g N p (Stops g r c) fun a M =>
    (∃ lost M', Takes L lost M' ∧ Takes M' (owned a) M ∧ (Granted g → (lost.isSome ↔ loses))) ∧
      Returns g r c (view a)

section Rules

variable {α β γ δ : Type} {p : HeapProgram α} {owned : α → Pointer} {view : α → β}
  {c c' : Call β} {loses : Prop}

theorem Stops.congr {e : Halt} (h : Stops g r c e) (hc : Granted g → c = c') :
    Stops g r c' e :=
  ⟨h.1, fun hall => hc hall ▸ h.2 hall⟩

theorem Returns.congr {b : β} (h : Returns g r c b) (hc : Granted g → c = c') :
    Returns g r c' b :=
  fun hall => hc hall ▸ h hall

theorem Follows.congr (h : Follows g r N L p owned view c) (hc : Granted g → c = c') :
    Follows g r N L p owned view c' :=
  h.mono (fun _ he => he.congr hc) fun _ _ ha => ⟨ha.1, ha.2.congr hc⟩

/-- Nothing is lost where everything is freed or handed over. -/
theorem Follows.accounts (h : Follows g r N L p owned view c) (hl : ¬ loses) :
    Accounts g r N L p owned view c loses :=
  h.mono (fun _ he => he) fun _ _ ha => ⟨⟨none, L, rfl, ha.1, fun _ => by simp [hl]⟩, ha.2⟩

theorem holds_analysed {address : Option CString} {length : ℤ}
    {rejected : HeapProgram γ} {next : MelsecMcAddressData → HeapProgram γ} {E : Halt → Prop}
    {Q : γ → Finset Block → Prop} (h₀ : mcAnalysisAddress address length = none → E .outside)
    (h₁ : mcAnalysisAddress address length = some none → Holds g L rejected E Q)
    (h₂ : ∀ address_data, mcAnalysisAddress address length = some (some address_data) →
      Holds g L (next address_data) E Q) :
    Holds g L (analysed address length rejected next) E Q := by
  refine .bind (.ofOption h₀ ?_)
  intro a ha
  cases a with
  | none => exact h₁ ha
  | some address_data => exact h₂ address_data ha

/-- A request whose core command is built first. -/
theorem built_follows {core_cmd : ByteArrayInfo} {build : HeapProgram HeapBytes}
    {next : HeapBytes → HeapProgram α} (model : ByteArrayInfo → Call β)
    (hb : Builds g N L build (some core_cmd))
    (hnext : ∀ {M : Finset Block} (core : HeapBytes), Takes L core.block M →
      Follows g r M L (next core) owned view (model core.bytes)) :
    Follows g r N L (build >>= next) owned view (model core_cmd) := by
  refine .bind (hb.mono ?_ ?_)
  · rintro e ⟨rfl, hfault⟩
    exact stops_outside fun hall => absurd (hfault hall) (by simp)
  · rintro core M ⟨ht, hcore⟩
    exact (hnext core ht).congr fun hall => by rw [Option.some.inj (hcore hall)]

theorem hitsReleased_bind {k : β → Call γ} (hk : ∀ b, (k b).request = none) :
    HitsReleased r (c >>= k) ↔ HitsReleased r c := by
  rw [HitsReleased, HitsReleased, Call.request_bind hk]

/-- What follows a request, and makes none. -/
theorem Follows.andThen {f : α → HeapProgram δ} {k : β → Call γ} {view' : δ → γ}
    {R : δ → Finset Block → Prop} (h : Follows g r N L p owned view c)
    (hk : ∀ b, (k b).request = none)
    (hf : ∀ a M, Takes L (owned a) M → (Granted g → c.answer r = some (view a)) →
      Holds g M (f a) (Faults g ((k (view a)).answer r)) fun x M' =>
        R x M' ∧ (Granted g → (k (view a)).answer r = some (view' x))) :
    Holds g N (p >>= f) (Stops g r (c >>= k)) fun x M' =>
      R x M' ∧ Returns g r (c >>= k) (view' x) := by
  have hanswer : ∀ {a}, (Granted g → c.answer r = some (view a)) → Granted g →
      (c >>= k).answer r = (k (view a)).answer r := by
    intro a ha hall
    rw [Call.answer_bind, ha hall, Option.bind_some]
  refine .bind (h.mono ?_ ?_)
  · rintro e ⟨hmisuse, hstop⟩
    refine ⟨hmisuse, fun hall => ?_⟩
    rw [Call.answer_bind, (hstop hall).1, hitsReleased_bind hk]
    exact ⟨rfl, (hstop hall).2⟩
  · rintro a M ⟨hM, ha⟩
    have hresult := fun hall => (ha hall).1
    refine (hf a M hM hresult).mono ?_ ?_
    · rintro e ⟨rfl, hnone⟩
      refine stops_outside fun hall => ⟨(hanswer hresult hall).trans (hnone hall), ?_⟩
      rw [hitsReleased_bind hk]
      exact (ha hall).2
    · rintro x M' ⟨hR, hx⟩
      refine ⟨hR, fun hall => ⟨(hanswer hresult hall).trans (hx hall), ?_⟩⟩
      rw [hitsReleased_bind hk]
      exact (ha hall).2

end Rules

variable (network : PlcNetworkAddress) {fd : ℤ} {address : Option CString} {length : ℤ}

section Reads

/-- A read function of either module, by its builder and its exchange. -/
theorem read_follows {build : MelsecMcAddressData → HeapProgram HeapBytes}
    (buildModel : MelsecMcAddressData → ByteArrayInfo)
    {next : HeapBytes → HeapProgram (ErrorCode × HeapBytes)}
    (model : ByteArrayInfo → Call (ErrorCode × ByteArrayInfo))
    (hbuild : ∀ address_data, Builds g L L (build address_data) (some (buildModel address_data)))
    (hnext : ∀ {M : Finset Block} (core : HeapBytes), Takes L core.block M →
      Follows g r M L (next core) (fun a => a.2.block) (fun a => (a.1, a.2.bytes))
        (model core.bytes)) :
    Follows g r L L (if fd ≤ 0 ∨ address.isNone ∨ length ≤ 0 then
        pure (.invalidParameter, .null 0)
      else analysed address length (pure (.parseAddressFailed, .null 0)) fun address_data => do
        let core_cmd ← build address_data
        next core_cmd) (fun a => a.2.block) (fun a => (a.1, a.2.bytes))
      (if fd ≤ 0 ∨ address.isNone ∨ length ≤ 0 then .ret (.invalidParameter, .empty)
      else MelsecMc.analysed address length .empty fun address_data =>
        model (buildModel address_data)) := by
  split
  · exact .pure ⟨rfl, returns_quiet rfl fun _ => rfl⟩
  unfold MelsecMc.analysed
  refine holds_analysed (fun h => ?_) (fun h => ?_) fun address_data h => ?_
  · rw [h]
    exact stops_outside fun _ => ⟨rfl, not_hitsReleased rfl⟩
  · rw [h]
    exact .pure ⟨rfl, returns_quiet rfl fun _ => rfl⟩
  · rw [h]
    exact built_follows model (hbuild address_data) hnext

theorem readBoolValue_follows : Follows g r L L (readBoolValue network fd address length r)
    (fun a => a.2.block) (fun a => (a.1, a.2.bytes))
    (MelsecMc.readBoolValue network fd address length .empty) := by
  refine read_follows (fun address_data =>
      MelsecMc.buildReadCoreCommand address_data true)
    (fun core_cmd => MelsecMc.exchange MelsecMc.packMcCommand minResponseHeaderSize
      network fd core_cmd .empty boolReadModel)
    (fun address_data => buildReadCoreCommand_builds address_data true) fun core ht => ?_
  exact exchange_follows HeapArray.bytes rfl (packMcCommand_builds network)
    boolRead_finishes ht

theorem readWordValue_follows : Follows g r L L (readWordValue network fd address length r)
    (fun a => a.2.block) (fun a => (a.1, a.2.bytes))
    (MelsecMc.readWordValue network fd address length .empty) := by
  have hmodel : MelsecMc.readWordValue network fd address length .empty =
      if fd ≤ 0 ∨ address.isNone ∨ length ≤ 0 then .ret (.invalidParameter, .empty)
      else MelsecMc.analysed address length .empty fun address_data =>
        MelsecMc.exchange MelsecMc.packMcCommand minResponseHeaderSize network fd
          (MelsecMc.buildReadCoreCommand address_data false) .empty wordReadModel := by
    unfold MelsecMc.readWordValue
    split
    · rfl
    · rename_i hok
      have hfd : ¬ fd ≤ 0 := fun h => hok (.inl h)
      simp only [readAddressData, hfd, if_false]
      rfl
  rw [hmodel]
  refine read_follows _ (fun core_cmd => MelsecMc.exchange MelsecMc.packMcCommand
      minResponseHeaderSize network fd core_cmd .empty wordReadModel)
    (fun address_data => buildReadCoreCommand_builds address_data false) fun core ht => ?_
  exact exchange_follows HeapArray.bytes rfl (packMcCommand_builds network)
    wordRead_finishes ht

theorem readDeviceValue_follows (is_bit : Bool) :
    Follows g r L L (Ascii.readDeviceValue network is_bit fd address length r)
      (fun a => a.2.block) (fun a => (a.1, a.2.bytes))
      (MelsecMc.Ascii.readDeviceValue network is_bit fd address length .empty) := by
  refine read_follows (fun address_data =>
      MelsecMc.mcAsciiBuildReadCoreCommand address_data is_bit)
    (fun core_cmd => MelsecMc.exchange MelsecMc.packMcAsciiCommand
      asciiMinResponseHeaderSize network fd core_cmd .empty (deviceReadModel is_bit))
    (fun address_data => mcAsciiBuildReadCoreCommand_builds address_data is_bit) fun core ht => ?_
  exact exchange_follows HeapArray.bytes rfl (packMcAsciiCommand_builds network)
    (deviceRead_finishes is_bit) ht

end Reads

section Writes

theorem writeExchange_follows {core_cmd : HeapBytes} (h : Takes L core_cmd.block N) :
    Follows g r N L (writeExchange network fd core_cmd r) (fun _ => none) id
      (MelsecMc.writeExchange network fd core_cmd.bytes) :=
  exchange_follows id rfl (packMcCommand_builds network)
    (write_finishes (parseResponse_parses _ _ · rfl) mcParseWriteResponse_dead) h

theorem asciiWriteExchange_follows {core_cmd : HeapBytes} (h : Takes L core_cmd.block N) :
    Follows g r N L (Ascii.writeExchange network fd core_cmd r) (fun _ => none) id
      (MelsecMc.Ascii.writeExchange network fd core_cmd.bytes) :=
  exchange_follows id rfl (packMcAsciiCommand_builds network)
    (write_finishes (mcAsciiParseWriteResponse_parses · rfl) mcAsciiParseWriteResponse_dead) h

/-- A write that builds its core command, frees the data and makes the exchange. -/
theorem buildAndFree_follows {value : Pointer} {build : HeapProgram HeapBytes}
    {model : Option ByteArrayInfo} {next : HeapBytes → HeapProgram (ErrorCode × Unit)}
    {nextModel : ByteArrayInfo → Call (ErrorCode × Unit)} (hv : Takes L value N)
    (hb : Builds g N N build model)
    (hnext : ∀ {M : Finset Block} (core : HeapBytes), Takes L core.block M →
      Follows g r M L (next core) (fun _ => none) id (nextModel core.bytes)) :
    Follows g r N L (do
        let core ← build
        free value
        next core) (fun _ => none) id (do
        let core ← .ofOption model
        nextModel core) := by
  refine .bind (hb.mono ?_ ?_)
  · rintro e ⟨rfl, hfault⟩
    refine stops_outside fun hall => ?_
    rw [hfault hall]
    exact ⟨rfl, not_hitsReleased rfl⟩
  · rintro core M ⟨ht, hcore⟩
    obtain ⟨M', ht', hv'⟩ := hv.swap ht
    exact .bind (.free hv' ((hnext core ht').congr fun hall => by rw [hcore hall]; rfl))

theorem writeBoolValue_accounts {in_bytes : HeapArray Bool} (h : Takes L in_bytes.block N)
    (hok : ¬ (fd ≤ 0 ∨ address.isNone ∨ length ≤ 0 ∨ in_bytes.block.isNone)) :
    Accounts g r N L (writeBoolValue network fd address length in_bytes r) (fun _ => none) id
      (MelsecMc.writeBoolValue network fd address length in_bytes.bools)
      (mcAnalysisAddress address length = some none) := by
  have hblock : in_bytes.block.isSome := by
    cases hb : in_bytes.block with
    | none => exact absurd (.inr (.inr (.inr (by rw [hb]; rfl)))) hok
    | some b => rfl
  have hmodel : MelsecMc.writeBoolValue network fd address length in_bytes.bools =
      MelsecMc.analysed address length () (fun address_data => do
        let core_cmd ← .ofOption (MelsecMc.buildWriteBitCoreCommand address_data in_bytes.bools)
        MelsecMc.writeExchange network fd core_cmd) := if_neg (by simpa [HeapArray.bools] using hok)
  rw [hmodel, writeBoolValue, if_neg hok]
  unfold MelsecMc.analysed
  refine holds_analysed (fun ha => ?_) (fun ha => ?_) fun address_data ha => ?_
  · rw [ha]
    exact stops_outside fun _ => ⟨rfl, not_hitsReleased rfl⟩
  · rw [ha]
    exact .pure ⟨⟨in_bytes.block, N, h, rfl, fun _ => by simp [hblock]⟩,
      returns_quiet rfl fun _ => rfl⟩
  · rw [ha]
    exact (buildAndFree_follows h (buildWriteBitCoreCommand_builds address_data h.live)
      fun _ ht => writeExchange_follows network ht).accounts (by simp)

/-- The words of a write are left to nobody: their address is rejected, or the command is too long
for an `int`. -/
def Unconsumed (address : Option CString) (points len : ℤ) : Prop :=
  mcAnalysisAddress address points = some none ∨ toInt32 (10 + len) < 0

instance (address : Option CString) (points len : ℤ) : Decidable (Unconsumed address points len) :=
  inferInstanceAs (Decidable (_ ∨ _))

theorem buildWriteWordCoreCommand_null_iff {address_data : MelsecMcAddressData}
    {value : HeapBytes} {out : ByteArrayInfo} (hv : value.block.isSome)
    (h : MelsecMc.buildWriteWordCoreCommand address_data value.bytes = some out) :
    out.data = none ↔ toInt32 (10 + value.length) < 0 := by
  obtain ⟨_ | b, content, length⟩ := value
  · cases hv
  rw [buildWriteWordCoreCommand_bytes] at h
  by_cases hsize : MelsecMc.malloc (toInt32 (10 + length)) = true
  · rw [if_pos hsize] at h
    obtain ⟨copied, -, rfl⟩ := Option.map_eq_some_iff.mp h
    have hsize := of_decide_eq_true hsize
    simpa using hsize
  · rw [if_neg hsize] at h
    obtain rfl := Option.some.inj h
    have hsize : ¬ 0 ≤ toInt32 (10 + length) := fun h0 => hsize (decide_eq_true h0)
    simpa using hsize

theorem writeWordValue_accounts {in_bytes : HeapBytes} (h : Takes L in_bytes.block N)
    (hv : in_bytes.block.isSome) :
    Accounts g r N L (writeWordValue network fd address length in_bytes r) (fun _ => none) id
      (MelsecMc.writeWordValue network fd address length in_bytes.bytes)
      (Unconsumed address length in_bytes.length) := by
  unfold writeWordValue MelsecMc.writeWordValue MelsecMc.analysed
  refine holds_analysed (fun ha => ?_) (fun ha => ?_) fun address_data ha => ?_
  · rw [ha]
    exact stops_outside fun _ => ⟨rfl, not_hitsReleased rfl⟩
  · rw [ha]
    exact .pure ⟨⟨in_bytes.block, N, h, rfl, fun _ => by simp [hv, Unconsumed, ha]⟩,
      returns_quiet rfl fun _ => rfl⟩
  rw [ha]
  refine .bind ((buildWriteWordCoreCommand_builds address_data h hv).mono ?_ ?_)
  · rintro e ⟨rfl, hfault⟩
    refine stops_outside fun hall => ?_
    simp only [writeAddressData, hfault hall]
    exact ⟨rfl, not_hitsReleased rfl⟩
  · rintro core M ⟨ht, hcore⟩
    have hmodel : Granted g → MelsecMc.writeExchange network fd core.bytes =
        writeAddressData network fd address_data in_bytes.bytes := by
      intro hall
      rw [writeAddressData, hcore hall]
      rfl
    have hnull : Granted g → (core.block = none ↔ Unconsumed address length in_bytes.length) := by
      intro hall
      have hiff := buildWriteWordCoreCommand_null_iff hv (hcore hall)
      simpa [Unconsumed, ha, HeapArray.bytes] using hiff
    cases hb : core.block with
    | none =>
      rw [hb] at ht hnull
      obtain rfl := ht
      have hex : Takes M core.block M := by rw [hb]; rfl
      refine (writeExchange_follows network hex).mono (fun e he => he.congr hmodel) ?_
      rintro a M' ⟨hM', ha'⟩
      exact ⟨⟨in_bytes.block, M, h, hM', fun hall => by simpa [hv] using hnull hall⟩,
        ha'.congr hmodel⟩
    | some b =>
      rw [hb] at ht hnull
      have hex : Takes L core.block M := by rw [hb]; exact ht
      refine (writeExchange_follows network hex).mono (fun e he => he.congr hmodel) ?_
      rintro a M' ⟨hM', ha'⟩
      exact ⟨⟨none, L, rfl, hM', fun hall => by simpa using hnull hall⟩, ha'.congr hmodel⟩

/-- A write of the ASCII module past its checks. -/
theorem asciiWrite_follows {value : Pointer} (h : Takes L value N)
    {build : MelsecMcAddressData → HeapProgram HeapBytes}
    {model : MelsecMcAddressData → Option ByteArrayInfo}
    (hb : ∀ address_data, Builds g N N (build address_data) (model address_data)) :
    Follows g r N L (analysed address length (do free value; return (.parseAddressFailed, ()))
        fun address_data => do
          let core_cmd ← build address_data
          free value
          Ascii.writeExchange network fd core_cmd r) (fun _ => none) id
      (MelsecMc.analysed address length () fun address_data => do
        let core_cmd ← .ofOption (model address_data)
        MelsecMc.Ascii.writeExchange network fd core_cmd) := by
  unfold MelsecMc.analysed
  refine holds_analysed (fun ha => ?_) (fun ha => ?_) fun address_data ha => ?_
  · rw [ha]
    exact stops_outside fun _ => ⟨rfl, not_hitsReleased rfl⟩
  · rw [ha]
    exact .bind (.free h (.pure ⟨rfl, returns_quiet rfl fun _ => rfl⟩))
  · rw [ha]
    exact buildAndFree_follows h (hb address_data) fun _ ht => asciiWriteExchange_follows network ht

theorem asciiWriteBoolValue_follows {in_bytes : HeapArray Bool} (h : Takes L in_bytes.block N)
    (hok : ¬ (fd ≤ 0 ∨ address.isNone ∨ length ≤ 0 ∨ in_bytes.block.isNone)) :
    Follows g r N L (Ascii.writeBoolValue network fd address length in_bytes r) (fun _ => none) id
      (MelsecMc.Ascii.writeBoolValue network fd address length in_bytes.bools) := by
  have hmodel : MelsecMc.Ascii.writeBoolValue network fd address length in_bytes.bools =
      MelsecMc.analysed address length () (fun address_data => do
        let core_cmd ← .ofOption
          (MelsecMc.mcAsciiBuildWriteBitCoreCommand address_data in_bytes.bools)
        MelsecMc.Ascii.writeExchange network fd core_cmd) :=
    if_neg (by simpa [HeapArray.bools] using hok)
  rw [hmodel, Ascii.writeBoolValue, if_neg hok]
  exact asciiWrite_follows network h fun address_data =>
    mcAsciiBuildWriteBitCoreCommand_builds address_data h.live

theorem asciiWriteWordValue_follows {in_bytes : HeapBytes} (h : Takes L in_bytes.block N)
    (hlen : InInt32 in_bytes.length) :
    Follows g r N L (Ascii.writeWordValue network fd address length in_bytes r) (fun _ => none) id
      (MelsecMc.Ascii.writeWordValue network fd address length in_bytes.bytes) := by
  unfold Ascii.writeWordValue MelsecMc.Ascii.writeWordValue
  have hdata : in_bytes.bytes.data.isNone = in_bytes.block.isNone := by
    cases hb : in_bytes.block <;> simp [HeapArray.bytes, hb]
  rw [hdata]
  split
  · exact .bind (.free h (.pure ⟨rfl, returns_quiet rfl fun _ => rfl⟩))
  · exact asciiWrite_follows network h fun address_data =>
      mcAsciiBuildWriteWordCoreCommand_builds address_data h.live hlen

end Writes

section Commands

/-- A command from a constant, for an `if` that is taken or a store through a null pointer where
there is no room for it. -/
theorem constantCommand_follows {γ β : Type} {core_cmd : List Byte} {refused : HeapProgram γ}
    {next : HeapBytes → HeapProgram γ} {owned : γ → Pointer} {view : γ → β}
    (model : ByteArrayInfo → Call β)
    (hrefused : ¬ Granted g → Holds g L refused (fun e => e = .outside) fun a M =>
      Takes L (owned a) M)
    (hnext : ∀ {M : Finset Block} (core : HeapBytes), Takes L core.block M →
      Follows g r M L (next core) owned view (model core.bytes)) :
    Follows g r L L (constantCommand core_cmd refused next) owned view
      (model (.ofList core_cmd)) := by
  refine .bind (holds_mallocInt fun o M ht hg => ?_)
  cases o with
  | none =>
    obtain rfl := ht
    have hnot : ¬ Granted g := fun hall =>
      absurd (decide_eq_true (Int.natCast_nonneg _)) (hg.of_none hall)
    refine (hrefused hnot).mono ?_ fun a M ha => ⟨ha, fun hall => absurd hall hnot⟩
    rintro e rfl
    exact stops_outside fun hall => absurd hall hnot
  | some b => exact hnext ⟨some b, core_cmd, core_cmd.length⟩ ht

theorem mcRemoteRun_follows : Follows g r L L (mcRemoteRun network fd r) (fun _ => none) id
    (MelsecMc.mcRemoteRun network fd) := by
  unfold mcRemoteRun MelsecMc.mcRemoteRun
  split
  · exact .pure ⟨rfl, returns_quiet rfl fun _ => rfl⟩
  · exact constantCommand_follows _ (fun _ => .pure rfl)
      fun _ ht => writeExchange_follows network ht

theorem mcRemoteStop_follows : Follows g r L L (mcRemoteStop network fd r) (fun _ => none) id
    (MelsecMc.mcRemoteStop network fd) :=
  constantCommand_follows _ (fun _ => .ofOption (fun _ => rfl) nofun)
    fun _ ht => writeExchange_follows network ht

theorem mcRemoteReset_follows : Follows g r L L (mcRemoteReset network fd r) (fun _ => none) id
    (MelsecMc.mcRemoteReset network fd) := by
  unfold mcRemoteReset MelsecMc.mcRemoteReset
  split
  · exact .pure ⟨rfl, returns_quiet rfl fun _ => rfl⟩
  · exact constantCommand_follows _ (fun _ => .pure rfl)
      fun _ ht => writeExchange_follows network ht

theorem mcReadPlcType_follows (type : Bool) : Follows g r L L (mcReadPlcType network fd type r)
    (fun a => attachedBlock a.2) (fun a => (a.1, a.2.map HeapArray.content))
    (MelsecMc.mcReadPlcType network fd type) := by
  unfold mcReadPlcType
  by_cases hok : fd ≤ 0 ∨ ¬ type
  · rw [if_pos hok, MelsecMc.mcReadPlcType, if_pos hok]
    exact .pure ⟨rfl, returns_quiet rfl fun _ => rfl⟩
  have hmodel : MelsecMc.mcReadPlcType network fd type =
      MelsecMc.exchange MelsecMc.packMcCommand minResponseHeaderSize network fd
        (.ofList [0x01, 0x01, 0x00, 0x00, 0x01, 0x00]) none plcTypeModel := if_neg hok
  rw [if_neg hok, hmodel]
  refine constantCommand_follows (fun core_cmd => MelsecMc.exchange
      MelsecMc.packMcCommand minResponseHeaderSize network fd core_cmd none plcTypeModel)
    (fun _ => .pure rfl) fun core ht => ?_
  exact exchange_follows (Option.map HeapArray.content) rfl (packMcCommand_builds network)
    plcType_finishes ht

theorem mcAsciiExecuteRawCommand_follows {raw_cmd : List Byte} (data : Option HeapBytes)
    (owned : Option HeapBytes → Pointer) (hd : attachedBlock data = none)
    (howned : ∀ out : Option HeapBytes, (out.isSome → data.isSome) →
      owned out = attachedBlock out) :
    Follows g r L L (Ascii.mcAsciiExecuteRawCommand network fd raw_cmd data r)
      (fun a => owned a.2) (fun a => (a.1, a.2.map HeapArray.bytes))
      (MelsecMc.Ascii.mcAsciiExecuteRawCommand network fd raw_cmd (data.map HeapArray.bytes)) := by
  have hout : owned data = none := (howned data id).trans hd
  have hnone : Takes L (owned data) L := by
    rw [hout]
    rfl
  unfold Ascii.mcAsciiExecuteRawCommand MelsecMc.Ascii.mcAsciiExecuteRawCommand
  split
  · exact .pure ⟨hnone, returns_quiet rfl fun _ => rfl⟩
  · refine built_follows (fun core_cmd => MelsecMc.exchange MelsecMc.packMcAsciiCommand 0
        network fd core_cmd (data.map HeapArray.bytes)
        (MelsecMc.mcAsciiParseWriteResponse · (data.map HeapArray.bytes)))
      (mcAsciiBuildCoreFromLeWords_builds raw_cmd) fun core ht => ?_
    exact exchange_follows (Option.map HeapArray.bytes) hout
      (packMcAsciiCommand_builds network) (raw_finishes hd howned) ht

/-- An exchange returns what it was given, or what its parser makes of a response. -/
theorem exchange_result {β : Type}
    {pack : ByteArrayInfo → PlcNetworkAddress → Option ByteArrayInfo} {min_size : ℕ}
    {core_cmd : ByteArrayInfo} {out x : β} {parse : ByteArrayInfo → Option (ErrorCode × β)}
    {ret : ErrorCode}
    (h : (MelsecMc.exchange pack min_size network fd core_cmd out parse).answer r =
      some (ret, x)) : x = out ∨ ∃ response, parse response = some (ret, x) := by
  have hout : ∀ {code : ErrorCode}, some (code, out) = some (ret, x) →
      x = out ∨ ∃ response, parse response = some (ret, x) :=
    fun heq => .inl (Prod.mk.inj (Option.some.inj heq)).2.symm
  have hreleased : ∀ {o : Option Unit} {code : ErrorCode},
      (Call.ofOption o >>= fun _ => Call.ret (code, out)).answer r = some (ret, x) →
      x = out ∨ ∃ response, parse response = some (ret, x) := by
    intro o code heq
    rw [Call.answer_bind] at heq
    obtain ⟨-, -, heq⟩ := Option.bind_eq_some_iff.mp heq
    exact hout heq
  unfold MelsecMc.exchange at h
  split at h
  · exact hout h
  rw [Call.answer_bind] at h
  obtain ⟨cmd, -, h⟩ := Option.bind_eq_some_iff.mp h
  split at h
  · exact hout h
  rw [Call.answer_bind] at h
  obtain ⟨r', -, h⟩ := Option.bind_eq_some_iff.mp h
  unfold evaluate at h
  split at h
  · exact hreleased h
  split at h
  · exact hreleased h
  · rw [Call.answer_bind] at h
    obtain ⟨response, -, h⟩ := Option.bind_eq_some_iff.mp h
    rw [Call.answer_ofOption] at h
    exact .inr ⟨response, h⟩

theorem mcAsciiReadPlcType_follows (type : Bool) :
    Follows g r L L (Ascii.mcAsciiReadPlcType network fd type r) (fun a => attachedBlock a.2)
      (fun a => (a.1, a.2.map HeapArray.content))
      (MelsecMc.Ascii.mcAsciiReadPlcType network fd type) := by
  unfold Ascii.mcAsciiReadPlcType MelsecMc.Ascii.mcAsciiReadPlcType
  split
  · exact .pure ⟨rfl, returns_quiet rfl fun _ => rfl⟩
  refine (mcAsciiExecuteRawCommand_follows network (some (.null 0)) attachedBlock rfl
    fun _ _ => rfl).andThen ?_ ?_
  · rintro ⟨ret, payload⟩
    dsimp only
    split
    · rfl
    · exact Call.request_ofOption_bind _ fun _ => rfl
  rintro ⟨ret, data⟩ M hM hresult
  dsimp only at hM hresult ⊢
  rw [attachedBlock_eq] at hM
  rw [getD_bytes]
  have hlen : Granted g → 0 ≤ (data.getD (.null 0)).length := by
    intro hall
    have hcall := hresult hall
    cases data with
    | none => exact le_rfl
    | some out =>
      have hempty : some out.bytes = some (HeapArray.null 0).bytes → 0 ≤ out.length :=
        fun h => (congrArg ByteArrayInfo.length (Option.some.inj h)).ge
      unfold MelsecMc.Ascii.mcAsciiExecuteRawCommand at hcall
      split at hcall
      · exact hempty (Prod.mk.inj (Option.some.inj hcall)).2.symm
      · rcases exchange_result network hcall with hout | ⟨response, hparse⟩
        · exact hempty hout
        · exact mcAsciiParseWriteResponse_length hparse
  generalize data.getD (.null 0) = payload at hM hlen ⊢
  by_cases hret : ret ≠ .success
  · rw [if_pos hret, if_pos hret]
    exact .bind (.free hM (.pure ⟨rfl, fun _ => rfl⟩))
  rw [if_neg hret, if_neg hret]
  refine .bind (holds_mallocInt fun o M' ho hg => ?_)
  cases o with
  | none =>
    obtain rfl := ho
    refine .bind (.free hM (.pure ⟨rfl, fun hall => absurd (decide_eq_true ?_) (hg.of_none hall)⟩))
    have := hlen hall
    omega
  | some out =>
    obtain ⟨A, hA, hpayload⟩ := hM.swap ho
    refine .bind ((holds_terminated hpayload.live).mono ?_ ?_)
    · rintro e ⟨rfl, hnone⟩
      exact ⟨rfl, fun _ => by rw [hnone]; rfl⟩
    · rintro content _ ⟨rfl, hcontent⟩
      exact .bind (.free hpayload (.pure ⟨hA, fun _ => by rw [hcontent]; rfl⟩))

end Commands

end MelsecMc.OnHeap
