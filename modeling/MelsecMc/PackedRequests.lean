import MelsecMc.Api

/-!
# Where requests come from

Every public function with a request prepares a core command by itself, packs it
with the numbers of the module, hands it over for its own descriptor, and evaluates
the answer by itself. `RequestParts` has what the functions do by themselves.
-/
namespace MelsecMc

/-- `pack_mc_command` and `pack_mc_ascii_command`. -/
def Module.pack : Module → ByteArrayInfo → PlcNetworkAddress → Option ByteArrayInfo
  | binary => packMcCommand
  | ascii => packMcAsciiCommand

/-- A computation without a transaction. -/
def Call.IsLocal {α : Type} (c : Call α) : Prop := ∃ o, c = .ofOption o

/-- The core command or the result of a call that ends before, `none` for an access outside a
buffer, the result when nothing was packed, and the result after a transaction. -/
structure RequestParts (α : Type) where
  prepare : Option (Except α ByteArrayInfo)
  unpacked : Option α
  finish : Transacted → Option α

/-- The call with these parts. -/
def RequestParts.call {α : Type} (parts : RequestParts α)
    (pack : ByteArrayInfo → PlcNetworkAddress → Option ByteArrayInfo)
    (network : PlcNetworkAddress) (fd : ℤ) : Call α :=
  match parts.prepare with
  | none => .fault
  | some (.error result) => .ret result
  | some (.ok core_cmd) => do
    let cmd ← .ofOption (pack core_cmd network)
    if cmd.data.isNone then .ofOption parts.unpacked
    else do
      let r ← mcSendAndReceiveTransaction fd cmd
      .ofOption (parts.finish r)

/-- Whatever the numbers are, the call has the same parts. -/
def HasParts {α : Type} (pack : ByteArrayInfo → PlcNetworkAddress → Option ByteArrayInfo) (fd : ℤ)
    (c : PlcNetworkAddress → Call α) : Prop :=
  ∃ parts : RequestParts α, ∀ network, c network = parts.call pack network fd

namespace Call.IsLocal

variable {α β : Type}

theorem ret (a : α) : (Call.ret a).IsLocal := ⟨some a, rfl⟩

theorem ofOption (o : Option α) : (Call.ofOption o).IsLocal := ⟨o, rfl⟩

theorem fault : (Call.fault : Call α).IsLocal := ⟨none, rfl⟩

theorem bind {c : Call α} {f : α → Call β} (hc : c.IsLocal) (hf : ∀ a, (f a).IsLocal) :
    (c >>= f).IsLocal := by
  obtain ⟨o, rfl⟩ := hc
  cases o with
  | none => exact fault
  | some a => exact hf a

theorem ite {p : Prop} [Decidable p] {c d : Call α} (hc : c.IsLocal) (hd : d.IsLocal) :
    (if p then c else d).IsLocal := by
  split
  · exact hc
  · exact hd

/-- How the readers end: a conversion where the payload is long enough. -/
theorem convert {p : Prop} [Decidable p] {o : Option α} {f : α → β} {b : β} :
    (if p then Call.ofOption o >>= fun a => .ret (f a) else .ret b).IsLocal :=
  ite ((ofOption o).bind fun _ => ret _) (ret b)

theorem evaluate {min_size : ℕ} {out : β} {parse : ByteArrayInfo → Option (ErrorCode × β)}
    (r : Transacted) : (evaluate min_size out parse r).IsLocal := by
  unfold MelsecMc.evaluate
  exact ite ((ofOption _).bind fun _ => ret _)
    (ite ((ofOption _).bind fun _ => ret _) ((ofOption _).bind fun _ => ofOption _))

theorem of_bind {c : Call α} {f : α → Call β} (h : (c >>= f).IsLocal) : c.IsLocal := by
  cases c with
  | fault => exact fault
  | ret a => exact ret a
  | transact fd cmd next =>
    obtain ⟨o, ho⟩ := h
    cases o with
    | none => cases ho
    | some b => cases ho

end Call.IsLocal

/-- Behind its request, however the transaction ends, a call makes no further one. -/
def Call.Once {α : Type} : Call α → Prop
  | transact _ _ next => ∀ r, (next r).IsLocal
  | _ => True

namespace Call.Once

variable {α β : Type} {c : Call α} {f : α → Call β}

theorem of_local (hc : c.IsLocal) : c.Once := by
  obtain ⟨o, rfl⟩ := hc
  cases o <;> trivial

/-- A local computation comes first. -/
theorem local_bind (hc : c.IsLocal) (hf : ∀ a, (f a).Once) : (c >>= f).Once := by
  obtain ⟨o, rfl⟩ := hc
  cases o with
  | none => trivial
  | some a => exact hf a

theorem bind (hc : c.Once) (hf : ∀ a, (f a).IsLocal) : (c >>= f).Once := by
  cases c with
  | fault => trivial
  | ret a => exact of_local (hf a)
  | transact fd cmd next => exact fun r => (hc r).bind hf

theorem of_bind (h : (c >>= f).Once) : c.Once := by
  cases c with
  | fault | ret a => trivial
  | transact fd cmd next => exact fun r => (h r).of_bind

theorem transaction (fd : ℤ) (cmd : ByteArrayInfo) : (mcSendAndReceiveTransaction fd cmd).Once := by
  unfold mcSendAndReceiveTransaction
  split
  · trivial
  · exact fun r => .ret r

end Call.Once

namespace HasParts

variable {α β : Type} {pack : ByteArrayInfo → PlcNetworkAddress → Option ByteArrayInfo} {fd : ℤ}

theorem of_local {c : Call α} (hc : c.IsLocal) : HasParts pack fd fun _ => c := by
  obtain ⟨o, rfl⟩ := hc
  cases o with
  | none => exact ⟨⟨none, none, fun _ => none⟩, fun _ => rfl⟩
  | some a => exact ⟨⟨some (.error a), none, fun _ => none⟩, fun _ => rfl⟩

/-- The parts make one request at most. -/
theorem once {c : PlcNetworkAddress → Call α} (hc : HasParts pack fd c)
    (network : PlcNetworkAddress) : (c network).Once := by
  obtain ⟨parts, hparts⟩ := hc
  rw [hparts]
  unfold RequestParts.call
  split
  · trivial
  · trivial
  · refine .local_bind (.ofOption _) fun cmd => ?_
    split
    · exact .of_local (.ofOption _)
    · exact (Call.Once.transaction fd cmd).bind fun r => .ofOption _

/-- A local computation may follow. -/
theorem bind {c : PlcNetworkAddress → Call α} {f : α → Call β} (hc : HasParts pack fd c)
    (hf : ∀ a, (f a).IsLocal) : HasParts pack fd fun network => c network >>= f := by
  obtain ⟨parts, hparts⟩ := hc
  choose result hresult using hf
  have hoption : ∀ o : Option α, (Call.ofOption o >>= f) = .ofOption (o.bind result) := by
    intro o
    cases o with
    | none => rfl
    | some a => exact hresult a
  cases hp : parts.prepare with
  | none =>
    refine ⟨⟨none, none, fun _ => none⟩, fun network => ?_⟩
    simp only [hparts, RequestParts.call, hp]
    rfl
  | some prepared =>
    cases prepared with
    | error a =>
      have hend : HasParts pack fd fun _ => f a := of_local ⟨_, hresult a⟩
      obtain ⟨ends, hends⟩ := hend
      refine ⟨ends, fun network => ?_⟩
      beta_reduce
      have hret : c network = .ret a := by simp only [hparts, RequestParts.call, hp]
      rw [hret, Call.ret_bind]
      exact hends network
    | ok core_cmd =>
      refine ⟨⟨some (.ok core_cmd), parts.unpacked.bind result,
        fun r => (parts.finish r).bind result⟩, fun network => ?_⟩
      simp only [hparts, RequestParts.call, hp]
      cases pack core_cmd network with
      | none => rfl
      | some cmd =>
        simp only [Call.ofOption_some, Call.ret_bind]
        split
        · exact hoption _
        · unfold mcSendAndReceiveTransaction
          split
          · exact hoption _
          · simp only [Call.transact_bind, Call.ret_bind, hoption]

theorem code {c : PlcNetworkAddress → Call (ErrorCode × β)} (hc : HasParts pack fd c) :
    HasParts pack fd fun network => (c network).code :=
  hc.bind fun _ => .ret _

theorem ite {p : Prop} [Decidable p] {c d : PlcNetworkAddress → Call α} (hc : HasParts pack fd c)
    (hd : HasParts pack fd d) :
    HasParts pack fd fun network => if p then c network else d network := by
  by_cases hp : p
  · simpa only [hp, if_true] using hc
  · simpa only [hp, if_false] using hd

/-- A check with a result of its own. -/
theorem guarded {p : Prop} [Decidable p] {a : α} {c : PlcNetworkAddress → Call α}
    (hc : HasParts pack fd c) : HasParts pack fd fun network => if p then .ret a else c network :=
  ite (of_local (.ret a)) hc

theorem allocated {p : Prop} [Decidable p] {a : α} {c : PlcNetworkAddress → Call α}
    (hc : HasParts pack fd c) : HasParts pack fd fun network => if p then c network else .ret a :=
  ite hc (of_local (.ret a))

theorem ofOption_bind (o : Option α) {c : PlcNetworkAddress → α → Call β}
    (hc : ∀ a, HasParts pack fd fun network => c network a) :
    HasParts pack fd fun network => .ofOption o >>= c network := by
  cases o with
  | none => exact of_local .fault
  | some a => exact hc a

theorem analysed {address : Option CString} {length : ℤ} {out : β}
    {next : PlcNetworkAddress → MelsecMcAddressData → Call (ErrorCode × β)}
    (h : ∀ address_data, HasParts pack fd fun network => next network address_data) :
    HasParts pack fd fun network => analysed address length out (next network) := by
  unfold MelsecMc.analysed
  cases mcAnalysisAddress address length with
  | none => exact of_local .fault
  | some parsed =>
    cases parsed with
    | none => exact of_local (.ret _)
    | some address_data => exact h address_data

theorem exchange {min_size : ℕ} {core_cmd : ByteArrayInfo} {out : β}
    {parse : ByteArrayInfo → Option (ErrorCode × β)} :
    HasParts pack fd fun network => exchange pack min_size network fd core_cmd out parse := by
  unfold MelsecMc.exchange
  refine guarded ?_
  choose result hresult using fun r : Transacted =>
    show (evaluate min_size out parse r).IsLocal from .evaluate r
  refine ⟨⟨some (.ok core_cmd), some (.buildCoreCmdFailed, out), result⟩, fun network => ?_⟩
  simp only [RequestParts.call, hresult]
  cases pack core_cmd network with
  | none => rfl
  | some cmd => rfl

/-- What is handed over is packed, and for the descriptor of the call. -/
theorem requests {c : PlcNetworkAddress → Call α} (hc : HasParts pack fd c)
    {S : ℤ → ByteArrayInfo → Prop} {network : PlcNetworkAddress}
    (hS : ∀ core cmd, pack core network = some cmd → cmd.data.isSome → S fd cmd) :
    (c network).Requests S := by
  obtain ⟨parts, hparts⟩ := hc
  rw [hparts, RequestParts.call]
  split
  · trivial
  · trivial
  · rename_i core_cmd hcore
    cases hp : pack core_cmd network with
    | none => trivial
    | some cmd =>
      simp only [Call.ofOption_some, Call.ret_bind]
      split
      · exact Call.requests_ofOption S _
      · apply Call.Requests.bind
        · unfold mcSendAndReceiveTransaction
          split
          · trivial
          · refine ⟨hS core_cmd cmd hp ?_, fun _ => trivial⟩
            simpa [Option.isSome_iff_ne_none] using ‹¬ cmd.data.isNone = true›
        · exact fun r => Call.requests_ofOption S _

end HasParts

section Functions

variable {pack : ByteArrayInfo → PlcNetworkAddress → Option ByteArrayInfo} {fd : ℤ} {size : ℕ}

theorem readValue_parts
    {readWord : PlcNetworkAddress → ℤ → Option CString → ℤ → ByteArrayInfo →
      Call (ErrorCode × ByteArrayInfo)}
    {points : ℤ} {enough : ℤ → Bool} {C : ValueCodec size} {address : Option CString} {val : Bool}
    (h : ∀ address length out, HasParts pack fd fun network =>
      readWord network fd address length out) :
    HasParts pack fd fun network => readValue (readWord network) points enough C fd address val :=
  .guarded ((h _ _ _).bind fun _ => .convert)

theorem writeValue_parts
    {writeWord : PlcNetworkAddress → ℤ → Option CString → ℤ → ByteArrayInfo →
      Call (ErrorCode × Unit)}
    {points : ℤ} {C : ValueCodec size} {address : Option CString} {val : BitVec (8 * size)}
    (h : ∀ address length data, HasParts pack fd fun network =>
      writeWord network fd address length data) :
    HasParts pack fd fun network => writeValue (writeWord network) points C fd address val :=
  .guarded (h _ _ _)

theorem readBoolValue_parts (address : Option CString) (length : ℤ) (out : ByteArrayInfo) :
    HasParts packMcCommand fd fun network => readBoolValue network fd address length out :=
  .guarded (.analysed fun _ => .exchange)

theorem readWordValue_parts (address : Option CString) (length : ℤ) (out : ByteArrayInfo) :
    HasParts packMcCommand fd fun network => readWordValue network fd address length out :=
  .guarded (.analysed fun _ => .guarded .exchange)

theorem writeBoolValue_parts (address : Option CString) (length : ℤ) (data : BoolArrayInfo) :
    HasParts packMcCommand fd fun network => writeBoolValue network fd address length data :=
  .guarded (.analysed fun _ => .ofOption_bind _ fun _ => .exchange)

theorem writeWordValue_parts (address : Option CString) (length : ℤ) (data : ByteArrayInfo) :
    HasParts packMcCommand fd fun network => writeWordValue network fd address length data :=
  .analysed fun _ => .ofOption_bind _ fun _ => .exchange

theorem Access.mc_parts (address : Option CString) (a : Access) :
    HasParts packMcCommand fd fun network => a.mc network fd address := by
  cases a with
  | readBool val =>
    refine HasParts.code (.guarded ?_)
    exact (readBoolValue_parts _ _ _).bind fun _ => .convert
  | readValue T val =>
    refine HasParts.code ?_
    cases T <;> simp only [ValueType.mcRead, mcReadShort, mcReadUshort, mcReadInt32, mcReadUint32,
      mcReadInt64, mcReadUint64, mcReadFloat, mcReadDouble]
    all_goals exact readValue_parts readWordValue_parts
  | readString length range val =>
    refine HasParts.code (.guarded ((readWordValue_parts _ _ _).bind fun result => ?_))
    exact .ite (.ite ((Call.IsLocal.ofOption _).bind fun _ => .ite (.ret _) .fault) (.ret _))
      (.ret _)
  | writeBool val => exact HasParts.code (.guarded (writeBoolValue_parts _ _ _))
  | writeValue T val =>
    simp only [mc, T.mcWrite_eq]
    exact HasParts.code (writeValue_parts writeWordValue_parts)
  | writeString length range val =>
    cases val with
    | none => exact HasParts.code (.of_local (.ret _))
    | some val => exact HasParts.code (.guarded (.allocated (writeWordValue_parts _ _ _)))

theorem BatchAccess.mc_parts (address : Option CString) (a : BatchAccess) :
    HasParts packMcCommand fd fun network => a.mc network fd address := by
  cases a with
  | readBool length range values =>
    refine HasParts.code (.guarded ?_)
    exact (readBoolValue_parts _ _ _).bind fun _ => .convert
  | read T length range values =>
    simp only [mc, T.mcReadBatch_eq]
    refine HasParts.code (.guarded ?_)
    exact (readWordValue_parts _ _ _).bind fun _ => .convert
  | writeBool length range values =>
    cases values with
    | none => exact HasParts.code (.of_local (.ret _))
    | some values => exact HasParts.code (.guarded (writeBoolValue_parts _ _ _))
  | write T length range values =>
    simp only [mc, T.mcWriteBatch_eq]
    cases values with
    | none => exact HasParts.code (.of_local (.ret _))
    | some values =>
      exact HasParts.code (.guarded (.allocated (.ite (writeWordValue_parts _ _ _)
        (.of_local .fault))))

theorem Remote.mc_parts (a : Remote) :
    HasParts packMcCommand fd fun network => a.mc network fd := by
  cases a with
  | run => exact HasParts.code (.guarded .exchange)
  | stop =>
    simp only [mc, mcRemoteStop, writeExchange]
    exact HasParts.code .exchange
  | reset => exact HasParts.code (.guarded .exchange)
  | readPlcType type => exact HasParts.code (.guarded .exchange)

namespace Ascii

theorem readDeviceValue_parts {is_bit : Bool} (address : Option CString) (length : ℤ)
    (out : ByteArrayInfo) : HasParts packMcAsciiCommand fd fun network =>
      readDeviceValue network is_bit fd address length out :=
  .guarded (.analysed fun _ => .exchange)

theorem writeBoolValue_parts (address : Option CString) (length : ℤ) (data : BoolArrayInfo) :
    HasParts packMcAsciiCommand fd fun network => writeBoolValue network fd address length data :=
  .guarded (.analysed fun _ => .ofOption_bind _ fun _ => .exchange)

theorem writeWordValue_parts (address : Option CString) (length : ℤ) (data : ByteArrayInfo) :
    HasParts packMcAsciiCommand fd fun network => writeWordValue network fd address length data :=
  .guarded (.analysed fun _ => .ofOption_bind _ fun _ => .exchange)

theorem mcAsciiExecuteRawCommand_parts (raw_cmd : List Byte) (out : Option ByteArrayInfo) :
    HasParts packMcAsciiCommand fd fun network => mcAsciiExecuteRawCommand network fd raw_cmd out :=
  .guarded .exchange

end Ascii

open Ascii in
theorem Access.mcAscii_parts (address : Option CString) (a : Access) :
    HasParts packMcAsciiCommand fd fun network => a.mcAscii network fd address := by
  cases a with
  | readBool val =>
    refine HasParts.code (.guarded ?_)
    exact (readDeviceValue_parts _ _ _).bind fun _ => .convert
  | readValue T val =>
    simp only [mcAscii, T.mcAsciiRead_eq]
    exact HasParts.code (readValue_parts readDeviceValue_parts)
  | readString length range val =>
    refine HasParts.code (.guarded ?_)
    exact (readDeviceValue_parts _ _ _).bind fun _ => .convert
  | writeBool val => exact HasParts.code (.guarded (Ascii.writeBoolValue_parts _ _ _))
  | writeValue T val =>
    simp only [mcAscii, T.mcAsciiWrite_eq]
    exact HasParts.code (writeValue_parts Ascii.writeWordValue_parts)
  | writeString length range val =>
    cases val with
    | none => exact HasParts.code (.of_local (.ret _))
    | some val =>
      exact HasParts.code (.guarded (.allocated (Ascii.writeWordValue_parts _ _ _)))

open Ascii in
theorem Remote.mcAscii_parts (a : Remote) :
    HasParts packMcAsciiCommand fd fun network => a.mcAscii network fd := by
  cases a with
  | run | stop | reset => exact HasParts.code (mcAsciiExecuteRawCommand_parts _ _)
  | readPlcType type =>
    refine HasParts.code (.guarded ((mcAsciiExecuteRawCommand_parts _ _).bind fun result => ?_))
    exact .ite (.ret _) ((Call.IsLocal.ofOption _).bind fun _ => .ret _)

end Functions

end MelsecMc
