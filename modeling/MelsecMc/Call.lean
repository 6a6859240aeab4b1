import MelsecMc.Ascii
import MelsecMc.Binary

/-!
# Calls of the library

A public function checks its arguments, builds one request, hands it to
`mc_send_and_receive_transaction` and evaluates the response. A `Call` is that
computation with the transaction left open: it stops with a result, hands a
request over and continues with the result of the transaction, or accesses
memory that is not its own.
-/
namespace MelsecMc

/-- The two protocol modules. -/
inductive Module where
  | binary
  | ascii
  deriving DecidableEq, Repr

def Module.protocol : Module → Protocol
  | binary => binaryProtocol
  | ascii => asciiProtocol

/-- What `mc_send_and_receive_transaction` returns and stores. -/
structure Transacted where
  code : ErrorCode
  response : Response
  recvSize : ℤ
  deriving DecidableEq, Repr

inductive Call (α : Type) where
  | fault
  | ret (a : α)
  | transact (fd : ℤ) (cmd : ByteArrayInfo) (next : Transacted → Call α)

namespace Call

variable {α β : Type}

def bind : Call α → (α → Call β) → Call β
  | fault, _ => fault
  | ret a, f => f a
  | transact fd cmd next, f => transact fd cmd fun r => (next r).bind f

instance : Monad Call where
  pure := ret
  bind := bind

@[simp] theorem pure_eq (a : α) : (pure a : Call α) = ret a := rfl

@[simp] theorem ret_bind (a : α) (f : α → Call β) : (ret a >>= f) = f a := rfl

@[simp] theorem fault_bind (f : α → Call β) : ((fault : Call α) >>= f) = fault := rfl

@[simp] theorem transact_bind (fd : ℤ) (cmd : ByteArrayInfo) (next : Transacted → Call α)
    (f : α → Call β) :
    (transact fd cmd next >>= f) = transact fd cmd fun r => next r >>= f := rfl

/-- An access that may be outside its buffer. -/
def ofOption : Option α → Call α
  | none => fault
  | some a => ret a

@[simp] theorem ofOption_some (a : α) : ofOption (some a) = ret a := rfl

@[simp] theorem ofOption_none : ofOption (none : Option α) = fault := rfl

/-- The request that is handed over. -/
def request : Call α → Option ByteArrayInfo
  | transact _ cmd _ => some cmd
  | _ => none

/-- The result when the transaction ends with `r`. -/
def answer (r : Transacted) : Call α → Option α
  | fault => none
  | ret a => some a
  | transact _ _ next => (next r).answer r

/-- The call stays inside its buffers until it hands over a request with `S`, or ends without
one and with a result with `R`. -/
def Opens (S : ByteArrayInfo → Prop) (R : α → Prop) : Call α → Prop
  | fault => False
  | ret a => R a
  | transact _ cmd _ => S cmd

/-- Every request that the call may hand over has `S`. -/
def Requests (S : ℤ → ByteArrayInfo → Prop) : Call α → Prop
  | transact fd cmd next => S fd cmd ∧ ∀ r, (next r).Requests S
  | _ => True

@[simp] theorem opens_bind (S : ByteArrayInfo → Prop) (R : β → Prop) (c : Call α)
    (f : α → Call β) : (c >>= f).Opens S R ↔ c.Opens S fun a => (f a).Opens S R := by
  cases c <;> rfl

theorem Opens.mono {S S' : ByteArrayInfo → Prop} {R : α → Prop} {c : Call α}
    (h : c.Opens S R) (hS : ∀ cmd, S cmd → S' cmd) : c.Opens S' R := by
  cases c with
  | fault => exact h
  | ret a => exact h
  | transact fd cmd next => exact hS cmd h

/-- A call makes at most one transaction, so all parts of it see the same answer. -/
@[simp] theorem answer_bind (c : Call α) (f : α → Call β) (r : Transacted) :
    (c >>= f).answer r = (c.answer r).bind fun a => (f a).answer r := by
  induction c with
  | fault => rfl
  | ret a => rfl
  | transact fd cmd next ih => exact ih r

@[simp] theorem answer_ret (a : α) (r : Transacted) : (ret a).answer r = some a := rfl

theorem answer_ofOption (o : Option α) (r : Transacted) : (ofOption o).answer r = o := by
  cases o <;> rfl

/-- Without a request no transaction matters. -/
theorem answer_of_no_request {c : Call α} (h : c.request = none) (r r' : Transacted) :
    c.answer r = c.answer r' := by
  cases c with
  | fault => rfl
  | ret a => rfl
  | transact fd cmd next => cases h

/-- A continuation that makes no transaction of its own leaves the request as it is. -/
theorem request_bind {c : Call α} {f : α → Call β} (hf : ∀ a, (f a).request = none) :
    (c >>= f).request = c.request := by
  cases c with
  | fault => rfl
  | ret a => exact hf a
  | transact fd cmd next => rfl

theorem request_ofOption_bind (o : Option α) {f : α → Call β} (hf : ∀ a, (f a).request = none) :
    (ofOption o >>= f).request = none := by
  cases o with
  | none => rfl
  | some a => exact hf a

theorem Requests.bind {S : ℤ → ByteArrayInfo → Prop} {c : Call α} {f : α → Call β}
    (hc : c.Requests S) (hf : ∀ a, (f a).Requests S) : (c >>= f).Requests S := by
  induction c with
  | fault => trivial
  | ret a => exact hf a
  | transact fd cmd next ih => exact ⟨hc.1, fun r => ih r (hc.2 r)⟩

theorem requests_ofOption (S : ℤ → ByteArrayInfo → Prop) (o : Option α) :
    (ofOption o).Requests S := by
  cases o <;> trivial

end Call

/-- `mc_send_and_receive_transaction`, up to its own parameter check. -/
def mcSendAndReceiveTransaction (fd : ℤ) (cmd : ByteArrayInfo) : Call Transacted :=
  if fd ≤ 0 ∨ cmd.data.isNone ∨ cmd.length ≤ 0 then .ret ⟨.invalidParameter, .zero, 0⟩
  else .transact fd cmd .ret

/-- `mc_analysis_address` as the public functions use it. -/
def analysed {β : Type} (address : Option CString) (length : ℤ) (out : β)
    (next : MelsecMcAddressData → Call (ErrorCode × β)) : Call (ErrorCode × β) :=
  match mcAnalysisAddress address length with
  | none => .fault
  | some none => .ret (.parseAddressFailed, out)
  | some (some address_data) => next address_data

/-- What follows a transaction: its error, or the evaluation of the response. `min_size` is the
least `recv_size` that is not refused, 0 where nothing is checked. -/
def evaluate {β : Type} (min_size : ℕ) (out : β)
    (parse : ByteArrayInfo → Option (ErrorCode × β)) (r : Transacted) : Call (ErrorCode × β) :=
  if r.code ≠ .success then do
    .ofOption (releaseData r.response.data)
    return (r.code, out)
  else if r.recvSize < min_size then do
    .ofOption (releaseData r.response.data)
    return (.responseHeaderFailed, out)
  else do
    let response ← .ofOption r.response.view
    .ofOption (parse response)

/-- The end of every request: pack the core command, make the transaction, evaluate the
response. -/
def exchange {β : Type} (pack : ByteArrayInfo → PlcNetworkAddress → Option ByteArrayInfo)
    (min_size : ℕ) (network : PlcNetworkAddress) (fd : ℤ) (core_cmd : ByteArrayInfo) (out : β)
    (parse : ByteArrayInfo → Option (ErrorCode × β)) : Call (ErrorCode × β) :=
  if core_cmd.data.isNone then .ret (.buildCoreCmdFailed, out)
  else do
    let cmd ← .ofOption (pack core_cmd network)
    if cmd.data.isNone then return (.buildCoreCmdFailed, out)
    else
      let r ← mcSendAndReceiveTransaction fd cmd
      evaluate min_size out parse r

/-- A transaction that returned the frame. -/
def Transacted.ofFrame (frame : List Byte) : Transacted :=
  ⟨.success, .ofFrame frame, frame.length⟩

section Exchange

variable {β : Type} {pack : ByteArrayInfo → PlcNetworkAddress → Option ByteArrayInfo}
  {min_size : ℕ} {network : PlcNetworkAddress} {fd : ℤ} {core_cmd : ByteArrayInfo} {out : β}
  {parse : ByteArrayInfo → Option (ErrorCode × β)}

theorem evaluate_ofFrame {frame : List Byte} (h : min_size ≤ frame.length) :
    evaluate min_size out parse (.ofFrame frame) = .ofOption (parse (.ofList frame)) := by
  have hmin : ¬ ((frame.length : ℤ) < min_size) := by omega
  simp [evaluate, Transacted.ofFrame, hmin]

/-- A request that could be packed is handed over. -/
theorem exchange_packed {core frame : List Byte} (hfd : 0 < fd)
    (hp : pack (.ofList core) network = some (.ofList frame)) (h0 : frame ≠ []) :
    exchange pack min_size network fd (.ofList core) out parse =
      .transact fd (.ofList frame) (evaluate min_size out parse) := by
  have hpos := List.length_pos_iff.mpr h0
  have hok : ¬ (fd ≤ 0 ∨ (ByteArrayInfo.ofList frame).data.isNone = true ∨
      (ByteArrayInfo.ofList frame).length ≤ 0) := by
    simp only [ByteArrayInfo.ofList_data, ByteArrayInfo.ofList_length, Option.isNone_some,
      Bool.false_eq_true, false_or]
    omega
  simp only [exchange, hp, Call.ofOption_some, Call.ret_bind, mcSendAndReceiveTransaction]
  rw [if_neg hok]
  rfl

theorem exchange_none (h : core_cmd.data = none) :
    exchange pack min_size network fd core_cmd out parse = .ret (.buildCoreCmdFailed, out) := by
  simp [exchange, h]

theorem exchange_unpacked (hp : pack core_cmd network = some .empty) :
    exchange pack min_size network fd core_cmd out parse = .ret (.buildCoreCmdFailed, out) := by
  rw [exchange]
  split
  · rfl
  · simp [hp]

theorem exchange_opens {S : ByteArrayInfo → Prop} {R : ErrorCode × β → Prop}
    {core frame : List Byte}
    (hfd : 0 < fd) (hp : pack (.ofList core) network = some (.ofList frame)) (h0 : frame ≠ []) :
    (exchange pack min_size network fd (.ofList core) out parse).Opens S R ↔
      S (.ofList frame) := by
  rw [exchange_packed hfd hp h0]
  rfl

/-- What holds when a request was handed over. -/
theorem exchange_of_request (h : (exchange pack min_size network fd core_cmd out parse).request ≠
      none) : ∃ cmd, pack core_cmd network = some cmd ∧ 0 < fd ∧
    exchange pack min_size network fd core_cmd out parse =
      .transact fd cmd (evaluate min_size out parse) := by
  unfold exchange at h ⊢
  split at h
  · exact absurd rfl h
  · rename_i hcore
    rw [if_neg hcore]
    cases hp : pack core_cmd network with
    | none => exact absurd (by rw [hp]; rfl) h
    | some cmd =>
      rw [hp] at h
      simp only [Call.ofOption_some, Call.ret_bind] at h ⊢
      split at h
      · exact absurd rfl h
      · rename_i hcmd
        unfold mcSendAndReceiveTransaction at h ⊢
        split at h
        · exact absurd rfl h
        · rename_i hok
          rw [if_neg hcmd, if_neg hok]
          exact ⟨cmd, rfl, by omega, rfl⟩

/-- The evaluation of a response frame, when a request was handed over. -/
theorem exchange_answer
    (h : (exchange pack min_size network fd core_cmd out parse).request ≠ none)
    {frame : List Byte} (hf : min_size ≤ frame.length) :
    (exchange pack min_size network fd core_cmd out parse).answer (.ofFrame frame) =
      parse (.ofList frame) := by
  obtain ⟨cmd, -, -, he⟩ := exchange_of_request h
  rw [he]
  change (evaluate min_size out parse (.ofFrame frame)).answer _ = _
  rw [evaluate_ofFrame hf, Call.answer_ofOption]

theorem evaluate_failed {r : Transacted} (hr : r.code ≠ .success) {r' : Transacted}
    {result : ErrorCode × β} (h : (evaluate min_size out parse r).answer r' = some result) :
    result.1 ≠ .success := by
  rw [evaluate, if_pos hr] at h
  cases hd : releaseData r.response.data with
  | none =>
    rw [hd] at h
    cases h
  | some u =>
    rw [hd] at h
    obtain rfl := Option.some.inj h
    exact hr

/-- A transaction that failed is never reported as a success. -/
theorem exchange_failed {r : Transacted} (hr : r.code ≠ .success) {result : ErrorCode × β}
    (h : (exchange pack min_size network fd core_cmd out parse).answer r = some result) :
    result.1 ≠ .success := by
  have hbuild : some (ErrorCode.buildCoreCmdFailed, out) = some result → result.1 ≠ .success := by
    intro heq
    obtain rfl := Option.some.inj heq
    simp
  unfold exchange at h
  split at h
  · exact hbuild h
  · cases hp : pack core_cmd network with
    | none =>
      rw [hp] at h
      cases h
    | some cmd =>
      rw [hp] at h
      simp only [Call.ofOption_some, Call.ret_bind] at h
      split at h
      · exact hbuild h
      · unfold mcSendAndReceiveTransaction at h
        split at h
        · rw [Call.ret_bind] at h
          exact evaluate_failed (by simp) h
        · exact evaluate_failed hr h

/-- An address is reported, or what follows it. -/
theorem analysed_failed {address : Option CString} {length : ℤ}
    {next : MelsecMcAddressData → Call (ErrorCode × β)} {r : Transacted}
    {result : ErrorCode × β}
    (hnext : ∀ address_data, (next address_data).answer r = some result → result.1 ≠ .success)
    (h : (analysed address length out next).answer r = some result) : result.1 ≠ .success := by
  unfold analysed at h
  split at h
  · cases h
  · obtain rfl := Option.some.inj h
    simp
  · exact hnext _ h

theorem analysed_of_request {address : Option CString} {length : ℤ}
    {next : MelsecMcAddressData → Call (ErrorCode × β)}
    (h : (analysed address length out next).request ≠ none) :
    ∃ address_data, mcAnalysisAddress address length = some (some address_data) ∧
      analysed address length out next = next address_data := by
  unfold analysed at h ⊢
  split at h
  · exact absurd rfl h
  · exact absurd rfl h
  · rename_i address_data ha
    exact ⟨address_data, ha, rfl⟩

end Exchange

end MelsecMc
