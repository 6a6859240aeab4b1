import MelsecMc.BatchSizes
import MelsecMc.PlcMemory
import MelsecMc.TypedAccesses

/-!
# Threads that read and write the devices of a PLC

Threads call the public functions with arguments that these accept and whose requests
say what was asked for. The PLC carries out the commands in the requests, as an object
on which each command is one operation. Then the functions too are operations on that
object: whatever the connections and the order of steps, their calls are linearizable,
on at most 64 connections, while no `send` or `recv` fails or times out.
-/
namespace MelsecMc

open scoped List

/-- A call that reads or writes a device, and the `retry_count` that it finds configured. The
arguments are accepted, and the request says what was asked for and leaves room for the response,
which the functions do not check by themselves. -/
structure DeviceCall (m : Module) where
  fd : ℤ
  network : PlcNetworkAddress
  retryCount : ℤ
  address : CString
  device : MelsecMcDataType
  start : ℕ
  access : TypedAccess m
  fd_pos : 0 < fd
  retries : 0 ≤ retryCount
  names : Names address device start
  nonempty : access.Nonempty
  sendable : (access.command device start).Sendable m
  fits : m.Fits (access.command device start)

namespace DeviceCall

variable {m : Module} (c : DeviceCall m)

def command : Command := c.access.command c.device c.start

/-- A code, and the value that is stored, if any. -/
abbrev Outcome : Type := ErrorCode × Option c.access.Result

/-- The public function. -/
def call : Call c.Outcome := c.access.call c.network c.fd (some c.address)

/-- Its transaction. -/
def job : Job := ⟨c.fd, m.request c.network c.command, c.retryCount⟩

/-- What an answer of the PLC is for the caller. -/
def outcome : c.command.Answer → c.Outcome
  | .ok data => (.success, some (c.access.result c.device c.start data))
  | .error _ => (.failed, none)

/-- What the function makes of its transaction. Where it leaves a buffer, it is nothing. -/
def returns (r : ErrorCode × List Byte) : Option c.Outcome :=
  c.call.answer ⟨r.1, .ofFrame r.2, r.2.length⟩

theorem command_job : m.command c.job.cmd = some c.command :=
  (c.sendable.request c.network).1

theorem job_valid {fds : Finset ℤ} (h : c.fd ∈ fds) : c.job.Valid m.protocol fds :=
  ⟨h, (c.sendable.request c.network).2, c.retries⟩

theorem call_serves : c.call.Serves m c.network c.fd c.command
    (Delivers (c.access.result c.device c.start)) :=
  TypedAccess.call_serves c.fd_pos c.names c.access c.sendable c.fits c.nonempty

/-- The function makes of a response the outcome of the answer in it. -/
theorem returns_of_encodes {answer : c.command.Answer} {response : List Byte}
    (h : m.Encodes answer response) : c.returns (.success, response) = some (c.outcome answer) := by
  obtain ⟨next, hcall, hnext⟩ := c.call_serves
  obtain ⟨result, hresult, hdelivers⟩ := hnext answer response h
  have houtcome : result = c.outcome answer := by
    cases answer with
    | ok data => exact hdelivers
    | error code => exact hdelivers
  rw [returns, hcall, ← houtcome]
  exact hresult

end DeviceCall

theorem names_D100 : Names registerD100 deviceD 100 :=
  ⟨⟨'D', none, deviceD⟩, by decide, text ['D'], by decide, text ['1', '0', '0'], by decide,
    by decide, rfl, by decide⟩

/-- A call of `mc_write_short` and one of `mc_read_short`, on two connections. -/
def writeD100 : DeviceCall .binary where
  fd := 3
  network := ⟨0, 0⟩
  retryCount := 3
  address := registerD100
  device := deviceD
  start := 100
  access := .writeValue .short 7
  fd_pos := by decide
  retries := by decide
  names := names_D100
  nonempty := trivial
  sendable := ⟨by decide, by decide, by decide⟩
  fits := Module.fits_writeWords _ _ _ _

def readD100 : DeviceCall .binary where
  fd := 4
  network := ⟨0, 0⟩
  retryCount := 3
  address := registerD100
  device := deviceD
  start := 100
  access := .readValue .short
  fd_pos := by decide
  retries := by decide
  names := names_D100
  nonempty := trivial
  sendable := ⟨by decide, by decide, by decide⟩
  fits := Module.fits_readWords _ _ (by decide)

/-- Every function that reads or writes devices, in either module, hands exactly one request over,
when it is called as in `DeviceCall`. The request is a frame that says what the command of the
access says. However the transaction ends, no other request follows, and of every response to it the
function makes the value that the data stands for, or `mc_error_failed` where the PLC refused. -/
theorem device_calls_served {m : Module} (c : DeviceCall m) :
    ∃ next, c.call = .transact c.fd (.ofList c.job.cmd) next ∧ (∀ r, (next r).IsLocal) ∧
      FramedStream.IsFrame m.protocol.request c.job.cmd ∧
      m.command c.job.cmd = some c.command ∧
      ∀ answer response, m.Encodes answer response →
        next (.ofFrame response) = .ret (c.outcome answer) := by
  obtain ⟨next, hcall, -⟩ := c.call_serves
  have honce : c.call.Once := c.access.call_once c.network c.fd (some c.address) c.sendable
  rw [hcall] at honce
  refine ⟨next, hcall, honce, (c.sendable.request c.network).2, c.command_job,
    fun answer response h => ?_⟩
  have hreturns := c.returns_of_encodes h
  rw [DeviceCall.returns, hcall] at hreturns
  obtain ⟨o, ho⟩ := honce (.ofFrame response)
  have hanswer : (next (.ofFrame response)).answer (.ofFrame response) = some (c.outcome answer) :=
    hreturns
  rw [ho, Call.answer_ofOption] at hanswer
  rw [ho, hanswer, Call.ofOption_some]

/-- The read of D100 in a PLC that answers with the word 0x1234, and one that refuses. -/
theorem device_calls_served_D100 :
    ∃ next, readD100.call = .transact 4 (.ofList readD100.job.cmd) next ∧
      (∀ r, (next r).IsLocal) ∧
      next (.ofFrame [0xD0, 0, 0, 0xFF, 0xFF, 3, 0, 4, 0, 0, 0, 0x34, 0x12]) =
        .ret (.success, some (0x1234 : BitVec 16)) ∧
      next (.ofFrame [0xD0, 0, 0, 0xFF, 0xFF, 3, 0, 2, 0, 0x51, 0xC0]) = .ret (.failed, none) := by
  obtain ⟨next, hcall, hlocal, -, -, hanswer⟩ := device_calls_served readD100
  refine ⟨next, hcall, hlocal, ?_, ?_⟩
  · exact hanswer (.ok ⟨[0x1234], rfl⟩) _ ⟨[0xD0, 0, 0, 0xFF, 0xFF, 3, 0], rfl, rfl⟩
  · exact hanswer (.error ⟨0xC051, by decide⟩) _
      ⟨[0xD0, 0, 0, 0xFF, 0xFF, 3, 0], [], rfl, by decide, rfl⟩

/-- The PLC as the caller of the functions sees it. -/
def DeviceObject.called {σ : Type*} (O : DeviceObject σ) (m : Module) :
    SeqObject σ (DeviceCall m) fun c => Option c.Outcome where
  apply c s := (some (c.outcome (O.apply c.command s).1), (O.apply c.command s).2)

section Called

variable {m : Module} {T τ σ : Type*}

/-- What is seen of the calls that the threads make. -/
def calledHistory (calls : T → List (DeviceCall m)) (h : List (FrameEvent T)) :
    List (CallEvent (T × ℕ) (DeviceCall m) fun c => Option c.Outcome) :=
  h.filterMap (CallEvent.seenAs (fun k => (calls k.1)[k.2]?) fun c x => c.returns x.2)

variable [DecidableEq T] {D : Device m.protocol τ} {O : DeviceObject σ} {abs : τ → σ} {plc : τ}
  {calls : T → List (DeviceCall m)} {fds : Finset ℤ} {s : ServedState T τ}

omit [DecidableEq T] in
theorem jobs_valid (hfds : ∀ t, ∀ c ∈ calls t, c.fd ∈ fds) (t : T) :
    ∀ j ∈ (calls t).map DeviceCall.job, j.Valid m.protocol fds := by
  intro j hj
  obtain ⟨c, hc, rfl⟩ := List.mem_map.mp hj
  exact c.job_valid (hfds t c hc)

/-- The calls of the functions are served where their transactions are. -/
theorem called_pointed (hD : D.Implements O abs) (hcard : fds.card ≤ maxTxConnections)
    (hfds : ∀ t, ∀ c ∈ calls t, c.fd ∈ fds)
    (hs : (servedThreads D plc fun t => (calls t).map DeviceCall.job).Reachable s) :
    (O.called m).Pointed (abs plc) (calledHistory calls s.history) (abs s.plc) := by
  have hrec := servedThreads_recorded (jobs_valid hfds) hcard hs
  refine hrec.pointed.seenAs abs fun k i hi => ?_
  have hframe := (hrec.invoked k.1 k.2 i hi).2
  rw [threads_calls (servedThreads_threads hs), List.getElem?_map, Option.map_map] at hframe
  obtain ⟨c, hc, rfl⟩ := Option.map_eq_some_iff.mp hframe
  refine ⟨c, hc, fun plc => ?_⟩
  have hencodes := hD.encodes c.fd c.job.cmd c.command plc c.command_job c.fits
  exact ⟨c.returns_of_encodes hencodes, hD.state _ _ _ _ c.command_job c.fits⟩

/-- A call is seen to return what its function makes of the result of its transaction. -/
theorem mem_calledHistory_returned (hcard : fds.card ≤ maxTxConnections)
    (hfds : ∀ t, ∀ c ∈ calls t, c.fd ∈ fds)
    (hs : (servedThreads D plc fun t => (calls t).map DeviceCall.job).Reachable s) {t : T} {i : ℕ}
    {c : DeviceCall m} {r : Option c.Outcome} :
    .returned (t, i) c r ∈ calledHistory calls s.history ↔
      (calls t)[i]? = some c ∧ ∃ x, (s.threads.thread t).results[i]? = some x ∧
        r = c.returns x.2.result := by
  have hrec := servedThreads_recorded (jobs_valid hfds) hcard hs
  rw [calledHistory, SeqObject.mem_seenAs_returned]
  refine and_congr_right fun _ => ⟨?_, ?_⟩
  · rintro ⟨f, y, hy, rfl⟩
    obtain ⟨x, hx, he⟩ := Option.map_eq_some_iff.mp ((hrec.returned t i f y).mp hy)
    obtain ⟨rfl, rfl⟩ := Prod.mk.inj he
    exact ⟨x, hx, rfl⟩
  · rintro ⟨x, hx, rfl⟩
    exact ⟨x.1.frame, x.2.result, (hrec.returned t i _ _).mpr (by simp [hx]), rfl⟩

/-- A call of a thread is seen after the ones before it. -/
theorem called_program_order (hcard : fds.card ≤ maxTxConnections)
    (hfds : ∀ t, ∀ c ∈ calls t, c.fd ∈ fds)
    (hs : (servedThreads D plc fun t => (calls t).map DeviceCall.job).Reachable s) {t : T}
    {i k : ℕ} {b c : DeviceCall m} (hik : i < k) (hb : (calls t)[i]? = some b)
    (hc : .invoked (t, k) c ∈ calledHistory calls s.history) :
    ∃ r, [.returned (t, i) b r, .invoked (t, k) c] <+ calledHistory calls s.history := by
  obtain ⟨hk, f, hf⟩ := SeqObject.mem_seenAs_invoked.mp hc
  obtain ⟨g, r, hsub⟩ := servedThreads_program_order (jobs_valid hfds) hcard hs t i k f hik hf
  have hseen := hsub.filterMap (CallEvent.seenAs (fun k => (calls k.1)[k.2]?)
    fun c (x : Σ _ : ℤ × List Byte, ErrorCode × List Byte) => c.returns x.2)
  simp only [List.filterMap_cons, CallEvent.seenAs, hb, hk, Option.map_some,
    List.filterMap_nil] at hseen
  exact ⟨_, hseen⟩

/-- A call that is seen to return stayed in its buffers, and returned the outcome of an answer that
the PLC gave. -/
theorem called_outcome (hD : D.Implements O abs) (hcard : fds.card ≤ maxTxConnections)
    (hfds : ∀ t, ∀ c ∈ calls t, c.fd ∈ fds)
    (hs : (servedThreads D plc fun t => (calls t).map DeviceCall.job).Reachable s) {k : T × ℕ}
    {c : DeviceCall m} {r : Option c.Outcome}
    (hr : .returned k c r ∈ calledHistory calls s.history) :
    ∃ plc', r = some (c.outcome (O.apply c.command plc').1) :=
  (called_pointed hD hcard hfds hs).linearizable.answer_of_returned hr

/-- When all calls have returned, each is seen to have. -/
theorem called_returned (hcard : fds.card ≤ maxTxConnections)
    (hfds : ∀ t, ∀ c ∈ calls t, c.fd ∈ fds)
    (hs : (servedThreads D plc fun t => (calls t).map DeviceCall.job).Reachable s)
    (hfin : s.threads.Finished) {t : T} {i : ℕ} {c : DeviceCall m} (hc : (calls t)[i]? = some c) :
    ∃ r, .returned (t, i) c r ∈ calledHistory calls s.history := by
  have hall := congrArg (·[i]?) (servedThreads_finished hs hfin t)
  simp only [List.getElem?_map, hc, Option.map_some] at hall
  obtain ⟨x, hx, -⟩ := Option.map_eq_some_iff.mp hall
  exact ⟨_, (mem_calledHistory_returned hcard hfds hs).mpr ⟨hc, x, hx, rfl⟩⟩

end Called

/-- Threads that read and write devices with calls of `DeviceCall`, on at most 64 connections on
which no `send` or `recv` fails or times out: what is seen of their calls is linearizable with
respect to the commands, and each call returns the outcome of an answer. Until all calls have
returned some step is possible, every run ends, and then every call has returned. -/
theorem device_calls_linearizable (m : Module) {T τ σ : Type} [Fintype T] [DecidableEq T]
    (D : Device m.protocol τ) (O : DeviceObject σ) (abs : τ → σ) (hD : D.Implements O abs)
    (plc : τ) (fds : Finset ℤ) (hcard : fds.card ≤ maxTxConnections)
    (calls : T → List (DeviceCall m)) (hfds : ∀ t, ∀ c ∈ calls t, c.fd ∈ fds)
    {s : ServedState T τ}
    (hs : (servedThreads D plc fun t => (calls t).map DeviceCall.job).Reachable s) :
    (O.called m).Linearizable (abs plc) (calledHistory calls s.history) ∧
    (∀ k c r, .returned k c r ∈ calledHistory calls s.history →
      ∃ plc', r = some (c.outcome (O.apply c.command plc').1)) ∧
    (s.threads.Finished → ∀ t i c, (calls t)[i]? = some c →
      ∃ r, .returned (t, i) c r ∈ calledHistory calls s.history) ∧
    (s.threads.Finished ∨ ∃ s', ServedStep D s s') ∧
    Acc (fun s' s => ServedStep D s s') s := by
  exact ⟨(called_pointed hD hcard hfds hs).linearizable,
    fun k c r hr => called_outcome hD hcard hfds hs hr,
    fun hfin t i c hc => called_returned hcard hfds hs hfin hc,
    servedThreads_progress (jobs_valid hfds) hcard hs,
    servedThreads_terminates (jobs_valid hfds) hcard hs⟩

/-- One thread writes D100 and the other one reads it. -/
def callsD100 (t : Fin 2) : List (DeviceCall .binary) :=
  if t.val = 0 then [writeD100] else [readD100]

theorem callsD100_fds (t : Fin 2) : ∀ c ∈ callsD100 t, c.fd ∈ ({3, 4} : Finset ℤ) := by
  intro c hc
  unfold callsD100 at hc
  split_ifs at hc
  · obtain rfl := List.mem_singleton.mp hc
    decide
  · obtain rfl := List.mem_singleton.mp hc
    decide

theorem device_calls_linearizable_two :
    ∃ s : ServedState (Fin 2) Memory,
      (servedThreads (Memory.object.device .binary) .zero fun t =>
        (callsD100 t).map DeviceCall.job).Reachable s ∧
      (Memory.object.called .binary).Linearizable .zero (calledHistory callsD100 s.history) ∧
      ∃ r, .returned (1, 0) readD100 r ∈ calledHistory callsD100 s.history := by
  obtain ⟨s, hs, hfin⟩ := servedThreads_finishes (Memory.object.device .binary) .zero
    (jobs_valid callsD100_fds) (by decide)
  obtain ⟨hlin, -, hret, -⟩ := device_calls_linearizable .binary (Memory.object.device .binary)
    Memory.object id (Memory.object.device_implements .binary) .zero {3, 4} (by decide) callsD100
    callsD100_fds hs
  exact ⟨s, hs, hlin, hret hfin 1 0 readD100 rfl⟩

end MelsecMc
