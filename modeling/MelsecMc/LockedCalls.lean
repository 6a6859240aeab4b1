import MelsecMc.Addressing
import MelsecMc.LockPrograms
import MelsecMc.SendPhase
import MelsecMc.TxLocks

/-!
# The public calls as programs that lock

The functions of one protocol module and of socket.c, with every step that other
threads can see: locking, unlocking, a `send` or `recv`, the tables and the global
address, opening and closing a socket. What a call computes by itself is no step.
An interrupted `send` or `recv` is repeated and changes nothing, so it is no step
either. `thread_safe_initialized` is set before the run.
-/
namespace MelsecMc.Locked

/-- The mutexes of the slots, and `g_connection_mutex`. -/
inductive Mutex where
  | tx (i : Fin maxTxConnections)
  | g
  deriving DecidableEq

/-- What `recv` returns: at least one byte, zero, or an error. -/
inductive RecvReturn where
  | data (byte : Byte) (bytes : List Byte)
  | closed
  | failed

/-- What threads do to shared data. `send` gets the bytes that are left, `recv` the number of
bytes that are wanted. `fault` is an access outside a buffer. -/
inductive SharedAct where
  | network
  | setNetwork (address : PlcNetworkAddress)
  | getOrCreate (fd : ℤ)
  | find (fd : ℤ)
  | config (fd : ℤ)
  | send (fd : ℤ) (bytes : List Byte)
  | recv (fd : ℤ) (wanted : ℕ)
  | malloc
  | openSocket (destIp : Option CString) (destPort : ℤ)
  | closeSocket (fd : ℤ)
  | fault

/-- A `send` that accepts `k + 1` bytes returns `some k`. Nothing follows a fault. -/
def SharedReturn : SharedAct → Type
  | .network => PlcNetworkAddress
  | .setNetwork _ => Unit
  | .getOrCreate _ | .find _ => Option (Fin maxTxConnections)
  | .config _ => ℤ
  | .send _ _ => Option ℕ
  | .recv _ _ => RecvReturn
  | .malloc => Bool
  | .openSocket _ _ => ℤ
  | .closeSocket _ => Unit
  | .fault => Empty

/-- The global address and `g_tx_connection_locks` of the module, the connection that is open
under each descriptor, and the number of connections opened so far. -/
structure Process where
  network : PlcNetworkAddress
  locks : TxLocks
  connection : ℤ → Option ℕ
  opened : ℕ

namespace Process

/-- Static storage, and no open connection. -/
def initial : Process := ⟨⟨0, 0⟩, .initial, fun _ => none, 0⟩

/-- A new connection gets a descriptor that is not open. -/
def opens (s : Process) (fd : ℤ) (s' : Process) : Prop :=
  if fd < 0 then s' = s
  else s.connection fd = none ∧
    s' = { s with connection := Function.update s.connection fd (some s.opened),
                  opened := s.opened + 1 }

/-- What an action returns in the state `s`, and the state behind it. -/
def effect (s : Process) (a : SharedAct) (x : SharedReturn a) (s' : Process) : Prop :=
  match a, x with
  | .network, address => s' = s ∧ address = s.network
  | .setNetwork address, _ => s' = { s with network := address }
  | .getOrCreate fd, slot => ∃ mutexInit, s' = { s with
        locks := (s.locks.mcGetOrCreateFdTxMutexLocked fd mutexInit).1 } ∧
      slot = (s.locks.mcGetOrCreateFdTxMutexLocked fd mutexInit).2
  | .find fd, slot => s' = s ∧ slot = s.locks.find fd
  | .config _, _ => s' = s
  | .send fd _, accepted => s' = s ∧ (accepted.isSome → (s.connection fd).isSome)
  | .recv fd wanted, .data _ bytes =>
    s' = s ∧ (s.connection fd).isSome ∧ bytes.length < wanted
  | .recv _ _, _ => s' = s
  | .malloc, _ => s' = s
  | .openSocket destIp destPort, fd =>
    ∃ answer, fd = mcOpenTcpClientSocket destIp destPort answer ∧ s.opens fd s'
  | .closeSocket fd, _ => s' = { s with connection := Function.update s.connection fd none }

end Process

abbrev Program := LockProgram Mutex SharedAct SharedReturn

open LockProgram (locking unlocking act)

/-- One action. -/
def perform (a : SharedAct) : Program (SharedReturn a) := .acting a

/-- An access that may be outside its buffer. -/
def ofOption {α : Type} : Option α → Program α
  | none => act .fault nofun
  | some a => .ret a

/-- `mc_lock_fd_transaction`. -/
def mcLockFdTransaction (fd : ℤ) : Program ErrorCode :=
  if fd ≤ 0 then return .invalidParameter
  else do
    locking .g
    let tx_mutex : Option (Fin maxTxConnections) ← perform (.getOrCreate fd)
    unlocking .g
    match tx_mutex with
    | none => return .failed
    | some i =>
      locking (.tx i)
      return .success

/-- `mc_unlock_fd_transaction`. -/
def mcUnlockFdTransaction (fd : ℤ) : Program ErrorCode :=
  if fd ≤ 0 then return .invalidParameter
  else do
    locking .g
    let tx_mutex : Option (Fin maxTxConnections) ← perform (.find fd)
    unlocking .g
    match tx_mutex with
    | none => return .failed
    | some i =>
      unlocking (.tx i)
      return .success

/-- The loop of `mc_write_msg` over the bytes that are left, `false` when `send` fails. -/
def writeLoop (fd : ℤ) : List Byte → Program Bool
  | [] => return true
  | b :: bytes => act (.send fd (b :: bytes)) fun
    | none => return false
    | some k => writeLoop fd (bytes.drop k)
termination_by left => left.length

/-- `mc_write_msg`. -/
def mcWriteMsg (fd : ℤ) (buf : List Byte) : Program ℤ :=
  if fd ≤ 0 ∨ buf = [] then return -1
  else do
    locking .g
    let written ← writeLoop fd buf
    if written then
      unlocking .g
      return buf.length
    else
      unlocking .g
      return -1

/-- Up to `n` attempts until one succeeds. -/
def retry (attempt : Program Bool) : ℕ → Program Bool
  | 0 => return false
  | n + 1 => do
    let ok ← attempt
    if ok then return true else retry attempt n

/-- `mc_try_send_msg`. -/
def mcTrySendMsg (fd : ℤ) (cmd : List Byte) : Program Bool :=
  if fd < 0 then return false
  else
    retry (do
      let real_sends ← mcWriteMsg fd cmd
      return real_sends = cmd.length) maxRetryTimes

/-- `mc_recv_exact`. -/
def mcRecvExact (fd : ℤ) : ℕ → Program (ErrorCode × List Byte)
  | 0 => return (.success, [])
  | n + 1 => act (.recv fd (n + 1)) fun
    | .closed => return (.connectionClosed, [])
    | .failed => return (.socketRecvFailed, [])
    | .data byte bytes => do
      let (ret, rest) ← mcRecvExact fd (n - bytes.length)
      return (ret, byte :: bytes ++ rest)
termination_by bytes_to_read => bytes_to_read

/-- `mc_read_response` and `mc_ascii_read_response`. -/
def readResponse (P : Protocol) (fd : ℤ) : Program (ErrorCode × Response) :=
  if fd ≤ 0 then return (.invalidParameter, .zero)
  else do
    let (ret, header) ← mcRecvExact fd P.response.header
    if ret ≠ .success then return (ret, .zero)
    else
      match P.response.total header with
      | none => return (.responseHeaderFailed, .zero)
      | some total_len =>
        let allocated : Bool ← perform .malloc
        if allocated then
          let (ret, payload) ← mcRecvExact fd (total_len - P.response.header)
          if ret ≠ .success then return (ret, P.abandoned .zero)
          else return (.success, ⟨.live (header ++ payload), total_len⟩)
        else return (.mallocFailed, .zero)

/-- The sending and receiving of a transaction. -/
def transfer (P : Protocol) (fd : ℤ) (cmd : ByteArrayInfo) : Program (ErrorCode × Response) := do
  let retry_count : ℤ ← perform (.config fd)
  let bytes ← ofOption (cmd.data.bind (memcpy · cmd.length))
  let send_ret ← retry (mcTrySendMsg fd bytes) (retry_count + 1).toNat
  if send_ret then readResponse P fd else return (.socketSendFailed, .zero)

/-- `mc_send_and_receive_transaction`. -/
def mcSendAndReceiveTransaction (P : Protocol) (fd : ℤ) (cmd : ByteArrayInfo) :
    Program Transacted :=
  if fd ≤ 0 ∨ cmd.data.isNone ∨ cmd.length ≤ 0 then return ⟨.invalidParameter, .zero, 0⟩
  else do
    let ret ← mcLockFdTransaction fd
    if ret ≠ .success then return ⟨ret, .zero, 0⟩
    else
      let (ret, response) ← transfer P fd cmd
      let unlock_ret ← mcUnlockFdTransaction fd
      return ⟨if ret = .success ∧ unlock_ret ≠ .success then unlock_ret else ret, response,
        response.length⟩

/-- The body of both connects, up to what they make of the descriptor. -/
def connectWith (result : ℤ → ℤ) (ip_addr : Option CString) (port : ℤ)
    (numbers : PlcNetworkAddress) : Program ℤ :=
  if ip_addr.isNone ∨ port ≤ 0 then return -1
  else do
    locking .g
    let _ ← perform (.setNetwork numbers)
    unlocking .g
    let fd : ℤ ← perform (.openSocket ip_addr port)
    return result fd

/-- `mc_connect`. -/
def mcConnect := connectWith fun fd => if fd ≤ 0 then -1 else fd

/-- `mc_ascii_connect`. -/
def mcAsciiConnect := connectWith id

/-- `mc_disconnect` and `mc_ascii_disconnect`. -/
def mcDisconnect (fd : ℤ) : Program Bool :=
  if fd ≤ 0 then return false
  else do
    locking .g
    let _ ← perform (.closeSocket fd)
    unlocking .g
    return true

/-- `pack_mc_command` or `pack_mc_ascii_command`, with the global address as arguments. -/
def pack (m : Module) (core_cmd : ByteArrayInfo) : Program ByteArrayInfo := do
  let network : PlcNetworkAddress ← perform .network
  let allocated : Bool ← perform .malloc
  if allocated then ofOption (m.pack core_cmd network) else return .empty

/-- Packing inside `g_connection_mutex`. `mc_remote_stop` alone does not lock it. -/
def lockedPack (m : Module) (locks : Bool) (core_cmd : ByteArrayInfo) : Program ByteArrayInfo :=
  if locks then do
    locking .g
    let cmd ← pack m core_cmd
    unlocking .g
    return cmd
  else pack m core_cmd

/-- A public function with a request. -/
def requestWith (m : Module) (parts : RequestParts ErrorCode) (locks : Bool) (fd : ℤ) :
    Program ErrorCode := do
  let prepared ← ofOption parts.prepare
  match prepared with
  | .error code => return code
  | .ok core_cmd =>
    let cmd ← lockedPack m locks core_cmd
    if cmd.data.isNone then ofOption parts.unpacked
    else
      let r ← mcSendAndReceiveTransaction m.protocol fd cmd
      ofOption (parts.finish r)

/-- A call of a public function of one module. For a request, `parts` is anything that the
function may do by itself with its arguments, its memory and the answer. -/
inductive PublicCall where
  | connect (ip_addr : Option CString) (port : ℤ) (numbers : PlcNetworkAddress)
  | disconnect (fd : ℤ)
  | request (parts : RequestParts ErrorCode) (locks : Bool) (fd : ℤ)

/-- What a public function returns. -/
inductive Returned where
  | descriptor (fd : ℤ)
  | closed (ok : Bool)
  | code (code : ErrorCode)

/-- `mc_connect` or `mc_ascii_connect`. -/
def connect : Module → Option CString → ℤ → PlcNetworkAddress → Program ℤ
  | .binary => mcConnect
  | .ascii => mcAsciiConnect

def PublicCall.program (m : Module) : PublicCall → Program Returned
  | connect ip_addr port numbers => do
    let fd ← Locked.connect m ip_addr port numbers
    return .descriptor fd
  | disconnect fd => do
    let ok ← mcDisconnect fd
    return .closed ok
  | request parts locks fd => do
    let code ← requestWith m parts locks fd
    return .code code

/-- The requests among them are those of the public functions. -/
theorem operation_parts (op : Operation) (fd : ℤ) :
    HasParts op.module.pack fd fun network => op.call network fd := by
  cases op with
  | mc address access => exact access.mc_parts address
  | mcBatch address access => exact access.mc_parts address
  | mcRemote remote => exact remote.mc_parts
  | mcAscii address access => exact access.mcAscii_parts address
  | mcAsciiRemote remote => exact remote.mcAscii_parts

end MelsecMc.Locked
