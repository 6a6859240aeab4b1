import MelsecMc.LockSlots
import MelsecMc.LockedCalls
import MelsecMc.Transactions

/-!
# Calls that run alone

The programs that lock are a second form of the functions of socket.c and of the
transaction. While no other thread takes a step, they lock, send, receive and return
what the functions say that take the returns of `send` and `recv` as a list.
-/
namespace MelsecMc.Locked

open FramedStream

/-- What a program meets: the data of the module, the configured `retry_count`, the answer to
opening a socket, the returns of `send` and the bytes accepted so far, the returns of `recv` and
the bytes that arrive. -/
structure Surroundings where
  network : PlcNetworkAddress
  locks : TxLocks
  retryCount : ℤ
  socket : SocketAnswer
  sends : List SendEvent
  accepted : List Byte
  recvs : List Event
  stream : List Byte

/-- The next return of `send` that is not an interruption, `none` when it does not return. -/
def sendReturn : List SendEvent → Option (Option ℕ) × List SendEvent
  | [] => (none, [])
  | .interrupted :: events => sendReturn events
  | .failed :: events => (some none, events)
  | .accept k :: events => (some (some k), events)

/-- The next return of `recv` that is not an interruption, `none` when it does not return. -/
def recvReturn (wanted : ℕ) : List Event → List Byte → Option RecvReturn × List Event × List Byte
  | [], stream => (none, [], stream)
  | .interrupted :: events, stream => recvReturn wanted events stream
  | .closed :: events, stream => (some .closed, events, stream)
  | .failed :: events, stream => (some .failed, events, stream)
  | .deliver _ :: events, [] => (none, events, [])
  | .deliver k :: events, byte :: stream =>
    (some (.data byte (stream.take (min k (wanted - 1)))), events,
      stream.drop (min k (wanted - 1)))

namespace Surroundings

/-- What an action returns, `none` when it does not. -/
def answer (w : Surroundings) : (a : SharedAct) → Option (SharedReturn a) × Surroundings
  | .network => (some w.network, w)
  | .setNetwork address => (some (), { w with network := address })
  | .getOrCreate fd =>
    (some (w.locks.mcGetOrCreateFdTxMutexLocked fd true).2,
      { w with locks := (w.locks.mcGetOrCreateFdTxMutexLocked fd true).1 })
  | .find fd => (some (w.locks.find fd), w)
  | .config _ => (some w.retryCount, w)
  | .send _ bytes =>
    ((sendReturn w.sends).1, { w with
      sends := (sendReturn w.sends).2
      accepted := w.accepted ++
        ((sendReturn w.sends).1.join.elim [] fun k => bytes.take (k + 1)) })
  | .recv _ wanted =>
    ((recvReturn wanted w.recvs w.stream).1, { w with
      recvs := (recvReturn wanted w.recvs w.stream).2.1
      stream := (recvReturn wanted w.recvs w.stream).2.2 })
  | .malloc => (some true, w)
  | .openSocket destIp destPort => (some (mcOpenTcpClientSocket destIp destPort w.socket), w)
  | .closeSocket _ => (some (), w)
  | .fault => (none, w)

/-- The end of a sending loop. -/
def afterSending {ρ : Type} (w : Surroundings) (sent : Sending ρ) : Option ρ × Surroundings :=
  (sent.result, { w with sends := sent.events, accepted := w.accepted ++ sent.accepted })

/-- The end of a read. -/
def afterReading (w : Surroundings) (r : Reading Byte) : Surroundings :=
  { w with recvs := r.events, stream := r.rest }

end Surroundings

/-- What a program returns when it runs alone, and what is left. -/
def alone {α : Type} (p : Program α) (w : Surroundings) : Option α × Surroundings :=
  p.run (fun a w => w.answer a) w

section Steps

variable {α β : Type} {w w' : Surroundings} {a : SharedAct} {next : SharedReturn a → Program α}

theorem alone_bind (p : Program α) (f : α → Program β) (w : Surroundings) :
    alone (p >>= f) w =
      (alone p w).1.elim (none, (alone p w).2) fun a => alone (f a) (alone p w).2 :=
  LockProgram.run_bind ..

theorem alone_returns {x : SharedReturn a} (h : w.answer a = (some x, w')) :
    alone (.act a next) w = alone (next x) w' := by
  change (w.answer a).1.elim (none, (w.answer a).2)
    (fun x => alone (next x) (w.answer a).2) = _
  rw [h]
  rfl

theorem alone_waits (h : w.answer a = (none, w')) : alone (.act a next) w = (none, w') := by
  change (w.answer a).1.elim (none, (w.answer a).2)
    (fun x => alone (next x) (w.answer a).2) = _
  rw [h]
  rfl

end Steps

section Send

variable {fd : ℤ}

/-- `send` and its interruptions take the events in turn. -/
theorem writeLoop_alone (w : Surroundings) (left : List Byte) :
    alone (writeLoop fd left) w = w.afterSending (MelsecMc.writeLoop w.sends left) := by
  suffices h : ∀ (events : List SendEvent) (w : Surroundings),
      alone (writeLoop fd left) { w with sends := events } =
        w.afterSending (MelsecMc.writeLoop events left) from h w.sends w
  intro events
  induction events, left using MelsecMc.writeLoop.induct with
  | case1 events =>
    intro w
    rw [writeLoop, MelsecMc.writeLoop, Surroundings.afterSending, List.append_nil]
    rfl
  | case2 b bytes =>
    intro w
    rw [writeLoop, MelsecMc.writeLoop, Surroundings.afterSending]
    exact alone_waits rfl
  | case3 events b bytes ih =>
    intro w
    have hnext := ih w
    rw [MelsecMc.writeLoop, ← hnext, writeLoop]
    rfl
  | case4 events b bytes =>
    intro w
    rw [writeLoop, MelsecMc.writeLoop, Surroundings.afterSending]
    exact Eq.trans (alone_returns rfl) rfl
  | case5 k events b bytes ih =>
    intro w
    rw [writeLoop, MelsecMc.writeLoop]
    refine Eq.trans (alone_returns rfl) ?_
    refine (ih { w with accepted := w.accepted ++ (b :: bytes).take (k + 1) }).trans ?_
    simp only [Surroundings.afterSending, List.append_assoc]

theorem mcWriteMsg_alone (w : Surroundings) (buf : List Byte) :
    alone (mcWriteMsg fd buf) w = w.afterSending (MelsecMc.mcWriteMsg fd buf w.sends) := by
  unfold mcWriteMsg MelsecMc.mcWriteMsg
  split
  · simp only [Surroundings.afterSending, List.append_nil]
    rfl
  · refine (alone_bind (writeLoop fd buf) _ w).trans ?_
    rw [writeLoop_alone]
    simp only [Surroundings.afterSending]
    cases (MelsecMc.writeLoop w.sends buf).result with
    | none => rfl
    | some ok => cases ok <;> rfl

/-- Attempts that run as the loop says. -/
theorem retry_alone {attempt : Program Bool} {attempt' : List SendEvent → Sending Bool}
    (h : ∀ w, alone attempt w = w.afterSending (attempt' w.sends)) (n : ℕ) (w : Surroundings) :
    alone (retry attempt n) w = w.afterSending (MelsecMc.retry attempt' n w.sends) := by
  induction n generalizing w with
  | zero =>
    simp only [MelsecMc.retry, Sending.giveUp, Surroundings.afterSending, List.append_nil]
    rfl
  | succ n ih =>
    refine (alone_bind attempt _ w).trans ?_
    rw [h, MelsecMc.retry, Sending.orElse]
    simp only [Surroundings.afterSending]
    cases hr : (attempt' w.sends).result with
    | none =>
      simp only [hr]
      rfl
    | some ok =>
      cases ok with
      | true =>
        simp only [hr]
        rfl
      | false =>
        refine (ih _).trans ?_
        simp only [Surroundings.afterSending, List.append_assoc]

theorem mcTrySendMsg_alone (w : Surroundings) (cmd : List Byte) :
    alone (mcTrySendMsg fd cmd) w = w.afterSending (MelsecMc.mcTrySendMsg fd cmd w.sends) := by
  unfold mcTrySendMsg MelsecMc.mcTrySendMsg
  split
  · simp only [Sending.giveUp, Surroundings.afterSending, List.append_nil]
    rfl
  · refine retry_alone (fun w => ?_) maxRetryTimes w
    refine (alone_bind (mcWriteMsg fd cmd) _ w).trans ?_
    rw [mcWriteMsg_alone, writeAttempt]
    simp only [Surroundings.afterSending]
    cases (MelsecMc.mcWriteMsg fd cmd w.sends).result with
    | none => rfl
    | some real_sends => rfl

end Send

section Receive

variable {fd : ℤ}

/-- `recv` and its interruptions take the events in turn. -/
theorem mcRecvExact_alone (w : Surroundings) (n : ℕ) :
    alone (mcRecvExact fd n) w =
      ((recvCode (MelsecMc.mcRecvExact w.recvs w.stream n).outcome).map
          (·, (MelsecMc.mcRecvExact w.recvs w.stream n).got),
        w.afterReading (MelsecMc.mcRecvExact w.recvs w.stream n)) := by
  suffices h : ∀ (events : List Event) (stream : List Byte),
      alone (mcRecvExact fd n) { w with recvs := events, stream := stream } =
        ((recvCode (readExact events stream n).outcome).map (·, (readExact events stream n).got),
          w.afterReading (readExact events stream n)) from h w.recvs w.stream
  intro events stream
  induction events, stream, n using readExact.induct with
  | case1 events stream =>
    rw [mcRecvExact, readExact]
    rfl
  | case2 stream n =>
    rw [mcRecvExact, readExact]
    exact alone_waits rfl
  | case3 events stream n ih =>
    rw [readExact, ← ih, mcRecvExact]
    rfl
  | case4 events stream n =>
    rw [mcRecvExact, readExact]
    exact Eq.trans (alone_returns rfl) rfl
  | case5 events stream n =>
    rw [mcRecvExact, readExact]
    exact Eq.trans (alone_returns rfl) rfl
  | case6 k events stream n c hc =>
    obtain rfl : stream = [] := by
      refine List.length_eq_zero_iff.mp ?_
      simp only [c] at hc
      omega
    rw [mcRecvExact, readExact]
    exact alone_waits rfl
  | case7 k events stream n c hc ih =>
    have hne : stream ≠ [] := by
      rintro rfl
      simp [c] at hc
    obtain ⟨byte, stream, rfl⟩ := List.exists_cons_of_ne_nil hne
    have hlen : (byte :: stream).length = stream.length + 1 := List.length_cons
    have hcount : min c (byte :: stream).length = min (min k n + 1) (byte :: stream).length := by
      omega
    have htake : (byte :: stream).take c = byte :: stream.take (min k n) :=
      List.take_eq_take_iff.mpr hcount
    have hdrop : (byte :: stream).drop c = stream.drop (min k n) :=
      List.drop_eq_drop_iff.mpr hcount
    have hleft : n + 1 - c = n - (stream.take (min k n)).length := by
      rw [List.length_take]
      omega
    rw [mcRecvExact, readExact, if_neg hc]
    refine Eq.trans (alone_returns rfl) ?_
    refine (alone_bind (mcRecvExact fd (n - (stream.take (min k n)).length)) _
      { w with recvs := events, stream := stream.drop (min k n) }).trans ?_
    rw [hdrop, hleft] at ih
    rw [ih, htake, hdrop, hleft]
    cases (readExact events (stream.drop (min k n))
        (n - (stream.take (min k n)).length)).outcome <;> rfl

/-- What a program leaves of the surroundings that reads one response. -/
def Surroundings.afterResponse (w : Surroundings) (r : Received) : Surroundings :=
  { w with recvs := r.events, stream := r.rest }

/-- `mc_read_response` and `mc_ascii_read_response`, with the descriptor of the transaction. -/
theorem readResponse_alone (P : Protocol) (w : Surroundings) :
    alone (readResponse P fd) w =
      ((P.readResponse fd .zero 0 w.recvs w.stream).code.map
          (·, (P.readResponse fd .zero 0 w.recvs w.stream).response),
        w.afterResponse (P.readResponse fd .zero 0 w.recvs w.stream)) := by
  unfold readResponse Protocol.readResponse
  split
  · rfl
  · refine (alone_bind (mcRecvExact fd P.response.header) _ w).trans ?_
    rw [mcRecvExact_alone]
    generalize MelsecMc.mcRecvExact w.recvs w.stream P.response.header = header
    obtain ⟨outcome, got, rest, events⟩ := header
    cases outcome with
    | complete =>
      simp only [recvCode, Option.map_some, Option.elim_some]
      rw [if_neg (by simp)]
      cases P.response.total got with
      | none => rfl
      | some total_len =>
        refine Eq.trans (alone_returns rfl) ?_
        refine (alone_bind (mcRecvExact fd (total_len - P.response.header)) _
          { w with recvs := events, stream := rest }).trans ?_
        rw [mcRecvExact_alone]
        dsimp only
        generalize MelsecMc.mcRecvExact events rest (total_len - P.response.header) = payload
        obtain ⟨outcome, got', rest', events'⟩ := payload
        cases outcome <;> rfl
    | closed => rfl
    | failed => rfl
    | blocked => rfl

end Receive

section Transaction

variable {fd : ℤ} {P : Protocol} {cmd : ByteArrayInfo}

theorem mcLockFdTransaction_alone (w : Surroundings) :
    alone (mcLockFdTransaction fd) w =
      (some (w.locks.mcLockFdTransaction fd true).1,
        { w with locks := (w.locks.mcLockFdTransaction fd true).2 }) := by
  unfold mcLockFdTransaction TxLocks.mcLockFdTransaction
  split
  · rfl
  · refine Eq.trans (alone_returns rfl) ?_
    generalize w.locks.mcGetOrCreateFdTxMutexLocked fd true = found
    obtain ⟨locks, slot⟩ := found
    cases slot <;> rfl

/-- The mutex that was locked is found again. -/
theorem mcUnlockFdTransaction_alone (w : Surroundings) (hfd : 0 < fd) {i : Fin maxTxConnections}
    (hu : w.locks.Unique) (hi : w.locks.Serves fd i) :
    alone (mcUnlockFdTransaction fd) w = (some .success, w) := by
  unfold mcUnlockFdTransaction
  rw [if_neg (by omega)]
  refine Eq.trans (alone_returns rfl) ?_
  rw [TxLocks.find_of_serves hu hi]
  rfl

/-- The send phase, and behind it the response. -/
theorem transfer_alone {bytes : List Byte} (h : cmd.data.bind (memcpy · cmd.length) = some bytes)
    (w : Surroundings) :
    alone (transfer P fd cmd) w =
      (sendPhase fd bytes w.retryCount w.sends).result.elim
        (none, (w.afterSending (sendPhase fd bytes w.retryCount w.sends)).2) fun send_ret =>
          if send_ret then
            alone (readResponse P fd) (w.afterSending (sendPhase fd bytes w.retryCount w.sends)).2
          else (some (.socketSendFailed, .zero),
            (w.afterSending (sendPhase fd bytes w.retryCount w.sends)).2) := by
  unfold transfer
  refine Eq.trans (alone_returns rfl) ?_
  rw [h]
  refine (alone_bind (retry (mcTrySendMsg fd bytes) (w.retryCount + 1).toNat) _ w).trans ?_
  rw [retry_alone (fun w => mcTrySendMsg_alone w bytes)]
  unfold sendPhase Surroundings.afterSending
  cases (MelsecMc.retry (MelsecMc.mcTrySendMsg fd bytes) (w.retryCount + 1).toNat
      w.sends).result with
  | none => rfl
  | some send_ret => cases send_ret <;> rfl

/-- The descriptor that is left has the length that was stored. -/
theorem readCount_eq (m : Module) (events : List Event) (stream : List Byte) :
    (m.protocol.readResponse fd .zero 0 events stream).readCount =
      (m.protocol.readResponse fd .zero 0 events stream).response.length := by
  have habandoned : (m.protocol.abandoned .zero).length = 0 := by cases m <;> rfl
  unfold Protocol.readResponse
  split
  · rfl
  · dsimp only
    generalize MelsecMc.mcRecvExact events stream m.protocol.response.header = header
    obtain ⟨outcome, got, rest, events⟩ := header
    cases outcome with
    | complete =>
      dsimp only
      cases m.protocol.response.total got with
      | none => rfl
      | some total_len =>
        dsimp only
        cases (MelsecMc.mcRecvExact events rest
            (total_len - m.protocol.response.header)).outcome with
        | complete => rfl
        | closed | failed | blocked => exact habandoned.symm
    | closed | failed | blocked => rfl

/-- A locked descriptor has a slot. -/
theorem serves_of_lock {locks : TxLocks} (hu : locks.Unique)
    (h : (locks.mcLockFdTransaction fd true).1 = .success) :
    0 < fd ∧ (locks.mcLockFdTransaction fd true).2.Unique ∧
      ∃ i, (locks.mcLockFdTransaction fd true).2.Serves fd i := by
  unfold TxLocks.mcLockFdTransaction at h ⊢
  split at h
  · cases h
  · rename_i hfd
    rw [if_neg hfd]
    have hunique := hu.getOrCreate fd true
    cases hfound : locks.mcGetOrCreateFdTxMutexLocked fd true with
    | mk locks' slot =>
      rw [hfound] at h hunique
      cases slot with
      | none => cases h
      | some i =>
        have hi := TxLocks.serves_of_getOrCreate (congrArg Prod.snd hfound)
        rw [hfound] at hi
        exact ⟨by omega, hunique, i, hi⟩

/-- A transaction that runs alone is that of the sequential model, on a line where the bytes that
arrive are those of the PLC. -/
theorem transaction_alone (m : Module) (plc : Plc m.protocol) (line : Line) (w : Surroundings)
    (hfd : 0 < fd) (hlen : 0 < cmd.length) {bytes : List Byte}
    (h : cmd.data.bind (memcpy · cmd.length) = some bytes) (hu : w.locks.Unique)
    (hstream : w.stream =
      (line.receive plc (sendPhase fd bytes w.retryCount w.sends).accepted).fromPlc) :
    let ended := transaction plc fd line ⟨bytes, w.retryCount,
      (w.locks.mcLockFdTransaction fd true).1, .success, w.sends, w.recvs⟩
    (alone (mcSendAndReceiveTransaction m.protocol fd cmd) w).1 =
      ended.code.map (⟨·, ended.response, ended.recvSize⟩) := by
  have hdata : ¬ cmd.data.isNone := by
    intro hnone
    rw [Option.isNone_iff_eq_none.mp hnone] at h
    cases h
  have hparam : ¬ (fd ≤ 0 ∨ cmd.data.isNone ∨ cmd.length ≤ 0) := by
    rintro (hneg | hnone | hneg)
    · omega
    · exact hdata hnone
    · omega
  unfold mcSendAndReceiveTransaction
  rw [if_neg hparam]
  unfold transaction
  dsimp only
  rw [alone_bind, mcLockFdTransaction_alone, Option.elim_some]
  by_cases hlock : (w.locks.mcLockFdTransaction fd true).1 = .success
  · obtain ⟨-, hunique, i, hi⟩ := serves_of_lock hu hlock
    rw [if_neg (by simp [hlock]), if_neg (by simp [hlock]), alone_bind, transfer_alone h]
    dsimp only
    generalize sendPhase fd bytes w.retryCount w.sends = sent at hstream ⊢
    obtain ⟨result, accepted, events⟩ := sent
    cases result with
    | none => rfl
    | some send_ret =>
      cases send_ret with
      | false =>
        change (alone (mcUnlockFdTransaction fd >>= _) _).1 = _
        rw [alone_bind, mcUnlockFdTransaction_alone _ hfd hunique hi]
        rfl
      | true =>
        simp only [Option.elim_some, if_true]
        rw [readResponse_alone]
        dsimp only [Surroundings.afterSending]
        rw [hstream, readCount_eq]
        generalize m.protocol.readResponse fd .zero 0 w.recvs
          (line.receive plc accepted).fromPlc = received
        obtain ⟨code, response, readCount, rest, events'⟩ := received
        cases code with
        | none => rfl
        | some code =>
          change (alone (mcUnlockFdTransaction fd >>= _) _).1 = _
          rw [alone_bind, mcUnlockFdTransaction_alone _ hfd hunique hi]
          rfl
  · rw [if_pos hlock, if_pos hlock]
    rfl

end Transaction

section Calls

/-- A call whose transactions run alone. -/
def callAlone {α : Type} (P : Protocol) : Call α → Surroundings → Option α × Surroundings
  | .fault, w => (none, w)
  | .ret a, w => (some a, w)
  | .transact fd cmd next, w =>
    (alone (mcSendAndReceiveTransaction P fd cmd) w).1.elim
      (none, (alone (mcSendAndReceiveTransaction P fd cmd) w).2) fun r =>
        callAlone P (next r) (alone (mcSendAndReceiveTransaction P fd cmd) w).2

theorem ofOption_alone {α : Type} (P : Protocol) (o : Option α) (w : Surroundings) :
    alone (ofOption o) w = callAlone P (.ofOption o) w := by
  cases o <;> rfl

theorem lockedPack_alone (m : Module) (locks : Bool) (core_cmd : ByteArrayInfo)
    (w : Surroundings) :
    alone (lockedPack m locks core_cmd) w = (m.pack core_cmd w.network, w) := by
  have hpack : alone (pack m core_cmd) w = (m.pack core_cmd w.network, w) := by
    unfold pack
    refine Eq.trans (alone_returns rfl) (Eq.trans (alone_returns rfl) ?_)
    cases m.pack core_cmd w.network <;> rfl
  cases locks with
  | false => exact hpack
  | true =>
    refine (alone_bind (pack m core_cmd) _ w).trans ?_
    rw [hpack]
    cases m.pack core_cmd w.network <;> rfl

theorem requestWith_alone (m : Module) (parts : RequestParts ErrorCode) (locks : Bool) (fd : ℤ)
    (w : Surroundings) :
    alone (requestWith m parts locks fd) w =
      callAlone m.protocol (parts.call m.pack w.network fd) w := by
  unfold requestWith RequestParts.call
  cases parts.prepare with
  | none => rfl
  | some prepared =>
    cases prepared with
    | error code => rfl
    | ok core_cmd =>
      refine (alone_bind (lockedPack m locks core_cmd) _ w).trans ?_
      rw [lockedPack_alone]
      dsimp only
      cases m.pack core_cmd w.network with
      | none => rfl
      | some cmd =>
        rw [Option.elim_some, Call.ofOption_some, Call.ret_bind]
        split
        · exact ofOption_alone _ _ w
        · rw [alone_bind, MelsecMc.mcSendAndReceiveTransaction]
          split
          · have hinvalid : mcSendAndReceiveTransaction m.protocol fd cmd =
                return ⟨.invalidParameter, .zero, 0⟩ := if_pos (by assumption)
            rw [hinvalid]
            exact ofOption_alone _ _ w
          · rw [Call.transact_bind, callAlone]
            simp only [Call.ret_bind, ofOption_alone m.protocol]

/-- A request of a public function that runs alone does what the function does. -/
theorem operation_alone (op : Operation) (fd : ℤ) : ∃ parts : RequestParts ErrorCode,
    ∀ locks w, alone (requestWith op.module parts locks fd) w =
      callAlone op.module.protocol (op.call w.network fd) w := by
  obtain ⟨parts, hparts⟩ := operation_parts op fd
  refine ⟨parts, fun locks w => ?_⟩
  rw [requestWith_alone, ← hparts w.network]

/-- A connect that runs alone, after the first one of its module. -/
theorem connect_alone (m : Module) (ip_addr : Option CString) (port : ℤ)
    (numbers : PlcNetworkAddress) (mutexInit : Bool) {s : Session} (w : Surroundings)
    (hinit : s.initialised m = true) (hw : w.network = s.address m) :
    let c : Connect := ⟨ip_addr, port, numbers, mutexInit, w.socket⟩
    alone (connect m ip_addr port numbers) w =
      (some (s.connect c m).2, { w with network := (s.connect c m).1.address m }) := by
  have hwith : ∀ result, alone (connectWith result ip_addr port numbers) w =
      (some (s.connectWith m result ⟨ip_addr, port, numbers, mutexInit, w.socket⟩).2,
        { w with network := (s.connectWith m result
          ⟨ip_addr, port, numbers, mutexInit, w.socket⟩).1.address m }) := by
    intro result
    unfold connectWith Session.connectWith
    split
    · dsimp only
      rw [← hw]
      rfl
    · rw [if_neg (by simp [hinit])]
      refine Eq.trans (alone_returns rfl) (Eq.trans (alone_returns rfl) ?_)
      simp only [Function.update_self]
      rfl
  cases m with
  | binary => exact hwith _
  | ascii => exact hwith _

end Calls

end MelsecMc.Locked
