import MelsecMc.Call
import MelsecMc.TxLocks
import MelsecMc.Transition

/-!
# Threads that make transactions

Any number of threads call `mc_send_and_receive_transaction` of one module. A
thread goes through the function step by step; between two steps of it, the
other threads and the PLCs take theirs. Shared are `g_connection_mutex`, the
table of the transaction mutexes, and the connections. A mutex excludes,
descriptors are positive and stay open, `send` and `recv` neither fail nor time
out, and the mutexes of new slots are initialised. What is proved about these
threads holds under that, with at most 64 descriptors, and in a process that made
no transaction before. An interrupted `send` or `recv` is repeated and changes
nothing, so it is no step here. `log` and `sent` of a connection, the ticket of a
call (the number of its request on the connection) and `handed` only record what
happened.
-/
namespace MelsecMc

open FramedStream

/-- A connection: the bytes that the PLC has not read, those of its responses that were not
received, the requests it answered, in order and each with its response, and the calls that began
to send a request, in order, each as a thread and the number of its call. -/
structure Wire (T : Type*) where
  toPlc : List Byte
  fromPlc : List Byte
  log : List (List Byte × List Byte)
  sent : List (T × ℕ)

variable {T : Type*}

/-- A connection that was just opened. -/
def Wire.fresh : Wire T := ⟨[], [], [], []⟩

/-- The PLC answers the request `cmd`; `rest` is behind it in the stream. -/
def Wire.answer (w : Wire T) (cmd rest response : List Byte) : Wire T :=
  ⟨rest, w.fromPlc ++ response, w.log ++ [(cmd, response)], w.sent⟩

/-- The arguments of one call, and the `retry_count` that it finds configured. -/
structure Job where
  fd : ℤ
  cmd : List Byte
  retryCount : ℤ

/-- What a call returns, and the position of its request among those sent on the connection. -/
structure Reply where
  code : ErrorCode
  response : List Byte
  ticket : ℕ

/-- Where a thread is in `mc_send_and_receive_transaction`. -/
inductive Pc where
  | lockG
  | find
  | vacant
  | create (i : Fin maxTxConnections)
  | unlockG (slot : Option (Fin maxTxConnections))
  | lockTx (i : Fin maxTxConnections)
  | config
  | sendLockG
  | send (ticket : ℕ) (left : List Byte)
  | recv (ticket : ℕ) (got : List Byte)
  | relockG (out : Reply)
  | lookup (out : Reply)
  | reunlockG (out : Reply) (slot : Option (Fin maxTxConnections))
  | unlockTx (out : Reply) (i : Fin maxTxConnections)
  | returned (out : Reply)

/-- What a step does to the shared state. -/
inductive Act where
  | silent
  | lockG
  | unlockG
  | find (slot : Option (Fin maxTxConnections))
  | vacant (slot : Option (Fin maxTxConnections))
  | create (i : Fin maxTxConnections)
  | lockTx (i : Fin maxTxConnections)
  | unlockTx (i : Fin maxTxConnections)
  | begin (ticket : ℕ)
  | send (piece : List Byte)
  | recv (piece : List Byte)

/-- The code after `mc_unlock_fd_transaction` found no mutex. -/
def Reply.unlockFailed (out : Reply) : Reply :=
  if out.code = .success then { out with code := .failed } else out

/-- One step of a thread in a call. -/
inductive Next (P : Protocol) (j : Job) : Pc → Act → Pc → Prop where
  | lockG : Next P j .lockG .lockG .find
  | found (i : Fin maxTxConnections) : Next P j .find (.find (some i)) (.unlockG (some i))
  | notFound : Next P j .find (.find none) .vacant
  | vacant (i : Fin maxTxConnections) : Next P j .vacant (.vacant (some i)) (.create i)
  | full : Next P j .vacant (.vacant none) (.unlockG none)
  | create (i : Fin maxTxConnections) : Next P j (.create i) (.create i) (.unlockG (some i))
  | unlockG (i : Fin maxTxConnections) : Next P j (.unlockG (some i)) .unlockG (.lockTx i)
  | lockFailed : Next P j (.unlockG none) .unlockG (.returned ⟨.failed, [], 0⟩)
  | lockTx (i : Fin maxTxConnections) : Next P j (.lockTx i) (.lockTx i) .config
  | config (h : 0 ≤ j.retryCount) : Next P j .config .silent .sendLockG
  | noAttempt (h : j.retryCount < 0) :
      Next P j .config .silent (.relockG ⟨.socketSendFailed, [], 0⟩)
  | sendLockG (n : ℕ) : Next P j .sendLockG (.begin n) (.send n j.cmd)
  | send (n k : ℕ) (left : List Byte) (h : left ≠ []) :
      Next P j (.send n left) (.send (left.take (k + 1))) (.send n (left.drop (k + 1)))
  | sendUnlockG (n : ℕ) : Next P j (.send n []) .unlockG (.recv n [])
  | recv (n : ℕ) (got piece : List Byte) (h : piece ≠ [])
      (hw : piece.length ≤ wanted P.response got) :
      Next P j (.recv n got) (.recv piece) (.recv n (got ++ piece))
  | badHeader (n : ℕ) (got : List Byte) (h : got.length = P.response.header)
      (ht : P.response.total got = none) :
      Next P j (.recv n got) .silent (.relockG ⟨.responseHeaderFailed, [], n⟩)
  | complete (n : ℕ) (got : List Byte) (h : IsFrame P.response got) :
      Next P j (.recv n got) .silent (.relockG ⟨.success, got, n⟩)
  | relockG (out : Reply) : Next P j (.relockG out) .lockG (.lookup out)
  | lookup (out : Reply) (slot : Option (Fin maxTxConnections)) :
      Next P j (.lookup out) (.find slot) (.reunlockG out slot)
  | reunlockG (out : Reply) (i : Fin maxTxConnections) :
      Next P j (.reunlockG out (some i)) .unlockG (.unlockTx out i)
  | unlockFailed (out : Reply) :
      Next P j (.reunlockG out none) .unlockG (.returned out.unlockFailed)
  | unlockTx (out : Reply) (i : Fin maxTxConnections) :
      Next P j (.unlockTx out i) (.unlockTx i) (.returned out)

/-- What the threads share. `handed` has every slot that was found for a descriptor. -/
structure Shared (T : Type*) where
  locks : TxLocks
  gOwner : Option T
  txOwner : Fin maxTxConnections → Option T
  wire : ℤ → Wire T
  handed : List (ℤ × Fin maxTxConnections)

namespace Shared

def setWire (s : Shared T) (fd : ℤ) (w : Wire T) : Shared T :=
  { s with wire := Function.update s.wire fd w }

/-- The step `a` of thread `t` in its call number `c`, on `fd`, where it is possible. -/
def effect (s : Shared T) (t : T) (c : ℕ) (fd : ℤ) : Act → Shared T → Prop
  | .silent, s' => s' = s
  | .lockG, s' => s.gOwner = none ∧ s' = { s with gOwner := some t }
  | .unlockG, s' => s' = { s with gOwner := none }
  | .find slot, s' =>
    s.locks.find fd = slot ∧ s' = { s with handed := s.handed ++ slot.toList.map (fd, ·) }
  | .vacant slot, s' => s.locks.vacant = slot ∧ s' = s
  | .create i, s' =>
    s' = { s with locks := s.locks.claim fd i, handed := s.handed ++ [(fd, i)] }
  | .lockTx i, s' =>
    s.txOwner i = none ∧ s' = { s with txOwner := Function.update s.txOwner i (some t) }
  | .unlockTx i, s' => s' = { s with txOwner := Function.update s.txOwner i none }
  | .begin n, s' =>
    s.gOwner = none ∧ n = (s.wire fd).sent.length ∧
      s' = { (s.setWire fd { s.wire fd with sent := (s.wire fd).sent ++ [(t, c)] }) with
        gOwner := some t }
  | .send piece, s' =>
    s' = s.setWire fd { s.wire fd with toPlc := (s.wire fd).toPlc ++ piece }
  | .recv piece, s' => ∃ rest, (s.wire fd).fromPlc = piece ++ rest ∧
      s' = s.setWire fd { s.wire fd with fromPlc := rest }

end Shared

/-- A thread: the calls it still has to make, the call it is in, and those that returned. -/
structure Thread where
  todo : List Job
  current : Option (Job × Pc)
  results : List (Job × Reply)

/-- All calls of a thread, in order. -/
def Thread.calls (th : Thread) : List Job :=
  th.results.map Prod.fst ++ (th.current.toList.map Prod.fst ++ th.todo)

structure State (T : Type*) where
  shared : Shared T
  thread : T → Thread

namespace State

variable [DecidableEq T]

def setThread (s : State T) (t : T) (th : Thread) : State T :=
  { s with thread := Function.update s.thread t th }

/-- Thread `t` is in a call. -/
def At (s : State T) (t : T) (j : Job) (pc : Pc) : Prop :=
  (s.thread t).current = some (j, pc)

@[simp] theorem setThread_shared (s : State T) (t : T) (th : Thread) :
    (s.setThread t th).shared = s.shared := rfl

@[simp] theorem setThread_thread_self (s : State T) (t : T) (th : Thread) :
    (s.setThread t th).thread t = th := Function.update_self ..

theorem setThread_thread_of_ne (s : State T) {t u : T} (th : Thread) (hu : u ≠ t) :
    (s.setThread t th).thread u = s.thread u := Function.update_of_ne hu ..

theorem at_setThread_self {s : State T} {t : T} {th : Thread} {j : Job} {pc : Pc} :
    (s.setThread t th).At t j pc ↔ th.current = some (j, pc) := by
  unfold At
  rw [setThread_thread_self]

theorem at_setThread_of_ne {s : State T} {t u : T} {th : Thread} {j : Job} {pc : Pc}
    (hu : u ≠ t) : (s.setThread t th).At u j pc ↔ s.At u j pc := by
  unfold At
  rw [setThread_thread_of_ne s th hu]

omit [DecidableEq T] in
theorem At.unique {s : State T} {t : T} {j k : Job} {pc q : Pc} (h : s.At t j pc)
    (h' : s.At t k q) : j = k ∧ pc = q := by
  have he := Option.some.inj (h.symm.trans h')
  exact ⟨congrArg Prod.fst he, congrArg Prod.snd he⟩

/-- The call that thread `t` is in, or makes next. -/
def callOf (s : State T) (t : T) : T × ℕ := (t, (s.thread t).results.length)

/-- No thread has a call to make or to finish. -/
def Finished (s : State T) : Prop :=
  ∀ t, (s.thread t).todo = [] ∧ (s.thread t).current = none

/-- Thread `t` goes on in its call, with the shared state that its step left. -/
def proceed (s : State T) (t : T) (j : Job) (pc : Pc) (sh : Shared T) : State T :=
  { s with shared := sh }.setThread t { s.thread t with current := some (j, pc) }

section Proceed

variable {s : State T} {t u : T} {j k : Job} {pc q : Pc} {sh : Shared T}

theorem at_proceed_self : (s.proceed t j pc sh).At t k q ↔ j = k ∧ pc = q := by
  unfold proceed
  rw [at_setThread_self]
  simp

theorem at_proceed_of_ne (hu : u ≠ t) : (s.proceed t j pc sh).At u k q ↔ s.At u k q :=
  at_setThread_of_ne hu

theorem todo_proceed (u : T) : ((s.proceed t j pc sh).thread u).todo = (s.thread u).todo := by
  unfold proceed
  by_cases hu : u = t
  · rw [hu, setThread_thread_self]
  · rw [setThread_thread_of_ne _ _ hu]

theorem results_proceed (u : T) :
    ((s.proceed t j pc sh).thread u).results = (s.thread u).results := by
  unfold proceed
  by_cases hu : u = t
  · rw [hu, setThread_thread_self]
  · rw [setThread_thread_of_ne _ _ hu]

theorem callOf_proceed (u : T) : (s.proceed t j pc sh).callOf u = s.callOf u := by
  unfold callOf
  rw [results_proceed]

end Proceed

/-- The PLC on `fd` answers a request. -/
def answer (s : State T) (fd : ℤ) (cmd rest response : List Byte) : State T :=
  { s with shared := s.shared.setWire fd ((s.shared.wire fd).answer cmd rest response) }

end State

/-- One step of the system: of a thread, or of a PLC, which answers a complete request with any
response frame. -/
inductive Step [DecidableEq T] (P : Protocol) : State T → State T → Prop where
  | start (s : State T) (t : T) (j : Job) (js : List Job) (hc : (s.thread t).current = none)
      (ht : (s.thread t).todo = j :: js) :
      Step P s (s.setThread t { s.thread t with todo := js, current := some (j, .lockG) })
  | act (s : State T) (t : T) (j : Job) (pc pc' : Pc) (a : Act) (sh : Shared T) (h : s.At t j pc)
      (hn : Next P j pc a pc')
      (he : s.shared.effect t (s.thread t).results.length j.fd a sh) :
      Step P s (s.proceed t j pc' sh)
  | finish (s : State T) (t : T) (j : Job) (out : Reply) (h : s.At t j (.returned out)) :
      Step P s (s.setThread t { s.thread t with
        current := none, results := (s.thread t).results ++ [(j, out)] })
  | answer (s : State T) (fd : ℤ) (cmd rest response : List Byte)
      (hc : nextFrame P.request (s.shared.wire fd).toPlc = some (cmd, rest))
      (hr : IsFrame P.response response) : Step P s (s.answer fd cmd rest response)

/-- Nothing is locked, no slot is in use, and nothing was sent on the connections. -/
def Shared.initial : Shared T := ⟨.initial, none, fun _ => none, fun _ => .fresh, []⟩

/-- The system of threads that make the calls `jobs`. -/
def threads [DecidableEq T] (P : Protocol) (jobs : T → List Job) : TransitionSystem (State T) where
  init s := s = ⟨.initial, fun t => ⟨jobs t, none, []⟩⟩
  step := Step P

section Calls

variable [DecidableEq T] {P : Protocol} {s s' : State T}

theorem State.calls_setThread {t : T} {th : Thread} (h : th.calls = (s.thread t).calls) (u : T) :
    ((s.setThread t th).thread u).calls = (s.thread u).calls := by
  by_cases hu : u = t
  · rw [hu, setThread_thread_self, h]
  · rw [setThread_thread_of_ne _ _ hu]

theorem Step.calls (hs : Step P s s') (u : T) : (s'.thread u).calls = (s.thread u).calls := by
  cases hs with
  | start t j js hc ht =>
    refine State.calls_setThread ?_ u
    simp [Thread.calls, hc, ht]
  | act t j pc pc' a sh h hn he =>
    have hcur : (s.thread t).current = some (j, pc) := h
    refine State.calls_setThread (s := { s with shared := sh }) ?_ u
    simp [Thread.calls, hcur]
  | finish t j out h =>
    have hcur : (s.thread t).current = some (j, .returned out) := h
    refine State.calls_setThread ?_ u
    simp [Thread.calls, hcur]
  | answer fd cmd rest response hc hr => rfl

/-- No call is lost or made twice. -/
theorem threads_calls {jobs : T → List Job} (hs : (threads P jobs).Reachable s) (t : T) :
    (s.thread t).calls = jobs t := by
  refine hs.invariant (P := fun s => (s.thread t).calls = jobs t) (fun s hinit => ?_)
    fun s s' h hstep => (hstep.calls t).trans h
  obtain rfl := hinit
  simp [Thread.calls]

end Calls

end MelsecMc
