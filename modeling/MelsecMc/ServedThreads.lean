import MelsecMc.Linearizability
import MelsecMc.Progress
import MelsecMc.ResponseAgreement

/-!
# Threads whose PLC serves their requests

The PLC behind the connections has a state. It answers a complete request on a
descriptor, and that is the moment at which the call is served. The history of a
run has these moments between the invocation and the return of each call, so the
calls are linearizable, whatever the threads and the order of their steps, on at
most 64 connections on which no `send` or `recv` fails or times out.
-/
namespace MelsecMc

open FramedStream
open scoped List

/-- A PLC: its response to a request on a descriptor, and its state afterwards. -/
structure Device (P : Protocol) (σ : Type*) where
  serve : ℤ → List Byte → σ → List Byte × σ
  isFrame : ∀ fd cmd s, IsFrame P.response (serve fd cmd s).1

/-- The PLC as an object: a transaction on a descriptor succeeds with its response. -/
def Device.object {P : Protocol} {σ : Type*} (D : Device P σ) :
    SeqObject σ (ℤ × List Byte) fun _ => ErrorCode × List Byte where
  apply i s := ((.success, (D.serve i.1 i.2 s).1), (D.serve i.1 i.2 s).2)

/-- What is seen of `mc_send_and_receive_transaction`: descriptor and request, code and response.
A call is a thread and the number of its call. -/
abbrev FrameEvent (T : Type*) := CallEvent (T × ℕ) (ℤ × List Byte) fun _ => ErrorCode × List Byte

def Job.frame (j : Job) : ℤ × List Byte := (j.fd, j.cmd)

def Reply.result (out : Reply) : ErrorCode × List Byte := (out.code, out.response)

/-- The number of its request, for a call that began to send it. -/
def Pc.ticket : Pc → Option ℕ
  | send n _ | recv n _ => some n
  | relockG out | lookup out | reunlockG out _ | unlockTx out _ | returned out => some out.ticket
  | lockG | find | vacant | create _ | unlockG _ | lockTx _ | config | sendLockG => none

/-- The threads, the state of the PLC, and what was seen of the calls. -/
structure ServedState (T σ : Type*) where
  threads : State T
  plc : σ
  history : List (FrameEvent T)

section Served

variable {T σ : Type*} [DecidableEq T] {P : Protocol}

/-- One step of the threads, or of the PLC, which answers the request of the first call on a
descriptor that has no response. -/
inductive ServedStep (D : Device P σ) : ServedState T σ → ServedState T σ → Prop where
  | start (s : ServedState T σ) (t : T) (j : Job) (js : List Job)
      (hc : (s.threads.thread t).current = none) (ht : (s.threads.thread t).todo = j :: js) :
      ServedStep D s ⟨s.threads.setThread t { s.threads.thread t with
        todo := js, current := some (j, .lockG) }, s.plc,
        s.history ++ [.invoked (s.threads.callOf t) j.frame]⟩
  | act (s : ServedState T σ) (t : T) (j : Job) (pc pc' : Pc) (a : Act) (sh : Shared T)
      (h : s.threads.At t j pc) (hn : Next P j pc a pc')
      (he : s.threads.shared.effect t (s.threads.thread t).results.length j.fd a sh) :
      ServedStep D s ⟨s.threads.proceed t j pc' sh, s.plc, s.history⟩
  | finish (s : ServedState T σ) (t : T) (j : Job) (out : Reply)
      (h : s.threads.At t j (.returned out)) :
      ServedStep D s ⟨s.threads.setThread t { s.threads.thread t with
        current := none, results := (s.threads.thread t).results ++ [(j, out)] }, s.plc,
        s.history ++ [.returned (s.threads.callOf t) j.frame out.result]⟩
  | answer (s : ServedState T σ) (fd : ℤ) (cmd rest : List Byte) (id : T × ℕ)
      (hc : nextFrame P.request (s.threads.shared.wire fd).toPlc = some (cmd, rest))
      (hid : (s.threads.shared.wire fd).sent[(s.threads.shared.wire fd).log.length]? = some id) :
      ServedStep D s ⟨s.threads.answer fd cmd rest (D.serve fd cmd s.plc).1,
        (D.serve fd cmd s.plc).2,
        s.history ++ [.served id (fd, cmd) (.success, (D.serve fd cmd s.plc).1)]⟩

/-- The system of threads that make the calls `jobs` to a PLC whose state is `plc`. -/
def servedThreads (D : Device P σ) (plc : σ) (jobs : T → List Job) :
    TransitionSystem (ServedState T σ) where
  init s := s = ⟨⟨.initial, fun t => ⟨jobs t, none, []⟩⟩, plc, []⟩
  step := ServedStep D

variable {D : Device P σ} {s s' : ServedState T σ}

theorem ServedStep.step (hs : ServedStep D s s') : Step P s.threads s'.threads := by
  cases hs with
  | start t j js hc ht => exact .start _ t j js hc ht
  | act t j pc pc' a sh h hn he => exact .act _ t j pc pc' a sh h hn he
  | finish t j out h => exact .finish _ t j out h
  | answer fd cmd rest id hc hid => exact .answer _ fd cmd rest _ hc (D.isFrame fd cmd s.plc)

/-- With the PLC forgotten, it is a run of the threads. -/
theorem servedThreads_threads {plc : σ} {jobs : T → List Job}
    (hs : (servedThreads D plc jobs).Reachable s) : (threads P jobs).Reachable s.threads :=
  hs.map (fun _ hinit => congrArg ServedState.threads hinit)
    fun s s' (hstep : ServedStep D s s') => hstep.step

end Served

/-- What a changed connection has in common with the old one, all have. -/
theorem Shared.setWire_field {T β : Type*} (f : Wire T → β) {s : Shared T} {fd : ℤ} {w : Wire T}
    (hw : f w = f (s.wire fd)) (fd' : ℤ) : f ((s.setWire fd w).wire fd') = f (s.wire fd') := by
  unfold Shared.setWire
  by_cases hfd : fd' = fd
  · rw [hfd]
    simpa using hw
  · dsimp only
    rw [Function.update_of_ne hfd]

/-- What a step does to the records of the connections: it numbers a request that begins, and
otherwise leaves them and the number of the call. -/
theorem Next.records {T : Type*} {P : Protocol} {s s' : Shared T} {t : T} {c : ℕ} {j : Job}
    {pc pc' : Pc} {a : Act} (hn : Next P j pc a pc') (he : s.effect t c j.fd a s') :
    (∀ fd, (s'.wire fd).log = (s.wire fd).log) ∧
      ((∀ fd, (s'.wire fd).sent = (s.wire fd).sent) ∧
          (∀ n, pc.ticket = some n → pc'.ticket = some n) ∨
        pc.ticket = none ∧ pc'.ticket = some (s.wire j.fd).sent.length ∧
          ∀ fd, (s'.wire fd).sent =
            (s.wire fd).sent ++ if fd = j.fd then [(t, c)] else []) := by
  cases hn with
  | lockG | relockG out | found i | notFound | vacant i | full | lookup out slot | lockTx i =>
    obtain ⟨-, rfl⟩ := he
    exact ⟨fun _ => rfl, .inl ⟨fun _ => rfl, fun n h => h⟩⟩
  | sendLockG n =>
    obtain ⟨-, rfl, rfl⟩ := he
    refine ⟨Shared.setWire_field Wire.log rfl, .inr ⟨rfl, rfl, fun fd => ?_⟩⟩
    by_cases hfd : fd = j.fd
    · simp [hfd, Shared.setWire]
    · simp [hfd, Shared.setWire]
  | send n k left hl =>
    obtain rfl := he
    exact ⟨Shared.setWire_field Wire.log rfl,
      .inl ⟨Shared.setWire_field Wire.sent rfl, fun n h => h⟩⟩
  | recv n got piece hp hw =>
    obtain ⟨rest, -, rfl⟩ := he
    exact ⟨Shared.setWire_field Wire.log rfl,
      .inl ⟨Shared.setWire_field Wire.sent rfl, fun n h => h⟩⟩
  | unlockFailed out =>
    obtain rfl := he
    refine ⟨fun _ => rfl, .inl ⟨fun _ => rfl, fun n h => ?_⟩⟩
    simp only [Pc.ticket, Reply.unlockFailed] at h ⊢
    split <;> exact h
  | create i | unlockG i | lockFailed | sendUnlockG n | reunlockG out i | config hr | noAttempt hr
  | badHeader n got hl ht | complete n got hg | unlockTx out i =>
    obtain rfl := he
    exact ⟨fun _ => rfl, .inl ⟨fun _ => rfl, fun n h => by first | exact h | cases h⟩⟩

section Records

variable {T σ : Type*} {P : Protocol} {D : Device P σ} {plc : σ}

/-- Call number `c` of thread `t` began to send the request `n` on `fd`. -/
def State.Began (s : State T) (fd : ℤ) (n : ℕ) (t : T) (c : ℕ) : Prop :=
  (∃ x, (s.thread t).results[c]? = some x ∧ x.1.fd = fd ∧ x.2.ticket = n) ∨
    c = (s.thread t).results.length ∧ ∃ j pc, s.At t j pc ∧ j.fd = fd ∧ pc.ticket = some n

/-- The history agrees with the state: it has the calls that began, and as served those that are in
the logs of the connections. -/
structure ServedState.Recorded (D : Device P σ) (plc : σ) (s : ServedState T σ) : Prop where
  pointed : D.object.Pointed plc s.history s.plc
  current : ∀ t j pc, s.threads.At t j pc → .invoked (s.threads.callOf t) j.frame ∈ s.history
  invoked : ∀ t c i, .invoked (t, c) i ∈ s.history →
    c < (s.threads.thread t).results.length + (s.threads.thread t).current.toList.length ∧
      ((s.threads.thread t).calls[c]?).map Job.frame = some i
  logged : ∀ fd (n : ℕ) (x : List Byte × List Byte), (s.threads.shared.wire fd).log[n]? = some x →
    ∃ id, (s.threads.shared.wire fd).sent[n]? = some id ∧
      .served id (fd, x.1) (.success, x.2) ∈ s.history
  served : ∀ id i r, .served id i r ∈ s.history → ∃ n : ℕ,
    (s.threads.shared.wire i.1).sent[n]? = some id ∧ n < (s.threads.shared.wire i.1).log.length
  began : ∀ fd (n : ℕ) t c, (s.threads.shared.wire fd).sent[n]? = some (t, c) →
    s.threads.Began fd n t c
  returned : ∀ t c i r, .returned (t, c) i r ∈ s.history ↔
    ((s.threads.thread t).results[c]?).map (fun x => (x.1.frame, x.2.result)) = some (i, r)

/-- A call sends one request. -/
theorem State.Began.unique {s : State T} {fd fd' : ℤ} {n n' : ℕ} {t : T} {c : ℕ}
    (h : s.Began fd n t c) (h' : s.Began fd' n' t c) : fd = fd' ∧ n = n' := by
  rcases h with ⟨x, hx, rfl, rfl⟩ | ⟨rfl, j, pc, hat, rfl, hn⟩
  · rcases h' with ⟨y, hy, rfl, rfl⟩ | ⟨rfl, -⟩
    · obtain rfl := Option.some.inj (hx.symm.trans hy)
      exact ⟨rfl, rfl⟩
    · simp at hx
  · rcases h' with ⟨y, hy, -⟩ | ⟨-, k, q, hat', rfl, hn'⟩
    · simp at hy
    · obtain ⟨rfl, rfl⟩ := hat.unique hat'
      exact ⟨rfl, Option.some.inj (hn.symm.trans hn')⟩

theorem State.Began.proceed [DecidableEq T] {s : State T} {fd : ℤ} {n c : ℕ} {t u : T} {j : Job}
    {pc pc' : Pc} {sh : Shared T} (h : s.Began fd n u c) (hat : s.At t j pc)
    (hmono : ∀ n, pc.ticket = some n → pc'.ticket = some n) :
    (s.proceed t j pc' sh).Began fd n u c := by
  unfold State.Began
  simp only [State.results_proceed]
  rcases h with hx | ⟨hc, k, q, hu, hfd, hn⟩
  · exact .inl hx
  · refine .inr ⟨hc, ?_⟩
    by_cases hut : u = t
    · subst hut
      obtain ⟨rfl, rfl⟩ := hat.unique hu
      exact ⟨j, pc', State.at_proceed_self.mpr ⟨rfl, rfl⟩, hfd, hmono n hn⟩
    · exact ⟨k, q, (State.at_proceed_of_ne hut).mpr hu, hfd, hn⟩

theorem State.Began.setThread_of_ne [DecidableEq T] {s : State T} {fd : ℤ} {n c : ℕ} {t u : T}
    {th : Thread} (h : s.Began fd n u c) (hu : u ≠ t) : (s.setThread t th).Began fd n u c := by
  unfold State.Began
  simp only [State.setThread_thread_of_ne _ _ hu, State.at_setThread_of_ne hu]
  exact h

/-- The request that a PLC finds is that of the thread which holds the connection. -/
theorem Pc.Assert.request {locks : TxLocks} {w : Wire T} {id : T × ℕ} {j : Job} {pc : Pc}
    {cmd rest : List Byte} (h : pc.Assert P locks w id j) (hpc : pc.HoldsTx)
    (hc : IsFrame P.request j.cmd) (hn : nextFrame P.request w.toPlc = some (cmd, rest)) :
    cmd = j.cmd ∧ w.sent[w.log.length]? = some id := by
  have hquiet : ¬ w.Quiet := by
    intro hq
    rw [hq.no_request] at hn
    simp at hn
  have hasked : ∀ n got, w.Asked P id j.cmd n got →
      cmd = j.cmd ∧ w.sent[w.log.length]? = some id := by
    rintro n got ⟨hlast, ⟨hto, -, -, hlog⟩ | ⟨hto, -⟩⟩
    · have hnext := nextFrame_append P.request hc []
      rw [List.append_nil, ← hto, hn] at hnext
      obtain ⟨rfl, -⟩ := Prod.mk.inj (Option.some.inj hnext)
      exact ⟨hto, hlog ▸ hlast.2⟩
    · rw [hto, nextFrame_nil P.request P.request_header] at hn
      simp at hn
  cases pc with
  | config | sendLockG => exact absurd h.2 hquiet
  | relockG out | lookup out | reunlockG out slot | unlockTx out i => exact absurd h.2.1 hquiet
  | send n left =>
    obtain ⟨-, ⟨hleft, hsending⟩ | ⟨-, h⟩⟩ := h
    · rw [hsending.no_request hc hleft] at hn
      simp at hn
    · exact hasked n [] h
  | recv n got => exact hasked n got h.2
  | lockG | find | vacant | create i | unlockG slot | lockTx i | returned out => exact hpc.elim

theorem Inv.request {fds : Finset ℤ} {s : State T} (h : Inv P fds s) {fd : ℤ}
    {cmd rest : List Byte} (hn : nextFrame P.request (s.shared.wire fd).toPlc = some (cmd, rest)) :
    ∃ t j pc, s.At t j pc ∧ j.frame = (fd, cmd) ∧
      (s.shared.wire fd).sent[(s.shared.wire fd).log.length]? = some (s.callOf t) := by
  have hheld : ∃ t j pc, s.At t j pc ∧ pc.HoldsTx ∧ j.fd = fd := by
    by_contra hnot
    have hquiet := h.quiet fd fun t j pc hat hpc hfd => hnot ⟨t, j, pc, hat, hpc, hfd⟩
    rw [hquiet.no_request] at hn
    simp at hn
  obtain ⟨t, j, pc, hat, hpc, rfl⟩ := hheld
  obtain ⟨rfl, hsent⟩ := (h.assert t j pc hat).request hpc (h.valid t j pc hat).cmd hn
  exact ⟨t, j, pc, hat, rfl, hsent⟩

namespace ServedState.Recorded

variable {s : ServedState T σ} {fds : Finset ℤ}

/-- The call that the PLC serves was invoked with this request, and was not served before. -/
theorem unserved (h : s.Recorded D plc) (hinv : Inv P fds s.threads) {fd : ℤ}
    {cmd rest : List Byte} {id : T × ℕ}
    (hc : nextFrame P.request (s.threads.shared.wire fd).toPlc = some (cmd, rest))
    (hid : (s.threads.shared.wire fd).sent[(s.threads.shared.wire fd).log.length]? = some id) :
    .invoked id (fd, cmd) ∈ s.history ∧ ∀ i r, .served id i r ∉ s.history := by
  obtain ⟨t, j, pc, hat, hframe, hsent⟩ := hinv.request hc
  obtain rfl := Option.some.inj (hid.symm.trans hsent)
  refine ⟨hframe ▸ h.current t j pc hat, fun i r hr => ?_⟩
  obtain ⟨n, hn, hlt⟩ := h.served _ i r hr
  obtain ⟨rfl, rfl⟩ := (h.began fd _ _ _ hsent).unique (h.began i.1 n _ _ hn)
  exact lt_irrefl _ hlt

theorem answer (h : s.Recorded D plc) (hinv : Inv P fds s.threads) {fd : ℤ}
    {cmd rest : List Byte} {id : T × ℕ}
    (hc : nextFrame P.request (s.threads.shared.wire fd).toPlc = some (cmd, rest))
    (hid : (s.threads.shared.wire fd).sent[(s.threads.shared.wire fd).log.length]? = some id) :
    Recorded D plc ⟨s.threads.answer fd cmd rest (D.serve fd cmd s.plc).1,
      (D.serve fd cmd s.plc).2,
      s.history ++ [.served id (fd, cmd) (.success, (D.serve fd cmd s.plc).1)]⟩ := by
  obtain ⟨hinvoked, hnew⟩ := h.unserved hinv hc hid
  have hself : (s.threads.answer fd cmd rest (D.serve fd cmd s.plc).1).shared.wire fd =
      (s.threads.shared.wire fd).answer cmd rest (D.serve fd cmd s.plc).1 :=
    Function.update_self ..
  have hother : ∀ fd', fd' ≠ fd →
      (s.threads.answer fd cmd rest (D.serve fd cmd s.plc).1).shared.wire fd' =
        s.threads.shared.wire fd' := fun fd' hne => Function.update_of_ne hne ..
  have hsent : ∀ fd', ((s.threads.answer fd cmd rest (D.serve fd cmd s.plc).1).shared.wire
      fd').sent = (s.threads.shared.wire fd').sent := by
    intro fd'
    by_cases hfd : fd' = fd
    · rw [hfd, hself]
      rfl
    · rw [hother fd' hfd]
  refine ⟨h.pointed.served id (fd, cmd) hinvoked hnew, ?_, ?_, ?_, ?_, ?_, ?_⟩
  · intro t j pc hat
    exact List.mem_append_left _ (h.current t j pc hat)
  · intro t c i hi
    exact h.invoked t c i (by simpa using hi)
  · intro fd' n x hx
    dsimp only at hx ⊢
    rw [hsent]
    by_cases hfd : fd' = fd
    · subst hfd
      rw [hself] at hx
      by_cases hn : n < (s.threads.shared.wire fd').log.length
      · rw [Wire.answer, List.getElem?_append_left hn] at hx
        obtain ⟨id', hid', hserved⟩ := h.logged fd' n x hx
        exact ⟨id', hid', List.mem_append_left _ hserved⟩
      · rw [Wire.answer, List.getElem?_append_right (by omega)] at hx
        obtain ⟨hlt, rfl⟩ := List.getElem?_eq_some_iff.mp hx
        obtain rfl : n = (s.threads.shared.wire fd').log.length := by
          rw [List.length_singleton] at hlt
          omega
        exact ⟨id, hid, by simp⟩
    · rw [hother fd' hfd] at hx
      obtain ⟨id', hid', hserved⟩ := h.logged fd' n x hx
      exact ⟨id', hid', List.mem_append_left _ hserved⟩
  · intro id' i r hr
    dsimp only at hr ⊢
    rw [hsent]
    rcases List.mem_append.mp hr with hr | he
    · obtain ⟨n, hn, hlt⟩ := h.served id' i r hr
      refine ⟨n, hn, ?_⟩
      by_cases hfd : i.1 = fd
      · rw [hfd] at hlt ⊢
        rw [hself, Wire.answer, List.length_append]
        omega
      · rw [hother i.1 hfd]
        exact hlt
    · obtain ⟨rfl, rfl, -⟩ := CallEvent.served.inj (List.mem_singleton.mp he)
      refine ⟨_, hid, ?_⟩
      rw [hself, Wire.answer, List.length_append, List.length_singleton]
      exact Nat.lt_succ_self _
  · intro fd' n t c hn
    rw [hsent] at hn
    exact h.began fd' n t c hn
  · intro t c i r
    refine Iff.trans ?_ (h.returned t c i r)
    simp

variable [DecidableEq T]

theorem start (h : s.Recorded D plc) {t : T} {j : Job} {js : List Job}
    (hc : (s.threads.thread t).current = none) (ht : (s.threads.thread t).todo = j :: js)
    {th : Thread} (hth : th = { s.threads.thread t with
      todo := js, current := some (j, .lockG) }) :
    Recorded D plc ⟨s.threads.setThread t th, s.plc,
      s.history ++ [.invoked (s.threads.callOf t) j.frame]⟩ := by
  have hcall : ∀ u, (s.threads.setThread t th).callOf u = s.threads.callOf u := by
    intro u
    unfold State.callOf
    by_cases hu : u = t
    · rw [hu, State.setThread_thread_self, hth]
    · rw [State.setThread_thread_of_ne _ _ hu]
  have hcalls : th.calls = (s.threads.thread t).calls := by
    simp [Thread.calls, hth, hc, ht]
  refine ⟨h.pointed.invoked _ _ fun i hi => ?_, ?_, ?_, ?_, ?_, ?_, ?_⟩
  · have hlt := (h.invoked t _ i hi).1
    simp [hc] at hlt
  · intro u k q hat
    dsimp only at hat ⊢
    rw [hcall]
    by_cases hu : u = t
    · subst hu
      rw [State.at_setThread_self, hth] at hat
      obtain ⟨rfl, -⟩ := Prod.mk.inj (Option.some.inj hat)
      simp
    · exact List.mem_append_left _ (h.current u k q ((State.at_setThread_of_ne hu).mp hat))
  · intro u c i hi
    dsimp only at hi ⊢
    rw [State.calls_setThread hcalls]
    rcases List.mem_append.mp hi with hi | he
    · obtain ⟨hlt, hframe⟩ := h.invoked u c i hi
      refine ⟨?_, hframe⟩
      by_cases hu : u = t
      · subst hu
        rw [State.setThread_thread_self, hth]
        rw [hc] at hlt
        exact lt_of_lt_of_le hlt (by simp)
      · rw [State.setThread_thread_of_ne _ _ hu]
        exact hlt
    · obtain ⟨hid, rfl⟩ := CallEvent.invoked.inj (List.mem_singleton.mp he)
      obtain ⟨rfl, rfl⟩ := Prod.mk.inj hid
      rw [State.setThread_thread_self, hth]
      simp [Thread.calls, hc, ht]
  · intro fd n x hx
    obtain ⟨id, hid, hserved⟩ := h.logged fd n x hx
    exact ⟨id, hid, List.mem_append_left _ hserved⟩
  · intro id i r hr
    exact h.served id i r (by simpa using hr)
  · intro fd n u c hn
    by_cases hu : u = t
    · subst hu
      rcases h.began fd n u c hn with ⟨x, hx, hrest⟩ | ⟨-, k, q, hat, -⟩
      · refine .inl ⟨x, ?_, hrest⟩
        rw [State.setThread_thread_self, hth]
        exact hx
      · rw [State.At, hc] at hat
        simp at hat
    · exact (h.began fd n u c hn).setThread_of_ne hu
  · intro u c i r
    have hres : ((s.threads.setThread t th).thread u).results = (s.threads.thread u).results := by
      by_cases hu : u = t
      · rw [hu, State.setThread_thread_self, hth]
      · rw [State.setThread_thread_of_ne _ _ hu]
    dsimp only
    rw [hres, ← h.returned]
    simp

theorem act (h : s.Recorded D plc) {t : T} {j : Job} {pc pc' : Pc} {a : Act} {sh : Shared T}
    (hat : s.threads.At t j pc) (hn : Next P j pc a pc')
    (he : s.threads.shared.effect t (s.threads.thread t).results.length j.fd a sh) :
    Recorded D plc ⟨s.threads.proceed t j pc' sh, s.plc, s.history⟩ := by
  obtain ⟨hlog, hsent⟩ := hn.records he
  have hcur : (s.threads.thread t).current = some (j, pc) := hat
  refine ⟨h.pointed, ?_, ?_, ?_, ?_, ?_, ?_⟩
  · intro u k q hu
    dsimp only at hu ⊢
    rw [State.callOf_proceed]
    by_cases hut : u = t
    · subst hut
      obtain ⟨rfl, -⟩ := State.at_proceed_self.mp hu
      exact h.current u j pc hat
    · exact h.current u k q ((State.at_proceed_of_ne hut).mp hu)
  · intro u c i hi
    have hstep := Step.act s.threads t j pc pc' a sh hat hn he
    dsimp only
    rw [hstep.calls, State.results_proceed]
    obtain ⟨hlt, hframe⟩ := h.invoked u c i hi
    refine ⟨?_, hframe⟩
    by_cases hu : u = t
    · subst hu
      unfold State.proceed
      rw [State.setThread_thread_self]
      simpa [hcur] using hlt
    · unfold State.proceed
      rw [State.setThread_thread_of_ne _ _ hu]
      exact hlt
  · intro fd n x hx
    change (sh.wire fd).log[n]? = some x at hx
    rw [hlog] at hx
    obtain ⟨id, hid, hserved⟩ := h.logged fd n x hx
    exact ⟨id, Wire.getElem?_prefix (Inv.extends_act hn he fd).2 hid, hserved⟩
  · intro id i r hr
    obtain ⟨n, hid, hlt⟩ := h.served id i r hr
    refine ⟨n, Wire.getElem?_prefix (Inv.extends_act hn he i.1).2 hid, ?_⟩
    change n < (sh.wire i.1).log.length
    rwa [hlog]
  · intro fd n u c hu
    change (sh.wire fd).sent[n]? = some (u, c) at hu
    rcases hsent with ⟨hsent, hmono⟩ | ⟨hnone, hticket, hsent⟩
    · rw [hsent] at hu
      exact (h.began fd n u c hu).proceed hat hmono
    · rw [hsent] at hu
      by_cases hlt : n < (s.threads.shared.wire fd).sent.length
      · rw [List.getElem?_append_left hlt] at hu
        exact (h.began fd n u c hu).proceed hat (by simp [hnone])
      · rw [List.getElem?_append_right (by omega)] at hu
        split_ifs at hu with hfd
        · subst hfd
          obtain ⟨hn, hid⟩ := List.getElem?_eq_some_iff.mp hu
          rw [List.length_singleton] at hn
          rw [List.getElem_singleton] at hid
          obtain ⟨rfl, rfl⟩ := Prod.mk.inj hid
          obtain rfl : n = (s.threads.shared.wire j.fd).sent.length := by omega
          refine .inr ⟨(State.results_proceed t).symm ▸ rfl, j, pc', ?_, rfl, hticket⟩
          exact State.at_proceed_self.mpr ⟨rfl, rfl⟩
        · simp at hu
  · intro u c i r
    dsimp only
    rw [State.results_proceed]
    exact h.returned u c i r

theorem finish (h : s.Recorded D plc) (hinv : Inv P fds s.threads) {t : T} {j : Job} {out : Reply}
    (hat : s.threads.At t j (.returned out)) {th : Thread} (hth : th = { s.threads.thread t with
      current := none, results := (s.threads.thread t).results ++ [(j, out)] }) :
    Recorded D plc ⟨s.threads.setThread t th, s.plc,
      s.history ++ [.returned (s.threads.callOf t) j.frame out.result]⟩ := by
  have hcur : (s.threads.thread t).current = some (j, .returned out) := hat
  have hcalls : th.calls = (s.threads.thread t).calls := by
    simp [Thread.calls, hth, hcur]
  have hserved : .served (s.threads.callOf t) j.frame out.result ∈ s.history := by
    obtain ⟨hcode, hsent, hlog⟩ := hinv.assert t j _ hat
    obtain ⟨id, hid, hserved⟩ := h.logged j.fd out.ticket _ hlog
    obtain rfl := Option.some.inj (hsent.symm.trans hid)
    unfold Reply.result
    rw [hcode]
    exact hserved
  refine ⟨h.pointed.returned _ _ _ hserved, ?_, ?_, ?_, ?_, ?_, ?_⟩
  · intro u k q hu
    dsimp only at hu ⊢
    by_cases hut : u = t
    · subst hut
      rw [State.at_setThread_self, hth] at hu
      simp at hu
    · have hold := h.current u k q ((State.at_setThread_of_ne hut).mp hu)
      unfold State.callOf at hold ⊢
      rw [State.setThread_thread_of_ne _ _ hut]
      exact List.mem_append_left _ hold
  · intro u c i hi
    dsimp only at hi ⊢
    rw [State.calls_setThread hcalls]
    obtain ⟨hlt, hframe⟩ := h.invoked u c i (by simpa using hi)
    refine ⟨?_, hframe⟩
    by_cases hu : u = t
    · subst hu
      rw [State.setThread_thread_self, hth]
      simpa [hcur] using hlt
    · rw [State.setThread_thread_of_ne _ _ hu]
      exact hlt
  · intro fd n x hx
    obtain ⟨id, hid, hserved⟩ := h.logged fd n x hx
    exact ⟨id, hid, List.mem_append_left _ hserved⟩
  · intro id i r hr
    exact h.served id i r (by simpa using hr)
  · intro fd n u c hn
    by_cases hu : u = t
    · subst hu
      refine .inl ?_
      rw [State.setThread_thread_self, hth]
      rcases h.began fd n u c hn with ⟨x, hx, hrest⟩ | ⟨rfl, k, q, hat', hfd, hticket⟩
      · exact ⟨x, Wire.getElem?_prefix (List.prefix_append _ _) hx, hrest⟩
      · obtain ⟨rfl, rfl⟩ := hat.unique hat'
        exact ⟨(j, out), by simp, hfd, Option.some.inj hticket⟩
    · exact (h.began fd n u c hn).setThread_of_ne hu
  · intro u c i r
    have hnew : CallEvent.returned (ρ := fun _ => ErrorCode × List Byte) (u, c) i r ∈
        s.history ++ [.returned (s.threads.callOf t) j.frame out.result] ↔
          .returned (u, c) i r ∈ s.history ∨
            (u = t ∧ c = (s.threads.thread t).results.length) ∧ (i, r) = (j.frame, out.result) := by
      simp [State.callOf]
    dsimp only
    rw [hnew, h.returned]
    by_cases hu : u = t
    · subst hu
      rw [State.setThread_thread_self, hth]
      rcases lt_trichotomy c (s.threads.thread u).results.length with hlt | rfl | hgt
      · simp [List.getElem?_append_left hlt, hlt.ne]
      · simp [eq_comm]
      · simp [List.getElem?_eq_none hgt.le, hgt.ne', List.getElem?_append_right hgt.le,
          Nat.sub_ne_zero_of_lt hgt]
    · rw [State.setThread_thread_of_ne _ _ hu]
      simp [hu]

/-- Every step keeps the record. -/
theorem step (h : s.Recorded D plc) (hinv : Inv P fds s.threads) {s' : ServedState T σ}
    (hs : ServedStep D s s') : s'.Recorded D plc := by
  cases hs with
  | start t j js hc ht => exact h.start hc ht rfl
  | act t j pc pc' a sh hat hn he => exact h.act hat hn he
  | finish t j out hat => exact h.finish hinv hat rfl
  | answer fd cmd rest id hc hid => exact h.answer hinv hc hid

end ServedState.Recorded

section Runs

variable [DecidableEq T] {fds : Finset ℤ} {jobs : T → List Job} {s s' : ServedState T σ}

/-- In every reachable state the history agrees with the state. -/
theorem servedThreads_recorded (hjobs : ∀ t, ∀ j ∈ jobs t, j.Valid P fds)
    (hcard : fds.card ≤ maxTxConnections) (hs : (servedThreads D plc jobs).Reachable s) :
    s.Recorded D plc := by
  refine hs.induction (P := fun s => s.Recorded D plc) (fun s hinit => ?_)
    fun s s' hr h hstep => ?_
  · obtain rfl := hinit
    exact ⟨.start, by simp [State.At], by simp, by simp [Shared.initial, Wire.fresh], by simp,
      by simp [Shared.initial, Wire.fresh], by simp⟩
  · exact h.step (threads_inv hjobs hcard (servedThreads_threads hr)) hstep

/-- A thread makes a call when those before it have returned. -/
theorem servedThreads_program_order (hjobs : ∀ t, ∀ j ∈ jobs t, j.Valid P fds)
    (hcard : fds.card ≤ maxTxConnections) (hs : (servedThreads D plc jobs).Reachable s) :
    ∀ t i k f, i < k → .invoked (t, k) f ∈ s.history →
      ∃ g r, [.returned (t, i) g r, .invoked (t, k) f] <+ s.history := by
  refine hs.induction (P := fun s => ∀ t i k f, i < k → .invoked (t, k) f ∈ s.history →
    ∃ g r, [.returned (t, i) g r, .invoked (t, k) f] <+ s.history) (fun s hinit => ?_)
    fun s s' hr ih hstep t i k f hi hk => ?_
  · obtain rfl := hinit
    simp
  · have hkeep : ∀ e, (∀ g, e ≠ .invoked (t, k) g) → .invoked (t, k) f ∈ s.history ++ [e] →
        ∃ g r, [.returned (t, i) g r, .invoked (t, k) f] <+ s.history ++ [e] := by
      intro e he hm
      have hm : .invoked (t, k) f ∈ s.history := by
        simpa [(he f).symm] using hm
      obtain ⟨g, r, hsub⟩ := ih t i k f hi hm
      exact ⟨g, r, hsub.trans (List.sublist_append_left _ _)⟩
    cases hstep with
    | start u j js hc ht =>
      by_cases hnew : s.threads.callOf u = (t, k)
      · obtain ⟨rfl, rfl⟩ := Prod.mk.inj hnew
        have hrec := servedThreads_recorded hjobs hcard hr
        have hlast : f = j.frame := by
          rcases List.mem_append.mp hk with hm | he
          · have hlt := (hrec.invoked u _ f hm).1
            simp [hc] at hlt
          · exact (CallEvent.invoked.inj (List.mem_singleton.mp he)).2
        subst hlast
        have hret := (hrec.returned u i _ _).mpr (by
          rw [List.getElem?_eq_getElem hi, Option.map_some])
        exact ⟨_, _, pair_sublist_append hret (by simp [State.callOf])⟩
      · exact hkeep _ (fun g he => hnew (CallEvent.invoked.inj he).1) hk
    | act u j pc pc' a sh h hn he => exact ih t i k f hi hk
    | finish u j out h => exact hkeep _ (by simp) hk
    | answer fd cmd rest id hc hid => exact hkeep _ (by simp) hk

/-- The PLC is never the one that cannot go on: a request that it can read is that of a call. -/
theorem ServedStep.exists_of_step {st : State T} (hinv : Inv P fds s.threads)
    (hs : Step P s.threads st) : ∃ s', ServedStep D s s' := by
  cases hs with
  | start t j js hc ht => exact ⟨_, .start s t j js hc ht⟩
  | act t j pc pc' a sh h hn he => exact ⟨_, .act s t j pc pc' a sh h hn he⟩
  | finish t j out h => exact ⟨_, .finish s t j out h⟩
  | answer fd cmd rest response hc hr =>
    obtain ⟨t, j, pc, -, -, hid⟩ := hinv.request hc
    exact ⟨_, .answer s fd cmd rest _ hc hid⟩

/-- A thread that has no more calls to make has made all of its calls. -/
theorem servedThreads_finished (hs : (servedThreads D plc jobs).Reachable s)
    (hfin : s.threads.Finished) (t : T) : (s.threads.thread t).results.map Prod.fst = jobs t := by
  have hcalls := threads_calls (servedThreads_threads hs) t
  unfold Thread.calls at hcalls
  simpa [(hfin t).1, (hfin t).2] using hcalls

end Runs

end Records

section Progress

variable {T σ : Type*} [Fintype T] [DecidableEq T] {m : Module} {D : Device m.protocol σ} {plc : σ}
  {fds : Finset ℤ} {jobs : T → List Job} {s : ServedState T σ}

omit [Fintype T] in
/-- Until all calls have returned some step is possible. -/
theorem servedThreads_progress (hjobs : ∀ t, ∀ j ∈ jobs t, j.Valid m.protocol fds)
    (hcard : fds.card ≤ maxTxConnections) (hs : (servedThreads D plc jobs).Reachable s) :
    s.threads.Finished ∨ ∃ s', ServedStep D s s' := by
  have hinv := threads_inv hjobs hcard (servedThreads_threads hs)
  by_cases hfin : s.threads.Finished
  · exact .inl hfin
  · obtain ⟨st, hst⟩ := exists_step hinv m.exists_response hfin
    exact .inr (ServedStep.exists_of_step hinv hst)

/-- No run goes on for ever. -/
theorem servedThreads_terminates (hjobs : ∀ t, ∀ j ∈ jobs t, j.Valid m.protocol fds)
    (hcard : fds.card ≤ maxTxConnections) (hs : (servedThreads D plc jobs).Reachable s) :
    Acc (fun s' s => ServedStep D s s') s := by
  refine TransitionSystem.acc_of_measure (P := (servedThreads D plc jobs).Reachable)
    (fun s : ServedState T σ => s.threads.measure fds) (fun s s' h hstep => h.next hstep)
    (fun s s' h hstep => ?_) s hs
  exact measure_step (threads_inv hjobs hcard (servedThreads_threads h)) hstep.step

/-- Some run ends, with all calls returned. -/
theorem servedThreads_finishes (D : Device m.protocol σ) (plc : σ)
    (hjobs : ∀ t, ∀ j ∈ jobs t, j.Valid m.protocol fds) (hcard : fds.card ≤ maxTxConnections) :
    ∃ s : ServedState T σ, (servedThreads D plc jobs).Reachable s ∧ s.threads.Finished := by
  have hstart := TransitionSystem.Reachable.initial (M := servedThreads D plc jobs) rfl
  obtain ⟨s, -, hgoal⟩ := TransitionSystem.reaches_of_acc
    (P := (servedThreads D plc jobs).Reachable)
    (fun s => (servedThreads D plc jobs).Reachable s ∧ s.threads.Finished)
    (fun s s' h hstep => h.next hstep)
    (fun s h hgoal => (servedThreads_progress hjobs hcard h).resolve_left fun hfin =>
      hgoal ⟨h, hfin⟩) hstart (servedThreads_terminates hjobs hcard hstart)
  exact ⟨s, hgoal⟩

end Progress

/-- Threads that make transactions with a PLC, on at most 64 of its connections, with complete
requests and a `retry_count` that is not negative, while no `send` or `recv` fails or times out and
the mutexes of new slots are initialised: every history is linearizable, and has of the calls that
returned what they returned. Until all calls have returned some step is possible, and every run
ends. -/
theorem transactions_linearizable (m : Module) {T σ : Type} [Fintype T] [DecidableEq T]
    (D : Device m.protocol σ) (plc : σ) (fds : Finset ℤ) (hcard : fds.card ≤ maxTxConnections)
    (jobs : T → List Job) (hjobs : ∀ t, ∀ j ∈ jobs t, j.Valid m.protocol fds)
    {s : ServedState T σ} (hs : (servedThreads D plc jobs).Reachable s) :
    D.object.Linearizable plc s.history ∧
    (∀ t c i, .invoked (t, c) i ∈ s.history → ((jobs t)[c]?).map Job.frame = some i) ∧
    (∀ t c i r, .returned (t, c) i r ∈ s.history ↔
      ((s.threads.thread t).results[c]?).map (fun x => (x.1.frame, x.2.result)) = some (i, r)) ∧
    (s.threads.Finished ∨ ∃ s', ServedStep D s s') ∧
    (s.threads.Finished → ∀ t, (s.threads.thread t).results.map Prod.fst = jobs t) ∧
    Acc (fun s' s => ServedStep D s s') s := by
  have hrec := servedThreads_recorded hjobs hcard hs
  refine ⟨hrec.pointed.linearizable, fun t c i hi => ?_, hrec.returned,
    servedThreads_progress hjobs hcard hs, servedThreads_finished hs,
    servedThreads_terminates hjobs hcard hs⟩
  rw [← threads_calls (servedThreads_threads hs) t]
  exact (hrec.invoked t c i hi).2

/-- A PLC that answers every request with the number of those before it. -/
def countingDevice : Device Module.binary.protocol (BitVec 16) where
  serve _ _ n := (binaryResponse [0xD0, 0x00, 0x00, 0xFF, 0xFF, 0x03, 0x00] 0 (wordBytes n.toNat),
    n + 1)
  isFrame _ _ n := (binaryResponse_wellFormed 0 (wordBytes n.toNat) rfl
    (show 2 + 2 < 2 ^ 16 by decide)).isFrame

/-- Two threads that read D140 on descriptor 3. -/
theorem transactions_linearizable_two :
    ∃ s : ServedState (Fin 2) (BitVec 16),
      (servedThreads countingDevice 0 fun _ => [jobD140]).Reachable s ∧
      countingDevice.object.Linearizable 0 s.history ∧
      ∀ t, ∃ r, .returned (t, 0) jobD140.frame r ∈ s.history := by
  have hjobs : ∀ t : Fin 2, ∀ j ∈ (fun _ => [jobD140]) t, j.Valid Module.binary.protocol {3} := by
    intro t j hj
    obtain rfl := List.mem_singleton.mp hj
    exact ⟨by decide, by decide, by decide⟩
  obtain ⟨s, hs, hfin⟩ := servedThreads_finishes countingDevice 0 hjobs (by decide)
  obtain ⟨hlin, -, hret, -, hall, -⟩ := transactions_linearizable .binary countingDevice 0 {3}
    (by decide) (fun _ => [jobD140]) hjobs hs
  refine ⟨s, hs, hlin, fun t => ?_⟩
  obtain ⟨x, hx, hjob⟩ := List.map_eq_singleton_iff.mp (hall hfin t)
  refine ⟨x.2.result, (hret t 0 _ _).mpr ?_⟩
  rw [hx, ← hjob]
  rfl

end MelsecMc
