import MelsecMc.ResponseFraming
import MelsecMc.Serialisation

/-!
# Every transaction of every thread returns

As long as a call has not returned, some step is possible: the owner of
`g_connection_mutex` never waits, the owner of another mutex waits for that one
or for the PLC only. Every step brings a thread closer to the end of its call,
or moves bytes towards it.
-/
namespace MelsecMc

open FramedStream

namespace Pc

/-- An upper bound for the steps of a call apart from those of `recv`, a byte of the request
counting twice: it has to be sent and to be read. -/
def rank (j : Job) : Pc → ℕ
  | lockG => 2 * j.cmd.length + 15
  | find => 2 * j.cmd.length + 14
  | vacant => 2 * j.cmd.length + 13
  | create _ => 2 * j.cmd.length + 12
  | unlockG _ => 2 * j.cmd.length + 11
  | lockTx _ => 2 * j.cmd.length + 10
  | config => 2 * j.cmd.length + 9
  | sendLockG => 2 * j.cmd.length + 8
  | send _ left => 2 * left.length + 7
  | recv _ _ => 6
  | relockG _ => 5
  | lookup _ => 4
  | reunlockG _ _ => 3
  | unlockTx _ _ => 2
  | returned _ => 1

end Pc

/-- The steps left to a thread. -/
def Thread.rank (th : Thread) : ℕ :=
  (th.todo.map fun j => 2 * j.cmd.length + 16).sum +
    match th.current with
    | none => 0
    | some (j, pc) => pc.rank j

/-- A sum of which one summand changes. -/
theorem sum_change {ι : Type*} {A : Finset ι} {f g : ι → ℕ} {i : ι} (hi : i ∈ A)
    (h : ∀ k, k ≠ i → g k = f k) : ∑ k ∈ A, g k + f i = ∑ k ∈ A, f k + g i := by
  classical
  have hrest : ∑ k ∈ A.erase i, g k = ∑ k ∈ A.erase i, f k :=
    Finset.sum_congr rfl fun k hk => h k (Finset.ne_of_mem_erase hk)
  have hf := Finset.add_sum_erase A f hi
  have hg := Finset.add_sum_erase A g hi
  omega

section Enabled

variable {T : Type*} [DecidableEq T] {P : Protocol} {fds : Finset ℤ} {s : State T} {t : T} {j : Job}
  {pc : Pc}

/-- The owner of `g_connection_mutex` can go on. -/
theorem step_of_holdsG (hat : s.At t j pc) (hpc : pc.HoldsG) : ∃ s', Step P s s' := by
  cases pc with
  | find =>
    cases hf : s.shared.locks.find j.fd with
    | none => exact ⟨_, .act s t j _ _ _ _ hat .notFound ⟨hf, rfl⟩⟩
    | some i => exact ⟨_, .act s t j _ _ _ _ hat (.found i) ⟨hf, rfl⟩⟩
  | vacant =>
    cases hv : s.shared.locks.vacant with
    | none => exact ⟨_, .act s t j _ _ _ _ hat .full ⟨hv, rfl⟩⟩
    | some i => exact ⟨_, .act s t j _ _ _ _ hat (.vacant i) ⟨hv, rfl⟩⟩
  | create i => exact ⟨_, .act s t j _ _ _ _ hat (.create i) rfl⟩
  | unlockG slot =>
    cases slot with
    | none => exact ⟨_, .act s t j _ _ _ _ hat .lockFailed rfl⟩
    | some i => exact ⟨_, .act s t j _ _ _ _ hat (.unlockG i) rfl⟩
  | send n left =>
    by_cases hl : left = []
    · subst hl
      exact ⟨_, .act s t j _ _ _ _ hat (.sendUnlockG n) rfl⟩
    · exact ⟨_, .act s t j _ _ _ _ hat (.send n 0 left hl) rfl⟩
  | lookup out => exact ⟨_, .act s t j _ _ _ _ hat (.lookup out _) ⟨rfl, rfl⟩⟩
  | reunlockG out slot =>
    cases slot with
    | none => exact ⟨_, .act s t j _ _ _ _ hat (.unlockFailed out) rfl⟩
    | some i => exact ⟨_, .act s t j _ _ _ _ hat (.reunlockG out i) rfl⟩
  | lockG | lockTx i | config | sendLockG | recv n got | relockG out | unlockTx out i
  | returned out => exact hpc.elim

/-- A thread that waits for a response gets some of it, or its PLC has a request to answer. -/
theorem step_of_recv (h : Inv P fds s) (hresp : ∃ r, IsFrame P.response r) {n : ℕ}
    {got : List Byte} (hat : s.At t j (.recv n got)) : ∃ s', Step P s s' := by
  obtain ⟨-, -, ⟨hto, -, -, -⟩ | ⟨-, hframe, -, -⟩⟩ := h.assert t j _ hat
  · obtain ⟨r, hr⟩ := hresp
    have hnext := nextFrame_append P.request (h.valid t j _ hat).cmd []
    rw [List.append_nil, ← hto] at hnext
    exact ⟨_, .answer s j.fd _ _ r hnext hr⟩
  · cases hfrom : (s.shared.wire j.fd).fromPlc with
    | nil =>
      rw [hfrom, List.append_nil] at hframe
      exact ⟨_, .act s t j _ _ _ _ hat (.complete n got hframe) rfl⟩
    | cons b rest =>
      have hw := wanted_pos P.response hframe (by simp [hfrom])
      exact ⟨_, .act s t j _ _ _ _ hat (.recv n got [b] (by simp) hw)
        ⟨rest, by simp [hfrom], rfl⟩⟩

/-- While `g_connection_mutex` is free, the owner of the mutex of a descriptor can go on, or its PLC
can. -/
theorem step_of_holdsTx (h : Inv P fds s) (hresp : ∃ r, IsFrame P.response r)
    (hfree : s.shared.gOwner = none) (hat : s.At t j pc) (hpc : pc.HoldsTx) :
    ∃ s', Step P s s' := by
  cases pc with
  | config =>
    exact ⟨_, .act s t j _ _ _ _ hat (.config (h.valid t j _ hat).retryCount) rfl⟩
  | sendLockG => exact ⟨_, .act s t j _ _ _ _ hat (.sendLockG _) ⟨hfree, rfl, rfl⟩⟩
  | send n left | lookup out | reunlockG out slot => exact step_of_holdsG hat trivial
  | recv n got => exact step_of_recv h hresp hat
  | relockG out => exact ⟨_, .act s t j _ _ _ _ hat (.relockG out) ⟨hfree, rfl⟩⟩
  | unlockTx out i => exact ⟨_, .act s t j _ _ _ _ hat (.unlockTx out i) rfl⟩
  | lockG | find | vacant | create i | unlockG slot | lockTx i | returned out => exact hpc.elim

/-- There is no deadlock. -/
theorem exists_step (h : Inv P fds s) (hresp : ∃ r, IsFrame P.response r)
    (hfin : ¬ s.Finished) : ∃ s', Step P s s' := by
  cases howner : s.shared.gOwner with
  | some u =>
    obtain ⟨j, pc, hat, hpc⟩ := (h.g u).mp howner
    exact step_of_holdsG hat hpc
  | none =>
    obtain ⟨t, ht⟩ := not_forall.mp hfin
    cases hcur : (s.thread t).current with
    | none =>
      cases htodo : (s.thread t).todo with
      | nil => exact absurd ⟨htodo, hcur⟩ ht
      | cons j js => exact ⟨_, .start s t j js hcur htodo⟩
    | some call =>
      obtain ⟨j, pc⟩ := call
      have hat : s.At t j pc := hcur
      cases pc with
      | lockG => exact ⟨_, .act s t j _ _ _ _ hat .lockG ⟨howner, rfl⟩⟩
      | lockTx i =>
        cases htx : s.shared.txOwner i with
        | none => exact ⟨_, .act s t j _ _ _ _ hat (.lockTx i) ⟨htx, rfl⟩⟩
        | some u =>
          obtain ⟨k, q, hu, hq, -⟩ := (h.tx i u).mp htx
          exact step_of_holdsTx h hresp howner hu hq
      | returned out => exact ⟨_, .finish s t j out hat⟩
      | find | vacant | create i | unlockG slot => exact step_of_holdsG hat trivial
      | config | sendLockG | send n left | recv n got | relockG out | lookup out
      | reunlockG out slot | unlockTx out i => exact step_of_holdsTx h hresp howner hat trivial

end Enabled

section Measure

variable {T : Type*} {P : Protocol} {fds : Finset ℤ}

/-- What is left to do for the threads, and for the PLCs to read. -/
def State.work [Fintype T] (fds : Finset ℤ) (s : State T) : ℕ :=
  ∑ t, (s.thread t).rank + ∑ fd ∈ fds, (s.shared.wire fd).toPlc.length

/-- What is left to receive. -/
def State.incoming (fds : Finset ℤ) (s : State T) : ℕ :=
  ∑ fd ∈ fds, (s.shared.wire fd).fromPlc.length

/-- The measure that every step lowers. -/
def State.measure [Fintype T] (fds : Finset ℤ) (s : State T) : ℕ ×ₗ ℕ :=
  toLex (s.work fds, s.incoming fds)

theorem measure_lt_of_work [Fintype T] {s s' : State T} (h : s'.work fds < s.work fds) :
    s'.measure fds < s.measure fds :=
  Prod.Lex.lt_iff.mpr (.inl h)

theorem measure_lt_of_incoming [Fintype T] {s s' : State T} (hw : s'.work fds = s.work fds)
    (hi : s'.incoming fds < s.incoming fds) : s'.measure fds < s.measure fds :=
  Prod.Lex.lt_iff.mpr (.inr ⟨hw, hi⟩)

/-- What a step of a thread costs: its rank and the bytes it sends together get less, or it
receives something. -/
theorem Next.rank {s s' : Shared T} {t : T} {c : ℕ} {j : Job} {pc pc' : Pc} {a : Act}
    (hn : Next P j pc a pc') (he : s.effect t c j.fd a s') :
    pc'.rank j + (s'.wire j.fd).toPlc.length < pc.rank j + (s.wire j.fd).toPlc.length ∨
      pc'.rank j + (s'.wire j.fd).toPlc.length = pc.rank j + (s.wire j.fd).toPlc.length ∧
        (s'.wire j.fd).fromPlc.length < (s.wire j.fd).fromPlc.length := by
  cases hn with
  | lockG | relockG out | found i | notFound | vacant i | full | lookup out slot | lockTx i =>
    obtain ⟨-, rfl⟩ := he
    simp only [Pc.rank]
    omega
  | sendLockG n =>
    obtain ⟨-, -, rfl⟩ := he
    simp only [Pc.rank, Shared.setWire, Function.update_self]
    omega
  | send n k left hl =>
    obtain rfl := he
    have hpos := List.length_pos_iff.mpr hl
    simp only [Pc.rank, Shared.setWire, Function.update_self, List.length_append,
      List.length_take, List.length_drop]
    omega
  | recv n got piece hp hw =>
    obtain ⟨rest, hfrom, rfl⟩ := he
    have hpos := List.length_pos_iff.mpr hp
    refine .inr ⟨?_, ?_⟩
    · simp only [Pc.rank, Shared.setWire, Function.update_self]
    · simp only [Shared.setWire, Function.update_self, hfrom, List.length_append]
      omega
  | create i | unlockG i | lockFailed | sendUnlockG n | reunlockG out i | unlockFailed out
  | config hr | noAttempt hr | badHeader n got hl ht | complete n got hg | unlockTx out i =>
    obtain rfl := he
    simp only [Pc.rank, List.length_nil]
    omega

variable [DecidableEq T] {s s' : State T}

theorem work_proceed [Fintype T] {t : T} {j : Job} {pc : Pc} (pc' : Pc) {sh : Shared T}
    (hat : s.At t j pc) (hfd : j.fd ∈ fds)
    (hother : ∀ fd, fd ≠ j.fd → sh.wire fd = s.shared.wire fd) :
    (s.proceed t j pc' sh).work fds + (pc.rank j + (s.shared.wire j.fd).toPlc.length) =
      s.work fds + (pc'.rank j + (sh.wire j.fd).toPlc.length) := by
  have hthreads := sum_change (f := fun u => (s.thread u).rank)
    (g := fun u => ((s.proceed t j pc' sh).thread u).rank) (Finset.mem_univ t) fun u hu => by
      unfold State.proceed
      rw [State.setThread_thread_of_ne _ _ hu]
  have hwires := sum_change (f := fun fd => (s.shared.wire fd).toPlc.length)
    (g := fun fd => (sh.wire fd).toPlc.length) hfd fun fd hne => by rw [hother fd hne]
  have hbefore : (s.thread t).rank =
      ((s.thread t).todo.map fun j => 2 * j.cmd.length + 16).sum + pc.rank j := by
    have hcur : (s.thread t).current = some (j, pc) := hat
    unfold Thread.rank
    rw [hcur]
  have hafter : ((s.proceed t j pc' sh).thread t).rank =
      ((s.thread t).todo.map fun j => 2 * j.cmd.length + 16).sum + pc'.rank j := by
    unfold State.proceed Thread.rank
    rw [State.setThread_thread_self]
  simp only [hbefore, hafter] at hthreads
  unfold State.work
  change _ + ∑ fd ∈ fds, (sh.wire fd).toPlc.length + _ = _
  omega

theorem incoming_proceed (t : T) {j : Job} (pc' : Pc) {sh : Shared T}
    (hfd : j.fd ∈ fds) (hother : ∀ fd, fd ≠ j.fd → sh.wire fd = s.shared.wire fd) :
    (s.proceed t j pc' sh).incoming fds + (s.shared.wire j.fd).fromPlc.length =
      s.incoming fds + (sh.wire j.fd).fromPlc.length :=
  sum_change (f := fun fd => (s.shared.wire fd).fromPlc.length)
    (g := fun fd => (sh.wire fd).fromPlc.length) hfd fun fd hne => by rw [hother fd hne]

/-- Beginning and ending a call are steps on the way, too. -/
theorem work_setThread [Fintype T] {t : T} {th : Thread} (h : th.rank < (s.thread t).rank) :
    (s.setThread t th).work fds < s.work fds := by
  have hthreads := sum_change (f := fun u => (s.thread u).rank)
    (g := fun u => ((s.setThread t th).thread u).rank) (Finset.mem_univ t) fun u hu => by
      rw [State.setThread_thread_of_ne _ _ hu]
  simp only [State.setThread_thread_self] at hthreads
  unfold State.work
  rw [State.setThread_shared]
  omega

/-- Every step lowers the measure. -/
theorem measure_step [Fintype T] (h : Inv P fds s) (hs : Step P s s') :
    s'.measure fds < s.measure fds := by
  cases hs with
  | start t j js hcur htodo =>
    refine measure_lt_of_work (work_setThread ?_)
    simp only [Thread.rank, hcur, htodo, List.map_cons, List.sum_cons, Pc.rank]
    omega
  | act t j pc pc' a sh hat hn he =>
    have hfd := (h.valid t j pc hat).fd
    have hother : ∀ fd, fd ≠ j.fd → sh.wire fd = s.shared.wire fd :=
      fun fd hne => Inv.wire_act hn he fun _ => hne
    have hwork := work_proceed pc' hat hfd hother
    have hincoming := incoming_proceed t pc' hfd hother
    rcases hn.rank he with hlt | ⟨heq, hlt⟩
    · exact measure_lt_of_work (by omega)
    · exact measure_lt_of_incoming (by omega) (by omega)
  | finish t j out hat =>
    refine measure_lt_of_work (work_setThread ?_)
    have hcur : (s.thread t).current = some (j, .returned out) := hat
    simp only [Thread.rank, hcur, Pc.rank]
    omega
  | answer fd cmd rest response hc hr =>
    have hfd : fd ∈ fds := by
      by_contra hfd
      have hquiet := h.quiet fd fun t j pc hat hpc he => hfd (he ▸ (h.valid t j pc hat).fd)
      rw [hquiet.no_request] at hc
      simp at hc
    obtain ⟨hto, hf⟩ := nextFrame_eq P.request hc
    have hpos := List.length_pos_iff.mpr (hf.ne_nil P.request P.request_header)
    have hwires := sum_change (f := fun fd' => (s.shared.wire fd').toPlc.length)
      (g := fun fd' => ((s.answer fd cmd rest response).shared.wire fd').toPlc.length) hfd
      fun fd' hne => by
        simp only [State.answer, Shared.setWire]
        rw [Function.update_of_ne hne]
    have hself : ((s.answer fd cmd rest response).shared.wire fd).toPlc = rest := by
      simp [State.answer, Shared.setWire, Wire.answer]
    rw [hself, hto, List.length_append] at hwires
    refine measure_lt_of_work ?_
    unfold State.work
    change ∑ t, (s.thread t).rank + _ < _
    omega

end Measure

theorem Module.exists_response (m : Module) : ∃ r, IsFrame m.protocol.response r := by
  cases m with
  | binary =>
    exact ⟨[0xD0, 0x00, 0x00, 0xFF, 0xFF, 0x03, 0x00, 0x02, 0x00, 0x00, 0x00], by decide⟩
  | ascii =>
    exact ⟨text ['D', '0', '0', '0', '0', '0', 'F', 'F', '0', '3', 'F', 'F', '0', '0', '0', '0',
      '0', '4', '0', '0', '0', '0'], by decide⟩

/-- However the steps of the threads and the PLCs are interleaved, every call that returned has
succeeded with the response to its own request. Every slot that was handed out is the same for the
same descriptor, and another one for another. Every run ends, and only when every call of every
thread has returned. -/
theorem transactions_serialised (m : Module) {T : Type} [Fintype T] [DecidableEq T]
    (fds : Finset ℤ) (hcard : fds.card ≤ maxTxConnections) (jobs : T → List Job)
    (hjobs : ∀ t, ∀ j ∈ jobs t, j.Valid m.protocol fds) {s : State T}
    (hs : (threads m.protocol jobs).Reachable s) :
    (∀ t c x, (s.thread t).results[c]? = some x →
      (jobs t)[c]? = some x.1 ∧ (s.shared.wire x.1.fd).Answered (t, c) x.1 x.2) ∧
    (∀ x ∈ s.shared.handed, ∀ y ∈ s.shared.handed, x.1 = y.1 ↔ x.2 = y.2) ∧
    (s.Finished ∨ ∃ s', Step m.protocol s s') ∧
    (s.Finished → ∀ t, (s.thread t).results.map Prod.fst = jobs t) ∧
    Acc (fun s' s => Step m.protocol s s') s := by
  have hinv := threads_inv hjobs hcard hs
  refine ⟨fun t c x hx => ⟨?_, hinv.results t c x hx⟩, fun x hx y hy => ?_, ?_, fun hfin t => ?_,
    ?_⟩
  · have hlt : c < (s.thread t).results.length := (List.getElem?_eq_some_iff.mp hx).1
    rw [← threads_calls hs t, Thread.calls, List.getElem?_append_left (by simpa using hlt),
      List.getElem?_map, hx, Option.map_some]
  · have hxs := hinv.handed x hx
    have hys := hinv.handed y hy
    constructor
    · intro he
      exact hxs.slot_unique hinv.unique (he ▸ hys)
    · intro he
      exact hxs.fd_unique (he ▸ hys)
  · by_cases hfin : s.Finished
    · exact .inl hfin
    · exact .inr (exists_step hinv m.exists_response hfin)
  · have hcalls := threads_calls hs t
    unfold Thread.calls at hcalls
    simpa [(hfin t).1, (hfin t).2] using hcalls
  · exact TransitionSystem.acc_of_measure (State.measure fds)
      (fun s s' h hstep => h.step hcard hstep) (fun s s' h hstep => measure_step h hstep) s hinv

/-- The call of both threads. -/
def jobD140 : Job :=
  ⟨3, [0x50, 0x00, 0x00, 0xFF, 0xFF, 0x03, 0x00, 0x0C, 0x00, 0x0A, 0x00, 0x01, 0x04, 0x00, 0x00,
    0x8C, 0x00, 0x00, 0xA8, 0x01, 0x00], 3⟩

/-- Two threads that read D140 on descriptor 3 get their responses. -/
theorem transactions_serialised_two :
    ∃ s : State (Fin 2), (threads Module.binary.protocol fun _ => [jobD140]).Reachable s ∧
      ∀ t, ∃ out, (s.thread t).results = [(jobD140, out)] ∧
        (s.shared.wire 3).Answered (t, 0) jobD140 out := by
  have hjobs : ∀ t : Fin 2, ∀ j ∈ (fun _ => [jobD140]) t, j.Valid Module.binary.protocol {3} := by
    intro t j hj
    obtain rfl := List.mem_singleton.mp hj
    exact ⟨by decide, by decide, by decide⟩
  have hall := fun (s : State (Fin 2)) hs =>
    transactions_serialised .binary {3} (by decide) (fun _ => [jobD140]) hjobs (s := s) hs
  have hstart := TransitionSystem.Reachable.initial
    (M := threads Module.binary.protocol fun _ : Fin 2 => [jobD140]) rfl
  obtain ⟨s, hrun, hs, hfin⟩ := TransitionSystem.reaches_of_acc
    (P := (threads Module.binary.protocol fun _ : Fin 2 => [jobD140]).Reachable)
    (fun s => (threads Module.binary.protocol fun _ => [jobD140]).Reachable s ∧ s.Finished)
    (fun s s' h hstep => h.next hstep)
    (fun s h hgoal => (hall s h).2.2.1.resolve_left fun hfin => hgoal ⟨h, hfin⟩) hstart
    (hall _ hstart).2.2.2.2
  obtain ⟨hresults, -, -, hcalls, -⟩ := hall s hs
  refine ⟨s, hs, fun t => ?_⟩
  obtain ⟨x, hx, hjob⟩ := List.map_eq_singleton_iff.mp (hcalls hfin t)
  have hanswered := (hresults t 0 x (by simp [hx])).2
  obtain ⟨j, out⟩ := x
  obtain rfl : j = jobD140 := hjob
  exact ⟨out, hx, hanswered⟩

end MelsecMc
