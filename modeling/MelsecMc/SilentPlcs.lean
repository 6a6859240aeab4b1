import MelsecMc.ServedThreads

/-!
# PLCs that stop answering

A thread waits for a response without `g_connection_mutex`, so a PLC that stops to answer
holds up only the calls on its own connection. When everything else has come to an end, a
thread has returned from all of its calls, or waits for the response of such a PLC, or for
the mutex of its descriptor.
-/
namespace MelsecMc

open FramedStream

section Silent

variable {T : Type*} [DecidableEq T] {P : Protocol} {fds : Finset ℤ} {s : State T} {t : T} {j : Job}
  {pc : Pc} {silent : Set ℤ}

/-- A step other than an answer of one of these PLCs. -/
def StepWithout (P : Protocol) (silent : Set ℤ) (s s' : State T) : Prop :=
  Step P s s' ∧ ∀ fd ∈ silent, (s'.shared.wire fd).log = (s.shared.wire fd).log

/-- Thread `t` can take a step in its call. -/
def State.CanGoOn (P : Protocol) (s : State T) (t : T) : Prop :=
  ∃ j pc pc' a sh, s.At t j pc ∧ Next P j pc a pc' ∧
    s.shared.effect t (s.thread t).results.length j.fd a sh

theorem State.CanGoOn.step (h : s.CanGoOn P t) (silent : Set ℤ) :
    ∃ s', StepWithout P silent s s' := by
  obtain ⟨j, pc, pc', a, sh, hat, hn, he⟩ := h
  exact ⟨_, .act s t j pc pc' a sh hat hn he, fun fd _ => (hn.records he).1 fd⟩

omit [DecidableEq T] in
theorem canGoOn_of_holdsG (hat : s.At t j pc) (hpc : pc.HoldsG) : s.CanGoOn P t := by
  cases pc with
  | find =>
    cases hf : s.shared.locks.find j.fd with
    | none => exact ⟨j, _, _, _, _, hat, .notFound, hf, rfl⟩
    | some i => exact ⟨j, _, _, _, _, hat, .found i, hf, rfl⟩
  | vacant =>
    cases hv : s.shared.locks.vacant with
    | none => exact ⟨j, _, _, _, _, hat, .full, hv, rfl⟩
    | some i => exact ⟨j, _, _, _, _, hat, .vacant i, hv, rfl⟩
  | create i => exact ⟨j, _, _, _, _, hat, .create i, rfl⟩
  | unlockG slot =>
    cases slot with
    | none => exact ⟨j, _, _, _, _, hat, .lockFailed, rfl⟩
    | some i => exact ⟨j, _, _, _, _, hat, .unlockG i, rfl⟩
  | send n left =>
    by_cases hl : left = []
    · subst hl
      exact ⟨j, _, _, _, _, hat, .sendUnlockG n, rfl⟩
    · exact ⟨j, _, _, _, _, hat, .send n 0 left hl, rfl⟩
  | lookup out => exact ⟨j, _, _, _, _, hat, .lookup out _, rfl, rfl⟩
  | reunlockG out slot =>
    cases slot with
    | none => exact ⟨j, _, _, _, _, hat, .unlockFailed out, rfl⟩
    | some i => exact ⟨j, _, _, _, _, hat, .reunlockG out i, rfl⟩
  | lockG | lockTx i | config | sendLockG | recv n got | relockG out | unlockTx out i
  | returned out => exact hpc.elim

/-- All that is left to do is for these PLCs to answer. -/
def State.Waits (P : Protocol) (silent : Set ℤ) (s : State T) : Prop :=
  ∀ s', ¬ StepWithout P silent s s'

theorem State.Waits.not_canGoOn (h : s.Waits P silent) (t : T) : ¬ s.CanGoOn P t := by
  intro hgo
  obtain ⟨s', hs'⟩ := hgo.step silent
  exact h s' hs'

theorem State.Waits.gOwner (h : s.Waits P silent) (hinv : Inv P fds s) :
    s.shared.gOwner = none := by
  cases howner : s.shared.gOwner with
  | none => rfl
  | some u =>
    obtain ⟨j, pc, hat, hpc⟩ := (hinv.g u).mp howner
    exact absurd (canGoOn_of_holdsG hat hpc) (h.not_canGoOn u)

/-- The response that a thread waits for is one of these PLCs', and none of it is there. -/
theorem State.Waits.recv (h : s.Waits P silent) (hinv : Inv P fds s)
    (hresp : ∃ r, IsFrame P.response r) {n : ℕ} {got : List Byte} (hat : s.At t j (.recv n got)) :
    j.fd ∈ silent ∧ got = [] := by
  obtain ⟨-, -, ⟨hto, -, hgot, -⟩ | ⟨-, hframe, -, -⟩⟩ := hinv.assert t j _ hat
  · refine ⟨?_, hgot⟩
    by_contra hfd
    obtain ⟨r, hr⟩ := hresp
    have hnext := nextFrame_append P.request (hinv.valid t j _ hat).cmd []
    rw [List.append_nil, ← hto] at hnext
    refine h _ ⟨.answer s j.fd _ _ r hnext hr, fun fd hm => ?_⟩
    have hne : fd ≠ j.fd := fun he => hfd (he ▸ hm)
    simp only [State.answer, Shared.setWire, Function.update_of_ne hne]
  · refine absurd ?_ (h.not_canGoOn t)
    cases hfrom : (s.shared.wire j.fd).fromPlc with
    | nil =>
      rw [hfrom, List.append_nil] at hframe
      exact ⟨j, _, _, _, _, hat, .complete n got hframe, rfl⟩
    | cons b rest =>
      have hw := wanted_pos P.response hframe (by simp [hfrom])
      exact ⟨j, _, _, _, _, hat, .recv n got [b] (by simp) hw, rest, by simp [hfrom], rfl⟩

theorem State.Waits.holdsTx (h : s.Waits P silent) (hinv : Inv P fds s)
    (hresp : ∃ r, IsFrame P.response r) (hat : s.At t j pc) (hpc : pc.HoldsTx) :
    j.fd ∈ silent ∧ ∃ n, pc = .recv n [] := by
  have hfree := h.gOwner hinv
  have hnot := h.not_canGoOn t
  cases pc with
  | recv n got =>
    obtain ⟨hfd, rfl⟩ := h.recv hinv hresp hat
    exact ⟨hfd, n, rfl⟩
  | config =>
    exact absurd ⟨j, _, _, _, _, hat, .config (hinv.valid t j _ hat).retryCount, rfl⟩ hnot
  | sendLockG => exact absurd ⟨j, _, _, _, _, hat, .sendLockG _, hfree, rfl, rfl⟩ hnot
  | relockG out => exact absurd ⟨j, _, _, _, _, hat, .relockG out, hfree, rfl⟩ hnot
  | unlockTx out i => exact absurd ⟨j, _, _, _, _, hat, .unlockTx out i, rfl⟩ hnot
  | send n left | lookup out | reunlockG out slot =>
    exact absurd (canGoOn_of_holdsG hat trivial) hnot
  | lockG | find | vacant | create i | unlockG slot | lockTx i | returned out => exact hpc.elim

/-- A thread waits for one of these PLCs. -/
def State.WaitsFor (silent : Set ℤ) (s : State T) (t : T) : Prop :=
  ∃ j pc, s.At t j pc ∧ j.fd ∈ silent ∧ ((∃ n, pc = .recv n []) ∨ ∃ i, pc = .lockTx i)

/-- Every thread has returned from its calls, or waits for one of these PLCs. -/
theorem State.Waits.thread (h : s.Waits P silent) (hinv : Inv P fds s)
    (hresp : ∃ r, IsFrame P.response r) (t : T) :
    (s.thread t).todo = [] ∧ (s.thread t).current = none ∨ s.WaitsFor silent t := by
  have hfree := h.gOwner hinv
  have hnot := h.not_canGoOn t
  cases hcur : (s.thread t).current with
  | none =>
    cases htodo : (s.thread t).todo with
    | nil => exact .inl ⟨rfl, rfl⟩
    | cons j js => exact absurd ⟨.start s t j js hcur htodo, fun _ _ => rfl⟩ (h _)
  | some call =>
    obtain ⟨j, pc⟩ := call
    have hat : s.At t j pc := hcur
    refine .inr ?_
    cases pc with
    | lockG => exact absurd ⟨j, _, _, _, _, hat, .lockG, hfree, rfl⟩ hnot
    | lockTx i =>
      refine ⟨j, _, hat, ?_, .inr ⟨i, rfl⟩⟩
      cases htx : s.shared.txOwner i with
      | none => exact absurd ⟨j, _, _, _, _, hat, .lockTx i, htx, rfl⟩ hnot
      | some u =>
        obtain ⟨k, q, hu, hq, hserves⟩ := (hinv.tx i u).mp htx
        have hsame : k.fd = j.fd := hserves.fd_unique (hinv.assert t j _ hat)
        exact hsame ▸ (h.holdsTx hinv hresp hu hq).1
    | returned out => exact absurd ⟨.finish s t j out hat, fun _ _ => rfl⟩ (h _)
    | find | vacant | create i | unlockG slot =>
      exact absurd (canGoOn_of_holdsG hat trivial) hnot
    | config | sendLockG | send n left | recv n got | relockG out | lookup out
    | reunlockG out slot | unlockTx out i =>
      obtain ⟨hfd, hrecv⟩ := h.holdsTx hinv hresp hat trivial
      exact ⟨j, _, hat, hfd, .inl hrecv⟩

/-- A thread that makes no calls on these connections has returned from all of its calls. -/
theorem State.Waits.returned (h : s.Waits P silent) (hinv : Inv P fds s)
    (hresp : ∃ r, IsFrame P.response r) (t : T) (ht : ∀ j ∈ (s.thread t).calls, j.fd ∉ silent) :
    (s.thread t).results.map Prod.fst = (s.thread t).calls ∧
      ∀ x ∈ (s.thread t).results, x.2.code = .success := by
  refine ⟨?_, fun x hx => ?_⟩
  · rcases h.thread hinv hresp t with ⟨htodo, hcur⟩ | ⟨j, pc, hat, hfd, -⟩
    · simp [Thread.calls, htodo, hcur]
    · have hcur : (s.thread t).current = some (j, pc) := hat
      exact absurd hfd (ht j (by simp [Thread.calls, hcur]))
  · obtain ⟨c, hc, hx⟩ := List.getElem_of_mem hx
    exact (hinv.results t c x (by rw [List.getElem?_eq_getElem hc, hx])).1

end Silent

/-- PLCs that answer no more hold up only the calls on their own connections, of at most 64, on
which no `send` or `recv` fails or times out. All other steps come to an end. Then
`g_connection_mutex` is free, a thread has returned from its calls or waits for the response of such
a PLC or for the mutex of its descriptor, and a thread that makes no calls on these connections has
returned from all of its calls, with success. -/
theorem silent_plcs_hold_up_own_calls (m : Module) {T : Type} [Fintype T] [DecidableEq T]
    (silent : Set ℤ) (fds : Finset ℤ) (hcard : fds.card ≤ maxTxConnections) (jobs : T → List Job)
    (hjobs : ∀ t, ∀ j ∈ jobs t, j.Valid m.protocol fds) {s : State T}
    (hs : (threads m.protocol jobs).Reachable s) :
    Acc (fun s' s => StepWithout m.protocol silent s s') s ∧
    (s.Waits m.protocol silent → s.shared.gOwner = none ∧
      (∀ t, (s.thread t).todo = [] ∧ (s.thread t).current = none ∨ s.WaitsFor silent t) ∧
      ∀ t, (∀ j ∈ jobs t, j.fd ∉ silent) → (s.thread t).results.map Prod.fst = jobs t ∧
        ∀ x ∈ (s.thread t).results, x.2.code = .success) := by
  have hinv := threads_inv hjobs hcard hs
  refine ⟨?_, fun hwaits => ⟨hwaits.gOwner hinv, hwaits.thread hinv m.exists_response,
    fun t ht => ?_⟩⟩
  · exact TransitionSystem.acc_of_measure (State.measure fds)
      (fun s s' h (hstep : StepWithout m.protocol silent s s') => h.step hcard hstep.1)
      (fun s s' h hstep => measure_step h hstep.1) s hinv
  · rw [← threads_calls hs t] at ht ⊢
    exact hwaits.returned hinv m.exists_response t ht

/-- Two threads with a call each, on descriptors 3 and 4. -/
def jobsOnTwo (t : Fin 2) : List Job := [{ jobD140 with fd := if t = 0 then 3 else 4 }]

/-- One thread waits for ever on descriptor 3, and the other one returns from its call on 4. -/
theorem silent_plcs_hold_up_own_calls_two :
    ∃ s : State (Fin 2), (threads Module.binary.protocol jobsOnTwo).Reachable s ∧
      s.Waits Module.binary.protocol {3} ∧
      (s.thread 1).results.map Prod.fst = [{ jobD140 with fd := 4 }] := by
  have hjobs : ∀ t, ∀ j ∈ jobsOnTwo t, j.Valid Module.binary.protocol {3, 4} := by
    intro t j hj
    obtain rfl := List.mem_singleton.mp hj
    fin_cases t <;> exact ⟨by decide, by decide, by decide⟩
  have hall := fun s hs => silent_plcs_hold_up_own_calls .binary {3} {3, 4} (by decide) jobsOnTwo
    hjobs (s := s) hs
  have hstart := TransitionSystem.Reachable.initial (M := threads Module.binary.protocol jobsOnTwo)
    rfl
  obtain ⟨s, -, hs, hwaits⟩ := TransitionSystem.reaches_of_acc
    (P := (threads Module.binary.protocol jobsOnTwo).Reachable)
    (fun s => (threads Module.binary.protocol jobsOnTwo).Reachable s ∧
      s.Waits Module.binary.protocol {3})
    (fun s s' h hstep => h.next hstep.1)
    (fun s h hgoal => by
      by_contra hno
      exact hgoal ⟨h, fun s' hs' => hno ⟨s', hs'⟩⟩) hstart (hall _ hstart).1
  refine ⟨s, hs, hwaits, (((hall s hs).2 hwaits).2.2 1 fun j hj => ?_).1⟩
  obtain rfl := List.mem_singleton.mp hj
  decide

end MelsecMc
