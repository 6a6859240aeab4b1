import MelsecMc.TransactionSteps

/-!
# Transactions of threads are serialised

A thread owns `g_connection_mutex` while it looks at the table of the mutexes or
sends, and the mutex of its descriptor from the first request byte to the last
response byte. So there is at most one request on a connection, and the bytes
that a thread receives are those of the response to it.
-/
namespace MelsecMc

open FramedStream

section Invariant

variable {T : Type*} {P : Protocol} {fds : Finset ℤ}

/-- Thread `t` is where `g_connection_mutex` is held. -/
def State.InG (s : State T) (t : T) : Prop := ∃ j pc, s.At t j pc ∧ pc.HoldsG

/-- Thread `t` is where the mutex of slot `i` is held. -/
def State.InTx (s : State T) (i : Fin maxTxConnections) (t : T) : Prop :=
  ∃ j pc, s.At t j pc ∧ pc.HoldsTx ∧ s.shared.locks.Serves j.fd i

/-- The invariant of the system: who owns the mutexes, what the table looks like, what every thread
knows, and that a connection is quiet when nobody holds its mutex. -/
structure Inv (P : Protocol) (fds : Finset ℤ) (s : State T) : Prop where
  g : ∀ t, s.shared.gOwner = some t ↔ s.InG t
  tx : ∀ i t, s.shared.txOwner i = some t ↔ s.InTx i t
  unique : s.shared.locks.Unique
  keys : ∀ fd i, s.shared.locks.Serves fd i → fd ∈ fds
  todo : ∀ t, ∀ j ∈ (s.thread t).todo, j.Valid P fds
  valid : ∀ t j pc, s.At t j pc → j.Valid P fds
  assert : ∀ t j pc, s.At t j pc →
    pc.Assert P s.shared.locks (s.shared.wire j.fd) (s.callOf t) j
  quiet : ∀ fd, (∀ t j pc, s.At t j pc → pc.HoldsTx → j.fd ≠ fd) → (s.shared.wire fd).Quiet
  results : ∀ t c x, (s.thread t).results[c]? = some x →
    (s.shared.wire x.1.fd).Answered (t, c) x.1 x.2
  handed : ∀ x ∈ s.shared.handed, s.shared.locks.Serves x.1 x.2

namespace Inv

variable {s : State T}

/-- Two threads never hold the mutex of one descriptor. -/
theorem exclusive (h : Inv P fds s) {t u : T} {j k : Job} {pc q : Pc} (ht : s.At t j pc)
    (hu : s.At u k q) (hpc : pc.HoldsTx) (hq : q.HoldsTx) (hfd : j.fd = k.fd) : t = u := by
  obtain ⟨i, hi⟩ := (h.assert t j pc ht).serves hpc
  have hti := (h.tx i t).mpr ⟨j, pc, ht, hpc, hi⟩
  have hui := (h.tx i u).mpr ⟨k, q, hu, hq, hfd ▸ hi⟩
  exact Option.some.inj (hti.symm.trans hui)

/-- Two threads never hold `g_connection_mutex`. -/
theorem exclusiveG (h : Inv P fds s) {t u : T} (ht : s.InG t) (hu : s.InG u) : t = u :=
  Option.some.inj (((h.g t).mpr ht).symm.trans ((h.g u).mpr hu))

/-- A connection whose mutex is free is quiet. -/
theorem quiet_of_free (h : Inv P fds s) {i : Fin maxTxConnections} {fd : ℤ}
    (hi : s.shared.locks.Serves fd i) (hfree : s.shared.txOwner i = none) :
    (s.shared.wire fd).Quiet := by
  refine h.quiet fd fun u k q hu hq hfd => ?_
  have howner := (h.tx i u).mpr ⟨k, q, hu, hq, hfd ▸ hi⟩
  rw [hfree] at howner
  simp at howner

section Act

variable {t : T} {j : Job} {pc pc' : Pc} {a : Act} {sh : Shared T} (h : Inv P fds s)
  (hat : s.At t j pc) (hn : Next P j pc a pc')
  (he : s.shared.effect t (s.thread t).results.length j.fd a sh)

section Wires

include hn he

/-- A connection changes only under its mutex. -/
theorem wire_act {fd : ℤ} (hfd : pc.HoldsTx → fd ≠ j.fd) : sh.wire fd = s.shared.wire fd := by
  rcases hn.wire he with hw | ⟨w, hpc, -, hw, -⟩
  · rw [hw]
  · rw [hw, Function.update_of_ne (hfd hpc)]

theorem extends_act (fd : ℤ) : (sh.wire fd).Extends (s.shared.wire fd) := by
  rcases hn.wire he with hw | ⟨w, -, -, hw, hextends⟩
  · rw [hw]
    exact .refl _
  · rw [hw]
    by_cases hfd : fd = j.fd
    · rw [hfd, Function.update_self]
      exact hextends
    · rw [Function.update_of_ne hfd]
      exact .refl _

end Wires

include h hat hn he

/-- No slot is lost, and a slot that is taken is for a descriptor that nobody has locked. -/
theorem serves_act {fd : ℤ} {i : Fin maxTxConnections} (hi : s.shared.locks.Serves fd i) :
    sh.locks.Serves fd i := by
  rcases hn.locks he (h.assert t j pc hat) with hl | ⟨k, -, -, -, hl, hfree, -⟩
  · rw [hl]
    exact hi
  · rw [hl]
    exact hi.claim hfree

theorem serves_act_iff {u : T} {k : Job} {q : Pc} (hu : s.At u k q) (hq : q.HoldsTx)
    (i : Fin maxTxConnections) :
    sh.locks.Serves k.fd i ↔ s.shared.locks.Serves k.fd i := by
  refine ⟨fun hi => ?_, h.serves_act hat hn he⟩
  rcases hn.locks he (h.assert t j pc hat) with hl | ⟨c, -, -, -, hl, -, hnone⟩
  · rwa [hl] at hi
  · have hne : k.fd ≠ j.fd := by
      intro hfd
      obtain ⟨i', hi'⟩ := (h.assert u k q hu).serves hq
      exact hnone i' (hfd ▸ hi')
    rw [hl] at hi
    exact TxLocks.serves_of_claim hi hne

theorem unique_act : sh.locks.Unique := by
  rcases hn.locks he (h.assert t j pc hat) with hl | ⟨i, -, -, -, hl, -, hnone⟩
  · rw [hl]
    exact h.unique
  · rw [hl]
    exact h.unique.claim hnone

theorem keys_act (fd : ℤ) (i : Fin maxTxConnections) (hi : sh.locks.Serves fd i) : fd ∈ fds := by
  by_cases hfd : fd = j.fd
  · rw [hfd]
    exact (h.valid t j pc hat).fd
  · rcases hn.locks he (h.assert t j pc hat) with hl | ⟨c, -, -, -, hl, -, -⟩
    · rw [hl] at hi
      exact h.keys fd i hi
    · rw [hl] at hi
      exact h.keys fd i (TxLocks.serves_of_claim hi hfd)

end Act

/-- An answer of a PLC keeps the invariant. -/
theorem answer (h : Inv P fds s) {fd : ℤ} {cmd rest response : List Byte}
    (hc : nextFrame P.request (s.shared.wire fd).toPlc = some (cmd, rest))
    (hr : IsFrame P.response response) : Inv P fds (s.answer fd cmd rest response) := by
  have hself : (s.answer fd cmd rest response).shared.wire fd =
      (s.shared.wire fd).answer cmd rest response := Function.update_self ..
  have hother : ∀ fd', fd' ≠ fd →
      (s.answer fd cmd rest response).shared.wire fd' = s.shared.wire fd' :=
    fun fd' hne => Function.update_of_ne hne ..
  have hextends : ∀ fd', ((s.answer fd cmd rest response).shared.wire fd').Extends
      (s.shared.wire fd') := by
    intro fd'
    by_cases hfd : fd' = fd
    · rw [hfd, hself]
      exact ⟨List.prefix_append _ _, List.prefix_rfl⟩
    · rw [hother fd' hfd]
      exact .refl _
  refine ⟨h.g, h.tx, h.unique, h.keys, h.todo, h.valid, ?_, ?_, ?_, h.handed⟩
  · intro t j pc hat
    by_cases hheld : pc.HoldsTx ∧ j.fd = fd
    · obtain ⟨hpc, rfl⟩ := hheld
      rw [hself]
      exact (h.assert t j pc hat).answer hpc (h.valid t j pc hat).cmd hc hr
    · refine (h.assert t j pc hat).frame (fun i hi => hi) (fun _ => rfl) (fun hpc => ?_)
        (hextends j.fd)
      exact hother j.fd fun hfd => hheld ⟨hpc, hfd⟩
  · intro fd' hfd'
    by_cases hfd : fd' = fd
    · have hquiet := h.quiet fd' hfd'
      rw [hfd] at hquiet
      rw [hquiet.no_request] at hc
      simp at hc
    · rw [hother fd' hfd]
      exact h.quiet fd' hfd'
  · intro t c x hx
    exact (h.results t c x hx).mono (hextends x.1.fd)

variable [DecidableEq T]

/-- A thread begins or ends a call. -/
theorem setThread (h : Inv P fds s) {t : T} {th : Thread}
    (hold : ∀ j pc, s.At t j pc → ¬ pc.HoldsG ∧ ¬ pc.HoldsTx)
    (hnew : ∀ j pc, th.current = some (j, pc) → ¬ pc.HoldsG ∧ ¬ pc.HoldsTx ∧ j.Valid P fds ∧
      pc.Assert P s.shared.locks (s.shared.wire j.fd) (t, th.results.length) j)
    (htodo : ∀ j ∈ th.todo, j.Valid P fds)
    (hres : ∀ c x, th.results[c]? = some x →
      (s.shared.wire x.1.fd).Answered (t, c) x.1 x.2) :
    Inv P fds (s.setThread t th) where
  g := by
    refine owner_iff_step (t := t) h.g (fun u hu => ?_) (.inl ⟨rfl, ?_⟩)
    · unfold State.InG
      simp only [State.at_setThread_of_ne hu]
    · constructor
      · rintro ⟨j, pc, hat, hpc⟩
        exact absurd hpc (hnew j pc (State.at_setThread_self.mp hat)).1
      · rintro ⟨j, pc, hat, hpc⟩
        exact absurd hpc (hold j pc hat).1
  tx := by
    intro i
    refine owner_iff_step (t := t) (h.tx i) (fun u hu => ?_) (.inl ⟨rfl, ?_⟩)
    · unfold State.InTx
      simp only [State.at_setThread_of_ne hu, State.setThread_shared]
    · constructor
      · rintro ⟨j, pc, hat, hpc, -⟩
        exact absurd hpc (hnew j pc (State.at_setThread_self.mp hat)).2.1
      · rintro ⟨j, pc, hat, hpc, -⟩
        exact absurd hpc (hold j pc hat).2
  unique := h.unique
  keys := h.keys
  todo := by
    intro u j hj
    by_cases hu : u = t
    · subst hu
      rw [State.setThread_thread_self] at hj
      exact htodo j hj
    · rw [State.setThread_thread_of_ne s th hu] at hj
      exact h.todo u j hj
  valid := by
    intro u j pc hat
    by_cases hu : u = t
    · subst hu
      exact (hnew j pc (State.at_setThread_self.mp hat)).2.2.1
    · exact h.valid u j pc ((State.at_setThread_of_ne hu).mp hat)
  assert := by
    intro u j pc hat
    unfold State.callOf
    by_cases hu : u = t
    · subst hu
      rw [State.setThread_thread_self]
      exact (hnew j pc (State.at_setThread_self.mp hat)).2.2.2
    · rw [State.setThread_thread_of_ne s th hu]
      exact h.assert u j pc ((State.at_setThread_of_ne hu).mp hat)
  quiet := by
    intro fd hfd
    refine h.quiet fd fun u j pc hat hpc => ?_
    by_cases hu : u = t
    · subst hu
      exact absurd hpc (hold j pc hat).2
    · exact hfd u j pc ((State.at_setThread_of_ne hu).mpr hat) hpc
  results := by
    intro u c x hx
    by_cases hu : u = t
    · subst hu
      rw [State.setThread_thread_self] at hx
      exact hres c x hx
    · rw [State.setThread_thread_of_ne s th hu] at hx
      exact h.results u c x hx
  handed := h.handed

section Act

variable {t : T} {j : Job} {pc pc' : Pc} {a : Act} {sh : Shared T} (h : Inv P fds s)
  (hat : s.At t j pc) (hn : Next P j pc a pc')
  (he : s.shared.effect t (s.thread t).results.length j.fd a sh)

include h hat hn he

/-- What thread `t` knows after its step, and what the others know. -/
theorem assert_act (hcard : fds.card ≤ maxTxConnections) (u : T) (k : Job) (q : Pc)
    (hu : (s.proceed t j pc' sh).At u k q) :
    q.Assert P sh.locks (sh.wire k.fd) ((s.proceed t j pc' sh).callOf u) k := by
  rw [State.callOf_proceed]
  by_cases hut : u = t
  · subst hut
    obtain ⟨rfl, rfl⟩ := State.at_proceed_self.mp hu
    refine (h.assert u j pc hat).act hn he (h.valid u j pc hat) hcard h.unique h.keys ?_
    rintro i rfl hfree
    cases hn with
    | lockTx => exact h.quiet_of_free (h.assert u j _ hat) hfree
  · have hu : s.At u k q := (State.at_proceed_of_ne hut).mp hu
    refine (h.assert u k q hu).frame (fun i => h.serves_act hat hn he) (fun hq => ?_)
      (fun hq => ?_) (extends_act hn he k.fd)
    · rcases hn.locks he (h.assert t j pc hat) with hl | ⟨i, hpc, -⟩
      · exact hl
      · exact absurd (h.exclusiveG ⟨k, q, hu, hq⟩ ⟨j, pc, hat, hpc⟩) hut
    · exact wire_act hn he fun hpc hfd => hut (h.exclusive hu hat hq hpc hfd)

/-- The owner of `g_connection_mutex` after a step. -/
theorem g_act (u : T) : sh.gOwner = some u ↔ (s.proceed t j pc' sh).InG u := by
  refine owner_iff_step (t := t) h.g (fun v hv => ?_) ?_ u
  · unfold State.InG
    simp only [State.at_proceed_of_ne hv]
  · have hin : (s.proceed t j pc' sh).InG t ↔ pc'.HoldsG := by
      constructor
      · rintro ⟨k, q, hk, hq⟩
        obtain ⟨rfl, rfl⟩ := State.at_proceed_self.mp hk
        exact hq
      · intro hq
        exact ⟨j, pc', State.at_proceed_self.mpr ⟨rfl, rfl⟩, hq⟩
    have hin₀ : s.InG t ↔ pc.HoldsG := by
      constructor
      · rintro ⟨k, q, hk, hq⟩
        obtain ⟨rfl, rfl⟩ := hat.unique hk
        exact hq
      · intro hq
        exact ⟨j, pc, hat, hq⟩
    rw [hin, hin₀]
    exact hn.holdsG he

/-- The owners of the mutexes of the descriptors after a step. -/
theorem tx_act (i : Fin maxTxConnections) (u : T) :
    sh.txOwner i = some u ↔ (s.proceed t j pc' sh).InTx i u := by
  have hin : (s.proceed t j pc' sh).InTx i t ↔
      pc'.HoldsTx ∧ sh.locks.Serves j.fd i := by
    constructor
    · rintro ⟨k, q, hk, hq, hi⟩
      obtain ⟨rfl, rfl⟩ := State.at_proceed_self.mp hk
      exact ⟨hq, hi⟩
    · rintro ⟨hq, hi⟩
      exact ⟨j, pc', State.at_proceed_self.mpr ⟨rfl, rfl⟩, hq, hi⟩
  have hin₀ : s.InTx i t ↔ pc.HoldsTx ∧ s.shared.locks.Serves j.fd i := by
    constructor
    · rintro ⟨k, q, hk, hq, hi⟩
      obtain ⟨rfl, rfl⟩ := hat.unique hk
      exact ⟨hq, hi⟩
    · rintro ⟨hq, hi⟩
      exact ⟨j, pc, hat, hq, hi⟩
  refine owner_iff_step (t := t) (h.tx i) (fun v hv => ?_) ?_ u
  · constructor
    · rintro ⟨k, q, hk, hq, hi⟩
      have hk : s.At v k q := (State.at_proceed_of_ne hv).mp hk
      exact ⟨k, q, hk, hq, (h.serves_act_iff hat hn he hk hq i).mp hi⟩
    · rintro ⟨k, q, hk, hq, hi⟩
      exact ⟨k, q, (State.at_proceed_of_ne hv).mpr hk, hq, h.serves_act hat hn he hi⟩
  · rw [hin, hin₀]
    have hassert := h.assert t j pc hat
    have hafter := h.unique_act hat hn he
    rcases hn.holdsTx he hassert with ⟨ho, hiff⟩ | ⟨c, rfl, rfl, hfree, ho⟩ | ⟨out, c, rfl, rfl, ho⟩
    · refine .inl ⟨by rw [ho], ?_⟩
      rw [hiff]
      refine and_congr_right fun hpc => h.serves_act_iff hat hn he hat hpc i
    · have hc := h.serves_act hat hn he hassert
      by_cases hic : i = c
      · subst hic
        exact .inr (.inl ⟨hfree, by rw [ho, Function.update_self], trivial, hc⟩)
      · refine .inl ⟨by rw [ho, Function.update_of_ne hic], ?_⟩
        constructor
        · rintro ⟨-, hi⟩
          exact absurd (hi.slot_unique hafter hc) hic
        · rintro ⟨hpc, -⟩
          exact hpc.elim
    · by_cases hic : i = c
      · subst hic
        exact .inr (.inr ⟨by rw [ho, Function.update_self], ⟨trivial, hassert.1⟩,
          fun hq => hq.1⟩)
      · refine .inl ⟨by rw [ho, Function.update_of_ne hic], ?_⟩
        constructor
        · rintro ⟨hpc, -⟩
          exact hpc.elim
        · rintro ⟨-, hi⟩
          exact absurd (hi.slot_unique h.unique hassert.1) hic

/-- A step of a thread in a call keeps the invariant. -/
theorem act (hcard : fds.card ≤ maxTxConnections) :
    Inv P fds (s.proceed t j pc' sh) where
  g := h.g_act hat hn he
  tx := h.tx_act hat hn he
  unique := h.unique_act hat hn he
  keys := h.keys_act hat hn he
  todo := by
    intro u k hk
    rw [State.todo_proceed] at hk
    exact h.todo u k hk
  valid := by
    intro u k q hk
    by_cases hu : u = t
    · subst hu
      obtain ⟨rfl, rfl⟩ := State.at_proceed_self.mp hk
      exact h.valid u j pc hat
    · exact h.valid u k q ((State.at_proceed_of_ne hu).mp hk)
  assert := h.assert_act hat hn he hcard
  quiet := by
    intro fd hfd
    have hnot : pc'.HoldsTx → j.fd ≠ fd :=
      hfd t j pc' (State.at_proceed_self.mpr ⟨rfl, rfl⟩)
    by_cases hheld : pc.HoldsTx ∧ j.fd = fd
    · obtain ⟨hpc, rfl⟩ := hheld
      rcases hn.holdsTx he (h.assert t j pc hat) with
        ⟨-, hiff⟩ | ⟨c, rfl, -⟩ | ⟨out, c, rfl, rfl, -⟩
      · exact absurd rfl (hnot (hiff.mpr hpc))
      · exact hpc.elim
      · cases hn with
        | unlockTx =>
          obtain rfl := he
          exact (h.assert t j _ hat).2.1
    · have hw : sh.wire fd = s.shared.wire fd :=
        wire_act hn he fun hpc he => hheld ⟨hpc, he.symm⟩
      change (sh.wire fd).Quiet
      rw [hw]
      refine h.quiet fd fun u k q hk hq he => ?_
      by_cases hu : u = t
      · subst hu
        obtain ⟨rfl, rfl⟩ := hat.unique hk
        exact hheld ⟨hq, he⟩
      · exact hfd u k q ((State.at_proceed_of_ne hu).mpr hk) hq he
  results := by
    intro u c x hx
    rw [State.results_proceed] at hx
    exact (h.results u c x hx).mono (extends_act hn he x.1.fd)
  handed := by
    intro x hx
    rcases hn.handed he x hx with hx | hx
    · exact h.serves_act hat hn he (h.handed x hx)
    · exact hx

end Act

/-- Every step keeps the invariant. -/
theorem step (h : Inv P fds s) (hcard : fds.card ≤ maxTxConnections) {s' : State T}
    (hs : Step P s s') : Inv P fds s' := by
  cases hs with
  | start t j js hcur htodo =>
    refine h.setThread (fun k q hk => ?_) (fun k q hk => ?_) (fun k hk => ?_) (h.results t)
    · rw [State.At, hcur] at hk
      simp at hk
    · obtain ⟨rfl, rfl⟩ := Prod.mk.inj (Option.some.inj hk)
      exact ⟨not_false, not_false, h.todo t j (by simp [htodo]), trivial⟩
    · exact h.todo t k (by rw [htodo]; exact List.mem_cons_of_mem j hk)
  | act t j pc pc' a sh hat hn he => exact h.act hat hn he hcard
  | finish t j out hat =>
    refine h.setThread (fun k q hk => ?_) (fun k q hk => ?_) (h.todo t)
      (fun c x hx => ?_)
    · obtain ⟨rfl, rfl⟩ := hat.unique hk
      exact ⟨not_false, not_false⟩
    · simp at hk
    · by_cases hc : c < (s.thread t).results.length
      · rw [List.getElem?_append_left hc] at hx
        exact h.results t c x hx
      · rw [List.getElem?_append_right (by omega)] at hx
        obtain ⟨hlt, rfl⟩ := List.getElem?_eq_some_iff.mp hx
        obtain rfl : c = (s.thread t).results.length := by
          rw [List.length_singleton] at hlt
          omega
        simp only [Nat.sub_self, List.getElem_cons_zero]
        exact h.assert t j _ hat
  | answer fd cmd rest response hc hr => exact h.answer hc hr

end Inv

/-- The invariant holds at the start, when all calls are of the kind that is made. -/
theorem inv_initial {jobs : T → List Job} (hjobs : ∀ t, ∀ j ∈ jobs t, j.Valid P fds) :
    Inv P fds (⟨.initial, fun t => ⟨jobs t, none, []⟩⟩ : State T) where
  g := by simp [Shared.initial, State.InG, State.At]
  tx := by simp [Shared.initial, State.InTx, State.At]
  unique := by
    intro i k hi
    simp [Shared.initial, TxLocks.initial, TxLocks.view] at hi
  keys := by simp [Shared.initial, TxLocks.initial, TxLocks.Serves]
  todo := hjobs
  valid := by simp [State.At]
  assert := by simp [State.At]
  quiet := fun fd _ => ⟨rfl, rfl, rfl⟩
  results := by simp
  handed := by simp [Shared.initial]

/-- Every reachable state has the invariant. -/
theorem threads_inv [DecidableEq T] {jobs : T → List Job} (hjobs : ∀ t, ∀ j ∈ jobs t, j.Valid P fds)
    (hcard : fds.card ≤ maxTxConnections) {s : State T} (hs : (threads P jobs).Reachable s) :
    Inv P fds s := by
  refine hs.invariant (fun s hinit => ?_) fun s s' h hstep => h.step hcard hstep
  obtain rfl := hinit
  exact inv_initial hjobs

end Invariant

end MelsecMc
