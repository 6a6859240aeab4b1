import MelsecMc.Threads

/-!
# What one step of a transaction does

At every place in `mc_send_and_receive_transaction` a thread knows something of the
table and of its connection. Its own step carries this on to the next place, the steps
of others leave it, and so do the answers of the PLC. A step changes each part of the
shared state only while it has the mutex of that part.
-/
namespace MelsecMc

open FramedStream

namespace Pc

/-- Between locking and unlocking `g_connection_mutex`. -/
@[simp] def HoldsG : Pc → Prop
  | find | vacant | create _ | unlockG _ | send _ _ | lookup _ | reunlockG _ _ => True
  | lockG | lockTx _ | config | sendLockG | recv _ _ | relockG _ | unlockTx _ _
  | returned _ => False

/-- Between locking and unlocking the mutex of the descriptor. -/
@[simp] def HoldsTx : Pc → Prop
  | config | sendLockG | send _ _ | recv _ _ | relockG _ | lookup _ | reunlockG _ _
  | unlockTx _ _ => True
  | lockG | find | vacant | create _ | unlockG _ | lockTx _ | returned _ => False

end Pc

namespace Wire

variable {T : Type*}

/-- Every request was answered, and every response received. -/
def Quiet (w : Wire T) : Prop := w.toPlc = [] ∧ w.fromPlc = [] ∧ w.sent.length = w.log.length

/-- The last request is that of call `id`, with the number `n`. -/
def Last (w : Wire T) (id : T × ℕ) (n : ℕ) : Prop :=
  w.sent.length = n + 1 ∧ w.sent[n]? = some id

/-- The request of call `id` is on its way, apart from `left`. -/
def Sending (w : Wire T) (id : T × ℕ) (cmd : List Byte) (n : ℕ) (left : List Byte) : Prop :=
  w.Last id n ∧ w.toPlc ++ left = cmd ∧ w.fromPlc = [] ∧ w.log.length = n

/-- The request of call `id` was sent, and `got` was received of its response. -/
def Asked (w : Wire T) (P : Protocol) (id : T × ℕ) (cmd : List Byte) (n : ℕ) (got : List Byte) :
    Prop :=
  w.Last id n ∧
    (w.toPlc = cmd ∧ w.fromPlc = [] ∧ got = [] ∧ w.log.length = n ∨
      w.toPlc = [] ∧ IsFrame P.response (got ++ w.fromPlc) ∧ w.log.length = n + 1 ∧
        w.log[n]? = some (cmd, got ++ w.fromPlc))

/-- Call `id` succeeded with the response to the request that it sent. -/
def Answered (w : Wire T) (id : T × ℕ) (j : Job) (out : Reply) : Prop :=
  out.code = .success ∧ w.sent[out.ticket]? = some id ∧
    w.log[out.ticket]? = some (j.cmd, out.response)

/-- A connection later on. -/
def Extends (w' w : Wire T) : Prop := w.log <+: w'.log ∧ w.sent <+: w'.sent

theorem Extends.refl (w : Wire T) : w.Extends w := ⟨List.prefix_rfl, List.prefix_rfl⟩

theorem getElem?_prefix {β : Type*} {l l' : List β} {n : ℕ} {b : β} (hl : l <+: l')
    (hb : l[n]? = some b) : l'[n]? = some b := by
  obtain ⟨tail, rfl⟩ := hl
  rw [List.getElem?_append_left (List.getElem?_eq_some_iff.mp hb).1, hb]

theorem Answered.mono {w w' : Wire T} {id : T × ℕ} {j : Job} {out : Reply}
    (h : w.Answered id j out) (hw : w'.Extends w) : w'.Answered id j out :=
  ⟨h.1, getElem?_prefix hw.2 h.2.1, getElem?_prefix hw.1 h.2.2⟩

end Wire

/-- What is true of the table and of the connection while a thread is at a place in call `id`. -/
def Pc.Assert {T : Type*} (P : Protocol) (locks : TxLocks) (w : Wire T) (id : T × ℕ) (j : Job) :
    Pc → Prop
  | lockG | find => True
  | vacant => ∀ k, ¬ locks.Serves j.fd k
  | create i => (locks i).inUse = false ∧ ∀ k, ¬ locks.Serves j.fd k
  | unlockG slot => ∃ i, slot = some i ∧ locks.Serves j.fd i
  | lockTx i => locks.Serves j.fd i
  | config | sendLockG => (∃ i, locks.Serves j.fd i) ∧ w.Quiet
  | send n left => (∃ i, locks.Serves j.fd i) ∧
      (left ≠ [] ∧ w.Sending id j.cmd n left ∨ left = [] ∧ w.Asked P id j.cmd n [])
  | recv n got => (∃ i, locks.Serves j.fd i) ∧ w.Asked P id j.cmd n got
  | relockG out | lookup out => (∃ i, locks.Serves j.fd i) ∧ w.Quiet ∧ w.Answered id j out
  | reunlockG out slot =>
    (∃ i, slot = some i ∧ locks.Serves j.fd i) ∧ w.Quiet ∧ w.Answered id j out
  | unlockTx out i => locks.Serves j.fd i ∧ w.Quiet ∧ w.Answered id j out
  | returned out => w.Answered id j out

/-- A call of the kind that is made: on one of the descriptors, with a complete request, and at
least one attempt to send it. -/
structure Job.Valid (P : Protocol) (fds : Finset ℤ) (j : Job) : Prop where
  fd : j.fd ∈ fds
  cmd : IsFrame P.request j.cmd
  retryCount : 0 ≤ j.retryCount

section Local

variable {T : Type*} {P : Protocol} {locks locks' : TxLocks} {w w' : Wire T} {id : T × ℕ}
  {j : Job} {pc : Pc}

/-- Steps of others that leave a thread what it has locked keep what it knows. -/
theorem Pc.Assert.frame (h : pc.Assert P locks w id j)
    (hs : ∀ i, locks.Serves j.fd i → locks'.Serves j.fd i) (hg : pc.HoldsG → locks' = locks)
    (hw : pc.HoldsTx → w' = w) (hl : w'.Extends w) : pc.Assert P locks' w' id j := by
  cases pc with
  | lockG | find => trivial
  | vacant | create i =>
    rw [hg trivial]
    exact h
  | unlockG slot =>
    obtain ⟨i, hi, hserves⟩ := h
    exact ⟨i, hi, hs i hserves⟩
  | lockTx i => exact hs i h
  | config | sendLockG | send n left | recv n got | relockG out | lookup out =>
    obtain ⟨⟨i, hi⟩, hrest⟩ := h
    rw [hw trivial]
    exact ⟨⟨i, hs i hi⟩, hrest⟩
  | reunlockG out slot =>
    obtain ⟨⟨i, hi, hserves⟩, hrest⟩ := h
    rw [hw trivial]
    exact ⟨⟨i, hi, hs i hserves⟩, hrest⟩
  | unlockTx out i =>
    rw [hw trivial]
    exact ⟨hs i h.1, h.2⟩
  | returned out => exact h.mono hl

theorem Pc.Assert.serves (h : pc.Assert P locks w id j) (hpc : pc.HoldsTx) :
    ∃ i, locks.Serves j.fd i := by
  cases pc with
  | config | sendLockG | send n left | recv n got | relockG out | lookup out => exact h.1
  | reunlockG out slot =>
    obtain ⟨⟨i, -, hi⟩, -⟩ := h
    exact ⟨i, hi⟩
  | unlockTx out i => exact ⟨i, h.1⟩
  | lockG | find | vacant | create i | unlockG slot | lockTx i | returned out => exact hpc.elim

/-- A piece of a request is sent. -/
theorem Wire.Sending.send {cmd left : List Byte} {n : ℕ} (h : w.Sending id cmd n left) (k : ℕ) :
    let w' := { w with toPlc := w.toPlc ++ left.take (k + 1) }
    left.drop (k + 1) ≠ [] ∧ w'.Sending id cmd n (left.drop (k + 1)) ∨
      left.drop (k + 1) = [] ∧ w'.Asked P id cmd n [] := by
  obtain ⟨hlast, hcmd, hfrom, hlog⟩ := h
  have hall : (w.toPlc ++ left.take (k + 1)) ++ left.drop (k + 1) = cmd := by
    rw [List.append_assoc, List.take_append_drop, hcmd]
  by_cases hd : left.drop (k + 1) = []
  · rw [hd, List.append_nil] at hall
    exact .inr ⟨hd, hlast, .inl ⟨hall, hfrom, rfl, hlog⟩⟩
  · exact .inl ⟨hd, hlast, hall, hfrom, hlog⟩

/-- A piece of a response is received. -/
theorem Wire.Asked.recv {cmd got piece rest : List Byte} {n : ℕ} (h : w.Asked P id cmd n got)
    (hp : piece ≠ []) (hfrom : w.fromPlc = piece ++ rest) :
    { w with fromPlc := rest }.Asked P id cmd n (got ++ piece) := by
  obtain ⟨hlast, ⟨-, hnil, -⟩ | ⟨hto, hframe, hlen, hlog⟩⟩ := h
  · rw [hnil] at hfrom
    exact absurd (List.append_eq_nil_iff.mp hfrom.symm).1 hp
  · rw [hfrom, ← List.append_assoc] at hframe hlog
    exact ⟨hlast, .inr ⟨hto, hframe, hlen, hlog⟩⟩

/-- A whole frame that was received is the response. -/
theorem Wire.Asked.complete {n : ℕ} {got : List Byte} (h : w.Asked P id j.cmd n got)
    (hg : IsFrame P.response got) : w.Quiet ∧ w.Answered id j ⟨.success, got, n⟩ := by
  obtain ⟨hlast, ⟨-, -, hnil, -⟩ | ⟨hto, hframe, hlen, hlog⟩⟩ := h
  · exact absurd hnil (hg.ne_nil P.response P.response_header)
  · have hfrom : w.fromPlc = [] := by
      have he : got ++ w.fromPlc = (got ++ w.fromPlc) ++ [] := (List.append_nil _).symm
      exact (IsFrame.prefix_free P.response hg hframe he).2
    rw [hfrom, List.append_nil] at hlog
    exact ⟨⟨hto, hfrom, hlast.1.trans hlen.symm⟩, rfl, hlast.2, hlog⟩

/-- The header of a response is accepted. -/
theorem Wire.Asked.header {n : ℕ} {got : List Byte} (h : w.Asked P id j.cmd n got)
    (hl : got.length = P.response.header) : P.response.total got ≠ none := by
  obtain ⟨-, ⟨-, -, hnil, -⟩ | ⟨-, hframe, -, -⟩⟩ := h
  · have := P.response_header
    rw [hnil, List.length_nil] at hl
    omega
  · have htotal := hframe.2
    rw [← hl, List.take_left'] at htotal
    · simp [htotal]
    · rfl

theorem Wire.Quiet.no_request (h : w.Quiet) : nextFrame P.request w.toPlc = none := by
  rw [h.1]
  exact nextFrame_nil P.request P.request_header

theorem Wire.Sending.no_request {cmd left : List Byte} {n : ℕ} (h : w.Sending id cmd n left)
    (hc : IsFrame P.request cmd) (hleft : left ≠ []) : nextFrame P.request w.toPlc = none := by
  cases hn : nextFrame P.request w.toPlc with
  | none => rfl
  | some x =>
    obtain ⟨hto, hf⟩ := nextFrame_eq P.request hn
    have hcmd := h.2.1
    rw [hto, List.append_assoc] at hcmd
    have hnil := (IsFrame.prefix_free P.request hf hc
      (hcmd.trans (List.append_nil cmd).symm)).2
    exact absurd (List.append_eq_nil_iff.mp hnil).2 hleft

/-- The request that the PLC answers is the one that was sent. -/
theorem Wire.Asked.answer {cmd got req rest response : List Byte} {n : ℕ}
    (h : w.Asked P id cmd n got) (hc : IsFrame P.request cmd)
    (hn : nextFrame P.request w.toPlc = some (req, rest)) (hr : IsFrame P.response response) :
    (w.answer req rest response).Asked P id cmd n got := by
  obtain ⟨hlast, ⟨hto, hfrom, hgot, hlog⟩ | ⟨hto, -, -, -⟩⟩ := h
  · have hnext := nextFrame_append P.request hc []
    rw [List.append_nil, ← hto, hn] at hnext
    obtain ⟨rfl, rfl⟩ := Prod.mk.inj (Option.some.inj hnext)
    refine ⟨hlast, .inr ⟨rfl, ?_, ?_, ?_⟩⟩
    · simpa [Wire.answer, hgot, hfrom] using hr
    · simp [Wire.answer, hlog]
    · simp [Wire.answer, hgot, hfrom, ← hlog, hto]
  · rw [hto, nextFrame_nil P.request P.request_header] at hn
    simp at hn

theorem Pc.Assert.answer {req rest response : List Byte} (h : pc.Assert P locks w id j)
    (hpc : pc.HoldsTx) (hc : IsFrame P.request j.cmd)
    (hn : nextFrame P.request w.toPlc = some (req, rest)) (hr : IsFrame P.response response) :
    pc.Assert P locks (w.answer req rest response) id j := by
  have hquiet : ¬ w.Quiet := by
    intro hq
    rw [hq.no_request] at hn
    simp at hn
  cases pc with
  | config | sendLockG => exact absurd h.2 hquiet
  | relockG out | lookup out | reunlockG out slot | unlockTx out i => exact absurd h.2.1 hquiet
  | send n left =>
    obtain ⟨hserves, ⟨hleft, hsending⟩ | ⟨hleft, hasked⟩⟩ := h
    · rw [hsending.no_request hc hleft] at hn
      simp at hn
    · exact ⟨hserves, .inr ⟨hleft, hasked.answer hc hn hr⟩⟩
  | recv n got => exact ⟨h.1, h.2.answer hc hn hr⟩
  | lockG | find | vacant | create i | unlockG slot | lockTx i | returned out => exact hpc.elim

end Local

section Act

variable {T : Type*} {P : Protocol} {fds : Finset ℤ} {s s' : Shared T} {t : T}
  {c : ℕ} {j : Job} {pc pc' : Pc} {a : Act}

/-- What a thread knows after its own step. -/
theorem Pc.Assert.act (hn : Next P j pc a pc') (he : s.effect t c j.fd a s')
    (h : pc.Assert P s.locks (s.wire j.fd) (t, c) j) (hj : j.Valid P fds)
    (hcard : fds.card ≤ maxTxConnections) (hu : s.locks.Unique)
    (hkeys : ∀ fd i, s.locks.Serves fd i → fd ∈ fds)
    (hquiet : ∀ i, a = .lockTx i → s.txOwner i = none → (s.wire j.fd).Quiet) :
    pc'.Assert P s'.locks (s'.wire j.fd) (t, c) j := by
  cases hn with
  | lockG => trivial
  | found i =>
    obtain ⟨hf, rfl⟩ := he
    exact ⟨i, rfl, TxLocks.serves_of_find hf⟩
  | notFound =>
    obtain ⟨hf, rfl⟩ := he
    exact TxLocks.not_serves_of_find hf
  | vacant i =>
    obtain ⟨hv, rfl⟩ := he
    exact ⟨SlotTable.vacant_some hv, h⟩
  | full =>
    obtain ⟨i, hi⟩ := TxLocks.exists_vacant hu hcard hkeys hj.fd h
    rw [he.1] at hi
    simp at hi
  | create i =>
    obtain rfl := he
    exact ⟨i, rfl, TxLocks.claim_serves_self⟩
  | unlockG i =>
    obtain rfl := he
    obtain ⟨k, hk, hserves⟩ := h
    obtain rfl := Option.some.inj hk
    exact hserves
  | lockFailed =>
    obtain ⟨k, hk, -⟩ := h
    simp at hk
  | lockTx i =>
    obtain ⟨hfree, rfl⟩ := he
    exact ⟨⟨i, h⟩, hquiet i rfl hfree⟩
  | config hr =>
    obtain rfl := he
    exact h
  | noAttempt hr =>
    have := hj.retryCount
    omega
  | sendLockG n =>
    obtain ⟨-, rfl, rfl⟩ := he
    obtain ⟨hserves, hto, hfrom, hsent⟩ := h
    refine ⟨hserves, .inl ⟨hj.cmd.ne_nil P.request P.request_header, ?_⟩⟩
    simp only [Shared.setWire, Function.update_self]
    exact ⟨⟨by simp, by simp⟩, by simp [hto], hfrom, hsent.symm⟩
  | send n k left hleft =>
    obtain rfl := he
    obtain ⟨hserves, ⟨-, hsending⟩ | ⟨hnil, -⟩⟩ := h
    · refine ⟨hserves, ?_⟩
      simp only [Shared.setWire, Function.update_self]
      exact hsending.send k
    · exact absurd hnil hleft
  | sendUnlockG n =>
    obtain rfl := he
    obtain ⟨hserves, ⟨hne, -⟩ | ⟨-, hasked⟩⟩ := h
    · exact absurd rfl hne
    · exact ⟨hserves, hasked⟩
  | recv n got piece hp hw =>
    obtain ⟨rest, hfrom, rfl⟩ := he
    refine ⟨h.1, ?_⟩
    simp only [Shared.setWire, Function.update_self]
    exact h.2.recv hp hfrom
  | badHeader n got hl ht => exact absurd ht (h.2.header hl)
  | complete n got hg =>
    obtain rfl := he
    exact ⟨h.1, h.2.complete hg⟩
  | relockG out =>
    obtain ⟨-, rfl⟩ := he
    exact h
  | lookup out slot =>
    obtain ⟨hf, rfl⟩ := he
    obtain ⟨⟨i, hi⟩, hrest⟩ := h
    rw [TxLocks.find_of_serves hu hi] at hf
    exact ⟨⟨i, hf.symm, hi⟩, hrest⟩
  | reunlockG out i =>
    obtain rfl := he
    obtain ⟨⟨k, hk, hserves⟩, hrest⟩ := h
    obtain rfl := Option.some.inj hk
    exact ⟨hserves, hrest⟩
  | unlockFailed out =>
    obtain ⟨⟨k, hk, -⟩, -⟩ := h
    simp at hk
  | unlockTx out i =>
    obtain rfl := he
    exact h.2.2

/-- What a step does to `g_connection_mutex`: it is taken while free, or given back by a thread
that has it, or left alone. -/
theorem Next.holdsG (hn : Next P j pc a pc') (he : s.effect t c j.fd a s') :
    (s'.gOwner = s.gOwner ∧ (pc'.HoldsG ↔ pc.HoldsG)) ∨
      (s.gOwner = none ∧ s'.gOwner = some t ∧ pc'.HoldsG) ∨
      (s'.gOwner = none ∧ pc.HoldsG ∧ ¬ pc'.HoldsG) := by
  cases hn with
  | lockG | relockG out =>
    obtain ⟨hfree, rfl⟩ := he
    exact .inr (.inl ⟨hfree, rfl, trivial⟩)
  | sendLockG n =>
    obtain ⟨hfree, -, rfl⟩ := he
    exact .inr (.inl ⟨hfree, rfl, trivial⟩)
  | unlockG i | lockFailed | sendUnlockG n | reunlockG out i | unlockFailed out =>
    obtain rfl := he
    exact .inr (.inr ⟨rfl, trivial, not_false⟩)
  | found i | notFound | vacant i | full | lookup out slot | lockTx i =>
    obtain ⟨-, rfl⟩ := he
    exact .inl ⟨rfl, Iff.rfl⟩
  | create i | config h | noAttempt h | send n k left h | badHeader n got h ht | complete n got h
  | unlockTx out i =>
    obtain rfl := he
    exact .inl ⟨rfl, Iff.rfl⟩
  | recv n got piece h hw =>
    obtain ⟨rest, -, rfl⟩ := he
    exact .inl ⟨rfl, Iff.rfl⟩

/-- What a step does to the mutexes of the descriptors: only a thread that found no mutex to unlock
would leave without giving it back. -/
theorem Next.holdsTx (hn : Next P j pc a pc') (he : s.effect t c j.fd a s')
    (h : pc.Assert P s.locks (s.wire j.fd) (t, c) j) :
    (s'.txOwner = s.txOwner ∧ (pc'.HoldsTx ↔ pc.HoldsTx)) ∨
      (∃ i, pc = .lockTx i ∧ pc' = .config ∧ s.txOwner i = none ∧
        s'.txOwner = Function.update s.txOwner i (some t)) ∨
      (∃ out i, pc = .unlockTx out i ∧ pc' = .returned out ∧
        s'.txOwner = Function.update s.txOwner i none) := by
  cases hn with
  | lockG | relockG out | found i | notFound | vacant i | full | lookup out slot =>
    obtain ⟨-, rfl⟩ := he
    exact .inl ⟨rfl, Iff.rfl⟩
  | sendLockG n =>
    obtain ⟨-, -, rfl⟩ := he
    exact .inl ⟨rfl, Iff.rfl⟩
  | unlockG i | lockFailed | sendUnlockG n | reunlockG out i | create i | config hr
  | noAttempt hr | send n k left hl | badHeader n got hl ht | complete n got hg =>
    obtain rfl := he
    exact .inl ⟨rfl, Iff.rfl⟩
  | recv n got piece hp hw =>
    obtain ⟨rest, -, rfl⟩ := he
    exact .inl ⟨rfl, Iff.rfl⟩
  | unlockFailed out =>
    obtain ⟨⟨k, hk, -⟩, -⟩ := h
    simp at hk
  | lockTx i =>
    obtain ⟨hfree, rfl⟩ := he
    exact .inr (.inl ⟨i, rfl, rfl, hfree, rfl⟩)
  | unlockTx out i =>
    obtain rfl := he
    exact .inr (.inr ⟨out, i, rfl, rfl, rfl⟩)

/-- What a step does to the table: it is changed only under `g_connection_mutex`, by taking a
vacant slot for a descriptor that has none. -/
theorem Next.locks (hn : Next P j pc a pc') (he : s.effect t c j.fd a s')
    (h : pc.Assert P s.locks (s.wire j.fd) (t, c) j) :
    s'.locks = s.locks ∨
      ∃ i, pc.HoldsG ∧ ¬ pc.HoldsTx ∧ ¬ pc'.HoldsTx ∧ s'.locks = s.locks.claim j.fd i ∧
        (s.locks i).inUse = false ∧ ∀ k, ¬ s.locks.Serves j.fd k := by
  cases hn with
  | lockG | relockG out | found i | notFound | vacant i | full | lookup out slot | lockTx i =>
    obtain ⟨-, rfl⟩ := he
    exact .inl rfl
  | sendLockG n =>
    obtain ⟨-, -, rfl⟩ := he
    exact .inl rfl
  | create i =>
    obtain rfl := he
    exact .inr ⟨i, trivial, not_false, not_false, rfl, h.1, h.2⟩
  | recv n got piece hp hw =>
    obtain ⟨rest, -, rfl⟩ := he
    exact .inl rfl
  | unlockG i | lockFailed | sendUnlockG n | reunlockG out i | unlockFailed out | config hr
  | noAttempt hr | send n k left hl | badHeader n got hl ht | complete n got hg
  | unlockTx out i =>
    obtain rfl := he
    exact .inl rfl

/-- What a step does to the connections: only that of the call changes, while its mutex is held. -/
theorem Next.wire (hn : Next P j pc a pc') (he : s.effect t c j.fd a s') :
    s'.wire = s.wire ∨
      ∃ w, pc.HoldsTx ∧ pc'.HoldsTx ∧ s'.wire = Function.update s.wire j.fd w ∧
        w.Extends (s.wire j.fd) := by
  cases hn with
  | lockG | relockG out | found i | notFound | vacant i | full | lookup out slot | lockTx i =>
    obtain ⟨-, rfl⟩ := he
    exact .inl rfl
  | sendLockG n =>
    obtain ⟨-, -, rfl⟩ := he
    exact .inr ⟨_, trivial, trivial, rfl, List.prefix_rfl, List.prefix_append _ _⟩
  | send n k left hl =>
    obtain rfl := he
    exact .inr ⟨_, trivial, trivial, rfl, .refl _⟩
  | recv n got piece hp hw =>
    obtain ⟨rest, -, rfl⟩ := he
    exact .inr ⟨_, trivial, trivial, rfl, .refl _⟩
  | create i | unlockG i | lockFailed | sendUnlockG n | reunlockG out i | unlockFailed out
  | config hr | noAttempt hr | badHeader n got hl ht | complete n got hg | unlockTx out i =>
    obtain rfl := he
    exact .inl rfl

/-- What a step adds to the slots that were handed out. -/
theorem Next.handed (hn : Next P j pc a pc') (he : s.effect t c j.fd a s') :
    ∀ x ∈ s'.handed, x ∈ s.handed ∨ s'.locks.Serves x.1 x.2 := by
  cases hn with
  | found i | notFound | lookup out slot =>
    obtain ⟨hf, rfl⟩ := he
    intro x hx
    rcases List.mem_append.mp hx with hx | hx
    · exact .inl hx
    · obtain ⟨i, hi, rfl⟩ := List.mem_map.mp hx
      exact .inr (TxLocks.serves_of_find (hf.trans (Option.mem_toList.mp hi)))
  | create i =>
    obtain rfl := he
    intro x hx
    rcases List.mem_append.mp hx with hx | hx
    · exact .inl hx
    · obtain rfl := List.mem_singleton.mp hx
      exact .inr TxLocks.claim_serves_self
  | lockG | relockG out | vacant i | full | lockTx i =>
    obtain ⟨-, rfl⟩ := he
    exact fun x hx => .inl hx
  | sendLockG n =>
    obtain ⟨-, -, rfl⟩ := he
    exact fun x hx => .inl hx
  | recv n got piece hp hw =>
    obtain ⟨rest, -, rfl⟩ := he
    exact fun x hx => .inl hx
  | unlockG i | lockFailed | sendUnlockG n | reunlockG out i | unlockFailed out | config hr
  | noAttempt hr | send n k left hl | badHeader n got hl ht | complete n got hg
  | unlockTx out i =>
    obtain rfl := he
    exact fun x hx => .inl hx

end Act

end MelsecMc
