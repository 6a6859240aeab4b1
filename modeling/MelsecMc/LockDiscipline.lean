import MelsecMc.LockedCalls

/-!
# The lock discipline of the public calls

A thread takes at most one transaction mutex, and `g_connection_mutex` only for a
short while, also behind it. Slots are never given back, so the second search for the
mutex of a descriptor finds the one that was locked. Every call gives back what it
took, on every path.
-/
namespace MelsecMc.Locked

namespace Mutex

/-- `g_connection_mutex` is above the mutexes of the slots, which are not comparable. -/
instance : Preorder Mutex where
  le l m := l = m ∨ m = .g
  le_refl _ := .inl rfl
  le_trans l m k := by
    rintro (rfl | rfl) (rfl | rfl)
    · exact .inl rfl
    · exact .inr rfl
    · exact .inr rfl
    · exact .inr rfl

theorem le_iff {l m : Mutex} : l ≤ m ↔ l = m ∨ m = .g := Iff.rfl

theorem lt_iff {l m : Mutex} : l < m ↔ l ≠ .g ∧ m = .g := by
  rw [lt_iff_le_not_ge, le_iff, le_iff]
  cases l <;> cases m <;> simp [eq_comm]

/-- A thread that has one transaction mutex may take `g_connection_mutex`. -/
theorem tx_lt (i : Fin maxTxConnections) : ∀ m ∈ ({.tx i} : Set Mutex), m < .g := by
  rintro m rfl
  exact lt_iff.mpr ⟨by simp, rfl⟩

theorem insert_g_diff (i : Fin maxTxConnections) :
    (insert .g {.tx i} : Set Mutex) \ {.g} = {.tx i} := by
  ext m
  cases m <;> simp

theorem single_diff (l : Mutex) : ({l} : Set Mutex) \ {l} = ∅ := Set.sdiff_self

end Mutex

namespace Process

/-- Slots that are in use stay in use for their descriptor. -/
instance : Preorder Process where
  le s s' := (s.locks.Unique → s'.locks.Unique) ∧
    ∀ fd i, s.locks.Serves fd i → s'.locks.Serves fd i
  le_refl _ := ⟨id, fun _ _ => id⟩
  le_trans _ _ _ h h' := ⟨h'.1 ∘ h.1, fun fd i => h'.2 fd i ∘ h.2 fd i⟩

theorem le_of_locks {s s' : Process} (h : s'.locks = s.locks) : s ≤ s' :=
  ⟨fun hu => h ▸ hu, fun _ _ hs => h ▸ hs⟩

end Process

/-- `send` and `recv` are for the thread that has the mutex of the descriptor, the tables and the
sockets for the one that has `g_connection_mutex`. A mutex is taken when its slot is in use. -/
def rules : LockRules Mutex SharedAct Process where
  lock
    | .tx i, s => (s.locks i).inUse = true
    | .g, _ => True
  act
    | .send fd _, held, s | .recv fd _, held, s => ∃ i, .tx i ∈ held ∧ s.locks.Serves fd i
    | .setNetwork _, held, _ | .getOrCreate _, held, _ | .find _, held, _
    | .closeSocket _, held, _ => .g ∈ held
    | _, _, _ => True

/-- The action closes or opens `fd`. -/
def Reopens (fd : ℤ) (a : SharedAct) (x : SharedReturn a) : Prop :=
  match a, x with
  | .closeSocket fd', _ => fd' = fd
  | .openSocket _ _, fd' => fd' = fd
  | _, _ => False

/-- Each action changes at most one part of the data: the address, the table, or the connection of
a descriptor that it closes or opens. -/
theorem Process.effect_cases {a : SharedAct} {s : Process} {x : SharedReturn a} {s' : Process}
    (h : s.effect a x s') : s' = s ∨ (∃ address, s' = { s with network := address }) ∨
      (∃ fd mutexInit, s' = { s with
        locks := (s.locks.mcGetOrCreateFdTxMutexLocked fd mutexInit).1 }) ∨
      ∃ fd c n, Reopens fd a x ∧
        s' = { s with connection := Function.update s.connection fd c, opened := n } := by
  cases a with
  | network | find fd | send fd bytes => exact .inl h.1
  | config fd | malloc => exact .inl h
  | setNetwork address => exact .inr (.inl ⟨address, h⟩)
  | getOrCreate fd =>
    obtain ⟨mutexInit, rfl, -⟩ := h
    exact .inr (.inr (.inl ⟨fd, mutexInit, rfl⟩))
  | recv fd wanted =>
    cases x with
    | data byte bytes => exact .inl h.1
    | closed | failed => exact .inl h
  | openSocket destIp destPort =>
    obtain ⟨answer, -, hopen⟩ := h
    unfold opens at hopen
    split at hopen
    · exact .inl hopen
    · exact .inr (.inr (.inr ⟨x, some s.opened, s.opened + 1, rfl, hopen.2⟩))
  | closeSocket fd => exact .inr (.inr (.inr ⟨fd, none, s.opened, rfl, h⟩))
  | fault => cases x

/-- Only the search for a mutex changes the table. -/
theorem Process.effect_locks {a : SharedAct} {s : Process} {x : SharedReturn a} {s' : Process}
    (h : s.effect a x s') : s'.locks = s.locks ∨
      ∃ fd mutexInit, s'.locks = (s.locks.mcGetOrCreateFdTxMutexLocked fd mutexInit).1 := by
  obtain rfl | ⟨address, rfl⟩ | ⟨fd, mutexInit, rfl⟩ | ⟨fd, c, n, -, rfl⟩ := effect_cases h
  · exact .inl rfl
  · exact .inl rfl
  · exact .inr ⟨fd, mutexInit, rfl⟩
  · exact .inl rfl

theorem Process.le_of_effect {a : SharedAct} {s : Process} {x : SharedReturn a} {s' : Process}
    (h : s.effect a x s') : s ≤ s' := by
  rcases effect_locks h with heq | ⟨fd, mutexInit, heq⟩
  · exact le_of_locks heq
  · refine ⟨fun hu => ?_, fun fd' i hs => ?_⟩
    · rw [heq]
      exact hu.getOrCreate fd mutexInit
    · rw [heq]
      exact hs.getOrCreate fd mutexInit

/-- The shared data of the calls. -/
def data : SharedData SharedReturn Process where
  effect a s x s' := s.effect a x s'
  le_of_effect := Process.le_of_effect

section Specs

variable {i : Fin maxTxConnections} {fd : ℤ} {w : Process}

/-- What a part of a call does between locking the mutex of slot `i` and unlocking it. -/
abbrev Inside {α : Type} (p : Program α) (i : Fin maxTxConnections) (w : Process) : Prop :=
  p.Safe data rules (fun _ held _ => held = {.tx i}) {.tx i} w

theorem ofOption_safe {α : Type} {post : α → Set Mutex → Process → Prop} {held : Set Mutex}
    (o : Option α) (h : ∀ a, o = some a → ∀ s, w ≤ s → post a held s) :
    (ofOption o).Safe data rules post held w := by
  cases o with
  | none => exact fun s _ => ⟨trivial, fun x => x.elim⟩
  | some a => exact h a rfl

/-- The loop of `mc_write_msg` keeps the mutexes. -/
theorem writeLoop_safe {held : Set Mutex} (hi : .tx i ∈ held) (hs : w.locks.Serves fd i)
    (left : List Byte) :
    (writeLoop fd left).Safe data rules (fun _ held' _ => held' = held) held w := by
  induction left using writeLoop.induct generalizing w with
  | case1 =>
    rw [writeLoop]
    exact fun s _ => rfl
  | case2 b bytes ih =>
    rw [writeLoop]
    intro s hle
    refine ⟨⟨i, hi, hle.2 fd i hs⟩, fun x s' he => ?_⟩
    have hs' := (hle.trans (data.le_of_effect he)).2 fd i hs
    cases x with
    | none => exact fun s _ => rfl
    | some k => exact ih k hs'

theorem mcWriteMsg_safe (hs : w.locks.Serves fd i) (buf : List Byte) :
    Inside (mcWriteMsg fd buf) i w := by
  unfold mcWriteMsg
  split
  · exact fun s _ => rfl
  · refine .locking (Mutex.tx_lt i) fun s hle => ⟨trivial, .bind ?_⟩
    have hi : Mutex.tx i ∈ (insert .g {.tx i} : Set Mutex) := by simp
    have hloop := writeLoop_safe hi (hle.2 fd i hs) buf
    refine hloop.mono fun written held s' _ hheld => ?_
    subst hheld
    split
    · exact .unlocking (by simp) fun s _ => .ret fun s _ => Mutex.insert_g_diff i
    · exact .unlocking (by simp) fun s _ => .ret fun s _ => Mutex.insert_g_diff i

theorem retry_safe {attempt : Program Bool} (h : ∀ s, w ≤ s → Inside attempt i s) (n : ℕ) :
    Inside (retry attempt n) i w := by
  induction n generalizing w with
  | zero => exact fun s _ => rfl
  | succ n ih =>
    refine .bind ((h w le_rfl).mono fun ok held s hle hheld => ?_)
    subst hheld
    split
    · exact fun s _ => rfl
    · exact ih fun s' hle' => h s' (hle.trans hle')

theorem mcTrySendMsg_safe (hs : w.locks.Serves fd i) (cmd : List Byte) :
    Inside (mcTrySendMsg fd cmd) i w := by
  unfold mcTrySendMsg
  split
  · exact fun s _ => rfl
  · refine retry_safe (fun s hle => .bind ?_) maxRetryTimes
    refine (mcWriteMsg_safe (hle.2 fd i hs) cmd).mono fun real_sends held s' _ hheld => ?_
    exact .ret fun _ _ => hheld

theorem mcRecvExact_safe (hs : w.locks.Serves fd i) (n : ℕ) : Inside (mcRecvExact fd n) i w := by
  induction n using mcRecvExact.induct generalizing w with
  | case1 =>
    rw [mcRecvExact]
    exact fun s _ => rfl
  | case2 n ih =>
    rw [mcRecvExact]
    intro s hle
    refine ⟨⟨i, rfl, hle.2 fd i hs⟩, fun x s' he => ?_⟩
    have hs' := (hle.trans (data.le_of_effect he)).2 fd i hs
    cases x with
    | closed => exact fun s _ => rfl
    | failed => exact fun s _ => rfl
    | data byte bytes =>
      exact .bind ((ih bytes hs').mono fun result held s'' _ hheld => .ret fun _ _ => hheld)

theorem readResponse_safe (P : Protocol) (hs : w.locks.Serves fd i) :
    Inside (readResponse P fd) i w := by
  unfold readResponse
  split
  · exact fun s _ => rfl
  · refine .bind ((mcRecvExact_safe hs _).mono fun header held s hle hheld => ?_)
    subst hheld
    dsimp only
    split
    · exact fun s _ => rfl
    · split
      · exact fun s _ => rfl
      · refine .acting fun s' hle' => ⟨trivial, fun allocated s'' he => ?_⟩
        have hs' := ((hle.trans hle').trans (data.le_of_effect he)).2 fd i hs
        split
        · refine .bind ((mcRecvExact_safe hs' _).mono fun payload held _ _ hheld => ?_)
          subst hheld
          split
          · exact fun s _ => rfl
          · exact fun s _ => rfl
        · exact fun s _ => rfl

theorem transfer_safe (P : Protocol) (hs : w.locks.Serves fd i) (cmd : ByteArrayInfo) :
    Inside (transfer P fd cmd) i w := by
  refine .acting fun s hle => ⟨trivial, fun retry_count s' he => .bind ?_⟩
  have hs' := (hle.trans (data.le_of_effect he)).2 fd i hs
  refine ofOption_safe _ fun bytes _ s hle => .bind ?_
  have hsend := retry_safe (w := s)
    (fun s' hle' => mcTrySendMsg_safe ((hle.trans hle').2 fd i hs') bytes)
  refine (hsend _).mono fun send_ret held s' hle' hheld => ?_
  subst hheld
  split
  · exact readResponse_safe P ((hle.trans hle').2 fd i hs')
  · exact fun s _ => rfl

/-- On success the thread has the mutex of the descriptor, otherwise none. -/
theorem mcLockFdTransaction_safe (hu : w.locks.Unique) :
    (mcLockFdTransaction fd).Safe data rules
      (fun code held s => s.locks.Unique ∧ (code = .success → ∃ i, held = {.tx i} ∧
        s.locks.Serves fd i) ∧ (code ≠ .success → held = ∅)) ∅ w := by
  unfold mcLockFdTransaction
  split
  · exact fun s hle => ⟨hle.1 hu, by simp, fun _ => rfl⟩
  · refine .locking (by simp) fun s hle => ⟨trivial, .acting fun s' hle' => ?_⟩
    refine ⟨by simp [rules], fun slot s'' he => .unlocking (by simp) fun s₃ hle₃ => ?_⟩
    have hu'' := ((hle.trans hle').trans (data.le_of_effect he)).1 hu
    have hempty : (insert .g ∅ : Set Mutex) \ {.g} = ∅ := by simp
    rw [hempty]
    cases slot with
    | none => exact fun s₄ hle₄ => ⟨(hle₃.trans hle₄).1 hu'', by simp, fun _ => rfl⟩
    | some i =>
      obtain ⟨mutexInit, rfl, hslot⟩ := he
      have hi := TxLocks.serves_of_getOrCreate hslot.symm
      refine .locking (by simp) fun s₄ hle₄ => ⟨((hle₃.trans hle₄).2 fd i hi).1, ?_⟩
      refine fun s₅ hle₅ => ⟨((hle₃.trans hle₄).trans hle₅).1 hu'', fun _ => ⟨i, by simp, ?_⟩,
        fun h => absurd rfl h⟩
      exact ((hle₃.trans hle₄).trans hle₅).2 fd i hi

/-- The mutex that was locked is found again. -/
theorem mcUnlockFdTransaction_safe (hfd : 0 < fd) (hu : w.locks.Unique)
    (hs : w.locks.Serves fd i) :
    (mcUnlockFdTransaction fd).Safe data rules (fun _ held _ => held = ∅) {.tx i} w := by
  unfold mcUnlockFdTransaction
  rw [if_neg (by omega)]
  refine .locking (Mutex.tx_lt i) fun s hle => ⟨trivial, .acting fun s' hle' => ?_⟩
  refine ⟨by simp [rules], fun slot s'' he => .unlocking (by simp) fun s₃ hle₃ => ?_⟩
  have hle₂ := hle.trans hle'
  have hfind : slot = some i :=
    he.2.trans (TxLocks.find_of_serves (hle₂.1 hu) (hle₂.2 fd i hs))
  rw [hfind, Mutex.insert_g_diff]
  exact .unlocking rfl fun s₄ _ => .ret fun _ _ => Mutex.single_diff _

/-- Every path of a transaction gives back the mutex. -/
theorem mcSendAndReceiveTransaction_safe (P : Protocol) (hu : w.locks.Unique)
    (cmd : ByteArrayInfo) : (mcSendAndReceiveTransaction P fd cmd).Safe data rules
      (fun _ held _ => held = ∅) ∅ w := by
  unfold mcSendAndReceiveTransaction
  split
  · exact fun s _ => rfl
  · rename_i hparam
    refine .bind ((mcLockFdTransaction_safe hu).mono fun ret held s hle hlock => ?_)
    obtain ⟨hu', hsome, hnone⟩ := hlock
    split
    · rename_i hret
      exact fun s' _ => hnone hret
    · rename_i hret
      obtain ⟨i, rfl, hs⟩ := hsome (not_not.mp hret)
      refine .bind ((transfer_safe P hs cmd).mono fun result held s' hle' hheld => .bind ?_)
      subst hheld
      have hunlock := mcUnlockFdTransaction_safe (by omega) (hle'.1 hu') (hle'.2 fd i hs)
      exact hunlock.mono fun unlock_ret held _ _ hheld => .ret fun _ _ => hheld

theorem pack_safe (m : Module) (core_cmd : ByteArrayInfo) {held : Set Mutex} :
    (pack m core_cmd).Safe data rules (fun _ held' _ => held' = held) held w := by
  refine .acting fun s _ => ⟨trivial, fun network s _ => .acting fun s _ => ⟨trivial, ?_⟩⟩
  intro allocated s _
  split
  · exact ofOption_safe _ fun cmd _ s _ => rfl
  · exact .ret fun s _ => rfl

theorem lockedPack_safe (m : Module) (locks : Bool) (core_cmd : ByteArrayInfo) :
    (lockedPack m locks core_cmd).Safe data rules (fun _ held _ => held = ∅) ∅ w := by
  unfold lockedPack
  split
  · refine .locking (by simp) fun s _ => ⟨trivial, .bind ((pack_safe m core_cmd).mono ?_)⟩
    rintro cmd held s - rfl
    exact .unlocking (by simp) fun s _ => .ret fun s _ => by simp
  · exact pack_safe m core_cmd

theorem requestWith_safe (m : Module) (parts : RequestParts ErrorCode) (locks : Bool)
    (hu : w.locks.Unique) :
    (requestWith m parts locks fd).Safe data rules (fun _ held _ => held = ∅) ∅ w := by
  refine .bind (ofOption_safe _ fun prepared _ s hle => ?_)
  cases prepared with
  | error code => exact fun s _ => rfl
  | ok core_cmd =>
    refine .bind ((lockedPack_safe m locks core_cmd).mono fun cmd held s' hle' hheld => ?_)
    subst hheld
    split
    · exact ofOption_safe _ fun _ _ s _ => rfl
    · have hunique := (hle.trans hle').1 hu
      refine .bind ((mcSendAndReceiveTransaction_safe m.protocol hunique cmd).mono ?_)
      intro r held s _ hheld
      exact ofOption_safe _ fun _ _ s _ => hheld

theorem connectWith_safe (result : ℤ → ℤ) (ip_addr : Option CString) (port : ℤ)
    (numbers : PlcNetworkAddress) : (connectWith result ip_addr port numbers).Safe data rules
      (fun _ held _ => held = ∅) ∅ w := by
  unfold connectWith
  split
  · exact fun s _ => rfl
  · refine .locking (by simp) fun s _ => ⟨trivial, .acting fun s _ => ⟨by simp [rules], ?_⟩⟩
    refine fun _ s _ => .unlocking (by simp) fun s _ => .acting fun s _ => ⟨trivial, ?_⟩
    exact fun sockFd s _ => .ret fun s _ => by simp

theorem mcDisconnect_safe :
    (mcDisconnect fd).Safe data rules (fun _ held _ => held = ∅) ∅ w := by
  unfold mcDisconnect
  split
  · exact fun s _ => rfl
  · refine .locking (by simp) fun s _ => ⟨trivial, .acting fun s _ => ⟨by simp [rules], ?_⟩⟩
    exact fun _ s _ => .unlocking (by simp) fun s _ => .ret fun s _ => by simp

/-- Every path of every call gives back every mutex. -/
theorem PublicCall.program_safe (m : Module) (c : PublicCall) (hu : w.locks.Unique) :
    (c.program m).Safe data rules (fun _ held _ => held = ∅) ∅ w := by
  cases c with
  | connect ip_addr port numbers =>
    refine .bind (LockProgram.Safe.mono ?_ fun fd held s _ hheld => .ret fun _ _ => hheld)
    cases m with
    | binary => exact connectWith_safe _ ip_addr port numbers
    | ascii => exact connectWith_safe _ ip_addr port numbers
  | disconnect fd =>
    exact .bind (mcDisconnect_safe.mono fun ok held s _ hheld => .ret fun _ _ => hheld)
  | request parts locks fd =>
    exact .bind ((requestWith_safe m parts locks hu).mono
      fun code held s _ hheld => .ret fun _ _ => hheld)

end Specs

/-- The threads, with the calls they are in. -/
abbrev CallState (T : Type) := LockState T Mutex SharedAct SharedReturn Returned Process

/-- Threads that make public calls of one module, in a process that was just started. -/
def system (m : Module) (T : Type) [DecidableEq T] : TransitionSystem (CallState T) :=
  lockSystem data (Set.range (PublicCall.program m)) .initial

theorem initial_unique : Process.initial.locks.Unique := by
  intro i j hi
  simp [Process.initial, TxLocks.initial, TxLocks.view] at hi

theorem calls_safe (m : Module) : ∀ p ∈ Set.range (PublicCall.program m),
    p.Safe data rules (fun _ held _ => held = ∅) ∅ .initial := by
  rintro p ⟨c, rfl⟩
  exact c.program_safe m initial_unique

theorem system_inv (m : Module) {T : Type} [DecidableEq T] {s : CallState T}
    (hs : (system m T).Reachable s) : LockInv data rules .initial s :=
  LockInv.reachable (calls_safe m) hs

/-- One thread goes on with an action. -/
theorem reachable_act {m : Module} {T : Type} [DecidableEq T] {s : CallState T} {s' : Process}
    (hs : (system m T).Reachable s) (t : T) (a : SharedAct) (x : SharedReturn a)
    {next : SharedReturn a → Program Returned} (h : s.program t = some (.act a next))
    (he : s.shared.effect a x s') :
    (system m T).Reachable ({ s with shared := s' }.goOn t (next x)) :=
  hs.next ⟨_, .act s t a next x s' h he⟩

/-- `mc_remote_stop` on descriptor 3, as it leaves its preparation. -/
def remoteStop : Program Returned :=
  PublicCall.program .binary
    (.request ⟨some (.ok (.ofList [0x02, 0x10, 0x00, 0x00, 0x01, 0x00])), some .failed,
      fun r => some r.code⟩ false 3)

/-- In every state that any number of threads reach with public calls of one module: no thread is
about to lock a mutex that it has or to unlock one that it does not have; a thread that has
`g_connection_mutex` is not about to lock a transaction mutex, and has at most one; threads do not
wait in a cycle; a call that returns, and a thread in no call, has no mutex. -/
theorem lock_discipline (m : Module) {T : Type} [DecidableEq T] {s : CallState T}
    (hs : (system m T).Reachable s) :
    (∀ t l next, s.program t = some (.lock l next) → s.owner l ≠ some t) ∧
      (∀ t l next, s.program t = some (.unlock l next) → s.owner l = some t) ∧
      (∀ t i next, s.owner .g = some t → s.program t ≠ some (.lock (.tx i) next)) ∧
      (∀ t i j, s.owner (.tx i) = some t → s.owner (.tx j) = some t → i = j) ∧
      (∀ t, ¬ Relation.TransGen s.WaitsFor t t) ∧
      (∀ t x, s.program t = some (.ret x) → ∀ l, s.owner l ≠ some t) ∧
      ∀ t, s.program t = none → ∀ l, s.owner l ≠ some t := by
  have h := system_inv m hs
  refine ⟨fun t l next hp => h.not_held hp, fun t l next hp => h.held_of_unlock hp, ?_, ?_,
    h.no_cycle, fun t x hp => h.released hp, ?_⟩
  · intro t i next hg hp
    exact (Mutex.lt_iff.mp (h.lt_of_lock hp hg)).1 rfl
  · intro t i j hi hj
    by_contra hne
    have hchain := h.chain t hi hj (by simpa using hne)
    simp only [Mutex.le_iff, reduceCtorEq, or_false, Mutex.tx.injEq] at hchain
    rcases hchain with heq | heq
    · exact hne heq
    · exact hne heq.symm
  · intro t hp l hl
    have hidle := h.idle t hp
    exact Set.notMem_empty l (hidle ▸ hl)

/-- A transaction has its mutex and waits for `g_connection_mutex`, which a thread that closes
another connection has. -/
theorem lock_discipline_waiting : ∃ s : CallState Bool, s.owner (.tx 0) = some true ∧
    s.owner .g = some false ∧ s.WaitsFor true false ∧
    (∀ i next, s.program false ≠ some (.lock (.tx i) next)) ∧
    ∀ t, ¬ Relation.TransGen s.WaitsFor t t := by
  have h0 : (system .binary Bool).Reachable ⟨.initial, fun _ => none, fun _ => none⟩ :=
    .initial rfl
  have h1 := h0.next ⟨_, .start _ true remoteStop rfl ⟨_, rfl⟩⟩
  have h2 := reachable_act h1 true .network ⟨0, 0⟩ rfl ⟨rfl, rfl⟩
  have h3 := reachable_act h2 true .malloc true rfl rfl
  have h4 := h3.next ⟨_, .lock _ true .g _ rfl rfl⟩
  have h5 := reachable_act h4 true (.getOrCreate 3) (some (0 : Fin maxTxConnections)) rfl
    ⟨true, rfl, rfl⟩
  have h6 := h5.next ⟨_, .unlock _ true .g _ rfl⟩
  have h7 := h6.next ⟨_, .lock _ true (.tx 0) _ rfl rfl⟩
  have h8 := reachable_act h7 true (.config 3) (0 : ℤ) rfl rfl
  have h9 := h8.next ⟨_, .start _ false (PublicCall.program .binary (.disconnect 4)) rfl
    ⟨_, rfl⟩⟩
  have h10 := h9.next ⟨_, .lock _ false .g _ rfl rfl⟩
  obtain ⟨-, -, hforeign, -, hcycle, -, -⟩ := lock_discipline .binary h10
  exact ⟨_, rfl, rfl, ⟨.g, _, rfl, rfl⟩, fun i next => hforeign false i next rfl, hcycle⟩

end MelsecMc.Locked
