import MelsecMc.LockDiscipline

/-!
# Descriptors that are reused in the middle of a transaction

The disconnects close a socket inside `g_connection_mutex` only; they do not wait for
the transaction that has the mutex of the descriptor. The system may then give the
same descriptor to a new connection, and the transaction goes on there. It stays on
its connection as long as its descriptor is not closed or opened while it has the
mutex.
-/
namespace MelsecMc.Locked

variable {T : Type}

/-- A state, and the connections that were open when each thread last locked a transaction
mutex. -/
structure Watched (T : Type) where
  state : CallState T
  atLock : T → ℤ → Option ℕ

/-- An event of a run of public calls. -/
abbrev CallEvent (T : Type) := LockEvent T Mutex SharedAct SharedReturn

/-- The thread that sends or receives bytes, and the descriptor. -/
def transfersOn : CallEvent T → Option (T × ℤ)
  | .act t (.send fd _) (some _) => some (t, fd)
  | .act t (.recv fd _) (.data _ _) => some (t, fd)
  | _ => none

/-- No descriptor is closed or opened while a thread has its transaction mutex. -/
def Undisturbed (s : CallState T) : CallEvent T → Prop
  | .act _ a x => ∀ fd, Reopens fd a x → ∀ i t, s.shared.locks.Serves fd i →
      s.owner (.tx i) ≠ some t
  | _ => True

/-- Only closing and opening a descriptor changes its connection. -/
theorem effect_connection {a : SharedAct} {s s' : Process} {x : SharedReturn a}
    (he : s.effect a x s') {fd : ℤ} (hfd : ¬ Reopens fd a x) :
    s'.connection fd = s.connection fd := by
  obtain rfl | ⟨address, rfl⟩ | ⟨fd', mutexInit, rfl⟩ | ⟨fd', c, n, hreopens, rfl⟩ :=
    Process.effect_cases he
  · rfl
  · rfl
  · rfl
  · have hne : fd ≠ fd' := by
      rintro rfl
      exact hfd hreopens
    exact Function.update_of_ne hne ..

/-- Slots that are in use do not change. -/
theorem effect_serves {a : SharedAct} {s s' : Process} {x : SharedReturn a}
    (he : s.effect a x s') {fd : ℤ} {i : Fin maxTxConnections} (hi : (s.locks i).inUse = true) :
    s'.locks.Serves fd i ↔ s.locks.Serves fd i := by
  rcases Process.effect_locks he with heq | ⟨fd', mutexInit, heq⟩
  · rw [heq]
  · rw [heq]
    exact TxLocks.serves_getOrCreate_iff hi fd' mutexInit

/-- The thread that sends or receives has the mutex of the descriptor. -/
theorem transfers_rule {t u : T} {a : SharedAct} {x : SharedReturn a} {fd : ℤ} {held : Set Mutex}
    {s : Process} (h : transfersOn (.act t a x) = some (u, fd)) (hrule : rules.act a held s) :
    t = u ∧ ∃ i, .tx i ∈ held ∧ s.locks.Serves fd i := by
  cases a with
  | send fd' bytes =>
    cases x with
    | none => cases h
    | some k =>
      obtain ⟨rfl, rfl⟩ := Prod.mk.inj (Option.some.inj h)
      exact ⟨rfl, hrule⟩
  | recv fd' wanted =>
    cases x with
    | data byte bytes =>
      obtain ⟨rfl, rfl⟩ := Prod.mk.inj (Option.some.inj h)
      exact ⟨rfl, hrule⟩
    | closed => cases h
    | failed => cases h
  | network | setNetwork | getOrCreate | find | config | malloc | openSocket | closeSocket
  | fault => cases h

variable [DecidableEq T]

def Watched.lockedAt (x : Watched T) : CallEvent T → T → ℤ → Option ℕ
  | .lock t (.tx _) => Function.update x.atLock t x.state.shared.connection
  | _ => x.atLock

/-- The runs of public calls of module `m` whose events all meet `allow`. -/
def watched (m : Module) (T : Type) [DecidableEq T] (allow : CallState T → CallEvent T → Prop) :
    TransitionSystem (Watched T) where
  init x := (system m T).init x.state
  step x y := ∃ e, LockStep data (Set.range (PublicCall.program m)) x.state e y.state ∧
    allow x.state e ∧ y.atLock = x.lockedAt e

/-- Bytes are only sent and received on the connection that was open under the descriptor when the
thread locked its mutex. -/
def StaysOnConnection (m : Module) (x : Watched T) : Prop :=
  ∀ e s t fd, LockStep data (Set.range (PublicCall.program m)) x.state e s →
    transfersOn e = some (t, fd) → x.state.shared.connection fd = x.atLock t fd

/-- A watched run is a run of public calls. -/
theorem watched_system {m : Module} {allow : CallState T → CallEvent T → Prop} {x : Watched T}
    (hx : (watched m T allow).Reachable x) : (system m T).Reachable x.state := by
  refine hx.map (f := Watched.state) (fun _ h => h) ?_
  rintro x y ⟨e, hs, -⟩
  exact ⟨e, hs⟩

/-- The transaction mutexes that threads have belong to slots in use, and the connection of the
descriptor of a slot is the one that its thread found. -/
structure Settled (x : Watched T) : Prop where
  inUse : ∀ i t, x.state.owner (.tx i) = some t → (x.state.shared.locks i).inUse = true
  same : ∀ i t fd, x.state.owner (.tx i) = some t → x.state.shared.locks.Serves fd i →
    x.state.shared.connection fd = x.atLock t fd

namespace Settled

variable {x y : Watched T} {m : Module}

omit [DecidableEq T] in
/-- Nothing but the programs of the threads changes, and a mutex may be given back. -/
theorem of_same (h : Settled x) (hshared : y.state.shared = x.state.shared)
    (howner : ∀ i t, y.state.owner (.tx i) = some t → x.state.owner (.tx i) = some t)
    (hlock : y.atLock = x.atLock) : Settled y where
  inUse i t hi := hshared ▸ h.inUse i t (howner i t hi)
  same i t fd hi hs := by
    rw [hshared] at hs ⊢
    rw [hlock]
    exact h.same i t fd (howner i t hi) hs

theorem step (h : Settled x) (hinv : LockInv data rules .initial x.state) {e : CallEvent T}
    (hs : LockStep data (Set.range (PublicCall.program m)) x.state e y.state)
    (hallow : Undisturbed x.state e) (hlock : y.atLock = x.lockedAt e) : Settled y := by
  obtain ⟨s, atLock⟩ := y
  cases hs with
  | start t p hidle hp => exact h.of_same rfl (fun _ _ => id) hlock
  | finish t a hp => exact h.of_same rfl (fun _ _ => id) hlock
  | unlock t l next hp =>
    refine h.of_same rfl (fun i u hi => ?_) hlock
    by_cases hl : Mutex.tx i = l
    · simp [hl] at hi
    · simpa [Function.update_of_ne hl] using hi
  | act t a next r s' hp he =>
    obtain rfl : atLock = x.atLock := hlock
    refine ⟨fun i u hi => ?_, fun i u fd hi hs => ?_⟩
    · have huse := h.inUse i u hi
      exact ((effect_serves he huse).mpr ⟨huse, rfl⟩).1
    · have hserves := (effect_serves he (h.inUse i u hi)).mp hs
      have hkept : ¬ Reopens fd a r := fun hreopens => hallow fd hreopens i u hserves hi
      exact (effect_connection he hkept).trans (h.same i u fd hi hserves)
  | lock t l next hp hfree =>
    cases l with
    | g =>
      refine h.of_same rfl (fun i u hi => ?_) hlock
      simpa using hi
    | tx j =>
      obtain rfl : atLock = Function.update x.atLock t x.state.shared.connection := hlock
      refine ⟨fun i u hi => ?_, fun i u fd hi hs => ?_⟩
      · by_cases hij : i = j
        · subst hij
          exact hinv.rule_of_lock hp
        · exact h.inUse i u (by simpa [hij] using hi)
      · by_cases hij : i = j
        · subst hij
          obtain rfl : t = u := by simpa using hi
          simp
        · have hi' : x.state.owner (.tx i) = some u := by simpa [hij] using hi
          -- Thread `t` has no other transaction mutex, so `u` is another thread.
          have hut : u ≠ t := by
            rintro rfl
            have hlt := Mutex.lt_iff.mp (hinv.lt_of_lock hp hi')
            simp at hlt
          simpa [Function.update_of_ne hut] using h.same i u fd hi' hs

end Settled

theorem watched_settled (m : Module) {x : Watched T}
    (hx : (watched m T Undisturbed).Reachable x) : Settled x := by
  refine hx.induction (fun x hinit => ?_) fun x y hreachable h hstep => ?_
  · obtain ⟨s, atLock⟩ := x
    obtain rfl : s = ⟨.initial, fun _ => none, fun _ => none⟩ := hinit
    exact ⟨fun i t hi => by simp at hi, fun i t fd hi => by simp at hi⟩
  · obtain ⟨e, hs, hallow, hlock⟩ := hstep
    exact h.step (system_inv m (watched_system hreachable)) hs hallow hlock

/-- In the runs in which no descriptor is closed or opened while a thread has its transaction
mutex, every byte that a transaction sends or receives goes over the connection that was open
under its descriptor when it locked that mutex. -/
theorem stays_on_connection (m : Module) {x : Watched T}
    (hx : (watched m T Undisturbed).Reachable x) : StaysOnConnection m x := by
  have hinv := system_inv m (watched_system hx)
  have hsettled := watched_settled m hx
  intro e s t fd hs htransfer
  cases hs with
  | act u a next r s' hp he =>
    obtain ⟨rfl, i, hi, hserves⟩ := transfers_rule htransfer (hinv.rule_of_act hp)
    exact hsettled.same i u fd hi hserves
  | start | lock | unlock | finish => simp [transfersOn] at htransfer

section Run

variable {allow : CallState Bool → CallEvent Bool → Prop} {sh sh' : Process}
  {ow : Mutex → Option Bool} {prog prog' : Bool → Option (Program Returned)}
  {seen : ℤ → Option ℕ} {t : Bool}

/-- A run of two threads leads to the state, and `seen` was open when thread `true` locked its
last transaction mutex. -/
def Reaches (allow : CallState Bool → CallEvent Bool → Prop) (sh : Process)
    (ow : Mutex → Option Bool) (prog : Bool → Option (Program Returned))
    (seen : ℤ → Option ℕ) : Prop :=
  ∃ atLock, (watched .binary Bool allow).Reachable ⟨⟨sh, ow, prog⟩, atLock⟩ ∧ atLock true = seen

/-- What the two threads are about to do. -/
def two (p q : Option (Program Returned)) : Bool → Option (Program Returned)
  | true => p
  | false => q

namespace Reaches

theorem update_eq {r : Option (Program Returned)} (hp : prog' t = r)
    (hother : prog' (!t) = prog (!t)) : Function.update prog t r = prog' := by
  funext u
  by_cases hu : u = t
  · rw [hu, Function.update_self, hp]
  · obtain rfl : u = !t := by cases u <;> cases t <;> simp_all
    rw [Function.update_of_ne hu, hother]

theorem start (h : Reaches allow sh ow prog seen) (c : PublicCall) (hidle : prog t = none)
    (hallow : allow ⟨sh, ow, prog⟩ (.start t)) (hp : prog' t = some (c.program .binary))
    (hother : prog' (!t) = prog (!t)) : Reaches allow sh ow prog' seen := by
  obtain ⟨atLock, hx, hseen⟩ := h
  refine ⟨atLock, ?_, hseen⟩
  rw [← update_eq hp hother]
  exact hx.next ⟨_, .start _ t _ hidle ⟨c, rfl⟩, hallow, rfl⟩

theorem weaken (h : Reaches allow sh ow prog seen) :
    Reaches (fun _ _ => True) sh ow prog seen := by
  obtain ⟨atLock, hx, hseen⟩ := h
  refine ⟨atLock, TransitionSystem.Reachable.map (M := watched .binary Bool allow)
    (N := watched .binary Bool fun _ _ => True) (f := fun x => x) (fun _ h => h) ?_ hx, hseen⟩
  rintro x y ⟨e, hs, -, hlock⟩
  exact ⟨e, hs, trivial, hlock⟩

theorem lockG (h : Reaches allow sh ow prog seen) {next : Program Returned}
    (hp : prog t = some (.lock .g next)) (hfree : ow .g = none)
    (hallow : allow ⟨sh, ow, prog⟩ (.lock t .g)) (hp' : prog' t = some next)
    (hother : prog' (!t) = prog (!t)) :
    Reaches allow sh (Function.update ow .g (some t)) prog' seen := by
  obtain ⟨atLock, hx, hseen⟩ := h
  refine ⟨atLock, ?_, hseen⟩
  rw [← update_eq hp' hother]
  exact hx.next ⟨_, .lock _ t .g next hp hfree, hallow, rfl⟩

theorem lockTx (h : Reaches allow sh ow prog seen) {next : Program Returned}
    {i : Fin maxTxConnections} (hp : prog true = some (.lock (.tx i) next))
    (hfree : ow (.tx i) = none) (hallow : allow ⟨sh, ow, prog⟩ (.lock true (.tx i)))
    (hp' : prog' true = some next) (hother : prog' false = prog false) :
    Reaches allow sh (Function.update ow (.tx i) (some true)) prog' sh.connection := by
  obtain ⟨atLock, hx, hseen⟩ := h
  refine ⟨Function.update atLock true sh.connection, ?_, Function.update_self ..⟩
  rw [← update_eq hp' hother]
  exact hx.next ⟨_, .lock _ true (.tx i) next hp hfree, hallow, rfl⟩

theorem unlock (h : Reaches allow sh ow prog seen) {l : Mutex} {next : Program Returned}
    (hp : prog t = some (.unlock l next)) (hallow : allow ⟨sh, ow, prog⟩ (.unlock t l))
    (hp' : prog' t = some next) (hother : prog' (!t) = prog (!t)) :
    Reaches allow sh (Function.update ow l none) prog' seen := by
  obtain ⟨atLock, hx, hseen⟩ := h
  refine ⟨atLock, ?_, hseen⟩
  rw [← update_eq hp' hother]
  exact hx.next ⟨_, .unlock _ t l next hp, hallow, rfl⟩

theorem act (h : Reaches allow sh ow prog seen) (a : SharedAct) (x : SharedReturn a)
    {next : SharedReturn a → Program Returned} (hp : prog t = some (.act a next))
    (he : sh.effect a x sh') (hallow : allow ⟨sh, ow, prog⟩ (.act t a x))
    (hp' : prog' t = some (next x)) (hother : prog' (!t) = prog (!t)) :
    Reaches allow sh' ow prog' seen := by
  obtain ⟨atLock, hx, hseen⟩ := h
  refine ⟨atLock, ?_, hseen⟩
  rw [← update_eq hp' hother]
  exact hx.next ⟨_, .act _ t a next x sh' hp he, hallow, rfl⟩

theorem finish (h : Reaches allow sh ow prog seen) {x : Returned} (hp : prog t = some (.ret x))
    (hallow : allow ⟨sh, ow, prog⟩ (.finish t)) (hp' : prog' t = none)
    (hother : prog' (!t) = prog (!t)) : Reaches allow sh ow prog' seen := by
  obtain ⟨atLock, hx, hseen⟩ := h
  refine ⟨atLock, ?_, hseen⟩
  rw [← update_eq hp' hother]
  exact hx.next ⟨_, .finish _ t x hp, hallow, rfl⟩

end Reaches

/-- The program locks `g_connection_mutex` and sends a frame. -/
def Sends {α : Type} (p : Program α) : Prop :=
  ∃ bytes next, p = .lock .g (.act (.send 3 bytes) next)

theorem Sends.bind {α β : Type} {p : Program α} (h : Sends p) (f : α → Program β) :
    Sends (p >>= f) := by
  obtain ⟨bytes, next, rfl⟩ := h
  exact ⟨bytes, _, rfl⟩

theorem Sends.ret_bind {α β : Type} {a : α} {f : α → Program β} (h : Sends (f a)) :
    Sends ((.ret a : Program α).bind f) := h

theorem Sends.ofOption {α β : Type} {o : Option α} {a : α} {f : α → Program β} (ho : o = some a)
    (h : Sends (f a)) : Sends (ofOption o >>= f) := by
  subst ho
  exact h

theorem sends_write {buf : List Byte} (h : buf ≠ []) : Sends (mcWriteMsg 3 buf) := by
  obtain ⟨b, bytes, rfl⟩ := List.exists_cons_of_ne_nil h
  rw [mcWriteMsg, if_neg (by simp), writeLoop]
  exact ⟨_, _, rfl⟩

theorem Sends.retry {attempt : Program Bool} (h : Sends attempt) (n : ℕ) :
    Sends (retry attempt (n + 1)) :=
  h.bind _

theorem sends_try {cmd : List Byte} (h : cmd ≠ []) : Sends (mcTrySendMsg 3 cmd) :=
  ((sends_write h).bind _).retry 2

/-- The parts of `mc_remote_reset`, for some evaluation of the answer. -/
def resetParts (finish : Transacted → Option ErrorCode) : RequestParts ErrorCode where
  prepare := some (.ok (.ofList [0x06, 0x10, 0x00, 0x00, 0x01, 0x00]))
  unpacked := some .buildCoreCmdFailed
  finish := finish

theorem mcRemoteReset_parts {fd : ℤ} (hfd : 0 < fd) : ∃ finish, ∀ network,
    Remote.reset.mc network fd = (resetParts finish).call packMcCommand network fd := by
  choose result hresult using fun r : Transacted => show Call.IsLocal
    (evaluate minResponseHeaderSize () (fun response => do
      let parsed ← mcParseWriteResponse response none
      return (parsed.1, ())) r) from .evaluate r
  refine ⟨fun r => (result r).map Prod.fst, fun network => ?_⟩
  have hcode (o : Option (ErrorCode × Unit)) :
      (Call.ofOption o).code = .ofOption (o.map Prod.fst) := by cases o <;> rfl
  simp only [Remote.mc, mcRemoteReset, if_neg (show ¬ fd ≤ 0 by omega), writeExchange, exchange,
    RequestParts.call, resetParts]
  cases packMcCommand (.ofList [0x06, 0x10, 0x00, 0x00, 0x01, 0x00]) network with
  | none => rfl
  | some cmd =>
    simp only [Call.ofOption_some, Call.ret_bind]
    rw [if_neg (by decide)]
    split
    · rfl
    · unfold MelsecMc.mcSendAndReceiveTransaction
      split
      · simp only [Call.ret_bind, hresult, hcode]
      · simp only [Call.transact_bind, Call.ret_bind, ← hcode, ← hresult]
        rfl

/-- A connection with the numbers 0 and 0. -/
def connectCall : PublicCall := .connect (some ⟨text ['h'], by decide⟩) 5007 ⟨0, 0⟩

/-- One thread connects and gets descriptor 3. The other one locks the mutex of 3 for its request
and is about to send. -/
theorem transaction_under_way (finish : Transacted → Option ErrorCode) :
    ∃ sh ow p seen, Reaches Undisturbed sh ow (two (some p) none) seen ∧ Sends p ∧
      sh.connection 3 = some 0 ∧ sh.opened = 1 ∧ ow .g = none ∧ ow (.tx 0) = some true ∧
      seen 3 = some 0 := by
  have hnone : (fun _ => none) = two none none := by
    funext t
    cases t <;> rfl
  have h0 : Reaches Undisturbed .initial (fun _ => none) (two none none) fun _ => none :=
    ⟨fun _ _ => none, .initial (hnone ▸ rfl), rfl⟩
  have h1 : Reaches Undisturbed _ _ (two none _) _ :=
    h0.start (t := false) connectCall rfl trivial rfl rfl
  have h2 : Reaches Undisturbed _ _ (two none _) _ := h1.lockG (t := false) rfl rfl trivial rfl rfl
  have h3 : Reaches Undisturbed _ _ (two none _) _ :=
    h2.act (t := false) (.setNetwork ⟨0, 0⟩) () rfl rfl (by simp [Undisturbed, Reopens]) rfl rfl
  have h4 : Reaches Undisturbed _ _ (two none _) _ := h3.unlock (t := false) rfl trivial rfl rfl
  have h5 : Reaches Undisturbed _ _ (two none _) _ :=
    h4.act (t := false) (.openSocket _ _) (3 : ℤ) rfl ⟨⟨3, true⟩, rfl, rfl, rfl⟩
      (by simp [Undisturbed]) rfl rfl
  have h6 : Reaches Undisturbed _ _ (two none none) _ := h5.finish (t := false) rfl trivial rfl rfl
  have h7 : Reaches Undisturbed _ _ (two _ none) _ :=
    h6.start (t := true) (.request (resetParts finish) true 3) rfl trivial rfl rfl
  have h8 : Reaches Undisturbed _ _ (two _ none) _ := h7.lockG (t := true) rfl rfl trivial rfl rfl
  have h9 : Reaches Undisturbed _ _ (two _ none) _ :=
    h8.act (t := true) .network (⟨0, 0⟩ : PlcNetworkAddress) rfl ⟨rfl, rfl⟩
      (by simp [Undisturbed, Reopens]) rfl rfl
  have h10 : Reaches Undisturbed _ _ (two _ none) _ :=
    h9.act (t := true) .malloc true rfl rfl (by simp [Undisturbed, Reopens]) rfl rfl
  have h11 : Reaches Undisturbed _ _ (two _ none) _ := h10.unlock (t := true) rfl trivial rfl rfl
  have h12 : Reaches Undisturbed _ _ (two _ none) _ := h11.lockG (t := true) rfl rfl trivial rfl rfl
  have h13 : Reaches Undisturbed _ _ (two _ none) _ :=
    h12.act (t := true) (.getOrCreate 3) (some 0) rfl ⟨true, rfl, rfl⟩
      (by simp [Undisturbed, Reopens]) rfl rfl
  have h14 : Reaches Undisturbed _ _ (two _ none) _ := h13.unlock (t := true) rfl trivial rfl rfl
  have h15 : Reaches Undisturbed _ _ (two _ none) _ := h14.lockTx rfl rfl trivial rfl rfl
  have h16 : Reaches Undisturbed _ _ (two _ none) _ :=
    h15.act (t := true) (.config 3) (0 : ℤ) rfl rfl (by simp [Undisturbed, Reopens]) rfl rfl
  refine ⟨_, _, _, _, h16, ?_, rfl, rfl, rfl, rfl, rfl⟩
  refine Sends.bind (Sends.bind (Sends.bind (Sends.ret_bind (Sends.ofOption rfl ?_)) _) _) _
  exact ((sends_try (by decide)).retry 0).bind _

/-- A transaction that has its mutex, with its connection still open. -/
theorem stays_on_connection_reset : ∃ x : Watched Bool,
    x.state.owner (.tx 0) = some true ∧ StaysOnConnection .binary x := by
  obtain ⟨finish, -⟩ := mcRemoteReset_parts (show (0 : ℤ) < 3 by decide)
  obtain ⟨sh, ow, p, seen, ⟨atLock, hx, -⟩, -, -, -, -, howner, -⟩ :=
    transaction_under_way finish
  exact ⟨_, howner, stays_on_connection .binary hx⟩

/-- The connection is closed and descriptor 3 opened again in the middle of the transaction, which
goes on and sends its frame on the new connection. -/
theorem leaves_connection : ∃ x : Watched Bool,
    (watched .binary Bool fun _ _ => True).Reachable x ∧ ¬ StaysOnConnection .binary x := by
  obtain ⟨finish, -⟩ := mcRemoteReset_parts (show (0 : ℤ) < 3 by decide)
  obtain ⟨sh, ow, p, seen, h, ⟨bytes, next, rfl⟩, hconnection, hopened, hfree, -, hseen⟩ :=
    transaction_under_way finish
  have h0 : Reaches (fun _ _ => True) sh ow (two _ none) seen := h.weaken
  have h1 : Reaches _ _ _ (two _ _) _ :=
    h0.start (t := false) (.disconnect 3) rfl trivial rfl rfl
  have h2 : Reaches _ _ _ (two _ _) _ := h1.lockG (t := false) rfl hfree trivial rfl rfl
  have h3 : Reaches _ _ _ (two _ _) _ :=
    h2.act (t := false) (.closeSocket 3) () rfl rfl trivial rfl rfl
  have h4 : Reaches _ _ _ (two _ _) _ := h3.unlock (t := false) rfl trivial rfl rfl
  have h5 : Reaches _ _ _ (two _ none) _ := h4.finish (t := false) rfl trivial rfl rfl
  have h6 : Reaches _ _ _ (two _ _) _ := h5.start (t := false) connectCall rfl trivial rfl rfl
  have h7 : Reaches _ _ _ (two _ _) _ := h6.lockG (t := false) rfl (by simp) trivial rfl rfl
  have h8 : Reaches _ _ _ (two _ _) _ :=
    h7.act (t := false) (.setNetwork ⟨0, 0⟩) () rfl rfl trivial rfl rfl
  have h9 : Reaches _ _ _ (two _ _) _ := h8.unlock (t := false) rfl trivial rfl rfl
  have h10 : Reaches _ _ _ (two _ _) _ :=
    h9.act (t := false) (.openSocket _ _) (3 : ℤ) rfl ⟨⟨3, true⟩, rfl, by simp, rfl⟩
      trivial rfl rfl
  have h11 : Reaches _ _ _ (two _ _) _ := h10.lockG (t := true) rfl (by simp) trivial rfl rfl
  obtain ⟨atLock, hx, rfl⟩ := h11
  refine ⟨_, hx, fun hstays => ?_⟩
  have hsent := hstays (.act true (.send 3 bytes) (some 0)) _ true 3
    (.act _ true _ next _ _ rfl ⟨rfl, fun _ => by simp⟩) rfl
  simp [hseen, hopened] at hsent

end Run

end MelsecMc.Locked
