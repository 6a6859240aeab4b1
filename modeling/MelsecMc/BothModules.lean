import MelsecMc.LockedCalls

/-!
# A process that uses both modules

`g_connection_mutex` and the descriptors are common to both modules. Each connect
keeps its own `thread_safe_initialized`, and tests and sets it without a lock. A call
of a connect goes through three steps before it locks anything: it tests the flag,
initialises the mutex, and sets the flag.
-/
namespace MelsecMc.BothModules

open LockProgram (locking unlocking)

/-- The mutexes of the slots of each module, and `g_connection_mutex`. -/
inductive Mutex where
  | tx (m : Module) (i : Fin maxTxConnections)
  | g
  deriving DecidableEq

/-- A mutex as module `m` knows it. -/
def Mutex.of (m : Module) : Locked.Mutex → Mutex
  | .tx i => .tx m i
  | .g => .g

/-- What threads do to shared data: reading and setting `thread_safe_initialized` of a module,
`mc_mutex_init` on `g_connection_mutex`, and what the calls of a module do besides. -/
inductive ProcessAct where
  | initialised (m : Module)
  | mutexInit
  | setInitialised (m : Module)
  | of (m : Module) (a : Locked.SharedAct)

def ProcessReturn : ProcessAct → Type
  | .initialised _ => Bool
  | .mutexInit => ErrorCode
  | .setInitialised _ => Unit
  | .of _ a => Locked.SharedReturn a

/-- The static variables of both modules, the open connections, and the descriptors that were
opened so far. -/
structure Process where
  initialised : Module → Bool
  network : Module → PlcNetworkAddress
  locks : Module → TxLocks
  connection : ℤ → Option ℕ
  opened : ℕ
  returned : Set ℤ

namespace Process

/-- Static storage, and no connection. -/
def initial : Process :=
  ⟨fun _ => false, fun _ => ⟨0, 0⟩, fun _ => .initial, fun _ => none, 0, ∅⟩

/-- What the calls of module `m` see. -/
def view (s : Process) (m : Module) : Locked.Process :=
  ⟨s.network m, s.locks m, s.connection, s.opened⟩

/-- The process when the calls of module `m` see `v`. -/
def withView (s : Process) (m : Module) (v : Locked.Process) : Process where
  initialised := s.initialised
  network := Function.update s.network m v.network
  locks := Function.update s.locks m v.locks
  connection := v.connection
  opened := v.opened
  returned := s.returned ∪ {fd | (v.connection fd).isSome}

/-- What an action returns in the state `s`, and the state behind it. `mc_mutex_init` says whether
`pthread_mutex_init` succeeded. -/
def effect (s : Process) (a : ProcessAct) (x : ProcessReturn a) (s' : Process) : Prop :=
  match a, x with
  | .initialised m, flag => s' = s ∧ flag = s.initialised m
  | .mutexInit, ret => s' = s ∧ (ret = ErrorCode.success ∨ ret = ErrorCode.failed)
  | .setInitialised m, _ => s' = { s with initialised := Function.update s.initialised m true }
  | .of m a, x => ∃ v, (s.view m).effect a x v ∧ s' = s.withView m v

/-- Flags are only set, and descriptors are not forgotten. -/
instance : Preorder Process where
  le s s' := (∀ m, s.initialised m = true → s'.initialised m = true) ∧ s.returned ⊆ s'.returned
  le_refl _ := ⟨fun _ => id, subset_rfl⟩
  le_trans _ _ _ h h' := ⟨fun m => h'.1 m ∘ h.1 m, h.2.trans h'.2⟩

theorem le_of_effect {a : ProcessAct} {s : Process} {x : ProcessReturn a} {s' : Process}
    (h : s.effect a x s') : s ≤ s' := by
  cases a with
  | initialised m =>
    obtain ⟨rfl, -⟩ := h
    exact le_rfl
  | mutexInit =>
    obtain ⟨rfl, -⟩ := h
    exact le_rfl
  | setInitialised m =>
    obtain rfl := h
    refine ⟨fun m' hm => ?_, subset_rfl⟩
    by_cases hm' : m' = m
    · rw [hm']
      exact Function.update_self ..
    · exact (Function.update_of_ne hm' ..).trans hm
  | of m a =>
    obtain ⟨v, -, rfl⟩ := h
    exact ⟨fun _ => id, Set.subset_union_left⟩

end Process

/-- The shared data of both modules. -/
def data : SharedData ProcessReturn Process where
  effect a s x s' := s.effect a x s'
  le_of_effect := Process.le_of_effect

abbrev Program := LockProgram Mutex ProcessAct ProcessReturn

/-- One action. -/
def perform (a : ProcessAct) : Program (ProcessReturn a) := .acting a

/-- A program of module `m` in the process. -/
def lift {α : Type} (m : Module) (p : Locked.Program α) : Program α :=
  p.relabel (Mutex.of m) (.of m) fun _ => id

/-- `mc_thread_safe_init`. -/
def mcThreadSafeInit : Program ErrorCode := perform .mutexInit

/-- The initialisation in a connect, `false` when it fails. -/
def ensureInitialised (m : Module) : Program Bool := do
  let thread_safe_initialized : Bool ← perform (.initialised m)
  if thread_safe_initialized then return true
  else
    let ret ← mcThreadSafeInit
    if ret ≠ .success then return false
    else
      let _ ← perform (.setInitialised m)
      return true

/-- The body of both connects, up to what they make of the descriptor. -/
def connectWith (m : Module) (result : ℤ → ℤ) (ip_addr : Option CString) (port : ℤ)
    (numbers : PlcNetworkAddress) : Program ℤ :=
  if ip_addr.isNone ∨ port ≤ 0 then return -1
  else do
    let ok ← ensureInitialised m
    if ok then
      locking .g
      let _ ← perform (.of m (.setNetwork numbers))
      unlocking .g
      let fd : ℤ ← perform (.of m (.openSocket ip_addr port))
      return result fd
    else return -1

/-- `mc_connect`. -/
def mcConnect := connectWith .binary fun fd => if fd ≤ 0 then -1 else fd

/-- `mc_ascii_connect`. -/
def mcAsciiConnect := connectWith .ascii id

/-- `mc_connect` or `mc_ascii_connect`. -/
def connect : Module → Option CString → ℤ → PlcNetworkAddress → Program ℤ
  | .binary => mcConnect
  | .ascii => mcAsciiConnect

open Locked (PublicCall Returned)

/-- A call of a public function of module `m`. -/
def program (m : Module) : PublicCall → Program Returned
  | .connect ip_addr port numbers => do
    let fd ← connect m ip_addr port numbers
    return .descriptor fd
  | .disconnect fd => lift m (PublicCall.program m (.disconnect fd))
  | .request parts locks fd => lift m (PublicCall.program m (.request parts locks fd))

/-- The descriptor that a call is made on. -/
def descriptor : PublicCall → Option ℤ
  | .connect _ _ _ => none
  | .disconnect fd => some fd
  | .request _ _ fd => some fd

/-- The calls that a thread may make: connects, and others on descriptors that connects opened. -/
def calls (s : Process) : Set (Program Returned) :=
  {p | ∃ m c, p = program m c ∧ ∀ fd, descriptor c = some fd → fd ∈ s.returned}

section Stages

/-- Testing and setting a flag, and initialising the mutex. -/
def initialisation : Set ProcessAct := {a | ∀ m b, a ≠ .of m b}

theorem of_notMem (m : Module) (a : Locked.SharedAct) : .of m a ∉ initialisation :=
  fun h => h m a rfl

theorem exists_of {a : ProcessAct} (h : a ∉ initialisation) : ∃ m b, a = .of m b := by
  by_contra hn
  exact h fun m b hab => hn ⟨m, b, hab⟩

/-- The program is past the initialisation. -/
def Past (p : Program Returned) : Prop := p.Avoids initialisation

/-- The flag is about to be set. -/
def AtStore (p : Program Returned) : Prop :=
  ∃ m next, p = .act (.setInitialised m) next ∧ Past (next ())

/-- The mutex is about to be initialised. -/
def AtInit (p : Program Returned) : Prop :=
  ∃ next, p = .act .mutexInit next ∧ AtStore (next ErrorCode.success) ∧
    Past (next ErrorCode.failed)

/-- The flag is about to be tested. -/
def AtCheck (p : Program Returned) : Prop :=
  ∃ m next, p = .act (.initialised m) next ∧ Past (next true) ∧ AtInit (next false)

theorem past_lift (m : Module) (p : Locked.Program Returned) : Past (lift m p) :=
  LockProgram.avoids_relabel (of_notMem m) p

/-- With the flag set, a connect does what it does in a process of one module. -/
theorem connect_eq (m : Module) {ip_addr : Option CString} {port : ℤ} (hip : ip_addr.isSome)
    (hport : 0 < port) (numbers : PlcNetworkAddress) :
    ∃ next, program m (.connect ip_addr port numbers) = .act (.initialised m) next ∧
      next true = lift m (PublicCall.program m (.connect ip_addr port numbers)) ∧
      AtInit (next false) := by
  have hguard : ¬ (ip_addr.isNone ∨ port ≤ 0) := by
    rintro (h | h)
    · simp [Option.isNone_iff_eq_none.mp h] at hip
    · omega
  cases m with
  | binary =>
    simp only [program, connect, mcConnect, connectWith, PublicCall.program, Locked.connect,
      Locked.mcConnect, Locked.connectWith, if_neg hguard]
    exact ⟨_, rfl, rfl, _, rfl,
      ⟨.binary, _, rfl, of_notMem _ _, fun _ => ⟨of_notMem _ _, fun _ => trivial⟩⟩, trivial⟩
  | ascii =>
    simp only [program, connect, mcAsciiConnect, connectWith, PublicCall.program, Locked.connect,
      Locked.mcAsciiConnect, Locked.connectWith, if_neg hguard]
    exact ⟨_, rfl, rfl, _, rfl,
      ⟨.ascii, _, rfl, of_notMem _ _, fun _ => ⟨of_notMem _ _, fun _ => trivial⟩⟩, trivial⟩

theorem program_stage (m : Module) (c : PublicCall) :
    (∃ x, program m c = .ret x) ∨ AtCheck (program m c) ∨
      Past (program m c) ∧ (descriptor c).isSome := by
  cases c with
  | connect ip_addr port numbers =>
    by_cases hguard : ip_addr.isSome ∧ 0 < port
    · obtain ⟨next, hprogram, htrue, hfalse⟩ := connect_eq m hguard.1 hguard.2 numbers
      exact .inr (.inl ⟨m, next, hprogram, htrue ▸ past_lift m _, hfalse⟩)
    · have hrefused : ip_addr.isNone ∨ port ≤ 0 := by
        by_contra hn
        refine hguard ⟨?_, by omega⟩
        cases ip_addr with
        | none => exact absurd (.inl rfl) hn
        | some ip => rfl
      left
      cases m with
      | binary =>
        simp only [program, connect, mcConnect, connectWith, if_pos hrefused]
        exact ⟨_, rfl⟩
      | ascii =>
        simp only [program, connect, mcAsciiConnect, connectWith, if_pos hrefused]
        exact ⟨_, rfl⟩
  | disconnect fd => exact .inr (.inr ⟨past_lift m _, rfl⟩)
  | request parts locks fd => exact .inr (.inr ⟨past_lift m _, rfl⟩)

theorem calls_stage {s : Process} {p : Program Returned} (hp : p ∈ calls s) :
    Past p ∨ AtCheck p := by
  obtain ⟨m, c, rfl, -⟩ := hp
  rcases program_stage m c with ⟨x, hx⟩ | hcheck | ⟨hpast, -⟩
  · rw [hx]
    exact .inl trivial
  · exact .inr hcheck
  · exact .inl hpast

/-- Before any connection is open, only connects can be made. -/
theorem calls_initial {p : Program Returned} (hp : p ∈ calls .initial) :
    (∃ x, p = .ret x) ∨ AtCheck p := by
  obtain ⟨m, c, rfl, hc⟩ := hp
  rcases program_stage m c with hret | hcheck | ⟨-, hsome⟩
  · exact .inl hret
  · exact .inr hcheck
  · obtain ⟨fd, hfd⟩ := Option.isSome_iff_exists.mp hsome
    exact absurd (hc fd hfd) (Set.notMem_empty fd)

theorem AtCheck.not_atInit {p : Program Returned} (h : AtCheck p) : ¬ AtInit p := by
  obtain ⟨m, next, rfl, -⟩ := h
  rintro ⟨next', heq, -⟩
  cases heq

/-- What is left of any call is in one of the four stages. -/
def Staged (p : Program Returned) : Prop := Past p ∨ AtCheck p ∨ AtInit p ∨ AtStore p

/-- Only the first stages begin with an action. -/
theorem Staged.past {p : Program Returned} (h : Staged p) (hact : ∀ a next, p ≠ .act a next) :
    Past p := by
  rcases h with hpast | ⟨m, next, rfl, -⟩ | ⟨next, rfl, -⟩ | ⟨m, next, rfl, -⟩
  · exact hpast
  · exact absurd rfl (hact _ _)
  · exact absurd rfl (hact _ _)
  · exact absurd rfl (hact _ _)

theorem Past.not_atStore {p : Program Returned} (h : Past p) : ¬ AtStore p := by
  rintro ⟨m, next, rfl, -⟩
  exact h.1 fun m' b => nofun

theorem AtCheck.not_atStore {p : Program Returned} (h : AtCheck p) : ¬ AtStore p := by
  obtain ⟨m, next, rfl, -⟩ := h
  rintro ⟨m', next', heq, -⟩
  cases heq

theorem AtInit.not_atStore {p : Program Returned} (h : AtInit p) : ¬ AtStore p := by
  obtain ⟨next, rfl, -⟩ := h
  rintro ⟨m, next', heq, -⟩
  cases heq

theorem AtInit.not_past {p : Program Returned} (h : AtInit p) : ¬ Past p := by
  obtain ⟨next, rfl, -⟩ := h
  exact fun hpast => hpast.1 fun m b => nofun

theorem AtCheck.not_past {p : Program Returned} (h : AtCheck p) : ¬ Past p := by
  obtain ⟨m, next, rfl, -⟩ := h
  exact fun hpast => hpast.1 fun m' b => nofun

end Stages

/-- The threads, with the calls they are in. -/
abbrev ProcessState (T : Type) := LockState T Mutex ProcessAct ProcessReturn Returned Process

abbrev ProcessEvent (T : Type) := LockEvent T Mutex ProcessAct ProcessReturn

/-- A state, and the events that led to it, the latest first. -/
structure Recorded (T : Type) where
  state : ProcessState T
  history : List (ProcessEvent T)

/-- Threads that make public calls of both modules, as far as the steps are allowed. -/
def recorded (T : Type) [DecidableEq T] (allow : Recorded T → ProcessEvent T → Prop) :
    TransitionSystem (Recorded T) where
  init x := x.state = ⟨.initial, fun _ => none, fun _ => none⟩ ∧ x.history = []
  step x y := ∃ e, LockStep data (calls x.state.shared) x.state e y.state ∧ allow x e ∧
    y.history = e :: x.history

section Steps

variable {T : Type}

/-- `mc_mutex_init` is applied to `g_connection_mutex`. -/
def isInit : ProcessEvent T → Bool
  | .act _ .mutexInit _ => true
  | _ => false

/-- What a step of thread `t` does to the stage of its call: it enters or leaves the call, it works
behind the initialisation, or it takes one of the three steps of the initialisation. -/
inductive StageStep (s : ProcessState T) (t : T) :
    ProcessEvent T → Option (Program Returned) → Process → Prop where
  | enter (p : Program Returned) (hidle : s.program t = none) (hp : p ∈ calls s.shared) :
    StageStep s t (.start t) (some p) s.shared
  | leave (a : Returned) (hp : s.program t = some (.ret a)) :
    StageStep s t (.finish t) none s.shared
  | work (e : ProcessEvent T) (p q : Program Returned) (shared : Process)
    (hp : s.program t = some p) (hpast : Past p) (hmore : ∀ a, p ≠ .ret a) (hq : Past q)
    (he : isInit e = false) (hflags : shared.initialised = s.shared.initialised) :
    StageStep s t e (some q) shared
  | check (m : Module) (p q : Program Returned) (hp : s.program t = some p) (hcheck : AtCheck p)
    (hq : if s.shared.initialised m then Past q else AtInit q) :
    StageStep s t (.act t (.initialised m) (s.shared.initialised m)) (some q) s.shared
  | init (ret : ErrorCode) (p q : Program Returned) (hp : s.program t = some p) (hinit : AtInit p)
    (hq : ret = .success ∧ AtStore q ∨ ret = .failed ∧ Past q) :
    StageStep s t (.act t .mutexInit ret) (some q) s.shared
  | store (m : Module) (p q : Program Returned) (hp : s.program t = some p) (hstore : AtStore p)
    (hq : Past q) :
    StageStep s t (.act t (.setInitialised m) ()) (some q)
      { s.shared with initialised := Function.update s.shared.initialised m true }

variable [DecidableEq T]

/-- Every step is one of these. -/
theorem stage_step {s s' : ProcessState T} (hstage : ∀ t p, s.program t = some p → Staged p)
    (hs : LockStep data (calls s.shared) s e s') :
    ∃ t q, s'.program = Function.update s.program t q ∧ StageStep s t e q s'.shared := by
  cases hs with
  | start t p hidle hp => exact ⟨t, some p, rfl, .enter p hidle hp⟩
  | lock t l next hp hfree =>
    have hpast : Past (.lock l next) := (hstage t _ hp).past nofun
    exact ⟨t, some next, rfl, .work _ _ _ _ hp hpast nofun hpast rfl rfl⟩
  | unlock t l next hp =>
    have hpast : Past (.unlock l next) := (hstage t _ hp).past nofun
    exact ⟨t, some next, rfl, .work _ _ _ _ hp hpast nofun hpast rfl rfl⟩
  | act t a next answer shared hp heffect =>
    refine ⟨t, some (next answer), rfl, ?_⟩
    rcases hstage t _ hp with h | h | h | h
    · obtain ⟨m, b, rfl⟩ := exists_of h.1
      obtain ⟨v, -, rfl⟩ := heffect
      exact .work _ _ _ _ hp h (by simp) (h.2 answer) rfl rfl
    · obtain ⟨m, next', heq, htrue, hfalse⟩ := id h
      cases heq
      obtain ⟨rfl, rfl⟩ := heffect
      refine .check m _ _ hp h ?_
      split
      · rename_i hflag
        rw [hflag]
        exact htrue
      · rename_i hflag
        rw [Bool.eq_false_iff.mpr hflag]
        exact hfalse
    · obtain ⟨next', heq, hstore, hpast⟩ := id h
      cases heq
      obtain ⟨rfl, rfl | rfl⟩ := heffect
      · exact .init _ _ _ hp h (.inl ⟨rfl, hstore⟩)
      · exact .init _ _ _ hp h (.inr ⟨rfl, hpast⟩)
    · obtain ⟨m, next', heq, hnext⟩ := id h
      cases heq
      obtain rfl := heffect
      exact .store m _ _ hp h hnext
  | finish t a hp => exact ⟨t, none, rfl, .leave a hp⟩

/-- Thread `t` goes on with `q`, the others stay where they are. -/
theorem update_cases {program : T → Option (Program Returned)} {t u : T}
    {q : Option (Program Returned)} {p : Program Returned}
    (h : Function.update program t q u = some p) :
    (u = t ∧ q = some p) ∨ (u ≠ t ∧ program u = some p) := by
  by_cases hu : u = t
  · subst hu
    exact .inl ⟨rfl, by simpa using h⟩
  · exact .inr ⟨hu, by simpa [Function.update_of_ne hu] using h⟩

/-- What holds of every program and of the one that thread `t` goes on with. -/
theorem forall_update {P : Program Returned → Prop} {program : T → Option (Program Returned)}
    {t : T} {q : Option (Program Returned)} (h : ∀ u p, program u = some p → P p)
    (hq : ∀ p, q = some p → P p) (u : T) (p : Program Returned)
    (hp : Function.update program t q u = some p) : P p := by
  rcases update_cases hp with ⟨-, hpq⟩ | ⟨-, hpu⟩
  · exact hq p hpq
  · exact h u p hpu

end Steps

end MelsecMc.BothModules
