import MelsecMc.BothModules

/-!
# Initialising the common mutex

The mutex is initialised once while no connect finds its flag unset except the first
one: not when the other module has initialised the mutex, not between the test and
the store of another thread, and not after a failed initialisation. In any other state
an unset flag leads to a second initialisation.
-/
namespace MelsecMc.BothModules

open Locked (Returned)

section Runs

variable {T : Type}

/-- How often it was. -/
def inits (history : List (ProcessEvent T)) : ℕ := history.countP isInit

/-- `g_connection_mutex` was initialised at most once, and not after it was locked. -/
def InitialisedOnce (history : List (ProcessEvent T)) : Prop :=
  inits history ≤ 1 ∧
    ∀ later e earlier, history = later ++ e :: earlier → isInit e = true →
      ∀ t, .lock t .g ∉ earlier

/-- The thread is about to initialise the mutex or to set the flag. -/
def Initialising (p : Program Returned) : Prop :=
  (∃ next, p = .act .mutexInit next) ∨ ∃ m next, p = .act (.setInitialised m) next

theorem Past.not_initialising {p : Program Returned} (h : Past p) : ¬ Initialising p := by
  rintro (⟨next, rfl⟩ | ⟨m, next, rfl⟩)
  · exact h.1 fun m b => nofun
  · exact h.1 fun m b => nofun

theorem AtCheck.not_initialising {p : Program Returned} (h : AtCheck p) : ¬ Initialising p := by
  obtain ⟨m, next, rfl, -⟩ := h
  rintro (⟨next', heq⟩ | ⟨m', next', heq⟩)
  · cases heq
  · cases heq

/-- A connect that finds the flag of its module unset finds both unset, no other thread between
its test and its store, and no initialisation that has failed. -/
def ChecksAlone (x : Recorded T) (e : ProcessEvent T) : Prop :=
  ∀ t m, e = .act t (.initialised m) false →
    (∀ m', x.state.shared.initialised m' = false) ∧
      (∀ u p, x.state.program u = some p → ¬ Initialising p) ∧
      ∀ u, .act u .mutexInit ErrorCode.failed ∉ x.history

theorem inits_cons (e : ProcessEvent T) (history : List (ProcessEvent T)) :
    inits (e :: history) = inits history + if isInit e then 1 else 0 :=
  List.countP_cons ..

theorem inits_eq_zero {history : List (ProcessEvent T)} (h : ∀ e ∈ history, isInit e = false) :
    inits history = 0 :=
  List.countP_eq_zero.mpr fun e he => by simp [h e he]

theorem InitialisedOnce.cons {history : List (ProcessEvent T)} (h : InitialisedOnce history)
    {e : ProcessEvent T} (he : isInit e = false) : InitialisedOnce (e :: history) := by
  refine ⟨by simpa [inits_cons, he] using h.1, ?_⟩
  intro later e' earlier hsplit he'
  cases later with
  | nil =>
    obtain ⟨rfl, rfl⟩ := List.cons.inj hsplit
    simp [he] at he'
  | cons a later => exact h.2 later e' earlier (List.cons.inj hsplit).2 he'

/-- The first initialisation, when nobody has locked the mutex. -/
theorem initialisedOnce_first {history : List (ProcessEvent T)} (e : ProcessEvent T)
    (hnone : ∀ e ∈ history, isInit e = false) (hunlocked : ∀ t, .lock t .g ∉ history) :
    InitialisedOnce (e :: history) := by
  refine ⟨?_, fun later e' earlier hsplit he' => ?_⟩
  · rw [inits_cons, inits_eq_zero hnone]
    split <;> omega
  · cases later with
    | nil =>
      obtain ⟨-, rfl⟩ := List.cons.inj hsplit
      exact hunlocked
    | cons a later =>
      have hmem : e' ∈ history := (List.cons.inj hsplit).2 ▸ by simp
      simp [hnone e' hmem] at he'

variable {x y : Recorded T} {e : ProcessEvent T}

/-- Nobody has initialised the mutex, and at most one thread is about to. -/
structure Early (x : Recorded T) : Prop where
  shared : x.state.shared = .initial
  none : ∀ e ∈ x.history, isInit e = false
  unlocked : ∀ t, .lock t .g ∉ x.history
  stage : ∀ t p, x.state.program t = some p → (∃ a, p = .ret a) ∨ AtCheck p ∨ AtInit p
  alone : ∀ t u p q, x.state.program t = some p → x.state.program u = some q →
    AtInit p → AtInit q → t = u

/-- The mutex was initialised, nobody is about to do it again, and a flag is set, or about to be,
or will never be. -/
structure Late (x : Recorded T) : Prop where
  once : InitialisedOnce x.history
  stage : ∀ t p, x.state.program t = some p → Past p ∨ AtCheck p ∨ AtStore p
  known : (∃ m, x.state.shared.initialised m = true) ∨
    (∃ t p, x.state.program t = some p ∧ AtStore p) ∨
    ∃ t, .act t .mutexInit ErrorCode.failed ∈ x.history

theorem Early.staged (h : Early x) (t : T) (p : Program Returned)
    (hp : x.state.program t = some p) : Staged p := by
  rcases h.stage t p hp with ⟨a, rfl⟩ | hcheck | hinit
  · exact .inl trivial
  · exact .inr (.inl hcheck)
  · exact .inr (.inr (.inl hinit))

theorem Late.staged (h : Late x) (t : T) (p : Program Returned)
    (hp : x.state.program t = some p) : Staged p := by
  rcases h.stage t p hp with hpast | hcheck | hstore
  · exact .inl hpast
  · exact .inr (.inl hcheck)
  · exact .inr (.inr (.inr hstore))

/-- A flag that is found unset is not allowed any more. -/
theorem Late.not_checksAlone (h : Late x) {t : T} {m : Module} :
    ¬ ChecksAlone x (.act t (.initialised m) false) := by
  intro hallow
  obtain ⟨hflags, hprograms, hfailed⟩ := hallow t m rfl
  rcases h.known with ⟨m', hm⟩ | ⟨u, p, hp, m', next, rfl, -⟩ | ⟨u, hu⟩
  · simp [hflags m'] at hm
  · exact hprograms u _ hp (.inr ⟨m', next, rfl⟩)
  · exact hfailed u hu

variable [DecidableEq T]

/-- A step of one thread that does not initialise the mutex, and is not before its store unless a
flag is set then. -/
theorem Late.next (h : Late x) {t : T} {q : Option (Program Returned)}
    (hhistory : y.history = e :: x.history) (he : isInit e = false)
    (hprogram : y.state.program = Function.update x.state.program t q)
    (hflags : ∀ m, x.state.shared.initialised m = true → y.state.shared.initialised m = true)
    (hq : ∀ p, q = some p → Past p ∨ AtCheck p ∨ AtStore p)
    (hstore : (∃ m, y.state.shared.initialised m = true) ∨
      ∀ p, x.state.program t = some p → ¬ AtStore p) : Late y where
  once := hhistory ▸ h.once.cons he
  stage := hprogram ▸ forall_update h.stage hq
  known := by
    rcases h.known with ⟨m, hm⟩ | ⟨u, p, hp, hat⟩ | ⟨u, hu⟩
    · exact .inl ⟨m, hflags m hm⟩
    · by_cases hu : u = t
      · subst hu
        exact .inl (hstore.resolve_right fun hn => hn p hp hat)
      · refine .inr (.inl ⟨u, p, ?_, hat⟩)
        rw [hprogram, Function.update_of_ne hu]
        exact hp
    · exact .inr (.inr ⟨u, hhistory ▸ List.mem_cons_of_mem e hu⟩)

/-- After the initialisation there is no other one. -/
theorem Late.step (h : Late x) (hs : LockStep data (calls x.state.shared) x.state e y.state)
    (hallow : ChecksAlone x e) (hhistory : y.history = e :: x.history) : Late y := by
  obtain ⟨t, q, hprogram, hstage⟩ := stage_step h.staged hs
  generalize hshared : y.state.shared = shared at hstage
  cases hstage with
  | enter p hidle hp =>
    refine h.next hhistory rfl hprogram (fun m hm => by rwa [hshared]) (fun q hq => ?_)
      (.inr (by simp [hidle]))
    obtain rfl := Option.some.inj hq
    exact (calls_stage hp).imp_right .inl
  | leave a hp =>
    refine h.next hhistory rfl hprogram (fun m hm => by rwa [hshared]) (fun q hq => by cases hq)
      (.inr fun p hp' => ?_)
    obtain rfl := Option.some.inj (hp.symm.trans hp')
    exact Past.not_atStore trivial
  | work _ p q _ hp hpast hmore hq he hflags =>
    refine h.next hhistory he hprogram (fun m hm => by rwa [hshared, hflags])
      (fun q hq' => ?_) (.inr fun p hp' => ?_)
    · obtain rfl := Option.some.inj hq'
      exact .inl hq
    · obtain rfl := Option.some.inj (hp.symm.trans hp')
      exact hpast.not_atStore
  | check m p q hp hcheck hq =>
    cases hflag : x.state.shared.initialised m with
    | false => exact absurd (hflag ▸ hallow) h.not_checksAlone
    | true =>
      rw [if_pos hflag] at hq
      refine h.next hhistory rfl hprogram (fun m hm => by rwa [hshared]) (fun q hq' => ?_)
        (.inr fun p hp' => ?_)
      · obtain rfl := Option.some.inj hq'
        exact .inl hq
      · obtain rfl := Option.some.inj (hp.symm.trans hp')
        exact hcheck.not_atStore
  | init ret p q hp hinit hq =>
    rcases h.stage t p hp with hpast | hcheck | hstore
    · exact absurd hpast hinit.not_past
    · exact absurd hinit hcheck.not_atInit
    · exact absurd hstore hinit.not_atStore
  | store m p q hp hstore hq =>
    have hset : y.state.shared.initialised m = true := by
      rw [hshared]
      exact Function.update_self ..
    refine h.next hhistory rfl hprogram (fun m' hm => ?_) (fun q hq' => ?_) (.inl ⟨m, hset⟩)
    · rw [hshared]
      by_cases hm' : m' = m
      · rw [hm']
        exact Function.update_self ..
      · exact (Function.update_of_ne hm' ..).trans hm
    · obtain rfl := Option.some.inj hq'
      exact .inl hq

/-- A step of one thread that neither initialises nor locks the mutex, and comes before the
initialisation only if nobody else is there. -/
theorem Early.next (h : Early x) {t : T} {q : Option (Program Returned)}
    (hhistory : y.history = e :: x.history) (he : isInit e = false) (hlock : ∀ u, e ≠ .lock u .g)
    (hprogram : y.state.program = Function.update x.state.program t q)
    (hshared : y.state.shared = x.state.shared)
    (hq : ∀ p, q = some p → (∃ a, p = .ret a) ∨ AtCheck p ∨ AtInit p)
    (halone : ∀ p, q = some p → AtInit p →
      ∀ u r, x.state.program u = some r → ¬ AtInit r) : Early y where
  shared := hshared.trans h.shared
  none e' he' := by
    rw [hhistory] at he'
    rcases List.mem_cons.mp he' with rfl | he'
    · exact he
    · exact h.none e' he'
  unlocked u hu := by
    rw [hhistory] at hu
    rcases List.mem_cons.mp hu with hu | hu
    · exact hlock u hu.symm
    · exact h.unlocked u hu
  stage := hprogram ▸ forall_update h.stage hq
  alone u v p r hp hr hpInit hrInit := by
    rw [hprogram] at hp hr
    rcases update_cases hp with ⟨hu, hpq⟩ | ⟨-, hpx⟩
    · rcases update_cases hr with ⟨hv, -⟩ | ⟨-, hrx⟩
      · rw [hu, hv]
      · exact absurd hrInit (halone p hpq hpInit v r hrx)
    · rcases update_cases hr with ⟨-, hrq⟩ | ⟨-, hrx⟩
      · exact absurd hpInit (halone r hrq hrInit u p hpx)
      · exact h.alone u v p r hpx hrx hpInit hrInit

/-- The first initialisation ends the time before it. -/
theorem Early.step (h : Early x) (hs : LockStep data (calls x.state.shared) x.state e y.state)
    (hallow : ChecksAlone x e) (hhistory : y.history = e :: x.history) : Early y ∨ Late y := by
  obtain ⟨t, q, hprogram, hstage⟩ := stage_step h.staged hs
  generalize hshared : y.state.shared = shared at hstage
  cases hstage with
  | enter p hidle hp =>
    rw [h.shared] at hp
    refine .inl (h.next hhistory rfl (by simp) hprogram hshared (fun q hq => ?_) fun q hq hat => ?_)
    · obtain rfl := Option.some.inj hq
      exact (calls_initial hp).imp_right .inl
    · obtain rfl := Option.some.inj hq
      rcases calls_initial hp with ⟨a, rfl⟩ | hcheck
      · exact absurd trivial hat.not_past
      · exact absurd hat hcheck.not_atInit
  | leave a hp =>
    exact .inl (h.next hhistory rfl (by simp) hprogram hshared (fun q hq => by cases hq)
      fun q hq => by cases hq)
  | work _ p q _ hp hpast hmore hq he hflags =>
    rcases h.stage t p hp with ⟨a, rfl⟩ | hcheck | hinit
    · exact absurd rfl (hmore a)
    · exact absurd hpast hcheck.not_past
    · exact absurd hpast hinit.not_past
  | check m p q hp hcheck hq =>
    have hflag : x.state.shared.initialised m = false := by rw [h.shared]; rfl
    rw [hflag] at hallow hhistory hq
    refine .inl (h.next hhistory rfl (by simp) hprogram hshared (fun q hq' => ?_)
      fun q hq' _ u r hr hat => ?_)
    · obtain rfl := Option.some.inj hq'
      exact .inr (.inr hq)
    · obtain ⟨next, rfl, -⟩ := hat
      exact (hallow t m rfl).2.1 u _ hr (.inl ⟨next, rfl⟩)
  | init ret p q hp hinit hq =>
    refine .inr ⟨hhistory ▸ initialisedOnce_first _ h.none h.unlocked, fun u r hr => ?_, ?_⟩
    · rw [hprogram] at hr
      rcases update_cases hr with ⟨-, hrq⟩ | ⟨hne, hrx⟩
      · obtain rfl := Option.some.inj hrq
        rcases hq with ⟨-, hstore⟩ | ⟨-, hpast⟩
        · exact .inr (.inr hstore)
        · exact .inl hpast
      · rcases h.stage u r hrx with ⟨a, rfl⟩ | hcheck | hat
        · exact .inl trivial
        · exact .inr (.inl hcheck)
        · exact absurd (h.alone u t r p hrx hp hat hinit) hne
    · rcases hq with ⟨rfl, hstore⟩ | ⟨rfl, hpast⟩
      · refine .inr (.inl ⟨t, q, ?_, hstore⟩)
        rw [hprogram, Function.update_self]
      · exact .inr (.inr ⟨t, hhistory ▸ List.mem_cons_self⟩)
  | store m p q hp hstore hq =>
    rcases h.stage t p hp with ⟨a, rfl⟩ | hcheck | hinit
    · exact absurd hstore (Past.not_atStore trivial)
    · exact absurd hstore hcheck.not_atStore
    · exact absurd hstore hinit.not_atStore

/-- What every run keeps, also one with other steps: a flag that is set, or about to be, comes from
an initialisation. -/
structure Counted (x : Recorded T) : Prop where
  staged : ∀ t p, x.state.program t = some p → Staged p
  flags : ∀ m, x.state.shared.initialised m = true → 1 ≤ inits x.history
  stores : ∀ t p, x.state.program t = some p → AtStore p → 1 ≤ inits x.history

theorem Counted.next (h : Counted x) {t : T} {q : Option (Program Returned)}
    (hhistory : y.history = e :: x.history)
    (hprogram : y.state.program = Function.update x.state.program t q)
    (hflags : ∀ m, y.state.shared.initialised m = true → 1 ≤ inits y.history)
    (hq : ∀ p, q = some p → Staged p ∧ (AtStore p → 1 ≤ inits y.history)) : Counted y where
  staged := hprogram ▸ forall_update h.staged fun p hpq => (hq p hpq).1
  flags := hflags
  stores u p hp hat := by
    rw [hprogram] at hp
    rcases update_cases hp with ⟨-, hpq⟩ | ⟨-, hpx⟩
    · exact (hq p hpq).2 hat
    · have hone := h.stores u p hpx hat
      rw [hhistory, inits_cons]
      omega

theorem Counted.step (h : Counted x) (hs : LockStep data (calls x.state.shared) x.state e y.state)
    (hhistory : y.history = e :: x.history) : Counted y := by
  obtain ⟨t, q, hprogram, hstage⟩ := stage_step h.staged hs
  have hle : inits x.history ≤ inits y.history := by rw [hhistory, inits_cons]; omega
  have hkept : y.state.shared.initialised = x.state.shared.initialised →
      ∀ m, y.state.shared.initialised m = true → 1 ≤ inits y.history :=
    fun hsame m hm => (h.flags m (hsame ▸ hm)).trans hle
  generalize hshared : y.state.shared = shared at hstage
  cases hstage with
  | enter p hidle hp =>
    refine h.next hhistory hprogram (hkept (by rw [hshared])) fun q hq => ?_
    obtain rfl := Option.some.inj hq
    rcases calls_stage hp with hpast | hcheck
    · exact ⟨.inl hpast, fun hat => absurd hat hpast.not_atStore⟩
    · exact ⟨.inr (.inl hcheck), fun hat => absurd hat hcheck.not_atStore⟩
  | leave a hp =>
    exact h.next hhistory hprogram (hkept (by rw [hshared])) fun q hq => by cases hq
  | work _ p q _ hp hpast hmore hq he hflags =>
    refine h.next hhistory hprogram (hkept (by rw [hshared, hflags])) fun q hq' => ?_
    obtain rfl := Option.some.inj hq'
    exact ⟨.inl hq, fun hat => absurd hat hq.not_atStore⟩
  | check m p q hp hcheck hq =>
    refine h.next hhistory hprogram (hkept (by rw [hshared])) fun q hq' => ?_
    obtain rfl := Option.some.inj hq'
    split at hq
    · exact ⟨.inl hq, fun hat => absurd hat hq.not_atStore⟩
    · exact ⟨.inr (.inr (.inl hq)), fun hat => absurd hat hq.not_atStore⟩
  | init ret p q hp hinit hq =>
    have hone : 1 ≤ inits y.history := by
      rw [hhistory, inits_cons]
      exact Nat.le_add_left ..
    refine h.next hhistory hprogram (fun _ _ => hone) fun q hq' => ⟨?_, fun _ => hone⟩
    obtain rfl := Option.some.inj hq'
    rcases hq with ⟨-, hstore⟩ | ⟨-, hpast⟩
    · exact .inr (.inr (.inr hstore))
    · exact .inl hpast
  | store m p q hp hstore hq =>
    refine h.next hhistory hprogram (fun _ _ => (h.stores t p hp hstore).trans hle) fun q hq' => ?_
    obtain rfl := Option.some.inj hq'
    exact ⟨.inl hq, fun hat => absurd hat hq.not_atStore⟩

/-- A connect that finds its flag unset is about to initialise the mutex. -/
theorem Counted.unset (h : Counted x) {t : T} {m : Module} {s : ProcessState T}
    (hs : LockStep data (calls x.state.shared) x.state (.act t (.initialised m) false) s) :
    ∃ p q, x.state.program t = some p ∧ AtCheck p ∧ s.program t = some q ∧ AtInit q ∧
      ∀ u, u ≠ t → s.program u = x.state.program u := by
  cases hs with
  | act _ _ next _ shared hp heffect =>
    rcases h.staged t _ hp with hpast | hcheck | ⟨next', heq, -⟩ | ⟨m', next', heq, -⟩
    · exact absurd (fun m' b => nofun) hpast.1
    · obtain ⟨m', next', heq, -, hfalse⟩ := id hcheck
      cases heq
      exact ⟨_, _, hp, hcheck, LockState.goOn_self, hfalse, fun u hu => LockState.goOn_of_ne hu⟩
    · cases heq
    · cases heq

theorem recorded_counted {allow : Recorded T → ProcessEvent T → Prop}
    (hx : (recorded T allow).Reachable x) : Counted x := by
  refine TransitionSystem.Reachable.invariant (P := Counted) (fun x hinit => ?_)
    (fun x y h hstep => ?_) hx
  · obtain ⟨s, history⟩ := x
    obtain ⟨rfl, rfl⟩ := hinit
    exact ⟨by simp, by simp [Process.initial], by simp⟩
  · obtain ⟨e, hs, -, hhistory⟩ := hstep
    exact h.step hs hhistory

/-- A thread that is about to initialise the mutex can do it next. -/
theorem init_next {t : T} {p : Program Returned} (hp : x.state.program t = some p)
    (hinit : AtInit p) : ∃ y, (recorded T fun _ _ => True).step x y ∧
      inits y.history = inits x.history + 1 ∧
      ∀ u, u ≠ t → y.state.program u = x.state.program u := by
  obtain ⟨next, rfl, -⟩ := hinit
  refine ⟨⟨{ x.state with shared := x.state.shared }.goOn t (next ErrorCode.success),
    .act t .mutexInit ErrorCode.success :: x.history⟩,
    ⟨.act t .mutexInit ErrorCode.success, ?_, trivial, rfl⟩, ?_, ?_⟩
  · have heffect : x.state.shared.effect .mutexInit ErrorCode.success x.state.shared :=
      ⟨rfl, .inl rfl⟩
    exact .act x.state t .mutexInit next ErrorCode.success x.state.shared hp heffect
  · rw [inits_cons]
    rfl
  · exact fun u hu => LockState.goOn_of_ne hu

/-- The condition is not stronger than needed: where a connect finds its flag unset in any other
state, the mutex can be initialised a second time by the threads that are in calls. -/
theorem unset_flag_initialises_again {allow : Recorded T → ProcessEvent T → Prop}
    (hx : (recorded T allow).Reachable x)
    (hs : LockStep data (calls x.state.shared) x.state e y.state)
    (hhistory : y.history = e :: x.history) (hn : ¬ ChecksAlone x e) :
    ∃ z, Relation.ReflTransGen (recorded T fun _ _ => True).step y z ∧ 2 ≤ inits z.history := by
  have h := recorded_counted hx
  have hbad : ∃ t m, e = .act t (.initialised m) false ∧
      (1 ≤ inits x.history ∨ ∃ u p, x.state.program u = some p ∧ AtInit p) := by
    by_contra hgood
    refine hn fun t m he => ⟨fun m' => ?_, fun u p hp hinitialising => ?_, fun u hu => ?_⟩
    · by_contra hset
      exact hgood ⟨t, m, he, .inl (h.flags m' (by simpa using hset))⟩
    · rcases h.staged u p hp with hpast | hcheck | hinit | hstore
      · exact hpast.not_initialising hinitialising
      · exact hcheck.not_initialising hinitialising
      · exact hgood ⟨t, m, he, .inr ⟨u, p, hp, hinit⟩⟩
      · exact hgood ⟨t, m, he, .inl (h.stores u p hp hstore)⟩
    · exact hgood ⟨t, m, he, .inl (List.countP_pos_iff.mpr ⟨_, hu, rfl⟩)⟩
  obtain ⟨t, m, rfl, hbad⟩ := hbad
  have hinits : inits y.history = inits x.history := by rw [hhistory, inits_cons]; rfl
  obtain ⟨p, q, hp, hcheck, hq, hinit, hothers⟩ := h.unset hs
  obtain ⟨z, hz, hzinits, hzothers⟩ := init_next hq hinit
  rcases hbad with hone | ⟨u, r, hr, hrinit⟩
  · exact ⟨z, .single hz, by omega⟩
  · have hne : u ≠ t := by
      rintro rfl
      obtain rfl := Option.some.inj (hp.symm.trans hr)
      exact hcheck.not_atInit hrinit
    have hzr : z.state.program u = some r := by rw [hzothers u hne, hothers u hne, hr]
    obtain ⟨w, hw, hwinits, -⟩ := init_next hzr hrinit
    exact ⟨w, .tail (.single hz) hw, by omega⟩

section Extend

variable {allow : Recorded T → ProcessEvent T → Prop} {t : T}

theorem recorded_next (hx : (recorded T allow).Reachable x) {s : ProcessState T}
    (hs : LockStep data (calls x.state.shared) x.state e s) (hallow : allow x e) :
    (recorded T allow).Reachable ⟨s, e :: x.history⟩ :=
  hx.next ⟨e, hs, hallow, rfl⟩

theorem recorded_connect (hx : (recorded T allow).Reachable x) (m : Module)
    (ip_addr : Option CString) (port : ℤ) (numbers : PlcNetworkAddress)
    (hidle : x.state.program t = none) (hallow : allow x (.start t)) :
    (recorded T allow).Reachable
      ⟨x.state.goOn t (program m (.connect ip_addr port numbers)), .start t :: x.history⟩ :=
  recorded_next hx (.start _ t _ hidle ⟨m, _, rfl, nofun⟩) hallow

theorem recorded_lock (hx : (recorded T allow).Reachable x) (l : Mutex) {next : Program Returned}
    (hp : x.state.program t = some (.lock l next)) (hfree : x.state.owner l = none)
    (hallow : allow x (.lock t l)) : (recorded T allow).Reachable
      ⟨{ x.state with owner := Function.update x.state.owner l (some t) }.goOn t next,
        .lock t l :: x.history⟩ :=
  recorded_next hx (.lock _ t l next hp hfree) hallow

theorem recorded_unlock (hx : (recorded T allow).Reachable x) (l : Mutex)
    {next : Program Returned} (hp : x.state.program t = some (.unlock l next))
    (hallow : allow x (.unlock t l)) : (recorded T allow).Reachable
      ⟨{ x.state with owner := Function.update x.state.owner l none }.goOn t next,
        .unlock t l :: x.history⟩ :=
  recorded_next hx (.unlock _ t l next hp) hallow

theorem recorded_act (hx : (recorded T allow).Reachable x) (a : ProcessAct)
    (answer : ProcessReturn a) {next : ProcessReturn a → Program Returned} {shared : Process}
    (hp : x.state.program t = some (.act a next)) (he : x.state.shared.effect a answer shared)
    (hallow : allow x (.act t a answer)) : (recorded T allow).Reachable
      ⟨{ x.state with shared := shared }.goOn t (next answer), .act t a answer :: x.history⟩ :=
  recorded_next hx (.act _ t a next answer shared hp he) hallow

theorem recorded_finish (hx : (recorded T allow).Reachable x) {r : Returned}
    (hp : x.state.program t = some (.ret r)) (hallow : allow x (.finish t)) :
    (recorded T allow).Reachable
      ⟨{ x.state with program := Function.update x.state.program t none },
        .finish t :: x.history⟩ :=
  recorded_next hx (.finish _ t r hp) hallow

end Extend

/-- In every run of any number of threads that call both modules, in which no connect finds its
flag unset except while both are unset, nobody is between the test and the store, and no
initialisation has failed, `g_connection_mutex` is initialised at most once, and not after it was
locked. -/
theorem mutex_initialised_once (hx : (recorded T ChecksAlone).Reachable x) :
    InitialisedOnce x.history := by
  have hphase : Early x ∨ Late x := by
    refine TransitionSystem.Reachable.invariant (P := fun x => Early x ∨ Late x)
      (fun x hinit => .inl ?_) (fun x y h hstep => ?_) hx
    · obtain ⟨s, history⟩ := x
      obtain ⟨rfl, rfl⟩ := hinit
      exact ⟨rfl, by simp, by simp, by simp, by simp⟩
    · obtain ⟨e, hs, hallow, hhistory⟩ := hstep
      rcases h with h | h
      · exact h.step hs hallow hhistory
      · exact .inr (h.step hs hallow hhistory)
  rcases hphase with h | h
  · have hzero := inits_eq_zero h.none
    refine ⟨by omega, fun later e earlier hsplit he => ?_⟩
    simp [h.none e (hsplit ▸ by simp)] at he
  · exact h.once

end Runs

/-- Two threads connect with the binary module, one behind the other's initialisation. The second
one finds the flag set and locks the mutex. -/
theorem mutex_initialised_once_threads : ∃ x : Recorded Bool,
    inits x.history = 1 ∧ .lock false .g ∈ x.history ∧ InitialisedOnce x.history := by
  have h0 : (recorded Bool ChecksAlone).Reachable
      ⟨⟨.initial, fun _ => none, fun _ => none⟩, []⟩ := .initial ⟨rfl, rfl⟩
  have h1 := recorded_connect (t := true) h0 .binary (some Session.localhost) 5007 ⟨0, 0⟩ rfl nofun
  have h2 := recorded_connect (t := false) h1 .binary (some Session.localhost) 5008 ⟨0, 0⟩ rfl
    nofun
  have h3 := recorded_act (t := true) h2 (.initialised .binary) false rfl ⟨rfl, rfl⟩ (by
    refine fun _ _ _ => ⟨fun _ => rfl, fun u p hp => ?_, by simp⟩
    cases u with
    | true | false =>
      obtain rfl := Option.some.inj hp
      rintro (⟨next, hnext⟩ | ⟨m, next, hnext⟩)
      · cases hnext
      · cases hnext)
  have h4 := recorded_act (t := true) h3 .mutexInit ErrorCode.success rfl ⟨rfl, .inl rfl⟩ nofun
  have h5 := recorded_act (t := true) h4 (.setInitialised .binary) () rfl rfl nofun
  have h6 := recorded_act (t := false) h5 (.initialised .binary) true rfl ⟨rfl, rfl⟩ nofun
  have h7 := recorded_lock (t := false) h6 .g rfl rfl nofun
  exact ⟨_, rfl, List.mem_cons_self, mutex_initialised_once h7⟩

/-- One thread connects with the binary module, which locks the mutex, and then with the ASCII
module, which initialises it again. -/
theorem mutex_initialised_twice : ∃ x : Recorded Unit,
    (recorded Unit fun _ _ => True).Reachable x ∧ ¬ InitialisedOnce x.history ∧
      ∃ later earlier, x.history = later ++ .act () .mutexInit ErrorCode.success :: earlier ∧
        .lock () .g ∈ earlier := by
  have h0 : (recorded Unit fun _ _ => True).Reachable
      ⟨⟨.initial, fun _ => none, fun _ => none⟩, []⟩ := .initial ⟨rfl, rfl⟩
  have h1 := recorded_connect (t := ()) h0 .binary (some Session.localhost) 5007 ⟨0, 0⟩ rfl trivial
  have h2 := recorded_act (t := ()) h1 (.initialised .binary) false rfl ⟨rfl, rfl⟩ trivial
  have h3 := recorded_act (t := ()) h2 .mutexInit ErrorCode.success rfl ⟨rfl, .inl rfl⟩ trivial
  have h4 := recorded_act (t := ()) h3 (.setInitialised .binary) () rfl rfl trivial
  have h5 := recorded_lock (t := ()) h4 .g rfl rfl trivial
  have h6 := recorded_act (t := ()) h5 (.of .binary (.setNetwork ⟨0, 0⟩)) () rfl
    ⟨_, rfl, rfl⟩ trivial
  have h7 := recorded_unlock (t := ()) h6 .g rfl trivial
  have h8 := recorded_act (t := ()) h7 (.of .binary (.openSocket _ _)) (3 : ℤ) rfl
    ⟨_, ⟨⟨3, true⟩, rfl, rfl, rfl⟩, rfl⟩ trivial
  have h9 := recorded_finish (t := ()) h8 rfl trivial
  have h10 := recorded_connect (t := ()) h9 .ascii (some Session.localhost) 5007 ⟨0, 0⟩ rfl trivial
  have h11 := recorded_act (t := ()) h10 (.initialised .ascii) false rfl ⟨rfl, rfl⟩ trivial
  have h12 := recorded_act (t := ()) h11 .mutexInit ErrorCode.success rfl ⟨rfl, .inl rfl⟩ trivial
  exact ⟨_, h12, fun h => absurd h.1 (by decide), [], _, rfl, by simp⟩

end MelsecMc.BothModules
