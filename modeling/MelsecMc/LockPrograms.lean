import MelsecMc.Transition

/-!
# Programs that lock mutexes

A program of one thread locks and unlocks mutexes and acts on data that all threads
share. The data only moves on along the order of its type, and mutexes are taken in
increasing order. `run` is the program alone. `Safe` follows a program through every
answer that it can get and everything that other threads do in between. When all calls
are safe, no run of any number of threads locks or unlocks a mutex wrongly, and threads
never wait in a cycle.
-/
namespace MelsecMc

inductive LockProgram (L A : Type*) (Ans : A → Type*) (α : Type*) where
  | ret (a : α)
  | lock (l : L) (next : LockProgram L A Ans α)
  | unlock (l : L) (next : LockProgram L A Ans α)
  | act (a : A) (next : Ans a → LockProgram L A Ans α)

/-- What the actions do to the shared data. -/
structure SharedData {A : Type*} (Ans : A → Type*) (σ : Type*) [Preorder σ] where
  effect : (a : A) → σ → Ans a → σ → Prop
  le_of_effect : ∀ {a s x s'}, effect a s x s' → s ≤ s'

/-- What has to hold when a mutex is taken, and when an action is done by a thread that holds
some mutexes. -/
structure LockRules (L A σ : Type*) where
  lock : L → σ → Prop
  act : A → Set L → σ → Prop

namespace LockProgram

universe u

variable {L A : Type*} {Ans : A → Type*} {α β : Type u}

def bind : LockProgram L A Ans α → (α → LockProgram L A Ans β) → LockProgram L A Ans β
  | ret a, f => f a
  | lock l next, f => lock l (next.bind f)
  | unlock l next, f => unlock l (next.bind f)
  | act a next, f => act a fun x => (next x).bind f

instance : Monad (LockProgram L A Ans) where
  pure := ret
  bind := bind

/-- One step that locks a mutex. -/
def locking (l : L) : LockProgram L A Ans PUnit := lock l (ret ⟨⟩)

/-- One step that unlocks a mutex. -/
def unlocking (l : L) : LockProgram L A Ans PUnit := unlock l (ret ⟨⟩)

/-- One action. -/
def acting {Ans : A → Type u} (a : A) : LockProgram L A Ans (Ans a) := act a ret

/-- The program with other names for its mutexes and actions. -/
def relabel {L' A' : Type*} {Ans' : A' → Type*} (f : L → L') (g : A → A')
    (h : ∀ a, Ans' (g a) → Ans a) : LockProgram L A Ans α → LockProgram L' A' Ans' α
  | ret a => ret a
  | lock l next => lock (f l) (next.relabel f g h)
  | unlock l next => unlock (f l) (next.relabel f g h)
  | act a next => act (g a) fun x => (next (h a x)).relabel f g h

/-- The program does nothing of `S`, whatever it is answered. -/
def Avoids (S : Set A) : LockProgram L A Ans α → Prop
  | ret _ => True
  | lock _ next => next.Avoids S
  | unlock _ next => next.Avoids S
  | act a next => a ∉ S ∧ ∀ x, (next x).Avoids S

theorem avoids_relabel {L' A' : Type*} {Ans' : A' → Type*} {f : L → L'} {g : A → A'}
    {h : ∀ a, Ans' (g a) → Ans a} {S : Set A'} (hg : ∀ a, g a ∉ S) (p : LockProgram L A Ans α) :
    (p.relabel f g h).Avoids S := by
  induction p with
  | ret a => trivial
  | lock l next ih => exact ih
  | unlock l next ih => exact ih
  | act a next ih => exact ⟨hg a, fun x => ih (h a x)⟩

section Run

variable {σ : Type*} (answer : (a : A) → σ → Option (Ans a) × σ)

/-- The result of a program that runs alone, `none` when an action does not return. -/
def run : LockProgram L A Ans α → σ → Option α × σ
  | ret a, s => (some a, s)
  | lock _ next, s => next.run s
  | unlock _ next, s => next.run s
  | act a next, s =>
    (answer a s).1.elim (none, (answer a s).2) fun x => (next x).run (answer a s).2

/-- The second part goes on where the first one ends. -/
theorem run_bind (p : LockProgram L A Ans α) (f : α → LockProgram L A Ans β) (s : σ) :
    (p >>= f).run answer s =
      (p.run answer s).1.elim (none, (p.run answer s).2) fun a =>
        (f a).run answer (p.run answer s).2 := by
  induction p generalizing s with
  | ret a => rfl
  | lock l next ih => exact ih s
  | unlock l next ih => exact ih s
  | act a next ih =>
    change (answer a s).1.elim _ (fun x => (next x >>= f).run answer _) = _
    simp only [run]
    cases (answer a s).1 with
    | none => rfl
    | some x => exact ih x _

end Run

section Safe

variable [Preorder L] {σ : Type*} [Preorder σ] (D : SharedData Ans σ) (R : LockRules L A σ)

/-- The program keeps the rules when it starts with the mutexes `held` and the data at `w` or
later, and ends with `post`. -/
def Safe (post : α → Set L → σ → Prop) : LockProgram L A Ans α → Set L → σ → Prop
  | ret a, held, w => ∀ s, w ≤ s → post a held s
  | lock l next, held, w => (∀ m ∈ held, m < l) ∧ ∀ s, w ≤ s →
      R.lock l s ∧ next.Safe post (insert l held) s
  | unlock l next, held, w => l ∈ held ∧ ∀ s, w ≤ s → next.Safe post (held \ {l}) s
  | act a next, held, w => ∀ s, w ≤ s → R.act a held s ∧ ∀ x s', D.effect a s x s' →
      (next x).Safe post held s'

variable {D R} {post : α → Set L → σ → Prop} {held : Set L} {w w' : σ}

/-- Other threads may act first. -/
theorem Safe.later {p : LockProgram L A Ans α} (h : p.Safe D R post held w) (hw : w ≤ w') :
    p.Safe D R post held w' := by
  cases p with
  | ret a => exact fun s hs => h s (hw.trans hs)
  | lock l next => exact ⟨h.1, fun s hs => h.2 s (hw.trans hs)⟩
  | unlock l next => exact ⟨h.1, fun s hs => h.2 s (hw.trans hs)⟩
  | act a next => exact fun s hs => h s (hw.trans hs)

theorem Safe.ret {a : α} (h : ∀ s, w ≤ s → post a held s) :
    (LockProgram.ret a : LockProgram L A Ans α).Safe D R post held w := h

theorem Safe.locking {l : L} {f : PUnit → LockProgram L A Ans α} (hlt : ∀ m ∈ held, m < l)
    (h : ∀ s, w ≤ s → R.lock l s ∧ (f ⟨⟩).Safe D R post (insert l held) s) :
    (LockProgram.locking l >>= f).Safe D R post held w := ⟨hlt, h⟩

theorem Safe.unlocking {l : L} {f : PUnit → LockProgram L A Ans α} (hl : l ∈ held)
    (h : ∀ s, w ≤ s → (f ⟨⟩).Safe D R post (held \ {l}) s) :
    (LockProgram.unlocking l >>= f).Safe D R post held w := ⟨hl, h⟩

theorem Safe.acting {Ans : A → Type u} {D : SharedData Ans σ} {a : A}
    {f : Ans a → LockProgram L A Ans α} (h : ∀ s, w ≤ s → R.act a held s ∧
      ∀ x s', D.effect a s x s' → (f x).Safe D R post held s') :
    (LockProgram.acting a >>= f).Safe D R post held w := h

/-- The second part starts where the first one ends. -/
theorem Safe.bind {p : LockProgram L A Ans α} {f : α → LockProgram L A Ans β}
    {post : β → Set L → σ → Prop}
    (h : p.Safe D R (fun a held s => (f a).Safe D R post held s) held w) :
    (p >>= f).Safe D R post held w := by
  induction p generalizing held w with
  | ret a => exact h w le_rfl
  | lock l next ih => exact ⟨h.1, fun s hs => ⟨(h.2 s hs).1, ih (h.2 s hs).2⟩⟩
  | unlock l next ih => exact ⟨h.1, fun s hs => ih (h.2 s hs)⟩
  | act a next ih => exact fun s hs => ⟨(h s hs).1, fun x s' he => ih x ((h s hs).2 x s' he)⟩

/-- A weaker end. -/
theorem Safe.mono {post' : α → Set L → σ → Prop} {p : LockProgram L A Ans α}
    (h : p.Safe D R post held w) (hpost : ∀ a held s, w ≤ s → post a held s → post' a held s) :
    p.Safe D R post' held w := by
  induction p generalizing held w with
  | ret a => exact fun s hs => hpost a held s hs (h s hs)
  | lock l next ih =>
    exact ⟨h.1, fun s hs => ⟨(h.2 s hs).1,
      ih (h.2 s hs).2 fun a held s' hs' => hpost a held s' (hs.trans hs')⟩⟩
  | unlock l next ih =>
    exact ⟨h.1, fun s hs => ih (h.2 s hs) fun a held s' hs' => hpost a held s' (hs.trans hs')⟩
  | act a next ih =>
    exact fun s hs => ⟨(h s hs).1, fun x s' he => ih x ((h s hs).2 x s' he) fun a held s'' hs' =>
      hpost a held s'' ((hs.trans (D.le_of_effect he)).trans hs')⟩

end Safe

end LockProgram

/-- The shared data, the owners of the mutexes, and the programs of the threads in a call. -/
structure LockState (T L A : Type*) (Ans : A → Type*) (α σ : Type*) where
  shared : σ
  owner : L → Option T
  program : T → Option (LockProgram L A Ans α)

inductive LockEvent (T L A : Type*) (Ans : A → Type*) where
  | start (t : T)
  | lock (t : T) (l : L)
  | unlock (t : T) (l : L)
  | act (t : T) (a : A) (x : Ans a)
  | finish (t : T)

section System

open LockProgram

variable {T L A : Type*} {Ans : A → Type*} {α σ : Type*}

namespace LockState

/-- The mutexes of thread `t`. -/
def held (s : LockState T L A Ans α σ) (t : T) : Set L := {l | s.owner l = some t}

/-- Thread `t` waits for a mutex that `u` has. -/
def WaitsFor (s : LockState T L A Ans α σ) (t u : T) : Prop :=
  ∃ l next, s.program t = some (.lock l next) ∧ s.owner l = some u

section Program

variable [DecidableEq T] {s : LockState T L A Ans α σ} {t u : T} {p : LockProgram L A Ans α}

/-- Thread `t` goes on with `p`. -/
def goOn (s : LockState T L A Ans α σ) (t : T) (p : LockProgram L A Ans α) :
    LockState T L A Ans α σ :=
  { s with program := Function.update s.program t (some p) }

theorem goOn_self : (s.goOn t p).program t = some p := Function.update_self ..

theorem goOn_of_ne (hu : u ≠ t) : (s.goOn t p).program u = s.program u :=
  Function.update_of_ne hu ..

end Program

section Held

variable [DecidableEq L] {s : LockState T L A Ans α σ} {t u : T} {l : L}

theorem held_lock_self :
    { s with owner := Function.update s.owner l (some t) }.held t = insert l (s.held t) := by
  ext m
  by_cases hm : m = l
  · simp [held, hm]
  · simp [held, hm, Function.update_of_ne]

theorem held_lock_of_ne (hfree : s.owner l = none) (hu : u ≠ t) :
    { s with owner := Function.update s.owner l (some t) }.held u = s.held u := by
  ext m
  by_cases hm : m = l
  · simp [held, hm, hfree, Ne.symm hu]
  · simp [held, hm, Function.update_of_ne]

theorem held_unlock_self :
    { s with owner := Function.update s.owner l none }.held t = s.held t \ {l} := by
  ext m
  by_cases hm : m = l
  · simp [held, hm]
  · simp [held, hm, Function.update_of_ne]

theorem held_unlock_of_ne (hl : l ∈ s.held t) (hu : u ≠ t) :
    { s with owner := Function.update s.owner l none }.held u = s.held u := by
  ext m
  have hl : s.owner l = some t := hl
  by_cases hm : m = l
  · simp [held, hm, hl, Ne.symm hu]
  · simp [held, hm, Function.update_of_ne]

end Held

end LockState

variable [Preorder σ]

section Steps

variable [DecidableEq T] [DecidableEq L]

/-- One step of one thread. A thread that is in no call starts any call of `calls`. -/
inductive LockStep (D : SharedData Ans σ) (calls : Set (LockProgram L A Ans α)) :
    LockState T L A Ans α σ → LockEvent T L A Ans → LockState T L A Ans α σ → Prop where
  | start (s : LockState T L A Ans α σ) (t : T) (p : LockProgram L A Ans α)
      (hidle : s.program t = none) (hp : p ∈ calls) : LockStep D calls s (.start t) (s.goOn t p)
  | lock (s : LockState T L A Ans α σ) (t : T) (l : L) (next : LockProgram L A Ans α)
      (h : s.program t = some (.lock l next)) (hfree : s.owner l = none) :
      LockStep D calls s (.lock t l)
        ({ s with owner := Function.update s.owner l (some t) }.goOn t next)
  | unlock (s : LockState T L A Ans α σ) (t : T) (l : L) (next : LockProgram L A Ans α)
      (h : s.program t = some (.unlock l next)) :
      LockStep D calls s (.unlock t l)
        ({ s with owner := Function.update s.owner l none }.goOn t next)
  | act (s : LockState T L A Ans α σ) (t : T) (a : A) (next : Ans a → LockProgram L A Ans α)
      (x : Ans a) (s' : σ) (h : s.program t = some (.act a next))
      (he : D.effect a s.shared x s') :
      LockStep D calls s (.act t a x) ({ s with shared := s' }.goOn t (next x))
  | finish (s : LockState T L A Ans α σ) (t : T) (a : α) (h : s.program t = some (.ret a)) :
      LockStep D calls s (.finish t) { s with program := Function.update s.program t none }

/-- Any number of threads that make calls of `calls`, on data that starts as `init`. -/
def lockSystem (D : SharedData Ans σ) (calls : Set (LockProgram L A Ans α)) (init : σ) :
    TransitionSystem (LockState T L A Ans α σ) where
  init s := s = ⟨init, fun _ => none, fun _ => none⟩
  step s s' := ∃ e, LockStep D calls s e s'

end Steps

variable [Preorder L]

/-- What is left of every call is safe and gives back every mutex, and the mutexes of a thread
are ordered. -/
structure LockInv (D : SharedData Ans σ) (R : LockRules L A σ) (init : σ)
    (s : LockState T L A Ans α σ) : Prop where
  later : init ≤ s.shared
  safe : ∀ t p, s.program t = some p →
    p.Safe D R (fun _ held _ => held = ∅) (s.held t) s.shared
  idle : ∀ t, s.program t = none → s.held t = ∅
  chain : ∀ t, IsChain (· ≤ ·) (s.held t)

namespace LockInv

variable {D : SharedData Ans σ} {R : LockRules L A σ} {init : σ}
  {s s' : LockState T L A Ans α σ} {t : T} {l : L} {next : LockProgram L A Ans α}

theorem initial : LockInv D R init (⟨init, fun _ => none, fun _ => none⟩ :
    LockState T L A Ans α σ) where
  later := le_rfl
  safe t p h := by cases h
  idle t _ := by simp [LockState.held]
  chain t := by simp [LockState.held, IsChain]

/-- A thread takes mutexes in increasing order. -/
theorem lt_of_lock (h : LockInv D R init s) (hp : s.program t = some (.lock l next)) {m : L}
    (hm : s.owner m = some t) : m < l :=
  (h.safe t _ hp).1 m hm

theorem not_held (h : LockInv D R init s) (hp : s.program t = some (.lock l next)) :
    s.owner l ≠ some t :=
  fun hl => lt_irrefl l (h.lt_of_lock hp hl)

theorem held_of_unlock (h : LockInv D R init s) (hp : s.program t = some (.unlock l next)) :
    s.owner l = some t :=
  (h.safe t _ hp).1

theorem rule_of_lock (h : LockInv D R init s) (hp : s.program t = some (.lock l next)) :
    R.lock l s.shared :=
  ((h.safe t _ hp).2 s.shared le_rfl).1

theorem rule_of_act (h : LockInv D R init s) {a : A} {next : Ans a → LockProgram L A Ans α}
    (hp : s.program t = some (.act a next)) : R.act a (s.held t) s.shared :=
  (h.safe t _ hp s.shared le_rfl).1

theorem released (h : LockInv D R init s) {a : α} (hp : s.program t = some (.ret a)) (l : L) :
    s.owner l ≠ some t := by
  have hdone : s.held t = ∅ := h.safe t _ hp s.shared le_rfl
  exact fun hl => Set.notMem_empty l (hdone ▸ hl)

/-- Along a chain of waiting threads the mutexes increase. -/
theorem waits_increase (h : LockInv D R init s) {t u : T}
    (hw : Relation.TransGen s.WaitsFor t u) :
    ∃ l next m, s.program t = some (.lock l next) ∧ s.owner m = some u ∧ l ≤ m := by
  induction hw with
  | single hw =>
    obtain ⟨l, next, hp, hl⟩ := hw
    exact ⟨l, next, l, hp, hl, le_rfl⟩
  | tail _ hw ih =>
    obtain ⟨l, next, m, hp, hm, hle⟩ := ih
    obtain ⟨k, next', hp', hk⟩ := hw
    exact ⟨l, next, k, hp, hk, hle.trans (h.lt_of_lock hp' hm).le⟩

/-- Threads never wait in a cycle. -/
theorem no_cycle (h : LockInv D R init s) (t : T) : ¬ Relation.TransGen s.WaitsFor t t := by
  intro hw
  obtain ⟨l, next, m, hp, hm, hle⟩ := h.waits_increase hw
  exact lt_irrefl l (hle.trans_lt (h.lt_of_lock hp hm))

section Steps

variable [DecidableEq T] {calls : Set (LockProgram L A Ans α)}

/-- Only thread `t` goes on; the others keep their mutexes, and the data only moves on. -/
theorem goOn (h : LockInv D R init s) (t : T) (p : LockProgram L A Ans α)
    (hprogram : s'.program = s.program) (hlater : s.shared ≤ s'.shared)
    (hheld : ∀ u, u ≠ t → s'.held u = s.held u) (hchain : IsChain (· ≤ ·) (s'.held t))
    (hsafe : p.Safe D R (fun _ held _ => held = ∅) (s'.held t) s'.shared) :
    LockInv D R init (s'.goOn t p) where
  later := h.later.trans hlater
  safe u q hq := by
    by_cases hu : u = t
    · subst hu
      rw [LockState.goOn_self] at hq
      obtain rfl := Option.some.inj hq
      exact hsafe
    · rw [LockState.goOn_of_ne hu, hprogram] at hq
      have hothers := (h.safe u q hq).later hlater
      rw [← hheld u hu] at hothers
      exact hothers
  idle u hq := by
    by_cases hu : u = t
    · subst hu
      rw [LockState.goOn_self] at hq
      cases hq
    · rw [LockState.goOn_of_ne hu, hprogram] at hq
      exact (hheld u hu).trans (h.idle u hq)
  chain u := by
    by_cases hu : u = t
    · subst hu
      exact hchain
    · have hothers := h.chain u
      rw [← hheld u hu] at hothers
      exact hothers

variable [DecidableEq L]

/-- Every step keeps the invariant when all calls are safe. -/
theorem step (hcalls : ∀ p ∈ calls, p.Safe D R (fun _ held _ => held = ∅) ∅ init)
    (h : LockInv D R init s) {e : LockEvent T L A Ans} (hs : LockStep D calls s e s') :
    LockInv D R init s' := by
  cases hs with
  | start t p hidle hp =>
    refine h.goOn t p rfl le_rfl (fun _ _ => rfl) (h.chain t) ?_
    rw [h.idle t hidle]
    exact (hcalls p hp).later h.later
  | lock t l next hp hfree =>
    obtain ⟨hlt, hnext⟩ := h.safe t _ hp
    refine h.goOn t next rfl le_rfl (fun u hu => LockState.held_lock_of_ne hfree hu) ?_ ?_
    · rw [LockState.held_lock_self]
      exact (h.chain t).insert fun m hm _ => .inr (hlt m hm).le
    · rw [LockState.held_lock_self]
      exact (hnext s.shared le_rfl).2
  | unlock t l next hp =>
    obtain ⟨hl, hnext⟩ := h.safe t _ hp
    refine h.goOn t next rfl le_rfl (fun u hu => LockState.held_unlock_of_ne hl hu) ?_ ?_
    · rw [LockState.held_unlock_self]
      exact (h.chain t).mono Set.sdiff_subset
    · rw [LockState.held_unlock_self]
      exact hnext s.shared le_rfl
  | act t a next x shared hp he =>
    have hnext := (h.safe t _ hp s.shared le_rfl).2 x shared he
    exact h.goOn t (next x) rfl (D.le_of_effect he) (fun _ _ => rfl) (h.chain t) hnext
  | finish t a hp =>
    have hdone := h.safe t _ hp s.shared le_rfl
    refine ⟨h.later, fun u q hq => ?_, fun u hq => ?_, h.chain⟩
    · by_cases hu : u = t
      · subst hu
        simp at hq
      · exact h.safe u q (by simpa [Function.update_of_ne hu] using hq)
    · by_cases hu : u = t
      · subst hu
        exact hdone
      · exact h.idle u (by simpa [Function.update_of_ne hu] using hq)

/-- Safe calls keep the invariant, in every run. -/
theorem reachable (hcalls : ∀ p ∈ calls, p.Safe D R (fun _ held _ => held = ∅) ∅ init)
    (hs : (lockSystem D calls init).Reachable s) : LockInv D R init s := by
  refine hs.invariant (fun s hinit => ?_) fun s s' h hstep => ?_
  · obtain rfl := hinit
    exact .initial
  · obtain ⟨e, he⟩ := hstep
    exact h.step hcalls he

end Steps

end LockInv

end System

end MelsecMc
