import Mathlib.Tactic

/-!
# Runs of a transition system, and owners of a mutex

A system starts in any of its initial states and takes steps one after the
other. What holds at the start and survives every step holds in every reachable
state. When every step lowers a measure and a step is possible until the goal is
reached, every run reaches the goal. The owner of a mutex is the one
process inside its section as long as every step of a process keeps that for
itself.
-/
namespace MelsecMc

structure TransitionSystem (σ : Type*) where
  init : σ → Prop
  step : σ → σ → Prop

namespace TransitionSystem

variable {σ : Type*} (M : TransitionSystem σ)

def Reachable (s : σ) : Prop := ∃ start, M.init start ∧ Relation.ReflTransGen M.step start s

variable {M}

theorem Reachable.initial {s : σ} (h : M.init s) : M.Reachable s := ⟨s, h, .refl⟩

theorem Reachable.next {s t : σ} (h : M.Reachable s) (hst : M.step s t) : M.Reachable t := by
  obtain ⟨start, hi, hr⟩ := h
  exact ⟨start, hi, hr.tail hst⟩

/-- An invariant whose steps may use what is known of all reachable states. -/
theorem Reachable.induction {P : σ → Prop} (hinit : ∀ s, M.init s → P s)
    (hstep : ∀ s t, M.Reachable s → P s → M.step s t → P t) {s : σ} (h : M.Reachable s) : P s := by
  obtain ⟨start, hi, hr⟩ := h
  induction hr with
  | refl => exact hinit start hi
  | tail hbefore hst ih => exact hstep _ _ ⟨start, hi, hbefore⟩ ih hst

theorem Reachable.invariant {P : σ → Prop} (hinit : ∀ s, M.init s → P s)
    (hstep : ∀ s t, P s → M.step s t → P t) {s : σ} (h : M.Reachable s) : P s :=
  h.induction hinit fun s t _ => hstep s t

/-- A run with more to its states, or with fewer steps, is a run. -/
theorem Reachable.map {τ : Type*} {N : TransitionSystem τ} {f : σ → τ}
    (hinit : ∀ s, M.init s → N.init (f s)) (hstep : ∀ s t, M.step s t → N.step (f s) (f t)) {s : σ}
    (h : M.Reachable s) : N.Reachable (f s) := by
  obtain ⟨start, hi, hr⟩ := h
  exact ⟨f start, hinit start hi, hr.lift f fun s t hst => hstep s t hst⟩

/-- Where every step lowers a measure, no run goes on for ever. -/
theorem acc_of_measure {step : σ → σ → Prop} {P : σ → Prop} {α : Type*} [Preorder α]
    [WellFoundedLT α] (μ : σ → α) (hP : ∀ s t, P s → step s t → P t)
    (hμ : ∀ s t, P s → step s t → μ t < μ s) (s : σ) (hs : P s) :
    Acc (fun t s => step s t) s := by
  induction hm : μ s using WellFoundedLT.induction generalizing s with
  | ind m ih =>
    refine Acc.intro s fun t hst => ?_
    exact ih (μ t) (hm ▸ hμ s t hs hst) t (hP s t hs hst) rfl

/-- Where no run goes on for ever and none ends short of the goal, the goal is reached. -/
theorem reaches_of_acc {step : σ → σ → Prop} {P : σ → Prop} (Goal : σ → Prop)
    (hP : ∀ s t, P s → step s t → P t) (hmove : ∀ s, P s → ¬ Goal s → ∃ t, step s t) {s : σ}
    (hs : P s) (hacc : Acc (fun t s => step s t) s) :
    ∃ t, Relation.ReflTransGen step s t ∧ Goal t := by
  induction hacc with
  | intro s _ ih =>
    by_cases hg : Goal s
    · exact ⟨s, .refl, hg⟩
    · obtain ⟨u, hu⟩ := hmove s hs hg
      obtain ⟨t, hut, ht⟩ := ih u hu (hP s u hs hu)
      exact ⟨t, .head hu hut, ht⟩

end TransitionSystem

/-- A process keeps its place, or enters while there is no owner, or leaves. -/
theorem owner_iff_step {T : Type*} {owner owner' : Option T} {inside inside' : T → Prop} {t : T}
    (h : ∀ u, owner = some u ↔ inside u) (hother : ∀ u, u ≠ t → (inside' u ↔ inside u))
    (hself : (owner' = owner ∧ (inside' t ↔ inside t)) ∨
      (owner = none ∧ owner' = some t ∧ inside' t) ∨
      (owner' = none ∧ inside t ∧ ¬ inside' t)) (u : T) : owner' = some u ↔ inside' u := by
  by_cases hu : u = t
  · subst hu
    rcases hself with ⟨ho, hi⟩ | ⟨-, ho, hi⟩ | ⟨ho, -, hi⟩
    · rw [ho, hi]
      exact h u
    · simp [ho, hi]
    · simp [ho, hi]
  · rw [hother u hu]
    rcases hself with ⟨ho, -⟩ | ⟨hn, ho, -⟩ | ⟨ho, hi, -⟩
    · rw [ho]
      exact h u
    · have hout := (h u).not.mp (by simp [hn])
      simp [ho, hout, Ne.symm hu]
    · have hout := (h u).not.mp (by simp [(h t).mpr hi, Ne.symm hu])
      simp [ho, hout]

end MelsecMc
