import Mathlib.Tactic

/-!
# Programs that make calls

A program makes calls one after the other and goes on with their answers, which it
does not compute itself. What it does is the list of its calls with the answers that
they got, and the result with which it ends.
-/
namespace MelsecMc

/-- A program that makes calls of the operations `ι` and ends with a result. -/
inductive Client {ι : Type*} (ρ : ι → Type*) (α : Type*) where
  | ret (a : α)
  | call (i : ι) (next : ρ i → Client ρ α)

namespace Client

universe u v w

variable {ι : Type u} {ρ : ι → Type v} {α β : Type w}

def bind : Client ρ α → (α → Client ρ β) → Client ρ β
  | ret a, f => f a
  | call i next, f => call i fun r => (next r).bind f

instance : Monad (Client ρ) where
  pure := ret
  bind := bind

@[simp] theorem pure_eq (a : α) : (pure a : Client ρ α) = ret a := rfl

@[simp] theorem ret_bind (a : α) (f : α → Client ρ β) : (ret a >>= f) = f a := rfl

@[simp] theorem call_bind (i : ι) (next : ρ i → Client ρ α) (f : α → Client ρ β) :
    (call i next >>= f) = call i fun r => next r >>= f := rfl

/-- The program makes these calls, with these answers, and ends with this result. -/
inductive Makes : Client ρ α → List (Σ i, ρ i) → α → Prop where
  | ret (a : α) : Makes (.ret a) [] a
  | call {i : ι} {next : ρ i → Client ρ α} {r : ρ i} {run : List (Σ i, ρ i)} {a : α}
      (h : Makes (next r) run a) : Makes (.call i next) (⟨i, r⟩ :: run) a

@[simp] theorem makes_ret {a b : α} {run : List (Σ i, ρ i)} :
    (ret a : Client ρ α).Makes run b ↔ run = [] ∧ b = a := by
  constructor
  · intro h
    cases h
    exact ⟨rfl, rfl⟩
  · rintro ⟨rfl, rfl⟩
    exact .ret b

theorem makes_call {i : ι} {next : ρ i → Client ρ α} {run : List (Σ i, ρ i)} {a : α} :
    (call i next).Makes run a ↔ ∃ r rest, run = ⟨i, r⟩ :: rest ∧ (next r).Makes rest a := by
  constructor
  · intro h
    cases h with
    | call h => exact ⟨_, _, rfl, h⟩
  · rintro ⟨r, rest, rfl, h⟩
    exact .call h

theorem makes_bind {p : Client ρ α} {f : α → Client ρ β} {run : List (Σ i, ρ i)} {b : β} :
    (p >>= f).Makes run b ↔
      ∃ run₁ run₂ a, run = run₁ ++ run₂ ∧ p.Makes run₁ a ∧ (f a).Makes run₂ b := by
  induction p generalizing run with
  | ret a => simp
  | call i next ih =>
    rw [call_bind, makes_call]
    constructor
    · rintro ⟨r, rest, rfl, h⟩
      obtain ⟨run₁, run₂, a, rfl, h₁, h₂⟩ := (ih r).mp h
      exact ⟨⟨i, r⟩ :: run₁, run₂, a, rfl, .call h₁, h₂⟩
    · rintro ⟨run₁, run₂, a, rfl, h₁, h₂⟩
      obtain ⟨r, rest, rfl, h⟩ := makes_call.mp h₁
      exact ⟨r, rest ++ run₂, rfl, (ih r).mpr ⟨rest, run₂, a, rfl, h, h₂⟩⟩

/-- Every call that the program may make has `S`. -/
def Calls (S : ι → Prop) : Client ρ α → Prop
  | ret _ => True
  | call i next => S i ∧ ∀ r, (next r).Calls S

theorem Calls.bind {S : ι → Prop} {p : Client ρ α} {f : α → Client ρ β} (hp : p.Calls S)
    (hf : ∀ a, (f a).Calls S) : (p >>= f).Calls S := by
  induction p with
  | ret a => exact hf a
  | call i next ih => exact ⟨hp.1, fun r => ih r (hp.2 r)⟩

theorem Makes.calls {S : ι → Prop} {p : Client ρ α} {run : List (Σ i, ρ i)} {a : α}
    (h : p.Makes run a) (hp : p.Calls S) : ∀ x ∈ run, S x.1 := by
  induction h with
  | ret a => simp
  | call h ih =>
    intro x hx
    rcases List.mem_cons.mp hx with rfl | hx
    · exact hp.1
    · exact ih (hp.2 _) x hx

end Client

/-- Calls that got an answer each, with their answers. -/
theorem exists_answers {ι : Type*} {ρ : ι → Type*} {P : ℕ → (i : ι) → ρ i → Prop} {calls : List ι}
    (h : ∀ (k : ℕ) i, calls[k]? = some i → ∃ r, P k i r) :
    ∃ run : List (Σ i, ρ i), run.map Sigma.fst = calls ∧
      ∀ (k : ℕ) x, run[k]? = some x → P k x.1 x.2 := by
  induction calls using List.reverseRecOn with
  | nil => exact ⟨[], rfl, by simp⟩
  | append_singleton calls i ih =>
    obtain ⟨run, rfl, hrun⟩ := ih fun k j hk => h k j (by
      rw [List.getElem?_append_left (List.getElem?_eq_some_iff.mp hk).1, hk])
    obtain ⟨r, hr⟩ := h (run.map Sigma.fst).length i (by simp)
    refine ⟨run ++ [⟨i, r⟩], by simp, fun k x hx => ?_⟩
    rcases lt_or_ge k run.length with hk | hk
    · rw [List.getElem?_append_left hk] at hx
      exact hrun k x hx
    · rw [List.getElem?_append_right hk] at hx
      have hlt := (List.getElem?_eq_some_iff.mp hx).1
      obtain rfl : k = run.length := by
        rw [List.length_singleton] at hlt
        omega
      rw [Nat.sub_self] at hx
      obtain rfl := Option.some.inj hx
      simpa using hr

end MelsecMc
