import Mathlib.Data.List.Basic

/-!
# Computations that record where they read

A traced computation is its value together with the places it has read on the
way. `Reads P` says that every one of these places satisfies `P`; the rules
follow how the computation is put together.
-/
namespace MelsecMc

structure Traced (ι α : Type*) where
  places : List ι
  value : α

namespace Traced

variable {ι α β : Type*}

/-- Nothing is read. -/
def done (a : α) : Traced ι α := ⟨[], a⟩

/-- One place is read, with `a` in it. -/
def read (i : ι) (a : α) : Traced ι α := ⟨[i], a⟩

def bind (x : Traced ι α) (f : α → Traced ι β) : Traced ι β :=
  ⟨x.places ++ (f x.value).places, (f x.value).value⟩

def map (f : α → β) (x : Traced ι α) : Traced ι β := ⟨x.places, f x.value⟩

/-- Every place that is read satisfies `P`. -/
def Reads (P : ι → Prop) (x : Traced ι α) : Prop := ∀ i ∈ x.places, P i

variable {P : ι → Prop}

@[simp] theorem done_value (a : α) : (done a : Traced ι α).value = a := rfl

@[simp] theorem read_value (i : ι) (a : α) : (read i a).value = a := rfl

@[simp] theorem bind_value (x : Traced ι α) (f : α → Traced ι β) :
    (x.bind f).value = (f x.value).value := rfl

@[simp] theorem map_value (f : α → β) (x : Traced ι α) : (x.map f).value = f x.value := rfl

@[simp] theorem reads_done (a : α) : Reads P (done a : Traced ι α) := by
  intro i hi
  cases hi

@[simp] theorem reads_read (i : ι) (a : α) : Reads P (read i a) ↔ P i := by
  simp [Reads, read]

@[simp] theorem reads_bind (x : Traced ι α) (f : α → Traced ι β) :
    Reads P (x.bind f) ↔ Reads P x ∧ Reads P (f x.value) := by
  simp only [Reads, bind, List.mem_append, or_imp, forall_and]

@[simp] theorem reads_map (f : α → β) (x : Traced ι α) : Reads P (x.map f) ↔ Reads P x :=
  Iff.rfl

end Traced

end MelsecMc
