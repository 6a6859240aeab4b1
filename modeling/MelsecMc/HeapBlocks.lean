import Mathlib.Data.Finset.Card

/-!
# Programs on a heap of blocks

A program asks for blocks, uses them and frees them; an allocator may refuse any
request. A pointer is null or a block. It is misuse to free or use a block that is
not live. A specification relates the blocks that are live at the end to those that
are live at the start, for every heap, so what a program does not free stays live.
-/
namespace HeapBlocks

abbrev Block := ℕ

abbrev Pointer := Option Block

/-- The blocks that are handed out and not freed, and the next request. -/
structure Heap where
  live : Finset Block
  next : Block
  fresh : ∀ b ∈ live, b < next

namespace Heap

theorem next_notMem (h : Heap) : h.next ∉ h.live :=
  fun hmem => lt_irrefl _ (h.fresh _ hmem)

/-- The request is granted. -/
def push (h : Heap) : Heap where
  live := insert h.next h.live
  next := h.next + 1
  fresh b hb := by
    rcases Finset.mem_insert.mp hb with rfl | hb
    · exact Nat.lt_succ_self _
    · exact (h.fresh b hb).trans (Nat.lt_succ_self _)

/-- The request is refused. -/
def skip (h : Heap) : Heap where
  live := h.live
  next := h.next + 1
  fresh b hb := (h.fresh b hb).trans (Nat.lt_succ_self _)

def drop (h : Heap) (b : Block) : Heap where
  live := h.live.erase b
  next := h.next
  fresh b' hb' := h.fresh b' (Finset.mem_of_mem_erase hb')

end Heap

/-- Why a program does not return: a block that is not live, or an access that no block covers. -/
inductive Halt where
  | misuse
  | outside
  deriving DecidableEq, Repr

/-- Which requests are granted. -/
abbrev Allocator := Block → Bool

def Granted (g : Allocator) : Prop := ∀ b, g b = true

def HeapProgram (α : Type) : Type := Allocator → Heap → Except Halt (α × Heap)

namespace HeapProgram

variable {α β : Type}

instance : Monad HeapProgram where
  pure a := fun _ h => .ok (a, h)
  bind p f := fun g h =>
    match p g h with
    | .error e => .error e
    | .ok (a, h') => f a g h'

/-- `malloc`, apart from the size. -/
def malloc : HeapProgram Pointer := fun g h =>
  if g h.next then .ok (some h.next, h.push) else .ok (none, h.skip)

/-- A block that is known to have been granted. -/
def grant : HeapProgram Pointer := fun _ h => .ok (some h.next, h.push)

/-- `free`. A null pointer is no error. -/
def free : Pointer → HeapProgram Unit
  | none => pure ()
  | some b => fun _ h => if b ∈ h.live then .ok ((), h.drop b) else .error .misuse

/-- An access to what the pointer points to. -/
def use : Pointer → HeapProgram Unit
  | none => fun _ _ => .error .outside
  | some b => fun _ h => if b ∈ h.live then .ok ((), h) else .error .misuse

/-- An access that may be outside its block. -/
def ofOption : Option α → HeapProgram α
  | none => fun _ _ => .error .outside
  | some a => pure a

/-- `M` has the block of the pointer beside `L`. -/
def Takes (L : Finset Block) : Pointer → Finset Block → Prop
  | none, M => M = L
  | some b, M => b ∉ L ∧ M = insert b L

/-- What the pointer points to is live. -/
def Live (L : Finset Block) (o : Pointer) : Prop := ∀ b ∈ o, b ∈ L

namespace Takes

variable {L M N : Finset Block} {o o' : Pointer}

theorem subset (h : Takes L o M) : L ⊆ M := by
  cases o with
  | none => exact h.ge
  | some b => rw [h.2]; exact Finset.subset_insert b L

theorem live (h : Takes L o M) : Live M o := by
  rintro b rfl
  rw [h.2]
  exact Finset.mem_insert_self b L

theorem notMem {b : Block} (h : Takes L o M) (hb : b ∈ o) : b ∉ L := by
  obtain rfl := hb
  exact h.1

theorem card (h : Takes L o M) : M.card = L.card + o.toList.length := by
  cases o with
  | none => rw [h]; rfl
  | some b => rw [h.2, Finset.card_insert_of_notMem h.1]; rfl

/-- Of two blocks either is the last. -/
theorem swap (h : Takes L o M) (h' : Takes M o' N) : ∃ M', Takes L o' M' ∧ Takes M' o N := by
  cases o with
  | none =>
    obtain rfl := h
    exact ⟨N, h', rfl⟩
  | some b =>
    cases o' with
    | none =>
      obtain rfl := h'
      exact ⟨L, rfl, h⟩
    | some b' =>
      obtain ⟨hb, rfl⟩ := h
      obtain ⟨hb', rfl⟩ := h'
      obtain ⟨hne, hb'⟩ := not_or.mp (mt Finset.mem_insert.mpr hb')
      refine ⟨insert b' L, ⟨hb', rfl⟩, fun hmem => ?_, Finset.insert_comm b' b L⟩
      exact (Finset.mem_insert.mp hmem).elim (fun h => hne h.symm) hb

end Takes

theorem Live.mono {L M : Finset Block} {o : Pointer} (h : Live L o) (hs : L ⊆ M) : Live M o :=
  fun b hb => hs (h b hb)

/-- From a heap with the live blocks `L` the program ends with a result and live blocks in `Q`,
or stops for a reason in `E`. -/
def Holds (g : Allocator) (L : Finset Block) (p : HeapProgram α) (E : Halt → Prop)
    (Q : α → Finset Block → Prop) : Prop :=
  ∀ h : Heap, h.live = L →
    match p g h with
    | .error e => E e
    | .ok (a, h') => Q a h'.live

section Rules

variable {g : Allocator} {L M : Finset Block} {E E' : Halt → Prop}
  {Q : α → Finset Block → Prop} {o : Pointer}

theorem Holds.pure {a : α} (h : Q a L) : Holds g L (pure a) E Q := by
  rintro _ rfl
  exact h

theorem Holds.bind {p : HeapProgram α} {f : α → HeapProgram β} {R : β → Finset Block → Prop}
    (h : Holds g L p E fun a M => Holds g M (f a) E R) : Holds g L (p >>= f) E R := by
  intro heap hL
  have hp := h heap hL
  simp only [Bind.bind]
  cases hrun : p g heap with
  | error e =>
    rw [hrun] at hp
    exact hp
  | ok out =>
    rw [hrun] at hp
    exact hp out.2 rfl

theorem Holds.mono {p : HeapProgram α} {Q' : α → Finset Block → Prop} (h : Holds g L p E Q)
    (hE : ∀ e, E e → E' e) (hQ : ∀ a M, Q a M → Q' a M) : Holds g L p E' Q' := by
  intro heap hL
  have hp := h heap hL
  cases hrun : p g heap with
  | error e =>
    rw [hrun] at hp
    exact hE e hp
  | ok out =>
    rw [hrun] at hp
    exact hQ _ _ hp

theorem Holds.malloc {Q : Pointer → Finset Block → Prop}
    (h : ∀ o M, Takes L o M → (Granted g → o.isSome) → Q o M) : Holds g L malloc E Q := by
  rintro heap rfl
  have hpush : Takes heap.live (some heap.next) heap.push.live := ⟨heap.next_notMem, rfl⟩
  cases hg : g heap.next with
  | true =>
    simp only [HeapProgram.malloc, hg, if_true]
    exact h _ _ hpush fun _ => rfl
  | false =>
    simp only [HeapProgram.malloc, hg, Bool.false_eq_true, if_false]
    exact h none _ rfl fun hall => absurd (hall heap.next) (by simp [hg])

theorem Holds.grant {Q : Pointer → Finset Block → Prop}
    (h : ∀ o M, Takes L o M → o.isSome → Q o M) : Holds g L grant E Q := by
  rintro heap rfl
  exact h _ _ (show Takes heap.live (some heap.next) _ from ⟨heap.next_notMem, rfl⟩) rfl

theorem Holds.free {Q : Unit → Finset Block → Prop} (h : Takes L o M) (hQ : Q () L) :
    Holds g M (free o) E Q := by
  cases o with
  | none =>
    obtain rfl := h
    exact .pure hQ
  | some b =>
    obtain ⟨hb, rfl⟩ := h
    intro heap hL
    have hmem : b ∈ heap.live := hL ▸ Finset.mem_insert_self b L
    have hlive : (heap.drop b).live = L := by
      change heap.live.erase b = L
      rw [hL, Finset.erase_insert hb]
    simp only [HeapProgram.free, hmem, if_true, hlive]
    exact hQ

theorem Holds.use_null {Q : Unit → Finset Block → Prop} (hE : E .outside) :
    Holds g L (HeapProgram.use none) E Q :=
  fun _ _ => hE

theorem Holds.use {b : Block} {Q : Unit → Finset Block → Prop} (h : Live L (some b))
    (hQ : Q () L) : Holds g L (HeapProgram.use (some b)) E Q := by
  rintro heap rfl
  simp only [HeapProgram.use, h b rfl, if_true]
  exact hQ

theorem Holds.ofOption {a : Option α} (hE : a = none → E .outside)
    (hQ : ∀ x, a = some x → Q x L) : Holds g L (ofOption a) E Q := by
  rintro heap rfl
  cases a with
  | none => exact hE rfl
  | some x => exact hQ x rfl

/-- Freeing a block twice is misuse. -/
theorem Holds.free_dead {b : Block} {Q : Unit → Finset Block → Prop} (h : b ∉ L)
    (hE : E .misuse) : Holds g L (HeapProgram.free (some b)) E Q := by
  rintro heap rfl
  simp only [HeapProgram.free, h, if_false]
  exact hE

theorem Holds.use_dead {b : Block} {Q : Unit → Finset Block → Prop} (h : b ∉ L)
    (hE : E .misuse) : Holds g L (HeapProgram.use (some b)) E Q := by
  rintro heap rfl
  simp only [HeapProgram.use, h, if_false]
  exact hE

end Rules

end HeapProgram

end HeapBlocks
