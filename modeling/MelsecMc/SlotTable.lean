import Mathlib.Tactic

/-!
# Tables of slots with a key and an occupied mark

A table has finitely many slots. An occupied slot is found by its key, a new key
takes the first slot that is not occupied. The keys of the occupied slots stay
distinct, and a table with at least as many slots as there are keys never runs full.
-/
namespace MelsecMc.SlotTable

/-- How the slots of a table are read. -/
structure View (σ κ : Type*) where
  key : σ → κ
  inUse : σ → Bool

variable {σ κ : Type*} (V : View σ κ) {n : ℕ}

/-- The first occupied slot with the key `k`. -/
def find [DecidableEq κ] (t : Fin n → σ) (k : κ) : Option (Fin n) :=
  (List.finRange n).find? fun i => V.inUse (t i) && decide (V.key (t i) = k)

/-- The first slot that is not occupied. -/
def vacant (t : Fin n → σ) : Option (Fin n) :=
  (List.finRange n).find? fun i => !V.inUse (t i)

/-- No key occupies two slots. -/
def Unique (t : Fin n → σ) : Prop :=
  ∀ i j, V.inUse (t i) = true → V.inUse (t j) = true → V.key (t i) = V.key (t j) → i = j

variable {V} {t : Fin n → σ}

theorem find_some [DecidableEq κ] {k : κ} {i : Fin n} (h : find V t k = some i) :
    V.inUse (t i) = true ∧ V.key (t i) = k := by
  have hp := List.find?_some h
  simpa using hp

theorem find_none [DecidableEq κ] {k : κ} (h : find V t k = none) (i : Fin n)
    (hi : V.inUse (t i) = true) : V.key (t i) ≠ k := by
  have hp := List.find?_eq_none.mp h i (List.mem_finRange i)
  simpa [hi] using hp

theorem find_unique [DecidableEq κ] (hu : Unique V t) {k : κ} {i : Fin n}
    (hi : V.inUse (t i) = true) (hk : V.key (t i) = k) : find V t k = some i := by
  cases hf : find V t k with
  | none => exact absurd hk (find_none hf i hi)
  | some j =>
    obtain ⟨hj, hjk⟩ := find_some hf
    rw [hu j i hj hi (hjk.trans hk.symm)]

theorem vacant_some {i : Fin n} (h : vacant V t = some i) : V.inUse (t i) = false := by
  have hp := List.find?_some h
  simpa using hp

/-- A table with a slot for every key of `keys` has room for a key that it does not hold. -/
theorem vacant_of_card [DecidableEq κ] (hu : Unique V t) (keys : Finset κ) (hcard : keys.card ≤ n)
    (hkeys : ∀ i, V.inUse (t i) = true → V.key (t i) ∈ keys) {k : κ} (hk : k ∈ keys)
    (hf : find V t k = none) : ∃ i, vacant V t = some i := by
  by_contra hv
  have hall : ∀ i, V.inUse (t i) = true := by
    intro i
    by_contra hi
    cases hvac : vacant V t with
    | some j => exact hv ⟨j, hvac⟩
    | none => simpa [hi] using List.find?_eq_none.mp hvac i (List.mem_finRange i)
  have hinj : Function.Injective fun i => V.key (t i) :=
    fun i j hij => hu i j (hall i) (hall j) hij
  have hsub : Finset.univ.image (fun i => V.key (t i)) ⊆ keys.erase k := by
    intro x hx
    obtain ⟨i, -, rfl⟩ := Finset.mem_image.mp hx
    exact Finset.mem_erase.mpr ⟨find_none hf i (hall i), hkeys i (hall i)⟩
  have hle := Finset.card_le_card hsub
  rw [Finset.card_image_of_injective _ hinj, Finset.card_univ, Fintype.card_fin] at hle
  have hlt := Finset.card_erase_lt_of_mem hk
  omega

/-- A table that holds as many keys as it has slots is full. -/
theorem vacant_none_of_card [DecidableEq κ] (keys : Finset κ) (hcard : n ≤ keys.card)
    (hkeys : ∀ k ∈ keys, ∃ i, V.inUse (t i) = true ∧ V.key (t i) = k) : vacant V t = none := by
  cases hv : vacant V t with
  | none => rfl
  | some i =>
    have hi := vacant_some hv
    have hsub : keys ⊆ (Finset.univ.erase i).image fun j => V.key (t j) := by
      intro k hk
      obtain ⟨j, hj, hjk⟩ := hkeys k hk
      have hne : j ≠ i := by
        rintro rfl
        simp [hi] at hj
      exact Finset.mem_image.mpr ⟨j, Finset.mem_erase.mpr ⟨hne, Finset.mem_univ j⟩, hjk⟩
    have hle := (Finset.card_le_card hsub).trans Finset.card_image_le
    rw [Finset.card_erase_of_mem (Finset.mem_univ i), Finset.card_univ, Fintype.card_fin] at hle
    have hpos := i.pos
    omega

/-- Writing a slot whose key no other occupied slot has keeps the keys distinct. -/
theorem Unique.update (hu : Unique V t) (i : Fin n) (s : σ)
    (hs : ∀ j, j ≠ i → V.inUse (t j) = true → V.inUse s = true → V.key (t j) ≠ V.key s) :
    Unique V (Function.update t i s) := by
  intro a b ha hb hab
  by_cases hai : a = i
  · by_cases hbi : b = i
    · rw [hai, hbi]
    · subst hai
      rw [Function.update_self] at ha hab
      rw [Function.update_of_ne hbi] at hb hab
      exact absurd hab.symm (hs b hbi hb ha)
  · by_cases hbi : b = i
    · subst hbi
      rw [Function.update_self] at hb hab
      rw [Function.update_of_ne hai] at ha hab
      exact absurd hab (hs a hai ha hb)
    · rw [Function.update_of_ne hai] at ha hab
      rw [Function.update_of_ne hbi] at hb hab
      exact hu a b ha hb hab

end MelsecMc.SlotTable
