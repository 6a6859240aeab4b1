import MelsecMc.SlotTable

/-!
# Tables of slots as bounded maps

A slot that also carries a value makes a table a map: the first occupied slot with
a key gives the value of the key, a new key takes a slot that is not occupied, and
a key is given up by taking the mark off. As long as the keys are distinct the
table is a map with at most as many keys as it has slots.
-/
namespace MelsecMc

/-- How the slots of a table are read and written. -/
structure SlotMap (σ κ β : Type*) extends SlotTable.View σ κ where
  value : σ → β
  fill : κ → β → σ
  revalue : σ → β → σ
  release : σ → σ
  fill_key : ∀ k b, key (fill k b) = k
  fill_inUse : ∀ k b, inUse (fill k b) = true
  fill_value : ∀ k b, value (fill k b) = b
  revalue_key : ∀ s b, key (revalue s b) = key s
  revalue_inUse : ∀ s b, inUse (revalue s b) = inUse s
  revalue_value : ∀ s b, value (revalue s b) = b
  release_inUse : ∀ s, inUse (release s) = false

namespace SlotMap

open SlotTable

variable {σ κ β : Type*} [DecidableEq κ] (S : SlotMap σ κ β) {n : ℕ}

/-- The map that a table stands for. -/
def lookup (t : Fin n → σ) (k : κ) : Option β := (find S.toView t k).map fun i => S.value (t i)

/-- The slot of `k`, or a new one, gets the value `b`. -/
def put (t : Fin n → σ) (k : κ) (b : β) : Option ((Fin n → σ) × Fin n) :=
  match find S.toView t k with
  | some i => some (Function.update t i (S.revalue (t i) b), i)
  | none => (vacant S.toView t).map fun i => (Function.update t i (S.fill k b), i)

def remove (t : Fin n → σ) (k : κ) : Fin n → σ :=
  match find S.toView t k with
  | some i => Function.update t i (S.release (t i))
  | none => t

/-- A map without the key `k` in which `n` other keys have a value. -/
def Full (n : ℕ) (m : κ → Option β) (k : κ) : Prop :=
  m k = none ∧ ∃ keys : Finset κ, keys.card = n ∧ k ∉ keys ∧ ∀ x ∈ keys, (m x).isSome = true

variable {S} {t : Fin n → σ}

theorem find_congr {t' : Fin n → σ} {k : κ}
    (h : ∀ j, (S.inUse (t' j) = true ∧ S.key (t' j) = k) ↔
      (S.inUse (t j) = true ∧ S.key (t j) = k)) :
    find S.toView t' k = find S.toView t k := by
  rw [find, find]
  congr 1
  funext j
  rw [Bool.eq_iff_iff]
  simpa using h j

/-- A slot is found that is the only one with its key. -/
theorem find_only {k : κ} {i : Fin n}
    (h : ∀ j, (S.inUse (t j) = true ∧ S.key (t j) = k) ↔ j = i) : find S.toView t k = some i := by
  obtain ⟨hi, hk⟩ := (h i).mpr rfl
  cases hf : find S.toView t k with
  | none => exact absurd hk (find_none hf i hi)
  | some j => rw [(h j).mp (find_some hf)]

/-- A new value does not move a slot. -/
theorem find_revalue (i : Fin n) (b : β) (k : κ) :
    find S.toView (Function.update t i (S.revalue (t i) b)) k = find S.toView t k := by
  apply find_congr
  intro j
  by_cases hj : j = i
  · subst hj
    rw [Function.update_self, S.revalue_key, S.revalue_inUse]
  · rw [Function.update_of_ne hj]

theorem find_fill {k : κ} {i : Fin n} (hf : find S.toView t k = none)
    (hi : S.inUse (t i) = false) (b : β) :
    find S.toView (Function.update t i (S.fill k b)) k = some i := by
  apply find_only
  intro j
  by_cases hj : j = i
  · subst hj
    simp [S.fill_key, S.fill_inUse]
  · rw [Function.update_of_ne hj]
    exact iff_of_false (fun h => find_none hf j h.1 h.2) hj

theorem find_fill_of_ne {k k' : κ} (hk : k' ≠ k) {i : Fin n} (hi : S.inUse (t i) = false) (b : β) :
    find S.toView (Function.update t i (S.fill k b)) k' = find S.toView t k' := by
  apply find_congr
  intro j
  by_cases hj : j = i
  · subst hj
    rw [Function.update_self, S.fill_key, hi]
    exact iff_of_false (fun h => hk h.2.symm) (by simp)
  · rw [Function.update_of_ne hj]

theorem find_release_of_ne {k k' : κ} (hk : k' ≠ k) {i : Fin n} (hi : S.key (t i) = k) :
    find S.toView (Function.update t i (S.release (t i))) k' = find S.toView t k' := by
  apply find_congr
  intro j
  by_cases hj : j = i
  · subst hj
    rw [Function.update_self, S.release_inUse, hi]
    exact iff_of_false (by simp) fun h => hk h.2.symm
  · rw [Function.update_of_ne hj]

/-- A slot that is not the one of `k` does not matter to the value of `k`. -/
theorem lookup_update {k : κ} {i : Fin n} {s : σ}
    (hf : find S.toView (Function.update t i s) k = find S.toView t k)
    (hi : find S.toView t k ≠ some i) : S.lookup (Function.update t i s) k = S.lookup t k := by
  rw [lookup, lookup, hf]
  cases h : find S.toView t k with
  | none => rfl
  | some j =>
    have hj : j ≠ i := fun heq => hi (heq ▸ h)
    rw [Option.map_some, Option.map_some, Function.update_of_ne hj]

theorem find_ne_of_key {k : κ} {i : Fin n} (hk : S.key (t i) ≠ k) : find S.toView t k ≠ some i :=
  fun h => hk (find_some h).2

theorem find_ne_of_inUse {k : κ} {i : Fin n} (hi : S.inUse (t i) = false) :
    find S.toView t k ≠ some i := by
  intro h
  rw [(find_some h).1] at hi
  cases hi

/-- What is put is found, and nothing else changes. -/
theorem lookup_put {k : κ} {b : β} {t' : Fin n → σ} {i : Fin n} (h : S.put t k b = some (t', i)) :
    S.lookup t' = Function.update (S.lookup t) k (some b) := by
  funext k'
  cases hf : find S.toView t k with
  | some j =>
    simp only [put, hf, Option.some.injEq, Prod.mk.injEq] at h
    obtain ⟨rfl, rfl⟩ := h
    by_cases hk : k' = k
    · subst hk
      rw [lookup, find_revalue, hf, Option.map_some, Function.update_self, Function.update_self,
        S.revalue_value]
    · rw [Function.update_of_ne hk]
      apply lookup_update (find_revalue j b k')
      apply find_ne_of_key
      rw [(find_some hf).2]
      exact Ne.symm hk
  | none =>
    simp only [put, hf, Option.map_eq_some_iff, Prod.mk.injEq] at h
    obtain ⟨j, hv, rfl, rfl⟩ := h
    have hj := vacant_some hv
    by_cases hk : k' = k
    · subst hk
      rw [lookup, find_fill hf hj, Option.map_some, Function.update_self, Function.update_self,
        S.fill_value]
    · rw [Function.update_of_ne hk]
      exact lookup_update (find_fill_of_ne hk hj b) (find_ne_of_inUse hj)

/-- What is removed is not found any more, and nothing else changes. -/
theorem lookup_remove (hu : Unique S.toView t) (k : κ) :
    S.lookup (S.remove t k) = Function.update (S.lookup t) k none := by
  funext k'
  cases hf : find S.toView t k with
  | none =>
    rw [remove, hf]
    by_cases hk : k' = k
    · subst hk
      rw [Function.update_self, lookup, hf]
      rfl
    · rw [Function.update_of_ne hk]
  | some i =>
    obtain ⟨hi, hki⟩ := find_some hf
    rw [remove, hf]
    by_cases hk : k' = k
    · subst hk
      have hgone : find S.toView (Function.update t i (S.release (t i))) k' = none := by
        rw [find, List.find?_eq_none]
        intro j _
        by_cases hj : j = i
        · subst hj
          simp [S.release_inUse]
        · rw [Function.update_of_ne hj]
          intro hboth
          obtain ⟨h1, h2⟩ : S.inUse (t j) = true ∧ S.key (t j) = k' := by simpa using hboth
          exact hj (hu j i h1 hi (h2.trans hki.symm))
      rw [Function.update_self, lookup, hgone]
      rfl
    · rw [Function.update_of_ne hk]
      apply lookup_update (find_release_of_ne hk hki)
      apply find_ne_of_key
      rw [hki]
      exact Ne.symm hk

theorem put_unique (hu : Unique S.toView t) {k : κ} {b : β} {t' : Fin n → σ} {i : Fin n}
    (h : S.put t k b = some (t', i)) : Unique S.toView t' := by
  cases hf : find S.toView t k with
  | some j =>
    simp only [put, hf, Option.some.injEq, Prod.mk.injEq] at h
    obtain ⟨rfl, rfl⟩ := h
    apply hu.update
    intro l hl hused _ heq
    rw [S.revalue_key] at heq
    exact hl (hu l j hused (find_some hf).1 heq)
  | none =>
    simp only [put, hf, Option.map_eq_some_iff, Prod.mk.injEq] at h
    obtain ⟨j, -, rfl, rfl⟩ := h
    apply hu.update
    intro l _ hused _ heq
    rw [S.fill_key] at heq
    exact find_none hf l hused heq

theorem remove_unique (hu : Unique S.toView t) (k : κ) : Unique S.toView (S.remove t k) := by
  rw [remove]
  split
  · apply hu.update
    intro l _ _ hused
    rw [S.release_inUse] at hused
    cases hused
  · exact hu

theorem lookup_isSome {k : κ} :
    (S.lookup t k).isSome = true ↔ ∃ i, S.inUse (t i) = true ∧ S.key (t i) = k := by
  rw [lookup, Option.isSome_map]
  cases hf : find S.toView t k with
  | some i => exact iff_of_true rfl ⟨i, find_some hf⟩
  | none =>
    apply iff_of_false (by simp)
    intro hex
    obtain ⟨i, hi, hk⟩ := hex
    exact find_none hf i hi hk

/-- A key is refused exactly when the map is full without it. -/
theorem put_eq_none_iff (hu : Unique S.toView t) (k : κ) (b : β) :
    S.put t k b = none ↔ Full n (S.lookup t) k := by
  cases hf : find S.toView t k with
  | some i =>
    apply iff_of_false
    · simp [put, hf]
    · intro hfull
      have hnone := hfull.1
      rw [lookup, hf] at hnone
      cases hnone
  | none =>
    have hnone : S.lookup t k = none := by rw [lookup, hf]; rfl
    simp only [put, hf, Option.map_eq_none_iff]
    constructor
    · intro hv
      have hall : ∀ i, S.inUse (t i) = true := by
        intro i
        simpa using List.find?_eq_none.mp hv i (List.mem_finRange i)
      have hinj : Function.Injective fun i => S.key (t i) :=
        fun i j hij => hu i j (hall i) (hall j) hij
      refine ⟨hnone, Finset.univ.image fun i => S.key (t i), ?_, ?_, ?_⟩
      · rw [Finset.card_image_of_injective _ hinj, Finset.card_univ, Fintype.card_fin]
      · intro hmem
        obtain ⟨i, -, hi⟩ := Finset.mem_image.mp hmem
        exact find_none hf i (hall i) hi
      · intro x hx
        obtain ⟨i, -, hi⟩ := Finset.mem_image.mp hx
        exact lookup_isSome.mpr ⟨i, hall i, hi⟩
    · intro hfull
      obtain ⟨-, keys, hcard, -, hkeys⟩ := hfull
      exact vacant_none_of_card keys hcard.ge fun x hx => lookup_isSome.mp (hkeys x hx)

end SlotMap

end MelsecMc
