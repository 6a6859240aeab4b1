import MelsecMc.CTypes
import MelsecMc.SlotTable

/-!
# The transaction mutexes of the descriptors (melsec_mc_bin.c, melsec_mc_ascii.c)

Each protocol module has a table of 64 slots with one mutex each. The first
transaction on a descriptor takes the first slot that is not in use, and later
ones find it there. No slot is ever given back.
-/
namespace MelsecMc

/-- `MAX_TX_CONNECTIONS`. -/
abbrev maxTxConnections : ℕ := 64

/-- `mc_tx_connection_lock_t`, apart from the state of the mutex. -/
structure TxLock where
  fd : ℤ
  inUse : Bool
  txMutexInitialized : Bool
  deriving DecidableEq, Repr

/-- `g_tx_connection_locks`. -/
abbrev TxLocks := Fin maxTxConnections → TxLock

namespace TxLocks

/-- Static storage. -/
def initial : TxLocks := fun _ => ⟨0, false, false⟩

def view : SlotTable.View TxLock ℤ := ⟨TxLock.fd, TxLock.inUse⟩

/-- The loop over the slots in use, in both functions. -/
def find (locks : TxLocks) (fd : ℤ) : Option (Fin maxTxConnections) :=
  SlotTable.find view locks fd

/-- The loop over the slots that are not in use. -/
def vacant (locks : TxLocks) : Option (Fin maxTxConnections) := SlotTable.vacant view locks

/-- A slot is taken. It is given back when its mutex cannot be initialised. -/
def take (locks : TxLocks) (fd : ℤ) (i : Fin maxTxConnections) (mutexInit : Bool) :
    TxLocks × Option (Fin maxTxConnections) :=
  if (locks i).txMutexInitialized ∨ mutexInit then
    (Function.update locks i ⟨fd, true, true⟩, some i)
  else (Function.update locks i ⟨fd, false, false⟩, none)

/-- `mc_get_or_create_fd_tx_mutex_locked`. -/
def mcGetOrCreateFdTxMutexLocked (locks : TxLocks) (fd : ℤ) (mutexInit : Bool) :
    TxLocks × Option (Fin maxTxConnections) :=
  match locks.find fd with
  | some i => (locks, some i)
  | none =>
    match locks.vacant with
    | some i => locks.take fd i mutexInit
    | none => (locks, none)

/-- Slot `i` is in use for `fd`. -/
def Serves (locks : TxLocks) (fd : ℤ) (i : Fin maxTxConnections) : Prop :=
  (locks i).inUse = true ∧ (locks i).fd = fd

/-- No descriptor has two slots. -/
def Unique (locks : TxLocks) : Prop := SlotTable.Unique view locks

variable {locks : TxLocks} {fd fd' : ℤ} {i j : Fin maxTxConnections}

theorem Serves.slot_unique (hu : locks.Unique) (hi : locks.Serves fd i) (hj : locks.Serves fd j) :
    i = j :=
  hu i j hi.1 hj.1 (hi.2.trans hj.2.symm)

theorem Serves.fd_unique (hi : locks.Serves fd i) (hj : locks.Serves fd' i) : fd = fd' :=
  hi.2.symm.trans hj.2

theorem serves_of_find (h : locks.find fd = some i) : locks.Serves fd i :=
  SlotTable.find_some h

theorem not_serves_of_find (h : locks.find fd = none) (i : Fin maxTxConnections) :
    ¬ locks.Serves fd i :=
  fun hi => SlotTable.find_none h i hi.1 hi.2

theorem find_of_serves (hu : locks.Unique) (h : locks.Serves fd i) : locks.find fd = some i :=
  SlotTable.find_unique hu h.1 h.2

/-- Descriptors that are at most 64 never fill the table. -/
theorem exists_vacant (hu : locks.Unique) {fds : Finset ℤ} (hcard : fds.card ≤ maxTxConnections)
    (hkeys : ∀ fd i, locks.Serves fd i → fd ∈ fds) (hfd : fd ∈ fds)
    (hnone : ∀ i, ¬ locks.Serves fd i) : ∃ i, locks.vacant = some i := by
  have hfind : locks.find fd = none := by
    cases hf : locks.find fd with
    | none => rfl
    | some i => exact absurd (serves_of_find hf) (hnone i)
  exact SlotTable.vacant_of_card hu fds hcard (fun i hi => hkeys _ i ⟨hi, rfl⟩) hfd hfind

/-- The table after slot `i` was taken for `fd`. -/
def claim (locks : TxLocks) (fd : ℤ) (i : Fin maxTxConnections) : TxLocks :=
  Function.update locks i ⟨fd, true, true⟩

theorem take_init (locks : TxLocks) (fd : ℤ) (i : Fin maxTxConnections) :
    locks.take fd i true = (locks.claim fd i, some i) := by
  simp [take, claim]

theorem claim_serves_self : (locks.claim fd i).Serves fd i := by
  simp [claim, Serves]

/-- Taking a vacant slot takes it from nobody. -/
theorem Serves.claim (h : locks.Serves fd' j) (hi : (locks i).inUse = false) :
    (locks.claim fd i).Serves fd' j := by
  have hne : j ≠ i := by
    rintro rfl
    rw [h.1] at hi
    simp at hi
  unfold TxLocks.claim Serves
  rw [Function.update_of_ne hne]
  exact h

theorem serves_of_claim (h : (locks.claim fd i).Serves fd' j) (hne : fd' ≠ fd) :
    locks.Serves fd' j := by
  unfold claim Serves at h
  by_cases hj : j = i
  · subst hj
    rw [Function.update_self] at h
    exact absurd h.2.symm hne
  · rw [Function.update_of_ne hj] at h
    exact h

theorem Unique.claim (hu : locks.Unique) (hnone : ∀ j, ¬ locks.Serves fd j) :
    (locks.claim fd i).Unique :=
  SlotTable.Unique.update hu i _ fun j _ hj _ hk => hnone j ⟨hj, hk⟩

/-- The slot of the descriptor is found, or a vacant one is taken, or there is no slot. -/
theorem getOrCreate_cases (locks : TxLocks) (fd : ℤ) (mutexInit : Bool) :
    (∃ i, locks.Serves fd i ∧
      locks.mcGetOrCreateFdTxMutexLocked fd mutexInit = (locks, some i)) ∨
    locks.mcGetOrCreateFdTxMutexLocked fd mutexInit = (locks, none) ∨
    ∃ i, (∀ j, ¬ locks.Serves fd j) ∧ (locks i).inUse = false ∧
      (locks.mcGetOrCreateFdTxMutexLocked fd mutexInit = (locks.claim fd i, some i) ∨
        locks.mcGetOrCreateFdTxMutexLocked fd mutexInit =
          (Function.update locks i ⟨fd, false, false⟩, none)) := by
  rw [mcGetOrCreateFdTxMutexLocked]
  cases hf : locks.find fd with
  | some i => exact .inl ⟨i, serves_of_find hf, rfl⟩
  | none =>
    cases hv : locks.vacant with
    | none => exact .inr (.inl rfl)
    | some i =>
      refine .inr (.inr ⟨i, not_serves_of_find hf, SlotTable.vacant_some hv, ?_⟩)
      simp only [take]
      split
      · exact .inl rfl
      · exact .inr rfl

/-- A slot that is in use stays as it is. -/
theorem slot_getOrCreate (hj : (locks j).inUse = true) (fd : ℤ) (mutexInit : Bool) :
    (locks.mcGetOrCreateFdTxMutexLocked fd mutexInit).1 j = locks j := by
  rcases getOrCreate_cases locks fd mutexInit with
    ⟨i, -, heq⟩ | heq | ⟨i, -, hi, heq⟩
  · rw [heq]
  · rw [heq]
  · have hne : j ≠ i := by
      rintro rfl
      simp [hi] at hj
    rcases heq with heq | heq
    · rw [heq]
      exact Function.update_of_ne hne ..
    · rw [heq]
      exact Function.update_of_ne hne ..

theorem serves_getOrCreate_iff (hj : (locks j).inUse = true) (fd : ℤ) (mutexInit : Bool) :
    (locks.mcGetOrCreateFdTxMutexLocked fd mutexInit).1.Serves fd' j ↔ locks.Serves fd' j := by
  rw [Serves, Serves, slot_getOrCreate hj]

theorem Serves.getOrCreate (h : locks.Serves fd' j) (fd : ℤ) (mutexInit : Bool) :
    (locks.mcGetOrCreateFdTxMutexLocked fd mutexInit).1.Serves fd' j :=
  (serves_getOrCreate_iff h.1 fd mutexInit).mpr h

theorem Unique.getOrCreate (hu : locks.Unique) (fd : ℤ) (mutexInit : Bool) :
    (locks.mcGetOrCreateFdTxMutexLocked fd mutexInit).1.Unique := by
  rcases getOrCreate_cases locks fd mutexInit with
    ⟨i, -, heq⟩ | heq | ⟨i, hnone, -, heq | heq⟩ <;> rw [heq]
  · exact hu
  · exact hu
  · exact hu.claim hnone
  · exact SlotTable.Unique.update hu i _ fun j _ _ hs => by simp [view] at hs

/-- The slot that is returned is in use for the descriptor. -/
theorem serves_of_getOrCreate {mutexInit : Bool}
    (h : (locks.mcGetOrCreateFdTxMutexLocked fd mutexInit).2 = some i) :
    (locks.mcGetOrCreateFdTxMutexLocked fd mutexInit).1.Serves fd i := by
  rcases getOrCreate_cases locks fd mutexInit with
    ⟨j, hj, heq⟩ | heq | ⟨j, -, -, heq | heq⟩ <;> rw [heq] at h ⊢
  · exact Option.some.inj h ▸ hj
  · cases h
  · exact Option.some.inj h ▸ claim_serves_self
  · cases h

end TxLocks

end MelsecMc
