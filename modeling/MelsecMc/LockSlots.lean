import MelsecMc.Call
import MelsecMc.TxLocks

/-!
# The slots of the transaction mutexes over a run

Connections are opened and closed, and both modules make transactions on them.
The first transaction on a descriptor takes a slot of its module, and closing the
connection does not give it back. The first 64 descriptors with a transaction
keep the slots for good, however few connections are open at a time.
-/
namespace MelsecMc

/-- `mc_lock_fd_transaction` while no other thread has the mutex. -/
def TxLocks.mcLockFdTransaction (locks : TxLocks) (fd : ℤ) (mutexInit : Bool) :
    ErrorCode × TxLocks :=
  if fd ≤ 0 then (.invalidParameter, locks)
  else
    match locks.mcGetOrCreateFdTxMutexLocked fd mutexInit with
    | (locks, none) => (.failed, locks)
    | (locks, some _) => (.success, locks)

/-- A call that succeeds in opening a connection with the descriptor `fd`, that makes a
transaction, where `mutexInit` tells whether a mutex can be initialised, or that closes `fd`. -/
inductive SocketCall where
  | connect (fd : ℤ)
  | transaction (m : Module) (fd : ℤ) (mutexInit : Bool)
  | disconnect (fd : ℤ)
  deriving DecidableEq

/-- The descriptors that are open, and `g_tx_connection_locks` of both modules. -/
structure Sockets where
  openFds : Finset ℤ
  locks : Module → TxLocks

namespace Sockets

/-- A process that was just started. -/
def initial : Sockets := ⟨∅, fun _ => .initial⟩

/-- `mc_disconnect` does not touch the transaction mutexes. -/
def after (s : Sockets) : SocketCall → Sockets
  | .connect fd => { s with openFds := insert fd s.openFds }
  | .transaction m fd mutexInit => { s with
      locks := Function.update s.locks m ((s.locks m).mcLockFdTransaction fd mutexInit).2 }
  | .disconnect fd => { s with openFds := s.openFds.erase fd }

/-- The system gives a new connection a positive descriptor that is not open, and at most 32
connections are open. -/
def Allows (s : Sockets) : SocketCall → Prop
  | .connect fd => 0 < fd ∧ fd ∉ s.openFds ∧ s.openFds.card < 32
  | _ => True

end Sockets

/-- The state after `calls`. -/
def socketsAfter (calls : List SocketCall) : Sockets := calls.foldl Sockets.after .initial

/-- Every call of the run is possible when it is made. -/
def Allowed (calls : List SocketCall) : Prop :=
  ∀ before c, before ++ [c] <+: calls → (socketsAfter before).Allows c

/-- A transaction with a new descriptor takes a slot of its module while there is one. -/
def SocketCall.own (m : Module) (owners : Finset ℤ) : SocketCall → Finset ℤ
  | transaction m' fd mutexInit =>
    if m' = m ∧ 0 < fd ∧ mutexInit ∧ owners.card < maxTxConnections then insert fd owners
    else owners
  | _ => owners

/-- The first 64 descriptors on which module `m` started a transaction. -/
def slotOwners (m : Module) (calls : List SocketCall) : Finset ℤ :=
  calls.foldl (SocketCall.own m) ∅

namespace TxLocks

/-- The descriptors `owners` have the slots that are in use; the others were never used. -/
structure OwnedBy (locks : TxLocks) (owners : Finset ℤ) : Prop where
  unique : locks.Unique
  keys : ∀ fd, fd ∈ owners ↔ ∃ i, locks.Serves fd i
  unused : ∀ i, (locks i).inUse = false → (locks i).txMutexInitialized = false

variable {locks : TxLocks} {owners : Finset ℤ} {fd : ℤ}

theorem ownedBy_initial : initial.OwnedBy ∅ where
  unique i j hi := by simp [view, initial] at hi
  keys fd := by simp [Serves, initial]
  unused i _ := rfl

namespace OwnedBy

theorem find_eq_none (h : locks.OwnedBy owners) : locks.find fd = none ↔ fd ∉ owners := by
  rw [h.keys]
  constructor
  · rintro hf ⟨i, hi⟩
    exact not_serves_of_find hf i hi
  · intro hno
    cases hf : locks.find fd with
    | none => rfl
    | some i => exact absurd ⟨i, serves_of_find hf⟩ hno

/-- There is a vacant slot as long as fewer than 64 are owned. -/
theorem vacant_isSome (h : locks.OwnedBy owners) (hfd : fd ∉ owners) :
    locks.vacant.isSome ↔ owners.card < maxTxConnections := by
  constructor
  · intro hv
    by_contra hcard
    have hnone : locks.vacant = none :=
      SlotTable.vacant_none_of_card owners (not_lt.mp hcard) fun k hk => (h.keys k).mp hk
    rw [hnone] at hv
    cases hv
  · intro hcard
    have hle : (insert fd owners).card ≤ maxTxConnections := by
      rw [Finset.card_insert_of_notMem hfd]
      exact hcard
    obtain ⟨i, hi⟩ := exists_vacant h.unique hle
      (fun k i hk => Finset.mem_insert_of_mem ((h.keys k).mpr ⟨i, hk⟩))
      (Finset.mem_insert_self fd owners) fun i hi => hfd ((h.keys fd).mpr ⟨i, hi⟩)
    rw [hi]
    rfl

/-- A vacant slot is taken. -/
theorem claim (h : locks.OwnedBy owners) (hfd : fd ∉ owners) {i : Fin maxTxConnections}
    (hi : (locks i).inUse = false) : (locks.claim fd i).OwnedBy (insert fd owners) where
  unique := h.unique.claim fun j hj => hfd ((h.keys fd).mpr ⟨j, hj⟩)
  keys fd' := by
    rw [Finset.mem_insert, h.keys]
    constructor
    · rintro (rfl | ⟨j, hj⟩)
      · exact ⟨i, claim_serves_self⟩
      · exact ⟨j, hj.claim hi⟩
    · rintro ⟨j, hj⟩
      by_cases hne : fd' = fd
      · exact .inl hne
      · exact .inr ⟨j, serves_of_claim hj hne⟩
  unused j hj := by
    by_cases hji : j = i
    · subst hji
      simp [TxLocks.claim] at hj
    · rw [TxLocks.claim, Function.update_of_ne hji] at hj ⊢
      exact h.unused j hj

/-- A slot that is given back is vacant again. -/
theorem giveBack (h : locks.OwnedBy owners) {i : Fin maxTxConnections}
    (hi : (locks i).inUse = false) :
    TxLocks.OwnedBy (Function.update locks i ⟨fd, false, false⟩) owners where
  unique := h.unique.update i _ fun j _ _ hf => by simp [view] at hf
  keys fd' := by
    rw [h.keys]
    refine exists_congr fun j => ?_
    by_cases hji : j = i
    · subst hji
      simp [Serves, hi]
    · rw [Serves, Serves, Function.update_of_ne hji]
  unused j hj := by
    by_cases hji : j = i
    · subst hji
      simp
    · rw [Function.update_of_ne hji] at hj ⊢
      exact h.unused j hj

/-- The mutex of a descriptor is found, or there is a slot for it. -/
theorem lock_success_iff (h : locks.OwnedBy owners) (hfd : 0 < fd) :
    (locks.mcLockFdTransaction fd true).1 = .success ↔
      fd ∈ owners ∨ owners.card < maxTxConnections := by
  rw [mcLockFdTransaction, if_neg (by omega), mcGetOrCreateFdTxMutexLocked]
  cases hf : locks.find fd with
  | some i => simp [(h.keys fd).mpr ⟨i, serves_of_find hf⟩]
  | none =>
    have hno := h.find_eq_none.mp hf
    have hvacant := h.vacant_isSome hno
    cases hv : locks.vacant with
    | none => simpa [hv, hno] using hvacant
    | some i => simpa [hv, hno, take_init] using hvacant

/-- What a transaction does to the table. -/
theorem lock (h : locks.OwnedBy owners) (m : Module) (fd : ℤ) (mutexInit : Bool) :
    (locks.mcLockFdTransaction fd mutexInit).2.OwnedBy
      ((SocketCall.transaction m fd mutexInit).own m owners) := by
  rw [SocketCall.own, mcLockFdTransaction]
  by_cases hpos : 0 < fd
  · rw [if_neg (by omega), mcGetOrCreateFdTxMutexLocked]
    cases hf : locks.find fd with
    | some i =>
      have hmem : insert fd owners = owners :=
        Finset.insert_eq_of_mem ((h.keys fd).mpr ⟨i, serves_of_find hf⟩)
      simpa [hmem] using h
    | none =>
      have hno := h.find_eq_none.mp hf
      have hvacant := h.vacant_isSome hno
      cases hv : locks.vacant with
      | none =>
        have hfull : ¬ owners.card < maxTxConnections := by simpa [hv] using hvacant
        simpa [hfull] using h
      | some i =>
        have hroom : owners.card < maxTxConnections := by simpa [hv] using hvacant
        have hi := SlotTable.vacant_some hv
        cases mutexInit with
        | true => simpa [take_init, hpos, hroom] using h.claim hno hi
        | false => simpa [take, h.unused i hi] using h.giveBack hi
  · rw [if_pos (by omega), if_neg (by simp [hpos])]
    exact h

end OwnedBy

end TxLocks

section Run

variable {calls : List SocketCall} {m : Module}

theorem slotOwners_append (calls : List SocketCall) (c : SocketCall) :
    slotOwners m (calls ++ [c]) = c.own m (slotOwners m calls) := by
  simp [slotOwners]

theorem socketsAfter_append (calls : List SocketCall) (c : SocketCall) :
    socketsAfter (calls ++ [c]) = (socketsAfter calls).after c := by
  simp [socketsAfter]

/-- After every run the slots in use belong to the first 64 descriptors with a transaction. -/
theorem slots_owned (m : Module) (calls : List SocketCall) :
    ((socketsAfter calls).locks m).OwnedBy (slotOwners m calls) := by
  induction calls using List.reverseRecOn with
  | nil => exact TxLocks.ownedBy_initial
  | append_singleton calls c ih =>
    rw [slotOwners_append, socketsAfter_append]
    cases c with
    | connect fd => exact ih
    | disconnect fd => exact ih
    | transaction m' fd mutexInit =>
      by_cases hm : m' = m
      · subst hm
        simpa [Sockets.after] using ih.lock m' fd mutexInit
      · simpa [Sockets.after, SocketCall.own, hm, Function.update_of_ne (Ne.symm hm)] using ih

theorem Allowed.of_prefix {before : List SocketCall} (h : Allowed calls)
    (hbefore : before <+: calls) : Allowed before :=
  fun b c hc => h b c (hc.trans hbefore)

/-- The descriptors that are open are positive. -/
theorem openFds_pos (h : Allowed calls) {fd : ℤ} (hfd : fd ∈ (socketsAfter calls).openFds) :
    0 < fd := by
  induction calls using List.reverseRecOn with
  | nil => simp [socketsAfter, Sockets.initial] at hfd
  | append_singleton calls c ih =>
    have hcalls : Allowed calls := h.of_prefix (List.prefix_append _ _)
    rw [socketsAfter_append] at hfd
    cases c with
    | connect fd' =>
      rcases Finset.mem_insert.mp hfd with rfl | hmem
      · exact (h calls (.connect fd) List.prefix_rfl).1
      · exact ih hcalls hmem
    | transaction m' fd' mutexInit => exact ih hcalls hfd
    | disconnect fd' => exact ih hcalls (Finset.mem_of_mem_erase hfd)

theorem allowed_append {c : SocketCall} :
    Allowed (calls ++ [c]) ↔ Allowed calls ∧ (socketsAfter calls).Allows c := by
  constructor
  · intro h
    exact ⟨h.of_prefix (List.prefix_append _ _), h calls c List.prefix_rfl⟩
  · rintro ⟨h, hc⟩ before d hd
    rcases List.prefix_concat_iff.mp hd with heq | hd
    · obtain ⟨rfl, hdc⟩ := List.append_inj' heq rfl
      obtain rfl := List.singleton_inj.mp hdc
      exact hc
    · exact h before d hd

/-- There is at most one slot for each call. -/
theorem slotOwners_card_le (m : Module) (calls : List SocketCall) :
    (slotOwners m calls).card ≤ calls.length := by
  induction calls using List.reverseRecOn with
  | nil => simp [slotOwners]
  | append_singleton calls c ih =>
    rw [slotOwners_append, List.length_append, List.length_singleton]
    cases c with
    | connect fd => exact ih.trans (Nat.le_succ _)
    | disconnect fd => exact ih.trans (Nat.le_succ _)
    | transaction m' fd mutexInit =>
      rw [SocketCall.own]
      split
      · exact (Finset.card_insert_le _ _).trans (Nat.succ_le_succ ih)
      · exact ih.trans (Nat.le_succ _)

theorem mem_own_self {owners : Finset ℤ} {fd : ℤ} (hfd : 0 < fd) :
    fd ∈ (SocketCall.transaction m fd true).own m owners ↔
      fd ∈ owners ∨ owners.card < maxTxConnections := by
  rw [SocketCall.own]
  by_cases hcard : owners.card < maxTxConnections
  · simp [hfd, hcard]
  · simp [hcard]

end Run

/-- No transaction of the run on an open connection fails for want of a slot: each of them gets
its mutex if a mutex can be initialised. -/
def NeverRefused (m : Module) (calls : List SocketCall) : Prop :=
  ∀ before fd mutexInit, before ++ [.transaction m fd mutexInit] <+: calls →
    fd ∈ (socketsAfter before).openFds →
    (((socketsAfter before).locks m).mcLockFdTransaction fd true).1 = .success

/-- Every transaction of the run on an open connection has one of the first 64 descriptors on which
a transaction was started. -/
def WithinSlots (m : Module) (calls : List SocketCall) : Prop :=
  ∀ before fd mutexInit, before ++ [.transaction m fd mutexInit] <+: calls →
    fd ∈ (socketsAfter before).openFds →
    fd ∈ slotOwners m (before ++ [.transaction m fd true])

/-- The slots do not run out exactly in the runs whose transactions on open connections are on the
first 64 descriptors. -/
theorem slots_suffice_iff (m : Module) (calls : List SocketCall) (h : Allowed calls) :
    NeverRefused m calls ↔ WithinSlots m calls := by
  have hone : ∀ before fd mutexInit, before ++ [.transaction m fd mutexInit] <+: calls →
      fd ∈ (socketsAfter before).openFds →
      ((((socketsAfter before).locks m).mcLockFdTransaction fd true).1 = .success ↔
        fd ∈ slotOwners m (before ++ [.transaction m fd true])) := by
    intro before fd mutexInit hprefix hopen
    have hbefore : Allowed before := h.of_prefix ((List.prefix_append _ _).trans hprefix)
    have hpos := openFds_pos hbefore hopen
    rw [(slots_owned m before).lock_success_iff hpos, slotOwners_append, mem_own_self hpos]
  constructor
  · intro hnever before fd mutexInit hprefix hopen
    exact (hone before fd mutexInit hprefix hopen).mp (hnever before fd mutexInit hprefix hopen)
  · intro hwithin before fd mutexInit hprefix hopen
    exact (hone before fd mutexInit hprefix hopen).mpr (hwithin before fd mutexInit hprefix hopen)

/-- A run of at most 64 calls is within the slots. -/
theorem withinSlots_of_length {m : Module} {calls : List SocketCall} (h : Allowed calls)
    (hlen : calls.length ≤ maxTxConnections) : WithinSlots m calls := by
  intro before fd mutexInit hprefix hopen
  have hbefore : Allowed before := h.of_prefix ((List.prefix_append _ _).trans hprefix)
  rw [slotOwners_append, mem_own_self (openFds_pos hbefore hopen)]
  have hcard := slotOwners_card_le m before
  have hshort := hprefix.length_le
  rw [List.length_append, List.length_singleton] at hshort
  exact .inr (by omega)

/-- Connections one after the other, each with one transaction and a descriptor of its own. -/
def cycles : ℕ → List SocketCall
  | 0 => []
  | n + 1 => cycles n ++ [.connect (n + 1), .transaction .binary (n + 1) true, .disconnect (n + 1)]

theorem allowed_nil : Allowed [] := by
  intro before c h
  simp at h

/-- Only one connection is open at a time, and each takes a slot. -/
theorem cycles_spec (n : ℕ) : Allowed (cycles n) ∧ (socketsAfter (cycles n)).openFds = ∅ ∧
    (n ≤ maxTxConnections → slotOwners .binary (cycles n) = Finset.Icc 1 (n : ℤ)) := by
  induction n with
  | zero => exact ⟨allowed_nil, rfl, fun _ => rfl⟩
  | succ n ih =>
    obtain ⟨hallowed, hopen, howners⟩ := ih
    have happend : cycles (n + 1) = cycles n ++ [.connect (n + 1)] ++
        [.transaction .binary (n + 1) true] ++ [.disconnect (n + 1)] := by simp [cycles]
    rw [happend]
    refine ⟨?_, ?_, fun hn => ?_⟩
    · rw [allowed_append, allowed_append, allowed_append]
      have hconnect : (socketsAfter (cycles n)).Allows (.connect (n + 1)) := by
        simp only [Sockets.Allows, hopen]
        exact ⟨by omega, by simp, by simp⟩
      exact ⟨⟨⟨hallowed, hconnect⟩, trivial⟩, trivial⟩
    · simp only [socketsAfter_append, Sockets.after, hopen]
      simp
    · have hcard : (Finset.Icc 1 (n : ℤ)).card < maxTxConnections := by
        rw [Int.card_Icc]
        omega
      simp only [slotOwners_append, SocketCall.own, howners (by omega), hcard]
      rw [if_pos ⟨trivial, by omega, trivial, trivial⟩]
      ext k
      simp only [Finset.mem_insert, Finset.mem_Icc]
      omega

/-- One connection with one transaction. -/
theorem slots_suffice_once : NeverRefused .binary (cycles 1) :=
  (slots_suffice_iff .binary (cycles 1) (cycles_spec 1).1).mpr
    (withinSlots_of_length (cycles_spec 1).1 (by decide))

/-- With one connection open at a time, the transaction on the 65th is refused. -/
theorem slots_run_out :
    Allowed (cycles 64 ++ [.connect 65] ++ [.transaction .binary 65 true]) ∧
      ¬ NeverRefused .binary (cycles 64 ++ [.connect 65] ++ [.transaction .binary 65 true]) := by
  obtain ⟨hallowed, hopen, howners⟩ := cycles_spec 64
  have hconnect : (socketsAfter (cycles 64)).Allows (.connect 65) := by
    simp [Sockets.Allows, hopen]
  refine ⟨allowed_append.mpr ⟨allowed_append.mpr ⟨hallowed, hconnect⟩, trivial⟩, fun hnever => ?_⟩
  have hlock := hnever _ 65 true List.prefix_rfl (by simp [socketsAfter_append, Sockets.after])
  rw [(slots_owned .binary _).lock_success_iff (by decide), slotOwners_append] at hlock
  simp only [SocketCall.own, howners le_rfl, Int.card_Icc, Finset.mem_Icc,
    maxTxConnections] at hlock
  omega

end MelsecMc
