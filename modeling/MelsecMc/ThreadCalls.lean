import MelsecMc.SendPhase
import MelsecMc.Threads

/-!
# The steps of a thread are those of one call

Undisturbed, the steps of a thread at the table compute
`mc_get_or_create_fd_tx_mutex_locked`. The pieces that a thread sends and
receives are the returns of `send` and `recv` in the send phase and in
`mc_read_response`, so both models of a call agree on what it sends and returns.
-/
namespace MelsecMc

open FramedStream

section Table

variable {T : Type*} {P : Protocol}

/-- One step of thread `t` in its call number `c`. -/
def OwnStep (P : Protocol) (t : T) (c : ℕ) (j : Job) (x y : Pc × Shared T) : Prop :=
  ∃ a, Next P j x.1 a y.1 ∧ x.2.effect t c j.fd a y.2

/-- The steps between locking and unlocking `g_connection_mutex` find or take a slot. -/
theorem search_steps (t : T) (c : ℕ) (j : Job) (s : Shared T) :
    ∃ slot s', Relation.ReflTransGen (OwnStep P t c j) (.find, s) (.unlockG slot, s') ∧
      (s'.locks, slot) = s.locks.mcGetOrCreateFdTxMutexLocked j.fd true := by
  unfold TxLocks.mcGetOrCreateFdTxMutexLocked
  cases hf : s.locks.find j.fd with
  | some i => exact ⟨some i, _, .single ⟨_, .found i, hf, rfl⟩, rfl⟩
  | none =>
    have hfind : OwnStep P t c j (.find, s) (.vacant, s) := ⟨_, .notFound, hf, by simp⟩
    cases hv : s.locks.vacant with
    | none =>
      have hfull : OwnStep P t c j (.vacant, s) (.unlockG none, s) := ⟨_, .full, hv, rfl⟩
      exact ⟨none, s, .tail (.single hfind) hfull, rfl⟩
    | some i =>
      have hpick : OwnStep P t c j (.vacant, s) (.create i, s) := ⟨_, .vacant i, hv, rfl⟩
      have hcreate : OwnStep P t c j (.create i, s) (.unlockG (some i), _) :=
        ⟨_, .create i, rfl⟩
      refine ⟨some i, _, .tail (.tail (.single hfind) hpick) hcreate, ?_⟩
      simp only
      rw [TxLocks.take_init]

end Table

/-- The returns of `send`. -/
def sendEvents : List Act → List SendEvent :=
  List.filterMap fun
    | .send piece => some (.accept (piece.length - 1))
    | _ => none

/-- The returns of `recv`. -/
def recvEvents : List Act → List Event :=
  List.filterMap fun
    | .recv piece => some (.deliver (piece.length - 1))
    | _ => none

/-- The bytes that were received. -/
def received : List Act → List Byte :=
  List.flatMap fun
    | .recv piece => piece
    | _ => []

/-- The part of a call from the first byte of the request to the last one of the response. -/
inductive Transfers (P : Protocol) (j : Job) : Pc → List Act → Reply → Prop where
  | send {n : ℕ} {left left' : List Byte} {a : Act} {acts : List Act} {out : Reply}
      (h : Next P j (.send n left) a (.send n left'))
      (hr : Transfers P j (.send n left') acts out) :
      Transfers P j (.send n left) (a :: acts) out
  | sent {n : ℕ} {left : List Byte} {a : Act} {acts : List Act} {out : Reply}
      (h : Next P j (.send n left) a (.recv n [])) (hr : Transfers P j (.recv n []) acts out) :
      Transfers P j (.send n left) (a :: acts) out
  | recv {n : ℕ} {got got' : List Byte} {a : Act} {acts : List Act} {out : Reply}
      (h : Next P j (.recv n got) a (.recv n got')) (hr : Transfers P j (.recv n got') acts out) :
      Transfers P j (.recv n got) (a :: acts) out
  | done {n : ℕ} {got : List Byte} {a : Act} {out : Reply}
      (h : Next P j (.recv n got) a (.relockG out)) : Transfers P j (.recv n got) [a] out

section Transfers

variable {P : Protocol} {j : Job} {acts : List Act} {out : Reply}

/-- What is received completes the frame that is returned. -/
theorem Transfers.resume {n : ℕ} {got : List Byte} (h : Transfers P j (.recv n got) acts out)
    (hs : out.code = .success) : sendEvents acts = [] ∧ ∀ stream,
      FramedStream.resume P.response got (recvEvents acts) (received acts ++ stream) =
        ⟨.complete, out.response, stream, []⟩ := by
  generalize hpc : Pc.recv n got = pc at h
  induction h generalizing got with
  | send h hr ih => cases hpc
  | sent h hr ih => cases hpc
  | recv h hr ih =>
    cases hpc
    cases h with
    | recv _ _ piece hp hw =>
      obtain ⟨hsend, hrecv⟩ := ih hs rfl
      refine ⟨hsend, fun stream => ?_⟩
      have hstep := resume_piece P.response hp hw
      simp only [recvEvents, received, List.filterMap_cons, List.flatMap_cons,
        List.append_assoc] at hrecv ⊢
      rw [hstep]
      exact hrecv stream
  | done h =>
    cases hpc
    cases h with
    | badHeader => simp at hs
    | complete _ _ hg => exact ⟨rfl, fun stream => resume_frame P.response hg [] stream⟩

theorem writeLoop_piece {piece : List Byte} (hp : piece ≠ []) (rest : List Byte)
    (events : List SendEvent) :
    writeLoop (.accept (piece.length - 1) :: events) (piece ++ rest) =
      { writeLoop events rest with accepted := piece ++ (writeLoop events rest).accepted } := by
  cases piece with
  | nil => exact absurd rfl hp
  | cons b bytes =>
    have hdrop : List.drop (bytes.length + 1) (b :: bytes ++ rest) = rest := List.drop_left' rfl
    have htake : List.take (bytes.length + 1) (b :: bytes ++ rest) = b :: bytes :=
      List.take_left' rfl
    simp only [List.cons_append] at hdrop htake
    simp only [List.cons_append, List.length_cons, Nat.add_sub_cancel, writeLoop, hdrop, htake]

/-- What is sent is the rest of the request, and what is received is the response. -/
theorem Transfers.writeLoop {n : ℕ} {left : List Byte} (h : Transfers P j (.send n left) acts out)
    (hs : out.code = .success) :
    MelsecMc.writeLoop (sendEvents acts) left = ⟨some true, left, []⟩ ∧ ∀ stream,
      readFrame P.response (recvEvents acts) (received acts ++ stream) =
        ⟨.complete, out.response, stream, []⟩ := by
  generalize hpc : Pc.send n left = pc at h
  induction h generalizing left with
  | send h hr ih =>
    obtain ⟨rfl, rfl⟩ := Pc.send.inj hpc
    cases h with
    | send _ k _ hl =>
      obtain ⟨hwrite, hread⟩ := ih hs rfl
      refine ⟨?_, hread⟩
      have hp : left.take (k + 1) ≠ [] := by simpa using hl
      have hpiece := writeLoop_piece hp (left.drop (k + 1))
      rw [List.take_append_drop] at hpiece
      simp only [sendEvents, List.filterMap_cons] at hwrite ⊢
      rw [hpiece, hwrite]
      simp
  | sent h hr ih =>
    cases hpc
    cases h with
    | sendUnlockG =>
      obtain ⟨hsend, hread⟩ := hr.resume hs
      simp only [sendEvents, recvEvents, received, List.filterMap_cons, List.flatMap_cons,
        List.nil_append] at hsend hread ⊢
      refine ⟨?_, fun stream => ?_⟩
      · rw [hsend]
        rfl
      · rw [← resume_nil]
        exact hread stream
  | recv h hr ih => cases hpc
  | done h => cases hpc

/-- A thread sends and receives what the send phase and the reader of the module do with the same
returns of `send` and `recv`. -/
theorem Transfers.transaction {n : ℕ} (h : Transfers P j (.send n j.cmd) acts out)
    (hs : out.code = .success) (hfd : 0 < j.fd) (hcmd : j.cmd ≠ []) (hr : 0 ≤ j.retryCount) :
    sendPhase j.fd j.cmd j.retryCount (sendEvents acts) = ⟨some true, j.cmd, []⟩ ∧
      ∀ stream, let read := P.readResponse j.fd .zero 0 (recvEvents acts) (received acts ++ stream)
        read.code = some .success ∧ read.response = .ofFrame out.response ∧
          read.rest = stream := by
  obtain ⟨hwrite, hread⟩ := h.writeLoop hs
  constructor
  · obtain ⟨k, hk⟩ : ∃ k, (j.retryCount + 1).toNat * maxRetryTimes = k + 1 := by
      rw [maxRetryTimes]
      exact ⟨(j.retryCount + 1).toNat * 3 - 1, by omega⟩
    rw [sendPhase_eq hfd hcmd, hk]
    simp only [retry, hwrite, Sending.orElse]
  · intro stream
    obtain ⟨hcode, hrest, -, hres⟩ :=
      P.readResponse_follows hfd .zero 0 (recvEvents acts) (received acts ++ stream)
    rw [hread stream] at hcode hrest hres
    exact ⟨hcode, (hres rfl).1, hrest⟩

end Transfers

end MelsecMc
