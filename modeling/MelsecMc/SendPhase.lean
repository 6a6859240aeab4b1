import MelsecMc.Binary

/-!
# Sending a request (socket.c, melsec_helper.c)

A request is sent by three nested loops: `mc_write_msg` offers the bytes that are
left until all are accepted or `send` fails, `mc_try_send_msg` calls it up to
three times, and the transaction repeats that `retry_count` times. Every attempt
starts again with the first byte of the frame, also after a failed attempt of
which the socket has accepted some bytes already. The frame arrives as it is if
and only if `send` never fails inside it.
-/
namespace MelsecMc

/-- One return of `send`: a positive count of at most `k + 1` of the bytes offered, or zero or
a negative result with `EINTR` or another value in `errno`. -/
inductive SendEvent where
  | accept (k : ℕ)
  | interrupted
  | failed
  deriving DecidableEq, Repr

/-- The end of a sending loop: its result, `none` while it waits for `send`, the bytes that the
socket accepted, and the events that are left. -/
structure Sending (ρ : Type*) where
  result : Option ρ
  accepted : List Byte
  events : List SendEvent

/-- The loop of `mc_write_msg` over the bytes that are left, `false` when `send` fails. -/
def writeLoop : List SendEvent → List Byte → Sending Bool
  | events, [] => ⟨some true, [], events⟩
  | [], _ :: _ => ⟨none, [], []⟩
  | .interrupted :: events, b :: bytes => writeLoop events (b :: bytes)
  | .failed :: events, _ :: _ => ⟨some false, [], events⟩
  | .accept k :: events, b :: bytes =>
    let tail := writeLoop events ((b :: bytes).drop (k + 1))
    { tail with accepted := (b :: bytes).take (k + 1) ++ tail.accepted }

/-- `mc_write_msg` on a buffer of `nbytes` bytes. -/
def mcWriteMsg (fd : ℤ) (buf : List Byte) (events : List SendEvent) : Sending ℤ :=
  if fd ≤ 0 ∨ buf = [] then ⟨some (-1), [], events⟩
  else
    let written := writeLoop events buf
    ⟨written.result.map fun ok => if ok then (buf.length : ℤ) else -1, written.accepted,
      written.events⟩

namespace Sending

/-- An attempt that failed is followed by another one, with the events that it left. -/
def orElse (first : Sending Bool) (next : List SendEvent → Sending Bool) : Sending Bool :=
  match first.result with
  | some false =>
    { next first.events with accepted := first.accepted ++ (next first.events).accepted }
  | _ => first

/-- No attempt. -/
def giveUp (events : List SendEvent) : Sending Bool := ⟨some false, [], events⟩

@[simp] theorem giveUp_orElse (events : List SendEvent) (next : List SendEvent → Sending Bool) :
    (giveUp events).orElse next = next events := rfl

@[simp] theorem orElse_giveUp (first : Sending Bool) : first.orElse giveUp = first := by
  obtain ⟨_ | _ | _, accepted, events⟩ := first <;> simp [orElse, giveUp]

theorem orElse_assoc (first : Sending Bool) (next last : List SendEvent → Sending Bool) :
    (first.orElse next).orElse last = first.orElse fun events => (next events).orElse last := by
  obtain ⟨_ | _ | _, accepted, events⟩ := first
  · rfl
  · simp only [orElse]
    obtain ⟨_ | _ | _, accepted', events'⟩ := next events
    · rfl
    · simp
    · rfl
  · rfl

end Sending

/-- Up to `n` attempts until one succeeds. -/
def retry (attempt : List SendEvent → Sending Bool) : ℕ → List SendEvent → Sending Bool
  | 0, events => .giveUp events
  | n + 1, events => (attempt events).orElse (retry attempt n)

/-- An attempt of `mc_try_send_msg`: `mc_write_msg` returns the number of bytes, or not. -/
def writeAttempt (fd : ℤ) (cmd : List Byte) (events : List SendEvent) : Sending Bool :=
  let written := mcWriteMsg fd cmd events
  ⟨written.result.map fun real_sends => decide (real_sends = (cmd.length : ℤ)), written.accepted,
    written.events⟩

/-- `MAX_RETRY_TIMES`. -/
def maxRetryTimes : ℕ := 3

/-- `mc_try_send_msg`. -/
def mcTrySendMsg (fd : ℤ) (cmd : List Byte) (events : List SendEvent) : Sending Bool :=
  if fd < 0 then .giveUp events else retry (writeAttempt fd cmd) maxRetryTimes events

/-- The send phase of `mc_send_and_receive_transaction`: `i` from 0 to `retry_count`. -/
def sendPhase (fd : ℤ) (cmd : List Byte) (retry_count : ℤ) (events : List SendEvent) :
    Sending Bool :=
  retry (mcTrySendMsg fd cmd) (retry_count + 1).toNat events

theorem retry_add (attempt : List SendEvent → Sending Bool) (m n : ℕ)
    (events : List SendEvent) :
    retry attempt (m + n) events = (retry attempt m events).orElse (retry attempt n) := by
  induction m generalizing events with
  | zero => simp [retry]
  | succ m ih =>
    have hs : m + 1 + n = m + n + 1 := by omega
    rw [hs, retry, retry, Sending.orElse_assoc]
    congr 1
    funext events
    exact ih events

/-- Nested retry loops are one loop with the product of the attempts. -/
theorem retry_retry (attempt : List SendEvent → Sending Bool) (m n : ℕ)
    (events : List SendEvent) :
    retry (retry attempt m) n events = retry attempt (n * m) events := by
  induction n generalizing events with
  | zero => simp [retry]
  | succ n ih =>
    have hm : (n + 1) * m = m + n * m := by ring
    change (retry attempt m events).orElse (retry (retry attempt m) n) = _
    rw [hm, retry_add]
    congr 1
    funext events
    exact ih events

/-- `send` does not fail between the first byte of a frame of `n` bytes that is accepted and the
last one. `sent` bytes of the frame are accepted already. -/
def Unbroken (n : ℕ) : ℕ → List SendEvent → Prop
  | _, [] => True
  | sent, .interrupted :: events => Unbroken n sent events
  | sent, .failed :: events => sent = 0 ∧ Unbroken n 0 events
  | sent, .accept k :: events => n ≤ sent + (k + 1) ∨ Unbroken n (sent + (k + 1)) events

instance (n sent : ℕ) (events : List SendEvent) : Decidable (Unbroken n sent events) := by
  induction events generalizing sent with
  | nil => exact .isTrue trivial
  | cons e events ih =>
    cases e with
    | accept k => unfold Unbroken; infer_instance
    | interrupted => unfold Unbroken; infer_instance
    | failed => unfold Unbroken; infer_instance

theorem writeLoop_written (events : List SendEvent) (buf : List Byte) (sent : ℕ)
    (h : (writeLoop events buf).result = some true) :
    (writeLoop events buf).accepted = buf ∧
      (buf ≠ [] → Unbroken (sent + buf.length) sent events) := by
  induction events, buf using writeLoop.induct generalizing sent with
  | case1 events => simp [writeLoop]
  | case2 b bytes => simp [writeLoop] at h
  | case3 events b bytes ih =>
    simp only [writeLoop, Unbroken] at h ⊢
    exact ih sent h
  | case4 events b bytes => simp [writeLoop] at h
  | case5 k events b bytes ih =>
    simp only [writeLoop] at h ⊢
    obtain ⟨hacc, hun⟩ := ih (sent + (k + 1)) h
    refine ⟨by rw [hacc, List.take_append_drop], fun _ => ?_⟩
    simp only [Unbroken]
    by_cases hk : (b :: bytes).length ≤ k + 1
    · left; omega
    · right
      have hlen : sent + (k + 1) + ((b :: bytes).drop (k + 1)).length =
          sent + (b :: bytes).length := by
        rw [List.length_drop]
        omega
      rw [← hlen]
      refine hun ?_
      rw [← List.length_pos_iff, List.length_drop]
      omega

/-- A failed attempt leaves the frame unbroken only if nothing of it was accepted. -/
theorem writeLoop_failed (events : List SendEvent) (buf : List Byte) (sent : ℕ)
    (h : (writeLoop events buf).result = some false) :
    Unbroken (sent + buf.length) sent events ↔
      sent = 0 ∧ (writeLoop events buf).accepted = [] ∧
        Unbroken buf.length 0 (writeLoop events buf).events := by
  induction events, buf using writeLoop.induct generalizing sent with
  | case1 events => simp [writeLoop] at h
  | case2 b bytes => simp [writeLoop] at h
  | case3 events b bytes ih =>
    simp only [writeLoop, Unbroken] at h ⊢
    exact ih sent h
  | case4 events b bytes =>
    simp only [writeLoop, Unbroken, true_and]
    constructor
    · rintro ⟨rfl, hu⟩
      exact ⟨rfl, by simpa using hu⟩
    · rintro ⟨rfl, hu⟩
      exact ⟨rfl, by simpa using hu⟩
  | case5 k events b bytes ih =>
    simp only [writeLoop] at h
    have hk : k + 1 < (b :: bytes).length := by
      by_contra hle
      rw [List.drop_eq_nil_of_le (by omega)] at h
      simp [writeLoop] at h
    have hlen : sent + (k + 1) + ((b :: bytes).drop (k + 1)).length =
        sent + (b :: bytes).length := by
      rw [List.length_drop]
      omega
    have hh := ih (sent + (k + 1)) h
    rw [hlen] at hh
    constructor
    · intro hu
      rcases hu with hu | hu
      · omega
      · have := (hh.mp hu).1
        omega
    · rintro ⟨-, hacc, -⟩
      simp [writeLoop] at hacc

theorem writeAttempt_eq {fd : ℤ} {cmd : List Byte} (hfd : 0 < fd) (hcmd : cmd ≠ [])
    (events : List SendEvent) : writeAttempt fd cmd events = writeLoop events cmd := by
  have h0 : ¬ (fd ≤ 0 ∨ cmd = []) := by
    rintro (h | h)
    · omega
    · exact hcmd h
  simp only [writeAttempt, mcWriteMsg, if_neg h0]
  obtain ⟨_ | _ | _, accepted, events'⟩ := writeLoop events cmd
  · rfl
  · have hne : ¬ (-1 : ℤ) = cmd.length := by omega
    simp [hne]
  · simp

/-- On an open descriptor the send phase is a single retry loop. -/
theorem sendPhase_retry {fd : ℤ} (hfd : 0 < fd) (cmd : List Byte) (retry_count : ℤ)
    (events : List SendEvent) :
    sendPhase fd cmd retry_count events =
      retry (writeAttempt fd cmd) ((retry_count + 1).toNat * maxRetryTimes) events := by
  have htry : mcTrySendMsg fd cmd = retry (writeAttempt fd cmd) maxRetryTimes := by
    funext events
    rw [mcTrySendMsg, if_neg (by omega)]
  rw [sendPhase, htry, retry_retry]

theorem sendPhase_eq {fd : ℤ} {cmd : List Byte} (hfd : 0 < fd) (hcmd : cmd ≠ [])
    (retry_count : ℤ) (events : List SendEvent) :
    sendPhase fd cmd retry_count events =
      retry (fun events => writeLoop events cmd)
        ((retry_count + 1).toNat * maxRetryTimes) events := by
  have hwrite : writeAttempt fd cmd = fun events => writeLoop events cmd := by
    funext events
    exact writeAttempt_eq hfd hcmd events
  rw [sendPhase_retry hfd, hwrite]

/-- A retry loop that ends: the first attempt succeeds, or it fails and the others follow. -/
theorem retry_succ_ends {attempt : List SendEvent → Sending Bool} {n : ℕ}
    {events : List SendEvent} {ok : Bool}
    (h : (retry attempt (n + 1) events).result = some ok) :
    (ok = true ∧ (attempt events).result = some true ∧
      (retry attempt (n + 1) events).accepted = (attempt events).accepted) ∨
    ((attempt events).result = some false ∧
      (retry attempt n (attempt events).events).result = some ok ∧
      (retry attempt (n + 1) events).accepted =
        (attempt events).accepted ++ (retry attempt n (attempt events).events).accepted) := by
  simp only [retry, Sending.orElse] at h ⊢
  cases hr : (attempt events).result with
  | none => simp [hr] at h
  | some first =>
    cases first with
    | true =>
      simp only [hr, Option.some.injEq] at h
      exact .inl ⟨h.symm, rfl, rfl⟩
    | false =>
      simp only [hr] at h
      exact .inr ⟨rfl, h, rfl⟩

theorem retry_accepted {cmd : List Byte} (n : ℕ) (events : List SendEvent)
    (h : (retry (fun events => writeLoop events cmd) n events).result = some true) :
    cmd.length ≤ (retry (fun events => writeLoop events cmd) n events).accepted.length := by
  induction n generalizing events with
  | zero => simp [retry, Sending.giveUp] at h
  | succ n ih =>
    rcases retry_succ_ends h with ⟨-, hfirst, hall⟩ | ⟨-, hothers, hall⟩
    · rw [hall, (writeLoop_written events cmd 0 hfirst).1]
    · have hrest := ih _ hothers
      rw [hall, List.length_append]
      omega

/-- When a retry loop reports success, the socket accepted the frame and nothing else if and
only if the frame was not broken off. -/
theorem retry_exact {cmd : List Byte} (hcmd : cmd ≠ []) (n : ℕ) (events : List SendEvent)
    (h : (retry (fun events => writeLoop events cmd) n events).result = some true) :
    (retry (fun events => writeLoop events cmd) n events).accepted = cmd ↔
      Unbroken cmd.length 0 events := by
  induction n generalizing events with
  | zero => simp [retry, Sending.giveUp] at h
  | succ n ih =>
    rcases retry_succ_ends h with ⟨-, hfirst, hall⟩ | ⟨hfirst, hothers, hall⟩
    · obtain ⟨hacc, hun⟩ := writeLoop_written events cmd 0 hfirst
      simp only [hall, hacc, true_iff]
      simpa using hun hcmd
    · have hlen := retry_accepted n _ hothers
      have hfail := writeLoop_failed events cmd 0 hfirst
      rw [Nat.zero_add] at hfail
      rw [hall, hfail, ← ih _ hothers]
      constructor
      · intro he
        have hnil : (writeLoop events cmd).accepted = [] := by
          have hl := congrArg List.length he
          rw [List.length_append] at hl
          exact List.length_eq_zero_iff.mp (by omega)
        rw [hnil, List.nil_append] at he
        exact ⟨rfl, hnil, he⟩
      · rintro ⟨-, hnil, he⟩
        rw [hnil, List.nil_append, he]

theorem retry_all_failed {attempt : List SendEvent → Sending Bool}
    (hall : ∀ events, (attempt events).result = some false) (n : ℕ) (events : List SendEvent) :
    (retry attempt n events).result = some false := by
  induction n generalizing events with
  | zero => rfl
  | succ n ih =>
    simp only [retry, Sending.orElse, hall]
    exact ih _

/-- Nothing is sent on an invalid descriptor, and there is no empty frame. -/
theorem sendPhase_valid {fd : ℤ} {cmd : List Byte} {retry_count : ℤ} {events : List SendEvent}
    (h : (sendPhase fd cmd retry_count events).result = some true) : 0 < fd ∧ cmd ≠ [] := by
  by_contra hc
  have hbad : fd ≤ 0 ∨ cmd = [] := by
    by_contra hn
    exact hc ⟨by omega, fun he => hn (.inr he)⟩
  have hwrite : ∀ events, (writeAttempt fd cmd events).result = some false := by
    intro events
    have hne : ¬ (-1 : ℤ) = cmd.length := by omega
    simp [writeAttempt, mcWriteMsg, if_pos hbad, hne]
  have htry : ∀ events, (mcTrySendMsg fd cmd events).result = some false := by
    intro events
    unfold mcTrySendMsg
    split
    · rfl
    · exact retry_all_failed hwrite maxRetryTimes events
  have hfail := retry_all_failed htry (retry_count + 1).toNat events
  rw [sendPhase, hfail] at h
  simp at h

/-- A retry loop that fails without breaking the frame off sends nothing. -/
theorem retry_failed {cmd : List Byte} (n : ℕ) (events : List SendEvent)
    (hu : Unbroken cmd.length 0 events)
    (h : (retry (fun events => writeLoop events cmd) n events).result = some false) :
    (retry (fun events => writeLoop events cmd) n events).accepted = [] := by
  induction n generalizing events with
  | zero => rfl
  | succ n ih =>
    rcases retry_succ_ends h with ⟨hok, -⟩ | ⟨hfirst, hothers, hall⟩
    · cases hok
    · have hfail := writeLoop_failed events cmd 0 hfirst
      rw [Nat.zero_add] at hfail
      obtain ⟨-, hnil, hu'⟩ := hfail.mp hu
      rw [hall, hnil, ih _ hu' hothers, List.nil_append]

/-- A send phase that fails without breaking the frame off sends nothing. -/
theorem sendPhase_failed {fd : ℤ} {cmd : List Byte} {retry_count : ℤ} {events : List SendEvent}
    (hfd : 0 < fd) (hcmd : cmd ≠ []) (hu : Unbroken cmd.length 0 events)
    (h : (sendPhase fd cmd retry_count events).result = some false) :
    (sendPhase fd cmd retry_count events).accepted = [] := by
  rw [sendPhase_eq hfd hcmd] at h ⊢
  exact retry_failed _ events hu h

/-- When the send phase reports success, the socket accepted one copy of the frame and nothing
else if and only if `send` did not fail inside the frame. -/
theorem sendPhase_one_copy (fd : ℤ) (cmd : List Byte) (retry_count : ℤ)
    (events : List SendEvent) (h : (sendPhase fd cmd retry_count events).result = some true) :
    (sendPhase fd cmd retry_count events).accepted = cmd ↔ Unbroken cmd.length 0 events := by
  obtain ⟨hfd, hcmd⟩ := sendPhase_valid h
  rw [sendPhase_eq hfd hcmd] at h ⊢
  exact retry_exact hcmd _ events h

/-- An error before the first byte, a partial count and `EINTR` do no harm. -/
theorem sendPhase_one_copy_partial :
    (sendPhase 3 [0x50, 0x00, 0x01] 3
      [.failed, .accept 0, .interrupted, .accept 1]).accepted = [0x50, 0x00, 0x01] :=
  (sendPhase_one_copy 3 [0x50, 0x00, 0x01] 3 [.failed, .accept 0, .interrupted, .accept 1]
    (by decide)).mpr (by decide)

/-- The request for one word at D140. -/
def readD140 : List Byte :=
  mcCommandHeader ⟨0, 0⟩ 21 ++ [0x01, 0x04, 0x00, 0x00, 0x8C, 0x00, 0x00, 0xA8, 0x01, 0x00]

/-- An error after nine bytes: the retry sends the whole frame behind them. -/
theorem sendPhase_leading_copy :
    (sendPhase 3 readD140 3 [.accept 8, .failed, .accept 20]).result = some true ∧
      (sendPhase 3 readD140 3 [.accept 8, .failed, .accept 20]).accepted =
        readD140.take 9 ++ readD140 ∧
      (sendPhase 3 readD140 3 [.accept 8, .failed, .accept 20]).accepted ≠ readD140 := by
  decide

end MelsecMc
