import MelsecMc.Call
import MelsecMc.ConnectionConfig
import MelsecMc.SendPhase
import MelsecMc.TxLocks

/-!
# The retry budget of a transaction

`mc_try_send_msg` calls `mc_write_msg` up to three times, and the transaction
repeats that for `i` from 0 to the `retry_count` of the connection, an `int` that
nothing checks. A negative count sends nothing. The largest one is never passed:
`i` wraps around, and the loop goes on until a write is full.
-/
namespace MelsecMc

/-- `mc_unlock_fd_transaction`. `unlocked` is the success of the unlocking itself. -/
def TxLocks.mcUnlockFdTransaction (locks : TxLocks) (fd : ℤ) (unlocked : Bool) : ErrorCode :=
  if fd ≤ 0 then .invalidParameter
  else
    match locks.find fd with
    | none => .failed
    | some _ => if unlocked then .success else .failed

namespace RetryBudget

/-- No attempt with a number from `p` on and below `q` was a success. -/
def Missed (full : ℕ → Prop) (p q : ℕ) : Prop := p ≤ q ∧ ∀ k, p ≤ k → k < q → ¬ full k

/-- The attempt before `q` was the first success from `p` on. -/
def Hit (full : ℕ → Prop) (p q : ℕ) : Prop := ∃ k, q = k + 1 ∧ Missed full p k ∧ full k

section Attempts

variable {full : ℕ → Prop} {p q r : ℕ}

theorem Missed.refl (full : ℕ → Prop) (p : ℕ) : Missed full p p :=
  ⟨le_rfl, fun k hp hq => absurd hq (by omega)⟩

theorem Missed.trans (h : Missed full p q) (h' : Missed full q r) : Missed full p r := by
  refine ⟨h.1.trans h'.1, fun k hp hr => ?_⟩
  by_cases hk : k < q
  · exact h.2 k hp hk
  · exact h'.2 k (by omega) hr

theorem Missed.one (h : ¬ full p) : Missed full p (p + 1) := by
  refine ⟨by omega, fun k hp hq => ?_⟩
  obtain rfl : k = p := by omega
  exact h

theorem Missed.hit (h : Missed full p q) (h' : Hit full q r) : Hit full p r := by
  obtain ⟨k, hr, hmiss, hk⟩ := h'
  exact ⟨k, hr, h.trans hmiss, hk⟩

theorem Hit.one (h : full p) : Hit full p (p + 1) := ⟨p, rfl, .refl full p, h⟩

theorem Hit.lt (h : Hit full p q) : p < q := by
  obtain ⟨k, rfl, hmiss, -⟩ := h
  have := hmiss.1
  omega

/-- Every attempt but the last one failed. -/
theorem Hit.earlier (h : Hit full p q) {k : ℕ} (hp : p ≤ k) (hk : k + 1 < q) : ¬ full k := by
  obtain ⟨last, rfl, hmiss, -⟩ := h
  exact hmiss.2 k hp (by omega)

end Attempts

section Loops

variable (fd : ℤ) (outcomes : ℕ → ℤ) (need_send retry_count : ℤ)

/-- The loop of `mc_try_send_msg`, with `retry_times` and the number of calls of `mc_write_msg` so
far. The next call returns the outcome of this number. -/
def tryLoop (retry_times writes : ℕ) : ℕ × ℕ :=
  if retry_times < maxRetryTimes then
    if outcomes writes = need_send then (retry_times, writes + 1)
    else tryLoop (retry_times + 1) (writes + 1)
  else (retry_times, writes)
termination_by maxRetryTimes - retry_times

/-- `mc_try_send_msg`: its result, and the number of calls of `mc_write_msg`. -/
def mcTrySendMsg (writes : ℕ) : Bool × ℕ :=
  if fd < 0 then (false, writes)
  else
    let tried := tryLoop outcomes need_send 0 writes
    (decide (tried.1 < maxRetryTimes), tried.2)

/-- The loop of the transaction over `i`, without the pauses. `none` means that it did not end
within `fuel` rounds. -/
def sendLoop : (fuel : ℕ) → (i : ℤ) → (writes : ℕ) → Option (Bool × ℕ)
  | 0, _, _ => none
  | fuel + 1, i, writes =>
    if i ≤ retry_count then
      let sent := mcTrySendMsg fd outcomes need_send writes
      if sent.1 then some sent else sendLoop fuel (toInt32 (i + 1)) sent.2
    else some (false, writes)

end Loops

/-- What a transaction meets: the result of locking, the outcomes of `mc_write_msg`, what `recv`
delivers, and what unlocking finds. -/
structure Outside where
  lockRet : ErrorCode
  outcomes : ℕ → ℤ
  recvs : List FramedStream.Event
  stream : List Byte
  locks : TxLocks
  unlocked : Bool

/-- The end of a transaction: its code, `none` while it waits for `recv`, the number of calls of
`mc_write_msg`, and whether a response was asked for. -/
structure Attempted where
  code : Option ErrorCode
  writes : ℕ
  received : Bool

/-- The transaction behind its send loop: reading the response, and unlocking. -/
def afterSending (m : Module) (fd : ℤ) (o : Outside) (sent : Bool × ℕ) : Attempted :=
  let unlock_ret := o.locks.mcUnlockFdTransaction fd o.unlocked
  let finish (ret : ErrorCode) :=
    if ret = .success ∧ unlock_ret ≠ .success then unlock_ret else ret
  if sent.1 then
    let received := m.protocol.readResponse fd .zero 0 o.recvs o.stream
    ⟨received.code.map finish, sent.2, true⟩
  else ⟨some (finish .socketSendFailed), sent.2, false⟩

/-- `mc_send_and_receive_transaction`, within `fuel` rounds of its loop. -/
def mcSendAndReceiveTransaction (m : Module) (configs : ConnectionConfigs) (fd : ℤ)
    (cmd : ByteArrayInfo) (o : Outside) (fuel : ℕ) : Option Attempted :=
  if fd ≤ 0 ∨ cmd.data.isNone ∨ cmd.length ≤ 0 then some ⟨some .invalidParameter, 0, false⟩
  else if o.lockRet ≠ .success then some ⟨some o.lockRet, 0, false⟩
  else
    (configs.mcGetCommConfig fd true).2.bind fun config =>
      (sendLoop fd o.outcomes cmd.length config.retryCount fuel 0 0).map (afterSending m fd o)

/-- The transaction returns, or it waits for its response. -/
def Returns (m : Module) (configs : ConnectionConfigs) (fd : ℤ) (cmd : ByteArrayInfo)
    (o : Outside) (ended : Attempted) : Prop :=
  ∃ fuel, mcSendAndReceiveTransaction m configs fd cmd o fuel = some ended

/-- What a budget of `retry_count` retries demands. -/
structure Budgeted (outcomes : ℕ → ℤ) (need_send retry_count : ℤ) (ended : Attempted) :
    Prop where
  once : 1 ≤ ended.writes
  bounded : (ended.writes : ℤ) ≤ 3 * (retry_count + 1)
  stops : ∀ k, k + 1 < ended.writes → outcomes k ≠ need_send
  failed : ended.code = some .socketSendFailed ↔ ∀ k < ended.writes, outcomes k ≠ need_send
  silent : (∀ k < ended.writes, outcomes k ≠ need_send) → ended.received = false

/-- The transaction does not go on for ever, and keeps the budget. -/
def KeepsBudget (m : Module) (configs : ConnectionConfigs) (fd retry_count : ℤ)
    (cmd : ByteArrayInfo) (o : Outside) : Prop :=
  ∃ ended, Returns m configs fd cmd o ended ∧ Budgeted o.outcomes cmd.length retry_count ended

section Runs

variable {fd : ℤ} {outcomes : ℕ → ℤ} {need_send retry_count : ℤ}

theorem tryLoop_cases (outcomes : ℕ → ℤ) (need_send : ℤ) {retry_times : ℕ}
    (hr : retry_times ≤ maxRetryTimes) (writes : ℕ) :
    ((tryLoop outcomes need_send retry_times writes).1 < maxRetryTimes ∧
      Hit (outcomes · = need_send) writes (tryLoop outcomes need_send retry_times writes).2 ∧
      (tryLoop outcomes need_send retry_times writes).2 ≤
        writes + (maxRetryTimes - retry_times)) ∨
    ((tryLoop outcomes need_send retry_times writes).1 = maxRetryTimes ∧
      Missed (outcomes · = need_send) writes
        (tryLoop outcomes need_send retry_times writes).2 ∧
      (tryLoop outcomes need_send retry_times writes).2 =
        writes + (maxRetryTimes - retry_times)) := by
  fun_induction tryLoop outcomes need_send retry_times writes with
  | case1 retry_times writes hlt hfull => exact .inl ⟨hlt, .one hfull, by omega⟩
  | case2 retry_times writes hlt hmiss ih =>
    have hone : Missed (outcomes · = need_send) writes (writes + 1) := .one hmiss
    obtain ⟨hend, hhit, hle⟩ | ⟨hend, hmissed, heq⟩ := ih hlt
    · exact .inl ⟨hend, hone.hit hhit, by omega⟩
    · exact .inr ⟨hend, hone.trans hmissed, by omega⟩
  | case3 retry_times writes hge => exact .inr ⟨by omega, .refl _ _, by omega⟩

/-- One round: a full write within three calls, or three calls in vain. -/
theorem mcTrySendMsg_cases (outcomes : ℕ → ℤ) (need_send : ℤ) (hfd : 0 < fd) (writes : ℕ) :
    ((mcTrySendMsg fd outcomes need_send writes).1 = true ∧
      Hit (outcomes · = need_send) writes (mcTrySendMsg fd outcomes need_send writes).2 ∧
      (mcTrySendMsg fd outcomes need_send writes).2 ≤ writes + 3) ∨
    ((mcTrySendMsg fd outcomes need_send writes).1 = false ∧
      Missed (outcomes · = need_send) writes (writes + 3) ∧
      (mcTrySendMsg fd outcomes need_send writes).2 = writes + 3) := by
  rw [mcTrySendMsg, if_neg (by omega)]
  obtain ⟨hend, hhit, hle⟩ | ⟨hend, hmissed, heq⟩ :=
    tryLoop_cases outcomes need_send (Nat.zero_le maxRetryTimes) writes
  · exact .inl ⟨decide_eq_true hend, hhit, hle⟩
  · refine .inr ⟨decide_eq_false (by omega), ?_, heq⟩
    rw [heq] at hmissed
    exact hmissed

/-- A loop that ended stopped at the first full write, or had none. -/
theorem sendLoop_cases (hfd : 0 < fd) {fuel : ℕ} {i : ℤ} {writes : ℕ} {sent : Bool × ℕ}
    (h : sendLoop fd outcomes need_send retry_count fuel i writes = some sent) :
    (sent.1 = true ∧ Hit (outcomes · = need_send) writes sent.2) ∨
      (sent.1 = false ∧ Missed (outcomes · = need_send) writes sent.2) := by
  induction fuel generalizing i writes with
  | zero => cases h
  | succ fuel ih =>
    rw [sendLoop] at h
    split at h
    · obtain ⟨hsent, hhit, -⟩ | ⟨hsent, hmissed, hwrites⟩ :=
        mcTrySendMsg_cases outcomes need_send hfd writes
      · rw [if_pos hsent] at h
        obtain rfl := Option.some.inj h
        exact .inl ⟨hsent, hhit⟩
      · rw [if_neg (by simp [hsent]), hwrites] at h
        obtain ⟨hok, hhit⟩ | ⟨hfail, hlater⟩ := ih h
        · exact .inl ⟨hok, hmissed.hit hhit⟩
        · exact .inr ⟨hfail, hmissed.trans hlater⟩
    · obtain rfl := Option.some.inj h
      exact .inr ⟨rfl, .refl _ _⟩

/-- With `rounds` rounds left the loop ends within the budget, unless `i` would have to pass the
largest `int`. -/
theorem sendLoop_ends (hfd : 0 < fd) (hcount : InInt32 retry_count) {i : ℤ} (hi : 0 ≤ i)
    (rounds : ℕ) (hrounds : i + rounds = retry_count + 1) {writes : ℕ}
    (hmax : retry_count = 2 ^ 31 - 1 →
      ¬ Missed (outcomes · = need_send) writes (writes + 3 * rounds)) :
    ∃ fuel sent, sendLoop fd outcomes need_send retry_count fuel i writes = some sent ∧
      sent.2 ≤ writes + 3 * rounds ∧ (sent.1 = false → sent.2 = writes + 3 * rounds) := by
  induction rounds generalizing i writes with
  | zero =>
    refine ⟨1, (false, writes), ?_, le_rfl, fun _ => rfl⟩
    rw [sendLoop, if_neg (by omega)]
  | succ rounds ih =>
    have hle : i ≤ retry_count := by omega
    obtain ⟨hsent, -, hbound⟩ | ⟨hsent, hmissed, hwrites⟩ :=
      mcTrySendMsg_cases outcomes need_send hfd writes
    · refine ⟨1, mcTrySendMsg fd outcomes need_send writes, ?_, by omega, fun hfail => ?_⟩
      · rw [sendLoop, if_pos hle, if_pos hsent]
      · rw [hsent] at hfail
        cases hfail
    · have hmax' : retry_count = 2 ^ 31 - 1 →
          ¬ Missed (outcomes · = need_send) (writes + 3) (writes + 3 + 3 * rounds) := by
        intro hlargest hlater
        have hall := hmissed.trans hlater
        rw [show writes + 3 + 3 * rounds = writes + 3 * (rounds + 1) by ring] at hall
        exact hmax hlargest hall
      have hnext : InInt32 (i + 1) := by
        refine ⟨by omega, ?_⟩
        by_contra hpast
        have hlast : rounds = 0 := by
          have := hcount.2
          omega
        subst hlast
        exact hmax' (by have := hcount.2; omega) (.refl _ _)
      obtain ⟨fuel, sent, hrun, hbound, hexact⟩ :=
        ih (i := i + 1) (by omega) (by push_cast at hrounds; omega) hmax'
      refine ⟨fuel + 1, sent, ?_, by omega, fun hfail => ?_⟩
      · rw [sendLoop, if_pos hle, if_neg (by simp [hsent]), toInt32_eq hnext, hwrites, hrun]
      · have := hexact hfail
        omega

/-- The largest count is never passed, so the loop ends with a full write only. -/
theorem sendLoop_largest (hcount : retry_count = 2 ^ 31 - 1) {fuel : ℕ} {i : ℤ} (hi : InInt32 i)
    {writes : ℕ} {sent : Bool × ℕ}
    (h : sendLoop fd outcomes need_send retry_count fuel i writes = some sent) :
    sent.1 = true := by
  induction fuel generalizing i writes with
  | zero => cases h
  | succ fuel ih =>
    have hle : i ≤ retry_count := by
      have := hi.2
      omega
    rw [sendLoop, if_pos hle] at h
    simp only at h
    split at h
    · rename_i hsent
      obtain rfl := Option.some.inj h
      exact hsent
    · exact ih (toInt32_range (i + 1)) h

/-- More fuel does not change the result. -/
theorem sendLoop_mono {fuel fuel' : ℕ} (hle : fuel ≤ fuel') {i : ℤ} {writes : ℕ}
    {sent : Bool × ℕ} (h : sendLoop fd outcomes need_send retry_count fuel i writes = some sent) :
    sendLoop fd outcomes need_send retry_count fuel' i writes = some sent := by
  induction fuel generalizing fuel' i writes with
  | zero => cases h
  | succ fuel ih =>
    obtain ⟨more, rfl⟩ : ∃ more, fuel' = more + 1 := ⟨fuel' - 1, by omega⟩
    rw [sendLoop] at h ⊢
    split
    · rename_i hi
      rw [if_pos hi] at h
      simp only at h ⊢
      split
      · rename_i hsent
        rw [if_pos hsent] at h
        exact h
      · rename_i hsent
        rw [if_neg hsent] at h
        exact ih (by omega) h
    · rename_i hi
      rw [if_neg hi] at h
      exact h

end Runs

/-- The events that are left after a number of calls of `mc_write_msg`. -/
def eventsAfter (fd : ℤ) (cmd : List Byte) (events : List SendEvent) : ℕ → List SendEvent
  | 0 => events
  | writes + 1 => (mcWriteMsg fd cmd (eventsAfter fd cmd events writes)).events

section Events

variable {fd : ℤ} {cmd : List Byte} {events : List SendEvent} {outcomes : ℕ → ℤ}

theorem writeAttempt_result {n : ℤ} (h : (mcWriteMsg fd cmd events).result = some n) :
    (writeAttempt fd cmd events).result = some (decide (n = cmd.length)) := by
  simp only [writeAttempt, h, Option.map_some]

theorem retry_missed {n p : ℕ}
    (hreturns : ∀ k, p ≤ k → k < p + n →
      (mcWriteMsg fd cmd (eventsAfter fd cmd events k)).result = some (outcomes k))
    (hmissed : Missed (outcomes · = cmd.length) p (p + n)) :
    (retry (writeAttempt fd cmd) n (eventsAfter fd cmd events p)).result = some false := by
  induction n generalizing p with
  | zero => rfl
  | succ n ih =>
    have hfirst : (writeAttempt fd cmd (eventsAfter fd cmd events p)).result = some false := by
      have hmiss := hmissed.2 p le_rfl (by omega)
      rw [writeAttempt_result (hreturns p le_rfl (by omega)), decide_eq_false hmiss]
    rw [retry, Sending.orElse, hfirst]
    apply ih (p := p + 1)
    · intro k hp hk
      exact hreturns k (by omega) (by omega)
    · exact ⟨by omega, fun k hp hk => hmissed.2 k (by omega) (by omega)⟩

theorem retry_hit {n p q : ℕ} (hq : q ≤ p + n)
    (hreturns : ∀ k, p ≤ k → k < q →
      (mcWriteMsg fd cmd (eventsAfter fd cmd events k)).result = some (outcomes k))
    (hhit : Hit (outcomes · = cmd.length) p q) :
    (retry (writeAttempt fd cmd) n (eventsAfter fd cmd events p)).result = some true := by
  induction n generalizing p with
  | zero =>
    have := hhit.lt
    omega
  | succ n ih =>
    have hlt := hhit.lt
    by_cases hfull : outcomes p = cmd.length
    · have hfirst : (writeAttempt fd cmd (eventsAfter fd cmd events p)).result = some true := by
        rw [writeAttempt_result (hreturns p le_rfl hlt), decide_eq_true hfull]
      rw [retry, Sending.orElse, hfirst]
      exact hfirst
    · have hfirst : (writeAttempt fd cmd (eventsAfter fd cmd events p)).result = some false := by
        rw [writeAttempt_result (hreturns p le_rfl hlt), decide_eq_false hfull]
      rw [retry, Sending.orElse, hfirst]
      apply ih (p := p + 1) (by omega)
      · intro k hp hk
        exact hreturns k (by omega) hk
      · obtain ⟨k, rfl, hmissed, hk⟩ := hhit
        have hne : k ≠ p := by
          rintro rfl
          exact hfull hk
        exact ⟨k, rfl, ⟨by omega, fun l hl hlk => hmissed.2 l (by omega) hlk⟩, hk⟩

/-- The send loop over outcomes is the send phase over the returns of `send` that lead to them. -/
theorem sendPhase_result {retry_count : ℤ} (hfd : 0 < fd) (hcount : InInt32 retry_count)
    (hmax : retry_count < 2 ^ 31 - 1) {fuel : ℕ} {sent : Bool × ℕ}
    (hsent : sendLoop fd outcomes cmd.length retry_count fuel 0 0 = some sent)
    (hreturns : ∀ k < sent.2,
      (mcWriteMsg fd cmd (eventsAfter fd cmd events k)).result = some (outcomes k)) :
    (sendPhase fd cmd retry_count events).result = some sent.1 := by
  rw [sendPhase_retry hfd]
  by_cases hneg : retry_count < 0
  · have hzero : (retry_count + 1).toNat = 0 := by omega
    have hone : sendLoop fd outcomes cmd.length retry_count 1 0 0 = some (false, 0) := by
      rw [sendLoop, if_neg (by omega)]
    cases fuel with
    | zero => cases hsent
    | succ fuel =>
      have hsame := sendLoop_mono (Nat.le_add_left 1 fuel) hone
      obtain rfl := Option.some.inj (hsame.symm.trans hsent)
      rw [hzero, Nat.zero_mul]
      rfl
  · obtain ⟨fuel', sent', hsent', hbound, hexact⟩ :
        ∃ fuel sent, sendLoop fd outcomes cmd.length retry_count fuel 0 0 = some sent ∧
          sent.2 ≤ 0 + 3 * (retry_count + 1).toNat ∧
          (sent.1 = false → sent.2 = 0 + 3 * (retry_count + 1).toNat) :=
      sendLoop_ends hfd hcount le_rfl _ (by omega) (by omega)
    have hsame := (sendLoop_mono (Nat.le_max_left fuel fuel') hsent).symm.trans
      (sendLoop_mono (Nat.le_max_right fuel fuel') hsent')
    obtain rfl := Option.some.inj hsame
    have hbudget : 0 + 3 * (retry_count + 1).toNat =
        0 + (retry_count + 1).toNat * maxRetryTimes := by
      rw [Nat.mul_comm]
      rfl
    rw [hbudget] at hbound hexact
    obtain ⟨hok, hhit⟩ | ⟨hfail, hmissed⟩ := sendLoop_cases hfd hsent
    · rw [hok]
      exact retry_hit hbound (fun k _ hk => hreturns k hk) hhit
    · rw [hexact hfail] at hreturns hmissed
      rw [hfail]
      exact retry_missed (fun k _ hk => hreturns k hk) hmissed

end Events

section Transaction

variable {m : Module} {configs : ConnectionConfigs} {fd : ℤ} {config : CommConfig}
  {cmd : ByteArrayInfo} {o : Outside}

theorem mcUnlockFdTransaction_ne (locks : TxLocks) (fd : ℤ) (unlocked : Bool) :
    locks.mcUnlockFdTransaction fd unlocked ≠ .socketSendFailed := by
  unfold TxLocks.mcUnlockFdTransaction
  split
  · simp
  · split
    · simp
    · split
      · simp
      · simp

/-- Reading a response never reports that sending failed. -/
theorem readResponse_ne (P : Protocol) (hfd : 0 < fd) (response : Response) (read_count : ℤ)
    (events : List FramedStream.Event) (stream : List Byte) :
    (P.readResponse fd response read_count events stream).code ≠ some .socketSendFailed := by
  rw [(P.readResponse_follows hfd response read_count events stream).1]
  cases (FramedStream.readFrame P.response events stream).outcome with
  | complete => simp [Protocol.frameCode]
  | invalid => simp [Protocol.frameCode]
  | stopped outcome => cases outcome <;> simp [Protocol.frameCode, recvCode]

@[simp] theorem afterSending_writes (sent : Bool × ℕ) :
    (afterSending m fd o sent).writes = sent.2 := by
  unfold afterSending
  split
  · rfl
  · rfl

@[simp] theorem afterSending_received (sent : Bool × ℕ) :
    (afterSending m fd o sent).received = sent.1 := by
  unfold afterSending
  split
  · rename_i hsent
    exact hsent.symm
  · rename_i hsent
    exact (Bool.eq_false_iff.mpr hsent).symm

/-- `MC_ERROR_CODE_SOCKET_SEND_FAILED` comes from the send loop only. -/
theorem afterSending_code (hfd : 0 < fd) (sent : Bool × ℕ) :
    (afterSending m fd o sent).code = some .socketSendFailed ↔ sent.1 = false := by
  unfold afterSending
  split
  · rename_i hsent
    rw [hsent]
    apply iff_of_false
    · intro hcode
      obtain ⟨ret, hret, hfinish⟩ := Option.map_eq_some_iff.mp hcode
      split at hfinish
      · exact mcUnlockFdTransaction_ne o.locks fd o.unlocked hfinish
      · rw [hfinish] at hret
        exact readResponse_ne m.protocol hfd .zero 0 o.recvs o.stream hret
    · simp
  · rename_i hsent
    simp [Bool.eq_false_iff.mpr hsent]

/-- Behind the lock a transaction is its send loop and what follows. -/
theorem mcSendAndReceiveTransaction_eq (hfd : 0 < fd)
    (hget : configs.mcGetCommConfig fd true = (.success, some config))
    (hdata : cmd.data.isSome = true) (hcmd : 0 < cmd.length) (hlock : o.lockRet = .success)
    (fuel : ℕ) :
    mcSendAndReceiveTransaction m configs fd cmd o fuel =
      (sendLoop fd o.outcomes cmd.length config.retryCount fuel 0 0).map
        (afterSending m fd o) := by
  have hvalid : ¬ (fd ≤ 0 ∨ cmd.data.isNone = true ∨ cmd.length ≤ 0) := by
    intro h
    obtain h | h | h := h
    · omega
    · rw [Option.isNone_iff_eq_none.mp h] at hdata
      cases hdata
    · omega
  rw [mcSendAndReceiveTransaction, if_neg hvalid, if_neg (by simp [hlock]), hget]
  rfl

/-- What a loop within the budget leads to. -/
theorem budgeted_afterSending (hfd : 0 < fd) {retry_count : ℤ} {sent : Bool × ℕ}
    (hcases : (sent.1 = true ∧ Hit (o.outcomes · = cmd.length) 0 sent.2) ∨
      (sent.1 = false ∧ Missed (o.outcomes · = cmd.length) 0 sent.2))
    (honce : 1 ≤ sent.2) (hbound : (sent.2 : ℤ) ≤ 3 * (retry_count + 1)) :
    Budgeted o.outcomes cmd.length retry_count (afterSending m fd o sent) := by
  obtain ⟨hok, hhit⟩ | ⟨hfail, hmissed⟩ := hcases
  · have hsome : ¬ ∀ k < sent.2, o.outcomes k ≠ cmd.length := by
      obtain ⟨k, hk, -, hfull⟩ := hhit
      intro hall
      exact hall k (by omega) hfull
    constructor
    · simpa using honce
    · simpa using hbound
    · intro k hk
      exact hhit.earlier (Nat.zero_le k) (by simpa using hk)
    · rw [afterSending_code hfd, afterSending_writes]
      exact iff_of_false (by simp [hok]) hsome
    · rw [afterSending_writes]
      intro hall
      exact absurd hall hsome
  · have hall : ∀ k < sent.2, o.outcomes k ≠ cmd.length :=
      fun k hk => hmissed.2 k (Nat.zero_le k) hk
    constructor
    · simpa using honce
    · simpa using hbound
    · intro k hk
      rw [afterSending_writes] at hk
      exact hall k (by omega)
    · rw [afterSending_code hfd, afterSending_writes]
      exact iff_of_true hfail hall
    · intro _
      rw [afterSending_received, hfail]

/-- For every accepted configuration and every sequence of outcomes: a transaction behind its lock
keeps the budget exactly when `retry_count` is not negative, and either is not the largest `int` or
a write within its budget is full. -/
theorem keepsBudget_iff (m : Module) (configs : ConnectionConfigs) (fd : ℤ) (config : CommConfig)
    (sndtimeo rcvtimeo : ℤ)
    (haccept : (configs.mcSetCommConfig fd config sndtimeo rcvtimeo).1 = .success)
    (cmd : ByteArrayInfo) (hdata : cmd.data.isSome = true) (hcmd : 0 < cmd.length) (o : Outside)
    (hlock : o.lockRet = .success) :
    KeepsBudget m (configs.mcSetCommConfig fd config sndtimeo rcvtimeo).2 fd config.retryCount
        cmd o ↔
      0 ≤ config.retryCount ∧ (config.retryCount = 2 ^ 31 - 1 →
        ∃ k < 3 * 2 ^ 31, o.outcomes k = cmd.length) := by
  obtain ⟨hfd, hget⟩ := ConnectionConfigs.mcGetCommConfig_of_accepted haccept
  have hrun := mcSendAndReceiveTransaction_eq (m := m) hfd hget hdata hcmd hlock
  have hcount : InInt32 config.retryCount := config.ranges.2.2.1
  constructor
  · intro hkeeps
    obtain ⟨ended, ⟨fuel, hreturns⟩, hbudget⟩ := hkeeps
    rw [hrun, Option.map_eq_some_iff] at hreturns
    obtain ⟨sent, hsent, rfl⟩ := hreturns
    have honce := hbudget.once
    have hbound := hbudget.bounded
    rw [afterSending_writes] at honce hbound
    refine ⟨by omega, fun hlargest => ?_⟩
    have hok := sendLoop_largest hlargest (by decide) hsent
    obtain ⟨-, k, hk, -, hfull⟩ | ⟨hfail, -⟩ := sendLoop_cases hfd hsent
    · exact ⟨k, by omega, hfull⟩
    · rw [hok] at hfail
      cases hfail
  · intro h
    obtain ⟨hnonneg, hlargest⟩ := h
    have hrounds : (0 : ℤ) + (config.retryCount + 1).toNat = config.retryCount + 1 := by omega
    have hmax : config.retryCount = 2 ^ 31 - 1 → ¬ Missed (o.outcomes · = cmd.length) 0
        (0 + 3 * (config.retryCount + 1).toNat) := by
      intro heq hmissed
      obtain ⟨k, hk, hfull⟩ := hlargest heq
      exact hmissed.2 k (Nat.zero_le k) (by omega) hfull
    obtain ⟨fuel, sent, hsent, hbound, hexact⟩ := sendLoop_ends hfd hcount le_rfl _ hrounds hmax
    have hcases := sendLoop_cases hfd hsent
    have honce : 1 ≤ sent.2 := by
      obtain ⟨-, hhit⟩ | ⟨hfail, -⟩ := hcases
      · exact hhit.lt
      · have := hexact hfail
        omega
    refine ⟨afterSending m fd o sent, ⟨fuel, ?_⟩,
      budgeted_afterSending hfd hcases honce (by omega)⟩
    rw [hrun, hsent]
    rfl

theorem keepsBudget_iff_fifth :
    KeepsBudget .binary
      (ConnectionConfigs.initial.mcSetCommConfig 3 ⟨1000, 2000, 1, 100, by decide⟩ 0 0).2 3 1
      (.ofList readD140) ⟨.success, fun k => if k = 4 then 21 else -1, [], [], .initial, true⟩ :=
  (keepsBudget_iff .binary .initial 3 ⟨1000, 2000, 1, 100, by decide⟩ 0 0 (by decide +kernel)
    (.ofList readD140) rfl (by decide)
    ⟨.success, fun k => if k = 4 then 21 else -1, [], [], .initial, true⟩ rfl).mpr
    ⟨by decide, fun h => absurd h (by decide)⟩

/-- `retry_count` -1 is accepted, and the transaction ends without one write. -/
theorem budget_not_kept :
    Returns .binary
        (ConnectionConfigs.initial.mcSetCommConfig 3 ⟨1000, 2000, -1, 100, by decide⟩ 0 0).2 3
        (.ofList readD140) ⟨.success, fun _ => 21, [], [], .initial, true⟩
        ⟨some .socketSendFailed, 0, false⟩ ∧
      ¬ ∀ m (configs : ConnectionConfigs) fd config sndtimeo rcvtimeo,
        (configs.mcSetCommConfig fd config sndtimeo rcvtimeo).1 = .success →
        ∀ cmd : ByteArrayInfo, cmd.data.isSome = true → 0 < cmd.length →
        ∀ o : Outside, o.lockRet = .success →
          KeepsBudget m (configs.mcSetCommConfig fd config sndtimeo rcvtimeo).2 fd
            config.retryCount cmd o := by
  refine ⟨⟨1, by rfl⟩, fun h => ?_⟩
  obtain ⟨ended, -, hbudget⟩ := h .binary .initial 3 ⟨1000, 2000, -1, 100, by decide⟩ 0 0
    (by decide +kernel) (.ofList readD140) rfl (by decide)
    ⟨.success, fun _ => 21, [], [], .initial, true⟩ rfl
  have honce := hbudget.once
  have hbound := hbudget.bounded
  have hzero : (ended.writes : ℤ) ≤ 3 * (-1 + 1) := hbound
  omega

end Transaction

end RetryBudget

end MelsecMc
