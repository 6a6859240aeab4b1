import MelsecMc.SendPhase

/-!
# What mc_write_msg does, in order (socket.c)

`mc_write_msg` with the arguments of C, the result and `errno` of every `send`, and a
record of its actions: locking `g_connection_mutex`, offering the bytes that are left,
unlocking. The pointer moves by the bytes that were accepted, so `send` is always offered
the rest of the buffer. Every way out of the loop unlocks once.
-/
namespace MelsecMc.SendRecord

/-- What `send` returns, and `errno` behind it. -/
structure SendReturn where
  nwritten : ℤ
  errno : ℤ
  deriving DecidableEq, Repr

/-- A `send` that has returned. -/
structure Sent where
  offered : List Byte
  nwritten : ℤ
  deriving DecidableEq, Repr

inductive SendAction where
  | lock
  | send (s : Sent)
  | unlock
  deriving DecidableEq, Repr

/-- The result, `none` while `send` has not returned, and the actions so far. -/
structure WriteRun where
  result : Option ℤ
  actions : List SendAction
  deriving DecidableEq, Repr

/-- `EINTR`. -/
def eintr : ℤ := 4

namespace WriteRun

/-- An action before the others. -/
def after (a : SendAction) (run : WriteRun) : WriteRun := { run with actions := a :: run.actions }

@[simp] theorem after_result (a : SendAction) (run : WriteRun) :
    (run.after a).result = run.result := rfl

@[simp] theorem after_actions (a : SendAction) (run : WriteRun) :
    (run.after a).actions = a :: run.actions := rfl

end WriteRun

/-- The loop of `mc_write_msg` and the unlocking behind it. -/
def writeLoop (nbytes : ℤ) (returns : List SendReturn) (ptr : List Byte) (nleft : ℤ) : WriteRun :=
  if 0 < nleft then
    match returns with
    | [] => ⟨none, []⟩
    | r :: returns =>
      let sent : SendAction := .send ⟨ptr.take nleft.toNat, r.nwritten⟩
      if r.nwritten ≤ 0 then
        if r.errno = eintr then (writeLoop nbytes returns ptr nleft).after sent
        else ⟨some (-1), [sent, .unlock]⟩
      else
        (writeLoop nbytes returns (ptr.drop r.nwritten.toNat) (nleft - r.nwritten)).after sent
  else ⟨some (nbytes - nleft), [.unlock]⟩

/-- `mc_write_msg`. The list is the memory from `buf` on. -/
def mcWriteMsg (fd : ℤ) (buf : Option (List Byte)) (nbytes : ℤ) (returns : List SendReturn) :
    WriteRun :=
  match buf with
  | none => ⟨some (-1), []⟩
  | some ptr =>
    if fd ≤ 0 ∨ nbytes ≤ 0 then ⟨some (-1), []⟩
    else (writeLoop nbytes returns ptr nbytes).after .lock

/-- The bytes that the socket accepted. -/
def Sent.accepted (s : Sent) : List Byte := s.offered.take s.nwritten.toNat

/-- The bytes that the socket accepted, in order. -/
def accepted (actions : List SendAction) : List Byte :=
  actions.flatMap fun
    | .send s => s.accepted
    | _ => []

@[simp] theorem accepted_nil : accepted [] = [] := rfl

@[simp] theorem accepted_lock (actions : List SendAction) :
    accepted (.lock :: actions) = accepted actions := rfl

@[simp] theorem accepted_send (s : Sent) (actions : List SendAction) :
    accepted (.send s :: actions) = s.accepted ++ accepted actions := rfl

@[simp] theorem accepted_unlock (actions : List SendAction) :
    accepted (.unlock :: actions) = accepted actions := rfl

theorem accepted_mono {actions later : List SendAction} (h : actions <+: later) :
    accepted actions <+: accepted later := by
  obtain ⟨rest, rfl⟩ := h
  exact ⟨accepted rest, List.flatMap_append.symm⟩

/-- The `send` calls with these returns. Each is offered what is left of the bytes. -/
def offered (left : List Byte) : List SendReturn → List SendAction
  | [] => []
  | r :: returns => .send ⟨left, r.nwritten⟩ :: offered (left.drop r.nwritten.toNat) returns

/-- `send` fails, other than by an interruption. -/
def SendReturn.Fails (r : SendReturn) : Prop := r.nwritten ≤ 0 ∧ r.errno ≠ eintr

instance (r : SendReturn) : Decidable r.Fails :=
  inferInstanceAs (Decidable (_ ∧ _))

/-- The number of bytes that `send` accepted. -/
def taken (returns : List SendReturn) : ℕ := (returns.map fun r => r.nwritten.toNat).sum

@[simp] theorem taken_nil : taken [] = 0 := rfl

@[simp] theorem taken_cons (r : SendReturn) (returns : List SendReturn) :
    taken (r :: returns) = r.nwritten.toNat + taken returns := rfl

/-- None of the first `k` calls of `send` failed, and they left some of `n` bytes. -/
def GoesOn (n : ℕ) (returns : List SendReturn) (k : ℕ) : Prop :=
  (∀ r ∈ returns.take k, ¬ r.Fails) ∧ taken (returns.take k) < n

instance (n : ℕ) (returns : List SendReturn) (k : ℕ) : Decidable (GoesOn n returns k) :=
  inferInstanceAs (Decidable (_ ∧ _))

/-- No `send` accepts more than it is offered. -/
def Fits (n : ℕ) (returns : List SendReturn) : Prop :=
  ∀ (k : ℕ) (h : k < returns.length), GoesOn n returns k →
    taken (returns.take k) + returns[k].nwritten ≤ n

instance (n : ℕ) (returns : List SendReturn) : Decidable (Fits n returns) :=
  inferInstanceAs (Decidable (∀ (k : ℕ) (_ : k < returns.length), _))

/-- `n` bytes are accepted before `send` fails. -/
def Completes (n : ℕ) (returns : List SendReturn) : Prop :=
  ∃ k ≤ returns.length, (∀ r ∈ returns.take k, ¬ r.Fails) ∧ taken (returns.take k) = n

/-- `send` fails while some of `n` bytes are left. -/
def Breaks (n : ℕ) (returns : List SendReturn) : Prop :=
  ∃ (k : ℕ) (h : k < returns.length), GoesOn n returns k ∧ returns[k].Fails

section Returns

variable {n k : ℕ} {r : SendReturn} {returns : List SendReturn}

theorem goesOn_zero : GoesOn n returns 0 ↔ 0 < n := by
  simp [GoesOn]

theorem goesOn_cons (hr : ¬ r.Fails) :
    GoesOn n (r :: returns) (k + 1) ↔ GoesOn (n - r.nwritten.toNat) returns k := by
  simp only [GoesOn, List.take_succ_cons, List.forall_mem_cons, hr, not_false_eq_true, true_and,
    taken_cons, lt_tsub_iff_left]

theorem Fits.head (h : Fits n (r :: returns)) (hn : 0 < n) : r.nwritten ≤ n := by
  have hfits := h 0 (Nat.succ_pos _) (goesOn_zero.mpr hn)
  simpa using hfits

theorem Fits.tail (h : Fits n (r :: returns)) (hr : ¬ r.Fails) (hn : 0 < n) :
    Fits (n - r.nwritten.toNat) returns := by
  intro k hk hgo
  have hhead := h.head hn
  have hfits := h (k + 1) (Nat.succ_lt_succ hk) ((goesOn_cons hr).mpr hgo)
  simp only [List.take_succ_cons, taken_cons, List.getElem_cons_succ] at hfits
  omega

theorem completes_zero : Completes 0 returns := ⟨0, Nat.zero_le _, by simp⟩

theorem not_breaks_zero : ¬ Breaks 0 returns := by
  rintro ⟨k, -, hgo, -⟩
  exact Nat.not_lt_zero _ hgo.2

theorem not_completes_nil (hn : 0 < n) : ¬ Completes n [] := by
  rintro ⟨k, -, -, htaken⟩
  rw [List.take_nil, taken_nil] at htaken
  omega

theorem not_breaks_nil : ¬ Breaks n [] := by
  rintro ⟨k, hk, -⟩
  exact Nat.not_lt_zero _ hk

theorem completes_cons (h : Fits n (r :: returns)) (hn : 0 < n) :
    Completes n (r :: returns) ↔ ¬ r.Fails ∧ Completes (n - r.nwritten.toNat) returns := by
  have hhead := h.head hn
  constructor
  · rintro ⟨k, hk, hall, htaken⟩
    cases k with
    | zero =>
      rw [List.take_zero, taken_nil] at htaken
      omega
    | succ k =>
      rw [List.take_succ_cons] at hall htaken
      obtain ⟨hr, hall⟩ := List.forall_mem_cons.mp hall
      rw [taken_cons] at htaken
      exact ⟨hr, k, Nat.le_of_succ_le_succ hk, hall, by omega⟩
  · rintro ⟨hr, k, hk, hall, htaken⟩
    refine ⟨k + 1, Nat.succ_le_succ hk, ?_, ?_⟩
    · rw [List.take_succ_cons]
      exact List.forall_mem_cons.mpr ⟨hr, hall⟩
    · rw [List.take_succ_cons, taken_cons]
      omega

theorem breaks_cons (hn : 0 < n) :
    Breaks n (r :: returns) ↔ r.Fails ∨ ¬ r.Fails ∧ Breaks (n - r.nwritten.toNat) returns := by
  constructor
  · rintro ⟨k, hk, hgo, hfails⟩
    cases k with
    | zero => exact .inl hfails
    | succ k =>
      have hr : ¬ r.Fails := hgo.1 r (by simp)
      exact .inr ⟨hr, k, Nat.lt_of_succ_lt_succ hk, (goesOn_cons hr).mp hgo, hfails⟩
  · rintro (hr | ⟨hr, k, hk, hgo, hfails⟩)
    · exact ⟨0, Nat.succ_pos _, goesOn_zero.mpr hn, hr⟩
    · exact ⟨k + 1, Nat.succ_lt_succ hk, (goesOn_cons hr).mpr hgo, hfails⟩

end Returns

section Loop

variable {nbytes nleft : ℤ} {r : SendReturn} {returns : List SendReturn} {ptr : List Byte}

theorem writeLoop_done (h : ¬ 0 < nleft) :
    writeLoop nbytes returns ptr nleft = ⟨some (nbytes - nleft), [.unlock]⟩ := by
  rw [writeLoop.eq_def, if_neg h]

theorem writeLoop_waits (h : 0 < nleft) : writeLoop nbytes [] ptr nleft = ⟨none, []⟩ := by
  rw [writeLoop, if_pos h]

theorem writeLoop_interrupted (h : 0 < nleft) (hw : r.nwritten ≤ 0) (he : r.errno = eintr) :
    writeLoop nbytes (r :: returns) ptr nleft =
      (writeLoop nbytes returns ptr nleft).after (.send ⟨ptr.take nleft.toNat, r.nwritten⟩) := by
  rw [writeLoop, if_pos h]
  simp only [if_pos hw, if_pos he]

theorem writeLoop_failed (h : 0 < nleft) (hw : r.nwritten ≤ 0) (he : r.errno ≠ eintr) :
    writeLoop nbytes (r :: returns) ptr nleft =
      ⟨some (-1), [.send ⟨ptr.take nleft.toNat, r.nwritten⟩, .unlock]⟩ := by
  rw [writeLoop, if_pos h]
  simp only [if_pos hw, if_neg he]

theorem writeLoop_accepted (h : 0 < nleft) (hw : ¬ r.nwritten ≤ 0) :
    writeLoop nbytes (r :: returns) ptr nleft =
      (writeLoop nbytes returns (ptr.drop r.nwritten.toNat) (nleft - r.nwritten)).after
        (.send ⟨ptr.take nleft.toNat, r.nwritten⟩) := by
  rw [writeLoop, if_pos h]
  simp only [if_neg hw]

end Loop

/-- What is known of the loop when it has `left` to send. What it accepts is a prefix of that. It
calls `send` until all is accepted or a call fails, offers what is left each time, and unlocks when
it ends. It returns `nbytes` when all was accepted, -1 when a call failed, and nothing before. -/
structure Sends (nbytes : ℤ) (left : List Byte) (returns : List SendReturn) (run : WriteRun) :
    Prop where
  isPrefix : accepted run.actions <+: left
  calls : ∃ k ≤ returns.length, (∀ j < k, GoesOn left.length returns j) ∧
    (run.result = none → k = returns.length) ∧
    run.actions = offered left (returns.take k) ++ if run.result.isSome then [.unlock] else []
  outcome : (Completes left.length returns ∧ ¬ Breaks left.length returns ∧
      run.result = some nbytes ∧ accepted run.actions = left) ∨
    (Breaks left.length returns ∧ ¬ Completes left.length returns ∧
      run.result = some (-1) ∧ accepted run.actions ≠ left) ∨
    (¬ Completes left.length returns ∧ ¬ Breaks left.length returns ∧ run.result = none)

namespace Sends

variable {nbytes : ℤ} {left : List Byte} {r : SendReturn} {returns : List SendReturn}
  {run : WriteRun}

theorem waits (hleft : left ≠ []) : Sends nbytes left [] ⟨none, []⟩ where
  isPrefix := List.nil_prefix
  calls := ⟨0, le_rfl, fun j hj => absurd hj (Nat.not_lt_zero j), fun _ => rfl, rfl⟩
  outcome :=
    .inr (.inr ⟨not_completes_nil (List.length_pos_iff.mpr hleft), not_breaks_nil, rfl⟩)

theorem done : Sends nbytes [] returns ⟨some nbytes, [.unlock]⟩ where
  isPrefix := List.nil_prefix
  calls := ⟨0, Nat.zero_le _, fun j hj => absurd hj (Nat.not_lt_zero j),
    fun h => absurd h (Option.some_ne_none _), rfl⟩
  outcome := .inl ⟨completes_zero, not_breaks_zero, rfl, rfl⟩

/-- A `send` that fails ends the loop. -/
theorem failed (hr : r.Fails) (hleft : left ≠ []) (hf : Fits left.length (r :: returns)) :
    Sends nbytes left (r :: returns) ⟨some (-1), [.send ⟨left, r.nwritten⟩, .unlock]⟩ := by
  have hpos := List.length_pos_iff.mpr hleft
  have hnone : accepted [.send ⟨left, r.nwritten⟩, .unlock] = [] := by
    simp [Sent.accepted, Int.toNat_of_nonpos hr.1]
  refine ⟨?_, ⟨1, by simp, fun j hj => ?_, fun h => absurd h (Option.some_ne_none _), rfl⟩,
    .inr (.inl ⟨?_, ?_, rfl, ?_⟩)⟩
  · rw [hnone]
    exact List.nil_prefix
  · obtain rfl := Nat.lt_one_iff.mp hj
    exact goesOn_zero.mpr hpos
  · exact (breaks_cons hpos).mpr (.inl hr)
  · rw [completes_cons hf hpos]
    exact fun h => h.1 hr
  · rw [hnone]
    exact hleft.symm

/-- Any other `send` puts the bytes that it accepts before those of the rest. -/
theorem after (hr : ¬ r.Fails) (hleft : left ≠ []) (hf : Fits left.length (r :: returns))
    (h : Sends nbytes (left.drop r.nwritten.toNat) returns run) :
    Sends nbytes left (r :: returns) (run.after (.send ⟨left, r.nwritten⟩)) := by
  have hpos := List.length_pos_iff.mpr hleft
  obtain ⟨hsent, ⟨k, hk, hgo, hwaits, hactions⟩, houtcome⟩ := h
  have hall : accepted (run.after (.send ⟨left, r.nwritten⟩)).actions =
      left.take r.nwritten.toNat ++ accepted run.actions := rfl
  have hsplit := List.take_append_drop r.nwritten.toNat left
  have hwhole : accepted (run.after (.send ⟨left, r.nwritten⟩)).actions = left ↔
      accepted run.actions = left.drop r.nwritten.toNat := by
    rw [hall]
    nth_rewrite 2 [← hsplit]
    exact List.append_right_inj _
  rw [List.length_drop] at hgo houtcome
  refine ⟨?_, ⟨k + 1, Nat.succ_le_succ hk, fun j hj => ?_, fun hnone => ?_, ?_⟩, ?_⟩
  · rw [hall]
    nth_rewrite 2 [← hsplit]
    exact (List.prefix_append_right_inj _).mpr hsent
  · cases j with
    | zero => exact goesOn_zero.mpr hpos
    | succ j => exact (goesOn_cons hr).mpr (hgo j (Nat.lt_of_succ_lt_succ hj))
  · rw [hwaits hnone, List.length_cons]
  · rw [WriteRun.after_actions, WriteRun.after_result, hactions]
    rfl
  · rw [completes_cons hf hpos, breaks_cons hpos, WriteRun.after_result, ne_eq, hwhole]
    simpa only [hr, not_false_eq_true, true_and, false_or] using houtcome

end Sends

theorem take_ne_nil {ptr : List Byte} {nleft : ℤ} (h : 0 < nleft) (hlen : nleft ≤ ptr.length) :
    ptr.take nleft.toNat ≠ [] := by
  rw [← List.length_pos_iff, List.length_take]
  omega

theorem length_take {ptr : List Byte} {nleft : ℤ} (hlen : nleft ≤ ptr.length) :
    (ptr.take nleft.toNat).length = nleft.toNat := by
  rw [List.length_take]
  omega

/-- Behind the bytes that were accepted lies what the moved pointer and the counter stand for. -/
theorem drop_take (ptr : List Byte) {nleft nwritten : ℤ} (h0 : 0 ≤ nwritten) :
    (ptr.take nleft.toNat).drop nwritten.toNat =
      (ptr.drop nwritten.toNat).take (nleft - nwritten).toNat := by
  rw [List.drop_take]
  congr 1
  omega

/-- The pointer moves by what was accepted, and `nleft` counts what is left. -/
theorem writeLoop_sends (nbytes : ℤ) (returns : List SendReturn) (ptr : List Byte) (nleft : ℤ)
    (h0 : 0 ≤ nleft) (hlen : nleft ≤ ptr.length) (hf : Fits nleft.toNat returns) :
    Sends nbytes (ptr.take nleft.toNat) returns (writeLoop nbytes returns ptr nleft) := by
  induction returns generalizing ptr nleft with
  | nil =>
    by_cases hleft : 0 < nleft
    · rw [writeLoop_waits hleft]
      exact .waits (take_ne_nil hleft hlen)
    · obtain rfl : nleft = 0 := by omega
      rw [writeLoop_done hleft, sub_zero]
      exact .done
  | cons r returns ih =>
    by_cases hleft : 0 < nleft
    · have hne := take_ne_nil hleft hlen
      have hhead := hf.head (by omega)
      have hlength := length_take hlen
      by_cases hw : r.nwritten ≤ 0
      · by_cases he : r.errno = eintr
        · have hr : ¬ r.Fails := fun h => h.2 he
          have hzero : r.nwritten.toNat = 0 := Int.toNat_of_nonpos hw
          have htail := hf.tail hr (by omega)
          rw [hzero, Nat.sub_zero] at htail
          rw [writeLoop_interrupted hleft hw he]
          refine .after hr hne (hlength.symm ▸ hf) ?_
          rw [hzero, List.drop_zero]
          exact ih ptr nleft h0 hlen htail
        · rw [writeLoop_failed hleft hw he]
          exact .failed ⟨hw, he⟩ hne (hlength.symm ▸ hf)
      · have hr : ¬ r.Fails := fun h => hw h.1
        have htail := hf.tail hr (by omega)
        have hrest : nleft.toNat - r.nwritten.toNat = (nleft - r.nwritten).toNat := by omega
        rw [hrest] at htail
        rw [writeLoop_accepted hleft hw]
        refine .after hr hne (hlength.symm ▸ hf) ?_
        rw [drop_take ptr (by omega)]
        exact ih (ptr.drop r.nwritten.toNat) (nleft - r.nwritten) (by omega)
          (by rw [List.length_drop]; omega) htail
    · obtain rfl : nleft = 0 := by omega
      rw [writeLoop_done hleft, sub_zero]
      exact .done

/-- The state that SendPhase sees: an interruption, a failure or a positive count. -/
def SendReturn.event (r : SendReturn) : SendEvent :=
  if r.nwritten ≤ 0 then if r.errno = eintr then .interrupted else .failed
  else .accept (r.nwritten.toNat - 1)

theorem accepted_of_nonpos {s : Sent} (h : s.nwritten ≤ 0) : s.accepted = [] := by
  rw [Sent.accepted, Int.toNat_of_nonpos h, List.take_zero]

/-- The loop over the buffer that is left is the loop with pointer and counter. -/
theorem writeLoop_refines (nbytes : ℤ) (returns : List SendReturn) (ptr : List Byte) (nleft : ℤ)
    (h0 : 0 ≤ nleft) (hlen : nleft ≤ ptr.length) (hf : Fits nleft.toNat returns) :
    let left := MelsecMc.writeLoop (returns.map SendReturn.event) (ptr.take nleft.toNat)
    (writeLoop nbytes returns ptr nleft).result =
        left.result.map (fun ok => if ok then nbytes else -1) ∧
      accepted (writeLoop nbytes returns ptr nleft).actions = left.accepted := by
  induction returns generalizing ptr nleft with
  | nil =>
    by_cases hleft : 0 < nleft
    · obtain ⟨b, bytes, hcons⟩ := List.exists_cons_of_ne_nil (take_ne_nil hleft hlen)
      simp [writeLoop_waits hleft, hcons, MelsecMc.writeLoop]
    · obtain rfl : nleft = 0 := by omega
      simp [writeLoop_done hleft, MelsecMc.writeLoop]
  | cons r returns ih =>
    by_cases hleft : 0 < nleft
    · obtain ⟨b, bytes, hcons⟩ := List.exists_cons_of_ne_nil (take_ne_nil hleft hlen)
      have hhead := hf.head (by omega)
      by_cases hw : r.nwritten ≤ 0
      · have hnone : Sent.accepted ⟨b :: bytes, r.nwritten⟩ = [] := accepted_of_nonpos hw
        by_cases he : r.errno = eintr
        · have hevent : r.event = .interrupted := by simp [SendReturn.event, hw, he]
          have htail := hf.tail (fun h => h.2 he) (by omega)
          rw [Int.toNat_of_nonpos hw, Nat.sub_zero] at htail
          rw [writeLoop_interrupted hleft hw he]
          have hrest := ih ptr nleft h0 hlen htail
          simpa [hevent, hcons, MelsecMc.writeLoop, hnone] using hrest
        · have hevent : r.event = .failed := by simp [SendReturn.event, hw, he]
          rw [writeLoop_failed hleft hw he]
          simp [hevent, hcons, MelsecMc.writeLoop, hnone]
      · have htail := hf.tail (fun h => hw h.1) (by omega)
        have hrest : nleft.toNat - r.nwritten.toNat = (nleft - r.nwritten).toNat := by omega
        rw [hrest] at htail
        rw [writeLoop_accepted hleft hw]
        obtain ⟨k, hk⟩ := Int.eq_ofNat_of_zero_le (a := r.nwritten - 1) (by omega)
        have hevent : r.event = .accept k := by simp [SendReturn.event, hw]; omega
        have hcount : r.nwritten.toNat = k + 1 := by omega
        have hloop := ih (ptr.drop r.nwritten.toNat) (nleft - r.nwritten) (by omega)
          (by rw [List.length_drop]; omega) htail
        have hdrop : (ptr.take nleft.toNat).drop r.nwritten.toNat = _ := drop_take ptr (by omega)
        rw [hcount] at hdrop
        simp only [List.map_cons, hevent, hcons, MelsecMc.writeLoop, WriteRun.after_result,
          WriteRun.after_actions, accepted_send, Sent.accepted, hcount]
        rw [← hcons, hdrop, ← hcount]
        exact ⟨hloop.1, congrArg _ hloop.2⟩
    · obtain rfl : nleft = 0 := by omega
      simp [writeLoop_done hleft, MelsecMc.writeLoop]

section Run

variable {fd : ℤ} {buf : List Byte} {n : ℕ} {returns : List SendReturn}

theorem mcWriteMsg_loop (hfd : 0 < fd) (hn : 0 < n) :
    mcWriteMsg fd (some buf) n returns = (writeLoop n returns buf n).after .lock := by
  rw [mcWriteMsg, if_neg (by omega)]

theorem mcWriteMsg_refused (hfd : fd ≤ 0) : mcWriteMsg fd (some buf) n returns = ⟨some (-1), []⟩ :=
  if_pos (.inl hfd)

/-- `mc_write_msg` returns and sends what the transactions take it to. -/
theorem mcWriteMsg_refines (hn : 0 < n) (hbuf : n ≤ buf.length) (hf : Fits n returns) :
    let written := MelsecMc.mcWriteMsg fd (buf.take n) (returns.map SendReturn.event)
    (mcWriteMsg fd (some buf) n returns).result = written.result ∧
      accepted (mcWriteMsg fd (some buf) n returns).actions = written.accepted := by
  have hlen : (buf.take n).length = n := List.length_take_of_le hbuf
  have hne : buf.take n ≠ [] := List.ne_nil_of_length_pos (by omega)
  by_cases hfd : fd ≤ 0
  · simp [mcWriteMsg_refused hfd, MelsecMc.mcWriteMsg, hfd]
  · have hrefines := writeLoop_refines n returns buf n (by omega) (by omega) hf
    rw [mcWriteMsg_loop (by omega) hn]
    simp only [MelsecMc.mcWriteMsg, hfd, hne, or_self, if_false, hlen]
    exact hrefines

end Run

/-- Whatever `send` returns, `mc_write_msg` calls it until the buffer is accepted or a call fails,
each time with the rest of the buffer, so what the socket has accepted is a prefix of the buffer at
every moment. It returns `n` if and only if the whole buffer was accepted, and -1 if and only if a
call failed before that, other than by an interruption; there is no other result, and the result is
that of the function that the transactions use. `g_connection_mutex` is locked before the first call
and unlocked once behind the last one. On an invalid descriptor nothing is locked or sent. -/
theorem mcWriteMsg_sends (fd : ℤ) (buf : List Byte) (n : ℕ) (returns : List SendReturn)
    (hn : 0 < n) (hbuf : n ≤ buf.length) (hf : Fits n returns) :
    let run := mcWriteMsg fd (some buf) n returns
    (∀ actions, actions <+: run.actions → accepted actions <+: buf.take n) ∧
    (∀ result, run.result = some result →
      result = if accepted run.actions = buf.take n then (n : ℤ) else -1) ∧
    (0 < fd →
      (∃ k ≤ returns.length, (∀ j < k, GoesOn n returns j) ∧
        (run.result = none → k = returns.length) ∧
        run.actions = .lock :: offered (buf.take n) (returns.take k) ++
          if run.result.isSome then [.unlock] else []) ∧
      (run.result = some (n : ℤ) ↔ Completes n returns) ∧
      (run.result = some (-1) ↔ Breaks n returns) ∧
      (run.result.isSome ↔ Completes n returns ∨ Breaks n returns)) ∧
    (fd ≤ 0 → run = ⟨some (-1), []⟩) ∧
    run.result = (MelsecMc.mcWriteMsg fd (buf.take n) (returns.map SendReturn.event)).result ∧
    accepted run.actions =
      (MelsecMc.mcWriteMsg fd (buf.take n) (returns.map SendReturn.event)).accepted := by
  have hlen : (buf.take n).length = n := List.length_take_of_le hbuf
  have hne : buf.take n ≠ [] := List.ne_nil_of_length_pos (by omega)
  intro run
  have hrefines : run.result = _ ∧ accepted run.actions = _ := mcWriteMsg_refines hn hbuf hf
  by_cases hfd : fd ≤ 0
  · have hrun : run = ⟨some (-1), []⟩ := mcWriteMsg_refused hfd
    refine ⟨fun actions h => ?_, fun result hr => ?_, fun h => absurd hfd (not_le.mpr h),
      fun _ => hrun, hrefines⟩
    · rw [hrun] at h
      exact (accepted_mono h).trans List.nil_prefix
    · rw [hrun] at hr ⊢
      obtain rfl := Option.some.inj hr
      rw [accepted_nil, if_neg hne.symm]
  · have hrun : run = (writeLoop n returns buf n).after .lock := mcWriteMsg_loop (by omega) hn
    obtain ⟨hsent, hcalls, houtcome⟩ := writeLoop_sends n returns buf n (by omega) (by omega) hf
    rw [Int.toNat_natCast] at hsent hcalls houtcome
    rw [hlen] at hcalls houtcome
    refine ⟨fun actions h => ?_, fun result hr => ?_, fun _ => ⟨?_, ?_, ?_, ?_⟩,
      fun h => absurd h hfd, hrefines⟩
    · rw [hrun] at h
      exact (accepted_mono h).trans hsent
    · rw [hrun, WriteRun.after_result] at hr
      rw [hrun, WriteRun.after_actions, accepted_lock]
      rcases houtcome with ⟨-, -, hres, hall⟩ | ⟨-, -, hres, hall⟩ | ⟨-, -, hres⟩
      · rw [if_pos hall, Option.some.inj (hr.symm.trans hres)]
      · rw [if_neg hall, Option.some.inj (hr.symm.trans hres)]
      · rw [hres] at hr
        cases hr
    · obtain ⟨k, hk, hgo, hwaits, hactions⟩ := hcalls
      refine ⟨k, hk, hgo, ?_, ?_⟩
      · rw [hrun]
        exact hwaits
      · rw [hrun, WriteRun.after_actions, WriteRun.after_result, hactions]
        rfl
    all_goals
      rw [hrun, WriteRun.after_result]
      rcases houtcome with ⟨hc, hb, hres, -⟩ | ⟨hb, hc, hres, -⟩ | ⟨hc, hb, hres⟩ <;>
        simp [hc, hb, hres]

/-- A partial count, an interruption, zero with `EINTR` in `errno`, and the rest. -/
theorem mcWriteMsg_sends_partial :
    (mcWriteMsg 3 (some [0x50, 0x00, 0x01, 0xFF]) 3 [⟨2, 0⟩, ⟨-1, 4⟩, ⟨0, 4⟩, ⟨1, 0⟩]).result =
      some (3 : ℕ) :=
  ((mcWriteMsg_sends 3 [0x50, 0x00, 0x01, 0xFF] 3 [⟨2, 0⟩, ⟨-1, 4⟩, ⟨0, 4⟩, ⟨1, 0⟩]
    (by decide) (by decide) (by decide)).2.2.1 (by decide)).2.1.mpr ⟨4, by decide⟩

end MelsecMc.SendRecord
