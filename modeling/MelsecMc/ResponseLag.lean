import MelsecMc.Transactions

/-!
# How far responses lag behind requests

A call whose `recv` fails before its response arrives leaves the response in the
stream, and every later call reads one response late. Nothing ever catches up:
the lag is the number of calls on this connection that timed out so far.
-/
namespace MelsecMc

open FramedStream

variable {P : Protocol}

namespace Exchange

/-- The request of a call goes out. -/
def GoesOut (fd : ℤ) (x : Exchange) : Prop :=
  x.lockRet = .success ∧ (sendPhase fd x.cmd x.retryCount x.sends).result = some true

instance (fd : ℤ) (x : Exchange) : Decidable (x.GoesOut fd) := inferInstanceAs (Decidable (_ ∧ _))

/-- Neither the request nor the response of a call is broken off: `send` does not fail inside the
request, and `recv` fails before the first byte of a response or not at all. -/
structure Whole (P : Protocol) (x : Exchange) : Prop where
  cmd : IsFrame P.request x.cmd
  sends : Unbroken x.cmd.length 0 x.sends
  recvs : Live x.recvs ∨ quits x.recvs = true

/-- The requests that went out. -/
def requests (fd : ℤ) (xs : List Exchange) : List (List Byte) :=
  (xs.filter fun x => x.GoesOut fd).map cmd

/-- The number of calls that timed out with their request on its way. -/
def timeouts (fd : ℤ) (xs : List Exchange) : ℕ :=
  xs.countP fun x => x.GoesOut fd && quits x.recvs

/-- The number of responses that calls received. -/
def responses (fd : ℤ) (xs : List Exchange) : ℕ :=
  xs.countP fun x => x.GoesOut fd && !quits x.recvs

theorem requests_concat (fd : ℤ) (xs : List Exchange) (x : Exchange) :
    requests fd (xs ++ [x]) = requests fd xs ++ if x.GoesOut fd then [x.cmd] else [] := by
  by_cases hx : x.GoesOut fd
  · simp [requests, hx]
  · simp [requests, hx]

theorem responses_concat (fd : ℤ) (xs : List Exchange) (x : Exchange) :
    responses fd (xs ++ [x]) =
      responses fd xs + if x.GoesOut fd && !quits x.recvs then 1 else 0 := by
  simp [responses, List.countP_append, List.countP_cons]

/-- A request that went out has its response received, or its call timed out. -/
theorem responses_add_timeouts (fd : ℤ) (xs : List Exchange) :
    responses fd xs + timeouts fd xs = (requests fd xs).length := by
  induction xs with
  | nil => rfl
  | cons x xs ih =>
    simp only [responses, timeouts, requests, List.length_map] at ih ⊢
    by_cases hx : x.GoesOut fd
    · cases hq : quits x.recvs with
      | true => simp [hx, hq, ← ih, Nat.add_assoc]
      | false => simp [hx, hq, ← ih, Nat.add_right_comm]
    · simp [hx, ih]

end Exchange

/-- All answers are complete frames with a valid length field. -/
def Plc.Framed (plc : Plc P) : Prop := ∀ n cmd, IsFrame P.response (plc.answer n cmd)

/-- The responses to `cmds`, in order. -/
def Plc.answers (plc : Plc P) (cmds : List (List Byte)) : List (List Byte) := cmds.mapIdx plc.answer

/-- A connection on which the requests `cmds` arrived, and the first `n` responses were read. -/
structure Line.Behind (plc : Plc P) (line : Line) (cmds : List (List Byte)) (n : ℕ) : Prop where
  toPlc : line.toPlc = []
  answered : line.answered = cmds.length
  fromPlc : line.fromPlc = ((plc.answers cmds).drop n).flatten
  le : n ≤ cmds.length

namespace Line

variable {plc : Plc P} {fd : ℤ} {line : Line} {cmds : List (List Byte)} {n : ℕ} {x : Exchange}

theorem fresh_behind (plc : Plc P) : fresh.Behind plc [] 0 := ⟨rfl, rfl, rfl, le_rfl⟩

theorem Behind.append (h : line.Behind plc cmds n) (cmd : List Byte) :
    line.fromPlc ++ plc.answer line.answered cmd =
      ((plc.answers (cmds ++ [cmd])).drop n).flatten := by
  have hall : plc.answers (cmds ++ [cmd]) = plc.answers cmds ++ [plc.answer cmds.length cmd] :=
    List.mapIdx_concat
  have hlen : n ≤ (plc.answers cmds).length := by
    rw [Plc.answers, List.length_mapIdx]
    exact h.le
  rw [hall, List.drop_append_of_le_length hlen, List.flatten_append, List.flatten_singleton,
    h.fromPlc, h.answered]

/-- With one more request on its way, the next response to be read is the one to request `n`. -/
theorem Behind.next (h : line.Behind plc cmds n) (cmd : List Byte) :
    ∃ c, (cmds ++ [cmd])[n]? = some c ∧
      line.fromPlc ++ plc.answer line.answered cmd =
        plc.answer n c ++ ((plc.answers (cmds ++ [cmd])).drop (n + 1)).flatten := by
  have hlt : n < (cmds ++ [cmd]).length := by
    have hle := h.le
    simp only [List.length_append, List.length_singleton]
    omega
  refine ⟨_, List.getElem?_eq_getElem hlt, ?_⟩
  have hdrop : (plc.answers (cmds ++ [cmd])).drop n =
      plc.answer n (cmds ++ [cmd])[n] :: (plc.answers (cmds ++ [cmd])).drop (n + 1) := by
    rw [List.drop_eq_getElem_cons (by rwa [Plc.answers, List.length_mapIdx])]
    simp only [Plc.answers, List.getElem_mapIdx]
  rw [h.append, hdrop, List.flatten_cons]

/-- A call whose request does not go out leaves the connection as it is. -/
theorem Behind.not_out (h : line.Behind plc cmds n) (hfd : 0 < fd) (hx : x.Whole P)
    (hout : ¬ x.GoesOut fd) (hcode : (transaction plc fd line x).code ≠ none) :
    (transaction plc fd line x).line = line := by
  unfold transaction at hcode ⊢
  split
  · rfl
  · rename_i hlock
    rw [if_neg hlock] at hcode
    cases hs : (sendPhase fd x.cmd x.retryCount x.sends).result with
    | none => simp [hs] at hcode
    | some ok =>
      cases ok with
      | false =>
        have hnil := sendPhase_failed hfd (hx.cmd.ne_nil P.request P.request_header) hx.sends hs
        obtain ⟨toPlc, fromPlc, answered⟩ := line
        obtain rfl : toPlc = [] := h.toPlc
        simp [hs, hnil, receive, splitFrames]
      | true => exact absurd ⟨not_not.mp hlock, hs⟩ hout

/-- A call that times out leaves one response more to be read. -/
theorem Behind.timed_out (h : line.Behind plc cmds n) (hfd : 0 < fd) (hx : x.Whole P)
    (hout : x.GoesOut fd) (hq : quits x.recvs = true) :
    (transaction plc fd line x).line.Behind plc (cmds ++ [x.cmd]) n ∧
      (transaction plc fd line x).code ≠ some .success := by
  obtain ⟨ho, hrest⟩ := readFrame_quits P.response P.response_header hq
    (line.fromPlc ++ plc.answer line.answered x.cmd)
  obtain ⟨hread, hleft, -, -⟩ := P.readResponse_follows hfd .zero 0 x.recvs
    (line.fromPlc ++ plc.answer line.answered x.cmd)
  rw [transaction_sent h.toPlc hx.cmd hout.1 hout.2 hx.sends]
  constructor
  · refine ⟨rfl, by simp [h.answered], hleft.trans (hrest.trans (h.append x.cmd)), ?_⟩
    exact h.le.trans (by simp)
  · simp only [hread]
    rcases ho with ho | ho
    · simp [ho, Protocol.frameCode, recvCode]
    · simp [ho, Protocol.frameCode, recvCode]

/-- A call whose `recv` does not fail reads the response to request `n`. -/
theorem Behind.received (h : line.Behind plc cmds n) (hplc : plc.Framed) (hfd : 0 < fd)
    (hx : x.Whole P) (hout : x.GoesOut fd) (hl : Live x.recvs)
    (hcode : (transaction plc fd line x).code ≠ none) :
    (transaction plc fd line x).line.Behind plc (cmds ++ [x.cmd]) (n + 1) ∧
      ∃ c, (cmds ++ [x.cmd])[n]? = some c ∧
        (transaction plc fd line x).response = .ofFrame (plc.answer n c) := by
  obtain ⟨c, hc, hnext⟩ := h.next x.cmd
  have hf := hplc n c
  rw [transaction_sent h.toPlc hx.cmd hout.1 hout.2 hx.sends, hnext] at hcode ⊢
  obtain ⟨hor, -⟩ := P.readResponse_of_live hfd .zero 0
    ((plc.answers (cmds ++ [x.cmd])).drop (n + 1)).flatten hf hl
  rcases hor with hor | ⟨hor, -⟩
  · obtain ⟨hres, -, hrest⟩ := P.readResponse_success hfd .zero 0 hf hor
    have hle := h.le
    refine ⟨⟨rfl, by simp [h.answered], hrest, ?_⟩, c, hc, hres⟩
    simp only [List.length_append, List.length_singleton]
    omega
  · exact absurd (by simp only [hor, Option.map_none]) hcode

/-- One call, as far as its request goes out and its `recv` fails. -/
theorem Behind.step (h : line.Behind plc cmds n) (hplc : plc.Framed) (hfd : 0 < fd)
    (hx : x.Whole P)
    (hcode : (transaction plc fd line x).code ≠ none) :
    (transaction plc fd line x).line.Behind plc
      (cmds ++ if x.GoesOut fd then [x.cmd] else [])
      (n + if x.GoesOut fd && !quits x.recvs then 1 else 0) := by
  by_cases hout : x.GoesOut fd
  · cases hq : quits x.recvs with
    | true => simpa [hout] using (h.timed_out hfd hx hout hq).1
    | false =>
      have hl : Live x.recvs := hx.recvs.resolve_right (by simp [hq])
      simpa [hout] using (h.received hplc hfd hx hout hl hcode).1
  · simpa [hout, h.not_out hfd hx hout hcode] using h

end Line

theorem afterAll_concat (plc : Plc P) (fd : ℤ) (line : Line) (xs : List Exchange) (x : Exchange) :
    afterAll plc fd line (xs ++ [x]) = (afterAll plc fd line xs).bind fun line =>
      if (transaction plc fd line x).code = none then none
      else some (transaction plc fd line x).line := by
  induction xs generalizing line with
  | nil => simp [afterAll]
  | cons y ys ih =>
    simp only [List.cons_append, afterAll]
    split
    · rfl
    · exact ih _

/-- After a sequence of calls, what is left in the stream are the responses from the number of
those received on. -/
theorem afterAll_behind {plc : Plc P} (hplc : plc.Framed) {fd : ℤ} (hfd : 0 < fd)
    (xs : List Exchange)
    (hwhole : ∀ x ∈ xs, x.Whole P) {line : Line} (h : afterAll plc fd .fresh xs = some line) :
    line.Behind plc (Exchange.requests fd xs) (Exchange.responses fd xs) := by
  induction xs using List.reverseRecOn generalizing line with
  | nil =>
    obtain rfl := Option.some.inj h
    exact Line.fresh_behind plc
  | append_singleton xs x ih =>
    rw [afterAll_concat] at h
    obtain ⟨before, hbefore, h⟩ := Option.bind_eq_some_iff.mp h
    split at h
    · simp at h
    · rename_i hcode
      obtain rfl := Option.some.inj h
      have hb := ih (fun y hy => hwhole y (List.mem_append_left [x] hy)) hbefore
      have hx := hwhole x (List.mem_append_right xs List.mem_cons_self)
      rw [Exchange.requests_concat, Exchange.responses_concat]
      exact hb.step hplc hfd hx hcode

/-- In every sequence of calls of either module on one connection, where neither requests nor
responses are broken off and all answers are complete frames with a valid length field, a call that
succeeds returns the response to an earlier request. It is as many requests before its own as calls
on this connection timed out so far, whatever was received since. -/
theorem responses_lag (m : Module) (plc : Plc m.protocol) (hplc : plc.Framed) (fd : ℤ)
    (hfd : 0 < fd)
    (earlier : List Exchange) (x : Exchange) (line : Line)
    (hline : afterAll plc fd .fresh earlier = some line)
    (hwhole : ∀ y ∈ earlier ++ [x], y.Whole m.protocol)
    (hcode : (transaction plc fd line x).code = some .success) :
    ∃ n cmd, n + Exchange.timeouts fd earlier = (Exchange.requests fd earlier).length ∧
      (Exchange.requests fd earlier ++ [x.cmd])[n]? = some cmd ∧
      (transaction plc fd line x).response = .ofFrame (plc.answer n cmd) := by
  have hb := afterAll_behind hplc hfd earlier
    (fun y hy => hwhole y (List.mem_append_left [x] hy)) hline
  have hx := hwhole x (List.mem_append_right earlier List.mem_cons_self)
  have hout : x.GoesOut fd := transaction_success hcode
  have hl : Live x.recvs := by
    refine hx.recvs.resolve_right fun hq => ?_
    exact (hb.timed_out hfd hx hout hq).2 hcode
  obtain ⟨-, cmd, hcmd, hres⟩ := hb.received hplc hfd hx hout hl (by simp [hcode])
  exact ⟨_, cmd, Exchange.responses_add_timeouts fd earlier, hcmd, hres⟩

/-- One call times out, the next one succeeds with its response, and so does the one after it with
the response to the second request. -/
theorem responses_lag_third :
    ∃ n cmd, n + 1 = 2 ∧ ([readD140, readD140] ++ [readD140])[n]? = some cmd ∧
      (transaction numbering 3 ⟨[], numbering.answer 1 readD140, 2⟩
        (readingD140 [.deliver 10, .deliver 1])).response = .ofFrame (numbering.answer n cmd) :=
  responses_lag .binary numbering numbering_isFrame 3 (by decide)
    [readingD140 [.interrupted, .failed], readingD140 [.deliver 10, .deliver 1]]
    (readingD140 [.deliver 10, .deliver 1]) ⟨[], numbering.answer 1 readD140, 2⟩ (by decide)
    (by
      intro y hy
      have hy : y = readingD140 [.interrupted, .failed] ∨
          y = readingD140 [.deliver 10, .deliver 1] := by simpa using hy
      rcases hy with rfl | rfl
      · exact ⟨by decide, by decide, .inr rfl⟩
      · exact ⟨by decide, by decide, .inl (by unfold Live; decide)⟩)
    (by decide)

end MelsecMc
