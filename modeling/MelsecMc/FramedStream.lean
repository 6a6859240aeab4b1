import Mathlib.Tactic

/-!
# Exact reads of self-delimiting frames from a byte stream

A reader asks a stream for an exact number of symbols. The stream hands them
over in pieces chosen by its environment, with interruptions in between, or
fails. A framing fixes how many symbols are read first and how the size of the
whole frame follows from them. A completed read depends on the stream alone,
never on how it was cut into pieces.
-/
namespace MelsecMc.FramedStream

/-- What the environment does at one request for a positive number of symbols.
`deliver k` hands over at most `k + 1` of the symbols that are there. -/
inductive Event where
  | deliver (k : ℕ)
  | interrupted
  | closed
  | failed
  deriving DecidableEq, Repr

inductive Outcome where
  | complete
  | closed
  | failed
  | blocked
  deriving DecidableEq, Repr

/-- The end of a read: what was obtained, and what is left of stream and events. -/
structure Reading (α : Type*) where
  outcome : Outcome
  got : List α
  rest : List α
  events : List Event

/-- Read exactly `n` symbols. An interrupted request is repeated. A request that no event
answers, or whose answer finds the stream empty, never returns. -/
def readExact {α : Type*} : List Event → List α → ℕ → Reading α
  | events, stream, 0 => ⟨.complete, [], stream, events⟩
  | [], stream, _ + 1 => ⟨.blocked, [], stream, []⟩
  | .interrupted :: events, stream, n + 1 => readExact events stream (n + 1)
  | .closed :: events, stream, _ + 1 => ⟨.closed, [], stream, events⟩
  | .failed :: events, stream, _ + 1 => ⟨.failed, [], stream, events⟩
  | .deliver k :: events, stream, n + 1 =>
    let c := min (k + 1) (min (n + 1) stream.length)
    if c = 0 then ⟨.blocked, [], stream, events⟩
    else
      let tail := readExact events (stream.drop c) (n + 1 - c)
      { tail with got := stream.take c ++ tail.got }

/-- Nothing is lost or reordered, whatever the events and the outcome. -/
theorem readExact_split {α : Type*} (events : List Event) (stream : List α) (n : ℕ) :
    (readExact events stream n).got ++ (readExact events stream n).rest = stream := by
  induction events, stream, n using readExact.induct with
  | case1 events stream => simp [readExact]
  | case2 stream n => simp [readExact]
  | case3 events stream n ih => simpa [readExact] using ih
  | case4 events stream n => simp [readExact]
  | case5 events stream n => simp [readExact]
  | case6 k events stream n c hc =>
    simp only [readExact]
    rw [if_pos hc]
    rfl
  | case7 k events stream n c hc ih =>
    simp only [readExact]
    rw [if_neg hc]
    simp only [List.append_assoc]
    rw [ih, List.take_append_drop]

theorem readExact_complete {α : Type*} (events : List Event) (stream : List α) (n : ℕ)
    (h : (readExact events stream n).outcome = .complete) :
    (readExact events stream n).got.length = n := by
  induction events, stream, n using readExact.induct with
  | case1 events stream => simp [readExact]
  | case2 stream n => simp [readExact] at h
  | case3 events stream n ih => simpa [readExact] using ih (by simpa [readExact] using h)
  | case4 events stream n => simp [readExact] at h
  | case5 events stream n => simp [readExact] at h
  | case6 k events stream n c hc =>
    simp only [readExact] at h
    rw [if_pos hc] at h
    simp at h
  | case7 k events stream n c hc ih =>
    simp only [readExact] at h ⊢
    rw [if_neg hc] at h ⊢
    have hlen := ih h
    have hcn : c ≤ n + 1 := le_trans (Nat.min_le_right _ _) (Nat.min_le_left _ _)
    have hcs : c ≤ stream.length := le_trans (Nat.min_le_right _ _) (Nat.min_le_right _ _)
    change (stream.take c ++ (readExact events (stream.drop c) (n + 1 - c)).got).length = n + 1
    rw [List.length_append, hlen, List.length_take]
    omega

/-- A completed read returns the front of the stream. -/
theorem readExact_eq {α : Type*} {events : List Event} {stream : List α} {n : ℕ}
    (h : (readExact events stream n).outcome = .complete) :
    (readExact events stream n).got = stream.take n ∧
      (readExact events stream n).rest = stream.drop n ∧ n ≤ stream.length := by
  have hs := readExact_split events stream n
  have hn := readExact_complete events stream n h
  generalize readExact events stream n = reading at hs hn
  subst hs hn
  simp

/-- How a read goes does not depend on the symbols. -/
theorem readExact_congr {α : Type*} (events : List Event) (stream : List α) (n : ℕ) :
    ∀ stream' : List α, stream.length = stream'.length →
      (readExact events stream n).outcome = (readExact events stream' n).outcome ∧
        (readExact events stream n).events = (readExact events stream' n).events := by
  induction events, stream, n using readExact.induct with
  | case1 events stream => simp [readExact]
  | case2 stream n => simp [readExact]
  | case3 events stream n ih => simpa [readExact] using ih
  | case4 events stream n => simp [readExact]
  | case5 events stream n => simp [readExact]
  | case6 k events stream n c hc =>
    intro stream' h
    simp only [readExact, ← h]
    rw [if_pos hc, if_pos hc]
    exact ⟨rfl, rfl⟩
  | case7 k events stream n c hc ih =>
    intro stream' h
    simp only [readExact, ← h]
    rw [if_neg hc, if_neg hc]
    exact ih _ (by rw [List.length_drop, List.length_drop, ← h])

/-- Events of a connection that stays up. -/
def Live (events : List Event) : Prop := ∀ e ∈ events, e ≠ .closed ∧ e ≠ .failed

/-- On a live connection an exact read ends, or waits because no event is left. -/
theorem readExact_of_live {α : Type*} (events : List Event) (stream : List α) (n : ℕ)
    (hl : Live events) (hs : n ≤ stream.length) :
    ((readExact events stream n).outcome = .complete ∨
        (readExact events stream n).outcome = .blocked ∧
          (readExact events stream n).events = []) ∧
      Live (readExact events stream n).events := by
  induction events, stream, n using readExact.induct with
  | case1 events stream => simpa [readExact] using hl
  | case2 stream n => exact ⟨by simp [readExact], by simp [readExact, Live]⟩
  | case3 events stream n ih =>
    simpa [readExact] using ih (fun e he => hl e (List.mem_cons_of_mem _ he)) hs
  | case4 events stream n => exact absurd rfl (hl _ (List.mem_cons_self ..)).1
  | case5 events stream n => exact absurd rfl (hl _ (List.mem_cons_self ..)).2
  | case6 k events stream n c hc => simp only [c] at hc; omega
  | case7 k events stream n c hc ih =>
    have hh := ih (fun e he => hl e (List.mem_cons_of_mem _ he)) (by rw [List.length_drop]; omega)
    simp only [readExact]
    rw [if_neg hc]
    exact hh

/-- The number of requests that the events answer with at least one symbol. -/
def deliveries : List Event → ℕ
  | [] => 0
  | .deliver _ :: events => deliveries events + 1
  | _ :: events => deliveries events

/-- On a live connection an exact read ends as soon as enough requests are answered. -/
theorem readExact_live {α : Type*} (events : List Event) (stream : List α) (n : ℕ)
    (hl : Live events) (hd : n ≤ deliveries events) (hs : n ≤ stream.length) :
    (readExact events stream n).outcome = .complete ∧ Live (readExact events stream n).events ∧
      deliveries events ≤ deliveries (readExact events stream n).events + n := by
  induction events, stream, n using readExact.induct with
  | case1 events stream =>
    exact ⟨by simp [readExact], by simpa [readExact] using hl, by simp [readExact]⟩
  | case2 stream n => simp [deliveries] at hd
  | case3 events stream n ih =>
    simpa [readExact, deliveries] using
      ih (fun e he => hl e (List.mem_cons_of_mem _ he)) (by simpa [deliveries] using hd) hs
  | case4 events stream n => exact absurd rfl (hl _ (List.mem_cons_self ..)).1
  | case5 events stream n => exact absurd rfl (hl _ (List.mem_cons_self ..)).2
  | case6 k events stream n c hc => simp only [c] at hc; omega
  | case7 k events stream n c hc ih =>
    have hcn : c ≤ n + 1 := le_trans (Nat.min_le_right _ _) (Nat.min_le_left _ _)
    simp only [deliveries] at hd
    have hh := ih (fun e he => hl e (List.mem_cons_of_mem _ he)) (by omega)
      (by rw [List.length_drop]; omega)
    simp only [readExact, deliveries]
    rw [if_neg hc]
    refine ⟨hh.1, hh.2.1, ?_⟩
    have hdel := hh.2.2
    change deliveries events + 1 ≤
      deliveries (readExact events (stream.drop c) (n + 1 - c)).events + (n + 1)
    omega

/-- The first event other than an interruption is the end of the stream or a failure. -/
def quits : List Event → Bool
  | [] => false
  | .interrupted :: events => quits events
  | .deliver _ :: _ => false
  | .closed :: _ => true
  | .failed :: _ => true

/-- An exact read that quits leaves all of the stream. -/
theorem readExact_quits {α : Type*} {events : List Event} (hq : quits events = true)
    (stream : List α) (n : ℕ) :
    ((readExact events stream (n + 1)).outcome = .closed ∨
        (readExact events stream (n + 1)).outcome = .failed) ∧
      (readExact events stream (n + 1)).rest = stream := by
  induction events with
  | nil => simp [quits] at hq
  | cons e events ih =>
    cases e with
    | deliver k => simp [quits] at hq
    | interrupted => simpa [readExact] using ih (by simpa [quits] using hq)
    | closed => simp [readExact]
    | failed => simp [readExact]

/-- How a reader finds the end of a frame: the first `header` symbols determine its size. -/
structure Framing (α : Type*) where
  header : ℕ
  total : List α → Option ℕ
  header_le : ∀ front n, total front = some n → header ≤ n

variable {α : Type*} (F : Framing α)

/-- `frame` is delimited by its own header. -/
def IsFrame (frame : List α) : Prop :=
  F.header ≤ frame.length ∧ F.total (frame.take F.header) = some frame.length

instance (frame : List α) : Decidable (IsFrame F frame) := by
  unfold IsFrame; infer_instance

/-- No frame is the beginning of a longer one, so a stream splits into frames in one way. -/
theorem IsFrame.prefix_free {f g r s : List α} (hf : IsFrame F f) (hg : IsFrame F g)
    (h : f ++ r = g ++ s) : f = g ∧ r = s := by
  have ht : f.take F.header = g.take F.header := by
    have he := congrArg (List.take F.header) h
    rwa [List.take_append_of_le_length hf.1, List.take_append_of_le_length hg.1] at he
  have hlen : f.length = g.length := by
    have he := hf.2
    rw [ht, hg.2] at he
    exact (Option.some.inj he).symm
  exact List.append_inj h hlen

theorem IsFrame.ne_nil {f : List α} (hh : 0 < F.header) (hf : IsFrame F f) : f ≠ [] := by
  rintro rfl
  have := hf.1
  simp only [List.length_nil] at this
  omega

/-- The frame at the front of a stream, when it is complete, and what follows it. -/
def nextFrame (stream : List α) : Option (List α × List α) :=
  if F.header ≤ stream.length then
    match F.total (stream.take F.header) with
    | none => none
    | some n => if n ≤ stream.length then some (stream.take n, stream.drop n) else none
  else none

theorem nextFrame_append {f : List α} (hf : IsFrame F f) (r : List α) :
    nextFrame F (f ++ r) = some (f, r) := by
  have hl := hf.1
  unfold nextFrame
  rw [if_pos (by rw [List.length_append]; omega), List.take_append_of_le_length hl, hf.2]
  simp

theorem nextFrame_eq {stream f r : List α} (h : nextFrame F stream = some (f, r)) :
    stream = f ++ r ∧ IsFrame F f := by
  unfold nextFrame at h
  split at h
  · split at h
    · simp at h
    · rename_i n hn
      split at h
      · rename_i hlen
        simp only [Option.some.injEq, Prod.mk.injEq] at h
        obtain ⟨rfl, rfl⟩ := h
        have hle := F.header_le _ n hn
        refine ⟨(List.take_append_drop n stream).symm, ?_, ?_⟩
        · rw [List.length_take]
          omega
        · rw [List.take_take, min_eq_left hle, hn, List.length_take, min_eq_left hlen]
      · simp at h
  · simp at h

/-- The complete frames at the front of a stream, at most `fuel` of them, and what is left. -/
def splitFrames : ℕ → List α → List (List α) × List α
  | 0, stream => ([], stream)
  | fuel + 1, stream =>
    match nextFrame F stream with
    | none => ([], stream)
    | some (f, rest) =>
      let (frames, rest) := splitFrames fuel rest
      (f :: frames, rest)

theorem nextFrame_nil (hh : 0 < F.header) : nextFrame F [] = none := by
  unfold nextFrame
  rw [if_neg (by simp only [List.length_nil]; omega)]

theorem splitFrames_nil (hh : 0 < F.header) (fuel : ℕ) : splitFrames F fuel [] = ([], []) := by
  cases fuel with
  | zero => rfl
  | succ fuel => simp only [splitFrames, nextFrame_nil F hh]

theorem splitFrames_frame (hh : 0 < F.header) {f : List α} (hf : IsFrame F f) :
    splitFrames F f.length f = ([f], []) := by
  obtain ⟨n, hn⟩ : ∃ n, f.length = n + 1 := by
    have := hf.1
    exact ⟨f.length - 1, by omega⟩
  have hnext := nextFrame_append F hf []
  rw [List.append_nil] at hnext
  rw [hn]
  simp only [splitFrames, hnext, splitFrames_nil F hh]

/-- How many more symbols a reader asks for that has read `got` of a frame. -/
def wanted (got : List α) : ℕ :=
  if got.length < F.header then F.header - got.length
  else
    match F.total (got.take F.header) with
    | none => 0
    | some n => n - got.length

/-- A reader that has read a part of a frame asks for more. -/
theorem wanted_pos {got r : List α} (hf : IsFrame F (got ++ r)) (hr : r ≠ []) :
    0 < wanted F got := by
  have hpos := List.length_pos_iff.mpr hr
  unfold wanted
  split
  · omega
  · have htotal := hf.2
    rw [List.take_append_of_le_length (by omega), List.length_append] at htotal
    simp only [htotal]
    omega

/-- The end of reading one frame. -/
inductive FrameOutcome where
  | complete
  | invalid
  | stopped (o : Outcome)
  deriving DecidableEq, Repr

structure FrameReading (α : Type*) where
  outcome : FrameOutcome
  frame : List α
  rest : List α
  events : List Event

/-- Read the header, then as many symbols as it announces. -/
def readFrame (events : List Event) (stream : List α) : FrameReading α :=
  let front := readExact events stream F.header
  match front.outcome with
  | .complete =>
    match F.total front.got with
    | none => ⟨.invalid, front.got, front.rest, front.events⟩
    | some n =>
      let body := readExact front.events front.rest (n - F.header)
      match body.outcome with
      | .complete => ⟨.complete, front.got ++ body.got, body.rest, body.events⟩
      | o => ⟨.stopped o, front.got ++ body.got, body.rest, body.events⟩
  | o => ⟨.stopped o, front.got, front.rest, front.events⟩

theorem readFrame_not_stopped (events : List Event) (stream : List α) :
    (readFrame F events stream).outcome ≠ .stopped .complete := by
  simp only [readFrame]
  split
  · split
    · simp
    · split
      · simp
      · simpa using ‹_›
  · simpa using ‹_›

/-- A completed frame is the frame at the front of the stream, whatever the events. -/
theorem readFrame_complete {events : List Event} {f r : List α} (hf : IsFrame F f)
    (h : (readFrame F events (f ++ r)).outcome = .complete) :
    (readFrame F events (f ++ r)).frame = f ∧ (readFrame F events (f ++ r)).rest = r := by
  simp only [readFrame] at h ⊢
  cases ho : (readExact events (f ++ r) F.header).outcome with
  | complete =>
    obtain ⟨hg, hr, -⟩ := readExact_eq ho
    rw [List.take_append_of_le_length hf.1] at hg
    rw [List.drop_append_of_le_length hf.1] at hr
    simp only [ho, hg, hr, hf.2] at h ⊢
    cases hb : (readExact (readExact events (f ++ r) F.header).events
        (f.drop F.header ++ r) (f.length - F.header)).outcome with
    | complete =>
      obtain ⟨hg', hr', -⟩ := readExact_eq hb
      have hl : (f.drop F.header).length = f.length - F.header := List.length_drop
      rw [← hl] at hg' hr'
      simp only [List.take_left', List.drop_left'] at hg' hr'
      simp only [hl] at hg' hr'
      simp only [hg', hr', List.take_append_drop, and_self]
    | closed => simp [hb] at h
    | failed => simp [hb] at h
    | blocked => simp [hb] at h
  | closed => simp [ho] at h
  | failed => simp [ho] at h
  | blocked => simp [ho] at h

/-- What a completed read returns is the frame at the front of the stream. -/
theorem readFrame_isFrame {events : List Event} {stream : List α}
    (h : (readFrame F events stream).outcome = .complete) :
    IsFrame F (readFrame F events stream).frame ∧
      (readFrame F events stream).frame ++ (readFrame F events stream).rest = stream := by
  simp only [readFrame] at h ⊢
  have hsplit := readExact_split events stream F.header
  have hlen := readExact_complete events stream F.header
  generalize readExact events stream F.header = front at h hsplit hlen ⊢
  obtain ⟨o, got, rest, events'⟩ := front
  cases o with
  | complete =>
    cases ht : F.total got with
    | none => simp [ht] at h
    | some n =>
      simp only [ht] at h ⊢
      have hle := F.header_le got n ht
      have hsplit' := readExact_split events' rest (n - F.header)
      have hlen' := readExact_complete events' rest (n - F.header)
      generalize readExact events' rest (n - F.header) = body at h hsplit' hlen' ⊢
      obtain ⟨o, got', rest', events''⟩ := body
      cases o with
      | complete =>
        have hg : got.length = F.header := hlen rfl
        have hg' : got'.length = n - F.header := hlen' rfl
        simp only at hsplit hsplit' ⊢
        refine ⟨⟨?_, ?_⟩, ?_⟩
        · rw [List.length_append]
          omega
        · rw [List.length_append, ← hg, List.take_left, ht, hg, hg']
          congr 1
          omega
        · rw [List.append_assoc, hsplit', hsplit]
      | closed => simp at h
      | failed => simp at h
      | blocked => simp at h
  | closed => simp at h
  | failed => simp at h
  | blocked => simp at h

/-- On a live connection the frame at the front of the stream is completed, or the read waits
because no event is left. -/
theorem readFrame_of_live {events : List Event} {f r : List α} (hf : IsFrame F f)
    (hl : Live events) :
    ((readFrame F events (f ++ r)).outcome = .complete ∨
        (readFrame F events (f ++ r)).outcome = .stopped .blocked ∧
          (readFrame F events (f ++ r)).events = []) ∧
      Live (readFrame F events (f ++ r)).events := by
  have hh := hf.1
  obtain ⟨ho, hl'⟩ := readExact_of_live events (f ++ r) F.header hl
    (by rw [List.length_append]; omega)
  rcases ho with ho | ⟨ho, he⟩
  · obtain ⟨hg, hr, -⟩ := readExact_eq ho
    rw [List.take_append_of_le_length hf.1] at hg
    rw [List.drop_append_of_le_length hf.1] at hr
    obtain ⟨hb, hl''⟩ := readExact_of_live (readExact events (f ++ r) F.header).events
      (f.drop F.header ++ r) (f.length - F.header) hl'
      (by rw [List.length_append, List.length_drop]; omega)
    simp only [readFrame, ho, hg, hf.2, hr]
    rcases hb with hb | ⟨hb, he⟩
    · simp only [hb]
      exact ⟨.inl trivial, hl''⟩
    · simp only [hb]
      exact ⟨.inr ⟨trivial, he⟩, hl''⟩
  · simp only [readFrame, ho]
    exact ⟨.inr ⟨trivial, he⟩, hl'⟩

/-- Without events a read waits. -/
theorem readFrame_nil (hh : 0 < F.header) (stream : List α) :
    (readFrame F [] stream).outcome = .stopped .blocked ∧ (readFrame F [] stream).events = [] := by
  obtain ⟨n, hn⟩ : ∃ n, F.header = n + 1 := ⟨F.header - 1, by omega⟩
  simp [readFrame, readExact, hn]

theorem readFrame_quits (hh : 0 < F.header) {events : List Event} (hq : quits events = true)
    (stream : List α) :
    ((readFrame F events stream).outcome = .stopped .closed ∨
        (readFrame F events stream).outcome = .stopped .failed) ∧
      (readFrame F events stream).rest = stream := by
  obtain ⟨n, hn⟩ : ∃ n, F.header = n + 1 := ⟨F.header - 1, by omega⟩
  obtain ⟨ho, hrest⟩ := readExact_quits hq stream n
  simp only [readFrame, hn]
  rcases ho with ho | ho
  · simp [ho, hrest]
  · simp [ho, hrest]

/-- Enough answered requests complete the frame at the front of the stream. -/
theorem readFrame_live {events : List Event} {f r : List α} (hf : IsFrame F f)
    (hl : Live events) (hd : f.length ≤ deliveries events) :
    (readFrame F events (f ++ r)).outcome = .complete ∧
      Live (readFrame F events (f ++ r)).events ∧
      deliveries events ≤ deliveries (readFrame F events (f ++ r)).events + f.length := by
  have hh := hf.1
  obtain ⟨ho, hl', hd'⟩ := readExact_live events (f ++ r) F.header hl (by omega)
    (by rw [List.length_append]; omega)
  obtain ⟨hg, hr, -⟩ := readExact_eq ho
  rw [List.take_append_of_le_length hf.1] at hg
  rw [List.drop_append_of_le_length hf.1] at hr
  obtain ⟨hb, hl'', hd''⟩ := readExact_live (readExact events (f ++ r) F.header).events
    (f.drop F.header ++ r) (f.length - F.header) hl' (by omega)
    (by rw [List.length_append, List.length_drop]; omega)
  simp only [readFrame, ho, hg, hf.2, hr, hb]
  exact ⟨trivial, hl'', by omega⟩

/-- A piece that is no longer than what was asked for is what one request obtains. -/
theorem readExact_piece {p : List α} (hp : p ≠ []) {n : ℕ} (hn : p.length ≤ n)
    (events : List Event) (stream : List α) :
    readExact (.deliver (p.length - 1) :: events) (p ++ stream) n =
      { readExact events stream (n - p.length) with
        got := p ++ (readExact events stream (n - p.length)).got } := by
  have hpos := List.length_pos_iff.mpr hp
  obtain ⟨m, rfl⟩ : ∃ m, n = m + 1 := ⟨n - 1, by omega⟩
  have hc : min (p.length - 1 + 1) (min (m + 1) (p ++ stream).length) = p.length := by
    rw [List.length_append]
    omega
  simp only [readExact, hc]
  rw [if_neg (by omega), List.drop_left', List.take_left']
  · rfl
  · rfl

/-- Reading a frame of which `got` was read already. -/
def resume (got : List α) (events : List Event) (stream : List α) : FrameReading α :=
  let front := readExact events stream (F.header - got.length)
  match front.outcome with
  | .complete =>
    match F.total ((got ++ front.got).take F.header) with
    | none => ⟨.invalid, got ++ front.got, front.rest, front.events⟩
    | some n =>
      let body := readExact front.events front.rest (n - (got ++ front.got).length)
      match body.outcome with
      | .complete => ⟨.complete, got ++ front.got ++ body.got, body.rest, body.events⟩
      | o => ⟨.stopped o, got ++ front.got ++ body.got, body.rest, body.events⟩
  | o => ⟨.stopped o, got ++ front.got, front.rest, front.events⟩

theorem resume_nil (events : List Event) (stream : List α) :
    resume F [] events stream = readFrame F events stream := by
  simp only [resume, readFrame, List.length_nil, Nat.sub_zero, List.nil_append]
  have hlen := readExact_complete events stream F.header
  generalize readExact events stream F.header = front at hlen ⊢
  obtain ⟨o, got, rest, events'⟩ := front
  cases o with
  | complete =>
    have hgot : got.length = F.header := hlen rfl
    simp only [← hgot, List.take_length]
  | closed => rfl
  | failed => rfl
  | blocked => rfl

/-- One request of a reader in the middle of a frame. -/
theorem resume_piece {got p : List α} (hp : p ≠ []) (hw : p.length ≤ wanted F got)
    (events : List Event) (stream : List α) :
    resume F got (.deliver (p.length - 1) :: events) (p ++ stream) =
      resume F (got ++ p) events stream := by
  have hpos := List.length_pos_iff.mpr hp
  unfold wanted at hw
  by_cases hh : got.length < F.header
  · rw [if_pos hh] at hw
    have hsub : F.header - (got ++ p).length = F.header - got.length - p.length := by
      rw [List.length_append]
      omega
    simp only [resume, hsub, readExact_piece hp hw, List.append_assoc]
  · rw [if_neg hh] at hw
    have hzero : F.header - got.length = 0 := by omega
    have hzero' : F.header - (got ++ p).length = 0 := by
      rw [List.length_append]
      omega
    simp only [resume, hzero, hzero', readExact, List.append_nil]
    rw [List.take_append_of_le_length (show F.header ≤ got.length by omega)]
    cases ht : F.total (got.take F.header) with
    | none =>
      rw [ht] at hw
      simp only at hw
      omega
    | some n =>
      rw [ht] at hw
      have hsub : n - (got ++ p).length = n - got.length - p.length := by
        rw [List.length_append]
        omega
      simp only [hsub, readExact_piece hp hw, List.append_assoc]

/-- A reader that has the whole frame returns it. -/
theorem resume_frame {f : List α} (hf : IsFrame F f) (events : List Event) (stream : List α) :
    resume F f events stream = ⟨.complete, f, stream, events⟩ := by
  have hzero : F.header - f.length = 0 := by
    have := hf.1
    omega
  simp only [resume, hzero, readExact, List.append_nil, hf.2, Nat.sub_self]

end MelsecMc.FramedStream
