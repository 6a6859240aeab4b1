import MelsecMc.DeviceCalls
import MelsecMc.TypedRoundTrip

/-!
# What one thread writes, another one reads

Every function that writes has one that reads the same words or points. Where the PLC
keeps what is written to it, a call of the reader that is made after a successful call
of the writer has returned gets the written value, as long as no call that may come
between the two writes to the same words or points.
-/
namespace MelsecMc

open WordBytes
open scoped List

namespace TypedAccess

variable {m : Module}

/-- The access that reads what a write wrote, and what it then gets. -/
def readBack : TypedAccess m → Option (Σ r : TypedAccess m, r.Result)
  | writeBool val => some ⟨readBool, val⟩
  | writeValue T val => some ⟨readValue T, val⟩
  | writeString val =>
    some ⟨readString val.length,
      match m with
      | .binary => wordPadded val
      | .ascii => val ++ List.replicate (val.length % 2 + 1) 0⟩
  | writeBools h values => some ⟨readBools h values.length, values⟩
  | writeValues h T values => some ⟨readValues h T values.length, values⟩
  | readBool | readValue _ | readString _ | readBools _ _ | readValues _ _ _ => none

/-- The values in a buffer are those that were put into it. -/
theorem valuesOf_flatMap_encode {size : ℕ} (C : ValueCodec size)
    (values : List (BitVec (8 * size))) :
    valuesOf size values.length (values.flatMap C.encode) = values := by
  have hdecode := decode_values C (C.flatMap_encode_length values)
  rw [decode_batch] at hdecode
  exact (Option.some.inj hdecode).symm

theorem wordsOf_encode_length (T : ValueType) (val : T.Value) :
    (wordsOf (T.codec.encode val)).length = T.words := by
  have hlen := T.codec.encode_length val
  rw [wordsOf_length (by omega)]
  omega

theorem binaryWords_wordsOf_encode (T : ValueType) (val : T.Value) :
    binaryWords (wordsOf (T.codec.encode val)) = bytesOf (2 * T.words) val := by
  have hlen := T.codec.encode_length val
  rw [binaryWords_wordsOf (by omega), T.codec.encode_eq]

variable {σ : Type*} {O : DeviceObject σ} {s : σ} {d : MelsecMcDataType} {a : ℕ}

/-- While the PLC holds what was written, reading gets it. -/
theorem readBack_result {t r : TypedAccess m} {x : r.Result} (h : t.readBack = some ⟨r, x⟩)
    (hs : O.Holds (t.command d a) s) :
    ∃ data, (O.apply (r.command d a) s).1 = .ok data ∧ r.result d a data = x := by
  cases t with
  | writeBool val =>
    cases h
    exact ⟨_, hs 1 rfl, rfl⟩
  | writeValue T val =>
    cases h
    refine ⟨_, hs T.words (wordsOf_encode_length T val), ?_⟩
    change ofBytes (8 * (2 * T.words)) (binaryWords (wordsOf (T.codec.encode val))) = val
    rw [binaryWords_wordsOf_encode, ofBytes_bytesOf]
  | writeString val =>
    have hlen : (wordsOf (wordPadded val)).length = (val.length + val.length % 2) / 2 := by
      rw [wordsOf_length (wordPadded_even val), wordPadded_length]
    have hwords := binaryWords_wordsOf (wordPadded_even val)
    cases m with
    | binary =>
      cases h
      exact ⟨_, hs _ hlen, hwords⟩
    | ascii =>
      cases h
      refine ⟨_, hs _ hlen, ?_⟩
      change (binaryWords (wordsOf (wordPadded val))).take val.length ++ _ = _
      rw [hwords, wordPadded, List.take_left]
  | writeBools hm values =>
    cases h
    exact ⟨_, hs values.length rfl, rfl⟩
  | writeValues hm T values =>
    cases h
    have heven := flatMap_encode_even T.type values
    have hlen : (wordsOf (values.flatMap T.type.codec.encode)).length =
        values.length * T.type.words := by
      rw [wordsOf_length heven, T.type.codec.flatMap_encode_length, Nat.mul_left_comm,
        Nat.mul_div_cancel_left _ two_pos]
    refine ⟨_, hs _ hlen, ?_⟩
    change valuesOf _ values.length (binaryWords (wordsOf (values.flatMap T.type.codec.encode))) = _
    rw [binaryWords_wordsOf heven, valuesOf_flatMap_encode]
  | readBool | readValue T | readString n | readBools hm n | readValues hm T n => cases h

theorem readBack_spares {t r : TypedAccess m} {x : r.Result} (h : t.readBack = some ⟨r, x⟩)
    (w : Command) : (r.command d a).Spares w := by
  cases t with
  | writeBool val | writeValue T val | writeString val | writeBools hm values
  | writeValues hm T values =>
    cases h
    trivial
  | readBool | readValue T | readString n | readBools hm n | readValues hm T n => cases h

end TypedAccess

/-- A reader that is served while the PLC holds what was written gets it. -/
theorem called_readBack {m : Module} {σ : Type*} {O : DeviceObject σ} {s : σ}
    {w r : DeviceCall m} {x : r.access.Result} (h : w.access.readBack = some ⟨r.access, x⟩)
    (hdevice : r.device = w.device) (hstart : r.start = w.start) (hs : O.Holds w.command s) :
    ((O.called m).apply r s).1 = some (.success, some x) := by
  unfold DeviceCall.command at hs
  rw [← hdevice, ← hstart] at hs
  obtain ⟨data, hdata, hx⟩ := TypedAccess.readBack_result h hs
  change some (r.outcome (O.apply (r.access.command r.device r.start) s).1) = _
  rw [hdata]
  exact congrArg (fun x => some (ErrorCode.success, some x)) hx

/-- In a linearizable history of a PLC that keeps what is written, the written value is read. -/
theorem DeviceObject.Keeps.read_after {m : Module} {σ K : Type*} {O : DeviceObject σ}
    (hO : O.Keeps) {plc : σ}
    {h : List (CallEvent K (DeviceCall m) fun c => Option c.Outcome)}
    (hlin : (O.called m).Linearizable plc h) {i j : K} {w r : DeviceCall m} {x : r.access.Result}
    (hback : w.access.readBack = some ⟨r.access, x⟩) (hdevice : r.device = w.device)
    (hstart : r.start = w.start) {written : w.Outcome} (hok : written.1 = .success)
    {read : Option r.Outcome} (horder : [.returned i w (some written), .invoked j r] <+ h)
    (hread : .returned j r read ∈ h)
    (hspares : ∀ k c, .invoked k c ∈ h → k ≠ i → (∀ out, ¬ [.returned k c out, .invoked i w] <+ h) →
      ¬ [.returned j r read, .invoked k c] <+ h → c.command.Spares w.command) :
    read = some (.success, some x) := by
  have hset : ∀ plc', some written = ((O.called m).apply w plc').1 →
      O.Holds w.command ((O.called m).apply w plc').2 := by
    intro plc' hw
    have hw : written = w.outcome (O.apply w.command plc').1 := Option.some.inj hw
    cases hdata : (O.apply w.command plc').1 with
    | ok data => exact hO.written _ _ data hdata
    | error code =>
      rw [hw, hdata] at hok
      cases hok
  obtain ⟨plc', hholds, hanswer⟩ := hlin.answer_after horder hread hset
    fun k c hc hk hbefore hafter plc' hholds =>
      hO.spared _ _ _ (hspares k c hc hk hbefore hafter) hholds
  rw [hanswer, called_readBack hback hdevice hstart hholds]

section Runs

variable {m : Module} {T τ σ : Type*} [DecidableEq T] {D : Device m.protocol τ}
  {O : DeviceObject σ} {abs : τ → σ} {plc : τ} {fds : Finset ℤ} {calls : T → List (DeviceCall m)}
  {s : ServedState T τ}

/-- A thread reads what it wrote with its last call before, if the other threads do not write it. -/
theorem called_read_next (hD : D.Implements O abs) (hO : O.Keeps)
    (hcard : fds.card ≤ maxTxConnections) (hfds : ∀ t, ∀ c ∈ calls t, c.fd ∈ fds)
    (hs : (servedThreads D plc fun t => (calls t).map DeviceCall.job).Reachable s) {t : T} {i : ℕ}
    {w r : DeviceCall m} {x : r.access.Result}
    (hback : w.access.readBack = some ⟨r.access, x⟩) (hdevice : r.device = w.device)
    (hstart : r.start = w.start) {written : w.Outcome} (hok : written.1 = .success)
    {read : Option r.Outcome}
    (hwritten : .returned (t, i) w (some written) ∈ calledHistory calls s.history)
    (hread : .returned (t, i + 1) r read ∈ calledHistory calls s.history)
    (hspares : ∀ u k c, u ≠ t → .invoked (u, k) c ∈ calledHistory calls s.history →
      c.command.Spares w.command) :
    read = some (.success, some x) := by
  have hlin := (called_pointed hD hcard hfds hs).linearizable
  have hmade := fun (k : ℕ) c out => (mem_calledHistory_returned (t := t) (i := k) (c := c)
    (r := out) hcard hfds hs).mp
  obtain ⟨hw, -⟩ := hmade i w _ hwritten
  obtain ⟨hr, -⟩ := hmade (i + 1) r _ hread
  obtain ⟨out, horder⟩ := called_program_order hcard hfds hs (Nat.lt_succ_self i) hw
    (hlin.invoked_of_returned hread)
  obtain rfl := hlin.returned_unique (pair_sublist_mem horder).1 hwritten
  refine hO.read_after hlin hback hdevice hstart hok horder hread fun k c hc hk hbefore hafter => ?_
  obtain ⟨u, k⟩ := k
  by_cases hu : u = t
  · subst hu
    obtain ⟨hcall, -⟩ := SeqObject.mem_seenAs_invoked.mp hc
    rcases lt_trichotomy k i with hlt | rfl | hgt
    · obtain ⟨out, hsub⟩ := called_program_order hcard hfds hs hlt hcall
        (hlin.invoked_of_returned hwritten)
      exact absurd hsub (hbefore out)
    · exact absurd rfl hk
    · rcases Nat.eq_or_lt_of_le (Nat.succ_le_of_lt hgt) with rfl | hgt
      · obtain rfl := Option.some.inj (hr.symm.trans hcall)
        exact TypedAccess.readBack_spares hback _
      · obtain ⟨out, hsub⟩ := called_program_order hcard hfds hs hgt hr hc
        obtain rfl := hlin.returned_unique (pair_sublist_mem hsub).1 hread
        exact absurd hsub hafter
  · exact hspares u k c hu hc

end Runs

/-- In every run of threads that read and write a PLC which keeps what is written, with calls of
`DeviceCall` on at most 64 connections on which no `send` or `recv` fails or times out: a reader
that is called after the writer returned with success gets the written value, unless a call that
writes to the same words or points had not returned when the writer was called and was called before
the reader returned. -/
theorem written_is_read (m : Module) {T τ σ : Type} [DecidableEq T] (D : Device m.protocol τ)
    (O : DeviceObject σ) (abs : τ → σ) (hD : D.Implements O abs) (hO : O.Keeps) (plc : τ)
    (fds : Finset ℤ) (hcard : fds.card ≤ maxTxConnections) (calls : T → List (DeviceCall m))
    (hfds : ∀ t, ∀ c ∈ calls t, c.fd ∈ fds) {s : ServedState T τ}
    (hs : (servedThreads D plc fun t => (calls t).map DeviceCall.job).Reachable s)
    {i j : T × ℕ} {w r : DeviceCall m} {x : r.access.Result}
    (hback : w.access.readBack = some ⟨r.access, x⟩) (hdevice : r.device = w.device)
    (hstart : r.start = w.start) {written : w.Outcome} (hok : written.1 = .success)
    {read : Option r.Outcome}
    (horder : [.returned i w (some written), .invoked j r] <+ calledHistory calls s.history)
    (hread : .returned j r read ∈ calledHistory calls s.history)
    (hspares : ∀ k c, .invoked k c ∈ calledHistory calls s.history → k ≠ i →
      (∀ out, ¬ [.returned k c out, .invoked i w] <+ calledHistory calls s.history) →
      ¬ [.returned j r read, .invoked k c] <+ calledHistory calls s.history →
      c.command.Spares w.command) :
    read = some (.success, some x) := by
  exact hO.read_after (called_pointed hD hcard hfds hs).linearizable hback hdevice hstart hok horder
    hread hspares

/-- A thread writes 7 to D100 on one connection and reads it on another one. -/
theorem written_is_read_D100 :
    ∃ s : ServedState Unit Memory,
      (servedThreads (Memory.object.device .binary) .zero fun _ =>
        [writeD100, readD100].map DeviceCall.job).Reachable s ∧
      .returned ((), 1) readD100 (some (.success, some (7 : BitVec 16))) ∈
        calledHistory (fun _ => [writeD100, readD100]) s.history := by
  have hD := Memory.object.device_implements .binary
  have hfds : ∀ t : Unit, ∀ c ∈ (fun _ => [writeD100, readD100]) t,
      c.fd ∈ ({3, 4} : Finset ℤ) := by
    intro t c hc
    rcases List.mem_pair.mp hc with rfl | rfl <;> decide
  obtain ⟨s, hs, hfin⟩ := servedThreads_finishes (Memory.object.device .binary) .zero
    (jobs_valid hfds) (by decide)
  obtain ⟨read, hread⟩ := called_returned (by decide) hfds hs hfin (t := ()) (i := 1) rfl
  have hlin := (called_pointed hD (by decide) hfds hs).linearizable
  obtain ⟨out, horder⟩ := called_program_order (by decide) hfds hs zero_lt_one
    (b := writeD100) rfl (hlin.invoked_of_returned hread)
  obtain ⟨plc', rfl⟩ := called_outcome hD (by decide) hfds hs (pair_sublist_mem horder).1
  have hspares : ∀ k c, .invoked k c ∈ calledHistory (fun _ => [writeD100, readD100]) s.history →
      k ≠ ((), 0) → c.command.Spares writeD100.command := by
    intro k c hc hk
    obtain ⟨hcall, -⟩ := SeqObject.mem_seenAs_invoked.mp hc
    obtain ⟨⟨⟩, i⟩ := k
    cases i with
    | zero => exact absurd rfl hk
    | succ i =>
      cases i with
      | zero =>
        obtain rfl := Option.some.inj hcall
        trivial
      | succ i => simp at hcall
  have hseven := written_is_read .binary (Memory.object.device .binary) Memory.object id hD
    Memory.object_keeps .zero {3, 4} (by decide) (fun _ => [writeD100, readD100]) hfds hs
    (w := writeD100) (r := readD100) rfl rfl rfl rfl horder hread
    fun k c hc hk _ _ => hspares k c hc hk
  exact ⟨s, hs, hseven ▸ hread⟩

end MelsecMc
