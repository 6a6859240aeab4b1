import MelsecMc.CheckedCalls
import MelsecMc.DeviceReads

/-!
# The typed readers

Every single reader and every batch reader asks for a number of points, tests the
length of the data that comes back with a check of its own, and decodes. The
functions of this module split the readers into these parts; all of them end with
`delivering`.
-/
namespace MelsecMc

open FramedStream WordBytes

/-- A typed reader with the number of elements it is asked for. Its output is not null. -/
inductive TypedReader where
  | bool (m : Module)
  | value (m : Module) (T : ValueType)
  | string (m : Module) (length : ℤ) (range : InInt32 length)
  | boolBatch (length : ℤ) (range : InInt32 length)
  | batch (T : BatchType) (length : ℤ) (range : InInt32 length)

namespace TypedReader

/-- What the reader assigns. -/
def Value : TypedReader → Type
  | bool _ => Bool
  | value _ T => T.Value
  | string _ _ _ => List Byte
  | boolBatch _ _ => List Bool
  | batch T _ _ => List T.type.Value

instance : (R : TypedReader) → DecidableEq R.Value
  | bool _ => inferInstanceAs (DecidableEq Bool)
  | value _ T => inferInstanceAs (DecidableEq T.Value)
  | string _ _ _ => inferInstanceAs (DecidableEq (List Byte))
  | boolBatch _ _ => inferInstanceAs (DecidableEq (List Bool))
  | batch T _ _ => inferInstanceAs (DecidableEq (List T.type.Value))

def owner : TypedReader → Module
  | bool m | value m _ | string m _ _ => m
  | boolBatch _ _ | batch _ _ _ => .binary

def isBit : TypedReader → Bool
  | bool _ | boolBatch _ _ => true
  | value _ _ | string _ _ _ | batch _ _ _ => false

/-- The number of elements. -/
def requested : TypedReader → ℤ
  | bool _ | value _ _ => 1
  | string _ length _ | boolBatch length _ | batch _ length _ => length

/-- The point count of the request. -/
def points : TypedReader → ℤ
  | bool _ => 1
  | value _ T => T.words
  | string _ length _ => (evenLength length).tdiv 2
  | boolBatch length _ => length
  | batch T length _ => T.points length

/-- The bytes of data, or points, that the elements take. -/
def need : TypedReader → ℤ
  | bool _ => 1
  | value _ T => (2 * T.words : ℕ)
  | string _ length _ => evenLength length
  | boolBatch length _ => length
  | batch T length _ => length * (2 * T.type.words : ℕ)

/-- The elements at the front of the data. -/
def decoded (data : List Byte) : (R : TypedReader) → R.Value
  | bool _ => data.getD 0 0 != 0
  | value _ T => ofBytes (8 * (2 * T.words)) (data.take (2 * T.words))
  | string .binary length _ => data.take (evenLength length).toNat
  | string .ascii length _ =>
    data.take length.toNat ++ List.replicate (evenLength length + 1 - length).toNat (0 : Byte)
  | boolBatch length _ => (data.take length.toNat).map (· != 0)
  | batch T length _ => (List.range length.toNat).map fun i =>
    ofBytes (8 * (2 * T.type.words)) ((data.drop (i * (2 * T.type.words))).take (2 * T.type.words))

/-- The reader's call under its own name. -/
def call (network : PlcNetworkAddress) (fd : ℤ) (address : Option CString) :
    (R : TypedReader) → Call (ErrorCode × Option R.Value)
  | bool .binary => mcReadBool network fd address true
  | bool .ascii => Ascii.mcAsciiReadBool network fd address true
  | value .binary T => T.mcRead network fd address true
  | value .ascii T => T.mcAsciiRead network fd address true
  | string .binary length _ => mcReadString network fd address length true
  | string .ascii length _ => Ascii.mcAsciiReadString network fd address length true
  | boolBatch length _ => mcReadBoolBatch network fd address length true
  | batch T length _ => T.mcReadBatch network fd address length true

/-- The reader's test of the length of the data. -/
def enough : TypedReader → ℤ → Bool
  | bool _, n => decide (0 < n)
  | value .binary .short, n => decide (0 < n)
  | value _ T, n => decide (((2 * T.words : ℕ) : ℤ) ≤ n)
  | string _ length _, n => decide (evenLength length ≤ n)
  | boolBatch length _, n => decide (length ≤ n)
  | batch T length _, n => decide (toInt32 (length * (2 * T.type.words : ℕ)) ≤ n)

/-- The reader's accesses to the data. -/
def assign : (R : TypedReader) → ByteArrayInfo → Option R.Value
  | bool _, read_data => (read_data.data.bind (·[0]?)).map (· != 0)
  | value _ T, read_data => read_data.data.bind T.codec.decode
  | string .binary length _, read_data => read_data.data.bind (memcpy · (evenLength length))
  | string .ascii length _, read_data => (read_data.data.bind (memcpy · length)).map
    (· ++ List.replicate (evenLength length + 1 - length).toNat 0)
  | boolBatch length _, read_data =>
    (read_data.data.bind (memcpy · length)).map (·.map (· != 0))
  | batch T length _, read_data => (List.range length.toNat).mapM fun i =>
    read_data.data.bind fun data => T.type.codec.decode (data.drop (i * (2 * T.type.words)))

end TypedReader

section Delivering

variable {α : Type} {enough : ℤ → Bool} {assign : ByteArrayInfo → Option α}
  {word : Call (ErrorCode × ByteArrayInfo)} {r : Transacted}

/-- The end of a reader: it assigns what it decodes where it finds the data long enough. -/
def delivering (enough : ℤ → Bool) (assign : ByteArrayInfo → Option α)
    (result : ErrorCode × ByteArrayInfo) : Call (ErrorCode × Option α) :=
  if result.1 = .success ∧ enough result.2.length then do
    let v ← .ofOption (assign result.2)
    return (result.1, some v)
  else return (result.1, none)

theorem delivering_request (result : ErrorCode × ByteArrayInfo) :
    (delivering enough assign result).request = none := by
  rw [delivering]
  split_ifs
  · exact Call.request_ofOption_bind _ fun _ => rfl
  · rfl

@[simp] theorem attached_length (data : List Byte) :
    (attached .empty data).length = data.length := by
  rw [attached]
  split_ifs with h
  · simp [h]
  · rfl

/-- An error is passed on, and nothing is assigned. -/
theorem delivering_error (h : Returns (word.answer r) none) :
    ∃ code, code ≠ .success ∧
      (word >>= delivering enough assign).answer r = some (code, none) := by
  obtain ⟨code, out, hcode, hword⟩ := h
  refine ⟨code, hcode, ?_⟩
  rw [Call.answer_bind, hword]
  simp [delivering, hcode]

theorem delivering_data {data : List Byte} (h : Returns (word.answer r) (some data)) :
    (word >>= delivering enough assign).answer r =
      if enough data.length then
        (assign (attached .empty data)).map fun v => (.success, some v)
      else some (.success, none) := by
  rw [Call.answer_bind, h, Option.bind_some, delivering]
  simp only [attached_length, true_and]
  split_ifs
  · cases assign (attached .empty data) <;> rfl
  · rfl

end Delivering

namespace TypedReader

variable {network : PlcNetworkAddress} {fd : ℤ} {address : Option CString}

/-- A reader that got as far as its request. -/
structure Asks (R : TypedReader) : Prop where
  requested_pos : 0 < R.requested
  points_pos : 0 < R.points

theorem deviceRead_refused {m : Module} {is_bit : Bool} {length : ℤ} {out : ByteArrayInfo}
    (h : length ≤ 0) :
    deviceRead network m is_bit fd address length out = .ret (.invalidParameter, out) := by
  have hguard : fd ≤ 0 ∨ address.isNone = true ∨ length ≤ 0 := .inr (.inr h)
  cases m <;> cases is_bit <;>
    simp only [deviceRead, readBoolValue, readWordValue, Ascii.readBoolValue, Ascii.readWordValue,
      Ascii.readDeviceValue, if_pos hguard]

theorem guarded_cases {α : Type} (g : Prop) [Decidable g] (a : α) (c : Call α) :
    (if g then .ret a else c) = .ret a ∨ ¬ g ∧ (if g then .ret a else c) = c := by
  by_cases h : g
  · exact .inl (if_pos h)
  · exact .inr ⟨h, if_neg h⟩

/-- A reader that converts what it accessed. -/
theorem delivering_map {α β : Type} (enough : ℤ → Bool) (get : ByteArrayInfo → Option α)
    (g : α → β) (result : ErrorCode × ByteArrayInfo) :
    delivering enough (fun read_data => (get read_data).map g) result =
      if result.1 = .success ∧ enough result.2.length then do
        let a ← .ofOption (get result.2)
        return (result.1, some (g a))
      else return (result.1, none) := by
  rw [delivering]
  cases get result.2 <;> rfl

/-- Behind the checks of its arguments a reader is a device read and what it delivers. -/
theorem call_parts (network : PlcNetworkAddress) (fd : ℤ) (address : Option CString)
    (R : TypedReader) : R.call network fd address = .ret (.invalidParameter, none) ∨
      0 < R.requested ∧ R.call network fd address =
        (deviceRead network R.owner R.isBit fd address R.points .empty >>=
          delivering R.enough R.assign) := by
  cases R with
  | bool m =>
    cases m with
    | binary =>
      refine (guarded_cases _ _ _).imp_right fun ⟨_, he⟩ => ⟨Int.one_pos, he.trans ?_⟩
      refine congrArg (deviceRead network .binary true fd address 1 .empty >>= ·)
        (funext fun ⟨ret, read_data⟩ => ?_)
      refine Eq.trans ?_ (delivering_map (enough (.bool .binary)) _ (· != 0) _).symm
      simp only [enough, decide_eq_true_eq]
    | ascii =>
      refine (guarded_cases _ _ _).imp_right fun ⟨_, he⟩ => ⟨Int.one_pos, he.trans ?_⟩
      refine congrArg (deviceRead network .ascii true fd address 1 .empty >>= ·)
        (funext fun ⟨ret, read_data⟩ => ?_)
      refine Eq.trans ?_ (delivering_map (enough (.bool .ascii)) _ (· != 0) _).symm
      simp only [enough, decide_eq_true_eq]
  | value m T =>
    cases m with
    | binary =>
      cases T <;> exact (guarded_cases _ _ _).imp_right fun ⟨_, he⟩ => ⟨Int.one_pos, he⟩
    | ascii =>
      cases T <;> exact (guarded_cases _ _ _).imp_right fun ⟨_, he⟩ => ⟨Int.one_pos, he⟩
  | string m length range =>
    cases m with
    | binary =>
      refine (guarded_cases _ _ _).imp_right fun ⟨hok, he⟩ => ?_
      have hpos : 0 < length := by
        by_contra hle
        exact hok (.inr (.inr (not_lt.mp hle)))
      refine ⟨hpos, he.trans ?_⟩
      by_cases hroom : 0 ≤ evenLength length
      · refine congrArg (deviceRead network .binary false fd address _ .empty >>= ·)
          (funext fun ⟨ret, read_data⟩ => ?_)
        have hmalloc : malloc (evenLength length) = true := decide_eq_true hroom
        simp only [delivering, enough, hmalloc, if_true, decide_eq_true_eq, ge_iff_le]
        rfl
      · have htop : length = 2 ^ 31 - 1 :=
          ((evenLength_neg_iff range).mp (not_le.mp hroom)).resolve_left (by omega)
        have hneg := (evenLength_tdiv_nonpos range hpos).mpr htop
        change (deviceRead network .binary false fd address ((evenLength length).tdiv 2) .empty >>=
            _) =
          (deviceRead network .binary false fd address ((evenLength length).tdiv 2) .empty >>= _)
        rw [deviceRead_refused hneg]
        rfl
    | ascii =>
      refine (guarded_cases _ _ _).imp_right fun ⟨hok, he⟩ => ⟨?_, he.trans ?_⟩
      · by_contra hle
        exact hok (.inr (.inr (.inl (not_lt.mp hle))))
      refine congrArg (deviceRead network .ascii false fd address _ .empty >>= ·)
        (funext fun ⟨ret, read_data⟩ => ?_)
      refine Eq.trans ?_ (delivering_map (enough (.string .ascii length range)) _ _ _).symm
      simp only [enough, decide_eq_true_eq, ge_iff_le]
      rfl
  | boolBatch length range =>
    refine (guarded_cases _ _ _).imp_right fun ⟨hok, he⟩ => ⟨?_, he.trans ?_⟩
    · by_contra hle
      exact hok (.inr (.inr (.inr (not_lt.mp hle))))
    refine congrArg (deviceRead network .binary true fd address length .empty >>= ·)
      (funext fun ⟨ret, read_data⟩ => ?_)
    refine Eq.trans ?_ (delivering_map (enough (.boolBatch length range)) _ _ _).symm
    simp only [enough, decide_eq_true_eq, ge_iff_le]
  | batch T length range =>
    have hbatch : call network fd address (.batch T length range) = _ := T.mcReadBatch_eq
    rw [hbatch]
    refine (guarded_cases _ _ _).imp_right fun ⟨hok, he⟩ => ⟨?_, he.trans ?_⟩
    · by_contra hle
      exact hok (.inr (.inr (.inr (not_lt.mp hle))))
    refine congrArg (deviceRead network .binary false fd address (T.points length) .empty >>= ·)
      (funext fun ⟨ret, read_data⟩ => ?_)
    simp only [delivering, enough, decide_eq_true_eq, ge_iff_le]
    rfl

/-- A reader that made its request went through all its parts. -/
theorem call_of_request {R : TypedReader} (hr : (R.call network fd address).request ≠ none) :
    R.Asks ∧ R.call network fd address =
      (deviceRead network R.owner R.isBit fd address R.points .empty >>=
        delivering R.enough R.assign) := by
  rcases R.call_parts network fd address with he | ⟨hpos, he⟩
  · rw [he] at hr
    exact absurd rfl hr
  · refine ⟨⟨hpos, ?_⟩, he⟩
    by_contra hle
    rw [he, deviceRead_refused (not_lt.mp hle), Call.ret_bind] at hr
    exact hr (delivering_request _)

end TypedReader

end MelsecMc
