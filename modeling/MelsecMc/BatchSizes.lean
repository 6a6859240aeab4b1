import MelsecMc.DeliveredData
import MelsecMc.TypedRoundTrip

/-!
# Sizes of batches

A batch function multiplies its length with the size of an element, and where an
element takes two words also with two, as an `int`. A length for which a product
leaves the range is mostly caught by another check: a negative size is not
allocated, a negative number of points not requested. For elements of four bytes
there is a range for each direction that nothing catches, for elements of two
bytes one for the readers.
-/
namespace MelsecMc

/-- The batch functions. -/
inductive BatchFunction where
  | readBool
  | read (T : BatchType)
  | writeBool
  | write (T : BatchType)
  deriving DecidableEq, Repr

/-- The size of an element. -/
def BatchType.size (T : BatchType) : ℕ := 2 * T.type.words

/-- The product of the length and the size of an element is exact, so that a payload of as many
bytes holds every element that is decoded. -/
def ReadCovers (length : ℤ) (size : ℕ) : Prop :=
  toInt32 (length * size) = length * size ∧
    ∀ n : ℤ, toInt32 (length * size) ≤ n → ∀ i : ℤ, 0 ≤ i → i < length → (i + 1) * size ≤ n

/-- The product is exact, so that a buffer of this size holds every byte that is stored. -/
def WriteCovers (length : ℤ) (size : ℕ) : Prop :=
  toInt32 (length * size) = length * size ∧
    ∀ i : ℤ, 0 ≤ i → i < length * size → i < toInt32 (length * size)

theorem readCovers_iff {length : ℤ} {size : ℕ} :
    ReadCovers length size ↔ toInt32 (length * size) = length * size := by
  constructor
  · intro h
    exact h.1
  · intro h
    refine ⟨h, fun n hn i h0 hi => ?_⟩
    rw [h] at hn
    have hle : (i + 1) * size ≤ length * size := mul_le_mul_of_nonneg_right (by omega) (by omega)
    exact hle.trans hn

theorem writeCovers_iff {length : ℤ} {size : ℕ} :
    WriteCovers length size ↔ toInt32 (length * size) = length * size := by
  constructor
  · intro h
    exact h.1
  · intro h
    refine ⟨h, fun i h0 hi => ?_⟩
    rw [h]
    exact hi

namespace BatchFunction

/-- Every call with this length returns an error before it touches an element, or the size is
right. -/
def Sized (length : ℤ) : BatchFunction → Prop
  | readBool => ∀ network fd address values r,
      (∃ code, code ≠ .success ∧
        (mcReadBoolBatch network fd address length values).answer r = some (code, none)) ∨
      ReadCovers length 1
  | read T => ∀ network fd address values r,
      (∃ code, code ≠ .success ∧
        (T.mcReadBatch network fd address length values).answer r = some (code, none)) ∨
      ReadCovers length T.size
  | writeBool => ∀ network fd address values,
      (∃ code, code ≠ .success ∧
        mcWriteBoolBatch network fd address length values = .ret (code, ())) ∨
      WriteCovers length 1
  | write T => ∀ network fd address values,
      (∃ code, code ≠ .success ∧
        T.mcWriteBatch network fd address length values = .ret (code, ())) ∨
      WriteCovers length T.size

/-- The lengths for which a product wraps around and nothing notices. -/
def Wraps (length : ℤ) : BatchFunction → Prop
  | read T => T.size = 2 ∧ 2 ^ 30 ≤ length ∨ T.size = 4 ∧ 2 ^ 29 ≤ length ∧ length < 2 ^ 30
  | write T => T.size = 4 ∧ 2 ^ 30 ≤ length ∧ length < 2 ^ 30 + 2 ^ 29
  | _ => False

end BatchFunction

theorem BatchType.size_cases (T : BatchType) :
    T.size = 2 ∧ (∀ length, T.points length = length) ∨
      T.size = 4 ∧ ∀ length, T.points length = toInt32 (length * 2) := by
  cases T with
  | short => exact .inl ⟨rfl, fun _ => rfl⟩
  | ushort => exact .inl ⟨rfl, fun _ => rfl⟩
  | int32 => exact .inr ⟨rfl, fun _ => rfl⟩
  | uint32 => exact .inr ⟨rfl, fun _ => rfl⟩
  | float => exact .inr ⟨rfl, fun _ => rfl⟩

theorem toInt32_eq_iff (x : ℤ) : toInt32 x = x ↔ InInt32 x := by
  constructor
  · intro h
    rw [← h]
    exact toInt32_range x
  · exact toInt32_eq

section Calls

variable {network : PlcNetworkAddress} {fd : ℤ} {address : Option CString} {length points : ℤ}
  {size : ℕ} {C : ValueCodec size}

/-- A number of points that is not positive is refused before the request. -/
theorem readBatch_refused (hp : points ≤ 0) (values : Bool) :
    readBatch network points C fd address length values = .ret (.invalidParameter, none) := by
  rw [readBatch]
  split
  · rfl
  · rw [readWordValue, if_pos (.inr (.inr hp)), Call.ret_bind]
    rfl

/-- A negative size is refused by the allocation. -/
theorem writeBatch_refused (hs : toInt32 (length * size) < 0)
    (values : Option (Elements (BitVec (8 * size)) length)) :
    ∃ code, code ≠ .success ∧
      writeBatch network points C fd address length values = .ret (code, ()) := by
  cases values with
  | none => exact ⟨.invalidParameter, by simp, rfl⟩
  | some values =>
    have hroom : malloc (toInt32 (length * size)) = false := decide_eq_false (by omega)
    rw [writeBatch]
    split
    · exact ⟨.invalidParameter, by simp, rfl⟩
    · exact ⟨.mallocFailed, by simp, by simp [hroom]⟩

/-- A buffer that is too small is overrun. -/
theorem writeBatch_fault (hfd : 0 < fd) (ha : address ≠ none) (h0 : 0 < length)
    (h1 : 0 ≤ toInt32 (length * size)) (h2 : toInt32 (length * size) < length * size)
    (values : Elements (BitVec (8 * size)) length) :
    writeBatch network points C fd address length (some values) = .fault := by
  have hroom : malloc (toInt32 (length * size)) = true := decide_eq_true h1
  have hok : ¬ (fd ≤ 0 ∨ address.isNone = true ∨ length ≤ 0) := by
    rw [Option.isNone_iff_eq_none]
    rintro (h | h | h)
    · omega
    · exact ha h
    · omega
  simp only [writeBatch, if_neg hok, hroom, if_true]
  rw [if_neg (by omega)]

theorem readWordValue_request {d : MelsecMcAddressData} (hfd : 0 < fd)
    (ha : mcAnalysisAddress address points = some (some d)) (hp : 0 < points)
    (out_bytes : ByteArrayInfo) :
    (readWordValue network fd address points out_bytes).request ≠ none := by
  have hsome := isNone_of_analysed ha
  have hpack := packMcCommand_ofList network (coreHeader (0x01, 0x04, 0x00, 0x00) d d.length)
    (by simp [coreHeader]) (by simp)
  have hok : ¬ (fd ≤ 0 ∨ address.isNone = true ∨ points ≤ 0) := by
    rw [hsome]
    rintro (h | h | h)
    · omega
    · cases h
    · omega
  have hcore : buildReadCoreCommand d false =
      .ofList (coreHeader (0x01, 0x04, 0x00, 0x00) d d.length) := rfl
  rw [readWordValue, if_neg hok]
  simp only [analysed, ha]
  rw [readAddressData, if_neg (by omega), hcore,
    exchange_packed hfd hpack (by simp [mcCommandHeader])]
  simp [Call.request]

end Calls

/-- A guard that a single byte passes lets the first element be decoded from it. -/
theorem BatchType.mcReadBatch_fault (T : BatchType) (network : PlcNetworkAddress) {fd : ℤ}
    {address : Option CString} {length : ℤ} {front : List Byte} {d : MelsecMcAddressData}
    (hfd : 0 < fd) (ha : mcAnalysisAddress address (T.points length) = some (some d))
    (hp : 0 < T.points length) (h0 : 0 < length) (hs : toInt32 (length * T.size) ≤ 1)
    (hf : front.length = 7) :
    (T.mcReadBatch network fd address length true).answer
      (.ofFrame (binaryResponse front 0 [0x00])) = none := by
  have hsome : ¬ address.isNone = true := by
    cases address with
    | none => simp [mcAnalysisAddress] at ha
    | some s => simp
  have hrequest : (readWordValue network fd address (T.points length) .empty).request ≠ none :=
    readWordValue_request hfd ha hp .empty
  have hword : (readWordValue network fd address (T.points length) .empty).answer
      (.ofFrame (binaryResponse front 0 [0x00])) = some (.success, .ofList [0x00]) :=
    readWordValue_answer hf (by simp) (by simp) hrequest
  have hok : ¬ (fd ≤ 0 ∨ address.isNone = true ∨ ¬ (true = true) ∨ length ≤ 0) := by
    rintro (h | h | h | h)
    · omega
    · exact hsome h
    · exact h rfl
    · omega
  have hloop : ((List.range length.toNat).mapM fun i =>
      (ByteArrayInfo.ofList [0x00]).data.bind fun data =>
        T.type.codec.decode (data.drop (i * T.size))) = none := by
    rw [Option.eq_none_iff_forall_ne_some]
    intro vs hvs
    obtain ⟨v, hv⟩ := mapM_some_mem hvs 0 (List.mem_range.mpr (by omega))
    have hlen := T.type.decode_length hv
    have hwords := T.type.words_pos
    rw [Nat.zero_mul, List.drop_zero, List.length_singleton] at hlen
    omega
  rw [BatchType.size] at hs hloop
  rw [T.mcReadBatch_eq, readBatch, if_neg hok, Call.answer_bind, hword, Option.bind_some]
  simp only [ByteArrayInfo.ofList_length, List.length_singleton, Nat.cast_one, ge_iff_le, true_and]
  rw [if_pos hs, Call.answer_bind, Call.answer_ofOption]
  exact congrArg (Option.bind · _) hloop

/-- A product that is too great for an `int`. -/
theorem product_exact_iff {length : ℤ} (h0 : 0 < length) (T : BatchType) :
    toInt32 (length * T.size) = length * T.size ↔
      T.size = 2 ∧ length < 2 ^ 30 ∨ T.size = 4 ∧ length < 2 ^ 29 := by
  rw [toInt32_eq_iff, InInt32]
  rcases T.size_cases with ⟨hsize, -⟩ | ⟨hsize, -⟩
  · rw [hsize]
    omega
  · rw [hsize]
    omega

/-- The number of points is positive unless twice the length is beyond an `int`. -/
theorem BatchType.points_nonpos_iff (T : BatchType) {length : ℤ} (h0 : 0 < length)
    (range : InInt32 length) : T.points length ≤ 0 ↔ T.size = 4 ∧ 2 ^ 30 ≤ length := by
  obtain ⟨h1, h2⟩ := range
  rcases T.size_cases with ⟨hsize, hpoints⟩ | ⟨hsize, hpoints⟩
  · rw [hsize, hpoints]
    omega
  · rw [hsize, hpoints]
    by_cases hlarge : 2 ^ 30 ≤ length
    · rw [toInt32_of_ge (by omega) (by omega)]
      omega
    · rw [toInt32_eq ⟨by omega, by omega⟩]
      omega

/-- The address `D100`. -/
def registerD100 : CString := ⟨text ['D', '1', '0', '0'], by decide⟩

theorem registerD100_parsed (length : ℤ) :
    mcAnalysisAddress (some registerD100) length = some (some ⟨deviceD, 100, length⟩) := by
  have hzero : mcAnalysisAddress (some registerD100) 0 = some (some ⟨deviceD, 100, 0⟩) := by decide
  rw [mcAnalysisAddress_relength (some registerD100) 0, hzero]
  rfl

namespace BatchFunction

variable {length : ℤ}

/-- A guard that a short payload passes, for a length that is requested. -/
theorem not_sized_read (T : BatchType) (length : ℤ) (h0 : 0 < length) (hp : 0 < T.points length)
    (hs : toInt32 (length * T.size) ≤ 1) (hne : toInt32 (length * T.size) ≠ length * T.size) :
    ¬ (read T).Sized length := by
  intro hsized
  have hfault := T.mcReadBatch_fault ⟨0, 0⟩ (show (0 : ℤ) < 3 by omega)
    (registerD100_parsed (T.points length)) hp h0 hs
    (show [0xD0, 0x00, 0x00, 0xFF, 0xFF, 0x03, (0x00 : Byte)].length = 7 by rfl)
  rcases hsized ⟨0, 0⟩ 3 (some registerD100) true (.ofFrame (binaryResponse
    [0xD0, 0x00, 0x00, 0xFF, 0xFF, 0x03, 0x00] 0 [0x00])) with ⟨code, -, hcode⟩ | hcovers
  · rw [hfault] at hcode
    cases hcode
  · exact hne hcovers.1

theorem sized_read_iff (T : BatchType) (h0 : 0 < length) (range : InInt32 length) :
    (read T).Sized length ↔ ¬ (read T).Wraps length := by
  have hexact := product_exact_iff h0 T
  have hpoints := T.points_nonpos_iff h0 range
  obtain ⟨h1, h2⟩ := range
  constructor
  · intro hsized hwraps
    simp only [Wraps] at hwraps
    have hneg : toInt32 (length * T.size) ≤ 1 := by
      rcases T.size_cases with ⟨hsize, -⟩ | ⟨hsize, -⟩
      · rw [hsize, toInt32_of_ge (by omega) (by omega)]
        omega
      · rw [hsize, toInt32_of_ge (by omega) (by omega)]
        omega
    have hne : toInt32 (length * T.size) ≠ length * T.size := by
      rw [Ne, hexact]
      omega
    exact not_sized_read T length h0 (by omega) hneg hne hsized
  · intro hwraps network fd address values r
    by_cases hp : T.points length ≤ 0
    · left
      rw [T.mcReadBatch_eq, readBatch_refused hp]
      exact ⟨.invalidParameter, by simp, rfl⟩
    · right
      rw [readCovers_iff, hexact]
      simp only [Wraps] at hwraps
      rcases T.size_cases with ⟨hsize, -⟩ | ⟨hsize, -⟩
      · omega
      · omega

theorem sized_write_iff (T : BatchType) (h0 : 0 < length) (range : InInt32 length) :
    (write T).Sized length ↔ ¬ (write T).Wraps length := by
  have hexact := product_exact_iff h0 T
  obtain ⟨h1, h2⟩ := range
  constructor
  · intro hsized hwraps
    obtain ⟨hsize, hlow, hhigh⟩ := hwraps
    have hshort : toInt32 (length * T.size) = length * 4 - 2 ^ 32 := by
      rw [hsize]
      simp only [toInt32, Int.bmod]
      omega
    have hcovered : length ≤ (List.replicate length.toNat (0 : T.type.Value)).length := by
      rw [List.length_replicate]
      omega
    have hfault : writeBatch ⟨0, 0⟩ (T.points length) T.type.codec 3 (some registerD100) length
        (some ⟨_, hcovered⟩) = .fault :=
      writeBatch_fault (by omega) (Option.some_ne_none registerD100) h0
        (show 0 ≤ toInt32 (length * T.size) by omega)
        (show toInt32 (length * T.size) < length * T.size by rw [hshort, hsize]; omega)
        ⟨_, hcovered⟩
    rcases hsized ⟨0, 0⟩ 3 (some registerD100) (some ⟨_, hcovered⟩) with ⟨code, -, hcode⟩ | hcovers
    · rw [T.mcWriteBatch_eq, hfault] at hcode
      cases hcode
    · rw [writeCovers_iff, hexact] at hcovers
      omega
  · intro hwraps network fd address values
    by_cases hs : toInt32 (length * T.size) < 0
    · left
      rw [T.mcWriteBatch_eq]
      exact writeBatch_refused hs values
    · right
      rw [writeCovers_iff, hexact]
      rw [toInt32_neg_iff] at hs
      simp only [Wraps] at hwraps
      rcases T.size_cases with ⟨hsize, -⟩ | ⟨hsize, -⟩
      · rw [hsize] at hs
        omega
      · rw [hsize] at hs
        omega

/-- For every batch function and every positive `int`: each call is refused before an element is
touched or its sizes are right, exactly for the lengths that do not wrap around unnoticed. -/
theorem sized_iff (F : BatchFunction) (h0 : 0 < length) (range : InInt32 length) :
    F.Sized length ↔ ¬ F.Wraps length := by
  have hone : toInt32 (length * (1 : ℕ)) = length * (1 : ℕ) := by
    rw [Nat.cast_one, mul_one]
    exact toInt32_eq range
  cases F with
  | readBool =>
    exact iff_of_true (fun _ _ _ _ _ => .inr (readCovers_iff.mpr hone)) not_false
  | read T => exact sized_read_iff T h0 range
  | writeBool =>
    exact iff_of_true (fun _ _ _ _ => .inr (writeCovers_iff.mpr hone)) not_false
  | write T => exact sized_write_iff T h0 range

/-- Two 32-bit values, as many as make the product negative or zero, and one more than that. -/
theorem sized_iff_int32 :
    ((read .int32).Sized 2 ↔ ¬ (read .int32).Wraps 2) ∧
      ((read .int32).Sized (2 ^ 29) ↔ ¬ (read .int32).Wraps (2 ^ 29)) ∧
      ((read .int32).Sized (2 ^ 30) ↔ ¬ (read .int32).Wraps (2 ^ 30)) ∧
      ((write .int32).Sized (2 ^ 30 + 1) ↔ ¬ (write .int32).Wraps (2 ^ 30 + 1)) :=
  ⟨sized_iff (read .int32) (by decide) (by decide),
    sized_iff (read .int32) (by decide) (by decide),
    sized_iff (read .int32) (by decide) (by decide),
    sized_iff (write .int32) (by decide) (by decide)⟩

/-- A read of 2^29 values of 32 bits: the guard compares with a negative number, and one byte is
enough to pass it. -/
theorem not_sized : ¬ ∀ (F : BatchFunction) (length : ℤ), 0 < length → InInt32 length →
    F.Sized length := by
  intro hall
  have hpoints : BatchType.int32.points (2 ^ 29) = 2 ^ 30 := toInt32_eq ⟨by decide, by decide⟩
  have hproduct : toInt32 (2 ^ 29 * (BatchType.int32.size : ℤ)) = -2 ^ 31 :=
    toInt32_of_ge (by decide) (by decide)
  apply not_sized_read .int32 (2 ^ 29) (by decide)
  · rw [hpoints]
    decide
  · rw [hproduct]
    decide
  · rw [hproduct]
    decide
  · exact hall (read .int32) (2 ^ 29) (by decide) (by decide)

end BatchFunction

end MelsecMc
