import MelsecMc.Api

/-!
# Packing points into bytes and back

`trans_bool_array_to_byte_data` puts two points into a byte and
`extract_actual_bool_data` takes them out again. The packer compares the index of
the second point with the number of bytes instead of the number of points: a
`true` at an odd index in the upper half of the array is lost.
-/
namespace MelsecMc

/-- A point as an array element. -/
def boolByte (point : Bool) : Byte := if point then 0x01 else 0x00

/-- The number of bytes for `n` points. -/
def packedLength (n : ℕ) : ℕ := (n + 1) / 2

/-- The point at index `i`, `false` beyond the end. -/
def pointAt (points : List Bool) (i : ℕ) : Bool := points[i]?.getD false

/-- The byte with the points `2 * i` and `2 * i + 1`. -/
def packedByte (points : List Bool) (i : ℕ) : Byte :=
  nibbles (pointAt points (2 * i))
    (decide (2 * i + 1 < packedLength points.length) && pointAt points (2 * i + 1))

/-- The packed points. -/
def packedBytes (points : List Bool) : List Byte :=
  (List.range (packedLength points.length)).map (packedByte points)

@[simp] theorem packedBytes_length (points : List Bool) :
    (packedBytes points).length = packedLength points.length := by
  simp [packedBytes]

/-- Every `true` at an odd index lies below the number of bytes. -/
def OddPointsEarly (points : List Bool) : Prop :=
  ∀ i, pointAt points (2 * i + 1) = true → 2 * i + 1 < packedLength points.length

theorem actualBools_nibbles (high low : Bool) :
    actualBools (nibbles high low) = [boolByte high, boolByte low] := by
  cases high <;> cases low <;> decide

theorem packPoints_eq {points : List Bool} {i : ℕ} (hi : i < packedLength points.length) :
    packPoints points (packedLength points.length) i = some (packedByte points i) := by
  have h0 : 2 * i < points.length := by
    simp only [packedLength] at hi
    omega
  have e0 : i * 2 + 0 = 2 * i := by omega
  have e1 : i * 2 + 1 = 2 * i + 1 := by omega
  rw [packPoints, packedByte, e0, e1, pointAt, pointAt, List.getElem?_eq_getElem h0]
  by_cases hl : 2 * i + 1 < packedLength points.length
  · have h1 : 2 * i + 1 < points.length := by
      simp only [packedLength] at hl
      omega
    rw [if_pos hl, decide_eq_true hl, List.getElem?_eq_getElem h1]
    rfl
  · rw [if_neg hl, decide_eq_false hl]
    rfl

theorem transBoolArrayToByteData_eq {points : List Bool} (h : points.length + 1 < 2 ^ 31) :
    transBoolArrayToByteData ⟨some points, points.length⟩ =
      some (.ofList (packedBytes points)) := by
  have hlen : (toInt32 ((points.length : ℤ) + 1)).tdiv 2 = packedLength points.length := by
    rw [toInt32_eq ⟨by omega, by omega⟩, packedLength, Int.tdiv_eq_ediv_of_nonneg (by omega)]
    omega
  have hbytes : (List.range (packedLength points.length)).mapM
      (packPoints points (packedLength points.length)) =
        some ((List.range (packedLength points.length)).map (packedByte points)) :=
    mapM_some fun i hi => packPoints_eq (List.mem_range.mp hi)
  simp only [transBoolArrayToByteData, hlen, malloc, Int.toNat_natCast, hbytes]
  simp [ByteArrayInfo.ofList, packedBytes]

/-- The array as pairs, with a `false` to fill the last one. -/
theorem flatMap_pairs (points : List Bool) :
    ((List.range (packedLength points.length)).flatMap fun i =>
      [boolByte (pointAt points (2 * i)), boolByte (pointAt points (2 * i + 1))]) =
      points.map boolByte ++ List.replicate (points.length % 2) 0 := by
  induction points using List.twoStepInduction with
  | nil => rfl
  | singleton p => simp [packedLength, pointAt, boolByte]
  | cons_cons p q points ih _ =>
    have hl : packedLength (p :: q :: points).length = packedLength points.length + 1 := by
      simp only [packedLength, List.length_cons]
      omega
    have hm : (p :: q :: points).length % 2 = points.length % 2 := by
      simp only [List.length_cons]
      omega
    have hp : ∀ i, pointAt (p :: q :: points) (i + 2) = pointAt points i := fun i => rfl
    have hs : ∀ i, 2 * (i + 1) = 2 * i + 2 := by intro i; omega
    rw [hl, hm, List.range_succ_eq_map, List.flatMap_cons, List.flatMap_map, List.map_cons,
      List.map_cons, List.cons_append, List.cons_append]
    simp only [Nat.succ_eq_add_one, hs, show ∀ i, 2 * i + 2 + 1 = 2 * i + 1 + 2 by omega, hp, ih]
    rfl

/-- Two lists of pairs are equal only if every pair is. -/
theorem flatMap_range_inj {α : Type} (n : ℕ) (f g : ℕ → α × α) :
    ((List.range n).flatMap fun i => [(f i).1, (f i).2]) =
      ((List.range n).flatMap fun i => [(g i).1, (g i).2]) ↔ ∀ i < n, f i = g i := by
  induction n with
  | zero => simp
  | succ n ih =>
    simp only [List.range_succ, List.flatMap_append, List.flatMap_cons, List.flatMap_nil,
      List.append_nil]
    constructor
    · intro h i hi
      obtain ⟨hinit, hlast⟩ := List.append_inj' h rfl
      rcases Nat.lt_succ_iff_lt_or_eq.mp hi with hlt | rfl
      · exact ih.mp hinit i hlt
      · simpa [Prod.ext_iff] using hlast
    · intro hall
      rw [ih.mpr fun i hi => hall i (by omega), hall n (by omega)]

theorem extractActualBoolData_ofList {data : List Byte} (h0 : data ≠ [])
    (h : data.length * 2 < 2 ^ 31) :
    extractActualBoolData (.ofList data) = some (.ofList (data.flatMap actualBools)) := by
  have hpos := List.length_pos_iff.mpr h0
  have hlen : toInt32 ((data.length : ℤ) * 2) = data.length * 2 :=
    toInt32_eq ⟨by omega, by omega⟩
  have hsum : (data.flatMap actualBools).length = data.length * 2 := by
    rw [List.length_flatMap]
    simp [actualBools]
  simp only [extractActualBoolData, ByteArrayInfo.ofList_data, ByteArrayInfo.ofList_length, hlen,
    malloc, memcpy_length, Option.map_some]
  rw [if_neg (by omega), if_pos (by simp)]
  simp [ByteArrayInfo.ofList, hsum]

/-- The array that the points should come back as: one more element for an odd number. -/
def expectedBools (points : List Bool) : List Byte :=
  points.map boolByte ++ List.replicate (points.length % 2) 0

/-- What was packed comes back if and only if no point is lost. -/
theorem packedBytes_flatMap (points : List Bool) :
    (packedBytes points).flatMap actualBools = expectedBools points ↔ OddPointsEarly points := by
  have hinj : ∀ p q : Bool, boolByte p = boolByte q ↔ p = q := by decide
  rw [expectedBools, ← flatMap_pairs, packedBytes, List.flatMap_map]
  simp only [packedByte, actualBools_nibbles]
  rw [flatMap_range_inj (packedLength points.length)
    (fun i => (boolByte (pointAt points (2 * i)), boolByte
      (decide (2 * i + 1 < packedLength points.length) && pointAt points (2 * i + 1))))
    (fun i => (boolByte (pointAt points (2 * i)), boolByte (pointAt points (2 * i + 1))))]
  simp only [Prod.mk.injEq, true_and, hinj]
  constructor
  · intro h i hi
    by_contra hlow
    have hbound : 2 * i + 1 < points.length := by
      by_contra hlen
      rw [pointAt, List.getElem?_eq_none (by omega)] at hi
      simp at hi
    have hlost := h i (by simp only [packedLength]; omega)
    rw [decide_eq_false hlow, Bool.false_and, hi] at hlost
    exact Bool.false_ne_true hlost
  · intro h i _
    by_cases hp : pointAt points (2 * i + 1) = true
    · rw [hp, decide_eq_true (h i hp), Bool.and_self]
    · rw [Bool.not_eq_true] at hp
      rw [hp, Bool.and_false]

/-- The core command of a bit write. -/
def bitWriteCore (address_data : MelsecMcAddressData) (points : List Bool) : List Byte :=
  coreHeader (0x01, 0x14, 0x01, 0x00) address_data address_data.length ++ packedBytes points

@[simp] theorem bitWriteCore_length (address_data : MelsecMcAddressData) (points : List Bool) :
    (bitWriteCore address_data points).length = 10 + packedLength points.length := by
  simp [bitWriteCore]

theorem buildWriteBitCoreCommand_eq {points : List Bool} (h : points.length + 1 < 2 ^ 31)
    (address_data : MelsecMcAddressData) :
    buildWriteBitCoreCommand address_data ⟨some points, points.length⟩ =
      some (.ofList (bitWriteCore address_data points)) := by
  have hlen : toInt32 (10 + (packedLength points.length : ℤ)) = 10 + packedLength points.length :=
    toInt32_eq ⟨by omega, by simp only [packedLength]; omega⟩
  have hcopy := memcpy_length (packedBytes points)
  rw [packedBytes_length] at hcopy
  have hmalloc : malloc (10 + (packedLength points.length : ℤ)) = true := by
    simp only [malloc, decide_eq_true_eq]
    omega
  rw [buildWriteBitCoreCommand, transBoolArrayToByteData_eq h, Option.bind_eq_bind,
    Option.bind_some]
  simp only [ByteArrayInfo.ofList_data, ByteArrayInfo.ofList_length, packedBytes_length, hlen]
  rw [if_pos hmalloc, hcopy]
  simp only [ByteArrayInfo.ofList, bitWriteCore_length, Nat.cast_add, Nat.cast_ofNat]
  rfl

/-- The request of `mc_write_bool_batch`. -/
theorem mcWriteBoolBatch_request {points : List Bool} (h0 : points ≠ [])
    (h : points.length + 1 < 2 ^ 31) {network : PlcNetworkAddress} {fd : ℤ} (hfd : 0 < fd)
    {address : Option CString} {address_data : MelsecMcAddressData}
    (ha : mcAnalysisAddress address points.length = some (some address_data)) :
    (mcWriteBoolBatch network fd address points.length (some (.ofList points))).request =
      some (.ofList (mcCommandHeader network (10 + packedLength points.length + 11) ++
        bitWriteCore address_data points)) := by
  have hpos := List.length_pos_iff.mpr h0
  have hsome := isNone_of_analysed ha
  have hbad : ¬ (fd ≤ 0 ∨ address.isNone = true ∨ (points.length : ℤ) ≤ 0) := by
    rw [hsome]
    simp only [Bool.false_eq_true, false_or]
    omega
  have hbad' : ¬ (fd ≤ 0 ∨ address.isNone = true ∨ (points.length : ℤ) ≤ 0 ∨
      (some points).isNone = true) := by
    rw [hsome]
    simp only [Bool.false_eq_true, Option.isNone_some, false_or, or_false]
    omega
  have hpack := packMcCommand_ofList network (bitWriteCore address_data points)
    (by simp [bitWriteCore, coreHeader])
    (by rw [bitWriteCore_length, packedLength]; omega)
  simp only [mcWriteBoolBatch]
  rw [if_neg hbad, Elements.used_ofList, writeBoolValue, if_neg hbad', analysed, ha]
  simp only
  rw [buildWriteBitCoreCommand_eq h, Call.ofOption_some, Call.ret_bind, writeExchange,
    exchange_packed hfd hpack (by simp [mcCommandHeader])]
  simp only [Call.request, bitWriteCore_length, Nat.cast_add, Nat.cast_ofNat]

/-- Packing and unpacking gives all points back, and a batch write carries all of them, if and
only if every `true` at an odd index lies below the number of bytes and the packed length fits
an `int`. -/
theorem pack_extract_iff (points : List Bool) (h0 : points ≠ [])
    (h : (points.length : ℤ) < 2 ^ 31) :
    ((transBoolArrayToByteData ⟨some points, points.length⟩).bind extractActualBoolData =
        some (.ofList (expectedBools points)) ∧
      ∀ network fd address address_data, 0 < fd →
        mcAnalysisAddress address points.length = some (some address_data) →
        ∃ cmd data, (mcWriteBoolBatch network fd address points.length
            (some (.ofList points))).request = some cmd ∧ cmd.data = some data ∧
          extractActualBoolData (.ofList (data.drop 21)) =
            some (.ofList (expectedBools points))) ↔
      OddPointsEarly points ∧ points.length + 1 < 2 ^ 31 := by
  have hne : packedBytes points ≠ [] := by
    have := List.length_pos_iff.mpr h0
    rw [← List.length_pos_iff, packedBytes_length, packedLength]
    omega
  have hinj : ∀ a b : List Byte, ByteArrayInfo.ofList a = .ofList b ↔ a = b := by
    intro a b
    constructor
    · intro he
      exact Option.some.inj (congrArg ByteArrayInfo.data he)
    · rintro rfl
      rfl
  by_cases hn : points.length + 1 < 2 ^ 31
  · have hext := extractActualBoolData_ofList hne (by
      rw [packedBytes_length, packedLength]
      omega)
    rw [transBoolArrayToByteData_eq hn, Option.bind_some, hext, Option.some.injEq,
      hinj, packedBytes_flatMap]
    constructor
    · rintro ⟨ho, -⟩
      exact ⟨ho, hn⟩
    · rintro ⟨ho, -⟩
      refine ⟨ho, fun network fd address address_data hfd ha =>
        ⟨_, _, mcWriteBoolBatch_request h0 hn hfd ha, rfl, ?_⟩⟩
      rw [bitWriteCore, ← List.append_assoc, List.drop_left' (by simp), hext, Option.some.injEq,
        hinj, packedBytes_flatMap]
      exact ho
  · have hmax : (points.length : ℤ) = 2 ^ 31 - 1 := by omega
    have hneg : (toInt32 ((points.length : ℤ) + 1)).tdiv 2 = -2 ^ 30 := by
      rw [hmax]
      decide
    have hlost : transBoolArrayToByteData ⟨some points, points.length⟩ =
        some ⟨none, -2 ^ 30⟩ := by
      simp only [transBoolArrayToByteData, hneg]
      rfl
    constructor
    · rintro ⟨he, -⟩
      rw [hlost] at he
      simp [extractActualBoolData, ByteArrayInfo.ofList] at he
    · rintro ⟨-, hlt⟩
      exact absurd hlt hn

/-- Three points of which only the first and the last are `true` survive. -/
theorem pack_extract_three :
    (transBoolArrayToByteData ⟨some [true, false, true], 3⟩).bind extractActualBoolData =
      some (.ofList [1, 0, 1, 0]) :=
  ((pack_extract_iff [true, false, true] (by decide) (by decide)).mpr
    ⟨fun i hi => by
      rcases i with _ | _ | i
      · simp [pointAt] at hi
      · simp [pointAt] at hi
      · simp [pointAt] at hi, by decide⟩).1

/-- Of two points the second is lost. -/
theorem pack_extract_two_lost :
    (transBoolArrayToByteData ⟨some [false, true], 2⟩).bind extractActualBoolData =
        some (.ofList [0, 0]) ∧
      (transBoolArrayToByteData ⟨some [false, true], 2⟩).bind extractActualBoolData ≠
        some (.ofList (expectedBools [false, true])) := by
  decide

end MelsecMc
