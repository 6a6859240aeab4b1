import MelsecMc.HexText

/-!
# The message checksum (melsec_helper.c)

`calculate_CRC` adds up the bytes of a message between the first one and the two
of the trailer, and writes the sum as text with its low byte first. `check_CRC`
compares the first two characters of that text with the trailer. The second of
its two comparisons is the wrong way round, so a message that carries its own
checksum is refused, and what is accepted has a wrong last character.
-/
namespace MelsecMc

/-- `build_ascii_bytes_from_ushort`. The low byte is written first. -/
def buildAsciiBytesFromUshort (data : ℕ) : ByteArrayInfo :=
  .ofList ([BitVec.ofNat 8 (0xFF &&& data), BitVec.ofNat 8 (0xFF &&& (data >>> 8))].flatMap
    hexStrPair)

/-- One pass of the loop in `calculate_CRC`: `sum += data.data[i]`. -/
def addByte (bytes : List Byte) (sum : ℤ) (i : ℕ) : Option ℤ := do
  let b ← bytes[i]?
  return toInt32 (sum + b.toNat)

/-- `calculate_CRC`. The index runs from 1 to below `data_len - 2`. -/
def calculateCRC (data : ByteArrayInfo) : Option ByteArrayInfo := do
  let sum ← (List.range' 1 (data.length - 3).toNat).foldlM (addByte (data.data.getD [])) 0
  return buildAsciiBytesFromUshort (toUShort sum)

/-- `check_CRC`. A negative index is outside the message. -/
def checkCRC (arr_data : ByteArrayInfo) : Option Bool :=
  match arr_data.data with
  | none => some false
  | some bytes =>
    if arr_data.length < 2 then none
    else do
      let crc ← calculateCRC arr_data
      let chars ← crc.data
      let c₀ ← chars[0]?
      let m₀ ← bytes[(arr_data.length - 2).toNat]?
      if c₀ = m₀ then
        let c₁ ← chars[1]?
        let m₁ ← bytes[(arr_data.length - 1).toNat]?
        return decide (c₁ ≠ m₁)
      else return false

/-- The bytes that the checksum covers. -/
def summed (m : List Byte) : List Byte := (m.drop 1).take (m.length - 3)

/-- Their sum. -/
def checksum (m : List Byte) : ℕ := ((summed m).map BitVec.toNat).sum

/-- The last two bytes. -/
def trailer (m : List Byte) : List Byte := m.drop (m.length - 2)

/-- One byte that the checksum covers, or one of the trailer, is another one in `m'`. -/
def Corrupted (m m' : List Byte) : Prop :=
  ∃ i b, 1 ≤ i ∧ i < m.length ∧ m[i]? ≠ some b ∧ m' = m.set i b

theorem toInt32_toInt32_add (x y : ℤ) : toInt32 (toInt32 x + y) = toInt32 (x + y) := by
  simp only [toInt32, Int.bmod]
  omega

theorem toUShort_toInt32 (n : ℕ) : toUShort (toInt32 n) = n % 2 ^ 16 := by
  simp only [toUShort, toInt32, Int.bmod]
  omega

/-- After `k` passes the accumulator is the sum of the bytes passed, wrapped around. -/
theorem foldlM_addByte {bytes : List Byte} {k : ℕ} (h : k + 1 ≤ bytes.length) :
    (List.range' 1 k).foldlM (addByte bytes) 0 =
      some (toInt32 (((bytes.drop 1).take k).map BitVec.toNat).sum) := by
  induction k with
  | zero => simp [toInt32]
  | succ k ih =>
    have hget : bytes[1 + k]? = some bytes[1 + k] := List.getElem?_eq_getElem (by omega)
    have htake : (bytes.drop 1).take (k + 1) = (bytes.drop 1).take k ++ [bytes[1 + k]] := by
      rw [List.take_add_one, List.getElem?_drop, hget]
      rfl
    rw [List.range'_concat, List.foldlM_append, ih (by omega), htake]
    simp only [Option.bind_eq_bind, Option.bind_some, List.foldlM_cons, List.foldlM_nil, addByte,
      Nat.one_mul, hget, List.map_append, List.sum_append, List.map_singleton, List.sum_singleton,
      Nat.cast_add, toInt32_toInt32_add, Option.pure_def]

theorem calculateCRC_ofList {m : List Byte} (h : 3 ≤ m.length) :
    calculateCRC (.ofList m) = some (buildAsciiBytesFromUshort (checksum m % 2 ^ 16)) := by
  have hn : ((m.length : ℤ) - 3).toNat = m.length - 3 := by omega
  simp only [calculateCRC, ByteArrayInfo.ofList_length, ByteArrayInfo.ofList_data, hn,
    Option.getD_some, foldlM_addByte (show m.length - 3 + 1 ≤ m.length by omega),
    Option.bind_eq_bind, Option.bind_some, toUShort_toInt32]
  rfl

/-- The first two characters are the digits of the low byte of the sum. -/
def checksumText (m : List Byte) : List Byte := Numeral.write hexAlphabet 2 (checksum m)

theorem buildAsciiBytesFromUshort_eq (n : ℕ) :
    buildAsciiBytesFromUshort (n % 2 ^ 16) =
      .ofList (Numeral.write hexAlphabet 2 n ++
        hexStrPair (BitVec.ofNat 8 (n % 2 ^ 16 / 256))) := by
  have hlow : (BitVec.ofNat 8 (0xFF &&& (n % 2 ^ 16))).toNat = n % 2 ^ 8 := by
    rw [BitVec.toNat_ofNat, Nat.and_comm, and_ff]
    omega
  have hhigh : (BitVec.ofNat 8 (0xFF &&& ((n % 2 ^ 16) >>> 8))) =
      BitVec.ofNat 8 (n % 2 ^ 16 / 256) := by
    apply BitVec.eq_of_toNat_eq
    rw [BitVec.toNat_ofNat, BitVec.toNat_ofNat, Nat.and_comm, and_ff, Nat.shiftRight_eq_div_pow]
    omega
  have hmod := Numeral.write_mod hexAlphabet 2 n
  rw [buildAsciiBytesFromUshort, hhigh, List.flatMap_cons, hexStrPair_eq, hlow]
  exact congrArg (fun l => ByteArrayInfo.ofList (l ++ _)) hmod

theorem checksumText_eq (m : List Byte) :
    checksumText m =
      [hexAlphabet.symbol (checksum m / 16 % 16), hexAlphabet.symbol (checksum m % 16)] :=
  rfl

/-- The characters of the checksum that are compared. -/
theorem calculateCRC_take {m : List Byte} (h : 3 ≤ m.length) :
    ∃ high, calculateCRC (.ofList m) = some (.ofList (checksumText m ++ high)) := by
  rw [calculateCRC_ofList h, buildAsciiBytesFromUshort_eq]
  exact ⟨_, rfl⟩

theorem trailer_eq {m : List Byte} (h : 2 ≤ m.length) :
    trailer m = [m[m.length - 2], m[m.length - 1]] := by
  have h1 : m.length - 2 + 1 = m.length - 1 := by omega
  rw [trailer, List.drop_eq_getElem_cons (by omega)]
  simp only [h1]
  rw [List.drop_eq_getElem_cons (by omega), List.drop_of_length_le (by omega)]

/-- What is compared: the byte before the last must match, the last one must not. -/
theorem checkCRC_eq {m : List Byte} (h : 3 ≤ m.length) :
    checkCRC (.ofList m) =
      some (decide ((trailer m)[0]? = (checksumText m)[0]? ∧
        (trailer m)[1]? ≠ (checksumText m)[1]?)) := by
  obtain ⟨high, hcrc⟩ := calculateCRC_take h
  have h2 : ((m.length : ℤ) - 2).toNat = m.length - 2 := by omega
  have h1 : ((m.length : ℤ) - 1).toNat = m.length - 1 := by omega
  have hget2 : m[m.length - 2]? = some m[m.length - 2] := List.getElem?_eq_getElem (by omega)
  have hget1 : m[m.length - 1]? = some m[m.length - 1] := List.getElem?_eq_getElem (by omega)
  rw [trailer_eq (by omega), checksumText_eq]
  simp only [checkCRC, ByteArrayInfo.ofList_data, ByteArrayInfo.ofList_length, hcrc, h2, h1,
    hget2, hget1, checksumText_eq, if_neg (show ¬ (m.length : ℤ) < 2 by omega),
    Option.bind_eq_bind, Option.bind_some, List.cons_append, List.getElem?_cons_zero,
    List.getElem?_cons_succ, Option.some.injEq]
  generalize m[m.length - 2] = m₀
  generalize m[m.length - 1] = m₁
  by_cases h0 : hexAlphabet.symbol (checksum m / 16 % 16) = m₀
  · rw [if_pos h0]
    simp [h0, eq_comm]
  · rw [if_neg h0]
    simp [Ne.symm h0]

/-- The byte before the last is the character that `calculate_CRC` gives for it. -/
def FirstMatches (m : List Byte) : Prop :=
  m[m.length - 2]? = some (hexAlphabet.symbol (checksum m / 16 % 16))

theorem firstMatches_iff {m : List Byte} (h : 2 ≤ m.length) :
    FirstMatches m ↔ (trailer m)[0]? = (checksumText m)[0]? := by
  rw [FirstMatches, trailer_eq h, checksumText_eq, List.getElem?_eq_getElem (by omega)]
  rfl

/-- The trailer is the checksum where both characters agree. -/
theorem trailer_eq_checksumText_iff {m : List Byte} (h : 2 ≤ m.length) :
    trailer m = checksumText m ↔
      FirstMatches m ∧ (trailer m)[1]? = (checksumText m)[1]? := by
  rw [firstMatches_iff h, trailer_eq h, checksumText_eq]
  simp

theorem checkCRC_true_iff {m : List Byte} (h : 3 ≤ m.length) :
    checkCRC (.ofList m) = some true ↔
      FirstMatches m ∧ (trailer m)[1]? ≠ (checksumText m)[1]? := by
  rw [checkCRC_eq h, firstMatches_iff (by omega), Option.some.injEq, decide_eq_true_iff]

theorem checkCRC_false_iff {m : List Byte} (h : 3 ≤ m.length) :
    checkCRC (.ofList m) = some false ↔
      (FirstMatches m → (trailer m)[1]? = (checksumText m)[1]?) := by
  rw [checkCRC_eq h, firstMatches_iff (by omega), Option.some.injEq, decide_eq_false_iff_not,
    not_and, not_not]

/-- Another element at one place of a list. -/
theorem sum_set_add {l : List ℕ} {i x : ℕ} (h : l[i]? = some x) (y : ℕ) :
    (l.set i y).sum + x = l.sum + y := by
  induction l generalizing i with
  | nil => simp at h
  | cons a l ih =>
    cases i with
    | zero =>
      obtain rfl := Option.some.inj h
      simp only [List.set_cons_zero, List.sum_cons]
      omega
    | succ i =>
      have := ih h
      simp only [List.set_cons_succ, List.sum_cons]
      omega

theorem summed_set {m : List Byte} {i : ℕ} (h : 1 ≤ i) (b : Byte) :
    summed (m.set i b) = (summed m).set (i - 1) b := by
  rw [summed, summed, List.length_set, List.drop_set, if_neg (by omega), List.take_set]

theorem summed_getElem? {m : List Byte} {i : ℕ} (h1 : 1 ≤ i) (h2 : i < m.length - 2) :
    (summed m)[i - 1]? = m[i]? := by
  rw [summed, List.getElem?_take_of_lt (by omega), List.getElem?_drop]
  congr 1
  omega

/-- A changed byte shifts the checksum by the difference. -/
theorem checksum_set {m : List Byte} {i : ℕ} (h1 : 1 ≤ i) (h2 : i < m.length - 2) {x : Byte}
    (hx : m[i]? = some x) (b : Byte) :
    checksum (m.set i b) + x.toNat = checksum m + b.toNat := by
  have hget : ((summed m).map BitVec.toNat)[i - 1]? = some x.toNat := by
    rw [List.getElem?_map, summed_getElem? h1 h2, hx]
    rfl
  rw [checksum, checksum, summed_set h1, List.map_set]
  exact sum_set_add hget b.toNat

/-- The trailer is not part of what is summed. -/
theorem checksum_set_trailer {m : List Byte} {i : ℕ} (h1 : 1 ≤ i) (h2 : m.length - 2 ≤ i)
    (b : Byte) : checksum (m.set i b) = checksum m := by
  have hlen : (summed m).length ≤ i - 1 := by
    simp only [summed, List.length_take, List.length_drop]
    omega
  rw [checksum, checksum, summed_set h1, List.set_eq_of_length_le hlen]

/-- Two sums with the same two characters agree modulo 256. -/
theorem mod_of_checksumText {m m' : List Byte} (h : checksumText m' = checksumText m) :
    checksum m' % 256 = checksum m % 256 := by
  rw [checksumText, checksumText, ← Numeral.write_mod hexAlphabet 2 (checksum m'),
    ← Numeral.write_mod hexAlphabet 2 (checksum m)] at h
  exact Numeral.write_inj hexAlphabet (Nat.mod_lt _ (by decide)) (Nat.mod_lt _ (by decide)) h

/-- No corruption of a message with its own checksum leaves the checksum right. -/
theorem Corrupted.trailer_ne {m m' : List Byte} (hc : Corrupted m m')
    (ht : trailer m = checksumText m) : trailer m' ≠ checksumText m' := by
  obtain ⟨i, b, h1, hi, hne, rfl⟩ := hc
  intro ht'
  have hget : m[i]? = some m[i] := List.getElem?_eq_getElem hi
  by_cases hpos : i < m.length - 2
  · have hkeep : trailer (m.set i b) = trailer m := by
      rw [trailer, trailer, List.length_set, List.drop_set, if_pos hpos]
    have hmod := mod_of_checksumText (ht'.symm.trans (hkeep.trans ht))
    have hsum := checksum_set h1 hpos hget b
    have hx := m[i].isLt
    have hb := b.isLt
    have heq : m[i] = b := BitVec.eq_of_toNat_eq (by omega)
    exact hne (heq ▸ hget)
  · have hsame : checksumText (m.set i b) = checksumText m := by
      rw [checksumText, checksum_set_trailer h1 (by omega), checksumText]
    have hkeep : trailer (m.set i b) = trailer m := ht'.trans (hsame.trans ht.symm)
    have hat := congrArg (·[i - (m.length - 2)]?) hkeep
    have hidx : m.length - 2 + (i - (m.length - 2)) = i := by omega
    simp only [trailer, List.length_set, List.getElem?_drop, hidx, List.getElem?_set_self hi] at hat
    exact hne hat.symm

/-- The last two bytes are the first two characters that `calculate_CRC` computes. -/
def CarriesCRC (m : List Byte) : Prop :=
  ∃ crc chars, calculateCRC (.ofList m) = some crc ∧ crc.data = some chars ∧
    trailer m = chars.take 2

theorem carriesCRC_iff {m : List Byte} (h : 3 ≤ m.length) :
    CarriesCRC m ↔ trailer m = checksumText m := by
  obtain ⟨high, hcrc⟩ := calculateCRC_take h
  have htake : (checksumText m ++ high).take 2 = checksumText m := by
    apply List.take_left'
    rw [checksumText, Numeral.write_length]
  constructor
  · intro hm
    obtain ⟨crc, chars, h1, h2, h3⟩ := hm
    obtain rfl := Option.some.inj (h1.symm.trans hcrc)
    obtain rfl := Option.some.inj h2
    exact h3.trans htake
  · intro hm
    exact ⟨_, _, hcrc, rfl, hm.trans htake.symm⟩

/-- What the verification of a message promises: it is accepted exactly when it carries its
checksum, and then every corruption of it is rejected. -/
def Verified (m : List Byte) : Prop :=
  (checkCRC (.ofList m) = some true ↔ CarriesCRC m) ∧
    (CarriesCRC m → checkCRC (.ofList m) = some true) ∧
    (CarriesCRC m → ∀ m', Corrupted m m' → checkCRC (.ofList m') = some false)

theorem Corrupted.length_eq {m m' : List Byte} (hc : Corrupted m m') : m'.length = m.length := by
  obtain ⟨i, b, -, -, -, rfl⟩ := hc
  exact List.length_set

/-- A message that carries its checksum is refused. -/
theorem CarriesCRC.refused {m : List Byte} (h : 3 ≤ m.length) (hm : CarriesCRC m) :
    checkCRC (.ofList m) = some false := by
  rw [checkCRC_false_iff h]
  intro _
  exact ((trailer_eq_checksumText_iff (by omega)).mp ((carriesCRC_iff h).mp hm)).2

/-- A corrupted message is refused unless the first of the two characters happens to match. -/
theorem Corrupted.refused_iff {m m' : List Byte} (h : 3 ≤ m.length) (hm : CarriesCRC m)
    (hc : Corrupted m m') : checkCRC (.ofList m') = some false ↔ ¬ FirstMatches m' := by
  have hlen := hc.length_eq
  have hne := hc.trailer_ne ((carriesCRC_iff h).mp hm)
  rw [Ne, trailer_eq_checksumText_iff (by omega)] at hne
  rw [checkCRC_false_iff (by omega)]
  constructor
  · intro himp hfirst
    exact hne ⟨hfirst, himp hfirst⟩
  · intro hfirst hmatch
    exact absurd hmatch hfirst

/-- The verification keeps its promise exactly for the messages whose byte before the last is
another character than that of the checksum, and all of these are refused. -/
theorem checkCRC_verified_iff {m : List Byte} (h : 3 ≤ m.length) :
    (Verified m ↔ ¬ FirstMatches m) ∧
      (CarriesCRC m → checkCRC (.ofList m) = some false ∧
        ∀ m', Corrupted m m' → (checkCRC (.ofList m') = some false ↔ ¬ FirstMatches m')) := by
  constructor
  · constructor
    · intro hv hfirst
      have hacc := hv.1
      rw [checkCRC_true_iff h, carriesCRC_iff h, trailer_eq_checksumText_iff (by omega)] at hacc
      tauto
    · intro hfirst
      have hcarry : ¬ CarriesCRC m := by
        rw [carriesCRC_iff h, trailer_eq_checksumText_iff (by omega)]
        exact fun hm => hfirst hm.1
      refine ⟨⟨fun hacc => ?_, fun hm => absurd hm hcarry⟩, fun hm => absurd hm hcarry,
        fun hm => absurd hm hcarry⟩
      exact absurd ((checkCRC_true_iff h).mp hacc).1 hfirst
  · intro hm
    exact ⟨hm.refused h, fun m' hc => hc.refused_iff h hm⟩

/-- A message of one summed byte and its checksum. -/
theorem checkCRC_verified_iff_short :
    (Verified [0x00, 0x01, 0x30, 0x31] ↔ ¬ FirstMatches [0x00, 0x01, 0x30, 0x31]) ∧
      (CarriesCRC [0x00, 0x01, 0x30, 0x31] →
        checkCRC (.ofList [0x00, 0x01, 0x30, 0x31]) = some false ∧
        ∀ m', Corrupted [0x00, 0x01, 0x30, 0x31] m' →
          (checkCRC (.ofList m') = some false ↔ ¬ FirstMatches m')) :=
  checkCRC_verified_iff (by decide)

/-- The sum of the byte is 1, the text `01`, and the message that ends in it is refused. -/
theorem checkCRC_not_verified : ¬ ∀ m : List Byte, 3 ≤ m.length → Verified m := by
  intro hall
  have hm : CarriesCRC [0x00, 0x01, 0x30, 0x31] :=
    ⟨.ofList [0x30, 0x31, 0x30, 0x30], [0x30, 0x31, 0x30, 0x30], by decide, rfl, rfl⟩
  have hacc := (hall [0x00, 0x01, 0x30, 0x31] (by decide)).1.mpr hm
  have hrej : checkCRC (.ofList [0x00, 0x01, 0x30, 0x31]) = some false := by decide
  rw [hrej] at hacc
  contradiction

end MelsecMc
