import MelsecMc.Address
import MelsecMc.Numeral

/-!
# Numbers as text (utill.c)

`itoa` fills a buffer of 66 bytes from its end: the terminator, the digits from the
last to the first, a minus sign. Four bases have a loop of their own, the others share
one. A negative radix asks for the number with its sign. The longest numeral, that of
the smallest signed number in base 2, fills the whole buffer.
-/
namespace MelsecMc

/-- The size of `buf`. -/
def itoaBufferSize : ℕ := 66

/-- A loop of `itoa` with `dest` bytes of the buffer left, and what stands behind them. `none` is a
store in front of the buffer. -/
def itoaLoop (digit : BitVec 64 → Byte) (rest : BitVec 64 → BitVec 64) :
    ℕ → BitVec 64 → List Byte → Option (ℕ × List Byte)
  | 0, value, written => if value = 0 then some (0, written) else none
  | dest + 1, value, written =>
    if value = 0 then some (dest + 1, written)
    else itoaLoop digit rest dest (rest value) (digit value :: written)

/-- `'0' + digit`, as a `char`. -/
def digitChar (digit : BitVec 64) : Byte := (BitVec.ofNat 64 (chr '0').toNat + digit).setWidth 8

/-- `if (*dest > '9') *dest += 'A' - '9' - 1`, for a `char` with a sign. -/
def adjusted (c : Byte) : Byte :=
  if (chr '9').toInt < c.toInt then c + (chr 'A' - chr '9' - 1) else c

/-- The switch on the radix. -/
def itoaDigits (radix : ℤ) : ℕ → BitVec 64 → List Byte → Option (ℕ × List Byte) :=
  if radix = 16 then itoaLoop (fun value => adjusted (digitChar (value &&& 0xF))) (· >>> 4)
  else if radix = 10 then itoaLoop (fun value => digitChar (value % 10)) (· / 10)
  else if radix = 8 then itoaLoop (fun value => digitChar (value &&& 7)) (· >>> 3)
  else if radix = 2 then itoaLoop (fun value => digitChar (value &&& 1)) (· >>> 1)
  -- a division by zero
  else if radix = 0 then fun _ _ _ => none
  else itoaLoop (fun value => adjusted (digitChar (value % BitVec.ofInt 64 radix)))
    (· / BitVec.ofInt 64 radix)

/-- `itoa`: what is written to `str`. -/
def itoa (value : BitVec 64) (radix : ℤ) : Option (List Byte) :=
  if value = 0 then some [chr '0', 0]
  else do
    let sign := decide (radix < 0 ∧ value.toInt < 0)
    let value := if sign then -value else value
    let radix := if radix < 0 then toInt32 (-radix) else radix
    let (dest, written) ← itoaDigits radix (itoaBufferSize - 1) value [0]
    if sign then
      if dest = 0 then none else return chr '-' :: written
    else return written

/-- The value of a digit or an upper-case letter. -/
def upperValue (c : Byte) : Option ℕ :=
  if (chr '0').toNat ≤ c.toNat ∧ c.toNat ≤ (chr '9').toNat then some (c.toNat - (chr '0').toNat)
  else if (chr 'A').toNat ≤ c.toNat ∧ c.toNat ≤ (chr 'Z').toNat then
    some (10 + (c.toNat - (chr 'A').toNat))
  else none

def upperSymbol (d : ℕ) : Byte :=
  if d < 10 then chr '0' + BitVec.ofNat 8 d else chr 'A' + BitVec.ofNat 8 (d - 10)

theorem upperValue_upperSymbol : ∀ d < 36, upperValue (upperSymbol d) = some d := by decide

/-- The digits of a radix: digits and upper-case letters. -/
def radixAlphabet (radix : ℕ) (h : 2 ≤ radix ∧ radix ≤ 36) : Numeral.Alphabet Byte where
  base := radix
  symbol := upperSymbol
  value c := (upperValue c).filter (· < radix)
  base_pos := by omega
  value_symbol d hd := by
    rw [upperValue_upperSymbol d (by omega)]
    simp [hd]
  value_lt c d hd := by
    have hfilter := (Option.filter_eq_some_iff.mp hd).2
    simpa using hfilter

/-- The number that is written: signed where the radix is negative. -/
def denoted (value : BitVec 64) (radix : ℤ) : ℤ := if radix < 0 then value.toInt else value.toNat

/-- The sign of a number as text. -/
def signText (n : ℤ) : List Byte := if n < 0 then [chr '-'] else []

/-- A digit function and a rest function that belong to base `A.base`. -/
structure Divides (A : Numeral.Alphabet Byte) (digit : BitVec 64 → Byte)
    (rest : BitVec 64 → BitVec 64) : Prop where
  digit_eq : ∀ value, digit value = A.symbol (value.toNat % A.base)
  rest_eq : ∀ value, (rest value).toNat = value.toNat / A.base

section Loops

variable {A : Numeral.Alphabet Byte} {digit : BitVec 64 → Byte} {rest : BitVec 64 → BitVec 64}

/-- A loop writes the digits in front of what is there. -/
theorem Divides.itoaLoop (h : Divides A digit rest) {dest : ℕ} {value : BitVec 64}
    (hv : value.toNat < A.base ^ dest) (written : List Byte) :
    itoaLoop digit rest dest value written =
      some (dest - (Numeral.shortest A dest value.toNat).length,
        Numeral.shortest A dest value.toNat ++ written) := by
  induction dest generalizing value written with
  | zero =>
    have hzero : value = 0 := by
      apply BitVec.eq_of_toNat_eq
      simpa using hv
    rw [MelsecMc.itoaLoop, if_pos hzero]
    rfl
  | succ dest ih =>
    by_cases hzero : value = 0
    · subst hzero
      rw [MelsecMc.itoaLoop, if_pos rfl]
      simp [Numeral.shortest]
    · have hpos : value.toNat ≠ 0 := fun h0 => hzero (BitVec.eq_of_toNat_eq h0)
      have hrest : (rest value).toNat < A.base ^ dest := by
        rw [h.rest_eq]
        exact Numeral.div_lt_pow A hv
      rw [MelsecMc.itoaLoop, if_neg hzero, ih hrest, h.digit_eq, h.rest_eq, Numeral.shortest,
        if_neg hpos]
      simp only [List.length_append, List.length_singleton, List.append_assoc, List.cons_append,
        List.nil_append, Nat.add_sub_add_right]

theorem digitChar_eq : ∀ d < 10, digitChar (BitVec.ofNat 64 d) = upperSymbol d := by decide

theorem adjusted_eq : ∀ d < 36, adjusted (digitChar (BitVec.ofNat 64 d)) = upperSymbol d := by
  decide

/-- Masking `k` bits and shifting them out is dividing by `2 ^ k`. -/
theorem and_mask_eq (value : BitVec 64) {k : ℕ} (hk : k < 64) :
    value &&& BitVec.ofNat 64 (2 ^ k - 1) = BitVec.ofNat 64 (value.toNat % 2 ^ k) := by
  have hlt : 2 ^ k < 2 ^ 64 := Nat.pow_lt_pow_right (by omega) hk
  have hmod : value.toNat % 2 ^ k < 2 ^ k := Nat.mod_lt _ (by positivity)
  apply BitVec.eq_of_toNat_eq
  rw [BitVec.toNat_and, BitVec.toNat_ofNat, BitVec.toNat_ofNat, Nat.mod_eq_of_lt (by omega),
    Nat.mod_eq_of_lt (by omega), Nat.and_two_pow_sub_one_eq_mod]

theorem umod_eq (value : BitVec 64) {b : ℕ} (h0 : 0 < b) (hb : b < 2 ^ 64) :
    value % BitVec.ofNat 64 b = BitVec.ofNat 64 (value.toNat % b) := by
  have hmod : value.toNat % b < 2 ^ 64 := (Nat.mod_lt _ h0).trans hb
  apply BitVec.eq_of_toNat_eq
  rw [BitVec.toNat_umod, BitVec.toNat_ofNat, BitVec.toNat_ofNat, Nat.mod_eq_of_lt hb,
    Nat.mod_eq_of_lt hmod]

theorem udiv_eq (value : BitVec 64) {b : ℕ} (hb : b < 2 ^ 64) :
    (value / BitVec.ofNat 64 b).toNat = value.toNat / b := by
  rw [BitVec.toNat_udiv, BitVec.toNat_ofNat, Nat.mod_eq_of_lt hb]

theorem ushiftRight_eq (value : BitVec 64) (k : ℕ) : (value >>> k).toNat = value.toNat / 2 ^ k := by
  rw [BitVec.toNat_ushiftRight, Nat.shiftRight_eq_div_pow]

/-- Every arm of the switch is a loop for its radix. -/
theorem itoaDigits_eq {radix : ℕ} (h : 2 ≤ radix ∧ radix ≤ 36) :
    ∃ digit rest, itoaDigits radix = itoaLoop digit rest ∧
      Divides (radixAlphabet radix h) digit rest := by
  have hmod : ∀ value : BitVec 64, value.toNat % radix < radix := fun value =>
    Nat.mod_lt _ (by omega)
  by_cases h16 : radix = 16
  · subst h16
    refine ⟨_, _, rfl, fun value => ?_, fun value => ushiftRight_eq value 4⟩
    exact (congrArg (fun d => adjusted (digitChar d)) (and_mask_eq value (k := 4) (by omega))).trans
      (adjusted_eq _ ((hmod value).trans (by omega)))
  by_cases h10 : radix = 10
  · subst h10
    refine ⟨_, _, rfl, fun value => ?_, fun value => udiv_eq value (b := 10) (by omega)⟩
    exact (congrArg digitChar (umod_eq value (b := 10) (by omega) (by omega))).trans
      (digitChar_eq _ (hmod value))
  by_cases h8 : radix = 8
  · subst h8
    refine ⟨_, _, rfl, fun value => ?_, fun value => ushiftRight_eq value 3⟩
    exact (congrArg digitChar (and_mask_eq value (k := 3) (by omega))).trans
      (digitChar_eq _ ((hmod value).trans (by omega)))
  by_cases h2 : radix = 2
  · subst h2
    refine ⟨_, _, rfl, fun value => ?_, fun value => ushiftRight_eq value 1⟩
    exact (congrArg digitChar (and_mask_eq value (k := 1) (by omega))).trans
      (digitChar_eq _ ((hmod value).trans (by omega)))
  have hcast : BitVec.ofInt 64 radix = BitVec.ofNat 64 radix := BitVec.ofInt_natCast 64 radix
  refine ⟨fun value => adjusted (digitChar (value % BitVec.ofInt 64 radix)),
    fun value => value / BitVec.ofInt 64 radix, ?_, fun value => ?_, fun value => ?_⟩
  · rw [itoaDigits, if_neg (by omega), if_neg (by omega), if_neg (by omega), if_neg (by omega),
      if_neg (by omega)]
  · rw [hcast, umod_eq value (by omega) (by omega)]
    exact adjusted_eq _ ((hmod value).trans_le h.2)
  · rw [hcast]
    exact udiv_eq value (by omega)

end Loops

section Numerals

variable {radix : ℕ} (h : 2 ≤ radix ∧ radix ≤ 36) {value : BitVec 64}

/-- Every digit loop ends inside the buffer and leaves a byte for the sign. -/
theorem itoaDigits_fits (hv : value ≠ 0) :
    ∃ dest digits, itoaDigits radix (itoaBufferSize - 1) value [0] =
        some (dest, digits ++ [0]) ∧ 0 < dest ∧ dest + digits.length + 1 = itoaBufferSize ∧
      Numeral.Canonical (radixAlphabet radix h) value.toNat digits := by
  obtain ⟨digit, rest, hloop, hdivides⟩ := itoaDigits_eq h
  have hbase : (radixAlphabet radix h).base = radix := rfl
  have hlt : value.toNat < (radixAlphabet radix h).base ^ 64 := by
    rw [hbase]
    exact value.isLt.trans_le (Nat.pow_le_pow_left h.1 64)
  have hroom : value.toNat < (radixAlphabet radix h).base ^ 65 := by
    refine hlt.trans_le (Nat.pow_le_pow_right ?_ (by omega))
    omega
  have hlen := Numeral.shortest_length_le (radixAlphabet radix h) 65 hlt
  have hpos : value.toNat ≠ 0 := fun h0 => hv (BitVec.eq_of_toNat_eq h0)
  have hrun := hdivides.itoaLoop hroom [0]
  rw [← hloop] at hrun
  refine ⟨_, _, hrun, by omega, ?_, Numeral.canonical_shortest _ hroom hpos⟩
  simp only [itoaBufferSize]
  omega

/-- No digit is a terminator or a sign. -/
theorem canonical_zero_not_mem {n : ℕ} {digits : List Byte}
    (hd : Numeral.Canonical (radixAlphabet radix h) n digits) : (0 : Byte) ∉ digits := by
  intro hmem
  have hvalue := Numeral.value_of_read _ hd.reads 0 hmem
  have hzero : upperValue 0 = none := by decide
  have hnone : (radixAlphabet radix h).value 0 = none :=
    congrArg (Option.filter fun d => decide (d < radix)) hzero
  rw [hnone] at hvalue
  cases hvalue

end Numerals

theorem neg_toNat {value : BitVec 64} (h : value.toInt < 0) :
    (-value).toNat = value.toInt.natAbs := by
  have hlt := value.isLt
  rw [BitVec.toInt_eq_toNat_cond] at h ⊢
  rw [BitVec.toNat_neg]
  split_ifs at h ⊢
  · omega
  · omega

/-- The digits are those of the number without its sign, in the base without its sign. -/
theorem itoa_of_ne_zero {value : BitVec 64} (hv : value ≠ 0) {radix : ℤ}
    (h : 2 ≤ radix.natAbs ∧ radix.natAbs ≤ 36) :
    ∃ magnitude : BitVec 64, magnitude ≠ 0 ∧ magnitude.toNat = (denoted value radix).natAbs ∧
      itoa value radix =
        (itoaDigits radix.natAbs (itoaBufferSize - 1) magnitude [0]).bind fun r =>
          if denoted value radix < 0 then if r.1 = 0 then none else some (chr '-' :: r.2)
          else some r.2 := by
  rw [itoa, if_neg hv]
  by_cases hr : radix < 0
  · have hbase : toInt32 (-radix) = radix.natAbs := by
      rw [toInt32_eq ⟨by omega, by omega⟩]
      omega
    have hdenoted : denoted value radix = value.toInt := if_pos hr
    simp only [hdenoted, hr, hbase, true_and, if_true]
    by_cases hneg : value.toInt < 0
    · have hmagnitude := neg_toNat hneg
      refine ⟨-value, fun h0 => ?_, hmagnitude, ?_⟩
      · rw [h0] at hmagnitude
        have hzero : (0 : BitVec 64).toNat = 0 := rfl
        omega
      · simp only [hneg, decide_true, if_true]
        rfl
    · refine ⟨value, hv, ?_, ?_⟩
      · have hlt := value.isLt
        rw [BitVec.toInt_eq_toNat_cond] at hneg ⊢
        split_ifs at hneg ⊢
        · omega
        · omega
      · simp only [hneg, decide_false, Bool.false_eq_true, if_false]
        rfl
  · have hbase : (radix.natAbs : ℤ) = radix := by omega
    have hdenoted : denoted value radix = value.toNat := if_neg hr
    refine ⟨value, hv, by rw [hdenoted]; rfl, ?_⟩
    have hsign : ¬ (value.toNat : ℤ) < 0 := by omega
    simp only [hdenoted, hr, hbase, hsign, false_and, decide_false, Bool.false_eq_true, if_false]
    rfl

/-- What `itoa` writes: the sign, and a numeral without leading zeros. -/
theorem itoa_eq (value : BitVec 64) {radix : ℤ} (h : 2 ≤ radix.natAbs ∧ radix.natAbs ≤ 36) :
    ∃ digits, itoa value radix = some (signText (denoted value radix) ++ digits ++ [0]) ∧
      (signText (denoted value radix) ++ digits).length + 1 ≤ itoaBufferSize ∧
      Numeral.Canonical (radixAlphabet radix.natAbs h) (denoted value radix).natAbs digits := by
  by_cases hzero : value = 0
  · subst hzero
    have hdenoted : denoted 0 radix = 0 := by
      rw [denoted]
      split <;> rfl
    refine ⟨[chr '0'], ?_, ?_, ?_⟩
    · rw [itoa, if_pos rfl, hdenoted]
      rfl
    · rw [hdenoted]
      decide
    · rw [hdenoted]
      exact Numeral.canonical_zero (radixAlphabet radix.natAbs h)
  · obtain ⟨magnitude, hm, hnat, hitoa⟩ := itoa_of_ne_zero hzero h
    obtain ⟨dest, digits, hdigits, hdest, hsize, hcanonical⟩ := itoaDigits_fits h hm
    rw [hnat] at hcanonical
    refine ⟨digits, ?_, ?_, hcanonical⟩
    · rw [hitoa, hdigits, signText]
      simp only [Option.bind_some]
      split
      · rw [if_neg (by omega)]
        rfl
      · rfl
    · rw [signText, List.length_append]
      split
      · simp only [List.length_singleton]
        omega
      · simp only [List.length_nil]
        omega

/-- For every 64-bit value and every radix from 2 to 36 or from -36 to -2: `itoa` ends without a
store outside its buffer, and writes a terminated string: a minus sign for a negative number, and
the numeral of its absolute value with upper-case digits and no leading zero. -/
theorem itoa_canonical (value : BitVec 64) {radix : ℤ}
    (h : 2 ≤ radix.natAbs ∧ radix.natAbs ≤ 36) :
    ∃ str : CString, itoa value radix = some (str.chars ++ [0]) ∧
      str.chars.length + 1 ≤ itoaBufferSize ∧
      ∃ digits, str.chars = signText (denoted value radix) ++ digits ∧
        Numeral.Canonical (radixAlphabet radix.natAbs h) (denoted value radix).natAbs digits := by
  obtain ⟨digits, hitoa, hsize, hcanonical⟩ := itoa_eq value h
  have hdigits := canonical_zero_not_mem h hcanonical
  have hsign : (0 : Byte) ∉ signText (denoted value radix) := by
    rw [signText]
    split <;> decide
  have hnonzero : (0 : Byte) ∉ signText (denoted value radix) ++ digits := by
    rw [List.mem_append, not_or]
    exact ⟨hsign, hdigits⟩
  exact ⟨⟨_, hnonzero⟩, hitoa, hsize, digits, rfl, hcanonical⟩

/-- The smallest signed number in base 2. -/
theorem itoa_canonical_min : ∃ str : CString,
    itoa (1 <<< 63) (-2) = some (str.chars ++ [0]) ∧ str.chars.length + 1 ≤ itoaBufferSize ∧
      ∃ digits, str.chars = signText (denoted (1 <<< 63) (-2)) ++ digits ∧
        Numeral.Canonical (radixAlphabet 2 (by decide)) (denoted (1 <<< 63) (-2)).natAbs digits :=
  itoa_canonical (1 <<< 63) (by decide)

/-- It fills the buffer. -/
example : (itoa (1 <<< 63) (-2)).map List.length = some itoaBufferSize := by decide +kernel

end MelsecMc
