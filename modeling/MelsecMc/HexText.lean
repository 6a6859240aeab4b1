import MelsecMc.Ascii
import MelsecMc.Binary

/-!
# The text of the ASCII frames as numerals

Every character field of an ASCII frame is a numeral of fixed width over the
hexadecimal or the decimal alphabet, and the parsers read numerals back. Word
data is a sequence of four-digit numerals.
-/
namespace MelsecMc

open Numeral (write)

/-- A pair of digits is a numeral of width two. -/
theorem mcAsciiHexPairToByte_eq (c₀ c₁ : Byte) :
    mcAsciiHexPairToByte c₀ c₁ =
      (Numeral.read hexAlphabet [c₀, c₁]).map (BitVec.ofNat 8) := by
  have hread := Numeral.read_append hexAlphabet [c₀] [c₁]
  rw [Numeral.read_singleton, Numeral.read_singleton] at hread
  change Numeral.read hexAlphabet [c₀, c₁] = _ at hread
  rw [hread, mcAsciiHexPairToByte]
  change ((mcAsciiHexToNibble c₀).bind fun hi => (mcAsciiHexToNibble c₁).bind fun lo => _) =
    ((mcAsciiHexToNibble c₀).bind fun v =>
      (mcAsciiHexToNibble c₁).map fun w => v * 16 ^ 1 + w).map _
  cases mcAsciiHexToNibble c₀ with
  | none => rfl
  | some hi =>
    cases h : mcAsciiHexToNibble c₁ with
    | none => rfl
    | some lo =>
      have hlt : lo < 2 ^ 4 := mcAsciiHexToNibble_lt h
      have hor := Nat.shiftLeft_add_eq_or_of_lt hlt hi
      simp only [Option.bind_some, Option.map_some]
      rw [← hor, Nat.shiftLeft_eq]
      rfl

/-- A field of four digits is a numeral of width four. -/
theorem mcAsciiParseU16Be_eq (c₀ c₁ c₂ c₃ : Byte) :
    mcAsciiParseU16Be c₀ c₁ c₂ c₃ = Numeral.read hexAlphabet [c₀, c₁, c₂, c₃] := by
  have hread := Numeral.read_append hexAlphabet [c₀, c₁] [c₂, c₃]
  change Numeral.read hexAlphabet [c₀, c₁, c₂, c₃] = _ at hread
  rw [hread, mcAsciiParseU16Be, mcAsciiHexPairToByte_eq, mcAsciiHexPairToByte_eq]
  cases hi : Numeral.read hexAlphabet [c₀, c₁] with
  | none => rfl
  | some x =>
    cases lo : Numeral.read hexAlphabet [c₂, c₃] with
    | none => rfl
    | some y =>
      have hx : x < 2 ^ 8 := Numeral.read_lt hexAlphabet hi
      have hy : y < 2 ^ 8 := Numeral.read_lt hexAlphabet lo
      have hor := Nat.shiftLeft_add_eq_or_of_lt hy x
      simp only [Option.map_some, Option.bind_eq_bind, Option.bind_some, BitVec.toNat_ofNat,
        Nat.mod_eq_of_lt hx, Nat.mod_eq_of_lt hy]
      rw [← hor, Nat.shiftLeft_eq]
      rfl

theorem and_fifteen (n : ℕ) : n &&& 15 = n % 16 := Nat.and_two_pow_sub_one_eq_mod n 4

theorem and_ff (n : ℕ) : n &&& 255 = n % 256 := Nat.and_two_pow_sub_one_eq_mod n 8

theorem toNat_low_nibble (b : Byte) : (b &&& 0x0F).toNat = b.toNat % 16 := by
  rw [BitVec.toNat_and]
  exact and_fifteen b.toNat

theorem toNat_high_nibble (b : Byte) : (b >>> 4).toNat = b.toNat / 16 := by
  rw [BitVec.toNat_ushiftRight, Nat.shiftRight_eq_div_pow]

theorem mcAsciiToHexChar_eq (b : Byte) :
    mcAsciiToHexChar b = hexAlphabet.symbol (b.toNat % 16) := by
  have hb : b &&& 0x0F = BitVec.ofNat 8 (b.toNat % 16) &&& 0x0F := by
    apply BitVec.eq_of_toNat_eq
    rw [toNat_low_nibble, toNat_low_nibble, BitVec.toNat_ofNat]
    omega
  simp only [hexAlphabet, mcAsciiToHexChar, ← hb]

/-- A byte is written with two digits. -/
theorem mcAsciiWriteHexByte_eq (b : Byte) :
    mcAsciiWriteHexByte b = write hexAlphabet 2 b.toNat := by
  rw [mcAsciiWriteHexByte, mcAsciiToHexChar_eq, mcAsciiToHexChar_eq, toNat_low_nibble,
    toNat_high_nibble, Nat.mod_mod]
  rfl

theorem mcAsciiWriteHexU16Be_eq {v : ℕ} (h : v < 2 ^ 16) :
    mcAsciiWriteHexU16Be v = write hexAlphabet 4 v := by
  have hhi : (BitVec.ofNat 8 ((v >>> 8) &&& 0xFF)).toNat = v / 256 := by
    rw [BitVec.toNat_ofNat, and_ff, Nat.shiftRight_eq_div_pow]
    omega
  have hlo : (BitVec.ofNat 8 (v &&& 0xFF)).toNat = v % 256 := by
    rw [BitVec.toNat_ofNat, and_ff]
    omega
  have hsplit := Numeral.write_append hexAlphabet 2 2 v
  have hmod := Numeral.write_mod hexAlphabet 2 v
  rw [mcAsciiWriteHexU16Be, mcAsciiWriteHexByte_eq, mcAsciiWriteHexByte_eq, hhi, hlo]
  exact (congrArg (write hexAlphabet 2 (v / 256) ++ ·) hmod).trans hsplit

theorem hexStrPair_eq (b : Byte) : hexStrPair b = write hexAlphabet 2 b.toNat := by
  have hall : ∀ n < 16, hexStr.getD n 0 = hexAlphabet.symbol n := by decide
  have hb := b.isLt
  rw [hexStrPair, toNat_low_nibble, toNat_low_nibble, toNat_high_nibble,
    hall _ (Nat.mod_lt _ (by omega)), hall _ (Nat.mod_lt _ (by omega))]
  rfl

theorem getD_append_right {l r : List Byte} {n : ℕ} (hl : l.length = n) (i : ℕ) :
    (l ++ r).getD (n + i) 0 = r.getD i 0 := by
  rw [List.getD_eq_getElem?_getD, List.getD_eq_getElem?_getD,
    List.getElem?_append_right (by omega), hl, Nat.add_sub_cancel_left]

/-- A field of four digits reads as its number. -/
theorem mcAsciiParseU16Be_field {l r : List Byte} {i v : ℕ} (hl : l.length = i)
    (h : v < 2 ^ 16) :
    mcAsciiParseU16Be ((l ++ write hexAlphabet 4 v ++ r).getD i 0)
      ((l ++ write hexAlphabet 4 v ++ r).getD (i + 1) 0)
      ((l ++ write hexAlphabet 4 v ++ r).getD (i + 2) 0)
      ((l ++ write hexAlphabet 4 v ++ r).getD (i + 3) 0) = some v := by
  have hread := Numeral.read_write hexAlphabet 4 v h
  have hlen := Numeral.write_length hexAlphabet 4 v
  generalize write hexAlphabet 4 v = field at hread hlen
  match field, hlen with
  | [c₀, c₁, c₂, c₃], _ =>
    have hget := getD_append_right (r := [c₀, c₁, c₂, c₃] ++ r) hl
    have h0 := hget 0
    rw [Nat.add_zero] at h0
    rw [List.append_assoc, h0, hget, hget, hget, mcAsciiParseU16Be_eq]
    exact hread

/-- Formatting a number that fits six digits writes exactly these. -/
theorem snprintf06_eq {A : Numeral.Alphabet Byte} (hz : A.symbol 0 = chr '0') {n : ℕ}
    (h : n < A.base ^ 6) : snprintf06 A n = write A 6 n := by
  have hb := A.base_pos
  have hpad := Numeral.pad_shortest A 10 6 n h
    (lt_of_lt_of_le h (Nat.pow_le_pow_right (by omega) (by omega)))
  rw [snprintf06, ← hz, hpad, List.take_of_length_le (by simp)]

/-- A list without two elements at its front. -/
theorem eq_nil_or_singleton {α : Type*} {l : List α} (h : ∀ a b m, l = a :: b :: m → False) :
    l = [] ∨ ∃ a, l = [a] := by
  cases l with
  | nil => exact .inl rfl
  | cons a l =>
    cases l with
    | nil => exact .inr ⟨a, rfl⟩
    | cons b l => exact (h a b l rfl).elim

/-- The words that text of four digits a word stands for. -/
def hexWords : List Byte → Option (List ℕ)
  | [] => some []
  | c₀ :: c₁ :: c₂ :: c₃ :: chars =>
    (Numeral.read hexAlphabet [c₀, c₁, c₂, c₃]).bind fun w => (hexWords chars).map (w :: ·)
  | _ => none

/-- The words that bytes stand for, the low byte first. -/
def leWords : List Byte → Option (List ℕ)
  | [] => some []
  | b₀ :: b₁ :: bytes => (leWords bytes).map (le16 b₀ b₁ :: ·)
  | _ => none

/-- A word as the bytes that the callers see. -/
def wordBytes (w : ℕ) : List Byte := [BitVec.ofNat 8 w, BitVec.ofNat 8 (w / 256)]

theorem hexWords_length {chars : List Byte} {ws : List ℕ} (h : hexWords chars = some ws) :
    chars.length = 4 * ws.length := by
  induction chars using hexWords.induct generalizing ws with
  | case1 => simp only [hexWords, Option.some.injEq] at h; subst h; rfl
  | case2 c₀ c₁ c₂ c₃ chars ih =>
    rw [hexWords] at h
    obtain ⟨w, -, h⟩ := Option.bind_eq_some_iff.mp h
    obtain ⟨vs, hvs, rfl⟩ := Option.map_eq_some_iff.mp h
    have := ih hvs
    simp only [List.length_cons]
    omega
  | case3 chars h0 h4 => simp [hexWords] at h

@[simp] theorem swapWords_length (bytes : List Byte) :
    (swapWords bytes).length = bytes.length := by
  induction bytes using swapWords.induct with
  | case1 b₀ b₁ bytes ih => simp [swapWords, ih]
  | case2 bytes h => rw [swapWords]; exact h

theorem hexPairsToBytes_length {chars bytes : List Byte} (h : hexPairsToBytes chars = some bytes) :
    bytes.length = chars.length / 2 := by
  induction chars using hexPairsToBytes.induct generalizing bytes with
  | case1 c₀ c₁ chars ih =>
    rw [hexPairsToBytes] at h
    obtain ⟨b, -, h⟩ := Option.bind_eq_some_iff.mp h
    obtain ⟨rest, hrest, hcons⟩ := Option.bind_eq_some_iff.mp h
    obtain rfl := Option.some.inj hcons
    simp only [List.length_cons, ih hrest]
    omega
  | case2 chars hshort =>
    obtain rfl | ⟨c, rfl⟩ := eq_nil_or_singleton hshort
    · simpa [hexPairsToBytes] using h.symm
    · simpa [hexPairsToBytes] using h.symm

/-- The text of bytes is read as the bytes. -/
theorem hexPairsToBytes_flatMap (bytes : List Byte) :
    hexPairsToBytes (bytes.flatMap hexStrPair) = some bytes := by
  induction bytes with
  | nil => rfl
  | cons b bytes ih =>
    have hread : Numeral.read hexAlphabet (hexStrPair b) = some b.toNat := by
      rw [hexStrPair_eq]
      exact Numeral.read_write hexAlphabet 2 b.toNat b.isLt
    rw [List.flatMap_cons]
    change (mcAsciiHexPairToByte _ _).bind (fun b' =>
      (hexPairsToBytes (bytes.flatMap hexStrPair)).bind fun rest => some (b' :: rest)) = _
    rw [mcAsciiHexPairToByte_eq, ih]
    change ((Numeral.read hexAlphabet (hexStrPair b)).map (BitVec.ofNat 8)).bind _ = _
    rw [hread]
    simp

/-- Reading pairs of digits and swapping the bytes of every word gives the words. -/
theorem hexPairsToBytes_swapWords {chars : List Byte} {ws : List ℕ}
    (h : hexWords chars = some ws) :
    ∃ bytes, hexPairsToBytes chars = some bytes ∧ swapWords bytes = ws.flatMap wordBytes := by
  induction chars using hexWords.induct generalizing ws with
  | case1 =>
    simp only [hexWords, Option.some.injEq] at h
    subst h
    exact ⟨[], rfl, rfl⟩
  | case2 c₀ c₁ c₂ c₃ chars ih =>
    rw [hexWords] at h
    obtain ⟨w, hw, h⟩ := Option.bind_eq_some_iff.mp h
    obtain ⟨vs, hvs, rfl⟩ := Option.map_eq_some_iff.mp h
    obtain ⟨bytes, hb, hswap⟩ := ih hvs
    have hread := Numeral.read_append hexAlphabet [c₀, c₁] [c₂, c₃]
    change Numeral.read hexAlphabet [c₀, c₁, c₂, c₃] = _ at hread
    rw [hread] at hw
    obtain ⟨hi, hhi, hw⟩ := Option.bind_eq_some_iff.mp hw
    obtain ⟨lo, hlo, rfl⟩ := Option.map_eq_some_iff.mp hw
    have hlt : lo < 256 := Numeral.read_lt hexAlphabet hlo
    refine ⟨BitVec.ofNat 8 hi :: BitVec.ofNat 8 lo :: bytes, ?_, ?_⟩
    · simp only [hexPairsToBytes, mcAsciiHexPairToByte_eq, hhi, hlo, hb]
      rfl
    · have hbase : hexAlphabet.base ^ [c₂, c₃].length = 256 := rfl
      have hlow : BitVec.ofNat 8 (hi * 256 + lo) = BitVec.ofNat 8 lo := by
        apply BitVec.eq_of_toNat_eq
        simp only [BitVec.toNat_ofNat]
        omega
      have hhigh : (hi * 256 + lo) / 256 = hi := by omega
      rw [swapWords, hswap, List.flatMap_cons, wordBytes, hbase, hlow, hhigh]
      rfl
  | case3 chars h0 h4 => simp [hexWords] at h

/-- The bytes that a payload of text stands for, where it is hexadecimal and of whole bytes.
They are exchanged pairwise when they form whole words. -/
def asciiData (payload : List Byte) : Option (List Byte) :=
  if payload.length % 2 = 0 then
    (hexPairsToBytes payload).map fun data =>
      if data.length % 2 = 0 then swapWords data else data
  else none

theorem asciiData_length {payload data : List Byte} (h : asciiData payload = some data) :
    data.length = payload.length / 2 := by
  rw [asciiData] at h
  split_ifs at h
  obtain ⟨bytes, hbytes, rfl⟩ := Option.map_eq_some_iff.mp h
  rw [← hexPairsToBytes_length hbytes]
  split_ifs
  · exact swapWords_length bytes
  · rfl

theorem asciiData_hexWords {chars : List Byte} {ws : List ℕ} (h : hexWords chars = some ws) :
    asciiData chars = some (ws.flatMap wordBytes) := by
  have hlen := hexWords_length h
  obtain ⟨bytes, hpairs, hswap⟩ := hexPairsToBytes_swapWords h
  have hbytes := hexPairsToBytes_length hpairs
  rw [asciiData, if_pos (by omega), hpairs, Option.map_some, if_pos (by omega), hswap]

/-- The text of swapped words reads as the words. -/
theorem hexWords_flatMap_hexStrPair (bytes : List Byte) :
    hexWords ((swapWords bytes).flatMap hexStrPair) = leWords bytes := by
  induction bytes using leWords.induct with
  | case1 => rfl
  | case2 b₀ b₁ bytes ih =>
    have h0 := b₀.isLt
    have h1 := b₁.isLt
    have hread := Numeral.read_append hexAlphabet (hexStrPair b₁) (hexStrPair b₀)
    have hb : ∀ b : Byte, Numeral.read hexAlphabet (hexStrPair b) = some b.toNat := fun b => by
      rw [hexStrPair_eq]
      exact Numeral.read_write hexAlphabet 2 b.toNat b.isLt
    rw [hb, hb] at hread
    change ((Numeral.read hexAlphabet (hexStrPair b₁ ++ hexStrPair b₀)).bind fun w =>
      (hexWords ((swapWords bytes).flatMap hexStrPair)).map (w :: ·)) = _
    rw [hread, ih, leWords, le16_eq]
    simp only [Option.bind_some, Option.map_some]
    congr 2
    have hbase : hexAlphabet.base ^ (hexStrPair b₀).length = 256 := rfl
    rw [hbase]
    funext ws
    congr 1
    omega
  | case3 bytes h0 h2 =>
    obtain rfl | ⟨b, rfl⟩ := eq_nil_or_singleton h2
    · exact absurd rfl h0
    · rfl

theorem leWords_length {bytes : List Byte} {ws : List ℕ} (h : leWords bytes = some ws) :
    bytes.length = 2 * ws.length := by
  induction bytes using leWords.induct generalizing ws with
  | case1 => simp only [leWords, Option.some.injEq] at h; subst h; rfl
  | case2 b₀ b₁ bytes ih =>
    rw [leWords] at h
    obtain ⟨vs, hvs, rfl⟩ := Option.map_eq_some_iff.mp h
    have := ih hvs
    simp only [List.length_cons]
    omega
  | case3 bytes h0 h2 => simp [leWords] at h

/-- Bytes of whole words stand for words. -/
theorem leWords_isSome {bytes : List Byte} (h : bytes.length % 2 = 0) :
    ∃ ws, leWords bytes = some ws := by
  induction bytes using leWords.induct with
  | case1 => exact ⟨[], rfl⟩
  | case2 b₀ b₁ bytes ih =>
    obtain ⟨ws, hws⟩ := ih (by simp only [List.length_cons] at h; omega)
    exact ⟨le16 b₀ b₁ :: ws, by rw [leWords, hws]; rfl⟩
  | case3 bytes h0 h2 =>
    obtain rfl | ⟨b, rfl⟩ := eq_nil_or_singleton h2
    · exact absurd rfl h0
    · simp at h

end MelsecMc
