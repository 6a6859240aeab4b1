import Mathlib.Data.List.TakeWhile
import MelsecMc.Address

/-!
# The grammar of device addresses

An address is written as the letters of a supported prefix, in either case, an
optional sign and at least one digit in the base of the device. The parser finds
the device of every such text, and what `strtol` makes of the numeral is its value,
held within the range of `long`.
-/
namespace MelsecMc

/-- A device and its letters. -/
structure DevicePrefix where
  first : Char
  second : Option Char
  device : MelsecMcDataType
  deriving DecidableEq, Repr

/-- The prefixes of the address format. -/
def supportedPrefixes : List DevicePrefix :=
  [⟨'M', none, deviceM⟩, ⟨'X', none, deviceX⟩, ⟨'Y', none, deviceY⟩, ⟨'D', none, deviceD⟩,
    ⟨'W', none, deviceW⟩, ⟨'L', none, deviceL⟩, ⟨'F', none, deviceF⟩, ⟨'V', none, deviceV⟩,
    ⟨'B', none, deviceB⟩, ⟨'R', none, deviceR⟩, ⟨'S', none, deviceS⟩, ⟨'S', some 'N', deviceSN⟩,
    ⟨'S', some 'S', deviceSS⟩, ⟨'S', some 'C', deviceSC⟩, ⟨'Z', none, deviceZ⟩,
    ⟨'Z', some 'R', deviceZR⟩, ⟨'T', some 'C', deviceTC⟩, ⟨'T', some 'S', deviceTS⟩,
    ⟨'T', some 'N', deviceTN⟩, ⟨'C', some 'N', deviceCN⟩, ⟨'C', some 'S', deviceCS⟩,
    ⟨'C', some 'C', deviceCC⟩]

/-- Every device that the parser knows has one prefix. -/
theorem supportedPrefixes_devices : (supportedPrefixes.map (·.device)).Perm deviceTable := by
  decide

/-- The letters of a prefix, each in upper or lower case. -/
def DevicePrefix.spellings (p : DevicePrefix) : List (List Byte) :=
  [chr p.first, chr p.first + 32].flatMap fun c =>
    p.second.elim [[c]] fun u => [[c, chr u], [c, chr u + 32]]

/-- At least one digit, and nothing else. -/
def IsDigits (base : ℕ) (digits : List Byte) : Prop :=
  digits ≠ [] ∧ ∀ c ∈ digits, digitValue c < base

instance (base : ℕ) (digits : List Byte) : Decidable (IsDigits base digits) :=
  inferInstanceAs (Decidable (_ ∧ _))

/-- The number that the digits stand for. -/
def digitsValue (base : ℕ) (digits : List Byte) : ℕ :=
  digits.foldl (fun acc c => acc * base + digitValue c) 0

/-- An optional sign. -/
inductive Sign where
  | none
  | plus
  | minus
  deriving DecidableEq, Repr

namespace Sign

def text : Sign → List Byte
  | none => []
  | plus => [chr '+']
  | minus => [chr '-']

def apply (n : ℕ) : Sign → ℤ
  | none | plus => n
  | minus => -n

end Sign

/-- The text is a prefix of `d` and a signed numeral of value `v`. -/
def Denotes (s : CString) (sign : Sign) (d : MelsecMcDataType) (v : ℤ) : Prop :=
  ∃ p ∈ supportedPrefixes, ∃ letters ∈ p.spellings, ∃ digits,
    s.chars = letters ++ sign.text ++ digits ∧ IsDigits p.device.fromBase digits ∧
      d = p.device ∧ v = sign.apply (digitsValue p.device.fromBase digits)

/-- A valid address: letters and digits, without a sign. -/
def Names (s : CString) (d : MelsecMcDataType) (n : ℕ) : Prop := Denotes s .none d n

/-- Not an address in the format. -/
def Malformed (s : CString) : Prop := ¬ ∃ d n, Names s d n

/-- The range of `long`, at whose ends `strtol` stays. -/
def clampLong (v : ℤ) : ℤ := max (-2 ^ 63) (min (2 ^ 63 - 1) v)

/-- The characters a numeral may start with. -/
def startsNumeral (base : ℕ) (c : Byte) : Bool :=
  decide (digitValue c < base) || c == chr '+' || c == chr '-'

/-- The letters of a prefix of one letter lead to its device, whatever the numeral starts with. -/
theorem addressArm_single : ∀ p ∈ supportedPrefixes, p.second.isNone = true →
    ∀ c ∈ [chr p.first, chr p.first + 32], ∀ c₁ : Byte,
      startsNumeral p.device.fromBase c₁ = true → addressArm c c₁ = some (p.device, 1) := by
  decide +kernel

theorem addressArm_double : ∀ p ∈ supportedPrefixes, ∀ letters ∈ p.spellings,
    letters.length = 2 →
      addressArm (letters.getD 0 0) (letters.getD 1 0) = some (p.device, 2) := by
  decide +kernel

/-- What the digits of either base are not. -/
theorem digit_facts : ∀ c : Byte, digitValue c < 16 →
    isSpace c = false ∧ c ≠ chr '-' ∧ c ≠ chr '+' ∧ c ≠ chr 'x' ∧ c ≠ chr 'X' := by
  decide +kernel

theorem DevicePrefix.base_eq {p : DevicePrefix} (hp : p ∈ supportedPrefixes) :
    p.device.fromBase = 10 ∨ p.device.fromBase = 16 :=
  deviceTable_fromBase _ (supportedPrefixes_devices.mem_iff.mp (List.mem_map_of_mem hp))

theorem Denotes.mem_deviceTable {s : CString} {sign : Sign} {d : MelsecMcDataType} {v : ℤ}
    (h : Denotes s sign d v) : d ∈ deviceTable := by
  obtain ⟨p, hp, -, -, -, -, -, rfl, -⟩ := h
  exact supportedPrefixes_devices.mem_iff.mp (List.mem_map_of_mem hp)

section Strtol

variable {base : ℕ} {digits : List Byte}

theorem IsDigits.hasHexPrefix (h : ∀ c ∈ digits, digitValue c < 16) :
    hasHexPrefix digits = false := by
  match digits, h with
  | [], _ => rfl
  | [_], _ => rfl
  | [_, _], _ => rfl
  | z :: x :: d :: _, h =>
    obtain ⟨-, -, -, hx, hX⟩ := digit_facts x (h x (by simp))
    simp [MelsecMc.hasHexPrefix, hx, hX]

/-- All of the digits are taken, and nothing in front of them is. -/
theorem strtol_signed (hb : base = 10 ∨ base = 16) (hd : IsDigits base digits) (sign : Sign) :
    strtol (sign.text ++ digits) base = clampLong (sign.apply (digitsValue base digits)) := by
  obtain ⟨hne, hall⟩ := hd
  have h16 : ∀ c ∈ digits, digitValue c < 16 := fun c hc => by
    have := hall c hc
    omega
  obtain ⟨c, rest, rfl⟩ := List.exists_cons_of_ne_nil hne
  obtain ⟨hspace, hminus, hplus, -, -⟩ := digit_facts c (h16 c List.mem_cons_self)
  have hbase : strtolBase base (c :: rest) = (base, c :: rest) := by
    rw [strtolBase, IsDigits.hasHexPrefix h16]
    rcases hb with rfl | rfl <;> simp
  have htake : (c :: rest).takeWhile (fun c => decide (digitValue c < base)) = c :: rest :=
    List.takeWhile_eq_self_iff.mpr fun d hd => decide_eq_true (hall d hd)
  have hvalue : ((c :: rest).map digitValue).foldl (fun acc d => acc * base + d) 0 =
      digitsValue base (c :: rest) := List.foldl_map
  cases sign with
  | none =>
    have hdrop : (c :: rest).dropWhile isSpace = c :: rest := by simp [hspace]
    simp only [strtol, Sign.text, List.nil_append, hdrop, List.head?_cons, Option.some.injEq,
      hminus, hplus, or_self, if_false, hbase, htake, hvalue, Sign.apply, clampLong]
  | plus =>
    have hdrop : (chr '+' :: c :: rest).dropWhile isSpace = chr '+' :: c :: rest := by
      simp [show isSpace (chr '+') = false by decide]
    simp only [strtol, Sign.text, List.cons_append, List.nil_append, hdrop, List.head?_cons,
      Option.some.injEq, show chr '+' ≠ chr '-' by decide, or_true, if_true, List.tail_cons, hbase,
      htake, hvalue, Sign.apply, clampLong]
    simp
  | minus =>
    have hdrop : (chr '-' :: c :: rest).dropWhile isSpace = chr '-' :: c :: rest := by
      simp [show isSpace (chr '-') = false by decide]
    simp only [strtol, Sign.text, List.cons_append, List.nil_append, hdrop, List.head?_cons,
      true_or, if_true, List.tail_cons, hbase, htake, hvalue, Sign.apply, clampLong]

end Strtol

theorem clampLong_eq {v : ℤ} (h1 : -2 ^ 63 ≤ v) (h2 : v < 2 ^ 63) : clampLong v = v := by
  rw [clampLong]
  omega

theorem numeral_cons {base : ℕ} {digits : List Byte} (hd : IsDigits base digits) (sign : Sign) :
    ∃ c rest, sign.text ++ digits = c :: rest ∧ startsNumeral base c = true := by
  obtain ⟨d, rest, rfl⟩ := List.exists_cons_of_ne_nil hd.1
  have hdigit := hd.2 d List.mem_cons_self
  cases sign with
  | none => exact ⟨d, rest, rfl, by simp [startsNumeral, hdigit]⟩
  | plus => exact ⟨chr '+', d :: rest, rfl, by simp [startsNumeral]⟩
  | minus => exact ⟨chr '-', d :: rest, rfl, by simp [startsNumeral]⟩

/-- What the parser makes of an address in the grammar. -/
theorem mcAnalysisAddress_denotes {s : CString} {sign : Sign} {d : MelsecMcDataType} {v : ℤ}
    (h : Denotes s sign d v) (length : ℤ) :
    mcAnalysisAddress (some s) length = some (some ⟨d, toInt32 (clampLong v), length⟩) := by
  obtain ⟨p, hp, letters, hletters, digits, hs, hdigits, rfl, rfl⟩ := h
  have hstrtol := strtol_signed (DevicePrefix.base_eq hp) hdigits sign
  obtain ⟨c₁, rest, hnumeral, hstart⟩ := numeral_cons hdigits sign
  obtain ⟨c, hc, hsecond⟩ := List.mem_flatMap.mp hletters
  rw [List.append_assoc] at hs
  cases hu : p.second with
  | none =>
    rw [hu] at hsecond
    obtain rfl := List.mem_singleton.mp hsecond
    have harm := addressArm_single p hp (by rw [hu]; rfl) c hc c₁ hstart
    have hchars : s.chars = c :: (sign.text ++ digits) := hs
    have hsecondChar : s.charAt 1 = some c₁ := by
      simp [CString.charAt, hchars, hnumeral]
    have hskip : s.skip 1 = some (sign.text ++ digits) := by
      simp [CString.skip, hchars]
    rw [mcAnalysisAddress_cons s c₁ hchars hsecondChar, harm, Option.elim_some, hskip,
      Option.map_some, mcConvertStringToInt, hstrtol]
  | some u =>
    rw [hu] at hsecond
    have hlen : letters.length = 2 := by
      rcases List.mem_cons.mp hsecond with rfl | hsecond
      · rfl
      · rw [List.mem_singleton.mp hsecond]
        rfl
    have harm := addressArm_double p hp letters hletters hlen
    obtain ⟨c, c', rfl⟩ := List.length_eq_two.mp hlen
    have hchars : s.chars = c :: c' :: (sign.text ++ digits) := hs
    have hsecondChar : s.charAt 1 = some c' := by
      simp [CString.charAt, hchars]
    have hskip : s.skip 2 = some (sign.text ++ digits) := by
      simp [CString.skip, hchars]
    rw [mcAnalysisAddress_cons s c' hchars hsecondChar, show addressArm c c' = _ from harm,
      Option.elim_some, hskip, Option.map_some, mcConvertStringToInt, hstrtol]

end MelsecMc
