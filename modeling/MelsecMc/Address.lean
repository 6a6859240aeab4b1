import MelsecMc.CTypes

/-!
# Device addresses (melsec_mc_comm.c)

An address is a device prefix of one or two letters followed by a numeral in the
base of the device. The parser chooses the device by the letters and hands the
rest of the string to `strtol` without looking at the result. `strtol` follows the
C standard with a 64-bit `long`.
-/
namespace MelsecMc

/-- A NUL-terminated string: the characters before the terminator. -/
structure CString where
  chars : List Byte
  nonzero : (0 : Byte) ∉ chars
  deriving DecidableEq, Repr

namespace CString

/-- The character at index `i`, the terminator included. -/
def charAt (s : CString) (i : ℕ) : Option Byte := (s.chars ++ [0])[i]?

/-- The characters from `s + i` up to the terminator. -/
def skip (s : CString) (i : ℕ) : Option (List Byte) :=
  if i ≤ s.chars.length then some (s.chars.drop i) else none

end CString

def isSpace (c : Byte) : Bool := c == chr ' ' || (9 ≤ c.toNat && c.toNat ≤ 13)

/-- Value of a digit or letter as a digit, 36 for other characters. -/
def digitValue (c : Byte) : ℕ :=
  if (chr '0').toNat ≤ c.toNat ∧ c.toNat ≤ (chr '9').toNat then c.toNat - (chr '0').toNat
  else if (chr 'A').toNat ≤ c.toNat ∧ c.toNat ≤ (chr 'Z').toNat then
    c.toNat - (chr 'A').toNat + 10
  else if (chr 'a').toNat ≤ c.toNat ∧ c.toNat ≤ (chr 'z').toNat then
    c.toNat - (chr 'a').toNat + 10
  else 36

/-- An `0x` that a hexadecimal digit follows. -/
def hasHexPrefix : List Byte → Bool
  | z :: x :: d :: _ => z == chr '0' && (x == chr 'x' || x == chr 'X') && decide (digitValue d < 16)
  | _ => false

/-- The base that `strtol` uses and the characters after the base prefix. -/
def strtolBase (base : ℕ) (s : List Byte) : ℕ × List Byte :=
  if (base = 0 ∨ base = 16) ∧ hasHexPrefix s then (16, s.drop 2)
  else if base = 0 then (if s.head? = some (chr '0') then 8 else 10, s)
  else (base, s)

/-- `strtol(s, NULL, base)`: white space, a sign, digits. Saturates at the range of `long`. -/
def strtol (s : List Byte) (base : ℕ) : ℤ :=
  let t := s.dropWhile isSpace
  let negative := t.head? = some (chr '-')
  let u := if t.head? = some (chr '-') ∨ t.head? = some (chr '+') then t.tail else t
  let b := strtolBase base u
  let digits := (b.2.takeWhile fun c => digitValue c < b.1).map digitValue
  let v := digits.foldl (fun acc d => acc * b.1 + d) 0
  max (-2 ^ 63) (min (2 ^ 63 - 1) (if negative then -(v : ℤ) else v))

/-- `mc_convert_string_to_int`. -/
def mcConvertStringToInt (address : List Byte) (frombase : ℕ) : ℤ :=
  toInt32 (strtol address frombase)

/-- `melsec_mc_data_type`, with the two cells of `ascii_code` that are read. -/
structure MelsecMcDataType where
  dataCode : Byte
  dataType : Byte
  asciiCode : Byte × Byte
  fromBase : ℕ
  deriving DecidableEq, Repr

/-- `mc_create_data_type`. -/
def mcCreateDataType (code type : Byte) (c₀ c₁ : Char) (fromBase : ℕ) : MelsecMcDataType :=
  ⟨code, type, (chr c₀, chr c₁), fromBase⟩

def deviceM : MelsecMcDataType := mcCreateDataType 0x90 0x01 'M' '*' 10
def deviceX : MelsecMcDataType := mcCreateDataType 0x9C 0x01 'X' '*' 16
def deviceY : MelsecMcDataType := mcCreateDataType 0x9D 0x01 'Y' '*' 16
def deviceD : MelsecMcDataType := mcCreateDataType 0xA8 0x01 'D' '*' 10
def deviceW : MelsecMcDataType := mcCreateDataType 0xB4 0x00 'W' '*' 16
def deviceL : MelsecMcDataType := mcCreateDataType 0x92 0x01 'L' '*' 10
def deviceF : MelsecMcDataType := mcCreateDataType 0x93 0x01 'F' '*' 10
def deviceV : MelsecMcDataType := mcCreateDataType 0x94 0x01 'V' '*' 10
def deviceB : MelsecMcDataType := mcCreateDataType 0xA0 0x01 'B' '*' 16
def deviceR : MelsecMcDataType := mcCreateDataType 0xAF 0x01 'R' '*' 10
def deviceSN : MelsecMcDataType := mcCreateDataType 0xC8 0x00 'S' 'N' 10
def deviceSS : MelsecMcDataType := mcCreateDataType 0xC7 0x01 'S' 'S' 10
def deviceSC : MelsecMcDataType := mcCreateDataType 0xC6 0x01 'S' 'C' 10
def deviceS : MelsecMcDataType := mcCreateDataType 0x98 0x01 'S' '*' 10
def deviceZR : MelsecMcDataType := mcCreateDataType 0xB0 0x00 'Z' 'R' 16
def deviceZ : MelsecMcDataType := mcCreateDataType 0xCC 0x00 'Z' '*' 10
def deviceTC : MelsecMcDataType := mcCreateDataType 0xC0 0x01 'T' 'C' 10
def deviceTS : MelsecMcDataType := mcCreateDataType 0xC1 0x01 'T' 'S' 10
def deviceTN : MelsecMcDataType := mcCreateDataType 0xC2 0x01 'T' 'N' 10
def deviceCN : MelsecMcDataType := mcCreateDataType 0xC5 0x01 'C' 'N' 10
def deviceCS : MelsecMcDataType := mcCreateDataType 0xC4 0x01 'C' 'S' 10
def deviceCC : MelsecMcDataType := mcCreateDataType 0xC3 0x01 'C' 'C' 10

/-- The zeroed data type of an address whose letters name no device. -/
def noDevice : MelsecMcDataType := ⟨0, 0, (0, 0), 0⟩

/-- Every device that `mc_analysis_address` knows. -/
def deviceTable : List MelsecMcDataType :=
  [deviceM, deviceX, deviceY, deviceD, deviceW, deviceL, deviceF, deviceV, deviceB, deviceR,
    deviceSN, deviceSS, deviceSC, deviceS, deviceZR, deviceZ, deviceTC, deviceTS, deviceTN,
    deviceCN, deviceCS, deviceCC]

/-- A key without repetitions finds the element it belongs to. -/
theorem find_of_key {α β : Type*} [BEq β] [LawfulBEq β] (key : α → β) {l : List α}
    (h : (l.map key).Nodup) {a : α} (ha : a ∈ l) : l.find? (fun b => key b == key a) = some a := by
  induction l with
  | nil => cases ha
  | cons b l ih =>
    rw [List.map_cons, List.nodup_cons] at h
    obtain ⟨hb, hl⟩ := h
    rcases List.mem_cons.mp ha with rfl | ha
    · exact List.find?_cons_of_pos (by simp)
    · have hne : key b ≠ key a := fun heq => hb (heq ▸ List.mem_map_of_mem ha)
      rw [List.find?_cons_of_neg (by simpa using hne), ih hl ha]

/-- Both codes identify the device. -/
theorem deviceTable_dataCode_nodup : (deviceTable.map (·.dataCode)).Nodup := by decide

theorem deviceTable_asciiCode_nodup : (deviceTable.map (·.asciiCode)).Nodup := by decide

/-- The binary device code finds the device. -/
theorem find_dataCode : ∀ d ∈ deviceTable,
    deviceTable.find? (·.dataCode == d.dataCode) = some d := by
  intro d hd
  exact find_of_key MelsecMcDataType.dataCode deviceTable_dataCode_nodup hd

theorem deviceTable_fromBase : ∀ d ∈ deviceTable, d.fromBase = 10 ∨ d.fromBase = 16 := by decide

/-- `melsec_mc_address_data`. -/
structure MelsecMcAddressData where
  dataType : MelsecMcDataType
  addressStart : ℤ
  length : ℤ
  deriving DecidableEq, Repr

/-- The letter `u` in either case. -/
def isLetter (c : Byte) (u : Char) : Bool := c == chr u || c == chr u + 32

/-- The switch on the first two characters: the device and where its numeral starts.
`none` where the switch has no arm for the letter. -/
def addressArm (c c₁ : Byte) : Option (MelsecMcDataType × ℕ) :=
  if isLetter c 'M' then some (deviceM, 1)
  else if isLetter c 'X' then some (deviceX, 1)
  else if isLetter c 'Y' then some (deviceY, 1)
  else if isLetter c 'D' then some (deviceD, 1)
  else if isLetter c 'W' then some (deviceW, 1)
  else if isLetter c 'L' then some (deviceL, 1)
  else if isLetter c 'F' then some (deviceF, 1)
  else if isLetter c 'V' then some (deviceV, 1)
  else if isLetter c 'B' then some (deviceB, 1)
  else if isLetter c 'R' then some (deviceR, 1)
  else if isLetter c 'S' then
    if isLetter c₁ 'N' then some (deviceSN, 2)
    else if isLetter c₁ 'S' then some (deviceSS, 2)
    else if isLetter c₁ 'C' then some (deviceSC, 2)
    else some (deviceS, 1)
  else if isLetter c 'Z' then
    if isLetter c₁ 'R' then some (deviceZR, 2) else some (deviceZ, 1)
  else if isLetter c 'T' then
    if isLetter c₁ 'C' then some (deviceTC, 2)
    else if isLetter c₁ 'S' then some (deviceTS, 2)
    else if isLetter c₁ 'N' then some (deviceTN, 2)
    -- the data type stays zeroed, and the second character is skipped unseen
    else some (noDevice, 2)
  else if isLetter c 'C' then
    if isLetter c₁ 'N' then some (deviceCN, 2)
    else if isLetter c₁ 'S' then some (deviceCS, 2)
    else if isLetter c₁ 'C' then some (deviceCC, 2)
    else some (noDevice, 2)
  else none

/-- `mc_analysis_address`. The inner `none` is the result `false`. -/
def mcAnalysisAddress (address : Option CString) (length : ℤ) :
    Option (Option MelsecMcAddressData) :=
  match address with
  | none => some none
  | some s =>
    match s.chars with
    | [] => some none
    | c :: _ =>
      (s.charAt 1).bind fun c₁ =>
        match addressArm c c₁ with
        | some (d, n) =>
          (s.skip n).map fun real_addr =>
            some ⟨d, mcConvertStringToInt real_addr d.fromBase, length⟩
        | none => some (some ⟨noDevice, 0, length⟩)

/-- The requested length is passed on unchanged. -/
theorem mcAnalysisAddress_length {address : Option CString} {length : ℤ}
    {d : MelsecMcAddressData} (h : mcAnalysisAddress address length = some (some d)) :
    d.length = length := by
  unfold mcAnalysisAddress at h
  split at h
  · simp at h
  · split at h
    · simp at h
    · obtain ⟨c₁, -, h⟩ := Option.bind_eq_some_iff.mp h
      split at h
      · obtain ⟨real_addr, -, hd⟩ := Option.map_eq_some_iff.mp h
        rw [← Option.some.inj hd]
      · rw [← Option.some.inj (Option.some.inj h)]

theorem isNone_of_analysed {address : Option CString} {length : ℤ} {d : MelsecMcAddressData}
    (h : mcAnalysisAddress address length = some (some d)) : address.isNone = false := by
  cases address with
  | none => simp [mcAnalysisAddress] at h
  | some s => rfl

/-- The length decides nothing else. -/
theorem mcAnalysisAddress_relength (address : Option CString) (n m : ℤ) :
    mcAnalysisAddress address m =
      (mcAnalysisAddress address n).map (Option.map fun d => { d with length := m }) := by
  unfold mcAnalysisAddress
  split
  · rfl
  · rename_i s
    split
    · rfl
    · rename_i c _ _
      cases s.charAt 1 with
      | none => rfl
      | some c₁ =>
        simp only [Option.bind_some]
        cases addressArm c c₁ with
        | none => rfl
        | some arm =>
          simp only [Option.map_map]
          rfl

/-- An address of only the letter `T` or `C`: the numeral would start behind the terminator. -/
def LoneLetter (address : Option CString) : Prop :=
  ∃ s c, address = some s ∧ s.chars = [c] ∧ (isLetter c 'T' ∨ isLetter c 'C')

/-- The empty string. -/
def EmptyText (address : Option CString) : Prop := ∃ s, address = some s ∧ s.chars = []

/-- A numeral with a minus sign. -/
def NegativeStart (address : Option CString) : Prop :=
  ∃ address_data, mcAnalysisAddress address 0 = some (some address_data) ∧
    address_data.addressStart < 0

theorem forall_mem_ite {α : Type} {p : Prop} [Decidable p] {a b : Option α} {P : α → Prop}
    (ha : ∀ x ∈ a, P x) (hb : ∀ x ∈ b, P x) : ∀ x ∈ (if p then a else b), P x := by
  split
  · exact ha
  · exact hb

theorem addressArm_width (c c₁ : Byte) : ∀ arm ∈ addressArm c c₁, arm.2 ≤ 2 := by
  unfold addressArm
  repeat' apply forall_mem_ite
  all_goals simp

/-- Behind a single letter two arms skip the terminator. -/
theorem addressArm_lone : ∀ c : Byte,
    (addressArm c 0).any (fun arm => decide (1 < arm.2)) =
      (isLetter c 'T' || isLetter c 'C') := by
  decide +kernel

theorem mcAnalysisAddress_cons (s : CString) {c : Byte} (c₁ : Byte) {chars : List Byte}
    (hs : s.chars = c :: chars) (h₁ : s.charAt 1 = some c₁) (length : ℤ) :
    mcAnalysisAddress (some s) length =
      (addressArm c c₁).elim (some (some ⟨noDevice, 0, length⟩)) fun arm =>
        (s.skip arm.2).map fun real_addr =>
          some ⟨arm.1, mcConvertStringToInt real_addr arm.1.fromBase, length⟩ := by
  simp only [mcAnalysisAddress, hs, h₁, Option.bind_some]
  cases addressArm c c₁ with
  | none => rfl
  | some arm => rfl

/-- The three outcomes of the parser. -/
theorem mcAnalysisAddress_cases (s : CString) (length : ℤ) :
    s.chars = [] ∧ mcAnalysisAddress (some s) length = some none ∨
      LoneLetter (some s) ∧ mcAnalysisAddress (some s) length = none ∨
      s.chars ≠ [] ∧ ¬ LoneLetter (some s) ∧
        ∃ address_data, mcAnalysisAddress (some s) length = some (some address_data) := by
  match hs : s.chars with
  | [] => exact .inl ⟨rfl, by simp [mcAnalysisAddress, hs]⟩
  | [c] =>
    have hlone := addressArm_lone c
    have hcons := mcAnalysisAddress_cons s 0 hs (by simp [CString.charAt, hs]) length
    have hletter : LoneLetter (some s) ↔ isLetter c 'T' = true ∨ isLetter c 'C' = true := by
      constructor
      · rintro ⟨s', c', hs', hc', hl⟩
        rw [← Option.some.inj hs', hs] at hc'
        rw [List.head_eq_of_cons_eq hc']
        exact hl
      · exact fun hl => ⟨s, c, rfl, hs, hl⟩
    rw [← Bool.or_eq_true, ← hlone] at hletter
    rw [hcons, hletter]
    cases harm : addressArm c 0 with
    | none => exact .inr (.inr ⟨by simp, by simp, _, rfl⟩)
    | some arm =>
      simp only [Option.any_some, decide_eq_true_eq, Option.elim_some]
      by_cases hlt : 1 < arm.2
      · refine .inr (.inl ⟨hlt, ?_⟩)
        simp [CString.skip, hs, show ¬ arm.2 ≤ 1 by omega]
      · refine .inr (.inr ⟨by simp, hlt, ?_⟩)
        simp [CString.skip, hs, show arm.2 ≤ 1 by omega]
  | c :: c₁ :: chars =>
    have hcons := mcAnalysisAddress_cons s c₁ hs (by simp [CString.charAt, hs]) length
    refine .inr (.inr ⟨by simp, ?_, ?_⟩)
    · rintro ⟨s', c', hs', hc', -⟩
      rw [← Option.some.inj hs', hs] at hc'
      simp at hc'
    · rw [hcons]
      cases harm : addressArm c c₁ with
      | none => exact ⟨_, rfl⟩
      | some arm =>
        have hwidth := addressArm_width c c₁ arm harm
        simp [CString.skip, hs, show arm.2 ≤ chars.length + 1 + 1 by omega]

/-- Whether the start address is negative does not depend on the length. -/
theorem negativeStart_iff {address : Option CString} {length : ℤ}
    {address_data : MelsecMcAddressData}
    (h : mcAnalysisAddress address length = some (some address_data)) :
    NegativeStart address ↔ address_data.addressStart < 0 := by
  have hzero := mcAnalysisAddress_relength address length 0
  rw [h] at hzero
  constructor
  · rintro ⟨d, hd, hneg⟩
    rw [hzero] at hd
    rw [← Option.some.inj (Option.some.inj hd)] at hneg
    exact hneg
  · exact fun hneg => ⟨_, hzero, hneg⟩

example : mcAnalysisAddress (some ⟨text ['w', '1', 'A', '0'], by decide⟩) 2 =
    some (some ⟨deviceW, 0x1A0, 2⟩) := by decide

end MelsecMc
