import MelsecMc.AddressText
import MelsecMc.Requests

/-!
# Numbers that do not fit the device field

The number of an address passes through `strtol`, which stops at the ends of `long`,
and a conversion to `int`, and is then cut to 24 bits or to six characters. Nothing
on this way is checked but the sign of the `int`, and this in the ASCII module only:
a request goes out for another number.
-/
namespace MelsecMc

/-- The number fits the three bytes of a binary device number. -/
def FitsBinary (v : ℤ) : Prop := 0 ≤ v ∧ v < 2 ^ 24

/-- The number fits the six characters of an ASCII device number. -/
def FitsAscii (d : MelsecMcDataType) (v : ℤ) : Prop :=
  0 ≤ v ∧ v < if d.fromBase = 16 then 2 ^ 24 else 10 ^ 6

/-- The call returns an error, and sends nothing. -/
def Silent (c : Call ErrorCode) : Prop := c.Opens (fun _ => False) (· ≠ .success)

/-- The `int` that is left of the number is negative. -/
def NegativeInt (v : ℤ) : Prop := 2 ^ 63 ≤ v ∨ -2 ^ 63 ≤ v ∧ 2 ^ 31 ≤ v % 2 ^ 32

theorem negativeInt_iff (v : ℤ) : toInt32 (clampLong v) < 0 ↔ NegativeInt v := by
  rw [toInt32_neg_iff, NegativeInt, clampLong]
  rcases lt_or_ge v (-2 ^ 63) with hlow | hlow
  · rw [min_eq_right (by omega), max_eq_left (by omega)]
    omega
  rcases lt_or_ge v (2 ^ 63) with hhigh | hhigh
  · rw [min_eq_right (by omega), max_eq_right (by omega)]
    omega
  · rw [min_eq_left (by omega), max_eq_right (by omega)]
    omega

section Calls

variable {s : CString} {sign : Sign} {d : MelsecMcDataType} {v : ℤ}

/-- An address in the grammar is parsed. -/
theorem Denotes.parsed (h : Denotes s sign d v) (P : Prop) : Parsed (some s) P ↔ P := by
  rcases mcAnalysisAddress_cases s 0 with ⟨hnil, ha⟩ | ⟨-, ha⟩ | ⟨hne, hlone, -⟩
  · rw [mcAnalysisAddress_denotes h] at ha
    simp at ha
  · rw [mcAnalysisAddress_denotes h] at ha
    simp at ha
  · rw [Parsed, and_iff_right hlone]
    refine or_iff_right ?_
    rintro ⟨s', hs', hnil⟩
    rw [← Option.some.inj hs'] at hnil
    exact hne hnil

theorem Denotes.negativeStart_iff (h : Denotes s sign d v) :
    NegativeStart (some s) ↔ NegativeInt v :=
  (MelsecMc.negativeStart_iff (mcAnalysisAddress_denotes h 0)).trans (negativeInt_iff v)

/-- The number of an address does not keep a call from sending, unless another argument does or,
in the ASCII module, the `int` that is left of the number is negative. -/
theorem unfit_address_silent_iff (s : CString) (sign : Sign) (d : MelsecMcDataType) (v : ℤ)
    (h : Denotes s sign d v) (network : PlcNetworkAddress) (fd : ℤ) :
    (¬ FitsBinary v →
      (∀ access : Access, Silent (access.mc network fd (some s)) ↔
        access.Refused fd ∨ access.TooLarge) ∧
      ∀ access : BatchAccess, Silent (access.mc network fd (some s)) ↔
        access.Refused fd ∨ access.Fits ∧ access.TooLarge) ∧
    (¬ FitsAscii d v →
      ∀ access : Access, Silent (access.mcAscii network fd (some s)) ↔
        access.AsciiRefused fd ∨ access.AsciiFits ∧ (NegativeInt v ∨ access.AsciiTooLarge)) := by
  refine ⟨fun _ => ⟨fun access => ?_, fun access => ?_⟩, fun _ access => ?_⟩
  · rw [Silent, access.mc_opens fun _ _ => Iff.rfl, h.parsed]
    simp
  · rw [Silent, access.mc_opens fun _ _ => Iff.rfl, h.parsed]
    simp
  · rw [Silent, access.mcAscii_opens fun _ _ _ _ _ => Iff.rfl, h.parsed, h.negativeStart_iff]
    simp

end Calls

/-- `D16777216` is read as `D0`, and `D1000000` as `D100000`. -/
theorem unfit_address_redirected :
    let D16777216 : CString := ⟨text ['D', '1', '6', '7', '7', '7', '2', '1', '6'], by decide⟩
    let D0 : CString := ⟨text ['D', '0'], by decide⟩
    let D1000000 : CString := ⟨text ['D', '1', '0', '0', '0', '0', '0', '0'], by decide⟩
    let D100000 : CString := ⟨text ['D', '1', '0', '0', '0', '0', '0'], by decide⟩
    Denotes D16777216 .none deviceD 16777216 ∧ ¬ FitsBinary 16777216 ∧
      Denotes D1000000 .none deviceD 1000000 ∧ ¬ FitsAscii deviceD 1000000 ∧
      ¬ Silent (Access.mc ⟨0, 0⟩ 3 (some D16777216) (.readValue .short true)) ∧
      (mcReadShort ⟨0, 0⟩ 3 (some D16777216) true).request =
        (mcReadShort ⟨0, 0⟩ 3 (some D0) true).request ∧
      ¬ Silent (Access.mcAscii ⟨0, 0⟩ 3 (some D1000000) (.readValue .short true)) ∧
      (Ascii.mcAsciiReadShort ⟨0, 0⟩ 3 (some D1000000) true).request =
        (Ascii.mcAsciiReadShort ⟨0, 0⟩ 3 (some D100000) true).request := by
  refine ⟨⟨⟨'D', none, deviceD⟩, by decide, text ['D'], by decide,
      text ['1', '6', '7', '7', '7', '2', '1', '6'], by decide, by decide, rfl, by decide⟩, ?_,
    ⟨⟨'D', none, deviceD⟩, by decide, text ['D'], by decide,
      text ['1', '0', '0', '0', '0', '0', '0'], by decide, by decide, rfl, by decide⟩, ?_,
    id, by decide, id, by decide⟩
  · rintro ⟨-, hlt⟩
    omega
  · rintro ⟨-, hlt⟩
    rw [if_neg (by decide)] at hlt
    omega

/-- A negative number is sent in the one module and refused in the other. -/
theorem unfit_address_negative :
    (Silent (Access.mc ⟨0, 0⟩ 3 (some ⟨text ['D', '-', '1'], by decide⟩) (.readBool true)) ↔
      Access.Refused 3 (.readBool true) ∨ Access.TooLarge (.readBool true)) ∧
    (Silent (Access.mcAscii ⟨0, 0⟩ 3 (some ⟨text ['D', '-', '1'], by decide⟩) (.readBool true)) ↔
      Access.AsciiRefused 3 (.readBool true) ∨
        Access.AsciiFits (.readBool true) ∧ (NegativeInt (-1) ∨
          Access.AsciiTooLarge (.readBool true))) := by
  have hD : Denotes ⟨text ['D', '-', '1'], by decide⟩ .minus deviceD (-1) :=
    ⟨⟨'D', none, deviceD⟩, by decide, text ['D'], by decide, text ['1'], by decide, by decide, rfl,
      by decide⟩
  obtain ⟨hmc, hascii⟩ := unfit_address_silent_iff ⟨text ['D', '-', '1'], by decide⟩ .minus deviceD
    (-1) hD ⟨0, 0⟩ 3
  exact ⟨(hmc fun h => absurd h.1 (by omega)).1 _, hascii (fun h => absurd h.1 (by omega)) _⟩

end MelsecMc
