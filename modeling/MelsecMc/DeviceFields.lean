import MelsecMc.AddressText
import MelsecMc.BitPacking
import MelsecMc.RequestFrames

/-!
# The device field of a core command

Bytes 4 to 7 of every binary core command hold the first device number, least
significant byte first, and the code of the device. A valid address with a number
below `2 ^ 24` reaches the device that it names: the field decodes to it.
-/
namespace MelsecMc

/-- Bytes 4 to 7. -/
def deviceField (core : List Byte) : List Byte := (core.drop 4).take 4

/-- The device and the number in a device field. -/
def decodeDevice : List Byte → Option (MelsecMcDataType × ℕ)
  | [b₀, b₁, b₂, code] =>
    (deviceTable.find? fun d => d.dataCode == code).map fun d =>
      (d, b₀.toNat + 256 * b₁.toNat + 65536 * b₂.toNat)
  | _ => none

/-- The bytes are a core command of one of the three builders. -/
def IsCoreCommand (address_data : MelsecMcAddressData) (core : List Byte) : Prop :=
  (∃ is_bit, (buildReadCoreCommand address_data is_bit).data = some core) ∨
    (∃ value cmd, buildWriteWordCoreCommand address_data value = some cmd ∧
      cmd.data = some core) ∨
    ∃ value cmd, buildWriteBitCoreCommand address_data value = some cmd ∧ cmd.data = some core

theorem decodeDevice_field {d : MelsecMcDataType} {n : ℕ} (hd : d ∈ deviceTable)
    (hn : n < 2 ^ 24) :
    decodeDevice [toByte ((n : ℤ).tmod 256), toByte (shiftRight n 8), toByte (shiftRight n 16),
      d.dataCode] = some (d, n) := by
  have hsum : (toByte ((n : ℤ).tmod 256)).toNat + 256 * (toByte (shiftRight n 8)).toNat +
      65536 * (toByte (shiftRight n 16)).toNat = n := by
    rw [toByte_toNat, toByte_toNat, toByte_toNat, Int.tmod_eq_emod_of_nonneg (by omega)]
    simp only [shiftRight]
    omega
  simp only [decodeDevice, find_dataCode d hd, Option.map_some, hsum]

/-- All three builders start with the same ten bytes. -/
theorem IsCoreCommand.header {address_data : MelsecMcAddressData} {core : List Byte}
    (h : IsCoreCommand address_data core) :
    ∃ command points rest, core = coreHeader command address_data points ++ rest := by
  rcases h with ⟨is_bit, h⟩ | ⟨value, cmd, hbuild, h⟩ | ⟨value, cmd, hbuild, h⟩
  · obtain rfl := Option.some.inj h
    exact ⟨_, _, [], (List.append_nil _).symm⟩
  · simp only [buildWriteWordCoreCommand] at hbuild
    generalize (if value.data.isSome then value.length else 0) = val_len at hbuild
    split at hbuild
    · obtain ⟨content, -, rfl⟩ := Option.map_eq_some_iff.mp hbuild
      obtain rfl := Option.some.inj h
      exact ⟨_, _, _, rfl⟩
    · obtain rfl := Option.some.inj hbuild
      cases h
  · obtain ⟨buffer, -, hbuild⟩ := Option.bind_eq_some_iff.mp hbuild
    split at hbuild
    · obtain rfl := Option.some.inj hbuild
      cases h
    · simp only at hbuild
      split at hbuild
      · obtain ⟨content, -, hcmd⟩ := Option.bind_eq_some_iff.mp hbuild
        obtain rfl := Option.some.inj hcmd
        obtain rfl := Option.some.inj h
        exact ⟨_, _, _, rfl⟩
      · obtain rfl := Option.some.inj hbuild
        cases h

theorem deviceField_header (command : Byte × Byte × Byte × Byte)
    (address_data : MelsecMcAddressData) (points : ℤ) (rest : List Byte) :
    deviceField (coreHeader command address_data points ++ rest) =
      [toByte (address_data.addressStart.tmod 256), toByte (shiftRight address_data.addressStart 8),
        toByte (shiftRight address_data.addressStart 16), address_data.dataType.dataCode] := rfl

/-- The device field of every command for a valid address decodes to what the address names. -/
theorem IsCoreCommand.decodes {s : CString} {d : MelsecMcDataType} {n : ℕ} (h : Names s d n)
    (hn : n < 2 ^ 24) {length : ℤ} {core : List Byte} (hc : IsCoreCommand ⟨d, n, length⟩ core) :
    decodeDevice (deviceField core) = some (d, n) := by
  obtain ⟨command, points, rest, rfl⟩ := hc.header
  rw [deviceField_header]
  exact decodeDevice_field (Denotes.mem_deviceTable h) hn

/-- A builder returns a core command, and its device field is that of the device and number. -/
def Reaches (d : MelsecMcDataType) (n : ℕ) (built : Option ByteArrayInfo) : Prop :=
  ∃ cmd core, built = some cmd ∧ cmd.data = some core ∧
    decodeDevice (deviceField core) = some (d, n)

/-- A valid address is accepted. For every kind of read and for all words and points that fit an
`int`, the builders return a core command which reaches the device and number of the address. Two
commands with the same device field are for the same device and number. -/
theorem valid_address_reaches_device (s : CString) (d : MelsecMcDataType) (n : ℕ)
    (h : Names s d n) (hn : n < 2 ^ 24) (length : ℤ) :
    mcAnalysisAddress (some s) length = some (some ⟨d, n, length⟩) ∧
      (∀ is_bit, Reaches d n (some (buildReadCoreCommand ⟨d, n, length⟩ is_bit))) ∧
      (∀ bytes : List Byte, bytes.length + 10 < 2 ^ 31 →
        Reaches d n (buildWriteWordCoreCommand ⟨d, n, length⟩ (.ofList bytes))) ∧
      (∀ points : List Bool, points.length + 1 < 2 ^ 31 →
        Reaches d n (buildWriteBitCoreCommand ⟨d, n, length⟩ ⟨some points, points.length⟩)) ∧
      ∀ core, IsCoreCommand ⟨d, n, length⟩ core →
        decodeDevice (deviceField core) = some (d, n) ∧
        ∀ (s' : CString) (d' : MelsecMcDataType) (n' : ℕ) (length' : ℤ) (core' : List Byte),
          Names s' d' n' → n' < 2 ^ 24 → IsCoreCommand ⟨d', n', length'⟩ core' →
          deviceField core = deviceField core' → d = d' ∧ n = n' := by
  refine ⟨?_, fun is_bit => ?_, fun bytes hbytes => ?_, fun points hpoints => ?_, fun core hc => ?_⟩
  · rw [mcAnalysisAddress_denotes h, clampLong_eq (by omega) (by omega),
      toInt32_eq ⟨by omega, by omega⟩]
  · exact ⟨_, _, rfl, rfl, IsCoreCommand.decodes h hn (.inl ⟨is_bit, rfl⟩)⟩
  · have hbuild := buildWriteWordCoreCommand_ofList ⟨d, n, length⟩
      (show 10 + bytes.length < 2 ^ 31 by omega)
    exact ⟨_, _, hbuild, rfl, IsCoreCommand.decodes h hn (.inr (.inl ⟨_, _, hbuild, rfl⟩))⟩
  · have hbuild := buildWriteBitCoreCommand_eq hpoints ⟨d, n, length⟩
    exact ⟨_, _, hbuild, rfl, IsCoreCommand.decodes h hn (.inr (.inr ⟨_, _, hbuild, rfl⟩))⟩
  · refine ⟨hc.decodes h hn, fun s' d' n' length' core' h' hn' hc' hfield => ?_⟩
    have hsame := hc'.decodes h' hn'
    rw [← hfield, hc.decodes h hn] at hsame
    exact Prod.mk.inj (Option.some.inj hsame)

/-- The address `zr00C8`: it is accepted, and a read, a write of one word and a write of three
points reach ZR200. -/
theorem valid_address_reaches_ZR200 :
    mcAnalysisAddress (some ⟨text ['z', 'r', '0', '0', 'C', '8'], by decide⟩) 1 =
        some (some ⟨deviceZR, (200 : ℕ), 1⟩) ∧
      Reaches deviceZR 200 (some (buildReadCoreCommand ⟨deviceZR, (200 : ℕ), 1⟩ false)) ∧
      Reaches deviceZR 200
        (buildWriteWordCoreCommand ⟨deviceZR, (200 : ℕ), 1⟩ (.ofList [0x34, 0x12])) ∧
      Reaches deviceZR 200
        (buildWriteBitCoreCommand ⟨deviceZR, (200 : ℕ), 1⟩ ⟨some [true, false, true], 3⟩) := by
  have hZR : Names ⟨text ['z', 'r', '0', '0', 'C', '8'], by decide⟩ deviceZR 200 :=
    ⟨⟨'Z', some 'R', deviceZR⟩, by decide, text ['z', 'r'], by decide, text ['0', '0', 'C', '8'],
      by decide, by decide, rfl, by decide⟩
  obtain ⟨haddress, hread, hwords, hpoints, -⟩ := valid_address_reaches_device
    ⟨text ['z', 'r', '0', '0', 'C', '8'], by decide⟩ deviceZR 200 hZR (by decide) 1
  exact ⟨haddress, hread false, hwords [0x34, 0x12] (by decide),
    hpoints [true, false, true] (by decide)⟩

end MelsecMc
