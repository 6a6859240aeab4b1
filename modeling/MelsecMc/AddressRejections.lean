import MelsecMc.AddressText
import MelsecMc.Requests

/-!
# Addresses that are refused

`mc_analysis_address` returns `false` for the empty string only. Every other string
is read as some address: letters without a device leave the device code at zero, and
whatever `strtol` cannot read leaves the number at zero or cuts it short.
-/
namespace MelsecMc

/-- The call ends with the address error, and without a request. -/
def Call.RefusesAddress {β : Type} (c : Call (ErrorCode × β)) : Prop :=
  ∃ out, c = .ret (.parseAddressFailed, out)

section Layers

variable {α β : Type} {s : CString} {fd : ℤ}

theorem fault_refuses : ¬ (Call.fault : Call (ErrorCode × β)).RefusesAddress := by
  rintro ⟨_, h⟩
  cases h

theorem transact_refuses {cmd : ByteArrayInfo} {next : Transacted → Call (ErrorCode × β)} :
    ¬ (Call.transact fd cmd next).RefusesAddress := by
  rintro ⟨_, h⟩
  cases h

theorem ret_refuses {a : ErrorCode × β} :
    (Call.ret a).RefusesAddress ↔ a.1 = .parseAddressFailed :=
  ⟨fun ⟨_, h⟩ => by rw [Call.ret.inj h], fun h => ⟨a.2, by rw [← h]⟩⟩

theorem code_refuses {c : Call (ErrorCode × β)} :
    c.code = .ret .parseAddressFailed ↔ c.RefusesAddress := by
  cases c with
  | fault => exact iff_of_false (fun h => by cases h) fault_refuses
  | ret a =>
    rw [ret_refuses]
    exact ⟨Call.ret.inj, congrArg Call.ret⟩
  | transact fd cmd next => exact iff_of_false (fun h => by cases h) transact_refuses

/-- A check in front of a call reports something else. -/
theorem guarded_refuses {g : Prop} [Decidable g] {a : ErrorCode × β} {c : Call (ErrorCode × β)}
    (ha : a.1 ≠ .parseAddressFailed) :
    (if g then Call.ret a else c).RefusesAddress ↔ ¬ g ∧ c.RefusesAddress := by
  split_ifs with h
  · rw [ret_refuses]
    simp [h, ha]
  · simp [h]

theorem allocated_refuses {size : ℤ} {a : ErrorCode × β} {c : Call (ErrorCode × β)}
    (ha : a.1 ≠ .parseAddressFailed) :
    (if malloc size then c else Call.ret a).RefusesAddress ↔ 0 ≤ size ∧ c.RefusesAddress := by
  by_cases h : 0 ≤ size
  · rw [malloc, decide_eq_true h, if_pos rfl, and_iff_right h]
  · rw [malloc, decide_eq_false h, if_neg (by simp), ret_refuses]
    simp [h, ha]

theorem ofOption_refuses {o : Option α} {k : α → Call (ErrorCode × β)}
    (hk : ∀ a, ¬ (k a).RefusesAddress) : ¬ (Call.ofOption o >>= k).RefusesAddress := by
  cases o with
  | none => exact fault_refuses
  | some a => exact hk a

/-- What a request ends with is never the address error. -/
theorem exchange_refuses {pack : ByteArrayInfo → PlcNetworkAddress → Option ByteArrayInfo}
    {min_size : ℕ} {network : PlcNetworkAddress} {core_cmd : ByteArrayInfo} {out : β}
    {parse : ByteArrayInfo → Option (ErrorCode × β)} :
    ¬ (exchange pack min_size network fd core_cmd out parse).RefusesAddress := by
  unfold exchange
  split_ifs
  · rw [ret_refuses]
    simp
  · refine ofOption_refuses fun cmd => ?_
    split_ifs
    · rw [Call.pure_eq, ret_refuses]
      simp
    · unfold mcSendAndReceiveTransaction
      split_ifs
      · rintro ⟨_, h⟩
        cases h
      · exact transact_refuses

/-- The address error comes from the empty string, and from nothing else. -/
theorem analysed_refuses {length : ℤ} {out : β}
    {next : MelsecMcAddressData → Call (ErrorCode × β)}
    (hnext : ∀ d, ¬ (next d).RefusesAddress) :
    (analysed (some s) length out next).RefusesAddress ↔ s.chars = [] := by
  rw [analysed]
  rcases mcAnalysisAddress_cases s length with ⟨hnil, ha⟩ | ⟨⟨s', c, hs', hc, -⟩, ha⟩ |
    ⟨hne, -, d, ha⟩
  · rw [ha]
    exact iff_of_true ⟨out, rfl⟩ hnil
  · rw [ha, Option.some.inj hs', hc]
    exact iff_of_false fault_refuses (by simp)
  · rw [ha]
    exact iff_of_false (hnext d) hne

/-- A caller that passes the code on. -/
theorem bind_refuses {c : Call (ErrorCode × α)} {k : ErrorCode × α → Call (ErrorCode × β)}
    (hk : ∀ a, (k a).RefusesAddress ↔ a.1 = .parseAddressFailed) :
    (c >>= k).RefusesAddress ↔ c.RefusesAddress := by
  cases c with
  | fault => exact iff_of_false fault_refuses fault_refuses
  | ret a => rw [Call.ret_bind, hk, ret_refuses]
  | transact fd cmd next => exact iff_of_false transact_refuses transact_refuses

/-- The end of a reader: it copies its result for a success only. -/
theorem copied_refuses {code : ErrorCode} {p : Prop} [Decidable p] {o : Option α} {g : α → β}
    {out : β} :
    (if code = .success ∧ p then do
      let a ← Call.ofOption o
      return (code, g a)
    else return (code, out) : Call (ErrorCode × β)).RefusesAddress ↔
      code = .parseAddressFailed := by
  split_ifs with h
  · refine iff_of_false (ofOption_refuses fun a => ?_) (by rw [h.1]; simp)
    rw [Call.pure_eq, ret_refuses, h.1]
    simp
  · exact ret_refuses

end Layers

/-- The end of `mc_read_string`. -/
theorem mcReadString_copied {code : ErrorCode} {p q r : Prop} [Decidable p] [Decidable q]
    [Decidable r] {o : Option (List Byte)} :
    (if code = .success ∧ p then
      if q then do
        let ret_str ← Call.ofOption o
        if r then return (code, some ret_str) else .fault
      else return (.mallocFailed, none)
    else return (code, none) : Call (ErrorCode × Option (List Byte))).RefusesAddress ↔
      code = .parseAddressFailed := by
  by_cases h : code = .success ∧ p
  · rw [if_pos h]
    refine iff_of_false ?_ (by rw [h.1]; simp)
    by_cases hq : q
    · rw [if_pos hq]
      refine ofOption_refuses fun a => ?_
      by_cases hr : r
      · rw [if_pos hr, Call.pure_eq, ret_refuses, h.1]
        simp
      · rw [if_neg hr]
        exact fault_refuses
    · rw [if_neg hq, Call.pure_eq, ret_refuses]
      simp
  · rw [if_neg h]
    exact ret_refuses

/-- A store that may be outside its buffer. -/
theorem checked_refuses {β : Type} {p : Prop} [Decidable p] {c : Call (ErrorCode × β)} :
    (if p then c else .fault).RefusesAddress ↔ p ∧ c.RefusesAddress := by
  split_ifs with h
  · rw [and_iff_right h]
  · exact iff_of_false fault_refuses fun hp => h hp.1

section Functions

variable {network : PlcNetworkAddress} {s : CString} {fd length : ℤ}

/-- The checks in front of a word reader or writer. -/
theorem guard_iff {g X : Prop} :
    ¬ (fd ≤ 0 ∨ (some s).isNone = true ∨ g) ∧ X ↔ 0 < fd ∧ ¬ g ∧ X := by
  simp [not_or, and_assoc]

theorem readBoolValue_refuses {out : ByteArrayInfo} :
    (readBoolValue network fd (some s) length out).RefusesAddress ↔
      0 < fd ∧ 0 < length ∧ s.chars = [] := by
  rw [readBoolValue, guarded_refuses (by simp), analysed_refuses fun _ => exchange_refuses,
    guard_iff, not_le]

theorem readWordValue_refuses {out : ByteArrayInfo} :
    (readWordValue network fd (some s) length out).RefusesAddress ↔
      0 < fd ∧ 0 < length ∧ s.chars = [] := by
  rw [readWordValue, guarded_refuses (by simp), analysed_refuses, guard_iff, not_le]
  intro d
  rw [readAddressData, guarded_refuses (by simp)]
  exact fun h => exchange_refuses h.2

theorem writeBoolValue_refuses {in_bytes : BoolArrayInfo} :
    (writeBoolValue network fd (some s) length in_bytes).RefusesAddress ↔
      0 < fd ∧ ¬ (length ≤ 0 ∨ in_bytes.data.isNone) ∧ s.chars = [] := by
  rw [writeBoolValue, guarded_refuses (by simp), analysed_refuses, guard_iff]
  exact fun d => ofOption_refuses fun _ => exchange_refuses

theorem writeWordValue_refuses {in_bytes : ByteArrayInfo} :
    (writeWordValue network fd (some s) length in_bytes).RefusesAddress ↔ s.chars = [] :=
  analysed_refuses fun _ => ofOption_refuses fun _ => exchange_refuses

theorem Ascii.readDeviceValue_refuses {is_bit : Bool} {out : ByteArrayInfo} :
    (Ascii.readDeviceValue network is_bit fd (some s) length out).RefusesAddress ↔
      0 < fd ∧ 0 < length ∧ s.chars = [] := by
  rw [Ascii.readDeviceValue, guarded_refuses (by simp),
    analysed_refuses fun _ => exchange_refuses, guard_iff, not_le]

theorem Ascii.writeBoolValue_refuses {in_bytes : BoolArrayInfo} :
    (Ascii.writeBoolValue network fd (some s) length in_bytes).RefusesAddress ↔
      0 < fd ∧ ¬ (length ≤ 0 ∨ in_bytes.data.isNone) ∧ s.chars = [] := by
  rw [Ascii.writeBoolValue, guarded_refuses (by simp), analysed_refuses, guard_iff]
  exact fun d => ofOption_refuses fun _ => exchange_refuses

theorem Ascii.writeWordValue_refuses {in_bytes : ByteArrayInfo} :
    (Ascii.writeWordValue network fd (some s) length in_bytes).RefusesAddress ↔
      0 < fd ∧ ¬ (length ≤ 0 ∨ in_bytes.data.isNone) ∧ s.chars = [] := by
  rw [Ascii.writeWordValue, guarded_refuses (by simp), analysed_refuses, guard_iff]
  exact fun d => ofOption_refuses fun _ => exchange_refuses

theorem readValue_refuses {size : ℕ} {C : ValueCodec size}
    {readWord : ℤ → Option CString → ℤ → ByteArrayInfo → Call (ErrorCode × ByteArrayInfo)}
    {points : ℤ} {enough : ℤ → Bool} {val : Bool} (hpoints : 0 < points)
    (hword : (readWord fd (some s) points .empty).RefusesAddress ↔
      0 < fd ∧ 0 < points ∧ s.chars = []) :
    (readValue readWord points enough C fd (some s) val).RefusesAddress ↔
      ¬ (fd ≤ 0 ∨ ¬ val) ∧ s.chars = [] := by
  rw [readValue, guarded_refuses (by simp), bind_refuses fun _ => copied_refuses, hword, guard_iff,
    not_or, not_le]
  tauto

theorem writeValue_refuses {size : ℕ} {C : ValueCodec size} {v : BitVec (8 * size)}
    {writeWord : ℤ → Option CString → ℤ → ByteArrayInfo → Call (ErrorCode × Unit)} {points : ℤ}
    (hword : 0 < fd → ((writeWord fd (some s) points (.ofList (C.encode v))).RefusesAddress ↔
      s.chars = [])) :
    (writeValue writeWord points C fd (some s) v).RefusesAddress ↔
      ¬ fd ≤ 0 ∧ s.chars = [] := by
  rw [writeValue, guarded_refuses (by simp)]
  simp only [Option.isNone_some, Bool.false_eq_true, or_false]
  exact and_congr_right fun hfd => hword (not_le.mp hfd)

/-- The functions of the binary module, one by one. -/
theorem Access.mc_refuses (access : Access) :
    access.mc network fd (some s) = .ret .parseAddressFailed ↔
      ¬ access.Refused fd ∧ s.chars = [] := by
  cases access with
  | readBool val =>
    rw [mc, code_refuses, mcReadBool, guarded_refuses (by simp),
      bind_refuses fun _ => copied_refuses, readBoolValue_refuses, guard_iff, Refused, not_or,
      not_le]
    tauto
  | readValue T val =>
    have hwords := T.words_pos
    obtain ⟨enough, hread, -⟩ := T.mcRead_eq network fd (some s) val
    rw [mc, code_refuses, hread, readValue_refuses (by omega) readWordValue_refuses]
    rfl
  | readString length range val =>
    rw [mc, code_refuses, mcReadString, guarded_refuses (by simp), guard_iff, bind_refuses,
      readWordValue_refuses, evenLength_tdiv_pos_iff range, Refused]
    · simp only [not_or, not_le]
      tauto
    · exact fun _ => mcReadString_copied
  | writeBool val =>
    rw [mc, code_refuses, mcWriteBool, guarded_refuses (by simp), writeBoolValue_refuses, Refused]
    simp
  | writeValue T v =>
    rw [mc, code_refuses, T.mcWrite_eq, writeValue_refuses fun _ => writeWordValue_refuses]
    rfl
  | writeString length range val =>
    cases val with
    | none =>
      rw [mc, code_refuses, mcWriteString, ret_refuses]
      simp [Refused]
    | some val =>
      rw [mc, code_refuses, mcWriteString, guarded_refuses (by simp), allocated_refuses (by simp),
        writeWordValue_refuses, Refused]
      have hroom : 0 ≤ evenLength length ↔ ¬ (length < 0 ∨ length = 2 ^ 31 - 1) := by
        rw [← not_lt, evenLength_neg_iff range]
      rw [hroom]
      simp [not_or, and_assoc]

open Ascii in
/-- The functions of the ASCII module, one by one. -/
theorem Access.mcAscii_refuses (access : Access) :
    access.mcAscii network fd (some s) = .ret .parseAddressFailed ↔
      ¬ access.AsciiRefused fd ∧ s.chars = [] := by
  cases access with
  | readBool val =>
    rw [mcAscii, code_refuses, mcAsciiReadBool, guarded_refuses (by simp),
      bind_refuses fun _ => copied_refuses, Ascii.readBoolValue, readDeviceValue_refuses, guard_iff,
      AsciiRefused, not_or, not_le]
    tauto
  | readValue T val =>
    have hwords := T.words_pos
    have hword : (readDeviceValue network false fd (some s) T.words .empty).RefusesAddress ↔
        0 < fd ∧ 0 < (T.words : ℤ) ∧ s.chars = [] := readDeviceValue_refuses
    rw [mcAscii, code_refuses, T.mcAsciiRead_eq]
    exact readValue_refuses (Int.natCast_pos.mpr hwords) hword
  | readString length range val =>
    rw [mcAscii, code_refuses, mcAsciiReadString, guarded_refuses (by simp), guard_iff,
      bind_refuses fun _ => copied_refuses, Ascii.readWordValue, readDeviceValue_refuses,
      evenLength_tdiv_pos_iff range, AsciiRefused]
    simp only [not_or, not_le]
    tauto
  | writeBool val =>
    rw [mcAscii, code_refuses, mcAsciiWriteBool, guarded_refuses (by simp),
      Ascii.writeBoolValue_refuses, AsciiRefused]
    simp
  | writeValue T v =>
    have hwords := T.words_pos
    rw [mcAscii, code_refuses, T.mcAsciiWrite_eq, writeValue_refuses fun hfd => ?_]
    · rfl
    · rw [Ascii.writeWordValue_refuses]
      simp [hfd]
      omega
  | writeString length range val =>
    cases val with
    | none =>
      rw [mcAscii, code_refuses, mcAsciiWriteString, ret_refuses]
      simp [AsciiRefused]
    | some val =>
      rw [mcAscii, code_refuses, mcAsciiWriteString, guarded_refuses (by simp),
        allocated_refuses (by simp), Ascii.writeWordValue_refuses, AsciiRefused, guard_iff]
      have hroom : 0 ≤ evenLength length ↔ 0 ≤ length ∧ ¬ length = 2 ^ 31 - 1 := by
        rw [← not_lt, evenLength_neg_iff range, not_or, not_lt]
      have hle : 0 < length → 0 ≤ length := le_of_lt
      rw [hroom]
      simp [evenLength_tdiv_pos_iff range]
      tauto

/-- The batch functions, one by one. -/
theorem BatchAccess.mc_refuses (access : BatchAccess) :
    access.mc network fd (some s) = .ret .parseAddressFailed ↔
      ¬ access.Refused fd ∧ access.Fits ∧ s.chars = [] := by
  cases access with
  | readBool length range values =>
    have hfits : Fits (.readBool length range values) := trivial
    rw [mc, code_refuses, mcReadBoolBatch, guarded_refuses (by simp),
      bind_refuses fun _ => copied_refuses, readBoolValue_refuses, guard_iff, Refused,
      and_iff_right hfits, ← not_le (a := fd), ← not_le (a := length)]
    tauto
  | read T length range values =>
    have hfits : Fits (.read T length range values) := trivial
    rw [mc, code_refuses, T.mcReadBatch_eq, readBatch, guarded_refuses (by simp),
      bind_refuses fun _ => copied_refuses, readWordValue_refuses, guard_iff, Refused,
      and_iff_right hfits, ← not_le (a := fd)]
    by_cases hpos : 0 < length
    · obtain ⟨hwords, hsize⟩ := T.points_range range hpos
      have hpoints : 0 < T.points length ↔ ¬ 2 ^ 31 ≤ length * T.type.words := by
        rw [T.points_eq range]
        by_cases hover : 2 ^ 31 ≤ length * (T.type.words : ℤ)
        · rw [toInt32_of_ge hover hsize]
          omega
        · rw [toInt32_eq ⟨by omega, by omega⟩]
          omega
      rw [hpoints]
      have : ¬ length ≤ 0 := by omega
      tauto
    · have : length ≤ 0 := by omega
      tauto
  | writeBool length range values =>
    cases values with
    | none =>
      rw [mc, code_refuses, mcWriteBoolBatch, ret_refuses]
      simp [Refused]
    | some values =>
      rw [mc, code_refuses, mcWriteBoolBatch, guarded_refuses (by simp), guard_iff,
        writeBoolValue_refuses, Refused, and_iff_right (show Fits (.writeBool length range _) from
          trivial)]
      simp [not_or, and_assoc]
      tauto
  | write T length range values =>
    cases values with
    | none =>
      rw [mc, code_refuses, T.mcWriteBatch_eq, writeBatch, ret_refuses]
      simp [Refused]
    | some values =>
      have hcast : length * (2 * T.type.words) = length * (2 * T.type.words : ℕ) := by
        push_cast
        rfl
      rw [mc, code_refuses, T.mcWriteBatch_eq, writeBatch, guarded_refuses (by simp), guard_iff,
        allocated_refuses (by simp), checked_refuses, writeWordValue_refuses, Refused, Fits, hcast,
        ← toInt32_neg_iff, ← not_le (a := fd), Option.isNone_some]
      have hover : length * (2 * T.type.words : ℕ) ≤ toInt32 (length * (2 * T.type.words : ℕ)) ∧
          0 < length ↔ length * (2 * T.type.words : ℕ) < 2 ^ 31 ∧ 0 < length := by
        refine and_congr_left fun hpos => ?_
        have hnonneg : 0 ≤ length * (2 * T.type.words : ℕ) := by positivity
        generalize length * (2 * T.type.words : ℕ) = size at hnonneg ⊢
        have hrange := (toInt32_range size).2
        constructor
        · omega
        · intro hlt
          rw [toInt32_eq ⟨by omega, hlt⟩]
      rw [← not_le (a := length)] at hover
      rw [← not_lt (a := toInt32 _)]
      simp only [Bool.false_eq_true, false_or]
      tauto

end Functions

/-- The parser refuses the address, and every call whose other arguments are accepted reports
this without a request. -/
structure RejectsAddress (s : CString) : Prop where
  parser : ∀ length, mcAnalysisAddress (some s) length = some none
  mc : ∀ (access : Access) (network : PlcNetworkAddress) (fd : ℤ), ¬ access.Refused fd →
    access.mc network fd (some s) = .ret .parseAddressFailed
  mcAscii : ∀ (access : Access) (network : PlcNetworkAddress) (fd : ℤ), ¬ access.AsciiRefused fd →
    access.mcAscii network fd (some s) = .ret .parseAddressFailed
  batch : ∀ (access : BatchAccess) (network : PlcNetworkAddress) (fd : ℤ), ¬ access.Refused fd →
    access.Fits → access.mc network fd (some s) = .ret .parseAddressFailed

theorem mcAnalysisAddress_refused {s : CString} {length : ℤ} :
    mcAnalysisAddress (some s) length = some none ↔ s.chars = [] := by
  rcases mcAnalysisAddress_cases s length with ⟨hnil, ha⟩ | ⟨⟨s', c, hs', hc, -⟩, ha⟩ |
    ⟨hne, -, d, ha⟩
  · exact iff_of_true ha hnil
  · rw [ha, Option.some.inj hs', hc]
    simp
  · rw [ha]
    simp [hne]

theorem rejectsAddress_iff (s : CString) : RejectsAddress s ↔ s.chars = [] := by
  refine ⟨fun h => mcAnalysisAddress_refused.mp (h.parser 0), fun hnil => ?_⟩
  exact {
    parser := fun length => mcAnalysisAddress_refused.mpr hnil
    mc := fun access network fd hr => access.mc_refuses.mpr ⟨hr, hnil⟩
    mcAscii := fun access network fd hr => access.mcAscii_refuses.mpr ⟨hr, hnil⟩
    batch := fun access network fd hr hfits => access.mc_refuses.mpr ⟨hr, hfits, hnil⟩ }

/-- A malformed address is refused exactly when it is empty, by the parser and by every single
call. -/
theorem malformed_rejected_iff (s : CString) :
    ((Malformed s → RejectsAddress s) ↔ ¬ Malformed s ∨ s.chars = []) ∧
      (∀ (access : Access) (network : PlcNetworkAddress) (fd : ℤ),
        access.mc network fd (some s) = .ret .parseAddressFailed ↔
          ¬ access.Refused fd ∧ s.chars = []) ∧
      (∀ (access : Access) (network : PlcNetworkAddress) (fd : ℤ),
        access.mcAscii network fd (some s) = .ret .parseAddressFailed ↔
          ¬ access.AsciiRefused fd ∧ s.chars = []) ∧
      ∀ (access : BatchAccess) (network : PlcNetworkAddress) (fd : ℤ),
        access.mc network fd (some s) = .ret .parseAddressFailed ↔
          ¬ access.Refused fd ∧ access.Fits ∧ s.chars = [] := by
  refine ⟨?_, fun access network fd => access.mc_refuses, fun access network fd =>
    access.mcAscii_refuses, fun access network fd => access.mc_refuses⟩
  rw [rejectsAddress_iff, imp_iff_not_or]

/-- `Q5` names no device, and is read as number 0 of the device with code 0. -/
theorem malformed_Q5_sent :
    let Q5 : CString := ⟨text ['Q', '5'], by decide⟩
    Malformed Q5 ∧ ¬ RejectsAddress Q5 ∧
      (mcReadShort ⟨0, 0⟩ 3 (some Q5) true).request = some (.ofList
        [0x50, 0x00, 0x00, 0xFF, 0xFF, 0x03, 0x00, 0x0C, 0x00, 0x0A, 0x00,
          0x01, 0x04, 0x00, 0x00, 0x00, 0x00, 0x00, 0x00, 0x01, 0x00]) := by
  refine ⟨?_, fun h => ?_, by decide⟩
  · rintro ⟨d, n, hnames⟩
    have hd := Denotes.mem_deviceTable hnames
    have haddress := mcAnalysisAddress_denotes hnames 0
    have hnone : mcAnalysisAddress (some ⟨text ['Q', '5'], by decide⟩) 0 =
        some (some ⟨noDevice, 0, 0⟩) := by decide
    rw [hnone] at haddress
    have hdevice : noDevice = d :=
      congrArg MelsecMcAddressData.dataType (Option.some.inj (Option.some.inj haddress))
    rw [← hdevice] at hd
    exact absurd hd (by decide)
  · have hempty := (rejectsAddress_iff _).mp h
    exact absurd hempty (by decide)

end MelsecMc
