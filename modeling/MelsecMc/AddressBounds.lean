import Mathlib.Data.List.TakeWhile
import MelsecMc.Address
import MelsecMc.Traced

/-!
# What the address parser reads

The address parser at the level of single characters: memory from the address on
is the string, its terminator and whatever lies behind. `strlen` reads up to the
terminator, four arms of the switch read the second character, and `strtol` reads
from the start of the numeral up to the first character that does not belong to
it. Two arms start the numeral at the third character of any string.
-/
namespace MelsecMc

/-- The sign of a numeral. -/
def signPart (s : List Byte) : List Byte :=
  if s.head? = some (chr '-') ∨ s.head? = some (chr '+') then s.take 1 else []

/-- The characters behind the sign. -/
def afterSign (s : List Byte) : List Byte :=
  if s.head? = some (chr '-') ∨ s.head? = some (chr '+') then s.tail else s

/-- The base prefix of a numeral. -/
def prefixPart (base : ℕ) (s : List Byte) : List Byte :=
  if (base = 0 ∨ base = 16) ∧ hasHexPrefix s then s.take 2 else []

/-- The characters that `strtol` takes for the numeral: white space, sign, base prefix, digits. -/
def numeral (base : ℕ) (s : List Byte) : List Byte :=
  let t := s.dropWhile isSpace
  let b := strtolBase base (afterSign t)
  s.takeWhile isSpace ++ (signPart t ++ (prefixPart base (afterSign t) ++
    b.2.takeWhile fun c => digitValue c < b.1))

namespace Traced

/-- `strlen(address)`. -/
def strlen (cells : List Byte) : Traced ℕ ℕ :=
  let n := (cells.takeWhile (· ≠ 0)).length
  ⟨List.range (n + 1), n⟩

/-- `address[i]`. -/
def charAt (cells : List Byte) (i : ℕ) : Traced ℕ Byte := read i (cells.getD i 0)

/-- `strtol(address + i, NULL, base)` reads the numeral and one character more. -/
def strtol (cells : List Byte) (i base : ℕ) : Traced ℕ ℤ :=
  ⟨List.range' i ((numeral base (cells.drop i)).length + 1), MelsecMc.strtol (cells.drop i) base⟩

/-- `mc_convert_string_to_int`. -/
def mcConvertStringToInt (cells : List Byte) (i frombase : ℕ) : Traced ℕ ℤ :=
  (strtol cells i frombase).map toInt32

/-- The arms of the switch that look at the second character. -/
def looksAtSecond (c : Byte) : Bool :=
  isLetter c 'S' || isLetter c 'Z' || isLetter c 'T' || isLetter c 'C'

/-- The second character, where the switch looks at it. -/
def second (cells : List Byte) (c : Byte) : Traced ℕ Byte :=
  if looksAtSecond c then charAt cells 1 else done 0

/-- `mc_analysis_address` of an address that is not null. -/
def mcAnalysisAddress (cells : List Byte) (length : ℤ) :
    Traced ℕ (Option MelsecMcAddressData) :=
  (strlen cells).bind fun n =>
    if n = 0 then done none
    else (charAt cells 0).bind fun c =>
      (second cells c).bind fun c₁ =>
        (addressArm c c₁).elim (done (some ⟨noDevice, 0, length⟩)) fun arm =>
          (mcConvertStringToInt cells arm.2 arm.1.fromBase).map fun start =>
            some ⟨arm.1, start, length⟩

end Traced

/-- Memory from the address on. -/
def CString.cells (s : CString) (behind : List Byte) : List Byte := s.chars ++ 0 :: behind

theorem signPart_append (s : List Byte) : signPart s ++ afterSign s = s := by
  rw [signPart, afterSign]
  split
  · rw [← List.drop_one]
    exact List.take_append_drop 1 s
  · rfl

theorem prefixPart_append (base : ℕ) (s : List Byte) :
    prefixPart base s ++ (strtolBase base s).2 = s := by
  rw [prefixPart, strtolBase]
  split
  · exact List.take_append_drop 2 s
  · split
    · rfl
    · rfl

/-- The numeral is made of characters at the front. -/
theorem numeral_prefix (base : ℕ) (s : List Byte) : numeral base s <+: s := by
  set u := afterSign (s.dropWhile isSpace) with hu
  set b := strtolBase base u with hb
  refine ⟨b.2.dropWhile fun c => digitValue c < b.1, ?_⟩
  calc numeral base s ++ b.2.dropWhile (fun c => digitValue c < b.1)
      = s.takeWhile isSpace ++ (signPart (s.dropWhile isSpace) ++ (prefixPart base u ++ b.2)) := by
        rw [numeral, ← hu, ← hb]
        simp only [List.append_assoc, List.takeWhile_append_dropWhile]
    _ = s := by
        rw [hb, prefixPart_append, hu, signPart_append, List.takeWhile_append_dropWhile]

theorem zero_not_mem_signPart (s : List Byte) : (0 : Byte) ∉ signPart s := by
  rw [signPart]
  split
  · rename_i hsign
    cases s with
    | nil => simp
    | cons c s =>
      simp only [List.head?_cons, Option.some.injEq] at hsign
      simp only [List.take_succ_cons, List.take_zero, List.mem_singleton]
      rintro rfl
      revert hsign
      decide
  · simp

theorem zero_not_mem_prefixPart (base : ℕ) (s : List Byte) : (0 : Byte) ∉ prefixPart base s := by
  rw [prefixPart]
  split
  · rename_i hpre
    obtain ⟨-, hpre⟩ := hpre
    match s, hpre with
    | z :: x :: d :: s, hpre =>
      simp only [hasHexPrefix, Bool.and_eq_true, Bool.or_eq_true, beq_iff_eq] at hpre
      obtain ⟨⟨rfl, hx⟩, -⟩ := hpre
      simp only [List.take_succ_cons, List.take_zero, List.mem_cons, List.not_mem_nil, or_false,
        not_or]
      refine ⟨by decide, ?_⟩
      rintro rfl
      revert hx
      decide
  · simp

theorem strtolBase_le {base : ℕ} (h : base ≤ 36) (s : List Byte) : (strtolBase base s).1 ≤ 36 := by
  rw [strtolBase]
  split_ifs
  all_goals simp [h]

theorem zero_not_mem_takeWhile {p : Byte → Bool} (h : p 0 = false) (s : List Byte) :
    (0 : Byte) ∉ s.takeWhile p := by
  intro hmem
  have := List.mem_takeWhile_imp hmem
  rw [h] at this
  contradiction

theorem zero_not_digit {b : ℕ} (h : b ≤ 36) : decide (digitValue 0 < b) = false := by
  have hzero : digitValue 0 = 36 := rfl
  rw [hzero]
  exact decide_eq_false (by omega)

/-- The terminator belongs to no numeral. -/
theorem zero_not_mem_numeral {base : ℕ} (h : base ≤ 36) (s : List Byte) :
    (0 : Byte) ∉ numeral base s := by
  have hdigit := zero_not_digit (strtolBase_le h (afterSign (s.dropWhile isSpace)))
  rw [numeral]
  simp only [List.mem_append, not_or]
  exact ⟨zero_not_mem_takeWhile rfl s, zero_not_mem_signPart _, zero_not_mem_prefixPart _ _,
    zero_not_mem_takeWhile hdigit _⟩

/-- A numeral that starts in the string ends in it. -/
theorem numeral_length_le {base : ℕ} (h : base ≤ 36) (s behind : List Byte) :
    (numeral base (s ++ 0 :: behind)).length ≤ s.length := by
  have hpre := numeral_prefix base (s ++ 0 :: behind)
  by_contra hlong
  have hget := List.prefix_iff_getElem?.mp hpre s.length (by omega)
  rw [List.getElem?_append_right le_rfl, Nat.sub_self, List.getElem?_cons_zero] at hget
  exact zero_not_mem_numeral h _ (List.mem_of_getElem (Option.some.inj hget).symm)

theorem takeWhile_append_stop {p : Byte → Bool} {c : Byte} (hc : p c = false)
    (s behind : List Byte) : (s ++ c :: behind).takeWhile p = s.takeWhile p := by
  induction s with
  | nil => simp [hc]
  | cons a s ih => simp only [List.cons_append, List.takeWhile_cons, ih]

theorem dropWhile_append_stop {p : Byte → Bool} {c : Byte} (hc : p c = false)
    (s behind : List Byte) :
    (s ++ c :: behind).dropWhile p = s.dropWhile p ++ c :: behind := by
  induction s with
  | nil => simp [hc]
  | cons a s ih =>
    simp only [List.cons_append, List.dropWhile_cons, ih]
    split
    · rfl
    · rfl

theorem head?_append_stop {c : Byte} (hc : c ≠ 0) (s behind : List Byte) :
    (s ++ 0 :: behind).head? = some c ↔ s.head? = some c := by
  cases s with
  | nil => simpa using Ne.symm hc
  | cons a s => simp

theorem afterSign_append (s behind : List Byte) :
    afterSign (s ++ 0 :: behind) = afterSign s ++ 0 :: behind := by
  simp only [afterSign, head?_append_stop (show chr '-' ≠ 0 by decide),
    head?_append_stop (show chr '+' ≠ 0 by decide)]
  split
  · rename_i hsign
    cases s with
    | nil => simp at hsign
    | cons a s => rfl
  · rfl

theorem hasHexPrefix_append (s behind : List Byte) :
    hasHexPrefix (s ++ 0 :: behind) = hasHexPrefix s := by
  match s with
  | [] => cases behind with
    | nil => rfl
    | cons x behind => cases behind with
      | nil => rfl
      | cons d behind => rfl
  | [z] => cases behind with
    | nil => rfl
    | cons d behind =>
      change (z == chr '0' && (0 == chr 'x' || 0 == chr 'X') && _) = false
      rw [show ((0 : Byte) == chr 'x' || (0 : Byte) == chr 'X') = false by rfl, Bool.and_false,
        Bool.false_and]
  | [z, x] =>
    change (_ && decide (digitValue 0 < 16)) = false
    exact Bool.and_false _
  | z :: x :: d :: s => rfl

/-- The base does not depend on what lies behind the terminator. -/
theorem strtolBase_append (base : ℕ) (s behind : List Byte) :
    strtolBase base (s ++ 0 :: behind) =
      ((strtolBase base s).1, (strtolBase base s).2 ++ 0 :: behind) := by
  rw [strtolBase, strtolBase, hasHexPrefix_append]
  split
  · rename_i hpre
    match s, hpre.2 with
    | z :: x :: d :: s, _ => rfl
  · simp only [head?_append_stop (show chr '0' ≠ 0 by decide)]
    split
    · rfl
    · rfl

theorem digits_append {b : ℕ} (h : b ≤ 36) (s behind : List Byte) :
    (s ++ 0 :: behind).takeWhile (fun c => decide (digitValue c < b)) =
      s.takeWhile fun c => decide (digitValue c < b) :=
  takeWhile_append_stop (zero_not_digit h) s behind

/-- A string without its terminator, or with it and more behind it, is the same number. -/
theorem strtol_append {base : ℕ} (h : base ≤ 36) (s behind : List Byte) :
    strtol (s ++ 0 :: behind) base = strtol s base := by
  have hbase := strtolBase_le h (afterSign (s.dropWhile isSpace))
  have hafter := afterSign_append (s.dropWhile isSpace) behind
  have hspace : (s ++ 0 :: behind).dropWhile isSpace = s.dropWhile isSpace ++ 0 :: behind :=
    dropWhile_append_stop rfl s behind
  have hminus := head?_append_stop (show chr '-' ≠ 0 by decide) (s.dropWhile isSpace) behind
  have hplus := head?_append_stop (show chr '+' ≠ 0 by decide) (s.dropWhile isSpace) behind
  simp only [afterSign, hminus, hplus] at hafter hbase
  simp only [strtol, hspace, hminus, hplus, hafter, strtolBase_append, digits_append hbase]

/-- Every device has a base that `strtol` accepts. -/
theorem addressArm_fromBase (c c₁ : Byte) : ∀ arm ∈ addressArm c c₁, arm.1.fromBase ≤ 36 := by
  unfold addressArm
  repeat' apply forall_mem_ite
  all_goals simp [deviceM, deviceX, deviceY, deviceD, deviceW, deviceL, deviceF, deviceV, deviceB,
    deviceR, deviceSN, deviceSS, deviceSC, deviceS, deviceZR, deviceZ, deviceTC, deviceTS,
    deviceTN, deviceCN, deviceCS, deviceCC, noDevice, mcCreateDataType]

/-- The other arms are the same for every second character. -/
theorem addressArm_second {c : Byte} (h : Traced.looksAtSecond c = false) (c₁ : Byte) :
    addressArm c c₁ = addressArm c 0 := by
  simp only [Traced.looksAtSecond, Bool.or_eq_false_iff] at h
  obtain ⟨⟨⟨hS, hZ⟩, hT⟩, hC⟩ := h
  simp only [addressArm, hS, hZ, hT, hC, Bool.false_eq_true, if_false]

namespace Traced

theorem strlen_value (s : CString) (behind : List Byte) :
    (strlen (s.cells behind)).value = s.chars.length := by
  have hall : s.chars.takeWhile (· ≠ 0) = s.chars := by
    rw [List.takeWhile_eq_self_iff]
    intro c hc
    have hne : c ≠ 0 := fun hzero => s.nonzero (hzero ▸ hc)
    simpa using hne
  rw [strlen, CString.cells, takeWhile_append_stop (by simp), hall]

/-- `strlen` reads the string and its terminator. -/
theorem strlen_reads (s : CString) (behind : List Byte) :
    Reads (· ≤ s.chars.length) (strlen (s.cells behind)) := by
  intro i hi
  have hlen := strlen_value s behind
  simp only [strlen, List.mem_range] at hi hlen
  omega

theorem cells_drop {s : CString} {i : ℕ} (h : i ≤ s.chars.length) (behind : List Byte) :
    (s.cells behind).drop i = s.chars.drop i ++ 0 :: behind :=
  List.drop_append_of_le_length h

/-- `strtol` stays in the string exactly when it starts there. -/
theorem strtol_reads {base : ℕ} (h : base ≤ 36) (s : CString) (behind : List Byte) (i : ℕ) :
    Reads (· ≤ s.chars.length) (strtol (s.cells behind) i base) ↔ i ≤ s.chars.length := by
  constructor
  · intro hreads
    exact hreads i (List.mem_range'_1.mpr ⟨le_rfl, by omega⟩)
  · intro hi j hj
    have hlen := numeral_length_le h (s.chars.drop i) behind
    rw [List.length_drop] at hlen
    have hj' := (List.mem_range'_1.mp hj).2
    rw [cells_drop hi] at hj'
    omega

theorem mcConvertStringToInt_reads {base : ℕ} (h : base ≤ 36) (s : CString)
    (behind : List Byte) (i : ℕ) :
    Reads (· ≤ s.chars.length) (mcConvertStringToInt (s.cells behind) i base) ↔
      i ≤ s.chars.length := by
  rw [mcConvertStringToInt, reads_map, strtol_reads h]

theorem mcConvertStringToInt_value {base : ℕ} (h : base ≤ 36) {s : CString} {i : ℕ}
    (hi : i ≤ s.chars.length) (behind : List Byte) :
    (mcConvertStringToInt (s.cells behind) i base).value =
      MelsecMc.mcConvertStringToInt (s.chars.drop i) base := by
  rw [mcConvertStringToInt, map_value, strtol, cells_drop hi, strtol_append h]
  rfl

theorem second_reads {s : CString} (h : s.chars ≠ []) (behind : List Byte) (c : Byte) :
    Reads (· ≤ s.chars.length) (second (s.cells behind) c) := by
  have hpos := List.length_pos_of_ne_nil h
  rw [second]
  split
  · rw [charAt, reads_read]
    omega
  · exact reads_done 0

theorem second_arm {s : CString} {c₁ : Byte} (h : s.charAt 1 = some c₁) (behind : List Byte)
    (c : Byte) : addressArm c (second (s.cells behind) c).value = addressArm c c₁ := by
  rw [second]
  split
  · rename_i hlook
    have hget : (s.cells behind).getD 1 0 = c₁ := by
      have hlt : 1 < (s.chars ++ [0]).length := (List.getElem?_eq_some_iff.mp h).1
      have hsplit : s.cells behind = (s.chars ++ [0]) ++ behind := by simp [CString.cells]
      rw [hsplit, List.getD_eq_getElem?_getD, List.getElem?_append_left hlt]
      exact congrArg (Option.getD · 0) h
    rw [charAt, read_value, hget]
  · rename_i hlook
    rw [addressArm_second (by simpa using hlook) c₁]
    rfl

/-- The rest of the parser, once the two characters are known. -/
theorem mcAnalysisAddress_arm {s : CString} {c c₁ : Byte} {chars : List Byte}
    (hs : s.chars = c :: chars) (h₁ : s.charAt 1 = some c₁) (behind : List Byte) (length : ℤ) :
    (Reads (· ≤ s.chars.length) (mcAnalysisAddress (s.cells behind) length) ↔
      ∀ arm ∈ addressArm c c₁, arm.2 ≤ s.chars.length) ∧
    ((∀ arm ∈ addressArm c c₁, arm.2 ≤ s.chars.length) →
      MelsecMc.mcAnalysisAddress (some s) length =
        some (mcAnalysisAddress (s.cells behind) length).value) := by
  have hne : s.chars ≠ [] := by rw [hs]; exact List.cons_ne_nil c chars
  have hlen : s.chars.length ≠ 0 := fun h => hne (List.eq_nil_of_length_eq_zero h)
  have hc : (charAt (s.cells behind) 0).value = c := by
    rw [charAt, read_value, CString.cells, hs]
    rfl
  have harm := second_arm h₁ behind c
  have hbase := addressArm_fromBase c c₁
  rw [mcAnalysisAddress_cons s c₁ hs h₁]
  simp only [mcAnalysisAddress, reads_bind, strlen_reads, true_and, strlen_value, if_neg hlen, hc,
    second_reads hne, bind_value, harm]
  cases h : addressArm c c₁ with
  | none => simp [charAt]
  | some arm =>
    have hb := hbase arm h
    simp only [Option.elim_some, reads_map, mcConvertStringToInt_reads hb, Option.mem_some_iff,
      forall_eq', charAt, reads_read, Nat.zero_le, true_and, CString.skip]
    intro hle
    rw [if_pos hle, map_value, mcConvertStringToInt_value hb hle]
    rfl

theorem mcAnalysisAddress_nil {s : CString} (hs : s.chars = []) (behind : List Byte)
    (length : ℤ) :
    Reads (· ≤ s.chars.length) (mcAnalysisAddress (s.cells behind) length) ∧
      (mcAnalysisAddress (s.cells behind) length).value = none := by
  have hlen : s.chars.length = 0 := by rw [hs]; rfl
  simp only [mcAnalysisAddress, reads_bind, strlen_reads, true_and, bind_value, strlen_value,
    if_pos hlen, reads_done, done_value]

end Traced

theorem not_loneLetter_nil {s : CString} (hs : s.chars = []) : ¬ LoneLetter (some s) := by
  intro hlone
  obtain ⟨s', c, hs', hc, -⟩ := hlone
  rw [← Option.some.inj hs', hs] at hc
  cases hc

/-- A lone letter is the only string that the parser reads outside of. -/
theorem mcAnalysisAddress_eq_none_iff (s : CString) (length : ℤ) :
    mcAnalysisAddress (some s) length = none ↔ LoneLetter (some s) := by
  obtain ⟨hs, h⟩ | ⟨hlone, h⟩ | ⟨-, hlone, address_data, h⟩ := mcAnalysisAddress_cases s length
  · simp [h, not_loneLetter_nil hs]
  · simp [h, hlone]
  · simp [h, hlone]

/-- Every numeral starts in the string unless the string is a lone letter. -/
theorem addressArm_inside_iff {s : CString} {c c₁ : Byte} {chars : List Byte}
    (hs : s.chars = c :: chars) (h₁ : s.charAt 1 = some c₁) :
    (∀ arm ∈ addressArm c c₁, arm.2 ≤ s.chars.length) ↔ ¬ LoneLetter (some s) := by
  rw [← mcAnalysisAddress_eq_none_iff s 0, mcAnalysisAddress_cons s c₁ hs h₁]
  cases addressArm c c₁ with
  | none => simp
  | some arm => simp [CString.skip]

theorem charAt_one {s : CString} (h : s.chars ≠ []) : ∃ c₁, s.charAt 1 = some c₁ := by
  have hpos := List.length_pos_of_ne_nil h
  have hlt : 1 < (s.chars ++ [0]).length := by
    rw [List.length_append, List.length_singleton]
    omega
  exact ⟨_, List.getElem?_eq_getElem hlt⟩

/-- The parser of this module computes what the parser on strings does. -/
theorem mcAnalysisAddress_traced {s : CString} (h : ¬ LoneLetter (some s)) (behind : List Byte)
    (length : ℤ) :
    mcAnalysisAddress (some s) length =
      some (Traced.mcAnalysisAddress (s.cells behind) length).value := by
  cases hs : s.chars with
  | nil =>
    rw [(Traced.mcAnalysisAddress_nil hs behind length).2]
    simp [mcAnalysisAddress, hs]
  | cons c chars =>
    obtain ⟨c₁, h₁⟩ := charAt_one (s := s) (by simp [hs])
    have hinside := (addressArm_inside_iff hs h₁).mpr h
    exact (Traced.mcAnalysisAddress_arm hs h₁ behind length).2 hinside

/-- For every string, whatever lies behind it in memory: no character beyond the terminator is
read, exactly when the string is not one of the letters `T` and `C` alone. -/
theorem mcAnalysisAddress_inside_iff (s : CString) (behind : List Byte) (length : ℤ) :
    Traced.Reads (· ≤ s.chars.length) (Traced.mcAnalysisAddress (s.cells behind) length) ↔
      ¬ LoneLetter (some s) := by
  cases hs : s.chars with
  | nil =>
    have hread := (Traced.mcAnalysisAddress_nil hs behind length).1
    rw [hs] at hread
    exact iff_of_true hread (not_loneLetter_nil hs)
  | cons c chars =>
    obtain ⟨c₁, h₁⟩ := charAt_one (s := s) (by simp [hs])
    have harm := (Traced.mcAnalysisAddress_arm hs h₁ behind length).1
    rw [hs] at harm
    rw [harm, ← hs]
    exact addressArm_inside_iff hs h₁

/-- The address `T`: the numeral starts at the third character, and there are only two. -/
theorem mcAnalysisAddress_reads_outside :
    ¬ ∀ (s : CString) (behind : List Byte) (length : ℤ),
      Traced.Reads (· ≤ s.chars.length) (Traced.mcAnalysisAddress (s.cells behind) length) := by
  intro hall
  have hread := hall ⟨text ['T'], by decide⟩ [] 1 2
  have hmem : 2 ∈ (Traced.mcAnalysisAddress
    (CString.cells ⟨text ['T'], by decide⟩ []) 1).places := by decide
  have hle : 2 ≤ (text ['T']).length := hread hmem
  revert hle
  decide

end MelsecMc
