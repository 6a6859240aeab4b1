import MelsecMc.ResponseFraming

/-!
# What the ASCII read parser accepts as a payload

In word mode a payload has to be text of whole words, in bit mode text over the
characters `0` and `1`. The parser is wider than that. It refuses characters that
are no hexadecimal digits and half bytes, but lets half words pass, without the
exchange of their bytes, and in bit mode every character that is not a `1` counts
as a `0`.
-/
namespace MelsecMc

/-- A hexadecimal digit of either case. -/
def HexDigit (c : Byte) : Prop :=
  (chr '0' ≤ c ∧ c ≤ chr '9') ∨ (chr 'A' ≤ c ∧ c ≤ chr 'F') ∨ (chr 'a' ≤ c ∧ c ≤ chr 'f')

instance : DecidablePred HexDigit := fun c =>
  inferInstanceAs (Decidable ((chr '0' ≤ c ∧ c ≤ chr '9') ∨ (chr 'A' ≤ c ∧ c ≤ chr 'F') ∨
    (chr 'a' ≤ c ∧ c ≤ chr 'f')))

def HexText (payload : List Byte) : Prop := ∀ c ∈ payload, HexDigit c

def BitText (payload : List Byte) : Prop := ∀ c ∈ payload, c = chr '0' ∨ c = chr '1'

/-- The payloads of the protocol: points, or whole words. -/
def InGrammar (is_bit : Bool) (payload : List Byte) : Prop :=
  if is_bit then BitText payload else HexText payload ∧ payload.length % 4 = 0

/-- The payloads that the parser lets pass. -/
def LetPass (is_bit : Bool) (payload : List Byte) : Prop :=
  is_bit = true ∨ HexText payload ∧ payload.length % 2 = 0

/-- Digits have values. -/
theorem hexDigit_iff (c : Byte) : HexDigit c ↔ (mcAsciiHexToNibble c).isSome = true := by
  rw [mcAsciiHexToNibble]
  split_ifs with hdigit hupper hlower
  · exact iff_of_true (.inl hdigit) rfl
  · exact iff_of_true (.inr (.inl hupper)) rfl
  · exact iff_of_true (.inr (.inr hlower)) rfl
  · apply iff_of_false
    · intro hc
      rcases hc with hc | hc | hc
      · exact hdigit hc
      · exact hupper hc
      · exact hlower hc
    · simp

theorem mcAsciiHexPairToByte_isSome_iff (c₀ c₁ : Byte) :
    (mcAsciiHexPairToByte c₀ c₁).isSome = true ↔ HexDigit c₀ ∧ HexDigit c₁ := by
  rw [hexDigit_iff, hexDigit_iff, mcAsciiHexPairToByte]
  cases mcAsciiHexToNibble c₀ with
  | none => simp
  | some hi =>
    cases mcAsciiHexToNibble c₁ with
    | none => simp
    | some lo => simp

/-- The loop runs to its end over digits only. -/
theorem hexPairsToBytes_isSome_iff {chars : List Byte} (h : chars.length % 2 = 0) :
    (hexPairsToBytes chars).isSome = true ↔ HexText chars := by
  induction chars using hexPairsToBytes.induct with
  | case1 c₀ c₁ chars ih =>
    have hrest := ih (by simp only [List.length_cons] at h; omega)
    have hpair := mcAsciiHexPairToByte_isSome_iff c₀ c₁
    rw [HexText, List.forall_mem_cons, List.forall_mem_cons, ← and_assoc, ← hpair]
    rw [HexText] at hrest
    rw [← hrest, hexPairsToBytes]
    cases mcAsciiHexPairToByte c₀ c₁ with
    | none => simp
    | some b =>
      cases hexPairsToBytes chars with
      | none => simp
      | some bytes => simp
  | case2 chars hshort =>
    obtain rfl | ⟨c, rfl⟩ := eq_nil_or_singleton hshort
    · simp [hexPairsToBytes, HexText]
    · simp at h

theorem asciiData_isSome_iff (payload : List Byte) :
    (asciiData payload).isSome = true ↔ HexText payload ∧ payload.length % 2 = 0 := by
  rw [asciiData]
  split
  · rename_i heven
    rw [Option.isSome_map, hexPairsToBytes_isSome_iff heven]
    exact (and_iff_left heven).symm
  · rename_i hodd
    simp [hodd]

/-- The parser behind a zero end code: what it lets pass succeeds, everything else leaves the
descriptor empty. -/
theorem mcAsciiParseReadResponse_letPass {frame : List Byte} (h : 22 ≤ frame.length)
    (hc : asciiEndCode frame = some 0) (is_bit : Bool) (data : ByteArrayInfo) :
    ∃ ret out, mcAsciiParseReadResponse (.ofList frame) (some data) is_bit = some (ret, some out) ∧
      (ret = .success ↔ LetPass is_bit (frame.drop 22)) ∧ (ret ≠ .success → out = .empty) := by
  cases is_bit with
  | true =>
    rw [mcAsciiParseReadResponse_points h hc]
    exact ⟨_, _, rfl, by simp [LetPass], fun hne => absurd rfl hne⟩
  | false =>
    have hsome := asciiData_isSome_iff (frame.drop 22)
    have hpass : LetPass false (frame.drop 22) ↔ (asciiData (frame.drop 22)).isSome = true := by
      rw [hsome, LetPass]
      simp
    rw [mcAsciiParseReadResponse_text h hc, hpass]
    cases asciiData (frame.drop 22) with
    | none => exact ⟨_, _, rfl, by simp, fun _ => rfl⟩
    | some bytes => exact ⟨_, _, rfl, by simp, fun hne => absurd rfl hne⟩

/-- The parser succeeds exactly on the payloads of the protocol, and on the others it leaves the
descriptor empty. -/
def AcceptsGrammar (is_bit : Bool) (frame : List Byte) : Prop :=
  ∀ data, ∃ ret out,
    mcAsciiParseReadResponse (.ofList frame) (some data) is_bit = some (ret, some out) ∧
      (ret = .success ↔ InGrammar is_bit (frame.drop 22)) ∧ (ret ≠ .success → out = .empty)

/-- Points that are all `0` or `1`; in word mode everything but digits that end in half a word. -/
def Regular (is_bit : Bool) (payload : List Byte) : Prop :=
  if is_bit then BitText payload else ¬ (HexText payload ∧ payload.length % 4 = 2)

theorem letPass_iff_inGrammar (is_bit : Bool) (payload : List Byte) :
    (LetPass is_bit payload ↔ InGrammar is_bit payload) ↔ Regular is_bit payload := by
  cases is_bit with
  | true => simp [LetPass, InGrammar, Regular]
  | false =>
    simp only [LetPass, InGrammar, Regular, Bool.false_eq_true, if_false, false_or]
    by_cases hhex : HexText payload
    · simp only [hhex, true_and]
      omega
    · simp only [hhex, false_and, iff_self, not_false_eq_true]

/-- For every buffer with end code zero, of any payload and in both modes: the parser accepts
exactly the grammar where the payload is regular. -/
theorem acceptsGrammar_iff {frame : List Byte} (h : 22 ≤ frame.length)
    (hc : asciiEndCode frame = some 0) (is_bit : Bool) :
    AcceptsGrammar is_bit frame ↔ Regular is_bit (frame.drop 22) := by
  rw [← letPass_iff_inGrammar]
  constructor
  · intro haccepts
    obtain ⟨ret, out, hparse, hret, -⟩ := haccepts .empty
    obtain ⟨ret', out', hparse', hret', -⟩ := mcAsciiParseReadResponse_letPass h hc is_bit .empty
    obtain ⟨rfl, -⟩ := Prod.mk.inj (Option.some.inj (hparse.symm.trans hparse'))
    exact hret'.symm.trans hret
  · intro hiff data
    obtain ⟨ret, out, hparse, hret, hout⟩ := mcAsciiParseReadResponse_letPass h hc is_bit data
    exact ⟨ret, out, hparse, hret.trans hiff, hout⟩

/-- A response with end code zero and the payload `X`. -/
def strayPoint : List Byte :=
  text ['D', '0', '0', '0', '0', '0', 'F', 'F', '0', '3', 'F', 'F', '0', '0', '0', '0', '0', '5',
    '0', '0', '0', '0', 'X']

theorem acceptsGrammar_iff_strayPoint :
    AcceptsGrammar true strayPoint ↔ Regular true (strayPoint.drop 22) :=
  acceptsGrammar_iff (by decide) (by decide) true

/-- The point `X` is taken for a zero. -/
theorem not_acceptsGrammar :
    ¬ ∀ (frame : List Byte) (is_bit : Bool), 22 ≤ frame.length → asciiEndCode frame = some 0 →
      AcceptsGrammar is_bit frame := by
  intro hall
  obtain ⟨ret, out, hparse, hret, -⟩ := hall strayPoint true (by decide) (by decide) .empty
  have hpoint : mcAsciiParseReadResponse (.ofList strayPoint) (some .empty) true =
      some (.success, some (.ofList [0x00])) := by decide
  obtain ⟨rfl, -⟩ := Prod.mk.inj (Option.some.inj (hparse.symm.trans hpoint))
  have hbits := hret.mp rfl (chr 'X') (by decide)
  revert hbits
  decide

end MelsecMc
