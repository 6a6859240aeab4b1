import MelsecMc.Api
import MelsecMc.BitPacking
import MelsecMc.RequestFrames

/-!
# Checks in front of a request

The functions of the library check their arguments in layers before they send
anything: the public function its pointers, the word reader or writer the number
of points, the address parser the text. The lemmas here take one layer off.
-/
namespace MelsecMc

/-- The address is parsed without leaving its string, and is refused or `P` holds. -/
def Parsed (address : Option CString) (P : Prop) : Prop :=
  ¬ LoneLetter address ∧ (EmptyText address ∨ P)

theorem Parsed.of_true {address : Option CString} {P : Prop} (hP : P) :
    Parsed address P ↔ Parsed address True :=
  and_congr_right fun _ => or_congr_right ⟨fun _ => trivial, fun _ => hP⟩

section Layers

variable {α β : Type} {S : ByteArrayInfo → Prop} {fd : ℤ} {address : Option CString}

/-- A check in front of a call. -/
theorem guarded_opens {R : α → Prop} {g X : Prop} [Decidable g] {c : Call α} {a : α}
    (ha : R a) (hc : ¬ g → (c.Opens S R ↔ X)) :
    (if g then Call.ret a else c).Opens S R ↔ g ∨ X := by
  by_cases h : g
  · rw [if_pos h]
    exact ⟨fun _ => .inl h, fun _ => ha⟩
  · rw [if_neg h, hc h]
    exact ⟨.inr, fun hx => hx.resolve_left h⟩

/-- An allocation in front of a call. -/
theorem allocated_opens {R : α → Prop} {size : ℤ} {X : Prop} {c : Call α} {a : α}
    (ha : R a) (hc : 0 ≤ size → (c.Opens S R ↔ X)) :
    (if malloc size then c else Call.ret a).Opens S R ↔ size < 0 ∨ X := by
  by_cases h : 0 ≤ size
  · rw [malloc, decide_eq_true h, if_pos rfl, hc h]
    exact ⟨.inr, fun hx => hx.resolve_left (by omega)⟩
  · rw [malloc, decide_eq_false h, if_neg (by simp)]
    exact ⟨fun _ => .inl (by omega), fun _ => ha⟩

theorem analysed_opens {R : ErrorCode × β → Prop} {length : ℤ} {out : β}
    {next : MelsecMcAddressData → Call (ErrorCode × β)} {P : Prop}
    (hsome : ¬ address.isNone = true) (hR : R (.parseAddressFailed, out))
    (hnext : ∀ address_data, mcAnalysisAddress address length = some (some address_data) →
      ((next address_data).Opens S R ↔ P)) :
    (analysed address length out next).Opens S R ↔ Parsed address P := by
  obtain ⟨s, rfl⟩ := Option.ne_none_iff_exists'.mp (mt Option.isNone_iff_eq_none.mpr hsome)
  rw [Parsed, analysed]
  rcases mcAnalysisAddress_cases s length with ⟨hnil, ha⟩ | ⟨hlone, ha⟩ | ⟨hne, hlone, d, ha⟩
  · rw [ha]
    have hlone : ¬ LoneLetter (some s) := by
      rintro ⟨s', c, hs', hc, -⟩
      rw [← Option.some.inj hs', hnil] at hc
      simp at hc
    exact ⟨fun _ => ⟨hlone, .inl ⟨s, rfl, hnil⟩⟩, fun _ => hR⟩
  · rw [ha]
    exact ⟨False.elim, fun h => h.1 hlone⟩
  · rw [ha]
    have hempty : ¬ EmptyText (some s) := by
      rintro ⟨s', hs', hnil⟩
      rw [← Option.some.inj hs'] at hnil
      exact hne hnil
    simp only [hnext d ha, hlone, hempty, not_false_eq_true, true_and, false_or]

/-- The word reader behind a check of its caller only sees whether there are points. -/
theorem points_checked {g X : Prop} {points : ℤ} (hok : ¬ (fd ≤ 0 ∨ address.isNone = true ∨ g))
    (hpoints : 0 < points) : (fd ≤ 0 ∨ address.isNone = true ∨ points ≤ 0) ∨ X ↔ X := by
  refine or_iff_right ?_
  rintro (h | h | h)
  · exact hok (.inl h)
  · exact hok (.inr (.inl h))
  · omega

/-- A reader copies its result for `success` only. -/
theorem if_failed {code : ErrorCode} {p : Prop} [Decidable p] {a b : α}
    (hcode : code ≠ .success) : (if code = .success ∧ p then a else b) = b :=
  if_neg fun h => hcode h.1

theorem code_opens {R : ErrorCode → Prop} {c : Call (ErrorCode × β)} :
    c.code.Opens S R ↔ c.Opens S fun result => R result.1 :=
  Call.opens_bind S R c _

/-- What follows a word read does not matter to the request. -/
theorem readValue_opens {size : ℕ} {C : ValueCodec size} {X : Prop}
    {readWord : ℤ → Option CString → ℤ → ByteArrayInfo → Call (ErrorCode × ByteArrayInfo)}
    {points : ℤ} {enough : ℤ → Bool} {val : Bool}
    {R : ErrorCode × Option (BitVec (8 * size)) → Prop}
    (hword : ∀ R' : ErrorCode × ByteArrayInfo → Prop,
      (∀ code, code ≠ .success → R' (code, .empty)) →
        ((readWord fd address points .empty).Opens S R' ↔
          (fd ≤ 0 ∨ address.isNone ∨ points ≤ 0) ∨ X))
    (hpoints : 0 < points) (hR : ∀ code, code ≠ .success → R (code, none)) :
    (readValue readWord points enough C fd address val).Opens S R ↔
      (fd ≤ 0 ∨ address.isNone ∨ ¬ val) ∨ X := by
  refine guarded_opens (hR _ (by simp)) fun hok => ?_
  rw [Call.opens_bind, hword]
  · exact points_checked hok hpoints
  · intro code hcode
    simp only [if_failed hcode]
    exact hR code hcode

theorem writeValue_opens {size : ℕ} {C : ValueCodec size} {X : Prop} {v : BitVec (8 * size)}
    {writeWord : ℤ → Option CString → ℤ → ByteArrayInfo → Call (ErrorCode × Unit)}
    {points : ℤ} {R : ErrorCode × Unit → Prop} (hR : ∀ code, code ≠ .success → R (code, ()))
    (hword : 0 < fd → ¬ address.isNone = true →
      ((writeWord fd address points (.ofList (C.encode v))).Opens S R ↔ X)) :
    (writeValue writeWord points C fd address v).Opens S R ↔
      (fd ≤ 0 ∨ address.isNone) ∨ X := by
  refine guarded_opens (hR _ (by simp)) fun hok => hword ?_ fun hnone => hok (.inr hnone)
  have := fun h => hok (.inl h)
  omega

end Layers

section Strings

variable {length : ℤ}

theorem evenLength_eq (h0 : 0 ≤ length) (h : length < 2 ^ 31 - 1) :
    evenLength length = 2 * ((length + 1) / 2) := by
  rw [evenLength, Int.tmod_eq_emod_of_nonneg h0]
  split_ifs with hodd
  · rw [toInt32_eq ⟨by omega, by omega⟩]
    omega
  · omega

theorem evenLength_of_neg (h : length < 0) : evenLength length = length := by
  have hneg := Int.neg_tmod length 2
  rw [Int.tmod_eq_emod_of_nonneg (show 0 ≤ -length by omega)] at hneg
  rw [evenLength, if_neg (by omega)]

theorem evenLength_top : evenLength (2 ^ 31 - 1) = -2 ^ 31 := by decide

/-- Rounding up leaves the `int` for its greatest value only. -/
theorem evenLength_neg_iff (range : InInt32 length) :
    evenLength length < 0 ↔ length < 0 ∨ length = 2 ^ 31 - 1 := by
  obtain ⟨-, hr⟩ := range
  by_cases hneg : length < 0
  · rw [evenLength_of_neg hneg]
    omega
  by_cases htop : length = 2 ^ 31 - 1
  · rw [htop, evenLength_top]
    omega
  · rw [evenLength_eq (by omega) (by omega)]
    omega

/-- The words of a string. -/
theorem evenLength_tdiv (h0 : 0 ≤ length) (h : length < 2 ^ 31 - 1) :
    (evenLength length).tdiv 2 = (length + 1) / 2 := by
  rw [evenLength_eq h0 h, Int.tdiv_eq_ediv_of_nonneg (by omega)]
  omega

theorem evenLength_tdiv_nonpos (range : InInt32 length) (hpos : 0 < length) :
    (evenLength length).tdiv 2 ≤ 0 ↔ length = 2 ^ 31 - 1 := by
  obtain ⟨-, hr⟩ := range
  by_cases htop : length = 2 ^ 31 - 1
  · subst htop
    rw [evenLength_top]
    decide
  · rw [evenLength_tdiv hpos.le (by omega)]
    omega

/-- The lengths of strings for which words are asked for. -/
theorem evenLength_tdiv_pos_iff (range : InInt32 length) :
    0 < (evenLength length).tdiv 2 ↔ 0 < length ∧ length ≠ 2 ^ 31 - 1 := by
  by_cases hpos : 0 < length
  · rw [← not_le, evenLength_tdiv_nonpos range hpos, and_iff_right hpos]
  · have hnonpos : (evenLength length).tdiv 2 ≤ 0 := by
      by_cases hneg : length < 0
      · have heven := (evenLength_neg_iff range).mpr (.inl hneg)
        have htdiv : 0 ≤ (-evenLength length).tdiv 2 := Int.tdiv_nonneg (by omega) (by decide)
        rw [Int.neg_tdiv] at htdiv
        omega
      · obtain rfl : length = 0 := by omega
        decide
    exact iff_of_false (not_lt.mpr hnonpos) fun h => hpos h.1

/-- The zero-padded copy of a string. -/
def paddedString (val : Elements Byte length) : List Byte :=
  val.used ++ List.replicate (evenLength length - length).toNat 0

theorem paddedString_length (val : Elements Byte length) (h0 : 0 ≤ length)
    (h : length < 2 ^ 31 - 1) :
    ((paddedString val).length : ℤ) = 2 * ((length + 1) / 2) := by
  rw [paddedString, List.length_append, val.used_length, List.length_replicate,
    evenLength_eq h0 h]
  omega

theorem paddedString_buffer (val : Elements Byte length) (h0 : 0 ≤ length)
    (h : length < 2 ^ 31 - 1) :
    (⟨some (paddedString val), evenLength length⟩ : ByteArrayInfo) =
      .ofList (paddedString val) := by
  rw [ByteArrayInfo.ofList, paddedString_length val h0 h, evenLength_eq h0 h]

end Strings

end MelsecMc
