import MelsecMc.CheckedCalls
import MelsecMc.TypedRoundTrip

/-!
# Strings on the wire

A string of odd length travels with one zero byte behind it. Both readers return
its bytes. The ASCII reader allocates one byte more than it received and leaves a
terminator in it, the binary reader allocates just what it received, so behind a
string of even length its buffer ends without a terminator.
-/
namespace MelsecMc

/-- The bytes of a string as whole words. -/
def wordPadded (s : List Byte) : List Byte := s ++ List.replicate (s.length % 2) 0

theorem wordPadded_length (s : List Byte) : (wordPadded s).length = s.length + s.length % 2 := by
  rw [wordPadded, List.length_append, List.length_replicate]

theorem evenLength_natCast {n : ℕ} (h : n < 2 ^ 31 - 1) :
    evenLength (n : ℤ) = (n + n % 2 : ℕ) := by
  rw [evenLength_eq (by omega) (by omega)]
  omega

theorem evenLength_half {n : ℕ} (h : n < 2 ^ 31 - 1) :
    (evenLength (n : ℤ)).tdiv 2 = ((n + n % 2) / 2 : ℕ) := by
  rw [evenLength_natCast h, Int.tdiv_eq_ediv_of_nonneg (by omega)]
  omega

section Requests

variable {network : PlcNetworkAddress} {fd : ℤ} {address : Option CString} {s front : List Byte}

/-- A string write is one word write of the padded string. -/
theorem mcWriteString_eq (h : s.length < 2 ^ 31 - 1)
    (hw : (mcWriteString network fd address s.length (some (.ofList s))).request ≠ none) :
    mcWriteString network fd address s.length (some (.ofList s)) =
      writeWordValue network fd address ((s.length + s.length % 2) / 2 : ℕ)
        (.ofList (wordPadded s)) := by
  have hlen := evenLength_natCast h
  have hroom : malloc (evenLength (s.length : ℤ)) = true := decide_eq_true (by omega)
  have hpad : (evenLength (s.length : ℤ) - s.length).toNat = s.length % 2 := by omega
  have hbuf : (⟨some (wordPadded s), evenLength (s.length : ℤ)⟩ : ByteArrayInfo) =
      .ofList (wordPadded s) := by
    rw [ByteArrayInfo.ofList, wordPadded_length, hlen]
  unfold mcWriteString at hw ⊢
  simp only [Elements.used_ofList, hroom, if_true, hpad, evenLength_half h] at hw ⊢
  split at hw
  · exact absurd rfl hw
  · rename_i hok
    rw [if_neg hok, ← hbuf, wordPadded]

/-- A string read is one word read. -/
theorem mcReadString_answer (hf : front.length = 7) (h0 : s ≠ [])
    (h : s.length + s.length % 2 + 12 < 2 ^ 16)
    (hr : (mcReadString network fd address s.length true).request ≠ none) :
    (mcReadString network fd address s.length true).answer
        (.ofFrame (binaryResponse front 0 (wordPadded s))) =
      some (.success, some (wordPadded s)) := by
  have hpos := List.length_pos_iff.mpr h0
  have hlen := wordPadded_length s
  have heven := evenLength_natCast (show s.length < 2 ^ 31 - 1 by omega)
  rw [← hlen] at heven
  have hne : wordPadded s ≠ [] := List.ne_nil_of_length_pos (by omega)
  have hroom : malloc ((wordPadded s).length : ℤ) = true := decide_eq_true (by omega)
  unfold mcReadString at hr ⊢
  simp only [heven, hroom, if_true] at hr ⊢
  split at hr
  · exact absurd rfl hr
  · rename_i hok
    have hword : (readWordValue network fd address (((wordPadded s).length : ℤ).tdiv 2)
        .empty).request ≠ none := by
      intro hnone
      apply hr
      rw [Call.request_bind, hnone]
      intro result
      split
      · exact Call.request_ofOption_bind _ fun _ => rfl
      · rfl
    rw [if_neg hok, Call.answer_bind, readWordValue_answer hf hne (by omega) hword]
    simp

theorem mcWriteString_payload (h : s.length < 2 ^ 31 - 22)
    (hw : (mcWriteString network fd address s.length (some (.ofList s))).request ≠ none) :
    (mcWriteString network fd address s.length (some (.ofList s))).payload 21 = wordPadded s := by
  have hlen := wordPadded_length s
  have heq := mcWriteString_eq (by omega) hw
  rw [heq] at hw ⊢
  exact writeWordValue_payload (wordPadded s) (by omega) hw

theorem mcAsciiWriteString_payload (h0 : s ≠ []) (h : 2 * s.length < 2 ^ 31 - 44)
    (hw : (Ascii.mcAsciiWriteString network fd address s.length (some (.ofList s))).request ≠
      none) :
    (Ascii.mcAsciiWriteString network fd address s.length (some (.ofList s))).payload 42 =
      (swapWords (wordPadded s)).flatMap hexStrPair := by
  have hpos := List.length_pos_iff.mpr h0
  have hlen := wordPadded_length s
  have heven := evenLength_natCast (show s.length < 2 ^ 31 - 1 by omega)
  have hroom : malloc (evenLength (s.length : ℤ)) = true := decide_eq_true (by omega)
  have hpad : (evenLength (s.length : ℤ) - s.length).toNat = s.length % 2 := by omega
  have hbuf : (⟨some (s ++ List.replicate (s.length % 2) 0), evenLength (s.length : ℤ)⟩ :
      ByteArrayInfo) = .ofList (wordPadded s) := by
    rw [ByteArrayInfo.ofList, hlen, heven, wordPadded]
  unfold Ascii.mcAsciiWriteString at hw ⊢
  simp only [Elements.used_ofList, hroom, if_true, hpad, hbuf] at hw ⊢
  split at hw
  · exact absurd rfl hw
  · rename_i hok
    rw [if_neg hok]
    exact Ascii.writeWordValue_payload (List.ne_nil_of_length_pos (by omega)) (by omega)
      (by omega) hw

/-- The ASCII reader clears one byte more than the words hold. -/
theorem mcAsciiReadString_answer (hf : front.length = 14) (h0 : s ≠ [])
    (h : s.length < 2 ^ 31 - 1)
    (hr : (Ascii.mcAsciiReadString network fd address s.length true).request ≠ none) :
    (Ascii.mcAsciiReadString network fd address s.length true).answer
        (.ofFrame (asciiResponse front 0 ((swapWords (wordPadded s)).flatMap hexStrPair))) =
      some (.success, some (wordPadded s ++ [0])) := by
  have hpos := List.length_pos_iff.mpr h0
  have hlen := wordPadded_length s
  have heven := evenLength_natCast h
  rw [← hlen] at heven
  have hne : wordPadded s ≠ [] := List.ne_nil_of_length_pos (by omega)
  unfold Ascii.mcAsciiReadString at hr ⊢
  simp only [heven] at hr ⊢
  split at hr
  · exact absurd rfl hr
  · rename_i hok
    have hword : (Ascii.readWordValue network fd address (((wordPadded s).length : ℤ).tdiv 2)
        .empty).request ≠ none := by
      intro hnone
      apply hr
      rw [Call.request_bind, hnone]
      intro result
      split
      · exact Call.request_ofOption_bind _ fun _ => rfl
      · rfl
    have hcopy : memcpy (wordPadded s) s.length = some s := by
      rw [memcpy, if_pos (by omega), Int.toNat_natCast, wordPadded, List.take_left]
    have htail : s ++ List.replicate (((wordPadded s).length : ℤ) + 1 - s.length).toNat 0 =
        wordPadded s ++ [0] := by
      have hcount : (((wordPadded s).length : ℤ) + 1 - s.length).toNat = s.length % 2 + 1 := by
        omega
      rw [hcount, List.replicate_succ', wordPadded, List.append_assoc]
    rw [if_neg hok, Call.answer_bind, Ascii.readWordValue_answer hf hne (by omega) hword]
    simp only [Option.bind_some, ByteArrayInfo.ofList_data, ByteArrayInfo.ofList_length, hcopy,
      htail, ge_iff_le, le_refl, and_self, if_true, Call.ofOption_some, Call.ret_bind,
      Call.pure_eq, Call.answer_ret]

theorem mcWriteString_request (network : PlcNetworkAddress) (h : s.length < 2 ^ 31 - 21)
    (hfd : 0 < fd) (ha : AddressAccepted address) :
    (mcWriteString network fd address s.length (some (.ofList s))).request ≠ none := by
  have hcall := Access.mc_request network fd
    (.writeString s.length ⟨by omega, by omega⟩ (some (.ofList s))) ha ?_ ?_
  · simpa only [Access.mc, Call.code_request] using hcall
  · simp only [Access.Refused, Option.isNone_some, Bool.false_eq_true, false_or]
    omega
  · simp only [Access.TooLarge]
    omega

theorem mcReadString_request (network : PlcNetworkAddress) (h0 : s ≠ [])
    (h : s.length < 2 ^ 31 - 1) (hfd : 0 < fd) (ha : AddressAccepted address) :
    (mcReadString network fd address s.length true).request ≠ none := by
  have hpos := List.length_pos_iff.mpr h0
  have hcall := Access.mc_request network fd
    (.readString s.length ⟨by omega, by omega⟩ true) ha ?_ id
  · simpa only [Access.mc, Call.code_request] using hcall
  · simp only [Access.Refused]
    omega

theorem mcAsciiWriteString_request (network : PlcNetworkAddress) (h0 : s ≠ [])
    (h : s.length < 2 ^ 30 - 21) (hfd : 0 < fd) (ha : AddressAccepted address)
    (hstart : ¬ NegativeStart address) :
    (Ascii.mcAsciiWriteString network fd address s.length (some (.ofList s))).request ≠ none := by
  have hpos := List.length_pos_iff.mpr h0
  have hcall := Access.mcAscii_request network fd
    (.writeString s.length ⟨by omega, by omega⟩ (some (.ofList s))) ha hstart ?_ ?_ ?_
  · simpa only [Access.mcAscii, Call.code_request] using hcall
  · simp only [Access.AsciiRefused, Option.isNone_some, Bool.false_eq_true, false_or]
    omega
  · simp only [Access.AsciiFits]
    omega
  · simp only [Access.AsciiTooLarge]
    omega

theorem mcAsciiReadString_request (network : PlcNetworkAddress) (h0 : s ≠ [])
    (h : s.length < 2 ^ 31 - 1) (hfd : 0 < fd) (ha : AddressAccepted address)
    (hstart : ¬ NegativeStart address) :
    (Ascii.mcAsciiReadString network fd address s.length true).request ≠ none := by
  have hpos := List.length_pos_iff.mpr h0
  have hcall := Access.mcAscii_request network fd
    (.readString s.length ⟨by omega, by omega⟩ true) ha hstart ?_ trivial id
  · simpa only [Access.mcAscii, Call.code_request] using hcall
  · simp only [Access.AsciiRefused, not_true_eq_false, false_or]
    omega

end Requests

/-- The result is a buffer with the string in front and a terminator right behind it. -/
def ReadsBack (s : List Byte) (answer : Option (ErrorCode × Option (List Byte))) : Prop :=
  ∃ buf, answer = some (.success, some buf) ∧ buf.take s.length = s ∧ buf[s.length]? = some 0

/-- The C string in a buffer, `none` where no terminator is in it. -/
def cString (buf : List Byte) : Option (List Byte) :=
  if 0 ∈ buf then some (buf.takeWhile (· ≠ 0)) else none

/-- Both results hold the same C string. -/
def SameString (answer answer' : Option (ErrorCode × Option (List Byte))) : Prop :=
  ∃ buf buf' str, answer = some (.success, some buf) ∧ answer' = some (.success, some buf') ∧
    cString buf = some str ∧ cString buf' = some str

theorem wordPadded_take (s tail : List Byte) : (wordPadded s ++ tail).take s.length = s := by
  rw [wordPadded, List.append_assoc, List.take_left]

/-- Only the padding of an odd length is a terminator. -/
theorem readsBack_wordPadded (s : List Byte) :
    ReadsBack s (some (.success, some (wordPadded s))) ↔ s.length % 2 = 1 := by
  have htake := wordPadded_take s []
  rw [List.append_nil] at htake
  have hget : (wordPadded s)[s.length]? = (List.replicate (s.length % 2) (0 : Byte))[0]? := by
    rw [wordPadded, List.getElem?_append_right le_rfl, Nat.sub_self]
  constructor
  · intro hread
    obtain ⟨buf, hbuf, -, hzero⟩ := hread
    obtain ⟨-, hsome⟩ := Prod.mk.inj (Option.some.inj hbuf)
    obtain rfl := Option.some.inj hsome
    rw [hget] at hzero
    by_contra hodd
    have heven : s.length % 2 = 0 := by omega
    rw [heven] at hzero
    cases hzero
  · intro hodd
    refine ⟨wordPadded s, rfl, htake, ?_⟩
    rw [hget, hodd]
    rfl

theorem readsBack_terminated (s : List Byte) :
    ReadsBack s (some (.success, some (wordPadded s ++ [0]))) := by
  refine ⟨wordPadded s ++ [0], rfl, wordPadded_take s [0], ?_⟩
  have htail : wordPadded s ++ [0] = s ++ List.replicate (s.length % 2 + 1) 0 := by
    rw [List.replicate_succ', wordPadded, List.append_assoc]
  rw [htail, List.getElem?_append_right le_rfl, Nat.sub_self, List.replicate_succ]
  rfl

theorem zero_mem_wordPadded (s : List Byte) :
    (0 : Byte) ∈ wordPadded s ↔ s.length % 2 = 1 ∨ (0 : Byte) ∈ s := by
  rw [wordPadded, List.mem_append, List.mem_replicate]
  constructor
  · intro hmem
    rcases hmem with hmem | hmem
    · exact .inr hmem
    · exact .inl (by omega)
  · intro hor
    rcases hor with hodd | hmem
    · exact .inr ⟨by omega, rfl⟩
    · exact .inl hmem

theorem cString_append_zero (buf : List Byte) :
    cString (buf ++ [0]) = some (buf.takeWhile (· ≠ 0)) := by
  rw [cString, if_pos (by simp), List.takeWhile_append]
  split
  · rename_i hall
    rw [List.IsPrefix.eq_of_length (List.takeWhile_prefix _) hall]
    simp
  · rfl

/-- The two buffers hold the same C string where the first one holds any. -/
theorem sameString_iff (s : List Byte) :
    SameString (some (.success, some (wordPadded s)))
        (some (.success, some (wordPadded s ++ [0]))) ↔ s.length % 2 = 1 ∨ (0 : Byte) ∈ s := by
  rw [← zero_mem_wordPadded]
  constructor
  · intro hsame
    obtain ⟨buf, buf', str, hbuf, -, hstr, -⟩ := hsame
    obtain ⟨-, hsome⟩ := Prod.mk.inj (Option.some.inj hbuf)
    obtain rfl := Option.some.inj hsome
    by_contra hno
    rw [cString, if_neg hno] at hstr
    cases hstr
  · intro hmem
    exact ⟨_, _, _, rfl, rfl, if_pos hmem, cString_append_zero _⟩

section Back

variable (front asciiFront : List Byte) (network network' : PlcNetworkAddress) (fd fd' : ℤ)
  (address address' : Option CString) (s : List Byte)

/-- A binary read that is answered with the payload of the binary write of `s`. -/
def mcStringBack : Option (ErrorCode × Option (List Byte)) :=
  (mcReadString network' fd' address' s.length true).answer (.ofFrame (binaryResponse front 0
    ((mcWriteString network fd address s.length (some (.ofList s))).payload 21)))

/-- An ASCII read that is answered with the payload of the ASCII write of `s`. -/
def mcAsciiStringBack : Option (ErrorCode × Option (List Byte)) :=
  (Ascii.mcAsciiReadString network' fd' address' s.length true).answer
    (.ofFrame (asciiResponse asciiFront 0
      ((Ascii.mcAsciiWriteString network fd address s.length (some (.ofList s))).payload 42)))

/-- A write and a read of the string `s` with open descriptors, accepted addresses and frames that
fit the length field. -/
structure StringSent (fd fd' : ℤ) (address address' : Option CString) (s : List Byte) : Prop where
  fits : s.length + s.length % 2 + 12 < 2 ^ 16
  fd_pos : 0 < fd
  fd_pos' : 0 < fd'
  accepted : AddressAccepted address
  accepted' : AddressAccepted address'

/-- In ASCII the number of the device must not be negative. -/
structure AsciiStringSent (fd fd' : ℤ) (address address' : Option CString) (s : List Byte) :
    Prop where
  fits : 2 * (s.length + s.length % 2) + 24 < 2 ^ 16
  fd_pos : 0 < fd
  fd_pos' : 0 < fd'
  accepted : AddressAccepted address
  accepted' : AddressAccepted address'
  start : ¬ NegativeStart address
  start' : ¬ NegativeStart address'

/-- Both calls of the binary module hand over their request. -/
def StringRequests : Prop :=
  (mcWriteString network fd address s.length (some (.ofList s))).request ≠ none ∧
    (mcReadString network' fd' address' s.length true).request ≠ none

def AsciiStringRequests : Prop :=
  (Ascii.mcAsciiWriteString network fd address s.length (some (.ofList s))).request ≠ none ∧
    (Ascii.mcAsciiReadString network' fd' address' s.length true).request ≠ none

variable {front asciiFront network network' fd fd' address address' s}

theorem StringSent.requests (h0 : s ≠ []) (h : StringSent fd fd' address address' s) :
    StringRequests network network' fd fd' address address' s := by
  have hfits := h.fits
  exact ⟨mcWriteString_request network (by omega) h.fd_pos h.accepted,
    mcReadString_request network' h0 (by omega) h.fd_pos' h.accepted'⟩

theorem AsciiStringSent.requests (h0 : s ≠ []) (h : AsciiStringSent fd fd' address address' s) :
    AsciiStringRequests network network' fd fd' address address' s := by
  have hfits := h.fits
  exact ⟨mcAsciiWriteString_request network h0 (by omega) h.fd_pos h.accepted h.start,
    mcAsciiReadString_request network' h0 (by omega) h.fd_pos' h.accepted' h.start'⟩

theorem mcStringBack_eq (hf : front.length = 7) (h0 : s ≠ [])
    (h : StringSent fd fd' address address' s) :
    mcStringBack front network network' fd fd' address address' s =
      some (.success, some (wordPadded s)) := by
  have hfits := h.fits
  have hrequests : StringRequests network network' fd fd' address address' s := h.requests h0
  rw [mcStringBack, mcWriteString_payload (by omega) hrequests.1]
  exact mcReadString_answer hf h0 hfits hrequests.2

theorem mcAsciiStringBack_eq (hf : asciiFront.length = 14) (h0 : s ≠ [])
    (h : AsciiStringSent fd fd' address address' s) :
    mcAsciiStringBack asciiFront network network' fd fd' address address' s =
      some (.success, some (wordPadded s ++ [0])) := by
  have hfits := h.fits
  have hrequests : AsciiStringRequests network network' fd fd' address address' s := h.requests h0
  rw [mcAsciiStringBack, mcAsciiWriteString_payload h0 (by omega) hrequests.1]
  exact mcAsciiReadString_answer hf h0 (by omega) hrequests.2

end Back

/-- Strings of every length: all four functions hand over their requests, the binary reader returns
the string terminated exactly for odd lengths, the ASCII reader always, so both return the same
C string for all of them just for odd ones. -/
theorem strings_survive_iff {front asciiFront s : List Byte} (hf : front.length = 7)
    (ha : asciiFront.length = 14) (h0 : s ≠ []) (network network' : PlcNetworkAddress)
    (fd fd' : ℤ) (address address' : Option CString) :
    (StringSent fd fd' address address' s →
      StringRequests network network' fd fd' address address' s ∧
      (ReadsBack s (mcStringBack front network network' fd fd' address address' s) ↔
        s.length % 2 = 1)) ∧
    (AsciiStringSent fd fd' address address' s →
      AsciiStringRequests network network' fd fd' address address' s ∧
      ReadsBack s (mcAsciiStringBack asciiFront network network' fd fd' address address' s)) ∧
    (StringSent fd fd' address address' s → AsciiStringSent fd fd' address address' s →
      ((ReadsBack s (mcStringBack front network network' fd fd' address address' s) ∧
          ReadsBack s (mcAsciiStringBack asciiFront network network' fd fd' address address' s) ∧
          SameString (mcStringBack front network network' fd fd' address address' s)
            (mcAsciiStringBack asciiFront network network' fd fd' address address' s)) ↔
        s.length % 2 = 1)) := by
  refine ⟨fun hs => ⟨hs.requests h0, ?_⟩, fun hs => ⟨hs.requests h0, ?_⟩, fun hs hs' => ?_⟩
  · rw [mcStringBack_eq hf h0 hs]
    exact readsBack_wordPadded s
  · rw [mcAsciiStringBack_eq ha h0 hs]
    exact readsBack_terminated s
  · rw [mcStringBack_eq hf h0 hs, mcAsciiStringBack_eq ha h0 hs', readsBack_wordPadded,
      sameString_iff]
    constructor
    · intro hall
      exact hall.1
    · intro hodd
      exact ⟨hodd, readsBack_terminated s, .inl hodd⟩

/-- The string `ABC` through D100. -/
theorem strings_survive_iff_D100 :
    (ReadsBack [0x41, 0x42, 0x43] (mcStringBack [0xD0, 0x00, 0x00, 0xFF, 0xFF, 0x03, 0x00]
        ⟨0, 0⟩ ⟨0, 0⟩ 3 3 (some ⟨text ['D', '1', '0', '0'], by decide⟩)
        (some ⟨text ['D', '1', '0', '0'], by decide⟩) [0x41, 0x42, 0x43]) ∧
      ReadsBack [0x41, 0x42, 0x43] (mcAsciiStringBack
        (text ['D', '0', '0', '0', '0', '0', 'F', 'F', '0', '3', 'F', 'F', '0', '0'])
        ⟨0, 0⟩ ⟨0, 0⟩ 3 3 (some ⟨text ['D', '1', '0', '0'], by decide⟩)
        (some ⟨text ['D', '1', '0', '0'], by decide⟩) [0x41, 0x42, 0x43]) ∧
      SameString (mcStringBack [0xD0, 0x00, 0x00, 0xFF, 0xFF, 0x03, 0x00]
        ⟨0, 0⟩ ⟨0, 0⟩ 3 3 (some ⟨text ['D', '1', '0', '0'], by decide⟩)
        (some ⟨text ['D', '1', '0', '0'], by decide⟩) [0x41, 0x42, 0x43])
        (mcAsciiStringBack
        (text ['D', '0', '0', '0', '0', '0', 'F', 'F', '0', '3', 'F', 'F', '0', '0'])
        ⟨0, 0⟩ ⟨0, 0⟩ 3 3 (some ⟨text ['D', '1', '0', '0'], by decide⟩)
        (some ⟨text ['D', '1', '0', '0'], by decide⟩) [0x41, 0x42, 0x43])) ↔
    [0x41, 0x42, (0x43 : Byte)].length % 2 = 1 :=
  (strings_survive_iff rfl rfl (List.cons_ne_nil _ _) ⟨0, 0⟩ ⟨0, 0⟩ 3 3
    (some ⟨text ['D', '1', '0', '0'], by decide⟩)
    (some ⟨text ['D', '1', '0', '0'], by decide⟩)).2.2
    ⟨by decide, by decide, by decide, addressAccepted_D100, addressAccepted_D100⟩
    ⟨by decide, by decide, by decide, addressAccepted_D100, addressAccepted_D100,
      not_negativeStart_D100, not_negativeStart_D100⟩

/-- The buffer for the string `AB` ends with the string. -/
theorem string_unterminated :
    ¬ ∀ (front s : List Byte) (network network' : PlcNetworkAddress) (fd fd' : ℤ)
      (address address' : Option CString), front.length = 7 → s ≠ [] →
      StringSent fd fd' address address' s →
      ReadsBack s (mcStringBack front network network' fd fd' address address' s) := by
  intro hall
  obtain ⟨buf, hbuf, -, hzero⟩ := hall [0xD0, 0x00, 0x00, 0xFF, 0xFF, 0x03, 0x00] [0x41, 0x42]
    ⟨0, 0⟩ ⟨0, 0⟩ 3 3 (some ⟨text ['D', '1', '0', '0'], by decide⟩)
    (some ⟨text ['D', '1', '0', '0'], by decide⟩) rfl (List.cons_ne_nil _ _)
    ⟨by decide, by decide, by decide, addressAccepted_D100, addressAccepted_D100⟩
  have hback : mcStringBack [0xD0, 0x00, 0x00, 0xFF, 0xFF, 0x03, 0x00] ⟨0, 0⟩ ⟨0, 0⟩ 3 3
      (some ⟨text ['D', '1', '0', '0'], by decide⟩)
      (some ⟨text ['D', '1', '0', '0'], by decide⟩) [0x41, 0x42] =
        some (.success, some [0x41, 0x42]) := by decide
  rw [hback] at hbuf
  obtain ⟨-, hsome⟩ := Prod.mk.inj (Option.some.inj hbuf)
  obtain rfl := Option.some.inj hsome
  cases hzero

end MelsecMc
