import MelsecMc.RequestFrames
import MelsecMc.ResponseFraming

/-!
# The text of words, written and read

Three loops write or read the words of device data as text. The builder of a write
exchanges the bytes of every word in a copy and writes the copy byte by byte, the
builder of raw commands writes the high byte of each word first, and the parser of
read responses reads byte by byte and exchanges then. They belong together for
payloads of every size whose text fits an `int` with its header.
-/
namespace MelsecMc

/-- A digit as the library writes it. -/
def UpperHexDigit (c : Byte) : Prop := (chr '0' ≤ c ∧ c ≤ chr '9') ∨ (chr 'A' ≤ c ∧ c ≤ chr 'F')

instance : DecidablePred UpperHexDigit := fun c =>
  inferInstanceAs (Decidable ((chr '0' ≤ c ∧ c ≤ chr '9') ∨ (chr 'A' ≤ c ∧ c ≤ chr 'F')))

/-- A response with the end code zero: 18 characters in front, `0000`, the payload. -/
def successFrame (front payload : List Byte) : List Byte :=
  front ++ text ['0', '0', '0', '0'] ++ payload

/-- Every success response with these characters is read as the bytes `p`. -/
def ReadsAs (chars p : List Byte) : Prop :=
  ∀ (front : List Byte) (out_data : ByteArrayInfo), front.length = 18 →
    mcAsciiParseReadResponse (.ofList (successFrame front chars)) (some out_data) false =
      some (.success, some (.ofList p))

/-- Every write of the bytes `p` has these characters behind its header of twenty. -/
def WritesAs (p chars : List Byte) : Prop :=
  ∀ address_data : MelsecMcAddressData, 0 ≤ address_data.addressStart →
    ∃ header, header.length = 20 ∧
      mcAsciiBuildWriteWordCoreCommand address_data (.ofList p) = some (.ofList (header ++ chars))

/-- Both builders write the bytes as the same text, which is read as the bytes. -/
def WordsCoded (p : List Byte) : Prop :=
  ∃ chars, mcAsciiBuildCoreFromLeWords p = .ofList chars ∧ WritesAs p chars ∧ ReadsAs chars p

/-- The text is read as bytes that both builders write as the same text. -/
def TextCoded (chars : List Byte) : Prop :=
  ∃ p, ReadsAs chars p ∧ mcAsciiBuildCoreFromLeWords p = .ofList chars ∧ WritesAs p chars

section Loops

theorem hexStrPair_eq_writeHexByte (b : Byte) : hexStrPair b = mcAsciiWriteHexByte b := by
  rw [hexStrPair_eq, mcAsciiWriteHexByte_eq]

/-- Writing the high byte first is writing the exchanged bytes. -/
theorem asciiOfLeWords_eq {p : List Byte} (h : p.length % 2 = 0) :
    asciiOfLeWords p = (swapWords p).flatMap hexStrPair := by
  induction p using asciiOfLeWords.induct with
  | case1 b₀ b₁ p ih =>
    have hrest := ih (by simp only [List.length_cons] at h; omega)
    rw [asciiOfLeWords, swapWords, List.flatMap_cons, List.flatMap_cons, hrest,
      hexStrPair_eq_writeHexByte, hexStrPair_eq_writeHexByte, List.append_assoc]
  | case2 p hshort =>
    obtain rfl | ⟨b, rfl⟩ := eq_nil_or_singleton hshort
    · rfl
    · simp at h

theorem swapWords_swapWords (bytes : List Byte) : swapWords (swapWords bytes) = bytes := by
  induction bytes using swapWords.induct with
  | case1 b₀ b₁ bytes ih => rw [swapWords, swapWords, ih]
  | case2 bytes hshort =>
    obtain rfl | ⟨b, rfl⟩ := eq_nil_or_singleton hshort
    · rfl
    · rfl

theorem upperHexDigit_symbol : ∀ c : Byte, UpperHexDigit c →
    (mcAsciiHexToNibble c).map hexAlphabet.symbol = some c := by
  decide +kernel

/-- A pair of upper-case digits is the text of the byte that it is read as. -/
theorem hexStrPair_of_upper {c₀ c₁ : Byte} (h₀ : UpperHexDigit c₀) (h₁ : UpperHexDigit c₁) :
    ∃ b, mcAsciiHexPairToByte c₀ c₁ = some b ∧ hexStrPair b = [c₀, c₁] := by
  obtain ⟨hi, hhi, rfl⟩ := Option.map_eq_some_iff.mp (upperHexDigit_symbol c₀ h₀)
  obtain ⟨lo, hlo, rfl⟩ := Option.map_eq_some_iff.mp (upperHexDigit_symbol c₁ h₁)
  have hhi16 := mcAsciiHexToNibble_lt hhi
  have hlo16 := mcAsciiHexToNibble_lt hlo
  have hbyte : (BitVec.ofNat 8 (hi * 16 + lo)).toNat = hi * 16 + lo := by
    rw [BitVec.toNat_ofNat]
    omega
  have hwrite : Numeral.write hexAlphabet 2 (hi * 16 + lo) =
      [hexAlphabet.symbol hi, hexAlphabet.symbol lo] := by
    have hbase : hexAlphabet.base = 16 := rfl
    have hdiv : (hi * 16 + lo) / 16 % 16 = hi := by omega
    have hmod : (hi * 16 + lo) % 16 = lo := by omega
    rw [Numeral.write, Numeral.write, Numeral.write, hbase, hdiv, hmod]
    rfl
  have hlt : hi * 16 + lo < hexAlphabet.base ^ 2 := by
    have hbase : hexAlphabet.base ^ 2 = 256 := rfl
    omega
  refine ⟨BitVec.ofNat 8 (hi * 16 + lo), ?_, ?_⟩
  · rw [mcAsciiHexPairToByte_eq, ← hwrite, Numeral.read_write hexAlphabet 2 _ hlt]
    rfl
  · rw [hexStrPair_eq, hbyte, hwrite]

/-- Upper-case digits are the text of the bytes that they are read as. -/
theorem hexPairsToBytes_of_upper {chars : List Byte} (hupper : ∀ c ∈ chars, UpperHexDigit c)
    (h : chars.length % 2 = 0) :
    ∃ bytes, hexPairsToBytes chars = some bytes ∧ bytes.flatMap hexStrPair = chars := by
  induction chars using hexPairsToBytes.induct with
  | case1 c₀ c₁ chars ih =>
    rw [List.forall_mem_cons, List.forall_mem_cons] at hupper
    obtain ⟨h₀, h₁, hrest⟩ := hupper
    obtain ⟨b, hpair, hb⟩ := hexStrPair_of_upper h₀ h₁
    obtain ⟨bytes, hbytes, htext⟩ := ih hrest (by simp only [List.length_cons] at h; omega)
    refine ⟨b :: bytes, ?_, ?_⟩
    · rw [hexPairsToBytes, hpair, hbytes]
      rfl
    · rw [List.flatMap_cons, hb, htext]
      rfl
  | case2 chars hshort =>
    obtain rfl | ⟨c, rfl⟩ := eq_nil_or_singleton hshort
    · exact ⟨[], rfl, rfl⟩
    · simp at h

end Loops

section Codec

variable {p chars : List Byte}

/-- The text of whole words is read as the bytes that it stands for. -/
theorem readsAs_of_asciiData (h0 : chars ≠ []) (h : asciiData chars = some p) :
    ReadsAs chars p := by
  intro front out_data hfront
  have hzero : text ['0', '0', '0', '0'] = Numeral.write hexAlphabet 4 0 := by decide
  have hlen : (successFrame front chars).length = 22 + chars.length := by
    simp only [successFrame, List.length_append, hfront]
    rfl
  have hdrop : (successFrame front chars).drop 22 = chars := by
    rw [successFrame, List.drop_left']
    rw [List.length_append, hfront]
    rfl
  have hcode : asciiEndCode (successFrame front chars) = some 0 := by
    rw [successFrame, hzero]
    exact mcAsciiParseU16Be_field (i := 18) hfront (by omega)
  rw [mcAsciiParseReadResponse_accepted (by omega) hcode, hdrop, if_neg h0, if_neg (by simp), h]

theorem asciiOfLeWords_length (h : p.length % 2 = 0) :
    (asciiOfLeWords p).length = 2 * p.length := by
  rw [asciiOfLeWords_eq h, hexStrPair_flatMap_length, swapWords_length]

/-- What the builder of a write puts behind its header is the text of the words. -/
theorem writesAs_asciiOfLeWords (h0 : p ≠ []) (heven : p.length % 2 = 0)
    (h : 20 + 2 * p.length < 2 ^ 31) : WritesAs p (asciiOfLeWords p) := by
  intro address_data hstart
  have hbuild := mcAsciiBuildWriteWordCoreCommand_ofList address_data h0 heven h
  rw [← asciiOfLeWords_eq heven] at hbuild
  cases hheader : asciiCoreHeader ['1', '4', '0', '1', '0', '0', '0', '0'] address_data with
  | none => exact absurd (asciiCoreHeader_eq_none.mp hheader) (not_lt.mpr hstart)
  | some header =>
    rw [hheader] at hbuild
    exact ⟨header, asciiCoreHeader_length rfl hheader, hbuild⟩

theorem mcAsciiBuildCoreFromLeWords_ofList (h0 : p ≠ []) (heven : p.length % 2 = 0)
    (h : 2 * p.length < 2 ^ 31) :
    mcAsciiBuildCoreFromLeWords p = .ofList (asciiOfLeWords p) := by
  have hpos := List.length_pos_iff.mpr h0
  have hroom : malloc (toInt32 ((p.length : ℤ) * 2)) = true := by
    rw [toInt32_eq ⟨by omega, by omega⟩]
    exact decide_eq_true (by omega)
  rw [mcAsciiBuildCoreFromLeWords, if_neg (by omega), if_pos hroom]

/-- A core command is no longer than an `int`. -/
theorem asciiCoreCommand_length_lt (command : List Char) (address_data : MelsecMcAddressData)
    (payload : ByteArrayInfo) : (asciiCoreCommand command address_data payload).length < 2 ^ 31 := by
  have hrange := (toInt32_range (20 + payload.length)).2
  unfold asciiCoreCommand
  split
  · decide
  split
  · decide
  simp only
  split
  · split
    · decide
    · exact hrange
  · decide

theorem WritesAs.length_lt (heven : p.length % 2 = 0) (h0 : p ≠ []) (h : WritesAs p chars) :
    20 + chars.length < 2 ^ 31 := by
  obtain ⟨header, hheader, hbuild⟩ := h ⟨deviceD, 0, 0⟩ le_rfl
  rw [mcAsciiBuildWriteWordCoreCommand_eq _ h0 heven, Option.map_eq_some_iff] at hbuild
  obtain ⟨payload, -, hcommand⟩ := hbuild
  have hlt := asciiCoreCommand_length_lt ['1', '4', '0', '1', '0', '0', '0', '0'] ⟨deviceD, 0, 0⟩
    payload
  rw [hcommand, ByteArrayInfo.ofList_length, List.length_append, hheader] at hlt
  omega

/-- For byte strings of whole words, of any length: they are coded exactly when their text fits an
`int` with its header. -/
theorem wordsCoded_iff (h0 : p ≠ []) (heven : p.length % 2 = 0) :
    WordsCoded p ↔ 20 + 2 * p.length < 2 ^ 31 := by
  constructor
  · rintro ⟨chars, hcore, hwrites, -⟩
    have hlt := hwrites.length_lt heven h0
    have hpos := List.length_pos_iff.mpr h0
    rw [mcAsciiBuildCoreFromLeWords, if_neg (by omega)] at hcore
    split at hcore
    · rw [← ByteArrayInfo.ofList_inj.mp hcore, asciiOfLeWords_length heven] at hlt
      exact hlt
    · cases hcore
  · intro h
    have hpos := List.length_pos_iff.mpr h0
    have hlen := asciiOfLeWords_length heven
    have hne : asciiOfLeWords p ≠ [] := List.ne_nil_of_length_pos (by omega)
    refine ⟨_, mcAsciiBuildCoreFromLeWords_ofList h0 heven (by omega),
      writesAs_asciiOfLeWords h0 heven h, readsAs_of_asciiData hne ?_⟩
    rw [asciiData, if_pos (by omega), asciiOfLeWords_eq heven, hexPairsToBytes_flatMap,
      Option.map_some, swapWords_length, if_pos heven, swapWords_swapWords]

/-- Text of upper-case digits, of whole words and of any length that a response can have, is
written again as it was read. -/
theorem textCoded (hupper : ∀ c ∈ chars, UpperHexDigit c) (h0 : chars ≠ [])
    (hwords : chars.length % 4 = 0) (h : 22 + chars.length < 2 ^ 31) : TextCoded chars := by
  obtain ⟨bytes, hbytes, htext⟩ := hexPairsToBytes_of_upper hupper (by omega)
  have hlen := hexPairsToBytes_length hbytes
  have heven : (swapWords bytes).length % 2 = 0 := by
    rw [swapWords_length]
    omega
  have hpos := List.length_pos_iff.mpr h0
  have hsize : (swapWords bytes).length = chars.length / 2 := by rw [swapWords_length, hlen]
  have hne : swapWords bytes ≠ [] := List.ne_nil_of_length_pos (by omega)
  have hback : asciiOfLeWords (swapWords bytes) = chars := by
    rw [asciiOfLeWords_eq heven, swapWords_swapWords, htext]
  have hwrites := writesAs_asciiOfLeWords hne heven (by omega)
  have hcore := mcAsciiBuildCoreFromLeWords_ofList hne heven (by omega)
  rw [hback] at hwrites hcore
  refine ⟨swapWords bytes, readsAs_of_asciiData h0 ?_, hcore, hwrites⟩
  rw [asciiData, if_pos (by omega), hbytes, Option.map_some, hlen, if_pos (by omega)]

end Codec

/-- The word codec: byte strings of whole words, of any length, are coded exactly when their text
fits an `int` with its header, and all text that a response can carry is coded. -/
theorem word_codec_iff (p chars : List Byte) :
    (p ≠ [] → p.length % 2 = 0 → (WordsCoded p ↔ 20 + 2 * p.length < 2 ^ 31)) ∧
    ((∀ c ∈ chars, UpperHexDigit c) → chars ≠ [] → chars.length % 4 = 0 →
      22 + chars.length < 2 ^ 31 → TextCoded chars) :=
  ⟨wordsCoded_iff, textCoded⟩

/-- The words 1234 and ABCD. -/
theorem word_codec_iff_two :
    (WordsCoded [0x34, 0x12, 0xCD, 0xAB] ↔
      20 + 2 * [0x34, 0x12, 0xCD, (0xAB : Byte)].length < 2 ^ 31) ∧
    TextCoded (text ['1', '2', '3', '4', 'A', 'B', 'C', 'D']) :=
  have h := word_codec_iff [0x34, 0x12, 0xCD, 0xAB] (text ['1', '2', '3', '4', 'A', 'B', 'C', 'D'])
  ⟨h.1 (List.cons_ne_nil _ _) rfl, h.2 (by decide) (List.cons_ne_nil _ _) rfl (by decide)⟩

/-- From 2^30 bytes on the text has no buffer, and the write goes through a null pointer. -/
theorem words_not_coded :
    ¬ ∀ p : List Byte, p ≠ [] → p.length % 2 = 0 → WordsCoded p := by
  intro hall
  have hlen : (List.replicate (2 ^ 30) (0x00 : Byte)).length = 2 ^ 30 := List.length_replicate
  generalize List.replicate (2 ^ 30) (0x00 : Byte) = p at hlen
  obtain ⟨chars, -, hwrites, -⟩ := hall p (List.ne_nil_of_length_pos (by omega)) (by omega)
  obtain ⟨header, -, hbuild⟩ := hwrites ⟨deviceD, 0, 0⟩ le_rfl
  rw [mcAsciiBuildWriteWordCoreCommand_fault _ (by omega) (by omega) (by omega)] at hbuild
  cases hbuild

end MelsecMc
