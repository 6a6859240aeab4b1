import MelsecMc.AddressText
import MelsecMc.AsciiBuilders
import MelsecMc.CommandResponses
import MelsecMc.DeviceCommands
import MelsecMc.StringRoundTrip

/-!
# Calls that are served

A call is served with a command when it hands the request for the command over and
makes of every answer the result that belongs to it. Each function of the library
that reads or writes devices is: first those that exchange words and points, then the
typed ones, whose result is a function of what theirs was.
-/
namespace MelsecMc

open FramedStream
open Numeral (write)

theorem Module.response_length (m : Module) {front : List Byte} (code : BitVec 16)
    (payload : List Byte) (hf : front.length = m.frontLength) :
    (m.response front code payload).length =
      payload.length + (m.frontLength + 2 * m.endCodeLength) := by
  cases m with
  | binary => exact binaryResponse_length code payload hf
  | ascii => exact asciiResponse_length code payload hf

/-- The call hands over the request for `c`, and whatever the PLC answers, it returns a result that
`A` relates to the answer. -/
def Call.Serves {α : Type} (m : Module) (network : PlcNetworkAddress) (fd : ℤ) (c : Command)
    (A : c.Answer → α → Prop) (call : Call α) : Prop :=
  ∃ next, call = .transact fd (.ofList (m.request network c)) next ∧
    ∀ answer response, m.Encodes answer response →
      ∃ a, (next (.ofFrame response)).answer (.ofFrame response) = some a ∧ A answer a

/-- What belongs to an answer: `f` of the data, or `mc_error_failed` with anything. -/
def Reports {c : Command} {β : Type} (f : c.Data → β) : c.Answer → ErrorCode × β → Prop
  | .ok data, result => result = (.success, f data)
  | .error _, result => result.1 = .failed

/-- What belongs to an answer for a caller who gets a value: that value, or none. -/
def Delivers {c : Command} {β : Type} (f : c.Data → β) : c.Answer → ErrorCode × Option β → Prop
  | .ok data, result => result = (.success, some (f data))
  | .error _, result => result = (.failed, none)

namespace Call.Serves

variable {α β : Type} {m : Module} {network : PlcNetworkAddress} {fd : ℤ} {c : Command}
  {A : c.Answer → α → Prop} {B : c.Answer → β → Prop} {call : Call α}

/-- A continuation that makes no request of its own. -/
theorem bind (h : call.Serves m network fd c A) {k : α → Call β}
    (hk : ∀ answer a, A answer a → ∃ b, k a = .ret b ∧ B answer b) :
    (call >>= k).Serves m network fd c B := by
  obtain ⟨next, rfl, hnext⟩ := h
  refine ⟨fun r => next r >>= k, rfl, fun answer response hr => ?_⟩
  obtain ⟨a, ha, hA⟩ := hnext answer response hr
  obtain ⟨b, hb, hB⟩ := hk answer a hA
  refine ⟨b, ?_, hB⟩
  rw [Call.answer_bind, ha, Option.bind_some, hb]
  rfl

/-- A continuation that makes a value of the data. -/
theorem bind_delivers {γ : Type} {f : c.Data → α} {g : c.Data → γ} {call : Call (ErrorCode × α)}
    (h : call.Serves m network fd c (Reports f)) {k : ErrorCode × α → Call (ErrorCode × Option γ)}
    (hok : ∀ data, k (.success, f data) = .ret (.success, some (g data)))
    (hfailed : ∀ a, k (.failed, a) = .ret (.failed, none)) :
    (call >>= k).Serves m network fd c (Delivers g) := by
  refine h.bind fun answer result hresult => ?_
  cases answer with
  | ok data =>
    obtain rfl := hresult
    exact ⟨_, hok data, rfl⟩
  | error code =>
    obtain ⟨ret, a⟩ := result
    obtain rfl : ret = .failed := hresult
    exact ⟨_, hfailed a, rfl⟩

/-- An exchange serves what it packs and parses: an answer with its data, and a refusal. -/
theorem exchange {pack : ByteArrayInfo → PlcNetworkAddress → Option ByteArrayInfo} {min_size : ℕ}
    (core : List Byte) {out : β} {parse : ByteArrayInfo → Option (ErrorCode × β)}
    {f : c.Data → β} (hfd : 0 < fd) (h0 : m.request network c ≠ [])
    (hp : pack (.ofList core) network = some (.ofList (m.request network c)))
    (hmin : min_size ≤ m.frontLength + 2 * m.endCodeLength) (hfits : m.Fits c)
    (hok : ∀ front data, front.length = m.frontLength →
      m.endCodeLength + (m.payload c data).length < 2 ^ 16 →
      parse (.ofList (m.response front 0 (m.payload c data))) = some (.success, f data))
    (hfailed : ∀ front (code : BitVec 16) payload, front.length = m.frontLength →
      m.endCodeLength + payload.length < 2 ^ 16 → code.toNat ≠ 0 →
      ∃ b, parse (.ofList (m.response front code payload)) = some (.failed, b)) :
    (MelsecMc.exchange pack min_size network fd (.ofList core) out parse).Serves m network fd c
      (Reports f) := by
  refine ⟨_, exchange_packed hfd hp h0, fun answer response hr => ?_⟩
  cases answer with
  | ok data =>
    obtain ⟨front, hf, rfl⟩ := hr
    have hlen := m.response_length 0 (m.payload c data) hf
    refine ⟨_, ?_, rfl⟩
    rw [evaluate_ofFrame (by omega), Call.answer_ofOption, hok front data hf (hfits data)]
  | error e =>
    obtain ⟨front, payload, hf, hl, rfl⟩ := hr
    have hlen := m.response_length e.1 payload hf
    obtain ⟨b, hb⟩ := hfailed front e.1 payload hf hl
      fun h => e.2 (BitVec.eq_of_toNat_eq h)
    refine ⟨(.failed, b), ?_, rfl⟩
    rw [evaluate_ofFrame (by omega), Call.answer_ofOption, hb]

end Call.Serves

section Frames

variable {d : MelsecMcDataType} {a n : ℕ}

theorem packMcCommand_request (network : PlcNetworkAddress)
    (command : Byte × Byte × Byte × Byte) (points : ℤ) (payload : List Byte)
    (hl : payload.length + 12 < 2 ^ 16) :
    packMcCommand (.ofList (coreHeader command ⟨d, a, points⟩ n ++ payload)) network =
      some (.ofList (binaryRequest network command d a n payload)) := by
  have hcore : (coreHeader command ⟨d, a, points⟩ n ++ payload).length = 10 + payload.length := by
    rw [List.length_append, coreHeader_length]
  rw [packMcCommand_ofList network _ (List.ne_nil_of_length_pos (by omega)) (by omega), hcore]
  rfl

theorem packMcAsciiCommand_request (network : PlcNetworkAddress) (command subcommand : List Char)
    {payload : List Byte} (hclen : command.length = 4) (hslen : subcommand.length = 4)
    (hl : payload.length + 24 < 2 ^ 16) :
    packMcAsciiCommand (.ofList (text (command ++ subcommand) ++
        [d.asciiCode.1, d.asciiCode.2] ++ write d.alphabet 6 a ++ mcAsciiWriteHexU16Be n ++
          payload)) network =
      some (.ofList (asciiRequest network (command ++ subcommand) d a n payload)) :=
  packMcAsciiCommand_fits network
    (asciiCore_length command subcommand hclen hslen payload) hl

theorem Module.frame_ne_nil (m : Module) (network : PlcNetworkAddress) (is_write is_bit : Bool)
    (payload : List Byte) : m.frame network is_write is_bit d a n payload ≠ [] := by
  cases m <;> simp [Module.frame, binaryRequest, asciiRequest, mcCommandHeader,
    mcAsciiCommandHeader, text]

end Frames

section Words

variable {network : PlcNetworkAddress} {fd : ℤ} {s : CString} {d : MelsecMcDataType} {a n : ℕ}
  (hfd : 0 < fd) (hs : Names s d a) (ha : a ≤ d.maxStart)

include hs ha in
/-- The address is parsed as it is written. -/
theorem analysed_names {β : Type} (length : ℤ) (out : β)
    (next : MelsecMcAddressData → Call (ErrorCode × β)) :
    analysed (some s) length out next = next ⟨d, a, length⟩ := by
  have hlt := lt_of_le_of_lt ha d.maxStart_lt_binary
  have hclamp : toInt32 (clampLong a) = a := by
    rw [clampLong_eq (by omega) (by omega), toInt32_eq ⟨by omega, by omega⟩]
  rw [analysed, mcAnalysisAddress_denotes hs length, hclamp]

theorem Module.payload_ne_nil {m : Module} (h1 : 0 < n) (words : List.Vector (BitVec 16) n) :
    m.payload (.readWords d a n) words ≠ [] := by
  apply List.ne_nil_of_length_pos
  rw [Module.payload, Module.wordBytes_length, List.Vector.toList_length]
  cases m <;> simp only [Module.wordsLength] <;> omega

include hfd hs ha

theorem readWordValue_serves (h1 : 0 < n) (hn : n < 2 ^ 16)
    (hfits : Module.binary.Fits (.readWords d a n)) :
    (readWordValue network fd (some s) n .empty).Serves .binary network fd (.readWords d a n)
      (Reports fun words => .ofList (binaryWords words.toList)) := by
  have hguard : ¬ (fd ≤ 0 ∨ (some s).isNone = true ∨ (n : ℤ) ≤ 0) := by
    simp only [Option.isNone_some, Bool.false_eq_true, false_or]
    omega
  have hpack := packMcCommand_request (d := d) (a := a) (n := n) network
    (0x01, 0x04, 0x00, 0x00) n [] (by decide)
  rw [List.append_nil] at hpack
  rw [readWordValue, if_neg hguard, analysed_names hs ha, readAddressData, if_neg (by omega)]
  refine Call.Serves.exchange (coreHeader (0x01, 0x04, 0x00, 0x00) ⟨d, a, n⟩ n) hfd
    (Module.binary.frame_ne_nil network false false []) hpack (by decide) hfits ?_ ?_
  · intro front words hf hl
    have hparse := binaryResponse_parsed 0 (Module.binary.payload (.readWords d a n) words) hf hl
      .empty
    rw [attached, if_neg (Module.payload_ne_nil h1 words)] at hparse
    change (mcParseReadResponse (.ofList (binaryResponse front 0 _)) (some .empty)).bind _ = _
    rw [hparse]
    rfl
  · intro front code payload hf hl hcode
    have hparse := binaryResponse_parsed code payload hf hl .empty
    rw [if_neg hcode] at hparse
    refine ⟨attached .empty payload, ?_⟩
    change (mcParseReadResponse (.ofList (binaryResponse front code payload)) (some .empty)).bind
      _ = _
    rw [hparse]
    rfl

theorem readBoolValue_serves (h1 : 0 < n) (hn : n < 2 ^ 16)
    (hfits : Module.binary.Fits (.readPoints d a n)) :
    (readBoolValue network fd (some s) n .empty).Serves .binary network fd (.readPoints d a n)
      (Reports fun points => attached .empty
        (points.toList.map boolByte ++ List.replicate (n % 2) 0)) := by
  have hguard : ¬ (fd ≤ 0 ∨ (some s).isNone = true ∨ (n : ℤ) ≤ 0) := by
    simp only [Option.isNone_some, Bool.false_eq_true, false_or]
    omega
  have hpack := packMcCommand_request (d := d) (a := a) (n := n) network
    (0x01, 0x04, 0x01, 0x00) n [] (by decide)
  rw [List.append_nil] at hpack
  rw [readBoolValue, if_neg hguard, analysed_names hs ha]
  refine Call.Serves.exchange (coreHeader (0x01, 0x04, 0x01, 0x00) ⟨d, a, n⟩ n) hfd
    (Module.binary.frame_ne_nil network false true []) hpack (by decide) hfits ?_ ?_
  · intro front points hf hl
    have hparse := binaryResponse_parsed 0 (Module.binary.payload (.readPoints d a n) points) hf hl
      .empty
    have hlen := points.toList_length
    have hextract := extractActualBoolData_binaryBits
      (show points.toList.length + 1 < 2 ^ 31 by omega)
    rw [hlen] at hextract
    change (mcParseReadResponse (.ofList (binaryResponse front 0 _)) (some .empty)).bind _ = _
    rw [hparse]
    change (extractActualBoolData (attached .empty (binaryBits points.toList))).bind _ = _
    rw [hextract]
    rfl
  · intro front code payload hf hl hcode
    have hparse := binaryResponse_parsed code payload hf hl .empty
    rw [if_neg hcode] at hparse
    refine ⟨attached .empty payload, ?_⟩
    change (mcParseReadResponse (.ofList (binaryResponse front code payload)) (some .empty)).bind
      _ = _
    rw [hparse]
    rfl

omit hs ha in
/-- What a write makes of the response to it. -/
theorem writeExchange_serves {c : Command} {core : List Byte}
    (h0 : Module.binary.request network c ≠ [])
    (hp : packMcCommand (.ofList core) network = some (.ofList (Module.binary.request network c)))
    (hfits : Module.binary.Fits c) :
    (writeExchange network fd (.ofList core)).Serves .binary network fd c
      (Reports fun _ => ()) := by
  have hparse : ∀ (front payload : List Byte) (code : BitVec 16), front.length = 7 →
      2 + payload.length < 2 ^ 16 →
      ((mcParseWriteResponse (.ofList (binaryResponse front code payload)) none).bind
        fun result => some (result.1, ())) =
          some (if code.toNat = 0 then .success else .failed, ()) := by
    intro front payload code hf hl
    rw [mcParseWriteResponse_binaryResponse hf code hl]
    rfl
  refine Call.Serves.exchange _ hfd h0 hp (by decide) hfits ?_ ?_
  · intro front data hf hl
    exact hparse front _ 0 hf hl
  · intro front code payload hf hl hcode
    refine ⟨(), (hparse front payload code hf hl).trans ?_⟩
    rw [if_neg hcode]

theorem writeWordValue_serves (network : PlcNetworkAddress) {bytes : List Byte}
    (heven : bytes.length % 2 = 0)
    (hl : bytes.length + 12 < 2 ^ 16) (length : ℤ) :
    (writeWordValue network fd (some s) length (.ofList bytes)).Serves .binary network fd
      (.writeWords d a (wordsOf bytes)) (Reports fun _ => ()) := by
  have hwords := binaryWords_wordsOf heven
  have hlen := wordsOf_length heven
  have hpack := packMcCommand_request (d := d) (a := a) (n := bytes.length / 2) network
    (0x01, 0x14, 0x00, 0x00) length bytes hl
  rw [writeWordValue, analysed_names hs ha, writeAddressData,
    buildWriteWordCoreCommand_ofList _ (by omega), Call.ofOption_some, Call.ret_bind]
  refine writeExchange_serves hfd (Module.binary.frame_ne_nil network true false _) ?_
    (Module.fits_writeWords _ _ _ _)
  rw [hpack, Module.request, Module.frame, Module.wordBytes, hwords, hlen]
  rfl

theorem writeBoolValue_serves (network : PlcNetworkAddress) {points : List Bool} (h0 : points ≠ [])
    (hl : packedLength points.length + 12 < 2 ^ 16) :
    (writeBoolValue network fd (some s) points.length ⟨some points, points.length⟩).Serves .binary
      network fd (.writePoints d a points) (Reports fun _ => ()) := by
  have hpos := List.length_pos_iff.mpr h0
  have hlen := packedBytes_length points
  have hguard : ¬ (fd ≤ 0 ∨ (some s).isNone = true ∨ (points.length : ℤ) ≤ 0 ∨
      (some points).isNone = true) := by
    simp only [Option.isNone_some, Bool.false_eq_true, false_or, or_false]
    omega
  have hpack := packMcCommand_request (d := d) (a := a) (n := points.length) network
    (0x01, 0x14, 0x01, 0x00) points.length (packedBytes points) (by omega)
  rw [writeBoolValue, if_neg hguard, analysed_names hs ha, buildWriteBitCoreCommand_eq
    (by simp only [packedLength] at hl; omega), Call.ofOption_some, Call.ret_bind]
  exact writeExchange_serves hfd (Module.binary.frame_ne_nil network true true _) hpack
    (Module.fits_writePoints _ _ _ _)

namespace Ascii

omit hfd hs in
/-- The core command of a read. -/
theorem mcAsciiBuildReadCoreCommand_eq (hn : n < 2 ^ 16) (is_bit : Bool) :
    mcAsciiBuildReadCoreCommand ⟨d, a, n⟩ is_bit =
      .ofList (text (['0', '4', '0', '1'] ++ if is_bit then ['0', '0', '0', '1'] else
        ['0', '0', '0', '0']) ++ [d.asciiCode.1, d.asciiCode.2] ++ write d.alphabet 6 a ++
          mcAsciiWriteHexU16Be n ++ []) := by
  rw [mcAsciiBuildReadCoreCommand, asciiCoreHeader_eq _ ha, toUShort_eq hn, List.append_nil]

theorem readWordValue_serves (h1 : 0 < n) (hn : n < 2 ^ 16)
    (hfits : Module.ascii.Fits (.readWords d a n)) :
    (readWordValue network fd (some s) n .empty).Serves .ascii network fd (.readWords d a n)
      (Reports fun words => .ofList (binaryWords words.toList)) := by
  have hguard : ¬ (fd ≤ 0 ∨ (some s).isNone = true ∨ (n : ℤ) ≤ 0) := by
    simp only [Option.isNone_some, Bool.false_eq_true, false_or]
    omega
  rw [readWordValue, readDeviceValue, if_neg hguard, analysed_names hs ha,
    mcAsciiBuildReadCoreCommand_eq ha hn]
  refine Call.Serves.exchange _ hfd (Module.ascii.frame_ne_nil network false false [])
    (packMcAsciiCommand_request network ['0', '4', '0', '1'] ['0', '0', '0', '0'] rfl rfl
      (by decide)) (by decide) hfits ?_ ?_
  · intro front words hf hl
    have hlen := asciiResponse_length 0 (asciiWords words.toList) hf
    have htext := hexWords_asciiWords words.toList
    rw [← asciiResponse_drop 0 (asciiWords words.toList) hf] at htext
    have hparse := mcAsciiParseReadResponse_words (by omega)
      (asciiResponse_endCode 0 (asciiWords words.toList) hf) htext .empty
    have hne : binaryWords words.toList ≠ [] :=
      Module.payload_ne_nil (m := .binary) (d := d) (a := a) h1 words
    rw [List.flatMap_map] at hparse
    change _ = some (_, some (attached .empty (binaryWords words.toList))) at hparse
    rw [attached, if_neg hne] at hparse
    change (mcAsciiParseReadResponse (.ofList (asciiResponse front 0 (asciiWords words.toList)))
      (some .empty) false).bind _ = _
    rw [hparse]
    rfl
  · intro front code payload hf hl hcode
    have hparse := asciiResponse_error code payload hf hcode .empty false
    refine ⟨.empty, ?_⟩
    change (mcAsciiParseReadResponse (.ofList (asciiResponse front code payload)) (some .empty)
      false).bind _ = _
    rw [hparse]
    rfl

theorem readBoolValue_serves (h1 : 0 < n) (hn : n < 2 ^ 16)
    (hfits : Module.ascii.Fits (.readPoints d a n)) :
    (readBoolValue network fd (some s) n .empty).Serves .ascii network fd (.readPoints d a n)
      (Reports fun points => attached .empty (points.toList.map boolByte)) := by
  have hguard : ¬ (fd ≤ 0 ∨ (some s).isNone = true ∨ (n : ℤ) ≤ 0) := by
    simp only [Option.isNone_some, Bool.false_eq_true, false_or]
    omega
  rw [readBoolValue, readDeviceValue, if_neg hguard, analysed_names hs ha,
    mcAsciiBuildReadCoreCommand_eq ha hn]
  refine Call.Serves.exchange _ hfd (Module.ascii.frame_ne_nil network false true [])
    (packMcAsciiCommand_request network ['0', '4', '0', '1'] ['0', '0', '0', '1'] rfl rfl
      (by decide)) (by decide) hfits ?_ ?_
  · intro front points hf hl
    have hlen := asciiResponse_length 0 (asciiBits points.toList) hf
    have hparse := mcAsciiParseReadResponse_bits (by omega)
      (asciiResponse_endCode 0 (asciiBits points.toList) hf)
      (asciiResponse_drop 0 (asciiBits points.toList) hf) .empty
    change (mcAsciiParseReadResponse (.ofList (asciiResponse front 0 (asciiBits points.toList)))
      (some .empty) true).bind _ = _
    rw [hparse]
    rfl
  · intro front code payload hf hl hcode
    have hparse := asciiResponse_error code payload hf hcode .empty true
    refine ⟨.empty, ?_⟩
    change (mcAsciiParseReadResponse (.ofList (asciiResponse front code payload)) (some .empty)
      true).bind _ = _
    rw [hparse]
    rfl

omit hs ha in
theorem writeExchange_serves {c : Command} {core : List Byte}
    (h0 : Module.ascii.request network c ≠ [])
    (hp : packMcAsciiCommand (.ofList core) network =
      some (.ofList (Module.ascii.request network c)))
    (hfits : Module.ascii.Fits c) :
    (writeExchange network fd (.ofList core)).Serves .ascii network fd c
      (Reports fun _ => ()) := by
  have hparse : ∀ (front payload : List Byte) (code : BitVec 16), front.length = 14 →
      ((mcAsciiParseWriteResponse (.ofList (asciiResponse front code payload)) none).bind
        fun result => some (result.1, ())) =
          some (if code.toNat = 0 then .success else .failed, ()) := by
    intro front payload code hf
    rw [mcAsciiParseWriteResponse_none hf code]
    rfl
  refine Call.Serves.exchange _ hfd h0 hp (by decide) hfits ?_ ?_
  · intro front data hf hl
    exact hparse front _ 0 hf
  · intro front code payload hf hl hcode
    refine ⟨(), (hparse front payload code hf).trans ?_⟩
    rw [if_neg hcode]

theorem writeWordValue_serves (network : PlcNetworkAddress) {bytes : List Byte} (h0 : bytes ≠ [])
    (heven : bytes.length % 2 = 0)
    (hl : 2 * bytes.length + 24 < 2 ^ 16) :
    (writeWordValue network fd (some s) (bytes.length / 2 : ℕ) (.ofList bytes)).Serves .ascii
      network fd (.writeWords d a (wordsOf bytes)) (Reports fun _ => ()) := by
  have hpos := List.length_pos_iff.mpr h0
  have hwords := asciiWords_wordsOf heven
  have hlen := wordsOf_length heven
  have hsize := hexStrPair_flatMap_length (swapWords bytes)
  rw [swapWords_length] at hsize
  have hguard : ¬ (fd ≤ 0 ∨ (some s).isNone = true ∨ ((bytes.length / 2 : ℕ) : ℤ) ≤ 0 ∨
      (ByteArrayInfo.ofList bytes).data.isNone = true) := by
    simp only [Option.isNone_some, Bool.false_eq_true, false_or, ByteArrayInfo.ofList_data,
      or_false]
    omega
  rw [writeWordValue, if_neg hguard, analysed_names hs ha,
    mcAsciiBuildWriteWordCoreCommand_ofList _ h0 heven (by omega), Call.ofOption_some,
    Call.ret_bind]
  change (writeExchange network fd ((asciiCoreHeader (['1', '4', '0', '1'] ++
    ['0', '0', '0', '0']) _).elim _ _)).Serves _ _ _ _ _
  rw [asciiCoreHeader_eq _ ha, toUShort_eq (by omega), Option.elim_some]
  refine writeExchange_serves hfd (Module.ascii.frame_ne_nil network true false _) ?_
    (Module.fits_writeWords _ _ _ _)
  rw [Module.request, Module.frame, Module.wordBytes, hwords, hlen]
  exact packMcAsciiCommand_request network ['1', '4', '0', '1'] ['0', '0', '0', '0'] rfl rfl
    (by omega)

theorem writeBoolValue_serves (network : PlcNetworkAddress) {points : List Bool} (h0 : points ≠ [])
    (hl : points.length + 24 < 2 ^ 16) :
    (writeBoolValue network fd (some s) points.length ⟨some points, points.length⟩).Serves .ascii
      network fd (.writePoints d a points) (Reports fun _ => ()) := by
  have hpos := List.length_pos_iff.mpr h0
  have hlen : (bitText points).length = points.length := List.length_map ..
  have hguard : ¬ (fd ≤ 0 ∨ (some s).isNone = true ∨ (points.length : ℤ) ≤ 0 ∨
      (some points).isNone = true) := by
    simp only [Option.isNone_some, Bool.false_eq_true, false_or, or_false]
    omega
  rw [writeBoolValue, if_neg hguard, analysed_names hs ha,
    mcAsciiBuildWriteBitCoreCommand_ofList _ h0, Call.ofOption_some, Call.ret_bind,
    asciiCoreCommand_ofList _ rfl (List.ne_nil_of_length_pos (by omega)) (by omega)]
  change (writeExchange network fd ((asciiCoreHeader (['1', '4', '0', '1'] ++
    ['0', '0', '0', '1']) _).elim _ _)).Serves _ _ _ _ _
  rw [asciiCoreHeader_eq _ ha, toUShort_eq (by omega), Option.elim_some]
  exact writeExchange_serves hfd (Module.ascii.frame_ne_nil network true true _)
    (packMcAsciiCommand_request network ['1', '4', '0', '1'] ['0', '0', '0', '1'] rfl rfl
      (by omega)) (Module.fits_writePoints _ _ _ _)

end Ascii

end Words

end MelsecMc
