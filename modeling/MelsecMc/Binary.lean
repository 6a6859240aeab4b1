import MelsecMc.Helper
import MelsecMc.Receive

/-!
# Binary 3E frames (melsec_mc_bin.c)

A binary frame carries its length as a little-endian number in bytes 7 and 8:
the number of bytes after the field. The request header has the network and
station number; the response has its end code in bytes 9 and 10.
-/
namespace MelsecMc

open FramedStream

/-- `MIN_RESPONSE_HEADER_SIZE`. -/
def minResponseHeaderSize : ℕ := 11

/-- The eleven bytes in front of the core command, for a command of `cmd_len` bytes. -/
def mcCommandHeader (network : PlcNetworkAddress) (cmd_len : ℤ) : List Byte :=
  [0x50, 0x00, network.networkNumber, 0xFF, 0xFF, 0x03, network.stationNumber,
    toByte (cmd_len - 9), toByte (shiftRight (cmd_len - 9) 8), 0x0A, 0x00]

@[simp] theorem mcCommandHeader_length (network : PlcNetworkAddress) (cmd_len : ℤ) :
    (mcCommandHeader network cmd_len).length = 11 := rfl

/-- `pack_mc_command`. -/
def packMcCommand (mc_core : ByteArrayInfo) (network : PlcNetworkAddress) :
    Option ByteArrayInfo :=
  match mc_core.data with
  | none => some .empty
  | some core =>
    if mc_core.length ≤ 0 then some .empty
    else
      let cmd_len := toInt32 (mc_core.length + 11)
      if malloc cmd_len then
        (memcpy core mc_core.length).map fun core =>
          ⟨some (mcCommandHeader network cmd_len ++ core), cmd_len⟩
      else some .empty

/-- The two array elements for a byte: bit 4, then bit 0. -/
def actualBools (b : Byte) : List Byte :=
  [if b &&& 0x10 = 0x10 then 0x01 else 0x00, if b &&& 0x01 = 0x01 then 0x01 else 0x00]

/-- `extract_actual_bool_data`. -/
def extractActualBoolData (response : ByteArrayInfo) : Option ByteArrayInfo :=
  match response.data with
  | none => some response
  | some data =>
    if response.length ≤ 0 then some response
    else
      let resp_len := toInt32 (response.length * 2)
      if malloc resp_len then
        (memcpy data response.length).map fun data => ⟨some (data.flatMap actualBools), resp_len⟩
      else some response

/-- `low | high << 8`. -/
def le16 (low high : Byte) : ℕ := low.toNat ||| (high.toNat <<< 8)

theorem le16_eq (low high : Byte) : le16 low high = low.toNat + 256 * high.toNat := by
  have hl : low.toNat < 2 ^ 8 := low.isLt
  have hh := Nat.shiftLeft_add_eq_or_of_lt hl high.toNat
  rw [le16, Nat.or_comm, ← hh, Nat.shiftLeft_eq]
  omega

/-- The size that `mc_read_response` computes from the header, `none` where it refuses it. -/
def mcResponseTotalLen (header : List Byte) : Option ℕ :=
  let payload_with_end_code := le16 (header.getD 7 0) (header.getD 8 0)
  if payload_with_end_code < 2 then none
  else
    let total_len := payload_with_end_code + 9
    if total_len < minResponseHeaderSize then none else some total_len

def binaryResponseFraming : Framing Byte where
  header := minResponseHeaderSize
  total := mcResponseTotalLen
  header_le := by
    intro front n h
    simp only [mcResponseTotalLen] at h
    split_ifs at h
    have := Option.some.inj h
    omega

/-- A request ends where the length field of its header says. -/
def binaryRequestFraming : Framing Byte where
  header := 9
  total header := some (le16 (header.getD 7 0) (header.getD 8 0) + 9)
  header_le := by
    intro front n h
    have := Option.some.inj h
    omega

/-- When the rest of a response does not arrive, the buffer is released and the pointer to it
stays in the caller's descriptor. -/
def binaryProtocol : Protocol where
  request := binaryRequestFraming
  response := binaryResponseFraming
  abandoned _ := ⟨.released, 0⟩
  request_header := by decide
  response_header := by decide

/-- `mc_read_response`. -/
def mcReadResponse (fd : ℤ) (response : Response) (read_count : ℤ) (events : List Event)
    (stream : List Byte) : Received :=
  binaryProtocol.readResponse fd response read_count events stream

/-- What is sent for a core command. -/
theorem packMcCommand_ofList (network : PlcNetworkAddress) (core : List Byte) (h0 : core ≠ [])
    (h : core.length + 11 < 2 ^ 31) :
    packMcCommand (.ofList core) network =
      some (.ofList (mcCommandHeader network (core.length + 11) ++ core)) := by
  have hpos := List.length_pos_iff.mpr h0
  have hlen : toInt32 ((core.length : ℤ) + 11) = core.length + 11 :=
    toInt32_eq ⟨by omega, by omega⟩
  simp only [packMcCommand, ByteArrayInfo.ofList_data, ByteArrayInfo.ofList_length, hlen,
    memcpy_length, malloc, Option.map_some]
  rw [if_neg (by omega), if_pos (by simp; omega)]
  simp only [ByteArrayInfo.ofList, List.length_append, mcCommandHeader_length]
  push_cast
  rw [add_comm 11]

end MelsecMc
