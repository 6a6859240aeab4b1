import MelsecMc.BinaryRequests
import MelsecMc.PackedRequests
import MelsecMc.ServedCalls

/-!
# Reads and writes of typed values

Every public function that reads or writes devices, with arguments that it accepts, as
an access. An access stands for one command, and its result is a function of the data
that the command gets. The functions compute just that: they send the request for the
command and return that result, or `mc_error_failed` where the PLC refuses.
-/
namespace MelsecMc

/-- The code of a write, and whether it was carried out. -/
def Call.written (c : Call (ErrorCode × Unit)) : Call (ErrorCode × Option Unit) :=
  c >>= fun result => .ret (result.1, if result.1 = .success then some () else none)

/-- What the functions of a module read and write. Batches are for the binary one only. -/
inductive TypedAccess (m : Module) where
  | readBool
  | readValue (T : ValueType)
  | readString (n : ℕ)
  | readBools (h : m = .binary) (n : ℕ)
  | readValues (h : m = .binary) (T : BatchType) (n : ℕ)
  | writeBool (val : Bool)
  | writeValue (T : ValueType) (val : T.Value)
  | writeString (val : List Byte)
  | writeBools (h : m = .binary) (values : List Bool)
  | writeValues (h : m = .binary) (T : BatchType) (values : List T.type.Value)

namespace TypedAccess

variable {m : Module}

@[reducible] def Result : TypedAccess m → Type
  | readBool => Bool
  | readValue T => T.Value
  | readString _ => List Byte
  | readBools _ _ => List Bool
  | readValues _ T _ => List T.type.Value
  | writeBool _ | writeValue _ _ | writeString _ | writeBools _ _ | writeValues _ _ _ => Unit

/-- The command that an access stands for. -/
def command (d : MelsecMcDataType) (a : ℕ) : TypedAccess m → Command
  | readBool => .readPoints d a 1
  | readValue T => .readWords d a T.words
  | readString n => .readWords d a ((n + n % 2) / 2)
  | readBools _ n => .readPoints d a n
  | readValues _ T n => .readWords d a (n * T.type.words)
  | writeBool val => .writePoints d a [val]
  | writeValue T val => .writeWords d a (wordsOf (T.codec.encode val))
  | writeString val => .writeWords d a (wordsOf (wordPadded val))
  | writeBools _ values => .writePoints d a values
  | writeValues _ T values => .writeWords d a (wordsOf (values.flatMap T.type.codec.encode))

/-- The values in a buffer, one behind the other. -/
def valuesOf (size n : ℕ) (bytes : List Byte) : List (BitVec (8 * size)) :=
  (List.range n).map fun i => WordBytes.ofBytes (8 * size) ((bytes.drop (i * size)).take size)

/-- What an access makes of the data that its command got. The string of the ASCII module has
zeros behind it, that of the binary module is all that was read. -/
def result (d : MelsecMcDataType) (a : ℕ) : (t : TypedAccess m) → (t.command d a).Data → t.Result
  | readBool, points => points.head
  | readValue T, words => WordBytes.ofBytes (8 * (2 * T.words)) (binaryWords words.toList)
  | readString n, words =>
    match m with
    | .binary => binaryWords words.toList
    | .ascii => (binaryWords words.toList).take n ++ List.replicate (n % 2 + 1) 0
  | readBools _ _, points => points.toList
  | readValues _ T n, words => valuesOf (2 * T.type.words) n (binaryWords words.toList)
  | writeBool _, _ | writeValue _ _, _ | writeString _, _ | writeBools _ _, _
  | writeValues _ _ _, _ => ()

/-- The function for an access. A write delivers nothing. -/
def call (network : PlcNetworkAddress) (fd : ℤ) (address : Option CString) :
    {m : Module} → (t : TypedAccess m) → Call (ErrorCode × Option t.Result)
  | .binary, readBool => mcReadBool network fd address true
  | .binary, readValue T => T.mcRead network fd address true
  | .binary, readString n => mcReadString network fd address n true
  | .binary, readBools _ n => mcReadBoolBatch network fd address n true
  | .binary, readValues _ T n => T.mcReadBatch network fd address n true
  | .binary, writeBool val => .written (mcWriteBool network fd address val)
  | .binary, writeValue T val => .written (T.mcWrite network fd address val)
  | .binary, writeString val => .written (mcWriteString network fd address val.length
      (some (.ofList val)))
  | .binary, writeBools _ values => .written (mcWriteBoolBatch network fd address values.length
      (some (.ofList values)))
  | .binary, writeValues _ T values => .written (T.mcWriteBatch network fd address values.length
      (some (.ofList values)))
  | .ascii, readBool => Ascii.mcAsciiReadBool network fd address true
  | .ascii, readValue T => T.mcAsciiRead network fd address true
  | .ascii, readString n => Ascii.mcAsciiReadString network fd address n true
  | .ascii, writeBool val => .written (Ascii.mcAsciiWriteBool network fd address val)
  | .ascii, writeValue T val => .written (T.mcAsciiWrite network fd address val)
  | .ascii, writeString val => .written (Ascii.mcAsciiWriteString network fd address val.length
      (some (.ofList val)))

/-- Something is read or written. -/
def Nonempty : TypedAccess m → Prop
  | readBool | readValue _ | writeBool _ | writeValue _ _ => True
  | readString n | readBools _ n | readValues _ _ n => 0 < n
  | writeString val => val ≠ []
  | writeBools _ values => values ≠ []
  | writeValues _ _ values => values ≠ []

end TypedAccess

section Typed

variable {m : Module} {network : PlcNetworkAddress} {fd : ℤ} {s : CString} {d : MelsecMcDataType}
  {a n : ℕ}

theorem Call.Serves.written {c : Command} {call : Call (ErrorCode × Unit)}
    (h : call.Serves m network fd c (Reports fun _ => ())) :
    call.written.Serves m network fd c (Delivers fun _ => ()) :=
  h.bind_delivers (fun _ => rfl) fun _ => rfl

/-- A single-value reader decodes the words that it got. -/
theorem readValue_serves {size : ℕ} (C : ValueCodec size)
    {readWord : ℤ → Option CString → ℤ → ByteArrayInfo → Call (ErrorCode × ByteArrayInfo)}
    {enough : ℤ → Bool} (hfd : 0 < fd) (hsize : size = 2 * n) (he : enough size = true)
    (hr : (readWord fd (some s) n .empty).Serves m network fd (.readWords d a n)
      (Reports fun words => .ofList (binaryWords words.toList))) :
    (readValue readWord n enough C fd (some s) true).Serves m network fd (.readWords d a n)
      (Delivers fun words => WordBytes.ofBytes (8 * size) (binaryWords words.toList)) := by
  have hguard : ¬ (fd ≤ 0 ∨ (some s).isNone = true ∨ ¬ true = true) := by
    simp only [Option.isNone_some, Bool.false_eq_true, not_true_eq_false, or_false]
    omega
  rw [readValue, if_neg hguard]
  refine hr.bind_delivers (fun words => ?_) fun _ => rfl
  have hlen : (binaryWords words.toList).length = size := by
    rw [binaryWords_length, words.toList_length, hsize]
  have hdecode := C.decode_eq (binaryWords words.toList) (by omega)
  rw [List.take_of_length_le (by omega)] at hdecode
  have hok : enough (ByteArrayInfo.ofList (binaryWords words.toList)).length = true := by
    rw [ByteArrayInfo.ofList_length, hlen]
    exact he
  simp only [hok, and_self, if_true, ByteArrayInfo.ofList_data, Option.bind_some, hdecode]
  rfl

/-- A single-value writer sends the bytes of its value. -/
theorem writeValue_serves {size : ℕ} (C : ValueCodec size) {v : BitVec (8 * size)}
    {writeWord : ℤ → Option CString → ℤ → ByteArrayInfo → Call (ErrorCode × Unit)} {c : Command}
    (hfd : 0 < fd)
    (hw : (writeWord fd (some s) n (.ofList (C.encode v))).Serves m network fd c
      (Reports fun _ => ())) :
    (writeValue writeWord n C fd (some s) v).written.Serves m network fd c
      (Delivers fun _ => ()) := by
  have hguard : ¬ (fd ≤ 0 ∨ (some s).isNone = true) := by
    simp only [Option.isNone_some, Bool.false_eq_true, or_false]
    omega
  rw [writeValue, if_neg hguard]
  exact hw.written

theorem attached_of_ne_nil {payload : List Byte} (h : payload ≠ []) :
    attached .empty payload = .ofList payload := if_neg h

theorem boolByte_ne_zero (p : Bool) : (boolByte p != 0) = p := by
  cases p <;> decide

section Functions

variable (hfd : 0 < fd) (hs : Names s d a) (ha : a ≤ d.maxStart)

include hfd in
theorem fd_address_guard (P : Prop) (hP : ¬ P) : ¬ (fd ≤ 0 ∨ (some s).isNone = true ∨ P) := by
  simp only [Option.isNone_some, Bool.false_eq_true, false_or]
  rintro (h | h)
  · omega
  · exact hP h

include hfd hs ha

theorem mcReadBool_serves (hfits : Module.binary.Fits (.readPoints d a 1)) :
    (mcReadBool network fd (some s) true).Serves .binary network fd (.readPoints d a 1)
      (Delivers fun points => points.head) := by
  rw [mcReadBool, if_neg (fd_address_guard hfd _ (by simp))]
  refine (readBoolValue_serves (n := 1) hfd hs ha one_pos (by decide) hfits).bind_delivers
    (fun points => ?_) fun _ => rfl
  obtain ⟨l, hl⟩ := points
  obtain ⟨p, rfl⟩ := List.length_eq_one_iff.mp hl
  cases p <;> rfl

theorem mcAsciiReadBool_serves (hfits : Module.ascii.Fits (.readPoints d a 1)) :
    (Ascii.mcAsciiReadBool network fd (some s) true).Serves .ascii network fd
      (.readPoints d a 1) (Delivers fun points => points.head) := by
  rw [Ascii.mcAsciiReadBool, if_neg (fd_address_guard hfd _ (by simp))]
  refine (Ascii.readBoolValue_serves (n := 1) hfd hs ha one_pos (by decide) hfits).bind_delivers
    (fun points => ?_) fun _ => rfl
  obtain ⟨l, hl⟩ := points
  obtain ⟨p, rfl⟩ := List.length_eq_one_iff.mp hl
  cases p <;> rfl

theorem mcReadBoolBatch_serves (h1 : 0 < n) (hn : n < 2 ^ 16)
    (hfits : Module.binary.Fits (.readPoints d a n)) :
    (mcReadBoolBatch network fd (some s) n true).Serves .binary network fd (.readPoints d a n)
      (Delivers fun points => points.toList) := by
  rw [mcReadBoolBatch, if_neg (fd_address_guard hfd _ (by simp; omega))]
  refine (readBoolValue_serves hfd hs ha h1 hn hfits).bind_delivers (fun points => ?_) fun _ => rfl
  have hlen := points.toList_length
  have hne : points.toList.map boolByte ++ List.replicate (n % 2) 0 ≠ [] := by
    apply List.ne_nil_of_length_pos
    simp [hlen, h1]
  have hcopy : memcpy (points.toList.map boolByte ++ List.replicate (n % 2) 0) n =
      some (points.toList.map boolByte) := by
    have hle : (n : ℤ) ≤ (points.toList.map boolByte ++ List.replicate (n % 2) 0).length := by
      rw [List.length_append, List.length_map, hlen]
      omega
    rw [memcpy, if_pos ⟨by omega, hle⟩, Int.toNat_natCast, List.take_left' (by simp [hlen])]
  have hmap : (points.toList.map boolByte).map (· != 0) = points.toList := by
    rw [List.map_map]
    conv_rhs => rw [← List.map_id points.toList]
    exact List.map_congr_left fun p _ => boolByte_ne_zero p
  have hlong : (ByteArrayInfo.ofList (points.toList.map boolByte ++
      List.replicate (n % 2) 0)).length ≥ n := by
    rw [ByteArrayInfo.ofList_length, List.length_append, List.length_map, hlen]
    omega
  rw [attached_of_ne_nil hne]
  simp only [hlong, and_self, if_true, ByteArrayInfo.ofList_data, Option.bind_some, hcopy,
    Call.ofOption_some, Call.ret_bind, hmap]
  rfl

omit hfd hs ha in
theorem even_tdiv : ((n + n % 2 : ℕ) : ℤ).tdiv 2 = ((n + n % 2) / 2 : ℕ) := by
  rw [Int.tdiv_eq_ediv_of_nonneg (by omega)]
  omega

omit hfd hs ha in
theorem binaryWords_toList_length (words : List.Vector (BitVec 16) ((n + n % 2) / 2)) :
    (binaryWords words.toList).length = n + n % 2 := by
  rw [binaryWords_length, words.toList_length]
  omega

theorem mcReadString_serves (h1 : 0 < n) (hn : (n + n % 2) / 2 < 2 ^ 16)
    (hfits : Module.binary.Fits (.readWords d a ((n + n % 2) / 2))) :
    (mcReadString network fd (some s) n true).Serves .binary network fd
      (.readWords d a ((n + n % 2) / 2)) (Delivers fun words => binaryWords words.toList) := by
  rw [mcReadString, if_neg (fd_address_guard hfd _ (by omega))]
  simp only [evenLength_natCast (show n < 2 ^ 31 - 1 by omega), even_tdiv]
  refine (readWordValue_serves hfd hs ha (by omega) (by omega) hfits).bind_delivers
    (fun words => ?_) fun _ => rfl
  have hlen := binaryWords_toList_length words
  have hroom : malloc ((n + n % 2 : ℕ) : ℤ) = true := decide_eq_true (by omega)
  have hcopy := memcpy_length (binaryWords words.toList)
  rw [hlen] at hcopy
  simp only [ByteArrayInfo.ofList_length, hlen, ge_iff_le, le_refl, and_self, if_true, hroom,
    ByteArrayInfo.ofList_data, Option.bind_some, hcopy, Call.ofOption_some, Call.ret_bind]
  rfl

theorem mcAsciiReadString_serves (h1 : 0 < n) (hn : (n + n % 2) / 2 < 2 ^ 16)
    (hfits : Module.ascii.Fits (.readWords d a ((n + n % 2) / 2))) :
    (Ascii.mcAsciiReadString network fd (some s) n true).Serves .ascii network fd
      (.readWords d a ((n + n % 2) / 2)) (Delivers fun words =>
        (binaryWords words.toList).take n ++ List.replicate (n % 2 + 1) 0) := by
  rw [Ascii.mcAsciiReadString, if_neg (fd_address_guard hfd _ (by simp; omega))]
  simp only [evenLength_natCast (show n < 2 ^ 31 - 1 by omega), even_tdiv]
  refine (Ascii.readWordValue_serves hfd hs ha (by omega) (by omega) hfits).bind_delivers
    (fun words => ?_) fun _ => rfl
  have hlen := binaryWords_toList_length words
  have hcopy : memcpy (binaryWords words.toList) n =
      some ((binaryWords words.toList).take n) := by
    rw [memcpy, if_pos (by omega), Int.toNat_natCast]
  have hzeros : (((n + n % 2 : ℕ) : ℤ) + 1 - n).toNat = n % 2 + 1 := by omega
  simp only [ByteArrayInfo.ofList_length, hlen, ge_iff_le, le_refl, and_self, if_true,
    ByteArrayInfo.ofList_data, Option.bind_some, hcopy, Call.ofOption_some, Call.ret_bind, hzeros]
  rfl

omit hfd hs ha in
/-- The loop of a batch reader on a buffer that holds all values. -/
theorem decode_values {size : ℕ} (C : ValueCodec size) {bytes : List Byte}
    (h : bytes.length = n * size) :
    ((List.range n).mapM fun i => C.decode (bytes.drop (i * size))) =
      some (TypedAccess.valuesOf size n bytes) := by
  refine mapM_some fun i hi => C.decode_eq _ ?_
  have hlt := List.mem_range.mp hi
  have hle := Nat.mul_le_mul_right size hlt
  rw [List.length_drop, h]
  rw [Nat.succ_mul] at hle
  omega

theorem readBatch_serves {size words : ℕ} (C : ValueCodec size) (hsize : size = 2 * words)
    (hw : 0 < words) (h1 : 0 < n) (hn : n * words < 2 ^ 16)
    (hfits : Module.binary.Fits (.readWords d a (n * words))) :
    (readBatch network (n * words : ℕ) C fd (some s) n true).Serves .binary network fd
      (.readWords d a (n * words)) (Delivers fun data =>
        TypedAccess.valuesOf size n (binaryWords data.toList)) := by
  have hpos : 0 < n * words := Nat.mul_pos h1 hw
  rw [readBatch, if_neg (fd_address_guard hfd _ (by simp; omega))]
  refine (readWordValue_serves hfd hs ha hpos hn hfits).bind_delivers (fun data => ?_) fun _ => rfl
  have hlen : (binaryWords data.toList).length = n * size := by
    rw [binaryWords_length, data.toList_length, hsize]
    ring
  have hbytes : toInt32 ((n : ℤ) * size) = (n * size : ℕ) := by
    have hcast : (n : ℤ) * size = (n * size : ℕ) := by push_cast; rfl
    have hdouble : n * size = 2 * (n * words) := by rw [hsize]; ring
    rw [hcast, toInt32_eq ⟨by omega, by omega⟩]
  have hdecode := decode_values (n := n) C hlen
  simp only [ByteArrayInfo.ofList_length, hlen, hbytes, ge_iff_le, le_refl, and_self, if_true,
    ByteArrayInfo.ofList_data, Option.bind_some, Int.toNat_natCast, hdecode, Call.ofOption_some,
    Call.ret_bind]
  rfl

theorem writeBatch_serves {size words : ℕ} (C : ValueCodec size) (hsize : size = 2 * words)
    {values : List (BitVec (8 * size))} (h0 : values ≠ [])
    (hl : values.length * size + 12 < 2 ^ 16) (points : ℤ) :
    (writeBatch network points C fd (some s) values.length
      (some (.ofList values))).written.Serves .binary network fd
        (.writeWords d a (wordsOf (values.flatMap C.encode))) (Delivers fun _ => ()) := by
  have hpos := List.length_pos_iff.mpr h0
  have hlen := C.flatMap_encode_length values
  have heven : (values.flatMap C.encode).length % 2 = 0 := by
    have hsize2 : size % 2 = 0 := by omega
    rw [hlen, Nat.mul_mod, hsize2, Nat.mul_zero, Nat.zero_mod]
  obtain ⟨hcast, hint⟩ := batch_size C (show values.length * size < 2 ^ 31 by omega)
  have hroom : malloc ((values.flatMap C.encode).length : ℤ) = true := decide_eq_true (by omega)
  have hword := writeWordValue_serves hfd hs ha network heven (by omega) points
  unfold writeBatch
  simp only [hcast, hint, hroom, le_refl, Elements.used_ofList, if_true]
  rw [if_neg (fd_address_guard hfd _ (by omega))]
  exact hword.written

omit hfd hs ha in
theorem wordPadded_even (val : List Byte) : (wordPadded val).length % 2 = 0 := by
  rw [wordPadded_length]
  omega

theorem mcWriteString_serves {val : List Byte} (hl : val.length + val.length % 2 + 12 < 2 ^ 16) :
    (mcWriteString network fd (some s) val.length (some (.ofList val))).written.Serves .binary
      network fd (.writeWords d a (wordsOf (wordPadded val))) (Delivers fun _ => ()) := by
  have hlen := wordPadded_length val
  have hroom : malloc ((val.length + val.length % 2 : ℕ) : ℤ) = true := decide_eq_true (by omega)
  have hpad : (((val.length + val.length % 2 : ℕ) : ℤ) - val.length).toNat = val.length % 2 := by
    omega
  have hword := writeWordValue_serves hfd hs ha network (wordPadded_even val)
    (by omega) ((val.length + val.length % 2) / 2 : ℕ)
  rw [ByteArrayInfo.ofList, hlen] at hword
  unfold mcWriteString
  simp only [evenLength_natCast (show val.length < 2 ^ 31 - 1 by omega), even_tdiv, hroom, hpad,
    Elements.used_ofList, if_true]
  rw [if_neg (by simpa using hfd)]
  exact hword.written

theorem mcAsciiWriteString_serves {val : List Byte} (h0 : val ≠ [])
    (hl : 2 * (val.length + val.length % 2) + 24 < 2 ^ 16) :
    (Ascii.mcAsciiWriteString network fd (some s) val.length (some (.ofList val))).written.Serves
      .ascii network fd (.writeWords d a (wordsOf (wordPadded val))) (Delivers fun _ => ()) := by
  have hpos := List.length_pos_iff.mpr h0
  have hlen := wordPadded_length val
  have hroom : malloc ((val.length + val.length % 2 : ℕ) : ℤ) = true := decide_eq_true (by omega)
  have hpad : (((val.length + val.length % 2 : ℕ) : ℤ) - val.length).toNat = val.length % 2 := by
    omega
  have hword := Ascii.writeWordValue_serves hfd hs ha network
    (List.ne_nil_of_length_pos (by omega)) (wordPadded_even val) (by omega)
  rw [ByteArrayInfo.ofList, hlen] at hword
  unfold Ascii.mcAsciiWriteString
  simp only [evenLength_natCast (show val.length < 2 ^ 31 - 1 by omega), even_tdiv, hroom, hpad,
    Elements.used_ofList, if_true]
  rw [if_neg (fd_address_guard hfd _ (by omega))]
  exact hword.written

theorem writeBoolValue_written {values : List Bool} (h0 : values ≠ [])
    (hl : packedLength values.length + 12 < 2 ^ 16) :
    (mcWriteBoolBatch network fd (some s) values.length (some (.ofList values))).written.Serves
      .binary network fd (.writePoints d a values) (Delivers fun _ => ()) := by
  have hpos := List.length_pos_iff.mpr h0
  have hbool := writeBoolValue_serves hfd hs ha network h0 hl
  unfold mcWriteBoolBatch
  simp only [Elements.used_ofList]
  rw [if_neg (fd_address_guard hfd _ (by omega))]
  exact hbool.written

end Functions

/-- The number of words that a batch function computes. -/
theorem BatchType.points_natCast (T : BatchType) (hn : n * T.type.words < 2 ^ 16) :
    T.points n = (n * T.type.words : ℕ) := by
  have hle : n ≤ n * T.type.words := Nat.le_mul_of_pos_right n (by cases T <;> decide)
  rw [T.points_eq ⟨by omega, by omega⟩, ← Nat.cast_mul, toInt32_eq ⟨by omega, by omega⟩]

end Typed

/-- The values in a buffer make whole words. -/
theorem flatMap_encode_even (T : ValueType) (values : List T.Value) :
    (values.flatMap T.codec.encode).length % 2 = 0 := by
  rw [T.codec.flatMap_encode_length, Nat.mul_mod, Nat.mul_mod_right, Nat.mul_zero, Nat.zero_mod]

namespace TypedAccess

section Served

variable {network : PlcNetworkAddress} {fd : ℤ} {s : CString} {d : MelsecMcDataType} {a : ℕ}
  (hfd : 0 < fd) (hs : Names s d a)

include hfd hs

theorem binary_serves (t : TypedAccess .binary) (hsend : (t.command d a).Sendable .binary)
    (hfits : Module.binary.Fits (t.command d a)) (h0 : t.Nonempty) :
    (t.call network fd (some s)).Serves .binary network fd (t.command d a)
      (Delivers (t.result d a)) := by
  cases t with
  | readBool => exact mcReadBool_serves hfd hs hsend.2.1 hfits
  | readValue T =>
    obtain ⟨-, ha, hn⟩ := hsend
    obtain ⟨enough, hread, he⟩ := T.mcRead_eq network fd (some s) true
    have hpos : 0 < T.words := by cases T <;> decide
    change (T.mcRead network fd (some s) true).Serves _ _ _ _ _
    rw [hread]
    exact readValue_serves T.codec hfd rfl he (readWordValue_serves hfd hs ha hpos hn hfits)
  | readString n => exact mcReadString_serves hfd hs hsend.2.1 h0 hsend.2.2 hfits
  | readBools h n => exact mcReadBoolBatch_serves hfd hs hsend.2.1 h0 hsend.2.2 hfits
  | readValues h T n =>
    obtain ⟨-, ha, hn⟩ := hsend
    have hwords : 0 < T.type.words := by cases T <;> decide
    change (T.mcReadBatch network fd (some s) n true).Serves _ _ _ _ _
    rw [T.mcReadBatch_eq, T.points_natCast hn]
    exact readBatch_serves hfd hs ha T.type.codec rfl hwords h0 hn hfits
  | writeBool val =>
    obtain ⟨-, ha, -, hl, -⟩ := hsend
    have hbool := writeBoolValue_serves hfd hs ha network (List.cons_ne_nil val []) hl
    change (Call.written (mcWriteBool network fd (some s) val)).Serves _ _ _ _ _
    rw [mcWriteBool, if_neg (by simpa using hfd)]
    exact hbool.written
  | writeValue T val =>
    obtain ⟨-, ha, hl⟩ := hsend
    change (Call.written (T.mcWrite network fd (some s) val)).Serves _ _ _ _ _
    rw [T.mcWrite_eq]
    have hlen := T.codec.encode_length val
    have hwords := T.words_le
    exact writeValue_serves T.codec hfd
      (writeWordValue_serves hfd hs ha network (by omega) (by omega) _)
  | writeString val =>
    obtain ⟨-, ha, hl⟩ := hsend
    rw [wordsOf_length (wordPadded_even val), wordPadded_length] at hl
    simp only [Module.wordsLength, Module.coreLength] at hl
    exact mcWriteString_serves hfd hs ha (by omega)
  | writeBools h values =>
    obtain ⟨-, ha, -, hl, -⟩ := hsend
    exact writeBoolValue_written hfd hs ha h0 hl
  | writeValues h T values =>
    obtain ⟨-, ha, hl⟩ := hsend
    change (Call.written (T.mcWriteBatch network fd (some s) values.length
      (some (.ofList values)))).Serves _ _ _ _ _
    rw [T.mcWriteBatch_eq]
    have heven := flatMap_encode_even T.type values
    rw [wordsOf_length heven, T.type.codec.flatMap_encode_length] at hl
    rw [T.type.codec.flatMap_encode_length] at heven
    simp only [Module.wordsLength, Module.coreLength] at hl
    exact writeBatch_serves hfd hs ha T.type.codec rfl h0 (by omega) _

theorem ascii_serves (t : TypedAccess .ascii) (hsend : (t.command d a).Sendable .ascii)
    (hfits : Module.ascii.Fits (t.command d a)) (h0 : t.Nonempty) :
    (t.call network fd (some s)).Serves .ascii network fd (t.command d a)
      (Delivers (t.result d a)) := by
  cases t with
  | readBool => exact mcAsciiReadBool_serves hfd hs hsend.2.1 hfits
  | readValue T =>
    obtain ⟨-, ha, hn⟩ := hsend
    have hpos : 0 < T.words := by cases T <;> decide
    change (T.mcAsciiRead network fd (some s) true).Serves _ _ _ _ _
    rw [T.mcAsciiRead_eq]
    exact readValue_serves T.codec hfd rfl (decide_eq_true le_rfl)
      (Ascii.readWordValue_serves hfd hs ha hpos hn hfits)
  | readString n => exact mcAsciiReadString_serves hfd hs hsend.2.1 h0 hsend.2.2 hfits
  | writeBool val =>
    obtain ⟨-, ha, -, hl, -⟩ := hsend
    have hbool := Ascii.writeBoolValue_serves hfd hs ha network
      (List.cons_ne_nil val []) hl
    change (Call.written (Ascii.mcAsciiWriteBool network fd (some s) val)).Serves _ _ _ _ _
    rw [Ascii.mcAsciiWriteBool, if_neg (by simpa using hfd)]
    exact hbool.written
  | writeValue T val =>
    obtain ⟨-, ha, hl⟩ := hsend
    have hlen := T.codec.encode_length val
    have hwords := T.words_le
    have hpos : 0 < T.words := by cases T <;> decide
    have hhalf : (T.codec.encode val).length / 2 = T.words := by omega
    have hword := Ascii.writeWordValue_serves hfd hs ha network
      (List.ne_nil_of_length_pos (l := T.codec.encode val) (by omega)) (by omega) (by omega)
    rw [hhalf] at hword
    change (Call.written (T.mcAsciiWrite network fd (some s) val)).Serves _ _ _ _ _
    rw [T.mcAsciiWrite_eq]
    exact writeValue_serves T.codec hfd hword
  | writeString val =>
    obtain ⟨-, ha, hl⟩ := hsend
    rw [wordsOf_length (wordPadded_even val), wordPadded_length] at hl
    simp only [Module.wordsLength, Module.coreLength] at hl
    exact mcAsciiWriteString_serves hfd hs ha h0 (by omega)
  | readBools h | readValues h | writeBools h | writeValues h => cases h

/-- The call of an access is served with its command. -/
theorem call_serves {m : Module} (t : TypedAccess m) (hsend : (t.command d a).Sendable m)
    (hfits : m.Fits (t.command d a)) (h0 : t.Nonempty) :
    (t.call network fd (some s)).Serves m network fd (t.command d a)
      (Delivers (t.result d a)) := by
  cases m with
  | binary => exact t.binary_serves hfd hs hsend hfits h0
  | ascii => exact t.ascii_serves hfd hs hsend hfits h0

end Served

theorem string_length_lt {m : Module} {d : MelsecMcDataType} {a : ℕ} {val : List Byte}
    (h : (Command.writeWords d a (wordsOf (wordPadded val))).Sendable m) :
    val.length < 2 ^ 16 := by
  have hl := h.2.2
  rw [wordsOf_length (wordPadded_even val), wordPadded_length] at hl
  cases m <;> simp only [Module.wordsLength, Module.coreLength] at hl <;> omega

section Once

variable (network : PlcNetworkAddress) (fd : ℤ) (address : Option CString) {d : MelsecMcDataType}
  {a : ℕ}

theorem binary_once (t : TypedAccess .binary) (hsend : (t.command d a).Sendable .binary) :
    (t.call network fd address).Once := by
  have hread : ∀ access : Access, (access.mc network fd address).Once := fun access =>
    (access.mc_parts address).once network
  have hbatch : ∀ access : BatchAccess, (access.mc network fd address).Once := fun access =>
    (access.mc_parts address).once network
  cases t with
  | readBool => exact .of_bind (hread (.readBool true))
  | readValue T => exact .of_bind (hread (.readValue T true))
  | readString n =>
    have hn := hsend.2.2
    exact .of_bind (hread (.readString n ⟨by omega, by omega⟩ true))
  | readBools h n =>
    have hn := hsend.2.2
    exact .of_bind (hbatch (.readBool n ⟨by omega, by omega⟩ true))
  | readValues h T n =>
    have hn := hsend.2.2
    have hle : n ≤ n * T.type.words := Nat.le_mul_of_pos_right n T.type.words_pos
    exact .of_bind (hbatch (.read T n ⟨by omega, by omega⟩ true))
  | writeBool val => exact .bind (.of_bind (hread (.writeBool val))) fun _ => .ret _
  | writeValue T val => exact .bind (.of_bind (hread (.writeValue T val))) fun _ => .ret _
  | writeString val =>
    have hlen := string_length_lt hsend
    exact .bind (.of_bind (hread (.writeString val.length ⟨by omega, by omega⟩
      (some (.ofList val))))) fun _ => .ret _
  | writeBools h values =>
    have hl := hsend.2.2.1
    exact .bind (.of_bind (hbatch (.writeBool values.length ⟨by omega, by omega⟩
      (some (.ofList values))))) fun _ => .ret _
  | writeValues h T values =>
    have hl := hsend.2.2
    rw [wordsOf_length (flatMap_encode_even T.type values), T.type.codec.flatMap_encode_length]
      at hl
    have hle : values.length ≤ values.length * (2 * T.type.words) :=
      Nat.le_mul_of_pos_right _ (by have := T.type.words_pos; omega)
    simp only [Module.wordsLength, Module.coreLength] at hl
    exact .bind (.of_bind (hbatch (.write T values.length ⟨by omega, by omega⟩
      (some (.ofList values))))) fun _ => .ret _

theorem ascii_once (t : TypedAccess .ascii) (hsend : (t.command d a).Sendable .ascii) :
    (t.call network fd address).Once := by
  have haccess : ∀ access : Access, (access.mcAscii network fd address).Once := fun access =>
    (access.mcAscii_parts address).once network
  cases t with
  | readBool => exact .of_bind (haccess (.readBool true))
  | readValue T => exact .of_bind (haccess (.readValue T true))
  | readString n =>
    have hn := hsend.2.2
    exact .of_bind (haccess (.readString n ⟨by omega, by omega⟩ true))
  | writeBool val => exact .bind (.of_bind (haccess (.writeBool val))) fun _ => .ret _
  | writeValue T val => exact .bind (.of_bind (haccess (.writeValue T val))) fun _ => .ret _
  | writeString val =>
    have hlen := string_length_lt hsend
    exact .bind (.of_bind (haccess (.writeString val.length ⟨by omega, by omega⟩
      (some (.ofList val))))) fun _ => .ret _
  | readBools h | readValues h | writeBools h | writeValues h => cases h

/-- Behind its request, the call of an access makes no further one. -/
theorem call_once {m : Module} (t : TypedAccess m) (hsend : (t.command d a).Sendable m) :
    (t.call network fd address).Once := by
  cases m with
  | binary => exact t.binary_once network fd address hsend
  | ascii => exact t.ascii_once network fd address hsend

end Once

end TypedAccess

end MelsecMc
