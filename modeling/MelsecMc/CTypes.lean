import Mathlib.Tactic

/-!
# C types of the library

A `byte` is an 8-bit vector. An `int` is an integer in the 32-bit range; where a
computation may leave the range, `toInt32` wraps it around. Functions that read
or write through a pointer return `Option`: `none` is an access outside the
buffer, after which C promises nothing.

Memory exhaustion is not modelled. An allocation of a nonnegative `int` number
of bytes succeeds; a negative one becomes a `size_t` beyond any heap and fails.
-/
namespace MelsecMc

abbrev Byte := BitVec 8

/-- `mc_error_code_e`. -/
inductive ErrorCode where
  | success
  | failed
  | mallocFailed
  | invalidParameter
  | parseAddressFailed
  | buildCoreCmdFailed
  | socketSendFailed
  | socketRecvFailed
  | responseHeaderFailed
  | connectionClosed
  | unkown
  deriving DecidableEq, Repr

/-- Conversion to a 32-bit `int`. -/
def toInt32 (x : ℤ) : ℤ := x.bmod (2 ^ 32)

/-- Conversion to a 16-bit `short`. -/
def toInt16 (x : ℤ) : ℤ := x.bmod (2 ^ 16)

/-- Conversion to a `ushort` or `uint16_t`. -/
def toUShort (x : ℤ) : ℕ := (x % 2 ^ 16).toNat

/-- Conversion to a `byte`. -/
def toByte (x : ℤ) : Byte := BitVec.ofInt 8 x

/-- `x >> n` of an `int`, with the sign shifted in. -/
def shiftRight (x : ℤ) (n : ℕ) : ℤ := x / 2 ^ n

def InInt32 (x : ℤ) : Prop := -2 ^ 31 ≤ x ∧ x < 2 ^ 31

instance (x : ℤ) : Decidable (InInt32 x) :=
  inferInstanceAs (Decidable (-2 ^ 31 ≤ x ∧ x < 2 ^ 31))

theorem toInt32_eq {x : ℤ} (h : InInt32 x) : toInt32 x = x := by
  obtain ⟨h1, h2⟩ := h
  simp only [toInt32, Int.bmod]
  omega

theorem toInt32_range (x : ℤ) : InInt32 (toInt32 x) := by
  simp only [InInt32, toInt32, Int.bmod]
  omega

theorem toInt32_le {x : ℤ} (h : 0 ≤ x) : toInt32 x ≤ x := by
  simp only [toInt32, Int.bmod]
  omega

/-- The sum and the product of sizes in the upper half of their range turn negative. -/
theorem toInt32_of_ge {x : ℤ} (h1 : 2 ^ 31 ≤ x) (h2 : x < 2 ^ 32) : toInt32 x = x - 2 ^ 32 := by
  simp only [toInt32, Int.bmod]
  omega

theorem toInt32_neg_iff (x : ℤ) : toInt32 x < 0 ↔ 2 ^ 31 ≤ x % 2 ^ 32 := by
  simp only [toInt32, Int.bmod]
  omega

theorem toUShort_eq {n : ℕ} (h : n < 2 ^ 16) : toUShort n = n := by
  simp only [toUShort]
  omega

theorem toUShort_lt (x : ℤ) : toUShort x < 2 ^ 16 := by
  simp only [toUShort]
  omega

/-- A count that fits its field. -/
theorem toUShort_eq_iff {x : ℤ} (h : 0 ≤ x) : (toUShort x : ℤ) = x ↔ x ≤ 65535 := by
  simp only [toUShort]
  omega

theorem toByte_toNat (x : ℤ) : (toByte x).toNat = (x % 256).toNat := by
  simp [toByte, BitVec.toNat_ofInt]

/-- `malloc` of a size computed in `int`. -/
def malloc (size : ℤ) : Bool := decide (0 ≤ size)

/-- `byte_array_info`: the content, `none` for a null pointer, and the length field. -/
structure ByteArrayInfo where
  data : Option (List Byte)
  length : ℤ
  deriving DecidableEq, Repr

/-- `bool_array_info`. -/
structure BoolArrayInfo where
  data : Option (List Bool)
  length : ℤ
  deriving DecidableEq, Repr

namespace ByteArrayInfo

/-- `{ 0 }`, what the builders return on failure. -/
def empty : ByteArrayInfo := ⟨none, 0⟩

/-- A buffer with its own length. -/
def ofList (bytes : List Byte) : ByteArrayInfo := ⟨some bytes, bytes.length⟩

@[simp] theorem ofList_data (bytes : List Byte) : (ofList bytes).data = some bytes := rfl

@[simp] theorem ofList_length (bytes : List Byte) : (ofList bytes).length = bytes.length := rfl

theorem ofList_inj {a b : List Byte} : ofList a = ofList b ↔ a = b := by
  constructor
  · intro h
    exact Option.some.inj (congrArg data h)
  · rintro rfl
    rfl

@[simp] theorem empty_data : empty.data = none := rfl

@[simp] theorem empty_length : empty.length = 0 := rfl

end ByteArrayInfo

/-- The bytes that `memcpy` of `n` bytes reads from `src`. -/
def memcpy (src : List Byte) (n : ℤ) : Option (List Byte) :=
  if 0 ≤ n ∧ n ≤ src.length then some (src.take n.toNat) else none

@[simp] theorem memcpy_length (src : List Byte) : memcpy src src.length = some src := by
  simp [memcpy]

/-- A loop whose accesses are all inside their buffers. -/
theorem mapM_some {α β : Type} {f : α → Option β} {g : α → β} {l : List α}
    (h : ∀ a ∈ l, f a = some (g a)) : l.mapM f = some (l.map g) := by
  induction l with
  | nil => rfl
  | cons a l ih =>
    rw [List.mapM_cons, h a List.mem_cons_self, ih fun b hb => h b (List.mem_cons_of_mem a hb)]
    rfl

/-- The array behind a pointer that comes with a length: the caller provides that many elements. -/
structure Elements (α : Type) (length : ℤ) where
  items : List α
  covers : length ≤ items.length

namespace Elements

variable {α : Type} {length : ℤ}

/-- The elements that are looked at. -/
def used (values : Elements α length) : List α := values.items.take length.toNat

theorem used_length (values : Elements α length) : values.used.length = length.toNat := by
  have := values.covers
  simp only [used, List.length_take]
  omega

/-- An array of just the elements that are looked at. -/
def ofList (items : List α) : Elements α items.length := ⟨items, le_rfl⟩

@[simp] theorem used_ofList (items : List α) : (ofList items).used = items := by
  simp [used, ofList]

end Elements

/-- `plc_network_address`. -/
structure PlcNetworkAddress where
  networkNumber : Byte
  stationNumber : Byte
  deriving DecidableEq, Repr

/-- A character constant. -/
def chr (c : Char) : Byte := BitVec.ofNat 8 c.toNat

/-- The characters of a string literal, without the terminator. -/
def text (s : List Char) : List Byte := s.map chr

end MelsecMc
