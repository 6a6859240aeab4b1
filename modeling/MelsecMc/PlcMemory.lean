import MelsecMc.DeviceCommands
import MelsecMc.ServedThreads

/-!
# PLCs that keep what is written to them

A PLC on the wire implements an object when it takes the commands out of the requests
and puts the answers of the object into its responses. The object keeps what is written
when later commands that write other words and points do not change what a read gets.
A memory of words and points does, and can be put on the wire of either module.
-/
namespace MelsecMc

open FramedStream

/-- The PLC carries out the commands that it is sent as `O` does. -/
structure Device.Implements {m : Module} {τ σ : Type*} (D : Device m.protocol τ)
    (O : DeviceObject σ) (abs : τ → σ) : Prop where
  encodes : ∀ fd frame c s, m.command frame = some c → m.Fits c →
    m.Encodes (O.apply c (abs s)).1 (D.serve fd frame s).1
  state : ∀ fd frame c s, m.command frame = some c → m.Fits c →
    abs (D.serve fd frame s).2 = (O.apply c (abs s)).2

section Wire

/-- The front of a response, up to its length field. -/
def Module.front : Module → List Byte
  | .binary => [0xD0, 0x00, 0x00, 0xFF, 0xFF, 0x03, 0x00]
  | .ascii => text ['D', '0', '0', '0', '0', '0', 'F', 'F', '0', '3', 'F', 'F', '0', '0']

theorem Module.front_length (m : Module) : m.front.length = m.frontLength := by
  cases m <;> decide

/-- The refusal of a request that is not understood, or asks for more than fits a response. -/
def Module.refusal (m : Module) : List Byte := m.response m.front 0xC059 []

/-- A response with the answer. -/
def Module.reply (m : Module) {c : Command} : c.Answer → List Byte
  | .ok data =>
    if m.endCodeLength + (m.payload c data).length < 2 ^ 16 then
      m.response m.front 0 (m.payload c data)
    else m.refusal
  | .error code => m.response m.front code.1 []

theorem Module.endCodeLength_lt (m : Module) :
    m.endCodeLength + ([] : List Byte).length < 2 ^ 16 := by
  cases m <;> decide

theorem Module.refusal_isFrame (m : Module) : IsFrame m.protocol.response m.refusal :=
  m.response_isFrame _ m.front_length m.endCodeLength_lt

theorem Module.reply_isFrame (m : Module) {c : Command} (answer : c.Answer) :
    IsFrame m.protocol.response (m.reply answer) := by
  cases answer with
  | ok data =>
    rw [Module.reply]
    split_ifs with h
    · exact m.response_isFrame 0 m.front_length h
    · exact m.refusal_isFrame
  | error code => exact m.response_isFrame _ m.front_length m.endCodeLength_lt

theorem Module.reply_encodes {m : Module} {c : Command} (h : m.Fits c) (answer : c.Answer) :
    m.Encodes answer (m.reply answer) := by
  cases answer with
  | ok data =>
    rw [Module.reply, if_pos (h data)]
    exact ⟨m.front, m.front_length, rfl⟩
  | error code => exact ⟨m.front, [], m.front_length, m.endCodeLength_lt, rfl⟩

variable {σ : Type*} (O : DeviceObject σ) (m : Module)

/-- A PLC that carries the commands out as `O` does. -/
def DeviceObject.device : Device m.protocol σ where
  serve _ frame s :=
    match m.command frame with
    | none => (m.refusal, s)
    | some c => (m.reply (O.apply c s).1, (O.apply c s).2)
  isFrame fd frame s := by
    cases m.command frame with
    | none => exact m.refusal_isFrame
    | some c => exact m.reply_isFrame _

theorem DeviceObject.device_implements : (O.device m).Implements O id where
  encodes fd frame c s h hfits := by
    simp only [DeviceObject.device, h]
    exact Module.reply_encodes hfits _
  state fd frame c s h _ := by
    simp only [DeviceObject.device, h]
    rfl

end Wire

/-- Two ranges without a common cell. -/
def Apart (a n b k : ℕ) : Prop := a + n ≤ b ∨ b + k ≤ a

/-- The first command writes nothing of what the second one wrote. -/
def Command.Spares : Command → Command → Prop
  | readPoints _ _ _, _ | readWords _ _ _, _ => True
  | writePoints d a points, writePoints d' a' points' =>
    d = d' → Apart a points.length a' points'.length
  | writeWords d a words, writeWords d' a' words' => d = d' → Apart a words.length a' words'.length
  | writePoints d _ _, writeWords d' _ _ | writeWords d _ _, writePoints d' _ _ => d ≠ d'
  | writePoints _ _ _, _ | writeWords _ _ _, _ => True

section Objects

variable {σ : Type*}

/-- What the command wrote is what a read gets. -/
def DeviceObject.Holds (O : DeviceObject σ) : Command → σ → Prop
  | .writePoints d a points, s =>
    ∀ n (h : points.length = n), (O.apply (.readPoints d a n) s).1 = .ok ⟨points, h⟩
  | .writeWords d a words, s =>
    ∀ n (h : words.length = n), (O.apply (.readWords d a n) s).1 = .ok ⟨words, h⟩
  | .readPoints _ _ _, _ | .readWords _ _ _, _ => True

/-- What was written stays until it is written again. -/
structure DeviceObject.Keeps (O : DeviceObject σ) : Prop where
  written : ∀ w s data, (O.apply w s).1 = .ok data → O.Holds w (O.apply w s).2
  spared : ∀ w c s, c.Spares w → O.Holds w s → O.Holds w (O.apply c s).2

end Objects

section Cells

variable {δ α : Type*} [DecidableEq δ] (cells : δ → ℕ → α) (d : δ) (a : ℕ)

/-- The `n` cells of `d` from `a` on. -/
def readCells (n : ℕ) : List.Vector α n := .ofFn fun i => cells d (a + i)

/-- The cells with those of `d` from `a` on overwritten. -/
def writeCells (xs : List α) : δ → ℕ → α := fun e i =>
  if e = d ∧ a ≤ i then (xs[i - a]?).getD (cells e i) else cells e i

theorem readCells_writeCells {n : ℕ} (xs : List α) (h : xs.length = n) :
    readCells (writeCells cells d a xs) d a n = ⟨xs, h⟩ := by
  refine List.Vector.ext fun i => ?_
  have hi : i.val < xs.length := h.symm ▸ i.isLt
  rw [readCells, List.Vector.get_ofFn, writeCells, if_pos ⟨rfl, Nat.le_add_right a i⟩,
    Nat.add_sub_cancel_left, List.getElem?_eq_getElem hi]
  rfl

/-- Cells apart from those that are written stay. -/
theorem readCells_writeCells_of_apart (xs : List α) {d' : δ} {b n : ℕ}
    (h : d = d' → Apart a xs.length b n) :
    readCells (writeCells cells d a xs) d' b n = readCells cells d' b n := by
  refine List.Vector.ext fun i => ?_
  rw [readCells, readCells, List.Vector.get_ofFn, List.Vector.get_ofFn, writeCells]
  split_ifs with hin
  · have hi := i.isLt
    have hout : xs.length ≤ b + i - a := by
      rcases h hin.1.symm with h | h <;> omega
    rw [List.getElem?_eq_none hout, Option.getD_none]
  · rfl

end Cells

/-- Words and points of every device. -/
structure Memory where
  words : MelsecMcDataType → ℕ → BitVec 16
  points : MelsecMcDataType → ℕ → Bool

namespace Memory

def zero : Memory := ⟨fun _ _ => 0, fun _ _ => false⟩

/-- A memory that carries every command out. -/
def object : DeviceObject Memory where
  apply
    | .readPoints d a n, s => (.ok (readCells s.points d a n), s)
    | .readWords d a n, s => (.ok (readCells s.words d a n), s)
    | .writePoints d a points, s => (.ok (), { s with points := writeCells s.points d a points })
    | .writeWords d a words, s => (.ok (), { s with words := writeCells s.words d a words })

theorem object_keeps : object.Keeps where
  written w s data _ := by
    cases w with
    | readPoints d a n | readWords d a n => trivial
    | writePoints d a points =>
      exact fun n h => congrArg Except.ok (readCells_writeCells s.points d a points h)
    | writeWords d a words =>
      exact fun n h => congrArg Except.ok (readCells_writeCells s.words d a words h)
  spared w c s hspares h := by
    cases w with
    | readPoints d a n | readWords d a n => trivial
    | writePoints d a points =>
      cases c with
      | readPoints d' b n | readWords d' b n | writeWords d' b words => exact h
      | writePoints d' b points' =>
        intro n hn
        rw [← h n hn]
        exact congrArg Except.ok
          (readCells_writeCells_of_apart s.points d' b points' (hn ▸ hspares))
    | writeWords d a words =>
      cases c with
      | readPoints d' b n | readWords d' b n | writePoints d' b points => exact h
      | writeWords d' b words' =>
        intro n hn
        rw [← h n hn]
        exact congrArg Except.ok (readCells_writeCells_of_apart s.words d' b words' (hn ▸ hspares))

end Memory

end MelsecMc
