import MelsecMc.ReadBack

/-!
# Batches and their elements

A batch is one call for values that stand one behind the other, and there is a
function for each of the values alone. On a PLC with a memory both are the same: the
batch gets the values that the single calls get, and leaves the memory that they leave
in whatever order they are made.
-/
namespace MelsecMc

open WordBytes

section Blocks

variable {α β : Type*} {f : α → List β} {w : ℕ} (hf : ∀ x, (f x).length = w)

include hf

/-- Blocks of one width, one behind the other. -/
theorem drop_flatMap (xs : List α) (i : ℕ) :
    (xs.flatMap f).drop (i * w) = (xs.drop i).flatMap f := by
  induction i generalizing xs with
  | zero => simp
  | succ i ih =>
    cases xs with
    | nil => simp
    | cons x xs =>
      have hwidth : (i + 1) * w = (f x).length + i * w := by
        rw [hf x]
        ring
      rw [List.flatMap_cons, hwidth, ← List.drop_drop, List.drop_left, ih, List.drop_succ_cons]

theorem take_flatMap (xs : List α) (n : ℕ) :
    (xs.flatMap f).take (n * w) = (xs.take n).flatMap f := by
  induction n generalizing xs with
  | zero => simp
  | succ n ih =>
    cases xs with
    | nil => simp
    | cons x xs =>
      have hwidth : (n + 1) * w = (f x).length + n * w := by
        rw [hf x]
        ring
      rw [List.flatMap_cons, List.take_succ_cons, List.flatMap_cons, ← ih, hwidth,
        List.take_length_add_append]

theorem getElem?_flatMap {k : ℕ} (hk : k < w) (xs : List α) (i : ℕ) :
    (xs.flatMap f)[i * w + k]? = xs[i]?.bind fun x => (f x)[k]? := by
  have hhead : xs[i]? = (xs.drop i)[0]? := by rw [List.getElem?_drop, Nat.add_zero]
  rw [← List.getElem?_drop, drop_flatMap hf, hhead]
  cases xs.drop i with
  | nil => rfl
  | cons x ys =>
    rw [List.flatMap_cons, List.getElem?_append_left (by rw [hf]; exact hk)]
    rfl

end Blocks

theorem wordsOf_append {xs ys : List Byte} (hx : xs.length % 2 = 0) (hy : ys.length % 2 = 0) :
    wordsOf (xs ++ ys) = wordsOf xs ++ wordsOf ys := by
  induction xs using leWords.induct with
  | case1 => rfl
  | case2 b₀ b₁ xs ih =>
    have hx' := even_tail hx
    rw [wordsOf_cons hx, List.cons_append, List.cons_append, wordsOf_cons (by
      simp only [List.length_cons, List.length_append] at hx ⊢
      omega), ih hx']
    rfl
  | case3 xs h0 h2 =>
    obtain rfl | ⟨b, rfl⟩ := eq_nil_or_singleton h2
    · exact absurd rfl h0
    · simp at hx

theorem wordsOf_flatMap {α : Type*} {f : α → List Byte} (hf : ∀ x, (f x).length % 2 = 0)
    (xs : List α) : wordsOf (xs.flatMap f) = xs.flatMap fun x => wordsOf (f x) := by
  have heven : ∀ xs : List α, (xs.flatMap f).length % 2 = 0 := by
    intro xs
    induction xs with
    | nil => rfl
    | cons x xs ih =>
      have hx := hf x
      rw [List.flatMap_cons, List.length_append]
      omega
  induction xs with
  | nil => rfl
  | cons x xs ih =>
    rw [List.flatMap_cons, wordsOf_append (hf x) (heven xs), ih]
    rfl

section Cells

/-- A cell of a memory. -/
inductive Cell where
  | word (d : MelsecMcDataType) (i : ℕ)
  | point (d : MelsecMcDataType) (i : ℕ)

def Memory.Agrees (s t : Memory) : Cell → Prop
  | .word d i => s.words d i = t.words d i
  | .point d i => s.points d i = t.points d i

theorem Memory.eq_of_agrees {s t : Memory} (h : ∀ cell, s.Agrees t cell) : s = t := by
  obtain ⟨words, points⟩ := s
  obtain ⟨words', points'⟩ := t
  obtain rfl : words = words' := funext fun d => funext fun i => h (.word d i)
  obtain rfl : points = points' := funext fun d => funext fun i => h (.point d i)
  rfl

theorem Memory.Agrees.trans {s t u : Memory} {cell : Cell} (h : s.Agrees t cell)
    (h' : t.Agrees u cell) : s.Agrees u cell := by
  cases cell with
  | word d i => exact Eq.trans h h'
  | point d i => exact Eq.trans h h'

/-- The cells that a command writes. -/
def Command.Writes : Command → Cell → Prop
  | writeWords d a words, cell => ∃ k < words.length, cell = .word d (a + k)
  | writePoints d a points, cell => ∃ k < points.length, cell = .point d (a + k)
  | readWords _ _ _, _ | readPoints _ _ _, _ => False

/-- The memory after a command. -/
def Memory.after (s : Memory) (c : Command) : Memory := (object.apply c s).2

section

variable {δ α : Type*} [DecidableEq δ] (cells : δ → ℕ → α) (d : δ) (a : ℕ) (xs : List α)

theorem writeCells_inside {k : ℕ} (hk : k < xs.length) :
    writeCells cells d a xs d (a + k) = xs[k] := by
  rw [writeCells, if_pos ⟨rfl, Nat.le_add_right a k⟩, Nat.add_sub_cancel_left,
    List.getElem?_eq_getElem hk, Option.getD_some]

theorem writeCells_outside {e : δ} {i : ℕ} (h : ∀ k < xs.length, ¬ (e = d ∧ i = a + k)) :
    writeCells cells d a xs e i = cells e i := by
  rw [writeCells]
  split_ifs with hin
  · have hout : xs.length ≤ i - a := by
      by_contra hlt
      exact h (i - a) (by omega) ⟨hin.1, by omega⟩
    rw [List.getElem?_eq_none hout, Option.getD_none]
  · rfl

end

/-- What the memory answers. -/
def Memory.data (s : Memory) : (c : Command) → c.Data
  | .readPoints d a n => readCells s.points d a n
  | .readWords d a n => readCells s.words d a n
  | .writePoints _ _ _ | .writeWords _ _ _ => ()

theorem Memory.apply_fst (c : Command) (s : Memory) : (object.apply c s).1 = .ok (s.data c) := by
  cases c <;> rfl

theorem readCells_slice {δ α : Type*} (cells : δ → ℕ → α) (d : δ) (a : ℕ) {n k l : ℕ}
    (h : k + l ≤ n) :
    ((readCells cells d a n).toList.drop k).take l = (readCells cells d (a + k) l).toList := by
  refine List.ext_getElem (by simp; omega) fun i hi hi' => ?_
  simp [readCells, Nat.add_assoc]

/-- A command leaves the cells that it does not write. -/
theorem Memory.after_agrees {c : Command} {cell : Cell} (h : ¬ c.Writes cell) (s : Memory) :
    (s.after c).Agrees s cell := by
  cases c with
  | readPoints d a n | readWords d a n => cases cell <;> rfl
  | writeWords d a words =>
    cases cell with
    | word e i =>
      refine writeCells_outside s.words d a words fun k hk heq => h ⟨k, hk, ?_⟩
      rw [heq.1, heq.2]
    | point e i => rfl
  | writePoints d a points =>
    cases cell with
    | word e i => rfl
    | point e i =>
      refine writeCells_outside s.points d a points fun k hk heq => h ⟨k, hk, ?_⟩
      rw [heq.1, heq.2]

/-- The second command writes a part of what the first one does, with the same content. -/
def Command.Part (offset : ℕ) : Command → Command → Prop
  | writeWords d a words, writeWords d' a' words' =>
    d' = d ∧ a' = a + offset ∧ ∀ k < words'.length, words[offset + k]? = words'[k]?
  | writePoints d a points, writePoints d' a' points' =>
    d' = d ∧ a' = a + offset ∧ ∀ k < points'.length, points[offset + k]? = points'[k]?
  | readWords _ _ _, readWords _ _ _ | readPoints _ _ _, readPoints _ _ _ => True
  | _, _ => False

theorem writeCells_part {δ α : Type*} [DecidableEq δ] (cells cells' : δ → ℕ → α) (d : δ) (a : ℕ)
    {xs ys : List α} {offset k : ℕ} (hpart : ∀ k < ys.length, xs[offset + k]? = ys[k]?)
    (hk : k < ys.length) :
    offset + k < xs.length ∧
      writeCells cells d (a + offset) ys d (a + offset + k) =
        writeCells cells' d a xs d (a + (offset + k)) := by
  have hxs := hpart k hk
  rw [List.getElem?_eq_getElem hk] at hxs
  obtain ⟨hlt, hget⟩ := List.getElem?_eq_some_iff.mp hxs
  refine ⟨hlt, ?_⟩
  rw [writeCells_inside _ _ _ _ hk, writeCells_inside _ _ _ _ hlt, hget]

/-- Where the part writes, it leaves what the whole leaves. -/
theorem Command.Part.agrees {offset : ℕ} {c c' : Command} (h : c.Part offset c') {cell : Cell}
    (hw : c'.Writes cell) (s u : Memory) :
    c.Writes cell ∧ (u.after c').Agrees (s.after c) cell := by
  cases c' with
  | readPoints d a n | readWords d a n => exact hw.elim
  | writeWords d' a' words' =>
    cases c with
    | readPoints d a n | readWords d a n | writePoints d a points => exact h.elim
    | writeWords d a words =>
      obtain ⟨rfl, rfl, hpart⟩ := h
      obtain ⟨k, hk, rfl⟩ := hw
      obtain ⟨hlt, hcell⟩ := writeCells_part u.words s.words d' a hpart hk
      rw [Nat.add_assoc] at hcell ⊢
      exact ⟨⟨offset + k, hlt, rfl⟩, hcell⟩
  | writePoints d' a' points' =>
    cases c with
    | readPoints d a n | readWords d a n | writeWords d a words => exact h.elim
    | writePoints d a points =>
      obtain ⟨rfl, rfl, hpart⟩ := h
      obtain ⟨k, hk, rfl⟩ := hw
      obtain ⟨hlt, hcell⟩ := writeCells_part u.points s.points d' a hpart hk
      rw [Nat.add_assoc] at hcell ⊢
      exact ⟨⟨offset + k, hlt, rfl⟩, hcell⟩

end Cells

namespace TypedAccess

variable {m : Module}

/-- The accesses that a batch stands for, with their places behind its start. -/
def elements : TypedAccess m → List (ℕ × TypedAccess m)
  | readBools _ n => (List.range n).map fun i => (i, readBool)
  | readValues _ T n => (List.range n).map fun i => (i * T.type.words, readValue T.type)
  | writeBools _ values => values.mapIdx fun i val => (i, writeBool val)
  | writeValues _ T values => values.mapIdx fun i val => (i * T.type.words, writeValue T.type val)
  | readBool => [(0, readBool)]
  | readValue T => [(0, readValue T)]
  | readString n => [(0, readString n)]
  | writeBool val => [(0, writeBool val)]
  | writeValue T val => [(0, writeValue T val)]
  | writeString val => [(0, writeString val)]

/-- What the elements get where the batch gets this. -/
def parts : (t : TypedAccess m) → t.Result → List (Σ e : TypedAccess m, e.Result)
  | readBools _ _, points => points.map fun point => ⟨readBool, point⟩
  | readValues _ T _, values => values.map fun val => ⟨readValue T.type, val⟩
  | writeBools _ values, _ => values.map fun val => ⟨writeBool val, ()⟩
  | writeValues _ T values, _ => values.map fun val => ⟨writeValue T.type val, ()⟩
  | readBool, x => [⟨readBool, x⟩]
  | readValue T, x => [⟨readValue T, x⟩]
  | readString n, x => [⟨readString n, x⟩]
  | writeBool val, x => [⟨writeBool val, x⟩]
  | writeValue T val, x => [⟨writeValue T val, x⟩]
  | writeString val, x => [⟨writeString val, x⟩]

variable {t e : TypedAccess m} {d : MelsecMcDataType} {a i offset : ℕ}

/-- The words of a batch are those of its values, one behind the other. -/
theorem wordsOf_values (T : ValueType) (values : List T.Value) :
    wordsOf (values.flatMap T.codec.encode) = values.flatMap fun v => wordsOf (T.codec.encode v) :=
  wordsOf_flatMap (fun v => by rw [T.codec.encode_length]; omega) values

theorem single_element (h : [(0, t)][i]? = some (offset, e)) : i = 0 ∧ offset = 0 ∧ e = t := by
  cases i with
  | zero =>
    obtain ⟨rfl, rfl⟩ := Prod.mk.inj (Option.some.inj h)
    exact ⟨rfl, rfl, rfl⟩
  | succ i => cases h

theorem getElem?_map_range {β : Type*} {f : ℕ → β} {n : ℕ} {y : β}
    (h : ((List.range n).map f)[i]? = some y) : i < n ∧ f i = y := by
  obtain ⟨hlt, heq⟩ := List.getElem?_eq_some_iff.mp h
  rw [List.length_map, List.length_range] at hlt
  rw [List.getElem_map, List.getElem_range] at heq
  exact ⟨hlt, heq⟩

theorem element_part (h : t.elements[i]? = some (offset, e)) :
    (t.command d a).Part offset (e.command d (a + offset)) := by
  cases t with
  | readBool | readValue T | readString n =>
    obtain ⟨-, rfl, rfl⟩ := single_element h
    trivial
  | writeBool val | writeValue T val | writeString val =>
    obtain ⟨-, rfl, rfl⟩ := single_element h
    exact ⟨rfl, rfl, fun k _ => by rw [Nat.zero_add]⟩
  | readBools hm n | readValues hm T n =>
    obtain ⟨-, heq⟩ := getElem?_map_range h
    obtain ⟨rfl, rfl⟩ := Prod.mk.inj heq
    trivial
  | writeBools hm values =>
    rw [elements, List.getElem?_mapIdx] at h
    obtain ⟨val, hval, heq⟩ := Option.map_eq_some_iff.mp h
    obtain ⟨rfl, rfl⟩ := Prod.mk.inj heq
    refine ⟨rfl, rfl, fun k hk => ?_⟩
    obtain rfl := Nat.lt_one_iff.mp hk
    exact hval
  | writeValues hm T values =>
    rw [elements, List.getElem?_mapIdx] at h
    obtain ⟨val, hval, heq⟩ := Option.map_eq_some_iff.mp h
    obtain ⟨rfl, rfl⟩ := Prod.mk.inj heq
    refine ⟨rfl, rfl, fun k hk => ?_⟩
    rw [wordsOf_encode_length] at hk
    rw [wordsOf_values, getElem?_flatMap (wordsOf_encode_length T.type) hk, hval]
    rfl

/-- Every cell that a batch writes is written by one of its elements. -/
theorem element_of_writes {cell : Cell} (hw : (t.command d a).Writes cell) :
    ∃ (i offset : ℕ) (e : TypedAccess m), t.elements[i]? = some (offset, e) ∧
      (e.command d (a + offset)).Writes cell := by
  cases t with
  | readBool | readValue T | readString n | readBools hm n | readValues hm T n => exact hw.elim
  | writeBool val | writeValue T val | writeString val => exact ⟨0, 0, _, rfl, hw⟩
  | writeBools hm values =>
    obtain ⟨k, hk, rfl⟩ := hw
    refine ⟨k, k, writeBool values[k], ?_, ⟨0, Nat.one_pos, rfl⟩⟩
    rw [elements, List.getElem?_mapIdx, List.getElem?_eq_getElem hk]
    rfl
  | writeValues hm T values =>
    obtain ⟨k, hk, rfl⟩ := hw
    have hpos := T.type.words_pos
    rw [wordsOf_values, List.length_flatMap] at hk
    simp only [wordsOf_encode_length, List.map_const', List.sum_replicate, smul_eq_mul] at hk
    have hlt : k / T.type.words < values.length := Nat.div_lt_of_lt_mul (by
      rw [Nat.mul_comm]
      exact hk)
    refine ⟨k / T.type.words, k / T.type.words * T.type.words,
      writeValue T.type values[k / T.type.words], ?_, ⟨k % T.type.words, ?_, ?_⟩⟩
    · rw [elements, List.getElem?_mapIdx, List.getElem?_eq_getElem hlt]
      rfl
    · rw [wordsOf_encode_length]
      exact Nat.mod_lt k hpos
    · rw [Nat.add_assoc, Nat.div_add_mod']

/-- The bytes of the value with number `i` are those of the words at its place. -/
theorem binaryWords_slice (words : MelsecMcDataType → ℕ → BitVec 16) (d : MelsecMcDataType)
    (a w : ℕ) {i n : ℕ} (hlt : i < n) :
    ((binaryWords (readCells words d a (n * w)).toList).drop (i * (2 * w))).take (2 * w) =
      binaryWords (readCells words d (a + i * w) w).toList := by
  have hdrop : i * (2 * w) = i * w * 2 := by ring
  have hroom : i * w + w ≤ n * w := by
    rw [← Nat.succ_mul]
    exact Nat.mul_le_mul_right _ hlt
  have hwidth : ∀ x : BitVec 16, (wordBytes x.toNat).length = 2 := fun _ => rfl
  rw [hdrop, Nat.mul_comm 2, binaryWords, drop_flatMap hwidth, take_flatMap hwidth,
    readCells_slice _ _ _ hroom, binaryWords]

/-- An element gets its part of what the batch gets, also from a memory where others of its elements
wrote before. -/
theorem element_result (h : t.elements[i]? = some (offset, e)) {s u : Memory}
    (hu : ∀ cell, (t.command d a).Writes cell ∨ u.Agrees s cell) :
    (t.parts (t.result d a (s.data (t.command d a))))[i]? =
      some ⟨e, e.result d (a + offset) (u.data (e.command d (a + offset)))⟩ := by
  cases t with
  | readBool | readValue T | readString n =>
    obtain rfl := Memory.eq_of_agrees fun cell => (hu cell).resolve_left not_false
    obtain ⟨rfl, rfl, rfl⟩ := single_element h
    rfl
  | writeBool val | writeValue T val | writeString val =>
    obtain ⟨rfl, rfl, rfl⟩ := single_element h
    rfl
  | writeBools hm values | writeValues hm T values =>
    rw [elements, List.getElem?_mapIdx] at h
    obtain ⟨val, hval, heq⟩ := Option.map_eq_some_iff.mp h
    obtain ⟨rfl, rfl⟩ := Prod.mk.inj heq
    rw [parts, List.getElem?_map, hval]
    rfl
  | readBools hm n =>
    obtain rfl := Memory.eq_of_agrees fun cell => (hu cell).resolve_left not_false
    obtain ⟨hlt, heq⟩ := getElem?_map_range h
    obtain ⟨rfl, rfl⟩ := Prod.mk.inj heq
    have hpoint : (readCells u.points d a n).toList[i]? = some (u.points d (a + i)) := by
      rw [List.getElem?_eq_getElem (by simpa using hlt)]
      simp [readCells]
    rw [parts, List.getElem?_map]
    change Option.map _ ((readCells u.points d a n).toList[i]?) = _
    rw [hpoint]
    rfl
  | readValues hm T n =>
    obtain rfl := Memory.eq_of_agrees fun cell => (hu cell).resolve_left not_false
    obtain ⟨hlt, heq⟩ := getElem?_map_range h
    obtain ⟨rfl, rfl⟩ := Prod.mk.inj heq
    have hslice := binaryWords_slice u.words d a T.type.words hlt
    rw [parts, List.getElem?_map]
    change Option.map _ ((valuesOf (2 * T.type.words) n
      (binaryWords (readCells u.words d a (n * T.type.words)).toList))[i]?) = _
    rw [valuesOf, List.getElem?_map, List.getElem?_range hlt, Option.map_some, hslice]
    rfl

end TypedAccess

section Calls

variable {m : Module} {τ : Type*} {D : Device m.protocol τ} {abs : τ → Memory}

/-- A call that is alone with a PLC: what it returns, and the PLC afterwards. -/
def Call.ranOn {α : Type} {P : Protocol} {τ : Type*} (D : Device P τ) (plc : τ) :
    Call α → Option α × τ
  | .transact fd cmd next =>
    let served := D.serve fd (cmd.data.getD []) plc
    ((next (.ofFrame served.1)).answer (.ofFrame served.1), served.2)
  | .ret a => (some a, plc)
  | .fault => (none, plc)

/-- Calls one after the other. -/
def ranAll (D : Device m.protocol τ) : τ → List (DeviceCall m) →
    List (Σ e : DeviceCall m, Option e.Outcome) × τ
  | plc, [] => ([], plc)
  | plc, e :: calls =>
    let ran := e.call.ranOn D plc
    let rest := ranAll D ran.2 calls
    (⟨e, ran.1⟩ :: rest.1, rest.2)

theorem ranAll_cons (D : Device m.protocol τ) (plc : τ) (e : DeviceCall m)
    (calls : List (DeviceCall m)) :
    ranAll D plc (e :: calls) =
      (⟨e, (e.call.ranOn D plc).1⟩ :: (ranAll D (e.call.ranOn D plc).2 calls).1,
        (ranAll D (e.call.ranOn D plc).2 calls).2) := rfl

/-- The call is that of the `i`th element of a batch. -/
def DeviceCall.IsElement (e : DeviceCall m) (i : ℕ) (b : DeviceCall m) : Prop :=
  e.device = b.device ∧ ∃ offset, b.access.elements[i]? = some (offset, e.access) ∧
    e.start = b.start + offset

theorem DeviceCall.ranOn_eq (hD : D.Implements Memory.object abs) (c : DeviceCall m) (plc : τ) :
    (c.call.ranOn D plc).1 =
      some (.success, some (c.access.result c.device c.start ((abs plc).data c.command))) ∧
    abs (c.call.ranOn D plc).2 = (abs plc).after c.command := by
  obtain ⟨next, hcall, -⟩ := c.call_serves
  have hencodes := hD.encodes c.fd c.job.cmd c.command plc c.command_job c.fits
  have hreturns := c.returns_of_encodes hencodes
  rw [DeviceCall.returns, hcall] at hreturns
  rw [hcall]
  refine ⟨hreturns.trans ?_, hD.state c.fd c.job.cmd c.command plc c.command_job c.fits⟩
  rw [Memory.apply_fst]
  rfl

variable {b e : DeviceCall m} {i : ℕ} {s u : Memory}

/-- The call of an element gets its part, and writes its part. -/
theorem DeviceCall.IsElement.serves (h : e.IsElement i b)
    (hu : ∀ cell, b.command.Writes cell ∨ u.Agrees s cell) :
    (b.access.parts (b.access.result b.device b.start (s.data b.command)))[i]? =
      some ⟨e.access, e.access.result e.device e.start (u.data e.command)⟩ := by
  obtain ⟨hdevice, offset, helement, hstart⟩ := h
  have hresult := TypedAccess.element_result helement hu
  unfold DeviceCall.command
  rw [hdevice, hstart]
  exact hresult

theorem DeviceCall.IsElement.part (h : e.IsElement i b) :
    ∃ offset, b.command.Part offset e.command := by
  obtain ⟨hdevice, offset, helement, hstart⟩ := h
  refine ⟨offset, ?_⟩
  unfold DeviceCall.command
  rw [hdevice, hstart]
  exact TypedAccess.element_part helement

/-- What an element leaves on the way from `s` to what the batch leaves. -/
theorem DeviceCall.IsElement.after (h : e.IsElement i b)
    (hu : ∀ cell, b.command.Writes cell ∨ u.Agrees s cell) (cell : Cell) :
    (b.command.Writes cell ∨ (u.after e.command).Agrees s cell) ∧
      (u.Agrees (s.after b.command) cell ∨ e.command.Writes cell →
        (u.after e.command).Agrees (s.after b.command) cell) := by
  obtain ⟨offset, hpart⟩ := h.part
  by_cases hw : e.command.Writes cell
  · obtain ⟨hb, hagrees⟩ := hpart.agrees hw s u
    exact ⟨.inl hb, fun _ => hagrees⟩
  · have hkeep := Memory.after_agrees hw u
    exact ⟨(hu cell).imp_right hkeep.trans, fun hor => hkeep.trans (hor.resolve_right hw)⟩

theorem ranAll_elements (hD : D.Implements Memory.object abs) (b : DeviceCall m) (s : Memory)
    (plc : τ) (order : List (DeviceCall m)) (horder : ∀ e ∈ order, ∃ i, e.IsElement i b)
    (hu : ∀ cell, b.command.Writes cell ∨ (abs plc).Agrees s cell) :
    (∀ x ∈ (ranAll D plc order).1, ∀ i, x.1.IsElement i b → ∃ v, x.2 = some (.success, some v) ∧
      (b.access.parts (b.access.result b.device b.start (s.data b.command)))[i]? =
        some ⟨x.1.access, v⟩) ∧
    ∀ cell, ((abs plc).Agrees (s.after b.command) cell ∨ ∃ e ∈ order, e.command.Writes cell) →
      (abs (ranAll D plc order).2).Agrees (s.after b.command) cell := by
  induction order generalizing plc with
  | nil =>
    exact ⟨fun _ hx => absurd hx List.not_mem_nil,
      fun _ h => h.resolve_right fun ⟨_, he, _⟩ => List.not_mem_nil he⟩
  | cons e order ih =>
    obtain ⟨hresult, hstate⟩ := DeviceCall.ranOn_eq hD e plc
    obtain ⟨i, hi⟩ := horder e List.mem_cons_self
    have hafter := hi.after hu
    rw [ranAll_cons]
    generalize e.call.ranOn D plc = ran at hresult hstate
    rw [← hstate] at hafter
    obtain ⟨hresults, hfinal⟩ := ih ran.2
      (fun e' he => horder e' (List.mem_cons_of_mem e he)) fun cell => (hafter cell).1
    refine ⟨fun x hx j hj => ?_, fun cell hcell => hfinal cell ?_⟩
    · rcases List.mem_cons.mp hx with rfl | hx
      · exact ⟨_, hresult, hj.serves hu⟩
      · exact hresults x hx j hj
    · rcases hcell with hcell | ⟨e', he', hw⟩
      · exact .inl ((hafter cell).2 (.inl hcell))
      · rcases List.mem_cons.mp he' with rfl | he'
        · exact .inl ((hafter cell).2 (.inr hw))
        · exact .inr ⟨e', he', hw⟩

theorem ranAll_fst (D : Device m.protocol τ) (plc : τ) (order : List (DeviceCall m)) :
    (ranAll D plc order).1.map Sigma.fst = order := by
  induction order generalizing plc with
  | nil => rfl
  | cons e order ih => rw [ranAll, List.map_cons, ih]

/-- With a PLC that has a memory, a batch of `DeviceCall`, whose request loses no point, is its
elements: the calls for them, each made once or more and in any order, succeed with the values that
the batch gets and leave the memory that the batch leaves. -/
theorem batch_is_its_elements (D : Device m.protocol τ) (abs : τ → Memory)
    (hD : D.Implements Memory.object abs) (b : DeviceCall m) (plc : τ)
    (order : List (DeviceCall m)) (horder : ∀ e ∈ order, ∃ i, e.IsElement i b)
    (hall : ∀ i < b.access.elements.length, ∃ e ∈ order, e.IsElement i b) :
    ∃ r, (b.call.ranOn D plc).1 = some (.success, some r) ∧
      (ranAll D plc order).1.map Sigma.fst = order ∧
      (∀ x ∈ (ranAll D plc order).1, ∀ i, x.1.IsElement i b →
        ∃ v, x.2 = some (.success, some v) ∧ (b.access.parts r)[i]? = some ⟨x.1.access, v⟩) ∧
      abs (ranAll D plc order).2 = abs (b.call.ranOn D plc).2 := by
  obtain ⟨hresult, hstate⟩ := DeviceCall.ranOn_eq hD b plc
  obtain ⟨hresults, hfinal⟩ := ranAll_elements hD b (abs plc) plc order horder fun cell =>
    .inr (by cases cell <;> rfl)
  refine ⟨_, hresult, ranAll_fst D plc order, hresults, ?_⟩
  rw [hstate]
  refine Memory.eq_of_agrees fun cell => hfinal cell ?_
  by_cases hw : b.command.Writes cell
  · obtain ⟨i, offset, access, helement, hcell⟩ := TypedAccess.element_of_writes hw
    obtain ⟨e, he, hi⟩ := hall i (List.getElem?_eq_some_iff.mp helement).1
    refine .inr ⟨e, he, ?_⟩
    obtain ⟨hdevice, offset', helement', hstart⟩ := hi
    obtain ⟨rfl, rfl⟩ := Prod.mk.inj (Option.some.inj (helement.symm.trans helement'))
    unfold DeviceCall.command
    rw [hdevice, hstart]
    exact hcell
  · left
    have hkeep := Memory.after_agrees hw (abs plc)
    cases cell <;> exact hkeep.symm

end Calls

/-- A call of `mc_write_short_batch` for D100 and D101. -/
def writeD100D101 : DeviceCall .binary where
  fd := writeD100.fd
  network := writeD100.network
  retryCount := writeD100.retryCount
  address := writeD100.address
  device := writeD100.device
  start := writeD100.start
  access := .writeValues rfl .short [7, 9]
  fd_pos := writeD100.fd_pos
  retries := writeD100.retries
  names := writeD100.names
  nonempty := List.cons_ne_nil _ _
  sendable := ⟨by decide, by decide, by decide⟩
  fits := Module.fits_writeWords _ _ _ _

def registerD101 : CString := ⟨text ['D', '1', '0', '1'], by decide⟩

theorem names_D101 : Names registerD101 deviceD 101 :=
  ⟨⟨'D', none, deviceD⟩, by decide, text ['D'], by decide, text ['1', '0', '1'], by decide,
    by decide, rfl, by decide⟩

/-- A call of `mc_write_short` for the second value. -/
def writeD101 : DeviceCall .binary where
  fd := writeD100.fd
  network := writeD100.network
  retryCount := writeD100.retryCount
  address := registerD101
  device := writeD100.device
  start := 101
  access := .writeValue .short 9
  fd_pos := writeD100.fd_pos
  retries := writeD100.retries
  names := names_D101
  nonempty := trivial
  sendable := ⟨by decide, by decide, by decide⟩
  fits := Module.fits_writeWords _ _ _ _

/-- The second value is written first. -/
theorem batch_is_its_elements_D100 :
    (ranAll (Memory.object.device .binary) .zero [writeD101, writeD100]).2 =
      (writeD100D101.call.ranOn (Memory.object.device .binary) Memory.zero).2 := by
  have hfirst : writeD100.IsElement 0 writeD100D101 := ⟨rfl, 0, rfl, rfl⟩
  have hsecond : writeD101.IsElement 1 writeD100D101 := ⟨rfl, 1, rfl, rfl⟩
  obtain ⟨r, -, -, -, hstate⟩ := batch_is_its_elements (Memory.object.device .binary) id
    (Memory.object.device_implements .binary) writeD100D101 .zero [writeD101, writeD100]
    (fun e he => by
      rcases List.mem_pair.mp he with rfl | rfl
      · exact ⟨1, hsecond⟩
      · exact ⟨0, hfirst⟩)
    (fun i hi => by
      rcases i with _ | _ | i
      · exact ⟨writeD100, by simp, hfirst⟩
      · exact ⟨writeD101, by simp, hsecond⟩
      · exact absurd hi (by simp [writeD100D101, TypedAccess.elements]))
  exact hstate

end MelsecMc
