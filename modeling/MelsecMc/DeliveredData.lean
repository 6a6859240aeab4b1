import MelsecMc.TypedReaders

/-!
# Success and the data of the response

A reader that returns `MC_ERROR_CODE_SUCCESS` has assigned its output where the
response is long enough. Where a response with a zero end code is too short, the
readers skip the assignment and return the success all the same. One reader also
decodes a payload that is shorter than its value.
-/
namespace MelsecMc

open FramedStream WordBytes

theorem length_of_access {bytes : List Byte} {i : ℕ} {b : Byte} (h : bytes[i]? = some b) :
    i < bytes.length :=
  (List.getElem?_eq_some_iff.mp h).1

theorem bytes2short_length {bytes : List Byte} {v : BitVec 16}
    (h : bytes2short bytes = some v) : 2 ≤ bytes.length := by
  obtain ⟨b₀, -, h⟩ := Option.bind_eq_some_iff.mp h
  obtain ⟨b₁, h1, -⟩ := Option.bind_eq_some_iff.mp h
  exact length_of_access h1

theorem bytes2ushort_length {bytes : List Byte} {v : BitVec 16}
    (h : bytes2ushort bytes = some v) : 2 ≤ bytes.length := by
  obtain ⟨b₀, -, h⟩ := Option.bind_eq_some_iff.mp h
  obtain ⟨b₁, h1, -⟩ := Option.bind_eq_some_iff.mp h
  exact length_of_access h1

theorem bytes2int32_length {bytes : List Byte} {v : BitVec 32}
    (h : bytes2int32 bytes = some v) : 4 ≤ bytes.length := by
  obtain ⟨b₀, -, h⟩ := Option.bind_eq_some_iff.mp h
  obtain ⟨b₁, -, h⟩ := Option.bind_eq_some_iff.mp h
  obtain ⟨b₂, -, h⟩ := Option.bind_eq_some_iff.mp h
  obtain ⟨b₃, h3, -⟩ := Option.bind_eq_some_iff.mp h
  exact length_of_access h3

theorem bytes2bigInt_length {bytes : List Byte} {v : BitVec 64}
    (h : bytes2bigInt bytes = some v) : 8 ≤ bytes.length := by
  obtain ⟨b₀, -, h⟩ := Option.bind_eq_some_iff.mp h
  obtain ⟨b₁, -, h⟩ := Option.bind_eq_some_iff.mp h
  obtain ⟨b₂, -, h⟩ := Option.bind_eq_some_iff.mp h
  obtain ⟨b₃, -, h⟩ := Option.bind_eq_some_iff.mp h
  obtain ⟨b₄, -, h⟩ := Option.bind_eq_some_iff.mp h
  obtain ⟨b₅, -, h⟩ := Option.bind_eq_some_iff.mp h
  obtain ⟨b₆, -, h⟩ := Option.bind_eq_some_iff.mp h
  obtain ⟨b₇, h7, -⟩ := Option.bind_eq_some_iff.mp h
  exact length_of_access h7

/-- A decoder accesses every byte of its value. -/
theorem ValueType.decode_length (T : ValueType) {bytes : List Byte} {v : T.Value}
    (h : T.codec.decode bytes = some v) : 2 * T.words ≤ bytes.length := by
  cases T with
  | short => exact bytes2short_length h
  | ushort => exact bytes2ushort_length h
  | int32 => exact bytes2int32_length h
  | uint32 => exact bytes2int32_length h
  | int64 => exact bytes2bigInt_length h
  | uint64 => exact bytes2bigInt_length h
  | float => exact bytes2int32_length h
  | double => exact bytes2bigInt_length h

theorem ValueType.decode_nil (T : ValueType) : T.codec.decode [] = none := by
  cases T <;> rfl

theorem attached_data (data : List Byte) :
    (attached .empty data).data = if data = [] then none else some data := by
  rw [attached]
  split_ifs <;> rfl

theorem attached_bind {α : Type} {data : List Byte} {f : List Byte → Option α} (h : f [] = none) :
    (attached .empty data).data.bind f = f data := by
  rw [attached_data]
  split_ifs with h0
  · rw [h0, h]
    rfl
  · rfl

theorem memcpy_some {src out : List Byte} {n : ℤ} (h : memcpy src n = some out) :
    n ≤ src.length := by
  rw [memcpy] at h
  split_ifs at h with hn
  exact hn.2

theorem memcpy_nil {n : ℤ} (h : 0 < n) : memcpy [] n = none :=
  if_neg fun hn => by
    have := hn.2
    simp only [List.length_nil] at this
    omega

/-- A loop stops at the first access outside its buffer. -/
theorem mapM_some_mem {α β : Type} {f : α → Option β} {l : List α} {out : List β}
    (h : l.mapM f = some out) : ∀ a ∈ l, ∃ b, f a = some b := by
  induction l generalizing out with
  | nil => exact fun a ha => absurd ha List.not_mem_nil
  | cons a l ih =>
    rw [List.mapM_cons] at h
    obtain ⟨b, hb, h⟩ := Option.bind_eq_some_iff.mp h
    obtain ⟨bs, hbs, -⟩ := Option.bind_eq_some_iff.mp h
    intro c hc
    rcases List.mem_cons.mp hc with rfl | hc
    · exact ⟨b, hb⟩
    · exact ih hbs c hc

namespace TypedReader

variable {R : TypedReader} {data : List Byte}

theorem Asks.evenLength_pos {m : Module} {length : ℤ} {range : InInt32 length}
    (h : Asks (.string m length range)) : length < 2 ^ 31 - 1 := by
  have hpos : 0 < length := h.requested_pos
  have hpoints : 0 < (evenLength length).tdiv 2 := h.points_pos
  have hr := range.2
  by_contra htop
  have := (evenLength_tdiv_nonpos range hpos).mpr (by omega)
  omega

/-- Every accessed element of a batch is inside data that is long enough. -/
theorem batch_index {length i size n : ℕ} (hi : i < length) (h : length * size ≤ n) :
    size ≤ n - i * size := by
  have hle : (i + 1) * size ≤ length * size := Nat.mul_le_mul_right size hi
  rw [Nat.succ_mul] at hle
  omega

/-- Data that is long enough passes the test of the reader, and all accesses are inside it. -/
theorem enough_of_need (ha : R.Asks) (h : R.need ≤ data.length) :
    R.enough data.length = true ∧
      R.assign (attached .empty data) = some (decoded data R) := by
  cases R with
  | bool m =>
    obtain ⟨b, bytes, rfl⟩ := List.exists_cons_of_ne_nil (List.ne_nil_of_length_pos
      (show 0 < data.length by change (1 : ℤ) ≤ data.length at h; omega))
    exact ⟨decide_eq_true (by simp), rfl⟩
  | value m T =>
    have hlen : 2 * T.words ≤ data.length := Int.ofNat_le.mp h
    refine ⟨?_, ?_⟩
    · have hpos := T.words_pos
      cases m <;> cases T <;> exact decide_eq_true (by simp [ValueType.words] at hlen ⊢; omega)
    · change (attached .empty data).data.bind T.codec.decode = _
      rw [attached_bind T.decode_nil, T.codec.decode_eq data hlen]
      rfl
  | string m length range =>
    have hpos : 0 < length := ha.requested_pos
    have htop := ha.evenLength_pos
    have heven := evenLength_eq hpos.le htop
    change evenLength length ≤ data.length at h
    refine ⟨decide_eq_true h, ?_⟩
    cases m with
    | binary =>
      change (attached .empty data).data.bind (memcpy · (evenLength length)) = _
      rw [attached_bind (memcpy_nil (by omega)), memcpy, if_pos ⟨by omega, h⟩]
      rfl
    | ascii =>
      change ((attached .empty data).data.bind (memcpy · length)).map _ = _
      rw [attached_bind (memcpy_nil hpos), memcpy, if_pos ⟨by omega, by omega⟩]
      rfl
  | boolBatch length range =>
    have hpos : 0 < length := ha.requested_pos
    change length ≤ data.length at h
    refine ⟨decide_eq_true h, ?_⟩
    change ((attached .empty data).data.bind (memcpy · length)).map _ = _
    rw [attached_bind (memcpy_nil hpos), memcpy, if_pos ⟨by omega, h⟩]
    rfl
  | batch T length range =>
    have hpos : 0 < length := ha.requested_pos
    obtain ⟨n, rfl⟩ := Int.eq_ofNat_of_zero_le hpos.le
    change (n : ℤ) * (2 * T.type.words : ℕ) ≤ data.length at h
    have hlen : n * (2 * T.type.words) ≤ data.length := by exact_mod_cast h
    have henough : toInt32 ((n : ℤ) * (2 * T.type.words : ℕ)) ≤ data.length :=
      (toInt32_le (by positivity)).trans h
    refine ⟨by simpa only [enough, decide_eq_true_eq] using henough, ?_⟩
    change (List.range n).mapM (fun i => (attached .empty data).data.bind fun data =>
      T.type.codec.decode (data.drop (i * (2 * T.type.words)))) = some ((List.range n).map _)
    refine mapM_some fun i hi => ?_
    have hi : i < n := List.mem_range.mp hi
    have hroom := batch_index hi hlen
    rw [attached_bind (by rw [List.drop_nil]; exact T.type.decode_nil),
      T.type.codec.decode_eq _ (by rw [List.length_drop]; exact hroom)]

/-- The accesses of a reader go to the end of what it needs, or its test has looked there. -/
theorem need_of_assign (ha : R.Asks) {v : R.Value} (he : R.enough data.length = true)
    (h : R.assign (attached .empty data) = some v) : R.need ≤ data.length := by
  cases R with
  | bool m =>
    obtain ⟨b, hb, -⟩ := Option.map_eq_some_iff.mp h
    rw [attached_bind rfl] at hb
    have := length_of_access hb
    change (1 : ℤ) ≤ data.length
    omega
  | value m T =>
    change (attached .empty data).data.bind T.codec.decode = some v at h
    rw [attached_bind T.decode_nil] at h
    exact Int.ofNat_le.mpr (T.decode_length h)
  | string m length range =>
    exact of_decide_eq_true he
  | boolBatch length range =>
    obtain ⟨out, hout, -⟩ := Option.map_eq_some_iff.mp h
    rw [attached_bind (memcpy_nil ha.requested_pos)] at hout
    exact memcpy_some hout
  | batch T length range =>
    have hpos : 0 < length := ha.requested_pos
    obtain ⟨n, rfl⟩ := Int.eq_ofNat_of_zero_le hpos.le
    obtain ⟨b, hb⟩ := mapM_some_mem h (n - 1) (List.mem_range.mpr (by simp at hpos ⊢; omega))
    rw [attached_bind (by rw [List.drop_nil]; exact T.type.decode_nil)] at hb
    have hlen := T.type.decode_length hb
    rw [List.length_drop] at hlen
    change (n : ℤ) * (2 * T.type.words : ℕ) ≤ data.length
    have hwords := T.type.words_pos
    have hn : n = n - 1 + 1 := by omega
    have hsplit : n * (2 * T.type.words) = (n - 1) * (2 * T.type.words) + 2 * T.type.words := by
      rw [← Nat.succ_mul, Nat.succ_eq_add_one, ← hn]
    have : n * (2 * T.type.words) ≤ data.length := by omega
    exact_mod_cast this

variable {network : PlcNetworkAddress} {fd : ℤ} {address : Option CString} {frame : List Byte}

/-- What a reader that made its request returns for a response. -/
theorem answer_cases (hr : (R.call network fd address).request ≠ none)
    (hf : IsFrame R.owner.protocol.response frame) :
    (content R.owner R.isBit frame = none ∧ ∃ code, code ≠ .success ∧
      (R.call network fd address).answer (.ofFrame frame) = some (code, none)) ∨
    ∃ data, content R.owner R.isBit frame = some data ∧
      (R.call network fd address).answer (.ofFrame frame) =
        if R.enough data.length then
          (R.assign (attached .empty data)).map fun v => (.success, some v)
        else some (.success, none) := by
  obtain ⟨-, he⟩ := call_of_request hr
  rw [he, Call.request_bind delivering_request] at hr
  have hreturns := deviceRead_returns hr hf
  rw [he]
  cases hc : content R.owner R.isBit frame with
  | none =>
    rw [hc] at hreturns
    exact .inl ⟨rfl, delivering_error hreturns⟩
  | some data =>
    rw [hc] at hreturns
    exact .inr ⟨data, rfl, delivering_data hreturns⟩

/-- The reader comes back, and a success means that its output was assigned from the data of
the response. -/
def Delivered (R : TypedReader) (network : PlcNetworkAddress) (fd : ℤ)
    (address : Option CString) (frame : List Byte) : Prop :=
  ∃ code out, (R.call network fd address).answer (.ofFrame frame) = some (code, out) ∧
    (code = .success → ∃ data, content R.owner R.isBit frame = some data ∧
      R.need ≤ data.length ∧ out = some (decoded data R))

theorem delivered_iff (hr : (R.call network fd address).request ≠ none)
    (hf : IsFrame R.owner.protocol.response frame) :
    R.Delivered network fd address frame ↔
      ∀ data, content R.owner R.isBit frame = some data → R.need ≤ data.length := by
  have ha := (call_of_request hr).1
  rcases answer_cases hr hf with ⟨hc, code, hcode, hans⟩ | ⟨data, hc, hans⟩
  · refine ⟨fun _ data hdata => ?_, fun _ => ⟨code, none, hans, fun h => absurd h hcode⟩⟩
    rw [hc] at hdata
    cases hdata
  · constructor
    · rintro ⟨code, out, hout, hsuccess⟩ data' hdata'
      obtain rfl := Option.some.inj (hc.symm.trans hdata')
      rw [hans] at hout
      split_ifs at hout with henough
      · obtain ⟨v, hv, -⟩ := Option.map_eq_some_iff.mp hout
        exact need_of_assign ha henough hv
      · obtain ⟨rfl, rfl⟩ := Prod.mk.inj (Option.some.inj hout)
        obtain ⟨_, -, -, hnone⟩ := hsuccess rfl
        cases hnone
    · intro hneed
      obtain ⟨henough, hassign⟩ := enough_of_need ha (hneed data hc)
      refine ⟨.success, some (decoded data R), ?_, fun _ => ⟨data, hc, hneed data hc, rfl⟩⟩
      rw [hans, if_pos henough, hassign]
      rfl

/-- A reader whose transaction failed does not report a success. -/
theorem call_failed {r : Transacted} (hr : r.code ≠ .success) (out : Option R.Value) :
    (R.call network fd address).answer r ≠ some (.success, out) := by
  intro hans
  rcases R.call_parts network fd address with he | ⟨-, he⟩
  · rw [he] at hans
    simp at hans
  · rw [he, Call.answer_bind] at hans
    obtain ⟨result, hword, hend⟩ := Option.bind_eq_some_iff.mp hans
    have hne := deviceRead_failed hr hword
    rw [delivering, if_neg fun h => hne h.1] at hend
    exact hne (congrArg Prod.fst (Option.some.inj hend))

/-- Success means that the data was delivered, for a response that is an error or long enough,
and for no other. Without a response there is no success. -/
theorem success_means_delivered_iff (R : TypedReader) (network : PlcNetworkAddress) (fd : ℤ)
    (address : Option CString) :
    (∀ (r : Transacted) (out : Option R.Value),
      (R.call network fd address).request = none ∨ r.code ≠ .success →
      (R.call network fd address).answer r ≠ some (.success, out)) ∧
    ∀ frame, (R.call network fd address).request ≠ none →
      IsFrame R.owner.protocol.response frame →
      (R.Delivered network fd address frame ↔
        ∀ data, content R.owner R.isBit frame = some data → R.need ≤ data.length) := by
  refine ⟨fun r out hor => ?_, fun frame hr hf => delivered_iff hr hf⟩
  rcases hor with hnone | hr
  · rw [Call.answer_of_no_request hnone r ⟨.failed, .zero, 0⟩]
    exact call_failed (by simp) out
  · exact call_failed hr out

/-- A reply of 11 bytes with end code zero: the reader returns a success without a value, and a
batch reader does so for one word instead of two. -/
theorem short_payload_succeeds :
    let empty : List Byte := [0xD0, 0x00, 0x00, 0xFF, 0xFF, 0x03, 0x00, 0x02, 0x00, 0x00, 0x00]
    let one : List Byte :=
      [0xD0, 0x00, 0x00, 0xFF, 0xFF, 0x03, 0x00, 0x04, 0x00, 0x00, 0x00, 0x34, 0x12]
    let D100 : Option CString := some ⟨text ['D', '1', '0', '0'], by decide⟩
    IsFrame binaryProtocol.response empty ∧ IsFrame binaryProtocol.response one ∧
      (call ⟨0, 0⟩ 3 D100 (.value .binary .ushort)).answer (.ofFrame empty) =
        some (.success, none) ∧
      (call ⟨0, 0⟩ 3 D100 (.batch .short 2 (by decide))).answer (.ofFrame one) =
        some (.success, none) ∧
      ¬ Delivered (.value .binary .ushort) ⟨0, 0⟩ 3 D100 empty := by
  have hans : (call ⟨0, 0⟩ 3 (some ⟨text ['D', '1', '0', '0'], by decide⟩)
      (.value .binary .ushort)).answer (.ofFrame
        [0xD0, 0x00, 0x00, 0xFF, 0xFF, 0x03, 0x00, 0x02, 0x00, 0x00, 0x00]) =
      some (.success, none) := by decide
  refine ⟨by decide, by decide, hans, by decide, ?_⟩
  rintro ⟨code, out, hout, hsuccess⟩
  obtain ⟨rfl, rfl⟩ := Prod.mk.inj (Option.some.inj (hans.symm.trans hout))
  obtain ⟨_, -, -, hnone⟩ := hsuccess rfl
  cases hnone

/-- The word is delivered where it is there. -/
theorem success_means_delivered_word :
    Delivered (.value .binary .ushort) ⟨0, 0⟩ 3 (some ⟨text ['D', '1', '0', '0'], by decide⟩)
      [0xD0, 0x00, 0x00, 0xFF, 0xFF, 0x03, 0x00, 0x04, 0x00, 0x00, 0x00, 0x34, 0x12] ∧
    ∀ out, (call ⟨0, 0⟩ 0 none (.value .binary .ushort)).answer ⟨.success, .zero, 0⟩ ≠
      some (.success, out) := by
  refine ⟨?_, fun out => ?_⟩
  · refine ((success_means_delivered_iff (.value .binary .ushort) ⟨0, 0⟩ 3
      (some ⟨text ['D', '1', '0', '0'], by decide⟩)).2 _ (by decide) (by decide)).mpr ?_
    intro data hdata
    obtain rfl := Option.some.inj hdata
    decide
  · exact (success_means_delivered_iff (.value .binary .ushort) ⟨0, 0⟩ 0 none).1 _ out
      (.inl (by decide))

/-- A requested length below `2 ^ 28` leaves the byte count of a batch an `int`, and all tests
but one ask for the whole value. -/
theorem need_of_enough (hlen : R.requested < 2 ^ 28) (ha : R.Asks)
    (hne : R ≠ .value .binary .short) {n : ℤ} (h : R.enough n = true) : R.need ≤ n := by
  cases R with
  | bool m => exact of_decide_eq_true h
  | value m T =>
    cases m with
    | binary =>
      cases T with
      | short => exact absurd rfl hne
      | _ => exact of_decide_eq_true h
    | ascii => cases T <;> exact of_decide_eq_true h
  | string m length range => exact of_decide_eq_true h
  | boolBatch length range => exact of_decide_eq_true h
  | batch T length range =>
    have hpos : 0 < length := ha.requested_pos
    change length < 2 ^ 28 at hlen
    have hle : toInt32 (length * (2 * T.type.words : ℕ)) ≤ n := of_decide_eq_true h
    have hsize : toInt32 (length * (2 * T.type.words : ℕ)) = length * (2 * T.type.words : ℕ) := by
      cases T <;> exact toInt32_eq ⟨by simp [BatchType.type, ValueType.words]; omega,
        by simp [BatchType.type, ValueType.words]; omega⟩
    rw [hsize] at hle
    exact hle

theorem content_short {data : List Byte} :
    content .binary false frame = some data ↔
      binaryEndCode frame = 0 ∧ frame.drop 11 = data := by
  by_cases hc : binaryEndCode frame = 0
  · simp [content, hc]
  · simp [content, hc]

/-- Every access of a typed reader is inside the payload, but for the second byte of a `short`
that `mc_read_short` takes from a payload of one byte. -/
theorem reads_inside_payload_iff (R : TypedReader) (network : PlcNetworkAddress) (fd : ℤ)
    (address : Option CString) (frame : List Byte) (hlen : R.requested < 2 ^ 28)
    (hr : (R.call network fd address).request ≠ none)
    (hf : IsFrame R.owner.protocol.response frame) :
    (R.call network fd address).answer (.ofFrame frame) ≠ none ↔
      ¬ (R = .value .binary .short ∧ binaryEndCode frame = 0 ∧ frame.length = 12) := by
  have ha := (call_of_request hr).1
  rcases answer_cases hr hf with ⟨hc, code, -, hans⟩ | ⟨data, hc, hans⟩
  · rw [hans]
    refine iff_of_true (by simp) ?_
    rintro ⟨rfl, hcode, -⟩
    have hsome := content_short.mpr ⟨hcode, rfl⟩
    cases hc.symm.trans hsome
  · rw [hans]
    by_cases hshort : R = .value .binary .short
    · subst hshort
      obtain ⟨hcode, rfl⟩ := content_short.mp hc
      have hle : 11 ≤ frame.length := hf.1
      simp only [true_and, hcode]
      by_cases hneed : need (.value .binary .short) ≤ (frame.drop 11).length
      · obtain ⟨henough, hassign⟩ := enough_of_need ha hneed
        rw [if_pos henough, hassign]
        refine iff_of_true (by simp) ?_
        change (2 : ℤ) ≤ (frame.drop 11).length at hneed
        rw [List.length_drop] at hneed
        omega
      · have hnone : assign (.value .binary .short) (attached .empty (frame.drop 11)) = none := by
          by_contra hsome
          obtain ⟨v, hv⟩ := Option.ne_none_iff_exists'.mp hsome
          change (attached .empty (frame.drop 11)).data.bind shortCodec.decode = _ at hv
          rw [attached_bind rfl] at hv
          exact hneed (Int.ofNat_le.mpr (bytes2short_length hv))
        rw [hnone]
        change ¬ (2 : ℤ) ≤ (frame.drop 11).length at hneed
        rw [List.length_drop] at hneed
        split_ifs with henough
        · have hpos : (0 : ℤ) < (frame.drop 11).length := of_decide_eq_true henough
          rw [List.length_drop] at hpos
          refine iff_of_false (by simp) (not_not.mpr ?_)
          omega
        · have hzero : ¬ (0 : ℤ) < (frame.drop 11).length := fun h => henough (decide_eq_true h)
          rw [List.length_drop] at hzero
          refine iff_of_true (by simp) ?_
          omega
    · simp only [hshort, false_and, not_false_eq_true, iff_true]
      split_ifs with henough
      · have hneed := need_of_enough hlen ha hshort henough
        rw [(enough_of_need ha hneed).2]
        simp
      · simp

/-- A payload of one byte. -/
theorem mcReadShort_outside :
    let frame : List Byte :=
      [0xD0, 0x00, 0x00, 0xFF, 0xFF, 0x03, 0x00, 0x03, 0x00, 0x00, 0x00, 0x34]
    let D100 : Option CString := some ⟨text ['D', '1', '0', '0'], by decide⟩
    IsFrame binaryProtocol.response frame ∧
      (call ⟨0, 0⟩ 3 D100 (.value .binary .short)).answer (.ofFrame frame) = none ∧
      (call ⟨0, 0⟩ 3 D100 (.value .binary .ushort)).answer (.ofFrame frame) =
        some (.success, none) := by
  exact ⟨by decide, by decide, by decide⟩

theorem reads_inside_payload_ushort :
    (call ⟨0, 0⟩ 3 (some ⟨text ['D', '1', '0', '0'], by decide⟩) (.value .binary .ushort)).answer
        (.ofFrame [0xD0, 0x00, 0x00, 0xFF, 0xFF, 0x03, 0x00, 0x03, 0x00, 0x00, 0x00, 0x34]) ≠
      none :=
  (reads_inside_payload_iff (.value .binary .ushort) ⟨0, 0⟩ 3
    (some ⟨text ['D', '1', '0', '0'], by decide⟩)
    [0xD0, 0x00, 0x00, 0xFF, 0xFF, 0x03, 0x00, 0x03, 0x00, 0x00, 0x00, 0x34] (by decide)
    (by decide) (by decide)).mpr fun h => by simp at h

end TypedReader

end MelsecMc
