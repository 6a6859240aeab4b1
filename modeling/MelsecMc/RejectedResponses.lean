import MelsecMc.ResponseFraming

/-!
# What a rejected response leaves behind

The binary parsers decide on the code and on the copy by two separate conditions.
A frame that is rejected is copied all the same, as far as its length field says:
the payload of an error reply stays in the caller's descriptor, and a length field
that announces more than the buffer holds leads the copy out of it. The ASCII
parsers empty the descriptor before they look at the payload.
-/
namespace MelsecMc

/-- The parser stays inside the frame, and leaves the caller's descriptor as it is when it
reports an error. -/
def LeavesData (parse : ByteArrayInfo → Option ByteArrayInfo →
    Option (ErrorCode × Option ByteArrayInfo)) (frame : List Byte) : Prop :=
  ∀ data, ∃ ret out, parse (.ofList frame) data = some (ret, out) ∧
    (ret ≠ .success → out = data)

theorem binaryLengthField_lt (frame : List Byte) : binaryLengthField frame < 2 ^ 16 := by
  have h7 := (frame.getD 7 0).isLt
  have h8 := (frame.getD 8 0).isLt
  rw [binaryLengthField, le16_eq]
  omega

/-- The subtraction of the end code wraps around for length fields below two. -/
theorem announced_eq (frame : List Byte) : announced frame =
    if binaryLengthField frame < 2 then binaryLengthField frame + 65534
    else binaryLengthField frame - 2 := by
  have hlt := binaryLengthField_lt frame
  rw [announced]
  simp only [toUShort]
  split_ifs <;> omega

/-- An accepted frame holds what its length field announces. -/
theorem accepted_iff {frame : List Byte} (h : 11 ≤ frame.length) :
    Accepted frame ↔ binaryEndCode frame = 0 ∧ (frame.length = binaryLengthField frame + 9 ∨
      binaryLengthField frame < 2 ∧ frame.length = binaryLengthField frame + 65545) := by
  rw [Accepted, announced_eq]
  split_ifs <;> omega

/-- A rejected frame leaves no data exactly where nothing is attached. -/
theorem parseResponse_leaves_iff (attach : ℕ → Bool) {frame : List Byte}
    (h : 11 ≤ frame.length) :
    LeavesData (parseResponse attach) frame ↔
      Accepted frame ∨ attach (announced frame) = false := by
  constructor
  · intro hleaves
    by_contra hnot
    obtain ⟨hrej, hattach⟩ := not_or.mp hnot
    have hyes : attach (announced frame) = true := by simpa using hattach
    -- a descriptor whose length no payload has
    obtain ⟨ret, out, hparse, hout⟩ := hleaves (some ⟨none, -1⟩)
    have hcopies : attach (announced frame) ∧ (some (⟨none, -1⟩ : ByteArrayInfo)).isSome :=
      ⟨hyes, rfl⟩
    rw [parseResponse_ofList attach h, if_pos hcopies, if_neg hrej] at hparse
    obtain ⟨copied, hcopied, hpair⟩ := Option.map_eq_some_iff.mp hparse
    obtain ⟨content, -, rfl⟩ := Option.map_eq_some_iff.mp hcopied
    obtain ⟨rfl, rfl⟩ := Prod.mk.inj hpair
    have hsame := hout (by simp)
    simp at hsame
  · intro hor data
    rw [parseResponse_ofList attach h]
    by_cases hattach : attach (announced frame) ∧ data.isSome
    · have hacc : Accepted frame := by
        rcases hor with hacc | hno
        · exact hacc
        · rw [hno] at hattach
          exact absurd hattach.1 (by simp)
      have hcopy : memcpy (frame.drop 11) (announced frame) = some (frame.drop 11) := by
        have hlen : announced frame = (frame.drop 11).length := by
          have := hacc.2
          rw [List.length_drop]
          omega
        rw [hlen, memcpy_length]
      rw [if_pos hattach, if_pos hacc, hcopy]
      exact ⟨_, _, rfl, fun hne => absurd rfl hne⟩
    · rw [if_neg hattach]
      exact ⟨_, _, rfl, fun _ => rfl⟩

/-- A rejected response leaves no data behind exactly where its length field announces nothing
to attach: no payload in the read parser, at most two bytes in the write parser. -/
theorem rejected_leaves_data_iff (frame : List Byte) (h : 11 ≤ frame.length) :
    (LeavesData mcParseReadResponse frame ↔
      (binaryEndCode frame = 0 ∧ (frame.length = binaryLengthField frame + 9 ∨
        binaryLengthField frame < 2 ∧ frame.length = binaryLengthField frame + 65545)) ∨
      binaryLengthField frame = 2) ∧
    (LeavesData mcParseWriteResponse frame ↔
      (binaryEndCode frame = 0 ∧ (frame.length = binaryLengthField frame + 9 ∨
        binaryLengthField frame < 2 ∧ frame.length = binaryLengthField frame + 65545)) ∨
      2 ≤ binaryLengthField frame ∧ binaryLengthField frame ≤ 4) := by
  constructor
  · change LeavesData (parseResponse fun rsCount => decide (rsCount > 0)) frame ↔ _
    refine (parseResponse_leaves_iff _ h).trans (or_congr (accepted_iff h) ?_)
    rw [decide_eq_false_iff_not, announced_eq]
    split_ifs <;> omega
  · change LeavesData (parseResponse fun rsCount => decide (rsCount > 2)) frame ↔ _
    refine (parseResponse_leaves_iff _ h).trans (or_congr (accepted_iff h) ?_)
    rw [decide_eq_false_iff_not, announced_eq]
    split_ifs <;> omega

/-- An error reply with the access route and the command that failed behind its end code. -/
def errorReply : List Byte :=
  [0xD0, 0x00, 0x00, 0xFF, 0xFF, 0x03, 0x00, 0x0B, 0x00, 0x51, 0xC0,
    0x00, 0xFF, 0xFF, 0x03, 0x00, 0x01, 0x04, 0x00, 0x00]

/-- The error reply is attached by both parsers, and a length field of zero leads both copies
out of the buffer. -/
theorem errorReply_attached :
    ¬ LeavesData mcParseReadResponse errorReply ∧ ¬ LeavesData mcParseWriteResponse errorReply ∧
      mcParseReadResponse (.ofList errorReply) (some .empty) =
        some (.failed, some (.ofList (errorReply.drop 11))) ∧
      mcParseReadResponse (.ofList (List.replicate 11 0)) (some .empty) = none ∧
      mcParseWriteResponse (.ofList (List.replicate 11 0)) (some .empty) = none := by
  have hread : mcParseReadResponse (.ofList errorReply) (some .empty) =
      some (.failed, some (.ofList (errorReply.drop 11))) := by decide +kernel
  have hwrite : mcParseWriteResponse (.ofList errorReply) (some .empty) =
      some (.failed, some (.ofList (errorReply.drop 11))) := by decide +kernel
  refine ⟨fun hleaves => ?_, fun hleaves => ?_, hread, by decide, by decide⟩
  · obtain ⟨ret, out, hparse, hout⟩ := hleaves (some .empty)
    rw [hread] at hparse
    obtain ⟨rfl, rfl⟩ := Prod.mk.inj (Option.some.inj hparse)
    exact absurd (hout (by decide)) (by decide)
  · obtain ⟨ret, out, hparse, hout⟩ := hleaves (some .empty)
    rw [hwrite] at hparse
    obtain ⟨rfl, rfl⟩ := Prod.mk.inj (Option.some.inj hparse)
    exact absurd (hout (by decide)) (by decide)

/-- A reply without a payload leaves nothing. -/
theorem rejected_leaves_data_short :
    (LeavesData mcParseReadResponse [0xD0, 0, 0, 0xFF, 0xFF, 3, 0, 2, 0, 0x51, 0xC0] ↔
      (binaryEndCode [0xD0, 0, 0, 0xFF, 0xFF, 3, 0, 2, 0, 0x51, 0xC0] = 0 ∧
        (11 = binaryLengthField [0xD0, 0, 0, 0xFF, 0xFF, 3, 0, 2, 0, 0x51, 0xC0] + 9 ∨
          binaryLengthField [0xD0, 0, 0, 0xFF, 0xFF, 3, 0, 2, 0, 0x51, 0xC0] < 2 ∧
            11 = binaryLengthField [0xD0, 0, 0, 0xFF, 0xFF, 3, 0, 2, 0, 0x51, 0xC0] + 65545)) ∨
      binaryLengthField [0xD0, 0, 0, 0xFF, 0xFF, 3, 0, 2, 0, 0x51, 0xC0] = 2) :=
  (rejected_leaves_data_iff [0xD0, 0, 0, 0xFF, 0xFF, 3, 0, 2, 0, 0x51, 0xC0] (by decide)).1

end MelsecMc
