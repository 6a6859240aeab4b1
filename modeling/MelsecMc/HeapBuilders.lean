import MelsecMc.OnHeap
import MelsecMc.RequestFrames

/-!
# What the builders leave on the heap

A builder takes one block, the one that it returns, and frees what it was given
to consume. Where every request for memory is granted it builds what the model
without a heap builds; a refused request ends in a null pointer or, where the code
does not look at what `malloc` returned, in an access through one.
-/
namespace MelsecMc.OnHeap

open HeapBlocks HeapProgram

variable {g : Allocator} {L M N : Finset Block}

/-- What a program without a double use may stop for: an access outside a block, which the model
makes, too, unless a request was refused. -/
def Faults (g : Allocator) {β : Type} (model : Option β) (e : Halt) : Prop :=
  e = .outside ∧ (Granted g → model = none)

/-- A builder ends with its block beside `L`, and with what the model builds unless a request was
refused. -/
def Builds (g : Allocator) (N L : Finset Block) (p : HeapProgram HeapBytes)
    (model : Option ByteArrayInfo) : Prop :=
  Holds g N p (Faults g model) fun a M =>
    Takes L a.block M ∧ (Granted g → model = some a.bytes)

theorem Faults.congr {β γ : Type} {model : Option β} {model' : Option γ} {e : Halt}
    (h : Faults g model e) (hm : Granted g → model = none → model' = none) : Faults g model' e :=
  ⟨h.1, fun hall => hm hall (h.2 hall)⟩

theorem Builds.congr {p : HeapProgram HeapBytes} {model model' : Option ByteArrayInfo}
    (h : Builds g N L p model) (hm : Granted g → model = model') : Builds g N L p model' :=
  h.mono (fun _ he => he.congr fun hall hnone => (hm hall).symm.trans hnone)
    fun _ _ ha => ⟨ha.1, fun hall => (hm hall).symm.trans (ha.2 hall)⟩

@[simp] theorem HeapArray.null_bytes : (HeapArray.null 0).bytes = .empty := rfl

/-- What `malloc` of an `int` size returns. -/
def Answers (g : Allocator) (size : ℤ) (o : Pointer) : Prop :=
  (o.isSome → MelsecMc.malloc size = true) ∧ (Granted g → o.isSome = MelsecMc.malloc size)

theorem Answers.of_some {size : ℤ} {b : Block} (h : Answers g size (some b)) :
    MelsecMc.malloc size = true := h.1 rfl

theorem Answers.of_none {size : ℤ} (h : Answers g size none) (hall : Granted g) :
    ¬ MelsecMc.malloc size = true := by
  rw [← h.2 hall]
  exact Bool.false_ne_true

theorem holds_mallocInt {size : ℤ} {E : Halt → Prop} {Q : Pointer → Finset Block → Prop}
    (h : ∀ o M, Takes L o M → Answers g size o → Q o M) :
    Holds g L (mallocInt size) E Q := by
  unfold mallocInt
  split
  · rename_i hsize
    exact .malloc fun o M ht hg => h o M ht ⟨fun _ => hsize, fun hall => by rw [hg hall, hsize]⟩
  · rename_i hsize
    exact .pure (h none L rfl ⟨nofun, fun _ => by simp [hsize]⟩)

theorem holds_copy {b : Block} {content : List Byte} {length n : ℤ} {E : Halt → Prop}
    {Q : List Byte → Finset Block → Prop} (h : Live L (some b))
    (hE : memcpy content n = none → E .outside)
    (hQ : ∀ bytes, memcpy content n = some bytes → Q bytes L) :
    Holds g L (copy ⟨some b, content, length⟩ n) E Q :=
  .bind (.use h (.ofOption hE hQ))

/-- A new block with what is read from others. -/
theorem filled_builds {size length : ℤ} {refused : HeapBytes} {fill : HeapProgram (List Byte)}
    (content : Option (List Byte)) (hr : refused.block = none)
    (hfill : ∀ M, L ⊆ M → Holds g M fill (fun e => e = .outside ∧ content = none)
      fun c M' => M' = M ∧ content = some c) :
    Builds g L L (filled size refused fill length)
      (if MelsecMc.malloc size then content.map fun c => ⟨some c, length⟩
        else some refused.bytes) := by
  refine .bind (holds_mallocInt fun o M ht hg => ?_)
  cases o with
  | none =>
    refine .pure ⟨by rw [hr]; exact ht, fun hall => ?_⟩
    rw [if_neg (hg.of_none hall)]
  | some b =>
    rw [if_pos hg.of_some]
    refine .bind ((hfill M ht.subset).mono (fun e he => ⟨he.1, fun _ => by rw [he.2]; rfl⟩) ?_)
    rintro c _ ⟨rfl, hc⟩
    exact .pure ⟨ht, fun _ => by rw [hc]; rfl⟩

theorem buildReadCoreCommand_builds (address_data : MelsecMcAddressData) (is_bit : Bool) :
    Builds g L L (buildReadCoreCommand address_data is_bit)
      (some (MelsecMc.buildReadCoreCommand address_data is_bit)) := by
  exact filled_builds (some _) rfl fun M _ => .pure ⟨rfl, rfl⟩

/-- Both packers, by the header they put in front. -/
theorem packed_builds {mc_core : HeapBytes} (header : List Byte) (cmd_len : ℤ)
    (h : Live L mc_core.block) : Builds g L L (packed header cmd_len mc_core)
      (match mc_core.bytes.data with
      | none => some .empty
      | some core =>
        if mc_core.bytes.length ≤ 0 then some .empty
        else if MelsecMc.malloc cmd_len then
          (memcpy core mc_core.bytes.length).map fun core => ⟨some (header ++ core), cmd_len⟩
        else some .empty) := by
  obtain ⟨block, core, length⟩ := mc_core
  cases block with
  | none => exact .pure ⟨rfl, fun _ => rfl⟩
  | some b =>
    by_cases hlen : length ≤ 0
    · have hnull : packed header cmd_len ⟨some b, core, length⟩ = pure (.null 0) :=
        if_pos (.inr hlen)
      simp only [hnull, HeapArray.bytes, Option.map_some, hlen, if_true]
      exact .pure ⟨rfl, fun _ => rfl⟩
    · have hfilled : packed header cmd_len ⟨some b, core, length⟩ =
          filled cmd_len (.null 0) (do
            let core ← copy ⟨some b, core, length⟩ length
            return header ++ core) cmd_len := if_neg (by simp [hlen])
      simp only [hfilled, HeapArray.bytes, Option.map_some, hlen, if_false]
      have hbuilt : Builds g L L (filled cmd_len (.null 0) (do
            let core ← copy ⟨some b, core, length⟩ length
            return header ++ core) cmd_len) (if MelsecMc.malloc cmd_len then
          ((memcpy core length).map (header ++ ·)).map fun c => ⟨some c, cmd_len⟩
        else some (HeapArray.null 0).bytes) :=
        filled_builds _ rfl fun M hM => .bind (holds_copy (h.mono hM)
          (fun hnone => ⟨rfl, by simp [hnone]⟩) fun bytes hbytes => .pure ⟨rfl, by simp [hbytes]⟩)
      simpa only [Option.map_map, Function.comp_def, HeapArray.null_bytes] using hbuilt

theorem packMcCommand_builds {mc_core : HeapBytes} (network : PlcNetworkAddress)
    (h : Live L mc_core.block) : Builds g L L (packMcCommand mc_core network)
      (MelsecMc.packMcCommand mc_core.bytes network) :=
  packed_builds _ _ h

theorem packMcAsciiCommand_builds {mc_core : HeapBytes} (network : PlcNetworkAddress)
    (h : Live L mc_core.block) : Builds g L L (packMcAsciiCommand mc_core network)
      (MelsecMc.packMcAsciiCommand mc_core.bytes network) :=
  packed_builds _ _ h

/-- With a value, the builder is this. -/
theorem buildWriteWordCoreCommand_bytes (address_data : MelsecMcAddressData) (b : Block)
    (content : List Byte) (length : ℤ) :
    MelsecMc.buildWriteWordCoreCommand address_data (HeapArray.bytes ⟨some b, content, length⟩) =
      if MelsecMc.malloc (toInt32 (10 + length)) then (memcpy content length).map fun content =>
        ⟨some (coreHeader (0x01, 0x14, 0x00, 0x00) address_data (shiftRight length 1) ++ content),
          toInt32 (10 + length)⟩
      else some ⟨none, 0⟩ := rfl

theorem buildWriteWordCoreCommand_builds {value : HeapBytes}
    (address_data : MelsecMcAddressData) (h : Takes L value.block N) (hv : value.block.isSome) :
    Holds g N (buildWriteWordCoreCommand address_data value)
      (Faults g (MelsecMc.buildWriteWordCoreCommand address_data value.bytes)) fun a M =>
        (if a.block.isSome then Takes L a.block M else M = N) ∧
          (Granted g → MelsecMc.buildWriteWordCoreCommand address_data value.bytes =
            some a.bytes) := by
  obtain ⟨_ | b, content, length⟩ := value
  · cases hv
  rw [buildWriteWordCoreCommand_bytes]
  simp only [buildWriteWordCoreCommand, Option.isSome_some, if_true]
  refine .bind (holds_mallocInt fun o M ht hg => ?_)
  cases o with
  | none =>
    exact .pure ⟨ht, fun hall => by rw [if_neg (hg.of_none hall)]; rfl⟩
  | some command =>
    rw [if_pos hg.of_some]
    obtain ⟨M', ht', hM'⟩ := h.swap ht
    refine .bind (holds_copy (h.live.mono ht.subset)
      (fun hnone => ⟨rfl, fun _ => by rw [hnone]; rfl⟩) fun bytes hbytes => ?_)
    exact .bind (.free hM' (.pure ⟨ht', fun _ => by rw [hbytes]; rfl⟩))

theorem transBoolArrayToByteData_builds {value : HeapArray Bool} (h : Live L value.block) :
    Builds g L L (transBoolArrayToByteData value)
      (MelsecMc.transBoolArrayToByteData value.bools) := by
  obtain ⟨_ | b, content, length⟩ := value
  · exact .pure ⟨rfl, fun _ => rfl⟩
  · exact filled_builds (g := g) (L := L) _ rfl fun M hM =>
      .bind (.use (h.mono hM) (.ofOption (fun hnone => ⟨rfl, hnone⟩) fun out hout => ⟨rfl, hout⟩))

theorem buildWriteBitCoreCommand_builds {value : HeapArray Bool}
    (address_data : MelsecMcAddressData) (h : Live L value.block) :
    Builds g L L (buildWriteBitCoreCommand address_data value)
      (MelsecMc.buildWriteBitCoreCommand address_data value.bools) := by
  refine .bind ((transBoolArrayToByteData_builds h).mono (fun e he => ⟨he.1, fun hall => ?_⟩) ?_)
  · rw [MelsecMc.buildWriteBitCoreCommand, he.2 hall]
    rfl
  rintro ⟨_ | b, content, length⟩ M ⟨ht, hbuffer⟩
  · obtain rfl := ht
    refine .pure ⟨rfl, fun hall => ?_⟩
    rw [MelsecMc.buildWriteBitCoreCommand, hbuffer hall]
    rfl
  · have hmodel : Granted g → MelsecMc.buildWriteBitCoreCommand address_data value.bools =
        if MelsecMc.malloc (toInt32 (10 + length)) then do
          let content ← memcpy content length
          return ⟨some (coreHeader (0x01, 0x14, 0x01, 0x00) address_data address_data.length ++
            content), toInt32 (10 + length)⟩
        else some .empty := by
      intro hall
      rw [MelsecMc.buildWriteBitCoreCommand, hbuffer hall]
      rfl
    refine .bind (holds_mallocInt fun o N hN hg => ?_)
    cases o with
    | none =>
      obtain rfl := hN
      refine .bind (.free ht (.pure ⟨rfl, fun hall => ?_⟩))
      rw [hmodel hall, if_neg (hg.of_none hall)]
      rfl
    | some command =>
      obtain ⟨M', ht', hM'⟩ := ht.swap hN
      refine .bind (holds_copy (ht.live.mono hN.subset)
        (fun hnone => ⟨rfl, fun hall => ?_⟩)
        fun bytes hbytes => .bind (.free hM' (.pure ⟨ht', fun hall => ?_⟩)))
      · rw [hmodel hall, if_pos hg.of_some, hnone]
        rfl
      · rw [hmodel hall, if_pos hg.of_some, hbytes]
        rfl

theorem memcpy_size {src out : List Byte} {n : ℤ} (h : memcpy src n = some out) :
    (out.length : ℤ) = n := by
  rw [memcpy] at h
  split_ifs at h with hn
  rw [← Option.some.inj h, List.length_take]
  omega

/-- Where the text has room, its length does not wrap around. -/
theorem text_size {n : ℤ} (hpos : 0 < n) (hn : InInt32 n)
    (hroom : MelsecMc.malloc (toInt32 (n * 2 + 1)) = true) : toInt32 (n * 2) = n * 2 := by
  have hlt := hn.2
  have hroom := of_decide_eq_true hroom
  refine toInt32_eq ⟨by omega, lt_of_not_ge fun hge => ?_⟩
  rw [toInt32_of_ge (by omega) (by omega)] at hroom
  omega

/-- A payload of its own length, which is not zero. -/
def Whole (a : HeapBytes) : Prop := 0 < a.length ∧ memcpy a.content a.length = some a.content

theorem whole_of_length {b : Pointer} {content : List Byte} {length : ℤ} (hpos : 0 < length)
    (h : (content.length : ℤ) = length) : Whole ⟨b, content, length⟩ := by
  subst h
  exact ⟨hpos, memcpy_length content⟩

/-- The text of the bytes has two characters for each. -/
theorem buildAsciiBytesFromByteArray_builds {data : HeapBytes} {length : ℤ}
    (h : Live L data.block) (hlen : InInt32 length) :
    Holds g L (buildAsciiBytesFromByteArray data length)
      (Faults g (MelsecMc.buildAsciiBytesFromByteArray data.bytes.data length)) fun a M =>
        Takes L a.block M ∧
        (a.block.isSome → Whole a) ∧
        (Granted g → MelsecMc.buildAsciiBytesFromByteArray data.bytes.data length =
          some a.bytes) := by
  obtain ⟨_ | b, content, n⟩ := data
  · exact .pure ⟨rfl, nofun, fun _ => rfl⟩
  unfold buildAsciiBytesFromByteArray
  by_cases hpos : 0 < length
  · have hmodel : MelsecMc.buildAsciiBytesFromByteArray (some content) length =
        if MelsecMc.malloc (toInt32 (length * 2 + 1)) then
          (memcpy content length).map fun bytes =>
            ⟨some (bytes.flatMap hexStrPair), toInt32 (length * 2)⟩
        else none := by
      simp [MelsecMc.buildAsciiBytesFromByteArray, hpos]
    simp only [HeapArray.bytes, Option.map_some, hmodel, Option.isSome_some, hpos, and_self,
      if_true]
    refine .bind (holds_mallocInt fun o M ht hg => ?_)
    cases o with
    | none => exact .bind (.use_null ⟨rfl, fun hall => if_neg (hg.of_none hall)⟩)
    | some out =>
      rw [if_pos hg.of_some]
      refine .bind (.use ht.live (.bind (holds_copy (h.mono ht.subset)
        (fun hnone => ⟨rfl, fun _ => by rw [hnone]; rfl⟩) fun bytes hbytes => ?_)))
      refine .pure ⟨ht, fun _ => ?_, fun _ => by rw [hbytes]; rfl⟩
      have hdouble := text_size hpos hlen hg.of_some
      have hbytes' := memcpy_size hbytes
      refine whole_of_length (by omega) ?_
      rw [hexStrPair_flatMap_length, hdouble]
      push_cast
      omega
  · have hmodel : MelsecMc.buildAsciiBytesFromByteArray (some content) length =
        some ⟨none, toInt32 (length * 2)⟩ := by
      simp [MelsecMc.buildAsciiBytesFromByteArray, hpos]
    simp only [HeapArray.bytes, Option.map_some, hmodel, Option.isSome_some, hpos, and_false,
      if_false]
    exact .pure ⟨rfl, nofun, fun _ => rfl⟩

theorem buildAsciiBytesFromBoolArray_builds {value : HeapArray Bool} {length : ℤ}
    (h : Live L value.block) :
    Holds g L (buildAsciiBytesFromBoolArray value length)
      (Faults g (MelsecMc.buildAsciiBytesFromBoolArray value.bools.data length)) fun a M =>
        Takes L a.block M ∧ (a.block.isSome → Whole a) ∧
        (Granted g → MelsecMc.buildAsciiBytesFromBoolArray value.bools.data length =
          some a.bytes) := by
  obtain ⟨_ | b, content, n⟩ := value
  · exact .pure ⟨rfl, nofun, fun _ => rfl⟩
  unfold buildAsciiBytesFromBoolArray
  by_cases hpos : 0 < length
  · have hmodel : MelsecMc.buildAsciiBytesFromBoolArray (some content) length =
        (if length ≤ content.length then some (content.take length.toNat) else none).map
          fun points => ⟨some (points.map fun p => if p then 0x31 else 0x30), length⟩ := by
      simp only [MelsecMc.buildAsciiBytesFromBoolArray, hpos, if_true]
      split_ifs <;> rfl
    simp only [HeapArray.bools, Option.map_some, hmodel, Option.isSome_some, hpos, and_self,
      if_true]
    refine .bind (holds_mallocInt fun o M ht hg => ?_)
    cases o with
    | none =>
      refine .bind (.use_null ⟨rfl, fun hall => absurd ?_ (hg.of_none hall)⟩)
      exact decide_eq_true hpos.le
    | some out =>
      refine .bind (.use ht.live (.bind (.use (h.mono ht.subset) (.bind (.ofOption
        (fun hnone => ⟨rfl, fun _ => by rw [hnone]; rfl⟩) fun points hpoints => ?_)))))
      refine .pure ⟨ht, fun _ => ?_, fun _ => by rw [hpoints]; rfl⟩
      split_ifs at hpoints with hle
      refine whole_of_length hpos ?_
      rw [← Option.some.inj hpoints, List.length_map, List.length_take]
      omega
  · have hmodel : MelsecMc.buildAsciiBytesFromBoolArray (some content) length =
        some ⟨none, length⟩ := by
      simp only [MelsecMc.buildAsciiBytesFromBoolArray, hpos, if_false]
    simp only [HeapArray.bools, Option.map_some, hmodel, Option.isSome_some, hpos, and_false,
      if_false]
    exact .pure ⟨rfl, nofun, fun _ => rfl⟩

theorem mcAsciiBuildReadCoreCommand_builds (address_data : MelsecMcAddressData) (is_bit : Bool) :
    Builds g L L (mcAsciiBuildReadCoreCommand address_data is_bit)
      (some (MelsecMc.mcAsciiBuildReadCoreCommand address_data is_bit)) := by
  unfold mcAsciiBuildReadCoreCommand MelsecMc.mcAsciiBuildReadCoreCommand
  refine .bind (holds_mallocInt fun o M ht hg => ?_)
  cases o with
  | none => exact .pure ⟨ht, fun hall => absurd rfl (hg.of_none hall)⟩
  | some command =>
    dsimp only
    cases asciiCoreHeader _ address_data with
    | none => exact .bind (.free ht (.pure ⟨rfl, fun _ => rfl⟩))
    | some header => exact .pure ⟨ht, fun _ => rfl⟩

/-- The payload goes into the command or is freed. -/
theorem asciiCoreCommand_builds {payload : HeapBytes} (command : List Char)
    (address_data : MelsecMcAddressData) (h : Takes L payload.block N)
    (hw : payload.block.isSome → Whole payload) :
    Builds g N L (asciiCoreCommand command address_data payload)
      (some (MelsecMc.asciiCoreCommand command address_data payload.bytes)) := by
  obtain ⟨_ | b, content, length⟩ := payload
  · obtain rfl := h
    exact .pure ⟨rfl, fun _ => rfl⟩
  obtain ⟨hpos, hcopy⟩ := hw rfl
  have hneg : ¬ length ≤ 0 := not_le.mpr hpos
  have hmodel : MelsecMc.asciiCoreCommand command address_data
        (HeapArray.bytes ⟨some b, content, length⟩) =
      if MelsecMc.malloc (toInt32 (20 + length)) then
        match asciiCoreHeader command address_data with
        | none => .empty
        | some header => ⟨some (header ++ content), toInt32 (20 + length)⟩
      else .empty := if_neg hneg
  rw [hmodel]
  simp only [asciiCoreCommand, Option.isNone_some, Bool.false_eq_true, false_or, hneg, if_false]
  refine .bind (holds_mallocInt fun o M ht hg => ?_)
  cases o with
  | none =>
    obtain rfl := ht
    exact .bind (.free h (.pure ⟨rfl, fun hall => by rw [if_neg (hg.of_none hall)]; rfl⟩))
  | some out =>
    rw [if_pos hg.of_some]
    obtain ⟨M', ht', hM'⟩ := h.swap ht
    dsimp only
    cases asciiCoreHeader command address_data with
    | none => exact .bind (.free hM' (.bind (.free ht' (.pure ⟨rfl, fun _ => rfl⟩))))
    | some header =>
      refine .bind (holds_copy hM'.live (fun hnone => ?_) fun bytes hbytes => ?_)
      · rw [hcopy] at hnone
        cases hnone
      · obtain rfl := Option.some.inj (hcopy.symm.trans hbytes)
        exact .bind (.free hM' (.pure ⟨ht', fun _ => rfl⟩))

theorem mcAsciiBuildWriteWordCoreCommand_builds {value : HeapBytes}
    (address_data : MelsecMcAddressData) (h : Live L value.block) (hlen : InInt32 value.length) :
    Builds g L L (mcAsciiBuildWriteWordCoreCommand address_data value)
      (MelsecMc.mcAsciiBuildWriteWordCoreCommand address_data value.bytes) := by
  obtain ⟨_ | b, content, length⟩ := value
  · exact .pure ⟨rfl, fun _ => rfl⟩
  unfold mcAsciiBuildWriteWordCoreCommand
  simp only [Option.isNone_some, Bool.false_eq_true, false_or]
  by_cases hpos : length ≤ 0
  · rw [if_pos hpos]
    exact .pure ⟨rfl, fun _ => if_pos hpos⟩
  rw [if_neg hpos]
  by_cases hodd : length.tmod 2 ≠ 0
  · rw [if_pos hodd]
    exact .pure ⟨rfl, fun _ => (if_neg hpos).trans (if_pos hodd)⟩
  rw [if_neg hodd]
  have hmodel : MelsecMc.mcAsciiBuildWriteWordCoreCommand address_data
        (HeapArray.bytes ⟨some b, content, length⟩) = do
      let payload_bytes ← memcpy content length
      let payload ← MelsecMc.buildAsciiBytesFromByteArray (some (swapWords payload_bytes)) length
      return MelsecMc.asciiCoreCommand ['1', '4', '0', '1', '0', '0', '0', '0'] address_data
        payload := (if_neg hpos).trans (if_neg hodd)
  rw [hmodel]
  refine .bind (holds_mallocInt fun o M ht hg => ?_)
  cases o with
  | none =>
    refine .pure ⟨ht, fun hall => absurd ?_ (hg.of_none hall)⟩
    exact decide_eq_true (not_le.mp hpos).le
  | some payload_bytes =>
    refine .bind (holds_copy (h.mono ht.subset)
      (fun hnone => ⟨rfl, fun _ => by rw [hnone]; rfl⟩)
      fun bytes hbytes => ?_)
    rw [hbytes]
    refine .bind ((buildAsciiBytesFromByteArray_builds ht.live hlen).mono
      (fun e he => he.congr fun _ hnone => ?_) ?_)
    · simp only [HeapArray.bytes, Option.map_some] at hnone
      rw [Option.bind_eq_bind, Option.bind_some, hnone]
      rfl
    rintro payload M' ⟨ht', hw, hpayload⟩
    obtain ⟨M'', htp, hM''⟩ := ht.swap ht'
    refine .bind (.free hM'' ((asciiCoreCommand_builds _ address_data htp hw).congr fun hall => ?_))
    have hp := hpayload hall
    simp only [HeapArray.bytes, Option.map_some] at hp
    rw [Option.bind_eq_bind, Option.bind_some, hp]
    rfl

theorem mcAsciiBuildWriteBitCoreCommand_builds {value : HeapArray Bool}
    (address_data : MelsecMcAddressData) (h : Live L value.block) :
    Builds g L L (mcAsciiBuildWriteBitCoreCommand address_data value)
      (MelsecMc.mcAsciiBuildWriteBitCoreCommand address_data value.bools) := by
  obtain ⟨_ | b, content, length⟩ := value
  · exact .pure ⟨rfl, fun _ => rfl⟩
  unfold mcAsciiBuildWriteBitCoreCommand
  simp only [Option.isNone_some, Bool.false_eq_true, false_or]
  by_cases hpos : length ≤ 0
  · rw [if_pos hpos]
    exact .pure ⟨rfl, fun _ => if_pos hpos⟩
  rw [if_neg hpos]
  have hmodel : MelsecMc.mcAsciiBuildWriteBitCoreCommand address_data
        (HeapArray.bools ⟨some b, content, length⟩) = do
      let payload ← MelsecMc.buildAsciiBytesFromBoolArray (some content) length
      return MelsecMc.asciiCoreCommand ['1', '4', '0', '1', '0', '0', '0', '1'] address_data
        payload := if_neg hpos
  rw [hmodel]
  refine .bind ((buildAsciiBytesFromBoolArray_builds h).mono
    (fun e he => he.congr fun _ hnone => ?_) ?_)
  · simp only [HeapArray.bools, Option.map_some] at hnone
    rw [hnone]
    rfl
  · rintro payload M ⟨ht, hw, hpayload⟩
    refine (asciiCoreCommand_builds _ address_data ht hw).congr fun hall => ?_
    have hp := hpayload hall
    simp only [HeapArray.bools, Option.map_some] at hp
    rw [hp]
    rfl

theorem mcAsciiBuildCoreFromLeWords_builds (raw_cmd : List Byte) :
    Builds g L L (mcAsciiBuildCoreFromLeWords raw_cmd)
      (some (MelsecMc.mcAsciiBuildCoreFromLeWords raw_cmd)) := by
  unfold mcAsciiBuildCoreFromLeWords MelsecMc.mcAsciiBuildCoreFromLeWords
  by_cases hraw : raw_cmd.length = 0 ∨ raw_cmd.length % 2 ≠ 0
  · rw [if_pos hraw, if_pos hraw]
    exact .pure ⟨rfl, fun _ => rfl⟩
  · rw [if_neg hraw, if_neg hraw]
    generalize toInt32 (raw_cmd.length * 2) = size
    have hbuilt : Builds g L L (filled size (.null 0) (pure (asciiOfLeWords raw_cmd))
        (asciiOfLeWords raw_cmd).length) (if MelsecMc.malloc size then
          (some (asciiOfLeWords raw_cmd)).map fun c => ⟨some c, (asciiOfLeWords raw_cmd).length⟩
        else some (HeapArray.null 0).bytes) :=
      filled_builds _ rfl fun M _ => .pure ⟨rfl, rfl⟩
    refine hbuilt.congr fun _ => ?_
    split <;> rfl

end MelsecMc.OnHeap
