import MelsecMc.HeapRequests

/-!
# What the typed functions leave on the heap

A reader frees the payload that it decodes, and leaves any other one to nobody: that
of a refused read, and one that is too short for the value. A writer copies its values
to a block of its own, which goes the way of the words or points that it becomes.
-/
namespace MelsecMc.OnHeap

open HeapBlocks HeapProgram

variable {g : Allocator} {r : Transacted} {L M N : Finset Block}

/-- A payload that a read attached and that its caller leaves alone: the read failed, or the
payload is too short. -/
def LeftBehind (enough : ℤ → Prop) (read : Option (ErrorCode × ByteArrayInfo)) : Prop :=
  ∃ x ∈ read, x.2.data.isSome ∧ ¬ (x.1 = .success ∧ enough x.2.length)

instance (enough : ℤ → Prop) [DecidablePred enough] (read : Option (ErrorCode × ByteArrayInfo)) :
    Decidable (LeftBehind enough read) :=
  inferInstanceAs (Decidable (∃ x ∈ read, _))

section Readers

variable (network : PlcNetworkAddress) {fd : ℤ} {address : Option CString} {length : ℤ}

/-- The end of a reader without the heap. -/
def takenModel {γ : Type} (enough : ℤ → Bool) (decode : List Byte → Option γ)
    (x : ErrorCode × ByteArrayInfo) : Call (ErrorCode × Option γ) :=
  if x.1 = .success ∧ enough x.2.length then do
    let v ← .ofOption (x.2.data.bind decode)
    return (x.1, some v)
  else return (x.1, none)

/-- A reader past its checks. A payload that it takes is freed, or lost where a request for memory
is refused; any other payload is left behind. -/
theorem payload_accounts {β δ : Type} {read : HeapProgram (ErrorCode × HeapBytes)}
    {c : Call (ErrorCode × ByteArrayInfo)} (enough : ℤ → Prop)
    {f : ErrorCode × HeapBytes → HeapProgram (ErrorCode × Option δ)}
    {k : ErrorCode × ByteArrayInfo → Call β} {owned : ErrorCode × Option δ → Pointer}
    {view : ErrorCode × Option δ → β}
    (h : Follows g r L L read (fun a => a.2.block) (fun a => (a.1, a.2.bytes)) c)
    (hk : ∀ x, (k x).request = none) (howned : ∀ ret, owned (ret, none) = none)
    (hleave : ∀ ret data, ¬ (ret = .success ∧ enough data.length) →
      f (ret, data) = pure (ret, none) ∧ k (ret, data.bytes) = .ret (view (ret, none)))
    (htake : ∀ ret data M, Takes L data.block M → (ret = .success ∧ enough data.length) →
      (Granted g → c.answer r = some (ret, data.bytes)) →
      Holds g M (f (ret, data)) (Faults g ((k (ret, data.bytes)).answer r)) fun a M' =>
        (∃ lost M'', Takes L lost M'' ∧ Takes M'' (owned a) M' ∧ (Granted g → lost = none)) ∧
          (Granted g → (k (ret, data.bytes)).answer r = some (view a))) :
    Accounts g r L L (read >>= f) owned view (c >>= k) (LeftBehind enough (c.answer r)) := by
  refine h.andThen hk ?_
  rintro ⟨ret, data⟩ M hM hresult
  have hleft : Granted g → (LeftBehind enough (c.answer r) ↔
      data.block.isSome ∧ ¬ (ret = .success ∧ enough data.length)) := by
    intro hall
    rw [hresult hall]
    simp [LeftBehind, HeapArray.bytes]
  dsimp only at hM hresult ⊢
  by_cases hok : ret = .success ∧ enough data.length
  · refine (htake ret data M hM hok hresult).mono (fun _ he => he) ?_
    rintro a M' ⟨⟨lost, M'', hlost, ha, hnone⟩, hanswer⟩
    refine ⟨⟨lost, M'', hlost, ha, fun hall => ?_⟩, hanswer⟩
    rw [hleft hall, hnone hall]
    simp [hok]
  · have hM' : Takes M (owned (ret, none)) M := by
      rw [howned]
      rfl
    rw [(hleave ret data hok).1, (hleave ret data hok).2]
    refine .pure ⟨⟨data.block, M, hM, hM', fun hall => ?_⟩, fun _ => rfl⟩
    rw [hleft hall]
    simp [hok]

theorem taken_accounts {γ : Type} {read : HeapProgram (ErrorCode × HeapBytes)}
    {c : Call (ErrorCode × ByteArrayInfo)} (enough : ℤ → Bool) (decode : List Byte → Option γ)
    (h : Follows g r L L read (fun a => a.2.block) (fun a => (a.1, a.2.bytes)) c) :
    Accounts g r L L (taken read enough decode) (fun _ => none) id
      (c >>= takenModel enough decode) (LeftBehind (fun n => enough n = true) (c.answer r)) := by
  refine payload_accounts _ h ?_ (fun _ => rfl) ?_ ?_
  · rintro ⟨ret, data⟩
    unfold takenModel
    split
    · exact Call.request_ofOption_bind _ fun _ => rfl
    · rfl
  · exact fun ret data hno => ⟨if_neg hno, if_neg hno⟩
  rintro ret ⟨block, content, len⟩ M hM hok -
  have hmodel : takenModel enough decode (ret, HeapArray.bytes ⟨block, content, len⟩) = (do
      let v ← .ofOption ((block.map fun _ => content).bind decode)
      return (ret, some v)) := if_pos hok
  dsimp only at hok ⊢
  rw [hmodel, if_pos hok]
  cases block with
  | none => exact .bind (.use_null ⟨rfl, fun _ => rfl⟩)
  | some b =>
    refine .bind (.use hM.live (.bind (.ofOption (fun hnone => ⟨rfl, fun _ => ?_⟩) ?_)))
    · simp only [Option.map_some, Option.bind_some, hnone]
      rfl
    · intro v hv
      refine .bind (.free hM (.pure ⟨⟨none, L, rfl, rfl, fun _ => rfl⟩, fun _ => ?_⟩))
      simp only [Option.map_some, Option.bind_some, hv]
      rfl

theorem Accounts.congr {α β : Type} {p : HeapProgram α} {owned : α → Pointer} {view : α → β}
    {c : Call β} {loses loses' : Prop} (h : Accounts g r N L p owned view c loses)
    (hl : loses ↔ loses') : Accounts g r N L p owned view c loses' := by
  obtain rfl := propext hl
  exact h

theorem Accounts.asked {α β : Type} {p : HeapProgram α} {owned : α → Pointer} {view : α → β}
    {c : Call β} {asked loses : Prop} (hasked : asked)
    (h : Accounts g r N L p owned view c loses) :
    Accounts g r N L p owned view c (asked ∧ loses) :=
  h.congr (by simp [hasked])

/-- A reader of either module, with its checks. -/
theorem reader_accounts {γ : Type} {refused asked : Prop} [Decidable refused]
    (hasked : ¬ refused ↔ asked) {read : HeapProgram (ErrorCode × HeapBytes)}
    {c : Call (ErrorCode × ByteArrayInfo)} {enough : ℤ → Bool} {least : ℤ → Prop}
    (hleast : ∀ n, enough n ↔ least n) {decode : List Byte → Option γ}
    {k : ErrorCode × ByteArrayInfo → Call (ErrorCode × Option γ)}
    (h : Follows g r L L read (fun a => a.2.block) (fun a => (a.1, a.2.bytes)) c)
    (hk : asked → ∀ x, k x = takenModel enough decode x) :
    Accounts g r L L (if refused then pure (.invalidParameter, none) else taken read enough decode)
      (fun _ => none) id (if refused then .ret (.invalidParameter, none) else c >>= k)
      (asked ∧ LeftBehind least (c.answer r)) := by
  obtain rfl : (fun n => enough n = true) = least := funext fun n => propext (hleast n)
  split
  · rename_i hrefused
    have hno : ¬ asked := fun h => (hasked.mpr h) hrefused
    exact .pure ⟨⟨none, L, rfl, rfl, fun _ => by simp [hno]⟩, returns_quiet rfl fun _ => rfl⟩
  · rename_i hok
    have hasked := hasked.mp hok
    rw [funext (hk hasked)]
    exact (taken_accounts enough decode h).congr (by simp [hasked])

theorem not_refused_iff {val : Bool} :
    ¬ (fd ≤ 0 ∨ address.isNone ∨ ¬ val) ↔ 0 < fd ∧ address.isSome ∧ val := by
  cases address <;> cases val <;> simp

/-- The end of both readers of one point. -/
theorem firstPoint_eq (x : ErrorCode × ByteArrayInfo) :
    (match x with
      | (ret, read_data) =>
        if ret = .success ∧ 0 < read_data.length then do
          let b ← .ofOption (read_data.data.bind (·[0]?))
          return (ret, some (b != 0))
        else return (ret, none) : Call (ErrorCode × Option Bool)) =
      takenModel (fun n => decide (0 < n)) (fun data => data[0]?.map (· != 0)) x := by
  obtain ⟨ret, _ | content, length⟩ := x
  · simp [takenModel]
  · cases hhead : content[0]? <;> simp [takenModel, hhead]

theorem mcReadBool_accounts (val : Bool) : Accounts g r L L (mcReadBool network fd address val r)
    (fun _ => none) id (MelsecMc.mcReadBool network fd address val)
    ((0 < fd ∧ address.isSome ∧ val) ∧ LeftBehind (0 < ·)
      ((MelsecMc.readBoolValue network fd address 1 .empty).answer r)) :=
  reader_accounts not_refused_iff (fun _ => decide_eq_true_iff) (readBoolValue_follows network)
    fun _ => firstPoint_eq

theorem readValue_accounts {size : ℕ} (C : ValueCodec size) {points : ℤ} {enough : ℤ → Bool}
    {least : ℤ → Prop} (hleast : ∀ n, enough n ↔ least n)
    {read : ℤ → Option CString → ℤ → Transacted → HeapProgram (ErrorCode × HeapBytes)}
    {readModel : ℤ → Option CString → ℤ → ByteArrayInfo → Call (ErrorCode × ByteArrayInfo)}
    (h : Follows g r L L (read fd address points r) (fun a => a.2.block)
      (fun a => (a.1, a.2.bytes)) (readModel fd address points .empty)) (val : Bool) :
    Accounts g r L L (readValue read points enough C fd address val r) (fun _ => none) id
      (MelsecMc.readValue readModel points enough C fd address val)
      ((0 < fd ∧ address.isSome ∧ val) ∧
        LeftBehind least ((readModel fd address points .empty).answer r)) :=
  reader_accounts not_refused_iff hleast h fun _ _ => rfl

theorem not_refused_length_iff {val : Bool} :
    ¬ (fd ≤ 0 ∨ address.isNone ∨ ¬ val ∨ length ≤ 0) ↔
      0 < fd ∧ address.isSome ∧ val ∧ 0 < length := by
  cases address <;> cases val <;> simp

theorem readBatch_accounts {size : ℕ} (C : ValueCodec size) {points : ℤ} (val : Bool) :
    Accounts g r L L (readBatch network points C fd address length val r) (fun _ => none) id
      (MelsecMc.readBatch network points C fd address length val)
      ((0 < fd ∧ address.isSome ∧ val ∧ 0 < length) ∧
        LeftBehind (· ≥ toInt32 (length * size))
          ((MelsecMc.readWordValue network fd address points .empty).answer r)) := by
  refine reader_accounts not_refused_length_iff (fun _ => decide_eq_true_iff)
    (readWordValue_follows network) ?_
  rintro ⟨-, -, -, hlen⟩ ⟨ret, _ | content, len⟩
  · -- without a payload the first of the values is outside
    have hnone : ((List.range length.toNat).mapM fun _ =>
        (none : Option (BitVec (8 * size)))) = none := by
      obtain ⟨n, hn⟩ : ∃ n, length.toNat = n + 1 := ⟨length.toNat - 1, by omega⟩
      rw [hn, List.range_succ_eq_map, List.mapM_cons]
      rfl
    simp [takenModel, hnone]
  · simp [takenModel]

theorem mcReadBoolBatch_accounts (val : Bool) :
    Accounts g r L L (mcReadBoolBatch network fd address length val r) (fun _ => none) id
      (MelsecMc.mcReadBoolBatch network fd address length val)
      ((0 < fd ∧ address.isSome ∧ val ∧ 0 < length) ∧
        LeftBehind (· ≥ length)
          ((MelsecMc.readBoolValue network fd address length .empty).answer r)) := by
  refine reader_accounts not_refused_length_iff (fun _ => decide_eq_true_iff)
    (readBoolValue_follows network) ?_
  rintro - ⟨ret, _ | content, len⟩
  · simp [takenModel]
  · cases hcopy : memcpy content length <;> simp [takenModel, hcopy]

theorem mcAsciiReadBool_accounts (val : Bool) :
    Accounts g r L L (Ascii.mcAsciiReadBool network fd address val r) (fun _ => none) id
      (MelsecMc.Ascii.mcAsciiReadBool network fd address val)
      ((0 < fd ∧ address.isSome ∧ val) ∧ LeftBehind (0 < ·)
        ((MelsecMc.Ascii.readBoolValue network fd address 1 .empty).answer r)) :=
  reader_accounts not_refused_iff (fun _ => decide_eq_true_iff)
    (readDeviceValue_follows network true) fun _ => firstPoint_eq

/-- The copy of a payload into a block that was allocated for it. -/
theorem holds_copyOut {α : Type} {data : HeapBytes} {n : ℤ} {b : Block} {E : Halt → Prop}
    {Q : α → Finset Block → Prop} {k : List Byte → HeapProgram α} (hM : Takes L data.block M)
    (hb : Takes M (some b) N) (hE : data.bytes.data.bind (memcpy · n) = none → E .outside)
    (hk : ∀ out A, Takes L (some b) A → data.bytes.data.bind (memcpy · n) = some out →
      Holds g A (k out) E Q) :
    Holds g N (do
      let out ← copy data n
      free data.block
      k out) E Q := by
  obtain ⟨A, hA, hdata⟩ := hM.swap hb
  obtain ⟨_ | p, content, len⟩ := data
  · exact .bind (.bind (.use_null (hE rfl)))
  · exact .bind (holds_copy hdata.live hE fun out hout =>
      .bind (.free hdata (hk out A hA hout)))

/-- Words are read only where some are asked for. -/
theorem readWordValue_asked {points : ℤ} {data : ByteArrayInfo}
    (h : (MelsecMc.readWordValue network fd address points .empty).answer r =
      some (.success, data)) : 0 < points := by
  by_contra hle
  have hrefused : MelsecMc.readWordValue network fd address points .empty =
      .ret (.invalidParameter, .empty) := if_pos (.inr (.inr (by omega)))
  rw [hrefused] at h
  exact absurd (congrArg Prod.fst (Option.some.inj h)) nofun

theorem readDeviceValue_asked {is_bit : Bool} {points : ℤ} {data : ByteArrayInfo}
    (h : (MelsecMc.Ascii.readDeviceValue network is_bit fd address points .empty).answer r =
      some (.success, data)) : 0 < points := by
  by_contra hle
  have hrefused : MelsecMc.Ascii.readDeviceValue network is_bit fd address points .empty =
      .ret (.invalidParameter, .empty) := if_pos (.inr (.inr (by omega)))
  rw [hrefused] at h
  exact absurd (congrArg Prod.fst (Option.some.inj h)) nofun

theorem nonneg_of_half_pos {n : ℤ} (h : 0 < n.tdiv 2) : 0 ≤ n := by
  by_contra hneg
  have hhalf := Int.tdiv_nonneg (a := -n) (b := 2) (by omega) (by omega)
  rw [Int.neg_tdiv] at hhalf
  omega

theorem mcReadString_accounts (val : Bool) :
    Accounts g r L L (mcReadString network fd address length val r) (fun a => attachedBlock a.2)
      (fun a => (a.1, a.2.map HeapArray.content))
      (MelsecMc.mcReadString network fd address length val)
      ((0 < fd ∧ address.isSome ∧ 0 < length) ∧
        LeftBehind (· ≥ evenLength length)
          ((MelsecMc.readWordValue network fd address ((evenLength length).tdiv 2)
            .empty).answer r)) := by
  unfold mcReadString MelsecMc.mcReadString
  by_cases hok : fd ≤ 0 ∨ address.isNone ∨ length ≤ 0
  · rw [if_pos hok, if_pos hok]
    refine .pure ⟨⟨none, L, rfl, rfl, fun _ => ?_⟩, returns_quiet rfl fun _ => rfl⟩
    rcases hok with hok | hok | hok <;> simp_all
  rw [if_neg hok, if_neg hok]
  have hasked : 0 < fd ∧ address.isSome ∧ 0 < length := by
    cases address <;> simp_all
  refine (payload_accounts (· ≥ evenLength length) (readWordValue_follows network) ?_ (fun _ => rfl)
    ?_ ?_).asked hasked
  · rintro ⟨ret, data⟩
    dsimp only
    split
    · split
      · exact Call.request_ofOption_bind _ fun _ => by split <;> rfl
      · rfl
    · rfl
  · exact fun ret data hno => ⟨if_neg hno, if_neg hno⟩
  rintro ret data M hM htake hresult
  have htake' : ret = .success ∧ data.bytes.length ≥ evenLength length := htake
  dsimp only
  rw [if_pos htake, if_pos htake']
  refine .bind (holds_mallocInt fun o M' ho hg => ?_)
  cases o with
  | none =>
    -- the one place where a payload is lost for want of memory
    obtain rfl := ho
    have hnot : ¬ Granted g := fun hall => by
      have hpos := readWordValue_asked network (htake.1 ▸ hresult hall)
      exact absurd (decide_eq_true (nonneg_of_half_pos hpos)) (hg.of_none hall)
    exact .pure ⟨⟨data.block, _, hM, rfl, fun hall => absurd hall hnot⟩,
      fun hall => absurd hall hnot⟩
  | some b =>
    rw [if_pos hg.of_some]
    refine holds_copyOut hM ho (fun hnone => ⟨rfl, fun _ => by rw [hnone]; rfl⟩) ?_
    intro out A hA hout
    rw [hout]
    cases val with
    | true => exact .pure ⟨⟨none, L, rfl, hA, fun _ => rfl⟩, fun _ => rfl⟩
    | false =>
      simp only [Bool.false_eq_true, if_false]
      exact .ofOption (fun _ => ⟨rfl, fun _ => rfl⟩) nofun

theorem mcAsciiReadString_accounts (val : Bool) :
    Accounts g r L L (Ascii.mcAsciiReadString network fd address length val r)
      (fun a => attachedBlock a.2) (fun a => (a.1, a.2.map HeapArray.content))
      (MelsecMc.Ascii.mcAsciiReadString network fd address length val)
      ((0 < fd ∧ address.isSome ∧ val ∧ 0 < length) ∧
        LeftBehind (· ≥ evenLength length)
          ((MelsecMc.Ascii.readWordValue network fd address ((evenLength length).tdiv 2)
            .empty).answer r)) := by
  unfold Ascii.mcAsciiReadString MelsecMc.Ascii.mcAsciiReadString
  by_cases hok : fd ≤ 0 ∨ address.isNone ∨ length ≤ 0 ∨ ¬ val
  · rw [if_pos hok, if_pos hok]
    refine .pure ⟨⟨none, L, rfl, rfl, fun _ => ?_⟩, returns_quiet rfl fun _ => rfl⟩
    rcases hok with hok | hok | hok | hok <;> simp_all
  rw [if_neg hok, if_neg hok]
  have hasked : 0 < fd ∧ address.isSome ∧ val ∧ 0 < length := by
    cases address <;> simp_all
  refine (payload_accounts (· ≥ evenLength length) (readDeviceValue_follows network false) ?_
    (fun _ => rfl) ?_ ?_).asked hasked
  · rintro ⟨ret, data⟩
    dsimp only
    split
    · exact Call.request_ofOption_bind _ fun _ => rfl
    · rfl
  · exact fun ret data hno => ⟨if_neg hno, if_neg hno⟩
  rintro ret data M hM htake hresult
  have htake' : ret = .success ∧ data.bytes.length ≥ evenLength length := htake
  dsimp only
  rw [if_pos htake, if_pos htake']
  refine .bind (holds_mallocInt fun o M' ho hg => ?_)
  cases o with
  | none =>
    obtain rfl := ho
    have hnot : ¬ Granted g := fun hall => by
      have hpos := readDeviceValue_asked network (htake.1 ▸ hresult hall)
      have hsize := nonneg_of_half_pos hpos
      exact absurd (decide_eq_true (by omega)) (hg.of_none hall)
    exact .bind (.free hM (.pure ⟨⟨none, L, rfl, rfl, fun _ => rfl⟩,
      fun hall => absurd hall hnot⟩))
  | some b =>
    refine holds_copyOut hM ho (fun hnone => ⟨rfl, fun _ => by rw [hnone]; rfl⟩) ?_
    intro out A hA hout
    rw [hout]
    exact .pure ⟨⟨none, L, rfl, hA, fun _ => rfl⟩, fun _ => rfl⟩

theorem mcReadValue_accounts (T : ValueType) (val : Bool) :
    Accounts g r L L (mcReadValue network T fd address val r) (fun _ => none) id
      (T.mcRead network fd address val)
      ((0 < fd ∧ address.isSome ∧ val) ∧ LeftBehind (fun n => enoughFor T n)
        ((MelsecMc.readWordValue network fd address T.words .empty).answer r)) := by
  have hread : T.mcRead network fd address val =
      MelsecMc.readValue (MelsecMc.readWordValue network) T.words (enoughFor T) T.codec fd address
        val := by
    cases T <;> rfl
  rw [hread]
  exact readValue_accounts T.codec (fun _ => .rfl) (readWordValue_follows network) val

theorem mcAsciiReadValue_accounts (T : ValueType) (val : Bool) :
    Accounts g r L L (Ascii.mcAsciiReadValue network T fd address val r) (fun _ => none) id
      (T.mcAsciiRead network fd address val)
      ((0 < fd ∧ address.isSome ∧ val) ∧ LeftBehind ((2 * T.words : ℕ) ≤ ·)
        ((MelsecMc.Ascii.readWordValue network fd address T.words .empty).answer r)) := by
  rw [T.mcAsciiRead_eq]
  exact readValue_accounts T.codec (fun _ => decide_eq_true_iff)
    (readDeviceValue_follows network false) val

end Readers

section Writers

variable (network : PlcNetworkAddress) {fd : ℤ} {address : Option CString} {length points : ℤ}

/-- The checks of a writer. -/
theorem writer_accounts {refused asked loses : Prop} [Decidable refused]
    (hasked : ¬ refused ↔ asked) {p : HeapProgram (ErrorCode × Unit)}
    {c : Call (ErrorCode × Unit)} (h : asked → Accounts g r L L p (fun _ => none) id c loses) :
    Accounts g r L L (if refused then pure (.invalidParameter, ()) else p) (fun _ => none) id
      (if refused then .ret (.invalidParameter, ()) else c) (asked ∧ loses) := by
  split
  · rename_i hrefused
    have hno : ¬ asked := fun h => (hasked.mpr h) hrefused
    exact .pure ⟨⟨none, L, rfl, rfl, fun _ => by simp [hno]⟩, returns_quiet rfl fun _ => rfl⟩
  · rename_i hok
    exact (h (hasked.mp hok)).asked (hasked.mp hok)

/-- The block that a writer copies its values to. -/
theorem stored_accounts {size : ℤ} {fail : HeapProgram (ErrorCode × Unit)}
    {next : Block → HeapProgram (ErrorCode × Unit)} {c : Call (ErrorCode × Unit)} {loses : Prop}
    (hfail : (Granted g → MelsecMc.malloc size = false) →
      Accounts g r L L fail (fun _ => none) id c loses)
    (hnext : ∀ {b M}, MelsecMc.malloc size → Takes L (some b) M →
      Accounts g r M L (next b) (fun _ => none) id c loses) :
    Accounts g r L L (do
      match ← mallocInt size with
      | none => fail
      | some b => next b) (fun _ => none) id c loses := by
  refine .bind (holds_mallocInt fun o M ho hg => ?_)
  cases o with
  | none =>
    obtain rfl := ho
    exact hfail fun hall => by simpa using hg.of_none hall
  | some b => exact hnext hg.of_some ho

/-- A writer that gives up for want of memory. -/
theorem givenUp_accounts {e : ErrorCode} {c : Call (ErrorCode × Unit)} {loses : Prop}
    (h : Granted g → c = .ret (e, ()) ∧ ¬ loses) :
    Accounts g r L L (pure (e, ())) (fun _ => none) id c loses :=
  .pure ⟨⟨none, L, rfl, rfl, fun hall => by simp [(h hall).2]⟩, fun hall => by
    rw [(h hall).1]
    exact ⟨rfl, not_hitsReleased rfl⟩⟩

theorem not_refused_write_iff : ¬ (fd ≤ 0 ∨ address.isNone) ↔ 0 < fd ∧ address.isSome := by
  cases address <;> simp

theorem not_refused_write_length_iff :
    ¬ (fd ≤ 0 ∨ address.isNone ∨ length ≤ 0) ↔ 0 < fd ∧ address.isSome ∧ 0 < length := by
  cases address <;> simp

theorem mcWriteBool_accounts (val : Bool) :
    Accounts g r L L (mcWriteBool network fd address val r) (fun _ => none) id
      (MelsecMc.mcWriteBool network fd address val)
      ((0 < fd ∧ address.isSome) ∧ mcAnalysisAddress address 1 = some none) := by
  refine writer_accounts not_refused_write_iff fun hasked => stored_accounts (fun hno => ?_) ?_
  · exact givenUp_accounts fun hall => absurd (hno hall) (by decide)
  · rintro b M - hM
    refine writeBoolValue_accounts network hM ?_
    simp [hasked, Option.isSome_iff_ne_none.mp hasked.2]

theorem mcWriteBoolBatch_accounts (values : Option (Elements Bool length)) :
    Accounts g r L L (mcWriteBoolBatch network fd address length values r) (fun _ => none) id
      (MelsecMc.mcWriteBoolBatch network fd address length values)
      (values.isSome ∧ (0 < fd ∧ address.isSome ∧ 0 < length) ∧
        mcAnalysisAddress address length = some none) := by
  cases values with
  | none => exact givenUp_accounts fun _ => ⟨rfl, by simp⟩
  | some values =>
    refine Accounts.asked rfl (writer_accounts not_refused_write_length_iff fun hasked =>
      stored_accounts (fun hno => ?_) ?_)
    · exact givenUp_accounts fun hall =>
        absurd (decide_eq_true (by omega)) (Bool.eq_false_iff.mp (hno hall))
    · rintro b M - hM
      refine writeBoolValue_accounts network hM ?_
      simp [hasked, Option.isSome_iff_ne_none.mp hasked.2.1]

theorem writeValue_accounts {size : ℕ} (C : ValueCodec size) {loses : Prop}
    {refused : HeapProgram (ErrorCode × Unit)}
    {write : ℤ → Option CString → ℤ → HeapBytes → Transacted → HeapProgram (ErrorCode × Unit)}
    {writeModel : ℤ → Option CString → ℤ → ByteArrayInfo → Call (ErrorCode × Unit)}
    (hrefused : ∀ {c : Call (ErrorCode × Unit)}, ¬ Granted g →
      Accounts g r L L refused (fun _ => none) id c loses)
    (hwrite : ∀ {M : Finset Block} {in_bytes : HeapBytes}, in_bytes.block.isSome →
      in_bytes.length = size → Takes L in_bytes.block M →
      Accounts g r M L (write fd address points in_bytes r) (fun _ => none) id
        (writeModel fd address points in_bytes.bytes) loses) (val : BitVec (8 * size)) :
    Accounts g r L L (writeValue refused write points C fd address val r) (fun _ => none) id
      (MelsecMc.writeValue writeModel points C fd address val)
      ((0 < fd ∧ address.isSome) ∧ loses) := by
  refine writer_accounts not_refused_write_iff fun hasked => stored_accounts (fun hno => ?_) ?_
  · exact hrefused fun hall => absurd (decide_eq_true (by omega)) (Bool.eq_false_iff.mp (hno hall))
  · rintro b M - hM
    have hbytes : ByteArrayInfo.ofList (C.encode val) =
        HeapArray.bytes ⟨some b, C.encode val, size⟩ := by
      simp [HeapArray.bytes, ByteArrayInfo.ofList]
    rw [hbytes]
    exact hwrite rfl rfl hM

theorem mcWriteValue_accounts (T : ValueType) (val : T.Value) :
    Accounts g r L L (mcWriteValue network T fd address val r) (fun _ => none) id
      (T.mcWrite network fd address val)
      ((0 < fd ∧ address.isSome) ∧ Unconsumed address T.words (2 * T.words : ℕ)) := by
  rw [T.mcWrite_eq]
  refine writeValue_accounts T.codec (fun hnot => ?_) (fun hsome hlen hM => ?_) val
  · exact .ofOption (fun _ => stops_outside fun hall => absurd hall hnot) nofun
  · rw [← hlen]
    exact writeWordValue_accounts network hM hsome

theorem writeBatch_accounts {size : ℕ} (C : ValueCodec size)
    (values : Option (Elements (BitVec (8 * size)) length)) :
    Accounts g r L L (writeBatch network points C fd address length values r) (fun _ => none) id
      (MelsecMc.writeBatch network points C fd address length values)
      (values.isSome ∧ (0 < fd ∧ address.isSome ∧ 0 < length) ∧ 0 ≤ toInt32 (length * size) ∧
        Unconsumed address points (toInt32 (length * size))) := by
  cases values with
  | none => exact givenUp_accounts fun _ => ⟨rfl, by simp⟩
  | some values =>
    refine Accounts.asked rfl (writer_accounts not_refused_write_length_iff fun hasked => ?_)
    generalize toInt32 (length * size) = byte_len
    refine stored_accounts (fun hno => ?_) ?_
    · refine givenUp_accounts fun hall => ?_
      have hsize : ¬ 0 ≤ byte_len := of_decide_eq_false (hno hall)
      exact ⟨if_neg (by simp [hno hall]), by simp [hsize]⟩
    · rintro b M hsize hM
      rw [if_pos hsize]
      refine Accounts.asked (of_decide_eq_true hsize) ?_
      by_cases hroom : length * size ≤ byte_len
      · rw [if_pos hroom, if_pos hroom]
        exact writeWordValue_accounts network hM rfl
      · rw [if_neg hroom, if_neg hroom]
        exact .ofOption (fun _ => stops_outside fun _ => ⟨rfl, not_hitsReleased rfl⟩) nofun

theorem mcWriteString_accounts (val : Option (Elements Byte length)) :
    Accounts g r L L (mcWriteString network fd address length val r) (fun _ => none) id
      (MelsecMc.mcWriteString network fd address length val)
      (val.isSome ∧ (0 < fd ∧ address.isSome) ∧ 0 ≤ evenLength length ∧
        Unconsumed address ((evenLength length).tdiv 2) (evenLength length)) := by
  cases val with
  | none => exact givenUp_accounts fun _ => ⟨rfl, by simp⟩
  | some val =>
    refine Accounts.asked rfl (writer_accounts not_refused_write_iff fun hasked => ?_)
    generalize evenLength length = write_len
    refine stored_accounts (fun hno => ?_) ?_
    · refine givenUp_accounts fun hall => ?_
      have hsize : ¬ 0 ≤ write_len := of_decide_eq_false (hno hall)
      exact ⟨if_neg (by simp [hno hall]), by simp [hsize]⟩
    · rintro b M hsize hM
      rw [if_pos hsize]
      exact Accounts.asked (of_decide_eq_true hsize) (writeWordValue_accounts network hM rfl)

theorem mcAsciiWriteBool_accounts (val : Bool) :
    Accounts g r L L (Ascii.mcAsciiWriteBool network fd address val r) (fun _ => none) id
      (MelsecMc.Ascii.mcAsciiWriteBool network fd address val)
      ((0 < fd ∧ address.isSome) ∧ False) := by
  refine writer_accounts not_refused_write_iff fun hasked => stored_accounts (fun hno => ?_) ?_
  · exact givenUp_accounts fun hall => absurd (hno hall) (by decide)
  · rintro b M - hM
    refine Follows.accounts (asciiWriteBoolValue_follows network hM ?_) not_false
    simp [hasked, Option.isSome_iff_ne_none.mp hasked.2]

theorem mcAsciiWriteValue_accounts (T : ValueType) (val : T.Value) :
    Accounts g r L L (Ascii.mcAsciiWriteValue network T fd address val r) (fun _ => none) id
      (T.mcAsciiWrite network fd address val) ((0 < fd ∧ address.isSome) ∧ False) := by
  rw [T.mcAsciiWrite_eq]
  refine writeValue_accounts T.codec (fun hnot => ?_) (fun hsome hlen hM => ?_) val
  · exact givenUp_accounts fun hall => absurd hall hnot
  · have hle := T.words_le
    refine (asciiWriteWordValue_follows network hM ?_).accounts not_false
    exact ⟨by omega, by omega⟩

theorem mcAsciiWriteString_accounts (range : InInt32 length)
    (val : Option (Elements Byte length)) :
    Accounts g r L L (Ascii.mcAsciiWriteString network fd address length val r) (fun _ => none) id
      (MelsecMc.Ascii.mcAsciiWriteString network fd address length val)
      (val.isSome ∧ (0 < fd ∧ address.isSome ∧ 0 < length) ∧ False) := by
  cases val with
  | none => exact givenUp_accounts fun _ => ⟨rfl, by simp⟩
  | some val =>
    refine Accounts.asked rfl (writer_accounts not_refused_write_length_iff fun hasked => ?_)
    have hlen : InInt32 (evenLength length) := by
      unfold evenLength
      split
      · exact toInt32_range _
      · exact range
    generalize evenLength length = write_len at hlen ⊢
    refine stored_accounts (fun hno => ?_) ?_
    · exact givenUp_accounts fun hall => ⟨if_neg (by simp [hno hall]), not_false⟩
    · rintro b M hsize hM
      rw [if_pos hsize]
      exact (asciiWriteWordValue_follows network hM hlen).accounts not_false

end Writers

end MelsecMc.OnHeap
