import MelsecMc.HeapAccounts

/-!
# What runs of the library leave on the heap

A run calls public functions of both modules one after the other, on any heap and
with any allocator. It keeps every block that it did not allocate, hands each string
to its caller in a block of its own, and loses one block at each of certain calls:
writes of the binary module with an address that is rejected, and reads of either
module with a payload that is left behind. Where it stops, the first call that does not
end as it does without the heap is to blame.
-/
namespace MelsecMc.OnHeap

open HeapBlocks HeapProgram

section Operations

variable (network : PlcNetworkAddress) (fd : ℤ) (r : Transacted)

/-- The code of a function, and the block that it hands to its caller. -/
def coded {γ : Type} (p : HeapProgram (ErrorCode × γ)) (owned : γ → Pointer) :
    HeapProgram (ErrorCode × Pointer) := do
  let (ret, out) ← p
  return (ret, owned out)

def mc (address : Option CString) : Access → HeapProgram (ErrorCode × Pointer)
  | .readBool val => coded (mcReadBool network fd address val r) fun _ => none
  | .readValue T val => coded (mcReadValue network T fd address val r) fun _ => none
  | .readString length _ val => coded (mcReadString network fd address length val r) attachedBlock
  | .writeBool val => coded (mcWriteBool network fd address val r) fun _ => none
  | .writeValue T val => coded (mcWriteValue network T fd address val r) fun _ => none
  | .writeString length _ val => coded (mcWriteString network fd address length val r)
      fun _ => none

def mcBatch (address : Option CString) : BatchAccess → HeapProgram (ErrorCode × Pointer)
  | .readBool length _ values => coded (mcReadBoolBatch network fd address length values r)
      fun _ => none
  | .read T length _ values => coded
      (readBatch network (T.points length) T.type.codec fd address length values r) fun _ => none
  | .writeBool length _ values => coded (mcWriteBoolBatch network fd address length values r)
      fun _ => none
  | .write T length _ values => coded
      (writeBatch network (T.points length) T.type.codec fd address length values r) fun _ => none

def mcRemote : Remote → HeapProgram (ErrorCode × Pointer)
  | .run => coded (mcRemoteRun network fd r) fun _ => none
  | .stop => coded (mcRemoteStop network fd r) fun _ => none
  | .reset => coded (mcRemoteReset network fd r) fun _ => none
  | .readPlcType type => coded (mcReadPlcType network fd type r) attachedBlock

def mcAscii (address : Option CString) : Access → HeapProgram (ErrorCode × Pointer)
  | .readBool val => coded (Ascii.mcAsciiReadBool network fd address val r) fun _ => none
  | .readValue T val => coded (Ascii.mcAsciiReadValue network T fd address val r) fun _ => none
  | .readString length _ val => coded (Ascii.mcAsciiReadString network fd address length val r)
      attachedBlock
  | .writeBool val => coded (Ascii.mcAsciiWriteBool network fd address val r) fun _ => none
  | .writeValue T val => coded (Ascii.mcAsciiWriteValue network T fd address val r) fun _ => none
  | .writeString length _ val => coded (Ascii.mcAsciiWriteString network fd address length val r)
      fun _ => none

def mcAsciiRemote : Remote → HeapProgram (ErrorCode × Pointer)
  | .run => coded (Ascii.mcAsciiRemoteRun network fd r) fun _ => none
  | .stop => coded (Ascii.mcAsciiRemoteStop network fd r) fun _ => none
  | .reset => coded (Ascii.mcAsciiRemoteReset network fd r) fun _ => none
  | .readPlcType type => coded (Ascii.mcAsciiReadPlcType network fd type r) attachedBlock

/-- Any public function that makes a request. -/
def perform : Operation → HeapProgram (ErrorCode × Pointer)
  | .mc address access => mc network fd r address access
  | .mcBatch address access => mcBatch network fd r address access
  | .mcRemote remote => mcRemote network fd r remote
  | .mcAscii address access => mcAscii network fd r address access
  | .mcAsciiRemote remote => mcAsciiRemote network fd r remote

/-- The accesses of the binary module that leave a block to nobody. -/
def mcLoses (address : Option CString) : Access → Bool
  | .readBool val => (0 < fd ∧ address.isSome ∧ val) ∧ LeftBehind (0 < ·)
      ((MelsecMc.readBoolValue network fd address 1 .empty).answer r)
  | .readValue T val => (0 < fd ∧ address.isSome ∧ val) ∧ LeftBehind (enoughFor T ·)
      ((MelsecMc.readWordValue network fd address T.words .empty).answer r)
  | .readString length _ _ => (0 < fd ∧ address.isSome ∧ 0 < length) ∧
      LeftBehind (· ≥ evenLength length) ((MelsecMc.readWordValue network fd address
        ((evenLength length).tdiv 2) .empty).answer r)
  | .writeBool _ => (0 < fd ∧ address.isSome) ∧ mcAnalysisAddress address 1 = some none
  | .writeValue T _ => (0 < fd ∧ address.isSome) ∧ Unconsumed address T.words (2 * T.words : ℕ)
  | .writeString length _ val => val.isSome ∧ (0 < fd ∧ address.isSome) ∧ 0 ≤ evenLength length ∧
      Unconsumed address ((evenLength length).tdiv 2) (evenLength length)

def mcBatchLoses (address : Option CString) : BatchAccess → Bool
  | .readBool length _ values => (0 < fd ∧ address.isSome ∧ values ∧ 0 < length) ∧
      LeftBehind (· ≥ length) ((MelsecMc.readBoolValue network fd address length .empty).answer r)
  | .read T length _ values => (0 < fd ∧ address.isSome ∧ values ∧ 0 < length) ∧
      LeftBehind (· ≥ toInt32 (length * (2 * T.type.words : ℕ)))
        ((MelsecMc.readWordValue network fd address (T.points length) .empty).answer r)
  | .writeBool length _ values => values.isSome ∧ (0 < fd ∧ address.isSome ∧ 0 < length) ∧
      mcAnalysisAddress address length = some none
  | .write T length _ values => values.isSome ∧ (0 < fd ∧ address.isSome ∧ 0 < length) ∧
      0 ≤ toInt32 (length * (2 * T.type.words : ℕ)) ∧
        Unconsumed address (T.points length) (toInt32 (length * (2 * T.type.words : ℕ)))

/-- The accesses of the ASCII module that leave a block to nobody are reads. -/
def mcAsciiLoses (address : Option CString) : Access → Bool
  | .readBool val => (0 < fd ∧ address.isSome ∧ val) ∧ LeftBehind (0 < ·)
      ((MelsecMc.Ascii.readBoolValue network fd address 1 .empty).answer r)
  | .readValue T val => (0 < fd ∧ address.isSome ∧ val) ∧ LeftBehind ((2 * T.words : ℕ) ≤ ·)
      ((MelsecMc.Ascii.readWordValue network fd address T.words .empty).answer r)
  | .readString length _ val => (0 < fd ∧ address.isSome ∧ val ∧ 0 < length) ∧
      LeftBehind (· ≥ evenLength length) ((MelsecMc.Ascii.readWordValue network fd address
        ((evenLength length).tdiv 2) .empty).answer r)
  | .writeBool _ | .writeValue _ _ | .writeString _ _ _ => false

/-- The calls that leave a block to nobody. -/
def loses : Operation → Bool
  | .mc address access => mcLoses network fd r address access
  | .mcBatch address access => mcBatchLoses network fd r address access
  | .mcAscii address access => mcAsciiLoses network fd r address access
  | .mcRemote _ | .mcAsciiRemote _ => false

end Operations

section Step

variable {g : Allocator} {r : Transacted} {L M N : Finset Block}

theorem Accounts.coded {γ δ : Type} {p : HeapProgram (ErrorCode × γ)} (owned : γ → Pointer)
    {view : ErrorCode × γ → ErrorCode × δ} {c : Call (ErrorCode × δ)} {loses : Prop}
    (h : Accounts g r L L p (fun a => owned a.2) view c loses)
    (hview : ∀ a, (view a).1 = a.1) {lost : Bool} (hlost : lost ↔ loses) :
    Accounts g r L L (coded p owned) (·.2) (·.1) c.code lost := by
  have hhit := hitsReleased_bind (r := r) (c := c) (k := fun result => .ret result.1) fun _ => rfl
  refine .bind (h.mono ?_ ?_)
  · rintro e ⟨hmisuse, hstop⟩
    refine ⟨hmisuse, fun hall => ?_⟩
    rw [Call.code, Call.answer_bind, (hstop hall).1, hhit]
    exact ⟨rfl, (hstop hall).2⟩
  · rintro a M ⟨⟨lost', M', hlost', ha, hiff⟩, hreturns⟩
    refine .pure ⟨⟨lost', M', hlost', ha, fun hall => (hiff hall).trans hlost.symm⟩, fun hall => ?_⟩
    rw [Call.code, Call.answer_bind, (hreturns hall).1, hhit]
    exact ⟨congrArg some (hview a), (hreturns hall).2⟩

variable (network : PlcNetworkAddress) (fd : ℤ) (address : Option CString)

theorem mc_accounts (access : Access) :
    Accounts g r L L (mc network fd r address access) (·.2) (·.1)
      (access.mc network fd address) (mcLoses network fd r address access) := by
  cases access with
  | readBool val =>
    exact (mcReadBool_accounts network val).coded (fun _ => none) (fun _ => rfl) decide_eq_true_iff
  | readValue T val =>
    exact (mcReadValue_accounts network T val).coded (fun _ => none) (fun _ => rfl)
      decide_eq_true_iff
  | readString length range val =>
    exact (mcReadString_accounts network val).coded attachedBlock (fun _ => rfl) decide_eq_true_iff
  | writeBool val =>
    exact (mcWriteBool_accounts network val).coded (fun _ => none) (fun _ => rfl) decide_eq_true_iff
  | writeValue T val =>
    exact (mcWriteValue_accounts network T val).coded (fun _ => none) (fun _ => rfl)
      decide_eq_true_iff
  | writeString length range val =>
    exact (mcWriteString_accounts network val).coded (fun _ => none) (fun _ => rfl)
      decide_eq_true_iff

theorem mcBatch_accounts (access : BatchAccess) :
    Accounts g r L L (mcBatch network fd r address access) (·.2) (·.1)
      (access.mc network fd address) (mcBatchLoses network fd r address access) := by
  cases access with
  | readBool length range values =>
    exact (mcReadBoolBatch_accounts network values).coded (fun _ => none) (fun _ => rfl)
      decide_eq_true_iff
  | read T length range values =>
    rw [BatchAccess.mc, T.mcReadBatch_eq]
    exact (readBatch_accounts network T.type.codec values).coded (fun _ => none) (fun _ => rfl)
      decide_eq_true_iff
  | writeBool length range values =>
    exact (mcWriteBoolBatch_accounts network values).coded (fun _ => none) (fun _ => rfl)
      decide_eq_true_iff
  | write T length range values =>
    rw [BatchAccess.mc, T.mcWriteBatch_eq]
    exact (writeBatch_accounts network T.type.codec values).coded (fun _ => none) (fun _ => rfl)
      decide_eq_true_iff

theorem mcRemote_accounts (remote : Remote) :
    Accounts g r L L (mcRemote network fd r remote) (·.2) (·.1) (remote.mc network fd) false := by
  cases remote with
  | run =>
    exact ((mcRemoteRun_follows network).accounts not_false).coded (fun _ => none)
      (fun _ => rfl) (by simp)
  | stop =>
    exact ((mcRemoteStop_follows network).accounts not_false).coded (fun _ => none)
      (fun _ => rfl) (by simp)
  | reset =>
    exact ((mcRemoteReset_follows network).accounts not_false).coded (fun _ => none)
      (fun _ => rfl) (by simp)
  | readPlcType type =>
    exact ((mcReadPlcType_follows network type).accounts not_false).coded attachedBlock
      (fun _ => rfl) (by simp)

theorem mcAscii_accounts (access : Access) :
    Accounts g r L L (mcAscii network fd r address access) (·.2) (·.1)
      (access.mcAscii network fd address) (mcAsciiLoses network fd r address access) := by
  cases access with
  | readBool val =>
    exact (mcAsciiReadBool_accounts network val).coded (fun _ => none) (fun _ => rfl)
      decide_eq_true_iff
  | readValue T val =>
    exact (mcAsciiReadValue_accounts network T val).coded (fun _ => none) (fun _ => rfl)
      decide_eq_true_iff
  | readString length range val =>
    exact (mcAsciiReadString_accounts network val).coded attachedBlock (fun _ => rfl)
      decide_eq_true_iff
  | writeBool val =>
    exact (mcAsciiWriteBool_accounts network val).coded (fun _ => none) (fun _ => rfl)
      (by simp [mcAsciiLoses])
  | writeValue T val =>
    exact (mcAsciiWriteValue_accounts network T val).coded (fun _ => none) (fun _ => rfl)
      (by simp [mcAsciiLoses])
  | writeString length range val =>
    exact (mcAsciiWriteString_accounts network range val).coded (fun _ => none) (fun _ => rfl)
      (by simp [mcAsciiLoses])

theorem mcAsciiRemote_accounts (remote : Remote) :
    Accounts g r L L (mcAsciiRemote network fd r remote) (·.2) (·.1) (remote.mcAscii network fd)
      false := by
  have hraw : ∀ raw_cmd, Follows g r L L
      (Ascii.mcAsciiExecuteRawCommand network fd raw_cmd none r) (fun _ => none)
      (fun a => (a.1, a.2.map HeapArray.bytes))
      (MelsecMc.Ascii.mcAsciiExecuteRawCommand network fd raw_cmd none) := fun raw_cmd =>
    mcAsciiExecuteRawCommand_follows network none (fun _ => none) rfl fun out hout => by
      cases out with
      | none => rfl
      | some _ => exact absurd (hout rfl) nofun
  cases remote with
  | run | stop | reset =>
    exact ((hraw _).accounts not_false).coded (fun _ => none) (fun _ => rfl) (by simp)
  | readPlcType type =>
    exact ((mcAsciiReadPlcType_follows network type).accounts not_false).coded attachedBlock
      (fun _ => rfl) (by simp)

theorem perform_accounts (operation : Operation) :
    Accounts g r L L (perform network fd r operation) (·.2) (·.1) (operation.call network fd)
      (loses network fd r operation) := by
  cases operation with
  | mc address access => exact mc_accounts network fd address access
  | mcBatch address access => exact mcBatch_accounts network fd address access
  | mcRemote remote => exact mcRemote_accounts network fd remote
  | mcAscii address access => exact mcAscii_accounts network fd address access
  | mcAsciiRemote remote => exact mcAsciiRemote_accounts network fd remote

end Step

/-- A call of a public function with what it finds: the numbers of its module, and how its
transaction ends. -/
structure EndedCall where
  network : PlcNetworkAddress
  fd : ℤ
  operation : Operation
  outcome : Transacted

namespace EndedCall

variable (c : EndedCall)

def call : Call ErrorCode := c.operation.call c.network c.fd

def run : HeapProgram (ErrorCode × Pointer) := perform c.network c.fd c.outcome c.operation

def loses : Bool := OnHeap.loses c.network c.fd c.outcome c.operation

/-- It ends as it does without the heap, and its transaction leaves it no released buffer. -/
def Ends : Prop := (c.call.answer c.outcome).isSome ∧ ¬ HitsReleased c.outcome c.call

end EndedCall

/-- Calls one after the other. -/
def performAll : List EndedCall → HeapProgram (List (ErrorCode × Pointer))
  | [] => pure []
  | c :: calls => do
    let result ← c.run
    let results ← performAll calls
    return result :: results

/-- The blocks that are handed to callers. -/
def handed (results : List (ErrorCode × Pointer)) : List Block := results.filterMap (·.2)

section Run

variable {g : Allocator} {L M N : Finset Block} {calls : List EndedCall}
  {results : List (ErrorCode × Pointer)} {c : EndedCall} {result : ErrorCode × Pointer}

theorem handed_cons : handed (result :: results) = result.2.toList ++ handed results := by
  obtain ⟨ret, _ | b⟩ := result <;> rfl

theorem Returns.ends {ret : ErrorCode} (h : Returns g c.outcome c.call ret) (hall : Granted g) :
    c.Ends :=
  ⟨Option.isSome_iff_exists.mpr ⟨ret, (h hall).1⟩, (h hall).2⟩

/-- What calls that all return leave on a heap with the live blocks `L`. -/
structure Balanced (g : Allocator) (L : Finset Block) (calls : List EndedCall)
    (results : List (ErrorCode × Pointer)) (M : Finset Block) : Prop where
  kept : L ⊆ M
  handedOver : ∀ b ∈ handed results, b ∈ M ∧ b ∉ L
  distinct : (handed results).Nodup
  card_le : M.card ≤ L.card + (handed results).length + calls.length
  codes : Granted g → List.Forall₂ (fun c result => c.Ends ∧
    c.call.answer c.outcome = some result.1) calls results
  card_eq : Granted g → M.card = L.card + (handed results).length + calls.countP EndedCall.loses

/-- The call at which a run stops. -/
def Broken (g : Allocator) (calls : List EndedCall) (e : Halt) : Prop :=
  ∃ before c after, calls = before ++ c :: after ∧ (Granted g → ∀ c' ∈ before, c'.Ends) ∧
    Stops g c.outcome c.call e

theorem balanced_nil : Balanced g L [] [] L :=
  ⟨subset_rfl, by simp [handed], List.nodup_nil, by simp [handed], fun _ => .nil, by simp [handed]⟩

theorem Balanced.cons {lost : Pointer} (hl : Takes L lost M) (ha : Takes M result.2 N)
    (hlost : Granted g → (lost.isSome ↔ c.loses)) (hr : Returns g c.outcome c.call result.1)
    {O : Finset Block} (h : Balanced g N calls results O) :
    Balanced g L (c :: calls) (result :: results) O where
  kept := (hl.subset.trans ha.subset).trans h.kept
  handedOver b hb := by
    rw [handed_cons, List.mem_append, Option.mem_toList] at hb
    rcases hb with hb | hb
    · exact ⟨h.kept (ha.live b hb), fun hmem => ha.notMem hb (hl.subset hmem)⟩
    · obtain ⟨hO, hN⟩ := h.handedOver b hb
      exact ⟨hO, fun hmem => hN (ha.subset (hl.subset hmem))⟩
  distinct := by
    rw [handed_cons, List.nodup_append]
    refine ⟨by cases result.2 <;> simp, h.distinct, ?_⟩
    rintro b hb _ hb' rfl
    exact (h.handedOver b hb').2 (ha.live b (Option.mem_toList.mp hb))
  card_le := by
    have hle := h.card_le
    have hone : lost.toList.length ≤ 1 := by cases lost <;> simp
    rw [ha.card, hl.card] at hle
    rw [handed_cons, List.length_append, List.length_cons]
    omega
  codes hall := .cons ⟨hr.ends hall, (hr hall).1⟩ (h.codes hall)
  card_eq hall := by
    have hone : lost.toList.length = if c.loses then 1 else 0 := by
      rw [← Bool.eq_iff_iff.mpr (hlost hall)]
      cases lost <;> rfl
    rw [h.card_eq hall, ha.card, hl.card, handed_cons, List.length_append, List.countP_cons, hone]
    omega

/-- Every block is accounted for, whatever the calls and the allocator. -/
theorem heap_blocks_accounted (g : Allocator) (L : Finset Block) (calls : List EndedCall) :
    Holds g L (performAll calls) (Broken g calls) (Balanced g L calls) := by
  induction calls generalizing L with
  | nil => exact .pure balanced_nil
  | cons c calls ih =>
    refine .bind ((perform_accounts c.network c.fd c.operation).mono ?_ ?_)
    · intro e he
      exact ⟨[], c, calls, rfl, fun _ _ h => absurd h List.not_mem_nil, he⟩
    · rintro result M ⟨⟨lost, M', hlost, ha, hiff⟩, hreturns⟩
      refine .bind ((ih M).mono ?_ fun results N h => .pure (h.cons hlost ha hiff hreturns))
      rintro e ⟨before, c', after, rfl, hbefore, hstop⟩
      refine ⟨c :: before, c', after, rfl, fun hall => ?_, hstop⟩
      rintro c'' (_ | ⟨_, hmem⟩)
      · exact Returns.ends hreturns hall
      · exact hbefore hall _ hmem

end Run

end MelsecMc.OnHeap
