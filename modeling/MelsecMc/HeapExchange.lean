import MelsecMc.HeapCalls

/-!
# What a request leaves on the heap

An exchange consumes its core command, and frees the request and the response
on every path. The one exception is a response that was released by the receiving
function already: the pointer to it is freed again, or used. This is the only misuse
there is, and where every request for memory is granted the exchange is otherwise the
one without a heap.
-/
namespace MelsecMc.OnHeap

open HeapBlocks HeapProgram

variable {g : Allocator} {r : Transacted} {L M N : Finset Block}

/-- The call makes its transaction, and the transaction leaves a pointer to a released buffer. -/
def HitsReleased {α : Type} (r : Transacted) (c : Call α) : Prop :=
  c.request ≠ none ∧ r.response.data = .released

/-- Why a call that follows `c` may stop. -/
def Stops {α : Type} (g : Allocator) (r : Transacted) (c : Call α) (e : Halt) : Prop :=
  (e = .misuse → r.response.data = .released) ∧
    (Granted g → c.answer r = none ∧ (e = .misuse ↔ HitsReleased r c))

/-- How a call that follows `c` returns. -/
def Returns {α : Type} (g : Allocator) (r : Transacted) (c : Call α) (a : α) : Prop :=
  Granted g → c.answer r = some a ∧ ¬ HitsReleased r c

/-- A call that frees or hands over what it was given beside `L`, takes only the block that it
returns, and gives the result of its model unless a request for memory was refused. -/
def Follows {α β : Type} (g : Allocator) (r : Transacted) (N L : Finset Block)
    (p : HeapProgram α) (owned : α → Pointer) (view : α → β) (c : Call β) : Prop :=
  Holds g N p (Stops g r c) fun a M => Takes L (owned a) M ∧ Returns g r c (view a)

section Quiet

variable {α : Type} {c : Call α}

theorem not_hitsReleased (hc : c.request = none) : ¬ HitsReleased r c := fun h => h.1 hc

/-- An access outside a block, before or after the transaction. -/
theorem stops_outside (h : Granted g → c.answer r = none ∧ ¬ HitsReleased r c) :
    Stops g r c .outside :=
  ⟨nofun, fun hall => ⟨(h hall).1, by simp [(h hall).2]⟩⟩

/-- Only the transaction leaves a pointer to a released buffer. -/
theorem stops_misuse (hr : r.response.data = .released)
    (h : Granted g → c.answer r = none ∧ c.request ≠ none) : Stops g r c .misuse :=
  ⟨fun _ => hr, fun hall => ⟨(h hall).1, by simp [HitsReleased, hr, (h hall).2]⟩⟩

theorem returns_quiet {a : α} (hc : c.request = none) (h : Granted g → c.answer r = some a) :
    Returns g r c a :=
  fun hall => ⟨h hall, not_hitsReleased hc⟩

end Quiet

section Exchange

variable {β γ : Type} {pack : HeapBytes → PlcNetworkAddress → HeapProgram HeapBytes}
  {packModel : ByteArrayInfo → PlcNetworkAddress → Option ByteArrayInfo} {min_size : ℕ}
  {network : PlcNetworkAddress} {fd : ℤ} {core_cmd : HeapBytes} {out : γ}
  {finish : HeapBytes → HeapProgram (ErrorCode × γ)}
  {parse : ByteArrayInfo → Option (ErrorCode × β)} {owned : γ → Pointer} {view : γ → β}

/-- The evaluation of a response frees it and takes what it returns. -/
def Finishes (g : Allocator) (finish : HeapBytes → HeapProgram (ErrorCode × γ))
    (parse : ByteArrayInfo → Option (ErrorCode × β)) (owned : γ → Pointer) (view : γ → β) : Prop :=
  (∀ {L M : Finset Block} (response : HeapBytes), Takes L response.block M →
    Holds g M (finish response) (Faults g (parse response.bytes)) fun a M' =>
      Takes L (owned a.2) M' ∧ (Granted g → parse response.bytes = some (a.1, view a.2))) ∧
  -- a pointer to a released buffer is used or freed again
  ∀ {L : Finset Block} (b : Block) (content : List Byte) (length : ℤ), b ∉ L →
    Holds g L (finish ⟨some b, content, length⟩) (· = .misuse) fun _ _ => False

theorem evaluate_of_view {out : β} {response : ByteArrayInfo}
    (h : r.response.view = some response) :
    (evaluate min_size out parse r).answer r =
      if r.code ≠ .success then some (r.code, out)
      else if r.recvSize < min_size then some (.responseHeaderFailed, out)
      else parse response := by
  have hrelease : releaseData r.response.data = some () := by
    unfold Response.view at h
    cases hd : r.response.data with
    | null => rfl
    | live bytes => rfl
    | released => simp [hd] at h
  unfold evaluate
  rw [hrelease, h]
  split_ifs
  · rfl
  · rfl
  · exact Call.answer_ofOption _ _

theorem evaluate_of_released {out : β} (h : r.response.data = .released) :
    (evaluate min_size out parse r).answer r = none := by
  have hview : r.response.view = none := by rw [Response.view, h]
  unfold evaluate
  rw [h, hview]
  split_ifs <;> rfl

/-- What follows the transaction, once the request is handed over. The response is a block beside
`L`, or it was released. -/
theorem evaluate_follows (hfinish : Finishes g finish parse owned view) (hout : owned out = none)
    {c : Call (ErrorCode × β)} (hc : Granted g → c.request ≠ none ∧
      c.answer r = (evaluate min_size (view out) parse r).answer r) {t : HeapTransacted}
    (hcode : t.code = r.code) (hsize : t.recvSize = r.recvSize)
    (ht : (r.response.view = some t.response.bytes ∧ Takes L t.response.block M) ∨
      (r.response.data = .released ∧ ∃ b, t.response.block = some b ∧ b ∉ M)) :
    Holds g M (if t.code ≠ .success then do
        free t.response.block
        return (t.code, out)
      else if t.recvSize < min_size then do
        free t.response.block
        return (.responseHeaderFailed, out)
      else finish t.response) (Stops g r c) fun a M' =>
        Takes L (owned a.2) M' ∧ Returns g r c (a.1, view a.2) := by
  obtain ⟨code, ⟨block, content, length⟩, recvSize⟩ := t
  obtain rfl := hcode
  obtain rfl := hsize
  have hnone : Takes L (owned out) L := by
    rw [hout]
    rfl
  rcases ht with ⟨hview, htakes⟩ | ⟨hreleased, b, hb, hM⟩
  · have hhit : ¬ HitsReleased r c := by
      rintro ⟨-, hreleased⟩
      rw [Response.view, hreleased] at hview
      cases hview
    rw [evaluate_of_view hview] at hc
    by_cases hcode : r.code ≠ .success
    · rw [if_pos hcode] at hc ⊢
      exact .bind (.free htakes (.pure ⟨hnone, fun hall => ⟨(hc hall).2, hhit⟩⟩))
    rw [if_neg hcode] at hc ⊢
    by_cases hshort : r.recvSize < min_size
    · rw [if_pos hshort] at hc ⊢
      exact .bind (.free htakes (.pure ⟨hnone, fun hall => ⟨(hc hall).2, hhit⟩⟩))
    rw [if_neg hshort] at hc ⊢
    refine (hfinish.1 _ htakes).mono ?_ ?_
    · rintro e ⟨rfl, hfault⟩
      exact stops_outside fun hall => ⟨(hc hall).2.trans (hfault hall), hhit⟩
    · rintro a M' ⟨hta, ha⟩
      exact ⟨hta, fun hall => ⟨(hc hall).2.trans (ha hall), hhit⟩⟩
  · obtain rfl := hb
    rw [evaluate_of_released hreleased] at hc
    have hstop : Stops g r c .misuse :=
      stops_misuse hreleased fun hall => ⟨(hc hall).2, (hc hall).1⟩
    by_cases hcode : r.code ≠ .success
    · rw [if_pos hcode]
      exact .bind (.free_dead hM hstop)
    rw [if_neg hcode]
    by_cases hshort : r.recvSize < min_size
    · rw [if_pos hshort]
      exact .bind (.free_dead hM hstop)
    rw [if_neg hshort]
    refine (hfinish.2 b content length hM).mono ?_ fun _ _ h => h.elim
    rintro e rfl
    exact hstop

theorem exchange_follows (view : γ → β) (hout : owned out = none)
    (hpack : ∀ {L : Finset Block} {core : HeapBytes}, Live L core.block →
      Builds g L L (pack core network) (packModel core.bytes network))
    (hfinish : Finishes g finish parse owned view) (hcore : Takes L core_cmd.block N) :
    Follows g r N L (exchange pack min_size network fd core_cmd out finish r)
      (fun a => owned a.2) (fun a => (a.1, view a.2))
      (MelsecMc.exchange packModel min_size network fd core_cmd.bytes (view out) parse) := by
  have hnone : Takes L (owned out) L := by
    rw [hout]
    rfl
  obtain ⟨_ | b, core, length⟩ := core_cmd
  · obtain rfl := hcore
    refine .pure ⟨hnone, ?_⟩
    rw [exchange_none rfl]
    exact returns_quiet rfl fun _ => rfl
  -- with a core command the call is this
  generalize hcmodel : MelsecMc.exchange packModel min_size network fd
    (HeapArray.bytes ⟨some b, core, length⟩) (view out) parse = c
  have hpacked : ∀ built, packModel (HeapArray.bytes ⟨some b, core, length⟩) network = built →
      (do
        let cmd ← .ofOption built
        if cmd.data.isNone then return (.buildCoreCmdFailed, view out)
        else
          let r ← mcSendAndReceiveTransaction fd cmd
          evaluate min_size (view out) parse r) = c := by
    rintro _ rfl
    exact hcmodel
  unfold exchange
  simp only [Option.isNone_some, Bool.false_eq_true, if_false]
  refine .bind ((hpack hcore.live).mono ?_ ?_)
  · rintro e ⟨rfl, hfault⟩
    refine stops_outside fun hall => ?_
    rw [← hpacked none (hfault hall)]
    exact ⟨rfl, not_hitsReleased rfl⟩
  rintro ⟨cmd, frame, cmd_len⟩ M ⟨htcmd, hbuilt⟩
  obtain ⟨M', hcmd, hM'⟩ := hcore.swap htcmd
  refine .bind (.free hM' ?_)
  cases cmd with
  | none =>
    obtain rfl := hcmd
    refine .pure ⟨hnone, fun hall => ?_⟩
    rw [← hpacked _ (hbuilt hall)]
    exact ⟨rfl, not_hitsReleased rfl⟩
  | some cmd =>
    simp only [Option.isNone_some, Bool.false_eq_true, if_false]
    by_cases hrefused : fd ≤ 0 ∨ cmd_len ≤ 0
    · have htrans : transaction fd ⟨some cmd, frame, cmd_len⟩ r =
          pure ⟨.invalidParameter, .null 0, 0⟩ := if_pos (by simpa using hrefused)
      have hmodel : mcSendAndReceiveTransaction fd (HeapArray.bytes ⟨some cmd, frame, cmd_len⟩) =
          .ret ⟨.invalidParameter, .zero, 0⟩ :=
        if_pos (by simpa [HeapArray.bytes] using hrefused)
      rw [htrans]
      refine .bind (.pure (.bind (.free hcmd (.bind (.free rfl (.pure ⟨hnone, fun hall => ?_⟩))))))
      rw [← hpacked _ (hbuilt hall)]
      simp only [Call.ofOption_some, Call.ret_bind]
      rw [if_neg (by simp [HeapArray.bytes]), hmodel]
      exact ⟨rfl, not_hitsReleased rfl⟩
    · have htrans : transaction fd ⟨some cmd, frame, cmd_len⟩ r = _ :=
        if_neg (by simpa using hrefused)
      have hmodel : mcSendAndReceiveTransaction fd (HeapArray.bytes ⟨some cmd, frame, cmd_len⟩) =
          .transact fd (HeapArray.bytes ⟨some cmd, frame, cmd_len⟩) .ret :=
        if_neg (by simpa [HeapArray.bytes] using hrefused)
      have hc : Granted g → c.request ≠ none ∧
          c.answer r = (evaluate min_size (view out) parse r).answer r := by
        intro hall
        rw [← hpacked _ (hbuilt hall)]
        simp only [Call.ofOption_some, Call.ret_bind]
        rw [if_neg (by simp [HeapArray.bytes]), hmodel]
        exact ⟨Option.some_ne_none _, rfl⟩
      rw [htrans]
      refine .bind (.bind (.use hcmd.live ?_))
      cases hdata : r.response.data with
      | null =>
        refine .pure (.bind (.free hcmd (evaluate_follows hfinish hout hc rfl rfl
          (.inl ⟨?_, rfl⟩))))
        rw [Response.view, hdata]
        rfl
      | live bytes =>
        refine .bind (.grant fun o M₁ hM₁ ho => .pure ?_)
        obtain ⟨b', rfl⟩ := Option.isSome_iff_exists.mp ho
        obtain ⟨M₂, hM₂, hcmd'⟩ := hcmd.swap hM₁
        refine .bind (.free hcmd' (evaluate_follows hfinish hout hc rfl rfl (.inl ⟨?_, hM₂⟩)))
        rw [Response.view, hdata]
        rfl
      | released =>
        refine .bind (.grant fun o M₁ hM₁ ho => .bind (.free hM₁ (.pure ?_)))
        obtain ⟨b', rfl⟩ := Option.isSome_iff_exists.mp ho
        exact .bind (.free hcmd (evaluate_follows hfinish hout hc rfl rfl
          (.inr ⟨hdata, b', rfl, fun hmem => hM₁.1 (hcmd.subset hmem)⟩)))

end Exchange

end MelsecMc.OnHeap
