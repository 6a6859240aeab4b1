import Mathlib.Tactic

/-!
# Objects that serve one operation at a time, and concurrent calls of them

A sequential object answers one operation after the other. Concurrent calls of
it are seen as a history: a call is invoked, is served, returns. The history is
linearizable when some order of the calls is a run of the object that gives every
call its result and puts a call that had returned before another was invoked in
front of it. It is enough that every call is served once, after it was invoked and
before it returns. An object is implemented by another one where each operation
can be translated to one of the other and its answer back.
-/
namespace MelsecMc

open scoped List

/-- An object, with the answers that each operation can have. -/
structure SeqObject (σ ι : Type*) (ρ : ι → Type*) where
  apply : (i : ι) → σ → ρ i × σ

/-- A call `k` of the operation `i` is invoked, is served with the answer `r`, returns it. -/
inductive CallEvent (K ι : Type*) (ρ : ι → Type*) where
  | invoked (k : K) (i : ι)
  | served (k : K) (i : ι) (r : ρ i)
  | returned (k : K) (i : ι) (r : ρ i)

namespace CallEvent

variable {K ι κ : Type*} {ρ : ι → Type*} {α : κ → Type*}

/-- The call that is served, its operation and its answer. -/
def point : CallEvent K ι ρ → Option (K × Σ i, ρ i)
  | served k i r => some (k, ⟨i, r⟩)
  | invoked _ _ | returned _ _ _ => none

/-- The same event, seen at another object. The call `k` is `op k` there, if any. -/
def seenAs (op : K → Option κ) (read : (l : κ) → (Σ i, ρ i) → α l) :
    CallEvent K ι ρ → Option (CallEvent K κ α)
  | invoked k _ => (op k).map fun l => .invoked k l
  | served k i r => (op k).map fun l => .served k l (read l ⟨i, r⟩)
  | returned k i r => (op k).map fun l => .returned k l (read l ⟨i, r⟩)

end CallEvent

/-- The calls of a history in the order in which they were served. -/
def servedOrder {K ι : Type*} {ρ : ι → Type*} (h : List (CallEvent K ι ρ)) : List (K × Σ i, ρ i) :=
  h.filterMap CallEvent.point

section Order

variable {α : Type*} {a b c : α} {l : List α}

theorem pair_sublist_concat : [a, b] <+ l ++ [c] ↔ [a, b] <+ l ∨ a ∈ l ∧ b = c := by
  constructor
  · intro h
    obtain ⟨l₁, l₂, he, h₁, h₂⟩ := List.sublist_append_iff.mp h
    rcases l₁ with _ | ⟨x, _ | ⟨y, l₁⟩⟩
    · have hlen := h₂.length_le
      rw [← List.nil_append l₂, ← he] at hlen
      simp at hlen
    · obtain ⟨rfl, rfl⟩ := List.cons.inj he
      simp only [List.singleton_sublist, List.mem_singleton] at h₁ h₂
      exact .inr ⟨h₁, h₂⟩
    · simp only [List.cons_append, List.cons.injEq, List.nil_eq, List.append_eq_nil_iff] at he
      obtain ⟨rfl, rfl, rfl, rfl⟩ := he
      exact .inl h₁
  · rintro (h | ⟨ha, rfl⟩)
    · exact h.trans (List.sublist_append_left l [c])
    · exact (List.singleton_sublist.mpr ha).append (List.Sublist.refl [b])

theorem pair_sublist_mem (h : [a, b] <+ l) : a ∈ l ∧ b ∈ l :=
  ⟨h.subset (by simp), h.subset (by simp)⟩

theorem pair_sublist_append {l' : List α} (ha : a ∈ l) (hb : b ∈ l') : [a, b] <+ l ++ l' :=
  (List.singleton_sublist.mpr ha).append (List.singleton_sublist.mpr hb)

theorem pair_sublist_asymm (hl : l.Nodup) (h : [a, b] <+ l) : ¬ [b, a] <+ l := by
  induction l using List.reverseRecOn with
  | nil => cases h
  | append_singleton l c ih =>
    obtain ⟨hnd, -, hc⟩ := List.nodup_append.mp hl
    have hc : c ∉ l := fun hm => hc c hm c (List.mem_singleton_self c) rfl
    intro hback
    rcases pair_sublist_concat.mp h with hab | ⟨ha, rfl⟩
    · rcases pair_sublist_concat.mp hback with hba | ⟨-, rfl⟩
      · exact ih hnd hab hba
      · exact hc (pair_sublist_mem hab).1
    · rcases pair_sublist_concat.mp hback with hba | ⟨hb, rfl⟩
      · exact hc (pair_sublist_mem hba).1
      · exact hc hb

/-- What stands between two members of a list without repetition. -/
theorem pair_sublist_between (hl : l.Nodup) (h : [a, b] <+ l) :
    ∃ l₁ l₂ l₃, l = l₁ ++ a :: (l₂ ++ b :: l₃) ∧
      ∀ x ∈ l₂, ¬ [x, a] <+ l ∧ ¬ [b, x] <+ l := by
  obtain ⟨r₁, r₂, rfl, ha, hb⟩ := List.cons_sublist_iff.mp h
  obtain ⟨l₁, m, rfl⟩ := List.append_of_mem ha
  obtain ⟨m', l₃, rfl⟩ := List.append_of_mem (List.singleton_sublist.mp hb)
  have he : l₁ ++ a :: m ++ (m' ++ b :: l₃) = l₁ ++ a :: (m ++ m' ++ b :: l₃) := by simp
  rw [he] at hl ⊢
  refine ⟨l₁, m ++ m', l₃, rfl, fun x hx => ⟨?_, ?_⟩⟩
  · have hax : [a, x] <+ (l₁ ++ [a]) ++ (m ++ m' ++ b :: l₃) :=
      pair_sublist_append (by simp) (List.mem_append_left _ hx)
    rw [List.append_assoc] at hax
    exact pair_sublist_asymm hl hax
  · have hxb : [x, b] <+ (l₁ ++ a :: (m ++ m')) ++ b :: l₃ :=
      pair_sublist_append (by simp [List.mem_append.mp hx]) (by simp)
    rw [List.append_assoc] at hxb
    exact pair_sublist_asymm hl hxb

end Order

namespace SeqObject

variable {σ τ ι κ K : Type*} {ρ : ι → Type*} {α : κ → Type*} (O : SeqObject σ ι ρ)

/-- The state after some operations. -/
def after (s : σ) (ops : List ι) : σ :=
  ops.foldl (fun s i => (O.apply i s).2) s

/-- Operations with the answers that the object gives from `s` on. -/
def Legal : σ → List (Σ i, ρ i) → Prop
  | _, [] => True
  | s, x :: run => x.2 = (O.apply x.1 s).1 ∧ Legal (O.apply x.1 s).2 run

variable {O} {s₀ s : σ} {run run' : List (Σ i, ρ i)} {x : Σ i, ρ i}

theorem legal_append : O.Legal s (run ++ run') ↔
    O.Legal s run ∧ O.Legal (O.after s (run.map Sigma.fst)) run' := by
  induction run generalizing s with
  | nil => simp [Legal, after]
  | cons x run ih =>
    rw [List.cons_append, Legal, ih, Legal, and_assoc]
    rfl

/-- What no operation changes is so at the end. -/
theorem after_keeps {Q : σ → Prop} {ops : List ι}
    (hstep : ∀ i ∈ ops, ∀ s, Q s → Q (O.apply i s).2) (hs : Q s) : Q (O.after s ops) := by
  induction ops generalizing s with
  | nil => exact hs
  | cons i ops ih =>
    exact ih (fun j hj => hstep j (List.mem_cons_of_mem i hj)) (hstep i List.mem_cons_self s hs)

/-- `order` has the calls of a history one after the other. -/
structure Linearizes (O : SeqObject σ ι ρ) (s₀ : σ) (h : List (CallEvent K ι ρ))
    (order : List (K × Σ i, ρ i)) : Prop where
  legal : O.Legal s₀ (order.map Prod.snd)
  nodup : (order.map Prod.fst).Nodup
  invoked : ∀ x ∈ order, .invoked x.1 x.2.1 ∈ h
  returned : ∀ k i r, .returned k i r ∈ h → (k, ⟨i, r⟩) ∈ order
  realTime : ∀ k i r, ∀ x ∈ order, [.returned k i r, .invoked x.1 x.2.1] <+ h →
    [(k, ⟨i, r⟩), x] <+ order

/-- A call has one answer. -/
theorem Linearizes.unique {h : List (CallEvent K ι ρ)} {order : List (K × Σ i, ρ i)}
    (hl : O.Linearizes s₀ h order) {x y : K × Σ i, ρ i} (hx : x ∈ order) (hy : y ∈ order)
    (hxy : x.1 = y.1) : x = y :=
  List.inj_on_of_nodup_map hl.nodup hx hy hxy

/-- Some order of the calls explains their results. -/
def Linearizable (O : SeqObject σ ι ρ) (s₀ : σ) (h : List (CallEvent K ι ρ)) : Prop :=
  ∃ order, O.Linearizes s₀ h order

/-- A history in which every call is served once, after it was invoked and before it returns, and
the state of the object after it. -/
inductive Pointed (O : SeqObject σ ι ρ) (s₀ : σ) : List (CallEvent K ι ρ) → σ → Prop where
  | start : Pointed O s₀ [] s₀
  | invoked {h : List (CallEvent K ι ρ)} {s : σ} (hp : Pointed O s₀ h s) (k : K) (i : ι)
      (hnew : ∀ j, .invoked k j ∉ h) : Pointed O s₀ (h ++ [.invoked k i]) s
  | served {h : List (CallEvent K ι ρ)} {s : σ} (hp : Pointed O s₀ h s) (k : K) (i : ι)
      (hi : .invoked k i ∈ h) (hnew : ∀ j r, .served k j r ∉ h) :
      Pointed O s₀ (h ++ [.served k i (O.apply i s).1]) (O.apply i s).2
  | returned {h : List (CallEvent K ι ρ)} {s : σ} (hp : Pointed O s₀ h s) (k : K) (i : ι) (r : ρ i)
      (hr : .served k i r ∈ h) : Pointed O s₀ (h ++ [.returned k i r]) s

theorem mem_servedOrder {h : List (CallEvent K ι ρ)} {k : K} {x : Σ i, ρ i} :
    (k, x) ∈ servedOrder h ↔ .served k x.1 x.2 ∈ h := by
  simp only [servedOrder, List.mem_filterMap]
  constructor
  · rintro ⟨e, he, hx⟩
    cases e with
    | served l i r =>
      obtain ⟨rfl, rfl⟩ := Prod.mk.inj (Option.some.inj hx)
      exact he
    | invoked l i | returned l i r => simp [CallEvent.point] at hx
  · intro h
    exact ⟨_, h, rfl⟩

/-- A pair of events that ends with an invocation is older than an event of another kind. -/
theorem pair_sublist_invoked {h : List (CallEvent K ι ρ)} {e e' : CallEvent K ι ρ} {k : K} {i : ι}
    (he : ∀ k i, e' ≠ .invoked k i) (hs : [e, .invoked k i] <+ h ++ [e']) :
    [e, .invoked k i] <+ h := by
  rcases pair_sublist_concat.mp hs with hs | ⟨-, hi⟩
  · exact hs
  · exact absurd hi.symm (he k i)

theorem Linearizes.snoc_invoked {h : List (CallEvent K ι ρ)} {order : List (K × Σ i, ρ i)}
    (hl : O.Linearizes s₀ h order) {k : K} {i : ι} (hnew : ∀ j, .invoked k j ∉ h) :
    O.Linearizes s₀ (h ++ [.invoked k i]) order where
  legal := hl.legal
  nodup := hl.nodup
  invoked := fun x hx => List.mem_append_left _ (hl.invoked x hx)
  returned := fun k i r hr => hl.returned k i r (by simpa using hr)
  realTime := by
    intro k' i' r x hx hs
    rcases pair_sublist_concat.mp hs with hs | ⟨-, he⟩
    · exact hl.realTime k' i' r x hx hs
    · obtain ⟨hk, -⟩ := CallEvent.invoked.inj he
      exact absurd (hl.invoked x hx) (hk ▸ hnew x.2.1)

theorem Linearizes.snoc_served {h : List (CallEvent K ι ρ)} {order : List (K × Σ i, ρ i)}
    (hl : O.Linearizes s₀ h order) {k : K} {i : ι} (hi : .invoked k i ∈ h)
    (hnew : k ∉ order.map Prod.fst) :
    let r := (O.apply i (O.after s₀ (order.map fun x => x.2.1))).1
    O.Linearizes s₀ (h ++ [.served k i r]) (order ++ [(k, ⟨i, r⟩)]) where
  legal := by
    rw [List.map_append, legal_append, List.map_map]
    exact ⟨hl.legal, rfl, trivial⟩
  nodup := by
    rw [List.map_append]
    refine hl.nodup.append (List.nodup_singleton k) ?_
    simpa using hnew
  invoked := by
    intro x hx
    rcases List.mem_append.mp hx with hx | hx
    · exact List.mem_append_left _ (hl.invoked x hx)
    · obtain rfl := List.mem_singleton.mp hx
      exact List.mem_append_left _ hi
  returned := fun k i r hr => List.mem_append_left _ (hl.returned k i r (by simpa using hr))
  realTime := by
    intro k' i' r' x hx hs
    have hs := pair_sublist_invoked (by simp) hs
    rcases List.mem_append.mp hx with hx | hx
    · exact (hl.realTime k' i' r' x hx hs).trans (List.sublist_append_left _ _)
    · exact pair_sublist_append (hl.returned k' i' r' (pair_sublist_mem hs).1) hx

theorem Linearizes.snoc_returned {h : List (CallEvent K ι ρ)} {order : List (K × Σ i, ρ i)}
    (hl : O.Linearizes s₀ h order) {k : K} {i : ι} {r : ρ i} (hr : (k, ⟨i, r⟩) ∈ order) :
    O.Linearizes s₀ (h ++ [.returned k i r]) order where
  legal := hl.legal
  nodup := hl.nodup
  invoked := fun x hx => List.mem_append_left _ (hl.invoked x hx)
  returned := by
    intro k' i' r' hr'
    rcases List.mem_append.mp hr' with hr' | he
    · exact hl.returned k' i' r' hr'
    · obtain ⟨rfl, rfl, he⟩ := CallEvent.returned.inj (List.mem_singleton.mp he)
      rwa [eq_of_heq he]
  realTime := fun k' i' r' x hx hs =>
    hl.realTime k' i' r' x hx (pair_sublist_invoked (by simp) hs)

/-- The order in which the calls are served explains their results. -/
theorem Pointed.linearizes {h : List (CallEvent K ι ρ)} (hp : O.Pointed s₀ h s) :
    O.Linearizes s₀ h (servedOrder h) ∧ O.after s₀ ((servedOrder h).map fun x => x.2.1) = s := by
  induction hp with
  | start =>
    refine ⟨⟨trivial, ?_, ?_, ?_, ?_⟩, rfl⟩ <;> simp [servedOrder]
  | @invoked h s hp k i hnew ih =>
    have horder : servedOrder (h ++ [.invoked k i]) = servedOrder h := by
      simp [servedOrder, CallEvent.point]
    rw [horder]
    exact ⟨ih.1.snoc_invoked hnew, ih.2⟩
  | @served h s hp k i hi hnew ih =>
    obtain ⟨hl, rfl⟩ := ih
    have horder : ∀ r, servedOrder (h ++ [.served k i r]) = servedOrder h ++ [(k, ⟨i, r⟩)] := by
      intro r
      simp [servedOrder, CallEvent.point]
    rw [horder]
    refine ⟨hl.snoc_served hi ?_, by simp [after]⟩
    intro hk
    obtain ⟨x, hx, rfl⟩ := List.mem_map.mp hk
    exact hnew x.2.1 x.2.2 (mem_servedOrder.mp hx)
  | @returned h s hp k i r hr ih =>
    have horder : servedOrder (h ++ [.returned k i r]) = servedOrder h := by
      simp [servedOrder, CallEvent.point]
    rw [horder]
    exact ⟨ih.1.snoc_returned (mem_servedOrder.mpr hr), ih.2⟩

/-- What is served was invoked. -/
theorem Pointed.invoked_of_served {h : List (CallEvent K ι ρ)} (hp : O.Pointed s₀ h s) {k : K}
    {i : ι} {r : ρ i} (hr : .served k i r ∈ h) : .invoked k i ∈ h :=
  hp.linearizes.1.invoked (k, ⟨i, r⟩) (mem_servedOrder.mpr hr)

theorem Pointed.linearizable {h : List (CallEvent K ι ρ)} (hp : O.Pointed s₀ h s) :
    O.Linearizable s₀ h := ⟨_, hp.linearizes.1⟩

/-- Every answer is the one that the object gives in some state. -/
theorem Legal.answer (h : O.Legal s run) (hx : x ∈ run) : ∃ s', x.2 = (O.apply x.1 s').1 := by
  induction run generalizing s with
  | nil => cases hx
  | cons y run ih =>
    rcases List.mem_cons.mp hx with rfl | hx
    · exact ⟨s, h.1⟩
    · exact ih h.2 hx

theorem Linearizable.answer_of_returned {h : List (CallEvent K ι ρ)} (hl : O.Linearizable s₀ h)
    {k : K} {i : ι} {r : ρ i} (hr : .returned k i r ∈ h) : ∃ s', r = (O.apply i s').1 := by
  obtain ⟨order, hl⟩ := hl
  exact hl.legal.answer (List.mem_map_of_mem (f := Prod.snd) (hl.returned k i r hr))

theorem Linearizable.invoked_of_returned {h : List (CallEvent K ι ρ)} (hl : O.Linearizable s₀ h)
    {k : K} {i : ι} {r : ρ i} (hr : .returned k i r ∈ h) : .invoked k i ∈ h := by
  obtain ⟨order, hl⟩ := hl
  exact hl.invoked _ (hl.returned k i r hr)

theorem Linearizable.returned_unique {h : List (CallEvent K ι ρ)} (hl : O.Linearizable s₀ h)
    {k : K} {i : ι} {r r' : ρ i} (hr : .returned k i r ∈ h) (hr' : .returned k i r' ∈ h) :
    r = r' := by
  obtain ⟨order, hl⟩ := hl
  have hsame := hl.unique (hl.returned k i r hr) (hl.returned k i r' hr') rfl
  obtain ⟨-, hx⟩ := Prod.mk.inj hsame
  exact eq_of_heq (Sigma.mk.inj hx).2

section Implementation

variable {A : SeqObject τ κ α} {op : K → Option κ} {read : (l : κ) → (Σ i, ρ i) → α l}
  {h : List (CallEvent K ι ρ)} {k : K} {l : κ} {r : α l}

theorem mem_seenAs_invoked : .invoked k l ∈ h.filterMap (CallEvent.seenAs op read) ↔
    op k = some l ∧ ∃ i, .invoked k i ∈ h := by
  rw [List.mem_filterMap]
  constructor
  · rintro ⟨e, he, hx⟩
    cases e with
    | invoked k' i =>
      obtain ⟨l', hl, hx⟩ := Option.map_eq_some_iff.mp hx
      obtain ⟨rfl, rfl⟩ := CallEvent.invoked.inj hx
      exact ⟨hl, i, he⟩
    | served k' i r | returned k' i r => simp [CallEvent.seenAs] at hx
  · rintro ⟨hl, i, he⟩
    exact ⟨_, he, by simp [CallEvent.seenAs, hl]⟩

theorem mem_seenAs_served : .served k l r ∈ h.filterMap (CallEvent.seenAs op read) ↔
    op k = some l ∧ ∃ i x, .served k i x ∈ h ∧ r = read l ⟨i, x⟩ := by
  rw [List.mem_filterMap]
  constructor
  · rintro ⟨e, he, hx⟩
    cases e with
    | served k' i x =>
      obtain ⟨l', hl, hx⟩ := Option.map_eq_some_iff.mp hx
      obtain ⟨rfl, rfl, rfl⟩ := CallEvent.served.inj hx
      exact ⟨hl, i, x, he, rfl⟩
    | invoked k' i | returned k' i x => simp [CallEvent.seenAs] at hx
  · rintro ⟨hl, i, x, he, rfl⟩
    exact ⟨_, he, by simp [CallEvent.seenAs, hl]⟩

theorem mem_seenAs_returned : .returned k l r ∈ h.filterMap (CallEvent.seenAs op read) ↔
    op k = some l ∧ ∃ i x, .returned k i x ∈ h ∧ r = read l ⟨i, x⟩ := by
  rw [List.mem_filterMap]
  constructor
  · rintro ⟨e, he, hx⟩
    cases e with
    | returned k' i x =>
      obtain ⟨l', hl, hx⟩ := Option.map_eq_some_iff.mp hx
      obtain ⟨rfl, rfl, rfl⟩ := CallEvent.returned.inj hx
      exact ⟨hl, i, x, he, rfl⟩
    | invoked k' i | served k' i x => simp [CallEvent.seenAs] at hx
  · rintro ⟨hl, i, x, he, rfl⟩
    exact ⟨_, he, by simp [CallEvent.seenAs, hl]⟩

/-- Where each call of `O` stands for one of `A`, a history of `O` is one of `A`. -/
theorem Pointed.seenAs (hp : O.Pointed s₀ h s) (abs : σ → τ)
    (hstep : ∀ k i, .invoked k i ∈ h → ∃ l, op k = some l ∧ ∀ s,
      read l ⟨i, (O.apply i s).1⟩ = (A.apply l (abs s)).1 ∧
        abs (O.apply i s).2 = (A.apply l (abs s)).2) :
    A.Pointed (abs s₀) (h.filterMap (CallEvent.seenAs op read)) (abs s) := by
  induction hp with
  | start => exact .start
  | @invoked h s hp k i hnew ih =>
    obtain ⟨l, hl, -⟩ := hstep k i (by simp)
    have hlast : [CallEvent.invoked k i].filterMap (CallEvent.seenAs op read) = [.invoked k l] := by
      simp [CallEvent.seenAs, hl]
    rw [List.filterMap_append, hlast]
    refine (ih fun k i hm => hstep k i (List.mem_append_left _ hm)).invoked k l fun j hm => ?_
    obtain ⟨-, i', hi⟩ := mem_seenAs_invoked.mp hm
    exact hnew i' hi
  | @served h s hp k i hi hnew ih =>
    obtain ⟨l, hl, hlater⟩ := hstep k i (List.mem_append_left _ hi)
    obtain ⟨hread, habs⟩ := hlater s
    have hlast : [CallEvent.served k i (O.apply i s).1].filterMap (CallEvent.seenAs op read) =
        [.served k l (A.apply l (abs s)).1] := by
      simp [CallEvent.seenAs, hl, hread]
    rw [List.filterMap_append, hlast, habs]
    refine (ih fun k i hm => hstep k i (List.mem_append_left _ hm)).served k l
      (mem_seenAs_invoked.mpr ⟨hl, i, hi⟩) fun j r hm => ?_
    obtain ⟨-, i', x, hx, -⟩ := mem_seenAs_served.mp hm
    exact hnew i' x hx
  | @returned h s hp k i r hr ih =>
    have hserved := hp.invoked_of_served hr
    obtain ⟨l, hl, -⟩ := hstep k i (List.mem_append_left _ hserved)
    have hlast : [CallEvent.returned k i r].filterMap (CallEvent.seenAs op read) =
        [.returned k l (read l ⟨i, r⟩)] := by
      simp [CallEvent.seenAs, hl]
    rw [List.filterMap_append, hlast]
    exact (ih fun k i hm => hstep k i (List.mem_append_left _ hm)).returned k l _
      (mem_seenAs_served.mpr ⟨hl, i, r, hr, rfl⟩)

end Implementation

section Reading

variable {h : List (CallEvent K ι ρ)} {Q : σ → Prop} {w r : K} {i j : ι} {a : ρ i} {b : ρ j}

/-- The state that a call leaves is there when a later one is served, as long as the calls
that may come between them keep it. -/
theorem Linearizable.answer_after (hl : O.Linearizable s₀ h)
    (hw : [.returned w i a, .invoked r j] <+ h) (hr : .returned r j b ∈ h)
    (hset : ∀ s, a = (O.apply i s).1 → Q (O.apply i s).2)
    (hkeep : ∀ k l, .invoked k l ∈ h → k ≠ w → (∀ c, ¬ [.returned k l c, .invoked w i] <+ h) →
      ¬ [.returned r j b, .invoked k l] <+ h → ∀ s, Q s → Q (O.apply l s).2) :
    ∃ s, Q s ∧ b = (O.apply j s).1 := by
  obtain ⟨order, hl⟩ := hl
  have hpair := hl.realTime w i a (r, ⟨j, b⟩) (hl.returned r j b hr) hw
  obtain ⟨l₁, l₂, l₃, he, hbetween⟩ := pair_sublist_between (.of_map _ hl.nodup) hpair
  have hlegal := hl.legal
  rw [he, List.map_append, List.map_cons, List.map_append, List.map_cons, legal_append, Legal,
    legal_append, Legal] at hlegal
  obtain ⟨-, ha, -, hb, -⟩ := hlegal
  refine ⟨_, after_keeps (fun l hm => ?_) (hset _ ha), hb⟩
  rw [List.map_map] at hm
  obtain ⟨x, hx, rfl⟩ := List.mem_map.mp hm
  have hmem : x ∈ order := by simp [he, hx]
  obtain ⟨hxw, hrx⟩ := hbetween x hx
  refine hkeep x.1 x.2.1 (hl.invoked x hmem) ?_ (fun c hc => ?_) (fun hc => ?_)
  · intro hk
    have hnodup := hl.nodup
    rw [he, List.map_append, List.map_cons, List.nodup_append] at hnodup
    refine (List.nodup_cons.mp hnodup.2.1).1 ?_
    change w ∈ _
    rw [← hk]
    exact List.mem_map_of_mem (List.mem_append_left _ hx)
  · have hret := hl.returned x.1 x.2.1 c (pair_sublist_mem hc).1
    have hpair := hl.realTime x.1 x.2.1 c (w, ⟨i, a⟩) (by simp [he]) hc
    rw [hl.unique hret hmem rfl] at hpair
    exact hxw hpair
  · exact hrx (hl.realTime r j b x hmem hc)

end Reading

end SeqObject

end MelsecMc
