import MelsecMc.HexText
import MelsecMc.PackedRequests

/-!
# Addressing over several connections

The network and station number that were passed to a connect are kept in one
global of the module, `g_network_address` or `g_ascii_network_address`, and not
with the descriptor. A connect stores them before it opens the socket, so they
stay there when the connection fails. Every request takes them from the global.
-/
namespace MelsecMc

/-- `thread_safe_initialized` and the global with the numbers, for each module. -/
structure Session where
  initialised : Module → Bool
  address : Module → PlcNetworkAddress

/-- What the operating system answers: the result of `socket`, and whether `connect` succeeds. -/
structure SocketAnswer where
  sockFd : ℤ
  connected : Bool

/-- The arguments of a connect, and the outcomes that it meets. -/
structure Connect where
  ipAddr : Option CString
  port : ℤ
  numbers : PlcNetworkAddress
  mutexInit : Bool
  socket : SocketAnswer

/-- A call of a public function with a request, apart from the descriptor. -/
inductive Operation where
  | mc (address : Option CString) (access : Access)
  | mcBatch (address : Option CString) (access : BatchAccess)
  | mcRemote (remote : Remote)
  | mcAscii (address : Option CString) (access : Access)
  | mcAsciiRemote (remote : Remote)

def Operation.module : Operation → Module
  | mc _ _ | mcBatch _ _ | mcRemote _ => .binary
  | mcAscii _ _ | mcAsciiRemote _ => .ascii

def Operation.call (network : PlcNetworkAddress) (fd : ℤ) : Operation → Call ErrorCode
  | mc address access => access.mc network fd address
  | mcBatch address access => access.mc network fd address
  | mcRemote remote => remote.mc network fd
  | mcAscii address access => access.mcAscii network fd address
  | mcAsciiRemote remote => remote.mcAscii network fd

/-- The requests that a call hands over when the transaction ends with `r`. -/
def Call.sent {α : Type} (r : Transacted) : Call α → List (ℤ × ByteArrayInfo)
  | transact fd cmd next => (fd, cmd) :: (next r).sent r
  | _ => []

/-- `mc_open_tcp_client_socket`. The port becomes a `short`. -/
def mcOpenTcpClientSocket (destIp : Option CString) (destPort : ℤ) (answer : SocketAnswer) : ℤ :=
  if destIp.isNone ∨ toInt16 destPort ≤ 0 then -1
  else if answer.sockFd < 0 then -1
  else if answer.connected then answer.sockFd
  else -1

namespace Session

/-- Static storage. -/
def initial : Session := ⟨fun _ => false, fun _ => ⟨0, 0⟩⟩

/-- The body of both connects, up to what they make of the descriptor. -/
def connectWith (m : Module) (result : ℤ → ℤ) (s : Session) (c : Connect) : Session × ℤ :=
  if c.ipAddr.isNone ∨ c.port ≤ 0 then (s, -1)
  else if ¬ s.initialised m ∧ ¬ c.mutexInit then (s, -1)
  else (⟨Function.update s.initialised m true, Function.update s.address m c.numbers⟩,
    result (mcOpenTcpClientSocket c.ipAddr c.port c.socket))

/-- `mc_connect`. -/
def mcConnect := connectWith .binary fun fd => if fd ≤ 0 then -1 else fd

/-- `mc_ascii_connect`. -/
def mcAsciiConnect := connectWith .ascii id

def connect (s : Session) (c : Connect) : Module → Session × ℤ
  | .binary => s.mcConnect c
  | .ascii => s.mcAsciiConnect c

/-- A connect that gets as far as storing its numbers. -/
def Stores (s : Session) (m : Module) (c : Connect) : Prop :=
  c.ipAddr.isSome ∧ 0 < c.port ∧ (s.initialised m ∨ c.mutexInit)

instance (s : Session) (m : Module) (c : Connect) : Decidable (s.Stores m c) :=
  inferInstanceAs (Decidable (_ ∧ _ ∧ _))

/-- One call of the library. Both disconnects close a positive descriptor and touch nothing
else. -/
inductive Event where
  | connect (m : Module) (c : Connect)
  | disconnect (m : Module) (fd : ℤ)
  | request (op : Operation) (fd : ℤ) (r : Transacted)

/-- What can be observed of a call: a connect past its checks with the numbers passed and the
descriptor returned, a closed descriptor, a request. -/
inductive Observed where
  | connected (m : Module) (numbers : PlcNetworkAddress) (fd : ℤ)
  | closed (fd : ℤ)
  | sent (m : Module) (fd : ℤ) (cmd : ByteArrayInfo)

/-- The state after a call and what was observed, the latest first. -/
def step (s : Session) : Event → Session × List Observed
  | .connect m c =>
    ((s.connect c m).1, if s.Stores m c then [.connected m c.numbers (s.connect c m).2] else [])
  | .disconnect _ fd => (s, if 0 < fd then [.closed fd] else [])
  | .request op fd r =>
    (s, ((op.call (s.address op.module) fd).sent r).reverse.map fun x =>
      .sent op.module x.1 x.2)

def advance (p : Session × List Observed) (e : Event) : Session × List Observed :=
  ((p.1.step e).1, (p.1.step e).2 ++ p.2)

/-- A sequence of calls, with everything observed, the latest first. -/
def run (events : List Event) : Session × List Observed := events.foldl advance (initial, [])

/-- The numbers passed to the connect that returned `fd`, while it is open. -/
def opener : List Observed → ℤ → Option PlcNetworkAddress
  | [], _ => none
  | .connected _ numbers fd' :: earlier, fd =>
    if fd' = fd ∧ 0 < fd then some numbers else opener earlier fd
  | .closed fd' :: earlier, fd => if fd' = fd then none else opener earlier fd
  | .sent _ _ _ :: earlier, fd => opener earlier fd

/-- The numbers passed to the last connect of the module past its checks. -/
def latest (m : Module) : List Observed → PlcNetworkAddress
  | [] => ⟨0, 0⟩
  | .connected m' numbers _ :: earlier => if m' = m then numbers else latest m earlier
  | .closed _ :: earlier => latest m earlier
  | .sent _ _ _ :: earlier => latest m earlier

/-- The numbers in a request frame: bytes 2 and 6, or characters 4-5 and 12-13. -/
def Carries (cmd : ByteArrayInfo) (a : PlcNetworkAddress) : Module → Prop
  | .binary => ∃ frame, cmd.data = some frame ∧ frame[2]? = some a.networkNumber ∧
      frame[6]? = some a.stationNumber
  | .ascii => ∃ frame, cmd.data = some frame ∧
      (frame.drop 4).take 2 = mcAsciiWriteHexByte a.networkNumber ∧
      (frame.drop 12).take 2 = mcAsciiWriteHexByte a.stationNumber

/-- Every request has `P`, given what was observed before it. -/
def EverySent (P : List Observed → Module → ℤ → ByteArrayInfo → Prop) (history : List Observed) :
    Prop :=
  ∀ later m fd cmd earlier, history = later ++ .sent m fd cmd :: earlier → P earlier m fd cmd

/-- Every request on an open descriptor carries the numbers of the connect that returned it. -/
def Addressed (history : List Observed) : Prop :=
  EverySent (fun earlier m fd cmd => ∀ a, opener earlier fd = some a → Carries cmd a m) history

/-- Whenever a request goes out on an open descriptor, the last connect of the module passed the
numbers that the connect of the descriptor passed. -/
def Undisturbed (history : List Observed) : Prop :=
  EverySent (fun earlier m fd _ => ∀ a, opener earlier fd = some a → latest m earlier = a) history

theorem carries_packMcCommand {core cmd : ByteArrayInfo} {network : PlcNetworkAddress}
    (h : packMcCommand core network = some cmd) (hd : cmd.data.isSome) :
    Carries cmd network .binary := by
  unfold packMcCommand at h
  split at h
  · simp [← Option.some.inj h] at hd
  · split at h
    · simp [← Option.some.inj h] at hd
    · simp only at h
      split at h
      · obtain ⟨tail, -, rfl⟩ := Option.map_eq_some_iff.mp h
        exact ⟨_, rfl, rfl, rfl⟩
      · simp [← Option.some.inj h] at hd

theorem carries_packMcAsciiCommand {core cmd : ByteArrayInfo} {network : PlcNetworkAddress}
    (h : packMcAsciiCommand core network = some cmd) (hd : cmd.data.isSome) :
    Carries cmd network .ascii := by
  unfold packMcAsciiCommand at h
  split at h
  · simp [← Option.some.inj h] at hd
  · split at h
    · simp [← Option.some.inj h] at hd
    · simp only at h
      split at h
      · obtain ⟨tail, -, rfl⟩ := Option.map_eq_some_iff.mp h
        exact ⟨_, rfl, rfl, rfl⟩
      · simp [← Option.some.inj h] at hd

theorem mcAsciiWriteHexByte_inj {b c : Byte} (h : mcAsciiWriteHexByte b = mcAsciiWriteHexByte c) :
    b = c := by
  rw [mcAsciiWriteHexByte_eq, mcAsciiWriteHexByte_eq] at h
  exact BitVec.eq_of_toNat_eq (Numeral.write_inj hexAlphabet b.isLt c.isLt h)

/-- A frame carries one pair of numbers. -/
theorem Carries.unique {cmd : ByteArrayInfo} {m : Module} {a b : PlcNetworkAddress}
    (ha : Carries cmd a m) (hb : Carries cmd b m) : a = b := by
  cases m with
  | binary =>
    obtain ⟨frame, hf, ha2, ha6⟩ := ha
    obtain ⟨frame', hf', hb2, hb6⟩ := hb
    obtain rfl : frame = frame' := Option.some.inj (hf.symm.trans hf')
    have h2 : a.networkNumber = b.networkNumber := Option.some.inj (ha2.symm.trans hb2)
    have h6 : a.stationNumber = b.stationNumber := Option.some.inj (ha6.symm.trans hb6)
    cases a
    cases b
    simp_all
  | ascii =>
    obtain ⟨frame, hf, ha4, ha12⟩ := ha
    obtain ⟨frame', hf', hb4, hb12⟩ := hb
    obtain rfl : frame = frame' := Option.some.inj (hf.symm.trans hf')
    have h4 := mcAsciiWriteHexByte_inj (ha4.symm.trans hb4)
    have h12 := mcAsciiWriteHexByte_inj (ha12.symm.trans hb12)
    cases a
    cases b
    simp_all

/-- A request is for the descriptor of the call and carries the numbers of the module. -/
theorem request_carries (op : Operation) (network : PlcNetworkAddress) (fd : ℤ) :
    (op.call network fd).Requests fun fd' cmd => fd' = fd ∧ Carries cmd network op.module := by
  cases op with
  | mc address access =>
    exact (access.mc_parts address).requests fun _ _ h hd => ⟨rfl, carries_packMcCommand h hd⟩
  | mcBatch address access =>
    exact (access.mc_parts address).requests fun _ _ h hd => ⟨rfl, carries_packMcCommand h hd⟩
  | mcRemote remote =>
    exact remote.mc_parts.requests fun _ _ h hd => ⟨rfl, carries_packMcCommand h hd⟩
  | mcAscii address access =>
    exact (access.mcAscii_parts address).requests fun _ _ h hd =>
      ⟨rfl, carries_packMcAsciiCommand h hd⟩
  | mcAsciiRemote remote =>
    exact remote.mcAscii_parts.requests fun _ _ h hd => ⟨rfl, carries_packMcAsciiCommand h hd⟩

theorem sent_of_requests {α : Type} {S : ℤ → ByteArrayInfo → Prop} {c : Call α} (h : c.Requests S)
    (r : Transacted) : ∀ x ∈ c.sent r, S x.1 x.2 := by
  induction c with
  | fault => simp [Call.sent]
  | ret a => simp [Call.sent]
  | transact fd cmd next ih =>
    intro x hx
    rcases List.mem_cons.mp hx with rfl | hx
    · exact h.1
    · exact ih r (h.2 r) x hx

theorem EverySent.cons {P : List Observed → Module → ℤ → ByteArrayInfo → Prop}
    {history : List Observed} (h : EverySent P history) {o : Observed}
    (ho : ∀ m fd cmd, o = .sent m fd cmd → P history m fd cmd) : EverySent P (o :: history) := by
  intro later m fd cmd earlier he
  cases later with
  | nil =>
    obtain ⟨rfl, rfl⟩ := List.cons.inj he
    exact ho m fd cmd rfl
  | cons x later => exact h later m fd cmd earlier (List.cons.inj he).2

/-- The globals hold the numbers of the last connects, and every request carried them. -/
structure Faithful (p : Session × List Observed) : Prop where
  address : ∀ m, p.1.address m = latest m p.2
  sent : EverySent (fun earlier m _ cmd => Carries cmd (latest m earlier) m) p.2

theorem connectWith_address (s : Session) (m : Module) (result : ℤ → ℤ) (c : Connect) :
    (connectWith m result s c).1.address =
      if s.Stores m c then Function.update s.address m c.numbers else s.address := by
  unfold connectWith
  split
  · rename_i h
    rw [if_neg]
    rintro ⟨hip, hport, -⟩
    rcases h with h | h
    · simp [Option.isNone_iff_eq_none.mp h] at hip
    · omega
  · rename_i h
    split
    · rename_i hinit
      rw [if_neg]
      rintro ⟨-, -, hi | hi⟩
      · exact hinit.1 hi
      · exact hinit.2 hi
    · rename_i hinit
      rw [if_pos]
      refine ⟨?_, by omega, ?_⟩
      · cases hip : c.ipAddr with
        | none => exact absurd (.inl (by simp [hip])) h
        | some ip => rfl
      · by_contra hn
        exact hinit ⟨fun h => hn (.inl h), fun h => hn (.inr h)⟩

theorem connect_address (s : Session) (m : Module) (c : Connect) :
    (s.connect c m).1.address =
      if s.Stores m c then Function.update s.address m c.numbers else s.address := by
  cases m <;> exact connectWith_address s _ _ c

theorem Faithful.request {s : Session} {history : List Observed} (h : Faithful (s, history))
    (m : Module) (xs : List (ℤ × ByteArrayInfo)) (hxs : ∀ x ∈ xs, Carries x.2 (s.address m) m) :
    Faithful (s, (xs.map fun x => Observed.sent m x.1 x.2) ++ history) := by
  induction xs with
  | nil => exact h
  | cons x xs ih =>
    obtain ⟨haddress, hsent⟩ := ih fun y hy => hxs y (List.mem_cons_of_mem x hy)
    refine ⟨haddress, hsent.cons fun m' fd cmd he => ?_⟩
    obtain ⟨rfl, rfl, rfl⟩ := Observed.sent.inj he
    have hx := hxs x List.mem_cons_self
    rwa [haddress m] at hx

theorem Faithful.advance {p : Session × List Observed} (h : Faithful p) (e : Event) :
    Faithful (advance p e) := by
  obtain ⟨s, history⟩ := p
  cases e with
  | connect m c =>
    by_cases hs : s.Stores m c
    · simp only [Session.advance, step, if_pos hs]
      refine ⟨fun m' => ?_, h.sent.cons fun m' fd cmd he => nomatch he⟩
      rw [connect_address, if_pos hs]
      simp only [List.cons_append, List.nil_append, latest]
      by_cases hm : m' = m
      · rw [hm, Function.update_self, if_pos rfl]
      · rw [Function.update_of_ne hm, if_neg fun he => hm he.symm]
        exact h.address m'
    · simp only [Session.advance, step, if_neg hs]
      refine ⟨fun m' => ?_, h.sent⟩
      rw [connect_address, if_neg hs]
      exact h.address m'
  | disconnect m fd =>
    simp only [Session.advance, step]
    split
    · exact ⟨h.address, h.sent.cons fun m' fd cmd he => nomatch he⟩
    · exact h
  | request op fd r =>
    refine h.request op.module _ fun x hx => ?_
    exact (sent_of_requests (request_carries op _ fd) r x (List.mem_reverse.mp hx)).2

theorem run_faithful (events : List Event) : Faithful (run events) := by
  have hgen : ∀ p, Faithful p → Faithful (events.foldl Session.advance p) := by
    induction events with
    | nil => exact fun p h => h
    | cons e events ih => exact fun p h => ih _ (h.advance e)
  refine hgen _ ⟨fun m => rfl, ?_⟩
  intro later m fd cmd earlier he
  simp at he

/-- In every sequence of calls, the requests on open descriptors carry the numbers of the connects
that returned them if and only if no later connect of the module left other numbers behind. -/
theorem addressed_iff_undisturbed (events : List Event) :
    Addressed (run events).2 ↔ Undisturbed (run events).2 := by
  have hsent := (run_faithful events).sent
  constructor
  · intro h later m fd cmd earlier he a ha
    exact (hsent later m fd cmd earlier he).unique (h later m fd cmd earlier he a ha)
  · intro h later m fd cmd earlier he a ha
    rw [← h later m fd cmd earlier he a ha]
    exact hsent later m fd cmd earlier he

def localhost : CString := ⟨text ['1', '2', '7', '.', '0', '.', '0', '.', '1'], by decide⟩

/-- A connection to network 0 is open as descriptor 3 when a connect to network 1 fails. -/
def failedConnect : List Event :=
  [.connect .binary ⟨some localhost, 5007, ⟨0, 0⟩, true, ⟨3, true⟩⟩,
    .connect .binary ⟨some localhost, 5008, ⟨1, 2⟩, true, ⟨4, false⟩⟩,
    .request (.mcRemote .stop) 3 ⟨.socketRecvFailed, .zero, 0⟩]

/-- The next request on descriptor 3 goes to network 1. -/
theorem failedConnect_readdresses : ¬ Addressed (run failedConnect).2 := by
  intro h
  have hsent : (run failedConnect).2 = [] ++ .sent .binary 3
      (.ofList (mcCommandHeader ⟨1, 2⟩ 17 ++ [0x02, 0x10, 0x00, 0x00, 0x01, 0x00])) ::
        [.connected .binary ⟨1, 2⟩ (-1), .connected .binary ⟨0, 0⟩ 3] := by rfl
  obtain ⟨frame, hf, h2, -⟩ := h [] .binary 3 _ _ hsent ⟨0, 0⟩ rfl
  obtain rfl := Option.some.inj hf
  exact absurd h2 (by decide)

end Session

end MelsecMc
