import MelsecMc.ConfigHistory
import MelsecMc.SocketAddress
import MelsecMc.Transition

/-!
# The descriptors of a process over a run (socket.c)

Sockets are opened by the connects and by three functions, of which two take a
configuration, and closed by `mc_close_tcp_socket`. A call that fails behind `socket`
closes what it has opened, so the open descriptors are those that were returned and not
closed since.
A configuration belongs to an open descriptor, and a new connection never has the
configuration of an earlier one.
-/
namespace MelsecMc

open ConnectionConfig (slots)
open ConnectionConfigs
open SocketAddress (SocketReturns)

/-- The open descriptors of the process, the configurations, and the globals of the connects. -/
structure ProcessSockets where
  descriptors : Finset ℤ
  configs : ConnectionConfigs
  session : Session

namespace ProcessSockets

/-- `socket`. -/
def socket (s : ProcessSockets) (sockFd : ℤ) : ProcessSockets :=
  if sockFd < 0 then s else { s with descriptors := insert sockFd s.descriptors }

/-- `mc_close_tcp_socket`. -/
def mcCloseTcpSocket (s : ProcessSockets) (sockFd : ℤ) : ProcessSockets :=
  if sockFd ≤ 0 then s
  else { s with
    configs := s.configs.mcRemoveConnectionConfig sockFd
    descriptors := s.descriptors.erase sockFd }

/-- `mc_set_comm_config`. -/
def mcSetCommConfig (s : ProcessSockets) (fd : ℤ) (config : CommConfig) (sndtimeo rcvtimeo : ℤ) :
    ErrorCode × ProcessSockets :=
  let (ret, configs) := s.configs.mcSetCommConfig fd config sndtimeo rcvtimeo
  (ret, { s with configs := configs })

/-- `mc_open_tcp_client_socket_with_config2`. -/
def mcOpenTcpClientSocketWithConfig2 (s : ProcessSockets) (os : SocketReturns)
    (destIp : Option CString) (destPort : ℤ) (config : CommConfig) : ℤ × ProcessSockets :=
  if destIp.isNone ∨ destPort ≤ 0 then (-1, s)
  else
    let s := s.socket os.sockFd
    if os.sockFd < 0 then (-1, s)
    else if os.connect ≠ 0 then (-1, s.mcCloseTcpSocket os.sockFd)
    else (os.sockFd, (s.mcSetCommConfig os.sockFd config os.sndtimeo os.rcvtimeo).2)

/-- `mc_open_tcp_client_socket`. The port becomes a `short`. -/
def mcOpenTcpClientSocket (s : ProcessSockets) (os : SocketReturns) (destIp : Option CString)
    (destPort : ℤ) : ℤ × ProcessSockets :=
  s.mcOpenTcpClientSocketWithConfig2 os destIp (toInt16 destPort) defaultCommConfig

/-- `mc_open_tcp_client_socket_with_config`. The socket options are set twice, the second time with
the results `sndtimeo` and `rcvtimeo`. -/
def mcOpenTcpClientSocketWithConfig (s : ProcessSockets) (os : SocketReturns)
    (sndtimeo rcvtimeo : ℤ) (destIp : Option CString) (destPort : ℤ) (config : CommConfig) :
    ℤ × ProcessSockets :=
  let (sockFd, s) := s.mcOpenTcpClientSocket os destIp destPort
  if sockFd ≤ 0 then (sockFd, s)
  else
    let (ret, s) := s.mcSetCommConfig sockFd config sndtimeo rcvtimeo
    if ret ≠ .success then (-1, s.mcCloseTcpSocket sockFd)
    else (sockFd, s)

/-- The body of both connects, up to what they make of the descriptor. -/
def connectWith (m : Module) (result : ℤ → ℤ) (s : ProcessSockets) (os : SocketReturns)
    (mutexInit : Bool) (ip_addr : Option CString) (port : ℤ) (numbers : PlcNetworkAddress) :
    ℤ × ProcessSockets :=
  if ip_addr.isNone ∨ port ≤ 0 then (-1, s)
  else if ¬ s.session.initialised m ∧ ¬ mutexInit then (-1, s)
  else
    let s := { s with session := ⟨Function.update s.session.initialised m true,
      Function.update s.session.address m numbers⟩ }
    let (fd, s) := s.mcOpenTcpClientSocket os ip_addr port
    (result fd, s)

/-- `mc_connect`. -/
def mcConnect := connectWith .binary fun fd => if fd ≤ 0 then -1 else fd

/-- `mc_ascii_connect`. -/
def mcAsciiConnect := connectWith .ascii id

def connect : Module → ProcessSockets → SocketReturns → Bool → Option CString → ℤ →
    PlcNetworkAddress → ℤ × ProcessSockets
  | .binary => mcConnect
  | .ascii => mcAsciiConnect

/-- `mc_disconnect` and `mc_ascii_disconnect`. -/
def mcDisconnect (s : ProcessSockets) (fd : ℤ) : Bool × ProcessSockets :=
  if fd ≤ 0 then (false, s) else (true, s.mcCloseTcpSocket fd)

theorem mcOpenTcpClientSocket_eq (s : ProcessSockets) (os : SocketReturns) (destIp : Option CString)
    (destPort : ℤ) (inetAddr : CString → BitVec 32) :
    let c := SocketAddress.mcOpenTcpClientSocket inetAddr os s.configs destIp destPort
    let r := s.mcOpenTcpClientSocket os destIp destPort
    (r.1, r.2.configs, r.2.session) = (c.result, c.configs, s.session) := by
  simp only [mcOpenTcpClientSocket, mcOpenTcpClientSocketWithConfig2, socket,
    SocketAddress.mcOpenTcpClientSocket, SocketAddress.mcOpenTcpClientSocketWithConfig2]
  cases destIp with
  | none => simp
  | some ip =>
    by_cases hport : toInt16 destPort ≤ 0
    · simp [hport]
    · by_cases hneg : os.sockFd < 0
      · simp [hport, hneg]
      · by_cases hconnect : os.connect = 0
        · simp [hport, hneg, hconnect, mcSetCommConfig]
        · simp only [Option.isNone_some, hport, hneg, hconnect, mcCloseTcpSocket,
            ConnectionConfigs.mcCloseTcpSocket, if_false, ne_eq, not_false_eq_true, if_true,
            Bool.false_eq_true, or_self]
          split <;> rfl

/-- Apart from the descriptors, the connects do what they do in `SocketAddress`. -/
theorem connect_eq (m : Module) (s : ProcessSockets) (os : SocketReturns) (mutexInit : Bool)
    (ip_addr : Option CString) (port : ℤ) (numbers : PlcNetworkAddress)
    (inetAddr : CString → BitVec 32) :
    let c := SocketAddress.connect inetAddr m os mutexInit s.session s.configs ip_addr port numbers
    let r := s.connect m os mutexInit ip_addr port numbers
    (r.1, r.2.configs, r.2.session) = (c.2.result, c.2.configs, c.1) := by
  have hbody : ∀ result : ℤ → ℤ,
      let c := SocketAddress.connectWith inetAddr m result os mutexInit s.session s.configs ip_addr
        port numbers
      let r := connectWith m result s os mutexInit ip_addr port numbers
      (r.1, r.2.configs, r.2.session) = (c.2.result, c.2.configs, c.1) := by
    intro result
    simp only [connectWith, SocketAddress.connectWith]
    split
    · rfl
    · split
      · rfl
      · have hopen := mcOpenTcpClientSocket_eq { s with session :=
          ⟨Function.update s.session.initialised m true,
            Function.update s.session.address m numbers⟩ } os ip_addr port inetAddr
        simp only [Prod.mk.injEq] at hopen
        simp only [hopen]
  cases m with
  | binary => exact hbody fun fd => if fd ≤ 0 then -1 else fd
  | ascii => exact hbody id

end ProcessSockets

/-- A call that works on sockets. -/
inductive DescriptorCall where
  | connect (m : Module) (os : SocketReturns) (mutexInit : Bool) (ip_addr : Option CString)
      (port : ℤ) (numbers : PlcNetworkAddress)
  | openSocket (os : SocketReturns) (destIp : Option CString) (destPort : ℤ)
  | openWithConfig2 (os : SocketReturns) (destIp : Option CString) (destPort : ℤ)
      (config : CommConfig)
  | openWithConfig (os : SocketReturns) (sndtimeo rcvtimeo : ℤ) (destIp : Option CString)
      (destPort : ℤ) (config : CommConfig)
  | set (fd : ℤ) (config : CommConfig) (sndtimeo rcvtimeo : ℤ)
  | close (fd : ℤ)
  | disconnect (fd : ℤ)

namespace DescriptorCall

/-- The descriptor that the call returns, and the state behind it. -/
def run (s : ProcessSockets) : DescriptorCall → Option ℤ × ProcessSockets
  | connect m os mutexInit ip_addr port numbers =>
    (s.connect m os mutexInit ip_addr port numbers).map some id
  | openSocket os destIp destPort => (s.mcOpenTcpClientSocket os destIp destPort).map some id
  | openWithConfig2 os destIp destPort config =>
    (s.mcOpenTcpClientSocketWithConfig2 os destIp destPort config).map some id
  | openWithConfig os sndtimeo rcvtimeo destIp destPort config =>
    (s.mcOpenTcpClientSocketWithConfig os sndtimeo rcvtimeo destIp destPort config).map some id
  | set fd config sndtimeo rcvtimeo => (none, (s.mcSetCommConfig fd config sndtimeo rcvtimeo).2)
  | close fd => (none, s.mcCloseTcpSocket fd)
  | disconnect fd => (none, (s.mcDisconnect fd).2)

/-- What `socket` returns in the call. -/
def socketReturns : DescriptorCall → Option ℤ
  | connect _ os _ _ _ _ | openSocket os _ _ | openWithConfig2 os _ _ _
  | openWithConfig os _ _ _ _ _ => some os.sockFd
  | _ => none

/-- The configuration that is asked for with a new connection. -/
def config : DescriptorCall → CommConfig
  | openWithConfig2 _ _ _ config | openWithConfig _ _ _ _ _ config => config
  | _ => defaultCommConfig

/-- The call keeps a connection whose configuration finds no slot. -/
def Lenient : DescriptorCall → Prop
  | openWithConfig _ _ _ _ _ _ => False
  | _ => True

/-- `socket` returns no descriptor that is open, and a configuration is set on one that is, or is
refused. On any other descriptor `mc_set_comm_config` stores it too, and it stays in the table when
`setsockopt` fails. -/
def Possible (s : ProcessSockets) : DescriptorCall → Prop
  | set fd _ _ _ => 0 < fd → fd ∈ s.descriptors
  | c => ∀ fd, c.socketReturns = some fd → fd ∉ s.descriptors

/-- What a call and its result say about the open descriptors. -/
def account (descriptors : Finset ℤ) : DescriptorCall → Option ℤ → Finset ℤ
  | close fd, _ | disconnect fd, _ => if 0 < fd then descriptors.erase fd else descriptors
  | _, some fd => if 0 < fd then insert fd descriptors else descriptors
  | _, none => descriptors

end DescriptorCall

/-- The calls of a process with their results, from the descriptors that are open at its start. -/
def descriptorCalls (descriptors : Finset ℤ) :
    TransitionSystem (ProcessSockets × List (DescriptorCall × Option ℤ)) where
  init x := x = (⟨descriptors, .initial, .initial⟩, [])
  step x y := ∃ c : DescriptorCall,
    c.Possible x.1 ∧ y = ((c.run x.1).2, x.2 ++ [(c, (c.run x.1).1)])

namespace ProcessSockets

/-- Configurations belong to open descriptors, and descriptor 0 is open. -/
structure Inv (s : ProcessSockets) : Prop where
  unique : s.configs.Unique
  owned : ∀ fd, s.configs.HasEntry fd → fd ∈ s.descriptors
  stdin : 0 ∈ s.descriptors

/-- The ways in which a call ends that is to open a connection with `config`. Only a lenient call
keeps a connection without it. -/
inductive Opened (s : ProcessSockets) (config : CommConfig) (lenient : Prop) :
    ℤ × ProcessSockets → Prop
  | failed (s' : ProcessSockets) (unique : s'.configs.Unique)
      (descriptors : s'.descriptors = s.descriptors)
      (lookup : slots.lookup s'.configs = slots.lookup s.configs) : Opened s config lenient (-1, s')
  | stored (fd : ℤ) (s' : ProcessSockets) (pos : 0 < fd) (new : fd ∉ s.descriptors)
      (unique : s'.configs.Unique) (descriptors : s'.descriptors = insert fd s.descriptors)
      (lookup : slots.lookup s'.configs =
        Function.update (slots.lookup s.configs) fd (some config)) :
      Opened s config lenient (fd, s')
  | dropped (fd : ℤ) (s' : ProcessSockets) (pos : 0 < fd) (new : fd ∉ s.descriptors)
      (allowed : lenient) (full : s.configs.FullWithout fd)
      (descriptors : s'.descriptors = insert fd s.descriptors) (configs : s'.configs = s.configs) :
      Opened s config lenient (fd, s')

section Step

variable {s : ProcessSockets} {fd : ℤ} {os : SocketReturns} {config : CommConfig} {lenient : Prop}

theorem Inv.lookup_eq_none (h : s.Inv) (hfd : fd ∉ s.descriptors) :
    slots.lookup s.configs fd = none := by
  rw [← Option.not_isSome_iff_eq_none, ← hasEntry_iff]
  exact fun hentry => hfd (h.owned fd hentry)

/-- A descriptor that is closed right after it was opened. -/
theorem Inv.close_opened (h : s.Inv) (hpos : 0 < fd) (hnew : fd ∉ s.descriptors)
    {s' : ProcessSockets} (hu : s'.configs.Unique) (hd : s'.descriptors = insert fd s.descriptors)
    (hl : ∀ fd', fd' ≠ fd → slots.lookup s'.configs fd' = slots.lookup s.configs fd') :
    s.Opened config lenient (-1, s'.mcCloseTcpSocket fd) := by
  rw [mcCloseTcpSocket, if_neg (by omega)]
  refine .failed _ (hu.remove fd) ?_ ?_
  · simp only [hd, Finset.erase_insert hnew]
  · funext fd'
    rw [lookup_mcRemoveConnectionConfig hu]
    by_cases hfd : fd' = fd
    · rw [hfd, Function.update_self, h.lookup_eq_none hnew]
    · rw [Function.update_of_ne hfd, hl fd' hfd]

/-- A configuration for a new connection is stored, or all slots are taken by other ones. -/
theorem Inv.set_opened (h : s.Inv) (hpos : 0 < fd) (hnew : fd ∉ s.descriptors) {s' : ProcessSockets}
    (hs' : s' = { s with descriptors := insert fd s.descriptors }) (sndtimeo rcvtimeo : ℤ) :
    s.Opened config True (fd, (s'.mcSetCommConfig fd config sndtimeo rcvtimeo).2) := by
  subst hs'
  obtain ⟨hput, hset⟩ | ⟨after, i, hput, hset⟩ :=
    s.configs.mcSetCommConfig_cases hpos config sndtimeo rcvtimeo
  · refine .dropped fd _ hpos hnew trivial ?_ rfl ?_
    · rw [fullWithout_iff]
      exact (SlotMap.put_eq_none_iff (S := slots) h.unique fd config).mp hput
    · simp only [mcSetCommConfig, hset]
  · refine .stored fd _ hpos hnew ?_ rfl ?_
    · simp only [mcSetCommConfig, hset]
      exact SlotMap.put_unique (S := slots) h.unique hput
    · simp only [mcSetCommConfig, hset]
      exact SlotMap.lookup_put hput

theorem mcOpenTcpClientSocketWithConfig2_opened (h : s.Inv) (hnew : os.sockFd ∉ s.descriptors)
    (destIp : Option CString) (destPort : ℤ) (config : CommConfig) :
    s.Opened config True (s.mcOpenTcpClientSocketWithConfig2 os destIp destPort config) := by
  rw [mcOpenTcpClientSocketWithConfig2]
  split
  · exact .failed s h.unique rfl rfl
  · split
    · rename_i hneg
      rw [socket, if_pos hneg]
      exact .failed s h.unique rfl rfl
    · rename_i hneg
      have hpos : 0 < os.sockFd := by
        have h0 : os.sockFd ≠ 0 := fun he => hnew (he ▸ h.stdin)
        omega
      have hsocket : s.socket os.sockFd =
          { s with descriptors := insert os.sockFd s.descriptors } := if_neg hneg
      split
      · exact h.close_opened hpos hnew (by rw [hsocket]; exact h.unique) (by rw [hsocket])
          fun fd' _ => by rw [hsocket]
      · exact h.set_opened hpos hnew hsocket os.sndtimeo os.rcvtimeo

/-- With a second configuration a connection is opened for good only when it is stored. -/
theorem mcOpenTcpClientSocketWithConfig_opened (h : s.Inv) (hnew : os.sockFd ∉ s.descriptors)
    (sndtimeo rcvtimeo : ℤ) (destIp : Option CString) (destPort : ℤ) (config : CommConfig) :
    s.Opened config False
      (s.mcOpenTcpClientSocketWithConfig os sndtimeo rcvtimeo destIp destPort config) := by
  have hopened : s.Opened defaultCommConfig True (s.mcOpenTcpClientSocket os destIp destPort) :=
    mcOpenTcpClientSocketWithConfig2_opened h hnew destIp (toInt16 destPort) defaultCommConfig
  rw [mcOpenTcpClientSocketWithConfig]
  generalize s.mcOpenTcpClientSocket os destIp destPort = opened at hopened ⊢
  cases hopened with
  | failed s' hu hd hl => exact .failed s' hu hd hl
  | stored fd s' hpos hnew hu hd hl =>
    simp only [if_neg (show ¬ fd ≤ 0 by omega)]
    obtain ⟨hput, -⟩ | ⟨after, i, hput, hset⟩ :=
      s'.configs.mcSetCommConfig_cases hpos config sndtimeo rcvtimeo
    · have hfull := (SlotMap.put_eq_none_iff (S := slots) hu fd config).mp hput
      rw [hl, SlotMap.Full, Function.update_self] at hfull
      cases hfull.1
    · have hafter :
          slots.lookup after = Function.update (slots.lookup s.configs) fd (some config) := by
        rw [SlotMap.lookup_put hput, hl, Function.update_idem]
      have hunique : ConnectionConfigs.Unique after := SlotMap.put_unique (S := slots) hu hput
      by_cases hoptions : 0 ≤ sndtimeo ∧ 0 ≤ rcvtimeo
      · simp only [mcSetCommConfig, hset, if_pos hoptions, ne_eq, not_true_eq_false, if_false]
        exact .stored fd _ hpos hnew hunique hd hafter
      · simp only [mcSetCommConfig, hset, if_neg hoptions]
        exact h.close_opened hpos hnew hunique hd fun fd' hfd => by
          rw [hafter, Function.update_of_ne hfd]
  | dropped fd s' hpos hnew _ hfull hd hc =>
    simp only [if_neg (show ¬ fd ≤ 0 by omega)]
    have hput : slots.put s'.configs fd config = none := by
      rw [hc, SlotMap.put_eq_none_iff (S := slots) h.unique]
      exact fullWithout_iff.mp hfull
    obtain ⟨-, hset⟩ | ⟨after, i, hput', -⟩ :=
      s'.configs.mcSetCommConfig_cases hpos config sndtimeo rcvtimeo
    · simp only [mcSetCommConfig, hset]
      exact h.close_opened hpos hnew (hc ▸ h.unique) hd fun fd' _ => by rw [hc]
    · rw [hput] at hput'
      cases hput'

theorem connect_opened (h : s.Inv) (hnew : os.sockFd ∉ s.descriptors) (m : Module)
    (mutexInit : Bool) (ip_addr : Option CString) (port : ℤ) (numbers : PlcNetworkAddress) :
    s.Opened defaultCommConfig True (s.connect m os mutexInit ip_addr port numbers) := by
  have hbody : ∀ result : ℤ → ℤ, result (-1) = -1 → (∀ fd, 0 < fd → result fd = fd) →
      s.Opened defaultCommConfig True
        (connectWith m result s os mutexInit ip_addr port numbers) := by
    intro result hfail hpass
    rw [connectWith]
    split
    · exact .failed s h.unique rfl rfl
    · split
      · exact .failed s h.unique rfl rfl
      · have hopened := mcOpenTcpClientSocketWithConfig2_opened
          (s := { s with session := ⟨Function.update s.session.initialised m true,
            Function.update s.session.address m numbers⟩ }) ⟨h.unique, h.owned, h.stdin⟩ hnew
          ip_addr (toInt16 port) defaultCommConfig
        simp only [mcOpenTcpClientSocket]
        generalize mcOpenTcpClientSocketWithConfig2 _ _ _ _ _ = opened at hopened ⊢
        cases hopened with
        | failed s' hu hd hl =>
          simp only [hfail]
          exact .failed s' hu hd hl
        | stored fd s' hpos hnew hu hd hl =>
          simp only [hpass fd hpos]
          exact .stored fd s' hpos hnew hu hd hl
        | dropped fd s' hpos hnew _ hfull hd hc =>
          simp only [hpass fd hpos]
          exact .dropped fd s' hpos hnew trivial hfull hd hc
  cases m with
  | binary =>
    exact hbody (fun fd => if fd ≤ 0 then -1 else fd) rfl fun fd hfd => if_neg (by omega)
  | ascii => exact hbody _ rfl fun fd _ => rfl

theorem Opened.run {r : ℤ × ProcessSockets} (ho : s.Opened config lenient r) (h : s.Inv) :
    r.2.Inv ∧ r.2.descriptors = if 0 < r.1 then insert r.1 s.descriptors else s.descriptors := by
  cases ho with
  | failed s' hu hd hl =>
    refine ⟨⟨hu, fun fd hentry => ?_, hd ▸ h.stdin⟩, hd⟩
    rw [hasEntry_iff, hl, ← hasEntry_iff] at hentry
    exact hd ▸ h.owned fd hentry
  | stored fd s' hpos hnew hu hd hl =>
    refine ⟨⟨hu, fun fd' hentry => ?_, ?_⟩, by rw [if_pos hpos, hd]⟩
    · rw [hd, Finset.mem_insert, or_iff_not_imp_left]
      intro hfd
      rw [hasEntry_iff, hl, Function.update_of_ne hfd, ← hasEntry_iff] at hentry
      exact h.owned fd' hentry
    · exact hd ▸ Finset.mem_insert_of_mem h.stdin
  | dropped fd s' hpos hnew _ hfull hd hc =>
    refine ⟨⟨hc ▸ h.unique, fun fd' hentry => ?_, ?_⟩, by rw [if_pos hpos, hd]⟩
    · rw [hc] at hentry
      exact hd ▸ Finset.mem_insert_of_mem (h.owned fd' hentry)
    · exact hd ▸ Finset.mem_insert_of_mem h.stdin

/-- A new connection has the configuration that was asked for. -/
theorem Opened.reads {r : ℤ × ProcessSockets} (ho : s.Opened config lenient r) (h : s.Inv)
    (hpos : 0 < r.1) :
    r.1 ∉ s.descriptors ∧ (r.2.configs.mcGetCommConfig r.1 true = (.success, some config) ∨
      lenient ∧ s.configs.FullWithout r.1 ∧
        r.2.configs.mcGetCommConfig r.1 true = (.success, some defaultCommConfig)) := by
  cases ho with
  | failed s' hu hd hl => cases hpos
  | stored fd s' _ hnew hu hd hl =>
    refine ⟨hnew, .inl ?_⟩
    simp only [mcGetCommConfig_eq hpos, hl, Function.update_self, Option.getD_some]
  | dropped fd s' _ hnew hallowed hfull hd hc =>
    refine ⟨hnew, .inr ⟨hallowed, hfull, ?_⟩⟩
    simp only [hc, mcGetCommConfig_eq hpos, h.lookup_eq_none hnew, Option.getD_none]

theorem Inv.close (h : s.Inv) (fd : ℤ) :
    (s.mcCloseTcpSocket fd).Inv ∧ (s.mcCloseTcpSocket fd).descriptors =
      if 0 < fd then s.descriptors.erase fd else s.descriptors := by
  rw [mcCloseTcpSocket]
  split
  · exact ⟨h, by rw [if_neg (by omega)]⟩
  · refine ⟨⟨h.unique.remove fd, fun fd' hentry => ?_, ?_⟩, by rw [if_pos (by omega)]⟩
    · rw [hasEntry_iff, lookup_mcRemoveConnectionConfig h.unique] at hentry
      by_cases hfd : fd' = fd
      · rw [hfd, Function.update_self] at hentry
        cases hentry
      · rw [Function.update_of_ne hfd, ← hasEntry_iff] at hentry
        exact Finset.mem_erase.mpr ⟨hfd, h.owned fd' hentry⟩
    · exact Finset.mem_erase.mpr ⟨by omega, h.stdin⟩

theorem Inv.set (h : s.Inv) (hfd : 0 < fd → fd ∈ s.descriptors) (config : CommConfig)
    (sndtimeo rcvtimeo : ℤ) : (s.mcSetCommConfig fd config sndtimeo rcvtimeo).2.Inv := by
  simp only [mcSetCommConfig]
  by_cases hpos : 0 < fd
  · obtain ⟨-, hset⟩ | ⟨after, i, hput, hset⟩ :=
      s.configs.mcSetCommConfig_cases hpos config sndtimeo rcvtimeo
    · rw [hset]
      exact ⟨h.unique, h.owned, h.stdin⟩
    · rw [hset]
      refine ⟨SlotMap.put_unique (S := slots) h.unique hput, fun fd' hentry => ?_, h.stdin⟩
      by_cases hfd' : fd' = fd
      · exact hfd' ▸ hfd hpos
      · rw [hasEntry_iff, SlotMap.lookup_put hput, Function.update_of_ne hfd', ← hasEntry_iff]
          at hentry
        exact h.owned fd' hentry
  · rw [ConnectionConfigs.mcSetCommConfig, if_pos (by omega)]
    exact ⟨h.unique, h.owned, h.stdin⟩

/-- Every call with a socket of its own ends in one of the ways. -/
theorem Inv.opened (h : s.Inv) {c : DescriptorCall} (hc : c.Possible s) {fd : ℤ}
    (hsocket : c.socketReturns = some fd) :
    ∃ r, c.run s = (some r.1, r.2) ∧ s.Opened c.config c.Lenient r := by
  cases c with
  | connect m os mutexInit ip_addr port numbers =>
    exact ⟨_, rfl, connect_opened h (hc _ rfl) m mutexInit ip_addr port numbers⟩
  | openSocket os destIp destPort =>
    exact ⟨_, rfl, mcOpenTcpClientSocketWithConfig2_opened h (hc _ rfl) ..⟩
  | openWithConfig2 os destIp destPort config =>
    exact ⟨_, rfl, mcOpenTcpClientSocketWithConfig2_opened h (hc _ rfl) ..⟩
  | openWithConfig os sndtimeo rcvtimeo destIp destPort config =>
    exact ⟨_, rfl, mcOpenTcpClientSocketWithConfig_opened h (hc _ rfl) ..⟩
  | set _ _ _ _ | close _ | disconnect _ => cases hsocket

theorem Inv.run (h : s.Inv) {c : DescriptorCall} (hc : c.Possible s) :
    (c.run s).2.Inv ∧ (c.run s).2.descriptors = c.account s.descriptors (c.run s).1 := by
  cases c with
  | connect _ _ _ _ _ _ | openSocket _ _ _ | openWithConfig2 _ _ _ _
  | openWithConfig _ _ _ _ _ _ =>
    obtain ⟨r, hr, ho⟩ := h.opened hc rfl
    rw [hr]
    exact ho.run h
  | set fd config sndtimeo rcvtimeo => exact ⟨h.set hc config sndtimeo rcvtimeo, rfl⟩
  | close fd => exact h.close fd
  | disconnect fd =>
    simp only [DescriptorCall.run, mcDisconnect]
    split
    · exact ⟨h, by rw [DescriptorCall.account, if_neg (by omega)]⟩
    · exact h.close fd

end Step

end ProcessSockets

theorem descriptorCalls_inv {descriptors : Finset ℤ} (h0 : 0 ∈ descriptors) {s : ProcessSockets}
    {log : List (DescriptorCall × Option ℤ)}
    (hs : (descriptorCalls descriptors).Reachable (s, log)) :
    s.Inv ∧ s.descriptors = log.foldl (fun d x => x.1.account d x.2) descriptors := by
  refine hs.invariant (P := fun x => x.1.Inv ∧
    x.1.descriptors = x.2.foldl (fun d x => x.1.account d x.2) descriptors) ?_ ?_
  · rintro - rfl
    refine ⟨⟨fun i j hi => ?_, fun fd hentry => ?_, h0⟩, rfl⟩
    · cases hi
    · obtain ⟨i, hi, -⟩ := hentry
      cases hi
  · rintro ⟨s, log⟩ - ⟨hinv, hd⟩ ⟨c, hc, rfl⟩
    obtain ⟨hinv', hd'⟩ := hinv.run hc
    refine ⟨hinv', ?_⟩
    rw [List.foldl_append, ← hd]
    exact hd'

/-- In every sequence of calls, whatever `socket`, `connect` and `setsockopt` return, in which
`mc_set_comm_config` is called for open descriptors only, and with descriptor 0 open at the start,
so that `socket` does not return it: the open descriptors are those that were open at the start or
returned since, without those closed since. No configuration is kept for a descriptor that is not
open. A connection that is opened reads the configuration that was asked for with it, never one of
an earlier connection. It may read the default instead when 32 other connections take all slots, but
not where the call checks that. -/
theorem descriptors_accounted (descriptors : Finset ℤ) (h0 : 0 ∈ descriptors) {s : ProcessSockets}
    {log : List (DescriptorCall × Option ℤ)}
    (hs : (descriptorCalls descriptors).Reachable (s, log)) :
    s.descriptors = log.foldl (fun d x => x.1.account d x.2) descriptors ∧
    (∀ fd, s.configs.HasEntry fd → fd ∈ s.descriptors) ∧
    ∀ c : DescriptorCall, c.Possible s → ∀ fd, (c.run s).1 = some fd → 0 < fd →
      fd ∉ s.descriptors ∧
      ((c.run s).2.configs.mcGetCommConfig fd true = (.success, some c.config) ∨
        c.Lenient ∧ s.configs.FullWithout fd ∧
          (c.run s).2.configs.mcGetCommConfig fd true = (.success, some defaultCommConfig)) := by
  obtain ⟨hinv, hd⟩ := descriptorCalls_inv h0 hs
  refine ⟨hd, hinv.owned, fun c hc fd hfd hpos => ?_⟩
  have hreturns : ∃ sockFd, c.socketReturns = some sockFd := by
    cases c with
    | connect _ _ _ _ _ _ | openSocket _ _ _ | openWithConfig2 _ _ _ _
    | openWithConfig _ _ _ _ _ _ => exact ⟨_, rfl⟩
    | set _ _ _ _ | close _ | disconnect _ => cases hfd
  obtain ⟨sockFd, hsocket⟩ := hreturns
  obtain ⟨r, hr, ho⟩ := hinv.opened hc hsocket
  rw [hr] at hfd ⊢
  obtain rfl := Option.some.inj hfd
  exact ho.reads hinv hpos

/-- A connect to the local host, as descriptor `sockFd` if it is accepted. -/
def connectHere (sockFd : ℤ) (accepted : Bool) : DescriptorCall :=
  .connect .binary ⟨sockFd, if accepted then 0 else -1, 0, 0⟩ true Session.localhost 5007 ⟨0, 0⟩

/-- The first connect is refused and the second one gets the same descriptor. -/
theorem descriptors_accounted_refused : ∃ s : ProcessSockets,
    (descriptorCalls {0, 1, 2}).Reachable
      (s, [(connectHere 3 false, some (-1)), (connectHere 3 true, some 3)]) ∧
    s.descriptors = {3, 0, 1, 2} := by
  have hrefused := TransitionSystem.Reachable.initial (M := descriptorCalls {0, 1, 2}) rfl
  have haccepted := hrefused.next ⟨connectHere 3 false, fun fd hfd => by
    obtain rfl := Option.some.inj hfd
    decide, rfl⟩
  have hboth := haccepted.next ⟨connectHere 3 true, fun fd hfd => by
    obtain rfl := Option.some.inj hfd
    decide, rfl⟩
  refine ⟨_, hboth, ?_⟩
  rw [(descriptors_accounted {0, 1, 2} (by decide) hboth).1]
  decide

end MelsecMc
