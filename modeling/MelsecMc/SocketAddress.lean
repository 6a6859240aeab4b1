import MelsecMc.Addressing
import MelsecMc.ConnectionConfig

/-!
# The address that a connect dials (socket.c)

Opening a client socket with the address that goes to `connect` and the configuration
that is kept for the descriptor. The port is an `int` in both connects, a `short` in
the two functions that open the socket, and a `uint16_t` in the address. The sign of
the `short` is checked, so ports from 32768 on are refused, and from 65536 on a port
whose low half is positive as a `short` leads to another one.
-/
namespace MelsecMc.SocketAddress

/-- The fields of `struct sockaddr_in` that are set. `sin_port` is given by its two bytes in
memory. -/
structure SockaddrIn where
  sinFamily : ℤ
  sinPort : Byte × Byte
  sinAddr : BitVec 32
  deriving DecidableEq, Repr

/-- The TCP port of an address, in network byte order. -/
def SockaddrIn.tcpPort (a : SockaddrIn) : ℕ := 256 * a.sinPort.1.toNat + a.sinPort.2.toNat

/-- What the operating system answers: the descriptor or a negative number, the results of
`connect`, and of `setsockopt` while the configuration is stored. -/
structure SocketReturns where
  sockFd : ℤ
  connect : ℤ
  sndtimeo : ℤ
  rcvtimeo : ℤ

/-- The part of the answer that decides about the descriptor. -/
def SocketReturns.answer (os : SocketReturns) : SocketAnswer := ⟨os.sockFd, os.connect = 0⟩

/-- The result, the address that `connect` was called with, and the configurations. -/
structure Opened where
  result : ℤ
  dialled : Option SockaddrIn
  configs : ConnectionConfigs

/-- `AF_INET`. -/
def afInet : ℤ := 2

/-- `htons`, as the bytes of its result in memory. -/
def htons (hostshort : ℕ) : Byte × Byte := (toByte (hostshort / 256), toByte (hostshort % 256))

section Open

variable (inetAddr : CString → BitVec 32)

/-- `mc_open_tcp_client_socket_with_config2`. -/
def mcOpenTcpClientSocketWithConfig2 (os : SocketReturns) (configs : ConnectionConfigs)
    (destIp : Option CString) (destPort : ℤ) (config : CommConfig) : Opened :=
  match destIp with
  | none => ⟨-1, none, configs⟩
  | some ip =>
    if destPort ≤ 0 then ⟨-1, none, configs⟩
    else if os.sockFd < 0 then ⟨-1, none, configs⟩
    else
      let serverAddr : SockaddrIn := ⟨afInet, htons (toUShort destPort), inetAddr ip⟩
      if os.connect ≠ 0 then ⟨-1, some serverAddr, configs.mcCloseTcpSocket os.sockFd⟩
      else ⟨os.sockFd, some serverAddr,
        (configs.mcSetCommConfig os.sockFd config os.sndtimeo os.rcvtimeo).2⟩

/-- `mc_open_tcp_client_socket`. Its port is a `short`, so the arguments of the connects are
converted here. -/
def mcOpenTcpClientSocket (os : SocketReturns) (configs : ConnectionConfigs)
    (destIp : Option CString) (destPort : ℤ) : Opened :=
  mcOpenTcpClientSocketWithConfig2 inetAddr os configs destIp (toInt16 destPort) defaultCommConfig

/-- The body of both connects, up to what they make of the descriptor. `mutexInit` tells whether
`mc_thread_safe_init` succeeds. -/
def connectWith (m : Module) (result : ℤ → ℤ) (os : SocketReturns) (mutexInit : Bool)
    (s : Session) (configs : ConnectionConfigs) (ip_addr : Option CString) (port : ℤ)
    (numbers : PlcNetworkAddress) : Session × Opened :=
  if ip_addr.isNone ∨ port ≤ 0 then (s, ⟨-1, none, configs⟩)
  else if ¬ s.initialised m ∧ ¬ mutexInit then (s, ⟨-1, none, configs⟩)
  else
    let opened := mcOpenTcpClientSocket inetAddr os configs ip_addr port
    (⟨Function.update s.initialised m true, Function.update s.address m numbers⟩,
      { opened with result := result opened.result })

/-- `mc_connect`. -/
def mcConnect := connectWith inetAddr .binary fun fd => if fd ≤ 0 then -1 else fd

/-- `mc_ascii_connect`. -/
def mcAsciiConnect := connectWith inetAddr .ascii id

/-- `mc_connect` or `mc_ascii_connect`. -/
def connect : Module → SocketReturns → Bool → Session → ConnectionConfigs → Option CString → ℤ →
    PlcNetworkAddress → Session × Opened
  | .binary => mcConnect inetAddr
  | .ascii => mcAsciiConnect inetAddr

/-- Both connects have one body and pass a -1 on. -/
theorem connect_eq (m : Module) :
    ∃ result : ℤ → ℤ, result (-1) = -1 ∧ connect inetAddr m = connectWith inetAddr m result := by
  cases m with
  | binary => exact ⟨fun fd => if fd ≤ 0 then -1 else fd, rfl, rfl⟩
  | ascii => exact ⟨id, rfl, rfl⟩

variable {inetAddr} {os : SocketReturns} {configs : ConnectionConfigs} {ip_addr : Option CString}
  {port : ℤ}

theorem mcOpenTcpClientSocket_result :
    (mcOpenTcpClientSocket inetAddr os configs ip_addr port).result =
      MelsecMc.mcOpenTcpClientSocket ip_addr port os.answer := by
  unfold mcOpenTcpClientSocket mcOpenTcpClientSocketWithConfig2 MelsecMc.mcOpenTcpClientSocket
  cases ip_addr with
  | none => simp
  | some ip =>
    by_cases hport : toInt16 port ≤ 0
    · simp [hport]
    · by_cases hfd : os.sockFd < 0
      · simp [hport, SocketReturns.answer, hfd]
      · by_cases hret : os.connect = 0
        · simp [hport, SocketReturns.answer, hfd, hret]
        · simp [hport, SocketReturns.answer, hfd, hret]

/-- `connect` is called with a positive `short` and a descriptor. -/
theorem mcOpenTcpClientSocket_dialled (ip : CString) :
    (mcOpenTcpClientSocket inetAddr os configs (some ip) port).dialled =
      if 0 < toInt16 port ∧ 0 ≤ os.sockFd then
        some ⟨afInet, htons (toUShort (toInt16 port)), inetAddr ip⟩
      else none := by
  unfold mcOpenTcpClientSocket mcOpenTcpClientSocketWithConfig2
  by_cases hport : toInt16 port ≤ 0
  · simp [hport]
  · by_cases hfd : os.sockFd < 0
    · simp [hport, hfd]
    · rw [if_pos ⟨by omega, by omega⟩]
      simp only [if_neg hport, if_neg hfd]
      split <;> rfl

/-- The connects return what they return in a session, and leave the same globals. -/
theorem connect_session (m : Module) (mutexInit : Bool) (s : Session)
    (numbers : PlcNetworkAddress) :
    let c := connect inetAddr m os mutexInit s configs ip_addr port numbers
    (c.1, c.2.result) = s.connect ⟨ip_addr, port, numbers, mutexInit, os.answer⟩ m := by
  cases m <;>
  · simp only [connect, mcConnect, mcAsciiConnect, connectWith, Session.connect,
      Session.mcConnect, Session.mcAsciiConnect, Session.connectWith]
    split
    · rfl
    · split
      · rfl
      · rw [mcOpenTcpClientSocket_result]

end Open

theorem toInt16_pos_iff {x : ℤ} : 0 < toInt16 x ↔ 1 ≤ x % 65536 ∧ x % 65536 ≤ 32767 := by
  simp only [toInt16, Int.bmod]
  omega

/-- Widening the `short` gives the low half of the `int`. -/
theorem toUShort_toInt16 (x : ℤ) : (toUShort (toInt16 x) : ℤ) = x % 65536 := by
  simp only [toUShort, toInt16, Int.bmod]
  omega

theorem tcpPort_htons {n : ℕ} (h : n < 65536) (family : ℤ) (address : BitVec 32) :
    (SockaddrIn.mk family (htons n) address).tcpPort = n := by
  simp only [SockaddrIn.tcpPort, htons, toByte, BitVec.toNat_ofInt]
  omega

/-- A connect to an IP string, with the state and everything that it meets. -/
structure Attempt where
  inetAddr : CString → BitVec 32
  module : Module
  os : SocketReturns
  mutexInit : Bool
  session : Session
  configs : ConnectionConfigs
  ipAddr : CString
  numbers : PlcNetworkAddress

namespace Attempt

def opened (a : Attempt) (port : ℤ) : Opened :=
  (connect a.inetAddr a.module a.os a.mutexInit a.session a.configs (some a.ipAddr) port
    a.numbers).2

/-- The mutex is initialised or gets so, and `socket` returns a descriptor. -/
def Supported (a : Attempt) : Prop :=
  (a.session.initialised a.module ∨ a.mutexInit) ∧ 0 ≤ a.os.sockFd

instance (a : Attempt) : Decidable a.Supported := inferInstanceAs (Decidable (_ ∧ _))

variable {a : Attempt} {port : ℤ}

theorem dialled_eq : (a.opened port).dialled =
    if 0 < port ∧ 0 < toInt16 port ∧ a.Supported then
      some ⟨afInet, htons (toUShort (toInt16 port)), a.inetAddr a.ipAddr⟩
    else none := by
  obtain ⟨result, -, hconnect⟩ := connect_eq a.inetAddr a.module
  rw [opened, hconnect, connectWith]
  by_cases hport : port ≤ 0
  · rw [if_pos (.inr hport), if_neg (by omega)]
  · rw [if_neg (by simpa using hport)]
    by_cases hinit : a.session.initialised a.module ∨ a.mutexInit
    · rw [if_neg (by tauto)]
      simp only [mcOpenTcpClientSocket_dialled]
      congr 1
      simp only [Supported, hinit, true_and]
      exact propext ⟨fun h => ⟨by omega, h⟩, fun h => h.2⟩
    · rw [if_pos (by tauto), if_neg fun h => hinit h.2.2.1]

/-- A port that is no positive `short` is refused. -/
theorem result_of_not_pos (h : ¬ (0 < port ∧ 0 < toInt16 port)) : (a.opened port).result = -1 := by
  obtain ⟨result, hresult, hconnect⟩ := connect_eq a.inetAddr a.module
  rw [opened, hconnect, connectWith]
  split
  · rfl
  · rename_i hport
    have hshort : toInt16 port ≤ 0 := by
      by_contra hpos
      exact h ⟨by_contra fun h0 => hport (.inr (by omega)), by omega⟩
    split
    · rfl
    · simp only [mcOpenTcpClientSocket_result, MelsecMc.mcOpenTcpClientSocket,
        if_pos (Or.inr hshort), hresult]

end Attempt

/-- Only ports from 1 to 65535 are dialled, all of them, and as they are; the others are refused. -/
def PortFidelity (port : ℤ) : Prop :=
  ∀ a : Attempt,
    (∀ address, (a.opened port).dialled = some address →
      1 ≤ port ∧ port ≤ 65535 ∧ (address.tcpPort : ℤ) = port) ∧
    (1 ≤ port → port ≤ 65535 → a.Supported → (a.opened port).dialled.isSome) ∧
    (port < 1 ∨ 65535 < port → (a.opened port).result < 0)

/-- A first connect that succeeds as descriptor 3. -/
def plainAttempt : Attempt :=
  ⟨fun _ => 0x0100007F, .binary, ⟨3, 0, 0, 0⟩, true, .initial, .initial, Session.localhost, ⟨0, 0⟩⟩

/-- A port is treated as it should be if it is below 32768, or above 65535 with a low half that is
zero or negative as a `short`. -/
theorem portFidelity_iff (port : ℤ) :
    PortFidelity port ↔
      port ≤ 32767 ∨ 65535 < port ∧ (port % 65536 = 0 ∨ 32768 ≤ port % 65536) := by
  constructor
  · intro h
    obtain ⟨hexact, hreach, -⟩ := h plainAttempt
    have hsupported : plainAttempt.Supported := by decide
    by_contra hport
    by_cases hle : port ≤ 65535
    · have hdialled := hreach (by omega) hle hsupported
      rw [Attempt.dialled_eq, if_neg] at hdialled
      · cases hdialled
      · rintro ⟨-, hshort, -⟩
        have hrange := toInt16_pos_iff.mp hshort
        omega
    · have hdialled : (plainAttempt.opened port).dialled = _ := Attempt.dialled_eq
      rw [if_pos ⟨by omega, toInt16_pos_iff.mpr (by omega), hsupported⟩] at hdialled
      exact hle (hexact _ hdialled).2.1
  · intro hport a
    refine ⟨fun address ha => ?_, fun h1 h2 hs => ?_, fun hout => ?_⟩
    · rw [Attempt.dialled_eq] at ha
      split at ha
      · rename_i hsome
        obtain rfl := Option.some.inj ha
        have hrange := toInt16_pos_iff.mp hsome.2.1
        have hwiden := toUShort_toInt16 port
        rw [tcpPort_htons (by omega)]
        omega
      · cases ha
    · rw [Attempt.dialled_eq, if_pos ⟨by omega, toInt16_pos_iff.mpr (by omega), hs⟩]
      rfl
    · rw [Attempt.result_of_not_pos]
      · decide
      · rintro ⟨hpos, hshort⟩
        have hrange := toInt16_pos_iff.mp hshort
        omega

/-- Port 40000 is refused, and 65537 becomes port 1. -/
theorem portFidelity_fails :
    (plainAttempt.opened 40000).dialled = none ∧ (plainAttempt.opened 40000).result = -1 ∧
      (plainAttempt.opened 65537).dialled.map SockaddrIn.tcpPort = some 1 ∧
      (plainAttempt.opened 65537).result = 3 ∧
      ¬ PortFidelity 40000 ∧ ¬ PortFidelity 65537 := by
  have hrefused : (plainAttempt.opened 40000).dialled = none := by rfl
  have haliased : (plainAttempt.opened 65537).dialled.isSome := by rfl
  refine ⟨hrefused, by rfl, by rfl, by rfl, fun h => ?_, fun h => ?_⟩
  · have hreach := (h plainAttempt).2.1 (by decide) (by decide) (by decide)
    rw [hrefused] at hreach
    cases hreach
  · obtain ⟨address, ha⟩ := Option.isSome_iff_exists.mp haliased
    exact absurd ((h plainAttempt).1 address ha).2.1 (by decide)

end MelsecMc.SocketAddress
