import MelsecMc.Client
import MelsecMc.ConnectionConfig
import MelsecMc.ReadBack

/-!
# The stress test

The program that comes with the library starts threads that write a value and a point,
read them back and count what went wrong: on one connection for all threads, and on one
for each. Every thread has its own cells. With a PLC that carries out every write and
keeps what is written, no thread ever counts an error or a mismatch, in either module and
whatever the order of the steps, on at most 64 connections on which no `send` or `recv`
fails or times out.
-/
namespace MelsecMc

open scoped List

section Addresses

variable {c : Byte} {digits : List Byte} {n x : ℕ}

/-- `snprintf` of a number of at most ten digits with the conversion `%d`. -/
def snprintfD (n : ℕ) : List Byte :=
  if n = 0 then [chr '0'] else Numeral.shortest decimalAlphabet 10 n

theorem digitValue_decimal (h : decimalAlphabet.value c = some x) : digitValue c = x ∧ x < 10 := by
  have hx := decimalAlphabet.value_lt c x h
  refine ⟨?_, hx⟩
  change (if (chr '0').toNat ≤ c.toNat ∧ c.toNat ≤ (chr '9').toNat then
    some (c.toNat - (chr '0').toNat) else none) = some x at h
  split_ifs at h with hc
  rw [digitValue, if_pos hc]
  exact Option.some.inj h

theorem digitsValue_read (h : Numeral.read decimalAlphabet digits = some n) :
    digitsValue 10 digits = n ∧ ∀ c ∈ digits, digitValue c < 10 := by
  induction digits using List.reverseRecOn generalizing n with
  | nil => exact ⟨Option.some.inj h, by simp⟩
  | append_singleton digits d ih =>
    rw [Numeral.read_concat, Numeral.shiftIn] at h
    obtain ⟨v, hv, hd⟩ := Option.bind_eq_some_iff.mp h
    obtain ⟨x, hx, rfl⟩ := Option.map_eq_some_iff.mp hd
    obtain ⟨hvalue, hdigits⟩ := ih hv
    obtain ⟨rfl, hlt⟩ := digitValue_decimal hx
    refine ⟨?_, ?_⟩
    · rw [digitsValue, List.foldl_append, ← digitsValue, hvalue]
      rfl
    · intro c hc
      rcases List.mem_append.mp hc with hc | hc
      · exact hdigits c hc
      · obtain rfl := List.mem_singleton.mp hc
        exact hlt

theorem snprintfD_digits (hn : n < 10 ^ 10) :
    IsDigits 10 (snprintfD n) ∧ digitsValue 10 (snprintfD n) = n := by
  have hcanonical : Numeral.Canonical decimalAlphabet n (snprintfD n) := by
    unfold snprintfD
    split_ifs with h0
    · rw [h0]
      exact Numeral.canonical_zero decimalAlphabet
    · exact Numeral.canonical_shortest decimalAlphabet hn h0
  obtain ⟨hvalue, hdigits⟩ := digitsValue_read hcanonical.reads
  exact ⟨⟨hcanonical.ne_nil, hdigits⟩, hvalue⟩

theorem zero_notMem_snprintfD (hn : n < 10 ^ 10) : (0 : Byte) ∉ snprintfD n := by
  intro h
  have hlt := (snprintfD_digits hn).1.2 0 h
  exact absurd hlt (by decide)

end Addresses

/-- `stress_worker_arg_t` without its counters. The addresses are D and M with these numbers. -/
structure StressWorkerArg where
  fd : ℤ
  threadId : ℕ
  iterations : ℕ
  dNumber : ℕ
  mNumber : ℕ
  fd_pos : 0 < fd
  dNumber_le : dNumber ≤ 999999
  mNumber_le : mNumber ≤ 999999

namespace StressWorkerArg

variable (arg : StressWorkerArg) (m : Module)

def dAddr : CString where
  chars := chr 'D' :: snprintfD arg.dNumber
  nonzero := by
    have hle := arg.dNumber_le
    rw [List.mem_cons, not_or]
    exact ⟨by decide, zero_notMem_snprintfD (by omega)⟩

def mAddr : CString where
  chars := chr 'M' :: snprintfD arg.mNumber
  nonzero := by
    have hle := arg.mNumber_le
    rw [List.mem_cons, not_or]
    exact ⟨by decide, zero_notMem_snprintfD (by omega)⟩

theorem dAddr_names : Names arg.dAddr deviceD arg.dNumber := by
  have hle := arg.dNumber_le
  obtain ⟨hdigits, hvalue⟩ := snprintfD_digits (show arg.dNumber < 10 ^ 10 by omega)
  exact ⟨⟨'D', none, deviceD⟩, by decide, [chr 'D'], by decide, snprintfD arg.dNumber, rfl, hdigits,
    rfl, congrArg Nat.cast hvalue.symm⟩

theorem mAddr_names : Names arg.mAddr deviceM arg.mNumber := by
  have hle := arg.mNumber_le
  obtain ⟨hdigits, hvalue⟩ := snprintfD_digits (show arg.mNumber < 10 ^ 10 by omega)
  exact ⟨⟨'M', none, deviceM⟩, by decide, [chr 'M'], by decide, snprintfD arg.mNumber, rfl, hdigits,
    rfl, congrArg Nat.cast hvalue.symm⟩

/-- The call of `g_stress_write_int32`, for the functions of either module. -/
def writeInt32 (v : BitVec 32) : DeviceCall m where
  fd := arg.fd
  network := ⟨0, 0⟩
  retryCount := defaultCommConfig.retryCount
  address := arg.dAddr
  device := deviceD
  start := arg.dNumber
  access := .writeValue .int32 v
  fd_pos := arg.fd_pos
  retries := by decide
  names := arg.dAddr_names
  nonempty := trivial
  sendable := by
    refine ⟨by decide, arg.dNumber_le, ?_⟩
    have hlen := TypedAccess.wordsOf_encode_length .int32 v
    rw [hlen]
    cases m <;> decide
  fits := m.fits_writeWords _ _ _

/-- The call of `g_stress_read_int32`. -/
def readInt32 : DeviceCall m where
  fd := arg.fd
  network := ⟨0, 0⟩
  retryCount := defaultCommConfig.retryCount
  address := arg.dAddr
  device := deviceD
  start := arg.dNumber
  access := .readValue .int32
  fd_pos := arg.fd_pos
  retries := by decide
  names := arg.dAddr_names
  nonempty := trivial
  sendable := ⟨by decide, arg.dNumber_le, by decide⟩
  fits := Module.fits_readWords _ _ (by cases m <;> decide)

/-- The call of `g_stress_write_bool`. -/
def writeBool (p : Bool) : DeviceCall m where
  fd := arg.fd
  network := ⟨0, 0⟩
  retryCount := defaultCommConfig.retryCount
  address := arg.mAddr
  device := deviceM
  start := arg.mNumber
  access := .writeBool p
  fd_pos := arg.fd_pos
  retries := by decide
  names := arg.mAddr_names
  nonempty := trivial
  sendable := by
    refine ⟨by decide, arg.mNumber_le, ?_, ?_, fun _ i hi => ?_⟩
    · cases p <;> decide
    · cases p <;> cases m <;> decide
    · simp [pointAt] at hi
  fits := m.fits_writePoints _ _ _

/-- The call of `g_stress_read_bool`. -/
def readBool : DeviceCall m where
  fd := arg.fd
  network := ⟨0, 0⟩
  retryCount := defaultCommConfig.retryCount
  address := arg.mAddr
  device := deviceM
  start := arg.mNumber
  access := .readBool
  fd_pos := arg.fd_pos
  retries := by decide
  names := arg.mAddr_names
  nonempty := trivial
  sendable := ⟨by decide, arg.mNumber_le, by decide⟩
  fits := Module.fits_readPoints _ _ (by cases m <;> decide)

/-- The calls that a worker makes. -/
inductive Makes : DeviceCall m → Prop where
  | writeInt32 (v : BitVec 32) : Makes (arg.writeInt32 m v)
  | readInt32 : Makes (arg.readInt32 m)
  | writeBool (p : Bool) : Makes (arg.writeBool m p)
  | readBool : Makes (arg.readBool m)

end StressWorkerArg

/-- The counters of `stress_worker_arg_t`. -/
structure StressCounters where
  apiCalls : ℕ
  checks : ℕ
  mismatches : ℕ
  ioErrors : ℕ
  deriving DecidableEq, Repr

/-- A program of calls that read and write devices. -/
abbrev DeviceClient (m : Module) := Client fun c : DeviceCall m => c.Outcome

section Worker

variable {m : Module}

/-- A call in the loop of the worker. When it fails, the rest of the iteration is left out. -/
def counted (k : StressCounters) (c : DeviceCall m)
    (next : StressCounters → c.Outcome → DeviceClient m StressCounters) :
    DeviceClient m StressCounters :=
  .call c fun ret =>
    let k := { k with apiCalls := k.apiCalls + 1 }
    if ret.1 ≠ .success then .ret { k with ioErrors := k.ioErrors + 1 } else next k ret

def StressCounters.check (k : StressCounters) (same : Bool) : StressCounters :=
  { k with checks := k.checks + 1, mismatches := k.mismatches + if same then 0 else 1 }

variable (m) (arg : StressWorkerArg)

/-- `write_d`. -/
def stressValue (i : ℕ) : BitVec 32 := (BitVec.ofNat 32 arg.threadId <<< 20) ^^^ BitVec.ofNat 32 i

/-- An iteration of the loop. Before a read, `read_d` and `read_m` are zero. -/
def stressIteration (k : StressCounters) (i : ℕ) : DeviceClient m StressCounters :=
  let write_d := stressValue arg i
  let write_m := i % 2 != 0
  counted k (arg.writeInt32 m write_d) fun k _ =>
  counted k (arg.readInt32 m) fun k (ret : ErrorCode × Option (BitVec 32)) =>
  let k := k.check (ret.2.getD 0 == write_d)
  counted k (arg.writeBool m write_m) fun k _ =>
  counted k (arg.readBool m) fun k (ret : ErrorCode × Option Bool) =>
  .ret (k.check (ret.2.getD false == write_m))

/-- `stress_worker_thread`. -/
def stressWorkerThread : DeviceClient m StressCounters :=
  (List.range arg.iterations).foldlM (stressIteration m arg) ⟨0, 0, 0, 0⟩

variable {m arg}

theorem makes_counted {k k' : StressCounters} {c : DeviceCall m}
    {next : StressCounters → c.Outcome → DeviceClient m StressCounters}
    {run : List (Σ c : DeviceCall m, c.Outcome)} (h : (counted k c next).Makes run k') :
    ∃ ret rest, run = ⟨c, ret⟩ :: rest ∧ (ret.1 = .success →
      (next { k with apiCalls := k.apiCalls + 1 } ret).Makes rest k') := by
  obtain ⟨ret, rest, rfl, hnext⟩ := Client.makes_call.mp h
  refine ⟨ret, rest, rfl, fun hret => ?_⟩
  dsimp only at hnext
  rwa [if_neg (not_not.mpr hret)] at hnext

theorem counted_calls {S : DeviceCall m → Prop} {k : StressCounters} {c : DeviceCall m}
    {next : StressCounters → c.Outcome → DeviceClient m StressCounters} (hc : S c)
    (hnext : ∀ k ret, (next k ret).Calls S) : (counted k c next).Calls S := by
  refine ⟨hc, fun ret => ?_⟩
  dsimp only
  split_ifs
  · trivial
  · exact hnext _ ret

/-- A worker makes its own calls only, whatever they return. -/
theorem stressWorkerThread_calls : (stressWorkerThread m arg).Calls (arg.Makes m) := by
  have hiteration : ∀ k i, (stressIteration m arg k i).Calls (arg.Makes m) := by
    intro k i
    unfold stressIteration
    refine counted_calls (.writeInt32 _) fun k _ => ?_
    refine counted_calls .readInt32 fun k _ => ?_
    refine counted_calls (.writeBool _) fun k _ => ?_
    exact counted_calls .readBool fun k _ => trivial
  have hloop : ∀ l k, (List.foldlM (stressIteration m arg) k l).Calls (arg.Makes m) := by
    intro l
    induction l with
    | nil => exact fun k => trivial
    | cons i l ih =>
      intro k
      rw [List.foldlM_cons]
      exact (hiteration k i).bind ih
  exact hloop _ _

/-- Writes succeed, and the reader that is called next gets what was written. -/
structure Remembered (run : List (Σ c : DeviceCall m, c.Outcome)) : Prop where
  written : ∀ x ∈ run, x.1.access.readBack ≠ none → x.2.1 = .success
  read : ∀ x y v, [x, y] <:+: run → x.1.access.readBack = some ⟨y.1.access, v⟩ →
    y.1.device = x.1.device → y.1.start = x.1.start → y.2 = (.success, some v)

theorem Remembered.part {run run' : List (Σ c : DeviceCall m, c.Outcome)} (h : Remembered run)
    (hrun : run' <:+: run) : Remembered run' where
  written x hx := h.written x (hrun.subset hx)
  read x y v hxy := h.read x y v (hxy.trans hrun)

/-- An iteration in which the calls do what they should counts four calls and two checks. -/
theorem stressIteration_counts {k k' : StressCounters} {i : ℕ}
    {run : List (Σ c : DeviceCall m, c.Outcome)} (h : (stressIteration m arg k i).Makes run k')
    (hrun : Remembered run) :
    k' = ⟨k.apiCalls + 4, k.checks + 2, k.mismatches, k.ioErrors⟩ := by
  unfold stressIteration at h
  obtain ⟨r₁, rest, rfl, h₁⟩ := makes_counted h
  have hw₁ := hrun.written ⟨_, r₁⟩ (by simp) (Option.some_ne_none _)
  obtain ⟨r₂, rest, rfl, h₂⟩ := makes_counted (h₁ hw₁)
  have hr₂ : r₂ = (.success, some (stressValue arg i)) :=
    hrun.read ⟨_, r₁⟩ ⟨_, r₂⟩ _ ⟨[], rest, rfl⟩ rfl rfl rfl
  subst hr₂
  obtain ⟨r₃, rest, rfl, h₃⟩ := makes_counted (h₂ rfl)
  have hw₃ := hrun.written ⟨_, r₃⟩ (by simp) (Option.some_ne_none _)
  obtain ⟨r₄, rest, rfl, h₄⟩ := makes_counted (h₃ hw₃)
  have hr₄ : r₄ = (.success, some (i % 2 != 0)) :=
    hrun.read ⟨_, r₃⟩ ⟨_, r₄⟩ _ ⟨[_, _], rest, rfl⟩ rfl rfl rfl
  subst hr₄
  obtain ⟨-, rfl⟩ := Client.makes_ret.mp (h₄ rfl)
  simp [StressCounters.check]

theorem stressWorkerThread_counts {k : StressCounters}
    {run : List (Σ c : DeviceCall m, c.Outcome)} (h : (stressWorkerThread m arg).Makes run k)
    (hrun : Remembered run) : k = ⟨4 * arg.iterations, 2 * arg.iterations, 0, 0⟩ := by
  have hloop : ∀ l k k' run, (List.foldlM (stressIteration m arg) k l).Makes run k' →
      Remembered run →
        k' = ⟨k.apiCalls + 4 * l.length, k.checks + 2 * l.length, k.mismatches, k.ioErrors⟩ := by
    intro l
    induction l with
    | nil =>
      intro k k' run h hrun
      obtain ⟨-, rfl⟩ := Client.makes_ret.mp h
      rfl
    | cons i l ih =>
      intro k k' run h hrun
      rw [List.foldlM_cons] at h
      obtain ⟨run₁, run₂, k₁, rfl, h₁, h₂⟩ := Client.makes_bind.mp h
      obtain rfl := stressIteration_counts h₁ (hrun.part (List.infix_append' [] run₁ run₂))
      rw [ih _ _ _ h₂ (hrun.part (List.suffix_append run₁ run₂).isInfix), List.length_cons]
      simp only [StressCounters.mk.injEq, and_true]
      omega
  have hall := hloop _ _ _ run h hrun
  rwa [List.length_range, Nat.zero_add, Nat.zero_add] at hall

/-- The calls of a worker whose calls do what they should. -/
def stressCalls (m : Module) (arg : StressWorkerArg) : List (DeviceCall m) :=
  (List.range arg.iterations).flatMap fun i =>
    [arg.writeInt32 m (stressValue arg i), arg.readInt32 m, arg.writeBool m (i % 2 != 0),
      arg.readBool m]

theorem counted_makes {k k' : StressCounters} {c : DeviceCall m}
    {next : StressCounters → c.Outcome → DeviceClient m StressCounters} {ret : c.Outcome}
    {rest : List (Σ c : DeviceCall m, c.Outcome)} (hret : ret.1 = .success)
    (h : (next { k with apiCalls := k.apiCalls + 1 } ret).Makes rest k') :
    (counted k c next).Makes (⟨c, ret⟩ :: rest) k' := by
  refine .call ?_
  dsimp only
  rwa [if_neg (not_not.mpr hret)]

theorem stressIteration_makes {i : ℕ} {run : List (Σ c : DeviceCall m, c.Outcome)}
    (hcalls : run.map Sigma.fst = [arg.writeInt32 m (stressValue arg i), arg.readInt32 m,
      arg.writeBool m (i % 2 != 0), arg.readBool m])
    (hrun : Remembered run) (k : StressCounters) :
    (stressIteration m arg k i).Makes run
      ⟨k.apiCalls + 4, k.checks + 2, k.mismatches, k.ioErrors⟩ := by
  simp only [List.map_eq_cons_iff, List.map_eq_nil_iff] at hcalls
  obtain ⟨⟨_, r₁⟩, _, rfl, rfl, ⟨_, r₂⟩, _, rfl, rfl, ⟨_, r₃⟩, _, rfl, rfl, ⟨_, r₄⟩, _, rfl, rfl,
    rfl⟩ := hcalls
  have hw₁ := hrun.written ⟨_, r₁⟩ (by simp) (Option.some_ne_none _)
  have hw₃ := hrun.written ⟨_, r₃⟩ (by simp) (Option.some_ne_none _)
  have hr₂ : r₂ = (.success, some (stressValue arg i)) :=
    hrun.read ⟨_, r₁⟩ ⟨_, r₂⟩ _ ⟨[], [_, _], rfl⟩ rfl rfl rfl
  have hr₄ : r₄ = (.success, some (i % 2 != 0)) :=
    hrun.read ⟨_, r₃⟩ ⟨_, r₄⟩ _ ⟨[_, _], [], rfl⟩ rfl rfl rfl
  subst hr₂ hr₄
  unfold stressIteration
  refine counted_makes hw₁ (counted_makes rfl (counted_makes hw₃ (counted_makes rfl ?_)))
  exact Client.makes_ret.mpr ⟨rfl, by simp [StressCounters.check]⟩

theorem stressWorkerThread_makes {run : List (Σ c : DeviceCall m, c.Outcome)}
    (hcalls : run.map Sigma.fst = stressCalls m arg) (hrun : Remembered run) :
    ∃ k, (stressWorkerThread m arg).Makes run k := by
  have hloop : ∀ l k run, run.map Sigma.fst = l.flatMap (fun i =>
      [arg.writeInt32 m (stressValue arg i), arg.readInt32 m, arg.writeBool m (i % 2 != 0),
        arg.readBool m]) → Remembered run →
      ∃ k', (List.foldlM (stressIteration m arg) k l).Makes run k' := by
    intro l
    induction l with
    | nil =>
      intro k run hcalls _
      obtain rfl := List.map_eq_nil_iff.mp hcalls
      exact ⟨k, .ret k⟩
    | cons i l ih =>
      intro k run hcalls hrun
      rw [List.flatMap_cons] at hcalls
      obtain ⟨run₁, run₂, rfl, h₁, h₂⟩ := List.map_eq_append_iff.mp hcalls
      have h := stressIteration_makes h₁ (hrun.part (List.infix_append' [] run₁ run₂)) k
      obtain ⟨k', hk'⟩ := ih _ run₂ h₂ (hrun.part (List.suffix_append run₁ run₂).isInfix)
      rw [List.foldlM_cons]
      exact ⟨k', Client.makes_bind.mpr ⟨run₁, run₂, _, rfl, h, hk'⟩⟩
  exact hloop _ _ _ hcalls hrun

end Worker

/-- The PLC carries out every write to D and M. -/
structure DeviceObject.Writes {σ : Type*} (O : DeviceObject σ) : Prop where
  words : ∀ a words s, (O.apply (.writeWords deviceD a words) s).1 = .ok ()
  points : ∀ a points s, (O.apply (.writePoints deviceM a points) s).1 = .ok ()

namespace StressWorkerArg

variable {m : Module} {arg arg' : StressWorkerArg} {c w : DeviceCall m}

theorem Makes.fd (h : arg.Makes m c) : c.fd = arg.fd := by
  cases h <;> rfl

/-- A call of a worker reads, or writes the two words or the point of the worker. -/
theorem Makes.command (h : arg.Makes m c) :
    c.access.readBack = none ∧ (∀ w, c.command.Spares w) ∨
      (∃ words, words.length = 2 ∧ c.command = .writeWords deviceD arg.dNumber words) ∨
        ∃ p, c.command = .writePoints deviceM arg.mNumber [p] := by
  cases h with
  | readInt32 | readBool => exact .inl ⟨rfl, fun w => trivial⟩
  | writeInt32 v =>
    exact .inr (.inl ⟨_, TypedAccess.wordsOf_encode_length .int32 v, rfl⟩)
  | writeBool p => exact .inr (.inr ⟨p, rfl⟩)

/-- Workers with their own cells do not disturb each other. -/
theorem Makes.spares (hc : arg'.Makes m c) (hw : arg.Makes m w) (hback : w.access.readBack ≠ none)
    (hd : Apart arg'.dNumber 2 arg.dNumber 2) (hm : Apart arg'.mNumber 1 arg.mNumber 1) :
    c.command.Spares w.command := by
  have hne : deviceD ≠ deviceM := by decide
  rcases hc.command with ⟨-, hspares⟩ | ⟨words, hlen, hc⟩ | ⟨p, hc⟩
  · exact hspares _
  · rcases hw.command with ⟨hnone, -⟩ | ⟨words', hlen', hw⟩ | ⟨p', hw⟩
    · exact absurd hnone hback
    · rw [hc, hw, Command.Spares, hlen, hlen']
      exact fun _ => hd
    · rw [hc, hw]
      exact hne
  · rcases hw.command with ⟨hnone, -⟩ | ⟨words', -, hw⟩ | ⟨p', hw⟩
    · exact absurd hnone hback
    · rw [hc, hw]
      exact hne.symm
    · rw [hc, hw]
      exact fun _ => hm

/-- A write of a worker is carried out. -/
theorem Makes.written {σ : Type*} {O : DeviceObject σ} (h : arg.Makes m c) (hO : O.Writes)
    (hback : c.access.readBack ≠ none) (plc : σ) :
    (c.outcome (O.apply c.command plc).1).1 = .success := by
  have hok : ∃ data, (O.apply c.command plc).1 = .ok data := by
    rcases h.command with ⟨hnone, -⟩ | ⟨words, -, hc⟩ | ⟨p, hc⟩
    · exact absurd hnone hback
    · rw [hc]
      exact ⟨(), hO.words _ _ _⟩
    · rw [hc]
      exact ⟨(), hO.points _ _ _⟩
  obtain ⟨data, hdata⟩ := hok
  rw [hdata]
  rfl

end StressWorkerArg

section Runs

variable {m : Module} {n : ℕ} {τ σ : Type*} {D : Device m.protocol τ} {O : DeviceObject σ}
  {abs : τ → σ} {plc : τ} {fds : Finset ℤ} {args : Fin n → StressWorkerArg}
  {made : Fin n → List (Σ c : DeviceCall m, c.Outcome)} {s : ServedState (Fin n) τ}

/-- What a run of the threads has made of their calls is as it should be. -/
theorem stress_remembered (hD : D.Implements O abs) (hO : O.Keeps) (hwrites : O.Writes)
    (hcard : fds.card ≤ maxTxConnections) (hfds : ∀ t, (args t).fd ∈ fds)
    (hapart : ∀ t u, u ≠ t → Apart (args u).dNumber 2 (args t).dNumber 2 ∧
      Apart (args u).mNumber 1 (args t).mNumber 1)
    (hs : (servedThreads D plc fun t => ((made t).map Sigma.fst).map DeviceCall.job).Reachable s)
    (hmine : ∀ t, ∀ x ∈ made t, (args t).Makes m x.1)
    (hret : ∀ (t : Fin n) (k : ℕ) x, (made t)[k]? = some x → .returned (t, k) x.1 (some x.2) ∈
      calledHistory (fun t => (made t).map Sigma.fst) s.history) (t : Fin n) :
    Remembered (made t) := by
  have hcalls : ∀ t, ∀ c ∈ (made t).map Sigma.fst, c.fd ∈ fds := by
    intro t c hc
    obtain ⟨x, hx, rfl⟩ := List.mem_map.mp hc
    rw [(hmine t x hx).fd]
    exact hfds t
  have hwritten : ∀ x ∈ made t, x.1.access.readBack ≠ none → x.2.1 = .success := by
    intro x hx hback
    obtain ⟨k, hk, hxk⟩ := List.getElem_of_mem hx
    obtain ⟨plc', hout⟩ := called_outcome hD hcard hcalls hs
      (hret t k x (by rw [List.getElem?_eq_getElem hk, hxk]))
    rw [Option.some.inj hout]
    exact (hmine t x hx).written hwrites hback plc'
  refine ⟨hwritten, fun x y v hxy hback hdevice hstart => ?_⟩
  obtain ⟨front, rest, hmade⟩ := hxy
  have hx : (made t)[front.length]? = some x := by simp [← hmade]
  have hy : (made t)[front.length + 1]? = some y := by
    rw [← hmade, List.append_assoc, List.getElem?_append_right (by omega)]
    simp
  have hxm := List.mem_of_getElem? hx
  have hxback : x.1.access.readBack ≠ none := by rw [hback]; simp
  have hread := called_read_next hD hO hcard hcalls hs hback hdevice hstart (hwritten x hxm hxback)
    (hret t _ x hx) (hret t _ y hy) fun u k c hu hc => ?_
  · exact Option.some.inj hread
  · obtain ⟨hcall, -⟩ := SeqObject.mem_seenAs_invoked.mp hc
    obtain ⟨z, hz, rfl⟩ := List.mem_map.mp (List.mem_of_getElem? hcall)
    obtain ⟨hd, hm⟩ := hapart t u hu
    exact (hmine u z hz).spares (hmine t x hxm) hxback hd hm

theorem stressCalls_mine (m : Module) (arg : StressWorkerArg) :
    ∀ c ∈ stressCalls m arg, arg.Makes m c := by
  intro c hc
  obtain ⟨i, -, hc⟩ := List.mem_flatMap.mp hc
  simp only [List.mem_cons, List.not_mem_nil, or_false] at hc
  rcases hc with rfl | rfl | rfl | rfl
  · exact .writeInt32 _
  · exact .readInt32
  · exact .writeBool _
  · exact .readBool

end Runs

/-- The arguments of the threads: `run_same_fd_stress` numbers the cells from 1000 on, and has one
connection for all threads, `run_multi_fd_stress` from 3000 on, and has one for each. -/
def stressArgs {n : ℕ} (base iterations : ℕ) (fds : Fin n → ℤ) (hfds : ∀ i, 0 < fds i)
    (hn : base + n * 2 ≤ 1000000) (i : Fin n) : StressWorkerArg where
  fd := fds i
  threadId := i
  iterations := iterations
  dNumber := base + i * 2
  mNumber := base + i
  fd_pos := hfds i
  dNumber_le := by omega
  mNumber_le := by omega

/-- `summarize`. -/
def summarize {n : ℕ} (args : Fin n → StressCounters) : StressCounters where
  apiCalls := ∑ i, (args i).apiCalls
  checks := ∑ i, (args i).checks
  mismatches := ∑ i, (args i).mismatches
  ioErrors := ∑ i, (args i).ioErrors

/-- The threads made these calls with these outcomes, and ended with these counters. -/
structure StressRun {m : Module} {n : ℕ} {τ : Type*} (D : Device m.protocol τ) (plc : τ)
    (args : Fin n → StressWorkerArg) (s : ServedState (Fin n) τ)
    (made : Fin n → List (Σ c : DeviceCall m, c.Outcome)) (counters : Fin n → StressCounters) :
    Prop where
  reachable :
    (servedThreads D plc fun t => ((made t).map Sigma.fst).map DeviceCall.job).Reachable s
  returned : ∀ (t : Fin n) (k : ℕ) x, (made t)[k]? = some x → .returned (t, k) x.1 (some x.2) ∈
    calledHistory (fun t => (made t).map Sigma.fst) s.history
  makes : ∀ t, (stressWorkerThread m (args t)).Makes (made t) (counters t)

section Stress

variable {m : Module} {n base iterations : ℕ} {fds : Fin n → ℤ} {hfds : ∀ i, 0 < fds i}
  {hn : base + n * 2 ≤ 1000000}

theorem stressArgs_apart (t u : Fin n) (h : u ≠ t) :
    Apart (stressArgs base iterations fds hfds hn u).dNumber 2
        (stressArgs base iterations fds hfds hn t).dNumber 2 ∧
      Apart (stressArgs base iterations fds hfds hn u).mNumber 1
        (stressArgs base iterations fds hfds hn t).mNumber 1 := by
  have hne : u.val ≠ t.val := fun he => h (Fin.ext he)
  simp only [Apart, stressArgs]
  omega

/-- With the calls that the workers make while all goes well, a run ends. -/
theorem exists_stressRun {τ σ : Type*} {D : Device m.protocol τ} {O : DeviceObject σ} {abs : τ → σ}
    (hD : D.Implements O abs) (hO : O.Keeps) (hwrites : O.Writes) (plc : τ)
    (hcard : (Finset.univ.image fds).card ≤ maxTxConnections) :
    ∃ s made counters,
      StressRun D plc (stressArgs (n := n) base iterations fds hfds hn) s made counters := by
  let args := stressArgs base iterations fds hfds hn
  have hcalls : ∀ t, ∀ c ∈ stressCalls m (args t), c.fd ∈ Finset.univ.image fds := by
    intro t c hc
    rw [(stressCalls_mine m _ c hc).fd]
    exact Finset.mem_image_of_mem fds (Finset.mem_univ t)
  obtain ⟨s, hs, hfin⟩ := servedThreads_finishes D plc (jobs_valid hcalls) hcard
  have hanswers : ∀ t, ∃ run : List (Σ c : DeviceCall m, c.Outcome),
      run.map Sigma.fst = stressCalls m (args t) ∧ ∀ (k : ℕ) x, run[k]? = some x →
        .returned (t, k) x.1 (some x.2) ∈
          calledHistory (fun t => stressCalls m (args t)) s.history := by
    intro t
    refine exists_answers (P := fun k c out => .returned (t, k) c (some out) ∈
      calledHistory (fun t => stressCalls m (args t)) s.history) fun k c hk => ?_
    obtain ⟨r, hr⟩ := called_returned hcard hcalls hs hfin hk
    obtain ⟨plc', rfl⟩ := called_outcome hD hcard hcalls hs hr
    exact ⟨_, hr⟩
  choose made hmade hret using hanswers
  have hfun : (fun t => (made t).map Sigma.fst) = fun t => stressCalls m (args t) := funext hmade
  have hreach :
      (servedThreads D plc fun t => ((made t).map Sigma.fst).map DeviceCall.job).Reachable s := by
    simpa only [hmade] using hs
  rw [← hfun] at hret
  have hrun := stress_remembered hD hO hwrites hcard
    (fun t => Finset.mem_image_of_mem fds (Finset.mem_univ t)) stressArgs_apart hreach
    (fun t x hx => stressCalls_mine m (args t) _ (hmade t ▸ List.mem_map_of_mem hx)) hret
  choose counters hcounters using fun t => stressWorkerThread_makes (hmade t) (hrun t)
  exact ⟨s, made, counters, hreach, hret, hcounters⟩

theorem summarize_const {apiCalls checks : ℕ} {counters : Fin n → StressCounters}
    (h : ∀ t, counters t = ⟨apiCalls, checks, 0, 0⟩) :
    summarize counters = ⟨n * apiCalls, n * checks, 0, 0⟩ := by
  simp [summarize, h]

end Stress

/-- The stress test finds nothing wrong: with a PLC that carries out every write and keeps what is
written, on one connection or on several, at most 64, with addresses below 1000000 and while no
`send` or `recv` fails or times out, whatever the threads do in whatever order, their counters add
up to four calls and two checks for each iteration, no mismatch and no error. Some run ends so. -/
theorem stress_test_passes (m : Module) {τ σ : Type} (D : Device m.protocol τ)
    (O : DeviceObject σ) (abs : τ → σ) (hD : D.Implements O abs) (hO : O.Keeps)
    (hwrites : O.Writes) (plc : τ) {n : ℕ} (base iterations : ℕ) (fds : Fin n → ℤ)
    (hfds : ∀ i, 0 < fds i) (hn : base + n * 2 ≤ 1000000)
    (hcard : (Finset.univ.image fds).card ≤ maxTxConnections) :
    (∀ s made counters,
      StressRun D plc (stressArgs base iterations fds hfds hn) s made counters →
        summarize counters = ⟨n * (4 * iterations), n * (2 * iterations), 0, 0⟩) ∧
    ∃ s made counters,
      StressRun D plc (stressArgs base iterations fds hfds hn) s made counters := by
  refine ⟨fun s made counters h => summarize_const fun t => ?_,
    exists_stressRun hD hO hwrites plc hcard⟩
  have hmine := fun t => (h.makes t).calls stressWorkerThread_calls
  exact stressWorkerThread_counts (h.makes t) (stress_remembered hD hO hwrites hcard
    (fun t => Finset.mem_image_of_mem fds (Finset.mem_univ t)) stressArgs_apart h.reachable hmine
    h.returned t)

/-- Eight threads on one connection, as `main` starts them, with the ASCII functions. -/
theorem stress_test_passes_same_fd :
    ∃ s made counters,
      StressRun (Memory.object.device .ascii) .zero
        (stressArgs (n := 8) 1000 2000 (fun _ => 3) (fun _ => by decide) (by decide)) s made
        counters ∧
      summarize counters = ⟨64000, 32000, 0, 0⟩ := by
  obtain ⟨hall, s, made, counters, h⟩ := stress_test_passes .ascii (Memory.object.device .ascii)
    Memory.object id (Memory.object.device_implements .ascii) Memory.object_keeps
    ⟨fun _ _ _ => rfl, fun _ _ _ => rfl⟩ .zero (n := 8) 1000 2000 (fun _ => 3)
    (fun _ => by decide) (by decide) (by decide)
  exact ⟨s, made, counters, h, hall s made counters h⟩

end MelsecMc
