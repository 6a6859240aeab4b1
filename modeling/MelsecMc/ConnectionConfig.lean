import MelsecMc.CTypes
import MelsecMc.SlotMap

/-!
# The configurations of the connections (socket.c)

A table of 32 slots holds the communication parameters of the connections. Setting
a configuration overwrites the slot of the descriptor or takes the first slot that
is not in use, closing a connection takes the mark off its slot, and a descriptor
without a slot has the default configuration.
-/
namespace MelsecMc

/-- `MAX_CONNECTIONS`. -/
abbrev maxConnections : ℕ := 32

/-- `mc_comm_config_t`. -/
structure CommConfig where
  sendTimeoutMs : ℤ
  recvTimeoutMs : ℤ
  retryCount : ℤ
  retryIntervalMs : ℤ
  ranges : InInt32 sendTimeoutMs ∧ InInt32 recvTimeoutMs ∧ InInt32 retryCount ∧
    InInt32 retryIntervalMs
  deriving DecidableEq, Repr

/-- `default_comm_config`. -/
def defaultCommConfig : CommConfig := ⟨5000, 5000, 3, 500, by decide⟩

/-- A slot of `connection_configs`. -/
structure ConnectionConfig where
  fd : ℤ
  config : CommConfig
  inUse : Bool
  deriving DecidableEq, Repr

/-- `connection_configs`. -/
abbrev ConnectionConfigs := Fin maxConnections → ConnectionConfig

/-- Slots by their descriptor. -/
def ConnectionConfig.slots : SlotMap ConnectionConfig ℤ CommConfig where
  key := fd
  inUse := inUse
  value := config
  fill fd config := ⟨fd, config, true⟩
  revalue slot config := { slot with config := config }
  release slot := { slot with inUse := false }
  fill_key _ _ := rfl
  fill_inUse _ _ := rfl
  fill_value _ _ := rfl
  revalue_key _ _ := rfl
  revalue_inUse _ _ := rfl
  revalue_value _ _ := rfl
  release_inUse _ := rfl

namespace ConnectionConfigs

open ConnectionConfig (slots)

/-- Static storage. -/
def initial : ConnectionConfigs := fun _ => ⟨0, ⟨0, 0, 0, 0, by decide⟩, false⟩

/-- `find_connection_config`. -/
def findConnectionConfig (configs : ConnectionConfigs) (fd : ℤ) : Option (Fin maxConnections) :=
  SlotTable.find slots.toView configs fd

/-- The loop over the slots that are not in use. -/
def vacant (configs : ConnectionConfigs) : Option (Fin maxConnections) :=
  SlotTable.vacant slots.toView configs

/-- `add_connection_config`. `none` is the result -1. -/
def addConnectionConfig (configs : ConnectionConfigs) (fd : ℤ) (config : CommConfig) :
    ConnectionConfigs × Option (Fin maxConnections) :=
  match configs.findConnectionConfig fd with
  | some index =>
    (Function.update configs index { configs index with config := config }, some index)
  | none =>
    match configs.vacant with
    | some i => (Function.update configs i ⟨fd, config, true⟩, some i)
    | none => (configs, none)

/-- `mc_remove_connection_config`. -/
def mcRemoveConnectionConfig (configs : ConnectionConfigs) (fd : ℤ) : ConnectionConfigs :=
  match configs.findConnectionConfig fd with
  | some index => Function.update configs index { configs index with inUse := false }
  | none => configs

/-- `mc_set_comm_config`, with the results of `setsockopt` for the two timeouts. -/
def mcSetCommConfig (configs : ConnectionConfigs) (fd : ℤ) (config : CommConfig)
    (sndtimeo rcvtimeo : ℤ) : ErrorCode × ConnectionConfigs :=
  if fd ≤ 0 then (.invalidParameter, configs)
  else
    match configs.addConnectionConfig fd config with
    | (configs, none) => (.failed, configs)
    | (configs, some _) =>
      if sndtimeo < 0 then (.failed, configs)
      else if rcvtimeo < 0 then (.failed, configs)
      else (.success, configs)

/-- `mc_get_comm_config`. `config` tells whether there is a pointer to store to. -/
def mcGetCommConfig (configs : ConnectionConfigs) (fd : ℤ) (config : Bool) :
    ErrorCode × Option CommConfig :=
  if fd ≤ 0 ∨ ¬ config then (.invalidParameter, none)
  else
    match configs.findConnectionConfig fd with
    | some index => (.success, some (configs index).config)
    | none => (.success, some defaultCommConfig)

/-- `mc_close_tcp_socket`. -/
def mcCloseTcpSocket (configs : ConnectionConfigs) (sockFd : ℤ) : ConnectionConfigs :=
  if sockFd ≤ 0 then configs else configs.mcRemoveConnectionConfig sockFd

/-- No descriptor has two slots in use. -/
def Unique (configs : ConnectionConfigs) : Prop :=
  ∀ i j, (configs i).inUse = true → (configs j).inUse = true →
    (configs i).fd = (configs j).fd → i = j

/-- A slot is in use for `fd`. -/
def HasEntry (configs : ConnectionConfigs) (fd : ℤ) : Prop :=
  ∃ i, (configs i).inUse = true ∧ (configs i).fd = fd

/-- There are 32 other descriptors with a slot. -/
def FullWithout (configs : ConnectionConfigs) (fd : ℤ) : Prop :=
  ¬ configs.HasEntry fd ∧ ∃ fds : Finset ℤ, fds.card = maxConnections ∧ fd ∉ fds ∧
    ∀ x ∈ fds, configs.HasEntry x

section Map

variable {configs : ConnectionConfigs} {fd : ℤ} {config : CommConfig}

theorem addConnectionConfig_eq :
    configs.addConnectionConfig fd config =
      (slots.put configs fd config).elim (configs, none) fun r => (r.1, some r.2) := by
  rw [addConnectionConfig, SlotMap.put, findConnectionConfig]
  cases SlotTable.find slots.toView configs fd with
  | some index => rfl
  | none =>
    simp only [vacant]
    cases SlotTable.vacant slots.toView configs with
    | some i => rfl
    | none => rfl

theorem mcRemoveConnectionConfig_eq :
    configs.mcRemoveConnectionConfig fd = slots.remove configs fd := by
  rw [mcRemoveConnectionConfig, SlotMap.remove, findConnectionConfig]
  cases SlotTable.find slots.toView configs fd with
  | some index => rfl
  | none => rfl

theorem lookup_mcRemoveConnectionConfig (hu : configs.Unique) :
    slots.lookup (configs.mcRemoveConnectionConfig fd) =
      Function.update (slots.lookup configs) fd none := by
  rw [mcRemoveConnectionConfig_eq]
  exact SlotMap.lookup_remove (S := slots) hu fd

theorem Unique.remove (hu : configs.Unique) (fd : ℤ) :
    (configs.mcRemoveConnectionConfig fd).Unique := by
  rw [mcRemoveConnectionConfig_eq]
  exact SlotMap.remove_unique (S := slots) hu fd

/-- What the map says, or the default. -/
theorem mcGetCommConfig_eq (hfd : 0 < fd) :
    configs.mcGetCommConfig fd true =
      (.success, some ((slots.lookup configs fd).getD defaultCommConfig)) := by
  rw [mcGetCommConfig, if_neg (by simp [hfd]), SlotMap.lookup, findConnectionConfig]
  cases SlotTable.find slots.toView configs fd with
  | some index => rfl
  | none => rfl

theorem hasEntry_iff : configs.HasEntry fd ↔ (slots.lookup configs fd).isSome = true :=
  (SlotMap.lookup_isSome (S := slots)).symm

theorem fullWithout_iff :
    configs.FullWithout fd ↔ SlotMap.Full maxConnections (slots.lookup configs) fd := by
  simp only [FullWithout, SlotMap.Full, hasEntry_iff, Bool.not_eq_true, Option.isSome_eq_false_iff,
    Option.isNone_iff_eq_none]

/-- Every slot is in use for another descriptor. -/
def NoRoom (configs : ConnectionConfigs) (fd : ℤ) : Prop :=
  ∀ i, (configs i).inUse = true ∧ (configs i).fd ≠ fd

theorem put_eq_none_iff_noRoom (config : CommConfig) :
    slots.put configs fd config = none ↔ configs.NoRoom fd := by
  cases hf : SlotTable.find slots.toView configs fd with
  | some i =>
    obtain ⟨-, hk⟩ := SlotTable.find_some hf
    apply iff_of_false
    · simp [SlotMap.put, hf]
    · exact fun hroom => (hroom i).2 hk
  | none =>
    simp only [SlotMap.put, hf, Option.map_eq_none_iff]
    constructor
    · intro hv i
      have hi : slots.toView.inUse (configs i) = true := by
        simpa using List.find?_eq_none.mp hv i (List.mem_finRange i)
      exact ⟨hi, SlotTable.find_none hf i hi⟩
    · intro hroom
      cases hv : SlotTable.vacant slots.toView configs with
      | none => rfl
      | some i =>
        have hi := SlotTable.vacant_some hv
        rw [show slots.toView.inUse (configs i) = (configs i).inUse from rfl, (hroom i).1] at hi
        cases hi

/-- The two ways in which setting a configuration ends. -/
theorem mcSetCommConfig_cases (configs : ConnectionConfigs) (hfd : 0 < fd) (config : CommConfig)
    (sndtimeo rcvtimeo : ℤ) :
    slots.put configs fd config = none ∧
      configs.mcSetCommConfig fd config sndtimeo rcvtimeo = (.failed, configs) ∨
    ∃ after i, slots.put configs fd config = some (after, i) ∧
      configs.mcSetCommConfig fd config sndtimeo rcvtimeo =
        (if 0 ≤ sndtimeo ∧ 0 ≤ rcvtimeo then .success else .failed, after) := by
  rw [mcSetCommConfig, if_neg (by omega), addConnectionConfig_eq]
  cases slots.put configs fd config with
  | none => exact .inl ⟨rfl, rfl⟩
  | some r =>
    obtain ⟨after, i⟩ := r
    refine .inr ⟨after, i, rfl, ?_⟩
    simp only [Option.elim_some]
    split_ifs
    all_goals first | rfl | omega

/-- An accepted configuration is the one of the descriptor. -/
theorem mcGetCommConfig_of_accepted {sndtimeo rcvtimeo : ℤ}
    (h : (configs.mcSetCommConfig fd config sndtimeo rcvtimeo).1 = .success) :
    0 < fd ∧ (configs.mcSetCommConfig fd config sndtimeo rcvtimeo).2.mcGetCommConfig fd true =
      (.success, some config) := by
  by_cases hfd : 0 < fd
  · refine ⟨hfd, ?_⟩
    obtain ⟨-, hset⟩ | ⟨after, i, hput, hset⟩ :=
      configs.mcSetCommConfig_cases hfd config sndtimeo rcvtimeo
    · rw [hset] at h
      cases h
    · rw [hset, mcGetCommConfig_eq hfd, SlotMap.lookup_put hput, Function.update_self]
      rfl
  · rw [mcSetCommConfig, if_pos (by omega)] at h
    cases h

end Map

end ConnectionConfigs

end MelsecMc
