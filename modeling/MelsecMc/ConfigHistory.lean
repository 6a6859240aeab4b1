import MelsecMc.ConnectionConfig

/-!
# The configuration table over a run

Under any sequence of calls the table is a map with at most 32 descriptors. What a
descriptor reads is what was last set on it, until it is removed. A configuration
is stored before the socket options are set, so a call that fails at an option has
changed the table.
-/
namespace MelsecMc

open ConnectionConfig (slots)
open ConnectionConfigs

/-- A call that works on the table. The socket options are set without an error. -/
inductive ConfigCall where
  | set (fd : ℤ) (config : CommConfig)
  | remove (fd : ℤ)
  | close (fd : ℤ)
  | get (fd : ℤ)
  deriving DecidableEq, Repr

namespace ConfigCall

def fd : ConfigCall → ℤ
  | set fd _ | remove fd | close fd | get fd => fd

/-- The table after the call. -/
def after (configs : ConnectionConfigs) : ConfigCall → ConnectionConfigs
  | set fd config => (configs.mcSetCommConfig fd config 0 0).2
  | remove fd => configs.mcRemoveConnectionConfig fd
  | close fd => configs.mcCloseTcpSocket fd
  | get _ => configs

/-- The call sets or removes the configuration of `fd`. A set that fails does neither. -/
def Changes (configs : ConnectionConfigs) (fd : ℤ) : ConfigCall → Prop
  | set fd' config => fd' = fd ∧ (configs.mcSetCommConfig fd' config 0 0).1 = .success
  | remove fd' | close fd' => fd' = fd
  | get _ => False

end ConfigCall

/-- The table after `calls`. -/
def configsAfter (calls : List ConfigCall) : ConnectionConfigs :=
  calls.foldl ConfigCall.after .initial

/-- The call at index `i` of the run sets or removes the configuration of `fd`. -/
def ChangedAt (calls : List ConfigCall) (fd : ℤ) (i : ℕ) : Prop :=
  ∃ c, calls[i]? = some c ∧ c.Changes (configsAfter (calls.take i)) fd

/-- `config` was set on `fd`, and since then `fd` was neither set nor removed. -/
def LastSet (calls : List ConfigCall) (fd : ℤ) (config : CommConfig) : Prop :=
  ∃ i, calls[i]? = some (.set fd config) ∧ ChangedAt calls fd i ∧
    ∀ j, i < j → ¬ ChangedAt calls fd j

theorem configsAfter_concat (calls : List ConfigCall) (c : ConfigCall) :
    configsAfter (calls ++ [c]) = c.after (configsAfter calls) := by
  rw [configsAfter, List.foldl_append]
  rfl

/-- Earlier calls are the same in a longer run. -/
theorem changedAt_concat_of_lt {calls : List ConfigCall} {c : ConfigCall} {fd : ℤ} {i : ℕ}
    (hi : i < calls.length) : ChangedAt (calls ++ [c]) fd i ↔ ChangedAt calls fd i := by
  rw [ChangedAt, ChangedAt, List.getElem?_append_left hi, List.take_append_of_le_length hi.le]

theorem changedAt_concat_length {calls : List ConfigCall} {c : ConfigCall} {fd : ℤ} :
    ChangedAt (calls ++ [c]) fd calls.length ↔ c.Changes (configsAfter calls) fd := by
  rw [ChangedAt, List.getElem?_append_right le_rfl, Nat.sub_self, List.getElem?_cons_zero,
    List.take_left]
  simp

theorem ChangedAt.lt_length {calls : List ConfigCall} {fd : ℤ} {i : ℕ} (h : ChangedAt calls fd i) :
    i < calls.length := by
  obtain ⟨c, hc, -⟩ := h
  exact (List.getElem?_eq_some_iff.mp hc).1

/-- One call more: it is the last set itself, or leaves the last set as it was. -/
theorem lastSet_concat {calls : List ConfigCall} {c : ConfigCall} {fd : ℤ} {config : CommConfig} :
    LastSet (calls ++ [c]) fd config ↔
      c.Changes (configsAfter calls) fd ∧ c = .set fd config ∨
      ¬ c.Changes (configsAfter calls) fd ∧ LastSet calls fd config := by
  constructor
  · intro h
    obtain ⟨i, hset, hch, hlater⟩ := h
    have hi := hch.lt_length
    rw [List.length_append, List.length_singleton] at hi
    by_cases hlast : i = calls.length
    · subst hlast
      rw [List.getElem?_append_right le_rfl, Nat.sub_self] at hset
      exact .inl ⟨changedAt_concat_length.mp hch, Option.some.inj hset⟩
    · have hlt : i < calls.length := by omega
      rw [List.getElem?_append_left hlt] at hset
      refine .inr ⟨fun hc => hlater _ hlt (changedAt_concat_length.mpr hc), i, hset,
        (changedAt_concat_of_lt hlt).mp hch, fun j hj hjch => ?_⟩
      exact hlater j hj ((changedAt_concat_of_lt hjch.lt_length).mpr hjch)
  · intro h
    obtain ⟨hc, rfl⟩ | ⟨hc, i, hset, hch, hlater⟩ := h
    · refine ⟨calls.length, ?_, changedAt_concat_length.mpr hc, fun j hj hjch => ?_⟩
      · rw [List.getElem?_append_right le_rfl, Nat.sub_self]
        rfl
      · have hjlt := hjch.lt_length
        rw [List.length_append, List.length_singleton] at hjlt
        omega
    · have hlt := hch.lt_length
      refine ⟨i, ?_, (changedAt_concat_of_lt hlt).mpr hch, fun j hj hjch => ?_⟩
      · rw [List.getElem?_append_left hlt]
        exact hset
      · by_cases hlast : j = calls.length
        · subst hlast
          exact hc (changedAt_concat_length.mp hjch)
        · have hjlt := hjch.lt_length
          rw [List.length_append, List.length_singleton] at hjlt
          exact hlater j hj ((changedAt_concat_of_lt (by omega)).mp hjch)

section Step

variable {configs : ConnectionConfigs} {fd : ℤ}

/-- With the socket options set, a set either succeeds and puts or fails and changes nothing. -/
theorem mcSetCommConfig_options (configs : ConnectionConfigs) (fd : ℤ) (config : CommConfig) :
    (configs.mcSetCommConfig fd config 0 0).1 = .success ∧
      slots.lookup (configs.mcSetCommConfig fd config 0 0).2 =
        Function.update (slots.lookup configs) fd (some config) ∨
    (configs.mcSetCommConfig fd config 0 0).1 ≠ .success ∧
      (configs.mcSetCommConfig fd config 0 0).2 = configs := by
  by_cases hfd : 0 < fd
  · obtain ⟨-, hset⟩ | ⟨after, i, hput, hset⟩ :=
      configs.mcSetCommConfig_cases hfd config 0 0
    · rw [hset]
      exact .inr ⟨by simp, rfl⟩
    · rw [hset]
      exact .inl ⟨by simp, SlotMap.lookup_put hput⟩
  · rw [mcSetCommConfig, if_pos (by omega)]
    exact .inr ⟨by simp, rfl⟩

theorem after_unique (hu : configs.Unique) (c : ConfigCall) : (c.after configs).Unique := by
  cases c with
  | set fd config =>
    by_cases hfd : 0 < fd
    · obtain ⟨-, hset⟩ | ⟨after, i, hput, hset⟩ :=
        configs.mcSetCommConfig_cases hfd config 0 0
      · rw [ConfigCall.after, hset]
        exact hu
      · rw [ConfigCall.after, hset]
        exact SlotMap.put_unique (S := slots) hu hput
    · rw [ConfigCall.after, mcSetCommConfig, if_pos (by omega)]
      exact hu
  | remove fd => exact hu.remove fd
  | close fd =>
    rw [ConfigCall.after, mcCloseTcpSocket]
    split
    · exact hu
    · exact hu.remove fd
  | get fd => exact hu

/-- Closing a connection removes its configuration. -/
theorem mcCloseTcpSocket_eq (hfd : 0 < fd) :
    configs.mcCloseTcpSocket fd = configs.mcRemoveConnectionConfig fd := by
  rw [mcCloseTcpSocket, if_neg (by omega)]

/-- A call on another descriptor. -/
theorem lookup_after_of_ne (hu : configs.Unique) {c : ConfigCall} (hc : c.fd ≠ fd) :
    slots.lookup (c.after configs) fd = slots.lookup configs fd := by
  cases c with
  | set fd' config =>
    have hne : fd ≠ fd' := Ne.symm hc
    obtain ⟨-, hlookup⟩ | ⟨-, hsame⟩ := mcSetCommConfig_options configs fd' config
    · rw [ConfigCall.after, hlookup, Function.update_of_ne hne]
    · rw [ConfigCall.after, hsame]
  | remove fd' =>
    have hne : fd ≠ fd' := Ne.symm hc
    rw [ConfigCall.after, lookup_mcRemoveConnectionConfig hu, Function.update_of_ne hne]
  | close fd' =>
    have hne : fd ≠ fd' := Ne.symm hc
    rw [ConfigCall.after, mcCloseTcpSocket]
    split
    · rfl
    · rw [lookup_mcRemoveConnectionConfig hu, Function.update_of_ne hne]
  | get fd' => rfl

/-- What a call leaves of a configuration: what it sets, or what it does not change. -/
theorem lookup_after (hu : configs.Unique) (hfd : 0 < fd) (c : ConfigCall) (config : CommConfig) :
    slots.lookup (c.after configs) fd = some config ↔
      c.Changes configs fd ∧ c = .set fd config ∨
      ¬ c.Changes configs fd ∧ slots.lookup configs fd = some config := by
  by_cases hc : c.fd = fd
  · cases c with
    | set fd' config' =>
      obtain rfl : fd' = fd := hc
      obtain ⟨hok, hlookup⟩ | ⟨hfail, hsame⟩ := mcSetCommConfig_options configs fd' config'
      · rw [ConfigCall.after, hlookup, Function.update_self]
        simp [ConfigCall.Changes, hok]
      · rw [ConfigCall.after, hsame]
        simp [ConfigCall.Changes, hfail]
    | remove fd' =>
      obtain rfl : fd' = fd := hc
      rw [ConfigCall.after, lookup_mcRemoveConnectionConfig hu, Function.update_self]
      simp [ConfigCall.Changes]
    | close fd' =>
      obtain rfl : fd' = fd := hc
      rw [ConfigCall.after, mcCloseTcpSocket_eq hfd, lookup_mcRemoveConnectionConfig hu,
        Function.update_self]
      simp [ConfigCall.Changes]
    | get fd' => simp [ConfigCall.after, ConfigCall.Changes]
  · have hno : ¬ c.Changes configs fd := by
      cases c with
      | set fd' config' => exact fun h => hc h.1
      | remove fd' => exact hc
      | close fd' => exact hc
      | get fd' => exact id
    rw [lookup_after_of_ne hu hc]
    simp [hno]

end Step

theorem configsAfter_unique (calls : List ConfigCall) : (configsAfter calls).Unique := by
  induction calls using List.reverseRecOn with
  | nil =>
    intro i j hi
    cases hi
  | append_singleton calls c ih =>
    rw [configsAfter_concat]
    exact after_unique ih c

/-- The table is the map of what was last set. -/
theorem lookup_configsAfter {fd : ℤ} (hfd : 0 < fd) (calls : List ConfigCall)
    (config : CommConfig) :
    slots.lookup (configsAfter calls) fd = some config ↔ LastSet calls fd config := by
  induction calls using List.reverseRecOn with
  | nil =>
    have hnone : (slots.lookup (configsAfter []) fd).isSome = false := by
      rw [Bool.eq_false_iff]
      intro h
      obtain ⟨i, hi, -⟩ := SlotMap.lookup_isSome.mp h
      cases hi
    apply iff_of_false
    · intro h
      rw [h] at hnone
      cases hnone
    · intro h
      obtain ⟨i, hi, -⟩ := h
      cases hi
  | append_singleton calls c ih =>
    rw [configsAfter_concat, lookup_after (configsAfter_unique calls) hfd, lastSet_concat, ih]

theorem mcGetCommConfig_congr {configs configs' : ConnectionConfigs} {fd : ℤ}
    (h : slots.lookup configs' fd = slots.lookup configs fd) (config : Bool) :
    configs'.mcGetCommConfig fd config = configs.mcGetCommConfig fd config := by
  by_cases hfd : fd ≤ 0 ∨ ¬ config
  · rw [mcGetCommConfig, mcGetCommConfig, if_pos hfd, if_pos hfd]
  · obtain ⟨hpos, hptr⟩ := not_or.mp hfd
    obtain rfl : config = true := not_not.mp hptr
    rw [mcGetCommConfig_eq (by omega), mcGetCommConfig_eq (by omega), h]

/-- Setting fails exactly when the table is full without the descriptor. -/
theorem mcSetCommConfig_fails_iff {configs : ConnectionConfigs} (hu : configs.Unique) {fd : ℤ}
    (hfd : 0 < fd) (config : CommConfig) :
    (configs.mcSetCommConfig fd config 0 0).1 ≠ .success ↔ configs.FullWithout fd := by
  rw [fullWithout_iff, ← SlotMap.put_eq_none_iff (S := slots) hu fd config]
  obtain ⟨hput, hset⟩ | ⟨after, i, hput, hset⟩ :=
    configs.mcSetCommConfig_cases hfd config 0 0
  · simp [hput, hset]
  · simp [hput, hset]

/-- The configuration table is a bounded map: for every sequence of calls no descriptor has two
slots, a descriptor reads what was last set on it and else the default, only a full table refuses
a descriptor, without a change, and a call on one descriptor does not change what another reads. -/
theorem config_table_bounded_map (calls : List ConfigCall) :
    (configsAfter calls).Unique ∧
    (∀ fd, 0 < fd →
      (∀ config, LastSet calls fd config →
        (configsAfter calls).mcGetCommConfig fd true = (.success, some config)) ∧
      ((¬ ∃ config, LastSet calls fd config) →
        (configsAfter calls).mcGetCommConfig fd true = (.success, some defaultCommConfig)) ∧
      ∀ config,
        (((configsAfter calls).mcSetCommConfig fd config 0 0).1 ≠ .success ↔
          (configsAfter calls).FullWithout fd) ∧
        (((configsAfter calls).mcSetCommConfig fd config 0 0).1 ≠ .success →
          ((configsAfter calls).mcSetCommConfig fd config 0 0).2 = configsAfter calls)) ∧
    ∀ (c : ConfigCall) (fd : ℤ), c.fd ≠ fd →
      (c.after (configsAfter calls)).mcGetCommConfig fd true =
        (configsAfter calls).mcGetCommConfig fd true := by
  have hu := configsAfter_unique calls
  refine ⟨hu, fun fd hfd => ⟨?_, ?_, ?_⟩, ?_⟩
  · intro config hlast
    rw [mcGetCommConfig_eq hfd, (lookup_configsAfter hfd calls config).mpr hlast]
    rfl
  · intro hnone
    have hlookup : slots.lookup (configsAfter calls) fd = none := by
      rw [Option.eq_none_iff_forall_ne_some]
      intro config hsome
      exact hnone ⟨config, (lookup_configsAfter hfd calls config).mp hsome⟩
    rw [mcGetCommConfig_eq hfd, hlookup]
    rfl
  · intro config
    refine ⟨mcSetCommConfig_fails_iff hu hfd config, fun hfail => ?_⟩
    obtain ⟨hok, -⟩ | ⟨-, hsame⟩ := mcSetCommConfig_options (configsAfter calls) fd config
    · exact absurd hok hfail
    · exact hsame
  · intro c fd hc
    exact mcGetCommConfig_congr (lookup_after_of_ne hu hc) true

/-- Two connections are configured and the second is closed. -/
def twoConnections : List ConfigCall :=
  [.set 3 ⟨1000, 2000, 5, 100, by decide⟩, .set 4 defaultCommConfig, .close 4]

/-- 32 connections are configured. -/
def allConnections : List ConfigCall :=
  (List.range maxConnections).map fun i => .set (i + 1) defaultCommConfig

theorem config_table_bounded_map_full :
    (configsAfter twoConnections).mcGetCommConfig 3 true =
      (.success, some ⟨1000, 2000, 5, 100, by decide⟩) ∧
    (configsAfter allConnections).FullWithout 33 ∧
    ((ConfigCall.close 5).after (configsAfter allConnections)).mcGetCommConfig 7 true =
      (configsAfter allConnections).mcGetCommConfig 7 true := by
  have hlast : LastSet twoConnections 3 ⟨1000, 2000, 5, 100, by decide⟩ := by
    have hne : (4 : ℤ) ≠ 3 := by decide
    apply (@lastSet_concat [_, _] _ _ _).mpr
    refine .inr ⟨hne, (@lastSet_concat [_] _ _ _).mpr (.inr ⟨fun h => hne h.1, ?_⟩)⟩
    exact (@lastSet_concat [] _ _ _).mpr (.inl ⟨⟨rfl, by decide +kernel⟩, rfl⟩)
  refine ⟨((config_table_bounded_map twoConnections).2.1 3 (by decide)).1 _ hlast, ?_, ?_⟩
  · have hfull := (config_table_bounded_map allConnections).2.1 33 (by decide)
    exact (hfull.2.2 defaultCommConfig).1.mp (by decide +kernel)
  · exact (config_table_bounded_map allConnections).2.2 (.close 5) 7 (by decide)

/-- A set that fails leaves every descriptor with the configuration that it had. -/
def ChangesNothing (configs : ConnectionConfigs) (fd : ℤ) (config : CommConfig)
    (sndtimeo rcvtimeo : ℤ) : Prop :=
  (configs.mcSetCommConfig fd config sndtimeo rcvtimeo).1 ≠ .success → ∀ fd' ptr,
    (configs.mcSetCommConfig fd config sndtimeo rcvtimeo).2.mcGetCommConfig fd' ptr =
      configs.mcGetCommConfig fd' ptr

/-- For every table, descriptor, configuration and outcome of the options: a failed set changes
nothing exactly when it fails before the table is written, or writes what was there. -/
theorem changesNothing_iff (configs : ConnectionConfigs) (fd : ℤ) (config : CommConfig)
    (sndtimeo rcvtimeo : ℤ) :
    ChangesNothing configs fd config sndtimeo rcvtimeo ↔
      fd ≤ 0 ∨ configs.NoRoom fd ∨ (0 ≤ sndtimeo ∧ 0 ≤ rcvtimeo) ∨
        configs.mcGetCommConfig fd true = (.success, some config) := by
  by_cases hfd : fd ≤ 0
  · apply iff_of_true
    · intro _ fd' ptr
      rw [mcSetCommConfig, if_pos hfd]
    · exact .inl hfd
  rw [or_iff_right hfd, ← put_eq_none_iff_noRoom config]
  rw [not_le] at hfd
  rw [ChangesNothing]
  obtain ⟨hput, hset⟩ | ⟨after, i, hput, hset⟩ :=
    configs.mcSetCommConfig_cases hfd config sndtimeo rcvtimeo
  · rw [hset, hput]
    exact iff_of_true (fun _ _ _ => rfl) (.inl rfl)
  · have hlookup := SlotMap.lookup_put hput
    rw [hset, hput]
    by_cases hopt : 0 ≤ sndtimeo ∧ 0 ≤ rcvtimeo
    · simp [hopt]
    · have hstored : mcGetCommConfig after fd true = (.success, some config) := by
        rw [mcGetCommConfig_eq hfd, hlookup, Function.update_self]
        rfl
      simp only [hopt, if_false, false_or, reduceCtorEq, ne_eq, not_false_eq_true, true_imp_iff]
      constructor
      · intro hsame
        rw [← hsame fd true, hstored]
      · intro hold fd' ptr
        by_cases hne : fd' = fd
        · subst hne
          cases ptr with
          | true => rw [hstored, hold]
          | false => rw [mcGetCommConfig, mcGetCommConfig, if_pos (by simp), if_pos (by simp)]
        · apply mcGetCommConfig_congr
          rw [hlookup, Function.update_of_ne hne]

/-- The first set of a connection is stored and then fails at an option. -/
theorem failed_set_changes :
    ¬ ∀ configs fd config sndtimeo rcvtimeo,
      ChangesNothing configs fd config sndtimeo rcvtimeo := by
  intro h
  have hsame := h .initial 3 ⟨1000, 2000, 5, 100, by decide⟩ (-1) 0 (by decide +kernel) 3 true
  exact absurd hsame (by decide +kernel)

end MelsecMc
