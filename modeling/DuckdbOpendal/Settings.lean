import DuckdbOpendal.OperatorConfig

/-!
# Settings over time

The four `opendal_*_config` settings are process-global: a `SET` replaces the map of one section,
and every call of `BuildOperator` takes a snapshot of all of them when it begins.  Calls of other
threads, and further `SET`s, come in between.  A history is any interleaving of these.

## Main Definitions

* `configMap` — the map a `SET` puts in force
* `SettingEvent`, `globalsAfter` — a history and the settings it leaves
* `settingInForce` — the last map set for a section
* `runHistory` — the operators of a history

## Main Results

* `find?_globalsAfter` — each section holds the last map set for it
* `find?_options_of_request` — the options of a call, setting by setting
* `operators_follow_settings` — the settings an operator was made with
-/

namespace DuckdbOpendal

open PublishOnce SortedMap

/-! ## Settings -/

/-- `ConfigMap`; a NULL setting is `none`. -/
def configMap (value : Option MapEntries) : StringMap :=
  (∅ : StringMap).insertAll ((value.getD []).map fun kv => (kv.1, valueToString kv.2))

/-- The arguments of `BuildOperator`; the settings are process-global. -/
structure OperatorCall where
  scheme : Bytes
  authority : Bytes
  url : Bytes
  context : Option SecretManager
  db : Option SecretManager

/-- A call that takes its snapshot of these settings. -/
def OperatorCall.under (globals : GlobalConfig) (c : OperatorCall) : BuildCall :=
  ⟨c.scheme, c.authority, c.url, ⟨c.context, c.db, globals⟩⟩

/-- What happens in a process: a setting is changed (`SetIoConfig`, `SetRetryConfig`,
`SetTimeoutConfig`, `SetCacheConfig`), or a thread takes a step in `BuildOperator`. -/
inductive SettingEvent (τ : Type) where
  | set (s : ConfigSection) (value : Option MapEntries)
  | step (a : Action τ OperatorCall)

section History

variable {τ : Type}

/-- The settings after an event. -/
def SettingEvent.apply (globals : GlobalConfig) : SettingEvent τ → GlobalConfig
  | .set s value => setGlobalConfig globals s.name (configMap value)
  | .step _ => globals

/-- The settings after a history. -/
def globalsAfter (history : List (SettingEvent τ)) : GlobalConfig :=
  history.foldl SettingEvent.apply ∅

/-- The calls of a history take their snapshots. -/
def historyActions (globals : GlobalConfig) :
    List (SettingEvent τ) → List (Action τ BuildCall)
  | [] => []
  | .set s value :: history =>
      historyActions (setGlobalConfig globals s.name (configMap value)) history
  | .step a :: history => a.map (OperatorCall.under globals) :: historyActions globals history

/-- The operators after a history. -/
def runHistory [DecidableEq τ] (history : List (SettingEvent τ)) : System τ Bytes Request :=
  runOperators (historyActions ∅ history)

/-- The map an event sets for a section. -/
def SettingEvent.assigns (s : ConfigSection) : SettingEvent τ → Option StringMap
  | .set s' value => if s' = s then some (configMap value) else none
  | .step _ => none

/-- **The setting in force**: the last map set for a section, empty before the first. -/
def settingInForce (history : List (SettingEvent τ)) (s : ConfigSection) : StringMap :=
  (history.reverse.findSome? (SettingEvent.assigns s)).getD ∅

/-! ## The settings of a history -/

theorem globalsAfter_concat (history : List (SettingEvent τ)) (e : SettingEvent τ) :
    globalsAfter (history ++ [e]) = e.apply (globalsAfter history) := by
  rw [globalsAfter, List.foldl_append]
  rfl

/-- What an event does not set stays in force. -/
theorem settingInForce_concat (history : List (SettingEvent τ)) (e : SettingEvent τ)
    (s : ConfigSection) :
    settingInForce (history ++ [e]) s = (e.assigns s).getD (settingInForce history s) := by
  rw [settingInForce, List.reverse_append, List.reverse_singleton, List.singleton_append,
    List.findSome?_cons]
  cases e.assigns s with
  | none => rfl
  | some m => rfl

/-- **Each section holds the last map set for it.** -/
theorem find?_globalsAfter (history : List (SettingEvent τ)) (s : ConfigSection) :
    ((globalsAfter history).find? s.name).getD ∅ = settingInForce history s := by
  induction history using List.reverseRecOn with
  | nil => rfl
  | append_singleton history e ih =>
      rw [globalsAfter_concat, settingInForce_concat]
      cases e with
      | step a => exact ih
      | set s' value =>
          simp only [SettingEvent.apply, setGlobalConfig, find?_insert, SettingEvent.assigns]
          by_cases h : s' = s
          · rw [if_pos h, if_pos (h ▸ rfl)]
            rfl
          · rw [if_neg h, if_neg fun hname => h (ConfigSection.name_injective hname.symm), ih]
            rfl

/-- No other section comes up. -/
theorem exists_section_of_globalsAfter (history : List (SettingEvent τ)) :
    ∀ sec ∈ (globalsAfter history).entries, ∃ s : ConfigSection, sec.1 = s.name := by
  induction history using List.reverseRecOn with
  | nil => exact fun sec hsec => absurd hsec List.not_mem_nil
  | append_singleton history e ih =>
      rw [globalsAfter_concat]
      cases e with
      | step a => exact ih
      | set s value =>
          intro sec hsec
          rcases mem_insertEntry_fst hsec with hname | hsec
          · exact ⟨s, hname⟩
          · exact ih sec hsec

/-! ## The options of a call -/

/-- What the matched secret of a call says about an option. -/
def BuildCall.secretOption (c : BuildCall) (key : Bytes) : Option Bytes :=
  (c.matchedSecret.bind Secret.secretMap).bind fun entries => lastValue key (optionEntries entries)

/-- **The options of a request**: the secret's, over the settings of the snapshot. -/
theorem find?_options_of_request {c : BuildCall} {r : Request} (h : c.request = some r)
    (key : Bytes) : r.options.find? key =
      (c.secretOption key).or ((globalConfigSnapshot c.session.globals).find? key) := by
  rw [BuildCall.request_eq] at h
  rw [BuildCall.secretOption]
  cases hmatched : c.matchedSecret with
  | none =>
      rw [hmatched] at h
      cases h
      rfl
  | some secret =>
      rw [hmatched] at h
      obtain ⟨entries, hentries, rfl⟩ := Option.map_eq_some_iff.mp h
      simp only [applySecretEntries_eq, find?_insertAll_eq, Option.bind_some, hentries]

/-- A setting reaches the snapshot under the key of its section, and nothing else does. -/
theorem find?_snapshot_iff (history : List (SettingEvent τ)) {key value : Bytes} :
    (globalConfigSnapshot (globalsAfter history)).find? key = some value ↔
      ∃ s : ConfigSection, ∃ k, key = s.name ++ ascii "." ++ k ∧
        (settingInForce history s).find? k = some value := by
  have hdots : ∀ sec ∈ (globalsAfter history).entries, 0x2E ∉ sec.1 := by
    intro sec hsec
    obtain ⟨s, hs⟩ := exists_section_of_globalsAfter history sec hsec
    exact hs ▸ s.dot_notMem_name
  have hfind : ∀ (s : ConfigSection) k,
      (globalConfigSnapshot (globalsAfter history)).find? (s.name ++ ascii "." ++ k) =
        (settingInForce history s).find? k := fun s k => by
    rw [find?_globalConfigSnapshot hdots s.dot_notMem_name, find?_globalsAfter]
  constructor
  · intro h
    obtain ⟨sec, hsec, k, rfl⟩ := exists_of_find?_globalConfigSnapshot h
    obtain ⟨s, hs⟩ := exists_section_of_globalsAfter history sec hsec
    rw [hs] at h ⊢
    exact ⟨s, k, rfl, hfind s k ▸ h⟩
  · rintro ⟨s, k, rfl, h⟩
    rw [hfind, h]

/-! ## The operators of a history -/

/-- The snapshot of a call is of the settings that the history before it has left. -/
theorem mem_historyActions {globals : GlobalConfig} {history : List (SettingEvent τ)} {t : τ}
    {c : BuildCall} (h : .call t c ∈ historyActions globals history) :
    ∃ before call after, history = before ++ .step (.call t call) :: after ∧
      c = call.under (before.foldl SettingEvent.apply globals) := by
  induction history generalizing globals with
  | nil => cases h
  | cons e history ih =>
      cases e with
      | set s value =>
          obtain ⟨before, call, after, rfl, rfl⟩ := ih h
          exact ⟨.set s value :: before, call, after, rfl, rfl⟩
      | step a =>
          rcases List.mem_cons.mp h with hhead | h
          · cases a with
            | call t' call =>
                cases hhead
                exact ⟨[], call, history, rfl, rfl⟩
            | _ => cases hhead
          · obtain ⟨before, call, after, rfl, rfl⟩ := ih h
            exact ⟨.step a :: before, call, after, rfl, rfl⟩

/-- The options a call should get: what its secret says, and otherwise the settings in force. -/
def OptionsInForce (before : List (SettingEvent τ)) (call : OperatorCall) (r : Request) : Prop :=
  ∀ key value, r.options.find? key = some value ↔
    (call.under ∅).secretOption key = some value ∨
      (call.under ∅).secretOption key = none ∧ ∃ s : ConfigSection, ∃ k,
        key = s.name ++ ascii "." ++ k ∧ (settingInForce before s).find? k = some value

theorem optionsInForce_of_request {before : List (SettingEvent τ)} {call : OperatorCall}
    {r : Request} (h : (call.under (globalsAfter before)).request = some r) :
    OptionsInForce before call r := by
  intro key value
  have hsecret : (call.under (globalsAfter before)).secretOption key =
      (call.under ∅).secretOption key := rfl
  rw [find?_options_of_request h, hsecret, Option.or_eq_some_iff]
  exact or_congr_right (and_congr_right fun _ => find?_snapshot_iff before)

variable [DecidableEq τ]

/-- **The settings an operator was made with.**  In every interleaving of `SET`s and of the steps
of calls, the operator a call returns was made by `od_operator_new` from the options that were in
force when some call for its request began: the secret's, and for the rest of each section the
map of the last `SET`, whole.  Requests that share a key without being equal are the one
exception. -/
theorem operators_follow_settings (history : List (SettingEvent τ)) {r : Request} {p : Ptr}
    (h : (r, p) ∈ (runHistory history).returned) :
    ∃ before t call after made, history = before ++ .step (.call t call) :: after ∧
      (call.under (globalsAfter before)).request = some r ∧ OptionsInForce before call r ∧
      (runHistory history).shared.made[p]? = some made ∧ (made = r ∨ Confusable made r) := by
  have hmentions : Mentions (fun r => ∃ before t call after,
      history = before ++ .step (.call t call) :: after ∧
        (call.under (globalsAfter before)).request = some r) (runHistory history) := by
    refine run_mentions operatorKey _ fun a ha t r hcall => ?_
    obtain ⟨b, hb, hba⟩ := List.mem_filterMap.mp ha
    obtain ⟨c, rfl, hr⟩ := requestAction_call (hba.trans (congrArg some hcall))
    obtain ⟨before, call, after, hhistory, rfl⟩ := mem_historyActions hb
    exact ⟨before, t, call, after, hhistory, hr⟩
  obtain ⟨before, t, call, after, hhistory, hr⟩ := hmentions.returned r p h
  obtain ⟨made, hmade, hkey⟩ := (run_inv (inv_init operatorKey) _).returned_made r p h
  refine ⟨before, t, call, after, made, hhistory, hr, optionsInForce_of_request hr, hmade, ?_⟩
  by_cases heq : made = r
  · exact Or.inl heq
  · exact Or.inr ⟨heq, operatorKey_eq_iff.mp hkey⟩

end History

/-- A call for `memory:///x` without secrets. -/
def plainMemoryCall : OperatorCall := ⟨ascii "memory", [], ascii "memory:///x", none, none⟩

/-- One section is set twice. -/
def twoSettings : List (SettingEvent Unit) :=
  [.set .io (some [(ascii "read.concurrent", some (ascii "4"))]),
    .set .io (some [(ascii "read.chunk_size", some (ascii "1 MiB"))])]

/-- Then an operator is asked for. -/
def setTwice : List (SettingEvent Unit) :=
  twoSettings ++ (callThrough () plainMemoryCall).map .step

/-- The request under the second map alone. -/
def chunkRequest : Request :=
  memoryRequest ∅ (SortedMap.insert ∅ (ascii "io.read.chunk_size") (ascii "1 MiB"))

theorem runHistory_setTwice : (chunkRequest, 0) ∈ (runHistory setTwice).returned := by
  have hrequest : (plainMemoryCall.under (globalsAfter twoSettings)).request =
      some chunkRequest := by decide
  have hactions : (historyActions ∅ setTwice).filterMap requestAction =
      callThrough () chunkRequest := by
    change (callThrough () (plainMemoryCall.under (globalsAfter twoSettings))).filterMap
      requestAction = _
    simp only [callThrough, requestAction, List.filterMap_cons, List.filterMap_nil, hrequest,
      Option.map_some]
  rw [runHistory, runOperators, hactions, run_callThrough_none rfl rfl rfl]
  exact List.mem_cons_self

/-- The second map replaces the first. -/
theorem operators_follow_settings_replaced :
    ∃ before t call after made, setTwice = before ++ .step (.call t call) :: after ∧
      (call.under (globalsAfter before)).request = some chunkRequest ∧
      OptionsInForce before call chunkRequest ∧
      (runHistory setTwice).shared.made[0]? = some made ∧
      (made = chunkRequest ∨ Confusable made chunkRequest) :=
  operators_follow_settings setTwice runHistory_setTwice

end DuckdbOpendal
