import DuckdbOpendal.BuildOperator

/-!
# Creating a secret

`CreateOpenDalSecret` of `opendal_secret.cpp`: the SQL maps of a secret are flattened
into one map, each under its own section name, and `ApplySecret` takes them apart again
into the service configuration and the options.  DuckDB's case-insensitive map is a
parameter here, and `KeepsDistinct` states what the extension relies on.

## Main Definitions

* `copyMap`, `createOpenDalSecret` — creating a secret
* `KeepsDistinct`, `caseInsensitiveTree` — the map a secret is kept in
* `ConfigSection` — the sections of the options

## Main Results

* `mem_secretAssignments`, `nodup_secretAssignments` — what a secret is made of
* `applySecretEntries_eq` — what a secret's entries do to the two maps
* `mem_configEntries`, `mem_optionEntries` — every entry goes where it belongs
-/

namespace DuckdbOpendal

open SortedMap

/-! ## Creating a secret -/

/-- The entries of a `MAP(VARCHAR, VARCHAR)`; a value may be NULL. -/
abbrev MapEntries := List (Bytes × Option Bytes)

/-- `Value::ToString` of a VARCHAR. -/
def valueToString (value : Option Bytes) : Bytes := value.getD (ascii "NULL")

/-- `CreateSecretInput`; an option that is absent or NULL is `none`. -/
structure CreateSecretInput where
  name : Bytes
  type : Bytes
  scope : Bytes
  options : Bytes → Option MapEntries

/-- The entries of one named option, as texts. -/
def CreateSecretInput.entries (input : CreateSecretInput) (name : Bytes) : List (Bytes × Bytes) :=
  ((input.options name).getD []).map fun kv => (kv.1, valueToString kv.2)

/-- `CopyMap`: what it assigns. -/
def copyMap (input : CreateSecretInput) (name pre : Bytes) : List (Bytes × Bytes) :=
  (input.entries name).map fun kv => (pre ++ kv.1, kv.2)

/-- What `CreateOpenDalSecret` assigns, in order. -/
def secretAssignments (input : CreateSecretInput) : List (Bytes × Bytes) :=
  (ascii "__scheme", input.type) :: (copyMap input (ascii "config") (ascii "config.") ++
    copyMap input (ascii "io_config") (ascii "io.") ++
    copyMap input (ascii "retry_config") (ascii "retry.") ++
    copyMap input (ascii "timeout_config") (ascii "timeout.") ++
    copyMap input (ascii "cache_config") (ascii "cache."))

/-- `CreateOpenDalSecret`; `tree` is what a `case_insensitive_tree_t` holds after a
sequence of assignments. -/
def createOpenDalSecret (tree : List (Bytes × Bytes) → List (Bytes × Bytes))
    (input : CreateSecretInput) : Secret :=
  ⟨input.name, input.type, input.scope, some (tree (secretAssignments input))⟩

/-- **What the extension relies on**: keys that differ in more than the case of letters
do not get in each other's way. -/
def KeepsDistinct (tree : List (Bytes × Bytes) → List (Bytes × Bytes)) : Prop :=
  ∀ assignments : List (Bytes × Bytes), (∀ a ∈ assignments, 0 ∉ a.1) →
    (assignments.map fun a => a.1.map toAsciiLowercase).Nodup →
      (tree assignments).Perm assignments

/-! ## Sections -/

/-- The sections `OperatorConfig::parse` knows. -/
inductive ConfigSection where
  | io
  | retry
  | timeout
  | cache
  deriving DecidableEq, Repr

namespace ConfigSection

/-- The name of a section. -/
def name : ConfigSection → Bytes
  | io => ascii "io"
  | retry => ascii "retry"
  | timeout => ascii "timeout"
  | cache => ascii "cache"

/-- The option of `CREATE SECRET` for a section. -/
def parameter : ConfigSection → Bytes
  | io => ascii "io_config"
  | retry => ascii "retry_config"
  | timeout => ascii "timeout_config"
  | cache => ascii "cache_config"

/-- The section of a name. -/
def ofName (name : Bytes) : Option ConfigSection :=
  [io, retry, timeout, cache].find? fun s => s.name = name

theorem dot_notMem_name (s : ConfigSection) : 0x2E ∉ s.name := by
  cases s <;> decide

theorem ofName_name (s : ConfigSection) : ofName s.name = some s := by
  cases s <;> rfl

theorem name_injective {s s' : ConfigSection} (h : s.name = s'.name) : s = s' :=
  Option.some.inj (s.ofName_name.symm.trans (h ▸ s'.ofName_name))

theorem name_of_ofName {name : Bytes} {s : ConfigSection} (h : ofName name = some s) :
    s.name = name := by
  simpa using List.find?_some h

end ConfigSection

/-- A key is split at the dot behind its section. -/
theorem splitOnce_key {sec : Bytes} (hsec : 0x2E ∉ sec) (key : Bytes) :
    Text.splitOnce (ascii ".") (sec ++ ascii "." ++ key) = some (sec, key) := by
  rw [List.append_assoc]
  exact Text.splitOnce_singleton hsec key

theorem key_inj {sec sec' key key' : Bytes} (hsec : 0x2E ∉ sec) (hsec' : 0x2E ∉ sec')
    (h : sec ++ ascii "." ++ key = sec' ++ ascii "." ++ key') : sec = sec' ∧ key = key' := by
  have hsplit := splitOnce_key hsec key
  rw [h, splitOnce_key hsec'] at hsplit
  exact ⟨(Prod.mk.inj (Option.some.inj hsplit)).1.symm,
    (Prod.mk.inj (Option.some.inj hsplit)).2.symm⟩

/-! ## The entries of a secret -/

/-- The entries for the service configuration. -/
def configEntries (es : List (Bytes × Bytes)) : List (Bytes × Bytes) :=
  (es.filter fun e => ascii "config." <+: e.1).map fun e => (e.1.drop 7, e.2)

/-- The entries for the options. -/
def optionEntries (es : List (Bytes × Bytes)) : List (Bytes × Bytes) :=
  es.filter fun e => e.1 ≠ ascii "__scheme" ∧ ¬ ascii "config." <+: e.1

/-- **A secret's entries** go to the two maps. -/
theorem applySecretEntries_eq (es : List (Bytes × Bytes)) (config options : StringMap) :
    es.foldl applySecretEntry (config, options) =
      (config.insertAll (configEntries es), options.insertAll (optionEntries es)) := by
  induction es generalizing config options with
  | nil => rfl
  | cons e es ih =>
      rw [List.foldl_cons, applySecretEntry]
      by_cases hscheme : e.1 = ascii "__scheme"
      · have hconfig : ¬ ascii "config." <+: ascii "__scheme" := by decide
        rw [if_pos hscheme, ih]
        simp [configEntries, optionEntries, hscheme, hconfig]
      · rw [if_neg hscheme]
        by_cases hconfig : ascii "config." <+: e.1
        · rw [if_pos hconfig, ih]
          simp [configEntries, optionEntries, hconfig]
        · rw [if_neg hconfig, ih]
          simp [configEntries, optionEntries, hscheme, hconfig]

/-- Keys that differ in more than the case of letters. -/
def DistinctKeys (es : List (Bytes × Bytes)) : Prop :=
  (es.map fun e => e.1.map toAsciiLowercase).Nodup

theorem DistinctKeys.functional {es : List (Bytes × Bytes)} (h : DistinctKeys es) :
    Functional es := by
  refine functional_of_nodup (List.Nodup.of_map (List.map toAsciiLowercase) ?_)
  rw [List.map_map]
  exact h

/-- The options of a secret, with the section each is stored under. -/
def secretSections : List (Bytes × Bytes) :=
  [(ascii "config", ascii "config"), (ascii "io_config", ascii "io"),
    (ascii "retry_config", ascii "retry"), (ascii "timeout_config", ascii "timeout"),
    (ascii "cache_config", ascii "cache")]

theorem secretAssignments_eq (input : CreateSecretInput) :
    secretAssignments input = (ascii "__scheme", input.type) ::
      secretSections.flatMap fun sec => (input.entries sec.1).map fun kv =>
        (sec.2 ++ ascii "." ++ kv.1, kv.2) := by
  simp only [secretAssignments, secretSections, copyMap, List.flatMap_cons, List.flatMap_nil,
    List.append_nil, List.append_assoc]
  rfl

theorem mem_secretSections {sec : Bytes × Bytes} :
    sec ∈ secretSections ↔ sec = (ascii "config", ascii "config") ∨
      ∃ s : ConfigSection, sec = (s.parameter, s.name) := by
  constructor
  · intro h
    simp only [secretSections, List.mem_cons, List.not_mem_nil, or_false] at h
    rcases h with rfl | rfl | rfl | rfl | rfl
    · exact Or.inl rfl
    · exact Or.inr ⟨.io, rfl⟩
    · exact Or.inr ⟨.retry, rfl⟩
    · exact Or.inr ⟨.timeout, rfl⟩
    · exact Or.inr ⟨.cache, rfl⟩
  · rintro (rfl | ⟨s, rfl⟩)
    · exact List.mem_cons_self
    · cases s <;> simp [secretSections, ConfigSection.parameter, ConfigSection.name]

section Assignments

variable {input : CreateSecretInput}

/-- What a secret is made of. -/
theorem mem_secretAssignments {key value : Bytes} :
    (key, value) ∈ secretAssignments input ↔
      (key, value) = (ascii "__scheme", input.type) ∨
      (∃ k, (k, value) ∈ input.entries (ascii "config") ∧ key = ascii "config." ++ k) ∨
      ∃ s : ConfigSection, ∃ k, (k, value) ∈ input.entries s.parameter ∧
        key = s.name ++ ascii "." ++ k := by
  rw [secretAssignments_eq, List.mem_cons]
  refine or_congr_right ?_
  simp only [List.mem_flatMap, List.mem_map, mem_secretSections]
  constructor
  · rintro ⟨sec, rfl | ⟨s, rfl⟩, ⟨k, v⟩, hmem, heq⟩
    · obtain ⟨rfl, rfl⟩ := Prod.mk.inj heq
      exact Or.inl ⟨k, hmem, rfl⟩
    · obtain ⟨rfl, rfl⟩ := Prod.mk.inj heq
      exact Or.inr ⟨s, k, hmem, rfl⟩
  · rintro (⟨k, hmem, rfl⟩ | ⟨s, k, hmem, rfl⟩)
    · exact ⟨_, Or.inl rfl, ⟨k, value⟩, hmem, rfl⟩
    · exact ⟨_, Or.inr ⟨s, rfl⟩, ⟨k, value⟩, hmem, rfl⟩

theorem not_config_of_section (s : ConfigSection) (k : Bytes) :
    ¬ ascii "config." <+: s.name ++ ascii "." ++ k := by
  have hlen : ∀ l : Bytes, (ascii "config.").length ≤ l.length →
      (ascii "config." <+: l ++ k ↔ ascii "config." <+: l) := fun l h =>
    Text.prefix_append_iff h
  cases s <;> simp [ConfigSection.name, ascii, List.cons_prefix_cons]

theorem mem_configEntries {key value : Bytes} :
    (key, value) ∈ configEntries (secretAssignments input) ↔
      (key, value) ∈ input.entries (ascii "config") := by
  simp only [configEntries, List.mem_map, List.mem_filter, decide_eq_true_eq]
  constructor
  · rintro ⟨⟨k, v⟩, ⟨hmem, hconfig⟩, heq⟩
    obtain ⟨rfl, rfl⟩ := Prod.mk.inj heq
    rcases mem_secretAssignments.mp hmem with h | ⟨k', hk', rfl⟩ | ⟨s, k', -, rfl⟩
    · have hscheme : ¬ ascii "config." <+: ascii "__scheme" := by decide
      obtain ⟨rfl, -⟩ := Prod.mk.inj h
      exact absurd hconfig hscheme
    · exact hk'
    · exact absurd hconfig (not_config_of_section s k')
  · intro hmem
    exact ⟨(ascii "config." ++ key, value),
      ⟨mem_secretAssignments.mpr (Or.inr (Or.inl ⟨key, hmem, rfl⟩)), List.prefix_append _ _⟩, rfl⟩

theorem mem_optionEntries {key value : Bytes} :
    (key, value) ∈ optionEntries (secretAssignments input) ↔
      ∃ s : ConfigSection, ∃ k, (k, value) ∈ input.entries s.parameter ∧
        key = s.name ++ ascii "." ++ k := by
  simp only [optionEntries, List.mem_filter, decide_eq_true_eq]
  constructor
  · rintro ⟨hmem, hscheme, hconfig⟩
    rcases mem_secretAssignments.mp hmem with h | ⟨k', -, rfl⟩ | h
    · cases h
      exact absurd rfl hscheme
    · exact absurd (List.prefix_append _ _) hconfig
    · exact h
  · rintro ⟨s, k, hmem, rfl⟩
    refine ⟨mem_secretAssignments.mpr (Or.inr (Or.inr ⟨s, k, hmem, rfl⟩)), ?_,
      not_config_of_section s k⟩
    cases s <;> simp [ConfigSection.name, ascii]

/-- The keys of a secret differ in more than the case of letters when those of each option
do. -/
theorem nodup_secretAssignments (hconfig : DistinctKeys (input.entries (ascii "config")))
    (hsections : ∀ s : ConfigSection, DistinctKeys (input.entries s.parameter)) :
    DistinctKeys (secretAssignments input) := by
  have hlower : ∀ sec ∈ secretSections, 0x2E ∉ sec.2 ∧ sec.2.map toAsciiLowercase = sec.2 := by
    decide
  have hscheme : (ascii "__scheme").map toAsciiLowercase = ascii "__scheme" := by decide
  -- The section in front of a key is in lower case already.
  have hkeys : (secretAssignments input).map (fun e => e.1.map toAsciiLowercase) =
      ascii "__scheme" :: secretSections.flatMap fun sec => (input.entries sec.1).map fun kv =>
        sec.2 ++ ascii "." ++ kv.1.map toAsciiLowercase := by
    rw [secretAssignments_eq, List.map_cons, List.map_flatMap]
    refine congrArg₂ List.cons hscheme (List.flatMap_congr fun sec hsec => ?_)
    rw [List.map_map]
    refine List.map_congr_left fun kv _ => ?_
    simp only [Function.comp_apply, List.map_append, (hlower sec hsec).2]
    rfl
  rw [DistinctKeys, hkeys, List.nodup_cons, List.nodup_flatMap]
  refine ⟨?_, fun sec hsec => ?_, ?_⟩
  · intro h
    obtain ⟨sec, hsec, h⟩ := List.mem_flatMap.mp h
    obtain ⟨kv, -, heq⟩ := List.mem_map.mp h
    -- No section starts as `__scheme` does.
    have hhead : ∀ sec ∈ secretSections, sec.2.head? ≠ some 0x5F ∧ sec.2 ≠ [] := by decide
    obtain ⟨hne, hnil⟩ := hhead sec hsec
    have hfirst := congrArg List.head? heq
    rw [List.append_assoc, List.head?_append_of_ne_nil _ hnil] at hfirst
    exact hne hfirst
  · have hdistinct : DistinctKeys (input.entries sec.1) := by
      rcases mem_secretSections.mp hsec with rfl | ⟨s, rfl⟩
      · exact hconfig
      · exact hsections s
    rw [DistinctKeys] at hdistinct
    have hmap := hdistinct.map (f := fun key => sec.2 ++ ascii "." ++ key)
      fun _ _ h => List.append_cancel_left h
    rwa [List.map_map] at hmap
  · have hnames : secretSections.Pairwise fun sec sec' => sec.2 ≠ sec'.2 := by decide
    refine hnames.imp_of_mem fun {sec sec'} hsec hsec' hne => ?_
    intro key hkey hkey'
    obtain ⟨kv, -, rfl⟩ := List.mem_map.mp hkey
    obtain ⟨kv', -, heq⟩ := List.mem_map.mp hkey'
    exact hne (key_inj (hlower sec' hsec').1 (hlower sec hsec).1 heq).1.symm

end Assignments

/-! ## A case-insensitive map -/

/-- A map that ignores the case of letters: in the order of the keys in lower case, each
with its first spelling and its last value. -/
def caseInsensitiveTree (assignments : List (Bytes × Bytes)) : List (Bytes × Bytes) :=
  (assignments.foldl (fun m a =>
    let key := a.1.map toAsciiLowercase
    m.insert key (((m.find? key).map Prod.fst).getD a.1, a.2))
    (∅ : SortedMap Bytes (Bytes × Bytes))).entries.map Prod.snd

theorem caseInsensitiveTree_keepsDistinct : KeepsDistinct caseInsensitiveTree := by
  intro assignments _ hnodup
  let keyed := fun a : Bytes × Bytes => (a.1.map toAsciiLowercase, a)
  -- Every key is new when it is assigned, so it is stored as it is spelled.
  have hfold : ∀ (as : List (Bytes × Bytes)) (m : SortedMap Bytes (Bytes × Bytes)),
      (as.map fun a => a.1.map toAsciiLowercase).Nodup →
      (∀ a ∈ as, m.find? (a.1.map toAsciiLowercase) = none) →
      as.foldl (fun m a =>
        let key := a.1.map toAsciiLowercase
        m.insert key (((m.find? key).map Prod.fst).getD a.1, a.2)) m =
          m.insertAll (as.map keyed) := by
    intro as
    induction as with
    | nil => intro m _ _; rfl
    | cons a as ih =>
        intro m hnodup hnew
        obtain ⟨hfresh, hrest⟩ := List.nodup_cons.mp hnodup
        have hspelled : ((m.find? (a.1.map toAsciiLowercase)).map Prod.fst).getD a.1 = a.1 := by
          rw [hnew a List.mem_cons_self]
          rfl
        rw [List.foldl_cons, List.map_cons, insertAll_cons]
        simp only [hspelled]
        refine ih _ hrest fun a' ha' => ?_
        have hne : a'.1.map toAsciiLowercase ≠ a.1.map toAsciiLowercase := fun h =>
          hfresh (List.mem_map.mpr ⟨a', ha', h⟩)
        rw [find?_insert, if_neg hne]
        exact hnew a' (List.mem_cons_of_mem _ ha')
  have hkeys : ((assignments.map keyed).map Prod.fst).Nodup := by
    rw [List.map_map]
    exact hnodup
  rw [caseInsensitiveTree, hfold _ _ hnodup fun _ _ => rfl]
  have hperm := (entries_insertAll_perm hkeys).map Prod.snd
  rw [List.map_map] at hperm
  exact hperm.trans (List.Perm.of_eq (List.map_id _))

end DuckdbOpendal
