import DuckdbOpendal.CreateSecret
import DuckdbOpendal.Table

/-!
# The configuration of an operator

A setting reaches the parsers of `opendal/src/config` in five steps: the SQL maps of a
secret are flattened under prefixes, the global settings under theirs, the secret is
merged over the settings, the entries cross the boundary as parallel C arrays, and
`OperatorConfig::parse` splits the keys at the first dot again.

## Main Definitions

* `collectPairs`, `parseSections`, `operatorInput` — reading the arrays back
* `expectedSection` — the global section overridden by the secret's
* `ArrivesAsGiven` — each part of the configuration as it should arrive

## Main Results

* `find?_globalConfigSnapshot`, `parseSections_entries` — flattening and splitting
* `mergedConfig_eq`, `find?_mergedOptions` — the merged request
* `operatorInput_iff` — when each part of the configuration arrives as it was given
-/

namespace DuckdbOpendal

open SortedMap

/-! ## Reading the arrays -/

/-- `collect_pairs`, from an index on. -/
def collectPairsFrom (i : ℕ) : List (Bytes × Bytes) → Except Bytes (List (Bytes × Bytes))
  | [] => .ok []
  | (key, value) :: pairs =>
      match cstr key with
      | none => .error (ascii "key #" ++ decimal i ++ ascii " invalid")
      | some k =>
          match cstr value with
          | none => .error (ascii "value for '" ++ k ++ ascii "' invalid")
          | some v => do
              let out ← collectPairsFrom (i + 1) pairs
              return (k, v) :: out

/-- `collect_pairs`. -/
def collectPairs (pairs : List (Bytes × Bytes)) : Except Bytes (List (Bytes × Bytes)) :=
  collectPairsFrom 0 pairs

/-- The loop of `OperatorConfig::parse`. -/
def splitSections (sections : SortedMap Bytes StringMap) :
    List (Bytes × Bytes) → Except Bytes (SortedMap Bytes StringMap)
  | [] => .ok sections
  | (key, value) :: values =>
      match Text.splitOnce (ascii ".") key with
      | none => .error (ascii "unknown OpenDAL option '" ++ key ++ ascii "'")
      | some (sec, key) =>
          if ConfigSection.ofName sec = none then
            .error (ascii "unknown OpenDAL option '" ++ sec ++ ascii "." ++ key ++ ascii "'")
          else
            splitSections
              (sections.insert sec (((sections.find? sec).getD ∅).insert key value)) values

/-- What `OperatorConfig::parse` hands to the parser of each section. -/
def parseSections (values : List (Bytes × Bytes)) : Except Bytes (ConfigSection → StringMap) := do
  let sections ← splitSections ∅ values
  return fun s => (sections.find? s.name).getD ∅

/-- What `od_operator_new` has read before it parses a section: the service
configuration for `OperatorUri::new`, and the sections. -/
structure OperatorInput where
  config : List (Bytes × Bytes)
  sections : ConfigSection → StringMap

/-- The beginning of `od_operator_new`. -/
def operatorInput (args : OperatorArgs) : Except OdError OperatorInput := do
  let _ ← requireCstr args.uri "uri is null or not UTF-8"
  let config ← invalidInput (collectPairs args.config)
  let options ← invalidInput (collectPairs args.options)
  let sections ← invalidInput (parseSections options)
  return ⟨config, sections⟩

/-! ## What should arrive -/

/-- The entries of one option of a secret, as a map. -/
def CreateSecretInput.map (input : CreateSecretInput) (name : Bytes) : StringMap :=
  (∅ : StringMap).insertAll (input.entries name)

/-- The global section overridden by the secret's. -/
def expectedSection (globals : GlobalConfig) (input : CreateSecretInput) (s : ConfigSection) :
    StringMap :=
  ((globals.find? s.name).getD ∅).override (input.map s.parameter)

/-- A text that can cross the boundary: UTF-8, without a NUL. -/
def IsCString (text : Bytes) : Prop := 0 ∉ text ∧ Utf8.isUtf8 text = true

instance (text : Bytes) : Decidable (IsCString text) := inferInstanceAs (Decidable (_ ∧ _))

/-- The texts of a map can cross the boundary. -/
def CStrings (m : StringMap) : Prop := ∀ e ∈ m.entries, IsCString e.1 ∧ IsCString e.2

instance (m : StringMap) : Decidable (CStrings m) :=
  inferInstanceAs (Decidable (∀ e ∈ m.entries, IsCString e.1 ∧ IsCString e.2))

/-! ## The global settings -/

/-- The settings under their flat keys. -/
def flatEntries (g : GlobalConfig) : List (Bytes × Bytes) :=
  g.entries.flatMap fun sec => sec.2.entries.map fun e => (sec.1 ++ ascii "." ++ e.1, e.2)

theorem globalConfigSnapshot_eq (g : GlobalConfig) :
    globalConfigSnapshot g = (∅ : StringMap).insertAll (flatEntries g) := by
  rw [globalConfigSnapshot, insertAll, flatEntries, List.foldl_flatMap]
  congr 1
  funext result sec
  rw [List.foldl_map]

section Globals

variable {g : GlobalConfig} (hg : ∀ sec ∈ g.entries, 0x2E ∉ sec.1)
include hg

theorem mem_flatEntries {sec key value : Bytes} (hsec : 0x2E ∉ sec) :
    (sec ++ ascii "." ++ key, value) ∈ flatEntries g ↔
      ((g.find? sec).getD ∅).find? key = some value := by
  simp only [flatEntries, List.mem_flatMap, List.mem_map]
  constructor
  · rintro ⟨⟨sec', m⟩, hm, ⟨key', value'⟩, he, heq⟩
    obtain ⟨hkey, rfl⟩ := Prod.mk.inj heq
    obtain ⟨rfl, rfl⟩ := key_inj (hg _ hm) hsec hkey
    rw [find?_eq_some_iff.mpr hm]
    exact find?_eq_some_iff.mpr he
  · intro h
    cases hm : g.find? sec with
    | none =>
        rw [hm] at h
        cases h
    | some m =>
        rw [hm] at h
        exact ⟨⟨sec, m⟩, find?_eq_some_iff.mp hm, ⟨key, value⟩, find?_eq_some_iff.mp h, rfl⟩

theorem functional_flatEntries : Functional (flatEntries g) := by
  -- No name of a section has a dot, so a flat key tells its section.
  intro k v v' hv hv'
  obtain ⟨⟨sec, m⟩, hm, he⟩ := List.mem_flatMap.mp hv
  obtain ⟨⟨key, value⟩, -, heq⟩ := List.mem_map.mp he
  obtain ⟨rfl, rfl⟩ := Prod.mk.inj heq
  rw [mem_flatEntries hg (hg _ hm)] at hv hv'
  exact Option.some.inj (hv.symm.trans hv')

/-- **Flattening the settings** loses nothing. -/
theorem find?_globalConfigSnapshot {sec : Bytes} (hsec : 0x2E ∉ sec) (key : Bytes) :
    (globalConfigSnapshot g).find? (sec ++ ascii "." ++ key) =
      ((g.find? sec).getD ∅).find? key := by
  ext value
  rw [globalConfigSnapshot_eq, find?_insertAll (functional_flatEntries hg),
    mem_flatEntries hg hsec]
  simp

end Globals

theorem exists_of_find?_globalConfigSnapshot {g : GlobalConfig} {key value : Bytes}
    (h : (globalConfigSnapshot g).find? key = some value) :
    ∃ sec ∈ g.entries, ∃ k, key = sec.1 ++ ascii "." ++ k := by
  rw [globalConfigSnapshot_eq] at h
  rcases mem_or_of_find?_insertAll h with hmem | hempty
  · obtain ⟨sec, hsec, he⟩ := List.mem_flatMap.mp hmem
    obtain ⟨e, -, heq⟩ := List.mem_map.mp he
    exact ⟨sec, hsec, e.1, (congrArg Prod.fst heq).symm⟩
  · cases hempty

/-! ## Reading the arrays back -/

theorem isCString_of_cstr {s t : Bytes} (h : cstr s = some t) : IsCString t := by
  obtain ⟨hutf8, rfl⟩ := cstr_eq_some_iff.mp h
  exact ⟨notMem_cStr s, hutf8⟩

theorem cstr_cStr_of_isCString {s : Bytes} (h : IsCString s) : cstr (cStr s) = some s := by
  rw [cStr_of_notMem h.1, cstr_of_utf8 h.1 h.2]

/-- An entry as the C strings that point to it. -/
def cStrEntry (e : Bytes × Bytes) : Bytes × Bytes := (cStr e.1, cStr e.2)

theorem cStrEntry_eq_self_iff {e : Bytes × Bytes} : cStrEntry e = e ↔ 0 ∉ e.1 ∧ 0 ∉ e.2 := by
  rw [Prod.ext_iff]
  exact and_congr cStr_eq_self_iff cStr_eq_self_iff

theorem cStrEntry_cStrEntry (e : Bytes × Bytes) : cStrEntry (cStrEntry e) = cStrEntry e :=
  cStrEntry_eq_self_iff.mpr ⟨notMem_cStr e.1, notMem_cStr e.2⟩

/-- **What `collect_pairs` reads**: the C strings, if each is UTF-8. -/
theorem collectPairsFrom_eq_ok {i : ℕ} {pairs out : List (Bytes × Bytes)} :
    collectPairsFrom i pairs = .ok out ↔
      (∀ e ∈ pairs, Utf8.isUtf8 (cStr e.1) = true ∧ Utf8.isUtf8 (cStr e.2) = true) ∧
        out = pairs.map cStrEntry := by
  induction pairs generalizing i out with
  | nil =>
      constructor
      · intro h
        cases h
        exact ⟨by simp, rfl⟩
      · rintro ⟨-, rfl⟩
        rfl
  | cons pair pairs ih =>
      rw [List.forall_mem_cons, List.map_cons, collectPairsFrom]
      constructor
      · intro h
        split at h
        · cases h
        rename_i k hk
        split at h
        · cases h
        rename_i v hv
        obtain ⟨rest, hrest, h⟩ := bind_eq_ok.mp h
        cases h
        obtain ⟨hutf8, rfl⟩ := ih.mp hrest
        obtain ⟨hkey, rfl⟩ := cstr_eq_some_iff.mp hk
        obtain ⟨hvalue, rfl⟩ := cstr_eq_some_iff.mp hv
        exact ⟨⟨⟨hkey, hvalue⟩, hutf8⟩, rfl⟩
      · rintro ⟨⟨⟨hkey, hvalue⟩, hutf8⟩, rfl⟩
        rw [cstr_eq_some_iff.mpr ⟨hkey, rfl⟩, cstr_eq_some_iff.mpr ⟨hvalue, rfl⟩]
        simp only [ih.mpr ⟨hutf8, rfl⟩, ok_bind]
        rfl

/-- What `collect_pairs` returns has crossed the boundary. -/
theorem isCString_of_collectPairsFrom {i : ℕ} {pairs out : List (Bytes × Bytes)}
    (h : collectPairsFrom i pairs = .ok out) : ∀ e ∈ out, IsCString e.1 ∧ IsCString e.2 := by
  obtain ⟨hutf8, rfl⟩ := collectPairsFrom_eq_ok.mp h
  intro e he
  obtain ⟨pair, hpair, rfl⟩ := List.mem_map.mp he
  exact ⟨⟨notMem_cStr _, (hutf8 pair hpair).1⟩, notMem_cStr _, (hutf8 pair hpair).2⟩

/-- Texts that can cross the boundary are read back as they are. -/
theorem collectPairsFrom_eq (i : ℕ) {entries : List (Bytes × Bytes)}
    (h : ∀ e ∈ entries, IsCString e.1 ∧ IsCString e.2) :
    collectPairsFrom i (entries.map fun e => (cStr e.1, cStr e.2)) = .ok entries := by
  have hself : entries.map cStrEntry = entries := by
    refine (List.map_congr_left fun e he => ?_).trans (List.map_id _)
    exact cStrEntry_eq_self_iff.mpr ⟨(h e he).1.1, (h e he).2.1⟩
  show collectPairsFrom i (entries.map cStrEntry) = .ok entries
  rw [hself, collectPairsFrom_eq_ok, hself]
  refine ⟨fun e he => ?_, rfl⟩
  rw [cStr_of_notMem (h e he).1.1, cStr_of_notMem (h e he).2.1]
  exact ⟨(h e he).1.2, (h e he).2.2⟩

/-- The entries of one section. -/
def sectionEntries (s : ConfigSection) (values : List (Bytes × Bytes)) : List (Bytes × Bytes) :=
  values.filterMap fun e =>
    match Text.splitOnce (ascii ".") e.1 with
    | some (sec, key) => if sec = s.name then some (key, e.2) else none
    | none => none

theorem sectionEntries_cons_of_key {s : ConfigSection} {key value : Bytes}
    (values : List (Bytes × Bytes)) :
    sectionEntries s ((s.name ++ ascii "." ++ key, value) :: values) =
      (key, value) :: sectionEntries s values := by
  simp only [sectionEntries, List.filterMap_cons, splitOnce_key s.dot_notMem_name, if_true]

theorem sectionEntries_cons_of_ne {s : ConfigSection} {e : Bytes × Bytes}
    (he : ∀ key, e.1 ≠ s.name ++ ascii "." ++ key) (values : List (Bytes × Bytes)) :
    sectionEntries s (e :: values) = sectionEntries s values := by
  rw [sectionEntries, List.filterMap_cons_none]
  · rfl
  · split
    · rename_i sec key hsplit
      refine if_neg ?_
      rintro rfl
      exact he key (Text.splitOnce_eq_some hsplit)
    · rfl

/-- **The loop of `OperatorConfig::parse`** sends every entry to its section. -/
theorem splitSections_eq {values : List (Bytes × Bytes)}
    {sections sections' : SortedMap Bytes StringMap}
    (h : splitSections sections values = .ok sections') (s : ConfigSection) :
    (sections'.find? s.name).getD ∅ =
      ((sections.find? s.name).getD ∅).insertAll (sectionEntries s values) := by
  induction values generalizing sections with
  | nil =>
      cases h
      rfl
  | cons e values ih =>
      rw [splitSections] at h
      split at h
      · cases h
      rename_i sec key hsplit
      split at h
      · cases h
      obtain ⟨k, value⟩ := e
      obtain rfl := Text.splitOnce_eq_some hsplit
      rw [ih h, find?_insert]
      -- An entry of the section is inserted into it, any other leaves it as it was.
      by_cases hsec : s.name = sec
      · subst hsec
        rw [if_pos rfl, sectionEntries_cons_of_key, insertAll_cons]
        rfl
      · have hne : ∀ key', sec ++ ascii "." ++ key ≠ s.name ++ ascii "." ++ key' :=
          fun key' heq => hsec (key_inj (Text.notMem_of_splitOnce_singleton hsplit)
            s.dot_notMem_name heq).1.symm
        rw [if_neg hsec, sectionEntries_cons_of_ne hne]

/-- Keys with a known section are accepted. -/
theorem exists_splitSections {values : List (Bytes × Bytes)}
    (h : ∀ e ∈ values, ∃ s : ConfigSection, ∃ key, e.1 = s.name ++ ascii "." ++ key)
    (sections : SortedMap Bytes StringMap) :
    ∃ sections', splitSections sections values = .ok sections' := by
  induction values generalizing sections with
  | nil => exact ⟨sections, rfl⟩
  | cons e values ih =>
      obtain ⟨s, key, hkey⟩ := h e List.mem_cons_self
      rw [splitSections, hkey, splitOnce_key s.dot_notMem_name]
      simp only [s.ofName_name, reduceCtorEq, if_false]
      exact ih (fun e he => h e (List.mem_cons_of_mem _ he)) _

/-- Accepted keys have a known section. -/
theorem exists_section_of_splitSections {values : List (Bytes × Bytes)}
    {sections sections' : SortedMap Bytes StringMap}
    (h : splitSections sections values = .ok sections') :
    ∀ e ∈ values, ∃ s : ConfigSection, ∃ key, e.1 = s.name ++ ascii "." ++ key := by
  induction values generalizing sections with
  | nil => simp
  | cons e values ih =>
      rw [splitSections] at h
      split at h
      · cases h
      rename_i sec key hsplit
      split at h
      · cases h
      rename_i hsec
      obtain ⟨s, hs⟩ := Option.ne_none_iff_exists'.mp hsec
      refine List.forall_mem_cons.mpr ⟨⟨s, key, ?_⟩, ih h⟩
      rw [ConfigSection.name_of_ofName hs]
      exact Text.splitOnce_eq_some hsplit

/-- A key has the same last value in its section. -/
theorem lastValue_sectionEntries (s : ConfigSection) (key : Bytes)
    (values : List (Bytes × Bytes)) :
    lastValue key (sectionEntries s values) = lastValue (s.name ++ ascii "." ++ key) values := by
  induction values with
  | nil => rfl
  | cons e values ih =>
      obtain ⟨k, value⟩ := e
      by_cases hk : ∃ k', k = s.name ++ ascii "." ++ k'
      · obtain ⟨k, rfl⟩ := hk
        rw [sectionEntries_cons_of_key, lastValue, ih, lastValue]
        by_cases hkey : key = k
        · rw [if_pos hkey, if_pos (congrArg _ hkey)]
        · rw [if_neg hkey, if_neg fun h => hkey (List.append_cancel_left h)]
      · have hne : ∀ k', k ≠ s.name ++ ascii "." ++ k' := fun k' h => hk ⟨k', h⟩
        rw [sectionEntries_cons_of_ne hne, ih, lastValue, if_neg (hne key).symm,
          Option.or_none]

/-- **What a section is handed**: the last value listed for each key. -/
theorem find?_of_parseSections {values : List (Bytes × Bytes)}
    {sections : ConfigSection → StringMap} (h : parseSections values = .ok sections)
    (s : ConfigSection) (key : Bytes) :
    (sections s).find? key = lastValue (s.name ++ ascii "." ++ key) values := by
  obtain ⟨maps, hmaps, h⟩ := bind_eq_ok.mp h
  cases h
  simp only [splitSections_eq hmaps]
  rw [find?_insertAll_eq, lastValue_sectionEntries]
  exact Option.or_none

/-- Keys are accepted if they name a section. -/
theorem exists_parseSections_iff {values : List (Bytes × Bytes)} :
    (∃ sections, parseSections values = .ok sections) ↔
      ∀ e ∈ values, ∃ s : ConfigSection, ∃ key, e.1 = s.name ++ ascii "." ++ key := by
  constructor
  · rintro ⟨sections, h⟩
    obtain ⟨maps, hmaps, -⟩ := bind_eq_ok.mp h
    exact exists_section_of_splitSections hmaps
  · intro h
    obtain ⟨maps, hmaps⟩ := exists_splitSections h ∅
    exact ⟨_, bind_eq_ok.mpr ⟨maps, hmaps, rfl⟩⟩

/-! ## From the settings to the sections -/

section Merge

variable {tree : List (Bytes × Bytes) → List (Bytes × Bytes)} {input : CreateSecretInput}
  {globals : GlobalConfig}

/-- The options of the merged request. -/
def mergedOptions (tree : List (Bytes × Bytes) → List (Bytes × Bytes)) (globals : GlobalConfig)
    (input : CreateSecretInput) : StringMap :=
  (globalConfigSnapshot globals).insertAll (optionEntries (tree (secretAssignments input)))

/-- The service configuration of the merged request. -/
def mergedConfig (tree : List (Bytes × Bytes) → List (Bytes × Bytes)) (input : CreateSecretInput) :
    StringMap :=
  (∅ : StringMap).insertAll (configEntries (tree (secretAssignments input)))

/-- **The request of a call** that matches a secret of the extension. -/
theorem request_of_matched {c : BuildCall}
    (hmatched : c.matchedSecret = some (createOpenDalSecret tree input)) :
    c.request = some ⟨c.scheme, c.authority, mergedConfig tree input,
      mergedOptions tree c.session.globals input⟩ := by
  rw [BuildCall.request_eq, hmatched]
  simp only [createOpenDalSecret, Option.map_some, applySecretEntries_eq]
  rfl

variable (hperm : (tree (secretAssignments input)).Perm (secretAssignments input))
  (hconfig : DistinctKeys (input.entries (ascii "config")))
  (hsections : ∀ s : ConfigSection, DistinctKeys (input.entries s.parameter))
include hperm

include hconfig in
/-- **The service configuration** is the secret's. -/
theorem mergedConfig_eq : mergedConfig tree input = input.map (ascii "config") := by
  have hmem : ∀ e, e ∈ configEntries (tree (secretAssignments input)) ↔
      e ∈ input.entries (ascii "config") := by
    rintro ⟨key, value⟩
    rw [← mem_configEntries]
    exact ((hperm.filter _).map _).mem_iff
  have hfunctional : Functional (configEntries (tree (secretAssignments input))) := by
    intro k v v' hv hv'
    exact hconfig.functional k v v' ((hmem _).mp hv) ((hmem _).mp hv')
  apply ext_find?
  intro key
  ext value
  rw [mergedConfig, CreateSecretInput.map, find?_insertAll hfunctional,
    find?_insertAll hconfig.functional]
  simp only [hmem]

include hsections

theorem mem_optionEntries_tree {s : ConfigSection} {key value : Bytes} :
    (s.name ++ ascii "." ++ key, value) ∈ optionEntries (tree (secretAssignments input)) ↔
      (input.map s.parameter).find? key = some value := by
  have hfilter : (optionEntries (tree (secretAssignments input))).Perm
      (optionEntries (secretAssignments input)) := hperm.filter _
  rw [hfilter.mem_iff, mem_optionEntries, CreateSecretInput.map,
    find?_insertAll (hsections s).functional]
  constructor
  · rintro ⟨s', key', hmem, heq⟩
    obtain ⟨hname, rfl⟩ := key_inj s.dot_notMem_name s'.dot_notMem_name heq
    exact Or.inl (ConfigSection.name_injective hname ▸ hmem)
  · rintro (hmem | ⟨-, hempty⟩)
    · exact ⟨s, key, hmem, rfl⟩
    · cases hempty

theorem functional_optionEntries_tree :
    Functional (optionEntries (tree (secretAssignments input))) := by
  intro k v v' hv hv'
  obtain ⟨s, key, -, rfl⟩ := mem_optionEntries.mp ((hperm.filter _).mem_iff.mp hv)
  rw [mem_optionEntries_tree hperm hsections] at hv hv'
  exact Option.some.inj (hv.symm.trans hv')

/-- **The options** hold each section as it should arrive. -/
theorem find?_mergedOptions
    (hglobals : ∀ sec ∈ globals.entries, ∃ s : ConfigSection, sec.1 = s.name)
    (s : ConfigSection) (key : Bytes) :
    (mergedOptions tree globals input).find? (s.name ++ ascii "." ++ key) =
      (expectedSection globals input s).find? key := by
  have hdots : ∀ sec ∈ globals.entries, 0x2E ∉ sec.1 := by
    intro sec hsec
    obtain ⟨s, hs⟩ := hglobals sec hsec
    exact hs ▸ s.dot_notMem_name
  ext value
  rw [mergedOptions, find?_insertAll (functional_optionEntries_tree hperm hsections),
    mem_optionEntries_tree hperm hsections, find?_globalConfigSnapshot hdots s.dot_notMem_name,
    expectedSection, find?_override]
  simp only [mem_optionEntries_tree hperm hsections]
  cases (input.map s.parameter).find? key <;> simp

omit hsections in
theorem exists_section_of_mergedOptions
    (hglobals : ∀ sec ∈ globals.entries, ∃ s : ConfigSection, sec.1 = s.name) {key value : Bytes}
    (h : (mergedOptions tree globals input).find? key = some value) :
    ∃ s : ConfigSection, ∃ k, key = s.name ++ ascii "." ++ k := by
  rcases mem_or_of_find?_insertAll h with hmem | hfind
  · obtain ⟨s, k, -, hkey⟩ := mem_optionEntries.mp ((hperm.filter _).mem_iff.mp hmem)
    exact ⟨s, k, hkey⟩
  · obtain ⟨sec, hsec, k, hkey⟩ := exists_of_find?_globalConfigSnapshot hfind
    obtain ⟨s, hs⟩ := hglobals sec hsec
    exact ⟨s, k, hs ▸ hkey⟩

end Merge

/-- Splitting a map's entries again gives every section its own. -/
theorem parseSections_entries {options : StringMap}
    (h : ∀ key value, options.find? key = some value →
      ∃ s : ConfigSection, ∃ k, key = s.name ++ ascii "." ++ k) :
    ∃ sections, parseSections options.entries = .ok sections ∧
      ∀ s key, (sections s).find? key = options.find? (s.name ++ ascii "." ++ key) := by
  obtain ⟨sections, hsections⟩ := exists_parseSections_iff.mpr
    fun e he => h e.1 e.2 (find?_eq_some_iff.mpr he)
  refine ⟨sections, hsections, fun s key => ?_⟩
  rw [find?_of_parseSections hsections, lastValue_entries]

/-- Every entry of a section has been among the options. -/
theorem mem_of_parseSections {values : List (Bytes × Bytes)} {sections : ConfigSection → StringMap}
    (h : parseSections values = .ok sections) {s : ConfigSection} {key value : Bytes}
    (hmem : (key, value) ∈ (sections s).entries) :
    (s.name ++ ascii "." ++ key, value) ∈ values := by
  rw [← find?_eq_some_iff, find?_of_parseSections h] at hmem
  exact mem_of_lastValue hmem

/-- A key can cross the boundary with its section if and only if it can without. -/
theorem isCString_key (s : ConfigSection) (key : Bytes) :
    IsCString (s.name ++ ascii "." ++ key) ↔ IsCString key := by
  have hname : IsCString (s.name ++ ascii ".") := by
    cases s <;> decide
  rw [IsCString, IsCString, Utf8.isUtf8_append hname.2, List.mem_append, not_or]
  simp [hname.1]

/-- The URI of a request is a C string. -/
theorem isCString_uri {registry : Registry} {session : Session} {url : Bytes} {c : BuildCall}
    {r : Request} (hcall : operatorFor registry session url = some c)
    (hr : c.request = some r) : IsCString r.uri := by
  obtain ⟨u, hu, rfl⟩ := Option.map_eq_some_iff.mp hcall
  have hwell := wellFormed_of_parseUrl hu
  have huri : r.uri = u.scheme ++ schemeSep ++ u.authority := by
    rw [BuildCall.request_eq] at hr
    split at hr
    · cases hr
      rfl
    · obtain ⟨entries, -, rfl⟩ := Option.map_eq_some_iff.mp hr
      rfl
  rw [huri]
  exact cString_uri hwell.scheme hwell.authority_utf8 hwell.authority_plain

/-! ## What arrives -/

/-- Each part of the configuration arrives as it was given: the service configuration is
the secret's, and each section the global one overridden by the secret's. -/
def ArrivesAsGiven (c : BuildCall) (input : CreateSecretInput) : Prop :=
  ∃ request handed, c.request = some request ∧
    operatorInput request.operatorArgs = .ok handed ∧
    handed.config = (input.map (ascii "config")).entries ∧
    ∀ s, handed.sections s = expectedSection c.session.globals input s

section Arrival

variable {registry : Registry} {session : Session} {url : Bytes} {c : BuildCall}
  {tree : List (Bytes × Bytes) → List (Bytes × Bytes)} {input : CreateSecretInput}

/-- What has arrived as it was given has crossed the boundary unchanged. -/
theorem cStrings_of_arrives (h : ArrivesAsGiven c input) :
    CStrings (input.map (ascii "config")) ∧
      ∀ s, CStrings (expectedSection c.session.globals input s) := by
  obtain ⟨request, handed, -, hread, hconfig, hsections⟩ := h
  obtain ⟨-, -, hread⟩ := bind_eq_ok.mp hread
  obtain ⟨config, hpairs, hread⟩ := bind_eq_ok.mp hread
  obtain ⟨options, hoptions, hread⟩ := bind_eq_ok.mp hread
  obtain ⟨sections, hparse, hread⟩ := bind_eq_ok.mp hread
  cases hread
  constructor
  · intro e he
    rw [← hconfig] at he
    exact isCString_of_collectPairsFrom (invalidInput_eq_ok.mp hpairs) e he
  · intro s e he
    rw [← hsections] at he
    have hmem := mem_of_parseSections (invalidInput_eq_ok.mp hparse) he
    obtain ⟨hkey, hvalue⟩ :=
      isCString_of_collectPairsFrom (invalidInput_eq_ok.mp hoptions) _ hmem
    exact ⟨(isCString_key s e.1).mp hkey, hvalue⟩

/-- What can cross the boundary arrives as it was given. -/
theorem arrives_of_cStrings (hcall : operatorFor registry session url = some c)
    (hperm : (tree (secretAssignments input)).Perm (secretAssignments input))
    (hmatched : c.matchedSecret = some (createOpenDalSecret tree input))
    (hglobals : ∀ sec ∈ c.session.globals.entries, ∃ s : ConfigSection, sec.1 = s.name)
    (hconfig : DistinctKeys (input.entries (ascii "config")))
    (hsections : ∀ s : ConfigSection, DistinctKeys (input.entries s.parameter))
    (hconfigStrings : CStrings (input.map (ascii "config")))
    (hsectionStrings : ∀ s, CStrings (expectedSection c.session.globals input s)) :
    ArrivesAsGiven c input := by
  have huri : IsCString (c.scheme ++ schemeSep ++ c.authority) :=
    isCString_uri hcall (request_of_matched hmatched)
  have hoptions : CStrings (mergedOptions tree c.session.globals input) := by
    rintro ⟨key, value⟩ he
    rw [← find?_eq_some_iff] at he
    obtain ⟨s, k, rfl⟩ := exists_section_of_mergedOptions hperm hglobals he
    rw [find?_mergedOptions hperm hsections hglobals, find?_eq_some_iff] at he
    obtain ⟨hkey, hvalue⟩ := hsectionStrings s _ he
    exact ⟨(isCString_key s k).mpr hkey, hvalue⟩
  have hkeys : ∀ key value, (mergedOptions tree c.session.globals input).find? key = some value →
      ∃ s : ConfigSection, ∃ k, key = s.name ++ ascii "." ++ k := by
    intro key value h
    exact exists_section_of_mergedOptions hperm hglobals h
  obtain ⟨sections, hparse, hfind⟩ := parseSections_entries hkeys
  refine ⟨_, ⟨(input.map (ascii "config")).entries, sections⟩, request_of_matched hmatched, ?_,
    rfl, fun s => ?_⟩
  · have hconfigPairs := collectPairsFrom_eq 0 hconfigStrings
    have hoptionPairs := collectPairsFrom_eq 0 hoptions
    have hsplit : parseSections (mergedOptions tree c.session.globals input).entries =
        .ok sections := hparse
    simp only [operatorInput, Request.operatorArgs, Request.uri, mergedConfig_eq hperm hconfig,
      requireCstr_eq_ok.mpr (cstr_cStr_of_isCString huri), ok_bind, collectPairs, hconfigPairs,
      hoptionPairs, hsplit, invalidInput]
    rfl
  · apply ext_find?
    intro key
    rw [hfind, find?_mergedOptions hperm hsections hglobals]

/-- The keys a secret stores can cross the boundary when what should arrive can. -/
theorem keys_of_cStrings (hconfig : DistinctKeys (input.entries (ascii "config")))
    (hsections : ∀ s : ConfigSection, DistinctKeys (input.entries s.parameter))
    (hconfigStrings : CStrings (input.map (ascii "config"))) {globals : GlobalConfig}
    (hsectionStrings : ∀ s, CStrings (expectedSection globals input s)) :
    ∀ a ∈ secretAssignments input, 0 ∉ a.1 := by
  rintro ⟨key, value⟩ hmem
  rcases mem_secretAssignments.mp hmem with h | ⟨k, hk, rfl⟩ | ⟨s, k, hk, rfl⟩
  · obtain ⟨rfl, -⟩ := Prod.mk.inj h
    have hscheme : 0 ∉ ascii "__scheme" := by decide
    exact hscheme
  · have hfind : (k, value) ∈ (input.map (ascii "config")).entries :=
      find?_eq_some_iff.mp ((find?_insertAll hconfig.functional _).mpr (Or.inl hk))
    rw [List.mem_append, not_or]
    exact ⟨by decide, (hconfigStrings _ hfind).1.1⟩
  · have hfind : (k, value) ∈ (expectedSection globals input s).entries := by
      rw [← find?_eq_some_iff, expectedSection, find?_override, CreateSecretInput.map,
        (find?_insertAll (hsections s).functional _).mpr (Or.inl hk)]
      rfl
    exact ((isCString_key s k).mpr (hsectionStrings s _ hfind).1).1

/-- **When each part of the configuration arrives as it was given**: when every key and
value of it is UTF-8 without a NUL. -/
theorem operatorInput_iff (hcall : operatorFor registry session url = some c)
    (htree : KeepsDistinct tree)
    (hmatched : c.matchedSecret = some (createOpenDalSecret tree input))
    (hglobals : ∀ sec ∈ c.session.globals.entries, ∃ s : ConfigSection, sec.1 = s.name)
    (hconfig : DistinctKeys (input.entries (ascii "config")))
    (hsections : ∀ s : ConfigSection, DistinctKeys (input.entries s.parameter)) :
    ArrivesAsGiven c input ↔
      CStrings (input.map (ascii "config")) ∧
        ∀ s, CStrings (expectedSection c.session.globals input s) := by
  refine ⟨cStrings_of_arrives, fun ⟨hconfigStrings, hsectionStrings⟩ => ?_⟩
  have hperm := htree _ (keys_of_cStrings hconfig hsections hconfigStrings hsectionStrings)
    (nodup_secretAssignments hconfig hsections)
  exact arrives_of_cStrings hcall hperm hmatched hglobals hconfig hsections hconfigStrings
    hsectionStrings

end Arrival

/-! ## Two configurations -/

/-- A secret with a service setting and one section, which spells the given key. -/
def rootSecret (key : Bytes) : CreateSecretInput where
  name := ascii "local"
  type := ascii "memory"
  scope := ascii "memory://"
  options name :=
    if name = ascii "config" then some [(key, some (ascii "/data"))]
    else if name = ascii "io_config" then some [(ascii "read.chunk_size", some (ascii "8 MiB"))]
    else none

/-- A call that matches it, with a global section of its own. -/
def rootCall (key : Bytes) : BuildCall where
  scheme := ascii "memory"
  authority := ascii "b"
  url := ascii "memory://b/a"
  session := ⟨some (.ofSecrets [createOpenDalSecret caseInsensitiveTree (rootSecret key)]), none,
    (∅ : GlobalConfig).insert (ascii "io") ((∅ : StringMap).insert (ascii "read.chunk_size")
      (ascii "1 MiB"))⟩

theorem rootCall_operatorFor (key : Bytes) : operatorFor defaultRegistry (rootCall key).session
    (ascii "memory://b/a") = some (rootCall key) := rfl

theorem rootCall_matched (key : Bytes) : (rootCall key).matchedSecret =
    some (createOpenDalSecret caseInsensitiveTree (rootSecret key)) := rfl

theorem rootCall_globals (key : Bytes) : ∀ sec ∈ (rootCall key).session.globals.entries,
    ∃ s : ConfigSection, sec.1 = s.name := by
  intro sec hsec
  rw [List.mem_singleton.mp hsec]
  exact ⟨.io, rfl⟩

theorem rootSecret_distinctKeys (key name : Bytes) :
    DistinctKeys ((rootSecret key).entries name) := by
  unfold CreateSecretInput.entries rootSecret
  dsimp only
  split
  · exact List.nodup_singleton _
  · split
    · exact List.nodup_singleton _
    · exact List.nodup_nil

/-- A secret's chunk size replaces the global one. -/
theorem operatorInput_iff_root :
    ArrivesAsGiven (rootCall (ascii "root")) (rootSecret (ascii "root")) := by
  have hconfig : CStrings ((rootSecret (ascii "root")).map (ascii "config")) := by decide
  have hsections : ∀ s, CStrings (expectedSection (rootCall (ascii "root")).session.globals
      (rootSecret (ascii "root")) s) := by
    intro s
    cases s <;> decide
  exact (operatorInput_iff (rootCall_operatorFor _) caseInsensitiveTree_keepsDistinct
    (rootCall_matched _) (rootCall_globals _) (rootSecret_distinctKeys _ _)
    fun _ => rootSecret_distinctKeys _ _).mpr ⟨hconfig, hsections⟩

/-- A setting spelled with a NUL arrives as another one. -/
theorem operatorInput_nul :
    (∃ request handed, (rootCall (ascii "root" ++ [0] ++ ascii "x")).request = some request ∧
      operatorInput request.operatorArgs = .ok handed ∧
      handed.config = [(ascii "root", ascii "/data")]) ∧
    ¬ ArrivesAsGiven (rootCall (ascii "root" ++ [0] ++ ascii "x"))
      (rootSecret (ascii "root" ++ [0] ++ ascii "x")) := by
  refine ⟨⟨_, _, rfl, rfl, rfl⟩, fun h => ?_⟩
  have hstrings := (cStrings_of_arrives h).1
  revert hstrings
  decide

end DuckdbOpendal
