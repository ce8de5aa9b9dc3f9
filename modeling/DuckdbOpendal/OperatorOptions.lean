import DuckdbOpendal.OptionSections

/-!
# The options of an operator

`OperatorConfig::parse` sorts the options by section and parses the sections.  A key listed
twice has overwritten its first value by then, so the last value of each key decides what is
accepted and what comes out.

## Main Definitions

* `OperatorConfig.parse` — parsing all options
* `Accepted`, `HoldsGiven` — what is accepted, and what comes out

## Main Results

* `operatorConfig_parse_iff` — which options are accepted, and what comes out
-/

namespace DuckdbOpendal

open SortedMap

variable {F : Type} {P : ValueParsers F}

/-- `OperatorConfig`. -/
structure OperatorConfig (F : Type) where
  io : IoConfig
  retry : Option (RetryConfig F)
  timeout : Option TimeoutConfig
  cache : Option CacheConfig
  cacheNamespace : Option Bytes
  deriving DecidableEq, Repr

/-- `OperatorConfig::parse`. -/
def OperatorConfig.parse (P : ValueParsers F) (values : List (Bytes × Bytes))
    (cacheNamespace : Option Bytes) : Except Bytes (OperatorConfig F) := do
  let sections ← parseSections values
  let io ← IoConfig.parse P (sections .io)
  let retry ← RetryConfig.parse P (sections .retry)
  let timeout ← TimeoutConfig.parse P (sections .timeout)
  let cache ← CacheConfig.parse P (sections .cache)
  return ⟨io, retry, timeout, cache, cacheNamespace⟩

/-! ## What is accepted -/

/-- The last value listed for an option. -/
def given (values : List (Bytes × Bytes)) (s : ConfigSection) (key : Bytes) : Option Bytes :=
  lastValue (s.name ++ ascii "." ++ key) values

/-- **The options are accepted**: each is known and has a value of its kind, and the limits
of a range come in order. -/
structure Accepted (P : ValueParsers F) (values : List (Bytes × Bytes)) : Prop where
  known : ∀ e ∈ values, ∃ s key kind, e.1 = s.name ++ ascii "." ++ key ∧
    optionKind s key = some kind
  admitted : ∀ s key kind value, optionKind s key = some kind →
    given values s key = some value → kind.Admits P value
  delays : ∀ min max, (given values .retry (ascii "min_delay")).bind P.duration = some min →
    (given values .retry (ascii "max_delay")).bind P.duration = some max → min ≤ max
  fileSizes : ∀ max, (given values .cache (ascii "max_file_size")).bind (parseBytes P) = some max →
    ((given values .cache (ascii "min_file_size")).bind (parseBytes P)).getD 0 ≤ max

/-! ## What comes out -/

/-- Some option of the section is listed. -/
def Listed (values : List (Bytes × Bytes)) (s : ConfigSection) : Prop :=
  ∃ e ∈ values, ∃ key, e.1 = s.name ++ ascii "." ++ key

/-- **The configuration holds the values given**, and a section without one is absent. -/
structure HoldsGiven (P : ValueParsers F) (values : List (Bytes × Bytes))
    (cacheNamespace : Option Bytes) (config : OperatorConfig F) : Prop where
  io : config.io = .ofGiven P (given values .io)
  retry : (Listed values .retry → config.retry = some (.ofGiven P (given values .retry))) ∧
    (¬ Listed values .retry → config.retry = none)
  timeout : (Listed values .timeout → config.timeout = some (.ofGiven P (given values .timeout))) ∧
    (¬ Listed values .timeout → config.timeout = none)
  cache : (Listed values .cache → config.cache = some (.ofGiven P (given values .cache))) ∧
    (¬ Listed values .cache → config.cache = none)
  cacheNamespace : config.cacheNamespace = cacheNamespace

/-! ## The values handed to the sections -/

/-- What `OperatorConfig::parse` hands to a section are the values given for it. -/
theorem find?_parseSections {values : List (Bytes × Bytes)} {sections : ConfigSection → StringMap}
    (h : parseSections values = .ok sections) (s : ConfigSection) :
    (sections s).find? = given values s :=
  funext (find?_of_parseSections h s)

/-- A section is handed entries if some option of it is listed. -/
theorem entries_ne_nil_iff {values : List (Bytes × Bytes)} {sections : ConfigSection → StringMap}
    (h : parseSections values = .ok sections) (s : ConfigSection) :
    (sections s).entries ≠ [] ↔ Listed values s := by
  constructor
  · intro hne
    obtain ⟨⟨key, value⟩, hmem⟩ := List.exists_mem_of_ne_nil _ hne
    exact ⟨_, mem_of_parseSections h hmem, key, rfl⟩
  · rintro ⟨e, he, key, hkey⟩ hempty
    have hgiven : (given values s key).isSome = true := isSome_lastValue_iff.mpr ⟨e, he, hkey⟩
    rw [← find?_parseSections h, find?_of_entries_eq_nil hempty] at hgiven
    cases hgiven

/-- The options of a section are admitted as they are listed. -/
theorem sectionAdmitted_iff {values : List (Bytes × Bytes)} {sections : ConfigSection → StringMap}
    (h : parseSections values = .ok sections) (s : ConfigSection) :
    SectionAdmitted P s (sections s) ↔ ∀ key value, given values s key = some value →
      ∃ kind, optionKind s key = some kind ∧ kind.Admits P value := by
  rw [← find?_parseSections h]
  simp only [find?_eq_some_iff]
  exact Prod.forall

/-- What `OperatorConfig::parse` has gone through. -/
theorem operatorConfig_parse_eq_ok {values : List (Bytes × Bytes)} {cacheNamespace : Option Bytes}
    {config : OperatorConfig F} :
    OperatorConfig.parse P values cacheNamespace = .ok config ↔
      ∃ sections, parseSections values = .ok sections ∧
        IoConfig.parse P (sections .io) = .ok config.io ∧
        RetryConfig.parse P (sections .retry) = .ok config.retry ∧
        TimeoutConfig.parse P (sections .timeout) = .ok config.timeout ∧
        CacheConfig.parse P (sections .cache) = .ok config.cache ∧
        config.cacheNamespace = cacheNamespace := by
  simp only [OperatorConfig.parse, bind_eq_ok]
  refine exists_congr fun sections => and_congr_right fun _ => ?_
  constructor
  · rintro ⟨io, hio, retry, hretry, timeout, htimeout, cache, hcache, h⟩
    cases h
    exact ⟨hio, hretry, htimeout, hcache, rfl⟩
  · rintro ⟨hio, hretry, htimeout, hcache, rfl⟩
    exact ⟨_, hio, _, hretry, _, htimeout, _, hcache, rfl⟩

section Parse

variable (hdefaults : ReadsDefaults P) {values : List (Bytes × Bytes)}
  {cacheNamespace : Option Bytes}
include hdefaults

/-- Which options are accepted. -/
theorem exists_parse_iff :
    (∃ config, OperatorConfig.parse P values cacheNamespace = .ok config) ↔ Accepted P values := by
  constructor
  · rintro ⟨config, h⟩
    obtain ⟨sections, hsections, hio, hretry, htimeout, hcache, -⟩ :=
      operatorConfig_parse_eq_ok.mp h
    have hgiven := find?_parseSections hsections
    obtain ⟨hretry, hdelays⟩ := (RetryConfig.exists_parse_iff P).mp ⟨_, hretry⟩
    obtain ⟨hcache, hsizes⟩ := (CacheConfig.exists_parse_iff hdefaults).mp ⟨_, hcache⟩
    have hadmitted : ∀ s key value, given values s key = some value →
        ∃ kind, optionKind s key = some kind ∧ kind.Admits P value := by
      intro s
      rw [← sectionAdmitted_iff hsections]
      cases s with
      | io => exact (IoConfig.exists_parse_iff P).mp ⟨_, hio⟩
      | retry => exact hretry
      | timeout => exact (TimeoutConfig.exists_parse_iff P).mp ⟨_, htimeout⟩
      | cache => exact hcache
    refine ⟨fun e he => ?_, fun s key kind value hkind hvalue => ?_, ?_, ?_⟩
    · obtain ⟨s, key, hkey⟩ := exists_parseSections_iff.mp ⟨sections, hsections⟩ e he
      have hlisted : (given values s key).isSome = true :=
        isSome_lastValue_iff.mpr ⟨e, he, hkey⟩
      obtain ⟨value, hvalue⟩ := Option.isSome_iff_exists.mp hlisted
      obtain ⟨kind, hkind, -⟩ := hadmitted s key value hvalue
      exact ⟨s, key, kind, hkey, hkind⟩
    · obtain ⟨kind', hkind', hadmits⟩ := hadmitted s key value hvalue
      cases hkind.symm.trans hkind'
      exact hadmits
    · rwa [hgiven] at hdelays
    · rwa [hgiven] at hsizes
  · rintro ⟨hknown, hadmitted, hdelays, hsizes⟩
    obtain ⟨sections, hsections⟩ := exists_parseSections_iff.mpr fun e he => by
      obtain ⟨s, key, -, hkey, -⟩ := hknown e he
      exact ⟨s, key, hkey⟩
    have hgiven := find?_parseSections hsections
    have hsection : ∀ s, SectionAdmitted P s (sections s) := by
      intro s
      rw [sectionAdmitted_iff hsections]
      intro key value hvalue
      -- A given option is listed, so it is known.
      obtain ⟨s', key', kind, hkey, hkind⟩ := hknown _ (mem_of_lastValue hvalue)
      obtain ⟨hname, rfl⟩ := key_inj s.dot_notMem_name s'.dot_notMem_name hkey
      cases ConfigSection.name_injective hname
      exact ⟨kind, hkind, hadmitted s key kind value hkind hvalue⟩
    obtain ⟨io, hio⟩ := (IoConfig.exists_parse_iff P).mpr (hsection .io)
    obtain ⟨retry, hretry⟩ :=
      (RetryConfig.exists_parse_iff P).mpr ⟨hsection .retry, by rwa [hgiven]⟩
    obtain ⟨timeout, htimeout⟩ := (TimeoutConfig.exists_parse_iff P).mpr (hsection .timeout)
    obtain ⟨cache, hcache⟩ :=
      (CacheConfig.exists_parse_iff hdefaults).mpr ⟨hsection .cache, by rwa [hgiven]⟩
    exact ⟨⟨io, retry, timeout, cache, cacheNamespace⟩, operatorConfig_parse_eq_ok.mpr
      ⟨sections, hsections, hio, hretry, htimeout, hcache, rfl⟩⟩

/-- What comes out. -/
theorem holdsGiven_of_parse {config : OperatorConfig F}
    (h : OperatorConfig.parse P values cacheNamespace = .ok config) :
    HoldsGiven P values cacheNamespace config := by
  obtain ⟨sections, hsections, hio, hretry, htimeout, hcache, hnamespace⟩ :=
    operatorConfig_parse_eq_ok.mp h
  have hgiven := find?_parseSections hsections
  have hsection : ∀ (s : ConfigSection) {α : Type} {x : Option α} {y : α},
      (x = if (sections s).entries = [] then none else some y) →
        (Listed values s → x = some y) ∧ (¬ Listed values s → x = none) := by
    intro s α x y hx
    rw [hx, ← entries_ne_nil_iff hsections]
    exact ⟨fun h => if_neg h, fun h => if_pos (not_not.mp h)⟩
  refine ⟨?_, hsection .retry ?_, hsection .timeout ?_, hsection .cache ?_, hnamespace⟩
  · rw [← hgiven]
    exact IoConfig.parse_eq P hio
  · rw [← hgiven]
    exact RetryConfig.parse_eq P hretry
  · rw [← hgiven]
    exact TimeoutConfig.parse_eq P htimeout
  · rw [← hgiven]
    exact CacheConfig.parse_eq hdefaults hcache

end Parse

section Order

variable {values values' : List (Bytes × Bytes)} {cacheNamespace : Option Bytes}

theorem eq_of_section {α : Type} {p : Prop} {x x' : Option α} {y : α}
    (h : (p → x = some y) ∧ (¬ p → x = none)) (h' : (p → x' = some y) ∧ (¬ p → x' = none)) :
    x = x' := by
  by_cases hp : p
  · exact (h.1 hp).trans (h'.1 hp).symm
  · exact (h.2 hp).trans (h'.2 hp).symm

/-- The values given decide the configuration. -/
theorem HoldsGiven.unique {config config' : OperatorConfig F}
    (h : HoldsGiven P values cacheNamespace config)
    (h' : HoldsGiven P values cacheNamespace config') : config = config' := by
  obtain ⟨io, retry, timeout, cache, ns⟩ := config
  obtain ⟨io', retry', timeout', cache', ns'⟩ := config'
  obtain rfl : io = io' := h.io.trans h'.io.symm
  obtain rfl : ns = ns' := h.cacheNamespace.trans h'.cacheNamespace.symm
  obtain rfl : retry = retry' := eq_of_section h.retry h'.retry
  obtain rfl : timeout = timeout' := eq_of_section h.timeout h'.timeout
  obtain rfl : cache = cache' := eq_of_section h.cache h'.cache
  rfl

variable (h : Rearranged values values')
include h

theorem given_eq_of_rearranged : given values' = given values := by
  funext s key
  exact h.lastValue_eq _

theorem accepted_of_rearranged (haccepted : Accepted P values) : Accepted P values' where
  known e he := haccepted.known e (h.mem_iff.mp he)
  admitted := given_eq_of_rearranged h ▸ haccepted.admitted
  delays := given_eq_of_rearranged h ▸ haccepted.delays
  fileSizes := given_eq_of_rearranged h ▸ haccepted.fileSizes

theorem holdsGiven_of_rearranged {config : OperatorConfig F}
    (hconfig : HoldsGiven P values' cacheNamespace config) :
    HoldsGiven P values cacheNamespace config := by
  have hlisted : ∀ s, Listed values' s ↔ Listed values s := fun s =>
    exists_congr fun e => and_congr_left fun _ => h.mem_iff
  obtain ⟨hio, hretry, htimeout, hcache, hnamespace⟩ := hconfig
  rw [given_eq_of_rearranged h] at hio hretry htimeout hcache
  rw [hlisted] at hretry htimeout hcache
  exact ⟨hio, hretry, htimeout, hcache, hnamespace⟩

end Order

/-- **Which options are accepted**, and what comes out: each field holds what the last value
of its option says, or its default, in whatever order the options come. -/
theorem operatorConfig_parse_iff (hdefaults : ReadsDefaults P) (values : List (Bytes × Bytes))
    (cacheNamespace : Option Bytes) :
    ((∃ config, OperatorConfig.parse P values cacheNamespace = .ok config) ↔
        Accepted P values) ∧
      ∀ config, OperatorConfig.parse P values cacheNamespace = .ok config →
        HoldsGiven P values cacheNamespace config ∧
          ∀ values', Rearranged values values' →
            OperatorConfig.parse P values' cacheNamespace = .ok config := by
  refine ⟨exists_parse_iff hdefaults, fun config hconfig => ?_⟩
  have hholds := holdsGiven_of_parse hdefaults hconfig
  refine ⟨hholds, fun values' h => ?_⟩
  have haccepted := accepted_of_rearranged h ((exists_parse_iff hdefaults).mp ⟨config, hconfig⟩)
  obtain ⟨config', hconfig'⟩ : ∃ config', OperatorConfig.parse P values' cacheNamespace =
      .ok config' := (exists_parse_iff hdefaults).mpr haccepted
  have hholds' := holdsGiven_of_rearranged h (holdsGiven_of_parse hdefaults hconfig')
  rw [hconfig', hholds.unique hholds']

/-- The sizes and durations below, as `human_units` reads them. -/
def unitParsers : ValueParsers ℕ where
  byte text :=
    [(ascii "256 MiB", ⟨2 ^ 28, by decide⟩), (ascii "1 GiB", ⟨2 ^ 30, by decide⟩),
      (ascii "4 MiB", ⟨2 ^ 22, by decide⟩), (ascii "8 MiB", ⟨2 ^ 23, by decide⟩)].lookup text
  duration text :=
    [(ascii "100ms", 100 * 10 ^ 6), (ascii "10s", 10 * 10 ^ 9),
      (ascii "1m", 60 * 10 ^ 9)].lookup text
  float _ := none
  isFinite _ := true
  lessThanOne _ := false

theorem unitParsers_readsDefaults : ReadsDefaults unitParsers :=
  ⟨by decide, by decide, by decide⟩

/-- Options of every section. -/
def typedOptions : List (Bytes × Bytes) :=
  [(ascii "io.read.concurrent", ascii "2"), (ascii "io.read.chunk_size", ascii "8 MiB"),
    (ascii "retry.min_delay", ascii "100ms"), (ascii "retry.max_delay", ascii "10s"),
    (ascii "timeout.operation_timeout", ascii "1m"), (ascii "cache.memory_size", ascii "256 MiB")]

/-- They are accepted, and so they are in any order. -/
theorem operatorConfig_parse_typed :
    ∃ config, OperatorConfig.parse unitParsers typedOptions none = .ok config ∧
      HoldsGiven unitParsers typedOptions none config ∧
      OperatorConfig.parse unitParsers typedOptions.reverse none = .ok config := by
  obtain ⟨config, hconfig⟩ : ∃ config,
      OperatorConfig.parse unitParsers typedOptions none = .ok config := ⟨_, rfl⟩
  obtain ⟨hholds, horder⟩ :=
    (operatorConfig_parse_iff unitParsers_readsDefaults typedOptions none).2 config hconfig
  have hreverse : Rearranged typedOptions typedOptions.reverse :=
    rearranged_of_perm (by decide) (List.reverse_perm _)
  exact ⟨config, hconfig, hholds, horder _ hreverse⟩

/-- An option listed twice is read once: of the first value nothing is asked. -/
theorem operatorConfig_parse_repeated :
    (∃ config, OperatorConfig.parse unitParsers
        [(ascii "io.concurrent_limit", ascii "x"), (ascii "io.concurrent_limit", ascii "4")] none =
        .ok config) ∧
      optionKind .io (ascii "concurrent_limit") = some .positiveInteger ∧
      ¬ ValueKind.positiveInteger.Admits unitParsers (ascii "x") := by
  have hunsigned : parseUnsigned (ascii "x") = none := by decide
  refine ⟨⟨_, rfl⟩, by decide, ?_⟩
  rintro ⟨n, hn, -⟩
  rw [hunsigned] at hn
  cases hn

end DuckdbOpendal
