import DuckdbOpendal.Lib.RecordLoader
import DuckdbOpendal.OptionValues

/-!
# The sections of the options

The section parsers of `opendal/src/config`.  Each is a loop that sets one field per entry,
with checks behind it.  `optionKind` says what each of the nineteen options takes, and
`ofGiven` what a section holds.

## Main Definitions

* `IoConfig`, `RetryConfig`, `TimeoutConfig`, `CacheConfig` — the sections, with their
  parsers
* `optionKind`, `SectionAdmitted` — what the options of a section take
* `IoConfig.ofGiven` and its like — a section of the values given

## Main Results

* `IoConfig.exists_set_iff`, `IoConfig.set_ofGiven` and their like — one round of a parser
* `IoConfig.exists_parse_iff`, `IoConfig.parse_eq` and their like — the parsers
-/

namespace DuckdbOpendal

open SortedMap

variable {F : Type} (P : ValueParsers F)

/-! ## The section parsers -/

/-- `DirectionConfig`. -/
structure DirectionConfig where
  concurrent : Option NonZeroUsize
  chunkSize : Option ℕ
  deriving DecidableEq, Repr

/-- `IoConfig`. -/
structure IoConfig where
  read : DirectionConfig
  write : DirectionConfig
  concurrentLimit : Option NonZeroUsize
  deriving DecidableEq, Repr

/-- A chunk size of `IoConfig::parse`. -/
def chunkSize (key value : Bytes) : Except Bytes ℕ := do
  let size ← byteSize P (ascii "io") key value
  if size = 0 then
    .error (ascii "invalid io." ++ key ++ ascii "='0': expected a positive size")
  else .ok size

/-- One round of `IoConfig::parse`. -/
def IoConfig.set (config : IoConfig) (key value : Bytes) : Except Bytes IoConfig :=
  if key = ascii "read.concurrent" then
    (positiveUsize (ascii "io") key value).map fun n =>
      { config with read := { config.read with concurrent := some n } }
  else if key = ascii "read.chunk_size" then
    (chunkSize P key value).map fun size =>
      { config with read := { config.read with chunkSize := some size } }
  else if key = ascii "write.concurrent" then
    (positiveUsize (ascii "io") key value).map fun n =>
      { config with write := { config.write with concurrent := some n } }
  else if key = ascii "write.chunk_size" then
    (chunkSize P key value).map fun size =>
      { config with write := { config.write with chunkSize := some size } }
  else if key = ascii "concurrent_limit" then
    (positiveUsize (ascii "io") key value).map fun n => { config with concurrentLimit := some n }
  else .error (unknownOption (ascii "io") key)

/-- `IoConfig::default`. -/
def IoConfig.default : IoConfig := ⟨⟨none, none⟩, ⟨none, none⟩, none⟩

/-- `IoConfig::parse`. -/
def IoConfig.parse (values : StringMap) : Except Bytes IoConfig :=
  RecordLoader.load (IoConfig.set P) .default values.entries

/-- `RetryConfig`. -/
structure RetryConfig (F : Type) where
  maxTimes : Option ℕ
  factor : Option F
  jitter : Bool
  minDelay : Option ℕ
  maxDelay : Option ℕ
  deriving DecidableEq, Repr

/-- The factor of `RetryConfig::parse`. -/
def retryFactor (key value : Bytes) : Except Bytes F := do
  let factor ← float P (ascii "retry") key value
  if ¬ P.isFinite factor ∨ P.lessThanOne factor then
    .error (ascii "invalid retry.factor='" ++ value ++ ascii "': expected a finite number >= 1")
  else .ok factor

/-- One round of `RetryConfig::parse`. -/
def RetryConfig.set (config : RetryConfig F) (key value : Bytes) : Except Bytes (RetryConfig F) :=
  if key = ascii "max_times" then
    (usizeValue (ascii "retry") key value).map fun n => { config with maxTimes := some n }
  else if key = ascii "factor" then
    (retryFactor P key value).map fun factor => { config with factor := some factor }
  else if key = ascii "jitter" then
    (boolean (ascii "retry") key value).map fun jitter => { config with jitter := jitter }
  else if key = ascii "min_delay" then
    (humanDuration P (ascii "retry") key value).map fun d => { config with minDelay := some d }
  else if key = ascii "max_delay" then
    (humanDuration P (ascii "retry") key value).map fun d => { config with maxDelay := some d }
  else .error (unknownOption (ascii "retry") key)

/-- `RetryConfig::default`. -/
def RetryConfig.default : RetryConfig F := ⟨none, none, false, none, none⟩

/-- `RetryConfig::parse`. -/
def RetryConfig.parse (values : StringMap) : Except Bytes (Option (RetryConfig F)) :=
  if values.entries = [] then .ok none
  else do
    let config ← RecordLoader.load (RetryConfig.set P) .default values.entries
    if ∃ min ∈ config.minDelay, ∃ max ∈ config.maxDelay, max < min then
      .error (ascii "retry.min_delay must not exceed retry.max_delay")
    else .ok (some config)

/-- `TimeoutConfig`. -/
structure TimeoutConfig where
  operationTimeout : Option ℕ
  ioTimeout : Option ℕ
  deriving DecidableEq, Repr

/-- One round of `TimeoutConfig::parse`; the value is checked before the key. -/
def TimeoutConfig.set (config : TimeoutConfig) (key value : Bytes) :
    Except Bytes TimeoutConfig := do
  let parsed ← humanDuration P (ascii "timeout") key value
  if parsed = 0 then
    .error (ascii "invalid timeout." ++ key ++ ascii "='" ++ value ++
      ascii "': duration must be positive")
  else if key = ascii "operation_timeout" then .ok { config with operationTimeout := some parsed }
  else if key = ascii "io_timeout" then .ok { config with ioTimeout := some parsed }
  else .error (unknownOption (ascii "timeout") key)

/-- `TimeoutConfig::default`. -/
def TimeoutConfig.default : TimeoutConfig := ⟨none, none⟩

/-- `TimeoutConfig::parse`. -/
def TimeoutConfig.parse (values : StringMap) : Except Bytes (Option TimeoutConfig) :=
  if values.entries = [] then .ok none
  else (RecordLoader.load (TimeoutConfig.set P) .default values.entries).map some

/-- `CacheConfig`. -/
structure CacheConfig where
  memorySize : ℕ
  diskPath : Option Bytes
  diskSize : ℕ
  blockSize : ℕ
  minFileSize : ℕ
  maxFileSize : Option ℕ
  shards : NonZeroUsize
  deriving DecidableEq, Repr

/-- The defaults of `CacheConfig::parse`. -/
def CacheConfig.default : Except Bytes CacheConfig := do
  let memorySize ← byteSize P (ascii "cache") (ascii "memory_size") (ascii "256 MiB")
  let diskSize ← byteSize P (ascii "cache") (ascii "disk_size") (ascii "1 GiB")
  let blockSize ← byteSize P (ascii "cache") (ascii "block_size") (ascii "4 MiB")
  let minFileSize ← byteSize P (ascii "cache") (ascii "min_file_size") (ascii "0")
  return ⟨memorySize, none, diskSize, blockSize, minFileSize, none, ⟨4, by decide⟩⟩

/-- One round of `CacheConfig::parse`. -/
def CacheConfig.set (config : CacheConfig) (key value : Bytes) : Except Bytes CacheConfig :=
  if key = ascii "memory_size" then
    (byteSize P (ascii "cache") key value).map fun size => { config with memorySize := size }
  else if key = ascii "disk_path" then
    (nonEmptyPath (ascii "cache") key value).map fun path => { config with diskPath := some path }
  else if key = ascii "disk_size" then
    (byteSize P (ascii "cache") key value).map fun size => { config with diskSize := size }
  else if key = ascii "block_size" then
    (byteSize P (ascii "cache") key value).map fun size => { config with blockSize := size }
  else if key = ascii "min_file_size" then
    (byteSize P (ascii "cache") key value).map fun size => { config with minFileSize := size }
  else if key = ascii "max_file_size" then
    (byteSize P (ascii "cache") key value).map fun size => { config with maxFileSize := some size }
  else if key = ascii "shards" then
    (positiveUsize (ascii "cache") key value).map fun n => { config with shards := n }
  else .error (unknownOption (ascii "cache") key)

/-- The sizes `CacheConfig::parse` wants positive. -/
def CacheConfig.requirePositive (config : CacheConfig) : Except Bytes Unit :=
  match [(ascii "memory_size", config.memorySize), (ascii "disk_size", config.diskSize),
      (ascii "block_size", config.blockSize)].find? fun size => size.2 = 0 with
  | some (key, _) =>
      .error (ascii "invalid cache." ++ key ++ ascii "='0': expected a positive size")
  | none => .ok ()

/-- `CacheConfig::parse`. -/
def CacheConfig.parse (values : StringMap) : Except Bytes (Option CacheConfig) :=
  if values.entries = [] then .ok none
  else do
    let config ← CacheConfig.default P
    let config ← RecordLoader.load (CacheConfig.set P) config values.entries
    config.requirePositive
    if ∃ max ∈ config.maxFileSize, max < config.minFileSize then
      .error (ascii "cache.min_file_size must not exceed cache.max_file_size")
    else .ok (some config)

/-! ## What the options take -/

/-- What an option takes. -/
inductive ValueKind where
  | positiveInteger
  | integer
  | factor
  | flag
  | size
  | positiveSize
  | duration
  | positiveDuration
  | path
  deriving DecidableEq, Repr

/-- A value of the kind. -/
def ValueKind.Admits : ValueKind → Bytes → Prop
  | .positiveInteger, value => ∃ n, parseUnsigned value = some n ∧ 0 < n
  | .integer, value => ∃ n, parseUnsigned value = some n
  | .factor, value => ∃ x, P.float value = some x ∧ P.isFinite x = true ∧ P.lessThanOne x = false
  | .flag, value => ∃ b, parseBoolean value = some b
  | .size, value => ∃ n, parseBytes P value = some n
  | .positiveSize, value => ∃ n, parseBytes P value = some n ∧ 0 < n
  | .duration, value => ∃ d, P.duration value = some d
  | .positiveDuration, value => ∃ d, P.duration value = some d ∧ 0 < d
  | .path, value => value ≠ []

/-- The options, and what they take. -/
def optionKind : ConfigSection → Bytes → Option ValueKind
  | .io, key =>
      if key = ascii "read.concurrent" then some .positiveInteger
      else if key = ascii "read.chunk_size" then some .positiveSize
      else if key = ascii "write.concurrent" then some .positiveInteger
      else if key = ascii "write.chunk_size" then some .positiveSize
      else if key = ascii "concurrent_limit" then some .positiveInteger
      else none
  | .retry, key =>
      if key = ascii "max_times" then some .integer
      else if key = ascii "factor" then some .factor
      else if key = ascii "jitter" then some .flag
      else if key = ascii "min_delay" then some .duration
      else if key = ascii "max_delay" then some .duration
      else none
  | .timeout, key =>
      if key = ascii "operation_timeout" then some .positiveDuration
      else if key = ascii "io_timeout" then some .positiveDuration
      else none
  | .cache, key =>
      if key = ascii "memory_size" then some .positiveSize
      else if key = ascii "disk_path" then some .path
      else if key = ascii "disk_size" then some .positiveSize
      else if key = ascii "block_size" then some .positiveSize
      else if key = ascii "min_file_size" then some .size
      else if key = ascii "max_file_size" then some .size
      else if key = ascii "shards" then some .positiveInteger
      else none

/-! ## The configuration of the values given -/

/-- `NonZeroUsize` of a text. -/
def parsePositive (value : Bytes) : Option NonZeroUsize :=
  (parseUnsigned value).bind NonZeroUsize.new

/-- The io section of the values given. -/
def IoConfig.ofGiven (given : Bytes → Option Bytes) : IoConfig where
  read := ⟨(given (ascii "read.concurrent")).bind parsePositive,
    (given (ascii "read.chunk_size")).bind (parseBytes P)⟩
  write := ⟨(given (ascii "write.concurrent")).bind parsePositive,
    (given (ascii "write.chunk_size")).bind (parseBytes P)⟩
  concurrentLimit := (given (ascii "concurrent_limit")).bind parsePositive

/-- The retry section of the values given. -/
def RetryConfig.ofGiven (given : Bytes → Option Bytes) : RetryConfig F where
  maxTimes := (given (ascii "max_times")).bind parseUnsigned
  factor := (given (ascii "factor")).bind P.float
  jitter := ((given (ascii "jitter")).bind parseBoolean).getD false
  minDelay := (given (ascii "min_delay")).bind P.duration
  maxDelay := (given (ascii "max_delay")).bind P.duration

/-- The timeout section of the values given. -/
def TimeoutConfig.ofGiven (given : Bytes → Option Bytes) : TimeoutConfig where
  operationTimeout := (given (ascii "operation_timeout")).bind P.duration
  ioTimeout := (given (ascii "io_timeout")).bind P.duration

/-- The cache section of the values given. -/
def CacheConfig.ofGiven (given : Bytes → Option Bytes) : CacheConfig where
  memorySize := ((given (ascii "memory_size")).bind (parseBytes P)).getD (2 ^ 28)
  diskPath := given (ascii "disk_path")
  diskSize := ((given (ascii "disk_size")).bind (parseBytes P)).getD (2 ^ 30)
  blockSize := ((given (ascii "block_size")).bind (parseBytes P)).getD (2 ^ 22)
  minFileSize := ((given (ascii "min_file_size")).bind (parseBytes P)).getD 0
  maxFileSize := (given (ascii "max_file_size")).bind (parseBytes P)
  shards := ((given (ascii "shards")).bind parsePositive).getD ⟨4, by decide⟩

/-! ## Values of a kind -/

theorem map_eq_ok {ε α β : Type} {x : Except ε α} {f : α → β} {b : β} :
    x.map f = .ok b ↔ ∃ a, x = .ok a ∧ f a = b := by
  cases x <;> simp [Except.map]

theorem exists_map_eq_ok {ε α β : Type} {x : Except ε α} {f : α → β} :
    (∃ b, x.map f = .ok b) ↔ ∃ a, x = .ok a := by
  cases x <;> simp [Except.map]

theorem parsePositive_eq_some {value : Bytes} {n : NonZeroUsize} :
    parsePositive value = some n ↔ parseUnsigned value = some n.val := by
  obtain ⟨n, hn⟩ := n
  rw [parsePositive, Option.bind_eq_some_iff]
  constructor
  · rintro ⟨m, hm, h⟩
    unfold NonZeroUsize.new at h
    split at h
    · cases h
      exact hm
    · cases h
  · intro h
    exact ⟨n, h, by rw [NonZeroUsize.new, dif_pos hn]⟩

theorem positiveUsize_eq_ok {sec key value : Bytes} {n : NonZeroUsize} :
    positiveUsize sec key value = .ok n ↔ parsePositive value = some n := orInvalid_eq_ok

theorem chunkSize_eq_ok {key value : Bytes} {n : ℕ} :
    chunkSize P key value = .ok n ↔ parseBytes P value = some n ∧ 0 < n := by
  rw [chunkSize, bind_eq_ok]
  constructor
  · rintro ⟨size, hsize, h⟩
    split at h
    · cases h
    · rename_i hzero
      cases h
      exact ⟨(byteSize_eq_ok P).mp hsize, Nat.pos_of_ne_zero hzero⟩
  · rintro ⟨h, hpos⟩
    exact ⟨n, (byteSize_eq_ok P).mpr h, if_neg (Nat.ne_of_gt hpos)⟩

theorem retryFactor_eq_ok {key value : Bytes} {x : F} :
    retryFactor P key value = .ok x ↔
      P.float value = some x ∧ P.isFinite x = true ∧ P.lessThanOne x = false := by
  rw [retryFactor, bind_eq_ok]
  constructor
  · rintro ⟨factor, hfactor, h⟩
    split at h
    · cases h
    · rename_i hchecks
      cases h
      rw [not_or, not_not, Bool.not_eq_true] at hchecks
      exact ⟨orInvalid_eq_ok.mp hfactor, hchecks⟩
  · rintro ⟨h, hfinite, hone⟩
    exact ⟨x, orInvalid_eq_ok.mpr h, if_neg (by simp [hfinite, hone])⟩

/-- `Admits` says when a value is read: as a positive integer, -/
theorem exists_positiveUsize_iff {sec key value : Bytes} :
    (∃ n, positiveUsize sec key value = .ok n) ↔ ValueKind.positiveInteger.Admits P value := by
  simp only [positiveUsize_eq_ok, parsePositive_eq_some]
  constructor
  · rintro ⟨⟨n, hn⟩, h⟩
    exact ⟨n, h, hn⟩
  · rintro ⟨n, h, hn⟩
    exact ⟨⟨n, hn⟩, h⟩

theorem exists_chunkSize_iff {key value : Bytes} :
    (∃ n, chunkSize P key value = .ok n) ↔ ValueKind.positiveSize.Admits P value := by
  simp only [chunkSize_eq_ok]
  rfl

theorem exists_usizeValue_iff {sec key value : Bytes} :
    (∃ n, usizeValue sec key value = .ok n) ↔ ValueKind.integer.Admits P value := by
  simp only [usizeValue, orInvalid_eq_ok]
  rfl

theorem exists_retryFactor_iff {key value : Bytes} :
    (∃ x, retryFactor P key value = .ok x) ↔ ValueKind.factor.Admits P value := by
  simp only [retryFactor_eq_ok]
  rfl

theorem exists_boolean_iff {sec key value : Bytes} :
    (∃ b, boolean sec key value = .ok b) ↔ ValueKind.flag.Admits P value := by
  simp only [boolean, orInvalid_eq_ok]
  rfl

theorem exists_humanDuration_iff {sec key value : Bytes} :
    (∃ d, humanDuration P sec key value = .ok d) ↔ ValueKind.duration.Admits P value := by
  simp only [humanDuration, orInvalid_eq_ok]
  rfl

theorem exists_byteSize_iff {sec key value : Bytes} :
    (∃ n, byteSize P sec key value = .ok n) ↔ ValueKind.size.Admits P value := by
  simp only [byteSize_eq_ok]
  rfl

theorem exists_nonEmptyPath_iff {sec key value : Bytes} :
    (∃ path, nonEmptyPath sec key value = .ok path) ↔ ValueKind.path.Admits P value := by
  simp only [nonEmptyPath_eq_ok, exists_and_left, exists_eq, and_true]
  rfl

/-! ## One round of a parser -/

/-- A branch of a round goes through if the value is of the kind of its option. -/
theorem exists_map_iff_of_kind {ε α β : Type} {x : Except ε α} {f : α → β}
    {Admits : ValueKind → Prop} {kind : ValueKind} (h : (∃ a, x = .ok a) ↔ Admits kind) :
    (∃ b, x.map f = .ok b) ↔ ∃ kind', some kind = some kind' ∧ Admits kind' := by
  rw [exists_map_eq_ok, h]
  simp only [Option.some.injEq, exists_eq_left']

/-- A round of `IoConfig::parse` goes through for a known option with a value of its kind. -/
theorem IoConfig.exists_set_iff (config : IoConfig) (key value : Bytes) :
    (∃ config', config.set P key value = .ok config') ↔
      ∃ kind, optionKind .io key = some kind ∧ kind.Admits P value := by
  simp only [IoConfig.set, optionKind]
  split_ifs
  · exact exists_map_iff_of_kind (exists_positiveUsize_iff P)
  · exact exists_map_iff_of_kind (exists_chunkSize_iff P)
  · exact exists_map_iff_of_kind (exists_positiveUsize_iff P)
  · exact exists_map_iff_of_kind (exists_chunkSize_iff P)
  · exact exists_map_iff_of_kind (exists_positiveUsize_iff P)
  · simp

/-- And sets the field of the option. -/
theorem IoConfig.set_ofGiven {given given' : Bytes → Option Bytes} {key value : Bytes}
    {config : IoConfig} (h : (IoConfig.ofGiven P given).set P key value = .ok config)
    (hkey : given' key = some value) (hother : ∀ key', key' ≠ key → given' key' = given key') :
    config = .ofGiven P given' := by
  unfold IoConfig.set at h
  split_ifs at h with hname hname hname hname hname
  · subst hname
    obtain ⟨n, hn, rfl⟩ := map_eq_ok.mp h
    simp (disch := decide) only [IoConfig.ofGiven, hkey, hother, Option.bind_some,
      positiveUsize_eq_ok.mp hn]
  · subst hname
    obtain ⟨n, hn, rfl⟩ := map_eq_ok.mp h
    simp (disch := decide) only [IoConfig.ofGiven, hkey, hother, Option.bind_some,
      ((chunkSize_eq_ok P).mp hn).1]
  · subst hname
    obtain ⟨n, hn, rfl⟩ := map_eq_ok.mp h
    simp (disch := decide) only [IoConfig.ofGiven, hkey, hother, Option.bind_some,
      positiveUsize_eq_ok.mp hn]
  · subst hname
    obtain ⟨n, hn, rfl⟩ := map_eq_ok.mp h
    simp (disch := decide) only [IoConfig.ofGiven, hkey, hother, Option.bind_some,
      ((chunkSize_eq_ok P).mp hn).1]
  · subst hname
    obtain ⟨n, hn, rfl⟩ := map_eq_ok.mp h
    simp (disch := decide) only [IoConfig.ofGiven, hkey, hother, Option.bind_some,
      positiveUsize_eq_ok.mp hn]

/-- A round of `RetryConfig::parse` goes through for a known option with a value of its kind. -/
theorem RetryConfig.exists_set_iff (config : RetryConfig F) (key value : Bytes) :
    (∃ config', config.set P key value = .ok config') ↔
      ∃ kind, optionKind .retry key = some kind ∧ kind.Admits P value := by
  simp only [RetryConfig.set, optionKind]
  split_ifs
  · exact exists_map_iff_of_kind (exists_usizeValue_iff P)
  · exact exists_map_iff_of_kind (exists_retryFactor_iff P)
  · exact exists_map_iff_of_kind (exists_boolean_iff P)
  · exact exists_map_iff_of_kind (exists_humanDuration_iff P)
  · exact exists_map_iff_of_kind (exists_humanDuration_iff P)
  · simp

/-- And sets the field of the option. -/
theorem RetryConfig.set_ofGiven {given given' : Bytes → Option Bytes} {key value : Bytes}
    {config : RetryConfig F} (h : (RetryConfig.ofGiven P given).set P key value = .ok config)
    (hkey : given' key = some value) (hother : ∀ key', key' ≠ key → given' key' = given key') :
    config = .ofGiven P given' := by
  unfold RetryConfig.set at h
  split_ifs at h with hname hname hname hname hname
  · subst hname
    obtain ⟨n, hn, rfl⟩ := map_eq_ok.mp h
    simp (disch := decide) only [RetryConfig.ofGiven, hkey, hother, Option.bind_some,
      orInvalid_eq_ok.mp hn]
  · subst hname
    obtain ⟨factor, hfactor, rfl⟩ := map_eq_ok.mp h
    simp (disch := decide) only [RetryConfig.ofGiven, hkey, hother, Option.bind_some,
      ((retryFactor_eq_ok P).mp hfactor).1]
  · subst hname
    obtain ⟨jitter, hjitter, rfl⟩ := map_eq_ok.mp h
    simp (disch := decide) only [RetryConfig.ofGiven, hkey, hother, Option.bind_some,
      orInvalid_eq_ok.mp hjitter, Option.getD_some]
  · subst hname
    obtain ⟨d, hd, rfl⟩ := map_eq_ok.mp h
    simp (disch := decide) only [RetryConfig.ofGiven, hkey, hother, Option.bind_some,
      orInvalid_eq_ok.mp hd]
  · subst hname
    obtain ⟨d, hd, rfl⟩ := map_eq_ok.mp h
    simp (disch := decide) only [RetryConfig.ofGiven, hkey, hother, Option.bind_some,
      orInvalid_eq_ok.mp hd]

/-- What a round of `TimeoutConfig::parse` does. -/
theorem TimeoutConfig.set_eq_ok {config config' : TimeoutConfig} {key value : Bytes} :
    config.set P key value = .ok config' ↔ ∃ d, P.duration value = some d ∧ 0 < d ∧
      (key = ascii "operation_timeout" ∧ config' = { config with operationTimeout := some d } ∨
        key = ascii "io_timeout" ∧ config' = { config with ioTimeout := some d }) := by
  simp only [TimeoutConfig.set, bind_eq_ok, humanDuration, orInvalid_eq_ok]
  refine exists_congr fun d => and_congr_right fun _ => ?_
  rw [Nat.pos_iff_ne_zero]
  split_ifs with hzero hoperation hio
  · simp [hzero]
  · subst hoperation
    have hother : ascii "operation_timeout" ≠ ascii "io_timeout" := by decide
    simp [hzero, hother, eq_comm]
  · subst hio
    simp [hzero, hoperation, eq_comm]
  · simp [hoperation, hio]

/-- A round of `TimeoutConfig::parse` goes through for a known option with a value of its
kind. -/
theorem TimeoutConfig.exists_set_iff (config : TimeoutConfig) (key value : Bytes) :
    (∃ config', config.set P key value = .ok config') ↔
      ∃ kind, optionKind .timeout key = some kind ∧ kind.Admits P value := by
  simp only [TimeoutConfig.set_eq_ok, optionKind]
  constructor
  · rintro ⟨config', d, hd, hpos, ⟨rfl, -⟩ | ⟨rfl, -⟩⟩
    · exact ⟨.positiveDuration, rfl, d, hd, hpos⟩
    · exact ⟨.positiveDuration, rfl, d, hd, hpos⟩
  · rintro ⟨kind, hkind, hadmits⟩
    split_ifs at hkind with hoperation hio
    · cases hkind
      obtain ⟨d, hd, hpos⟩ := hadmits
      exact ⟨_, d, hd, hpos, Or.inl ⟨hoperation, rfl⟩⟩
    · cases hkind
      obtain ⟨d, hd, hpos⟩ := hadmits
      exact ⟨_, d, hd, hpos, Or.inr ⟨hio, rfl⟩⟩

/-- And sets the field of the option. -/
theorem TimeoutConfig.set_ofGiven {given given' : Bytes → Option Bytes} {key value : Bytes}
    {config : TimeoutConfig} (h : (TimeoutConfig.ofGiven P given).set P key value = .ok config)
    (hkey : given' key = some value) (hother : ∀ key', key' ≠ key → given' key' = given key') :
    config = .ofGiven P given' := by
  obtain ⟨d, hd, -, ⟨rfl, rfl⟩ | ⟨rfl, rfl⟩⟩ := (TimeoutConfig.set_eq_ok P).mp h
  · simp (disch := decide) only [TimeoutConfig.ofGiven, hkey, hother, Option.bind_some, hd]
  · simp (disch := decide) only [TimeoutConfig.ofGiven, hkey, hother, Option.bind_some, hd]

/-- What the loop of `CacheConfig::parse` wants of a value; whether a size is positive is
checked after it. -/
def ValueKind.unchecked : ValueKind → ValueKind
  | .positiveSize => .size
  | kind => kind

/-- A round of `CacheConfig::parse` goes through for a known option with a value of its kind,
zero or not. -/
theorem CacheConfig.exists_set_iff (config : CacheConfig) (key value : Bytes) :
    (∃ config', config.set P key value = .ok config') ↔
      ∃ kind, optionKind .cache key = some kind ∧ kind.unchecked.Admits P value := by
  simp only [CacheConfig.set, optionKind]
  split_ifs
  · exact exists_map_iff_of_kind (exists_byteSize_iff P)
  · exact exists_map_iff_of_kind (exists_nonEmptyPath_iff P)
  · exact exists_map_iff_of_kind (exists_byteSize_iff P)
  · exact exists_map_iff_of_kind (exists_byteSize_iff P)
  · exact exists_map_iff_of_kind (exists_byteSize_iff P)
  · exact exists_map_iff_of_kind (exists_byteSize_iff P)
  · exact exists_map_iff_of_kind (exists_positiveUsize_iff P)
  · simp

/-- And sets the field of the option. -/
theorem CacheConfig.set_ofGiven {given given' : Bytes → Option Bytes} {key value : Bytes}
    {config : CacheConfig} (h : (CacheConfig.ofGiven P given).set P key value = .ok config)
    (hkey : given' key = some value) (hother : ∀ key', key' ≠ key → given' key' = given key') :
    config = .ofGiven P given' := by
  unfold CacheConfig.set at h
  split_ifs at h with hname hname hname hname hname hname hname
  · subst hname
    obtain ⟨size, hsize, rfl⟩ := map_eq_ok.mp h
    simp (disch := decide) only [CacheConfig.ofGiven, hkey, hother, Option.bind_some,
      (byteSize_eq_ok P).mp hsize, Option.getD_some]
  · subst hname
    obtain ⟨path, hpath, rfl⟩ := map_eq_ok.mp h
    simp (disch := decide) only [CacheConfig.ofGiven, hkey, hother,
      (nonEmptyPath_eq_ok.mp hpath).2]
  · subst hname
    obtain ⟨size, hsize, rfl⟩ := map_eq_ok.mp h
    simp (disch := decide) only [CacheConfig.ofGiven, hkey, hother, Option.bind_some,
      (byteSize_eq_ok P).mp hsize, Option.getD_some]
  · subst hname
    obtain ⟨size, hsize, rfl⟩ := map_eq_ok.mp h
    simp (disch := decide) only [CacheConfig.ofGiven, hkey, hother, Option.bind_some,
      (byteSize_eq_ok P).mp hsize, Option.getD_some]
  · subst hname
    obtain ⟨size, hsize, rfl⟩ := map_eq_ok.mp h
    simp (disch := decide) only [CacheConfig.ofGiven, hkey, hother, Option.bind_some,
      (byteSize_eq_ok P).mp hsize, Option.getD_some]
  · subst hname
    obtain ⟨size, hsize, rfl⟩ := map_eq_ok.mp h
    simp (disch := decide) only [CacheConfig.ofGiven, hkey, hother, Option.bind_some,
      (byteSize_eq_ok P).mp hsize]
  · subst hname
    obtain ⟨n, hn, rfl⟩ := map_eq_ok.mp h
    simp (disch := decide) only [CacheConfig.ofGiven, hkey, hother, Option.bind_some,
      positiveUsize_eq_ok.mp hn, Option.getD_some]

/-! ## The sections -/

/-- Every option of the section is known and has a value of its kind. -/
def SectionAdmitted (s : ConfigSection) (m : StringMap) : Prop :=
  ∀ e ∈ m.entries, ∃ kind, optionKind s e.1 = some kind ∧ kind.Admits P e.2

theorem find?_of_entries_eq_nil {m : StringMap} (h : m.entries = []) (key : Bytes) :
    m.find? key = none := by
  rw [find?, h]
  rfl

/-- **`IoConfig::parse`** -/
theorem IoConfig.exists_parse_iff {m : StringMap} :
    (∃ config, IoConfig.parse P m = .ok config) ↔ SectionAdmitted P .io m :=
  RecordLoader.exists_load_iff _ (IoConfig.exists_set_iff P)

theorem IoConfig.parse_eq {m : StringMap} {config : IoConfig}
    (h : IoConfig.parse P m = .ok config) : config = .ofGiven P m.find? :=
  RecordLoader.load_entries_eq (IoConfig.set P) (fun _ _ _ _ _ => IoConfig.set_ofGiven P) h

theorem RetryConfig.exists_load_iff {m : StringMap} :
    (∃ config, RecordLoader.load (RetryConfig.set P) .default m.entries = .ok config) ↔
      SectionAdmitted P .retry m :=
  RecordLoader.exists_load_iff _ (RetryConfig.exists_set_iff P)

theorem RetryConfig.load_eq {m : StringMap} {config : RetryConfig F}
    (h : RecordLoader.load (RetryConfig.set P) .default m.entries = .ok config) :
    config = .ofGiven P m.find? :=
  RecordLoader.load_entries_eq (RetryConfig.set P) (fun _ _ _ _ _ => RetryConfig.set_ofGiven P) h

/-- **`RetryConfig::parse`** wants the delays in order. -/
theorem RetryConfig.exists_parse_iff {m : StringMap} :
    (∃ config, RetryConfig.parse P m = .ok config) ↔ SectionAdmitted P .retry m ∧
      ∀ min max, (m.find? (ascii "min_delay")).bind P.duration = some min →
        (m.find? (ascii "max_delay")).bind P.duration = some max → min ≤ max := by
  unfold RetryConfig.parse
  split_ifs with hempty
  · refine iff_of_true ⟨none, rfl⟩ ⟨by simp [SectionAdmitted, hempty], fun min max hmin => ?_⟩
    rw [find?_of_entries_eq_nil hempty] at hmin
    cases hmin
  rw [← RetryConfig.exists_load_iff]
  simp only [bind_eq_ok]
  constructor
  · rintro ⟨_, config, hload, h⟩
    refine ⟨⟨config, hload⟩, fun min max hmin hmax => ?_⟩
    cases RetryConfig.load_eq P hload
    split at h
    · cases h
    · rename_i hordered
      exact Nat.le_of_not_lt fun hlt => hordered ⟨min, hmin, max, hmax, hlt⟩
  · rintro ⟨⟨config, hload⟩, hdelays⟩
    refine ⟨some config, config, hload, if_neg ?_⟩
    cases RetryConfig.load_eq P hload
    rintro ⟨min, hmin, max, hmax, hlt⟩
    exact absurd (hdelays min max hmin hmax) (Nat.not_le_of_lt hlt)

theorem RetryConfig.parse_eq {m : StringMap} {config : Option (RetryConfig F)}
    (h : RetryConfig.parse P m = .ok config) :
    config = if m.entries = [] then none else some (.ofGiven P m.find?) := by
  unfold RetryConfig.parse at h
  split_ifs at h ⊢ with hempty
  · cases h
    rfl
  · obtain ⟨config, hload, h⟩ := bind_eq_ok.mp h
    split at h
    · cases h
    · cases h
      rw [RetryConfig.load_eq P hload]

/-- **`TimeoutConfig::parse`** -/
theorem TimeoutConfig.exists_parse_iff {m : StringMap} :
    (∃ config, TimeoutConfig.parse P m = .ok config) ↔ SectionAdmitted P .timeout m := by
  unfold TimeoutConfig.parse
  split_ifs with hempty
  · exact iff_of_true ⟨none, rfl⟩ (by simp [SectionAdmitted, hempty])
  · rw [exists_map_eq_ok]
    exact RecordLoader.exists_load_iff _ (TimeoutConfig.exists_set_iff P)

theorem TimeoutConfig.parse_eq {m : StringMap} {config : Option TimeoutConfig}
    (h : TimeoutConfig.parse P m = .ok config) :
    config = if m.entries = [] then none else some (.ofGiven P m.find?) := by
  unfold TimeoutConfig.parse at h
  split_ifs at h ⊢ with hempty
  · cases h
    rfl
  · obtain ⟨config, hload, rfl⟩ := map_eq_ok.mp h
    exact congrArg some (RecordLoader.load_entries_eq (TimeoutConfig.set P)
      (fun _ _ _ _ _ => TimeoutConfig.set_ofGiven P) hload)

/-- What the defaults of `CacheConfig::parse` rely on: how `human_units` reads them. -/
structure ReadsDefaults : Prop where
  memorySize : (P.byte (ascii "256 MiB")).map Fin.val = some (2 ^ 28)
  diskSize : (P.byte (ascii "1 GiB")).map Fin.val = some (2 ^ 30)
  blockSize : (P.byte (ascii "4 MiB")).map Fin.val = some (2 ^ 22)

variable {P}

/-- A text without blanks around it, which is no integer, is left to `human_units`. -/
theorem parseBytes_of_byte {text : Bytes} (htrim : trim text = text)
    (hunsigned : parseUnsigned text = none) {n : ℕ}
    (hbyte : (P.byte text).map Fin.val = some n) : parseBytes P text = some n := by
  obtain ⟨bytes, hbytes, rfl⟩ := Option.map_eq_some_iff.mp hbyte
  simp only [parseBytes, htrim, hunsigned, hbytes]

theorem CacheConfig.default_eq_ok {memorySize diskSize blockSize : ℕ}
    (hmemory : parseBytes P (ascii "256 MiB") = some memorySize)
    (hdisk : parseBytes P (ascii "1 GiB") = some diskSize)
    (hblock : parseBytes P (ascii "4 MiB") = some blockSize) :
    CacheConfig.default P =
      .ok ⟨memorySize, none, diskSize, blockSize, 0, none, ⟨4, by decide⟩⟩ := by
  have hmin : parseBytes P (ascii "0") = some 0 := by
    have htrim : trim (ascii "0") = ascii "0" := by decide
    have hunsigned : parseUnsigned (ascii "0") = some 0 := by decide
    simp only [parseBytes, htrim, hunsigned]
  simp only [CacheConfig.default, (byteSize_eq_ok P).mpr hmemory, (byteSize_eq_ok P).mpr hdisk,
    (byteSize_eq_ok P).mpr hblock, (byteSize_eq_ok P).mpr hmin, ok_bind]
  rfl

theorem CacheConfig.ofGiven_none : CacheConfig.ofGiven P (fun _ => none) =
    ⟨2 ^ 28, none, 2 ^ 30, 2 ^ 22, 0, none, ⟨4, by decide⟩⟩ := by
  rw [CacheConfig.ofGiven, Option.bind_none, Option.bind_none, Option.getD_none, Option.getD_none,
    Option.getD_none, Option.getD_none, Option.getD_none]

/-- The defaults of the cache are those of no values given. -/
theorem CacheConfig.default_eq (hdefaults : ReadsDefaults P) :
    CacheConfig.default P = .ok (.ofGiven P fun _ => none) := by
  rw [CacheConfig.ofGiven_none]
  exact CacheConfig.default_eq_ok
    (parseBytes_of_byte (by decide) (by decide) hdefaults.memorySize)
    (parseBytes_of_byte (by decide) (by decide) hdefaults.diskSize)
    (parseBytes_of_byte (by decide) (by decide) hdefaults.blockSize)

theorem ValueKind.admits_iff {kind : ValueKind} {value : Bytes} :
    kind.Admits P value ↔ kind.unchecked.Admits P value ∧
      (kind = .positiveSize → parseBytes P value ≠ some 0) := by
  cases kind with
  | positiveSize =>
      constructor
      · rintro ⟨n, hn, hpos⟩
        refine ⟨⟨n, hn⟩, fun _ hzero => ?_⟩
        rw [hn] at hzero
        cases hzero
        exact absurd hpos (lt_irrefl 0)
      · rintro ⟨⟨n, hn⟩, hzero⟩
        refine ⟨n, hn, Nat.pos_of_ne_zero ?_⟩
        rintro rfl
        exact hzero rfl hn
  | positiveInteger => simp [unchecked]
  | integer => simp [unchecked]
  | factor => simp [unchecked]
  | flag => simp [unchecked]
  | size => simp [unchecked]
  | duration => simp [unchecked]
  | positiveDuration => simp [unchecked]
  | path => simp [unchecked]

theorem CacheConfig.requirePositive_eq_ok {config : CacheConfig} :
    config.requirePositive = .ok () ↔
      config.memorySize ≠ 0 ∧ config.diskSize ≠ 0 ∧ config.blockSize ≠ 0 := by
  have hfind : config.requirePositive = .ok () ↔
      [(ascii "memory_size", config.memorySize), (ascii "disk_size", config.diskSize),
        (ascii "block_size", config.blockSize)].find? (fun size => size.2 = 0) = none := by
    unfold CacheConfig.requirePositive
    split
    · rename_i hfind
      simp [hfind]
    · rename_i hfind
      simp [hfind]
  rw [hfind, List.find?_eq_none]
  simp

/-- A size with a positive default is positive unless a zero is given. -/
theorem getD_ne_zero {value : Option Bytes} {n : ℕ} (hn : n ≠ 0) :
    (value.bind (parseBytes P)).getD n ≠ 0 ↔ ∀ v, value = some v → parseBytes P v ≠ some 0 := by
  cases value with
  | none => simpa using hn
  | some v =>
      cases hv : parseBytes P v with
      | none => simpa [hv] using hn
      | some size => simp [hv]

theorem optionKind_cache_positiveSize {key : Bytes} :
    optionKind .cache key = some .positiveSize ↔
      key = ascii "memory_size" ∨ key = ascii "disk_size" ∨ key = ascii "block_size" := by
  simp only [optionKind]
  constructor
  · intro h
    split_ifs at h with hmemory _ hdisk hblock
    · exact Or.inl hmemory
    · cases h
    · exact Or.inr (Or.inl hdisk)
    · exact Or.inr (Or.inr hblock)
    · cases h
    · cases h
    · cases h
  · rintro (rfl | rfl | rfl) <;> decide

/-- The check behind the loop asks the given sizes to be positive. -/
theorem CacheConfig.positive_iff {given : Bytes → Option Bytes} :
    (CacheConfig.ofGiven P given).requirePositive = .ok () ↔
      ∀ key value, optionKind .cache key = some .positiveSize → given key = some value →
        parseBytes P value ≠ some 0 := by
  rw [CacheConfig.requirePositive_eq_ok, CacheConfig.ofGiven, getD_ne_zero (Nat.two_pow_pos _).ne',
    getD_ne_zero (Nat.two_pow_pos _).ne', getD_ne_zero (Nat.two_pow_pos _).ne']
  simp only [optionKind_cache_positiveSize]
  constructor
  · rintro ⟨hmemory, hdisk, hblock⟩ key value (rfl | rfl | rfl)
    · exact hmemory value
    · exact hdisk value
    · exact hblock value
  · intro h
    exact ⟨fun value => h _ value (Or.inl rfl), fun value => h _ value (Or.inr (Or.inl rfl)),
      fun value => h _ value (Or.inr (Or.inr rfl))⟩

/-- The loop and the check behind it make up the kinds. -/
theorem sectionAdmitted_cache_iff {m : StringMap} :
    SectionAdmitted P .cache m ↔
      (∀ e ∈ m.entries, ∃ kind, optionKind .cache e.1 = some kind ∧ kind.unchecked.Admits P e.2) ∧
        ∀ key value, optionKind .cache key = some .positiveSize → m.find? key = some value →
          parseBytes P value ≠ some 0 := by
  constructor
  · intro h
    constructor
    · intro e he
      obtain ⟨kind, hkind, hadmits⟩ := h e he
      exact ⟨kind, hkind, (ValueKind.admits_iff.mp hadmits).1⟩
    · intro key value hkey hvalue
      obtain ⟨kind, hkind, hadmits⟩ := h (key, value) (find?_eq_some_iff.mp hvalue)
      exact (ValueKind.admits_iff.mp hadmits).2 (Option.some.inj (hkind.symm.trans hkey))
  · rintro ⟨hloop, hpos⟩ e he
    obtain ⟨kind, hkind, hadmits⟩ := hloop e he
    refine ⟨kind, hkind, ValueKind.admits_iff.mpr ⟨hadmits, ?_⟩⟩
    rintro rfl
    exact hpos e.1 e.2 hkind (find?_eq_some_iff.mpr he)

section Cache

variable (hdefaults : ReadsDefaults P)
include hdefaults

theorem CacheConfig.parse_eq_ok {m : StringMap} (hm : m.entries ≠ [])
    {config : Option CacheConfig} :
    CacheConfig.parse P m = .ok config ↔
      SectionAdmitted P .cache m ∧
        (∀ max, (m.find? (ascii "max_file_size")).bind (parseBytes P) = some max →
          ((m.find? (ascii "min_file_size")).bind (parseBytes P)).getD 0 ≤ max) ∧
        config = some (.ofGiven P m.find?) := by
  have hload : (∃ c, RecordLoader.load (CacheConfig.set P) (.ofGiven P fun _ => none) m.entries =
      .ok c) ↔ ∀ e ∈ m.entries, ∃ kind, optionKind .cache e.1 = some kind ∧
        kind.unchecked.Admits P e.2 :=
    RecordLoader.exists_load_iff _ (CacheConfig.exists_set_iff P)
  rw [sectionAdmitted_cache_iff, ← hload, ← CacheConfig.positive_iff, CacheConfig.parse, if_neg hm,
    CacheConfig.default_eq hdefaults, ok_bind]
  simp only [bind_eq_ok]
  constructor
  · rintro ⟨c, hc, _, hpos, h⟩
    have hgiven := RecordLoader.load_entries_eq (CacheConfig.set P)
      (fun _ _ _ _ _ => CacheConfig.set_ofGiven P) hc
    subst hgiven
    split at h
    · cases h
    · rename_i hordered
      cases h
      refine ⟨⟨⟨_, hc⟩, hpos⟩, fun max hmax => ?_, rfl⟩
      exact Nat.le_of_not_lt fun hlt => hordered ⟨max, hmax, hlt⟩
  · rintro ⟨⟨⟨c, hc⟩, hpos⟩, hsizes, rfl⟩
    have hgiven := RecordLoader.load_entries_eq (CacheConfig.set P)
      (fun _ _ _ _ _ => CacheConfig.set_ofGiven P) hc
    subst hgiven
    refine ⟨_, hc, (), hpos, if_neg ?_⟩
    rintro ⟨max, hmax, hlt⟩
    exact absurd (hsizes max hmax) (Nat.not_le_of_lt hlt)

/-- **`CacheConfig::parse`** wants the file sizes in order. -/
theorem CacheConfig.exists_parse_iff {m : StringMap} :
    (∃ config, CacheConfig.parse P m = .ok config) ↔ SectionAdmitted P .cache m ∧
      ∀ max, (m.find? (ascii "max_file_size")).bind (parseBytes P) = some max →
        ((m.find? (ascii "min_file_size")).bind (parseBytes P)).getD 0 ≤ max := by
  by_cases hempty : m.entries = []
  · refine iff_of_true ⟨none, by rw [CacheConfig.parse, if_pos hempty]⟩
      ⟨by simp [SectionAdmitted, hempty], fun max hmax => ?_⟩
    rw [find?_of_entries_eq_nil hempty] at hmax
    cases hmax
  · simp only [CacheConfig.parse_eq_ok hdefaults hempty, exists_and_left, exists_eq, and_true]

theorem CacheConfig.parse_eq {m : StringMap} {config : Option CacheConfig}
    (h : CacheConfig.parse P m = .ok config) :
    config = if m.entries = [] then none else some (.ofGiven P m.find?) := by
  split_ifs with hempty
  · rw [CacheConfig.parse, if_pos hempty] at h
    cases h
    rfl
  · exact ((CacheConfig.parse_eq_ok hdefaults hempty).mp h).2.2

end Cache

end DuckdbOpendal
