import DuckdbOpendal.TableScan

/-!
# Statements

A table function as it is written in SQL.  `BindEntry` and `CopyBind` read its named parameters,
`EntryInit` and `OpenCopyCursor` make options of the foreign interface of them, and the entry
points of `opendal/src/table.rs` decode and check these.  A condition that was asked for and is
lost on the way would go unnoticed, as a row too many or an object overwritten.

## Main Definitions

* `NamedParameters` — what a statement asks for
* `entryScanInit`, `copyScanOpen` — a statement up to its cursor
* `StatRequest`, `ListRequest`, `CopyRequest` — the options that a statement should ask OpenDAL for

## Main Results

* `opendalStat_iff` — when `opendal_stat` answers, and with what
* `opendalLs_iff` — what `opendal_ls` asks OpenDAL for
* `opendalCopy_iff` — what `opendal_copy` asks OpenDAL for
-/

namespace DuckdbOpendal

open Cursor

/-! ## Named parameters -/

/-- The named parameters of a statement, by type; one that is absent or NULL is `none`.  A
timestamp counts microseconds. -/
structure NamedParameters where
  text : Bytes → Option Bytes
  flag : Bytes → Option Bool
  time : Bytes → Option ℤ
  size : Bytes → Option U64

/-- No parameter given. -/
def NamedParameters.unset : NamedParameters :=
  ⟨fun _ => none, fun _ => none, fun _ => none, fun _ => none⟩

/-- `StringParameter`. -/
def stringParameter (parameters : NamedParameters) (name : Bytes) : Bytes :=
  (parameters.text name).getD []

/-- `BoolParameter`. -/
def boolParameter (parameters : NamedParameters) (name : Bytes) : Bool :=
  (parameters.flag name).getD false

/-- Conversions of timestamps: `Timestamp::GetEpochMs` of DuckDB, and `from_millisecond` of
OpenDAL's `Timestamp` with the text of its errors. -/
structure Timestamps where
  getEpochMs : ℤ → ℤ
  fromMillisecond : ℤ → Except Bytes ℤ

/-- A text as a C string argument: an empty one is a null pointer. -/
def textArgument (text : Bytes) : Option Bytes := if text = [] then none else some text

/-! ## Conditional metadata -/

/-- `OdStatOptions`. -/
structure OdStatOptions where
  version : Option Bytes
  ifMatch : Option Bytes
  ifNoneMatch : Option Bytes
  ifModifiedSinceMs : ℤ
  hasIfModifiedSince : Bool
  ifUnmodifiedSinceMs : ℤ
  hasIfUnmodifiedSince : Bool
  deriving DecidableEq, Repr

/-- `opendal::options::StatOptions`. -/
structure StatOptions where
  version : Option Bytes
  ifMatch : Option Bytes
  ifNoneMatch : Option Bytes
  ifModifiedSince : Option ℤ
  ifUnmodifiedSince : Option ℤ
  deriving DecidableEq, Repr

/-- The further flags of `opendal::Capability` that `od_table_stat_open` reads. -/
structure StatCapability where
  statWithVersion : Bool
  statWithIfMatch : Bool
  statWithIfNoneMatch : Bool
  statWithIfModifiedSince : Bool
  statWithIfUnmodifiedSince : Bool
  deriving DecidableEq, Repr

/-- An operator, with `stat_options`. -/
structure StatOperator extends OdOperator where
  statCap : StatCapability
  statOptions : Bytes → StatOptions → Except OpendalError Metadata

/-- `timestamp`. -/
def timestamp (clock : Timestamps) (ms : ℤ) (present : Bool) (name : String) :
    Except Bytes (Option ℤ) :=
  if present = false then .ok none
  else
    match clock.fromMillisecond ms with
    | .ok time => .ok (some time)
    | .error error => .error (ascii "invalid " ++ ascii name ++ ascii ": " ++ error)

/-- `stat_options`. -/
def statOptions (clock : Timestamps) (raw : OdStatOptions) : Except Bytes StatOptions := do
  let version ← optionalCstr raw.version "version"
  let ifMatch ← optionalCstr raw.ifMatch "if_match"
  let ifNoneMatch ← optionalCstr raw.ifNoneMatch "if_none_match"
  let ifModifiedSince ←
    timestamp clock raw.ifModifiedSinceMs raw.hasIfModifiedSince "if_modified_since"
  let ifUnmodifiedSince ←
    timestamp clock raw.ifUnmodifiedSinceMs raw.hasIfUnmodifiedSince "if_unmodified_since"
  return { version, ifMatch, ifNoneMatch, ifModifiedSince, ifUnmodifiedSince }

/-- `od_table_stat_open`. -/
def odTableStatOpen (clock : Timestamps) (op : StatOperator) (path : Bytes)
    (rawOptions : OdStatOptions) : Except OdError OdTableCursor := do
  let path ← requireCstr path "path is null or not UTF-8"
  require op.scheme op.cap.stat (ascii "stat")
  let options ← invalidInput (statOptions clock rawOptions)
  requireOption op.scheme options.version.isSome op.statCap.statWithVersion
    (ascii "stat_with_version")
  requireOption op.scheme options.ifMatch.isSome op.statCap.statWithIfMatch
    (ascii "stat_with_if_match")
  requireOption op.scheme options.ifNoneMatch.isSome op.statCap.statWithIfNoneMatch
    (ascii "stat_with_if_none_match")
  requireOption op.scheme options.ifModifiedSince.isSome op.statCap.statWithIfModifiedSince
    (ascii "stat_with_if_modified_since")
  requireOption op.scheme options.ifUnmodifiedSince.isSome op.statCap.statWithIfUnmodifiedSince
    (ascii "stat_with_if_unmodified_since")
  let metadata ← orOpendalError (op.statOptions path options)
  return {
    source := .one (some (path, metadata))
    glob := none
    selfPath := none
    current := none }

/-! ## The statements of `opendal_stat` and `opendal_ls` -/

/-- `EntryScanKind`. -/
inductive EntryScanKind where
  | STAT
  | LIST
  deriving DecidableEq, Repr

/-- `EntryBindData`, without the file system. -/
structure EntryBindData where
  kind : EntryScanKind
  target : Bytes
  version : Bytes
  ifMatch : Bytes
  ifNoneMatch : Bytes
  startAfter : Bytes
  ifModifiedSinceMs : ℤ
  ifUnmodifiedSinceMs : ℤ
  hasIfModifiedSince : Bool
  hasIfUnmodifiedSince : Bool
  recursive : Bool
  versions : Bool
  deleted : Bool
  deriving DecidableEq, Repr

/-- `EntryBindData` before its parameters are read. -/
def EntryBindData.initial (kind : EntryScanKind) (target : Bytes) : EntryBindData :=
  ⟨kind, target, [], [], [], [], 0, 0, false, false, false, false, false⟩

/-- `ReadCommonOptions`. -/
def readCommonOptions (clock : Timestamps) (parameters : NamedParameters)
    (result : EntryBindData) : EntryBindData :=
  { result with
    version := stringParameter parameters (ascii "version")
    ifMatch := stringParameter parameters (ascii "if_match")
    ifNoneMatch := stringParameter parameters (ascii "if_none_match")
    hasIfModifiedSince := (parameters.time (ascii "if_modified_since")).isSome
    ifModifiedSinceMs :=
      ((parameters.time (ascii "if_modified_since")).map clock.getEpochMs).getD 0
    hasIfUnmodifiedSince := (parameters.time (ascii "if_unmodified_since")).isSome
    ifUnmodifiedSinceMs :=
      ((parameters.time (ascii "if_unmodified_since")).map clock.getEpochMs).getD 0 }

/-- `BindEntry`. -/
def bindEntry (clock : Timestamps) (kind : EntryScanKind) (target : Bytes)
    (parameters : NamedParameters) : EntryBindData :=
  match kind with
  | .STAT => readCommonOptions clock parameters (.initial .STAT target)
  | .LIST =>
      { EntryBindData.initial .LIST target with
        startAfter := stringParameter parameters (ascii "start_after")
        recursive := boolParameter parameters (ascii "recursive")
        versions := boolParameter parameters (ascii "versions")
        deleted := boolParameter parameters (ascii "deleted") }

/-- The options `EntryInit` passes to `od_table_stat_open`. -/
def EntryBindData.statArguments (bind : EntryBindData) : OdStatOptions where
  version := textArgument bind.version
  ifMatch := textArgument bind.ifMatch
  ifNoneMatch := textArgument bind.ifNoneMatch
  ifModifiedSinceMs := bind.ifModifiedSinceMs
  hasIfModifiedSince := bind.hasIfModifiedSince
  ifUnmodifiedSinceMs := bind.ifUnmodifiedSinceMs
  hasIfUnmodifiedSince := bind.hasIfUnmodifiedSince

/-- The options `EntryInit` passes to the listing entry points. -/
def EntryBindData.listArguments (bind : EntryBindData) : OdListOptions where
  startAfter := textArgument bind.startAfter
  recursive := bind.recursive
  versions := bind.versions
  deleted := bind.deleted

/-- The name of a scan in its errors. -/
def EntryScanKind.operation : EntryScanKind → String
  | .STAT => "stat"
  | .LIST => "list"

/-- `EntryInit`, up to its cursor; `operators` is what `OperatorForPublic` returns or throws. -/
def entryScanInit (clock : Timestamps) (registry : Registry)
    (operators : ResolvedUrl → Except Bytes StatOperator) (bind : EntryBindData) :
    Except Bytes OdTableCursor :=
  match parseUrl registry bind.target with
  | none => .error (ascii "opendal table scan: unsupported or invalid URL: " ++ bind.target)
  | some u => do
      let op ← operators u
      let cursor :=
        match bind.kind with
        | .STAT => odTableStatOpen clock op u.path bind.statArguments
        | .LIST =>
            if hasGlob u.path then odTableGlobOpen op.toOdOperator u.path bind.listArguments
            else odTableListOpen op.toOdOperator u.path none bind.listArguments
      match cursor with
      | .ok cursor => .ok cursor
      | .error err => .error (throwIfTableError err bind.kind.operation bind.target)

/-! ## What a statement asks for -/

/-- **A text that was asked for**: not if the parameter is absent, NULL or empty, and otherwise up
to its first NUL byte, which has to be UTF-8. -/
structure TextAsked (value option : Option Bytes) : Prop where
  eq : option = (value.bind textArgument).map cStr
  utf8 : ∀ text ∈ option, Utf8.isUtf8 text = true

/-- A time that was asked for. -/
structure TimeAsked (clock : Timestamps) (value option : Option ℤ) : Prop where
  eq : option.map Except.ok =
    value.map fun micros => clock.fromMillisecond (clock.getEpochMs micros)

/-- The options that `opendal_stat` should ask for. -/
structure StatRequest (clock : Timestamps) (parameters : NamedParameters)
    (options : StatOptions) : Prop where
  version : TextAsked (parameters.text (ascii "version")) options.version
  ifMatch : TextAsked (parameters.text (ascii "if_match")) options.ifMatch
  ifNoneMatch : TextAsked (parameters.text (ascii "if_none_match")) options.ifNoneMatch
  ifModifiedSince :
    TimeAsked clock (parameters.time (ascii "if_modified_since")) options.ifModifiedSince
  ifUnmodifiedSince :
    TimeAsked clock (parameters.time (ascii "if_unmodified_since")) options.ifUnmodifiedSince

/-- The service supports each condition that is asked for. -/
structure StatOperator.Supports (op : StatOperator) (options : StatOptions) : Prop where
  stat : op.cap.stat = true
  version : options.version.isSome = true → op.statCap.statWithVersion = true
  ifMatch : options.ifMatch.isSome = true → op.statCap.statWithIfMatch = true
  ifNoneMatch : options.ifNoneMatch.isSome = true → op.statCap.statWithIfNoneMatch = true
  ifModifiedSince :
    options.ifModifiedSince.isSome = true → op.statCap.statWithIfModifiedSince = true
  ifUnmodifiedSince :
    options.ifUnmodifiedSince.isSome = true → op.statCap.statWithIfUnmodifiedSince = true

theorem textArgument_getD (value : Option Bytes) :
    textArgument (value.getD []) = value.bind textArgument := by
  cases value with
  | none => rfl
  | some text => rfl

theorem optionalCstr_eq_ok {argument option : Option Bytes} {name : String} :
    optionalCstr argument name = .ok option ↔
      option = argument.map cStr ∧ ∀ text ∈ option, Utf8.isUtf8 text = true := by
  cases argument with
  | none =>
      simp only [optionalCstr, Except.ok.injEq, Option.map_none]
      exact ⟨fun h => ⟨h.symm, fun text htext => by subst h; cases htext⟩, fun h => h.1.symm⟩
  | some text =>
      rw [optionalCstr]
      cases hread : cstr text with
      | none =>
          refine iff_of_false (fun h => by cases h) ?_
          rintro ⟨rfl, hutf8⟩
          have hsome : cstr text = some (cStr text) := cstr_eq_some_iff.mpr ⟨hutf8 _ rfl, rfl⟩
          rw [hread] at hsome
          cases hsome
      | some text' =>
          obtain ⟨hutf8, rfl⟩ := cstr_eq_some_iff.mp hread
          simp only [Except.ok.injEq, Option.map_some]
          constructor
          · rintro rfl
            exact ⟨rfl, fun text' h => Option.some.inj h ▸ hutf8⟩
          · exact fun h => h.1.symm

/-- A text parameter is decoded as it was asked for, or rejected. -/
theorem optionalCstr_textArgument {parameters : NamedParameters} {name : Bytes}
    {field : String} {option : Option Bytes} :
    optionalCstr (textArgument (stringParameter parameters name)) field = .ok option ↔
      TextAsked (parameters.text name) option := by
  rw [optionalCstr_eq_ok, stringParameter, textArgument_getD]
  exact ⟨fun h => ⟨h.1, h.2⟩, fun h => ⟨h.eq, h.utf8⟩⟩

/-- A time parameter is decoded as it was asked for, or rejected. -/
theorem timestamp_eq_ok {clock : Timestamps} {value option : Option ℤ} {field : String} :
    timestamp clock ((value.map clock.getEpochMs).getD 0) value.isSome field = .ok option ↔
      TimeAsked clock value option := by
  rw [timestamp]
  cases value with
  | none =>
      refine ⟨fun h => ⟨?_⟩, fun h => ?_⟩
      · cases h
        rfl
      · have hnone : option = none := Option.map_eq_none_iff.mp h.eq
        rw [hnone]
        rfl
  | some micros =>
      simp only [Option.isSome_some, Bool.true_eq_false, if_false, Option.map_some,
        Option.getD_some]
      cases htime : clock.fromMillisecond (clock.getEpochMs micros) with
      | error error =>
          refine iff_of_false nofun fun h => ?_
          obtain ⟨time, -, htime'⟩ := Option.map_eq_some_iff.mp h.eq
          cases htime'.trans htime
      | ok time =>
          refine ⟨fun h => ⟨?_⟩, fun h => ?_⟩
          · cases h
            simp only [Option.map_some, htime]
          · obtain ⟨time', rfl, htime'⟩ := Option.map_eq_some_iff.mp h.eq
            cases htime'.trans htime
            rfl

theorem require_eq_ok {scheme opName : Bytes} {supported : Bool} :
    require scheme supported opName = .ok () ↔ supported = true := by
  cases supported with
  | false => exact iff_of_false nofun Bool.false_ne_true
  | true => exact iff_of_true rfl rfl

theorem requireOption_eq_ok {scheme name : Bytes} {requested supported : Bool} :
    requireOption scheme requested supported name = .ok () ↔
      (requested = true → supported = true) := by
  cases requested <;> cases supported <;> simp [requireOption]

/-! ## `opendal_stat` -/

section Stat

variable {clock : Timestamps} {registry : Registry}
  {operators : ResolvedUrl → Except Bytes StatOperator} {getBasename : Bytes → Bytes}
  {url : Bytes} {parameters : NamedParameters}

/-- The options that are decoded are those that were asked for. -/
theorem statOptions_eq_ok {options : StatOptions} :
    statOptions clock (bindEntry clock .STAT url parameters).statArguments = .ok options ↔
      StatRequest clock parameters options := by
  constructor
  · intro h
    obtain ⟨version, hversion, h⟩ := bind_eq_ok.mp h
    obtain ⟨ifMatch, hmatch, h⟩ := bind_eq_ok.mp h
    obtain ⟨ifNoneMatch, hnone, h⟩ := bind_eq_ok.mp h
    obtain ⟨modified, hmodified, h⟩ := bind_eq_ok.mp h
    obtain ⟨unmodified, hunmodified, h⟩ := bind_eq_ok.mp h
    cases h
    exact ⟨optionalCstr_textArgument.mp hversion, optionalCstr_textArgument.mp hmatch,
      optionalCstr_textArgument.mp hnone, timestamp_eq_ok.mp hmodified,
      timestamp_eq_ok.mp hunmodified⟩
  · intro h
    refine bind_eq_ok.mpr ⟨_, optionalCstr_textArgument.mpr h.version, ?_⟩
    refine bind_eq_ok.mpr ⟨_, optionalCstr_textArgument.mpr h.ifMatch, ?_⟩
    refine bind_eq_ok.mpr ⟨_, optionalCstr_textArgument.mpr h.ifNoneMatch, ?_⟩
    refine bind_eq_ok.mpr ⟨_, timestamp_eq_ok.mpr h.ifModifiedSince, ?_⟩
    exact bind_eq_ok.mpr ⟨_, timestamp_eq_ok.mpr h.ifUnmodifiedSince, rfl⟩

/-- The cursor over one object. -/
def OdTableCursor.single (path : Bytes) (metadata : Metadata) : OdTableCursor :=
  ⟨.one (some (path, metadata)), none, none, none⟩

/-- When a cursor over one object opens. -/
theorem odTableStatOpen_eq_ok {op : StatOperator} {path : Bytes} (hpath : cstr path = some path)
    {cursor : OdTableCursor} :
    odTableStatOpen clock op path (bindEntry clock .STAT url parameters).statArguments =
        .ok cursor ↔
      ∃ options metadata, StatRequest clock parameters options ∧ op.Supports options ∧
        op.statOptions path options = .ok metadata ∧ cursor = .single path metadata := by
  rw [odTableStatOpen, requireCstr_eq_ok.mpr hpath, ok_bind]
  constructor
  · intro h
    obtain ⟨⟨⟩, hstat, h⟩ := bind_eq_ok.mp h
    obtain ⟨options, hoptions, h⟩ := bind_eq_ok.mp h
    obtain ⟨⟨⟩, hversion, h⟩ := bind_eq_ok.mp h
    obtain ⟨⟨⟩, hmatch, h⟩ := bind_eq_ok.mp h
    obtain ⟨⟨⟩, hnone, h⟩ := bind_eq_ok.mp h
    obtain ⟨⟨⟩, hmodified, h⟩ := bind_eq_ok.mp h
    obtain ⟨⟨⟩, hunmodified, h⟩ := bind_eq_ok.mp h
    obtain ⟨metadata, hmetadata, h⟩ := bind_eq_ok.mp h
    cases h
    exact ⟨options, metadata, statOptions_eq_ok.mp (invalidInput_eq_ok.mp hoptions),
      ⟨require_eq_ok.mp hstat, requireOption_eq_ok.mp hversion, requireOption_eq_ok.mp hmatch,
        requireOption_eq_ok.mp hnone, requireOption_eq_ok.mp hmodified,
        requireOption_eq_ok.mp hunmodified⟩, orOpendalError_eq_ok.mp hmetadata, rfl⟩
  · rintro ⟨options, metadata, hrequest, hsupports, hmetadata, rfl⟩
    refine bind_eq_ok.mpr ⟨(), require_eq_ok.mpr hsupports.stat, ?_⟩
    refine bind_eq_ok.mpr
      ⟨options, invalidInput_eq_ok.mpr (statOptions_eq_ok.mpr hrequest), ?_⟩
    refine bind_eq_ok.mpr ⟨(), requireOption_eq_ok.mpr hsupports.version, ?_⟩
    refine bind_eq_ok.mpr ⟨(), requireOption_eq_ok.mpr hsupports.ifMatch, ?_⟩
    refine bind_eq_ok.mpr ⟨(), requireOption_eq_ok.mpr hsupports.ifNoneMatch, ?_⟩
    refine bind_eq_ok.mpr ⟨(), requireOption_eq_ok.mpr hsupports.ifModifiedSince, ?_⟩
    refine bind_eq_ok.mpr ⟨(), requireOption_eq_ok.mpr hsupports.ifUnmodifiedSince, ?_⟩
    exact bind_eq_ok.mpr ⟨metadata, orOpendalError_eq_ok.mpr hmetadata, rfl⟩

/-- `EntryFunc` hands out what its cursor reads. -/
theorem handsOut_entryFunc {getBasename : Bytes → Bytes} {size : ℕ} (hsize : 0 < size)
    (target : Bytes) {cursor : OdTableCursor} {rows : List OwnedRow} {out : Except OdError Unit}
    (h : Drains (odTableCursorNext getBasename) cursor rows out) (n : ℕ) :
    (repeatCall (entryFunc getBasename target size) n ⟨cursor, false⟩).HandsOut size
      (rows.map entryValues) (out.mapError (throwIfTableError · "scan" target)) n :=
  handsOut_repeatCall hsize (h.handOn_of_ok fun _ _ => rfl) n

/-- The reading of a cursor over one object: its row, or the error of its texts. -/
theorem drains_single (getBasename : Bytes → Bytes) (path : Bytes) (metadata : Metadata) :
    (∀ row, OwnedRow.fromParts getBasename path metadata = .ok row →
      Drains (odTableCursorNext getBasename) (.single path metadata) [row] (.ok ())) ∧
    ∀ message, OwnedRow.fromParts getBasename path metadata = .error message →
      Drains (odTableCursorNext getBasename) (.single path metadata) []
        (.error (setError .Unexpected message)) := by
  refine ⟨fun row hrow => ?_, fun message hrow => ?_⟩
  · have hnext : odTableCursorNext getBasename (.single path metadata) =
        (⟨.one none, none, none, some row⟩, .ok (some row)) := by
      simp only [odTableCursorNext, OdTableCursor.single, hrow]
      rfl
    exact .row hnext (.done rfl)
  · have hnext : odTableCursorNext getBasename (.single path metadata) =
        (⟨.one none, none, none, none⟩, .error (setError .Unexpected message)) := by
      simp only [odTableCursorNext, OdTableCursor.single, hrow]
    exact .error hnext

/-- The errors of an operator's construction are raised before a cursor is opened. -/
theorem entryScanInit_eq_ok {bind : EntryBindData} {cursor : OdTableCursor} :
    entryScanInit clock registry operators bind = .ok cursor ↔
      ∃ u op, parseUrl registry bind.target = some u ∧ operators u = .ok op ∧
        (match bind.kind with
          | .STAT => odTableStatOpen clock op u.path bind.statArguments
          | .LIST =>
              if hasGlob u.path then odTableGlobOpen op.toOdOperator u.path bind.listArguments
              else odTableListOpen op.toOdOperator u.path none bind.listArguments) =
          .ok cursor := by
  rw [entryScanInit]
  cases hurl : parseUrl registry bind.target with
  | none => exact iff_of_false nofun fun ⟨u, op, h, _⟩ => nomatch h
  | some u =>
      simp only [Option.some.injEq, exists_and_left, exists_eq_left', bind_eq_ok]
      refine exists_congr fun op => and_congr_right fun _ => ?_
      split
      · rename_i opened hopened
        rw [hopened, Except.ok.injEq, Except.ok.injEq]
      · rename_i err herr
        exact iff_of_false nofun fun h => nomatch herr.symm.trans h

variable {size : ℕ}

/-- **When `opendal_stat` answers, and with what.**  Its statement hands out one row and ends,
however often it is called, exactly when the service supports `stat` and every condition that was
asked for, and OpenDAL, asked with these conditions and no others, finds the object; the row is
that of what it finds. -/
theorem opendalStat_iff (hsize : 0 < size) (clock : Timestamps) (registry : Registry)
    (operators : ResolvedUrl → Except Bytes StatOperator) (getBasename : Bytes → Bytes)
    (url : Bytes) (parameters : NamedParameters) (values : EntryValues) :
    (∃ cursor,
      entryScanInit clock registry operators (bindEntry clock .STAT url parameters) = .ok cursor ∧
        ∀ n, (repeatCall (entryFunc getBasename url size) n ⟨cursor, false⟩).HandsOut size
          [values] (.ok ()) n) ↔
    ∃ u op options metadata row, parseUrl registry url = some u ∧ operators u = .ok op ∧
      StatRequest clock parameters options ∧ op.Supports options ∧
      op.statOptions u.path options = .ok metadata ∧
      OwnedRow.fromParts getBasename u.path metadata = .ok row ∧ values = entryValues row := by
  have hopen : ∀ cursor,
      entryScanInit clock registry operators (bindEntry clock .STAT url parameters) =
          .ok cursor ↔
        ∃ u op options metadata, parseUrl registry url = some u ∧ operators u = .ok op ∧
          StatRequest clock parameters options ∧ op.Supports options ∧
          op.statOptions u.path options = .ok metadata ∧ cursor = .single u.path metadata := by
    intro cursor
    rw [entryScanInit_eq_ok]
    constructor
    · rintro ⟨u, op, hurl, hop, h⟩
      have hu := wellFormed_of_parseUrl hurl
      obtain ⟨options, metadata, h⟩ :=
        (odTableStatOpen_eq_ok (cstr_of_utf8 hu.path_nul hu.path_utf8)).mp h
      exact ⟨u, op, options, metadata, hurl, hop, h⟩
    · rintro ⟨u, op, options, metadata, hurl, hop, h⟩
      have hu := wellFormed_of_parseUrl hurl
      exact ⟨u, op, hurl, hop,
        (odTableStatOpen_eq_ok (cstr_of_utf8 hu.path_nul hu.path_utf8)).mpr
          ⟨options, metadata, h⟩⟩
  constructor
  · rintro ⟨cursor, hcursor, hrows⟩
    obtain ⟨u, op, options, metadata, hurl, hop, hrequest, hsupports, hmetadata, rfl⟩ :=
      (hopen cursor).mp hcursor
    refine ⟨u, op, options, metadata, ?_⟩
    obtain ⟨hsingle, hfailed⟩ := drains_single getBasename u.path metadata
    cases hrow : OwnedRow.fromParts getBasename u.path metadata with
    | error message =>
        have hhands := handsOut_entryFunc hsize url (hfailed message hrow)
        cases (Run.HandsOut.unique hsize hrows hhands).1
    | ok row =>
        have hhands := handsOut_entryFunc hsize url (hsingle row hrow)
        obtain ⟨hvalues, -⟩ := Run.HandsOut.unique hsize hrows hhands
        exact ⟨row, hurl, hop, hrequest, hsupports, hmetadata, rfl,
          (List.cons.inj hvalues).1⟩
  · rintro ⟨u, op, options, metadata, row, hurl, hop, hrequest, hsupports, hmetadata, hrow, rfl⟩
    refine ⟨.single u.path metadata, (hopen _).mpr ⟨u, op, options, metadata, hurl, hop,
      hrequest, hsupports, hmetadata, rfl⟩, ?_⟩
    exact handsOut_entryFunc hsize url ((drains_single getBasename u.path metadata).1 row hrow)

end Stat

/-- An operator that keeps versions of one file, and has no other condition. -/
def versionedOperator : StatOperator where
  toOdOperator := oneFile 3
  statCap := ⟨true, false, false, false, false⟩
  statOptions path options :=
    if options.version = some (ascii "v1") then (oneFile 3).stat path none
    else .error ⟨.NotFound, ascii "not found"⟩

/-- A statement that asks for a version. -/
def versionAsked : NamedParameters :=
  { NamedParameters.unset with
    text := fun name => if name = ascii "version" then some (ascii "v1") else none }

/-- A clock that takes every timestamp. -/
def plainClock : Timestamps := ⟨(· / 1000), .ok⟩

/-- The row of a version that is there. -/
theorem opendalStat_iff_version : ∃ cursor,
    entryScanInit plainClock defaultRegistry (fun _ => .ok versionedOperator)
        (bindEntry plainClock .STAT (ascii "memory:///d/a") versionAsked) = .ok cursor ∧
      ∀ n, (repeatCall (entryFunc (Text.afterLast slash) (ascii "memory:///d/a") 1) n
        ⟨cursor, false⟩).HandsOut 1
        [entryValues (.ofParts (Text.afterLast slash) (ascii "d/a") (.ofLength .FILE 3))]
        (.ok ()) n :=
  (opendalStat_iff Nat.one_pos plainClock defaultRegistry (fun _ => .ok versionedOperator)
    (Text.afterLast slash) (ascii "memory:///d/a") versionAsked _).mpr
    ⟨⟨ascii "memory", [], ascii "d/a"⟩, versionedOperator, ⟨some (ascii "v1"), none, none, none,
      none⟩, .ofLength .FILE 3, .ofParts (Text.afterLast slash) (ascii "d/a") (.ofLength .FILE 3),
      by decide, rfl,
      ⟨⟨rfl, by decide⟩, ⟨rfl, nofun⟩, ⟨rfl, nofun⟩, ⟨rfl⟩, ⟨rfl⟩⟩,
      ⟨rfl, fun _ => rfl, nofun, nofun, nofun, nofun⟩, rfl, rfl, rfl⟩

/-! ## `opendal_ls` -/

/-- The options that `opendal_ls` should ask for; a pattern is looked for at every depth. -/
structure ListRequest (parameters : NamedParameters) (pattern : Bool) (options : ListOptions) :
    Prop where
  startAfter : TextAsked (parameters.text (ascii "start_after")) options.startAfter
  recursive : options.recursive = (pattern || boolParameter parameters (ascii "recursive"))
  versions : options.versions = boolParameter parameters (ascii "versions")
  deleted : options.deleted = boolParameter parameters (ascii "deleted")

/-- The service supports the listing that is asked for. -/
structure OdOperator.SupportsListing (op : OdOperator) (options : ListOptions) : Prop where
  list : op.cap.list = true
  startAfter : options.startAfter.isSome = true → op.cap.listWithStartAfter = true
  versions : options.versions = true → op.cap.listWithVersions = true
  deleted : options.deleted = true → op.cap.listWithDeleted = true

/-- Where the listing for a path starts. -/
def listRoot (path : Bytes) : Bytes := if hasGlob path then globRoot path else path

/-- The cursor over the listing for a path. -/
def OdTableCursor.listing (path : Bytes) (lister : List (Except OpendalError Entry)) :
    OdTableCursor where
  source := .list lister
  glob := if hasGlob path then some (trimStartSlashes path) else none
  selfPath := some (trimEndSlashes (trimStartSlashes (listRoot path)))
  current := none

section List

variable {registry : Registry} {url : Bytes} {parameters : NamedParameters}

/-- When a listing opens. -/
theorem odTableListOpen_eq_ok {op : OdOperator} {path : Bytes} {glob : Option Bytes}
    (hpath : cstr path = some path) (hglob : optionalCstr glob "glob" = .ok glob)
    {raw : OdListOptions} {cursor : OdTableCursor} :
    odTableListOpen op path glob raw = .ok cursor ↔
      ∃ options lister, listOptions raw = .ok options ∧ op.SupportsListing options ∧
        op.lister path options = .ok lister ∧
        cursor = ⟨.list lister, glob, some (trimEndSlashes (trimStartSlashes path)), none⟩ := by
  rw [odTableListOpen, requireCstr_eq_ok.mpr hpath, ok_bind, invalidInput_eq_ok.mpr hglob,
    ok_bind]
  constructor
  · intro h
    obtain ⟨⟨⟩, hlist, h⟩ := bind_eq_ok.mp h
    obtain ⟨options, hoptions, h⟩ := bind_eq_ok.mp h
    obtain ⟨⟨⟩, hstart, h⟩ := bind_eq_ok.mp h
    obtain ⟨⟨⟩, hversions, h⟩ := bind_eq_ok.mp h
    obtain ⟨⟨⟩, hdeleted, h⟩ := bind_eq_ok.mp h
    obtain ⟨lister, hlister, h⟩ := bind_eq_ok.mp h
    cases h
    exact ⟨options, lister, invalidInput_eq_ok.mp hoptions,
      ⟨require_eq_ok.mp hlist, requireOption_eq_ok.mp hstart, requireOption_eq_ok.mp hversions,
        requireOption_eq_ok.mp hdeleted⟩, orOpendalError_eq_ok.mp hlister, rfl⟩
  · rintro ⟨options, lister, hoptions, hsupports, hlister, rfl⟩
    refine bind_eq_ok.mpr ⟨(), require_eq_ok.mpr hsupports.list, ?_⟩
    refine bind_eq_ok.mpr ⟨options, invalidInput_eq_ok.mpr hoptions, ?_⟩
    refine bind_eq_ok.mpr ⟨(), requireOption_eq_ok.mpr hsupports.startAfter, ?_⟩
    refine bind_eq_ok.mpr ⟨(), requireOption_eq_ok.mpr hsupports.versions, ?_⟩
    refine bind_eq_ok.mpr ⟨(), requireOption_eq_ok.mpr hsupports.deleted, ?_⟩
    exact bind_eq_ok.mpr ⟨lister, orOpendalError_eq_ok.mpr hlister, rfl⟩

/-- The options that are decoded are those that were asked for. -/
theorem listOptions_eq_ok {recursive : Bool} {options : ListOptions} :
    listOptions ⟨textArgument (stringParameter parameters (ascii "start_after")), recursive,
        boolParameter parameters (ascii "versions"),
        boolParameter parameters (ascii "deleted")⟩ = .ok options ↔
      TextAsked (parameters.text (ascii "start_after")) options.startAfter ∧
        options.recursive = recursive ∧
        options.versions = boolParameter parameters (ascii "versions") ∧
        options.deleted = boolParameter parameters (ascii "deleted") := by
  constructor
  · intro h
    obtain ⟨startAfter, hstart, h⟩ := bind_eq_ok.mp h
    cases h
    exact ⟨optionalCstr_textArgument.mp hstart, rfl, rfl, rfl⟩
  · obtain ⟨startAfter, recursive', versions, deleted⟩ := options
    rintro ⟨hstart, rfl, rfl, rfl⟩
    exact bind_eq_ok.mpr ⟨_, optionalCstr_textArgument.mpr hstart, rfl⟩

/-- When `EntryInit` opens a listing. -/
theorem listing_eq_ok {op : OdOperator} {u : ResolvedUrl} (hu : u.WellFormed registry)
    {cursor : OdTableCursor} (clock : Timestamps) :
    (if hasGlob u.path then
        odTableGlobOpen op u.path (bindEntry clock .LIST url parameters).listArguments
      else odTableListOpen op u.path none (bindEntry clock .LIST url parameters).listArguments) =
        .ok cursor ↔
      ∃ options lister, ListRequest parameters (hasGlob u.path) options ∧
        op.SupportsListing options ∧ op.lister (listRoot u.path) options = .ok lister ∧
        cursor = .listing u.path lister := by
  have hpath := cstr_of_utf8 hu.path_nul hu.path_utf8
  cases hglob : hasGlob u.path with
  | false =>
      have hnone : optionalCstr none "glob" = .ok none := rfl
      simp only [Bool.false_eq_true, if_false, odTableListOpen_eq_ok hpath hnone, listRoot,
        OdTableCursor.listing, hglob]
      refine exists_congr fun options => exists_congr fun lister => and_congr_left fun _ => ?_
      rw [EntryBindData.listArguments, bindEntry, listOptions_eq_ok]
      exact ⟨fun h => ⟨h.1, h.2.1, h.2.2.1, h.2.2.2⟩,
        fun h => ⟨h.startAfter, h.recursive, h.versions, h.deleted⟩⟩
  | true =>
      have hnew : CString.new (trimStartSlashes u.path) = some (trimStartSlashes u.path) :=
        CString.new_eq_some_iff.mpr ⟨fun h => hu.path_nul ((List.dropWhile_suffix _).mem h), rfl⟩
      have hpattern := cstr_trimStartSlashes hu.path_utf8 hu.path_nul
      have hroot := cstr_globRoot hu.path_utf8 hu.path_nul
      have hoptional : optionalCstr (some (trimStartSlashes u.path)) "glob" =
          .ok (some (trimStartSlashes u.path)) := by
        simp only [optionalCstr, hpattern]
      simp only [odTableGlobOpen, requireCstr_eq_ok.mpr hpath, ok_bind, hglob, hnew,
        Bool.true_eq_false, if_false, if_true, odTableListOpen_eq_ok hroot hoptional, listRoot,
        OdTableCursor.listing]
      refine exists_congr fun options => exists_congr fun lister => and_congr_left fun _ => ?_
      rw [EntryBindData.listArguments, bindEntry, listOptions_eq_ok]
      exact ⟨fun h => ⟨h.1, h.2.1, h.2.2.1, h.2.2.2⟩,
        fun h => ⟨h.startAfter, h.recursive, h.versions, h.deleted⟩⟩

/-- **What `opendal_ls` asks OpenDAL for.**  Its statement opens exactly when the service supports
the listing and everything that was asked for, and OpenDAL, asked for just that, begins to list;
then it hands out the rows of what is listed, but of what a pattern excludes and of what is
spelled like the listed root, up to the first failure. -/
theorem opendalLs_iff {size : ℕ} (hsize : 0 < size) (clock : Timestamps) (registry : Registry)
    (operators : ResolvedUrl → Except Bytes StatOperator) (getBasename : Bytes → Bytes)
    (url : Bytes) (parameters : NamedParameters) :
    (∀ cursor, entryScanInit clock registry operators (bindEntry clock .LIST url parameters) =
        .ok cursor ↔
      ∃ u op options lister, parseUrl registry url = some u ∧ operators u = .ok op ∧
        ListRequest parameters (hasGlob u.path) options ∧ op.SupportsListing options ∧
        op.lister (listRoot u.path) options = .ok lister ∧ cursor = .listing u.path lister) ∧
    ∀ path lister n,
      let read := collect (OdTableCursor.visit getBasename (.listing path lister)) lister
      (repeatCall (entryFunc getBasename url size) n ⟨.listing path lister, false⟩).HandsOut size
        (read.1.map entryValues) (read.2.mapError (throwIfTableError · "scan" url)) n := by
  refine ⟨fun cursor => ?_, fun path lister n => ?_⟩
  · rw [entryScanInit_eq_ok]
    constructor
    · rintro ⟨u, op, hurl, hop, h⟩
      obtain ⟨options, lister, h⟩ := (listing_eq_ok (wellFormed_of_parseUrl hurl) clock).mp h
      exact ⟨u, op, options, lister, hurl, hop, h⟩
    · rintro ⟨u, op, options, lister, hurl, hop, h⟩
      exact ⟨u, op, hurl, hop,
        (listing_eq_ok (wellFormed_of_parseUrl hurl) clock).mpr ⟨options, lister, h⟩⟩
  · exact handsOut_entryFunc hsize url
      (OdTableCursor.drains getBasename (.listing path lister) rfl) n

end List

/-- A statement that asks for everything below a directory, behind one name. -/
def recursiveAsked : NamedParameters :=
  { NamedParameters.unset with
    text := fun name => if name = ascii "start_after" then some (ascii "d/a") else none
    flag := fun name => if name = ascii "recursive" then some true else none }

/-- A listing opens with what was asked for. -/
theorem opendalLs_iff_recursive : ∃ cursor,
    entryScanInit plainClock defaultRegistry (fun _ => .ok versionedOperator)
      (bindEntry plainClock .LIST (ascii "memory:///d/") recursiveAsked) = .ok cursor :=
  ⟨_, ((opendalLs_iff Nat.one_pos plainClock defaultRegistry (fun _ => .ok versionedOperator)
    (Text.afterLast slash) (ascii "memory:///d/") recursiveAsked).1 _).mpr
      ⟨⟨ascii "memory", [], ascii "d/"⟩, versionedOperator,
        ⟨some (ascii "d/a"), true, false, false⟩, _, by decide, rfl,
        ⟨⟨rfl, by decide⟩, rfl, rfl, rfl⟩, ⟨rfl, fun _ => rfl, nofun, nofun⟩, rfl, rfl⟩⟩

/-! ## `opendal_copy` -/

/-- The `read_size` of `CopyBind`. -/
def readSize (parameters : NamedParameters) (name : Bytes) (allowZero : Bool) :
    Except Bytes (Option U64) :=
  match parameters.size name with
  | none => .ok none
  | some value =>
      if value = 0 ∧ allowZero = false then
        .error (ascii "opendal copy: " ++ name ++ ascii " must be positive")
      else .ok (some value)

/-- `CopyBind`. -/
def copyBind (source destination : Bytes) (parameters : NamedParameters) :
    Except Bytes CopyBindData := do
  let hint ← readSize parameters (ascii "source_content_length_hint") true
  let concurrent ← readSize parameters (ascii "concurrent") false
  let chunkSize ← readSize parameters (ascii "chunk_size") false
  return {
    source, destination
    ifNotExists := boolParameter parameters (ascii "if_not_exists")
    ifMatch := stringParameter parameters (ascii "if_match")
    sourceVersion := stringParameter parameters (ascii "source_version")
    sourceContentLengthHint := hint.getD 0
    hasSourceContentLengthHint := hint.isSome
    concurrent := (concurrent.getD 0).val
    hasConcurrent := concurrent.isSome
    chunkSize := (chunkSize.getD 0).val
    hasChunkSize := chunkSize.isSome }

/-- A copy statement, up to its cursor: it is bound, and on its first call opened. -/
def copyScanOpen (registry : Registry) (operators : ResolvedUrl → Except Bytes OdOperator)
    (source destination : Bytes) (parameters : NamedParameters) : Except Bytes OdCopyCursor := do
  let bind ← copyBind source destination parameters
  openCopyCursor registry operators bind

/-- A number that was asked for; zero is refused. -/
structure SizeAsked (value : Option U64) (option : Option ℕ) : Prop where
  eq : option = value.map Fin.val
  pos : ∀ n ∈ option, 0 < n

/-- The options that `opendal_copy` should ask for. -/
structure CopyRequest (parameters : NamedParameters) (options : CopyOptions) : Prop where
  ifNotExists : options.ifNotExists = boolParameter parameters (ascii "if_not_exists")
  ifMatch : TextAsked (parameters.text (ascii "if_match")) options.ifMatch
  sourceVersion : TextAsked (parameters.text (ascii "source_version")) options.sourceVersion
  hint : options.sourceContentLengthHint = parameters.size (ascii "source_content_length_hint")
  concurrent : SizeAsked (parameters.size (ascii "concurrent"))
    (if options.concurrent = 0 then none else some options.concurrent)
  chunk : SizeAsked (parameters.size (ascii "chunk_size")) (options.chunk.map Subtype.val)

/-- The services support the copy that is asked for: on the side of one service, or from a reader
to a writer. -/
structure SupportsCopy (sourceOp destinationOp : OdOperator) (options : CopyOptions) : Prop where
  read : sameOpCopy sourceOp destinationOp = false → sourceOp.cap.read = true
  write : sameOpCopy sourceOp destinationOp = false → destinationOp.cap.write = true
  ifNotExists : options.ifNotExists = true →
    (if sameOpCopy sourceOp destinationOp then sourceOp.cap.copyWithIfNotExists
      else destinationOp.cap.writeWithIfNotExists) = true
  ifMatch : options.ifMatch.isSome = true →
    (if sameOpCopy sourceOp destinationOp then sourceOp.cap.copyWithIfMatch
      else destinationOp.cap.writeWithIfMatch) = true
  sourceVersion : options.sourceVersion.isSome = true →
    (if sameOpCopy sourceOp destinationOp then sourceOp.cap.copyWithSourceVersion
      else sourceOp.cap.readWithVersion) = true

/-- A number is read as it was given; zero may be refused. -/
theorem readSize_eq_ok {parameters : NamedParameters} {name : Bytes} {allowZero : Bool}
    {value : Option U64} :
    readSize parameters name allowZero = .ok value ↔
      value = parameters.size name ∧ (allowZero = false → ∀ n ∈ value, 0 < n.val) := by
  rw [readSize]
  cases parameters.size name with
  | none =>
      constructor
      · intro h
        cases h
        exact ⟨rfl, fun _ => nofun⟩
      · rintro ⟨rfl, -⟩
        rfl
  | some n =>
      simp only
      split
      · rename_i hzero
        refine iff_of_false nofun ?_
        rintro ⟨rfl, hpos⟩
        exact absurd (hpos hzero.2 n rfl) (hzero.1 ▸ Nat.lt_irrefl 0)
      · rename_i hnot
        constructor
        · intro h
          cases h
          refine ⟨rfl, fun hallow n' hn' => ?_⟩
          cases hn'
          exact Nat.pos_of_ne_zero fun hzero => hnot ⟨Fin.ext hzero, hallow⟩
        · rintro ⟨rfl, -⟩
          rfl

/-- What `CopyBind` makes of the parameters of a copy. -/
def boundCopy (source destination : Bytes) (parameters : NamedParameters) : CopyBindData where
  source := source
  destination := destination
  ifNotExists := boolParameter parameters (ascii "if_not_exists")
  ifMatch := stringParameter parameters (ascii "if_match")
  sourceVersion := stringParameter parameters (ascii "source_version")
  sourceContentLengthHint := (parameters.size (ascii "source_content_length_hint")).getD 0
  hasSourceContentLengthHint :=
    (parameters.size (ascii "source_content_length_hint")).isSome
  concurrent := ((parameters.size (ascii "concurrent")).getD 0).val
  hasConcurrent := (parameters.size (ascii "concurrent")).isSome
  chunkSize := ((parameters.size (ascii "chunk_size")).getD 0).val
  hasChunkSize := (parameters.size (ascii "chunk_size")).isSome

theorem copyBind_eq_ok {source destination : Bytes} {parameters : NamedParameters}
    {bind : CopyBindData} :
    copyBind source destination parameters = .ok bind ↔
      (∀ n ∈ parameters.size (ascii "concurrent"), 0 < n.val) ∧
        (∀ n ∈ parameters.size (ascii "chunk_size"), 0 < n.val) ∧
        bind = boundCopy source destination parameters := by
  constructor
  · intro h
    obtain ⟨hint, hhint, h⟩ := bind_eq_ok.mp h
    obtain ⟨concurrent, hconcurrent, h⟩ := bind_eq_ok.mp h
    obtain ⟨chunkSize, hchunk, h⟩ := bind_eq_ok.mp h
    obtain ⟨rfl, -⟩ := readSize_eq_ok.mp hhint
    obtain ⟨rfl, hconcurrent⟩ := readSize_eq_ok.mp hconcurrent
    obtain ⟨rfl, hchunk⟩ := readSize_eq_ok.mp hchunk
    cases h
    exact ⟨hconcurrent rfl, hchunk rfl, rfl⟩
  · rintro ⟨hconcurrent, hchunk, rfl⟩
    refine bind_eq_ok.mpr ⟨_, readSize_eq_ok.mpr ⟨rfl, nofun⟩, ?_⟩
    refine bind_eq_ok.mpr ⟨_, readSize_eq_ok.mpr ⟨rfl, fun _ => hconcurrent⟩, ?_⟩
    exact bind_eq_ok.mpr ⟨_, readSize_eq_ok.mpr ⟨rfl, fun _ => hchunk⟩, rfl⟩

/-- A number that was asked for is positive. -/
theorem SizeAsked.value_pos {value : Option U64} {option : Option ℕ}
    (h : SizeAsked value option) : ∀ n ∈ value, 0 < n.val := fun n hn =>
  h.pos n.val (by rw [h.eq, hn]; rfl)

/-- The concurrency of a copy is the number that was asked for, or left to OpenDAL. -/
theorem concurrent_eq_iff {value : Option U64} (hvalue : ∀ n ∈ value, 0 < n.val) {n : ℕ} :
    (if value.isSome then (value.getD 0).val else 0) = n ↔
      SizeAsked value (if n = 0 then none else some n) := by
  cases value with
  | none =>
      constructor
      · rintro rfl
        exact ⟨rfl, nofun⟩
      · intro h
        by_contra hne
        have heq := h.eq
        rw [if_neg fun hzero => hne hzero.symm] at heq
        cases heq
  | some m =>
      have hm : 0 < m.val := hvalue m rfl
      simp only [Option.isSome_some, if_true, Option.getD_some]
      constructor
      · rintro rfl
        rw [if_neg (Nat.ne_of_gt hm)]
        exact ⟨rfl, fun k hk => Option.some.inj hk ▸ hm⟩
      · intro h
        have heq := h.eq
        split at heq
        · cases heq
        · exact (Option.some.inj heq).symm

/-- The chunk size of a copy is the number that was asked for, or left to the extension. -/
theorem chunk_eq_iff {value : Option U64} (hvalue : ∀ n ∈ value, 0 < n.val)
    {chunk : Option {n : ℕ // 0 < n}} :
    (if h : value.isSome = true ∧ 0 < (value.getD 0).val then
        some (⟨(value.getD 0).val, h.2⟩ : {n : ℕ // 0 < n}) else none) = chunk ↔
      SizeAsked value (chunk.map Subtype.val) := by
  cases value with
  | none =>
      rw [dif_neg fun h => nomatch h.1]
      constructor
      · rintro rfl
        exact ⟨rfl, nofun⟩
      · exact fun h => (Option.map_eq_none_iff.mp h.eq).symm
  | some m =>
      have hm : 0 < m.val := hvalue m rfl
      rw [dif_pos ⟨rfl, hm⟩]
      constructor
      · rintro rfl
        exact ⟨rfl, fun k hk => Option.some.inj hk ▸ hm⟩
      · intro h
        obtain ⟨k, rfl, hk⟩ := Option.map_eq_some_iff.mp h.eq
        exact congrArg some (Subtype.ext hk.symm)

/-- The options of a bound copy that is decoded are those that were asked for. -/
theorem copyOptions_eq_ok (source destination : Bytes) {parameters : NamedParameters}
    {options : CopyOptions} (hconcurrent : ∀ n ∈ parameters.size (ascii "concurrent"), 0 < n.val)
    (hchunk : ∀ n ∈ parameters.size (ascii "chunk_size"), 0 < n.val) :
    copyOptions (boundCopy source destination parameters).options = .ok options ↔
      CopyRequest parameters options := by
  have hfirst : ¬ ((boundCopy source destination parameters).options.hasConcurrent = true ∧
      (boundCopy source destination parameters).options.concurrent = 0) := by
    rintro ⟨hhas, hzero⟩
    obtain ⟨n, hn⟩ := Option.isSome_iff_exists.mp hhas
    have hpos := hconcurrent n hn
    simp only [boundCopy, CopyBindData.options, hn, Option.getD_some] at hzero
    omega
  have hsecond : ¬ ((boundCopy source destination parameters).options.hasChunkSize = true ∧
      (boundCopy source destination parameters).options.chunkSize = 0) := by
    rintro ⟨hhas, hzero⟩
    obtain ⟨n, hn⟩ := Option.isSome_iff_exists.mp hhas
    have hpos := hchunk n hn
    simp only [boundCopy, CopyBindData.options, hn, Option.getD_some] at hzero
    omega
  have hhint : ∀ value : Option U64,
      (if value.isSome = true then some (value.getD 0) else none) = value := fun value => by
    cases value with
    | none => rfl
    | some n => rfl
  rw [copyOptions, if_neg hfirst, if_neg hsecond]
  constructor
  · intro h
    obtain ⟨ifMatch, hmatch, h⟩ := bind_eq_ok.mp h
    obtain ⟨sourceVersion, hversion, h⟩ := bind_eq_ok.mp h
    cases h
    exact ⟨rfl, optionalCstr_textArgument.mp hmatch, optionalCstr_textArgument.mp hversion,
      hhint _, (concurrent_eq_iff hconcurrent).mp rfl, (chunk_eq_iff hchunk).mp rfl⟩
  · intro h
    refine bind_eq_ok.mpr ⟨_, optionalCstr_textArgument.mpr h.ifMatch, ?_⟩
    refine bind_eq_ok.mpr ⟨_, optionalCstr_textArgument.mpr h.sourceVersion, ?_⟩
    have hexists := h.ifNotExists
    have hhintEq := h.hint
    have hconcurrentEq := (concurrent_eq_iff hconcurrent).mpr h.concurrent
    have hchunkEq := (chunk_eq_iff hchunk).mpr h.chunk
    obtain ⟨ifNotExists, ifMatch, sourceVersion, hint, concurrent, chunk⟩ := options
    subst hexists hhintEq hconcurrentEq hchunkEq
    exact congrArg Except.ok (CopyOptions.mk.injEq .. ▸ ⟨rfl, rfl, rfl, hhint _, rfl, rfl⟩)

/-- The checks of a copy pass when the services support it. -/
theorem copyChecks_eq_ok {sourceOp destinationOp : OdOperator} {options : CopyOptions} :
    copyChecks sourceOp destinationOp options = .ok () ↔
      SupportsCopy sourceOp destinationOp options := by
  rw [copyChecks]
  cases hsame : sameOpCopy sourceOp destinationOp with
  | true =>
      rw [if_pos rfl]
      constructor
      · intro h
        obtain ⟨⟨⟩, hexists, h⟩ := bind_eq_ok.mp h
        obtain ⟨⟨⟩, hmatch, hversion⟩ := bind_eq_ok.mp h
        refine ⟨fun h => ?_, fun h => ?_, ?_, ?_, ?_⟩
        · exact nomatch hsame.symm.trans h
        · exact nomatch hsame.symm.trans h
        · rw [hsame]
          exact requireOption_eq_ok.mp hexists
        · rw [hsame]
          exact requireOption_eq_ok.mp hmatch
        · rw [hsame]
          exact requireOption_eq_ok.mp hversion
      · intro h
        have hexists := h.ifNotExists
        have hmatch := h.ifMatch
        have hversion := h.sourceVersion
        rw [hsame, if_pos rfl] at hexists hmatch hversion
        refine bind_eq_ok.mpr ⟨(), requireOption_eq_ok.mpr hexists, ?_⟩
        exact bind_eq_ok.mpr ⟨(), requireOption_eq_ok.mpr hmatch,
          requireOption_eq_ok.mpr hversion⟩
  | false =>
      rw [if_neg Bool.false_ne_true]
      constructor
      · intro h
        obtain ⟨⟨⟩, hread, h⟩ := bind_eq_ok.mp h
        obtain ⟨⟨⟩, hwrite, h⟩ := bind_eq_ok.mp h
        obtain ⟨⟨⟩, hversion, h⟩ := bind_eq_ok.mp h
        obtain ⟨⟨⟩, hexists, hmatch⟩ := bind_eq_ok.mp h
        refine ⟨fun _ => require_eq_ok.mp hread, fun _ => require_eq_ok.mp hwrite, ?_, ?_, ?_⟩
        · rw [hsame]
          exact requireOption_eq_ok.mp hexists
        · rw [hsame]
          exact requireOption_eq_ok.mp hmatch
        · rw [hsame]
          exact requireOption_eq_ok.mp hversion
      · intro h
        have hexists := h.ifNotExists
        have hmatch := h.ifMatch
        have hversion := h.sourceVersion
        rw [hsame, if_neg Bool.false_ne_true] at hexists hmatch hversion
        refine bind_eq_ok.mpr ⟨(), require_eq_ok.mpr (h.read hsame), ?_⟩
        refine bind_eq_ok.mpr ⟨(), require_eq_ok.mpr (h.write hsame), ?_⟩
        refine bind_eq_ok.mpr ⟨(), requireOption_eq_ok.mpr hversion, ?_⟩
        exact bind_eq_ok.mpr ⟨(), requireOption_eq_ok.mpr hexists,
          requireOption_eq_ok.mpr hmatch⟩

/-- When a copy opens. -/
theorem odTableCopyOpen_iff {sourceOp destinationOp : OdOperator} {source destination : Bytes}
    (hsource : cstr source = some source) (hdestination : cstr destination = some destination)
    {raw : OdCopyOptions} {cursor : OdCopyCursor} :
    odTableCopyOpen sourceOp source destinationOp destination raw = .ok cursor ↔
      ∃ options plan, copyOptions raw = .ok options ∧
        copyChecks sourceOp destinationOp options = .ok () ∧
        copyPlan sourceOp source destination options = .ok plan ∧
        cursor =
          ⟨sourceOp, destinationOp, options, sameOpCopy sourceOp destinationOp, plan, none⟩ := by
  constructor
  · intro h
    rw [odTableCopyOpen, requireCstr_eq_ok.mpr hsource, requireCstr_eq_ok.mpr hdestination,
      ok_bind, ok_bind] at h
    obtain ⟨options, hoptions, h⟩ := bind_eq_ok.mp h
    obtain ⟨⟨⟩, hchecks, h⟩ := bind_eq_ok.mp h
    obtain ⟨plan, hplan, h⟩ := bind_eq_ok.mp h
    cases h
    exact ⟨options, plan, invalidInput_eq_ok.mp hoptions, hchecks, hplan, rfl⟩
  · rintro ⟨options, plan, hoptions, hchecks, hplan, rfl⟩
    exact odTableCopyOpen_eq hsource hdestination hoptions hchecks hplan

/-- When `OpenCopyCursor` opens a copy. -/
theorem openCopyCursor_eq_ok {registry : Registry}
    {operators : ResolvedUrl → Except Bytes OdOperator} {bind : CopyBindData}
    {cursor : OdCopyCursor} :
    openCopyCursor registry operators bind = .ok cursor ↔
      ∃ s d sourceOp destinationOp, parseUrl registry bind.source = some s ∧
        parseUrl registry bind.destination = some d ∧ operators s = .ok sourceOp ∧
        operators d = .ok destinationOp ∧
        odTableCopyOpen sourceOp s.path destinationOp d.path bind.options = .ok cursor := by
  rw [openCopyCursor]
  cases hs : parseUrl registry bind.source with
  | none => exact iff_of_false nofun fun ⟨_, _, _, _, h, _⟩ => nomatch h
  | some s =>
      cases hd : parseUrl registry bind.destination with
      | none => exact iff_of_false nofun fun ⟨_, _, _, _, _, h, _⟩ => nomatch h
      | some d =>
          simp only [Option.some.injEq, exists_and_left, exists_eq_left', bind_eq_ok]
          refine exists_congr fun sourceOp => and_congr_right fun _ =>
            exists_congr fun destinationOp => and_congr_right fun _ => ?_
          split
          · rename_i opened hopened
            rw [hopened, Except.ok.injEq, Except.ok.injEq]
          · rename_i err herr
            exact iff_of_false nofun fun h => nomatch herr.symm.trans h

/-- **What `opendal_copy` asks OpenDAL for.**  Its statement opens exactly when both URLs are
accepted, the services support every condition that was asked for, and the plan can be made; its
copies are made under just these conditions. -/
theorem opendalCopy_iff (registry : Registry) (operators : ResolvedUrl → Except Bytes OdOperator)
    (source destination : Bytes) (parameters : NamedParameters) (cursor : OdCopyCursor) :
    copyScanOpen registry operators source destination parameters = .ok cursor ↔
      ∃ s d sourceOp destinationOp options plan, parseUrl registry source = some s ∧
        parseUrl registry destination = some d ∧ operators s = .ok sourceOp ∧
        operators d = .ok destinationOp ∧ CopyRequest parameters options ∧
        SupportsCopy sourceOp destinationOp options ∧
        copyPlan sourceOp s.path d.path options = .ok plan ∧
        cursor = ⟨sourceOp, destinationOp, options, sameOpCopy sourceOp destinationOp, plan,
          none⟩ := by
  rw [copyScanOpen, bind_eq_ok]
  simp only [openCopyCursor_eq_ok]
  constructor
  · rintro ⟨bind, hbind, s, d, sourceOp, destinationOp, hs, hd, hsourceOp, hdestinationOp, h⟩
    obtain ⟨hconcurrent, hchunk, rfl⟩ := copyBind_eq_ok.mp hbind
    have hs' := wellFormed_of_parseUrl hs
    have hd' := wellFormed_of_parseUrl hd
    obtain ⟨options, plan, hoptions, hchecks, hplan, hcursor⟩ :=
      (odTableCopyOpen_iff (cstr_of_utf8 hs'.path_nul hs'.path_utf8)
        (cstr_of_utf8 hd'.path_nul hd'.path_utf8)).mp h
    exact ⟨s, d, sourceOp, destinationOp, options, plan, hs, hd, hsourceOp, hdestinationOp,
      (copyOptions_eq_ok source destination hconcurrent hchunk).mp hoptions,
      copyChecks_eq_ok.mp hchecks, hplan, hcursor⟩
  · rintro ⟨s, d, sourceOp, destinationOp, options, plan, hs, hd, hsourceOp, hdestinationOp,
      hrequest, hsupports, hplan, hcursor⟩
    have hconcurrent := hrequest.concurrent.value_pos
    have hchunk := hrequest.chunk.value_pos
    have hs' := wellFormed_of_parseUrl hs
    have hd' := wellFormed_of_parseUrl hd
    refine ⟨_, copyBind_eq_ok.mpr ⟨hconcurrent, hchunk, rfl⟩, s, d, sourceOp, destinationOp, hs,
      hd, hsourceOp, hdestinationOp, ?_⟩
    exact (odTableCopyOpen_iff (cstr_of_utf8 hs'.path_nul hs'.path_utf8)
      (cstr_of_utf8 hd'.path_nul hd'.path_utf8)).mpr ⟨options, plan,
        (copyOptions_eq_ok source destination hconcurrent hchunk).mpr hrequest,
        copyChecks_eq_ok.mpr hsupports, hplan, hcursor⟩

end DuckdbOpendal
