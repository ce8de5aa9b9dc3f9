import DuckdbOpendal.Lib.Cursor
import DuckdbOpendal.Listing

/-!
# Table scans

The listing scans of `opendal/src/table.rs`: a row owns C strings, so an entry with a
NUL in its path or metadata has no row; a cursor pulls entries from a lister, drops
the listed directory itself and whatever the glob does not match, and hands out rows.

## Main Definitions

* `OwnedRow.fromParts` — an entry as a row of C strings
* `odTableListOpen`, `odTableGlobOpen` — opening a scan
* `odTableCursorNext` — the next row of a scan

## Main Results

* `OwnedRow.fromParts_eq` — entries without NUL bytes have rows
* `OdTableCursor.drains` — the rows of a whole scan
-/

namespace DuckdbOpendal

/-- A sequence of fallible steps succeeds when each step does. -/
theorem bind_eq_ok {ε α β : Type} {x : Except ε α} {f : α → Except ε β} {b : β} :
    x >>= f = .ok b ↔ ∃ a, x = .ok a ∧ f a = .ok b := by
  cases x with
  | error e => simp [bind, Except.bind]
  | ok a => simp [bind, Except.bind]

theorem ok_bind {ε α β : Type} (a : α) (f : α → Except ε β) : (Except.ok a >>= f) = f a := rfl

/-! ## Arguments -/

/-- `cstring`. -/
def cstring (value : Bytes) (field : String) : Except Bytes Bytes :=
  match CString.new value with
  | some value => .ok value
  | none => .error (ascii "OpenDAL " ++ ascii field ++ ascii " contains a NUL byte")

/-- `optional_string`. -/
def optionalString (value : Option Bytes) (field : String) : Except Bytes (Option Bytes) :=
  match value with
  | none => .ok none
  | some value => (cstring value field).map some

/-- `optional_cstr`; a null pointer is `none`. -/
def optionalCstr (value : Option Bytes) (name : String) : Except Bytes (Option Bytes) :=
  match value with
  | none => .ok none
  | some value =>
      match cstr value with
      | some value => .ok (some value)
      | none => .error (ascii name ++ ascii " is not UTF-8")

theorem cstring_eq {value : Bytes} (h : 0 ∉ value) (field : String) :
    cstring value field = .ok value := by
  simp [cstring, CString.new, h]

/-- A converted C string is the text itself, without NUL. -/
theorem eq_of_cstring {value value' : Bytes} {field : String}
    (h : cstring value field = .ok value') : value' = value ∧ 0 ∉ value := by
  unfold cstring at h
  split at h
  · rename_i hnew
    cases h
    obtain ⟨h0, rfl⟩ := CString.new_eq_some_iff.mp hnew
    exact ⟨rfl, h0⟩
  · cases h

theorem optionalString_eq {value : Option Bytes} (h : ∀ v ∈ value, 0 ∉ v) (field : String) :
    optionalString value field = .ok value := by
  cases value with
  | none => rfl
  | some value => simp [optionalString, cstring_eq (h value rfl), Except.map]

/-- A converted field is a C string, if there is one. -/
theorem notMem_of_optionalString {value value' : Option Bytes} {field : String}
    (h : optionalString value field = .ok value') : ∀ v ∈ value, 0 ∉ v := by
  rintro v rfl
  cases hv : cstring v field with
  | error message =>
      simp only [optionalString, hv, Except.map] at h
      cases h
  | ok v' => exact (eq_of_cstring hv).2

/-- Every step of a successful pass succeeds. -/
theorem ok_of_mapM {ε α β : Type} {f : α → Except ε β} {l : List α} {l' : List β}
    (h : l.mapM f = .ok l') : ∀ a ∈ l, ∃ b, f a = .ok b := by
  induction l generalizing l' with
  | nil => exact fun a ha => nomatch ha
  | cons a l ih =>
      rw [List.mapM_cons] at h
      obtain ⟨b, hb, h⟩ := bind_eq_ok.mp h
      obtain ⟨bs, hbs, -⟩ := bind_eq_ok.mp h
      exact List.forall_mem_cons.mpr ⟨⟨b, hb⟩, ih hbs⟩

/-- `OdListOptions`. -/
structure OdListOptions where
  startAfter : Option Bytes
  recursive : Bool
  versions : Bool
  deleted : Bool
  deriving DecidableEq, Repr

/-- No option requested, with `recursive` set as given. -/
def OdListOptions.plain (recursive : Bool) : OdListOptions := ⟨none, recursive, false, false⟩

/-- `list_options`. -/
def listOptions (raw : OdListOptions) : Except Bytes ListOptions := do
  let startAfter ← optionalCstr raw.startAfter "start_after"
  return ⟨startAfter, raw.recursive, raw.versions, raw.deleted⟩

@[simp] theorem listOptions_plain (recursive : Bool) :
    listOptions (.plain recursive) = .ok (.plain recursive) := rfl

/-- Report a rejected argument. -/
def invalidInput {α : Type} : Except Bytes α → Except OdError α
  | .ok a => .ok a
  | .error message => .error (setError .InvalidInput message)

theorem invalidInput_eq_ok {α : Type} {x : Except Bytes α} {a : α} :
    invalidInput x = .ok a ↔ x = .ok a := by
  cases x with
  | error message => simp [invalidInput]
  | ok b => simp [invalidInput]

/-- Decode a C string argument, or report it. -/
def requireCstr (value : Bytes) (message : String) : Except OdError Bytes :=
  match cstr value with
  | some value => .ok value
  | none => .error (setError .InvalidInput (ascii message))

theorem requireCstr_eq_ok {value value' : Bytes} {message : String} :
    requireCstr value message = .ok value' ↔ cstr value = some value' := by
  unfold requireCstr
  cases cstr value with
  | none => simp
  | some value => simp

/-- Report an OpenDAL error. -/
def orOpendalError {α : Type} : Except OpendalError α → Except OdError α
  | .ok a => .ok a
  | .error error => .error (setOpendalError error)

theorem orOpendalError_eq_ok {α : Type} {x : Except OpendalError α} {a : α} :
    orOpendalError x = .ok a ↔ x = .ok a := by
  cases x with
  | error error => simp [orOpendalError]
  | ok b => simp [orOpendalError]

/-! ## Rows -/

/-- `OwnedRow`. -/
structure OwnedRow where
  path : Bytes
  name : Bytes
  cacheControl : Option Bytes
  contentDisposition : Option Bytes
  contentMd5 : Option Bytes
  contentType : Option Bytes
  contentEncoding : Option Bytes
  etag : Option Bytes
  version : Option Bytes
  userKeys : List Bytes
  userValues : List Bytes
  mode : ℕ
  contentLength : U64
  lastModifiedMs : ℤ
  hasLastModified : Bool
  isCurrent : Bool
  hasIsCurrent : Bool
  isDeleted : Bool
  deriving DecidableEq, Repr

/-- The mode column: 1 for files, 2 for directories. -/
def EntryMode.code : EntryMode → ℕ
  | .FILE => 1
  | .DIR => 2
  | .Unknown => 0

theorem EntryMode.code_injective : Function.Injective EntryMode.code := by
  intro m m' h
  cases m <;> cases m' <;> first | rfl | cases h

/-- The user metadata in the order of its keys. -/
def Metadata.sortedUserMetadata (m : Metadata) : List (Bytes × Bytes) :=
  (m.userMetadata.getD []).insertionSort fun a b => a.1 ≤ b.1

section Rows

variable (getBasename : Bytes → Bytes)

namespace OwnedRow

/-- `OwnedRow::from_parts`; `opendal::raw::get_basename` is a parameter. -/
def fromParts (path : Bytes) (metadata : Metadata) : Except Bytes OwnedRow := do
  let name := getBasename path
  let user ← metadata.sortedUserMetadata.mapM fun entry => do
    let key ← cstring entry.1 "user metadata key"
    let value ← cstring entry.2 "user metadata value"
    return (key, value)
  let path ← cstring path "path"
  let name ← cstring name "name"
  let cacheControl ← optionalString metadata.cacheControl "cache_control"
  let contentDisposition ← optionalString metadata.contentDisposition "content_disposition"
  let contentMd5 ← optionalString metadata.contentMd5 "content_md5"
  let contentType ← optionalString metadata.contentType "content_type"
  let contentEncoding ← optionalString metadata.contentEncoding "content_encoding"
  let etag ← optionalString metadata.etag "etag"
  let version ← optionalString metadata.version "version"
  return {
    path, name, cacheControl, contentDisposition, contentMd5, contentType, contentEncoding,
    etag, version
    userKeys := user.map Prod.fst
    userValues := user.map Prod.snd
    mode := metadata.mode.code
    contentLength := metadata.contentLength
    lastModifiedMs := metadata.lastModifiedMs.getD 0
    hasLastModified := metadata.lastModifiedMs.isSome
    isCurrent := metadata.isCurrent.getD false
    hasIsCurrent := metadata.isCurrent.isSome
    isDeleted := metadata.isDeleted }

/-- The row of an entry whose texts are all C strings. -/
def ofParts (path : Bytes) (metadata : Metadata) : OwnedRow where
  path := path
  name := getBasename path
  cacheControl := metadata.cacheControl
  contentDisposition := metadata.contentDisposition
  contentMd5 := metadata.contentMd5
  contentType := metadata.contentType
  contentEncoding := metadata.contentEncoding
  etag := metadata.etag
  version := metadata.version
  userKeys := metadata.sortedUserMetadata.map Prod.fst
  userValues := metadata.sortedUserMetadata.map Prod.snd
  mode := metadata.mode.code
  contentLength := metadata.contentLength
  lastModifiedMs := metadata.lastModifiedMs.getD 0
  hasLastModified := metadata.lastModifiedMs.isSome
  isCurrent := metadata.isCurrent.getD false
  hasIsCurrent := metadata.isCurrent.isSome
  isDeleted := metadata.isDeleted

end OwnedRow

/-! ## Cursors -/

/-- `CursorSource`. -/
inductive CursorSource where
  | one (entry : Option (Bytes × Metadata))
  | list (lister : List (Except OpendalError Entry))
  deriving DecidableEq

/-- `OdTableCursor`. -/
structure OdTableCursor where
  source : CursorSource
  glob : Option Bytes
  selfPath : Option Bytes
  current : Option OwnedRow
  deriving DecidableEq

namespace OdTableCursor

/-- The row is spelled like the listed directory, with or without its trailing slash. -/
def isSelf (c : OdTableCursor) (row : OwnedRow) : Bool :=
  c.selfPath.any fun selfPath => row.path == selfPath || row.path == selfPath ++ [slash]

/-- The row does not match the glob. -/
def isUnmatched (c : OdTableCursor) (row : OwnedRow) : Bool :=
  c.glob.any fun pattern => !globMatches pattern row.path

/-- Hand out a row. -/
def emit (c : OdTableCursor) (source : CursorSource) (row : OwnedRow) : OdTableCursor :=
  { c with source := source, current := some row }

/-- The loop of `od_table_cursor_next` over the entries of a lister. -/
def nextFrom (c : OdTableCursor) : List (Except OpendalError Entry) →
    OdTableCursor × Except OdError (Option OwnedRow)
  | [] => ({ c with source := .list [] }, .ok none)
  | .error error :: lister => ({ c with source := .list lister }, .error (setOpendalError error))
  | .ok entry :: lister =>
      match OwnedRow.fromParts getBasename entry.path entry.metadata with
      | .error message => ({ c with source := .list lister }, .error (setError .Unexpected message))
      | .ok row =>
          if c.isSelf row || c.isUnmatched row then c.nextFrom lister
          else (c.emit (.list lister) row, .ok (some row))

end OdTableCursor

/-- `od_table_cursor_next`: a row, the end, or an error. -/
def odTableCursorNext (c : OdTableCursor) : OdTableCursor × Except OdError (Option OwnedRow) :=
  match c.source with
  | .one none => (c, .ok none)
  | .one (some (path, metadata)) =>
      let c := { c with source := .one none }
      match OwnedRow.fromParts getBasename path metadata with
      | .error message => (c, .error (setError .Unexpected message))
      | .ok row =>
          if c.isSelf row || c.isUnmatched row then (c, .ok none)
          else (c.emit (.one none) row, .ok (some row))
  | .list lister => c.nextFrom getBasename lister

end Rows

/-! ## Opening a scan -/

/-- `trim_end_matches('/')`. -/
def trimEndSlashes (s : Bytes) : Bytes := s.rdropWhile (· == slash)

/-- `od_table_list_open`. -/
def odTableListOpen (op : OdOperator) (path : Bytes) (glob : Option Bytes)
    (rawOptions : OdListOptions) : Except OdError OdTableCursor := do
  let path ← requireCstr path "path is null or not UTF-8"
  let glob ← invalidInput (optionalCstr glob "glob")
  require op.scheme op.cap.list (ascii "list")
  let options ← invalidInput (listOptions rawOptions)
  requireOption op.scheme options.startAfter.isSome op.cap.listWithStartAfter
    (ascii "list_with_start_after")
  requireOption op.scheme options.versions op.cap.listWithVersions (ascii "list_with_versions")
  requireOption op.scheme options.deleted op.cap.listWithDeleted (ascii "list_with_deleted")
  let lister ← orOpendalError (op.lister path options)
  return {
    source := .list lister
    glob := glob
    selfPath := some (trimEndSlashes (trimStartSlashes path))
    current := none }

/-- `glob_root`: the pattern up to the last slash before its first wildcard. -/
def globRoot (pattern : Bytes) : Bytes :=
  Text.uptoLast slash (pattern.takeWhile fun b => !isWildcard b)

/-- The static directory of a pattern is a directory root. -/
theorem dirRoot_globRoot (rel : Bytes) : DirRoot (globRoot rel) :=
  Text.uptoLast_eq_nil_or_concat slash _

/-- `od_table_glob_open`. -/
def odTableGlobOpen (op : OdOperator) (pattern : Bytes) (rawOptions : OdListOptions) :
    Except OdError OdTableCursor := do
  let pattern ← requireCstr pattern "pattern is null or not UTF-8"
  if hasGlob pattern = false then
    .error (setError .InvalidInput (ascii "glob pattern has no wildcard"))
  else
    let listRoot := globRoot pattern
    let rawOptions := { rawOptions with recursive := true }
    let normalizedPattern := trimStartSlashes pattern
    match CString.new normalizedPattern with
    | none => .error (setError .InvalidInput (ascii "glob pattern contains a NUL byte"))
    | some pattern => odTableListOpen op listRoot (some pattern) rawOptions

/-! ## The rows of a scan -/

section Rows

variable {getBasename : Bytes → Bytes}

/-- **Entries without NUL bytes have rows.** -/
theorem OwnedRow.fromParts_eq (hbase : ∀ path, getBasename path <:+ path) {path : Bytes}
    {metadata : Metadata} (hpath : 0 ∉ path) (htexts : ∀ t ∈ metadata.texts, 0 ∉ t) :
    OwnedRow.fromParts getBasename path metadata =
      .ok (OwnedRow.ofParts getBasename path metadata) := by
  have hname : 0 ∉ getBasename path := fun h => hpath ((hbase path).mem h)
  have huser : ∀ e ∈ metadata.sortedUserMetadata, 0 ∉ e.1 ∧ 0 ∉ e.2 := by
    intro e he
    have he : e ∈ metadata.userMetadata.getD [] := (List.mem_insertionSort _).mp he
    have htext : ∀ t ∈ [e.1, e.2], t ∈ metadata.texts := fun t ht =>
      List.mem_append_right _ (List.mem_flatMap.mpr ⟨e, he, ht⟩)
    exact ⟨htexts _ (htext _ (by simp)), htexts _ (htext _ (by simp))⟩
  have hmap : ∀ user : List (Bytes × Bytes), (∀ e ∈ user, 0 ∉ e.1 ∧ 0 ∉ e.2) →
      (user.mapM fun entry => do
        let key ← cstring entry.1 "user metadata key"
        let value ← cstring entry.2 "user metadata value"
        return (key, value) : Except Bytes _) = .ok user := by
    intro user
    induction user with
    | nil => exact fun _ => rfl
    | cons e user ih =>
        intro h
        obtain ⟨hkey, hvalue⟩ := h e List.mem_cons_self
        rw [List.mapM_cons, cstring_eq hkey, cstring_eq hvalue,
          ih fun e he => h e (List.mem_cons_of_mem _ he)]
        rfl
  have hfield : ∀ value ∈ [metadata.cacheControl, metadata.contentDisposition,
      metadata.contentMd5, metadata.contentType, metadata.contentEncoding, metadata.etag,
      metadata.version], ∀ v ∈ value, 0 ∉ v := by
    rintro value hvalue v rfl
    exact htexts v (List.mem_append_left _ (List.mem_filterMap.mpr ⟨_, hvalue, rfl⟩))
  have hoptional : ∀ value ∈ [metadata.cacheControl, metadata.contentDisposition,
      metadata.contentMd5, metadata.contentType, metadata.contentEncoding, metadata.etag,
      metadata.version], ∀ field, optionalString value field = .ok value :=
    fun value hvalue field => optionalString_eq (hfield value hvalue) field
  simp only [List.mem_cons, List.not_mem_nil, or_false, forall_eq_or_imp, forall_eq] at hoptional
  obtain ⟨h₁, h₂, h₃, h₄, h₅, h₆, h₇⟩ := hoptional
  simp only [OwnedRow.fromParts, hmap _ huser, cstring_eq hpath, cstring_eq hname, h₁, h₂, h₃,
    h₄, h₅, h₆, h₇]
  rfl

/-- A row keeps the path of its entry. -/
theorem OwnedRow.fromParts_path {path : Bytes} {metadata : Metadata} {row : OwnedRow}
    (h : OwnedRow.fromParts getBasename path metadata = .ok row) : row.path = path := by
  obtain ⟨user, -, h⟩ := bind_eq_ok.mp h
  obtain ⟨path', hpath, h⟩ := bind_eq_ok.mp h
  obtain ⟨name, -, h⟩ := bind_eq_ok.mp h
  obtain ⟨cacheControl, -, h⟩ := bind_eq_ok.mp h
  obtain ⟨contentDisposition, -, h⟩ := bind_eq_ok.mp h
  obtain ⟨contentMd5, -, h⟩ := bind_eq_ok.mp h
  obtain ⟨contentType, -, h⟩ := bind_eq_ok.mp h
  obtain ⟨contentEncoding, -, h⟩ := bind_eq_ok.mp h
  obtain ⟨etag, -, h⟩ := bind_eq_ok.mp h
  obtain ⟨version, -, h⟩ := bind_eq_ok.mp h
  cases h
  exact (eq_of_cstring hpath).1

/-- **Only entries without NUL bytes have rows.** -/
theorem OwnedRow.nulFree_of_fromParts {path : Bytes} {metadata : Metadata} {row : OwnedRow}
    (h : OwnedRow.fromParts getBasename path metadata = .ok row) :
    0 ∉ path ∧ ∀ t ∈ metadata.texts, 0 ∉ t := by
  obtain ⟨user, huser, h⟩ := bind_eq_ok.mp h
  obtain ⟨path', hpath, h⟩ := bind_eq_ok.mp h
  obtain ⟨name, -, h⟩ := bind_eq_ok.mp h
  obtain ⟨cacheControl, h₁, h⟩ := bind_eq_ok.mp h
  obtain ⟨contentDisposition, h₂, h⟩ := bind_eq_ok.mp h
  obtain ⟨contentMd5, h₃, h⟩ := bind_eq_ok.mp h
  obtain ⟨contentType, h₄, h⟩ := bind_eq_ok.mp h
  obtain ⟨contentEncoding, h₅, h⟩ := bind_eq_ok.mp h
  obtain ⟨etag, h₆, h⟩ := bind_eq_ok.mp h
  obtain ⟨version, h₇, -⟩ := bind_eq_ok.mp h
  have hfields : ∀ value ∈ [metadata.cacheControl, metadata.contentDisposition,
      metadata.contentMd5, metadata.contentType, metadata.contentEncoding, metadata.etag,
      metadata.version], ∀ v ∈ value, 0 ∉ v := by
    simp only [List.mem_cons, List.not_mem_nil, or_false, forall_eq_or_imp, forall_eq]
    exact ⟨notMem_of_optionalString h₁, notMem_of_optionalString h₂, notMem_of_optionalString h₃,
      notMem_of_optionalString h₄, notMem_of_optionalString h₅, notMem_of_optionalString h₆,
      notMem_of_optionalString h₇⟩
  refine ⟨(eq_of_cstring hpath).2, fun t ht => ?_⟩
  rcases List.mem_append.mp ht with ht | ht
  · obtain ⟨value, hvalue, hv⟩ := List.mem_filterMap.mp ht
    exact hfields value hvalue t hv
  · obtain ⟨entry, hentry, ht⟩ := List.mem_flatMap.mp ht
    have hentry : entry ∈ metadata.sortedUserMetadata := (List.mem_insertionSort _).mpr hentry
    obtain ⟨converted, hconverted⟩ := ok_of_mapM huser entry hentry
    obtain ⟨key, hkey, hconverted⟩ := bind_eq_ok.mp hconverted
    obtain ⟨value, hvalue, -⟩ := bind_eq_ok.mp hconverted
    simp only [List.mem_cons, List.not_mem_nil, or_false] at ht
    rcases ht with rfl | rfl
    · exact (eq_of_cstring hkey).2
    · exact (eq_of_cstring hvalue).2

/-- What an item of a lister becomes. -/
def OdTableCursor.visit (getBasename : Bytes → Bytes) (c : OdTableCursor) :
    Except OpendalError Entry → Except OdError (Option OwnedRow)
  | .error error => .error (setOpendalError error)
  | .ok entry =>
      match OwnedRow.fromParts getBasename entry.path entry.metadata with
      | .error message => .error (setError .Unexpected message)
      | .ok row => .ok (if c.isSelf row || c.isUnmatched row then none else some row)

/-- The loop reads the lister it is given, not the one in the cursor. -/
theorem OdTableCursor.nextFrom_source (c : OdTableCursor) (source : CursorSource)
    (lister : List (Except OpendalError Entry)) :
    { c with source := source }.nextFrom getBasename lister = c.nextFrom getBasename lister := by
  induction lister with
  | nil => rfl
  | cons item lister ih =>
      cases item with
      | error error => rfl
      | ok entry =>
          simp only [OdTableCursor.nextFrom, ih]
          rfl

variable (getBasename) in
/-- **The rows of a whole scan** over a lister. -/
theorem OdTableCursor.drains (c : OdTableCursor) {lister : List (Except OpendalError Entry)}
    (hsource : c.source = .list lister) :
    Cursor.Drains (odTableCursorNext getBasename) c
      (Cursor.collect (c.visit getBasename) lister).1
      (Cursor.collect (c.visit getBasename) lister).2 := by
  refine Cursor.drains_collect
    (fun s items => s.source = .list items ∧ s.glob = c.glob ∧ s.selfPath = c.selfPath)
    ?_ ?_ ⟨hsource, rfl, rfl⟩
  · rintro s ⟨hs, -⟩
    simp only [odTableCursorNext, hs, OdTableCursor.nextFrom]
    exact ⟨_, rfl⟩
  · rintro s item rest ⟨hs, hglob, hself⟩
    have hskip : ∀ row,
        (s.isSelf row || s.isUnmatched row) = (c.isSelf row || c.isUnmatched row) := by
      intro row
      simp only [OdTableCursor.isSelf, OdTableCursor.isUnmatched, hglob, hself]
    simp only [odTableCursorNext, hs, OdTableCursor.visit]
    cases item with
    | error error => exact ⟨{ s with source := .list rest }, ⟨rfl, hglob, hself⟩, rfl⟩
    | ok entry =>
        simp only [OdTableCursor.nextFrom, hskip]
        cases OwnedRow.fromParts getBasename entry.path entry.metadata with
        | error message => exact ⟨{ s with source := .list rest }, ⟨rfl, hglob, hself⟩, rfl⟩
        | ok row =>
            by_cases hrow : (c.isSelf row || c.isUnmatched row) = true
            · simp only [hrow, if_true]
              -- Passing over a row leaves the cursor as it was, but for the lister.
              exact ⟨{ s with source := .list rest }, ⟨rfl, hglob, hself⟩,
                (s.nextFrom_source _ rest).symm⟩
            · simp only [hrow]
              exact ⟨s.emit (.list rest) row, ⟨rfl, hglob, hself⟩, rfl⟩

/-- **The rows of a scan over entries without NUL bytes**: those of the entries that
are neither the listed directory nor excluded by the glob. -/
theorem OdTableCursor.drains_of_nulFree (hbase : ∀ path, getBasename path <:+ path)
    (c : OdTableCursor) {entries : List Entry} (hsource : c.source = .list (entries.map .ok))
    (hnul : ∀ e ∈ entries, e.NulFree) :
    Cursor.Drains (odTableCursorNext getBasename) c
      ((entries.map fun e => OwnedRow.ofParts getBasename e.path e.metadata).filter fun row =>
        !(c.isSelf row || c.isUnmatched row)) (.ok ()) := by
  let keep : OwnedRow → Bool := fun row => !(c.isSelf row || c.isUnmatched row)
  have hvisit : ∀ item ∈ entries.map Except.ok, c.visit getBasename item =
      .ok (item.toOption.bind fun e =>
        Option.guard keep (OwnedRow.ofParts getBasename e.path e.metadata)) := by
    intro item hitem
    obtain ⟨e, he, rfl⟩ := List.mem_map.mp hitem
    obtain ⟨hpath, htexts⟩ := hnul e he
    show OdTableCursor.visit getBasename c (.ok e) =
      .ok (Option.guard keep (OwnedRow.ofParts getBasename e.path e.metadata))
    simp only [OdTableCursor.visit, OwnedRow.fromParts_eq hbase hpath htexts, Option.guard, keep]
    by_cases hpassed : (c.isSelf (OwnedRow.ofParts getBasename e.path e.metadata) ||
        c.isUnmatched (OwnedRow.ofParts getBasename e.path e.metadata)) = true
    · simp only [hpassed, if_true, Bool.not_true, Bool.false_eq_true, if_false]
    · simp only [hpassed, if_false, Bool.not_false, Bool.false_eq_true, if_true]
  have hdrains := c.drains getBasename hsource
  rw [Cursor.collect_of_ok hvisit, List.filterMap_map] at hdrains
  rw [← List.filterMap_eq_filter, List.filterMap_map]
  exact hdrains

end Rows

/-- A listing without options opens a scan over what the lister yields. -/
theorem odTableListOpen_eq {op : OdOperator} {path : Bytes} (glob : Option Bytes)
    {recursive : Bool} {lister : List (Except OpendalError Entry)} (hpath : cstr path = some path)
    (hglob : optionalCstr glob "glob" = .ok glob) (hlist : op.cap.list = true)
    (hlister : op.lister path (.plain recursive) = .ok lister) :
    odTableListOpen op path glob (.plain recursive) = .ok
      { source := .list lister
        glob := glob
        selfPath := some (trimEndSlashes (trimStartSlashes path))
        current := none } := by
  simp only [odTableListOpen, requireCstr_eq_ok.mpr hpath, invalidInput_eq_ok.mpr hglob,
    invalidInput_eq_ok.mpr (listOptions_plain recursive), ok_bind, require, hlist, if_true,
    ListOptions.plain, requireOption, Option.isSome_none, Bool.false_and, Bool.false_eq_true,
    if_false]
  rw [← ListOptions.plain, orOpendalError_eq_ok.mpr hlister]
  rfl

end DuckdbOpendal
