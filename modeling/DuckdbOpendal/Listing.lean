import DuckdbOpendal.GlobMatch
import DuckdbOpendal.Opendal

/-!
# Operators, entries and listings

The read side of an operator: its capabilities, `stat` and `lister`, and the
metadata they return.  What a listing contains is OpenDAL's; `ListsStore` states
what the extension relies on, over a store given by the paths of its files.

## Main Definitions

* `Metadata`, `Entry` — what OpenDAL reports about an object
* `OdOperator` — an operator handle
* `normalizeRoot` — the directory a listing root names
* `ListsStore` — the listings of a store

## Main Results

* `normalizeRoot_of_startsWith` — a root that starts a normalised path is normalised
* `storeOperator_listsStore` — an operator that lists a store
-/

namespace DuckdbOpendal

/-! ## Metadata and entries -/

/-- `opendal::EntryMode`. -/
inductive EntryMode where
  | FILE
  | DIR
  | Unknown
  deriving DecidableEq, Repr

/-- `opendal::Metadata`.  The user metadata is a hash map, in an arbitrary order. -/
structure Metadata where
  mode : EntryMode
  contentLength : U64
  cacheControl : Option Bytes
  contentDisposition : Option Bytes
  contentMd5 : Option Bytes
  contentType : Option Bytes
  contentEncoding : Option Bytes
  etag : Option Bytes
  version : Option Bytes
  lastModifiedMs : Option ℤ
  isCurrent : Option Bool
  isDeleted : Bool
  userMetadata : Option (List (Bytes × Bytes))
  deriving DecidableEq, Repr

namespace Metadata

/-- Metadata of which only the mode and the length are known. -/
def ofLength (mode : EntryMode) (contentLength : U64) : Metadata :=
  ⟨mode, contentLength, none, none, none, none, none, none, none, none, none, false, none⟩

/-- `Metadata::is_file`. -/
def isFile (m : Metadata) : Bool := m.mode == .FILE

/-- `Metadata::is_dir`. -/
def isDir (m : Metadata) : Bool := m.mode == .DIR

/-- Every text of the metadata. -/
def texts (m : Metadata) : List Bytes :=
  [m.cacheControl, m.contentDisposition, m.contentMd5, m.contentType, m.contentEncoding, m.etag,
    m.version].reduceOption ++ (m.userMetadata.getD []).flatMap fun entry => [entry.1, entry.2]

@[simp] theorem texts_ofLength (mode : EntryMode) (contentLength : U64) :
    (ofLength mode contentLength).texts = [] := rfl

end Metadata

/-- `opendal::Entry`; its path is a Rust string. -/
structure Entry where
  path : Bytes
  utf8 : Utf8.isUtf8 path = true
  metadata : Metadata
  deriving DecidableEq

/-- The path and the texts of an entry can be passed on as C strings. -/
def Entry.NulFree (e : Entry) : Prop := 0 ∉ e.path ∧ ∀ t ∈ e.metadata.texts, 0 ∉ t

/-! ## Operators -/

/-- The flags of `opendal::Capability` that the entry points read. -/
structure Capability where
  stat : Bool
  list : Bool
  listWithStartAfter : Bool
  listWithVersions : Bool
  listWithDeleted : Bool
  read : Bool
  readWithVersion : Bool
  write : Bool
  writeWithIfNotExists : Bool
  writeWithIfMatch : Bool
  copy : Bool
  copyWithIfNotExists : Bool
  copyWithIfMatch : Bool
  copyWithSourceVersion : Bool
  deriving DecidableEq, Repr

/-- `opendal::options::ListOptions`. -/
structure ListOptions where
  startAfter : Option Bytes
  recursive : Bool
  versions : Bool
  deleted : Bool
  deriving DecidableEq, Repr

/-- `ListOptions::default()`, with `recursive` set as given. -/
def ListOptions.plain (recursive : Bool) : ListOptions := ⟨none, recursive, false, false⟩

/-- `OdOperator`, by the address of its handle: what it reads from the service.  A
lister yields entries until it ends or fails. -/
structure OdOperator where
  handle : ℕ
  scheme : Bytes
  cap : Capability
  lister : Bytes → ListOptions → Except OpendalError (List (Except OpendalError Entry))
  stat : Bytes → Option Bytes → Except OpendalError Metadata

/-- `Operator::list_options`: the entries of a lister, collected. -/
def OdOperator.listOptions (op : OdOperator) (path : Bytes) (options : ListOptions) :
    Except OpendalError (List Entry) := do
  let lister ← op.lister path options
  lister.mapM id

/-- `require`: fail early on a missing capability. -/
def require (scheme : Bytes) (supported : Bool) (opName : Bytes) : Except OdError Unit :=
  if supported then .ok ()
  else
    .error (setError .Unsupported
      (ascii "service '" ++ scheme ++ ascii "' does not support " ++ opName))

/-- `require_option`: the same for an option, when it is requested. -/
def requireOption (scheme : Bytes) (requested supported : Bool) (name : Bytes) :
    Except OdError Unit :=
  if requested && !supported then
    .error (setError .Unsupported
      (ascii "service '" ++ scheme ++ ascii "' does not support " ++ name))
  else .ok ()

/-! ## Paths and roots -/

/-- `trim_start_matches('/')`. -/
def trimStartSlashes (s : Bytes) : Bytes := s.dropWhile (· == slash)

/-- A file path without a leading slash and without an empty segment.  OpenDAL also trims the
white space around a path; here paths are taken without it. -/
def NormalizedPath (path : Bytes) : Prop := [] ∉ path.splitOn slash

theorem normalizedPath_iff (path : Bytes) :
    (path.splitOn slash).contains [] = false ↔ NormalizedPath path := by
  rw [NormalizedPath, ← List.contains_iff_mem, Bool.not_eq_true]

instance (path : Bytes) : Decidable (NormalizedPath path) :=
  decidable_of_iff _ (normalizedPath_iff path)

/-- The directory a listing root names, when there is no white space around it: its segments
without the empty ones, each followed by a slash; nothing for the operator root. -/
def normalizeRoot (root : Bytes) : Bytes :=
  ((root.splitOn slash).filter (· ≠ [])).flatMap (· ++ [slash])

/-- The root is the operator root or ends in a slash, as a directory does. -/
def DirRoot (root : Bytes) : Prop := root = [] ∨ ∃ d, root = d ++ [slash]

theorem not_dirRoot_iff {root : Bytes} :
    ¬ DirRoot root ↔ root ≠ [] ∧ root.getLast? ≠ some slash := by
  rw [DirRoot, not_or, ← List.getLast?_eq_some_iff]

instance (root : Bytes) : Decidable (DirRoot root) :=
  decidable_of_iff (root = [] ∨ root.getLast? = some slash)
    (or_congr_right List.getLast?_eq_some_iff)

theorem NormalizedPath.ne_nil {path : Bytes} (h : NormalizedPath path) : path ≠ [] := by
  rintro rfl
  exact h (by simp [List.splitOn_nil])

theorem NormalizedPath.not_slash_cons {path : Bytes} (h : NormalizedPath path) (rest : Bytes) :
    path ≠ slash :: rest := by
  rintro rfl
  refine h ?_
  rw [← List.nil_append (slash :: rest), List.splitOn_append_cons_self, List.splitOn_nil]
  exact List.mem_cons_self

/-- A normalised path does not end in a slash. -/
theorem NormalizedPath.not_concat_slash {path : Bytes} (h : NormalizedPath path) (d : Bytes) :
    path ≠ d ++ [slash] := by
  rintro rfl
  refine h ?_
  rw [List.splitOn_append_cons_self, List.splitOn_nil]
  exact List.mem_append_right _ List.mem_cons_self

/-- A normalised path has no leading slash to trim. -/
theorem trimStartSlashes_of_normalized {path : Bytes} (h : NormalizedPath path) :
    trimStartSlashes path = path := by
  cases path with
  | nil => rfl
  | cons b rest =>
      have hb : b ≠ slash := fun hb => h.not_slash_cons rest (by rw [hb])
      simp [trimStartSlashes, hb]

theorem normalizeRoot_slash_cons (root : Bytes) :
    normalizeRoot (slash :: root) = normalizeRoot root := by
  rw [normalizeRoot, ← List.nil_append (slash :: root), List.splitOn_append_cons_self,
    List.splitOn_nil]
  rfl

/-- Leading slashes do not change the directory a root names. -/
theorem normalizeRoot_trimStartSlashes (root : Bytes) :
    normalizeRoot (trimStartSlashes root) = normalizeRoot root := by
  induction root with
  | nil => rfl
  | cons b root ih =>
      by_cases hb : b = slash
      · subst hb
        rw [normalizeRoot_slash_cons, ← ih]
        rfl
      · simp [trimStartSlashes, hb]

/-- Segments with a slash behind each, as a text. -/
theorem flatMap_append_slash {segments : List Bytes} (h : segments ≠ []) :
    segments.flatMap (· ++ [slash]) = [slash].intercalate segments ++ [slash] := by
  induction segments with
  | nil => exact absurd rfl h
  | cons s segments ih =>
      cases segments with
      | nil => simp
      | cons s' segments =>
          rw [List.flatMap_cons, ih (by simp), List.intercalate_cons_cons]
          simp

theorem flatMap_splitOn (d : Bytes) : (d.splitOn slash).flatMap (· ++ [slash]) = d ++ [slash] := by
  rw [flatMap_append_slash (List.splitOn_ne_nil slash d), List.intercalate_splitOn]

/-- The directory below a directory. -/
theorem normalizeRoot_append_cons (d rest : Bytes) :
    normalizeRoot (d ++ slash :: rest) = normalizeRoot d ++ normalizeRoot rest := by
  rw [normalizeRoot, List.splitOn_append_cons_self, List.filter_append, List.flatMap_append]
  rfl

/-- A trailing slash of a root adds no segment. -/
theorem normalizeRoot_append_slash (d : Bytes) :
    normalizeRoot (d ++ [slash]) = normalizeRoot d := by
  rw [normalizeRoot_append_cons]
  exact List.append_nil _

/-- **The directory a root names** is the operator root, or a normalised path with its slash. -/
theorem normalizeRoot_cases (root : Bytes) :
    normalizeRoot root = [] ∨
      ∃ path, NormalizedPath path ∧ normalizeRoot root = path ++ [slash] := by
  rcases Decidable.eq_or_ne ((root.splitOn slash).filter (· ≠ [])) [] with hnil | hne
  · left
    rw [normalizeRoot, hnil, List.flatMap_nil]
  · right
    refine ⟨_, ?_, flatMap_append_slash hne⟩
    have hslash : ∀ s ∈ (root.splitOn slash).filter (· ≠ []), slash ∉ s :=
      fun s hs => Text.notMem_of_mem_splitOn (List.mem_filter.mp hs).1
    rw [NormalizedPath, List.splitOn_intercalate slash hslash hne]
    intro hmem
    simpa using (List.mem_filter.mp hmem).2

theorem dirRoot_normalizeRoot (path : Bytes) : DirRoot (normalizeRoot path) :=
  (normalizeRoot_cases path).imp_right fun ⟨d, _, h⟩ => ⟨d, h⟩

/-- Only slashes name the operator root. -/
theorem eq_slash_of_normalizeRoot_nil {base : Bytes} (h : normalizeRoot base = []) :
    ∀ b ∈ base, b = slash := by
  intro b hb
  have hmem : b ∈ (base.splitOn slash).flatMap (· ++ [slash]) := by
    rw [flatMap_splitOn]
    exact List.mem_append_left _ hb
  obtain ⟨s, hs, hbs⟩ := List.mem_flatMap.mp hmem
  have hempty : s = [] := by
    by_contra hne
    have hkept : s ∈ (base.splitOn slash).filter (· ≠ []) :=
      List.mem_filter.mpr ⟨hs, decide_eq_true hne⟩
    have hcontent := List.flatMap_eq_nil_iff.mp h s hkept
    simp at hcontent
  simpa [hempty] using hbs

/-- A normalised path names the directory of its own text. -/
theorem NormalizedPath.normalizeRoot_eq {path : Bytes} (h : NormalizedPath path) :
    normalizeRoot path = path ++ [slash] := by
  rw [normalizeRoot, List.filter_eq_self.mpr, flatMap_splitOn]
  intro s hs
  simpa using fun hs' : s = [] => h (hs' ▸ hs)

theorem NormalizedPath.not_dirRoot {path : Bytes} (h : NormalizedPath path) : ¬ DirRoot path := by
  rintro (hnil | ⟨d, hd⟩)
  · exact h.ne_nil hnil
  · exact h.not_concat_slash d hd

/-- **A root that starts a normalised path is normalised.** -/
theorem normalizeRoot_of_startsWith {root path : Bytes} (hroot : DirRoot root)
    (hpath : NormalizedPath path) (hstarts : root <+: path) : normalizeRoot root = root := by
  rcases hroot with rfl | ⟨d, rfl⟩
  · rfl
  · obtain ⟨rest, rfl⟩ := hstarts
    have hd : NormalizedPath d := by
      intro h
      refine hpath ?_
      rw [List.append_assoc, List.singleton_append, List.splitOn_append_cons_self]
      exact List.mem_append_left _ h
    rw [normalizeRoot_append_slash, hd.normalizeRoot_eq]

/-! ## The listings of a store -/

/-- A listing holds files and directories only, and its files are the given ones. -/
structure ListsFiles (entries : List Entry) (files : Set Bytes) : Prop where
  modes : ∀ e ∈ entries, e.metadata.mode = .FILE ∨ e.metadata.mode = .DIR
  files : ∀ path, (∃ e ∈ entries, e.path = path ∧ e.metadata.mode = .FILE) ↔ path ∈ files

/-- **What the extension relies on**: below a directory root, a recursive listing
yields the files of the store under the directory, and a plain one its immediate
children. -/
structure ListsStore (op : OdOperator) (store : Set Bytes) : Prop where
  cap_list : op.cap.list = true
  recursive : ∀ root, DirRoot root → ∃ entries,
    op.lister root (.plain true) = .ok (entries.map .ok) ∧
      ListsFiles entries {path | path ∈ store ∧ normalizeRoot root <+: path}
  immediate : ∀ root, DirRoot root → ∃ entries,
    op.lister root (.plain false) = .ok (entries.map .ok) ∧
      ListsFiles entries
        {path | path ∈ store ∧ ∃ name, slash ∉ name ∧ path = normalizeRoot root ++ name}

/-- Everything an operator lists can be passed on as C strings. -/
def NulFreeListings (op : OdOperator) : Prop :=
  ∀ root options items, op.lister root options = .ok items →
    ∀ e, .ok e ∈ items → e.NulFree

theorem mapM_map_ok (entries : List Entry) :
    (entries.map (Except.ok (ε := OpendalError))).mapM id = .ok entries := by
  induction entries with
  | nil => rfl
  | cons e entries ih =>
      rw [List.map_cons, List.mapM_cons, ih]
      rfl

/-- A listing, collected. -/
theorem OdOperator.listOptions_eq {op : OdOperator} {root : Bytes} {options : ListOptions}
    {entries : List Entry} (h : op.lister root options = .ok (entries.map .ok)) :
    op.listOptions root options = .ok entries := by
  simp only [OdOperator.listOptions, h]
  exact mapM_map_ok entries

/-! ## A store as an operator -/

/-- Every capability. -/
def Capability.all : Capability :=
  ⟨true, true, true, true, true, true, true, true, true, true, true, true, true, true⟩

/-- A file of the given length, known by nothing else. -/
def fileEntry (path : Bytes) (utf8 : Utf8.isUtf8 path = true) (contentLength : U64) : Entry :=
  ⟨path, utf8, .ofLength .FILE contentLength⟩

/-- An operator over the given files: it lists those below the root, or directly in it,
and a path with files below it is a directory. -/
def storeOperator (cap : Capability) (files : List Entry) : OdOperator where
  handle := 1
  scheme := ascii "memory"
  cap := cap
  lister root options :=
    let dir := normalizeRoot root
    .ok ((files.filter fun e => dir <+: e.path ∧
      (options.recursive ∨ slash ∉ e.path.drop dir.length)).map .ok)
  stat path _ :=
    match files.find? fun e => e.path = path with
    | some e => .ok e.metadata
    | none =>
        if files.any fun e => normalizeRoot path <+: e.path then .ok (.ofLength .DIR 0)
        else .error ⟨.NotFound, ascii "not found"⟩

/-- **The operator over a list of files** lists them as the extension relies on. -/
theorem storeOperator_listsStore {cap : Capability} {files : List Entry}
    (hcap : cap.list = true) (hfiles : ∀ e ∈ files, e.metadata.mode = .FILE) :
    ListsStore (storeOperator cap files) {f | ∃ e ∈ files, e.path = f} where
  cap_list := hcap
  recursive root _ := by
    refine ⟨_, rfl, fun e he => Or.inl (hfiles e (List.mem_filter.mp he).1), fun f => ?_⟩
    simp only [List.mem_filter, decide_eq_true_eq, ListOptions.plain, true_or, and_true,
      Set.mem_ofPred_eq]
    constructor
    · rintro ⟨e, ⟨he, hroot⟩, rfl, -⟩
      exact ⟨⟨e, he, rfl⟩, hroot⟩
    · rintro ⟨⟨e, he, rfl⟩, hroot⟩
      exact ⟨e, ⟨he, hroot⟩, rfl, hfiles e he⟩
  immediate root _ := by
    refine ⟨_, rfl, fun e he => Or.inl (hfiles e (List.mem_filter.mp he).1), fun f => ?_⟩
    simp only [List.mem_filter, decide_eq_true_eq, ListOptions.plain, Bool.false_eq_true,
      false_or, Set.mem_ofPred_eq]
    constructor
    · rintro ⟨e, ⟨he, ⟨name, hname⟩, hslash⟩, rfl, -⟩
      refine ⟨⟨e, he, rfl⟩, name, ?_, hname.symm⟩
      rwa [← hname, List.drop_left] at hslash
    · rintro ⟨⟨e, he, rfl⟩, name, hslash, hname⟩
      refine ⟨e, ⟨he, hname ▸ List.prefix_append _ _, ?_⟩, rfl, hfiles e he⟩
      rwa [hname, List.drop_left]

theorem storeOperator_nulFree {cap : Capability} {files : List Entry}
    (hfiles : ∀ e ∈ files, e.NulFree) : NulFreeListings (storeOperator cap files) := by
  rintro root options items hitems e he
  cases hitems
  obtain ⟨e', he', heq⟩ := List.mem_map.mp he
  cases heq
  exact hfiles e (List.mem_filter.mp he').1

end DuckdbOpendal
