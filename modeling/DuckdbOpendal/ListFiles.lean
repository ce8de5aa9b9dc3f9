import DuckdbOpendal.CopyPaths
import DuckdbOpendal.Mutations
import DuckdbOpendal.TableList
import DuckdbOpendal.UriSegments

/-!
# Listing the files of a directory

`ListFiles` reports the immediate children of a directory: it lists the directory through
`od_list`, passes over the directory's own entry, and hands the base names to its callback.
It tells the own entry by its text, with one slash taken off the end of the listed path and
all of them off its front; a path with an empty segment anywhere else is a different text.
The callback is taken not to throw.

## Main Definitions

* `listFiles` — `OpenDalFileSystem::ListFiles`
* `ListsChildren` — a plain listing of a directory, as OpenDAL documents it
* `PlainDirectory` — a path without empty segments

## Main Results

* `listFiles_children_iff` — when the children, and nothing else, are reported
* `parseUrl_child_iff` — when the URL of a reported child names the child
-/

namespace DuckdbOpendal

/-! ## The call -/

/-- `OdEntry`, with its base name. -/
structure NamedEntry extends OdEntry where
  name : Bytes

/-- `od_list_entry` at an index of the list, with the base name (`cached_ptrs`). -/
def odNamedEntry (getBasename : Bytes → Bytes) (e : Entry) : NamedEntry :=
  { odListEntry e with name := (CString.new (getBasename e.path)).getD [] }

/-- A text without one slash at its end. -/
def popSlash (s : Bytes) : Bytes := if s.getLast? = some slash then s.dropLast else s

/-- The text by which `ListFiles` knows the entry of the directory it lists. -/
def selfPath (dir : Bytes) : Bytes := trimStartSlashes (popSlash dir)

/-- What the callback of `ListFiles` is given for an entry, if anything. -/
def reportChild (self : Bytes) (ent : NamedEntry) : Option (Bytes × Bool) :=
  let epath := trimStartSlashes (popSlash ent.path)
  if epath = self then none
  else
    let name := popSlash ent.name
    if name = [] then none else some (name, ent.isDir)

/-- `OpenDalFileSystem::ListFiles`: what its callback is given, and its answer. -/
def listFiles (getBasename : Bytes → Bytes) (registry : Registry)
    (operators : ResolvedUrl → Except Bytes OdOperator) (directory : Bytes) :
    Except Bytes (List (Bytes × Bool) × Bool) :=
  match parseUrl registry directory with
  | none => .ok ([], false)
  | some u => do
      let op ← operators u
      let dir := asDirectory u.path
      match odList op dir false with
      | .error err =>
          if err.code = .NotFound then return ([], false)
          else
            throwIfError err (ascii "opendal: list: " ++ directory)
            return ([], true)
      | .ok list =>
          return (list.filterMap fun e =>
            reportChild (selfPath dir) (odNamedEntry getBasename e), true)

/-! ## The children of a directory -/

/-- The name of a child. -/
def ChildName (name : Bytes) : Prop := name ≠ [] ∧ slash ∉ name

/-- The path of a child of a directory, given by its name and whether it is a directory. -/
def childPath (dir : Bytes) (child : Bytes × Bool) : Bytes :=
  dir ++ child.1 ++ if child.2 then [slash] else []

/-- The path of the entry of a directory itself. -/
def ownPath (path : Bytes) : Bytes :=
  if normalizeRoot path = [] then [slash] else normalizeRoot path

/-- **A plain listing of a directory**: its children in some order, each once, and among them
perhaps the entry of the directory itself. -/
structure ListsChildren (op : OdOperator) (path : Bytes) (own : Bool)
    (children : List (Bytes × Bool)) : Prop where
  cap_list : op.cap.list = true
  names : ∀ child ∈ children, ChildName child.1
  entries : ∃ entries : List Entry,
    op.lister (asDirectory path) (.plain false) = .ok (entries.map .ok) ∧
    (entries.map fun e => (e.path, e.metadata.isDir)).Perm
      ((if own then [(ownPath path, true)] else []) ++
        children.map fun child => (childPath (normalizeRoot path) child, child.2))

/-- `Entry::name`: the last segment of a path, with the slash of a directory. -/
def LastSegment (getBasename : Bytes → Bytes) : Prop :=
  ∀ dir child, DirRoot dir → ChildName child.1 →
    getBasename (childPath dir child) = childPath [] child

/-- The listed path without one slash at its end, and those at its front, has no empty
segment. -/
def PlainDirectory (path : Bytes) : Prop :=
  selfPath (asDirectory path) = [] ∨ NormalizedPath (selfPath (asDirectory path))

instance (path : Bytes) : Decidable (PlainDirectory path) := inferInstanceAs (Decidable (_ ∨ _))

/-! ## Texts of directories -/

/-- The last segment of a normalised path. -/
theorem NormalizedPath.exists_last {d : Bytes} (hd : NormalizedPath d) :
    ∃ dir name, DirRoot dir ∧ ChildName name ∧ d = dir ++ name := by
  refine ⟨Text.uptoLast slash d, Text.afterLast slash d, Text.uptoLast_eq_nil_or_concat slash d,
    ⟨fun hnil => ?_, Text.notMem_afterLast slash d⟩, (Text.uptoLast_append_afterLast slash d).symm⟩
  have hd' := Text.uptoLast_append_afterLast slash d
  rw [hnil, List.append_nil] at hd'
  rcases Text.uptoLast_eq_nil_or_concat slash d with h | ⟨d', h⟩
  · exact hd.ne_nil (hd'.symm.trans h)
  · exact hd.not_concat_slash d' (hd'.symm.trans h)

@[simp] theorem popSlash_append_slash (d : Bytes) : popSlash (d ++ [slash]) = d := by
  simp [popSlash]

theorem popSlash_append_of_notMem (dir : Bytes) {name : Bytes} (hne : name ≠ [])
    (h : slash ∉ name) : popSlash (dir ++ name) = dir ++ name := by
  refine if_neg fun hlast => h ?_
  rw [List.getLast?_append_of_ne_nil _ hne] at hlast
  exact List.mem_of_getLast? hlast

theorem normalizeRoot_popSlash (s : Bytes) : normalizeRoot (popSlash s) = normalizeRoot s := by
  rw [popSlash]
  split
  · rename_i hlast
    obtain ⟨d, rfl⟩ := List.getLast?_eq_some_iff.mp hlast
    rw [List.dropLast_concat, normalizeRoot_append_slash]
  · rfl

theorem normalizeRoot_selfPath (path : Bytes) :
    normalizeRoot (selfPath (asDirectory path)) = normalizeRoot path := by
  rw [selfPath, normalizeRoot_trimStartSlashes, normalizeRoot_popSlash, normalizeRoot_asDirectory]

/-! ## What is reported -/

section Reports

variable {getBasename : Bytes → Bytes} (hbase : LastSegment getBasename)

/-- What `ListFiles` reports for an entry, from its path and kind alone. -/
def reportEntry (getBasename : Bytes → Bytes) (self : Bytes) (e : Bytes × Bool) :
    Option (Bytes × Bool) :=
  if trimStartSlashes (popSlash ((CString.new e.1).getD [])) = self then none
  else
    let name := popSlash ((CString.new (getBasename e.1)).getD [])
    if name = [] then none else some (name, e.2)

theorem reportChild_odNamedEntry (self : Bytes) (e : Entry) :
    reportChild self (odNamedEntry getBasename e) =
      reportEntry getBasename self (e.path, e.metadata.isDir) := rfl

/-- The path of a child, without the slash of a directory. -/
theorem popSlash_childPath {dir : Bytes} {child : Bytes × Bool} (hname : ChildName child.1) :
    popSlash (childPath dir child) = dir ++ child.1 := by
  rw [childPath]
  split
  · exact popSlash_append_slash _
  · rw [List.append_nil, popSlash_append_of_notMem dir hname.1 hname.2]

/-- A child of a directory is not the directory. -/
theorem trimStartSlashes_child_ne {path name : Bytes} (hname : ChildName name) :
    trimStartSlashes (normalizeRoot path ++ name) ≠ selfPath (asDirectory path) := by
  intro heq
  -- The child names a directory below the one the path names.
  have hchild : normalizeRoot (normalizeRoot path ++ name) = normalizeRoot path := by
    rw [← normalizeRoot_trimStartSlashes, heq, normalizeRoot_selfPath]
  have hnormal : NormalizedPath (normalizeRoot path ++ name) := by
    have hlast : NormalizedPath name := by
      rw [NormalizedPath, List.splitOn_eq_singleton hname.2]
      simpa using hname.1.symm
    rcases normalizeRoot_cases path with hroot | ⟨d, hd, hroot⟩
    · rwa [hroot, List.nil_append]
    · rw [NormalizedPath, hroot, List.append_assoc, List.singleton_append,
        List.splitOn_append_cons_self, List.mem_append]
      exact fun h => h.elim hd hlast
  rw [hnormal.normalizeRoot_eq] at hchild
  have hlength := congrArg List.length hchild
  simp only [List.length_append, List.length_singleton] at hlength
  omega

theorem cString_getD {s : Bytes} (h : 0 ∉ s) : (CString.new s).getD [] = s := by
  rw [CString.new_eq_some_iff.mpr ⟨h, rfl⟩, Option.getD_some]

variable {path : Bytes} (h0 : 0 ∉ path)
include h0

theorem nul_notMem_normalizeRoot : 0 ∉ normalizeRoot path := by
  intro h
  rw [← normalizeRoot_append_slash] at h
  have hmem := (normalizeRoot_sublist (Or.inr ⟨path, rfl⟩)).mem h
  exact (List.mem_append.mp hmem).elim h0 fun hslash =>
    absurd (List.mem_singleton.mp hslash) (by decide)

include hbase

/-- **A child is reported** by its name, unless the name has a NUL. -/
theorem reportEntry_child {child : Bytes × Bool} (hname : ChildName child.1) :
    reportEntry getBasename (selfPath (asDirectory path))
        (childPath (normalizeRoot path) child, child.2) =
      if 0 ∈ child.1 then none else some child := by
  have hbasename := hbase _ child (dirRoot_normalizeRoot path) hname
  by_cases hnul : 0 ∈ child.1
  · -- Both texts become empty C strings.
    have hpath : CString.new (childPath (normalizeRoot path) child) = none :=
      if_pos (List.mem_append_left _ (List.mem_append_right _ hnul))
    have hnone : CString.new (childPath [] child) = none := if_pos (List.mem_append_left _ hnul)
    simp only [reportEntry, hpath, hbasename, hnone, Option.getD_none, if_pos hnul]
    simp [popSlash]
  · have hslash : ∀ dir, 0 ∉ dir → 0 ∉ childPath dir child := by
      intro dir hdir hmem
      rw [childPath] at hmem
      rcases List.mem_append.mp hmem with hmem | hmem
      · exact (List.mem_append.mp hmem).elim hdir hnul
      · split at hmem
        · exact absurd (List.mem_singleton.mp hmem) (by decide)
        · exact List.not_mem_nil hmem
    rw [reportEntry, cString_getD (hslash _ (nul_notMem_normalizeRoot h0)), hbasename,
      cString_getD (hslash [] List.not_mem_nil), popSlash_childPath hname,
      popSlash_childPath hname, if_neg (trimStartSlashes_child_ne hname), if_neg hnul]
    exact if_neg hname.1

/-- **The listed directory is reported** as a child of itself, unless the path has no empty
segment. -/
theorem reportEntry_own :
    reportEntry getBasename (selfPath (asDirectory path)) (ownPath path, true) =
      if PlainDirectory path then none
      else some (popSlash (getBasename (ownPath path)), true) := by
  have hself := normalizeRoot_selfPath path
  rcases normalizeRoot_cases path with hroot | ⟨d, hd, hroot⟩
  · -- The operator root is known by an empty text.
    have hnil : selfPath (asDirectory path) = [] := by
      rw [hroot, selfPath, normalizeRoot_trimStartSlashes] at hself
      exact List.dropWhile_eq_nil_iff.mpr fun b hb => beq_iff_eq.mpr
        (eq_slash_of_normalizeRoot_nil hself b hb)
    rw [if_pos (show PlainDirectory path from Or.inl hnil), ownPath, if_pos hroot, hnil]
    rfl
  · have hown : ownPath path = d ++ [slash] := by
      rw [ownPath, if_neg (by rw [hroot]; simp), hroot]
    have hnul : 0 ∉ d ++ [slash] := hroot ▸ nul_notMem_normalizeRoot h0
    -- The name of the directory is the last of its segments.
    obtain ⟨dir, name, hdir, hname, hsplit⟩ := hd.exists_last
    have hbasename : getBasename (d ++ [slash]) = name ++ [slash] := by
      rw [hsplit]
      exact hbase dir (name, true) hdir hname
    have hnul' : 0 ∉ name ++ [slash] := fun h => by
      rw [hsplit, List.append_assoc] at hnul
      exact hnul (List.mem_append_right _ h)
    have hplain : d = selfPath (asDirectory path) ↔ PlainDirectory path := by
      constructor
      · intro heq
        exact Or.inr (heq ▸ hd)
      · rintro (hself' | hself')
        · rw [hself', hroot] at hself
          simp [normalizeRoot, List.splitOn_nil] at hself
        · rw [hself'.normalizeRoot_eq, hroot, List.append_left_inj] at hself
          exact hself.symm
    rw [reportEntry, hown, cString_getD hnul, hbasename, cString_getD hnul',
      popSlash_append_slash, popSlash_append_slash, trimStartSlashes_of_normalized hd]
    simp only [if_neg hname.1, hplain]

end Reports

section Children

variable {getBasename : Bytes → Bytes} (hbase : LastSegment getBasename) {registry : Registry}
  {operators : ResolvedUrl → Except Bytes OdOperator} {directory : Bytes} {u : ResolvedUrl}
  {op : OdOperator}
include hbase

/-- The children with a name that can be passed on are those that are reported. -/
theorem filterMap_reportEntry {path : Bytes} (h0 : 0 ∉ path) {children : List (Bytes × Bool)}
    (hnames : ∀ child ∈ children, ChildName child.1) :
    (children.map fun child => (childPath (normalizeRoot path) child, child.2)).filterMap
        (reportEntry getBasename (selfPath (asDirectory path))) =
      children.filter fun child => 0 ∉ child.1 := by
  induction children with
  | nil => rfl
  | cons child children ih =>
      obtain ⟨hname, hnames⟩ := List.forall_mem_cons.mp hnames
      rw [List.map_cons, List.filterMap_cons, reportEntry_child hbase h0 hname, ih hnames,
        List.filter_cons]
      by_cases hnul : 0 ∈ child.1 <;> simp [hnul]

variable (operators) in
/-- **When `ListFiles` reports the children of a directory and nothing else**, each once: when
the directory itself is not listed, or the path has no empty segment.  Otherwise the directory
is reported as a child of itself.  A name with a NUL is left out. -/
theorem listFiles_children_iff {own : Bool} {children : List (Bytes × Bool)}
    (hurl : parseUrl registry directory = some u) (hop : operators u = .ok op)
    (hlists : ListsChildren op u.path own children) :
    ∃ reports, listFiles getBasename registry operators directory = .ok (reports, true) ∧
      (reports.Perm (children.filter fun child => 0 ∉ child.1) ↔
        (own = true → PlainDirectory u.path)) ∧
      (own = true → ¬ PlainDirectory u.path →
        reports.Perm ((popSlash (getBasename (ownPath u.path)), true) ::
          children.filter fun child => 0 ∉ child.1)) := by
  obtain ⟨entries, hlister, hentries⟩ := hlists.entries
  have h0 := (wellFormed_of_parseUrl hurl).path_nul
  have hlist : odList op (asDirectory u.path) false = .ok entries := by
    rw [odList, require, if_pos hlists.cap_list, ok_bind,
      requireCstr_eq_ok.mpr (cstr_asDirectory (cstr_path_of_parseUrl hurl)), ok_bind,
      op.listOptions_eq hlister]
    rfl
  have hreports := hentries.filterMap (reportEntry getBasename (selfPath (asDirectory u.path)))
  rw [List.filterMap_append, filterMap_reportEntry hbase h0 hlists.names] at hreports
  refine ⟨(entries.map fun e => (e.path, e.metadata.isDir)).filterMap
    (reportEntry getBasename (selfPath (asDirectory u.path))), ?_, ?_, fun hown hplain => ?_⟩
  · simp only [listFiles, hurl, hop, ok_bind, hlist, List.filterMap_map, reportChild_odNamedEntry]
    rfl
  · rw [hreports.congr_left]
    cases own with
    | false => simp
    | true =>
        by_cases hplain : PlainDirectory u.path
        · simp [reportEntry_own hbase h0, hplain]
        · -- The directory is reported, too.
          refine iff_of_false (fun hperm => ?_) fun h => hplain (h rfl)
          have hlength := hperm.length_eq
          simp [reportEntry_own hbase h0, hplain] at hlength
  · simpa [hown, reportEntry_own hbase h0, hplain] using hreports

end Children

/-- The last segment of a path, with the slash of a directory. -/
def lastSegment (path : Bytes) : Bytes :=
  Text.afterLast slash (popSlash path) ++ if path.getLast? = some slash then [slash] else []

theorem lastSegment_spec : LastSegment lastSegment := by
  rintro dir ⟨name, isDir⟩ hdir ⟨hne, hslash⟩
  have hlast : ∀ b ∈ dir.getLast?, decide (b ≠ slash) = false := by
    rintro b hb
    rcases hdir with rfl | ⟨d, rfl⟩
    · cases hb
    · rw [List.getLast?_concat, Option.mem_some_iff] at hb
      simp [← hb]
  have hname : Text.afterLast slash (dir ++ name) = name :=
    (Text.rdropWhile_rtakeWhile_append hlast fun b hb =>
      decide_eq_true fun h => hslash (h ▸ hb)).2
  have hnot : (dir ++ name).getLast? ≠ some slash := fun h => by
    rw [List.getLast?_append_of_ne_nil _ hne] at h
    exact hslash (List.mem_of_getLast? h)
  rw [lastSegment, popSlash_childPath ⟨hne, hslash⟩, hname]
  cases isDir with
  | false => rw [childPath, if_neg Bool.false_ne_true, List.append_nil, if_neg hnot]; rfl
  | true => simp [childPath]

/-- The directory `a`, a file and a directory in it. -/
def directoryEntries : List Entry :=
  [⟨ascii "a/", by decide, .ofLength .DIR 0⟩, fileEntry (ascii "a/f") (by decide) 3,
    ⟨ascii "a/s/", by decide, .ofLength .DIR 0⟩]

/-- The file and the directory in `a` are reported. -/
theorem listFiles_children_plain :
    ∃ reports, listFiles lastSegment defaultRegistry
        (fun _ => .ok (listingOperator directoryEntries)) (ascii "memory://b/a") =
          .ok (reports, true) ∧
      reports.Perm [(ascii "f", false), (ascii "s", true)] := by
  have hurl : parseUrl defaultRegistry (ascii "memory://b/a") =
      some ⟨ascii "memory", ascii "b", ascii "a"⟩ := by decide
  have hlists : ListsChildren (listingOperator directoryEntries) (ascii "a") true
      [(ascii "f", false), (ascii "s", true)] :=
    ⟨rfl, fun child hchild => by
      rcases List.mem_pair.mp hchild with rfl | rfl <;> exact ⟨by decide, by decide⟩,
      _, rfl, .refl _⟩
  obtain ⟨reports, hreports, hiff, -⟩ :=
    listFiles_children_iff lastSegment_spec (fun _ => .ok _) hurl rfl hlists
  exact ⟨reports, hreports, hiff.mpr fun _ => Or.inr (by decide)⟩

/-- Behind a second slash, the directory is a child of itself. -/
example : listFiles lastSegment defaultRegistry
    (fun _ => .ok (listingOperator directoryEntries)) (ascii "memory://b/a//") =
      .ok ([(ascii "a", true), (ascii "f", false), (ascii "s", true)], true) := by decide

/-! ## The URL of a child -/

/-- A name that stands for itself in the path of a URL. -/
structure PlainName (name : Bytes) : Prop where
  chars : ∀ b ∈ name, b ≠ questionMark ∧ b ≠ hash ∧ b ≠ backslash
  escapes : ∀ c, ¬ PercentCode.HasEscape c name

section ChildUrl

variable {registry : Registry} {directory name : Bytes} {u : ResolvedUrl}

/-- What follows the path of a URL is part of its path. -/
theorem urlParts_append {url scheme authority encodedPath : Bytes} (h0 : 0 ∉ url)
    (hparts : urlParts url = some (scheme, authority, encodedPath)) (hpath : encodedPath ≠ [])
    {rest : Bytes} (hrest : 0 ∉ rest) :
    urlParts (url ++ rest) = some (scheme, authority, encodedPath ++ rest.map unbackslash) := by
  have happend : 0 ∉ url ++ rest := fun h => (List.mem_append.mp h).elim h0 hrest
  rw [urlParts, cStr_of_notMem h0] at hparts
  obtain ⟨⟨scheme', remainder⟩, hscheme, heq⟩ := Option.map_eq_some_iff.mp hparts
  rw [urlParts, cStr_of_notMem happend, List.map_append,
    Text.splitOnce_append hscheme (rest.map unbackslash)]
  cases hslash : Text.splitOnce [slash] remainder with
  | none =>
      simp only [hslash, Option.getD_none, Prod.mk.injEq] at heq
      exact absurd heq.2.2.symm hpath
  | some parts =>
      simp only [hslash, Option.getD_some, Prod.mk.injEq] at heq
      obtain ⟨rfl, rfl⟩ := heq
      simp only [Option.map_some, Text.splitOnce_append hslash (rest.map unbackslash),
        Option.getD_some]

/-- A name that is decoded to itself is plain, but for a query. -/
theorem notMem_escape_of_decode (h : PercentCode.decode (name.map unbackslash) = name) :
    name.map unbackslash = name ∧ ∀ c, ¬ PercentCode.HasEscape c name := by
  have hplain : ∀ c, ¬ PercentCode.HasEscape c (name.map unbackslash) := by
    intro c hc
    have hlt := PercentCode.length_decode_lt hc
    rw [h, List.length_map] at hlt
    exact lt_irrefl _ hlt
  have heq := (PercentCode.decode_eq_self hplain).symm.trans h
  exact ⟨heq, heq ▸ hplain⟩

/-- **A plain name behind the path of a URL** is a segment of the path it resolves to. -/
theorem Resolved.child {scheme authority encodedPath : Bytes}
    (hu : Resolved registry directory u scheme authority encodedPath) (hdirectory : 0 ∉ directory)
    (hpath : encodedPath ≠ []) (hutf8 : Utf8.isUtf8 name = true) (hnul : 0 ∉ name)
    (hplain : PlainName name) :
    Resolved registry (directory ++ slash :: name)
      ⟨u.scheme, u.authority, u.path ++ slash :: name⟩ scheme authority
      (encodedPath ++ slash :: name) := by
  obtain rfl := hu.eq
  have hrest : 0 ∉ slash :: name := List.not_mem_cons_of_ne_of_not_mem (by decide) hnul
  have hjoined : 0 ∉ directory ++ slash :: name := fun h =>
    (List.mem_append.mp h).elim hdirectory hrest
  have hname : (slash :: name).map unbackslash = slash :: name := by
    refine map_eq_self fun b hb => unbackslash_of_ne ?_
    rcases List.mem_cons.mp hb with rfl | hb
    · decide
    · exact (hplain.chars b hb).2.2
  have hparts := urlParts_append hdirectory hu.parts hpath hrest
  rw [hname] at hparts
  have hdecode : PercentCode.decode (encodedPath ++ slash :: name) =
      PercentCode.decode encodedPath ++ slash :: name := by
    rw [PercentCode.decode_append_cons (by decide) (by decide),
      PercentCode.decode_eq_self hplain.escapes]
  have hquery : ∀ b, b ∉ (cStr directory).map unbackslash → b ≠ slash → b ∉ name →
      b ∉ (cStr (directory ++ slash :: name)).map unbackslash := by
    intro b hb hne hb'
    rw [cStr_of_notMem hjoined, List.map_append, hname, ← cStr_of_notMem hdirectory,
      List.mem_append, List.mem_cons, not_or, not_or]
    exact ⟨hb, hne, hb'⟩
  refine ⟨?_, hparts, ⟨?_, ?_⟩, hu.registered, hu.userinfo, ?_, ?_, ⟨hu.nul.1, ?_⟩,
    by rw [hdecode]⟩
  · rw [cStr_of_notMem hjoined, Utf8.isUtf8_append_cons_iff (by decide)]
    exact ⟨cStr_of_notMem hdirectory ▸ hu.utf8, hutf8⟩
  · exact hquery _ hu.query.1 (by decide) fun h => (hplain.chars _ h).1 rfl
  · exact hquery _ hu.query.2 (by decide) fun h => (hplain.chars _ h).2.1 rfl
  · have hseparator : ∀ path, encodedSlash <:+: path.map toAsciiLowercase ↔
        PercentCode.HasEscape slash path := fun path => by
      rw [encodedSlash_infix_iff, CreatesSeparator,
        PercentCode.hasEscape_iff_splitOn (by decide) (by decide)]
    rw [hseparator, PercentCode.hasEscape_append_cons_iff (by decide) (by decide), ← hseparator]
    exact fun h => h.elim hu.separators (hplain.escapes _)
  · rw [hdecode, Utf8.isUtf8_append_cons_iff (by decide)]
    exact ⟨hu.path_utf8, hutf8⟩
  · rw [hdecode, List.mem_append, not_or]
    exact ⟨hu.nul.2, hrest⟩

/-- **When the URL of a child names the child**: when the URL of the directory has no NUL, and
the name no byte that a URL reads as something else and no escape. -/
theorem parseUrl_child_iff (hurl : parseUrl registry directory = some u) (hpath : u.path ≠ [])
    (hutf8 : Utf8.isUtf8 name = true) (hnul : 0 ∉ name) :
    parseUrl registry (directory ++ slash :: name) =
        some ⟨u.scheme, u.authority, u.path ++ slash :: name⟩ ↔
      0 ∉ directory ∧ PlainName name := by
  by_cases hdirectory : 0 ∈ directory
  · -- The name is cut off.
    refine iff_of_false (fun h => ?_) fun h => h.1 hdirectory
    have hcut : parseUrl registry (directory ++ slash :: name) = parseUrl registry directory := by
      rw [parseUrl, parseUrl, odUrlResolve, odUrlResolve, resolve, resolve, cstr,
        cStr_append_of_mem hdirectory, ← cstr]
    rw [hcut, hurl, Option.some.injEq] at h
    have hlength := congrArg (fun v : ResolvedUrl => v.path.length) h
    simp at hlength
  obtain ⟨scheme, authority, encodedPath, hu⟩ :=
    odUrlResolve_eq_ok_iff.mp (odUrlResolve_of_parseUrl hurl)
  have hne : encodedPath ≠ [] := by
    rintro rfl
    exact hpath (congrArg ResolvedUrl.path hu.eq)
  rw [and_iff_right hdirectory]
  constructor
  · intro h
    have hrest : 0 ∉ slash :: name := List.not_mem_cons_of_ne_of_not_mem (by decide) hnul
    obtain ⟨scheme', authority', encodedPath', hv⟩ :=
      odUrlResolve_eq_ok_iff.mp (odUrlResolve_of_parseUrl h)
    have hparts := hv.parts.symm.trans (urlParts_append hdirectory hu.parts hne hrest)
    simp only [Option.some.injEq, Prod.mk.injEq] at hparts
    obtain ⟨rfl, rfl, rfl⟩ := hparts
    have hpath' : u.path ++ slash :: name =
        PercentCode.decode encodedPath ++ slash :: PercentCode.decode (name.map unbackslash) :=
      (congrArg ResolvedUrl.path hv.eq).trans
        (PercentCode.decode_append_cons (by decide) (by decide) _ _)
    rw [congrArg ResolvedUrl.path hu.eq, List.append_cancel_left_eq, List.cons.injEq] at hpath'
    obtain ⟨hname, hescapes⟩ := notMem_escape_of_decode hpath'.2.symm
    have hmem : ∀ b ∈ name, b ∈ (cStr (directory ++ slash :: name)).map unbackslash := by
      intro b hb
      rw [cStr_of_notMem fun h => (List.mem_append.mp h).elim hdirectory hrest, List.map_append,
        List.map_cons, hname]
      exact List.mem_append_right _ (List.mem_cons_of_mem _ hb)
    refine ⟨fun b hb => ⟨?_, ?_, ?_⟩, hescapes⟩
    · exact fun h => hv.query.1 (h ▸ hmem b hb)
    · exact fun h => hv.query.2 (h ▸ hmem b hb)
    · exact fun h => backslash_notMem_map _ (h ▸ hmem b hb)
  · intro hplain
    have hresolved := hu.child hdirectory hne hutf8 hnul hplain
    rw [parseUrl, odUrlResolve_eq_ok_iff.mpr ⟨_, _, _, hresolved⟩]
    rfl

end ChildUrl

/-- The URL of `x` names it, and that of `x%41` another object. -/
theorem parseUrl_child_plain :
    parseUrl defaultRegistry (ascii "memory://b/a" ++ slash :: ascii "x") =
        some ⟨ascii "memory", ascii "b", ascii "a" ++ slash :: ascii "x"⟩ ∧
      parseUrl defaultRegistry (ascii "memory://b/a" ++ slash :: ascii "x%41") ≠
        some ⟨ascii "memory", ascii "b", ascii "a" ++ slash :: ascii "x%41"⟩ := by
  have hurl : parseUrl defaultRegistry (ascii "memory://b/a") =
      some ⟨ascii "memory", ascii "b", ascii "a"⟩ := by decide
  constructor
  · refine (parseUrl_child_iff hurl (by decide) (by decide) (by decide)).mpr
      ⟨by decide, fun b hb => ?_, ?_⟩
    · obtain rfl : b = 0x78 := List.mem_singleton.mp hb
      decide
    rintro c ⟨d, e, hi, lo, hinfix, -⟩
    exact absurd hinfix.length_le (show ¬ 3 ≤ (ascii "x").length by decide)
  · intro h
    obtain ⟨-, hplain⟩ :=
      (parseUrl_child_iff hurl (by decide) (by decide) (by decide)).mp h
    exact hplain.escapes 0x41 ⟨0x34, 0x31, 4, 1, by decide, rfl, rfl, rfl⟩

end DuckdbOpendal
