import DuckdbOpendal.Statements
import DuckdbOpendal.TableList

/-!
# Disk usage and listings

`opendal_du` and `opendal_ls` list alike, but each by its own code: the first collects a listing
and rolls it up, the second pulls it entry by entry and passes over some.  Where both can be asked
for one tree, the one should be the other, grouped by directory.

## Main Definitions

* `duScanInit` — a statement of `opendal_du` up to its cursor

## Main Results

* `not_self_of_below` — no file of a listing is passed over as the directory itself
* `sumsUp_of_tree` — what a cursor over disk usage sums up
* `du_groups_ls` — disk usage is the listing, grouped by directory
-/

namespace DuckdbOpendal

open Cursor

/-! ## The statement of `opendal_du` -/

/-- `DuBindData`, without the file system. -/
structure DuBindData where
  url : Bytes
  startAfter : Bytes
  versions : Bool
  deleted : Bool
  deriving DecidableEq, Repr

/-- `DuBind`. -/
def duBind (url : Bytes) (parameters : NamedParameters) : DuBindData where
  url := url
  startAfter := stringParameter parameters (ascii "start_after")
  versions := boolParameter parameters (ascii "versions")
  deleted := boolParameter parameters (ascii "deleted")

/-- The options `DuInit` passes on. -/
def DuBindData.arguments (bind : DuBindData) : OdListOptions where
  startAfter := textArgument bind.startAfter
  recursive := false
  versions := bind.versions
  deleted := bind.deleted

/-- `DuGlobalState`, before its first call. -/
structure DuGlobalState where
  cursor : OdDuCursor
  scheme : Bytes
  authority : Bytes
  target : Bytes
  deriving DecidableEq, Repr

/-- `DuInit`; `operators` is what `OperatorForPublic` returns or throws. -/
def duScanInit (registry : Registry) (operators : ResolvedUrl → Except Bytes OdOperator)
    (bind : DuBindData) : Except Bytes DuGlobalState :=
  match parseUrl registry bind.url with
  | none => .error (ascii "opendal du: unsupported or invalid URL: " ++ bind.url)
  | some u => do
      let op ← operators u
      match odTableDuOpen op u.path bind.arguments with
      | .ok cursor => .ok ⟨cursor, u.scheme, u.authority, bind.url⟩
      | .error err => .error (throwIfTableError err "du" bind.url)

/-! ## The directory itself -/

/-- **No file of a listing is passed over**: below a directory, none has its name. -/
theorem not_self_of_below {root f : Bytes} (hf : NormalizedPath f)
    (hbelow : normalizeRoot root <+: f) :
    f ≠ trimEndSlashes (trimStartSlashes root) ∧
      f ≠ trimEndSlashes (trimStartSlashes root) ++ [slash] := by
  refine ⟨fun hself => ?_, hf.not_concat_slash _⟩
  have hroot : normalizeRoot root = f ++ [slash] := by
    rw [← normalizeRoot_trimStartSlashes, ← normalizeRoot_trimEndSlashes, ← hself,
      hf.normalizeRoot_eq]
  have hlength := hbelow.length_le
  rw [hroot, List.length_append, List.length_singleton] at hlength
  exact absurd hlength (Nat.not_succ_le_self _)

/-! ## Listings of trees -/

/-- The path names a tree: it has a wildcard, or ends in a slash and is not a file. -/
def NamesTree (op : OdOperator) (path : Bytes) : Prop :=
  hasGlob path = true ∨ path.getLast? = some slash ∧
    ∀ metadata, op.stat path none = .ok metadata → metadata.isFile = false

theorem NamesTree.dirRoot {op : OdOperator} {path : Bytes} (h : NamesTree op path) :
    DirRoot (listRoot path) := by
  rw [listRoot]
  cases hglob : hasGlob path with
  | true => exact dirRoot_globRoot path
  | false =>
      obtain ⟨hslash, -⟩ := h.resolve_left (by rw [hglob]; exact Bool.false_ne_true)
      exact Or.inr (List.getLast?_eq_some_iff.mp hslash)

section Tree

variable {op : OdOperator} {path : Bytes} {entries : List Entry}

/-- The entries of a tree that are rolled up are those of its listing that a pattern selects. -/
theorem duEntries_of_tree (htree : NamesTree op path)
    (hlister : op.lister (listRoot path) (.plain true) = .ok (entries.map .ok))
    {found : List (Bytes × Metadata)} (h : duEntries op path (.plain false) = .ok found) :
    found = (entries.filter fun e => copySelects path e.path).map Entry.intoParts := by
  rw [duEntries] at h
  cases hglob : hasGlob path with
  | true =>
      have hlist : op.listOptions (globRoot path)
          { ListOptions.plain false with recursive := true } = .ok entries := by
        rw [listRoot, hglob] at hlister
        exact OdOperator.listOptions_eq hlister
      simp only [hglob, if_true, hlist, ok_bind] at h
      cases h
      have hselects : ∀ e : Entry, copySelects path e.path =
          globMatches (trimStartSlashes path) e.path := fun e => by
        rw [copySelects, if_pos hglob]
      simp only [hselects]
  | false =>
      obtain ⟨hslash, hstat⟩ := htree.resolve_left (by rw [hglob]; exact Bool.false_ne_true)
      have hlist : op.listOptions path
          { ListOptions.plain false with recursive := true } = .ok entries := by
        rw [listRoot, hglob] at hlister
        exact OdOperator.listOptions_eq hlister
      rw [if_neg (by rw [hglob]; exact Bool.false_ne_true)] at h
      obtain ⟨metadata, hmetadata, h⟩ := bind_eq_ok.mp h
      simp only [hstat metadata hmetadata, Bool.false_eq_true, if_false, hslash, if_true, hlist,
        ok_bind] at h
      cases h
      have hselects : ∀ e : Entry, copySelects path e.path = true := fun e => by
        rw [copySelects, if_neg (by rw [hglob]; exact Bool.false_ne_true)]
      simp only [hselects, List.filter_true]

/-- The file rows of a tree are those of the selected files of its listing. -/
theorem fileRows_of_tree (getBasename : Bytes → Bytes)
    (hfiles : ∀ e ∈ entries, e.metadata.isFile = true →
      NormalizedPath e.path ∧ normalizeRoot (listRoot path) <+: e.path) :
    (((entries.map fun e => OwnedRow.ofParts getBasename e.path e.metadata).filter fun row =>
        !((OdTableCursor.listing path (entries.map .ok)).isSelf row ||
          (OdTableCursor.listing path (entries.map .ok)).isUnmatched row)).filter fun row =>
        row.mode = EntryMode.FILE.code) =
      (listedFiles ((entries.filter fun e => copySelects path e.path).map Entry.intoParts)).map
        fun file => OwnedRow.ofParts getBasename file.1 file.2 := by
  rw [listedFiles, List.filter_map, List.filter_map, List.filter_map, List.filter_filter,
    List.filter_filter, List.map_map]
  refine congrArg (List.map _) (List.filter_congr fun e he => ?_)
  have hmode : decide ((OwnedRow.ofParts getBasename e.path e.metadata).mode =
      EntryMode.FILE.code) = e.metadata.isFile := by
    rw [Bool.eq_iff_iff, decide_eq_true_eq, Metadata.isFile, beq_iff_eq]
    exact EntryMode.code_injective.eq_iff
  have hunmatched : (OdTableCursor.listing path (entries.map .ok)).isUnmatched
      (OwnedRow.ofParts getBasename e.path e.metadata) = !copySelects path e.path := by
    simp only [OdTableCursor.isUnmatched, OdTableCursor.listing, copySelects, OwnedRow.ofParts]
    cases hasGlob path with
    | true => rfl
    | false => rfl
  show (decide _ && !(_ || _)) = (e.metadata.isFile && copySelects path e.path)
  rw [hunmatched, hmode]
  cases hfile : e.metadata.isFile with
  | false => rfl
  | true =>
      obtain ⟨hpath, hbelow⟩ := hfiles e he hfile
      obtain ⟨hne, hne'⟩ := not_self_of_below hpath hbelow
      have hself : (OdTableCursor.listing path (entries.map .ok)).isSelf
          (OwnedRow.ofParts getBasename e.path e.metadata) = false := by
        simp [OdTableCursor.isSelf, OdTableCursor.listing, OwnedRow.ofParts, hne, hne']
      rw [hself, Bool.false_or, Bool.not_not]

end Tree

/-! ## Both statements -/

/-- A statement that asks for every depth, and for nothing else. -/
def everyDepth : NamedParameters :=
  { NamedParameters.unset with
    flag := fun name => if name = ascii "recursive" then some true else none }

section Statements

variable {registry : Registry} {operators : ResolvedUrl → Except Bytes StatOperator}
  {url : Bytes} {u : ResolvedUrl} {op : StatOperator}

/-- The cursor of `opendal_ls` at every depth. -/
theorem entryScanInit_everyDepth {clock : Timestamps} {cursor : OdTableCursor}
    {entries : List Entry} (hurl : parseUrl registry url = some u) (hop : operators u = .ok op)
    (hlister : op.lister (listRoot u.path) (.plain true) = .ok (entries.map .ok))
    (h : entryScanInit clock registry operators (bindEntry clock .LIST url everyDepth) =
      .ok cursor) : cursor = .listing u.path (entries.map .ok) := by
  obtain ⟨u', op', hurl', hop', hopen⟩ := entryScanInit_eq_ok.mp h
  cases hurl.symm.trans hurl'
  cases hop.symm.trans hop'
  obtain ⟨options, lister, hrequest, -, hlister', rfl⟩ :=
    (listing_eq_ok (wellFormed_of_parseUrl hurl) clock).mp hopen
  obtain ⟨startAfter, recursive, versions, deleted⟩ := options
  obtain rfl : startAfter = none := hrequest.startAfter.eq
  obtain rfl : recursive = true := hrequest.recursive.trans (Bool.or_true _)
  obtain rfl : versions = false := hrequest.versions
  obtain rfl : deleted = false := hrequest.deleted
  cases hlister.symm.trans hlister'
  rfl

/-- The cursor of `opendal_du`. -/
theorem duScanInit_eq_ok {operators : ResolvedUrl → Except Bytes OdOperator} {op : OdOperator}
    {bind : DuBindData} {state : DuGlobalState} (hurl : parseUrl registry bind.url = some u)
    (hop : operators u = .ok op) (h : duScanInit registry operators bind = .ok state) :
    odTableDuOpen op u.path bind.arguments = .ok state.cursor := by
  simp only [duScanInit, hurl, hop, ok_bind] at h
  split at h
  · rename_i cursor hcursor
    cases h
    exact hcursor
  · cases h

/-- **A cursor over the disk usage of a tree** sums up the files of its listing that a pattern
selects. -/
theorem sumsUp_of_tree {op : OdOperator} {path : Bytes} {entries : List Entry}
    {cursor : OdDuCursor} (htree : NamesTree op path) (hpath : cstr path = some path)
    (hlister : op.lister (listRoot path) (.plain true) = .ok (entries.map .ok))
    (hnul : ∀ e ∈ entries, e.NulFree)
    (hopen : odTableDuOpen op path (duBind url .unset).arguments = .ok cursor) :
    ∃ groups, Drains odDuCursorNext cursor groups (.ok ()) ∧
      SumsUp ((entries.filter fun e => copySelects path e.path).map Entry.intoParts) groups := by
  have hoptions : listOptions (duBind url .unset).arguments = .ok (.plain false) := rfl
  obtain ⟨found, hfound⟩ : ∃ found, duEntries op path (.plain false) = .ok found := by
    rw [odTableDuOpen, requireCstr_eq_ok.mpr hpath, ok_bind, hoptions, invalidInput, ok_bind]
      at hopen
    obtain ⟨found, hfound, -⟩ := bind_eq_ok.mp hopen
    exact ⟨found, orOpendalError_eq_ok.mp hfound⟩
  have hselected := duEntries_of_tree htree hlister hfound
  have hfoundNul : ∀ e ∈ found, 0 ∉ e.1 := by
    rw [hselected]
    intro e he
    obtain ⟨entry, hentry, rfl⟩ := List.mem_map.mp he
    exact (hnul entry (List.mem_filter.mp hentry).1).1
  rw [odTableDuOpen_eq hpath hoptions hfound hfoundNul] at hopen
  cases hrollup : duRollup ∅ found with
  | error err =>
      rw [hrollup] at hopen
      cases hopen
  | ok sums =>
      rw [hrollup] at hopen
      obtain rfl := Except.ok.inj hopen
      exact ⟨_, drains_du _ none, hselected ▸ sumsUp_of_duRollup hrollup⟩

/-- **Disk usage is the listing, grouped by directory.**  For a URL that names a tree, the rows of
`opendal_du` sum up the file rows that `opendal_ls` hands out at every depth, by the parent of
their paths: none is left out or counted twice, and the totals are those of the listing. -/
theorem du_groups_ls {store : Set Bytes} {getBasename : Bytes → Bytes}
    (hbase : ∀ path, getBasename path <:+ path) (hurl : parseUrl registry url = some u)
    (hop : operators u = .ok op) (htree : NamesTree op.toOdOperator u.path)
    (hstore : ∀ f ∈ store, NormalizedPath f) (hlists : ListsStore op.toOdOperator store)
    (hnul : NulFreeListings op.toOdOperator) {clock : Timestamps} {cursor : OdTableCursor}
    {state : DuGlobalState}
    (hls : entryScanInit clock registry operators (bindEntry clock .LIST url everyDepth) =
      .ok cursor)
    (hdu : duScanInit registry (fun u => (operators u).map StatOperator.toOdOperator)
      (duBind url .unset) = .ok state) :
    ∃ rows groups, Drains (odTableCursorNext getBasename) cursor rows (.ok ()) ∧
      Drains odDuCursorNext state.cursor groups (.ok ()) ∧
      let files := rows.filter fun row => row.mode = EntryMode.FILE.code
      Rollup.IsRollup (fun row => parent row.path) (fun row => row.contentLength.val) files
          (groups.map OwnedDuRow.row) ∧
        (groups.map OwnedDuRow.fileCount).sum = files.length ∧
        (groups.map OwnedDuRow.totalSize).sum =
          (files.map fun row => row.contentLength.val).sum := by
  obtain ⟨entries, hlister, hlisted⟩ := hlists.recursive _ htree.dirRoot
  obtain rfl := entryScanInit_everyDepth hurl hop hlister hls
  have hnulFree : ∀ e ∈ entries, e.NulFree := fun e he =>
    hnul _ _ _ hlister e (List.mem_map_of_mem he)
  have hfiles : ∀ e ∈ entries, e.metadata.isFile = true →
      NormalizedPath e.path ∧ normalizeRoot (listRoot u.path) <+: e.path := by
    intro e he hfile
    obtain ⟨hmem, hbelow⟩ := (hlisted.files e.path).mp ⟨e, he, rfl, beq_iff_eq.mp hfile⟩
    exact ⟨hstore _ hmem, hbelow⟩
  have hpath := cstr_of_utf8 (wellFormed_of_parseUrl hurl).path_nul
    (wellFormed_of_parseUrl hurl).path_utf8
  obtain ⟨groups, hgroups, hsums⟩ := sumsUp_of_tree htree hpath hlister hnulFree
    (duScanInit_eq_ok hurl (by rw [hop]; rfl) hdu)
  rw [SumsUp] at hsums
  refine ⟨_, groups, OdTableCursor.drains_of_nulFree hbase _ rfl hnulFree, hgroups, ?_⟩
  -- The files that are rolled up are those of the rows.
  have hrollup : Rollup.IsRollup (fun row : OwnedRow => parent row.path)
      (fun row => row.contentLength.val) _ _ :=
    hsums.map fun file : Bytes × Metadata => OwnedRow.ofParts getBasename file.1 file.2
  rw [← fileRows_of_tree getBasename hfiles] at hrollup
  refine ⟨hrollup, ?_, ?_⟩
  · have hcount := hrollup.sum_count
    rw [List.map_map] at hcount
    exact hcount
  · have htotal := hrollup.sum_total
    rw [List.map_map] at htotal
    exact htotal

/-- An operator over three files that stats none of their versions. -/
def duOperator : StatOperator where
  toOdOperator := storeOperator .all duFiles
  statCap := ⟨false, false, false, false, false⟩
  statOptions path _ := (storeOperator .all duFiles).stat path none

/-- Disk usage over three files is their listing, grouped. -/
theorem du_groups_ls_glob : ∃ rows groups,
    Drains (odTableCursorNext (Text.afterLast slash))
        (.listing (ascii "**") (duFiles.map .ok)) rows (.ok ()) ∧
      Drains odDuCursorNext ⟨[⟨[], 1, 1⟩, ⟨ascii "d", 2, 7⟩], none⟩ groups (.ok ()) ∧
      let files := rows.filter fun row => row.mode = EntryMode.FILE.code
      Rollup.IsRollup (fun row => parent row.path) (fun row => row.contentLength.val) files
          (groups.map OwnedDuRow.row) ∧
        (groups.map OwnedDuRow.fileCount).sum = files.length ∧
        (groups.map OwnedDuRow.totalSize).sum =
          (files.map fun row => row.contentLength.val).sum := by
  have hurl : parseUrl defaultRegistry (ascii "memory:///**") =
      some ⟨ascii "memory", [], ascii "**"⟩ := by decide
  have hls : entryScanInit plainClock defaultRegistry (fun _ => .ok duOperator)
      (bindEntry plainClock .LIST (ascii "memory:///**") everyDepth) =
        .ok (.listing (ascii "**") (duFiles.map .ok)) := by decide +kernel
  have hdu : duScanInit defaultRegistry (fun _ => .ok duOperator.toOdOperator)
      (duBind (ascii "memory:///**") .unset) =
        .ok ⟨⟨[⟨[], 1, 1⟩, ⟨ascii "d", 2, 7⟩], none⟩, ascii "memory", [],
          ascii "memory:///**"⟩ := by decide +kernel
  exact du_groups_ls (Text.afterLast_suffix slash) hurl rfl (Or.inl (by decide))
    (by rintro f ⟨e, he, rfl⟩; revert e; decide) (storeOperator_listsStore rfl (by decide))
    (storeOperator_nulFree (by unfold Entry.NulFree; decide)) hls hdu

end Statements

end DuckdbOpendal
