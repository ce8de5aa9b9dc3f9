import Mathlib.Data.List.Lex
import DuckdbOpendal.Lib.Rollup
import DuckdbOpendal.Lib.SortedMap
import DuckdbOpendal.Table

/-!
# Disk usage

`od_table_du_open` of `opendal/src/table.rs`: select the entries of a file, a directory
or a glob, and roll the sizes of the files up per parent directory.

## Main Definitions

* `duEntries` — the entries a target selects
* `duRollup` — the rollup
* `odTableDuOpen`, `odDuCursorNext` — the scan

## Main Results

* `find?_duRollup` — the rollup counts and sums per directory
* `odTableDuOpen_directories` — the directories of the rows
* `exists_duRollup_iff` — when the rollup goes through
* `odTableDuOpen_rollup` — the rows of a scan sum up the selected files
-/

namespace DuckdbOpendal

/-- `u64::checked_add`. -/
def checkedAdd (a b : ℕ) : Option ℕ := if a + b < 2 ^ 64 then some (a + b) else none

theorem checkedAdd_eq_some {a b c : ℕ} (h : checkedAdd a b = some c) : c = a + b := by
  unfold checkedAdd at h
  split at h
  · exact (Option.some.inj h).symm
  · cases h

/-- `Entry::into_parts`. -/
def Entry.intoParts (e : Entry) : Bytes × Metadata := (e.path, e.metadata)

/-! ## Selecting entries -/

/-- The entries of `od_table_du_open`, before the rollup. -/
def duEntries (op : OdOperator) (target : Bytes) (options : ListOptions) :
    Except OpendalError (List (Bytes × Metadata)) :=
  if hasGlob target then do
    let entries ← op.listOptions (globRoot target) { options with recursive := true }
    return (entries.filter fun e => globMatches (trimStartSlashes target) e.path).map
      Entry.intoParts
  else do
    let metadata ← op.stat target none
    if metadata.isFile then return [(target, metadata)]
    else
      let directory := if target.getLast? = some slash then target else target ++ [slash]
      let entries ← op.listOptions directory { options with recursive := true }
      return entries.map Entry.intoParts

/-! ## The rollup -/

/-- `parent`: the path before its last slash, trailing slashes aside. -/
def parent (path : Bytes) : Bytes := (Text.uptoLast slash (trimEndSlashes path)).dropLast

/-- The groups of the rollup: file count and total size by directory. -/
abbrev DuGroups := SortedMap Bytes (ℕ × ℕ)

/-- One round of the rollup. -/
def duAdd (groups : DuGroups) (entry : Bytes × Metadata) : Except OdError DuGroups :=
  if !entry.2.isFile then .ok groups
  else
    let directory := parent entry.1
    let group := (groups.find? directory).getD (0, 0)
    match checkedAdd group.1 1 with
    | none => .error (setError .Unexpected (ascii "du file count overflow"))
    | some fileCount =>
        match checkedAdd group.2 entry.2.contentLength.val with
        | none => .error (setError .Unexpected (ascii "du byte count overflow"))
        | some totalSize => .ok (groups.insert directory (fileCount, totalSize))

/-- The rollup over the selected entries. -/
def duRollup (groups : DuGroups) : List (Bytes × Metadata) → Except OdError DuGroups
  | [] => .ok groups
  | entry :: entries => do duRollup (← duAdd groups entry) entries

/-- `OwnedDuRow`. -/
structure OwnedDuRow where
  directory : Bytes
  fileCount : ℕ
  totalSize : ℕ
  deriving DecidableEq, Repr

/-- `OdDuCursor`. -/
structure OdDuCursor where
  rows : List OwnedDuRow
  current : Option OwnedDuRow
  deriving DecidableEq, Repr

/-- A group as a row. -/
def duRow (group : Bytes × ℕ × ℕ) : Except OdError OwnedDuRow :=
  match cstring group.1 "du directory" with
  | .ok directory => .ok ⟨directory, group.2.1, group.2.2⟩
  | .error message => .error (setError .Unexpected message)

/-- `od_table_du_open`. -/
def odTableDuOpen (op : OdOperator) (target : Bytes) (rawOptions : OdListOptions) :
    Except OdError OdDuCursor := do
  let target ← requireCstr target "target is null or not UTF-8"
  let options ← invalidInput (listOptions rawOptions)
  let entries ← orOpendalError (duEntries op target options)
  let groups ← duRollup ∅ entries
  let rows ← groups.entries.mapM duRow
  return ⟨rows, none⟩

/-- `od_du_cursor_next`. -/
def odDuCursorNext (c : OdDuCursor) : OdDuCursor × Except OdError (Option OwnedDuRow) :=
  match c.rows with
  | [] => (c, .ok none)
  | row :: rows => (⟨rows, some row⟩, .ok (some row))

/-! ## Parents -/

/-- **The parent of a path**: what stands before the last slash, trailing slashes aside. -/
theorem parent_spec (path : Bytes) :
    parent path = [] ∧ slash ∉ trimEndSlashes path ∨
      ∃ name, slash ∉ name ∧ trimEndSlashes path = parent path ++ slash :: name := by
  have hsplit := Text.uptoLast_append_afterLast slash (trimEndSlashes path)
  have hname := Text.notMem_afterLast slash (trimEndSlashes path)
  rcases Text.uptoLast_eq_nil_or_concat slash (trimEndSlashes path) with hnil | ⟨d, hd⟩
  · rw [hnil, List.nil_append] at hsplit
    refine Or.inl ⟨by rw [parent, hnil, List.dropLast_nil], ?_⟩
    rwa [hsplit] at hname
  · refine Or.inr ⟨_, hname, ?_⟩
    rw [parent, hd, List.dropLast_concat]
    rw [hd, List.append_assoc, List.singleton_append] at hsplit
    exact hsplit.symm

theorem mem_of_mem_parent {path : Bytes} {b : UInt8} (h : b ∈ parent path) : b ∈ path := by
  have htrim : b ∈ trimEndSlashes path := by
    rcases parent_spec path with ⟨hnil, -⟩ | ⟨name, -, hsplit⟩
    · rw [hnil] at h
      cases h
    · rw [hsplit]
      exact List.mem_append_left _ h
  exact (List.rdropWhile_prefix _ path).mem htrim

/-! ## What the rollup computes -/

/-- The files among the entries whose parent is the given directory. -/
def filesUnder (directory : Bytes) (entries : List (Bytes × Metadata)) :
    List (Bytes × Metadata) :=
  entries.filter fun e => e.2.isFile && parent e.1 == directory

/-- The number and total size of files, added to a group. -/
def addFiles (group : ℕ × ℕ) (files : List (Bytes × Metadata)) : ℕ × ℕ :=
  (group.1 + files.length, group.2 + (files.map fun e => e.2.contentLength.val).sum)

theorem find?_duAdd {groups groups' : DuGroups} {entry : Bytes × Metadata}
    (h : duAdd groups entry = .ok groups') (directory : Bytes) :
    groups'.find? directory =
      if filesUnder directory [entry] = [] then groups.find? directory
      else some
        (addFiles ((groups.find? directory).getD (0, 0)) (filesUnder directory [entry])) := by
  unfold duAdd at h
  by_cases hfile : entry.2.isFile = true
  · simp only [hfile, Bool.not_true, Bool.false_eq_true, if_false] at h
    split at h
    · cases h
    · rename_i fileCount hcount
      split at h
      · cases h
      · rename_i totalSize hsize
        cases h
        rw [SortedMap.find?_insert]
        by_cases hdir : directory = parent entry.1
        · subst hdir
          simp [filesUnder, hfile, addFiles, checkedAdd_eq_some hcount, checkedAdd_eq_some hsize]
        · simp [filesUnder, hdir, Ne.symm hdir]
  · simp only [hfile, Bool.not_false, if_true] at h
    cases h
    simp [filesUnder, hfile]

theorem filesUnder_cons (directory : Bytes) (entry : Bytes × Metadata)
    (entries : List (Bytes × Metadata)) :
    filesUnder directory (entry :: entries) =
      filesUnder directory [entry] ++ filesUnder directory entries := by
  rw [filesUnder, ← List.singleton_append, List.filter_append]
  rfl

/-- **The rollup counts and sums per directory.** -/
theorem find?_duRollup {entries : List (Bytes × Metadata)} {groups groups' : DuGroups}
    (h : duRollup groups entries = .ok groups') (directory : Bytes) :
    groups'.find? directory =
      if filesUnder directory entries = [] then groups.find? directory
      else some
        (addFiles ((groups.find? directory).getD (0, 0)) (filesUnder directory entries)) := by
  induction entries generalizing groups with
  | nil =>
      cases h
      rfl
  | cons entry entries ih =>
      obtain ⟨groups₁, hadd, hrest⟩ := bind_eq_ok.mp h
      rw [ih hrest, find?_duAdd hadd, filesUnder_cons directory entry entries]
      by_cases hhead : filesUnder directory [entry] = []
      · simp [hhead]
      · by_cases htail : filesUnder directory entries = []
        · simp [hhead, htail]
        · simp [hhead, htail, addFiles, Nat.add_assoc]

theorem addFiles_append (group : ℕ × ℕ) (files files' : List (Bytes × Metadata)) :
    addFiles group (files ++ files') = addFiles (addFiles group files) files' := by
  simp [addFiles, Nat.add_assoc]

/-- A group whose count and size are `u64`s. -/
def Fits (group : ℕ × ℕ) : Prop := group.1 < 2 ^ 64 ∧ group.2 < 2 ^ 64

/-- A group that fits has fitted before. -/
theorem Fits.of_append {group : ℕ × ℕ} {files files' : List (Bytes × Metadata)}
    (h : Fits (addFiles group (files ++ files'))) : Fits (addFiles group files) := by
  rw [addFiles_append] at h
  exact ⟨lt_of_le_of_lt (Nat.le_add_right _ _) h.1, lt_of_le_of_lt (Nat.le_add_right _ _) h.2⟩

/-- What a directory has after one round. -/
theorem getD_duAdd {groups groups' : DuGroups} {entry : Bytes × Metadata}
    (h : duAdd groups entry = .ok groups') (directory : Bytes) :
    (groups'.find? directory).getD (0, 0) =
      addFiles ((groups.find? directory).getD (0, 0)) (filesUnder directory [entry]) := by
  rw [find?_duAdd h]
  split
  · rename_i hnone
    rw [hnone]
    rfl
  · rfl

/-- **When one round goes through**: when every directory fits afterwards. -/
theorem exists_duAdd_iff {groups : DuGroups} (entry : Bytes × Metadata)
    (hgroups : ∀ directory, Fits ((groups.find? directory).getD (0, 0))) :
    (∃ groups', duAdd groups entry = .ok groups') ↔ ∀ directory,
      Fits (addFiles ((groups.find? directory).getD (0, 0)) (filesUnder directory [entry])) := by
  by_cases hfile : entry.2.isFile = true
  · have hunder : filesUnder (parent entry.1) [entry] = [entry] := by
      simp [filesUnder, hfile]
    have hother : ∀ directory, directory ≠ parent entry.1 → filesUnder directory [entry] = [] := by
      intro directory hne
      simp [filesUnder, Ne.symm hne]
    simp only [duAdd, hfile, Bool.not_true, Bool.false_eq_true, if_false, checkedAdd]
    constructor
    · rintro ⟨groups', h⟩ directory
      by_cases hdir : directory = parent entry.1
      · subst hdir
        rw [hunder]
        split at h
        · cases h
        rename_i hcount
        split at h
        · cases h
        rename_i htotal
        split at hcount
        · split at htotal
          · rename_i hcount' htotal'
            exact ⟨hcount', by simpa [addFiles] using htotal'⟩
          · cases htotal
        · cases hcount
      · rw [hother directory hdir]
        exact hgroups directory
    · intro h
      have hfits := h (parent entry.1)
      rw [hunder] at hfits
      obtain ⟨hcount, htotal⟩ := hfits
      simp only [addFiles, List.length_singleton, List.map_singleton, List.sum_singleton]
        at hcount htotal
      rw [if_pos hcount]
      simp only [if_pos htotal]
      exact ⟨_, rfl⟩
  · have hunder : ∀ directory, filesUnder directory [entry] = [] := by
      intro directory
      simp [filesUnder, hfile]
    simp only [duAdd, hfile, Bool.not_false, if_true, hunder]
    exact iff_of_true ⟨groups, rfl⟩ hgroups

/-- **When the rollup goes through**: when every directory fits at the end. -/
theorem exists_duRollup_iff (entries : List (Bytes × Metadata)) {groups : DuGroups}
    (hgroups : ∀ directory, Fits ((groups.find? directory).getD (0, 0))) :
    (∃ groups', duRollup groups entries = .ok groups') ↔ ∀ directory,
      Fits (addFiles ((groups.find? directory).getD (0, 0)) (filesUnder directory entries)) := by
  induction entries generalizing groups with
  | nil => exact iff_of_true ⟨groups, rfl⟩ hgroups
  | cons entry entries ih =>
      have hstep : ∀ {groups₁}, duAdd groups entry = .ok groups₁ →
          ((∃ groups', duRollup groups₁ entries = .ok groups') ↔ ∀ directory, Fits (addFiles
            ((groups.find? directory).getD (0, 0)) (filesUnder directory (entry :: entries)))) := by
        intro groups₁ hadd
        have hfits := (exists_duAdd_iff entry hgroups).mp ⟨groups₁, hadd⟩
        have hgroups₁ : ∀ directory, Fits ((groups₁.find? directory).getD (0, 0)) :=
          fun directory => getD_duAdd hadd directory ▸ hfits directory
        have hih := ih hgroups₁
        simp only [getD_duAdd hadd, ← addFiles_append, ← filesUnder_cons] at hih
        exact hih
      constructor
      · rintro ⟨groups', h⟩
        obtain ⟨groups₁, hadd, hrest⟩ := bind_eq_ok.mp h
        exact (hstep hadd).mp ⟨groups', hrest⟩
      · intro h
        obtain ⟨groups₁, hadd⟩ := (exists_duAdd_iff entry hgroups).mpr fun directory =>
          Fits.of_append (filesUnder_cons directory entry entries ▸ h directory)
        obtain ⟨groups', hrest⟩ := (hstep hadd).mpr h
        exact ⟨groups', bind_eq_ok.mpr ⟨groups₁, hadd, hrest⟩⟩

theorem mapM_duRow {groups : List (Bytes × ℕ × ℕ)} {rows : List OwnedDuRow}
    (h : groups.mapM duRow = .ok rows) :
    rows = groups.map fun group => ⟨group.1, group.2.1, group.2.2⟩ := by
  induction groups generalizing rows with
  | nil =>
      cases h
      rfl
  | cons group groups ih =>
      rw [List.mapM_cons] at h
      obtain ⟨row, hrow, h⟩ := bind_eq_ok.mp h
      obtain ⟨rows', hrows, h⟩ := bind_eq_ok.mp h
      cases h
      rw [ih hrows, List.map_cons]
      congr 1
      unfold duRow at hrow
      split at hrow
      · rename_i directory hdirectory
        cases hrow
        rw [(eq_of_cstring hdirectory).1]
      · cases hrow

theorem mapM_duRow_eq {groups : List (Bytes × ℕ × ℕ)} (h : ∀ group ∈ groups, 0 ∉ group.1) :
    groups.mapM duRow = .ok (groups.map fun group => ⟨group.1, group.2.1, group.2.2⟩) := by
  induction groups with
  | nil => rfl
  | cons group groups ih =>
      rw [List.mapM_cons, ih fun g hg => h g (List.mem_cons_of_mem _ hg), duRow,
        cstring_eq (h group List.mem_cons_self)]
      rfl

/-- The groups have rows when their directories are C strings. -/
theorem exists_mapM_duRow_iff {groups : List (Bytes × ℕ × ℕ)} :
    (∃ rows, groups.mapM duRow = .ok rows) ↔ ∀ group ∈ groups, 0 ∉ group.1 := by
  constructor
  · rintro ⟨rows, h⟩ group hgroup
    obtain ⟨row, hrow⟩ := ok_of_mapM h group hgroup
    unfold duRow at hrow
    split at hrow
    · rename_i hdirectory
      exact (eq_of_cstring hdirectory).2
    · cases hrow
  · exact fun h => ⟨_, mapM_duRow_eq h⟩

/-- **The directories of the rows** are the parents of the selected files. -/
theorem odTableDuOpen_directories {op : OdOperator} {target : Bytes} {rawOptions : OdListOptions}
    {entries : List (Bytes × Metadata)} {cursor : OdDuCursor} (htarget : cstr target = some target)
    {options : ListOptions} (hoptions : listOptions rawOptions = .ok options)
    (hentries : duEntries op target options = .ok entries)
    (h : odTableDuOpen op target rawOptions = .ok cursor) (directory : Bytes) :
    directory ∈ cursor.rows.map OwnedDuRow.directory ↔
      ∃ e ∈ entries, e.2.isFile = true ∧ parent e.1 = directory := by
  obtain ⟨target', htarget', h⟩ := bind_eq_ok.mp h
  cases htarget.symm.trans (requireCstr_eq_ok.mp htarget')
  obtain ⟨options', hoptions', h⟩ := bind_eq_ok.mp h
  cases hoptions.symm.trans (invalidInput_eq_ok.mp hoptions')
  obtain ⟨entries', hentries', h⟩ := bind_eq_ok.mp h
  cases hentries.symm.trans (orOpendalError_eq_ok.mp hentries')
  obtain ⟨groups, hgroups, h⟩ := bind_eq_ok.mp h
  obtain ⟨rows, hrows, h⟩ := bind_eq_ok.mp h
  cases h
  have hfind := find?_duRollup hgroups directory
  rw [SortedMap.find?_empty] at hfind
  -- The rows are the groups, and a group exists once a file has been added to it.
  have hmem : directory ∈ rows.map OwnedDuRow.directory ↔
      (groups.find? directory).isSome := by
    rw [mapM_duRow hrows, List.map_map, List.mem_map, Option.isSome_iff_exists]
    constructor
    · rintro ⟨⟨_, value⟩, hvalue, rfl⟩
      exact ⟨value, SortedMap.find?_eq_some_iff.mpr hvalue⟩
    · rintro ⟨value, hvalue⟩
      exact ⟨(directory, value), SortedMap.find?_eq_some_iff.mp hvalue, rfl⟩
  have hnonempty : filesUnder directory entries ≠ [] ↔
      ∃ e ∈ entries, e.2.isFile = true ∧ parent e.1 = directory := by
    rw [ne_eq, filesUnder, List.filter_eq_nil_iff]
    simp
  rw [hmem, hfind, ← hnonempty]
  split
  · simp_all
  · simp_all

/-! ## The rows of a scan -/

/-- A row of the scan as a row of a rollup. -/
def OwnedDuRow.row (r : OwnedDuRow) : Rollup.Row Bytes ℕ := ⟨r.directory, r.fileCount, r.totalSize⟩

/-- The files among the entries. -/
def listedFiles (entries : List (Bytes × Metadata)) : List (Bytes × Metadata) :=
  entries.filter fun e => e.2.isFile

/-- The content length of an entry. -/
def entrySize (entry : Bytes × Metadata) : ℕ := entry.2.contentLength.val

theorem addFiles_zero (files : List (Bytes × Metadata)) :
    addFiles (0, 0) files = (files.length, (files.map entrySize).sum) := by
  rw [addFiles, Nat.zero_add, Nat.zero_add]
  rfl

/-- The rows sum up the files among the entries by their parents. -/
def SumsUp (entries : List (Bytes × Metadata)) (rows : List OwnedDuRow) : Prop :=
  Rollup.IsRollup (fun e => parent e.1) entrySize (listedFiles entries)
    (rows.map OwnedDuRow.row)

theorem group_listedFiles (entries : List (Bytes × Metadata)) (directory : Bytes) :
    Rollup.group (fun e => parent e.1) (listedFiles entries) directory =
      filesUnder directory entries := by
  rw [Rollup.group, listedFiles, List.filter_filter, filesUnder]
  refine List.filter_congr fun e _ => ?_
  rw [Bool.eq_iff_iff]
  simp [and_comm]

/-- A directory has a group once a file has been added to it. -/
theorem mem_duRollup_iff {entries : List (Bytes × Metadata)} {groups : DuGroups}
    (h : duRollup ∅ entries = .ok groups) {directory : Bytes} {value : ℕ × ℕ} :
    (directory, value) ∈ groups.entries ↔
      filesUnder directory entries ≠ [] ∧
        value = addFiles (0, 0) (filesUnder directory entries) := by
  rw [← SortedMap.find?_eq_some_iff, find?_duRollup h, SortedMap.find?_empty]
  split
  · rename_i hnone
    simp [hnone]
  · rename_i hsome
    simp [hsome, eq_comm]

/-- **The rollup sums up** the files among the entries. -/
theorem sumsUp_of_duRollup {entries : List (Bytes × Metadata)} {groups : DuGroups}
    (h : duRollup ∅ entries = .ok groups) :
    SumsUp entries (groups.entries.map fun group => ⟨group.1, group.2.1, group.2.2⟩) where
  increasing := by
    rw [List.map_map]
    exact List.pairwise_map.mpr groups.sorted
  keys directory := by
    have hfiles : filesUnder directory entries ≠ [] ↔
        ∃ e ∈ listedFiles entries, parent e.1 = directory := by
      rw [← group_listedFiles, Rollup.group, ne_eq, List.filter_eq_nil_iff]
      simp
    rw [← hfiles, List.map_map, List.map_map, List.mem_map]
    constructor
    · rintro ⟨⟨_, value⟩, hmem, rfl⟩
      exact ((mem_duRollup_iff h).mp hmem).1
    · intro hne
      exact ⟨(directory, _), (mem_duRollup_iff h).mpr ⟨hne, rfl⟩, rfl⟩
  count row hrow := by
    rw [List.map_map, List.mem_map] at hrow
    obtain ⟨⟨directory, value⟩, hmem, rfl⟩ := hrow
    obtain ⟨-, rfl⟩ := (mem_duRollup_iff h).mp hmem
    show (addFiles (0, 0) (filesUnder directory entries)).1 = (Rollup.group _ _ directory).length
    rw [group_listedFiles, addFiles_zero]
  total row hrow := by
    rw [List.map_map, List.mem_map] at hrow
    obtain ⟨⟨directory, value⟩, hmem, rfl⟩ := hrow
    obtain ⟨-, rfl⟩ := (mem_duRollup_iff h).mp hmem
    show (addFiles (0, 0) (filesUnder directory entries)).2 =
      ((Rollup.group _ _ directory).map entrySize).sum
    rw [group_listedFiles, addFiles_zero]

/-- Reading an opened cursor. -/
theorem drains_du (rows : List OwnedDuRow) (current : Option OwnedDuRow) :
    Cursor.Drains odDuCursorNext ⟨rows, current⟩ rows (.ok ()) := by
  induction rows generalizing current with
  | nil => exact .done rfl
  | cons row rows ih => exact .row rfl (ih (some row))

/-- No group of the empty map exceeds a `u64`. -/
theorem fits_empty (directory : Bytes) :
    Fits (((∅ : DuGroups).find? directory).getD (0, 0)) := by
  rw [SortedMap.find?_empty]
  exact ⟨by decide, by decide⟩

section Scan

variable {op : OdOperator} {target target' : Bytes} {rawOptions : OdListOptions}
  {options : ListOptions} {entries : List (Bytes × Metadata)}

/-- A scan is the rollup of the entries that reach it. -/
theorem odTableDuOpen_eq (htarget : cstr target = some target')
    (hoptions : listOptions rawOptions = .ok options)
    (hentries : duEntries op target' options = .ok entries) (hnul : ∀ e ∈ entries, 0 ∉ e.1) :
    odTableDuOpen op target rawOptions = (duRollup ∅ entries).map fun groups =>
      ⟨groups.entries.map fun group => ⟨group.1, group.2.1, group.2.2⟩, none⟩ := by
  simp only [odTableDuOpen, requireCstr_eq_ok.mpr htarget, invalidInput_eq_ok.mpr hoptions,
    orOpendalError_eq_ok.mpr hentries, ok_bind]
  cases hrollup : duRollup ∅ entries with
  | error err => rfl
  | ok groups =>
      -- A directory is part of a path, so it is a C string, too.
      have hdirs : ∀ group ∈ groups.entries, 0 ∉ group.1 := by
        rintro ⟨directory, value⟩ hmem h0
        obtain ⟨hne, -⟩ := (mem_duRollup_iff hrollup).mp hmem
        obtain ⟨e, he⟩ := List.exists_mem_of_ne_nil _ hne
        obtain ⟨he, hunder⟩ := List.mem_filter.mp he
        simp only [Bool.and_eq_true, beq_iff_eq] at hunder
        exact hnul e he (mem_of_mem_parent (hunder.2 ▸ h0))
      rw [ok_bind, mapM_duRow_eq hdirs]
      rfl

/-- **When a scan opens**: when the files of every directory fit, and every directory with
files is a C string. -/
theorem exists_odTableDuOpen_iff (htarget : cstr target = some target')
    (hoptions : listOptions rawOptions = .ok options)
    (hentries : duEntries op target' options = .ok entries) :
    (∃ cursor, odTableDuOpen op target rawOptions = .ok cursor) ↔
      ∀ directory, Fits (addFiles (0, 0) (filesUnder directory entries)) ∧
        (filesUnder directory entries ≠ [] → 0 ∉ directory) := by
  have hfits := exists_duRollup_iff entries fits_empty
  simp only [SortedMap.find?_empty, Option.getD_none] at hfits
  have hdirs : ∀ groups, duRollup ∅ entries = .ok groups →
      ((∀ group ∈ groups.entries, 0 ∉ group.1) ↔
        ∀ directory, filesUnder directory entries ≠ [] → 0 ∉ directory) := by
    intro groups hrollup
    constructor
    · intro h directory hne
      exact h (directory, _) ((mem_duRollup_iff hrollup).mpr ⟨hne, rfl⟩)
    · rintro h ⟨directory, value⟩ hmem
      exact h directory ((mem_duRollup_iff hrollup).mp hmem).1
  simp only [odTableDuOpen, requireCstr_eq_ok.mpr htarget, invalidInput_eq_ok.mpr hoptions,
    orOpendalError_eq_ok.mpr hentries, ok_bind, forall_and, ← hfits]
  constructor
  · rintro ⟨cursor, h⟩
    obtain ⟨groups, hrollup, h⟩ := bind_eq_ok.mp h
    obtain ⟨rows, hrows, -⟩ := bind_eq_ok.mp h
    exact ⟨⟨groups, hrollup⟩, (hdirs groups hrollup).mp (exists_mapM_duRow_iff.mp ⟨rows, hrows⟩)⟩
  · rintro ⟨⟨groups, hrollup⟩, hnul⟩
    obtain ⟨rows, hrows⟩ := exists_mapM_duRow_iff.mpr ((hdirs groups hrollup).mpr hnul)
    exact ⟨_, bind_eq_ok.mpr ⟨groups, hrollup, bind_eq_ok.mpr ⟨rows, hrows, rfl⟩⟩⟩

/-- **The rows of a scan sum up the selected files.**  The scan fails exactly when the
files of some directory exceed a `u64` in number or in size.  Otherwise its rows sum up
the files in whatever order they are listed, and none is lost or counted twice. -/
theorem odTableDuOpen_rollup (htarget : cstr target = some target')
    (hoptions : listOptions rawOptions = .ok options)
    (hentries : duEntries op target' options = .ok entries) (hnul : ∀ e ∈ entries, 0 ∉ e.1) :
    ((∃ err, odTableDuOpen op target rawOptions = .error err) ↔ ∃ directory,
      2 ^ 64 ≤ (filesUnder directory entries).length ∨
        2 ^ 64 ≤ ((filesUnder directory entries).map entrySize).sum) ∧
      ∀ cursor, odTableDuOpen op target rawOptions = .ok cursor →
        ∃ rows, Cursor.Drains odDuCursorNext cursor rows (.ok ()) ∧
          ∀ entries', entries'.Perm entries → SumsUp entries' rows ∧
            (rows.map OwnedDuRow.fileCount).sum = (listedFiles entries').length ∧
            (rows.map OwnedDuRow.totalSize).sum = ((listedFiles entries').map entrySize).sum := by
  rw [odTableDuOpen_eq htarget hoptions hentries hnul]
  have hfits := exists_duRollup_iff entries fits_empty
  constructor
  · have hexceeds : (∃ directory, 2 ^ 64 ≤ (filesUnder directory entries).length ∨
        2 ^ 64 ≤ ((filesUnder directory entries).map entrySize).sum) ↔
          ¬ ∃ groups, duRollup ∅ entries = .ok groups := by
      rw [hfits, not_forall]
      refine exists_congr fun directory => ?_
      rw [SortedMap.find?_empty, Option.getD_none, addFiles_zero, Fits, not_and_or, not_lt, not_lt]
    rw [hexceeds]
    cases duRollup ∅ entries with
    | error err => simp [Except.map]
    | ok groups => simp [Except.map]
  · intro cursor hcursor
    cases hrollup : duRollup ∅ entries with
    | error err =>
        rw [hrollup] at hcursor
        cases hcursor
    | ok groups =>
        rw [hrollup] at hcursor
        cases hcursor
        refine ⟨_, drains_du _ none, fun entries' hperm => ?_⟩
        have hsums : SumsUp entries' _ :=
          (sumsUp_of_duRollup hrollup).of_perm (hperm.symm.filter _)
        refine ⟨hsums, ?_, ?_⟩
        · have hcount := hsums.sum_count
          rw [List.map_map] at hcount
          exact hcount
        · have htotal := hsums.sum_total
          rw [List.map_map] at htotal
          exact htotal

end Scan

/-- Three files, two of them in one directory. -/
def duFiles : List Entry :=
  [fileEntry (ascii "d/b") (by decide) 4, fileEntry (ascii "c") (by decide) 1,
    fileEntry (ascii "d/c") (by decide) 3]

/-- The disk usage of a glob over three files. -/
theorem odTableDuOpen_rollup_glob :
    ∃ cursor, odTableDuOpen (storeOperator .all duFiles) (ascii "**") (.plain false) = .ok cursor ∧
      cursor.rows = [⟨[], 1, 1⟩, ⟨ascii "d", 2, 7⟩] ∧
      SumsUp (duFiles.map Entry.intoParts) cursor.rows := by
  have hopen : odTableDuOpen (storeOperator .all duFiles) (ascii "**") (.plain false) =
      .ok ⟨[⟨[], 1, 1⟩, ⟨ascii "d", 2, 7⟩], none⟩ := by decide +kernel
  have hentries : duEntries (storeOperator .all duFiles) (ascii "**") (.plain false) =
      .ok (duFiles.map Entry.intoParts) := by decide +kernel
  have htarget : cstr (ascii "**") = some (ascii "**") := by decide
  obtain ⟨rows, hdrains, hrows⟩ :=
    (odTableDuOpen_rollup htarget (by rfl) hentries (by decide)).2 _ hopen
  obtain ⟨rfl, -⟩ := hdrains.unique (drains_du _ _)
  exact ⟨_, hopen, rfl, (hrows _ (List.Perm.refl _)).1⟩

end DuckdbOpendal
