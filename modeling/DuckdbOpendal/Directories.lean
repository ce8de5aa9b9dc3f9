import DuckdbOpendal.GlobFrontEnds
import DuckdbOpendal.OperatorConfig
import DuckdbOpendal.ReadHandle

/-!
# Directories of an object store

An object store has keys and no directories; a name is one when a key lies below it.
OpenDAL's `stat` finds such a name only with its slash, so `od_dir_exists` probes the
listing behind a `stat` that finds nothing, while `od_table_du_open` and
`od_table_copy_open` give up there.

## Main Definitions

* `HasBelow` — a key lies below the name
* `odDirExists`, `directoryExists` — the test for a directory
* `FlatStore`, `StatsPrefixes` — what OpenDAL answers for a store with these keys

## Main Results

* `odDirExists_iff_hasBelow` — when the test finds a directory
* `directoryTargets_iff` — when both spellings of a directory are one target
-/

namespace DuckdbOpendal

/-- Some key lies below the name. -/
def HasBelow (keys : Set Bytes) (name : Bytes) : Prop := ∃ key ∈ keys, name ++ [slash] <+: key

/-- The answer of the one-child list probe of `od_dir_exists`. -/
def probeAnswer : Except OpendalError (List (Except OpendalError Entry)) → Except OdError Bool
  | .ok (.ok _ :: _) => .ok true
  | .ok (.error error :: _) => .error (setOpendalError error)
  | .ok [] => .ok false
  | .error error =>
      if error.kind = .NotFound then .ok false else .error (setOpendalError error)

/-- `od_dir_exists`; 0 and 1 as `false` and `true`. -/
def odDirExists (op : OdOperator) (path : Bytes) : Except OdError Bool := do
  require op.scheme op.cap.stat (ascii "stat")
  let path ← requireCstr path "path is null or not UTF-8"
  match op.stat path none with
  | .ok metadata => return metadata.isDir
  | .error error =>
      if error.kind ≠ .NotFound then .error (setOpendalError error)
      else if op.cap.list = false then return false
      else
        let probed := if path ≠ [] ∧ path.getLast? ≠ some slash then path ++ [slash] else path
        probeAnswer (op.lister probed (.plain false))

/-- `DirectoryExists`; `operators` is what `OperatorFor` returns or throws. -/
def directoryExists (registry : Registry) (operators : ResolvedUrl → Except Bytes OdOperator)
    (directory : Bytes) : Except Bytes Bool :=
  match parseUrl registry directory with
  | none => .ok false
  | some u => do
      let op ← operators u
      orThrow (odDirExists op u.path) (ascii "opendal: dir_exists: " ++ directory) false

/-! ## The test for a directory -/

/-- **A store of flat keys** as OpenDAL answers for it: `stat` finds a key, as a file, and
nothing else, and a listing below a name yields something when a key lies there. -/
structure FlatStore (op : OdOperator) (keys : Set Bytes) : Prop where
  cap_stat : op.cap.stat = true
  cap_list : op.cap.list = true
  stat_key : ∀ path ∈ keys, path.getLast? ≠ some slash →
    ∃ metadata, op.stat path none = .ok metadata ∧ metadata.mode = .FILE
  stat_other : ∀ path ∉ keys, path ≠ [] → path.getLast? ≠ some slash →
    ∃ error, op.stat path none = .error error ∧ error.kind = .NotFound
  lister_iff : ∀ path, path ≠ [] → path.getLast? ≠ some slash →
    ((∃ entry rest, op.lister (path ++ [slash]) (.plain false) = .ok (.ok entry :: rest)) ↔
      HasBelow keys path)

theorem probeAnswer_eq_true_iff (result : Except OpendalError (List (Except OpendalError Entry))) :
    probeAnswer result = .ok true ↔ ∃ entry rest, result = .ok (.ok entry :: rest) := by
  cases result with
  | error error =>
      refine iff_of_false (fun h => ?_) fun ⟨_, _, h⟩ => by cases h
      rw [probeAnswer] at h
      split at h <;> cases h
  | ok items =>
      cases items with
      | nil => exact iff_of_false (fun h => by cases h) fun ⟨_, _, h⟩ => by cases h
      | cons item rest =>
          cases item with
          | error error =>
              exact iff_of_false (fun h => by cases h) fun ⟨_, _, h⟩ => by cases h
          | ok entry => exact iff_of_true rfl ⟨entry, rest, rfl⟩

section DirExists

variable {op : OdOperator} {keys : Set Bytes} (hstore : FlatStore op keys) {path path' : Bytes}
  (hpath : cstr path = some path') (hne : path' ≠ []) (hslash : path'.getLast? ≠ some slash)
include hstore hpath hne hslash

/-- **What the test finds**: a directory that is not a key, too. -/
theorem odDirExists_eq_true_iff :
    odDirExists op path = .ok true ↔ path' ∉ keys ∧ HasBelow keys path' := by
  rw [← hstore.lister_iff path' hne hslash]
  unfold odDirExists
  rw [require, if_pos hstore.cap_stat, ok_bind, requireCstr_eq_ok.mpr hpath, ok_bind]
  by_cases hkey : path' ∈ keys
  · -- A file ends the test.
    obtain ⟨metadata, hstat, hmode⟩ := hstore.stat_key path' hkey hslash
    have hdir : metadata.isDir = false := by rw [Metadata.isDir, hmode]; rfl
    simp only [hstat, hdir]
    exact iff_of_false (fun h => by cases h) fun h => h.1 hkey
  · obtain ⟨error, hstat, hkind⟩ := hstore.stat_other path' hkey hne hslash
    simp only [hstat, hkind, hstore.cap_list, hne, hslash, ne_eq, not_true_eq_false, if_false,
      not_false_eq_true, and_self, if_true, Bool.true_eq_false, hkey, true_and]
    exact probeAnswer_eq_true_iff _

/-- **When the test answers for the directory**: unless the name is a key and has keys below
it. -/
theorem odDirExists_iff_hasBelow :
    (odDirExists op path = .ok true ↔ HasBelow keys path') ↔
      ¬ (path' ∈ keys ∧ HasBelow keys path') := by
  rw [odDirExists_eq_true_iff hstore hpath hne hslash]
  by_cases hkey : path' ∈ keys
  · by_cases hbelow : HasBelow keys path' <;> simp [hkey, hbelow]
  · simp [hkey]

end DirExists

/-- `DirectoryExists` says what the test says. -/
theorem directoryExists_eq_true_iff {registry : Registry}
    {operators : ResolvedUrl → Except Bytes OdOperator} {directory : Bytes} {u : ResolvedUrl}
    {op : OdOperator} (hurl : parseUrl registry directory = some u) (hop : operators u = .ok op) :
    directoryExists registry operators directory = .ok true ↔ odDirExists op u.path = .ok true := by
  simp only [directoryExists, hurl, hop, ok_bind]
  cases odDirExists op u.path with
  | ok found => simp [orThrow]
  | error err =>
      refine iff_of_false (fun h => ?_) fun h => by cases h
      simp only [orThrow, throwIfError] at h
      split at h <;> cases h

/-- An object store over the given objects: a listing yields the objects its text is a
prefix of, and a prefix with its slash is a directory. -/
def objectOperator (objects : List Entry) : OdOperator where
  handle := 1
  scheme := ascii "s3"
  cap := .all
  lister root _ := .ok ((objects.filter fun e => root <+: e.path).map .ok)
  stat path _ :=
    match objects.find? fun e => e.path = path with
    | some e => .ok e.metadata
    | none =>
        if path.getLast? = some slash ∧ objects.any fun e => path <+: e.path then
          .ok (.ofLength .DIR 0)
        else .error ⟨.NotFound, ascii "not found"⟩

/-- The keys of some objects. -/
def objectKeys (objects : List Entry) : Set Bytes := {key | ∃ e ∈ objects, e.path = key}

/-- **The operator over a list of objects** answers as a store of their keys. -/
theorem objectOperator_flatStore {objects : List Entry}
    (hobjects : ∀ e ∈ objects, e.metadata.mode = .FILE) :
    FlatStore (objectOperator objects) (objectKeys objects) where
  cap_stat := rfl
  cap_list := rfl
  stat_key := by
    rintro path ⟨e, he, rfl⟩ -
    cases hfind : objects.find? fun e' => e'.path = e.path with
    | none => exact absurd (List.find?_eq_none.mp hfind e he) (by simp)
    | some e' =>
        simp only [objectOperator, hfind]
        exact ⟨_, rfl, hobjects e' (List.mem_of_find?_eq_some hfind)⟩
  stat_other := by
    intro path hpath _ hslash
    have hfind : (objects.find? fun e => e.path = path) = none := by
      refine List.find?_eq_none.mpr fun e he heq => hpath ⟨e, he, by simpa using heq⟩
    simp only [objectOperator, hfind, hslash, false_and, if_false]
    exact ⟨_, rfl, rfl⟩
  lister_iff := by
    intro path _ _
    simp only [objectOperator, Except.ok.injEq]
    constructor
    · rintro ⟨entry, rest, hlist⟩
      have hentry : Except.ok entry ∈
          (objects.filter fun e => path ++ [slash] <+: e.path).map
            (Except.ok (ε := OpendalError)) := by
        rw [hlist]
        exact List.mem_cons_self
      obtain ⟨e, he, heq⟩ := List.mem_map.mp hentry
      obtain ⟨he, hbelow⟩ := List.mem_filter.mp he
      exact ⟨e.path, ⟨e, he, rfl⟩, by simpa using hbelow⟩
    · rintro ⟨_, ⟨e, he, rfl⟩, hbelow⟩
      cases hlist : objects.filter fun e => path ++ [slash] <+: e.path with
      | nil => exact absurd hbelow (by simpa using List.filter_eq_nil_iff.mp hlist e he)
      | cons entry rest => exact ⟨entry, rest.map .ok, rfl⟩

/-- The only key below `a` is `a/x`. -/
theorem odDirExists_prefix :
    odDirExists (objectOperator [fileEntry (ascii "a/x") (by decide) 3]) (ascii "a") =
      .ok true := by
  have hstore : FlatStore (objectOperator [fileEntry (ascii "a/x") (by decide) 3])
      (objectKeys [fileEntry (ascii "a/x") (by decide) 3]) :=
    objectOperator_flatStore fun e he => by rw [List.mem_singleton.mp he]; rfl
  have hpath : cstr (ascii "a") = some (ascii "a") := by decide
  have hbelow : HasBelow (objectKeys [fileEntry (ascii "a/x") (by decide) 3]) (ascii "a") :=
    ⟨ascii "a/x", ⟨_, List.mem_singleton_self _, rfl⟩, by decide⟩
  refine ((odDirExists_iff_hasBelow hstore hpath (by decide) (by decide)).mpr ?_).mpr hbelow
  rintro ⟨⟨e, he, hkey⟩, -⟩
  rw [List.mem_singleton.mp he] at hkey
  exact absurd hkey (by decide)

/-- The keys `a` and `a/x`. -/
def fileAndPrefix : List Entry :=
  [fileEntry (ascii "a") (by decide) 1, fileEntry (ascii "a/x") (by decide) 3]

/-- A key with a key below it is not found to be a directory. -/
theorem odDirExists_misses :
    FlatStore (objectOperator fileAndPrefix) (objectKeys fileAndPrefix) ∧
      HasBelow (objectKeys fileAndPrefix) (ascii "a") ∧
      odDirExists (objectOperator fileAndPrefix) (ascii "a") = .ok false := by
  refine ⟨objectOperator_flatStore fun e he => ?_, ?_, by decide⟩
  · rcases List.mem_pair.mp he with rfl | rfl <;> rfl
  · exact ⟨ascii "a/x", ⟨_, List.mem_cons_of_mem _ (List.mem_singleton_self _), rfl⟩, by decide⟩

/-! ## Two spellings of a directory -/

/-- A directory of the store: keys lie below it, and it is neither a key nor a pattern. -/
structure DirectoryName (keys : Set Bytes) (d : Bytes) : Prop where
  below : HasBelow keys d
  notKey : d ∉ keys
  plain : hasGlob d = false

/-- **How OpenDAL stats the directories of an object store**: it finds nothing without the
slash, and with it a directory. -/
structure StatsPrefixes (op : OdOperator) (keys : Set Bytes) : Prop where
  bare : ∀ d, DirectoryName keys d → ∀ version,
    ∃ error, op.stat d version = .error error ∧ error.kind = .NotFound
  slashed : ∀ d, DirectoryName keys d → ∃ metadata, op.stat (d ++ [slash]) none = .ok metadata
  directory : ∀ d, DirectoryName keys d → ∀ version metadata,
    op.stat (d ++ [slash]) version = .ok metadata → metadata.mode = .DIR

/-- Two calls are alike: one succeeds when the other does, and with the same. -/
def Alike {ε α β : Type} (result : α → β) (x y : Except ε α) : Prop :=
  ((∃ a, x = .ok a) ↔ ∃ a, y = .ok a) ∧ ∀ a b, x = .ok a → y = .ok b → result a = result b

/-- A call that fails is like the calls that fail. -/
theorem alike_iff_of_fails {ε α β : Type} (result : α → β) {x y : Except ε α}
    (hx : ∀ a, x ≠ .ok a) : Alike result x y ↔ ¬ ∃ a, y = .ok a := by
  constructor
  · rintro ⟨hiff, -⟩ hy
    obtain ⟨a, ha⟩ := hiff.mpr hy
    exact hx a ha
  · intro hy
    exact ⟨iff_of_false (fun ⟨a, ha⟩ => hx a ha) hy, fun a _ ha => absurd ha (hx a)⟩

/-- The disk usage of the directory can be told: its options are valid, it can be listed,
and the files below fit. -/
def DuServes (op : OdOperator) (d : Bytes) (rawOptions : OdListOptions) : Prop :=
  ∃ options entries, listOptions rawOptions = .ok options ∧
    op.listOptions (d ++ [slash]) { options with recursive := true } = .ok entries ∧
    ∀ directory, Fits (addFiles (0, 0) (filesUnder directory (entries.map Entry.intoParts))) ∧
      (filesUnder directory (entries.map Entry.intoParts) ≠ [] → 0 ∉ directory)

/-- The directory can be copied: the options and the capabilities admit it, and it can be
listed. -/
def CopyServes (op : OdOperator) (d : Bytes) (destinationOp : OdOperator) (destination : Bytes)
    (rawOptions : OdCopyOptions) : Prop :=
  (∃ destination', cstr destination = some destination') ∧
    ∃ options entries, copyOptions rawOptions = .ok options ∧
      copyChecks op destinationOp options = .ok () ∧ options.sourceContentLengthHint = none ∧
      options.sourceVersion = none ∧ op.listOptions (d ++ [slash]) (.plain true) = .ok entries

section Targets

variable {op : OdOperator} {keys : Set Bytes} (hstore : StatsPrefixes op keys) {d : Bytes}
  (hname : DirectoryName keys d) (hd : cstr d = some d)

theorem hasGlob_append_slash {d : Bytes} (h : hasGlob d = false) :
    hasGlob (d ++ [slash]) = false := by
  rw [hasGlob, List.any_append, ← hasGlob, h]
  decide

theorem cstr_append_slash {d : Bytes} (h : cstr d = some d) :
    cstr (d ++ [slash]) = some (d ++ [slash]) := by
  have hd := isCString_of_cstr h
  exact cstr_concat_slash hd.2 hd.1

include hstore hname in
theorem duEntries_bare (options : ListOptions) (entries : List (Bytes × Metadata)) :
    duEntries op d options ≠ .ok entries := by
  intro h
  obtain ⟨error, hstat, -⟩ := hstore.bare d hname none
  rw [duEntries, if_neg (by simp [hname.plain]), hstat] at h
  cases h

include hstore hname hd in
/-- Without the slash there is no disk usage. -/
theorem odTableDuOpen_bare (rawOptions : OdListOptions) (cursor : OdDuCursor) :
    odTableDuOpen op d rawOptions ≠ .ok cursor := by
  intro h
  obtain ⟨target, htarget, h⟩ := bind_eq_ok.mp h
  obtain rfl := Option.some.inj (hd.symm.trans (requireCstr_eq_ok.mp htarget))
  obtain ⟨options, -, h⟩ := bind_eq_ok.mp h
  obtain ⟨entries, hentries, -⟩ := bind_eq_ok.mp h
  exact duEntries_bare hstore hname options entries (orOpendalError_eq_ok.mp hentries)

include hname in
/-- With the slash the entries are those below the directory. -/
theorem duEntries_slashed (hstore : StatsPrefixes op keys) (options : ListOptions) :
    duEntries op (d ++ [slash]) options =
      (op.listOptions (d ++ [slash]) { options with recursive := true }).map
        (List.map Entry.intoParts) := by
  obtain ⟨metadata, hstat⟩ := hstore.slashed d hname
  have hfile : metadata.isFile = false := by
    rw [Metadata.isFile, hstore.directory d hname none metadata hstat]
    rfl
  have hglob := hasGlob_append_slash hname.plain
  simp only [duEntries, hglob, hstat, hfile, Bool.false_eq_true, if_false, List.getLast?_concat,
    if_true, ok_bind]
  rfl

include hstore hname hd in
/-- **With the slash there is**, when the directory can be served. -/
theorem exists_odTableDuOpen_slashed_iff (rawOptions : OdListOptions) :
    (∃ cursor, odTableDuOpen op (d ++ [slash]) rawOptions = .ok cursor) ↔
      DuServes op d rawOptions := by
  have htarget := cstr_append_slash hd
  constructor
  · rintro ⟨cursor, h⟩
    obtain ⟨target, htarget', hopen⟩ := bind_eq_ok.mp h
    obtain rfl := Option.some.inj (htarget.symm.trans (requireCstr_eq_ok.mp htarget'))
    obtain ⟨options, hoptions, hopen⟩ := bind_eq_ok.mp hopen
    have hoptions := invalidInput_eq_ok.mp hoptions
    obtain ⟨parts, hparts, -⟩ := bind_eq_ok.mp hopen
    have hparts := orOpendalError_eq_ok.mp hparts
    have hlist := hparts
    rw [duEntries_slashed hname hstore] at hlist
    cases hentries : op.listOptions (d ++ [slash]) { options with recursive := true } with
    | error error =>
        rw [hentries] at hlist
        cases hlist
    | ok entries =>
        rw [hentries] at hlist
        cases hlist
        exact ⟨options, entries, hoptions, hentries,
          (exists_odTableDuOpen_iff htarget hoptions hparts).mp ⟨cursor, h⟩⟩
  · rintro ⟨options, entries, hoptions, hentries, hfits⟩
    have hparts : duEntries op (d ++ [slash]) options = .ok (entries.map Entry.intoParts) := by
      rw [duEntries_slashed hname hstore, hentries]
      rfl
    exact (exists_odTableDuOpen_iff htarget hoptions hparts).mpr hfits

theorem refuseSingleFileOptions_eq_ok_iff {options : CopyOptions} :
    refuseSingleFileOptions options = .ok () ↔
      options.sourceContentLengthHint = none ∧ options.sourceVersion = none := by
  rw [refuseSingleFileOptions]
  cases options.sourceContentLengthHint <;> cases options.sourceVersion <;> simp

include hstore hname in
theorem copyPlan_bare (destination : Bytes) (options : CopyOptions) (plan : List PlannedCopy) :
    copyPlan op d destination options ≠ .ok plan := by
  intro h
  obtain ⟨error, hstat, -⟩ := hstore.bare d hname options.sourceVersion
  rw [copyPlan, if_neg (by simp [hname.plain]), hstat] at h
  cases h

include hstore hname hd in
/-- Without the slash there is no copy. -/
theorem odTableCopyOpen_bare (destinationOp : OdOperator) (destination : Bytes)
    (rawOptions : OdCopyOptions) (cursor : OdCopyCursor) :
    odTableCopyOpen op d destinationOp destination rawOptions ≠ .ok cursor := by
  intro h
  obtain ⟨source, destination', options, plan, hsource, -, -, hplan, -⟩ := odTableCopyOpen_eq_ok h
  obtain rfl := Option.some.inj (hd.symm.trans hsource)
  exact copyPlan_bare hstore hname destination' options plan hplan

include hname in
/-- With the slash the plan is that of the files below the directory. -/
theorem exists_copyPlan_slashed_iff (hstore : StatsPrefixes op keys) (destination : Bytes)
    (options : CopyOptions) :
    (∃ plan, copyPlan op (d ++ [slash]) destination options = .ok plan) ↔
      options.sourceContentLengthHint = none ∧ options.sourceVersion = none ∧
        ∃ entries, op.listOptions (d ++ [slash]) (.plain true) = .ok entries := by
  have hglob := hasGlob_append_slash hname.plain
  have hfile : ∀ version metadata, op.stat (d ++ [slash]) version = .ok metadata →
      metadata.isFile = false := by
    intro version metadata hstat
    rw [Metadata.isFile, hstore.directory d hname version metadata hstat]
    rfl
  rw [copyPlan, if_neg (by simp [hglob])]
  constructor
  · rintro ⟨plan, h⟩
    obtain ⟨metadata, hstat, h⟩ := bind_eq_ok.mp h
    rw [if_neg (by simp [hfile _ _ (orOpendalError_eq_ok.mp hstat)])] at h
    obtain ⟨_, hrefuse, h⟩ := bind_eq_ok.mp h
    obtain ⟨entries, hentries, -⟩ := bind_eq_ok.mp h
    rw [if_pos List.getLast?_concat] at hentries
    obtain ⟨hhint, hversion⟩ := refuseSingleFileOptions_eq_ok_iff.mp hrefuse
    exact ⟨hhint, hversion, entries, orOpendalError_eq_ok.mp hentries⟩
  · rintro ⟨hhint, hversion, entries, hentries⟩
    obtain ⟨metadata, hstat⟩ := hstore.slashed d hname
    have hrefuse := refuseSingleFileOptions_eq_ok_iff.mpr ⟨hhint, hversion⟩
    refine ⟨planEntries (d ++ [slash]) destination (fun _ => true) entries, ?_⟩
    simp only [hversion, orOpendalError_eq_ok.mpr hstat, ok_bind, hfile _ _ hstat,
      Bool.false_eq_true, if_false, hrefuse, List.getLast?_concat, if_true,
      orOpendalError_eq_ok.mpr hentries]
    rfl

include hstore hname hd in
/-- **With the slash there is one**, when the directory can be served. -/
theorem exists_odTableCopyOpen_slashed_iff (destinationOp : OdOperator) (destination : Bytes)
    (rawOptions : OdCopyOptions) :
    (∃ cursor, odTableCopyOpen op (d ++ [slash]) destinationOp destination rawOptions =
        .ok cursor) ↔
      CopyServes op d destinationOp destination rawOptions := by
  have htarget := cstr_append_slash hd
  constructor
  · rintro ⟨cursor, h⟩
    obtain ⟨source, hsource, h⟩ := bind_eq_ok.mp h
    obtain rfl := Option.some.inj (htarget.symm.trans (requireCstr_eq_ok.mp hsource))
    obtain ⟨destination', hdestination, h⟩ := bind_eq_ok.mp h
    obtain ⟨options, hoptions, h⟩ := bind_eq_ok.mp h
    obtain ⟨_, hchecks, h⟩ := bind_eq_ok.mp h
    obtain ⟨plan, hplan, -⟩ := bind_eq_ok.mp h
    obtain ⟨hhint, hversion, entries, hentries⟩ :=
      (exists_copyPlan_slashed_iff hname hstore destination' options).mp ⟨plan, hplan⟩
    exact ⟨⟨destination', requireCstr_eq_ok.mp hdestination⟩, options, entries,
      invalidInput_eq_ok.mp hoptions, hchecks, hhint, hversion, hentries⟩
  · rintro ⟨⟨destination', hdestination⟩, options, entries, hoptions, hchecks, hhint, hversion,
      hentries⟩
    obtain ⟨plan, hplan⟩ := (exists_copyPlan_slashed_iff hname hstore destination' options).mpr
      ⟨hhint, hversion, entries, hentries⟩
    exact ⟨_, bind_eq_ok.mpr ⟨_, requireCstr_eq_ok.mpr htarget,
      bind_eq_ok.mpr ⟨_, requireCstr_eq_ok.mpr hdestination,
        bind_eq_ok.mpr ⟨_, invalidInput_eq_ok.mpr hoptions,
          bind_eq_ok.mpr ⟨_, hchecks, bind_eq_ok.mpr ⟨_, hplan, rfl⟩⟩⟩⟩⟩⟩

include hstore hname hd in
/-- **When both spellings of a directory are one target**: when the directory cannot be
served at all.  Where it can, the spelling with the slash succeeds and the other fails. -/
theorem directoryTargets_iff (listOptions : OdListOptions) (destinationOp : OdOperator)
    (destination : Bytes) (copyOptions : OdCopyOptions) :
    (Alike OdDuCursor.rows (odTableDuOpen op d listOptions)
        (odTableDuOpen op (d ++ [slash]) listOptions) ↔ ¬ DuServes op d listOptions) ∧
      (Alike OdCopyCursor.plan (odTableCopyOpen op d destinationOp destination copyOptions)
          (odTableCopyOpen op (d ++ [slash]) destinationOp destination copyOptions) ↔
        ¬ CopyServes op d destinationOp destination copyOptions) := by
  constructor
  · rw [← exists_odTableDuOpen_slashed_iff hstore hname hd]
    exact alike_iff_of_fails _ (odTableDuOpen_bare hstore hname hd listOptions)
  · rw [← exists_odTableCopyOpen_slashed_iff hstore hname hd]
    exact alike_iff_of_fails _
      (odTableCopyOpen_bare hstore hname hd destinationOp destination copyOptions)

end Targets

/-- A normalised path has no directory that ends in a slash. -/
theorem getLast?_ne_of_below {d key : Bytes} (hkey : NormalizedPath key)
    (hbelow : d ++ [slash] <+: key) : d.getLast? ≠ some slash := by
  intro hlast
  obtain ⟨d', rfl⟩ := List.getLast?_eq_some_iff.mp hlast
  obtain ⟨rest, rfl⟩ := hbelow
  refine hkey ?_
  rw [List.append_assoc, List.append_assoc, List.singleton_append, List.splitOn_append_cons_self,
    List.singleton_append, ← List.nil_append (slash :: rest), List.splitOn_append_cons_self,
    List.splitOn_nil]
  exact List.mem_append_right _ List.mem_cons_self

/-- **The operator over a list of objects** stats its directories as an object store. -/
theorem objectOperator_statsPrefixes {objects : List Entry}
    (hobjects : ∀ e ∈ objects, NormalizedPath e.path) :
    StatsPrefixes (objectOperator objects) (objectKeys objects) := by
  have hstat : ∀ d, DirectoryName (objectKeys objects) d → ∀ version,
      (objectOperator objects).stat (d ++ [slash]) version = .ok (.ofLength .DIR 0) := by
    rintro d ⟨⟨_, ⟨e, he, rfl⟩, hbelow⟩, -, -⟩ version
    have hfind : (objects.find? fun e => e.path = d ++ [slash]) = none :=
      List.find?_eq_none.mpr fun e' he' heq =>
        (hobjects e' he').not_concat_slash d (by simpa using heq)
    have hany : objects.any fun e => d ++ [slash] <+: e.path :=
      List.any_eq_true.mpr ⟨e, he, by simpa using hbelow⟩
    simp only [objectOperator, hfind, List.getLast?_concat, hany, and_self, if_true]
  constructor
  · rintro d ⟨⟨_, ⟨e, he, rfl⟩, hbelow⟩, hkey, -⟩ version
    have hfind : (objects.find? fun e => e.path = d) = none :=
      List.find?_eq_none.mpr fun e' he' heq => hkey ⟨e', he', by simpa using heq⟩
    have hlast := getLast?_ne_of_below (hobjects e he) hbelow
    simp only [objectOperator, hfind, hlast, false_and, if_false]
    exact ⟨_, rfl, rfl⟩
  · intro d hd
    exact ⟨_, hstat d hd none⟩
  · intro d hd version metadata h
    cases (hstat d hd version).symm.trans h
    rfl

/-- An object store with the key `a/x`. -/
def underA : List Entry := [fileEntry (ascii "a/x") (by decide) 3]

theorem directoryName_underA : DirectoryName (objectKeys underA) (ascii "a") where
  below := ⟨ascii "a/x", ⟨_, List.mem_singleton_self _, rfl⟩, by decide⟩
  notKey := by
    rintro ⟨e, he, hkey⟩
    rw [List.mem_singleton.mp he] at hkey
    exact absurd hkey (by decide)
  plain := by decide

theorem statsPrefixes_underA : StatsPrefixes (objectOperator underA) (objectKeys underA) :=
  objectOperator_statsPrefixes fun e he => by
    rw [List.mem_singleton.mp he]
    decide

/-- A length hint is refused for the directory of `a/x` in both spellings. -/
theorem directoryTargets_hint :
    Alike OdCopyCursor.plan
      (odTableCopyOpen (objectOperator underA) (ascii "a") (objectOperator underA) (ascii "b")
        { OdCopyOptions.unset with hasSourceContentLengthHint := true })
      (odTableCopyOpen (objectOperator underA) (ascii "a/") (objectOperator underA) (ascii "b")
        { OdCopyOptions.unset with hasSourceContentLengthHint := true }) := by
  have hd : cstr (ascii "a") = some (ascii "a") := by decide
  refine (directoryTargets_iff statsPrefixes_underA directoryName_underA hd (.plain true)
    (objectOperator underA) (ascii "b")
    { OdCopyOptions.unset with hasSourceContentLengthHint := true }).2.mpr ?_
  rintro ⟨-, options, entries, hoptions, -, hhint, -⟩
  cases hoptions
  cases hhint

/-- The directory of `a/x` has a disk usage and a copy only with its slash. -/
theorem directoryTargets_differ :
    StatsPrefixes (objectOperator underA) (objectKeys underA) ∧
      DirectoryName (objectKeys underA) (ascii "a") ∧
      odTableDuOpen (objectOperator underA) (ascii "a") (.plain true) =
        .error ⟨.NotFound, ascii "not found"⟩ ∧
      (odTableDuOpen (objectOperator underA) (ascii "a/") (.plain true)).map OdDuCursor.rows =
        .ok [⟨ascii "a", 1, 3⟩] ∧
      (odTableCopyOpen (objectOperator underA) (ascii "a") (objectOperator underA) (ascii "b")
          .unset).map OdCopyCursor.plan = .error ⟨.NotFound, ascii "not found"⟩ ∧
      (odTableCopyOpen (objectOperator underA) (ascii "a/") (objectOperator underA) (ascii "b")
          .unset).map OdCopyCursor.plan = .ok [⟨ascii "a/x", ascii "b/x", 3⟩] :=
  ⟨statsPrefixes_underA, directoryName_underA, by decide, by decide, by decide, by decide⟩

end DuckdbOpendal
