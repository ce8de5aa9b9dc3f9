import DuckdbOpendal.FileSystemRuns

/-!
# Directories that come and go

A store of objects has a directory where an object lies below its name.  `RemoveDirectory`
removes all of them, `CreateDirectory` leaves an empty object for the directory itself where the
service keeps one, and until other calls write there, `Glob` and `DirectoryExists` see it so.
Paths are taken without white space around them, and spelled in any other way.

## Main Definitions

* `FlatService` — what OpenDAL answers for a store of objects, whatever way a path is spelled

## Main Results

* `odDirExists_eq_true_iff_names` — the directories that are found
* `removeDirectory_lasts`, `createDirectory_lasts` — a removed directory is gone, and a created
  one is there
-/

namespace DuckdbOpendal

open ChangeLog

/-! ## A store of objects, by name -/

/-- Some object lies in the directory, or is its own. -/
def HasWithin (names : Set Bytes) (dir : Bytes) : Prop := ∃ name ∈ names, dir <+: name

/-- **A store of objects** as OpenDAL answers for it: `stat` finds an object, as a file, and a
directory by its slash, when an object lies there; a listing yields something then. -/
structure FlatService (objectName : Bytes → Bytes) (op : OdOperator) (names : Set Bytes) :
    Prop where
  cap_stat : op.cap.stat = true
  cap_list : op.cap.list = true
  stat_file : ∀ path, ¬ DirRoot (objectName path) → objectName path ∈ names →
    ∃ metadata, op.stat path none = .ok metadata ∧ metadata.mode = .FILE
  stat_directory : ∀ path, DirRoot (objectName path) → HasWithin names (objectName path) →
    ∃ metadata, op.stat path none = .ok metadata ∧ metadata.mode = .DIR
  stat_other : ∀ path, objectName path ≠ [slash] →
    (¬ DirRoot (objectName path) → objectName path ∉ names) →
    (DirRoot (objectName path) → ¬ HasWithin names (objectName path)) →
    ∃ error, op.stat path none = .error error ∧ error.kind = .NotFound
  lister_iff : ∀ path, DirRoot path →
    ((∃ entry rest, op.lister path (.plain false) = .ok (.ok entry :: rest)) ↔
      HasWithin names (below (objectName path)))

section DirExists

variable {objectName : Bytes → Bytes} (hnames : NormalizesPaths objectName) {op : OdOperator}
  {names : Set Bytes} (hservice : FlatService objectName op names) {path : Bytes}
  (hpath : cstr path = some path) (htrim : Trimmed path) (hroot : normalizeRoot path ≠ [])
include hnames hservice hpath htrim hroot

/-- **The directories that are found**: those an object lies in, unless the path is spelled
without its slash and an object has its name. -/
theorem odDirExists_eq_true_iff_names :
    odDirExists op path = .ok true ↔
      (DirRoot path ∨ objectName path ∉ names) ∧ HasWithin names (normalizeRoot path) := by
  unfold odDirExists
  rw [require, if_pos hservice.cap_stat, ok_bind, requireCstr_eq_ok.mpr hpath, ok_bind]
  by_cases hdir : DirRoot path
  · -- With its slash the path is a directory to `stat`.
    have hname := hnames.directory path htrim hdir hroot
    have hdir' : DirRoot (objectName path) := by
      rw [hname]
      exact dirRoot_normalizeRoot path
    by_cases hwithin : HasWithin names (normalizeRoot path)
    · obtain ⟨metadata, hstat, hmode⟩ := hservice.stat_directory path hdir' (hname ▸ hwithin)
      have hisDir : metadata.isDir = true := by rw [Metadata.isDir, hmode]; rfl
      simp only [hstat, hisDir]
      exact iff_of_true rfl ⟨Or.inl hdir, hwithin⟩
    · obtain ⟨error, hstat, hkind⟩ := hservice.stat_other path
        (fun h => hroot (by rw [← below_normalizeRoot, ← hname, h]; rfl))
        (fun h => absurd hdir' h) fun _ => hname ▸ hwithin
      have hprobed : ¬ (path ≠ [] ∧ path.getLast? ≠ some slash) :=
        fun h => not_dirRoot_iff.mpr h hdir
      simp only [hstat, hkind, hservice.cap_list, hprobed, ne_eq, not_true_eq_false, if_false,
        Bool.true_eq_false]
      rw [probeAnswer_eq_true_iff, hservice.lister_iff path hdir,
        hnames.below_objectName htrim hdir]
      exact iff_of_false hwithin fun h => hwithin h.2
  · -- Without it `stat` finds a file of that name, and nothing else.
    have hfile := (hnames.normalized htrim hdir).not_dirRoot
    by_cases hmem : objectName path ∈ names
    · obtain ⟨metadata, hstat, hmode⟩ := hservice.stat_file path hfile hmem
      have hisDir : metadata.isDir = false := by rw [Metadata.isDir, hmode]; rfl
      simp only [hstat, hisDir]
      exact iff_of_false (fun h => by cases h) fun h => h.1.elim hdir (absurd hmem)
    · obtain ⟨error, hstat, hkind⟩ := hservice.stat_other path
        (fun h => hfile (Or.inr ⟨[], h⟩)) (fun _ => hmem) fun h => absurd h hfile
      have hprobed := not_dirRoot_iff.mp hdir
      simp only [hstat, hkind, hservice.cap_list, hprobed, ne_eq, not_true_eq_false, if_false,
        not_false_eq_true, and_self, if_true, Bool.true_eq_false, hdir, hmem, or_true, true_and]
      rw [probeAnswer_eq_true_iff, hservice.lister_iff _ (Or.inr ⟨path, rfl⟩),
        hnames.below_objectName htrim.append_slash (Or.inr ⟨path, rfl⟩),
        normalizeRoot_append_slash]

end DirExists

/-- An operator over the given objects that names paths as `objectName` does. -/
def namedOperator (objectName : Bytes → Bytes) (objects : List Entry) : OdOperator where
  handle := 1
  scheme := ascii "memory"
  cap := .all
  lister root _ :=
    .ok ((objects.filter fun e => below (objectName root) <+: e.path).map .ok)
  stat path _ :=
    if DirRoot (objectName path) then
      if objects.any fun e => objectName path <+: e.path then .ok (.ofLength .DIR 0)
      else .error ⟨.NotFound, ascii "not found"⟩
    else
      match objects.find? fun e => e.path = objectName path with
      | some e => .ok e.metadata
      | none => .error ⟨.NotFound, ascii "not found"⟩

/-- **The operator over a list of objects** answers as a store of their names. -/
theorem namedOperator_flatService (objectName : Bytes → Bytes) {objects : List Entry}
    (hobjects : ∀ e ∈ objects, e.metadata.mode = .FILE) :
    FlatService objectName (namedOperator objectName objects) (objectKeys objects) := by
  have hwithin : ∀ dir, HasWithin (objectKeys objects) dir ↔ ∃ e ∈ objects, dir <+: e.path := by
    intro dir
    constructor
    · rintro ⟨_, ⟨e, he, rfl⟩, hdir⟩
      exact ⟨e, he, hdir⟩
    · rintro ⟨e, he, hdir⟩
      exact ⟨e.path, ⟨e, he, rfl⟩, hdir⟩
  constructor
  · rfl
  · rfl
  · rintro path hfile ⟨e, he, hname⟩
    cases hfind : objects.find? fun e => e.path = objectName path with
    | none => exact absurd (List.find?_eq_none.mp hfind e he) (by simp [hname])
    | some e' =>
        simp only [namedOperator, if_neg hfile, hfind]
        exact ⟨_, rfl, hobjects e' (List.mem_of_find?_eq_some hfind)⟩
  · intro path hdir hhas
    have hany : (objects.any fun e => decide (objectName path <+: e.path)) = true := by
      simpa using (hwithin _).mp hhas
    simp only [namedOperator, if_pos hdir, hany, if_true]
    exact ⟨_, rfl, rfl⟩
  · intro path _ hfile hdir
    by_cases hroot : DirRoot (objectName path)
    · have hany : (objects.any fun e => decide (objectName path <+: e.path)) = false := by
        simpa using (not_congr (hwithin _)).mp (hdir hroot)
      simp only [namedOperator, if_pos hroot, hany, Bool.false_eq_true, if_false]
      exact ⟨_, rfl, rfl⟩
    · have hfind : (objects.find? fun e => e.path = objectName path) = none :=
        List.find?_eq_none.mpr fun e he heq => hfile hroot ⟨e, he, by simpa using heq⟩
      simp only [namedOperator, if_neg hroot, hfind]
      exact ⟨_, rfl, rfl⟩
  · intro path _
    rw [hwithin]
    simp only [namedOperator, Except.ok.injEq]
    constructor
    · rintro ⟨entry, rest, hlist⟩
      have hentry : Except.ok entry ∈
          (objects.filter fun e => below (objectName path) <+: e.path).map
            (Except.ok (ε := OpendalError)) := by
        rw [hlist]
        exact List.mem_cons_self
      obtain ⟨e, he, -⟩ := List.mem_map.mp hentry
      obtain ⟨he, hbelow⟩ := List.mem_filter.mp he
      exact ⟨e, he, by simpa using hbelow⟩
    · rintro ⟨e, he, hbelow⟩
      cases hlist : objects.filter fun e => below (objectName path) <+: e.path with
      | nil => exact absurd hbelow (by simpa using List.filter_eq_nil_iff.mp hlist e he)
      | cons entry rest => exact ⟨entry, rest.map .ok, rfl⟩

namespace FileSystem

/-- One service, which keeps directories as empty objects, under their normalised names. -/
abbrev stepNamed : State → FileSystemOp → State × Except Bytes Unit :=
  step (fun _ _ => true) normalizePath (fun _ => 0) defaultRegistry

section Runs

variable {marks : ℕ → Bytes → Bool} {objectName : Bytes → Bytes} {service : ℕ → ℕ}
  {registry : Registry}

/-- The directory of a URL. -/
theorem directory_of_parseUrl (hnames : NormalizesPaths objectName) {url : Bytes}
    {u : ResolvedUrl} (hurl : parseUrl registry url = some u) (htrim : Trimmed u.path) :
    ∃ dir, FileCall.directory objectName registry url = some dir ∧
      below dir = normalizeRoot u.path ∧
      (normalizeRoot u.path ≠ [] → dir = normalizeRoot u.path) := by
  have htrim' := trimmed_asDirectory htrim
  have hdir := dirRoot_asDirectory u.path
  have hroot := normalizeRoot_asDirectory u.path
  refine ⟨objectName (asDirectory u.path), ?_, ?_, fun hne => ?_⟩
  · rw [FileCall.directory, hurl, Option.map_some]
  · rw [hnames.below_objectName htrim' hdir, hroot]
  · rw [hnames.directory _ htrim' hdir (hroot ▸ hne), hroot]

/-! ## Removed directories -/

variable (marks objectName service registry) in
/-- A removal that returned has removed what is below the directory, and nothing else. -/
theorem objects_removeDirectory {s : State} {operators : ResolvedUrl → Except Bytes FileOperator}
    {url dir : Bytes} {outcome : Outcome Unit} {part : Bytes → Bool}
    (hdir : FileCall.directory objectName registry url = some dir)
    (hreturns : (step marks objectName service registry s
      (.call operators (.removeDirectory url outcome part))).2 = .ok ()) (p : Place) :
    (step marks objectName service registry s
        (.call operators (.removeDirectory url outcome part))).1.objects p =
      if p.1 = serviceOf service registry operators url ∧ below dir <+: p.2 then none
      else s.objects p := by
  obtain ⟨c, hdid, hchange⟩ := step_did marks objectName service registry s
    (.call operators (.removeDirectory url outcome part))
  rw [hreturns] at hdid
  rw [hchange]
  cases hdid with
  | called operators call =>
      simp only [FileCall.change, hdir, Option.map_some, Option.getD_some, Change.within,
        Change.apply, Bool.and_eq_true, decide_eq_true_eq]
      rfl

/-- `Glob` returns no URL of a file that is not there. -/
theorem glob_urls_of_none {objects : Place → Option Bytes} {n : ℕ} {dir : Bytes}
    (hnone : ∀ name, dir <+: name → objects (n, name) = none)
    {operators : ResolvedUrl → Except Bytes OdOperator} {url : Bytes} {u : ResolvedUrl}
    {op : OdOperator} (hurl : parseUrl registry url = some u) (hop : operators u = .ok op)
    (hwild : hasGlob url = true) (hfiles : ∀ f ∈ filesOf objects n, NormalizedPath f)
    (hlists : ListsStore op (filesOf objects n)) (hnul : NulFreeListings op) (haveContext : Bool) :
    ∃ urls, fileSystemGlob registry operators haveContext url = .ok urls ∧
      ∀ f, dir <+: f → u.urlOf f ∉ urls := by
  obtain ⟨urls, hglob, -, hbij⟩ :=
    fileSystemGlob_selects hurl hwild hop hfiles hlists hnul haveContext
  refine ⟨urls, hglob, fun f hf hmem => ?_⟩
  obtain ⟨f', hf', heq⟩ := hbij.surjOn hmem
  obtain rfl := u.urlOf_injective heq
  have hsome := hf'.1.1
  rw [hnone f' hf] at hsome
  cases hsome

variable (marks service registry) in
/-- **A removed directory is gone**: when `RemoveDirectory` returns, everything below the
directory has been removed and every other object, of this service and the others, is as it
was.  Until a call may write below the directory again, `Glob` returns no file below it, and
`DirectoryExists` does not find it, unless it is the operator root. -/
theorem removeDirectory_lasts (hnames : NormalizesPaths objectName) (s : State)
    (before after : List FileSystemOp) {operators : ResolvedUrl → Except Bytes FileOperator}
    {url : Bytes} {outcome : Outcome Unit} {part : Bytes → Bool} {u : ResolvedUrl}
    (hurl : parseUrl registry url = some u) (htrim : Trimmed u.path)
    (hreturns : (step marks objectName service registry
      (Mealy.final (step marks objectName service registry) s before)
      (.call operators (.removeDirectory url outcome part))).2 = .ok ())
    (huntouched : Mealy.Along (step marks objectName service registry)
      (fun s op => ∀ name, normalizeRoot u.path <+: name →
        ¬ MayWrite objectName service registry
          (serviceOf service registry operators url, name) s op)
      (Mealy.final (step marks objectName service registry) s
        (before ++ [.call operators (.removeDirectory url outcome part)])) after) :
    let n := serviceOf service registry operators url
    let removed := Mealy.final (step marks objectName service registry) s
      (before ++ [.call operators (.removeDirectory url outcome part)])
    let later := Mealy.final (step marks objectName service registry) s
      (before ++ .call operators (.removeDirectory url outcome part) :: after)
    (∀ p, removed.objects p =
        if p.1 = n ∧ normalizeRoot u.path <+: p.2 then none
        else (Mealy.final (step marks objectName service registry) s before).objects p) ∧
      (∀ (operators : ResolvedUrl → Except Bytes OdOperator) op pattern (v : ResolvedUrl),
        parseUrl registry pattern = some v → operators v = .ok op → hasGlob pattern = true →
        (∀ f ∈ filesOf later.objects n, NormalizedPath f) →
        ListsStore op (filesOf later.objects n) → NulFreeListings op → ∀ haveContext,
          ∃ urls, fileSystemGlob registry operators haveContext pattern = .ok urls ∧
            ∀ f, normalizeRoot u.path <+: f → v.urlOf f ∉ urls) ∧
      ∀ (operators : ResolvedUrl → Except Bytes OdOperator) op, operators u = .ok op →
        normalizeRoot u.path ≠ [] →
        FlatService objectName op {name | (later.objects (n, name)).isSome} →
          directoryExists registry operators url ≠ .ok true := by
  intro n removed later
  obtain ⟨dir, hdir, hbelow, -⟩ := directory_of_parseUrl hnames hurl htrim
  have hremoved : ∀ p, removed.objects p =
      if p.1 = n ∧ normalizeRoot u.path <+: p.2 then none
      else (Mealy.final (step marks objectName service registry) s before).objects p := by
    intro p
    rw [← hbelow]
    simp only [removed, Mealy.final_append, Mealy.final_cons, Mealy.final_nil]
    exact objects_removeDirectory marks objectName service registry hdir hreturns p
  -- Nothing has been written below the directory since.
  have hnone : ∀ name, normalizeRoot u.path <+: name → later.objects (n, name) = none := by
    intro name hwithin
    have hsame := objects_final_of_untouched
      (huntouched.mono _ fun s op h => h name hwithin)
    have hlater : later = Mealy.final (step marks objectName service registry) removed after := by
      simp only [later, removed, ← Mealy.final_append, List.append_assoc, List.singleton_append]
    rw [hlater, hsame, hremoved, if_pos ⟨rfl, hwithin⟩]
  refine ⟨hremoved, ?_, ?_⟩
  · intro operators op pattern v hv hop hwild hfiles hlists hnul haveContext
    exact glob_urls_of_none hnone hv hop hwild hfiles hlists hnul haveContext
  · intro operators op hop hroot hservice hexists
    rw [directoryExists_eq_true_iff hurl hop, odDirExists_eq_true_iff_names hnames hservice
      (cstr_path_of_parseUrl hurl) htrim hroot] at hexists
    obtain ⟨-, name, hname, hwithin⟩ := hexists
    have hsome : (later.objects (n, name)).isSome := hname
    rw [hnone name hwithin] at hsome
    cases hsome

/-- One object below the directory `d`, and one beside it. -/
def State.besideDirectory : State :=
  ⟨fun p => if p = (0, ascii "d/x") then some (ascii "1")
    else if p = (0, ascii "a") then some (ascii "xyz") else none, []⟩

/-- The directory `d` is removed, by a URL with a slash at its end. -/
def removesDirectory : FileSystemOp :=
  .call (fun _ => .ok (storeFileOperator []))
    (.removeDirectory (ascii "memory://b//d/") (.ok ()) fun _ => false)

/-- The object that is left. -/
def leftBeside : List Entry := [fileEntry (ascii "a") isUtf8_three 3]

theorem besideDirectory_isSome {name : Bytes} :
    (State.besideDirectory.objects (0, name)).isSome ↔ name = ascii "d/x" ∨ name = ascii "a" := by
  simp only [State.besideDirectory, Prod.mk.injEq, true_and]
  split
  · simp [*]
  · split
    · simp [*]
    · simp [*]

/-- Afterwards it is not found, and the other object is still there. -/
theorem removeDirectory_lasts_beside :
    let removed := Mealy.final stepNamed .besideDirectory ([] ++ [removesDirectory])
    removed.objects (0, ascii "d/x") = none ∧
      removed.objects (0, ascii "a") = some (ascii "xyz") ∧
      directoryExists defaultRegistry (fun _ => .ok (namedOperator normalizePath leftBeside))
        (ascii "memory://b//d/") ≠ .ok true := by
  intro removed
  have hurl : parseUrl defaultRegistry (ascii "memory://b//d/") =
      some ⟨ascii "memory", ascii "b", ascii "/d/"⟩ := by decide
  have hdir : normalizeRoot (ascii "/d/") = ascii "d/" := by decide
  have hreturns : (stepNamed (Mealy.final stepNamed .besideDirectory []) removesDirectory).2 =
      .ok () := rfl
  -- A call on a handle that is not open writes nowhere.
  have huntouched : Mealy.Along stepNamed
      (fun s op => ∀ name, normalizeRoot (ascii "/d/") <+: name →
        ¬ MayWrite normalizePath (fun _ => 0) defaultRegistry (0, name) s op) removed
        [.onHandle 0 closes] := by
    refine ⟨?_, trivial⟩
    rintro name - ⟨o, hopen, -⟩
    cases hopen
  obtain ⟨hremoved, -, hexists⟩ := removeDirectory_lasts (fun _ _ => true) (fun _ => 0)
    defaultRegistry normalizePath_normalizes .besideDirectory [] [.onHandle 0 closes] hurl
    (by decide) hreturns huntouched
  rw [hdir] at hremoved hexists
  have hremoved : ∀ name, removed.objects (0, name) =
      if ascii "d/" <+: name then none else State.besideDirectory.objects (0, name) :=
    fun name => (hremoved (0, name)).trans (if_congr (and_iff_right rfl) rfl rfl)
  have hnames : {name | (removed.objects (0, name)).isSome} = objectKeys leftBeside := by
    ext name
    rw [Set.mem_ofPred_eq, hremoved]
    constructor
    · intro hsome
      split at hsome
      · cases hsome
      · rename_i houtside
        rcases besideDirectory_isSome.mp hsome with rfl | rfl
        · exact absurd (by decide) houtside
        · exact ⟨_, List.mem_singleton_self _, rfl⟩
    · rintro ⟨e, he, rfl⟩
      rw [List.mem_singleton.mp he]
      decide
  refine ⟨(hremoved _).trans (if_pos (by decide)), (hremoved _).trans (if_neg (by decide)), ?_⟩
  refine hexists _ _ rfl (by decide) ?_
  show FlatService normalizePath _ {name | (removed.objects (0, name)).isSome}
  rw [hnames]
  exact namedOperator_flatService normalizePath fun e he => by rw [List.mem_singleton.mp he]; rfl

/-! ## Created directories -/

variable (marks objectName service registry) in
/-- A creation that returned leaves the directory's own object, where the service keeps one. -/
theorem objects_createDirectory {s : State} {operators : ResolvedUrl → Except Bytes FileOperator}
    {url dir : Bytes} {outcome : Outcome Unit}
    (hdir : FileCall.directory objectName registry url = some dir)
    (hreturns : (step marks objectName service registry s
      (.call operators (.createDirectory url outcome))).2 = .ok ()) (p : Place) :
    (step marks objectName service registry s
        (.call operators (.createDirectory url outcome))).1.objects p =
      if marks (serviceOf service registry operators url) dir = true ∧
          p = (serviceOf service registry operators url, dir) then some []
      else s.objects p := by
  obtain ⟨c, hdid, hchange⟩ := step_did marks objectName service registry s
    (.call operators (.createDirectory url outcome))
  rw [hreturns] at hdid
  rw [hchange]
  cases hdid with
  | called operators call =>
      simp only [FileCall.change, hdir, Option.map_some, Option.getD_some, FileCall.url,
        markDirectory]
      cases marks (serviceOf service registry operators url) dir with
      | true =>
          simp only [if_true, true_and, Change.within, Change.apply]
          exact Function.update_apply _ _ _ _
      | false => simp [Change.within, Change.apply]

variable (marks service registry) in
/-- **A created directory is found**: when `CreateDirectory` of a directory other than the
operator root returns, a service that keeps it as an object has an empty one for it, and nothing
else has changed.  Until a call may write to that object, `DirectoryExists` finds the directory,
unless the URL is spelled without its slash and an object has the name of the directory
itself. -/
theorem createDirectory_lasts (hnames : NormalizesPaths objectName) (s : State)
    (before after : List FileSystemOp) {operators : ResolvedUrl → Except Bytes FileOperator}
    {url : Bytes} {outcome : Outcome Unit} {u : ResolvedUrl}
    (hurl : parseUrl registry url = some u) (htrim : Trimmed u.path)
    (hroot : normalizeRoot u.path ≠ [])
    (hreturns : (step marks objectName service registry
      (Mealy.final (step marks objectName service registry) s before)
      (.call operators (.createDirectory url outcome))).2 = .ok ())
    (huntouched : Mealy.Along (step marks objectName service registry)
      (fun s op => ¬ MayWrite objectName service registry
        (serviceOf service registry operators url, normalizeRoot u.path) s op)
      (Mealy.final (step marks objectName service registry) s
        (before ++ [.call operators (.createDirectory url outcome)])) after) :
    let n := serviceOf service registry operators url
    let created := Mealy.final (step marks objectName service registry) s
      (before ++ [.call operators (.createDirectory url outcome)])
    let later := Mealy.final (step marks objectName service registry) s
      (before ++ .call operators (.createDirectory url outcome) :: after)
    (∀ p, created.objects p =
        if marks n (normalizeRoot u.path) = true ∧ p = (n, normalizeRoot u.path) then some []
        else (Mealy.final (step marks objectName service registry) s before).objects p) ∧
      (marks n (normalizeRoot u.path) = true →
        ∀ (operators : ResolvedUrl → Except Bytes OdOperator) op, operators u = .ok op →
          FlatService objectName op {name | (later.objects (n, name)).isSome} →
            (directoryExists registry operators url = .ok true ↔
              DirRoot u.path ∨ later.objects (n, objectName u.path) = none)) := by
  intro n created later
  obtain ⟨dir, hdir, -, hname⟩ := directory_of_parseUrl hnames hurl htrim
  obtain rfl := hname hroot
  have hcreated : ∀ p, created.objects p =
      if marks n (normalizeRoot u.path) = true ∧ p = (n, normalizeRoot u.path) then some []
      else (Mealy.final (step marks objectName service registry) s before).objects p := by
    intro p
    simp only [created, Mealy.final_append, Mealy.final_cons, Mealy.final_nil]
    exact objects_createDirectory marks objectName service registry hdir hreturns p
  refine ⟨hcreated, fun hmarks operators op hop hservice => ?_⟩
  have hlater : later.objects (n, normalizeRoot u.path) = some [] := by
    have hsplit : later = Mealy.final (step marks objectName service registry) created after := by
      simp only [later, created, ← Mealy.final_append, List.append_assoc, List.singleton_append]
    rw [hsplit, objects_final_of_untouched huntouched, hcreated, if_pos ⟨hmarks, rfl⟩]
  have hwithin : HasWithin {name | (later.objects (n, name)).isSome} (normalizeRoot u.path) :=
    ⟨normalizeRoot u.path, by rw [Set.mem_ofPred_eq, hlater]; rfl, List.prefix_rfl⟩
  rw [directoryExists_eq_true_iff hurl hop, odDirExists_eq_true_iff_names hnames hservice
    (cstr_path_of_parseUrl hurl) htrim hroot, and_iff_left hwithin, Set.mem_ofPred_eq,
    Option.not_isSome_iff_eq_none]

/-- The object of the created directory. -/
def createdObject : List Entry := [fileEntry (ascii "d/") (by decide) 0]

/-- A directory is created in an empty store, by a URL without its slash. -/
theorem createDirectory_lasts_empty :
    let created := Mealy.final stepNamed .empty
      ([] ++ [.call (fun _ => .ok (storeFileOperator []))
        (.createDirectory (ascii "memory://b//d") (.ok ()))])
    directoryExists defaultRegistry (fun _ => .ok (namedOperator normalizePath createdObject))
        (ascii "memory://b//d") = .ok true ↔ created.objects (0, ascii "d") = none := by
  intro created
  have hurl : parseUrl defaultRegistry (ascii "memory://b//d") =
      some ⟨ascii "memory", ascii "b", ascii "/d"⟩ := by decide
  have hdir : normalizeRoot (ascii "/d") = ascii "d/" := by decide
  have hname : normalizePath (ascii "/d") = ascii "d" := by decide
  have hreturns : (stepNamed (Mealy.final stepNamed .empty []) (.call
      (fun _ => .ok (storeFileOperator []))
      (.createDirectory (ascii "memory://b//d") (.ok ())))).2 = .ok () := rfl
  obtain ⟨hcreated, hexists⟩ := createDirectory_lasts (fun _ _ => true) (fun _ => 0)
    defaultRegistry normalizePath_normalizes .empty [] [] hurl (by decide) (by decide) hreturns
    trivial
  rw [hdir] at hcreated
  rw [hname] at hexists
  have hkeys : {name | (created.objects (0, name)).isSome} = objectKeys createdObject := by
    ext name
    rw [Set.mem_ofPred_eq, hcreated (0, name)]
    by_cases heq : name = ascii "d/"
    · subst heq
      exact iff_of_true (by decide) ⟨_, List.mem_singleton_self _, rfl⟩
    · refine iff_of_false (fun hsome => ?_) ?_
      · rw [if_neg fun h => heq (Prod.ext_iff.mp h.2).2] at hsome
        cases hsome
      · rintro ⟨e, he, rfl⟩
        exact heq (by rw [List.mem_singleton.mp he]; rfl)
  have hservice : FlatService normalizePath (namedOperator normalizePath createdObject)
      {name | (created.objects (0, name)).isSome} := by
    rw [hkeys]
    exact namedOperator_flatService normalizePath fun e he => by rw [List.mem_singleton.mp he]; rfl
  refine (hexists rfl _ _ rfl hservice).trans (or_iff_right ?_)
  decide

end Runs

end FileSystem

end DuckdbOpendal
