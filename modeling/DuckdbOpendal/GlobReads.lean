import DuckdbOpendal.FileSystemRuns
import DuckdbOpendal.GlobNames

/-!
# Reading what a pattern finds

A query over a pattern globs it and opens what `Glob` returns.  The URLs are written by
`od_url_build` and read back by `od_url_resolve`; this module follows them to the bytes of the
objects, and from the handle that has published an object to the query that finds it.

## Main Definitions

* `StatsObjects` — how OpenDAL answers `stat` for the files among the objects
* `ServesObjects` — how it lists them as well

## Main Results

* `glob_then_read` — the objects a query over a pattern reads
* `published_is_found` — what has been published is among them
-/

namespace DuckdbOpendal

namespace FileSystem

/-- **How OpenDAL answers `stat`** for a service whose objects these are: for a path that names
a file, the file's length. -/
structure StatsObjects (objectName : Bytes → Bytes) (op : OdOperator)
    (objects : Bytes → Option Bytes) : Prop where
  cap_stat : op.cap.stat = true
  cap_read : op.cap.read = true
  stat : ∀ path content, objects (objectName path) = some content →
    (objectName path).getLast? ≠ some slash →
    ∃ metadata, op.stat path none = .ok metadata ∧ metadata.isDir = false ∧
      metadata.contentLength.val = content.length

section Reads

variable {registry : Registry} {objectName : Bytes → Bytes} {objects : Bytes → Option Bytes}

/-- `od_stat` of a file of the service. -/
theorem odStat_of_statsObjects {op : OdOperator} (hstats : StatsObjects objectName op objects)
    {path content : Bytes} (hpath : cstr path = some path)
    (hobject : objects (objectName path) = some content)
    (hslash : (objectName path).getLast? ≠ some slash) :
    ∃ metadata, odStat op path = .ok metadata ∧ metadata.isDir = false ∧
      metadata.contentLength.val = content.length := by
  obtain ⟨metadata, hstat, hdir, hsize⟩ := hstats.stat path content hobject hslash
  refine ⟨⟨metadata.contentLength, metadata.lastModifiedMs.getD (-1), metadata.isDir⟩, ?_, hdir,
    hsize⟩
  rw [odStat, require, if_pos hstats.cap_stat, ok_bind, requireCstr_eq_ok.mpr hpath, ok_bind,
    orOpendalError_eq_ok.mpr hstat]
  rfl

/-- The read side of `OpenFile` opens a file of the service. -/
theorem exists_openForReading (operators : ResolvedUrl → Except Bytes OdOperator) {path : Bytes}
    {u : ResolvedUrl} {op : OdOperator} (hurl : parseUrl registry path = some u)
    (hop : operators u = .ok op) (hread : op.cap.read = true) {metadata : OdMetadata}
    (hstat : odStat op u.path = .ok metadata) (hdir : metadata.isDir = false)
    (hlimit : metadata.contentLength.val < 2 ^ 63) :
    ∃ h, openForReading registry operators path (.ok ()) = .ok h := by
  have hreader : odReaderOpen op u.path (.ok ()) = .ok ⟨[]⟩ := by
    simp only [odReaderOpen, require, hread, if_true, ok_bind,
      requireCstr_eq_ok.mpr (cstr_path_of_parseUrl hurl)]
  have hfits : ¬ int64Max < metadata.contentLength.val := by
    rw [int64Max]
    omega
  simp only [openForReading, hurl, hop, ok_bind, hstat, orThrow, hdir, hreader, Except.map,
    if_neg hfits, Bool.false_eq_true, if_false]
  exact ⟨_, rfl⟩

/-- A URL is opened for reading, and sequential reads of any sizes return these bytes. -/
def ReadsBack (registry : Registry) (operators : ResolvedUrl → Except Bytes FileOperator)
    (path : Bytes) (outcomes : OpenOutcomes) (content : Bytes) : Prop :=
  ∃ h, FileSystem.openFile registry operators path readFlags outcomes = .ok (.reading h) ∧
    h.getFileSize = content.length ∧
    ∀ reads : List SequentialRead, (∀ r ∈ reads, ReadsFrom content r.2) →
      ∃ parts : List Bytes,
        Mealy.answers readStep h (reads.map SequentialRead.op) =
            parts.map (fun part => .ok ((part.length : ℤ), part)) ∧
          parts.flatten = content.take (reads.map Prod.fst).sum

/-- **A file of the service is read** by its URL. -/
theorem readsBack_of_statsObjects {operators : ResolvedUrl → Except Bytes FileOperator}
    {path : Bytes} {u : ResolvedUrl} {op : FileOperator} (hurl : parseUrl registry path = some u)
    (hop : operators u = .ok op) (hstats : StatsObjects objectName op.toOdOperator objects)
    {content : Bytes} (hobject : objects (objectName u.path) = some content)
    (hslash : (objectName u.path).getLast? ≠ some slash)
    (hlimit : content.length < 2 ^ 63) {outcomes : OpenOutcomes}
    (hopens : outcomes.reader = .ok ()) : ReadsBack registry operators path outcomes content := by
  obtain ⟨metadata, hstat, hdir, hsize⟩ :=
    odStat_of_statsObjects hstats (cstr_path_of_parseUrl hurl) hobject hslash
  obtain ⟨h, hopen⟩ := exists_openForReading
    (fun u => (operators u).map fun op => op.toOdOperator) hurl (by rw [hop]; rfl)
    hstats.cap_read hstat hdir (hsize ▸ hlimit)
  refine ⟨h, ?_, ?_, fun reads hreads => ?_⟩
  · simp only [FileSystem.openFile, readFlags, validateOpenFlags, FileOpenFlags.unset, hopens,
      hopen]
    rfl
  · exact (answers_of_openForReading hurl (by rw [hop]; rfl) hstat hsize hopen
      (List.forall_mem_nil _)).1
  · obtain ⟨-, parts, hparts, hflatten, -⟩ :=
      answers_of_openForReading hurl (by rw [hop]; rfl) hstat hsize hopen hreads
    exact ⟨parts, hparts, hflatten⟩

end Reads

/-! ## Queries over a pattern -/

section Query

variable {registry : Registry} {operators : ResolvedUrl → Except Bytes FileOperator}
  {op : FileOperator} {url : Bytes} {u : ResolvedUrl} {outcomes : OpenOutcomes}

/-- **What `Glob` and `stat` answer** for a service whose objects these are: a listing holds its
files, by their names, which can be passed on, and `stat` knows them under these names. -/
structure ServesObjects (op : OdOperator) (objects : Place → Option Bytes) (n : ℕ) : Prop where
  normalized : ∀ f ∈ filesOf objects n, NormalizedPath f
  lists : ListsStore op (filesOf objects n)
  nulFree : NulFreeListings op
  stats : StatsObjects id op fun f => objects (n, f)

/-- The URL of a file leads back to it, unless a backslash in it is read as a slash. -/
theorem ServesObjects.parseUrl_urlOf {op : OdOperator} {objects : Place → Option Bytes} {n : ℕ}
    (h : ServesObjects op objects n) (hu : u.WellFormed registry) {f : Bytes}
    (hf : f ∈ filesOf objects n) (hback : backslash ∉ f) :
    parseUrl registry (u.urlOf f) = some ⟨u.scheme, u.authority, f⟩ := by
  obtain ⟨entries, hlister, hlists⟩ := h.lists.recursive [] (Or.inl rfl)
  obtain ⟨e, he, rfl, -⟩ := (hlists.files f).mpr ⟨hf, List.nil_prefix⟩
  have h0 := (h.nulFree _ _ _ hlister e (List.mem_map_of_mem he)).1
  rw [hu.parseUrl_urlOf e.utf8 h0,
    map_eq_self fun b hb => unbackslash_of_ne fun heq => hback (heq ▸ hb)]

/-- What `Glob` returns over the files of the service. -/
theorem ServesObjects.glob_selects {objects : Place → Option Bytes} {n : ℕ}
    (h : ServesObjects op.toOdOperator objects n) (hurl : parseUrl registry url = some u)
    (hwild : hasGlob url = true) (hop : operators u = .ok op) (haveContext : Bool) :
    ∃ urls, fileSystemGlob registry (fun u => (operators u).map fun op => op.toOdOperator)
        haveContext url = .ok urls ∧
      urls.Pairwise (· < ·) ∧
      Set.BijOn u.urlOf (globSelection (filesOf objects n) u.path) {r | r ∈ urls} :=
  fileSystemGlob_selects hurl hwild (by rw [hop]; rfl) h.normalized h.lists h.nulFree haveContext

/-- The URL of a file is opened and read to its bytes. -/
theorem ServesObjects.readsBack_urlOf {objects : Place → Option Bytes} {n : ℕ}
    (h : ServesObjects op.toOdOperator objects n) (hu : u.WellFormed registry)
    (hop : ∀ path, operators ⟨u.scheme, u.authority, path⟩ = .ok op)
    (hopens : outcomes.reader = .ok ()) {f content : Bytes}
    (hcontent : objects (n, f) = some content) (hslash : f.getLast? ≠ some slash)
    (hback : backslash ∉ f) (hlimit : content.length < 2 ^ 63) :
    ReadsBack registry operators (u.urlOf f) outcomes content := by
  have hf : f ∈ filesOf objects n := ⟨Option.isSome_iff_exists.mpr ⟨content, hcontent⟩, hslash⟩
  exact readsBack_of_statsObjects (h.parseUrl_urlOf hu hf hback) (hop f) h.stats hcontent hslash
    hlimit hopens

/-- **What a query over a pattern reads**: `Glob` returns a URL for each file the pattern
selects, in order and once each, and each URL, unless its file has a backslash in its name, is
opened and read to the bytes of that file. -/
theorem glob_then_read {objects : Place → Option Bytes} {n : ℕ}
    (hurl : parseUrl registry url = some u) (hwild : hasGlob url = true)
    (hop : ∀ path, operators ⟨u.scheme, u.authority, path⟩ = .ok op)
    (hserves : ServesObjects op.toOdOperator objects n) (hopens : outcomes.reader = .ok ())
    (haveContext : Bool) :
    ∃ urls, fileSystemGlob registry (fun u => (operators u).map fun op => op.toOdOperator)
        haveContext url = .ok urls ∧
      urls.Pairwise (· < ·) ∧
      Set.BijOn u.urlOf (globSelection (filesOf objects n) u.path) {r | r ∈ urls} ∧
      ∀ f ∈ globSelection (filesOf objects n) u.path, backslash ∉ f →
        ∃ content, objects (n, f) = some content ∧
          (content.length < 2 ^ 63 →
            ReadsBack registry operators (u.urlOf f) outcomes content) := by
  obtain ⟨urls, hglob, hsorted, hbij⟩ :=
    hserves.glob_selects hurl hwild (hop u.path) haveContext
  refine ⟨urls, hglob, hsorted, hbij, fun f hf hback => ?_⟩
  obtain ⟨content, hcontent⟩ := Option.isSome_iff_exists.mp hf.1.1
  exact ⟨content, hcontent, hserves.readsBack_urlOf (wellFormed_of_parseUrl hurl) hop hopens
    hcontent hf.1.2 hback⟩

end Query

/-- The three bytes have been written, and the file closed. -/
def afterThree : State := Mealy.final stepOne .empty (writesThree ++ [.onHandle 0 closes])

theorem objects_afterThree (p : Place) :
    afterThree.objects p = if p = (0, ascii "a") then some (ascii "aab") else none := by
  show Function.update (fun _ => none) (0, ascii "a") (some (ascii "aab")) p = _
  rw [Function.update_apply]

theorem filesOf_afterThree :
    filesOf afterThree.objects 0 =
      {f | ∃ e ∈ [fileEntry (ascii "a") (by decide) 3], e.path = f} := by
  ext f
  simp only [filesOf, Set.mem_ofPred_eq, objects_afterThree, List.mem_singleton, exists_eq_left]
  constructor
  · rintro ⟨hsome, -⟩
    by_cases hf : f = ascii "a"
    · exact hf.symm
    · simp [hf] at hsome
  · rintro rfl
    exact ⟨rfl, by decide⟩

/-- The operator over the three bytes answers for what has been written. -/
theorem servesObjects_three :
    ServesObjects threeBytesOperator.toOdOperator afterThree.objects 0 where
  normalized f hf := by
    rw [filesOf_afterThree] at hf
    obtain ⟨e, he, rfl⟩ := hf
    obtain rfl := List.mem_singleton.mp he
    decide
  lists := filesOf_afterThree ▸ storeOperator_listsStore rfl (by decide)
  nulFree := storeOperator_nulFree fun e he => by
    obtain rfl := List.mem_singleton.mp he
    exact ⟨by decide, fun t ht => by cases ht⟩
  stats :=
    { cap_stat := rfl
      cap_read := rfl
      stat := fun f content hcontent _ => by
        rw [objects_afterThree] at hcontent
        split at hcontent
        · rename_i hf
          cases hf
          cases hcontent
          exact ⟨_, rfl, rfl, rfl⟩
        · cases hcontent }

/-- Every URL leads to the service that holds the three bytes. -/
def threeOperators (_ : ResolvedUrl) : Except Bytes FileOperator := .ok threeBytesOperator

/-- The pattern `*` reads the one object. -/
theorem glob_then_read_three :
    ∃ urls, fileSystemGlob defaultRegistry
        (fun u => (threeOperators u).map fun op => op.toOdOperator) true
        (ascii "memory://b/*") = .ok urls ∧
      ReadsBack defaultRegistry threeOperators (ascii "memory://b/a") opens (ascii "aab") := by
  have hurl : parseUrl defaultRegistry (ascii "memory://b/*") =
      some ⟨ascii "memory", ascii "b", ascii "*"⟩ := by decide
  obtain ⟨urls, hglob, -, -, hreads⟩ := glob_then_read hurl (by decide)
    (fun _ => (rfl : threeOperators _ = .ok threeBytesOperator)) servesObjects_three
    (rfl : opens.reader = .ok ()) true
  have hselected : ascii "a" ∈ globSelection (filesOf afterThree.objects 0) (ascii "*") :=
    ⟨filesOf_afterThree ▸ ⟨_, List.mem_singleton_self _, rfl⟩, by decide +kernel⟩
  obtain ⟨content, hcontent, hread⟩ := hreads _ hselected (by decide)
  cases (objects_afterThree (0, ascii "a")).symm.trans hcontent
  exact ⟨urls, hglob, hread (by decide)⟩

section Published

variable {registry : Registry} {operators : ResolvedUrl → Except Bytes FileOperator}
  {op : FileOperator} {url : Bytes} {u : ResolvedUrl} {outcomes : OpenOutcomes}

/-- **What has been published is found**: once a file opened for writing has published, and as
long as no call may write to its object, every query over a pattern that matches the object finds
its URL and, unless the name has a backslash, reads what the `Write`s that returned have
written. -/
theorem published_is_found {marks : ℕ → Bytes → Bool} {objectName : Bytes → Bytes}
    {service : ℕ → ℕ} (s : State) (before after : List FileSystemOp) {i : ℕ} {handleOp : HandleOp}
    {o : OpenWrite} {content : Bytes}
    (hopen : (Mealy.final (step marks objectName service registry) s before).writes[i]? = some o)
    (hbefore : o.published = none) (hafter : (o.after handleOp).published = some content)
    (huntouched : Mealy.Along (step marks objectName service registry)
      (fun s op => ¬ MayWrite objectName service registry o.place s op)
      (Mealy.final (step marks objectName service registry) s
        (before ++ [.onHandle i handleOp])) after)
    {n : ℕ} {f : Bytes} (hplace : o.place = (n, f)) (hslash : f.getLast? ≠ some slash)
    (hurl : parseUrl registry url = some u) (hwild : hasGlob url = true)
    (hop : ∀ path, operators ⟨u.scheme, u.authority, path⟩ = .ok op)
    (hserves : ServesObjects op.toOdOperator
      (Mealy.final (step marks objectName service registry) s
        (before ++ .onHandle i handleOp :: after)).objects n)
    (hopens : outcomes.reader = .ok ())
    (hmatch : globMatches (trimStartSlashes u.path) f = true) (haveContext : Bool) :
    ∃ urls, fileSystemGlob registry (fun u => (operators u).map fun op => op.toOdOperator)
        haveContext url = .ok urls ∧
      u.urlOf f ∈ urls ∧
      (backslash ∉ f →
        ReadsBack registry operators (u.urlOf f) outcomes (o.after handleOp).content) := by
  have hobject := objects_of_published s before after hopen hbefore hafter huntouched
  rw [hplace] at hobject
  obtain ⟨urls, hglob, -, hbij⟩ :=
    hserves.glob_selects hurl hwild (hop u.path) haveContext
  have hf : f ∈ globSelection (filesOf _ n) u.path :=
    ⟨⟨Option.isSome_iff_exists.mpr ⟨content, hobject⟩, hslash⟩, hmatch⟩
  refine ⟨urls, hglob, hbij.mapsTo hf, fun hback => ?_⟩
  rw [OpenWrite.published_eq_content hafter] at hobject
  exact hserves.readsBack_urlOf (wellFormed_of_parseUrl hurl) hop hopens hobject hslash hback
    (o.after handleOp).length_content_lt

end Published

/-- The object that has been written is found by the pattern `*`. -/
theorem published_is_found_three :
    ∃ urls, fileSystemGlob defaultRegistry
        (fun u => (threeOperators u).map fun op => op.toOdOperator) true
        (ascii "memory://b/*") = .ok urls ∧
      ascii "memory://b/a" ∈ urls ∧
      ReadsBack defaultRegistry threeOperators (ascii "memory://b/a") opens (ascii "aab") := by
  have hurl : parseUrl defaultRegistry (ascii "memory://b/*") =
      some ⟨ascii "memory", ascii "b", ascii "*"⟩ := by decide
  have hwrites : (Mealy.final stepOne .empty writesThree).writes[0]? = some writtenThree := rfl
  have hafter : (writtenThree.after closes).published = some (ascii "aab") := rfl
  obtain ⟨urls, hglob, hmem, hreads⟩ := published_is_found .empty writesThree [] hwrites rfl hafter
    trivial (rfl : writtenThree.place = (0, ascii "a")) (by decide) hurl (by decide)
    (fun _ => (rfl : threeOperators _ = .ok threeBytesOperator)) servesObjects_three
    (rfl : opens.reader = .ok ()) (by decide +kernel) true
  exact ⟨urls, hglob, hmem, hreads (by decide)⟩

end FileSystem

end DuckdbOpendal
