import DuckdbOpendal.CopyPlan
import DuckdbOpendal.Du
import DuckdbOpendal.Glob

/-!
# The four glob front ends

`OpenDalFileSystem::Glob`, `opendal_ls`, `opendal_du` and `opendal_copy` each cut the
static directory off a pattern, list it, and match.  All four select the same files: a
match starts with the literal prefix of the pattern, so the listing of that directory
misses none, and without a slash and `**` behind it, so does the plain listing.

## Main Definitions

* `globSelection` — the files of a store that a pattern selects
* `globListed`, `globbed` — the files that `Glob` lists, and those whose URL it returns

## Main Results

* `match_below_globRoot`, `match_in_globRoot` — where matches lie
* `fileSystemGlob_globbed` — what `Glob` does to a URL with a wildcard
* `globFrontEnds_agree` — the four front ends
-/

namespace DuckdbOpendal

/-- The files of a store that a pattern path selects. -/
def globSelection (store : Set Bytes) (rel : Bytes) : Set Bytes :=
  {f | f ∈ store ∧ globMatches (trimStartSlashes rel) f = true}

/-! ## Where matches lie -/

section Pattern

variable {rel : Bytes}

/-- The static directory and the rest make up the pattern. -/
theorem globRoot_append_globRemaining (rel : Bytes) :
    globRoot rel ++ globRemaining rel = rel := by
  have hstarts : globRoot rel <+: rel :=
    (List.rdropWhile_prefix _ _).trans (List.takeWhile_prefix _)
  exact List.prefix_iff_eq_append.mp hstarts

/-- The static directory has no wildcard. -/
theorem isWildcard_of_mem_globRoot {b : UInt8} (h : b ∈ globRoot rel) : isWildcard b = false := by
  have hhead := List.mem_takeWhile_imp ((List.rdropWhile_prefix _ _).mem h)
  simpa using hhead

/-- The rest of a pattern does not start with a slash. -/
theorem head?_globRemaining (rel : Bytes) :
    (globRemaining rel).head? ≠ some slash := by
  have hsplit : globRemaining rel =
      Text.afterLast slash (rel.takeWhile fun b => !isWildcard b) ++
        rel.dropWhile fun b => !isWildcard b := by
    refine (List.append_cancel_left : globRoot rel ++ _ = globRoot rel ++ _ → _) ?_
    rw [globRoot_append_globRemaining, ← List.append_assoc, globRoot,
      Text.uptoLast_append_afterLast, List.takeWhile_append_dropWhile]
  have hnot := Text.notMem_afterLast slash (rel.takeWhile fun b => !isWildcard b)
  rw [hsplit]
  generalize Text.afterLast slash (rel.takeWhile fun b => !isWildcard b) = segment at hnot
  cases segment with
  | nil =>
      intro hhead
      rw [List.nil_append] at hhead
      have hwild := List.head?_dropWhile_not (fun b => !isWildcard b) rel
      rw [hhead] at hwild
      exact absurd hwild (by decide)
  | cons b segment =>
      rintro hhead
      rw [List.cons_append, List.head?_cons, Option.some.injEq] at hhead
      exact hnot (hhead ▸ List.mem_cons_self)

/-- Leading slashes of a pattern are leading slashes of its static directory. -/
theorem trimStartSlashes_eq (rel : Bytes) :
    trimStartSlashes rel = trimStartSlashes (globRoot rel) ++ globRemaining rel := by
  -- The rest begins with a wildcard or a name, never with a slash.
  have hrest : trimStartSlashes (globRemaining rel) = globRemaining rel := by
    have hhead := head?_globRemaining rel
    cases hrem : globRemaining rel with
    | nil => rfl
    | cons b rest =>
        have hb : b ≠ slash := by simpa [hrem] using hhead
        simp [trimStartSlashes, hb]
  conv_lhs => rw [← globRoot_append_globRemaining rel]
  unfold trimStartSlashes at hrest ⊢
  rw [List.dropWhile_append, hrest]
  split
  · rename_i hempty
    rw [List.isEmpty_iff.mp hempty, List.nil_append]
  · rfl

/-- **A match continues the static directory** with a match of the rest. -/
theorem globMatches_trimStartSlashes_iff {f : Bytes} :
    globMatches (trimStartSlashes rel) f = true ↔
      ∃ rest, f = trimStartSlashes (globRoot rel) ++ rest ∧
        rest ∈ globLanguage (globRemaining rel) := by
  have hlits : ∀ b ∈ trimStartSlashes (globRoot rel), isWildcard b = false := fun b hb =>
    isWildcard_of_mem_globRoot ((List.dropWhile_suffix _).mem hb)
  rw [globMatches_iff, trimStartSlashes_eq, mem_globLanguage_lits_append hlits]

theorem dirRoot_trimStartSlashes_globRoot (rel : Bytes) :
    DirRoot (trimStartSlashes (globRoot rel)) := by
  rcases dirRoot_globRoot rel with hnil | ⟨d, hd⟩
  · rw [hnil]
    exact Or.inl rfl
  · rw [hd, trimStartSlashes, List.dropWhile_append]
    split
    · exact Or.inl rfl
    · exact Or.inr ⟨_, rfl⟩

/-- The static directory of a pattern with a match is normalised, but for its leading
slashes. -/
theorem normalizeRoot_globRoot {f : Bytes} (hf : NormalizedPath f)
    (hmatch : globMatches (trimStartSlashes rel) f = true) :
    normalizeRoot (globRoot rel) = trimStartSlashes (globRoot rel) := by
  obtain ⟨rest, hrest, -⟩ := globMatches_trimStartSlashes_iff.mp hmatch
  rw [← normalizeRoot_trimStartSlashes,
    normalizeRoot_of_startsWith (dirRoot_trimStartSlashes_globRoot rel) hf
      (hrest ▸ List.prefix_append _ _)]

/-- **Every match lies below the static directory.** -/
theorem match_below_globRoot {f : Bytes} (hf : NormalizedPath f)
    (hmatch : globMatches (trimStartSlashes rel) f = true) :
    normalizeRoot (globRoot rel) <+: f := by
  rw [normalizeRoot_globRoot hf hmatch]
  obtain ⟨rest, rfl, -⟩ := globMatches_trimStartSlashes_iff.mp hmatch
  exact List.prefix_append _ _

/-- **Without recursion, every match is an immediate child** of the static directory. -/
theorem match_in_globRoot (hflat : globRecursive rel = false) {f : Bytes}
    (hf : NormalizedPath f)
    (hmatch : globMatches (trimStartSlashes rel) f = true) :
    ∃ name, slash ∉ name ∧ f = normalizeRoot (globRoot rel) ++ name := by
  obtain ⟨hslash, hdouble⟩ := not_or.mp (of_decide_eq_false hflat)
  rw [normalizeRoot_globRoot hf hmatch]
  obtain ⟨rest, rfl, hrest⟩ := globMatches_trimStartSlashes_iff.mp hmatch
  exact ⟨rest, slash_notMem_of_mem_globLanguage hslash hdouble hrest, rfl⟩

/-- The directory `Glob` lists is the static directory. -/
theorem normalizeRoot_globListDir (rel : Bytes) :
    normalizeRoot (globListDir rel) = normalizeRoot (globRoot rel) := by
  unfold globListDir
  rcases dirRoot_globRoot rel with hnil | ⟨d, hd⟩
  · rw [hnil]
    rfl
  · simp only [hd, List.dropLast_concat, normalizeRoot_append_slash]
    split
    · exact normalizeRoot_append_slash d
    · rfl

theorem dirRoot_globListDir (rel : Bytes) : DirRoot (globListDir rel) := by
  unfold globListDir
  simp only
  split
  · exact Or.inr ⟨_, rfl⟩
  · rename_i hslash
    exact Or.inr (List.getLast?_eq_some_iff.mp (not_not.mp (not_or.mp hslash).2))

/-- A file of the store that matches is not the listed directory itself. -/
theorem not_self_of_match {f : Bytes} (hf : NormalizedPath f)
    (hmatch : globMatches (trimStartSlashes rel) f = true) :
    f ≠ trimEndSlashes (trimStartSlashes (globRoot rel)) ∧
      f ≠ trimEndSlashes (trimStartSlashes (globRoot rel)) ++ [slash] := by
  refine ⟨fun hself => ?_, hf.not_concat_slash _⟩
  obtain ⟨rest, hrest, -⟩ := globMatches_trimStartSlashes_iff.mp hmatch
  have hstarts : trimEndSlashes (trimStartSlashes (globRoot rel)) <+:
      trimStartSlashes (globRoot rel) := List.rdropWhile_prefix _ _
  have hdir : f = trimStartSlashes (globRoot rel) := by
    refine (hself ▸ hstarts).eq_of_length_le ?_
    rw [hrest]
    simp
  rcases dirRoot_trimStartSlashes_globRoot rel with hnil | ⟨d, hd⟩
  · exact hf.ne_nil (hdir.trans hnil)
  · exact hf.not_concat_slash d (hdir.trans hd)

end Pattern

/-! ## What a listing selects -/

/-- The files of a listing that match a pattern path. -/
def matchedFiles (rel : Bytes) (entries : List Entry) : Set Bytes :=
  {f | ∃ e ∈ entries, e.path = f ∧ e.metadata.mode = .FILE ∧
    globMatches (trimStartSlashes rel) f = true}

section Selection

variable {store : Set Bytes} {op : OdOperator} {rel : Bytes}

/-- A listing with every match of a pattern: files and directories only, the paths of
the files normalised, and the matching ones exactly the selection. -/
structure ListsMatches (store : Set Bytes) (rel : Bytes) (entries : List Entry) : Prop where
  modes : ∀ e ∈ entries, e.metadata.mode = .FILE ∨ e.metadata.mode = .DIR
  normalized : ∀ e ∈ entries, e.metadata.mode = .FILE → NormalizedPath e.path
  matched : matchedFiles rel entries = globSelection store rel

/-- A listing of files of the store lists the matches when all of them are listed. -/
theorem ListsFiles.listsMatches {entries : List Entry} {files : Set Bytes}
    (hfiles : ListsFiles entries files) (hstore : ∀ f ∈ store, NormalizedPath f)
    (hsub : files ⊆ store) (hall : globSelection store rel ⊆ files) :
    ListsMatches store rel entries where
  modes := hfiles.modes
  normalized e he hmode := hstore _ (hsub ((hfiles.files _).mp ⟨e, he, rfl, hmode⟩))
  matched := by
    ext f
    constructor
    · rintro ⟨e, he, rfl, hmode, hmatch⟩
      exact ⟨hsub ((hfiles.files _).mp ⟨e, he, rfl, hmode⟩), hmatch⟩
    · intro hf
      obtain ⟨e, he, hpath, hmode⟩ := (hfiles.files f).mpr (hall hf)
      exact ⟨e, he, hpath, hmode, hf.2⟩

/-- **The recursive listing of the static directory** has every match. -/
theorem exists_recursive_listing (hstore : ∀ f ∈ store, NormalizedPath f)
    (hlists : ListsStore op store) (rel : Bytes) :
    ∃ entries, op.lister (globRoot rel) (.plain true) = .ok (entries.map .ok) ∧
      ListsMatches store rel entries := by
  obtain ⟨entries, hlister, hfiles⟩ := hlists.recursive _ (dirRoot_globRoot rel)
  exact ⟨entries, hlister, hfiles.listsMatches hstore (fun f hf => hf.1) fun f hf =>
    ⟨hf.1, match_below_globRoot (hstore f hf.1) hf.2⟩⟩

/-- The files that `Glob` lists for a pattern path: those below the static directory, or
directly in it when the pattern reaches no further. -/
def globListed (store : Set Bytes) (rel : Bytes) : Set Bytes :=
  {f | f ∈ store ∧
    if globRecursive rel then normalizeRoot (globListDir rel) <+: f
    else ∃ name, slash ∉ name ∧ f = normalizeRoot (globListDir rel) ++ name}

/-- They have every match among them. -/
theorem globSelection_subset_globListed (hstore : ∀ f ∈ store, NormalizedPath f) (rel : Bytes) :
    globSelection store rel ⊆ globListed store rel := by
  rintro f ⟨hf, hmatch⟩
  refine ⟨hf, ?_⟩
  rw [normalizeRoot_globListDir]
  cases hflat : globRecursive rel with
  | true => exact match_below_globRoot (hstore f hf) hmatch
  | false => exact match_in_globRoot hflat (hstore f hf) hmatch

/-- **The listing of `Glob`**, recursive only when the pattern needs it. -/
theorem exists_globListed (hlists : ListsStore op store) (rel : Bytes) :
    ∃ entries, op.lister (globListDir rel) (.plain (globRecursive rel)) =
        .ok (entries.map .ok) ∧ ListsFiles entries (globListed store rel) := by
  unfold globListed
  cases globRecursive rel with
  | true => exact hlists.recursive _ (dirRoot_globListDir rel)
  | false => exact hlists.immediate _ (dirRoot_globListDir rel)

/-! ## The front ends, one by one -/

/-- A well-formed path without its leading slashes is still a C string. -/
theorem cstr_trimStartSlashes {path : Bytes} (hutf8 : Utf8.isUtf8 path = true) (h0 : 0 ∉ path) :
    cstr (trimStartSlashes path) = some (trimStartSlashes path) := by
  refine cstr_of_utf8 (fun h => h0 ((List.dropWhile_suffix _).mem h)) ?_
  clear h0
  induction path with
  | nil => rfl
  | cons b path ih =>
      by_cases hb : b = slash
      · subst hb
        rw [Utf8.isUtf8_ascii_cons (by decide)] at hutf8
        exact ih hutf8
      · simpa [trimStartSlashes, hb] using hutf8

theorem cstr_concat_slash {d : Bytes} (hutf8 : Utf8.isUtf8 d = true) (h0 : 0 ∉ d) :
    cstr (d ++ [slash]) = some (d ++ [slash]) := by
  refine cstr_of_utf8 (fun h => ?_) ((Utf8.isUtf8_append_cons_iff (by decide)).mpr ⟨hutf8, rfl⟩)
  rcases List.mem_append.mp h with h | h
  · exact h0 h
  · exact absurd (List.mem_singleton.mp h) (by decide)

/-- The segments of the static directory are part of a C string. -/
theorem cString_of_globRoot (hutf8 : Utf8.isUtf8 rel = true) (h0 : 0 ∉ rel) {d : Bytes}
    (hd : globRoot rel = d ++ [slash]) : Utf8.isUtf8 d = true ∧ 0 ∉ d := by
  rw [← globRoot_append_globRemaining rel, hd, List.append_assoc, List.singleton_append]
    at hutf8 h0
  exact ⟨((Utf8.isUtf8_append_cons_iff (by decide)).mp hutf8).1,
    fun h => h0 (List.mem_append_left _ h)⟩

/-- So is its static directory. -/
theorem cstr_globRoot (hutf8 : Utf8.isUtf8 rel = true) (h0 : 0 ∉ rel) :
    cstr (globRoot rel) = some (globRoot rel) := by
  rcases dirRoot_globRoot rel with hnil | ⟨d, hd⟩
  · rw [hnil]
    rfl
  · obtain ⟨hd8, hd0⟩ := cString_of_globRoot hutf8 h0 hd
    rw [hd]
    exact cstr_concat_slash hd8 hd0

/-- And the directory `Glob` lists. -/
theorem cstr_globListDir (hutf8 : Utf8.isUtf8 rel = true) (h0 : 0 ∉ rel) :
    cstr (globListDir rel) = some (globListDir rel) := by
  unfold globListDir
  rcases dirRoot_globRoot rel with hnil | ⟨d, hd⟩
  · rw [hnil]
    rfl
  · obtain ⟨hd8, hd0⟩ := cString_of_globRoot hutf8 h0 hd
    simp only [hd, List.dropLast_concat]
    split
    · exact cstr_concat_slash hd8 hd0
    · exact cstr_of_utf8 hd0 hd8

/-- The name under which `od_list_entry` reports a path. -/
def listedName (path : Bytes) : Bytes := (CString.new path).getD []

theorem listedName_of_notMem {path : Bytes} (h0 : 0 ∉ path) : listedName path = path := by
  rw [listedName, CString.new, if_neg h0]
  rfl

theorem listedName_of_mem {path : Bytes} (h0 : 0 ∈ path) : listedName path = [] := by
  rw [listedName, CString.new, if_pos h0]
  rfl

/-- A reported name is a C string. -/
theorem cString_listedName {path : Bytes} (hutf8 : Utf8.isUtf8 path = true) :
    0 ∉ listedName path ∧ Utf8.isUtf8 (listedName path) = true := by
  by_cases h0 : 0 ∈ path
  · rw [listedName_of_mem h0]
    exact ⟨List.not_mem_nil, rfl⟩
  · rw [listedName_of_notMem h0]
    exact ⟨h0, hutf8⟩

/-- **The loop of `Glob`** builds one URL for every file whose reported name matches. -/
theorem globUrls_listed {registry : Registry} {u : ResolvedUrl} (hu : u.WellFormed registry)
    {entries : List Entry}
    (hmodes : ∀ e ∈ entries, e.metadata.mode = .FILE ∨ e.metadata.mode = .DIR)
    (hnormalized : ∀ e ∈ entries, e.metadata.mode = .FILE → NormalizedPath e.path) :
    ∃ urls, globUrls u.scheme u.authority (trimStartSlashes u.path) entries = .ok urls ∧
      ∀ url, url ∈ urls ↔ ∃ e ∈ entries, e.metadata.mode = .FILE ∧
        globMatches (trimStartSlashes u.path) (listedName e.path) = true ∧
        u.urlOf (listedName e.path) = url := by
  induction entries with
  | nil => exact ⟨[], rfl, fun url => by simp⟩
  | cons e entries ih =>
      obtain ⟨urls, hurls, hmem⟩ := ih (fun e he => hmodes e (List.mem_cons_of_mem _ he))
        (fun e he => hnormalized e (List.mem_cons_of_mem _ he))
      simp only [List.mem_cons, or_and_right, exists_or, exists_eq_left]
      rcases hmodes e List.mem_cons_self with hfile | hdir
      · obtain ⟨hname0, hname8⟩ := cString_listedName e.utf8
        have htrim : trimStartSlashes (listedName e.path) = listedName e.path := by
          by_cases h0 : 0 ∈ e.path
          · rw [listedName_of_mem h0]
            rfl
          · rw [listedName_of_notMem h0]
            exact trimStartSlashes_of_normalized (hnormalized e List.mem_cons_self hfile)
        have hent : odListEntry e = ⟨listedName e.path, e.metadata.contentLength,
            e.metadata.lastModifiedMs.getD (-1), false⟩ := by
          simp [odListEntry, listedName, Metadata.isDir, hfile]
        have hglob : odGlobMatch (trimStartSlashes u.path) (listedName e.path) =
            globMatches (trimStartSlashes u.path) (listedName e.path) := by
          simp [odGlobMatch, cstr_trimStartSlashes hu.path_utf8 hu.path_nul,
            cstr_of_utf8 hname0 hname8]
        simp only [globUrls, hent, htrim, hglob, Bool.not_false, Bool.true_and, hfile, true_and]
        by_cases hmatch : globMatches (trimStartSlashes u.path) (listedName e.path) = true
        · have hbuild : buildUrl u.scheme u.authority (listedName e.path) =
              .ok (u.urlOf (listedName e.path)) := by
            rw [buildUrl, hu.odUrlBuild_eq hname8 hname0]
          rw [if_pos hmatch, hbuild, hurls]
          refine ⟨u.urlOf (listedName e.path) :: urls, rfl, fun url => ?_⟩
          rw [List.mem_cons, hmem, eq_comm]
          simp [hmatch]
        · rw [if_neg hmatch]
          refine ⟨urls, hurls, fun url => (hmem url).trans ?_⟩
          simp [hmatch]
      · have hent : (odListEntry e).isDir = true := by simp [odListEntry, Metadata.isDir, hdir]
        simp only [globUrls, hent, Bool.not_true, Bool.false_and, Bool.false_eq_true, if_false]
        refine ⟨urls, hurls, fun url => (hmem url).trans ?_⟩
        simp [hdir]

variable {registry : Registry} {operators : ResolvedUrl → Except Bytes OdOperator}
  {u : ResolvedUrl}

/-- The listed files whose reported name matches. -/
def globbed (store : Set Bytes) (rel : Bytes) : Set Bytes :=
  {f | f ∈ globListed store rel ∧ globMatches (trimStartSlashes rel) (listedName f) = true}

/-- **What `Glob` does to a URL with a wildcard**: it builds one URL for every listed file
whose reported name matches. -/
theorem fileSystemGlob_globbed {url : Bytes} (hurl : parseUrl registry url = some u)
    (hwild : hasGlob url = true) (hop : operators u = .ok op)
    (hstore : ∀ f ∈ store, NormalizedPath f) (hlists : ListsStore op store)
    (haveContext : Bool) :
    ∃ urls, fileSystemGlob registry operators haveContext url = .ok urls ∧
      urls.Pairwise (· < ·) ∧
      ∀ r, r ∈ urls ↔ ∃ f ∈ globbed store u.path, u.urlOf (listedName f) = r := by
  have hu := wellFormed_of_parseUrl hurl
  obtain ⟨entries, hlister, hfiles⟩ := exists_globListed hlists u.path
  have hlist : odList op (globListDir u.path) (globRecursive u.path) = .ok entries := by
    simp only [odList, require, hlists.cap_list, if_true,
      requireCstr_eq_ok.mpr (cstr_globListDir hu.path_utf8 hu.path_nul)]
    exact orOpendalError_eq_ok.mpr (OdOperator.listOptions_eq hlister)
  obtain ⟨urls, hurls, hmem⟩ := globUrls_listed hu hfiles.modes fun e he hmode =>
    hstore _ ((hfiles.files _).mp ⟨e, he, rfl, hmode⟩).1
  refine ⟨sortUnique urls, ?_, sortUnique_pairwise urls, fun r => ?_⟩
  · simp only [fileSystemGlob, hurl, hwild, hop, Bool.true_eq_false, if_false, ok_bind, hlist,
      hurls]
    rfl
  · rw [mem_sortUnique, hmem]
    constructor
    · rintro ⟨e, he, hmode, hmatch, rfl⟩
      exact ⟨e.path, ⟨(hfiles.files _).mp ⟨e, he, rfl, hmode⟩, hmatch⟩, rfl⟩
    · rintro ⟨f, ⟨hf, hmatch⟩, rfl⟩
      obtain ⟨e, he, rfl, hmode⟩ := (hfiles.files f).mpr hf
      exact ⟨e, he, hmode, hmatch, rfl⟩

/-- **`Glob`** returns the URLs of the selected files, sorted and once each. -/
theorem fileSystemGlob_selects {url : Bytes} (hurl : parseUrl registry url = some u)
    (hwild : hasGlob url = true) (hop : operators u = .ok op)
    (hstore : ∀ f ∈ store, NormalizedPath f) (hlists : ListsStore op store)
    (hnul : NulFreeListings op) (haveContext : Bool) :
    ∃ urls, fileSystemGlob registry operators haveContext url = .ok urls ∧
      urls.Pairwise (· < ·) ∧
      Set.BijOn u.urlOf (globSelection store u.path) {url | url ∈ urls} := by
  obtain ⟨urls, hglob, hsorted, hmem⟩ :=
    fileSystemGlob_globbed hurl hwild hop hstore hlists haveContext
  -- Without a NUL, a file is reported under its own path.
  have hplain : ∀ f ∈ globListed store u.path, listedName f = f := by
    intro f hf
    obtain ⟨entries, hlister, hfiles⟩ := exists_globListed hlists u.path
    obtain ⟨e, he, rfl, -⟩ := (hfiles.files f).mpr hf
    exact listedName_of_notMem (hnul _ _ _ hlister e (List.mem_map_of_mem he)).1
  have himage : {url | url ∈ urls} = u.urlOf '' globSelection store u.path := by
    ext url
    rw [Set.mem_ofPred_eq, hmem]
    constructor
    · rintro ⟨f, ⟨hf, hmatch⟩, rfl⟩
      rw [hplain f hf] at hmatch ⊢
      exact ⟨f, ⟨hf.1, hmatch⟩, rfl⟩
    · rintro ⟨f, hf, rfl⟩
      have hlisted := globSelection_subset_globListed hstore u.path hf
      refine ⟨f, ⟨hlisted, ?_⟩, ?_⟩
      · rw [hplain f hlisted]
        exact hf.2
      · rw [hplain f hlisted]
  refine ⟨urls, hglob, hsorted, ?_⟩
  rw [himage]
  exact u.urlOf_injective.injOn.bijOn_image

/-- **`opendal_ls`**: the file rows of the whole scan are the selected files. -/
theorem odTableGlobOpen_selects {getBasename : Bytes → Bytes}
    (hbase : ∀ path, getBasename path <:+ path) (hu : u.WellFormed registry)
    (hglob : hasGlob u.path = true) (hstore : ∀ f ∈ store, NormalizedPath f)
    (hlists : ListsStore op store) (hnul : NulFreeListings op) (recursive : Bool) :
    ∃ cursor rows, odTableGlobOpen op u.path (.plain recursive) = .ok cursor ∧
      Cursor.Drains (odTableCursorNext getBasename) cursor rows (.ok ()) ∧
      {f | ∃ row ∈ rows, row.path = f ∧ row.mode = EntryMode.FILE.code} =
        globSelection store u.path := by
  obtain ⟨entries, hlister, hentries⟩ := exists_recursive_listing hstore hlists u.path
  have hpattern := cstr_trimStartSlashes hu.path_utf8 hu.path_nul
  have hnew : CString.new (trimStartSlashes u.path) = some (trimStartSlashes u.path) :=
    CString.new_eq_some_iff.mpr ⟨fun h => hu.path_nul ((List.dropWhile_suffix _).mem h), rfl⟩
  have hopen := odTableListOpen_eq (some (trimStartSlashes u.path))
    (cstr_globRoot hu.path_utf8 hu.path_nul) (by simp [optionalCstr, hpattern]) hlists.cap_list
    hlister
  refine ⟨_, _, ?_, OdTableCursor.drains_of_nulFree hbase
    ⟨.list (entries.map .ok), some (trimStartSlashes u.path),
      some (trimEndSlashes (trimStartSlashes (globRoot u.path))), none⟩ rfl fun e he =>
    hnul _ _ _ hlister e (List.mem_map_of_mem he), ?_⟩
  · simp only [odTableGlobOpen, requireCstr_eq_ok.mpr (cstr_of_utf8 hu.path_nul hu.path_utf8),
      ok_bind, hglob, Bool.true_eq_false, if_false, hnew]
    exact hopen
  · rw [← hentries.matched]
    ext f
    simp only [Set.mem_ofPred_eq, List.mem_filter, List.mem_map, matchedFiles]
    constructor
    · rintro ⟨_, ⟨⟨e, he, rfl⟩, hkeep⟩, rfl, hmode⟩
      have hmode : e.metadata.mode = .FILE := EntryMode.code_injective hmode
      refine ⟨e, he, rfl, hmode, ?_⟩
      simp [OdTableCursor.isUnmatched] at hkeep
      exact hkeep.2
    · rintro ⟨e, he, rfl, hmode, hmatch⟩
      refine ⟨_, ⟨⟨e, he, rfl⟩, ?_⟩, rfl, congrArg EntryMode.code hmode⟩
      obtain ⟨hne, hne'⟩ := not_self_of_match (hentries.normalized e he hmode) hmatch
      simp [OdTableCursor.isSelf, OdTableCursor.isUnmatched, OwnedRow.ofParts, hne, hne', hmatch]

/-- **`opendal_du`**: the files rolled up are the selected files. -/
theorem odTableDuOpen_selects (hu : u.WellFormed registry) (hglob : hasGlob u.path = true)
    (hstore : ∀ f ∈ store, NormalizedPath f) (hlists : ListsStore op store) (recursive : Bool) :
    ∃ entries, duEntries op u.path (.plain recursive) = .ok entries ∧
      {f | ∃ e ∈ entries, e.1 = f ∧ e.2.isFile = true} = globSelection store u.path ∧
      ∀ cursor, odTableDuOpen op u.path (.plain recursive) = .ok cursor → ∀ directory,
        directory ∈ cursor.rows.map OwnedDuRow.directory ↔
          ∃ f ∈ globSelection store u.path, parent f = directory := by
  obtain ⟨entries, hlister, hentries⟩ := exists_recursive_listing hstore hlists u.path
  have hselected : duEntries op u.path (.plain recursive) = .ok
      ((entries.filter fun e => globMatches (trimStartSlashes u.path) e.path).map
        Entry.intoParts) := by
    have hlist : op.listOptions (globRoot u.path)
        { ListOptions.plain recursive with recursive := true } = .ok entries :=
      OdOperator.listOptions_eq hlister
    simp only [duEntries, hglob, if_true, hlist, ok_bind]
    rfl
  have hfiles : {f | ∃ e ∈ (entries.filter fun e =>
      globMatches (trimStartSlashes u.path) e.path).map Entry.intoParts,
        e.1 = f ∧ e.2.isFile = true} = globSelection store u.path := by
    rw [← hentries.matched]
    ext f
    simp only [Set.mem_ofPred_eq, List.mem_map, List.mem_filter, matchedFiles]
    constructor
    · rintro ⟨_, ⟨e, ⟨he, hmatch⟩, rfl⟩, rfl, hmode⟩
      exact ⟨e, he, rfl, by simpa [Metadata.isFile, Entry.intoParts] using hmode,
        hmatch⟩
    · rintro ⟨e, he, rfl, hmode, hmatch⟩
      exact ⟨_, ⟨e, ⟨he, hmatch⟩, rfl⟩, rfl,
        by simpa [Metadata.isFile, Entry.intoParts] using hmode⟩
  refine ⟨_, hselected, hfiles, fun cursor hcursor directory => ?_⟩
  rw [odTableDuOpen_directories (cstr_of_utf8 hu.path_nul hu.path_utf8)
    (listOptions_plain recursive) hselected hcursor, ← hfiles]
  constructor
  · rintro ⟨e, he, hfile, hparent⟩
    exact ⟨e.1, ⟨e, he, rfl, hfile⟩, hparent⟩
  · rintro ⟨_, ⟨e, he, rfl, hfile⟩, hparent⟩
    exact ⟨e, he, hfile, hparent⟩

/-- **`opendal_copy`**: the plan opens unless an argument is refused, and its sources are
the selected files. -/
theorem odTableCopyOpen_selects (hu : u.WellFormed registry) (hglob : hasGlob u.path = true)
    (hstore : ∀ f ∈ store, NormalizedPath f) (hlists : ListsStore op store)
    {destinationOp : OdOperator} {destination : Bytes} {rawOptions : OdCopyOptions}
    {options : CopyOptions} (hdestination : cstr destination = some destination)
    (hoptions : copyOptions rawOptions = .ok options)
    (hsingle : refuseSingleFileOptions options = .ok ())
    (hchecks : copyChecks op destinationOp options = .ok ()) :
    ∃ cursor, odTableCopyOpen op u.path destinationOp destination rawOptions = .ok cursor ∧
      {f | ∃ p ∈ cursor.plan, p.source = f} = globSelection store u.path := by
  obtain ⟨entries, hlister, hentries⟩ := exists_recursive_listing hstore hlists u.path
  have hplan : copyPlan op u.path destination options = .ok
      (planEntries (globRoot u.path) destination (globMatches (trimStartSlashes u.path))
        entries) := by
    simp only [copyPlan, hglob, if_true, hsingle, ok_bind,
      orOpendalError_eq_ok.mpr (OdOperator.listOptions_eq hlister)]
    rfl
  refine ⟨_, odTableCopyOpen_eq (cstr_of_utf8 hu.path_nul hu.path_utf8) hdestination hoptions
    hchecks hplan, ?_⟩
  rw [← hentries.matched]
  ext f
  simp only [Set.mem_ofPred_eq, planEntries, List.mem_map, List.mem_filter, Bool.and_eq_true,
    matchedFiles]
  constructor
  · rintro ⟨_, ⟨e, ⟨he, hfile, hmatch⟩, rfl⟩, rfl⟩
    exact ⟨e, he, rfl, by simpa [Metadata.isFile] using hfile, hmatch⟩
  · rintro ⟨e, he, rfl, hmode, hmatch⟩
    exact ⟨_, ⟨e, ⟨he, by simpa [Metadata.isFile] using hmode, hmatch⟩, rfl⟩, rfl⟩

end Selection

/-! ## The four front ends together -/

/-- The four front ends, given one URL, select these files: `Glob` returns the URL of
each, once and in order; the file rows of `opendal_ls`, the files `opendal_du` rolls up and
the sources `opendal_copy` plans are the files themselves. -/
structure FrontEndsSelect (getBasename : Bytes → Bytes) (registry : Registry)
    (operators : ResolvedUrl → Except Bytes OdOperator) (op : OdOperator) (url : Bytes)
    (u : ResolvedUrl) (files : Set Bytes) : Prop where
  urls : ∀ f ∈ files, odUrlBuild u.scheme u.authority f = some (u.urlOf f)
  glob : ∀ haveContext, ∃ urls, fileSystemGlob registry operators haveContext url = .ok urls ∧
    urls.Pairwise (· < ·) ∧ Set.BijOn u.urlOf files {url | url ∈ urls}
  ls : ∀ recursive, ∃ cursor rows,
    odTableGlobOpen op u.path (.plain recursive) = .ok cursor ∧
      Cursor.Drains (odTableCursorNext getBasename) cursor rows (.ok ()) ∧
      {f | ∃ row ∈ rows, row.path = f ∧ row.mode = EntryMode.FILE.code} = files
  du : ∀ recursive, ∃ entries, duEntries op u.path (.plain recursive) = .ok entries ∧
    {f | ∃ e ∈ entries, e.1 = f ∧ e.2.isFile = true} = files ∧
    ∀ cursor, odTableDuOpen op u.path (.plain recursive) = .ok cursor → ∀ directory,
      directory ∈ cursor.rows.map OwnedDuRow.directory ↔ ∃ f ∈ files, parent f = directory
  copy : ∀ destinationOp destination rawOptions options,
    cstr destination = some destination → copyOptions rawOptions = .ok options →
      refuseSingleFileOptions options = .ok () →
      copyChecks op destinationOp options = .ok () →
      ∃ cursor, odTableCopyOpen op u.path destinationOp destination rawOptions = .ok cursor ∧
        {f | ∃ p ∈ cursor.plan, p.source = f} = files

/-- **The four glob front ends agree.**  Over a store of normalised paths, listed without
NUL bytes, each selects exactly the files of the whole store that match the pattern
without its leading slashes. -/
theorem globFrontEnds_agree {getBasename : Bytes → Bytes}
    (hbase : ∀ path, getBasename path <:+ path) {registry : Registry}
    {operators : ResolvedUrl → Except Bytes OdOperator} {op : OdOperator} {url : Bytes}
    {u : ResolvedUrl} {store : Set Bytes} (hurl : parseUrl registry url = some u)
    (hop : operators u = .ok op) (hwild : hasGlob url = true) (hglob : hasGlob u.path = true)
    (hstore : ∀ f ∈ store, NormalizedPath f) (hlists : ListsStore op store)
    (hnul : NulFreeListings op) :
    FrontEndsSelect getBasename registry operators op url u (globSelection store u.path) := by
  have hu := wellFormed_of_parseUrl hurl
  refine ⟨?_, ?_, ?_, ?_, ?_⟩
  · intro f hf
    obtain ⟨entries, hlister, hentries⟩ := exists_recursive_listing hstore hlists u.path
    rw [← hentries.matched] at hf
    obtain ⟨e, he, rfl, -⟩ := hf
    exact hu.odUrlBuild_eq e.utf8 (hnul _ _ _ hlister e (List.mem_map_of_mem he)).1
  · exact fileSystemGlob_selects hurl hwild hop hstore hlists hnul
  · exact odTableGlobOpen_selects hbase hu hglob hstore hlists hnul
  · exact odTableDuOpen_selects hu hglob hstore hlists
  · intro destinationOp destination rawOptions options hdestination hoptions hsingle hchecks
    exact odTableCopyOpen_selects hu hglob hstore hlists hdestination hoptions hsingle hchecks

/-- Three files, two of them in a directory. -/
def threeFiles : List Entry :=
  [fileEntry (ascii "data/a.csv") (by decide) 1, fileEntry (ascii "data/b.txt") (by decide) 2,
    fileEntry (ascii "c.csv") (by decide) 3]

/-- The front ends on `/data/*.csv` over three files. -/
theorem globFrontEnds_agree_csv :
    FrontEndsSelect (Text.afterLast slash) defaultRegistry
      (fun _ => .ok (storeOperator .all threeFiles)) (storeOperator .all threeFiles)
      (ascii "memory://b//data/*.csv") ⟨ascii "memory", ascii "b", ascii "/data/*.csv"⟩
      (globSelection {f | ∃ e ∈ threeFiles, e.path = f} (ascii "/data/*.csv")) :=
  globFrontEnds_agree (Text.afterLast_suffix slash) (by decide) rfl (by decide)
    (by decide) (by rintro f ⟨e, he, rfl⟩; revert e; decide)
    (storeOperator_listsStore rfl (by decide))
    (storeOperator_nulFree (by unfold Entry.NulFree; decide))

/-- A file whose name holds a NUL. -/
def nulFile : List Entry := [fileEntry [0x61, 0, 0x62] (by decide) 1]

/-- With a NUL in a name, the front ends disagree: `Glob` returns the URL of the root. -/
theorem globFrontEnds_nul :
    parseUrl defaultRegistry (ascii "memory://b/*") =
        some ⟨ascii "memory", ascii "b", ascii "*"⟩ ∧
      (∀ f ∈ {f | ∃ e ∈ nulFile, e.path = f}, NormalizedPath f) ∧
      ListsStore (storeOperator .all nulFile) {f | ∃ e ∈ nulFile, e.path = f} ∧
      ¬ FrontEndsSelect (Text.afterLast slash) defaultRegistry
        (fun _ => .ok (storeOperator .all nulFile)) (storeOperator .all nulFile)
        (ascii "memory://b/*") ⟨ascii "memory", ascii "b", ascii "*"⟩
        (globSelection {f | ∃ e ∈ nulFile, e.path = f} (ascii "*")) := by
  refine ⟨by decide, by rintro f ⟨e, he, rfl⟩; revert e; decide,
    storeOperator_listsStore rfl (by decide), fun h => ?_⟩
  obtain ⟨urls, hurls, -, hbij⟩ := h.glob true
  have hroot : fileSystemGlob defaultRegistry (fun _ => .ok (storeOperator .all nulFile)) true
      (ascii "memory://b/*") = .ok [ascii "memory://b/"] := by decide +kernel
  cases hroot.symm.trans hurls
  have hmatch : [0x61, 0, 0x62] ∈ globSelection {f | ∃ e ∈ nulFile, e.path = f} (ascii "*") :=
    ⟨⟨_, List.mem_singleton.mpr rfl, rfl⟩, by decide +kernel⟩
  have himage := hbij.mapsTo hmatch
  revert himage
  decide

end DuckdbOpendal
