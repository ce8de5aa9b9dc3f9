import DuckdbOpendal.GlobUrls

/-!
# The URLs that a glob returns, as names

`Glob` returns one URL for every file it selects, and the readers hand that URL back to
`Glob` before they open it.  `BuildUrl` escapes a `?` in the file's path but no `*`, no
`[` and no backslash, so the URL of a file can be read as a pattern, or as another path.

## Main Definitions

* `StatsFiles` — an operator that finds the files of a store
* `NamesItself` — a returned URL that leads back to its file, and to nothing else

## Main Results

* `fileSystemGlob_urlOf_wild_iff`, `fileSystemGlob_urlOf_plain` — a file's URL, read again
* `glob_namesItself_iff` — which of the returned URLs do
-/

namespace DuckdbOpendal

/-! ## The wildcards of a written URL -/

/-- Of the wildcards of a path, its URL spells the stars and the brackets. -/
theorem hasGlob_encodePath_iff (path : Bytes) :
    hasGlob (encodePath path) = true ↔ starByte ∈ path ∨ openBracket ∈ path := by
  have hkeep : ∀ b, b = starByte ∨ b = openBracket → (b ∈ encodePath path ↔ b ∈ path) := by
    rintro b (rfl | rfl)
    · rw [encodePath_eq]
      exact PercentCode.mem_encode_iff (by decide) (by decide) path
    · rw [encodePath_eq]
      exact PercentCode.mem_encode_iff (by decide) (by decide) path
  rw [hasGlob_iff]
  constructor
  · rintro ⟨b, hb, hwild⟩
    rcases isWildcard_iff.mp hwild with rfl | rfl | rfl
    · exact Or.inl ((hkeep _ (Or.inl rfl)).mp hb)
    · exact absurd rfl (mem_encodePath hb).2.1
    · exact Or.inr ((hkeep _ (Or.inr rfl)).mp hb)
  · rintro (h | h)
    · exact ⟨starByte, (hkeep _ (Or.inl rfl)).mpr h, rfl⟩
    · exact ⟨openBracket, (hkeep _ (Or.inr rfl)).mpr h, rfl⟩

theorem hasGlob_append (s t : Bytes) :
    hasGlob (s ++ t) = true ↔ hasGlob s = true ∨ hasGlob t = true := by
  simp [hasGlob]

/-- A scheme has no wildcard. -/
theorem hasGlob_scheme {registry : Registry} {scheme : Bytes} (h : scheme ∈ registry.schemes) :
    hasGlob scheme = false := by
  rw [← Bool.not_eq_true, hasGlob_iff]
  rintro ⟨b, hb, hwild⟩
  have hplain := registry.lowercase scheme h b hb
  rcases isWildcard_iff.mp hwild with rfl | rfl | rfl
  all_goals exact absurd hplain (by decide)

/-- The wildcards of a written URL are those of its authority and of its path. -/
theorem ResolvedUrl.WellFormed.hasGlob_urlOf {registry : Registry} {u : ResolvedUrl}
    (hu : u.WellFormed registry) (path : Bytes) :
    hasGlob (u.urlOf path) = true ↔
      hasGlob u.authority = true ∨ starByte ∈ path ∨ openBracket ∈ path := by
  have hslash : hasGlob (slash :: encodePath path) = hasGlob (encodePath path) := rfl
  rw [ResolvedUrl.urlOf, hasGlob_append, hasGlob_append, hasGlob_append, hslash,
    hasGlob_encodePath_iff, hasGlob_scheme hu.scheme]
  simp [show hasGlob schemeSep = false from rfl]

/-! ## Names and files -/

/-- The operator finds every file of the store, as a file. -/
structure StatsFiles (op : OdOperator) (store : Set Bytes) : Prop where
  cap_stat : op.cap.stat = true
  stat : ∀ f ∈ store, ∃ metadata, op.stat f none = .ok metadata ∧ metadata.isDir = false

/-- Only a file reports its own path under that name. -/
theorem eq_of_listedName {f f' : Bytes} (hf : f ≠ []) (h : listedName f' = f) : f' = f := by
  by_cases h0 : 0 ∈ f'
  · rw [listedName_of_mem h0] at h
    exact absurd h.symm hf
  · rwa [listedName_of_notMem h0] at h

/-- The URL of a match without a NUL in its path is returned. -/
theorem mem_globbed {store : Set Bytes} (hstore : ∀ f ∈ store, NormalizedPath f) {rel f : Bytes}
    (hf : f ∈ store) (h0 : 0 ∉ f) (hmatch : globMatches (trimStartSlashes rel) f = true) :
    f ∈ globbed store rel := by
  refine ⟨globSelection_subset_globListed hstore rel ⟨hf, hmatch⟩, ?_⟩
  rwa [listedName_of_notMem h0]

section Names

variable {registry : Registry} {operators : ResolvedUrl → Except Bytes OdOperator}
  {op : OdOperator} {store : Set Bytes} {u : ResolvedUrl}

/-- **The URL returned for a file names it**: `Glob` returns that URL again and nothing
else, and `ParseUrl` reads the path of the file from it. -/
def NamesItself (registry : Registry) (operators : ResolvedUrl → Except Bytes OdOperator)
    (u : ResolvedUrl) (f : Bytes) : Prop :=
  let r := u.urlOf (listedName f)
  fileSystemGlob registry operators true r = .ok [r] ∧
    parseUrl registry r = some ⟨u.scheme, u.authority, f⟩

/-- What `ParseUrl` reads from a written URL. -/
theorem ResolvedUrl.WellFormed.parseUrl_urlOf (hu : u.WellFormed registry) {path : Bytes}
    (hutf8 : Utf8.isUtf8 path = true) (h0 : 0 ∉ path) :
    parseUrl registry (u.urlOf path) =
      some ⟨u.scheme, u.authority, path.map unbackslash⟩ := by
  rw [parseUrl, odUrlResolve, ResolvedUrl.urlOf,
    resolve_url hu.scheme hu.authority_utf8 hu.authority_plain hutf8 h0]
  rfl

/-- The URL of a listed file leads back to its path, unless that has a NUL or a
backslash. -/
theorem parseUrl_urlOf_listedName_iff (hu : u.WellFormed registry) {f : Bytes} (hf : f ≠ [])
    (hutf8 : Utf8.isUtf8 f = true) :
    parseUrl registry (u.urlOf (listedName f)) = some ⟨u.scheme, u.authority, f⟩ ↔
      0 ∉ f ∧ backslash ∉ f := by
  obtain ⟨hname0, hname8⟩ := cString_listedName hutf8
  rw [hu.parseUrl_urlOf hname8 hname0, Option.some.injEq, ResolvedUrl.mk.injEq]
  constructor
  · rintro ⟨-, -, hpath⟩
    have h0 : 0 ∉ f := by
      intro h0
      rw [listedName_of_mem h0] at hpath
      exact hf hpath.symm
    refine ⟨h0, ?_⟩
    rw [← hpath]
    exact backslash_notMem_map _
  · rintro ⟨h0, hback⟩
    rw [listedName_of_notMem h0]
    exact ⟨rfl, rfl, map_eq_self fun b hb => unbackslash_of_ne fun h => hback (h ▸ hb)⟩

/-- A file that is there is found. -/
theorem fileExists_of_statsFiles (hstats : StatsFiles op store) {url f : Bytes}
    (hurl : parseUrl registry url = some ⟨u.scheme, u.authority, f⟩)
    (hop : operators ⟨u.scheme, u.authority, f⟩ = .ok op) (hf : f ∈ store) :
    fileExists registry operators url = .ok true := by
  obtain ⟨metadata, hstat, hdir⟩ := hstats.stat f hf
  have hu := wellFormed_of_parseUrl hurl
  have hmeta : odStat op f =
      .ok ⟨metadata.contentLength, metadata.lastModifiedMs.getD (-1), metadata.isDir⟩ := by
    simp only [odStat, require, hstats.cap_stat, if_true,
      requireCstr_eq_ok.mpr (cstr_of_utf8 hu.path_nul hu.path_utf8), ok_bind,
      orOpendalError_eq_ok.mpr hstat]
    rfl
  simp only [fileExists, hurl, hop, ok_bind, hmeta, hdir]
  rfl

/-- An increasing list with one member has no other. -/
theorem eq_singleton_iff_of_pairwise {urls : List Bytes} (hsorted : urls.Pairwise (· < ·))
    (r : Bytes) : urls = [r] ↔ ∀ x, x ∈ urls ↔ x = r := by
  constructor
  · rintro rfl x
    exact List.mem_singleton
  · intro h
    have hnodup : urls.Nodup := hsorted.imp fun hlt => ne_of_lt hlt
    exact List.perm_singleton.mp
      ((List.perm_ext_iff_of_nodup hnodup (List.nodup_singleton r)).mpr fun x => by
        rw [h, List.mem_singleton])

/-- **A file's URL read as a pattern** selects that file alone if and only if the file's
path matches itself and no other listed file. -/
theorem fileSystemGlob_urlOf_wild_iff {f : Bytes}
    (hagain : parseUrl registry (u.urlOf f) = some ⟨u.scheme, u.authority, f⟩)
    (hop : operators ⟨u.scheme, u.authority, f⟩ = .ok op)
    (hstore : ∀ f ∈ store, NormalizedPath f) (hlists : ListsStore op store) (hf : f ∈ store)
    (h0 : 0 ∉ f) (hwild : hasGlob (u.urlOf f) = true) :
    fileSystemGlob registry operators true (u.urlOf f) = .ok [u.urlOf f] ↔
      globMatches f f = true ∧
        ∀ f' ∈ globListed store f, globMatches f (listedName f') = true → f' = f := by
  obtain ⟨urls, hurls, hsorted, hmem⟩ :=
    fileSystemGlob_globbed hagain hwild hop hstore hlists true
  have htrim := trimStartSlashes_of_normalized (hstore f hf)
  have hname : ∀ f', u.urlOf (listedName f') = u.urlOf f → f' = f := fun f' h =>
    eq_of_listedName (hstore f hf).ne_nil (u.urlOf_injective h)
  rw [hurls, Except.ok.injEq, eq_singleton_iff_of_pairwise hsorted]
  constructor
  · intro honly
    -- The URL is among the results, so some listed file matches, and it is this one.
    obtain ⟨f', ⟨-, hmatch⟩, hf'⟩ := (hmem _).mp ((honly _).mpr rfl)
    obtain rfl := hname f' hf'
    refine ⟨?_, fun f'' hlisted hmatch'' => ?_⟩
    · rwa [listedName_of_notMem h0, htrim] at hmatch
    · refine hname f'' ((honly _).mp ((hmem _).mpr ⟨f'', ⟨hlisted, ?_⟩, rfl⟩))
      rwa [htrim]
  · rintro ⟨hself, hother⟩ x
    rw [hmem]
    constructor
    · rintro ⟨f', ⟨hlisted, hmatch⟩, rfl⟩
      rw [htrim] at hmatch
      rw [hother f' hlisted hmatch, listedName_of_notMem h0]
      rfl
    · rintro rfl
      refine ⟨f, mem_globbed hstore hf h0 (by rwa [htrim]), ?_⟩
      rw [listedName_of_notMem h0]
      rfl

/-- **A file's URL without wildcards** is looked up, and found. -/
theorem fileSystemGlob_urlOf_plain {f : Bytes}
    (hagain : parseUrl registry (u.urlOf f) = some ⟨u.scheme, u.authority, f⟩)
    (hop : operators ⟨u.scheme, u.authority, f⟩ = .ok op) (hstats : StatsFiles op store)
    (hf : f ∈ store) (hplain : hasGlob (u.urlOf f) = false) :
    fileSystemGlob registry operators true (u.urlOf f) = .ok [u.urlOf f] := by
  have hfound := fileExists_of_statsFiles hstats hagain hop hf
  simp only [fileSystemGlob, hagain, hplain, if_true, Bool.true_eq_false, if_false, hfound,
    ok_bind]
  rfl

/-- **Which of the returned URLs name their file**: those of the paths without a NUL and
without a backslash that, where the URL still has a wildcard, match themselves as a
pattern and no other listed file. -/
theorem glob_namesItself_iff {url : Bytes} (hurl : parseUrl registry url = some u)
    (hwild : hasGlob url = true)
    (hop : ∀ path, operators ⟨u.scheme, u.authority, path⟩ = .ok op)
    (hstore : ∀ f ∈ store, NormalizedPath f) (hlists : ListsStore op store)
    (hstats : StatsFiles op store) :
    ∃ urls, fileSystemGlob registry operators true url = .ok urls ∧
      (∀ r, r ∈ urls ↔ ∃ f ∈ globbed store u.path, u.urlOf (listedName f) = r) ∧
      ∀ f ∈ globbed store u.path, NamesItself registry operators u f ↔
        0 ∉ f ∧ backslash ∉ f ∧
          (hasGlob u.authority = true ∨ starByte ∈ f ∨ openBracket ∈ f →
            globMatches f f = true ∧
              ∀ f' ∈ globListed store f, globMatches f (listedName f') = true → f' = f) := by
  have hu := wellFormed_of_parseUrl hurl
  obtain ⟨urls, hglob, -, hmem⟩ :=
    fileSystemGlob_globbed hurl hwild (hop u.path) hstore hlists true
  refine ⟨urls, hglob, hmem, ?_⟩
  rintro f ⟨hlisted, -⟩
  have hutf8 : Utf8.isUtf8 f = true := by
    obtain ⟨entries, -, hfiles⟩ := exists_globListed hlists u.path
    obtain ⟨e, -, rfl, -⟩ := (hfiles.files f).mpr hlisted
    exact e.utf8
  have hparse := parseUrl_urlOf_listedName_iff hu (hstore f hlisted.1).ne_nil hutf8
  rw [NamesItself, and_comm, hparse, and_assoc]
  refine and_congr_right fun h0 => and_congr_right fun hback => ?_
  have hagain := hparse.mpr ⟨h0, hback⟩
  rw [listedName_of_notMem h0] at hagain ⊢
  -- The URL is read as a pattern again exactly when it still has a wildcard.
  rw [← hu.hasGlob_urlOf]
  by_cases hpattern : hasGlob (u.urlOf f) = true
  · rw [fileSystemGlob_urlOf_wild_iff hagain (hop f) hstore hlists hlisted.1 h0 hpattern]
    exact (imp_iff_right hpattern).symm
  · have hself := fileSystemGlob_urlOf_plain hagain (hop f) hstats hlisted.1
      (Bool.not_eq_true _ ▸ hpattern)
    exact iff_of_true hself fun h => absurd h hpattern

end Names

theorem storeOperator_statsFiles {cap : Capability} {files : List Entry} (hcap : cap.stat = true)
    (hfiles : ∀ e ∈ files, e.metadata.mode = .FILE) :
    StatsFiles (storeOperator cap files) {f | ∃ e ∈ files, e.path = f} where
  cap_stat := hcap
  stat f hf := by
    obtain ⟨e, he, rfl⟩ := hf
    have hfind : (files.find? fun e' => e'.path = e.path).isSome := by
      rw [List.find?_isSome]
      exact ⟨e, he, by simp⟩
    obtain ⟨e', he'⟩ := Option.isSome_iff_exists.mp hfind
    refine ⟨e'.metadata, ?_, ?_⟩
    · simp only [storeOperator, he']
    · simp [Metadata.isDir, hfiles e' (List.mem_of_find?_eq_some he')]

/-- Every URL leads to one store, with a file named like a pattern. -/
def starOperators (_ : ResolvedUrl) : Except Bytes OdOperator := .ok (storeOperator .all starFiles)

/-- Of the two URLs that `*` returns, the one without a star names its file. -/
theorem glob_namesItself_star :
    NamesItself defaultRegistry starOperators ⟨ascii "memory", ascii "b", ascii "*"⟩
        (ascii "axb") ∧
      ¬ NamesItself defaultRegistry starOperators ⟨ascii "memory", ascii "b", ascii "*"⟩
        (ascii "a*b") := by
  have hurl : parseUrl defaultRegistry (ascii "memory://b/*") =
      some ⟨ascii "memory", ascii "b", ascii "*"⟩ := by decide
  have hstore : ∀ f ∈ {f | ∃ e ∈ starFiles, e.path = f}, NormalizedPath f := by
    rintro f ⟨e, he, rfl⟩
    revert e
    decide
  obtain ⟨urls, -, -, hnames⟩ := glob_namesItself_iff hurl (by decide)
    (fun _ => (rfl : starOperators _ = .ok (storeOperator .all starFiles))) hstore
    (storeOperator_listsStore rfl (by decide)) (storeOperator_statsFiles rfl (by decide))
  have hnul : ∀ e ∈ starFiles, 0 ∉ e.path := by decide
  have hfile : ∀ e ∈ starFiles, ∀ rel, globMatches (trimStartSlashes rel) e.path = true →
      e.path ∈ globbed {f | ∃ e ∈ starFiles, e.path = f} rel := fun e he rel hmatch =>
    mem_globbed hstore ⟨e, he, rfl⟩ (hnul e he) hmatch
  have hstar := hfile (fileEntry (ascii "a*b") (by decide) 1) (by decide)
  have hplain := hfile (fileEntry (ascii "axb") (by decide) 1) (by decide)
  constructor
  · refine (hnames _ (hplain (ascii "*") (by decide +kernel))).mpr
      ⟨by decide, by decide, fun hwild => ?_⟩
    exact absurd hwild (by decide)
  · intro h
    obtain ⟨-, -, hcond⟩ := (hnames _ (hstar (ascii "*") (by decide +kernel))).mp h
    have hother := hplain (ascii "a*b") (by decide +kernel)
    exact absurd ((hcond (by decide)).2 _ hother.1 hother.2) (by decide)

/-- `Glob` returns the URL of `a*b`, and for that URL two objects; it returns the URL of
`a[1]`, and for that URL none. -/
theorem glob_namesItself_pattern :
    fileSystemGlob defaultRegistry starOperators true (ascii "memory://b/*") =
        .ok [ascii "memory://b/a*b", ascii "memory://b/axb"] ∧
      fileSystemGlob defaultRegistry starOperators true (ascii "memory://b/a*b") =
        .ok [ascii "memory://b/a*b", ascii "memory://b/axb"] ∧
      fileSystemGlob defaultRegistry
        (fun _ => .ok (storeOperator .all [fileEntry (ascii "a[1]") (by decide) 1])) true
        (ascii "memory://b/*") = .ok [ascii "memory://b/a[1]"] ∧
      fileSystemGlob defaultRegistry
        (fun _ => .ok (storeOperator .all [fileEntry (ascii "a[1]") (by decide) 1])) true
        (ascii "memory://b/a[1]") = .ok [] := by
  refine ⟨?_, ?_, ?_, ?_⟩ <;> decide +kernel

end DuckdbOpendal
