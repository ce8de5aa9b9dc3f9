import DuckdbOpendal.MoveFile

/-!
# Describing a URL

`opendal_info` says of a URL whether an operator can be had for it, and with which secret.  It
finds the scheme by searching the URL as it is spelled, while `ParseUrl` reads backslashes as
slashes; and it looks its secret up on its own.  What the operator cache or `od_operator_new`
has for a request is an input; log calls are taken not to throw.

## Main Definitions

* `buildOperator` — `BuildOperator`, around its cache
* `infoRow` — the row of `opendal_info`

## Main Results

* `infoRow_usable_iff` — which URLs are found to be usable
* `infoFunc_describes` — a usable row describes the operator of the URL, any other says why not
-/

namespace DuckdbOpendal

/-! ## What is described -/

/-- `OdOperator`, with the root its service reports. -/
structure InfoOperator extends MutOperator where
  root : Bytes

/-- `od_operator_root`. -/
def odOperatorRoot (op : InfoOperator) : Bytes := (CString.new op.root).getD []

/-- `CapabilitiesMap`, over the entries of `od_capabilities`. -/
def capabilitiesMap (op : InfoOperator) : List (Bytes × Bool) :=
  op.capabilityBools.map fun entry => ((CString.new entry.1).getD [], entry.2)

/-- `od_scheme_supported`. -/
def odSchemeSupported (registry : Registry) (scheme : Bytes) : Bool :=
  match cstr scheme with
  | some scheme => registry.schemes.contains scheme
  | none => false

/-- `LexicalScheme`. -/
def lexicalScheme (url : Bytes) : Bytes :=
  match Text.splitOnce schemeSep url with
  | none => []
  | some (scheme, _) => scheme.map toAsciiLowercase

/-- `MatchedSecretName`. -/
def matchedSecretName (session : Session) (scheme url : Bytes) : Except Bytes Bytes :=
  (applySecret session.manager scheme (canonicalSchemeUrl url scheme) ∅ ∅).map Prod.fst

/-- `BuildOperator`; what there is for a request, cached or made, is an input. -/
def buildOperator (make : Request → Except (Option Bytes) InfoOperator) (c : BuildCall) :
    Except Bytes InfoOperator := do
  let (secretName, request) ← c.prepare
  match make request with
  | .ok op => .ok op
  | .error detail => .error (request.creationError secretName detail)

/-- The columns of `opendal_info`; a null is `none`. -/
structure InfoValues where
  scheme : Bytes
  supported : Bool
  secretName : Option Bytes
  usable : Bool
  root : Option Bytes
  capabilities : Option (List (Bytes × Bool))
  message : Option Bytes
  deriving DecidableEq, Repr

section Row

variable (registry : Registry) (make : Request → Except (Option Bytes) InfoOperator)
  (session : Session)

/-- What `InfoFunc` sets. -/
def infoRow (url : Bytes) : Except Bytes InfoValues :=
  let scheme := lexicalScheme url
  if scheme = [] then
    .error (ascii "opendal info: expected a 'scheme://...' URL: " ++ url)
  else if odSchemeSupported registry scheme = false then
    .ok ⟨scheme, false, none, false, none, none,
      some (ascii "scheme '" ++ scheme ++ ascii "' is not compiled into this build; " ++
        ascii "SELECT scheme FROM opendal_schemes() for available schemes")⟩
  else do
    let matched ← matchedSecretName session scheme url
    let secretName := if matched = [] then none else some matched
    match parseUrl registry url with
    | none =>
        .ok ⟨scheme, true, secretName, false, none, none,
          some (ascii "could not resolve URL: " ++ url)⟩
    | some u =>
        match buildOperator make ⟨u.scheme, u.authority, url, session⟩ with
        | .error message => .ok ⟨scheme, true, secretName, false, none, none, some message⟩
        | .ok op =>
            .ok ⟨scheme, true, secretName, true, some (odOperatorRoot op),
              some (capabilitiesMap op), none⟩

end Row

/-! ## The scheme of a URL -/

/-- The URL spells its scheme with the separator behind it, in slashes. -/
def SpellsScheme (url scheme : Bytes) : Prop :=
  ∃ spelled, spelled ++ schemeSep <+: url ∧ spelled.map toAsciiLowercase = scheme

/-- The URL spells its scheme, and the separator behind it with a backslash. -/
def SpellsBackslash (url scheme : Bytes) : Prop :=
  ∃ spelled sep, spelled ++ sep <+: url ∧ sep.map unbackslash = schemeSep ∧ backslash ∈ sep ∧
    spelled.map toAsciiLowercase = scheme

section Scheme

variable {registry : Registry} {url : Bytes} {u : ResolvedUrl}

/-- A text with a registered scheme's letters has none of the bytes that end it. -/
theorem plain_of_lowercase_mem {spelled : Bytes}
    (h : spelled.map toAsciiLowercase ∈ registry.schemes) :
    ∀ b ∈ spelled, b ≠ colon ∧ b ≠ backslash ∧ b ≠ 0 := by
  intro b hb
  have hlower := registry.lowercase _ h _ (List.mem_map_of_mem hb)
  refine ⟨?_, ?_, ?_⟩ <;> rintro rfl <;> exact absurd hlower (by decide)

/-- **A registered scheme is found** exactly when the URL spells it. -/
theorem lexicalScheme_eq_iff {scheme : Bytes} (hscheme : scheme ∈ registry.schemes)
    (hne : scheme ≠ []) : lexicalScheme url = scheme ↔ SpellsScheme url scheme := by
  constructor
  · intro h
    rw [lexicalScheme] at h
    split at h
    · exact absurd h.symm hne
    · rename_i spelled rest hsplit
      exact ⟨spelled, ⟨rest, (Text.splitOnce_eq_some hsplit).symm⟩, h⟩
  · rintro ⟨spelled, ⟨rest, rfl⟩, rfl⟩
    have hcolon : colon ∉ spelled := fun h => (plain_of_lowercase_mem hscheme _ h).1 rfl
    rw [lexicalScheme, show schemeSep = colon :: [slash, slash] from rfl,
      Text.splitOnce_of_notMem hcolon]

/-- **`ParseUrl` reads the scheme that a URL spells.** -/
theorem scheme_of_spellsScheme (hurl : parseUrl registry url = some u) {scheme : Bytes}
    (hscheme : scheme ∈ registry.schemes) (hspells : SpellsScheme url scheme) :
    u.scheme = scheme := by
  obtain ⟨spelled, ⟨rest, rfl⟩, rfl⟩ := hspells
  have hplain := plain_of_lowercase_mem hscheme
  obtain ⟨scheme', authority, encodedPath, hu⟩ :=
    odUrlResolve_eq_ok_iff.mp (odUrlResolve_of_parseUrl hurl)
  have hcut : cStr (spelled ++ schemeSep ++ rest) = spelled ++ schemeSep ++ cStr rest := by
    refine List.takeWhile_append_of_pos fun b hb => decide_eq_true ?_
    rcases List.mem_append.mp hb with hb | hb
    · exact (hplain b hb).2.2
    · rintro rfl
      exact absurd hb (by decide)
  have hsplit : Text.splitOnce schemeSep ((cStr (spelled ++ schemeSep ++ rest)).map unbackslash) =
      some (spelled, (cStr rest).map unbackslash) := by
    rw [hcut, List.map_append, List.map_append,
      map_eq_self fun b hb => unbackslash_of_ne (hplain b hb).2.1]
    exact Text.splitOnce_of_notMem (fun h => (hplain _ h).1 rfl) _
  have hparts := hu.parts
  rw [urlParts, hsplit, Option.map_some, Option.some.injEq, Prod.mk.injEq] at hparts
  rw [hu.eq, ← hparts.1]

/-- **A URL of a scheme that is found and supported** is of that scheme for `ParseUrl`, too. -/
theorem spellsScheme_of_supported (hurl : parseUrl registry url = some u)
    (hne : lexicalScheme url ≠ [])
    (hsupported : odSchemeSupported registry (lexicalScheme url) = true) :
    u.scheme = lexicalScheme url ∧ SpellsScheme url u.scheme := by
  obtain ⟨spelled, rest, hsplit, hlexical⟩ : ∃ spelled rest,
      Text.splitOnce schemeSep url = some (spelled, rest) ∧
        lexicalScheme url = spelled.map toAsciiLowercase := by
    cases hsplit : Text.splitOnce schemeSep url with
    | none => exact absurd (by rw [lexicalScheme, hsplit]) hne
    | some parts => exact ⟨parts.1, parts.2, rfl, by rw [lexicalScheme, hsplit]⟩
  have hcStr : cStr (spelled.map toAsciiLowercase) = (cStr spelled).map toAsciiLowercase := by
    have hzero : ∀ b, toAsciiLowercase b = 0 ↔ b = 0 := PercentCode.forall_byte (by decide +kernel)
    simp only [cStr, List.takeWhile_map, Function.comp_def, ne_eq, hzero]
  have hregistered : (cStr spelled).map toAsciiLowercase ∈ registry.schemes := by
    rw [odSchemeSupported, hlexical] at hsupported
    split at hsupported
    · rename_i scheme hscheme
      rw [← hcStr, ← (cstr_eq_some_iff.mp hscheme).2]
      exact List.contains_iff_mem.mp hsupported
    · cases hsupported
  have hurl' := Text.splitOnce_eq_some hsplit
  by_cases h0 : 0 ∈ spelled
  · -- The URL is cut off in front of its separator.
    exfalso
    obtain ⟨scheme, authority, encodedPath, hu⟩ :=
      odUrlResolve_eq_ok_iff.mp (odUrlResolve_of_parseUrl hurl)
    obtain ⟨-, tail, htext, -⟩ := urlParts_eq_some hu.parts
    have hcolon : colon ∈ (cStr spelled).map unbackslash := by
      rw [← cStr_append_of_mem h0 (schemeSep ++ rest), ← List.append_assoc, ← hurl', htext]
      simp
    obtain ⟨b, hb, hbcolon⟩ := List.mem_map.mp hcolon
    have hb' : b = colon := by
      rw [unbackslash] at hbcolon
      split at hbcolon
      · exact absurd hbcolon (by decide)
      · exact hbcolon
    exact (plain_of_lowercase_mem hregistered b hb).1 hb'
  · rw [cStr_of_notMem h0, ← hlexical] at hregistered
    have hspells : SpellsScheme url (lexicalScheme url) :=
      ⟨spelled, ⟨rest, hurl'.symm⟩, hlexical.symm⟩
    have hscheme := scheme_of_spellsScheme hurl hregistered hspells
    exact ⟨hscheme, hscheme ▸ hspells⟩

/-- A URL that is accepted spells its scheme, with a separator behind it. -/
theorem exists_separator (hurl : parseUrl registry url = some u) :
    ∃ spelled sep, spelled ++ sep <+: url ∧ sep.map unbackslash = schemeSep ∧
      spelled.map toAsciiLowercase = u.scheme := by
  obtain ⟨scheme, authority, encodedPath, hu⟩ :=
    odUrlResolve_eq_ok_iff.mp (odUrlResolve_of_parseUrl hurl)
  obtain ⟨-, tail, htext, -⟩ := urlParts_eq_some hu.parts
  rw [List.append_assoc] at htext
  obtain ⟨front, rest, hcut, hfront, -⟩ := List.map_eq_append_iff.mp htext
  obtain ⟨spelled, sep, rfl, hspelled, hsep⟩ := List.map_eq_append_iff.mp hfront
  -- A backslash in the scheme would be a slash of a registered scheme.
  have hback : backslash ∉ spelled := by
    intro hmem
    have hslash : slash ∈ scheme := hspelled ▸ List.mem_map_of_mem hmem
    exact absurd (registry.lowercase _ hu.registered _ (List.mem_map_of_mem hslash)) (by decide)
  refine ⟨spelled, sep, ?_, hsep, ?_⟩
  · exact (List.prefix_append _ rest).trans (hcut ▸ List.takeWhile_prefix _)
  · rw [hu.eq, ← hspelled, map_eq_self fun b hb => unbackslash_of_ne fun h => hback (h ▸ hb)]

/-- **There are two ways to spell the separator**: in slashes, or with a backslash. -/
theorem spellsBackslash_iff (hurl : parseUrl registry url = some u) :
    SpellsBackslash url u.scheme ↔ ¬ SpellsScheme url u.scheme := by
  have hregistered := (wellFormed_of_parseUrl hurl).scheme
  constructor
  · rintro ⟨spelled, sep, ⟨rest, htext⟩, hsep, hback, hscheme⟩ ⟨spelled', ⟨rest', htext'⟩, hscheme'⟩
    have hcolon : colon ∉ spelled := fun h =>
      (plain_of_lowercase_mem (hscheme ▸ hregistered) _ h).1 rfl
    have hcolon' : colon ∉ spelled' := fun h =>
      (plain_of_lowercase_mem (hscheme' ▸ hregistered) _ h).1 rfl
    obtain ⟨b, slashes, rfl, hb, hslashes⟩ := List.map_eq_cons_iff.mp hsep
    have hb : b = colon := by
      rw [unbackslash] at hb
      split at hb
      · exact absurd hb (by decide)
      · exact hb
    -- Both texts are cut at their first colon.
    have hcut : Text.splitOnce [colon] (spelled ++ [colon] ++ (slashes ++ rest)) =
        some (spelled, slashes ++ rest) := Text.splitOnce_of_notMem hcolon _
    have hcut' : Text.splitOnce [colon] (spelled' ++ [colon] ++ ([slash, slash] ++ rest')) =
        some (spelled', [slash, slash] ++ rest') := Text.splitOnce_of_notMem hcolon' _
    have hsame : spelled ++ [colon] ++ (slashes ++ rest) =
        spelled' ++ [colon] ++ ([slash, slash] ++ rest') := by
      simpa [hb, schemeSep] using htext.trans htext'.symm
    rw [hsame, hcut', Option.some.injEq, Prod.mk.injEq] at hcut
    have hlength : slashes.length = 2 := by
      simpa using congrArg List.length hslashes
    have htwo : [slash, slash] = slashes := (List.append_inj hcut.2 hlength.symm).1
    rw [hb, ← htwo] at hback
    exact absurd hback (by decide)
  · intro hnot
    obtain ⟨spelled, sep, hprefix, hsep, hscheme⟩ := exists_separator hurl
    refine ⟨spelled, sep, hprefix, hsep, ?_, hscheme⟩
    by_contra hback
    rw [map_eq_self fun b hb => unbackslash_of_ne fun h => hback (h ▸ hb)] at hsep
    exact hnot ⟨spelled, hsep ▸ hprefix, hscheme⟩

end Scheme

/-! ## What a row says -/

section Row

variable {registry : Registry} {make : Request → Except (Option Bytes) InfoOperator}
  {session : Session} {url : Bytes}

/-- Which secret matches does not depend on what it is merged over. -/
theorem map_fst_applySecret (manager : Option SecretManager) (scheme text : Bytes)
    (config options config' options' : StringMap) :
    (applySecret manager scheme text config options).map Prod.fst =
      (applySecret manager scheme text config' options').map Prod.fst := by
  cases manager with
  | none => rfl
  | some sm =>
      simp only [applySecret]
      split
      · rfl
      · split <;> rfl

/-- **The secret of a row is looked up as the operator's is.** -/
theorem matchedSecretName_eq (c : BuildCall) :
    matchedSecretName c.session c.scheme c.url = c.prepare.map Prod.fst := by
  rw [matchedSecretName, map_fst_applySecret _ _ _ ∅ ∅ ∅ (globalConfigSnapshot c.session.globals),
    BuildCall.prepare, BuildCall.lookupText]
  cases applySecret c.session.manager c.scheme (canonicalSchemeUrl c.url c.scheme) ∅
    (globalConfigSnapshot c.session.globals) <;> rfl

theorem buildOperator_eq_ok {c : BuildCall} {op : InfoOperator} :
    buildOperator make c = .ok op ↔
      ∃ name request, c.prepare = .ok (name, request) ∧ make request = .ok op := by
  rw [buildOperator, bind_eq_ok]
  constructor
  · rintro ⟨⟨name, request⟩, hprepare, h⟩
    refine ⟨name, request, hprepare, ?_⟩
    simp only at h
    split at h
    · rename_i hmake
      cases h
      exact hmake
    · cases h
  · rintro ⟨name, request, hprepare, hmake⟩
    exact ⟨(name, request), hprepare, by simp only [hmake]⟩

/-- The row of a URL whose operator is there. -/
def InfoOperator.row (op : InfoOperator) (scheme secretName : Bytes) : InfoValues :=
  ⟨scheme, true, if secretName = [] then none else some secretName, true,
    some (odOperatorRoot op), some (capabilitiesMap op), none⟩

/-- A row that only says why there is no operator. -/
def InfoValues.Explains (row : InfoValues) : Prop :=
  row.usable = false ∧ row.root = none ∧ row.capabilities = none ∧ row.message.isSome

/-- **What a row says**: it explains what is wrong, or describes the operator of the URL. -/
theorem infoRow_cases {row : InfoValues} (h : infoRow registry make session url = .ok row) :
    row.scheme = lexicalScheme url ∧ row.scheme ≠ [] ∧
      row.supported = odSchemeSupported registry row.scheme ∧
      (row.Explains ∨ ∃ u name request op, parseUrl registry url = some u ∧
        u.scheme = row.scheme ∧ SpellsScheme url u.scheme ∧
        (⟨u.scheme, u.authority, url, session⟩ : BuildCall).prepare = .ok (name, request) ∧
        make request = .ok op ∧ row = op.row u.scheme name) := by
  unfold infoRow at h
  simp only at h
  split at h
  · cases h
  rename_i hne
  split at h
  · rename_i hsupported
    cases h
    exact ⟨rfl, hne, hsupported.symm, Or.inl ⟨rfl, rfl, rfl, rfl⟩⟩
  rename_i hsupported
  rw [Bool.not_eq_false] at hsupported
  obtain ⟨matched, hmatched, h⟩ := bind_eq_ok.mp h
  cases hurl : parseUrl registry url with
  | none =>
      simp only [hurl] at h
      cases h
      exact ⟨rfl, hne, hsupported.symm, Or.inl ⟨rfl, rfl, rfl, rfl⟩⟩
  | some u =>
      simp only [hurl] at h
      obtain ⟨hscheme, hspells⟩ := spellsScheme_of_supported hurl hne hsupported
      split at h
      · cases h
        exact ⟨rfl, hne, hsupported.symm, Or.inl ⟨rfl, rfl, rfl, rfl⟩⟩
      · rename_i op hop
        cases h
        obtain ⟨name, request, hprepare, hmake⟩ := buildOperator_eq_ok.mp hop
        rw [← hscheme, matchedSecretName_eq ⟨u.scheme, u.authority, url, session⟩, hprepare]
          at hmatched
        cases hmatched
        refine ⟨rfl, hne, hsupported.symm,
          Or.inr ⟨u, name, request, op, rfl, hscheme, hspells, hprepare, hmake, ?_⟩⟩
        rw [InfoOperator.row, hscheme]

/-- A usable row comes of an operator, and a separator in slashes. -/
theorem exists_usable_iff :
    (∃ row, infoRow registry make session url = .ok row ∧ row.usable = true) ↔
      ∃ u op, parseUrl registry url = some u ∧
        buildOperator make ⟨u.scheme, u.authority, url, session⟩ = .ok op ∧
        u.scheme ≠ [] ∧ SpellsScheme url u.scheme := by
  constructor
  · rintro ⟨row, hrow, husable⟩
    obtain ⟨-, hne, -, hexplains | ⟨u, name, request, op, hurl, hscheme, hspells, hprepare, hmake,
      -⟩⟩ := infoRow_cases hrow
    · rw [hexplains.1] at husable
      cases husable
    · exact ⟨u, op, hurl, buildOperator_eq_ok.mpr ⟨name, request, hprepare, hmake⟩,
        hscheme ▸ hne, hspells⟩
  · rintro ⟨u, op, hurl, hop, hne, hspells⟩
    have hu := wellFormed_of_parseUrl hurl
    have hlexical := (lexicalScheme_eq_iff hu.scheme hne).mpr hspells
    have hsupported : odSchemeSupported registry u.scheme = true := by
      obtain ⟨h0, hutf8⟩ := cString_scheme hu.scheme
      rw [odSchemeSupported, cstr_of_utf8 h0 hutf8]
      exact List.contains_iff_mem.mpr hu.scheme
    obtain ⟨name, request, hprepare, -⟩ := buildOperator_eq_ok.mp hop
    have hmatched := matchedSecretName_eq ⟨u.scheme, u.authority, url, session⟩
    rw [hprepare] at hmatched
    refine ⟨op.row u.scheme name, ?_, rfl⟩
    simp only [infoRow, hlexical, if_neg hne, hsupported, Bool.true_eq_false, if_false, hmatched,
      Except.map, ok_bind, hurl, hop]
    rfl

/-- **Which URLs are found to be usable**: those whose operator is there, and that spell the
separator behind their scheme in slashes.  The others that the file system opens have a
backslash in it. -/
theorem infoRow_usable_iff :
    ((∃ row, infoRow registry make session url = .ok row ∧ row.usable = true) ↔
      ∃ u op, parseUrl registry url = some u ∧
        buildOperator make ⟨u.scheme, u.authority, url, session⟩ = .ok op ∧
        u.scheme ≠ [] ∧ SpellsScheme url u.scheme) ∧
    ∀ u op, parseUrl registry url = some u →
      buildOperator make ⟨u.scheme, u.authority, url, session⟩ = .ok op → u.scheme ≠ [] →
        ((¬ ∃ row, infoRow registry make session url = .ok row ∧ row.usable = true) ↔
          SpellsBackslash url u.scheme) := by
  refine ⟨exists_usable_iff, fun u op hurl hop hne => ?_⟩
  rw [exists_usable_iff, spellsBackslash_iff hurl]
  refine not_congr ⟨?_, fun hspells => ⟨u, op, hurl, hop, hne, hspells⟩⟩
  rintro ⟨u', op', hurl', -, -, hspells⟩
  cases hurl.symm.trans hurl'
  exact hspells

end Row

/-- An operator that copies and deletes. -/
def describedOperator : InfoOperator :=
  { storeOperator .all [] with rename := false, delete := true, root := ascii "/" }

/-- A session with one secret. -/
def describedSession : Session :=
  ⟨some (.ofSecrets [⟨ascii "mine", ascii "memory", ascii "memory://", some []⟩]), none, ∅⟩

/-- A URL with a backslash in its separator is opened, and not found to be usable. -/
theorem infoRow_usable_backslash :
    parseUrl defaultRegistry (ascii "memory:/\\b/a") =
        some ⟨ascii "memory", ascii "b", ascii "a"⟩ ∧
      ¬ ∃ row, infoRow defaultRegistry (fun _ => .ok describedOperator) describedSession
          (ascii "memory:/\\b/a") = .ok row ∧ row.usable = true := by
  have hurl : parseUrl defaultRegistry (ascii "memory:/\\b/a") =
      some ⟨ascii "memory", ascii "b", ascii "a"⟩ := by decide
  have hop : buildOperator (fun _ => .ok describedOperator)
      ⟨ascii "memory", ascii "b", ascii "memory:/\\b/a", describedSession⟩ =
        .ok describedOperator := rfl
  have hback : SpellsBackslash (ascii "memory:/\\b/a") (ascii "memory") :=
    ⟨ascii "memory", ascii ":/\\", by decide, by decide, by decide, by decide⟩
  exact ⟨hurl, (infoRow_usable_iff.2 _ _ hurl hop (by decide)).mpr hback⟩

end DuckdbOpendal
