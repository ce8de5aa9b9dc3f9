import DuckdbOpendal.Lib.PercentCode
import DuckdbOpendal.Lib.Text
import DuckdbOpendal.Ffi

/-!
# Public URLs

`opendal/src/uri.rs` and the URL half of `opendal/src/lib.rs`: reading a
`scheme://authority/path` URL into its three parts, and writing one.

The reader lower-cases the scheme, turns backslashes into slashes before it cuts
anything, and percent-decodes the path once.  The writer escapes
`URL_PATH_ENCODE_SET` and every non-ASCII byte, segment by segment.  The two are
inverse exactly on the paths without a backslash: a backslash is written as it
stands and comes back as a separator (`odUrlResolve_odUrlBuild_iff`).

## Main Definitions

* `Registry` — the schemes OpenDAL has registered
* `resolve`, `odUrlResolve` — reading a URL
* `odUrlBuild` — writing one

## Main Results

* `odUrlResolve_eq_ok_iff` — when a URL resolves
* `resolve_url`, `odUrlResolve_odUrlBuild_iff` — reading back a written URL
-/

namespace DuckdbOpendal

/-! ## The bytes that matter -/

abbrev slash : UInt8 := 0x2F
abbrev backslash : UInt8 := 0x5C
abbrev questionMark : UInt8 := 0x3F
abbrev hash : UInt8 := 0x23
abbrev atSign : UInt8 := 0x40
abbrev colon : UInt8 := 0x3A

/-- `"://"`. -/
abbrev schemeSep : Bytes := [colon, slash, slash]

/-- `"%2f"`. -/
abbrev encodedSlash : Bytes := [0x25, 0x32, 0x66]

/-- `to_ascii_lowercase` of one byte. -/
def toAsciiLowercase (b : UInt8) : UInt8 :=
  if 0x41 ≤ b ∧ b ≤ 0x5A then b + 0x20 else b

/-- `replace('\\', "/")` of one byte. -/
def unbackslash (b : UInt8) : UInt8 := if b = backslash then slash else b

theorem unbackslash_of_ne {b : UInt8} (h : b ≠ backslash) : unbackslash b = b := if_neg h

/-! ## Reading a URL -/

/-- A byte of an RFC 3986 scheme name in lower case. -/
def isSchemeByte (b : UInt8) : Bool :=
  (0x61 ≤ b && b ≤ 0x7A) || (0x30 ≤ b && b ≤ 0x39) || b == 0x2B || b == 0x2D || b == 0x2E

/-- `OperatorRegistry::get().schemes()`: the scheme names OpenDAL registers are
lower-case URI scheme names. -/
structure Registry where
  schemes : List Bytes
  lowercase : ∀ scheme ∈ schemes, ∀ b ∈ scheme, isSchemeByte b = true

/-- The schemes of the default feature set (`fs` also registers `file`). -/
def defaultRegistry : Registry where
  schemes := ["memory", "fs", "file", "s3", "gcs", "azblob", "azdls", "azfile", "http"].map ascii
  lowercase := by decide +kernel

/-- What a URL names. -/
structure ResolvedUrl where
  scheme : Bytes
  authority : Bytes
  path : Bytes
  deriving DecidableEq, Repr

/-- `uri::resolve`.  The outer `none` is a panic: one of the three
`CString::new(..).unwrap()` at the end met a NUL. -/
def resolve (registry : Registry) (url : Bytes) :
    Option (Except OdError ResolvedUrl) :=
  match cstr url with
  | none => some (.error ⟨.InvalidInput, ascii "url is null or not UTF-8"⟩)
  | some urlStr =>
    let url := urlStr.map unbackslash
    if questionMark ∈ url ∨ hash ∈ url then
      some (.error ⟨.InvalidInput,
        ascii "query strings and fragments are not supported in OpenDAL file URLs"⟩)
    else
    match Text.splitOnce schemeSep url with
    | none =>
      some (.error ⟨.InvalidInput, ascii "url must use scheme://authority/path syntax"⟩)
    | some (scheme, remainder) =>
      let scheme := scheme.map toAsciiLowercase
      if scheme ∉ registry.schemes then
        some (.error ⟨.Unsupported,
          ascii "scheme '" ++ scheme ++ ascii "' is not registered"⟩)
      else
      let (authority, encodedPath) := (Text.splitOnce [slash] remainder).getD (remainder, [])
      if atSign ∈ authority then
        some (.error ⟨.InvalidInput, ascii "userinfo is not supported in OpenDAL file URLs"⟩)
      else if encodedSlash <:+: encodedPath.map toAsciiLowercase then
        some (.error ⟨.InvalidInput, ascii "percent-encoded path separators are not supported"⟩)
      else
      let path := PercentCode.decode encodedPath
      if Utf8.isUtf8 path = false then
        some (.error ⟨.InvalidInput, ascii "operation path is not valid UTF-8"⟩)
      else if 0 ∈ path then
        some (.error ⟨.InvalidInput, ascii "operation path contains a NUL byte"⟩)
      else
      match CString.new scheme, CString.new authority, CString.new path with
      | some scheme, some authority, some path => some (.ok ⟨scheme, authority, path⟩)
      | _, _, _ => none

/-- `od_url_resolve`: `resolve` under `ffi_guard!`. -/
def odUrlResolve (registry : Registry) (url : Bytes) : Except OdError ResolvedUrl :=
  (resolve registry url).getD (.error ⟨.Panic, ascii "panic in od_url_resolve"⟩)

/-! ## Writing a URL -/

/-- `URL_PATH_ENCODE_SET`, with the non-ASCII bytes `utf8_percent_encode` always
escapes. -/
def urlPathEncodeSet (b : UInt8) : Bool :=
  b < 0x20 || b == 0x7F || b == 0x20 || b == 0x22 || b == hash ||
    b == PercentCode.percent || b == questionMark || 0x80 ≤ b

/-- The path of a URL: every segment percent-encoded. -/
def encodePath (path : Bytes) : Bytes :=
  [slash].intercalate ((path.splitOn slash).map (PercentCode.encode urlPathEncodeSet))

/-- `od_url_build`; `none` is the null pointer. -/
def odUrlBuild (scheme authority path : Bytes) : Option Bytes := do
  let scheme ← cstr scheme
  let authority ← cstr authority
  let path ← cstr path
  CString.new (scheme ++ schemeSep ++ authority ++ slash :: encodePath path)

/-! ## What the writer produces -/

theorem urlPathEncodeSet_percent : urlPathEncodeSet PercentCode.percent = true := rfl

/-- Encoding segment by segment is encoding the whole path: a slash is plain. -/
theorem encodePath_eq (path : Bytes) :
    encodePath path = PercentCode.encode urlPathEncodeSet path := by
  have hjoin : ∀ segments : List Bytes,
      [slash].intercalate (segments.map (PercentCode.encode urlPathEncodeSet)) =
        PercentCode.encode urlPathEncodeSet ([slash].intercalate segments) := by
    intro segments
    induction segments with
    | nil => rfl
    | cons s rest ih =>
        cases rest with
        | nil => simp [List.intercalate]
        | cons s' rest =>
            have hsep : PercentCode.encode urlPathEncodeSet [slash] = [slash] := by decide
            simp only [List.map_cons, List.intercalate_cons_cons] at ih ⊢
            rw [ih, PercentCode.encode_append, PercentCode.encode_append, hsep]
  rw [encodePath, hjoin, List.intercalate_splitOn]

/-- What the reader makes of a written path: the path itself, with its
backslashes turned into slashes. -/
theorem unbackslash_encodePath (path : Bytes) :
    (encodePath path).map unbackslash = encodePath (path.map unbackslash) := by
  rw [encodePath_eq, encodePath_eq]
  refine PercentCode.map_encode ?_ ?_ ?_ path
  · intro b hb
    unfold unbackslash
    split
    · decide
    · exact hb
  · intro b hb
    unfold unbackslash
    split
    · rename_i h
      subst h
      exact absurd hb (by decide)
    · rfl
  · intro b c hc
    unfold unbackslash
    split
    · rename_i h
      subst h
      exact absurd (PercentCode.mem_escapeByte hc) (by decide)
    · rfl

/-- The writer's text decodes to what was written. -/
theorem decode_encodePath (path : Bytes) :
    PercentCode.decode (encodePath path) = path := by
  rw [encodePath_eq, PercentCode.decode_encode urlPathEncodeSet_percent]

/-- The writer never spells a slash as an escape. -/
theorem not_encodedSlash_infix_encodePath (path : Bytes) :
    ¬ encodedSlash <:+: (encodePath path).map toAsciiLowercase := by
  rw [encodePath_eq]
  refine PercentCode.escape_not_infix_encode (b := slash) urlPathEncodeSet_percent (by decide)
    ?_ ?_ path
  · intro c
    unfold toAsciiLowercase
    split
    · rename_i h
      constructor
      · intro hc
        have hval : (c + 0x20).toNat = 0x25 := congrArg UInt8.toNat hc
        simp only [UInt8.le_iff_toNat_le, UInt8.toNat_add, UInt8.reduceToNat] at h hval
        omega
      · rintro rfl
        exact absurd h (by decide)
    · rfl
  · intro c hh hl
    have hdiv : c / 16 = 2 := PercentCode.forall_digit
      (p := fun d => toAsciiLowercase (PercentCode.hexDigit d) = 0x32 → d = 2)
      (by decide) (PercentCode.div_lt c) hh
    have hmod : c % 16 = 15 := PercentCode.forall_digit
      (p := fun d => toAsciiLowercase (PercentCode.hexDigit d) = 0x66 → d = 15)
      (by decide) (PercentCode.mod_lt c) hl
    rw [← PercentCode.div_add_mod c, hdiv, hmod]
    decide

/-! ## Reading back what was written -/

/-- The bytes an authority cannot contain: the separators, `@`, and the NUL no C
string holds. -/
abbrev authorityForbidden : List UInt8 :=
  [slash, backslash, questionMark, hash, atSign, 0]

theorem isSchemeByte_ascii {b : UInt8} (h : isSchemeByte b = true) : b < 0x80 := by
  simp only [isSchemeByte, Bool.or_eq_true, Bool.and_eq_true, decide_eq_true_eq,
    beq_iff_eq] at h
  rcases h with (((⟨-, h⟩ | ⟨-, h⟩) | rfl) | rfl) | rfl
  · exact UInt8.lt_of_le_of_lt h (by decide)
  · exact UInt8.lt_of_le_of_lt h (by decide)
  all_goals decide

/-- A scheme name contains none of the bytes `resolve` looks for and is left
alone by its two rewritings. -/
theorem isSchemeByte_plain {b : UInt8} (h : isSchemeByte b = true) :
    b ≠ 0 ∧ b ≠ colon ∧ b ≠ questionMark ∧ b ≠ hash ∧ unbackslash b = b ∧
      toAsciiLowercase b = b := by
  have hne : ∀ c : UInt8, isSchemeByte c = false → b ≠ c := by
    rintro c hc rfl
    rw [h] at hc
    cases hc
  refine ⟨hne _ (by decide), hne _ (by decide), hne _ (by decide), hne _ (by decide),
    if_neg (hne _ (by decide)), if_neg ?_⟩
  rintro ⟨hlo, hhi⟩
  simp only [isSchemeByte, Bool.or_eq_true, Bool.and_eq_true, decide_eq_true_eq,
    beq_iff_eq, UInt8.le_iff_toNat_le] at h hlo hhi
  rcases h with (((h | h) | rfl) | rfl) | rfl <;> simp at * <;> omega

/-- The bytes of a written path. -/
theorem mem_encodePath {path : Bytes} {b : UInt8} (h : b ∈ encodePath path) :
    b ≠ 0 ∧ b ≠ questionMark ∧ b ≠ hash ∧ b < 0x80 := by
  rw [encodePath_eq] at h
  have hne : ∀ c : UInt8, urlPathEncodeSet c = true →
      ¬ (c = PercentCode.percent ∨ (0x30 ≤ c ∧ c ≤ 0x39) ∨ (0x41 ≤ c ∧ c ≤ 0x46)) →
      b ≠ c := by
    rintro c hset hnot rfl
    rcases PercentCode.mem_encode h with ⟨-, hplain⟩ | hdigit
    · rw [hset] at hplain
      cases hplain
    · exact hnot hdigit
  refine ⟨hne _ (by decide) (by decide), hne _ (by decide) (by decide),
    hne _ (by decide) (by decide), ?_⟩
  by_contra hge
  rw [UInt8.not_lt] at hge
  rcases PercentCode.mem_encode h with ⟨-, hplain⟩ | rfl | ⟨-, hle⟩ | ⟨-, hle⟩
  · simp [urlPathEncodeSet, hge] at hplain
  · exact absurd hge (by decide)
  · exact absurd (UInt8.le_trans hge hle) (by decide)
  · exact absurd (UInt8.le_trans hge hle) (by decide)

theorem map_eq_self {f : UInt8 → UInt8} {s : Bytes} (h : ∀ b ∈ s, f b = b) :
    s.map f = s := (List.map_congr_left h).trans (List.map_id s)

/-- A rewritten URL has no backslash. -/
theorem backslash_notMem_map (s : Bytes) : backslash ∉ s.map unbackslash := by
  rw [List.mem_map]
  rintro ⟨b, -, hb⟩
  unfold unbackslash at hb
  split at hb
  · exact absurd hb (by decide)
  · contradiction

/-- Nor has it a NUL that was not there. -/
theorem nul_notMem_map_unbackslash {s : Bytes} (h : 0 ∉ s) : 0 ∉ s.map unbackslash := by
  rw [List.mem_map]
  rintro ⟨b, hb, hzero⟩
  unfold unbackslash at hzero
  split at hzero
  · exact absurd hzero (by decide)
  · exact h (hzero ▸ hb)

/-- Rewriting backslashes keeps a text UTF-8. -/
theorem isUtf8_map_unbackslash (s : Bytes) :
    Utf8.isUtf8 (s.map unbackslash) = Utf8.isUtf8 s := by
  refine Utf8.isUtf8_map (f := unbackslash) ?_ ?_ s
  · intro b hb
    unfold unbackslash
    split
    · decide
    · exact hb
  · intro b hb
    exact unbackslash_of_ne fun h => hb (by rw [h]; decide)

/-- What a resolved URL names is well formed: a registered scheme, a plain authority,
and a path that is a C string. -/
structure ResolvedUrl.WellFormed (registry : Registry) (u : ResolvedUrl) : Prop where
  scheme : u.scheme ∈ registry.schemes
  authority_utf8 : Utf8.isUtf8 u.authority = true
  authority_plain : ∀ b ∈ u.authority, b ∉ authorityForbidden
  path_utf8 : Utf8.isUtf8 u.path = true
  path_nul : 0 ∉ u.path

/-- The scheme, the authority and the encoded path of a URL, as they are spelled. -/
def urlParts (url : Bytes) : Option (Bytes × Bytes × Bytes) :=
  (Text.splitOnce schemeSep ((cStr url).map unbackslash)).map fun parts =>
    (parts.1, (Text.splitOnce [slash] parts.2).getD (parts.2, []))

/-- **What a resolved URL looks like**: its parts, and the checks they have passed. -/
structure Resolved (registry : Registry) (url : Bytes) (u : ResolvedUrl)
    (scheme authority encodedPath : Bytes) : Prop where
  utf8 : Utf8.isUtf8 (cStr url) = true
  parts : urlParts url = some (scheme, authority, encodedPath)
  query : questionMark ∉ (cStr url).map unbackslash ∧ hash ∉ (cStr url).map unbackslash
  registered : scheme.map toAsciiLowercase ∈ registry.schemes
  userinfo : atSign ∉ authority
  separators : ¬ encodedSlash <:+: encodedPath.map toAsciiLowercase
  path_utf8 : Utf8.isUtf8 (PercentCode.decode encodedPath) = true
  nul : 0 ∉ authority ∧ 0 ∉ PercentCode.decode encodedPath
  eq : u = ⟨scheme.map toAsciiLowercase, authority, PercentCode.decode encodedPath⟩

/-- The authority and the encoded path of a URL are part of its text. -/
theorem urlParts_eq_some {url scheme authority encodedPath : Bytes}
    (h : urlParts url = some (scheme, authority, encodedPath)) :
    slash ∉ authority ∧ ∃ tail, (cStr url).map unbackslash =
        scheme ++ schemeSep ++ authority ++ tail ∧
      (tail = [] ∧ encodedPath = [] ∨ tail = slash :: encodedPath) := by
  obtain ⟨⟨scheme', remainder⟩, hscheme, heq⟩ := Option.map_eq_some_iff.mp h
  have htext := Text.splitOnce_eq_some hscheme
  cases hslash : Text.splitOnce [slash] remainder with
  | none =>
      simp only [hslash, Option.getD_none, Prod.mk.injEq] at heq
      obtain ⟨rfl, rfl, rfl⟩ := heq
      exact ⟨Text.notMem_of_splitOnce_singleton_eq_none hslash, [], by simpa using htext,
        Or.inl ⟨rfl, rfl⟩⟩
  | some parts =>
      simp only [hslash, Option.getD_some, Prod.mk.injEq] at heq
      obtain ⟨rfl, rfl⟩ := heq
      refine ⟨Text.notMem_of_splitOnce_singleton hslash, slash :: encodedPath, ?_, Or.inr rfl⟩
      rw [htext, Text.splitOnce_eq_some hslash]
      simp

/-! ## Reading a URL -/

/-- A registered scheme is a C string. -/
theorem cString_scheme {registry : Registry} {scheme : Bytes}
    (hscheme : scheme ∈ registry.schemes) :
    0 ∉ scheme ∧ Utf8.isUtf8 scheme = true := by
  have hlower := registry.lowercase scheme hscheme
  exact ⟨fun h => (isSchemeByte_plain (hlower 0 h)).1 rfl,
    Utf8.isUtf8_of_forall_ascii fun b hb => isSchemeByte_ascii (hlower b hb)⟩

section Resolve

variable {registry : Registry} {url scheme authority encodedPath : Bytes}

/-- What a URL has passed when `resolve` looks at its encoded path. -/
structure ReachesPath (registry : Registry) (url scheme authority encodedPath : Bytes) :
    Prop where
  utf8 : Utf8.isUtf8 (cStr url) = true
  parts : urlParts url = some (scheme, authority, encodedPath)
  query : questionMark ∉ (cStr url).map unbackslash ∧ hash ∉ (cStr url).map unbackslash
  registered : scheme.map toAsciiLowercase ∈ registry.schemes
  userinfo : atSign ∉ authority

/-- A URL that is cut off at its first NUL has none in its authority. -/
theorem notMem_authority (hparts : urlParts url = some (scheme, authority, encodedPath)) :
    0 ∉ authority := by
  obtain ⟨-, tail, htext, -⟩ := urlParts_eq_some hparts
  intro h
  refine nul_notMem_map_unbackslash (notMem_cStr url) ?_
  rw [htext]
  exact List.mem_append_left _ (List.mem_append_right _ h)

/-- **What `resolve` does with the encoded path** of a URL that gets that far. -/
theorem resolve_of_reachesPath (h : ReachesPath registry url scheme authority encodedPath) :
    resolve registry url = some (
      if encodedSlash <:+: encodedPath.map toAsciiLowercase then
        .error ⟨.InvalidInput, ascii "percent-encoded path separators are not supported"⟩
      else if Utf8.isUtf8 (PercentCode.decode encodedPath) = false then
        .error ⟨.InvalidInput, ascii "operation path is not valid UTF-8"⟩
      else if 0 ∈ PercentCode.decode encodedPath then
        .error ⟨.InvalidInput, ascii "operation path contains a NUL byte"⟩
      else .ok ⟨scheme.map toAsciiLowercase, authority, PercentCode.decode encodedPath⟩) := by
  obtain ⟨⟨scheme', remainder⟩, hscheme, heq⟩ := Option.map_eq_some_iff.mp h.parts
  simp only [Prod.mk.injEq] at heq
  obtain ⟨rfl, hremainder⟩ := heq
  have hread : cstr url = some (cStr url) := cstr_eq_some_iff.mpr ⟨h.utf8, rfl⟩
  have hscheme0 : 0 ∉ scheme'.map toAsciiLowercase := (cString_scheme h.registered).1
  simp only [resolve, hread, h.query, or_self, if_false, hscheme, h.registered, not_true_eq_false,
    hremainder, h.userinfo]
  split
  · rfl
  split
  · rfl
  split
  · rfl
  · rename_i hnul
    simp only [CString.new, hscheme0, notMem_authority h.parts, hnul, if_false]

variable (registry url) in
/-- A URL reaches the encoded path or is an error. -/
theorem resolve_cases : (∃ err, resolve registry url = some (.error err)) ∨
    ∃ scheme authority encodedPath, ReachesPath registry url scheme authority encodedPath := by
  unfold resolve
  split
  · exact Or.inl ⟨_, rfl⟩
  rename_i urlStr hread
  obtain ⟨hutf8, rfl⟩ := cstr_eq_some_iff.mp hread
  simp only
  split
  · exact Or.inl ⟨_, rfl⟩
  rename_i hquery
  split
  · exact Or.inl ⟨_, rfl⟩
  rename_i scheme remainder hscheme
  split
  · exact Or.inl ⟨_, rfl⟩
  rename_i hregistered
  split
  · exact Or.inl ⟨_, rfl⟩
  rename_i hat
  refine Or.inr ⟨scheme, _, ((Text.splitOnce [slash] remainder).getD (remainder, [])).2, hutf8, ?_,
    not_or.mp hquery, not_not.mp hregistered, hat⟩
  rw [urlParts, hscheme]
  rfl

/-- **No URL makes `resolve` panic.** -/
theorem resolve_ne_none (registry : Registry) (url : Bytes) : resolve registry url ≠ none := by
  rcases resolve_cases registry url with ⟨err, herr⟩ | ⟨scheme, authority, encodedPath, hreach⟩
  · rw [herr]
    exact Option.some_ne_none _
  · rw [resolve_of_reachesPath hreach]
    exact Option.some_ne_none _

/-- **When a URL resolves**: when it gets to its encoded path, which passes the checks. -/
theorem odUrlResolve_eq_ok_iff {u : ResolvedUrl} :
    odUrlResolve registry url = .ok u ↔
      ∃ scheme authority encodedPath, Resolved registry url u scheme authority encodedPath := by
  constructor
  · intro h
    rw [odUrlResolve] at h
    rcases resolve_cases registry url with ⟨err, herr⟩ | ⟨scheme, authority, encodedPath, hreach⟩
    · rw [herr] at h
      cases h
    rw [resolve_of_reachesPath hreach, Option.getD_some] at h
    split at h
    · cases h
    rename_i hseparators
    split at h
    · cases h
    rename_i hpath
    split at h
    · cases h
    rename_i hnul
    cases h
    exact ⟨scheme, authority, encodedPath, hreach.utf8, hreach.parts, hreach.query,
      hreach.registered, hreach.userinfo, hseparators, by simpa using hpath,
      ⟨notMem_authority hreach.parts, hnul⟩, rfl⟩
  · rintro ⟨scheme, authority, encodedPath, hu⟩
    rw [odUrlResolve, resolve_of_reachesPath
      ⟨hu.utf8, hu.parts, hu.query, hu.registered, hu.userinfo⟩]
    simp only [hu.separators, hu.path_utf8, hu.nul.2, Bool.true_eq_false, if_false,
      Option.getD_some, hu.eq]

end Resolve

/-- **A resolved URL is well formed.** -/
theorem odUrlResolve_wellFormed {registry : Registry} {url : Bytes} {u : ResolvedUrl}
    (h : odUrlResolve registry url = .ok u) : u.WellFormed registry := by
  obtain ⟨scheme, authority, encodedPath, hu⟩ := odUrlResolve_eq_ok_iff.mp h
  obtain ⟨hslash, tail, htext, htail⟩ := urlParts_eq_some hu.parts
  have hutf8 : Utf8.isUtf8 ((cStr url).map unbackslash) = true := by
    rw [isUtf8_map_unbackslash, hu.utf8]
  have hback := backslash_notMem_map (cStr url)
  -- The authority stands in the text, whose backslashes are gone and which has no query.
  have hsub : ∀ b ∈ authority, b ∈ (cStr url).map unbackslash := by
    intro b hb
    rw [htext]
    exact List.mem_append_left _ (List.mem_append_right _ hb)
  have hauthority : Utf8.isUtf8 authority = true := by
    have hrest : Utf8.isUtf8 (slash :: slash :: (authority ++ tail)) = true := by
      rw [htext] at hutf8
      simp only [List.append_assoc, schemeSep, List.cons_append, List.nil_append] at hutf8
      exact ((Utf8.isUtf8_append_cons_iff (by decide)).mp hutf8).2
    rw [Utf8.isUtf8_ascii_cons (by decide), Utf8.isUtf8_ascii_cons (by decide)] at hrest
    rcases htail with ⟨rfl, -⟩ | rfl
    · rwa [List.append_nil] at hrest
    · exact ((Utf8.isUtf8_append_cons_iff (by decide)).mp hrest).1
  rw [hu.eq]
  refine ⟨hu.registered, hauthority, fun b hb hforbidden => ?_, hu.path_utf8, hu.nul.2⟩
  simp only [authorityForbidden, List.mem_cons, List.not_mem_nil, or_false] at hforbidden
  rcases hforbidden with rfl | rfl | rfl | rfl | rfl | rfl
  · exact hslash hb
  · exact hback (hsub _ hb)
  · exact hu.query.1 (hsub _ hb)
  · exact hu.query.2 (hsub _ hb)
  · exact hu.userinfo hb
  · exact hu.nul.1 hb

section RoundTrip

variable {registry : Registry} {scheme authority : Bytes}

/-- A registered scheme with an authority is a C string. -/
theorem cString_uri (hscheme : scheme ∈ registry.schemes)
    (hauthority : Utf8.isUtf8 authority = true)
    (hplain : ∀ b ∈ authority, b ∉ authorityForbidden) :
    0 ∉ scheme ++ schemeSep ++ authority ∧
      Utf8.isUtf8 (scheme ++ schemeSep ++ authority) = true := by
  obtain ⟨hscheme0, hscheme8⟩ := cString_scheme hscheme
  constructor
  · simp only [List.mem_append, not_or]
    exact ⟨⟨hscheme0, by decide⟩, fun h => hplain 0 h (by decide)⟩
  · rw [List.append_assoc, Utf8.isUtf8_append hscheme8, Utf8.isUtf8_append (by decide),
      hauthority]

/-- And the text `od_url_build` writes. -/
theorem cString_url (hscheme : scheme ∈ registry.schemes)
    (hauthority : Utf8.isUtf8 authority = true)
    (hplain : ∀ b ∈ authority, b ∉ authorityForbidden) (path : Bytes) :
    0 ∉ scheme ++ schemeSep ++ authority ++ slash :: encodePath path ∧
      Utf8.isUtf8 (scheme ++ schemeSep ++ authority ++ slash :: encodePath path) = true := by
  obtain ⟨huri0, huri8⟩ := cString_uri hscheme hauthority hplain
  constructor
  · rw [List.mem_append, List.mem_cons, not_or, not_or]
    exact ⟨huri0, by decide, fun h => (mem_encodePath h).1 rfl⟩
  · rw [Utf8.isUtf8_append huri8, Utf8.isUtf8_ascii_cons (by decide)]
    exact Utf8.isUtf8_of_forall_ascii fun b hb => (mem_encodePath hb).2.2.2

/-- `od_url_build` succeeds on every text it is given. -/
theorem odUrlBuild_eq (hscheme : scheme ∈ registry.schemes)
    (hauthority : Utf8.isUtf8 authority = true)
    (hplain : ∀ b ∈ authority, b ∉ authorityForbidden) {path : Bytes}
    (hpath : Utf8.isUtf8 path = true) (h0 : 0 ∉ path) :
    odUrlBuild scheme authority path =
      some (scheme ++ schemeSep ++ authority ++ slash :: encodePath path) := by
  obtain ⟨hscheme0, hscheme8⟩ := cString_scheme hscheme
  have hs : cstr scheme = some scheme := cstr_of_utf8 hscheme0 hscheme8
  have ha : cstr authority = some authority := cstr_of_utf8
    (fun h => hplain 0 h (by decide)) hauthority
  simp only [odUrlBuild, hs, ha, cstr_of_utf8 h0 hpath, Option.bind_eq_bind,
    Option.bind_some]
  exact CString.new_eq_some_iff.mpr ⟨(cString_url hscheme hauthority hplain path).1, rfl⟩

/-- **Reading back a written URL**: the scheme and the authority come back as
they were, the path with its backslashes turned into slashes. -/
theorem resolve_url (hscheme : scheme ∈ registry.schemes)
    (hauthority : Utf8.isUtf8 authority = true)
    (hplain : ∀ b ∈ authority, b ∉ authorityForbidden) {path : Bytes}
    (hpath : Utf8.isUtf8 path = true) (h0 : 0 ∉ path) :
    resolve registry (scheme ++ schemeSep ++ authority ++ slash :: encodePath path) =
      some (.ok ⟨scheme, authority, path.map unbackslash⟩) := by
  have hlower := registry.lowercase scheme hscheme
  obtain ⟨hurl0, hurl8⟩ := cString_url hscheme hauthority hplain path
  have hpath' : Utf8.isUtf8 (path.map unbackslash) = true := by
    rw [isUtf8_map_unbackslash, hpath]
  have h0' : 0 ∉ path.map unbackslash := nul_notMem_map_unbackslash h0
  -- The rewriting of backslashes reaches only the path.
  have hurl : (scheme ++ schemeSep ++ authority ++ slash :: encodePath path).map unbackslash =
      scheme ++ schemeSep ++ (authority ++ slash :: encodePath (path.map unbackslash)) := by
    have hs : scheme.map unbackslash = scheme := map_eq_self fun b hb =>
      (isSchemeByte_plain (hlower b hb)).2.2.2.2.1
    have ha : authority.map unbackslash = authority := map_eq_self fun b hb =>
      unbackslash_of_ne fun h => hplain b hb (by rw [h]; decide)
    simp only [List.map_append, List.map_cons, hs, ha, unbackslash_encodePath,
      List.append_assoc]
    rfl
  have hquery : ∀ c : UInt8, isSchemeByte c = false → c ∉ schemeSep →
      c ∈ authorityForbidden → c ≠ slash → c ∉ encodePath (path.map unbackslash) →
      c ∉ scheme ++ schemeSep ++ (authority ++ slash :: encodePath (path.map unbackslash)) := by
    intro c hscheme hsep hforbidden hslash hc h
    rcases List.mem_append.mp h with h | h
    · rcases List.mem_append.mp h with h | h
      · rw [hlower c h] at hscheme
        cases hscheme
      · exact hsep h
    · rcases List.mem_append.mp h with h | h
      · exact hplain c h hforbidden
      · exact (List.mem_cons.mp h).elim hslash hc
  have hcolon : colon ∉ scheme := fun h => (isSchemeByte_plain (hlower _ h)).2.1 rfl
  have hlowerScheme : scheme.map toAsciiLowercase = scheme := map_eq_self fun b hb =>
    (isSchemeByte_plain (hlower b hb)).2.2.2.2.2
  have hslash : slash ∉ authority := fun h => hplain _ h (by decide)
  have hat : atSign ∉ authority := fun h => hplain _ h (by decide)
  have hreach : ReachesPath registry
      (scheme ++ schemeSep ++ authority ++ slash :: encodePath path) scheme authority
      (encodePath (path.map unbackslash)) := by
    refine ⟨?_, ?_, ?_, ?_, hat⟩
    · rw [cStr_of_notMem hurl0, hurl8]
    · simp only [urlParts, cStr_of_notMem hurl0, hurl, Text.splitOnce_of_notMem hcolon,
        Option.map_some, Text.splitOnce_singleton hslash, Option.getD_some]
    · rw [cStr_of_notMem hurl0, hurl]
      exact ⟨hquery questionMark (by decide) (by decide) (by decide) (by decide)
          fun h => (mem_encodePath h).2.1 rfl,
        hquery hash (by decide) (by decide) (by decide) (by decide)
          fun h => (mem_encodePath h).2.2.1 rfl⟩
    · rw [hlowerScheme]
      exact hscheme
  rw [resolve_of_reachesPath hreach]
  simp only [hlowerScheme, not_encodedSlash_infix_encodePath, decode_encodePath, hpath', h0',
    Bool.true_eq_false, if_false]

/-- **The round trip of URLs, exactly**: resolving the URL built for an object
returns the object's own name if and only if its path has no backslash. -/
theorem odUrlResolve_odUrlBuild_iff (hscheme : scheme ∈ registry.schemes)
    (hauthority : Utf8.isUtf8 authority = true)
    (hplain : ∀ b ∈ authority, b ∉ authorityForbidden) {path : Bytes}
    (hpath : Utf8.isUtf8 path = true) (h0 : 0 ∉ path) :
    (∃ url, odUrlBuild scheme authority path = some url ∧
      odUrlResolve registry url = .ok ⟨scheme, authority, path⟩) ↔
        backslash ∉ path := by
  have hresolve : odUrlResolve registry
        (scheme ++ schemeSep ++ authority ++ slash :: encodePath path) =
      .ok ⟨scheme, authority, path.map unbackslash⟩ := by
    rw [odUrlResolve, resolve_url hscheme hauthority hplain hpath h0, Option.getD_some]
  rw [odUrlBuild_eq hscheme hauthority hplain hpath h0]
  constructor
  · rintro ⟨url, hbuild, hurl⟩ hmem
    rw [Option.some.injEq] at hbuild
    rw [← hbuild, hresolve, Except.ok.injEq, ResolvedUrl.mk.injEq] at hurl
    have hgone := backslash_notMem_map path
    rw [hurl.2.2] at hgone
    exact hgone hmem
  · intro hmem
    refine ⟨_, rfl, ?_⟩
    rw [hresolve, map_eq_self fun b hb => unbackslash_of_ne fun h => hmem (h ▸ hb)]

end RoundTrip

/-- The URL written for a path under a resolved scheme and authority. -/
def ResolvedUrl.urlOf (u : ResolvedUrl) (path : Bytes) : Bytes :=
  u.scheme ++ schemeSep ++ u.authority ++ slash :: encodePath path

theorem ResolvedUrl.WellFormed.odUrlBuild_eq {registry : Registry} {u : ResolvedUrl}
    (hu : u.WellFormed registry) {path : Bytes} (hutf8 : Utf8.isUtf8 path = true) (h0 : 0 ∉ path) :
    odUrlBuild u.scheme u.authority path = some (u.urlOf path) :=
  DuckdbOpendal.odUrlBuild_eq hu.scheme hu.authority_utf8 hu.authority_plain hutf8 h0

/-- Distinct paths have distinct URLs. -/
theorem ResolvedUrl.urlOf_injective (u : ResolvedUrl) : Function.Injective u.urlOf := by
  intro path path' h
  have htail := (List.cons.inj (List.append_cancel_left h)).2
  rw [← decode_encodePath path, htail, decode_encodePath]

/-- The round trip at a key with spaces, a literal percent sequence, a query mark
and a repeated slash. -/
theorem odUrlResolve_odUrlBuild_escapes :
    (∃ url, odUrlBuild (ascii "s3") (ascii "bucket") (ascii "a b//c%2f?d") = some url ∧
      odUrlResolve defaultRegistry url =
        .ok ⟨ascii "s3", ascii "bucket", ascii "a b//c%2f?d"⟩) ↔
      backslash ∉ ascii "a b//c%2f?d" :=
  odUrlResolve_odUrlBuild_iff (by decide) (by decide) (by decide +kernel) (by decide)
    (by decide)

/-- The URL of the object `a\b` names the object `a/b`. -/
theorem odUrlBuild_backslash :
    ¬ ∃ url, odUrlBuild (ascii "s3") (ascii "bucket") (ascii "a\\b") = some url ∧
      odUrlResolve defaultRegistry url =
        .ok ⟨ascii "s3", ascii "bucket", ascii "a\\b"⟩ := by
  rintro ⟨url, hbuild, hresolve⟩
  have hurl : odUrlBuild (ascii "s3") (ascii "bucket") (ascii "a\\b") =
      some (ascii "s3://bucket/a\\b") := by decide
  have hother : odUrlResolve defaultRegistry (ascii "s3://bucket/a\\b") =
      .ok ⟨ascii "s3", ascii "bucket", ascii "a/b"⟩ := by rfl
  rw [hurl, Option.some.injEq] at hbuild
  rw [← hbuild, hother, Except.ok.injEq] at hresolve
  exact absurd hresolve (by decide)

end DuckdbOpendal
