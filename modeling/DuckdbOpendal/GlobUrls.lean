import DuckdbOpendal.GlobFrontEnds

/-!
# URLs as patterns

Whether a URL is a pattern or the name of one object is decided in four places:
`OpenDalFileSystem::Glob` looks for wildcards in the URL as it was typed, `EntryInit`,
`od_table_du_open` and `od_table_copy_open` in the operation path that `ParseUrl` has
decoded.  A pattern reaches the matcher through a URL only if `resolve` accepts it.

## Main Definitions

* `Consumer`, `Consumer.branch` — who reads a URL, and as what
* `TakesBranches` — what each of them does with it then
* `DocumentedGlob` — the pattern language of the table functions' guide
* `SelectsByUrl` — a pattern that can be used in a URL

## Main Results

* `hasGlob_decode_iff` — the wildcards of a decoded path
* `consumers_agree_iff` — when all consumers read a URL alike
* `selectsByUrl_iff` — when a documented pattern can be used in a URL
-/

namespace DuckdbOpendal

/-! ## The consumers of a URL -/

/-- A URL is read as the name of one object or as a pattern. -/
inductive Branch where
  | literal
  | pattern
  deriving DecidableEq, Repr

/-- What a wildcard in a text makes of it. -/
def branchOf (text : Bytes) : Branch := if hasGlob text then .pattern else .literal

/-- `ThrowIfError` of the table functions. -/
def throwIfTableError (err : OdError) (operation : String) (target : Bytes) : Bytes :=
  ascii "opendal " ++ ascii operation ++ ascii ": '" ++ target ++ ascii "'" ++ ascii ": " ++
    err.message

/-- `EntryInit` of `opendal_ls`, up to its cursor. -/
def entryInit (registry : Registry) (operators : ResolvedUrl → Except Bytes OdOperator)
    (target : Bytes) (options : OdListOptions) : Except Bytes OdTableCursor :=
  match parseUrl registry target with
  | none => .error (ascii "opendal table scan: unsupported or invalid URL: " ++ target)
  | some u => do
      let op ← operators u
      let cursor :=
        if hasGlob u.path then odTableGlobOpen op u.path options
        else odTableListOpen op u.path none options
      match cursor with
      | .ok cursor => .ok cursor
      | .error err => .error (throwIfTableError err "list" target)

/-- The consumers of a URL. -/
inductive Consumer where
  | fileSystemGlob
  | opendalLs
  | opendalDu
  | opendalCopy
  deriving DecidableEq, Repr

/-- What a consumer reads a URL as. -/
def Consumer.branch (url : Bytes) (u : ResolvedUrl) : Consumer → Branch
  | fileSystemGlob => branchOf url
  | opendalLs | opendalDu | opendalCopy => branchOf u.path

/-! ## What each branch does -/

/-- **What the consumers do** with a URL, by the branch each of them takes. -/
structure TakesBranches (registry : Registry) (url : Bytes) (u : ResolvedUrl) : Prop where
  /-- `Glob` looks for one object, or lists and matches. -/
  fileSystemGlob : ∀ operators, fileSystemGlob registry operators true url =
    match Consumer.fileSystemGlob.branch url u with
    | .literal => (fileExists registry operators url).map fun found =>
        if found then [url] else []
    | .pattern => do
        let op ← operators u
        match odList op (globListDir u.path) (globRecursive u.path) with
        | .error err =>
            if err.code = .NotFound then return []
            else
              throwIfError err (ascii "opendal: glob: " ++ url)
              return []
        | .ok list =>
            let results ← globUrls u.scheme u.authority (trimStartSlashes u.path) list
            return sortUnique results
  /-- `opendal_ls` lists a directory, or lists and matches. -/
  opendalLs : ∀ (operators : ResolvedUrl → Except Bytes OdOperator) op options,
    operators u = .ok op → entryInit registry operators url options =
      match
        match Consumer.opendalLs.branch url u with
        | .literal => odTableListOpen op u.path none options
        | .pattern => odTableGlobOpen op u.path options
      with
      | .ok cursor => .ok cursor
      | .error err => .error (throwIfTableError err "list" url)
  /-- `opendal_du` rolls up one file or directory, or what a pattern matches. -/
  opendalDu : ∀ op options, duEntries op u.path options =
    match Consumer.opendalDu.branch url u with
    | .literal => do
        let metadata ← op.stat u.path none
        if metadata.isFile then return [(u.path, metadata)]
        else
          let directory := if u.path.getLast? = some slash then u.path else u.path ++ [slash]
          let entries ← op.listOptions directory { options with recursive := true }
          return entries.map Entry.intoParts
    | .pattern => do
        let entries ← op.listOptions (globRoot u.path) { options with recursive := true }
        return (entries.filter fun e => globMatches (trimStartSlashes u.path) e.path).map
          Entry.intoParts
  /-- `opendal_copy` takes everything below its source, or what a pattern matches. -/
  opendalCopy : ∀ path, copySelects u.path path =
    match Consumer.opendalCopy.branch url u with
    | .literal => true
    | .pattern => globMatches (trimStartSlashes u.path) path

theorem takesBranches {registry : Registry} {url : Bytes} {u : ResolvedUrl}
    (hurl : parseUrl registry url = some u) : TakesBranches registry url u := by
  constructor
  · intro operators
    cases hwild : hasGlob url with
    | true =>
        rw [Consumer.branch, branchOf, if_pos hwild]
        simp only [fileSystemGlob, hurl, hwild]
        rfl
    | false =>
        simp only [fileSystemGlob, hurl, hwild, Consumer.branch, branchOf, Bool.true_eq_false,
          Bool.false_eq_true, if_false, if_true]
        cases fileExists registry operators url with
        | error message => rfl
        | ok found => rfl
  · intro operators op options hop
    cases hglob : hasGlob u.path <;>
      simp [entryInit, hurl, hop, ok_bind, hglob, Consumer.branch, branchOf]
  · intro op options
    cases hglob : hasGlob u.path <;> simp [duEntries, hglob, Consumer.branch, branchOf]
  · intro path
    cases hglob : hasGlob u.path <;> simp [copySelects, hglob, Consumer.branch, branchOf]

/-! ## When the consumers agree -/

/-- The encoded path of a URL, as it is spelled. -/
def encodedPathOf (url : Bytes) : Bytes :=
  match urlParts url with
  | some (_, _, encodedPath) => encodedPath
  | none => []

/-- A text has a percent-encoded wildcard. -/
def HasEncodedWildcard (text : Bytes) : Prop :=
  ∃ b, isWildcard b = true ∧ PercentCode.HasEscape b text

theorem isWildcard_iff {b : UInt8} :
    isWildcard b = true ↔ b = starByte ∨ b = questionMark ∨ b = openBracket := by
  simp [isWildcard, or_assoc]

theorem hasGlob_iff {text : Bytes} : hasGlob text = true ↔ ∃ b ∈ text, isWildcard b = true := by
  simp [hasGlob]

/-- **The wildcards of a decoded path** stand in the encoded one, as themselves or as
escapes. -/
theorem hasGlob_decode_iff (text : Bytes) :
    hasGlob (PercentCode.decode text) = true ↔ hasGlob text = true ∨ HasEncodedWildcard text := by
  have hmem : ∀ b, isWildcard b = true →
      (b ∈ PercentCode.decode text ↔ b ∈ text ∨ PercentCode.HasEscape b text) := by
    intro b hb
    rcases isWildcard_iff.mp hb with rfl | rfl | rfl
    · exact PercentCode.mem_decode_iff (by decide) (by decide) text
    · exact PercentCode.mem_decode_iff (by decide) (by decide) text
    · exact PercentCode.mem_decode_iff (by decide) (by decide) text
  rw [hasGlob_iff, hasGlob_iff]
  constructor
  · rintro ⟨b, hb, hwild⟩
    rcases (hmem b hwild).mp hb with hb | hb
    · exact Or.inl ⟨b, hb, hwild⟩
    · exact Or.inr ⟨b, hwild, hb⟩
  · rintro (⟨b, hb, hwild⟩ | ⟨b, hwild, hb⟩)
    · exact ⟨b, (hmem b hwild).mpr (Or.inl hb), hwild⟩
    · exact ⟨b, (hmem b hwild).mpr (Or.inr hb), hwild⟩

/-- A wildcard of the encoded path is one of the URL. -/
theorem hasGlob_of_encodedPath {url scheme authority encodedPath : Bytes}
    (h : urlParts url = some (scheme, authority, encodedPath))
    (hglob : hasGlob encodedPath = true) : hasGlob url = true := by
  obtain ⟨-, tail, htext, htail⟩ := urlParts_eq_some h
  obtain ⟨b, hb, hwild⟩ := hasGlob_iff.mp hglob
  -- The encoded path is a part of the text with its backslashes rewritten.
  have htail : b ∈ tail := by
    rcases htail with ⟨-, rfl⟩ | rfl
    · exact absurd hb List.not_mem_nil
    · exact List.mem_cons_of_mem _ hb
  have hmap : b ∈ (cStr url).map unbackslash := by
    rw [htext]
    exact List.mem_append_right _ htail
  obtain ⟨c, hc, hcb⟩ := List.mem_map.mp hmap
  have hsame : c = b := by
    unfold unbackslash at hcb
    split at hcb
    · subst hcb
      exact absurd hwild (by decide)
    · exact hcb
  exact hasGlob_iff.mpr ⟨b, (List.takeWhile_prefix _).mem (hsame ▸ hc), hwild⟩

/-- **When all consumers read a URL alike**, each taking its branch: when its encoded path has a
wildcard that is not percent-encoded, or else the URL has a wildcard exactly when its path has
an encoded one. -/
theorem consumers_agree_iff {registry : Registry} {url : Bytes} {u : ResolvedUrl}
    (hurl : parseUrl registry url = some u) :
    TakesBranches registry url u ∧
      ((∀ c c' : Consumer, c.branch url u = c'.branch url u) ↔
        hasGlob (encodedPathOf url) = true ∨
          (hasGlob url = true ↔ HasEncodedWildcard (encodedPathOf url))) := by
  refine ⟨takesBranches hurl, ?_⟩
  obtain ⟨scheme, authority, encodedPath, hu⟩ :=
    odUrlResolve_eq_ok_iff.mp (odUrlResolve_of_parseUrl hurl)
  have hencoded : encodedPathOf url = encodedPath := by
    rw [encodedPathOf, hu.parts]
  have hpath : hasGlob u.path = true ↔
      hasGlob encodedPath = true ∨ HasEncodedWildcard encodedPath := by
    rw [hu.eq]
    exact hasGlob_decode_iff encodedPath
  have hraw := hasGlob_of_encodedPath hu.parts
  have hbranch : ∀ text text', branchOf text = branchOf text' ↔
      (hasGlob text = true ↔ hasGlob text' = true) := by
    intro text text'
    unfold branchOf
    cases hasGlob text <;> cases hasGlob text' <;> simp
  have hagree : (∀ c c' : Consumer, c.branch url u = c'.branch url u) ↔
      (hasGlob url = true ↔ hasGlob u.path = true) := by
    rw [← hbranch]
    constructor
    · intro h
      exact h .fileSystemGlob .opendalLs
    · intro h c c'
      cases c <;> cases c' <;> first | rfl | exact h | exact h.symm
  rw [hagree, hpath, hencoded]
  -- A wildcard in the encoded path is seen by everyone; else the raw and the encoded ones
  -- have to go together.
  by_cases hglob : hasGlob encodedPath = true
  · simp [hglob, hraw hglob]
  · simp only [hglob, false_or, Bool.false_eq_true]

/-- A raw wildcard decides for all of them. -/
theorem consumers_agree_raw :
    ¬ ∃ c c' : Consumer, c.branch (ascii "memory://b/a%5B*")
        ⟨ascii "memory", ascii "b", ascii "a[*"⟩ ≠
      c'.branch (ascii "memory://b/a%5B*") ⟨ascii "memory", ascii "b", ascii "a[*"⟩ := by
  have hurl : parseUrl defaultRegistry (ascii "memory://b/a%5B*") =
      some ⟨ascii "memory", ascii "b", ascii "a[*"⟩ := by decide
  rintro ⟨c, c', hne⟩
  exact hne ((consumers_agree_iff hurl).2.mpr (Or.inl (by decide)) c c')

/-- Two files, one of them named like a pattern that matches both. -/
def starFiles : List Entry :=
  [fileEntry (ascii "a*b") (by decide) 1, fileEntry (ascii "axb") (by decide) 1]

/-- An encoded star: `Glob` finds one object, `opendal_du` and `opendal_copy` act on two. -/
theorem consumers_disagree_encoded :
    parseUrl defaultRegistry (ascii "memory://b/a%2Ab") =
        some ⟨ascii "memory", ascii "b", ascii "a*b"⟩ ∧
      fileSystemGlob defaultRegistry (fun _ => .ok (storeOperator .all starFiles)) true
        (ascii "memory://b/a%2Ab") = .ok [ascii "memory://b/a%2Ab"] ∧
      (duEntries (storeOperator .all starFiles) (ascii "a*b") (.plain true)).map
        (fun entries => entries.map Prod.fst) = .ok [ascii "a*b", ascii "axb"] ∧
      ¬ ∀ c c' : Consumer, c.branch (ascii "memory://b/a%2Ab")
          ⟨ascii "memory", ascii "b", ascii "a*b"⟩ =
        c'.branch (ascii "memory://b/a%2Ab") ⟨ascii "memory", ascii "b", ascii "a*b"⟩ := by
  refine ⟨by decide, by decide +kernel, by decide +kernel, fun h => ?_⟩
  exact absurd (h .fileSystemGlob .opendalDu) (by decide)

/-! ## The documented patterns -/

/-- A letter, a digit, `.`, `_`, `-` or `=`. -/
def isPlainByte (b : UInt8) : Bool :=
  (0x61 ≤ b && b ≤ 0x7A) || (0x41 ≤ b && b ≤ 0x5A) || (0x30 ≤ b && b ≤ 0x39) ||
    b == 0x2E || b == 0x5F || b == 0x2D || b == 0x3D

/-- A byte between brackets: a plain one, a mark of negation, or a wildcard. -/
def isClassByte (b : UInt8) : Bool := isPlainByte b || b == 0x21 || b == 0x5E || isWildcard b

/-- The pieces of a documented pattern. -/
inductive GlobPiece where
  | plain (b : UInt8) (h : isPlainByte b = true)
  | separator
  | star
  | question
  | globstar
  | brackets (body : Bytes) (h : ∀ b ∈ body, isClassByte b = true)

namespace GlobPiece

/-- How a piece is written. -/
def text : GlobPiece → Bytes
  | plain b _ => [b]
  | separator => [slash]
  | star => [starByte]
  | question => [questionMark]
  | globstar => [starByte, starByte]
  | brackets body _ => openBracket :: body ++ [closeBracket]

/-- A piece that matches more than itself. -/
def isWild : GlobPiece → Bool
  | plain _ _ | separator => false
  | _ => true

end GlobPiece

/-- The pattern language of the table functions' guide: plain bytes, separators and
wildcards, at least one of these. -/
def DocumentedGlob (g : Bytes) : Prop :=
  ∃ pieces : List GlobPiece, g = pieces.flatMap GlobPiece.text ∧ ∃ p ∈ pieces, p.isWild = true

/-- **A pattern can be used in a URL**: `ParseUrl` accepts it as the operation path, and
`Glob` and `opendal_ls` return the files it selects. -/
def SelectsByUrl (registry : Registry) (scheme authority g : Bytes) : Prop :=
  let url := scheme ++ schemeSep ++ authority ++ slash :: g
  let u : ResolvedUrl := ⟨scheme, authority, g⟩
  parseUrl registry url = some u ∧
  ∀ (getBasename : Bytes → Bytes) (operators : ResolvedUrl → Except Bytes OdOperator)
    (op : OdOperator) (store : Set Bytes), (∀ path, getBasename path <:+ path) →
    operators u = .ok op → (∀ f ∈ store, NormalizedPath f) → ListsStore op store →
    NulFreeListings op →
    (∀ haveContext, ∃ urls, fileSystemGlob registry operators haveContext url = .ok urls ∧
      urls.Pairwise (· < ·) ∧ Set.BijOn u.urlOf (globSelection store g) {r | r ∈ urls}) ∧
    ∀ recursive, ∃ cursor rows,
      entryInit registry operators url (.plain recursive) = .ok cursor ∧
        Cursor.Drains (odTableCursorNext getBasename) cursor rows (.ok ()) ∧
        {f | ∃ row ∈ rows, row.path = f ∧ row.mode = EntryMode.FILE.code} = globSelection store g

/-- What a byte of a pattern is not. -/
theorem plain_of_isClassByte {b : UInt8}
    (h : (isClassByte b || b == slash || b == closeBracket) = true) :
    (urlPathEncodeSet b = true → b = questionMark) ∧ b ≠ backslash ∧ b ≠ 0 ∧ b < 0x80 := by
  simp only [isClassByte, isPlainByte, isWildcard, Bool.or_eq_true, Bool.and_eq_true,
    decide_eq_true_eq, beq_iff_eq, UInt8.le_iff_toNat_le, ← UInt8.toNat_inj, UInt8.reduceToNat,
    starByte, questionMark, openBracket, slash, closeBracket] at h
  simp only [urlPathEncodeSet, Bool.or_eq_true, decide_eq_true_eq, beq_iff_eq, ne_eq,
    UInt8.lt_iff_toNat_lt, UInt8.le_iff_toNat_le, ← UInt8.toNat_inj, UInt8.reduceToNat,
    questionMark, backslash, hash, PercentCode.percent]
  omega

/-- The bytes of a documented pattern. -/
theorem DocumentedGlob.bytes {g : Bytes} (hg : DocumentedGlob g) {b : UInt8} (hb : b ∈ g) :
    (urlPathEncodeSet b = true → b = questionMark) ∧ b ≠ backslash ∧ b ≠ 0 ∧ b < 0x80 := by
  obtain ⟨pieces, rfl, -⟩ := hg
  obtain ⟨p, -, hp⟩ := List.mem_flatMap.mp hb
  apply plain_of_isClassByte
  cases p with
  | plain b' h =>
      obtain rfl := List.mem_singleton.mp hp
      simp [isClassByte, h]
  | separator =>
      obtain rfl := List.mem_singleton.mp hp
      rfl
  | star =>
      obtain rfl := List.mem_singleton.mp hp
      rfl
  | question =>
      obtain rfl := List.mem_singleton.mp hp
      rfl
  | globstar =>
      simp only [GlobPiece.text, List.mem_cons, List.not_mem_nil, or_false, or_self] at hp
      subst hp
      rfl
  | brackets body h =>
      simp only [GlobPiece.text, List.cons_append, List.mem_cons, List.mem_append,
        List.not_mem_nil, or_false] at hp
      rcases hp with rfl | hp | rfl
      · rfl
      · simp [h b hp]
      · rfl

theorem DocumentedGlob.wildcard {g : Bytes} (hg : DocumentedGlob g) : hasGlob g = true := by
  obtain ⟨pieces, rfl, p, hp, hwild⟩ := hg
  have hhead : ∃ b ∈ p.text, isWildcard b = true := by
    cases p with
    | plain b h => cases hwild
    | separator => cases hwild
    | star => exact ⟨starByte, List.mem_cons_self, rfl⟩
    | question => exact ⟨questionMark, List.mem_cons_self, rfl⟩
    | globstar => exact ⟨starByte, List.mem_cons_self, rfl⟩
    | brackets body h => exact ⟨openBracket, List.mem_cons_self, rfl⟩
  obtain ⟨b, hb, hwild⟩ := hhead
  exact hasGlob_iff.mpr ⟨b, List.mem_flatMap.mpr ⟨p, hp, hb⟩, hwild⟩

section Documented

variable {registry : Registry} {scheme authority g : Bytes}

/-- A documented pattern without `?` is written as it stands. -/
theorem DocumentedGlob.encodePath_self (hg : DocumentedGlob g) (hquestion : questionMark ∉ g) :
    encodePath g = g := by
  rw [encodePath_eq, PercentCode.encode]
  have hsingle : ∀ b ∈ g, (if urlPathEncodeSet b then PercentCode.escapeByte b else [b]) = [b] := by
    intro b hb
    refine if_neg fun hset => hquestion ?_
    exact (hg.bytes hb).1 hset ▸ hb
  rw [List.flatMap_congr hsingle]
  exact List.flatMap_singleton' g

/-- **When a documented pattern can be used in a URL**: when it has no `?`. -/
theorem selectsByUrl_iff (hscheme : scheme ∈ registry.schemes)
    (hauthority : Utf8.isUtf8 authority = true) (hplain : ∀ b ∈ authority, b ∉ authorityForbidden)
    (hg : DocumentedGlob g) : SelectsByUrl registry scheme authority g ↔ questionMark ∉ g := by
  have hutf8 : Utf8.isUtf8 g = true := Utf8.isUtf8_of_forall_ascii fun b hb => (hg.bytes hb).2.2.2
  have h0 : 0 ∉ g := fun h => (hg.bytes h).2.2.1 rfl
  constructor
  · rintro ⟨hurl, -⟩ hquestion
    obtain ⟨_, _, _, hu⟩ := odUrlResolve_eq_ok_iff.mp (odUrlResolve_of_parseUrl hurl)
    refine hu.query.1 (List.mem_map.mpr ⟨questionMark, ?_, rfl⟩)
    have hnul : 0 ∉ scheme ++ schemeSep ++ authority ++ slash :: g := by
      rw [List.mem_append, List.mem_cons, not_or, not_or]
      exact ⟨(cString_uri hscheme hauthority hplain).1, by decide, h0⟩
    rw [cStr_of_notMem hnul]
    exact List.mem_append_right _ (List.mem_cons_of_mem _ hquestion)
  · intro hquestion
    have hurl : parseUrl registry (scheme ++ schemeSep ++ authority ++ slash :: g) =
        some ⟨scheme, authority, g⟩ := by
      have hresolve := resolve_url hscheme hauthority hplain hutf8 h0
      rw [hg.encodePath_self hquestion,
        map_eq_self fun b hb => unbackslash_of_ne (hg.bytes hb).2.1] at hresolve
      rw [parseUrl, odUrlResolve, hresolve]
      rfl
    refine ⟨hurl, ?_⟩
    intro getBasename operators op store hbase hop hstore hlists hnul
    have hwild : hasGlob (scheme ++ schemeSep ++ authority ++ slash :: g) = true := by
      obtain ⟨b, hb, hwild⟩ := hasGlob_iff.mp hg.wildcard
      exact hasGlob_iff.mpr ⟨b, List.mem_append_right _ (List.mem_cons_of_mem _ hb), hwild⟩
    refine ⟨fileSystemGlob_selects hurl hwild hop hstore hlists hnul, fun recursive => ?_⟩
    obtain ⟨cursor, rows, hopen, hrows⟩ := odTableGlobOpen_selects hbase
      (wellFormed_of_parseUrl hurl) hg.wildcard hstore hlists hnul recursive
    refine ⟨cursor, rows, ?_, hrows⟩
    simp only [entryInit, hurl, hop, ok_bind, hg.wildcard, if_true, hopen]

end Documented

/-- A directory, a star and a negated class. -/
theorem selectsByUrl_class :
    SelectsByUrl defaultRegistry (ascii "memory") (ascii "b") (ascii "d/*[!x]") := by
  have hg : DocumentedGlob (ascii "d/*[!x]") :=
    ⟨[.plain 0x64 rfl, .separator, .star, .brackets [0x21, 0x78] (by decide +kernel)],
      by decide, .star, by simp, rfl⟩
  exact (selectsByUrl_iff (by decide) (by decide) (by decide +kernel) hg).mpr (by decide)

/-- A question mark, which the matcher knows, is a query string for `resolve`. -/
theorem selectsByUrl_question :
    DocumentedGlob (ascii "a?") ∧ globMatches (ascii "a?") (ascii "ab") = true ∧
      odUrlResolve defaultRegistry (ascii "memory://b/a?") =
        .error ⟨.InvalidInput,
          ascii "query strings and fragments are not supported in OpenDAL file URLs"⟩ ∧
      fileSystemGlob defaultRegistry
        (fun _ => .ok (storeOperator .all [fileEntry (ascii "ab") (by decide) 1])) true
        (ascii "memory://b/a?") = .ok [] ∧
      ¬ SelectsByUrl defaultRegistry (ascii "memory") (ascii "b") (ascii "a?") := by
  refine ⟨⟨[.plain 0x61 rfl, .question], by decide, .question, by simp, rfl⟩,
    by decide +kernel, by decide, by decide +kernel, fun h => ?_⟩
  exact absurd h.1 (by decide)

end DuckdbOpendal
