import DuckdbOpendal.Lib.LexicalPath
import DuckdbOpendal.Uri

/-!
# The segments of a resolved path

What `resolve` does to the path of a URL, segment by segment.  Decoding never moves a
separator, because the check for `%2F` is exact: it looks at the undecoded text, and every
`%2f` in it is an escape the decoder reads.  Nothing is checked about `..` segments, so a
path leaves the operator root exactly when its URL is spelled so.

## Main Definitions

* `CreatesSeparator` — decoding a segment brings in a separator
* `pathStep`, `spelledStep` — what a segment does, decoded and as it is spelled

## Main Results

* `resolve_segments` — the segments of a resolved path, and the exactness of the check
* `odUrlResolve_confined_iff` — when a resolved path stays inside the operator root
-/

namespace DuckdbOpendal

open LexicalPath

/-! ## The check for separators -/

/-- Decoding some segment of an encoded path brings in a separator. -/
def CreatesSeparator (encodedPath : Bytes) : Prop :=
  ∃ s ∈ encodedPath.splitOn slash, slash ∈ PercentCode.decode s

instance (encodedPath : Bytes) : Decidable (CreatesSeparator encodedPath) :=
  inferInstanceAs (Decidable (∃ s ∈ encodedPath.splitOn slash, slash ∈ PercentCode.decode s))

/-- **The check for `%2F` is exact**: the lower-cased text has a `%2f` if and only if
decoding a segment brings in a separator. -/
theorem encodedSlash_infix_iff (encodedPath : Bytes) :
    encodedSlash <:+: encodedPath.map toAsciiLowercase ↔ CreatesSeparator encodedPath := by
  rw [CreatesSeparator, ← PercentCode.hasEscape_iff_splitOn (by decide) (by decide),
    PercentCode.hasEscape_iff]
  have hpercent : ∀ b, toAsciiLowercase b = 0x25 ↔ b = PercentCode.percent :=
    PercentCode.forall_byte (by decide +kernel)
  have hhigh : ∀ b, toAsciiLowercase b = 0x32 ↔ PercentCode.hexValue b = some (slash / 16) :=
    PercentCode.forall_byte (by decide +kernel)
  have hlow : ∀ b, toAsciiLowercase b = 0x66 ↔ PercentCode.hexValue b = some (slash % 16) :=
    PercentCode.forall_byte (by decide +kernel)
  rw [List.infix_map_iff]
  constructor
  · rintro ⟨l, hinfix, hl⟩
    obtain ⟨p, _, rfl, hp, hl⟩ := List.map_eq_cons_iff.mp hl.symm
    obtain ⟨d, _, rfl, hd, hl⟩ := List.map_eq_cons_iff.mp hl
    obtain ⟨e, _, rfl, he, hl⟩ := List.map_eq_cons_iff.mp hl
    obtain rfl := List.map_eq_nil_iff.mp hl
    obtain rfl := (hpercent p).mp hp
    exact ⟨d, e, hinfix, (hhigh d).mp hd, (hlow e).mp he⟩
  · rintro ⟨d, e, hinfix, hd, he⟩
    refine ⟨_, hinfix, ?_⟩
    simp only [encodedSlash, List.map_cons, List.map_nil, (hhigh d).mpr hd, (hlow e).mpr he]
    rfl

/-! ## Resolving a path -/

/-- Decoding a path keeps its segments. -/
theorem Resolved.splitOn_path {registry : Registry} {url scheme authority encodedPath : Bytes}
    {u : ResolvedUrl} (hu : Resolved registry url u scheme authority encodedPath) :
    u.path.splitOn slash = (encodedPath.splitOn slash).map PercentCode.decode := by
  rw [hu.eq, PercentCode.splitOn_decode_iff (by decide) (by decide),
    PercentCode.hasEscape_iff_splitOn (by decide) (by decide)]
  exact fun hcreates => hu.separators ((encodedSlash_infix_iff encodedPath).mpr hcreates)

/-- **The segments of a resolved path.**  No URL makes `resolve` panic.  The segments of the
path it returns are the decoded segments of the encoded path, and what it returns are C
strings.  An encoded path it gets to is refused for its separators if and only if decoding
it would create one. -/
theorem resolve_segments (registry : Registry) (url : Bytes) :
    resolve registry url ≠ none ∧
      (∀ u, odUrlResolve registry url = .ok u → ∃ scheme authority encodedPath,
        urlParts url = some (scheme, authority, encodedPath) ∧
          u.path.splitOn slash = (encodedPath.splitOn slash).map PercentCode.decode ∧
          0 ∉ u.scheme ∧ 0 ∉ u.authority ∧ 0 ∉ u.path) ∧
      ∀ scheme authority encodedPath, ReachesPath registry url scheme authority encodedPath →
        (resolve registry url = some (.error
            ⟨.InvalidInput, ascii "percent-encoded path separators are not supported"⟩) ↔
          CreatesSeparator encodedPath) := by
  refine ⟨resolve_ne_none registry url, ?_, ?_⟩
  · intro u h
    have hwell := odUrlResolve_wellFormed h
    obtain ⟨scheme, authority, encodedPath, hu⟩ := odUrlResolve_eq_ok_iff.mp h
    exact ⟨scheme, authority, encodedPath, hu.parts, hu.splitOn_path,
      (cString_scheme hwell.scheme).1, fun h0 => hwell.authority_plain 0 h0 (by decide),
      hwell.path_nul⟩
  · intro scheme authority encodedPath hreach
    rw [resolve_of_reachesPath hreach, Option.some.injEq, ← encodedSlash_infix_iff]
    constructor
    · intro h
      by_contra hcreates
      rw [if_neg hcreates] at h
      split at h
      · exact absurd (congrArg OdError.message (Except.error.inj h)) (by decide)
      split at h
      · exact absurd (congrArg OdError.message (Except.error.inj h)) (by decide)
      · cases h
    · intro hcreates
      rw [if_pos hcreates]

example : CreatesSeparator (ascii "%%2f") ∧ CreatesSeparator (ascii "%2%2F") ∧
    ¬ CreatesSeparator (ascii "%252f") := by decide

/-! ## Paths that leave the root -/

abbrev dot : UInt8 := 0x2E

/-- What a segment of a path does: an empty one and `.` stay, `..` goes up. -/
def pathStep (s : Bytes) : Step :=
  if s = [] ∨ s = [dot] then .stay else if s = [dot, dot] then .up else .named

/-- The spellings of a dot in a URL: `.`, `%2e` and `%2E`. -/
def dotSpellings : List Bytes := [[dot], [0x25, 0x32, 0x65], [0x25, 0x32, 0x45]]

/-- What a segment of a URL does, as it is spelled. -/
def spelledStep (s : Bytes) : Step :=
  if s = [] ∨ dotSpellings.contains s then .stay
  else if (dotSpellings.flatMap fun p => dotSpellings.map (p ++ ·)).contains s then .up
  else .named

theorem spells_dot_iff (piece : Bytes) :
    PercentCode.Spells dot piece ↔ piece ∈ dotSpellings := by
  constructor
  · rintro (rfl | ⟨d, e, hi, lo, rfl, hd, he, hdot⟩)
    · decide
    obtain ⟨hhi, hd⟩ := PercentCode.digit_of_hexValue hd
    obtain ⟨hlo, he⟩ := PercentCode.digit_of_hexValue he
    obtain ⟨rfl, rfl⟩ := (PercentCode.escape_eq_iff hhi hlo).mp hdot
    rcases hd with rfl | ⟨hletter, -⟩
    · rcases he with rfl | ⟨-, rfl⟩ <;> decide
    · exact absurd hletter (by decide)
  · intro h
    simp only [dotSpellings, List.mem_cons, List.not_mem_nil, or_false] at h
    rcases h with rfl | rfl | rfl
    · exact Or.inl rfl
    · exact Or.inr ⟨0x32, 0x65, 2, 14, rfl, by decide, by decide, by decide⟩
    · exact Or.inr ⟨0x32, 0x45, 2, 14, rfl, by decide, by decide, by decide⟩

/-- **A segment does what its spelling does.** -/
theorem pathStep_decode (s : Bytes) : pathStep (PercentCode.decode s) = spelledStep s := by
  have hcons : ∀ s rest, PercentCode.decode s = dot :: rest ↔
      ∃ piece t, s = piece ++ t ∧ piece ∈ dotSpellings ∧ PercentCode.decode t = rest := by
    intro s rest
    simp only [PercentCode.decode_eq_cons_iff (by decide : dot ≠ PercentCode.percent),
      spells_dot_iff]
  have hdot : PercentCode.decode s = [dot] ↔ s ∈ dotSpellings := by
    simp [hcons, PercentCode.decode_eq_nil_iff]
  have hdotdot : PercentCode.decode s = [dot, dot] ↔
      s ∈ dotSpellings.flatMap fun p => dotSpellings.map (p ++ ·) := by
    simp only [hcons, PercentCode.decode_eq_nil_iff, List.mem_flatMap, List.mem_map]
    constructor
    · rintro ⟨p, -, rfl, hp, q, -, rfl, hq, rfl⟩
      exact ⟨p, hp, q, hq, by simp⟩
    · rintro ⟨p, hp, q, hq, rfl⟩
      exact ⟨p, q, rfl, hp, q, [], by simp, hq, rfl⟩
  simp only [pathStep, spelledStep, List.contains_iff_mem, PercentCode.decode_eq_nil_iff, hdot,
    hdotdot]

/-- The path never goes above its start: no prefix of its segments has more `..` than
named ones. -/
def StaysInside (path : Bytes) : Prop := Confined ((path.splitOn slash).map pathStep)

/-- The same of an encoded path, as its segments are spelled. -/
def SpelledInside (encodedPath : Bytes) : Prop :=
  Confined ((encodedPath.splitOn slash).map spelledStep)

instance (path : Bytes) : Decidable (StaysInside path) := inferInstanceAs (Decidable (Confined _))

instance (encodedPath : Bytes) : Decidable (SpelledInside encodedPath) :=
  inferInstanceAs (Decidable (Confined _))

/-- **When a resolved path stays inside the operator root**: when the URL is spelled so. -/
theorem odUrlResolve_confined_iff {registry : Registry} {url scheme authority encodedPath : Bytes}
    {u : ResolvedUrl} (hurl : odUrlResolve registry url = .ok u)
    (hparts : urlParts url = some (scheme, authority, encodedPath)) :
    StaysInside u.path ↔ SpelledInside encodedPath := by
  obtain ⟨_, _, _, hu⟩ := odUrlResolve_eq_ok_iff.mp hurl
  cases hparts.symm.trans hu.parts
  rw [StaysInside, SpelledInside, hu.splitOn_path, List.map_map]
  refine iff_of_eq (congrArg Confined (List.map_congr_left fun s _ => ?_))
  exact pathStep_decode s

/-- A path that goes up and comes back. -/
theorem odUrlResolve_confined_back :
    StaysInside (ascii "a/../b") ↔ SpelledInside (ascii "a/%2E./b") := by
  have hurl : odUrlResolve defaultRegistry (ascii "fs:///a\\%2E./b") =
      .ok ⟨ascii "fs", [], ascii "a/../b"⟩ := by rfl
  have hparts : urlParts (ascii "fs:///a\\%2E./b") =
      some (ascii "fs", [], ascii "a/%2E./b") := by rfl
  exact odUrlResolve_confined_iff hurl hparts

/-- `resolve` accepts a path that leaves the root. -/
theorem odUrlResolve_escapes :
    ∃ u, odUrlResolve defaultRegistry (ascii "fs:///%2e%2e/etc/passwd") = .ok u ∧
      ¬ StaysInside u.path :=
  ⟨⟨ascii "fs", [], ascii "../etc/passwd"⟩, by rfl, by decide⟩

end DuckdbOpendal
