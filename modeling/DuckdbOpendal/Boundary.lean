import DuckdbOpendal.OperatorOptions
import DuckdbOpendal.UriSegments

/-!
# Texts at the boundary

A URL, and each key and value of a request, is handed to Rust as a pointer to its bytes and
read up to the first NUL.  A text with a NUL in it is therefore not refused: what stands
before the NUL is taken for it, and if that is in order, the call goes through.

## Main Definitions

* `odOperatorNew` — building an operator from the arrays
* `UrlIntact`, `RequestIntact` — what is taken has arrived whole

## Main Results

* `boundary_intact_iff` — when that holds
-/

namespace DuckdbOpendal

/-! ## URLs -/

/-- A URL that is taken has arrived whole, and spells no NUL. -/
def UrlIntact (registry : Registry) (url : Bytes) : Prop :=
  (parseUrl registry url).isSome = true → cStr url = url ∧ ¬ ascii "%00" <:+: url

/-- The escape of a NUL has one spelling. -/
theorem nulEscape_infix_iff (s : Bytes) :
    ascii "%00" <:+: s ↔ PercentCode.HasEscape 0 s := by
  have hdigit : ∀ b, PercentCode.hexValue b = some 0 ↔ b = 0x30 :=
    PercentCode.forall_byte (by decide +kernel)
  rw [PercentCode.hasEscape_iff]
  constructor
  · intro h
    exact ⟨0x30, 0x30, h, rfl, rfl⟩
  · rintro ⟨d, e, h, hd, he⟩
    obtain rfl := (hdigit d).mp hd
    obtain rfl := (hdigit e).mp he
    exact h

/-- Turning backslashes spells no NUL, and unspells none. -/
theorem nulEscape_infix_map_iff (s : Bytes) :
    ascii "%00" <:+: s.map unbackslash ↔ ascii "%00" <:+: s := by
  rw [List.infix_map_iff]
  constructor
  · rintro ⟨l, hl, hmap⟩
    have hself : l.map unbackslash = l := by
      refine map_eq_self fun b hb => unbackslash_of_ne ?_
      rintro rfl
      have hslash : slash ∈ ascii "%00" := hmap ▸ List.mem_map_of_mem hb
      exact absurd hslash (by decide)
    rwa [hmap, hself]
  · intro h
    exact ⟨ascii "%00", h, by decide⟩

section Resolved

variable {registry : Registry} {url scheme authority encodedPath : Bytes} {u : ResolvedUrl}
  (hu : Resolved registry url u scheme authority encodedPath)
include hu

theorem Resolved.percent_notMem_scheme : PercentCode.percent ∉ scheme := by
  intro h
  have hscheme := registry.lowercase _ hu.registered _ (List.mem_map_of_mem h)
  revert hscheme
  decide

/-- A path that spells a NUL is rejected. -/
theorem Resolved.not_nulEscape_infix : ¬ ascii "%00" <:+: encodedPath := by
  rw [nulEscape_infix_iff]
  intro h
  exact hu.nul.2 ((PercentCode.mem_decode_iff (by decide) (by decide) _).mpr (Or.inr h))

/-- An accepted URL spells a NUL in its authority or not at all. -/
theorem Resolved.nulEscape_infix_iff : ascii "%00" <:+: cStr url ↔ ascii "%00" <:+: authority := by
  obtain ⟨-, tail, htext, htail⟩ := urlParts_eq_some hu.parts
  have hcolon : colon ∉ ascii "%00" := by decide
  have hslash : slash ∉ ascii "%00" := by decide
  have hscheme : ¬ ascii "%00" <:+: scheme := fun h =>
    hu.percent_notMem_scheme (h.subset List.mem_cons_self)
  have hnil : ¬ ascii "%00" <:+: [] := by decide
  have htail' : ascii "%00" <:+: authority ++ tail ↔ ascii "%00" <:+: authority := by
    rcases htail with ⟨rfl, -⟩ | rfl
    · rw [List.append_nil]
    · rw [Text.infix_append_cons_iff hslash, or_iff_left hu.not_nulEscape_infix]
  calc ascii "%00" <:+: cStr url
      ↔ ascii "%00" <:+:
          scheme ++ colon :: ([] ++ slash :: ([] ++ slash :: (authority ++ tail))) := by
        rw [← nulEscape_infix_map_iff, htext]
        simp [schemeSep]
    _ ↔ ascii "%00" <:+: authority ++ tail := by
        rw [Text.infix_append_cons_iff hcolon, Text.infix_append_cons_iff hslash,
          Text.infix_append_cons_iff hslash, or_iff_right hscheme, or_iff_right hnil,
          or_iff_right hnil]
    _ ↔ ascii "%00" <:+: authority := htail'

end Resolved

theorem parseUrl_isSome_iff {registry : Registry} {url : Bytes} :
    (parseUrl registry url).isSome = true ↔
      ∃ u scheme authority encodedPath, Resolved registry url u scheme authority encodedPath := by
  rw [Option.isSome_iff_exists]
  refine exists_congr fun u => ?_
  rw [← odUrlResolve_eq_ok_iff]
  refine ⟨odUrlResolve_of_parseUrl, fun h => ?_⟩
  rw [parseUrl, h]
  rfl

/-- **When a URL is intact**: when it is refused up to its first NUL, or it has none and
spells none in its authority. -/
theorem urlIntact_iff {registry : Registry} {url : Bytes} :
    UrlIntact registry url ↔ ∀ u scheme authority encodedPath,
      Resolved registry url u scheme authority encodedPath →
        0 ∉ url ∧ ¬ ascii "%00" <:+: authority := by
  rw [UrlIntact, parseUrl_isSome_iff]
  constructor
  · intro h u scheme authority encodedPath hu
    obtain ⟨hself, hescape⟩ := h ⟨u, scheme, authority, encodedPath, hu⟩
    refine ⟨cStr_eq_self_iff.mp hself, ?_⟩
    rwa [← hself, hu.nulEscape_infix_iff] at hescape
  · rintro h ⟨u, scheme, authority, encodedPath, hu⟩
    obtain ⟨hnul, hescape⟩ := h u scheme authority encodedPath hu
    have hself := cStr_eq_self_iff.mpr hnul
    refine ⟨hself, ?_⟩
    rwa [← hself, hu.nulEscape_infix_iff]

/-! ## Requests -/

section Requests

variable {F α : Type} {P : ValueParsers F}
  {service : Bytes → List (Bytes × Bytes) → Except OdError α} {r : Request}

/-- `od_operator_new`, as far as it can fail.  `service` is OpenDAL's `Operator::from_uri`. -/
def odOperatorNew (P : ValueParsers F)
    (service : Bytes → List (Bytes × Bytes) → Except OdError α) (args : OperatorArgs) :
    Except OdError (OperatorConfig F × α) := do
  let uri ← requireCstr args.uri "uri is null or not UTF-8"
  let cfg ← invalidInput (collectPairs args.config)
  let options ← invalidInput (collectPairs args.options)
  let config ← invalidInput (OperatorConfig.parse P options (cstr args.cacheNamespace))
  let op ← service uri cfg
  return (config, op)

/-- A request that is served has arrived whole. -/
def RequestIntact (P : ValueParsers F)
    (service : Bytes → List (Bytes × Bytes) → Except OdError α) (r : Request) : Prop :=
  ∀ op, odOperatorNew P service r.operatorArgs = .ok op →
    collectPairs r.operatorArgs.config = .ok r.config.entries ∧
      collectPairs r.operatorArgs.options = .ok r.options.entries

/-- The keys and values have no NUL. -/
def NulFree (entries : List (Bytes × Bytes)) : Prop := ∀ e ∈ entries, 0 ∉ e.1 ∧ 0 ∉ e.2

/-- The C strings are UTF-8. -/
def Utf8CStrings (entries : List (Bytes × Bytes)) : Prop :=
  ∀ e ∈ entries, Utf8.isUtf8 (cStr e.1) = true ∧ Utf8.isUtf8 (cStr e.2) = true

/-- **A request is in order up to the NULs in it**: its C strings are UTF-8, its options
accepted, and its configuration agrees with the service. -/
structure ServedTruncated (P : ValueParsers F)
    (service : Bytes → List (Bytes × Bytes) → Except OdError α) (r : Request) : Prop where
  config : Utf8CStrings r.config.entries
  options : Utf8CStrings r.options.entries
  accepted : Accepted P (r.options.entries.map cStrEntry)
  service : ∃ op, service r.uri (r.config.entries.map cStrEntry) = .ok op

theorem map_cStrEntry_eq_self_iff {entries : List (Bytes × Bytes)} :
    entries.map cStrEntry = entries ↔ NulFree entries := by
  refine Iff.trans ?_ (forall₂_congr fun e _ => cStrEntry_eq_self_iff)
  conv_lhs => rw [← List.map_id entries, List.map_map]
  exact List.map_inj_left

/-- What arrives of the entries of a request. -/
theorem collectPairs_entries {entries out : List (Bytes × Bytes)} :
    collectPairs (entries.map fun e => (cStr e.1, cStr e.2)) = .ok out ↔
      Utf8CStrings entries ∧ out = entries.map cStrEntry := by
  show collectPairsFrom 0 (entries.map cStrEntry) = .ok out ↔ _
  have hagain : (entries.map cStrEntry).map cStrEntry = entries.map cStrEntry := by
    rw [List.map_map]
    exact List.map_congr_left fun e _ => cStrEntry_cStrEntry e
  rw [collectPairsFrom_eq_ok, hagain, List.forall_mem_map]
  have hcStr : ∀ s, cStr (cStr s) = cStr s := fun s => cStr_of_notMem (notMem_cStr s)
  simp only [cStrEntry, hcStr, Utf8CStrings]

/-- When a request is served. -/
theorem exists_odOperatorNew_iff (hdefaults : ReadsDefaults P) (huri : IsCString r.uri) :
    (∃ op, odOperatorNew P service r.operatorArgs = .ok op) ↔ ServedTruncated P service r := by
  have hread : cstr r.operatorArgs.uri = some r.uri := cstr_cStr_of_isCString huri
  simp only [odOperatorNew, bind_eq_ok, requireCstr_eq_ok, invalidInput_eq_ok, hread]
  constructor
  · rintro ⟨_, uri, huri, cfg, hcfg, options, hoptions, config, hconfig, op, hop, -⟩
    cases huri
    obtain ⟨hconfigUtf8, rfl⟩ := collectPairs_entries.mp hcfg
    obtain ⟨hoptionsUtf8, rfl⟩ := collectPairs_entries.mp hoptions
    exact ⟨hconfigUtf8, hoptionsUtf8, (exists_parse_iff hdefaults).mp ⟨config, hconfig⟩, op, hop⟩
  · rintro ⟨hconfigUtf8, hoptionsUtf8, haccepted, op, hop⟩
    obtain ⟨config, hconfig⟩ : ∃ config, OperatorConfig.parse P
        (r.options.entries.map cStrEntry) (cstr r.operatorArgs.cacheNamespace) = .ok config :=
      (exists_parse_iff hdefaults).mpr haccepted
    exact ⟨(config, op), r.uri, rfl, _, collectPairs_entries.mpr ⟨hconfigUtf8, rfl⟩, _,
      collectPairs_entries.mpr ⟨hoptionsUtf8, rfl⟩, config, hconfig, op, hop, rfl⟩

/-- **When a request is intact**: when it has no NUL, or is refused without what follows
them. -/
theorem requestIntact_iff (hdefaults : ReadsDefaults P) (huri : IsCString r.uri) :
    RequestIntact P service r ↔
      NulFree r.config.entries ∧ NulFree r.options.entries ∨ ¬ ServedTruncated P service r := by
  have hserved : (∃ op, odOperatorNew P service r.operatorArgs = .ok op) ↔
      ServedTruncated P service r := exists_odOperatorNew_iff hdefaults huri
  constructor
  · intro h
    by_cases hr : ServedTruncated P service r
    · obtain ⟨op, hop⟩ := hserved.mpr hr
      obtain ⟨hconfig, hoptions⟩ := h op hop
      have hconfig := (collectPairs_entries.mp hconfig).2.symm
      have hoptions := (collectPairs_entries.mp hoptions).2.symm
      exact Or.inl ⟨map_cStrEntry_eq_self_iff.mp hconfig, map_cStrEntry_eq_self_iff.mp hoptions⟩
    · exact Or.inr hr
  · rintro (⟨hconfig, hoptions⟩ | hrefused) op hop
    · have hr := hserved.mp ⟨op, hop⟩
      exact ⟨collectPairs_entries.mpr ⟨hr.config, (map_cStrEntry_eq_self_iff.mpr hconfig).symm⟩,
        collectPairs_entries.mpr ⟨hr.options, (map_cStrEntry_eq_self_iff.mpr hoptions).symm⟩⟩
    · exact absurd (hserved.mp ⟨op, hop⟩) hrefused

/-- **When what crosses the boundary arrives whole.**  A URL that is taken has: when what
stands before its first NUL is no URL to take, or there is no NUL in it, raw or spelled in
the authority.  A request that is served has: when its configuration and options have no
NUL, or would be refused for what stands before it. -/
theorem boundary_intact_iff (hdefaults : ReadsDefaults P) (registry : Registry) :
    (∀ url, UrlIntact registry url ↔ ∀ u scheme authority encodedPath,
        Resolved registry url u scheme authority encodedPath →
          0 ∉ url ∧ ¬ ascii "%00" <:+: authority) ∧
      ∀ session url c r, operatorFor registry session url = some c → c.request = some r →
        ∀ service : Bytes → List (Bytes × Bytes) → Except OdError α,
          RequestIntact P service r ↔
            NulFree r.config.entries ∧ NulFree r.options.entries ∨
              ¬ ServedTruncated P service r :=
  ⟨fun _ => urlIntact_iff, fun _ _ _ _ hcall hr _ =>
    requestIntact_iff hdefaults (isCString_uri hcall hr)⟩

end Requests

/-- A service that takes any configuration. -/
def anyService (_uri : Bytes) (config : List (Bytes × Bytes)) :
    Except OdError (List (Bytes × Bytes)) := .ok config

/-- A plain URL and a plain secret arrive whole. -/
theorem boundary_intact_plain :
    UrlIntact defaultRegistry (ascii "memory://b/a") ∧
      ∃ r, (rootCall (ascii "root")).request = some r ∧ RequestIntact unitParsers anyService r := by
  have hboundary := boundary_intact_iff (α := List (Bytes × Bytes)) unitParsers_readsDefaults
    defaultRegistry
  have hparts : urlParts (ascii "memory://b/a") =
      some (ascii "memory", ascii "b", ascii "a") := by decide
  refine ⟨(hboundary.1 _).mpr fun u scheme authority encodedPath hu => ?_, ?_⟩
  · rw [hu.parts] at hparts
    cases hparts
    decide
  · refine ⟨_, rfl, (hboundary.2 _ _ _ _ (rootCall_operatorFor _) rfl _).mpr (Or.inl ?_)⟩
    constructor
    · unfold NulFree
      decide
    · unfold NulFree
      decide

/-- A URL with a NUL is read as another one, and so is a setting. -/
theorem boundary_truncates :
    (parseUrl defaultRegistry (ascii "memory://b/a" ++ [0] ++ ascii "x") =
        parseUrl defaultRegistry (ascii "memory://b/a") ∧
      ¬ UrlIntact defaultRegistry (ascii "memory://b/a" ++ [0] ++ ascii "x")) ∧
    ∃ r, (rootCall (ascii "root" ++ [0] ++ ascii "x")).request = some r ∧
      ¬ RequestIntact unitParsers anyService r := by
  refine ⟨⟨rfl, fun h => ?_⟩, _, rfl, fun h => ?_⟩
  · have hself := (h rfl).1
    revert hself
    decide
  · have hconfig := (h _ rfl).1
    revert hconfig
    decide

end DuckdbOpendal
