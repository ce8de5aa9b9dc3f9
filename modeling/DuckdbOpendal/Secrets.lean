import Mathlib.Data.List.Infix
import Mathlib.Data.List.Lex
import DuckdbOpendal.Lib.SortedMap
import DuckdbOpendal.Uri

/-!
# Secrets and global settings

What `BuildOperator` reads besides the URL: the process-global settings and the
secret that DuckDB's `SecretManager` matches.  `LookupSecret` is DuckDB's; it is a
parameter here, and `LongestScope` states what the extension relies on.

## Main Definitions

* `GlobalConfig`, `globalConfigSnapshot` — the `opendal_*_config` settings
* `SecretManager`, `LongestScope` — the secret store and the rule of its lookup
* `canonicalSchemeUrl` — the URL text the secret is looked up with
* `applySecret` — a secret merged over the settings

## Main Results

* `LongestScope.lookupSecret_eq_iff` — two texts select one secret if and only if
  the longest scope of either covers both
-/

namespace DuckdbOpendal

/-- `std::map<std::string, std::string>`. -/
abbrev StringMap := SortedMap Bytes Bytes

/-! ## Global settings -/

/-- `g_global_config`: the settings of each section. -/
abbrev GlobalConfig := SortedMap Bytes StringMap

/-- `SetGlobalConfig`. -/
def setGlobalConfig (g : GlobalConfig) (sectionName : Bytes) (values : StringMap) :
    GlobalConfig :=
  g.insert sectionName values

/-- `GlobalConfigSnapshot`: all settings, under `section.key`. -/
def globalConfigSnapshot (g : GlobalConfig) : StringMap :=
  g.entries.foldl (fun result sec =>
    sec.2.entries.foldl (fun result entry =>
      result.insert (sec.1 ++ ascii "." ++ entry.1) entry.2) result) ∅

/-! ## Secrets -/

/-- A secret.  `secretMap` is `none` when it is not a `KeyValueSecret`. -/
structure Secret where
  name : Bytes
  type : Bytes
  scope : Bytes
  secretMap : Option (List (Bytes × Bytes))
  deriving DecidableEq

/-- A secret manager: the secrets it holds and its `LookupSecret`, from a URL text
and a secret type. -/
structure SecretManager where
  secrets : List Secret
  lookupSecret : Bytes → Bytes → Option Secret

/-- A secret covers a text: it has the type, and its scope is a prefix. -/
def Secret.Covers (s : Secret) (type text : Bytes) : Prop :=
  s.type = type ∧ s.scope <+: text

instance (s : Secret) (type text : Bytes) : Decidable (s.Covers type text) :=
  inferInstanceAs (Decidable (_ ∧ _))

/-- A secret has the longest scope among the secrets that cover a text. -/
def Longest (secrets : List Secret) (type text : Bytes) (s : Secret) : Prop :=
  s.Covers type text ∧
    ∀ s' ∈ secrets, s'.Covers type text → s'.scope.length ≤ s.scope.length

instance (secrets : List Secret) (type text : Bytes) (s : Secret) :
    Decidable (Longest secrets type text s) :=
  inferInstanceAs (Decidable (_ ∧ _))

/-- **The rule of `LookupSecret`**: it picks a secret of the longest scope that
covers the text, and which of several secrets with one scope it picks does not
depend on the text. -/
structure LongestScope (sm : SecretManager) : Prop where
  found : ∀ {text type s}, sm.lookupSecret text type = some s →
    s ∈ sm.secrets ∧ Longest sm.secrets type text s
  missed : ∀ {text type}, sm.lookupSecret text type = none →
    ∀ s ∈ sm.secrets, ¬ s.Covers type text
  ties : ∀ {text text' type s s'}, sm.lookupSecret text type = some s →
    sm.lookupSecret text' type = some s' → s.scope = s'.scope → s = s'

/-- The manager that picks the first secret of the longest scope. -/
def SecretManager.ofSecrets (secrets : List Secret) : SecretManager where
  secrets := secrets
  lookupSecret text type := secrets.find? fun s => Longest secrets type text s

/-- Some secret that covers a text has the longest scope. -/
theorem exists_longest {secrets : List Secret} {type text : Bytes} {s : Secret}
    (hs : s ∈ secrets) (hcovers : s.Covers type text) :
    ∃ s ∈ secrets, Longest secrets type text s := by
  -- Induction on how much longer than `s` a covering scope can be.
  by_contra hnone
  have hgrow : ∀ n, ∃ s' ∈ secrets, s'.Covers type text ∧ n ≤ s'.scope.length := by
    intro n
    induction n with
    | zero => exact ⟨s, hs, hcovers, Nat.zero_le _⟩
    | succ n ih =>
        obtain ⟨s₁, hs₁, hcovers₁, hn⟩ := ih
        by_contra hshort
        refine hnone ⟨s₁, hs₁, hcovers₁, fun s₂ hs₂ hcovers₂ => ?_⟩
        by_contra hlt
        exact hshort ⟨s₂, hs₂, hcovers₂, by omega⟩
  obtain ⟨s', -, hcovers', hlen⟩ := hgrow (text.length + 1)
  have hle := hcovers'.2.length_le
  omega

theorem longest_of_lookupSecret {secrets : List Secret} {type text : Bytes} {s : Secret}
    (h : (SecretManager.ofSecrets secrets).lookupSecret text type = some s) :
    Longest secrets type text s := by
  have hfound := List.find?_some (p := fun s => decide (Longest secrets type text s)) h
  exact of_decide_eq_true hfound

theorem longestScope_ofSecrets (secrets : List Secret) :
    LongestScope (SecretManager.ofSecrets secrets) where
  found := by
    intro text type s h
    exact ⟨List.mem_of_find?_eq_some h, longest_of_lookupSecret h⟩
  missed := by
    intro text type h s hs hcovers
    obtain ⟨s', hs', hlongest⟩ := exists_longest hs hcovers
    exact List.find?_eq_none.mp h s' hs' (decide_eq_true hlongest)
  ties := by
    intro text text' type s s' h h' hscope
    have hs : Longest secrets type text s := longest_of_lookupSecret h
    have hs' : Longest secrets type text' s' := longest_of_lookupSecret h'
    -- Either secret meets the other's condition, so neither comes before the other.
    have hswap : Longest secrets type text' s :=
      ⟨⟨hs.1.1, hscope ▸ hs'.1.2⟩, hscope ▸ hs'.2⟩
    have hswap' : Longest secrets type text s' :=
      ⟨⟨hs'.1.1, hscope ▸ hs.1.2⟩, hscope ▸ hs.2⟩
    obtain ⟨-, pre, post, hsplit, hpre⟩ := List.find?_eq_some_iff_append.mp h
    obtain ⟨-, pre', post', hsplit', hpre'⟩ := List.find?_eq_some_iff_append.mp h'
    rcases List.append_eq_append_iff.mp (hsplit.symm.trans hsplit') with
      ⟨mid, hmid, hrest⟩ | ⟨mid, hmid, hrest⟩
    · cases mid with
      | nil => exact (List.cons.inj hrest).1
      | cons s₂ mid =>
          obtain ⟨rfl, -⟩ := List.cons.inj hrest
          simpa [hswap] using hpre' s (by simp [hmid])
    · cases mid with
      | nil => exact (List.cons.inj hrest).1.symm
      | cons s₂ mid =>
          obtain ⟨rfl, -⟩ := List.cons.inj hrest
          simpa [hswap'] using hpre s' (by simp [hmid])

/-- **When two texts select one secret**: exactly when every longest scope of
either covers both. -/
theorem LongestScope.lookupSecret_eq_iff {sm : SecretManager} (hsm : LongestScope sm)
    {type text text' : Bytes} :
    sm.lookupSecret text type = sm.lookupSecret text' type ↔
      ∀ s ∈ sm.secrets, Longest sm.secrets type text s ∨ Longest sm.secrets type text' s →
        s.scope <+: text ∧ s.scope <+: text' := by
  have hcover : ∀ {t t' s}, sm.lookupSecret t type = sm.lookupSecret t' type →
      s ∈ sm.secrets → Longest sm.secrets type t s → s.scope <+: t' := by
    intro t t' s heq hs hlongest
    cases hfind : sm.lookupSecret t type with
    | none => exact absurd hlongest.1 (hsm.missed hfind s hs)
    | some s₀ =>
        obtain ⟨hs₀, hlongest₀⟩ := hsm.found hfind
        obtain ⟨-, hlongest'⟩ := hsm.found (heq ▸ hfind)
        have hlen : s.scope.length = s₀.scope.length :=
          le_antisymm (hlongest₀.2 s hs hlongest.1) (hlongest.2 s₀ hs₀ hlongest₀.1)
        have hscope : s.scope = s₀.scope :=
          (List.prefix_of_prefix_length_le hlongest.1.2 hlongest₀.1.2 hlen.le).eq_of_length hlen
        exact hscope ▸ hlongest'.1.2
  constructor
  · rintro heq s hs (hlongest | hlongest)
    · exact ⟨hlongest.1.2, hcover heq hs hlongest⟩
    · exact ⟨hcover heq.symm hs hlongest, hlongest.1.2⟩
  · intro h
    cases hfind : sm.lookupSecret text type with
    | none =>
        cases hfind' : sm.lookupSecret text' type with
        | none => rfl
        | some s' =>
            obtain ⟨hs', hlongest'⟩ := hsm.found hfind'
            exact absurd ⟨hlongest'.1.1, (h s' hs' (Or.inr hlongest')).1⟩
              (hsm.missed hfind s' hs')
    | some s =>
        obtain ⟨hs, hlongest⟩ := hsm.found hfind
        have hcovers' : s.Covers type text' := ⟨hlongest.1.1, (h s hs (Or.inl hlongest)).2⟩
        cases hfind' : sm.lookupSecret text' type with
        | none => exact absurd hcovers' (hsm.missed hfind' s hs)
        | some s' =>
            obtain ⟨hs', hlongest'⟩ := hsm.found hfind'
            have hcovers : s'.Covers type text :=
              ⟨hlongest'.1.1, (h s' hs' (Or.inr hlongest')).1⟩
            have hlen : s.scope.length = s'.scope.length :=
              le_antisymm (hlongest'.2 s hs hcovers') (hlongest.2 s' hs' hcovers)
            have hscope : s.scope = s'.scope :=
              (List.prefix_of_prefix_length_le hlongest.1.2 hcovers.2 hlen.le).eq_of_length hlen
            rw [hsm.ties hfind hfind' hscope]

/-! ## Merging a secret -/

/-- `CanonicalSchemeUrl`: the URL text with the scheme as OpenDAL spells it. -/
def canonicalSchemeUrl (url scheme : Bytes) : Bytes :=
  match Text.splitOnce schemeSep url with
  | none => url
  | some (_, rest) => scheme ++ schemeSep ++ rest

/-- One entry of a secret: `config.` entries go to the service configuration,
everything else but `__scheme` to the options. -/
def applySecretEntry (maps : StringMap × StringMap) (entry : Bytes × Bytes) :
    StringMap × StringMap :=
  if entry.1 = ascii "__scheme" then maps
  else if ascii "config." <+: entry.1 then (maps.1.insert (entry.1.drop 7) entry.2, maps.2)
  else (maps.1, maps.2.insert entry.1 entry.2)

/-- `ApplySecret`: the name of the matched secret (empty when there is none) and
the two maps with its entries, or the message of the `IOException`. -/
def applySecret (manager : Option SecretManager) (scheme url : Bytes)
    (config options : StringMap) : Except Bytes (Bytes × StringMap × StringMap) :=
  match manager with
  | none => .ok ([], config, options)
  | some sm =>
      match sm.lookupSecret url scheme with
      | none => .ok ([], config, options)
      | some base =>
          match base.secretMap with
          | none =>
              .error (ascii "opendal: secret: matched secret is not a key-value secret: " ++ url)
          | some entries => .ok (base.name, entries.foldl applySecretEntry (config, options))

end DuckdbOpendal
