import DuckdbOpendal.GlobNames
import DuckdbOpendal.Info
import DuckdbOpendal.Lib.ChunkedScan
import DuckdbOpendal.Lib.Mealy

/-!
# The schemes of a build

OpenDAL's registry decides which URLs the file system takes.  `opendal_schemes` lists it, a scan
over an index into a materialised list; `CREATE SECRET` is registered for each of its schemes.

## Main Definitions

* `registeredSchemes`, `odSchemes` — the registry as a list
* `schemesFunc` — one call of `opendal_schemes`
* `registerOpenDalSecrets` — the secret types of the services

## Main Results

* `mem_registeredSchemes_iff` — the registered schemes are those of the accepted URLs
* `schemes_agree` — the schemes that are listed are those that are taken
-/

namespace DuckdbOpendal

/-! ## The list of schemes -/

/-- The sorted names of `registered_schemes`. -/
def registeredSchemes (registry : Registry) : List Bytes := sortUnique registry.schemes

/-- `od_schemes`. -/
def odSchemes (registry : Registry) : Except OdError (List Bytes) :=
  match (registeredSchemes registry).mapM CString.new with
  | some schemes => .ok schemes
  | none => .error (setError .Unexpected (ascii "registered scheme contains a NUL byte"))

/-- `SchemesGlobalState`. -/
structure SchemesGlobalState where
  list : List Bytes
  count : ℕ
  offset : ℕ
  deriving DecidableEq, Repr

/-- `SchemesInit`. -/
def schemesInit (registry : Registry) : Except Bytes SchemesGlobalState :=
  match odSchemes registry with
  | .ok list => .ok ⟨list, list.length, 0⟩
  | .error err => .error (throwIfTableError err "schemes" [])

/-- `SchemesFunc`, with room for so many more rows; a null entry is `none`. -/
def schemesFunc : ℕ → SchemesGlobalState → SchemesGlobalState × List (Option Bytes)
  | 0, st => (st, [])
  | n + 1, st =>
      if st.offset < st.count then
        let (st', rows) := schemesFunc n { st with offset := st.offset + 1 }
        (st', st.list[st.offset]? :: rows)
      else (st, [])

/-! ## Secrets -/

/-- The secret types DuckDB knows, and those whose `config` provider is `CreateOpenDalSecret`.
DuckDB keeps them without regard to the case of letters: the names are in lower case. -/
structure SecretTypes where
  types : List Bytes
  functions : List Bytes
  deriving DecidableEq, Repr

/-- A name is added unless it is there. -/
def addName (names : List Bytes) (name : Bytes) : List Bytes :=
  if names.contains name then names else names ++ [name]

/-- `RegisterOneService`; that another extension has registered the type is no error, and its
function is replaced. -/
def registerOneService (known : SecretTypes) (scheme : Bytes) : SecretTypes where
  types := addName known.types (scheme.map toAsciiLowercase)
  functions := addName known.functions (scheme.map toAsciiLowercase)

/-- `RegisterOpenDalSecrets`. -/
def registerOpenDalSecrets (registry : Registry) (known : SecretTypes) :
    Except Bytes SecretTypes :=
  match odSchemes registry with
  | .ok schemes => .ok (schemes.foldl registerOneService known)
  | .error err =>
      .error (ascii "opendal: failed to enumerate registered schemes: " ++ err.message)

/-! ## What is listed -/

theorem odSchemes_eq (registry : Registry) :
    odSchemes registry = .ok (registeredSchemes registry) := by
  have hnul : ∀ scheme ∈ registeredSchemes registry, 0 ∉ scheme := fun scheme hscheme =>
    (cString_scheme (mem_sortUnique.mp hscheme)).1
  have hmapM : ∀ schemes : List Bytes, (∀ scheme ∈ schemes, 0 ∉ scheme) →
      schemes.mapM CString.new = some schemes := by
    intro schemes h
    induction schemes with
    | nil => rfl
    | cons scheme schemes ih =>
        obtain ⟨h0, h⟩ := List.forall_mem_cons.mp h
        rw [List.mapM_cons, CString.new_eq_some_iff.mpr ⟨h0, rfl⟩, ih h]
        rfl
  rw [odSchemes, hmapM _ hnul]

/-- One call hands out the next rows, as many as there is room for. -/
theorem schemesFunc_eq (size : ℕ) (list : List Bytes) (offset : ℕ) :
    schemesFunc size ⟨list, list.length, offset⟩ =
      (⟨list, list.length, min (offset + size) (max offset list.length)⟩,
        ((list.drop offset).take size).map some) := by
  induction size generalizing offset with
  | zero => simp [schemesFunc]
  | succ size ih =>
      by_cases h : offset < list.length
      · have hoffset : min (offset + 1 + size) (max (offset + 1) list.length) =
            min (offset + (size + 1)) (max offset list.length) := by omega
        rw [schemesFunc, if_pos h, ih, hoffset, List.getElem?_eq_getElem h,
          List.drop_eq_getElem_cons h, List.take_succ_cons, List.map_cons]
      · have hoffset : min (offset + (size + 1)) (max offset list.length) = offset := by omega
        rw [schemesFunc, if_neg h, hoffset, List.drop_of_length_le (Nat.le_of_not_lt h)]
        rfl

/-- Repeated calls hand out the rows from an offset on. -/
theorem answers_schemesFunc (size n : ℕ) (list : List Bytes) (offset : ℕ) :
    Mealy.answers (fun st size => schemesFunc size st) ⟨list, list.length, offset⟩
        (List.replicate n size) =
      Cursor.chunks size n ((list.drop offset).map some) := by
  induction n generalizing offset with
  | zero => rfl
  | succ n ih =>
      have hrest : list.drop (min (offset + size) (max offset list.length)) =
          (list.drop offset).drop size := by
        rw [List.drop_drop]
        rcases Nat.le_total (offset + size) (max offset list.length) with h | h
        · rw [Nat.min_eq_left h]
        · rw [Nat.min_eq_right h, List.drop_of_length_le (by omega),
            List.drop_of_length_le (by omega)]
      rw [List.replicate_succ, Mealy.answers_cons, schemesFunc_eq, ih, hrest, Cursor.chunks,
        List.map_take, ← List.map_drop]

/-- The registered schemes are those of the URLs that are accepted. -/
theorem mem_registeredSchemes_iff {registry : Registry} {scheme : Bytes} :
    scheme ∈ registeredSchemes registry ↔
      ∃ url u, parseUrl registry url = some u ∧ u.scheme = scheme := by
  rw [registeredSchemes, mem_sortUnique]
  constructor
  · intro hscheme
    have hu : ResolvedUrl.WellFormed registry ⟨scheme, [], []⟩ :=
      ⟨hscheme, rfl, by simp, rfl, List.not_mem_nil⟩
    exact ⟨_, _, hu.parseUrl_urlOf rfl List.not_mem_nil, rfl⟩
  · rintro ⟨url, u, hurl, rfl⟩
    exact (wellFormed_of_parseUrl hurl).scheme

theorem mem_addName {names : List Bytes} {name t : Bytes} :
    t ∈ addName names name ↔ t ∈ names ∨ t = name := by
  rw [addName]
  split
  · rename_i hmem
    exact ⟨Or.inl, fun h => h.elim id fun h => h ▸ List.contains_iff_mem.mp hmem⟩
  · rw [List.mem_append, List.mem_singleton]

/-- What registering services leaves: what was known, and their names. -/
theorem mem_foldl_registerOneService (known : SecretTypes) {schemes : List Bytes}
    (hlower : ∀ scheme ∈ schemes, scheme.map toAsciiLowercase = scheme) (t : Bytes) :
    (t ∈ (schemes.foldl registerOneService known).types ↔ t ∈ known.types ∨ t ∈ schemes) ∧
      (t ∈ (schemes.foldl registerOneService known).functions ↔
        t ∈ known.functions ∨ t ∈ schemes) := by
  induction schemes generalizing known with
  | nil => simp
  | cons scheme schemes ih =>
      obtain ⟨hscheme, hschemes⟩ := List.forall_mem_cons.mp hlower
      obtain ⟨htypes, hfunctions⟩ := ih (registerOneService known scheme) hschemes
      rw [List.foldl_cons, htypes, hfunctions]
      simp only [registerOneService, hscheme, mem_addName, List.mem_cons, or_assoc, and_self]

/-- **The schemes that are listed are those that are taken.**  However often it is called,
`opendal_schemes` hands out each scheme of an accepted URL once, in increasing order and none of
them NULL; loading the extension makes a secret type of each of them and of no other. -/
theorem schemes_agree (registry : Registry) (known : SecretTypes) :
    ∃ (st : SchemesGlobalState) (schemes : List Bytes) (known' : SecretTypes),
      schemesInit registry = .ok st ∧ registerOpenDalSecrets registry known = .ok known' ∧
      schemes.Pairwise (· < ·) ∧
      (∀ scheme, scheme ∈ schemes ↔
        ∃ url u, parseUrl registry url = some u ∧ u.scheme = scheme) ∧
      (∀ size n, 0 < size → Cursor.Emits size (schemes.map some)
        (Mealy.answers (fun st size => schemesFunc size st) st (List.replicate n size))) ∧
      (∀ t, t ∈ known'.types ↔ t ∈ known.types ∨ t ∈ schemes) ∧
      ∀ t, t ∈ known'.functions ↔ t ∈ known.functions ∨ t ∈ schemes := by
  have hlower : ∀ scheme ∈ registeredSchemes registry, scheme.map toAsciiLowercase = scheme :=
    fun scheme hscheme => map_eq_self fun b hb =>
      (isSchemeByte_plain (registry.lowercase scheme (mem_sortUnique.mp hscheme) b hb)).2.2.2.2.2
  have hregistered := mem_foldl_registerOneService known hlower
  refine ⟨⟨registeredSchemes registry, (registeredSchemes registry).length, 0⟩,
    registeredSchemes registry, _, ?_, ?_, sortUnique_pairwise _,
    fun scheme => mem_registeredSchemes_iff, fun size n hsize => ?_,
    fun t => (hregistered t).1, fun t => (hregistered t).2⟩
  · rw [schemesInit, odSchemes_eq]
  · rw [registerOpenDalSecrets, odSchemes_eq]
  · rw [answers_schemesFunc, List.drop_zero]
    exact Cursor.emits_chunks hsize n _

end DuckdbOpendal
