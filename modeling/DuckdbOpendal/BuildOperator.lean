import DuckdbOpendal.Lib.PublishOnce
import DuckdbOpendal.Lib.SelfDelimiting
import DuckdbOpendal.Secrets

/-!
# The operator cache

`OpenDalFileSystem::BuildOperator`: from a URL, the secrets and the settings to a
cached OpenDAL operator.  The cache is a publish-once cache whose only key is the
text `ConfigIdentity` writes: the operator URI, then length-prefixed frames for
the scheme, the authority, and the entries of the two maps.  Each frame delimits
itself, but nothing delimits the URI from the frames, or the first map from the
second; `operatorKey_eq_iff` says exactly what those two omissions let through.

## Main Definitions

* `BuildCall` — what a call of `BuildOperator` is given
* `Request` — what it asks of `od_operator_new`
* `configIdentity`, `operatorKey` — the key of the cache
* `runOperators` — all interleavings of all calls

## Main Results

* `operatorKey_eq_iff` — which requests share a key
* `buildOperator_provenance_iff` — when every operator is the call's own
* `buildOperator_spelling_iff` — when two spellings of a URL get one operator
* `operators_publish_once` — the cache under concurrency
-/

namespace DuckdbOpendal

open PublishOnce

/-! ## From a call to a request -/

/-- The session a call runs in: its two handles on a secret manager, and the
global settings. -/
structure Session where
  context : Option SecretManager
  db : Option SecretManager
  globals : GlobalConfig

/-- `ApplySecret` prefers the context's secret manager. -/
def Session.manager (session : Session) : Option SecretManager :=
  session.context <|> session.db

/-- The arguments of `BuildOperator`. -/
structure BuildCall where
  scheme : Bytes
  authority : Bytes
  url : Bytes
  session : Session

/-- `ParseUrl`. -/
def parseUrl (registry : Registry) (url : Bytes) : Option ResolvedUrl :=
  (odUrlResolve registry url).toOption

theorem odUrlResolve_of_parseUrl {registry : Registry} {url : Bytes} {u : ResolvedUrl}
    (h : parseUrl registry url = some u) : odUrlResolve registry url = .ok u := by
  unfold parseUrl at h
  cases hresolve : odUrlResolve registry url with
  | error err => simp [hresolve, Except.toOption] at h
  | ok u' => simpa [hresolve, Except.toOption] using h

theorem wellFormed_of_parseUrl {registry : Registry} {url : Bytes} {u : ResolvedUrl}
    (h : parseUrl registry url = some u) : u.WellFormed registry :=
  odUrlResolve_wellFormed (odUrlResolve_of_parseUrl h)

/-- `OperatorFor` with the parts `ParseUrl` reads from the URL. -/
def operatorFor (registry : Registry) (session : Session) (url : Bytes) : Option BuildCall :=
  (parseUrl registry url).map fun u => ⟨u.scheme, u.authority, url, session⟩

/-- What `BuildOperator` asks of `od_operator_new`. -/
@[ext] structure Request where
  scheme : Bytes
  authority : Bytes
  config : StringMap
  options : StringMap
  deriving DecidableEq

/-- The operator URI: only scheme and authority. -/
def Request.uri (r : Request) : Bytes := r.scheme ++ schemeSep ++ r.authority

/-- The text the secret is looked up with. -/
def BuildCall.lookupText (c : BuildCall) : Bytes := canonicalSchemeUrl c.url c.scheme

/-- The secret a call matches. -/
def BuildCall.matchedSecret (c : BuildCall) : Option Secret :=
  c.session.manager.bind fun sm => sm.lookupSecret c.lookupText c.scheme

/-- The lock-free beginning of `BuildOperator`: the name of the matched secret and
the request, or the message of the `IOException`. -/
def BuildCall.prepare (c : BuildCall) : Except Bytes (Bytes × Request) := do
  let (secretName, config, options) ←
    applySecret c.session.manager c.scheme c.lookupText ∅ (globalConfigSnapshot c.session.globals)
  return (secretName, ⟨c.scheme, c.authority, config, options⟩)

/-- The request of a call, when it gets that far. -/
def BuildCall.request (c : BuildCall) : Option Request := c.prepare.toOption.map Prod.snd

/-- The request of a call depends on the URL through the matched secret only. -/
theorem BuildCall.request_eq (c : BuildCall) :
    c.request =
      match c.matchedSecret with
      | none => some ⟨c.scheme, c.authority, ∅, globalConfigSnapshot c.session.globals⟩
      | some s =>
          s.secretMap.map fun entries =>
            let maps := entries.foldl applySecretEntry
              (∅, globalConfigSnapshot c.session.globals)
            ⟨c.scheme, c.authority, maps.1, maps.2⟩ := by
  unfold BuildCall.request BuildCall.prepare BuildCall.matchedSecret applySecret
  cases c.session.manager with
  | none => rfl
  | some sm =>
      simp only [Option.bind_some]
      cases sm.lookupSecret c.lookupText c.scheme with
      | none => rfl
      | some base =>
          cases hmap : base.secretMap with
          | none => simp only [hmap]; rfl
          | some entries => simp only [hmap]; rfl

/-! ## The identity of a request -/

/-- What `ConfigIdentity` accumulates: the key and the cache-namespace hash. -/
structure Identity where
  identity : Bytes
  hash : UInt64
  deriving DecidableEq

/-- One round of the hash. -/
def fnvRound (hash : UInt64) (b : UInt64) : UInt64 := (hash ^^^ b) * 1099511628211

/-- `"|" + std::to_string(value.size()) + ":" + value`. -/
def identityFrame (value : Bytes) : Bytes := SelfDelimiting.frame 0x7C colon decimal value

namespace Identity

/-- The `add` of `ConfigIdentity`. -/
def add (i : Identity) (value : Bytes) : Identity :=
  ⟨i.identity ++ identityFrame value,
    fnvRound (value.foldl (fun h b => fnvRound h b.toUInt64) i.hash) 0xff⟩

/-- The `append` of `ConfigIdentity`. -/
def append (i : Identity) (values : StringMap) : Identity :=
  values.entries.foldl (fun i entry => (i.add entry.1).add entry.2) i

end Identity

/-- `ConfigIdentity`. -/
def configIdentity (r : Request) : Identity :=
  ((((⟨r.uri, 1469598103934665603⟩ : Identity).add r.scheme).add r.authority).append
    r.config).append r.options

/-- The key of `operators_`. -/
def operatorKey (r : Request) : Bytes := (configIdentity r).identity

/-- The arguments of `od_operator_new`, as the C strings it reads. -/
structure OperatorArgs where
  uri : Bytes
  config : List (Bytes × Bytes)
  options : List (Bytes × Bytes)
  cacheNamespace : Bytes
  deriving DecidableEq

/-- What `BuildOperator` passes to `od_operator_new`. -/
def Request.operatorArgs (r : Request) : OperatorArgs where
  uri := cStr r.uri
  config := r.config.entries.map fun entry => (cStr entry.1, cStr entry.2)
  options := r.options.entries.map fun entry => (cStr entry.1, cStr entry.2)
  cacheNamespace := decimal (configIdentity r).hash.toNat

/-- The message of the `IOException` when `od_operator_new` returns null. -/
def Request.creationError (r : Request) (secretName : Bytes) (detail : Option Bytes) : Bytes :=
  let message := ascii "opendal: failed to create operator for '" ++ r.uri ++ ascii "': " ++
    detail.getD (ascii "unknown error")
  if secretName = [] then
    message ++ ascii "\nhint: no secret is configured for scheme '" ++ r.scheme ++
      ascii "'. Provide required settings via CREATE SECRET (TYPE " ++ r.scheme ++
      ascii ", SCOPE '" ++ r.uri ++ ascii "', config MAP\x7b...\x7d)."
  else message

/-! ## What the identity determines -/

/-- The framed texts of a request, in the order of the identity. -/
def Request.fields (r : Request) : List Bytes :=
  r.scheme :: r.authority ::
    (r.config.entries ++ r.options.entries).flatMap fun entry => [entry.1, entry.2]

/-- The part of the identity behind the operator URI. -/
def Request.frames (r : Request) : Bytes := r.fields.flatMap identityFrame

theorem identityFrame_selfDelimiting : SelfDelimiting identityFrame :=
  SelfDelimiting.frame_selfDelimiting decimal_injective fun _ h =>
    absurd (le_of_mem_decimal h) (by decide)

/-- The frames determine the framed texts. -/
theorem frames_injective {fs gs : List Bytes}
    (h : fs.flatMap identityFrame = gs.flatMap identityFrame) : fs = gs :=
  identityFrame_selfDelimiting.flatMap_injective
    (fun _ => SelfDelimiting.frame_ne_nil _ _ _ _) h

/-- The texts of entries, one after the other, determine the entries. -/
theorem entryTexts_injective :
    Function.Injective fun es : List (Bytes × Bytes) => es.flatMap fun e => [e.1, e.2] := by
  have hself : SelfDelimiting fun e : Bytes × Bytes => [e.1, e.2] := by
    rintro ⟨k, v⟩ ⟨k', v'⟩ x y h
    simp only [List.cons_append, List.nil_append, List.cons.injEq] at h
    obtain ⟨rfl, rfl, hrest⟩ := h
    exact ⟨rfl, hrest⟩
  exact hself.flatMap_injective fun _ => by simp

@[simp] theorem Identity.identity_add (i : Identity) (value : Bytes) :
    (i.add value).identity = i.identity ++ identityFrame value := rfl

@[simp] theorem Identity.identity_append (i : Identity) (values : StringMap) :
    (i.append values).identity =
      i.identity ++ (values.entries.flatMap fun e => [e.1, e.2]).flatMap identityFrame := by
  unfold Identity.append
  induction values.entries generalizing i with
  | nil => simp
  | cons e es ih => simp [ih]

/-- The key is the operator URI followed by the frames. -/
theorem operatorKey_eq (r : Request) : operatorKey r = r.uri ++ r.frames := by
  simp [operatorKey, configIdentity, Request.frames, Request.fields]

/-- One scheme, one authority, and the entries of the two maps, one map after the
other, are the same: only the place where the first map ends may differ. -/
def SameEntries (r r' : Request) : Prop :=
  r.scheme = r'.scheme ∧ r.authority = r'.authority ∧
    r.config.entries ++ r.options.entries = r'.config.entries ++ r'.options.entries

/-- The operator URI of `r'` continues that of `r` with a text that, put in front
of the frames of `r'`, spells the frames of `r`. -/
def Absorbs (r r' : Request) : Prop :=
  ∃ t, t ≠ [] ∧ r'.uri = r.uri ++ t ∧ r.frames = t ++ r'.frames

theorem frames_eq_iff {r r' : Request} : r.frames = r'.frames ↔ SameEntries r r' := by
  constructor
  · intro h
    have hfields := frames_injective h
    simp only [Request.fields, List.cons.injEq] at hfields
    exact ⟨hfields.1, hfields.2.1, entryTexts_injective hfields.2.2⟩
  · rintro ⟨hscheme, hauthority, hentries⟩
    rw [Request.frames, Request.frames, Request.fields, Request.fields, hscheme, hauthority,
      hentries]

/-- **Which requests share a key.**  The frames decode uniquely, so a shared key
is owed to one of the two places without a delimiter. -/
theorem operatorKey_eq_iff {r r' : Request} :
    operatorKey r = operatorKey r' ↔ SameEntries r r' ∨ Absorbs r r' ∨ Absorbs r' r := by
  rw [operatorKey_eq, operatorKey_eq]
  constructor
  · intro h
    rcases List.append_eq_append_iff.mp h with ⟨t, huri, hframes⟩ | ⟨t, huri, hframes⟩
    · by_cases ht : t = []
      · exact Or.inl (frames_eq_iff.mp (by simpa [ht] using hframes))
      · exact Or.inr (Or.inl ⟨t, ht, huri, hframes⟩)
    · by_cases ht : t = []
      · exact Or.inl (frames_eq_iff.mp (by simpa [ht] using hframes.symm))
      · exact Or.inr (Or.inr ⟨t, ht, huri, hframes⟩)
  · rintro (hsame | ⟨t, -, huri, hframes⟩ | ⟨t, -, huri, hframes⟩)
    · rw [frames_eq_iff.mpr hsame, Request.uri, Request.uri, hsame.1, hsame.2.1]
    · rw [huri, hframes, List.append_assoc]
    · rw [huri, hframes, List.append_assoc]

/-- Two different requests that the key does not tell apart. -/
def Confusable (r r' : Request) : Prop :=
  r ≠ r' ∧ (SameEntries r r' ∨ Absorbs r r' ∨ Absorbs r' r)

/-! ## The cache under concurrency -/

section Operators

variable {τ : Type} [DecidableEq τ]

/-- What an action on calls is on requests; a call that throws before the first
lock touches nothing. -/
def requestAction : Action τ BuildCall → Option (Action τ Request)
  | .call t c => c.request.map (.call t)
  | .lookup t => some (.lookup t)
  | .make t ok => some (.make t ok)
  | .publish t => some (.publish t)
  | .shutdown => some .shutdown

/-- The state of the file system after any interleaving of the steps of any calls:
lookup under `mu_`, `od_operator_new` outside the lock, `emplace` under `mu_`, and
the destructor. -/
def runOperators (as : List (Action τ BuildCall)) : System τ Bytes Request :=
  PublishOnce.run operatorKey .init (as.filterMap requestAction)

/-- What `od_operator_new` has received, call by call. -/
def newOperatorArgs (as : List (Action τ BuildCall)) : List OperatorArgs :=
  (runOperators as).shared.made.map Request.operatorArgs

/-- The requests of a set of calls. -/
def requestsOf (calls : Set BuildCall) : Set Request :=
  {r | ∃ c ∈ calls, c.request = some r}

omit [DecidableEq τ] in
theorem requestAction_call {a : Action τ BuildCall} {t : τ} {r : Request}
    (h : requestAction a = some (.call t r)) : ∃ c, a = .call t c ∧ c.request = some r := by
  cases a with
  | call t' c =>
      obtain ⟨r', hr', hcall⟩ := Option.map_eq_some_iff.mp h
      cases hcall
      exact ⟨c, rfl, hr'⟩
  | _ => simp [requestAction] at h

omit [DecidableEq τ] in
/-- Every schedule of the requests of some calls is a schedule of the calls. -/
theorem exists_filterMap_requestAction {calls : Set BuildCall} (as : List (Action τ Request))
    (has : ∀ a ∈ as, ∀ t r, a = .call t r → r ∈ requestsOf calls) :
    ∃ bs : List (Action τ BuildCall), bs.filterMap requestAction = as ∧
      ∀ b ∈ bs, ∀ t c, b = .call t c → c ∈ calls := by
  induction as with
  | nil => exact ⟨[], rfl, fun b hb => absurd hb List.not_mem_nil⟩
  | cons a as ih =>
      obtain ⟨bs, hbs, hcalls⟩ := ih fun a ha => has a (List.mem_cons_of_mem _ ha)
      have hhead : ∃ b : Action τ BuildCall, requestAction b = some a ∧
          ∀ t c, b = .call t c → c ∈ calls := by
        cases a with
        | call t r =>
            obtain ⟨c, hc, hr⟩ := has _ List.mem_cons_self t r rfl
            exact ⟨.call t c, by simp [requestAction, hr], fun t' c' h => by cases h; exact hc⟩
        | lookup t => exact ⟨.lookup t, rfl, fun _ _ h => by cases h⟩
        | make t ok => exact ⟨.make t ok, rfl, fun _ _ h => by cases h⟩
        | publish t => exact ⟨.publish t, rfl, fun _ _ h => by cases h⟩
        | shutdown => exact ⟨.shutdown, rfl, fun _ _ h => by cases h⟩
      obtain ⟨b, hb, hcall⟩ := hhead
      refine ⟨b :: bs, by rw [List.filterMap_cons_some hb, hbs], fun b' hb' => ?_⟩
      rcases List.mem_cons.mp hb' with rfl | hb'
      · exact hcall
      · exact hcalls b' hb'

/-- **Provenance of operators.**  In every interleaving of calls from a set, every
returned operator was made by `od_operator_new` from exactly the returning call's
scheme, authority, configuration and options, which it received as C strings, if and
only if no two of the calls have confusable requests. -/
theorem buildOperator_provenance_iff [Nonempty τ] (calls : Set BuildCall) :
    (∀ as : List (Action τ BuildCall), (∀ a ∈ as, ∀ t c, a = .call t c → c ∈ calls) →
      ∀ r p, (r, p) ∈ (runOperators as).returned →
        (runOperators as).shared.made[p]? = some r ∧
          (newOperatorArgs as)[p]? = some r.operatorArgs) ↔
    ∀ c ∈ calls, ∀ c' ∈ calls, ∀ r r', c.request = some r → c'.request = some r' →
      ¬ Confusable r r' := by
  have hreceived : ∀ (as : List (Action τ BuildCall)) (r : Request) (p : Ptr),
      ((runOperators as).shared.made[p]? = some r ∧
        (newOperatorArgs as)[p]? = some r.operatorArgs) ↔
      (runOperators as).shared.made[p]? = some r := by
    intro as r p
    refine and_iff_left_of_imp fun hmade => ?_
    rw [newOperatorArgs, List.getElem?_map, hmade, Option.map_some]
  simp only [hreceived]
  have hlower : (∀ as : List (Action τ BuildCall),
        (∀ a ∈ as, ∀ t c, a = .call t c → c ∈ calls) →
        ∀ r p, (r, p) ∈ (runOperators as).returned →
          (runOperators as).shared.made[p]? = some r) ↔
      Set.InjOn operatorKey (requestsOf calls) := by
    rw [← run_made_iff (τ := τ)]
    constructor
    · intro h as has
      obtain ⟨bs, rfl, hbs⟩ := exists_filterMap_requestAction as has
      exact h bs hbs
    · intro h as has
      refine h _ fun a ha t r hcall => ?_
      obtain ⟨b, hb, hba⟩ := List.mem_filterMap.mp ha
      obtain ⟨c, rfl, hr⟩ := requestAction_call (hba.trans (congrArg some hcall))
      exact ⟨c, has _ hb t c rfl, hr⟩
  -- Two requests are confusable when they differ under one key.
  rw [hlower]
  constructor
  · rintro hinj c hc c' hc' r r' hr hr' ⟨hne, hkey⟩
    exact hne (hinj ⟨c, hc, hr⟩ ⟨c', hc', hr'⟩ (operatorKey_eq_iff.mpr hkey))
  · rintro h r ⟨c, hc, hr⟩ r' ⟨c', hc', hr'⟩ hkey
    by_contra hne
    exact h c hc c' hc' r r' hr hr' ⟨hne, operatorKey_eq_iff.mp hkey⟩

/-- A call for `memory:///x` in a session with one secret. -/
def memoryCall (entries : List (Bytes × Bytes)) : BuildCall where
  scheme := ascii "memory"
  authority := []
  url := ascii "memory:///x"
  session :=
    { context := some (.ofSecrets
        [⟨ascii "tuned", ascii "memory", ascii "memory://", some entries⟩])
      db := none
      globals := ∅ }

/-- A request for `memory://`. -/
def memoryRequest (config options : StringMap) : Request := ⟨ascii "memory", [], config, options⟩

/-- The one entry the examples move between the two maps. -/
def concurrentFour : StringMap := SortedMap.insert ∅ (ascii "io.read.concurrent") (ascii "4")

theorem memoryCall_request_options :
    (memoryCall [(ascii "io.read.concurrent", ascii "4")]).request =
      some (memoryRequest ∅ concurrentFour) := by decide

theorem memoryCall_request_config :
    (memoryCall [(ascii "config.io.read.concurrent", ascii "4")]).request =
      some (memoryRequest concurrentFour ∅) := by decide

/-- Calls that all make one request are never confused. -/
theorem buildOperator_provenance_single :
    (memoryCall [(ascii "io.read.concurrent", ascii "4")]).request =
        some (memoryRequest ∅ concurrentFour) ∧
      ∀ as : List (Action Unit BuildCall),
        (∀ a ∈ as, ∀ t c, a = .call t c →
          c ∈ ({memoryCall [(ascii "io.read.concurrent", ascii "4")]} : Set BuildCall)) →
        ∀ r p, (r, p) ∈ (runOperators as).returned →
          (runOperators as).shared.made[p]? = some r ∧
            (newOperatorArgs as)[p]? = some r.operatorArgs := by
  refine ⟨memoryCall_request_options, (buildOperator_provenance_iff _).mpr ?_⟩
  rintro c rfl c' rfl r r' hr hr' ⟨hne, -⟩
  exact hne (Option.some.inj (hr.symm.trans hr'))

/-- A secret that sets the service key `io.read.concurrent`, replaced by one that
sets the section key of that name: the second call gets the first one's operator. -/
theorem buildOperator_moved_entry :
    ¬ ∀ as : List (Action Unit BuildCall), ∀ r p, (r, p) ∈ (runOperators as).returned →
      (newOperatorArgs as)[p]? = some r.operatorArgs := by
  intro h
  have hcalls : ([memoryCall [(ascii "config.io.read.concurrent", ascii "4")],
        memoryCall [(ascii "io.read.concurrent", ascii "4")]].flatMap
          (callThrough ())).filterMap requestAction =
      callThrough () (memoryRequest concurrentFour ∅) ++
        callThrough () (memoryRequest ∅ concurrentFour) := by
    simp [callThrough, requestAction, memoryCall_request_options, memoryCall_request_config]
  have hshared := h ([memoryCall [(ascii "config.io.read.concurrent", ascii "4")],
    memoryCall [(ascii "io.read.concurrent", ascii "4")]].flatMap (callThrough ()))
    (memoryRequest ∅ concurrentFour) 0
  rw [newOperatorArgs, runOperators, hcalls, run_callThrough_twice, if_pos (by decide)] at hshared
  have hreceived := Option.some.inj (hshared List.mem_cons_self)
  exact absurd (congrArg OperatorArgs.config hreceived) (by decide)

/-- **Publish once.**  In every interleaving: a binding stays until the destructor;
calls for one key return one pointer, the bound one; a pointer is freed at most
once and, before the destructor, never after having been returned; and the step
that frees it then is the `emplace` that lost the race, whose call returns the
other pointer. -/
theorem operators_publish_once (as bs : List (Action τ BuildCall)) :
    ((runOperators (as ++ bs)).shared.live = true → ∀ k p,
      (runOperators as).shared.find k = some p →
        (runOperators (as ++ bs)).shared.find k = some p) ∧
    (∀ r r' p q, (r, p) ∈ (runOperators as).returned → (r', q) ∈ (runOperators as).returned →
      operatorKey r = operatorKey r' → p = q) ∧
    ((runOperators as).shared.live = true → ∀ r p, (r, p) ∈ (runOperators as).returned →
      (runOperators as).shared.find (operatorKey r) = some p) ∧
    (runOperators as).shared.freed.Nodup ∧
    (∀ p ∈ (runOperators as).shared.freed, p < (runOperators as).shared.made.length) ∧
    ((runOperators as).shared.live = true → ∀ p ∈ (runOperators as).shared.freed,
      ∀ r, (r, p) ∉ (runOperators as).returned) ∧
    (∀ a, (runOperators (as ++ [a])).shared.live = true →
      ∀ p ∈ (runOperators (as ++ [a])).shared.freed, p ∉ (runOperators as).shared.freed →
        ∃ t r q, a = .publish t ∧ (runOperators as).pc t = .holding r p ∧
          (runOperators as).shared.find (operatorKey r) = some q ∧ q ≠ p ∧
          (runOperators (as ++ [a])).returned = (r, q) :: (runOperators as).returned) := by
  have hi : Inv operatorKey (runOperators as) := run_inv (inv_init operatorKey) _
  have happend : ∀ cs : List (Action τ BuildCall), runOperators (as ++ cs) =
      PublishOnce.run operatorKey (runOperators as) (cs.filterMap requestAction) := by
    intro cs
    rw [runOperators, List.filterMap_append, PublishOnce.run, List.foldl_append]
    rfl
  refine ⟨fun hlive k p h => ?_, hi.returned_agree,
    fun hlive r p h => hi.functional.find (hi.returned_bound hlive r p h), hi.freed_nodup,
    hi.freed_made, fun hlive p hp r hr => ?_, fun a hlive p hp hnp => ?_⟩
  · rw [happend] at hlive ⊢
    exact run_find _ hlive h
  · exact hi.bound_not_freed _ p (hi.returned_bound hlive r p hr) hp
  · rw [happend] at hlive hp ⊢
    -- A call without a request is none of the protocol's actions.
    cases ha : requestAction a with
    | none =>
        rw [List.filterMap_cons_none ha] at hp
        exact absurd hp hnp
    | some a' =>
        rw [List.filterMap_cons_some ha] at hlive hp ⊢
        obtain ⟨t, r, q, rfl, hpc, hfind, hreturned⟩ := (step_frees hlive).2 p hp hnp
        have hqp : q ≠ p := fun h =>
          hi.held_not_bound t r p hpc _ (h ▸ Shared.mem_of_find hfind)
        cases a with
        | publish t' =>
            cases ha
            exact ⟨t, r, q, rfl, hpc, hfind, hqp, hreturned⟩
        | call t' c =>
            obtain ⟨_, -, hcall⟩ := Option.map_eq_some_iff.mp ha
            cases hcall
        | _ => cases ha

/-- **One object, two spellings.**  Two URLs that resolve to one scheme, authority
and path select one secret, and then one operator in every interleaving, if and
only if every longest scope that covers the text of one covers the text of the
other. -/
theorem buildOperator_spelling_iff {registry : Registry} {session : Session}
    (hsession : ∀ sm, session.manager = some sm → LongestScope sm) {url url' : Bytes}
    {c c' : BuildCall} (hc : operatorFor registry session url = some c)
    (hc' : operatorFor registry session url' = some c')
    (hsame : parseUrl registry url = parseUrl registry url') :
    (c.matchedSecret = c'.matchedSecret ∧
      ∀ r r', c.request = some r → c'.request = some r' →
        ∀ (as : List (Action τ BuildCall)) (p q : Ptr), (r, p) ∈ (runOperators as).returned →
          (r', q) ∈ (runOperators as).returned → p = q) ↔
    ∀ sm, session.manager = some sm → ∀ s ∈ sm.secrets,
      Longest sm.secrets c.scheme c.lookupText s ∨ Longest sm.secrets c.scheme c'.lookupText s →
        s.scope <+: c.lookupText ∧ s.scope <+: c'.lookupText := by
  obtain ⟨u, hu, rfl⟩ := Option.map_eq_some_iff.mp hc
  obtain ⟨u', hu', rfl⟩ := Option.map_eq_some_iff.mp hc'
  obtain rfl : u = u' := Option.some.inj (hu.symm.trans (hsame.trans hu'))
  have hsecret : (⟨u.scheme, u.authority, url, session⟩ : BuildCall).matchedSecret =
        (⟨u.scheme, u.authority, url', session⟩ : BuildCall).matchedSecret ↔
      ∀ sm, session.manager = some sm → ∀ s ∈ sm.secrets,
        Longest sm.secrets u.scheme (canonicalSchemeUrl url u.scheme) s ∨
          Longest sm.secrets u.scheme (canonicalSchemeUrl url' u.scheme) s →
        s.scope <+: canonicalSchemeUrl url u.scheme ∧
          s.scope <+: canonicalSchemeUrl url' u.scheme := by
    simp only [BuildCall.matchedSecret, BuildCall.lookupText]
    cases hmanager : session.manager with
    | none => simp
    | some sm =>
        simp only [Option.bind_some, Option.some.injEq, forall_eq']
        exact (hsession sm hmanager).lookupSecret_eq_iff
  refine ⟨fun h => hsecret.mp h.1, fun h => ⟨hsecret.mpr h, fun r r' hr hr' as p q hp hq => ?_⟩⟩
  have hrequest : r = r' := by
    rw [BuildCall.request_eq, hsecret.mpr h, ← BuildCall.request_eq] at hr
    exact Option.some.inj (hr.symm.trans hr')
  exact (run_inv (inv_init operatorKey) _).returned_agree r r' p q hp hq (hrequest ▸ rfl)

/-- A session with one secret for the whole bucket and one for a prefix of it. -/
def warehouseSession : Session where
  context := some (.ofSecrets
    [⟨ascii "all_buckets", ascii "s3", ascii "s3://", some []⟩,
      ⟨ascii "hot_prefix", ascii "s3", ascii "s3://warehouse/hot data/", some []⟩])
  db := none
  globals := ∅

theorem warehouseSession_longestScope (sm : SecretManager)
    (h : warehouseSession.manager = some sm) : LongestScope sm := by
  cases h
  exact longestScope_ofSecrets _

/-- The call for a URL of the bucket. -/
def warehouseCall (url : Bytes) : BuildCall :=
  ⟨ascii "s3", ascii "warehouse", url, warehouseSession⟩

theorem operatorFor_plain :
    operatorFor defaultRegistry warehouseSession (ascii "s3://warehouse/hot data/x y") =
      some (warehouseCall (ascii "s3://warehouse/hot data/x y")) := rfl

theorem operatorFor_escapedName :
    operatorFor defaultRegistry warehouseSession (ascii "S3://warehouse/hot data/x%20y") =
      some (warehouseCall (ascii "S3://warehouse/hot data/x%20y")) := rfl

theorem operatorFor_escapedScope :
    operatorFor defaultRegistry warehouseSession (ascii "s3://warehouse/hot%20data/x%20y") =
      some (warehouseCall (ascii "s3://warehouse/hot%20data/x%20y")) := rfl

/-- An escape behind every scope changes nothing. -/
theorem buildOperator_spelling_name :
    (warehouseCall (ascii "s3://warehouse/hot data/x y")).matchedSecret =
        (warehouseCall (ascii "S3://warehouse/hot data/x%20y")).matchedSecret ∧
      ∀ r r', (warehouseCall (ascii "s3://warehouse/hot data/x y")).request = some r →
        (warehouseCall (ascii "S3://warehouse/hot data/x%20y")).request = some r' →
        ∀ (as : List (Action Unit BuildCall)) (p q : Ptr),
          (r, p) ∈ (runOperators as).returned → (r', q) ∈ (runOperators as).returned → p = q :=
  (buildOperator_spelling_iff warehouseSession_longestScope operatorFor_plain
    operatorFor_escapedName (by decide)).mpr fun sm h => by
      cases h
      decide

/-- An escape inside a scope selects the other secret. -/
theorem buildOperator_escaped_scope :
    parseUrl defaultRegistry (ascii "s3://warehouse/hot data/x y") =
        parseUrl defaultRegistry (ascii "s3://warehouse/hot%20data/x%20y") ∧
      ¬ ∀ c c', operatorFor defaultRegistry warehouseSession
          (ascii "s3://warehouse/hot data/x y") = some c →
        operatorFor defaultRegistry warehouseSession
          (ascii "s3://warehouse/hot%20data/x%20y") = some c' →
        c.matchedSecret = c'.matchedSecret := by
  refine ⟨by decide, fun h => ?_⟩
  exact absurd (h _ _ operatorFor_plain operatorFor_escapedScope) (by decide)

end Operators

end DuckdbOpendal
