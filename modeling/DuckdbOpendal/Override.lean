import DuckdbOpendal.BuildOperator
import DuckdbOpendal.Lib.Mealy
import DuckdbOpendal.Lib.Tokens

/-!
# Overriding native file systems

DuckDB asks a file system `CanHandleFile(path)` and then, on the same thread, `IsManuallySet()`.
The answer to the second question is about the path of the first: `CanHandleFile` leaves the
scheme in a thread-local, and the `opendal_override_native_filesystems` setting is a set of
schemes for the whole process.  Calls of several threads interleave; a call is one step, since
`CanHandleFile` touches nothing but its thread's own and the set is replaced under a lock.

## Main Definitions

* `OverrideState` — the set of the process and the thread-locals
* `overrideStep` — a call, on some thread

## Main Results

* `isManuallySet_iff` — the paths that are taken over
-/

namespace DuckdbOpendal

/-! ## The setting -/

/-- What separates the schemes of the list. -/
def isListSeparator (c : UInt8) : Bool := c == 0x2C || c == 0x20 || c == 0x09

/-- The loop of `SetOverrideSchemes`; the set is a list of what was inserted. -/
def overrideTokens (csv : Bytes) : List Bytes :=
  Tokens.collect isListSeparator toAsciiLowercase csv

/-- A scheme that has been put into the list, in any letter case. -/
def ListedForOverride (csv scheme : Bytes) : Prop :=
  ∃ run, Tokens.IsRun isListSeparator csv run ∧
    run.map toAsciiLowercase = scheme.map toAsciiLowercase

/-! ## The calls -/

/-- `g_override_schemes`, and the `t_last_scheme` of every thread. -/
structure OverrideState (Thread : Type) where
  overrideSchemes : List Bytes
  lastScheme : Thread → Bytes

section Calls

variable {Thread : Type}

/-- A call. -/
inductive OverrideCall (Thread : Type) where
  | setOverrideSchemes (csv : Bytes)
  | canHandleFile (thread : Thread) (path : Bytes)
  | isManuallySet (thread : Thread)

namespace OverrideState

/-- The process at its start. -/
def initial : OverrideState Thread := ⟨[], fun _ => []⟩

/-- `SetOverrideSchemes`. -/
def setOverrideSchemes (st : OverrideState Thread) (csv : Bytes) : OverrideState Thread :=
  { st with overrideSchemes := overrideTokens csv }

/-- `SchemeIsOverridden`. -/
def schemeIsOverridden (st : OverrideState Thread) (scheme : Bytes) : Bool :=
  st.overrideSchemes.contains scheme

/-- `IsManuallySet`, on a thread. -/
def isManuallySet (st : OverrideState Thread) (thread : Thread) : Bool :=
  st.schemeIsOverridden (st.lastScheme thread)

variable [DecidableEq Thread]

/-- An assignment to the `t_last_scheme` of a thread. -/
def setLastScheme (st : OverrideState Thread) (thread : Thread) (scheme : Bytes) :
    OverrideState Thread :=
  { st with lastScheme := Function.update st.lastScheme thread scheme }

/-- `CanHandleFile`, on a thread. -/
def canHandleFile (registry : Registry) (st : OverrideState Thread) (thread : Thread)
    (path : Bytes) : OverrideState Thread × Bool :=
  let st := st.setLastScheme thread []
  match parseUrl registry path with
  | none => (st, false)
  | some u => (st.setLastScheme thread u.scheme, true)

end OverrideState

/-- What a call does, and its answer. -/
def overrideStep [DecidableEq Thread] (registry : Registry) (st : OverrideState Thread) :
    OverrideCall Thread → OverrideState Thread × Option Bool
  | .setOverrideSchemes csv => (st.setOverrideSchemes csv, none)
  | .canHandleFile thread path =>
      let (st, handled) := st.canHandleFile registry thread path
      (st, some handled)
  | .isManuallySet thread => (st, some (st.isManuallySet thread))

/-! ## Histories -/

/-- The string a call sets. -/
def OverrideCall.csv? : OverrideCall Thread → Option Bytes
  | .setOverrideSchemes csv => some csv
  | _ => none

/-- The last string set, empty before the first. -/
def lastSet (history : List (OverrideCall Thread)) : Bytes :=
  (history.filterMap OverrideCall.csv?).getLast?.getD []

/-- A call that may come between the two questions of a thread: it neither sets a string nor
asks the thread's first question again. -/
def OverrideCall.Spares (thread : Thread) : OverrideCall Thread → Prop
  | .setOverrideSchemes _ => False
  | .canHandleFile thread' _ => thread' ≠ thread
  | .isManuallySet _ => True

theorem lastSet_concat (history : List (OverrideCall Thread)) (call : OverrideCall Thread) :
    lastSet (history ++ [call]) = call.csv?.getD (lastSet history) := by
  cases hcall : call.csv? with
  | none => simp [lastSet, hcall]
  | some csv => simp [lastSet, hcall]

theorem OverrideCall.Spares.csv? {call : OverrideCall Thread} {thread : Thread}
    (h : call.Spares thread) : call.csv? = none := by
  cases call with
  | setOverrideSchemes csv => cases h
  | canHandleFile thread' path => rfl
  | isManuallySet thread' => rfl

end Calls

/-! ## The set -/

theorem mem_overrideTokens_iff {csv token : Bytes} :
    token ∈ overrideTokens csv ↔
      ∃ run, Tokens.IsRun isListSeparator csv run ∧ run.map toAsciiLowercase = token :=
  Tokens.mem_collect_iff

/-- No token is empty. -/
theorem nil_notMem_overrideTokens (csv : Bytes) : [] ∉ overrideTokens csv := by
  intro h
  obtain ⟨run, hrun, hnil⟩ := mem_overrideTokens_iff.mp h
  exact hrun.1 (List.map_eq_nil_iff.mp hnil)

/-- A scheme that OpenDAL has resolved is spelled in lower case. -/
theorem ResolvedUrl.WellFormed.map_scheme {registry : Registry} {u : ResolvedUrl}
    (hu : u.WellFormed registry) : u.scheme.map toAsciiLowercase = u.scheme :=
  map_eq_self fun b hb =>
    (isSchemeByte_plain (registry.lowercase u.scheme hu.scheme b hb)).2.2.2.2.2

/-- A resolved scheme is in the set if it has been listed. -/
theorem mem_overrideTokens_scheme_iff {registry : Registry} {u : ResolvedUrl}
    (hu : u.WellFormed registry) {csv : Bytes} :
    u.scheme ∈ overrideTokens csv ↔ ListedForOverride csv u.scheme := by
  rw [mem_overrideTokens_iff, ListedForOverride, hu.map_scheme]

section Runs

variable {Thread : Type} [DecidableEq Thread] (registry : Registry)

/-! ## Runs -/

/-- A call changes the set if it sets a string, and to the tokens of it. -/
theorem overrideStep_overrideSchemes (st : OverrideState Thread) (call : OverrideCall Thread) :
    (overrideStep registry st call).1.overrideSchemes =
      (call.csv?.map overrideTokens).getD st.overrideSchemes := by
  cases call with
  | setOverrideSchemes csv => rfl
  | canHandleFile thread path =>
      simp only [overrideStep, OverrideState.canHandleFile]
      cases parseUrl registry path with
      | none => rfl
      | some u => rfl
  | isManuallySet thread => rfl

/-- The first question leaves the scheme behind, or nothing. -/
theorem canHandleFile_lastScheme (st : OverrideState Thread) (thread : Thread) (path : Bytes) :
    (st.canHandleFile registry thread path).1.lastScheme thread =
      ((parseUrl registry path).map ResolvedUrl.scheme).getD [] := by
  simp only [OverrideState.canHandleFile]
  cases parseUrl registry path with
  | none => exact Function.update_self ..
  | some u => exact Function.update_self ..

/-- The thread-local of a thread is its own. -/
theorem overrideStep_lastScheme (st : OverrideState Thread) {call : OverrideCall Thread}
    {thread : Thread} (hcall : call.Spares thread) :
    (overrideStep registry st call).1.lastScheme thread = st.lastScheme thread := by
  cases call with
  | setOverrideSchemes csv => rfl
  | canHandleFile thread' path =>
      have hne : thread ≠ thread' := Ne.symm hcall
      simp only [overrideStep, OverrideState.canHandleFile]
      cases parseUrl registry path with
      | none => exact Function.update_of_ne hne ..
      | some u =>
          exact (Function.update_of_ne hne ..).trans (Function.update_of_ne hne ..)
  | isManuallySet thread' => rfl

/-- **The set holds the tokens of the last string**, whatever else was called. -/
theorem overrideSchemes_final (history : List (OverrideCall Thread)) :
    (Mealy.final (overrideStep registry) .initial history).overrideSchemes =
      overrideTokens (lastSet history) := by
  induction history using List.reverseRecOn with
  | nil => rfl
  | append_singleton history call ih =>
      rw [Mealy.final_append, Mealy.final_cons, Mealy.final_nil, overrideStep_overrideSchemes, ih,
        lastSet_concat]
      cases call.csv? with
      | none => rfl
      | some csv => rfl

/-- **The answer is about the path**: whatever was set and asked before, and whatever other
threads ask in between, a thread is told that a path is taken over if the path resolves and its
scheme is a token of the last string set. -/
theorem isManuallySet_iff (history between : List (OverrideCall Thread)) (thread : Thread)
    (path : Bytes) (hbetween : ∀ call ∈ between, call.Spares thread) :
    (Mealy.final (overrideStep registry) .initial
        (history ++ .canHandleFile thread path :: between)).isManuallySet thread = true ↔
      ∃ u, odUrlResolve registry path = .ok u ∧ ListedForOverride (lastSet history) u.scheme := by
  rw [Mealy.final_append, Mealy.final_cons]
  obtain ⟨hschemes, hlast⟩ := Mealy.final_invariant_of_forall (overrideStep registry)
    (fun st => st.overrideSchemes = overrideTokens (lastSet history) ∧
      st.lastScheme thread = ((parseUrl registry path).map ResolvedUrl.scheme).getD [])
    (fun call => call.Spares thread)
    (fun st call hst hcall => by
      rw [overrideStep_overrideSchemes, hcall.csv?, overrideStep_lastScheme registry st hcall]
      exact hst)
    (s := (overrideStep registry (Mealy.final (overrideStep registry) .initial history)
      (.canHandleFile thread path)).1)
    ⟨(overrideStep_overrideSchemes registry _ _).trans (overrideSchemes_final registry history),
      canHandleFile_lastScheme registry _ thread path⟩ hbetween
  rw [OverrideState.isManuallySet, OverrideState.schemeIsOverridden, hschemes, hlast,
    List.contains_iff_mem]
  cases hurl : parseUrl registry path with
  | none =>
      refine iff_of_false (nil_notMem_overrideTokens _) ?_
      rintro ⟨u, hu, -⟩
      rw [parseUrl, hu] at hurl
      cases hurl
  | some u =>
      have hu := odUrlResolve_of_parseUrl hurl
      rw [Option.map_some, Option.getD_some,
        mem_overrideTokens_scheme_iff (odUrlResolve_wellFormed hu)]
      constructor
      · exact fun hlisted => ⟨u, hu, hlisted⟩
      · rintro ⟨u', hu', hlisted⟩
        cases hu.symm.trans hu'
        exact hlisted

end Runs

/-- A history of two threads: a list with empty tokens, and questions on both sides. -/
theorem isManuallySet_s3 :
    (Mealy.final (overrideStep defaultRegistry) .initial
      ([.setOverrideSchemes (ascii "memory"), .canHandleFile 0 (ascii "memory:///x"),
          .setOverrideSchemes (ascii ", S3,\tgcs")] ++
        .canHandleFile 0 (ascii "s3://bucket/file") ::
          [.canHandleFile 1 (ascii "https://example.com"), .isManuallySet (1 : Fin 2)])
      ).isManuallySet 0 = true := by
  refine (isManuallySet_iff defaultRegistry _ _ 0 (ascii "s3://bucket/file") ?_).mpr ?_
  · intro call hcall
    simp only [List.mem_cons, List.not_mem_nil, or_false] at hcall
    rcases hcall with rfl | rfl
    · show (1 : Fin 2) ≠ 0
      decide
    · trivial
  · refine ⟨⟨ascii "s3", ascii "bucket", ascii "file"⟩, by decide +kernel, ascii "S3", ?_,
      by decide⟩
    have hplain : (ascii "S3").all (fun c => !isListSeparator c) = true := by decide
    refine ⟨by decide, fun c hc => ?_, ascii ", ", ascii ",\tgcs", by decide, ?_, ?_⟩
    · exact Bool.not_eq_true' _ ▸ List.all_eq_true.mp hplain c hc
    · rintro c ⟨⟩
      rfl
    · rintro c ⟨⟩
      rfl

end DuckdbOpendal
