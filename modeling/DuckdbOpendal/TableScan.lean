import DuckdbOpendal.Copy
import DuckdbOpendal.GlobUrls
import DuckdbOpendal.Lib.ChunkedScan

/-!
# The table functions

`EntryFunc`, `DuFunc` and `CopyFunc` of `src/opendal_table_functions.cpp`.  Each call fills a
vector from its cursor; DuckDB takes an empty one for the end of the scan, and does not call
again after an exception.  The rows of a copy are side effects: a pair of the plan that were
visited twice, or behind one that has failed, would change storage.

## Main Definitions

* `metadataValue` — the metadata column
* `entryFunc`, `duFunc`, `copyFunc` — one call of a table function
* `CopyProgress` — a copy cursor, with the outcomes of its copies and those that have run
* `copyOneEvents`, `copiesRun` — what `copy_one` asks of OpenDAL, for a pair and for the first
  pairs of a plan

## Main Results

* `tableFunctions_handOut` — what repeated calls hand out, and which copies they run
-/

namespace DuckdbOpendal

open Cursor

/-! ## Output rows -/

/-- The struct of the metadata column. -/
structure MetadataValue where
  mode : Bytes
  contentLength : U64
  cacheControl : Option Bytes
  contentDisposition : Option Bytes
  contentMd5 : Option Bytes
  contentType : Option Bytes
  contentEncoding : Option Bytes
  etag : Option Bytes
  lastModified : Option ℤ
  version : Option Bytes
  isCurrent : Option Bool
  isDeleted : Bool
  userMetadata : List (Bytes × Bytes)
  deriving DecidableEq, Repr

/-- `MetadataValue`; a timestamp counts microseconds. -/
def metadataValue (metadata : OwnedRow) : MetadataValue where
  mode :=
    if metadata.mode = 1 then ascii "file"
    else if metadata.mode = 2 then ascii "directory"
    else ascii "unknown"
  contentLength := metadata.contentLength
  cacheControl := metadata.cacheControl
  contentDisposition := metadata.contentDisposition
  contentMd5 := metadata.contentMd5
  contentType := metadata.contentType
  contentEncoding := metadata.contentEncoding
  etag := metadata.etag
  lastModified := if metadata.hasLastModified then some (1000 * metadata.lastModifiedMs) else none
  version := metadata.version
  isCurrent := if metadata.hasIsCurrent then some metadata.isCurrent else none
  isDeleted := metadata.isDeleted
  userMetadata := metadata.userKeys.zip metadata.userValues

/-- The columns of `opendal_ls` and `opendal_stat`. -/
structure EntryValues where
  path : Bytes
  name : Bytes
  metadata : MetadataValue
  deriving DecidableEq, Repr

/-- The columns of `opendal_du`. -/
structure DuValues where
  directory : Bytes
  fileCount : ℕ
  totalSize : ℕ
  deriving DecidableEq, Repr

/-- The columns of `opendal_copy`. -/
structure CopyValues where
  source : Bytes
  destination : Bytes
  bytesCopied : ℕ
  metadata : MetadataValue
  deriving DecidableEq, Repr

/-- What `EntryFunc` sets. -/
def entryValues (row : OwnedRow) : EntryValues := ⟨row.path, row.name, metadataValue row⟩

/-- What `DuFunc` sets; `BuildUrlPublic` may throw. -/
def duValues (scheme authority : Bytes) (row : OwnedDuRow) : Except Bytes DuValues :=
  (buildUrl scheme authority row.directory).map fun url => ⟨url, row.fileCount, row.totalSize⟩

/-- What `CopyFunc` sets. -/
def copyValues (row : OwnedCopyRow) : CopyValues :=
  ⟨row.source, row.destination.path, row.bytesCopied, metadataValue row.destination⟩

/-! ## Scans over entries and groups -/

section Functions

variable (getBasename : Bytes → Bytes)

/-- `EntryFunc`; `size` is `STANDARD_VECTOR_SIZE`. -/
def entryFunc (target : Bytes) (size : ℕ) (st : Scan OdTableCursor) :
    Scan OdTableCursor × Except Bytes (List EntryValues) :=
  st.call (Next.handOn (throwIfTableError · "scan" target) (fun row => .ok (entryValues row))
    (odTableCursorNext getBasename)) size

/-- `DuFunc`. -/
def duFunc (scheme authority target : Bytes) (size : ℕ) (st : Scan OdDuCursor) :
    Scan OdDuCursor × Except Bytes (List DuValues) :=
  st.call (Next.handOn (throwIfTableError · "du" target) (duValues scheme authority)
    odDuCursorNext) size

/-! ## The copy -/

/-- `CopyBindData`, without the file system. -/
structure CopyBindData where
  source : Bytes
  destination : Bytes
  ifMatch : Bytes
  sourceVersion : Bytes
  sourceContentLengthHint : U64
  concurrent : ℕ
  chunkSize : ℕ
  ifNotExists : Bool
  hasSourceContentLengthHint : Bool
  hasConcurrent : Bool
  hasChunkSize : Bool

/-- The options `OpenCopyCursor` passes on; an empty text is a null pointer. -/
def CopyBindData.options (bind : CopyBindData) : OdCopyOptions where
  ifNotExists := bind.ifNotExists
  ifMatch := if bind.ifMatch = [] then none else some bind.ifMatch
  sourceVersion := if bind.sourceVersion = [] then none else some bind.sourceVersion
  sourceContentLengthHint := bind.sourceContentLengthHint
  hasSourceContentLengthHint := bind.hasSourceContentLengthHint
  concurrent := bind.concurrent
  hasConcurrent := bind.hasConcurrent
  chunkSize := bind.chunkSize
  hasChunkSize := bind.hasChunkSize

/-- What names a copy in the errors of `CopyFunc`. -/
def CopyBindData.target (bind : CopyBindData) : Bytes :=
  bind.source ++ ascii "' -> '" ++ bind.destination

/-- `OpenCopyCursor`; `operators` is what `OperatorForPublic` returns or throws. -/
def openCopyCursor (registry : Registry) (operators : ResolvedUrl → Except Bytes OdOperator)
    (bind : CopyBindData) : Except Bytes OdCopyCursor :=
  match parseUrl registry bind.source with
  | none =>
      .error (ascii "opendal copy: unsupported or invalid source URL: " ++ bind.source)
  | some source =>
      match parseUrl registry bind.destination with
      | none =>
          .error (ascii "opendal copy: unsupported or invalid destination URL: " ++
            bind.destination)
      | some destination => do
          let sourceOp ← operators source
          let destinationOp ← operators destination
          match odTableCopyOpen sourceOp source.path destinationOp destination.path
              bind.options with
          | .ok cursor => .ok cursor
          | .error err => .error (throwIfTableError err "copy" bind.target)

/-- How a copy goes: OpenDAL answers, or something panics after some calls. -/
inductive CopyOutcome where
  | answers (calls : CopyCalls)
  | panics (events : List CopyEvent)

/-- `od_copy_cursor_next` under its `ffi_guard`; a pair is taken off the plan before its copy. -/
def guardedCopyCursorNext (c : OdCopyCursor) :
    CopyOutcome → OdCopyCursor × List CopyEvent × Except OdError (Option OwnedCopyRow)
  | .answers calls => odCopyCursorNext getBasename c calls
  | .panics events =>
      match c.plan with
      | [] => (c, [], .ok none)
      | _ :: plan =>
          ({ c with plan := plan }, events,
            .error (setError .Panic (ascii "panic in od_copy_cursor_next")))

/-- A copy cursor, the outcomes of the copies to come, the copies that have run, and all that
has been asked of OpenDAL. -/
structure CopyProgress where
  cursor : OdCopyCursor
  outcomes : ℕ → CopyOutcome
  ran : List (PlannedCopy × List CopyEvent)
  asked : List CopyEvent

/-- The next row of a copy. -/
def CopyProgress.next (s : CopyProgress) : CopyProgress × Except OdError (Option OwnedCopyRow) :=
  let (cursor, events, answer) := guardedCopyCursorNext getBasename s.cursor (s.outcomes 0)
  ({ cursor := cursor
     outcomes := fun i => s.outcomes (i + 1)
     ran := s.ran ++ s.cursor.plan.head?.toList.map fun p => (p, events)
     asked := s.asked ++ events }, answer)

/-- The rows of a copy, as `CopyFunc` sets them. -/
def copyRows (target : Bytes) : Next CopyProgress CopyValues Bytes :=
  Next.handOn (throwIfTableError · "copy" target) (fun row => .ok (copyValues row))
    (CopyProgress.next getBasename)

/-- `CopyGlobalState`; it is opened once it has a cursor. -/
structure CopyGlobalState where
  cursor : Option CopyProgress
  finished : Bool

namespace CopyGlobalState

/-- `CopyInit`. -/
def initial : CopyGlobalState := ⟨none, false⟩

/-- The copies that have run. -/
def ran (st : CopyGlobalState) : List (PlannedCopy × List CopyEvent) :=
  (st.cursor.map CopyProgress.ran).getD []

/-- All that has been asked of OpenDAL. -/
def asked (st : CopyGlobalState) : List CopyEvent :=
  (st.cursor.map CopyProgress.asked).getD []

end CopyGlobalState

/-- `CopyFunc`; `outcomes` are those of the copies of the scan. -/
def copyFunc (registry : Registry) (operators : ResolvedUrl → Except Bytes OdOperator)
    (bind : CopyBindData) (outcomes : ℕ → CopyOutcome) (size : ℕ) (st : CopyGlobalState) :
    CopyGlobalState × Except Bytes (List CopyValues) :=
  if st.finished then (st, .ok [])
  else
    let opened : Except Bytes CopyProgress :=
      match st.cursor with
      | some s => .ok s
      | none => (openCopyCursor registry operators bind).map fun c => ⟨c, outcomes, [], []⟩
    match opened with
    | .error message => (st, .error message)
    | .ok s =>
        let (scan, answer) := Scan.call (copyRows getBasename bind.target) size ⟨s, false⟩
        (⟨some scan.cursor, scan.finished⟩, answer)

end Functions

/-! ## The copies of a scan -/

section Attempts

variable (getBasename : Bytes → Bytes)

/-- The pairs of a plan, with the outcomes of their copies. -/
def attempts : List PlannedCopy → (ℕ → CopyOutcome) → List (PlannedCopy × CopyOutcome)
  | [], _ => []
  | p :: plan, outcomes => (p, outcomes 0) :: attempts plan fun i => outcomes (i + 1)

/-- What `copy_one` asks of OpenDAL for a pair: all of it, or what precedes a panic. -/
def copyOneEvents (c : OdCopyCursor) : PlannedCopy × CopyOutcome → List CopyEvent
  | (p, .answers calls) =>
      (copyOne calls p.source p.destination c.options c.sameOpCopy p.size).events
  | (_, .panics events) => events

/-- `copy_one` succeeds on a pair, and this is the row that its result makes. -/
def Copied (c : OdCopyCursor) : PlannedCopy × CopyOutcome → OwnedCopyRow → Prop
  | (p, .answers calls), row =>
      0 ∉ p.source ∧ ∃ metadata,
        (copyOne calls p.source p.destination c.options c.sameOpCopy p.size).result =
          .ok (row.bytesCopied, metadata) ∧
        OwnedRow.fromParts getBasename p.destination metadata = .ok row.destination ∧
        row.source = p.source
  | (_, .panics _), _ => False

/-- What a call of the cursor asks of OpenDAL for the first pair, and its row or error. -/
def copyAttempt (c : OdCopyCursor) (attempt : PlannedCopy × CopyOutcome) :
    List CopyEvent × Except OdError (Option OwnedCopyRow) :=
  (guardedCopyCursorNext getBasename { c with plan := [attempt.1] } attempt.2).2

variable {getBasename} {c : OdCopyCursor}

theorem map_fst_attempts (plan : List PlannedCopy) (outcomes : ℕ → CopyOutcome) :
    (attempts plan outcomes).map Prod.fst = plan := by
  induction plan generalizing outcomes with
  | nil => rfl
  | cons p plan ih => exact congrArg (p :: ·) (ih _)

/-- What a call answers depends on the first pair and the options alone. -/
theorem odCopyCursorNext_answer (c c' : OdCopyCursor) {p : PlannedCopy}
    {plan plan' : List PlannedCopy} (hplan : c.plan = p :: plan) (hplan' : c'.plan = p :: plan')
    (hoptions : c'.options = c.options) (hsame : c'.sameOpCopy = c.sameOpCopy)
    (calls : CopyCalls) :
    (odCopyCursorNext getBasename c' calls).2 = (odCopyCursorNext getBasename c calls).2 := by
  simp only [odCopyCursorNext, hplan, hplan', hoptions, hsame]
  cases (copyOne calls p.source p.destination c.options c.sameOpCopy p.size).result with
  | error error => rfl
  | ok copied =>
      simp only
      cases cstring p.source "copy source" with
      | error message => rfl
      | ok source =>
          simp only
          cases OwnedRow.fromParts getBasename p.destination copied.2 with
          | error message => rfl
          | ok destination => rfl

theorem copyAttempt_congr {c c' : OdCopyCursor} (hoptions : c'.options = c.options)
    (hsame : c'.sameOpCopy = c.sameOpCopy) (attempt : PlannedCopy × CopyOutcome) :
    copyAttempt getBasename c' attempt = copyAttempt getBasename c attempt := by
  obtain ⟨p, calls | events⟩ := attempt
  · exact odCopyCursorNext_answer { c with plan := [p] } { c' with plan := [p] } rfl rfl hoptions
      hsame calls
  · rfl

variable (getBasename) in
/-- A call takes the first pair off the plan, and is about that pair alone. -/
theorem guardedCopyCursorNext_cons {p : PlannedCopy} {plan : List PlannedCopy}
    (hplan : c.plan = p :: plan) (outcome : CopyOutcome) :
    ∃ c', guardedCopyCursorNext getBasename c outcome =
        (c', copyAttempt getBasename c (p, outcome)) ∧
      c'.plan = plan ∧ ∀ attempt, copyAttempt getBasename c' attempt =
        copyAttempt getBasename c attempt := by
  cases outcome with
  | answers calls =>
      obtain ⟨htail, hoptions, hsame⟩ := odCopyCursorNext_frame getBasename c calls
      refine ⟨(odCopyCursorNext getBasename c calls).1, Prod.ext rfl ?_, ?_,
        copyAttempt_congr hoptions hsame⟩
      · exact odCopyCursorNext_answer { c with plan := [p] } c rfl hplan rfl rfl calls
      · rw [htail, hplan, List.tail_cons]
  | panics events =>
      refine ⟨{ c with plan := plan }, ?_, rfl, copyAttempt_congr rfl rfl⟩
      simp only [guardedCopyCursorNext, hplan, copyAttempt]

variable (getBasename) in
/-- **A call of the cursor runs `copy_one` on its pair, once.** -/
theorem copyAttempt_events (attempt : PlannedCopy × CopyOutcome) :
    (copyAttempt getBasename c attempt).1 = copyOneEvents c attempt := by
  obtain ⟨p, calls | events⟩ := attempt
  · simp only [copyAttempt, guardedCopyCursorNext, odCopyCursorNext, copyOneEvents]
    split
    · rfl
    · split
      · rfl
      · split
        · rfl
        · rfl
  · rfl

/-- A copy gives a row, or fails. -/
theorem copyAttempt_ne_none (attempt : PlannedCopy × CopyOutcome) :
    (copyAttempt getBasename c attempt).2 ≠ .ok none := by
  obtain ⟨p, calls | events⟩ := attempt
  · intro h
    have hnil : [p] = [] := plan_eq_nil_of_done (c := { c with plan := [p] }) h
    cases hnil
  · intro h
    cases h

/-- It gives a row when the copy succeeds and no text of the row contains a NUL byte. -/
theorem copied_iff {attempt : PlannedCopy × CopyOutcome} {row : OwnedCopyRow} :
    Copied getBasename c attempt row ↔ (copyAttempt getBasename c attempt).2 = .ok (some row) := by
  obtain ⟨p, calls | events⟩ := attempt
  · constructor
    · rintro ⟨hsource, metadata, hcopy, hdestination, hpath⟩
      have hnext : odCopyCursorNext getBasename { c with plan := [p] } calls = _ :=
        odCopyCursorNext_of_ok rfl hcopy hsource hdestination
      rw [copyAttempt, guardedCopyCursorNext, hnext, ← hpath]
    · intro hrow
      simp only [copyAttempt, guardedCopyCursorNext, odCopyCursorNext] at hrow
      split at hrow
      · cases hrow
      · rename_i bytesCopied metadata hcopy
        split at hrow
        · cases hrow
        · rename_i source hsource
          split at hrow
          · cases hrow
          · rename_i destination hdestination
            cases hrow
            exact ⟨(eq_of_cstring hsource).2, metadata, hcopy, hdestination,
              (eq_of_cstring hsource).1⟩
  · constructor
    · exact False.elim
    · intro hrow
      cases hrow

/-- **A row is about its pair.** -/
theorem Copied.row {attempt : PlannedCopy × CopyOutcome} {row : OwnedCopyRow}
    (h : Copied getBasename c attempt row) :
    row.source = attempt.1.source ∧ row.destination.path = attempt.1.destination := by
  obtain ⟨p, calls | events⟩ := attempt
  · obtain ⟨-, metadata, -, hdestination, hsource⟩ := h
    exact ⟨hsource, OwnedRow.fromParts_path hdestination⟩
  · exact h.elim

/-! ## One call for a row -/

/-- A call with nothing left to copy. -/
theorem CopyProgress.next_nil {s : CopyProgress} (hplan : s.cursor.plan = []) :
    s.next getBasename = (⟨s.cursor, fun i => s.outcomes (i + 1), s.ran, s.asked⟩, .ok none) := by
  have hguarded : guardedCopyCursorNext getBasename s.cursor (s.outcomes 0) =
      (s.cursor, [], .ok none) := by
    cases s.outcomes 0 with
    | answers calls => simp only [guardedCopyCursorNext, odCopyCursorNext, hplan]
    | panics events => simp only [guardedCopyCursorNext, hplan]
  simp only [CopyProgress.next, hguarded, hplan, List.head?_nil, Option.toList_none,
    List.map_nil, List.append_nil]

variable (getBasename) in
/-- A call copies the next pair. -/
theorem CopyProgress.next_cons {s : CopyProgress} {attempt : PlannedCopy × CopyOutcome}
    {rest : List (PlannedCopy × CopyOutcome)}
    (h : attempts s.cursor.plan s.outcomes = attempt :: rest) :
    ∃ s', s.next getBasename = (s', (copyAttempt getBasename s.cursor attempt).2) ∧
      attempts s'.cursor.plan s'.outcomes = rest ∧
      s'.ran = s.ran ++ [(attempt.1, copyOneEvents s.cursor attempt)] ∧
      s'.asked = s.asked ++ copyOneEvents s.cursor attempt ∧
      ∀ attempt', copyAttempt getBasename s'.cursor attempt' =
        copyAttempt getBasename s.cursor attempt' := by
  cases hplan : s.cursor.plan with
  | nil =>
      rw [hplan] at h
      cases h
  | cons p plan =>
      rw [hplan] at h
      cases h
      obtain ⟨c', hnext, hrest, hcopies⟩ :=
        guardedCopyCursorNext_cons getBasename hplan (s.outcomes 0)
      simp only [CopyProgress.next, hnext, hplan, ← copyAttempt_events getBasename]
      exact ⟨_, rfl, congrArg (attempts · _) hrest, rfl, rfl, hcopies⟩

/-! ## Whole scans -/

variable (getBasename c)

/-- The first pairs, each with what one `copy_one` asks of OpenDAL for it. -/
def copiesRun (all : List (PlannedCopy × CopyOutcome)) (k : ℕ) :
    List (PlannedCopy × List CopyEvent) :=
  (all.take k).map fun attempt => (attempt.1, copyOneEvents c attempt)

/-- One `copy_one` has run for each of the first pairs, and nothing else. -/
structure CopyProgress.RanFirst (all : List (PlannedCopy × CopyOutcome)) (k : ℕ)
    (s : CopyProgress) : Prop where
  ran : s.ran = copiesRun c all k
  asked : s.asked = (copiesRun c all k).flatMap Prod.snd

/-- So many copies have run, each with a row, and the others are to come. -/
def CopyProgress.Holds (all : List (PlannedCopy × CopyOutcome)) (s : CopyProgress) : Prop :=
  ∃ k, s.RanFirst c all k ∧
    (∀ attempt ∈ all.take k, ∃ row, Copied getBasename c attempt row) ∧
    attempts s.cursor.plan s.outcomes = all.drop k ∧
    ∀ attempt, copyAttempt getBasename s.cursor attempt = copyAttempt getBasename c attempt

/-- The last of the copies that have run has failed, and it alone. -/
def CopyProgress.Failed (all : List (PlannedCopy × CopyOutcome)) (s : CopyProgress) : Prop :=
  ∃ k, s.RanFirst c all (k + 1) ∧
    ∀ attempt ∈ all.take k, ∃ row, Copied getBasename c attempt row

variable {getBasename c}

theorem attempts_eq_nil {plan : List PlannedCopy} {outcomes : ℕ → CopyOutcome}
    (h : attempts plan outcomes = []) : plan = [] := by
  rw [← map_fst_attempts plan outcomes, h, List.map_nil]

theorem take_succ_of_drop {α : Type} {all rest : List α} {a : α} {k : ℕ}
    (h : all.drop k = a :: rest) : all.take (k + 1) = all.take k ++ [a] := by
  rw [List.take_add_one, ← List.head?_drop, h, List.head?_cons, Option.toList_some]

theorem copiesRun_succ {all rest : List (PlannedCopy × CopyOutcome)}
    {attempt : PlannedCopy × CopyOutcome} {k : ℕ} (h : all.drop k = attempt :: rest) :
    copiesRun c all (k + 1) =
      copiesRun c all k ++ [(attempt.1, copyOneEvents c attempt)] := by
  rw [copiesRun, take_succ_of_drop h, List.map_append]
  rfl

/-- **A call copies the next pair, if there is one.** -/
theorem CopyProgress.Holds.next_cases {all : List (PlannedCopy × CopyOutcome)} {s : CopyProgress}
    (h : s.Holds getBasename c all) :
    (∃ s', s.next getBasename = (s', .ok none) ∧ s'.Holds getBasename c all) ∨
      ∃ attempt s', s.next getBasename = (s', (copyAttempt getBasename c attempt).2) ∧
        s'.Failed getBasename c all ∧
        ((∃ row, Copied getBasename c attempt row) → s'.Holds getBasename c all) := by
  obtain ⟨k, hran, hcopied, hattempts, hsame⟩ := h
  cases hdrop : all.drop k with
  | nil =>
      have hplan := attempts_eq_nil (hattempts.trans hdrop)
      refine Or.inl ⟨_, CopyProgress.next_nil hplan, k, ⟨hran.ran, hran.asked⟩, hcopied, ?_, hsame⟩
      rw [hdrop, hplan, attempts]
  | cons attempt rest =>
      obtain ⟨s', hnext, hrest, hran', hasked', hsame'⟩ :=
        CopyProgress.next_cons getBasename (hattempts.trans hdrop)
      have hevents : copyOneEvents s.cursor attempt = copyOneEvents c attempt := by
        rw [← copyAttempt_events getBasename, hsame, copyAttempt_events]
      rw [hsame] at hnext
      rw [hevents] at hran' hasked'
      have hsucc : s'.RanFirst c all (k + 1) := by
        constructor
        · rw [hran', hran.ran, copiesRun_succ hdrop]
        · rw [hasked', hran.asked, copiesRun_succ hdrop, List.flatMap_append,
            List.flatMap_singleton]
      refine Or.inr ⟨attempt, s', hnext, ⟨k, hsucc, hcopied⟩, fun hrow => ?_⟩
      refine ⟨k + 1, hsucc, ?_, ?_, fun a => (hsame' a).trans (hsame a)⟩
      · rw [take_succ_of_drop hdrop]
        intro a ha
        rcases List.mem_append.mp ha with ha | ha
        · exact hcopied a ha
        · exact List.mem_singleton.mp ha ▸ hrow
      · rw [hrest, ← List.tail_drop, hdrop, List.tail_cons]

variable (getBasename c) in
/-- So the copies that have run are the first of the plan, and only the last may have failed. -/
theorem keeps_next (all : List (PlannedCopy × CopyOutcome)) :
    Keeps (CopyProgress.Holds getBasename c all) (CopyProgress.Failed getBasename c all)
      (CopyProgress.next getBasename) := by
  refine ⟨fun s s' answer hs h => ?_, fun s s' e hs h => ?_⟩
  · rcases hs.next_cases with ⟨t, hnext, ht⟩ | ⟨attempt, t, hnext, -, ht⟩
    · cases hnext.symm.trans h
      exact ht
    · obtain ⟨rfl, hanswer⟩ := Prod.mk.inj (hnext.symm.trans h)
      cases answer with
      | none => exact absurd hanswer (copyAttempt_ne_none attempt)
      | some row => exact ht ⟨row, copied_iff.mpr hanswer⟩
  · rcases hs.next_cases with ⟨t, hnext, -⟩ | ⟨attempt, t, hnext, hfailed, -⟩
    · cases hnext.symm.trans h
    · obtain ⟨rfl, -⟩ := Prod.mk.inj (hnext.symm.trans h)
      exact hfailed

variable (getBasename c) in
/-- **The rows of a whole copy**: those of its pairs, up to the first that fails. -/
theorem CopyProgress.drains (all : List (PlannedCopy × CopyOutcome)) {s : CopyProgress}
    (hall : attempts s.cursor.plan s.outcomes = all)
    (hsame : ∀ attempt, copyAttempt getBasename s.cursor attempt =
      copyAttempt getBasename c attempt) :
    Drains (CopyProgress.next getBasename) s
      (collect (fun attempt => (copyAttempt getBasename c attempt).2) all).1
      (collect (fun attempt => (copyAttempt getBasename c attempt).2) all).2 := by
  refine drains_collect (fun s items => attempts s.cursor.plan s.outcomes = items ∧
    ∀ attempt, copyAttempt getBasename s.cursor attempt = copyAttempt getBasename c attempt)
    ?_ ?_ ⟨hall, hsame⟩
  · rintro s ⟨hnil, -⟩
    exact ⟨_, CopyProgress.next_nil (attempts_eq_nil hnil)⟩
  · rintro s attempt rest ⟨hcons, hsame⟩
    obtain ⟨s', hnext, hrest, -, -, hsame'⟩ :=
      CopyProgress.next_cons getBasename hcons
    refine ⟨s', ⟨hrest, fun a => (hsame' a).trans (hsame a)⟩, ?_⟩
    rw [hnext, hsame]
    rcases hanswer : (copyAttempt getBasename c attempt).2 with e | _ | row
    · rfl
    · exact absurd hanswer (copyAttempt_ne_none attempt)
    · rfl

end Attempts

/-! ## The table functions -/

section HandOut

variable {getBasename : Bytes → Bytes} {registry : Registry}
  {operators : ResolvedUrl → Except Bytes OdOperator} {bind : CopyBindData}
  {outcomes : ℕ → CopyOutcome} {size : ℕ}

/-- The state of a copy that is opened. -/
def CopyGlobalState.opened (st : Scan CopyProgress) : CopyGlobalState :=
  ⟨some st.cursor, st.finished⟩

/-- An opened copy is a scan of its cursor. -/
theorem copyFunc_opened (st : Scan CopyProgress) :
    copyFunc getBasename registry operators bind outcomes size (.opened st) =
      (.opened (st.call (copyRows getBasename bind.target) size).1,
        (st.call (copyRows getBasename bind.target) size).2) := by
  obtain ⟨s, finished | finished⟩ := st
  · rfl
  · rfl

variable (getBasename outcomes size) in
/-- **The calls of a copy** are those of a scan of the cursor that the first one opens. -/
theorem repeatCall_copyFunc {cursor : OdCopyCursor}
    (hopen : openCopyCursor registry operators bind = .ok cursor) (n : ℕ) :
    let run := repeatCall (copyFunc getBasename registry operators bind outcomes size) n .initial
    let scan := repeatCall (Scan.call (copyRows getBasename bind.target) size) n
      ⟨⟨cursor, outcomes, [], []⟩, false⟩
    run.state.ran = scan.state.cursor.ran ∧ run.state.asked = scan.state.cursor.asked ∧
      run.chunks = scan.chunks ∧ run.thrown = scan.thrown := by
  intro run scan
  cases n with
  | zero => exact ⟨rfl, rfl, rfl, rfl⟩
  | succ n =>
      have hfirst : copyFunc getBasename registry operators bind outcomes size .initial =
          copyFunc getBasename registry operators bind outcomes size
            (.opened ⟨⟨cursor, outcomes, [], []⟩, false⟩) := by
        simp only [copyFunc, CopyGlobalState.initial, CopyGlobalState.opened, hopen, Except.map,
          Bool.false_eq_true, if_false]
      have hrun : run = repeatCall (copyFunc getBasename registry operators bind outcomes size)
          (n + 1) (.opened ⟨⟨cursor, outcomes, [], []⟩, false⟩) := by
        show repeatCall _ (n + 1) _ = _
        rw [repeatCall, hfirst, repeatCall]
      rw [hrun, repeatCall_map CopyGlobalState.opened copyFunc_opened]
      exact ⟨rfl, rfl, rfl, rfl⟩

/-- A copy that cannot be opened copies nothing. -/
theorem asked_of_open_error {message : Bytes}
    (hopen : openCopyCursor registry operators bind = .error message) (n : ℕ) :
    (repeatCall (copyFunc getBasename registry operators bind outcomes size) n
      .initial).state.asked = [] := by
  cases n with
  | zero => rfl
  | succ n =>
      have hfirst : copyFunc getBasename registry operators bind outcomes size .initial =
          (.initial, .error message) := by
        simp only [copyFunc, CopyGlobalState.initial, hopen, Except.map, Bool.false_eq_true,
          if_false]
      rw [repeatCall, hfirst]
      rfl

/-- A cursor over one entry hands it out once. -/
theorem odTableCursorNext_one {c c' : OdTableCursor} {entry : Option (Bytes × Metadata)}
    {row : OwnedRow} (hsource : c.source = .one entry)
    (h : odTableCursorNext getBasename c = (c', .ok (some row))) :
    odTableCursorNext getBasename c' = (c', .ok none) := by
  have hdone : ∀ c : OdTableCursor, c.source = .one none →
      odTableCursorNext getBasename c = (c, .ok none) := by
    intro c hc
    rw [odTableCursorNext, hc]
  rcases entry with _ | ⟨path, metadata⟩
  · rw [hdone c hsource] at h
    cases h
  · simp only [odTableCursorNext, hsource] at h
    split at h
    · cases h
    · split at h
      · cases h
      · cases h
        exact hdone _ rfl

/-- A cursor over entries comes to an end. -/
theorem OdTableCursor.exists_drains (getBasename : Bytes → Bytes) (c : OdTableCursor) :
    ∃ rows out, Drains (odTableCursorNext getBasename) c rows out := by
  cases hsource : c.source with
  | list lister => exact ⟨_, _, c.drains getBasename hsource⟩
  | one entry =>
      rcases hnext : odTableCursorNext getBasename c with ⟨c', e | _ | row⟩
      · exact ⟨_, _, .error hnext⟩
      · exact ⟨_, _, .done hnext⟩
      · exact ⟨_, _, .row hnext (.done (odTableCursorNext_one hsource hnext))⟩

/-- The copies that the calls run. -/
theorem copyFunc_ran {cursor : OdCopyCursor}
    (hopen : openCopyCursor registry operators bind = .ok cursor) (n : ℕ) :
    let all := attempts cursor.plan outcomes
    let run := repeatCall (copyFunc getBasename registry operators bind outcomes size) n .initial
    ∃ k, run.state.ran = copiesRun cursor all k ∧
      run.state.asked = (copiesRun cursor all k).flatMap Prod.snd ∧
      ∀ attempt ∈ all.take (k - 1), ∃ row, Copied getBasename cursor attempt row := by
  intro all run
  have hkeeps := keeps_call ((keeps_next getBasename cursor
    (attempts cursor.plan outcomes)).handOn (throwIfTableError · "copy" bind.target)
    fun row => (rfl : (Except.ok (copyValues row) : Except Bytes CopyValues) = _)) size
  obtain ⟨hran, hasked, -⟩ := repeatCall_copyFunc getBasename outcomes size hopen n
  rw [hran, hasked]
  rcases keeps_repeatCall hkeeps (t := ⟨⟨cursor, outcomes, [], []⟩, false⟩)
    ⟨0, ⟨rfl, rfl⟩, fun a ha => absurd ha (List.not_mem_nil), rfl, fun _ => rfl⟩ n with
    ⟨k, hfirst, hcopied, -⟩ | ⟨k, hfirst, hcopied⟩
  · exact ⟨k, hfirst.ran, hfirst.asked,
      fun a ha => hcopied a (List.take_subset_take_left _ (Nat.sub_le k 1) ha)⟩
  · exact ⟨k + 1, hfirst.ran, hfirst.asked, hcopied⟩

/-- The rows of a copy of which no pair fails. -/
theorem copyFunc_handOut (hsize : 0 < size) {cursor : OdCopyCursor}
    (hopen : openCopyCursor registry operators bind = .ok cursor) {rows : List OwnedCopyRow}
    (hrows : List.Forall₂ (Copied getBasename cursor) (attempts cursor.plan outcomes) rows)
    (n : ℕ) :
    (repeatCall (copyFunc getBasename registry operators bind outcomes size) n
      .initial).HandsOut size (rows.map copyValues) (.ok ()) n := by
  have hdrains := CopyProgress.drains getBasename cursor (attempts cursor.plan outcomes)
    (s := ⟨cursor, outcomes, [], []⟩) rfl fun _ => rfl
  rw [collect_of_forall₂ (hrows.imp fun _ _ => copied_iff.mp)] at hdrains
  obtain ⟨-, -, hchunks, hthrown⟩ := repeatCall_copyFunc getBasename outcomes size hopen n
  exact (handsOut_repeatCall hsize (hdrains.handOn_of_ok fun _ _ => rfl) n).of_eq hchunks hthrown

/-- The rows of a copy are about its pairs. -/
theorem copied_pairs {cursor : OdCopyCursor} {all : List (PlannedCopy × CopyOutcome)}
    {rows : List OwnedCopyRow} (hrows : List.Forall₂ (Copied getBasename cursor) all rows) :
    rows.map (fun row => (row.source, row.destination.path)) =
      (all.map Prod.fst).map fun pair => (pair.source, pair.destination) := by
  induction hrows with
  | nil => rfl
  | cons hrow _ ih =>
      obtain ⟨hsource, hdestination⟩ := hrow.row
      simp only [List.map_cons, ih, hsource, hdestination]

/-- The rows of a rollup, up to the first directory without a URL. -/
theorem duFunc_handOut (hsize : 0 < size) (scheme authority target : Bytes) (cursor : OdDuCursor)
    (n : ℕ) :
    (repeatCall (duFunc scheme authority target size) n ⟨cursor, false⟩).HandsOut size
      (collect (fun row => (duValues scheme authority row).map some) cursor.rows).1
      (collect (fun row => (duValues scheme authority row).map some) cursor.rows).2 n := by
  have hdrains := (drains_du cursor.rows cursor.current).handOn (throwIfTableError · "du" target)
    (duValues scheme authority)
  have hout : ∀ out : Except Bytes Unit, out.bind (fun _ =>
      (Except.ok () : Except OdError Unit).mapError (throwIfTableError · "du" target)) = out := by
    rintro (e | ⟨⟩)
    · rfl
    · rfl
  rw [hout] at hdrains
  exact handsOut_repeatCall hsize hdrains n

/-- **What the table functions hand out**: their cursor's rows, chunk by chunk.  A copy runs
`copy_one` once for each pair of its plan, in order, for none behind one that has failed, and
asks nothing else of OpenDAL. -/
theorem tableFunctions_handOut (hsize : 0 < size) (getBasename : Bytes → Bytes)
    (registry : Registry) (operators : ResolvedUrl → Except Bytes OdOperator) :
    (∀ bind cursor, openCopyCursor registry operators bind = .ok cursor → ∀ outcomes n,
      let all := attempts cursor.plan outcomes
      let run := repeatCall (copyFunc getBasename registry operators bind outcomes size) n .initial
      (∃ k, run.state.ran = copiesRun cursor all k ∧
        run.state.asked = (copiesRun cursor all k).flatMap Prod.snd ∧
        ∀ attempt ∈ all.take (k - 1), ∃ row, Copied getBasename cursor attempt row) ∧
      ∀ rows, List.Forall₂ (Copied getBasename cursor) all rows →
        rows.map (fun row => (row.source, row.destination.path)) =
          cursor.plan.map (fun pair => (pair.source, pair.destination)) ∧
        run.HandsOut size (rows.map copyValues) (.ok ()) n) ∧
    (∀ bind message, openCopyCursor registry operators bind = .error message → ∀ outcomes n,
      (repeatCall (copyFunc getBasename registry operators bind outcomes size) n
        .initial).state.asked = []) ∧
    (∀ target cursor, ∃ rows out, Drains (odTableCursorNext getBasename) cursor rows out ∧
      ∀ n, (repeatCall (entryFunc getBasename target size) n ⟨cursor, false⟩).HandsOut size
        (rows.map entryValues) (out.mapError (throwIfTableError · "scan" target)) n) ∧
    ∀ scheme authority target cursor n,
      let values := collect (fun row => (duValues scheme authority row).map some) cursor.rows
      (repeatCall (duFunc scheme authority target size) n ⟨cursor, false⟩).HandsOut size
        values.1 values.2 n ∧
      ∀ rows, List.Forall₂ (fun row value => duValues scheme authority row = .ok value)
        cursor.rows rows → values = (rows, .ok ()) := by
  refine ⟨fun bind cursor hopen outcomes n => ⟨copyFunc_ran hopen n, fun rows hrows => ?_⟩,
    fun bind message hopen outcomes n => asked_of_open_error hopen n, fun target cursor => ?_,
    fun scheme authority target cursor n => ⟨?_, fun rows hrows => ?_⟩⟩
  · have hpairs := copied_pairs hrows
    rw [map_fst_attempts] at hpairs
    exact ⟨hpairs, copyFunc_handOut hsize hopen hrows n⟩
  · obtain ⟨rows, out, hdrains⟩ := cursor.exists_drains getBasename
    exact ⟨rows, out, hdrains,
      handsOut_repeatCall hsize (hdrains.handOn_of_ok fun _ _ => rfl)⟩
  · exact duFunc_handOut hsize scheme authority target cursor n
  · refine collect_of_forall₂ (hrows.imp fun row value hvalue => ?_)
    rw [hvalue]
    rfl

/-- A copy of one file, of a service without server-side copies. -/
def oneFileBind : CopyBindData where
  source := ascii "memory:///d/"
  destination := ascii "memory:///e/"
  ifMatch := []
  sourceVersion := []
  sourceContentLengthHint := 0
  concurrent := 0
  chunkSize := 0
  ifNotExists := false
  hasSourceContentLengthHint := false
  hasConcurrent := false
  hasChunkSize := false

/-- A plan as long as a vector ends with an empty chunk. -/
theorem tableFunctions_handOut_oneFile :
    ∃ row : OwnedCopyRow, (row.source, row.destination.path) = (ascii "d/a", ascii "e/a") ∧
      (repeatCall (copyFunc (Text.afterLast slash) defaultRegistry (fun _ => .ok (oneFile 3))
        oneFileBind (fun _ => .answers (calmCalls (ascii "abc"))) 1) 2 .initial).HandsOut 1
        [copyValues row] (.ok ()) 2 := by
  have hcopied : ∃ row, Copied (Text.afterLast slash) (oneFileCursor 3)
      (⟨ascii "d/a", ascii "e/a", 3⟩, .answers (calmCalls (ascii "abc"))) row :=
    ⟨⟨3, ascii "d/a", _⟩, by decide, _, copyOne_calm _ _ _ _ 3, rfl, rfl⟩
  obtain ⟨row, hrow⟩ := hcopied
  obtain ⟨hpairs, hhandsOut⟩ := ((tableFunctions_handOut Nat.one_pos (Text.afterLast slash)
    defaultRegistry fun _ => .ok (oneFile 3)).1 oneFileBind (oneFileCursor 3) rfl
    (fun _ => .answers (calmCalls (ascii "abc"))) 2).2 [row] (.cons hrow .nil)
  exact ⟨row, List.head_eq_of_cons_eq hpairs, hhandsOut⟩

end HandOut

end DuckdbOpendal
