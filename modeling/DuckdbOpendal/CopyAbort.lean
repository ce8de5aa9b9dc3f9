import DuckdbOpendal.Copy

/-!
# How a copy fails

Every exit of `copy_one` with an error, read off its trace.  The two loops and the end of
the stream abort what they have begun, exactly once, and close nothing after a failure.
The copier's own `close` is passed on with `?` and aborts nothing; OpenDAL's copier has
driven it before its last step answers that it is done, so that it cannot fail there.

## Main Definitions

* `AbortsTransfers` — a failed copy has aborted the transfer it had begun
* `CopyCalls.ClosesInNext` — what OpenDAL's copier does about its `close`

## Main Results

* `copierLoop_ends`, `streamLoop_ends` — how the two loops end
* `copyOne_aborts_iff` — when a copy aborts what it leaves behind, whatever `close` answers
* `copyOne_aborts` — over OpenDAL's copier it always does
-/

namespace DuckdbOpendal

/-! ## Failures, closes and aborts -/

namespace CopyEvent

/-- A step of a transfer that failed, or an abort. -/
def Stops : CopyEvent → Prop
  | copierNext outcome | copierClose outcome | read _ _ outcome => outcome ≠ .ok ()
  | writerCall call => call.Fails ∨ call.isAbort = true
  | copierAbort _ => True
  | _ => False

/-- A `close` of the copier or of the writer. -/
def Closes : CopyEvent → Prop
  | copierClose _ | writerCall (.close _) => True
  | _ => False

/-- The copier's `abort`. -/
def isCopierAbort : CopyEvent → Bool
  | copierAbort _ => true
  | _ => false

/-- The writer's `abort`. -/
def isWriterAbort : CopyEvent → Bool
  | writerCall call => call.isAbort
  | _ => false

@[simp] theorem not_stops_copier (source destination : Bytes) (options : CopyOptions)
    (outcome : Outcome Unit) : ¬ (copier source destination options outcome).Stops := id

@[simp] theorem not_stops_reader (source : Bytes) (options : ReaderOptions)
    (outcome : Outcome Unit) : ¬ (reader source options outcome).Stops := id

@[simp] theorem not_stops_writer (destination : Bytes) (options : WriteOptions)
    (outcome : Outcome Unit) : ¬ (writer destination options outcome).Stops := id

theorem stops_of_isCopierAbort {e : CopyEvent} (h : e.isCopierAbort = true) : e.Stops := by
  cases e with
  | copierAbort outcome => trivial
  | _ => cases h

theorem stops_of_isWriterAbort {e : CopyEvent} (h : e.isWriterAbort = true) : e.Stops := by
  cases e with
  | writerCall call => exact Or.inr h
  | _ => cases h

end CopyEvent

/-- **Nothing is abandoned**: a copy that fails has aborted the copier or the writer it had
created, exactly once, and nothing is closed after a step that failed. -/
def AbortsTransfers {α : Type} (run : Traced α) : Prop :=
  ((∃ error, run.result = .error error) →
    ((∃ source destination options, .copier source destination options (.ok ()) ∈ run.events) →
      run.events.countP CopyEvent.isCopierAbort = 1) ∧
    ((∃ destination options, .writer destination options (.ok ()) ∈ run.events) →
      run.events.countP CopyEvent.isWriterAbort = 1)) ∧
  run.events.Pairwise fun e e' => e.Stops → ¬ e'.Closes

/-- OpenDAL's `Copier::next` drives the copier's `close`: one that fails is the error of a
step, and after steps that all went well `close` hands on the metadata they left. -/
def CopyCalls.ClosesInNext (calls : CopyCalls) : Prop :=
  (∃ counts : List ℕ, calls.steps = counts.map .ok) →
    ∃ metadata, calls.copierClose = .ok metadata

/-- A loop of calls that closes nothing, and either goes well throughout or ends with one
abort of the given kind. -/
structure EndsInAbort (isAbort : CopyEvent → Bool) {α : Type} (run : Traced α) : Prop where
  closes : ∀ e ∈ run.events, ¬ e.Closes
  begins : ∀ e ∈ run.events,
    (∀ source destination options, e ≠ .copier source destination options (.ok ())) ∧
      ∀ destination options, e ≠ .writer destination options (.ok ())
  stops : ∀ a, run.result = .ok a → ∀ e ∈ run.events, ¬ e.Stops
  aborts : ∀ error, run.result = .error error → run.events.countP isAbort = 1

section Loops

variable (calls : CopyCalls)

/-- **How the loop over the copier ends.** -/
theorem copierLoop_ends (steps : List (Except OpendalError ℕ)) (copied : ℕ) :
    EndsInAbort CopyEvent.isCopierAbort (copierLoop calls steps copied) := by
  induction steps generalizing copied with
  | nil =>
      constructor <;> simp [copierLoop, CopyEvent.Closes, CopyEvent.Stops]
  | cons step steps ih =>
      cases step with
      | error error =>
          constructor <;> simp [copierLoop, CopyEvent.Closes, CopyEvent.isCopierAbort]
      | ok bytes =>
          rw [copierLoop]
          cases checkedAdd copied bytes with
          | none => constructor <;> simp [CopyEvent.Closes, CopyEvent.isCopierAbort]
          | some copied' =>
              obtain ⟨hcloses, hbegins, hstops, haborts⟩ := ih copied'
              refine ⟨?_, ?_, ?_, ?_⟩
              · simpa [CopyEvent.Closes] using hcloses
              · simpa using hbegins
              · simpa [CopyEvent.Stops] using hstops
              · simpa [CopyEvent.isCopierAbort] using haborts

/-- The loop over the copier ends well when every step does and the count fits. -/
theorem copierLoop_ok_iff (steps : List (Except OpendalError ℕ)) {copied : ℕ}
    (hcopied : copied < 2 ^ 64) :
    (∃ n, (copierLoop calls steps copied).result = .ok n) ↔
      ∃ counts : List ℕ, steps = counts.map .ok ∧ copied + counts.sum < 2 ^ 64 := by
  induction steps generalizing copied with
  | nil =>
      constructor
      · exact fun _ => ⟨[], rfl, by simpa using hcopied⟩
      · exact fun _ => ⟨copied, rfl⟩
  | cons step steps ih =>
      cases step with
      | error error =>
          constructor
          · rintro ⟨n, h⟩
            cases h
          · rintro ⟨counts, h, -⟩
            cases counts with
            | nil => cases h
            | cons count counts => cases h
      | ok bytes =>
          rw [copierLoop]
          by_cases hfits : copied + bytes < 2 ^ 64
          · simp only [checkedAdd, if_pos hfits, ih hfits]
            constructor
            · rintro ⟨counts, rfl, hsum⟩
              exact ⟨bytes :: counts, rfl, by simpa [add_assoc] using hsum⟩
            · rintro ⟨counts, h, hsum⟩
              cases counts with
              | nil => cases h
              | cons count counts =>
                  cases h
                  exact ⟨counts, rfl, by simpa [add_assoc] using hsum⟩
          · simp only [checkedAdd, if_neg hfits]
            constructor
            · rintro ⟨n, h⟩
              cases h
            · rintro ⟨counts, h, hsum⟩
              cases counts with
              | nil => cases h
              | cons count counts =>
                  cases h
                  rw [List.sum_cons] at hsum
                  omega

/-- The abort of the writer is one abort, and an error. -/
theorem abortWriter_ends {α : Type} (primary : OpendalError) :
    (∃ outcome, (abortWriter (α := α) calls primary).events = [.writerCall (.abort outcome)]) ∧
      ∃ error, (abortWriter (α := α) calls primary).result = .error error := by
  refine ⟨⟨_, rfl⟩, ?_⟩
  unfold abortWriter
  cases calls.abort with
  | ok _ => exact ⟨_, rfl⟩
  | error _ => exact ⟨_, rfl⟩

/-- The end of the stream closes the writer, and aborts it when that fails. -/
theorem closeWriter_ends (offset : ℕ) :
    (∃ last, (closeWriter calls offset).result = .ok last ∧
      (closeWriter calls offset).events = [.writerCall (.close (.ok ()))]) ∨
    ∃ primary error outcome, (closeWriter calls offset).result = .error error ∧
      (closeWriter calls offset).events =
        [.writerCall (.close (.err primary)), .writerCall (.abort outcome)] := by
  unfold closeWriter
  cases calls.close with
  | ok metadata => exact Or.inl ⟨_, rfl, rfl⟩
  | error primary =>
      obtain ⟨⟨outcome, hevents⟩, error, hresult⟩ :=
        abortWriter_ends calls (α := ℕ × Metadata) primary
      refine Or.inr ⟨primary, error, outcome, hresult, ?_⟩
      simp [Traced.call, outcomeOf, hevents]

/-- **How the loop over the chunks ends.** -/
theorem streamLoop_ends (sourceSize : U64) (chunk : {n : ℕ // 0 < n}) (offset : ℕ) :
    EndsInAbort CopyEvent.isWriterAbort (streamLoop calls sourceSize chunk offset) := by
  induction hrest : sourceSize.val - offset using Nat.strong_induction_on generalizing offset with
  | h rest ih =>
  subst hrest
  rw [streamLoop]
  by_cases hlt : offset < sourceSize.val
  · have hstop := lt_stop chunk hlt
    have hle : min sourceSize.val (saturatingAdd offset chunk.val) ≤ sourceSize.val :=
      Nat.min_le_left _ _
    generalize min sourceSize.val (saturatingAdd offset chunk.val) = stop at hstop hle
    rw [if_pos hlt]
    simp only [Traced.call]
    cases calls.read offset stop with
    | error error =>
        obtain ⟨⟨outcome, hevents⟩, error', hresult⟩ :=
          abortWriter_ends calls (α := ℕ) error
        constructor <;>
          simp [hevents, hresult, CopyEvent.Closes, CopyEvent.isWriterAbort, WriterCall.isAbort]
    | ok buffer =>
        cases calls.write offset with
        | error error =>
            obtain ⟨⟨outcome, hevents⟩, error', hresult⟩ :=
              abortWriter_ends calls (α := ℕ) error
            constructor <;>
              simp [hevents, hresult, CopyEvent.Closes, CopyEvent.isWriterAbort,
                WriterCall.isAbort]
        | ok _ =>
            obtain ⟨hcloses, hbegins, hstops, haborts⟩ :=
              ih (sourceSize.val - stop) (by omega) stop rfl
            refine ⟨?_, ?_, ?_, ?_⟩
            · simpa [CopyEvent.Closes] using hcloses
            · simpa using hbegins
            · simpa [CopyEvent.Stops, outcomeOf, WriterCall.Fails, WriterCall.isAbort] using hstops
            · simpa [CopyEvent.isWriterAbort, WriterCall.isAbort] using haborts
  · rw [if_neg hlt]
    constructor <;> simp [pure]

end Loops

/-! ## The whole copy -/

section Copy

variable (calls : CopyCalls)

theorem EndsInAbort.countP_eq_zero {isAbort : CopyEvent → Bool} {α : Type} {run : Traced α}
    (h : EndsInAbort isAbort run) (hstops : ∀ e, isAbort e = true → e.Stops) {a : α}
    (ha : run.result = .ok a) : run.events.countP isAbort = 0 := by
  refine List.countP_eq_zero.mpr fun e he habort => ?_
  exact h.stops a ha e he (hstops e habort)

/-- Calls that close nothing are never followed by a close. -/
theorem pairwise_of_not_closes {events : List CopyEvent} (h : ∀ e ∈ events, ¬ e.Closes) :
    events.Pairwise fun e e' => e.Stops → ¬ e'.Closes :=
  List.pairwise_of_forall_mem_list fun _ _ e' he' _ => h e' he'

/-- A close at the end of calls that went well follows no failure. -/
theorem pairwise_append_of_ends {isAbort : CopyEvent → Bool} {α : Type} {run : Traced α}
    (h : EndsInAbort isAbort run) {a : α} (ha : run.result = .ok a) {events : List CopyEvent}
    (hevents : events.Pairwise fun e e' => e.Stops → ¬ e'.Closes) :
    (run.events ++ events).Pairwise fun e e' => e.Stops → ¬ e'.Closes := by
  refine List.pairwise_append.mpr ⟨pairwise_of_not_closes h.closes, hevents, ?_⟩
  exact fun e he _ _ hstop => absurd hstop (h.stops a ha e he)

/-- **The server-side half** aborts unless every step goes well and `close` then fails. -/
theorem copyServerSide_aborts_iff (source destination : Bytes) (options : CopyOptions)
    (sourceSize : U64) :
    AbortsTransfers (copyServerSide calls source destination options sourceSize) ↔
      ¬ (calls.copier = .ok () ∧
        (∃ counts : List ℕ, calls.steps = counts.map .ok ∧ counts.sum < 2 ^ 64) ∧
        ∃ error, calls.copierClose = .error error) := by
  have hloop := copierLoop_ends calls calls.steps 0
  have hsteps := copierLoop_ok_iff calls calls.steps (by decide : 0 < 2 ^ 64)
  simp only [Nat.zero_add] at hsteps
  rw [← hsteps]
  cases hcopier : calls.copier with
  | error error =>
      have hrun : copyServerSide calls source destination options sourceSize =
          ⟨[.copier source destination options (.err error)], .error error⟩ := by
        rw [copyServerSide, Traced.bind_of_error (e := error) hcopier, Traced.call, hcopier]
        rfl
      simp [hrun, AbortsTransfers]
  | ok _ =>
      cases hresult : (copierLoop calls calls.steps 0).result with
      | error error =>
          have hrun : copyServerSide calls source destination options sourceSize =
              ⟨.copier source destination options (.ok ()) ::
                (copierLoop calls calls.steps 0).events, .error error⟩ := by
            rw [copyServerSide, Traced.bind_of_ok (a := ()) hcopier,
              Traced.bind_of_error hresult, Traced.call, hcopier]
            rfl
          have hcount := hloop.aborts error hresult
          have hwriter : ∀ d o, .writer d o (.ok ()) ∉ (copierLoop calls calls.steps 0).events :=
            fun d o hmem => (hloop.begins _ hmem).2 d o rfl
          have hpairwise := pairwise_of_not_closes hloop.closes
          simp [hrun, AbortsTransfers, CopyEvent.isCopierAbort, hcount, hwriter, hpairwise]
      | ok copied =>
          cases hclose : calls.copierClose with
          | error error =>
              have hrun : copyServerSide calls source destination options sourceSize =
                  ⟨.copier source destination options (.ok ()) ::
                    ((copierLoop calls calls.steps 0).events ++ [.copierClose (.err error)]),
                    .error error⟩ := by
                rw [copyServerSide, Traced.bind_of_ok (a := ()) hcopier,
                  Traced.bind_of_ok hresult, Traced.bind_of_error (e := error) hclose,
                  Traced.call, Traced.call, hcopier, hclose]
                rfl
              -- The one exit without an abort: the error of `close` is passed on as it is.
              have hcount := hloop.countP_eq_zero
                (fun _ => CopyEvent.stops_of_isCopierAbort) hresult
              constructor
              · intro haborts
                rw [hrun] at haborts
                have hone := (haborts.1 ⟨error, rfl⟩).1 ⟨_, _, _, List.mem_cons_self⟩
                simp [CopyEvent.isCopierAbort, hcount] at hone
              · intro hfails
                exact absurd ⟨rfl, ⟨copied, rfl⟩, error, rfl⟩ hfails
          | ok metadata =>
              have hrun : copyServerSide calls source destination options sourceSize =
                  ⟨.copier source destination options (.ok ()) ::
                    ((copierLoop calls calls.steps 0).events ++ [.copierClose (.ok ())]),
                    .ok (max copied sourceSize.val, metadata)⟩ := by
                rw [copyServerSide, Traced.bind_of_ok (a := ()) hcopier,
                  Traced.bind_of_ok hresult, Traced.bind_of_ok (a := metadata) hclose,
                  Traced.call, Traced.call, hcopier, hclose]
                rfl
              have hpairwise := pairwise_append_of_ends hloop hresult
                (List.pairwise_singleton _ (CopyEvent.copierClose (.ok ())))
              simp [hrun, AbortsTransfers, hpairwise]

/-- **The streaming half** always aborts. -/
theorem copyStream_aborts (source destination : Bytes) (options : CopyOptions)
    (sourceSize : U64) :
    AbortsTransfers (copyStream calls source destination options sourceSize) := by
  have hloop := streamLoop_ends calls sourceSize (options.chunk.getD defaultChunk) 0
  have hpairwise := pairwise_of_not_closes hloop.closes
  have hcopier : ∀ s d o, .copier s d o (.ok ()) ∉
      (streamLoop calls sourceSize (options.chunk.getD defaultChunk) 0).events :=
    fun s d o hmem => (hloop.begins _ hmem).1 s d o rfl
  unfold copyStream
  generalize streamLoop calls sourceSize (options.chunk.getD defaultChunk) 0 = loop
    at hloop hpairwise hcopier ⊢
  cases hreader : calls.reader with
  | error error =>
      -- Nothing has been created yet.
      rw [Traced.bind_of_error (e := error) rfl]
      simp [AbortsTransfers, Traced.call]
  | ok _ =>
      rw [Traced.bind_of_ok (a := ()) rfl]
      cases hwriter : calls.writer with
      | error error =>
          -- A reader needs no abort.
          rw [Traced.bind_of_error (e := error) rfl]
          simp [AbortsTransfers, Traced.call, outcomeOf]
      | ok _ =>
          rw [Traced.bind_of_ok (a := ()) rfl]
          cases hresult : loop.result with
          | error error =>
              have hcount := hloop.aborts error hresult
              rw [Traced.bind_of_error hresult]
              simp [AbortsTransfers, Traced.call, hcopier, CopyEvent.isWriterAbort, hcount,
                hpairwise]
          | ok offset =>
              have hcount := hloop.countP_eq_zero
                (fun _ => CopyEvent.stops_of_isWriterAbort) hresult
              rw [Traced.bind_of_ok hresult]
              rcases closeWriter_ends calls offset with
                ⟨last, hlast, hevents⟩ | ⟨primary, error, outcome, hlast, hevents⟩
              · have hpairwise := pairwise_append_of_ends hloop hresult
                  (List.pairwise_singleton _ (CopyEvent.writerCall (.close (.ok ()))))
                simp [AbortsTransfers, Traced.call, hlast, hevents, hpairwise]
              · -- The writer that cannot be closed is aborted behind its `close`.
                have hend : [CopyEvent.writerCall (.close (.err primary)),
                    .writerCall (.abort outcome)].Pairwise fun e e' => e.Stops → ¬ e'.Closes := by
                  simp [CopyEvent.Closes]
                have hpairwise := pairwise_append_of_ends hloop hresult hend
                simp [AbortsTransfers, Traced.call, hlast, hevents, hpairwise, hcopier,
                  CopyEvent.isWriterAbort, WriterCall.isAbort, hcount]

/-- The last `stat` cannot fail the copy, and neither stops nor closes anything. -/
theorem copyOne_aborts_transfer (source destination : Bytes) (options : CopyOptions)
    (sameOpCopy : Bool) (sourceSize : U64) :
    AbortsTransfers (copyOne calls source destination options sameOpCopy sourceSize) ↔
      AbortsTransfers (transfer calls source destination options sameOpCopy sourceSize) := by
  unfold copyOne
  cases hresult : (transfer calls source destination options sameOpCopy sourceSize).result with
  | error error =>
      rw [Traced.bind_of_error hresult, ← hresult]
  | ok transferred =>
      rw [Traced.bind_of_ok hresult]
      obtain ⟨outcome, last, hevents, hlast⟩ : ∃ outcome last,
          (destinationMetadata calls destination transferred).events =
              [.stat destination outcome] ∧
            (destinationMetadata calls destination transferred).result = .ok last := by
        unfold destinationMetadata
        cases calls.stat with
        | ok metadata => exact ⟨_, _, rfl, rfl⟩
        | error error => exact ⟨_, _, rfl, rfl⟩
      simp [AbortsTransfers, hresult, hevents, hlast, List.pairwise_append, CopyEvent.Closes]

/-- **When a copy aborts what it leaves behind**: unless it runs through the service's
copier, all steps of the copier succeed without an overflow of the count, and the
copier's `close` then fails. -/
theorem copyOne_aborts_iff (source destination : Bytes) (options : CopyOptions)
    (sameOpCopy : Bool) (sourceSize : U64) :
    AbortsTransfers (copyOne calls source destination options sameOpCopy sourceSize) ↔
      ¬ (sameOpCopy = true ∧ calls.copier = .ok () ∧
        (∃ counts : List ℕ, calls.steps = counts.map .ok ∧ counts.sum < 2 ^ 64) ∧
        ∃ error, calls.copierClose = .error error) := by
  rw [copyOne_aborts_transfer, transfer]
  cases sameOpCopy with
  | true =>
      rw [if_pos rfl, copyServerSide_aborts_iff]
      simp only [true_and]
  | false =>
      rw [if_neg Bool.false_ne_true]
      simp [copyStream_aborts]

/-- **A copy aborts what it leaves behind**: one that returns an error has aborted the copier
or the writer it had created, exactly once, and closes nothing after a failed step. -/
theorem copyOne_aborts (hclose : calls.ClosesInNext) (source destination : Bytes)
    (options : CopyOptions) (sameOpCopy : Bool) (sourceSize : U64) :
    AbortsTransfers (copyOne calls source destination options sameOpCopy sourceSize) := by
  rw [copyOne_aborts_iff]
  rintro ⟨-, -, ⟨counts, hsteps, -⟩, error, hfails⟩
  obtain ⟨metadata, hcloses⟩ := hclose ⟨counts, hsteps⟩
  rw [hcloses] at hfails
  cases hfails

/-- A copier that moves three bytes and then fails to complete: the failed `close` is the
error of its second step, and the copier is aborted once. -/
theorem copyOne_aborts_completion :
    let error : OpendalError := ⟨.Unexpected, ascii "completion failed"⟩
    let calls := { calmCalls [] with steps := [.ok 3, .error error], copierClose := .error error }
    let run := copyOne calls (ascii "a") (ascii "b") ⟨false, none, none, none, 0, none⟩ true 3
    (∃ error, run.result = .error error) ∧
      run.events.countP CopyEvent.isCopierAbort = 1 ∧ AbortsTransfers run := by
  refine ⟨⟨_, rfl⟩, rfl, copyOne_aborts _ ?_ _ _ _ _ _⟩
  rintro ⟨counts, hsteps⟩
  rcases counts with - | ⟨count, - | ⟨count', counts⟩⟩ <;> cases hsteps

end Copy

end DuckdbOpendal
