import DuckdbOpendal.Opendal

/-!
# The Rust writer

`opendal/src/writer.rs`: an `opendal::Writer` with its terminal state.  The
outcomes of the OpenDAL calls are arguments; a function that makes two calls takes
two.  A failed write or close is followed by an abort, and the state says how that
went; a panic is caught at the boundary and leaves the state as it was.

## Main Results

* `Ending` — the calls that can end a writer, and the state each leaves
* `odWriterWrite_open`, `odWriterClose_open`, `odWriterAbort_open` — what each entry
  point does to an open writer
-/

namespace DuckdbOpendal

/-- `WriterState`. -/
inductive WriterState where
  | Open
  | Closed
  | Aborted
  | Failed
  deriving DecidableEq, Repr

/-- The `{:?}` text of a state. -/
def WriterState.debug : WriterState → Bytes
  | .Open => ascii "Open"
  | .Closed => ascii "Closed"
  | .Aborted => ascii "Aborted"
  | .Failed => ascii "Failed"

/-- `OdWriter`, with the journal of its `opendal::Writer`. -/
structure OdWriter where
  writer : Journal
  state : WriterState
  deriving DecidableEq, Repr

/-- The memory a `const uint8_t *` points into. -/
abbrev Buffer := ℕ → UInt8

/-- `slice::from_raw_parts(data, len).to_vec()`. -/
def Buffer.toVec (data : Buffer) (len : ℕ) : Bytes := (List.range len).map data

@[simp] theorem Buffer.length_toVec (data : Buffer) (len : ℕ) :
    (data.toVec len).length = len := by simp [toVec]

/-- `isize::MAX` on a 64-bit platform. -/
def isizeMax : ℕ := 2 ^ 63 - 1

namespace OdWriter

/-- What `od_writer_open` returns. -/
def opened : OdWriter := ⟨[], .Open⟩

/-- Make one call on the OpenDAL writer. -/
def call (w : OdWriter) (c : WriterCall) : OdWriter := { w with writer := w.writer ++ [c] }

/-- `OdWriter::require_open`. -/
def requireOpen (w : OdWriter) (operation : Bytes) : Except Bytes Unit :=
  if w.state = .Open then .ok ()
  else .error (ascii "cannot " ++ operation ++ ascii " writer in " ++ w.state.debug ++
    ascii " state")

/-- `OdWriter::abort_after_failure`; no message means that the abort panicked. -/
def abortAfterFailure (w : OdWriter) (primary : OpendalError) (abort : Outcome Unit) :
    OdWriter × Option Bytes :=
  let w := w.call (.abort abort)
  match abort with
  | .ok () => ({ w with state := .Aborted }, some primary.text)
  | .err abortError =>
      ({ w with state := .Failed },
        some (primary.text ++ ascii "; abort after failure also failed: " ++ abortError.text))
  | .panic => (w, none)

end OdWriter

/-- The error of a failed call after `abort_after_failure`, under `ffi_guard!`. -/
def failureError (context : String) (primary : OpendalError) : Option Bytes → OdError
  | some message => setError (opendalErrorCode primary) message
  | none => setError .Panic (ascii "panic in " ++ ascii context)

/-- `od_writer_write`. -/
def odWriterWrite (w : OdWriter) (data : Option Buffer) (len : ℕ)
    (write abort : Outcome Unit) : OdWriter × Except OdError Unit :=
  if len = 0 then (w, .ok ())
  else
  match data with
  | none => (w, .error (setError .InvalidInput (ascii "null writer or data")))
  | some data =>
      if isizeMax < len then
        (w, .error (setError .InvalidInput (ascii "write length exceeds slice limit")))
      else
      match w.requireOpen (ascii "write to") with
      | .error message => (w, .error (setError .InvalidInput message))
      | .ok () =>
          let w := w.call (.write (data.toVec len) write)
          match write with
          | .ok () => (w, .ok ())
          | .err e =>
              let aborted := w.abortAfterFailure e abort
              (aborted.1, .error (failureError "od_writer_write" e aborted.2))
          | .panic => (w, .error (setError .Panic (ascii "panic in od_writer_write")))

/-- `od_writer_close`. -/
def odWriterClose (w : OdWriter) (close abort : Outcome Unit) :
    OdWriter × Except OdError Unit :=
  match w.requireOpen (ascii "close") with
  | .error message => (w, .error (setError .InvalidInput message))
  | .ok () =>
      let w := w.call (.close close)
      match close with
      | .ok () => ({ w with state := .Closed }, .ok ())
      | .err e =>
          let aborted := w.abortAfterFailure e abort
          (aborted.1, .error (failureError "od_writer_close" e aborted.2))
      | .panic => (w, .error (setError .Panic (ascii "panic in od_writer_close")))

/-- `od_writer_abort`. -/
def odWriterAbort (w : OdWriter) (abort : Outcome Unit) : OdWriter × Except OdError Unit :=
  match w.requireOpen (ascii "abort") with
  | .error message => (w, .error (setError .InvalidInput message))
  | .ok () =>
      let w := w.call (.abort abort)
      match abort with
      | .ok () => ({ w with state := .Aborted }, .ok ())
      | .err e => ({ w with state := .Failed }, .error (setOpendalError e))
      | .panic => (w, .error (setError .Panic (ascii "panic in od_writer_abort")))

/-! ## How a writer ends -/

/-- The calls that end a writer, and the state they leave.  At most one of them is a
write or close that failed, and it comes first; an abort that was made settles the
state unless it panicked. -/
inductive Ending : WriterState → Journal → Prop where
  | closed : Ending .Closed [.close (.ok ())]
  | aborted (failed : Option WriterCall) (hfailed : ∀ c ∈ failed, c.Fails) :
      Ending .Aborted (failed.toList ++ [.abort (.ok ())])
  | failed (failed : Option WriterCall) (hfailed : ∀ c ∈ failed, c.Fails) (e : OpendalError) :
      Ending .Failed (failed.toList ++ [.abort (.err e)])
  | unsettled (failed : Option WriterCall) (hfailed : ∀ c ∈ failed, c.Fails)
      (aborts : Option (Outcome Unit)) :
      Ending .Open (failed.toList ++ (aborts.map .abort).toList)

namespace Ending

variable {state : WriterState} {tail : Journal}

/-- Nothing has ended the writer yet. -/
theorem untouched : Ending .Open [] := .unsettled none nofun none

/-- An ending is a first call followed by aborts. -/
theorem exists_first (h : Ending state tail) :
    ∃ first : Option WriterCall, ∃ aborts : List (Outcome Unit),
      (∀ c ∈ first, c.Ends) ∧ tail = first.toList ++ aborts.map .abort := by
  have hends : ∀ {failed : Option WriterCall}, (∀ c ∈ failed, c.Fails) →
      ∀ c ∈ failed, c.Ends := by
    intro failed hfailed c hc
    have hfails := hfailed c hc
    cases c with
    | write bytes outcome => exact hfails
    | close outcome => trivial
    | abort outcome => exact hfails
  cases h with
  | closed => exact ⟨some (.close (.ok ())), [], by simp [WriterCall.Ends], rfl⟩
  | aborted failed hfailed => exact ⟨failed, [.ok ()], hends hfailed, rfl⟩
  | failed failed hfailed e => exact ⟨failed, [.err e], hends hfailed, rfl⟩
  | unsettled failed hfailed aborts =>
      refine ⟨failed, aborts.toList, hends hfailed, ?_⟩
      cases aborts <;> rfl

/-- Once a write or close has ended the writer, no write and no close follows. -/
theorem pairwise (h : Ending state tail) (chunks : List Bytes) :
    (Journal.writes chunks ++ tail).Pairwise fun c c' => c.Ends → ¬ c'.Advances := by
  obtain ⟨first, aborts, -, rfl⟩ := h.exists_first
  have haborts : ∀ c ∈ aborts.map WriterCall.abort, ¬ c.Advances := by
    simp [WriterCall.Advances]
  refine List.pairwise_append.mpr ⟨?_, List.pairwise_append.mpr ⟨?_, ?_, ?_⟩, ?_⟩
  · simp only [Journal.writes, List.pairwise_map]
    exact List.pairwise_of_forall fun _ _ hends => absurd rfl hends
  · cases first <;> simp
  · exact List.Pairwise.imp_of_mem (fun _ hc' _ _ => haborts _ hc')
      (List.pairwise_of_forall fun _ _ => trivial)
  · exact fun _ _ c hc _ => haborts c hc
  · intro c hc _ _ hends
    obtain ⟨bytes, -, rfl⟩ := List.mem_map.mp hc
    exact absurd rfl hends

theorem not_fails_close_ok : ¬ (WriterCall.close (.ok ())).Fails := fun h => h rfl

/-- A writer has published its object exactly when it is closed. -/
theorem commits_eq (h : Ending state tail) :
    Journal.commits tail = if state = .Closed then 1 else 0 := by
  have hnone : ∀ {failed : Option WriterCall}, (∀ c ∈ failed, c.Fails) →
      Journal.commits failed.toList = 0 := by
    intro failed hfailed
    refine List.count_eq_zero.mpr fun hmem => ?_
    exact not_fails_close_ok (hfailed _ (by simpa using hmem))
  cases h with
  | closed => rfl
  | aborted failed hfailed => simp [hnone hfailed]
  | failed failed hfailed e => simp [hnone hfailed]
  | unsettled failed hfailed aborts => cases aborts <;> simp [hnone hfailed]

/-- A writer that ended without being closed has seen exactly one abort. -/
theorem aborts_eq (h : Ending state tail) (hopen : state ≠ .Open) :
    Journal.aborts tail = if state = .Closed then 0 else 1 := by
  have hnone : ∀ {failed : Option WriterCall}, (∀ c ∈ failed, c.Fails) →
      Journal.aborts failed.toList = 0 := by
    intro failed hfailed
    refine List.countP_eq_zero.mpr fun c hc habort => ?_
    have hfails := hfailed c (by simpa using hc)
    cases c with
    | abort outcome => exact hfails
    | _ => cases habort
  cases h with
  | closed => rfl
  | aborted failed hfailed => simp [hnone hfailed]
  | failed failed hfailed e => simp [hnone hfailed]
  | unsettled failed hfailed aborts => exact absurd rfl hopen

/-- The object a closed writer has published. -/
theorem committed_eq (h : Ending state tail) (chunks : List Bytes)
    (hcommits : 0 < Journal.commits tail) :
    Journal.committed (Journal.writes chunks ++ tail) = some chunks.flatten := by
  rw [h.commits_eq] at hcommits
  rw [Journal.committed_writes_append]
  cases h with
  | closed => rfl
  | _ => simp at hcommits

end Ending

/-! ## What the entry points do to an open writer -/

/-- A failed call on an open writer: it reports an error and ends the writer without
publishing; when `settled` holds, the writer has left the open state. -/
def FailsWith (calls : Journal) (settled : Prop)
    (result : OdWriter × Except OdError Unit) : Prop :=
  ∃ state tail e, result = (⟨calls ++ tail, state⟩, .error e) ∧ e.code ≠ .Ok ∧
    Ending state tail ∧ state ≠ .Closed ∧ (settled → state ≠ .Open)

namespace FailsWith

variable {calls : Journal} {c : WriterCall}

theorem mono {settled settled' : Prop} {result : OdWriter × Except OdError Unit}
    (h : FailsWith calls settled result) (himp : settled' → settled) :
    FailsWith calls settled' result := by
  obtain ⟨state, tail, e, hresult, hcode, hending, hclosed, hsettled⟩ := h
  exact ⟨state, tail, e, hresult, hcode, hending, hclosed, hsettled ∘ himp⟩

/-- A call rejected before OpenDAL is asked. -/
theorem rejected {code : OdErrorCode} (hcode : code ≠ .Ok) (msg : Bytes) :
    FailsWith calls False (⟨calls, .Open⟩, .error (setError code msg)) :=
  ⟨.Open, [], setError code msg, by rw [List.append_nil], hcode, .untouched, by decide, nofun⟩

/-- A write or close that panicked. -/
theorem panicked (hc : c.Fails) (msg : Bytes) :
    FailsWith calls False (⟨calls ++ [c], .Open⟩, .error (setError .Panic msg)) := by
  refine ⟨.Open, [c], setError .Panic msg, rfl, by simp, ?_, by decide, nofun⟩
  refine .unsettled (some c) ?_ none
  rintro c' ⟨⟩
  exact hc

/-- A write or close that failed, and the abort after it. -/
theorem failed (hc : c.Fails) (context : String) (primary : OpendalError)
    (abort : Outcome Unit) :
    FailsWith calls (abort ≠ .panic)
      ((OdWriter.abortAfterFailure ⟨calls ++ [c], .Open⟩ primary abort).1,
        .error (failureError context primary
          (OdWriter.abortAfterFailure ⟨calls ++ [c], .Open⟩ primary abort).2)) := by
  have hcode : ∀ message, (failureError context primary message).code ≠ .Ok := by
    rintro (_ | message) <;> simp [failureError]
  have hfailed : ∀ c' ∈ some c, c'.Fails := by
    rintro c' ⟨⟩
    exact hc
  cases abort with
  | ok _ =>
      exact ⟨.Aborted, [c, .abort (.ok ())], _,
        by simp [OdWriter.abortAfterFailure, OdWriter.call]; rfl, hcode _,
        .aborted (some c) hfailed, by decide, fun _ => by decide⟩
  | err e =>
      exact ⟨.Failed, [c, .abort (.err e)], _,
        by simp [OdWriter.abortAfterFailure, OdWriter.call]; rfl, hcode _,
        .failed (some c) hfailed e, by decide, fun _ => by decide⟩
  | panic =>
      exact ⟨.Open, [c, .abort .panic], _,
        by simp [OdWriter.abortAfterFailure, OdWriter.call]; rfl, hcode _,
        .unsettled (some c) hfailed (some .panic), by decide, fun h => absurd rfl h⟩

end FailsWith

/-- The chunk a write of `len` bytes adds; an empty write adds none. -/
def chunkOf (data : Option Buffer) (len : ℕ) : List Bytes :=
  match data with
  | some data => if len = 0 then [] else [data.toVec len]
  | none => []

/-- **`od_writer_write` on an open writer** appends the chunk, or ends the
writer. -/
theorem odWriterWrite_open (calls : Journal) (data : Option Buffer) (len : ℕ)
    (write abort : Outcome Unit) :
    odWriterWrite ⟨calls, .Open⟩ data len write abort =
          (⟨calls ++ Journal.writes (chunkOf data len), .Open⟩, .ok ()) ∧
        (chunkOf data len).flatten.length = len ∨
      FailsWith calls
        (data.isSome ∧ len ≤ isizeMax ∧ write ≠ .panic ∧ abort ≠ .panic)
        (odWriterWrite ⟨calls, .Open⟩ data len write abort) := by
  unfold odWriterWrite chunkOf
  by_cases hlen : len = 0
  · left
    cases data <;> simp [hlen, Journal.writes]
  rw [if_neg hlen]
  cases data with
  | none => exact Or.inr ((FailsWith.rejected (by decide) _).mono fun h => absurd h.1 (by simp))
  | some data =>
      by_cases hmax : isizeMax < len
      · simp only [if_pos hmax]
        exact Or.inr ((FailsWith.rejected (by decide) _).mono
          fun h => absurd h.2.1 (Nat.not_le_of_lt hmax))
      · simp only [if_neg hmax, if_neg hlen, OdWriter.requireOpen, if_true, OdWriter.call]
        cases write with
        | ok _ => exact Or.inl ⟨rfl, by simp⟩
        | err e =>
            exact Or.inr ((FailsWith.failed (c := .write _ (.err e)) (by simp [WriterCall.Fails])
              _ e abort).mono fun h => h.2.2.2)
        | panic =>
            exact Or.inr ((FailsWith.panicked (by simp [WriterCall.Fails]) _).mono
              fun h => absurd rfl h.2.2.1)

/-- **`od_writer_close` on an open writer** publishes, or ends the writer. -/
theorem odWriterClose_open (calls : Journal) (close abort : Outcome Unit) :
    odWriterClose ⟨calls, .Open⟩ close abort =
        (⟨calls ++ [.close (.ok ())], .Closed⟩, .ok ()) ∨
      FailsWith calls (close ≠ .panic ∧ abort ≠ .panic)
        (odWriterClose ⟨calls, .Open⟩ close abort) := by
  simp only [odWriterClose, OdWriter.requireOpen, if_true, OdWriter.call]
  cases close with
  | ok _ => exact Or.inl rfl
  | err e =>
      exact Or.inr ((FailsWith.failed (by simp [WriterCall.Fails]) _ e abort).mono
        fun h => h.2)
  | panic =>
      exact Or.inr ((FailsWith.panicked (by simp [WriterCall.Fails]) _).mono
        fun h => absurd rfl h.1)

/-- **`od_writer_abort` on an open writer** ends it without publishing. -/
theorem odWriterAbort_open (calls : Journal) (abort : Outcome Unit) :
    ∃ state, (odWriterAbort ⟨calls, .Open⟩ abort).1 = ⟨calls ++ [.abort abort], state⟩ ∧
      Ending state [.abort abort] ∧ state ≠ .Closed ∧ (abort ≠ .panic → state ≠ .Open) := by
  simp only [odWriterAbort, OdWriter.requireOpen, if_true, OdWriter.call]
  cases abort with
  | ok _ => exact ⟨.Aborted, rfl, .aborted none nofun, by decide, fun _ => by decide⟩
  | err e => exact ⟨.Failed, rfl, .failed none nofun e, by decide, fun _ => by decide⟩
  | panic =>
      exact ⟨.Open, rfl, .unsettled none nofun (some .panic), by decide, fun h => absurd rfl h⟩

end DuckdbOpendal
