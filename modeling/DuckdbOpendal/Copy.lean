import DuckdbOpendal.CopyPlan
import DuckdbOpendal.Du
import DuckdbOpendal.Lib.Mealy

/-!
# Copying one object

`copy_one` and `od_copy_cursor_next` of `opendal/src/table.rs`: the cursor works off its
plan one pair a call, through the service's own copier or through a reader and a writer
in bounded chunks.  What OpenDAL answers is an input; what was asked of it, with the
outcomes, is recorded as a list of events.

The size that bounds the stream is the planned one, so a copy is whole exactly when the
listing told the truth about the size (`copyScan_content_iff`).

## Main Definitions

* `CopyCalls` — OpenDAL's side of one copy
* `Traced` — a computation that records what it asks of OpenDAL
* `copyOne` — one copy
* `odCopyCursorNext` — the next row

## Main Results

* `streamLoop_spec`, `copyOne_stream_iff` — what a streamed copy publishes
* `copyScan_content_iff` — when the copies of a scan are whole
-/

namespace DuckdbOpendal

/-! ## What a copy asks of OpenDAL -/

/-- `opendal::options::ReaderOptions`. -/
structure ReaderOptions where
  version : Option Bytes
  contentLengthHint : Option U64
  concurrent : ℕ
  chunk : Option {n : ℕ // 0 < n}
  deriving DecidableEq, Repr

/-- `opendal::options::WriteOptions`. -/
structure WriteOptions where
  ifNotExists : Bool
  ifMatch : Option Bytes
  concurrent : ℕ
  chunk : Option {n : ℕ // 0 < n}
  deriving DecidableEq, Repr

/-- Whether a call succeeded. -/
def outcomeOf {α : Type} : Except OpendalError α → Outcome Unit
  | .ok _ => .ok ()
  | .error e => .err e

/-- A call made during a copy: the copier and the reader on the source operator, the
writer and the last `stat` on the destination operator. -/
inductive CopyEvent where
  | copier (source destination : Bytes) (options : CopyOptions) (outcome : Outcome Unit)
  | copierNext (outcome : Outcome Unit)
  | copierClose (outcome : Outcome Unit)
  | copierAbort (outcome : Outcome Unit)
  | reader (source : Bytes) (options : ReaderOptions) (outcome : Outcome Unit)
  | writer (destination : Bytes) (options : WriteOptions) (outcome : Outcome Unit)
  | read (start stop : ℕ) (outcome : Outcome Unit)
  | writerCall (call : WriterCall)
  | stat (destination : Bytes) (outcome : Outcome Unit)
  deriving DecidableEq, Repr

/-- The calls made on the writer. -/
def writerCalls (events : List CopyEvent) : Journal :=
  events.filterMap fun
    | .writerCall call => some call
    | _ => none

@[simp] theorem writerCalls_append (events events' : List CopyEvent) :
    writerCalls (events ++ events') = writerCalls events ++ writerCalls events' :=
  List.filterMap_append

/-- OpenDAL's side of one copy: what each call answers, and how it words the errors the
copy makes itself.  `steps` are the answers of the copier until it is done; a write
answers by the offset of its range. -/
structure CopyCalls where
  copier : Except OpendalError Unit
  steps : List (Except OpendalError ℕ)
  copierClose : Except OpendalError Metadata
  copierAbort : Except OpendalError Unit
  reader : Except OpendalError Unit
  writer : Except OpendalError Unit
  read : ℕ → ℕ → Except OpendalError Bytes
  write : ℕ → Except OpendalError Unit
  close : Except OpendalError Metadata
  abort : Except OpendalError Unit
  stat : Except OpendalError Metadata
  newError : ErrorKind → Bytes → OpendalError
  withContext : OpendalError → Bytes → Bytes → OpendalError

/-- **A read of a range inside the object returns exactly that range.** -/
def CopyCalls.Reads (calls : CopyCalls) (content : Bytes) : Prop :=
  ∀ start stop bytes, start ≤ stop → stop ≤ content.length →
    calls.read start stop = .ok bytes → bytes = (content.take stop).drop start

/-- A computation that records what it asks of OpenDAL. -/
structure Traced (α : Type) where
  events : List CopyEvent
  result : Except OpendalError α

namespace Traced

/-- One call. -/
def call {α : Type} (event : Outcome Unit → CopyEvent) (answer : Except OpendalError α) :
    Traced α := ⟨[event (outcomeOf answer)], answer⟩

instance : Monad Traced where
  pure a := ⟨[], .ok a⟩
  bind x f :=
    match x.result with
    | .ok a => ⟨x.events ++ (f a).events, (f a).result⟩
    | .error e => ⟨x.events, .error e⟩

/-- A recorded sequence succeeds when both parts do, and records them in order. -/
theorem bind_result_eq_ok {α β : Type} {x : Traced α} {f : α → Traced β} {b : β} :
    (x >>= f).result = .ok b ↔
      ∃ a, x.result = .ok a ∧ (f a).result = .ok b ∧
        (x >>= f).events = x.events ++ (f a).events := by
  obtain ⟨events, result⟩ := x
  cases result with
  | error e => simp [bind]
  | ok a => simp [bind]

theorem bind_of_ok {α β : Type} {x : Traced α} {f : α → Traced β} {a : α}
    (h : x.result = .ok a) : x >>= f = ⟨x.events ++ (f a).events, (f a).result⟩ := by
  obtain ⟨events, result⟩ := x
  subst h
  rfl

theorem bind_of_error {α β : Type} {x : Traced α} {f : α → Traced β} {e : OpendalError}
    (h : x.result = .error e) : x >>= f = ⟨x.events, .error e⟩ := by
  obtain ⟨events, result⟩ := x
  subst h
  rfl

theorem bind_result_of_ok {α β : Type} {x : Traced α} {f : α → Traced β} {a : α}
    (h : x.result = .ok a) : (x >>= f).result = (f a).result := by
  rw [bind_of_ok h]

end Traced

/-! ## One copy -/

/-- `u64::saturating_add`. -/
def saturatingAdd (a b : ℕ) : ℕ := min (2 ^ 64 - 1) (a + b)

section CopyOne

variable (calls : CopyCalls)

/-- `abort_writer`. -/
def abortWriter {α : Type} (primary : OpendalError) : Traced α :=
  ⟨[.writerCall (.abort (outcomeOf calls.abort))],
    match calls.abort with
    | .ok () => .error primary
    | .error abort => .error (calls.withContext primary (ascii "abort_error") abort.text)⟩

/-- The loop over the copier. -/
def copierLoop : List (Except OpendalError ℕ) → ℕ → Traced ℕ
  | [], copied => ⟨[.copierNext (.ok ())], .ok copied⟩
  | .ok bytes :: steps, copied =>
      match checkedAdd copied bytes with
      | none =>
          ⟨[.copierNext (.ok ()), .copierAbort (outcomeOf calls.copierAbort)],
            .error (calls.newError .Unexpected (ascii "copy byte count overflow"))⟩
      | some copied =>
          let rest := copierLoop steps copied
          ⟨.copierNext (.ok ()) :: rest.events, rest.result⟩
  | .error error :: _, _ =>
      ⟨[.copierNext (.err error), .copierAbort (outcomeOf calls.copierAbort)], .error error⟩

/-- The loop over the chunks: read a range, write it, abort the writer on a failure. -/
def streamLoop (sourceSize : U64) (chunk : {n : ℕ // 0 < n}) (offset : ℕ) : Traced ℕ :=
  if offset < sourceSize.val then
    let stop := min sourceSize.val (saturatingAdd offset chunk.val)
    let read := Traced.call (.read offset stop) (calls.read offset stop)
    match read.result with
    | .error error =>
        let abort := abortWriter calls error
        ⟨read.events ++ abort.events, abort.result⟩
    | .ok buffer =>
        let write := Traced.call (fun outcome => .writerCall (.write buffer outcome))
          (calls.write offset)
        match write.result with
        | .error error =>
            let abort := abortWriter calls error
            ⟨read.events ++ write.events ++ abort.events, abort.result⟩
        | .ok () =>
            let rest := streamLoop sourceSize chunk stop
            ⟨read.events ++ write.events ++ rest.events, rest.result⟩
  else pure offset
  termination_by sourceSize.val - offset
  decreasing_by
    have := sourceSize.isLt
    have := chunk.property
    simp only [saturatingAdd]
    omega

/-- The end of the stream: close the writer, or abort it. -/
def closeWriter (offset : ℕ) : Traced (ℕ × Metadata) :=
  let close := Traced.call (fun outcome => .writerCall (.close outcome)) calls.close
  match close.result with
  | .ok metadata => ⟨close.events, .ok (offset, metadata)⟩
  | .error error =>
      let abort := abortWriter calls error
      ⟨close.events ++ abort.events, abort.result⟩

/-- The server-side half of `copy_one`. -/
def copyServerSide (source destination : Bytes) (options : CopyOptions) (sourceSize : U64) :
    Traced (ℕ × Metadata) := do
  Traced.call (.copier source destination options) calls.copier
  let copied ← copierLoop calls calls.steps 0
  let metadata ← Traced.call .copierClose calls.copierClose
  return (max copied sourceSize.val, metadata)

/-- The default chunk, 8 MiB. -/
def defaultChunk : {n : ℕ // 0 < n} := ⟨8 * 1024 * 1024, by decide⟩

/-- The Reader->Writer half of `copy_one`. -/
def copyStream (source destination : Bytes) (options : CopyOptions) (sourceSize : U64) :
    Traced (ℕ × Metadata) := do
  Traced.call (.reader source
    { version := options.sourceVersion
      contentLengthHint := some sourceSize
      concurrent := if options.concurrent = 0 then 1 else options.concurrent
      chunk := options.chunk }) calls.reader
  Traced.call (.writer destination
    { ifNotExists := options.ifNotExists
      ifMatch := options.ifMatch
      concurrent := options.concurrent
      chunk := options.chunk }) calls.writer
  let offset ← streamLoop calls sourceSize (options.chunk.getD defaultChunk) 0
  closeWriter calls offset

/-- The two halves of `copy_one`. -/
def transfer (source destination : Bytes) (baseOptions : CopyOptions) (sameOpCopy : Bool)
    (sourceSize : U64) : Traced (ℕ × Metadata) :=
  let options := { baseOptions with sourceContentLengthHint := some sourceSize }
  if sameOpCopy then copyServerSide calls source destination options sourceSize
  else copyStream calls source destination options sourceSize

/-- The end of `copy_one`: the copy is committed, so a failing `stat` does not fail it. -/
def destinationMetadata (destination : Bytes) (transferred : ℕ × Metadata) :
    Traced (ℕ × Metadata) :=
  let stat := Traced.call (.stat destination) calls.stat
  match stat.result with
  | .ok metadata => ⟨stat.events, .ok (transferred.1, metadata)⟩
  | .error _ => ⟨stat.events, .ok transferred⟩

/-- `copy_one`: the bytes copied and the metadata of the destination. -/
def copyOne (source destination : Bytes) (baseOptions : CopyOptions) (sameOpCopy : Bool)
    (sourceSize : U64) : Traced (ℕ × Metadata) := do
  let transferred ← transfer calls source destination baseOptions sameOpCopy sourceSize
  destinationMetadata calls destination transferred

end CopyOne

/-! ## The cursor -/

/-- `od_copy_cursor_next`: the calls it makes, and a row, the end, or an error. -/
def odCopyCursorNext (getBasename : Bytes → Bytes) (c : OdCopyCursor) (calls : CopyCalls) :
    OdCopyCursor × List CopyEvent × Except OdError (Option OwnedCopyRow) :=
  match c.plan with
  | [] => (c, [], .ok none)
  | p :: plan =>
      let c := { c with plan := plan }
      let copy := copyOne calls p.source p.destination c.options c.sameOpCopy p.size
      match copy.result with
      | .error error => (c, copy.events, .error (setOpendalError error))
      | .ok (bytesCopied, metadata) =>
          match cstring p.source "copy source" with
          | .error message => (c, copy.events, .error (setError .Unexpected message))
          | .ok source =>
              match OwnedRow.fromParts getBasename p.destination metadata with
              | .error message => (c, copy.events, .error (setError .Unexpected message))
              | .ok destination =>
                  let row := ⟨bytesCopied, source, destination⟩
                  ({ c with current := some row }, copy.events, .ok (some row))

/-! ## What a streamed copy publishes -/

section Stream

variable {calls : CopyCalls}

/-- One round of the loop moves the offset forward, within the planned size. -/
theorem lt_stop {sourceSize : U64} (chunk : {n : ℕ // 0 < n}) {offset : ℕ}
    (h : offset < sourceSize.val) :
    offset < min sourceSize.val (saturatingAdd offset chunk.val) := by
  have := sourceSize.isLt
  have := chunk.property
  simp only [saturatingAdd]
  omega

/-- **The loop over the chunks**: when it ends well, it has written, in order, ranges that
make up the planned part of the object. -/
theorem streamLoop_spec {sourceSize : U64} {chunk : {n : ℕ // 0 < n}} {offset n : ℕ}
    (hoffset : offset ≤ sourceSize.val)
    (h : (streamLoop calls sourceSize chunk offset).result = .ok n) :
    n = sourceSize.val ∧ ∃ chunks,
      writerCalls (streamLoop calls sourceSize chunk offset).events = Journal.writes chunks ∧
      ∀ content, calls.Reads content → sourceSize.val ≤ content.length →
        chunks.flatten = (content.take sourceSize.val).drop offset := by
  -- By induction on what is left to copy; every round takes a non-empty range off it.
  induction hrest : sourceSize.val - offset using Nat.strong_induction_on generalizing offset with
  | h rest ih =>
  subst hrest
  rw [streamLoop] at h ⊢
  by_cases hlt : offset < sourceSize.val
  · have hstop := lt_stop chunk hlt
    have hle : min sourceSize.val (saturatingAdd offset chunk.val) ≤ sourceSize.val :=
      Nat.min_le_left _ _
    generalize min sourceSize.val (saturatingAdd offset chunk.val) = stop at hstop hle h ih ⊢
    rw [if_pos hlt] at h ⊢
    simp only [Traced.call] at h ⊢
    cases hread : calls.read offset stop with
    | error error =>
        simp only [hread, abortWriter] at h
        split at h <;> cases h
    | ok buffer =>
        simp only [hread] at h ⊢
        cases hwrite : calls.write offset with
        | error error =>
            simp only [hwrite, abortWriter] at h
            split at h <;> cases h
        | ok _ =>
            simp only [hwrite] at h ⊢
            obtain ⟨hn, chunks, hjournal, hcontent⟩ := ih _ (by omega) hle h rfl
            refine ⟨hn, buffer :: chunks, ?_, fun content hreads hlen => ?_⟩
            · simp only [writerCalls_append, hjournal]
              rfl
            · rw [List.flatten_cons, hcontent content hreads hlen,
                hreads offset stop buffer hstop.le (hle.trans hlen) hread]
              exact Text.slice_append_slice hstop.le hle content
  · rw [if_neg hlt] at h ⊢
    cases h
    refine ⟨by omega, [], rfl, fun content _ _ => ?_⟩
    rw [List.flatten_nil, List.drop_eq_nil_of_le]
    rw [List.length_take]
    omega

theorem closeWriter_spec {offset bytesCopied : ℕ} {metadata : Metadata}
    (h : (closeWriter calls offset).result = .ok (bytesCopied, metadata)) :
    bytesCopied = offset ∧
      (closeWriter calls offset).events = [.writerCall (.close (.ok ()))] := by
  simp only [closeWriter, Traced.call] at h ⊢
  cases hclose : calls.close with
  | error error =>
      simp only [hclose, abortWriter] at h
      split at h <;> cases h
  | ok closed =>
      simp only [hclose] at h
      cases h
      exact ⟨rfl, rfl⟩

/-- **A streamed copy that succeeds** reports the planned size and publishes the planned
part of the object. -/
theorem copyStream_spec {source destination : Bytes} {options : CopyOptions} {sourceSize : U64}
    {bytesCopied : ℕ} {metadata : Metadata}
    (h : (copyStream calls source destination options sourceSize).result =
      .ok (bytesCopied, metadata)) :
    bytesCopied = sourceSize.val ∧ ∃ written,
      Journal.committed
        (writerCalls (copyStream calls source destination options sourceSize).events) =
          some written ∧
      ∀ content, calls.Reads content → sourceSize.val ≤ content.length →
        written = content.take sourceSize.val := by
  obtain ⟨-, hreader, h, hevents⟩ := Traced.bind_result_eq_ok.mp h
  obtain ⟨-, hwriter, h, hevents'⟩ := Traced.bind_result_eq_ok.mp h
  obtain ⟨offset, hloop, h, hevents''⟩ := Traced.bind_result_eq_ok.mp h
  obtain ⟨hoffset, chunks, hjournal, hcontent⟩ := streamLoop_spec (Nat.zero_le _) hloop
  obtain ⟨hbytes, hclose⟩ := closeWriter_spec h
  refine ⟨hbytes.trans hoffset, chunks.flatten, ?_, fun content hreads hlen => ?_⟩
  · have hcalls : writerCalls (copyStream calls source destination options sourceSize).events =
        Journal.writes chunks ++ [.close (.ok ())] := by
      rw [copyStream, hevents, hevents', hevents'', hclose]
      simp only [writerCalls_append, hjournal]
      rfl
    rw [hcalls, Journal.committed_writes_append]
    rfl
  · rw [hcontent content hreads hlen, List.drop_zero]

/-- A copy succeeds when its transfer does, with the same byte count; the last `stat` makes
no call on the writer. -/
theorem copyOne_ok {source destination : Bytes} {options : CopyOptions} {sameOpCopy : Bool}
    {sourceSize : U64} {bytesCopied : ℕ} {metadata : Metadata}
    (h : (copyOne calls source destination options sameOpCopy sourceSize).result =
      .ok (bytesCopied, metadata)) :
    ∃ copied completion,
      (transfer calls source destination options sameOpCopy sourceSize).result =
        .ok (copied, completion) ∧ bytesCopied = copied ∧
      writerCalls (copyOne calls source destination options sameOpCopy sourceSize).events =
        writerCalls (transfer calls source destination options sameOpCopy sourceSize).events := by
  obtain ⟨⟨copied, completion⟩, htransfer, h, hevents⟩ := Traced.bind_result_eq_ok.mp h
  refine ⟨copied, completion, htransfer, ?_⟩
  rw [copyOne, hevents, writerCalls_append]
  simp only [destinationMetadata, Traced.call] at h ⊢
  cases hstat : calls.stat with
  | error error =>
      simp only [hstat] at h
      cases h
      exact ⟨rfl, List.append_nil _⟩
  | ok stat =>
      simp only [hstat] at h
      cases h
      exact ⟨rfl, List.append_nil _⟩

/-- **A streamed copy of one object is whole** exactly when the planned size is the length
of the object. -/
theorem copyOne_stream_iff {source destination : Bytes} {options : CopyOptions}
    {sourceSize : U64} {bytesCopied : ℕ} {metadata : Metadata}
    (h : (copyOne calls source destination options false sourceSize).result =
      .ok (bytesCopied, metadata)) {content : Bytes} (hreads : calls.Reads content) :
    (Journal.committed
        (writerCalls (copyOne calls source destination options false sourceSize).events) =
          some content ∧ bytesCopied = content.length) ↔ sourceSize.val = content.length := by
  obtain ⟨copied, metadata', htransfer, hbytes, hcalls⟩ := copyOne_ok h
  obtain ⟨hcopied, written, hwritten, hcontent⟩ := copyStream_spec htransfer
  rw [hcalls, hbytes]
  simp only [transfer, Bool.false_eq_true, if_false]
  rw [hwritten, hcopied]
  constructor
  · rintro ⟨-, hlen⟩
    exact hlen
  · intro hlen
    refine ⟨?_, hlen⟩
    rw [hcontent content hreads hlen.le, hlen, List.take_length]

end Stream

/-! ## What a scan copies -/

section Scan

variable {getBasename : Bytes → Bytes} {c : OdCopyCursor} {calls : CopyCalls}

variable (getBasename) in
/-- Each call takes one pair off the plan and leaves the rest of the cursor's copy as it
was opened. -/
theorem odCopyCursorNext_frame (c : OdCopyCursor) (calls : CopyCalls) :
    (odCopyCursorNext getBasename c calls).1.plan = c.plan.tail ∧
      (odCopyCursorNext getBasename c calls).1.options = c.options ∧
      (odCopyCursorNext getBasename c calls).1.sameOpCopy = c.sameOpCopy := by
  unfold odCopyCursorNext
  cases hplan : c.plan with
  | nil => exact ⟨hplan, rfl, rfl⟩
  | cons p plan =>
      simp only [List.tail_cons]
      split
      · exact ⟨rfl, rfl, rfl⟩
      · split
        · exact ⟨rfl, rfl, rfl⟩
        · split
          · exact ⟨rfl, rfl, rfl⟩
          · exact ⟨rfl, rfl, rfl⟩

/-- A scan ends when the plan is used up. -/
theorem plan_eq_nil_of_done (h : (odCopyCursorNext getBasename c calls).2.2 = .ok none) :
    c.plan = [] := by
  cases hplan : c.plan with
  | nil => rfl
  | cons p plan =>
      simp only [odCopyCursorNext, hplan] at h
      split at h
      · cases h
      · split at h
        · cases h
        · split at h
          · cases h
          · cases h

/-- A row reports a copy of the first pair of the plan. -/
theorem odCopyCursorNext_row {row : OwnedCopyRow}
    (h : (odCopyCursorNext getBasename c calls).2.2 = .ok (some row)) :
    ∃ p plan metadata, c.plan = p :: plan ∧ row.source = p.source ∧
      row.destination.path = p.destination ∧
      (copyOne calls p.source p.destination c.options c.sameOpCopy p.size).result =
        .ok (row.bytesCopied, metadata) ∧
      (odCopyCursorNext getBasename c calls).2.1 =
        (copyOne calls p.source p.destination c.options c.sameOpCopy p.size).events := by
  unfold odCopyCursorNext at h ⊢
  cases hplan : c.plan with
  | nil => simp [hplan] at h
  | cons p plan =>
      simp only [hplan] at h ⊢
      split at h
      · cases h
      · rename_i bytesCopied metadata hcopy
        split at h
        · cases h
        · rename_i source hsource
          split at h
          · cases h
          · rename_i destination hdestination
            cases h
            refine ⟨p, plan, metadata, rfl, (eq_of_cstring hsource).1,
              OwnedRow.fromParts_path hdestination, hcopy, ?_⟩
            simp only

/-- A copy that succeeds is reported when its paths and metadata are C strings. -/
theorem odCopyCursorNext_of_ok {p : PlannedCopy} {plan : List PlannedCopy} {bytesCopied : ℕ}
    {metadata : Metadata} {destination : OwnedRow} (hplan : c.plan = p :: plan)
    (hcopy : (copyOne calls p.source p.destination c.options c.sameOpCopy p.size).result =
      .ok (bytesCopied, metadata)) (hsource : 0 ∉ p.source)
    (hdestination : OwnedRow.fromParts getBasename p.destination metadata = .ok destination) :
    odCopyCursorNext getBasename c calls =
      ({ c with plan := plan, current := some ⟨bytesCopied, p.source, destination⟩ },
        (copyOne calls p.source p.destination c.options c.sameOpCopy p.size).events,
        .ok (some ⟨bytesCopied, p.source, destination⟩)) := by
  simp only [odCopyCursorNext, hplan, hcopy, cstring_eq hsource, hdestination]

/-- **The rows of a scan** report copies of the pairs of the plan, in order. -/
theorem answers_copy {inputs : List CopyCalls} {i : ℕ} {events : List CopyEvent}
    {row : OwnedCopyRow}
    (h : (Mealy.answers (odCopyCursorNext getBasename) c inputs)[i]? =
      some (events, .ok (some row))) :
    ∃ p calls metadata, c.plan[i]? = some p ∧ inputs[i]? = some calls ∧
      row.source = p.source ∧ row.destination.path = p.destination ∧
      (copyOne calls p.source p.destination c.options c.sameOpCopy p.size).result =
        .ok (row.bytesCopied, metadata) ∧
      events = (copyOne calls p.source p.destination c.options c.sameOpCopy p.size).events := by
  induction inputs generalizing c i with
  | nil => simp at h
  | cons calls inputs ih =>
      cases i with
      | zero =>
          have hfirst : (odCopyCursorNext getBasename c calls).2 = (events, .ok (some row)) := by
            simpa using h
          obtain ⟨p, plan, metadata, hplan, hsource, hdestination, hcopy, hevents⟩ :=
            odCopyCursorNext_row (congrArg Prod.snd hfirst)
          exact ⟨p, calls, metadata, by simp [hplan], rfl, hsource, hdestination, hcopy,
            (congrArg Prod.fst hfirst).symm.trans hevents⟩
      | succ i =>
          -- The first call has taken its own pair and left the rest of the cursor.
          obtain ⟨hplan, hoptions, hsame⟩ := odCopyCursorNext_frame getBasename
            c calls
          have hrest := ih (c := (odCopyCursorNext getBasename c calls).1) (i := i)
            (by simpa using h)
          rw [hplan, hoptions, hsame, List.getElem?_tail] at hrest
          simpa using hrest

end Scan

/-- The copy left the destination with this content, and the row reports its length. -/
def CopiedWhole (events : List CopyEvent) (row : OwnedCopyRow) (content : Bytes) : Prop :=
  Journal.committed (writerCalls events) = some content ∧ row.bytesCopied = content.length

/-- **When the copies of a scan are whole.**  In every scan of a directory or glob copy on
the Reader->Writer path, whatever the listing said and whatever the sources hold when they
are read, a copy reported as successful is whole if and only if the listing gave the
length the source has when it is read. -/
theorem copyScan_content_iff {getBasename : Bytes → Bytes} {sourceOp destinationOp : OdOperator}
    {source destination : Bytes} {rawOptions : OdCopyOptions} {cursor : OdCopyCursor}
    (hopen : odTableCopyOpen sourceOp source destinationOp destination rawOptions = .ok cursor)
    (htree : IsTree sourceOp (cStr source)) (hstream : cursor.sameOpCopy = false)
    (reads : List (CopyCalls × Bytes)) (hreads : ∀ r ∈ reads, r.1.Reads r.2) {i : ℕ}
    {calls : CopyCalls} {content : Bytes} (hread : reads[i]? = some (calls, content))
    {events : List CopyEvent} {row : OwnedCopyRow}
    (hrow : (Mealy.answers (odCopyCursorNext getBasename) cursor (reads.map Prod.fst))[i]? =
      some (events, .ok (some row))) :
    ∃ entries, sourceOp.listOptions (copyBase (cStr source)) (.plain true) = .ok entries ∧
      ∃ e ∈ entries, row.source = e.path ∧
        (CopiedWhole events row content ↔ e.metadata.contentLength.val = content.length) := by
  obtain ⟨source', destination', options, plan, hsource, -, -, hplan, rfl⟩ :=
    odTableCopyOpen_eq_ok hopen
  cases (cstr_eq_some_iff.mp hsource).2
  obtain ⟨entries, hentries, rfl⟩ := copyPlan_of_isTree htree hplan
  obtain ⟨p, calls', metadata, hp, hcalls, hpath, -, hcopy, rfl⟩ := answers_copy hrow
  have hsame : calls' = calls := by
    rw [List.getElem?_map, hread] at hcalls
    exact (Option.some.inj hcalls).symm
  subst hsame
  -- The size of a planned pair is the length its entry was listed with.
  obtain ⟨e, he, -, -, rfl⟩ := mem_planEntries.mp (List.mem_of_getElem? hp)
  simp only at hstream hcopy
  rw [hstream] at hcopy
  refine ⟨entries, hentries, e, he, hpath, ?_⟩
  simp only [hstream]
  exact copyOne_stream_iff hcopy (hreads _ (List.mem_of_getElem? hread))

/-- OpenDAL's side of a copy of an object that goes well. -/
def calmCalls (content : Bytes) : CopyCalls where
  copier := .ok ()
  steps := []
  copierClose := .ok (.ofLength .FILE 0)
  copierAbort := .ok ()
  reader := .ok ()
  writer := .ok ()
  read start stop := .ok ((content.take stop).drop start)
  write _ := .ok ()
  close := .ok (.ofLength .FILE 0)
  abort := .ok ()
  stat := .ok (.ofLength .FILE 0)
  newError kind message := ⟨kind, message⟩
  withContext primary _ _ := primary

theorem calmCalls_reads (content : Bytes) : (calmCalls content).Reads content := by
  intro start stop bytes _ _ h
  cases h
  rfl

/-- A service without server-side copies that lists one file of the given length. -/
def oneFile (contentLength : U64) : OdOperator :=
  storeOperator { Capability.all with copy := false }
    [fileEntry (ascii "d/a") (by decide) contentLength]

/-- The cursor of a copy of that file's directory. -/
def oneFileCursor (contentLength : U64) : OdCopyCursor :=
  ⟨oneFile contentLength, oneFile contentLength, ⟨false, none, none, none, 0, none⟩, false,
    [⟨ascii "d/a", ascii "e/a", contentLength⟩], none⟩

theorem oneFileCursor_open (contentLength : U64) :
    odTableCopyOpen (oneFile contentLength) (ascii "d/") (oneFile contentLength) (ascii "e/")
      .unset = .ok (oneFileCursor contentLength) := by
  rfl

theorem oneFile_isTree (contentLength : U64) : IsTree (oneFile contentLength) (ascii "d/") := by
  refine Or.inr fun version metadata h => ?_
  cases h
  rfl

/-- When every call goes well, the loop ends at the planned size. -/
theorem streamLoop_calm (content : Bytes) (sourceSize : U64) (chunk : {n : ℕ // 0 < n})
    {offset : ℕ} (hoffset : offset ≤ sourceSize.val) :
    (streamLoop (calmCalls content) sourceSize chunk offset).result = .ok sourceSize.val := by
  induction hrest : sourceSize.val - offset using Nat.strong_induction_on generalizing offset with
  | h rest ih =>
  subst hrest
  rw [streamLoop]
  by_cases hlt : offset < sourceSize.val
  · have hstop := lt_stop chunk hlt
    rw [if_pos hlt]
    exact ih _ (by omega) (Nat.min_le_left _ _) rfl
  · rw [if_neg hlt, le_antisymm hoffset (not_lt.mp hlt)]
    rfl

theorem copyOne_calm (content source destination : Bytes) (options : CopyOptions)
    (sourceSize : U64) :
    (copyOne (calmCalls content) source destination options false sourceSize).result =
      .ok (sourceSize.val, .ofLength .FILE 0) := by
  have htransfer : (transfer (calmCalls content) source destination options false
      sourceSize).result = .ok (sourceSize.val, .ofLength .FILE 0) := by
    rw [transfer, if_neg Bool.false_ne_true, copyStream, Traced.bind_result_of_ok (a := ()) rfl,
      Traced.bind_result_of_ok (a := ()) rfl, Traced.bind_result_of_ok
        (streamLoop_calm content sourceSize _ (Nat.zero_le _))]
    rfl
  rw [copyOne, Traced.bind_result_of_ok htransfer]
  rfl

/-- The copy of one file reports the listed size. -/
theorem answers_oneFile (contentLength : U64) (content : Bytes) :
    ∃ events row, Mealy.answers (odCopyCursorNext (Text.afterLast slash))
      (oneFileCursor contentLength) [calmCalls content] = [(events, .ok (some row))] ∧
        row.bytesCopied = contentLength.val := by
  have hcopy := copyOne_calm content (ascii "d/a") (ascii "e/a")
    ⟨false, none, none, none, 0, none⟩ contentLength
  have hnext : odCopyCursorNext (Text.afterLast slash) (oneFileCursor contentLength)
      (calmCalls content) = _ :=
    odCopyCursorNext_of_ok rfl hcopy (by decide : 0 ∉ ascii "d/a") rfl
  exact ⟨_, _, congrArg ([·]) (congrArg Prod.snd hnext), rfl⟩

/-- The copy of a file whose length the listing gave. -/
theorem copyScan_content_iff_sized :
    ∃ events row, Mealy.answers (odCopyCursorNext (Text.afterLast slash)) (oneFileCursor 3)
        [calmCalls (ascii "abc")] = [(events, .ok (some row))] ∧
      ∃ entries, (oneFile 3).listOptions (copyBase (ascii "d/")) (.plain true) = .ok entries ∧
        ∃ e ∈ entries, row.source = e.path ∧
          (CopiedWhole events row (ascii "abc") ↔ e.metadata.contentLength.val = 3) := by
  obtain ⟨events, row, hanswers, -⟩ := answers_oneFile 3 (ascii "abc")
  refine ⟨events, row, hanswers, ?_⟩
  exact copyScan_content_iff (oneFileCursor_open 3) (oneFile_isTree 3) rfl
    [(calmCalls (ascii "abc"), ascii "abc")]
    (fun r hr => List.mem_singleton.mp hr ▸ calmCalls_reads (ascii "abc")) (i := 0) rfl
    (congrArg (·[0]?) hanswers)

/-- A file that was listed with three bytes and has grown to six is copied up to the third. -/
theorem copyScan_truncates :
    odTableCopyOpen (oneFile 3) (ascii "d/") (oneFile 3) (ascii "e/") .unset =
        .ok (oneFileCursor 3) ∧
      IsTree (oneFile 3) (ascii "d/") ∧
      (calmCalls (ascii "abcdef")).Reads (ascii "abcdef") ∧
      ∃ events row, Mealy.answers (odCopyCursorNext (Text.afterLast slash)) (oneFileCursor 3)
          [calmCalls (ascii "abcdef")] = [(events, .ok (some row))] ∧
        row.bytesCopied = 3 ∧ ¬ CopiedWhole events row (ascii "abcdef") := by
  obtain ⟨events, row, hanswers, hbytes⟩ := answers_oneFile 3 (ascii "abcdef")
  refine ⟨oneFileCursor_open 3, oneFile_isTree 3, calmCalls_reads _, events, row, hanswers,
    hbytes, ?_⟩
  rintro ⟨-, hlen⟩
  rw [hbytes] at hlen
  exact absurd hlen (by decide)

end DuckdbOpendal
