import DuckdbOpendal.Mutations
import DuckdbOpendal.ReadSeek

/-!
# Opening a file

`OpenFile` as a whole: `ValidateOpenFlags`, the URL and its operator, and then the write side
with `od_writer_open` or the read side.  Handles that read and write, append, create or refuse
are turned away before the URL is looked at.  Log calls are taken not to throw.

## Main Definitions

* `FileOpenFlags`, `validateOpenFlags` — the flags, and those that are turned away
* `odWriterOpen` — the Rust side of opening a writer, with the tuning it passes on
* `FileSystem.openFile` — `OpenFile`

## Main Results

* `openFile_eq_ok` — what a handle that was opened is
-/

namespace DuckdbOpendal

/-- `FileOpenFlags`, by the answers of its queries. -/
structure FileOpenFlags where
  openForReading : Bool
  openForWriting : Bool
  openForAppending : Bool
  createFileIfNotExists : Bool
  overwriteExistingFile : Bool
  exclusiveCreate : Bool
  createPrivateFile : Bool
  returnNullIfNotExists : Bool
  returnNullIfExists : Bool
  deriving DecidableEq, Repr

namespace FileOpenFlags

/-- No flag. -/
def unset : FileOpenFlags := ⟨false, false, false, false, false, false, false, false, false⟩

/-- Nothing but one of reading and writing, and the overwriting of a file. -/
def Plain (flags : FileOpenFlags) : Prop :=
  flags.openForReading ≠ flags.openForWriting ∧ flags.openForAppending = false ∧
    flags.createFileIfNotExists = false ∧ flags.exclusiveCreate = false ∧
    flags.createPrivateFile = false ∧ flags.returnNullIfNotExists = false ∧
    flags.returnNullIfExists = false

end FileOpenFlags

/-- `ValidateOpenFlags`. -/
def validateOpenFlags (flags : FileOpenFlags) (path : Bytes) : Except Bytes Unit :=
  if !flags.openForReading && !flags.openForWriting then
    .error (ascii "opendal: open: requires read or write access: " ++ path)
  else if flags.openForReading && flags.openForWriting then
    .error (ascii "opendal: open: read-write handles are not supported: " ++ path)
  else if flags.openForAppending then
    .error (ascii "opendal: open: append mode is not supported: " ++ path)
  else if flags.createFileIfNotExists then
    .error (ascii "opendal: open: create-if-missing mode is not supported: " ++ path)
  else if flags.exclusiveCreate || flags.createPrivateFile || flags.returnNullIfExists then
    .error (ascii "opendal: open: exclusive/private creation is not supported: " ++ path)
  else if flags.returnNullIfNotExists then
    .error (ascii "opendal: open: null-if-missing mode is not supported: " ++ path)
  else .ok ()

/-! ## Opening a writer -/

/-- What `od_writer_open` sets on OpenDAL's `writer_with`; unset fields leave the defaults of
the service. -/
structure WriterOptions where
  concurrent : Option ℕ
  chunk : Option ℕ
  deriving DecidableEq, Repr

/-- The tuning of the operator's `io.write` options. -/
def IoConfig.writerOptions (io : IoConfig) : WriterOptions :=
  ⟨io.write.concurrent.map Subtype.val, io.write.chunkSize⟩

/-- `od_writer_open`; how `writer_with` ends is an input. -/
def odWriterOpen (op : FileOperator) (path : Bytes)
    (writerWith : Bytes → WriterOptions → Outcome Unit) : Except OdError OdWriter := do
  require op.scheme op.cap.write (ascii "write")
  let path ← requireCstr path "path is null or not UTF-8"
  match writerWith path op.io.writerOptions with
  | .ok () => .ok .opened
  | .err e => .error (setOpendalError e)
  | .panic => .error (setError .Panic (ascii "panic in od_writer_open"))

/-- How OpenDAL's calls end when a file is opened. -/
structure OpenOutcomes where
  writerWith : Bytes → WriterOptions → Outcome Unit
  reader : Outcome Unit

/-- What `OpenFile` returns. -/
inductive OpenedFile where
  | reading (h : ReadHandle)
  | writing (h : WriteHandle)

section OpenFile

variable (registry : Registry) (operators : ResolvedUrl → Except Bytes FileOperator)

/-- `OpenFile` for writing; `operators` is what `OperatorFor` returns or throws. -/
def openForWriting (path : Bytes) (flags : FileOpenFlags)
    (writerWith : Bytes → WriterOptions → Outcome Unit) : Except Bytes WriteHandle :=
  match parseUrl registry path with
  | none => .error (ascii "opendal: open: unrecognized URL: " ++ path)
  | some u => do
      let op ← operators u
      if !flags.overwriteExistingFile then
        .error (ascii "opendal: open: write opens must explicitly overwrite the destination: " ++
          path)
      else do
        let writer ← orThrow ((odWriterOpen op u.path writerWith).map some)
          (ascii "opendal: open (write): " ++ path) none
        return { WriteHandle.new path with writer := writer, writeCommittable := true }

/-- `OpenFile`. -/
def FileSystem.openFile (path : Bytes) (flags : FileOpenFlags) (outcomes : OpenOutcomes) :
    Except Bytes OpenedFile := do
  validateOpenFlags flags path
  if flags.openForWriting then
    let h ← openForWriting registry operators path flags outcomes.writerWith
    return .writing h
  else
    let h ← openForReading registry (fun u => (operators u).map fun op => op.toOdOperator) path
      outcomes.reader
    return .reading h

end OpenFile

/-- `GetFileSize`. -/
def ReadHandle.getFileSize (h : ReadHandle) : ℤ := h.fileSize

/-! ## What is opened -/

theorem validateOpenFlags_eq_ok_iff {flags : FileOpenFlags} {path : Bytes} :
    validateOpenFlags flags path = .ok () ↔ flags.Plain := by
  obtain ⟨reading, writing, appending, create, overwrite, exclusive, priv, nullMissing,
    nullExisting⟩ := flags
  simp only [validateOpenFlags, FileOpenFlags.Plain]
  cases reading <;> cases writing <;> simp
  all_goals
    cases appending <;> cases create <;> cases exclusive <;> cases priv <;> cases nullMissing <;>
      cases nullExisting <;> simp

/-- Failing to open a writer is an error with a code. -/
theorem odWriterOpen_code {op : FileOperator} {path : Bytes}
    {writerWith : Bytes → WriterOptions → Outcome Unit} {err : OdError}
    (h : odWriterOpen op path writerWith = .error err) : err.code ≠ .Ok := by
  unfold odWriterOpen require requireCstr at h
  split at h
  · split at h
    · rw [ok_bind, ok_bind] at h
      split at h
      · cases h
      · cases h
        exact opendalErrorCode_ne_ok _
      · cases h
        simp
    · cases h
      simp
  · cases h
    simp

/-- The writer of `od_writer_open` is fresh. -/
theorem odWriterOpen_eq_ok {op : FileOperator} {path : Bytes}
    {writerWith : Bytes → WriterOptions → Outcome Unit} {w : OdWriter}
    (h : odWriterOpen op path writerWith = .ok w) : w = .opened := by
  obtain ⟨_, -, h⟩ := bind_eq_ok.mp h
  obtain ⟨path', -, h⟩ := bind_eq_ok.mp h
  split at h
  · exact (Except.ok.inj h).symm
  · cases h
  · cases h

section OpenFile

variable {registry : Registry} {operators : ResolvedUrl → Except Bytes FileOperator} {path : Bytes}
  {flags : FileOpenFlags}

/-- **A handle opened for writing** is at the start of a writer of its own, and was asked to
overwrite. -/
theorem openForWriting_eq_ok {writerWith : Bytes → WriterOptions → Outcome Unit} {h : WriteHandle}
    (hopen : openForWriting registry operators path flags writerWith = .ok h) :
    h = DuckdbOpendal.openFile path (.ok ()) .returned ∧ flags.overwriteExistingFile = true ∧
      ∃ u op, parseUrl registry path = some u ∧ operators u = .ok op := by
  cases hurl : parseUrl registry path with
  | none =>
      simp only [openForWriting, hurl] at hopen
      cases hopen
  | some u =>
  simp only [openForWriting, hurl] at hopen
  obtain ⟨op, hop, hopen⟩ := bind_eq_ok.mp hopen
  cases hoverwrite : flags.overwriteExistingFile with
  | false =>
      rw [hoverwrite] at hopen
      cases hopen
  | true =>
  rw [hoverwrite] at hopen
  obtain ⟨writer, hwriter, hopen⟩ := bind_eq_ok.mp hopen
  cases hresult : odWriterOpen op u.path writerWith with
  | error err =>
      rw [hresult] at hwriter
      cases (orThrow_error (odWriterOpen_code hresult) _ none).symm.trans hwriter
  | ok w =>
      rw [hresult, odWriterOpen_eq_ok hresult] at hwriter
      cases hwriter
      cases hopen
      exact ⟨rfl, rfl, u, op, rfl, hop⟩

/-- **What `OpenFile` returns**: with plain flags only, the handle of the side they ask for; one
for writing is fresh. -/
theorem openFile_eq_ok {outcomes : OpenOutcomes} {file : OpenedFile}
    (hopen : FileSystem.openFile registry operators path flags outcomes = .ok file) :
    flags.Plain ∧
      match file with
      | .writing h => flags.openForWriting = true ∧
          h = DuckdbOpendal.openFile path (.ok ()) .returned ∧
          flags.overwriteExistingFile = true ∧
          ∃ u op, parseUrl registry path = some u ∧ operators u = .ok op
      | .reading h => flags.openForReading = true ∧
          openForReading registry (fun u => (operators u).map fun op => op.toOdOperator) path
            outcomes.reader = .ok h := by
  obtain ⟨_, hflags, hopen⟩ := bind_eq_ok.mp hopen
  have hplain := validateOpenFlags_eq_ok_iff.mp hflags
  refine ⟨hplain, ?_⟩
  cases hwriting : flags.openForWriting with
  | true =>
      rw [if_pos hwriting] at hopen
      obtain ⟨h, hhandle, hfile⟩ := bind_eq_ok.mp hopen
      cases hfile
      exact ⟨rfl, openForWriting_eq_ok hhandle⟩
  | false =>
      have hreading : flags.openForReading = true := by simpa [hwriting] using hplain.1
      rw [if_neg (by simp [hwriting])] at hopen
      obtain ⟨h, hhandle, hfile⟩ := bind_eq_ok.mp hopen
      cases hfile
      exact ⟨hreading, hhandle⟩

end OpenFile

end DuckdbOpendal
