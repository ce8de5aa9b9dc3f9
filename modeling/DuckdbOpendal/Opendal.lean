import DuckdbOpendal.Ffi

/-!
# OpenDAL as the extension sees it

Errors, the outcome of an awaited call, and the journal of a streaming writer.
OpenDAL itself is not modelled: what a call does is an input, and the journal
records what was asked of a writer and how it went.

## Main Definitions

* `OpendalError`, `opendalErrorCode` — `opendal::Error` and its FFI code
* `Outcome` — how an awaited call ends
* `Journal` — the calls made on one `opendal::Writer`
* `Journal.committed` — the object a writer has published
-/

namespace DuckdbOpendal

/-! ## Errors -/

/-- `opendal::ErrorKind`. -/
inductive ErrorKind where
  | Unexpected
  | Unsupported
  | ConfigInvalid
  | NotFound
  | PermissionDenied
  | IsADirectory
  | NotADirectory
  | AlreadyExists
  | RateLimited
  | IsSameFile
  | ConditionNotMatch
  | RangeNotSatisfied
  deriving DecidableEq, Repr

/-- `opendal::Error`: its kind and what `to_string` prints. -/
structure OpendalError where
  kind : ErrorKind
  text : Bytes
  deriving DecidableEq, Repr

/-- `set_error`: a message with an interior NUL is replaced. -/
def setError (code : OdErrorCode) (msg : Bytes) : OdError :=
  ⟨code, (CString.new msg).getD (ascii "<error message contained NUL>")⟩

@[simp] theorem setError_code (code : OdErrorCode) (msg : Bytes) :
    (setError code msg).code = code := rfl

/-- `opendal_error_code`. -/
def opendalErrorCode (err : OpendalError) : OdErrorCode :=
  match err.kind with
  | .NotFound => .NotFound
  | .PermissionDenied => .PermissionDenied
  | .NotADirectory => .NotADirectory
  | .IsADirectory => .IsADirectory
  | .AlreadyExists => .AlreadyExists
  | .ConfigInvalid => .InvalidInput
  | .Unsupported => .Unsupported
  | _ => .Unexpected

/-- No OpenDAL error reads as success. -/
@[simp] theorem opendalErrorCode_ne_ok (err : OpendalError) : opendalErrorCode err ≠ .Ok := by
  unfold opendalErrorCode
  split <;> decide

/-- `set_opendal_error`. -/
def setOpendalError (err : OpendalError) : OdError := setError (opendalErrorCode err) err.text

/-- How an awaited OpenDAL call ends. -/
inductive Outcome (α : Type) where
  | ok (value : α)
  | err (e : OpendalError)
  | panic
  deriving DecidableEq, Repr

/-! ## The journal of a writer -/

/-- A call on an `opendal::Writer`, with its outcome. -/
inductive WriterCall where
  | write (bytes : Bytes) (outcome : Outcome Unit)
  | close (outcome : Outcome Unit)
  | abort (outcome : Outcome Unit)
  deriving DecidableEq, Repr

namespace WriterCall

/-- The call sends bytes to the writer or finalizes it. -/
def Advances : WriterCall → Prop
  | write _ _ | close _ => True
  | abort _ => False

/-- The call published the object, or it was a write or close that did not
succeed. -/
def Ends : WriterCall → Prop
  | write _ outcome => outcome ≠ .ok ()
  | close _ => True
  | abort _ => False

/-- The call is a write or close that did not succeed. -/
def Fails : WriterCall → Prop
  | write _ outcome | close outcome => outcome ≠ .ok ()
  | abort _ => False

/-- The call is an abort. -/
def isAbort : WriterCall → Bool
  | abort _ => true
  | _ => false

end WriterCall

/-- The calls made on one writer, oldest first. -/
abbrev Journal := List WriterCall

namespace Journal

/-- Publish what the successful writes have accumulated at the first successful
close. -/
def committedFrom (content : Bytes) : Journal → Option Bytes
  | [] => none
  | .write bytes (.ok ()) :: calls => committedFrom (content ++ bytes) calls
  | .close (.ok ()) :: _ => some content
  | _ :: calls => committedFrom content calls

/-- The object the writer has published: at a successful close, everything written
so far; `none` before one. -/
def committed (calls : Journal) : Option Bytes := committedFrom [] calls

/-- The successful writes of the given chunks. -/
def writes (chunks : List Bytes) : Journal := chunks.map fun bytes => .write bytes (.ok ())

@[simp] theorem writes_append (chunks chunks' : List Bytes) :
    writes (chunks ++ chunks') = writes chunks ++ writes chunks' := List.map_append

theorem committedFrom_writes_append (content : Bytes) (chunks : List Bytes) (calls : Journal) :
    committedFrom content (writes chunks ++ calls) =
      committedFrom (content ++ chunks.flatten) calls := by
  induction chunks generalizing content with
  | nil => simp [writes]
  | cons bytes chunks ih =>
      simpa [writes, committedFrom, List.append_assoc] using ih (content ++ bytes)

/-- After successful writes, the rest of the journal decides. -/
theorem committed_writes_append (chunks : List Bytes) (calls : Journal) :
    committed (writes chunks ++ calls) = committedFrom chunks.flatten calls := by
  simpa [committed] using committedFrom_writes_append [] chunks calls

/-- The number of successful closes. -/
def commits (calls : Journal) : ℕ := calls.count (.close (.ok ()))

/-- The number of aborts attempted. -/
def aborts (calls : Journal) : ℕ := calls.countP WriterCall.isAbort

@[simp] theorem commits_append (calls calls' : Journal) :
    commits (calls ++ calls') = commits calls + commits calls' := List.count_append

@[simp] theorem aborts_append (calls calls' : Journal) :
    aborts (calls ++ calls') = aborts calls + aborts calls' := List.countP_append

@[simp] theorem commits_abort (outcome : Outcome Unit) : commits [.abort outcome] = 0 := rfl

@[simp] theorem aborts_abort (outcome : Outcome Unit) : aborts [.abort outcome] = 1 := rfl

@[simp] theorem commits_nil : commits [] = 0 := rfl

@[simp] theorem commits_writes (chunks : List Bytes) : commits (writes chunks) = 0 := by
  simp [commits, writes, List.count_eq_zero]

@[simp] theorem aborts_writes (chunks : List Bytes) : aborts (writes chunks) = 0 := by
  simp [aborts, writes, WriterCall.isAbort, List.countP_eq_zero]

end Journal

end DuckdbOpendal
