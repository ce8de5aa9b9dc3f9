import Mathlib.Algebra.Group.Int.Defs
import DuckdbOpendal.Lib.Mealy
import DuckdbOpendal.Writer

/-!
# Write handles

The C++ side of a write: `OpenFile` from `od_writer_open` on, the two `Write`s,
`FileSync`, and `CloseInternal` behind `Close` and the destructor.  Two machines
run side by side, the handle with its flags and the Rust writer with its state;
`Phase` says how they hang together, and every operation of a handle moves from
phase to phase.  Log calls are taken not to throw.

## Main Definitions

* `WriteHandle` — the handle, and the writers `od_writer_free` was given
* `HandleOp`, `handleStep` — the operations, with the outcomes of OpenDAL's calls
* `Phase` — writing, finished, or freed

## Main Results

* `writeHandle_commit` — what is published, and that nothing follows it
* `writeHandle_throw_iff` — when a `Write` that threw keeps the object unpublished
* `writeHandle_freed` — no open writer is freed
-/

namespace DuckdbOpendal

/-- `std::numeric_limits<int64_t>::max()`. -/
def int64Max : ℤ := 2 ^ 63 - 1

/-- `std::to_string` of a signed number. -/
def decimalInt (n : ℤ) : Bytes := if n < 0 then ascii "-" ++ decimal n.natAbs else decimal n.natAbs

/-- `OpenDalFileHandle`, opened for writing; `freed` records the writers as
`od_writer_free` found them. -/
structure WriteHandle where
  path : Bytes
  writer : Option OdWriter
  bytesWritten : ℤ
  writeCommittable : Bool
  writeFinished : Bool
  freed : List OdWriter
  deriving DecidableEq

/-- `ThrowIfError`. -/
def throwIfError (err : OdError) (context : Bytes) : Except Bytes Unit :=
  if err.code = .Ok then .ok () else .error (context ++ ascii ": " ++ err.message)

namespace WriteHandle

/-- The end of `Write`, once the bytes are with the writer. -/
def advance (h : WriteHandle) (nrBytes : ℤ) : WriteHandle :=
  { h with bytesWritten := h.bytesWritten + nrBytes }

/-- `Write(handle, buffer, nr_bytes, location)`. -/
def write (h : WriteHandle) (buffer : Option Buffer) (nrBytes : ℤ) (location : ℕ)
    (write abort : Outcome Unit) : WriteHandle × Except Bytes Unit :=
  if nrBytes < 0 then (h, .error (ascii "opendal: write: negative length: " ++ h.path))
  else if int64Max < location then
    (h, .error (ascii "opendal: write: offset exceeds signed 64-bit limit: " ++ h.path))
  else
  match h.writer with
  | none => (h, .error (ascii "opendal: write: handle is not writable: " ++ h.path))
  | some w =>
      if h.writeFinished then
        (h, .error (ascii "opendal: write: writer already finalized: " ++ h.path))
      else if (location : ℤ) ≠ h.bytesWritten then
        (h, .error (ascii "opendal: write: non-sequential offset " ++ decimal location ++
          ascii " (expected " ++ decimalInt h.bytesWritten ++
          ascii "): random-access writes are not supported: " ++ h.path))
      else if int64Max - h.bytesWritten < nrBytes then
        (h, .error (ascii "opendal: write: byte count overflows signed 64-bit range: " ++ h.path))
      else
      match odWriterWrite w buffer nrBytes.toNat write abort with
      | (w, .error err) =>
          let h := { h with writer := some w, writeFinished := true }
          match throwIfError err (ascii "opendal: write: " ++ h.path) with
          | .error message => (h, .error message)
          | .ok () => (h.advance nrBytes, .ok ())
      | (w, .ok ()) => ({ h with writer := some w }.advance nrBytes, .ok ())

/-- `Write(handle, buffer, nr_bytes)`: the positioned write at the running count. -/
def writeNext (h : WriteHandle) (buffer : Option Buffer) (nrBytes : ℤ)
    (write abort : Outcome Unit) : WriteHandle × Except Bytes Unit :=
  h.write buffer nrBytes h.bytesWritten.toNat write abort

/-- `FileSync`. -/
def fileSync (h : WriteHandle) (close abort : Outcome Unit) : WriteHandle × Except Bytes Unit :=
  match h.writer with
  | none => (h, .ok ())
  | some w =>
      if h.writeFinished then (h, .ok ())
      else
      match odWriterClose w close abort with
      | (w, .error err) =>
          ({ h with writer := some w, writeFinished := true },
            throwIfError err (ascii "opendal: close (write): " ++ h.path))
      | (w, .ok ()) => ({ h with writer := some w, writeFinished := true }, .ok ())

/-- The finalization in `CloseInternal`: the writer, and the text of its error. -/
def finalize (h : WriteHandle) (w : OdWriter) (close abort : Outcome Unit) : OdWriter × Bytes :=
  if h.writeFinished then (w, [])
  else
    let result := if h.writeCommittable then odWriterClose w close abort else odWriterAbort w abort
    match result with
    | (w, .error err) => (w, err.message)
    | (w, .ok ()) => (w, [])

/-- `CloseInternal` on a handle without a reader. -/
def closeInternal (h : WriteHandle) (throwOnError : Bool) (close abort : Outcome Unit) :
    WriteHandle × Except Bytes Unit :=
  match h.writer with
  | none => (h, .ok ())
  | some w =>
      let final := h.finalize w close abort
      ({ h with writer := none, writeFinished := true, freed := h.freed ++ [final.1] },
        if throwOnError ∧ final.2 ≠ [] then
          .error (ascii "opendal: close (write): " ++ h.path ++ ascii ": " ++ final.2)
        else .ok ())

/-- A handle around a writer that `od_writer_open` has just returned. -/
def new (path : Bytes) : WriteHandle := ⟨path, some .opened, 0, false, false, []⟩

/-- Everything OpenDAL was asked to do with the handle's writer. -/
def journal (h : WriteHandle) : Journal :=
  (h.freed ++ h.writer.toList).flatMap OdWriter.writer

end WriteHandle

/-- Where an exception leaves `OpenFile` after `od_writer_open`: before the handle
owns the writer, before the handle may commit, or not at all. -/
inductive OpenWindow where
  | beforeHandle
  | beforeCommittable
  | returned

/-- `OpenFile` for writing, from `od_writer_open` on.  An exception runs
`AbortAndFreeWriter` or the handle's destructor. -/
def openFile (path : Bytes) (abort : Outcome Unit) : OpenWindow → WriteHandle
  | .beforeHandle => ⟨path, none, 0, false, false, [(odWriterAbort .opened abort).1]⟩
  | .beforeCommittable => ((WriteHandle.new path).closeInternal false abort abort).1
  | .returned => { WriteHandle.new path with writeCommittable := true }

/-- The operations on a handle, each with the outcomes of the OpenDAL calls it may
make. -/
inductive HandleOp where
  | write (buffer : Option Buffer) (nrBytes : ℤ) (location : ℕ) (write abort : Outcome Unit)
  | writeNext (buffer : Option Buffer) (nrBytes : ℤ) (write abort : Outcome Unit)
  | fileSync (close abort : Outcome Unit)
  | close (close abort : Outcome Unit)
  | destruct (close abort : Outcome Unit)

/-- One operation, with its result or the message of the `IOException`. -/
def handleStep (h : WriteHandle) : HandleOp → WriteHandle × Except Bytes Unit
  | .write buffer nrBytes location write abort => h.write buffer nrBytes location write abort
  | .writeNext buffer nrBytes write abort => h.writeNext buffer nrBytes write abort
  | .fileSync close abort => h.fileSync close abort
  | .close close abort => h.closeInternal true close abort
  | .destruct close abort => h.closeInternal false close abort

/-! ## Writing -/

/-- A handle that is writing: the calls made so far, all on an open writer, and the
running count. -/
def writingHandle (path : Bytes) (calls : Journal) (count : ℤ) : WriteHandle :=
  ⟨path, some ⟨calls, .Open⟩, count, true, false, []⟩

/-- What `Write` checks before it hands the bytes over. -/
def WriteHandle.Accepts (h : WriteHandle) (nrBytes : ℤ) (location : ℕ) : Prop :=
  0 ≤ nrBytes ∧ (location : ℤ) ≤ int64Max ∧ (location : ℤ) = h.bytesWritten ∧
    nrBytes ≤ int64Max - h.bytesWritten

instance (h : WriteHandle) (nrBytes : ℤ) (location : ℕ) : Decidable (h.Accepts nrBytes location) :=
  inferInstanceAs (Decidable (_ ∧ _))

section Write

variable {path : Bytes} {calls : Journal} {count : ℤ} {buffer : Option Buffer} {n : ℤ}
  {location : ℕ}

/-- A rejected argument changes nothing. -/
theorem write_rejected (h : ¬ (writingHandle path calls count).Accepts n location)
    (buffer : Option Buffer) (write abort : Outcome Unit) :
    ∃ message, (writingHandle path calls count).write buffer n location write abort =
      (writingHandle path calls count, .error message) := by
  unfold WriteHandle.write
  by_cases h0 : n < 0
  · exact ⟨_, if_pos h0⟩
  rw [if_neg h0]
  by_cases hmax : int64Max < location
  · exact ⟨_, if_pos hmax⟩
  rw [if_neg hmax]
  by_cases hloc : (location : ℤ) = count
  · by_cases hover : int64Max - count < n
    · exact ⟨_, by simp [writingHandle, hloc, hover]; rfl⟩
    · exact absurd ⟨Int.not_lt.mp h0, Int.not_lt.mp hmax, hloc, Int.not_lt.mp hover⟩ h
  · exact ⟨_, by simp [writingHandle, hloc]; rfl⟩

/-- **`Write` on a writing handle**, its arguments accepted: the chunk is added and
the count advances, or the handle is finished without a commit. -/
theorem write_accepted (h : (writingHandle path calls count).Accepts n location)
    (buffer : Option Buffer) (write abort : Outcome Unit) :
    ((writingHandle path calls count).write buffer n location write abort =
        (writingHandle path (calls ++ Journal.writes (chunkOf buffer n.toNat)) (count + n),
          .ok ()) ∧
      ((chunkOf buffer n.toNat).flatten.length : ℤ) = n) ∨
    ∃ state tail message, (writingHandle path calls count).write buffer n location write abort =
        (⟨path, some ⟨calls ++ tail, state⟩, count, true, true, []⟩, .error message) ∧
      Ending state tail ∧ state ≠ .Closed ∧
      (buffer.isSome → write ≠ .panic → abort ≠ .panic → state ≠ .Open) := by
  obtain ⟨h0, hmax, hloc, hover⟩ := h
  simp only [writingHandle] at hloc hover
  subst hloc
  have hlen : n.toNat ≤ isizeMax := by
    simp only [int64Max, isizeMax] at *
    omega
  have hcall : (writingHandle path calls location).write buffer n location write abort =
      match odWriterWrite ⟨calls, .Open⟩ buffer n.toNat write abort with
      | (w, .error err) =>
          match throwIfError err (ascii "opendal: write: " ++ path) with
          | .error message => (⟨path, some w, location, true, true, []⟩, .error message)
          | .ok () => (⟨path, some w, location + n, true, true, []⟩, .ok ())
      | (w, .ok ()) => (⟨path, some w, location + n, true, false, []⟩, .ok ()) := by
    simp only [WriteHandle.write, writingHandle, if_neg (Int.not_lt.mpr h0),
      if_neg (Int.not_lt.mpr hmax), Bool.false_eq_true, if_false, ne_eq, not_true_eq_false,
      WriteHandle.advance]
    exact if_neg (Int.not_lt.mpr hover)
  rw [hcall]
  rcases odWriterWrite_open calls buffer n.toNat write abort with
    ⟨hok, hchunk⟩ | ⟨state, tail, e, herror, hcode, hending, hclosed, hsettled⟩
  · left
    rw [hok, hchunk]
    exact ⟨rfl, Int.toNat_of_nonneg h0⟩
  · right
    refine ⟨state, tail, ascii "opendal: write: " ++ path ++ ascii ": " ++ e.message, ?_,
      hending, hclosed, fun hbuffer hwrite habort => hsettled ⟨hbuffer, hlen, hwrite, habort⟩⟩
    rw [herror]
    simp only [throwIfError, if_neg hcode]

end Write

/-! ## Phases -/

/-- The handle and its writer, after the chunks of the writes that returned: still
writing; finalized or failed, with the writer still owned; or freed.  Under
`settled`, a writer that is no longer written to has left the open state. -/
inductive Phase (settled : Prop) (chunks : List Bytes) : WriteHandle → Prop where
  | writing {path : Bytes} {count : ℤ} (hcount : count = chunks.flatten.length) :
      Phase settled chunks (writingHandle path (Journal.writes chunks) count)
  | finished {path : Bytes} {count : ℤ} {committable : Bool} {state : WriterState}
      {tail : Journal} (hcount : count = chunks.flatten.length) (hending : Ending state tail)
      (hsettled : settled → state ≠ .Open) :
      Phase settled chunks
        ⟨path, some ⟨Journal.writes chunks ++ tail, state⟩, count, committable, true, []⟩
  | freed {path : Bytes} {count : ℤ} {committable done : Bool} {state : WriterState}
      {tail : Journal} (hcount : count = chunks.flatten.length) (hending : Ending state tail)
      (hsettled : settled → state ≠ .Open) :
      Phase settled chunks
        ⟨path, none, count, committable, done, [⟨Journal.writes chunks ++ tail, state⟩]⟩

/-- The operation has a buffer and no OpenDAL call in it panics. -/
def HandleOp.Calm : HandleOp → Prop
  | .write buffer _ _ outcome abort | .writeNext buffer _ outcome abort =>
      buffer.isSome ∧ outcome ≠ .panic ∧ abort ≠ .panic
  | .fileSync outcome abort | .close outcome abort | .destruct outcome abort =>
      outcome ≠ .panic ∧ abort ≠ .panic

/-- The chunks an operation adds when it returns. -/
def HandleOp.chunks : HandleOp → List Bytes
  | .write buffer nrBytes _ _ _ | .writeNext buffer nrBytes _ _ => chunkOf buffer nrBytes.toNat
  | _ => []

/-- The chunks an operation has added, given its result. -/
def returnedChunks (op : HandleOp) (result : Except Bytes Unit) : List Bytes :=
  match result with
  | .ok () => op.chunks
  | .error _ => []

section Step

variable {settled : Prop} {chunks : List Bytes} {path : Bytes} {count : ℤ}

/-- `Write` on a handle that is writing stays in the phases. -/
theorem phase_write (hcount : count = chunks.flatten.length) {buffer : Option Buffer} (n : ℤ)
    (location : ℕ) {write abort : Outcome Unit}
    (hcalm : settled → buffer.isSome ∧ write ≠ .panic ∧ abort ≠ .panic) :
    let result := (writingHandle path (Journal.writes chunks) count).write buffer n location
      write abort
    Phase settled (chunks ++ match result.2 with
      | .ok () => chunkOf buffer n.toNat
      | .error _ => []) result.1 := by
  by_cases h : (writingHandle path (Journal.writes chunks) count).Accepts n location
  · rcases write_accepted h buffer write abort with
      ⟨hok, hchunk⟩ | ⟨state, tail, message, herror, hending, -, hsettled⟩
    · simp only [hok, ← Journal.writes_append]
      refine .writing ?_
      rw [List.flatten_append, List.length_append]
      push_cast
      rw [hchunk, hcount]
    · simp only [herror, List.append_nil]
      exact .finished hcount hending fun hs =>
        hsettled (hcalm hs).1 (hcalm hs).2.1 (hcalm hs).2.2
  · obtain ⟨message, herror⟩ := write_rejected h buffer write abort
    simp only [herror, List.append_nil]
    exact .writing hcount

/-- `FileSync` on a handle that is writing stays in the phases. -/
theorem phase_fileSync (hcount : count = chunks.flatten.length) {close abort : Outcome Unit}
    (hcalm : settled → close ≠ .panic ∧ abort ≠ .panic) :
    Phase settled chunks
      ((writingHandle path (Journal.writes chunks) count).fileSync close abort).1 := by
  simp only [WriteHandle.fileSync, writingHandle, Bool.false_eq_true, if_false]
  rcases odWriterClose_open (Journal.writes chunks) close abort with
    hok | ⟨state, tail, e, herror, -, hending, -, hsettled⟩
  · rw [hok]
    exact .finished hcount .closed fun _ => by decide
  · rw [herror]
    exact .finished hcount hending fun hs => hsettled (hcalm hs)

/-- `CloseInternal` on a handle that is writing frees the writer. -/
theorem phase_closeInternal (hcount : count = chunks.flatten.length) (throwOnError : Bool)
    {close abort : Outcome Unit} (hcalm : settled → close ≠ .panic ∧ abort ≠ .panic) :
    Phase settled chunks
      ((writingHandle path (Journal.writes chunks) count).closeInternal throwOnError close
        abort).1 := by
  simp only [WriteHandle.closeInternal, WriteHandle.finalize, writingHandle, Bool.false_eq_true,
    if_false, if_true, List.nil_append]
  rcases odWriterClose_open (Journal.writes chunks) close abort with
    hok | ⟨state, tail, e, herror, -, hending, -, hsettled⟩
  · rw [hok]
    exact .freed hcount .closed fun _ => by decide
  · rw [herror]
    exact .freed hcount hending fun hs => hsettled (hcalm hs)

/-- A write on a handle whose writer is finished or gone throws, and changes
nothing. -/
theorem write_of_finished {h : WriteHandle} (hdone : h.writer = none ∨ h.writeFinished = true)
    (buffer : Option Buffer) (n : ℤ) (location : ℕ) (write abort : Outcome Unit) :
    ∃ message, h.write buffer n location write abort = (h, .error message) := by
  unfold WriteHandle.write
  by_cases h0 : n < 0
  · exact ⟨_, if_pos h0⟩
  rw [if_neg h0]
  by_cases hmax : int64Max < location
  · exact ⟨_, if_pos hmax⟩
  rw [if_neg hmax]
  cases hw : h.writer with
  | none => exact ⟨_, rfl⟩
  | some w =>
      have hfinished : h.writeFinished = true := hdone.resolve_left (by simp [hw])
      exact ⟨_, if_pos hfinished⟩

/-- An operation that is not a write adds nothing, whatever its result. -/
theorem returnedChunks_of_chunks_nil {op : HandleOp} (h : op.chunks = [])
    (result : Except Bytes Unit) : returnedChunks op result = [] := by
  cases result with
  | error message => rfl
  | ok _ => exact h

/-- **What one operation does**: it stays in the phases, and adds its chunks exactly
when it returns. -/
theorem Phase.step {h : WriteHandle} (hphase : Phase settled chunks h) (op : HandleOp)
    (hcalm : settled → op.Calm) :
    Phase settled (chunks ++ returnedChunks op (handleStep h op).2) (handleStep h op).1 := by
  -- A handle that is done rejects writes and lets the other operations pass.
  have hwrite : ∀ {h' : WriteHandle}, Phase settled chunks h' →
      (h'.writer = none ∨ h'.writeFinished = true) → ∀ buffer n location write abort,
      Phase settled
        (chunks ++ match (h'.write buffer n location write abort).2 with
          | .ok () => chunkOf buffer n.toNat
          | .error _ => [])
        (h'.write buffer n location write abort).1 := by
    intro h' hphase' hdone buffer n location write abort
    obtain ⟨message, herror⟩ := write_of_finished hdone buffer n location write abort
    simpa only [herror, List.append_nil] using hphase'
  cases hphase with
  | writing hcount =>
      cases op with
      | write buffer n location write abort => exact phase_write hcount n location hcalm
      | writeNext buffer n write abort => exact phase_write hcount n _ hcalm
      | fileSync close abort =>
          rw [returnedChunks_of_chunks_nil rfl, List.append_nil]
          exact phase_fileSync hcount hcalm
      | close close abort =>
          rw [returnedChunks_of_chunks_nil rfl, List.append_nil]
          exact phase_closeInternal hcount true hcalm
      | destruct close abort =>
          rw [returnedChunks_of_chunks_nil rfl, List.append_nil]
          exact phase_closeInternal hcount false hcalm
  | finished hcount hending hsettled =>
      cases op with
      | write buffer n location write abort =>
          exact hwrite (.finished hcount hending hsettled) (Or.inr rfl) buffer n location write
            abort
      | writeNext buffer n write abort =>
          exact hwrite (.finished hcount hending hsettled) (Or.inr rfl) buffer n _ write abort
      | fileSync close abort =>
          rw [returnedChunks_of_chunks_nil rfl, List.append_nil]
          exact .finished hcount hending hsettled
      | close close abort =>
          rw [returnedChunks_of_chunks_nil rfl, List.append_nil]
          exact .freed hcount hending hsettled
      | destruct close abort =>
          rw [returnedChunks_of_chunks_nil rfl, List.append_nil]
          exact .freed hcount hending hsettled
  | freed hcount hending hsettled =>
      cases op with
      | write buffer n location write abort =>
          exact hwrite (.freed hcount hending hsettled) (Or.inl rfl) buffer n location write abort
      | writeNext buffer n write abort =>
          exact hwrite (.freed hcount hending hsettled) (Or.inl rfl) buffer n _ write abort
      | _ =>
          rw [returnedChunks_of_chunks_nil rfl, List.append_nil]
          exact .freed hcount hending hsettled

/-- `Write` keeps the running count within the signed numbers. -/
theorem write_bytesWritten_le {h : WriteHandle} (hcount : h.bytesWritten ≤ int64Max)
    (buffer : Option Buffer) (n : ℤ) (location : ℕ) (write abort : Outcome Unit) :
    (h.write buffer n location write abort).1.bytesWritten ≤ int64Max := by
  unfold WriteHandle.write
  split
  · exact hcount
  split
  · exact hcount
  split
  · exact hcount
  split
  · exact hcount
  split
  · exact hcount
  split
  · exact hcount
  -- The bytes fit, whatever the writer answers.
  rename_i hfits
  have hsum : h.bytesWritten + n ≤ int64Max := by omega
  split
  · dsimp only
    split
    · exact hcount
    · exact hsum
  · exact hsum

/-- Every operation does, as only a `Write` counts. -/
theorem handleStep_bytesWritten_le {h : WriteHandle} (op : HandleOp)
    (hcount : h.bytesWritten ≤ int64Max) : (handleStep h op).1.bytesWritten ≤ int64Max := by
  cases op with
  | write buffer n location write abort => exact write_bytesWritten_le hcount ..
  | writeNext buffer n write abort => exact write_bytesWritten_le hcount ..
  | fileSync close abort =>
      simp only [handleStep, WriteHandle.fileSync]
      repeat' split
      all_goals exact hcount
  | close close abort =>
      simp only [handleStep, WriteHandle.closeInternal]
      split <;> exact hcount
  | destruct close abort =>
      simp only [handleStep, WriteHandle.closeInternal]
      split <;> exact hcount

end Step

/-! ## Runs -/

/-- The chunks of the writes of a run that returned, in call order. -/
def runChunks (h : WriteHandle) (ops : List HandleOp) : List Bytes :=
  ((ops.zip (Mealy.answers handleStep h ops)).map fun call =>
    returnedChunks call.1 call.2).flatten

/-- **What a run does**: it stays in the phases, and adds the chunks of the writes
that returned. -/
theorem Phase.run {settled : Prop} {chunks : List Bytes} {h : WriteHandle}
    (hphase : Phase settled chunks h) (ops : List HandleOp)
    (hcalm : settled → ∀ op ∈ ops, op.Calm) :
    Phase settled (chunks ++ runChunks h ops) (Mealy.final handleStep h ops) := by
  induction ops generalizing chunks h with
  | nil => simpa [runChunks] using hphase
  | cons op ops ih =>
      have hstep := hphase.step op fun hs => hcalm hs op List.mem_cons_self
      have hrest := ih hstep fun hs o ho => hcalm hs o (List.mem_cons_of_mem _ ho)
      simpa [runChunks, List.append_assoc] using hrest

/-- A handle that `OpenFile` returns is writing; one it gave up is freed. -/
theorem phase_openFile (settled : Prop) (path : Bytes) (abort : Outcome Unit)
    (hcalm : settled → abort ≠ .panic) (window : OpenWindow) :
    Phase settled [] (openFile path abort window) := by
  obtain ⟨state, habort, hending, -, hsettled⟩ := odWriterAbort_open [] abort
  cases window with
  | returned => exact .writing rfl
  | beforeHandle =>
      simp only [openFile, OdWriter.opened, habort]
      exact .freed rfl hending fun hs => hsettled (hcalm hs)
  | beforeCommittable =>
      -- The destructor aborts a writer that was never marked committable.
      have hfinal : ((WriteHandle.new path).finalize .opened abort abort).1 =
          (odWriterAbort .opened abort).1 := by
        simp only [WriteHandle.finalize, WriteHandle.new, Bool.false_eq_true, if_false]
        split <;> rename_i heq <;> rw [heq]
      simp only [openFile, WriteHandle.closeInternal, WriteHandle.new] at hfinal ⊢
      rw [hfinal, OdWriter.opened, habort]
      exact .freed rfl hending fun hs => hsettled (hcalm hs)

/-- The journal and the count of a handle in a phase. -/
theorem Phase.exists_ending {settled : Prop} {chunks : List Bytes} {h : WriteHandle}
    (hphase : Phase settled chunks h) :
    h.bytesWritten = chunks.flatten.length ∧
      ∃ state tail, h.journal = Journal.writes chunks ++ tail ∧ Ending state tail := by
  cases hphase with
  | writing hcount =>
      exact ⟨hcount, .Open, [], by simp [WriteHandle.journal, writingHandle], .untouched⟩
  | finished hcount hending =>
      exact ⟨hcount, _, _, by simp [WriteHandle.journal], hending⟩
  | freed hcount hending =>
      exact ⟨hcount, _, _, by simp [WriteHandle.journal], hending⟩

/-- **The life of a write handle.**  Whatever succeeds or fails, the OpenDAL close
succeeds at most once; when it does, the object is the concatenation of the buffers
of exactly the writes that returned, and `bytes_written` is its length; and after a
successful close, or a write or close that failed, nothing is written or closed. -/
theorem writeHandle_commit (path : Bytes) (abort : Outcome Unit) (ops : List HandleOp) :
    let opened := openFile path abort .returned
    let h := Mealy.final handleStep opened ops
    let content := (runChunks opened ops).flatten
    h.journal.commits ≤ 1 ∧
      (0 < h.journal.commits →
        h.journal.committed = some content ∧ h.bytesWritten = content.length) ∧
      h.journal.Pairwise fun c c' => c.Ends → ¬ c'.Advances := by
  have hphase : Phase False (runChunks (openFile path abort .returned) ops)
      (Mealy.final handleStep (openFile path abort .returned) ops) := by
    simpa using (phase_openFile False path abort nofun .returned).run ops nofun
  obtain ⟨hcount, state, tail, hjournal, hending⟩ := hphase.exists_ending
  simp only [hjournal]
  refine ⟨?_, fun hcommits => ⟨?_, hcount⟩, hending.pairwise _⟩
  · rw [Journal.commits_append, Journal.commits_writes, hending.commits_eq]
    split <;> omega
  · rw [Journal.commits_append, Journal.commits_writes, Nat.zero_add] at hcommits
    exact hending.committed_eq _ hcommits

/-- **No open writer is freed.**  Without panics and null buffers, a writer handed to
`od_writer_free` has been closed, or has seen exactly one abort: wherever `OpenFile`
is left, and whatever happens to the handle it returns. -/
theorem writeHandle_freed (path : Bytes) (window : OpenWindow) {abort : Outcome Unit}
    (habort : abort ≠ .panic) {ops : List HandleOp} (hops : ∀ op ∈ ops, op.Calm) :
    ∀ w ∈ (Mealy.final handleStep (openFile path abort window) ops).freed,
      w.state ≠ .Open ∧
        (w.state = .Closed ∧ w.writer.commits = 1 ∨ w.writer.aborts = 1) := by
  have hphase := (phase_openFile True path abort (fun _ => habort) window).run ops fun _ => hops
  intro w hw
  generalize Mealy.final handleStep (openFile path abort window) ops = h at hphase hw
  cases hphase with
  | writing hcount => simp [writingHandle] at hw
  | finished hcount hending hsettled => simp at hw
  | freed hcount hending hsettled =>
      rename_i state tail
      obtain rfl := List.mem_singleton.mp hw
      refine ⟨hsettled trivial, ?_⟩
      simp only [Journal.commits_append, Journal.aborts_append, Journal.commits_writes,
        Journal.aborts_writes, Nat.zero_add, hending.commits_eq,
        hending.aborts_eq (hsettled trivial)]
      -- A writer that is neither open nor closed has failed, and was aborted then.
      by_cases hclosed : state = .Closed <;> simp [hclosed]

/-- A write of three bytes, and a close that OpenDAL refuses. -/
def refusedClose : List HandleOp :=
  [.writeNext (some fun _ => 0x61) 3 (.ok ()) (.ok ()),
    .fileSync (.err ⟨.Unexpected, ascii "completion failed"⟩) (.ok ()),
    .destruct (.ok ()) (.ok ())]

/-- The writer of a refused close has been aborted once. -/
theorem writeHandle_freed_refusedClose :
    (Mealy.final handleStep (openFile (ascii "s3://b/k") (.ok ()) .returned)
        refusedClose).freed ≠ [] ∧
      ∀ w ∈ (Mealy.final handleStep (openFile (ascii "s3://b/k") (.ok ()) .returned)
          refusedClose).freed,
        w.state ≠ .Open ∧ (w.state = .Closed ∧ w.writer.commits = 1 ∨ w.writer.aborts = 1) :=
  ⟨by decide, writeHandle_freed _ .returned (by decide) (by simp [refusedClose, HandleOp.Calm])⟩

/-! ## After a write that threw -/

/-- The handle no longer finalizes its writer. -/
def WriteHandle.Done (h : WriteHandle) : Prop := h.writer = none ∨ h.writeFinished = true

/-- A handle that is done makes no call on its writer any more. -/
theorem journal_of_done {h : WriteHandle} (hdone : h.Done) (op : HandleOp) :
    (handleStep h op).1.Done ∧ (handleStep h op).1.journal = h.journal := by
  have hwrite : ∀ buffer n location outcome abort,
      (h.write buffer n location outcome abort).1.Done ∧
        (h.write buffer n location outcome abort).1.journal = h.journal := by
    intro buffer n location outcome abort
    obtain ⟨message, herror⟩ := write_of_finished hdone buffer n location outcome abort
    rw [herror]
    exact ⟨hdone, rfl⟩
  -- `Close` and the destructor free the writer at most.
  have hclose : ∀ throwOnError outcome abort,
      (h.closeInternal throwOnError outcome abort).1.Done ∧
        (h.closeInternal throwOnError outcome abort).1.journal = h.journal := by
    intro throwOnError outcome abort
    cases hw : h.writer with
    | none => simpa [WriteHandle.closeInternal, hw] using hdone
    | some w =>
        have hfinished : h.writeFinished = true := hdone.resolve_left (by simp [hw])
        simp [WriteHandle.closeInternal, hw, WriteHandle.finalize, hfinished, WriteHandle.Done,
          WriteHandle.journal]
  cases op with
  | write buffer n location outcome abort => exact hwrite buffer n location outcome abort
  | writeNext buffer n outcome abort => exact hwrite buffer n _ outcome abort
  | fileSync outcome abort =>
      have hsync : h.fileSync outcome abort = (h, .ok ()) := by
        unfold WriteHandle.fileSync
        cases hw : h.writer with
        | none => rfl
        | some w => exact if_pos (hdone.resolve_left (by simp [hw]))
      simp only [handleStep, hsync]
      exact ⟨hdone, trivial⟩
  | close outcome abort => exact hclose true outcome abort
  | destruct outcome abort => exact hclose false outcome abort

theorem journal_final_of_done {h : WriteHandle} (hdone : h.Done) (ops : List HandleOp) :
    (Mealy.final handleStep h ops).journal = h.journal := by
  have hrun := Mealy.final_invariant handleStep (fun h' => h'.Done ∧ h'.journal = h.journal)
    (fun h' op hi => ⟨(journal_of_done hi.1 op).1, (journal_of_done hi.1 op).2.trans hi.2⟩)
    ⟨hdone, rfl⟩ ops
  exact hrun.2

/-- The operation is one of the two `Write`s. -/
def HandleOp.IsWrite : HandleOp → Prop
  | .write .. | .writeNext .. => True
  | _ => False

/-- A `Write` that leaves an unfinished writer alone has arguments it accepts. -/
def HandleOp.Admissible (h : WriteHandle) : HandleOp → Prop
  | .write _ n location _ _ => h.Done ∨ h.Accepts n location
  | .writeNext _ n _ _ => h.Done ∨ h.Accepts n h.bytesWritten.toNat
  | _ => True

/-- The same for both `Write`s, at one handle in a phase. -/
theorem write_throw_iff {chunks : List Bytes} {h : WriteHandle} (hphase : Phase False chunks h)
    {buffer : Option Buffer} {n : ℤ} {location : ℕ} {outcome abort : Outcome Unit}
    {message : Bytes} (hthrow : (h.write buffer n location outcome abort).2 = .error message) :
    (∀ later,
      (Mealy.final handleStep (h.write buffer n location outcome abort).1 later).journal.commits =
        (h.write buffer n location outcome abort).1.journal.commits) ↔
      h.Done ∨ h.Accepts n location := by
  by_cases hdone : h.Done
  · obtain ⟨message, herror⟩ := write_of_finished hdone buffer n location outcome abort
    simp only [herror, hdone, true_or, iff_true]
    exact fun later => congrArg Journal.commits (journal_final_of_done hdone later)
  simp only [hdone, false_or]
  cases hphase with
  | finished hcount hending hsettled => exact absurd (Or.inr rfl) hdone
  | freed hcount hending hsettled => exact absurd (Or.inl rfl) hdone
  | writing hcount =>
      constructor
      · intro hlater
        by_contra haccepts
        obtain ⟨message, herror⟩ := write_rejected haccepts buffer outcome abort
        -- Nothing has changed, so the next `Close` publishes.
        have hclose := hlater [.close (.ok ()) (.ok ())]
        rw [herror] at hclose
        simp [handleStep, WriteHandle.closeInternal, WriteHandle.finalize, writingHandle,
          odWriterClose, OdWriter.requireOpen, OdWriter.call, WriteHandle.journal] at hclose
        exact absurd hclose (by decide)
      · intro haccepts later
        rcases write_accepted haccepts buffer outcome abort with
          ⟨hok, -⟩ | ⟨state, tail, message, herror, -⟩
        · rw [hok] at hthrow
          cases hthrow
        · rw [herror]
          exact congrArg Journal.commits (journal_final_of_done (Or.inr rfl) later)

/-- **After a write that threw.**  In any run, after a `Write` has thrown, no
continuation publishes the object if and only if the `Write` was not turned away by
the argument checks while the writer was open and unfinished. -/
theorem writeHandle_throw_iff (path : Bytes) (openAbort : Outcome Unit) (before : List HandleOp)
    (op : HandleOp) (hop : op.IsWrite) {message : Bytes}
    (hthrow : (handleStep
      (Mealy.final handleStep (openFile path openAbort .returned) before) op).2 =
        .error message) :
    (∀ later,
      (Mealy.final handleStep (openFile path openAbort .returned)
          (before ++ op :: later)).journal.commits =
        (Mealy.final handleStep (openFile path openAbort .returned)
          (before ++ [op])).journal.commits) ↔
      op.Admissible (Mealy.final handleStep (openFile path openAbort .returned) before) := by
  have hphase := (phase_openFile False path openAbort nofun .returned).run before nofun
  simp only [Mealy.final_append, Mealy.final_cons, Mealy.final_nil]
  cases op with
  | write buffer n location outcome abort => exact write_throw_iff hphase hthrow
  | writeNext buffer n outcome abort => exact write_throw_iff hphase hthrow
  | _ => exact hop.elim

/-- A handle that has written three bytes. -/
def threeBytes : List HandleOp := [.writeNext (some fun _ => 0x61) 3 (.ok ()) (.ok ())]

/-- A write that OpenDAL refuses. -/
def refusedWrite : HandleOp :=
  .writeNext (some fun _ => 0x62) 2 (.err ⟨.Unexpected, ascii "upload failed"⟩) (.ok ())

/-- A write at the wrong offset. -/
def misplacedWrite : HandleOp := .write (some fun _ => 0x62) 2 7 (.ok ()) (.ok ())

/-- After a write that OpenDAL refused nothing is published. -/
theorem writeHandle_throw_refused :
    (handleStep (Mealy.final handleStep (openFile (ascii "s3://b/k") (.ok ()) .returned)
        threeBytes) refusedWrite).2 =
          .error (ascii "opendal: write: s3://b/k: upload failed") ∧
      ∀ later,
        (Mealy.final handleStep (openFile (ascii "s3://b/k") (.ok ()) .returned)
            (threeBytes ++ refusedWrite :: later)).journal.commits =
          (Mealy.final handleStep (openFile (ascii "s3://b/k") (.ok ()) .returned)
            (threeBytes ++ [refusedWrite])).journal.commits := by
  refine ⟨by decide, ?_⟩
  refine (writeHandle_throw_iff (ascii "s3://b/k") (.ok ()) threeBytes refusedWrite trivial
    rfl).mpr ?_
  simp only [refusedWrite, HandleOp.Admissible]
  exact Or.inr (by decide)

/-- After a write at the wrong offset has thrown, `Close` publishes the three bytes
written before it. -/
theorem writeHandle_throw_misplaced :
    ¬ ∀ (before : List HandleOp) (op : HandleOp) (later : List HandleOp), op.IsWrite →
      (∃ message, (handleStep (Mealy.final handleStep
        (openFile (ascii "s3://b/k") (.ok ()) .returned) before) op).2 = .error message) →
      (Mealy.final handleStep (openFile (ascii "s3://b/k") (.ok ()) .returned)
          (before ++ op :: later)).journal.commits =
        (Mealy.final handleStep (openFile (ascii "s3://b/k") (.ok ()) .returned)
          (before ++ [op])).journal.commits := by
  intro h
  have hpublished := h threeBytes misplacedWrite [.close (.ok ()) (.ok ())] trivial ⟨_, rfl⟩
  exact absurd hpublished (by decide)

end DuckdbOpendal
