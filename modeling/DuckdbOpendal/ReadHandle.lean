import DuckdbOpendal.Glob

/-!
# Read handles

The C++ side of a read: `OpenFile` for reading, the two `Read`s and `Seek`, over the
reader of `opendal/src/reader.rs`.  The two reads share the handle's position and end a
file differently, the positioned one with an error and the sequential one with a short
count.  Log calls are taken not to throw.

## Main Definitions

* `OdReader`, `odReaderRead` — the Rust reader, with the ranges it asked OpenDAL for
* `ReadHandle`, `readStep` — the handle and its operations
* `ContentFile`, `fileStep` — a file as its readers see it: content and cursor
* `ReadsFrom` — what OpenDAL's `read_into` answers over a content

## Main Results

* `odReaderRead_inside`, `odReaderRead_outside` — one read, inside the object or not
* `readStep_refines` — one operation
* `readHandle_refines` — every run of operations on an opened handle
-/

namespace DuckdbOpendal

/-! ## The Rust reader -/

/-- `OdReader`: the ranges its `opendal::Reader` was asked for, oldest first. -/
structure OdReader where
  ranges : List (ℕ × ℕ)
  deriving DecidableEq, Repr

/-- What `read_into` leaves in the buffer when it is asked for a range. -/
abbrev ReadInto := ℕ → ℕ → Outcome Bytes

/-- `od_reader_open`. -/
def odReaderOpen (op : OdOperator) (path : Bytes) (reader : Outcome Unit) :
    Except OdError OdReader := do
  require op.scheme op.cap.read (ascii "read")
  let _ ← requireCstr path "path is null or not UTF-8"
  match reader with
  | .ok () => .ok ⟨[]⟩
  | .err e => .error (setOpendalError e)
  | .panic => .error (setError .Panic (ascii "panic in od_reader_open"))

/-- `od_reader_read`, with the bytes it put into the buffer; it returns their number. -/
def odReaderRead (reader : OdReader) (offset len : ℕ) (hasBuffer : Bool) (readInto : ReadInto) :
    OdReader × Except OdError Bytes :=
  if hasBuffer = false ∧ len ≠ 0 then
    (reader, .error (setError .InvalidInput (ascii "null reader or buffer")))
  else if len = 0 then (reader, .ok [])
  else if isizeMax < len then
    (reader, .error (setError .InvalidInput
      (ascii "read length exceeds the platform slice limit")))
  else if 2 ^ 64 ≤ offset + len then
    (reader, .error (setError .InvalidInput (ascii "read range overflows u64")))
  else
    let stop := offset + len
    let reader := { reader with ranges := reader.ranges ++ [(offset, stop)] }
    match readInto offset stop with
    | .ok bytes =>
        if int64Max < bytes.length then
          (reader, .error (setError .Unexpected (ascii "read result exceeds i64")))
        else (reader, .ok bytes)
    | .err e => (reader, .error (setOpendalError e))
    | .panic => (reader, .error (setError .Panic (ascii "panic in od_reader_read")))

/-! ## The handle -/

/-- What an `int64_t` holds of an integer: its residue in two's complement. -/
def wrapInt64 (x : ℤ) : ℤ := Int.bmod x (2 ^ 64)

theorem wrapInt64_of_mem {x : ℤ} (hlow : -2 ^ 63 ≤ x) (hhigh : x < 2 ^ 63) : wrapInt64 x = x :=
  Int.bmod_eq_of_le (by omega) (by omega)

/-- `static_cast<int64_t>` of an unsigned number. -/
def toInt64 (n : U64) : ℤ := Int.bmod n.val (2 ^ 64)

theorem toInt64_of_lt {n : U64} (h : n.val < 2 ^ 63) : toInt64 n = n.val :=
  Int.bmod_eq_of_le (by omega) (by omega)

/-- `OpenDalFileHandle`, opened for reading. -/
structure ReadHandle where
  path : Bytes
  reader : Option OdReader
  fileSize : ℤ
  position : ℤ
  lastModifiedMs : ℤ
  deriving DecidableEq, Repr

/-- A call followed by `ThrowIfError`; without a code, the caller goes on with `unset`. -/
def orThrow {α : Type} (result : Except OdError α) (context : Bytes) (unset : α) :
    Except Bytes α :=
  match result with
  | .ok a => .ok a
  | .error err => (throwIfError err context).map fun _ => unset

theorem orThrow_ok {α : Type} (a : α) (context : Bytes) (unset : α) :
    orThrow (.ok a) context unset = .ok a := rfl

/-- `ThrowIfError` throws on every failed call. -/
theorem orThrow_error {α : Type} {err : OdError} (hcode : err.code ≠ .Ok) (context : Bytes)
    (unset : α) :
    orThrow (.error err) context unset = .error (context ++ ascii ": " ++ err.message) := by
  show (throwIfError err context).map _ = _
  rw [throwIfError, if_neg hcode]
  rfl

/-- The count a `Read` gets from `od_reader_read`, and what is in the buffer. -/
def readCount (result : Except OdError Bytes) (context : Bytes) : Except Bytes (ℤ × Bytes) :=
  orThrow (result.map fun bytes => (bytes.length, bytes)) context (-1, [])

namespace ReadHandle

/-- `Read(handle, buffer, nr_bytes, location)`: what is in the buffer, and how many. -/
def readAt (h : ReadHandle) (nrBytes : ℤ) (location : U64) (hasBuffer : Bool)
    (readInto : ReadInto) : ReadHandle × Except Bytes (ℤ × Bytes) :=
  if nrBytes < 0 then (h, .error (ascii "opendal: read: negative length: " ++ h.path))
  else if int64Max < location.val ∨ 2 ^ 64 - 1 - (location.val : ℤ) < nrBytes then
    (h, .error (ascii "opendal: read: range exceeds supported limits: " ++ h.path))
  else
  match h.reader with
  | none => (h, .error (ascii "opendal: read: handle is closed: " ++ h.path))
  | some reader =>
      let call := odReaderRead reader location.val nrBytes.toNat hasBuffer readInto
      let h := { h with reader := some call.1 }
      match readCount call.2 (ascii "opendal: read: " ++ h.path) with
      | .error message => (h, .error message)
      | .ok (n, bytes) =>
          if n ≠ nrBytes then
            (h, .error (ascii "opendal: read: short read at offset " ++
              decimalInt (toInt64 location) ++ ascii " (" ++ decimalInt n ++ ascii " of " ++
              decimalInt nrBytes ++ ascii " bytes): " ++ h.path))
          else ({ h with position := wrapInt64 (toInt64 location + n) }, .ok (n, bytes))

/-- `Read(handle, buffer, nr_bytes)`: the count it returns, and what is in the buffer.  The
`int64_t` difference and sum wrap, as compiled code does where they overflow. -/
def read (h : ReadHandle) (nrBytes : ℤ) (hasBuffer : Bool) (readInto : ReadInto) :
    ReadHandle × Except Bytes (ℤ × Bytes) :=
  if nrBytes < 0 then (h, .error (ascii "opendal: read: negative length: " ++ h.path))
  else
  match h.reader with
  | none => (h, .error (ascii "opendal: read: handle is closed: " ++ h.path))
  | some reader =>
      let remaining := wrapInt64 (h.fileSize - h.position)
      if remaining ≤ 0 then (h, .ok (0, []))
      else
        let toRead := if nrBytes < remaining then nrBytes else remaining
        -- A negative position, as an unsigned offset.
        let offset := (h.position % 2 ^ 64).toNat
        let call := odReaderRead reader offset toRead.toNat hasBuffer readInto
        let h := { h with reader := some call.1 }
        match readCount call.2 (ascii "opendal: read: " ++ h.path) with
        | .error message => (h, .error message)
        | .ok (n, bytes) => ({ h with position := wrapInt64 (h.position + n) }, .ok (n, bytes))

/-- `Seek`. -/
def seek (h : ReadHandle) (location : U64) : ReadHandle := { h with position := toInt64 location }

end ReadHandle

/-- `OdMetadata::empty`. -/
def OdMetadata.empty : OdMetadata := ⟨0, -1, false⟩

/-- `OpenFile` for reading; `operators` is what `OperatorFor` returns or throws. -/
def openForReading (registry : Registry) (operators : ResolvedUrl → Except Bytes OdOperator)
    (path : Bytes) (opened : Outcome Unit) : Except Bytes ReadHandle :=
  match parseUrl registry path with
  | none => .error (ascii "opendal: open: unrecognized URL: " ++ path)
  | some u => do
      let op ← operators u
      let metadata ← orThrow (odStat op u.path) (ascii "opendal: stat: " ++ path) .empty
      if metadata.isDir then
        .error (ascii "opendal: open: cannot open directory as file: " ++ path)
      else do
        let reader ← orThrow ((odReaderOpen op u.path opened).map some)
          (ascii "opendal: open: " ++ path) none
        if int64Max < metadata.contentLength.val then
          .error (ascii "opendal: open: file size exceeds signed 64-bit limit: " ++ path)
        else
          return ⟨path, reader, toInt64 metadata.contentLength, 0, metadata.lastModifiedMs⟩

/-- The operations on a read handle, each with OpenDAL's answers to the call it may make. -/
inductive ReadOp where
  | seek (location : U64)
  | readAt (nrBytes : ℤ) (location : U64) (hasBuffer : Bool) (readInto : ReadInto)
  | read (nrBytes : ℤ) (hasBuffer : Bool) (readInto : ReadInto)

/-- One operation, with its count and bytes or the message of the `IOException`. -/
def readStep (h : ReadHandle) : ReadOp → ReadHandle × Except Bytes (ℤ × Bytes)
  | .seek location => (h.seek location, .ok (0, []))
  | .readAt nrBytes location hasBuffer readInto => h.readAt nrBytes location hasBuffer readInto
  | .read nrBytes hasBuffer readInto => h.read nrBytes hasBuffer readInto

/-! ## A file as its readers see it -/

/-- A file: what it holds, and where the next sequential read starts. -/
structure ContentFile where
  content : Bytes
  cursor : ℕ
  deriving DecidableEq, Repr

/-- What a reader asks of a file. -/
inductive FileOp where
  | seek (location : ℕ)
  | readAt (nrBytes : ℤ) (location : ℕ)
  | read (nrBytes : ℤ)

/-- The bytes of a range. -/
def slice (content : Bytes) (offset len : ℕ) : Bytes := (content.drop offset).take len

theorem length_slice {content : Bytes} {offset len : ℕ} (h : offset + len ≤ content.length) :
    (slice content offset len).length = len := by
  rw [slice, List.length_take, List.length_drop]
  omega

@[simp] theorem slice_zero (content : Bytes) (offset : ℕ) : slice content offset 0 = [] :=
  List.take_zero

/-- One request, with the bytes read or `none` for an error.  A positioned read gets its
whole range or fails; a sequential one gets what is left. -/
def fileStep (f : ContentFile) : FileOp → ContentFile × Option Bytes
  | .seek location => ({ f with cursor := location }, some [])
  | .readAt nrBytes location =>
      if 0 ≤ nrBytes ∧ location < 2 ^ 63 ∧
          (nrBytes = 0 ∨ location + nrBytes ≤ f.content.length) then
        ({ f with cursor := location + nrBytes.toNat },
          some (slice f.content location nrBytes.toNat))
      else (f, none)
  | .read nrBytes =>
      if 0 ≤ nrBytes then
        let count := min nrBytes.toNat (f.content.length - f.cursor)
        ({ f with cursor := f.cursor + count }, some (slice f.content f.cursor count))
      else (f, none)

/-! ## What a handle shows of a file -/

/-- OpenDAL reads an object that holds this content: a non-empty range inside it exactly,
any other with fewer bytes or an error. -/
def ReadsFrom (content : Bytes) (readInto : ReadInto) : Prop :=
  ∀ offset stop, offset < stop →
    (stop ≤ content.length → readInto offset stop = .ok (slice content offset (stop - offset))) ∧
    (content.length < stop → ∀ bytes, readInto offset stop = .ok bytes →
      bytes.length < stop - offset)

/-- The operation has a buffer, OpenDAL reads the content, and a seek stays below `2 ^ 63`. -/
def ReadOp.Faithful (content : Bytes) : ReadOp → Prop
  | .seek location => location.val < 2 ^ 63
  | .readAt _ _ hasBuffer readInto | .read _ hasBuffer readInto =>
      hasBuffer = true ∧ ReadsFrom content readInto

/-- The operation without OpenDAL's answers. -/
def ReadOp.request : ReadOp → FileOp
  | .seek location => .seek location.val
  | .readAt nrBytes location _ _ => .readAt nrBytes location.val
  | .read nrBytes _ _ => .read nrBytes

/-- A handle shows a file: it is open, and knows the size and the cursor, both of which an
`int64_t` holds. -/
structure Shows (h : ReadHandle) (f : ContentFile) : Prop where
  reader : h.reader.isSome = true
  size : h.fileSize = f.content.length
  position : h.position = f.cursor
  limit : f.content.length < 2 ^ 63
  cursor : f.cursor < 2 ^ 63

/-- A handle answers as the file does: these bytes and their number, or an exception. -/
def Agrees : Except Bytes (ℤ × Bytes) → Option Bytes → Prop
  | .ok (n, bytes), some expected => n = expected.length ∧ bytes = expected
  | .error _, none => True
  | _, _ => False

/-! ## One call of the reader -/

section Reader

variable (reader : OdReader) {content : Bytes} {offset len : ℕ} {hasBuffer : Bool}
  {readInto : ReadInto}

/-- No failed call reads as success. -/
theorem odReaderRead_code {err : OdError}
    (h : (odReaderRead reader offset len hasBuffer readInto).2 = .error err) :
    err.code ≠ .Ok := by
  unfold odReaderRead at h
  split at h
  · cases h
    simp
  split at h
  · cases h
  split at h
  · cases h
    simp
  split at h
  · cases h
    simp
  dsimp only at h
  split at h
  · split at h
    · cases h
      simp
    · cases h
  · cases h
    exact opendalErrorCode_ne_ok _
  · cases h
    simp

/-- Nothing is asked of OpenDAL for an empty range. -/
theorem odReaderRead_zero :
    odReaderRead reader offset 0 hasBuffer readInto = (reader, .ok []) := by
  unfold odReaderRead
  rw [if_neg fun h => h.2 rfl, if_pos rfl]

variable (hreads : ReadsFrom content readInto) (hlimit : content.length < 2 ^ 63)
include hreads

include hlimit in
/-- **A range inside the object** is read exactly. -/
theorem odReaderRead_inside (hlen : 0 < len) (hinside : offset + len ≤ content.length) :
    (odReaderRead reader offset len true readInto).2 = .ok (slice content offset len) := by
  have hread := (hreads offset (offset + len) (by omega)).1 hinside
  rw [Nat.add_sub_cancel_left] at hread
  have hcount : ¬ int64Max < (slice content offset len).length := by
    rw [length_slice hinside, int64Max]
    omega
  unfold odReaderRead
  rw [if_neg (by simp), if_neg (by omega), if_neg (by rw [isizeMax]; omega), if_neg (by omega)]
  simp only [hread, if_neg hcount]

/-- **A range that leaves the object** is never filled. -/
theorem odReaderRead_outside (hlen : 0 < len) (houtside : content.length < offset + len)
    {bytes : Bytes} (h : (odReaderRead reader offset len true readInto).2 = .ok bytes) :
    bytes.length < len := by
  have hread := (hreads offset (offset + len) (by omega)).2 houtside
  rw [Nat.add_sub_cancel_left] at hread
  unfold odReaderRead at h
  rw [if_neg (by simp), if_neg (by omega)] at h
  split at h
  · cases h
  split at h
  · cases h
  simp only at h
  split at h
  · rename_i bytes' hanswer
    split at h
    · cases h
    · cases h
      exact hread bytes hanswer
  · cases h
  · cases h

end Reader

theorem readCount_error {err : OdError} (hcode : err.code ≠ .Ok) (context : Bytes) :
    readCount (.error err) context = .error (context ++ ascii ": " ++ err.message) :=
  orThrow_error hcode context _

/-! ## One operation -/

section Step

variable {h : ReadHandle} {f : ContentFile} (hshows : Shows h f)
include hshows

theorem shows_moved (reader : OdReader) {position : ℤ} {cursor : ℕ} (hcursor : cursor < 2 ^ 63)
    (hposition : position = cursor) :
    Shows { h with reader := some reader, position := wrapInt64 position }
      { f with cursor := cursor } := by
  have hwrap : wrapInt64 position = position := wrapInt64_of_mem (by omega) (by omega)
  exact ⟨rfl, hshows.size, hwrap.trans hposition, hshows.limit, hcursor⟩

/-- **The positioned `Read`** fills the buffer and moves the position, or throws and leaves
it. -/
theorem readAt_refines (nrBytes : ℤ) (location : U64) {readInto : ReadInto}
    (hreads : ReadsFrom f.content readInto) :
    Shows (h.readAt nrBytes location true readInto).1
        (fileStep f (.readAt nrBytes location.val)).1 ∧
      Agrees (h.readAt nrBytes location true readInto).2
        (fileStep f (.readAt nrBytes location.val)).2 := by
  obtain ⟨reader, hreader⟩ := Option.isSome_iff_exists.mp hshows.reader
  have hlimit := hshows.limit
  unfold ReadHandle.readAt
  by_cases hneg : nrBytes < 0
  · rw [if_pos hneg, fileStep, if_neg fun hok => absurd hok.1 (by omega)]
    exact ⟨hshows, trivial⟩
  rw [if_neg hneg]
  by_cases hrange : int64Max < location.val ∨ 2 ^ 64 - 1 - (location.val : ℤ) < nrBytes
  · rw [if_pos hrange, fileStep, if_neg (by simp only [int64Max] at hrange; omega)]
    exact ⟨hshows, trivial⟩
  rw [if_neg hrange, hreader]
  have hlocation : location.val < 2 ^ 63 := by
    simp only [int64Max] at hrange
    omega
  have hint := toInt64_of_lt hlocation
  simp only
  rcases Int.eq_ofNat_of_zero_le (Int.not_lt.mp hneg) with ⟨len, rfl⟩
  rw [Int.toNat_natCast]
  rcases Nat.eq_zero_or_pos len with rfl | hlen
  · -- An empty range is read anywhere.
    rw [odReaderRead_zero, fileStep, if_pos ⟨by omega, hlocation, Or.inl rfl⟩]
    refine ⟨shows_moved hshows reader (by simpa using hlocation) ?_, ?_⟩
    · rw [hint]
      rfl
    · simp [readCount, orThrow, Except.map, Agrees]
  by_cases hinside : location.val + len ≤ f.content.length
  · rw [fileStep, if_pos ⟨by omega, hlocation, Or.inr (by omega)⟩]
    have hcall := odReaderRead_inside reader hreads hlimit hlen hinside
    have hcount := length_slice hinside
    simp only [hcall, readCount, orThrow, Except.map, hcount, ne_eq, not_true_eq_false, if_false,
      Int.toNat_natCast]
    refine ⟨shows_moved hshows _ (by omega) ?_, ?_, rfl⟩
    · rw [hint]
      push_cast
      rfl
    · rw [hcount]
  · rw [fileStep, if_neg (by omega)]
    -- Outside the object the reader fails or comes back short; both throw.
    cases hcall : (odReaderRead reader location.val len true readInto).2 with
    | error err =>
        rw [readCount_error (odReaderRead_code reader hcall)]
        exact ⟨⟨rfl, hshows.size, hshows.position, hlimit, hshows.cursor⟩, trivial⟩
    | ok bytes =>
        have hshort := odReaderRead_outside reader hreads hlen (by omega) hcall
        have hne : ((bytes.length : ℕ) : ℤ) ≠ len := by omega
        simp only [readCount, orThrow, Except.map, if_pos hne]
        exact ⟨⟨rfl, hshows.size, hshows.position, hlimit, hshows.cursor⟩, trivial⟩

/-- **The sequential `Read`** reads on from the position, up to the end of the file. -/
theorem read_refines (nrBytes : ℤ) {readInto : ReadInto}
    (hreads : ReadsFrom f.content readInto) :
    Shows (h.read nrBytes true readInto).1 (fileStep f (.read nrBytes)).1 ∧
      Agrees (h.read nrBytes true readInto).2 (fileStep f (.read nrBytes)).2 := by
  obtain ⟨reader, hreader⟩ := Option.isSome_iff_exists.mp hshows.reader
  have hlimit := hshows.limit
  unfold ReadHandle.read
  by_cases hneg : nrBytes < 0
  · rw [if_pos hneg, fileStep, if_neg (by omega)]
    exact ⟨hshows, trivial⟩
  rw [if_neg hneg, fileStep, if_pos (Int.not_lt.mp hneg), hreader, hshows.size, hshows.position]
  have hcursor := hshows.cursor
  have hremaining : wrapInt64 ((f.content.length : ℤ) - f.cursor) = f.content.length - f.cursor :=
    wrapInt64_of_mem (by omega) (by omega)
  simp only [hremaining]
  by_cases hend : (f.content.length : ℤ) - f.cursor ≤ 0
  · rw [if_pos hend]
    have hcount : min nrBytes.toNat (f.content.length - f.cursor) = 0 := by omega
    rw [hcount, slice_zero]
    exact ⟨⟨by rw [hreader]; rfl, hshows.size, hshows.position, hlimit, hcursor⟩, rfl, rfl⟩
  rw [if_neg hend]
  -- What is read lies inside the object, from the cursor on.
  have hoffset : ((f.cursor : ℤ) % 2 ^ 64).toNat = f.cursor := by omega
  have htoRead : (if nrBytes < (f.content.length : ℤ) - f.cursor then nrBytes
      else (f.content.length : ℤ) - f.cursor).toNat =
        min nrBytes.toNat (f.content.length - f.cursor) := by
    split <;> omega
  rw [hoffset, htoRead]
  generalize hcount : min nrBytes.toNat (f.content.length - f.cursor) = count
  have hinside : f.cursor + count ≤ f.content.length := by omega
  have hcall : (odReaderRead reader f.cursor count true readInto).2 =
      .ok (slice f.content f.cursor count) := by
    rcases Nat.eq_zero_or_pos count with rfl | hpos
    · rw [odReaderRead_zero, slice_zero]
    · exact odReaderRead_inside reader hreads hlimit hpos hinside
  simp only [hcall, readCount, orThrow, Except.map]
  have hmoved : wrapInt64 ((f.cursor : ℤ) + (slice f.content f.cursor count).length) =
      ((f.cursor + count : ℕ) : ℤ) := by
    rw [length_slice hinside, wrapInt64_of_mem (by omega) (by omega)]
    push_cast
    rfl
  have hnext : f.cursor + count < 2 ^ 63 := by omega
  exact ⟨⟨rfl, rfl, by simp only [hmoved], hlimit, hnext⟩, rfl, rfl⟩

/-- **One operation** on a handle answers and moves as the file does. -/
theorem readStep_refines {op : ReadOp} (hop : op.Faithful f.content) :
    Shows (readStep h op).1 (fileStep f op.request).1 ∧
      Agrees (readStep h op).2 (fileStep f op.request).2 := by
  cases op with
  | seek location =>
      have hposition := toInt64_of_lt hop
      simp only [readStep, ReadHandle.seek, ReadOp.request, fileStep, hposition]
      exact ⟨⟨hshows.reader, hshows.size, rfl, hshows.limit, hop⟩, rfl, rfl⟩
  | readAt nrBytes location hasBuffer readInto =>
      obtain ⟨rfl, hreads⟩ := hop
      exact readAt_refines hshows nrBytes location hreads
  | read nrBytes hasBuffer readInto =>
      obtain ⟨rfl, hreads⟩ := hop
      exact read_refines hshows nrBytes hreads

end Step

/-! ## Runs of an opened handle -/

@[simp] theorem content_fileStep (f : ContentFile) (op : FileOp) :
    (fileStep f op).1.content = f.content := by
  cases op with
  | seek location => rfl
  | readAt nrBytes location =>
      rw [fileStep]
      split <;> rfl
  | read nrBytes =>
      rw [fileStep]
      split <;> rfl

/-- Failing to open a reader is an error with a code. -/
theorem odReaderOpen_code {op : OdOperator} {path : Bytes} {opened : Outcome Unit} {err : OdError}
    (h : odReaderOpen op path opened = .error err) : err.code ≠ .Ok := by
  unfold odReaderOpen require requireCstr at h
  split at h
  · split at h
    · rw [ok_bind, ok_bind] at h
      cases opened with
      | ok _ => cases h
      | err e =>
          cases h
          exact opendalErrorCode_ne_ok e
      | panic =>
          cases h
          simp
    · cases h
      simp
  · cases h
    simp

variable {registry : Registry} {operators : ResolvedUrl → Except Bytes OdOperator}

/-- **An opened handle** shows the file from its start, of the size `stat` reported. -/
theorem openForReading_shows {path : Bytes} {opened : Outcome Unit} {h : ReadHandle}
    {u : ResolvedUrl} {op : OdOperator} {metadata : OdMetadata} {content : Bytes}
    (hurl : parseUrl registry path = some u) (hop : operators u = .ok op)
    (hstat : odStat op u.path = .ok metadata) (hsize : metadata.contentLength.val = content.length)
    (hopen : openForReading registry operators path opened = .ok h) :
    Shows h ⟨content, 0⟩ := by
  unfold openForReading at hopen
  simp only [hurl, hop, ok_bind, hstat, orThrow] at hopen
  split at hopen
  · cases hopen
  cases hreader : odReaderOpen op u.path opened with
  | error err =>
      simp only [hreader, Except.map, throwIfError, if_neg (odReaderOpen_code hreader)] at hopen
      cases hopen
  | ok reader =>
      simp only [hreader, Except.map, ok_bind] at hopen
      split at hopen
      · cases hopen
      · rename_i hlimit
        cases hopen
        have hlength : content.length < 2 ^ 63 := by
          simp only [int64Max] at hlimit
          omega
        constructor
        · rfl
        · simp only [toInt64_of_lt (n := metadata.contentLength) (by omega), hsize]
        · rfl
        · exact hlength
        · exact Nat.two_pow_pos 63

/-- **A read handle is a file with a cursor**: over every run of seeks and reads, each
operation returns the file's bytes and their number, or throws where the file's request
fails, and the position follows the cursor. -/
theorem readHandle_refines {path : Bytes} {opened : Outcome Unit} {h : ReadHandle}
    {u : ResolvedUrl} {op : OdOperator} {metadata : OdMetadata} {content : Bytes}
    (hurl : parseUrl registry path = some u) (hop : operators u = .ok op)
    (hstat : odStat op u.path = .ok metadata) (hsize : metadata.contentLength.val = content.length)
    (hopen : openForReading registry operators path opened = .ok h) {ops : List ReadOp}
    (hops : ∀ op ∈ ops, op.Faithful content) :
    List.Forall₂ Agrees (Mealy.answers readStep h ops)
        (Mealy.answers fileStep ⟨content, 0⟩ (ops.map ReadOp.request)) ∧
      Shows (Mealy.final readStep h ops)
        (Mealy.final fileStep ⟨content, 0⟩ (ops.map ReadOp.request)) := by
  have hstart : Shows h ⟨content, 0⟩ ∧ (⟨content, 0⟩ : ContentFile).content = content :=
    ⟨openForReading_shows hurl hop hstat hsize hopen, rfl⟩
  have hruns := Mealy.simulates readStep fileStep ReadOp.request
    (fun h f => Shows h f ∧ f.content = content) Agrees (ReadOp.Faithful content) ?_ hstart hops
  · exact ⟨hruns.1, hruns.2.1⟩
  · rintro h f op ⟨hshows, rfl⟩ hop
    obtain ⟨hnext, hanswer⟩ := readStep_refines hshows hop
    exact ⟨⟨hnext, content_fileStep f op.request⟩, hanswer⟩

/-- A service that reads a content, and refuses what leaves it. -/
def contentReader (content : Bytes) : ReadInto := fun offset stop =>
  if stop ≤ content.length then .ok (slice content offset (stop - offset))
  else .err ⟨.RangeNotSatisfied, ascii "range not satisfied"⟩

theorem contentReader_readsFrom (content : Bytes) : ReadsFrom content (contentReader content) := by
  intro offset stop _
  constructor
  · intro hinside
    exact if_pos hinside
  · intro houtside bytes h
    rw [contentReader, if_neg (by omega)] at h
    cases h

/-- A seek, a positioned read past the end, and a sequential one, on a file of three bytes. -/
theorem readHandle_refines_three :
    ∃ h, openForReading defaultRegistry
        (fun _ => .ok (storeOperator .all [fileEntry (ascii "a") (by decide) 3]))
        (ascii "memory://b/a") (.ok ()) = .ok h ∧
      List.Forall₂ Agrees
        (Mealy.answers readStep h
          [.seek 1, .readAt 3 1 true (contentReader (ascii "xyz")),
            .read 5 true (contentReader (ascii "xyz"))])
        [some [], none, some (ascii "yz")] := by
  have hopen : openForReading defaultRegistry
      (fun _ => .ok (storeOperator .all [fileEntry (ascii "a") (by decide) 3]))
      (ascii "memory://b/a") (.ok ()) =
        .ok ⟨ascii "memory://b/a", some ⟨[]⟩, 3, 0, -1⟩ := by decide
  have hurl : parseUrl defaultRegistry (ascii "memory://b/a") =
      some ⟨ascii "memory", ascii "b", ascii "a"⟩ := by decide
  have hops : ∀ op ∈ [ReadOp.seek 1, .readAt 3 1 true (contentReader (ascii "xyz")),
      .read 5 true (contentReader (ascii "xyz"))], op.Faithful (ascii "xyz") := by
    simpa [ReadOp.Faithful] using contentReader_readsFrom (ascii "xyz")
  exact ⟨_, hopen, (readHandle_refines hurl rfl rfl rfl hopen hops).1⟩

end DuckdbOpendal
