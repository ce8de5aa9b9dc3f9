import DuckdbOpendal.ReadHandle

/-!
# Seeking and reading on

A handle keeps its position as an `int64_t`, and DuckDB seeks with an unsigned `idx_t`.
`Seek` converts without a check, so a location from `2 ^ 63` on becomes a negative
position, from which the remaining length of a sequential `Read` overflows or lies beyond the
end of the file.

## Main Definitions

* `signedResults` — the results of the signed operations of a call
* `InBounds` — what a call should keep to

## Main Results

* `readHandle_inBounds_iff` — which runs of seeks and reads keep to it
-/

namespace DuckdbOpendal

/-- `SeekPosition`. -/
def ReadHandle.seekPosition (h : ReadHandle) : ℤ := h.position % 2 ^ 64

/-- An `int64_t`. -/
def IsInt64 (x : ℤ) : Prop := -2 ^ 63 ≤ x ∧ x < 2 ^ 63

instance (x : ℤ) : Decidable (IsInt64 x) := inferInstanceAs (Decidable (_ ∧ _))

/-- The results of the `int64_t` additions and subtractions of a call, in the integers: what
the call goes on with is their `wrapInt64`. -/
def signedResults (h : ReadHandle) : ReadOp → List ℤ
  | .seek _ => []
  | .readAt nrBytes location hasBuffer readInto =>
      match (h.readAt nrBytes location hasBuffer readInto).2 with
      | .error _ => []
      | .ok answer => [toInt64 location + answer.1]
  | .read nrBytes hasBuffer readInto =>
      if nrBytes < 0 ∨ h.reader = none then []
      else
        let remaining := h.fileSize - h.position
        if wrapInt64 remaining ≤ 0 then [remaining]
        else
          match (h.read nrBytes hasBuffer readInto).2 with
          | .error _ => [remaining]
          | .ok answer => [remaining, h.position + answer.1]

/-- A sequential `Read` at or beyond the end of the file asks for nothing and returns 0; a
negative length is refused there as everywhere. -/
def EndsThere (h : ReadHandle) : ReadOp → Prop
  | .read nrBytes hasBuffer readInto => h.fileSize ≤ h.seekPosition →
      h.read nrBytes hasBuffer readInto =
        (h, if nrBytes < 0 then .error (ascii "opendal: read: negative length: " ++ h.path)
          else .ok (0, []))
  | _ => True

/-- **What a call should keep to**: the position is not negative afterwards, no signed
operation overflows, and nothing is read at or beyond the end of the file. -/
structure InBounds (h : ReadHandle) (op : ReadOp) : Prop where
  position : 0 ≤ (readStep h op).1.position
  noOverflow : ∀ x ∈ signedResults h op, IsInt64 x
  endOfFile : EndsThere h op

/-- OpenDAL reads no more than it is asked for. -/
def ReadsWithin (readInto : ReadInto) : Prop :=
  ∀ offset stop bytes, readInto offset stop = .ok bytes → bytes.length ≤ stop - offset

/-- A seek or a sequential read. -/
def ReadOp.Sequential : ReadOp → Prop
  | .seek _ => True
  | .readAt _ _ _ _ => False
  | .read _ _ readInto => ReadsWithin readInto

/-- A handle on an open file whose size and position are those of a file. -/
structure Positioned (h : ReadHandle) : Prop where
  reader : h.reader.isSome = true
  size : 0 ≤ h.fileSize ∧ h.fileSize < 2 ^ 63
  position : 0 ≤ h.position ∧ h.position < 2 ^ 63

/-- A location that keeps its value as a position. -/
def ReadOp.SeeksBelow : ReadOp → Prop
  | .seek location => location.val < 2 ^ 63
  | _ => True

theorem bmod_nonneg_iff {n : ℕ} (hlt : n < 2 ^ 64) : 0 ≤ Int.bmod n (2 ^ 64) ↔ n < 2 ^ 63 := by
  rw [Int.bmod_eq_emod]
  constructor
  · intro h
    split at h <;> omega
  · intro h
    rw [if_neg] <;> omega

theorem toInt64_nonneg_iff (n : U64) : 0 ≤ toInt64 n ↔ n.val < 2 ^ 63 :=
  bmod_nonneg_iff n.isLt

@[simp] theorem position_readStep_seek (h : ReadHandle) (location : U64) :
    (readStep h (.seek location)).1.position = toInt64 location := by
  simp only [readStep, ReadHandle.seek]

/-! ## One read -/

/-- A read into a buffer fills no more than the buffer. -/
theorem odReaderRead_within {reader : OdReader} {offset len : ℕ} {hasBuffer : Bool}
    {readInto : ReadInto} (hwithin : ReadsWithin readInto) {bytes : Bytes}
    (h : (odReaderRead reader offset len hasBuffer readInto).2 = .ok bytes) :
    bytes.length ≤ len := by
  unfold odReaderRead at h
  split at h
  · cases h
  split at h
  · cases h
    exact Nat.zero_le len
  split at h
  · cases h
  split at h
  · cases h
  simp only at h
  split at h
  · rename_i bytes' hanswer
    split at h
    · cases h
    · cases h
      have hle := hwithin _ _ _ hanswer
      omega
  · cases h
  · cases h

section Step

variable {h : ReadHandle} (hpos : Positioned h)
include hpos

/-- The remaining length of a handle in range does not overflow. -/
theorem remaining_of_positioned :
    wrapInt64 (h.fileSize - h.position) = h.fileSize - h.position := by
  have hsize := hpos.size
  have hposition := hpos.position
  exact wrapInt64_of_mem (by omega) (by omega)

/-- **The sequential `Read` of a handle in range** throws and stays, or moves on by no more
than what is left of the file. -/
theorem read_cases (nrBytes : ℤ) (hasBuffer : Bool) {readInto : ReadInto}
    (hwithin : ReadsWithin readInto) {h' : ReadHandle} {answer : Except Bytes (ℤ × Bytes)}
    (hcall : h.read nrBytes hasBuffer readInto = (h', answer)) :
    h'.fileSize = h.fileSize ∧ h'.reader.isSome = true ∧
      ((∃ message, answer = .error message) ∧ h'.position = h.position ∨
        ∃ n bytes, answer = .ok (n, bytes) ∧ 0 ≤ n ∧ (0 < n → n ≤ h.fileSize - h.position) ∧
          h'.position = h.position + n) := by
  obtain ⟨reader, hreader⟩ := Option.isSome_iff_exists.mp hpos.reader
  have hsize := hpos.size
  have hposition := hpos.position
  unfold ReadHandle.read at hcall
  by_cases hneg : nrBytes < 0
  · rw [if_pos hneg] at hcall
    cases hcall
    exact ⟨rfl, hpos.reader, Or.inl ⟨⟨_, rfl⟩, rfl⟩⟩
  rw [if_neg hneg, hreader] at hcall
  simp only [remaining_of_positioned hpos] at hcall
  by_cases hend : h.fileSize - h.position ≤ 0
  · rw [if_pos hend] at hcall
    cases hcall
    exact ⟨rfl, hpos.reader, Or.inr ⟨0, [], rfl, le_refl _, fun h0 => absurd h0 (lt_irrefl _),
      (Int.add_zero _).symm⟩⟩
  rw [if_neg hend] at hcall
  generalize htoRead : (if nrBytes < h.fileSize - h.position then nrBytes
    else h.fileSize - h.position) = toRead at hcall
  have hle : toRead ≤ h.fileSize - h.position := by
    rw [← htoRead]
    split <;> omega
  cases hread : (odReaderRead reader (h.position % 2 ^ 64).toNat toRead.toNat hasBuffer
      readInto).2 with
  | error err =>
      rw [hread, readCount_error (odReaderRead_code reader hread)] at hcall
      cases hcall
      exact ⟨rfl, rfl, Or.inl ⟨⟨_, rfl⟩, rfl⟩⟩
  | ok bytes =>
      have hcount := odReaderRead_within hwithin hread
      simp only [hread, readCount, orThrow, Except.map] at hcall
      cases hcall
      have hmoved : wrapInt64 (h.position + bytes.length) = h.position + bytes.length :=
        wrapInt64_of_mem (by omega) (by omega)
      exact ⟨rfl, rfl, Or.inr ⟨_, _, rfl, Int.natCast_nonneg _, fun _ => by omega,
        by simp only [hmoved]⟩⟩

theorem positioned_seek {location : U64} (hlocation : location.val < 2 ^ 63) :
    Positioned (h.seek location) := by
  have hnonneg := (toInt64_nonneg_iff location).mpr hlocation
  have hvalue := toInt64_of_lt hlocation
  obtain ⟨hreader, hsize, -⟩ := hpos
  unfold ReadHandle.seek
  generalize toInt64 location = position at hnonneg hvalue ⊢
  have hposition : position < 2 ^ 63 := by omega
  exact ⟨hreader, hsize, hnonneg, hposition⟩

theorem positioned_read (nrBytes : ℤ) (hasBuffer : Bool) {readInto : ReadInto}
    (hwithin : ReadsWithin readInto) : Positioned (h.read nrBytes hasBuffer readInto).1 := by
  have hfile := hpos.size
  have hstart := hpos.position
  generalize hcall : h.read nrBytes hasBuffer readInto = call
  obtain ⟨hsize, hreader, hmoved⟩ := read_cases hpos nrBytes hasBuffer hwithin hcall
  constructor
  · exact hreader
  · rw [hsize]
    exact hfile
  · rcases hmoved with ⟨-, hstays⟩ | ⟨n, bytes, -, hnonneg, hle, hmoves⟩
    · rw [hstays]
      exact hstart
    · rw [hmoves]
      omega

/-- The results of a sequential `Read` in range are an `int64_t`'s. -/
theorem isInt64_signedResults_read (nrBytes : ℤ) (hasBuffer : Bool) {readInto : ReadInto}
    (hwithin : ReadsWithin readInto) :
    ∀ x ∈ signedResults h (.read nrBytes hasBuffer readInto), IsInt64 x := by
  have hsize := hpos.size
  have hposition := hpos.position
  have hremaining : IsInt64 (h.fileSize - h.position) := ⟨by omega, by omega⟩
  intro x hx
  simp only [signedResults] at hx
  generalize hcall : h.read nrBytes hasBuffer readInto = call at hx
  obtain ⟨-, -, hmoved⟩ := read_cases hpos nrBytes hasBuffer hwithin hcall
  split at hx
  · cases hx
  split at hx
  · rw [List.mem_singleton] at hx
    rw [hx]
    exact hremaining
  rcases hmoved with ⟨⟨message, herror⟩, -⟩ | ⟨n, bytes, hok, hnonneg, hle, -⟩
  · simp only [herror, List.mem_singleton] at hx
    rw [hx]
    exact hremaining
  · simp only [hok, List.mem_cons, List.not_mem_nil, or_false] at hx
    rcases hx with rfl | rfl
    · exact hremaining
    · exact ⟨by omega, by omega⟩

/-- At the end of the file nothing is asked for. -/
theorem endsThere_read (nrBytes : ℤ) (hasBuffer : Bool) (readInto : ReadInto) :
    EndsThere h (.read nrBytes hasBuffer readInto) := by
  intro hend
  have hposition := hpos.position
  have hseek : h.seekPosition = h.position := Int.emod_eq_of_lt (by omega) (by omega)
  rw [hseek] at hend
  obtain ⟨reader, hreader⟩ := Option.isSome_iff_exists.mp hpos.reader
  unfold ReadHandle.read
  by_cases hneg : nrBytes < 0
  · rw [if_pos hneg, if_pos hneg]
  · rw [if_neg hneg, if_neg hneg, hreader]
    simp only [remaining_of_positioned hpos, if_pos (show h.fileSize - h.position ≤ 0 by omega)]

/-- **One call** of a handle in range keeps to what it should, and leaves the handle in
range, unless it seeks too far. -/
theorem readStep_inBounds {op : ReadOp} (hop : op.Sequential) (hbelow : op.SeeksBelow) :
    InBounds h op ∧ Positioned (readStep h op).1 := by
  cases op with
  | seek location =>
      have hnext := positioned_seek hpos hbelow
      exact ⟨⟨hnext.position.1, fun x hx => absurd hx List.not_mem_nil, trivial⟩, hnext⟩
  | readAt nrBytes location hasBuffer readInto => exact absurd hop id
  | read nrBytes hasBuffer readInto =>
      have hnext := positioned_read hpos nrBytes hasBuffer hop
      exact ⟨⟨hnext.position.1, isInt64_signedResults_read hpos nrBytes hasBuffer hop,
        endsThere_read hpos nrBytes hasBuffer readInto⟩, hnext⟩

end Step

/-! ## Runs -/

/-- An open reader is passed on, and a reader that failed to open throws. -/
theorem orThrow_odReaderOpen {op : OdOperator} {path context : Bytes} {opened : Outcome Unit}
    {reader : Option OdReader}
    (h : orThrow ((odReaderOpen op path opened).map some) context none = .ok reader) :
    reader.isSome = true := by
  cases hopen : odReaderOpen op path opened with
  | ok r =>
      rw [hopen] at h
      cases h
      rfl
  | error err =>
      rw [hopen] at h
      simp only [Except.map, orThrow, throwIfError, if_neg (odReaderOpen_code hopen)] at h
      cases h

variable {registry : Registry} {operators : ResolvedUrl → Except Bytes OdOperator} {path : Bytes}
  {opened : Outcome Unit} {h : ReadHandle}

/-- **An opened handle** is in range. -/
theorem openForReading_positioned
    (hopen : openForReading registry operators path opened = .ok h) : Positioned h := by
  unfold openForReading at hopen
  split at hopen
  · cases hopen
  rename_i u hurl
  obtain ⟨op, -, hopen⟩ := bind_eq_ok.mp hopen
  obtain ⟨metadata, -, hopen⟩ := bind_eq_ok.mp hopen
  split at hopen
  · cases hopen
  obtain ⟨reader, hreader, hopen⟩ := bind_eq_ok.mp hopen
  split at hopen
  · cases hopen
  rename_i hlimit
  have hlength : metadata.contentLength.val < 2 ^ 63 := by
    simp only [int64Max] at hlimit
    omega
  have hnonneg := (toInt64_nonneg_iff metadata.contentLength).mpr hlength
  have hvalue := toInt64_of_lt hlength
  generalize toInt64 metadata.contentLength = size at hopen hnonneg hvalue
  have hsize : size < 2 ^ 63 := by omega
  have hstart : (0 : ℤ) < 2 ^ 63 := by norm_num
  cases hopen
  exact ⟨orThrow_odReaderOpen hreader, ⟨hnonneg, hsize⟩, ⟨le_refl _, hstart⟩⟩

/-- **Which runs of seeks and reads keep to the range**: those whose seeks all stay below
`2 ^ 63`.  Then no position is negative, no signed operation overflows and nothing is read
from the end of the file on; a seek any further leaves a negative position behind. -/
theorem readHandle_inBounds_iff (hopen : openForReading registry operators path opened = .ok h)
    {ops : List ReadOp} (hops : ∀ op ∈ ops, op.Sequential) :
    Mealy.Along readStep InBounds h ops ↔ ∀ op ∈ ops, op.SeeksBelow := by
  constructor
  · intro halong op hop
    obtain ⟨h', hbounds⟩ := halong.exists_of_mem readStep hop
    cases op with
    | seek location =>
        have hposition := hbounds.position
        rw [position_readStep_seek] at hposition
        exact (toInt64_nonneg_iff location).mp hposition
    | readAt _ _ _ _ => trivial
    | read _ _ _ => trivial
  · intro hbelow
    refine Mealy.along_of_invariant readStep Positioned
      (fun op => op.Sequential ∧ op.SeeksBelow) ?_ (openForReading_positioned hopen)
      fun op hop => ⟨hops op hop, hbelow op hop⟩
    rintro h op hpos ⟨hsequential, hbelow⟩
    exact readStep_inBounds hpos hsequential hbelow

theorem contentReader_readsWithin (content : Bytes) : ReadsWithin (contentReader content) := by
  intro offset stop bytes h
  unfold contentReader at h
  split at h
  · cases h
    rw [slice, List.length_take]
    exact min_le_left _ _
  · cases h

/-- A seek to the end of a file of three bytes and a read there. -/
theorem readHandle_inBounds_end :
    ∃ h, openForReading defaultRegistry
        (fun _ => .ok (storeOperator .all [fileEntry (ascii "a") (by decide) 3]))
        (ascii "memory://b/a") (.ok ()) = .ok h ∧
      Mealy.Along readStep InBounds h [.seek 3, .read 5 true (contentReader (ascii "xyz"))] := by
  have hopen : openForReading defaultRegistry
      (fun _ => .ok (storeOperator .all [fileEntry (ascii "a") (by decide) 3]))
      (ascii "memory://b/a") (.ok ()) =
        .ok ⟨ascii "memory://b/a", some ⟨[]⟩, 3, 0, -1⟩ := by decide
  refine ⟨_, hopen, (readHandle_inBounds_iff hopen ?_).mpr ?_⟩
  · simpa [ReadOp.Sequential] using contentReader_readsWithin (ascii "xyz")
  · simp [ReadOp.SeeksBelow]

/-- Two seeks on that file.  From `2 ^ 63` on the position is negative and the remaining length
of the next read overflows; it wraps below zero, and the read ends there.  From `2 ^ 64 - 5` on
the remaining length is eight, and OpenDAL is asked for a range far beyond the end. -/
theorem readHandle_seeks_beyond :
    ∃ h, openForReading defaultRegistry
        (fun _ => .ok (storeOperator .all [fileEntry (ascii "a") (by decide) 3]))
        (ascii "memory://b/a") (.ok ()) = .ok h ∧
      let sought := (readStep h (.seek ⟨2 ^ 63, by decide⟩)).1
      let read := ReadOp.read 5 true (contentReader (ascii "xyz"))
      let further := (readStep h (.seek ⟨2 ^ 64 - 5, by decide⟩)).1
      let next := ReadOp.read 3 true (contentReader (ascii "xyz"))
      (¬ Mealy.Along readStep InBounds h [.seek ⟨2 ^ 63, by decide⟩, read] ∧
        sought.position = -2 ^ 63 ∧ (¬ ∀ x ∈ signedResults sought read, IsInt64 x) ∧
        readStep sought read = (sought, .ok (0, []))) ∧
      ¬ Mealy.Along readStep InBounds h [.seek ⟨2 ^ 64 - 5, by decide⟩, next] ∧
        further.position = -5 ∧
        (readStep further next).1.reader = some ⟨[(2 ^ 64 - 5, 2 ^ 64 - 2)]⟩ := by
  refine ⟨⟨ascii "memory://b/a", some ⟨[]⟩, 3, 0, -1⟩, by decide,
    ⟨?_, by decide, by decide, by decide⟩, ?_, by decide, by decide⟩
  · intro halong
    exact absurd halong.1.position (by decide)
  · intro halong
    exact absurd halong.1.position (by decide)

end DuckdbOpendal
