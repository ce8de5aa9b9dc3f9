import DuckdbOpendal.Copy
import DuckdbOpendal.Lib.Advance

/-!
# The ranges of a streamed copy

The streaming half of `copy_one` in `opendal/src/table.rs` advances an offset by the chunk,
clipped to the size of the source.  That it ends rests on a check made elsewhere: `copy_options`
refuses a chunk of zero, with which the offset would stand still.

## Main Definitions

* `nextOffset` — the end of a range
* `readRanges` — the ranges a copy reads

## Main Results

* `copyOne_stream_ranges` — the ranges of a copy, for every accepted chunk and every size
-/

namespace DuckdbOpendal

open Advance

/-- The end of the range that starts at an offset. -/
def nextOffset (sourceSize : U64) (chunk offset : ℕ) : ℕ :=
  min sourceSize.val (saturatingAdd offset chunk)

/-- The ranges read during a copy, in order. -/
def readRanges (events : List CopyEvent) : List (ℕ × ℕ) :=
  events.filterMap fun
    | .read start stop _ => some (start, stop)
    | _ => none

@[simp] theorem readRanges_append (events events' : List CopyEvent) :
    readRanges (events ++ events') = readRanges events ++ readRanges events' :=
  List.filterMap_append

/-- **OpenDAL's side of a copy that goes well**: a read inside the planned size returns exactly
its range. -/
structure CopyCalls.Serves (calls : CopyCalls) (content : Bytes) (sourceSize : U64) : Prop where
  reader : calls.reader = .ok ()
  writer : calls.writer = .ok ()
  read : ∀ start stop, start ≤ stop → stop ≤ sourceSize.val →
    calls.read start stop = .ok ((content.take stop).drop start)
  write : ∀ offset, calls.write offset = .ok ()
  close : ∃ metadata, calls.close = .ok metadata

/-! ## One round -/

/-- **Saturation changes no range**: the end is that of exact arithmetic. -/
theorem nextOffset_eq (sourceSize : U64) (chunk offset : ℕ) :
    nextOffset sourceSize chunk offset = min sourceSize.val (offset + chunk) := by
  have := sourceSize.isLt
  simp only [nextOffset, saturatingAdd]
  omega

/-- A round advances, by a chunk at most and not beyond the size. -/
theorem nextOffset_spec {sourceSize : U64} {chunk : ℕ} (hchunk : 0 < chunk) {offset : ℕ}
    (h : offset < sourceSize.val) :
    offset < nextOffset sourceSize chunk offset ∧
      nextOffset sourceSize chunk offset ≤ offset + chunk ∧
      nextOffset sourceSize chunk offset ≤ sourceSize.val := by
  rw [nextOffset_eq]
  omega

/-- The chunk of a copy is the one that was requested, or the default, and positive. -/
theorem chunk_getD_of_copyOptions {raw : OdCopyOptions} {options : CopyOptions}
    (h : copyOptions raw = .ok options) :
    (options.chunk.getD defaultChunk).val =
      if raw.hasChunkSize then raw.chunkSize else 8 * 1024 * 1024 := by
  have hchunk := chunk_of_copyOptions h
  cases hoptions : options.chunk with
  | none =>
      rw [hoptions, Option.map_none, eq_comm, ite_eq_right_iff] at hchunk
      rw [if_neg fun hhas => Option.some_ne_none _ (hchunk hhas)]
      rfl
  | some chunk =>
      rw [hoptions, Option.map_some] at hchunk
      obtain ⟨hhas, heq⟩ := Option.ite_none_right_eq_some.mp hchunk.symm
      rw [if_pos hhas]
      exact (Option.some.inj heq).symm

/-! ## The loop -/

section Loop

variable {calls : CopyCalls} {sourceSize : U64} {chunk : {n : ℕ // 0 < n}}

variable (calls chunk) in
/-- **The loop reads the ranges of its rounds**, up to the first call that fails. -/
theorem streamLoop_ranges {offset : ℕ} (hoffset : offset ≤ sourceSize.val) :
    ∃ rounds, (∀ k < rounds, (nextOffset sourceSize chunk.val)^[k] offset < sourceSize.val) ∧
      readRanges (streamLoop calls sourceSize chunk offset).events =
        ranges (nextOffset sourceSize chunk.val) rounds offset := by
  induction hrest : sourceSize.val - offset using Nat.strong_induction_on generalizing offset with
  | h rest ih =>
  subst hrest
  rw [streamLoop]
  by_cases hlt : offset < sourceSize.val
  · obtain ⟨hadvance, -, hle⟩ := nextOffset_spec chunk.property hlt
    obtain ⟨rounds, hrounds, hranges⟩ := ih _ (by omega) hle rfl
    have hone : ∀ k < 1, (nextOffset sourceSize chunk.val)^[k] offset < sourceSize.val :=
      forall_lt_succ_iterate.mpr ⟨hlt, fun k hk => absurd hk (Nat.not_lt_zero k)⟩
    rw [if_pos hlt]
    simp only [Traced.call]
    cases calls.read offset (min sourceSize.val (saturatingAdd offset chunk.val)) with
    | error error => exact ⟨1, hone, rfl⟩
    | ok buffer =>
        cases calls.write offset with
        | error error => exact ⟨1, hone, rfl⟩
        | ok _ =>
            refine ⟨rounds + 1, forall_lt_succ_iterate.mpr ⟨hlt, hrounds⟩, ?_⟩
            rw [readRanges_append]
            exact congrArg (_ :: ·) hranges
  · rw [if_neg hlt]
    exact ⟨0, fun k hk => absurd hk (Nat.not_lt_zero k), rfl⟩

/-- When every call goes well, the loop makes all its rounds. -/
theorem streamLoop_of_serves {content : Bytes} (h : calls.Serves content sourceSize)
    {rounds offset : ℕ} (hoffset : offset ≤ sourceSize.val)
    (hstops : StopsAfter (nextOffset sourceSize chunk.val) sourceSize.val rounds offset) :
    (streamLoop calls sourceSize chunk offset).result = .ok sourceSize.val ∧
      readRanges (streamLoop calls sourceSize chunk offset).events =
        ranges (nextOffset sourceSize chunk.val) rounds offset := by
  induction rounds generalizing offset with
  | zero =>
      have hend : offset = sourceSize.val := le_antisymm hoffset hstops.2
      rw [streamLoop, if_neg hend.not_lt, hend]
      exact ⟨rfl, rfl⟩
  | succ rounds ih =>
      obtain ⟨hlt, hrest⟩ := stopsAfter_succ.mp hstops
      obtain ⟨hadvance, -, hle⟩ := nextOffset_spec chunk.property hlt
      obtain ⟨hresult, hranges⟩ := ih hle hrest
      have hread : calls.read offset (min sourceSize.val (saturatingAdd offset chunk.val)) =
          .ok _ := h.read offset _ hadvance.le hle
      rw [streamLoop, if_pos hlt]
      simp only [Traced.call, hread, h.write, readRanges_append]
      exact ⟨hresult, congrArg (_ :: ·) hranges⟩

end Loop

/-! ## The copy -/

section CopyOne

variable {calls : CopyCalls} {source destination : Bytes} {options : CopyOptions}
  {sourceSize : U64}

theorem readRanges_bind {α β : Type} (x : Traced α) (f : α → Traced β) :
    readRanges (x >>= f).events = readRanges x.events ++
      match x.result with
      | .ok a => readRanges (f a).events
      | .error _ => [] := by
  cases hx : x.result with
  | ok a => rw [Traced.bind_of_ok hx, readRanges_append]
  | error e => rw [Traced.bind_of_error hx, List.append_nil]

theorem readRanges_bind_of_nil {α β : Type} (x : Traced α) {f : α → Traced β}
    (hf : ∀ a, readRanges (f a).events = []) :
    readRanges (x >>= f).events = readRanges x.events := by
  rw [readRanges_bind]
  cases x.result with
  | ok a => exact (congrArg (_ ++ ·) (hf a)).trans (List.append_nil _)
  | error e => exact List.append_nil _

theorem readRanges_closeWriter (offset : ℕ) :
    readRanges (closeWriter calls offset).events = [] := by
  simp only [closeWriter, Traced.call]
  cases calls.close with
  | ok metadata => rfl
  | error error => rfl

theorem readRanges_destinationMetadata (transferred : ℕ × Metadata) :
    readRanges (destinationMetadata calls destination transferred).events = [] := by
  simp only [destinationMetadata, Traced.call]
  cases calls.stat with
  | ok metadata => rfl
  | error error => rfl

/-- Outside its loop, a streamed copy reads nothing. -/
theorem readRanges_copyOne :
    readRanges (copyOne calls source destination options false sourceSize).events =
      match calls.reader, calls.writer with
      | .ok (), .ok () =>
          readRanges (streamLoop calls sourceSize (options.chunk.getD defaultChunk) 0).events
      | _, _ => [] := by
  rw [copyOne, readRanges_bind_of_nil _ readRanges_destinationMetadata, transfer,
    if_neg Bool.false_ne_true, copyStream, readRanges_bind]
  cases hreader : calls.reader with
  | error error => rfl
  | ok _ =>
      refine (readRanges_bind (Traced.call _ calls.writer) _).trans ?_
      cases hwriter : calls.writer with
      | error error => rfl
      | ok _ => exact readRanges_bind_of_nil _ readRanges_closeWriter

theorem CopyCalls.Serves.reads {content : Bytes} (h : calls.Serves content sourceSize)
    (hlen : sourceSize.val ≤ content.length) : calls.Reads (content.take sourceSize.val) := by
  intro start stop bytes hle hstop hread
  rw [List.length_take, Nat.min_eq_left hlen] at hstop
  rw [h.read start stop hle hstop] at hread
  rw [List.take_take, Nat.min_eq_left hstop]
  exact (Except.ok.inj hread).symm

/-- When every call goes well, the copy reports what the loop has covered, and what the writer
has committed is that part of the object. -/
theorem copyOne_of_serves {content : Bytes} (hlen : sourceSize.val ≤ content.length)
    (h : calls.Serves content sourceSize)
    (hloop : (streamLoop calls sourceSize (options.chunk.getD defaultChunk) 0).result =
      .ok sourceSize.val) :
    ∃ metadata,
      (copyOne calls source destination options false sourceSize).result =
        .ok (sourceSize.val, metadata) ∧
      Journal.committed
        (writerCalls (copyOne calls source destination options false sourceSize).events) =
          some (content.take sourceSize.val) := by
  obtain ⟨metadata, hclose⟩ := h.close
  have htransfer : (transfer calls source destination options false sourceSize).result =
      .ok (sourceSize.val, metadata) := by
    rw [transfer, if_neg Bool.false_ne_true, copyStream, Traced.bind_result_of_ok h.reader,
      Traced.bind_result_of_ok h.writer, Traced.bind_result_of_ok hloop]
    simp only [closeWriter, Traced.call, hclose]
  obtain ⟨metadata', hresult⟩ : ∃ metadata',
      (copyOne calls source destination options false sourceSize).result =
        .ok (sourceSize.val, metadata') := by
    rw [copyOne, Traced.bind_result_of_ok htransfer]
    simp only [destinationMetadata, Traced.call]
    cases calls.stat with
    | ok metadata' => exact ⟨metadata', rfl⟩
    | error error => exact ⟨metadata, rfl⟩
  refine ⟨metadata', hresult, ?_⟩
  obtain ⟨_, _, hcopied, -, hcalls⟩ := copyOne_ok hresult
  obtain ⟨-, written, hcommitted, hwritten⟩ := copyStream_spec hcopied
  have hcontent := hwritten _ (h.reads hlen) (by rw [List.length_take, Nat.min_eq_left hlen])
  rw [List.take_take, Nat.min_self] at hcontent
  rw [hcalls, ← hcontent]
  exact hcommitted

end CopyOne

/-- **The ranges of a streamed copy**, for every chunk that `copy_options` accepts and every
size: the loop ends; its ranges tile the size, and are those of arithmetic without overflow; a
copy reads them in order, up to the first call that fails; and if none fails it writes that part
of the object and reports its size. -/
theorem copyOne_stream_ranges {raw : OdCopyOptions} {options : CopyOptions}
    (hoptions : copyOptions raw = .ok options) (sourceSize : U64) :
    let chunk := if raw.hasChunkSize then raw.chunkSize else 8 * 1024 * 1024
    let next := nextOffset sourceSize chunk
    ∃ rounds, StopsAfter next sourceSize.val rounds 0 ∧
      (∀ offset, next offset = min sourceSize.val (offset + chunk)) ∧
      Tiles chunk 0 (ranges next rounds 0) sourceSize.val ∧
      ∀ calls source destination,
        (∃ k ≤ rounds,
          readRanges (copyOne calls source destination options false sourceSize).events =
            ranges next k 0) ∧
        ∀ content : Bytes, sourceSize.val ≤ content.length → calls.Serves content sourceSize →
          readRanges (copyOne calls source destination options false sourceSize).events =
              ranges next rounds 0 ∧
            ∃ metadata,
              (copyOne calls source destination options false sourceSize).result =
                .ok (sourceSize.val, metadata) ∧
              Journal.committed (writerCalls
                (copyOne calls source destination options false sourceSize).events) =
                  some (content.take sourceSize.val) := by
  intro chunk next
  have hchunk : (options.chunk.getD defaultChunk).val = chunk :=
    chunk_getD_of_copyOptions hoptions
  have hpos : 0 < chunk := hchunk ▸ (options.chunk.getD defaultChunk).property
  obtain ⟨rounds, -, hstops, hend⟩ := exists_stopsAfter
    (fun x hx => ⟨(nextOffset_spec hpos hx).1, (nextOffset_spec hpos hx).2.2⟩)
    (Nat.zero_le sourceSize.val)
  have htiles : Tiles chunk 0 (ranges next rounds 0) (next^[rounds] 0) := tiles_ranges
    (fun x hx => ⟨(nextOffset_spec hpos hx).1, (nextOffset_spec hpos hx).2.1⟩) hstops.1
  rw [hend] at htiles
  refine ⟨rounds, hstops, nextOffset_eq sourceSize chunk, htiles,
    fun calls source destination => ⟨?_, fun content hlen hserves => ?_⟩⟩
  · rw [readRanges_copyOne]
    split
    · obtain ⟨k, hk, hranges⟩ := streamLoop_ranges calls (options.chunk.getD defaultChunk)
        (Nat.zero_le sourceSize.val)
      rw [hchunk] at hk hranges
      exact ⟨k, hstops.le hk, hranges⟩
    · exact ⟨0, Nat.zero_le rounds, rfl⟩
  · rw [← hchunk] at hstops
    obtain ⟨hresult, hranges⟩ := streamLoop_of_serves hserves (Nat.zero_le _) hstops
    refine ⟨?_, copyOne_of_serves hlen hserves hresult⟩
    rw [hchunk] at hranges
    rw [readRanges_copyOne, hserves.reader, hserves.writer]
    exact hranges

/-- The greatest size, in chunks of which two do not fit a `u64`. -/
theorem copyOne_stream_ranges_saturated :
    let next := nextOffset ⟨18446744073709551615, by decide⟩ 9223372036854775809
    ∃ rounds, StopsAfter next 18446744073709551615 rounds 0 ∧
      Tiles 9223372036854775809 0 (ranges next rounds 0) 18446744073709551615 := by
  have hoptions : copyOptions
      { OdCopyOptions.unset with chunkSize := 9223372036854775809, hasChunkSize := true } =
        .ok ⟨false, none, none, none, 0, some ⟨9223372036854775809, by decide⟩⟩ := rfl
  obtain ⟨rounds, hstops, -, htiles, -⟩ :=
    copyOne_stream_ranges hoptions ⟨18446744073709551615, by decide⟩
  exact ⟨rounds, hstops, htiles⟩

end DuckdbOpendal
