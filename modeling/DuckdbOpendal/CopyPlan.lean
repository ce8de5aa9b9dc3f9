import DuckdbOpendal.Table

/-!
# Planning a copy

`od_table_copy_open` of `opendal/src/table.rs`: check the options and the capabilities
once, then fix the list of (source, destination, size) triples that the cursor works
off later.  The sizes are those the listing, or the `stat` of a single file, reported.

## Main Definitions

* `CopyOptions`, `copyOptions` — the options of a copy
* `copyPlan` — the plan
* `odTableCopyOpen` — opening a copy

## Main Results

* `copyPlan_of_isTree` — the plan of a directory or a glob
* `odTableCopyOpen_eq_ok` — what an opened cursor holds
* `joinDest_injective` — distinct relative paths have distinct destinations
-/

namespace DuckdbOpendal

/-! ## Options -/

/-- `OdCopyOptions`. -/
structure OdCopyOptions where
  ifNotExists : Bool
  ifMatch : Option Bytes
  sourceVersion : Option Bytes
  sourceContentLengthHint : U64
  hasSourceContentLengthHint : Bool
  concurrent : ℕ
  hasConcurrent : Bool
  chunkSize : ℕ
  hasChunkSize : Bool
  deriving DecidableEq, Repr

/-- No option given. -/
def OdCopyOptions.unset : OdCopyOptions := ⟨false, none, none, 0, false, 0, false, 0, false⟩

/-- `opendal::options::CopyOptions`; the chunk size carries what `copy_options` checks. -/
structure CopyOptions where
  ifNotExists : Bool
  ifMatch : Option Bytes
  sourceVersion : Option Bytes
  sourceContentLengthHint : Option U64
  concurrent : ℕ
  chunk : Option {n : ℕ // 0 < n}
  deriving DecidableEq, Repr

/-- `copy_options`. -/
def copyOptions (raw : OdCopyOptions) : Except Bytes CopyOptions :=
  if raw.hasConcurrent ∧ raw.concurrent = 0 then
    .error (ascii "copy concurrent must be positive")
  else if raw.hasChunkSize ∧ raw.chunkSize = 0 then
    .error (ascii "copy chunk_size must be positive")
  else do
    let ifMatch ← optionalCstr raw.ifMatch "if_match"
    let sourceVersion ← optionalCstr raw.sourceVersion "source_version"
    return {
      ifNotExists := raw.ifNotExists
      ifMatch := ifMatch
      sourceVersion := sourceVersion
      sourceContentLengthHint :=
        if raw.hasSourceContentLengthHint then some raw.sourceContentLengthHint else none
      concurrent := if raw.hasConcurrent then raw.concurrent else 0
      chunk :=
        if hchunk : raw.hasChunkSize ∧ 0 < raw.chunkSize then some ⟨raw.chunkSize, hchunk.2⟩
        else none }

/-- A requested chunk size that passes `copy_options` is the chunk size used. -/
theorem chunk_of_copyOptions {raw : OdCopyOptions} {options : CopyOptions}
    (h : copyOptions raw = .ok options) :
    options.chunk.map Subtype.val = if raw.hasChunkSize then some raw.chunkSize else none := by
  unfold copyOptions at h
  split at h
  · cases h
  split at h
  · cases h
  rename_i hchunk
  obtain ⟨ifMatch, -, h⟩ := bind_eq_ok.mp h
  obtain ⟨sourceVersion, -, h⟩ := bind_eq_ok.mp h
  cases h
  by_cases hhas : raw.hasChunkSize = true
  · have hpos : 0 < raw.chunkSize := Nat.pos_of_ne_zero fun hzero => hchunk ⟨hhas, hzero⟩
    simp [hhas, hpos]
  · simp [hhas]

/-! ## Paths -/

/-- `strip_base`. -/
def stripBase (base path : Bytes) : Bytes :=
  if base <+: path then path.drop base.length else path

/-- `join_dest`. -/
def joinDest (destination rel : Bytes) : Bytes :=
  if destination = [] then rel
  else if destination.getLast? = some slash then destination ++ rel
  else destination ++ slash :: rel

/-- **Distinct relative paths have distinct destinations.** -/
theorem joinDest_injective (destination : Bytes) : Function.Injective (joinDest destination) := by
  intro rel rel' h
  unfold joinDest at h
  split at h
  · exact h
  split at h
  · exact List.append_cancel_left h
  · exact (List.cons.inj (List.append_cancel_left h)).2

/-! ## The plan -/

/-- One entry of the plan. -/
structure PlannedCopy where
  source : Bytes
  destination : Bytes
  size : U64
  deriving DecidableEq, Repr

/-- The message for options that only a single file admits. -/
def singleFileOnly : Bytes :=
  ascii "source_content_length_hint and source_version are only valid for single-file copy"

/-- Hint and version are refused for a directory or a glob. -/
def refuseSingleFileOptions (options : CopyOptions) : Except OdError Unit :=
  if options.sourceContentLengthHint.isSome || options.sourceVersion.isSome then
    .error (setError .InvalidInput singleFileOnly)
  else .ok ()

/-- The plan for listed entries: every selected file, below the destination as it was
below the base. -/
def planEntries (base destination : Bytes) (selects : Bytes → Bool) (entries : List Entry) :
    List PlannedCopy :=
  (entries.filter fun e => e.metadata.isFile && selects e.path).map fun e =>
    ⟨e.path, joinDest destination (stripBase base e.path), e.metadata.contentLength⟩

/-- The pairs of `od_table_copy_open`. -/
def copyPlan (sourceOp : OdOperator) (source destination : Bytes) (options : CopyOptions) :
    Except OdError (List PlannedCopy) :=
  if hasGlob source then do
    refuseSingleFileOptions options
    let base := globRoot source
    let pattern := trimStartSlashes source
    let entries ← orOpendalError (sourceOp.listOptions base (.plain true))
    return planEntries base destination (globMatches pattern) entries
  else do
    let sourceMetadata ← orOpendalError (sourceOp.stat source options.sourceVersion)
    if sourceMetadata.isFile then
      let sourceSize := sourceMetadata.contentLength
      match options.sourceContentLengthHint with
      | some hint =>
          if hint ≠ sourceSize then
            .error (setError .InvalidInput
              (ascii "source_content_length_hint=" ++ decimal hint.val ++
                ascii " does not match source size " ++ decimal sourceSize.val))
          else return [⟨source, destination, sourceSize⟩]
      | none => return [⟨source, destination, sourceSize⟩]
    else
      refuseSingleFileOptions options
      let base := if source.getLast? = some slash then source else source ++ [slash]
      let entries ← orOpendalError (sourceOp.listOptions base (.plain true))
      return planEntries base destination (fun _ => true) entries

/-- `OwnedCopyRow`. -/
structure OwnedCopyRow where
  bytesCopied : ℕ
  source : Bytes
  destination : OwnedRow
  deriving DecidableEq, Repr

/-- `OdCopyCursor`. -/
structure OdCopyCursor where
  sourceOp : OdOperator
  destinationOp : OdOperator
  options : CopyOptions
  sameOpCopy : Bool
  plan : List PlannedCopy
  current : Option OwnedCopyRow

/-- `same_op_copy`: one handle, and a service that copies on its side. -/
def sameOpCopy (sourceOp destinationOp : OdOperator) : Bool :=
  sourceOp.handle == destinationOp.handle && sourceOp.cap.copy

/-- The capability guards of `od_table_copy_open`. -/
def copyChecks (sourceOp destinationOp : OdOperator) (options : CopyOptions) :
    Except OdError Unit :=
  if sameOpCopy sourceOp destinationOp then do
    requireOption sourceOp.scheme options.ifNotExists sourceOp.cap.copyWithIfNotExists
      (ascii "copy_with_if_not_exists")
    requireOption sourceOp.scheme options.ifMatch.isSome sourceOp.cap.copyWithIfMatch
      (ascii "copy_with_if_match")
    requireOption sourceOp.scheme options.sourceVersion.isSome sourceOp.cap.copyWithSourceVersion
      (ascii "copy_with_source_version")
  else do
    require sourceOp.scheme sourceOp.cap.read (ascii "read")
    require destinationOp.scheme destinationOp.cap.write (ascii "write")
    requireOption sourceOp.scheme options.sourceVersion.isSome sourceOp.cap.readWithVersion
      (ascii "read_with_version")
    requireOption destinationOp.scheme options.ifNotExists destinationOp.cap.writeWithIfNotExists
      (ascii "write_with_if_not_exists")
    requireOption destinationOp.scheme options.ifMatch.isSome destinationOp.cap.writeWithIfMatch
      (ascii "write_with_if_match")

/-- `od_table_copy_open`. -/
def odTableCopyOpen (sourceOp : OdOperator) (source : Bytes) (destinationOp : OdOperator)
    (destination : Bytes) (rawOptions : OdCopyOptions) : Except OdError OdCopyCursor := do
  let source ← requireCstr source "source is null or not UTF-8"
  let destination ← requireCstr destination "destination is null or not UTF-8"
  let options ← invalidInput (copyOptions rawOptions)
  copyChecks sourceOp destinationOp options
  let plan ← copyPlan sourceOp source destination options
  return {
    sourceOp, destinationOp, options, plan
    sameOpCopy := sameOpCopy sourceOp destinationOp
    current := none }

/-! ## The plan of a tree -/

/-- The source is a glob or a directory. -/
def IsTree (sourceOp : OdOperator) (source : Bytes) : Prop :=
  hasGlob source = true ∨
    ∀ version metadata, sourceOp.stat source version = .ok metadata → metadata.isFile = false

/-- The fixed part of a glob or directory source. -/
def copyBase (source : Bytes) : Bytes :=
  if hasGlob source then globRoot source
  else if source.getLast? = some slash then source else source ++ [slash]

/-- The listed paths a glob or directory source selects. -/
def copySelects (source path : Bytes) : Bool :=
  if hasGlob source then globMatches (trimStartSlashes source) path else true

/-- **The plan of a tree** is made from one recursive listing of its fixed part. -/
theorem copyPlan_of_isTree {sourceOp : OdOperator} {source destination : Bytes}
    {options : CopyOptions} {plan : List PlannedCopy} (htree : IsTree sourceOp source)
    (h : copyPlan sourceOp source destination options = .ok plan) :
    ∃ entries, sourceOp.listOptions (copyBase source) (.plain true) = .ok entries ∧
      plan = planEntries (copyBase source) destination (copySelects source) entries := by
  unfold copyPlan at h
  by_cases hglob : hasGlob source = true
  · rw [if_pos hglob] at h
    obtain ⟨-, -, h⟩ := bind_eq_ok.mp h
    obtain ⟨entries, hentries, h⟩ := bind_eq_ok.mp h
    cases h
    refine ⟨entries, ?_, ?_⟩
    · rw [copyBase, if_pos hglob]
      exact orOpendalError_eq_ok.mp hentries
    · have hselects : copySelects source = globMatches (trimStartSlashes source) := by
        funext path
        rw [copySelects, if_pos hglob]
      rw [copyBase, if_pos hglob, hselects]
  · rw [if_neg hglob] at h
    obtain ⟨metadata, hstat, h⟩ := bind_eq_ok.mp h
    have hfile := (htree.resolve_left hglob) _ _ (orOpendalError_eq_ok.mp hstat)
    simp only [hfile, Bool.false_eq_true, if_false] at h
    obtain ⟨-, -, h⟩ := bind_eq_ok.mp h
    obtain ⟨entries, hentries, h⟩ := bind_eq_ok.mp h
    cases h
    refine ⟨entries, ?_, ?_⟩
    · rw [copyBase, if_neg hglob]
      exact orOpendalError_eq_ok.mp hentries
    · have hselects : copySelects source = fun _ => true := by
        funext path
        rw [copySelects, if_neg hglob]
      rw [copyBase, if_neg hglob, hselects]

/-- The plan takes its triples from listed files. -/
theorem mem_planEntries {base destination : Bytes} {selects : Bytes → Bool}
    {entries : List Entry} {p : PlannedCopy} :
    p ∈ planEntries base destination selects entries ↔
      ∃ e ∈ entries, e.metadata.isFile = true ∧ selects e.path = true ∧
        p = ⟨e.path, joinDest destination (stripBase base e.path), e.metadata.contentLength⟩ := by
  simp only [planEntries, List.mem_map, List.mem_filter, Bool.and_eq_true]
  constructor
  · rintro ⟨e, ⟨he, hfile, hselects⟩, rfl⟩
    exact ⟨e, he, hfile, hselects, rfl⟩
  · rintro ⟨e, he, hfile, hselects, rfl⟩
    exact ⟨e, ⟨he, hfile, hselects⟩, rfl⟩

/-! ## What an opened cursor holds -/

/-- A copy opens when its arguments and capabilities pass and the plan is made. -/
theorem odTableCopyOpen_eq {sourceOp destinationOp : OdOperator} {source destination : Bytes}
    {rawOptions : OdCopyOptions} {options : CopyOptions} {plan : List PlannedCopy}
    (hsource : cstr source = some source) (hdestination : cstr destination = some destination)
    (hoptions : copyOptions rawOptions = .ok options)
    (hchecks : copyChecks sourceOp destinationOp options = .ok ())
    (hplan : copyPlan sourceOp source destination options = .ok plan) :
    odTableCopyOpen sourceOp source destinationOp destination rawOptions =
      .ok ⟨sourceOp, destinationOp, options, sameOpCopy sourceOp destinationOp, plan, none⟩ := by
  simp only [odTableCopyOpen, requireCstr_eq_ok.mpr hsource, requireCstr_eq_ok.mpr hdestination,
    invalidInput_eq_ok.mpr hoptions, hchecks, hplan, ok_bind]
  rfl

/-- **What an opened cursor holds.** -/
theorem odTableCopyOpen_eq_ok {sourceOp destinationOp : OdOperator} {source destination : Bytes}
    {rawOptions : OdCopyOptions} {cursor : OdCopyCursor}
    (h : odTableCopyOpen sourceOp source destinationOp destination rawOptions = .ok cursor) :
    ∃ source' destination' options plan, cstr source = some source' ∧
      cstr destination = some destination' ∧ copyOptions rawOptions = .ok options ∧
      copyPlan sourceOp source' destination' options = .ok plan ∧
      cursor =
        ⟨sourceOp, destinationOp, options, sameOpCopy sourceOp destinationOp, plan, none⟩ := by
  obtain ⟨source', hsource, h⟩ := bind_eq_ok.mp h
  obtain ⟨destination', hdestination, h⟩ := bind_eq_ok.mp h
  obtain ⟨options, hoptions, h⟩ := bind_eq_ok.mp h
  obtain ⟨-, -, h⟩ := bind_eq_ok.mp h
  obtain ⟨plan, hplan, h⟩ := bind_eq_ok.mp h
  cases h
  exact ⟨source', destination', options, plan, requireCstr_eq_ok.mp hsource,
    requireCstr_eq_ok.mp hdestination, invalidInput_eq_ok.mp hoptions, hplan, rfl⟩

end DuckdbOpendal
