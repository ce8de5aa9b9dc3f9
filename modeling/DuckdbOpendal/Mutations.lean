import DuckdbOpendal.Lib.ChangeLog
import DuckdbOpendal.MoveFile
import DuckdbOpendal.OptionSections

/-!
# Mutations of the file system

`CreateDirectory`, `RemoveFile`, `RemoveDirectory` and `MoveFile` over the mutations of
`opendal/src/mutate.rs`.  Each call is one change of the store of its service, made or not; a
move without a rename can stop half way, at the copy, and the removal of a directory at any
part of it.  The operators a call finds, and how OpenDAL's calls end, are inputs.  A call of
OpenDAL on one object that fails is taken to leave the object as it was.

## Main Definitions

* `FileOperator` — an operator with everything the file system reads of it
* `createDirectory`, `removeFile`, `removeDirectory` — the calls
* `FileCall`, `FileCall.run`, `FileCall.change` — a call, and the change it stands for

## Main Results

* `FileCall.run_cases` — a call makes its change and returns, or throws
-/

namespace DuckdbOpendal

open ChangeLog AtomicMove

/-- `OdOperator`, with everything the file system reads of it. -/
structure FileOperator extends MutOperator where
  createDir : Bool
  io : IoConfig

/-- A path with the slash of a directory. -/
def asDirectory (path : Bytes) : Bytes :=
  if path.getLast? = some slash then path else path ++ [slash]

theorem dirRoot_asDirectory (path : Bytes) : DirRoot (asDirectory path) := by
  rw [asDirectory]
  split
  · rename_i hslash
    exact Or.inr (List.getLast?_eq_some_iff.mp hslash)
  · exact Or.inr ⟨path, rfl⟩

theorem trimmed_asDirectory {path : Bytes} (h : Trimmed path) : Trimmed (asDirectory path) := by
  rw [asDirectory]
  split
  · exact h
  · exact h.append_slash

theorem normalizeRoot_asDirectory (path : Bytes) :
    normalizeRoot (asDirectory path) = normalizeRoot path := by
  rw [asDirectory]
  split
  · rfl
  · exact normalizeRoot_append_slash path

/-! ## The calls -/

section Calls

/- Which directories a service keeps as empty objects, and the object an operation path names,
once OpenDAL has normalised it. -/
variable (marks : Bytes → Bool) (objectName : Bytes → Bytes)

/-- What a created directory leaves in the store. -/
def markDirectory (name : Bytes) : Change Bytes Bytes := if marks name then .put name [] else .keep

/-- `od_create_dir`. -/
def odCreateDir (op : FileOperator) (path : Bytes) :
    Outcome Unit → Store → Store × Except OdError Unit :=
  run (do
    let path ← requireCstr path "path is null or not UTF-8"
    require op.scheme op.createDir (ascii "create_dir")
    return asDirectory path) (fun path => (markDirectory marks (objectName path)).apply)
    leavesStore

variable (registry : Registry) (operators : ResolvedUrl → Except Bytes FileOperator)

/-- The shape of a call on one URL: resolve it, find the operator, make one mutation.
`operators` is what `OperatorFor` returns or throws. -/
def onUrl (unrecognized context : String)
    (mutation : FileOperator → Bytes → Store → Store × Except OdError Unit) (url : Bytes)
    (store : Store) : Store × Except Bytes Unit :=
  match parseUrl registry url with
  | none => (store, .error (ascii unrecognized ++ url))
  | some u =>
  match operators u with
  | .error message => (store, .error message)
  | .ok op =>
      let mutated := mutation op u.path store
      (mutated.1, orThrow mutated.2 (ascii context ++ url) ())

/-- `CreateDirectory`. -/
def createDirectory (directory : Bytes) (outcome : Outcome Unit) :
    Store → Store × Except Bytes Unit :=
  onUrl registry operators "opendal: create_dir: unrecognized URL: " "opendal: create_dir: "
    (fun op path => odCreateDir marks objectName op path outcome) directory

/-- `RemoveFile`. -/
def removeFile (filename : Bytes) (outcome : Outcome Unit) : Store → Store × Except Bytes Unit :=
  onUrl registry operators "opendal: remove: unrecognized URL: " "opendal: remove: "
    (fun op path => odRemove objectName op.toMutOperator path false (fun _ => false) outcome)
    filename

/-- `RemoveDirectory`; `removed` selects what is gone when it fails. -/
def removeDirectory (directory : Bytes) (outcome : Outcome Unit) (removed : Bytes → Bool) :
    Store → Store × Except Bytes Unit :=
  onUrl registry operators "opendal: remove_dir: unrecognized URL: " "opendal: remove (dir): "
    (fun op path =>
      odRemove objectName op.toMutOperator (asDirectory path) true removed outcome) directory

end Calls

/-- A call of the file system that changes a service, with the outcomes of OpenDAL's calls and,
for a directory, what a removal that fails has removed. -/
inductive FileCall where
  | createDirectory (directory : Bytes) (outcome : Outcome Unit)
  | removeFile (filename : Bytes) (outcome : Outcome Unit)
  | removeDirectory (directory : Bytes) (outcome : Outcome Unit) (removed : Bytes → Bool)
  | moveFile (source target : Bytes) (outcomes : MoveOutcomes)

namespace FileCall

/-- The URL whose operator makes the call. -/
def url : FileCall → Bytes
  | .createDirectory directory _ => directory
  | .removeFile filename _ => filename
  | .removeDirectory directory _ _ => directory
  | .moveFile source _ _ => source

section

variable (marks : Bytes → Bool) (objectName : Bytes → Bytes) (registry : Registry)

/-- The call, on the store of its service. -/
def run (operators : ResolvedUrl → Except Bytes FileOperator) :
    FileCall → Store → Store × Except Bytes Unit
  | .createDirectory directory outcome =>
      DuckdbOpendal.createDirectory marks objectName registry operators directory outcome
  | .removeFile filename outcome =>
      DuckdbOpendal.removeFile objectName registry operators filename outcome
  | .removeDirectory directory outcome removed =>
      DuckdbOpendal.removeDirectory objectName registry operators directory outcome removed
  | .moveFile source target outcomes =>
      DuckdbOpendal.moveFile registry
        (fun u => (operators u).map FileOperator.toMutOperator) objectName source target outcomes

/-- The object a URL names. -/
def object (url : Bytes) : Option Bytes := (parseUrl registry url).map fun u => objectName u.path

/-- The directory a URL names, with its slash. -/
def directory (url : Bytes) : Option Bytes :=
  (parseUrl registry url).map fun u => objectName (asDirectory u.path)

/-- What the call is for. -/
def change : FileCall → Change Bytes Bytes
  | .createDirectory url _ =>
      ((directory objectName registry url).map (markDirectory marks)).getD .keep
  | .removeFile url _ => ((object objectName registry url).map .erase).getD .keep
  | .removeDirectory url _ _ =>
      ((directory objectName registry url).map fun dir =>
        .eraseWhere fun name => decide (below dir <+: name)).getD .keep
  | .moveFile source target _ =>
      (Option.map₂ .move (object objectName registry source)
        (object objectName registry target)).getD .keep

/-- What it has done where it can stop half way: a move the copy, the removal of a directory a
part. -/
def halfway : FileCall → Change Bytes Bytes
  | .removeDirectory url _ removed =>
      ((directory objectName registry url).map fun dir =>
        .eraseWhere fun name => decide (below dir <+: name) && removed name).getD .keep
  | .moveFile source target _ =>
      (Option.map₂ .copy (object objectName registry source)
        (object objectName registry target)).getD .keep
  | _ => .keep

end

end FileCall

/-! ## What a call does -/

section Calls

variable {marks : Bytes → Bool} {objectName : Bytes → Bytes} {registry : Registry}
  {operators : ResolvedUrl → Except Bytes FileOperator}

/-- A path with a slash behind it is a C string when the path is. -/
theorem cstr_asDirectory {path : Bytes} (h : cstr path = some path) :
    cstr (asDirectory path) = some (asDirectory path) := by
  rw [asDirectory]
  split
  · exact h
  · exact cstr_append_slash h

theorem odCreateDir_cases (op : FileOperator) {path : Bytes} (hpath : cstr path = some path)
    (outcome : Outcome Unit) (store : Store) :
    odCreateDir marks objectName op path outcome store =
        ((markDirectory marks (objectName (asDirectory path))).apply store, .ok ()) ∨
      ∃ err, err.code ≠ .Ok ∧
        odCreateDir marks objectName op path outcome store = (store, .error err) := by
  rw [odCreateDir, requireCstr_eq_ok.mpr hpath]
  exact run_leaves_cases op.scheme (ascii "create_dir") op.createDir (asDirectory path) _ outcome
    store

/-- A removal below a directory, as a change. -/
theorem eraseBelow_eq (dir : Bytes) (selects : Bytes → Bool) (store : Store) :
    eraseBelow dir selects store =
      (Change.eraseWhere fun name => decide (below dir <+: name) && selects name).apply store := by
  funext name
  simp [eraseBelow, Change.apply]

/-- **A call on one URL** makes the change of its mutation and returns, or throws and has made
nothing of it or half. -/
theorem onUrl_cases {unrecognized context : String}
    {mutation : FileOperator → Bytes → Store → Store × Except OdError Unit} {url : Bytes}
    {effect : ResolvedUrl → Change Bytes Bytes} {half : Change Bytes Bytes}
    (hmutation : ∀ u op store, parseUrl registry url = some u →
      mutation op u.path store = ((effect u).apply store, .ok ()) ∨
        ∃ err c, err.code ≠ .Ok ∧ (c = .keep ∨ c = half) ∧
          mutation op u.path store = (Change.apply c store, .error err)) (store : Store) :
    onUrl registry operators unrecognized context mutation url store =
        ((((parseUrl registry url).map effect).getD .keep).apply store, .ok ()) ∨
      ∃ message c, (c = .keep ∨ c = half) ∧
        onUrl registry operators unrecognized context mutation url store =
          (Change.apply c store, .error message) := by
  cases hurl : parseUrl registry url with
  | none => exact Or.inr ⟨_, .keep, Or.inl rfl, by simp only [onUrl, hurl]; rfl⟩
  | some u =>
  cases hop : operators u with
  | error message => exact Or.inr ⟨message, .keep, Or.inl rfl, by simp only [onUrl, hurl, hop]; rfl⟩
  | ok op =>
  rcases hmutation u op store hurl with h | ⟨err, c, hcode, hc, h⟩
  · exact Or.inl (by simp only [onUrl, hurl, hop, h, orThrow_ok, Option.map_some, Option.getD_some])
  · exact Or.inr ⟨_, c, hc, by simp only [onUrl, hurl, hop, h, orThrow_error hcode]; rfl⟩

/-- **A move** goes the whole way, half of it, or none. -/
theorem moveFile_cases (operators : ResolvedUrl → Except Bytes MutOperator)
    (source target : Bytes) (outcomes : MoveOutcomes) (store : Store) :
    moveFile registry operators objectName source target outcomes store =
        (((FileCall.moveFile source target outcomes).change marks objectName registry).apply store,
          .ok ()) ∨
      ∃ message c, (c = .keep ∨
          c = (FileCall.moveFile source target outcomes).halfway objectName registry) ∧
        moveFile registry operators objectName source target outcomes store =
          (c.apply store, .error message) := by
  have hthrow : ∀ {result : Store × Except Bytes Unit} {message : Bytes},
      result = (store, .error message) → ∃ message c, (c = .keep ∨
          c = (FileCall.moveFile source target outcomes).halfway objectName registry) ∧
        result = (c.apply store, .error message) :=
    fun h => ⟨_, .keep, Or.inl rfl, h⟩
  cases hs : parseUrl registry source with
  | none => exact Or.inr (hthrow (by simp only [moveFile, hs]; rfl))
  | some s =>
  cases ht : parseUrl registry target with
  | none => exact Or.inr (hthrow (by simp only [moveFile, hs, ht]; rfl))
  | some t =>
  have hsource := cstr_path_of_parseUrl hs
  have htarget := cstr_path_of_parseUrl ht
  have hmove : (FileCall.moveFile source target outcomes).change marks objectName registry =
      .move (objectName s.path) (objectName t.path) := by
    simp [FileCall.change, FileCall.object, hs, ht]
  have hcopy : (FileCall.moveFile source target outcomes).halfway objectName registry =
      .copy (objectName s.path) (objectName t.path) := by
    simp [FileCall.halfway, FileCall.object, hs, ht]
  rw [hmove]
  simp only [moveFile, hs, ht]
  cases operators s with
  | error message => exact Or.inr (hthrow rfl)
  | ok op =>
  cases operators t with
  | error message => exact Or.inr (hthrow rfl)
  | ok targetOp =>
  simp only
  split
  · exact Or.inr (hthrow rfl)
  split
  · rcases odRename_cases objectName op hsource htarget outcomes.rename store with
      h | ⟨err, hcode, h⟩
    · exact Or.inl (by rw [h]; rfl)
    · exact Or.inr (hthrow (by rw [h, orThrow_error hcode]))
  split
  · rcases odCopy_cases objectName op hsource htarget outcomes.copy store with
      h | ⟨err, hcode, h⟩
    · rw [h]
      simp only [orThrow_ok]
      rcases odRemove_cases objectName op hsource outcomes.delete
        (copyTo (objectName s.path) (objectName t.path) store) with h | ⟨err, hcode, h⟩
      · exact Or.inl (by rw [h]; rfl)
      · -- The copy has been made and the source is still there.
        exact Or.inr ⟨_, _, Or.inr hcopy.symm, by rw [h, orThrow_error hcode]; rfl⟩
    · exact Or.inr (hthrow (by rw [h]; simp only [orThrow_error hcode]; rfl))
  · exact Or.inr (hthrow rfl)

variable (marks) in
/-- **A call of the file system** makes its change and returns, or throws and has made nothing
of it or half: in a move the copy, in the removal of a directory a part. -/
theorem FileCall.run_cases (call : FileCall) (store : Store) :
    call.run marks objectName registry operators store =
        ((call.change marks objectName registry).apply store, .ok ()) ∨
      ∃ message c, (c = .keep ∨ c = call.halfway objectName registry) ∧
        call.run marks objectName registry operators store = (c.apply store, .error message) := by
  -- A mutation of one object has no half way.
  have hone : ∀ {result done : Store × Except OdError Unit} {store : Store},
      (result = done ∨ ∃ err, err.code ≠ .Ok ∧ result = (store, .error err)) →
      result = done ∨ ∃ err c, err.code ≠ .Ok ∧
        (c = .keep ∨ c = call.halfway objectName registry) ∧
        result = (Change.apply c store, .error err) :=
    Or.imp_right fun ⟨err, hcode, h⟩ => ⟨err, .keep, hcode, Or.inl rfl, h⟩
  cases call with
  | createDirectory url outcome =>
      rw [run, DuckdbOpendal.createDirectory, change, FileCall.directory, Option.map_map]
      exact onUrl_cases (fun u op store hurl => hone
        (odCreateDir_cases op (cstr_path_of_parseUrl hurl) outcome store)) store
  | removeFile url outcome =>
      rw [run, DuckdbOpendal.removeFile, change, object, Option.map_map]
      exact onUrl_cases (fun u op store hurl => hone
        (odRemove_cases objectName op.toMutOperator (cstr_path_of_parseUrl hurl) outcome store))
        store
  | removeDirectory url outcome removed =>
      rw [run, DuckdbOpendal.removeDirectory, change, FileCall.directory, Option.map_map]
      refine onUrl_cases (fun u op store hurl => ?_) store
      have hhalf : (FileCall.removeDirectory url outcome removed).halfway objectName registry =
          .eraseWhere fun name => decide (below (objectName (asDirectory u.path)) <+: name) &&
            removed name := by
        simp [halfway, FileCall.directory, hurl]
      rcases odRemove_recursive_cases objectName op.toMutOperator
        (cstr_asDirectory (cstr_path_of_parseUrl hurl)) outcome store removed with
        h | ⟨err, left, hcode, hleft, h⟩
      · left
        rw [h, eraseBelow_eq]
        simp
      · right
        rcases hleft with rfl | rfl
        · exact ⟨err, .keep, hcode, Or.inl rfl, h⟩
        · refine ⟨err, _, hcode, Or.inr rfl, ?_⟩
          rw [h, eraseBelow_eq, hhalf]
  | moveFile source target outcomes => exact moveFile_cases _ source target outcomes store

end Calls

end DuckdbOpendal
