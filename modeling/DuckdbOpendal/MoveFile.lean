import DuckdbOpendal.Lib.AtomicMove
import DuckdbOpendal.Directories
import DuckdbOpendal.ObjectNames

/-!
# Moving a file

`MoveFile` on the mutations of `opendal/src/mutate.rs`: a rename where the service has
one, else a copy and a removal, else an error.  Whether a call to OpenDAL succeeds is an
input; one that does has its whole effect on the store, and one that does not has none.  The
removal of a directory alone is several calls behind one, and can fail half way.

## Main Definitions

* `run` — the checks of a mutation, and its call
* `odRename`, `odCopy`, `odRemove` — the mutations `MoveFile` uses
* `moveFile` — the move

## Main Results

* `moveFile_safe` — a move that returns has moved the file, one that throws has lost nothing
-/

namespace DuckdbOpendal

open AtomicMove

/-- `OdOperator`, with the flags of its capability that only the mutations read. -/
structure MutOperator extends OdOperator where
  rename : Bool
  delete : Bool

/-- `capability_bools`. -/
def MutOperator.capabilityBools (op : MutOperator) : List (Bytes × Bool) :=
  [(ascii "copy", op.cap.copy), (ascii "copy_with_if_match", op.cap.copyWithIfMatch),
    (ascii "copy_with_if_not_exists", op.cap.copyWithIfNotExists),
    (ascii "copy_with_source_version", op.cap.copyWithSourceVersion),
    (ascii "delete", op.delete), (ascii "list", op.cap.list),
    (ascii "list_with_deleted", op.cap.listWithDeleted),
    (ascii "list_with_start_after", op.cap.listWithStartAfter),
    (ascii "list_with_versions", op.cap.listWithVersions), (ascii "read", op.cap.read),
    (ascii "read_with_version", op.cap.readWithVersion), (ascii "rename", op.rename),
    (ascii "stat", op.cap.stat), (ascii "write", op.cap.write),
    (ascii "write_with_if_match", op.cap.writeWithIfMatch),
    (ascii "write_with_if_not_exists", op.cap.writeWithIfNotExists)]

/-- `od_operator_supports`. -/
def odOperatorSupports (op : MutOperator) (name : Bytes) : Bool :=
  match cstr name with
  | none => false
  | some name => ((op.capabilityBools.find? fun entry => entry.1 = name).map Prod.snd).getD false

/-! ## Mutations -/

/-- The objects of a service and their contents. -/
abbrev Store := Bytes → Option Bytes

/-- `run`: the checks of a mutation, and its call with the effect it has when it succeeds and
when it does not. -/
def run {α : Type} (checks : Except OdError α) (effect failed : α → Store → Store)
    (outcome : Outcome Unit) (store : Store) : Store × Except OdError Unit :=
  match checks with
  | .error err => (store, .error err)
  | .ok a =>
      match outcome with
      | .ok () => (effect a store, .ok ())
      | .err e => (failed a store, .error (setOpendalError e))
      | .panic => (failed a store, .error (setError .Panic (ascii "panic in mutation")))

/-- A call that fails and leaves the store. -/
def leavesStore {α : Type} (_ : α) (store : Store) : Store := store

section Mutations

/- The object an operation path names, once OpenDAL has normalised it. -/
variable (objectName : Bytes → Bytes) (op : MutOperator)

/-- `od_rename`. -/
def odRename (source target : Bytes) : Outcome Unit → Store → Store × Except OdError Unit :=
  run (do
    let source ← requireCstr source "from is null or not UTF-8"
    let target ← requireCstr target "to is null or not UTF-8"
    require op.scheme op.rename (ascii "rename")
    return (source, target)) (fun (source, target) store =>
      erase (objectName source) (copyTo (objectName source) (objectName target) store)) leavesStore

/-- `od_copy`. -/
def odCopy (source target : Bytes) : Outcome Unit → Store → Store × Except OdError Unit :=
  run (do
    let source ← requireCstr source "from is null or not UTF-8"
    let target ← requireCstr target "to is null or not UTF-8"
    require op.scheme op.cap.copy (ascii "copy")
    return (source, target)) (fun (source, target) =>
      copyTo (objectName source) (objectName target)) leavesStore

/-- Remove those of the objects below a directory that the test selects. -/
def eraseBelow (dir : Bytes) (selects : Bytes → Bool) (store : Store) : Store := fun name =>
  if below dir <+: name ∧ selects name = true then none else store name

/-- `od_remove`.  A recursive removal lists what is below the name and deletes it, so one that
fails has deleted a part of it, which `removed` selects. -/
def odRemove (path : Bytes) (recursive : Bool) (removed : Bytes → Bool) :
    Outcome Unit → Store → Store × Except OdError Unit :=
  run (do
    let path ← requireCstr path "path is null or not UTF-8"
    require op.scheme op.delete (ascii "delete")
    return path)
    (fun path =>
      if recursive then eraseBelow (objectName path) fun _ => true else erase (objectName path))
    (fun path => if recursive then eraseBelow (objectName path) removed else leavesStore path)

end Mutations

/-- How OpenDAL's calls end in a move. -/
structure MoveOutcomes where
  rename : Outcome Unit
  copy : Outcome Unit
  delete : Outcome Unit
  deriving DecidableEq, Repr

/-- `MoveFile`; `operators` is what `OperatorFor` returns or throws. -/
def moveFile (registry : Registry) (operators : ResolvedUrl → Except Bytes MutOperator)
    (objectName : Bytes → Bytes) (source target : Bytes) (outcomes : MoveOutcomes)
    (store : Store) : Store × Except Bytes Unit :=
  match parseUrl registry source with
  | none => (store, .error (ascii "opendal: move: unrecognized source URL: " ++ source))
  | some s =>
  match parseUrl registry target with
  | none => (store, .error (ascii "opendal: move: unrecognized target URL: " ++ target))
  | some t =>
  match operators s with
  | .error message => (store, .error message)
  | .ok op =>
  match operators t with
  | .error message => (store, .error message)
  | .ok targetOp =>
  if op.handle ≠ targetOp.handle then
    (store, .error (ascii "opendal: move: cross-operator move is not supported: " ++ source ++
      ascii " -> " ++ target))
  else if odOperatorSupports op (ascii "rename") then
    let renamed := odRename objectName op s.path t.path outcomes.rename store
    (renamed.1, orThrow renamed.2
      (ascii "opendal: move: " ++ source ++ ascii " -> " ++ target) ())
  else if odOperatorSupports op (ascii "copy") then
    let copied := odCopy objectName op s.path t.path outcomes.copy store
    match orThrow copied.2
        (ascii "opendal: move (copy): " ++ source ++ ascii " -> " ++ target) () with
    | .error message => (copied.1, .error message)
    | .ok () =>
        let removed := odRemove objectName op s.path false (fun _ => false) outcomes.delete
          copied.1
        (removed.1, orThrow removed.2
          (ascii "opendal: move (delete source after copy): " ++ source) ())
  else
    (store, .error (ascii "opendal: move: service '" ++ s.scheme ++
      ascii "' supports neither rename nor copy: " ++ source ++ ascii " -> " ++ target))

/-! ## What a mutation does -/

/-- **A mutation behind a capability** has its whole effect and succeeds, or fails with a
code, before its call or in it. -/
theorem run_require_cases {α : Type} (scheme name : Bytes) (supported : Bool) (a : α)
    (effect failed : α → Store → Store) (outcome : Outcome Unit) (store : Store) :
    run ((require scheme supported name).map fun _ => a) effect failed outcome store =
        (effect a store, .ok ()) ∨
      ∃ err left, err.code ≠ .Ok ∧ (left = store ∨ left = failed a store) ∧
        run ((require scheme supported name).map fun _ => a) effect failed outcome store =
          (left, .error err) := by
  cases supported with
  | false => exact Or.inr ⟨_, _, by simp, Or.inl rfl, rfl⟩
  | true =>
      cases outcome with
      | ok _ => exact Or.inl rfl
      | err e => exact Or.inr ⟨_, _, opendalErrorCode_ne_ok e, Or.inr rfl, rfl⟩
      | panic => exact Or.inr ⟨_, _, by simp, Or.inr rfl, rfl⟩

/-- One whose failed call leaves the store has its whole effect, or none. -/
theorem run_leaves_cases {α : Type} (scheme name : Bytes) (supported : Bool) (a : α)
    (effect : α → Store → Store) (outcome : Outcome Unit) (store : Store) :
    run ((require scheme supported name).map fun _ => a) effect leavesStore outcome store =
        (effect a store, .ok ()) ∨
      ∃ err, err.code ≠ .Ok ∧
        run ((require scheme supported name).map fun _ => a) effect leavesStore outcome store =
          (store, .error err) := by
  refine (run_require_cases scheme name supported a effect leavesStore outcome store).imp_right ?_
  rintro ⟨err, left, hcode, rfl | rfl, h⟩
  · exact ⟨err, hcode, h⟩
  · exact ⟨err, hcode, h⟩

section Mutations

variable (objectName : Bytes → Bytes) (op : MutOperator) {s t : Bytes} (hs : cstr s = some s)
  (ht : cstr t = some t) (outcome : Outcome Unit) (store : Store)
include hs

include ht in
/-- **`od_rename`** moves the object, or fails and leaves the store. -/
theorem odRename_cases :
    odRename objectName op s t outcome store =
        (erase (objectName s) (copyTo (objectName s) (objectName t) store), .ok ()) ∨
      ∃ err, err.code ≠ .Ok ∧
        odRename objectName op s t outcome store = (store, .error err) := by
  rw [odRename, requireCstr_eq_ok.mpr hs, requireCstr_eq_ok.mpr ht]
  exact run_leaves_cases op.scheme (ascii "rename") op.rename (s, t) _ outcome store

include ht in
/-- **`od_copy`** copies the object, or fails and leaves the store. -/
theorem odCopy_cases :
    odCopy objectName op s t outcome store =
        (copyTo (objectName s) (objectName t) store, .ok ()) ∨
      ∃ err, err.code ≠ .Ok ∧ odCopy objectName op s t outcome store = (store, .error err) := by
  rw [odCopy, requireCstr_eq_ok.mpr hs, requireCstr_eq_ok.mpr ht]
  exact run_leaves_cases op.scheme (ascii "copy") op.cap.copy (s, t) _ outcome store

/-- **`od_remove`** of a file removes the object, or fails and leaves the store. -/
theorem odRemove_cases {removed : Bytes → Bool} :
    odRemove objectName op s false removed outcome store = (erase (objectName s) store, .ok ()) ∨
      ∃ err, err.code ≠ .Ok ∧
        odRemove objectName op s false removed outcome store = (store, .error err) := by
  rw [odRemove, requireCstr_eq_ok.mpr hs]
  exact run_leaves_cases op.scheme (ascii "delete") op.delete s _ outcome store

/-- **`od_remove`** of a directory removes everything below it, or fails and has removed
nothing or a part. -/
theorem odRemove_recursive_cases (removed : Bytes → Bool) :
    odRemove objectName op s true removed outcome store =
        (eraseBelow (objectName s) (fun _ => true) store, .ok ()) ∨
      ∃ err left, err.code ≠ .Ok ∧
        (left = store ∨ left = eraseBelow (objectName s) removed store) ∧
        odRemove objectName op s true removed outcome store = (left, .error err) := by
  rw [odRemove, requireCstr_eq_ok.mpr hs]
  exact run_require_cases op.scheme (ascii "delete") op.delete s _ _ outcome store

end Mutations

/-! ## What a move does -/

/-- How a move may end: done, or with an exception and nothing lost. -/
def EndsSafely (source target : Bytes) (store : Store) : Store × Except Bytes Unit → Prop
  | (store', .ok ()) => Moved source target store store'
  | (store', .error _) => Intact source target store store'

/-- The path of a URL is a C string. -/
theorem cstr_path_of_parseUrl {registry : Registry} {url : Bytes} {u : ResolvedUrl}
    (h : parseUrl registry url = some u) : cstr u.path = some u.path :=
  cstr_of_utf8 (wellFormed_of_parseUrl h).path_nul (wellFormed_of_parseUrl h).path_utf8

section Move

variable {registry : Registry} (operators : ResolvedUrl → Except Bytes MutOperator)
  {objectName : Bytes → Bytes} {source target : Bytes} {s t : ResolvedUrl}
  (hs : parseUrl registry source = some s) (ht : parseUrl registry target = some t)
  (hne : objectName s.path ≠ objectName t.path)
include hs ht hne

theorem moveFile_endsSafely (outcomes : MoveOutcomes) (store : Store) :
    EndsSafely (objectName s.path) (objectName t.path) store
      (moveFile registry operators objectName source target outcomes store) := by
  have hsource := cstr_path_of_parseUrl hs
  have htarget := cstr_path_of_parseUrl ht
  simp only [moveFile, hs, ht]
  cases operators s with
  | error message => exact Intact.refl _ _ store
  | ok op =>
  cases operators t with
  | error message => exact Intact.refl _ _ store
  | ok targetOp =>
  simp only
  split
  · exact Intact.refl _ _ store
  split
  · rcases odRename_cases objectName op hsource htarget outcomes.rename store with
      h | ⟨err, hcode, h⟩
    · rw [h]
      exact moved_erase_copyTo hne store
    · rw [h]
      simp only [orThrow_error hcode]
      exact Intact.refl _ _ store
  split
  · rcases odCopy_cases objectName op hsource htarget outcomes.copy store with
      h | ⟨err, hcode, h⟩
    · rw [h]
      simp only [orThrow_ok]
      rcases odRemove_cases objectName op hsource outcomes.delete
        (copyTo (objectName s.path) (objectName t.path) store) with h | ⟨err, hcode, h⟩
      · rw [h]
        exact moved_erase_copyTo hne store
      · -- The copy has been made and the source is still there.
        rw [h]
        simp only [orThrow_error hcode]
        exact intact_copyTo hne store
    · rw [h]
      simp only [orThrow_error hcode]
      exact Intact.refl _ _ store
  · exact Intact.refl _ _ store

/-- **A move loses nothing**: if it returns, the target holds the content and the source is
gone; if it throws, the source still holds the content, and the target holds what it held or
the same content.  No other object changes. -/
theorem moveFile_safe (outcomes : MoveOutcomes) (store : Store) :
    (∀ store', moveFile registry operators objectName source target outcomes store =
        (store', .ok ()) → Moved (objectName s.path) (objectName t.path) store store') ∧
      (∀ store' message, moveFile registry operators objectName source target outcomes store =
        (store', .error message) → Intact (objectName s.path) (objectName t.path) store store') ∧
      ∃ name ∈ [objectName s.path, objectName t.path],
        (moveFile registry operators objectName source target outcomes store).1 name =
          store (objectName s.path) := by
  have hends := moveFile_endsSafely operators hs ht hne outcomes store
  generalize moveFile registry operators objectName source target outcomes store = result at hends
  obtain ⟨store', result⟩ := result
  refine ⟨?_, ?_, ?_⟩
  · rintro _ ⟨⟩
    exact hends
  · rintro _ message ⟨⟩
    exact hends
  · cases result with
    | ok _ => exact Moved.kept hends
    | error message => exact Intact.kept hends

end Move

/-- An operator that copies and deletes, but does not rename. -/
def copyingOperator : MutOperator := { objectOperator [] with rename := false, delete := true }

/-- The copy succeeds and the removal does not. -/
def deniedRemoval : MoveOutcomes := ⟨.panic, .ok (), .err ⟨.PermissionDenied, ascii "denied"⟩⟩

/-- A store with one object. -/
def oneObject : Store := fun name => if name = ascii "a" then some (ascii "xyz") else none

/-- A move by a copy and a removal that fails: both names hold the content. -/
theorem moveFile_safe_halfway :
    ∃ store' message, moveFile defaultRegistry (fun _ => .ok copyingOperator) id
        (ascii "memory://b/a") (ascii "memory://b/c") deniedRemoval oneObject =
          (store', .error message) ∧
      store' (ascii "c") = some (ascii "xyz") ∧
      Intact (ascii "a") (ascii "c") oneObject store' := by
  have hs : parseUrl defaultRegistry (ascii "memory://b/a") =
      some ⟨ascii "memory", ascii "b", ascii "a"⟩ := by decide
  have ht : parseUrl defaultRegistry (ascii "memory://b/c") =
      some ⟨ascii "memory", ascii "b", ascii "c"⟩ := by decide
  have hne : id (ascii "a") ≠ id (ascii "c") := by decide
  have hmove : moveFile defaultRegistry (fun _ => .ok copyingOperator) id (ascii "memory://b/a")
      (ascii "memory://b/c") deniedRemoval oneObject =
        (copyTo (ascii "a") (ascii "c") oneObject,
          .error (ascii "opendal: move (delete source after copy): memory://b/a: denied")) := by
    rfl
  exact ⟨_, _, hmove, by decide, (moveFile_safe (fun _ => .ok copyingOperator) hs ht hne
    deniedRemoval oneObject).2.1 _ _ hmove⟩

end DuckdbOpendal
