import Mathlib.Data.List.Destutter
import Mathlib.Data.List.Sort
import DuckdbOpendal.BuildOperator
import DuckdbOpendal.Table
import DuckdbOpendal.WriteHandle

/-!
# Globbing through the file system

`OpenDalFileSystem::Glob` with the entry points it calls: list the directory before
the first wildcard, recursively only when the rest of the pattern needs it, keep the
files that match, and return their URLs in order and once each.

## Main Definitions

* `odList`, `odListEntry`, `odGlobMatch`, `odStat` — the entry points
* `fileSystemGlob` — `OpenDalFileSystem::Glob`

## Main Results

* `mem_sortUnique`, `sortUnique_pairwise` — sorting and removing repetitions
-/

namespace DuckdbOpendal

/-! ## The entry points -/

/-- `od_list`. -/
def odList (op : OdOperator) (path : Bytes) (recursive : Bool) : Except OdError (List Entry) := do
  require op.scheme op.cap.list (ascii "list")
  let path ← requireCstr path "path is null or not UTF-8"
  orOpendalError (op.listOptions path (.plain recursive))

/-- `OdEntry`, without the base name that only directory listings read. -/
structure OdEntry where
  path : Bytes
  contentLength : U64
  lastModifiedMs : ℤ
  isDir : Bool
  deriving DecidableEq, Repr

/-- `od_list_entry` at an index of the list.  A path with a NUL becomes the empty C
string (`cached_ptrs`). -/
def odListEntry (e : Entry) : OdEntry where
  path := (CString.new e.path).getD []
  contentLength := e.metadata.contentLength
  lastModifiedMs := e.metadata.lastModifiedMs.getD (-1)
  isDir := e.metadata.isDir

/-- `od_glob_match`. -/
def odGlobMatch (pattern path : Bytes) : Bool :=
  match cstr pattern, cstr path with
  | some pattern, some path => globMatches pattern path
  | _, _ => false

/-- `OdMetadata`. -/
structure OdMetadata where
  contentLength : U64
  lastModifiedMs : ℤ
  isDir : Bool
  deriving DecidableEq, Repr

/-- `od_stat`. -/
def odStat (op : OdOperator) (path : Bytes) : Except OdError OdMetadata := do
  require op.scheme op.cap.stat (ascii "stat")
  let path ← requireCstr path "path is null or not UTF-8"
  let metadata ← orOpendalError (op.stat path none)
  return ⟨metadata.contentLength, metadata.lastModifiedMs.getD (-1), metadata.isDir⟩

/-! ## The file system -/

/-- `BuildUrl`. -/
def buildUrl (scheme authority path : Bytes) : Except Bytes Bytes :=
  match odUrlBuild scheme authority path with
  | some url => .ok url
  | none => .error (ascii "opendal: url_build: failed to build public URL")

section FileSystem

variable (registry : Registry) (operators : ResolvedUrl → Except Bytes OdOperator)

/-- `FileExists`; `operators` is what `OperatorFor` returns or throws. -/
def fileExists (filename : Bytes) : Except Bytes Bool :=
  match parseUrl registry filename with
  | none => .ok false
  | some u => do
      let op ← operators u
      match odStat op u.path with
      | .ok metadata => return !metadata.isDir
      | .error err =>
          if err.code = .NotFound then return false
          else
            throwIfError err (ascii "opendal: stat: " ++ filename)
            return true

/-- The loop of `Glob` over the listed entries. -/
def globUrls (scheme authority pattern : Bytes) : List Entry → Except Bytes (List Bytes)
  | [] => .ok []
  | e :: entries =>
      let ent := odListEntry e
      let epath := trimStartSlashes ent.path
      if !ent.isDir && odGlobMatch pattern epath then do
        let url ← buildUrl scheme authority epath
        let urls ← globUrls scheme authority pattern entries
        return url :: urls
      else globUrls scheme authority pattern entries

/-- `std::sort` and `std::unique`. -/
def sortUnique (urls : List Bytes) : List Bytes :=
  (urls.insertionSort (· ≤ ·)).destutter (· ≠ ·)

/-- The directory `Glob` lists: the static part of the pattern, without its trailing
slash unless a slash is left. -/
def globListDir (rel : Bytes) : Bytes :=
  let staticDir := (globRoot rel).dropLast
  if staticDir = [] ∨ staticDir.getLast? ≠ some slash then staticDir ++ [slash] else staticDir

/-- The part of the pattern behind the static directory. -/
def globRemaining (rel : Bytes) : Bytes := rel.drop (globRoot rel).length

/-- Whether the rest of the pattern reaches below the listed directory. -/
def globRecursive (rel : Bytes) : Bool :=
  slash ∈ globRemaining rel ∨ [starByte, starByte] <:+: globRemaining rel

/-- `OpenDalFileSystem::Glob`. -/
def fileSystemGlob (haveContext : Bool) (path : Bytes) : Except Bytes (List Bytes) :=
  match parseUrl registry path with
  | none => .ok []
  | some u =>
      if hasGlob path = false then
        if haveContext = false then .ok [path]
        else do
          let found ← fileExists registry operators path
          return if found then [path] else []
      else do
        let op ← operators u
        let pattern := trimStartSlashes u.path
        match odList op (globListDir u.path) (globRecursive u.path) with
        | .error err =>
            if err.code = .NotFound then return []
            else
              throwIfError err (ascii "opendal: glob: " ++ path)
              return []
        | .ok list =>
            let results ← globUrls u.scheme u.authority pattern list
            return sortUnique results

end FileSystem

/-! ## Sorting and removing repetitions -/

theorem sortUnique_eq (urls : List Bytes) :
    sortUnique urls = (urls.insertionSort (· ≤ ·)).dedup :=
  List.Pairwise.destutter_eq_dedup (List.pairwise_insertionSort (· ≤ ·) urls)

@[simp] theorem mem_sortUnique {urls : List Bytes} {url : Bytes} :
    url ∈ sortUnique urls ↔ url ∈ urls := by
  rw [sortUnique_eq, List.mem_dedup, List.mem_insertionSort]

/-- The result is in strictly increasing order. -/
theorem sortUnique_pairwise (urls : List Bytes) : (sortUnique urls).Pairwise (· < ·) := by
  have hsorted : (sortUnique urls).Pairwise (· ≤ ·) :=
    (List.pairwise_insertionSort (· ≤ ·) urls).sublist (List.destutter_sublist _ _)
  have hnodup : (sortUnique urls).Pairwise (· ≠ ·) := by
    rw [sortUnique_eq]
    exact List.nodup_dedup _
  exact hsorted.imp₂ (fun _ _ hle hne => lt_of_le_of_ne hle hne) hnodup

end DuckdbOpendal
