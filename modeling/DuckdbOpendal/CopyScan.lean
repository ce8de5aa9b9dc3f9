import DuckdbOpendal.Copy
import DuckdbOpendal.CopyPaths
import DuckdbOpendal.ObjectNames
import DuckdbOpendal.Lib.SequentialMoves

/-!
# Copying a tree onto its own store

A copy whose source and destination are one operator: the plan is fixed when it is
opened, and each call of the cursor copies one pair over the objects the earlier pairs
have left.  Seen from the store, a scan is a sequence of moves; it delivers what the
sources held when the plan was made, unless an earlier pair overwrote a source.  The plan
spells its destinations as the caller does, and OpenDAL names objects by normalised paths:
which object a pair writes is read off the name.

## Main Definitions

* `Objects` — the objects of a store
* `CopyScan` — a scan that runs to its end without an error

## Main Results

* `planEntries_names` — no two pairs of a plan write to one object
* `CopyScan.run` — a scan is a sequence of moves
* `copyScan_final` — what a scan leaves behind
-/

namespace DuckdbOpendal

open SequentialMoves

/-- The objects of a store, by name. -/
abbrev Objects := SortedMap Bytes Bytes

/-- What a successful copy left at its destination, of an object with this content: the
service's own copier copies the object, a writer publishes what it was given. -/
def published (sameOpCopy : Bool) (events : List CopyEvent) (content : Bytes) : Option Bytes :=
  if sameOpCopy then
    if .copierClose (.ok ()) ∈ events then some content else none
  else Journal.committed (writerCalls events)

/-- The store after a copy to the object of this name. -/
def Objects.after (st : Objects) (name : Bytes) : Option Bytes → Objects
  | some content => st.insert name content
  | none => st

/-- A scan of a copy within one store that runs to its end without an error; `objectName` is
OpenDAL's name for the object of a path.  Every copy reads the object its source names, as it
is by then, writes the one its destination names, and nobody else writes to the store. -/
inductive CopyScan (objectName getBasename : Bytes → Bytes) :
    Objects → OdCopyCursor → List OwnedCopyRow → Objects → Prop where
  | done {st : Objects} {c c' : OdCopyCursor} {calls : CopyCalls} {events : List CopyEvent}
      (h : odCopyCursorNext getBasename c calls = (c', events, .ok none)) :
      CopyScan objectName getBasename st c [] st
  | row {st st' : Objects} {c c' : OdCopyCursor} {calls : CopyCalls} {events : List CopyEvent}
      {row : OwnedCopyRow} {rows : List OwnedCopyRow} {content : Bytes}
      (h : odCopyCursorNext getBasename c calls = (c', events, .ok (some row)))
      (hsource : st.find? (objectName row.source) = some content) (hreads : calls.Reads content)
      (hrest : CopyScan objectName getBasename
        (st.after (objectName row.destination.path) (published c.sameOpCopy events content)) c'
        rows st') :
      CopyScan objectName getBasename st c (row :: rows) st'

/-! ## The destinations of a plan -/

/-- Everything is listed once. -/
def ListsOnce (op : OdOperator) : Prop :=
  ∀ root (entries : List Entry), op.lister root (.plain true) = .ok (entries.map .ok) →
    (entries.map Entry.path).Nodup

/-- A path as OpenDAL lists it: normalised, and without white space around it. -/
def ListedPath (path : Bytes) : Prop := NormalizedPath path ∧ Trimmed path

instance (path : Bytes) : Decidable (ListedPath path) := inferInstanceAs (Decidable (_ ∧ _))

/-- A path that is not at the operator root begins with a directory. -/
theorem exists_joinDest {destination : Bytes} (hne : destination ≠ []) :
    ∃ d, ∀ rel, joinDest destination rel = d ++ slash :: rel := by
  by_cases hslash : destination.getLast? = some slash
  · obtain ⟨d, rfl⟩ := List.getLast?_eq_some_iff.mp hslash
    exact ⟨d, fun rel => by simp [joinDest]⟩
  · exact ⟨destination, fun rel => by rw [joinDest, if_neg hne, if_neg hslash]⟩

/-- What is left of a listed path behind a base is normalised, and ends it. -/
theorem stripBase_normalized {base f : Bytes} (hbase : DirRoot base) (hf : NormalizedPath f) :
    NormalizedPath (stripBase base f) ∧ stripBase base f <:+ f := by
  unfold stripBase
  by_cases hstarts : base <+: f
  · rw [if_pos hstarts]
    obtain ⟨rest, rfl⟩ := hstarts
    rw [List.drop_left]
    refine ⟨?_, List.suffix_append base rest⟩
    rcases hbase with rfl | ⟨d, rfl⟩
    · exact hf
    · intro hempty
      refine hf ?_
      rw [List.append_assoc, List.singleton_append, List.splitOn_append_cons_self]
      exact List.mem_append_right _ hempty
  · rw [if_neg hstarts]
    exact ⟨hf, List.suffix_rfl⟩

section Names

variable {objectName : Bytes → Bytes} (hnames : NormalizesPaths objectName) {store : Set Bytes}
  {base : Bytes} (hbase : DirRoot base) (hstore : ∀ f ∈ store, ListedPath f)
  {entries : List Entry}
  (hfiles : ListsFiles entries {path | path ∈ store ∧ normalizeRoot base <+: path})
include hnames hbase hstore hfiles

/-- Where the files below a base are copied to: a destination names the object of the relative
path, below a directory that is the same for all. -/
theorem exists_name_joinDest {destination : Bytes} {selects : Bytes → Bool}
    (hdestination : destination ≠ [] ∨
      ∀ p ∈ planEntries base destination selects entries, Trimmed p.destination) :
    ∃ dir, ∀ e ∈ entries, e.metadata.isFile = true → selects e.path = true →
      objectName (joinDest destination (stripBase base e.path)) =
        dir ++ stripBase base e.path := by
  have hlisted : ∀ e ∈ entries, e.metadata.isFile = true → ListedPath e.path := by
    intro e he hfile
    exact hstore _ ((hfiles.files e.path).mp
      ⟨e, he, rfl, by simpa [Metadata.isFile] using hfile⟩).1
  by_cases hroot : destination = []
  · -- At the operator root a relative path is a path of its own.
    subst hroot
    refine ⟨[], fun e he hfile hselect => ?_⟩
    have htrim := hdestination.resolve_left (fun h => h rfl) _
      (mem_planEntries.mpr ⟨e, he, hfile, hselect, rfl⟩)
    rw [joinDest, if_pos rfl] at htrim ⊢
    exact hnames.objectName_eq (stripBase_normalized hbase (hlisted e he hfile).1).1 htrim
  · obtain ⟨d, hjoin⟩ := exists_joinDest hroot
    obtain ⟨dir, hdir⟩ := hnames.exists_objectName_append d
    refine ⟨dir, fun e he hfile _ => ?_⟩
    obtain ⟨hrel, hsuffix⟩ := stripBase_normalized hbase (hlisted e he hfile).1
    rw [hjoin]
    exact hdir _ hrel fun word hword hend =>
      ((hlisted e he hfile).2 word hword).2 (hend.trans hsuffix)

/-- **No two pairs of a plan write to one object.** -/
theorem planEntries_names (honce : (entries.map Entry.path).Nodup) {destination : Bytes}
    {selects : Bytes → Bool}
    (hdestination : destination ≠ [] ∨
      ∀ p ∈ planEntries base destination selects entries, Trimmed p.destination) :
    ((planEntries base destination selects entries).map fun p => objectName p.destination).Nodup
      := by
  have hlisted : ∀ e ∈ entries, e.metadata.isFile = true →
      NormalizedPath e.path ∧ normalizeRoot base <+: e.path := by
    intro e he hfile
    obtain ⟨hmem, hroot⟩ :=
      (hfiles.files e.path).mp ⟨e, he, rfl, by simpa [Metadata.isFile] using hfile⟩
    exact ⟨(hstore _ hmem).1, hroot⟩
  obtain ⟨dir, hname⟩ := exists_name_joinDest hnames hbase hstore hfiles hdestination
  rw [planEntries, List.map_map]
  refine List.Nodup.map_on ?_ ((honce.of_map _).filter _)
  intro e he e' he' h
  obtain ⟨hmem, hselect⟩ := List.mem_filter.mp he
  obtain ⟨hmem', hselect'⟩ := List.mem_filter.mp he'
  obtain ⟨hfile, hselect⟩ := Bool.and_eq_true_iff.mp hselect
  obtain ⟨hfile', hselect'⟩ := Bool.and_eq_true_iff.mp hselect'
  obtain ⟨hnormal, hroot⟩ := hlisted e hmem hfile
  obtain ⟨hnormal', hroot'⟩ := hlisted e' hmem' hfile'
  refine List.inj_on_of_nodup_map honce hmem hmem' ?_
  simp only [Function.comp_apply, hname e hmem hfile hselect, hname e' hmem' hfile' hselect'] at h
  exact stripBase_injOn hbase hnormal hnormal' hroot hroot' (List.append_cancel_left h)

end Names

/-! ## A scan is a sequence of moves -/

/-- What a pair of the plan makes of the object at its source. -/
def PlannedCopy.Transfers (sameOpCopy : Bool) (p : PlannedCopy) (v v' : Option Bytes) : Prop :=
  ∃ content written, v = some content ∧ v' = some written ∧
    (sameOpCopy = true ∨ p.size.val = content.length → written = content)

/-- A server-side copy that succeeds has closed its copier. -/
theorem copierClose_mem {calls : CopyCalls} {source destination : Bytes} {options : CopyOptions}
    {sourceSize : U64} {bytesCopied : ℕ} {metadata : Metadata}
    (h : (copyOne calls source destination options true sourceSize).result =
      .ok (bytesCopied, metadata)) :
    .copierClose (.ok ()) ∈ (copyOne calls source destination options true sourceSize).events := by
  obtain ⟨transferred, htransfer, -, hevents⟩ := Traced.bind_result_eq_ok.mp h
  rw [transfer, if_pos rfl] at htransfer
  obtain ⟨-, -, h₁, hevents₁⟩ := Traced.bind_result_eq_ok.mp htransfer
  obtain ⟨copied, -, h₂, hevents₂⟩ := Traced.bind_result_eq_ok.mp h₁
  obtain ⟨closed, hclose, -, hevents₃⟩ := Traced.bind_result_eq_ok.mp h₂
  rw [copyOne, hevents, transfer, if_pos rfl, copyServerSide, hevents₁, hevents₂, hevents₃]
  have hclosed : calls.copierClose = .ok closed := hclose
  simp [Traced.call, hclosed, outcomeOf]

/-- What a reported copy publishes. -/
theorem transfers_of_copyOne {calls : CopyCalls} {p : PlannedCopy} {options : CopyOptions}
    {sameOpCopy : Bool} {bytesCopied : ℕ} {metadata : Metadata} {content : Bytes}
    (h : (copyOne calls p.source p.destination options sameOpCopy p.size).result =
      .ok (bytesCopied, metadata)) (hreads : calls.Reads content) :
    ∃ written, published sameOpCopy
        (copyOne calls p.source p.destination options sameOpCopy p.size).events content =
          some written ∧
      (sameOpCopy = true ∨ p.size.val = content.length → written = content) := by
  cases sameOpCopy with
  | true =>
      refine ⟨content, ?_, fun _ => rfl⟩
      rw [published, if_pos rfl, if_pos (copierClose_mem h)]
  | false =>
      obtain ⟨copied, completion, htransfer, -, hcalls⟩ := copyOne_ok h
      obtain ⟨-, written, hwritten, -⟩ := copyStream_spec htransfer
      refine ⟨written, ?_, fun hsize => ?_⟩
      · rw [published, if_neg Bool.false_ne_true, hcalls]
        exact hwritten
      · have hwhole := (copyOne_stream_iff h hreads).mpr (hsize.resolve_left Bool.false_ne_true)
        rw [hcalls] at hwhole
        exact Option.some.inj (hwritten.symm.trans hwhole.1)

/-- **A scan is a sequence of moves** over the store, between the objects its pairs name. -/
theorem CopyScan.run {objectName getBasename : Bytes → Bytes} {st st' : Objects}
    {c : OdCopyCursor} {rows : List OwnedCopyRow}
    (h : CopyScan objectName getBasename st c rows st') :
    Run (fun p : PlannedCopy => objectName p.source) (fun p => objectName p.destination)
      (PlannedCopy.Transfers c.sameOpCopy) c.plan st.find? st'.find? := by
  induction h with
  | @done st c c' calls events h =>
      rw [plan_eq_nil_of_done (congrArg (fun next => next.2.2) h)]
      exact .nil _
  | @row st st' c c' calls events row rows content h hsource hreads hrest ih =>
      obtain ⟨p, plan, metadata, hplan, hpath, hdestination, hcopy, hevents⟩ :=
        odCopyCursorNext_row (congrArg (fun next => next.2.2) h)
      obtain ⟨hframe, -, hsame⟩ := odCopyCursorNext_frame getBasename c calls
      rw [h] at hevents hframe hsame
      obtain ⟨written, hpublished, hwritten⟩ := transfers_of_copyOne hcopy hreads
      -- As a move: the object the pair writes gets what was published.
      have hafter : (st.after (objectName row.destination.path)
            (published c.sameOpCopy events content)).find? =
          Function.update st.find? (objectName p.destination) (some written) := by
        simp only at hevents
        rw [hevents, hpublished, hdestination]
        funext name
        rw [Objects.after, SortedMap.find?_insert, Function.update_apply]
        congr
      rw [hafter, hframe, hsame, hplan, List.tail_cons] at ih
      rw [hplan]
      exact .cons ⟨content, written, hpath ▸ hsource, rfl, hwritten⟩ ih

/-! ## What a scan leaves behind -/

/-- **What a scan leaves behind.**  A directory or glob copy within one operator whose scan
ends without an error leaves at the object that the destination of a planned pair names what
its source held when the plan was made, if no earlier pair of the plan has a destination that
names that source and, on the Reader->Writer path, the listing gave its length.  A copy to the
operator root takes the relative paths as they are; there none may begin with white space. -/
theorem copyScan_final {objectName getBasename : Bytes → Bytes}
    (hnames : NormalizesPaths objectName) {op : OdOperator} {source destination : Bytes}
    {rawOptions : OdCopyOptions} {cursor : OdCopyCursor} {st st' : Objects}
    {rows : List OwnedCopyRow} (hstore : ∀ f ∈ {f | (st.find? f).isSome}, ListedPath f)
    (hlists : ListsStore op {f | (st.find? f).isSome}) (honce : ListsOnce op)
    (htree : IsTree op (cStr source))
    (hopen : odTableCopyOpen op source op destination rawOptions = .ok cursor)
    (hscan : CopyScan objectName getBasename st cursor rows st')
    (hroot : cStr destination ≠ [] ∨ ∀ q ∈ cursor.plan, Trimmed q.destination)
    (before : List PlannedCopy) {after : List PlannedCopy} {p : PlannedCopy}
    (hplan : cursor.plan = before ++ p :: after)
    (hsource : ∀ q ∈ before, objectName q.destination ≠ objectName p.source)
    (hsize : cursor.sameOpCopy = true ∨
      ∀ content, st.find? (objectName p.source) = some content → p.size.val = content.length) :
    ∃ content, st.find? (objectName p.source) = some content ∧
      st'.find? (objectName p.destination) = some content := by
  have hrun := hscan.run
  obtain ⟨source', destination', options, plan, hcstr, hcstr', -, hcopyPlan, rfl⟩ :=
    odTableCopyOpen_eq_ok hopen
  cases (cstr_eq_some_iff.mp hcstr).2
  cases (cstr_eq_some_iff.mp hcstr').2
  obtain ⟨entries, hentries, rfl⟩ := copyPlan_of_isTree htree hcopyPlan
  obtain ⟨listed, hlister, hfiles⟩ := hlists.recursive _ (dirRoot_copyBase (cStr source))
  cases hentries.symm.trans (OdOperator.listOptions_eq hlister)
  have hnodup := planEntries_names hnames (dirRoot_copyBase _) hstore hfiles
    (honce _ _ hlister) hroot
  simp only at hplan hsize hrun
  rw [hplan] at hrun hnodup
  -- No later pair writes to the object of this one.
  have hafter : ∀ q ∈ after, objectName q.destination ≠ objectName p.destination := by
    rw [List.map_append, List.map_cons] at hnodup
    intro q hq heq
    refine (List.nodup_cons.mp (List.nodup_append.mp hnodup).2.1).1 ?_
    exact heq ▸ List.mem_map_of_mem (f := fun p => objectName p.destination) hq
  obtain ⟨content, written, hcontent, hwritten, hfaithful⟩ :=
    hrun.apply_destination hsource hafter
  refine ⟨content, hcontent, ?_⟩
  rw [hwritten, hfaithful (hsize.imp_right fun h => h content hcontent)]

/-! ## Scans that go well -/

theorem storeOperator_listsOnce {cap : Capability} {files : List Entry}
    (h : (files.map Entry.path).Nodup) : ListsOnce (storeOperator cap files) := by
  intro root entries hentries
  have hfiltered := List.map_injective_iff.mpr (fun _ _ h => Except.ok.inj h)
    (Except.ok.inj hentries)
  rw [← hfiltered]
  exact h.sublist (List.filter_sublist.map _)

/-- The objects after a server-side copy of one pair. -/
def Objects.copyPair (objectName : Bytes → Bytes) (st : Objects) (p : PlannedCopy) : Objects :=
  st.after (objectName p.destination) (st.find? (objectName p.source))

theorem isSome_find?_copyPair {objectName : Bytes → Bytes} {st : Objects} {p : PlannedCopy}
    {name : Bytes} (h : (st.find? name).isSome) :
    ((st.copyPair objectName p).find? name).isSome := by
  unfold Objects.copyPair
  cases st.find? (objectName p.source) with
  | none => exact h
  | some content =>
      rw [Objects.after, SortedMap.find?_insert]
      split
      · rfl
      · exact h

/-- **A server-side scan that goes well** copies the pairs of the plan in order. -/
theorem exists_copyScan_calm (objectName : Bytes → Bytes) {getBasename : Bytes → Bytes}
    (hbase : ∀ path, getBasename path <:+ path) (st : Objects) (c : OdCopyCursor)
    (hsame : c.sameOpCopy = true)
    (hplan : ∀ p ∈ c.plan,
      (st.find? (objectName p.source)).isSome ∧ 0 ∉ p.source ∧ 0 ∉ p.destination) :
    ∃ rows, CopyScan objectName getBasename st c rows
      (c.plan.foldl (Objects.copyPair objectName) st) := by
  induction hc : c.plan generalizing st c with
  | nil =>
      have hdone : odCopyCursorNext getBasename c (calmCalls []) = (c, [], .ok none) := by
        simp only [odCopyCursorNext, hc]
      exact ⟨[], .done hdone⟩
  | cons p plan ih =>
      obtain ⟨hsource, hsource0, hdestination0⟩ := hplan p (hc ▸ List.mem_cons_self)
      obtain ⟨content, hcontent⟩ := Option.isSome_iff_exists.mp hsource
      have hcopy : (copyOne (calmCalls content) p.source p.destination c.options c.sameOpCopy
          p.size).result = .ok (max 0 p.size.val, .ofLength .FILE 0) := by
        rw [hsame]
        rfl
      have hrow : OwnedRow.fromParts getBasename p.destination (.ofLength .FILE 0) =
          .ok (OwnedRow.ofParts getBasename p.destination (.ofLength .FILE 0)) :=
        OwnedRow.fromParts_eq hbase hdestination0 (by simp)
      have hnext := odCopyCursorNext_of_ok hc hcopy hsource0 hrow
      obtain ⟨written, hpublished, hwritten⟩ :=
        transfers_of_copyOne hcopy (calmCalls_reads content)
      obtain ⟨rows, hrows⟩ := ih (st.copyPair objectName p)
        { c with
          plan := plan
          current := some ⟨max 0 p.size.val, p.source,
            .ofParts getBasename p.destination (.ofLength .FILE 0)⟩ }
        hsame
        (fun q hq => by
          obtain ⟨hfound, hnul⟩ := hplan q (hc ▸ List.mem_cons_of_mem _ hq)
          exact ⟨isSome_find?_copyPair hfound, hnul⟩) rfl
      refine ⟨_ :: rows, .row hnext hcontent (calmCalls_reads content) ?_⟩
      rw [hpublished, hwritten (Or.inl hsame), List.foldl_cons]
      simp only [Objects.copyPair, hcontent] at hrows ⊢
      exact hrows

/-- Two objects. -/
def twoObjects (a b : Bytes) : Objects :=
  ((∅ : Objects).insert a (ascii "1")).insert b (ascii "2")

theorem twoObjects_isSome {a b f : Bytes} :
    ((twoObjects a b).find? f).isSome ↔ f = a ∨ f = b := by
  rw [twoObjects, SortedMap.find?_insert, SortedMap.find?_insert]
  split
  · simp [*]
  · split
    · simp [*]
    · simp [*]

/-- A service that holds them. -/
theorem listsStore_twoObjects {a b : Entry} (ha : a.metadata.mode = .FILE)
    (hb : b.metadata.mode = .FILE) :
    ListsStore (storeOperator .all [a, b]) {f | ((twoObjects a.path b.path).find? f).isSome} := by
  have hpaths : {f | ((twoObjects a.path b.path).find? f).isSome} =
      {f | ∃ e ∈ [a, b], e.path = f} := by
    ext f
    rw [Set.mem_ofPred_eq, Set.mem_ofPred_eq, twoObjects_isSome]
    simp [eq_comm]
  rw [hpaths]
  refine storeOperator_listsStore rfl fun e he => ?_
  rcases List.mem_pair.mp he with rfl | rfl
  · exact ha
  · exact hb

/-- The contents of the two files. -/
abbrev nestedObjects : Objects := twoObjects (ascii "d/a") (ascii "d/sub/a")

theorem nestedStore_listsStore :
    ListsStore nestedStore {f | (nestedObjects.find? f).isSome} :=
  listsStore_twoObjects rfl rfl

theorem nestedObjects_listed :
    ∀ f ∈ {f | (nestedObjects.find? f).isSome}, ListedPath f := by
  intro f hf
  rcases twoObjects_isSome.mp hf with rfl | rfl
  · decide
  · decide

theorem nestedStore_listsOnce : ListsOnce nestedStore :=
  storeOperator_listsOnce (by decide)

/-- Copying the directory elsewhere, to a destination that is not spelled as it is named. -/
theorem copyScan_final_disjoint :
    ∃ rows st', CopyScan normalizePath (Text.afterLast slash) nestedObjects
        (nestedCursor [⟨ascii "d/a", ascii "/e/a", 1⟩, ⟨ascii "d/sub/a", ascii "/e/sub/a", 1⟩])
        rows st' ∧
      ∃ content, nestedObjects.find? (ascii "d/sub/a") = some content ∧
        st'.find? (ascii "e/sub/a") = some content := by
  obtain ⟨rows, hscan⟩ := exists_copyScan_calm normalizePath (Text.afterLast_suffix slash)
    nestedObjects (nestedCursor
      [⟨ascii "d/a", ascii "/e/a", 1⟩, ⟨ascii "d/sub/a", ascii "/e/sub/a", 1⟩]) rfl (by decide)
  have hopen : odTableCopyOpen nestedStore (ascii "d/") nestedStore (ascii "/e/") .unset =
      .ok (nestedCursor
        [⟨ascii "d/a", ascii "/e/a", 1⟩, ⟨ascii "d/sub/a", ascii "/e/sub/a", 1⟩]) := rfl
  have hsource : normalizePath (ascii "d/sub/a") = ascii "d/sub/a" := by decide
  have hdestination : normalizePath (ascii "/e/sub/a") = ascii "e/sub/a" := by decide
  obtain ⟨content, hbefore, hafter⟩ := copyScan_final normalizePath_normalizes
    nestedObjects_listed nestedStore_listsStore nestedStore_listsOnce nestedStore_isTree hopen
    hscan (Or.inl (by decide)) [⟨ascii "d/a", ascii "/e/a", 1⟩] rfl (by decide) (Or.inl rfl)
  rw [hsource] at hbefore
  rw [hdestination] at hafter
  exact ⟨rows, _, hscan, content, hbefore, hafter⟩

/-- A file whose name begins with white space, and one with the name behind it. -/
def spacedFiles : List Entry :=
  [fileEntry (ascii "d/ a") (by decide) 1, fileEntry (ascii "d/a") nestedFile_utf8 1]

/-- A service that lists them and copies on its side. -/
def spacedStore : OdOperator := storeOperator .all spacedFiles

/-- The cursor of a copy of their directory to the operator root. -/
def spacedCursor : OdCopyCursor :=
  ⟨spacedStore, spacedStore, ⟨false, none, none, none, 0, none⟩, true,
    [⟨ascii "d/ a", ascii " a", 1⟩, ⟨ascii "d/a", ascii "a", 1⟩], none⟩

/-- Copying the directory into itself: the second file is overwritten before it is copied.
Copying the other directory to the root: both destinations name one object. -/
theorem copyScan_overlap :
    (ListsStore nestedStore {f | (nestedObjects.find? f).isSome} ∧
      IsTree nestedStore (cStr (ascii "d/")) ∧
      odTableCopyOpen nestedStore (ascii "d/") nestedStore (ascii "d/sub/") .unset =
        .ok (nestedCursor
          [⟨ascii "d/a", ascii "d/sub/a", 1⟩, ⟨ascii "d/sub/a", ascii "d/sub/sub/a", 1⟩]) ∧
      ∃ rows st', CopyScan normalizePath (Text.afterLast slash) nestedObjects
          (nestedCursor
            [⟨ascii "d/a", ascii "d/sub/a", 1⟩, ⟨ascii "d/sub/a", ascii "d/sub/sub/a", 1⟩])
          rows st' ∧
        nestedObjects.find? (normalizePath (ascii "d/sub/a")) = some (ascii "2") ∧
          st'.find? (normalizePath (ascii "d/sub/sub/a")) = some (ascii "1")) ∧
    ListsStore spacedStore {f | ((twoObjects (ascii "d/ a") (ascii "d/a")).find? f).isSome} ∧
      odTableCopyOpen spacedStore (ascii "d/") spacedStore [] .unset = .ok spacedCursor ∧
      ∃ rows st', CopyScan normalizePath (Text.afterLast slash)
          (twoObjects (ascii "d/ a") (ascii "d/a")) spacedCursor rows st' ∧
        (twoObjects (ascii "d/ a") (ascii "d/a")).find? (normalizePath (ascii "d/ a")) =
            some (ascii "1") ∧
          st'.find? (normalizePath (ascii " a")) = some (ascii "2") := by
  obtain ⟨rows, hscan⟩ := exists_copyScan_calm normalizePath (Text.afterLast_suffix slash)
    nestedObjects (nestedCursor
      [⟨ascii "d/a", ascii "d/sub/a", 1⟩, ⟨ascii "d/sub/a", ascii "d/sub/sub/a", 1⟩])
    rfl (by decide)
  obtain ⟨rows', hscan'⟩ := exists_copyScan_calm normalizePath (Text.afterLast_suffix slash)
    (twoObjects (ascii "d/ a") (ascii "d/a")) spacedCursor rfl (by decide)
  exact ⟨⟨nestedStore_listsStore, nestedStore_isTree, rfl, rows, _, hscan, by decide, by decide⟩,
    listsStore_twoObjects rfl rfl, rfl, rows', _, hscan', by decide, by decide⟩

end DuckdbOpendal
