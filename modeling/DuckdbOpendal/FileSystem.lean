import DuckdbOpendal.OpenFile

/-!
# The file system at work

Any sequence of calls of the file system: files opened for writing, operations on the open
handles in any order, and the calls that change a service.  Each call does at most one thing to
the objects of the services, and says whether it did: so a run is a log of changes, and what a
service holds can be traced through it.  Log calls are taken not to throw.

An object is taken to change when a close of its writer succeeds, and by nothing else that a
writer does.  So it is in an object store; `fs` needs its `atomic_write_dir` for it, and writes
in place without one.

## Main Definitions

* `OpenWrite` — a file opened for writing, by what was asked of its handle
* `FileSystem.State`, `FileSystemOp`, `FileSystem.step` — the objects of the services, the open
  files, and the calls
* `FileSystem.Did` — what a call may have done, given its answer
* `FileSystem.MayWrite` — the objects a call is about

## Main Results

* `fileSystem_log` — every run is a log of such changes
-/

namespace DuckdbOpendal

open ChangeLog

/-! ## When a handle publishes -/

/-- A writer has published its object once a close succeeded. -/
theorem Journal.committed_eq_none_iff (calls : Journal) :
    committed calls = none ↔ commits calls = 0 := by
  have hfrom : ∀ content, committedFrom content calls = none ↔ commits calls = 0 := by
    induction calls with
    | nil => exact fun _ => iff_of_true rfl rfl
    | cons c calls ih =>
        intro content
        cases c with
        | write bytes outcome =>
            have hcommits : commits (.write bytes outcome :: calls) = commits calls := by
              simp [commits]
            rw [hcommits]
            cases outcome <;> exact ih _
        | close outcome =>
            cases outcome with
            | ok _ => simp [committedFrom, commits]
            | err e =>
                have hcommits : commits (.close (.err e) :: calls) = commits calls := by
                  simp [commits]
                rw [hcommits]
                exact ih content
            | panic =>
                have hcommits : commits (.close .panic :: calls) = commits calls := by
                  simp [commits]
                rw [hcommits]
                exact ih content
        | abort outcome =>
            have hcommits : commits (.abort outcome :: calls) = commits calls := by
              simp [commits]
            rw [hcommits]
            exact ih content
  exact hfrom []

section Publishing

variable {chunks : List Bytes} {h : WriteHandle}

/-- A handle has published nothing, or all that was written to it. -/
theorem Phase.committed_cases (hphase : Phase False chunks h) :
    h.journal.committed = none ∨ h.journal.committed = some chunks.flatten := by
  obtain ⟨-, state, tail, hjournal, hending⟩ := hphase.exists_ending
  by_cases hcommits : Journal.commits tail = 0
  · left
    rw [Journal.committed_eq_none_iff, hjournal, Journal.commits_append, Journal.commits_writes,
      hcommits]
  · right
    rw [hjournal]
    exact hending.committed_eq chunks (Nat.pos_of_ne_zero hcommits)

/-- What a handle has published stays. -/
theorem Phase.committed_step (hphase : Phase False chunks h) {content : Bytes}
    (hcommitted : h.journal.committed = some content) (op : HandleOp) :
    (handleStep h op).1.journal.committed = some content := by
  have hdone : h.Done := by
    cases hphase with
    | writing hcount =>
        simp only [WriteHandle.journal, writingHandle, List.nil_append, Option.toList_some,
          List.flatMap_cons, List.flatMap_nil, List.append_nil] at hcommitted
        have hnone : Journal.committed (Journal.writes chunks) = none :=
          (Journal.committed_eq_none_iff _).mpr (Journal.commits_writes chunks)
        rw [hnone] at hcommitted
        cases hcommitted
    | finished hcount hending hsettled => exact Or.inr rfl
    | freed hcount hending hsettled => exact Or.inl rfl
  rw [(journal_of_done hdone op).2, hcommitted]

/-- An operation that throws publishes nothing. -/
theorem Phase.committed_of_throws (hphase : Phase False chunks h) {op : HandleOp} {message : Bytes}
    (hthrow : (handleStep h op).2 = .error message) :
    (handleStep h op).1.journal.committed = h.journal.committed := by
  by_cases hdone : h.Done
  · rw [(journal_of_done hdone op).2]
  cases hphase with
  | finished hcount hending hsettled => exact absurd (Or.inr rfl) hdone
  | freed hcount hending hsettled => exact absurd (Or.inl rfl) hdone
  | @writing path count hcount =>
  -- Before and after, no close of the writer has succeeded.
  have hbefore : (writingHandle path (Journal.writes chunks) count).journal.commits = 0 := by
    simp [WriteHandle.journal, writingHandle]
  rw [(Journal.committed_eq_none_iff _).mpr hbefore, Journal.committed_eq_none_iff]
  have hunclosed : ∀ {state tail}, Ending state tail → state ≠ .Closed →
      Journal.commits (Journal.writes chunks ++ tail) = 0 := by
    intro state tail hending hclosed
    rw [Journal.commits_append, Journal.commits_writes, hending.commits_eq, if_neg hclosed]
  have hwrite : ∀ {buffer n location outcome abort},
      ((writingHandle path (Journal.writes chunks) count).write buffer n location outcome
        abort).2 = .error message →
      ((writingHandle path (Journal.writes chunks) count).write buffer n location outcome
        abort).1.journal.commits = 0 := by
    intro buffer n location outcome abort hthrow
    by_cases haccepts : (writingHandle path (Journal.writes chunks) count).Accepts n location
    · rcases write_accepted haccepts buffer outcome abort with
        ⟨hok, -⟩ | ⟨state, tail, message', herror, hending, hclosed, -⟩
      · rw [hok] at hthrow
        cases hthrow
      · rw [herror]
        simpa [WriteHandle.journal] using hunclosed hending hclosed
    · obtain ⟨message', herror⟩ := write_rejected haccepts buffer outcome abort
      rw [herror]
      exact hbefore
  have hclose : ∀ {throwOnError close abort},
      ((writingHandle path (Journal.writes chunks) count).closeInternal throwOnError close
        abort).2 = .error message →
      ((writingHandle path (Journal.writes chunks) count).closeInternal throwOnError close
        abort).1.journal.commits = 0 := by
    intro throwOnError close abort hthrow
    simp only [WriteHandle.closeInternal, WriteHandle.finalize, writingHandle, Bool.false_eq_true,
      if_false, if_true, List.nil_append] at hthrow ⊢
    rcases odWriterClose_open (Journal.writes chunks) close abort with
      hok | ⟨state, tail, e, herror, -, hending, hclosed, -⟩
    · rw [hok] at hthrow
      simp at hthrow
    · rw [herror]
      simpa [WriteHandle.journal] using hunclosed hending hclosed
  cases op with
  | write buffer n location outcome abort => exact hwrite hthrow
  | writeNext buffer n outcome abort => exact hwrite hthrow
  | fileSync close abort =>
      simp only [handleStep, WriteHandle.fileSync, writingHandle, Bool.false_eq_true, if_false]
        at hthrow ⊢
      rcases odWriterClose_open (Journal.writes chunks) close abort with
        hok | ⟨state, tail, e, herror, -, hending, hclosed, -⟩
      · rw [hok] at hthrow
        cases hthrow
      · rw [herror]
        simpa [WriteHandle.journal] using hunclosed hending hclosed
  | close close abort => exact hclose hthrow
  | destruct close abort => exact hclose hthrow

end Publishing

/-! ## The calls -/

/-- An object of a service, by the service and the object's name. -/
abbrev Place := ℕ × Bytes

/-- A file opened for writing: the object it is for, and what was asked of its handle. -/
structure OpenWrite where
  place : Place
  path : Bytes
  ops : List HandleOp

namespace OpenWrite

/-- The handle, after what was asked of it. -/
def handle (o : OpenWrite) : WriteHandle :=
  Mealy.final handleStep (openFile o.path (.ok ()) .returned) o.ops

/-- What the `Write`s that returned have written. -/
def content (o : OpenWrite) : Bytes :=
  (runChunks (openFile o.path (.ok ()) .returned) o.ops).flatten

/-- What OpenDAL has made of the object. -/
def published (o : OpenWrite) : Option Bytes := o.handle.journal.committed

/-- The file after one more operation. -/
def after (o : OpenWrite) (op : HandleOp) : OpenWrite := { o with ops := o.ops ++ [op] }

theorem handle_after (o : OpenWrite) (op : HandleOp) :
    (o.after op).handle = (handleStep o.handle op).1 := by
  rw [handle, after, Mealy.final_append]
  rfl

theorem phase (o : OpenWrite) :
    Phase False (runChunks (openFile o.path (.ok ()) .returned) o.ops) o.handle := by
  simpa [handle] using (phase_openFile False o.path (.ok ()) nofun .returned).run o.ops nofun

/-- **Nothing but the whole content** of the writes that returned is published. -/
theorem published_eq_content {o : OpenWrite} {content : Bytes} (h : o.published = some content) :
    content = o.content := by
  rcases o.phase.committed_cases with hnone | hsome
  · rw [published, hnone] at h
    cases h
  · rw [published, hsome] at h
    exact (Option.some.inj h).symm

theorem published_after {o : OpenWrite} {content : Bytes} (h : o.published = some content)
    (op : HandleOp) : (o.after op).published = some content := by
  rw [published, handle_after]
  exact o.phase.committed_step h op

/-- What the `Write`s have written has a length that `OpenFile` accepts. -/
theorem length_content_lt (o : OpenWrite) : o.content.length < 2 ^ 63 := by
  have hopened : (openFile o.path (.ok ()) .returned).bytesWritten ≤ int64Max :=
    show (0 : ℤ) ≤ int64Max by decide
  have hbound : o.handle.bytesWritten ≤ int64Max :=
    Mealy.final_invariant handleStep (fun h => h.bytesWritten ≤ int64Max)
      (fun _ op hcount => handleStep_bytesWritten_le op hcount) hopened o.ops
  have hcount : o.handle.bytesWritten = o.content.length := o.phase.exists_ending.1
  rw [hcount, int64Max] at hbound
  omega

end OpenWrite

namespace FileSystem

/-- The objects of all services, and the files opened for writing. -/
structure State where
  objects : Place → Option Bytes
  writes : List OpenWrite

end FileSystem

/-- A call of the file system, with the operators it finds and the outcomes of OpenDAL's
calls. -/
inductive FileSystemOp where
  | openFile (operators : ResolvedUrl → Except Bytes FileOperator) (path : Bytes)
      (flags : FileOpenFlags) (outcomes : OpenOutcomes)
  | onHandle (i : ℕ) (op : HandleOp)
  | call (operators : ResolvedUrl → Except Bytes FileOperator) (call : FileCall)

namespace FileSystem

/- Which directories the services keep as empty objects, the object an operation path names, and
the service behind an operator. -/
variable (marks : ℕ → Bytes → Bool) (objectName : Bytes → Bytes) (service : ℕ → ℕ)
  (registry : Registry)

/-- The service of a URL. -/
def serviceOf (operators : ResolvedUrl → Except Bytes FileOperator) (url : Bytes) : ℕ :=
  ((parseUrl registry url).bind fun u =>
    (operators u).toOption.map fun op => service op.handle).getD 0

/-- The object of a URL. -/
def placeOf (operators : ResolvedUrl → Except Bytes FileOperator) (url : Bytes) : Place :=
  (serviceOf service registry operators url, (FileCall.object objectName registry url).getD [])

/-- What an operation on a handle does to the objects: OpenDAL overwrites the object when a
close succeeds. -/
def publication (o : OpenWrite) (op : HandleOp) : Change Place Bytes :=
  match o.published, (o.after op).published with
  | none, some content => .put o.place content
  | _, _ => .keep

/-- One call, with what it returns or throws.  A handle that is not open is not called. -/
def step (s : State) : FileSystemOp → State × Except Bytes Unit
  | .openFile operators path flags outcomes =>
      match FileSystem.openFile registry operators path flags outcomes with
      | .error message => (s, .error message)
      | .ok (.reading _) => (s, .ok ())
      | .ok (.writing _) =>
          ({ s with writes := s.writes ++ [⟨placeOf objectName service registry operators path,
              path, []⟩] }, .ok ())
  | .onHandle i op =>
      match s.writes[i]? with
      | none => (s, .ok ())
      | some o =>
          (⟨(publication o op).apply s.objects, s.writes.set i (o.after op)⟩,
            (handleStep o.handle op).2)
  | .call operators call =>
      let n := serviceOf service registry operators call.url
      let result := call.run (marks n) objectName registry operators (sectionOf s.objects n)
      ({ s with objects := withSection s.objects n result.1 }, result.2)

/-- **What a call may have done**, given its answer: a file that is opened changes nothing, a
handle at most puts all that was written to it, and then it does not throw; and the other calls
make the change they are for and return, or throw and have made nothing of it or half: of a move
the copy, of the removal of a directory a part. -/
inductive Did (s : State) : FileSystemOp → Except Bytes Unit → Change Place Bytes → Prop where
  | opened (operators path flags outcomes answer) :
      Did s (.openFile operators path flags outcomes) answer .keep
  | handled (i op answer) : Did s (.onHandle i op) answer .keep
  | published {i : ℕ} {op : HandleOp} {o : OpenWrite} {content : Bytes}
      (hopen : s.writes[i]? = some o) (hbefore : o.published = none)
      (hafter : (o.after op).published = some content) :
      Did s (.onHandle i op) (.ok ()) (.put o.place content)
  | called (operators call) :
      Did s (.call operators call) (.ok ())
        ((call.change (marks (serviceOf service registry operators call.url)) objectName
          registry).within (serviceOf service registry operators call.url))
  | refused (operators call message) : Did s (.call operators call) (.error message) .keep
  | halfway (operators call message) :
      Did s (.call operators call) (.error message)
        ((call.halfway objectName registry).within
          (serviceOf service registry operators call.url))

variable {marks objectName service registry}

theorem publication_cases (o : OpenWrite) (op : HandleOp) :
    publication o op = .keep ∨ ∃ content, o.published = none ∧
      (o.after op).published = some content ∧ publication o op = .put o.place content := by
  unfold publication
  split
  · rename_i content hbefore hafter
    exact Or.inr ⟨content, hbefore, hafter, rfl⟩
  · exact Or.inl rfl

variable (marks objectName service registry) in
/-- **One call** does what it may. -/
theorem step_did (s : State) (op : FileSystemOp) :
    ∃ c, Did marks objectName service registry s op (step marks objectName service registry s op).2
        c ∧
      (step marks objectName service registry s op).1.objects = c.apply s.objects := by
  cases op with
  | openFile operators path flags outcomes =>
      refine ⟨.keep, .opened _ _ _ _ _, ?_⟩
      simp only [step]
      split <;> rfl
  | onHandle i op =>
      simp only [step]
      cases hopen : s.writes[i]? with
      | none => exact ⟨.keep, .handled i op _, rfl⟩
      | some o =>
      refine ⟨publication o op, ?_, rfl⟩
      rcases publication_cases o op with h | ⟨content, hbefore, hafter, h⟩
      · rw [h]
        exact .handled i op _
      · rw [h]
        -- What throws does not publish.
        cases hanswer : (handleStep o.handle op).2 with
        | ok _ => exact .published hopen hbefore hafter
        | error message =>
            have hsame := o.phase.committed_of_throws hanswer
            rw [← OpenWrite.handle_after] at hsame
            exact absurd (hbefore.symm.trans (hsame.symm.trans hafter)) (Option.some_ne_none _).symm
  | call operators call =>
      simp only [step]
      rcases call.run_cases (marks (serviceOf service registry operators call.url))
        (sectionOf s.objects (serviceOf service registry operators call.url)) with
        h | ⟨message, c, hc | hc, h⟩
      · rw [h]
        exact ⟨_, .called operators call, (Change.apply_within _ _ _).symm⟩
      · rw [h, hc]
        exact ⟨_, .refused operators call message, withSection_sectionOf _ _⟩
      · rw [h, hc]
        exact ⟨_, .halfway operators call message, (Change.apply_within _ _ _).symm⟩

variable (marks objectName service registry)

/-- **A run is a log of changes**: each call of a run does at most one of the things it may do,
and one after the other these make up all that happens to the objects. -/
theorem fileSystem_log (s : State) (ops : List FileSystemOp) :
    ∃ log, List.Forall₂ (fun t c => Did marks objectName service registry t.1 t.2.1 t.2.2 c)
        (Mealy.steps (step marks objectName service registry) s ops) log ∧
      (Mealy.final (step marks objectName service registry) s ops).objects =
        replay s.objects log :=
  exists_log _ State.objects (Did marks objectName service registry)
    (step_did marks objectName service registry) s ops

end FileSystem

/-! ## What a call is about -/

/-- The objects a call names, or has a directory of above them. -/
def FileCall.About (objectName : Bytes → Bytes) (registry : Registry) (name : Bytes) :
    FileCall → Prop
  | .createDirectory url _ => directory objectName registry url = some name
  | .removeFile url _ => object objectName registry url = some name
  | .removeDirectory url _ _ =>
      ∃ dir, directory objectName registry url = some dir ∧ below dir <+: name
  | .moveFile source target _ =>
      object objectName registry source = some name ∨ object objectName registry target = some name

theorem FileCall.about_of_mem_writes {marks : Bytes → Bool} {objectName : Bytes → Bytes}
    {registry : Registry} {call : FileCall} {name : Bytes}
    (h : name ∈ (call.change marks objectName registry).writes) :
    call.About objectName registry name := by
  cases call with
  | createDirectory url outcome =>
      cases hdir : directory objectName registry url with
      | none => simp [change, hdir, Change.writes] at h
      | some dir =>
          simp only [change, hdir, Option.map_some, Option.getD_some, markDirectory] at h
          split at h
          · exact hdir.trans (by rw [Set.mem_singleton_iff.mp h])
          · cases h
  | removeFile url outcome =>
      cases hobject : object objectName registry url with
      | none => simp [change, hobject, Change.writes] at h
      | some name' =>
          simp only [change, hobject, Option.map_some, Option.getD_some] at h
          exact hobject.trans (by rw [Set.mem_singleton_iff.mp h])
  | removeDirectory url outcome removed =>
      cases hdir : directory objectName registry url with
      | none => simp [change, hdir, Change.writes] at h
      | some dir =>
          simp only [change, hdir, Option.map_some, Option.getD_some] at h
          exact ⟨dir, hdir, of_decide_eq_true h⟩
  | moveFile source target outcomes =>
      cases hsource : object objectName registry source with
      | none => simp [change, hsource, Change.writes] at h
      | some s =>
      cases htarget : object objectName registry target with
      | none => simp [change, hsource, htarget, Change.writes] at h
      | some t =>
      simp only [change, hsource, htarget, Option.map₂_some_some, Option.getD_some] at h
      rcases h with rfl | h
      · exact Or.inl hsource
      · exact Or.inr (htarget.trans (by rw [Set.mem_singleton_iff.mp h]))

/-- Half of a call is about the same objects. -/
theorem FileCall.about_of_mem_halfway {objectName : Bytes → Bytes} {registry : Registry}
    {call : FileCall} {name : Bytes} (h : name ∈ (call.halfway objectName registry).writes) :
    call.About objectName registry name := by
  cases call with
  | removeDirectory url outcome removed =>
      cases hdir : directory objectName registry url with
      | none => simp [halfway, hdir, Change.writes] at h
      | some dir =>
          simp only [halfway, hdir, Option.map_some, Option.getD_some] at h
          exact ⟨dir, hdir, of_decide_eq_true (Bool.and_eq_true_iff.mp h).1⟩
  | moveFile source target outcomes =>
      cases hsource : object objectName registry source with
      | none => simp [halfway, hsource, Change.writes] at h
      | some s =>
      cases htarget : object objectName registry target with
      | none => simp [halfway, hsource, htarget, Change.writes] at h
      | some t =>
      simp only [halfway, hsource, htarget, Option.map₂_some_some, Option.getD_some] at h
      exact Or.inr (htarget.trans (by rw [Set.mem_singleton_iff.mp h]))
  | _ => cases h

namespace FileSystem

variable (marks : ℕ → Bytes → Bool) (objectName : Bytes → Bytes) (service : ℕ → ℕ)
  (registry : Registry)

/-- The call may write to the object: a handle that has not published yet was opened for it, or
the call is about it. -/
def MayWrite (p : Place) (s : State) : FileSystemOp → Prop
  | .openFile .. => False
  | .onHandle i _ => ∃ o, s.writes[i]? = some o ∧ o.published = none ∧ o.place = p
  | .call operators call =>
      p.1 = serviceOf service registry operators call.url ∧ call.About objectName registry p.2

variable {marks objectName service registry}

/-- What a call may have done, it may do to these objects. -/
theorem mayWrite_of_mem_writes {s : State} {op : FileSystemOp} {answer : Except Bytes Unit}
    {c : Change Place Bytes} (hdid : Did marks objectName service registry s op answer c)
    {p : Place} (hp : p ∈ c.writes) : MayWrite objectName service registry p s op := by
  cases hdid with
  | opened => cases hp
  | handled => cases hp
  | published hopen hbefore hafter => exact ⟨_, hopen, hbefore, (Set.mem_singleton_iff.mp hp).symm⟩
  | called operators call =>
      obtain ⟨hservice, hname⟩ := mem_writes_within.mp hp
      exact ⟨hservice, FileCall.about_of_mem_writes hname⟩
  | refused => cases hp
  | halfway operators call message =>
      obtain ⟨hservice, hname⟩ := mem_writes_within.mp hp
      exact ⟨hservice, FileCall.about_of_mem_halfway hname⟩

theorem objects_final_of_untouched {p : Place} {s : State} {ops : List FileSystemOp}
    (h : Mealy.Along (step marks objectName service registry)
      (fun s op => ¬ MayWrite objectName service registry p s op) s ops) :
    (Mealy.final (step marks objectName service registry) s ops).objects p = s.objects p := by
  obtain ⟨log, hlog, hfinal⟩ :=
    exists_log _ State.objects (Did marks objectName service registry)
    (step_did marks objectName service registry) s ops
  rw [hfinal]
  refine replay_of_notMem (fun c hc hp => ?_) s.objects
  obtain ⟨t, ht, hdid⟩ := exists_of_mem_log hlog hc
  exact h.of_mem_steps _ ht (mayWrite_of_mem_writes hdid hp)

end FileSystem

end DuckdbOpendal
