import DuckdbOpendal.FileSystem

/-!
# What survives at work

Consequences of the log of changes for the users of the file system: no object is torn, what a
handle has published is read back until something else is written there, and moves onto free
names lose nothing.

## Main Results

* `object_provenance` — where the content of an object comes from
* `read_after_write` — what was written is what is read
* `contents_kept` — moves onto free names lose nothing
-/

namespace DuckdbOpendal

open ChangeLog

namespace FileSystem

/-! ## A run to look at -/

/-- An operator that copies and deletes, but does not rename, over the given files. -/
def storeFileOperator (files : List Entry) : FileOperator :=
  { storeOperator .all files with
    rename := false, delete := true, createDir := true, io := .default }

/-- The flags of an overwriting writer. -/
def writeFlags : FileOpenFlags :=
  { FileOpenFlags.unset with openForWriting := true, overwriteExistingFile := true }

/-- The flags of a reader. -/
def readFlags : FileOpenFlags := { FileOpenFlags.unset with openForReading := true }

/-- OpenDAL opens what it is asked to. -/
def opens : OpenOutcomes := ⟨fun _ _ => .ok (), .ok ()⟩

/-- No objects and no open files. -/
def State.empty : State := ⟨fun _ => none, []⟩

/-- A file is opened, and three bytes are written to it, in two parts. -/
def writesThree : List FileSystemOp :=
  [.openFile (fun _ => .ok (storeFileOperator [])) (ascii "memory://b/a") writeFlags opens,
    .onHandle 0 (.writeNext (some fun _ => 0x61) 2 (.ok ()) (.ok ())),
    .onHandle 0 (.writeNext (some fun _ => 0x62) 1 (.ok ()) (.ok ()))]

/-- The file is closed. -/
def closes : HandleOp := .close (.ok ()) (.ok ())

/-- Another object is removed. -/
def removesOther : FileSystemOp :=
  .call (fun _ => .ok (storeFileOperator [])) (.removeFile (ascii "memory://b/c") (.ok ()))

/-- One service, which keeps directories as empty objects. -/
abbrev stepOne : State → FileSystemOp → State × Except Bytes Unit :=
  step (fun _ _ => true) id (fun _ => 0) defaultRegistry

section Runs

variable {marks : ℕ → Bytes → Bool} {objectName : Bytes → Bytes} {service : ℕ → ℕ}
  {registry : Registry}

/-! ## Where a content comes from -/

/-- The file has published this content. -/
def Published (i : ℕ) (content : Bytes) (s : State) : Prop :=
  ∃ o, s.writes[i]? = some o ∧ o.published = some content

/-- What has been published stays published. -/
theorem Published.step {i : ℕ} {content : Bytes} {s : State} (h : Published i content s)
    (op : FileSystemOp) :
    Published i content (FileSystem.step marks objectName service registry s op).1 := by
  obtain ⟨o, hopen, hpublished⟩ := h
  cases op with
  | openFile operators path flags outcomes =>
      simp only [FileSystem.step]
      split
      · exact ⟨o, hopen, hpublished⟩
      · exact ⟨o, hopen, hpublished⟩
      · refine ⟨o, ?_, hpublished⟩
        exact List.getElem?_append_left (List.getElem?_eq_some_iff.mp hopen).1 ▸ hopen
  | onHandle j op =>
      simp only [FileSystem.step]
      cases hj : s.writes[j]? with
      | none => exact ⟨o, hopen, hpublished⟩
      | some o' =>
      by_cases hij : j = i
      · subst hij
        obtain rfl := Option.some.inj (hj.symm.trans hopen)
        refine ⟨o'.after op, ?_, OpenWrite.published_after hpublished op⟩
        exact List.getElem?_set_self (List.getElem?_eq_some_iff.mp hopen).1
      · exact ⟨o, (List.getElem?_set_ne hij).trans hopen, hpublished⟩
  | call operators call => exact ⟨o, hopen, hpublished⟩


/-- A call puts a content only where it creates a directory. -/
theorem create_of_change_eq_put {marks : Bytes → Bool} {call : FileCall} {n : ℕ} {p : Place}
    {content : Bytes}
    (h : (call.change marks objectName registry).within n = .put p content) :
    content = [] ∧ ∃ url outcome, call = .createDirectory url outcome := by
  cases call with
  | createDirectory url outcome =>
      refine ⟨?_, url, outcome, rfl⟩
      cases hdir : FileCall.directory objectName registry url with
      | none =>
          simp only [FileCall.change, hdir] at h
          cases h
      | some dir =>
          simp only [FileCall.change, hdir, Option.map_some, Option.getD_some, markDirectory] at h
          split at h
          · cases h
            rfl
          · cases h
  | removeFile url outcome =>
      cases hobject : FileCall.object objectName registry url <;>
        simp [FileCall.change, hobject, Change.within] at h
  | removeDirectory url outcome removed =>
      cases hdir : FileCall.directory objectName registry url <;>
        simp [FileCall.change, hdir, Change.within] at h
  | moveFile source target outcomes =>
      cases hsource : FileCall.object objectName registry source <;>
        cases htarget : FileCall.object objectName registry target <;>
          simp [FileCall.change, hsource, htarget, Change.within] at h

/-- Half of a call puts nothing. -/
theorem halfway_ne_put {call : FileCall} {n : ℕ} {p : Place} {content : Bytes} :
    (call.halfway objectName registry).within n ≠ .put p content := by
  intro h
  cases call with
  | removeDirectory url outcome removed =>
      cases hdir : FileCall.directory objectName registry url <;>
        simp [FileCall.halfway, hdir, Change.within] at h
  | moveFile source target outcomes =>
      cases hsource : FileCall.object objectName registry source <;>
        cases htarget : FileCall.object objectName registry target <;>
          simp [FileCall.halfway, hsource, htarget, Change.within] at h
  | _ => cases h

/-- **Where a content comes from**: whatever calls are made in whatever order, and however
OpenDAL's calls end, an object holds what some object held at the start, or everything that
the `Write`s that returned wrote to one file, or it is the empty object of a directory that was
created. -/
theorem object_provenance (s : State) (ops : List FileSystemOp) {p : Place} {content : Bytes}
    (h : (Mealy.final (step marks objectName service registry) s ops).objects p = some content) :
    (∃ p', s.objects p' = some content) ∨
      (∃ o ∈ (Mealy.final (step marks objectName service registry) s ops).writes,
        o.published = some content ∧ content = o.content) ∨
      content = [] ∧
        ∃ operators url outcome, .call operators (.createDirectory url outcome) ∈ ops := by
  obtain ⟨log, hlog, hfinal⟩ :=
    exists_log _ State.objects (Did marks objectName service registry)
      (step_did marks objectName service registry) s ops
  rw [hfinal] at h
  rcases replay_eq_some h with hstart | ⟨p', hput⟩
  · exact Or.inl hstart
  obtain ⟨t, ht, hdid⟩ := exists_of_mem_log hlog hput
  obtain ⟨before, after, hops, hstate, -⟩ := Mealy.exists_of_mem_steps _ ht
  obtain ⟨s', op, answer⟩ := t
  simp only at hops hstate hdid
  generalize hchange : Change.put p' content = c at hdid
  cases hdid with
  | opened => cases hchange
  | handled => cases hchange
  | refused => cases hchange
  | @published i op o content' hopen hbefore hafter =>
      cases hchange
      right
      left
      -- The file has published, and stays so for the rest of the run.
      have hnext : Published i content (step marks objectName service registry s'
          (.onHandle i op)).1 := by
        refine ⟨o.after op, ?_, hafter⟩
        simp only [step, hopen]
        exact List.getElem?_set_self (List.getElem?_eq_some_iff.mp hopen).1
      have hrest := Mealy.final_invariant (step marks objectName service registry)
        (Published i content) (fun s op h => h.step op) hnext after
      rw [hstate, ← Mealy.final_cons, ← Mealy.final_append, ← hops] at hrest
      obtain ⟨o', ho', hpublished⟩ := hrest
      exact ⟨o', List.mem_of_getElem? ho', hpublished, OpenWrite.published_eq_content hpublished⟩
  | called operators call =>
      obtain ⟨hcontent, url, outcome, hcall⟩ := create_of_change_eq_put hchange.symm
      refine Or.inr (Or.inr ⟨hcontent, operators, url, outcome, ?_⟩)
      rw [hops, ← hcall]
      exact List.mem_append_right _ List.mem_cons_self
  | halfway operators call message => exact absurd hchange.symm halfway_ne_put

/-- The object that was written and closed comes from its file. -/
theorem object_provenance_written :
    ∃ o ∈ (Mealy.final stepOne .empty (writesThree ++ [.onHandle 0 closes])).writes,
      o.published = some (ascii "aab") ∧ ascii "aab" = o.content := by
  have h : (Mealy.final stepOne .empty (writesThree ++ [.onHandle 0 closes])).objects
      (0, ascii "a") = some (ascii "aab") := rfl
  rcases object_provenance .empty (writesThree ++ [.onHandle 0 closes]) h with
    ⟨p', hp'⟩ | hwritten | ⟨hempty, -⟩
  · cases hp'
  · exact hwritten
  · exact absurd hempty (by decide)

/-! ## Reading what was written -/

/-- A `Read` on from the position: its size, and OpenDAL's answer. -/
abbrev SequentialRead := ℕ × ReadInto

/-- The operation on the handle. -/
def SequentialRead.op (r : SequentialRead) : ReadOp := .read r.1 true r.2

/-- OpenDAL answers for the object from what it holds: its length, and its bytes. -/
def ServesObject (object : Option Bytes) (op : OdOperator) (path : Bytes)
    (reads : List SequentialRead) : Prop :=
  ∀ content, object = some content →
    (∃ metadata, odStat op path = .ok metadata ∧ metadata.contentLength.val = content.length) ∧
      ∀ r ∈ reads, ReadsFrom content r.2

/-- Sequential reads of a file, of any sizes, return what follows its cursor, and move it. -/
theorem flatten_answers_read (content : Bytes) (cursor : ℕ) (sizes : List ℕ) :
    ∃ parts : List Bytes,
      Mealy.answers fileStep ⟨content, cursor⟩ (sizes.map fun n : ℕ => .read (n : ℤ)) =
          parts.map some ∧
        parts.flatten = (content.drop cursor).take sizes.sum ∧
        (Mealy.final fileStep ⟨content, cursor⟩ (sizes.map fun n : ℕ => .read (n : ℤ))).cursor =
          cursor + parts.flatten.length := by
  induction sizes generalizing cursor with
  | nil => exact ⟨[], rfl, by simp, rfl⟩
  | cons n sizes ih =>
      obtain ⟨parts, hanswers, hparts, hcursor⟩ :=
        ih (cursor + min n (content.length - cursor))
      have hstep : fileStep ⟨content, cursor⟩ (.read (n : ℤ)) =
          (⟨content, cursor + min n (content.length - cursor)⟩,
            some (slice content cursor (min n (content.length - cursor)))) := by
        simp [fileStep]
      refine ⟨slice content cursor (min n (content.length - cursor)) :: parts, ?_, ?_, ?_⟩
      · rw [List.map_cons, Mealy.answers_cons, hstep, List.map_cons, ← hanswers]
      · have hsplit : ∀ rest : Bytes, rest.take (min n rest.length) ++
            (rest.drop (min n rest.length)).take sizes.sum = rest.take (n + sizes.sum) := by
          intro rest
          rw [List.take_add]
          rcases Nat.le_total n rest.length with h | h
          · rw [min_eq_left h]
          · simp [min_eq_right h, List.take_of_length_le h, List.drop_of_length_le h]
        rw [List.flatten_cons, hparts, slice, List.sum_cons, ← List.drop_drop, ← hsplit,
          List.length_drop]
      · rw [List.map_cons, Mealy.final_cons, hstep, hcursor, List.flatten_cons,
          List.length_append, slice, List.length_take, List.length_drop]
        omega

theorem eq_ok_of_agrees {answer : Except Bytes (ℤ × Bytes)} {part : Bytes}
    (h : Agrees answer (some part)) : answer = .ok ((part.length : ℤ), part) := by
  cases answer with
  | error message => exact h.elim
  | ok result =>
      obtain ⟨n, bytes⟩ := result
      obtain ⟨rfl, rfl⟩ := h
      rfl

/-- **Sequential reads** through a handle return the file's bytes in order, in parts of the
sizes asked for, and stop at its end; the handle is then behind what was read. -/
theorem answers_sequentialReads {h : ReadHandle} {f : ContentFile} (hshows : Shows h f)
    {reads : List SequentialRead} (hreads : ∀ r ∈ reads, ReadsFrom f.content r.2) :
    ∃ parts : List Bytes,
      Mealy.answers readStep h (reads.map SequentialRead.op) =
          parts.map (fun part => .ok ((part.length : ℤ), part)) ∧
        parts.flatten = (f.content.drop f.cursor).take (reads.map Prod.fst).sum ∧
        (Mealy.final readStep h (reads.map SequentialRead.op)).position =
          f.cursor + parts.flatten.length := by
  obtain ⟨parts, hanswers, hparts, hcursor⟩ :=
    flatten_answers_read f.content f.cursor (reads.map Prod.fst)
  have hstep : ∀ h f' op, (Shows h f' ∧ f'.content = f.content) → op.Faithful f.content →
      (Shows (readStep h op).1 (fileStep f' op.request).1 ∧
        (fileStep f' op.request).1.content = f.content) ∧
      Agrees (readStep h op).2 (fileStep f' op.request).2 := by
    rintro h f' op ⟨hshows, hcontent⟩ hop
    obtain ⟨hnext, hanswer⟩ := readStep_refines hshows (hcontent ▸ hop)
    exact ⟨⟨hnext, (content_fileStep f' op.request).trans hcontent⟩, hanswer⟩
  have hfaithful : ∀ op ∈ reads.map SequentialRead.op, op.Faithful f.content := by
    intro op hop
    obtain ⟨r, hr, rfl⟩ := List.mem_map.mp hop
    exact ⟨rfl, hreads r hr⟩
  obtain ⟨hruns, hend, -⟩ := Mealy.simulates readStep fileStep ReadOp.request
    (fun h f' => Shows h f' ∧ f'.content = f.content) Agrees _ hstep ⟨hshows, rfl⟩ hfaithful
  rw [List.map_map] at hruns hend hanswers hcursor
  refine ⟨parts, ?_, hparts, ?_⟩
  · have hagree : List.Forall₂ Agrees (Mealy.answers readStep h (reads.map SequentialRead.op))
        (parts.map some) := hanswers ▸ hruns
    rw [← List.forall₂_eq_eq_eq, List.forall₂_map_right_iff]
    exact (List.forall₂_map_right_iff.mp hagree).imp fun _ _ => eq_ok_of_agrees
  · rw [← Nat.cast_add, ← hcursor]
    exact hend.position

/-- **What an opened handle returns**: the size `stat` reported, and from the start the bytes of
the object, in parts of any sizes; its position is then behind what was read. -/
theorem answers_of_openForReading {operators : ResolvedUrl → Except Bytes OdOperator}
    {path content : Bytes} {opened : Outcome Unit} {h : ReadHandle} {u : ResolvedUrl}
    {op : OdOperator} {metadata : OdMetadata} (hurl : parseUrl registry path = some u)
    (hop : operators u = .ok op) (hstat : odStat op u.path = .ok metadata)
    (hsize : metadata.contentLength.val = content.length)
    (hopen : openForReading registry operators path opened = .ok h) {reads : List SequentialRead}
    (hreads : ∀ r ∈ reads, ReadsFrom content r.2) :
    h.getFileSize = content.length ∧
      ∃ parts : List Bytes,
        Mealy.answers readStep h (reads.map SequentialRead.op) =
            parts.map (fun part => .ok ((part.length : ℤ), part)) ∧
          parts.flatten = content.take (reads.map Prod.fst).sum ∧
          (Mealy.final readStep h (reads.map SequentialRead.op)).seekPosition =
            parts.flatten.length := by
  have hshows : Shows h ⟨content, 0⟩ := openForReading_shows hurl hop hstat hsize hopen
  obtain ⟨parts, hanswers, hparts, hposition⟩ := answers_sequentialReads hshows hreads
  refine ⟨hshows.size, parts, hanswers, hparts, ?_⟩
  -- The position lies in the file, which is no longer than a signed number can say.
  have hlimit : content.length < 2 ^ 63 := hshows.limit
  have hlength : parts.flatten.length ≤ content.length := by
    rw [hparts]
    exact List.length_take_le' _ _
  rw [ReadHandle.seekPosition, hposition]
  simp only [Nat.cast_zero, zero_add]
  omega

/-- A published object stays until a call may write to it. -/
theorem objects_of_published (s : State) (before after : List FileSystemOp) {i : ℕ} {op : HandleOp}
    {o : OpenWrite} {content : Bytes}
    (hopen : (Mealy.final (step marks objectName service registry) s before).writes[i]? = some o)
    (hbefore : o.published = none) (hafter : (o.after op).published = some content)
    (huntouched : Mealy.Along (step marks objectName service registry)
      (fun s op => ¬ MayWrite objectName service registry o.place s op)
      (Mealy.final (step marks objectName service registry) s (before ++ [.onHandle i op])) after) :
    (Mealy.final (step marks objectName service registry) s
      (before ++ .onHandle i op :: after)).objects o.place = some content := by
  have hput : (Mealy.final (step marks objectName service registry) s
      (before ++ [.onHandle i op])).objects o.place = some content := by
    rw [Mealy.final_append, Mealy.final_cons, Mealy.final_nil]
    simp only [step, hopen, publication, hbefore, hafter]
    exact Function.update_self _ _ _
  rw [← List.singleton_append, ← List.append_assoc, Mealy.final_append,
    objects_final_of_untouched huntouched, hput]

/-- **What was written is what is read**: once a file opened for writing has published, and as
long as no call may write to its object, a handle opened for reading the object has the size of what
the `Write`s that returned have written, and returns it, in parts of any sizes, whatever parts
it was written in; its position is then behind what was read. -/
theorem read_after_write (s : State) (before after : List FileSystemOp) {i : ℕ} {op : HandleOp}
    {o : OpenWrite} {content : Bytes}
    (hopen : (Mealy.final (step marks objectName service registry) s before).writes[i]? = some o)
    (hbefore : o.published = none) (hafter : (o.after op).published = some content)
    (huntouched : Mealy.Along (step marks objectName service registry)
      (fun s op => ¬ MayWrite objectName service registry o.place s op)
      (Mealy.final (step marks objectName service registry) s (before ++ [.onHandle i op])) after)
    {operators : ResolvedUrl → Except Bytes FileOperator} {path : Bytes} {flags : FileOpenFlags}
    {outcomes : OpenOutcomes} {h : ReadHandle} {u : ResolvedUrl} {fop : FileOperator}
    (hurl : parseUrl registry path = some u) (hop : operators u = .ok fop)
    (hplace : placeOf objectName service registry operators path = o.place)
    (hread : FileSystem.openFile registry operators path flags outcomes = .ok (.reading h))
    {reads : List SequentialRead}
    (hserves : ServesObject
      ((Mealy.final (step marks objectName service registry) s
        (before ++ .onHandle i op :: after)).objects
          (placeOf objectName service registry operators path)) fop.toOdOperator u.path reads) :
    h.getFileSize = (o.after op).content.length ∧
      ∃ parts : List Bytes,
        Mealy.answers readStep h (reads.map SequentialRead.op) =
            parts.map (fun part => .ok ((part.length : ℤ), part)) ∧
          parts.flatten = (o.after op).content.take (reads.map Prod.fst).sum ∧
          (Mealy.final readStep h (reads.map SequentialRead.op)).seekPosition =
            parts.flatten.length := by
  have hcontent := OpenWrite.published_eq_content hafter
  have hfinal := objects_of_published s before after hopen hbefore hafter huntouched
  obtain ⟨⟨metadata, hstat, hsize⟩, hreads⟩ := hserves content (hplace ▸ hfinal)
  obtain ⟨-, -, hopened⟩ := openFile_eq_ok hread
  rw [← hcontent]
  exact answers_of_openForReading hurl (by rw [hop]; rfl) hstat hsize hopened hreads

/-- The file after the two writes. -/
def writtenThree : OpenWrite where
  place := (0, ascii "a")
  path := ascii "memory://b/a"
  ops := [.writeNext (some fun _ => 0x61) 2 (.ok ()) (.ok ()),
    .writeNext (some fun _ => 0x62) 1 (.ok ()) (.ok ())]

theorem isUtf8_three : Utf8.isUtf8 (ascii "a") = true := by decide

/-- The operator a reader of the three bytes finds. -/
def threeBytesOperator : FileOperator := storeFileOperator [fileEntry (ascii "a") isUtf8_three 3]

/-- A read of one byte, and one of more than are left. -/
def twoReads : List SequentialRead :=
  [(1, contentReader (ascii "aab")), (5, contentReader (ascii "aab"))]

/-- Three bytes written in two parts, read in two others. -/
theorem read_after_write_three :
    ∃ h, FileSystem.openFile defaultRegistry (fun _ => .ok threeBytesOperator)
        (ascii "memory://b/a") readFlags opens = .ok (.reading h) ∧
      h.getFileSize = 3 ∧ ∃ parts : List Bytes,
        Mealy.answers readStep h (twoReads.map SequentialRead.op) =
          parts.map (fun part => .ok ((part.length : ℤ), part)) ∧
        parts.flatten = ascii "aab" := by
  have hurl : parseUrl defaultRegistry (ascii "memory://b/a") =
      some ⟨ascii "memory", ascii "b", ascii "a"⟩ := by decide
  have hobject : (Mealy.final stepOne .empty
      (writesThree ++ .onHandle 0 closes :: [removesOther])).objects
        (placeOf id (fun _ => 0) defaultRegistry (fun _ => .ok threeBytesOperator)
          (ascii "memory://b/a")) = some (ascii "aab") := rfl
  have huntouched : Mealy.Along stepOne
      (fun s op => ¬ MayWrite id (fun _ => 0) defaultRegistry (0, ascii "a") s op)
      (Mealy.final stepOne .empty (writesThree ++ [.onHandle 0 closes])) [removesOther] := by
    refine ⟨?_, trivial⟩
    rintro ⟨-, habout⟩
    have habout : some (ascii "c") = some (ascii "a") := habout
    cases habout
  have hserves : ServesObject (some (ascii "aab")) threeBytesOperator.toOdOperator (ascii "a")
      twoReads := by
    rintro content ⟨⟩
    refine ⟨⟨_, rfl, rfl⟩, fun r hr => ?_⟩
    rcases List.mem_cons.mp hr with rfl | hr
    · exact contentReader_readsFrom _
    · rw [List.mem_singleton.mp hr]
      exact contentReader_readsFrom _
  rw [← hobject] at hserves
  obtain ⟨h, hopen⟩ : ∃ h, FileSystem.openFile defaultRegistry (fun _ => .ok threeBytesOperator)
      (ascii "memory://b/a") readFlags opens = .ok (.reading h) := ⟨_, rfl⟩
  have hwrites : (Mealy.final stepOne .empty writesThree).writes[0]? = some writtenThree := rfl
  have hbefore : writtenThree.published = none := rfl
  have hafter : (writtenThree.after closes).published = some (ascii "aab") := rfl
  have hplace : placeOf id (fun _ => 0) defaultRegistry (fun _ => .ok threeBytesOperator)
      (ascii "memory://b/a") = writtenThree.place := rfl
  obtain ⟨hsize, parts, hanswers, hparts, -⟩ :=
    read_after_write .empty writesThree [removesOther] hwrites
    hbefore hafter huntouched hurl rfl hplace hopen hserves
  exact ⟨h, hopen, hsize.trans rfl, parts, hanswers, hparts.trans rfl⟩

/-! ## Calls that lose nothing -/

variable (marks objectName service registry) in
/-- The call writes to no name that is taken, and removes nothing that is there; a move goes
somewhere else. -/
def KeepsContents (s : State) : FileSystemOp → Prop
  | .openFile .. => True
  | .onHandle i _ =>
      ∀ o, s.writes[i]? = some o → o.published = none → s.objects o.place = none
  | .call operators call =>
      Change.Gentle (sectionOf s.objects (serviceOf service registry operators call.url))
          (call.change (marks (serviceOf service registry operators call.url)) objectName registry)

/-- Half of a gentle call is gentle. -/
theorem gentle_halfway {m : Bytes → Bool} {call : FileCall} {store : Store}
    (h : Change.Gentle store (call.change m objectName registry)) :
    Change.Gentle store (call.halfway objectName registry) := by
  cases call with
  | removeDirectory url outcome removed =>
      cases hdir : FileCall.directory objectName registry url with
      | none => simp [FileCall.halfway, hdir, Change.Gentle]
      | some dir =>
      simp only [FileCall.change, FileCall.halfway, hdir, Option.map_some, Option.getD_some] at h ⊢
      exact fun name hgone => h name (Bool.and_eq_true_iff.mp hgone).1
  | moveFile source target outcomes =>
      cases hsource : FileCall.object objectName registry source with
      | none => simp [FileCall.halfway, hsource, Change.Gentle]
      | some a =>
      cases htarget : FileCall.object objectName registry target with
      | none => simp [FileCall.halfway, hsource, htarget, Change.Gentle]
      | some b =>
      simp only [FileCall.change, FileCall.halfway, hsource, htarget, Option.map₂_some_some,
        Option.getD_some] at h ⊢
      exact h.2
  | _ => trivial

theorem gentle_of_did {s : State} {op : FileSystemOp} {answer : Except Bytes Unit}
    {c : Change Place Bytes} (hdid : Did marks objectName service registry s op answer c)
    (h : KeepsContents marks objectName service registry s op) : c.Gentle s.objects := by
  cases hdid with
  | opened => trivial
  | handled => trivial
  | published hopen hbefore hafter => exact h _ hopen hbefore
  | called operators call => exact Change.Gentle.within h
  | refused => trivial
  | halfway operators call message => exact Change.Gentle.within (gentle_halfway h)

/-- **Moves onto free names lose nothing**: in a run of calls that write to free names only and
remove nothing that is there, every content is kept under some name, however OpenDAL's calls
end and whichever calls throw. -/
theorem contents_kept (s : State) {ops : List FileSystemOp}
    (hops : Mealy.Along (step marks objectName service registry)
      (KeepsContents marks objectName service registry) s ops) {p : Place} {content : Bytes}
    (h : s.objects p = some content) :
    ∃ p', (Mealy.final (step marks objectName service registry) s ops).objects p' =
      some content := by
  have hstep : ∀ s op, KeepsContents marks objectName service registry s op →
      (∃ p, s.objects p = some content) →
      ∃ p, (step marks objectName service registry s op).1.objects p = some content := by
    rintro s op hkeeps ⟨p, hp⟩
    obtain ⟨c, hdid, hchange⟩ := step_did marks objectName service registry s op
    rw [hchange]
    exact (gentle_of_did hdid hkeeps).exists_apply hp
  exact hops.final_invariant _ hstep ⟨p, h⟩

/-- A move whose removal OpenDAL refuses. -/
def deniedMove : FileSystemOp :=
  .call (fun _ => .ok (storeFileOperator []))
    (.moveFile (ascii "memory://b/a") (ascii "memory://b/c") deniedRemoval)

/-- The store with one object, in the file system. -/
def State.oneObject : State :=
  ⟨fun p => if p = (0, ascii "a") then some (ascii "xyz") else none, []⟩

/-- A move that stops half way loses nothing. -/
theorem contents_kept_halfway :
    ∃ p', (Mealy.final stepOne .oneObject [deniedMove]).objects p' = some (ascii "xyz") := by
  have hops : Mealy.Along stepOne (KeepsContents (fun _ _ => true) id (fun _ => 0) defaultRegistry)
      .oneObject [deniedMove] := by
    refine ⟨?_, trivial⟩
    show ascii "a" ≠ ascii "c" ∧ _
    exact ⟨by decide, by decide⟩
  have h : State.oneObject.objects (0, ascii "a") = some (ascii "xyz") := rfl
  exact contents_kept .oneObject hops h

/-- The files among the objects of a service: a directory's own object has a slash at its
end. -/
def filesOf (objects : Place → Option Bytes) (n : ℕ) : Set Bytes :=
  {name | (objects (n, name)).isSome ∧ name.getLast? ≠ some slash}

end Runs

end FileSystem

end DuckdbOpendal
