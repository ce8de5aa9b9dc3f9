import DuckdbOpendal.DirectoryRuns
import DuckdbOpendal.GlobReads

/-!
# Replacing a file

A file is replaced by writing another one and moving it over the target.  The object of a file
appears whole, when it is closed, and a move brings it to the target whole or leaves the target
alone; so at no time does a reader of the target find a part of what was written.

## Main Results

* `step_moveFile` — what a move does to the objects of all services
* `replace_by_move` — what the target holds once a file has been moved over it
-/

namespace DuckdbOpendal

open AtomicMove

namespace FileSystem

section Replace

variable {marks : ℕ → Bytes → Bool} {objectName : Bytes → Bytes} {service : ℕ → ℕ}
  {registry : Registry}

variable (marks objectName service registry) in
/-- **What a move does** to the objects of all services: a move that returns has moved the
object, and one that throws has lost nothing. -/
theorem step_moveFile (s : State) (operators : ResolvedUrl → Except Bytes FileOperator)
    {source target : Bytes} (outcomes : MoveOutcomes) {a b : Bytes}
    (hsource : FileCall.object objectName registry source = some a)
    (htarget : FileCall.object objectName registry target = some b) (hne : a ≠ b) :
    let n := serviceOf service registry operators source
    let move := FileSystemOp.call operators (.moveFile source target outcomes)
    ((step marks objectName service registry s move).2 = .ok () →
        Moved (n, a) (n, b) s.objects (step marks objectName service registry s move).1.objects) ∧
      ((step marks objectName service registry s move).2 ≠ .ok () →
        Intact (n, a) (n, b) s.objects
          (step marks objectName service registry s move).1.objects) := by
  intro n move
  have hplaces : (n, a) ≠ (n, b) := fun heq => hne (Prod.ext_iff.mp heq).2
  obtain ⟨c, hdid, hchange⟩ := step_did marks objectName service registry s move
  rw [hchange]
  simp only [move] at hdid ⊢
  generalize (step marks objectName service registry s
    (.call operators (.moveFile source target outcomes))).2 = answer at hdid
  cases hdid with
  | called =>
      refine ⟨fun _ => ?_, fun hthrown => absurd rfl hthrown⟩
      simp only [FileCall.change, hsource, htarget, Option.map₂_some_some, Option.getD_some]
      exact moved_erase_copyTo hplaces s.objects
  | refused => exact ⟨(fun h => by cases h), fun _ => Intact.refl _ _ s.objects⟩
  | halfway =>
      refine ⟨(fun h => by cases h), fun _ => ?_⟩
      simp only [FileCall.halfway, hsource, htarget, Option.map₂_some_some, Option.getD_some]
      exact intact_copyTo hplaces s.objects

/-- **A file is replaced whole or not at all.**  A file is written, and once it has published it is
moved over a target, while no other call may write to the two.  If the move returns, the target
holds everything the `Write`s that returned have written, and a reader of the target returns it;
if it throws, the target holds that or what it held before, and what was written is still there
under its own name. -/
theorem replace_by_move (s : State) (before between after : List FileSystemOp) {i : ℕ}
    {op : HandleOp} {o : OpenWrite} {content : Bytes}
    (hopen : (Mealy.final (step marks objectName service registry) s before).writes[i]? = some o)
    (hbefore : o.published = none) (hafter : (o.after op).published = some content)
    (hbetween : Mealy.Along (step marks objectName service registry)
      (fun s op => ¬ MayWrite objectName service registry o.place s op)
      (Mealy.final (step marks objectName service registry) s (before ++ [.onHandle i op])) between)
    {operators : ResolvedUrl → Except Bytes FileOperator} {source target : Bytes}
    {outcomes : MoveOutcomes} {u t : ResolvedUrl} (hsource : parseUrl registry source = some u)
    (hplace : placeOf objectName service registry operators source = o.place)
    (htarget : parseUrl registry target = some t) (hne : objectName t.path ≠ o.place.2) :
    let q : Place := (o.place.1, objectName t.path)
    let move := FileSystemOp.call operators (.moveFile source target outcomes)
    let closed := Mealy.final (step marks objectName service registry) s
      (before ++ .onHandle i op :: between)
    let moved := (step marks objectName service registry closed move).1
    let later := Mealy.final (step marks objectName service registry) moved after
    Mealy.Along (step marks objectName service registry)
        (fun s op => ¬ MayWrite objectName service registry q s op) moved after →
      ((step marks objectName service registry closed move).2 = .ok () →
        later.objects q = some (o.after op).content ∧
          ∀ (readers : ResolvedUrl → Except Bytes FileOperator) fop opened, readers t = .ok fop →
            StatsObjects objectName fop.toOdOperator (fun f => later.objects (o.place.1, f)) →
            (objectName t.path).getLast? ≠ some slash → opened.reader = .ok () →
              ReadsBack registry readers target opened (o.after op).content) ∧
      ((step marks objectName service registry closed move).2 ≠ .ok () →
        moved.objects o.place = some (o.after op).content ∧
          (later.objects q = closed.objects q ∨
            later.objects q = some (o.after op).content)) := by
  intro q move closed moved later huntouched
  have hcontent := OpenWrite.published_eq_content hafter
  have hclosed : closed.objects o.place = some content :=
    objects_of_published s before between hopen hbefore hafter hbetween
  have hlater : later.objects q = moved.objects q := objects_final_of_untouched huntouched
  -- The two names of the move.
  have hname : FileCall.object objectName registry source = some o.place.2 := by
    rw [← hplace, placeOf, FileCall.object, hsource]
    rfl
  have hname' : FileCall.object objectName registry target = some (objectName t.path) := by
    rw [FileCall.object, htarget, Option.map_some]
  have hservice : serviceOf service registry operators source = o.place.1 := by
    rw [← hplace, placeOf]
  obtain ⟨hreturns, hthrows⟩ :=
    step_moveFile marks objectName service registry closed operators outcomes hname hname' hne.symm
  rw [hservice] at hreturns hthrows
  refine ⟨fun hok => ?_, fun hthrown => ?_⟩
  · have hobject : later.objects q = some (o.after op).content := by
      rw [hlater, (hreturns hok).atTarget, hclosed, hcontent]
    exact ⟨hobject, fun readers fop opened hop hstats hslash hopens =>
      readsBack_of_statsObjects htarget hop hstats hobject hslash (o.after op).length_content_lt
        hopens⟩
  · have hintact := hthrows hthrown
    refine ⟨by rw [hintact.atSource, hclosed, hcontent], ?_⟩
    rw [hlater, ← hcontent, ← hclosed]
    exact hintact.atTarget

end Replace

/-- The file of the three bytes is moved to another name, which the URL spells with two
slashes. -/
def movesThree (outcomes : MoveOutcomes) : FileSystemOp :=
  .call (fun _ => .ok (storeFileOperator []))
    (.moveFile (ascii "memory://b/a") (ascii "memory://b//c") outcomes)

theorem isUtf8_moved : Utf8.isUtf8 (ascii "c") = true := by decide

/-- The operator a reader of the target finds. -/
def movedOperator : FileOperator :=
  { namedOperator normalizePath [fileEntry (ascii "c") isUtf8_moved 3] with
    rename := false, delete := true, createDir := true, io := .default }

theorem objects_moved (name : Bytes) :
    (stepNamed (Mealy.final stepNamed .empty (writesThree ++ [.onHandle 0 closes]))
        (movesThree ⟨.ok (), .ok (), .ok ()⟩)).1.objects (0, name) =
      if name = ascii "c" then some (ascii "aab") else none := by
  let closed : Store := fun name =>
    Function.update (fun _ => none) ((0 : ℕ), ascii "a") (some (ascii "aab")) (0, name)
  show erase (ascii "a") (copyTo (ascii "a") (ascii "c") closed) name = _
  simp only [erase, copyTo, closed, Function.update_apply, Prod.mk.injEq, true_and, if_true]
  split
  · rename_i hsource
    rw [hsource]
    rfl
  · rfl

/-- A reader of the target gets the three bytes when the move has returned; when the copy cannot
be followed by the removal, the source still has them. -/
theorem replace_by_move_three :
    let closed := Mealy.final stepNamed .empty (writesThree ++ [.onHandle 0 closes])
    ReadsBack defaultRegistry (fun _ => .ok movedOperator) (ascii "memory://b//c") opens
        (ascii "aab") ∧
      (stepNamed closed (movesThree deniedRemoval)).1.objects (0, ascii "a") =
        some (ascii "aab") := by
  intro closed
  have hopen : (Mealy.final stepNamed .empty writesThree).writes[0]? = some writtenThree := rfl
  have hafter : (writtenThree.after closes).published = some (ascii "aab") := rfl
  have hsource : parseUrl defaultRegistry (ascii "memory://b/a") =
      some ⟨ascii "memory", ascii "b", ascii "a"⟩ := by decide
  have htarget : parseUrl defaultRegistry (ascii "memory://b//c") =
      some ⟨ascii "memory", ascii "b", ascii "/c"⟩ := by decide
  have hname : normalizePath (ascii "/c") = ascii "c" := by decide
  have hplace : placeOf normalizePath (fun _ => 0) defaultRegistry
      (fun _ => .ok (storeFileOperator [])) (ascii "memory://b/a") = writtenThree.place := rfl
  have hne : normalizePath (ascii "/c") ≠ writtenThree.place.2 := by decide
  constructor
  · have hreturns : (stepNamed closed (movesThree ⟨.ok (), .ok (), .ok ()⟩)).2 = .ok () := rfl
    have hstats : StatsObjects normalizePath movedOperator.toOdOperator fun f =>
        (stepNamed closed (movesThree ⟨.ok (), .ok (), .ok ()⟩)).1.objects (0, f) := by
      refine ⟨rfl, rfl, fun path content hobject hslash => ?_⟩
      rw [objects_moved] at hobject
      split at hobject
      · rename_i hpath
        cases hobject
        refine ⟨(fileEntry (ascii "c") isUtf8_moved 3).metadata, ?_, rfl, rfl⟩
        simp only [movedOperator, namedOperator, hpath]
        rfl
      · cases hobject
    exact ((replace_by_move .empty writesThree [] [] hopen rfl hafter trivial hsource hplace htarget
      hne trivial).1 hreturns).2 _ movedOperator opens rfl hstats (by decide) rfl
  · have hthrows : (stepNamed closed (movesThree deniedRemoval)).2 ≠ .ok () := by decide +kernel
    exact ((replace_by_move .empty writesThree [] [] hopen rfl hafter trivial hsource hplace htarget
      hne trivial).2 hthrows).1

end FileSystem

end DuckdbOpendal
