import DuckdbOpendal.Table

/-!
# The rows of a listing

A listing without a glob hands out a row for every entry but the listed directory's own.
The cursor tells that entry by its text, the listed path trimmed of slashes, with or
without one slash behind it; whether the entry is a directory is not looked at, and an
empty segment inside the listed path is kept.

## Main Definitions

* `IsOwnEntry` — the entry of the listed directory itself
* `NormalizedEntry` — the entry paths OpenDAL yields

## Main Results

* `odTableListOpen_rows_iff` — when a listing passes over that entry and no other
-/

namespace DuckdbOpendal

/-- `trim_matches('/')`. -/
def trimSlashes (s : Bytes) : Bytes := trimEndSlashes (trimStartSlashes s)

/-- The entry of the directory a listing names. -/
def IsOwnEntry (path : Bytes) (e : Entry) : Prop :=
  e.metadata.mode = .DIR ∧ normalizeRoot e.path = normalizeRoot path

instance (path : Bytes) (e : Entry) : Decidable (IsOwnEntry path e) :=
  inferInstanceAs (Decidable (_ ∧ _))

/-- OpenDAL's entry paths: only the operator root starts with a slash, none is doubled, and
directories end in one. -/
structure NormalizedEntry (e : Entry) : Prop where
  segments : e.path = [slash] ∨ [] ∉ (e.path.splitOn slash).dropLast
  directory : e.metadata.mode = .DIR → ∃ d, e.path = d ++ [slash]

/-- The text of the entry is the one the cursor passes over. -/
def SpelledSelf (path : Bytes) (e : Entry) : Prop :=
  e.path = trimSlashes path ∨ e.path = trimSlashes path ++ [slash]

instance (path : Bytes) (e : Entry) : Decidable (SpelledSelf path e) :=
  inferInstanceAs (Decidable (_ ∨ _))

/-! ## Spellings of a directory -/

/-- Trailing slashes do not change the directory a root names. -/
theorem normalizeRoot_trimEndSlashes (root : Bytes) :
    normalizeRoot (trimEndSlashes root) = normalizeRoot root := by
  induction root using List.reverseRecOn with
  | nil => rfl
  | append_singleton root b ih =>
      by_cases hb : b = slash
      · subst hb
        rw [normalizeRoot_append_slash, trimEndSlashes, List.rdropWhile_concat_pos _ _ _ (by simp)]
        exact ih
      · rw [trimEndSlashes, List.rdropWhile_concat_neg _ _ _ (by simpa using hb)]

theorem normalizeRoot_trimSlashes (root : Bytes) :
    normalizeRoot (trimSlashes root) = normalizeRoot root := by
  rw [trimSlashes, normalizeRoot_trimEndSlashes, normalizeRoot_trimStartSlashes]

theorem trimSlashes_ne_append_slash (path d : Bytes) : trimSlashes path ≠ d ++ [slash] := by
  intro h
  have hne : trimSlashes path ≠ [] := by simp [h]
  have hlast : ¬ ((trimSlashes path).getLast hne == slash) = true :=
    List.rdropWhile_last_not (· == slash) (trimStartSlashes path) hne
  refine hlast (beq_iff_eq.mpr ?_)
  simp only [h, List.getLast_append_singleton]

/-- The path, trimmed, has no empty segment: the spelling of a directory without its slash. -/
def PlainlySpelled (path : Bytes) : Prop :=
  trimSlashes path = [] ∨ NormalizedPath (trimSlashes path)

/-! ## The entry of the listed directory -/

section Entries

variable {path : Bytes} {e : Entry}

/-- A directory entry is the operator root or a normalised path and a slash. -/
theorem NormalizedEntry.directory_cases (h : NormalizedEntry e) (hdir : e.metadata.mode = .DIR) :
    e.path = [slash] ∨ ∃ d, NormalizedPath d ∧ e.path = d ++ [slash] := by
  obtain ⟨d, hd⟩ := h.directory hdir
  refine h.segments.imp_right fun hsegments => ⟨d, ?_, hd⟩
  rwa [hd, List.splitOn_append_cons_self, List.splitOn_nil, List.dropLast_concat] at hsegments

/-- The text of a directory entry has its slash. -/
theorem spelledSelf_iff_of_directory (h : NormalizedEntry e) (hdir : e.metadata.mode = .DIR) :
    SpelledSelf path e ↔ e.path = trimSlashes path ++ [slash] := by
  obtain ⟨d, hd⟩ := h.directory hdir
  constructor
  · rintro (hself | hself)
    · exact absurd (hself.symm.trans hd) (trimSlashes_ne_append_slash path d)
    · exact hself
  · exact Or.inr

/-- **A plainly spelled path** has its own entry passed over, whatever its slashes at both
ends, and no other directory. -/
theorem isOwnEntry_iff_spelledSelf (hpath : PlainlySpelled path) (h : NormalizedEntry e)
    (hdir : e.metadata.mode = .DIR) : IsOwnEntry path e ↔ SpelledSelf path e := by
  rw [spelledSelf_iff_of_directory h hdir, IsOwnEntry, and_iff_right hdir,
    ← normalizeRoot_trimSlashes path]
  rcases h.directory_cases hdir with hroot | ⟨d, hd, heq⟩
  · rw [hroot, show normalizeRoot [slash] = [] by decide]
    rcases hpath with hpath | hpath
    · rw [hpath]
      exact iff_of_true rfl rfl
    · rw [hpath.normalizeRoot_eq]
      refine iff_of_false (by simp) fun hslash => hpath.ne_nil ?_
      simpa using hslash.symm
  · rw [heq, normalizeRoot_append_slash, hd.normalizeRoot_eq]
    rcases hpath with hpath | hpath
    · rw [hpath, show normalizeRoot [] = [] from rfl]
      exact iff_of_false (by simp) fun hslash => hd.ne_nil (by simpa using hslash)
    · rw [hpath.normalizeRoot_eq]

/-- No directory has the text of any other spelling. -/
theorem plainlySpelled_of_spelledSelf (h : NormalizedEntry e) (hdir : e.metadata.mode = .DIR)
    (hself : SpelledSelf path e) : PlainlySpelled path := by
  rw [spelledSelf_iff_of_directory h hdir] at hself
  rcases h.directory_cases hdir with hroot | ⟨d, hd, heq⟩
  · rw [hroot] at hself
    exact Or.inl (by simpa using hself.symm)
  · rw [heq, List.append_left_inj] at hself
    exact Or.inr (hself ▸ hd)

/-- **What the cursor passes over is the own entry**, for every entry of a listing, exactly
when no other kind of entry has its text and the path, if its directory is listed, is
plainly spelled. -/
theorem forall_spelledSelf_iff {entries : List Entry} (h : ∀ e ∈ entries, NormalizedEntry e) :
    (∀ e ∈ entries, SpelledSelf path e ↔ IsOwnEntry path e) ↔
      (∀ e ∈ entries, e.metadata.mode ≠ .DIR → ¬ SpelledSelf path e) ∧
        ((∃ e ∈ entries, IsOwnEntry path e) → PlainlySpelled path) := by
  constructor
  · intro hiff
    constructor
    · intro e he hdir hself
      exact hdir ((hiff e he).mp hself).1
    · rintro ⟨e, he, hown⟩
      exact plainlySpelled_of_spelledSelf (h e he) hown.1 ((hiff e he).mpr hown)
  · rintro ⟨hfiles, hplain⟩ e he
    by_cases hdir : e.metadata.mode = .DIR
    · constructor
      · intro hself
        have hpath := plainlySpelled_of_spelledSelf (h e he) hdir hself
        exact (isOwnEntry_iff_spelledSelf hpath (h e he) hdir).mpr hself
      · intro hown
        exact (isOwnEntry_iff_spelledSelf (hplain ⟨e, he, hown⟩) (h e he) hdir).mp hown
    · exact iff_of_false (hfiles e he hdir) fun hown => hdir hown.1

end Entries

/-! ## The rows of a listing -/

/-- Two tests that keep the same elements of a list agree on each of them. -/
theorem filter_eq_filter_iff {α : Type} {p q : α → Bool} {l : List α} :
    l.filter p = l.filter q ↔ ∀ a ∈ l, p a = q a := by
  constructor
  · intro h a ha
    have hmem : a ∈ l.filter p ↔ a ∈ l.filter q := by rw [h]
    rw [List.mem_filter, List.mem_filter, and_iff_right ha, and_iff_right ha] at hmem
    exact Bool.eq_iff_iff.mpr hmem
  · exact List.filter_congr

/-- An opened listing passes over the texts of the listed path, and has no glob. -/
theorem odTableListOpen_cursor {op : OdOperator} {path path' : Bytes}
    (hpath : cstr path = some path') {rawOptions : OdListOptions} {c : OdTableCursor}
    (hopen : odTableListOpen op path none rawOptions = .ok c) :
    c.selfPath = some (trimSlashes path') ∧ c.glob = none := by
  obtain ⟨listed, hlisted, hopen⟩ := bind_eq_ok.mp hopen
  obtain rfl := Option.some.inj (hpath.symm.trans (requireCstr_eq_ok.mp hlisted))
  obtain ⟨glob, hglob, hopen⟩ := bind_eq_ok.mp hopen
  cases invalidInput_eq_ok.mp hglob
  obtain ⟨-, -, hopen⟩ := bind_eq_ok.mp hopen
  obtain ⟨options, -, hopen⟩ := bind_eq_ok.mp hopen
  obtain ⟨-, -, hopen⟩ := bind_eq_ok.mp hopen
  obtain ⟨-, -, hopen⟩ := bind_eq_ok.mp hopen
  obtain ⟨-, -, hopen⟩ := bind_eq_ok.mp hopen
  obtain ⟨lister, -, hopen⟩ := bind_eq_ok.mp hopen
  cases hopen
  exact ⟨rfl, rfl⟩

section Rows

variable {getBasename : Bytes → Bytes}

/-- The row of an entry. -/
def Entry.row (getBasename : Bytes → Bytes) (e : Entry) : OwnedRow :=
  .ofParts getBasename e.path e.metadata

/-- The row is that of the listed directory's own entry. -/
def OwnedRow.isOwn (path : Bytes) (row : OwnedRow) : Bool :=
  row.mode == EntryMode.code .DIR && normalizeRoot row.path == normalizeRoot path

theorem isOwn_row {path : Bytes} {e : Entry} :
    (e.row getBasename).isOwn path = true ↔ IsOwnEntry path e := by
  have hmode : e.metadata.mode.code = EntryMode.code .DIR ↔ e.metadata.mode = .DIR :=
    EntryMode.code_injective.eq_iff
  show (e.metadata.mode.code == EntryMode.code .DIR &&
    normalizeRoot e.path == normalizeRoot path) = true ↔ _
  rw [Bool.and_eq_true, beq_iff_eq, beq_iff_eq, hmode, IsOwnEntry]

theorem isSelf_row {c : OdTableCursor} {path : Bytes} (hself : c.selfPath = some (trimSlashes path))
    {e : Entry} : c.isSelf (e.row getBasename) = true ↔ SpelledSelf path e := by
  rw [OdTableCursor.isSelf, hself, Option.any_some, Bool.or_eq_true, beq_iff_eq, beq_iff_eq]
  rfl

/-- The rows of the entries other than the own one, in order. -/
theorem map_row_filter (path : Bytes) (entries : List Entry) :
    (entries.filter fun e => ¬ IsOwnEntry path e).map (Entry.row getBasename) =
      (entries.map (Entry.row getBasename)).filter fun row => !row.isOwn path := by
  rw [List.filter_map]
  congr 1
  apply List.filter_congr
  intro e _
  rw [Bool.eq_iff_iff, decide_eq_true_eq, Function.comp_apply, Bool.not_eq_true', ← isOwn_row,
    Bool.not_eq_true]

/-- **When a listing passes over the listed directory and nothing else**: every entry can be
passed on, no entry that is not a directory has the text of the listed path, and the path,
if the directory has an entry, is plainly spelled. -/
theorem odTableListOpen_rows_iff (hbase : ∀ path, getBasename path <:+ path) {op : OdOperator}
    {path path' : Bytes} (hpath : cstr path = some path') {rawOptions : OdListOptions}
    {c : OdTableCursor} (hopen : odTableListOpen op path none rawOptions = .ok c)
    {entries : List Entry} (hlist : c.source = .list (entries.map .ok))
    (hentries : ∀ e ∈ entries, NormalizedEntry e) :
    Cursor.Drains (odTableCursorNext getBasename) c
        ((entries.filter fun e => ¬ IsOwnEntry path' e).map (Entry.row getBasename)) (.ok ()) ↔
      (∀ e ∈ entries, e.NulFree) ∧
        (∀ e ∈ entries, e.metadata.mode ≠ .DIR → ¬ SpelledSelf path' e) ∧
        ((∃ e ∈ entries, IsOwnEntry path' e) → PlainlySpelled path') := by
  obtain ⟨hself, hglob⟩ := odTableListOpen_cursor hpath hopen
  rw [← forall_spelledSelf_iff hentries, map_row_filter]
  have hkeep : (∀ row ∈ entries.map (Entry.row getBasename),
      (!(c.isSelf row || c.isUnmatched row)) = !row.isOwn path') ↔
        ∀ e ∈ entries, SpelledSelf path' e ↔ IsOwnEntry path' e := by
    rw [List.forall_mem_map]
    refine forall₂_congr fun e _ => ?_
    rw [OdTableCursor.isUnmatched, hglob, Option.any_none, Bool.or_false, Bool.not_inj_iff,
      Bool.eq_iff_iff, isSelf_row hself, isOwn_row]
  rw [← hkeep]
  constructor
  · intro hdrains
    have hnul : ∀ e ∈ entries, e.NulFree := by
      intro e he
      obtain ⟨-, hend⟩ := hdrains.unique (c.drains getBasename hlist)
      obtain ⟨row, hvisit⟩ := Cursor.ok_of_collect hend.symm (List.mem_map_of_mem he)
      rw [OdTableCursor.visit] at hvisit
      split at hvisit
      · cases hvisit
      · rename_i hrow
        exact OwnedRow.nulFree_of_fromParts hrow
    refine ⟨hnul, filter_eq_filter_iff.mp ?_⟩
    exact ((c.drains_of_nulFree hbase hlist hnul).unique hdrains).1
  · rintro ⟨hnul, hrows⟩
    rw [← filter_eq_filter_iff.mpr hrows]
    exact c.drains_of_nulFree hbase hlist hnul

end Rows

/-- An operator whose every listing yields these entries. -/
def listingOperator (entries : List Entry) : OdOperator :=
  { storeOperator .all [] with lister := fun _ _ => .ok (entries.map .ok) }

/-- The operator root and a file in it. -/
def rootEntries : List Entry :=
  [⟨ascii "/", by decide, .ofLength .DIR 0⟩, fileEntry (ascii "x") (by decide) 3]

/-- The operator root, spelled with two slashes. -/
theorem odTableListOpen_rows_root :
    ∃ c, odTableListOpen (listingOperator rootEntries) (ascii "//") none (.plain false) = .ok c ∧
      Cursor.Drains (odTableCursorNext id) c
        [Entry.row id (fileEntry (ascii "x") (by decide) 3)] (.ok ()) := by
  have hbase : ∀ path : Bytes, id path <:+ path := fun _ => List.suffix_rfl
  have hpath : cstr (ascii "//") = some (ascii "//") := by decide
  have hopen : odTableListOpen (listingOperator rootEntries) (ascii "//") none (.plain false) =
      .ok ⟨.list (rootEntries.map .ok), none, some [], none⟩ := by decide
  have hentries : ∀ e ∈ rootEntries, NormalizedEntry e := by
    rintro e he
    rcases List.mem_pair.mp he with rfl | rfl
    · exact ⟨Or.inl rfl, fun _ => ⟨[], rfl⟩⟩
    · exact ⟨Or.inr (by decide), fun h => nomatch h⟩
  have hnul : ∀ e ∈ rootEntries, e.NulFree := by
    rintro e he
    rcases List.mem_pair.mp he with rfl | rfl
    · exact ⟨by decide, fun t ht => nomatch ht⟩
    · exact ⟨by decide, fun t ht => nomatch ht⟩
  exact ⟨_, hopen, (odTableListOpen_rows_iff hbase hpath hopen rfl hentries).mpr
    ⟨hnul, by decide, fun _ => Or.inl rfl⟩⟩

/-- A listing of `a` that yields the file `a` hands out nothing. -/
theorem odTableListOpen_hides_file :
    ∃ c, odTableListOpen (listingOperator [fileEntry (ascii "a") (by decide) 3]) (ascii "a") none
        (.plain false) = .ok c ∧
      Cursor.Drains (odTableCursorNext id) c [] (.ok ()) ∧
      ¬ Cursor.Drains (odTableCursorNext id) c
        [Entry.row id (fileEntry (ascii "a") (by decide) 3)] (.ok ()) := by
  have hempty : ∀ c, odTableCursorNext id c = ({ c with source := .list [] }, .ok none) →
      Cursor.Drains (odTableCursorNext id) c [] (.ok ()) := fun _ h => .done h
  refine ⟨_, rfl, hempty _ (by decide), fun hrow => ?_⟩
  exact absurd ((hempty _ (by decide)).unique hrow).1 (List.cons_ne_nil _ _).symm

end DuckdbOpendal
