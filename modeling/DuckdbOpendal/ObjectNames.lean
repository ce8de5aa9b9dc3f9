import DuckdbOpendal.Listing
import DuckdbOpendal.OptionValues

/-!
# The objects that paths name

OpenDAL normalises the path of every operation before a service sees it: white space around
it goes, and so do its empty segments; a trailing slash stays, and marks a directory.  So two
spellings can name one object.  The function is OpenDAL's; `NormalizesPaths` states what the
extension relies on.

## Main Definitions

* `Trimmed` — a path without white space around it
* `NormalizesPaths` — a function that names objects as OpenDAL does
* `below` — what lies in a directory begins with it
* `normalizePath` — such a function

## Main Results

* `NormalizesPaths.below_objectName` — the directory that a path names
* `NormalizesPaths.exists_objectName_append` — what lies below a path, however it is spelled
* `normalizePath_normalizes` — there is such a function
-/

namespace DuckdbOpendal

/-! ## White space -/

/-- No white space begins or ends the path. -/
def Trimmed (path : Bytes) : Prop := ∀ word ∈ whitespace, ¬ word <+: path ∧ ¬ word <:+ path

instance (path : Bytes) : Decidable (Trimmed path) :=
  inferInstanceAs (Decidable (∀ word ∈ whitespace, _))

theorem slash_notMem_whitespace : ∀ word ∈ whitespace, slash ∉ word := by decide

/-- White space in front of a path is in front of its first slash. -/
theorem prefix_of_prefix_append_slash {word d rest : Bytes} (hword : word ∈ whitespace)
    (h : word <+: d ++ slash :: rest) : word <+: d := by
  have hslash := slash_notMem_whitespace word hword
  have hdir : d ++ [slash] <+: d ++ slash :: rest := ⟨rest, by simp⟩
  rcases List.prefix_or_prefix_of_prefix h hdir with hpre | hlonger
  · rcases List.prefix_concat_iff.mp hpre with rfl | hpre
    · exact absurd (List.mem_append_right _ List.mem_cons_self) hslash
    · exact hpre
  · exact absurd (hlonger.mem (List.mem_append_right _ List.mem_cons_self)) hslash

/-- White space behind a path is behind its last slash. -/
theorem suffix_of_suffix_append_slash {word d rest : Bytes} (hword : word ∈ whitespace)
    (h : word <:+ d ++ slash :: rest) : word <:+ rest := by
  have hslash := slash_notMem_whitespace word hword
  rcases List.suffix_or_suffix_of_suffix h (List.suffix_append d _) with hsuffix | hlonger
  · rcases List.suffix_cons_iff.mp hsuffix with rfl | hrest
    · exact absurd List.mem_cons_self hslash
    · exact hrest
  · exact absurd (hlonger.mem List.mem_cons_self) hslash

theorem Trimmed.append_slash {path : Bytes} (h : Trimmed path) : Trimmed (path ++ [slash]) := by
  intro word hword
  refine ⟨fun hpre => (h word hword).1 (prefix_of_prefix_append_slash hword hpre), fun hsuf => ?_⟩
  exact whitespace_ne_nil word hword
    (List.suffix_nil.mp (suffix_of_suffix_append_slash hword hsuf))

/-! ## Names -/

/-- **How OpenDAL names objects.**  White space in front of a path does not matter.  A path
without it names the file of its segments or, with a slash at its end, their directory; the
operator root is a slash. -/
structure NormalizesPaths (objectName : Bytes → Bytes) : Prop where
  trims : ∀ word ∈ whitespace, ∀ path, objectName (word ++ path) = objectName path
  file : ∀ path, Trimmed path → ¬ DirRoot path → objectName path ++ [slash] = normalizeRoot path
  directory : ∀ path, Trimmed path → DirRoot path → normalizeRoot path ≠ [] →
    objectName path = normalizeRoot path
  root : ∀ path, Trimmed path → normalizeRoot path = [] → objectName path = [slash]

/-- What lies in the directory of this name begins with: nothing, at the operator root. -/
def below (name : Bytes) : Bytes := if name = [slash] then [] else name

section Names

variable {objectName : Bytes → Bytes} (hnames : NormalizesPaths objectName) {path : Bytes}

/-- The directory that a root names is not a lone slash. -/
theorem below_normalizeRoot (root : Bytes) : below (normalizeRoot root) = normalizeRoot root := by
  refine if_neg fun h => ?_
  rcases normalizeRoot_cases root with hnil | ⟨path, hpath, heq⟩
  · rw [hnil] at h
    cases h
  · rw [heq, List.append_eq_singleton_iff] at h
    simp [hpath.ne_nil] at h

include hnames

/-- **A normalised path names itself.** -/
theorem NormalizesPaths.objectName_eq (hpath : NormalizedPath path) (htrim : Trimmed path) :
    objectName path = path := by
  have hfile := hnames.file path htrim hpath.not_dirRoot
  rw [hpath.normalizeRoot_eq] at hfile
  exact List.append_cancel_right hfile

/-- **The directory that a path names.** -/
theorem NormalizesPaths.below_objectName (htrim : Trimmed path) (hdir : DirRoot path) :
    below (objectName path) = normalizeRoot path := by
  by_cases hroot : normalizeRoot path = []
  · rw [hnames.root path htrim hroot, hroot]
    rfl
  · rw [hnames.directory path htrim hdir hroot, below_normalizeRoot]

/-- The name of a file is a normalised path. -/
theorem NormalizesPaths.normalized (htrim : Trimmed path) (hfile : ¬ DirRoot path) :
    NormalizedPath (objectName path) := by
  have hname := hnames.file path htrim hfile
  rcases normalizeRoot_cases path with hnil | ⟨path', hpath', heq⟩
  · rw [hnil] at hname
    simp at hname
  · rw [heq] at hname
    rwa [List.append_cancel_right hname]

/-- White space in front of a path can be left out. -/
theorem NormalizesPaths.exists_trimmed_front (path : Bytes) :
    ∃ path', (∀ word ∈ whitespace, ¬ word <+: path') ∧
      ∀ rest, objectName (path ++ rest) = objectName (path' ++ rest) := by
  induction hlen : path.length using Nat.strong_induction_on generalizing path with
  | h n ih =>
  by_cases hfront : ∀ word ∈ whitespace, ¬ word <+: path
  · exact ⟨path, hfront, fun _ => rfl⟩
  · -- One word of it is dropped, and the rest is shorter.
    simp only [not_forall, not_not] at hfront
    obtain ⟨word, hword, tail, rfl⟩ := hfront
    have hpos := List.length_pos_iff.mpr (whitespace_ne_nil word hword)
    rw [List.length_append] at hlen
    obtain ⟨path', hfront', hsame⟩ := ih tail.length (by omega) tail rfl
    refine ⟨path', hfront', fun rest => ?_⟩
    rw [List.append_assoc, hnames.trims word hword, hsame]

/-- **What lies below a path**, however that is spelled: a normalised path behind a slash is
kept as it is, behind a directory of its own. -/
theorem NormalizesPaths.exists_objectName_append (d : Bytes) :
    ∃ dir, ∀ rest, NormalizedPath rest → (∀ word ∈ whitespace, ¬ word <:+ rest) →
      objectName (d ++ slash :: rest) = dir ++ rest := by
  obtain ⟨d', hfront, hsame⟩ := hnames.exists_trimmed_front d
  refine ⟨normalizeRoot d', fun rest hrest hback => ?_⟩
  have htrim : Trimmed (d' ++ slash :: rest) := fun word hword =>
    ⟨fun h => hfront word hword (prefix_of_prefix_append_slash hword h),
      fun h => hback word hword (suffix_of_suffix_append_slash hword h)⟩
  have hfile : ¬ DirRoot (d' ++ slash :: rest) := by
    rw [not_dirRoot_iff, List.getLast?_append_of_ne_nil _ (List.cons_ne_nil _ _),
      List.getLast?_cons_of_ne_nil hrest.ne_nil]
    exact ⟨by simp, (not_dirRoot_iff.mp hrest.not_dirRoot).2⟩
  have hname := hnames.file _ htrim hfile
  rw [normalizeRoot_append_cons, hrest.normalizeRoot_eq, ← List.append_assoc] at hname
  rw [hsame]
  exact List.append_cancel_right hname

end Names

/-! ## A normalisation -/

/-- The name of a path: without the white space in front of it, and without empty segments. -/
def normalizePath (path : Bytes) : Bytes :=
  let path := dropPrefixes whitespace path.length path
  let dir := normalizeRoot path
  if dir = [] then [slash] else if path.getLast? = some slash then dir else dir.dropLast

/-- No white space begins another. -/
theorem eq_of_prefix_whitespace :
    ∀ word ∈ whitespace, ∀ word' ∈ whitespace, word <+: word' → word = word' := by
  decide

/-- More fuel than the text is long makes no difference. -/
theorem dropPrefixes_of_length_le {texts : List Bytes} (hne : ∀ text ∈ texts, text ≠ [])
    (n m : ℕ) {s : Bytes} (hn : s.length ≤ n) (hm : s.length ≤ m) :
    dropPrefixes texts n s = dropPrefixes texts m s := by
  induction n generalizing m s with
  | zero =>
      obtain rfl : s = [] := List.length_eq_zero_iff.mp (by omega)
      have hfind : ∀ text ∈ texts, ¬ text <+: [] := by simpa using hne
      rw [dropPrefixes_eq_self hfind, dropPrefixes_eq_self hfind]
  | succ n ih =>
      by_cases hfind : ∀ text ∈ texts, ¬ text <+: s
      · rw [dropPrefixes_eq_self hfind, dropPrefixes_eq_self hfind]
      · cases hfound : texts.find? fun text => text <+: s with
        | none => exact absurd (by simpa using hfound) hfind
        | some text =>
            have hpos := List.length_pos_iff.mpr (hne text (List.mem_of_find?_eq_some hfound))
            have hpre : text <+: s := by simpa using List.find?_some hfound
            have hle := hpre.length_le
            cases m with
            | zero => omega
            | succ m =>
                rw [dropPrefixes, dropPrefixes, hfound]
                refine ih m ?_ ?_ <;> rw [List.length_drop] <;> omega

/-- White space in front is dropped. -/
theorem dropPrefixes_append {word : Bytes} (hword : word ∈ whitespace) (s : Bytes) :
    dropPrefixes whitespace (word ++ s).length (word ++ s) =
      dropPrefixes whitespace s.length s := by
  have hpos := List.length_pos_iff.mpr (whitespace_ne_nil word hword)
  have hfind : (whitespace.find? fun text => text <+: word ++ s) = some word := by
    cases hfound : whitespace.find? fun text => text <+: word ++ s with
    | none => simpa using List.find?_eq_none.mp hfound word hword
    | some text =>
        have hmem := List.mem_of_find?_eq_some hfound
        have hpre : text <+: word ++ s := by simpa using List.find?_some hfound
        rcases List.prefix_or_prefix_of_prefix hpre (List.prefix_append word s) with h | h
        · rw [eq_of_prefix_whitespace text hmem word hword h]
        · rw [eq_of_prefix_whitespace word hword text hmem h]
  have hlen : (word ++ s).length ≠ 0 := by
    rw [List.length_append]
    omega
  obtain ⟨n, hn⟩ := Nat.exists_eq_succ_of_ne_zero hlen
  rw [hn, dropPrefixes, hfind]
  simp only [List.drop_left]
  rw [List.length_append] at hn
  exact dropPrefixes_of_length_le whitespace_ne_nil _ _ (by omega) le_rfl

/-- **There is a function that names objects as OpenDAL does.** -/
theorem normalizePath_normalizes : NormalizesPaths normalizePath := by
  have hself : ∀ path, Trimmed path → dropPrefixes whitespace path.length path = path :=
    fun path htrim => dropPrefixes_eq_self (fun word hword => (htrim word hword).1) _
  constructor
  · intro word hword path
    simp only [normalizePath, dropPrefixes_append hword]
  · intro path htrim hfile
    obtain ⟨hne, hlast⟩ := not_dirRoot_iff.mp hfile
    simp only [normalizePath, hself path htrim, if_neg hlast]
    rcases normalizeRoot_cases path with hnil | ⟨name, -, heq⟩
    · have hall := eq_slash_of_normalizeRoot_nil hnil
      refine absurd ?_ hlast
      rw [List.getLast?_eq_some_getLast hne, hall _ (List.getLast_mem hne)]
    · rw [heq, if_neg (by simp), List.dropLast_concat]
  · intro path htrim hdir hroot
    have hlast : path.getLast? = some slash := by
      rcases hdir with rfl | ⟨d, rfl⟩
      · exact absurd rfl hroot
      · exact List.getLast?_concat
    simp only [normalizePath, hself path htrim, if_neg hroot, if_pos hlast]
  · intro path htrim hroot
    simp only [normalizePath, hself path htrim, if_pos hroot]

end DuckdbOpendal
