import Mathlib.Data.List.Flatten
import DuckdbOpendal.CopyPlan

/-!
# Where a tree is copied to

A directory or glob copy puts each file where it was relative to the fixed part of the
source.  The fixed part is taken from the source as it is spelled, while a listing names
its entries by normalised paths; `strip_base` passes over a path that the spelled base
does not start.

## Main Definitions

* `relativePath` — a listed path below the directory a base names
* `PlansRelative` — a plan that keeps every file where it was below the base

## Main Results

* `stripBase_injOn` — stripping a base loses nothing
* `stripBase_eq_iff` — when stripping the spelled base is right
* `odTableCopyOpen_relative_iff` — when a copied tree keeps its shape
-/

namespace DuckdbOpendal

/-! ## The base of a source -/

theorem dirRoot_copyBase (source : Bytes) : DirRoot (copyBase source) := by
  unfold copyBase
  split
  · exact dirRoot_globRoot source
  · split
    · rename_i hslash
      exact Or.inr (List.getLast?_eq_some_iff.mp hslash)
    · exact Or.inr ⟨source, rfl⟩

/-- Below a directory root, stripping the base loses nothing: the base starts every path
or none. -/
theorem stripBase_injOn {base : Bytes} (hbase : DirRoot base) {f g : Bytes}
    (hf : NormalizedPath f) (hg : NormalizedPath g) (hfroot : normalizeRoot base <+: f)
    (hgroot : normalizeRoot base <+: g) (h : stripBase base f = stripBase base g) : f = g := by
  have hiff : base <+: f ↔ base <+: g := by
    constructor
    · intro hstarts
      rwa [normalizeRoot_of_startsWith hbase hf hstarts] at hgroot
    · intro hstarts
      rwa [normalizeRoot_of_startsWith hbase hg hstarts] at hfroot
  unfold stripBase at h
  by_cases hstarts : base <+: f
  · rw [if_pos hstarts, if_pos (hiff.mp hstarts)] at h
    obtain ⟨rest, rfl⟩ := hstarts
    obtain ⟨rest', rfl⟩ := hiff.mp (List.prefix_append _ _)
    rw [List.drop_left, List.drop_left] at h
    rw [h]
  · rwa [if_neg hstarts, if_neg (mt hiff.mpr hstarts)] at h

/-! ## Normalising a base only removes slashes -/

theorem normalizeRoot_sublist {base : Bytes} (hbase : DirRoot base) :
    (normalizeRoot base).Sublist base := by
  rcases hbase with rfl | ⟨d, rfl⟩
  · exact List.Sublist.refl _
  · rw [normalizeRoot_append_slash]
    rw [← flatMap_splitOn d]
    exact List.Sublist.flatMap List.filter_sublist _

/-- A base that is not normalised is longer than the directory it names. -/
theorem length_normalizeRoot_lt {base : Bytes} (hbase : DirRoot base)
    (hne : normalizeRoot base ≠ base) : (normalizeRoot base).length < base.length := by
  have hsublist := normalizeRoot_sublist hbase
  exact lt_of_le_of_ne hsublist.length_le fun hlen => hne (hsublist.eq_of_length hlen)

/-! ## Relative paths -/

/-- A listed path below the directory a base names. -/
def relativePath (base path : Bytes) : Bytes := path.drop (normalizeRoot base).length

/-- **When stripping the spelled base is right**: when the base is spelled as OpenDAL
normalises it, or names the operator root. -/
theorem stripBase_eq_iff {base path : Bytes} (hbase : DirRoot base)
    (hbelow : normalizeRoot base <+: path) (hrelative : path.head? ≠ some slash) :
    stripBase base path = relativePath base path ↔
      normalizeRoot base = base ∨ normalizeRoot base = [] := by
  unfold stripBase relativePath
  have hlen := hbelow.length_le
  by_cases hstarts : base <+: path
  · rw [if_pos hstarts]
    constructor
    · intro h
      left
      by_contra hne
      have hlt := length_normalizeRoot_lt hbase hne
      have hlen' := hstarts.length_le
      have hdrop := congrArg List.length h
      rw [List.length_drop, List.length_drop] at hdrop
      omega
    · rintro (h | h)
      · rw [h]
      · -- Only slashes name the operator root, and none starts a listed path.
        obtain ⟨rest, rfl⟩ := hstarts
        cases base with
        | nil => rfl
        | cons b base =>
            have hb := eq_slash_of_normalizeRoot_nil h b List.mem_cons_self
            exact absurd (by rw [hb]; rfl) hrelative
  · rw [if_neg hstarts]
    constructor
    · intro h
      right
      have hdrop := congrArg List.length h
      rw [List.length_drop] at hdrop
      refine List.length_eq_zero_iff.mp ?_
      have : path.length ≠ 0 ∨ (normalizeRoot base).length = 0 := by omega
      omega
    · rintro (h | h)
      · exact absurd (h ▸ hbelow) hstarts
      · rw [h]
        rfl

/-! ## The plan of a tree -/

/-- The entries of a listing that a plan copies. -/
def plannedEntries (selects : Bytes → Bool) (entries : List Entry) : List Entry :=
  entries.filter fun e => e.metadata.isFile && selects e.path

/-- The plan copies every selected file once, to where it was relative to the directory its
base names, and no two of them to one place. -/
def PlansRelative (base destination : Bytes) (selects : Bytes → Bool) (entries : List Entry)
    (plan : List PlannedCopy) : Prop :=
  (plan = (plannedEntries selects entries).map fun e =>
    ⟨e.path, joinDest destination (relativePath base e.path), e.metadata.contentLength⟩) ∧
  ∀ p ∈ plan, ∀ q ∈ plan, p.source ≠ q.source → p.destination ≠ q.destination

section Plan

variable {base destination : Bytes} {selects : Bytes → Bool} {entries : List Entry}
  (hbase : DirRoot base)
  (hbelow : ∀ e ∈ plannedEntries selects entries,
    normalizeRoot base <+: e.path ∧ e.path.head? ≠ some slash)
include hbase hbelow

/-- A plan that keeps one file where it was has a base that is right for all. -/
theorem base_of_plansRelative
    (h : PlansRelative base destination selects entries
      (planEntries base destination selects entries)) :
    normalizeRoot base = base ∨ normalizeRoot base = [] ∨ plannedEntries selects entries = [] := by
  have hplan := h.1
  rw [planEntries, ← plannedEntries] at hplan
  cases hplanned : plannedEntries selects entries with
  | nil => exact Or.inr (Or.inr rfl)
  | cons e planned =>
      rw [hplanned] at hplan
      -- The first planned file decides: the base is right for all of them or for none.
      obtain ⟨hstarts, hrelative⟩ := hbelow e (hplanned ▸ List.mem_cons_self)
      have hhead := (PlannedCopy.mk.inj (List.cons.inj hplan).1).2.1
      have hstrip := (stripBase_eq_iff hbase hstarts hrelative).mp
        (joinDest_injective destination hhead)
      exact hstrip.imp_right Or.inl

/-- A base that is right for all keeps every file where it was. -/
theorem plansRelative_of_base
    (h : normalizeRoot base = base ∨ normalizeRoot base = [] ∨
      plannedEntries selects entries = []) :
    PlansRelative base destination selects entries
      (planEntries base destination selects entries) := by
  have hstrip : ∀ e ∈ plannedEntries selects entries,
      stripBase base e.path = relativePath base e.path := by
    intro e he
    obtain ⟨hstarts, hrelative⟩ := hbelow e he
    refine (stripBase_eq_iff hbase hstarts hrelative).mpr ?_
    rcases h with h | h | h
    · exact Or.inl h
    · exact Or.inr h
    · exact absurd (h ▸ he) List.not_mem_nil
  refine ⟨List.map_congr_left fun e he => by rw [hstrip e he], ?_⟩
  rintro p hp q hq hne heq
  obtain ⟨e, he, rfl⟩ := List.mem_map.mp hp
  obtain ⟨e', he', rfl⟩ := List.mem_map.mp hq
  have hrel : relativePath base e.path = relativePath base e'.path := by
    rw [← hstrip e he, ← hstrip e' he']
    exact joinDest_injective destination heq
  -- Both paths begin with the base, so what is left behind it tells them apart.
  obtain ⟨rest, hrest⟩ := (hbelow e he).1
  obtain ⟨rest', hrest'⟩ := (hbelow e' he').1
  apply hne
  simp only [relativePath, ← hrest, ← hrest', List.drop_left] at hrel ⊢
  rw [hrel]

end Plan

/-- **When a copied tree keeps its shape.**  Over every listing whose paths are relative and
begin with the normalised base, the plan of a directory or a glob copies each selected
file once, below the destination as it was below the source, if and only if the base is
spelled as OpenDAL normalises it or names the operator root, or no file is selected. -/
theorem odTableCopyOpen_relative_iff {sourceOp destinationOp : OdOperator}
    {source destination : Bytes} {rawOptions : OdCopyOptions} {cursor : OdCopyCursor}
    (hopen : odTableCopyOpen sourceOp source destinationOp destination rawOptions = .ok cursor)
    (htree : IsTree sourceOp (cStr source)) {entries : List Entry}
    (hentries : sourceOp.listOptions (copyBase (cStr source)) (.plain true) = .ok entries)
    (hbelow : ∀ e ∈ entries,
      normalizeRoot (copyBase (cStr source)) <+: e.path ∧ e.path.head? ≠ some slash) :
    PlansRelative (copyBase (cStr source)) (cStr destination) (copySelects (cStr source)) entries
        cursor.plan ↔
      normalizeRoot (copyBase (cStr source)) = copyBase (cStr source) ∨
        normalizeRoot (copyBase (cStr source)) = [] ∨
        plannedEntries (copySelects (cStr source)) entries = [] := by
  obtain ⟨source', destination', options, plan, hsource, hdestination, -, hplan, rfl⟩ :=
    odTableCopyOpen_eq_ok hopen
  cases (cstr_eq_some_iff.mp hsource).2
  cases (cstr_eq_some_iff.mp hdestination).2
  obtain ⟨entries', hentries', rfl⟩ := copyPlan_of_isTree htree hplan
  cases hentries.symm.trans hentries'
  have hplanned : ∀ e ∈ plannedEntries (copySelects (cStr source)) entries,
      normalizeRoot (copyBase (cStr source)) <+: e.path ∧ e.path.head? ≠ some slash :=
    fun e he => hbelow e (List.mem_filter.mp he).1
  constructor
  · exact base_of_plansRelative (dirRoot_copyBase _) hplanned
  · exact plansRelative_of_base (dirRoot_copyBase _) hplanned

theorem nestedFile_utf8 : Utf8.isUtf8 (ascii "d/a") = true := by decide

/-- Two files, one below the other's directory. -/
def nestedFiles : List Entry :=
  [fileEntry (ascii "d/a") nestedFile_utf8 1, fileEntry (ascii "d/sub/a") (by decide) 1]

/-- A service that lists them and copies on its side. -/
def nestedStore : OdOperator :=
  storeOperator .all nestedFiles

/-- The cursor of a copy of their directory. -/
def nestedCursor (plan : List PlannedCopy) : OdCopyCursor :=
  ⟨nestedStore, nestedStore, ⟨false, none, none, none, 0, none⟩, true, plan, none⟩

theorem nestedStore_isTree : IsTree nestedStore (cStr (ascii "d/")) := by
  refine Or.inr fun version metadata h => ?_
  cases h
  rfl

/-- Copying the directory by its normalised name. -/
theorem odTableCopyOpen_relative_nested :
    ∃ cursor, odTableCopyOpen nestedStore (ascii "d/") nestedStore (ascii "e") .unset =
        .ok cursor ∧
      PlansRelative (copyBase (cStr (ascii "d/"))) (cStr (ascii "e"))
        (copySelects (cStr (ascii "d/"))) nestedFiles cursor.plan := by
  have hopen : odTableCopyOpen nestedStore (ascii "d/") nestedStore (ascii "e") .unset =
      .ok (nestedCursor
        [⟨ascii "d/a", ascii "e/a", 1⟩, ⟨ascii "d/sub/a", ascii "e/sub/a", 1⟩]) := rfl
  exact ⟨_, hopen, (odTableCopyOpen_relative_iff hopen nestedStore_isTree rfl (by decide)).mpr
    (Or.inl (by decide))⟩

/-- Copying it by a name with a leading slash: the directory's own name is kept below the
destination. -/
theorem odTableCopyOpen_slashed :
    IsTree nestedStore (cStr (ascii "/d/")) ∧
    nestedStore.listOptions (copyBase (cStr (ascii "/d/"))) (.plain true) = .ok nestedFiles ∧
    (∀ e ∈ nestedFiles, normalizeRoot (copyBase (cStr (ascii "/d/"))) <+: e.path ∧
      e.path.head? ≠ some slash) ∧
    odTableCopyOpen nestedStore (ascii "/d/") nestedStore (ascii "e") .unset =
      .ok (nestedCursor
        [⟨ascii "d/a", ascii "e/d/a", 1⟩, ⟨ascii "d/sub/a", ascii "e/d/sub/a", 1⟩]) ∧
    ¬ PlansRelative (copyBase (cStr (ascii "/d/"))) (cStr (ascii "e"))
      (copySelects (cStr (ascii "/d/"))) nestedFiles
      [⟨ascii "d/a", ascii "e/d/a", 1⟩, ⟨ascii "d/sub/a", ascii "e/d/sub/a", 1⟩] := by
  refine ⟨Or.inr fun version metadata h => ?_, rfl, by decide, rfl, fun h => ?_⟩
  · cases h
    rfl
  · exact absurd h.1 (by decide)

end DuckdbOpendal
