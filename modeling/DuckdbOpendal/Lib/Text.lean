import Mathlib.Data.List.Basic
import Mathlib.Data.List.Infix
import Mathlib.Data.List.DropRight
import Mathlib.Tactic.Common

/-!
# Searching and cutting texts

Texts are lists over an arbitrary alphabet.  This module collects the cuts that
string libraries offer (split at the first occurrence, trim, keep everything up
to the last separator) with the laws that pin them down.

## Main Results

* `Text.splitOnce_eq_some` — a split is a decomposition
* `Text.splitOnce_of_notMem` — splitting at a separator that does not start earlier
* `Text.induction_cuts` — induction on the cuts of a text at a separator
* `Text.slice_append_slice` — adjacent slices
* `Text.uptoLast_append_afterLast` — the text up to the last separator and the rest
-/

namespace Text

universe u

variable {α : Type u} [DecidableEq α]

/-! ## Splitting at the first occurrence -/

/-- Split a text at the first occurrence of `sep`. -/
def splitOnce (sep : List α) : List α → Option (List α × List α)
  | [] => if sep = [] then some ([], []) else none
  | a :: l =>
      if sep <+: a :: l then some ([], (a :: l).drop sep.length)
      else (splitOnce sep l).map fun p => (a :: p.1, p.2)

/-- A split is a decomposition of the text. -/
theorem splitOnce_eq_some {sep l x y : List α}
    (h : splitOnce sep l = some (x, y)) : l = x ++ sep ++ y := by
  induction l generalizing x y with
  | nil =>
      simp only [splitOnce] at h
      split at h
      · rename_i hsep
        cases h
        simp [hsep]
      · cases h
  | cons a l ih =>
      simp only [splitOnce] at h
      split at h
      · rename_i hpre
        cases h
        obtain ⟨t, ht⟩ := hpre
        rw [← ht]
        simp
      · obtain ⟨⟨x', y'⟩, hsplit, heq⟩ := Option.map_eq_some_iff.mp h
        cases heq
        rw [ih hsplit]
        simp

/-- What stands behind the separator is part of the text. -/
theorem suffix_of_splitOnce {sep l x y : List α} (h : splitOnce sep l = some (x, y)) : y <:+ l := by
  rw [splitOnce_eq_some h]
  exact List.suffix_append _ y

omit [DecidableEq α] in
/-- Whether `sep` starts a long enough text does not depend on what follows
it. -/
theorem prefix_append_iff {sep l r : List α} (hlen : sep.length ≤ l.length) :
    sep <+: l ++ r ↔ sep <+: l :=
  ⟨fun h => List.prefix_of_prefix_length_le h (List.prefix_append l r) hlen,
    fun h => h.trans (List.prefix_append l r)⟩

/-- What follows a text that has been split does not move the split. -/
theorem splitOnce_append {sep l x y : List α} (h : splitOnce sep l = some (x, y)) (z : List α) :
    splitOnce sep (l ++ z) = some (x, y ++ z) := by
  induction l generalizing x y with
  | nil =>
      simp only [splitOnce] at h
      split at h
      · rename_i hsep
        cases h
        subst hsep
        cases z <;> simp [splitOnce]
      · cases h
  | cons a l ih =>
      simp only [splitOnce] at h
      split at h
      · rename_i hpre
        cases h
        have hpre' : sep <+: a :: (l ++ z) := hpre.trans (List.prefix_append (a :: l) z)
        rw [List.cons_append, splitOnce, if_pos hpre', ← List.cons_append,
          List.drop_append_of_le_length hpre.length_le]
      · rename_i hpre
        obtain ⟨⟨x', y'⟩, hsplit, heq⟩ := Option.map_eq_some_iff.mp h
        cases heq
        -- The separator lies in the text, so it cannot start in front of it and end behind.
        have hlength : sep.length ≤ (a :: l).length := by
          have htext := congrArg List.length (splitOnce_eq_some hsplit)
          simp only [List.length_append] at htext
          simp only [List.length_cons]
          omega
        have hpre' : ¬ sep <+: a :: (l ++ z) := mt (prefix_append_iff hlength).mp hpre
        rw [List.cons_append, splitOnce, if_neg hpre', ih hsplit]
        rfl

/-- Splitting at a separator whose first symbol does not occur before it. -/
theorem splitOnce_of_notMem {c : α} {sep x : List α} (hx : c ∉ x) (y : List α) :
    splitOnce (c :: sep) (x ++ (c :: sep) ++ y) = some (x, y) := by
  induction x with
  | nil => simp [splitOnce]
  | cons a x ih =>
      have hne : ¬ c = a := fun h => hx (h ▸ List.mem_cons_self)
      have ih := ih fun h => hx (List.mem_cons_of_mem _ h)
      simp only [List.cons_append, List.append_assoc] at ih ⊢
      simp [splitOnce, hne, ih]

/-- Splitting at a single separator that does not occur before it. -/
theorem splitOnce_singleton {c : α} {x : List α} (hx : c ∉ x) (y : List α) :
    splitOnce [c] (x ++ c :: y) = some (x, y) := by
  have h : splitOnce [c] (x ++ [c] ++ y) = some (x, y) := splitOnce_of_notMem hx y
  rwa [List.append_assoc, List.singleton_append] at h

theorem splitOnce_singleton_eq_none {c : α} {x : List α} (hx : c ∉ x) :
    splitOnce [c] x = none := by
  induction x with
  | nil => rfl
  | cons a x ih =>
      have hne : ¬ c = a := fun h => hx (h ▸ List.mem_cons_self)
      simp [splitOnce, hne, ih fun h => hx (List.mem_cons_of_mem _ h)]

/-- What stands before the first occurrence of a single separator is free of it. -/
theorem notMem_of_splitOnce_singleton {c : α} {l x y : List α}
    (h : splitOnce [c] l = some (x, y)) : c ∉ x := by
  induction l generalizing x y with
  | nil => simp [splitOnce] at h
  | cons a l ih =>
      simp only [splitOnce] at h
      split at h
      · cases h
        exact List.not_mem_nil
      · rename_i hne
        obtain ⟨⟨x', y'⟩, hsplit, heq⟩ := Option.map_eq_some_iff.mp h
        cases heq
        rw [List.mem_cons]
        rintro (rfl | hmem)
        · exact hne (by simp)
        · exact ih hsplit hmem

/-- Without a split at a single separator, it does not occur. -/
theorem notMem_of_splitOnce_singleton_eq_none {c : α} {l : List α}
    (h : splitOnce [c] l = none) : c ∉ l := by
  intro hmem
  obtain ⟨x, y, rfl, hx⟩ := List.eq_append_cons_of_mem hmem
  rw [splitOnce_singleton hx] at h
  cases h

/-! ## Cutting at every separator -/

/-- **Induction on the cuts of a text**: a text is free of the separator, or it is cut at
its first one. -/
theorem induction_cuts {motive : List α → Prop} (c : α) (uncut : ∀ x, c ∉ x → motive x)
    (cut : ∀ x y, c ∉ x → motive y → motive (x ++ c :: y)) (l : List α) : motive l := by
  induction hn : l.length using Nat.strong_induction_on generalizing l with
  | _ n ih =>
      by_cases hc : c ∈ l
      · obtain ⟨x, y, rfl, hx⟩ := List.eq_append_cons_of_mem hc
        refine cut x y hx (ih y.length ?_ y rfl)
        rw [← hn, List.length_append, List.length_cons]
        omega
      · exact uncut l hc

/-- No piece holds the separator. -/
theorem notMem_of_mem_splitOn {c : α} {l s : List α} (h : s ∈ l.splitOn c) : c ∉ s := by
  induction l using induction_cuts c with
  | uncut x hx =>
      rw [List.splitOn_eq_singleton hx, List.mem_singleton] at h
      exact h ▸ hx
  | cut x y hx ih =>
      rw [List.splitOn_append_cons_self_of_not_mem hx] at h
      rcases List.mem_cons.mp h with rfl | h
      · exact hx
      · exact ih h

omit [DecidableEq α] in
/-- A text without the separator lies on one side of a cut. -/
theorem infix_append_cons_iff {c : α} {l x y : List α} (hc : c ∉ l) :
    l <:+: x ++ c :: y ↔ l <:+: x ∨ l <:+: y := by
  constructor
  · rintro ⟨s, t, h⟩
    rw [List.append_assoc] at h
    rcases List.append_eq_append_iff.mp h with ⟨m, rfl, hrest⟩ | ⟨m, rfl, hrest⟩
    · -- The text starts in front of the cut, so it ends there, too.
      rcases List.append_eq_append_iff.mp hrest with ⟨m', rfl, -⟩ | ⟨m', hl, hcut⟩
      · exact Or.inl ⟨s, m', by simp⟩
      · cases m' with
        | nil => exact Or.inl ⟨s, [], by simp [hl]⟩
        | cons b m' =>
            obtain ⟨rfl, -⟩ := List.cons.inj hcut
            exact absurd (hl ▸ List.mem_append_right _ List.mem_cons_self) hc
    · cases m with
      | nil =>
          cases l with
          | nil => exact Or.inl List.nil_infix
          | cons b l =>
              obtain ⟨rfl, -⟩ := List.cons.inj hrest
              exact absurd List.mem_cons_self hc
      | cons b m =>
          obtain ⟨-, rfl⟩ := List.cons.inj hrest
          exact Or.inr ⟨m, t, by simp⟩
  · rintro (h | h)
    · exact h.trans (List.prefix_append x _).isInfix
    · exact h.trans ((List.suffix_cons c y).trans (List.suffix_append x _)).isInfix

/-! ## Slices -/

omit [DecidableEq α] in
/-- Adjacent slices make up one slice. -/
theorem slice_append_slice {a b c : ℕ} (hab : a ≤ b) (hbc : b ≤ c) (l : List α) :
    (l.take b).drop a ++ (l.take c).drop b = (l.take c).drop a := by
  have hfirst : (l.take b).drop a = ((l.take c).drop a).take (b - a) := by
    rw [← List.drop_take, List.take_take, Nat.min_eq_left hbc]
  have hsecond : (l.take c).drop b = ((l.take c).drop a).drop (b - a) := by
    rw [List.drop_drop, Nat.add_sub_cancel' hab]
  rw [hfirst, hsecond, List.take_append_drop]

/-! ## Up to the last separator -/

/-- The text up to and including the last `c`; empty without one. -/
def uptoLast (c : α) (l : List α) : List α := l.rdropWhile (· ≠ c)

/-- The text after the last `c`; all of it without one. -/
def afterLast (c : α) (l : List α) : List α := l.rtakeWhile (· ≠ c)

@[simp] theorem uptoLast_append_afterLast (c : α) (l : List α) :
    uptoLast c l ++ afterLast c l = l := List.rdropWhile_append_rtakeWhile

theorem afterLast_suffix (c : α) (l : List α) : afterLast c l <:+ l :=
  ⟨uptoLast c l, uptoLast_append_afterLast c l⟩

theorem notMem_afterLast (c : α) (l : List α) : c ∉ afterLast c l := by
  intro h
  have := List.mem_rtakeWhile_imp h
  simp at this

/-- The text up to the last `c` ends in `c`, unless there is none. -/
theorem uptoLast_eq_nil_or_concat (c : α) (l : List α) :
    uptoLast c l = [] ∨ ∃ d, uptoLast c l = d ++ [c] := by
  by_cases h : uptoLast c l = []
  · exact Or.inl h
  · have hlast : (uptoLast c l).getLast h = c := by
      have hnot := List.rdropWhile_last_not (fun a => decide (a ≠ c)) l h
      rw [decide_eq_true_eq, not_not] at hnot
      exact hnot
    refine Or.inr ⟨(uptoLast c l).dropLast, ?_⟩
    calc uptoLast c l
        = (uptoLast c l).dropLast ++ [(uptoLast c l).getLast h] :=
          (List.dropLast_append_getLast h).symm
      _ = (uptoLast c l).dropLast ++ [c] := by rw [hlast]

omit [DecidableEq α] in
/-- A text that changes from one kind of symbols to the other once, cut there from the back. -/
theorem rdropWhile_rtakeWhile_append {p : α → Bool} {l r : List α}
    (hl : ∀ a ∈ l.getLast?, p a = false) (hr : ∀ a ∈ r, p a = true) :
    (l ++ r).rdropWhile p = l ∧ (l ++ r).rtakeWhile p = r := by
  induction r using List.reverseRecOn with
  | nil =>
      have hlast : ∀ hl : l ≠ [], ¬ p (l.getLast hl) = true := fun hne => by
        rw [hl (l.getLast hne) (List.getLast?_eq_some_getLast hne)]
        exact Bool.false_ne_true
      rw [List.append_nil]
      exact ⟨List.rdropWhile_eq_self_iff.mpr hlast, List.rtakeWhile_eq_nil_iff.mpr hlast⟩
  | append_singleton r a ih =>
      have ha : p a = true := hr a (List.mem_append_right r (List.mem_singleton_self a))
      obtain ⟨hdrop, htake⟩ := ih fun b hb => hr b (List.mem_append_left [a] hb)
      rw [← List.append_assoc, List.rdropWhile_concat_pos p (l ++ r) a ha,
        List.rtakeWhile_concat_pos p (l ++ r) a ha]
      exact ⟨hdrop, congrArg (· ++ [a]) htake⟩

omit [DecidableEq α] in
/-- The last symbol of a kind, where it stands. -/
theorem exists_of_getLast?_filter {p : α → Bool} {l : List α} {a : α}
    (h : (l.filter p).getLast? = some a) :
    ∃ x y, l = x ++ a :: y ∧ p a = true ∧ ∀ b ∈ y, p b = false := by
  rw [List.getLast?_filter, List.find?_eq_some_iff_append] at h
  obtain ⟨ha, y, x, hl, hy⟩ := h
  refine ⟨x.reverse, y.reverse, ?_, ha, fun b hb => ?_⟩
  · rw [← List.reverse_reverse l, hl]
    simp
  · simpa using hy b (List.mem_reverse.mp hb)

end Text
