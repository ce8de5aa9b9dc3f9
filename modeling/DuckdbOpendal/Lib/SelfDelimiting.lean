import Mathlib.Data.List.Basic
import Mathlib.Logic.Function.Basic

/-!
# Self-delimiting codes

A code is **self-delimiting** when a codeword followed by arbitrary further text
can be read back without knowing where it ends.  Such codes concatenate without
separators: the concatenation of a list of codewords determines the list.

The code developed here is the length-prefixed frame

  `mark :: digits n ++ sep :: payload`,  `n = payload.length`,

over an arbitrary alphabet.  Two facts about the numeral system are used and
nothing else: distinct numbers have distinct numerals, and a numeral never
contains the separator.

## Main Results

* `SelfDelimiting.flatMap_injective` — concatenations of codewords decode uniquely
* `SelfDelimiting.frame_selfDelimiting` — the length-prefixed frame is
  self-delimiting
-/

universe u v

/-- A code is self-delimiting if a codeword and the text after it are both
determined by their concatenation. -/
def SelfDelimiting {α : Type u} {β : Type v} (enc : α → List β) : Prop :=
  ∀ a b x y, enc a ++ x = enc b ++ y → a = b ∧ x = y

namespace SelfDelimiting

variable {α : Type u} {β : Type v}

/-- Text up to the first separator, and the text after it, are determined by
their concatenation. -/
theorem append_cons_inj {sep : β} {l₁ l₂ r₁ r₂ : List β}
    (h₁ : sep ∉ l₁) (h₂ : sep ∉ l₂) (h : l₁ ++ sep :: r₁ = l₂ ++ sep :: r₂) :
    l₁ = l₂ ∧ r₁ = r₂ := by
  rcases List.append_eq_append_iff.mp h with ⟨m, hl, hr⟩ | ⟨m, hl, hr⟩
  · cases m with
    | nil => exact ⟨by simpa using hl.symm, by simpa using hr⟩
    | cons b m =>
        obtain ⟨rfl, -⟩ := List.cons.inj hr
        exact absurd (by simp [hl]) h₂
  · cases m with
    | nil => exact ⟨by simpa using hl, by simpa using hr.symm⟩
    | cons b m =>
        obtain ⟨rfl, -⟩ := List.cons.inj hr
        exact absurd (by simp [hl]) h₁

/-- **Concatenations decode uniquely**: a list of values is determined by the
concatenation of its codewords, once no codeword is empty. -/
theorem flatMap_injective {enc : α → List β} (henc : SelfDelimiting enc)
    (hne : ∀ a, enc a ≠ []) :
    Function.Injective fun l : List α => l.flatMap enc := by
  intro l₁
  induction l₁ with
  | nil =>
      intro l₂ h
      cases l₂ with
      | nil => rfl
      | cons b l₂ => simp [hne] at h
  | cons a l₁ ih =>
      intro l₂ h
      cases l₂ with
      | nil => simp [hne] at h
      | cons b l₂ =>
          simp only [List.flatMap_cons] at h
          obtain ⟨rfl, htail⟩ := henc a b _ _ h
          rw [ih htail]

/-- The length-prefixed frame of a payload. -/
def frame (mark sep : β) (digits : ℕ → List β) (payload : List β) : List β :=
  mark :: (digits payload.length ++ sep :: payload)

@[simp] theorem frame_ne_nil (mark sep : β) (digits : ℕ → List β)
    (payload : List β) : frame mark sep digits payload ≠ [] := by
  simp [frame]

/-- **The length-prefixed frame is self-delimiting.**  The numeral ends at the
first separator, and it says how much of the remaining text is payload. -/
theorem frame_selfDelimiting {mark sep : β} {digits : ℕ → List β}
    (hinj : Function.Injective digits) (hsep : ∀ n, sep ∉ digits n) :
    SelfDelimiting (frame mark sep digits) := by
  intro p q x y h
  simp only [frame, List.cons_append, List.cons.injEq, true_and,
    List.append_assoc] at h
  obtain ⟨hnum, hrest⟩ := append_cons_inj (hsep _) (hsep _) h
  exact List.append_inj hrest (hinj hnum)

end SelfDelimiting
