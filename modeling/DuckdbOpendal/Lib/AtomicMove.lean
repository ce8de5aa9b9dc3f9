import Mathlib.Logic.Function.Basic

/-!
# Moving an object between two names of a store

A store maps names to contents.  A move brings what one name holds under another, in one
step or as a copy and a removal.  `Moved` is the outcome of a whole move, `Intact` that of
one that has stopped somewhere before its end.

## Main Results

* `moved_erase_copyTo` — a copy and a removal are a move
* `intact_copyTo` — a copy alone loses nothing
* `Moved.kept`, `Intact.kept` — either way the content is still there
-/

namespace AtomicMove

universe u v

variable {κ : Type u} {ν : Type v}

/-- The target holds what the source held, the source is gone, and nothing else has changed. -/
structure Moved (source target : κ) (before after : κ → Option ν) : Prop where
  atTarget : after target = before source
  atSource : after source = none
  others : ∀ k, k ≠ source → k ≠ target → after k = before k

/-- The source holds what it held, the target as well or what the source holds, and nothing
else has changed. -/
structure Intact (source target : κ) (before after : κ → Option ν) : Prop where
  atSource : after source = before source
  atTarget : after target = before target ∨ after target = before source
  others : ∀ k, k ≠ source → k ≠ target → after k = before k

variable {source target : κ} {before after : κ → Option ν}

/-- Nothing has happened. -/
theorem Intact.refl (source target : κ) (store : κ → Option ν) :
    Intact source target store store :=
  ⟨rfl, Or.inl rfl, fun _ _ _ => rfl⟩

/-- After a move the content is under the target. -/
theorem Moved.kept (h : Moved source target before after) :
    ∃ k ∈ [source, target], after k = before source :=
  ⟨target, by simp, h.atTarget⟩

/-- Before its end it is still under the source. -/
theorem Intact.kept (h : Intact source target before after) :
    ∃ k ∈ [source, target], after k = before source :=
  ⟨source, by simp, h.atSource⟩

/-! ## Copies and removals -/

variable [DecidableEq κ]

/-- The store after a copy. -/
def copyTo (source target : κ) (store : κ → Option ν) : κ → Option ν :=
  Function.update store target (store source)

/-- The store after a removal. -/
def erase (name : κ) (store : κ → Option ν) : κ → Option ν := Function.update store name none

/-- A copy and a removal are a move. -/
theorem moved_erase_copyTo (hne : source ≠ target) (store : κ → Option ν) :
    Moved source target store (erase source (copyTo source target store)) where
  atTarget := by
    rw [erase, Function.update_of_ne hne.symm, copyTo, Function.update_self]
  atSource := by
    rw [erase, Function.update_self]
  others k hsource htarget := by
    rw [erase, Function.update_of_ne hsource, copyTo, Function.update_of_ne htarget]

/-- A copy alone loses nothing. -/
theorem intact_copyTo (hne : source ≠ target) (store : κ → Option ν) :
    Intact source target store (copyTo source target store) where
  atSource := by
    rw [copyTo, Function.update_of_ne hne]
  atTarget := by
    rw [copyTo, Function.update_self]
    exact Or.inr rfl
  others k _ htarget := by
    rw [copyTo, Function.update_of_ne htarget]

end AtomicMove
