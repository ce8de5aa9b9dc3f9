import Mathlib.Data.List.Basic
import Mathlib.Data.List.Count
import Mathlib.Tactic.Common

/-!
# Lexical paths

A relative path read segment by segment, without a file system: a segment names an
entry below the directory reached so far, goes up to the directory above it, or stays.
A path is confined when it never goes up more often than it has gone down.

## Main Results

* `LexicalPath.confined_iff` — a path is confined if and only if its depth never drops
  below its start
-/

namespace LexicalPath

/-- What a segment of a path does. -/
inductive Step where
  | named
  | up
  | stay
  deriving DecidableEq, Repr

/-- No prefix of the path has more steps up than named ones. -/
def Confined (steps : List Step) : Prop :=
  ∀ n, (steps.take n).count .up ≤ (steps.take n).count .named

/-- How deep a path leads from a depth; `none` once it has gone above its start. -/
def depth : ℕ → List Step → Option ℕ
  | d, [] => some d
  | d, .named :: steps => depth (d + 1) steps
  | d, .stay :: steps => depth d steps
  | 0, .up :: _ => none
  | d + 1, .up :: steps => depth d steps

/-- A path has a depth when no prefix goes up more often than the start allows. -/
theorem isSome_depth_iff (d : ℕ) (steps : List Step) :
    (depth d steps).isSome = true ↔
      ∀ n, (steps.take n).count .up ≤ d + (steps.take n).count .named := by
  have hcons : ∀ {step : Step} {steps : List Step} {P : List Step → Prop},
      P [] → ((∀ n, P ((step :: steps).take n)) ↔ ∀ n, P (step :: steps.take n)) := by
    intro step steps P hnil
    constructor
    · intro h n
      exact h (n + 1)
    · rintro h (_ | n)
      · exact hnil
      · exact h n
  induction steps generalizing d with
  | nil => simp [depth]
  | cons step steps ih =>
      rw [hcons (P := fun l => l.count .up ≤ d + l.count .named) (by simp)]
      cases step with
      | named =>
          refine (ih (d + 1)).trans (forall_congr' fun n => ?_)
          simp only [List.count_cons_self, List.count_cons_of_ne (by decide : Step.named ≠ .up)]
          omega
      | stay =>
          refine (ih d).trans (forall_congr' fun n => ?_)
          simp only [List.count_cons_of_ne (by decide : Step.stay ≠ .up),
            List.count_cons_of_ne (by decide : Step.stay ≠ .named)]
      | up =>
          cases d with
          | zero =>
              rw [depth]
              simp only [Option.isSome_none, Bool.false_eq_true, false_iff, not_forall]
              exact ⟨0, by simp⟩
          | succ d =>
              refine (ih d).trans (forall_congr' fun n => ?_)
              simp only [List.count_cons_self, List.count_cons_of_ne (by decide : Step.up ≠ .named)]
              omega

/-- **A path is confined** if and only if its depth never drops below its start. -/
theorem confined_iff (steps : List Step) : Confined steps ↔ (depth 0 steps).isSome = true := by
  rw [isSome_depth_iff]
  simp [Confined]

instance (steps : List Step) : Decidable (Confined steps) :=
  decidable_of_iff _ (confined_iff steps).symm

end LexicalPath
