import Mathlib.Logic.Function.Basic
import Mathlib.Data.List.Basic

/-!
# Moves carried out one after the other

A list of moves over a memory: each move reads one place and writes another, and what it
writes may depend on what it read.  The moves are meant as a parallel assignment; done in
sequence, a move still works on the original value when no earlier move has overwritten
its source, and what it writes stays when no later one overwrites its destination.

## Main Results

* `Run.apply_of_notMem` — the frame: places that are no destination keep their value
* `Run.apply_destination` — when a move delivers what it makes of the original value
-/

universe u v w

namespace SequentialMoves

variable {μ : Type u} {κ : Type v} {ν : Type w} [DecidableEq κ]

/-- A sequential run of moves: each move turns the value at its source into the value it
writes at its destination, as `transfers` allows. -/
inductive Run (source destination : μ → κ) (transfers : μ → ν → ν → Prop) :
    List μ → (κ → ν) → (κ → ν) → Prop where
  | nil (s : κ → ν) : Run source destination transfers [] s s
  | cons {m : μ} {ms : List μ} {s s' : κ → ν} {v : ν} (h : transfers m (s (source m)) v)
      (hrest : Run source destination transfers ms (Function.update s (destination m) v) s') :
      Run source destination transfers (m :: ms) s s'

variable {source destination : μ → κ} {transfers : μ → ν → ν → Prop}
  {ms before after : List μ} {s s' : κ → ν}

/-- **Frame**: a place that is no destination keeps its value. -/
theorem Run.apply_of_notMem (h : Run source destination transfers ms s s') {k : κ}
    (hk : ∀ m ∈ ms, destination m ≠ k) : s' k = s k := by
  induction h with
  | nil s => rfl
  | cons h hrest ih =>
      rw [ih fun m hm => hk m (List.mem_cons_of_mem _ hm),
        Function.update_of_ne (hk _ List.mem_cons_self).symm]

/-- **A move delivers what it makes of the original value** when no earlier move wrote to
its source and no later one writes to its destination. -/
theorem Run.apply_destination {m : μ}
    (h : Run source destination transfers (before ++ m :: after) s s')
    (hbefore : ∀ q ∈ before, destination q ≠ source m)
    (hafter : ∀ q ∈ after, destination q ≠ destination m) :
    transfers m (s (source m)) (s' (destination m)) := by
  induction before generalizing s with
  | nil =>
      cases h with
      | cons h hrest =>
          rw [hrest.apply_of_notMem hafter, Function.update_self]
          exact h
  | cons q before ih =>
      cases h with
      | @cons _ _ _ _ v h hrest =>
          have hsource : Function.update s (destination q) v (source m) = s (source m) :=
            Function.update_of_ne (hbefore q List.mem_cons_self).symm v s
          rw [← hsource]
          exact ih hrest fun q hq => hbefore q (List.mem_cons_of_mem _ hq)

end SequentialMoves
