import Mathlib.Algebra.Order.Ring.Nat
import Mathlib.Logic.Function.Iterate

/-!
# Loops that advance

A loop that replaces an offset by the next one while the offset is below a bound.  Whether it
stops, and in what steps it covers what is below the bound, depends on the next offsets only.

## Main Definitions

* `Advance.StopsAfter` — how many rounds the loop makes
* `Advance.ranges` — the ranges the rounds cover
* `Advance.Tiles` — ranges that follow each other

## Main Results

* `Advance.exists_stopsAfter` — a loop whose rounds all advance reaches the bound
* `Advance.tiles_ranges` — its ranges tile what is below the bound
-/

namespace Advance

variable {next : ℕ → ℕ} {bound chunk : ℕ}

/-- The loop is left after so many rounds, and not before. -/
def StopsAfter (next : ℕ → ℕ) (bound rounds offset : ℕ) : Prop :=
  (∀ k < rounds, next^[k] offset < bound) ∧ bound ≤ next^[rounds] offset

/-- The ranges of the first rounds. -/
def ranges (next : ℕ → ℕ) : ℕ → ℕ → List (ℕ × ℕ)
  | 0, _ => []
  | rounds + 1, offset => (offset, next offset) :: ranges next rounds (next offset)

/-- Ranges that follow each other from one offset to another, none of them empty or longer than
the chunk. -/
inductive Tiles (chunk : ℕ) : ℕ → List (ℕ × ℕ) → ℕ → Prop where
  | nil (start : ℕ) : Tiles chunk start [] start
  | cons {start mid stop : ℕ} {rest : List (ℕ × ℕ)} : start < mid → mid ≤ start + chunk →
      Tiles chunk mid rest stop → Tiles chunk start ((start, mid) :: rest) stop

/-- A loop that has not been left has not made all its rounds. -/
theorem StopsAfter.le {offset rounds k : ℕ} (h : StopsAfter next bound rounds offset)
    (hk : ∀ j < k, next^[j] offset < bound) : k ≤ rounds := by
  by_contra hlt
  exact absurd (hk rounds (Nat.not_le.mp hlt)) (Nat.not_lt.mpr h.2)

/-- The first round, and those behind it. -/
theorem forall_lt_succ_iterate {offset rounds : ℕ} :
    (∀ k < rounds + 1, next^[k] offset < bound) ↔
      offset < bound ∧ ∀ k < rounds, next^[k] (next offset) < bound :=
  Nat.forall_lt_succ_left

theorem stopsAfter_succ {offset rounds : ℕ} :
    StopsAfter next bound (rounds + 1) offset ↔
      offset < bound ∧ StopsAfter next bound rounds (next offset) := by
  rw [StopsAfter, forall_lt_succ_iterate, and_assoc]
  rfl

/-- **A loop whose rounds all advance**, and not beyond the bound, reaches it. -/
theorem exists_stopsAfter (hnext : ∀ x < bound, x < next x ∧ next x ≤ bound) {offset : ℕ}
    (h : offset ≤ bound) :
    ∃ rounds ≤ bound - offset, StopsAfter next bound rounds offset ∧
      next^[rounds] offset = bound := by
  -- By induction on what is left below the bound.
  induction hrest : bound - offset using Nat.strong_induction_on generalizing offset with
  | h rest ih =>
  subst hrest
  rcases Nat.lt_or_ge offset bound with hlt | hge
  · obtain ⟨hadvance, hle⟩ := hnext offset hlt
    obtain ⟨rounds, hrounds, hstops, hend⟩ := ih (bound - next offset) (by omega) hle rfl
    exact ⟨rounds + 1, by omega, stopsAfter_succ.mpr ⟨hlt, hstops⟩, hend⟩
  · exact ⟨0, Nat.zero_le _, ⟨fun k hk => absurd hk (Nat.not_lt_zero k), hge⟩,
      le_antisymm h hge⟩

/-- **The ranges of the rounds tile** what they cover, if no round advances by more than the
chunk. -/
theorem tiles_ranges (hnext : ∀ x < bound, x < next x ∧ next x ≤ x + chunk) {rounds offset : ℕ}
    (h : ∀ k < rounds, next^[k] offset < bound) :
    Tiles chunk offset (ranges next rounds offset) (next^[rounds] offset) := by
  induction rounds generalizing offset with
  | zero => exact .nil offset
  | succ rounds ih =>
      obtain ⟨hlt, hrest⟩ := forall_lt_succ_iterate.mp h
      obtain ⟨hadvance, hle⟩ := hnext offset hlt
      exact .cons hadvance hle (ih hrest)

end Advance
