import Mathlib.Algebra.BigOperators.Group.List.Basic
import Mathlib.Algebra.GroupWithZero.Nat
import Mathlib.Data.List.Nodup
import Mathlib.Order.Lattice
import Mathlib.Tactic.Common

/-!
# Rollups

Items summed up by key: one row a key, in increasing order, with the number of its items
and the total of their weights.

## Main Definitions

* `Rollup.IsRollup` — the rows that sum up a list of items

## Main Results

* `Rollup.IsRollup.sum_count`, `Rollup.IsRollup.sum_total` — no item is lost or counted
  twice
* `Rollup.IsRollup.of_perm` — the order of the items does not matter
* `Rollup.IsRollup.map` — nor does their representation
-/

namespace Rollup

universe u v w

variable {ι : Type u} {κ : Type v} {M : Type w}

/-- A row of a rollup. -/
@[ext] structure Row (κ : Type v) (M : Type w) where
  key : κ
  count : ℕ
  total : M
  deriving DecidableEq, Repr

variable [LinearOrder κ]

section Group

variable [AddCommMonoid M] (key : ι → κ) (weight : ι → M)

/-- The items of a key. -/
def group (items : List ι) (k : κ) : List ι := items.filter fun i => key i = k

variable {key}

/-- **Summing by group**: over keys without repetition that cover the items, the groups'
totals make up the total. -/
theorem sum_groups {ks : List κ} (hks : ks.Nodup) {items : List ι}
    (hcover : ∀ i ∈ items, key i ∈ ks) :
    (ks.map fun k => ((group key items k).map weight).sum).sum = (items.map weight).sum := by
  induction items with
  | nil => simp [group]
  | cons i items ih =>
      have hhead : ∀ k, ((group key (i :: items) k).map weight).sum =
          (if k = key i then weight i else 0) + ((group key items k).map weight).sum := by
        intro k
        by_cases hk : key i = k
        · simp [group, hk]
        · simp [group, hk, Ne.symm hk]
      -- The item adds to one group only, that of its key.
      have hone : (ks.map fun k => if k = key i then weight i else 0).sum = weight i := by
        rw [List.sum_map_eq_nsmul_single (key i), if_pos rfl,
          List.count_eq_one_of_mem hks (hcover i List.mem_cons_self), one_nsmul]
        intro k hk _
        exact if_neg hk
      simp only [hhead, List.sum_map_add, hone,
        ih fun j hj => hcover j (List.mem_cons_of_mem _ hj), List.map_cons, List.sum_cons]

end Group

variable [AddCommMonoid M]

/-- The rows sum the items up by key. -/
structure IsRollup (key : ι → κ) (weight : ι → M) (items : List ι) (rows : List (Row κ M)) :
    Prop where
  increasing : rows.Pairwise fun r r' => r.key < r'.key
  keys : ∀ k, k ∈ rows.map Row.key ↔ ∃ i ∈ items, key i = k
  count : ∀ r ∈ rows, r.count = (group key items r.key).length
  total : ∀ r ∈ rows, r.total = ((group key items r.key).map weight).sum

namespace IsRollup

variable {key : ι → κ} {weight : ι → M} {items items' : List ι} {rows : List (Row κ M)}

/-- The keys of the rows do not repeat and cover the items. -/
theorem covers (h : IsRollup key weight items rows) :
    (rows.map Row.key).Nodup ∧ ∀ i ∈ items, key i ∈ rows.map Row.key := by
  refine ⟨List.pairwise_map.mpr (h.increasing.imp fun hlt => ne_of_lt hlt), ?_⟩
  intro i hi
  exact (h.keys (key i)).mpr ⟨i, hi, rfl⟩

/-- **The rows' totals make up the total of the items.** -/
theorem sum_total (h : IsRollup key weight items rows) :
    (rows.map Row.total).sum = (items.map weight).sum := by
  rw [← sum_groups weight h.covers.1 h.covers.2, List.map_map]
  exact congrArg List.sum (List.map_congr_left h.total)

/-- **Every item is counted once.** -/
theorem sum_count (h : IsRollup key weight items rows) :
    (rows.map Row.count).sum = items.length := by
  have hlength : ∀ l : List ι, l.length = (l.map fun _ => 1).sum := by
    intro l
    simp
  rw [hlength items, ← sum_groups (fun _ => 1) h.covers.1 h.covers.2, List.map_map]
  refine congrArg List.sum (List.map_congr_left fun r hr => ?_)
  rw [h.count r hr, hlength]
  rfl

/-- **The order of the items does not matter.** -/
theorem of_perm (h : IsRollup key weight items rows) (hperm : items.Perm items') :
    IsRollup key weight items' rows where
  increasing := h.increasing
  keys k := by
    rw [h.keys k]
    simp only [hperm.mem_iff]
  count r hr := by
    rw [h.count r hr]
    exact (hperm.filter _).length_eq
  total r hr := by
    rw [h.total r hr]
    exact ((hperm.filter _).map weight).sum_eq

/-- **Items may be summed up under another description**: the rows of their images are rows of
the items themselves. -/
theorem map {ι' : Type*} (g : ι' → ι) {items : List ι'}
    (h : IsRollup (fun i => key (g i)) (fun i => weight (g i)) items rows) :
    IsRollup key weight (items.map g) rows := by
  have hgroup : ∀ k, group key (items.map g) k =
      (group (fun i => key (g i)) items k).map g := fun k => by
    rw [group, group, List.filter_map]
    rfl
  refine ⟨h.increasing, fun k => ?_, fun r hr => ?_, fun r hr => ?_⟩
  · rw [h.keys k]
    simp
  · rw [h.count r hr, hgroup, List.length_map]
  · rw [h.total r hr, hgroup, List.map_map]
    rfl

end IsRollup

end Rollup
