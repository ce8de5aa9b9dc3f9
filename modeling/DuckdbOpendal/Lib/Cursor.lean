import Mathlib.Tactic.Common

/-!
# Pull cursors

A cursor hands out rows one call at a time: a call returns a row, reports the end,
or fails.  `Drains` is the reading of a whole cursor, to its end or to the first
failure.

## Main Results

* `Drains.unique` — a cursor has one reading
* `drains_collect` — the reading of a cursor over a list of items
-/

universe u v w

namespace Cursor

variable {σ : Type u} {ρ : Type v} {ε : Type w}

/-- A cursor, by its call for the next row. -/
abbrev Next (σ : Type u) (ρ : Type v) (ε : Type w) := σ → σ × Except ε (Option ρ)

/-- Reading a cursor from a state yields these rows and ends so. -/
inductive Drains (next : Next σ ρ ε) : σ → List ρ → Except ε Unit → Prop where
  | done {s s' : σ} (h : next s = (s', .ok none)) : Drains next s [] (.ok ())
  | error {s s' : σ} {e : ε} (h : next s = (s', .error e)) : Drains next s [] (.error e)
  | row {s s' : σ} {r : ρ} {rs : List ρ} {out : Except ε Unit}
      (h : next s = (s', .ok (some r))) (hrest : Drains next s' rs out) :
      Drains next s (r :: rs) out

/-- **A cursor has one reading.** -/
theorem Drains.unique {next : Next σ ρ ε} {s : σ} {rs rs' : List ρ} {out out' : Except ε Unit}
    (h : Drains next s rs out) (h' : Drains next s rs' out') : rs = rs' ∧ out = out' := by
  induction h generalizing rs' out' with
  | done h =>
      cases h' with
      | done _ => exact ⟨rfl, rfl⟩
      | error h' => exact nomatch h.symm.trans h'
      | row h' _ => exact nomatch h.symm.trans h'
  | error h =>
      cases h' with
      | done h' => exact nomatch h.symm.trans h'
      | error h' =>
          cases h.symm.trans h'
          exact ⟨rfl, rfl⟩
      | row h' _ => exact nomatch h.symm.trans h'
  | row h _ ih =>
      cases h' with
      | done h' => exact nomatch h.symm.trans h'
      | error h' => exact nomatch h.symm.trans h'
      | row h' hrest =>
          cases h.symm.trans h'
          obtain ⟨rfl, rfl⟩ := ih hrest
          exact ⟨rfl, rfl⟩

/-! ## Cursors over a list of items -/

variable {α : Type*}

/-- What visiting the items in turn hands out, and how it ends: an item is passed
over, gives a row, or fails. -/
def collect (visit : α → Except ε (Option ρ)) : List α → List ρ × Except ε Unit
  | [] => ([], .ok ())
  | a :: rest =>
      match visit a with
      | .error e => ([], .error e)
      | .ok none => collect visit rest
      | .ok (some r) => (r :: (collect visit rest).1, (collect visit rest).2)

/-- Without a failing item, the rows of the items that are not passed over. -/
theorem collect_of_ok {visit : α → Except ε (Option ρ)} {row : α → Option ρ} {items : List α}
    (h : ∀ a ∈ items, visit a = .ok (row a)) :
    collect visit items = (items.filterMap row, .ok ()) := by
  induction items with
  | nil => rfl
  | cons a rest ih =>
      have hrest := ih fun b hb => h b (List.mem_cons_of_mem _ hb)
      have ha := h a List.mem_cons_self
      cases hrow : row a with
      | none => simp only [collect, ha, hrow, hrest, List.filterMap_cons_none hrow]
      | some r => simp only [collect, ha, hrow, hrest, List.filterMap_cons_some hrow]

/-- A reading that ends well has met no failing item. -/
theorem ok_of_collect {visit : α → Except ε (Option ρ)} {items : List α}
    (h : (collect visit items).2 = .ok ()) {a : α} (ha : a ∈ items) : ∃ r, visit a = .ok r := by
  induction items with
  | nil => cases ha
  | cons b rest ih =>
      rw [collect] at h
      cases hvisit : visit b with
      | error e =>
          rw [hvisit] at h
          cases h
      | ok row =>
          have hrest : (collect visit rest).2 = .ok () := by
            cases row with
            | none => simpa only [hvisit] using h
            | some r => simpa only [hvisit] using h
          rcases List.mem_cons.mp ha with rfl | ha
          · exact ⟨row, hvisit⟩
          · exact ih hrest ha

/-- **The reading of a cursor over a list of items**: the next row comes from the
first item that is not passed over.  `holds` relates a state to the items it has left. -/
theorem drains_collect {next : Next σ ρ ε} (holds : σ → List α → Prop)
    {visit : α → Except ε (Option ρ)}
    (hnil : ∀ s, holds s [] → ∃ s', next s = (s', .ok none))
    (hcons : ∀ s a rest, holds s (a :: rest) → ∃ s', holds s' rest ∧
      next s = match visit a with
        | .error e => (s', .error e)
        | .ok none => next s'
        | .ok (some r) => (s', .ok (some r)))
    {s : σ} {items : List α} (hs : holds s items) :
    Drains next s (collect visit items).1 (collect visit items).2 := by
  induction items generalizing s with
  | nil =>
      obtain ⟨s', h⟩ := hnil s hs
      exact .done h
  | cons a rest ih =>
      obtain ⟨s', hs', hnext⟩ := hcons s a rest hs
      cases hvisit : visit a with
      | error e =>
          simp only [hvisit] at hnext
          simp only [collect, hvisit]
          exact .error hnext
      | ok row =>
          cases row with
          | none =>
              simp only [hvisit] at hnext
              simp only [collect, hvisit]
              have hrest := ih hs'
              generalize collect visit rest = read at hrest
              obtain ⟨rows, out⟩ := read
              cases hrest with
              | done h => exact .done (hnext.trans h)
              | error h => exact .error (hnext.trans h)
              | row h hrest => exact .row (hnext.trans h) hrest
          | some r =>
              simp only [hvisit] at hnext
              simp only [collect, hvisit]
              exact .row hnext (ih hs')

end Cursor
