import DuckdbOpendal.Lib.SortedMap

/-!
# Loading a record from a list of entries

A record is filled entry by entry: each key sets one field to what its value parses to, or
the entry is refused.  The record that comes out holds in each field the last value given
for its key, and comes out at all when every entry is admitted.

## Main Results

* `exists_load_iff` — when a list of entries loads
* `load_eq`, `load_entries_eq` — the record it loads
-/

namespace RecordLoader

open SortedMap

universe u

variable {κ : Type u} {ν ρ ε : Type} (set : ρ → κ → ν → Except ε ρ)

/-- Set the fields of a record, one entry after the other. -/
def load : ρ → List (κ × ν) → Except ε ρ
  | r, [] => .ok r
  | r, (k, v) :: entries =>
      match set r k v with
      | .error e => .error e
      | .ok r => load r entries

/-- **When a list of entries loads**: when each entry is admitted, in whatever record. -/
theorem exists_load_iff {Admits : κ → ν → Prop}
    (hset : ∀ r k v, (∃ r', set r k v = .ok r') ↔ Admits k v) {r : ρ} {entries : List (κ × ν)} :
    (∃ r', load set r entries = .ok r') ↔ ∀ e ∈ entries, Admits e.1 e.2 := by
  induction entries generalizing r with
  | nil => exact iff_of_true ⟨r, rfl⟩ (by simp)
  | cons e entries ih =>
      rw [List.forall_mem_cons, ← hset r e.1 e.2]
      simp only [load]
      cases set r e.1 e.2 with
      | error e => simp
      | ok r' => exact ih.trans (and_iff_right ⟨r', rfl⟩).symm

/-- **The record a list of entries loads**: `record` fills its fields from the values given
for the keys, and setting a field is giving a value. -/
theorem load_eq [LinearOrder κ] {record : (κ → Option ν) → ρ}
    (hset : ∀ given given' k v r, set (record given) k v = .ok r → given' k = some v →
      (∀ k', k' ≠ k → given' k' = given k') → r = record given')
    {given : κ → Option ν} {entries : List (κ × ν)} {r : ρ}
    (h : load set (record given) entries = .ok r) :
    r = record fun k => (lastValue k entries).or (given k) := by
  induction entries generalizing given with
  | nil =>
      cases h
      rfl
  | cons e entries ih =>
      obtain ⟨k, v⟩ := e
      rw [load] at h
      cases hstep : set (record given) k v with
      | error e =>
          rw [hstep] at h
          cases h
      | ok r' =>
          simp only [hstep] at h
          have hrecord := hset given (fun k' => (if k' = k then some v else none).or (given k')) k v
            r' hstep (by simp) fun k' hk' => by simp [hk']
          rw [hrecord] at h
          rw [ih h]
          simp only [lastValue, Option.or_assoc]

/-- The record a map loads into an empty one. -/
theorem load_entries_eq [LinearOrder κ] {record : (κ → Option ν) → ρ}
    (hset : ∀ given given' k v r, set (record given) k v = .ok r → given' k = some v →
      (∀ k', k' ≠ k → given' k' = given k') → r = record given')
    {m : SortedMap κ ν} {r : ρ} (h : load set (record fun _ => none) m.entries = .ok r) :
    r = record m.find? := by
  rw [load_eq set hset h]
  congr 1
  funext k
  rw [lastValue_entries, Option.or_none]

end RecordLoader
