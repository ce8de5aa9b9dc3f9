import Mathlib.Data.List.Basic
import Mathlib.Data.List.Nodup
import Mathlib.Order.Lattice
import Mathlib.Tactic.Common

/-!
# Sorted association maps

Finite maps kept as association lists in strictly increasing key order, the
extensional content of `std::map` and `BTreeMap`.  The order is a field of the
structure, so a map has exactly one representation: equal maps have equal entry
lists, and iterating over one visits its keys in order, each once.

## Main Results

* `SortedMap.find?_insert` — the read-over-write law
* `SortedMap.find?_eq_some_iff` — lookup and iteration see the same entries
* `SortedMap.ext_find?` — maps that answer every lookup alike are equal
* `SortedMap.find?_insertAll` — one map after a list of insertions
-/

universe u v

/-- A finite map from `κ` to `ν`, as its entries in strictly increasing key
order. -/
@[ext] structure SortedMap (κ : Type u) (ν : Type v) [LinearOrder κ] where
  entries : List (κ × ν)
  sorted : entries.Pairwise fun a b => a.1 < b.1

namespace SortedMap

variable {κ : Type u} {ν : Type v} [LinearOrder κ]

instance [DecidableEq ν] : DecidableEq (SortedMap κ ν) := fun m₁ m₂ =>
  decidable_of_iff (m₁.entries = m₂.entries) (SortedMap.ext_iff).symm

/-- The map without entries. -/
def empty : SortedMap κ ν := ⟨[], List.Pairwise.nil⟩

instance : EmptyCollection (SortedMap κ ν) := ⟨empty⟩

instance : Inhabited (SortedMap κ ν) := ⟨empty⟩

@[simp] theorem entries_empty : (∅ : SortedMap κ ν).entries = [] := rfl

/-- Put one entry into an ordered entry list, replacing the entry of its key. -/
def insertEntry (k : κ) (v : ν) : List (κ × ν) → List (κ × ν)
  | [] => [(k, v)]
  | e :: es =>
      if k < e.1 then (k, v) :: e :: es
      else if k = e.1 then (k, v) :: es
      else e :: insertEntry k v es

theorem mem_insertEntry_fst {k : κ} {v : ν} {es : List (κ × ν)} {e : κ × ν}
    (h : e ∈ insertEntry k v es) : e.1 = k ∨ e ∈ es := by
  induction es with
  | nil => simp_all [insertEntry]
  | cons e' es ih =>
      simp only [insertEntry] at h
      split at h
      · rcases List.mem_cons.mp h with rfl | h
        · exact Or.inl rfl
        · exact Or.inr h
      · split at h
        · rcases List.mem_cons.mp h with rfl | h
          · exact Or.inl rfl
          · exact Or.inr (List.mem_cons_of_mem _ h)
        · rcases List.mem_cons.mp h with rfl | h
          · exact Or.inr List.mem_cons_self
          · exact (ih h).imp_right (List.mem_cons_of_mem _)

/-- Insertion keeps the entries in strictly increasing key order. -/
theorem sorted_insertEntry (k : κ) (v : ν) {es : List (κ × ν)}
    (h : es.Pairwise fun a b => a.1 < b.1) :
    (insertEntry k v es).Pairwise fun a b => a.1 < b.1 := by
  induction es with
  | nil => simp [insertEntry]
  | cons e es ih =>
      obtain ⟨hhead, htail⟩ := List.pairwise_cons.mp h
      simp only [insertEntry]
      split
      · rename_i hlt
        refine List.pairwise_cons.mpr ⟨fun e' he' => ?_, h⟩
        rcases List.mem_cons.mp he' with rfl | he'
        · exact hlt
        · exact lt_trans hlt (hhead e' he')
      · split
        · rename_i _ heq
          exact List.pairwise_cons.mpr ⟨fun e' he' => heq ▸ hhead e' he', htail⟩
        · rename_i hnlt hne
          refine List.pairwise_cons.mpr ⟨fun e' he' => ?_, ih htail⟩
          rcases mem_insertEntry_fst he' with hk | he'
          · exact hk ▸ lt_of_le_of_ne (not_lt.mp hnlt) (Ne.symm hne)
          · exact hhead e' he'

/-- `m[k] = v`: set the value of one key. -/
def insert (m : SortedMap κ ν) (k : κ) (v : ν) : SortedMap κ ν :=
  ⟨insertEntry k v m.entries, sorted_insertEntry k v m.sorted⟩

/-- The value of a key in an entry list. -/
def findEntry (k : κ) (es : List (κ × ν)) : Option ν :=
  (es.find? fun e => e.1 = k).map Prod.snd

/-- The value of a key. -/
def find? (m : SortedMap κ ν) (k : κ) : Option ν := findEntry k m.entries

@[simp] theorem find?_empty (k : κ) : (∅ : SortedMap κ ν).find? k = none := rfl

theorem findEntry_insertEntry (k k' : κ) (v : ν) (es : List (κ × ν)) :
    findEntry k' (insertEntry k v es) =
      if k' = k then some v else findEntry k' es := by
  induction es with
  | nil =>
      by_cases h : k' = k
      · simp [insertEntry, findEntry, h]
      · simp [insertEntry, findEntry, h, Ne.symm h]
  | cons e es ih =>
      simp only [insertEntry]
      split
      · by_cases h : k' = k
        · simp [findEntry, h]
        · simp [findEntry, h, List.find?_cons, Ne.symm h]
      · split
        · rename_i _ heq
          by_cases h : k' = k
          · simp [findEntry, h]
          · have h' : ¬ e.1 = k' := fun he => h (heq ▸ he.symm)
            simp [findEntry, h, Ne.symm h, h']
        · rename_i _ hne
          by_cases he : e.1 = k'
          · have h : ¬ k' = k := fun hk => hne (hk ▸ he.symm)
            simp [findEntry, he, h]
          · have hcons : ∀ es' : List (κ × ν),
                findEntry k' (e :: es') = findEntry k' es' := by
              intro es'
              simp [findEntry, he]
            rw [hcons, hcons, ih]

/-- **Read over write.** -/
@[simp] theorem find?_insert (m : SortedMap κ ν) (k k' : κ) (v : ν) :
    (m.insert k v).find? k' = if k' = k then some v else m.find? k' :=
  findEntry_insertEntry k k' v m.entries

/-- Lookup and iteration see the same entries. -/
theorem find?_eq_some_iff {m : SortedMap κ ν} {k : κ} {v : ν} :
    m.find? k = some v ↔ (k, v) ∈ m.entries := by
  obtain ⟨es, hes⟩ := m
  simp only [find?]
  induction es with
  | nil => simp [findEntry]
  | cons e es ih =>
      obtain ⟨hhead, htail⟩ := List.pairwise_cons.mp hes
      by_cases he : e.1 = k
      · have hnot : (k, v) ∉ es := by
          intro hmem
          have hlt := hhead (k, v) hmem
          exact absurd hlt (he ▸ lt_irrefl e.1)
        simp only [findEntry, List.find?_cons, he, decide_true,
          Option.map_some, Option.some.injEq, List.mem_cons, hnot, or_false]
        exact ⟨fun hv => Prod.ext he.symm hv.symm,
          fun hkv => (congrArg Prod.snd hkv).symm⟩
      · have hne : (k, v) ≠ e := fun hkv => he (congrArg Prod.fst hkv).symm
        simp only [List.mem_cons, hne, false_or]
        rw [← ih htail]
        simp [findEntry, he]

/-- Strictly ordered entry lists with the same members are equal. -/
theorem entries_eq_of_mem_iff {es₁ es₂ : List (κ × ν)}
    (h₁ : es₁.Pairwise fun a b => a.1 < b.1)
    (h₂ : es₂.Pairwise fun a b => a.1 < b.1)
    (hmem : ∀ e, e ∈ es₁ ↔ e ∈ es₂) : es₁ = es₂ := by
  have hperm : es₁.Perm es₂ := by
    refine (List.perm_ext_iff_of_nodup ?_ ?_).mpr hmem
    · exact h₁.imp fun hlt heq => (ne_of_lt hlt) (congrArg Prod.fst heq)
    · exact h₂.imp fun hlt heq => (ne_of_lt hlt) (congrArg Prod.fst heq)
  exact hperm.eq_of_pairwise (fun a b _ _ hab hba => absurd hab (lt_asymm hba))
    h₁ h₂

/-- **Extensionality**: maps that answer every lookup alike are equal. -/
theorem ext_find? {m₁ m₂ : SortedMap κ ν} (h : ∀ k, m₁.find? k = m₂.find? k) :
    m₁ = m₂ := by
  refine SortedMap.ext (entries_eq_of_mem_iff m₁.sorted m₂.sorted ?_)
  rintro ⟨k, v⟩
  rw [← find?_eq_some_iff, ← find?_eq_some_iff, h k]

/-! ## Inserting a list -/

/-- Set the values of several keys, one after the other. -/
def insertAll (m : SortedMap κ ν) (es : List (κ × ν)) : SortedMap κ ν :=
  es.foldl (fun m e => m.insert e.1 e.2) m

@[simp] theorem insertAll_nil (m : SortedMap κ ν) : m.insertAll [] = m := rfl

@[simp] theorem insertAll_cons (m : SortedMap κ ν) (e : κ × ν) (es : List (κ × ν)) :
    m.insertAll (e :: es) = (m.insert e.1 e.2).insertAll es := rfl

/-- No key has two values. -/
def Functional (es : List (κ × ν)) : Prop := ∀ k v v', (k, v) ∈ es → (k, v') ∈ es → v = v'

omit [LinearOrder κ] in
theorem functional_of_nodup {es : List (κ × ν)} (h : (es.map Prod.fst).Nodup) :
    Functional es := by
  intro k v v' hv hv'
  exact congrArg Prod.snd (List.inj_on_of_nodup_map h hv hv' rfl)

theorem functional_entries (m : SortedMap κ ν) : Functional m.entries := by
  intro k v v' hv hv'
  rw [← find?_eq_some_iff] at hv hv'
  exact Option.some.inj (hv.symm.trans hv')

/-- **A map after a list of insertions**: the list decides the keys it names. -/
theorem find?_insertAll {es : List (κ × ν)} (hes : Functional es) (m : SortedMap κ ν) {k : κ}
    {v : ν} :
    (m.insertAll es).find? k = some v ↔
      (k, v) ∈ es ∨ (∀ v', (k, v') ∉ es) ∧ m.find? k = some v := by
  induction es generalizing m with
  | nil => simp
  | cons e es ih =>
      have hes' : Functional es := fun k v v' hv hv' =>
        hes k v v' (List.mem_cons_of_mem _ hv) (List.mem_cons_of_mem _ hv')
      obtain ⟨k₁, v₁⟩ := e
      rw [insertAll_cons, ih hes', find?_insert]
      by_cases hk : k = k₁
      · subst hk
        have hv₁ : ∀ {v'}, (k, v') ∈ es → v' = v₁ := fun h =>
          hes k _ _ (List.mem_cons_of_mem _ h) List.mem_cons_self
        rw [if_pos rfl]
        constructor
        · rintro (h | ⟨-, h⟩)
          · exact Or.inl (List.mem_cons_of_mem _ h)
          · cases h
            exact Or.inl List.mem_cons_self
        · rintro (h | ⟨h, -⟩)
          · rcases List.mem_cons.mp h with h | h
            · cases h
              by_cases hmem : (k, v) ∈ es
              · exact Or.inl hmem
              · exact Or.inr ⟨fun v' h => hmem (hv₁ h ▸ h), rfl⟩
            · exact Or.inl h
          · exact absurd List.mem_cons_self (h v₁)
      · have hne : ∀ v', ((k, v') = (k₁, v₁)) = False := fun v' =>
          eq_false fun h => hk (congrArg Prod.fst h)
        simp only [if_neg hk, List.mem_cons, hne, false_or]

/-- A map built from distinct keys holds their entries. -/
theorem entries_insertAll_perm {es : List (κ × ν)} (h : (es.map Prod.fst).Nodup) :
    ((∅ : SortedMap κ ν).insertAll es).entries.Perm es := by
  refine (List.perm_ext_iff_of_nodup ?_ (h.of_map _)).mpr ?_
  · exact ((∅ : SortedMap κ ν).insertAll es).sorted.imp fun hlt heq =>
      (ne_of_lt hlt) (congrArg Prod.fst heq)
  · rintro ⟨k, v⟩
    rw [← find?_eq_some_iff, find?_insertAll (functional_of_nodup h)]
    simp

/-- Insertions bring in nothing but their own entries. -/
theorem mem_or_of_find?_insertAll {es : List (κ × ν)} {m : SortedMap κ ν} {k : κ} {v : ν}
    (h : (m.insertAll es).find? k = some v) : (k, v) ∈ es ∨ m.find? k = some v := by
  induction es generalizing m with
  | nil => exact Or.inr h
  | cons e es ih =>
      rcases ih h with hmem | hfind
      · exact Or.inl (List.mem_cons_of_mem _ hmem)
      · rw [find?_insert] at hfind
        split at hfind
        · rename_i hk
          cases hfind
          exact Or.inl (hk ▸ List.mem_cons_self)
        · exact Or.inr hfind

/-- The last value listed for a key. -/
def lastValue (k : κ) : List (κ × ν) → Option ν
  | [] => none
  | (k', v) :: es => (lastValue k es).or (if k = k' then some v else none)

theorem mem_of_lastValue {k : κ} {es : List (κ × ν)} {v : ν} (h : lastValue k es = some v) :
    (k, v) ∈ es := by
  induction es with
  | nil => cases h
  | cons e es ih =>
      rw [lastValue] at h
      rcases Option.or_eq_some_iff.mp h with h | ⟨-, h⟩
      · exact List.mem_cons_of_mem _ (ih h)
      · split at h
        · rename_i hk
          cases h
          exact hk ▸ List.mem_cons_self
        · cases h

/-- A key has a last value if it is listed. -/
theorem isSome_lastValue_iff {k : κ} {es : List (κ × ν)} :
    (lastValue k es).isSome = true ↔ ∃ e ∈ es, e.1 = k := by
  induction es with
  | nil => simp [lastValue]
  | cons e es ih =>
      rw [lastValue, Option.isSome_or, Bool.or_eq_true, ih, List.exists_mem_cons_iff, or_comm]
      refine or_congr_left ?_
      split
      · rename_i hk
        exact iff_of_true rfl hk.symm
      · rename_i hk
        exact iff_of_false (by simp) (Ne.symm hk)

/-- Among entries of distinct keys every value is the last. -/
theorem lastValue_eq_some_iff {k : κ} {es : List (κ × ν)} (hes : Functional es) {v : ν} :
    lastValue k es = some v ↔ (k, v) ∈ es := by
  refine ⟨mem_of_lastValue, fun h => ?_⟩
  obtain ⟨v', hv'⟩ := Option.isSome_iff_exists.mp (isSome_lastValue_iff.mpr ⟨_, h, rfl⟩)
  rw [hv', hes k v' v (mem_of_lastValue hv') h]

/-- The entries of the key alone decide its last value. -/
theorem lastValue_filter (k : κ) (es : List (κ × ν)) :
    lastValue k (es.filter fun e => e.1 = k) = lastValue k es := by
  induction es with
  | nil => rfl
  | cons e es ih =>
      by_cases hk : e.1 = k
      · rw [List.filter_cons_of_pos (by simpa using hk), lastValue, lastValue, ih]
      · rw [List.filter_cons_of_neg (by simpa using hk), ih, lastValue, if_neg (Ne.symm hk),
          Option.or_none]

/-- The same entries for each key, in their order; the keys may come in any order. -/
def Rearranged (es es' : List (κ × ν)) : Prop :=
  ∀ k, es'.filter (fun e => e.1 = k) = es.filter fun e => e.1 = k

theorem Rearranged.lastValue_eq {es es' : List (κ × ν)} (h : Rearranged es es') (k : κ) :
    lastValue k es' = lastValue k es := by
  rw [← lastValue_filter, h, lastValue_filter]

theorem Rearranged.mem_iff {es es' : List (κ × ν)} (h : Rearranged es es') {e : κ × ν} :
    e ∈ es' ↔ e ∈ es := by
  have hfilter : e ∈ es'.filter (fun e' => e'.1 = e.1) ↔ e ∈ es.filter fun e' => e'.1 = e.1 := by
    rw [h]
  simpa using hfilter

/-- Entries of distinct keys may be permuted. -/
theorem rearranged_of_perm {es es' : List (κ × ν)} (hes : (es.map Prod.fst).Nodup)
    (h : es'.Perm es) : Rearranged es es' := by
  intro k
  have hperm := h.filter fun e => e.1 = k
  cases hfilter : es.filter fun e => e.1 = k with
  | nil =>
      rw [hfilter] at hperm
      exact hperm.eq_nil
  | cons e rest =>
      have hnodup : ((e :: rest).map Prod.fst).Nodup :=
        hfilter ▸ hes.sublist (List.filter_sublist.map _)
      have hkey : ∀ e' ∈ e :: rest, e'.1 = k := fun e' he' => by
        rw [← hfilter] at he'
        simpa using (List.mem_filter.mp he').2
      obtain rfl : rest = [] := List.eq_nil_iff_forall_not_mem.mpr fun e' he' =>
        (List.nodup_cons.mp hnodup).1 (List.mem_map.mpr ⟨e', he',
          (hkey e' (List.mem_cons_of_mem _ he')).trans (hkey e List.mem_cons_self).symm⟩)
      rw [hfilter] at hperm
      exact hperm.eq_singleton

theorem lastValue_entries (m : SortedMap κ ν) (k : κ) : lastValue k m.entries = m.find? k := by
  ext v
  rw [lastValue_eq_some_iff m.functional_entries, find?_eq_some_iff]

/-- **A map after a list of insertions**, with repeated keys: the last value counts. -/
theorem find?_insertAll_eq (m : SortedMap κ ν) (es : List (κ × ν)) (k : κ) :
    (m.insertAll es).find? k = (lastValue k es).or (m.find? k) := by
  induction es generalizing m with
  | nil => rfl
  | cons e es ih =>
      rw [insertAll_cons, ih, find?_insert, lastValue, Option.or_assoc]
      congr 1
      split
      · rfl
      · rfl

/-- One map's entries over another's. -/
def override (m m' : SortedMap κ ν) : SortedMap κ ν := m.insertAll m'.entries

/-- Overriding decides key by key. -/
theorem find?_override (m m' : SortedMap κ ν) (k : κ) :
    (m.override m').find? k = (m'.find? k).or (m.find? k) := by
  ext v
  rw [override, find?_insertAll (functional_entries m'), ← find?_eq_some_iff]
  cases hk : m'.find? k with
  | none =>
      have hnone : ∀ v', (k, v') ∉ m'.entries := by
        intro v' h
        rw [← find?_eq_some_iff, hk] at h
        cases h
      simp [hnone]
  | some v' =>
      have hsome : ¬ ∀ v', (k, v') ∉ m'.entries := fun h => h v' (find?_eq_some_iff.mp hk)
      simp [hsome]

end SortedMap
