import Mathlib.Computability.Language
import DuckdbOpendal.Lib.Text

/-!
# Languages of path patterns

A path pattern is a sequence of tokens over an alphabet with one distinguished
separator.  A token is a literal symbol, one symbol of a class, any text without a
separator, or any text at all; the class token never denotes the separator.  The
language of a pattern is the product of the languages of its tokens.

## Main Results

* `mem_language_star_cons`, `mem_language_globstar_cons` — one step of a matcher
* `mem_language_lits_append` — a literal prefix matches literally
* `separator_notMem` — without a separator and a globstar, nothing matched contains
  a separator
* `exists_mem_language_iff` — which patterns match anything
* `matchesFromComponent_iff` — which patterns match from the start of a component on
-/

universe u

namespace PathPattern

variable {α : Type u}

/-- A token of a path pattern. -/
inductive Token (α : Type u) where
  /-- Exactly this symbol. -/
  | lit (a : α)
  /-- One symbol of the class that is not the separator. -/
  | one (cls : α → Bool)
  /-- Any text without a separator. -/
  | star
  /-- Any text. -/
  | globstar
  /-- Nothing. -/
  | fail

/-- The language of a token. -/
def Token.language (sep : α) : Token α → Language α
  | lit a => {[a]}
  | one cls => {x | ∃ a, x = [a] ∧ a ≠ sep ∧ cls a = true}
  | star => {x | sep ∉ x}
  | globstar => Set.univ
  | fail => 0

/-- The language of a pattern. -/
def language (sep : α) : List (Token α) → Language α
  | [] => 1
  | t :: ts => t.language sep * language sep ts

variable {sep : α} {ts : List (Token α)} {x : List α}

theorem mem_language_nil : x ∈ language sep ([] : List (Token α)) ↔ x = [] :=
  Language.mem_one x

theorem mem_language_cons {t : Token α} :
    x ∈ language sep (t :: ts) ↔
      ∃ y ∈ t.language sep, ∃ z ∈ language sep ts, y ++ z = x :=
  Language.mem_mul

/-- A literal consumes its symbol. -/
theorem mem_language_lit_cons {a : α} :
    x ∈ language sep (.lit a :: ts) ↔ ∃ z, x = a :: z ∧ z ∈ language sep ts := by
  rw [mem_language_cons]
  constructor
  · rintro ⟨y, rfl, z, hz, rfl⟩
    exact ⟨z, rfl, hz⟩
  · rintro ⟨z, rfl, hz⟩
    exact ⟨[a], rfl, z, hz, rfl⟩

/-- A class consumes one symbol of the class. -/
theorem mem_language_one_cons {cls : α → Bool} :
    x ∈ language sep (.one cls :: ts) ↔
      ∃ a z, x = a :: z ∧ a ≠ sep ∧ cls a = true ∧ z ∈ language sep ts := by
  rw [mem_language_cons]
  constructor
  · rintro ⟨y, ⟨a, rfl, hsep, hcls⟩, z, hz, rfl⟩
    exact ⟨a, z, rfl, hsep, hcls, hz⟩
  · rintro ⟨a, z, rfl, hsep, hcls, hz⟩
    exact ⟨[a], ⟨a, rfl, hsep, hcls⟩, z, hz, rfl⟩

/-- A star consumes nothing, or one more symbol that is not the separator. -/
theorem mem_language_star_cons :
    x ∈ language sep (.star :: ts) ↔
      x ∈ language sep ts ∨ ∃ a z, x = a :: z ∧ a ≠ sep ∧ z ∈ language sep (.star :: ts) := by
  constructor
  · intro h
    obtain ⟨y, hy, z, hz, rfl⟩ := mem_language_cons.mp h
    cases y with
    | nil => exact Or.inl hz
    | cons a y =>
        obtain ⟨hne, hrest⟩ := not_or.mp fun h => hy (List.mem_cons.mpr h)
        exact Or.inr ⟨a, y ++ z, rfl, Ne.symm hne,
          mem_language_cons.mpr ⟨y, hrest, z, hz, rfl⟩⟩
  · rintro (h | ⟨a, z, rfl, hne, h⟩)
    · exact mem_language_cons.mpr ⟨[], List.not_mem_nil, x, h, rfl⟩
    · obtain ⟨y, hy, z', hz', rfl⟩ := mem_language_cons.mp h
      exact mem_language_cons.mpr
        ⟨a :: y, fun h => (List.mem_cons.mp h).elim (Ne.symm hne) hy, z', hz', rfl⟩

/-- A globstar consumes nothing, or one more symbol. -/
theorem mem_language_globstar_cons :
    x ∈ language sep (.globstar :: ts) ↔
      x ∈ language sep ts ∨ ∃ a z, x = a :: z ∧ z ∈ language sep (.globstar :: ts) := by
  constructor
  · intro h
    obtain ⟨y, -, z, hz, rfl⟩ := mem_language_cons.mp h
    cases y with
    | nil => exact Or.inl hz
    | cons a y => exact Or.inr ⟨a, y ++ z, rfl, mem_language_cons.mpr ⟨y, trivial, z, hz, rfl⟩⟩
  · rintro (h | ⟨a, z, rfl, h⟩)
    · exact mem_language_cons.mpr ⟨[], trivial, x, h, rfl⟩
    · obtain ⟨y, -, z', hz', rfl⟩ := mem_language_cons.mp h
      exact mem_language_cons.mpr ⟨a :: y, trivial, z', hz', rfl⟩

/-- A globstar also absorbs a literal that follows it. -/
theorem mem_language_globstar_of_lit {a : α}
    (h : x ∈ language sep (.globstar :: .lit a :: ts)) : x ∈ language sep (.globstar :: ts) := by
  obtain ⟨y, -, z, hz, rfl⟩ := mem_language_cons.mp h
  obtain ⟨z', rfl, hz'⟩ := mem_language_lit_cons.mp hz
  exact mem_language_cons.mpr ⟨y ++ [a], trivial, z', hz', by simp⟩

theorem notMem_language_fail_cons : x ∉ language sep (.fail :: ts) := by
  intro h
  obtain ⟨y, hy, -⟩ := mem_language_cons.mp h
  exact hy

/-- **A literal prefix matches literally.** -/
theorem mem_language_lits_append {lits : List α} :
    x ∈ language sep (lits.map .lit ++ ts) ↔ ∃ z, x = lits ++ z ∧ z ∈ language sep ts := by
  induction lits generalizing x with
  | nil => simp
  | cons a lits ih =>
      rw [List.map_cons, List.cons_append, mem_language_lit_cons]
      constructor
      · rintro ⟨z, rfl, hz⟩
        obtain ⟨z', rfl, hz'⟩ := ih.mp hz
        exact ⟨z', rfl, hz'⟩
      · rintro ⟨z, rfl, hz⟩
        exact ⟨lits ++ z, rfl, ih.mpr ⟨z, rfl, hz⟩⟩

/-- The token can consume a separator. -/
def Token.Crosses (sep : α) : Token α → Prop
  | lit a => a = sep
  | globstar => True
  | _ => False

/-- **No crossing token, no separator.** -/
theorem separator_notMem (hts : ∀ t ∈ ts, ¬ t.Crosses sep) (hx : x ∈ language sep ts) :
    sep ∉ x := by
  induction ts generalizing x with
  | nil =>
      rw [mem_language_nil.mp hx]
      exact List.not_mem_nil
  | cons t ts ih =>
      obtain ⟨y, hy, z, hz, rfl⟩ := mem_language_cons.mp hx
      have hhead := hts t List.mem_cons_self
      have hz := ih (fun t ht => hts t (List.mem_cons_of_mem _ ht)) hz
      have hy : sep ∉ y := by
        cases t with
        | lit a =>
            obtain rfl := hy
            exact fun h => hhead (List.mem_singleton.mp h).symm
        | one cls =>
            obtain ⟨a, rfl, hne, -⟩ := hy
            exact fun h => hne (List.mem_singleton.mp h).symm
        | star => exact hy
        | globstar => exact absurd trivial hhead
        | fail => exact hy.elim
      exact fun h => (List.mem_append.mp h).elim hy hz

/-! ## Extending the first component -/

/-- The token denotes nothing. -/
def Token.Void (sep : α) : Token α → Prop
  | one cls => ∀ a, a ≠ sep → cls a = false
  | fail => True
  | _ => False

/-- A pattern matches something if and only if each of its tokens denotes something. -/
theorem exists_mem_language_iff :
    (∃ x, x ∈ language sep ts) ↔ ∀ t ∈ ts, ¬ t.Void sep := by
  induction ts with
  | nil => simp [mem_language_nil]
  | cons t ts ih =>
      have htoken : (∃ y, y ∈ t.language sep) ↔ ¬ t.Void sep := by
        cases t with
        | lit a => exact iff_of_true ⟨[a], rfl⟩ id
        | one cls =>
            simp only [Token.Void, not_forall, Bool.not_eq_false]
            constructor
            · rintro ⟨_, a, -, hne, hcls⟩
              exact ⟨a, hne, hcls⟩
            · rintro ⟨a, hne, hcls⟩
              exact ⟨[a], a, rfl, hne, hcls⟩
        | star => exact iff_of_true ⟨[], List.not_mem_nil⟩ id
        | globstar => exact iff_of_true ⟨[], trivial⟩ id
        | fail => exact iff_of_false (fun ⟨_, hy⟩ => hy) fun h => h trivial
      rw [List.forall_mem_cons, ← htoken, ← ih]
      constructor
      · rintro ⟨_, h⟩
        obtain ⟨y, hy, z, hz, rfl⟩ := mem_language_cons.mp h
        exact ⟨⟨y, hy⟩, z, hz⟩
      · rintro ⟨⟨y, hy⟩, z, hz⟩
        exact ⟨y ++ z, mem_language_cons.mpr ⟨y, hy, z, hz, rfl⟩⟩

/-- A language with a word has a shortest one. -/
theorem exists_shortest {L : Language α} (h : ∃ x, x ∈ L) :
    ∃ x ∈ L, ∀ y ∈ L, x.length ≤ y.length := by
  obtain ⟨x, hx, hmin⟩ := WellFounded.has_min (measure List.length).wf L h
  exact ⟨x, hx, fun y hy => Nat.not_lt.mp (hmin y hy)⟩

/-- A pattern that begins, behind classes of every symbol, with a star or a globstar. -/
def StartsFree (sep : α) : List (Token α) → Prop
  | .one cls :: ts => (∀ a, a ≠ sep → cls a = true) ∧ StartsFree sep ts
  | .star :: _ | .globstar :: _ => True
  | _ => False

/-- What such a pattern matches can be extended on the left within its first component. -/
theorem cons_mem_language (hts : StartsFree sep ts) {a : α} (ha : a ≠ sep)
    (hx : x ∈ language sep ts) : a :: x ∈ language sep ts := by
  induction ts generalizing a x with
  | nil => exact hts.elim
  | cons t ts ih =>
      cases t with
      | lit a => exact hts.elim
      | one cls =>
          -- The class takes the new symbol, and its old one extends the rest.
          obtain ⟨hfull, hts⟩ := hts
          obtain ⟨b, z, rfl, hb, -, hz⟩ := mem_language_one_cons.mp hx
          exact mem_language_one_cons.mpr ⟨a, b :: z, rfl, ha, hfull a ha, ih hts hb hz⟩
      | star => exact mem_language_star_cons.mpr (Or.inr ⟨a, x, rfl, ha, hx⟩)
      | globstar => exact mem_language_globstar_cons.mpr (Or.inr ⟨a, x, rfl, hx⟩)
      | fail => exact hts.elim

theorem append_mem_language (hts : StartsFree sep ts) {u : List α} (hu : sep ∉ u)
    (hx : x ∈ language sep ts) : u ++ x ∈ language sep ts := by
  induction u with
  | nil => exact hx
  | cons a u ih =>
      obtain ⟨hne, hu⟩ := not_or.mp fun h => hu (List.mem_cons.mpr h)
      exact cons_mem_language hts (Ne.symm hne) (ih hu)

/-- Any other pattern excludes some beginning of a first component. -/
theorem exists_append_notMem (halphabet : ∀ c : α, ∃ b, b ≠ c ∧ b ≠ sep)
    (hts : ¬ StartsFree sep ts) : ∃ u, sep ∉ u ∧ ∀ x, u ++ x ∉ language sep ts := by
  induction ts with
  | nil =>
      obtain ⟨b, -, hb⟩ := halphabet sep
      refine ⟨[b], fun h => hb (List.mem_singleton.mp h).symm, fun x hx => ?_⟩
      exact List.cons_ne_nil b x (mem_language_nil.mp hx)
  | cons t ts ih =>
      cases t with
      | lit a =>
          obtain ⟨b, hne, hb⟩ := halphabet a
          refine ⟨[b], fun h => hb (List.mem_singleton.mp h).symm, fun x hx => ?_⟩
          obtain ⟨z, heq, -⟩ := mem_language_lit_cons.mp hx
          exact hne (List.cons.inj heq).1
      | one cls =>
          by_cases hfull : ∀ a, a ≠ sep → cls a = true
          · obtain ⟨b, -, hb⟩ := halphabet sep
            obtain ⟨u, hu, hnot⟩ := ih fun h => hts ⟨hfull, h⟩
            refine ⟨b :: u, fun h => (List.mem_cons.mp h).elim (Ne.symm hb) hu, fun x hx => ?_⟩
            obtain ⟨_, z, heq, -, -, hz⟩ := mem_language_one_cons.mp hx
            rw [← (List.cons.inj heq).2] at hz
            exact hnot x hz
          · obtain ⟨b, hb, hcls⟩ : ∃ b, b ≠ sep ∧ ¬ cls b = true := by simpa using hfull
            refine ⟨[b], fun h => hb (List.mem_singleton.mp h).symm, fun x hx => ?_⟩
            obtain ⟨_, z, heq, -, hadmits, -⟩ := mem_language_one_cons.mp hx
            exact hcls ((List.cons.inj heq).1 ▸ hadmits)
      | star => exact absurd trivial hts
      | globstar => exact absurd trivial hts
      | fail => exact ⟨[], List.not_mem_nil, fun x => notMem_language_fail_cons⟩

/-- **Which patterns match from the start of a component on** whenever they match a suffix:
those that begin freely, and those that match nothing. -/
theorem matchesFromComponent_iff [DecidableEq α] (halphabet : ∀ c : α, ∃ b, b ≠ c ∧ b ≠ sep) :
    (∀ u x, x ∈ language sep ts → ∃ u' x', u ++ x = u' ++ x' ∧
      (u' = [] ∨ u'.getLast? = some sep) ∧ x' ∈ language sep ts) ↔
      StartsFree sep ts ∨ ∃ t ∈ ts, t.Void sep := by
  constructor
  · intro h
    by_contra hnot
    obtain ⟨hfree, hvoid⟩ := not_or.mp hnot
    obtain ⟨u, hu, hexcluded⟩ := exists_append_notMem halphabet hfree
    have hinhabited : ∃ x, x ∈ language sep ts := by
      rw [exists_mem_language_iff]
      exact fun t ht hv => hvoid ⟨t, ht, hv⟩
    -- Behind `u`, a shortest match leaves no room for one that starts a later component.
    obtain ⟨x, hx, hshortest⟩ := exists_shortest hinhabited
    obtain ⟨u', x', heq, hu', hx'⟩ := h u x hx
    rcases hu' with rfl | hlast
    · exact hexcluded x (heq ▸ hx')
    · rcases List.append_eq_append_iff.mp heq with ⟨y, rfl, rfl⟩ | ⟨y, rfl, -⟩
      · cases y with
        | nil =>
            rw [List.append_nil] at hlast
            exact hu (List.mem_of_getLast? hlast)
        | cons a y =>
            have hle := hshortest x' hx'
            simp only [List.length_append, List.length_cons] at hle
            omega
      · exact hu (List.mem_append_left _ (List.mem_of_getLast? hlast))
  · rintro (hfree | ⟨t, ht, hv⟩) u x hx
    · refine ⟨Text.uptoLast sep u, Text.afterLast sep u ++ x, ?_, ?_,
        append_mem_language hfree (Text.notMem_afterLast sep u) hx⟩
      · rw [← List.append_assoc, Text.uptoLast_append_afterLast]
      · rcases Text.uptoLast_eq_nil_or_concat sep u with hnil | ⟨d, hd⟩
        · exact Or.inl hnil
        · exact Or.inr (by rw [hd, List.getLast?_concat])
    · exact absurd hv (exists_mem_language_iff.mp ⟨x, hx⟩ t ht)

end PathPattern
