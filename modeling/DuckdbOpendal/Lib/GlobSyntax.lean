import DuckdbOpendal.Lib.PatternLanguage
import DuckdbOpendal.Lib.Text

/-!
# Glob patterns over an alphabet

The glob syntax, its matcher and its language, for any alphabet in which eight symbols
have been given their meanings.  The matcher is a recursion over the remaining pattern and
the remaining text; its body is a definition of its own, so that one step lemma serves
every way of running it.

## Main Definitions

* `GlobSymbols` — the symbols with a meaning
* `GlobSymbols.step`, `GlobSymbols.isMatch` — the matcher
* `Piece`, `GlobSymbols.pieces` — the pieces a pattern is written with

## Main Results

* `GlobSymbols.step_iff` — the body of the matcher
* `GlobSymbols.isMatch_iff` — the matcher decides the language of the pattern
-/

universe u v

namespace PathPattern

/-- The symbols with a meaning in a glob pattern. -/
structure GlobSymbols (α : Type u) where
  star : α
  question : α
  openBracket : α
  closeBracket : α
  bang : α
  caret : α
  dash : α
  separator : α
  separator_plain : separator ≠ star ∧ separator ≠ question ∧ separator ≠ openBracket

/-- The pieces of a glob pattern.  A class without its closing bracket is `fail`. -/
inductive Piece (α : Type u) where
  | lit (a : α)
  | question
  | cls (text : List α)
  | star
  | globstar
  | fail
  deriving DecidableEq, Repr

namespace GlobSymbols

variable {α : Type u} [DecidableEq α] (s : GlobSymbols α)

/-! ## The pieces of a pattern -/

/-- The pieces of a pattern.  A separator after `**` is absorbed, and nothing is read
behind a class without its closing bracket. -/
def pieces : List α → List (Piece α)
  | [] => []
  | c :: pattern =>
      if c = s.star ∧ pattern.head? = some s.star then
        .globstar ::
          pieces
            (if pattern.tail.head? = some s.separator then pattern.tail.tail else pattern.tail)
      else if c = s.star then .star :: pieces pattern
      else if c = s.question then .question :: pieces pattern
      else if c = s.openBracket then
        match _ : Text.splitOnce [s.closeBracket] pattern with
        | none => [.fail]
        | some (text, pattern) => .cls text :: pieces pattern
      else .lit c :: pieces pattern
  termination_by pattern => pattern.length
  decreasing_by
    · split
      · simp only [List.length_tail, List.length_cons]
        omega
      · simp only [List.length_tail, List.length_cons]
        omega
    · simp
    · simp
    · have := congrArg List.length (Text.splitOnce_eq_some ‹_›)
      simp only [List.length_append, List.length_cons] at this ⊢
      omega
    · simp

section Pieces

variable {s} {c : α} {pattern : List α}

theorem pieces_globstar (h : c = s.star ∧ pattern.head? = some s.star) :
    s.pieces (c :: pattern) =
      .globstar ::
        s.pieces
          (if pattern.tail.head? = some s.separator then pattern.tail.tail
            else pattern.tail) := by
  rw [pieces, if_pos h]

theorem pieces_star (h : ¬ (c = s.star ∧ pattern.head? = some s.star)) (hc : c = s.star) :
    s.pieces (c :: pattern) = .star :: s.pieces pattern := by
  rw [pieces, if_neg h, if_pos hc]

theorem pieces_question (hstar : c ≠ s.star) (hc : c = s.question) :
    s.pieces (c :: pattern) = .question :: s.pieces pattern := by
  rw [pieces, if_neg fun h => hstar h.1, if_neg hstar, if_pos hc]

theorem pieces_cls (hstar : c ≠ s.star) (hmark : c ≠ s.question) (hc : c = s.openBracket)
    {text rest : List α} (hsplit : Text.splitOnce [s.closeBracket] pattern = some (text, rest)) :
    s.pieces (c :: pattern) = .cls text :: s.pieces rest := by
  rw [pieces, if_neg fun h => hstar h.1, if_neg hstar, if_neg hmark, if_pos hc]
  split
  · rename_i hnone
    rw [hsplit] at hnone
    cases hnone
  · rename_i text' rest' hsome
    rw [hsplit] at hsome
    cases hsome
    rfl

theorem pieces_fail (hstar : c ≠ s.star) (hmark : c ≠ s.question) (hc : c = s.openBracket)
    (hsplit : Text.splitOnce [s.closeBracket] pattern = none) :
    s.pieces (c :: pattern) = [.fail] := by
  rw [pieces, if_neg fun h => hstar h.1, if_neg hstar, if_neg hmark, if_pos hc]
  split
  · rfl
  · rename_i hsome
    rw [hsplit] at hsome
    cases hsome

/-- A symbol without a meaning stands for itself. -/
theorem pieces_lit (hstar : c ≠ s.star) (hmark : c ≠ s.question) (hbracket : c ≠ s.openBracket)
    (pattern : List α) : s.pieces (c :: pattern) = .lit c :: s.pieces pattern := by
  rw [pieces, if_neg fun h => hstar h.1, if_neg hstar, if_neg hmark, if_neg hbracket]

/-- Symbols without a meaning stand for themselves. -/
theorem pieces_lits_append {lits : List α}
    (h : ∀ a ∈ lits, a ≠ s.star ∧ a ≠ s.question ∧ a ≠ s.openBracket) (pattern : List α) :
    s.pieces (lits ++ pattern) = lits.map .lit ++ s.pieces pattern := by
  induction lits with
  | nil => rfl
  | cons a lits ih =>
      obtain ⟨hstar, hmark, hbracket⟩ := h a List.mem_cons_self
      rw [List.cons_append, pieces_lit hstar hmark hbracket,
        ih fun b hb => h b (List.mem_cons_of_mem _ hb)]
      rfl

/-- A piece that consumes one symbol is spelled in the pattern. -/
def SpelledIn (s : GlobSymbols α) (pattern : List α) : Piece α → Prop
  | .question => s.question ∈ pattern
  | .cls text => s.openBracket ∈ pattern ∧ ∀ a ∈ text, a ∈ pattern
  | _ => True

omit [DecidableEq α] in
theorem SpelledIn.mono {pattern' : List α} {q : Piece α} (h : s.SpelledIn pattern q)
    (hsub : ∀ a ∈ pattern, a ∈ pattern') : s.SpelledIn pattern' q := by
  cases q with
  | question => exact hsub _ h
  | cls text => exact ⟨hsub _ h.1, fun a ha => hsub a (h.2 a ha)⟩
  | _ => trivial

/-- **The pieces of a pattern are spelled in it.** -/
theorem spelledIn_of_mem_pieces (pattern : List α) :
    ∀ q ∈ s.pieces pattern, s.SpelledIn pattern q := by
  -- What is spelled in the rest of the pattern is spelled in the whole.
  fun_induction pieces s pattern with
  | case1 => simp
  | case2 c pattern hdouble ih =>
      refine List.forall_mem_cons.mpr ⟨trivial, fun q hq => (ih q hq).mono fun a ha => ?_⟩
      apply List.mem_cons_of_mem
      split at ha
      · exact List.mem_of_mem_tail (List.mem_of_mem_tail ha)
      · exact List.mem_of_mem_tail ha
  | case3 pattern hdouble ih =>
      refine List.forall_mem_cons.mpr ⟨trivial, fun q hq => (ih q hq).mono fun a ha => ?_⟩
      exact List.mem_cons_of_mem _ ha
  | case4 pattern hdouble hstar ih =>
      refine List.forall_mem_cons.mpr
        ⟨List.mem_cons_self, fun q hq => (ih q hq).mono fun a ha => ?_⟩
      exact List.mem_cons_of_mem _ ha
  | case5 pattern hdouble hstar hmark hsplit =>
      exact List.forall_mem_singleton.mpr trivial
  | case6 pattern text rest hsplit hdouble hstar hmark ih =>
      have hpattern := Text.splitOnce_eq_some hsplit
      refine List.forall_mem_cons.mpr
        ⟨⟨List.mem_cons_self, fun a ha => ?_⟩, fun q hq => (ih q hq).mono fun a ha => ?_⟩
      · rw [hpattern]
        exact List.mem_cons_of_mem _ (List.mem_append_left _ (List.mem_append_left _ ha))
      · exact List.mem_cons_of_mem _ ((Text.suffix_of_splitOnce hsplit).mem ha)
  | case7 c pattern hdouble hstar hmark hbracket ih =>
      refine List.forall_mem_cons.mpr ⟨trivial, fun q hq => (ih q hq).mono fun a ha => ?_⟩
      exact List.mem_cons_of_mem _ ha

end Pieces

/-! ## The matcher -/

variable [LE α] [DecidableLE α]

/-- The ranges and single symbols of a bracket class. -/
def contains (a : α) : List α → Bool
  | lo :: mid :: hi :: rest =>
      if mid = s.dash then (lo ≤ a && a ≤ hi) || contains a rest
      else lo == a || contains a (mid :: hi :: rest)
  | [c, c'] => c == a || c' == a
  | [c] => c == a
  | [] => false

/-- A bracket class with its optional negation. -/
def admits (text : List α) (a : α) : Bool :=
  let negated := text.head? == some s.bang || text.head? == some s.caret
  s.contains a (if negated then text.tail else text) != negated

/-- A symbol beyond all symbols of a class is not in it. -/
theorem contains_eq_false {a : α} {text : List α} (h : ∀ m ∈ text, m ≠ a ∧ ¬ a ≤ m) :
    s.contains a text = false := by
  fun_induction contains s a text with
  | case1 lo hi rest ih =>
      have hhi := h hi (by simp)
      simp [hhi.2, ih fun m hm => h m (by simp [hm])]
  | case2 lo mid hi rest hmid ih =>
      have hlo := h lo List.mem_cons_self
      simp only [beq_eq_false_iff_ne.mpr hlo.1, Bool.false_or]
      exact ih fun m hm => h m (List.mem_cons_of_mem _ hm)
  | case3 c c' => simp [(h c (by simp)).1, (h c' (by simp)).1]
  | case4 c => simp [(h c (by simp)).1]
  | case5 => rfl

/-- **A class does not see an order embedding** of its symbols. -/
theorem contains_map {β : Type v} [DecidableEq β] [LE β] [DecidableLE β] {s' : GlobSymbols β}
    {f : α → β} {a : α} {text : List α}
    (hf : ∀ m ∈ text, (f m = f a ↔ m = a) ∧ (f m ≤ f a ↔ m ≤ a) ∧ (f a ≤ f m ↔ a ≤ m) ∧
      (f m = s'.dash ↔ m = s.dash)) :
    s'.contains (f a) (text.map f) = s.contains a text := by
  fun_induction contains s a text with
  | case1 lo hi rest ih =>
      have hlo := hf lo (by simp)
      have hmid := hf s.dash (by simp)
      have hhi := hf hi (by simp)
      have hrest := ih fun m hm => hf m (by simp [hm])
      simp [contains, hlo.2.1, hmid.2.2.2.mpr rfl, hhi.2.2.1, hrest]
  | case2 lo mid hi rest hmid ih =>
      have hlo := hf lo (by simp)
      have hmid' : f mid ≠ s'.dash := fun h => hmid ((hf mid (by simp)).2.2.2.mp h)
      have hrest := ih fun m hm => hf m (List.mem_cons_of_mem _ hm)
      have hsame : (f lo == f a) = (lo == a) := by
        rw [Bool.eq_iff_iff, beq_iff_eq, beq_iff_eq, hlo.1]
      rw [List.map_cons, List.map_cons, List.map_cons, contains, if_neg hmid', hsame]
      rw [List.map_cons, List.map_cons] at hrest
      rw [hrest]
  | case3 c c' =>
      have hc := hf c (by simp)
      have hc' := hf c' (by simp)
      rw [Bool.eq_iff_iff]
      simp [contains, hc.1, hc'.1]
  | case4 c =>
      have hc := hf c (by simp)
      rw [Bool.eq_iff_iff]
      simp [contains, hc.1]
  | case5 => rfl

/-- The body of the matcher, over the calls it makes. -/
def step (run : List α → List α → Bool) : List α → List α → Bool
  | [], value => value.isEmpty
  | c :: pattern, value =>
      if c = s.star ∧ pattern.head? = some s.star then
        decide (pattern.tail.head? = some s.separator) && run pattern.tail.tail value ||
          (run pattern.tail value || !value.isEmpty && run (c :: pattern) value.tail)
      else if c = s.star then
        run pattern value ||
          value.head?.any (· ≠ s.separator) && run (c :: pattern) value.tail
      else
        match value with
        | [] => false
        | a :: value =>
            if c = s.question then decide (a ≠ s.separator) && run pattern value
            else if c = s.openBracket then
              match Text.splitOnce [s.closeBracket] pattern with
              | none => false
              | some (text, pattern) =>
                  decide (a ≠ s.separator ∧ s.admits text a) && run pattern value
            else decide (c = a) && run pattern value

/-- The recursion, with fuel. -/
def run : ℕ → List α → List α → Bool
  | 0, _, _ => false
  | fuel + 1, pattern, value => s.step (run fuel) pattern value

/-- The matcher. -/
def isMatch (pattern value : List α) : Bool :=
  s.run (pattern.length + value.length + 1) pattern value

/-! ## The matcher decides the language -/

/-- What a piece means. -/
def token : Piece α → Token α
  | .lit a => .lit a
  | .question => .one fun _ => true
  | .cls text => .one (s.admits text)
  | .star => .star
  | .globstar => .globstar
  | .fail => .fail

/-- The texts a pattern matches. -/
def globLanguage (pattern : List α) : Language α :=
  language s.separator ((s.pieces pattern).map s.token)

/-- The globstar of the body, read as its language. -/
theorem step_globstar_iff {run : List α → List α → Bool} {c : α} {pattern value : List α}
    (h : c = s.star ∧ pattern.head? = some s.star)
    (hrun : ∀ p v, p.length + v.length < (c :: pattern).length + value.length →
      (run p v = true ↔ v ∈ s.globLanguage p)) :
    s.step run (c :: pattern) value = true ↔ value ∈ s.globLanguage (c :: pattern) := by
  have htail : ∀ p, p.length ≤ pattern.length →
      (run p value = true ↔ value ∈ s.globLanguage p) := by
    intro p hp
    exact hrun p value (by simp only [List.length_cons]; omega)
  have hskip : (!value.isEmpty && run (c :: pattern) value.tail) = true ↔
      ∃ a v, value = a :: v ∧ v ∈ s.globLanguage (c :: pattern) := by
    cases value with
    | nil => simp
    | cons a v => simp [hrun (c :: pattern) v (by simp)]
  have hlanguage : s.globLanguage (c :: pattern) = language s.separator
      (.globstar :: ((s.pieces (if pattern.tail.head? = some s.separator then pattern.tail.tail
        else pattern.tail)).map s.token)) := by
    rw [globLanguage, pieces_globstar h]
    rfl
  rw [step.eq_def]
  simp only [if_pos h]
  rw [Bool.or_eq_true, Bool.or_eq_true, Bool.and_eq_true, decide_eq_true_eq,
    hskip, htail pattern.tail (by simp only [List.length_tail]; omega),
    htail pattern.tail.tail (by simp only [List.length_tail]; omega)]
  by_cases hsep : pattern.tail.head? = some s.separator
  · obtain ⟨rest, hrest⟩ := List.head?_eq_some_iff.mp hsep
    rw [if_pos hsep] at hlanguage
    rw [hlanguage, hrest, List.tail_cons]
    constructor
    · rintro (⟨-, h⟩ | h | ⟨a, v, rfl, h⟩)
      · exact mem_language_globstar_cons.mpr (Or.inl h)
      · -- Keeping the separator matches no more than skipping it.
        obtain ⟨hstar, hmark, hbracket⟩ := s.separator_plain
        rw [globLanguage, pieces_lit hstar hmark hbracket] at h
        exact mem_language_globstar_of_lit (mem_language_globstar_cons.mpr (Or.inl h))
      · exact mem_language_globstar_cons.mpr (Or.inr ⟨a, v, rfl, h⟩)
    · intro h
      rcases mem_language_globstar_cons.mp h with h | h
      · exact Or.inl ⟨rfl, h⟩
      · exact Or.inr (Or.inr h)
  · rw [if_neg hsep] at hlanguage
    rw [hlanguage]
    constructor
    · rintro (⟨h, -⟩ | h | ⟨a, v, rfl, h⟩)
      · exact absurd h hsep
      · exact mem_language_globstar_cons.mpr (Or.inl h)
      · exact mem_language_globstar_cons.mpr (Or.inr ⟨a, v, rfl, h⟩)
    · intro h
      exact Or.inr (mem_language_globstar_cons.mp h)

/-- **The body of the matcher**, run over calls that decide the languages of shorter
arguments, decides the language of its own. -/
theorem step_iff {run : List α → List α → Bool} {pattern value : List α}
    (hrun : ∀ p v, p.length + v.length < pattern.length + value.length →
      (run p v = true ↔ v ∈ s.globLanguage p)) :
    s.step run pattern value = true ↔ value ∈ s.globLanguage pattern := by
  cases pattern with
  | nil =>
      rw [globLanguage, pieces, List.map_nil, mem_language_nil]
      exact List.isEmpty_iff
  | cons c pattern =>
      have hnext : ∀ p a v, p.length ≤ (c :: pattern).length → value = a :: v →
          (run p v = true ↔ v ∈ s.globLanguage p) := by
        rintro p a v hp rfl
        exact hrun p v (by simp only [List.length_cons] at hp ⊢; omega)
      have hcons : pattern.length ≤ (c :: pattern).length := by simp
      by_cases hdouble : c = s.star ∧ pattern.head? = some s.star
      · exact s.step_globstar_iff hdouble hrun
      simp only [step, if_neg hdouble]
      by_cases hstar : c = s.star
      · have hlanguage : s.globLanguage (c :: pattern) =
            language s.separator (.star :: (s.pieces pattern).map s.token) := by
          rw [globLanguage, pieces_star hdouble hstar]
          rfl
        have htail : run pattern value = true ↔ value ∈ s.globLanguage pattern :=
          hrun pattern value (by simp)
        rw [if_pos hstar, Bool.or_eq_true, htail, hlanguage, mem_language_star_cons, ← hlanguage]
        refine or_congr_right ?_
        cases value with
        | nil => simp
        | cons a v => simp [hnext _ a v le_rfl rfl]
      rw [if_neg hstar]
      by_cases hmark : c = s.question
      · rw [globLanguage, pieces_question hstar hmark, List.map_cons, token,
          mem_language_one_cons]
        cases value with
        | nil => simp
        | cons a v => simp [hmark, hnext _ a v hcons rfl, globLanguage]
      by_cases hbracket : c = s.openBracket
      · cases hsplit : Text.splitOnce [s.closeBracket] pattern with
        | none =>
            rw [globLanguage, pieces_fail hstar hmark hbracket hsplit]
            cases value with
            | nil => simp [token, notMem_language_fail_cons]
            | cons a v =>
                simp only [if_neg hmark, if_pos hbracket]
                simp [token, notMem_language_fail_cons]
        | some parts =>
            obtain ⟨text, rest⟩ := parts
            have hrest := ((Text.suffix_of_splitOnce hsplit).trans
              (List.suffix_cons c pattern)).length_le
            rw [globLanguage, pieces_cls hstar hmark hbracket hsplit, List.map_cons, token,
              mem_language_one_cons]
            cases value with
            | nil => simp
            | cons a v =>
                simp only [if_neg hmark, if_pos hbracket]
                simp [hnext _ a v hrest rfl, globLanguage, and_assoc]
      rw [globLanguage, pieces_lit hstar hmark hbracket, List.map_cons, token,
        mem_language_lit_cons]
      cases value with
      | nil => simp
      | cons a v =>
          simp only [if_neg hmark, if_neg hbracket, Bool.and_eq_true, decide_eq_true_eq,
            hnext _ a v hcons rfl, globLanguage]
          constructor
          · rintro ⟨rfl, h⟩
            exact ⟨v, rfl, h⟩
          · rintro ⟨z, hz, h⟩
            cases hz
            exact ⟨rfl, h⟩

/-- The recursion decides the language, given enough fuel. -/
theorem run_iff {fuel : ℕ} {pattern value : List α}
    (hfuel : pattern.length + value.length < fuel) :
    s.run fuel pattern value = true ↔ value ∈ s.globLanguage pattern := by
  induction fuel generalizing pattern value with
  | zero => omega
  | succ fuel ih =>
      apply step_iff
      intro p v hlt
      exact ih (by omega)

/-- **The matcher decides the language of the pattern.** -/
theorem isMatch_iff (pattern value : List α) :
    s.isMatch pattern value = true ↔ value ∈ s.globLanguage pattern :=
  s.run_iff (Nat.lt_succ_self _)

end GlobSymbols

end PathPattern
