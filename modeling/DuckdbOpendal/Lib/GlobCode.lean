import DuckdbOpendal.Lib.GlobSyntax
import DuckdbOpendal.Lib.SelfSyncCode

/-!
# Glob patterns under a self-synchronising code

A glob pattern and a text can be matched on either side of a self-synchronising code.
Literals and stars do not see the difference: a star that stops inside a word can as well
stop behind it.  A `?` or a bracket class consumes one symbol, which is a word on one side
and a piece of one on the other.

## Main Definitions

* `SelfSyncCode.SpellsGlob` — a code that leaves the symbols of a syntax alone
* `SelfSyncCode.AgreesOn` — a piece that admits a word on both sides alike
* `SelfSyncCode.ReadsAlike` — a pattern whose pieces agree on the words they can meet

## Main Results

* `SelfSyncCode.pieces_encode` — an encoded pattern is written with the encoded pieces
* `SelfSyncCode.readsAlike_cons_iff` — what the pieces meet, one after the other
* `SelfSyncCode.isMatch_encode` — when matching does not see the code
-/

universe u v

namespace SelfSyncCode

open PathPattern

variable {α : Type u} {β : Type v} {C : SelfSyncCode α β}

/-! ## Encoded patterns -/

variable {s' : GlobSymbols α} {s : GlobSymbols β}

variable (C) in
/-- The code spells the symbols of one glob syntax as those of another. -/
structure SpellsGlob (s' : GlobSymbols α) (s : GlobSymbols β) : Prop where
  star : C.code s.star = [s'.star]
  question : C.code s.question = [s'.question]
  openBracket : C.code s.openBracket = [s'.openBracket]
  closeBracket : C.code s.closeBracket = [s'.closeBracket]
  separator : C.code s.separator = [s'.separator]

variable (C) in
/-- A piece of a pattern, spelled out. -/
def encodePiece : Piece β → List (Piece α)
  | .lit c => (C.code c).map .lit
  | .question => [.question]
  | .cls text => [.cls (C.encode text)]
  | .star => [.star]
  | .globstar => [.globstar]
  | .fail => [.fail]

variable (C s) in
/-- Two classes agree on a word, unless it is the separator: one admits the symbols of the word
as the other admits the word, and then the word is that symbol. -/
def ClassesAgree (c : β) (cls' : α → Bool) (cls : β → Bool) : Prop :=
  c ≠ s.separator → ∀ b ∈ C.code c, cls' b = cls c ∧ (cls c = true → C.code c = [b])

/-- What a class admits of a word is the whole word. -/
theorem ClassesAgree.admitted {c : β} {cls' : α → Bool} {cls : β → Bool}
    (h : C.ClassesAgree s c cls' cls) (hsep : c ≠ s.separator) {b : α} (hb : b ∈ C.code c)
    (hcls : cls' b = true) : cls c = true ∧ C.code c = [b] := by
  obtain ⟨hsame, hsingle⟩ := h hsep b hb
  rw [hsame] at hcls
  exact ⟨hcls, hsingle hcls⟩

/-- A class does not admit the rest of a word. -/
theorem SpellsGlob.not_admitted_of_rest (hC : C.SpellsGlob s' s) {c : β} {cls' : α → Bool}
    {cls : β → Bool} (hagree : C.ClassesAgree s c cls' cls) {b : α}
    (hb : ¬ C.IsLead b ∧ b ∈ C.code c) : cls' b = false := by
  obtain ⟨hlead, hmem⟩ := hb
  have hsep : c ≠ s.separator := by
    rintro rfl
    rw [hC.separator] at hmem
    obtain rfl := List.mem_singleton.mp hmem
    exact hlead (isLead_of_code hC.separator)
  rw [← Bool.not_eq_true]
  intro hcls
  exact hlead (isLead_of_code (hagree.admitted hsep hmem hcls).2)

section Tokens

variable {text : List β} {ts' : List (Token α)} {ts : List (Token β)}

/-- Behind a literal, the two sides go on alike. -/
theorem encode_mem_lit_iff {c : β}
    (hrec : ∀ rest, text = c :: rest →
      (C.encode rest ∈ language s'.separator ts' ↔ rest ∈ language s.separator ts)) :
    C.encode text ∈ language s'.separator ((C.code c).map .lit ++ ts') ↔
      text ∈ language s.separator (.lit c :: ts) := by
  rw [mem_language_lits_append, mem_language_lit_cons]
  constructor
  · rintro ⟨z, heq, hz⟩
    cases text with
    | nil => exact absurd (List.append_eq_nil_iff.mp heq.symm).1 (code_ne_nil c)
    | cons d text =>
        obtain rfl := C.unique d c _ _ heq
        obtain rfl := List.append_cancel_left heq
        exact ⟨text, rfl, (hrec text rfl).mp hz⟩
  · rintro ⟨rest, rfl, hrest⟩
    exact ⟨C.encode rest, rfl, (hrec rest rfl).mpr hrest⟩

/-- Classes that agree consume a word on both sides. -/
theorem encode_mem_one_iff (hC : C.SpellsGlob s' s) {cls' : α → Bool} {cls : β → Bool}
    (hagree : ∀ c rest, text = c :: rest → C.ClassesAgree s c cls' cls)
    (hrec : ∀ c rest, text = c :: rest → c ≠ s.separator → cls c = true →
      (C.encode rest ∈ language s'.separator ts' ↔ rest ∈ language s.separator ts)) :
    C.encode text ∈ language s'.separator (.one cls' :: ts') ↔
      text ∈ language s.separator (.one cls :: ts) := by
  rw [mem_language_one_cons, mem_language_one_cons]
  constructor
  · rintro ⟨a, z, heq, hne, hcls, hz⟩
    cases text with
    | nil => cases heq
    | cons c text =>
        obtain ⟨b, tail, hcode, -⟩ := C.lead c
        have hab : a = b := by
          rw [encode_cons, hcode] at heq
          exact (List.cons.inj heq).1.symm
        have hmem : a ∈ C.code c := by
          rw [hcode, hab]
          exact List.mem_cons_self
        have hsep : c ≠ s.separator := by
          rintro rfl
          rw [hC.separator] at hmem
          exact hne (List.mem_singleton.mp hmem)
        -- The class admits the lead of the word, so the word is that one symbol.
        obtain ⟨hadmits, hword⟩ := (hagree c text rfl).admitted hsep hmem hcls
        rw [encode_cons, hword] at heq
        obtain rfl := (List.cons.inj heq).2
        exact ⟨c, text, rfl, hsep, hadmits, (hrec c text rfl hsep hadmits).mp hz⟩
  · rintro ⟨c, rest, rfl, hne, hcls, hrest⟩
    obtain ⟨b, tail, hcode, -⟩ := C.lead c
    have hmem : b ∈ C.code c := hcode ▸ List.mem_cons_self
    obtain ⟨hsame, hword⟩ := hagree c rest rfl hne b hmem
    have htext : C.encode (c :: rest) = b :: C.encode rest := by
      rw [encode_cons, hword hcls]
      rfl
    refine ⟨b, C.encode rest, htext, ?_, hsame ▸ hcls, (hrec c rest rfl hne hcls).mpr hrest⟩
    rintro rfl
    exact hne (eq_of_mem_code hC.separator hmem)

/-- A token that consumes any text of a kind need not consume the front of one. -/
theorem mem_language_of_rest_append {sep : α} {t' : Token α} (hnil : [] ∈ t'.language sep)
    (hkind : ∀ x y, x ++ y ∈ t'.language sep → y ∈ t'.language sep) {rest z : List α}
    (hdrop : ∀ rest' : List α, (∀ b ∈ rest', b ∈ rest) →
      rest' ++ z ∈ language sep ts' → z ∈ language sep ts')
    (h : rest ++ z ∈ language sep (t' :: ts')) : z ∈ language sep (t' :: ts') := by
  obtain ⟨y, hy, z', hz', heq⟩ := mem_language_cons.mp h
  rcases List.append_eq_append_iff.mp heq with ⟨rest', rfl, rfl⟩ | ⟨y', rfl, rfl⟩
  · have hmem := hdrop rest' (fun b hb => List.mem_append_right _ hb) hz'
    exact mem_language_cons.mpr ⟨[], hnil, z, hmem, rfl⟩
  · exact mem_language_cons.mpr ⟨y', hkind _ _ hy, z', hz', rfl⟩

/-- **A token that consumes any text of a kind** may stop inside a word on one side, when
the rest of that word can be dropped. -/
theorem encode_mem_any_iff {t' : Token α} {t : Token β}
    (hkind : ∀ x rest y, x ++ rest = C.encode y → (∀ b ∈ rest, ¬ C.IsLead b) →
      x ∈ t'.language s'.separator → y ∈ t.language s.separator)
    (hkind' : ∀ y, y ∈ t.language s.separator → C.encode y ∈ t'.language s'.separator)
    (hdrop : ∀ front c behind rest, text = front ++ c :: behind →
      front ++ [c] ∈ t.language s.separator → (∀ b ∈ rest, ¬ C.IsLead b ∧ b ∈ C.code c) →
      rest ++ C.encode behind ∈ language s'.separator ts' →
      C.encode behind ∈ language s'.separator ts')
    (hrec : ∀ front behind, text = front ++ behind → front ∈ t.language s.separator →
      (C.encode behind ∈ language s'.separator ts' ↔ behind ∈ language s.separator ts)) :
    C.encode text ∈ language s'.separator (t' :: ts') ↔
      text ∈ language s.separator (t :: ts) := by
  constructor
  · intro h
    obtain ⟨x, hx, z, hz, heq⟩ := mem_language_cons.mp h
    -- Move the end of the token behind the word it stopped in.
    obtain ⟨text₁, text₂, rest, rfl, hfirst, rfl, hrest⟩ := exists_boundary heq
    have hconsumed := hkind x rest text₁ hfirst (fun b hb => (hrest b hb).1) hx
    have hbehind : C.encode text₂ ∈ language s'.separator ts' := by
      rcases List.eq_nil_or_concat' text₁ with rfl | ⟨front, c, rfl⟩
      · rw [encode_nil, List.append_eq_nil_iff] at hfirst
        rwa [hfirst.2, List.nil_append] at hz
      · refine hdrop front c text₂ rest (by simp) hconsumed (fun b hb => ?_) hz
        obtain ⟨hlead, c', hc', hmem⟩ := hrest b hb
        rw [List.getLast?_concat, Option.mem_some_iff] at hc'
        exact ⟨hlead, hc' ▸ hmem⟩
    exact mem_language_cons.mpr
      ⟨text₁, hconsumed, text₂, (hrec text₁ text₂ rfl hconsumed).mp hbehind, rfl⟩
  · intro h
    obtain ⟨text₁, hfirst, text₂, hmem, rfl⟩ := mem_language_cons.mp h
    exact mem_language_cons.mpr
      ⟨C.encode text₁, hkind' text₁ hfirst, C.encode text₂,
        (hrec text₁ text₂ rfl hfirst).mpr hmem, (encode_append C _ _).symm⟩

end Tokens

variable [DecidableEq α] [DecidableEq β]

/-- **An encoded pattern is written with the encoded pieces.** -/
theorem pieces_encode (hC : C.SpellsGlob s' s) (pattern : List β) :
    s'.pieces (C.encode pattern) = (s.pieces pattern).flatMap C.encodePiece := by
  induction hn : pattern.length using Nat.strong_induction_on generalizing pattern with
  | h n ih =>
  subst hn
  cases pattern with
  | nil => simp [GlobSymbols.pieces]
  | cons c pattern =>
      have hrec : ∀ p, p.length ≤ pattern.length →
          s'.pieces (C.encode p) = (s.pieces p).flatMap C.encodePiece := fun p hp =>
        ih _ (by simp only [List.length_cons]; omega) p rfl
      have hsingle : ∀ {d a}, C.code d = [a] → c = d →
          C.encode (c :: pattern) = a :: C.encode pattern := by
        rintro d a hd rfl
        rw [encode_cons, hd]
        rfl
      by_cases hdouble : c = s.star ∧ pattern.head? = some s.star
      · obtain ⟨hc, hhead⟩ := hdouble
        rw [hsingle hC.star hc, GlobSymbols.pieces_globstar
          ⟨rfl, (head?_encode_iff hC.star pattern).mpr hhead⟩,
          GlobSymbols.pieces_globstar ⟨hc, hhead⟩, tail_encode hC.star hhead]
        simp only [head?_encode_iff hC.separator]
        rw [List.flatMap_cons]
        refine congrArg (List.cons Piece.globstar) ?_
        split
        · rename_i hsep
          rw [tail_encode hC.separator hsep]
          exact hrec _ (by simp only [List.length_tail]; omega)
        · exact hrec _ (by simp only [List.length_tail]; omega)
      by_cases hstar : c = s.star
      · have hdouble' : ¬ (s'.star = s'.star ∧ (C.encode pattern).head? = some s'.star) := by
          rw [head?_encode_iff hC.star]
          exact fun h => hdouble ⟨hstar, h.2⟩
        rw [hsingle hC.star hstar, GlobSymbols.pieces_star hdouble' rfl,
          GlobSymbols.pieces_star hdouble hstar, hrec _ le_rfl]
        rfl
      -- Distinct symbols of the syntax are spelled by distinct symbols.
      have hother : ∀ {d d' a a'}, C.code d = [a] → C.code d' = [a'] → c = d → c ≠ d' →
          a ≠ a' := by
        rintro d d' a _ hd hd' rfl hne rfl
        exact hne (eq_of_mem_code hd' (hd ▸ List.mem_singleton_self _))
      by_cases hmark : c = s.question
      · rw [hsingle hC.question hmark,
          GlobSymbols.pieces_question (hother hC.question hC.star hmark hstar) rfl,
          GlobSymbols.pieces_question hstar hmark, hrec _ le_rfl]
        rfl
      by_cases hbracket : c = s.openBracket
      · have hstar' := hother hC.openBracket hC.star hbracket hstar
        have hmark' := hother hC.openBracket hC.question hbracket hmark
        have hsplit' := splitOnce_encode hC.closeBracket pattern
        rw [hsingle hC.openBracket hbracket]
        cases hsplit : Text.splitOnce [s.closeBracket] pattern with
        | none =>
            rw [hsplit] at hsplit'
            rw [GlobSymbols.pieces_fail hstar' hmark' rfl hsplit',
              GlobSymbols.pieces_fail hstar hmark hbracket hsplit]
            rfl
        | some parts =>
            obtain ⟨text, rest⟩ := parts
            rw [hsplit] at hsplit'
            have hrest := (Text.suffix_of_splitOnce hsplit).length_le
            rw [GlobSymbols.pieces_cls hstar' hmark' rfl hsplit',
              GlobSymbols.pieces_cls hstar hmark hbracket hsplit, hrec rest hrest]
            rfl
      · have hplain : ∀ a ∈ C.code c, a ≠ s'.star ∧ a ≠ s'.question ∧ a ≠ s'.openBracket := by
          intro a ha
          refine ⟨?_, ?_, ?_⟩
          · rintro rfl
            exact hstar (eq_of_mem_code hC.star ha)
          · rintro rfl
            exact hmark (eq_of_mem_code hC.question ha)
          · rintro rfl
            exact hbracket (eq_of_mem_code hC.openBracket ha)
        rw [encode_cons, GlobSymbols.pieces_lits_append hplain,
          GlobSymbols.pieces_lit hstar hmark hbracket, hrec _ le_rfl]
        rfl

/-! ## Matching on both sides -/

variable [LE α] [DecidableLE α] [LE β] [DecidableLE β]

variable (C s' s) in
/-- A piece admits the symbols of a word as it admits the word. -/
def AgreesOn (c : β) : Piece β → Prop
  | .question => C.ClassesAgree s c (fun _ => true) fun _ => true
  | .cls cls => C.ClassesAgree s c (s'.admits (C.encode cls)) (s.admits cls)
  | _ => True

variable (C s' s) in
/-- **The pieces of a pattern read a text alike** on both sides: each agrees on every word it can
meet, which stands behind what the pieces in front of it match. -/
def ReadsAlike (ps : List (Piece β)) (text : List β) : Prop :=
  ∀ before q after front c behind, ps = before ++ q :: after → text = front ++ c :: behind →
    front ∈ language s.separator (before.map s.token) → C.AgreesOn s' s c q

section ReadsAlike

variable {ps : List (Piece β)} {q : Piece β} {text : List β}

theorem readsAlike_of_agreesOn (h : ∀ q ∈ ps, ∀ c ∈ text, C.AgreesOn s' s c q) :
    C.ReadsAlike s' s ps text := by
  rintro before q after front c behind rfl rfl -
  exact h q (by simp) c (by simp)

/-- The first piece meets the first word, and the others what stands behind the words that the
first consumes. -/
theorem readsAlike_cons_iff :
    C.ReadsAlike s' s (q :: ps) text ↔
      (∀ c behind, text = c :: behind → C.AgreesOn s' s c q) ∧
        ∀ front behind, text = front ++ behind → front ∈ (s.token q).language s.separator →
          C.ReadsAlike s' s ps behind := by
  constructor
  · refine fun h => ⟨fun c behind htext => ?_, ?_⟩
    · exact h [] q ps [] c behind rfl htext (mem_language_nil.mpr rfl)
    · rintro front behind rfl hfront before q' after front' c behind' rfl rfl hfront'
      exact h (q :: before) q' after (front ++ front') c behind' rfl (List.append_assoc ..).symm
        (mem_language_cons.mpr ⟨front, hfront, front', hfront', rfl⟩)
  · rintro ⟨hhead, htail⟩ before q' after front c behind hps htext hfront
    cases before with
    | nil =>
        obtain ⟨rfl, -⟩ := List.cons.inj hps
        rw [mem_language_nil.mp hfront] at htext
        exact hhead c behind htext
    | cons q'' before =>
        obtain ⟨rfl, hrest⟩ := List.cons.inj hps
        obtain ⟨front', hfront', front'', hmem, rfl⟩ := mem_language_cons.mp hfront
        exact htail front' (front'' ++ c :: behind) (by rw [htext, List.append_assoc]) hfront'
          before q' after front'' c behind hrest rfl hmem

theorem ReadsAlike.head {c : β} {behind : List β}
    (h : C.ReadsAlike s' s (q :: ps) (c :: behind)) : C.AgreesOn s' s c q :=
  (readsAlike_cons_iff.mp h).1 c behind rfl

theorem ReadsAlike.tail {front : List β} (h : C.ReadsAlike s' s (q :: ps) (front ++ text))
    (hfront : front ∈ (s.token q).language s.separator) : C.ReadsAlike s' s ps text :=
  (readsAlike_cons_iff.mp h).2 front text rfl hfront

/-- A piece that can consume nothing lets the next one meet its word. -/
theorem ReadsAlike.skip (h : C.ReadsAlike s' s (q :: ps) text)
    (hnil : [] ∈ (s.token q).language s.separator) : C.ReadsAlike s' s ps text :=
  tail (show C.ReadsAlike s' s (q :: ps) ([] ++ text) from h) hnil

end ReadsAlike

variable (C s') in
/-- The language of spelled-out pieces. -/
def codeLanguage (ps : List (Piece β)) : Language α :=
  language s'.separator ((ps.flatMap C.encodePiece).map s'.token)

omit [DecidableEq β] [LE β] [DecidableLE β] in
theorem codeLanguage_lit (c : β) (ps : List (Piece β)) :
    C.codeLanguage s' (.lit c :: ps) = language s'.separator
      ((C.code c).map .lit ++ (ps.flatMap C.encodePiece).map s'.token) := by
  have hlits : ((C.code c).map Piece.lit).map s'.token = (C.code c).map Token.lit := by
    rw [List.map_map]
    rfl
  rw [codeLanguage, List.flatMap_cons, List.map_append, encodePiece, hlits]

section Matching

variable {text : List β}

/-- **The rest of a word can be dropped** by pieces that can meet the word: only a star has
consumed it. -/
theorem codeLanguage_drop_rest (hC : C.SpellsGlob s' s) {ps : List (Piece β)} {c : β}
    (hps : C.ReadsAlike s' s ps (c :: text)) {rest z : List α}
    (hrest : ∀ b ∈ rest, ¬ C.IsLead b ∧ b ∈ C.code c)
    (h : rest ++ z ∈ C.codeLanguage s' ps) : z ∈ C.codeLanguage s' ps := by
  induction ps generalizing rest with
  | nil =>
      have hnil := mem_language_nil.mp h
      rw [(List.append_eq_nil_iff.mp hnil).2]
      exact mem_language_nil.mpr rfl
  | cons q ps ih =>
      cases rest with
      | nil => exact h
      | cons b rest =>
          obtain ⟨hlead, -⟩ := hrest b List.mem_cons_self
          -- A piece that consumes one symbol cannot begin inside a word.
          have hclass : ∀ (cls' : α → Bool) (cls : β → Bool), C.ClassesAgree s c cls' cls →
              b :: rest ++ z ∉ language s'.separator
                (.one cls' :: (ps.flatMap C.encodePiece).map s'.token) := by
            intro cls' cls hagree hmem
            obtain ⟨a, _, heq, -, hcls, -⟩ := mem_language_one_cons.mp hmem
            obtain rfl := (List.cons.inj heq).1
            rw [hC.not_admitted_of_rest hagree (hrest b List.mem_cons_self)] at hcls
            cases hcls
          cases q with
          | lit c =>
              rw [codeLanguage_lit] at h
              obtain ⟨_, heq, -⟩ := mem_language_lits_append.mp h
              obtain ⟨a, tail, hcode, ha, -⟩ := C.lead c
              rw [hcode] at heq
              exact absurd ((List.cons.inj heq).1 ▸ ha) hlead
          | question => exact absurd h (hclass _ (fun _ => true) hps.head)
          | cls cls => exact absurd h (hclass _ _ hps.head)
          | fail => exact absurd h notMem_language_fail_cons
          | star =>
              refine mem_language_of_rest_append ?_ ?_ (fun rest' hsub => ?_) h
              · exact List.not_mem_nil
              · exact fun x y hxy hy => hxy (List.mem_append_right _ hy)
              · exact ih (hps.skip List.not_mem_nil) fun b hb => hrest b (hsub b hb)
          | globstar =>
              refine mem_language_of_rest_append ?_ ?_ (fun rest' hsub => ?_) h
              · trivial
              · exact fun _ _ _ => trivial
              · exact ih (hps.skip trivial) fun b hb => hrest b (hsub b hb)

/-- **Matching spelled-out pieces** against a spelled-out text is matching the pieces
against the text, when they read the text alike. -/
theorem mem_codeLanguage_iff (hC : C.SpellsGlob s' s) {ps : List (Piece β)}
    (hps : C.ReadsAlike s' s ps text) :
    C.encode text ∈ C.codeLanguage s' ps ↔ text ∈ language s.separator (ps.map s.token) := by
  induction ps generalizing text with
  | nil =>
      show C.encode text ∈ language _ [] ↔ text ∈ language _ []
      rw [mem_language_nil, mem_language_nil, encode_eq_nil_iff]
  | cons q ps ih =>
      have hrec : ∀ front behind, text = front ++ behind →
          front ∈ (s.token q).language s.separator → (C.encode behind ∈ C.codeLanguage s' ps ↔
            behind ∈ language s.separator (ps.map s.token)) := by
        rintro front behind rfl hfront
        exact ih (hps.tail hfront)
      cases q with
      | lit c =>
          rw [codeLanguage_lit]
          exact encode_mem_lit_iff fun rest htext => hrec [c] rest htext rfl
      | question =>
          refine encode_mem_one_iff hC (fun c rest htext => ?_) fun c rest htext hsep hcls =>
            hrec [c] rest htext ⟨c, rfl, hsep, hcls⟩
          exact ReadsAlike.head (htext ▸ hps)
      | cls cls =>
          refine encode_mem_one_iff hC (fun c rest htext => ?_) fun c rest htext hsep hcls =>
            hrec [c] rest htext ⟨c, rfl, hsep, hcls⟩
          exact ReadsAlike.head (htext ▸ hps)
      | fail =>
          constructor
          · intro h
            exact absurd h notMem_language_fail_cons
          · intro h
            exact absurd h notMem_language_fail_cons
      | star =>
          refine encode_mem_any_iff ?_ ?_ (fun front c behind rest htext hfront hrest => ?_) hrec
          · intro x rest y hfirst hrest hx hsep
            rw [← mem_encode_iff hC.separator, ← hfirst] at hsep
            rcases List.mem_append.mp hsep with hsep | hsep
            · exact hx hsep
            · exact hrest _ hsep (isLead_of_code hC.separator)
          · intro y hy hsep
            exact hy ((mem_encode_iff hC.separator y).mp hsep)
          · -- The star could have stopped in front of the word.
            have hless : front ∈ (s.token .star).language s.separator := fun hsep =>
              hfront (List.mem_append_left _ hsep)
            exact codeLanguage_drop_rest hC ((htext ▸ hps).tail hless) hrest
      | globstar =>
          apply encode_mem_any_iff
          · exact fun _ _ _ _ _ _ => trivial
          · exact fun _ _ => trivial
          · intro front c behind rest htext _ hrest
            exact codeLanguage_drop_rest hC
              (ReadsAlike.tail (htext ▸ hps) (show front ∈ Set.univ from trivial)) hrest
          · exact hrec

/-- **Matching does not see the code**, when the pattern reads the text alike on both sides. -/
theorem isMatch_encode (hC : C.SpellsGlob s' s) {pattern : List β}
    (hpieces : C.ReadsAlike s' s (s.pieces pattern) text) :
    s'.isMatch (C.encode pattern) (C.encode text) = s.isMatch pattern text := by
  rw [Bool.eq_iff_iff, GlobSymbols.isMatch_iff, GlobSymbols.isMatch_iff, GlobSymbols.globLanguage,
    pieces_encode hC]
  exact mem_codeLanguage_iff hC hpieces

end Matching

end SelfSyncCode
