import DuckdbOpendal.GlobMatch
import DuckdbOpendal.Lib.GlobCode
import DuckdbOpendal.Lib.Utf8Code

/-!
# Glob patterns by characters

`glob_matches` takes the bytes of its two texts: a `?` or a bracket class consumes one
byte, and the members and ranges of a class are bytes.  Its verdict is that of the same
matcher over characters as long as no `?` and no class of the pattern can tell a character
of the path that it meets from its bytes.

## Main Definitions

* `charSymbols` — the alphabet of characters
* `ReadsAlike` — a pattern that reads the characters of a path as their bytes

## Main Results

* `globMatches_question_iff`, `globMatches_cls_iff` — what `?` and a class consume
* `globMatches_byCharacter` — when matching bytes is matching characters
* `readsAlike_of_ascii`, `readsAlike_of_stars` — where it is
-/

namespace DuckdbOpendal

open PathPattern

/-! ## Bytes -/

/-- `?` consumes one byte other than a slash. -/
theorem globMatches_question_iff (pattern value : Bytes) :
    globMatches (questionMark :: pattern) value = true ↔
      ∃ b rest, value = b :: rest ∧ b ≠ slash ∧ globMatches pattern rest = true := by
  have hpieces : byteSymbols.pieces (questionMark :: pattern) =
      .question :: byteSymbols.pieces pattern := GlobSymbols.pieces_question (by decide) rfl
  have hparse : parseGlob (questionMark :: pattern) =
      .one (fun _ => true) :: parseGlob pattern := by
    rw [parseGlob_eq, hpieces, List.map_cons, GlobSymbols.token, ← parseGlob_eq]
  simp only [globMatches_iff, globLanguage, hparse, mem_language_one_cons, true_and]

/-- A bracket class consumes one byte of the class other than a slash. -/
theorem globMatches_cls_iff {cls : Bytes} (hcls : closeBracket ∉ cls) (pattern value : Bytes) :
    globMatches (openBracket :: cls ++ closeBracket :: pattern) value = true ↔
      ∃ b rest, value = b :: rest ∧ b ≠ slash ∧ classAccepts cls b = true ∧
        globMatches pattern rest = true := by
  have hpieces : byteSymbols.pieces (openBracket :: cls ++ closeBracket :: pattern) =
      .cls cls :: byteSymbols.pieces pattern :=
    GlobSymbols.pieces_cls (by decide) (by decide) rfl (Text.splitOnce_singleton hcls pattern)
  have hparse : parseGlob (openBracket :: cls ++ closeBracket :: pattern) =
      .one (classAccepts cls) :: parseGlob pattern := by
    rw [parseGlob_eq, hpieces, List.map_cons, GlobSymbols.token, admits_byteSymbols, ← parseGlob_eq]
  simp only [globMatches_iff, globLanguage, hparse, mem_language_one_cons]

/-! ## Characters -/

/-- The symbols of the matcher over characters. -/
def charSymbols : GlobSymbols Char where
  star := '*'
  question := '?'
  openBracket := '['
  closeBracket := ']'
  bang := '!'
  caret := '^'
  dash := '-'
  separator := '/'
  separator_plain := by decide

theorem spellsGlob_utf8 : utf8Code.SpellsGlob byteSymbols charSymbols where
  star := rfl
  question := rfl
  openBracket := rfl
  closeBracket := rfl
  separator := rfl

/-- **A pattern reads a path alike** by bytes and by characters: where a `?` or a class of it
can meet a character other than a slash, behind what the pieces in front of it match, it admits
a byte of the character exactly when it admits the character, and then the byte is the whole
character. -/
def ReadsAlike (pattern path : List Char) : Prop :=
  utf8Code.ReadsAlike byteSymbols charSymbols (charSymbols.pieces pattern) path

/-- **When matching bytes is matching characters.** -/
theorem globMatches_utf8 {pattern path : List Char} (h : ReadsAlike pattern path) :
    globMatches (utf8Code.encode pattern) (utf8Code.encode path) =
      charSymbols.isMatch pattern path := by
  rw [globMatches_eq_globPlain, globPlain_eq_isMatch]
  exact SelfSyncCode.isMatch_encode spellsGlob_utf8 h

/-! ## Patterns that read a path alike -/

section Ascii

variable {cls : List Char} {c : Char}

/-- A class starts with a mark of negation. -/
def negatedClass (cls : List Char) : Bool := cls.head? == some '!' || cls.head? == some '^'

/-- The members of a class. -/
def classMembers (cls : List Char) : List Char := if negatedClass cls then cls.tail else cls

theorem admits_charSymbols (c : Char) :
    charSymbols.admits cls c =
      (charSymbols.contains c (classMembers cls) != negatedClass cls) := rfl

/-- The bytes of an ASCII class are those of its members. -/
theorem admits_encode_of_ascii (hascii : ∀ m ∈ cls, m.toNat < 0x80) (b : UInt8) :
    byteSymbols.admits (utf8Code.encode cls) b =
      (byteSymbols.contains b ((classMembers cls).map fun m => m.val.toUInt8) !=
        negatedClass cls) := by
  have hmark : ∀ {m : Char} {b : UInt8}, utf8Code.code m = [b] →
      ((utf8Code.encode cls).head? == some b) = (cls.head? == some m) := by
    intro m b hm
    rw [Bool.eq_iff_iff, beq_iff_eq, beq_iff_eq]
    exact SelfSyncCode.head?_encode_iff hm cls
  have hnegated : ((utf8Code.encode cls).head? == some byteSymbols.bang ||
      (utf8Code.encode cls).head? == some byteSymbols.caret) = negatedClass cls := by
    rw [hmark (show utf8Code.code '!' = [byteSymbols.bang] from rfl),
      hmark (show utf8Code.code '^' = [byteSymbols.caret] from rfl)]
    rfl
  simp only [GlobSymbols.admits, hnegated, classMembers]
  rw [Utf8.encode_ascii hascii]
  split
  · rw [List.map_tail]
  · rfl

theorem mem_of_mem_classMembers {m : Char} (h : m ∈ classMembers cls) : m ∈ cls := by
  unfold classMembers at h
  split at h
  · exact List.mem_of_mem_tail h
  · exact h

/-- ASCII characters compare as their bytes. -/
theorem toUInt8_ascii {m c : Char} (hm : m.toNat < 0x80) (hc : c.toNat < 0x80) :
    (m.val.toUInt8 = c.val.toUInt8 ↔ m = c) ∧ (m.val.toUInt8 ≤ c.val.toUInt8 ↔ m ≤ c) := by
  rw [← UInt8.toNat_inj, UInt8.le_iff_toNat_le, Utf8.toNat_toUInt8_ascii hm,
    Utf8.toNat_toUInt8_ascii hc]
  exact ⟨Char.toNat_inj, Iff.rfl⟩

/-- **ASCII classes** agree on ASCII characters, and admit no others unless they are
negated. -/
theorem classesAgree_of_ascii (hascii : ∀ m ∈ cls, m.toNat < 0x80)
    (hc : c.toNat < 0x80 ∨ negatedClass cls = false) :
    utf8Code.ClassesAgree charSymbols c (byteSymbols.admits (utf8Code.encode cls))
      (charSymbols.admits cls) := by
  intro _ b hb
  rw [admits_encode_of_ascii hascii, admits_charSymbols]
  have hmembers : ∀ m ∈ classMembers cls, m.toNat < 0x80 := fun m hm =>
    hascii m (mem_of_mem_classMembers hm)
  by_cases hcascii : c.toNat < 0x80
  · have hcode := Utf8.code_ascii hcascii
    rw [hcode] at hb
    obtain rfl := List.mem_singleton.mp hb
    refine ⟨?_, fun _ => hcode⟩
    congr 1
    refine GlobSymbols.contains_map charSymbols (f := fun m : Char => m.val.toUInt8) ?_
    intro m hm
    have hmc := toUInt8_ascii (hmembers m hm) hcascii
    have hcm := toUInt8_ascii hcascii (hmembers m hm)
    have hdash := toUInt8_ascii (hmembers m hm) (show Char.toNat '-' < 0x80 by decide)
    exact ⟨hmc.1, hmc.2, hcm.2, hdash.1⟩
  · -- Neither the character nor its bytes are members.
    have hnegated : negatedClass cls = false := hc.resolve_left hcascii
    have hbyte := Utf8.le_of_mem_code hcascii hb
    have hchar : charSymbols.contains c (classMembers cls) = false := by
      apply GlobSymbols.contains_eq_false
      intro m hm
      have hlt : m.toNat < c.toNat := by
        have := hmembers m hm
        omega
      refine ⟨fun h => ?_, fun h => ?_⟩
      · rw [h] at hlt
        exact lt_irrefl _ hlt
      · exact absurd (show c.toNat ≤ m.toNat from h) (Nat.not_le.mpr hlt)
    have hbytes : byteSymbols.contains b
        ((classMembers cls).map fun m => m.val.toUInt8) = false := by
      apply GlobSymbols.contains_eq_false
      intro m' hm'
      obtain ⟨m, hm, rfl⟩ := List.mem_map.mp hm'
      have hlt : m.val.toUInt8.toNat < b.toNat := by
        have := hmembers m hm
        rw [Utf8.toNat_toUInt8_ascii (hmembers m hm)]
        omega
      refine ⟨fun h => ?_, fun h => ?_⟩
      · rw [h] at hlt
        exact lt_irrefl _ hlt
      · exact absurd (UInt8.le_iff_toNat_le.mp h) (Nat.not_le.mpr hlt)
    rw [hchar, hbytes, hnegated]
    exact ⟨rfl, fun h => absurd h (by decide)⟩

/-- `?` agrees on ASCII characters. -/
theorem questionAgrees_of_ascii (hc : c.toNat < 0x80) :
    utf8Code.ClassesAgree charSymbols c (fun _ => true) fun _ => true := by
  intro _ b hb
  have hcode := Utf8.code_ascii hc
  rw [hcode] at hb
  obtain rfl := List.mem_singleton.mp hb
  exact ⟨rfl, fun _ => hcode⟩

end Ascii

/-- A pattern without `?` whose classes are ASCII and not negated reads every path alike. -/
theorem readsAlike_of_classes {pattern : List Char} (hquestion : '?' ∉ pattern)
    (hclasses : ∀ cls, .cls cls ∈ charSymbols.pieces pattern →
      (∀ m ∈ cls, m.toNat < 0x80) ∧ negatedClass cls = false) (path : List Char) :
    ReadsAlike pattern path := by
  refine SelfSyncCode.readsAlike_of_agreesOn fun q hq c _ => ?_
  have hspelled := GlobSymbols.spelledIn_of_mem_pieces pattern q hq
  cases q with
  | question => exact absurd hspelled hquestion
  | cls cls =>
      obtain ⟨hascii, hnegated⟩ := hclasses cls hq
      exact classesAgree_of_ascii hascii (Or.inr hnegated)
  | _ => trivial

/-- **Literals and stars** read every path alike. -/
theorem readsAlike_of_stars {pattern : List Char} (hquestion : '?' ∉ pattern)
    (hbracket : '[' ∉ pattern) (path : List Char) : ReadsAlike pattern path := by
  apply readsAlike_of_classes hquestion
  intro cls hq
  exact absurd (GlobSymbols.spelledIn_of_mem_pieces pattern _ hq).1 hbracket

/-- **ASCII patterns** read ASCII paths alike. -/
theorem readsAlike_of_ascii {pattern path : List Char} (hpattern : ∀ c ∈ pattern, c.toNat < 0x80)
    (hpath : ∀ c ∈ path, c.toNat < 0x80) : ReadsAlike pattern path := by
  refine SelfSyncCode.readsAlike_of_agreesOn fun q hq c hc => ?_
  have hspelled := GlobSymbols.spelledIn_of_mem_pieces pattern q hq
  cases q with
  | question => exact questionAgrees_of_ascii (hpath c hc)
  | cls cls =>
      exact classesAgree_of_ascii (fun m hm => hpattern m (hspelled.2 m hm)) (Or.inl (hpath c hc))
  | _ => trivial

/-- **`glob_matches` reads bytes**: `?` consumes one byte other than a slash, a bracket
class one byte of the class other than a slash.  The well-formed texts are the encodings
of characters, and on a pattern that reads a path alike the verdict is that of the matcher over
characters.  Literals and stars read every path alike, and an ASCII pattern every ASCII path. -/
theorem globMatches_byCharacter :
    (∀ pattern value, globMatches (questionMark :: pattern) value = true ↔
      ∃ b rest, value = b :: rest ∧ b ≠ slash ∧ globMatches pattern rest = true) ∧
    (∀ cls pattern value, closeBracket ∉ cls →
      (globMatches (openBracket :: cls ++ closeBracket :: pattern) value = true ↔
        ∃ b rest, value = b :: rest ∧ b ≠ slash ∧ classAccepts cls b = true ∧
          globMatches pattern rest = true)) ∧
    (∀ text : Bytes, Utf8.isUtf8 text = true ↔
      ∃ chars : List Char, text = utf8Code.encode chars) ∧
    (∀ pattern path : List Char, ReadsAlike pattern path →
      globMatches (utf8Code.encode pattern) (utf8Code.encode path) =
        charSymbols.isMatch pattern path) ∧
    (∀ pattern path : List Char, '?' ∉ pattern → '[' ∉ pattern → ReadsAlike pattern path) ∧
    ∀ pattern path : List Char, (∀ c ∈ pattern, c.toNat < 0x80) → (∀ c ∈ path, c.toNat < 0x80) →
      ReadsAlike pattern path :=
  ⟨globMatches_question_iff, fun _ pattern value hcls => globMatches_cls_iff hcls pattern value,
    fun _ => Utf8.isUtf8_iff_encode, fun _ _ => globMatches_utf8,
    fun _ path hquestion hbracket => readsAlike_of_stars hquestion hbracket path,
    fun _ _ => readsAlike_of_ascii⟩

/-- A letter and a class of digits in a path with accents, which neither of them meets. -/
theorem globMatches_byCharacter_digits :
    globMatches (utf8Code.encode ['é', '?', '*', '[', '0', '-', '9', ']'])
        (utf8Code.encode ['é', 'a', 'ü', '7']) =
      charSymbols.isMatch ['é', '?', '*', '[', '0', '-', '9', ']'] ['é', 'a', 'ü', '7'] := by
  have hpieces : charSymbols.pieces ['é', '?', '*', '[', '0', '-', '9', ']'] =
      [.lit 'é', .question, .star, .cls ['0', '-', '9']] := by
    simp [GlobSymbols.pieces, charSymbols, Text.splitOnce]
  apply globMatches_byCharacter.2.2.2.1
  rw [ReadsAlike, hpieces]
  -- The question mark stands behind the first letter, and meets the second.
  refine SelfSyncCode.readsAlike_cons_iff.mpr ⟨fun _ _ _ => trivial, ?_⟩
  rintro front behind htext rfl
  obtain rfl := List.append_cancel_left (show ['é'] ++ ['a', 'ü', '7'] = ['é'] ++ behind from htext)
  refine SelfSyncCode.readsAlike_cons_iff.mpr ⟨?_, fun _ behind _ _ => ?_⟩
  · rintro c behind h
    obtain ⟨rfl, -⟩ := List.cons.inj h
    exact questionAgrees_of_ascii (by decide)
  · refine SelfSyncCode.readsAlike_of_agreesOn fun q hq c _ => ?_
    simp only [List.mem_cons, List.not_mem_nil, or_false] at hq
    obtain rfl | rfl := hq
    · trivial
    · refine classesAgree_of_ascii (fun m hm => ?_) (Or.inr rfl)
      simp only [List.mem_cons, List.not_mem_nil, or_false] at hm
      rcases hm with rfl | rfl | rfl <;> decide

/-- One accented letter is one character and two bytes. -/
theorem globMatches_byCharacter_question :
    globMatches (utf8Code.encode ['?']) (utf8Code.encode ['é']) = false ∧
      charSymbols.isMatch ['?'] ['é'] = true ∧
      globMatches (utf8Code.encode ['[', 'à', '-', 'ü', ']']) (utf8Code.encode ['é']) = false ∧
      charSymbols.isMatch ['[', 'à', '-', 'ü', ']'] ['é'] = true := by
  refine ⟨?_, ?_, ?_, ?_⟩ <;> decide +kernel

end DuckdbOpendal
