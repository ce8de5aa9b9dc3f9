import Mathlib.Data.List.Basic
import Mathlib.Data.List.Infix
import Mathlib.Tactic.IntervalCases
import Mathlib.Tactic.Common
import DuckdbOpendal.Lib.Text

/-!
# Percent-encoding

Percent-encoding of byte texts with respect to a set of bytes to escape, and the
decoder that reads `%XX` in either letter case and leaves a `%` that starts no
escape alone.  `encode` and `decode` follow `utf8_percent_encode` and
`percent_decode_str` of the crate `percent_encoding`.

## Main Results

* `PercentCode.decode_encode` — decoding undoes encoding, whatever set is
  escaped, as long as `%` itself is
* `PercentCode.map_encode` — rewriting unescaped bytes commutes with encoding
* `PercentCode.escape_not_infix_encode` — a byte that is left plain never shows
  up escaped
* `PercentCode.hasEscape_iff_splitOn`, `PercentCode.splitOn_decode_iff` — decoding piece
  by piece
-/

namespace PercentCode

/-- `%`. -/
abbrev percent : UInt8 := 0x25

/-- The upper-case hexadecimal digit of a value below 16. -/
def hexDigit (n : UInt8) : UInt8 := if n < 10 then 0x30 + n else 0x37 + n

/-- The value of a hexadecimal digit, in either letter case. -/
def hexValue (b : UInt8) : Option UInt8 :=
  if 0x30 ≤ b ∧ b ≤ 0x39 then some (b - 0x30)
  else if 0x41 ≤ b ∧ b ≤ 0x46 then some (b - 0x37)
  else if 0x61 ≤ b ∧ b ≤ 0x66 then some (b - 0x57)
  else none

/-- The escape of one byte. -/
def escapeByte (b : UInt8) : List UInt8 :=
  [percent, hexDigit (b / 16), hexDigit (b % 16)]

/-- Percent-encode a text, escaping the bytes of a set (`utf8_percent_encode`). -/
def encode (escape : UInt8 → Bool) (bs : List UInt8) : List UInt8 :=
  bs.flatMap fun b => if escape b then escapeByte b else [b]

/-- Percent-decode a text, left to right (`percent_decode_str`). -/
def decode : List UInt8 → List UInt8
  | [] => []
  | [b] => [b]
  | [b, c] => [b, c]
  | b :: h :: l :: rest =>
      if b = percent then
        match hexValue h, hexValue l with
        | some hi, some lo => (16 * hi + lo) :: decode rest
        | _, _ => b :: decode (h :: l :: rest)
      else b :: decode (h :: l :: rest)

theorem decode_cons_of_ne {b : UInt8} (hb : b ≠ percent) (bs : List UInt8) :
    decode (b :: bs) = b :: decode bs := by
  match bs with
  | [] => rfl
  | [_] => rfl
  | _ :: _ :: _ => rw [decode, if_neg hb]

/-! ## The hexadecimal digits -/

/-- A property of every digit value can be checked value by value. -/
theorem forall_digit {p : UInt8 → Prop} (h : ∀ n : Fin 16, p (UInt8.ofNat n))
    {d : UInt8} (hd : d < 16) : p d := by
  have hlt : d.toNat < 16 := UInt8.lt_iff_toNat_lt.mp hd
  simpa using h ⟨d.toNat, hlt⟩

theorem div_lt (b : UInt8) : b / 16 < 16 := by
  rw [UInt8.lt_iff_toNat_lt, UInt8.toNat_div]
  have := b.toNat_lt
  simp only [UInt8.reduceToNat]
  omega

theorem mod_lt (b : UInt8) : b % 16 < 16 := UInt8.mod_lt b (by decide)

theorem hexValue_hexDigit {d : UInt8} (hd : d < 16) :
    hexValue (hexDigit d) = some d :=
  forall_digit (p := fun d => hexValue (hexDigit d) = some d) (by decide) hd

theorem div_add_mod (b : UInt8) : 16 * (b / 16) + b % 16 = b := by
  apply UInt8.toNat_inj.mp
  have := b.toNat_lt
  simp only [UInt8.toNat_add, UInt8.toNat_mul, UInt8.toNat_div, UInt8.toNat_mod,
    UInt8.reduceToNat]
  omega

/-- A hexadecimal digit is a decimal digit or an upper-case letter. -/
theorem hexDigit_range {d : UInt8} (hd : d < 16) :
    (0x30 ≤ hexDigit d ∧ hexDigit d ≤ 0x39) ∨
      (0x41 ≤ hexDigit d ∧ hexDigit d ≤ 0x46) :=
  forall_digit (p := fun d => (0x30 ≤ hexDigit d ∧ hexDigit d ≤ 0x39) ∨
    (0x41 ≤ hexDigit d ∧ hexDigit d ≤ 0x46)) (by decide) hd

theorem hexDigit_ne_percent {d : UInt8} (hd : d < 16) : hexDigit d ≠ percent :=
  forall_digit (p := fun d => hexDigit d ≠ percent) (by decide) hd

/-- A property of every byte can be checked byte by byte. -/
theorem forall_byte {p : UInt8 → Prop} (h : ∀ n : Fin 256, p (UInt8.ofNat n)) (b : UInt8) :
    p b := by
  simpa using h ⟨b.toNat, b.toNat_lt⟩

/-- A digit is the upper-case one of its value, or the lower-case letter. -/
theorem digit_of_hexValue {d v : UInt8} (h : hexValue d = some v) :
    v < 16 ∧ (d = hexDigit v ∨ 10 ≤ v ∧ d = hexDigit v + 0x20) :=
  forall_byte (p := fun d => ∀ v ∈ hexValue d,
    v < 16 ∧ (d = hexDigit v ∨ 10 ≤ v ∧ d = hexDigit v + 0x20)) (by decide +kernel) d v h

/-- The two digits of an escape are those of the byte. -/
theorem escape_eq_iff {hi lo c : UInt8} (hhi : hi < 16) (hlo : lo < 16) :
    16 * hi + lo = c ↔ hi = c / 16 ∧ lo = c % 16 := by
  constructor
  · rintro rfl
    rw [UInt8.lt_iff_toNat_lt] at hhi hlo
    simp only [UInt8.reduceToNat] at hhi hlo
    constructor <;> apply UInt8.toNat_inj.mp <;>
      simp only [UInt8.toNat_add, UInt8.toNat_mul, UInt8.toNat_div, UInt8.toNat_mod,
        UInt8.reduceToNat] <;> omega
  · rintro ⟨rfl, rfl⟩
    exact div_add_mod c

/-- The text of an escape is `%` and two hexadecimal digits. -/
theorem mem_escapeByte {b c : UInt8} (h : c ∈ escapeByte b) :
    c = percent ∨ (0x30 ≤ c ∧ c ≤ 0x39) ∨ (0x41 ≤ c ∧ c ≤ 0x46) := by
  simp only [escapeByte, List.mem_cons, List.not_mem_nil, or_false] at h
  rcases h with rfl | rfl | rfl
  · exact Or.inl rfl
  · exact Or.inr (hexDigit_range (div_lt b))
  · exact Or.inr (hexDigit_range (mod_lt b))

/-! ## Round trip -/

theorem decode_escapeByte_append (b : UInt8) (rest : List UInt8) :
    decode (escapeByte b ++ rest) = b :: decode rest := by
  simp only [escapeByte, List.cons_append, List.nil_append, decode, if_true,
    hexValue_hexDigit (div_lt b), hexValue_hexDigit (mod_lt b), div_add_mod]

theorem encode_cons (escape : UInt8 → Bool) (b : UInt8) (bs : List UInt8) :
    encode escape (b :: bs) =
      (if escape b then escapeByte b else [b]) ++ encode escape bs := rfl

@[simp] theorem encode_nil (escape : UInt8 → Bool) : encode escape [] = [] := rfl

@[simp] theorem encode_append (escape : UInt8 → Bool) (as bs : List UInt8) :
    encode escape (as ++ bs) = encode escape as ++ encode escape bs :=
  List.flatMap_append

/-- **Decoding undoes encoding.** -/
theorem decode_encode {escape : UInt8 → Bool} (hpct : escape percent = true)
    (bs : List UInt8) : decode (encode escape bs) = bs := by
  induction bs with
  | nil => rfl
  | cons b bs ih =>
      rw [encode_cons]
      by_cases hb : escape b = true
      · rw [if_pos hb, decode_escapeByte_append, ih]
      · have hne : b ≠ percent := fun h => hb (h ▸ hpct)
        rw [if_neg hb, List.singleton_append, decode_cons_of_ne hne, ih]

/-- Rewriting bytes that are left plain into bytes that are left plain commutes
with encoding. -/
theorem map_encode {escape : UInt8 → Bool} {f : UInt8 → UInt8}
    (hplain : ∀ b, escape b = false → escape (f b) = false)
    (hescaped : ∀ b, escape b = true → f b = b)
    (hdigit : ∀ b, ∀ c ∈ escapeByte b, f c = c) (bs : List UInt8) :
    (encode escape bs).map f = encode escape (bs.map f) := by
  induction bs with
  | nil => rfl
  | cons b bs ih =>
      rw [encode_cons, List.map_cons, encode_cons, List.map_append, ih]
      cases hb : escape b with
      | true =>
          rw [hescaped b hb, hb, if_pos rfl,
            List.map_congr_left (hdigit b), List.map_id']
      | false => simp [hplain b hb]

/-- The bytes of an encoded text: those left plain, and the text of escapes. -/
theorem mem_encode {escape : UInt8 → Bool} {bs : List UInt8} {c : UInt8}
    (h : c ∈ encode escape bs) :
    (c ∈ bs ∧ escape c = false) ∨
      c = percent ∨ (0x30 ≤ c ∧ c ≤ 0x39) ∨ (0x41 ≤ c ∧ c ≤ 0x46) := by
  obtain ⟨b, hb, hc⟩ := List.mem_flatMap.mp h
  cases he : escape b with
  | true =>
      rw [he, if_pos rfl] at hc
      exact Or.inr (mem_escapeByte hc)
  | false =>
      rw [he] at hc
      obtain rfl : c = b := by simpa using hc
      exact Or.inl ⟨hb, he⟩

/-- A byte that is left plain and is not part of an escape is in the encoded text if and
only if it is in the text. -/
theorem mem_encode_iff {escape : UInt8 → Bool} {c : UInt8} (hplain : escape c = false)
    (hdigit : ¬ (c = percent ∨ (0x30 ≤ c ∧ c ≤ 0x39) ∨ (0x41 ≤ c ∧ c ≤ 0x46)))
    (bs : List UInt8) : c ∈ encode escape bs ↔ c ∈ bs := by
  constructor
  · intro h
    exact ((mem_encode h).resolve_right hdigit).1
  · intro h
    refine List.mem_flatMap.mpr ⟨c, h, ?_⟩
    rw [if_neg (by simp [hplain])]
    exact List.mem_singleton_self c

/-! ## Escapes that cannot occur -/

/-- **A byte that is left plain never shows up escaped**: an encoded text does
not contain the escape of `b`, in either letter case, unless `b` is escaped.
`lower` is any rewriting that fixes `%` and reads digits alike. -/
theorem escape_not_infix_encode {escape : UInt8 → Bool} {lower : UInt8 → UInt8}
    {b h l : UInt8} (hpct : escape percent = true) (hb : escape b = false)
    (hfix : ∀ c, lower c = percent ↔ c = percent)
    (hread : ∀ c, lower (hexDigit (c / 16)) = h → lower (hexDigit (c % 16)) = l →
      c = b) (bs : List UInt8) :
    ¬ [percent, h, l] <:+: (encode escape bs).map lower := by
  induction bs with
  | nil => simp
  | cons c bs ih =>
      rw [encode_cons, List.map_append]
      have hskip : ∀ (x : UInt8) (xs : List UInt8), x ≠ percent →
          [percent, h, l] <:+: lower x :: xs → [percent, h, l] <:+: xs := by
        intro x xs hx hin
        rcases List.infix_cons_iff.mp hin with hpre | hin
        · have := (List.cons_prefix_cons.mp hpre).1
          exact absurd ((hfix x).mp this.symm) hx
        · exact hin
      cases hc : escape c with
      | false =>
          have hne : c ≠ percent := fun h => by simp [h, hpct] at hc
          intro hin
          exact ih (hskip c _ hne (by simpa using hin))
      | true =>
          intro hin
          simp only [if_true, escapeByte, List.map_cons, List.map_nil,
            List.cons_append, List.nil_append] at hin
          rcases List.infix_cons_iff.mp hin with hpre | hin
          · obtain ⟨-, hpre⟩ := List.cons_prefix_cons.mp hpre
            obtain ⟨hh, hpre⟩ := List.cons_prefix_cons.mp hpre
            obtain ⟨hl, -⟩ := List.cons_prefix_cons.mp hpre
            rw [hread c hh.symm hl.symm, hb] at hc
            exact Bool.noConfusion hc
          · exact ih (hskip _ _ (hexDigit_ne_percent (mod_lt c))
              (hskip _ _ (hexDigit_ne_percent (div_lt c)) hin))

/-! ## What decoding can bring in -/

/-- A text has an escape of a byte, in either letter case. -/
def HasEscape (c : UInt8) (bs : List UInt8) : Prop :=
  ∃ h l hi lo, [percent, h, l] <:+: bs ∧ hexValue h = some hi ∧ hexValue l = some lo ∧
    16 * hi + lo = c

theorem HasEscape.cons {c b : UInt8} {bs : List UInt8} (h : HasEscape c bs) :
    HasEscape c (b :: bs) := by
  obtain ⟨h, l, hi, lo, hinfix, hh, hl, hc⟩ := h
  exact ⟨h, l, hi, lo, List.infix_cons hinfix, hh, hl, hc⟩

/-- In front of a text, a byte that is not `%` starts no escape. -/
theorem hasEscape_cons_of_ne {c b : UInt8} (hb : b ≠ percent) {bs : List UInt8} :
    HasEscape c (b :: bs) ↔ HasEscape c bs := by
  refine ⟨?_, HasEscape.cons⟩
  rintro ⟨h, l, hi, lo, hinfix, hh, hl, hc⟩
  rcases List.infix_cons_iff.mp hinfix with hstarts | hinfix
  · exact absurd (List.cons_prefix_cons.mp hstarts).1.symm hb
  · exact ⟨h, l, hi, lo, hinfix, hh, hl, hc⟩

theorem digits_of_prefix {h l h' l' : UInt8} {rest : List UInt8}
    (hstarts : [percent, h', l'] <+: percent :: h :: l :: rest) : h' = h ∧ l' = l := by
  obtain ⟨tail, htail⟩ := hstarts
  simp only [List.cons_append, List.nil_append, List.cons.injEq] at htail
  exact ⟨htail.2.1, htail.2.2.1⟩

theorem ne_percent_of_hexValue {b v : UInt8} (h : hexValue b = some v) : b ≠ percent := by
  rintro rfl
  cases h

/-- **What decoding can bring in**: a byte that is neither `%` nor a digit is in the
decoded text if and only if it is in the text, as itself or as an escape. -/
theorem mem_decode_iff {c : UInt8} (hc : c ≠ percent) (hdigit : hexValue c = none)
    (bs : List UInt8) : c ∈ decode bs ↔ c ∈ bs ∨ HasEscape c bs := by
  have hshort : ∀ {bs : List UInt8}, bs.length < 3 → ¬ HasEscape c bs := by
    rintro bs hlen ⟨h, l, hi, lo, hinfix, -⟩
    have hle := hinfix.length_le
    simp only [List.length_cons, List.length_nil] at hle
    omega
  have hne : ∀ {b v : UInt8}, hexValue b = some v → c ≠ b := by
    rintro b v hb rfl
    rw [hdigit] at hb
    cases hb
  induction bs using decode.induct with
  | case1 => simp [decode, hshort]
  | case2 b => simp [decode, hshort]
  | case3 b b' => simp [decode, hshort]
  | case4 h l rest hi lo hl hh ih =>
      simp only [decode, if_true, hh, hl, List.mem_cons, hc, hne hh, hne hl, false_or]
      refine (or_congr_right ih).trans ?_
      constructor
      · rintro (rfl | hmem | hescape)
        · exact Or.inr ⟨h, l, hi, lo, ⟨[], rest, rfl⟩, hh, hl, rfl⟩
        · exact Or.inl hmem
        · exact Or.inr hescape.cons.cons.cons
      · rintro (hmem | ⟨h', l', hi', lo', hinfix, hh', hl', heq⟩)
        · exact Or.inr (Or.inl hmem)
        · rcases List.infix_cons_iff.mp hinfix with hstarts | hinfix
          · -- The escape in front is the one just decoded.
            obtain ⟨rfl, rfl⟩ := digits_of_prefix hstarts
            cases hh.symm.trans hh'
            cases hl.symm.trans hl'
            exact Or.inl heq.symm
          · have hrest : HasEscape c (h :: l :: rest) :=
              ⟨h', l', hi', lo', hinfix, hh', hl', heq⟩
            rw [hasEscape_cons_of_ne (ne_percent_of_hexValue hh),
              hasEscape_cons_of_ne (ne_percent_of_hexValue hl)] at hrest
            exact Or.inr (Or.inr hrest)
  | case5 h l rest hnone ih =>
      -- A `%` without two digits behind it stays, and starts no escape.
      have hfront : HasEscape c (percent :: h :: l :: rest) ↔ HasEscape c (h :: l :: rest) := by
        refine ⟨?_, HasEscape.cons⟩
        rintro ⟨h', l', hi', lo', hinfix, hh', hl', heq⟩
        rcases List.infix_cons_iff.mp hinfix with hstarts | hinfix
        · obtain ⟨rfl, rfl⟩ := digits_of_prefix hstarts
          exact absurd hl' (hnone _ _ hh')
        · exact ⟨h', l', hi', lo', hinfix, hh', hl', heq⟩
      have hplain : decode (percent :: h :: l :: rest) = percent :: decode (h :: l :: rest) := by
        rw [decode, if_pos rfl]
        cases hh : hexValue h with
        | none => rfl
        | some hi =>
            cases hl : hexValue l with
            | none => rfl
            | some lo => exact absurd hl (hnone _ _ hh)
      rw [hplain, List.mem_cons, hfront, List.mem_cons, or_assoc]
      exact or_congr_right ih
  | case6 b h l rest hb ih =>
      rw [decode_cons_of_ne hb, List.mem_cons, hasEscape_cons_of_ne hb, List.mem_cons, or_assoc]
      exact or_congr_right ih

/-! ## Decoding piece by piece -/

/-- A byte that starts no escape stays. -/
theorem decode_cons_of_not_escape {b : UInt8} {bs : List UInt8}
    (h : ∀ d e rest hi lo, bs = d :: e :: rest → hexValue d = some hi → hexValue e ≠ some lo) :
    decode (b :: bs) = b :: decode bs := by
  match bs with
  | [] => rfl
  | [_] => rfl
  | d :: e :: rest =>
      rw [decode]
      split
      · split
        · rename_i hi lo hd he
          exact absurd he (h d e rest hi lo rfl hd)
        · rfl
      · rfl

theorem decode_escape {d e hi lo : UInt8} (hd : hexValue d = some hi) (he : hexValue e = some lo)
    (rest : List UInt8) : decode (percent :: d :: e :: rest) = (16 * hi + lo) :: decode rest := by
  rw [decode, if_pos rfl, hd, he]

/-- A text has an escape of a byte if and only if it has one with the digits of the byte. -/
theorem hasEscape_iff (c : UInt8) (bs : List UInt8) :
    HasEscape c bs ↔ ∃ d e, [percent, d, e] <:+: bs ∧ hexValue d = some (c / 16) ∧
      hexValue e = some (c % 16) := by
  constructor
  · rintro ⟨d, e, hi, lo, hinfix, hd, he, hc⟩
    obtain ⟨rfl, rfl⟩ :=
      (escape_eq_iff (digit_of_hexValue hd).1 (digit_of_hexValue he).1).mp hc
    exact ⟨d, e, hinfix, hd, he⟩
  · rintro ⟨d, e, hinfix, hd, he⟩
    exact ⟨d, e, _, _, hinfix, hd, he, div_add_mod c⟩

/-- A text spells a byte: as itself or as an escape. -/
def Spells (c : UInt8) (piece : List UInt8) : Prop :=
  piece = [c] ∨ ∃ d e hi lo, piece = [percent, d, e] ∧ hexValue d = some hi ∧
    hexValue e = some lo ∧ 16 * hi + lo = c

/-- **The first decoded byte**, and the text that spells it. -/
theorem decode_eq_cons_iff {c : UInt8} (hc : c ≠ percent) {s rest : List UInt8} :
    decode s = c :: rest ↔ ∃ piece t, s = piece ++ t ∧ Spells c piece ∧ decode t = rest := by
  constructor
  · intro h
    induction s using decode.induct with
    | case1 => cases h
    | case2 b =>
        cases h
        exact ⟨[c], [], rfl, Or.inl rfl, rfl⟩
    | case3 b b' =>
        cases h
        exact ⟨[c], [b'], rfl, Or.inl rfl, rfl⟩
    | case4 d e tail hi lo hlo hhi =>
        rw [decode_escape hhi hlo] at h
        obtain ⟨heq, rfl⟩ := List.cons.inj h
        exact ⟨[percent, d, e], tail, rfl, Or.inr ⟨d, e, hi, lo, rfl, hhi, hlo, heq⟩, rfl⟩
    | case5 d e tail hnone =>
        -- A `%` that starts no escape stays, and is not the byte.
        rw [decode_cons_of_not_escape] at h
        · exact absurd (List.cons.inj h).1.symm hc
        · rintro d' e' rest' hi lo heq hhi hlo
          cases heq
          exact hnone hi lo hhi hlo
    | case6 b d e tail hb =>
        rw [decode_cons_of_ne hb] at h
        obtain ⟨rfl, rfl⟩ := List.cons.inj h
        exact ⟨[b], d :: e :: tail, rfl, Or.inl rfl, rfl⟩
  · rintro ⟨piece, t, rfl, rfl | ⟨d, e, hi, lo, rfl, hd, he, rfl⟩, rfl⟩
    · exact decode_cons_of_ne hc t
    · exact decode_escape hd he t

theorem decode_eq_nil_iff {s : List UInt8} : decode s = [] ↔ s = [] := by
  constructor
  · intro h
    induction s using decode.induct with
    | case1 => rfl
    | case2 b => cases h
    | case3 b b' => cases h
    | case4 d e tail hi lo hlo hhi =>
        rw [decode_escape hhi hlo] at h
        cases h
    | case5 d e tail hnone =>
        rw [decode_cons_of_not_escape] at h
        · cases h
        · rintro d' e' rest' hi lo heq hhi hlo
          cases heq
          exact hnone hi lo hhi hlo
    | case6 b d e tail hb =>
        rw [decode_cons_of_ne hb] at h
        cases h
  · rintro rfl
    rfl

section Pieces

variable {c : UInt8} (hc : c ≠ percent) (hdigit : hexValue c = none)
include hc hdigit

/-- **A byte that is neither `%` nor a digit cuts the decoding.** -/
theorem decode_append_cons (xs ys : List UInt8) :
    decode (xs ++ c :: ys) = decode xs ++ c :: decode ys := by
  induction xs using decode.induct with
  | case1 => exact decode_cons_of_ne hc ys
  | case2 b =>
      show decode (b :: c :: ys) = b :: c :: decode ys
      rw [decode_cons_of_not_escape, decode_cons_of_ne hc]
      rintro d e rest hi lo heq hd
      cases heq
      rw [hdigit] at hd
      cases hd
  | case3 b b' =>
      show decode (b :: b' :: c :: ys) = b :: b' :: c :: decode ys
      rw [decode_cons_of_not_escape, decode_cons_of_not_escape, decode_cons_of_ne hc]
      · rintro d e rest hi lo heq hd
        cases heq
        rw [hdigit] at hd
        cases hd
      · rintro d e rest hi lo heq -
        cases heq
        rw [hdigit]
        exact Option.some_ne_none lo |>.symm
  | case4 d e rest hi lo hlo hhi ih =>
      show decode (percent :: d :: e :: (rest ++ c :: ys)) = _
      rw [decode_escape hhi hlo, decode_escape hhi hlo, ih, List.cons_append]
  | case5 d e rest hnone ih =>
      have hplain : ∀ tail,
          decode (percent :: d :: e :: tail) = percent :: decode (d :: e :: tail) :=
        fun tail => decode_cons_of_not_escape (by
          rintro d' e' rest' hi lo heq hhi hlo
          cases heq
          exact hnone hi lo hhi hlo)
      show decode (percent :: d :: e :: (rest ++ c :: ys)) = _
      rw [hplain, hplain, List.cons_append, ← ih]
      rfl
  | case6 b d e rest hb ih =>
      show decode (b :: (d :: e :: rest ++ c :: ys)) = _
      rw [decode_cons_of_ne hb, decode_cons_of_ne hb, ih, List.cons_append]

/-- An escape lies within one piece. -/
theorem hasEscape_append_cons_iff {k : UInt8} {xs ys : List UInt8} :
    HasEscape k (xs ++ c :: ys) ↔ HasEscape k xs ∨ HasEscape k ys := by
  constructor
  · rintro ⟨d, e, hi, lo, hinfix, hd, he, hk⟩
    have hnot : c ∉ [percent, d, e] := by
      simp only [List.mem_cons, List.not_mem_nil, or_false, not_or]
      refine ⟨hc, ?_, ?_⟩
      · rintro rfl
        rw [hdigit] at hd
        cases hd
      · rintro rfl
        rw [hdigit] at he
        cases he
    exact ((Text.infix_append_cons_iff hnot).mp hinfix).imp
      (fun h => ⟨d, e, hi, lo, h, hd, he, hk⟩) fun h => ⟨d, e, hi, lo, h, hd, he, hk⟩
  · rintro (⟨d, e, hi, lo, hinfix, h⟩ | ⟨d, e, hi, lo, hinfix, h⟩)
    · exact ⟨d, e, hi, lo, hinfix.trans (List.prefix_append xs _).isInfix, h⟩
    · exact ⟨d, e, hi, lo,
        hinfix.trans ((List.suffix_cons c ys).trans (List.suffix_append xs _)).isInfix, h⟩

/-- **An escaped separator is one that some piece decodes to.** -/
theorem hasEscape_iff_splitOn (bs : List UInt8) :
    HasEscape c bs ↔ ∃ s ∈ bs.splitOn c, c ∈ decode s := by
  have hpiece : ∀ {s}, c ∉ s → (HasEscape c s ↔ c ∈ decode s) := by
    intro s hs
    rw [mem_decode_iff hc hdigit, or_iff_right hs]
  induction bs using Text.induction_cuts c with
  | uncut x hx => simp [List.splitOn_eq_singleton hx, hpiece hx]
  | cut x y hx ih =>
      simp only [List.splitOn_append_cons_self_of_not_mem hx, List.mem_cons, exists_eq_or_imp]
      rw [hasEscape_append_cons_iff hc hdigit]
      exact or_congr (hpiece hx) ih

/-- **Decoding commutes with splitting** exactly when no separator is escaped. -/
theorem splitOn_decode_iff (bs : List UInt8) :
    (decode bs).splitOn c = (bs.splitOn c).map decode ↔ ¬ HasEscape c bs := by
  constructor
  · intro h hescape
    obtain ⟨s, hs, hmem⟩ := (hasEscape_iff_splitOn hc hdigit bs).mp hescape
    exact Text.notMem_of_mem_splitOn (h ▸ List.mem_map_of_mem hs) hmem
  · intro hplain
    induction bs using Text.induction_cuts c with
    | uncut x hx =>
        have hdecode : c ∉ decode x := by
          rw [mem_decode_iff hc hdigit, not_or]
          exact ⟨hx, hplain⟩
        rw [List.splitOn_eq_singleton hx, List.splitOn_eq_singleton hdecode, List.map_singleton]
    | cut x y hx ih =>
        rw [hasEscape_append_cons_iff hc hdigit, not_or] at hplain
        have hdecode : c ∉ decode x := by
          rw [mem_decode_iff hc hdigit, not_or]
          exact ⟨hx, hplain.1⟩
        rw [decode_append_cons hc hdigit, List.splitOn_append_cons_self_of_not_mem hdecode,
          List.splitOn_append_cons_self_of_not_mem hx, List.map_cons, ih hplain.2]

end Pieces

/-! ## Texts without escapes -/

theorem length_decode_le (bs : List UInt8) : (decode bs).length ≤ bs.length := by
  induction bs using decode.induct with
  | case1 | case2 b | case3 b b' => exact le_rfl
  | case4 d e rest hi lo hlo hhi ih =>
      rw [decode_escape hhi hlo]
      simp only [List.length_cons]
      omega
  | case5 d e rest hnone ih =>
      rw [decode_cons_of_not_escape]
      · exact Nat.succ_le_succ ih
      · rintro d' e' rest' hi lo heq hhi hlo
        cases heq
        exact hnone hi lo hhi hlo
  | case6 b d e rest hb ih =>
      rw [decode_cons_of_ne hb]
      exact Nat.succ_le_succ ih

/-- **An escape makes a text shorter.** -/
theorem length_decode_lt {c : UInt8} {bs : List UInt8} (h : HasEscape c bs) :
    (decode bs).length < bs.length := by
  have hshort : ∀ {bs : List UInt8}, bs.length < 3 → ¬ HasEscape c bs := by
    rintro bs hlen ⟨h, l, hi, lo, hinfix, -⟩
    have hle := hinfix.length_le
    simp only [List.length_cons, List.length_nil] at hle
    omega
  induction bs using decode.induct with
  | case1 | case2 b | case3 b b' => exact absurd h (hshort (by simp))
  | case4 d e rest hi lo hlo hhi =>
      have hle := length_decode_le rest
      rw [decode_escape hhi hlo]
      simp only [List.length_cons]
      omega
  | case5 d e rest hnone ih =>
      obtain ⟨d', e', hi, lo, hinfix, hd, he, hc⟩ := h
      rcases List.infix_cons_iff.mp hinfix with hstarts | hinfix
      · obtain ⟨rfl, rfl⟩ := digits_of_prefix hstarts
        exact absurd he (hnone hi lo hd)
      · rw [decode_cons_of_not_escape]
        · exact Nat.succ_lt_succ (ih ⟨d', e', hi, lo, hinfix, hd, he, hc⟩)
        · rintro d e rest hi lo heq hhi hlo
          cases heq
          exact hnone hi lo hhi hlo
  | case6 b d e rest hb ih =>
      rw [decode_cons_of_ne hb]
      exact Nat.succ_lt_succ (ih ((hasEscape_cons_of_ne hb).mp h))

/-- **A text without escapes is decoded to itself.** -/
theorem decode_eq_self {bs : List UInt8} (h : ∀ c, ¬ HasEscape c bs) : decode bs = bs := by
  induction bs with
  | nil => rfl
  | cons b bs ih =>
      have hrest := ih fun c hc => h c hc.cons
      by_cases hb : b = percent
      · subst hb
        rw [decode_cons_of_not_escape, hrest]
        rintro d e rest hi lo rfl hd he
        exact h _ ⟨d, e, hi, lo, (List.prefix_append [percent, d, e] rest).isInfix, hd, he, rfl⟩
      · rw [decode_cons_of_ne hb, hrest]

end PercentCode
