import Mathlib.Data.List.Basic
import Mathlib.Data.Bool.Basic

/-!
# Well-formed UTF-8

A byte-level recogniser for UTF-8.  A lead byte fixes the ranges its
continuation bytes must fall in (`trail`); `accepts` consumes a text while
holding the ranges still owed.  Overlong forms, surrogates and code points above
`U+10FFFF` are excluded by the first continuation range, so no code point is
ever assembled.

## Main Results

* `Utf8.accepts_append` — what follows a complete text is judged on its own
* `Utf8.isUtf8_append_cons_iff` — a text may be cut at any ASCII byte
* `Utf8.isUtf8_map` — rewriting ASCII bytes into ASCII bytes changes nothing
-/

namespace Utf8

/-- A range of bytes, inclusive. -/
abbrev Range := UInt8 × UInt8

/-- The ranges of the continuation bytes a lead byte calls for. -/
def trail (lead : UInt8) : Option (List Range) :=
  if lead < 0x80 then some []
  else if lead < 0xC2 then none
  else if lead < 0xE0 then some [(0x80, 0xBF)]
  else if lead = 0xE0 then some [(0xA0, 0xBF), (0x80, 0xBF)]
  else if lead = 0xED then some [(0x80, 0x9F), (0x80, 0xBF)]
  else if lead < 0xF0 then some [(0x80, 0xBF), (0x80, 0xBF)]
  else if lead = 0xF0 then some [(0x90, 0xBF), (0x80, 0xBF), (0x80, 0xBF)]
  else if lead < 0xF4 then some [(0x80, 0xBF), (0x80, 0xBF), (0x80, 0xBF)]
  else if lead = 0xF4 then some [(0x80, 0x8F), (0x80, 0xBF), (0x80, 0xBF)]
  else none

/-- Whether a text completes the character whose continuation ranges are owed
and then consists of whole characters. -/
def accepts : List Range → List UInt8 → Bool
  | [], [] => true
  | _ :: _, [] => false
  | [], b :: bs =>
      match trail b with
      | none => false
      | some owed => accepts owed bs
  | r :: owed, b :: bs => decide (r.1 ≤ b) && decide (b ≤ r.2) && accepts owed bs

/-- Whether a text is a sequence of whole UTF-8 characters. -/
def isUtf8 (bs : List UInt8) : Bool := accepts [] bs

@[simp] theorem isUtf8_nil : isUtf8 [] = true := rfl

theorem trail_ascii {b : UInt8} (hb : b < 0x80) : trail b = some [] := by
  simp [trail, hb]

@[simp] theorem isUtf8_ascii_cons {b : UInt8} (hb : b < 0x80) (bs : List UInt8) :
    isUtf8 (b :: bs) = isUtf8 bs := by
  simp [isUtf8, accepts, trail_ascii hb]

theorem isUtf8_of_forall_ascii {bs : List UInt8} (h : ∀ b ∈ bs, b < 0x80) :
    isUtf8 bs = true := by
  induction bs with
  | nil => rfl
  | cons b bs ih =>
      rw [isUtf8_ascii_cons (h b List.mem_cons_self)]
      exact ih fun c hc => h c (List.mem_cons_of_mem _ hc)

/-- What follows a complete text is judged on its own. -/
theorem accepts_append {owed : List Range} {as : List UInt8}
    (h : accepts owed as = true) (bs : List UInt8) :
    accepts owed (as ++ bs) = isUtf8 bs := by
  induction as generalizing owed with
  | nil =>
      cases owed with
      | nil => rfl
      | cons r owed => simp [accepts] at h
  | cons a as ih =>
      cases owed with
      | nil =>
          simp only [accepts, List.cons_append] at h ⊢
          cases ht : trail a with
          | none => simp [ht] at h
          | some owed => simpa [ht] using ih (by simpa [ht] using h)
      | cons r owed =>
          simp only [accepts, List.cons_append, Bool.and_eq_true] at h ⊢
          rw [ih h.2, h.1.1, h.1.2]
          simp

theorem isUtf8_append {as bs : List UInt8} (ha : isUtf8 as = true) :
    isUtf8 (as ++ bs) = isUtf8 bs := accepts_append ha bs

/-- Continuation bytes are never ASCII. -/
def Continuation (owed : List Range) : Prop := ∀ r ∈ owed, (0x80 : UInt8) ≤ r.1

theorem continuation_trail {b : UInt8} {owed : List Range}
    (h : trail b = some owed) : Continuation owed := by
  intro r hr
  unfold trail at h
  split_ifs at h <;> cases h <;>
    simp only [List.mem_cons, List.not_mem_nil, or_false] at hr <;>
    rcases hr with rfl | rfl | rfl <;> decide

theorem continuation_tail {r : Range} {owed : List Range}
    (h : Continuation (r :: owed)) : Continuation owed :=
  fun r' hr' => h r' (List.mem_cons_of_mem _ hr')

/-- **A text may be cut at any ASCII byte**: no character spans it. -/
theorem accepts_append_cons_iff {owed : List Range} (howed : Continuation owed)
    {c : UInt8} (hc : c < 0x80) {as bs : List UInt8} :
    accepts owed (as ++ c :: bs) = true ↔
      accepts owed as = true ∧ isUtf8 bs = true := by
  induction as generalizing owed with
  | nil =>
      cases owed with
      | nil => simp [accepts, trail_ascii hc, isUtf8]
      | cons r owed =>
          have hlt : ¬ r.1 ≤ c := fun hle =>
            absurd (UInt8.lt_of_le_of_lt (UInt8.le_trans
              (howed r List.mem_cons_self) hle) hc) (by decide)
          simp [accepts, hlt]
  | cons a as ih =>
      cases owed with
      | nil =>
          simp only [accepts, List.cons_append]
          cases ht : trail a with
          | none => simp
          | some owed => exact ih (continuation_trail ht)
      | cons r owed =>
          simp only [accepts, List.cons_append, Bool.and_eq_true,
            ih (continuation_tail howed), and_assoc]

theorem isUtf8_append_cons_iff {c : UInt8} (hc : c < 0x80) {as bs : List UInt8} :
    isUtf8 (as ++ c :: bs) = true ↔ isUtf8 as = true ∧ isUtf8 bs = true :=
  accepts_append_cons_iff (fun _ hr => absurd hr List.not_mem_nil) hc

/-- **Rewriting ASCII bytes into ASCII bytes** keeps a text well formed or
ill formed. -/
theorem accepts_map {f : UInt8 → UInt8} (hascii : ∀ b, b < 0x80 → f b < 0x80)
    (hhigh : ∀ b, ¬ b < 0x80 → f b = b) {owed : List Range}
    (howed : Continuation owed) (bs : List UInt8) :
    accepts owed (bs.map f) = accepts owed bs := by
  induction bs generalizing owed with
  | nil => rfl
  | cons b bs ih =>
      by_cases hb : b < 0x80
      · cases owed with
        | nil =>
            have hrest : accepts [] (bs.map f) = accepts [] bs :=
              ih fun _ hr => absurd hr List.not_mem_nil
            simp [accepts, trail_ascii hb, trail_ascii (hascii b hb), hrest]
        | cons r owed =>
            have hnot : ∀ c : UInt8, c < 0x80 → ¬ r.1 ≤ c := fun c hc hle =>
              absurd (UInt8.lt_of_le_of_lt (UInt8.le_trans
                (howed r List.mem_cons_self) hle) hc) (by decide)
            simp [accepts, hnot b hb, hnot _ (hascii b hb)]
      · cases owed with
        | nil =>
            simp only [List.map_cons, accepts, hhigh b hb]
            cases ht : trail b with
            | none => rfl
            | some owed => exact ih (continuation_trail ht)
        | cons r owed =>
            simp only [List.map_cons, accepts, hhigh b hb,
              ih (continuation_tail howed)]

theorem isUtf8_map {f : UInt8 → UInt8} (hascii : ∀ b, b < 0x80 → f b < 0x80)
    (hhigh : ∀ b, ¬ b < 0x80 → f b = b) (bs : List UInt8) :
    isUtf8 (bs.map f) = isUtf8 bs :=
  accepts_map hascii hhigh (fun _ hr => absurd hr List.not_mem_nil) bs

end Utf8
