import DuckdbOpendal.OptionValues

/-!
# Sizes with a unit

`parse_bytes` of `opendal/src/config/value.rs` on the sizes its table spells: a number, spaces
and a unit.  It multiplies before it divides by eight, and a number of bits that does not fit a
`u64` is no size even where its bytes do.

## Main Definitions

* `sizeText` — a number, spaces and a unit
* `Measures` — how many bytes so many of a unit are, exactly

## Main Results

* `parseBytes_sizeText_iff` — the units and numbers for which `parse_bytes` is exact
-/

namespace DuckdbOpendal

/-- A number, spaces and a unit. -/
def sizeText (n spaces : ℕ) (unit : Bytes) : Bytes :=
  decimal n ++ (List.replicate spaces 0x20 ++ unit)

/-- So many of a unit are `bytes` bytes, and fit a `u64`. -/
def Measures (n : ℕ) (unit : ℕ × Bool) (bytes : ℕ) : Prop :=
  bytes * (if unit.2 then 8 else 1) = n * unit.1 ∧ bytes < 2 ^ 64

/-! ## Trimmed texts -/

/-- A byte at which no white space starts or ends. -/
def IsPlain (b : UInt8) : Prop :=
  ∀ word ∈ whitespace, word.head? ≠ some b ∧ word.getLast? ≠ some b

theorem toNat_of_mem_whitespace {word : Bytes} (hword : word ∈ whitespace) {b : UInt8}
    (hb : b ∈ word) : b.toNat < 48 ∨ 128 ≤ b.toNat := by
  have hall : whitespace.all (fun word => word.all fun b =>
      decide (b.toNat < 48 ∨ 128 ≤ b.toNat)) = true := by decide
  exact of_decide_eq_true (List.all_eq_true.mp (List.all_eq_true.mp hall word hword) b hb)

/-- From the digits on, ASCII has no white space. -/
theorem isPlain_of_ascii {b : UInt8} (hlo : 48 ≤ b.toNat) (hhi : b.toNat < 128) : IsPlain b := by
  refine fun word hword => ⟨fun h => ?_, fun h => ?_⟩
  · have := toNat_of_mem_whitespace hword (List.mem_of_mem_head? h)
    omega
  · have := toNat_of_mem_whitespace hword (List.mem_of_mem_getLast? h)
    omega

theorem dropPrefixes_space (fuel : ℕ) (s : Bytes) :
    dropPrefixes whitespace (fuel + 1) (0x20 :: s) = dropPrefixes whitespace fuel s := by
  have hfind : (whitespace.find? fun text => text <+: 0x20 :: s) = some [0x20] := by
    simp [whitespace, List.cons_prefix_cons]
  rw [dropPrefixes, hfind]
  rfl

/-- **Spaces in front are trimmed**, and nothing else of a text between plain bytes. -/
theorem trim_replicate_append (spaces : ℕ) {s : Bytes} (hhead : ∀ b ∈ s.head?, IsPlain b)
    (hlast : ∀ b ∈ s.getLast?, IsPlain b) : trim (List.replicate spaces 0x20 ++ s) = s := by
  have hfront : ∀ fuel, dropPrefixes whitespace (spaces + fuel)
      (List.replicate spaces 0x20 ++ s) = s := by
    intro fuel
    induction spaces with
    | zero =>
        refine dropPrefixes_eq_self (fun word hword => ?_) _
        rintro ⟨rest, hs⟩
        obtain rfl : word ++ rest = s := hs
        obtain ⟨b, word, rfl⟩ := List.exists_cons_of_ne_nil (whitespace_ne_nil word hword)
        exact (hhead b rfl (b :: word) hword).1 rfl
    | succ spaces ih =>
        rw [Nat.add_right_comm, List.replicate_succ, List.cons_append, dropPrefixes_space]
        exact ih
  have hback : dropPrefixes (whitespace.map List.reverse) s.length s.reverse = s.reverse := by
    refine dropPrefixes_eq_self (fun reversed hreversed hprefix => ?_) _
    obtain ⟨word, hword, rfl⟩ := List.mem_map.mp hreversed
    obtain ⟨rest, rfl⟩ := List.reverse_prefix.mp hprefix
    obtain ⟨front, b, hconcat⟩ :=
      (List.eq_nil_or_concat word).resolve_left (whitespace_ne_nil word hword)
    rw [List.concat_eq_append] at hconcat
    subst hconcat
    have hb : b ∈ (rest ++ (front ++ [b])).getLast? := by
      rw [← List.append_assoc, List.getLast?_concat]
      rfl
    exact (hlast b hb (front ++ [b]) hword).2 List.getLast?_concat
  rw [trim, List.length_append, List.length_replicate, hfront, hback, List.reverse_reverse]

theorem trim_eq_self {s : Bytes} (hhead : ∀ b ∈ s.head?, IsPlain b)
    (hlast : ∀ b ∈ s.getLast?, IsPlain b) : trim s = s :=
  trim_replicate_append 0 hhead hlast

/-! ## Numerals -/

theorem decimal_ne_nil (n : ℕ) : decimal n ≠ [] := mt List.map_eq_nil_iff.mp Nat.toDigits_ne_nil

theorem isDigit_of_mem_decimal {n : ℕ} {b : UInt8} (h : b ∈ decimal n) : isDigit b = true :=
  isDigit_iff.mpr (toNat_of_mem_decimal h)

/-- No numeral starts with a sign. -/
theorem head?_decimal_append (n : ℕ) (s : Bytes) : (decimal n ++ s).head? ≠ some 0x2B := by
  intro h
  rw [List.head?_append_of_ne_nil _ (decimal_ne_nil n)] at h
  exact absurd (isDigit_of_mem_decimal (List.mem_of_mem_head? h)) (by decide)

/-- The numeral of a number is read back. -/
theorem parseUnsigned_decimal {n : ℕ} (h : n < 2 ^ 64) : parseUnsigned (decimal n) = some n := by
  have hsign : (decimal n).head? ≠ some 0x2B := by
    simpa using head?_decimal_append n []
  have hvalue : (decimal n).foldl (fun n b => 10 * n + (b.toNat - 0x30)) 0 = n := by
    calc (decimal n).foldl (fun n b => 10 * n + (b.toNat - 0x30)) 0
        = (Nat.toDigits 10 n).foldl
            (fun n c => 10 * n + (c.toNat.toUInt8.toNat - 0x30)) 0 := List.foldl_map
      _ = Nat.ofDigitChars 10 (Nat.toDigits 10 n) 0 := by
          refine List.foldl_ext _ _ 0 fun m c hc => ?_
          rw [(toNat_of_mem_toDigits hc).2.2]
          rfl
      _ = n := Nat.ofDigitChars_ten_toDigits
  simp only [parseUnsigned, if_neg hsign, hvalue]
  exact if_pos ⟨decimal_ne_nil n, List.all_eq_true.mpr fun b hb => isDigit_of_mem_decimal hb, h⟩

/-- A numeral with something else behind it is no number. -/
theorem parseUnsigned_decimal_append (n : ℕ) {s : Bytes} {b : UInt8} (hb : b ∈ s)
    (hdigit : isDigit b = false) : parseUnsigned (decimal n ++ s) = none := by
  simp only [parseUnsigned, if_neg (head?_decimal_append n s)]
  refine if_neg fun h => ?_
  have hall := List.all_eq_true.mp h.2.1 b (List.mem_append_right _ hb)
  rw [hdigit] at hall
  cases hall

/-! ## Units -/

theorem mem_unit : ∀ entry ∈ sizeUnits, entry.1 ≠ [] ∧ ∀ b ∈ entry.1, 65 ≤ b.toNat ∧
    b.toNat < 128 := by
  have hall : sizeUnits.all (fun entry => !entry.1.isEmpty && entry.1.all fun b =>
      decide (65 ≤ b.toNat ∧ b.toNat < 128)) = true := by decide
  intro entry hentry
  have h := List.all_eq_true.mp hall entry hentry
  rw [Bool.and_eq_true] at h
  refine ⟨by simpa using h.1, fun b hb => ?_⟩
  exact of_decide_eq_true (List.all_eq_true.mp h.2 b hb)

/-- A unit stands in the table once. -/
theorem lookup_sizeUnits : ∀ entry ∈ sizeUnits, sizeUnits.lookup entry.1 = some entry.2 := by
  decide +kernel

/-- The checked product, divided, is the exact quantity unless the product overflows. -/
theorem inBytes_eq_some_iff {n bytes : ℕ} {unit : ℕ × Bool} :
    inBytes n unit = some bytes ↔ Measures n unit bytes ∧ n * unit.1 < 2 ^ 64 := by
  obtain ⟨factor, bits⟩ := unit
  simp only [inBytes, checkedMul, Measures]
  generalize n * factor = value
  by_cases hlt : value < 2 ^ 64
  · rw [if_pos hlt, Option.bind_some, and_iff_left hlt]
    cases bits with
    | false =>
        simp only [Bool.false_eq_true, if_false, Option.some.injEq, mul_one]
        constructor
        · rintro rfl
          exact ⟨rfl, hlt⟩
        · exact fun h => h.1.symm
    | true =>
        simp only [if_true, Option.ite_none_right_eq_some, Option.some.injEq]
        omega
  · rw [if_neg hlt, Option.bind_none]
    exact iff_of_false (Option.some_ne_none bytes).symm fun h => hlt h.2

/-- A quantity is measured by one number of bytes. -/
theorem Measures.unique {n bytes bytes' : ℕ} {unit : ℕ × Bool} (h : Measures n unit bytes)
    (h' : Measures n unit bytes') : bytes = bytes' := by
  have heq := h.1.trans h'.1.symm
  split at heq
  · omega
  · omega

/-- The units and numbers whose product fits a `u64` wherever their bytes do. -/
theorem measures_imp_lt_iff {n : ℕ} {unit : ℕ × Bool} :
    (∀ bytes, Measures n unit bytes → n * unit.1 < 2 ^ 64) ↔
      unit.2 = false ∨ n * unit.1 < 2 ^ 64 ∨ ¬ 8 ∣ n * unit.1 ∨ 8 * 2 ^ 64 ≤ n * unit.1 := by
  obtain ⟨factor, bits⟩ := unit
  simp only [Measures]
  generalize n * factor = value
  cases bits with
  | false =>
      refine iff_of_true (fun bytes h => ?_) (Or.inl rfl)
      rw [← h.1, if_neg Bool.false_ne_true, mul_one]
      exact h.2
  | true =>
      simp only [if_true, Bool.true_eq_false, false_or]
      constructor
      · intro h
        have := h (value / 8)
        omega
      · rintro h bytes ⟨heq, hlt⟩
        omega

section Sizes

variable {F : Type} (P : ValueParsers F)

/-- **A size with a unit** is what the given parser makes of it, or else its number and unit,
multiplied and divided. -/
theorem parseBytes_sizeText {n : ℕ} (hn : n < 2 ^ 64) (spaces : ℕ) {name : Bytes}
    {unit : ℕ × Bool} (hunit : (name, unit) ∈ sizeUnits) :
    parseBytes P (sizeText n spaces name) =
      match P.byte (sizeText n spaces name) with
      | some bytes => some bytes.val
      | none => inBytes n unit := by
  obtain ⟨hname, hletter⟩ := mem_unit (name, unit) hunit
  have hletterPlain : ∀ b ∈ name, IsPlain b := fun b hb =>
    isPlain_of_ascii (by have := hletter b hb; omega) (hletter b hb).2
  have hdigitPlain : ∀ b ∈ decimal n, IsPlain b := fun b hb =>
    isPlain_of_ascii (toNat_of_mem_decimal hb).1 (by have := toNat_of_mem_decimal hb; omega)
  have hnumber : trim (decimal n) = decimal n :=
    trim_eq_self (fun b hb => hdigitPlain b (List.mem_of_mem_head? hb))
      fun b hb => hdigitPlain b (List.mem_of_mem_getLast? hb)
  have hunitText : trim (List.replicate spaces 0x20 ++ name) = name :=
    trim_replicate_append spaces (fun b hb => hletterPlain b (List.mem_of_mem_head? hb))
      fun b hb => hletterPlain b (List.mem_of_mem_getLast? hb)
  have htext : trim (sizeText n spaces name) = sizeText n spaces name := by
    refine trim_eq_self (fun b hb => ?_) fun b hb => ?_
    · rw [sizeText, List.head?_append_of_ne_nil _ (decimal_ne_nil n)] at hb
      exact hdigitPlain b (List.mem_of_mem_head? hb)
    · rw [sizeText, ← List.append_assoc, List.getLast?_append_of_ne_nil _ hname] at hb
      exact hletterPlain b (List.mem_of_mem_getLast? hb)
  have hnot : ∀ b ∈ List.replicate spaces 0x20 ++ name, isDigit b = false := by
    intro b hb
    rw [← Bool.not_eq_true, isDigit_iff]
    rcases List.mem_append.mp hb with hb | hb
    · rw [List.eq_of_mem_replicate hb]
      decide
    · have := hletter b hb
      omega
  have hunsigned : parseUnsigned (sizeText n spaces name) = none := by
    obtain ⟨b, hb⟩ := List.exists_mem_of_ne_nil name hname
    have hb' := List.mem_append_right (List.replicate spaces 0x20) hb
    exact parseUnsigned_decimal_append n hb' (hnot b hb')
  obtain ⟨hdrop, htake⟩ := Text.rdropWhile_rtakeWhile_append (p := fun b => !isDigit b)
    (l := decimal n) (r := List.replicate spaces 0x20 ++ name)
    (fun b hb => by rw [isDigit_of_mem_decimal (List.mem_of_mem_getLast? hb)]; rfl)
    (fun b hb => by rw [hnot b hb]; rfl)
  simp only [parseBytes, htext, hunsigned]
  cases P.byte (sizeText n spaces name) with
  | some bytes => rfl
  | none =>
      simp only [sizeText, hdrop, htake, hnumber, hunitText, parseUnsigned_decimal hn,
        lookup_sizeUnits (name, unit) hunit, Option.bind_some]

/-- **A size with a unit is exact** unless the unit counts bits, and the bits do not fit a `u64`
where the bytes they make up do. -/
theorem parseBytes_sizeText_iff (n : U64) (spaces : ℕ) {name : Bytes} {unit : ℕ × Bool}
    (hunit : (name, unit) ∈ sizeUnits)
    (hbyte : ∀ bytes, P.byte (sizeText n.val spaces name) = some bytes →
      Measures n.val unit bytes.val) :
    (∀ bytes, parseBytes P (sizeText n.val spaces name) = some bytes ↔
        Measures n.val unit bytes) ↔
      P.byte (sizeText n.val spaces name) ≠ none ∨ unit.2 = false ∨ n.val * unit.1 < 2 ^ 64 ∨
        ¬ 8 ∣ n.val * unit.1 ∨ 8 * 2 ^ 64 ≤ n.val * unit.1 := by
  rw [parseBytes_sizeText P n.isLt spaces hunit]
  cases hparsed : P.byte (sizeText n.val spaces name) with
  | some b =>
      have hb : Measures n.val unit b.val := hbyte b hparsed
      refine iff_of_true (fun bytes => ?_) (Or.inl (Option.some_ne_none b))
      rw [Option.some.injEq]
      exact ⟨fun h => h ▸ hb, fun h => hb.unique h⟩
  | none =>
      have hexact : (∀ bytes, inBytes n.val unit = some bytes ↔ Measures n.val unit bytes) ↔
          ∀ bytes, Measures n.val unit bytes → n.val * unit.1 < 2 ^ 64 := by
        refine forall_congr' fun bytes => ?_
        rw [inBytes_eq_some_iff, and_iff_left_iff_imp]
      rw [hexact, measures_imp_lt_iff, or_iff_right (not_not_intro rfl)]

/-- Eight mebibits are a mebibyte. -/
theorem parseBytes_sizeText_mebibits :
    parseBytes rejectingParsers (sizeText 8 1 (ascii "Mib")) = some (2 ^ 20) := by
  have hunit : (ascii "Mib", 2 ^ 20, true) ∈ sizeUnits := by decide
  have hexact := (parseBytes_sizeText_iff rejectingParsers 8 1 hunit fun _ h => by cases h).mpr
    (Or.inr (Or.inr (Or.inl (by decide))))
  exact (hexact (2 ^ 20)).mpr ⟨by decide, by decide⟩

/-- **Failing input**: bytes that fit, of bits that do not. -/
theorem parseBytes_tebibits :
    sizeText 16777216 1 (ascii "Tib") = ascii "16777216 Tib" ∧
      (ascii "Tib", 2 ^ 40, true) ∈ sizeUnits ∧
      ¬ ∀ bytes, parseBytes rejectingParsers (sizeText 16777216 1 (ascii "Tib")) = some bytes ↔
        Measures 16777216 (2 ^ 40, true) bytes := by
  refine ⟨by decide +kernel, by decide, fun h => ?_⟩
  have hmeasures : Measures 16777216 (2 ^ 40, true) (2 ^ 61) := ⟨by decide, by decide⟩
  have hnone : parseBytes rejectingParsers (sizeText 16777216 1 (ascii "Tib")) = none := by
    decide +kernel
  exact Option.some_ne_none _ (((h (2 ^ 61)).mpr hmeasures).symm.trans hnone)

end Sizes

end DuckdbOpendal
