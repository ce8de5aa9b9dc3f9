import Mathlib.Data.Nat.Bitwise
import DuckdbOpendal.Lib.SelfSyncCode
import DuckdbOpendal.Lib.Utf8

/-!
# UTF-8 as a code

UTF-8 spells characters as words of bytes and is self-synchronising.  The recogniser
`Utf8.isUtf8` accepts exactly the encodings of texts.

## Main Definitions

* `utf8Code` — UTF-8

## Main Results

* `Utf8.isUtf8_iff_encode` — the well-formed texts are the encoded ones
-/

/-- UTF-8. -/
def utf8Code : SelfSyncCode UInt8 Char where
  code := String.utf8EncodeChar
  IsLead := UInt8.IsUTF8FirstByte
  lead c := by
    cases hcode : String.utf8EncodeChar c with
    | nil => exact absurd hcode String.utf8EncodeChar_ne_nil
    | cons a tail =>
        refine ⟨a, tail, rfl, ?_, fun b hb hlead => ?_⟩
        · have hfirst := UInt8.isUTF8FirstByte_getElem_zero_utf8EncodeChar (c := c)
          simpa only [hcode, List.getElem_cons_zero] using hfirst
        · obtain ⟨i, hi, rfl⟩ := List.getElem_of_mem hb
          have hlen : i + 1 < (String.utf8EncodeChar c).length := by
            rw [hcode]
            simpa using hi
          have hlater : (String.utf8EncodeChar c)[i + 1] = tail[i] := by
            simp only [hcode, List.getElem_cons_succ]
          rw [← hlater, UInt8.isUTF8FirstByte_getElem_utf8EncodeChar] at hlead
          omega
  unique c d x y h := by
    have hdecode := ByteArray.utf8DecodeChar?_utf8EncodeChar_append (b := x.toByteArray) (c := c)
    rw [← List.toByteArray_append, h, List.toByteArray_append,
      ByteArray.utf8DecodeChar?_utf8EncodeChar_append] at hdecode
    exact (Option.some.inj hdecode).symm

namespace Utf8

/-! ## The bytes of a character -/

/-- Keeping the low bits of a byte and setting high ones. -/
theorem toNat_and_or {x m k : UInt8} {i a : ℕ} (hm : m.toNat = 2 ^ i - 1)
    (hk : k.toNat = 2 ^ i * a) : (x &&& m ||| k).toNat = x.toNat % 2 ^ i + 2 ^ i * a := by
  rw [UInt8.toNat_or, UInt8.toNat_and, hm, hk, Nat.and_two_pow_sub_one_eq_mod, Nat.or_comm,
    ← Nat.two_pow_add_eq_or_of_lt (Nat.mod_lt _ (Nat.two_pow_pos i)), Nat.add_comm]

/-- The low byte of a shifted number. -/
theorem toNat_shiftRight_toUInt8 (v : UInt32) {i : UInt32} (hi : i.toNat < 32) :
    (v >>> i).toUInt8.toNat = v.toNat / 2 ^ i.toNat % 256 := by
  rw [UInt32.toNat_toUInt8, UInt32.toNat_shiftRight, Nat.shiftRight_eq_div_pow,
    Nat.mod_eq_of_lt hi]

/-- The bytes of a code point, as numbers. -/
def scalarBytes (n : ℕ) : List ℕ :=
  if n < 0x80 then [n]
  else if n < 0x800 then [n / 64 + 192, n % 64 + 128]
  else if n < 0x10000 then [n / 4096 + 224, n / 64 % 64 + 128, n % 64 + 128]
  else [n / 262144 + 240, n / 4096 % 64 + 128, n / 64 % 64 + 128, n % 64 + 128]

/-- The bytes of a character are those of its code point. -/
theorem map_toNat_code (c : Char) :
    (utf8Code.code c).map UInt8.toNat = scalarBytes c.toNat := by
  have hlow : c.val.toUInt8.toNat = c.toNat % 256 := UInt32.toNat_toUInt8 c.val
  have hsix : (c.val >>> 6).toUInt8.toNat = c.toNat / 64 % 256 :=
    toNat_shiftRight_toUInt8 c.val (by decide)
  have htwelve : (c.val >>> 12).toUInt8.toNat = c.toNat / 4096 % 256 :=
    toNat_shiftRight_toUInt8 c.val (by decide)
  have heighteen : (c.val >>> 18).toUInt8.toNat = c.toNat / 262144 % 256 :=
    toNat_shiftRight_toUInt8 c.val (by decide)
  have hvalid : c.toNat < 0x110000 := by
    have := c.valid
    simp only [UInt32.isValidChar, Nat.isValidChar] at this
    show c.val.toNat < _
    omega
  have hcont : ∀ x : UInt8, (x &&& 63 ||| 128).toNat = x.toNat % 64 + 128 := fun x =>
    toNat_and_or (i := 6) (a := 2) rfl rfl
  show (String.utf8EncodeChar c).map UInt8.toNat = _
  unfold scalarBytes
  by_cases h1 : c.toNat < 0x80
  · have hsize : c.utf8Size = 1 := Char.utf8Size_eq_one_iff.mpr
      (UInt32.le_iff_toNat_le.mpr (Nat.lt_succ_iff.mp h1))
    rw [if_pos h1, String.utf8EncodeChar_eq_singleton hsize, List.map_singleton, hlow,
      Nat.mod_eq_of_lt (by omega)]
  by_cases h2 : c.toNat < 0x800
  · have hsize : c.utf8Size = 2 := Char.utf8Size_eq_two_iff.mpr
      ⟨UInt32.lt_iff_toNat_lt.mpr (Nat.not_lt.mp h1),
        UInt32.le_iff_toNat_le.mpr (Nat.lt_succ_iff.mp h2)⟩
    have hlead : ((c.val >>> 6).toUInt8 &&& 31 ||| 192).toNat = c.toNat / 64 + 192 := by
      rw [toNat_and_or (i := 5) (a := 6) rfl rfl, hsix]
      omega
    rw [if_neg h1, if_pos h2, String.utf8EncodeChar_eq_cons_cons hsize]
    simp only [List.map_cons, List.map_nil, hlead, hcont, hlow]
    refine congrArg _ (congrArg (fun n => [n + 128]) ?_)
    omega
  by_cases h3 : c.toNat < 0x10000
  · have hsize : c.utf8Size = 3 := Char.utf8Size_eq_three_iff.mpr
      ⟨UInt32.lt_iff_toNat_lt.mpr (Nat.not_lt.mp h2),
        UInt32.le_iff_toNat_le.mpr (Nat.lt_succ_iff.mp h3)⟩
    have hlead : ((c.val >>> 12).toUInt8 &&& 15 ||| 224).toNat = c.toNat / 4096 + 224 := by
      rw [toNat_and_or (i := 4) (a := 14) rfl rfl, htwelve]
      omega
    rw [if_neg h1, if_neg h2, if_pos h3, String.utf8EncodeChar_eq_cons_cons_cons hsize]
    simp only [List.map_cons, List.map_nil, hlead, hcont, hlow, hsix, List.cons.injEq, and_true,
      true_and]
    omega
  · have hsize : c.utf8Size = 4 := Char.utf8Size_eq_four_iff.mpr
      (UInt32.lt_iff_toNat_lt.mpr (Nat.not_lt.mp h3))
    have hlead : ((c.val >>> 18).toUInt8 &&& 7 ||| 240).toNat = c.toNat / 262144 + 240 := by
      rw [toNat_and_or (i := 3) (a := 30) rfl rfl, heighteen]
      omega
    rw [if_neg h1, if_neg h2, if_neg h3, String.utf8EncodeChar_eq_cons_cons_cons_cons hsize]
    simp only [List.map_cons, List.map_nil, hlead, hcont, hlow, hsix, htwelve, List.cons.injEq,
      and_true, true_and]
    omega

/-- An ASCII character is one byte. -/
theorem code_ascii {c : Char} (hc : c.toNat < 0x80) : utf8Code.code c = [c.val.toUInt8] :=
  String.utf8EncodeChar_eq_singleton (Char.utf8Size_eq_one_iff.mpr
    (UInt32.le_iff_toNat_le.mpr (Nat.lt_succ_iff.mp hc)))

theorem encode_ascii {text : List Char} (h : ∀ c ∈ text, c.toNat < 0x80) :
    utf8Code.encode text = text.map fun c => c.val.toUInt8 := by
  induction text with
  | nil => rfl
  | cons c text ih =>
      rw [SelfSyncCode.encode_cons, code_ascii (h c List.mem_cons_self),
        ih fun d hd => h d (List.mem_cons_of_mem _ hd)]
      rfl

theorem toNat_toUInt8_ascii {c : Char} (hc : c.toNat < 0x80) : c.val.toUInt8.toNat = c.toNat := by
  have hlow : c.val.toUInt8.toNat = c.toNat % 256 := UInt32.toNat_toUInt8 c.val
  omega

/-- Every other character is spelled without ASCII bytes. -/
theorem le_of_mem_code {c : Char} (hc : ¬ c.toNat < 0x80) {b : UInt8}
    (hb : b ∈ utf8Code.code c) : 0x80 ≤ b.toNat := by
  have hmem : b.toNat ∈ scalarBytes c.toNat := map_toNat_code c ▸ List.mem_map_of_mem hb
  unfold scalarBytes at hmem
  rw [if_neg hc] at hmem
  split_ifs at hmem <;> simp only [List.mem_cons, List.not_mem_nil, or_false] at hmem <;> omega

/-! ## Well-formed texts -/

section Trail

variable {b : UInt8}

theorem trail_two (hlo : 0xC2 ≤ b.toNat) (hhi : b.toNat < 0xE0) :
    trail b = some [(0x80, 0xBF)] := by
  have h1 : ¬ b < 0x80 := by
    simp only [UInt8.lt_iff_toNat_lt, UInt8.reduceToNat]
    omega
  have h2 : ¬ b < 0xC2 := by
    simp only [UInt8.lt_iff_toNat_lt, UInt8.reduceToNat]
    omega
  rw [trail, if_neg h1, if_neg h2, if_pos (UInt8.lt_iff_toNat_lt.mpr hhi)]

theorem trail_three (hlo : 0xE0 ≤ b.toNat) (hhi : b.toNat < 0xF0) :
    trail b = some [(if b.toNat = 0xE0 then 0xA0 else 0x80,
      if b.toNat = 0xED then 0x9F else 0xBF), (0x80, 0xBF)] := by
  simp only [trail, UInt8.lt_iff_toNat_lt, ← UInt8.toNat_inj, UInt8.reduceToNat]
  split_ifs <;> first | rfl | omega

theorem trail_four (hlo : 0xF0 ≤ b.toNat) (hhi : b.toNat ≤ 0xF4) :
    trail b = some [(if b.toNat = 0xF0 then 0x90 else 0x80,
      if b.toNat = 0xF4 then 0x8F else 0xBF), (0x80, 0xBF), (0x80, 0xBF)] := by
  simp only [trail, UInt8.lt_iff_toNat_lt, ← UInt8.toNat_inj, UInt8.reduceToNat]
  split_ifs <;> first | rfl | omega

/-- The lead bytes. -/
theorem toNat_of_trail {owed : List Range} (h : trail b = some owed) :
    b.toNat < 0x80 ∨ (0xC2 ≤ b.toNat ∧ b.toNat < 0xE0) ∨
      (0xE0 ≤ b.toNat ∧ b.toNat < 0xF0) ∨ (0xF0 ≤ b.toNat ∧ b.toNat ≤ 0xF4) := by
  simp only [trail, UInt8.lt_iff_toNat_lt, ← UInt8.toNat_inj, UInt8.reduceToNat] at h
  split_ifs at h <;> omega

/-- A text that owes a byte starts with one in its range. -/
theorem accepts_range {r : Range} {owed : List Range} {bs : List UInt8}
    (h : accepts (r :: owed) bs = true) :
    ∃ b rest, bs = b :: rest ∧ r.1.toNat ≤ b.toNat ∧ b.toNat ≤ r.2.toNat ∧
      accepts owed rest = true := by
  cases bs with
  | nil => cases h
  | cons b rest =>
      simp only [accepts, Bool.and_eq_true, decide_eq_true_eq, UInt8.le_iff_toNat_le] at h
      exact ⟨b, rest, rfl, h.1.1, h.1.2, h.2⟩

end Trail

/-- The encoding of a character is well formed. -/
theorem isUtf8_code (c : Char) : isUtf8 (utf8Code.code c) = true := by
  have hvalid : c.toNat < 0xD800 ∨ 0xDFFF < c.toNat ∧ c.toNat < 0x110000 := c.valid
  have hbytes := map_toNat_code c
  unfold scalarBytes at hbytes
  have hlist : ∀ {n : ℕ} {ns : List ℕ} {bs : List UInt8}, bs.map UInt8.toNat = n :: ns →
      ∃ b bs', bs = b :: bs' ∧ b.toNat = n ∧ bs'.map UInt8.toNat = ns := fun h =>
    List.map_eq_cons_iff.mp h
  split_ifs at hbytes with h1 h2 h3
  · obtain ⟨b, bs, hcode, hb, hbytes⟩ := hlist hbytes
    obtain rfl := List.map_eq_nil_iff.mp hbytes
    rw [hcode]
    exact isUtf8_ascii_cons (UInt8.lt_iff_toNat_lt.mpr (hb ▸ h1)) []
  · obtain ⟨b, bs, hcode, hb, hbytes⟩ := hlist hbytes
    obtain ⟨b1, bs, rfl, hb1, hbytes⟩ := hlist hbytes
    obtain rfl := List.map_eq_nil_iff.mp hbytes
    rw [hcode, isUtf8, accepts, trail_two (by omega) (by omega)]
    simp only [accepts, Bool.and_true, Bool.and_eq_true, decide_eq_true_eq,
      UInt8.le_iff_toNat_le, UInt8.reduceToNat]
    omega
  · obtain ⟨b, bs, hcode, hb, hbytes⟩ := hlist hbytes
    obtain ⟨b1, bs, rfl, hb1, hbytes⟩ := hlist hbytes
    obtain ⟨b2, bs, rfl, hb2, hbytes⟩ := hlist hbytes
    obtain rfl := List.map_eq_nil_iff.mp hbytes
    rw [hcode, isUtf8, accepts, trail_three (by omega) (by omega)]
    simp only [accepts, Bool.and_true, Bool.and_eq_true, decide_eq_true_eq,
      UInt8.le_iff_toNat_le, apply_ite UInt8.toNat, UInt8.reduceToNat]
    split_ifs <;> omega
  · obtain ⟨b, bs, hcode, hb, hbytes⟩ := hlist hbytes
    obtain ⟨b1, bs, rfl, hb1, hbytes⟩ := hlist hbytes
    obtain ⟨b2, bs, rfl, hb2, hbytes⟩ := hlist hbytes
    obtain ⟨b3, bs, rfl, hb3, hbytes⟩ := hlist hbytes
    obtain rfl := List.map_eq_nil_iff.mp hbytes
    rw [hcode, isUtf8, accepts, trail_four (by omega) (by omega)]
    simp only [accepts, Bool.and_true, Bool.and_eq_true, decide_eq_true_eq,
      UInt8.le_iff_toNat_le, apply_ite UInt8.toNat, UInt8.reduceToNat]
    split_ifs <;> omega

/-- The bytes of a scalar value are those of a character. -/
theorem exists_code {n : ℕ} (hn : n < 0xD800 ∨ 0xDFFF < n ∧ n < 0x110000) {word : List UInt8}
    (hword : word.map UInt8.toNat = scalarBytes n) : ∃ c, utf8Code.code c = word := by
  have hlt : n < UInt32.size := by
    simp only [UInt32.size]
    omega
  refine ⟨⟨UInt32.ofNatLT n hlt, hn⟩, ?_⟩
  apply List.map_injective_iff.mpr fun _ _ => UInt8.toNat_inj.mp
  rw [map_toNat_code, hword]
  exact congrArg scalarBytes UInt32.toNat_ofNatLT

/-- **A well-formed text starts with a character.** -/
theorem exists_code_append {b : UInt8} {bs : List UInt8} (h : isUtf8 (b :: bs) = true) :
    ∃ c rest, b :: bs = utf8Code.code c ++ rest := by
  suffices hword : ∃ word rest, b :: bs = word ++ rest ∧ ∃ c, utf8Code.code c = word by
    obtain ⟨_, rest, hbs, c, rfl⟩ := hword
    exact ⟨c, rest, hbs⟩
  rw [isUtf8, accepts] at h
  cases htrail : trail b with
  | none => simp [htrail] at h
  | some owed =>
      simp only [htrail] at h
      rcases toNat_of_trail htrail with hb | ⟨hlo, hhi⟩ | ⟨hlo, hhi⟩ | ⟨hlo, hhi⟩
      · refine ⟨[b], bs, rfl, exists_code (Or.inl (hb.trans (by decide))) ?_⟩
        rw [scalarBytes, if_pos hb]
        rfl
      · rw [trail_two hlo hhi] at htrail
        cases htrail
        obtain ⟨b1, bs, rfl, hlo1, hhi1, -⟩ := accepts_range h
        simp only [UInt8.reduceToNat] at hlo1 hhi1
        have hn : (b.toNat - 192) * 64 + (b1.toNat - 128) < 0xD800 := by omega
        refine ⟨[b, b1], bs, rfl, exists_code (Or.inl hn) ?_⟩
        rw [scalarBytes, if_neg (by omega), if_pos (by omega)]
        simp only [List.map_cons, List.map_nil, List.cons.injEq, and_true]
        omega
      · rw [trail_three hlo hhi] at htrail
        cases htrail
        obtain ⟨b1, bs, rfl, hlo1, hhi1, h⟩ := accepts_range h
        obtain ⟨b2, bs, rfl, hlo2, hhi2, -⟩ := accepts_range h
        simp only [apply_ite UInt8.toNat, UInt8.reduceToNat] at hlo1 hhi1 hlo2 hhi2
        have hb1 : 128 ≤ b1.toNat ∧ b1.toNat ≤ 191 ∧ (b.toNat = 224 → 160 ≤ b1.toNat) ∧
            (b.toNat = 237 → b1.toNat ≤ 159) := by
          split_ifs at hlo1 hhi1 <;> omega
        -- The ranges of the second byte keep out overlong forms and surrogates.
        obtain ⟨n, hn⟩ : ∃ n, n =
            (b.toNat - 224) * 4096 + (b1.toNat - 128) * 64 + (b2.toNat - 128) := ⟨_, rfl⟩
        have hscalar : n < 0xD800 ∨ 0xDFFF < n ∧ n < 0x110000 := by omega
        refine ⟨[b, b1, b2], bs, rfl, exists_code hscalar ?_⟩
        rw [scalarBytes, if_neg (by omega), if_neg (by omega), if_pos (by omega)]
        simp only [List.map_cons, List.map_nil, List.cons.injEq, and_true]
        omega
      · rw [trail_four hlo hhi] at htrail
        cases htrail
        obtain ⟨b1, bs, rfl, hlo1, hhi1, h⟩ := accepts_range h
        obtain ⟨b2, bs, rfl, hlo2, hhi2, h⟩ := accepts_range h
        obtain ⟨b3, bs, rfl, hlo3, hhi3, -⟩ := accepts_range h
        simp only [apply_ite UInt8.toNat, UInt8.reduceToNat] at hlo1 hhi1 hlo2 hhi2 hlo3 hhi3
        have hb1 : 128 ≤ b1.toNat ∧ b1.toNat ≤ 191 ∧ (b.toNat = 240 → 144 ≤ b1.toNat) ∧
            (b.toNat = 244 → b1.toNat ≤ 143) := by
          split_ifs at hlo1 hhi1 <;> omega
        -- Here they keep out overlong forms and what lies beyond the last scalar value.
        obtain ⟨n, hn⟩ : ∃ n, n = (b.toNat - 240) * 262144 + (b1.toNat - 128) * 4096 +
            (b2.toNat - 128) * 64 + (b3.toNat - 128) := ⟨_, rfl⟩
        have hscalar : n < 0xD800 ∨ 0xDFFF < n ∧ n < 0x110000 := by omega
        refine ⟨[b, b1, b2, b3], bs, rfl, exists_code hscalar ?_⟩
        rw [scalarBytes, if_neg (by omega), if_neg (by omega), if_neg (by omega)]
        simp only [List.map_cons, List.map_nil, List.cons.injEq, and_true]
        omega

/-- **The well-formed texts are the encoded ones.** -/
theorem isUtf8_iff_encode {bs : List UInt8} :
    isUtf8 bs = true ↔ ∃ text : List Char, bs = utf8Code.encode text := by
  constructor
  · induction hn : bs.length using Nat.strong_induction_on generalizing bs with
    | h n ih =>
    subst hn
    intro h
    cases bs with
    | nil => exact ⟨[], rfl⟩
    | cons b bs =>
        obtain ⟨c, rest, hcode⟩ := exists_code_append h
        rw [hcode, isUtf8_append (isUtf8_code c)] at h
        have hlt : rest.length < (b :: bs).length := by
          have := List.length_pos_iff.mpr (SelfSyncCode.code_ne_nil (C := utf8Code) c)
          rw [hcode, List.length_append]
          omega
        obtain ⟨text, rfl⟩ := ih _ hlt rfl h
        exact ⟨c :: text, hcode⟩
  · rintro ⟨text, rfl⟩
    induction text with
    | nil => rfl
    | cons c text ih => rw [SelfSyncCode.encode_cons, isUtf8_append (isUtf8_code c), ih]

end Utf8
