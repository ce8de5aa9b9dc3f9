import DuckdbOpendal.Lib.StrSlice
import DuckdbOpendal.OptionValues

/-!
# The texts of sizes

`parse_bytes` of `opendal/src/config/value.rs`, down to its slices.  It cuts a text one byte
behind the index at which the last numeric character starts, and numeric is more than the
digits: behind a numeric character of several bytes the cut panics, and the panic becomes the
error of the call (`ffi_guard`).  Where it does not panic, it is `parseBytes`.

## Main Definitions

* `isNumeric` — `char::is_numeric`
* `slicedParseBytes`, `slicedByteSize` — `parse_bytes` and `ByteSize::parse`, with their slices

## Main Results

* `slicedByteSize_ne_none_iff` — the texts for which a size option does not panic
-/

namespace DuckdbOpendal

/-! ## Numeric characters -/

/-- The code points of the categories `Nd`, `Nl` and `No`, as of Unicode 16. -/
def numericRanges : List (ℕ × ℕ) :=
  [(0x30, 0x39), (0xB2, 0xB3), (0xB9, 0xB9), (0xBC, 0xBE), (0x660, 0x669), (0x6F0, 0x6F9),
    (0x7C0, 0x7C9), (0x966, 0x96F), (0x9E6, 0x9EF), (0x9F4, 0x9F9), (0xA66, 0xA6F),
    (0xAE6, 0xAEF), (0xB66, 0xB6F), (0xB72, 0xB77), (0xBE6, 0xBF2), (0xC66, 0xC6F),
    (0xC78, 0xC7E), (0xCE6, 0xCEF), (0xD58, 0xD5E), (0xD66, 0xD78), (0xDE6, 0xDEF),
    (0xE50, 0xE59), (0xED0, 0xED9), (0xF20, 0xF33), (0x1040, 0x1049), (0x1090, 0x1099),
    (0x1369, 0x137C), (0x16EE, 0x16F0), (0x17E0, 0x17E9), (0x17F0, 0x17F9), (0x1810, 0x1819),
    (0x1946, 0x194F), (0x19D0, 0x19DA), (0x1A80, 0x1A89), (0x1A90, 0x1A99), (0x1B50, 0x1B59),
    (0x1BB0, 0x1BB9), (0x1C40, 0x1C49), (0x1C50, 0x1C59), (0x2070, 0x2070), (0x2074, 0x2079),
    (0x2080, 0x2089), (0x2150, 0x2182), (0x2185, 0x2189), (0x2460, 0x249B), (0x24EA, 0x24FF),
    (0x2776, 0x2793), (0x2CFD, 0x2CFD), (0x3007, 0x3007), (0x3021, 0x3029), (0x3038, 0x303A),
    (0x3192, 0x3195), (0x3220, 0x3229), (0x3248, 0x324F), (0x3251, 0x325F), (0x3280, 0x3289),
    (0x32B1, 0x32BF), (0xA620, 0xA629), (0xA6E6, 0xA6EF), (0xA830, 0xA835), (0xA8D0, 0xA8D9),
    (0xA900, 0xA909), (0xA9D0, 0xA9D9), (0xA9F0, 0xA9F9), (0xAA50, 0xAA59), (0xABF0, 0xABF9),
    (0xFF10, 0xFF19), (0x10107, 0x10133), (0x10140, 0x10178), (0x1018A, 0x1018B),
    (0x102E1, 0x102FB), (0x10320, 0x10323), (0x10341, 0x10341), (0x1034A, 0x1034A),
    (0x103D1, 0x103D5), (0x104A0, 0x104A9), (0x10858, 0x1085F), (0x10879, 0x1087F),
    (0x108A7, 0x108AF), (0x108FB, 0x108FF), (0x10916, 0x1091B), (0x109BC, 0x109BD),
    (0x109C0, 0x109CF), (0x109D2, 0x109FF), (0x10A40, 0x10A48), (0x10A7D, 0x10A7E),
    (0x10A9D, 0x10A9F), (0x10AEB, 0x10AEF), (0x10B58, 0x10B5F), (0x10B78, 0x10B7F),
    (0x10BA9, 0x10BAF), (0x10CFA, 0x10CFF), (0x10D30, 0x10D39), (0x10D40, 0x10D49),
    (0x10E60, 0x10E7E), (0x10F1D, 0x10F26), (0x10F51, 0x10F54), (0x10FC5, 0x10FCB),
    (0x11052, 0x1106F), (0x110F0, 0x110F9), (0x11136, 0x1113F), (0x111D0, 0x111D9),
    (0x111E1, 0x111F4), (0x112F0, 0x112F9), (0x11450, 0x11459), (0x114D0, 0x114D9),
    (0x11650, 0x11659), (0x116C0, 0x116C9), (0x116D0, 0x116E3), (0x11730, 0x1173B),
    (0x118E0, 0x118F2), (0x11950, 0x11959), (0x11BF0, 0x11BF9), (0x11C50, 0x11C6C),
    (0x11D50, 0x11D59), (0x11DA0, 0x11DA9), (0x11F50, 0x11F59), (0x11FC0, 0x11FD4),
    (0x12400, 0x1246E), (0x16130, 0x16139), (0x16A60, 0x16A69), (0x16AC0, 0x16AC9),
    (0x16B50, 0x16B59), (0x16B5B, 0x16B61), (0x16D70, 0x16D79), (0x16E80, 0x16E96),
    (0x1CCF0, 0x1CCF9), (0x1D2C0, 0x1D2D3), (0x1D2E0, 0x1D2F3), (0x1D360, 0x1D378),
    (0x1D7CE, 0x1D7FF), (0x1E140, 0x1E149), (0x1E2F0, 0x1E2F9), (0x1E4F0, 0x1E4F9),
    (0x1E5F1, 0x1E5FA), (0x1E8C7, 0x1E8CF), (0x1E950, 0x1E959), (0x1EC71, 0x1ECAB),
    (0x1ECAD, 0x1ECAF), (0x1ECB1, 0x1ECB4), (0x1ED01, 0x1ED2D), (0x1ED2F, 0x1ED3D),
    (0x1F100, 0x1F10C), (0x1FBF0, 0x1FBF9)]

/-- `char::is_numeric`. -/
def isNumeric (c : Char) : Bool :=
  numericRanges.any fun range => range.1 ≤ c.toNat && c.toNat ≤ range.2

/-- Of the ASCII characters, the digits are numeric. -/
theorem isNumeric_ascii {c : Char} (hc : c.toNat < 0x80) :
    isNumeric c = true ↔ 48 ≤ c.toNat ∧ c.toNat ≤ 57 := by
  have hbeyond : ∀ range ∈ numericRanges.tail, 0x80 ≤ range.1 := by decide +kernel
  rw [isNumeric, List.any_eq_true]
  constructor
  · rintro ⟨range, hrange, hin⟩
    rw [Bool.and_eq_true, decide_eq_true_eq, decide_eq_true_eq] at hin
    rcases List.mem_cons.mp hrange with rfl | hrange
    · exact hin
    · have := hbeyond range hrange
      omega
  · intro h
    refine ⟨(0x30, 0x39), List.mem_cons_self, ?_⟩
    rw [Bool.and_eq_true, decide_eq_true_eq, decide_eq_true_eq]
    exact h

/-- The characters `trim` drops. -/
def whitespaceChars : List Char :=
  [0x09, 0x0A, 0x0B, 0x0C, 0x0D, 0x20, 0x85, 0xA0, 0x1680, 0x2000, 0x2001, 0x2002, 0x2003,
    0x2004, 0x2005, 0x2006, 0x2007, 0x2008, 0x2009, 0x200A, 0x2028, 0x2029, 0x202F, 0x205F,
    0x3000].map Char.ofNat

theorem whitespace_eq : whitespace = whitespaceChars.map utf8Code.code := by
  decide +kernel

theorem isNumeric_whitespace : ∀ c ∈ whitespaceChars, isNumeric c = false := by
  have hall : whitespaceChars.all (fun c => !isNumeric c) = true := by decide +kernel
  intro c hc
  exact Bool.not_eq_true' _ ▸ List.all_eq_true.mp hall c hc

section ParseBytes

variable {F : Type} (P : ValueParsers F)

/-- `parse_bytes`; without a result where a slice panics. -/
def slicedParseBytes (value : Bytes) : Option (Option ℕ) :=
  let value := trim value
  match parseUnsigned value with
  | some bytes => some (some bytes)
  | none =>
      match P.byte value with
      | some bytes => some (some bytes.val)
      | none =>
          match Str.rfind isNumeric value with
          | none => some none
          | some split =>
              (Str.sliceTo value (split + 1)).bind fun number =>
                match parseUnsigned (trim number) with
                | none => some none
                | some number =>
                    (Str.sliceFrom value (split + 1)).map fun unit =>
                      (sizeUnits.lookup (trim unit)).bind (inBytes number)

/-- `ByteSize::parse`; without a result where it panics. -/
def slicedByteSize (sec key value : Bytes) : Option (Except Bytes ℕ) :=
  (slicedParseBytes P value).map fun parsed => do
    let bytes ← orInvalid parsed sec key value
      "expected bytes or a size such as '8 MB', '8 MiB', or '64 Mib'"
    if bytes < 2 ^ 64 then .ok bytes
    else .error (sec ++ ascii "." ++ key ++ ascii " exceeds the platform size limit")

end ParseBytes

/-! ## Trimmed texts -/

/-- What dropping one of the texts keeps, dropping any number of them keeps. -/
theorem dropPrefixes_induction {texts : List Bytes} {motive : Bytes → Prop}
    (hdrop : ∀ text ∈ texts, ∀ s, motive (text ++ s) → motive s) (fuel : ℕ) {s : Bytes}
    (h : motive s) : motive (dropPrefixes texts fuel s) := by
  induction fuel generalizing s with
  | zero => exact h
  | succ fuel ih =>
      rw [dropPrefixes]
      split
      · exact h
      · rename_i text hfind
        have hprefix : text <+: s := by simpa using List.find?_some hfind
        obtain ⟨rest, rfl⟩ := hprefix
        rw [List.drop_left]
        exact ih (hdrop text (List.mem_of_find?_eq_some hfind) rest h)

/-- **Trimming** a text drops characters, none of them numeric. -/
theorem trim_encode (text : List Char) :
    ∃ text', trim (utf8Code.encode text) = utf8Code.encode text' ∧
      text'.filter isNumeric = text.filter isNumeric := by
  have hword : ∀ word ∈ whitespace, ∃ c, utf8Code.code c = word ∧ isNumeric c = false := by
    intro word hword
    rw [whitespace_eq] at hword
    obtain ⟨c, hc, rfl⟩ := List.mem_map.mp hword
    exact ⟨c, rfl, isNumeric_whitespace c hc⟩
  have hfront : ∃ text', dropPrefixes whitespace (utf8Code.encode text).length
      (utf8Code.encode text) = utf8Code.encode text' ∧
        text'.filter isNumeric = text.filter isNumeric := by
    refine dropPrefixes_induction (motive := fun s => ∃ text', s = utf8Code.encode text' ∧
      text'.filter isNumeric = text.filter isNumeric) ?_ _ ⟨text, rfl, rfl⟩
    rintro word hmem s ⟨text', hs, hnumeric⟩
    obtain ⟨c, rfl, hc⟩ := hword word hmem
    obtain ⟨rest, rfl, rfl⟩ := SelfSyncCode.exists_of_code_append hs.symm
    exact ⟨rest, rfl, by rwa [List.filter_cons_of_neg (by simp [hc])] at hnumeric⟩
  obtain ⟨front, heq, hnumeric⟩ := hfront
  have hback : ∃ text', dropPrefixes (whitespace.map List.reverse) (utf8Code.encode front).length
      (utf8Code.encode front).reverse = (utf8Code.encode text').reverse ∧
        text'.filter isNumeric = front.filter isNumeric := by
    refine dropPrefixes_induction (motive := fun s => ∃ text', s = (utf8Code.encode text').reverse ∧
      text'.filter isNumeric = front.filter isNumeric) ?_ _ ⟨front, rfl, rfl⟩
    rintro reversed hmem s ⟨text', hs, hnumeric⟩
    obtain ⟨word, hword', rfl⟩ := List.mem_map.mp hmem
    obtain ⟨c, rfl, hc⟩ := hword word hword'
    have hs' : utf8Code.encode text' = s.reverse ++ utf8Code.code c := by
      rw [← List.reverse_inj, ← hs, List.reverse_append, List.reverse_reverse]
    obtain ⟨rest, rfl, hrest⟩ := SelfSyncCode.exists_of_append_code hs'
    refine ⟨rest, by rw [← hrest, List.reverse_reverse], ?_⟩
    rwa [List.filter_append, List.filter_cons_of_neg (by simp [hc]), List.filter_nil,
      List.append_nil] at hnumeric
  obtain ⟨text', heq', hnumeric'⟩ := hback
  refine ⟨text', ?_, hnumeric'.trans hnumeric⟩
  rw [trim, heq, heq', List.reverse_reverse]

/-! ## The last numeric character -/

/-- The last numeric character of a text. -/
def lastNumeric (text : List Char) : Option Char := (text.filter isNumeric).getLast?

/-- The bytes of a character that is not numeric are no digits. -/
theorem isDigit_of_mem_code {c : Char} (hc : isNumeric c = false) {b : UInt8}
    (hb : b ∈ utf8Code.code c) : isDigit b = false := by
  rw [← Bool.not_eq_true, isDigit_iff]
  by_cases hascii : c.toNat < 0x80
  · rw [Utf8.code_ascii hascii, List.mem_singleton] at hb
    rw [hb, Utf8.toNat_toUInt8_ascii hascii]
    exact mt (isNumeric_ascii hascii).mpr (by simp [hc])
  · have := Utf8.le_of_mem_code hascii hb
    omega

theorem isDigit_of_mem_encode {text : List Char} (h : ∀ c ∈ text, isNumeric c = false) {b : UInt8}
    (hb : b ∈ utf8Code.encode text) : isDigit b = false := by
  obtain ⟨c, hc, hb⟩ := List.mem_flatMap.mp hb
  exact isDigit_of_mem_code (h c hc) hb

/-- Behind a digit with nothing numeric behind it, the slices are the two parts of the text that
its last digit ends. -/
theorem cut_behind_digit (front : List Char) {back : List Char} {c : Char} (hascii : c.toNat < 0x80)
    (hc : isNumeric c = true) (hback : ∀ d ∈ back, isNumeric d = false) :
    let s := utf8Code.encode (front ++ c :: back)
    Str.sliceTo s ((utf8Code.encode front).length + 1) =
        some (s.rdropWhile fun b => !isDigit b) ∧
      Str.sliceFrom s ((utf8Code.encode front).length + 1) =
        some (s.rtakeWhile fun b => !isDigit b) := by
  intro s
  have hend : ∀ b ∈ (utf8Code.encode (front ++ [c])).getLast?, (!isDigit b) = false := by
    rw [SelfSyncCode.encode_append, SelfSyncCode.encode_cons, Utf8.code_ascii hascii,
      SelfSyncCode.encode_nil, List.append_nil, List.getLast?_concat]
    rintro b ⟨⟩
    have hdigit : isDigit c.val.toUInt8 = true := by
      rw [isDigit_iff, Utf8.toNat_toUInt8_ascii hascii]
      exact (isNumeric_ascii hascii).mp hc
    rw [hdigit]
    rfl
  obtain ⟨hnumber, hunit⟩ := Text.rdropWhile_rtakeWhile_append hend
    fun b hb => by rw [isDigit_of_mem_encode hback hb]; rfl
  have hs : s = utf8Code.encode (front ++ [c]) ++ utf8Code.encode back := by
    rw [← SelfSyncCode.encode_append, ← List.append_cons]
  rw [← hs] at hnumber hunit
  rw [hnumber, hunit, ← Str.length_encode_concat front hascii, hs, ← SelfSyncCode.encode_append]
  exact ⟨Str.sliceTo_encode _ back, Str.sliceFrom_encode _ back⟩

section Panics

variable {F : Type} (P : ValueParsers F)

/-- A text that is read as a whole is not sliced. -/
theorem slicedParseBytes_of_whole {value : Bytes}
    (h : parseUnsigned (trim value) ≠ none ∨ P.byte (trim value) ≠ none) :
    slicedParseBytes P value = some (parseBytes P value) := by
  simp only [slicedParseBytes, parseBytes]
  cases hunsigned : parseUnsigned (trim value) with
  | some bytes => rfl
  | none =>
      cases hbyte : P.byte (trim value) with
      | some bytes => rfl
      | none => exact absurd hbyte (h.resolve_left (absurd hunsigned))

/-- **Where the slices are cuts** `parse_bytes` is `parseBytes`. -/
theorem slicedParseBytes_of_lastNumeric {text : List Char}
    (h : ∀ c ∈ lastNumeric text, c.toNat < 0x80) :
    slicedParseBytes P (utf8Code.encode text) = some (parseBytes P (utf8Code.encode text)) := by
  by_cases hwhole : parseUnsigned (trim (utf8Code.encode text)) ≠ none ∨
      P.byte (trim (utf8Code.encode text)) ≠ none
  · exact slicedParseBytes_of_whole P hwhole
  obtain ⟨hunsigned, hbyte⟩ := not_or.mp hwhole
  rw [not_not] at hunsigned hbyte
  obtain ⟨text', htrim, hnumeric⟩ := trim_encode text
  rw [htrim] at hunsigned hbyte
  rw [lastNumeric, ← hnumeric] at h
  simp only [slicedParseBytes, parseBytes, htrim, hunsigned, hbyte]
  cases hlast : (text'.filter isNumeric).getLast? with
  | none =>
      have hnone : ∀ c ∈ text', isNumeric c = false := by
        simpa using List.getLast?_eq_none_iff.mp hlast
      have hnumber : (utf8Code.encode text').rdropWhile (fun b => !isDigit b) = [] := by
        refine List.rdropWhile_eq_nil_iff.mpr fun b hb => ?_
        rw [isDigit_of_mem_encode hnone hb]
        rfl
      simp only [Str.rfind_encode_eq_none hnone, hnumber]
      rfl
  | some c =>
      obtain ⟨front, back, rfl, hc, hback⟩ := Text.exists_of_getLast?_filter hlast
      obtain ⟨hto, hfrom⟩ := cut_behind_digit front (h c hlast) hc hback
      simp only [Str.rfind_encode hc hback, hto, hfrom, Option.bind_some, Option.map_some]
      cases parseUnsigned (trim ((utf8Code.encode (front ++ c :: back)).rdropWhile
          fun b => !isDigit b)) with
      | none => rfl
      | some number => rfl

/-- Behind a numeric character of several bytes the slice panics. -/
theorem slicedParseBytes_eq_none {text : List Char}
    (hunsigned : parseUnsigned (trim (utf8Code.encode text)) = none)
    (hbyte : P.byte (trim (utf8Code.encode text)) = none)
    {c : Char} (hc : c ∈ lastNumeric text) (hwide : ¬ c.toNat < 0x80) :
    slicedParseBytes P (utf8Code.encode text) = none := by
  obtain ⟨text', htrim, hnumeric⟩ := trim_encode text
  rw [lastNumeric, ← hnumeric] at hc
  rw [htrim] at hunsigned hbyte
  obtain ⟨front, back, rfl, hc, hback⟩ := Text.exists_of_getLast?_filter hc
  have hcut : Str.sliceTo (utf8Code.encode (front ++ c :: back))
      ((utf8Code.encode front).length + 1) = none :=
    if_neg fun h => hwide ((Str.isCharBoundary_succ_iff front back c).mp h)
  simp only [slicedParseBytes, htrim, hunsigned, hbyte, Str.rfind_encode hc hback, hcut]
  rfl

/-- Where it does not panic, `ByteSize::parse` is `byteSize`. -/
theorem slicedByteSize_eq {sec key value : Bytes}
    (h : slicedParseBytes P value = some (parseBytes P value)) :
    slicedByteSize P sec key value = some (byteSize P sec key value) := by
  rw [slicedByteSize, h]
  rfl

/-- **A size option is parsed without a panic** iff it is a plain number, a text the given
parser takes, or a text whose last numeric character is ASCII, if it has one. -/
theorem slicedByteSize_ne_none_iff (text : List Char) (sec key : Bytes) :
    slicedByteSize P sec key (utf8Code.encode text) ≠ none ↔
      parseUnsigned (trim (utf8Code.encode text)) ≠ none ∨
        P.byte (trim (utf8Code.encode text)) ≠ none ∨
          ∀ c ∈ lastNumeric text, c.toNat < 0x80 := by
  constructor
  · intro h
    by_contra hnot
    simp only [not_or, not_not, not_forall] at hnot
    obtain ⟨hunsigned, hbyte, c, hc, hwide⟩ := hnot
    apply h
    rw [slicedByteSize, slicedParseBytes_eq_none P hunsigned hbyte hc hwide]
    rfl
  · intro h
    have hparse : slicedParseBytes P (utf8Code.encode text) =
        some (parseBytes P (utf8Code.encode text)) := by
      rcases h with h | h | h
      · exact slicedParseBytes_of_whole P (Or.inl h)
      · exact slicedParseBytes_of_whole P (Or.inr h)
      · exact slicedParseBytes_of_lastNumeric P h
    rw [slicedByteSize_eq P hparse]
    exact Option.some_ne_none _

/-- **Failing input**: a superscript two is numeric, and two bytes long.  The parser is one that
rejects it. -/
theorem slicedByteSize_panics :
    ¬ ∀ text : List Char, slicedByteSize rejectingParsers (ascii "io") (ascii "read.chunk_size")
      (utf8Code.encode text) ≠ none := by
  intro h
  exact h ['²'] (by decide +kernel)

end Panics

end DuckdbOpendal
