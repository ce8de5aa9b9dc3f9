import DuckdbOpendal.OperatorConfig

/-!
# The values of options

`opendal/src/config/value.rs`: what the text of an option parses to.  The parsers of
third-party packages, `human_units` and that of `f32`, are given; the integers, the
booleans, the paths and the size units are the extension's own.

## Main Definitions

* `ValueParsers` — the given parsers
* `parseUnsigned`, `parseBytes` — integers and sizes
* `positiveUsize`, `usizeValue`, `float`, `boolean`, `byteSize`, `humanDuration`,
  `nonEmptyPath` — the values of options, or their errors
-/

namespace DuckdbOpendal

/-- The parsers the extension takes from elsewhere. -/
structure ValueParsers (F : Type) where
  /-- `human_units::iec::Byte`. -/
  byte : Bytes → Option U64
  /-- `human_units::Duration`, in nanoseconds. -/
  duration : Bytes → Option ℕ
  /-- `f32`. -/
  float : Bytes → Option F
  isFinite : F → Bool
  lessThanOne : F → Bool

/-! ## Integers and sizes -/

/-- An ASCII digit. -/
def isDigit (b : UInt8) : Bool := 0x30 ≤ b && b ≤ 0x39

theorem isDigit_iff {b : UInt8} : isDigit b = true ↔ 48 ≤ b.toNat ∧ b.toNat ≤ 57 := by
  simp [isDigit, UInt8.le_iff_toNat_le]

/-- `str::parse` at `u64` and `usize`: digits, behind an optional plus. -/
def parseUnsigned (text : Bytes) : Option ℕ :=
  let digits := if text.head? = some 0x2B then text.tail else text
  let n := digits.foldl (fun n b => 10 * n + (b.toNat - 0x30)) 0
  if digits ≠ [] ∧ digits.all isDigit ∧ n < 2 ^ 64 then some n else none

/-- The characters of Unicode's `White_Space`, encoded. -/
def whitespace : List Bytes :=
  [[0x09], [0x0A], [0x0B], [0x0C], [0x0D], [0x20], [0xC2, 0x85], [0xC2, 0xA0],
    [0xE1, 0x9A, 0x80], [0xE2, 0x80, 0x80], [0xE2, 0x80, 0x81], [0xE2, 0x80, 0x82],
    [0xE2, 0x80, 0x83], [0xE2, 0x80, 0x84], [0xE2, 0x80, 0x85], [0xE2, 0x80, 0x86],
    [0xE2, 0x80, 0x87], [0xE2, 0x80, 0x88], [0xE2, 0x80, 0x89], [0xE2, 0x80, 0x8A],
    [0xE2, 0x80, 0xA8], [0xE2, 0x80, 0xA9], [0xE2, 0x80, 0xAF], [0xE2, 0x81, 0x9F],
    [0xE3, 0x80, 0x80]]

/-- Drop any of the given texts from the start, at most `fuel` times. -/
def dropPrefixes (texts : List Bytes) : ℕ → Bytes → Bytes
  | 0, s => s
  | fuel + 1, s =>
      match texts.find? fun text => text <+: s with
      | none => s
      | some text => dropPrefixes texts fuel (s.drop text.length)

theorem whitespace_ne_nil : ∀ word ∈ whitespace, word ≠ [] := by decide

theorem dropPrefixes_eq_self {texts : List Bytes} {s : Bytes}
    (h : ∀ text ∈ texts, ¬ text <+: s) (fuel : ℕ) : dropPrefixes texts fuel s = s := by
  have hfind : (texts.find? fun text => text <+: s) = none := by simpa using h
  cases fuel with
  | zero => rfl
  | succ fuel => rw [dropPrefixes, hfind]

/-- `str::trim`. -/
def trim (s : Bytes) : Bytes :=
  let s := dropPrefixes whitespace s.length s
  (dropPrefixes (whitespace.map List.reverse) s.length s.reverse).reverse

/-- The units of `parse_bytes`, with their factors, and whether they count bits. -/
def sizeUnits : List (Bytes × ℕ × Bool) :=
  [(ascii "B", 1, false), (ascii "kB", 1000, false), (ascii "KB", 1000, false),
    (ascii "MB", 1000 ^ 2, false), (ascii "GB", 1000 ^ 3, false), (ascii "TB", 1000 ^ 4, false),
    (ascii "PB", 1000 ^ 5, false), (ascii "EB", 1000 ^ 6, false), (ascii "b", 1, true),
    (ascii "kb", 1000, true), (ascii "Mb", 1000 ^ 2, true), (ascii "Gb", 1000 ^ 3, true),
    (ascii "Tb", 1000 ^ 4, true), (ascii "Kib", 2 ^ 10, true), (ascii "Mib", 2 ^ 20, true),
    (ascii "Gib", 2 ^ 30, true), (ascii "Tib", 2 ^ 40, true), (ascii "Pib", 2 ^ 50, true),
    (ascii "Eib", 2 ^ 60, true)]

/-- `u64::checked_mul`. -/
def checkedMul (a b : ℕ) : Option ℕ := if a * b < 2 ^ 64 then some (a * b) else none

/-- So many of a unit, in bytes. -/
def inBytes (number : ℕ) (unit : ℕ × Bool) : Option ℕ :=
  (checkedMul number unit.1).bind fun value =>
    if unit.2 then if value % 8 = 0 then some (value / 8) else none else some value

section Values

variable {F : Type} (P : ValueParsers F)

/-- `parse_bytes`.  Numeric characters other than digits make the cut behind the last one
panic; here they belong to the unit, and no unit has them. -/
def parseBytes (value : Bytes) : Option ℕ :=
  let value := trim value
  match parseUnsigned value with
  | some bytes => some bytes
  | none =>
      match P.byte value with
      | some bytes => some bytes.val
      | none =>
          (parseUnsigned (trim (value.rdropWhile fun b => !isDigit b))).bind fun number =>
            (sizeUnits.lookup (trim (value.rtakeWhile fun b => !isDigit b))).bind
              (inBytes number)

/-! ## Values and their errors -/

/-- `unknown`. -/
def unknownOption (sec key : Bytes) : Bytes :=
  ascii "unknown OpenDAL option '" ++ sec ++ ascii "." ++ key ++ ascii "'"

/-- `invalid`. -/
def invalidOption (sec key value : Bytes) (expected : String) : Bytes :=
  ascii "invalid " ++ sec ++ ascii "." ++ key ++ ascii "='" ++ value ++ ascii "': " ++
    ascii expected

/-- A parsed value, or the error about it. -/
def orInvalid {α : Type} (parsed : Option α) (sec key value : Bytes) (expected : String) :
    Except Bytes α :=
  match parsed with
  | some a => .ok a
  | none => .error (invalidOption sec key value expected)

/-- `NonZeroUsize`. -/
abbrev NonZeroUsize := {n : ℕ // 0 < n}

/-- `NonZeroUsize::new`. -/
def NonZeroUsize.new (n : ℕ) : Option NonZeroUsize := if h : 0 < n then some ⟨n, h⟩ else none

/-- `positive_usize`. -/
def positiveUsize (sec key value : Bytes) : Except Bytes NonZeroUsize :=
  orInvalid ((parseUnsigned value).bind NonZeroUsize.new) sec key value
    "expected a positive integer"

/-- `usize_value`. -/
def usizeValue (sec key value : Bytes) : Except Bytes ℕ :=
  orInvalid (parseUnsigned value) sec key value "expected a non-negative integer"

/-- `float`. -/
def float (sec key value : Bytes) : Except Bytes F :=
  orInvalid (P.float value) sec key value "expected a number"

/-- The booleans. -/
def parseBoolean (value : Bytes) : Option Bool :=
  if value = ascii "true" ∨ value = ascii "1" then some true
  else if value = ascii "false" ∨ value = ascii "0" then some false
  else none

/-- `boolean`. -/
def boolean (sec key value : Bytes) : Except Bytes Bool :=
  orInvalid (parseBoolean value) sec key value "expected true, false, 1, or 0"

/-- `ByteSize::parse`; a `usize` has 64 bits. -/
def byteSize (sec key value : Bytes) : Except Bytes ℕ := do
  let bytes ← orInvalid (parseBytes P value) sec key value
    "expected bytes or a size such as '8 MB', '8 MiB', or '64 Mib'"
  if bytes < 2 ^ 64 then .ok bytes
  else .error (sec ++ ascii "." ++ key ++ ascii " exceeds the platform size limit")

/-- `HumanDuration::parse`. -/
def humanDuration (sec key value : Bytes) : Except Bytes ℕ :=
  orInvalid (P.duration value) sec key value "expected seconds or a duration such as '500ms'"

/-- `non_empty_path`. -/
def nonEmptyPath (sec key value : Bytes) : Except Bytes Bytes :=
  if value = [] then .error (invalidOption sec key value "path must not be empty")
  else .ok value

/-! ## Parsed values -/

theorem orInvalid_eq_ok {α : Type} {parsed : Option α} {sec key value : Bytes} {expected : String}
    {a : α} : orInvalid parsed sec key value expected = .ok a ↔ parsed = some a := by
  cases parsed with
  | none => simp [orInvalid]
  | some b => simp [orInvalid]

theorem parseUnsigned_lt {text : Bytes} {n : ℕ} (h : parseUnsigned text = some n) :
    n < 2 ^ 64 := by
  obtain ⟨⟨-, -, hlt⟩, hn⟩ := Option.ite_none_right_eq_some.mp h
  cases hn
  exact hlt

theorem inBytes_lt {number n : ℕ} {unit : ℕ × Bool} (h : inBytes number unit = some n) :
    n < 2 ^ 64 := by
  obtain ⟨value, hvalue, h⟩ := Option.bind_eq_some_iff.mp h
  obtain ⟨hlt, hproduct⟩ := Option.ite_none_right_eq_some.mp hvalue
  cases hproduct
  split at h
  · obtain ⟨-, hn⟩ := Option.ite_none_right_eq_some.mp h
    cases hn
    exact lt_of_le_of_lt (Nat.div_le_self _ _) hlt
  · cases h
    exact hlt

/-- Every size fits a `u64`. -/
theorem parseBytes_lt {value : Bytes} {n : ℕ} (h : parseBytes P value = some n) : n < 2 ^ 64 := by
  simp only [parseBytes] at h
  split at h
  · rename_i hvalue
    cases h
    exact parseUnsigned_lt hvalue
  split at h
  · rename_i bytes _
    cases h
    exact bytes.isLt
  · obtain ⟨number, -, h⟩ := Option.bind_eq_some_iff.mp h
    obtain ⟨unit, -, h⟩ := Option.bind_eq_some_iff.mp h
    exact inBytes_lt h

/-- **A size** is what `parse_bytes` makes of the text. -/
theorem byteSize_eq_ok {sec key value : Bytes} {n : ℕ} :
    byteSize P sec key value = .ok n ↔ parseBytes P value = some n := by
  rw [byteSize, bind_eq_ok]
  constructor
  · rintro ⟨bytes, hbytes, h⟩
    split at h
    · cases h
      exact orInvalid_eq_ok.mp hbytes
    · cases h
  · intro h
    exact ⟨n, orInvalid_eq_ok.mpr h, if_pos (parseBytes_lt P h)⟩

theorem nonEmptyPath_eq_ok {sec key value path : Bytes} :
    nonEmptyPath sec key value = .ok path ↔ value ≠ [] ∧ path = value := by
  unfold nonEmptyPath
  split
  · rename_i h
    simp [h]
  · rename_i h
    simp [h, eq_comm]

end Values

/-- Parsers that take nothing. -/
def rejectingParsers : ValueParsers Unit where
  byte _ := none
  duration _ := none
  float _ := none
  isFinite _ := true
  lessThanOne _ := false

example : parseBytes rejectingParsers (ascii " 8 Mb") = some 1000000 := by decide +kernel

end DuckdbOpendal
