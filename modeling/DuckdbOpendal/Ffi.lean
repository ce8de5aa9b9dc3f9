import Mathlib.Algebra.Group.Nat.Defs
import Mathlib.Algebra.GroupWithZero.Nat
import Mathlib.Data.List.Lex
import Mathlib.Data.List.TakeWhile
import DuckdbOpendal.Lib.Utf8

/-!
# Strings and errors at the FFI boundary

The C++ shell and the Rust core exchange NUL-terminated byte strings and an
`OdError` out-parameter.  Both sides are modelled over plain byte lists: a
`std::string` is any byte list, a C string denotes the bytes before its first
NUL, and a Rust `&str` is a byte list that passes `Utf8.isUtf8`.

## Main Definitions

* `Bytes` — byte strings, with the order of `std::string::operator<`
* `cstr` — what the Rust side reads through a `*const c_char`
* `CString.new` — Rust's checked conversion to a C string
* `OdError` — the error out-parameter
-/

/-- The unsigned order, in which `char_traits<char>::compare` and `[u8]`
comparisons order bytes. -/
instance instLinearOrderByte : LinearOrder UInt8 where
  le_refl := UInt8.le_refl
  le_trans _ _ _ := UInt8.le_trans
  le_antisymm _ _ := UInt8.le_antisymm
  le_total := UInt8.le_total
  lt_iff_le_not_ge a b := by
    rw [UInt8.lt_iff_toNat_lt, UInt8.le_iff_toNat_le, UInt8.le_iff_toNat_le]
    omega
  toDecidableLE := inferInstance
  toDecidableLT := inferInstance

namespace DuckdbOpendal

/-- A byte string: a `std::string`, or the bytes of a Rust string. -/
abbrev Bytes := List UInt8

/-- A `u64`. -/
abbrev U64 := Fin (2 ^ 64)

instance instNeZeroU64 : NeZero (2 ^ 64) := ⟨by decide⟩

/-- The bytes of an ASCII literal. -/
def ascii (s : String) : Bytes := s.toList.map fun c => c.toNat.toUInt8

/-- `std::to_string` of an unsigned number. -/
def decimal (n : ℕ) : Bytes := (Nat.toDigits 10 n).map fun c => c.toNat.toUInt8

theorem toNat_of_isDigit {c : Char} (h : c.isDigit) : 48 ≤ c.toNat ∧ c.toNat ≤ 57 := by
  simpa [Char.isDigit, UInt32.le_iff_toNat_le] using h

/-- The characters of a numeral are digits, and bytes. -/
theorem toNat_of_mem_toDigits {n : ℕ} {c : Char} (hc : c ∈ Nat.toDigits 10 n) :
    48 ≤ c.toNat ∧ c.toNat ≤ 57 ∧ c.toNat.toUInt8.toNat = c.toNat := by
  obtain ⟨hge, hle⟩ :=
    toNat_of_isDigit (Nat.isDigit_of_mem_toDigits (by decide) (le_refl 10) hc)
  refine ⟨hge, hle, ?_⟩
  simp only [Nat.toUInt8_eq, UInt8.toNat_ofNat']
  omega

/-- Distinct numbers have distinct numerals. -/
theorem decimal_injective : Function.Injective decimal := by
  have hback : ∀ n, (decimal n).map (fun b => Char.ofNat b.toNat) = Nat.toDigits 10 n := by
    intro n
    rw [decimal, List.map_map]
    refine (List.map_congr_left fun c hc => ?_).trans (List.map_id _)
    obtain ⟨-, -, hbyte⟩ := toNat_of_mem_toDigits hc
    simp only [Function.comp_apply, hbyte, Char.ofNat_toNat, id_eq]
  intro m n h
  rw [← Nat.ofDigitChars_ten_toDigits (n := m), ← hback, h, hback,
    Nat.ofDigitChars_ten_toDigits]

theorem toNat_of_mem_decimal {n : ℕ} {b : UInt8} (h : b ∈ decimal n) :
    48 ≤ b.toNat ∧ b.toNat ≤ 57 := by
  obtain ⟨c, hc, rfl⟩ := List.mem_map.mp h
  obtain ⟨hge, hle, hbyte⟩ := toNat_of_mem_toDigits hc
  rw [hbyte]
  exact ⟨hge, hle⟩

/-- A numeral has no byte beyond the digits. -/
theorem le_of_mem_decimal {n : ℕ} {b : UInt8} (h : b ∈ decimal n) : b ≤ 0x39 :=
  UInt8.le_iff_toNat_le.mpr (toNat_of_mem_decimal h).2

/-- The bytes a NUL-terminated pointer into `s` denotes (`std::string::c_str`). -/
def cStr (s : Bytes) : Bytes := s.takeWhile (· ≠ 0)

theorem cStr_of_notMem {s : Bytes} (h : 0 ∉ s) : cStr s = s :=
  List.takeWhile_eq_self_iff.mpr fun b hb => by
    simpa using fun h0 : b = 0 => h (h0 ▸ hb)

theorem notMem_cStr (s : Bytes) : 0 ∉ cStr s := by
  intro h
  simpa using List.mem_takeWhile_imp h

/-- A text arrives whole if and only if it has no NUL. -/
theorem cStr_eq_self_iff {s : Bytes} : cStr s = s ↔ 0 ∉ s :=
  ⟨fun h => h ▸ notMem_cStr s, cStr_of_notMem⟩

/-- What follows a NUL is cut off. -/
theorem cStr_append_of_mem {s : Bytes} (h : 0 ∈ s) (rest : Bytes) : cStr (s ++ rest) = cStr s := by
  have hlength : (s.takeWhile (· ≠ 0)).length ≠ s.length := fun hlength =>
    cStr_eq_self_iff.mp ((List.takeWhile_prefix _).eq_of_length hlength) h
  rw [cStr, List.takeWhile_append, if_neg hlength, cStr]

/-- `ffi::cstr`: read a non-null C string as a `&str`. -/
def cstr (s : Bytes) : Option Bytes :=
  if Utf8.isUtf8 (cStr s) then some (cStr s) else none

theorem cstr_of_utf8 {s : Bytes} (h0 : 0 ∉ s) (hs : Utf8.isUtf8 s = true) :
    cstr s = some s := by
  simp [cstr, cStr_of_notMem h0, hs]

/-- A text that has been read is a C string that is valid UTF-8. -/
theorem cstr_eq_some_iff {s t : Bytes} :
    cstr s = some t ↔ Utf8.isUtf8 (cStr s) = true ∧ t = cStr s := by
  unfold cstr
  split
  · rename_i hs
    rw [Option.some.injEq, eq_comm, and_iff_right hs]
  · rename_i hs
    exact iff_of_false (fun h => Option.some_ne_none t h.symm) fun h => hs h.1

/-- `CString::new`: refuse a text with an interior NUL. -/
def CString.new (s : Bytes) : Option Bytes := if 0 ∈ s then none else some s

@[simp] theorem CString.new_eq_some_iff {s t : Bytes} :
    CString.new s = some t ↔ 0 ∉ s ∧ s = t := by
  unfold CString.new
  split <;> simp_all

/-- `OdErrorCode`. -/
inductive OdErrorCode where
  | Ok
  | NotFound
  | PermissionDenied
  | NotADirectory
  | IsADirectory
  | AlreadyExists
  | InvalidInput
  | Unsupported
  | Unexpected
  | Panic
  | Other
  deriving DecidableEq, Repr

/-- The error a failing entry point leaves in its `OdError` out-parameter. -/
structure OdError where
  code : OdErrorCode
  message : Bytes
  deriving DecidableEq, Repr

end DuckdbOpendal
