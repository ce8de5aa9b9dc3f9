import DuckdbOpendal.Lib.Utf8Code

/-!
# Texts addressed by byte

A UTF-8 text may be searched by character and cut by byte index.  A cut is defined where the
index falls between two characters only, and a search answers with the index at which the
character found starts: behind a character of several bytes, the next index is no cut.

## Main Definitions

* `Str.isCharBoundary` — the indices at which a text may be cut
* `Str.sliceTo`, `Str.sliceFrom` — the two sides of a cut
* `Str.rfind` — where the last character of a kind starts

## Main Results

* `Str.rfind_encode`, `Str.rfind_encode_eq_none` — a search, by the characters
* `Str.isCharBoundary_succ_iff` — the index behind the start of a character
-/

namespace Str

/-- Whether a byte starts a character. -/
def isBoundaryByte (b : UInt8) : Bool := b < 0x80 || 0xC0 ≤ b

/-- Whether a text may be cut at an index. -/
def isCharBoundary (s : List UInt8) (i : ℕ) : Bool :=
  i == 0 || match s[i]? with
    | none => i == s.length
    | some b => isBoundaryByte b

/-- The text before an index, which is to be a boundary. -/
def sliceTo (s : List UInt8) (i : ℕ) : Option (List UInt8) :=
  if isCharBoundary s i then some (s.take i) else none

/-- The text from an index on, which is to be a boundary. -/
def sliceFrom (s : List UInt8) (i : ℕ) : Option (List UInt8) :=
  if isCharBoundary s i then some (s.drop i) else none

/-- The character that starts at an index. -/
def charAt (s : List UInt8) (i : ℕ) : Option Char :=
  if isCharBoundary s i then (s.drop i).toByteArray.utf8DecodeChar? 0 else none

section Find

variable (p : Char → Bool) (s : List UInt8)

/-- The greatest index below a bound at which a character of the kind starts. -/
def rfindBelow : ℕ → Option ℕ
  | 0 => none
  | i + 1 => if (charAt s i).any p then some i else rfindBelow i

/-- Where the last character of a kind starts. -/
def rfind : Option ℕ := rfindBelow p s s.length

end Find

/-! ## Boundaries -/

/-- The first byte of a character, and it alone, starts one. -/
theorem code_boundary (c : Char) :
    ∃ a tail, utf8Code.code c = a :: tail ∧ isBoundaryByte a = true ∧
      ∀ b ∈ tail, isBoundaryByte b = false := by
  obtain ⟨a, tail, hcode, -⟩ := utf8Code.lead c
  refine ⟨a, tail, hcode, ?_⟩
  have hbytes := Utf8.map_toNat_code c
  rw [hcode, List.map_cons] at hbytes
  have htail : ∀ b ∈ tail, b.toNat ∈ (Utf8.scalarBytes c.toNat).tail := fun b hb => by
    rw [← hbytes]
    exact List.mem_map_of_mem hb
  have hlead : (Utf8.scalarBytes c.toNat).head? = some a.toNat := by
    rw [← hbytes]
    rfl
  simp only [isBoundaryByte, Bool.or_eq_true, decide_eq_true_eq, Bool.or_eq_false_iff,
    decide_eq_false_iff_not, UInt8.lt_iff_toNat_lt, UInt8.le_iff_toNat_le, UInt8.reduceToNat]
  unfold Utf8.scalarBytes at htail hlead
  split_ifs at htail hlead <;>
    simp only [List.head?_cons, Option.some.injEq, List.tail_cons, List.mem_cons,
      List.not_mem_nil, or_false] at htail hlead
  · exact ⟨by omega, fun b hb => absurd hb (htail b)⟩
  · exact ⟨by omega, fun b hb => by have := htail b hb; omega⟩
  · exact ⟨by omega, fun b hb => by have := htail b hb; omega⟩
  · exact ⟨by omega, fun b hb => by have := htail b hb; omega⟩

/-- A byte of a character that is not its first starts none. -/
theorem isBoundaryByte_of_not_isLead {c : Char} {b : UInt8} (hb : b ∈ utf8Code.code c)
    (hlead : ¬ utf8Code.IsLead b) : isBoundaryByte b = false := by
  obtain ⟨a, tail, hcode, -, htail⟩ := code_boundary c
  obtain ⟨a', tail', hcode', hlead', -⟩ := utf8Code.lead c
  rw [hcode] at hcode' hb
  cases hcode'
  rcases List.mem_cons.mp hb with rfl | hb
  · exact absurd hlead' hlead
  · exact htail b hb

theorem isCharBoundary_length (text₁ text₂ : List Char) :
    isCharBoundary (utf8Code.encode (text₁ ++ text₂)) (utf8Code.encode text₁).length = true := by
  have hget : (utf8Code.encode (text₁ ++ text₂))[(utf8Code.encode text₁).length]? =
      (utf8Code.encode text₂).head? := by
    rw [SelfSyncCode.encode_append, List.getElem?_append_right (le_refl _), Nat.sub_self,
      List.head?_eq_getElem?]
  rw [isCharBoundary, hget, Bool.or_eq_true]
  right
  cases text₂ with
  | nil => simp
  | cons c text₂ =>
      obtain ⟨a, tail, hcode, ha, -⟩ := code_boundary c
      rw [SelfSyncCode.encode_cons, hcode]
      exact ha

/-- **A text may be cut between two characters**, and at no other index. -/
theorem isCharBoundary_iff {text : List Char} {i : ℕ} :
    isCharBoundary (utf8Code.encode text) i = true ↔
      ∃ text₁ text₂, text = text₁ ++ text₂ ∧ i = (utf8Code.encode text₁).length := by
  constructor
  · intro h
    rcases Nat.eq_zero_or_pos i with rfl | hpos
    · exact ⟨[], text, rfl, rfl⟩
    rw [isCharBoundary, Bool.or_eq_true, beq_iff_eq] at h
    replace h := h.resolve_left hpos.ne'
    obtain ⟨text₁, text₂, rest, htext, htake, hdrop, hrest⟩ :=
      SelfSyncCode.exists_boundary (List.take_append_drop i (utf8Code.encode text))
    cases hget : (utf8Code.encode text)[i]? with
    | none =>
        rw [hget] at h
        exact ⟨text, [], (List.append_nil text).symm, beq_iff_eq.mp h⟩
    | some b =>
        have hlt : i < (utf8Code.encode text).length := (List.getElem?_eq_some_iff.mp hget).1
        simp only [hget] at h
        cases rest with
        | nil =>
            refine ⟨text₁, text₂, htext, ?_⟩
            rw [← htake, List.append_nil, List.length_take, Nat.min_eq_left hlt.le]
        | cons b' rest =>
            -- What is left of a character does not start with its first byte.
            obtain ⟨hlead, c, -, hb'⟩ := hrest b' List.mem_cons_self
            have hfirst : some b = some b' := by
              rw [← hget, ← List.head?_drop, hdrop]
              rfl
            cases hfirst
            rw [isBoundaryByte_of_not_isLead hb' hlead] at h
            cases h
  · rintro ⟨text₁, text₂, rfl, rfl⟩
    exact isCharBoundary_length text₁ text₂

/-! ## Cuts -/

theorem sliceTo_encode (text₁ text₂ : List Char) :
    sliceTo (utf8Code.encode (text₁ ++ text₂)) (utf8Code.encode text₁).length =
      some (utf8Code.encode text₁) := by
  rw [sliceTo, if_pos (isCharBoundary_length text₁ text₂), SelfSyncCode.encode_append,
    List.take_left]

theorem sliceFrom_encode (text₁ text₂ : List Char) :
    sliceFrom (utf8Code.encode (text₁ ++ text₂)) (utf8Code.encode text₁).length =
      some (utf8Code.encode text₂) := by
  rw [sliceFrom, if_pos (isCharBoundary_length text₁ text₂), SelfSyncCode.encode_append,
    List.drop_left]

theorem length_encode_concat (text : List Char) {c : Char} (hc : c.toNat < 0x80) :
    (utf8Code.encode (text ++ [c])).length = (utf8Code.encode text).length + 1 := by
  rw [SelfSyncCode.encode_append, List.length_append, SelfSyncCode.encode_cons,
    Utf8.code_ascii hc]
  rfl

/-- **The index behind the start of a character** is a boundary if the character is one byte. -/
theorem isCharBoundary_succ_iff (text₁ text₂ : List Char) (c : Char) :
    isCharBoundary (utf8Code.encode (text₁ ++ c :: text₂))
        ((utf8Code.encode text₁).length + 1) = true ↔ c.toNat < 0x80 := by
  constructor
  · intro h
    obtain ⟨a, tail, hcode, -, htail⟩ := code_boundary c
    have hsize : (utf8Code.code c).length = c.utf8Size := String.length_utf8EncodeChar c
    cases tail with
    | nil =>
        rw [hcode] at hsize
        have hle := UInt32.le_iff_toNat_le.mp (Char.utf8Size_eq_one_iff.mp hsize.symm)
        exact Nat.lt_succ_iff.mpr hle
    | cons b tail =>
        have hget : (utf8Code.encode (text₁ ++ c :: text₂))[(utf8Code.encode text₁).length + 1]? =
            some b := by
          rw [SelfSyncCode.encode_append, List.getElem?_append_right (Nat.le_add_right _ 1),
            Nat.add_sub_cancel_left, SelfSyncCode.encode_cons, hcode]
          rfl
        simp only [isCharBoundary, hget, htail b List.mem_cons_self] at h
        simp at h
  · intro hc
    rw [← length_encode_concat text₁ hc, List.append_cons]
    exact isCharBoundary_length (text₁ ++ [c]) text₂

/-! ## Searches -/

theorem charAt_encode (text₁ text₂ : List Char) (c : Char) :
    charAt (utf8Code.encode (text₁ ++ c :: text₂)) (utf8Code.encode text₁).length = some c := by
  rw [charAt, if_pos (isCharBoundary_length text₁ (c :: text₂)), SelfSyncCode.encode_append,
    List.drop_left, SelfSyncCode.encode_cons, List.toByteArray_append]
  exact ByteArray.utf8DecodeChar?_utf8EncodeChar_append

/-- The characters of a text, by the indices they start at. -/
theorem charAt_encode_eq_some {text : List Char} {i : ℕ} {c : Char}
    (h : charAt (utf8Code.encode text) i = some c) :
    ∃ text₁ text₂, text = text₁ ++ c :: text₂ ∧ i = (utf8Code.encode text₁).length := by
  obtain ⟨hboundary, hdecode⟩ := Option.ite_none_right_eq_some.mp h
  obtain ⟨text₁, text₂, rfl, rfl⟩ := isCharBoundary_iff.mp hboundary
  rw [SelfSyncCode.encode_append, List.drop_left] at hdecode
  cases text₂ with
  | nil =>
      have hempty : ([] : List UInt8).toByteArray.utf8DecodeChar? 0 = none := by decide
      cases hempty.symm.trans hdecode
  | cons d text₂ =>
      refine ⟨text₁, text₂, ?_, rfl⟩
      have hd := charAt_encode text₁ text₂ d
      rw [h] at hd
      cases hd
      rfl

section Find

variable {p : Char → Bool}

theorem rfindBelow_eq_none_iff {s : List UInt8} {n : ℕ} :
    rfindBelow p s n = none ↔ ∀ i < n, (charAt s i).any p = false := by
  induction n with
  | zero => simp [rfindBelow]
  | succ n ih =>
      rw [rfindBelow, Nat.forall_lt_succ_right]
      split
      · rename_i h
        simp [h]
      · rename_i h
        simp [ih, h]

theorem rfindBelow_eq_some {s : List UInt8} {i n : ℕ} (hi : i < n)
    (hchar : (charAt s i).any p = true) (hlast : ∀ j < n, i < j → (charAt s j).any p = false) :
    rfindBelow p s n = some i := by
  induction n with
  | zero => exact absurd hi (Nat.not_lt_zero i)
  | succ n ih =>
      rw [rfindBelow]
      rcases Nat.lt_succ_iff_lt_or_eq.mp hi with hlt | rfl
      · rw [hlast n (Nat.lt_succ_self n) hlt]
        exact ih hlt fun j hj => hlast j (Nat.lt_succ_of_lt hj)
      · rw [if_pos hchar]

/-- A text without characters of the kind. -/
theorem rfind_encode_eq_none {text : List Char} (h : ∀ c ∈ text, p c = false) :
    rfind p (utf8Code.encode text) = none := by
  refine rfindBelow_eq_none_iff.mpr fun i _ => ?_
  cases hchar : charAt (utf8Code.encode text) i with
  | none => rfl
  | some c =>
      obtain ⟨text₁, text₂, rfl, -⟩ := charAt_encode_eq_some hchar
      exact h c (by simp)

/-- **A search from the back** answers with the length of what is in front of the last character
of the kind. -/
theorem rfind_encode {text₁ text₂ : List Char} {c : Char} (hc : p c = true)
    (h : ∀ d ∈ text₂, p d = false) :
    rfind p (utf8Code.encode (text₁ ++ c :: text₂)) = some (utf8Code.encode text₁).length := by
  have hpos : 0 < (utf8Code.code c).length :=
    List.length_pos_iff.mpr (SelfSyncCode.code_ne_nil (C := utf8Code) c)
  refine rfindBelow_eq_some ?_ ?_ fun j _ hj => ?_
  · rw [SelfSyncCode.encode_append, SelfSyncCode.encode_cons, List.length_append,
      List.length_append]
    omega
  · rw [charAt_encode]
    exact hc
  · cases hchar : charAt (utf8Code.encode (text₁ ++ c :: text₂)) j with
    | none => rfl
    | some d =>
        -- A character behind the one found is one of those without the kind.
        obtain ⟨left, right, htext, rfl⟩ := charAt_encode_eq_some hchar
        rcases List.append_eq_append_iff.mp htext with ⟨mid, rfl, hmid⟩ | ⟨mid, rfl, -⟩
        · cases mid with
          | nil => simp at hj
          | cons e mid =>
              rw [List.cons_append, List.cons.injEq] at hmid
              exact h d (hmid.2 ▸ by simp)
        · rw [SelfSyncCode.encode_append, List.length_append] at hj
          omega

end Find

end Str
