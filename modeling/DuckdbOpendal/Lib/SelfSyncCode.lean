import DuckdbOpendal.Lib.Text

/-!
# Self-synchronising codes

A code spells every symbol of one alphabet as a word over another.  In a self-synchronising
code the first symbol of a word, its lead, occurs at no other place of a word, and a word
can be read off the front of a text.  A text can then be searched and cut on either side of
the code.

## Main Definitions

* `SelfSyncCode` — a self-synchronising code
* `SelfSyncCode.encode` — a text, spelled out

## Main Results

* `SelfSyncCode.splitOnce_encode` — splitting commutes with encoding
* `SelfSyncCode.exists_boundary` — the cuts of an encoded text
* `SelfSyncCode.exists_of_code_append`, `SelfSyncCode.exists_of_append_code` — its ends
-/

universe u v

/-- A self-synchronising code. -/
structure SelfSyncCode (α : Type u) (β : Type v) where
  code : β → List α
  IsLead : α → Prop
  lead : ∀ c, ∃ a tail, code c = a :: tail ∧ IsLead a ∧ ∀ b ∈ tail, ¬ IsLead b
  unique : ∀ c d x y, code c ++ x = code d ++ y → c = d

namespace SelfSyncCode

variable {α : Type u} {β : Type v} (C : SelfSyncCode α β)

/-! ## Encoded texts -/

/-- A text, spelled out. -/
def encode (text : List β) : List α := text.flatMap C.code

@[simp] theorem encode_nil : C.encode [] = [] := rfl

@[simp] theorem encode_cons (c : β) (text : List β) :
    C.encode (c :: text) = C.code c ++ C.encode text := rfl

@[simp] theorem encode_append (text text' : List β) :
    C.encode (text ++ text') = C.encode text ++ C.encode text' := List.flatMap_append

variable {C}

theorem code_ne_nil (c : β) : C.code c ≠ [] := by
  obtain ⟨a, tail, hcode, -⟩ := C.lead c
  rw [hcode]
  exact List.cons_ne_nil a tail

theorem encode_eq_nil_iff {text : List β} : C.encode text = [] ↔ text = [] := by
  cases text with
  | nil => simp
  | cons c text => simp [code_ne_nil]

/-- A symbol of a word is its lead, or none. -/
theorem lead_or_not {c : β} {a : α} (h : a ∈ C.code c) :
    (∃ tail, C.code c = a :: tail ∧ C.IsLead a) ∨ ¬ C.IsLead a := by
  obtain ⟨b, tail, hcode, hlead, htail⟩ := C.lead c
  rw [hcode] at h
  rcases List.mem_cons.mp h with rfl | h
  · exact Or.inl ⟨tail, hcode, hlead⟩
  · exact Or.inr (htail a h)

theorem isLead_of_code {d : β} {a : α} (hd : C.code d = [a]) : C.IsLead a := by
  obtain ⟨b, tail, hcode, hlead, -⟩ := C.lead d
  rw [hd] at hcode
  cases hcode
  exact hlead

/-- A symbol that is a word of its own occurs in no other word. -/
theorem eq_of_mem_code {c d : β} {a : α} (hd : C.code d = [a]) (h : a ∈ C.code c) : c = d := by
  rcases lead_or_not h with ⟨tail, hcode, -⟩ | hnot
  · apply C.unique c d [] tail
    rw [hcode, hd]
    simp
  · exact absurd (isLead_of_code hd) hnot

theorem mem_encode_iff {d : β} {a : α} (hd : C.code d = [a]) (text : List β) :
    a ∈ C.encode text ↔ d ∈ text := by
  constructor
  · intro h
    obtain ⟨c, hc, ha⟩ := List.mem_flatMap.mp h
    exact eq_of_mem_code hd ha ▸ hc
  · intro h
    refine List.mem_flatMap.mpr ⟨d, h, ?_⟩
    rw [hd]
    exact List.mem_singleton_self a

theorem head?_encode_iff {d : β} {a : α} (hd : C.code d = [a]) (text : List β) :
    (C.encode text).head? = some a ↔ text.head? = some d := by
  cases text with
  | nil => simp
  | cons c text =>
      obtain ⟨b, tail, hcode, -⟩ := C.lead c
      have hhead : (C.encode (c :: text)).head? = some b := by
        rw [encode_cons, hcode]
        rfl
      rw [hhead, List.head?_cons, Option.some.injEq, Option.some.injEq]
      constructor
      · rintro rfl
        exact eq_of_mem_code hd (hcode ▸ List.mem_cons_self)
      · rintro rfl
        rw [hd] at hcode
        cases hcode
        rfl

/-- A word of one symbol is all that its symbol takes from the front. -/
theorem tail_encode {d : β} {a : α} (hd : C.code d = [a]) {text : List β}
    (h : text.head? = some d) : (C.encode text).tail = C.encode text.tail := by
  obtain ⟨rest, rfl⟩ := List.head?_eq_some_iff.mp h
  rw [encode_cons, hd]
  rfl

/-- **Splitting commutes with encoding.** -/
theorem splitOnce_encode [DecidableEq α] [DecidableEq β] {d : β} {a : α} (hd : C.code d = [a])
    (text : List β) :
    Text.splitOnce [a] (C.encode text) =
      (Text.splitOnce [d] text).map fun parts => (C.encode parts.1, C.encode parts.2) := by
  cases hsplit : Text.splitOnce [d] text with
  | none =>
      have hnot := Text.notMem_of_splitOnce_singleton_eq_none hsplit
      rw [Text.splitOnce_singleton_eq_none fun h => hnot ((mem_encode_iff hd text).mp h)]
      rfl
  | some parts =>
      obtain ⟨x, y⟩ := parts
      have hnot := Text.notMem_of_splitOnce_singleton hsplit
      have htext : C.encode text = C.encode x ++ a :: C.encode y := by
        rw [Text.splitOnce_eq_some hsplit, encode_append, encode_append, encode_cons, hd]
        simp
      rw [htext, Text.splitOnce_singleton fun h => hnot ((mem_encode_iff hd x).mp h)]
      rfl

/-- **Every cut of an encoded text is, up to the rest of one word, a cut of the text.** -/
theorem exists_boundary {text : List β} {y z : List α} (h : y ++ z = C.encode text) :
    ∃ text₁ text₂ rest, text = text₁ ++ text₂ ∧ y ++ rest = C.encode text₁ ∧
      z = rest ++ C.encode text₂ ∧
      ∀ b ∈ rest, ¬ C.IsLead b ∧ ∃ c ∈ text₁.getLast?, b ∈ C.code c := by
  induction text generalizing y with
  | nil =>
      obtain ⟨rfl, rfl⟩ := List.append_eq_nil_iff.mp h
      exact ⟨[], [], [], rfl, rfl, rfl, by simp⟩
  | cons c text ih =>
      rw [encode_cons] at h
      rcases List.append_eq_append_iff.mp h with ⟨rest, hcode, hz⟩ | ⟨y', hy, htext⟩
      · cases y with
        | nil =>
            refine ⟨[], c :: text, [], rfl, rfl, ?_, by simp⟩
            rw [encode_cons, hcode, hz]
            rfl
        | cons a y =>
            -- The cut lies behind the lead of the first word.
            refine ⟨[c], text, rest, rfl, by simp [hcode], hz, fun b hb => ?_⟩
            obtain ⟨a', tail, hlead, -, htail⟩ := C.lead c
            have hmem : b ∈ C.code c := hcode ▸ List.mem_append_right _ hb
            refine ⟨htail b ?_, c, rfl, hmem⟩
            rw [hcode, List.cons_append, List.cons.injEq] at hlead
            exact hlead.2 ▸ List.mem_append_right _ hb
      · obtain ⟨text₁, text₂, rest, rfl, hy', hz, hrest⟩ := ih htext.symm
        refine ⟨c :: text₁, text₂, rest, rfl, ?_, hz, fun b hb => ?_⟩
        · rw [hy, List.append_assoc, hy', encode_cons]
        · obtain ⟨hlead, c', hc', hb'⟩ := hrest b hb
          rw [Option.mem_def] at hc'
          exact ⟨hlead, c', by simp [List.getLast?_cons, hc'], hb'⟩

/-- A word at the front of a text is its first symbol. -/
theorem exists_of_code_append {text : List β} {c : β} {z : List α}
    (h : C.encode text = C.code c ++ z) : ∃ rest, text = c :: rest ∧ z = C.encode rest := by
  cases text with
  | nil => exact absurd (List.append_eq_nil_iff.mp h.symm).1 (code_ne_nil c)
  | cons d rest =>
      obtain rfl : d = c := C.unique d c (C.encode rest) z h
      exact ⟨rest, rfl, (List.append_cancel_left h).symm⟩

/-- A word at the end of a text is its last symbol. -/
theorem exists_of_append_code {text : List β} {c : β} {y : List α}
    (h : C.encode text = y ++ C.code c) : ∃ rest, text = rest ++ [c] ∧ y = C.encode rest := by
  obtain ⟨text₁, text₂, rest, rfl, hy, hc, hrest⟩ := exists_boundary h.symm
  obtain ⟨a, tail, hcode, hlead, -⟩ := C.lead c
  cases rest with
  | nil =>
      rw [List.append_nil] at hy
      obtain ⟨text₃, rfl, hnil⟩ := exists_of_code_append (hc.symm.trans (List.append_nil _).symm)
      rw [encode_eq_nil_iff.mp hnil.symm]
      exact ⟨text₁, rfl, hy⟩
  | cons b rest =>
      rw [hcode, List.cons_append, List.cons.injEq] at hc
      exact absurd (hc.1 ▸ hlead) (hrest b List.mem_cons_self).1

end SelfSyncCode
