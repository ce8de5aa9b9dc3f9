import Mathlib.Data.List.Basic

/-!
# Runs and tokens

A text is made of runs between separators.  A tokenizer reads it symbol by symbol: it gathers
the symbols of a run, each of them rewritten, and puts the run aside at the separator or the
end behind it.

## Main Definitions

* `Tokens.IsRun` — the maximal runs of a text
* `Tokens.collect` — the tokenizer

## Main Results

* `Tokens.mem_collect_iff` — a tokenizer collects the runs, rewritten
-/

namespace Tokens

universe u v

variable {α : Type u} {β : Type v} (isSep : α → Bool) (rewrite : α → β)

/-! ## Runs -/

/-- A maximal run of a text: some symbols, none of them a separator, between two separators or
ends of the text. -/
def IsRun (text run : List α) : Prop :=
  run ≠ [] ∧ (∀ a ∈ run, isSep a = false) ∧
    ∃ front back, text = front ++ run ++ back ∧ (∀ a ∈ front.getLast?, isSep a = true) ∧
      ∀ a ∈ back.head?, isSep a = true

variable {isSep}

/-- A text without separators that does not end without one is empty. -/
theorem eq_nil_of_getLast? {l : List α} (hlast : ∀ a ∈ l.getLast?, isSep a = true)
    (h : ∀ a ∈ l, isSep a = false) : l = [] := by
  cases hl : l.getLast? with
  | none => exact List.getLast?_eq_none_iff.mp hl
  | some a => exact absurd (hlast a hl) (by rw [h a (List.mem_of_getLast? hl)]; decide)

theorem eq_nil_of_head? {l : List α} (hhead : ∀ a ∈ l.head?, isSep a = true)
    (h : ∀ a ∈ l, isSep a = false) : l = [] := by
  cases l with
  | nil => rfl
  | cons a l => exact absurd (hhead a rfl) (by rw [h a List.mem_cons_self]; decide)

/-- A text without separators is the one run of it. -/
theorem isRun_iff_of_forall {text run : List α} (h : ∀ a ∈ text, isSep a = false) :
    IsRun isSep text run ↔ run = text ∧ text ≠ [] := by
  constructor
  · rintro ⟨hne, -, front, back, rfl, hfront, hback⟩
    obtain rfl := eq_nil_of_getLast? hfront fun a ha => h a (by simp [ha])
    obtain rfl := eq_nil_of_head? hback fun a ha => h a (by simp [ha])
    simpa using hne
  · rintro ⟨rfl, hne⟩
    exact ⟨hne, h, [], [], by simp, by simp, by simp⟩

/-- **The runs of a text** are what stands before its first separator, and the runs behind. -/
theorem isRun_append_cons_iff {x y run : List α} {c : α} (hx : ∀ a ∈ x, isSep a = false)
    (hc : isSep c = true) :
    IsRun isSep (x ++ c :: y) run ↔ (run = x ∧ x ≠ []) ∨ IsRun isSep y run := by
  constructor
  · rintro ⟨hne, hrun, front, back, htext, hfront, hback⟩
    rw [List.append_assoc] at htext
    rcases List.append_eq_append_iff.mp htext with ⟨front', rfl, htail⟩ | ⟨x', rfl, htail⟩
    · cases front' with
      | nil =>
          -- The run would start with the separator.
          obtain ⟨a, run', rfl⟩ := List.exists_cons_of_ne_nil hne
          rw [List.nil_append, List.cons_append, List.cons.injEq] at htail
          have hplain := hrun a List.mem_cons_self
          rw [← htail.1, hc] at hplain
          cases hplain
      | cons d front' =>
          rw [List.cons_append, List.cons.injEq] at htail
          refine Or.inr ⟨hne, hrun, front', back, by rw [htail.2, List.append_assoc], ?_, hback⟩
          intro a ha
          apply hfront
          rw [List.getLast?_append, List.getLast?_cons, Option.mem_def.mp ha]
          rfl
    · obtain rfl := eq_nil_of_getLast? hfront fun a ha => hx a (List.mem_append_left x' ha)
      rw [List.nil_append] at hx ⊢
      rcases List.append_eq_append_iff.mp htail with ⟨mid, hx', hmid⟩ | ⟨mid, hrun', hmid⟩
      · have hmid0 : mid = [] := by
          refine eq_nil_of_head? (fun a ha => hback a ?_) fun a ha => hx a (by simp [hx', ha])
          rw [hmid, List.head?_append, Option.mem_def.mp ha]
          rfl
        rw [hmid0, List.append_nil] at hx'
        exact Or.inl ⟨hx'.symm, hx' ▸ hne⟩
      · cases mid with
        | nil =>
            rw [List.append_nil] at hrun'
            exact Or.inl ⟨hrun', hrun' ▸ hne⟩
        | cons d mid =>
            rw [List.cons_append, List.cons.injEq] at hmid
            have hplain := hrun d (by simp [hrun'])
            rw [← hmid.1, hc] at hplain
            cases hplain
  · rintro (⟨rfl, hne⟩ | ⟨hne, hrun, front, back, rfl, hfront, hback⟩)
    · exact ⟨hne, hx, [], c :: y, by simp, by simp, by simpa using hc⟩
    · refine ⟨hne, hrun, x ++ c :: front, back, by simp, fun a ha => ?_, hback⟩
      rw [List.getLast?_append, List.getLast?_cons] at ha
      cases hlast : front.getLast? with
      | none =>
          rw [hlast] at ha
          cases ha
          exact hc
      | some d =>
          rw [hlast] at ha
          cases ha
          exact hfront d hlast

/-! ## The tokenizer -/

variable (isSep)

/-- One symbol read: the runs put aside, and the run that is being gathered. -/
def step (st : List (List β) × List β) (a : α) : List (List β) × List β :=
  if isSep a then
    if st.2.isEmpty then st else (st.2 :: st.1, [])
  else (st.1, st.2 ++ [rewrite a])

/-- The end of the text puts the last run aside. -/
def finish (st : List (List β) × List β) : List (List β) :=
  if st.2.isEmpty then st.1 else st.2 :: st.1

/-- The tokenizer. -/
def collect (text : List α) : List (List β) := finish (text.foldl (step isSep rewrite) ([], []))

variable {isSep} {rewrite}

theorem mem_finish_iff {st : List (List β) × List β} {token : List β} :
    token ∈ finish st ↔ token ∈ st.1 ∨ (token = st.2 ∧ st.2 ≠ []) := by
  unfold finish
  split
  · rename_i h
    simp [List.isEmpty_iff.mp h]
  · rename_i h
    rw [List.isEmpty_iff] at h
    rw [List.mem_cons, or_comm, and_iff_left h]

/-- What the tokenizer makes of a text behind the run that is being gathered. -/
theorem mem_finish_foldl_iff {text gathered : List α} {put : List (List β)} {token : List β}
    (h : ∀ a ∈ gathered, isSep a = false) :
    token ∈ finish (text.foldl (step isSep rewrite) (put, gathered.map rewrite)) ↔
      token ∈ put ∨ ∃ run, IsRun isSep (gathered ++ text) run ∧ run.map rewrite = token := by
  induction text generalizing put gathered with
  | nil =>
      rw [List.foldl_nil, mem_finish_iff, List.append_nil]
      simp only [isRun_iff_of_forall h]
      refine or_congr_right ⟨?_, ?_⟩
      · rintro ⟨rfl, hne⟩
        exact ⟨gathered, ⟨rfl, mt List.map_eq_nil_iff.mpr hne⟩, rfl⟩
      · rintro ⟨run, ⟨rfl, hne⟩, rfl⟩
        exact ⟨rfl, mt List.map_eq_nil_iff.mp hne⟩
  | cons a text ih =>
      rw [List.foldl_cons]
      cases ha : isSep a with
      | false =>
          have hstep : step isSep rewrite (put, gathered.map rewrite) a =
              (put, (gathered ++ [a]).map rewrite) := by
            rw [step, if_neg (by simp [ha]), List.map_append]
            rfl
          have hgathered : ∀ b ∈ gathered ++ [a], isSep b = false := by
            intro b hb
            rcases List.mem_append.mp hb with hb | hb
            · exact h b hb
            · exact List.mem_singleton.mp hb ▸ ha
          rw [hstep, ih hgathered, List.append_assoc]
          rfl
      | true =>
          -- The run ends here, if there is one; the next starts behind the separator.
          have hnext : ∀ put' : List (List β), token ∈ finish (text.foldl (step isSep rewrite)
              (put', [])) ↔ token ∈ put' ∨ ∃ run, IsRun isSep text run ∧ run.map rewrite = token :=
            fun put' => ih (show ∀ b ∈ ([] : List α), isSep b = false by simp)
          simp only [isRun_append_cons_iff h ha, or_and_right, exists_or]
          rcases List.eq_nil_or_concat gathered with rfl | ⟨front, b, hconcat⟩
          · rw [show step isSep rewrite (put, ([] : List α).map rewrite) a = (put, []) from
              if_pos ha, hnext]
            simp
          · have hne : gathered ≠ [] := by simp [hconcat]
            have hstep : step isSep rewrite (put, gathered.map rewrite) a =
                (gathered.map rewrite :: put, []) := by
              rw [step, if_pos ha, if_neg (by simpa using hne)]
            rw [hstep, hnext, List.mem_cons, or_assoc, or_left_comm]
            simp [hne, eq_comm]

/-- **A tokenizer collects the runs of the text**, rewritten. -/
theorem mem_collect_iff {text : List α} {token : List β} :
    token ∈ collect isSep rewrite text ↔ ∃ run, IsRun isSep text run ∧ run.map rewrite = token := by
  have h : ∀ a ∈ ([] : List α), isSep a = false := by simp
  exact (mem_finish_foldl_iff h).trans (by simp)

end Tokens
