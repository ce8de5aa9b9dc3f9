import Mathlib.Data.List.Basic

/-!
# Machines that answer

A stateful component driven by calls: each call moves the state and produces an
answer.  Whatever the environment decides during a call (an I/O outcome, an
allocation) is part of the input, so a step is a function and a run is a fold.

## Main Results

* `Mealy.final_append` — a run splits at any point
* `Mealy.final_invariant` — what every step preserves, every run preserves
* `Mealy.final_invariant_of_forall` — the same for runs on good inputs
* `Mealy.along_of_invariant` — a property of every step of a run
* `Mealy.exists_of_mem_steps` — where a step stands in its run
* `Mealy.simulates` — machines whose steps correspond have runs that correspond
-/

namespace Mealy

universe u v w

variable {σ : Type u} {ι : Type v} {ω : Type w} (step : σ → ι → σ × ω)

/-- The state after a sequence of inputs and the answers given on the way. -/
def run : σ → List ι → σ × List ω
  | s, [] => (s, [])
  | s, i :: is =>
      let next := step s i
      let rest := run next.1 is
      (rest.1, next.2 :: rest.2)

/-- The state a run ends in. -/
def final (s : σ) (is : List ι) : σ := (run step s is).1

/-- The answers of a run, in call order. -/
def answers (s : σ) (is : List ι) : List ω := (run step s is).2

@[simp] theorem final_nil (s : σ) : final step s [] = s := rfl

@[simp] theorem final_cons (s : σ) (i : ι) (is : List ι) :
    final step s (i :: is) = final step (step s i).1 is := rfl

@[simp] theorem answers_nil (s : σ) : answers step s [] = [] := rfl

@[simp] theorem answers_cons (s : σ) (i : ι) (is : List ι) :
    answers step s (i :: is) = (step s i).2 :: answers step (step s i).1 is := rfl

/-- A run splits at any point. -/
theorem final_append (s : σ) (is js : List ι) :
    final step s (is ++ js) = final step (final step s is) js := by
  induction is generalizing s with
  | nil => rfl
  | cons i is ih => exact ih (step s i).1

/-- What every step on a good input preserves, every run on good inputs
preserves. -/
theorem final_invariant_of_forall (Inv : σ → Prop) (Good : ι → Prop)
    (hstep : ∀ s i, Inv s → Good i → Inv (step s i).1)
    {s : σ} (hs : Inv s) {is : List ι} (his : ∀ i ∈ is, Good i) :
    Inv (final step s is) := by
  induction is generalizing s with
  | nil => exact hs
  | cons i is ih =>
      exact ih (hstep s i hs (his i List.mem_cons_self))
        fun j hj => his j (List.mem_cons_of_mem _ hj)

/-- What every step preserves, every run preserves. -/
theorem final_invariant (Inv : σ → Prop)
    (hstep : ∀ s i, Inv s → Inv (step s i).1) {s : σ} (hs : Inv s)
    (is : List ι) : Inv (final step s is) :=
  final_invariant_of_forall step Inv (fun _ => True)
    (fun s i h _ => hstep s i h) hs fun _ _ => trivial

/-- A property holds of every step of a run, at the state it is taken in. -/
def Along (P : σ → ι → Prop) : σ → List ι → Prop
  | _, [] => True
  | s, i :: is => P s i ∧ Along P (step s i).1 is

/-- **A property of every step of a run**: it holds where an invariant does, and every step
on a good input preserves the invariant. -/
theorem along_of_invariant (Inv : σ → Prop) (Good : ι → Prop) {P : σ → ι → Prop}
    (hstep : ∀ s i, Inv s → Good i → P s i ∧ Inv (step s i).1)
    {s : σ} (hs : Inv s) {is : List ι} (his : ∀ i ∈ is, Good i) : Along step P s is := by
  induction is generalizing s with
  | nil => trivial
  | cons i is ih =>
      obtain ⟨hP, hnext⟩ := hstep s i hs (his i List.mem_cons_self)
      exact ⟨hP, ih hnext fun j hj => his j (List.mem_cons_of_mem _ hj)⟩

/-- Every input of the run is taken in some state. -/
theorem Along.exists_of_mem {P : σ → ι → Prop} {s : σ} {is : List ι} (h : Along step P s is)
    {i : ι} (hi : i ∈ is) : ∃ s', P s' i := by
  induction is generalizing s with
  | nil => cases hi
  | cons j is ih =>
      rcases List.mem_cons.mp hi with rfl | hi
      · exact ⟨s, h.1⟩
      · exact ih h.2 hi

/-- The steps of a run: the state each input is taken in, the input, and the answer. -/
def steps : σ → List ι → List (σ × ι × ω)
  | _, [] => []
  | s, i :: is => (s, i, (step s i).2) :: steps (step s i).1 is

@[simp] theorem steps_nil (s : σ) : steps step s [] = [] := rfl

@[simp] theorem steps_cons (s : σ) (i : ι) (is : List ι) :
    steps step s (i :: is) = (s, i, (step s i).2) :: steps step (step s i).1 is := rfl

/-- **Where a step stands in its run.** -/
theorem exists_of_mem_steps {s : σ} {is : List ι} {t : σ × ι × ω} (h : t ∈ steps step s is) :
    ∃ before after, is = before ++ t.2.1 :: after ∧ t.1 = final step s before ∧
      t.2.2 = (step t.1 t.2.1).2 := by
  induction is generalizing s with
  | nil => cases h
  | cons i is ih =>
      rcases List.mem_cons.mp h with rfl | h
      · exact ⟨[], is, rfl, rfl, rfl⟩
      · obtain ⟨before, after, his, hstate, hanswer⟩ := ih h
        exact ⟨i :: before, after, by rw [his]; rfl, hstate, hanswer⟩

/-- What follows at every step, follows along a run. -/
theorem Along.mono {P Q : σ → ι → Prop} (hPQ : ∀ s i, P s i → Q s i) {s : σ} {is : List ι}
    (h : Along step P s is) : Along step Q s is := by
  induction is generalizing s with
  | nil => trivial
  | cons i is ih => exact ⟨hPQ s i h.1, ih h.2⟩

/-- What holds along a run holds of its steps. -/
theorem Along.of_mem_steps {P : σ → ι → Prop} {s : σ} {is : List ι} (h : Along step P s is)
    {t : σ × ι × ω} (ht : t ∈ steps step s is) : P t.1 t.2.1 := by
  induction is generalizing s with
  | nil => cases ht
  | cons i is ih =>
      rcases List.mem_cons.mp ht with rfl | ht
      · exact h.1
      · exact ih h.2 ht

/-- What the steps of a run preserve where a property holds, a run preserves along which it
holds. -/
theorem Along.final_invariant {P : σ → ι → Prop} {Inv : σ → Prop}
    (hstep : ∀ s i, P s i → Inv s → Inv (step s i).1) {s : σ} (hs : Inv s) {is : List ι}
    (h : Along step P s is) : Inv (final step s is) := by
  induction is generalizing s with
  | nil => exact hs
  | cons i is ih => exact ih (hstep s i h.1 hs) h.2

/-- **Machines whose steps correspond have runs that correspond**: related states stay
related, and the answers are related one by one. -/
theorem simulates {σ' : Type*} {ι' : Type*} {ω' : Type*} (step' : σ' → ι' → σ' × ω')
    (translate : ι → ι') (R : σ → σ' → Prop) (Q : ω → ω' → Prop) (Good : ι → Prop)
    (hstep : ∀ s s' i, R s s' → Good i →
      R (step s i).1 (step' s' (translate i)).1 ∧ Q (step s i).2 (step' s' (translate i)).2)
    {s : σ} {s' : σ'} (hs : R s s') {is : List ι} (his : ∀ i ∈ is, Good i) :
    List.Forall₂ Q (answers step s is) (answers step' s' (is.map translate)) ∧
      R (final step s is) (final step' s' (is.map translate)) := by
  induction is generalizing s s' with
  | nil => exact ⟨.nil, hs⟩
  | cons i is ih =>
      obtain ⟨hnext, hanswer⟩ := hstep s s' i hs (his i List.mem_cons_self)
      obtain ⟨hanswers, hfinal⟩ := ih hnext fun j hj => his j (List.mem_cons_of_mem _ hj)
      exact ⟨.cons hanswer hanswers, hfinal⟩

end Mealy
