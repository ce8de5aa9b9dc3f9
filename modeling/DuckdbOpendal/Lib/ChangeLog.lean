import Mathlib.Data.List.Basic
import Mathlib.Data.Set.Insert
import DuckdbOpendal.Lib.AtomicMove
import DuckdbOpendal.Lib.Mealy

/-!
# The changes a store goes through

A store maps names to contents.  Whatever its clients do, all that happens to it is a list of
changes: contents are put under a name, erased, copied or moved.  What the store holds in the
end is read off this list: a name that no change writes to keeps its content, and a content
that is there was there before or has been put.

## Main Definitions

* `Change`, `Change.apply` — a change, and what it does to a store
* `Change.writes` — the names it may change
* `Change.within` — a change of one section of a store
* `replay` — a list of changes, one after the other

## Main Results

* `replay_of_notMem` — the frame: a name that is not written to keeps its content
* `replay_eq_some` — where a content comes from
* `exists_log` — the log of a machine's run
* `Change.Gentle.exists_apply` — a change onto a free name loses nothing
-/

namespace ChangeLog

open AtomicMove

universe u v w

variable {κ : Type u} {ν : Type v}

/-- A change of a store. -/
inductive Change (κ : Type u) (ν : Type v) where
  | keep
  | put (name : κ) (content : ν)
  | erase (name : κ)
  | eraseWhere (gone : κ → Bool)
  | copy (source target : κ)
  | move (source target : κ)

namespace Change

/-- The names a change may write to. -/
def writes : Change κ ν → Set κ
  | keep => ∅
  | put name _ | erase name => {name}
  | eraseWhere gone => {k | gone k = true}
  | copy _ target => {target}
  | move source target => {source, target}

variable [DecidableEq κ]

/-- What a change does.  A copy of nothing leaves nothing. -/
def apply : Change κ ν → (κ → Option ν) → κ → Option ν
  | keep, store => store
  | put name content, store => Function.update store name (some content)
  | erase name, store => AtomicMove.erase name store
  | eraseWhere gone, store => fun k => if gone k then none else store k
  | copy source target, store => copyTo source target store
  | move source target, store => AtomicMove.erase source (copyTo source target store)

/-- **Frame**: a name outside a change keeps its content. -/
theorem apply_of_notMem {c : Change κ ν} {k : κ} (hk : k ∉ c.writes) (store : κ → Option ν) :
    c.apply store k = store k := by
  cases c with
  | keep => rfl
  | put name content => exact Function.update_of_ne hk _ _
  | erase name => exact Function.update_of_ne hk _ _
  | eraseWhere gone => exact if_neg hk
  | copy source target => exact Function.update_of_ne hk _ _
  | move source target =>
      obtain ⟨hsource, htarget⟩ := not_or.mp hk
      rw [apply, AtomicMove.erase, Function.update_of_ne hsource, copyTo,
        Function.update_of_ne htarget]

/-- What is there after a removal was there before. -/
theorem of_erase_eq_some {store : κ → Option ν} {name k : κ} {content : ν}
    (h : AtomicMove.erase name store k = some content) : store k = some content := by
  by_cases hk : k = name
  · subst hk
    rw [AtomicMove.erase, Function.update_self] at h
    cases h
  · rwa [AtomicMove.erase, Function.update_of_ne hk] at h

/-- What is there after a copy was there before, under this name or another. -/
theorem exists_of_copyTo_eq_some {store : κ → Option ν} {source target k : κ} {content : ν}
    (h : copyTo source target store k = some content) : ∃ k', store k' = some content := by
  by_cases hk : k = target
  · subst hk
    rw [copyTo, Function.update_self] at h
    exact ⟨source, h⟩
  · rw [copyTo, Function.update_of_ne hk] at h
    exact ⟨k, h⟩

/-- A content is there after a change because it was there, or because it has been put. -/
theorem apply_eq_some {c : Change κ ν} {store : κ → Option ν} {k : κ} {content : ν}
    (h : c.apply store k = some content) :
    (∃ k', store k' = some content) ∨ c = .put k content := by
  cases c with
  | keep => exact Or.inl ⟨k, h⟩
  | put name new =>
      by_cases hk : k = name
      · subst hk
        rw [apply, Function.update_self, Option.some.injEq] at h
        exact Or.inr (by rw [h])
      · rw [apply, Function.update_of_ne hk] at h
        exact Or.inl ⟨k, h⟩
  | erase name => exact Or.inl ⟨k, of_erase_eq_some h⟩
  | eraseWhere gone =>
      simp only [apply] at h
      split at h
      · cases h
      · exact Or.inl ⟨k, h⟩
  | copy source target => exact Or.inl (exists_of_copyTo_eq_some h)
  | move source target => exact Or.inl (exists_of_copyTo_eq_some (of_erase_eq_some h))

/-- The change erases nothing and writes to no name that is taken; a move goes somewhere
else. -/
def Gentle (store : κ → Option ν) : Change κ ν → Prop
  | keep => True
  | put name _ | erase name => store name = none
  | eraseWhere gone => ∀ k, gone k = true → store k = none
  | copy _ target => store target = none
  | move source target => source ≠ target ∧ store target = none

/-- **A gentle change loses no content.** -/
theorem Gentle.exists_apply {c : Change κ ν} {store : κ → Option ν} (h : c.Gentle store) {k : κ}
    {content : ν} (hk : store k = some content) : ∃ k', c.apply store k' = some content := by
  have hne : ∀ {k'}, store k' = none → k ≠ k' := by
    rintro k' hnone rfl
    rw [hk] at hnone
    cases hnone
  cases c with
  | keep => exact ⟨k, hk⟩
  | put name new => exact ⟨k, (Function.update_of_ne (hne h) _ _).trans hk⟩
  | erase name => exact ⟨k, (Function.update_of_ne (hne h) _ _).trans hk⟩
  | eraseWhere gone =>
      have hgone : gone k ≠ true := fun hgone => hne (h k hgone) rfl
      exact ⟨k, (if_neg hgone).trans hk⟩
  | copy source target => exact ⟨k, (Function.update_of_ne (hne h) _ _).trans hk⟩
  | move source target =>
      have hmoved := moved_erase_copyTo h.1 store
      by_cases hs : k = source
      · subst hs
        exact ⟨target, hmoved.atTarget.trans hk⟩
      · exact ⟨k, (hmoved.others k hs (hne h.2)).trans hk⟩

end Change

/-! ## Sections -/

section Sections

variable {ι : Type w}

/-- One section of a store that has several. -/
def sectionOf (store : ι × κ → Option ν) (i : ι) : κ → Option ν := fun k => store (i, k)

variable [DecidableEq ι]

/-- The store with one section replaced. -/
def withSection (store : ι × κ → Option ν) (i : ι) (part : κ → Option ν) : ι × κ → Option ν :=
  fun k => if k.1 = i then part k.2 else store k

theorem withSection_sectionOf (store : ι × κ → Option ν) (i : ι) :
    withSection store i (sectionOf store i) = store := by
  funext ⟨j, k⟩
  by_cases hj : j = i
  · subst hj
    exact if_pos rfl
  · exact if_neg hj

/-- A change of one section, as a change of the store. -/
def Change.within (i : ι) : Change κ ν → Change (ι × κ) ν
  | keep => keep
  | put name content => put (i, name) content
  | erase name => erase (i, name)
  | eraseWhere gone => eraseWhere fun k => decide (k.1 = i) && gone k.2
  | copy source target => copy (i, source) (i, target)
  | move source target => move (i, source) (i, target)

theorem mem_writes_within {c : Change κ ν} {i j : ι} {k : κ} :
    (j, k) ∈ (c.within i).writes ↔ j = i ∧ k ∈ c.writes := by
  cases c with
  | move source target => simp [Change.within, Change.writes, and_or_left]
  | _ => simp [Change.within, Change.writes]

/-- A change of a section is as gentle as the change of the store. -/
theorem Change.Gentle.within {c : Change κ ν} {i : ι} {store : ι × κ → Option ν}
    (h : c.Gentle (sectionOf store i)) : (c.within i).Gentle store := by
  cases c with
  | keep => trivial
  | put name content => exact h
  | erase name => exact h
  | eraseWhere gone =>
      rintro ⟨j, k⟩ hgone
      obtain ⟨hj, hk⟩ := Bool.and_eq_true_iff.mp hgone
      obtain rfl : j = i := of_decide_eq_true hj
      exact h k hk
  | copy source target => exact h
  | move source target => exact ⟨fun heq => h.1 (Prod.ext_iff.mp heq).2, h.2⟩

variable [DecidableEq κ]

theorem update_withSection (store : ι × κ → Option ν) (i : ι) (part : κ → Option ν) (k : κ)
    (content : Option ν) :
    Function.update (withSection store i part) (i, k) content =
      withSection store i (Function.update part k content) := by
  funext ⟨j, k'⟩
  by_cases hj : j = i
  · subst hj
    by_cases hk : k' = k
    · subst hk
      simp [withSection]
    · simp [withSection, hk]
  · simp [withSection, hj]

/-- **A change of a section** is a change of the store. -/
theorem Change.apply_within (c : Change κ ν) (i : ι) (store : ι × κ → Option ν) :
    (c.within i).apply store = withSection store i (c.apply (sectionOf store i)) := by
  have hself := withSection_sectionOf store i
  cases c with
  | keep => exact hself.symm
  | put name content =>
      rw [within, apply, apply, ← update_withSection, hself]
  | erase name =>
      rw [within, apply, apply, AtomicMove.erase, AtomicMove.erase, ← update_withSection, hself]
  | eraseWhere gone =>
      funext p
      by_cases hj : p.1 = i
      · simp [within, apply, withSection, sectionOf, ← hj]
      · simp [within, apply, withSection, hj]
  | copy source target =>
      rw [within, apply, apply, copyTo, copyTo, ← update_withSection, hself]
      rfl
  | move source target =>
      rw [within, apply, apply, AtomicMove.erase, AtomicMove.erase, ← update_withSection, copyTo,
        copyTo, ← update_withSection, hself]
      rfl

end Sections

/-! ## Logs -/

variable [DecidableEq κ]

/-- The store after a list of changes, the oldest first. -/
def replay (store : κ → Option ν) (log : List (Change κ ν)) : κ → Option ν :=
  log.foldl (fun store c => c.apply store) store

@[simp] theorem replay_nil (store : κ → Option ν) : replay store [] = store := rfl

@[simp] theorem replay_cons (store : κ → Option ν) (c : Change κ ν) (log : List (Change κ ν)) :
    replay store (c :: log) = replay (c.apply store) log := rfl

/-- **Frame**: a name that no change writes to keeps its content. -/
theorem replay_of_notMem {log : List (Change κ ν)} {k : κ} (hk : ∀ c ∈ log, k ∉ c.writes)
    (store : κ → Option ν) : replay store log k = store k := by
  induction log generalizing store with
  | nil => rfl
  | cons c log ih =>
      rw [replay_cons, ih fun c' hc' => hk c' (List.mem_cons_of_mem _ hc'),
        Change.apply_of_notMem (hk c List.mem_cons_self)]

/-- **Where a content comes from**: it was there, or it has been put. -/
theorem replay_eq_some {log : List (Change κ ν)} {store : κ → Option ν} {k : κ} {content : ν}
    (h : replay store log k = some content) :
    (∃ k', store k' = some content) ∨ ∃ k', .put k' content ∈ log := by
  induction log generalizing store with
  | nil => exact Or.inl ⟨k, h⟩
  | cons c log ih =>
      rcases ih h with ⟨k', hk'⟩ | ⟨k', hk'⟩
      · rcases Change.apply_eq_some hk' with hbefore | rfl
        · exact Or.inl hbefore
        · exact Or.inr ⟨k', List.mem_cons_self⟩
      · exact Or.inr ⟨k', List.mem_cons_of_mem _ hk'⟩

omit [DecidableEq κ] in
/-- Every entry of a log stands for a step. -/
theorem exists_of_mem_log {τ : Type*} {R : τ → Change κ ν → Prop} {ts : List τ}
    {log : List (Change κ ν)} (h : List.Forall₂ R ts log) {c : Change κ ν} (hc : c ∈ log) :
    ∃ t ∈ ts, R t c := by
  induction h with
  | nil => cases hc
  | cons hhead _ ih =>
      rcases List.mem_cons.mp hc with rfl | hc
      · exact ⟨_, List.mem_cons_self, hhead⟩
      · obtain ⟨t, ht, hR⟩ := ih hc
        exact ⟨t, List.mem_cons_of_mem _ ht, hR⟩

/-- **The log of a run**: a machine of which every step makes one change of a store, of a kind
the step and its answer admit, makes one change for each step. -/
theorem exists_log {σ ι' ω : Type*} (step : σ → ι' → σ × ω) (store : σ → κ → Option ν)
    (Did : σ → ι' → ω → Change κ ν → Prop)
    (hstep : ∀ s i, ∃ c, Did s i (step s i).2 c ∧ store (step s i).1 = c.apply (store s))
    (s : σ) (is : List ι') :
    ∃ log, List.Forall₂ (fun t c => Did t.1 t.2.1 t.2.2 c) (Mealy.steps step s is) log ∧
      store (Mealy.final step s is) = replay (store s) log := by
  induction is generalizing s with
  | nil => exact ⟨[], .nil, rfl⟩
  | cons i is ih =>
      obtain ⟨c, hdid, hchange⟩ := hstep s i
      obtain ⟨log, hlog, hfinal⟩ := ih (step s i).1
      exact ⟨c :: log, .cons hdid hlog, by rw [Mealy.final_cons, hfinal, hchange, replay_cons]⟩

end ChangeLog
