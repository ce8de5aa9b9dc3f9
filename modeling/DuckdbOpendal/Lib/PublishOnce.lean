import Mathlib.Data.List.Basic
import Mathlib.Data.List.Nodup
import Mathlib.Data.Set.Function
import Mathlib.Logic.Function.Basic
import Mathlib.Tactic.Common

/-!
# Publish-once caches

A cache of heap objects shared by any number of threads.  A call looks its key
up under the lock; on a miss it builds a candidate object without the lock, and
then, under the lock again, either binds the candidate to the key or, when
another thread has bound the key meanwhile, frees the candidate and returns the
bound object.  Shutting the cache down frees every bound object.

Threads are the elements of an arbitrary type `τ`, requests of an arbitrary type
`ρ`; `key` is whatever the cache derives from a request.  A schedule is a list of
actions, and an action that is not enabled changes nothing, so every interleaving
of every number of calls is a schedule.

## Main Definitions

* `Shared` — the bindings and the heap, with the three locked operations
* `System`, `step` — the shared state and the threads' program counters
* `Transition` — what an enabled action can do, one constructor a case
* `Inv` — the invariant: who owns which object

## Main Results

* `run_inv` — every schedule preserves the invariant
* `run_find` — a binding lasts until the shutdown
* `step_frees` — who frees an object before the shutdown
* `run_made_iff` — every returned object was built from its call's own request if
  and only if the key is injective on the requests
-/

namespace PublishOnce

universe u v w

variable {τ : Type u} {κ : Type v} {ρ : Type w}

/-- Objects are named by the order of their construction. -/
abbrev Ptr := ℕ

/-- The state the lock protects, and the heap: `made` holds the request each
object was built from, `freed` every free so far. -/
structure Shared (κ : Type v) (ρ : Type w) where
  bindings : List (κ × Ptr)
  made : List ρ
  freed : List Ptr
  live : Bool

namespace Shared

/-- The cache before the first call. -/
def init : Shared κ ρ := ⟨[], [], [], true⟩

/-- Look a key up. -/
def find [DecidableEq κ] (c : Shared κ ρ) (k : κ) : Option Ptr := c.bindings.lookup k

/-- Build an object. -/
def make (c : Shared κ ρ) (r : ρ) : Shared κ ρ × Ptr :=
  ({ c with made := c.made ++ [r] }, c.made.length)

/-- Free an object. -/
def free (c : Shared κ ρ) (p : Ptr) : Shared κ ρ := { c with freed := p :: c.freed }

/-- Bind a key, or free the candidate when the key is already bound. -/
def publish [DecidableEq κ] (c : Shared κ ρ) (k : κ) (p : Ptr) : Shared κ ρ × Ptr :=
  match c.find k with
  | some q => (c.free p, q)
  | none => ({ c with bindings := (k, p) :: c.bindings }, p)

/-- Free every bound object and drop the bindings. -/
def shutdown (c : Shared κ ρ) : Shared κ ρ :=
  { c with bindings := [], freed := c.bindings.map Prod.snd ++ c.freed, live := false }

end Shared

/-- Where a thread stands in its current call. -/
inductive Pc (ρ : Type w) where
  | idle
  | called (r : ρ)
  | missed (r : ρ)
  | holding (r : ρ) (p : Ptr)

/-- The shared state, the threads, and the history of returns. -/
structure System (τ : Type u) (κ : Type v) (ρ : Type w) where
  shared : Shared κ ρ
  pc : τ → Pc ρ
  returned : List (ρ × Ptr)

/-- What the scheduler can let happen next. -/
inductive Action (τ : Type u) (ρ : Type w) where
  | call (t : τ) (r : ρ)
  | lookup (t : τ)
  | make (t : τ) (ok : Bool)
  | publish (t : τ)
  | shutdown

/-- The same action, with its request translated. -/
def Action.map {ρ' : Type*} (f : ρ → ρ') : Action τ ρ → Action τ ρ'
  | .call t r => .call t (f r)
  | .lookup t => .lookup t
  | .make t ok => .make t ok
  | .publish t => .publish t
  | .shutdown => .shutdown

namespace System

/-- No call has been made. -/
def init : System τ κ ρ := ⟨Shared.init, fun _ => .idle, []⟩

variable [DecidableEq τ]

/-- Move one thread. -/
def goto (s : System τ κ ρ) (t : τ) (c : Pc ρ) : System τ κ ρ :=
  { s with pc := Function.update s.pc t c }

/-- End a thread's call with a result. -/
def ret (s : System τ κ ρ) (t : τ) (r : ρ) (p : Ptr) : System τ κ ρ :=
  { s with pc := Function.update s.pc t .idle, returned := (r, p) :: s.returned }

end System

variable [DecidableEq τ] [DecidableEq κ] (key : ρ → κ)

/-- One action, on a live cache. -/
def act (s : System τ κ ρ) : Action τ ρ → System τ κ ρ
  | .call t r =>
      match s.pc t with
      | .idle => s.goto t (.called r)
      | _ => s
  | .lookup t =>
      match s.pc t with
      | .called r =>
          match s.shared.find (key r) with
          | some p => s.ret t r p
          | none => s.goto t (.missed r)
      | _ => s
  | .make t ok =>
      match s.pc t with
      | .missed r =>
          if ok then
            let made := s.shared.make r
            { s with shared := made.1 }.goto t (.holding r made.2)
          else s.goto t .idle
      | _ => s
  | .publish t =>
      match s.pc t with
      | .holding r p =>
          let published := s.shared.publish (key r) p
          { s with shared := published.1 }.ret t r published.2
      | _ => s
  | .shutdown => { s with shared := s.shared.shutdown }

/-- One action; after the shutdown nothing happens any more. -/
def step (s : System τ κ ρ) (a : Action τ ρ) : System τ κ ρ :=
  if s.shared.live then act key s a else s

/-- A schedule. -/
def run (s : System τ κ ρ) (as : List (Action τ ρ)) : System τ κ ρ :=
  as.foldl (step key) s

/-- What an enabled action does. -/
inductive Transition (s : System τ κ ρ) : Action τ ρ → System τ κ ρ → Prop where
  | call {t r} (hpc : s.pc t = .idle) : Transition s (.call t r) (s.goto t (.called r))
  | hit {t r p} (hpc : s.pc t = .called r) (hfind : s.shared.find (key r) = some p) :
      Transition s (.lookup t) (s.ret t r p)
  | miss {t r} (hpc : s.pc t = .called r) (hfind : s.shared.find (key r) = none) :
      Transition s (.lookup t) (s.goto t (.missed r))
  | made {t r} (hpc : s.pc t = .missed r) :
      Transition s (.make t true)
        ({ s with shared := { s.shared with made := s.shared.made ++ [r] } }.goto t
          (.holding r s.shared.made.length))
  | failed {t r} (hpc : s.pc t = .missed r) : Transition s (.make t false) (s.goto t .idle)
  | won {t r p} (hpc : s.pc t = .holding r p) (hfind : s.shared.find (key r) = none) :
      Transition s (.publish t)
        ({ s with
          shared := { s.shared with bindings := (key r, p) :: s.shared.bindings } }.ret t r p)
  | lost {t r p q} (hpc : s.pc t = .holding r p) (hfind : s.shared.find (key r) = some q) :
      Transition s (.publish t) ({ s with shared := s.shared.free p }.ret t r q)
  | shutdown : Transition s .shutdown { s with shared := s.shared.shutdown }

theorem act_cases (s : System τ κ ρ) (a : Action τ ρ) :
    act key s a = s ∨ Transition key s a (act key s a) := by
  cases a with
  | call t r =>
      cases hpc : s.pc t with
      | idle => exact Or.inr (by simpa only [act, hpc] using .call hpc)
      | _ => exact Or.inl (by simp only [act, hpc])
  | lookup t =>
      cases hpc : s.pc t with
      | called r =>
          cases hfind : s.shared.find (key r) with
          | some p => exact Or.inr (by simpa only [act, hpc, hfind] using .hit hpc hfind)
          | none => exact Or.inr (by simpa only [act, hpc, hfind] using .miss hpc hfind)
      | _ => exact Or.inl (by simp only [act, hpc])
  | make t ok =>
      cases hpc : s.pc t with
      | missed r =>
          cases ok with
          | true =>
              exact Or.inr (by simpa only [act, hpc, if_true, Shared.make] using .made hpc)
          | false =>
              exact Or.inr (by
                simpa only [act, hpc, Bool.false_eq_true, if_false] using .failed hpc)
      | _ => exact Or.inl (by simp only [act, hpc])
  | publish t =>
      cases hpc : s.pc t with
      | holding r p =>
          cases hfind : s.shared.find (key r) with
          | some q =>
              exact Or.inr (by
                simpa only [act, hpc, Shared.publish, hfind] using .lost hpc hfind)
          | none =>
              exact Or.inr (by
                simpa only [act, hpc, Shared.publish, hfind] using .won hpc hfind)
      | _ => exact Or.inl (by simp only [act, hpc])
  | shutdown => exact Or.inr .shutdown

/-- **What a step can do**: nothing, or one of the transitions, and that only
while the cache is live. -/
theorem step_cases (s : System τ κ ρ) (a : Action τ ρ) :
    step key s a = s ∨ s.shared.live = true ∧ Transition key s a (step key s a) := by
  cases hlive : s.shared.live with
  | false => exact Or.inl (by simp [step, hlive])
  | true =>
      simp only [step, hlive, if_true, true_and]
      exact act_cases key s a

/-! ## Looking up and the bindings -/

omit [DecidableEq τ] in
theorem Shared.mem_of_find {c : Shared κ ρ} {k : κ} {p : Ptr} (h : c.find k = some p) :
    (k, p) ∈ c.bindings := by
  obtain ⟨l₁, l₂, hsplit, -⟩ := List.lookup_eq_some_iff.mp h
  simp [hsplit]

omit [DecidableEq τ] in
theorem Shared.notMem_of_find {c : Shared κ ρ} {k : κ} (h : c.find k = none) (p : Ptr) :
    (k, p) ∉ c.bindings := fun hmem => by
  simpa using List.lookup_eq_none_iff.mp h (k, p) hmem

/-- Two bindings of one key are the same binding. -/
def Shared.Functional (c : Shared κ ρ) : Prop :=
  ∀ k p q, (k, p) ∈ c.bindings → (k, q) ∈ c.bindings → p = q

omit [DecidableEq τ] in
theorem Shared.Functional.find {c : Shared κ ρ} (hc : c.Functional) {k : κ} {p : Ptr}
    (h : (k, p) ∈ c.bindings) : c.find k = some p := by
  cases hfind : c.find k with
  | none => exact absurd h (Shared.notMem_of_find hfind p)
  | some q => rw [hc k p q h (Shared.mem_of_find hfind)]

/-! ## The invariant -/

/-- Who owns which object.  A bound object was made from a request of its key, so
it is bound to one key only; a held object is private to one thread; a freed
object is neither, and it was freed once; a returned object is the one its key is
bound to, for as long as the cache lives, and was made from a request of that key. -/
structure Inv (s : System τ κ ρ) : Prop where
  functional : s.shared.Functional
  bound_made : ∀ k p, (k, p) ∈ s.shared.bindings →
    ∃ r, s.shared.made[p]? = some r ∧ key r = k
  bound_not_freed : ∀ k p, (k, p) ∈ s.shared.bindings → p ∉ s.shared.freed
  held_made : ∀ t r p, s.pc t = .holding r p → s.shared.made[p]? = some r
  held_not_bound : ∀ t r p, s.pc t = .holding r p → ∀ k, (k, p) ∉ s.shared.bindings
  held_not_freed : ∀ t r p, s.pc t = .holding r p → p ∉ s.shared.freed
  held_unique : ∀ t t' r r' p, s.pc t = .holding r p → s.pc t' = .holding r' p → t = t'
  freed_made : ∀ p ∈ s.shared.freed, p < s.shared.made.length
  freed_nodup : s.shared.freed.Nodup
  bindings_nodup : s.shared.bindings.Nodup
  returned_bound : s.shared.live = true → ∀ r p, (r, p) ∈ s.returned →
    (key r, p) ∈ s.shared.bindings
  returned_made : ∀ r p, (r, p) ∈ s.returned →
    ∃ r₀, s.shared.made[p]? = some r₀ ∧ key r₀ = key r
  returned_agree : ∀ r r' p q, (r, p) ∈ s.returned → (r', q) ∈ s.returned →
    key r = key r' → p = q

omit [DecidableEq τ] [DecidableEq κ] in
theorem inv_init : Inv key (System.init : System τ κ ρ) where
  functional := fun _ _ _ h => absurd h List.not_mem_nil
  bound_made := fun _ _ h => absurd h List.not_mem_nil
  bound_not_freed := fun _ _ h => absurd h List.not_mem_nil
  held_made := fun _ _ _ h => by cases h
  held_not_bound := fun _ _ _ h => by cases h
  held_not_freed := fun _ _ _ h => by cases h
  held_unique := fun _ _ _ _ _ h => by cases h
  freed_made := fun _ h => absurd h List.not_mem_nil
  freed_nodup := List.nodup_nil
  bindings_nodup := List.nodup_nil
  returned_bound := fun _ _ _ h => absurd h List.not_mem_nil
  returned_made := fun _ _ h => absurd h List.not_mem_nil
  returned_agree := fun _ _ _ _ h => absurd h List.not_mem_nil

variable {key}

omit [DecidableEq κ] in
/-- Only the moved thread can hold something new. -/
theorem holding_update {pc : τ → Pc ρ} {t t' : τ} {c : Pc ρ} {r : ρ} {p : Ptr}
    (h : Function.update pc t c t' = .holding r p) :
    t' = t ∧ c = .holding r p ∨ t' ≠ t ∧ pc t' = .holding r p := by
  by_cases ht : t' = t
  · subst ht
    rw [Function.update_self] at h
    exact Or.inl ⟨rfl, h⟩
  · rw [Function.update_of_ne ht] at h
    exact Or.inr ⟨ht, h⟩

omit [DecidableEq κ] in
/-- A thread that is moved to a place without an object takes nothing with it. -/
theorem holding_of_update {pc : τ → Pc ρ} {t t' : τ} {c : Pc ρ} {r : ρ} {p : Ptr}
    (hc : ∀ r p, c ≠ .holding r p) (h : Function.update pc t c t' = .holding r p) :
    t' ≠ t ∧ pc t' = .holding r p :=
  (holding_update h).resolve_left fun hnew => hc r p hnew.2

omit [DecidableEq κ] in
/-- Moving a thread to a place without an object preserves the invariant. -/
theorem Inv.goto {s : System τ κ ρ} (hi : Inv key s) (t : τ) {c : Pc ρ}
    (hc : ∀ r p, c ≠ .holding r p) : Inv key (s.goto t c) :=
  { hi with
    held_made := fun t' r p h => hi.held_made t' r p (holding_of_update hc h).2
    held_not_bound := fun t' r p h => hi.held_not_bound t' r p (holding_of_update hc h).2
    held_not_freed := fun t' r p h => hi.held_not_freed t' r p (holding_of_update hc h).2
    held_unique := fun t' t'' r r' p h h' =>
      hi.held_unique t' t'' r r' p (holding_of_update hc h).2 (holding_of_update hc h').2 }

omit [DecidableEq κ] in
/-- Returning the object a key is bound to preserves the invariant. -/
theorem Inv.ret {s : System τ κ ρ} (hi : Inv key s) (hlive : s.shared.live = true) (t : τ)
    {r : ρ} {p : Ptr} (hp : (key r, p) ∈ s.shared.bindings) : Inv key (s.ret t r p) := by
  have hbound : ∀ r' q, (r', q) ∈ (r, p) :: s.returned → (key r', q) ∈ s.shared.bindings := by
    intro r' q h
    rcases List.mem_cons.mp h with h | h
    · cases h
      exact hp
    · exact hi.returned_bound hlive r' q h
  have hgoto : Inv key (s.goto t .idle) := hi.goto t fun _ _ => nofun
  exact
    { hgoto with
      returned_bound := fun _ => hbound
      returned_made := fun r' q h => hi.bound_made _ q (hbound r' q h)
      returned_agree := fun r₁ r₂ p₁ p₂ h₁ h₂ hkey =>
        hi.functional _ _ _ (hbound r₁ p₁ h₁) (hkey ▸ hbound r₂ p₂ h₂) }

omit [DecidableEq τ] [DecidableEq κ] in
/-- The name of the next object is new. -/
theorem Inv.length_fresh {s : System τ κ ρ} (hi : Inv key s) :
    (∀ k, (k, s.shared.made.length) ∉ s.shared.bindings) ∧
      s.shared.made.length ∉ s.shared.freed ∧
      ∀ t r, s.pc t ≠ .holding r s.shared.made.length := by
  have hnone : s.shared.made[s.shared.made.length]? = none := by simp
  refine ⟨fun k h => ?_, fun h => Nat.lt_irrefl _ (hi.freed_made _ h), fun t r h => ?_⟩
  · obtain ⟨r, hr, -⟩ := hi.bound_made k _ h
    rw [hnone] at hr
    cases hr
  · rw [hi.held_made t r _ h] at hnone
    cases hnone

omit [DecidableEq κ] in
/-- Building a private object preserves the invariant. -/
theorem Inv.made {s : System τ κ ρ} (hi : Inv key s) (t : τ) (r : ρ) :
    Inv key ({ s with shared := { s.shared with made := s.shared.made ++ [r] } }.goto t
      (.holding r s.shared.made.length)) := by
  obtain ⟨hbound, hfreed, hheld⟩ := hi.length_fresh
  -- Names are given in order, so what was built keeps its name.
  have hkeep : ∀ {p : Ptr} {r' : ρ}, s.shared.made[p]? = some r' →
      (s.shared.made ++ [r])[p]? = some r' := by
    intro p r' h
    rw [List.getElem?_append_left (List.getElem?_eq_some_iff.mp h).1, h]
  have hnew : ∀ {r' : ρ} {p : Ptr}, Pc.holding r s.shared.made.length = .holding r' p →
      r' = r ∧ p = s.shared.made.length := fun h => by cases h; exact ⟨rfl, rfl⟩
  refine { hi with
    bound_made := fun k p h => ?_
    held_made := fun t' r' p h => ?_
    held_not_bound := fun t' r' p h => ?_
    held_not_freed := fun t' r' p h => ?_
    held_unique := fun t₁ t₂ r₁ r₂ p h₁ h₂ => ?_
    freed_made := fun p h => ?_
    returned_made := fun r' p h => ?_ }
  · obtain ⟨r', hr', hk⟩ := hi.bound_made k p h
    exact ⟨r', hkeep hr', hk⟩
  · rcases holding_update h with ⟨-, h⟩ | ⟨-, h⟩
    · obtain ⟨rfl, rfl⟩ := hnew h
      exact List.getElem?_concat_length
    · exact hkeep (hi.held_made t' r' p h)
  · rcases holding_update h with ⟨-, h⟩ | ⟨-, h⟩
    · obtain ⟨rfl, rfl⟩ := hnew h
      exact hbound
    · exact hi.held_not_bound t' r' p h
  · rcases holding_update h with ⟨-, h⟩ | ⟨-, h⟩
    · obtain ⟨rfl, rfl⟩ := hnew h
      exact hfreed
    · exact hi.held_not_freed t' r' p h
  · rcases holding_update h₁ with ⟨ht₁, h₁⟩ | ⟨-, h₁⟩
    · rcases holding_update h₂ with ⟨ht₂, -⟩ | ⟨-, h₂⟩
      · exact ht₁.trans ht₂.symm
      · obtain ⟨-, rfl⟩ := hnew h₁
        exact absurd h₂ (hheld t₂ r₂)
    · rcases holding_update h₂ with ⟨-, h₂⟩ | ⟨-, h₂⟩
      · obtain ⟨-, rfl⟩ := hnew h₂
        exact absurd h₁ (hheld t₁ r₁)
      · exact hi.held_unique t₁ t₂ r₁ r₂ p h₁ h₂
  · have hlt := hi.freed_made p h
    have hlen : (s.shared.made ++ [r]).length = s.shared.made.length + 1 := by simp
    exact hlen ▸ Nat.lt_succ_of_lt hlt
  · obtain ⟨r₀, hr₀, hk⟩ := hi.returned_made r' p h
    exact ⟨r₀, hkeep hr₀, hk⟩

omit [DecidableEq κ] in
/-- A private object that leaves its thread is nobody else's: what the other
threads hold stays theirs when `p` is bound or freed. -/
theorem Inv.held_ne {s : System τ κ ρ} (hi : Inv key s) {t t' : τ} {r r' : ρ} {p q : Ptr}
    (h : s.pc t = .holding r p) (h' : Function.update s.pc t .idle t' = .holding r' q) :
    s.pc t' = .holding r' q ∧ q ≠ p := by
  obtain ⟨hne, hpc⟩ := holding_of_update (fun _ _ h => by cases h) h'
  exact ⟨hpc, fun hqp => hne (hi.held_unique t' t r' r p (hqp ▸ hpc) h)⟩

/-- Binding the private object of a thread preserves the invariant. -/
theorem Inv.won {s : System τ κ ρ} (hi : Inv key s) {t : τ} {r : ρ} {p : Ptr}
    (hpc : s.pc t = .holding r p) (hfind : s.shared.find (key r) = none) :
    Inv key ({ s with
      shared := { s.shared with bindings := (key r, p) :: s.shared.bindings } }.goto t .idle) := by
  have hnot := Shared.notMem_of_find hfind
  refine { hi with
    functional := fun k p₁ p₂ h₁ h₂ => ?_
    bound_made := fun k q h => ?_
    bound_not_freed := fun k q h => ?_
    held_made := fun t' r' q h => hi.held_made t' r' q (hi.held_ne hpc h).1
    held_not_bound := fun t' r' q h k hk => ?_
    held_not_freed := fun t' r' q h => hi.held_not_freed t' r' q (hi.held_ne hpc h).1
    held_unique := fun t₁ t₂ r₁ r₂ q h₁ h₂ =>
      hi.held_unique t₁ t₂ r₁ r₂ q (hi.held_ne hpc h₁).1 (hi.held_ne hpc h₂).1
    bindings_nodup := List.nodup_cons.mpr ⟨hnot p, hi.bindings_nodup⟩
    returned_bound := fun hlive r' q h =>
      List.mem_cons_of_mem _ (hi.returned_bound hlive r' q h) }
  · rcases List.mem_cons.mp h₁ with h₁ | h₁ <;> rcases List.mem_cons.mp h₂ with h₂ | h₂
    · cases h₁
      cases h₂
      rfl
    · cases h₁
      exact absurd h₂ (hnot p₂)
    · cases h₂
      exact absurd h₁ (hnot p₁)
    · exact hi.functional k p₁ p₂ h₁ h₂
  · rcases List.mem_cons.mp h with h | h
    · cases h
      exact ⟨r, hi.held_made t r p hpc, rfl⟩
    · exact hi.bound_made k q h
  · rcases List.mem_cons.mp h with h | h
    · cases h
      exact hi.held_not_freed t r p hpc
    · exact hi.bound_not_freed k q h
  · obtain ⟨hpc', hne⟩ := hi.held_ne hpc h
    rcases List.mem_cons.mp hk with hk | hk
    · cases hk
      exact hne rfl
    · exact hi.held_not_bound t' r' q hpc' k hk

omit [DecidableEq κ] in
/-- Freeing the private object of a thread preserves the invariant. -/
theorem Inv.lost {s : System τ κ ρ} (hi : Inv key s) {t : τ} {r : ρ} {p : Ptr}
    (hpc : s.pc t = .holding r p) :
    Inv key ({ s with shared := s.shared.free p }.goto t .idle) := by
  refine { hi with
    bound_not_freed := fun k q h hq => ?_
    held_made := fun t' r' q h => hi.held_made t' r' q (hi.held_ne hpc h).1
    held_not_bound := fun t' r' q h => hi.held_not_bound t' r' q (hi.held_ne hpc h).1
    held_not_freed := fun t' r' q h hq => ?_
    held_unique := fun t₁ t₂ r₁ r₂ q h₁ h₂ =>
      hi.held_unique t₁ t₂ r₁ r₂ q (hi.held_ne hpc h₁).1 (hi.held_ne hpc h₂).1
    freed_made := fun q hq => ?_
    freed_nodup := List.nodup_cons.mpr ⟨hi.held_not_freed t r p hpc, hi.freed_nodup⟩ }
  · rcases List.mem_cons.mp hq with rfl | hq
    · exact hi.held_not_bound t r q hpc k h
    · exact hi.bound_not_freed k q h hq
  · obtain ⟨hpc', hne⟩ := hi.held_ne hpc h
    rcases List.mem_cons.mp hq with rfl | hq
    · exact hne rfl
    · exact hi.held_not_freed t' r' q hpc' hq
  · rcases List.mem_cons.mp hq with rfl | hq
    · exact (List.getElem?_eq_some_iff.mp (hi.held_made t r q hpc)).1
    · exact hi.freed_made q hq

omit [DecidableEq τ] [DecidableEq κ] in
/-- Shutting the cache down preserves the invariant: distinct bindings name
distinct objects, and none of them had been freed. -/
theorem Inv.shutdown {s : System τ κ ρ} (hi : Inv key s) :
    Inv key { s with shared := s.shared.shutdown } := by
  -- A pointer was built from one request, so it is bound to one key.
  have hinj : ∀ b₁ ∈ s.shared.bindings, ∀ b₂ ∈ s.shared.bindings, b₁.2 = b₂.2 → b₁ = b₂ := by
    rintro ⟨k₁, p⟩ h₁ ⟨k₂, q⟩ h₂ (rfl : p = q)
    obtain ⟨r₁, hr₁, rfl⟩ := hi.bound_made k₁ p h₁
    obtain ⟨r₂, hr₂, rfl⟩ := hi.bound_made k₂ p h₂
    rw [hr₁, Option.some.injEq] at hr₂
    rw [hr₂]
  refine { hi with
    functional := fun _ _ _ h => absurd h List.not_mem_nil
    bound_made := fun _ _ h => absurd h List.not_mem_nil
    bound_not_freed := fun _ _ h => absurd h List.not_mem_nil
    held_not_bound := fun _ _ _ _ _ h => absurd h List.not_mem_nil
    held_not_freed := fun t r p h hp => ?_
    freed_made := fun p hp => ?_
    freed_nodup := List.nodup_append.mpr ⟨?_, hi.freed_nodup, ?_⟩
    bindings_nodup := List.nodup_nil
    returned_bound := fun h => Bool.noConfusion h }
  · rcases List.mem_append.mp hp with hp | hp
    · obtain ⟨⟨k, q⟩, hb, rfl⟩ := List.mem_map.mp hp
      exact hi.held_not_bound t r q h k hb
    · exact hi.held_not_freed t r p h hp
  · rcases List.mem_append.mp hp with hp | hp
    · obtain ⟨⟨k, q⟩, hb, rfl⟩ := List.mem_map.mp hp
      obtain ⟨r, hr, -⟩ := hi.bound_made k q hb
      exact (List.getElem?_eq_some_iff.mp hr).1
    · exact hi.freed_made p hp
  · exact hi.bindings_nodup.map_on fun b₁ h₁ b₂ h₂ => hinj b₁ h₁ b₂ h₂
  · rintro p hp q hq rfl
    obtain ⟨⟨k, p⟩, hb, rfl⟩ := List.mem_map.mp hp
    exact hi.bound_not_freed k p hb hq

/-- Every transition of a live cache preserves the invariant. -/
theorem Transition.inv {s s' : System τ κ ρ} {a : Action τ ρ} (h : Transition key s a s')
    (hlive : s.shared.live = true) (hi : Inv key s) : Inv key s' := by
  cases h with
  | call hpc => exact hi.goto _ fun _ _ => nofun
  | hit hpc hfind => exact hi.ret hlive _ (Shared.mem_of_find hfind)
  | miss hpc hfind => exact hi.goto _ fun _ _ => nofun
  | made hpc => exact hi.made _ _
  | failed hpc => exact hi.goto _ fun _ _ => nofun
  | won hpc hfind =>
      -- Binding and returning are one step of the code, and two of the invariant.
      rename_i t r p
      have hret := (hi.won hpc hfind).ret hlive t (r := r) (p := p) List.mem_cons_self
      simpa only [System.goto, System.ret, Function.update_idem] using hret
  | lost hpc hfind =>
      rename_i t r p q
      have hret := (hi.lost hpc).ret hlive t (r := r) (p := q) (Shared.mem_of_find hfind)
      simpa only [System.goto, System.ret, Function.update_idem] using hret
  | shutdown => exact hi.shutdown

theorem step_inv {s : System τ κ ρ} (hi : Inv key s) (a : Action τ ρ) :
    Inv key (step key s a) := by
  rcases step_cases key s a with h | ⟨hlive, h⟩
  · rw [h]
    exact hi
  · exact h.inv hlive hi

/-- **Every schedule preserves the invariant.** -/
theorem run_inv {s : System τ κ ρ} (hi : Inv key s) (as : List (Action τ ρ)) :
    Inv key (run key s as) :=
  List.foldlRecOn as (step key) hi fun _ h a _ => step_inv h a

/-! ## What a schedule can observe -/

/-- What a transition does to the bindings and to the freed objects: a binding
stays until the shutdown, and an object is freed before it only by the thread
that built it and found its key bound to another object, which it returns. -/
theorem Transition.frees {s s' : System τ κ ρ} {a : Action τ ρ} (h : Transition key s a s')
    (hlive : s'.shared.live = true) :
    (∀ k p, s.shared.find k = some p → s'.shared.find k = some p) ∧
      ∀ p ∈ s'.shared.freed, p ∉ s.shared.freed →
        ∃ t r q, a = .publish t ∧ s.pc t = .holding r p ∧
          s.shared.find (key r) = some q ∧ s'.returned = (r, q) :: s.returned := by
  cases h with
  | won hpc hfind =>
      rename_i t r p
      refine ⟨fun k q hk => ?_, fun q hq hnq => absurd hq hnq⟩
      have hne : k ≠ key r := by
        rintro rfl
        rw [hfind] at hk
        cases hk
      have hcons : ((key r, p) :: s.shared.bindings).lookup k = s.shared.find k := by
        rw [List.lookup_cons, beq_false_of_ne hne]
        rfl
      exact hcons.trans hk
  | lost hpc hfind =>
      rename_i t r p q
      refine ⟨fun k q hk => hk, fun p' hp' hnp' => ?_⟩
      obtain rfl : p' = p := (List.mem_cons.mp hp').resolve_right hnp'
      exact ⟨t, r, q, rfl, hpc, hfind, rfl⟩
  | shutdown => cases hlive
  | _ => exact ⟨fun k p hk => hk, fun p hp hnp => absurd hp hnp⟩

theorem step_frees {s : System τ κ ρ} {a : Action τ ρ}
    (hlive : (step key s a).shared.live = true) :
    (∀ k p, s.shared.find k = some p → (step key s a).shared.find k = some p) ∧
      ∀ p ∈ (step key s a).shared.freed, p ∉ s.shared.freed →
        ∃ t r q, a = .publish t ∧ s.pc t = .holding r p ∧
          s.shared.find (key r) = some q ∧
          (step key s a).returned = (r, q) :: s.returned := by
  rcases step_cases key s a with h | ⟨-, h⟩
  · rw [h]
    exact ⟨fun k p hk => hk, fun p hp hnp => absurd hp hnp⟩
  · exact h.frees hlive

/-- A cache that is live has been live all along. -/
theorem live_of_step {s : System τ κ ρ} {a : Action τ ρ}
    (h : (step key s a).shared.live = true) : s.shared.live = true := by
  cases hlive : s.shared.live with
  | true => rfl
  | false => simp [step, hlive] at h

/-- **A binding lasts until the shutdown.** -/
theorem run_find {s : System τ κ ρ} {k : κ} {p : Ptr} (as : List (Action τ ρ))
    (hlive : (run key s as).shared.live = true) (h : s.shared.find k = some p) :
    (run key s as).shared.find k = some p := by
  -- The cache never comes back to life, so it is live at every step in between.
  have hback : ∀ as : List (Action τ ρ), ∀ s : System τ κ ρ,
      (run key s as).shared.live = true → s.shared.live = true := by
    intro as
    induction as with
    | nil => exact fun s h => h
    | cons a as ih => exact fun s h => live_of_step (ih (step key s a) h)
  induction as generalizing s with
  | nil => exact h
  | cons a as ih =>
      exact ih hlive ((step_frees (hback as (step key s a) hlive)).1 k p h)

/-- Every request a state mentions satisfies a predicate. -/
structure Mentions (P : ρ → Prop) (s : System τ κ ρ) : Prop where
  made : ∀ r ∈ s.shared.made, P r
  called : ∀ t r, s.pc t = .called r → P r
  missed : ∀ t r, s.pc t = .missed r → P r
  holding : ∀ t r p, s.pc t = .holding r p → P r
  returned : ∀ r p, (r, p) ∈ s.returned → P r

omit [DecidableEq κ] in
/-- Moving a thread mentions no new request when its new place does not. -/
theorem Mentions.goto {P : ρ → Prop} {s : System τ κ ρ} (hs : Mentions P s) (t : τ) {c : Pc ρ}
    (hcalled : ∀ r, c = .called r → P r) (hmissed : ∀ r, c = .missed r → P r)
    (hholding : ∀ r p, c = .holding r p → P r) : Mentions P (s.goto t c) := by
  have hupdate : ∀ t' c', Function.update s.pc t c t' = c' → c = c' ∨ s.pc t' = c' := by
    intro t' c' h
    by_cases ht : t' = t
    · subst ht
      rw [Function.update_self] at h
      exact Or.inl h
    · rw [Function.update_of_ne ht] at h
      exact Or.inr h
  exact
    { hs with
      called := fun t' r h => (hupdate t' _ h).elim (hcalled r) (hs.called t' r)
      missed := fun t' r h => (hupdate t' _ h).elim (hmissed r) (hs.missed t' r)
      holding := fun t' r p h => (hupdate t' _ h).elim (hholding r p) (hs.holding t' r p) }

omit [DecidableEq κ] in
/-- Returning mentions no new request when the returned one is not new. -/
theorem Mentions.ret {P : ρ → Prop} {s : System τ κ ρ} (hs : Mentions P s) (t : τ) {r : ρ}
    {p : Ptr} (hr : P r) : Mentions P (s.ret t r p) := by
  have hgoto : Mentions P (s.goto t .idle) := hs.goto t nofun nofun nofun
  refine { hgoto with returned := fun r' q h => ?_ }
  rcases List.mem_cons.mp h with h | h
  · cases h
    exact hr
  · exact hs.returned r' q h

omit [DecidableEq τ] [DecidableEq κ] in
/-- What the cache built is all of it that is mentioned. -/
theorem Mentions.withShared {P : ρ → Prop} {s : System τ κ ρ} (hs : Mentions P s)
    {c : Shared κ ρ} (hc : ∀ r ∈ c.made, P r) : Mentions P { s with shared := c } :=
  { hs with made := hc }

/-- A step mentions the requests of the state and the one its action calls for. -/
theorem step_mentions {P : ρ → Prop} {s : System τ κ ρ} {a : Action τ ρ}
    (hs : Mentions P s) (ha : ∀ t r, a = .call t r → P r) : Mentions P (step key s a) := by
  rcases step_cases key s a with h | ⟨-, h⟩
  · rw [h]
    exact hs
  · revert h
    generalize step key s a = s'
    intro h
    cases h with
    | call hpc =>
        exact hs.goto _ (fun r h => by cases h; exact ha _ _ rfl) nofun nofun
    | hit hpc hfind => exact hs.ret _ (hs.called _ _ hpc)
    | miss hpc hfind =>
        exact hs.goto _ nofun (fun r h => by cases h; exact hs.called _ _ hpc) nofun
    | made hpc =>
        have hr := hs.missed _ _ hpc
        refine (hs.withShared fun r' h => ?_).goto _ nofun nofun fun r' p h => by
          cases h
          exact hr
        exact (List.mem_append.mp h).elim (hs.made r')
          fun h => List.mem_singleton.mp h ▸ hr
    | failed hpc => exact hs.goto _ nofun nofun nofun
    | won hpc hfind =>
        rename_i t r p
        let c : Shared κ ρ := { s.shared with bindings := (key r, p) :: s.shared.bindings }
        exact (hs.withShared (c := c) hs.made).ret _ (hs.holding _ _ _ hpc)
    | lost hpc hfind =>
        exact (hs.withShared (c := s.shared.free _) hs.made).ret _ (hs.holding _ _ _ hpc)
    | shutdown => exact hs.withShared (c := s.shared.shutdown) hs.made

variable (key) in
/-- **Every request the state mentions was called for.** -/
theorem run_mentions {P : ρ → Prop} (as : List (Action τ ρ))
    (h : ∀ a ∈ as, ∀ t r, a = .call t r → P r) :
    Mentions P (run key (System.init : System τ κ ρ) as) := by
  refine List.foldlRecOn as (step key) ?_ fun s hs a ha => step_mentions hs (h a ha)
  exact ⟨fun _ h => absurd h List.not_mem_nil, nofun, nofun, nofun,
    fun _ _ h => absurd h List.not_mem_nil⟩

/-! ## When the cache can be told from a fresh build -/

section Observation

variable [Nonempty τ]

/-- A call of one thread that runs to its end, building its own candidate if it
has to. -/
def callThrough (t : τ) (r : ρ) : List (Action τ ρ) :=
  [.call t r, .lookup t, .make t true, .publish t]

omit [Nonempty τ] in
/-- An undisturbed call for a key that is not bound builds the object and binds it. -/
theorem run_callThrough_none {s : System τ κ ρ} (hlive : s.shared.live = true) {t : τ}
    (hpc : s.pc t = .idle) {r : ρ} (hfind : s.shared.find (key r) = none) :
    run key s (callThrough t r) =
      { shared :=
          { s.shared with
            bindings := (key r, s.shared.made.length) :: s.shared.bindings
            made := s.shared.made ++ [r] }
        pc := s.pc
        returned := (r, s.shared.made.length) :: s.returned } := by
  have hfind' : s.shared.bindings.lookup (key r) = none := hfind
  have hidle : Function.update s.pc t .idle = s.pc := hpc ▸ Function.update_eq_self t s.pc
  simp [run, callThrough, step, act, System.goto, System.ret, Shared.find, Shared.make,
    Shared.publish, hlive, hpc, hfind', hidle]

omit [Nonempty τ] in
/-- An undisturbed call for a bound key returns the bound object. -/
theorem run_callThrough_some {s : System τ κ ρ} (hlive : s.shared.live = true) {t : τ}
    (hpc : s.pc t = .idle) {r : ρ} {p : Ptr} (hfind : s.shared.find (key r) = some p) :
    run key s (callThrough t r) = { s with returned := (r, p) :: s.returned } := by
  have hidle : Function.update s.pc t .idle = s.pc := hpc ▸ Function.update_eq_self t s.pc
  simp [run, callThrough, step, act, System.goto, System.ret, hlive, hpc, hfind, hidle]

variable (key) in
/-- The cache after the first call. -/
def afterFirst (r : ρ) : System τ κ ρ :=
  ⟨⟨[(key r, 0)], [r], [], true⟩, fun _ => .idle, [(r, 0)]⟩

omit [Nonempty τ] in
/-- A first call, and a second one by the same thread. -/
theorem run_callThrough_twice (t : τ) (r r' : ρ) :
    run key (System.init : System τ κ ρ) (callThrough t r ++ callThrough t r') =
      if key r' = key r then { afterFirst key r with returned := [(r', 0), (r, 0)] }
      else
        ⟨⟨[(key r', 1), (key r, 0)], [r, r'], [], true⟩, fun _ => .idle, [(r', 1), (r, 0)]⟩ := by
  have hfirst : run key (System.init : System τ κ ρ) (callThrough t r) =
      afterFirst key r := run_callThrough_none rfl rfl rfl
  have hrun : run key (System.init : System τ κ ρ) (callThrough t r ++ callThrough t r') =
      run key (afterFirst key r) (callThrough t r') := by
    rw [run, List.foldl_append, ← hfirst]
    rfl
  rw [hrun]
  split
  · rename_i hkey
    exact run_callThrough_some rfl rfl
      (by simp [afterFirst, Shared.find, hkey])
  · rename_i hkey
    exact run_callThrough_none rfl rfl
      (by simp [afterFirst, Shared.find, List.lookup_cons, beq_false_of_ne hkey])

/-- **Provenance.**  Every object a call returns was built from that call's own
request, in every schedule over a set of requests, if and only if the key tells
the requests of the set apart. -/
theorem run_made_iff (C : Set ρ) :
    (∀ as : List (Action τ ρ), (∀ a ∈ as, ∀ t r, a = .call t r → r ∈ C) →
      ∀ r p, (r, p) ∈ (run key (System.init : System τ κ ρ) as).returned →
        (run key (System.init : System τ κ ρ) as).shared.made[p]? = some r) ↔
      Set.InjOn key C := by
  constructor
  · intro h r hr r' hr' hkey
    obtain ⟨t⟩ := ‹Nonempty τ›
    have hcalls : ∀ a ∈ callThrough t r ++ callThrough t r', ∀ t' r'',
        a = .call t' r'' → r'' ∈ C := by
      intro a ha t' r'' hcall
      subst hcall
      simp only [callThrough, List.cons_append, List.nil_append, List.mem_cons,
        Action.call.injEq, reduceCtorEq, List.not_mem_nil, or_false, false_or] at ha
      rcases ha with ⟨-, rfl⟩ | ⟨-, rfl⟩
      · exact hr
      · exact hr'
    -- The second call is answered with the object of the first.
    have hrun := h _ hcalls r' 0
    rw [run_callThrough_twice, if_pos hkey.symm] at hrun
    exact Option.some.inj (hrun List.mem_cons_self)
  · intro hinj as has r p hmem
    have hi := run_inv (inv_init key) as
    have hC := run_mentions key (P := (· ∈ C)) as has
    obtain ⟨r₀, hr₀, hkey⟩ := hi.returned_made r p hmem
    have hr₀C : r₀ ∈ C := hC.made r₀ (List.mem_of_getElem? hr₀)
    rw [hr₀, hinj hr₀C (hC.returned r p hmem) hkey]

end Observation

end PublishOnce
