import DuckdbOpendal.Lib.GlobSyntax
import DuckdbOpendal.Uri

/-!
# Glob patterns

`glob_matches` of `opendal/src/table.rs`: a recursive matcher over the remaining
pattern and the remaining value, memoised on the two lengths.  The recursion is
written once, over a monad, and run twice: with the memo table as the source has it,
and without.  Without the table it is the glob matcher over the alphabet of bytes, and
both decide the language of the pattern.

## Main Definitions

* `globStep` — the body of `run`
* `globMatches` — the matcher, with its memo table
* `parseGlob` — the tokens of a pattern
* `ReadsComponents` — a path on which `**/` stands for complete components
* `byteSymbols` — the alphabet of the matcher

## Main Results

* `globMatches_memo` — the memo table changes no verdict
* `globMatches_iff` — the matcher decides the language of the pattern
* `globMatches_globstarSlash_iff` — when `**/` stands for complete components
-/

namespace DuckdbOpendal

open PathPattern

abbrev starByte : UInt8 := 0x2A
abbrev openBracket : UInt8 := 0x5B
abbrev closeBracket : UInt8 := 0x5D
abbrev bang : UInt8 := 0x21
abbrev caret : UInt8 := 0x5E
abbrev dash : UInt8 := 0x2D

/-! ## The matcher -/

/-- The ranges and single bytes of a bracket class. -/
def classContains (b : UInt8) : Bytes → Bool
  | lo :: mid :: hi :: rest =>
      if mid = dash then (lo ≤ b && b ≤ hi) || classContains b rest
      else lo == b || classContains b (mid :: hi :: rest)
  | [c, c'] => c == b || c' == b
  | [c] => c == b
  | [] => false

/-- A bracket class with its optional negation. -/
def classAccepts (cls : Bytes) (b : UInt8) : Bool :=
  let negated := cls.head? == some bang || cls.head? == some caret
  classContains b (if negated then cls.tail else cls) != negated

/-- The body of `run`, over the calls it makes. -/
def globStep {m : Type → Type} [Monad m] (run : Bytes → Bytes → m Bool) :
    Bytes → Bytes → m Bool
  | [], value => pure value.isEmpty
  | c :: pattern, value =>
      if c = starByte ∧ pattern.head? = some starByte then
        let rest := pattern.tail
        (if rest.head? = some slash then run rest.tail value else pure false) <||>
          run rest value <||>
          match value with
          | [] => pure false
          | _ :: value => run (c :: pattern) value
      else if c = starByte then
        run pattern value <||>
          match value with
          | [] => pure false
          | b :: value => if b ≠ slash then run (c :: pattern) value else pure false
      else if c = questionMark then
        match value with
        | [] => pure false
        | b :: value => if b ≠ slash then run pattern value else pure false
      else if c = openBracket then
        match Text.splitOnce [closeBracket] pattern with
        | none => pure false
        | some (cls, pattern) =>
            match value with
            | [] => pure false
            | b :: value =>
                if b ≠ slash ∧ classAccepts cls b then run pattern value else pure false
      else
        match value with
        | [] => pure false
        | b :: value => if c = b then run pattern value else pure false

/-- The memo table of `glob_matches`. -/
abbrev Memo := List ((ℕ × ℕ) × Bool)

/-- A class without its closing bracket: the one return that skips the table. -/
def unterminated : Bytes → Bool
  | c :: pattern => c = openBracket && (Text.splitOnce [closeBracket] pattern).isNone
  | [] => false

/-- `run`, with fuel for the recursion. -/
def globRun : ℕ → Bytes → Bytes → StateM Memo Bool
  | 0, _, _ => pure false
  | fuel + 1, pattern, value => do
      let key := (pattern.length, value.length)
      match (← get).lookup key with
      | some result => pure result
      | none =>
          if unterminated pattern then pure false
          else
            let result ← globStep (globRun fuel) pattern value
            modify ((key, result) :: ·)
            pure result

/-- `glob_matches`. -/
def globMatches (pattern value : Bytes) : Bool :=
  (globRun (pattern.length + value.length + 1) pattern value []).1

/-- The same recursion without the memo table, with fuel. -/
def globPlainRun : ℕ → Bytes → Bytes → Bool
  | 0, _, _ => false
  | fuel + 1, pattern, value => globStep (m := Id) (globPlainRun fuel) pattern value

/-- The matcher without its memo table. -/
def globPlain (pattern value : Bytes) : Bool :=
  globPlainRun (pattern.length + value.length + 1) pattern value

/-! ## The two recursions agree -/

/-- **Parametricity of the body.**  A relation between two ways of computing a
boolean that constants and disjunctions respect is respected by the body, which
calls itself on shorter suffixes only. -/
theorem globStep_rel {m n : Type → Type} [Monad m] [Monad n] {R : m Bool → n Bool → Prop}
    (hpure : ∀ b, R (pure b) (pure b))
    (hor : ∀ {x x' y y'}, R x x' → R y y' → R (x <||> y) (x' <||> y'))
    {run : Bytes → Bytes → m Bool} {run' : Bytes → Bytes → n Bool} {pattern value : Bytes}
    (hrun : ∀ p v, p <:+ pattern → v <:+ value →
      p.length + v.length < pattern.length + value.length → R (run p v) (run' p v)) :
    R (globStep run pattern value) (globStep run' pattern value) := by
  cases pattern with
  | nil => exact hpure _
  | cons c pattern =>
      -- The calls the body makes: on the same value, or on its tail.
      have htail : ∀ {p : Bytes}, p <:+ pattern → R (run p value) (run' p value) := by
        intro p hp
        refine hrun p value (hp.trans (List.suffix_cons c pattern)) List.suffix_rfl ?_
        have := hp.length_le
        simp only [List.length_cons]
        omega
      have hnext : ∀ {p b v}, p <:+ c :: pattern → value = b :: v → R (run p v) (run' p v) := by
        rintro p b v hp rfl
        refine hrun p v hp (List.suffix_cons b v) ?_
        have := hp.length_le
        simp only [List.length_cons] at this ⊢
        omega
      have hite : ∀ {φ : Prop} [Decidable φ] {x : m Bool} {x' : n Bool},
          (φ → R x x') → R (if φ then x else pure false) (if φ then x' else pure false) := by
        intro φ _ x x' h
        split
        · exact h ‹_›
        · exact hpure false
      simp only [globStep]
      by_cases hdouble : c = starByte ∧ pattern.head? = some starByte
      · simp only [if_pos hdouble]
        have hsuffix : pattern.tail <:+ pattern := List.tail_suffix pattern
        refine hor (hite fun _ => htail ((List.tail_suffix _).trans hsuffix))
          (hor (htail hsuffix) ?_)
        cases value with
        | nil => exact hpure false
        | cons b value => exact hnext List.suffix_rfl rfl
      simp only [if_neg hdouble]
      by_cases hstar : c = starByte
      · simp only [if_pos hstar]
        refine hor (htail List.suffix_rfl) ?_
        cases value with
        | nil => exact hpure false
        | cons b value => exact hite fun _ => hnext List.suffix_rfl rfl
      simp only [if_neg hstar]
      by_cases hmark : c = questionMark
      · simp only [if_pos hmark]
        cases value with
        | nil => exact hpure false
        | cons b value => exact hite fun _ => hnext (List.suffix_cons c pattern) rfl
      simp only [if_neg hmark]
      by_cases hbracket : c = openBracket
      · simp only [if_pos hbracket]
        cases hsplit : Text.splitOnce [closeBracket] pattern with
        | none => exact hpure false
        | some parts =>
            obtain ⟨cls, rest⟩ := parts
            have hrest := Text.suffix_of_splitOnce hsplit
            cases value with
            | nil => exact hpure false
            | cons b value =>
                exact hite fun _ => hnext (hrest.trans (List.suffix_cons c pattern)) rfl
      simp only [if_neg hbracket]
      cases value with
      | nil => exact hpure false
      | cons b value => exact hite fun _ => hnext (List.suffix_cons c pattern) rfl

theorem globPlainRun_congr {n m : ℕ} {p v : Bytes} (hn : p.length + v.length < n)
    (hm : p.length + v.length < m) : globPlainRun n p v = globPlainRun m p v := by
  induction n generalizing m p v with
  | zero => omega
  | succ n ih =>
      cases m with
      | zero => omega
      | succ m =>
          refine globStep_rel (m := Id) (n := Id) (R := Eq) (fun _ => rfl) ?_ ?_
          · rintro x _ y _ rfl rfl
            rfl
          · exact fun p' v' _ _ hlt => ih (by omega) (by omega)

/-- The matcher without its table unfolds along its body. -/
theorem globPlain_eq (p v : Bytes) : globPlain p v = globStep (m := Id) globPlain p v := by
  refine globStep_rel (m := Id) (n := Id) (R := Eq) (fun _ => rfl) ?_ ?_
  · rintro x _ y _ rfl rfl
    rfl
  · exact fun p' v' _ _ hlt => globPlainRun_congr hlt (Nat.lt_succ_self _)

/-- Every entry of the table is the verdict on the suffixes of its two lengths. -/
def MemoSound (pattern value : Bytes) (memo : Memo) : Prop :=
  ∀ p v result, p <:+ pattern → v <:+ value →
    memo.lookup (p.length, v.length) = some result → result = globPlain p v

/-- A memoised computation yields a boolean and keeps the table sound. -/
def Computes (pattern value : Bytes) (prog : StateM Memo Bool) (b : Id Bool) : Prop :=
  ∀ memo, MemoSound pattern value memo →
    (prog memo).1 = b ∧ MemoSound pattern value (prog memo).2

/-- A disjunction runs its second half only when the first fails. -/
theorem orM_apply (x y : StateM Memo Bool) (memo : Memo) :
    (x <||> y) memo = if (x memo).1 then (true, (x memo).2) else y (x memo).2 := by
  simp only [orM, bind, StateT.bind]
  cases x memo with
  | mk b m => cases b <;> rfl

theorem Computes.or {pattern value : Bytes} {x y : StateM Memo Bool} {b c : Id Bool}
    (hx : Computes pattern value x b) (hy : Computes pattern value y c) :
    Computes pattern value (x <||> y) (b <||> c) := by
  intro memo hmemo
  obtain ⟨hresult, hsound⟩ := hx memo hmemo
  rw [orM_apply, hresult]
  cases b with
  | true => exact ⟨rfl, hsound⟩
  | false => exact hy _ hsound

theorem suffix_eq_of_length {s t u : Bytes} (hs : s <:+ u) (ht : t <:+ u)
    (hlen : s.length = t.length) : s = t :=
  (List.suffix_of_suffix_length_le hs ht hlen.le).eq_of_length hlen

/-- Recording a verdict keeps the table sound. -/
theorem MemoSound.insert {pattern value : Bytes} {memo : Memo}
    (hmemo : MemoSound pattern value memo) {p v : Bytes} (hp : p <:+ pattern)
    (hv : v <:+ value) :
    MemoSound pattern value (((p.length, v.length), globPlain p v) :: memo) := by
  intro p' v' result hp' hv' hlookup
  rw [List.lookup_cons] at hlookup
  split at hlookup
  · rename_i heq
    simp only [beq_iff_eq, Prod.mk.injEq] at heq
    rw [suffix_eq_of_length hp' hp heq.1, suffix_eq_of_length hv' hv heq.2]
    exact (Option.some.inj hlookup).symm
  · exact hmemo p' v' result hp' hv' hlookup

/-- A class without its closing bracket matches nothing. -/
theorem globPlain_unterminated {p : Bytes} (h : unterminated p = true) (v : Bytes) :
    globPlain p v = false := by
  cases p with
  | nil => cases h
  | cons c p =>
      simp only [unterminated, Bool.and_eq_true, decide_eq_true_eq, Option.isNone_iff_eq_none] at h
      obtain ⟨rfl, hsplit⟩ := h
      rw [globPlain_eq]
      have hstar : openBracket ≠ starByte := by decide
      have hmark : openBracket ≠ questionMark := by decide
      simp only [globStep, hstar, hmark, false_and, if_false, if_true, hsplit]
      rfl

/-- One level of the recursion, the table included. -/
theorem globRun_succ (n : ℕ) (p v : Bytes) (memo : Memo) :
    globRun (n + 1) p v memo =
      match memo.lookup (p.length, v.length) with
      | some result => (result, memo)
      | none =>
          if unterminated p then (false, memo)
          else
            let step := globStep (globRun n) p v memo
            (step.1, ((p.length, v.length), step.1) :: step.2) := by
  simp only [globRun, bind, StateT.bind, get, getThe, MonadStateOf.get, StateT.get, pure]
  cases memo.lookup (p.length, v.length) with
  | some result => rfl
  | none =>
      cases unterminated p with
      | true => rfl
      | false => rfl

/-- **The memo table changes nothing.** -/
theorem globRun_computes {pattern value : Bytes} :
    ∀ (n : ℕ) {p v : Bytes}, p <:+ pattern → v <:+ value → p.length + v.length < n →
      Computes pattern value (globRun n p v) (globPlain p v) := by
  intro n
  induction n with
  | zero => exact fun _ _ hlt => absurd hlt (Nat.not_lt_zero _)
  | succ n ih =>
      intro p v hp hv hlt memo hmemo
      rw [globRun_succ]
      cases hlookup : memo.lookup (p.length, v.length) with
      | some result => exact ⟨hmemo p v result hp hv hlookup, hmemo⟩
      | none =>
          -- The early return stores nothing, and nothing matches there.
          cases hclass : unterminated p with
          | true => exact ⟨(globPlain_unterminated hclass v).symm, hmemo⟩
          | false =>
              have hstep : Computes pattern value (globStep (globRun n) p v)
                  (globStep (m := Id) globPlain p v) :=
                globStep_rel (fun _ _ h => ⟨rfl, h⟩) Computes.or fun p' v' hp' hv' hlt' =>
                  ih (hp'.trans hp) (hv'.trans hv) (by omega)
              obtain ⟨hresult, hsound⟩ := hstep memo hmemo
              rw [← globPlain_eq] at hresult
              simp only [Bool.false_eq_true, if_false, hresult, true_and]
              exact hsound.insert hp hv

/-- The matcher and the recursion without the table return the same verdict. -/
theorem globMatches_eq_globPlain (pattern value : Bytes) :
    globMatches pattern value = globPlain pattern value :=
  (globRun_computes _ List.suffix_rfl List.suffix_rfl (Nat.lt_succ_self _) []
    fun _ _ _ _ _ h => nomatch h).1

/-- The keys of the table are lengths of suffixes. -/
def MemoWithin (pattern value : Bytes) (memo : Memo) : Prop :=
  ∀ entry ∈ memo, entry.1.1 ≤ pattern.length ∧ entry.1.2 ≤ value.length

/-- A memoised computation keeps the keys of the table in range. -/
def KeepsWithin (pattern value : Bytes) (prog : StateM Memo Bool) (_ : Id Bool) : Prop :=
  ∀ memo, MemoWithin pattern value memo → MemoWithin pattern value (prog memo).2

theorem KeepsWithin.or {pattern value : Bytes} {x y : StateM Memo Bool} {b c : Id Bool}
    (hx : KeepsWithin pattern value x b) (hy : KeepsWithin pattern value y c) :
    KeepsWithin pattern value (x <||> y) (b <||> c) := by
  intro memo hmemo
  rw [orM_apply]
  split
  · exact hx memo hmemo
  · exact hy _ (hx memo hmemo)

/-- The recursion looks up and stores lengths of suffixes only. -/
theorem globRun_within {pattern value : Bytes} :
    ∀ (n : ℕ) {p v : Bytes}, p <:+ pattern → v <:+ value →
      KeepsWithin pattern value (globRun n p v) (globPlain p v) := by
  intro n
  induction n with
  | zero => exact fun _ _ _ hmemo => hmemo
  | succ n ih =>
      intro p v hp hv memo hmemo
      rw [globRun_succ]
      cases memo.lookup (p.length, v.length) with
      | some result => exact hmemo
      | none =>
          cases unterminated p with
          | true => exact hmemo
          | false =>
              have hstep : KeepsWithin pattern value (globStep (globRun n) p v)
                  (globStep (m := Id) globPlain p v) :=
                globStep_rel (fun _ _ h => h) KeepsWithin.or fun p' v' hp' hv' _ =>
                  ih (hp'.trans hp) (hv'.trans hv)
              simp only [Bool.false_eq_true, if_false]
              intro entry hentry
              rcases List.mem_cons.mp hentry with rfl | hentry
              · exact ⟨hp.length_le, hv.length_le⟩
              · exact hstep memo hmemo entry hentry

/-- Every entry of the table is stored under two lengths, and is the verdict of the plain
recursion on the suffixes of these lengths. -/
def MemoExact (pattern value : Bytes) (memo : Memo) : Prop :=
  ∀ i j result, memo.lookup (i, j) = some result →
    i ≤ pattern.length ∧ j ≤ value.length ∧
      result = globPlain (pattern.rtake i) (value.rtake j)

theorem length_rtake {s : Bytes} {i : ℕ} (h : i ≤ s.length) : (s.rtake i).length = i := by
  rw [List.rtake, List.length_drop]
  omega

/-- A sound table with keys in range is exact. -/
theorem MemoSound.exact {pattern value : Bytes} {memo : Memo}
    (hmemo : MemoSound pattern value memo) (hkeys : MemoWithin pattern value memo) :
    MemoExact pattern value memo := by
  intro i j result hlookup
  obtain ⟨before, after, hsplit, -⟩ := List.lookup_eq_some_iff.mp hlookup
  obtain ⟨hi, hj⟩ := hkeys ((i, j), result) (by simp [hsplit])
  refine ⟨hi, hj, hmemo _ _ _ (List.drop_suffix _ pattern) (List.drop_suffix _ value) ?_⟩
  rw [length_rtake hi, length_rtake hj]
  exact hlookup

/-- **The memoised search is the plain recursion.**  With any fuel beyond the two lengths
the search ends with the verdict of the recursion without the table, and every entry it
has stored by then is the verdict of that recursion on the suffixes of its key; the plain
recursion itself needs no fuel. -/
theorem globMatches_memo (pattern value : Bytes) :
    (∀ fuel, pattern.length + value.length < fuel →
      (globRun fuel pattern value []).1 = globPlain pattern value ∧
      MemoExact pattern value (globRun fuel pattern value []).2) ∧
    (∀ fuel p v memo, p <:+ pattern → v <:+ value → p.length + v.length < fuel →
      MemoSound pattern value memo →
      (globRun fuel p v memo).1 = globPlain p v ∧
        MemoSound pattern value (globRun fuel p v memo).2) ∧
    globMatches pattern value = globPlain pattern value ∧
    ∀ p v, globPlain p v = globStep (m := Id) globPlain p v := by
  refine ⟨fun fuel hfuel => ?_, fun fuel p v memo hp hv hfuel hmemo => ?_, ?_, globPlain_eq⟩
  · have hempty : MemoSound pattern value [] := fun _ _ _ _ _ h => nomatch h
    obtain ⟨hresult, hsound⟩ :=
      globRun_computes fuel List.suffix_rfl List.suffix_rfl hfuel [] hempty
    have hkeys := globRun_within fuel List.suffix_rfl List.suffix_rfl []
      (fun _ h => absurd h List.not_mem_nil : MemoWithin pattern value [])
    exact ⟨hresult, hsound.exact hkeys⟩
  · exact globRun_computes fuel hp hv hfuel memo hmemo
  · exact globMatches_eq_globPlain pattern value

/-! ## The language of a pattern -/

/-- The tokens of a pattern.  A slash after `**` is absorbed, and a class without its
closing bracket makes the rest of the pattern unmatchable. -/
def parseGlob : Bytes → List (Token UInt8)
  | [] => []
  | c :: pattern =>
      if c = starByte ∧ pattern.head? = some starByte then
        .globstar ::
          parseGlob
            (if pattern.tail.head? = some slash then pattern.tail.tail else pattern.tail)
      else if c = starByte then .star :: parseGlob pattern
      else if c = questionMark then .one (fun _ => true) :: parseGlob pattern
      else if c = openBracket then
        match _ : Text.splitOnce [closeBracket] pattern with
        | none => [.fail]
        | some (cls, pattern) => .one (classAccepts cls) :: parseGlob pattern
      else .lit c :: parseGlob pattern
  termination_by pattern => pattern.length
  decreasing_by
    · split
      · simp only [List.length_tail, List.length_cons]
        omega
      · simp only [List.length_tail, List.length_cons]
        omega
    · simp
    · simp
    · have := congrArg List.length (Text.splitOnce_eq_some ‹_›)
      simp only [List.length_append, List.length_cons] at this ⊢
      omega
    · simp

/-- The texts a pattern matches. -/
def globLanguage (pattern : Bytes) : Language UInt8 := language slash (parseGlob pattern)

theorem parseGlob_globstar {c : UInt8} {pattern : Bytes}
    (h : c = starByte ∧ pattern.head? = some starByte) :
    parseGlob (c :: pattern) =
      .globstar ::
        parseGlob
          (if pattern.tail.head? = some slash then pattern.tail.tail else pattern.tail) := by
  rw [parseGlob, if_pos h]

theorem parseGlob_star {c : UInt8} {pattern : Bytes}
    (h : ¬ (c = starByte ∧ pattern.head? = some starByte)) (hc : c = starByte) :
    parseGlob (c :: pattern) = .star :: parseGlob pattern := by
  rw [parseGlob, if_neg h, if_pos hc]

/-- A byte without a special meaning stands for itself. -/
theorem parseGlob_lit {c : UInt8} (hstar : c ≠ starByte) (hmark : c ≠ questionMark)
    (hbracket : c ≠ openBracket) (pattern : Bytes) :
    parseGlob (c :: pattern) = .lit c :: parseGlob pattern := by
  rw [parseGlob, if_neg fun h => hstar h.1, if_neg hstar, if_neg hmark, if_neg hbracket]

theorem orM_id (x y : Id Bool) : (x <||> y) = (x || y : Bool) := by
  cases x <;> rfl

theorem ite_pure_false (φ : Prop) [Decidable φ] (x : Id Bool) :
    (if φ then x else pure false) = (decide φ && x : Bool) := by
  by_cases h : φ
  · simp [h]
  · simp only [h, if_false, decide_false, Bool.false_and]
    rfl

/-- The symbols of `glob_matches`. -/
def byteSymbols : GlobSymbols UInt8 where
  star := starByte
  question := questionMark
  openBracket := openBracket
  closeBracket := closeBracket
  bang := bang
  caret := caret
  dash := dash
  separator := slash
  separator_plain := by decide

theorem contains_byteSymbols (b : UInt8) (cls : Bytes) :
    byteSymbols.contains b cls = classContains b cls := by
  fun_induction classContains b cls with
  | case1 lo hi rest ih =>
      rw [GlobSymbols.contains, if_pos (show dash = byteSymbols.dash from rfl), ih]
  | case2 lo mid hi rest hmid ih =>
      rw [GlobSymbols.contains, if_neg (show mid ≠ byteSymbols.dash from hmid), ih]
  | case3 c c' => rfl
  | case4 c => rfl
  | case5 => rfl

theorem admits_byteSymbols : byteSymbols.admits = classAccepts := by
  funext cls b
  simp only [GlobSymbols.admits, contains_byteSymbols]
  rfl

/-- The body of the recursion without the table is the body of the matcher over bytes. -/
theorem globStep_id (run : Bytes → Bytes → Bool) (pattern value : Bytes) :
    globStep (m := Id) run pattern value = byteSymbols.step run pattern value := by
  cases pattern with
  | nil => rfl
  | cons c pattern =>
      simp only [globStep, orM_id, ite_pure_false, GlobSymbols.step, admits_byteSymbols]
      show _ = if c = starByte ∧ pattern.head? = some starByte then _ else _
      split
      · cases value <;> rfl
      show _ = if c = starByte then _ else _
      split
      · cases value <;> rfl
      cases value with
      | nil =>
          split
          · rfl
          split
          · cases Text.splitOnce [closeBracket] pattern <;> rfl
          · rfl
      | cons b value =>
          show _ = if c = questionMark then _ else if c = openBracket then _ else _
          split
          · rfl
          split
          · have hbracket : byteSymbols.closeBracket = closeBracket := rfl
            rw [hbracket]
            cases Text.splitOnce [closeBracket] pattern <;> rfl
          · rfl

/-- The recursion without the table is the matcher over bytes. -/
theorem globPlain_eq_isMatch (pattern value : Bytes) :
    globPlain pattern value = byteSymbols.isMatch pattern value := by
  have hrun : ∀ fuel, globPlainRun fuel = byteSymbols.run fuel := by
    intro fuel
    induction fuel with
    | zero => rfl
    | succ fuel ih =>
        funext p v
        rw [globPlainRun, globStep_id, ih]
        rfl
  rw [globPlain, hrun]
  rfl

/-- The tokens are those of the pieces a pattern is written with. -/
theorem parseGlob_eq (pattern : Bytes) :
    parseGlob pattern = (byteSymbols.pieces pattern).map byteSymbols.token := by
  induction hn : pattern.length using Nat.strong_induction_on generalizing pattern with
  | h n ih =>
  subst hn
  cases pattern with
  | nil => rw [parseGlob, GlobSymbols.pieces, List.map_nil]
  | cons c pattern =>
      have hrec : ∀ p, p.length ≤ pattern.length →
          parseGlob p = (byteSymbols.pieces p).map byteSymbols.token := fun p hp =>
        ih _ (by simp only [List.length_cons]; omega) p rfl
      by_cases hdouble : c = starByte ∧ pattern.head? = some starByte
      · rw [parseGlob_globstar hdouble, GlobSymbols.pieces_globstar hdouble, List.map_cons, hrec]
        · rfl
        · split
          all_goals simp only [List.length_tail]; omega
      by_cases hstar : c = starByte
      · rw [parseGlob_star hdouble hstar, GlobSymbols.pieces_star hdouble hstar, List.map_cons,
          hrec _ le_rfl]
        rfl
      by_cases hmark : c = questionMark
      · rw [parseGlob, if_neg hdouble, if_neg hstar, if_pos hmark,
          GlobSymbols.pieces_question hstar hmark, List.map_cons, hrec _ le_rfl]
        rfl
      by_cases hbracket : c = openBracket
      · rw [parseGlob, if_neg hdouble, if_neg hstar, if_neg hmark, if_pos hbracket]
        cases hsplit : Text.splitOnce [closeBracket] pattern with
        | none =>
            rw [GlobSymbols.pieces_fail hstar hmark hbracket hsplit]
            rfl
        | some parts =>
            obtain ⟨cls, rest⟩ := parts
            have hrest := (Text.suffix_of_splitOnce hsplit).length_le
            rw [GlobSymbols.pieces_cls hstar hmark hbracket hsplit, List.map_cons,
              ← hrec rest hrest, GlobSymbols.token, admits_byteSymbols]
      · rw [parseGlob_lit hstar hmark hbracket, GlobSymbols.pieces_lit hstar hmark hbracket,
          List.map_cons, hrec _ le_rfl]
        rfl

/-- **The recursion decides the language of the pattern.** -/
theorem globPlain_iff (pattern value : Bytes) :
    globPlain pattern value = true ↔ value ∈ globLanguage pattern := by
  rw [globPlain_eq_isMatch, GlobSymbols.isMatch_iff, globLanguage, parseGlob_eq]
  rfl

/-- **`glob_matches` decides the language of the pattern.** -/
theorem globMatches_iff (pattern value : Bytes) :
    globMatches pattern value = true ↔ value ∈ globLanguage pattern := by
  rw [globMatches_eq_globPlain, globPlain_iff]

/-! ## Literal prefixes and separators -/

/-- `*`, `?` and `[`. -/
def isWildcard (b : UInt8) : Bool := b == starByte || b == questionMark || b == openBracket

/-- `has_glob`. -/
def hasGlob (path : Bytes) : Bool := path.any isWildcard

theorem parseGlob_lits_append {lits : Bytes} (h : ∀ b ∈ lits, isWildcard b = false)
    (pattern : Bytes) :
    parseGlob (lits ++ pattern) = lits.map .lit ++ parseGlob pattern := by
  induction lits with
  | nil => rfl
  | cons b lits ih =>
      have hb := h b List.mem_cons_self
      simp only [isWildcard, Bool.or_eq_false_iff, beq_eq_false_iff_ne] at hb
      rw [List.cons_append, parseGlob_lit hb.1.1 hb.1.2 hb.2,
        ih fun b hb => h b (List.mem_cons_of_mem _ hb)]
      rfl

/-- **A literal prefix of a pattern must match literally.** -/
theorem mem_globLanguage_lits_append {lits : Bytes} (h : ∀ b ∈ lits, isWildcard b = false)
    {pattern value : Bytes} :
    value ∈ globLanguage (lits ++ pattern) ↔
      ∃ rest, value = lits ++ rest ∧ rest ∈ globLanguage pattern := by
  rw [globLanguage, parseGlob_lits_append h, mem_language_lits_append]
  rfl

/-- A pattern without a slash and without `**` has no token that crosses a slash. -/
theorem parseGlob_not_crosses (pattern : Bytes) (hslash : slash ∉ pattern)
    (hdouble : ¬ [starByte, starByte] <:+: pattern) :
    ∀ t ∈ parseGlob pattern, ¬ t.Crosses slash := by
  induction hn : pattern.length using Nat.strong_induction_on generalizing pattern with
  | h n ih =>
  subst hn
  cases pattern with
  | nil => simp [parseGlob]
  | cons c pattern =>
      obtain ⟨hc, htail⟩ := not_or.mp fun h => hslash (List.mem_cons.mpr h)
      have hrec : ∀ p, p <:+ pattern → ∀ t ∈ parseGlob p, ¬ t.Crosses slash := by
        intro p hp
        have hsuffix := hp.trans (List.suffix_cons c pattern)
        exact ih _ (by have := hp.length_le; simp only [List.length_cons]; omega) p
          (fun h => hslash (hsuffix.mem h))
          (fun h => hdouble (h.trans hsuffix.isInfix)) rfl
      -- Without `**`, only a literal slash crosses one.
      have hnot : ¬ (c = starByte ∧ pattern.head? = some starByte) := by
        rintro ⟨rfl, hhead⟩
        obtain ⟨rest, rfl⟩ := List.head?_eq_some_iff.mp hhead
        exact hdouble (List.prefix_append [starByte, starByte] rest).isInfix
      rw [parseGlob, if_neg hnot]
      split
      · exact List.forall_mem_cons.mpr ⟨id, hrec pattern List.suffix_rfl⟩
      split
      · exact List.forall_mem_cons.mpr ⟨id, hrec pattern List.suffix_rfl⟩
      split
      · cases hsplit : Text.splitOnce [closeBracket] pattern with
        | none => exact List.forall_mem_singleton.mpr id
        | some parts =>
            have hsuffix := Text.suffix_of_splitOnce hsplit
            exact List.forall_mem_cons.mpr ⟨id, hrec parts.2 hsuffix⟩
      · exact List.forall_mem_cons.mpr ⟨fun h => hc h.symm, hrec pattern List.suffix_rfl⟩

/-- **Without a slash and `**`, a pattern matches within one path segment.** -/
theorem slash_notMem_of_mem_globLanguage {pattern value : Bytes} (hslash : slash ∉ pattern)
    (hdouble : ¬ [starByte, starByte] <:+: pattern) (h : value ∈ globLanguage pattern) :
    slash ∉ value :=
  separator_notMem (parseGlob_not_crosses pattern hslash hdouble) h

/-! ## The component `**/` -/

/-- `"**/"`. -/
def globstarSlash : Bytes := [starByte, starByte, slash]

/-- A text that is empty or ends in a slash: zero or more complete path components. -/
def CompleteComponents (u : Bytes) : Prop := u = [] ∨ u.getLast? = some slash

/-- **`**/` stands for any text**, not for complete components only: the alternative that
skips all three bytes is tried again after every byte of the value. -/
theorem mem_globLanguage_globstarSlash {pattern value : Bytes} :
    value ∈ globLanguage (globstarSlash ++ pattern) ↔
      ∃ u w, value = u ++ w ∧ w ∈ globLanguage pattern := by
  have hparse : parseGlob (globstarSlash ++ pattern) = .globstar :: parseGlob pattern :=
    parseGlob_globstar ⟨rfl, rfl⟩
  rw [globLanguage, hparse, mem_language_cons]
  constructor
  · rintro ⟨u, -, w, hw, rfl⟩
    exact ⟨u, w, rfl, hw⟩
  · rintro ⟨u, w, rfl, hw⟩
    exact ⟨u, trivial, w, hw, rfl⟩

/-- On a path, the matcher reads `**/` as zero or more complete components. -/
def ReadsComponents (pattern value : Bytes) : Prop :=
  globMatches (globstarSlash ++ pattern) value = true ↔
    ∃ u w, value = u ++ w ∧ CompleteComponents u ∧ globMatches pattern w = true

/-- One path: what matches a suffix has to match one that starts a component. -/
theorem readsComponents_iff (pattern value : Bytes) :
    ReadsComponents pattern value ↔
      ∀ u w, value = u ++ w → w ∈ globLanguage pattern →
        ∃ u' w', value = u' ++ w' ∧ CompleteComponents u' ∧ w' ∈ globLanguage pattern := by
  simp only [ReadsComponents, globMatches_iff, mem_globLanguage_globstarSlash]
  constructor
  · intro h u w hvalue hw
    exact h.mp ⟨u, w, hvalue, hw⟩
  · intro h
    constructor
    · rintro ⟨u, w, hvalue, hw⟩
      exact h u w hvalue hw
    · rintro ⟨u, w, hvalue, -, hw⟩
      exact ⟨u, w, hvalue, hw⟩

theorem exists_byte_ne (c : UInt8) : ∃ b, b ≠ c ∧ b ≠ slash := by
  by_cases hc : c = 0x61
  · exact ⟨0x62, by rw [hc]; decide, by decide⟩
  · exact ⟨0x61, Ne.symm hc, by decide⟩

/-- **When `**/` stands for complete components.**  On every path if and only if the rest of
the pattern begins, behind classes of every byte, with a star, or matches nothing; on one
path if and only if the path has, with any suffix in the language of the rest, one that
starts the path or follows a slash. -/
theorem globMatches_globstarSlash_iff (pattern : Bytes) :
    ((∀ value, ReadsComponents pattern value) ↔
      StartsFree slash (parseGlob pattern) ∨ ∃ t ∈ parseGlob pattern, t.Void slash) ∧
    ∀ value, ReadsComponents pattern value ↔
      ∀ u w, value = u ++ w → w ∈ globLanguage pattern →
        ∃ u' w', value = u' ++ w' ∧ CompleteComponents u' ∧ w' ∈ globLanguage pattern := by
  refine ⟨?_, readsComponents_iff pattern⟩
  rw [← matchesFromComponent_iff exists_byte_ne]
  constructor
  · intro h u w hw
    exact (readsComponents_iff pattern (u ++ w)).mp (h (u ++ w)) u w rfl hw
  · intro h value
    rw [readsComponents_iff]
    rintro u w rfl hw
    exact h u w hw

/-- `**/x.parquet` matches `ax.parquet`. -/
theorem globMatches_globstarSlash_name :
    ¬ ReadsComponents (ascii "x.parquet") (ascii "ax.parquet") := by
  have hmatch : globMatches (globstarSlash ++ ascii "x.parquet") (ascii "ax.parquet") = true := by
    rw [globMatches_iff, mem_globLanguage_globstarSlash]
    exact ⟨ascii "a", ascii "x.parquet", rfl,
      (globMatches_iff _ _).mp (by decide +kernel)⟩
  intro h
  obtain ⟨u, w, hvalue, hu, hw⟩ := h.mp hmatch
  rcases hu with rfl | hslash
  · rw [List.nil_append] at hvalue
    rw [← hvalue] at hw
    exact absurd hw (by decide +kernel)
  · have hmem : slash ∈ u ++ w := List.mem_append_left _ (List.mem_of_getLast? hslash)
    rw [← hvalue] at hmem
    exact absurd hmem (by decide)

end DuckdbOpendal
