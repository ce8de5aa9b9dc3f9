import DuckdbOpendal.Lib.Cursor
import Mathlib.Data.List.Basic
import Mathlib.Data.List.Forall2

/-!
# Scans in chunks

A scan reads a cursor in chunks: a call fills a chunk of at most so many rows and remembers
whether the cursor has reported its end.  Its caller takes an empty chunk for the end, and does
not call again once a call has failed.

## Main Definitions

* `Cursor.fill` — the loop that fills a chunk
* `Cursor.Scan.call` — one call of a scan
* `Cursor.repeatCall` — the calls made until one fails
* `Cursor.Emits` — chunks that hand out the rows of a cursor

## Main Results

* `Cursor.handsOut_repeatCall` — a scan hands out the rows of its cursor
* `Cursor.Run.HandsOut.unique` — what is handed out is determined
* `Cursor.keeps_repeatCall` — what the cursor keeps, a scan keeps
-/

universe u v w

namespace Cursor

variable {σ : Type u} {ρ : Type v} {ε : Type w}

/-! ## Rows handed on -/

/-- A cursor whose rows are converted and whose errors are raised as errors of another kind. -/
def Next.handOn {ρ' ε' : Type*} (raise : ε → ε') (convert : ρ → Except ε' ρ')
    (next : Next σ ρ ε) : Next σ ρ' ε' := fun s =>
  match next s with
  | (s', .error e) => (s', .error (raise e))
  | (s', .ok none) => (s', .ok none)
  | (s', .ok (some r)) => (s', (convert r).map some)

/-- **The reading of a cursor whose rows are converted**: the converted rows, up to the first that
cannot be converted. -/
theorem Drains.handOn {ρ' ε' : Type*} {next : Next σ ρ ε} {s : σ} {rows : List ρ}
    {out : Except ε Unit} (h : Drains next s rows out) (raise : ε → ε')
    (convert : ρ → Except ε' ρ') :
    Drains (next.handOn raise convert) s (collect (fun r => (convert r).map some) rows).1
      ((collect (fun r => (convert r).map some) rows).2.bind fun _ => out.mapError raise) := by
  induction h with
  | done h => exact .done (by rw [Next.handOn, h])
  | error h => exact .error (by rw [Next.handOn, h])
  | @row s s' r _ _ h _ ih =>
      have hnext : next.handOn raise convert s = (s', (convert r).map some) := by
        rw [Next.handOn, h]
      cases hr : convert r with
      | error e =>
          rw [hr] at hnext
          simp only [collect, hr, Except.map]
          exact .error hnext
      | ok r' =>
          rw [hr] at hnext
          simp only [collect, hr, Except.map]
          exact .row hnext ih

/-- Rows that can all be converted are all handed on. -/
theorem Drains.handOn_of_ok {ρ' ε' : Type*} {raise : ε → ε'} {convert : ρ → Except ε' ρ'}
    {f : ρ → ρ'} {next : Next σ ρ ε} {s : σ} {rows : List ρ} {out : Except ε Unit}
    (h : Drains next s rows out) (hconvert : ∀ r ∈ rows, convert r = .ok (f r)) :
    Drains (next.handOn raise convert) s (rows.map f) (out.mapError raise) := by
  have hcollect : collect (fun r => (convert r).map some) rows = (rows.map f, .ok ()) := by
    have hok : ∀ r ∈ rows, (convert r).map some = .ok (some (f r)) := fun r hr => by
      rw [hconvert r hr]
      rfl
    rw [collect_of_ok hok, List.filterMap_eq_map']
  have hdrains := h.handOn raise convert
  rw [hcollect] at hdrains
  exact hdrains

/-- Items that all give rows give exactly these rows. -/
theorem collect_of_forall₂ {α : Type*} {visit : α → Except ε (Option ρ)} {items : List α}
    {rows : List ρ} (h : List.Forall₂ (fun a r => visit a = .ok (some r)) items rows) :
    collect visit items = (rows, .ok ()) := by
  induction h with
  | nil => rfl
  | cons hvisit _ ih => simp only [collect, hvisit, ih]

/-! ## Chunks -/

/-- The first chunks of a list of rows, empty behind its end. -/
def chunks (size : ℕ) : ℕ → List ρ → List (List ρ)
  | 0, _ => []
  | n + 1, rows => rows.take size :: chunks size n (rows.drop size)

/-- **Chunks hand out rows**: in order, without loss or repetition, and with an empty chunk only
behind the last row. -/
structure Emits (size : ℕ) (rows : List ρ) (chunks : List (List ρ)) : Prop where
  flatten : chunks.flatten = rows.take (chunks.length * size)
  length_le : ∀ chunk ∈ chunks, chunk.length ≤ size
  empty_iff : ∀ i chunk, chunks[i]? = some chunk → (chunk = [] ↔ rows.length ≤ i * size)

theorem length_chunks (size n : ℕ) (rows : List ρ) : (chunks size n rows).length = n := by
  induction n generalizing rows with
  | zero => rfl
  | succ n ih => exact congrArg (· + 1) (ih (rows.drop size))

theorem flatten_chunks (size n : ℕ) (rows : List ρ) :
    (chunks size n rows).flatten = rows.take (n * size) := by
  induction n generalizing rows with
  | zero => simp [chunks]
  | succ n ih =>
      rw [chunks, List.flatten_cons, ih, Nat.add_one_mul, Nat.add_comm, List.take_add]

theorem getElem?_chunks {size n i : ℕ} {rows chunk : List ρ}
    (h : (chunks size n rows)[i]? = some chunk) : chunk = (rows.drop (i * size)).take size := by
  induction n generalizing rows i with
  | zero => simp [chunks] at h
  | succ n ih =>
      cases i with
      | zero =>
          rw [chunks, List.getElem?_cons_zero] at h
          rw [Nat.zero_mul, List.drop_zero]
          exact (Option.some.inj h).symm
      | succ i =>
          rw [chunks, List.getElem?_cons_succ] at h
          rw [ih h, List.drop_drop, Nat.add_one_mul, Nat.add_comm]

/-- The chunks of a list hand out its rows. -/
theorem emits_chunks {size : ℕ} (hsize : 0 < size) (n : ℕ) (rows : List ρ) :
    Emits size rows (chunks size n rows) where
  flatten := by rw [length_chunks, flatten_chunks]
  length_le chunk hchunk := by
    obtain ⟨i, hi⟩ := List.mem_iff_getElem?.mp hchunk
    rw [getElem?_chunks hi]
    exact List.length_take_le ..
  empty_iff i chunk hi := by
    rw [getElem?_chunks hi, List.take_eq_nil_iff, or_iff_right (Nat.ne_of_gt hsize),
      List.drop_eq_nil_iff]

/-! ## Calls -/

/-- The loop that fills a chunk: its rows, and whether the cursor has reported its end. -/
def fill (next : Next σ ρ ε) : ℕ → σ → σ × Except ε (List ρ × Bool)
  | 0, s => (s, .ok ([], false))
  | size + 1, s =>
      match next s with
      | (s', .error e) => (s', .error e)
      | (s', .ok none) => (s', .ok ([], true))
      | (s', .ok (some r)) =>
          match fill next size s' with
          | (s'', .error e) => (s'', .error e)
          | (s'', .ok (rows, finished)) => (s'', .ok (r :: rows, finished))

/-- The state of a scan. -/
structure Scan (σ : Type u) where
  cursor : σ
  finished : Bool

/-- One call of a scan. -/
def Scan.call (next : Next σ ρ ε) (size : ℕ) (st : Scan σ) : Scan σ × Except ε (List ρ) :=
  if st.finished then (st, .ok [])
  else
    match fill next size st.cursor with
    | (s, .error e) => (⟨s, false⟩, .error e)
    | (s, .ok (rows, finished)) => (⟨s, finished⟩, .ok rows)

/-- What repeated calls come to: the last state, the chunks, and the error that ended them. -/
structure Run (τ : Type u) (ρ : Type v) (ε : Type w) where
  state : τ
  chunks : List (List ρ)
  thrown : Option ε

/-- **A run of so many calls hands out a cursor's rows**: exactly, and without a failure unless
the cursor fails; then the call fails whose chunk the rows before do not fill. -/
structure Run.HandsOut {τ : Type u} (run : Run τ ρ ε) (size : ℕ) (rows : List ρ)
    (out : Except ε Unit) (n : ℕ) : Prop where
  emits : Emits size rows run.chunks
  length_eq : run.thrown = none → run.chunks.length = n
  thrown_iff : ∀ e, run.thrown = some e ↔ out = .error e ∧ rows.length / size < n

/-- What a run hands out does not depend on its states. -/
theorem Run.HandsOut.of_eq {τ τ' : Type u} {run : Run τ ρ ε} {run' : Run τ' ρ ε} {size : ℕ}
    {rows : List ρ} {out : Except ε Unit} {n : ℕ} (h : run.HandsOut size rows out n)
    (hchunks : run'.chunks = run.chunks) (hthrown : run'.thrown = run.thrown) :
    run'.HandsOut size rows out n where
  emits := hchunks ▸ h.emits
  length_eq := hthrown ▸ hchunks ▸ h.length_eq
  thrown_iff := hthrown ▸ h.thrown_iff

/-- **What is handed out without a failure is handed out in one way only.** -/
theorem Run.HandsOut.unique {τ : Type u} {run : ℕ → Run τ ρ ε} {size : ℕ} (hsize : 0 < size)
    {rows rows' : List ρ} {out : Except ε Unit}
    (h : ∀ n, (run n).HandsOut size rows (.ok ()) n)
    (h' : ∀ n, (run n).HandsOut size rows' out n) : rows = rows' ∧ out = .ok () := by
  have hnone : ∀ n, (run n).thrown = none := fun n => by
    rw [Option.eq_none_iff_forall_ne_some]
    intro e he
    cases (((h n).thrown_iff e).mp he).1
  have hok : out = .ok () := by
    cases out with
    | ok _ => rfl
    | error e =>
        have hthrown := ((h' (rows'.length / size + 1)).thrown_iff e).mpr ⟨rfl, Nat.lt_succ_self _⟩
        cases (hnone _).symm.trans hthrown
  -- So many calls that the chunks hold all rows of either list.
  have hflatten := (h (max rows.length rows'.length)).emits.flatten
  have hflatten' := (h' (max rows.length rows'.length)).emits.flatten
  have hlength := (h (max rows.length rows'.length)).length_eq (hnone _)
  have hle : max rows.length rows'.length ≤ max rows.length rows'.length * size :=
    Nat.le_mul_of_pos_right _ hsize
  rw [hlength, List.take_of_length_le (Nat.le_trans (Nat.le_max_left _ _) hle)] at hflatten
  rw [hlength, List.take_of_length_le (Nat.le_trans (Nat.le_max_right _ _) hle)] at hflatten'
  exact ⟨hflatten.symm.trans hflatten', hok⟩

/-- So many calls, or those up to the first that fails. -/
def repeatCall {τ : Type u} (call : τ → τ × Except ε (List ρ)) : ℕ → τ → Run τ ρ ε
  | 0, t => ⟨t, [], none⟩
  | n + 1, t =>
      match call t with
      | (t', .error e) => ⟨t', [], some e⟩
      | (t', .ok chunk) =>
          let rest := repeatCall call n t'
          { rest with chunks := chunk :: rest.chunks }

section Fill

variable {next : Next σ ρ ε} {size : ℕ} {s : σ} {rows : List ρ} {out : Except ε Unit}

/-- A chunk that the rows fill. -/
theorem fill_of_le (h : Drains next s rows out) (hle : size ≤ rows.length) :
    ∃ s', fill next size s = (s', .ok (rows.take size, false)) ∧
      Drains next s' (rows.drop size) out := by
  induction size generalizing s rows with
  | zero => exact ⟨s, rfl, h⟩
  | succ size ih =>
      cases h with
      | done _ => exact absurd hle (Nat.not_succ_le_zero size)
      | error _ => exact absurd hle (Nat.not_succ_le_zero size)
      | row h hrest =>
          obtain ⟨s', hfill, hdrains⟩ := ih hrest (Nat.le_of_succ_le_succ hle)
          refine ⟨s', ?_, hdrains⟩
          simp only [fill, h, hfill, List.take_succ_cons]

/-- The last chunk of a cursor that ends well. -/
theorem fill_of_lt (h : Drains next s rows (.ok ())) (hlt : rows.length < size) :
    ∃ s', fill next size s = (s', .ok (rows, true)) := by
  induction size generalizing s rows with
  | zero => exact absurd hlt (Nat.not_lt_zero _)
  | succ size ih =>
      cases h with
      | @done _ s' h => exact ⟨s', by simp only [fill, h]⟩
      | row h hrest =>
          obtain ⟨s', hfill⟩ := ih hrest (Nat.lt_of_succ_lt_succ hlt)
          exact ⟨s', by simp only [fill, h, hfill]⟩

/-- A chunk in which the cursor fails. -/
theorem fill_of_error {e : ε} (h : Drains next s rows (.error e)) (hlt : rows.length < size) :
    ∃ s', fill next size s = (s', .error e) := by
  induction size generalizing s rows with
  | zero => exact absurd hlt (Nat.not_lt_zero _)
  | succ size ih =>
      cases h with
      | @error _ s' _ h => exact ⟨s', by simp only [fill, h]⟩
      | row h hrest =>
          obtain ⟨s', hfill⟩ := ih hrest (Nat.lt_of_succ_lt_succ hlt)
          exact ⟨s', by simp only [fill, h, hfill]⟩

end Fill

/-! ## Scans -/

section Scans

variable {next : Next σ ρ ε} {size : ℕ} {st : Scan σ} {rows : List ρ} {out : Except ε Unit}

/-- What a scan still has to hand out, and how it will end. -/
def Scan.Holds (next : Next σ ρ ε) (st : Scan σ) (rows : List ρ) (out : Except ε Unit) : Prop :=
  (st.finished = false ∧ Drains next st.cursor rows out) ∨
    (st.finished = true ∧ rows = [] ∧ out = .ok ())

variable (size) in
/-- A call hands out the next chunk, and leaves the rows behind it. -/
theorem Scan.call_of_holds (h : st.Holds next rows out)
    (hrows : out = .ok () ∨ size ≤ rows.length) :
    ∃ st', st.call next size = (st', .ok (rows.take size)) ∧
      st'.Holds next (rows.drop size) out := by
  rcases h with ⟨hfinished, hdrains⟩ | ⟨hfinished, rfl, rfl⟩
  · have hcall : st.call next size = match fill next size st.cursor with
        | (s, .error e) => (⟨s, false⟩, .error e)
        | (s, .ok (rows, finished)) => (⟨s, finished⟩, .ok rows) :=
      if_neg (by simp [hfinished])
    rw [hcall]
    rcases Nat.lt_or_ge rows.length size with hlt | hle
    · obtain rfl : out = .ok () := hrows.resolve_right (Nat.not_le.mpr hlt)
      obtain ⟨s', hfill⟩ := fill_of_lt hdrains hlt
      rw [hfill, List.take_of_length_le (Nat.le_of_lt hlt),
        List.drop_of_length_le (Nat.le_of_lt hlt)]
      exact ⟨⟨s', true⟩, rfl, Or.inr ⟨rfl, rfl, rfl⟩⟩
    · obtain ⟨s', hfill, hrest⟩ := fill_of_le hdrains hle
      rw [hfill]
      exact ⟨⟨s', false⟩, rfl, Or.inl ⟨rfl, hrest⟩⟩
  · rw [List.take_nil, List.drop_nil]
    exact ⟨st, if_pos hfinished, Or.inr ⟨hfinished, rfl, rfl⟩⟩

/-- A call that the remaining rows do not fill meets the failure behind them. -/
theorem Scan.call_of_error {e : ε} (h : st.Holds next rows (.error e))
    (hlt : rows.length < size) : ∃ st', st.call next size = (st', .error e) := by
  rcases h with ⟨hfinished, hdrains⟩ | ⟨-, -, hout⟩
  · obtain ⟨s', hfill⟩ := fill_of_error hdrains hlt
    refine ⟨⟨s', false⟩, ?_⟩
    rw [Scan.call, if_neg (by simp [hfinished]), hfill]
  · cases hout

variable (size) in
/-- The calls of a scan that ends well. -/
theorem repeatCall_of_ok (h : st.Holds next rows (.ok ())) (n : ℕ) :
    (repeatCall (Scan.call next size) n st).chunks = chunks size n rows ∧
      (repeatCall (Scan.call next size) n st).thrown = none := by
  induction n generalizing st rows with
  | zero => exact ⟨rfl, rfl⟩
  | succ n ih =>
      obtain ⟨st', hcall, hrest⟩ := Scan.call_of_holds size h (Or.inl rfl)
      obtain ⟨hchunks, hthrown⟩ := ih hrest
      simp only [repeatCall, hcall, chunks, hchunks, hthrown]
      exact ⟨trivial, trivial⟩

/-- The calls of a scan that fails: the whole chunks before the failure are handed out. -/
theorem repeatCall_of_error {e : ε} (hsize : 0 < size) (h : st.Holds next rows (.error e))
    (n : ℕ) :
    (repeatCall (Scan.call next size) n st).chunks =
        chunks size (min n (rows.length / size)) rows ∧
      (repeatCall (Scan.call next size) n st).thrown =
        if n ≤ rows.length / size then none else some e := by
  induction n generalizing st rows with
  | zero => simp [repeatCall, chunks]
  | succ n ih =>
      rcases Nat.lt_or_ge rows.length size with hlt | hle
      · obtain ⟨st', hcall⟩ := Scan.call_of_error h hlt
        rw [Nat.div_eq_of_lt hlt]
        simp only [repeatCall, hcall]
        exact ⟨rfl, rfl⟩
      · obtain ⟨st', hcall, hrest⟩ := Scan.call_of_holds size h (Or.inr hle)
        obtain ⟨hchunks, hthrown⟩ := ih hrest
        have hdiv : rows.length / size = (rows.drop size).length / size + 1 := by
          rw [List.length_drop]
          exact Nat.div_eq_sub_div hsize hle
        rw [hdiv, Nat.add_min_add_right]
        simp only [repeatCall, hcall, chunks, hchunks, hthrown, Nat.add_le_add_iff_right]
        exact ⟨trivial, trivial⟩

/-- **A scan hands out the rows of its cursor**, a chunk a call. -/
theorem handsOut_repeatCall (hsize : 0 < size) {s : σ} (h : Drains next s rows out) (n : ℕ) :
    (repeatCall (Scan.call next size) n ⟨s, false⟩).HandsOut size rows out n := by
  have hholds : Scan.Holds next ⟨s, false⟩ rows out := Or.inl ⟨rfl, h⟩
  cases out with
  | ok _ =>
      obtain ⟨hchunks, hthrown⟩ := repeatCall_of_ok size hholds n
      refine ⟨?_, fun _ => ?_, fun e => ?_⟩
      · rw [hchunks]
        exact emits_chunks hsize n rows
      · rw [hchunks, length_chunks]
      · simp [hthrown]
  | error e =>
      obtain ⟨hchunks, hthrown⟩ := repeatCall_of_error hsize hholds n
      refine ⟨?_, fun hnone => ?_, fun e' => ?_⟩
      · rw [hchunks]
        exact emits_chunks hsize _ rows
      · rw [hthrown] at hnone
        split at hnone
        · rename_i hle
          rw [hchunks, length_chunks, Nat.min_eq_left hle]
        · cases hnone
      · rw [hthrown, ← Nat.not_le]
        split
        · rename_i hle
          simp [hle]
        · rename_i hnot
          simp [hnot]

end Scans

/-- Calls that correspond have runs that correspond. -/
theorem repeatCall_map {τ τ' : Type*} {call : τ → τ × Except ε (List ρ)}
    {call' : τ' → τ' × Except ε (List ρ)} (f : τ → τ')
    (h : ∀ t, call' (f t) = (f (call t).1, (call t).2)) (n : ℕ) (t : τ) :
    repeatCall call' n (f t) = ⟨f (repeatCall call n t).state, (repeatCall call n t).chunks,
      (repeatCall call n t).thrown⟩ := by
  induction n generalizing t with
  | zero => rfl
  | succ n ih =>
      rw [repeatCall, repeatCall, h]
      rcases hcall : call t with ⟨t', e | chunk⟩
      · rfl
      · simp only [ih]

/-! ## What calls keep -/

section Keeps

variable {τ : Type u} {α : Type*} {inv bad : τ → Prop}

/-- Calls keep an invariant; where they fail, they leave another property behind. -/
structure Keeps (inv bad : τ → Prop) (step : τ → τ × Except ε α) : Prop where
  ok : ∀ t t' a, inv t → step t = (t', .ok a) → inv t'
  error : ∀ t t' e, inv t → step t = (t', .error e) → bad t'

/-- A cursor whose rows can all be converted keeps what it kept. -/
theorem Keeps.handOn {inv bad : σ → Prop} {ρ' ε' : Type*} {next : Next σ ρ ε}
    (hnext : Keeps inv bad next) (raise : ε → ε') {convert : ρ → Except ε' ρ'} {f : ρ → ρ'}
    (hconvert : ∀ r, convert r = .ok (f r)) : Keeps inv bad (next.handOn raise convert) := by
  refine ⟨fun t t' a ht h => ?_, fun t t' e ht h => ?_⟩
  · rw [Next.handOn] at h
    rcases hstep : next t with ⟨s', e | _ | r⟩
    · simp only [hstep] at h
      cases h
    · simp only [hstep] at h
      cases h
      exact hnext.ok t t' none ht hstep
    · simp only [hstep, hconvert] at h
      cases h
      exact hnext.ok t t' (some r) ht hstep
  · rw [Next.handOn] at h
    rcases hstep : next t with ⟨s', e' | _ | r⟩
    · simp only [hstep] at h
      cases h
      exact hnext.error t t' e' ht hstep
    · simp only [hstep] at h
      cases h
    · simp only [hstep, hconvert] at h
      cases h

theorem keeps_fill {inv bad : σ → Prop} {next : Next σ ρ ε} (hnext : Keeps inv bad next)
    (size : ℕ) : Keeps inv bad (fill next size) := by
  induction size with
  | zero =>
      refine ⟨fun t t' a ht h => ?_, fun t t' e ht h => ?_⟩
      · cases h
        exact ht
      · cases h
  | succ size ih =>
      refine ⟨fun t t' a ht h => ?_, fun t t' e ht h => ?_⟩
      · rw [fill] at h
        rcases hstep : next t with ⟨s', e | _ | r⟩
        · simp only [hstep] at h
          cases h
        · simp only [hstep] at h
          cases h
          exact hnext.ok t t' none ht hstep
        · have hs' : inv s' := hnext.ok t s' (some r) ht hstep
          rcases hfill : fill next size s' with ⟨s'', e | filled⟩
          · simp only [hstep, hfill] at h
            cases h
          · simp only [hstep, hfill] at h
            cases h
            exact ih.ok s' t' filled hs' hfill
      · rw [fill] at h
        rcases hstep : next t with ⟨s', e' | _ | r⟩
        · simp only [hstep] at h
          cases h
          exact hnext.error t t' e ht hstep
        · simp only [hstep] at h
          cases h
        · have hs' : inv s' := hnext.ok t s' (some r) ht hstep
          rcases hfill : fill next size s' with ⟨s'', e' | filled⟩
          · simp only [hstep, hfill] at h
            cases h
            exact ih.error s' t' e hs' hfill
          · simp only [hstep, hfill] at h
            cases h

theorem keeps_call {inv bad : σ → Prop} {next : Next σ ρ ε} (hnext : Keeps inv bad next)
    (size : ℕ) : Keeps (fun st => inv st.cursor) (fun st => bad st.cursor)
      (Scan.call next size) := by
  have hfill := keeps_fill hnext size
  refine ⟨fun t t' a ht h => ?_, fun t t' e ht h => ?_⟩
  · rw [Scan.call] at h
    split at h
    · cases h
      exact ht
    · split at h
      · cases h
      · rename_i s rows finished hfilled
        cases h
        exact hfill.ok _ _ _ ht hfilled
  · rw [Scan.call] at h
    split at h
    · cases h
    · split at h
      · rename_i s e' hfilled
        cases h
        exact hfill.error _ _ _ ht hfilled
      · cases h

/-- **What every call keeps, the calls up to a failure keep.** -/
theorem keeps_repeatCall {call : τ → τ × Except ε (List ρ)} (hcall : Keeps inv bad call) {t : τ}
    (ht : inv t) (n : ℕ) : inv (repeatCall call n t).state ∨ bad (repeatCall call n t).state := by
  induction n generalizing t with
  | zero => exact Or.inl ht
  | succ n ih =>
      rcases hstep : call t with ⟨t', e | chunk⟩
      · rw [repeatCall, hstep]
        exact Or.inr (hcall.error t t' e ht hstep)
      · rw [repeatCall, hstep]
        exact ih (hcall.ok t t' chunk ht hstep)

end Keeps

end Cursor
