import Mathlib.Tactic.Common

/-! Finite runs of a labelled step relation. An invariant may depend on the
labels passed so far, which is how a history of calls enters a safety proof. -/

namespace HaloOS.Lib

variable {σ ε : Type}

/-- A run from the first state to the last, labelled by its steps in order. -/
inductive Trace (step : σ → ε → σ → Prop) (s : σ) : List ε → σ → Prop where
  | nil : Trace step s [] s
  | snoc {t u : σ} {past : List ε} {e : ε} (earlier : Trace step s past t)
      (last : step t e u) : Trace step s (past ++ [e]) u

variable {step : σ → ε → σ → Prop}

/-- A property of history and state that every step preserves holds at the end. -/
theorem Trace.invariant {s t : σ} {past : List ε} (run : Trace step s past t)
    (Inv : List ε → σ → Prop) (start : Inv [] s)
    (preserved : ∀ past t e u, Inv past t → step t e u → Inv (past ++ [e]) u) :
    Inv past t := by
  induction run with
  | nil => exact start
  | snoc earlier last ih => exact preserved _ _ _ _ ih last

theorem Trace.single {s t : σ} {e : ε} (last : step s e t) : Trace step s [e] t := by
  simpa using Trace.snoc Trace.nil last

theorem Trace.append {s t u : σ} {first second : List ε}
    (one : Trace step s first t) (two : Trace step t second u) :
    Trace step s (first ++ second) u := by
  induction two with
  | nil => simpa using one
  | snoc earlier last ih => simpa using Trace.snoc ih last

theorem Trace.mono {other : σ → ε → σ → Prop} {s t : σ} {past : List ε}
    (run : Trace step s past t) (weaker : ∀ s e t, step s e t → other s e t) :
    Trace other s past t := by
  induction run with
  | nil => exact .nil
  | snoc earlier last ih => exact .snoc ih (weaker _ _ _ last)

/-- The same run with other labels. -/
theorem Trace.map {ε' : Type} {other : σ → ε' → σ → Prop} {s t : σ} {past : List ε} (f : ε → ε')
    (run : Trace step s past t) (lift : ∀ s e t, step s e t → other s (f e) t) :
    Trace other s (past.map f) t := by
  induction run with
  | nil => exact .nil
  | snoc earlier last ih =>
    rw [List.map_append]
    exact .snoc ih (lift _ _ _ last)

/-- Every labelled step of a run is taken from a state the run reaches. -/
theorem Trace.split {s u : σ} {whole : List ε} (run : Trace step s whole u) :
    ∀ {past : List ε} {e : ε} {rest : List ε}, whole = past ++ e :: rest →
      ∃ t t', Trace step s past t ∧ step t e t' ∧ Trace step t' rest u := by
  induction run with
  | nil =>
    intro past e rest same
    simp at same
  | @snoc t u init last earlier taken ih =>
    intro past e rest same
    rcases List.eq_nil_or_concat rest with rfl | ⟨front, final, rfl⟩
    · have parts : init ++ [last] = past ++ [e] := same
      obtain ⟨rfl, single⟩ := List.append_inj' parts rfl
      obtain rfl : last = e := by simpa using single
      exact ⟨t, u, earlier, taken, .nil⟩
    · have parts : init ++ [last] = (past ++ e :: front) ++ [final] := by
        simpa using same
      obtain ⟨front', single⟩ := List.append_inj' parts rfl
      obtain rfl : last = final := by simpa using single
      obtain ⟨before, after, reached, stepped, rest⟩ := ih front'
      exact ⟨before, after, reached, stepped, by simpa using rest.snoc taken⟩

theorem Trace.nil_eq {s t : σ} (run : Trace step s [] t) : s = t := by
  generalize empty : ([] : List ε) = none at run
  cases run with
  | nil => rfl
  | snoc _ _ => simp at empty

theorem Trace.of_single {s t : σ} {e : ε} (run : Trace step s [e] t) : step s e t := by
  obtain ⟨a, b, before, taken, after⟩ := @Trace.split _ _ _ _ _ _ run [] e [] rfl
  rw [before.nil_eq, ← after.nil_eq]
  exact taken

/-- The states a run can reach, whatever its labels. -/
def Reachable (step : σ → ε → σ → Prop) (start s : σ) : Prop :=
  ∃ past, Trace step start past s

theorem Reachable.refl (s : σ) : Reachable step s s := ⟨[], .nil⟩

theorem Reachable.tail {start s t : σ} {e : ε} (reached : Reachable step start s)
    (taken : step s e t) : Reachable step start t := by
  obtain ⟨past, run⟩ := reached
  exact ⟨past ++ [e], run.snoc taken⟩

theorem Reachable.trans {s t u : σ} (first : Reachable step s t)
    (second : Reachable step t u) : Reachable step s u := by
  obtain ⟨one, run⟩ := first
  obtain ⟨two, rest⟩ := second
  exact ⟨one ++ two, run.append rest⟩

/-- An invariant of the start that each step keeps holds in every reachable state. -/
theorem Reachable.invariant {start s : σ} (reached : Reachable step start s)
    (Inv : σ → Prop) (initial : Inv start)
    (preserved : ∀ s e t, Inv s → step s e t → Inv t) : Inv s := by
  obtain ⟨past, run⟩ := reached
  exact run.invariant (fun _ s => Inv s) initial
    (fun _ s e t holds taken => preserved s e t holds taken)

/-- The states a run passes, the last one first. -/
inductive Path (step : σ → ε → σ → Prop) (start : σ) : List σ → Prop where
  | nil : Path step start [start]
  | snoc {s t : σ} {past : List σ} {e : ε} (earlier : Path step start (s :: past))
      (last : step s e t) : Path step start (t :: s :: past)

/-- A property of the states passed that every step preserves holds at the end. -/
theorem Path.invariant {start : σ} {states : List σ} (path : Path step start states)
    (Inv : List σ → Prop) (initial : Inv [start])
    (preserved : ∀ s past e t, Inv (s :: past) → step s e t → Inv (t :: s :: past)) :
    Inv states := by
  induction path with
  | nil => exact initial
  | snoc earlier last ih => exact preserved _ _ _ _ ih last

/-- If from every state short of the goal some step lowers a rank, the goal can be
reached. The rank may look at a ghost that the invariant ties to the state. -/
theorem exists_trace_of_rank {ι : Type} (Inv : σ → ι → Prop) (rank : σ → ι → ℕ)
    (Goal : σ → Prop)
    (lower : ∀ s i, Inv s i → ¬ Goal s → ∃ e t j, step s e t ∧ Inv t j ∧ rank t j < rank s i)
    {s : σ} {i : ι} (holds : Inv s i) : ∃ later t, Trace step s later t ∧ Goal t := by
  induction bound : rank s i using Nat.strongRecOn generalizing s i with
  | ind m ih =>
    by_cases reached : Goal s
    · exact ⟨[], s, .nil, reached⟩
    · obtain ⟨e, t, j, taken, kept, less⟩ := lower s i holds reached
      obtain ⟨later, u, run, goal⟩ := ih (rank t j) (bound ▸ less) kept rfl
      exact ⟨[e] ++ later, u, (Trace.single taken).append run, goal⟩

end HaloOS.Lib
