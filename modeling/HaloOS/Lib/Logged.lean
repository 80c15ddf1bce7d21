import HaloOS.Lib.Exec

/-! Computations that note what they do. The notes are an addition to the state: a logged
computation without its notes is a plain one. -/

namespace HaloOS.Lib

variable {ε σ ι α β : Type}

/-- A computation over `σ` that also keeps a list of notes. -/
abbrev Logged (ε σ ι α : Type) := Exec ε (σ × List ι) α

/-- Run a computation that makes no notes. -/
def plain (m : Exec ε σ α) : Logged ε σ ι α := zoom Prod.fst (fun s t => (s, t.2)) m

def note (i : ι) : Logged ε σ ι Unit := update fun t => (t.1, i :: t.2)

/-- Without its notes the computation is `m`. -/
def Erases (t : Logged ε σ ι α) (m : Exec ε σ α) : Prop :=
  ∀ s log, (t (s, log)).map (fun result => (result.1, result.2.1)) = m s

namespace Erases

variable {t : Logged ε σ ι α} {m : Exec ε σ α}

theorem bind {f : α → Logged ε σ ι β} {g : α → Exec ε σ β} (first : Erases t m)
    (next : ∀ a, Erases (f a) (g a)) : Erases (t >>= f) (m >>= g) := by
  intro s log
  rw [bind_run, bind_run, ← first s log]
  cases t (s, log) with
  | error e => rfl
  | ok result => exact next result.1 result.2.1 result.2.2

theorem pure (a : α) : Erases (pure a : Logged ε σ ι α) (pure a) := fun _ _ => rfl

theorem throw (e : ε) : Erases (throw e : Logged ε σ ι α) (throw e) := fun _ _ => rfl

theorem plain (m : Exec ε σ α) : Erases (plain m : Logged ε σ ι α) m := by
  intro s log
  unfold Lib.plain zoom
  cases m s <;> rfl

theorem stopIf (c : Prop) [Decidable c] (e : ε) :
    Erases (stopIf c e : Logged ε σ ι Unit) (stopIf c e) := by
  intro s log
  rw [stopIf_run, stopIf_run]
  by_cases holds : c <;> simp [holds, Except.map]

/-- A note leaves no trace once the notes are gone. -/
theorem note (i : ι) (rest : Erases t m) : Erases (note i >>= fun _ => t) m :=
  fun s log => rest s (i :: log)

/-- A logged computation returns exactly when the plain one does. -/
theorem ok (erases : Erases t m) {s s' : σ} {log : List ι} {a : α} (returned : m s = .ok (a, s')) :
    ∃ log', t (s, log) = .ok (a, s', log') := by
  have same := erases s log
  rw [returned] at same
  cases result : t (s, log) with
  | error e => simp [result, Except.map] at same
  | ok triple =>
    obtain ⟨b, s₁, log'⟩ := triple
    simp only [result, Except.map, Except.ok.injEq, Prod.mk.injEq] at same
    obtain ⟨rfl, rfl⟩ := same
    exact ⟨log', rfl⟩

theorem error (erases : Erases t m) {s : σ} {log : List ι} {e : ε} (stopped : m s = .error e) :
    t (s, log) = .error e := by
  have same := erases s log
  rw [stopped] at same
  cases result : t (s, log) with
  | error e' => simpa [result, Except.map] using same
  | ok triple => simp [result, Except.map] at same

end Erases

end HaloOS.Lib
