import Mathlib.Logic.Function.Basic
import Mathlib.Tactic.Common

/-! Computations that carry a state and may stop early, with the rules of pre-
and postconditions used for them. A specification names what holds when the
computation returns and what may be said about the reason when it stops. -/

namespace HaloOS.Lib

variable {ε σ τ α β : Type}

/-- A computation over `σ` that returns a value or stops with a reason in `ε`. -/
abbrev Exec (ε σ α : Type) := StateT σ (Except ε) α

/-- Run from `s`, the computation returns in `Q` or stops in `E`. -/
def Sat (m : Exec ε σ α) (s : σ) (E : ε → Prop) (Q : α → σ → Prop) : Prop :=
  match m s with
  | .ok (a, t) => Q a t
  | .error e => E e

/-- The reason is irrelevant: only runs that return are specified. -/
def anyStop : ε → Prop := fun _ => True

/-- Stop with `e` when `c` holds. -/
def stopIf (c : Prop) [Decidable c] (e : ε) : Exec ε σ Unit :=
  if c then throw e else pure ()

/-- Run `m` only when `c` holds. -/
def onlyIf (c : Prop) [Decidable c] (m : Exec ε σ Unit) : Exec ε σ Unit :=
  if c then m else pure ()

/-- Read a part of the state. -/
def gets (f : σ → α) : Exec ε σ α := fun s => .ok (f s, s)

/-- Change the state. -/
def update (f : σ → σ) : Exec ε σ Unit := fun s => .ok ((), f s)

@[simp] theorem pure_run (a : α) (s : σ) :
    (pure a : Exec ε σ α) s = .ok (a, s) := rfl

@[simp] theorem throw_run (e : ε) (s : σ) :
    (throw e : Exec ε σ α) s = .error e := rfl

@[simp] theorem gets_run (f : σ → α) (s : σ) :
    (gets f : Exec ε σ α) s = .ok (f s, s) := rfl

@[simp] theorem update_run (f : σ → σ) (s : σ) :
    (update f : Exec ε σ Unit) s = .ok ((), f s) := rfl

theorem bind_run (m : Exec ε σ α) (f : α → Exec ε σ β) (s : σ) :
    (m >>= f) s = match m s with
      | .ok (a, t) => f a t
      | .error e => .error e := by
  change Except.bind (m s) _ = _
  cases m s <;> rfl

/-- A sequence returns exactly when both of its parts do. -/
theorem bind_ok {m : Exec ε σ α} {f : α → Exec ε σ β} {s u : σ} {b : β} :
    (m >>= f) s = .ok (b, u) ↔ ∃ a t, m s = .ok (a, t) ∧ f a t = .ok (b, u) := by
  rw [bind_run]
  cases m s with
  | error e => simp
  | ok result =>
    obtain ⟨a, t⟩ := result
    simp only [Except.ok.injEq, Prod.mk.injEq]
    exact ⟨fun rest => ⟨a, t, ⟨rfl, rfl⟩, rest⟩,
      fun ⟨_, _, ⟨rfl, rfl⟩, rest⟩ => rest⟩

@[simp] theorem gets_ok {f : σ → α} {b : α} {s t : σ} :
    (gets f : Exec ε σ α) s = .ok (b, t) ↔ f s = b ∧ s = t := by
  simp

@[simp] theorem update_ok {f : σ → σ} {u : Unit} {s t : σ} :
    (update f : Exec ε σ Unit) s = .ok (u, t) ↔ f s = t := by
  simp

@[simp] theorem pure_ok {a b : α} {s t : σ} :
    (pure a : Exec ε σ α) s = .ok (b, t) ↔ a = b ∧ s = t := by
  simp

@[simp] theorem throw_ok {e : ε} {b : α} {s t : σ} :
    (throw e : Exec ε σ α) s = .ok (b, t) ↔ False := by
  simp

@[simp] theorem stopIf_ok {c : Prop} [Decidable c] {e : ε} {u : Unit} {s t : σ} :
    (stopIf c e : Exec ε σ Unit) s = .ok (u, t) ↔ ¬ c ∧ s = t := by
  unfold stopIf
  by_cases holds : c <;> simp [holds]

theorem stopIf_run (c : Prop) [Decidable c] (e : ε) (s : σ) :
    (stopIf c e : Exec ε σ Unit) s = if c then .error e else .ok ((), s) := by
  unfold stopIf
  by_cases holds : c <;> simp [holds]

theorem onlyIf_run (c : Prop) [Decidable c] (m : Exec ε σ Unit) (s : σ) :
    onlyIf c m s = if c then m s else .ok ((), s) := by
  unfold onlyIf
  by_cases holds : c <;> simp [holds]

section Rules

variable {E E' : ε → Prop} {Q R : α → σ → Prop} {s : σ}

theorem Sat.ok {m : Exec ε σ α} {a : α} {t : σ} (spec : Sat m s E Q)
    (returned : m s = .ok (a, t)) : Q a t := by
  simpa [Sat, returned] using spec

theorem Sat.error {m : Exec ε σ α} {e : ε} (spec : Sat m s E Q)
    (stopped : m s = .error e) : E e := by
  simpa [Sat, stopped] using spec

/-- Without a reason to stop the computation returns. -/
theorem Sat.returns {m : Exec ε σ α} (spec : Sat m s (fun _ => False) Q) :
    ∃ a t, m s = .ok (a, t) ∧ Q a t := by
  cases result : m s with
  | error e => exact (spec.error result).elim
  | ok pair => exact ⟨pair.1, pair.2, rfl, spec.ok result⟩

/-- Only the runs that return have to be inspected. -/
theorem Sat.ofOk {m : Exec ε σ α}
    (spec : ∀ a t, m s = .ok (a, t) → Q a t) : Sat m s anyStop Q := by
  unfold Sat
  cases result : m s with
  | error e => trivial
  | ok pair => exact spec _ _ (by simpa using result)

theorem Sat.ofRun {m : Exec ε σ α} {a : α} {t : σ} (returned : m s = .ok (a, t))
    (post : Q a t) : Sat m s E Q := by
  unfold Sat
  rw [returned]
  exact post

theorem Sat.pure {a : α} (post : Q a s) : Sat (pure a : Exec ε σ α) s E Q := post

theorem Sat.throw {e : ε} (reason : E e) : Sat (throw e : Exec ε σ α) s E Q := reason

theorem Sat.gets {f : σ → α} (post : Q (f s) s) : Sat (gets f : Exec ε σ α) s E Q := post

theorem Sat.update {f : σ → σ} {Q : Unit → σ → Prop} (post : Q () (f s)) :
    Sat (update f : Exec ε σ Unit) s E Q := post

theorem Sat.stopIf {c : Prop} [Decidable c] {e : ε} {Q : Unit → σ → Prop}
    (reason : c → E e) (post : ¬ c → Q () s) :
    Sat (stopIf c e : Exec ε σ Unit) s E Q := by
  unfold Sat
  rw [stopIf_run]
  by_cases holds : c
  · simpa [holds] using reason holds
  · simpa [holds] using post holds

theorem Sat.onlyIf {c : Prop} [Decidable c] {m : Exec ε σ Unit} {Q : Unit → σ → Prop}
    (run : c → Sat m s E Q) (skip : ¬ c → Q () s) : Sat (onlyIf c m) s E Q := by
  unfold Lib.onlyIf
  by_cases holds : c
  · simpa [holds] using run holds
  · simp only [holds, ↓reduceIte]
    exact Sat.pure (skip holds)

theorem Sat.bind {m : Exec ε σ α} {f : α → Exec ε σ β} {Q' : β → σ → Prop}
    (first : Sat m s E Q) (next : ∀ a t, Q a t → Sat (f a) t E Q') :
    Sat (m >>= f) s E Q' := by
  unfold Sat at *
  rw [bind_run]
  cases result : m s with
  | error e => simpa [result] using first
  | ok pair => exact next _ _ (by simpa [result] using first)

theorem Sat.mono {m : Exec ε σ α} (spec : Sat m s E Q)
    (post : ∀ a t, Q a t → R a t) : Sat m s E R := by
  unfold Sat at *
  cases result : m s with
  | error e => simpa [result] using spec
  | ok pair => exact post _ _ (by simpa [result] using spec)

/-- The result of a run that returns. -/
theorem Sat.andRun {m : Exec ε σ α} (spec : Sat m s E Q) :
    Sat m s E fun a t => m s = .ok (a, t) ∧ Q a t := by
  unfold Sat at *
  cases result : m s with
  | error e => simpa [result] using spec
  | ok pair => exact ⟨rfl, by simpa [result] using spec⟩

theorem Sat.weaken {m : Exec ε σ α} (spec : Sat m s E Q)
    (reason : ∀ e, E e → E' e) : Sat m s E' Q := by
  unfold Sat at *
  cases result : m s with
  | error e => exact reason e (by simpa [result] using spec)
  | ok pair => simpa [result] using spec

theorem Sat.ite {c : Prop} [Decidable c] {m n : Exec ε σ α}
    (yes : c → Sat m s E Q) (no : ¬ c → Sat n s E Q) :
    Sat (if c then m else n) s E Q := by
  by_cases holds : c
  · simpa [holds] using yes holds
  · simpa [holds] using no holds

end Rules

/-- Run a computation on one component of a larger state. -/
def zoom (view : σ → τ) (put : τ → σ → σ) (m : Exec ε τ α) : Exec ε σ α :=
  fun s => match m (view s) with
    | .ok (a, t) => .ok (a, put t s)
    | .error e => .error e

theorem zoom_ok {view : σ → τ} {put : τ → σ → σ} {m : Exec ε τ α}
    {s u : σ} {a : α} :
    zoom view put m s = .ok (a, u) ↔ ∃ t, m (view s) = .ok (a, t) ∧ u = put t s := by
  unfold zoom
  cases m (view s) with
  | error e => simp
  | ok pair =>
    obtain ⟨b, t⟩ := pair
    simp only [Except.ok.injEq, Prod.mk.injEq]
    constructor
    · rintro ⟨rfl, rfl⟩
      exact ⟨t, ⟨rfl, rfl⟩, rfl⟩
    · rintro ⟨t', ⟨rfl, rfl⟩, rfl⟩
      exact ⟨rfl, rfl⟩

/-- What is known of the component carries over; the rest of the state stays. -/
theorem Sat.zoom {view : σ → τ} {put : τ → σ → σ} {m : Exec ε τ α} {s : σ}
    {E : ε → Prop} {Q : α → σ → Prop}
    (spec : Sat m (view s) E (fun a t => Q a (put t s))) :
    Sat (zoom view put m) s E Q := by
  unfold Sat at *
  unfold Lib.zoom
  cases result : m (view s) with
  | error e => simpa [result] using spec
  | ok pair => simpa [result] using spec

/-- Wherever it is run, the computation stops only for reasons in `E`. -/
def Stops (E : ε → Prop) (m : Exec ε σ α) : Prop := ∀ s, Sat m s E fun _ _ => True

section Stops

variable {E : ε → Prop}

theorem Stops.bind {m : Exec ε σ α} {f : α → Exec ε σ β} (first : Stops E m)
    (next : ∀ a, Stops E (f a)) : Stops E (m >>= f) :=
  fun s => Sat.bind (first s) fun a t _ => next a t

theorem Stops.pure (a : α) : Stops E (pure a : Exec ε σ α) := fun _ => trivial

theorem Stops.throw {e : ε} (reason : E e) : Stops E (throw e : Exec ε σ α) := fun _ => reason

theorem Stops.gets (f : σ → α) : Stops E (gets f : Exec ε σ α) := fun _ => trivial

theorem Stops.update (f : σ → σ) : Stops E (update f : Exec ε σ Unit) := fun _ => trivial

theorem Stops.stopIf {c : Prop} [Decidable c] {e : ε} (reason : E e) :
    Stops E (stopIf c e : Exec ε σ Unit) :=
  fun _ => Sat.stopIf (fun _ => reason) fun _ => trivial

theorem Stops.onlyIf {c : Prop} [Decidable c] {m : Exec ε σ Unit} (run : Stops E m) :
    Stops E (onlyIf c m) :=
  fun s => Sat.onlyIf (fun _ => run s) fun _ => trivial

theorem Stops.ite {c : Prop} [Decidable c] {m n : Exec ε σ α} (yes : Stops E m)
    (no : Stops E n) : Stops E (if c then m else n) :=
  fun s => Sat.ite (fun _ => yes s) fun _ => no s

theorem Stops.zoom {view : σ → τ} {put : τ → σ → σ} {m : Exec ε τ α} (run : Stops E m) :
    Stops E (zoom view put m) :=
  fun s => Sat.zoom (run (view s))

/-- A zoomed computation changes nothing but its component. -/
theorem Stops.sat_zoom {view : σ → τ} {put : τ → σ → σ} {m : Exec ε τ α} (run : Stops E m)
    (s : σ) : Sat (Lib.zoom view put m) s E fun _ u => ∃ t, u = put t s :=
  Sat.zoom ((run (view s)).mono fun _ t _ => ⟨t, rfl⟩)

end Stops

end HaloOS.Lib
