import Mathlib.Logic.Function.Basic
import Mathlib.Tactic.Common

/-! Lock tables. A table names at most one owner for each lock; it is sound when it
names exactly those who, by where they stand, hold the lock. -/

namespace HaloOS.Lib

variable {α ℓ : Type} {table : ℓ → Option α} {holds holds' : α → ℓ → Prop}

/-- The table names the holders. -/
def Owned (table : ℓ → Option α) (holds : α → ℓ → Prop) : Prop :=
  ∀ k p, table k = some p ↔ holds p k

theorem Owned.unique (owned : Owned table holds) {k : ℓ} {p q : α} (one : holds p k)
    (two : holds q k) : p = q := by
  have first := (owned k p).mpr one
  have second := (owned k q).mpr two
  simpa [first] using second

theorem Owned.free (owned : Owned table holds) {k : ℓ} (free : table k = none) (p : α) :
    ¬ holds p k := by
  intro held
  simp [(owned k p).mpr held] at free

theorem Owned.congr (owned : Owned table holds) (same : ∀ p k, holds' p k ↔ holds p k) :
    Owned table holds' := by
  intro k p
  rw [owned k p, same p k]

variable [DecidableEq ℓ]

/-- A free lock is acquired by `p`. -/
theorem Owned.acquire (owned : Owned table holds) {k : ℓ} {p : α} (free : table k = none)
    (taken : ∀ q m, holds' q m ↔ holds q m ∨ (q = p ∧ m = k)) :
    Owned (Function.update table k (some p)) holds' := by
  intro m q
  rw [taken]
  by_cases same : m = k
  · subst same
    simp [owned.free free, eq_comm]
  · rw [Function.update_of_ne same, owned m q]
    simp [same]

/-- A lock is released by its holder. -/
theorem Owned.release (owned : Owned table holds) {k : ℓ} {p : α} (held : holds p k)
    (left : ∀ q m, holds' q m ↔ holds q m ∧ ¬ (q = p ∧ m = k)) :
    Owned (Function.update table k none) holds' := by
  intro m q
  rw [left]
  by_cases same : m = k
  · subst same
    simpa using fun other => owned.unique other held
  · rw [Function.update_of_ne same, owned m q]
    simp [same]

end HaloOS.Lib
