import Mathlib.Logic.Function.Basic
import Mathlib.Tactic.Common

/-! Copying inside of one memory, cell after cell, when what is read may already be overwritten. -/

namespace HaloOS.Lib

variable {α β : Type} [DecidableEq α]

/-- The cells are copied in the order of the list; a pair names the target and its source. -/
def copyCells : List (α × α) → (α → β) → α → β
  | [], mem => mem
  | cell :: cells, mem => copyCells cells (Function.update mem cell.1 (mem cell.2))

/-- No cell is written twice, and none is read after it has been written. -/
def InOrder (cells : List (α × α)) : Prop :=
  cells.Pairwise fun before after => after.1 ≠ before.1 ∧ after.2 ≠ before.1

variable {cells : List (α × α)} {mem : α → β}

theorem copyCells_elsewhere {a : α} (outside : ∀ cell ∈ cells, a ≠ cell.1) :
    copyCells cells mem a = mem a := by
  induction cells generalizing mem with
  | nil => rfl
  | cons cell cells ih =>
    rw [copyCells, ih fun later member => outside later (List.mem_cons_of_mem cell member)]
    exact Function.update_of_ne (outside cell List.mem_cons_self) _ _

/-- Every target ends up with what its source held before the first copy. -/
theorem copyCells_target (order : InOrder cells) :
    ∀ cell ∈ cells, copyCells cells mem cell.1 = mem cell.2 := by
  induction cells generalizing mem with
  | nil => exact fun cell member => absurd member List.not_mem_nil
  | cons first cells ih =>
    obtain ⟨apart, rest⟩ := List.pairwise_cons.mp order
    intro cell member
    rw [copyCells]
    rcases List.mem_cons.mp member with rfl | later
    · rw [copyCells_elsewhere fun other inside => Ne.symm (apart other inside).1]
      exact Function.update_self _ _ _
    · rw [ih rest cell later]
      exact Function.update_of_ne (apart cell later).2 _ _

end HaloOS.Lib
