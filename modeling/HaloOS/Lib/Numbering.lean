import Mathlib.Data.List.Basic
import Mathlib.Tactic.Common

/-! Numbers handed out one after the other: what is on the list carries `base` plus its
place in it, anything else carries 0. -/

namespace HaloOS.Lib

variable {α : Type} [DecidableEq α] {base : ℕ} {l : List α} {a b : α}

def number (base : ℕ) (l : List α) (a : α) : ℕ := if a ∈ l then base + l.idxOf a else 0

theorem number_of_mem (member : a ∈ l) : number base l a = base + l.idxOf a := if_pos member

theorem number_of_not_mem (absent : a ∉ l) : number base l a = 0 := if_neg absent

theorem number_lt (member : a ∈ l) : number base l a < base + l.length := by
  rw [number_of_mem member]
  have inside := List.idxOf_lt_length_of_mem member
  omega

theorem le_number (member : a ∈ l) : base ≤ number base l a := by
  rw [number_of_mem member]
  omega

theorem number_eq_zero (positive : 0 < base) : number base l a = 0 ↔ a ∉ l := by
  by_cases member : a ∈ l
  · have bound : base ≤ number base l a := le_number member
    exact iff_of_false (by omega) (not_not.mpr member)
  · exact iff_of_true (number_of_not_mem member) member

/-- Two things on the list never carry the same number. -/
theorem number_inj (one : a ∈ l) (two : b ∈ l) (same : number base l a = number base l b) :
    a = b := by
  rw [number_of_mem one, number_of_mem two] at same
  exact (List.idxOf_inj one).mp (by omega)

/-- The next number goes to what is added. -/
theorem number_append_self (absent : a ∉ l) : number base (l ++ [a]) a = base + l.length := by
  rw [number_of_mem (by simp), List.idxOf_append_of_notMem absent]
  simp

theorem number_append_of_ne (other : b ≠ a) : number base (l ++ [a]) b = number base l b := by
  by_cases member : b ∈ l
  · rw [number_of_mem member, number_of_mem (by simp [member]), List.idxOf_append_of_mem member]
  · rw [number_of_not_mem member, number_of_not_mem (by simp [member, other])]

/-- Every number in range is carried by something. -/
theorem exists_number (nodup : l.Nodup) {n : ℕ} (low : base ≤ n) (high : n < base + l.length) :
    ∃ a ∈ l, number base l a = n := by
  have inside : n - base < l.length := by omega
  refine ⟨l[n - base], List.getElem_mem inside, ?_⟩
  rw [number_of_mem (List.getElem_mem inside), nodup.idxOf_getElem]
  omega

end HaloOS.Lib
