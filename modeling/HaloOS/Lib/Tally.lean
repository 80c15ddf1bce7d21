import Mathlib.Data.Fintype.BigOperators
import Mathlib.Data.Fintype.Card
import Mathlib.Tactic.Common
import Mathlib.Tactic.Ring

/-! Counting the slots that name an object, as a reference count should. -/

namespace HaloOS.Lib

variable {ι α : Type} [Fintype ι] [DecidableEq ι] [DecidableEq α] {slots : ι → Option α} {a : α}

/-- The number of slots that hold `a`. -/
def tally (slots : ι → Option α) (a : α) : ℕ :=
  (Finset.univ.filter fun i => slots i = some a).card

theorem tally_eq_zero : tally slots a = 0 ↔ ∀ i, slots i ≠ some a := by
  simp [tally, Finset.filter_eq_empty_iff]

/-- Slots of two kinds are counted apart. -/
theorem tally_sum {κ : Type} [Fintype κ] (slots : ι ⊕ κ → Option α) (a : α) :
    tally slots a = tally (slots ∘ Sum.inl) a + tally (slots ∘ Sum.inr) a := by
  simp only [tally, Finset.card_filter, Fintype.sum_sum_type, Function.comp_apply]

/-- Writing a slot gives up what it held and takes up what it holds now. -/
theorem tally_update (slots : ι → Option α) (i : ι) (new : Option α) (a : α) :
    (tally (Function.update slots i new) a : ℤ) =
      tally slots a - (if slots i = some a then 1 else 0) + if new = some a then 1 else 0 := by
  have others : (Finset.univ.filter fun j => Function.update slots i new j = some a).erase i =
      (Finset.univ.filter fun j => slots j = some a).erase i := by
    ext j
    by_cases same : j = i
    · simp [same]
    · simp [same]
  have part : ∀ s : Finset ι, (s.card : ℤ) = (s.erase i).card + if i ∈ s then 1 else 0 := by
    intro s
    by_cases member : i ∈ s
    · rw [← Finset.card_erase_add_one member, if_pos member]
      push_cast
      ring
    · rw [Finset.erase_eq_of_notMem member, if_neg member, add_zero]
  unfold tally
  rw [part (Finset.univ.filter fun j => Function.update slots i new j = some a), others,
    part (Finset.univ.filter fun j => slots j = some a)]
  simp only [Finset.mem_filter, Finset.mem_univ, true_and, Function.update_self]
  ring

end HaloOS.Lib
