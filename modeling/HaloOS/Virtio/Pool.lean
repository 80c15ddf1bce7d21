import HaloOS.Virtio.Model
import Mathlib.Data.Finset.Card
import Mathlib.Data.Fintype.Card

/-! The descriptor pool: what `alloc3_desc` and `free_chain` do to the free map and
to the descriptor links, over every state of the tables. -/

namespace HaloOS.Virtio

open Lib

/-- The three descriptors of a request. -/
def Chain.toList (c : Chain) : List (Fin NUM) := [c.head, c.data, c.status]

@[simp] theorem Chain.mem_toList {c : Chain} {i : Fin NUM} :
    i ∈ c.toList ↔ i = c.head ∨ i = c.data ∨ i = c.status := by
  simp [Chain.toList]

namespace Disk

/-- The descriptors lead from the head over the data to the status and end there. -/
structure Linked (d : Disk) (c : Chain) : Prop where
  head : (d.desc c.head).flags &&& VRING_DESC_F_NEXT ≠ 0
  toData : (d.desc c.head).next = c.data
  data : (d.desc c.data).flags &&& VRING_DESC_F_NEXT ≠ 0
  toStatus : (d.desc c.data).next = c.status
  status : (d.desc c.status).flags &&& VRING_DESC_F_NEXT = 0

theorem allocDesc_some {d d' : Disk} {i : Fin NUM} (found : d.allocDesc = some (i, d')) :
    d.free i = true ∧ d' = { d with free := Function.update d.free i false } := by
  unfold allocDesc at found
  cases first : (List.finRange NUM).find? d.free with
  | none => simp [first] at found
  | some j =>
    simp only [first, Option.some.injEq, Prod.mk.injEq] at found
    obtain ⟨rfl, rfl⟩ := found
    exact ⟨List.find?_some first, rfl⟩

theorem allocDesc_none {d : Disk} (failed : d.allocDesc = none) (i : Fin NUM) :
    d.free i = false := by
  unfold allocDesc at failed
  cases first : (List.finRange NUM).find? d.free with
  | none =>
    have absent := List.find?_eq_none.mp first i (List.mem_finRange i)
    simpa using absent
  | some j => simp [first] at failed

/-- A successful `alloc3_desc` takes three distinct free descriptors. -/
theorem alloc3Desc_some {d : Disk} {c : Chain} (found : d.alloc3Desc.1 = some c) :
    c.toList.Nodup ∧ (∀ i ∈ c.toList, d.free i = true) ∧
      d.alloc3Desc.2 = { d with free := fun i => d.free i && !(c.toList.contains i) } := by
  unfold alloc3Desc at found ⊢
  cases one : d.allocDesc with
  | none => simp [one] at found
  | some first =>
    obtain ⟨head, d₁⟩ := first
    simp only [one] at found ⊢
    cases two : d₁.allocDesc with
    | none => simp [two] at found
    | some second =>
      obtain ⟨data, d₂⟩ := second
      simp only [two] at found ⊢
      cases three : d₂.allocDesc with
      | none => simp [three] at found
      | some third =>
        obtain ⟨status, d₃⟩ := third
        simp only [three, Option.some.injEq] at found ⊢
        obtain ⟨freeHead, rfl⟩ := allocDesc_some one
        obtain ⟨freeData, rfl⟩ := allocDesc_some two
        obtain ⟨freeStatus, rfl⟩ := allocDesc_some three
        subst found
        dsimp only at freeData freeStatus
        have dataHead : data ≠ head := by rintro rfl; simp at freeData
        have statusData : status ≠ data := by rintro rfl; simp at freeStatus
        have statusHead : status ≠ head := by
          rintro rfl
          rw [Function.update_of_ne statusData] at freeStatus
          simp at freeStatus
        rw [Function.update_of_ne dataHead] at freeData
        rw [Function.update_of_ne statusData, Function.update_of_ne statusHead] at freeStatus
        refine ⟨?_, ?_, ?_⟩
        · simp [Chain.toList, dataHead.symm, statusData.symm, statusHead.symm]
        · simp only [Chain.mem_toList]
          rintro i (rfl | rfl | rfl) <;> assumption
        · congr 1
          funext i
          by_cases isStatus : i = status
          · subst isStatus
            simp [Chain.toList]
          by_cases isData : i = data
          · subst isData
            simp [Chain.toList, isStatus]
          by_cases isHead : i = head
          · subst isHead
            simp [Chain.toList, isStatus, isData]
          · simp [Chain.toList, isStatus, isData, isHead]

/-- Giving back what was just taken restores the free map and touches no descriptor
in use. -/
private theorem freeDesc_taken {d : Disk} {i : Fin NUM} (taken : d.free i = false) :
    freeDesc i d = { d with
      desc := Function.update d.desc i {}, free := Function.update d.free i true } := by
  simp [freeDesc, taken]

/-- A failing `alloc3_desc` leaves the free descriptors as they were, and changes
nothing but descriptors that are free. -/
theorem alloc3Desc_none {d : Disk} (failed : d.alloc3Desc.1 = none) :
    ∃ desc, d.alloc3Desc.2 = { d with desc } ∧
      ∀ i, d.free i = false → desc i = d.desc i := by
  unfold alloc3Desc at failed ⊢
  cases one : d.allocDesc with
  | none => exact ⟨d.desc, rfl, fun _ _ => rfl⟩
  | some first =>
    obtain ⟨head, d₁⟩ := first
    obtain ⟨freeHead, rfl⟩ := allocDesc_some one
    simp only [one] at failed ⊢
    have headTaken : (Function.update d.free head false) head = false := by simp
    cases two : allocDesc { d with free := Function.update d.free head false } with
    | none =>
      refine ⟨Function.update d.desc head {}, ?_, ?_⟩
      · simp only
        rw [freeDesc_taken headTaken]
        congr 1
        simp [← freeHead]
      · intro i inUse
        have other : i ≠ head := by rintro rfl; simp [freeHead] at inUse
        simp [other]
    | some second =>
      obtain ⟨data, d₂⟩ := second
      obtain ⟨freeData, rfl⟩ := allocDesc_some two
      simp only [two] at failed ⊢
      have apart : data ≠ head := by rintro rfl; simp at freeData
      have freeData' : d.free data = true := by simpa [apart] using freeData
      cases three : allocDesc { d with
          free := Function.update (Function.update d.free head false) data false } with
      | some third => simp [three] at failed
      | none =>
        refine ⟨Function.update (Function.update d.desc head {}) data {}, ?_, ?_⟩
        · simp only
          rw [freeDesc_taken (i := head) (by simp [apart.symm]),
            freeDesc_taken (i := data) (by simp [apart])]
          congr 1
          funext i
          by_cases isData : i = data
          · subst isData
            simp [freeData']
          by_cases isHead : i = head
          · subst isHead
            simp [apart.symm, freeHead]
          · simp [isData, isHead]
        · intro i inUse
          have notData : i ≠ data := by rintro rfl; simp [freeData'] at inUse
          have notHead : i ≠ head := by rintro rfl; simp [freeHead] at inUse
          simp [notData, notHead]

theorem alloc3Desc_none_free {d : Disk} (failed : d.alloc3Desc.1 = none) :
    d.alloc3Desc.2.free = d.free := by
  obtain ⟨desc, same, _⟩ := alloc3Desc_none failed
  rw [same]

/-- The free descriptors. -/
def freeSet (d : Disk) : Finset (Fin NUM) := Finset.univ.filter fun i => d.free i = true

/-- `alloc3_desc` succeeds exactly when three descriptors are free. -/
theorem alloc3Desc_isSome {d : Disk} :
    d.alloc3Desc.1.isSome = true ↔ 3 ≤ d.freeSet.card := by
  constructor
  · intro success
    obtain ⟨c, found⟩ := Option.isSome_iff_exists.mp success
    obtain ⟨nodup, free, _⟩ := alloc3Desc_some found
    have subset : c.toList.toFinset ⊆ d.freeSet := by
      intro i member
      simp only [freeSet, Finset.mem_filter, Finset.mem_univ, true_and]
      exact free i (List.mem_toFinset.mp member)
    have size := Finset.card_le_card subset
    rwa [List.toFinset_card_of_nodup nodup] at size
  · intro enough
    have step : ∀ (e : Disk) (k : ℕ), k + 1 ≤ e.freeSet.card →
        ∃ i e', e.allocDesc = some (i, e') ∧ k ≤ e'.freeSet.card := by
      intro e k room
      cases found : e.allocDesc with
      | none =>
        have empty : e.freeSet = ∅ := by
          apply Finset.eq_empty_of_forall_notMem
          intro i member
          simp [freeSet, allocDesc_none found i] at member
        rw [empty] at room
        simp at room
      | some pair =>
        obtain ⟨i, e'⟩ := pair
        obtain ⟨_, rfl⟩ := allocDesc_some found
        refine ⟨i, _, rfl, ?_⟩
        have erased : e.freeSet.erase i ⊆
            freeSet { e with free := Function.update e.free i false } := by
          intro j member
          obtain ⟨other, free⟩ := Finset.mem_erase.mp member
          simpa [freeSet, other] using free
        have size := Finset.card_le_card erased
        have shrink := Finset.pred_card_le_card_erase (s := e.freeSet) (a := i)
        omega
    obtain ⟨i, d₁, one, room₁⟩ := step d 2 enough
    obtain ⟨j, d₂, two, room₂⟩ := step d₁ 1 room₁
    obtain ⟨k, d₃, three, _⟩ := step d₂ 0 room₂
    simp [alloc3Desc, one, two, three]

/-- `free_chain` on a linked chain frees exactly its three descriptors. -/
theorem freeChain_linked {d : Disk} {c : Chain} (linked : d.Linked c)
    (nodup : c.toList.Nodup) (taken : ∀ i ∈ c.toList, d.free i = false) :
    ∃ desc, freeChain NUM c.head d =
        { d with desc, free := fun i => d.free i || c.toList.contains i } ∧
      ∀ i, i ∉ c.toList → desc i = d.desc i := by
  have headData : c.head ≠ c.data := by
    rintro same
    simp [Chain.toList, same] at nodup
  have headStatus : c.head ≠ c.status := by
    rintro same
    simp [Chain.toList, same] at nodup
  have dataStatus : c.data ≠ c.status := by
    rintro same
    simp [Chain.toList, same] at nodup
  have takenHead := taken c.head (by simp)
  have takenData := taken c.data (by simp)
  have takenStatus := taken c.status (by simp)
  refine ⟨Function.update (Function.update (Function.update d.desc c.head {}) c.data {})
    c.status {}, ?_, ?_⟩
  · have unrolled : freeChain NUM c.head d =
        freeDesc c.status (freeDesc c.data (freeDesc c.head d)) := by
      change freeChain 8 c.head d = _
      rw [freeChain, if_pos linked.head, linked.toData, freeDesc_taken takenHead]
      rw [freeChain, if_pos (by simpa [headData.symm] using linked.data)]
      simp only [Function.update_of_ne headData.symm, linked.toStatus]
      rw [freeDesc_taken (by simpa [headData.symm] using takenData)]
      rw [freeChain, if_neg (by simpa [headStatus.symm, dataStatus.symm] using linked.status)]
    rw [unrolled, freeDesc_taken takenHead,
      freeDesc_taken (i := c.data) (by simpa [headData.symm] using takenData),
      freeDesc_taken (i := c.status)
        (by simpa [headStatus.symm, dataStatus.symm] using takenStatus)]
    congr 1
    funext i
    by_cases isStatus : i = c.status
    · simp [isStatus, Chain.toList]
    by_cases isData : i = c.data
    · simp [isData, Chain.toList, dataStatus]
    by_cases isHead : i = c.head
    · simp [isHead, Chain.toList, headData, headStatus]
    · simp [isStatus, isData, isHead, Chain.toList]
  · intro i outside
    simp only [Chain.mem_toList, not_or] at outside
    simp [outside]

/-- The stores of `virt_disk_rw` link the three descriptors. -/
theorem linked_fill {d : Disk} {c : Chain} (nodup : c.toList.Nodup) (b : ℕ) (write : Bool) :
    (d.fill b write c).Linked c := by
  have headData : c.head ≠ c.data := by
    rintro same
    simp [Chain.toList, same] at nodup
  have headStatus : c.head ≠ c.status := by
    rintro same
    simp [Chain.toList, same] at nodup
  have dataStatus : c.data ≠ c.status := by
    rintro same
    simp [Chain.toList, same] at nodup
  constructor
  · simp [fill, setDesc, Disk.setInfo, headData, headStatus, VRING_DESC_F_NEXT]
  · simp [fill, setDesc, Disk.setInfo, headData, headStatus]
  · cases write <;> simp [fill, setDesc, Disk.setInfo, dataStatus, VRING_DESC_F_NEXT, VRING_DESC_F_WRITE]
  · simp [fill, setDesc, Disk.setInfo, dataStatus]
  · simp [fill, setDesc, Disk.setInfo, VRING_DESC_F_NEXT, VRING_DESC_F_WRITE]

theorem fill_desc_of_notMem {d : Disk} {c : Chain} {b : ℕ} {write : Bool} {i : Fin NUM}
    (outside : i ∉ c.toList) : (d.fill b write c).desc i = d.desc i := by
  simp only [Chain.mem_toList, not_or] at outside
  simp [fill, setDesc, Disk.setInfo, outside]

theorem fill_info_b (d : Disk) (c : Chain) (b : ℕ) (write : Bool) (i : Fin NUM) :
    ((d.fill b write c).info i).b = (d.info i).b := by
  by_cases head : i = c.head
  · subst head
    simp [fill, setDesc, Disk.setInfo]
  · simp [fill, setDesc, Disk.setInfo, head]

end Disk

end HaloOS.Virtio
