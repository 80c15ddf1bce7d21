import Mathlib.Data.List.Nodup
import Mathlib.Logic.Function.Iterate
import Mathlib.Tactic.Common

/-! Circular doubly linked lists with a head node, as pairs of pointer fields. `none`
stands for the head. The elements in `next` order are a list, and the stores that unlink
and push a node act on that list. -/

namespace HaloOS.Lib

variable {α : Type} {a b c : Option α} {x : α} {l l' : List α}

structure Dlist (α : Type) where
  next : Option α → Option α
  prev : Option α → Option α

namespace Dlist

variable {d d' : Dlist α}

/-- `next` leads from `a` through the elements of the list to `b`, and `prev` back. -/
def Segment (d : Dlist α) (a : Option α) : List α → Option α → Prop
  | [], b => d.next a = b ∧ d.prev b = a
  | x :: l, b => d.next a = some x ∧ d.prev (some x) = a ∧ d.Segment (some x) l b

/-- The elements between the head and itself. -/
def Ring (d : Dlist α) (l : List α) : Prop := d.Segment none l none

/-- The empty ring: the head points to itself. -/
def empty (α : Type) : Dlist α := ⟨fun _ => none, fun _ => none⟩

theorem ring_empty : (empty α).Ring [] := ⟨rfl, rfl⟩

theorem segment_append :
    d.Segment a (l ++ x :: l') b ↔ d.Segment a l (some x) ∧ d.Segment (some x) l' b := by
  induction l generalizing a with
  | nil => simp [Segment, and_assoc]
  | cons y l ih => simp [Segment, ih, and_assoc]

/-- A segment looks at `next` of its start and elements and at `prev` of its elements and
end. -/
theorem Segment.congr (segment : d.Segment a l b)
    (next : ∀ c ∈ a :: l.map some, d'.next c = d.next c)
    (prev : ∀ c ∈ l.map some ++ [b], d'.prev c = d.prev c) : d'.Segment a l b := by
  induction l generalizing a with
  | nil =>
    obtain ⟨forth, back⟩ := segment
    exact ⟨(next a (by simp)).trans forth, (prev b (by simp)).trans back⟩
  | cons x l ih =>
    obtain ⟨forth, back, rest⟩ := segment
    refine ⟨(next a (by simp)).trans forth, (prev _ (by simp)).trans back, ih rest ?_ ?_⟩
    · intro c member
      exact next c (List.mem_cons_of_mem a (by simpa using member))
    · intro c member
      exact prev c (List.mem_cons_of_mem _ member)

/-- The node before the end is the start or an element. -/
theorem Segment.prev_mem (segment : d.Segment a l b) : d.prev b ∈ a :: l.map some := by
  induction l generalizing a with
  | nil => simp [segment.2]
  | cons x l ih =>
    have member := ih segment.2.2
    simp only [List.map_cons, List.mem_cons] at member ⊢
    exact .inr member

section Walk

/-- Swap the two directions. -/
def flip (d : Dlist α) : Dlist α := ⟨d.prev, d.next⟩

theorem Segment.flip (segment : d.Segment a l b) : d.flip.Segment b l.reverse a := by
  induction l generalizing a with
  | nil => exact ⟨segment.2, segment.1⟩
  | cons x l ih =>
    rw [List.reverse_cons, segment_append]
    exact ⟨ih segment.2.2, segment.2.1, segment.1⟩

/-- Follow a pointer field until the head or an element that passes the test. -/
def walk (step : Option α → Option α) (test : α → Bool) : ℕ → Option α → Option α
  | 0, _ => none
  | _ + 1, none => none
  | fuel + 1, some x => if test x then some x else walk step test fuel (step (some x))

theorem Segment.walk_next {test : α → Bool} {fuel : ℕ} (segment : d.Segment a l none)
    (enough : l.length < fuel) : walk d.next test fuel (d.next a) = l.find? test := by
  obtain ⟨fuel, rfl⟩ : ∃ m, fuel = m + 1 := ⟨fuel - 1, by omega⟩
  induction l generalizing a fuel with
  | nil =>
    rw [segment.1]
    rfl
  | cons x l ih =>
    obtain ⟨forth, -, rest⟩ := segment
    rw [List.length_cons] at enough
    obtain ⟨fuel, rfl⟩ : ∃ m, fuel = m + 1 := ⟨fuel - 1, by omega⟩
    rw [forth, walk, List.find?_cons, ih rest fuel (by omega)]
    cases test x <;> rfl

theorem Segment.walk_prev {test : α → Bool} {fuel : ℕ} (segment : d.Segment none l b)
    (enough : l.length < fuel) : walk d.prev test fuel (d.prev b) = l.reverse.find? test :=
  segment.flip.walk_next (by simpa using enough)

end Walk

section Cycle

theorem Segment.prev_next (segment : d.Segment a l b) : ∀ c ∈ a :: l.map some, d.prev (d.next c) = c := by
  induction l generalizing a with
  | nil =>
    intro c member
    obtain rfl : c = a := by simpa using member
    rw [segment.1, segment.2]
  | cons x l ih =>
    obtain ⟨forth, back, rest⟩ := segment
    intro c member
    rcases List.mem_cons.mp member with rfl | later
    · rw [forth, back]
    · exact ih rest c later

theorem Segment.reach (segment : d.Segment a l b) : ∀ c ∈ a :: l.map some, ∃ k, d.next^[k] a = c := by
  induction l generalizing a with
  | nil =>
    intro c member
    obtain rfl : c = a := by simpa using member
    exact ⟨0, rfl⟩
  | cons x l ih =>
    obtain ⟨forth, back, rest⟩ := segment
    intro c member
    rcases List.mem_cons.mp member with rfl | later
    · exact ⟨0, rfl⟩
    · obtain ⟨k, reached⟩ := ih rest c later
      refine ⟨k + 1, ?_⟩
      rw [Function.iterate_succ_apply, forth, reached]

/-- `next` runs through all nodes in one cycle, and `prev` is its inverse. -/
structure Cycle (d : Dlist α) : Prop where
  prev_next : ∀ c, d.prev (d.next c) = c
  next_prev : ∀ c, d.next (d.prev c) = c
  reach : ∀ c, ∃ k, d.next^[k] none = c

theorem Ring.cycle (ring : d.Ring l) (complete : ∀ x, x ∈ l) : d.Cycle where
  prev_next := by
    intro c
    refine Segment.prev_next ring c ?_
    cases c <;> simp [complete]
  next_prev := by
    intro c
    refine Segment.prev_next (Segment.flip ring) c ?_
    cases c <;> simp [complete]
  reach := by
    intro c
    refine Segment.reach ring c ?_
    cases c <;> simp [complete]

end Cycle

section Stores

variable [DecidableEq α]

/-- `b->next->prev = b->prev; b->prev->next = b->next`. -/
def unlink (x : α) (d : Dlist α) : Dlist α :=
  let d := { d with prev := Function.update d.prev (d.next (some x)) (d.prev (some x)) }
  { d with next := Function.update d.next (d.prev (some x)) (d.next (some x)) }

/-- `b->next = head.next; b->prev = &head; head.next->prev = b; head.next = b`. -/
def pushFront (x : α) (d : Dlist α) : Dlist α :=
  let d := { d with next := Function.update d.next (some x) (d.next none) }
  let d := { d with prev := Function.update d.prev (some x) none }
  let d := { d with prev := Function.update d.prev (d.next none) (some x) }
  { d with next := Function.update d.next none (some x) }

/-- A segment made to end at another node. -/
theorem Segment.retarget (segment : d.Segment a l b) (nodup : (a :: l.map some).Nodup)
    (fresh : c ∉ l.map some) :
    Segment ⟨Function.update d.next (d.prev b) c, Function.update d.prev c (d.prev b)⟩ a l c := by
  induction l generalizing a with
  | nil =>
    obtain ⟨-, back⟩ := segment
    exact ⟨by simp [back], by simp [back]⟩
  | cons x l ih =>
    obtain ⟨forth, back, rest⟩ := segment
    rw [List.map_cons] at nodup fresh
    obtain ⟨outside, nodup⟩ := List.nodup_cons.mp nodup
    have other : a ≠ d.prev b := fun same => outside (same ▸ rest.prev_mem)
    have apart : some x ≠ c := fun same => fresh (same ▸ List.mem_cons_self)
    refine ⟨?_, ?_, ih rest nodup fun member => fresh (List.mem_cons_of_mem _ member)⟩
    · simp [Function.update_of_ne other, forth]
    · simp [Function.update_of_ne apart, back]

theorem Ring.unlink (ring : d.Ring (l ++ x :: l')) (nodup : (l ++ x :: l').Nodup) :
    (d.unlink x).Ring (l ++ l') := by
  obtain ⟨left, right⟩ := segment_append.mp ring
  obtain ⟨nodupLeft, nodupRight, apart⟩ := List.nodup_append.mp nodup
  obtain ⟨outside, nodupRight⟩ := List.nodup_cons.mp nodupRight
  have nodes : (none :: l.map some).Nodup := by
    refine List.nodup_cons.mpr ⟨by simp, nodupLeft.map fun _ _ same => Option.some.inj same⟩
  -- the node after `x` is another one, so the first store leaves `b->prev` alone
  have other : d.next (some x) ≠ some x := by
    cases l' with
    | nil =>
      rw [right.1]
      exact Option.some_ne_none x |>.symm
    | cons z m =>
      rw [right.1]
      intro same
      exact outside (by simp [Option.some.inj same])
  have shape : d.unlink x = ⟨Function.update d.next (d.prev (some x)) (d.next (some x)),
      Function.update d.prev (d.next (some x)) (d.prev (some x))⟩ := by
    simp [Dlist.unlink, Function.update_of_ne other.symm]
  rw [shape]
  have before := left.prev_mem
  cases l' with
  | nil =>
    rw [List.append_nil, right.1]
    exact left.retarget nodes (by simp)
  | cons z m =>
    obtain ⟨forth, back, rest⟩ := right
    rw [forth]
    refine segment_append.mpr ⟨left.retarget nodes ?_, rest.congr ?_ ?_⟩
    · intro member
      obtain ⟨y, inside, same⟩ := List.mem_map.mp member
      exact apart y inside z (by simp) (Option.some.inj same)
    · intro c member
      refine Function.update_of_ne ?_ _ _
      rintro rfl
      rcases List.mem_cons.mp before with same | inside
      · rw [same] at member
        simp at member
      · obtain ⟨y, within, same⟩ := List.mem_map.mp inside
        rw [← same] at member
        have again : y ∈ z :: m := by simpa using member
        exact apart y within y (List.mem_cons_of_mem x again) rfl
    · intro c member
      refine Function.update_of_ne ?_ _ _
      rintro rfl
      have inside : z ∈ m := by simpa using member
      exact (List.nodup_cons.mp nodupRight).1 inside

theorem Ring.pushFront (ring : d.Ring l) (nodup : l.Nodup) (absent : x ∉ l) :
    (d.pushFront x).Ring (x :: l) := by
  have first : d.next none ≠ some x := by
    cases l with
    | nil =>
      rw [ring.1]
      exact Option.some_ne_none x |>.symm
    | cons y m =>
      rw [ring.1]
      intro same
      exact absent (by simp [Option.some.inj same])
  have shape : d.pushFront x = ⟨Function.update (Function.update d.next (some x) (d.next none)) none (some x),
      Function.update (Function.update d.prev (some x) none) (d.next none) (some x)⟩ := by
    simp [Dlist.pushFront]
  rw [shape]
  refine ⟨by simp, by simp [Function.update_of_ne first.symm], ?_⟩
  cases l with
  | nil =>
    obtain ⟨forth, -⟩ := ring
    exact ⟨by simp [forth], by simp [forth]⟩
  | cons y m =>
    obtain ⟨forth, -, rest⟩ := ring
    rw [forth]
    refine ⟨by simp, by simp, rest.congr ?_ ?_⟩
    · intro c member
      have named : ∃ z ∈ y :: m, c = some z := by simpa [eq_comm] using member
      obtain ⟨z, inside, rfl⟩ := named
      have apart : z ≠ x := fun same => absent (same ▸ inside)
      simp [apart]
    · intro c member
      rcases List.mem_append.mp member with inside | last
      · obtain ⟨z, within, rfl⟩ := List.mem_map.mp inside
        have apart : z ≠ x := fun same => absent (List.mem_cons_of_mem _ (same ▸ within))
        have other : z ≠ y := fun same => (List.nodup_cons.mp nodup).1 (same ▸ within)
        simp [apart, other]
      · obtain rfl : c = none := by simpa using last
        simp

/-- Unlinking an element and pushing it moves it to the front. -/
theorem Ring.moveFront (ring : d.Ring l) (nodup : l.Nodup) (member : x ∈ l) :
    ((d.unlink x).pushFront x).Ring (x :: l.erase x) := by
  obtain ⟨front, back, absent, rfl, erased⟩ := List.exists_erase_eq member
  rw [erased]
  have rest : (front ++ back).Nodup := by
    rw [← erased]
    exact nodup.erase x
  refine (ring.unlink nodup).pushFront rest ?_
  rw [← erased]
  exact nodup.not_mem_erase

end Stores

end Dlist

end HaloOS.Lib
