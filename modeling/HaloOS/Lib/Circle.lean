import Mathlib.Data.List.Chain
import Mathlib.Algebra.Order.Ring.Nat
import Mathlib.Tactic.Common

/-! Circular lists in ascending order, linked in one direction. The last element links back to the
first, the only link that descends. -/

namespace HaloOS.Lib

variable {α : Type} {next next' : α → α} {a e p q x y : α} {l pre post : List α}

/-- Every element of the list links to the one behind it. -/
def Chained (next : α → α) (l : List α) : Prop := l.IsChain fun x y => next x = y

theorem chained_split : Chained next (pre ++ x :: post) ↔
    Chained next (pre ++ [x]) ∧ Chained next (x :: post) :=
  List.isChain_split

theorem chained_cons : Chained next (x :: y :: l) ↔ next x = y ∧ Chained next (y :: l) :=
  List.isChain_cons_cons

/-- The links lead from all elements but the last. -/
theorem Chained.congr (chained : Chained next (l ++ [e])) (same : ∀ x ∈ l, next' x = next x) :
    Chained next' (l ++ [e]) := by
  induction l with
  | nil => exact List.IsChain.singleton e
  | cons x l ih =>
    have here := same x List.mem_cons_self
    cases l with
    | nil =>
      obtain ⟨link, -⟩ := chained_cons.mp chained
      exact chained_cons.mpr ⟨here.trans link, List.IsChain.singleton e⟩
    | cons y l =>
      obtain ⟨link, rest⟩ := chained_cons.mp chained
      exact chained_cons.mpr ⟨here.trans link, ih rest fun z member =>
        same z (List.mem_cons_of_mem x member)⟩

/-- Another first element with the link of the old one. -/
theorem Chained.relink (chained : Chained next (x :: l ++ [e])) (link : next' y = next x)
    (same : ∀ z ∈ l, next' z = next z) : Chained next' (y :: l ++ [e]) := by
  cases l with
  | nil =>
    obtain ⟨last, -⟩ := chained_cons.mp chained
    exact chained_cons.mpr ⟨link.trans last, List.IsChain.singleton e⟩
  | cons z l =>
    obtain ⟨first, rest⟩ := chained_cons.mp chained
    exact chained_cons.mpr ⟨link.trans first, Chained.congr (l := z :: l) rest same⟩

/-- A circle can be entered anywhere. -/
theorem Chained.rotate (circle : Chained next (a :: l ++ [a])) (member : x ∈ a :: l) :
    ∃ rest, Chained next (x :: rest ++ [x]) ∧ (x :: rest).Perm (a :: l) := by
  obtain ⟨pre, post, whole⟩ := List.append_of_mem member
  rw [whole, List.append_assoc, List.cons_append] at circle
  obtain ⟨front, back⟩ := chained_split.mp circle
  refine ⟨post ++ pre, ?_, ?_⟩
  · cases pre with
    | nil =>
      obtain rfl : a = x := by simpa using (List.cons.inj whole).1
      simpa using back
    | cons first pre =>
      obtain rfl : a = first := (List.cons.inj whole).1
      have joined : Chained next ((x :: post) ++ a :: (pre ++ [x])) :=
        chained_split.mpr ⟨back, front⟩
      simpa using joined
  · rw [whole]
    change ((x :: post) ++ pre).Perm (pre ++ x :: post)
    exact List.perm_append_comm

section Ascending

variable [LinearOrder α]

/-- The last element below `y`. -/
structure Below (l : List α) (y p : α) : Prop where
  member : p ∈ l
  less : p < y
  last : ∀ q ∈ l, q < y → q ≤ p

theorem Below.unique (one : Below l y p) (other : Below l y q) : p = q :=
  le_antisymm (other.last p one.member one.less) (one.last q other.member other.less)

/-- In an ascending list what stands behind the last element below `y` is not below it. -/
theorem Below.split (below : Below l y p) (ascending : l.Pairwise (· < ·)) :
    ∃ pre post, l = pre ++ p :: post ∧ ∀ q ∈ post, y ≤ q := by
  obtain ⟨pre, post, rfl⟩ := List.append_of_mem below.member
  refine ⟨pre, post, rfl, fun q member => ?_⟩
  obtain ⟨-, tail, -⟩ := List.pairwise_append.mp ascending
  have after := (List.pairwise_cons.mp tail).1 q member
  by_contra low
  have before := below.last q (List.mem_append_right pre (List.mem_cons_of_mem p member)) (not_le.mp low)
  exact absurd after (not_lt.mpr before)

theorem below_of_split (ascending : (pre ++ p :: post).Pairwise (· < ·)) (less : p < y)
    (after : ∀ q ∈ post, y ≤ q) : Below (pre ++ p :: post) y p := by
  refine ⟨List.mem_append_right pre List.mem_cons_self, less, fun q member low => ?_⟩
  rcases List.mem_append.mp member with before | behind
  · exact ((List.pairwise_append.mp ascending).2.2 q before p List.mem_cons_self).le
  · rcases List.mem_cons.mp behind with rfl | later
    · exact le_refl q
    · exact absurd low (not_lt.mpr (after q later))

/-- Above its first element every place of an ascending list has an element below it. -/
theorem exists_below (ascending : (a :: l).Pairwise (· < ·)) (above : a < y) :
    ∃ p, Below (a :: l) y p := by
  induction l generalizing a with
  | nil => exact ⟨a, List.mem_cons_self, above, fun q member _ => by simpa using (List.mem_singleton.mp member).le⟩
  | cons b l ih =>
    obtain ⟨before, rest⟩ := List.pairwise_cons.mp ascending
    by_cases low : b < y
    · obtain ⟨p, below⟩ := ih rest low
      refine ⟨p, List.mem_cons_of_mem a below.member, below.less, fun q member less => ?_⟩
      rcases List.mem_cons.mp member with rfl | later
      · exact (before p below.member).le
      · exact below.last q later less
    · refine ⟨a, List.mem_cons_self, above, fun q member less => ?_⟩
      rcases List.mem_cons.mp member with rfl | later
      · exact le_refl q
      · rcases List.mem_cons.mp later with rfl | more
        · exact absurd less low
        · have first := (List.pairwise_cons.mp rest).1 q more
          exact absurd (first.trans less) low

/-- A link of an ascending circle leads to the next element above, or back to the first from the
last. -/
theorem Chained.next_cases (circle : Chained next (a :: l ++ [a])) (ascending : (a :: l).Pairwise (· < ·))
    (member : x ∈ a :: l) :
    (x < next x ∧ next x ∈ l ∧ ∀ q ∈ a :: l, q ≤ x ∨ next x ≤ q) ∨
      (next x = a ∧ ∀ q ∈ a :: l, q ≤ x) := by
  obtain ⟨pre, post, whole⟩ := List.append_of_mem member
  rw [whole, List.append_assoc, List.cons_append] at circle
  obtain ⟨-, back⟩ := chained_split.mp circle
  rw [whole] at ascending
  obtain ⟨-, tail, across⟩ := List.pairwise_append.mp ascending
  obtain ⟨after, rest⟩ := List.pairwise_cons.mp tail
  have low : ∀ q ∈ pre ++ [x], q ≤ x := by
    intro q inside
    rcases List.mem_append.mp inside with before | self
    · exact (across q before x List.mem_cons_self).le
    · exact (List.mem_singleton.mp self).le
  cases post with
  | nil =>
    refine .inr ⟨(chained_cons.mp back).1, fun q inside => ?_⟩
    rw [whole] at inside
    exact low q inside
  | cons y post =>
    have link : next x = y := (chained_cons.mp back).1
    have inside : y ∈ l := by
      have there : y ∈ a :: l := by
        rw [whole]
        exact List.mem_append_right pre (List.mem_cons_of_mem x List.mem_cons_self)
      rcases List.mem_cons.mp there with rfl | later
      · -- the first element is below all others
        have first : y ≤ x := by
          cases pre with
          | nil => exact (List.cons.inj whole).1.le
          | cons b pre =>
            rw [(List.cons.inj whole).1]
            exact low b List.mem_cons_self
        exact absurd (after y List.mem_cons_self) (not_lt.mpr first)
      · exact later
    rw [link]
    refine .inl ⟨after y List.mem_cons_self, inside, fun q there => ?_⟩
    rw [whole] at there
    rcases List.mem_append.mp there with before | behind
    · exact .inl (low q (List.mem_append_left _ before))
    · rcases List.mem_cons.mp behind with rfl | later
      · exact .inl (le_refl q)
      · rcases List.mem_cons.mp later with rfl | more
        · exact .inr (le_refl q)
        · exact .inr ((List.pairwise_cons.mp rest).1 q more).le

/-- What a link shows of the place of `y`: `y` is in the interval of the link, or the link leads back
and `y` is outside of the circle. -/
theorem Chained.below_iff (circle : Chained next (a :: l ++ [a])) (ascending : (a :: l).Pairwise (· < ·))
    (fresh : y ∉ a :: l) (above : a < y) (member : p ∈ a :: l) :
    Below (a :: l) y p ↔ (p < y ∧ y < next p) ∨ (next p ≤ p ∧ (p < y ∨ y < next p)) := by
  rcases circle.next_cases ascending member with ⟨less, inside, between⟩ | ⟨back, top⟩
  · constructor
    · intro below
      refine .inl ⟨below.less, ?_⟩
      have there : next p ∈ a :: l := List.mem_cons_of_mem a inside
      by_contra low
      rcases lt_or_eq_of_le (not_lt.mp low) with under | same
      · exact absurd less (not_lt.mpr (below.last _ there under))
      · exact fresh (same ▸ there)
    · rintro (⟨low, high⟩ | ⟨wraps, -⟩)
      · refine ⟨member, low, fun q there under => ?_⟩
        rcases between q there with le | above
        · exact le
        · exact absurd (high.trans_le above) (not_lt.mpr under.le)
      · exact absurd less (not_lt.mpr wraps)
  · rw [back]
    constructor
    · intro below
      exact .inr ⟨top a List.mem_cons_self, .inl below.less⟩
    · rintro (⟨-, under⟩ | ⟨-, low | under⟩)
      · exact absurd above (not_lt.mpr under.le)
      · exact ⟨member, low, fun q there _ => top q there⟩
      · exact absurd above (not_lt.mpr under.le)

end Ascending

end HaloOS.Lib
