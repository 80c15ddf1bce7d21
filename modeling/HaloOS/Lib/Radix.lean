import Mathlib.Logic.Function.Basic
import Mathlib.Algebra.Order.Ring.Nat
import Mathlib.Data.Set.Insert
import Mathlib.Tactic.Common

/-! Radix trees in an array of words. A node is a page of words; a valid word of a page above the
bottom points to a page of the next level, and the words of the bottom pages are the values. A tree
owns its pages: no page belongs to two places, so a change below one word of a page is not seen
below any other. -/

namespace HaloOS.Lib.Radix

/-- How words are read. -/
structure Coding where
  fan : ℕ
  positive : 0 < fan
  valid : ℕ → Bool
  pointer : ℕ → Prop
  child : ℕ → ℕ

variable (C : Coding)

/-- Page `n` is the root of a tree of the given height over the pages `S`. -/
def Tree (mem : ℕ → ℕ) : ℕ → ℕ → Set ℕ → Prop
  | 0, n, S => ∀ m, m ∈ S ↔ m = n
  | level + 1, n, S => ∃ sub : ℕ → Set ℕ,
      (∀ m, m ∈ S ↔ m = n ∨ ∃ i < C.fan, m ∈ sub i) ∧
      (∀ i < C.fan, n ∉ sub i) ∧
      (∀ i < C.fan, ∀ j < C.fan, i ≠ j → ∀ m ∈ sub i, m ∉ sub j) ∧
      ∀ i < C.fan, (C.valid (mem (C.fan * n + i)) = true ∧ C.pointer (mem (C.fan * n + i)) ∧
          Tree mem level (C.child (mem (C.fan * n + i))) (sub i)) ∨
        (C.valid (mem (C.fan * n + i)) = false ∧ ∀ m, m ∉ sub i)

/-- The word of a key in the page it passes at a level. -/
def index (level u : ℕ) : ℕ := u / C.fan ^ level % C.fan

/-- The word that holds the value of a key, if there is a bottom page for it. -/
def place (mem : ℕ → ℕ) : ℕ → ℕ → ℕ → Option ℕ
  | 0, n, u => some (C.fan * n + index C 0 u)
  | level + 1, n, u =>
    if C.valid (mem (C.fan * n + index C (level + 1) u)) then
      place mem level (C.child (mem (C.fan * n + index C (level + 1) u))) u
    else none

/-- The valid value of a key. -/
def value (mem : ℕ → ℕ) (level n u : ℕ) : Option ℕ :=
  (place C mem level n u).bind fun w => if C.valid (mem w) then some (mem w) else none

variable {C} {mem mem' : ℕ → ℕ} {level n u u' w x : ℕ} {S : Set ℕ}

theorem index_lt (level u : ℕ) : index C level u < C.fan := Nat.mod_lt _ C.positive

theorem page_of_word {i : ℕ} (small : i < C.fan) : (C.fan * n + i) / C.fan = n := by
  rw [Nat.mul_add_div C.positive, Nat.div_eq_of_lt small, Nat.add_zero]

theorem Tree.root_mem (tree : Tree C mem level n S) : n ∈ S := by
  cases level with
  | zero => exact (tree n).mpr rfl
  | succ level =>
    obtain ⟨sub, pages, -⟩ := tree
    exact (pages n).mpr (.inl rfl)

theorem value_eq_some : value C mem level n u = some x ↔
    ∃ w, place C mem level n u = some w ∧ C.valid (mem w) = true ∧ mem w = x := by
  unfold value
  cases place C mem level n u with
  | none => simp
  | some w => by_cases valid : C.valid (mem w) = true <;> simp [valid]

section Descent

variable (entry : ℕ) (here : mem (C.fan * n + index C (level + 1) u) = entry)
include here

theorem place_of_valid (valid : C.valid entry = true) :
    place C mem (level + 1) n u = place C mem level (C.child entry) u := by
  subst here
  exact if_pos valid

theorem place_of_invalid (invalid : C.valid entry = false) :
    place C mem (level + 1) n u = none := by
  subst here
  exact if_neg (by simp [invalid])

theorem value_of_valid (valid : C.valid entry = true) :
    value C mem (level + 1) n u = value C mem level (C.child entry) u := by
  unfold value
  rw [place_of_valid entry here valid]

theorem value_of_invalid (invalid : C.valid entry = false) :
    value C mem (level + 1) n u = none := by
  unfold value
  rw [place_of_invalid entry here invalid, Option.bind_none]

end Descent

/-- The tree below a valid word. -/
theorem Tree.child (tree : Tree C mem (level + 1) n S) {i : ℕ} (small : i < C.fan)
    (valid : C.valid (mem (C.fan * n + i)) = true) :
    ∃ T : Set ℕ, (∀ m ∈ T, m ∈ S) ∧ Tree C mem level (C.child (mem (C.fan * n + i))) T := by
  obtain ⟨sub, pages, -, -, words⟩ := tree
  rcases words i small with ⟨-, -, below⟩ | ⟨invalid, -⟩
  · exact ⟨sub i, fun m member => (pages m).mpr (.inr ⟨i, small, member⟩), below⟩
  · rw [invalid] at valid
    exact absurd valid (by simp)

/-- A tree depends on its own pages only. -/
theorem Tree.congr (tree : Tree C mem level n S) (same : ∀ w, w / C.fan ∈ S → mem' w = mem w) :
    Tree C mem' level n S := by
  induction level generalizing n S with
  | zero => exact tree
  | succ level ih =>
    obtain ⟨sub, pages, root, apart, words⟩ := tree
    refine ⟨sub, pages, root, apart, fun i small => ?_⟩
    have here : mem' (C.fan * n + i) = mem (C.fan * n + i) := by
      refine same _ ?_
      rw [page_of_word small]
      exact (pages n).mpr (.inl rfl)
    rw [here]
    rcases words i small with ⟨valid, pointer, tree⟩ | invalid
    · refine .inl ⟨valid, pointer, ih tree fun w member => same w ?_⟩
      exact (pages _).mpr (.inr ⟨i, small, member⟩)
    · exact .inr invalid

theorem place_congr (tree : Tree C mem level n S)
    (same : ∀ w, w / C.fan ∈ S → mem' w = mem w) (u : ℕ) :
    place C mem' level n u = place C mem level n u := by
  induction level generalizing n S with
  | zero => rfl
  | succ level ih =>
    obtain ⟨sub, pages, root, apart, words⟩ := tree
    have small : index C (level + 1) u < C.fan := index_lt _ _
    have here : mem' (C.fan * n + index C (level + 1) u) =
        mem (C.fan * n + index C (level + 1) u) := by
      refine same _ ?_
      rw [page_of_word small]
      exact (pages n).mpr (.inl rfl)
    rcases words _ small with ⟨valid, -, tree⟩ | ⟨invalid, -⟩
    · rw [place_of_valid _ here valid, place_of_valid _ rfl valid]
      exact ih tree fun w member => same w ((pages _).mpr (.inr ⟨_, small, member⟩))
    · rw [place_of_invalid _ here invalid, place_of_invalid _ rfl invalid]

/-- The word of a value lies in a page of the tree. -/
theorem place_page (tree : Tree C mem level n S) (found : place C mem level n u = some w) :
    ∃ page ∈ S, w = C.fan * page + index C 0 u := by
  induction level generalizing n S with
  | zero => exact ⟨n, (tree n).mpr rfl, by simpa [place] using found.symm⟩
  | succ level ih =>
    obtain ⟨sub, pages, root, apart, words⟩ := tree
    rcases words _ (index_lt (level + 1) u) with ⟨valid, -, tree⟩ | ⟨invalid, -⟩
    · rw [place_of_valid _ rfl valid] at found
      obtain ⟨page, member, rfl⟩ := ih tree found
      exact ⟨page, (pages page).mpr (.inr ⟨_, index_lt _ _, member⟩), rfl⟩
    · simp [place_of_invalid _ rfl invalid] at found

theorem place_mem (tree : Tree C mem level n S) (found : place C mem level n u = some w) :
    w / C.fan ∈ S := by
  obtain ⟨page, member, rfl⟩ := place_page tree found
  rwa [page_of_word (index_lt _ _)]

theorem value_congr (tree : Tree C mem level n S)
    (same : ∀ w, w / C.fan ∈ S → mem' w = mem w) (u : ℕ) :
    value C mem' level n u = value C mem level n u := by
  unfold value
  rw [place_congr tree same]
  cases found : place C mem level n u with
  | none => rfl
  | some w =>
    rw [Option.bind_some, Option.bind_some, same w (place_mem tree found)]

/-- A tree seen from one word of its root: `T` is what hangs there, and that subtree may grow by
the pages `A` as long as the other pages keep their words. -/
theorem Tree.focus (tree : Tree C mem (level + 1) n S) {i : ℕ} (small : i < C.fan) :
    ∃ T : Set ℕ, (∀ m ∈ T, m ∈ S) ∧ n ∉ T ∧
      ((C.valid (mem (C.fan * n + i)) = true ∧ C.pointer (mem (C.fan * n + i)) ∧
          Tree C mem level (C.child (mem (C.fan * n + i))) T) ∨
        (C.valid (mem (C.fan * n + i)) = false ∧ ∀ m, m ∉ T)) ∧
      ∀ (mem' : ℕ → ℕ) (A : Set ℕ) (entry : ℕ), (∀ m ∈ A, m ∉ S) →
        (∀ w, w / C.fan ∉ T → w / C.fan ∉ A → w ≠ C.fan * n + i → mem' w = mem w) →
        mem' (C.fan * n + i) = entry → C.valid entry = true → C.pointer entry →
        Tree C mem' level (C.child entry) {m | m ∈ T ∨ m ∈ A} →
        Tree C mem' (level + 1) n {m | m ∈ S ∨ m ∈ A} ∧
        ∀ u, index C (level + 1) u ≠ i →
          place C mem' (level + 1) n u = place C mem (level + 1) n u ∧
          value C mem' (level + 1) n u = value C mem (level + 1) n u := by
  obtain ⟨sub, pages, root, apart, words⟩ := tree
  have inside : ∀ j < C.fan, ∀ m ∈ sub j, m ∈ S :=
    fun j below m member => (pages m).mpr (.inr ⟨j, below, member⟩)
  refine ⟨sub i, inside i small, root i small, words i small, ?_⟩
  intro mem' A entry fresh same here valid pointer tree
  have rootIn : n ∈ S := (pages n).mpr (.inl rfl)
  have others : ∀ j < C.fan, j ≠ i → mem' (C.fan * n + j) = mem (C.fan * n + j) := by
    intro j below other
    refine same _ ?_ ?_ fun clash => other (Nat.add_left_cancel clash)
    · rw [page_of_word below]
      exact root i small
    · rw [page_of_word below]
      exact fun new => fresh n new rootIn
  -- below another word nothing has changed
  have under : ∀ j < C.fan, j ≠ i → ∀ w, w / C.fan ∈ sub j → mem' w = mem w := by
    intro j below other w member
    refine same w (apart j below i small other _ member)
      (fun new => fresh _ new (inside j below _ member)) ?_
    rintro rfl
    rw [page_of_word small] at member
    exact root j below member
  constructor
  · refine ⟨Function.update sub i {m | m ∈ sub i ∨ m ∈ A}, fun m => ?_, fun j below => ?_,
      fun j below k low differ m => ?_, fun j below => ?_⟩
    · constructor
      · rintro (member | new)
        · rcases (pages m).mp member with rfl | ⟨j, below, member⟩
          · exact .inl rfl
          · refine .inr ⟨j, below, ?_⟩
            by_cases there : j = i
            · subst there
              rw [Function.update_self]
              exact .inl member
            · rwa [Function.update_of_ne there]
        · exact .inr ⟨i, small, by rw [Function.update_self]; exact .inr new⟩
      · rintro (rfl | ⟨j, below, member⟩)
        · exact .inl rootIn
        · by_cases there : j = i
          · subst there
            rw [Function.update_self] at member
            exact member.imp_left (inside j below m)
          · rw [Function.update_of_ne there] at member
            exact .inl (inside j below m member)
    · by_cases there : j = i
      · subst there
        rw [Function.update_self]
        rintro (member | new)
        · exact root j below member
        · exact fresh n new rootIn
      · rw [Function.update_of_ne there]
        exact root j below
    · by_cases there : j = i
      · subst there
        rw [Function.update_self, Function.update_of_ne (Ne.symm differ)]
        rintro (old | new) member
        · exact apart j below k low differ m old member
        · exact fresh m new (inside k low m member)
      · rw [Function.update_of_ne there]
        by_cases back : k = i
        · subst back
          rw [Function.update_self]
          rintro member (old | new)
          · exact apart j below k low differ m member old
          · exact fresh m new (inside j below m member)
        · rw [Function.update_of_ne back]
          exact apart j below k low differ m
    · by_cases there : j = i
      · subst there
        rw [Function.update_self, here]
        exact .inl ⟨valid, pointer, tree⟩
      · rw [Function.update_of_ne there, others j below there]
        rcases words j below with ⟨valid', pointer', tree'⟩ | invalid
        · exact .inl ⟨valid', pointer', tree'.congr (under j below there)⟩
        · exact .inr invalid
  · intro u other
    have below : index C (level + 1) u < C.fan := index_lt _ _
    have kept := others _ below other
    unfold value
    rcases words _ below with ⟨valid', -, tree'⟩ | ⟨invalid, -⟩
    · rw [place_of_valid _ kept valid', place_of_valid _ rfl valid']
      exact ⟨place_congr tree' (under _ below other) u, value_congr tree' (under _ below other) u⟩
    · rw [place_of_invalid _ kept invalid, place_of_invalid _ rfl invalid]
      exact ⟨rfl, rfl⟩

/-- A page without valid words is a tree that holds nothing. -/
theorem tree_empty (level : ℕ) (invalid : ∀ i < C.fan, C.valid (mem (C.fan * n + i)) = false) :
    Tree C mem level n {n} ∧ ∀ u, value C mem level n u = none := by
  cases level with
  | zero =>
    refine ⟨fun m => Iff.rfl, fun u => ?_⟩
    simp [value, place, invalid _ (index_lt 0 u)]
  | succ level =>
    refine ⟨⟨fun _ => ∅, ?_, ?_, ?_, ?_⟩, fun u => ?_⟩
    · simp
    · simp
    · simp
    · exact fun i small => .inr ⟨invalid i small, by simp⟩
    · simp [value, place, invalid _ (index_lt (level + 1) u)]

/-- Storing a value leaves the pages and the words of all values where they are. -/
theorem Tree.store (tree : Tree C mem level n S) (found : place C mem level n u = some w) (x : ℕ) :
    Tree C (Function.update mem w x) level n S ∧
      ∀ u', place C (Function.update mem w x) level n u' = place C mem level n u' := by
  induction level generalizing n S with
  | zero => exact ⟨tree, fun _ => rfl⟩
  | succ level ih =>
    have small : index C (level + 1) u < C.fan := index_lt _ _
    obtain ⟨T, inside, root, hangs, hang⟩ := tree.focus small
    rcases hangs with ⟨valid, pointer, below⟩ | ⟨invalid, -⟩
    · have step : place C mem level _ u = some w := (place_of_valid _ rfl valid).symm.trans found
      obtain ⟨below', places⟩ := ih below step
      have entry : Function.update mem w x (C.fan * n + index C (level + 1) u) =
          mem (C.fan * n + index C (level + 1) u) := by
        refine Function.update_of_ne ?_ _ _
        rintro rfl
        have member := place_mem below step
        rw [page_of_word small] at member
        exact root member
      have bottom := hang (Function.update mem w x) ∅ _ (by simp) ?_ entry valid pointer
        (by simpa using below')
      · obtain ⟨tree', others⟩ := bottom
        refine ⟨by simpa using tree', fun u' => ?_⟩
        by_cases here : index C (level + 1) u' = index C (level + 1) u
        · rw [← here] at entry valid places
          rw [place_of_valid _ entry valid, place_of_valid _ rfl valid]
          exact places u'
        · exact (others u' here).1
      · intro w' outside _ _
        refine Function.update_of_ne ?_ _ _
        rintro rfl
        exact outside (place_mem below step)
    · simp [place_of_invalid _ rfl invalid] at found

/-- Two keys with the same word take the same way down. -/
theorem index_of_place (tree : Tree C mem level n S) (found : place C mem level n u = some w)
    (found' : place C mem level n u' = some w) : ∀ k ≤ level, index C k u = index C k u' := by
  induction level generalizing n S with
  | zero =>
    intro k low
    obtain rfl : k = 0 := by omega
    have one : C.fan * n + index C 0 u = w := by simpa [place] using found
    have two : C.fan * n + index C 0 u' = w := by simpa [place] using found'
    omega
  | succ level ih =>
    obtain ⟨sub, pages, root, apart, words⟩ := tree
    have small : index C (level + 1) u < C.fan := index_lt _ _
    have small' : index C (level + 1) u' < C.fan := index_lt _ _
    rcases words _ small with ⟨valid, -, below⟩ | ⟨invalid, -⟩
    · rcases words _ small' with ⟨valid', -, below'⟩ | ⟨invalid, -⟩
      · rw [place_of_valid _ rfl valid] at found
        rw [place_of_valid _ rfl valid'] at found'
        have top : index C (level + 1) u = index C (level + 1) u' := by
          by_contra differ
          exact apart _ small _ small' differ _ (place_mem below found) (place_mem below' found')
        rw [← top] at found'
        intro k low
        rcases Nat.le_succ_iff.mp low with low | rfl
        · exact ih below found found' k low
        · exact top
      · simp [place_of_invalid _ rfl invalid] at found'
    · simp [place_of_invalid _ rfl invalid] at found

theorem eq_of_indices (same : ∀ k < level, index C k u = index C k u') :
    u % C.fan ^ level = u' % C.fan ^ level := by
  induction level with
  | zero => simp [Nat.mod_one]
  | succ level ih =>
    have here := same level (by omega)
    unfold index at here
    rw [Nat.mod_pow_succ, Nat.mod_pow_succ, ih fun k low => same k (by omega), here]

/-- What the tree holds after a store, at the key of the word and at every other key. -/
theorem value_store (tree : Tree C mem level n S) (found : place C mem level n u = some w) (x : ℕ)
    (small : u < C.fan ^ (level + 1)) (small' : u' < C.fan ^ (level + 1)) :
    value C (Function.update mem w x) level n u' =
      if u' = u then (if C.valid x then some x else none) else value C mem level n u' := by
  have places := (tree.store found x).2
  unfold value
  rw [places]
  by_cases here : u' = u
  · subst here
    rw [if_pos rfl, found, Option.bind_some, Function.update_self]
  · rw [if_neg here]
    cases found' : place C mem level n u' with
    | none => rfl
    | some w' =>
      have other : w' ≠ w := by
        rintro rfl
        have same := eq_of_indices fun k (low : k < level + 1) =>
          index_of_place tree found' found k (by omega)
        rw [Nat.mod_eq_of_lt small', Nat.mod_eq_of_lt small] at same
        exact here same
      rw [Option.bind_some, Option.bind_some, Function.update_of_ne other]

/-- A key matters by its indices only. -/
theorem place_key (same : ∀ k ≤ level, index C k u = index C k u') :
    place C mem level n u = place C mem level n u' := by
  induction level generalizing n with
  | zero => simp only [place, same 0 le_rfl]
  | succ level ih =>
    unfold place
    rw [same (level + 1) le_rfl, ih fun k low => same k (by omega)]

theorem value_key (same : ∀ k ≤ level, index C k u = index C k u') :
    value C mem level n u = value C mem level n u' := by
  unfold value
  rw [place_key same]

/-- Whether there is a bottom page for a key depends on its upper indices. -/
theorem place_isSome_key (same : ∀ k, 0 < k → k ≤ level → index C k u = index C k u') :
    (place C mem level n u).isSome = (place C mem level n u').isSome := by
  induction level generalizing n with
  | zero => rfl
  | succ level ih =>
    unfold place
    rw [same (level + 1) (by omega) le_rfl]
    split
    · exact ih fun k pos low => same k pos (by omega)
    · rfl

theorem index_mod {k m : ℕ} (low : k < m) (u : ℕ) : index C k (u % C.fan ^ m) = index C k u := by
  have split : C.fan ^ m = C.fan ^ k * C.fan ^ (m - k) := by
    rw [← Nat.pow_add]
    congr 1
    omega
  have whole : C.fan ∣ C.fan ^ (m - k) := by
    have power := Nat.pow_dvd_pow C.fan (show 1 ≤ m - k by omega)
    rwa [Nat.pow_one] at power
  unfold index
  rw [split, Nat.mod_mul_right_div_self]
  exact Nat.mod_mod_of_dvd _ whole

/-- A key that goes on below word `i` of a page as `u` does in the subtree. -/
theorem exists_key {i : ℕ} (small : i < C.fan) (level u : ℕ) :
    ∃ u', index C (level + 1) u' = i ∧ ∀ k ≤ level, index C k u' = index C k u := by
  have rest : u % C.fan ^ (level + 1) < C.fan ^ (level + 1) :=
    Nat.mod_lt _ (Nat.pow_pos C.positive)
  refine ⟨C.fan ^ (level + 1) * i + u % C.fan ^ (level + 1), ?_, fun k low => ?_⟩
  · unfold index
    rw [Nat.mul_add_div (Nat.pow_pos C.positive), Nat.div_eq_of_lt rest, Nat.add_zero,
      Nat.mod_eq_of_lt small]
  · rw [← index_mod (show k < level + 1 by omega), Nat.mul_add_mod, Nat.mod_mod,
      index_mod (by omega)]

end HaloOS.Lib.Radix
