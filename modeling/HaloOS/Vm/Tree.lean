import HaloOS.Vm.Pool

/-! Page tables as trees of owned pages. The owner of a page-table page says where in
its table it hangs, so two tables never share a page and a step that works on one of
them is known to leave the others alone. -/

namespace HaloOS

open Lib

variable {L : Layout} {mem mem' : ℕ → ℕ} {own own' own'' : ℕ → Owner} {v v' v'' : Vm}
  {t n m i j k u : ℕ}

/-- An entry of an inner page: empty, or a pointer to the one page that `P` names. -/
def Slot (w : ℕ) (P : ℕ → Prop) : Prop :=
  (w = 0 ∧ ∀ n, ¬ P n) ∨ ∃ n, w = n * 1024 + 1 ∧ ∀ m, P m ↔ m = n

/-- The inner levels of the table with root page `t` are the pages its owners say. -/
structure Tree (mem : ℕ → ℕ) (own : ℕ → Owner) (t : ℕ) : Prop where
  root : ∃ p, own t = .root p
  upper : ∀ i < 512, Slot (mem (512 * t + i)) fun n => own n = .l1 t i
  lower : ∀ i n, own n = .l1 t i → ∀ j < 512, Slot (mem (512 * n + j)) fun m => own m = .l0 t i j
  parent : ∀ i j m, own m = .l0 t i j → ∃ n, own n = .l1 t i
  l1_lt : ∀ i n, own n = .l1 t i → i < 512
  l0_lt : ∀ i j m, own m = .l0 t i j → j < 512

/-- The leaf entry of virtual page `u`, 0 where the table does not reach that far. -/
def leaf (mem : ℕ → ℕ) (t u : ℕ) : ℕ :=
  if mem (512 * t + u / 512 / 512) = 0 then 0
  else if mem (512 * (mem (512 * t + u / 512 / 512) / 1024) + u / 512 % 512) = 0 then 0
  else mem (512 * (mem (512 * (mem (512 * t + u / 512 / 512) / 1024) + u / 512 % 512) / 1024) +
    u % 512)

theorem Slot.of_mem {w : ℕ} {P : ℕ → Prop} (slot : Slot w P) (holds : P n) :
    w = n * 1024 + 1 := by
  rcases slot with ⟨-, none⟩ | ⟨m, rfl, only⟩
  · exact absurd holds (none n)
  · rw [(only n).mp holds]

theorem Slot.of_none {w : ℕ} {P : ℕ → Prop} (slot : Slot w P) (none : ∀ n, ¬ P n) : w = 0 := by
  rcases slot with ⟨zero, -⟩ | ⟨m, -, only⟩
  · exact zero
  · exact absurd ((only m).mpr rfl) (none m)

theorem Slot.unique {w : ℕ} {P : ℕ → Prop} (slot : Slot w P) (one : P n) (two : P m) :
    n = m := by
  have first := slot.of_mem one
  have second := slot.of_mem two
  omega

theorem Slot.congr {w : ℕ} {P Q : ℕ → Prop} (slot : Slot w P) (same : ∀ n, P n ↔ Q n) :
    Slot w Q := by
  obtain rfl : P = Q := funext fun n => propext (same n)
  exact slot

/-- A page whose owner is no root is not the root. -/
theorem Tree.apart (tree : Tree mem own t) (inner : ∀ p, own n ≠ .root p) : t ≠ n := by
  obtain ⟨p, root⟩ := tree.root
  rintro rfl
  exact inner p root

theorem Tree.l1_page (tree : Tree mem own t) (here : own n = .l1 t i) :
    mem (512 * t + i) = n * 1024 + 1 :=
  (tree.upper i (tree.l1_lt i n here)).of_mem here

theorem Tree.l0_page (tree : Tree mem own t) (inner : own n = .l1 t i)
    (here : own m = .l0 t i j) : mem (512 * n + j) = m * 1024 + 1 :=
  (tree.lower i n inner j (tree.l0_lt i j m here)).of_mem here

private theorem pointer_page (n : ℕ) : (n * 1024 + 1) / 1024 = n := by omega

/-- A leaf entry sits in the bottom page of its place. -/
theorem Tree.leaf_l0 (tree : Tree mem own t) (here : own m = .l0 t (u / 512 / 512) (u / 512 % 512)) :
    leaf mem t u = mem (512 * m + u % 512) := by
  obtain ⟨n, inner⟩ := tree.parent _ _ m here
  have upper := tree.l1_page inner
  have lower := tree.l0_page inner here
  unfold leaf
  rw [upper, if_neg (Nat.succ_ne_zero _), pointer_page, lower, if_neg (Nat.succ_ne_zero _),
    pointer_page]

/-- Where there is no bottom page there is no leaf. -/
theorem Tree.leaf_none (tree : Tree mem own t) (small : u < 2 ^ 27)
    (none : ∀ m, own m ≠ .l0 t (u / 512 / 512) (u / 512 % 512)) : leaf mem t u = 0 := by
  have index : u / 512 / 512 < 512 := by omega
  by_cases inner : ∃ n, own n = .l1 t (u / 512 / 512)
  · obtain ⟨n, inner⟩ := inner
    have upper := tree.l1_page inner
    have empty := (tree.lower _ n inner (u / 512 % 512) (Nat.mod_lt _ (by omega))).of_none none
    unfold leaf
    rw [upper, if_neg (Nat.succ_ne_zero _), pointer_page, if_pos empty]
  · have empty := (tree.upper _ index).of_none (not_exists.mp inner)
    unfold leaf
    rw [if_pos empty]

/-- Two trees have the same leaves if they share their bottom pages, up to pages of
zeros. -/
theorem Tree.leaf_congr (tree : Tree mem own t) (tree' : Tree mem' own' t)
    (kept : ∀ n i j, own n = .l0 t i j →
      own' n = .l0 t i j ∧ ∀ k < 512, mem' (512 * n + k) = mem (512 * n + k))
    (new : ∀ n i j, own' n = .l0 t i j → own n = .l0 t i j ∨ ∀ k < 512, mem' (512 * n + k) = 0)
    (small : u < 2 ^ 27) : leaf mem' t u = leaf mem t u := by
  have inside : u % 512 < 512 := Nat.mod_lt _ (by omega)
  by_cases bottom : ∃ m, own m = .l0 t (u / 512 / 512) (u / 512 % 512)
  · obtain ⟨m, here⟩ := bottom
    obtain ⟨here', same⟩ := kept m _ _ here
    rw [tree.leaf_l0 here, tree'.leaf_l0 here', same _ inside]
  · have none := not_exists.mp bottom
    rw [tree.leaf_none small none]
    by_cases fresh : ∃ m, own' m = .l0 t (u / 512 / 512) (u / 512 % 512)
    · obtain ⟨m, here⟩ := fresh
      rw [tree'.leaf_l0 here]
      rcases new m _ _ here with old | zero
      · exact absurd old (none m)
      · exact zero _ inside
    · exact tree'.leaf_none small (not_exists.mp fresh)

/-- A tree is made of the owners that name it and the contents of its inner pages. -/
theorem Tree.congr (tree : Tree mem own t) (root : own' t = own t)
    (upper : ∀ n a, own' n = .l1 t a ↔ own n = .l1 t a)
    (lower : ∀ n a b, own' n = .l0 t a b ↔ own n = .l0 t a b)
    (same : ∀ n, (n = t ∨ ∃ a, own n = .l1 t a) → ∀ k < 512, mem' (512 * n + k) = mem (512 * n + k)) :
    Tree mem' own' t := by
  constructor
  · rw [root]
    exact tree.root
  · intro i small
    rw [same t (.inl rfl) i small]
    exact (tree.upper i small).congr fun n => (upper n i).symm
  · intro i n here j small
    have old : own n = .l1 t i := (upper n i).mp here
    rw [same n (.inr ⟨i, old⟩) j small]
    exact (tree.lower i n old j small).congr fun m => (lower m i j).symm
  · intro i j m here
    obtain ⟨n, inner⟩ := tree.parent i j m ((lower m i j).mp here)
    exact ⟨n, (upper n i).mpr inner⟩
  · exact fun i n here => tree.l1_lt i n ((upper n i).mp here)
  · exact fun i j m here => tree.l0_lt i j m ((lower m i j).mp here)

/-- The pages that work on table `t` may touch: its own and the free ones. -/
def Avail (t : ℕ) (own : ℕ → Owner) (n : ℕ) : Prop :=
  n = t ∨ match own n with
    | .free => True
    | .held s => s = t
    | .l1 s _ => s = t
    | .l0 s _ _ => s = t
    | .user s _ => s = t
    | _ => False

/-- Between two states only pages of table `t` and free pages have changed, and only
into such pages. -/
def Touches (t : ℕ) (own : ℕ → Owner) (v : Vm) (own' : ℕ → Owner) (v' : Vm) : Prop :=
  ∀ n, (Avail t own n ∧ Avail t own' n) ∨
    (own' n = own n ∧ ∀ k < 512, v'.mem (512 * n + k) = v.mem (512 * n + k))

theorem Avail.congr (same : own' n = own n) : Avail t own' n ↔ Avail t own n := by
  unfold Avail
  rw [same]

theorem Touches.refl : Touches t own v own v := fun _ => .inr ⟨rfl, fun _ _ => rfl⟩

theorem Touches.trans (first : Touches t own v own' v') (second : Touches t own' v' own'' v'') :
    Touches t own v own'' v'' := by
  intro n
  rcases first n with ⟨before, between⟩ | ⟨same, kept⟩
  · rcases second n with ⟨-, after⟩ | ⟨same, -⟩
    · exact .inl ⟨before, after⟩
    · exact .inl ⟨before, (Avail.congr same).mpr between⟩
  · rcases second n with ⟨between, after⟩ | ⟨same', kept'⟩
    · exact .inl ⟨(Avail.congr same).mp between, after⟩
    · refine .inr ⟨same'.trans same, ?_⟩
      intro k inside
      rw [kept' k inside, kept k inside]

/-- One page changes hands, and nothing else happens. -/
theorem Touches.single {o : Owner} (keeps : Keeps v v' (· ≠ n)) (before : Avail t own n)
    (after : Avail t (Function.update own n o) n) :
    Touches t own v (Function.update own n o) v' := by
  intro m
  by_cases same : m = n
  · subst same
    exact .inl ⟨before, after⟩
  · exact .inr ⟨Function.update_of_ne same _ _, fun k inside => keeps.at same inside⟩

/-- Only the contents of one page change. -/
theorem Touches.write (keeps : Keeps v v' (· ≠ n)) (before : Avail t own n) :
    Touches t own v own v' := by
  intro m
  by_cases same : m = n
  · subst same
    exact .inl ⟨before, before⟩
  · exact .inr ⟨rfl, fun k inside => keeps.at same inside⟩

theorem Touches.keep (within : Touches t own v own' v') (outside : ¬ Avail t own n) :
    own' n = own n ∧ ∀ k < 512, v'.mem (512 * n + k) = v.mem (512 * n + k) := by
  rcases within n with ⟨inside, -⟩ | same
  · exact absurd inside outside
  · exact same

theorem Touches.back (within : Touches t own v own' v') (outside : ¬ Avail t own' n) :
    own n = own' n ∧ ∀ k < 512, v'.mem (512 * n + k) = v.mem (512 * n + k) := by
  rcases within n with ⟨-, inside⟩ | ⟨same, kept⟩
  · exact absurd inside outside
  · exact ⟨same.symm, kept⟩

/-- Work on table `t` that leaves its root where it is. -/
structure Within (t : ℕ) (own : ℕ → Owner) (v : Vm) (own' : ℕ → Owner) (v' : Vm) : Prop where
  touches : Touches t own v own' v'
  root : own' t = own t

theorem Within.refl : Within t own v own v := ⟨.refl, rfl⟩

theorem Within.trans (first : Within t own v own' v') (second : Within t own' v' own'' v'') :
    Within t own v own'' v'' :=
  ⟨first.touches.trans second.touches, second.root.trans first.root⟩

theorem Within.single {o : Owner} (keeps : Keeps v v' (· ≠ n)) (before : Avail t own n)
    (after : Avail t (Function.update own n o) n) (apart : t ≠ n) :
    Within t own v (Function.update own n o) v' :=
  ⟨.single keeps before after, Function.update_of_ne apart _ _⟩

theorem Within.write (keeps : Keeps v v' (· ≠ n)) (before : Avail t own n) :
    Within t own v own v' := ⟨.write keeps before, rfl⟩

/-- The owner is a page inside table `s`. -/
def Owner.under (s : ℕ) : Owner → Prop
  | .l1 r _ => r = s
  | .l0 r _ _ => r = s
  | .user r _ => r = s
  | _ => False

/-- A page of table `s` is no page of table `t`. -/
theorem not_avail_of_under {s : ℕ} (other : s ≠ t) (root : ¬ (own t).under s)
    (inner : (own n).under s) : ¬ Avail t own n := by
  rintro (rfl | inside)
  · exact root inner
  · cases tag : own n <;> simp_all [Owner.under]

theorem not_avail_root {s p : ℕ} (other : s ≠ t) (root : own s = .root p) : ¬ Avail t own s := by
  rintro (same | inside)
  · exact other same
  · simp [root] at inside

theorem not_avail_trapframe {p q : ℕ} (root : own t = .root p) (here : own n = .trapframe q) :
    ¬ Avail t own n := by
  rintro (rfl | inside)
  · simp [root] at here
  · simp [here] at inside

/-- Work on table `t` neither adds to table `s` nor takes from it. -/
theorem Touches.under {s : ℕ} {o : Owner} (within : Touches t own v own' v') (other : s ≠ t)
    (root : ¬ (own t).under s) (root' : ¬ (own' t).under s) (inner : o.under s) :
    own' n = o ↔ own n = o := by
  constructor
  · rintro rfl
    exact (within.back (not_avail_of_under other root' inner)).1
  · rintro rfl
    exact (within.keep (not_avail_of_under other root inner)).1

section Other

variable {s : ℕ} (tree : Tree v.mem own s) (within : Touches t own v own' v') (other : s ≠ t)
  (root : ¬ (own t).under s) (root' : ¬ (own' t).under s)

include tree within other root root'

/-- Work on one table leaves every other table as it was. -/
theorem Tree.elsewhere : Tree v'.mem own' s := by
  obtain ⟨p, top⟩ := tree.root
  have rootKept := within.keep (not_avail_root other top)
  refine tree.congr rootKept.1 ?_ ?_ ?_
  · exact fun n a => within.under (o := .l1 s a) other root root' rfl
  · exact fun n a b => within.under (o := .l0 s a b) other root root' rfl
  · rintro n (rfl | ⟨a, inner⟩)
    · exact rootKept.2
    · exact (within.keep (not_avail_of_under other root (by rw [inner]; rfl))).2

theorem Tree.leaf_other (small : u < 2 ^ 27) : leaf v'.mem s u = leaf v.mem s u := by
  refine tree.leaf_congr (tree.elsewhere within other root root') ?_ ?_ small
  · intro n i j here
    exact ⟨(within.under (o := .l0 s i j) other root root' rfl).mpr here,
      (within.keep (not_avail_of_under other root (by rw [here]; rfl))).2⟩
  · intro n i j here
    exact .inl ((within.under (o := .l0 s i j) other root root' rfl).mp here)

end Other

/-- Hanging a new page of zeros into the root. -/
theorem Tree.addL1 (tree : Tree mem own t) (small : i < 512) (none : ∀ n, own n ≠ .l1 t i)
    (free : own m = .free) (zero : ∀ k < 512, mem' (512 * m + k) = 0)
    (entry : mem' (512 * t + i) = m * 1024 + 1)
    (same : ∀ w, w / 512 ≠ m → w ≠ 512 * t + i → mem' w = mem w) :
    Tree mem' (Function.update own m (.l1 t i)) t := by
  obtain ⟨p, top⟩ := tree.root
  have apart : t ≠ m := by
    rintro rfl
    simp [free] at top
  have old : ∀ n o, own n = o → o ≠ .free → Function.update own m (.l1 t i) n = o := by
    intro n o here used
    have away : n ≠ m := by
      rintro rfl
      exact used (here.symm.trans free)
    rw [Function.update_of_ne away, here]
  have back : ∀ n a b, Function.update own m (.l1 t i) n = .l0 t a b ↔ own n = .l0 t a b := by
    intro n a b
    by_cases here : n = m
    · subst here
      simp [free]
    · rw [Function.update_of_ne here]
  constructor
  · exact ⟨p, old t _ top (by simp)⟩
  · intro a inside
    by_cases here : a = i
    · subst here
      refine .inr ⟨m, entry, ?_⟩
      intro n
      by_cases at_ : n = m
      · subst at_
        simp
      · simp [Function.update_of_ne at_, at_, none n]
    · rw [same _ (by omega) (by omega)]
      refine (tree.upper a inside).congr ?_
      intro n
      by_cases at_ : n = m
      · subst at_
        simp [free, Ne.symm here]
      · rw [Function.update_of_ne at_]
  · intro a n here b inside
    by_cases at_ : n = m
    · subst at_
      refine .inl ⟨zero b inside, ?_⟩
      intro m' below
      obtain rfl : a = i := by simpa using here.symm
      obtain ⟨n', upper⟩ := tree.parent a b m' ((back m' a b).mp below)
      exact none n' upper
    · rw [Function.update_of_ne at_] at here
      have away : n ≠ t := by
        rintro rfl
        simp [top] at here
      rw [same _ (by omega) (by omega)]
      exact (tree.lower a n here b inside).congr fun m' => (back m' a b).symm
  · intro a b m' here
    obtain ⟨n, upper⟩ := tree.parent a b m' ((back m' a b).mp here)
    exact ⟨n, old n _ upper (by simp)⟩
  · intro a n here
    by_cases at_ : n = m
    · subst at_
      obtain rfl : i = a := by simpa using here
      exact small
    · rw [Function.update_of_ne at_] at here
      exact tree.l1_lt a n here
  · exact fun a b m' here => tree.l0_lt a b m' ((back m' a b).mp here)

/-- Hanging a new page of zeros into an inner page. -/
theorem Tree.addL0 (tree : Tree mem own t) (small : j < 512) (inner : own n = .l1 t i)
    (none : ∀ m, own m ≠ .l0 t i j)
    (free : own m = .free) (zero : ∀ k < 512, mem' (512 * m + k) = 0)
    (entry : mem' (512 * n + j) = m * 1024 + 1)
    (same : ∀ w, w / 512 ≠ m → w ≠ 512 * n + j → mem' w = mem w) :
    Tree mem' (Function.update own m (.l0 t i j)) t := by
  obtain ⟨p, top⟩ := tree.root
  have apart : n ≠ m := by
    rintro rfl
    simp [free] at inner
  have away : n ≠ t := by
    rintro rfl
    simp [top] at inner
  have apart' : t ≠ m := by
    rintro rfl
    simp [free] at top
  have upper : ∀ n a, Function.update own m (.l0 t i j) n = .l1 t a ↔ own n = .l1 t a := by
    intro n a
    by_cases here : n = m
    · subst here
      simp [free]
    · rw [Function.update_of_ne here]
  constructor
  · exact ⟨p, by rw [Function.update_of_ne apart', top]⟩
  · intro a inside
    rw [same _ (by omega) (by omega)]
    exact (tree.upper a inside).congr fun n => (upper n a).symm
  · intro a n' here b inside
    have here' := (upper n' a).mp here
    have used : n' ≠ m := by
      rintro rfl
      simp [free] at here'
    by_cases at_ : n' = n ∧ b = j
    · obtain ⟨rfl, rfl⟩ := at_
      obtain rfl : a = i := by simpa [here'] using inner
      refine .inr ⟨m, entry, ?_⟩
      intro m'
      by_cases here : m' = m
      · subst here
        simp
      · simp [Function.update_of_ne here, here, none m']
    · rw [same _ (by omega) (by omega)]
      refine (tree.lower a n' here' b inside).congr ?_
      intro m'
      by_cases here : m' = m
      · subst here
        have other : ¬ (a = i ∧ b = j) := by
          rintro ⟨rfl, rfl⟩
          exact at_ ⟨(tree.upper a (tree.l1_lt a n' here')).unique here' inner, rfl⟩
        simp only [free, Function.update_self, Owner.l0.injEq, true_and, reduceCtorEq, false_iff]
        rintro ⟨rfl, rfl⟩
        exact other ⟨rfl, rfl⟩
      · rw [Function.update_of_ne here]
  · intro a b m' here
    by_cases at_ : m' = m
    · subst at_
      obtain ⟨rfl, rfl⟩ : i = a ∧ j = b := by simpa using here
      exact ⟨n, (upper n i).mpr inner⟩
    · rw [Function.update_of_ne at_] at here
      obtain ⟨n', above⟩ := tree.parent a b m' here
      exact ⟨n', (upper n' a).mpr above⟩
  · exact fun a n' here => tree.l1_lt a n' ((upper n' a).mp here)
  · intro a b m' here
    by_cases at_ : m' = m
    · subst at_
      obtain ⟨rfl, rfl⟩ : i = a ∧ j = b := by simpa using here
      exact small
    · rw [Function.update_of_ne at_] at here
      exact tree.l0_lt a b m' here

/-- Writing a leaf entry keeps the tree. -/
theorem Tree.setLeaf (tree : Tree mem own t) (here : own m = .l0 t i j)
    (same : ∀ w, w / 512 ≠ m → mem' w = mem w) : Tree mem' own t := by
  obtain ⟨p, top⟩ := tree.root
  refine tree.congr rfl (fun _ _ => Iff.rfl) (fun _ _ _ => Iff.rfl) ?_
  intro n inner k inside
  have away : n ≠ m := by
    rintro rfl
    rcases inner with rfl | ⟨a, inner⟩
    · simp [here] at top
    · simp [here] at inner
  exact same _ (by omega)

/-- Writing a leaf entry changes that leaf and no other. -/
theorem Tree.leaf_setLeaf (tree : Tree mem own t) (tree' : Tree mem' own t) {x : ℕ}
    (here : own m = .l0 t (u / 512 / 512) (u / 512 % 512)) (entry : mem' (512 * m + u % 512) = x)
    (same : ∀ w, w ≠ 512 * m + u % 512 → mem' w = mem w) {a : ℕ} (small : a < 2 ^ 27) :
    leaf mem' t a = if a = u then x else leaf mem t a := by
  by_cases at_ : a = u
  · subst at_
    rw [tree'.leaf_l0 here, entry, if_pos rfl]
  · rw [if_neg at_]
    by_cases bottom : ∃ n, own n = .l0 t (a / 512 / 512) (a / 512 % 512)
    · obtain ⟨n, bottom⟩ := bottom
      rw [tree.leaf_l0 bottom, tree'.leaf_l0 bottom]
      refine same _ ?_
      intro clash
      obtain rfl : n = m := by omega
      have place := bottom.symm.trans here
      simp only [Owner.l0.injEq, true_and] at place
      omega
    · rw [tree.leaf_none small (not_exists.mp bottom), tree'.leaf_none small (not_exists.mp bottom)]

end HaloOS
