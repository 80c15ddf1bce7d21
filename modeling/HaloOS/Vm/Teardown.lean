import HaloOS.Vm.Uvm

/-! Taking a page table down: `freewalk` returns every page of the tree to the allocator,
and `proc_freepagetable` empties the tree before that. -/

namespace HaloOS

open Lib

variable {L : Layout} {own own' : ℕ → Owner} {v v' : Vm} {l l' : List ℕ} {t n m i j k u a f : ℕ}
  {top : ℕ → ℕ} {E : Stop → Prop}

/-- The pages in `P` have been freed, the others have their owners still. -/
def Freed (P : ℕ → Prop) (own own' : ℕ → Owner) : Prop :=
  (∀ x, P x → own' x = .free) ∧ ∀ x, ¬ P x → own' x = own x

/-- A computation that frees the pages in `P` and writes to no others. -/
def Frees (L : Layout) (m : Mio Unit) (v : Vm) (own : ℕ → Owner) (P : ℕ → Prop)
    (E : Stop → Prop) : Prop :=
  Sat m v E fun _ s => ∃ own' l', Pool L s own' l' ∧ Freed P own own' ∧ Keeps v s fun x => ¬ P x

theorem freeEntries_rule {sub : ℕ → Mio Unit} {I : ℕ → Vm → Prop}
    (entry : ∀ i < 512, ∀ v, I i v → (v.mem (512 * n + i) = 0 ∧ I (i + 1) v) ∨
      ∃ c, v.mem (512 * n + i) = c * 1024 + 1 ∧ c < 557056 ∧
        Sat (sub (PGSIZE * c)) v E fun _ s => I (i + 1) (s.store (PGSIZE * n + 8 * i) 0))
    {count : ℕ} (total : i + count = 512) (start : I i v) :
    Sat (freeEntries sub (PGSIZE * n) count i) v E fun _ s => I 512 s := by
  induction count generalizing i v with
  | zero =>
    obtain rfl : i = 512 := by omega
    exact Sat.pure start
  | succ count ih =>
    unfold freeEntries
    refine Sat.bind (Sat.gets (Q := fun e s => e = v.mem (512 * n + i) ∧ v = s)
      ⟨load_entry v n i, rfl⟩) ?_
    rintro _ _ ⟨rfl, rfl⟩
    rcases entry i (by omega) v start with ⟨zero, next⟩ | ⟨c, pointer, small, run⟩
    · dsimp only
      rw [zero, if_neg (by simp)]
      exact Sat.bind (Sat.stopIf (Q := fun _ s => I (i + 1) s) (fun bad => by simp at bad)
        fun _ => next) fun _ s next => ih (by omega) next
    · dsimp only
      rw [pointer, if_pos ⟨pointer_valid c, by rw [entry_and c (by decide)]; decide⟩,
        entry_page small (by omega)]
      refine Sat.bind run fun _ s next => ?_
      exact Sat.bind (Sat.update (Q := fun _ s => I (i + 1) s) next) fun _ s next =>
        ih (by omega) next

section Node

variable {d : ℕ} {child : ℕ → ℕ → Prop} {below : ℕ → ℕ → Prop}

/-- `freewalk` at a page whose entries lead to disjoint subtrees frees the page and all
of them. -/
theorem freewalk_node (child below : ℕ → ℕ → Prop) (pool : Pool L v own l) (used : own n ≠ .free ∧ own n ≠ .kernel)
    (slots : ∀ j < 512, Slot (v.mem (512 * n + j)) (child j))
    (owned : ∀ j c, child j c → own c ≠ .kernel)
    (occupied : ∀ j x, below j x → ∃ c, child j c) (outside : ∀ j, ¬ below j n)
    (disjoint : ∀ i j x, below i x → below j x → i = j)
    (sub : ∀ j < 512, ∀ c, child j c → ∀ s own' l', Pool L s own' l' →
      (∀ x, below j x → own' x = own x) → Keeps v s (below j) →
      Frees L (freewalk L d (PGSIZE * c)) s own' (below j) E) :
    Frees L (freewalk L (d + 1) (PGSIZE * n)) v own (fun x => x = n ∨ ∃ j < 512, below j x) E := by
  unfold Frees freewalk
  refine Sat.bind (freeEntries_rule (I := fun i s => ∃ own' l', Pool L s own' l' ∧
    Freed (fun x => ∃ j < i, below j x) own own' ∧
    Keeps v s (fun x => x ≠ n ∧ ¬ ∃ j < i, below j x) ∧
    ∀ j, i ≤ j → j < 512 → s.mem (512 * n + j) = v.mem (512 * n + j)) ?_ (Nat.zero_add 512) ?_) ?_
  · rintro i small s ⟨own', l', pool', freed, keeps, later⟩
    rcases slots i small with ⟨zero, none⟩ | ⟨c, pointer, only⟩
    · refine .inl ⟨(later i (le_refl i) small).trans zero, own', l', pool', ?_⟩
      have same : (fun x => ∃ j < i, below j x) = fun x => ∃ j < i + 1, below j x := by
        funext x
        refine propext ⟨fun ⟨j, less, here⟩ => ⟨j, by omega, here⟩, ?_⟩
        rintro ⟨j, less, here⟩
        have away : j ≠ i := by
          rintro rfl
          obtain ⟨c, occupied⟩ := occupied j x here
          exact none c occupied
        exact ⟨j, by omega, here⟩
      refine ⟨same ▸ freed, ?_, fun j low => later j (by omega)⟩
      intro w kept
      exact keeps w ⟨kept.1, fun ⟨j, less, here⟩ => kept.2 ⟨j, by omega, here⟩⟩
    · have here : child i c := (only c).mpr rfl
      refine .inr ⟨c, (later i (le_refl i) small).trans pointer,
        (pool.managed c (owned i c here)).lt, ?_⟩
      have fresh : ∀ x, below i x → ¬ ∃ j < i, below j x := by
        rintro x at_ ⟨j, less, other⟩
        have same := disjoint i j x at_ other
        omega
      have run := sub i small c here s own' l' pool' (fun x at_ => freed.2 x (fresh x at_)) ?_
      · refine Sat.mono run ?_
        rintro _ s' ⟨own'', l'', pool'', freed', keeps'⟩
        have apart : ¬ below i n := outside i
        have notYet : ¬ ∃ j < i, below j n := fun ⟨j, _, at_⟩ => outside j at_
        have busy : own'' n ≠ .free := by
          rw [freed'.2 n apart, freed.2 n notYet]
          exact used.1
        refine ⟨own'', l'', pool''.store busy small 0, ⟨?_, ?_⟩, ?_, ?_⟩
        · rintro x ⟨j, less, at_⟩
          by_cases last : below i x
          · exact freed'.1 x last
          · rw [freed'.2 x last]
            refine freed.1 x ⟨j, ?_, at_⟩
            by_contra high
            obtain rfl : j = i := by omega
            exact last at_
        · intro x none
          have last : ¬ below i x := fun at_ => none ⟨i, by omega, at_⟩
          rw [freed'.2 x last]
          exact freed.2 x fun ⟨j, less, at_⟩ => none ⟨j, by omega, at_⟩
        · intro w kept
          rw [keeps_store s' small 0 w kept.1,
            keeps' w fun at_ => kept.2 ⟨i, by omega, at_⟩]
          exact keeps w ⟨kept.1, fun ⟨j, less, at_⟩ => kept.2 ⟨j, by omega, at_⟩⟩
        · intro j low high
          have place : (512 * n + j) / 512 = n := by omega
          rw [mem_store_of_ne s' (by omega), keeps' (512 * n + j) (by rwa [place])]
          exact later j (by omega) high
      · intro w at_
        refine keeps w ⟨?_, fresh _ at_⟩
        rintro same
        rw [same] at at_
        exact outside i at_
  · refine ⟨own, l, pool, ⟨fun x ⟨j, less, _⟩ => absurd less (by omega), fun _ _ => rfl⟩,
      fun _ _ => rfl, fun _ _ _ => rfl⟩
  · rintro _ s ⟨own', l', pool', freed, keeps, -⟩
    have notBelow : ¬ ∃ j < 512, below j n := fun ⟨j, _, at_⟩ => outside j at_
    have same := freed.2 n notBelow
    refine (kfree_spec pool' (pool.managed n used.2) (by rw [same]; exact used.1)).mono ?_
    rintro _ s' ⟨keeps', pool''⟩
    refine ⟨_, _, pool'', ⟨?_, ?_⟩, ?_⟩
    · rintro x (rfl | at_)
      · exact Function.update_self ..
      · by_cases here : x = n
        · subst here
          exact Function.update_self ..
        · rw [Function.update_of_ne here]
          exact freed.1 x at_
    · intro x none
      rw [Function.update_of_ne fun here => none (.inl here)]
      exact freed.2 x fun at_ => none (.inr at_)
    · intro w none
      rw [keeps' w fun here => none (.inl here)]
      exact keeps w ⟨fun here => none (.inl here), fun at_ => none (.inr at_)⟩

end Node

theorem Frees.congr {P Q : ℕ → Prop} {m : Mio Unit} (frees : Frees L m v own P E)
    (same : ∀ x, P x ↔ Q x) : Frees L m v own Q E := by
  obtain rfl : P = Q := funext fun x => propext (same x)
  exact frees

/-- `freewalk` of a table without leaves frees its page-table pages. -/
theorem Tree.freewalk {d : ℕ} (tree : Tree v.mem own t) (pool : Pool L v own l)
    (empty : ∀ a < 2 ^ 27, leaf v.mem t a = 0) :
    Frees L (freewalk L (d + 3) (PGSIZE * t)) v own
      (fun x => x = t ∨ ∃ i, own x = .l1 t i ∨ ∃ j, own x = .l0 t i j) E := by
  have zero : ∀ m i j, own m = .l0 t i j → ∀ k < 512, v.mem (512 * m + k) = 0 := by
    intro m i j bottom k inside
    obtain ⟨n, inner⟩ := tree.parent i j m bottom
    have high := tree.l1_lt i n inner
    have low := tree.l0_lt i j m bottom
    have place : (i * 512 + j) * 512 + k < 2 ^ 27 := by omega
    have first : ((i * 512 + j) * 512 + k) / 512 / 512 = i := by omega
    have second : ((i * 512 + j) * 512 + k) / 512 % 512 = j := by omega
    have third : ((i * 512 + j) * 512 + k) % 512 = k := by omega
    have entry := tree.leaf_l0 (u := (i * 512 + j) * 512 + k) (m := m) (by rw [first, second, bottom])
    rw [empty _ place, third] at entry
    exact entry.symm
  obtain ⟨p, root⟩ := tree.root
  -- the three levels, from the bottom up
  have bottomRun : ∀ m i j, own m = .l0 t i j → ∀ s own' l', Pool L s own' l' →
      (∀ x, own x = .l0 t i j → own' x = own x) → Keeps v s (fun x => own x = .l0 t i j) →
      Frees L (HaloOS.freewalk L (d + 1) (PGSIZE * m)) s own' (fun x => own x = .l0 t i j) E := by
    intro m i j bottom s own' l' pool' same keeps
    have owner : own' m = .l0 t i j := (same m bottom).trans bottom
    obtain ⟨n, inner⟩ := tree.parent i j m bottom
    have unique : ∀ x, own x = .l0 t i j ↔ x = m := by
      intro x
      refine ⟨fun here => ?_, fun here => here ▸ bottom⟩
      exact (tree.lower i n inner j (tree.l0_lt i j m bottom)).unique here bottom
    refine (freewalk_node (fun _ _ => False) (fun _ _ => False) pool'
      (by simp [owner]) ?_ (by simp) (by simp) (by simp) (by simp) (by simp)).congr ?_
    · intro k inside
      refine .inl ⟨?_, by simp⟩
      rw [keeps.at bottom inside]
      exact zero m i j bottom k inside
    · intro x
      simp [unique x]
  have middleRun : ∀ n i, own n = .l1 t i → ∀ s own' l', Pool L s own' l' →
      (∀ x, (own x = .l1 t i ∨ ∃ j, own x = .l0 t i j) → own' x = own x) →
      Keeps v s (fun x => own x = .l1 t i ∨ ∃ j, own x = .l0 t i j) →
      Frees L (HaloOS.freewalk L (d + 2) (PGSIZE * n)) s own'
        (fun x => own x = .l1 t i ∨ ∃ j, own x = .l0 t i j) E := by
    intro n i inner s own' l' pool' same keeps
    have owner : own' n = .l1 t i := (same n (.inl inner)).trans inner
    have unique : ∀ x, own x = .l1 t i ↔ x = n := by
      intro x
      refine ⟨fun here => ?_, fun here => here ▸ inner⟩
      exact (tree.upper i (tree.l1_lt i n inner)).unique here inner
    refine (freewalk_node (fun j x => own x = .l0 t i j)
      (fun j x => own x = .l0 t i j) pool' (by simp [owner]) ?_ ?_ ?_ ?_ ?_ ?_).congr ?_
    · intro j inside
      rw [keeps.at (.inl inner) inside]
      exact tree.lower i n inner j inside
    · intro j c here
      rw [same c (.inr ⟨j, here⟩), here]
      simp
    · exact fun j x here => ⟨x, here⟩
    · simp [inner]
    · intro j j' x here here'
      simpa using here.symm.trans here'
    · intro j inside c here s' own'' l'' pool'' same' keeps'
      refine bottomRun c i j here s' own'' l'' pool'' ?_ ?_
      · intro x at_
        rw [same' x at_, same x (.inr ⟨j, at_⟩)]
      · exact (keeps.mono fun x at_ => .inr ⟨j, at_⟩).trans keeps'
    · intro x
      rw [unique x]
      refine or_congr Iff.rfl ⟨fun ⟨j, _, here⟩ => ⟨j, here⟩, fun ⟨j, here⟩ => ⟨j, ?_, here⟩⟩
      exact tree.l0_lt i j x here
  refine (freewalk_node (fun i x => own x = .l1 t i)
    (fun i x => own x = .l1 t i ∨ ∃ j, own x = .l0 t i j) pool (by simp [root])
    tree.upper ?_ ?_ ?_ ?_ ?_).congr ?_
  · intro i c here
    simp [here]
  · rintro i x (here | ⟨j, here⟩)
    · exact ⟨x, here⟩
    · exact tree.parent i j x here
  · rintro i (here | ⟨j, here⟩) <;> simp [root] at here
  · rintro i i' x (here | ⟨j, here⟩) (here' | ⟨j', here'⟩)
    · simpa using here.symm.trans here'
    · simp [here] at here'
    · simp [here] at here'
    · have both := here.symm.trans here'
      simp only [Owner.l0.injEq, true_and] at both
      exact both.1
  · intro i inside c here s own' l' pool' same keeps
    exact middleRun c i here s own' l' pool' same keeps
  · intro x
    refine or_congr Iff.rfl ⟨fun ⟨i, _, here⟩ => ⟨i, here⟩, fun ⟨i, here⟩ => ⟨i, ?_, here⟩⟩
    rcases here with here | ⟨j, here⟩
    · exact tree.l1_lt i x here
    · obtain ⟨n, inner⟩ := tree.parent i j x here
      exact tree.l1_lt i n inner

/-- The leaves above user memory: the trampoline page, and the trapframe in page `f`. -/
def topLeaves (L : Layout) (f : ℕ) : ℕ → ℕ :=
  Function.update (Function.update (fun _ => 0) TRAMPOLINEPG (L.trampoline / PGSIZE * 1024 + 11))
    TRAPFRAMEPG (f * 1024 + 7)

theorem topLeaves_topOnly (L : Layout) (f : ℕ) : TopOnly (topLeaves L f) := by
  intro a below
  have first : a ≠ TRAPFRAMEPG := by omega
  have second : a ≠ TRAMPOLINEPG := by
    simp only [TRAPFRAMEPG, TRAMPOLINEPG] at *
    omega
  rw [topLeaves, Function.update_of_ne first, Function.update_of_ne second]

theorem topLeaves_trampoline (L : Layout) (f : ℕ) :
    topLeaves L f TRAMPOLINEPG = L.trampoline / PGSIZE * 1024 + 11 := by
  have apart : TRAMPOLINEPG ≠ TRAPFRAMEPG := by decide
  rw [topLeaves, Function.update_of_ne apart, Function.update_self]

theorem topLeaves_trapframe (L : Layout) (f : ℕ) :
    topLeaves L f TRAPFRAMEPG = f * 1024 + 7 := by
  rw [topLeaves, Function.update_self]

/-- `proc_freepagetable` of an intact address space gives back everything but the
trapframe. -/
theorem Space.procFreepagetable {sz : ℕ}
    (space : Space L v own l t (· < pages sz) (topLeaves L f)) (settled : Settled own t) :
    Sat (procFreepagetable L (PGSIZE * t) sz) v E fun _ s =>
      ∃ own' l', Pool L s own' l' ∧ Touches t own v own' s ∧ own' t = .free ∧
        ∀ n, ¬ (own' n).under t ∧ own' n ≠ .held t := by
  have few := space.maps.pages_le (n := pages sz) space.pool fun _ below => below
  have above : ∀ u, TRAPFRAMEPG ≤ u → ¬ u < pages sz := by
    intro u high
    simp only [TRAPFRAMEPG] at high
    omega
  unfold HaloOS.procFreepagetable
  rw [show TRAMPOLINE = PGSIZE * TRAMPOLINEPG by rfl, show TRAPFRAME = PGSIZE * TRAPFRAMEPG by rfl,
    uvmunmap_eq (by decide), uvmunmap_eq (by decide)]
  refine Sat.bind (space.unmapTop (u := TRAMPOLINEPG) (by decide) (above _ (by decide))
    (topLeaves_trampoline L f) (by decide) (by decide) (by decide)) ?_
  rintro _ v₁ ⟨l₁, space₁, within₁⟩
  have apart : TRAPFRAMEPG ≠ TRAMPOLINEPG := by decide
  refine Sat.bind (space₁.unmapTop (u := TRAPFRAMEPG) (by decide) (above _ (le_refl _))
    (by rw [Function.update_of_ne apart]; exact topLeaves_trapframe L f)
    (by decide) (by decide) (by decide)) ?_
  rintro _ v₂ ⟨l₂, space₂, within₂⟩
  have bare : Function.update (Function.update (topLeaves L f) TRAMPOLINEPG 0) TRAPFRAMEPG 0 =
      fun _ => 0 := by
    funext a
    by_cases one : a = TRAPFRAMEPG
    · rw [one, Function.update_self]
    · by_cases two : a = TRAMPOLINEPG
      · rw [Function.update_of_ne one, two, Function.update_self]
      · rw [Function.update_of_ne one, Function.update_of_ne two, topLeaves,
          Function.update_of_ne one, Function.update_of_ne two]
  rw [bare] at space₂
  unfold uvmfree
  rw [PGROUNDUP_eq (by omega), Nat.mul_div_cancel_left _ (by decide : 0 < PGSIZE),
    show (0 : ℕ) = PGSIZE * 0 by rfl, uvmunmap_eq (by omega)]
  refine Sat.bind (Q := fun _ s => ∃ own' l', Space L s own' l' t (fun _ => False) (fun _ => 0) ∧
    Settled own' t ∧ Within t own v own' s) (Sat.onlyIf (fun _ => ?_) fun small => ?_) ?_
  · refine (space₂.unmapLoop settled (fun a _ below => by omega) (fun _ _ _ => rfl)).mono ?_
    rintro _ v₃ ⟨own₃, l₃, space₃, settled₃, within₃⟩
    refine ⟨own₃, l₃, ⟨space₃.pool, space₃.tree, space₃.maps.set_congr fun a => ?_⟩, settled₃,
      (within₁.trans within₂).trans within₃⟩
    exact ⟨fun old => old.2 ⟨by omega, by omega⟩, False.elim⟩
  · have zero : pages sz = 0 := by
      simp only [pages, PGSIZE] at *
      omega
    refine ⟨own, l₂, ⟨space₂.pool, space₂.tree, space₂.maps.set_congr fun a => ?_⟩, settled,
      within₁.trans within₂⟩
    exact ⟨fun below => by omega, False.elim⟩
  · rintro _ v₃ ⟨own₃, l₃, space₃, settled₃, within₃⟩
    refine Sat.mono (space₃.tree.freewalk (d := 29) space₃.pool
      fun a small => space₃.maps.other a small id) ?_
    rintro _ v₄ ⟨own₄, l₄, pool₄, freed, keeps⟩
    have inner : ∀ n, (own₃ n).under t → ∃ i, own₃ n = .l1 t i ∨ ∃ j, own₃ n = .l0 t i j := by
      intro n under
      cases owner : own₃ n with
      | l1 s i =>
        obtain rfl : s = t := by simpa [owner, Owner.under] using under
        exact ⟨i, .inl rfl⟩
      | l0 s i j =>
        obtain rfl : s = t := by simpa [owner, Owner.under] using under
        exact ⟨i, .inr ⟨j, rfl⟩⟩
      | user s u =>
        obtain rfl : s = t := by simpa [owner, Owner.under] using under
        exact absurd (space₃.maps.user n u owner).1 id
      | _ => simp [owner, Owner.under] at under
    refine ⟨own₄, l₄, pool₄, within₃.touches.trans ?_, freed.1 t (.inl rfl), ?_⟩
    · intro n
      by_cases gone : n = t ∨ ∃ i, own₃ n = .l1 t i ∨ ∃ j, own₃ n = .l0 t i j
      · refine .inl ⟨?_, .inr (by rw [freed.1 n gone]; trivial)⟩
        rcases gone with rfl | ⟨i, here | ⟨j, here⟩⟩
        · exact .inl rfl
        · exact .inr (by rw [here])
        · exact .inr (by rw [here])
      · refine .inr ⟨freed.2 n gone, fun k inside => ?_⟩
        exact keeps.at gone inside
    · intro n
      by_cases gone : n = t ∨ ∃ i, own₃ n = .l1 t i ∨ ∃ j, own₃ n = .l0 t i j
      · rw [freed.1 n gone]
        exact ⟨id, by simp⟩
      · rw [freed.2 n gone]
        exact ⟨fun under => gone (.inr (inner n under)), settled₃ n⟩

end HaloOS
