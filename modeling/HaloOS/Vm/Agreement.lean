import HaloOS.Vm.Cloning

/-! The books of owners and the radix trees describe the same tables: the pages that the books enter for
a table make it a radix tree, with the same entries. What `Vm.Cloning` says of `uvmcopy` so holds for
the address spaces of processes. -/

namespace HaloOS

open Lib

variable {L : Layout} {v v' : Vm} {own : ℕ → Owner} {l : List ℕ} {s t u f : ℕ} {S : ℕ → Prop} {top : ℕ → ℕ}

/-- The pages that the table itself takes. -/
def tablePages (own : ℕ → Owner) (t : ℕ) : Set ℕ :=
  {n | n = t ∨ (∃ i, own n = .l1 t i) ∨ ∃ i j, own n = .l0 t i j}

/-- What hangs at a word: nothing, or the one page that the books enter there. -/
theorem Slot.hangs {w : ℕ} {P : ℕ → Prop} (slot : Slot w P) (managed : ∀ n, P n → Managed L n) :
    (∃ n, P n ∧ (∀ m, P m ↔ m = n) ∧ pteCoding.valid w = true ∧ pteCoding.pointer w ∧ pteCoding.child w = n) ∨
      (pteCoding.valid w = false ∧ ∀ n, ¬ P n) := by
  rcases slot with ⟨rfl, none⟩ | ⟨n, rfl, only⟩
  · exact .inr ⟨by decide, none⟩
  · have here : P n := (only n).mpr rfl
    refine .inl ⟨n, here, only, (valid_iff _).mpr ?_, pointer_entry n, child_pointer (managed n here)⟩
    rw [entry_and n (by decide)]
    decide

theorem Tree.radix (tree : Tree v.mem own t) (pool : Pool L v own l) :
    Radix.Tree pteCoding v.mem 2 t (tablePages own t) := by
  obtain ⟨p, root⟩ := tree.root
  have managed : ∀ n, own n ≠ .kernel → Managed L n := pool.managed
  refine ⟨fun i => {n | own n = .l1 t i ∨ ∃ j, own n = .l0 t i j}, fun m => ?_, fun i _ => ?_, ?_, fun i small => ?_⟩
  · constructor
    · rintro (rfl | ⟨i, inner⟩ | ⟨i, j, bottom⟩)
      · exact .inl rfl
      · exact .inr ⟨i, tree.l1_lt i m inner, .inl inner⟩
      · obtain ⟨n, inner⟩ := tree.parent i j m bottom
        exact .inr ⟨i, tree.l1_lt i n inner, .inr ⟨j, bottom⟩⟩
    · rintro (rfl | ⟨i, -, inner | ⟨j, bottom⟩⟩)
      · exact .inl rfl
      · exact .inr (.inl ⟨i, inner⟩)
      · exact .inr (.inr ⟨i, j, bottom⟩)
  · simp [root]
  · rintro i - j - differ m (inner | ⟨a, bottom⟩)
    · simp [inner, differ]
    · simp [bottom, differ]
  rcases (tree.upper i small).hangs (fun n here => managed n (by simp [here])) with
    ⟨n, inner, only, valid, pointer, child⟩ | ⟨invalid, none⟩
  · refine .inl ⟨valid, pointer, ?_⟩
    rw [pteCoding_fan, child]
    refine ⟨fun j => {m | own m = .l0 t i j}, fun m => ?_, fun j _ => by simp [inner], ?_, fun j low => ?_⟩
    · constructor
      · rintro (here | ⟨j, bottom⟩)
        · exact .inl ((only m).mp here)
        · exact .inr ⟨j, tree.l0_lt i j m bottom, bottom⟩
      · rintro (rfl | ⟨j, -, bottom⟩)
        · exact .inl inner
        · exact .inr ⟨j, bottom⟩
    · rintro j - k - differ m (bottom : own m = .l0 t i j)
      simp [bottom, differ]
    rcases (tree.lower i n inner j low).hangs (fun m here => managed m (by simp [here])) with
      ⟨m, bottom, only, valid, pointer, child⟩ | ⟨invalid, none⟩
    · refine .inl ⟨valid, pointer, ?_⟩
      rw [pteCoding_fan, child]
      exact only
    · exact .inr ⟨invalid, none⟩
  · refine .inr ⟨invalid, fun m => not_or.mpr ⟨none m, ?_⟩⟩
    rintro ⟨j, bottom⟩
    obtain ⟨n, inner⟩ := tree.parent i j m bottom
    exact none n inner

theorem Tree.table (tree : Tree v.mem own t) (pool : Pool L v own l) : PageTable L v t (tablePages own t) l := by
  obtain ⟨p, root⟩ := tree.root
  have used : ∀ n ∈ tablePages own t, own n ≠ .free ∧ own n ≠ .kernel := by
    rintro n (rfl | ⟨i, inner⟩ | ⟨i, j, bottom⟩)
    · simp [root]
    · simp [inner]
    · simp [bottom]
  refine ⟨⟨pool.links, pool.nodup, fun n free => ?_⟩, tree.radix pool, fun n free member => ?_, fun n member => ?_⟩
  · exact pool.managed n (by simp [(pool.free n).mp free])
  · exact (used n member).1 ((pool.free n).mp free)
  · exact (pool.managed n (used n member).2).pos

/-- The two read the same entries. -/
theorem Tree.value (tree : Tree v.mem own t) (pool : Pool L v own l) (small : u < 2 ^ 27) :
    Radix.value pteCoding v.mem 2 t u =
      if leaf v.mem t u &&& PTE_V = 0 then none else some (leaf v.mem t u) := by
  have both := (sv39_value (tree.radix pool) u).symm.trans (tree.sv39 pool small)
  cases entry : Radix.value pteCoding v.mem 2 t u with
  | none =>
    rw [entry] at both
    split at both
    · rw [if_pos ‹_›]
    · cases both
  | some pte =>
    rw [entry] at both
    split at both
    · cases both
    · rw [if_neg ‹_›]
      exact congrArg some (Prod.mk.inj (Option.some.inj both)).2

/-- A child without user pages can be given those of a parent. -/
theorem Space.copyReady {sz : ℕ} (space : Space L v own l t (fun _ => False) top) (clear : TopOnly top)
    (source : Source v own s (pages sz)) (other : s ≠ t) :
    CopyReady L v s (tablePages own s) t (tablePages own t) l sz := by
  obtain ⟨p, root⟩ := source.tree.root
  obtain ⟨q, root'⟩ := space.tree.root
  have parent := source.tree.table space.pool
  have child := space.tree.table space.pool
  obtain ⟨top₀, maps⟩ := source.maps
  have few := maps.pages_le (n := pages sz) space.pool fun _ below => below
  have low : ∀ a, a / PGSIZE < pages sz → a < MAXVA := by
    intro a below
    simp only [PGSIZE, MAXVA] at *
    omega
  refine ⟨parent, child, ?_, fun a below => ?_, fun a below => ?_⟩
  · rintro m (rfl | ⟨i, inner⟩ | ⟨i, j, bottom⟩)
    · simp [tablePages, root, other]
    · rintro (rfl | ⟨_, clash⟩ | ⟨_, _, clash⟩)
      · simp [root'] at inner
      · simp [inner, other] at clash
      · simp [inner] at clash
    · rintro (rfl | ⟨_, clash⟩ | ⟨_, _, clash⟩)
      · simp [root'] at bottom
      · simp [bottom] at clash
      · simp [bottom, other] at clash
  · obtain ⟨g, owner⟩ := maps.frame _ below
    obtain ⟨-, entry⟩ := maps.user g _ owner
    obtain ⟨flags, entry, low', valid, kind⟩ : ∃ flags, leaf v.mem s (a / PGSIZE) = g * 1024 + flags ∧
        flags < 1024 ∧ flags &&& PTE_V ≠ 0 ∧ flags ≠ PTE_V := by
      rcases entry with entry | entry
      · exact ⟨31, entry, by omega, by decide, by decide⟩
      · exact ⟨15, entry, by omega, by decide, by decide⟩
    have here := source.tree.value space.pool (u := a / PGSIZE) (by omega)
    rw [entry, entry_and g (by decide), if_neg valid] at here
    have frame : PTE2PA (g * 1024 + flags) / PGSIZE = g := by
      rw [entry_page (space.pool.managed g (by simp [owner])).lt low', page_number]
    refine ⟨_, (parent.lookup (low a below)).trans here, by rwa [entry_flags g low'], ?_, ?_, ?_⟩
    · rw [frame]
      simp [tablePages, owner]
      rintro rfl
      simp [root] at owner
    · rw [frame]
      simp [tablePages, owner]
      rintro rfl
      simp [root'] at owner
    · rw [frame, space.pool.free]
      simp [owner]
  · rw [child.lookup (low a below), space.tree.value space.pool (by omega),
      space.maps.other _ (by omega) not_false, clear _ (by simp only [TRAPFRAMEPG]; omega)]
    rfl

/-- `uvmcopy` into an empty table that returns 0: every page below `sz` reads through the child as through the
parent, with the same flags. -/
theorem Space.uvmcopy_same {sz : ℕ} {E : Stop → Prop} (space : Space L v own l t (fun _ => False) top)
    (clear : TopOnly top) (source : Source v own s (pages sz)) (other : s ≠ t) :
    Sat (HaloOS.uvmcopy L (PGSIZE * s) (PGSIZE * t) sz) v E fun ok v' =>
      ok = true → ∀ a, a / PGSIZE < pages sz → ∃ pte pte',
        lookup v (PGSIZE * s) a = some pte ∧ lookup v' (PGSIZE * t) a = some pte' ∧
        PTE_FLAGS pte' = PTE_FLAGS pte ∧ userLoad v' (PGSIZE * t) a = userLoad v (PGSIZE * s) a := by
  have ready := space.copyReady clear source other
  have first : Filled L v v t (tablePages own t) 0 (fun k => PTE_FLAGS (entryOf v s k)) (sourceWord v s) l [] [] l :=
    .refl ready.child
  refine (first.copyLoop (n := pages sz) ready (by simp)).mono ?_
  rintro ok v' ⟨frames, inner, l', filled, ⟨-, length⟩ | ⟨rfl, -⟩⟩ done a below
  · obtain ⟨pte, pte', found, found', -, flags, bytes⟩ := ready.same_bytes filled
      (List.getElem?_eq_getElem (by rw [length]; exact below)) below rfl
    exact ⟨pte, pte', found, found', flags, bytes⟩
  · cases done

end HaloOS
