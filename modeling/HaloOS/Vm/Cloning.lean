import HaloOS.Vm.Bytes
import HaloOS.Vm.Resize

/-! Copying user memory. `uvmcopy` gives the child a frame of its own for every page of the parent,
with the same contents and flags, or it gives every frame back. Afterwards the two tables share
no frame, and no sequence of stores carries a byte from one to the other. -/

namespace HaloOS

open Lib

variable {L : Layout} {v₀ v v' : Vm} {P S : Set ℕ} {s t u n a sz : ℕ} {l₀ l l' frames inner : List ℕ}
  {E : Stop → Prop}

/-- What `uvmcopy` is given: a parent table that maps its pages below `sz` to frames outside of both
tables and of the free list, and a child table that maps none of these pages. -/
structure CopyReady (L : Layout) (v : Vm) (s : ℕ) (P : Set ℕ) (t : ℕ) (S : Set ℕ) (l : List ℕ)
    (sz : ℕ) : Prop where
  parent : PageTable L v s P l
  child : PageTable L v t S l
  apart : ∀ m ∈ P, m ∉ S
  mapped : ∀ a, a / PGSIZE < pages sz → ∃ pte, lookup v (PGSIZE * s) a = some pte ∧
    PTE_FLAGS pte ≠ PTE_V ∧ PTE2PA pte / PGSIZE ∉ P ∧ PTE2PA pte / PGSIZE ∉ S ∧
    PTE2PA pte / PGSIZE ∉ l
  blank : ∀ a, a / PGSIZE < pages sz → lookup v (PGSIZE * t) a = none

/-- The entry of the parent for a page. -/
def entryOf (v : Vm) (s u : ℕ) : ℕ := (Radix.value pteCoding v.mem 2 s u).getD 0

/-- A word of the frame of a page of the parent. -/
def sourceWord (v : Vm) (s u j : ℕ) : ℕ := v.mem (512 * pteCoding.child (entryOf v s u) + j)

theorem flags_valid {pte : ℕ} (valid : pte &&& PTE_V ≠ 0) :
    PTE_FLAGS pte ||| PTE_V = PTE_FLAGS pte := by
  have odd : pte % 1024 % 2 = 1 := by
    rw [PTE_V, Nat.and_one_is_mod] at valid
    omega
  refine Nat.eq_of_testBit_eq fun i => ?_
  rw [PTE_FLAGS, PTE_V, Nat.testBit_or]
  cases i with
  | zero => simp [Nat.testBit_zero, odd]
  | succ i => simp [Nat.testBit_succ]

theorem CopyReady.low (ready : CopyReady L v s P t S l sz) : pages sz ≤ 2 ^ 26 := by
  by_contra high
  obtain ⟨pte, found, -⟩ := ready.mapped (PGSIZE * 2 ^ 26) (by rw [page_number]; omega)
  rw [lookup_eq ready.parent.pos ready.parent.tree, if_neg (by decide)] at found
  cases found

theorem CopyReady.entry (ready : CopyReady L v s P t S l sz) (below : u < pages sz) :
    Radix.value pteCoding v.mem 2 s u = some (entryOf v s u) ∧
      pteCoding.child (entryOf v s u) ∉ P ∧ pteCoding.child (entryOf v s u) ∉ S ∧
      pteCoding.child (entryOf v s u) ∉ l ∧ PTE_FLAGS (entryOf v s u) ≠ PTE_V ∧
      PTE_FLAGS (entryOf v s u) ||| PTE_V = PTE_FLAGS (entryOf v s u) := by
  have low := ready.low
  obtain ⟨pte, found, leaf, outside, away, used⟩ :=
    ready.mapped (PGSIZE * u) (by rwa [page_number])
  rw [ready.parent.lookup (pageVa_lt (by omega)), page_number] at found
  have entry : entryOf v s u = pte := by rw [entryOf, found, Option.getD_some]
  obtain ⟨w, -, valid, rfl⟩ := Radix.value_eq_some.mp found
  rw [entry]
  exact ⟨found, outside, away, used, leaf, flags_valid ((valid_iff _).mp valid)⟩

theorem CopyReady.blank_page (ready : CopyReady L v s P t S l sz) (below : u < pages sz) :
    Radix.value pteCoding v.mem 2 t u = none := by
  have low := ready.low
  have absent := ready.blank (PGSIZE * u) (by rwa [page_number])
  rwa [ready.child.lookup (pageVa_lt (by omega)), page_number] at absent

theorem mem_copyPage (v : Vm) (n src : ℕ) {j : ℕ} (small : j < 512) :
    (v.copyPage (PGSIZE * n) (PGSIZE * src)).mem (512 * n + j) = v.mem (512 * src + j) := by
  have page : (512 * n + j) / 512 = n := by omega
  have off : (512 * n + j) % 512 = j := by omega
  simp only [Vm.copyPage, page, off, page_number, page_words, if_true]

/-- The parent's pages are neither free nor the child's, so they keep their words. -/
theorem CopyReady.parent_same (ready : CopyReady L v₀ s P t S l₀ sz)
    (keeps : Keeps v₀ v fun m => m ∉ S ∧ m ∉ l₀) : ∀ w, w / 512 ∈ P → v.mem w = v₀.mem w :=
  fun w member =>
    keeps w ⟨ready.apart _ member, fun free => ready.parent.apart _ free member⟩

theorem CopyReady.parent_at {perms : ℕ → ℕ} {data : ℕ → ℕ → ℕ}
    (ready : CopyReady L v₀ s P t S l₀ sz)
    (mapped : Filled L v₀ v t S u perms data l₀ frames inner l) : PageTable L v s P l := by
  refine ⟨mapped.table.toFreeList, ready.parent.tree.congr (ready.parent_same mapped.keeps), ?_,
    ready.parent.pos⟩
  exact fun m member => ready.parent.apart m (mapped.ledger.mem_iff.mpr (by simp [member]))

/-- The loop of `uvmcopy`: it maps all its pages, or unmaps those it has mapped. -/
theorem Filled.copyLoop (ready : CopyReady L v₀ s P t S l₀ sz)
    (mapped : Filled L v₀ v t S 0 (fun k => PTE_FLAGS (entryOf v₀ s k)) (sourceWord v₀ s) l₀
      frames inner l)
    (count : frames.length + n = pages sz) :
    Sat (copyLoop L (PGSIZE * s) (PGSIZE * t) n (PGSIZE * frames.length)) v E fun ok v' =>
      ∃ frames' inner' l',
        Filled L v₀ v' t S 0 (fun k => PTE_FLAGS (entryOf v₀ s k)) (sourceWord v₀ s) l₀
          frames' inner' l' ∧
        ((ok = true ∧ frames'.length = pages sz) ∨ (ok = false ∧ frames' = [])) := by
  have low := ready.low
  induction n generalizing v frames inner l with
  | zero => exact Sat.pure ⟨frames, inner, l, mapped, .inl ⟨rfl, count⟩⟩
  | succ n ih =>
    have undo : ∀ v' inner' l',
        Filled L v₀ v' t S 0 (fun k => PTE_FLAGS (entryOf v₀ s k)) (sourceWord v₀ s) l₀
          frames inner' l' →
        Sat (do
          uvmunmap L (PGSIZE * t) 0 (PGSIZE * frames.length / PGSIZE) true
          pure false) v' E fun ok v' => ∃ frames' inner' l',
            Filled L v₀ v' t S 0 (fun k => PTE_FLAGS (entryOf v₀ s k)) (sourceWord v₀ s) l₀
              frames' inner' l' ∧
            ((ok = true ∧ frames'.length = pages sz) ∨ (ok = false ∧ frames' = [])) := by
      intro v' inner' l' mapped'
      have run := uvmunmap_eq (L := L) (u := 0) (n := frames.length) (by omega) (PGSIZE * t) true
      rw [Nat.mul_zero] at run
      rw [page_number, run]
      refine Sat.bind (mapped'.release ready.child (by omega) ?_) ?_
      · intro k below
        obtain ⟨-, -, -, -, leaf, set⟩ := ready.entry (u := k) (by omega)
        exact ⟨Nat.mod_lt _ (by decide), by rwa [set]⟩
      · exact fun _ _ restored => Sat.pure ⟨[], inner', _, restored, .inr ⟨rfl, rfl⟩⟩
    have following : PGSIZE * frames.length + PGSIZE = PGSIZE * (frames.length + 1) := by
      rw [Nat.mul_add PGSIZE _ 1, Nat.mul_one]
    obtain ⟨entry, outside, away, used, -⟩ := ready.entry (u := frames.length) (by omega)
    have same := ready.parent_same mapped.keeps
    have parent := ready.parent_at mapped
    have found : Radix.value pteCoding v.mem 2 s frames.length =
        some (entryOf v₀ s frames.length) := by
      rw [Radix.value_congr ready.parent.tree same, entry]
    obtain ⟨w, -, word, valid, nonzero, walked⟩ := parent.walkLeaf (by omega) found
    unfold HaloOS.copyLoop
    refine Sat.bind (Sat.ofRun (Q := fun r s => r = 8 * w ∧ v = s) walked ⟨rfl, rfl⟩) ?_
    rintro _ _ ⟨rfl, rfl⟩
    refine Sat.bind (Sat.stopIf (Q := fun _ s => v = s) (fun zero => absurd zero nonzero)
      fun _ => rfl) ?_
    rintro _ _ rfl
    refine Sat.bind (Sat.gets (Q := fun e x => entryOf v₀ s frames.length = e ∧ v = x)
      ⟨by simp [Vm.load, word], rfl⟩) ?_
    rintro _ _ ⟨rfl, rfl⟩
    refine Sat.bind (Sat.stopIf (Q := fun _ s => v = s) (fun zero => absurd zero valid)
      fun _ => rfl) ?_
    rintro _ _ rfl
    refine Sat.bind mapped.table.toFreeList.kalloc ?_
    rintro r v₁ (⟨rfl, rfl, rfl⟩ | ⟨m, rest, rfl, rfl, nonzero, fresh, managed, keeps, free⟩)
    · rw [if_pos rfl]
      exact undo _ _ _ mapped
    rw [if_neg nonzero, PTE2PA_child]
    refine Sat.bind (Sat.update (Q := fun _ s' => s' = v₁.copyPage (PGSIZE * m) (PGSIZE *
      pteCoding.child (entryOf v₀ s frames.length))) rfl) ?_
    rintro _ _ rfl
    have copied := keeps_copyPage v₁ m (PGSIZE * pteCoding.child (entryOf v₀ s frames.length))
    have free' : FreeList L (v₁.copyPage (PGSIZE * m) (PGSIZE *
        pteCoding.child (entryOf v₀ s frames.length))) rest := by
      refine free.congr rfl (copied.mono ?_)
      rintro k member rfl
      exact fresh member
    have other : pteCoding.child (entryOf v₀ s frames.length) ≠ m := by
      rintro rfl
      exact used (mapped.ledger.mem_iff.mpr (by simp))
    refine mapped.round ready.child (by rw [Nat.zero_add]) (by omega) (Nat.mod_lt _ (by decide))
      ?_ rfl (keeps.trans copied) free' ?_ ?_ undo
    · rw [Nat.zero_add]
      exact ready.blank_page (by omega)
    · intro j small
      rw [mem_copyPage v₁ m _ small, keeps.at other small, mapped.keeps.at ⟨away, used⟩ small]
      rfl
    · intro v' inner' l' mapped'
      have length : (frames ++ [m]).length = frames.length + 1 := by simp
      rw [following, ← length]
      exact ih mapped' (by omega)

section Isolation

variable {w w' : Vm} {T : Set ℕ} {f c : ℕ}

/-- A user's store of a byte through a page table. -/
def userStore (v : Vm) (pagetable a : ℕ) (b : Byte) : Vm :=
  match lookup v pagetable a with
  | some pte => v.writeBytes (PTE2PA pte + a % PGSIZE) [b]
  | none => v

/-- The byte that a user loads through a page table. -/
def userLoad (v : Vm) (pagetable a : ℕ) : Option Byte :=
  (lookup v pagetable a).map fun pte => v.byteAt (PTE2PA pte + a % PGSIZE)

/-- The states that stores to the first `n` pages lead to, through either of two tables and in
any order. -/
inductive Stores (v : Vm) (s t n : ℕ) : Vm → Prop
  | start : Stores v s t n v
  | store {w : Vm} {table a : ℕ} (b : Byte) : Stores v s t n w → table = s ∨ table = t →
      a / PGSIZE < n → Stores v s t n (userStore w (PGSIZE * table) a b)

/-- From here on a store through one table never changes what is loaded through the other. -/
def Isolated (v : Vm) (s t n : ℕ) : Prop :=
  ∀ w, Stores v s t n w → ∀ a c b, a / PGSIZE < n → c / PGSIZE < n →
    userLoad (userStore w (PGSIZE * s) a b) (PGSIZE * t) c = userLoad w (PGSIZE * t) c ∧
      userLoad (userStore w (PGSIZE * t) a b) (PGSIZE * s) c = userLoad w (PGSIZE * s) c

/-- The first `n` pages of a table are in frames outside of both tables. -/
def Backed (w : Vm) (s : ℕ) (P T : Set ℕ) (n : ℕ) : Prop :=
  ∀ u < n, ∃ pte, Radix.value pteCoding w.mem 2 s u = some pte ∧
    pteCoding.child pte ∉ P ∧ pteCoding.child pte ∉ T

/-- Two tables whose first `n` pages share no frame. -/
structure Separate (w : Vm) (s : ℕ) (P : Set ℕ) (t : ℕ) (T : Set ℕ) (n : ℕ) : Prop where
  left : Radix.Tree pteCoding w.mem 2 s P
  right : Radix.Tree pteCoding w.mem 2 t T
  left_pos : ∀ m ∈ P, 0 < m
  right_pos : ∀ m ∈ T, 0 < m
  source : Backed w s P T n
  target : Backed w t T P n
  apart : ∀ i < n, ∀ j < n, ∀ e e', Radix.value pteCoding w.mem 2 s i = some e →
    Radix.value pteCoding w.mem 2 t j = some e' → pteCoding.child e ≠ pteCoding.child e'

theorem Separate.symm (separate : Separate w s P t T n) : Separate w t T s P n where
  left := separate.right
  right := separate.left
  left_pos := separate.right_pos
  right_pos := separate.left_pos
  source := separate.target
  target := separate.source
  apart := fun i below j below' e e' found found' =>
    (separate.apart j below' i below e' e found' found).symm

theorem Backed.congr (backed : Backed w s P T n) (tree : Radix.Tree pteCoding w.mem 2 s P)
    (same : ∀ x, x / 512 ∈ P → w'.mem x = w.mem x) : Backed w' s P T n := by
  intro u below
  rw [Radix.value_congr tree same]
  exact backed u below

theorem Separate.congr (separate : Separate w s P t T n)
    (left : ∀ x, x / 512 ∈ P → w'.mem x = w.mem x) (right : ∀ x, x / 512 ∈ T → w'.mem x = w.mem x) :
    Separate w' s P t T n where
  left := separate.left.congr left
  right := separate.right.congr right
  left_pos := separate.left_pos
  right_pos := separate.right_pos
  source := separate.source.congr separate.left left
  target := separate.target.congr separate.right right
  apart := by
    intro i below j below' e e' found found'
    rw [Radix.value_congr separate.left left] at found
    rw [Radix.value_congr separate.right right] at found'
    exact separate.apart i below j below' e e' found found'

theorem Backed.lookup (backed : Backed w s P T n) (tree : Radix.Tree pteCoding w.mem 2 s P)
    (pos : ∀ m ∈ P, 0 < m) (small : n ≤ 2 ^ 26) (below : a / PGSIZE < n) :
    ∃ pte, lookup w (PGSIZE * s) a = some pte ∧
      Radix.value pteCoding w.mem 2 s (a / PGSIZE) = some pte ∧
      pteCoding.child pte ∉ P ∧ pteCoding.child pte ∉ T := by
  obtain ⟨pte, found, outside, away⟩ := backed _ below
  have low : a < MAXVA := by
    simp only [PGSIZE, MAXVA] at below ⊢
    omega
  exact ⟨pte, by rw [lookup_eq pos tree, if_pos low, found], found, outside, away⟩

/-- A store through the first table leaves the tables and the loads through the second alone. -/
theorem Separate.store (separate : Separate w s P t T n) (small : n ≤ 2 ^ 26)
    (below : a / PGSIZE < n) (b : Byte) :
    Separate (userStore w (PGSIZE * s) a b) s P t T n ∧ ∀ c, c / PGSIZE < n →
      userLoad (userStore w (PGSIZE * s) a b) (PGSIZE * t) c = userLoad w (PGSIZE * t) c := by
  obtain ⟨pte, looked, found, outside, away⟩ :=
    separate.source.lookup separate.left separate.left_pos small below
  have inside : ∀ x, x % PGSIZE < PGSIZE := fun x => Nat.mod_lt _ (by decide)
  have written : userStore w (PGSIZE * s) a b =
      w.writeBytes (PGSIZE * pteCoding.child pte + a % PGSIZE) [b] := by
    simp only [userStore, looked, PTE2PA_child]
  have keeps : Keeps w (userStore w (PGSIZE * s) a b) (· ≠ pteCoding.child pte) := by
    rw [written]
    exact keeps_writeBytes w (inside a)
  have left : ∀ x, x / 512 ∈ P → (userStore w (PGSIZE * s) a b).mem x = w.mem x :=
    fun x member => keeps x fun same => outside (same ▸ member)
  have right : ∀ x, x / 512 ∈ T → (userStore w (PGSIZE * s) a b).mem x = w.mem x :=
    fun x member => keeps x fun same => away (same ▸ member)
  have after := separate.congr left right
  refine ⟨after, fun c low => ?_⟩
  obtain ⟨pte', looked', found', -⟩ :=
    separate.target.lookup separate.right separate.right_pos small low
  have same : lookup (userStore w (PGSIZE * s) a b) (PGSIZE * t) c =
      lookup w (PGSIZE * t) c := by
    rw [lookup_eq after.right_pos after.right, lookup_eq separate.right_pos separate.right,
      Radix.value_congr separate.right right]
  have other := (separate.apart _ below _ low pte pte' found found').symm
  unfold userLoad
  rw [same, looked', Option.map_some, Option.map_some, PTE2PA_child,
    byteAt_keeps keeps other (inside c)]

/-- Tables that share no frame stay so under any stores. -/
theorem Separate.isolated (separate : Separate v s P t T n) (small : n ≤ 2 ^ 26) :
    Isolated v s t n := by
  have always : ∀ w, Stores v s t n w → Separate w s P t T n := by
    intro w reached
    induction reached with
    | start => exact separate
    | store b _ which below ih =>
      rcases which with rfl | rfl
      · exact (ih.store small below b).1
      · exact (ih.symm.store small below b).1.symm
  intro w reached a c b low low'
  have here := always w reached
  exact ⟨(here.store small low b).2 c low', (here.symm.store small low b).2 c low'⟩

end Isolation

theorem userLoad_some {w : Vm} {pagetable pte : ℕ} (looked : lookup w pagetable a = some pte) :
    userLoad w pagetable a = some (w.byteAt (PGSIZE * pteCoding.child pte + a % PGSIZE)) := by
  rw [userLoad, looked, Option.map_some, PTE2PA_child]

/-- The parent is as it was: it translates and reads as before. -/
theorem CopyReady.parent_kept (ready : CopyReady L v s P t S l sz)
    (keeps : Keeps v v' fun m => m ∉ S ∧ m ∉ l) :
    (∀ a, lookup v' (PGSIZE * s) a = lookup v (PGSIZE * s) a) ∧
      ∀ a, a / PGSIZE < pages sz → userLoad v' (PGSIZE * s) a = userLoad v (PGSIZE * s) a := by
  have same := ready.parent_same keeps
  have looked : ∀ a, lookup v' (PGSIZE * s) a = lookup v (PGSIZE * s) a := by
    intro a
    rw [lookup_eq ready.parent.pos ready.parent.tree, lookup_eq ready.parent.pos
      (ready.parent.tree.congr same), Radix.value_congr ready.parent.tree same]
  refine ⟨looked, fun a below => ?_⟩
  obtain ⟨pte, found, -, -, away, used⟩ := ready.mapped a below
  rw [userLoad_some found, userLoad_some ((looked a).trans found)]
  congr 1
  exact byteAt_keeps keeps ⟨away, used⟩ (Nat.mod_lt _ (by decide))

section Copied

variable (ready : CopyReady L v s P t S l sz)
  (mapped : Filled L v v' t S 0 (fun k => PTE_FLAGS (entryOf v s k)) (sourceWord v s) l
    frames inner l')
include ready mapped

/-- The entry of the child for a page that has been copied. -/
theorem CopyReady.copied {k f : ℕ} (found : frames[k]? = some f) (small : k < pages sz) :
    Radix.value pteCoding v'.mem 2 t k = some (f * 1024 + PTE_FLAGS (entryOf v s k)) ∧
      PTE2PA (f * 1024 + PTE_FLAGS (entryOf v s k)) = PGSIZE * f ∧
      pteCoding.child (f * 1024 + PTE_FLAGS (entryOf v s k)) = f := by
  obtain ⟨managed, -⟩ := mapped.frame ready.child (List.mem_of_getElem? found)
  obtain ⟨-, -, -, -, -, set⟩ := ready.entry small
  have value := mapped.values k f found
  rw [Nat.zero_add, set] at value
  have flags : PTE_FLAGS (entryOf v s k) < 1024 := Nat.mod_lt _ (by decide)
  have frame := entry_page managed.lt flags
  refine ⟨value, frame, ?_⟩
  change PTE2PA _ / PGSIZE = f
  rw [frame, page_number]

/-- A page that has been copied reads through the child as it does through the parent. -/
theorem CopyReady.same_bytes {k f : ℕ} (found : frames[k]? = some f) (small : k < pages sz)
    (page : a / PGSIZE = k) : ∃ pte pte',
      lookup v (PGSIZE * s) a = some pte ∧ lookup v' (PGSIZE * t) a = some pte' ∧
      PTE2PA pte' = PGSIZE * f ∧ PTE_FLAGS pte' = PTE_FLAGS pte ∧
      userLoad v' (PGSIZE * t) a = userLoad v (PGSIZE * s) a := by
  subst page
  obtain ⟨value, frame, child⟩ := ready.copied mapped found small
  obtain ⟨entry, -⟩ := ready.entry small
  have below : a < MAXVA := by
    have low := ready.low
    simp only [PGSIZE, MAXVA] at small ⊢
    omega
  have looked := (ready.parent.lookup below).trans entry
  have looked' := (mapped.table.lookup below).trans value
  refine ⟨_, _, looked, looked', frame, entry_flags f (Nat.mod_lt _ (by decide)), ?_⟩
  rw [userLoad_some looked, userLoad_some looked', child]
  congr 1
  exact byteAt_frame (mapped.contents _ f found) (Nat.mod_lt _ (by decide))

/-- The child's frames came off the free list, so no frame of the parent is among them. -/
theorem CopyReady.separate (length : frames.length = pages sz) :
    Separate v' s P t {m | m ∈ S ∨ m ∈ inner} (pages sz) := by
  have same := ready.parent_same mapped.keeps
  have parent := ready.parent_at mapped
  have new : ∀ m ∈ inner, m ∈ l := fun m member => mapped.ledger.mem_iff.mpr (by simp [member])
  have spot : ∀ u < pages sz, ∃ f, frames[u]? = some f :=
    fun u below => ⟨_, List.getElem?_eq_getElem (length.symm ▸ below)⟩
  refine ⟨parent.tree, mapped.table.tree, parent.pos, mapped.table.pos, ?_, ?_, ?_⟩
  · intro u below
    obtain ⟨entry, outside, away, used, -⟩ := ready.entry below
    refine ⟨_, (Radix.value_congr ready.parent.tree same u).trans entry, outside, ?_⟩
    rintro (old | member)
    · exact away old
    · exact used (new _ member)
  · intro u below
    obtain ⟨f, found⟩ := spot u below
    obtain ⟨value, -, child⟩ := ready.copied mapped found below
    obtain ⟨-, outside, away, -, taken⟩ := mapped.frame ready.child (List.mem_of_getElem? found)
    refine ⟨_, value, ?_, ?_⟩
    · rw [child]
      exact not_or.mpr ⟨outside, away⟩
    · rw [child]
      exact ready.parent.apart f taken
  · intro i below j below' e e' found found'
    obtain ⟨f, place⟩ := spot j below'
    obtain ⟨value, -, child⟩ := ready.copied mapped place below'
    obtain ⟨-, -, -, -, taken⟩ := mapped.frame ready.child (List.mem_of_getElem? place)
    obtain ⟨entry, -, -, used, -⟩ := ready.entry below
    rw [Radix.value_congr ready.parent.tree same, entry] at found
    rw [value] at found'
    obtain rfl := Option.some.inj found
    obtain rfl := Option.some.inj found'
    rw [child]
    rintro rfl
    exact used taken

end Copied

/-- `uvmcopy` gives the child every page of the parent in a fresh frame, with the parent's flags and
bytes, and the two are isolated from then on; or it maps nothing and gives every frame back. The
parent stays as it was. -/
theorem uvmcopy_all_or_nothing (ready : CopyReady L v s P t S l sz) :
    ∃ ok v' frames inner l', uvmcopy L (PGSIZE * s) (PGSIZE * t) sz v = .ok (ok, v') ∧
      PageTable L v' s P l' ∧ PageTable L v' t {m | m ∈ S ∨ m ∈ inner} l' ∧
      l.Perm (frames ++ (inner ++ l')) ∧ Keeps v v' (fun m => m ∉ S ∧ m ∉ l) ∧
      ((∀ a, lookup v' (PGSIZE * s) a = lookup v (PGSIZE * s) a) ∧
        ∀ a, a / PGSIZE < pages sz → userLoad v' (PGSIZE * s) a = userLoad v (PGSIZE * s) a) ∧
      SameOutside v v' t (fun u => u < pages sz) ∧
      (ok = true → frames.length = pages sz ∧
        (∀ k f, frames[k]? = some f → ∀ a, a / PGSIZE = k → ∃ pte pte',
          lookup v (PGSIZE * s) a = some pte ∧ lookup v' (PGSIZE * t) a = some pte' ∧
          PTE2PA pte' = PGSIZE * f ∧ PTE_FLAGS pte' = PTE_FLAGS pte ∧
          userLoad v' (PGSIZE * t) a = userLoad v (PGSIZE * s) a) ∧
        Isolated v' s t (pages sz)) ∧
      (ok = false → frames = [] ∧
        ∀ a, a / PGSIZE < pages sz → lookup v' (PGSIZE * t) a = none) := by
  have low := ready.low
  have first : Filled L v v t S 0 (fun k => PTE_FLAGS (entryOf v s k)) (sourceWord v s) l [] [] l :=
    .refl ready.child
  obtain ⟨ok, v', returned, frames, inner, l', mapped, result⟩ :=
    (first.copyLoop (E := fun _ => False) (n := pages sz) ready (by simp)).returns
  have parent := ready.parent_at mapped
  refine ⟨ok, v', frames, inner, l', returned, parent, mapped.table, mapped.ledger, mapped.keeps,
    ready.parent_kept mapped.keeps, ?_, ?_, ?_⟩
  · refine ready.child.sameOutside mapped.table fun u small outside => mapped.others u small ?_
    rcases result with ⟨-, length⟩ | ⟨-, rfl⟩
    · omega
    · simp
  · intro done
    obtain ⟨-, length⟩ | ⟨rfl, -⟩ := result
    rotate_left
    · cases done
    refine ⟨length, fun k f found a page => ?_, (ready.separate mapped length).isolated low⟩
    exact ready.same_bytes mapped found (length ▸ (List.getElem?_eq_some_iff.mp found).1) page
  · intro failed
    obtain ⟨rfl, -⟩ | ⟨-, rfl⟩ := result
    · cases failed
    refine ⟨rfl, fun a page => ?_⟩
    have below : a < MAXVA := by
      simp only [PGSIZE, MAXVA] at page ⊢
      omega
    rw [mapped.table.lookup below, mapped.others _ (by have := page_lt below; omega) (by simp),
      ready.blank_page page]

/-- A parent with one page, in a frame that is not free, and an empty child. -/
theorem copyReady_sample : ∃ v P l, mappages (PGSIZE * 524290) 0 PGSIZE (PGSIZE * 524292)
      (PTE_R ||| PTE_W ||| PTE_X ||| PTE_U) (bootVm 6) = .ok (true, v) ∧
    CopyReady smallLayout v 524290 P 524291 {524291} l 1 := by
  have table := bootVm_table (n := 524290) (show 6 ≤ 32756 by omega) (by decide) (by decide)
  have empty := Radix.tree_empty 2 (bootVm_blank 6 (show 524291 < FIRSTPG by decide))
  have free : ∀ m ∈ List.range' FIRSTPG 6, FIRSTPG ≤ m :=
    fun m member => (List.mem_range'_1.mp member).1
  obtain ⟨ok, v, used, l, returned, list, parent, -, -, here, keeps, -⟩ :=
    table.mappages (f := 524292) (show 0 < PGSIZE by decide) (show 0 + PGSIZE ≤ MAXVA by decide)
      (by decide) (show PTE_R ||| PTE_W ||| PTE_X ||| PTE_U < 1024 by decide)
      fun u _ => (Radix.tree_empty 2 (bootVm_blank 6 (by decide))).2 u
  have fits : ok = true := by
    have result : ((mappages (PGSIZE * 524290) 0 PGSIZE (PGSIZE * 524292)
      (PTE_R ||| PTE_W ||| PTE_X ||| PTE_U) (bootVm 6)).toOption.map Prod.fst) = some true := by
      decide +kernel
    rw [returned] at result
    simpa [Except.toOption] using result
  subst fits
  have above : ∀ m, m < FIRSTPG → m ∉ used ∧ m ∉ l := by
    intro m low
    constructor <;> intro member <;> have := free m (by simp [list, member]) <;> omega
  have same : ∀ w, w / 512 ∈ ({524291} : Set ℕ) → v.mem w = (bootVm 6).mem w := by
    rintro w page
    refine keeps w ?_
    rw [Set.mem_singleton_iff] at page
    rw [page]
    exact ⟨by simp, (above _ (by decide)).1⟩
  have child : PageTable smallLayout v 524291 {524291} l := by
    refine ⟨parent.toFreeList, empty.1.congr same, ?_, by simp⟩
    rintro m member rfl
    exact (above _ (by decide)).2 member
  have entry := here rfl 0 (by unfold InRange; decide)
  have outside : ∀ m ∈ ({m | m ∈ ({524290} : Set ℕ) ∨ m ∈ used} : Set ℕ), m ≠ 524291 ∧ m ≠ 524292 := by
    rintro m (rfl | member)
    · decide
    · have high := free m (by simp [list, member])
      unfold FIRSTPG at high
      omega
  refine ⟨v, _, l, returned, parent, child, fun m member => (outside m member).1, ?_, ?_⟩
  · intro a below
    have page : a / PGSIZE = 0 := Nat.lt_one_iff.mp below
    have low : a < MAXVA := by
      simp only [PGSIZE, MAXVA] at page ⊢
      omega
    refine ⟨_, by rw [parent.lookup low, page, entry], by decide, ?_, ?_, ?_⟩
    · intro member
      exact (outside _ member).2 (by decide)
    · decide
    · exact (above _ (by decide)).2
  · intro a _
    rw [lookup_eq child.pos child.tree, Radix.value_congr empty.1 same, empty.2, ite_self]

/-- One page: the child gets a frame and two pages for its table. -/
theorem uvmcopy_all_or_nothing_sample : ∃ v P l,
    CopyReady smallLayout v 524290 P 524291 {524291} l 1 ∧
    ∃ v', uvmcopy smallLayout (PGSIZE * 524290) (PGSIZE * 524291) 1 v = .ok (true, v') ∧
      Isolated v' 524290 524291 1 := by
  obtain ⟨v, P, l, made, ready⟩ := copyReady_sample
  obtain ⟨ok, v', frames, inner, l', returned, -, -, -, -, -, -, copied, -⟩ :=
    uvmcopy_all_or_nothing ready
  have fits : ok = true := by
    have result : ((do
        let _ ← mappages (PGSIZE * 524290) 0 PGSIZE (PGSIZE * 524292)
          (PTE_R ||| PTE_W ||| PTE_X ||| PTE_U)
        uvmcopy smallLayout (PGSIZE * 524290) (PGSIZE * 524291) 1 : Mio Bool)
        (bootVm 6)).toOption.map Prod.fst = some true := by
      decide +kernel
    rw [bind_run, made] at result
    simp only [returned] at result
    simpa [Except.toOption] using result
  subst fits
  exact ⟨v, P, l, ready, v', returned, (copied rfl).2.2⟩

end HaloOS
