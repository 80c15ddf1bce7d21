import HaloOS.Lib.Radix
import HaloOS.Vm.Sv39

/-! Page tables as finite maps. A table is a radix tree over its own pages; `walk` reads it
as such, `mappages` adds the translations of a range to it and `uvmunmap` takes them away,
and neither changes any other translation. -/

namespace HaloOS

open Lib

/-- Page tables are radix trees with 512 entries to a page. -/
def pteCoding : Radix.Coding where
  fan := 512
  positive := by decide
  valid := fun pte => decide (pte &&& PTE_V ≠ 0)
  pointer := fun pte => pte &&& (PTE_R ||| PTE_W ||| PTE_X) = 0
  child := fun pte => PTE2PA pte / PGSIZE

/-- The free list, as a table sees it. -/
structure FreeList (L : Layout) (v : Vm) (l : List ℕ) : Prop where
  links : Links v.mem v.freelist l
  nodup : l.Nodup
  managed : ∀ n ∈ l, Managed L n

/-- A three-level table with root page `t`. Its pages `S` belong to it alone, each hangs at one
place, and none of them is free. -/
structure PageTable (L : Layout) (v : Vm) (t : ℕ) (S : Set ℕ) (l : List ℕ) : Prop
    extends FreeList L v l where
  tree : Radix.Tree pteCoding v.mem 2 t S
  apart : ∀ n ∈ l, n ∉ S
  pos : ∀ n ∈ S, 0 < n

/-- The valid leaf entry that `walk` without allocation finds for an address. -/
def lookup (v : Vm) (pagetable a : ℕ) : Option ℕ :=
  match walk pagetable a false v with
  | .ok (pte, v') =>
    if pte = 0 ∨ v'.load pte &&& PTE_V = 0 then none else some (v'.load pte)
  | .error _ => none

variable {L : Layout} {v v' : Vm} {l l' : List ℕ} {S : Set ℕ} {t n m u level : ℕ} {E : Stop → Prop}

@[simp] theorem pteCoding_fan : pteCoding.fan = 512 := rfl

theorem PX_index (level va : ℕ) : PX level va = Radix.index pteCoding level (va / PGSIZE) := by
  have split : 2 ^ (12 + 9 * level) = PGSIZE * 512 ^ level := by
    rw [Nat.pow_add, Nat.pow_mul]
    rfl
  rw [PX, split, ← Nat.div_div_eq_div_mul]
  rfl

theorem PTE2PA_child (pte : ℕ) : PTE2PA pte = PGSIZE * pteCoding.child pte := by
  change PTE2PA pte = PGSIZE * (PTE2PA pte / PGSIZE)
  simp only [PTE2PA, PGSIZE, WORD]
  omega

theorem valid_iff (pte : ℕ) : pteCoding.valid pte = true ↔ pte &&& PTE_V ≠ 0 := decide_eq_true_iff

theorem child_pointer (managed : Managed L n) : pteCoding.child (n * 1024 + 1) = n := by
  have page := entry_page managed.lt (show 1 < 1024 by omega)
  change PTE2PA (n * 1024 + 1) / PGSIZE = n
  rw [page, page_number]

theorem pointer_entry (n : ℕ) : pteCoding.pointer (n * 1024 + 1) := by
  change (n * 1024 + 1) &&& (PTE_R ||| PTE_W ||| PTE_X) = 0
  rw [entry_and n (by decide)]
  decide

/-- A walk that may not allocate reads the word of the page number off the tree. -/
theorem walkFrom_place (va level n : ℕ) (v : Vm) :
    walkFrom va false level (PGSIZE * n) v =
      .ok ((Radix.place pteCoding v.mem level n (va / PGSIZE)).elim 0 (8 * ·), v) := by
  induction level generalizing n with
  | zero =>
    have word : PGSIZE * n + 8 * PX 0 va = 8 * (512 * n + PX 0 va) := by
      simp only [PGSIZE]
      omega
    rw [PX_index] at word
    simp only [walkFrom, PX_index, word]
    rfl
  | succ level ih =>
    unfold walkFrom
    rw [bind_run, gets_run, load_entry]
    simp only [PX_index]
    by_cases valid : v.mem (512 * n + Radix.index pteCoding (level + 1) (va / PGSIZE)) &&& PTE_V ≠ 0
    · rw [if_pos valid, PTE2PA_child, ih, Radix.place_of_valid _ rfl ((valid_iff _).mpr valid)]
      rfl
    · rw [if_neg valid, Radix.place_of_invalid _ rfl (by simpa [pteCoding] using valid)]
      rfl

theorem lookup_eq (pos : ∀ m ∈ S, 0 < m) (tree : Radix.Tree pteCoding v.mem 2 t S) (a : ℕ) :
    lookup v (PGSIZE * t) a =
      if a < MAXVA then Radix.value pteCoding v.mem 2 t (a / PGSIZE) else none := by
  unfold lookup walk
  rw [bind_run, stopIf_run]
  by_cases low : a < MAXVA
  · rw [if_neg (by omega), if_pos low]
    simp only [walkFrom_place]
    unfold Radix.value
    cases found : Radix.place pteCoding v.mem 2 t (a / PGSIZE) with
    | none => simp
    | some w =>
      obtain ⟨page, member, rfl⟩ := Radix.place_page tree found
      have nonzero : 8 * (pteCoding.fan * page + Radix.index pteCoding 0 (a / PGSIZE)) ≠ 0 := by
        have above := pos page member
        change 8 * (512 * page + _) ≠ 0
        omega
      simp only [Option.elim_some, Option.bind_some, nonzero, false_or, Vm.load,
        Nat.mul_div_cancel_left _ (show 0 < 8 by omega), valid_iff]
      by_cases valid :
          v.mem (pteCoding.fan * page + Radix.index pteCoding 0 (a / PGSIZE)) &&& PTE_V = 0
      · rw [if_pos valid, if_neg (not_not.mpr valid)]
      · rw [if_neg valid, if_pos valid]
  · rw [if_pos (by omega), if_neg low]

/-- The hardware reads the same tree. -/
theorem sv39_value (tree : Radix.Tree pteCoding v.mem level n S) (u : ℕ) :
    sv39 v.mem u level (PGSIZE * n) =
      (Radix.value pteCoding v.mem level n u).map (Prod.mk 0) := by
  induction level generalizing n S with
  | zero =>
    unfold sv39 Radix.value Radix.place
    rw [page_words, PX_index, page_number, Option.bind_some, pteCoding_fan]
    by_cases valid : v.mem (512 * n + Radix.index pteCoding 0 u) &&& PTE_V = 0
    · rw [if_pos valid, if_neg (fun holds => (valid_iff _).mp holds valid)]
      rfl
    · rw [if_neg valid, if_pos ((valid_iff _).mpr valid)]
      rfl
  | succ level ih =>
    obtain ⟨T, inside, root, hangs, -⟩ := tree.focus (Radix.index_lt (level + 1) u)
    rw [pteCoding_fan] at hangs
    unfold sv39
    rw [page_words, PX_index, page_number]
    rcases hangs with ⟨valid, pointer, below⟩ | ⟨invalid, -⟩
    · rw [if_neg ((valid_iff _).mp valid), if_neg (by simpa [pteCoding] using pointer),
        Radix.value_of_valid _ rfl valid, PTE2PA_child]
      exact ih below
    · have clear : v.mem (512 * n + Radix.index pteCoding (level + 1) u) &&& PTE_V = 0 := by
        simpa [pteCoding] using invalid
      rw [if_pos clear, Radix.value_of_invalid _ rfl invalid]
      rfl

section Growing

variable {used : List ℕ} {r : ℕ}

theorem FreeList.congr (free : FreeList L v l) (freelist : v'.freelist = v.freelist)
    (keeps : Keeps v v' (· ∈ l)) : FreeList L v' l where
  links := by
    rw [freelist]
    exact free.links.congr fun n member => keeps.at member (by omega : 0 < 512)
  nodup := free.nodup
  managed := free.managed

theorem FreeList.pool (free : FreeList L v l) :
    Pool L v (fun n => if n ∈ l then .free else .kernel) l where
  links := free.links
  nodup := free.nodup
  free := fun n => by by_cases member : n ∈ l <;> simp [member]
  managed := by
    intro n used
    by_cases member : n ∈ l
    · exact free.managed n member
    · simp [member] at used

theorem Pool.freeList {own : ℕ → Owner} (pool : Pool L v own l) : FreeList L v l where
  links := pool.links
  nodup := pool.nodup
  managed := fun n member => pool.managed n (by simp [(pool.free n).mp member])

theorem FreeList.kalloc (free : FreeList L v l) :
    Sat kalloc v E fun r v' => (r = 0 ∧ l = [] ∧ v' = v) ∨
      ∃ n rest, l = n :: rest ∧ r = PGSIZE * n ∧ r ≠ 0 ∧ n ∉ rest ∧ Managed L n ∧
        Keeps v v' (· ≠ n) ∧ FreeList L v' rest := by
  refine (kalloc_spec free.pool).mono ?_
  rintro r v' (none | ⟨n, rest, rfl, rfl, -, managed, keeps, pool⟩)
  · exact .inl none
  · have nonzero : PGSIZE * n ≠ 0 := by
      have above := managed.pos
      simp only [PGSIZE]
      omega
    exact .inr ⟨n, rest, rfl, rfl, nonzero, (List.nodup_cons.mp free.nodup).1, managed, keeps,
      (pool .lost (by simp)).freeList⟩

theorem FreeList.kfree (free : FreeList L v l) (managed : Managed L n) (used : n ∉ l) :
    Sat (kfree L (PGSIZE * n)) v E fun _ v' => Keeps v v' (· ≠ n) ∧ FreeList L v' (n :: l) := by
  refine (kfree_spec free.pool managed (by simp [used])).mono ?_
  rintro _ v' ⟨keeps, pool⟩
  exact ⟨keeps, pool.freeList⟩

/-- Pages from the front of the free list have been hung into a tree, and it holds what it
held. -/
structure Grows (L : Layout) (v v' : Vm) (level n : ℕ) (S : Set ℕ) (l used l' : List ℕ) : Prop where
  list : l = used ++ l'
  free : FreeList L v' l'
  tree : Radix.Tree pteCoding v'.mem level n {m | m ∈ S ∨ m ∈ used}
  keeps : Keeps v v' fun m => m ∉ S ∧ m ∉ used
  values : ∀ u, Radix.value pteCoding v'.mem level n u = Radix.value pteCoding v.mem level n u
  places : ∀ u w, Radix.place pteCoding v.mem level n u = some w →
    Radix.place pteCoding v'.mem level n u = some w

theorem Grows.refl (tree : Radix.Tree pteCoding v.mem level n S) (free : FreeList L v l) :
    Grows L v v level n S l [] l where
  list := rfl
  free := free
  tree := by simpa using tree
  keeps := fun _ _ => rfl
  values := fun _ => rfl
  places := fun _ _ found => found

/-- `walk` with allocation: missing pages come from the free list, at most one for each level, and
only its end stops the way down to the leaf entry. -/
theorem walkFrom_grows {va : ℕ} (tree : Radix.Tree pteCoding v.mem level n S)
    (free : FreeList L v l) (apart : ∀ m ∈ l, m ∉ S) :
    Sat (walkFrom va true level (PGSIZE * n)) v E fun r v' =>
      ∃ used l', Grows L v v' level n S l used l' ∧ used.length ≤ level ∧
        ((Radix.place pteCoding v.mem level n (va / PGSIZE)).isSome → used = []) ∧
        ((r = 0 ∧ l' = []) ∨
          ∃ w, Radix.place pteCoding v'.mem level n (va / PGSIZE) = some w ∧ r = 8 * w) := by
  induction level generalizing n S v l with
  | zero =>
    refine Sat.pure ⟨[], l, .refl tree free, le_rfl, fun _ => rfl, .inr ⟨_, rfl, ?_⟩⟩
    rw [PX_index, pteCoding_fan]
    simp only [PGSIZE]
    omega
  | succ level ih =>
    have small : Radix.index pteCoding (level + 1) (va / PGSIZE) < 512 := Radix.index_lt _ _
    obtain ⟨T, inside, root, hangs, hang⟩ := tree.focus small
    have top : n ∉ l := fun member => apart n member tree.root_mem
    simp only [pteCoding_fan] at hangs hang
    unfold walkFrom
    simp only [PX_index]
    generalize spot : Radix.index pteCoding (level + 1) (va / PGSIZE) = i at *
    refine Sat.bind (Sat.gets (Q := fun e s => e = v.mem (512 * n + i) ∧ v = s)
      ⟨load_entry v n i, rfl⟩) ?_
    rintro _ _ ⟨rfl, rfl⟩
    -- the page below the entry has grown; the rest of the table is as it was
    have up : ∀ (v' : Vm) (used l' : List ℕ) (entry r : ℕ), l = used ++ l' → FreeList L v' l' →
        (∀ w, w / 512 ∉ T → w / 512 ∉ used → w ≠ 512 * n + i → v'.mem w = v.mem w) →
        v'.mem (512 * n + i) = entry → pteCoding.valid entry = true → pteCoding.pointer entry →
        Radix.Tree pteCoding v'.mem level (pteCoding.child entry) {m | m ∈ T ∨ m ∈ used} →
        (∀ u, Radix.index pteCoding (level + 1) u = i →
          Radix.value pteCoding v'.mem level (pteCoding.child entry) u =
            Radix.value pteCoding v.mem (level + 1) n u) →
        (∀ u w, Radix.index pteCoding (level + 1) u = i →
          Radix.place pteCoding v.mem (level + 1) n u = some w →
          Radix.place pteCoding v'.mem level (pteCoding.child entry) u = some w) →
        used.length ≤ level + 1 →
        ((Radix.place pteCoding v.mem (level + 1) n (va / PGSIZE)).isSome → used = []) →
        ((r = 0 ∧ l' = []) ∨ ∃ w, Radix.place pteCoding v'.mem level (pteCoding.child entry)
          (va / PGSIZE) = some w ∧ r = 8 * w) →
        ∃ used l', Grows L v v' (level + 1) n S l used l' ∧ used.length ≤ level + 1 ∧
          ((Radix.place pteCoding v.mem (level + 1) n (va / PGSIZE)).isSome → used = []) ∧
          ((r = 0 ∧ l' = []) ∨
          ∃ w, Radix.place pteCoding v'.mem (level + 1) n (va / PGSIZE) = some w ∧ r = 8 * w) := by
      intro v' used l' entry r list free' same here valid pointer below values places few none
        result
      have fresh : ∀ m ∈ used, m ∉ S := by
        intro m member
        exact apart m (list ▸ List.mem_append_left _ member)
      obtain ⟨tree', others⟩ := hang v'.mem {m | m ∈ used} entry fresh same here valid pointer below
      refine ⟨used, l', ⟨list, free', tree', ?_, ?_, ?_⟩, few, none, result.imp_right ?_⟩
      · rintro w ⟨outside, unused⟩
        refine same w (fun old => outside (inside _ old)) unused ?_
        rintro rfl
        rw [show (512 * n + i) / 512 = n by omega] at outside
        exact outside tree.root_mem
      · intro u
        by_cases other : Radix.index pteCoding (level + 1) u = i
        · subst other
          rw [Radix.value_of_valid entry here valid, values u rfl]
        · exact (others u other).2
      · intro u w found
        by_cases other : Radix.index pteCoding (level + 1) u = i
        · have moved := places u w other found
          subst other
          rwa [Radix.place_of_valid entry here valid]
        · rwa [(others u other).1]
      · rintro ⟨w, found, rfl⟩
        subst spot
        exact ⟨w, by rw [Radix.place_of_valid entry here valid, found], rfl⟩
    rcases hangs with ⟨valid, pointer, below⟩ | ⟨invalid, empty⟩
    · rw [if_pos ((valid_iff _).mp valid), PTE2PA_child]
      refine (ih below free fun m member old => apart m member (inside m old)).mono ?_
      rintro r v' ⟨used, l', grows, few, none, result⟩
      have entry : v'.mem (512 * n + i) = v.mem (512 * n + i) := by
        refine grows.keeps.at ⟨root, fun member => top ?_⟩ small
        rw [grows.list]
        exact List.mem_append_left _ member
      refine up v' used l' _ r grows.list grows.free ?_ entry valid pointer grows.tree ?_ ?_
        (by omega) ?_ result
      · exact fun w outside unused _ => grows.keeps w ⟨outside, unused⟩
      · intro u other
        subst other
        rw [grows.values, Radix.value_of_valid _ rfl valid]
        rfl
      · intro u w other found
        subst other
        rw [Radix.place_of_valid _ rfl valid] at found
        exact grows.places u w found
      · subst spot
        rw [Radix.place_of_valid _ rfl valid]
        exact none
    · have clear : v.mem (512 * n + i) &&& PTE_V = 0 := by simpa [pteCoding] using invalid
      rw [if_neg (not_not.mpr clear), if_neg (by simp)]
      refine Sat.bind free.kalloc ?_
      rintro r s (⟨rfl, rfl, rfl⟩ | ⟨m, rest, rfl, rfl, nonzero, fresh, managed, keeps, free'⟩)
      · rw [if_pos rfl]
        exact Sat.pure ⟨[], [], .refl tree free, Nat.zero_le _, fun _ => rfl, .inl ⟨rfl, rfl⟩⟩
      have away : n ≠ m := by
        rintro rfl
        exact top (by simp)
      rw [if_neg nonzero]
      refine Sat.bind (Sat.update (Q := fun _ s' => s' = s.memset (PGSIZE * m) 0) rfl) ?_
      rintro _ _ rfl
      refine Sat.bind (Sat.update (Q := fun _ s' => s' = (s.memset (PGSIZE * m) 0).store
        (PGSIZE * n + 8 * i) (m * 1024 + 1)) ?_) ?_
      · rw [PTE_V, entry_eq m (by omega)]
      rintro _ s' made
      have wiped := keeps_memset s m 0
      have stored := keeps_store (n := n) (s.memset (PGSIZE * m) 0) small (m * 1024 + 1)
      rw [← made] at stored
      have blank : ∀ k < 512, pteCoding.valid (s'.mem (512 * m + k)) = false := by
        intro k low
        rw [stored.at (Ne.symm away) low, mem_memset s m 0 low]
        rfl
      obtain ⟨below, nothing⟩ : Radix.Tree pteCoding s'.mem level m {m} ∧
          ∀ u, Radix.value pteCoding s'.mem level m u = none := Radix.tree_empty level blank
      have free'' : FreeList L s' rest := by
        refine free'.congr (by rw [made]; rfl) ((wiped.mono ?_).trans (stored.mono ?_))
        · rintro k member rfl
          exact fresh member
        · rintro k member rfl
          exact top (by simp [member])
      refine (ih below free'' ?_).mono ?_
      · rintro k member rfl
        exact fresh member
      rintro r v' ⟨used, l', grows, few, -, result⟩
      have cons : m :: rest = (m :: used) ++ l' := by rw [grows.list]; rfl
      have entry : v'.mem (512 * n + i) = m * 1024 + 1 := by
        rw [grows.keeps.at ⟨away, fun member => top ?_⟩ small, made, mem_store]
        rw [grows.list]
        simp [member]
      have page := child_pointer managed
      refine up v' (m :: used) l' _ r cons grows.free ?_ entry ((valid_iff _).mpr (pointer_valid m))
        (pointer_entry m) ?_ ?_ ?_ (Nat.succ_le_succ few) ?_ ?_
      · intro w _ unused other
        obtain ⟨off, rest'⟩ := not_or.mp (List.mem_cons.not.mp unused)
        rw [grows.keeps w ⟨off, rest'⟩, made, mem_store_of_ne _ other, wiped w off, keeps w off]
      · have pages : {k | k ∈ T ∨ k ∈ m :: used} = {k | k ∈ ({m} : Set ℕ) ∨ k ∈ used} := by
          ext k
          simp [empty]
        rw [page, pages]
        exact grows.tree
      · intro u other
        subst other
        rw [page, grows.values, nothing, Radix.value_of_invalid _ rfl invalid]
      · intro u w other found
        subst other
        rw [Radix.place_of_invalid _ rfl invalid] at found
        cases found
      · subst spot
        rw [Radix.place_of_invalid _ rfl invalid]
        rintro ⟨⟩
      · rwa [page]

end Growing

section Ranges

variable {w x : ℕ} {doFree : Bool}

theorem PageTable.walk (table : PageTable L v t S l) {va : ℕ} (low : va < MAXVA) :
    Sat (walk (PGSIZE * t) va true) v E fun r v' =>
      ∃ used l', Grows L v v' 2 t S l used l' ∧ PageTable L v' t {m | m ∈ S ∨ m ∈ used} l' ∧
        used.length ≤ 2 ∧
        ((Radix.place pteCoding v.mem 2 t (va / PGSIZE)).isSome → used = []) ∧
        ((r = 0 ∧ l' = []) ∨
          ∃ w, Radix.place pteCoding v'.mem 2 t (va / PGSIZE) = some w ∧ r = 8 * w ∧ r ≠ 0) := by
  unfold HaloOS.walk
  refine Sat.bind (Sat.stopIf (Q := fun _ s => v = s) (fun high => absurd low (by omega))
    fun _ => rfl) ?_
  rintro _ _ rfl
  refine (walkFrom_grows table.tree table.toFreeList table.apart).mono ?_
  rintro r v' ⟨used, l', grows, few, none, result⟩
  have nodup : (used ++ l').Nodup := grows.list ▸ table.nodup
  have table' : PageTable L v' t {m | m ∈ S ∨ m ∈ used} l' := by
    refine ⟨grows.free, grows.tree, ?_, ?_⟩
    · rintro m member (old | new)
      · exact table.apart m (by simp [grows.list, member]) old
      · exact List.disjoint_of_nodup_append nodup new member
    · rintro m (old | new)
      · exact table.pos m old
      · exact (table.managed m (by simp [grows.list, new])).pos
  refine ⟨used, l', grows, table', few, none, result.imp_right ?_⟩
  rintro ⟨w, found, rfl⟩
  refine ⟨w, found, rfl, ?_⟩
  have page := table'.pos _ (Radix.place_mem grows.tree found)
  rw [pteCoding_fan] at page
  omega

/-- A leaf entry is written: its page translates by it, the others as before. -/
theorem PageTable.store (table : PageTable L v t S l)
    (found : Radix.place pteCoding v.mem 2 t u = some w) (small : u < 2 ^ 27) (x : ℕ) :
    PageTable L (v.store (8 * w) x) t S l ∧
      ∀ u' < 2 ^ 27, Radix.value pteCoding (v.store (8 * w) x).mem 2 t u' =
        if u' = u then (if pteCoding.valid x then some x else none)
        else Radix.value pteCoding v.mem 2 t u' := by
  have word : (v.store (8 * w) x).mem = Function.update v.mem w x := by
    simp [Vm.store]
  have page := Radix.place_mem table.tree found
  refine ⟨⟨?_, ?_, table.apart, table.pos⟩, ?_⟩
  · refine table.toFreeList.congr rfl ?_
    intro k member
    rw [word, Function.update_of_ne]
    rintro rfl
    exact table.apart _ member page
  · rw [word]
    exact (table.tree.store found x).1
  · intro u' small'
    rw [word]
    exact Radix.value_store table.tree found x small small'

theorem PageTable.place_store (table : PageTable L v t S l)
    (found : Radix.place pteCoding v.mem 2 t u = some w) {x u' : ℕ} :
    Radix.place pteCoding (v.store (8 * w) x).mem 2 t u' =
      Radix.place pteCoding v.mem 2 t u' := by
  have word : (v.store (8 * w) x).mem = Function.update v.mem w x := by
    simp [Vm.store]
  rw [word]
  exact (table.tree.store found x).2 u'

theorem PageTable.keeps_store (table : PageTable L v t S l)
    (found : Radix.place pteCoding v.mem 2 t u = some w) (x : ℕ) :
    Keeps v (v.store (8 * w) x) (· ∉ S) := by
  intro w' outside
  have word : (v.store (8 * w) x).mem = Function.update v.mem w x := by
    simp [Vm.store]
  rw [word, Function.update_of_ne]
  rintro rfl
  exact outside (Radix.place_mem table.tree found)

/-- The leaf entry that `mappages` writes. -/
theorem leaf_entry (f : ℕ) {perm : ℕ} (flags : perm < 1024) :
    PA2PTE (PGSIZE * f) ||| perm ||| PTE_V = f * 1024 + (perm ||| PTE_V) := by
  have joined : perm ||| PTE_V < 1024 := Nat.or_lt_two_pow (n := 10) flags (by decide)
  rw [Nat.or_assoc, entry_eq f joined]

theorem leaf_valid (f perm : ℕ) : pteCoding.valid (f * 1024 + (perm ||| PTE_V)) = true := by
  refine (valid_iff _).mpr ?_
  rw [entry_and f (by decide), Nat.and_or_distrib_right]
  have bit : perm &&& PTE_V ||| 1 ≠ 0 := by
    intro zero
    have low : 1 ≤ perm &&& PTE_V ||| 1 := Nat.right_le_or
    omega
  exact bit

/-- The bottom pages that `n` pages from `u` on lie in. -/
def blocks (u n : ℕ) : ℕ := if n = 0 then 0 else (u + n - 1) / 512 - u / 512 + 1

theorem place_block (mem : ℕ → ℕ) (t : ℕ) {u u' : ℕ} (same : u / 512 = u' / 512) :
    (Radix.place pteCoding mem 2 t u).isSome = (Radix.place pteCoding mem 2 t u').isSome := by
  refine Radix.place_isSome_key fun k pos low => ?_
  obtain ⟨k, rfl⟩ : ∃ j, k = j + 1 := ⟨k - 1, by omega⟩
  change u / 512 ^ (k + 1) % 512 = u' / 512 ^ (k + 1) % 512
  rw [Nat.pow_succ', ← Nat.div_div_eq_div_mul, ← Nat.div_div_eq_div_mul, same]

/-- The loop of `mappages` over the pages from `u` on. -/
theorem PageTable.mapLoop (table : PageTable L v t S l) {f perm : ℕ} (high : u + n ≤ 2 ^ 26)
    (frames : f + n ≤ 2 ^ 50) (flags : perm < 1024)
    (unmapped : ∀ k < n, Radix.value pteCoding v.mem 2 t (u + k) = none) :
    Sat (mapLoop (PGSIZE * t) perm n (PGSIZE * u) (PGSIZE * f)) v E fun ok v' =>
      ∃ used l', l = used ++ l' ∧ PageTable L v' t {m | m ∈ S ∨ m ∈ used} l' ∧
        (∀ u' < 2 ^ 27, u' < u ∨ u + n ≤ u' →
          Radix.value pteCoding v'.mem 2 t u' = Radix.value pteCoding v.mem 2 t u') ∧
        (ok = true → ∀ k < n, Radix.value pteCoding v'.mem 2 t (u + k) =
          some ((f + k) * 1024 + (perm ||| PTE_V))) ∧
        (ok = false → l' = [] ∧ ∃ k < n, ∀ j, k ≤ j → j < n →
          Radix.value pteCoding v'.mem 2 t (u + j) = none) ∧
        (Keeps v v' fun m => m ∉ S ∧ m ∉ used) ∧
        used.length ≤ 2 * blocks u n ∧
        ((Radix.place pteCoding v.mem 2 t u).isSome → used.length ≤ 2 * (blocks u n - 1)) := by
  induction n generalizing v S l u f with
  | zero =>
    refine Sat.pure ⟨[], l, rfl, by simpa using table, fun _ _ _ => rfl, ?_, by simp,
      fun _ _ => rfl, Nat.zero_le _, fun _ => Nat.zero_le _⟩
    intro _ k low
    omega
  | succ n ih =>
    unfold HaloOS.mapLoop
    refine Sat.bind (table.walk (pageVa_lt (by omega))) ?_
    rintro r v₁ ⟨used, l₁, grows, table₁, few, none, ⟨rfl, rfl⟩ | ⟨w, found, rfl, nonzero⟩⟩
    · rw [if_pos rfl]
      refine Sat.pure ⟨used, [], grows.list, table₁, fun u' _ _ => grows.values u', by simp,
        fun _ => ⟨rfl, 0, by omega, fun j _ low => ?_⟩, grows.keeps, ?_, ?_⟩
      · rw [grows.values, unmapped j low]
      · rw [blocks, if_neg (by omega)]
        omega
      · rw [page_number] at none
        exact fun some => by simp [none some]
    rw [page_number] at found
    rw [if_neg nonzero]
    refine Sat.bind (Sat.gets (Q := fun e s => e = v₁.mem w ∧ v₁ = s) ⟨by simp [Vm.load], rfl⟩) ?_
    rintro _ _ ⟨rfl, rfl⟩
    have absent : ¬ (v₁.mem w &&& PTE_V ≠ 0) := by
      have none := unmapped 0 (by omega)
      rw [← grows.values, Nat.add_zero, Radix.value, found, Option.bind_some] at none
      intro valid
      rw [if_pos ((valid_iff _).mpr valid)] at none
      cases none
    refine Sat.bind (Sat.stopIf (Q := fun _ s => v₁ = s) (fun taken => absurd taken absent)
      fun _ => rfl) ?_
    rintro _ _ rfl
    refine Sat.bind (Sat.update (Q := fun _ s => s = v₁.store (8 * w) (f * 1024 + (perm ||| PTE_V)))
      (by rw [leaf_entry f flags])) ?_
    rintro _ v₂ rfl
    obtain ⟨table₂, values⟩ := table₁.store found (by omega) (f * 1024 + (perm ||| PTE_V))
    have stored := table₁.keeps_store found (f * 1024 + (perm ||| PTE_V))
    rw [leaf_valid, if_pos rfl] at values
    have next : (PGSIZE * u + PGSIZE) % WORD = PGSIZE * (u + 1) := by
      simp only [PGSIZE, WORD]
      omega
    have next' : (PGSIZE * f + PGSIZE) % WORD = PGSIZE * (f + 1) := by
      simp only [PGSIZE, WORD]
      omega
    rw [next, next']
    refine (ih table₂ (by omega) (by omega) ?_).mono ?_
    · intro k low
      rw [values _ (by omega), if_neg (by omega), grows.values]
      have none := unmapped (k + 1) (by omega)
      rwa [show u + (k + 1) = u + 1 + k by omega] at none
    rintro ok v' ⟨used', l', rfl, table', others, mapped, full, keeps, count, again⟩
    rw [page_number] at none
    have here : (Radix.place pteCoding (v₁.store (8 * w) (f * 1024 + (perm ||| PTE_V))).mem 2 t
        u).isSome := by
      rw [table₁.place_store found, found]
      rfl
    have total : used.length + used'.length ≤ used.length + 2 * (blocks u (n + 1) - 1) := by
      by_cases last : n = 0
      · subst last
        simp only [blocks, if_true] at count
        omega
      · by_cases same : u / 512 = (u + 1) / 512
        · rw [place_block _ t same] at here
          have fewer := again here
          simp only [blocks, if_neg last, if_neg (show n + 1 ≠ 0 by omega)] at fewer ⊢
          omega
        · simp only [blocks, if_neg last, if_neg (show n + 1 ≠ 0 by omega)] at count ⊢
          omega
    have positive : 0 < blocks u (n + 1) := by
      rw [blocks, if_neg (by omega)]
      omega
    refine ⟨used ++ used', l', by rw [grows.list, List.append_assoc], ?_, ?_, ?_, ?_, ?_, ?_, ?_⟩
    rotate_right 2
    · rw [List.length_append]
      omega
    · intro some
      rw [List.length_append]
      simp only [none some, List.length_nil] at total ⊢
      omega
    · have pages : {m | m ∈ S ∨ m ∈ used ++ used'} =
          {m | m ∈ {m | m ∈ S ∨ m ∈ used} ∨ m ∈ used'} := by
        ext m
        simp [or_assoc]
      rwa [pages]
    · intro u' small outside
      rw [others u' small (by omega), values u' small, if_neg (by omega), grows.values]
    · intro done k low
      cases k with
      | zero =>
        rw [others _ (by omega) (by omega), values _ (by omega), if_pos (by omega)]
        rfl
      | succ k =>
        have later := mapped done k (by omega)
        rwa [show u + 1 + k = u + (k + 1) by omega, show f + 1 + k = f + (k + 1) by omega] at later
    · intro failed
      obtain ⟨rfl, k, low, rest⟩ := full failed
      refine ⟨rfl, k + 1, by omega, fun j above below => ?_⟩
      have later := rest (j - 1) (by omega) (by omega)
      rwa [show u + 1 + (j - 1) = u + j by omega] at later
    · have apart : ∀ m, m ∉ S ∧ m ∉ used ++ used' → (m ∉ S ∧ m ∉ used) ∧ m ∉ used' := by
        rintro m ⟨outside, unused⟩
        rw [List.mem_append, not_or] at unused
        exact ⟨⟨outside, unused.1⟩, unused.2⟩
      refine (grows.keeps.mono fun m far => (apart m far).1).trans
        ((stored.mono fun m far => ?_).trans (keeps.mono fun m far => ?_))
      · exact not_or.mpr (apart m far).1
      · exact ⟨not_or.mpr (apart m far).1, (apart m far).2⟩

theorem leaf_flags {perm : ℕ} (leaf : perm &&& (PTE_R ||| PTE_W ||| PTE_X) ≠ 0) :
    perm ||| PTE_V ≠ PTE_V := by
  intro bare
  have low : perm ≤ PTE_V := bare ▸ Nat.left_le_or
  have cases : perm = 0 ∨ perm = 1 := by
    simp only [PTE_V] at low
    omega
  rcases cases with rfl | rfl
  · exact leaf (by decide)
  · exact leaf (by decide)

/-- The frame of an entry may be given back: it is a page of its own, outside of the table. -/
structure OwnFrames (L : Layout) (S : Set ℕ) (l : List ℕ) (n : ℕ) (entries : ℕ → ℕ) : Prop where
  managed : ∀ k < n, Managed L (pteCoding.child (entries k))
  apart : ∀ k < n, pteCoding.child (entries k) ∉ S
  used : ∀ k < n, pteCoding.child (entries k) ∉ l
  distinct : ∀ j < n, ∀ k < n, pteCoding.child (entries j) = pteCoding.child (entries k) → j = k

/-- `kfree` of a page outside of the table. -/
theorem PageTable.kfree (table : PageTable L v t S l) (managed : Managed L n) (used : n ∉ l)
    (apart : n ∉ S) :
    Sat (kfree L (PGSIZE * n)) v E fun _ v' => PageTable L v' t S (n :: l) ∧
      (∀ w, w / 512 ∈ S → v'.mem w = v.mem w) ∧ Keeps v v' (· ≠ n) := by
  refine (table.toFreeList.kfree managed used).mono ?_
  rintro _ v' ⟨keeps, free⟩
  have same : ∀ w, w / 512 ∈ S → v'.mem w = v.mem w := by
    intro w member
    refine keeps w ?_
    rintro rfl
    exact apart member
  refine ⟨⟨free, table.tree.congr same, ?_, table.pos⟩, same, keeps⟩
  intro m member
  rcases List.mem_cons.mp member with rfl | old
  · exact apart
  · exact table.apart m old

/-- `walk` without allocation ends at the word of a value. -/
theorem PageTable.walkLeaf (table : PageTable L v t S l) {pte : ℕ} (small : u < 2 ^ 26)
    (mapped : Radix.value pteCoding v.mem 2 t u = some pte) :
    ∃ w, Radix.place pteCoding v.mem 2 t u = some w ∧ v.mem w = pte ∧ pte &&& PTE_V ≠ 0 ∧
      8 * w ≠ 0 ∧ HaloOS.walk (PGSIZE * t) (PGSIZE * u) false v = .ok (8 * w, v) := by
  obtain ⟨w, found, valid, entry⟩ := Radix.value_eq_some.mp mapped
  refine ⟨w, found, entry, entry ▸ (valid_iff _).mp valid, ?_, ?_⟩
  · have above := table.pos _ (Radix.place_mem table.tree found)
    rw [pteCoding_fan] at above
    omega
  · have low := pageVa_lt small
    unfold HaloOS.walk
    rw [bind_run, stopIf_run, if_neg (by omega)]
    simp only [walkFrom_place, page_number, found, Option.elim_some]

/-- One round of `uvmunmap`. -/
theorem PageTable.unmapRound (table : PageTable L v t S l) {pte : ℕ} {Q : Unit → Vm → Prop}
    (small : u < 2 ^ 26) (mapped : Radix.value pteCoding v.mem 2 t u = some pte)
    (leaf : PTE_FLAGS pte ≠ PTE_V)
    (frame : doFree = true → Managed L (pteCoding.child pte) ∧ pteCoding.child pte ∉ l ∧
      pteCoding.child pte ∉ S)
    (next : ∀ v' l', PageTable L v' t S l' →
      l' = (if doFree = true then pteCoding.child pte :: l else l) →
      Keeps v v' (fun m => m ∉ S ∧ (doFree = true → m ≠ pteCoding.child pte)) →
      (∀ u' < 2 ^ 27, Radix.value pteCoding v'.mem 2 t u' =
        if u' = u then none else Radix.value pteCoding v.mem 2 t u') →
      Sat (unmapLoop L (PGSIZE * t) doFree n (PGSIZE * (u + 1))) v' E Q) :
    Sat (unmapLoop L (PGSIZE * t) doFree (n + 1) (PGSIZE * u)) v E Q := by
  obtain ⟨w, found, entry, valid, nonzero, walked⟩ := table.walkLeaf small mapped
  have following : PGSIZE * u + PGSIZE = PGSIZE * (u + 1) := by
    simp only [PGSIZE]
    omega
  unfold HaloOS.unmapLoop
  refine Sat.bind (Sat.ofRun (Q := fun r s => r = 8 * w ∧ v = s) walked ⟨rfl, rfl⟩) ?_
  rintro _ _ ⟨rfl, rfl⟩
  refine Sat.bind (Sat.stopIf (Q := fun _ s => v = s) (fun zero => absurd zero nonzero)
    fun _ => rfl) ?_
  rintro _ _ rfl
  refine Sat.bind (Sat.gets (Q := fun e s => pte = e ∧ v = s) ⟨by simp [Vm.load, entry], rfl⟩) ?_
  rintro _ _ ⟨rfl, rfl⟩
  refine Sat.bind (Sat.stopIf (Q := fun _ s => v = s)
    (fun zero => absurd zero valid) fun _ => rfl) ?_
  rintro _ _ rfl
  refine Sat.bind (Sat.stopIf (Q := fun _ s => v = s) (fun flags => absurd flags leaf)
    fun _ => rfl) ?_
  rintro _ _ rfl
  -- giving the frame back writes into it, and it is no page of the table
  refine Sat.bind (Q := fun _ v₁ => ∃ l₁, PageTable L v₁ t S l₁ ∧
    (l₁ = if doFree = true then pteCoding.child pte :: l else l) ∧
    (∀ w, w / 512 ∈ S → v₁.mem w = v.mem w) ∧
    Keeps v v₁ fun m => doFree = true → m ≠ pteCoding.child pte) (Sat.onlyIf ?_ ?_) ?_
  · intro freed
    obtain ⟨managed, used, apart⟩ := frame freed
    rw [PTE2PA_child]
    refine (table.kfree managed used apart).mono ?_
    rintro _ v₁ ⟨table₁, same, keeps⟩
    exact ⟨_, table₁, by rw [if_pos freed], same, keeps.mono fun m far => far freed⟩
  · intro kept
    exact ⟨l, table, by rw [if_neg kept], fun _ _ => rfl, fun _ _ => rfl⟩
  rintro _ v₁ ⟨l₁, table₁, list, same, keeps⟩
  have found₁ : Radix.place pteCoding v₁.mem 2 t u = some w := by
    rw [Radix.place_congr table.tree same, found]
  obtain ⟨table₂, values⟩ := table₁.store found₁ (by omega) 0
  have cleared := table₁.keeps_store found₁ 0
  refine Sat.bind (Sat.update (Q := fun _ s => s = v₁.store (8 * w) 0) rfl) ?_
  rintro _ _ rfl
  rw [following]
  have kept : Keeps v (v₁.store (8 * w) 0)
      fun m => m ∉ S ∧ (doFree = true → m ≠ pteCoding.child pte) :=
    (keeps.mono fun m far => far.2).trans (cleared.mono fun m far => far.1)
  refine next _ l₁ table₂ list kept fun u' low => ?_
  rw [values u' low, Radix.value_congr table.tree same]
  rfl

/-- The free list after the frames of `n` entries have been given back in turn. -/
def freedFrames (doFree : Bool) (entries : ℕ → ℕ) (n : ℕ) (l : List ℕ) : List ℕ :=
  if doFree then ((List.range n).map fun k => pteCoding.child (entries k)).reverse ++ l else l

theorem freedFrames_succ (entries : ℕ → ℕ) :
    freedFrames doFree entries (n + 1) l = freedFrames doFree (fun k => entries (k + 1)) n
      (if doFree = true then pteCoding.child (entries 0) :: l else l) := by
  cases doFree with
  | false => simp [freedFrames]
  | true =>
    simp [freedFrames, List.range_succ_eq_map, Function.comp_def]

/-- The loop of `uvmunmap` over the pages from `u` on. -/
theorem PageTable.unmapLoop (table : PageTable L v t S l) (entries : ℕ → ℕ)
    (high : u + n ≤ 2 ^ 26)
    (mapped : ∀ k < n, Radix.value pteCoding v.mem 2 t (u + k) = some (entries k))
    (leaves : ∀ k < n, PTE_FLAGS (entries k) ≠ PTE_V)
    (frames : doFree = true → OwnFrames L S l n entries) :
    Sat (unmapLoop L (PGSIZE * t) doFree n (PGSIZE * u)) v E fun _ v' =>
      PageTable L v' t S (freedFrames doFree entries n l) ∧
        (∀ u' < 2 ^ 27, Radix.value pteCoding v'.mem 2 t u' =
          if u ≤ u' ∧ u' < u + n then none else Radix.value pteCoding v.mem 2 t u') ∧
        Keeps v v' fun m => m ∉ S ∧
          (doFree = true → ∀ k < n, m ≠ pteCoding.child (entries k)) := by
  induction n generalizing v l u entries with
  | zero =>
    refine Sat.pure ⟨by cases doFree <;> exact table, ?_, fun _ _ => rfl⟩
    intro u' _
    rw [if_neg (by omega)]
  | succ n ih =>
    refine table.unmapRound (by omega) (mapped 0 (by omega)) (leaves 0 (by omega)) ?_ ?_
    · intro freed
      obtain ⟨managed, apart, used, -⟩ := frames freed
      exact ⟨managed 0 (by omega), used 0 (by omega), apart 0 (by omega)⟩
    intro v₁ l₁ table₁ list kept values
    refine (ih table₁ (fun k => entries (k + 1)) (by omega) ?_ ?_ ?_).mono ?_
    · intro k low
      have later := mapped (k + 1) (by omega)
      rw [values _ (by omega), if_neg (by omega), ← later]
      congr 1
      omega
    · exact fun k low => leaves (k + 1) (by omega)
    · intro freed
      obtain ⟨managed, apart, used, distinct⟩ := frames freed
      refine ⟨fun k low => managed _ (by omega), fun k low => apart _ (by omega), ?_, ?_⟩
      · intro k low
        rw [list, if_pos freed, List.mem_cons, not_or]
        refine ⟨fun clash => ?_, used _ (by omega)⟩
        have same := distinct _ (by omega) _ (by omega) clash
        omega
      · intro j low k low' clash
        have same := distinct _ (by omega) _ (by omega) clash
        omega
    · rintro _ v' ⟨table', others, keeps⟩
      rw [list, ← freedFrames_succ] at table'
      refine ⟨table', fun u' small => ?_, (kept.mono ?_).trans (keeps.mono ?_)⟩
      rotate_left
      · exact fun m far => ⟨far.1, fun taken => far.2 taken 0 (by omega)⟩
      · exact fun m far => ⟨far.1, fun taken k low => far.2 taken (k + 1) (by omega)⟩
      rw [others u' small, values u' small]
      by_cases first : u' = u
      · rw [if_pos first, if_pos (by omega : u ≤ u' ∧ u' < u + (n + 1)), ite_self]
      · rw [if_neg first]
        by_cases later : u + 1 ≤ u' ∧ u' < u + 1 + n
        · rw [if_pos later, if_pos (by omega)]
        · rw [if_neg later, if_neg (by omega)]

end Ranges

section Translations

variable {S' : Set ℕ} {P : ℕ → Prop} {va size pa perm npages : ℕ} {doFree : Bool}

/-- The pages of `[PGROUNDDOWN(va), PGROUNDDOWN(va + size - 1)]`, by number. -/
def InRange (va size u : ℕ) : Prop := va / PGSIZE ≤ u ∧ u ≤ (va + size - 1) / PGSIZE

/-- The addresses on pages outside of `P` translate as before, for `walk` and for the hardware. -/
def SameOutside (v v' : Vm) (t : ℕ) (P : ℕ → Prop) : Prop :=
  (∀ a, ¬ P (a / PGSIZE) → lookup v' (PGSIZE * t) a = lookup v (PGSIZE * t) a) ∧
    ∀ u < 2 ^ 27, ¬ P u → sv39 v'.mem u 2 (PGSIZE * t) = sv39 v.mem u 2 (PGSIZE * t)

theorem page_lt {a : ℕ} (low : a < MAXVA) : a / PGSIZE < 2 ^ 26 := by
  simp only [PGSIZE, MAXVA] at low ⊢
  omega

theorem PageTable.lookup (table : PageTable L v t S l) {a : ℕ} (low : a < MAXVA) :
    lookup v (PGSIZE * t) a = Radix.value pteCoding v.mem 2 t (a / PGSIZE) := by
  rw [lookup_eq table.pos table.tree, if_pos low]

theorem PageTable.sameOutside (table : PageTable L v t S l) (table' : PageTable L v' t S' l')
    (same : ∀ u < 2 ^ 27, ¬ P u →
      Radix.value pteCoding v'.mem 2 t u = Radix.value pteCoding v.mem 2 t u) :
    SameOutside v v' t P := by
  constructor
  · intro a outside
    by_cases low : a < MAXVA
    · have page := page_lt low
      rw [table.lookup low, table'.lookup low, same _ (by omega) outside]
    · rw [lookup_eq table.pos table.tree, lookup_eq table'.pos table'.tree, if_neg low, if_neg low]
  · intro u small outside
    rw [sv39_value table.tree, sv39_value table'.tree, same u small outside]

/-- `mappages` counts the pages of its range. -/
theorem mappages_eq (pos : 0 < size) (fits : va + size ≤ MAXVA) (v : Vm) (pagetable : ℕ) :
    mappages pagetable va size pa perm v =
      mapLoop pagetable perm ((va + size - 1) / PGSIZE - va / PGSIZE + 1)
        (PGSIZE * (va / PGSIZE)) pa v := by
  have count : (PGROUNDDOWN ((va + size - 1) % WORD) + WORD - PGROUNDDOWN va) % WORD / PGSIZE + 1 =
      (va + size - 1) / PGSIZE - va / PGSIZE + 1 := by
    simp only [PGROUNDDOWN, PGSIZE, WORD, MAXVA] at fits ⊢
    omega
  have start : PGROUNDDOWN va = PGSIZE * (va / PGSIZE) := Nat.mul_comm _ _
  unfold mappages
  rw [bind_run, stopIf_run, if_neg (by omega)]
  simp only [count]
  rw [start]

/-- `mappages` adds the translations of its range and no others. -/
theorem PageTable.mappages (table : PageTable L v t S l) {f : ℕ} (pos : 0 < size)
    (fits : va + size ≤ MAXVA) (frame : f < 2 ^ 44) (flags : perm < 1024)
    (unmapped : ∀ u, InRange va size u → Radix.value pteCoding v.mem 2 t u = none) :
    ∃ ok v' used l', mappages (PGSIZE * t) va size (PGSIZE * f) perm v = .ok (ok, v') ∧
      l = used ++ l' ∧ PageTable L v' t {m | m ∈ S ∨ m ∈ used} l' ∧
      (∀ u < 2 ^ 27, ¬ InRange va size u →
        Radix.value pteCoding v'.mem 2 t u = Radix.value pteCoding v.mem 2 t u) ∧
      (ok = false → l' = [] ∧ ∃ stop, InRange va size stop ∧ ∀ u, InRange va size u → stop ≤ u →
        Radix.value pteCoding v'.mem 2 t u = none) ∧
      (ok = true → ∀ u, InRange va size u → Radix.value pteCoding v'.mem 2 t u =
        some ((f + (u - va / PGSIZE)) * 1024 + (perm ||| PTE_V))) ∧
      (Keeps v v' fun m => m ∉ S ∧ m ∉ used) ∧
      used.length ≤ 2 * ((va + size - 1) / PGSIZE / 512 - va / PGSIZE / 512 + 1) := by
  have last := page_lt (show va + size - 1 < MAXVA by omega)
  have first := Nat.zero_le (va / PGSIZE)
  have order : va / PGSIZE ≤ (va + size - 1) / PGSIZE := Nat.div_le_div_right (by omega)
  rw [mappages_eq pos fits]
  unfold InRange at *
  generalize (va + size - 1) / PGSIZE = final at *
  generalize va / PGSIZE = u at *
  obtain ⟨ok, v', returned, used, l', list, table', others, mapped, full, keeps, count, -⟩ :=
    (table.mapLoop (E := fun _ => False) (u := u) (n := final - u + 1) (f := f) (by omega)
      (by omega) flags fun k low => unmapped (u + k) ⟨by omega, by omega⟩).returns
  rw [blocks, if_neg (by omega), show u + (final - u + 1) - 1 = final by omega] at count
  refine ⟨ok, v', used, l', returned, list, table', ?_, fun failed => ?_, ?_, keeps, count⟩
  · exact fun u' small outside => others u' small (by omega)
  · obtain ⟨empty, k, low, rest⟩ := full failed
    refine ⟨empty, u + k, ⟨by omega, by omega⟩, ?_⟩
    rintro u' ⟨lower, upper⟩ above
    have absent := rest (u' - u) (by omega) (by omega)
    rwa [Nat.add_sub_cancel' lower] at absent
  · rintro done u' ⟨lower, upper⟩
    have entry := mapped done (u' - u) (by omega)
    rwa [Nat.add_sub_cancel' lower] at entry

instance (va size u : ℕ) : Decidable (InRange va size u) := inferInstanceAs (Decidable (_ ∧ _))

/-- The pages that mapping a range may add to a table. -/
def tableCost (va size : ℕ) : ℕ := 2 * ((va + size - 1) / PGSIZE / 512 - va / PGSIZE / 512 + 1)

/-- `kvmmap` adds the translations of its range as long as the free list lasts. -/
theorem PageTable.kvmmap (table : PageTable L v t S l) {f : ℕ} (pos : 0 < size)
    (fits : va + size ≤ MAXVA) (frame : f < 2 ^ 44) (flags : perm < 1024)
    (unmapped : ∀ u, InRange va size u → Radix.value pteCoding v.mem 2 t u = none)
    (enough : tableCost va size < l.length) :
    Sat (kvmmap (PGSIZE * t) va (PGSIZE * f) size perm) v E fun _ v' =>
      ∃ used l', l = used ++ l' ∧ used.length ≤ tableCost va size ∧
        PageTable L v' t {m | m ∈ S ∨ m ∈ used} l' ∧
        (∀ u < 2 ^ 27, Radix.value pteCoding v'.mem 2 t u =
          if InRange va size u then some ((f + (u - va / PGSIZE)) * 1024 + (perm ||| PTE_V))
          else Radix.value pteCoding v.mem 2 t u) ∧
        Keeps v v' fun m => m ∉ S ∧ m ∉ used := by
  obtain ⟨ok, v', used, l', returned, rfl, table', others, failed, mapped, keeps, count⟩ :=
    table.mappages pos fits frame flags unmapped
  change used.length ≤ tableCost va size at count
  cases ok with
  | false =>
    obtain ⟨rfl, -⟩ := failed rfl
    rw [List.append_nil] at enough
    omega
  | true =>
    unfold HaloOS.kvmmap
    refine Sat.bind (Sat.ofRun (Q := fun r s => r = true ∧ v' = s) returned ⟨rfl, rfl⟩) ?_
    rintro _ _ ⟨rfl, rfl⟩
    refine Sat.stopIf (fun bad => nomatch bad) fun _ => ⟨used, l', rfl, count, table', ?_, keeps⟩
    intro u small
    by_cases inside : InRange va size u
    · rw [if_pos inside, mapped rfl u inside]
    · rw [if_neg inside, others u small inside]

/-- `uvmunmap` takes away the translations of its range and no others. -/
theorem PageTable.uvmunmap (table : PageTable L v t S l) (aligned : va % PGSIZE = 0)
    (fits : va + npages * PGSIZE ≤ MAXVA)
    (mapped : ∀ k < npages, ∃ pte, HaloOS.lookup v (PGSIZE * t) (va + k * PGSIZE) = some pte ∧
      PTE_FLAGS pte ≠ PTE_V)
    (frames : doFree = true → OwnFrames L S l npages fun k =>
      (HaloOS.lookup v (PGSIZE * t) (va + k * PGSIZE)).getD 0) :
    ∃ v' l', uvmunmap L (PGSIZE * t) va npages doFree v = .ok ((), v') ∧ PageTable L v' t S l' ∧
      ∀ u < 2 ^ 27, Radix.value pteCoding v'.mem 2 t u =
        if va / PGSIZE ≤ u ∧ u < va / PGSIZE + npages then none
        else Radix.value pteCoding v.mem 2 t u := by
  obtain ⟨u, rfl⟩ := Nat.dvd_of_mod_eq_zero aligned
  have high : u + npages ≤ 2 ^ 26 := by
    simp only [PGSIZE, MAXVA] at fits
    omega
  rw [uvmunmap_eq high]
  have looked : ∀ k < npages, HaloOS.lookup v (PGSIZE * t) (PGSIZE * u + k * PGSIZE) =
      Radix.value pteCoding v.mem 2 t (u + k) := by
    intro k low
    have address : PGSIZE * u + k * PGSIZE = PGSIZE * (u + k) := by
      rw [Nat.mul_add, Nat.mul_comm k]
    rw [address, table.lookup (pageVa_lt (by omega)), page_number]
  have loop := table.unmapLoop (E := fun _ => False)
    (fun k => (HaloOS.lookup v (PGSIZE * t) (PGSIZE * u + k * PGSIZE)).getD 0) high ?_ ?_ frames
  · obtain ⟨_, v', returned, table', values, -⟩ := loop.returns
    refine ⟨v', _, returned, table', ?_⟩
    rwa [page_number]
  · intro k low
    obtain ⟨pte, found, -⟩ := mapped k low
    rw [found, Option.getD_some, ← looked k low, found]
  · intro k low
    obtain ⟨pte, found, leaf⟩ := mapped k low
    rwa [found]

/-- A page table is a finite map: `mappages` adds the translations of a range that had none and
`uvmunmap` takes those of a range away; all others stay, also when the allocator is exhausted on
the way, and so the second undoes the first. -/
theorem page_table_maps (table : PageTable L v t S l) :
    (∀ va size pa perm, 0 < size → va + size ≤ MAXVA → pa % PGSIZE = 0 → pa < 2 ^ 56 →
      perm < 1024 → perm &&& (PTE_R ||| PTE_W ||| PTE_X) ≠ 0 →
      (∀ a, InRange va size (a / PGSIZE) → lookup v (PGSIZE * t) a = none) →
      ∃ ok v' used l', mappages (PGSIZE * t) va size pa perm v = .ok (ok, v') ∧
        l = used ++ l' ∧ PageTable L v' t {m | m ∈ S ∨ m ∈ used} l' ∧
        SameOutside v v' t (InRange va size) ∧ (ok = false → l' = []) ∧
        (ok = true →
          (∀ a, InRange va size (a / PGSIZE) → ∃ pte, lookup v' (PGSIZE * t) a = some pte ∧
            PTE2PA pte = pa + (PGROUNDDOWN a - PGROUNDDOWN va) ∧
            PTE_FLAGS pte = perm ||| PTE_V) ∧
          ∃ v'' l'', uvmunmap L (PGSIZE * t) (PGROUNDDOWN va)
              ((va + size - 1) / PGSIZE - va / PGSIZE + 1) false v' = .ok ((), v'') ∧
            PageTable L v'' t {m | m ∈ S ∨ m ∈ used} l'' ∧ SameOutside v v'' t fun _ => False)) ∧
    ∀ va npages doFree, va % PGSIZE = 0 → va + npages * PGSIZE ≤ MAXVA →
      (∀ k < npages, ∃ pte, lookup v (PGSIZE * t) (va + k * PGSIZE) = some pte ∧
        PTE_FLAGS pte ≠ PTE_V) →
      (doFree = true → OwnFrames L S l npages fun k =>
        (lookup v (PGSIZE * t) (va + k * PGSIZE)).getD 0) →
      ∃ v', uvmunmap L (PGSIZE * t) va npages doFree v = .ok ((), v') ∧
        (∃ l', PageTable L v' t S l') ∧
        (∀ a, va ≤ a → a < va + npages * PGSIZE → lookup v' (PGSIZE * t) a = none) ∧
        SameOutside v v' t fun u => va / PGSIZE ≤ u ∧ u < va / PGSIZE + npages := by
  constructor
  · intro va size pa perm pos fits aligned frames flags leaf unmapped
    obtain ⟨f, rfl⟩ := Nat.dvd_of_mod_eq_zero aligned
    have frame : f < 2 ^ 44 := by
      simp only [PGSIZE] at frames
      omega
    have joined : perm ||| PTE_V < 1024 := Nat.or_lt_two_pow (n := 10) flags (by decide)
    have first := Nat.zero_le (va / PGSIZE)
    have last := page_lt (show va + size - 1 < MAXVA by omega)
    have order : va / PGSIZE ≤ (va + size - 1) / PGSIZE := Nat.div_le_div_right (by omega)
    have free : ∀ u, InRange va size u → Radix.value pteCoding v.mem 2 t u = none := by
      intro u inside
      have absent := unmapped (PGSIZE * u) (by rwa [page_number])
      rwa [table.lookup (pageVa_lt (by have upper := inside.2; omega)), page_number] at absent
    obtain ⟨ok, v', used, l', returned, list, table', others, full, mapped, -, -⟩ :=
      table.mappages pos fits frame flags free
    refine ⟨ok, v', used, l', returned, list, table', table.sameOutside table' others,
      fun failed => (full failed).1, ?_⟩
    intro done
    constructor
    · intro a inside
      have low : a < MAXVA := by
        have upper := inside.2
        simp only [PGSIZE, MAXVA] at upper last ⊢
        omega
      refine ⟨_, (table'.lookup low).trans (mapped done _ inside), ?_, entry_flags _ joined⟩
      have upper := inside.2
      rw [entry_frame (by omega) joined, Nat.mul_add, PGROUNDDOWN, PGROUNDDOWN, ← Nat.sub_mul,
        Nat.mul_comm (a / PGSIZE - va / PGSIZE)]
    · generalize count : (va + size - 1) / PGSIZE - va / PGSIZE + 1 = n
      have address : ∀ k, PGROUNDDOWN va + k * PGSIZE = PGSIZE * (va / PGSIZE + k) := by
        intro k
        rw [PGROUNDDOWN, ← Nat.add_mul, Nat.mul_comm]
      have bound : PGROUNDDOWN va + n * PGSIZE ≤ MAXVA := by
        rw [address]
        exact Nat.mul_le_mul_left PGSIZE (show va / PGSIZE + n ≤ 2 ^ 26 by omega)
      have leaves : ∀ k < n, ∃ pte,
          lookup v' (PGSIZE * t) (PGROUNDDOWN va + k * PGSIZE) = some pte ∧
            PTE_FLAGS pte ≠ PTE_V := by
        intro k low
        have inside : InRange va size (va / PGSIZE + k) := ⟨by omega, by omega⟩
        refine ⟨(f + k) * 1024 + (perm ||| PTE_V), ?_, ?_⟩
        · rw [address, table'.lookup (pageVa_lt (by omega)), page_number, mapped done _ inside,
            Nat.add_sub_cancel_left]
        · rw [entry_flags _ joined]
          exact leaf_flags leaf
      have whole : PGROUNDDOWN va % PGSIZE = 0 := Nat.mul_mod_left _ _
      obtain ⟨v'', l'', undone, table'', values⟩ := table'.uvmunmap whole bound leaves
        fun taken : false = true => absurd taken Bool.false_ne_true
      refine ⟨v'', l'', undone, table'', table.sameOutside table'' fun u small _ => ?_⟩
      have start : PGROUNDDOWN va / PGSIZE = va / PGSIZE := Nat.mul_div_cancel _ (by decide)
      rw [values u small, start]
      by_cases inside : InRange va size u
      · have span := inside
        unfold InRange at span
        rw [if_pos (by omega), free u inside]
      · have span := inside
        unfold InRange at span
        rw [if_neg (by omega), others u small inside]
  · intro va npages doFree aligned fits mapped frames
    obtain ⟨v', l', returned, table', values⟩ := table.uvmunmap aligned fits mapped frames
    refine ⟨v', returned, ⟨l', table'⟩, ?_, table.sameOutside table' ?_⟩
    · intro a lower upper
      have low : a < MAXVA := by omega
      have page := page_lt low
      rw [table'.lookup low, values _ (by omega), if_pos]
      simp only [PGSIZE] at *
      omega
    · intro u small outside
      rw [values u small, if_neg outside]

theorem bootVm_blank (free : ℕ) (below : n < FIRSTPG) : ∀ i < pteCoding.fan,
    pteCoding.valid ((bootVm free).mem (pteCoding.fan * n + i)) = false := by
  intro i low
  rw [pteCoding_fan] at low ⊢
  have page : (512 * n + i) / 512 = n := by omega
  have zero : (bootVm free).mem (512 * n + i) = 0 := by
    simp only [bootVm, page]
    exact if_neg (by omega)
  rw [zero]
  rfl

/-- An empty page is a table. -/
theorem bootVm_table {free : ℕ} (small : free ≤ 32756) (pos : 0 < n) (below : n < FIRSTPG) :
    PageTable smallLayout (bootVm free) n {n} (List.range' FIRSTPG free) where
  links := bootVm_links free free 0 (Nat.zero_add free)
  nodup := List.nodup_range'
  managed := bootVm_managed small
  tree := (Radix.tree_empty _ (bootVm_blank free below)).1
  apart := by
    intro m member
    obtain ⟨low, -⟩ := List.mem_range'_1.mp member
    rintro rfl
    omega
  pos := by simp [pos]

/-- The two pages of `[0, 2 * PGSIZE)` that an unaligned range of one page's length meets. -/
theorem page_table_maps_blank :
    PageTable smallLayout (bootVm 2) 524290 {524290} (List.range' FIRSTPG 2) ∧
      ∃ v' pte, mappages (PGSIZE * 524290) 5 PGSIZE KERNELBASE (PTE_R ||| PTE_W) (bootVm 2) =
          .ok (true, v') ∧
        lookup v' (PGSIZE * 524290) (PGSIZE + 1) = some pte ∧
        PTE2PA pte = KERNELBASE + PGSIZE ∧ PTE_FLAGS pte = PTE_R ||| PTE_W ||| PTE_V := by
  have table := bootVm_table (n := 524290) (show 2 ≤ 32756 by omega) (by decide) (by decide)
  have clear : ∀ a, InRange 5 PGSIZE (a / PGSIZE) →
      lookup (bootVm 2) (PGSIZE * 524290) a = none := by
    intro a _
    rw [lookup_eq table.pos table.tree, (Radix.tree_empty _ (bootVm_blank 2 (by decide))).2, ite_self]
  obtain ⟨ok, v', used, l', returned, -, -, -, -, mapped⟩ :=
    (page_table_maps table).1 5 PGSIZE KERNELBASE (PTE_R ||| PTE_W) (by decide) (by decide)
      (by decide) (by decide) (by decide) (by decide) clear
  have fits : ok = true := by
    have result : ((mappages (PGSIZE * 524290) 5 PGSIZE KERNELBASE (PTE_R ||| PTE_W)
      (bootVm 2)).toOption.map Prod.fst) = some true := by decide +kernel
    rw [returned] at result
    simpa [Except.toOption] using result
  subst fits
  obtain ⟨pte, found, frame, flags⟩ := (mapped rfl).1 (PGSIZE + 1) ⟨by decide, by decide⟩
  exact ⟨table, v', pte, returned, found, frame, flags⟩

end Translations

end HaloOS
