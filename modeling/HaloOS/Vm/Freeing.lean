import HaloOS.Vm.Resize

/-! Taking any page table down. `freewalk` returns every page of a tree without leaves to the
allocator, each once, and panics at the first leaf it meets. -/

namespace HaloOS

open Lib

variable {L : Layout} {v v' : Vm} {S : Set ℕ} {t u n level depth : ℕ} {l l' : List ℕ}
  {E : Stop → Prop}

/-- The loop of `freewalk`, entry by entry. -/
theorem freeEntries_entry {f : ℕ → Mio Unit} {I : ℕ → Vm → Prop}
    (entry : ∀ i < 512, ∀ v, I i v →
      (pteCoding.valid (v.mem (512 * n + i)) = false ∧ I (i + 1) v) ∨
      (pteCoding.valid (v.mem (512 * n + i)) = true ∧ pteCoding.pointer (v.mem (512 * n + i)) ∧
        Sat (f (PGSIZE * pteCoding.child (v.mem (512 * n + i)))) v E
          fun _ s => I (i + 1) (s.store (PGSIZE * n + 8 * i) 0)) ∨
      (pteCoding.valid (v.mem (512 * n + i)) = true ∧ ¬ pteCoding.pointer (v.mem (512 * n + i)) ∧
        E (.panic "freewalk: leaf")))
    {i count : ℕ} (total : i + count = 512) (start : I i v) :
    Sat (freeEntries f (PGSIZE * n) count i) v E fun _ s => I 512 s := by
  induction count generalizing i v with
  | zero =>
    obtain rfl : i = 512 := by omega
    exact Sat.pure start
  | succ count ih =>
    unfold freeEntries
    refine Sat.bind (Sat.gets (Q := fun e s => e = v.mem (512 * n + i) ∧ v = s)
      ⟨load_entry v n i, rfl⟩) ?_
    rintro _ _ ⟨rfl, rfl⟩
    dsimp only
    rcases entry i (by omega) v start with ⟨invalid, next⟩ | ⟨valid, pointer, run⟩ |
      ⟨valid, leaf, stop⟩
    · have clear : v.mem (512 * n + i) &&& PTE_V = 0 := by simpa [pteCoding] using invalid
      rw [if_neg (fun both => both.1 clear)]
      exact Sat.bind (Sat.stopIf (Q := fun _ s => I (i + 1) s) (fun bad => absurd clear bad)
        fun _ => next) fun _ s next => ih (by omega) next
    · rw [if_pos ⟨(valid_iff _).mp valid, pointer⟩, PTE2PA_child]
      refine Sat.bind run fun _ s next => ?_
      exact Sat.bind (Sat.update (Q := fun _ s => I (i + 1) s) next) fun _ s next =>
        ih (by omega) next
    · rw [if_neg (fun both => leaf both.2)]
      exact Sat.bind (Sat.stopIf (Q := fun _ _ => False) (fun _ => stop)
        fun clear => clear ((valid_iff _).mp valid)) fun _ _ never => never.elim

/-- What `freewalk` makes of the pages `S`: it frees each of them if there is no leaf, and panics
if there is one. -/
def Collects (L : Layout) (m : Mio Unit) (v : Vm) (S : Set ℕ) (l : List ℕ) (leaf : Prop) : Prop :=
  Sat m v (fun e => e = .panic "freewalk: leaf" ∧ leaf) fun _ v' => ¬ leaf ∧
    ∃ own, (∀ m, m ∈ own ↔ m ∈ S) ∧ FreeList L v' (own ++ l) ∧ Keeps v v' (· ∉ S)

/-- `freewalk` at a page: `sub` are the pages below its entries, and `leaf` says below which of
them there is a leaf. -/
theorem freewalk_page {d : ℕ} {sub : ℕ → Set ℕ} {leaf : ℕ → Prop} (free : FreeList L v l)
    (used : n ∉ l) (managed : Managed L n) (root : ∀ i < 512, n ∉ sub i)
    (apart : ∀ i < 512, ∀ j < 512, i ≠ j → ∀ m ∈ sub i, m ∉ sub j)
    (away : ∀ i < 512, ∀ m ∈ sub i, m ∉ l)
    (entries : ∀ i < 512,
      (pteCoding.valid (v.mem (512 * n + i)) = false ∧ (∀ m, m ∉ sub i) ∧ ¬ leaf i) ∨
      (pteCoding.valid (v.mem (512 * n + i)) = true ∧ pteCoding.pointer (v.mem (512 * n + i)) ∧
        ∀ s l', Keeps v s (· ∈ sub i) → FreeList L s l' → (∀ m ∈ l', m ∉ sub i) →
          Collects L (freewalk L d (PGSIZE * pteCoding.child (v.mem (512 * n + i)))) s (sub i) l'
            (leaf i)) ∨
      (pteCoding.valid (v.mem (512 * n + i)) = true ∧ ¬ pteCoding.pointer (v.mem (512 * n + i)) ∧
        leaf i)) :
    Collects L (freewalk L (d + 1) (PGSIZE * n)) v {m | m = n ∨ ∃ i < 512, m ∈ sub i} l
      (∃ i < 512, leaf i) := by
  have loop := freeEntries_entry (n := n) (f := freewalk L d) (v := v)
    (E := fun e => e = .panic "freewalk: leaf" ∧ ∃ i < 512, leaf i)
    (I := fun i s => (∀ j < i, ¬ leaf j) ∧
      (∃ own, (∀ m, m ∈ own ↔ ∃ j < i, m ∈ sub j) ∧ FreeList L s (own ++ l)) ∧
      Keeps v s (fun m => m ≠ n ∧ ∀ j < i, m ∉ sub j) ∧
      ∀ j, i ≤ j → j < 512 → s.mem (512 * n + j) = v.mem (512 * n + j)) ?_ (Nat.zero_add 512) ?_
  · unfold Collects freewalk
    refine Sat.bind loop ?_
    rintro _ s ⟨none, ⟨own, members, freed⟩, keeps, -⟩
    have idle : n ∉ own ++ l := by
      rw [List.mem_append, not_or]
      refine ⟨fun member => ?_, used⟩
      obtain ⟨j, low, member⟩ := (members n).mp member
      exact root j low member
    refine (freed.kfree managed idle).mono ?_
    rintro _ v' ⟨keeps', freed'⟩
    refine ⟨by rintro ⟨i, low, here⟩; exact none i low here, n :: own, ?_, freed', ?_⟩
    · intro m
      rw [List.mem_cons, members]
      rfl
    · refine (keeps.mono fun m far => ?_).trans (keeps'.mono fun m far => ?_)
      · exact ⟨fun same => far (.inl same), fun j low member => far (.inr ⟨j, low, member⟩)⟩
      · exact fun same => far (.inl same)
  · rintro i small s ⟨none, ⟨own, members, freed⟩, keeps, rest⟩
    have entry := rest i le_rfl small
    have more : ∀ m, (∃ j < i + 1, m ∈ sub j) ↔ (∃ j < i, m ∈ sub j) ∨ m ∈ sub i := by
      intro m
      constructor
      · rintro ⟨j, low, member⟩
        rcases Nat.lt_succ_iff_lt_or_eq.mp low with low | rfl
        · exact .inl ⟨j, low, member⟩
        · exact .inr member
      · rintro (⟨j, low, member⟩ | member)
        · exact ⟨j, by omega, member⟩
        · exact ⟨i, by omega, member⟩
    have fewer : ∀ j < i + 1, ¬ leaf i → ¬ leaf j := by
      intro j low here
      rcases Nat.lt_succ_iff_lt_or_eq.mp low with low | rfl
      · exact none j low
      · exact here
    rw [entry]
    rcases entries i small with ⟨invalid, empty, here⟩ | ⟨valid, pointer, run⟩ |
      ⟨valid, pointer, here⟩
    · refine .inl ⟨invalid, fun j low => fewer j low here, ⟨own, fun m => ?_, freed⟩, ?_, ?_⟩
      · rw [members, more]
        simp [empty m]
      · exact keeps.mono fun m far => ⟨far.1, fun j low => far.2 j (by omega)⟩
      · exact fun j low => rest j (by omega)
    · refine .inr (.inl ⟨valid, pointer, ?_⟩)
      have below : Keeps v s (· ∈ sub i) := by
        refine keeps.mono fun m member => ⟨?_, fun j low => ?_⟩
        · rintro rfl
          exact root i small member
        · exact apart i small j (by omega) (by omega) m member
      have apart' : ∀ m ∈ own ++ l, m ∉ sub i := by
        intro m member inside
        rcases List.mem_append.mp member with old | idle
        · obtain ⟨j, low, there⟩ := (members m).mp old
          exact apart j (by omega) i small (by omega) m there inside
        · exact away i small m inside idle
      refine (Sat.weaken (run s _ below freed apart') fun e stop => ⟨stop.1, i, small, stop.2⟩).mono ?_
      rintro _ s' ⟨here, own', members', freed', keeps'⟩
      have stored := keeps_store s' (n := n) small 0
      refine ⟨fun j low => fewer j low here, ⟨own' ++ own, fun m => ?_, ?_⟩, ?_, ?_⟩
      · rw [List.mem_append, members, members', more, or_comm]
      · rw [List.append_assoc]
        refine freed'.congr rfl (stored.mono ?_)
        rintro m member rfl
        rcases List.mem_append.mp member with new | member
        · exact root i small ((members' m).mp new)
        · rcases List.mem_append.mp member with old | idle
          · obtain ⟨j, low, there⟩ := (members m).mp old
            exact root j (by omega) there
          · exact used idle
      · refine (keeps.mono fun m far => ⟨far.1, fun j low => far.2 j (by omega)⟩).trans
          ((keeps'.mono fun m far => far.2 i (by omega)).trans (stored.mono fun m far => far.1))
      · intro j low high
        rw [mem_store_of_ne s' (by omega) 0, keeps'.at (root i small) high, rest j (by omega) high]
    · exact .inr (.inr ⟨valid, pointer, rfl, i, small, here⟩)
  · refine ⟨fun j low => absurd low (Nat.not_lt_zero j), ⟨[], ?_, free⟩, fun _ _ => rfl,
      fun _ _ _ => rfl⟩
    simp

/-- A leaf lies below some entry of the root. -/
theorem leaf_below (mem : ℕ → ℕ) (level n : ℕ) :
    (∃ i < 512, ∃ u, Radix.index pteCoding level u = i ∧
      (Radix.value pteCoding mem level n u).isSome) ↔
        ∃ u, (Radix.value pteCoding mem level n u).isSome := by
  constructor
  · rintro ⟨i, -, u, -, some⟩
    exact ⟨u, some⟩
  · rintro ⟨u, some⟩
    exact ⟨_, Radix.index_lt level u, u, rfl, some⟩

/-- `freewalk` of a tree whose values are leaves. -/
theorem freewalk_collects (tree : Radix.Tree pteCoding v.mem level n S) (free : FreeList L v l)
    (apart : ∀ m ∈ l, m ∉ S) (managed : ∀ m ∈ S, Managed L m)
    (leaves : ∀ u pte, Radix.value pteCoding v.mem level n u = some pte → ¬ pteCoding.pointer pte)
    (deep : level < depth) :
    Collects L (freewalk L depth (PGSIZE * n)) v S l
      (∃ u, (Radix.value pteCoding v.mem level n u).isSome) := by
  induction level generalizing v n S l depth with
  | zero =>
    have used : n ∉ l := fun member => apart n member tree.root_mem
    have owned : Managed L n := managed n tree.root_mem
    obtain ⟨d, rfl⟩ : ∃ d, depth = d + 1 := ⟨depth - 1, by omega⟩
    have page : S = {m | m = n ∨ ∃ i < 512, m ∈ (∅ : Set ℕ)} := by
      ext m
      simpa using tree m
    rw [page, ← leaf_below]
    refine freewalk_page free used owned (by simp) (by simp) (by simp) fun i small => ?_
    have value : ∀ u, Radix.index pteCoding 0 u = i →
        Radix.value pteCoding v.mem 0 n u =
          if pteCoding.valid (v.mem (512 * n + i)) then some (v.mem (512 * n + i)) else none := by
      rintro u rfl
      rfl
    have key : Radix.index pteCoding 0 i = i := by
      change i / 512 ^ 0 % 512 = i
      omega
    cases valid : pteCoding.valid (v.mem (512 * n + i)) with
    | false =>
      refine .inl ⟨rfl, by simp, ?_⟩
      rintro ⟨u, here, some⟩
      rw [value u here, valid] at some
      simp at some
    | true =>
      have entry := value i key
      rw [if_pos valid] at entry
      exact .inr (.inr ⟨rfl, leaves i _ entry, i, key, by rw [entry]; rfl⟩)
  | succ level ih =>
    have used : n ∉ l := fun member => apart n member tree.root_mem
    have owned : Managed L n := managed n tree.root_mem
    obtain ⟨d, rfl⟩ : ∃ d, depth = d + 1 := ⟨depth - 1, by omega⟩
    obtain ⟨sub, pages, root, disjoint, words⟩ := tree
    simp only [pteCoding_fan] at pages root disjoint words
    have inside : ∀ i < 512, ∀ m ∈ sub i, m ∈ S :=
      fun i small m member => (pages m).mpr (.inr ⟨i, small, member⟩)
    have page : S = {m | m = n ∨ ∃ i < 512, m ∈ sub i} := by
      ext m
      exact pages m
    rw [page, ← leaf_below]
    refine freewalk_page free used owned root disjoint
      (fun i small m member free => apart m free (inside i small m member)) fun i small => ?_
    rcases words i small with ⟨valid, pointer, subtree⟩ | ⟨invalid, empty⟩
    · refine .inr (.inl ⟨valid, pointer, fun s l' keeps free' apart' => ?_⟩)
      have tree' : Radix.Tree pteCoding s.mem level (pteCoding.child (v.mem (512 * n + i))) (sub i) :=
        subtree.congr keeps
      have same := Radix.value_congr subtree keeps
      have lifted : ∀ u, ∃ u', Radix.index pteCoding (level + 1) u' = i ∧
          Radix.value pteCoding v.mem (level + 1) n u' =
            Radix.value pteCoding s.mem level (pteCoding.child (v.mem (512 * n + i))) u := by
        intro u
        obtain ⟨u', here, rest⟩ := Radix.exists_key (C := pteCoding) small level u
        refine ⟨u', here, ?_⟩
        rw [same, ← Radix.value_key rest]
        subst here
        exact Radix.value_of_valid _ rfl valid
      have leaf : (∃ u, Radix.index pteCoding (level + 1) u = i ∧
          (Radix.value pteCoding v.mem (level + 1) n u).isSome) ↔
          ∃ u, (Radix.value pteCoding s.mem level
            (pteCoding.child (v.mem (512 * n + i))) u).isSome := by
        constructor
        · rintro ⟨u, rfl, some⟩
          rw [Radix.value_of_valid _ rfl valid] at some
          exact ⟨u, (same u).symm ▸ some⟩
        · rintro ⟨u, some⟩
          obtain ⟨u', here, value⟩ := lifted u
          exact ⟨u', here, by rwa [value]⟩
      rw [leaf]
      refine ih tree' free' apart' (fun m member => managed m (inside i small m member)) ?_
        (by omega)
      intro u pte found
      obtain ⟨u', -, value⟩ := lifted u
      exact leaves u' pte (value.trans found)
    · refine .inl ⟨invalid, empty, ?_⟩
      rintro ⟨u, rfl, some⟩
      rw [Radix.value_of_invalid _ rfl invalid] at some
      cases some

section Process

variable {sz : ℕ}

/-- The leaf entry that the hardware finds for page `u`. -/
def leafAt (v : Vm) (t u : ℕ) : Option ℕ := (sv39 v.mem u 2 (PGSIZE * t)).map Prod.snd

/-- The pages that a process maps. -/
def ProcPage (sz u : ℕ) : Prop := u < pages sz ∨ u = TRAMPOLINEPG ∨ u = TRAPFRAMEPG

/-- A page table of a process of `sz` bytes: its pages come from the allocator, and it maps its user
pages, the trampoline and the trapframe to frames of their own. It may have other leaves. -/
structure ProcTable (L : Layout) (v : Vm) (t : ℕ) (S : Set ℕ) (l : List ℕ) (sz : ℕ) : Prop
    extends PageTable L v t S l where
  inner : ∀ m ∈ S, Managed L m
  leaf : ∀ u < 2 ^ 27, ∀ pte, leafAt v t u = some pte → pte &&& (PTE_R ||| PTE_W ||| PTE_X) ≠ 0
  bound : sz ≤ TRAPFRAME
  mapped : ∀ u, ProcPage sz u → ∃ pte, leafAt v t u = some pte ∧
    PTE2PA pte / PGSIZE ∉ S ∧ PTE2PA pte / PGSIZE ∉ l ∧
    (u < pages sz → Managed L (PTE2PA pte / PGSIZE))
  distinct : ∀ u u' pte pte', ProcPage sz u → ProcPage sz u' → leafAt v t u = some pte →
    leafAt v t u' = some pte' → PTE2PA pte / PGSIZE = PTE2PA pte' / PGSIZE → u = u'

/-- The frames of the user pages. -/
def userFrames (v : Vm) (t sz : ℕ) : List ℕ :=
  (List.range (pages sz)).map fun u => PTE2PA ((leafAt v t u).getD 0) / PGSIZE

theorem leafAt_eq (tree : Radix.Tree pteCoding v.mem 2 t S) (u : ℕ) :
    leafAt v t u = Radix.value pteCoding v.mem 2 t u := by
  unfold leafAt
  rw [sv39_value tree, Option.map_map]
  exact Option.map_id'

/-- Keys of more than 27 bits find what their low bits find. -/
theorem value_low (mem : ℕ → ℕ) (t u : ℕ) :
    Radix.value pteCoding mem 2 t (u % 2 ^ 27) = Radix.value pteCoding mem 2 t u := by
  refine Radix.value_key fun k low => ?_
  exact Radix.index_mod (C := pteCoding) (m := 3) (by omega) u

theorem leaf_flags_of {pte : ℕ} (leaf : pte &&& (PTE_R ||| PTE_W ||| PTE_X) ≠ 0) :
    PTE_FLAGS pte ≠ PTE_V := by
  intro bare
  have split : pte = pte / 1024 * 1024 + PTE_FLAGS pte := (Nat.div_add_mod' pte 1024).symm
  rw [split, entry_and _ (by decide), bare] at leaf
  exact leaf (by decide)

/-- One of the two pages at the top is unmapped and its frame kept. -/
theorem PageTable.unmapTop (table : PageTable L v t S l) {top pte : ℕ} (small : top < 2 ^ 26)
    (mapped : Radix.value pteCoding v.mem 2 t top = some pte) (leaf : PTE_FLAGS pte ≠ PTE_V) :
    Sat (HaloOS.uvmunmap L (PGSIZE * t) (PGSIZE * top) 1 false) v E fun _ v' => PageTable L v' t S l ∧
      (∀ u < 2 ^ 27, Radix.value pteCoding v'.mem 2 t u =
        if u = top then none else Radix.value pteCoding v.mem 2 t u) ∧ Keeps v v' (· ∉ S) := by
  rw [uvmunmap_eq (by omega)]
  refine (table.unmapLoop (n := 1) (fun _ => pte) (by omega) ?_ (fun _ _ => leaf)
    fun taken : false = true => nomatch taken).mono ?_
  · intro k low
    obtain rfl : k = 0 := by omega
    exact mapped
  · rintro _ v' ⟨table', values, keeps⟩
    refine ⟨table', fun u low => ?_, keeps.mono fun m far => ⟨far, fun taken => nomatch taken⟩⟩
    rw [values u low]
    by_cases here : u = top
    · rw [if_pos here, if_pos (by omega)]
    · rw [if_neg here, if_neg (by omega)]

theorem ProcPage.lt (bound : sz ≤ TRAPFRAME) (page : ProcPage sz u) : u < 2 ^ 26 := by
  have few := pages_le_TRAPFRAMEPG bound
  unfold ProcPage at page
  simp only [TRAMPOLINEPG, TRAPFRAMEPG] at page few
  omega

/-- `uvmunmap` of the user pages in `uvmfree` gives their frames back. -/
theorem PageTable.unmapUser (table : PageTable L v t S l) {entries : ℕ → ℕ}
    (bound : sz ≤ TRAPFRAME)
    (mapped : ∀ u < pages sz, Radix.value pteCoding v.mem 2 t u = some (entries u))
    (leaves : ∀ u < pages sz, PTE_FLAGS (entries u) ≠ PTE_V)
    (frames : OwnFrames L S l (pages sz) entries) :
    Sat (onlyIf (0 < sz) (HaloOS.uvmunmap L (PGSIZE * t) 0 (PGROUNDUP sz / PGSIZE) true)) v E
      fun _ v' =>
        PageTable L v' t S
          (((List.range (pages sz)).map fun u => pteCoding.child (entries u)).reverse ++ l) ∧
        (∀ u < 2 ^ 27, Radix.value pteCoding v'.mem 2 t u =
          if u < pages sz then none else Radix.value pteCoding v.mem 2 t u) ∧
        Keeps v v' fun m => m ∉ S ∧ ∀ u < pages sz, m ≠ pteCoding.child (entries u) := by
  have few := pages_le_TRAPFRAMEPG bound
  have top := TRAPFRAMEPG_lt
  refine Sat.onlyIf (fun _ => ?_) fun empty => ?_
  · have run := uvmunmap_eq (L := L) (u := 0) (n := pages sz) (by omega) (PGSIZE * t) true
    rw [Nat.mul_zero] at run
    rw [PGROUNDUP_eq (by omega), page_number, run]
    refine (table.unmapLoop (u := 0) entries (by omega) ?_ leaves fun _ => frames).mono ?_
    · intro k low
      rw [Nat.zero_add]
      exact mapped k low
    · rintro _ v' ⟨table', values, keeps⟩
      refine ⟨table', fun u low => ?_, keeps.mono fun m far => ⟨far.1, fun _ => far.2⟩⟩
      rw [values u low]
      simp
  · obtain rfl : sz = 0 := by omega
    exact ⟨table, fun _ _ => rfl, fun _ _ => rfl⟩

/-- A leaf that does not belong to the process. -/
def OtherLeaf (v : Vm) (t sz : ℕ) : Prop :=
  ∃ u < 2 ^ 27, (leafAt v t u).isSome ∧ ¬ ProcPage sz u

variable (table : ProcTable L v t S l sz)
include table

theorem ProcTable.entry (page : ProcPage sz u) :
    Radix.value pteCoding v.mem 2 t u = some ((leafAt v t u).getD 0) ∧
      PTE_FLAGS ((leafAt v t u).getD 0) ≠ PTE_V ∧
      PTE2PA ((leafAt v t u).getD 0) / PGSIZE ∉ S ∧ PTE2PA ((leafAt v t u).getD 0) / PGSIZE ∉ l ∧
      (u < pages sz → Managed L (PTE2PA ((leafAt v t u).getD 0) / PGSIZE)) := by
  have low := page.lt table.bound
  obtain ⟨pte, found, outside, used, managed⟩ := table.mapped u page
  have leaf := leaf_flags_of (table.leaf u (by omega) pte found)
  rw [← leafAt_eq table.tree, found]
  exact ⟨rfl, leaf, outside, used, managed⟩

theorem ProcTable.own : OwnFrames L S l (pages sz) fun u => (leafAt v t u).getD 0 where
  managed := fun u low => (table.entry (.inl low)).2.2.2.2 low
  apart := fun u low => (table.entry (.inl low)).2.2.1
  used := fun u low => (table.entry (.inl low)).2.2.2.1
  distinct := by
    intro u low u' low' same
    obtain ⟨pte, found, -⟩ := table.mapped u (.inl low)
    obtain ⟨pte', found', -⟩ := table.mapped u' (.inl low')
    refine table.distinct u u' pte pte' (.inl low) (.inl low') found found' ?_
    have frames : PTE2PA ((leafAt v t u).getD 0) / PGSIZE =
        PTE2PA ((leafAt v t u').getD 0) / PGSIZE := same
    rwa [found, found'] at frames

/-- `proc_freepagetable` as one computation: after three calls of `uvmunmap` only the other leaves
are left, and `freewalk` meets them or frees the table. -/
theorem ProcTable.procFreepagetable :
    Sat (procFreepagetable L (PGSIZE * t) sz) v
      (fun e => e = .panic "freewalk: leaf" ∧ OtherLeaf v t sz)
      fun _ v' => ¬ OtherLeaf v t sz ∧ ∃ own l', (∀ m, m ∈ own ↔ m ∈ S) ∧ FreeList L v' l' ∧
        l'.Perm (own ++ (userFrames v t sz ++ l)) ∧
        Keeps v v' fun m => m ∉ S ∧ m ∉ userFrames v t sz := by
  have few := pages_le_TRAPFRAMEPG table.bound
  have tramp := table.entry (.inr (.inl rfl))
  have trap := table.entry (.inr (.inr rfl))
  have user : ∀ u < pages sz, _ := fun u low => table.entry (.inl low)
  have apart : TRAPFRAMEPG ≠ TRAMPOLINEPG := by decide
  have beside : ∀ u < pages sz, u < 2 ^ 27 ∧ u ≠ TRAMPOLINEPG ∧ u ≠ TRAPFRAMEPG := by
    intro u low
    simp only [TRAMPOLINEPG, TRAPFRAMEPG] at few ⊢
    omega
  unfold HaloOS.procFreepagetable uvmfree
  refine Sat.bind (table.unmapTop (by decide) tramp.1 tramp.2.1) ?_
  rintro _ v₁ ⟨table₁, values₁, keeps₁⟩
  have trap₁ : Radix.value pteCoding v₁.mem 2 t TRAPFRAMEPG =
      some ((leafAt v t TRAPFRAMEPG).getD 0) := by
    rw [values₁ _ (by decide), if_neg apart, trap.1]
  refine Sat.bind (table₁.unmapTop (by decide) trap₁ trap.2.1) ?_
  rintro _ v₂ ⟨table₂, values₂, keeps₂⟩
  refine Sat.bind (table₂.unmapUser table.bound (fun u low => ?_) (fun u low => (user u low).2.1)
    table.own) ?_
  · obtain ⟨small, other, other'⟩ := beside u low
    rw [values₂ u small, if_neg other', values₁ u small, if_neg other]
    exact (user u low).1
  rintro _ v₃ ⟨table₃, values₃, keeps₃⟩
  change PageTable L v₃ t S ((userFrames v t sz).reverse ++ l) at table₃
  -- what is left is what is not the process's own
  have left : ∀ u < 2 ^ 27, ∀ pte, Radix.value pteCoding v₃.mem 2 t u = some pte ↔
      leafAt v t u = some pte ∧ ¬ ProcPage sz u := by
    intro u small pte
    rw [leafAt_eq table.tree, values₃ u small, values₂ u small, values₁ u small]
    unfold ProcPage
    by_cases low : u < pages sz
    · simp [low]
    · by_cases first : u = TRAPFRAMEPG
      · simp [first]
      · by_cases second : u = TRAMPOLINEPG
        · simp [second]
        · simp [low, first, second]
  have lower : ∀ u, u % 2 ^ 27 < 2 ^ 27 := fun u => Nat.mod_lt _ (by decide)
  have other : (∃ u, (Radix.value pteCoding v₃.mem 2 t u).isSome) ↔ OtherLeaf v t sz := by
    constructor
    · rintro ⟨u, some⟩
      obtain ⟨pte, found⟩ := Option.isSome_iff_exists.mp some
      rw [← value_low] at found
      obtain ⟨here, foreign⟩ := (left _ (lower u) pte).mp found
      exact ⟨_, lower u, by rw [here]; rfl, foreign⟩
    · rintro ⟨u, small, some, foreign⟩
      obtain ⟨pte, found⟩ := Option.isSome_iff_exists.mp some
      exact ⟨u, by rw [(left u small pte).mpr ⟨found, foreign⟩]; rfl⟩
  have collects := freewalk_collects table₃.tree table₃.toFreeList table₃.apart
    table.inner (fun u pte found => ?_) (show 2 < STACKDEPTH by decide)
  · rw [other] at collects
    refine Sat.mono collects ?_
    rintro _ v' ⟨none, own, members, freed, keeps⟩
    refine ⟨none, own, _, members, freed, ?_, ?_⟩
    · exact ((userFrames v t sz).reverse_perm.append_right l).append_left own
    · refine (keeps₁.mono fun m far => far.1).trans ((keeps₂.mono fun m far => far.1).trans
        ((keeps₃.mono fun m far => ⟨far.1, fun u low same => far.2 ?_⟩).trans
          (keeps.mono fun m far => far.1)))
      rw [same]
      exact List.mem_map_of_mem (List.mem_range.mpr low)
  · rw [← value_low] at found
    exact table.leaf _ (lower u) pte ((left _ (lower u) pte).mp found).1

/-- `proc_freepagetable` returns the user frames and the pages of the table to the allocator, each
once, and keeps the trampoline and the trapframe; another leaf makes it panic. -/
theorem proc_freepagetable_exact :
    (¬ OtherLeaf v t sz → ∃ v' own l',
      HaloOS.procFreepagetable L (PGSIZE * t) sz v = .ok ((), v') ∧ (∀ m, m ∈ own ↔ m ∈ S) ∧
      FreeList L v' l' ∧ l'.Perm (own ++ (userFrames v t sz ++ l)) ∧
      (∀ u, u = TRAMPOLINEPG ∨ u = TRAPFRAMEPG → ∀ pte, leafAt v t u = some pte →
        PTE2PA pte / PGSIZE ∉ l') ∧
      Keeps v v' fun m => m ∉ S ∧ m ∉ userFrames v t sz) ∧
    (OtherLeaf v t sz →
      HaloOS.procFreepagetable L (PGSIZE * t) sz v = .error (.panic "freewalk: leaf")) := by
  have spec := table.procFreepagetable
  constructor
  · intro none
    obtain ⟨_, v', returned, -, own, l', members, free, list, keeps⟩ :=
      (spec.weaken fun e stop => none stop.2 : Sat _ _ (fun _ => False) _).returns
    refine ⟨v', own, l', returned, members, free, list, fun u top pte found member => ?_, keeps⟩
    have few := pages_le_TRAPFRAMEPG table.bound
    obtain ⟨pte', found', outside, used, -⟩ := table.mapped u (.inr top)
    obtain rfl : pte' = pte := Option.some.inj (found'.symm.trans found)
    rcases List.mem_append.mp (list.mem_iff.mp member) with page | member
    · exact outside ((members _).mp page)
    rcases List.mem_append.mp member with frame | idle
    · obtain ⟨u', low, same⟩ := List.mem_map.mp frame
      rw [List.mem_range] at low
      obtain ⟨pte, here, -⟩ := table.mapped u' (.inl low)
      rw [here] at same
      have clash := table.distinct u' u pte pte' (.inl low) (.inr top) here found same
      simp only [TRAMPOLINEPG, TRAPFRAMEPG] at few top
      omega
    · exact used idle
  · intro other
    cases result : HaloOS.procFreepagetable L (PGSIZE * t) sz v with
    | error e => rw [(spec.error result).1]
    | ok pair => exact absurd other (spec.ok result).1

omit table

/-- One page of user memory, the trampoline and the trapframe. -/
def sampleTable : Mio Unit := do
  kvmmap (PGSIZE * 524290) 0 (PGSIZE * 524292) PGSIZE (PTE_R ||| PTE_W ||| PTE_X ||| PTE_U)
  kvmmap (PGSIZE * 524290) TRAMPOLINE (PGSIZE * 524288) PGSIZE (PTE_R ||| PTE_X)
  kvmmap (PGSIZE * 524290) TRAPFRAME (PGSIZE * 524293) PGSIZE (PTE_R ||| PTE_W)

theorem sampleTable_leaves : ∃ v S l, PageTable smallLayout v 524290 S l ∧
    (∀ m ∈ S, m = 524290 ∨ FIRSTPG ≤ m) ∧ (∀ m ∈ S, Managed smallLayout m) ∧
    (∀ m ∈ l, FIRSTPG ≤ m) ∧ ∀ u < 2 ^ 27, leafAt v 524290 u =
      if u = 0 then some (524292 * 1024 + 31)
      else if u = TRAMPOLINEPG then some (524288 * 1024 + 11)
      else if u = TRAPFRAMEPG then some (524293 * 1024 + 7) else none := by
  have table := bootVm_table (n := 524290) (show 8 ≤ 32756 by omega) (by decide) (by decide)
  have empty := (Radix.tree_empty 2 (bootVm_blank 8 (show 524290 < FIRSTPG by decide))).2
  have free : ∀ m ∈ List.range' FIRSTPG 8, FIRSTPG ≤ m :=
    fun m member => (List.mem_range'_1.mp member).1
  have length : (List.range' FIRSTPG 8).length = 8 := List.length_range'
  have zero : ∀ u, InRange 0 PGSIZE u ↔ u = 0 := by
    intro u
    simp only [InRange, PGSIZE]
    omega
  have first : ∀ u, InRange TRAMPOLINE PGSIZE u ↔ u = TRAMPOLINEPG := by
    intro u
    simp only [InRange, PGSIZE, TRAMPOLINE, MAXVA, TRAMPOLINEPG]
    omega
  have second : ∀ u, InRange TRAPFRAME PGSIZE u ↔ u = TRAPFRAMEPG := by
    intro u
    simp only [InRange, PGSIZE, TRAPFRAME, TRAMPOLINE, MAXVA, TRAPFRAMEPG]
    omega
  have run : Sat sampleTable (bootVm 8) (fun _ => False) fun _ v => ∃ S l,
      PageTable smallLayout v 524290 S l ∧ (∀ m ∈ S, m = 524290 ∨ FIRSTPG ≤ m) ∧
      (∀ m ∈ S, Managed smallLayout m) ∧
      (∀ m ∈ l, FIRSTPG ≤ m) ∧ ∀ u < 2 ^ 27, Radix.value pteCoding v.mem 2 524290 u =
        if u = 0 then some (524292 * 1024 + 31)
        else if u = TRAMPOLINEPG then some (524288 * 1024 + 11)
        else if u = TRAPFRAMEPG then some (524293 * 1024 + 7) else none := by
    unfold sampleTable
    refine Sat.bind (table.kvmmap (by decide) (by decide) (by decide) (by decide)
      (fun u _ => empty u) (by rw [length]; decide)) ?_
    rintro _ v₁ ⟨used₁, l₁, list, count₁, table₁, values₁, -⟩
    have length₁ : used₁.length + l₁.length = 8 := by
      rw [← List.length_append, ← list, length]
    have cost : tableCost 0 PGSIZE = 2 ∧ tableCost TRAMPOLINE PGSIZE = 2 ∧
        tableCost TRAPFRAME PGSIZE = 2 := by decide
    refine Sat.bind (table₁.kvmmap (by decide) (by decide) (by decide) (by decide)
      (fun u inside => ?_) (by omega)) ?_
    · obtain rfl := (first u).mp inside
      rw [values₁ _ (by decide), if_neg (by rw [zero]; decide), empty]
    rintro _ v₂ ⟨used₂, l₂, rfl, count₂, table₂, values₂, -⟩
    rw [List.length_append] at length₁
    refine (table₂.kvmmap (by decide) (by decide) (by decide) (by decide)
      (fun u inside => ?_) (by omega)).mono ?_
    · obtain rfl := (second u).mp inside
      rw [values₂ _ (by decide), if_neg (by rw [first]; decide), values₁ _ (by decide),
        if_neg (by rw [zero]; decide), empty]
    rintro _ v₃ ⟨used₃, l₃, rfl, count₃, table₃, values₃, -⟩
    have taken : ∀ m, m ∈ used₁ ∨ m ∈ used₂ ∨ m ∈ used₃ ∨ m ∈ l₃ → m ∈ List.range' FIRSTPG 8 := by
      intro m member
      rw [list]
      simpa [or_assoc] using member
    refine ⟨_, l₃, table₃, ?_, ?_, ?_, ?_⟩
    · rintro m (((root | member) | member) | member)
      · exact .inl root
      · exact .inr (free m (taken m (.inl member)))
      · exact .inr (free m (taken m (.inr (.inl member))))
      · exact .inr (free m (taken m (.inr (.inr (.inl member)))))
    · rintro m (((rfl | member) | member) | member)
      · exact ⟨by decide, by decide⟩
      · exact table.managed m (taken m (.inl member))
      · exact table.managed m (taken m (.inr (.inl member)))
      · exact table.managed m (taken m (.inr (.inr (.inl member))))
    · exact fun m member => free m (taken m (.inr (.inr (.inr member))))
    · intro u small
      rw [values₃ u small, values₂ u small, values₁ u small, empty]
      simp only [zero, first, second]
      by_cases user : u = 0
      · subst user
        decide
      · by_cases tramp : u = TRAMPOLINEPG
        · subst tramp
          decide
        · by_cases trap : u = TRAPFRAMEPG
          · subst trap
            decide
          · simp only [user, tramp, trap, if_false]
  obtain ⟨_, v, -, S, l, made, pages, managed, high, values⟩ := run.returns
  refine ⟨v, S, l, made, pages, managed, high, fun u small => ?_⟩
  rw [leafAt_eq made.tree, values u small]

theorem procTable_sample : ∃ v S l, ProcTable smallLayout v 524290 S l 1 ∧
    ¬ OtherLeaf v 524290 1 := by
  obtain ⟨v, S, l, made, inside, managed, high, leaves⟩ := sampleTable_leaves
  have outside : ∀ pte, pte = 524292 * 1024 + 31 ∨ pte = 524288 * 1024 + 11 ∨
      pte = 524293 * 1024 + 7 → pte &&& (PTE_R ||| PTE_W ||| PTE_X) ≠ 0 ∧
      PTE2PA pte / PGSIZE ∉ S ∧ PTE2PA pte / PGSIZE ∉ l := by
    rintro pte cases
    have low : PTE2PA pte / PGSIZE ≠ 524290 ∧ PTE2PA pte / PGSIZE < FIRSTPG := by
      rcases cases with rfl | rfl | rfl <;> decide
    refine ⟨by rcases cases with rfl | rfl | rfl <;> decide, fun member => ?_, fun member => ?_⟩
    · have := inside _ member
      omega
    · have := high _ member
      omega
  have cases : ∀ u < 2 ^ 27, ∀ pte, leafAt v 524290 u = some pte →
      (u = 0 ∧ pte = 524292 * 1024 + 31) ∨ (u = TRAMPOLINEPG ∧ pte = 524288 * 1024 + 11) ∨
        (u = TRAPFRAMEPG ∧ pte = 524293 * 1024 + 7) := by
    intro u small pte found
    rw [leaves u small] at found
    split at found
    · exact .inl ⟨‹_›, (Option.some.inj found).symm⟩
    · split at found
      · exact .inr (.inl ⟨‹_›, (Option.some.inj found).symm⟩)
      · split at found
        · exact .inr (.inr ⟨‹_›, (Option.some.inj found).symm⟩)
        · cases found
  have page : ∀ u, ProcPage 1 u ↔ u = 0 ∨ u = TRAMPOLINEPG ∨ u = TRAPFRAMEPG := by
    intro u
    unfold ProcPage
    rw [show pages 1 = 1 by decide, Nat.lt_one_iff]
  have own : ∀ u, ProcPage 1 u → ∃ pte, leafAt v 524290 u = some pte ∧
      ((u = 0 ∧ pte = 524292 * 1024 + 31) ∨ (u = TRAMPOLINEPG ∧ pte = 524288 * 1024 + 11) ∨
        (u = TRAPFRAMEPG ∧ pte = 524293 * 1024 + 7)) := by
    intro u mapped
    rcases (page u).mp mapped with rfl | rfl | rfl
    · exact ⟨_, leaves 0 (by decide), .inl ⟨rfl, rfl⟩⟩
    · exact ⟨_, leaves _ (by decide), .inr (.inl ⟨rfl, rfl⟩)⟩
    · exact ⟨_, leaves _ (by decide), .inr (.inr ⟨rfl, rfl⟩)⟩
  refine ⟨v, S, l, ⟨made, managed, ?_, by decide, ?_, ?_⟩, ?_⟩
  · intro u small pte found
    exact (outside pte ((cases u small pte found).imp And.right (Or.imp And.right And.right))).1
  · intro u mapped
    obtain ⟨pte, found, which⟩ := own u mapped
    obtain ⟨-, apart, used⟩ := outside pte (which.imp And.right (Or.imp And.right And.right))
    refine ⟨pte, found, apart, used, fun low => ?_⟩
    rcases which with ⟨-, rfl⟩ | ⟨rfl, -⟩ | ⟨rfl, -⟩
    · exact ⟨by decide, by decide⟩
    · exact absurd low (by decide)
    · exact absurd low (by decide)
  · intro u u' pte pte' mapped mapped' found found' same
    have small : u < 2 ^ 27 := (mapped.lt (by decide)).trans (by decide)
    have small' : u' < 2 ^ 27 := (mapped'.lt (by decide)).trans (by decide)
    rcases cases u small pte found with ⟨rfl, rfl⟩ | ⟨rfl, rfl⟩ | ⟨rfl, rfl⟩ <;>
      rcases cases u' small' pte' found' with ⟨rfl, rfl⟩ | ⟨rfl, rfl⟩ | ⟨rfl, rfl⟩ <;>
      first | rfl | exact absurd same (by decide)
  · rintro ⟨u, small, some, foreign⟩
    obtain ⟨pte, found⟩ := Option.isSome_iff_exists.mp some
    refine foreign ((page u).mpr ?_)
    exact (cases u small pte found).imp And.left (Or.imp And.left And.left)

/-- The user frame and the pages of the sample's table go back. -/
theorem proc_freepagetable_exact_sample : ∃ v S l, ProcTable smallLayout v 524290 S l 1 ∧
    ∃ v' own l', HaloOS.procFreepagetable smallLayout (PGSIZE * 524290) 1 v = .ok ((), v') ∧
      (∀ m, m ∈ own ↔ m ∈ S) ∧ FreeList smallLayout v' l' ∧
      l'.Perm (own ++ (userFrames v 524290 1 ++ l)) := by
  obtain ⟨v, S, l, table, none⟩ := procTable_sample
  obtain ⟨v', own, l', returned, members, free, list, -⟩ := (proc_freepagetable_exact table).1 none
  exact ⟨v, S, l, table, v', own, l', returned, members, free, list⟩

end Process

end HaloOS
