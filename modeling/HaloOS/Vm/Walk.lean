import HaloOS.Vm.Tree

/-! What `walk` and `mappages` do to a page table: `walk` may hang new empty pages into
it, which changes no leaf, and `mappages` of one page sets exactly one leaf. -/

namespace HaloOS

open Lib

variable {L : Layout} {own own' : ℕ → Owner} {v v' : Vm} {l l' : List ℕ} {t n m i j k u a : ℕ}
  {E : Stop → Prop}

theorem PX_zero (u : ℕ) : PX 0 (PGSIZE * u) = u % 512 := by
  simp [PX, PGSIZE]

theorem PX_one (u : ℕ) : PX 1 (PGSIZE * u) = u / 512 % 512 := by
  simp only [PX, PGSIZE]
  omega

theorem PX_two (small : u < 2 ^ 26) : PX 2 (PGSIZE * u) = u / 512 / 512 := by
  simp only [PX, PGSIZE]
  omega

theorem pageVa_lt (small : u < 2 ^ 26) : PGSIZE * u < MAXVA := by
  simp only [PGSIZE, MAXVA]
  omega

/-- An entry made of a page number and flags. -/
theorem entry_eq (n : ℕ) {flags : ℕ} (small : flags < 1024) :
    PA2PTE (PGSIZE * n) ||| flags = n * 1024 + flags := by
  have page : PGSIZE * n / PGSIZE = n := by simp [PGSIZE]
  have joined := Nat.two_pow_add_eq_or_of_lt (i := 10) small n
  rw [PA2PTE, page, Nat.mul_comm n, ← joined]

theorem entry_frame (small : n < 2 ^ 52) {flags : ℕ} (low : flags < 1024) :
    PTE2PA (n * 1024 + flags) = PGSIZE * n := by
  have page : (n * 1024 + flags) / 1024 = n := by omega
  have fits : n * PGSIZE < WORD := by
    simp only [PGSIZE, WORD]
    omega
  rw [PTE2PA, page, Nat.mod_eq_of_lt fits, Nat.mul_comm]

theorem entry_page (small : n < 557056) {flags : ℕ} (low : flags < 1024) :
    PTE2PA (n * 1024 + flags) = PGSIZE * n :=
  entry_frame (by omega) low

theorem entry_flags (n : ℕ) {flags : ℕ} (low : flags < 1024) :
    PTE_FLAGS (n * 1024 + flags) = flags := by
  simp only [PTE_FLAGS]
  omega

/-- Tests of the low bits see the flags only. -/
theorem entry_and (n : ℕ) {flags mask : ℕ} (low : mask < 1024) :
    (n * 1024 + flags) &&& mask = flags &&& mask := by
  have cut : ∀ x, x &&& mask = (x % 2 ^ 10) &&& mask := by
    intro x
    have bound : x &&& mask < 2 ^ 10 := lt_of_le_of_lt Nat.and_le_right low
    rw [← Nat.mod_eq_of_lt bound, Nat.and_mod_two_pow, Nat.mod_eq_of_lt low]
  rw [cut, cut flags]
  congr 1
  omega

theorem pointer_valid (n : ℕ) : (n * 1024 + 1) &&& PTE_V ≠ 0 := by
  rw [entry_and n (by decide)]
  decide

section Step

variable {tag : Owner} {va lvl idx : ℕ} {alloc : Bool} {Q : ℕ → Vm → Prop}

/-- One level of `walk`: the entry points to the page with the right owner, or such a
page is taken from the free list, or there is none to take. -/
theorem walkFrom_step (pool : Pool L v own l) (used : own n ≠ .free)
    (busy : tag ≠ .free ∧ tag ≠ .kernel) (place : PX (lvl + 1) va = idx) (small : idx < 512)
    (slot : Slot (v.mem (512 * n + idx)) fun m => own m = tag)
    (found : ∀ m, own m = tag → Sat (walkFrom va alloc lvl (PGSIZE * m)) v E Q)
    (absent : (∀ m, own m ≠ tag) → alloc = false ∨ l = [] → Q 0 v)
    (fresh : ∀ m rest v', (∀ m, own m ≠ tag) → alloc = true → l = m :: rest → own m = .free →
      Pool L v' (Function.update own m tag) rest →
      (∀ k < 512, v'.mem (512 * m + k) = 0) → v'.mem (512 * n + idx) = m * 1024 + 1 →
      (∀ w, w / 512 ≠ m → w ≠ 512 * n + idx → v'.mem w = v.mem w) →
      Sat (walkFrom va alloc lvl (PGSIZE * m)) v' E Q) :
    Sat (walkFrom va alloc (lvl + 1) (PGSIZE * n)) v E Q := by
  unfold walkFrom
  rw [place]
  refine Sat.bind (Sat.gets (Q := fun e s => e = v.mem (512 * n + idx) ∧ s = v)
    ⟨load_entry v n idx, rfl⟩) ?_
  rintro _ _ ⟨rfl, rfl⟩
  rcases slot with ⟨zero, none⟩ | ⟨m, entry, only⟩
  · rw [zero, if_neg (by simp)]
    refine Sat.ite (fun off => Sat.pure (absent none (.inl off))) ?_
    intro on
    refine Sat.bind (kalloc_spec pool) ?_
    rintro r s (⟨rfl, rfl, rfl⟩ | ⟨m, rest, rfl, rfl, free, managed, keeps, pool'⟩)
    · rw [if_pos rfl]
      exact Sat.pure (absent none (.inr rfl))
    · have nonzero : PGSIZE * m ≠ 0 := by
        have above := managed.pos
        simp only [PGSIZE]
        omega
      have apart : n ≠ m := by
        rintro rfl
        exact used free
      rw [if_neg nonzero]
      refine Sat.bind (Sat.update (Q := fun _ s' => s' = s.memset (PGSIZE * m) 0) rfl) ?_
      rintro _ _ rfl
      refine Sat.bind (Sat.update (Q := fun _ s' => s' = (s.memset (PGSIZE * m) 0).store
        (PGSIZE * n + 8 * idx) (m * 1024 + 1)) ?_) ?_
      · rw [PTE_V, entry_eq m (by omega)]
      rintro _ _ rfl
      have wiped := keeps_memset s m 0
      have stored := keeps_store (n := n) (s.memset (PGSIZE * m) 0) small (m * 1024 + 1)
      refine fresh m rest _ none (by simpa using on) rfl free ?_ ?_ ?_ ?_
      · refine (pool' tag busy.1).congr rfl ?_
        refine (wiped.mono ?_).trans (stored.mono ?_)
        · rintro n' isFree rfl
          exact busy.1 (by simpa using isFree)
        · rintro n' isFree rfl
          rw [Function.update_of_ne apart] at isFree
          exact used isFree
      · intro k inside
        rw [stored.at (Ne.symm apart) inside, mem_memset s m 0 inside, Nat.zero_mul]
      · exact mem_store _ n idx _
      · intro w away other
        rw [mem_store_of_ne _ other, wiped w away, keeps w away]
  · have here : own m = tag := (only m).mpr rfl
    have managed := (pool.managed m (by rw [here]; exact busy.2)).lt
    rw [entry, if_pos (pointer_valid m), entry_page managed (by omega)]
    exact found m here

end Step

/-- The table has an inner page, or a bottom page, at this place. -/
def HasL1 (own : ℕ → Owner) (t i : ℕ) : Prop := ∃ n, own n = .l1 t i
def HasL0 (own : ℕ → Owner) (t i j : ℕ) : Prop := ∃ n, own n = .l0 t i j

/-- The table has got the pages for virtual page `u` and no others. -/
def Reaches (t : ℕ) (own own' : ℕ → Owner) (u : ℕ) : Prop :=
  (∀ a, HasL1 own' t a ↔ HasL1 own t a ∨ a = u / 512 / 512) ∧
    ∀ a b, HasL0 own' t a b ↔ HasL0 own t a b ∨ (a = u / 512 / 512 ∧ b = u / 512 % 512)

open scoped Classical in
/-- The page-table pages that mapping virtual page `u` would have to add. -/
noncomputable def missing (own : ℕ → Owner) (t u : ℕ) : ℕ :=
  (if HasL1 own t (u / 512 / 512) then 0 else 1) +
    if HasL0 own t (u / 512 / 512) (u / 512 % 512) then 0 else 1

/-- `walk` without allocation finds the bottom page if there is one. -/
theorem walk_find (pool : Pool L v own l) (tree : Tree v.mem own t) (small : u < 2 ^ 26) :
    Sat (walk (PGSIZE * t) (PGSIZE * u) false) v E fun r s => s = v ∧
      ((r = 0 ∧ leaf v.mem t u = 0) ∨
        ∃ m, own m = .l0 t (u / 512 / 512) (u / 512 % 512) ∧ r = PGSIZE * m + 8 * (u % 512)) := by
  obtain ⟨p, top⟩ := tree.root
  have index : u / 512 / 512 < 512 := by omega
  unfold walk
  refine Sat.bind (Sat.stopIf (Q := fun _ s => s = v) ?_ fun _ => rfl) ?_
  · intro high
    exact absurd (pageVa_lt small) (by omega)
  rintro _ _ rfl
  refine walkFrom_step pool (by simp [top]) (by simp) (PX_two small) index
    (tree.upper _ index) ?_ ?_ ?_
  · intro n inner
    refine walkFrom_step pool (by simp [inner]) (by simp) (PX_one u) (Nat.mod_lt _ (by omega))
      (tree.lower _ n inner _ (Nat.mod_lt _ (by omega))) ?_ ?_ ?_
    · intro m here
      refine Sat.pure ⟨rfl, .inr ⟨m, here, ?_⟩⟩
      rw [PX_zero]
    · intro none _
      exact ⟨rfl, .inl ⟨rfl, tree.leaf_none (by omega) none⟩⟩
    · intro m rest s none on
      simp at on
  · intro none _
    refine ⟨rfl, .inl ⟨rfl, tree.leaf_none (by omega) ?_⟩⟩
    intro m here
    obtain ⟨n, inner⟩ := tree.parent _ _ m here
    exact none n inner
  · intro m rest s none on
    simp at on

/-- Free pages have become page-table pages of `t`, and no owner changed otherwise. -/
def Adds (t : ℕ) (own own' : ℕ → Owner) : Prop :=
  ∀ n, own' n = own n ∨
    own n = .free ∧ ((∃ i, own' n = .l1 t i) ∨ ∃ i j, own' n = .l0 t i j)

theorem Adds.trans {own'' : ℕ → Owner} (first : Adds t own own') (second : Adds t own' own'') :
    Adds t own own'' := by
  intro n
  rcases first n with same | ⟨free, added⟩
  · rw [← same]
    exact second n
  · rcases second n with same' | ⟨free', -⟩
    · exact .inr ⟨free, by rwa [same']⟩
    · rcases added with ⟨i, added⟩ | ⟨i, j, added⟩ <;> simp [free'] at added

theorem Adds.keep (adds : Adds t own own') (used : own n ≠ .free) : own' n = own n := by
  rcases adds n with same | ⟨free, -⟩
  · exact same
  · exact absurd free used

/-- Owners other than page-table pages of `t` are where they were. -/
theorem Adds.iff {o : Owner} (adds : Adds t own own') (free : o ≠ .free)
    (upper : ∀ i, o ≠ .l1 t i) (lower : ∀ i j, o ≠ .l0 t i j) : own' n = o ↔ own n = o := by
  constructor
  · rintro rfl
    rcases adds n with same | ⟨-, ⟨i, added⟩ | ⟨i, j, added⟩⟩
    · exact same.symm
    · exact absurd added (upper i)
    · exact absurd added (lower i j)
  · rintro rfl
    exact adds.keep free

theorem Adds.user_iff (adds : Adds t own own') {s a : ℕ} :
    own' n = .user s a ↔ own n = .user s a :=
  adds.iff (by simp) (by simp) (by simp)

/-- The page holds data for table `t`. -/
def Owner.data (t : ℕ) (o : Owner) : Prop := o = .held t ∨ ∃ u, o = .user t u

/-- The pages with the data of table `t` keep their contents. -/
def KeepsData (t : ℕ) (own : ℕ → Owner) (v v' : Vm) : Prop := Keeps v v' fun n => (own n).data t

theorem KeepsData.trans (first : KeepsData t own v v') (adds : Adds t own own')
    (second : KeepsData t own' v' v'') : KeepsData t own v v'' := by
  refine Keeps.trans first (Keeps.mono second fun n inside => ?_)
  rcases inside with held | ⟨u, user⟩
  · exact .inl ((adds.iff (by simp) (by simp) (by simp)).mpr held)
  · exact .inr ⟨u, adds.user_iff.mpr user⟩

/-- Only empty page-table pages of `t` have been added. -/
structure Grown (t : ℕ) (own : ℕ → Owner) (v : Vm) (own' : ℕ → Owner) (v' : Vm) : Prop where
  tree : Tree v'.mem own' t
  within : Within t own v own' v'
  adds : Adds t own own'
  leaf_eq : ∀ a < 2 ^ 27, leaf v'.mem t a = leaf v.mem t a
  data : KeepsData t own v v'

theorem Grown.refl (tree : Tree v.mem own t) : Grown t own v own v :=
  ⟨tree, .refl, fun _ => .inl rfl, fun _ _ => rfl, fun _ _ => rfl⟩

theorem Grown.trans {own'' : ℕ → Owner} {v'' : Vm} (first : Grown t own v own' v')
    (second : Grown t own' v' own'' v'') : Grown t own v own'' v'' where
  tree := second.tree
  within := first.within.trans second.within
  adds := first.adds.trans second.adds
  leaf_eq := fun a small => (second.leaf_eq a small).trans (first.leaf_eq a small)
  data := first.data.trans first.adds second.data

theorem within_grow {tag : Owner} (free : own m = .free) (used : Avail t own n)
    (tagged : Avail t (Function.update own m tag) m) (apart : t ≠ m)
    (same : ∀ w, w / 512 ≠ m → w / 512 ≠ n → v'.mem w = v.mem w) :
    Within t own v (Function.update own m tag) v' := by
  refine ⟨fun x => ?_, Function.update_of_ne apart _ _⟩
  by_cases fresh : x = m
  · subst fresh
    exact .inl ⟨.inr (by rw [free]; trivial), tagged⟩
  · have kept : Function.update own m tag x = own x := Function.update_of_ne fresh _ _
    by_cases here : x = n
    · subst here
      exact .inl ⟨used, (Avail.congr kept).mpr used⟩
    · refine .inr ⟨kept, ?_⟩
      intro k inside
      exact same _ (by omega) (by omega)

/-- Adding a page to the table touches that page and the one it hangs from. -/
theorem keepsData_grow (free : own m = .free) (plain : ¬ (own n).data t)
    (same : ∀ w, w / 512 ≠ m → w / 512 ≠ n → v'.mem w = v.mem w) : KeepsData t own v v' := by
  intro w inside
  refine same w ?_ ?_
  · rintro rfl
    simp [Owner.data, free] at inside
  · rintro rfl
    exact plain inside

section Alloc

variable {w : ℕ}

theorem grown_addL1 (tree : Tree v.mem own t) (small : i < 512) (none : ∀ n, own n ≠ .l1 t i)
    (free : own m = .free) (zero : ∀ k < 512, v'.mem (512 * m + k) = 0)
    (entry : v'.mem (512 * t + i) = m * 1024 + 1)
    (same : ∀ w, w / 512 ≠ m → w ≠ 512 * t + i → v'.mem w = v.mem w) :
    Grown t own v (Function.update own m (.l1 t i)) v' := by
  have tree' := tree.addL1 small none free zero entry same
  obtain ⟨p, top⟩ := tree.root
  have differ : t ≠ m := by
    rintro rfl
    simp [free] at top
  refine ⟨tree', within_grow free (.inl rfl) (.inr (by simp)) differ ?_, ?_, ?_,
    keepsData_grow (n := t) free (by simp [Owner.data, top]) ?_⟩
  · intro w away other
    exact same w away (by omega)
  · intro n
    by_cases here : n = m
    · subst here
      exact .inr ⟨free, .inl ⟨i, Function.update_self ..⟩⟩
    · exact .inl (Function.update_of_ne here _ _)
  · intro a bound
    refine tree.leaf_congr tree' ?_ ?_ bound
    · intro n i' j' here
      have away : n ≠ m := by
        rintro rfl
        simp [free] at here
      have apart : n ≠ t := by
        rintro rfl
        simp [top] at here
      exact ⟨by rw [Function.update_of_ne away, here],
        fun k inside => same _ (by omega) (by omega)⟩
    · intro n i' j' here
      by_cases at_ : n = m
      · subst at_
        simp at here
      · exact .inl (by rwa [Function.update_of_ne at_] at here)
  · intro w away other
    exact same w away (by omega)

theorem grown_addL0 (tree : Tree v.mem own t) (small : j < 512) (inner : own n = .l1 t i)
    (none : ∀ m, own m ≠ .l0 t i j)
    (free : own m = .free) (zero : ∀ k < 512, v'.mem (512 * m + k) = 0)
    (entry : v'.mem (512 * n + j) = m * 1024 + 1)
    (same : ∀ w, w / 512 ≠ m → w ≠ 512 * n + j → v'.mem w = v.mem w) :
    Grown t own v (Function.update own m (.l0 t i j)) v' := by
  have tree' := tree.addL0 small inner none free zero entry same
  have avail : Avail t own n := .inr (by rw [inner])
  have differ : t ≠ m := by
    rintro rfl
    obtain ⟨p, top⟩ := tree.root
    simp [free] at top
  refine ⟨tree', within_grow free avail (.inr (by simp)) differ ?_, ?_, ?_,
    keepsData_grow (n := n) free (by simp [Owner.data, inner]) ?_⟩
  · intro w away other
    exact same w away (by omega)
  · intro n
    by_cases here : n = m
    · subst here
      exact .inr ⟨free, .inr ⟨i, j, Function.update_self ..⟩⟩
    · exact .inl (Function.update_of_ne here _ _)
  · intro a bound
    refine tree.leaf_congr tree' ?_ ?_ bound
    · intro n' i' j' here
      have away : n' ≠ m := by
        rintro rfl
        simp [free] at here
      have apart : n' ≠ n := by
        rintro rfl
        simp [inner] at here
      exact ⟨by rw [Function.update_of_ne away, here],
        fun k inside => same _ (by omega) (by omega)⟩
    · intro n' i' j' here
      by_cases at_ : n' = m
      · subst at_
        exact .inr zero
      · exact .inl (by rwa [Function.update_of_ne at_] at here)
  · intro w away other
    exact same w away (by omega)

open scoped Classical in
/-- The last level of a `walk` that may allocate. -/
theorem walkFrom_bottom (pool : Pool L v own l) (tree : Tree v.mem own t)
    (inner : own n = .l1 t i) :
    Sat (walkFrom (PGSIZE * u) true 1 (PGSIZE * n)) v E fun r s =>
      ∃ own' l', Pool L s own' l' ∧ Grown t own v own' s ∧
        ((r = 0 ∧ l = [] ∧ ¬ HasL0 own t i (u / 512 % 512)) ∨
          ∃ m, own' m = .l0 t i (u / 512 % 512) ∧ r = PGSIZE * m + 8 * (u % 512) ∧
            l.length = l'.length + (if HasL0 own t i (u / 512 % 512) then 0 else 1) ∧
            (∀ a, HasL1 own' t a ↔ HasL1 own t a) ∧
            ∀ a b, HasL0 own' t a b ↔ HasL0 own t a b ∨ (a = i ∧ b = u / 512 % 512)) := by
  have index : u / 512 % 512 < 512 := Nat.mod_lt _ (by omega)
  refine walkFrom_step pool (by simp [inner]) (by simp) (PX_one u) index
    (tree.lower i n inner _ index) ?_ ?_ ?_
  · intro m here
    have has : HasL0 own t i (u / 512 % 512) := ⟨m, here⟩
    refine Sat.pure ⟨own, l, pool, .refl tree, .inr ⟨m, here, by rw [PX_zero], by simp [has], ?_, ?_⟩⟩
    · exact fun a => Iff.rfl
    · intro a b
      constructor
      · exact .inl
      · rintro (old | ⟨rfl, rfl⟩)
        · exact old
        · exact has
  · rintro none (off | empty)
    · simp at off
    · exact ⟨own, l, pool, .refl tree, .inl ⟨rfl, empty, not_exists.mpr none⟩⟩
  · intro m rest s none _ cons free pool' zero entry same
    have hasNot : ¬ HasL0 own t i (u / 512 % 512) := not_exists.mpr none
    have grown := grown_addL0 tree index inner none free zero entry same
    refine Sat.pure ⟨_, rest, pool', grown, .inr ⟨m, Function.update_self .., by rw [PX_zero], ?_, ?_, ?_⟩⟩
    · simp [hasNot, cons]
    · intro a
      exact exists_congr fun n' => by
        by_cases here : n' = m
        · subst here
          simp [free]
        · rw [Function.update_of_ne here]
    · intro a b
      constructor
      · rintro ⟨n', here⟩
        by_cases at_ : n' = m
        · subst at_
          obtain ⟨rfl, rfl⟩ : i = a ∧ u / 512 % 512 = b := by simpa using here
          exact .inr ⟨rfl, rfl⟩
        · exact .inl ⟨n', by rwa [Function.update_of_ne at_] at here⟩
      · rintro (⟨n', here⟩ | ⟨rfl, rfl⟩)
        · refine ⟨n', ?_⟩
          rw [grown.adds.keep (by simp [here]), here]
        · exact ⟨m, Function.update_self ..⟩

/-- `walk` with allocation finds or makes the bottom page; it gives up only when the
free list is too short for the pages that are missing. -/
theorem walk_alloc (pool : Pool L v own l) (tree : Tree v.mem own t) (small : u < 2 ^ 26) :
    Sat (walk (PGSIZE * t) (PGSIZE * u) true) v E fun r s =>
      ∃ own' l', Pool L s own' l' ∧ Grown t own v own' s ∧
        ((r = 0 ∧ l.length < missing own t u) ∨
          ∃ m, own' m = .l0 t (u / 512 / 512) (u / 512 % 512) ∧
            r = PGSIZE * m + 8 * (u % 512) ∧ l.length = l'.length + missing own t u ∧
            Reaches t own own' u) := by
  classical
  obtain ⟨p, top⟩ := tree.root
  have index : u / 512 / 512 < 512 := by omega
  unfold walk
  refine Sat.bind (Sat.stopIf (Q := fun _ s => s = v) ?_ fun _ => rfl) ?_
  · intro high
    exact absurd (pageVa_lt small) (by omega)
  rintro _ _ rfl
  refine walkFrom_step pool (by simp [top]) (by simp) (PX_two small) index
    (tree.upper _ index) ?_ ?_ ?_
  · intro n inner
    have has : HasL1 own t (u / 512 / 512) := ⟨n, inner⟩
    refine (walkFrom_bottom (u := u) pool tree inner).mono ?_
    rintro r s ⟨own', l', pool', grown, ⟨rfl, rfl, lacks⟩ | ⟨m, here, rfl, length, upper, lower⟩⟩
    · exact ⟨own', l', pool', grown, .inl ⟨rfl, by simp [missing, lacks]⟩⟩
    · refine ⟨own', l', pool', grown, .inr ⟨m, here, rfl, by simp [missing, has, length], ?_, lower⟩⟩
      intro a
      rw [upper a]
      constructor
      · exact .inl
      · rintro (old | rfl)
        · exact old
        · exact has
  · rintro none (off | empty)
    · simp at off
    · have lacks : ¬ HasL1 own t (u / 512 / 512) := not_exists.mpr none
      refine ⟨own, l, pool, .refl tree, .inl ⟨rfl, ?_⟩⟩
      simp only [empty, List.length_nil, missing, lacks, ↓reduceIte]
      omega
  · intro n rest s none _ cons free pool' zero entry same
    have lacks : ¬ HasL1 own t (u / 512 / 512) := not_exists.mpr none
    have lacks' : ∀ b, ¬ HasL0 own t (u / 512 / 512) b := by
      rintro b ⟨m, here⟩
      obtain ⟨n', inner⟩ := tree.parent _ _ m here
      exact none n' inner
    have grown := grown_addL1 tree index none free zero entry same
    have lower : ∀ a b, HasL0 (Function.update own n (.l1 t (u / 512 / 512))) t a b ↔ HasL0 own t a b := by
      intro a b
      exact exists_congr fun n' => by
        by_cases here : n' = n
        · subst here
          simp [free]
        · rw [Function.update_of_ne here]
    have upper : ∀ a, HasL1 (Function.update own n (.l1 t (u / 512 / 512))) t a ↔
        HasL1 own t a ∨ a = u / 512 / 512 := by
      intro a
      constructor
      · rintro ⟨n', here⟩
        by_cases at_ : n' = n
        · subst at_
          exact .inr (by simpa using here.symm)
        · exact .inl ⟨n', by rwa [Function.update_of_ne at_] at here⟩
      · rintro (⟨n', here⟩ | rfl)
        · refine ⟨n', ?_⟩
          rw [grown.adds.keep (by simp [here]), here]
        · exact ⟨n, Function.update_self ..⟩
    refine (walkFrom_bottom (u := u) (i := u / 512 / 512) pool' grown.tree
      (Function.update_self ..)).mono ?_
    rintro r s' ⟨own', l', pool'', grown', ⟨rfl, rfl, -⟩ | ⟨m, here, rfl, length, upper', lower'⟩⟩
    · refine ⟨own', l', pool'', grown.trans grown', .inl ⟨rfl, ?_⟩⟩
      simp [missing, lacks, lacks', cons]
    · refine ⟨own', l', pool'', grown.trans grown', .inr ⟨m, here, rfl, ?_, ?_, ?_⟩⟩
      · simp only [lower, lacks', ↓reduceIte] at length
        simp only [missing, lacks, lacks', cons, List.length_cons, length, ↓reduceIte]
      · exact fun a => (upper' a).trans (upper a)
      · intro a b
        rw [lower' a b, lower a b]

end Alloc

/-- Storing into a page that is not free does not disturb the allocator. -/
theorem Pool.store (pool : Pool L v own l) (used : own n ≠ .free) (inside : k < 512) (x : ℕ) :
    Pool L (v.store (PGSIZE * n + 8 * k) x) own l := by
  refine pool.congr rfl ((keeps_store v inside x).mono ?_)
  rintro m free rfl
  exact used free

theorem mappages_one (small : u < 2 ^ 26) (pagetable pa perm : ℕ) :
    mappages pagetable (PGSIZE * u) PGSIZE pa perm = mapLoop pagetable perm 1 (PGSIZE * u) pa := by
  have start : PGROUNDDOWN (PGSIZE * u) = PGSIZE * u := by
    simp only [PGROUNDDOWN, PGSIZE]
    omega
  have last : PGROUNDDOWN ((PGSIZE * u + PGSIZE - 1) % WORD) = PGSIZE * u := by
    simp only [PGROUNDDOWN, PGSIZE, WORD]
    omega
  have pages : (PGSIZE * u + WORD - PGSIZE * u) % WORD / PGSIZE + 1 = 1 := by
    simp only [PGSIZE, WORD]
    omega
  unfold mappages
  funext v
  simp only [bind_run, stopIf_run, start, last, pages]
  rfl

/-- `mappages` of one page that is not mapped yet. -/
theorem mappages_spec (pool : Pool L v own l) (tree : Tree v.mem own t) (small : u < 2 ^ 26)
    (vacant : leaf v.mem t u = 0) (f : ℕ) {perm : ℕ} (low : perm < 1024) :
    Sat (mappages (PGSIZE * t) (PGSIZE * u) PGSIZE (PGSIZE * f) perm) v E fun r s =>
      ∃ own' l', Pool L s own' l' ∧ Tree s.mem own' t ∧ Within t own v own' s ∧
        Adds t own own' ∧ KeepsData t own v s ∧
        ((r = false ∧ l.length < missing own t u ∧
            ∀ a < 2 ^ 27, leaf s.mem t a = leaf v.mem t a) ∨
          (r = true ∧ l.length = l'.length + missing own t u ∧ Reaches t own own' u ∧
            ∀ a < 2 ^ 27, leaf s.mem t a =
              if a = u then f * 1024 + (perm ||| 1) else leaf v.mem t a)) := by
  rw [mappages_one small]
  unfold mapLoop
  refine Sat.bind (walk_alloc pool tree small) ?_
  rintro r s ⟨own', l', pool', grown, ⟨rfl, short⟩ | ⟨m, here, rfl, length, reaches⟩⟩
  · rw [if_pos rfl]
    exact Sat.pure ⟨own', l', pool', grown.tree, grown.within, grown.adds, grown.data,
      .inl ⟨rfl, short, grown.leaf_eq⟩⟩
  · have inside : u % 512 < 512 := Nat.mod_lt _ (by omega)
    have above := (pool'.managed m (by simp [here])).pos
    have bottom := grown.tree.leaf_l0 here
    rw [grown.leaf_eq u (by omega), vacant] at bottom
    rw [if_neg (by simp only [PGSIZE]; omega)]
    refine Sat.bind (Sat.gets (Q := fun e s' => e = 0 ∧ s = s')
      ⟨by rw [load_entry, ← bottom], rfl⟩) ?_
    rintro _ _ ⟨rfl, rfl⟩
    refine Sat.bind (Sat.stopIf (Q := fun _ s' => s = s') (fun bad => by simp at bad)
      fun _ => rfl) ?_
    rintro _ _ rfl
    have flags : perm ||| 1 < 1024 := Nat.or_lt_two_pow (n := 10) low (by omega)
    refine Sat.bind (Sat.update (Q := fun _ s' => s' =
      s.store (PGSIZE * m + 8 * (u % 512)) (f * 1024 + (perm ||| 1))) ?_) ?_
    · rw [PTE_V, Nat.or_assoc, entry_eq f flags]
    rintro _ _ rfl
    have kept := keeps_store (n := m) s inside (f * 1024 + (perm ||| 1))
    have tree' : Tree _ own' t := grown.tree.setLeaf here kept
    have avail : Avail t own' m := .inr (by rw [here])
    have data : KeepsData t own' s (s.store (PGSIZE * m + 8 * (u % 512)) (f * 1024 + (perm ||| 1))) := by
      refine kept.mono ?_
      rintro _ (held | ⟨a, user⟩) rfl
      · simp [here] at held
      · simp [here] at user
    refine Sat.pure ⟨own', l', pool'.store (by simp [here]) inside _, tree',
      grown.within.trans (.write kept avail), grown.adds, grown.data.trans grown.adds data,
      .inr ⟨rfl, length, reaches, ?_⟩⟩
    intro a bound
    rw [grown.tree.leaf_setLeaf tree' here (mem_store ..)
      (fun w other => mem_store_of_ne _ other _) bound, grown.leaf_eq a bound]

end HaloOS
