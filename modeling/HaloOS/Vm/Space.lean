import HaloOS.Vm.Walk
import Mathlib.Data.Fintype.Card

/-! The address space a page table describes: which user pages are mapped, each to a
frame of its own, and what the remaining leaves hold. The loops of `vm.c` that map and
unmap user pages are specified by how they change it. -/

namespace HaloOS

open Lib

variable {L : Layout} {mem mem' : ℕ → ℕ} {own own' own'' : ℕ → Owner} {v v' v'' : Vm}
  {l l' : List ℕ} {t n m i j k u a f : ℕ} {S S' : ℕ → Prop} {top : ℕ → ℕ} {E : Stop → Prop}

/-- The page numbers of the two leaves above all user memory. -/
def TRAMPOLINEPG : ℕ := 2 ^ 26 - 1
def TRAPFRAMEPG : ℕ := 2 ^ 26 - 2

/-- The user pages in `S` are mapped to frames of their own, readable, writable and
executable; the other leaves are what `top` says. -/
structure Maps (mem : ℕ → ℕ) (own : ℕ → Owner) (t : ℕ) (S : ℕ → Prop) (top : ℕ → ℕ) : Prop where
  bound : ∀ u, S u → u < TRAPFRAMEPG
  frame : ∀ u, S u → ∃ f, own f = .user t u
  user : ∀ f u, own f = .user t u →
    S u ∧ (leaf mem t u = f * 1024 + 31 ∨ leaf mem t u = f * 1024 + 15)
  other : ∀ u < 2 ^ 27, ¬ S u → leaf mem t u = top u

/-- A table with its address space, and the allocator it draws on. -/
structure Space (L : Layout) (v : Vm) (own : ℕ → Owner) (l : List ℕ) (t : ℕ) (S : ℕ → Prop)
    (top : ℕ → ℕ) : Prop where
  pool : Pool L v own l
  tree : Tree v.mem own t
  maps : Maps v.mem own t S top

/-- No page is in transit to table `t`. -/
def Settled (own : ℕ → Owner) (t : ℕ) : Prop := ∀ n, own n ≠ .held t

/-- Page `f` is the one page in transit to table `t`. -/
def Carries (own : ℕ → Owner) (t f : ℕ) : Prop := ∀ n, own n = .held t ↔ n = f

/-- A page changing hands between two owners does not concern a third. -/
theorem reown_iff {x o : Owner} (old : own f ≠ x) (new : o ≠ x) :
    Function.update own f o m = x ↔ own m = x := by
  by_cases here : m = f
  · subst here
    simp [old, new]
  · rw [Function.update_of_ne here]

theorem Maps.congr (maps : Maps mem own t S top)
    (users : ∀ n u, own' n = .user t u ↔ own n = .user t u)
    (same : ∀ u < 2 ^ 27, leaf mem' t u = leaf mem t u) : Maps mem' own' t S top where
  bound := maps.bound
  frame := by
    intro u inside
    obtain ⟨f, here⟩ := maps.frame u inside
    exact ⟨f, (users f u).mpr here⟩
  user := by
    intro f u here
    obtain ⟨inside, entry⟩ := maps.user f u ((users f u).mp here)
    have small := maps.bound u inside
    simp only [TRAPFRAMEPG] at small
    exact ⟨inside, by rwa [same u (by omega)]⟩
  other := by
    intro u small outside
    rw [same u small]
    exact maps.other u small outside

theorem Maps.set_congr (maps : Maps mem own t S top) (same : ∀ u, S u ↔ S' u) :
    Maps mem own t S' top := by
  obtain rfl : S = S' := funext fun u => propext (same u)
  exact maps

/-- Frames are managed pages, so memory bounds the number of user pages. -/
theorem Maps.pages_le (maps : Maps mem own t S top) (pool : Pool L v own l)
    (all : ∀ u < n, S u) : n ≤ 32768 := by
  choose frame owned using fun u : Fin n => maps.frame u (all u u.isLt)
  have managed : ∀ u, 524288 ≤ frame u ∧ frame u < 557056 := by
    intro u
    have inside := pool.managed (frame u) (by rw [owned u]; simp)
    exact ⟨inside.ge, inside.lt⟩
  have injective : Function.Injective fun u : Fin n =>
      (⟨frame u - 524288, by have := managed u; omega⟩ : Fin 32768) := by
    intro a b same
    have pages : frame a = frame b := by
      have low := managed a
      have low' := managed b
      simp only [Fin.mk.injEq] at same
      omega
    have tags := (owned a).symm.trans (pages ▸ owned b)
    simp only [Owner.user.injEq, true_and] at tags
    exact Fin.ext tags
  simpa using Fintype.card_le_of_injective _ injective

/-- The pages of user memory stay in their frames with what they hold; those that have come
are open to the user and hold zeros. -/
structure Extends (t : ℕ) (own : ℕ → Owner) (v : Vm) (own' : ℕ → Owner) (v' : Vm) : Prop where
  old : ∀ f u, own f = .user t u → own' f = .user t u ∧ leaf v'.mem t u = leaf v.mem t u ∧
    ∀ k < 512, v'.mem (512 * f + k) = v.mem (512 * f + k)
  new : ∀ f u, own' f = .user t u → own f = .user t u ∨ ((∀ g, own g ≠ .user t u) ∧
    leaf v'.mem t u = f * 1024 + 31 ∧ ∀ k < 512, v'.mem (512 * f + k) = 0)

theorem Extends.refl : Extends t own v own v :=
  ⟨fun _ _ here => ⟨here, rfl, fun _ _ => rfl⟩, fun _ _ here => .inl here⟩

theorem Extends.trans (first : Extends t own v own' v') (second : Extends t own' v' own'' v'') :
    Extends t own v own'' v'' where
  old := by
    intro f u here
    obtain ⟨here', entry, data⟩ := first.old f u here
    obtain ⟨here'', entry', data'⟩ := second.old f u here'
    exact ⟨here'', entry'.trans entry, fun k inside => (data' k inside).trans (data k inside)⟩
  new := by
    intro f u here
    rcases second.new f u here with here' | ⟨none, zeros⟩
    · rcases first.new f u here' with here | ⟨none, entry, zero⟩
      · exact .inl here
      · obtain ⟨-, entry', data⟩ := second.old f u here'
        exact .inr ⟨none, entry'.trans entry, fun k inside => (data k inside).trans (zero k inside)⟩
    · exact .inr ⟨fun g owner => none g (first.old g u owner).1, zeros⟩

/-- The same pages in the same frames. -/
theorem Extends.same (users : ∀ f u, own' f = .user t u ↔ own f = .user t u)
    (leaves : ∀ u < 2 ^ 27, leaf v'.mem t u = leaf v.mem t u)
    (bound : ∀ f u, own f = .user t u → u < 2 ^ 27)
    (data : ∀ f u, own f = .user t u → ∀ k < 512, v'.mem (512 * f + k) = v.mem (512 * f + k)) :
    Extends t own v own' v' :=
  ⟨fun f u here => ⟨(users f u).mpr here, leaves u (bound f u here), data f u here⟩,
    fun f u here => .inl ((users f u).mp here)⟩

theorem Maps.small (maps : Maps mem own t S top) (here : own f = .user t u) : u < 2 ^ 27 := by
  have bound := maps.bound u (maps.user f u here).1
  simp only [TRAPFRAMEPG] at bound
  omega

/-- A page is in one frame. -/
theorem Maps.frame_unique (maps : Maps mem own t S top) (one : own f = .user t u)
    (two : own n = .user t u) : f = n := by
  obtain ⟨-, first⟩ := maps.user f u one
  obtain ⟨-, second⟩ := maps.user n u two
  omega

/-- What is written to a page that is no page-table page of `t` changes no leaf. -/
theorem Tree.poke (tree : Tree v.mem own t) (root : ∀ q, own n ≠ .root q) (upper : ∀ a, own n ≠ .l1 t a)
    (lower : ∀ a b, own n ≠ .l0 t a b) (keeps : Keeps v v' (· ≠ n)) :
    Tree v'.mem own t ∧ ∀ u < 2 ^ 27, leaf v'.mem t u = leaf v.mem t u := by
  have tree' : Tree v'.mem own t := by
    refine tree.congr rfl (fun _ _ => Iff.rfl) (fun _ _ _ => Iff.rfl) ?_
    intro m inner k inside
    refine keeps.at ?_ inside
    rintro rfl
    rcases inner with rfl | ⟨a, inner⟩
    · exact tree.apart root rfl
    · exact upper a inner
  refine ⟨tree', fun u small => ?_⟩
  refine tree.leaf_congr tree' (fun m a b bottom => ?_) (fun m a b bottom => .inl bottom) small
  refine ⟨bottom, fun k inside => keeps.at ?_ inside⟩
  rintro rfl
  exact lower a b bottom

/-- A page that is no page-table page of `t` may be written to. -/
theorem Space.scribble (space : Space L v own l t S top)
    (here : own n = .held t ∨ ∃ u, own n = .user t u) (keeps : Keeps v v' (· ≠ n))
    (freelist : v'.freelist = v.freelist) :
    Space L v' own l t S top ∧ Within t own v own v' := by
  obtain ⟨used, root, upper, lower, avail⟩ : own n ≠ .free ∧ (∀ q, own n ≠ .root q) ∧
      (∀ a, own n ≠ .l1 t a) ∧ (∀ a b, own n ≠ .l0 t a b) ∧ Avail t own n := by
    rcases here with here | ⟨u, here⟩ <;> simp [here, Avail]
  obtain ⟨tree', leaves⟩ := space.tree.poke root upper lower keeps
  refine ⟨⟨space.pool.congr freelist (keeps.mono ?_), tree', space.maps.congr (fun _ _ => Iff.rfl) leaves⟩,
    .write keeps avail⟩
  rintro m free rfl
  exact used free

/-- Taking a page for table `t`. -/
theorem Space.kalloc (space : Space L v own l t S top) (settled : Settled own t) :
    Sat kalloc v E fun r s =>
      (r = 0 ∧ l = [] ∧ s = v) ∨
      ∃ f rest own', r = PGSIZE * f ∧ 0 < f ∧ l = f :: rest ∧ Space L s own' rest t S top ∧
        Carries own' t f ∧ Within t own v own' s ∧ Extends t own v own' s ∧
        (∀ a, HasL1 own' t a ↔ HasL1 own t a) ∧ ∀ a b, HasL0 own' t a b ↔ HasL0 own t a b := by
  refine (kalloc_spec space.pool).mono ?_
  rintro r s (none | ⟨f, rest, rfl, rfl, free, managed, keeps, pool⟩)
  · exact .inl none
  · have others : ∀ m o, o ≠ .free → o ≠ .held t →
        (Function.update own f (.held t) m = o ↔ own m = o) :=
      fun m o used away => reown_iff (by rw [free]; exact used.symm) away.symm
    obtain ⟨p, root⟩ := space.tree.root
    have apart : t ≠ f := by
      rintro rfl
      simp [free] at root
    have away : ∀ m, own m ≠ .free → m ≠ f := by
      rintro m used rfl
      exact used free
    have tree' : Tree s.mem (Function.update own f (.held t)) t := by
      refine space.tree.congr (Function.update_of_ne apart _ _) (fun m a => others m _ (by simp) (by simp))
        (fun m a b => others m _ (by simp) (by simp)) ?_
      rintro m inner k inside
      refine keeps.at (away m ?_) inside
      rcases inner with rfl | ⟨a, inner⟩
      · simp [root]
      · simp [inner]
    have leaves : ∀ u < 2 ^ 27, leaf s.mem t u = leaf v.mem t u := by
      intro u small
      refine space.tree.leaf_congr tree' ?_ ?_ small
      · intro m a b bottom
        exact ⟨(others m _ (by simp) (by simp)).mpr bottom,
          fun k inside => keeps.at (away m (by simp [bottom])) inside⟩
      · intro m a b bottom
        exact .inl ((others m _ (by simp) (by simp)).mp bottom)
    refine .inr ⟨f, rest, _, rfl, managed.pos, rfl, ⟨pool _ (by simp), tree', ?_⟩, ?_, ?_, ?_, ?_, ?_⟩
    · exact space.maps.congr (fun m u => others m _ (by simp) (by simp)) leaves
    · intro m
      by_cases here : m = f
      · subst here
        simp
      · rw [Function.update_of_ne here]
        simp [here, settled m]
    · exact .single keeps (.inr (by rw [free]; trivial)) (.inr (by simp)) apart
    · refine .same (fun m u => others m _ (by simp) (by simp)) leaves
        (fun m u here => space.maps.small here) ?_
      exact fun m u here k inside => keeps.at (away m (by simp [here])) inside
    · exact fun a => exists_congr fun m => others m _ (by simp) (by simp)
    · exact fun a b => exists_congr fun m => others m _ (by simp) (by simp)

/-- A page outside the inner levels of the table changes hands; so may its contents. -/
theorem Tree.reown {o : Owner} (tree : Tree v.mem own t) (keeps : Keeps v v' (· ≠ f))
    (old : own f = .held t ∨ ∃ u, own f = .user t u)
    (new : o = .free ∨ o = .held t ∨ ∃ u, o = .user t u) :
    Tree v'.mem (Function.update own f o) t ∧
      ∀ u < 2 ^ 27, leaf v'.mem t u = leaf v.mem t u := by
  obtain ⟨p, root⟩ := tree.root
  have apart : t ≠ f := by
    rintro rfl
    rcases old with old | ⟨u, old⟩ <;> simp [root] at old
  have upper : ∀ m a, Function.update own f o m = .l1 t a ↔ own m = .l1 t a := by
    intro m a
    refine reown_iff ?_ ?_
    · rcases old with old | ⟨u, old⟩ <;> simp [old]
    · rcases new with rfl | rfl | ⟨u, rfl⟩ <;> simp
  have lower : ∀ m a b, Function.update own f o m = .l0 t a b ↔ own m = .l0 t a b := by
    intro m a b
    refine reown_iff ?_ ?_
    · rcases old with old | ⟨u, old⟩ <;> simp [old]
    · rcases new with rfl | rfl | ⟨u, rfl⟩ <;> simp
  have tree' : Tree v'.mem (Function.update own f o) t := by
    refine tree.congr (Function.update_of_ne apart _ _) upper lower ?_
    rintro m inner k inside
    refine keeps.at ?_ inside
    rintro rfl
    rcases inner with rfl | ⟨a, inner⟩
    · exact apart rfl
    · rcases old with old | ⟨u, old⟩ <;> simp [inner] at old
  refine ⟨tree', fun u small => tree.leaf_congr tree' ?_ ?_ small⟩
  · intro m a b bottom
    refine ⟨(lower m a b).mpr bottom, fun k inside => keeps.at ?_ inside⟩
    rintro rfl
    rcases old with old | ⟨u, old⟩ <;> simp [bottom] at old
  · intro m a b bottom
    exact .inl ((lower m a b).mp bottom)

/-- What is written to a page in transit. -/
theorem Space.extends_scribble (space : Space L v own l t S top) (held : own f = .held t)
    (keeps : Keeps v v' (· ≠ f)) : Extends t own v own v' := by
  refine .same (fun _ _ => Iff.rfl) (space.tree.reown keeps (.inl held) (.inr (.inl rfl))).2
    (fun m u here => space.maps.small here) ?_
  intro m u here k inside
  refine keeps.at ?_ inside
  rintro rfl
  simp [held] at here

/-- Giving a page in transit back. -/
theorem Space.kfree (space : Space L v own l t S top) (carries : Carries own t f) :
    Sat (kfree L (PGSIZE * f)) v E fun _ s =>
      ∃ own', Space L s own' (f :: l) t S top ∧ Settled own' t ∧ Within t own v own' s := by
  have here : own f = .held t := (carries f).mpr rfl
  refine (kfree_spec space.pool (space.pool.managed f (by simp [here])) (by simp [here])).mono ?_
  rintro _ s ⟨keeps, pool⟩
  obtain ⟨tree, leaves⟩ := space.tree.reown keeps (.inl here) (.inl rfl)
  have apart : t ≠ f := space.tree.apart (by simp [here])
  refine ⟨_, ⟨pool, tree, space.maps.congr ?_ leaves⟩, ?_,
    .single keeps (.inr (by rw [here])) (.inr (by simp)) apart⟩
  · exact fun m u => reown_iff (by simp [here]) (by simp)
  · intro m
    by_cases at_ : m = f
    · subst at_
      simp
    · rw [Function.update_of_ne at_]
      exact fun held => at_ ((carries m).mp held)

/-- `mappages` of a page in transit to a user address. -/
theorem Space.mapUser (space : Space L v own l t S top) (carries : Carries own t f)
    (small : u < TRAPFRAMEPG) (fresh : ¬ S u) (vacant : top u = 0) {perm : ℕ}
    (flags : perm ||| 1 = 31 ∨ perm ||| 1 = 15) :
    Sat (mappages (PGSIZE * t) (PGSIZE * u) PGSIZE (PGSIZE * f) perm) v E fun r s =>
      ∃ own' l', Within t own v own' s ∧
        ((r = false ∧ l.length < missing own t u ∧ Space L s own' l' t S top ∧
            Carries own' t f) ∨
          (r = true ∧ l.length = l'.length + missing own t u ∧ Reaches t own own' u ∧
            own' f = .user t u ∧ Space L s own' l' t (fun a => S a ∨ a = u) top ∧
            Settled own' t ∧ (perm ||| 1 = 31 → (∀ k < 512, v.mem (512 * f + k) = 0) →
              Extends t own v own' s))) := by
  have here : own f = .held t := (carries f).mpr rfl
  have bound : u < 2 ^ 26 := by
    simp only [TRAPFRAMEPG] at small
    omega
  have empty : leaf v.mem t u = 0 := by rw [space.maps.other u (by omega) fresh, vacant]
  have low : perm < 1024 := by
    have le : perm ≤ perm ||| 1 := Nat.left_le_or
    omega
  refine (mappages_spec space.pool space.tree bound empty f low).mono ?_
  rintro r s ⟨own', l', pool, tree, within, adds, data, ⟨rfl, short, leaves⟩ |
    ⟨rfl, length, reaches, leaves⟩⟩
  · refine ⟨own', l', within, .inl ⟨rfl, short, ⟨pool, tree, ?_⟩, ?_⟩⟩
    · exact space.maps.congr (fun m a => adds.user_iff) leaves
    · exact fun m => (adds.iff (by simp) (by simp) (by simp)).trans (carries m)
  · have held : own' f = .held t := (adds.iff (by simp) (by simp) (by simp)).mpr here
    have same : Keeps s s (· ≠ f) := fun w _ => rfl
    obtain ⟨tree', leaves'⟩ := tree.reown (o := .user t u) same (.inl held)
      (.inr (.inr ⟨u, rfl⟩))
    have users : ∀ m a, Function.update own' f (.user t u) m = .user t a ↔
        own m = .user t a ∨ (m = f ∧ a = u) := by
      intro m a
      by_cases at_ : m = f
      · subst at_
        simp [here, eq_comm]
      · rw [Function.update_of_ne at_, adds.user_iff]
        simp [at_]
    have apart : t ≠ f := tree.apart (by simp [held])
    refine ⟨_, l', within.trans (.single (fun w _ => rfl) (.inr (by rw [held])) (.inr (by simp)) apart),
      .inr ⟨rfl, length, ?_, Function.update_self .., ⟨?_, tree', ?_⟩, ?_, ?_⟩⟩
    · refine ⟨fun a => ?_, fun a b => ?_⟩
      · rw [← reaches.1 a]
        exact exists_congr fun m => reown_iff (by simp [held]) (by simp)
      · rw [← reaches.2 a b]
        exact exists_congr fun m => reown_iff (by simp [held]) (by simp)
    · refine pool.relabel ?_ ?_
      · exact fun m => reown_iff (by simp [held]) (by simp)
      · intro m busy
        by_cases at_ : m = f
        · subst at_
          simp [held]
        · rwa [Function.update_of_ne at_] at busy
    · constructor
      · rintro a (old | rfl)
        · exact space.maps.bound a old
        · exact small
      · rintro a (old | rfl)
        · obtain ⟨g, owner⟩ := space.maps.frame a old
          exact ⟨g, (users g a).mpr (.inl owner)⟩
        · exact ⟨f, Function.update_self ..⟩
      · intro g a owner
        rcases (users g a).mp owner with old | ⟨rfl, rfl⟩
        · obtain ⟨inside, entry⟩ := space.maps.user g a old
          have away : a ≠ u := by
            rintro rfl
            exact fresh inside
          have le := space.maps.bound a inside
          simp only [TRAPFRAMEPG] at le
          rw [leaves a (by omega), if_neg away]
          exact ⟨.inl inside, entry⟩
        · rw [leaves a (by omega), if_pos rfl]
          refine ⟨.inr rfl, ?_⟩
          rcases flags with flags | flags <;> simp [flags]
      · intro a le outside
        obtain ⟨old, away⟩ := not_or.mp outside
        rw [leaves a le, if_neg away]
        exact space.maps.other a le old
    · intro m
      by_cases at_ : m = f
      · subst at_
        simp
      · rw [Function.update_of_ne at_]
        intro moved
        exact at_ ((carries m).mp ((adds.iff (by simp) (by simp) (by simp)).mp moved))
    · intro open_ blank
      refine ⟨fun g a owner => ?_, fun g a owner => ?_⟩
      · have away : a ≠ u := by
          rintro rfl
          exact fresh (space.maps.user g a owner).1
        refine ⟨(users g a).mpr (.inl owner), ?_, fun k inside => Keeps.at data (.inr ⟨a, owner⟩) inside⟩
        rw [leaves a (space.maps.small owner), if_neg away]
      · rcases (users g a).mp owner with old | ⟨rfl, rfl⟩
        · exact .inl old
        · refine .inr ⟨fun m owner => fresh (space.maps.user m a owner).1, ?_, fun k inside => ?_⟩
          · rw [leaves a (by omega), if_pos rfl, open_]
          · rw [Keeps.at data (.inl here) inside, blank k inside]

section Unmap

variable {flags : ℕ} {doFree : Bool} {Q : Unit → Vm → Prop}

/-- The checks of `uvmunmap` pass on a mapped page. -/
theorem unmapLoop_step (pool : Pool L v own l) (tree : Tree v.mem own t) (small : u < 2 ^ 26)
    (entry : leaf v.mem t u = f * 1024 + flags) (low : flags < 1024)
    (valid : flags &&& PTE_V ≠ 0) (real : flags ≠ PTE_V)
    (rest : ∀ m, own m = .l0 t (u / 512 / 512) (u / 512 % 512) →
      Sat (do
        onlyIf (doFree = true) (HaloOS.kfree L (PTE2PA (f * 1024 + flags)))
        update (Vm.store (PGSIZE * m + 8 * (u % 512)) 0)
        unmapLoop L (PGSIZE * t) doFree n (PGSIZE * (u + 1))) v E Q) :
    Sat (unmapLoop L (PGSIZE * t) doFree (n + 1) (PGSIZE * u)) v E Q := by
  unfold unmapLoop
  refine Sat.bind (walk_find pool tree small) ?_
  rintro r s ⟨rfl, ⟨-, none⟩ | ⟨m, here, rfl⟩⟩
  · have zero : flags = 0 := by omega
    simp [zero] at valid
  · have above := (pool.managed m (by simp [here])).pos
    refine Sat.bind (Sat.stopIf (Q := fun _ s' => s = s') ?_ fun _ => rfl) ?_
    · intro zero
      simp only [PGSIZE] at zero
      omega
    rintro _ _ rfl
    refine Sat.bind (Sat.gets (Q := fun e s' => e = f * 1024 + flags ∧ s = s')
      ⟨by rw [load_entry, ← tree.leaf_l0 here, entry], rfl⟩) ?_
    rintro _ _ ⟨rfl, rfl⟩
    rw [entry_and f (by decide), entry_flags f low]
    refine Sat.bind (Sat.stopIf (Q := fun _ s' => s = s') (fun bad => absurd bad valid)
      fun _ => rfl) ?_
    rintro _ _ rfl
    refine Sat.bind (Sat.stopIf (Q := fun _ s' => s = s') (fun bad => absurd bad real)
      fun _ => rfl) ?_
    rintro _ _ rfl
    exact rest m here

/-- One round of `uvmunmap` that frees a user page. -/
theorem Space.unmapUser (space : Space L v own l t S top) (settled : Settled own t) (inside : S u)
    (vacant : top u = 0)
    (rest : ∀ s own' l', Space L s own' l' t (fun a => S a ∧ a ≠ u) top → Settled own' t →
      Within t own v own' s →
      Sat (unmapLoop L (PGSIZE * t) true n (PGSIZE * (u + 1))) s E Q) :
    Sat (unmapLoop L (PGSIZE * t) true (n + 1) (PGSIZE * u)) v E Q := by
  obtain ⟨f, here⟩ := space.maps.frame u inside
  obtain ⟨-, entry⟩ := space.maps.user f u here
  have small : u < 2 ^ 26 := by
    have le := space.maps.bound u inside
    simp only [TRAPFRAMEPG] at le
    omega
  have managed := space.pool.managed f (by simp [here])
  obtain ⟨flags, entry, low, valid, real⟩ : ∃ flags, leaf v.mem t u = f * 1024 + flags ∧
      flags < 1024 ∧ flags &&& PTE_V ≠ 0 ∧ flags ≠ PTE_V := by
    rcases entry with entry | entry
    · exact ⟨31, entry, by omega, by decide, by decide⟩
    · exact ⟨15, entry, by omega, by decide, by decide⟩
  refine unmapLoop_step space.pool space.tree small entry low valid real ?_
  intro m bottom
  rw [entry_page managed.lt low]
  refine Sat.bind (Sat.onlyIf (fun _ => kfree_spec space.pool managed (by simp [here]))
    (fun off => absurd rfl off)) ?_
  rintro _ s ⟨keeps, pool⟩
  obtain ⟨tree, leaves⟩ := space.tree.reown keeps (.inr ⟨u, here⟩) (.inl rfl)
  have apart : m ≠ f := by
    rintro rfl
    simp [here] at bottom
  have bottom' : Function.update own f .free m = .l0 t (u / 512 / 512) (u / 512 % 512) := by
    rw [Function.update_of_ne apart, bottom]
  have index : u % 512 < 512 := Nat.mod_lt _ (by omega)
  refine Sat.bind (Sat.update (Q := fun _ s' => s.store (PGSIZE * m + 8 * (u % 512)) 0 = s') rfl) ?_
  rintro _ _ rfl
  have kept := keeps_store (n := m) s index 0
  have tree' : Tree _ _ t := tree.setLeaf bottom' kept
  have leaves' : ∀ a < 2 ^ 27, leaf (s.store (PGSIZE * m + 8 * (u % 512)) 0).mem t a =
      if a = u then 0 else leaf v.mem t a := by
    intro a bound
    rw [tree.leaf_setLeaf tree' bottom' (mem_store ..)
      (fun w other => mem_store_of_ne _ other _) bound, leaves a bound]
  have users : ∀ g a, Function.update own f .free g = .user t a ↔ own g = .user t a ∧ a ≠ u := by
    intro g a
    by_cases at_ : g = f
    · subst at_
      simp [here, eq_comm]
    · rw [Function.update_of_ne at_]
      constructor
      · intro owner
        refine ⟨owner, ?_⟩
        rintro rfl
        obtain ⟨-, one⟩ := space.maps.user g a owner
        obtain ⟨-, two⟩ := space.maps.user f a here
        omega
      · exact And.left
  refine rest _ _ (f :: l) ⟨pool.store (by simp [bottom']) index 0, tree', ?_⟩ ?_ ?_
  · constructor
    · exact fun a old => space.maps.bound a old.1
    · rintro a ⟨old, away⟩
      obtain ⟨g, owner⟩ := space.maps.frame a old
      exact ⟨g, (users g a).mpr ⟨owner, away⟩⟩
    · intro g a owner
      obtain ⟨old, away⟩ := (users g a).mp owner
      obtain ⟨member, entry⟩ := space.maps.user g a old
      have le := space.maps.bound a member
      simp only [TRAPFRAMEPG] at le
      rw [leaves' a (by omega), if_neg away]
      exact ⟨⟨member, away⟩, entry⟩
    · intro a bound outside
      rw [leaves' a bound]
      by_cases at_ : a = u
      · subst at_
        rw [if_pos rfl, vacant]
      · rw [if_neg at_]
        exact space.maps.other a bound fun member => outside ⟨member, at_⟩
  · intro g
    by_cases at_ : g = f
    · subst at_
      simp
    · rw [Function.update_of_ne at_]
      exact settled g
  · have single : Within t own v (Function.update own f .free) s :=
      .single keeps (.inr (by rw [here])) (.inr (by simp)) (space.tree.apart (by simp [here]))
    exact single.trans (.write kept (.inr (by rw [bottom'])))

/-- `uvmunmap` with `do_free` over a range of mapped user pages. -/
theorem Space.unmapLoop (space : Space L v own l t S top) (settled : Settled own t)
    (mapped : ∀ a, u ≤ a → a < u + n → S a) (vacant : ∀ a, u ≤ a → a < u + n → top a = 0) :
    Sat (unmapLoop L (PGSIZE * t) true n (PGSIZE * u)) v E fun _ s =>
      ∃ own' l', Space L s own' l' t (fun a => S a ∧ ¬ (u ≤ a ∧ a < u + n)) top ∧
        Settled own' t ∧ Within t own v own' s := by
  induction n generalizing u v own l S with
  | zero =>
    refine Sat.pure ⟨own, l, ⟨space.pool, space.tree, space.maps.set_congr ?_⟩, settled, .refl⟩
    intro a
    constructor
    · exact fun member => ⟨member, by omega⟩
    · exact And.left
  | succ n ih =>
    refine space.unmapUser settled (mapped u (by omega) (by omega)) (vacant u (by omega) (by omega)) ?_
    intro s own' l' space' settled' within
    refine (ih space' settled' ?_ fun a low high => vacant a (by omega) (by omega)).mono ?_
    · intro a low high
      exact ⟨mapped a (by omega) (by omega), by omega⟩
    · rintro _ s' ⟨own'', l'', space'', settled'', within'⟩
      refine ⟨own'', l'', ⟨space''.pool, space''.tree, space''.maps.set_congr ?_⟩, settled'',
        within.trans within'⟩
      intro a
      constructor
      · rintro ⟨⟨member, away⟩, outside⟩
        exact ⟨member, by omega⟩
      · rintro ⟨member, outside⟩
        exact ⟨⟨member, by omega⟩, by omega⟩

/-- `uvmunmap` of one of the leaves above user memory, which frees nothing. -/
theorem Space.unmapTop (space : Space L v own l t S top) (small : u < 2 ^ 26)
    (outside : ¬ S u) (entry : top u = f * 1024 + flags) (low : flags < 1024) (valid : flags &&& PTE_V ≠ 0) (real : flags ≠ PTE_V) :
    Sat (HaloOS.unmapLoop L (PGSIZE * t) false 1 (PGSIZE * u)) v E fun _ s =>
      ∃ l', Space L s own l' t S (Function.update top u 0) ∧ Within t own v own s := by
  have leafEq : leaf v.mem t u = f * 1024 + flags := by
    rw [space.maps.other u (by omega) outside, entry]
  refine unmapLoop_step space.pool space.tree small leafEq low valid real ?_
  intro m bottom
  have index : u % 512 < 512 := Nat.mod_lt _ (by omega)
  refine Sat.bind (Sat.onlyIf (Q := fun _ s' => v = s') (fun on => by simp at on) fun _ => rfl) ?_
  rintro _ _ rfl
  refine Sat.bind (Sat.update (Q := fun _ s' => v.store (PGSIZE * m + 8 * (u % 512)) 0 = s') rfl) ?_
  rintro _ _ rfl
  have kept := keeps_store (n := m) v index 0
  have tree' : Tree _ own t := space.tree.setLeaf bottom kept
  have leaves : ∀ a < 2 ^ 27, leaf (v.store (PGSIZE * m + 8 * (u % 512)) 0).mem t a =
      if a = u then 0 else leaf v.mem t a :=
    fun a bound => space.tree.leaf_setLeaf tree' bottom (mem_store ..)
      (fun w other => mem_store_of_ne _ other _) bound
  refine Sat.pure ⟨l, ⟨space.pool.store (by simp [bottom]) index 0, tree', ?_⟩,
    .write kept (.inr (by rw [bottom]))⟩
  constructor
  · exact space.maps.bound
  · exact space.maps.frame
  · intro g a owner
    obtain ⟨member, old⟩ := space.maps.user g a owner
    have away : a ≠ u := by
      rintro rfl
      exact outside member
    have le := space.maps.bound a member
    simp only [TRAPFRAMEPG] at le
    rw [leaves a (by omega), if_neg away]
    exact ⟨member, old⟩
  · intro a bound away
    rw [leaves a bound]
    by_cases at_ : a = u
    · subst at_
      simp
    · rw [if_neg at_, Function.update_of_ne at_]
      exact space.maps.other a bound away

end Unmap

end HaloOS
