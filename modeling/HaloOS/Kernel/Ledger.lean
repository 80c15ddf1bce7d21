import HaloOS.Kernel.Model
import HaloOS.Vm.Build

/-! The ledger of physical pages: which process every page belongs to. It is kept by
every operation on one address space, and the pages of a process that is being built or
taken apart are entered apart from the rest. -/

namespace HaloOS

open Lib

variable {L : Layout} {v v' : Vm} {own own' : ℕ → Owner} {l l' : List ℕ}
  {procs : Fin NPROC → Proc} {extra extra' : ℕ → Prop} {t f n : ℕ} {p : Fin NPROC}

/-- The address space of a process is whole: its first `sz` bytes are mapped, and above
them the trampoline and its trapframe. -/
def Holds (L : Layout) (v : Vm) (own : ℕ → Owner) (p : Fin NPROC) (proc : Proc) : Prop :=
  ∃ t f, proc.pagetable = PGSIZE * t ∧ proc.trapframe = PGSIZE * f ∧ own t = .root p ∧
    own f = .trapframe p ∧ Tree v.mem own t ∧
    Maps v.mem own t (· < pages proc.sz) (topLeaves L f) ∧ proc.sz % PGSIZE = 0

/-- The books balance. Roots and trapframes listed in `extra` belong to a process that is
being built or taken apart. -/
structure Ledger (L : Layout) (v : Vm) (procs : Fin NPROC → Proc) (own : ℕ → Owner)
    (l : List ℕ) (extra : ℕ → Prop) : Prop where
  pool : Pool L v own l
  holds : ∀ p, (procs p).state ≠ .unused → Holds L v own p (procs p)
  root : ∀ n q, own n = .root q → extra n ∨
    ∃ p : Fin NPROC, q = p ∧ (procs p).state ≠ .unused ∧ (procs p).pagetable = PGSIZE * n
  trapframe : ∀ n q, own n = .trapframe q → extra n ∨
    ∃ p : Fin NPROC, q = p ∧ (procs p).state ≠ .unused ∧ (procs p).trapframe = PGSIZE * n
  under : ∀ n t, (own n).under t → ∃ q, own t = .root q
  settled : ∀ n t, own n ≠ .held t

theorem PGSIZE_inj {a b : ℕ} (same : PGSIZE * a = PGSIZE * b) : a = b := by
  simp only [PGSIZE] at same
  omega

/-- The page is a root, or free to become one. -/
def Rootlike (own : ℕ → Owner) (t : ℕ) : Prop := own t = .free ∨ ∃ q, own t = .root q

theorem Rootlike.not_under {s : ℕ} (rootlike : Rootlike own t) : ¬ (own t).under s := by
  rcases rootlike with free | ⟨q, root⟩
  · simp [free, Owner.under]
  · simp [root, Owner.under]

theorem Rootlike.not_trapframe {q : ℕ} (rootlike : Rootlike own t) (here : own n = .trapframe q) :
    ¬ Avail t own n := by
  rintro (rfl | inside)
  · rcases rootlike with free | ⟨q, root⟩
    · simp [free] at here
    · simp [root] at here
  · simp [here] at inside

/-- Work on another table leaves the address space of a process whole. -/
theorem Holds.within {proc : Proc} (holds : Holds L v own p proc) (within : Touches t own v own' v')
    (before : Rootlike own t) (after : Rootlike own' t) (other : proc.pagetable ≠ PGSIZE * t) :
    Holds L v' own' p proc := by
  obtain ⟨s, f, table, frame, root, trap, tree, maps, whole⟩ := holds
  have apart : s ≠ t := by
    rintro rfl
    exact other table
  refine ⟨s, f, table, frame, ?_, ?_, ?_, ?_, whole⟩
  · exact (within.keep (not_avail_root apart root)).1.trans root
  · exact (within.keep (before.not_trapframe trap)).1.trans trap
  · exact tree.elsewhere within apart before.not_under after.not_under
  · exact maps.elsewhere tree within apart before.not_under after.not_under

/-- Work on a table that belongs to no finished process. -/
theorem Ledger.within (ledger : Ledger L v procs own l extra) (within : Touches t own v own' v')
    (pool : Pool L v' own' l') (before : Rootlike own t) (after : Rootlike own' t)
    (rooted : ∀ n, ((own' n).under t ∨ own' n = .held t) → ∃ q, own' t = .root q)
    (settled : Settled own' t) (fresh : own t = .free ∨ extra t)
    (apart : ∀ p, (procs p).state ≠ .unused → (procs p).pagetable ≠ PGSIZE * t) :
    Ledger L v' procs own' l' (fun n => extra n ∨ n = t) where
  pool := pool
  holds := fun p live => (ledger.holds p live).within within before after (apart p live)
  root := by
    intro n q here
    by_cases same : n = t
    · exact .inl (.inr same)
    · rcases ledger.root n q ((within.back (not_avail_root same here)).1.trans here) with old | live
      · exact .inl (.inl old)
      · exact .inr live
  trapframe := by
    intro n q here
    rcases ledger.trapframe n q ((within.back (after.not_trapframe here)).1.trans here) with old | live
    · exact .inl (.inl old)
    · exact .inr live
  under := by
    intro n s inner
    by_cases same : s = t
    · subst same
      exact rooted n (.inl inner)
    · have old := within.back (not_avail_of_under same after.not_under inner)
      obtain ⟨q, root⟩ := ledger.under n s (by rw [old.1]; exact inner)
      exact ⟨q, (within.keep (not_avail_root same root)).1.trans root⟩
  settled := by
    intro n s held
    by_cases same : s = t
    · subst same
      exact settled n held
    · have outside : ¬ Avail t own' n := by
        rintro (rfl | inside)
        · rcases after with free | ⟨q, root⟩
          · simp [free] at held
          · simp [root] at held
        · simp [held, same] at inside
      exact ledger.settled n s ((within.back outside).1.trans held)

/-- No page is out of reach, and the pages of the kernel are those in `K`. -/
def Sound (K : ℕ → Prop) (own : ℕ → Owner) : Prop :=
  ∀ n, (own n = .kernel ↔ K n) ∧ own n ≠ .lost

theorem Rootlike.not_avail (rootlike : Rootlike own t) (here : own n = .kernel ∨ own n = .lost) :
    ¬ Avail t own n := by
  rintro (rfl | inside)
  · rcases rootlike with free | ⟨q, root⟩
    · simp [free] at here
    · simp [root] at here
  · rcases here with here | here <;> simp [here] at inside

/-- Nothing is lost by work on a table. -/
theorem Touches.sound {K : ℕ → Prop} (within : Touches t own v own' v') (before : Rootlike own t)
    (after : Rootlike own' t) (sound : Sound K own) : Sound K own' := by
  intro n
  refine ⟨⟨fun kernel => ?_, fun inside => ?_⟩, fun lost => ?_⟩
  · rw [← (sound n).1]
    exact (within.back (after.not_avail (.inl kernel))).1.trans kernel
  · have kernel := (sound n).1.mpr inside
    exact (within.keep (before.not_avail (.inl kernel))).1.trans kernel
  · exact (sound n).2 ((within.back (after.not_avail (.inr lost))).1.trans lost)

/-- What is known of the pages stays true under work for the process with number `p`. -/
structure Watched (p : ℕ) (W : (ℕ → Owner) → Vm → Prop) : Prop where
  touches : ∀ {t : ℕ} {own own' : ℕ → Owner} {v v' : Vm}, Touches t own v own' v' →
    own t = .free ∨ own t = .root p → own' t = .free ∨ own' t = .root p → W own v → W own' v'
  poke : ∀ {n : ℕ} {own : ℕ → Owner} {v v' : Vm}, own n = .trapframe p → Keeps v v' (· ≠ n) →
    W own v → W own v'

theorem watched_true (p : ℕ) : Watched p fun _ _ => True := ⟨fun _ _ _ _ => trivial, fun _ _ _ => trivial⟩

theorem watched_sound (p : ℕ) (c : Prop) (K : ℕ → Prop) : Watched p fun own _ => c → Sound K own where
  touches := fun within before after sound cond =>
    within.sound (before.imp_right fun root => ⟨p, root⟩) (after.imp_right fun root => ⟨p, root⟩) (sound cond)
  poke := fun _ _ sound => sound

/-- The owner is process `q`, its table `s` or the kernel. -/
def Owner.Belongs (q s : ℕ) (o : Owner) : Prop := o = .root q ∨ o = .trapframe q ∨ o.under s ∨ o = .kernel

/-- The pages of process `q` with table `s`, and those of the kernel, have kept their owners and what they
hold. -/
def Spares (q s : ℕ) (own : ℕ → Owner) (v : Vm) (own' : ℕ → Owner) (v' : Vm) : Prop :=
  ∀ n, (own n).Belongs q s → own' n = own n ∧ ∀ k < 512, v'.mem (512 * n + k) = v.mem (512 * n + k)

theorem Spares.refl {q s : ℕ} : Spares q s own v own v := fun _ _ => ⟨rfl, fun _ _ => rfl⟩

theorem Spares.trans {q s : ℕ} {own'' : ℕ → Owner} {v'' : Vm} (first : Spares q s own v own' v')
    (second : Spares q s own' v' own'' v'') : Spares q s own v own'' v'' := by
  intro n mine
  obtain ⟨same, kept⟩ := first n mine
  obtain ⟨same', kept'⟩ := second n (by rwa [same])
  exact ⟨same'.trans same, fun k inside => (kept' k inside).trans (kept k inside)⟩

/-- Page `s` is the root of the table of process `q`, or one of the kernel's. -/
def Anchor (own : ℕ → Owner) (q s : ℕ) : Prop := own s = .root q ∨ own s = .kernel

/-- The anchor is one of the pages. -/
theorem Spares.anchor {q s : ℕ} (spares : Spares q s own v own' v') (anchor : Anchor own q s) : Anchor own' q s := by
  rcases anchor with root | kernel
  · exact .inl ((spares s (.inl root)).1.trans root)
  · exact .inr ((spares s (.inr (.inr (.inr kernel)))).1.trans kernel)

theorem Spares.root {q s : ℕ} (spares : Spares q s own v own' v') (root : own s = .root q) :
    own' s = .root q := (spares s (.inl root)).1.trans root

theorem Touches.spares {p q s : ℕ} (within : Touches t own v own' v') (before : own t = .free ∨ own t = .root p)
    (other : q ≠ p) (anchor : Anchor own q s) : Spares q s own v own' v' := by
  have rootlike : Rootlike own t := before.imp_right fun root => ⟨p, root⟩
  have away : ∀ n, own n = .root q → n ≠ t := by
    rintro n here rfl
    rcases before with before | before <;> simp [before] at here
    exact other here.symm
  have apart : s ≠ t := by
    rcases anchor with root | kernel
    · exact away s root
    · rintro rfl
      rcases before with before | before <;> simp [before] at kernel
  intro n mine
  refine within.keep ?_
  rcases mine with here | here | here | here
  · exact not_avail_root (away n here) here
  · exact rootlike.not_trapframe here
  · exact not_avail_of_under apart rootlike.not_under here
  · exact rootlike.not_avail (.inl here)

/-- Nothing done for another process gets at the pages of process `q`. -/
theorem watched_spares {p q s : ℕ} {own₀ : ℕ → Owner} {v₀ : Vm} (other : q ≠ p) (anchor : Anchor own₀ q s) :
    Watched p (Spares q s own₀ v₀) where
  touches := fun within before _ kept => kept.trans (within.spares before other (kept.anchor anchor))
  poke := by
    intro n own v v' trap keeps kept
    refine kept.trans fun m mine => ⟨rfl, fun k inside => keeps.at ?_ inside⟩
    rintro rfl
    rcases mine with here | here | here | here
    · simp [trap] at here
    · simp [trap] at here
      exact other here.symm
    · simp [trap, Owner.under] at here
    · simp [trap] at here

/-- The pages of the processes other than `p` and of the kernel. -/
def SparesOthers (p : ℕ) (own : ℕ → Owner) (v : Vm) (own' : ℕ → Owner) (v' : Vm) : Prop :=
  ∀ q s : ℕ, q ≠ p → Anchor own q s → Spares q s own v own' v'

theorem watched_others (p : ℕ) (own₀ : ℕ → Owner) (v₀ : Vm) : Watched p (SparesOthers p own₀ v₀) where
  touches := fun within before after kept q s other anchor =>
    (watched_spares other anchor).touches within before after (kept q s other anchor)
  poke := fun trap keeps kept q s other anchor =>
    (watched_spares other anchor).poke trap keeps (kept q s other anchor)

/-- The extra pages may be listed in any way. -/
theorem Ledger.relist (ledger : Ledger L v procs own l extra)
    (root : ∀ n q, own n = .root q → extra n → extra' n)
    (trapframe : ∀ n q, own n = .trapframe q → extra n → extra' n) :
    Ledger L v procs own l extra' where
  pool := ledger.pool
  holds := ledger.holds
  root := fun n q here => (ledger.root n q here).imp_left (root n q here)
  trapframe := fun n q here => (ledger.trapframe n q here).imp_left (trapframe n q here)
  under := ledger.under
  settled := ledger.settled

/-- Free pages have nothing hanging under them. -/
theorem Ledger.bare (ledger : Ledger L v procs own l extra) (free : own t = .free) :
    Bare own t := by
  intro n
  refine ⟨fun inner => ?_, ledger.settled n t⟩
  obtain ⟨q, root⟩ := ledger.under n t inner
  simp [free] at root

/-- Writing into a page of a finished process that is no page-table page. -/
theorem Ledger.scribble (ledger : Ledger L v procs own l extra) (keeps : Keeps v v' (· ≠ n))
    (freelist : v'.freelist = v.freelist)
    (plain : (∃ q, own n = .trapframe q) ∨ ∃ t u, own n = .user t u) :
    Ledger L v' procs own l extra := by
  have used : own n ≠ .free ∧ (∀ q, own n ≠ .root q) ∧ (∀ s i, own n ≠ .l1 s i) ∧
      ∀ s i j, own n ≠ .l0 s i j := by
    rcases plain with ⟨q, here⟩ | ⟨t, u, here⟩ <;> simp [here]
  refine { ledger with pool := ?_, holds := ?_ }
  · refine ledger.pool.congr freelist (keeps.mono ?_)
    rintro m free rfl
    exact used.1 free
  · intro p live
    obtain ⟨t, f, table, frame, root, trap, tree, maps, whole⟩ := ledger.holds p live
    have tree' : Tree v'.mem own t := by
      refine tree.congr rfl (fun _ _ => Iff.rfl) (fun _ _ _ => Iff.rfl) ?_
      rintro m inner k inside
      refine keeps.at ?_ inside
      rintro rfl
      rcases inner with rfl | ⟨a, inner⟩
      · exact used.2.1 _ root
      · exact used.2.2.1 _ _ inner
    refine ⟨t, f, table, frame, root, trap, tree', maps.congr (fun _ _ => Iff.rfl) ?_, whole⟩
    intro u small
    refine tree.leaf_congr tree' ?_ (fun m a b bottom => .inl bottom) small
    intro m a b bottom
    refine ⟨bottom, fun k inside => keeps.at ?_ inside⟩
    rintro rfl
    exact used.2.2.2 _ _ _ bottom

/-- Taking a page for the trapframe of a process that is being built. -/
theorem Ledger.trapframe_kalloc (ledger : Ledger L v procs own l extra) (p : ℕ)
    {E : Stop → Prop} :
    Sat kalloc v E fun r s =>
      (r = 0 ∧ l = []) ∨ ∃ f rest own', r = PGSIZE * f ∧ 0 < f ∧ l = f :: rest ∧ own f = .free ∧
        own' = Function.update own f (.trapframe p) ∧
        Ledger L s procs own' rest (fun n => extra n ∨ n = f) ∧ ∀ q t, Spares q t own v own' s := by
  refine (kalloc_spec ledger.pool).mono ?_
  rintro r s (⟨rfl, rfl, -⟩ | ⟨f, rest, rfl, rfl, free, managed, keeps, pool⟩)
  · exact .inl ⟨rfl, rfl⟩
  have old : ∀ n o, o ≠ .free → o ≠ .trapframe p →
      (Function.update own f (.trapframe p) n = o ↔ own n = o) :=
    fun n o used away => reown_iff (by rw [free]; exact used.symm) away.symm
  have spares : ∀ q t, Spares q t own v (Function.update own f (.trapframe p)) s := by
    intro q t n mine
    have other : n ≠ f := by
      rintro rfl
      simp [Owner.Belongs, free, Owner.under] at mine
    exact ⟨Function.update_of_ne other _ _, fun k inside => keeps.at other inside⟩
  refine .inr ⟨f, rest, _, rfl, managed.pos, rfl, free, rfl, ⟨pool _ (by simp), ?_, ?_, ?_, ?_, ?_⟩, spares⟩
  · intro q live
    obtain ⟨t, g, table, frame, root, trap, tree, maps, whole⟩ := ledger.holds q live
    have away : ∀ m, own m ≠ .free → m ≠ f := by
      rintro m used rfl
      exact used free
    have tree' : Tree s.mem (Function.update own f (.trapframe p)) t := by
      refine tree.congr (Function.update_of_ne (away t (by simp [root])) _ _)
        (fun m a => old m _ (by simp) (by simp)) (fun m a b => old m _ (by simp) (by simp)) ?_
      rintro m inner k inside
      refine keeps.at (away m ?_) inside
      rcases inner with rfl | ⟨a, inner⟩
      · simp [root]
      · simp [inner]
    refine ⟨t, g, table, frame, ?_, ?_, tree',
      maps.congr (fun m u => old m _ (by simp) (by simp)) ?_, whole⟩
    · rw [Function.update_of_ne (away t (by simp [root])), root]
    · rw [Function.update_of_ne (away g (by simp [trap])), trap]
    · intro u small
      refine tree.leaf_congr tree' ?_ ?_ small
      · intro m a b bottom
        exact ⟨(old m _ (by simp) (by simp)).mpr bottom,
          fun k inside => keeps.at (away m (by simp [bottom])) inside⟩
      · intro m a b bottom
        exact .inl ((old m _ (by simp) (by simp)).mp bottom)
  · intro n q here
    exact (ledger.root n q ((old n _ (by simp) (by simp)).mp here)).imp_left .inl
  · intro n q here
    by_cases same : n = f
    · exact .inl (.inr same)
    · rw [Function.update_of_ne same] at here
      exact (ledger.trapframe n q here).imp_left .inl
  · intro n t inner
    by_cases same : n = f
    · subst same
      simp [Owner.under] at inner
    · rw [Function.update_of_ne same] at inner
      obtain ⟨q, root⟩ := ledger.under n t inner
      exact ⟨q, (old t _ (by simp) (by simp)).mpr root⟩
  · intro n t held
    exact ledger.settled n t ((old n _ (by simp) (by simp)).mp held)

/-- A process that has been built is entered. -/
theorem Ledger.adopt (proc : Proc) (ledger : Ledger L v procs own l (fun n => n = t ∨ n = f))
    (unused : (procs p).state = .unused) (holds : Holds L v own p proc)
    (table : proc.pagetable = PGSIZE * t) (frame : proc.trapframe = PGSIZE * f)
    (root : own t = .root p) (trap : own f = .trapframe p) (live : proc.state ≠ .unused) :
    Ledger L v (Function.update procs p proc) own l (fun _ => False) where
  pool := ledger.pool
  holds := by
    intro q used
    by_cases same : q = p
    · subst same
      simpa using holds
    · rw [Function.update_of_ne same] at used ⊢
      exact ledger.holds q used
  root := by
    intro n q here
    rcases ledger.root n q here with (rfl | rfl) | ⟨r, rfl, used, at_⟩
    · obtain rfl : (p : ℕ) = q := by simpa [root] using here
      exact .inr ⟨p, rfl, by simpa using live, by simpa using table⟩
    · simp [trap] at here
    · have other : r ≠ p := by
        rintro rfl
        exact used unused
      exact .inr ⟨r, rfl, by rwa [Function.update_of_ne other], by rwa [Function.update_of_ne other]⟩
  trapframe := by
    intro n q here
    rcases ledger.trapframe n q here with (rfl | rfl) | ⟨r, rfl, used, at_⟩
    · simp [root] at here
    · obtain rfl : (p : ℕ) = q := by simpa [trap] using here
      exact .inr ⟨p, rfl, by simpa using live, by simpa using frame⟩
    · have other : r ≠ p := by
        rintro rfl
        exact used unused
      exact .inr ⟨r, rfl, by rwa [Function.update_of_ne other], by rwa [Function.update_of_ne other]⟩
  under := ledger.under
  settled := ledger.settled

/-- A process is struck out; its pages stay listed as extra. -/
theorem Ledger.disown (proc : Proc) (ledger : Ledger L v procs own l (fun _ => False))
    (table : (procs p).pagetable = PGSIZE * t) (frame : (procs p).trapframe = PGSIZE * f)
    (unused : proc.state = .unused) :
    Ledger L v (Function.update procs p proc) own l (fun n => n = t ∨ n = f) where
  pool := ledger.pool
  holds := by
    intro q used
    by_cases same : q = p
    · subst same
      simp [unused] at used
    · rw [Function.update_of_ne same] at used ⊢
      exact ledger.holds q used
  root := by
    intro n q here
    rcases ledger.root n q here with bad | ⟨r, rfl, used, at_⟩
    · exact bad.elim
    · by_cases same : r = p
      · subst same
        exact .inl (.inl (PGSIZE_inj (at_.symm.trans table)))
      · exact .inr ⟨r, rfl, by rwa [Function.update_of_ne same], by rwa [Function.update_of_ne same]⟩
  trapframe := by
    intro n q here
    rcases ledger.trapframe n q here with bad | ⟨r, rfl, used, at_⟩
    · exact bad.elim
    · by_cases same : r = p
      · subst same
        exact .inl (.inr (PGSIZE_inj (at_.symm.trans frame)))
      · exact .inr ⟨r, rfl, by rwa [Function.update_of_ne same], by rwa [Function.update_of_ne same]⟩
  under := ledger.under
  settled := ledger.settled

/-- A finished process changes only in fields the ledger does not look at. -/
theorem Ledger.procs_congr {procs' : Fin NPROC → Proc} (ledger : Ledger L v procs own l extra)
    (state : ∀ p, (procs' p).state = .unused ↔ (procs p).state = .unused)
    (same : ∀ p, (procs p).state ≠ .unused → (procs' p).pagetable = (procs p).pagetable ∧
      (procs' p).trapframe = (procs p).trapframe ∧ (procs' p).sz = (procs p).sz) :
    Ledger L v procs' own l extra where
  pool := ledger.pool
  holds := by
    intro p live
    have used := (not_congr (state p)).mp live
    obtain ⟨table, frame, size⟩ := same p used
    unfold Holds
    rw [table, frame, size]
    exact ledger.holds p used
  root := by
    intro n q here
    rcases ledger.root n q here with old | ⟨p, rfl, used, at_⟩
    · exact .inl old
    · exact .inr ⟨p, rfl, (not_congr (state p)).mpr used, (same p used).1.trans at_⟩
  trapframe := by
    intro n q here
    rcases ledger.trapframe n q here with old | ⟨p, rfl, used, at_⟩
    · exact .inl old
    · exact .inr ⟨p, rfl, (not_congr (state p)).mpr used, (same p used).2.1.trans at_⟩
  under := ledger.under
  settled := ledger.settled

/-- Work on the extra table `t`. -/
theorem Ledger.work (extra : ℕ → Prop) {S : ℕ → Prop} {top : ℕ → ℕ}
    (ledger : Ledger L v procs own l (fun n => n = t ∨ extra n)) (tree : Tree v.mem own t)
    (apart : ∀ p, (procs p).state ≠ .unused → (procs p).pagetable ≠ PGSIZE * t)
    (space : Space L v' own' l' t S top) (settled : Settled own' t)
    (within : Within t own v own' v') : Ledger L v' procs own' l' (fun n => n = t ∨ extra n) := by
  refine (ledger.within within.touches space.pool (.inr tree.root) (.inr space.tree.root)
    (fun _ _ => space.tree.root) settled (.inr (.inl rfl)) apart).relist ?_ ?_
  · rintro n q - ((rfl | old) | rfl)
    · exact .inl rfl
    · exact .inr old
    · exact .inl rfl
  · rintro n q - ((rfl | old) | rfl)
    · exact .inl rfl
    · exact .inr old
    · exact .inl rfl

/-- A process moves to a table that has been built for it; the old one becomes extra. -/
theorem Ledger.swap (proc : Proc) {s : ℕ} (ledger : Ledger L v procs own l (fun n => n = t))
    (live : (procs p).state ≠ .unused) (same : proc.state = (procs p).state)
    (frame : proc.trapframe = (procs p).trapframe) (old : (procs p).pagetable = PGSIZE * s)
    (holds : Holds L v own p proc) (table : proc.pagetable = PGSIZE * t) (root : own t = .root p) :
    Ledger L v (Function.update procs p proc) own l (fun n => n = s) where
  pool := ledger.pool
  holds := by
    intro q used
    by_cases at_ : q = p
    · subst at_
      simpa using holds
    · rw [Function.update_of_ne at_] at used ⊢
      exact ledger.holds q used
  root := by
    intro n q here
    rcases ledger.root n q here with rfl | ⟨r, rfl, used, at_⟩
    · obtain rfl : (p : ℕ) = q := by simpa [root] using here
      exact .inr ⟨p, rfl, by simpa [same] using live, by simpa using table⟩
    · by_cases other : r = p
      · subst other
        exact .inl (PGSIZE_inj (at_.symm.trans old))
      · exact .inr ⟨r, rfl, by rwa [Function.update_of_ne other], by rwa [Function.update_of_ne other]⟩
  trapframe := by
    intro n q here
    rcases ledger.trapframe n q here with rfl | ⟨r, rfl, used, at_⟩
    · simp [root] at here
    · by_cases other : r = p
      · subst other
        exact .inr ⟨r, rfl, by simpa [same] using live, by simpa [frame] using at_⟩
      · exact .inr ⟨r, rfl, by rwa [Function.update_of_ne other], by rwa [Function.update_of_ne other]⟩
  under := ledger.under
  settled := ledger.settled

open scoped Classical in
/-- Everything that hangs under the root `t` is out of reach from now on. -/
noncomputable def abandon (own : ℕ → Owner) (t : ℕ) : ℕ → Owner :=
  fun n => if n = t ∨ (own n).under t then .lost else own n

/-- Giving the trapframe of a dismantled process back and forgetting its page table. -/
theorem Ledger.discard {q : ℕ} (ledger : Ledger L v procs own l (fun n => n = t ∨ n = f))
    (apart : ∀ p, (procs p).state ≠ .unused → (procs p).pagetable ≠ PGSIZE * t)
    (root : own t = .root q) (trap : own f = .trapframe q)
    (away : ∀ p, (procs p).state ≠ .unused → (procs p).trapframe ≠ PGSIZE * f)
    {E : Stop → Prop} :
    Sat (kfree L (PGSIZE * f)) v E fun _ s =>
      ∃ own', Ledger L s procs own' (f :: l) (fun _ => False) ∧
        ∀ r u, r ≠ q → Anchor own r u → Spares r u own v own' s := by
  classical
  refine (kfree_spec ledger.pool (ledger.pool.managed f (by simp [trap])) (by simp [trap])).mono ?_
  rintro _ s ⟨keeps, pool⟩
  have differ : f ≠ t := by
    rintro rfl
    simp [root] at trap
  have old : ∀ n o, o ≠ .free → o ≠ .trapframe q →
      (Function.update own f .free n = o ↔ own n = o) :=
    fun n o used other => reown_iff (by rw [trap]; exact other.symm) used.symm
  have gone : ∀ n, (Function.update own f .free n).under t ↔ (own n).under t := by
    intro n
    by_cases here : n = f
    · subst here
      simp [trap, Owner.under]
    · rw [Function.update_of_ne here]
  -- owners that do not name `t` keep their pages
  have kept : ∀ n o, o ≠ .lost → o ≠ .free → o ≠ .trapframe q → ¬ o.under t →
      (abandon (Function.update own f .free) t n = o ↔ own n = o ∧ n ≠ t) := by
    intro n o real used other outside
    unfold abandon
    by_cases inside : n = t ∨ (Function.update own f .free n).under t
    · rw [if_pos inside]
      refine ⟨fun lost => absurd lost.symm real, ?_⟩
      rintro ⟨rfl, apart⟩
      rcases inside with same | under
      · exact absurd same apart
      · exact absurd ((gone n).mp under) outside
    · rw [if_neg inside, old n o used other]
      exact ⟨fun here => ⟨here, fun same => inside (.inl same)⟩, And.left⟩
  have spares : ∀ r u, r ≠ q → Anchor own r u →
      Spares r u own v (abandon (Function.update own f .free) t) s := by
    intro r u other anchor n mine
    have notTable : n ≠ t ∧ u ≠ t := by
      constructor
      · rintro rfl
        simp [Owner.Belongs, root, Owner.under] at mine
        exact other mine.symm
      · rintro rfl
        simp [Anchor, root] at anchor
        exact other anchor.symm
    have notFrame : n ≠ f := by
      rintro rfl
      simp [Owner.Belongs, trap, Owner.under] at mine
      exact other mine.symm
    refine ⟨?_, fun k inside => keeps.at notFrame inside⟩
    unfold abandon
    rw [Function.update_of_ne notFrame, if_neg]
    rintro (same | under)
    · exact notTable.1 same
    · rcases mine with here | here | here | here
      · simp [here, Owner.under] at under
      · simp [here, Owner.under] at under
      · cases tag : own n <;> simp_all [Owner.under]
      · simp [here, Owner.under] at under
  refine ⟨abandon (Function.update own f .free) t, ⟨pool.relabel ?_ ?_, ?_, ?_, ?_, ?_, ?_⟩, spares⟩
  · intro n
    unfold abandon
    by_cases inside : n = t ∨ (Function.update own f .free n).under t
    · rw [if_pos inside]
      simp only [reduceCtorEq, false_iff]
      intro free
      rcases inside with rfl | under
      · rw [Function.update_of_ne (Ne.symm differ), root] at free
        simp at free
      · simp [free, Owner.under] at under
    · rw [if_neg inside]
  · intro n busy kernel
    refine busy ?_
    unfold abandon
    rw [if_neg, kernel]
    rintro (rfl | under)
    · rw [Function.update_of_ne (Ne.symm differ), root] at kernel
      simp at kernel
    · simp [kernel, Owner.under] at under
  · intro p live
    obtain ⟨s', g, table, frame, root', trap', tree, maps, whole⟩ := ledger.holds p live
    have other : s' ≠ t := by
      rintro rfl
      exact apart p live table
    have other' : g ≠ f := by
      rintro rfl
      exact away p live frame
    have l1 : ∀ n a, abandon (Function.update own f .free) t n = .l1 s' a ↔ own n = .l1 s' a := by
      intro n a
      rw [kept n _ (by simp) (by simp) (by simp) (by simpa [Owner.under] using other)]
      refine ⟨And.left, fun here => ⟨here, ?_⟩⟩
      rintro rfl
      simp [root] at here
    have l0 : ∀ n a b, abandon (Function.update own f .free) t n = .l0 s' a b ↔
        own n = .l0 s' a b := by
      intro n a b
      rw [kept n _ (by simp) (by simp) (by simp) (by simpa [Owner.under] using other)]
      refine ⟨And.left, fun here => ⟨here, ?_⟩⟩
      rintro rfl
      simp [root] at here
    have users : ∀ n u, abandon (Function.update own f .free) t n = .user s' u ↔
        own n = .user s' u := by
      intro n u
      rw [kept n _ (by simp) (by simp) (by simp) (by simpa [Owner.under] using other)]
      refine ⟨And.left, fun here => ⟨here, ?_⟩⟩
      rintro rfl
      simp [root] at here
    have rootKept : abandon (Function.update own f .free) t s' = .root p :=
      (kept s' _ (by simp) (by simp) (by simp) (by simp [Owner.under])).mpr ⟨root', other⟩
    have tree' : Tree s.mem (abandon (Function.update own f .free) t) s' := by
      refine tree.congr (rootKept.trans root'.symm) l1 l0 ?_
      rintro m inner k inside
      refine keeps.at ?_ inside
      rintro rfl
      rcases inner with rfl | ⟨a, inner⟩
      · simp [root'] at trap
      · simp [inner] at trap
    refine ⟨s', g, table, frame, rootKept, ?_, tree', maps.congr users ?_, whole⟩
    · unfold abandon
      rw [Function.update_of_ne other', if_neg, trap']
      rintro (rfl | under)
      · simp [root] at trap'
      · simp [trap', Owner.under] at under
    · intro u small
      refine tree.leaf_congr tree' ?_ (fun m a b bottom => .inl ((l0 m a b).mp bottom)) small
      intro m a b bottom
      refine ⟨(l0 m a b).mpr bottom, fun k inside => keeps.at ?_ inside⟩
      rintro rfl
      simp [bottom] at trap
  · intro n r here
    obtain ⟨owner, other⟩ := (kept n _ (by simp) (by simp) (by simp) (by simp [Owner.under])).mp here
    rcases ledger.root n r owner with (rfl | rfl) | live
    · exact absurd rfl other
    · simp [trap] at owner
    · exact .inr live
  · intro n r here
    have back : own n = .trapframe r ∧ n ≠ f := by
      unfold abandon at here
      split at here
      · simp at here
      · by_cases same : n = f
        · subst same
          simp at here
        · rw [Function.update_of_ne same] at here
          exact ⟨here, same⟩
    rcases ledger.trapframe n r back.1 with (rfl | rfl) | live
    · exact absurd (root.symm.trans back.1) (by simp)
    · exact absurd rfl back.2
    · exact .inr live
  · intro n s' under
    have inner : (own n).under s' ∧ s' ≠ t := by
      unfold abandon at under
      split at under
      · simp [Owner.under] at under
      · rename_i outside
        obtain ⟨-, notUnder'⟩ := not_or.mp outside
        by_cases same : n = f
        · subst same
          simp [Owner.under] at under
        · rw [Function.update_of_ne same] at under notUnder'
          refine ⟨under, ?_⟩
          rintro rfl
          exact notUnder' under
    obtain ⟨r, root'⟩ := ledger.under n s' inner.1
    exact ⟨r, (kept s' _ (by simp) (by simp) (by simp) (by simp [Owner.under])).mpr ⟨root', inner.2⟩⟩
  · intro n s' held
    have here := (kept n _ (by simp) (by simp) (by simp) (by simp [Owner.under])).mp held
    exact ledger.settled n s' here.1

end HaloOS
