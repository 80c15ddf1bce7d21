import HaloOS.Kernel.Isolation
import HaloOS.Kernel.OpenFiles
import HaloOS.Vm.Agreement

/-! `fork` in runs of the machine. The child it makes has the parent's registers, memory, open files and
directory, in pages of its own. That its descriptors are the parent's rests on the free slots of the
process table having none, which is kept by whatever processes do. -/

namespace HaloOS

open Lib

variable {L : Layout} {own own' : ℕ → Owner} {l : List ℕ} {k k' k₀ : Kernel} {p q now np : Fin NPROC} {v v' : Vm}
  {s t f u a : ℕ} {S : ℕ → Prop}

section Descriptors

/-! ### Open files in runs of the machine -/

/-- References and descriptors are as they were; offsets may have moved. -/
structure SameSlots (k k' : Kernel) : Prop where
  ref : ∀ f, (k'.files f).ref = (k.files f).ref
  type : ∀ f, (k'.files f).type = (k.files f).type
  procs : k'.procs = k.procs

instance : Std.Refl SameSlots where
  refl := fun _ => ⟨fun _ => rfl, fun _ => rfl, rfl⟩

instance : IsTrans Kernel SameSlots where
  trans := fun _ _ _ first second => ⟨fun f => (second.ref f).trans (first.ref f),
    fun f => (second.type f).trans (first.type f), second.procs.trans first.procs⟩

theorem Counted.sameSlots {owed : Fin NFILE → ℤ} (counted : Counted k owed) (same : SameSlots k k') : Counted k' owed where
  ref := fun f => by
    rw [same.ref, counted.ref]
    unfold Kernel.slots
    rw [same.procs]
  idle := fun f => by
    rw [same.ref, same.type]
    exact counted.idle f
  closed := by rw [same.procs]; exact counted.closed
  beyond := by rw [same.procs]; exact counted.beyond

theorem sameSlots_of_eq (files : k'.files = k.files) (procs : k'.procs = k.procs) : SameSlots k k' :=
  ⟨fun f => by rw [files], fun f => by rw [files], procs⟩

theorem mio_sameSlots {α : Type} (m : Mio α) : Frames SameSlots (mio m) :=
  .zoom (.ofOk fun _ _ _ _ => trivial : Frames (fun _ _ => True) m) fun _ _ _ => sameSlots_of_eq rfl rfl

theorem fio_sameSlots {α : Type} (m : Fio α) : Frames SameSlots (fio m) :=
  .zoom (.ofOk fun _ _ _ _ => trivial : Frames (fun _ _ => True) m) fun _ _ _ => sameSlots_of_eq rfl rfl

theorem consoleread_sameSlots (p : Fin NPROC) (target n dst : ℕ) :
    Frames SameSlots (consolereadLoop p target n dst) := by
  have ring : ∀ g : Kernel → Console, Frames SameSlots (update fun k => { k with cons := g k } : Kio Unit) :=
    fun g => .update fun k => sameSlots_of_eq rfl rfl
  induction n generalizing dst with
  | zero => exact .pure _
  | succ n ih =>
    unfold consolereadLoop
    refine .bind (.gets _) fun k => .ite (.throw _) (.bind (ring _) fun _ => .ite ?_ ?_)
    · exact .bind (.onlyIf (ring _)) fun _ => .pure _
    · exact .bind (mio_sameSlots _) fun copied => .ite (.pure _) (.ite (.pure _) (ih _))

theorem fileread_sameSlots (p : Fin NPROC) (f : Fin NFILE) (addr n : ℕ) : Frames SameSlots (fileread p f addr n) := by
  unfold fileread
  refine .bind (.gets _) fun file => .ite (.pure _) (.ite (.ite ?_ (.pure _)) (.ite ?_ (.pure _)))
  · exact .bind (consoleread_sameSlots p _ _ _) fun _ => .pure _
  · refine .bind (.gets _) fun proc => .bind (fio_sameSlots _) fun _ => ?_
    split
    · exact .throw _
    · refine .bind (readi_frames _ (fun _ => fio_sameSlots _) (fun _ _ => mio_sameSlots _) _ _ _) fun read => ?_
      refine .bind (.onlyIf (.update fun k => ?_)) fun _ => .bind (fio_sameSlots _) fun _ => .pure _
      refine ⟨fun g => ?_, fun g => ?_, rfl⟩ <;>
      · by_cases here : g = f
        · subst here
          simp [Kernel.setFile]
        · simp [Kernel.setFile, Function.update_of_ne here]

theorem filestat_sameSlots (p : Fin NPROC) (f : Fin NFILE) (addr : ℕ) : Frames SameSlots (filestat p f addr) := by
  unfold filestat
  refine .bind (.gets _) fun file => .ite ?_ (.pure _)
  refine .bind (.gets _) fun proc => .bind (fio_sameSlots _) fun _ => ?_
  split
  · exact .throw _
  · exact .bind (fio_sameSlots _) fun ip => .bind (fio_sameSlots _) fun _ => .bind (mio_sameSlots _) fun _ => .pure _

theorem argfd_sameSlots (p : Fin NPROC) (fd : ℕ) : Frames SameSlots (argfd p fd) := .bind (.gets _) fun _ => .pure _

theorem sysRead_sameSlots (p : Fin NPROC) (fd addr n : ℕ) : Frames SameSlots (sysRead p fd addr n) := by
  unfold sysRead
  refine .bind (argfd_sameSlots p fd) fun found => ?_
  split
  · exact .throw _
  · exact fileread_sameSlots _ _ _ _

theorem sysFstat_sameSlots (p : Fin NPROC) (fd addr : ℕ) : Frames SameSlots (sysFstat p fd addr) := by
  unfold sysFstat
  refine .bind (argfd_sameSlots p fd) fun found => ?_
  split
  · exact .pure _
  · exact filestat_sameSlots _ _ _

theorem sysWrite_sameSlots (p : Fin NPROC) (fd addr n : ℕ) : Frames SameSlots (sysWrite p fd addr n) := by
  unfold sysWrite
  refine .bind (argfd_sameSlots p fd) fun found => ?_
  split
  · exact .pure _
  · unfold filewrite
    refine .bind (.gets _) fun file => .ite (.pure _) ?_
    split
    · exact .pure _
    · exact .ite (.bind (.gets _) fun proc => .bind (mio_sameSlots _) fun _ => .pure _) (.pure _)
    · exact .pure _
    · exact .throw _

theorem sysMknod_sameSlots (p : Fin NPROC) (path : List Byte) (major minor : ℕ) :
    Frames SameSlots (sysMknod p path major minor) := by
  unfold sysMknod
  exact .bind (.gets _) fun proc => .bind (fio_sameSlots _) fun _ => .bind (fio_sameSlots _) fun _ => .pure _

theorem setTrapword_sameSlots (p : Fin NPROC) (off x : ℕ) : Frames SameSlots (setTrapword p off x) :=
  .bind (.gets _) fun _ => mio_sameSlots _

theorem SameSlots.keeps {α : Type} {m : Kio α} (frame : Frames SameSlots m) (counted : Counted k fun _ => 0) :
    Sat m k anyStop fun _ k' => Counted k' fun _ => 0 :=
  (frame k).mono fun _ _ same => counted.sameSlots same

/-- Every entry of the table but that of `sbrk`. -/
theorem Counted.call {num : ℕ} {call : Kio ℤ} (counted : Counted k fun _ => 0)
    (ready : (k.procs p).state.Ready) (found : syscalls L p num = some call) (other : num ≠ SYS_SBRK) :
    Sat call k anyStop fun _ k' => Counted k' fun _ => 0 := by
  have alive := ready.not_dead
  unfold syscalls at found
  obtain ⟨-, rfl⟩ | ⟨-, found⟩ := entry_cases found
  · refine sat_reads (argint_reads _ _) fun fd => sat_reads (argint_reads _ _) fun n => ?_
    exact sat_reads (argraw_reads _ _) fun addr => SameSlots.keeps (sysWrite_sameSlots p fd addr n) counted
  obtain ⟨-, rfl⟩ | ⟨-, found⟩ := entry_cases found
  · refine sat_reads (argstr_reads _ _ _) fun name => ?_
    exact (exec_untouched p name [] k).mono fun _ _ same => counted.congr same
  obtain ⟨-, rfl⟩ | ⟨-, found⟩ := entry_cases found
  · exact sat_reads (argint_reads _ _) fun fd => counted.sysDup alive
  obtain ⟨-, rfl⟩ | ⟨-, found⟩ := entry_cases found
  · refine sat_reads (argstr_reads _ _ _) fun path => sat_reads (argint_reads _ _) fun model => ?_
    exact counted.sysOpen alive path model
  obtain ⟨-, rfl⟩ | ⟨-, found⟩ := entry_cases found
  · exact sat_reads (argraw_reads _ _) fun addr => counted.wait addr
  obtain ⟨-, rfl⟩ | ⟨-, found⟩ := entry_cases found
  · refine sat_reads (argstr_reads _ _ _) fun path => sat_reads (argint_reads _ _) fun major => ?_
    exact sat_reads (argint_reads _ _) fun minor => SameSlots.keeps (sysMknod_sameSlots p path major minor) counted
  obtain ⟨-, rfl⟩ | ⟨-, found⟩ := entry_cases found
  · exact counted.fork alive
  obtain ⟨-, rfl⟩ | ⟨-, found⟩ := entry_cases found
  · refine sat_reads (argint_reads _ _) fun fd => sat_reads (argint_reads _ _) fun n => ?_
    exact sat_reads (argraw_reads _ _) fun addr => SameSlots.keeps (sysRead_sameSlots p fd addr n) counted
  obtain ⟨-, rfl⟩ | ⟨-, found⟩ := entry_cases found
  · exact sat_reads (argint_reads _ _) fun status => counted.exit status
  obtain ⟨bad, -⟩ | ⟨-, found⟩ := entry_cases found
  · exact absurd bad other
  obtain ⟨-, rfl⟩ | ⟨-, found⟩ := entry_cases found
  · refine sat_reads (argint_reads _ _) fun fd => sat_reads (argraw_reads _ _) fun st => ?_
    exact SameSlots.keeps (sysFstat_sameSlots p fd st) counted
  obtain ⟨-, rfl⟩ | ⟨-, found⟩ := entry_cases found
  · exact sat_reads (argint_reads _ _) fun fd => counted.sysClose
  · cases found

theorem Counted.usertrapEcall (counted : Counted k fun _ => 0) (ready : (k.procs p).state.Ready)
    (other : k.vm.load ((k.procs p).trapframe + A7) % UINT ≠ SYS_SBRK) :
    Sat (usertrapEcall L p) k anyStop fun _ k' => Counted k' fun _ => 0 := by
  refine Sat.bind (Sat.gets (Q := fun _ s => k = s) rfl) ?_
  rintro proc _ rfl
  refine Sat.ite (fun _ => ?_) fun _ => sat_reads (trapword_reads p EPC) fun epc => ?_
  · exact Sat.bind (counted.exit _) fun _ _ counted₁ => Sat.pure counted₁
  refine Sat.bind (setTrapword_epc p _ k) ?_
  rintro _ k₁ ⟨procs, files, apart⟩
  have counted₁ : Counted k₁ fun _ => 0 := counted.sameSlots (sameSlots_of_eq files procs)
  refine Sat.bind (Sat.gets (Q := fun a s => a % UINT ≠ SYS_SBRK ∧ k₁ = s) ⟨by rwa [procs, apart], rfl⟩) ?_
  rintro a7 _ ⟨other, rfl⟩
  split
  · rename_i call found
    refine Sat.bind (counted₁.call (by rwa [procs]) found other) fun r k₂ counted₂ => ?_
    exact SameSlots.keeps (.onlyIf (setTrapword_sameSlots _ _ _)) counted₂
  · exact SameSlots.keeps (setTrapword_sameSlots _ _ _) counted₁

/-- Open files are counted right after whatever happens. -/
theorem Does.counted {d : Deed} (step : Does L k d k') (counted : Counted k fun _ => 0) :
    Counted k' fun _ => 0 := by
  obtain ⟨ran, plain⟩ := step
  have quiet : Frames SameSlots (d.run L) → Counted k' fun _ => 0 := fun frame => counted.sameSlots (frame.ok ran)
  have acts : ∀ p, Frames SameSlots (acting p) := fun p => .bind (.gets _) fun _ => .bind (.stopIf _) fun _ => .pure _
  cases d with
  | userinit =>
    obtain ⟨r, k₁, first, last⟩ := bind_ok.mp ran
    obtain ⟨-, rfl⟩ := pure_ok.mp last
    exact counted.userinit.ok first
  | store p a b =>
    refine quiet (.bind (acts p) fun proc => .bind (.gets _) fun v => ?_)
    split
    · exact mio_sameSlots _
    · exact .throw _
  | trap p frame => exact quiet (.bind (acts p) fun proc => mio_sameSlots _)
  | ecall p =>
    refine Sat.ok (E := anyStop) (Q := fun _ k' => Counted k' fun _ => 0) (sat_acting fun ready => ?_) ran
    exact counted.usertrapEcall ready plain
  | sched p state =>
    refine Sat.ok (E := anyStop) (Q := fun _ k' => Counted k' fun _ => 0) (sat_acting fun ready => ?_) ran
    refine Sat.bind (Sat.stopIf (Q := fun _ s => k = s ∧ state.Ready) (fun _ => trivial)
      fun next => ⟨rfl, not_not.mp next⟩) ?_
    rintro _ _ ⟨rfl, next⟩
    exact Sat.update (counted.congr (untouched_setProc rfl fun dead => absurd dead next.not_dead))
  | key c => exact quiet (.update fun k => sameSlots_of_eq rfl rfl)

end Descriptors

section Memory

/-! ### What the child sees -/

theorem Space.userAt_outside (space : Space L v own l t S (topLeaves L f)) (small : a < 2 ^ 39)
    (outside : ¬ S (a / PGSIZE)) : userAt v (PGSIZE * t) a = none := by
  have low : a / PGSIZE < 2 ^ 27 := by
    simp only [PGSIZE]
    omega
  unfold userAt translate
  rw [space.sv39_other low outside]
  by_cases blank : topLeaves L f (a / PGSIZE) = 0
  · simp only [if_pos blank, Option.map_none]
  · simp only [if_neg blank, if_neg (not_not.mpr (topLeaves_closed L f _)), Option.map_none]

/-- The byte is read through an entry that is open to the user. -/
theorem userAt_lookup {pte : ℕ} (tree : Tree v.mem own t) (pool : Pool L v own l)
    (low : a < MAXVA) (found : lookup v (PGSIZE * t) a = some pte) :
    userAt v (PGSIZE * t) a = if PTE_FLAGS pte &&& PTE_U ≠ 0 then userLoad v (PGSIZE * t) a else none := by
  have table := tree.table pool
  have entry : sv39 v.mem (a / PGSIZE) 2 (PGSIZE * t) = some (0, pte) := by
    rw [sv39_value table.tree, ← table.lookup low, found]
    rfl
  have bit : pte &&& PTE_U = PTE_FLAGS pte &&& PTE_U := by
    have split : pte = pte / 1024 * 1024 + PTE_FLAGS pte := by
      unfold PTE_FLAGS
      omega
    conv_lhs => rw [split]
    exact entry_and _ (by decide)
  unfold userAt translate userLoad
  simp only [entry, found, bit, Option.map_some]
  split
  · rfl
  · rfl

/-- After `uvmcopy` the child's user memory is the parent's. -/
theorem Space.uvmcopy_userAt {sz : ℕ} {own' : ℕ → Owner} {l' : List ℕ}
    (space : Space L v own l t (fun _ => False) (topLeaves L f)) (source : Space L v own l s (· < pages sz) (topLeaves L u))
    (other : s ≠ t) (returned : HaloOS.uvmcopy L (PGSIZE * s) (PGSIZE * t) sz v = .ok (true, v'))
    (space' : Space L v' own' l' t (· < pages sz) (topLeaves L f)) (small : a < 2 ^ 39) :
    HaloOS.userAt v' (PGSIZE * t) a = HaloOS.userAt v (PGSIZE * s) a := by
  by_cases below : a / PGSIZE < pages sz
  · have low : a < MAXVA := by
      have bound := source.maps.bound _ below
      simp only [PGSIZE, TRAPFRAMEPG, MAXVA] at *
      omega
    obtain ⟨pte, pte', found, found', flags, bytes⟩ :=
      (space.uvmcopy_same (E := anyStop) (topLeaves_topOnly L f) ⟨source.tree, _, source.maps⟩ other).ok returned rfl a below
    rw [userAt_lookup space'.tree space'.pool low found', userAt_lookup source.tree source.pool low found, flags, bytes]
  · rw [space'.userAt_outside small below, source.userAt_outside small below]

end Memory

section Fork

/-! ### The child -/

/-- The loop over the open files takes those of the parent. -/
theorem dupFiles_copies (differ : now ≠ np) (count i : ℕ) (k : Kernel) :
    Sat (dupFiles now np count i) k anyStop fun _ k' => k'.vm = k.vm ∧ ∃ openfs,
      k'.procs = Function.update k.procs np { k.procs np with openfs } ∧
      ∀ fd, openfs fd = if i ≤ fd ∧ fd < i + count then ((k.procs now).openfs fd).or ((k.procs np).openfs fd)
        else (k.procs np).openfs fd := by
  induction count generalizing i k with
  | zero =>
    refine Sat.pure ⟨rfl, _, (Function.update_eq_self _ _).symm, fun fd => ?_⟩
    rw [if_neg (by omega)]
  | succ count ih =>
    unfold dupFiles
    refine Sat.bind (Sat.gets (Q := fun a s => k.procs now = a ∧ k = s) ⟨rfl, rfl⟩) ?_
    rintro _ _ ⟨rfl, rfl⟩
    dsimp only
    split
    · rename_i file named
      refine Sat.bind (Q := fun a s => file = a ∧ s.vm = k.vm ∧ s.procs = k.procs) ?_ ?_
      · unfold filedup
        refine Sat.bind (Sat.gets (Q := fun _ s => k = s) rfl) ?_
        rintro old _ rfl
        refine Sat.bind (Sat.stopIf (Q := fun _ s => k = s) (fun _ => trivial) fun _ => rfl) ?_
        rintro _ _ rfl
        exact Sat.bind (Sat.update (Q := fun _ s => s.vm = k.vm ∧ s.procs = k.procs) ⟨rfl, rfl⟩)
          fun _ _ same => Sat.pure ⟨rfl, same⟩
      rintro _ k₁ ⟨rfl, vm₁, procs₁⟩
      refine Sat.bind (Sat.update (Q := fun _ s => s.vm = k.vm ∧ s.procs = Function.update k.procs np
        { k.procs np with openfs := Function.update (k.procs np).openfs i (some file) }) ?_) ?_
      · exact ⟨vm₁, by rw [setProc_procs, procs₁]⟩
      rintro _ k₂ ⟨vm₂, procs₂⟩
      refine (ih (i + 1) k₂).mono ?_
      rintro _ k₃ ⟨vm₃, openfs, procs₃, taken⟩
      refine ⟨vm₃.trans vm₂, openfs, ?_, fun fd => ?_⟩
      · rw [procs₃, procs₂, Function.update_self, Function.update_idem]
      · have old : (k₂.procs np).openfs = Function.update (k.procs np).openfs i (some file) := by
          rw [procs₂, Function.update_self]
        have parent : k₂.procs now = k.procs now := by rw [procs₂, Function.update_of_ne differ]
        rw [taken, old, parent]
        by_cases here : fd = i
        · subst here
          rw [if_neg (by omega), if_pos (by omega), Function.update_self, named, Option.some_or]
        · rw [Function.update_of_ne here]
          exact if_congr (by omega) rfl rfl
    · rename_i named
      refine Sat.bind (Sat.pure (Q := fun j s => i + 1 = j ∧ k = s) ⟨rfl, rfl⟩) ?_
      rintro _ _ ⟨rfl, rfl⟩
      refine (ih (i + 1) k).mono ?_
      rintro _ k₃ ⟨vm₃, openfs, procs₃, taken⟩
      refine ⟨vm₃, openfs, procs₃, fun fd => ?_⟩
      rw [taken]
      by_cases here : fd = i
      · subst here
        rw [if_neg (by omega), if_pos (by omega), named, Option.none_or]
      · exact if_congr (by omega) rfl rfl

/-- Process `np` is a copy of `now`. -/
structure Clone (k : Kernel) (now : Fin NPROC) (k' : Kernel) (np : Fin NPROC) : Prop where
  state : (k'.procs np).state = .runnable
  pid : (k'.procs np).pid = k.nextPid
  parent : (k'.procs np).parent = some now
  sz : (k'.procs np).sz = (k.procs now).sz
  files : (k'.procs np).openfs = (k.procs now).openfs
  pwd : (k'.procs np).pwd = (k.procs now).pwd
  a0 : k'.vm.load ((k'.procs np).trapframe + A0) = 0
  frame : ∀ i < 36, 8 * i ≠ A0 →
    k'.vm.load ((k'.procs np).trapframe + 8 * i) = k.vm.load ((k.procs now).trapframe + 8 * i)
  memory : ∀ a < 2 ^ 39, userAt k'.vm (k'.procs np).pagetable a = userAt k.vm (k.procs now).pagetable a

/-- What the child's pages hold after `uvmcopy`, and what the parent's trapframe still holds. -/
theorem Allocated.copied {k₁ k₂ : Kernel} {own₁ own₂ : ℕ → Owner} {l₁ l₂ : List ℕ} {g : ℕ} (books : Books L k own l)
    (allocated : Allocated L k own l k₁ np t f own₁ l₁) (ready : (k.procs now).state.Ready)
    (table : (k.procs now).pagetable = PGSIZE * s) (frame : (k.procs now).trapframe = PGSIZE * g)
    (ran : uvmcopy L (PGSIZE * s) (PGSIZE * t) (k.procs now).sz k₁.vm = .ok (true, k₂.vm))
    (within : Within t own₁ k₁.vm own₂ k₂.vm)
    (space₂ : Space L k₂.vm own₂ l₂ t (· < pages (k.procs now).sz) (topLeaves L f)) :
    (∀ a < 2 ^ 39, userAt k₂.vm (PGSIZE * t) a = userAt k.vm (PGSIZE * s) a) ∧
      (∀ i < 512, k₂.vm.mem (512 * g + i) = k.vm.mem (512 * g + i)) ∧ own₂ f = .trapframe np := by
  have live := ready.ne_unused
  have differ : (now : ℕ) ≠ np := fun same => live (Fin.ext same ▸ allocated.unused)
  obtain ⟨s', g', table', frame', root, trap, space₀⟩ := books.space live
  obtain rfl : s = s' := PGSIZE_inj (table.symm.trans table')
  obtain rfl : g = g' := PGSIZE_inj (frame.symm.trans frame')
  have spares₁ := allocated.spares now s differ (.inl root)
  have spares₂ := spares₁.trans (within.touches.spares (.inr allocated.root) differ (.inl (spares₁.root root)))
  obtain ⟨s', g', table', frame', -, -, tree₁, maps₁, -⟩ := allocated.ledger.holds now live
  obtain rfl : s = s' := PGSIZE_inj (table.symm.trans table')
  obtain rfl : g = g' := PGSIZE_inj (frame.symm.trans frame')
  have source : Space L k₁.vm own₁ l₁ s (· < pages (k.procs now).sz) (topLeaves L g) :=
    ⟨allocated.space.pool, tree₁, maps₁⟩
  have other : s ≠ t := by
    rintro rfl
    exact allocated.apart now live table
  refine ⟨fun a small => ?_, (spares₂ g (.inr (.inl trap))).2, ?_⟩
  · rw [allocated.space.uvmcopy_userAt source other ran space₂ small]
    refine space₀.userAt_kept tree₁ source.pool ?_ small
    rintro n (rfl | inner)
    · exact spares₁ n (.inl root)
    · exact spares₁ n (.inr (.inr (.inl inner)))
  · exact (within.touches.keep (Rootlike.not_trapframe (.inr ⟨np, allocated.root⟩) allocated.trap)).1.trans
      allocated.trap

/-- The trapframe of the child: that of the parent with 0 in `a0`. -/
theorem load_copyTrapframe (v : Vm) (f g : ℕ) {i : ℕ} (small : i < 36) :
    ((copyTrapframe (PGSIZE * f) (PGSIZE * g) v).store (PGSIZE * f + A0) 0).load (PGSIZE * f + 8 * i) =
      if 8 * i = A0 then 0 else v.mem (512 * g + i) := by
  have word : (PGSIZE * f + 8 * i) / 8 = 512 * f + i := by
    simp only [PGSIZE]
    omega
  have slot : (PGSIZE * f + A0) / 8 = 512 * f + 14 := by
    simp only [PGSIZE, A0]
    omega
  have inside : PGSIZE * f / 8 ≤ 512 * f + i ∧ 512 * f + i < PGSIZE * f / 8 + 36 := by
    simp only [PGSIZE]
    omega
  have source : PGSIZE * g / 8 + (512 * f + i - PGSIZE * f / 8) = 512 * g + i := by
    simp only [PGSIZE]
    omega
  unfold Vm.load Vm.store copyTrapframe
  rw [word, slot]
  dsimp only
  by_cases here : i = 14
  · subst here
    rw [Function.update_self]
    rfl
  · have other : ¬ 8 * i = A0 := by
      unfold A0
      omega
    rw [Function.update_of_ne (by omega), if_pos inside, source, if_neg other]

theorem fork_copies (books : Books L k own l) (counted : Counted k fun _ => 0) (ready : (k.procs now).state.Ready) :
    Sat (fork L now) k anyStop fun r k' =>
      r = -1 ∨ ∃ np, (k.procs np).state = .unused ∧ r = k.nextPid ∧ Clone k now k' np := by
  unfold fork
  refine Sat.bind ((allocproc_spec books).weaken fun _ _ => trivial) ?_
  rintro r k₁ (⟨rfl, -, -⟩ | ⟨np, t, f, own₁, l₁, rfl, allocated⟩)
  · exact Sat.pure (.inl rfl)
  have live := ready.ne_unused
  have differ : now ≠ np := by
    rintro rfl
    exact live allocated.unused
  refine Sat.bind (Sat.gets (Q := fun a s => a = k.procs now ∧ k₁ = s)
    ⟨by rw [allocated.procs, Function.update_of_ne differ], rfl⟩) ?_
  rintro _ _ ⟨rfl, rfl⟩
  refine Sat.bind (Sat.gets (Q := fun a s => a = (k.procs np).seat k.nextPid f t ∧ k₁ = s)
    ⟨by rw [allocated.procs, Function.update_self], rfl⟩) ?_
  rintro _ _ ⟨rfl, rfl⟩
  obtain ⟨s, g, table, frame, -, -, tree₁, maps₁, -⟩ := allocated.ledger.holds now live
  have other : s ≠ t := by
    rintro rfl
    exact allocated.apart now live table
  have copy := allocated.space.uvmcopy (E := anyStop) (k.procs now).sz (fun n => allocated.ledger.settled n t)
    (topLeaves_topOnly L f) ⟨tree₁, _, maps₁⟩ other
  rw [table, show ((k.procs np).seat k.nextPid f t).pagetable = PGSIZE * t from rfl]
  refine Sat.bind (sat_mio copy.andRun) ?_
  rintro copied k₂ ⟨⟨ran, own₂, l₂, -, within, result⟩, procs₂⟩
  rcases result with ⟨rfl, space₂⟩ | ⟨rfl, -, -⟩
  rotate_left
  · rw [if_pos rfl]
    exact Sat.bind (Sat.ofOk fun _ _ _ => trivial) fun _ _ _ => Sat.pure (.inl rfl)
  rw [if_neg (by simp)]
  obtain ⟨memory, words, trap₂⟩ := allocated.copied books ready table frame ran within space₂
  refine Sat.bind (Sat.update (Q := fun _ s => s.vm = k₂.vm ∧ s.procs = Function.update k.procs np
    { (k.procs np).seat k.nextPid f t with sz := (k.procs now).sz }) ⟨rfl, ?_⟩) ?_
  · rw [setProc_procs, procs₂, allocated.procs, Function.update_self, Function.update_idem]
  rintro _ k₃ ⟨vm₃, procs₃⟩
  refine Sat.bind (Q := fun _ s => s.vm = copyTrapframe (PGSIZE * f) (PGSIZE * g) k₂.vm ∧ s.procs = k₃.procs)
    (Sat.zoom (Sat.update ⟨by rw [vm₃, frame]; rfl, rfl⟩)) ?_
  rintro _ k₄ ⟨vm₄, procs₄⟩
  refine Sat.bind (Q := fun _ s => s.vm = k₄.vm.store (PGSIZE * f + A0) 0 ∧ s.procs = k₃.procs)
    (Sat.zoom (Sat.update ⟨rfl, procs₄⟩)) ?_
  rintro _ k₅ ⟨vm₅, procs₅⟩
  refine Sat.bind (dupFiles_copies differ OPENFILE 0 k₅) ?_
  rintro _ k₆ ⟨vm₆, openfs, procs₆, taken⟩
  split
  · exact Sat.throw trivial
  rename_i cwd named
  refine Sat.bind (Q := fun a s => cwd = a ∧ s.vm = k₅.vm ∧ s.procs = k₆.procs) (Sat.zoom
    (Sat.bind (Sat.update (Q := fun _ _ => True) trivial) fun _ _ _ => Sat.pure ⟨rfl, vm₆, rfl⟩)) ?_
  rintro _ k₇ ⟨rfl, vm₇, procs₇⟩
  refine Sat.bind (Sat.update (Q := fun _ s => s.vm = k₅.vm ∧ s.procs = (k₇.setProc np _).procs) ⟨vm₇, rfl⟩) ?_
  rintro _ k₈ ⟨vm₈, procs₈⟩
  refine Sat.bind (Sat.update (Q := fun _ s => s.vm = k₅.vm ∧ s.procs = (k₈.setProc np _).procs) ⟨vm₈, rfl⟩) ?_
  rintro _ k₉ ⟨vm₉, procs₉⟩
  refine Sat.bind (Sat.update (Q := fun _ s => s.vm = k₅.vm ∧ s.procs = (k₉.setProc np _).procs) ⟨vm₉, rfl⟩) ?_
  rintro _ k' ⟨vm, procs⟩
  have record : k'.procs np = { (k.procs np).seat k.nextPid f t with
      sz := (k.procs now).sz, openfs, pwd := some cwd, parent := some now, state := .runnable } := by
    rw [procs, setProc_procs, Function.update_self, procs₉, setProc_procs, Function.update_self, procs₈,
      setProc_procs, Function.update_self, procs₇, procs₆, Function.update_self, procs₅, procs₃, Function.update_self]
  refine Sat.pure (.inr ⟨np, allocated.unused, rfl, ?_⟩)
  have vm₅' : k₅.vm = (copyTrapframe (PGSIZE * f) (PGSIZE * g) k₂.vm).store (PGSIZE * f + A0) 0 := by rw [vm₅, vm₄]
  have loads : ∀ i < 36, k'.vm.load ((k'.procs np).trapframe + 8 * i) =
      if 8 * i = A0 then 0 else k₂.vm.mem (512 * g + i) := by
    intro i small
    rw [record, vm, vm₅']
    exact load_copyTrapframe k₂.vm f g small
  have keeps : Keeps k₂.vm k'.vm (· ≠ f) := by
    rw [vm, vm₅']
    exact (keeps_copyTrapframe k₂.vm f _).trans (keeps_store _ (by decide : 14 < 512) 0)
  constructor
  case files =>
    funext fd
    have none := counted.closed np (.inl allocated.unused) fd
    have old : (k₅.procs now).openfs = (k.procs now).openfs := by
      rw [procs₅, procs₃, Function.update_of_ne differ]
    have new : (k₅.procs np).openfs = (k.procs np).openfs := by
      rw [procs₅, procs₃, Function.update_self]
      rfl
    rw [record]
    change openfs fd = _
    rw [taken, old, new, none, Option.or_none, Nat.zero_add]
    split
    · rfl
    · exact (counted.beyond now fd (by omega)).symm
  case pwd => rw [record, named]
  case a0 => exact (loads 14 (by decide)).trans (if_pos rfl)
  case frame =>
    intro i small apart
    have word : (PGSIZE * g + 8 * i) / 8 = 512 * g + i := by
      simp only [PGSIZE]
      omega
    rw [loads i small, if_neg apart, frame, words i (by omega)]
    exact congrArg k.vm.mem word.symm
  case memory =>
    intro a small
    have space' : Space L k'.vm own₂ l₂ t (· < pages (k.procs now).sz) (topLeaves L f) := by
      refine (space₂.poke (by simp [trap₂]) (by simp [trap₂]) (by simp [trap₂, Owner.under]) keeps ?_).1
      rw [vm, vm₅']
      rfl
    rw [record, table, ← memory a small]
    refine space₂.userAt_kept space'.tree space'.pool (fun n inner => ⟨rfl, fun i inside => ?_⟩) small
    refine keeps.at ?_ inside
    rintro rfl
    rcases inner with rfl | inner
    · obtain ⟨q, root⟩ := space₂.tree.root
      simp [trap₂] at root
    · simp [trap₂, Owner.under] at inner
  all_goals simp [record, Proc.seat]

/-- A `fork` that finds a slot and memory enough makes a copy of its caller, which differs from it by the 0 in
`a0`; and every process that is ready before, the caller included, is left as it was. -/
theorem fork_clones {l₀ : List ℕ} {past : List Deed} {r : ℤ} (boot : Booted L k₀ l₀) (run : Trace (Does L) k₀ past k)
    (ready : (k.procs now).state.Ready) (returned : fork L now k = .ok (r, k')) :
    (∀ q, (k.procs q).state.Ready → Undisturbed q k k') ∧
      (r = -1 ∨ ∃ np, (k.procs np).state = .unused ∧ r = k.nextPid ∧ Clone k now k' np) := by
  obtain ⟨own, l, books⟩ := boot.does run
  have counted : Counted k fun _ => 0 :=
    run.invariant (fun _ k => Counted k fun _ => 0) boot.counted fun _ _ _ _ counted step => step.counted counted
  refine ⟨fun q readyQ => ?_, (fork_copies books counted ready).ok returned⟩
  obtain ⟨own', l', books', -, spares⟩ := (fork_spares books ready.ne_unused).ok returned
  have same := (fork_others books).ok returned q readyQ.ne_unused
  have alone : Alone q k own k' own' := .same same readyQ fun s root =>
    spares q s (standing_of readyQ.ne_unused) (.inl root)
  exact alone.undisturbed books books' readyQ

/-- The first process stores a byte, loads its registers and forks. -/
theorem fork_clones_first : ∃ k k' np, Clone k 0 k' np ∧ userAt k'.vm (k'.procs np).pagetable 4 = some 0x55 ∧
    k'.vm.load ((k'.procs np).trapframe + 8 * 15) = 15 := by
  have boot := bootKernel_booted 30 (by decide)
  obtain ⟨_, k₂, returned, -⟩ := outcome_some (m := do
      Deed.userinit.run smallLayout
      doAll smallLayout [.store 0 4 0x55, .trap 0 (asking SYS_FORK)]
      let k ← gets id
      stopIf (¬ ((k.procs 0).state = .runnable ∧ userAt k.vm (k.procs 0).pagetable 4 = some 0x55 ∧
        k.vm.load ((k.procs 0).trapframe + 8 * 15) = 15)) .fault
      let r ← fork smallLayout 0
      stopIf (r = -1) .fault)
    (k := bootKernel 30) (f := fun _ => true) (b := true) (by decide +kernel)
  obtain ⟨_, k₁, start, rest⟩ := bind_ok.mp returned
  obtain ⟨_, k, stored, rest⟩ := bind_ok.mp rest
  obtain ⟨_, _, read, rest⟩ := bind_ok.mp rest
  obtain ⟨rfl, rfl⟩ := gets_ok.mp read
  obtain ⟨_, _, checked, rest⟩ := bind_ok.mp rest
  obtain ⟨facts, rfl⟩ := stopIf_ok.mp checked
  obtain ⟨state, byte, word⟩ := not_not.mp facts
  obtain ⟨r, k', forked, rest⟩ := bind_ok.mp rest
  obtain ⟨fine, rfl⟩ := stopIf_ok.mp rest
  obtain ⟨-, bad | ⟨np, -, -, clone⟩⟩ := fork_clones boot (started boot start stored) (.inr (.inl state)) forked
  · exact absurd bad fine
  · exact ⟨k, k', np, clone, (clone.memory 4 (by decide)).trans byte,
      (clone.frame 15 (by decide) (by decide)).trans word⟩

end Fork

end HaloOS
