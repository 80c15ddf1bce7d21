import HaloOS.Kernel.InodeRefs
import HaloOS.Kernel.Syscall

/-! What the calls of one process do to the others: nothing, but for the parent of an orphan. -/

namespace HaloOS

open Lib

variable {L : Layout} {own own₀ : ℕ → Owner} {l : List ℕ} {k k' k₀ : Kernel} {p q : Fin NPROC} {t f fd : ℕ}
  {α : Type}

section Reading

/-! ### Looking at user memory does not change it -/

theorem walkFrom_reads (va level pagetable : ℕ) : Frames Eq (walkFrom va false level pagetable) := by
  induction level generalizing pagetable with
  | zero => exact .pure _
  | succ level ih =>
    unfold walkFrom
    refine .bind (.gets _) fun entry => .ite (ih _) ?_
    rw [if_pos rfl]
    exact .pure _

theorem walkaddr_reads (pagetable va : ℕ) : Frames Eq (walkaddr pagetable va) := by
  unfold walkaddr
  refine .ite (.pure _) (.bind (.bind (.stopIf _) fun _ => walkFrom_reads _ _ _) fun pte => ?_)
  refine .bind (.stopIf _) fun _ => .bind (.gets _) fun entry => .bind (.stopIf _) fun _ => ?_
  exact .bind (.stopIf _) fun _ => .bind (.stopIf _) fun _ => .pure _

theorem copyinLoop_reads (pagetable fuel srcva len : ℕ) : Frames Eq (copyinLoop pagetable fuel srcva len) := by
  induction fuel generalizing srcva len with
  | zero => exact .pure _
  | succ fuel ih =>
    unfold copyinLoop
    refine .ite (.pure _) (.bind (walkaddr_reads _ _) fun pa0 => .bind (.stopIf _) fun _ => ?_)
    exact .bind (.gets _) fun v => .bind (ih _ _) fun rest => .pure _

theorem consolewriteLoop_reads (pagetable n src : ℕ) : Frames Eq (consolewriteLoop pagetable n src) := by
  induction n generalizing src with
  | zero => exact .pure _
  | succ n ih => exact .bind (copyinLoop_reads _ _ _ _) fun _ => ih _

theorem copyinstrLoop_reads (pagetable fuel srcva max : ℕ) :
    Frames Eq (copyinstrLoop pagetable fuel srcva max) := by
  induction fuel generalizing srcva max with
  | zero => exact .pure _
  | succ fuel ih =>
    unfold copyinstrLoop
    refine .ite (.pure _) (.bind (walkaddr_reads _ _) fun pa0 => .ite (.pure _) (.bind (.gets _) fun v => ?_))
    exact .ite (.pure _) (.bind (ih _ _) fun result => .pure _)

theorem fetchstr_reads (pagetable addr max : ℕ) : Frames Eq (fetchstr pagetable addr max) :=
  .bind (copyinstrLoop_reads _ _ _ _) fun _ => .bind (.stopIf _) fun _ => .pure _

/-- Computations that only read leave the whole kernel as it was. -/
theorem mio_reads {m : Mio α} (reads : Frames Eq m) : Frames Eq (mio m) :=
  .zoom reads fun k v (same : k.vm = v) => by rw [← same]

theorem trapword_reads (p : Fin NPROC) (off : ℕ) : Frames Eq (trapword p off) := .gets _

theorem argraw_reads (p : Fin NPROC) (n : ℕ) : Frames Eq (argraw p n) :=
  .bind (.stopIf _) fun _ => trapword_reads p _

theorem argint_reads (p : Fin NPROC) (n : ℕ) : Frames Eq (argint p n) :=
  .bind (argraw_reads p n) fun _ => .pure _

theorem argstr_reads (p : Fin NPROC) (n size : ℕ) : Frames Eq (argstr p n size) :=
  .bind (argraw_reads p n) fun _ => .bind (.gets _) fun _ =>
    .bind (mio_reads (fetchstr_reads _ _ _)) fun _ => .pure _

/-- A write to the console goes out through the UART, and nothing else is written. -/
theorem sysWrite_reads (p : Fin NPROC) (fd addr n : ℕ) : Frames Eq (sysWrite p fd addr n) := by
  unfold sysWrite
  refine .bind (.bind (.gets _) fun _ => .pure _) fun found => ?_
  split
  · exact .pure _
  · unfold filewrite
    refine .bind (.gets _) fun file => .ite (.pure _) ?_
    split
    · exact .pure _
    · exact .ite (.bind (.gets _) fun proc => .bind (mio_reads (consolewriteLoop_reads _ _ _)) fun _ => .pure _) (.pure _)
    · exact .pure _
    · exact .throw _

end Reading

section Others

/-! ### The records of other processes -/

/-- Only process `p` may have changed. -/
def Others (p : Fin NPROC) (k k' : Kernel) : Prop := ∀ q ≠ p, k'.procs q = k.procs q

instance : Std.Refl (Others p) where
  refl := fun _ _ _ => rfl

instance : IsTrans Kernel (Others p) where
  trans := fun _ _ _ first second q other => (second q other).trans (first q other)

theorem mio_others (m : Mio α) : Frames (Others p) (mio m) :=
  .zoom (.ofOk fun _ _ _ _ => trivial : Frames (fun _ _ => True) m) fun _ _ _ _ _ => rfl

theorem fio_others (m : Fio α) : Frames (Others p) (fio m) :=
  .zoom (.ofOk fun _ _ _ _ => trivial : Frames (fun _ _ => True) m) fun _ _ _ _ _ => rfl

theorem setProc_others (g : Proc → Proc) : Frames (Others p) (setProc p g) :=
  .update fun _ _ other => Function.update_of_ne other _ _

/-- Of the processes, only the descriptors of `p` may have changed. -/
def OnlyFds (p : Fin NPROC) (k k' : Kernel) : Prop :=
  Others p k k' ∧ ∃ openfs, k'.procs p = { k.procs p with openfs }

instance : Std.Refl (OnlyFds p) where
  refl := fun _ => ⟨fun _ _ => rfl, _, rfl⟩

instance : IsTrans Kernel (OnlyFds p) where
  trans := by
    rintro k k' k'' ⟨others, openfs, record⟩ ⟨others', openfs', record'⟩
    exact ⟨fun q other => (others' q other).trans (others q other), openfs', by rw [record', record]⟩

theorem Lib.Frames.others {m : Kio α} (frame : Frames (OnlyFds p) m) : Frames (Others p) m :=
  frame.mono fun _ _ both => both.1

theorem fio_fds (m : Fio α) : Frames (OnlyFds p) (fio m) :=
  .zoom (.ofOk fun _ _ _ _ => trivial : Frames (fun _ _ => True) m) fun _ _ _ => ⟨fun _ _ => rfl, _, rfl⟩

theorem setFile_fds (f : Fin NFILE) (g : File → File) : Frames (OnlyFds p) (setFile f g) :=
  .update fun _ => ⟨fun _ _ => rfl, _, rfl⟩

theorem setFd_fds (g : Proc → ℕ → Option (Fin NFILE)) :
    Frames (OnlyFds p) (setProc p fun proc => { proc with openfs := g proc }) :=
  .update fun _ => ⟨fun _ other => Function.update_of_ne other _ _, _, Function.update_self ..⟩

theorem filedup_fds (f : Fin NFILE) : Frames (OnlyFds p) (filedup f) :=
  .bind (.gets _) fun _ => .bind (.stopIf _) fun _ => .bind (setFile_fds _ _) fun _ => .pure _

theorem fileclose_fds (me : ℕ) (f : Option (Fin NFILE)) : Frames (OnlyFds p) (fileclose me f) := by
  cases f with
  | none => exact .throw _
  | some f =>
    refine .bind (.gets _) fun file => .bind (.stopIf _) fun _ => .ite (setFile_fds _ _) ?_
    refine .bind (setFile_fds _ _) fun _ => .ite ?_ (.pure _)
    split
    · exact fio_fds _
    · exact .throw _

theorem argfd_fds (fd : ℕ) : Frames (OnlyFds p) (argfd p fd) := .bind (.gets _) fun _ => .pure _

theorem fdalloc_fds (f : Fin NFILE) : Frames (OnlyFds p) (fdalloc p f) := by
  unfold fdalloc
  refine .bind (.gets _) fun proc => ?_
  split
  · exact .bind (setFd_fds _) fun _ => .pure _
  · exact .pure _

theorem openInode_fds (ip : Fin INODES) (model : ℕ) : Frames (OnlyFds p) (openInode p ip model) := by
  unfold openInode
  refine .bind (.gets _) fun proc => .bind (fio_fds _) fun _ => .bind (fio_fds _) fun inode => ?_
  refine .bind (.stopIf _) fun _ => .bind ?_ fun found => ?_
  · unfold filealloc
    refine .bind (.gets _) fun _ => ?_
    split
    · exact .bind (setFile_fds _ _) fun _ => .pure _
    · exact .pure _
  split
  · exact .bind (fileclose_fds _ _) fun _ => .pure _
  · refine .bind (fdalloc_fds _) fun new => ?_
    split
    · exact .bind (fileclose_fds _ _) fun _ => .pure _
    · refine .ite ?_ ?_ <;>
      exact .bind (setFile_fds _ _) fun _ => .bind (setFile_fds _ _) fun _ =>
        .bind (fio_fds _) fun _ => .pure _

theorem sysOpen_fds (path : List Byte) (model : ℕ) : Frames (OnlyFds p) (sysOpen p path model) := by
  unfold sysOpen
  refine .bind (.gets _) fun proc => .ite (.bind (fio_fds _) fun ip => openInode_fds _ _) ?_
  refine .bind (fio_fds _) fun found => ?_
  split
  · exact .pure _
  · exact openInode_fds _ _

theorem sysClose_fds (fd : ℕ) : Frames (OnlyFds p) (sysClose p fd) := by
  unfold sysClose
  refine .bind (argfd_fds fd) fun found => ?_
  split
  · exact .pure _
  · exact .bind (setFd_fds _) fun _ => .bind (.gets _) fun _ => .bind (fileclose_fds _ _) fun _ => .pure _

theorem sysDup_fds (fd : ℕ) : Frames (OnlyFds p) (sysDup p fd) := by
  unfold sysDup
  refine .bind (argfd_fds fd) fun found => ?_
  split
  · exact .pure _
  · refine .bind (fdalloc_fds _) fun new => ?_
    split
    · exact .pure _
    · exact .bind (filedup_fds _) fun _ => .pure _

theorem dupFiles_others (now : Fin NPROC) (count i : ℕ) : Frames (Others p) (dupFiles now p count i) := by
  induction count generalizing i with
  | zero => exact .pure _
  | succ count ih =>
    unfold dupFiles
    refine .bind (.gets _) fun proc => ?_
    dsimp only
    split
    · exact .bind (filedup_fds _).others fun f => .bind (setProc_others _) fun _ => ih _
    · exact .bind (.pure _) fun _ => ih _

theorem closeFiles_fds (count i : ℕ) : Frames (OnlyFds p) (closeFiles p count i) := by
  induction count generalizing i with
  | zero => exact .pure _
  | succ count ih =>
    unfold closeFiles
    refine .bind (.gets _) fun proc => ?_
    dsimp only
    split
    · exact .bind (fileclose_fds _ _) fun _ => .bind (setFd_fds _) fun _ => ih _
    · exact .bind (.pure _) fun _ => ih _

theorem freeproc_others : Frames (Others p) (freeproc L p) :=
  .bind (.gets _) fun _ => .bind (.onlyIf (mio_others _)) fun _ => setProc_others _

theorem fork_others (books : Books L k own l) :
    Sat (fork L p) k anyStop fun _ k' => ∀ q, (k.procs q).state ≠ .unused → k'.procs q = k.procs q := by
  unfold fork
  refine Sat.bind ((allocproc_spec books).weaken fun _ _ => trivial) ?_
  rintro r k₁ (⟨rfl, rfl, -⟩ | ⟨np, t, f, own₁, l₁, rfl, allocated⟩)
  · exact Sat.pure fun _ _ => rfl
  refine Sat.mono ((?_ : Frames (Others np) _) k₁) fun _ k' others q used => ?_
  · refine .bind (.gets _) fun parent => .bind (.gets _) fun child => .bind (mio_others _) fun copied => ?_
    refine .ite (.bind freeproc_others fun _ => .pure _) (.bind (setProc_others _) fun _ => ?_)
    refine .bind (mio_others _) fun _ => .bind (mio_others _) fun _ => .bind (dupFiles_others _ _ _) fun _ => ?_
    split
    · exact .throw _
    · exact .bind (fio_others _) fun _ => .bind (setProc_others _) fun _ => .bind (setProc_others _) fun _ =>
        .bind (setProc_others _) fun _ => .pure _
  · have other : q ≠ np := by
      rintro rfl
      exact used allocated.unused
    rw [others q other, allocated.procs, Function.update_of_ne other]

theorem userinit_others (books : Books L k own l) :
    Sat (userinit L) k anyStop fun _ k' => ∀ q, (k.procs q).state ≠ .unused → k'.procs q = k.procs q := by
  unfold userinit
  refine Sat.bind ((allocproc_spec books).weaken fun _ _ => trivial) ?_
  rintro r k₁ (⟨rfl, -, -⟩ | ⟨np, t, f, own₁, l₁, rfl, allocated⟩)
  · exact Sat.bind (Sat.update (Q := fun _ _ => True) trivial) fun _ _ _ => Sat.throw trivial
  refine Sat.mono ((?_ : Frames (Others np) _) k₁) fun _ k' others q used => ?_
  · refine .bind (.update fun _ _ _ => rfl) fun _ => .bind (.gets _) fun proc => .bind (mio_others _) fun _ => ?_
    refine .bind (setProc_others _) fun _ => .bind (mio_others _) fun _ => .bind (mio_others _) fun _ => ?_
    exact .bind (fio_others _) fun pwd => .bind (setProc_others _) fun _ => .bind (setProc_others _) fun _ => .pure _
  · have other : q ≠ np := by
      rintro rfl
      exact used allocated.unused
    rw [others q other, allocated.procs, Function.update_of_ne other]

/-- `wait` takes away a dead process. -/
theorem wait_others (addr : ℕ) (k : Kernel) :
    Sat (wait L p addr) k anyStop fun _ k' => ∀ q, (k.procs q).state ≠ .zombie → k'.procs q = k.procs q := by
  unfold wait
  refine Sat.bind (Sat.gets (Q := fun a s => k = a ∧ k = s) ⟨rfl, rfl⟩) ?_
  rintro _ _ ⟨rfl, rfl⟩
  dsimp only
  split
  · rename_i np found
    have zombie : (k.procs np).state = .zombie := by simpa using List.find?_some found
    refine Sat.mono ((?_ : Frames (Others np) _) k) fun _ k' others q alive => others q ?_
    · refine .bind (.onlyIf (.bind (mio_others _) fun _ => .stopIf _)) fun _ => ?_
      exact .bind freeproc_others fun _ => .pure _
    · rintro rfl
      exact alive zombie
  · exact Sat.ite (fun _ => Sat.pure fun _ _ => rfl) fun _ => Sat.throw trivial

/-- `exit` hands the children on. -/
theorem exit_others (status : ℕ) (k : Kernel) :
    Sat (exit p status) k anyStop fun _ k' => ∀ q ≠ p, ∃ parent, k'.procs q = { k.procs q with parent } := by
  unfold exit
  refine Sat.bind (Sat.gets (Q := fun _ s => k = s) rfl) ?_
  rintro initp _ rfl
  refine Sat.bind (Sat.stopIf (Q := fun _ s => k = s) (fun _ => trivial) fun _ => rfl) ?_
  rintro _ _ rfl
  refine Sat.bind ((closeFiles_fds (p := p) _ _).others k) fun _ k₁ others₁ => ?_
  refine Sat.bind (Sat.gets (Q := fun _ s => k₁ = s) rfl) ?_
  rintro proc _ rfl
  split
  · exact Sat.throw trivial
  refine Sat.bind (fio_others (p := p) _ k₁) fun _ k₂ others₂ => ?_
  refine Sat.bind (setProc_others (p := p) _ k₂) fun _ k₃ others₃ => ?_
  refine Sat.bind (Sat.update (Q := fun _ s => ∀ q, ∃ parent, s.procs q = { k₃.procs q with parent }) ?_) ?_
  · intro q
    dsimp only
    split
    · exact ⟨_, rfl⟩
    · exact ⟨_, rfl⟩
  intro _ k₄ orphans
  refine Sat.bind (setProc_others (p := p) _ k₄) fun _ k₅ others₅ => Sat.pure fun q other => ?_
  rw [others₅ q other, ← others₁ q other, ← others₂ q other, ← others₃ q other]
  exact orphans q

end Others

theorem ProcState.Ready.ne_zombie {s : ProcState} (ready : s.Ready) : s ≠ .zombie := by
  rcases ready with rfl | rfl | rfl <;> simp

section Respect

/-! ### The memory of other processes -/

/-- From `k₀` to `k` process `p` has kept the books and has left the others alone: their records, but for
their parents, and their pages and those of the kernel. -/
def Respects (L : Layout) (p : Fin NPROC) (k₀ : Kernel) (own₀ : ℕ → Owner) (k : Kernel) : Prop :=
  ∃ own l, Books L k own l ∧ (k.procs p).state ≠ .unused ∧
    (∀ q ≠ p, (k₀.procs q).state.Ready → ∃ parent, k.procs q = { k₀.procs q with parent }) ∧
    ∀ q s : ℕ, q ≠ p → Standing ProcState.Ready k₀ q → Anchor own₀ q s → Spares q s own₀ k₀.vm own k.vm

theorem Respects.refl (books : Books L k own l) (live : (k.procs p).state ≠ .unused) : Respects L p k own k :=
  ⟨own, l, books, live, fun _ _ _ => ⟨_, rfl⟩, fun _ _ _ _ _ => .refl⟩

theorem Respects.trans (first : Respects L p k₀ own₀ k)
    (second : ∀ own l, Books L k own l → (k.procs p).state ≠ .unused → Respects L p k own k') :
    Respects L p k₀ own₀ k' := by
  obtain ⟨own, l, books, live, records, spares⟩ := first
  obtain ⟨own', l', books', live', records', spares'⟩ := second own l books live
  have still : ∀ q ≠ p, (k₀.procs q).state.Ready → (k.procs q).state.Ready := by
    intro q other ready
    obtain ⟨parent, record⟩ := records q other ready
    rwa [record]
  refine ⟨own', l', books', live', fun q other ready => ?_, fun q s other ready anchor => ?_⟩
  · obtain ⟨parent, record⟩ := records q other ready
    obtain ⟨parent', record'⟩ := records' q other (still q other ready)
    exact ⟨parent', by rw [record', record]⟩
  · have first := spares q s other ready anchor
    refine first.trans (spares' q s other (fun q' same => still q' ?_ (ready q' same)) (first.anchor anchor))
    rintro rfl
    exact other same.symm

/-- A sequence of calls that respect the others. -/
theorem Respects.andThen {m : Kio α} {E : Stop → Prop} {Q : α → Kernel → Prop} (first : Respects L p k₀ own₀ k)
    (run : ∀ own l, Books L k own l → (k.procs p).state ≠ .unused →
      Sat m k E fun a k' => Respects L p k own k' ∧ Q a k') :
    Sat m k E fun a k' => Respects L p k₀ own₀ k' ∧ Q a k' := by
  have ⟨own, l, books, live, _, _⟩ := first
  unfold Sat at *
  split
  · rename_i a k' returned
    have now := run own l books live
    rw [returned] at now
    refine ⟨first.trans fun own l books live => ?_, now.2⟩
    have here := run own l books live
    rw [returned] at here
    exact here.1
  · rename_i e stopped
    have now := run own l books live
    rwa [stopped] at now

/-- Nothing of what the books look at has changed. -/
theorem Respects.quiet (first : Respects L p k₀ own₀ k) (quiet : Quiet k k') (others : Others p k k') :
    Respects L p k₀ own₀ k' := by
  refine first.trans fun own l books live => ⟨own, l, books.quiet quiet, quiet.live live,
    fun q other _ => ⟨_, others q other⟩, fun q s _ _ _ => ?_⟩
  rw [quiet.vm]
  exact .refl

theorem Respects.copyoutpg (first : Respects L p k₀ own₀ k) (addr : ℕ) (bytes : List Byte) :
    Sat (mio (copyoutpg (k.procs p).pagetable addr bytes)) k Harmless fun _ k' =>
      Respects L p k₀ own₀ k' ∧ k'.procs = k.procs := by
  refine first.andThen fun own l books live => ?_
  refine (books.copyoutpg (watched_others p own k.vm) (fun _ _ _ _ => .refl) live addr bytes).mono ?_
  rintro _ k' ⟨books', procs, spares⟩
  exact ⟨⟨own, l, books', by rwa [procs], fun q other _ => ⟨_, by rw [procs]⟩,
    fun q s other _ => spares q s other⟩, procs⟩

theorem Respects.setTrapword (first : Respects L p k₀ own₀ k) {i : ℕ} (small : i < 512) (x : ℕ) :
    Sat (setTrapword p (8 * i) x) k anyStop fun _ k' => Respects L p k₀ own₀ k' := by
  refine (first.andThen (Q := fun _ _ => True) fun own l books live => ?_).mono fun _ _ post => post.1
  obtain ⟨t, f, table, frame, root, trap, -⟩ := books.holds p live
  refine Sat.bind (Sat.gets (Q := fun a s => k.procs p = a ∧ k = s) ⟨rfl, rfl⟩) ?_
  rintro _ _ ⟨rfl, rfl⟩
  rw [frame]
  refine Sat.zoom (Sat.update ⟨⟨own, l, books.store_trapframe i trap small x, live, fun q other _ => ⟨_, rfl⟩,
    fun q s other _ anchor => ?_⟩, trivial⟩)
  exact (watched_spares other anchor).poke trap (keeps_store _ small x) .refl

section Files

/-! ### Calls on files -/

variable (first : Respects L p k₀ own₀ k)

include first

theorem Respects.setFs (fs : Fs) : Respects L p k₀ own₀ { k with fs } :=
  first.quiet (quiet_of_procs rfl rfl) fun _ _ => rfl

theorem Respects.consoleread (target n dst : ℕ) :
    Sat (consolereadLoop p target n dst) k anyStop fun _ k' => Respects L p k₀ own₀ k' := by
  have ring : ∀ {k : Kernel} (cons : Console), Respects L p k₀ own₀ k → Respects L p k₀ own₀ { k with cons } :=
    fun cons first => first.quiet (quiet_of_procs rfl rfl) fun _ _ => rfl
  induction n generalizing k dst with
  | zero => exact Sat.pure first
  | succ n ih =>
    unfold consolereadLoop
    refine Sat.bind (Sat.gets (Q := fun a s => k = a ∧ k = s) ⟨rfl, rfl⟩) ?_
    rintro _ _ ⟨rfl, rfl⟩
    refine Sat.ite (fun _ => Sat.throw trivial) fun _ => ?_
    refine Sat.bind (Sat.update (Q := fun _ s => Respects L p k₀ own₀ s ∧ s.procs = k.procs) ⟨ring _ first, rfl⟩) ?_
    rintro _ k₁ ⟨first₁, procs₁⟩
    refine Sat.ite (fun _ => ?_) fun _ => ?_
    · refine Sat.bind (Sat.onlyIf (Q := fun _ s => Respects L p k₀ own₀ s)
        (fun _ => Sat.update (ring _ first₁)) fun _ => first₁) ?_
      exact fun _ _ first₂ => Sat.pure first₂
    · rw [← procs₁]
      refine Sat.bind ((first₁.copyoutpg dst _).weaken fun _ _ => trivial) ?_
      rintro copied k₂ ⟨first₂, -⟩
      refine Sat.ite (fun _ => Sat.pure first₂) fun _ => Sat.ite (fun _ => Sat.pure first₂) fun _ => ?_
      exact ih first₂ _

theorem Respects.fileread (f : Fin NFILE) (addr n : ℕ) :
    Sat (fileread p f addr n) k anyStop fun _ k' => Respects L p k₀ own₀ k' := by
  unfold HaloOS.fileread
  refine Sat.bind (Sat.gets (Q := fun _ s => k = s) rfl) ?_
  rintro file _ rfl
  refine Sat.ite (fun _ => Sat.pure first) fun _ => Sat.ite (fun _ => Sat.ite (fun _ => ?_) fun _ => Sat.pure first)
    fun _ => Sat.ite (fun _ => ?_) fun _ => Sat.pure first
  · exact Sat.bind (first.consoleread _ _ _) fun left k₁ first₁ => Sat.pure first₁
  refine Sat.bind (Sat.gets (Q := fun a s => k.procs p = a ∧ k = s) ⟨rfl, rfl⟩) ?_
  rintro _ _ ⟨rfl, rfl⟩
  refine Sat.bind (fio_apart _ k) ?_
  rintro _ _ ⟨fs, rfl⟩
  cases file.ip with
  | none => exact Sat.throw trivial
  | some ip =>
    refine Sat.bind ((readi_keeps (I := fun s => Respects L p k₀ own₀ s ∧ s.procs p = k.procs p) ?_ ?_ ?_).weaken
      fun _ _ => trivial) ?_
    · rintro s fs ⟨first, same⟩
      exact ⟨first.setFs fs, same⟩
    · rintro tot bytes s - ⟨first, same⟩
      rw [← same]
      refine (first.copyoutpg _ _).mono ?_
      rintro _ s' ⟨first', procs⟩
      exact ⟨first', by rw [procs]⟩
    · exact ⟨first.setFs fs, rfl⟩
    rintro ⟨tot, bytes⟩ k₂ ⟨first₂, -⟩
    dsimp only
    refine Sat.bind (Sat.onlyIf (Q := fun _ s => Respects L p k₀ own₀ s) (fun _ => Sat.update ?_) fun _ => first₂) ?_
    · exact first₂.quiet (quiet_of_procs rfl rfl) fun _ _ => rfl
    intro _ k₃ first₃
    refine Sat.bind (fio_apart _ k₃) ?_
    rintro _ _ ⟨fs₄, rfl⟩
    exact Sat.pure (first₃.setFs fs₄)

theorem Respects.filestat (f : Fin NFILE) (addr : ℕ) :
    Sat (filestat p f addr) k anyStop fun _ k' => Respects L p k₀ own₀ k' := by
  unfold HaloOS.filestat
  refine Sat.bind (Sat.gets (Q := fun _ s => k = s) rfl) ?_
  rintro file _ rfl
  refine Sat.ite (fun _ => ?_) fun _ => Sat.pure first
  refine Sat.bind (Sat.gets (Q := fun a s => k.procs p = a ∧ k = s) ⟨rfl, rfl⟩) ?_
  rintro _ _ ⟨rfl, rfl⟩
  refine Sat.bind (fio_apart _ k) ?_
  rintro _ _ ⟨fs, rfl⟩
  cases file.ip with
  | none => exact Sat.throw trivial
  | some ip =>
    refine Sat.bind (fio_apart _ _) ?_
    rintro inode _ ⟨fs₂, rfl⟩
    refine Sat.bind (fio_apart _ _) ?_
    rintro _ _ ⟨fs₃, rfl⟩
    refine Sat.bind (((first.setFs fs₃).copyoutpg addr _).weaken fun _ _ => trivial) ?_
    rintro copied k₄ ⟨first₄, -⟩
    exact Sat.pure first₄

theorem Respects.sysRead (fd addr n : ℕ) :
    Sat (sysRead p fd addr n) k anyStop fun _ k' => Respects L p k₀ own₀ k' := by
  refine Sat.bind (argfd_still p fd k) ?_
  rintro found _ rfl
  cases found with
  | none => exact Sat.throw trivial
  | some f => exact first.fileread f addr n

theorem Respects.sysFstat (fd addr : ℕ) :
    Sat (sysFstat p fd addr) k anyStop fun _ k' => Respects L p k₀ own₀ k' := by
  refine Sat.bind (argfd_still p fd k) ?_
  rintro found _ rfl
  cases found with
  | none => exact Sat.pure first
  | some f => exact first.filestat f addr

omit first in
/-- `mknod` concerns the file system alone. -/
theorem sysMknod_apart (path : List Byte) (major minor : ℕ) :
    Sat (sysMknod p path major minor) k anyStop fun _ k' => ∃ fs, k' = { k with fs } := by
  refine Sat.bind (Sat.gets (Q := fun _ s => k = s) rfl) ?_
  rintro proc _ rfl
  refine Sat.bind (fio_apart _ k) ?_
  rintro ip _ ⟨fs, rfl⟩
  refine Sat.bind (fio_apart _ _) ?_
  rintro _ _ ⟨fs', rfl⟩
  exact Sat.pure ⟨fs', rfl⟩

theorem Respects.sysMknod (path : List Byte) (major minor : ℕ) :
    Sat (sysMknod p path major minor) k anyStop fun _ k' => Respects L p k₀ own₀ k' := by
  refine (sysMknod_apart path major minor).mono ?_
  rintro _ _ ⟨fs, rfl⟩
  exact first.setFs fs

end Files

section Processes

/-! ### Calls on processes -/

variable (first : Respects L p k₀ own₀ k)

include first

theorem Respects.fork : Sat (fork L p) k anyStop fun _ k' => Respects L p k₀ own₀ k' := by
  refine (first.andThen (Q := fun _ _ => True) fun own l books live => ?_).mono fun _ _ post => post.1
  have spec : Sat _ _ anyStop _ := (fork_spares books live).weaken fun _ _ => trivial
  refine Sat.ofOk fun a k' returned => ⟨?_, trivial⟩
  obtain ⟨own', l', books', -, spares⟩ := spec.ok returned
  have same := (fork_others books).ok returned
  refine ⟨own', l', books', by rwa [same p live], fun q _ ready => ⟨_, same q ready.ne_unused⟩, fun q s _ ready => ?_⟩
  exact spares q s (ready.mono fun _ => ProcState.Ready.ne_unused)

theorem Respects.wait (ready : (k.procs p).state.Ready) (addr : ℕ) :
    Sat (wait L p addr) k anyStop fun _ k' => Respects L p k₀ own₀ k' := by
  refine (first.andThen (Q := fun _ _ => True) fun own l books live => ?_).mono fun _ _ post => post.1
  refine Sat.ofOk fun a k' returned => ⟨?_, trivial⟩
  obtain ⟨own', l', books', -, spares⟩ := (wait_spares books live addr).ok returned
  have same := (wait_others addr k).ok returned
  refine ⟨own', l', books', by rwa [same p ready.ne_zombie], fun q _ alive => ⟨_, same q alive.ne_zombie⟩,
    fun q s other alive => ?_⟩
  exact spares q s other (alive.mono fun _ => ProcState.Ready.ne_zombie)

theorem Respects.exec (path : List Byte) (argv : List (List Byte)) :
    Sat (exec L p path argv) k anyStop fun _ k' => Respects L p k₀ own₀ k' := by
  refine (first.andThen (Q := fun _ _ => True) fun own l books live => ?_).mono fun _ _ post => post.1
  refine ((exec_watched books (watched_others p own k.vm) (fun _ _ _ _ => .refl) live path argv).weaken
    fun _ _ => trivial).mono ?_
  rintro _ k' ⟨⟨pagetable, sz, procs⟩, own', l', books', spares⟩
  refine ⟨⟨own', l', books', by rwa [procs, Function.update_self], fun q other _ => ⟨(k.procs q).parent, ?_⟩,
    fun q s other _ => spares q s other⟩, trivial⟩
  rw [procs, Function.update_of_ne other]

theorem Respects.exit (status : ℕ) : Sat (exit p status) k anyStop fun _ k' => Respects L p k₀ own₀ k' := by
  refine (first.andThen (Q := fun _ _ => True) fun own l books live => ?_).mono fun _ _ post => post.1
  refine Sat.ofOk fun a k' returned => ⟨?_, trivial⟩
  have quiet := (exit_quiet live status).ok returned
  have orphans := (exit_others status k).ok returned
  refine ⟨own, l, books.quiet quiet, quiet.live live, fun q other _ => orphans q other, fun q s _ _ _ => ?_⟩
  rw [quiet.vm]
  exact .refl

end Processes

section Dispatch

/-- A call first reads its arguments. -/
theorem sat_reads {α β : Type} {m : Kio α} {next : α → Kio β} {Q : β → Kernel → Prop} (reads : Frames Eq m)
    (rest : ∀ a, Sat (next a) k anyStop Q) : Sat (m >>= next) k anyStop Q := by
  refine Sat.bind (reads k) ?_
  rintro a _ rfl
  exact rest a

theorem sat_same {P : Kernel → Prop} {m : Kio α} (reads : Frames Eq m) (now : P k) : Sat m k anyStop fun _ k' => P k' := by
  refine (reads k).mono ?_
  rintro _ _ rfl
  exact now

theorem entry_cases {c : Prop} [Decidable c] {a b : α} {rest : Option α} (found : (if c then some a else rest) = some b) :
    (c ∧ a = b) ∨ (¬ c ∧ rest = some b) := by
  by_cases here : c
  · exact .inl ⟨here, by simpa [here] using found⟩
  · exact .inr ⟨here, by simpa [here] using found⟩

/-- Every entry of the table but that of `sbrk`. -/
theorem Respects.call {num : ℕ} {call : Kio ℤ} (first : Respects L p k₀ own₀ k) (ready : (k.procs p).state.Ready)
    (found : syscalls L p num = some call) (other : num ≠ SYS_SBRK) :
    Sat call k anyStop fun _ k' => Respects L p k₀ own₀ k' := by
  have quiet : ∀ {m : Kio ℤ}, Sat m k anyStop (fun _ k' => Quiet k k') → Frames (Others p) m →
      Sat m k anyStop fun _ k' => Respects L p k₀ own₀ k' := fun still others =>
    Sat.ofOk fun _ _ returned => first.quiet (still.ok returned) (others.ok returned)
  unfold syscalls at found
  obtain ⟨-, rfl⟩ | ⟨-, found⟩ := entry_cases found
  · unfold Syscall.sysWrite
    refine sat_reads (argint_reads _ _) fun fd => sat_reads (argint_reads _ _) fun n => ?_
    exact sat_reads (argraw_reads _ _) fun addr => sat_same (sysWrite_reads p fd addr n) first
  obtain ⟨-, rfl⟩ | ⟨-, found⟩ := entry_cases found
  · unfold Syscall.sysExec
    exact sat_reads (argstr_reads _ _ _) fun name => first.exec name []
  obtain ⟨-, rfl⟩ | ⟨-, found⟩ := entry_cases found
  · unfold Syscall.sysDup
    exact sat_reads (argint_reads _ _) fun fd => quiet (sysDup_still p fd k) (sysDup_fds fd).others
  obtain ⟨-, rfl⟩ | ⟨-, found⟩ := entry_cases found
  · unfold Syscall.sysOpen
    refine sat_reads (argstr_reads _ _ _) fun path => sat_reads (argint_reads _ _) fun model => ?_
    exact quiet (sysOpen_still p path model k) (sysOpen_fds path model).others
  obtain ⟨-, rfl⟩ | ⟨-, found⟩ := entry_cases found
  · unfold Syscall.sysWait
    exact sat_reads (argraw_reads _ _) fun addr => first.wait ready addr
  obtain ⟨-, rfl⟩ | ⟨-, found⟩ := entry_cases found
  · unfold Syscall.sysMknod
    refine sat_reads (argstr_reads _ _ _) fun path => sat_reads (argint_reads _ _) fun major => ?_
    exact sat_reads (argint_reads _ _) fun minor => first.sysMknod path major minor
  obtain ⟨-, rfl⟩ | ⟨-, found⟩ := entry_cases found
  · unfold Syscall.sysFork
    exact first.fork
  obtain ⟨-, rfl⟩ | ⟨-, found⟩ := entry_cases found
  · unfold Syscall.sysRead
    refine sat_reads (argint_reads _ _) fun fd => sat_reads (argint_reads _ _) fun n => ?_
    exact sat_reads (argraw_reads _ _) fun addr => first.sysRead fd addr n
  obtain ⟨-, rfl⟩ | ⟨-, found⟩ := entry_cases found
  · unfold Syscall.sysExit
    exact sat_reads (argint_reads _ _) fun status => first.exit status
  obtain ⟨bad, -⟩ | ⟨-, found⟩ := entry_cases found
  · exact absurd bad other
  obtain ⟨-, rfl⟩ | ⟨-, found⟩ := entry_cases found
  · unfold Syscall.sysFstat
    exact sat_reads (argint_reads _ _) fun fd => sat_reads (argraw_reads _ _) fun st => first.sysFstat fd st
  obtain ⟨-, rfl⟩ | ⟨-, found⟩ := entry_cases found
  · unfold Syscall.sysClose
    exact sat_reads (argint_reads _ _) fun fd => quiet (sysClose_still p fd k) (sysClose_fds fd).others
  · cases found

/-- `syscall`, as long as the number is not that of `sbrk`. -/
theorem Respects.syscall (first : Respects L p k₀ own₀ k) (ready : (k.procs p).state.Ready)
    (other : k.vm.load ((k.procs p).trapframe + A7) % UINT ≠ SYS_SBRK) :
    Sat (syscall L p) k anyStop fun _ k' => Respects L p k₀ own₀ k' := by
  refine Sat.bind (Sat.gets (Q := fun a s => a % UINT ≠ SYS_SBRK ∧ k = s) ⟨other, rfl⟩) ?_
  rintro a7 _ ⟨other, rfl⟩
  split
  · rename_i call found
    refine Sat.bind (first.call ready found other) fun r k₁ first₁ => ?_
    exact Sat.onlyIf (fun _ => first₁.setTrapword (i := 14) (by decide) _) fun _ => first₁
  · exact first.setTrapword (i := 14) (by decide) _

/-- The new program counter leaves the number of the call as it is. -/
theorem setTrapword_epc (p : Fin NPROC) (x : ℕ) (k : Kernel) :
    Sat (setTrapword p EPC x) k anyStop fun _ k' => k'.procs = k.procs ∧ k'.files = k.files ∧
      k'.vm.load ((k.procs p).trapframe + A7) = k.vm.load ((k.procs p).trapframe + A7) := by
  refine Sat.bind (Sat.gets (Q := fun a s => k.procs p = a ∧ k = s) ⟨rfl, rfl⟩) ?_
  rintro _ _ ⟨rfl, rfl⟩
  refine Sat.zoom (Sat.update ⟨rfl, rfl, ?_⟩)
  exact Function.update_of_ne (by unfold A7 EPC; omega) _ _

/-- What `usertrap` does for a system call. -/
theorem Respects.usertrapEcall (first : Respects L p k₀ own₀ k) (ready : (k.procs p).state.Ready)
    (other : k.vm.load ((k.procs p).trapframe + A7) % UINT ≠ SYS_SBRK) :
    Sat (usertrapEcall L p) k anyStop fun _ k' => Respects L p k₀ own₀ k' := by
  refine Sat.bind (Sat.gets (Q := fun a s => k.procs p = a ∧ k = s) ⟨rfl, rfl⟩) ?_
  rintro _ _ ⟨rfl, rfl⟩
  refine Sat.ite (fun _ => ?_) fun _ => sat_reads (trapword_reads p EPC) fun epc => ?_
  · exact Sat.bind (first.exit _) fun _ _ first₁ => Sat.pure first₁
  refine Sat.bind ((first.setTrapword (i := 3) (by decide) _).andRun) ?_
  rintro _ k₁ ⟨returned, first₁⟩
  obtain ⟨procs, -, apart⟩ := (setTrapword_epc p _ k).ok returned
  exact first₁.syscall (by rwa [procs]) (by rwa [procs, apart])

end Dispatch

end Respect

end HaloOS
