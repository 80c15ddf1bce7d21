import HaloOS.Kernel.ExecSpec
import HaloOS.Lib.Trace
import HaloOS.Vm.Sv39

/-! Runs of the kernel from boot: `userinit`, the calls that processes issue one after
the other, and the moves of the scheduler. A call that panics or faults ends the run, one
that blocks is issued again later. -/

namespace HaloOS

open Lib

variable {L : Layout} {own : ℕ → Owner} {l : List ℕ} {k k' : Kernel} {p : Fin NPROC} {t n : ℕ}

inductive Call where
  | fork
  | exec (path : List Byte) (argv : List (List Byte))
  | exit (status : ℕ)
  | wait (addr : ℕ)
  | sysOpen (path : List Byte) (model : ℕ)
  | sysDup (fd : ℕ)
  | sysClose (fd : ℕ)

def Call.run (L : Layout) (p : Fin NPROC) : Call → Kio ℤ
  | .fork => HaloOS.fork L p
  | .exec path argv => HaloOS.exec L p path argv
  | .exit status => HaloOS.exit p status
  | .wait addr => HaloOS.wait L p addr
  | .sysOpen path model => HaloOS.sysOpen p path model
  | .sysDup fd => HaloOS.sysDup p fd
  | .sysClose fd => HaloOS.sysClose p fd

inductive Event where
  | userinit
  | call (p : Fin NPROC) (c : Call)
  | sched (p : Fin NPROC) (state : ProcState)

/-- The process has been built and has not exited. -/
def ProcState.Ready (s : ProcState) : Prop := s = .sleeping ∨ s = .runnable ∨ s = .running

theorem ProcState.Ready.ne_unused {s : ProcState} (ready : s.Ready) : s ≠ .unused := by
  rcases ready with rfl | rfl | rfl <;> simp

inductive Step (L : Layout) : Kernel → Event → Kernel → Prop where
  | userinit {k k' : Kernel} {r : ℤ} (returns : userinit L k = .ok (r, k')) :
      Step L k .userinit k'
  | call {k k' : Kernel} {r : ℤ} {p : Fin NPROC} {c : Call} (ready : (k.procs p).state.Ready)
      (returns : c.run L p k = .ok (r, k')) : Step L k (.call p c) k'
  | sched {k : Kernel} {p : Fin NPROC} {s : ProcState} (ready : (k.procs p).state.Ready)
      (next : s.Ready) : Step L k (.sched p s) (k.setProc p ({ · with state := s }))

/-- The state `main` hands to `userinit`: no processes, no open files, and the pages the
kernel has not taken for itself on the free list. -/
structure Booted (L : Layout) (k : Kernel) (l : List ℕ) : Prop where
  procs : ∀ p, k.procs p = {}
  files : ∀ f, k.files f = {}
  links : Links k.vm.mem k.vm.freelist l
  nodup : l.Nodup
  managed : ∀ n ∈ l, Managed L n

instance : DecidablePred ProcState.Ready := fun s =>
  inferInstanceAs (Decidable (s = .sleeping ∨ s = .runnable ∨ s = .running))

/-- Carry an event out. -/
def Event.exec (L : Layout) : Event → Kio Unit
  | .userinit => do
    let _ ← HaloOS.userinit L
    pure ()
  | .call p c => do
    let proc ← getProc p
    stopIf (¬ proc.state.Ready) .blocked
    let _ ← c.run L p
    pure ()
  | .sched p s => do
    let proc ← getProc p
    stopIf (¬ proc.state.Ready ∨ ¬ s.Ready) .blocked
    setProc p ({ · with state := s })

def execAll (L : Layout) : List Event → Kio Unit
  | [] => pure ()
  | e :: rest => do
    e.exec L
    execAll L rest

theorem Event.exec_step {e : Event} {u : Unit} (returns : e.exec L k = .ok (u, k')) :
    Step L k e k' := by
  cases e with
  | userinit =>
    obtain ⟨r, k₁, first, last⟩ := bind_ok.mp returns
    obtain ⟨-, rfl⟩ := pure_ok.mp last
    exact .userinit first
  | call p c =>
    obtain ⟨proc, k₁, first, rest⟩ := bind_ok.mp returns
    obtain ⟨rfl, rfl⟩ := gets_ok.mp first
    obtain ⟨_, k₂, stop, rest⟩ := bind_ok.mp rest
    obtain ⟨ready, rfl⟩ := stopIf_ok.mp stop
    obtain ⟨r, k₃, run, last⟩ := bind_ok.mp rest
    obtain ⟨-, rfl⟩ := pure_ok.mp last
    exact .call (not_not.mp ready) run
  | sched p s =>
    obtain ⟨proc, k₁, first, rest⟩ := bind_ok.mp returns
    obtain ⟨rfl, rfl⟩ := gets_ok.mp first
    obtain ⟨_, k₂, stop, rest⟩ := bind_ok.mp rest
    obtain ⟨ready, rfl⟩ := stopIf_ok.mp stop
    obtain rfl := update_ok.mp rest
    rw [not_or, not_not, not_not] at ready
    exact .sched ready.1 ready.2

/-- What can be carried out is a run. -/
theorem execAll_trace {events : List Event} {u : Unit}
    (returns : execAll L events k = .ok (u, k')) : Trace (Step L) k events k' := by
  induction events generalizing k with
  | nil =>
    obtain ⟨-, rfl⟩ := pure_ok.mp returns
    exact .nil
  | cons e rest ih =>
    obtain ⟨_, k₁, first, later⟩ := bind_ok.mp returns
    exact (Trace.single (Event.exec_step first)).append (ih later)

/-- What `f` shows of the state in which a computation returns. -/
def outcome {α β : Type} (m : Kio α) (k : Kernel) (f : Kernel → β) : Option β :=
  match m k with
  | .ok (_, k') => some (f k')
  | .error _ => none

theorem outcome_some {α β : Type} {m : Kio α} {f : Kernel → β} {b : β}
    (found : outcome m k f = some b) : ∃ a k', m k = .ok (a, k') ∧ f k' = b := by
  unfold outcome at found
  split at found
  · rename_i a k' returns
    exact ⟨a, k', returns, by simpa using found⟩
  · simp at found

section Boot

/-! ### A machine with `n` free pages -/

def bootKernel (n : ℕ) : Kernel where
  fs := ⟨initBcache fun _ _ => 0, ⟨0x10203040, 2000, 1954, 200, 30, 2, 32, 45, 0⟩, initInodecache⟩
  vm := bootVm n
  files := fun _ => {}
  procs := fun _ => {}
  initp := none
  nextPid := 1
  cons := {}

theorem bootKernel_booted (n : ℕ) (small : n ≤ 32756) :
    Booted smallLayout (bootKernel n) (List.range' FIRSTPG n) where
  procs := fun _ => rfl
  files := fun _ => rfl
  links := bootVm_links n n 0 (Nat.zero_add n)
  nodup := List.nodup_range'
  managed := bootVm_managed small

end Boot

section Quiet

/-! ### The calls on files leave the books alone -/

theorem fio_apart {α : Type} (m : Fio α) (k : Kernel) :
    Sat (fio m) k anyStop fun _ k' => ∃ fs, k' = { k with fs } := by
  refine Sat.ofOk fun a k' returned => ?_
  obtain ⟨fs, -, rfl⟩ := zoom_ok.mp returned
  exact ⟨fs, rfl⟩

theorem fio_still {α : Type} (m : Fio α) (k : Kernel) :
    Sat (fio m) k anyStop fun _ k' => Quiet k k' := by
  refine (fio_apart m k).mono ?_
  rintro _ _ ⟨fs, rfl⟩
  exact quiet_of_procs rfl rfl

theorem fileclose_still (me : ℕ) (g : Option (Fin NFILE)) (k : Kernel) :
    Sat (fileclose me g) k anyStop fun _ k' => Quiet k k' :=
  (fileclose_quiet me g k).weaken fun _ _ => trivial

theorem argfd_still (p : Fin NPROC) (fd : ℕ) (k : Kernel) :
    Sat (argfd p fd) k anyStop fun _ k' => k = k' :=
  Sat.bind (Sat.gets (Q := fun _ s => k = s) rfl) fun _ _ same => Sat.pure same

theorem fdalloc_still (p : Fin NPROC) (f : Fin NFILE) (k : Kernel) :
    Sat (fdalloc p f) k anyStop fun _ k' => Quiet k k' := by
  unfold fdalloc
  refine Sat.bind (Sat.gets (Q := fun _ s => k = s) rfl) ?_
  rintro proc _ rfl
  split
  · refine Sat.bind (Sat.update (Q := fun _ s => Quiet k s) ?_) fun _ _ quiet => Sat.pure quiet
    exact quiet_setProc Iff.rfl ⟨rfl, rfl, rfl⟩
  · exact Sat.pure (.refl k)

theorem sysClose_still (p : Fin NPROC) (fd : ℕ) (k : Kernel) :
    Sat (sysClose p fd) k anyStop fun _ k' => Quiet k k' := by
  unfold sysClose
  refine Sat.bind (argfd_still p fd k) ?_
  rintro found _ rfl
  cases found with
  | none => exact Sat.pure (.refl k)
  | some f =>
    refine Sat.bind (Sat.update (Q := fun _ s => Quiet k s) ?_) fun _ k₁ quiet₁ => ?_
    · exact quiet_setProc Iff.rfl ⟨rfl, rfl, rfl⟩
    refine Sat.bind (Sat.gets (Q := fun _ s => k₁ = s) rfl) ?_
    rintro proc _ rfl
    exact Sat.bind (fileclose_still _ _ k₁) fun _ _ quiet₂ => Sat.pure (quiet₁.trans quiet₂)

theorem sysDup_still (p : Fin NPROC) (fd : ℕ) (k : Kernel) :
    Sat (sysDup p fd) k anyStop fun _ k' => Quiet k k' := by
  unfold sysDup
  refine Sat.bind (argfd_still p fd k) ?_
  rintro found _ rfl
  cases found with
  | none => exact Sat.pure (.refl k)
  | some f =>
    refine Sat.bind (fdalloc_still p f k) fun new k₁ quiet₁ => ?_
    cases new with
    | none => exact Sat.pure quiet₁
    | some new =>
      unfold filedup
      refine Sat.bind (Q := fun _ s => Quiet k s) ?_ fun _ _ quiet => Sat.pure quiet
      refine Sat.bind (Sat.gets (Q := fun _ s => k₁ = s) rfl) ?_
      rintro file _ rfl
      refine Sat.bind (Sat.stopIf (Q := fun _ s => k₁ = s) (fun _ => trivial) fun _ => rfl) ?_
      rintro _ _ rfl
      refine Sat.bind (Sat.update (Q := fun _ s => Quiet k s) ?_) fun _ _ quiet => Sat.pure quiet
      exact quiet₁.trans (quiet_of_procs rfl rfl)

theorem openInode_still (p : Fin NPROC) (ip : Fin INODES) (model : ℕ) (k : Kernel) :
    Sat (openInode p ip model) k anyStop fun _ k' => Quiet k k' := by
  unfold openInode
  refine Sat.bind (Sat.gets (Q := fun _ s => Quiet k s) (.refl k)) fun proc k₁ quiet₁ => ?_
  refine Sat.bind (fio_still _ k₁) fun _ k₂ quiet₂ => ?_
  refine Sat.bind (fio_still _ k₂) fun inode k₃ quiet₃ => ?_
  have quiet := (quiet₁.trans quiet₂).trans quiet₃
  refine Sat.bind (Sat.stopIf (Q := fun _ s => Quiet k s) (fun _ => trivial) fun _ => quiet)
    fun _ k₄ quiet₄ => ?_
  refine Sat.bind (Q := fun _ s => Quiet k s) ?_ fun found k₅ quiet₅ => ?_
  · unfold filealloc
    refine Sat.bind (Sat.gets (Q := fun _ s => k₄ = s) rfl) ?_
    rintro _ _ rfl
    split
    · refine Sat.bind (Sat.update (Q := fun _ s => Quiet k s) ?_) fun _ _ quiet => Sat.pure quiet
      exact quiet₄.trans (quiet_of_procs rfl rfl)
    · exact Sat.pure quiet₄
  cases found with
  | none =>
    exact Sat.bind (fileclose_still _ _ k₅) fun _ _ quiet₆ => Sat.pure (quiet₅.trans quiet₆)
  | some f =>
    refine Sat.bind (fdalloc_still p f k₅) fun new k₆ quiet₆ => ?_
    have quiet := quiet₅.trans quiet₆
    cases new with
    | none =>
      exact Sat.bind (fileclose_still _ _ k₆) fun _ _ quiet₇ => Sat.pure (quiet.trans quiet₇)
    | some fd =>
      dsimp only
      refine Sat.ite (fun _ => ?_) fun _ => ?_ <;>
      · refine Sat.bind (Sat.update (Q := fun _ s => Quiet k s)
          (quiet.trans (quiet_of_procs rfl rfl))) fun _ k₇ quiet₇ => ?_
        refine Sat.bind (Sat.update (Q := fun _ s => Quiet k s)
          (quiet₇.trans (quiet_of_procs rfl rfl))) fun _ k₈ quiet₈ => ?_
        exact Sat.bind (fio_still _ k₈) fun _ _ quiet₉ => Sat.pure (quiet₈.trans quiet₉)

theorem sysOpen_still (p : Fin NPROC) (path : List Byte) (model : ℕ) (k : Kernel) :
    Sat (sysOpen p path model) k anyStop fun _ k' => Quiet k k' := by
  unfold sysOpen
  refine Sat.bind (Sat.gets (Q := fun _ s => k = s) rfl) ?_
  rintro proc _ rfl
  refine Sat.ite (fun _ => ?_) fun _ => ?_
  · refine Sat.bind (fio_still _ k) fun ip k₁ quiet₁ => ?_
    exact (openInode_still p ip model k₁).mono fun _ _ quiet₂ => quiet₁.trans quiet₂
  · refine Sat.bind (fio_still _ k) fun found k₁ quiet₁ => ?_
    cases found with
    | none => exact Sat.pure quiet₁
    | some ip => exact (openInode_still p ip model k₁).mono fun _ _ quiet₂ => quiet₁.trans quiet₂

end Quiet

end HaloOS
