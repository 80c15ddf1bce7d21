import HaloOS.Kernel.Footprint

/-! The status of a child on its way to the parent: `exit` leaves it in the record, nobody touches the
record of a dead process, and `wait` copies it out when it takes the process away. -/

namespace HaloOS

open Lib

variable {L : Layout} {own : ℕ → Owner} {l : List ℕ} {k k' k₀ k₁ k₂ : Kernel} {p q child parent : Fin NPROC} {α : Type}

section Dead

/-- A process that is dead before and after has at most been given to another parent. -/
def LeavesDead (q : Fin NPROC) (k k' : Kernel) : Prop :=
  (k.procs q).state = .zombie → (k'.procs q).state = .zombie → ∃ parent, k'.procs q = { k.procs q with parent }

theorem LeavesDead.of_eq (same : k'.procs q = k.procs q) : LeavesDead q k k' := fun _ _ => ⟨_, same⟩

theorem leavesDead_others {m : Kio α} (other : q ≠ p) (frame : Frames (Others p) m) :
    Sat m k anyStop fun _ k' => LeavesDead q k k' :=
  (frame k).mono fun _ _ others => .of_eq (others q other)

theorem leavesDead_sameSlots {m : Kio α} (frame : Frames SameSlots m) : Sat m k anyStop fun _ k' => LeavesDead q k k' :=
  (frame k).mono fun _ _ same => .of_eq (congrFun same.procs q)

/-- `wait` takes a dead child away with everything it had, or changes no record. -/
theorem wait_procs (addr : ℕ) (k : Kernel) : Sat (wait L p addr) k anyStop fun _ k' =>
    k'.procs = k.procs ∨ ∃ np, k'.procs = Function.update k.procs np (k.procs np).cleared := by
  unfold wait
  refine Sat.bind (Sat.gets (Q := fun a s => k = a ∧ k = s) ⟨rfl, rfl⟩) ?_
  rintro _ _ ⟨rfl, rfl⟩
  dsimp only
  split
  · rename_i np found
    refine Sat.bind (Q := fun _ s => s.procs = k.procs) (Sat.onlyIf (fun _ => ?_) fun _ => rfl) ?_
    · refine Sat.bind (mio_untouched _ k) fun copied k₁ same => ?_
      exact Sat.stopIf (fun _ => trivial) fun _ => same.1
    intro _ k₁ procs₁
    refine Sat.bind (Q := fun _ s => s.procs = Function.update k.procs np (k.procs np).cleared) ?_
      fun _ _ procs => Sat.pure (.inr ⟨np, procs⟩)
    unfold freeproc
    refine Sat.bind (Sat.gets (Q := fun a s => k.procs np = a ∧ k₁ = s) ⟨by rw [procs₁], rfl⟩) ?_
    rintro _ _ ⟨rfl, rfl⟩
    refine Sat.bind (Q := fun _ s => s.procs = k.procs) (Sat.onlyIf (fun _ => ?_) fun _ => procs₁) ?_
    · exact (mio_untouched _ k₁).mono fun _ _ same => same.1.trans procs₁
    · intro _ k₂ procs₂
      refine Sat.update ?_
      rw [setProc_procs, procs₂]
      rfl
  · exact Sat.ite (fun _ => Sat.pure (.inl rfl)) fun _ => Sat.throw trivial

theorem LeavesDead.of_procs (procs : k'.procs = k.procs ∨ ∃ np, k'.procs = Function.update k.procs np (k.procs np).cleared) :
    LeavesDead q k k' := by
  rcases procs with procs | ⟨np, procs⟩
  · exact .of_eq (congrFun procs q)
  · intro dead dead'
    by_cases same : q = np
    · subst same
      rw [procs, Function.update_self] at dead'
      cases dead'
    · exact ⟨_, by rw [procs, Function.update_of_ne same]⟩

/-- No call touches the record of a dead process. -/
theorem call_leavesDead {num : ℕ} {call : Kio ℤ} (books : Books L k own l) (ready : (k.procs p).state.Ready)
    (other : q ≠ p) (found : syscalls L p num = some call) (heap : num ≠ SYS_SBRK) :
    Sat call k anyStop fun _ k' => LeavesDead q k k' := by
  unfold syscalls at found
  obtain ⟨-, rfl⟩ | ⟨-, found⟩ := entry_cases found
  · refine sat_reads (argint_reads _ _) fun fd => sat_reads (argint_reads _ _) fun n => ?_
    exact sat_reads (argraw_reads _ _) fun addr => leavesDead_sameSlots (sysWrite_sameSlots p fd addr n)
  obtain ⟨-, rfl⟩ | ⟨-, found⟩ := entry_cases found
  · refine sat_reads (argstr_reads _ _ _) fun name => ?_
    refine ((exec_watched books (watched_true p) trivial ready.ne_unused name []).weaken fun _ _ => trivial).mono ?_
    rintro _ k' ⟨⟨pagetable, sz, procs⟩, -⟩
    exact .of_eq (by rw [procs, Function.update_of_ne other])
  obtain ⟨-, rfl⟩ | ⟨-, found⟩ := entry_cases found
  · exact sat_reads (argint_reads _ _) fun fd => leavesDead_others other (sysDup_fds fd).others
  obtain ⟨-, rfl⟩ | ⟨-, found⟩ := entry_cases found
  · refine sat_reads (argstr_reads _ _ _) fun path => sat_reads (argint_reads _ _) fun model => ?_
    exact leavesDead_others other (sysOpen_fds path model).others
  obtain ⟨-, rfl⟩ | ⟨-, found⟩ := entry_cases found
  · exact sat_reads (argraw_reads _ _) fun addr => (wait_procs addr k).mono fun _ _ procs => .of_procs procs
  obtain ⟨-, rfl⟩ | ⟨-, found⟩ := entry_cases found
  · refine sat_reads (argstr_reads _ _ _) fun path => sat_reads (argint_reads _ _) fun major => ?_
    exact sat_reads (argint_reads _ _) fun minor => leavesDead_sameSlots (sysMknod_sameSlots p path major minor)
  obtain ⟨-, rfl⟩ | ⟨-, found⟩ := entry_cases found
  · exact (fork_others books).mono fun _ k' same dead _ => ⟨_, same q (by rw [dead]; decide)⟩
  obtain ⟨-, rfl⟩ | ⟨-, found⟩ := entry_cases found
  · refine sat_reads (argint_reads _ _) fun fd => sat_reads (argint_reads _ _) fun n => ?_
    exact sat_reads (argraw_reads _ _) fun addr => leavesDead_sameSlots (sysRead_sameSlots p fd addr n)
  obtain ⟨-, rfl⟩ | ⟨-, found⟩ := entry_cases found
  · exact sat_reads (argint_reads _ _) fun status => (exit_others status k).mono fun _ _ orphans _ _ => orphans q other
  obtain ⟨bad, -⟩ | ⟨-, found⟩ := entry_cases found
  · exact absurd bad heap
  obtain ⟨-, rfl⟩ | ⟨-, found⟩ := entry_cases found
  · refine sat_reads (argint_reads _ _) fun fd => sat_reads (argraw_reads _ _) fun st => ?_
    exact leavesDead_sameSlots (sysFstat_sameSlots p fd st)
  obtain ⟨-, rfl⟩ | ⟨-, found⟩ := entry_cases found
  · exact sat_reads (argint_reads _ _) fun fd => leavesDead_others other (sysClose_fds fd).others
  · cases found

theorem usertrapEcall_leavesDead (books : Books L k own l) (ready : (k.procs p).state.Ready) (other : q ≠ p)
    (heap : k.vm.load ((k.procs p).trapframe + A7) % UINT ≠ SYS_SBRK) :
    Sat (usertrapEcall L p) k anyStop fun _ k' => LeavesDead q k k' := by
  refine Sat.bind (Sat.gets (Q := fun _ s => k = s) rfl) ?_
  rintro proc _ rfl
  refine Sat.ite (fun _ => ?_) fun _ => sat_reads (trapword_reads p EPC) fun epc => ?_
  · exact Sat.bind (exit_others _ k) fun _ k₁ orphans => Sat.pure fun _ _ => orphans q other
  have first := (Respects.refl books ready.ne_unused).setTrapword (i := 3) (by decide) ((epc + 4) % WORD)
  refine Sat.bind first.andRun ?_
  rintro _ k₁ ⟨returned, ⟨own₁, l₁, books₁, -⟩⟩
  obtain ⟨procs, -, apart⟩ := (setTrapword_epc p _ k).ok returned
  refine Sat.bind (Sat.gets (Q := fun a s => a % UINT ≠ SYS_SBRK ∧ k₁ = s) ⟨by rwa [procs, apart], rfl⟩) ?_
  rintro a7 _ ⟨heap₁, rfl⟩
  unfold LeavesDead
  rw [← procs]
  split
  · rename_i call found
    refine Sat.bind (call_leavesDead books₁ (by rwa [procs]) other found heap₁) fun r k₂ leaves => ?_
    exact Sat.onlyIf (fun _ => (setTrapword_sameSlots _ _ _ k₂).mono fun _ k₃ same => by rwa [same.procs]) fun _ => leaves
  · exact leavesDead_sameSlots (setTrapword_sameSlots _ _ _)

/-- Nothing that happens touches the record of a dead process. -/
theorem Does.leavesDead {d : Deed} (step : Does L k d k') (books : Books L k own l) : LeavesDead q k k' := by
  by_cases dead : (k.procs q).state = .zombie
  swap
  · exact fun alsoDead => absurd alsoDead dead
  have other : ∀ {p : Fin NPROC}, (k.procs p).state.Ready → q ≠ p := by
    rintro p ready rfl
    exact ready.ne_zombie dead
  obtain ⟨ran, plain⟩ := step
  have acts : ∀ p, Frames SameSlots (acting p) := fun p => .bind (.gets _) fun _ => .bind (.stopIf _) fun _ => .pure _
  have quiet : Frames SameSlots (d.run L) → LeavesDead q k k' := fun frame => .of_eq (congrFun (frame.ok ran).procs q)
  cases d with
  | userinit =>
    obtain ⟨r, k₁, first, last⟩ := bind_ok.mp ran
    obtain ⟨-, rfl⟩ := pure_ok.mp last
    exact .of_eq ((userinit_others books).ok first q (by rw [dead]; decide))
  | store p a b =>
    refine quiet (.bind (acts p) fun proc => .bind (.gets _) fun v => ?_)
    split
    · exact mio_sameSlots _
    · exact .throw _
  | trap p frame => exact quiet (.bind (acts p) fun proc => mio_sameSlots _)
  | ecall p =>
    refine Sat.ok (E := anyStop) (Q := fun _ k' => LeavesDead q k k') (sat_acting fun ready => ?_) ran
    exact usertrapEcall_leavesDead books ready (other ready) plain
  | sched p state =>
    refine Sat.ok (E := anyStop) (Q := fun _ k' => LeavesDead q k k') (sat_acting fun ready => ?_) ran
    refine Sat.bind (Sat.stopIf (Q := fun _ s => k = s) (fun _ => trivial) fun _ => rfl) ?_
    rintro _ _ rfl
    exact Sat.update (.of_eq (Function.update_of_ne (other ready) ..))
  | key c => exact quiet (.update fun k => sameSlots_of_eq rfl rfl)

end Dead

section Status

/-- What `wait` does when it takes process `np` away. -/
structure Taken (p np : Fin NPROC) (addr : ℕ) (k : Kernel) (r : ℤ) (k' : Kernel) : Prop where
  child : (k.procs np).parent = some p
  dead : (k.procs np).state = .zombie
  result : r = (k.procs np).pid
  procs : k'.procs = Function.update k.procs np (k.procs np).cleared
  status : addr ≠ 0 → ∀ j < 4, userAt k'.vm (k.procs p).pagetable (addr + j) = some (leByte (k.procs np).xstate j)

/-- `wait` takes a dead child away and copies its status to the caller, or changes no record. -/
theorem wait_takes (books : Books L k own l) (ready : (k.procs p).state.Ready) (addr : ℕ) :
    Sat (wait L p addr) k anyStop fun r k' => k'.procs = k.procs ∨ ∃ np, Taken p np addr k r k' := by
  unfold wait
  refine Sat.bind (Sat.gets (Q := fun a s => k = a ∧ k = s) ⟨rfl, rfl⟩) ?_
  rintro _ _ ⟨rfl, rfl⟩
  dsimp only
  split
  swap
  · exact Sat.ite (fun _ => Sat.pure (.inl rfl)) fun _ => Sat.throw trivial
  rename_i np found
  have dead : (k.procs np).state = .zombie := by simpa using List.find?_some found
  have child : (k.procs np).parent = some p := by
    have member := List.mem_of_find?_eq_some found
    simpa using (List.mem_filter.mp member).2
  refine Sat.bind (Q := fun _ s => Serves L (fun _ => False) (fun _ => False) p s s ∧ s.procs = k.procs ∧ (addr ≠ 0 →
    ∀ j < 4, addr + j < 2 ^ 39 ∧ userAt s.vm (k.procs p).pagetable (addr + j) = some (leByte (k.procs np).xstate j)))
    (Sat.onlyIf (fun _ => ?_) fun none => ⟨.refl books, rfl, fun some => absurd some none⟩) ?_
  · refine Sat.bind ((books.copyout_heeds (F := fun _ => False) ready.ne_unused addr _).weaken fun _ _ => trivial) ?_
    rintro copied k₁ ⟨books₁, procs₁, -, bytes⟩
    refine Sat.stopIf (fun _ => trivial) fun fine => ⟨.refl books₁, procs₁, fun _ j below => ?_⟩
    obtain ⟨low, byte⟩ := bytes (by simpa using fine) j (by simpa using below)
    exact ⟨low, byte.trans (by simp [List.getD, below])⟩
  rintro _ k₁ ⟨serves₁, procs₁, bytes⟩
  refine Sat.bind (serves₁.freeproc (by rwa [procs₁]) (by rw [procs₁, dead])) ?_
  rintro _ k₂ ⟨⟨-, heeds₂⟩, procs₂⟩
  refine Sat.pure (.inr ⟨np, child, dead, rfl, by rw [procs₂, procs₁], fun some j below => ?_⟩)
  obtain ⟨low, byte⟩ := bytes some j below
  rw [← byte, ← procs₁]
  exact heeds₂.memory _ low not_false

/-- The system call `exit` leaves its argument, as an `int`, in the record of its dead caller. -/
theorem usertrapEcall_exit (number : k.vm.load ((k.procs p).trapframe + A7) % UINT = SYS_EXIT)
    (alive : (k.procs p).killed = false) (books : Books L k own l) (ready : (k.procs p).state.Ready) :
    Sat (usertrapEcall L p) k anyStop fun _ k' => (k'.procs p).state = .zombie ∧
      (k'.procs p).pid = (k.procs p).pid ∧ (k'.procs p).xstate = arg k p 0 % UINT := by
  have start : Serves L (· = 3) (fun _ => False) p k k := .refl books
  refine Sat.bind (Sat.gets (Q := fun a s => k.procs p = a ∧ k = s) ⟨rfl, rfl⟩) ?_
  rintro _ _ ⟨rfl, rfl⟩
  refine Sat.ite (fun killed => absurd killed (by simp [alive])) fun _ => sat_reads (trapword_reads p EPC) fun epc => ?_
  refine Sat.bind (start.setTrapword (i := 3) ready (by decide) rfl _) ?_
  rintro _ k₁ ⟨⟨-, heeds₁⟩, procs₁, -⟩
  have number₁ : k₁.vm.load ((k₁.procs p).trapframe + A7) % UINT = SYS_EXIT := by
    rw [procs₁]
    exact (congrArg (· % UINT) (heeds₁.frame 21 (by decide) (by decide))).trans number
  have status : arg k₁ p 0 = arg k p 0 := by
    unfold arg
    rw [procs₁]
    exact heeds₁.frame 14 (by decide) (by decide)
  refine Sat.bind (Sat.gets (Q := fun a s => a % UINT = SYS_EXIT ∧ k₁ = s) ⟨number₁, rfl⟩) ?_
  rintro a7 _ ⟨number', rfl⟩
  rw [number', show syscalls L p SYS_EXIT = some (Syscall.sysExit p) from rfl]
  refine Sat.bind (sat_argint (exit_record _ k₁)) ?_
  rintro r k₂ ⟨openfs, parent, record⟩
  refine Sat.onlyIf (fun differ => absurd rfl differ) fun _ => ?_
  rw [record, procs₁, status]
  exact ⟨rfl, rfl, rfl⟩

/-- The argument of `exit` reaches the parent. Whatever happens between the end of a child and the `wait` that takes
it away, that call is made by the child's parent at the time, returns the pid that the child had, and leaves
the status, as an `int`, in the caller's memory. -/
theorem exit_status_delivered {l₀ : List ℕ} {past later : List Deed} {r : ℤ} {addr : ℕ} (boot : Booted L k₀ l₀)
    (run : Trace (Does L) k₀ past k₁) (number : k₁.vm.load ((k₁.procs child).trapframe + A7) % UINT = SYS_EXIT)
    (alive : (k₁.procs child).killed = false) (exited : Does L k₁ (.ecall child) k₂)
    (on : Trace (fun k d k' => Does L k d k' ∧ (k'.procs child).state = .zombie) k₂ later k)
    (ready : (k.procs parent).state.Ready) (waited : wait L parent addr k = .ok (r, k'))
    (gone : (k'.procs child).state = .unused) :
    (k.procs child).parent = some parent ∧ r = (k₁.procs child).pid ∧ (addr ≠ 0 → ∀ j < 4,
      userAt k'.vm (k'.procs parent).pagetable (addr + j) = some (leByte (arg k₁ child 0 % UINT) j)) := by
  obtain ⟨own₁, l₁, books₁⟩ := boot.does run
  obtain ⟨zombie, pid, status⟩ : (k₂.procs child).state = .zombie ∧ (k₂.procs child).pid = (k₁.procs child).pid ∧
      (k₂.procs child).xstate = arg k₁ child 0 % UINT := by
    refine Sat.ok (E := anyStop) (Q := fun _ k' => (k'.procs child).state = .zombie ∧ (k'.procs child).pid =
      (k₁.procs child).pid ∧ (k'.procs child).xstate = arg k₁ child 0 % UINT) (sat_acting fun ready => ?_) exited.1
    exact usertrapEcall_exit number alive books₁ ready
  obtain ⟨own₂, l₂, books₂, -⟩ := exited.step books₁
  obtain ⟨⟨own, l, books⟩, dead, adopted, record⟩ : (∃ own l, Books L k own l) ∧ (k.procs child).state = .zombie ∧
      ∃ parent, k.procs child = { k₂.procs child with parent } := by
    refine on.invariant (fun _ k => (∃ own l, Books L k own l) ∧ (k.procs child).state = .zombie ∧
      ∃ parent, k.procs child = { k₂.procs child with parent }) ⟨⟨own₂, l₂, books₂⟩, zombie, _, rfl⟩ ?_
    rintro - k d k' ⟨⟨own, l, books⟩, dead, parent, record⟩ ⟨step, still⟩
    obtain ⟨own', l', books', -⟩ := step.step books
    obtain ⟨parent', record'⟩ := step.leavesDead books dead still
    exact ⟨⟨own', l', books'⟩, still, parent', by rw [record', record]⟩
  rcases (wait_takes books ready addr).ok waited with procs | ⟨np, taken⟩
  · rw [procs, dead] at gone
    cases gone
  have apart : parent ≠ np := by
    rintro rfl
    exact ready.ne_zombie taken.dead
  obtain rfl : child = np := by
    by_contra other
    rw [taken.procs, Function.update_of_ne other, dead] at gone
    cases gone
  refine ⟨taken.child, ?_, fun asked j below => ?_⟩
  · rw [taken.result, record]
    exact congrArg Nat.cast pid
  · rw [taken.procs, Function.update_of_ne apart, taken.status asked j below, record]
    exact congrArg (fun x => some (leByte x j)) status

/-- A child exits with status 14, and its parent forks again before it waits. -/
theorem exit_status_delivered_late : ∃ k k' : Kernel, (k.procs 1).state = .zombie ∧ (k'.procs 1).state = .unused ∧
    (k'.procs 2).state = .runnable ∧ userAt k'.vm (k'.procs 0).pagetable 16 = some 14 := by
  have boot := bootKernel_booted 30 (by decide)
  obtain ⟨r, k', returned, facts⟩ := outcome_some (m := do
      Deed.userinit.run smallLayout
      doAll smallLayout [.trap 0 (asking SYS_FORK), .ecall 0, .trap 1 (asking SYS_EXIT)]
      let k₁ ← gets id
      stopIf (¬ (k₁.vm.load ((k₁.procs 1).trapframe + A7) % UINT = SYS_EXIT ∧ (k₁.procs 1).killed = false ∧
        arg k₁ 1 0 = 14)) .fault
      doAll smallLayout [.ecall 1]
      doAll smallLayout [.ecall 0]
      let k ← gets id
      stopIf (¬ ((k.procs 0).state = .runnable ∧ (k.procs 1).state = .zombie)) .fault
      wait smallLayout 0 16)
    (k := bootKernel 30) (f := fun k => ((k.procs 1).state, (k.procs 2).state)) (b := (.unused, .runnable))
    (by decide +kernel)
  obtain ⟨gone, again⟩ := Prod.ext_iff.mp facts
  obtain ⟨_, _, start, rest⟩ := bind_ok.mp returned
  obtain ⟨_, k₁, past, rest⟩ := bind_ok.mp rest
  obtain ⟨_, _, read, rest⟩ := bind_ok.mp rest
  obtain ⟨rfl, rfl⟩ := gets_ok.mp read
  obtain ⟨_, _, checked, rest⟩ := bind_ok.mp rest
  obtain ⟨asked, rfl⟩ := stopIf_ok.mp checked
  obtain ⟨number, alive, status⟩ := not_not.mp asked
  obtain ⟨_, k₂, exited, rest⟩ := bind_ok.mp rest
  obtain ⟨_, k, forked, rest⟩ := bind_ok.mp rest
  obtain ⟨_, _, read, rest⟩ := bind_ok.mp rest
  obtain ⟨rfl, rfl⟩ := gets_ok.mp read
  obtain ⟨_, _, checked, waited⟩ := bind_ok.mp rest
  obtain ⟨still, rfl⟩ := stopIf_ok.mp checked
  obtain ⟨ready, dead⟩ := not_not.mp still
  have exits := (doAll_trace (P := fun _ => True) exited fun _ _ => trivial).of_single.1
  have forks := (doAll_trace (P := fun _ => True) forked fun _ _ => trivial).of_single.1
  obtain ⟨-, -, bytes⟩ := exit_status_delivered boot (started boot start past) number alive exits (.single ⟨forks, dead⟩)
    (.inr (.inl ready)) waited gone
  refine ⟨k, k', dead, gone, again, ?_⟩
  have byte := bytes (by decide) 0 (by decide)
  rwa [show arg k₁ 1 0 = 14 from status] at byte

end Status

end HaloOS
