import HaloOS.Kernel.Model
import HaloOS.Lib.Owned
import HaloOS.Lib.Trace

/-! The scheduler: `scheduler`, `sched`, `swtch` and the calls that give the hart up or
change the state of another process, `proc.c`. A step runs from one acquire or release of
a `slock`, or one half of a `swtch`, to the next. A `slock` is acquired by the scheduler
and released by the process it switched to, and the other way round: its owner is the
hart. -/

namespace HaloOS.Scheduler

open Lib

/-- The caller of `sched` that a saved context returns to. -/
inductive Resume where
  | forkret
  | yield
  | sleep
  | exit
  deriving DecidableEq

/-- Where a hart stands, and on whose stack: on its own up to `chosen` and at `back`, on
the kernel stack of `p` in between. -/
inductive Pc (n : ℕ) where
  /-- Before `acquire(&p->slock)` in the loop of `scheduler`. -/
  | scan (p : Fin n)
  /-- Before the test of `p->state`. -/
  | test (p : Fin n)
  /-- `p->state` and `c->p` are set, before the switch. -/
  | chosen (p : Fin n)
  /-- Switched to, with the `slock` the scheduler acquired. -/
  | resumed (p : Fin n)
  /-- In user space or in the kernel, without `p->slock`. -/
  | running (p : Fin n)
  /-- In `sched`, called from `caller` with `p->slock`. -/
  | sched (p : Fin n) (caller : Resume)
  /-- In `swtch`, `p->cont` stored and `c->context` not yet loaded. -/
  | saved (p : Fin n)
  /-- Back in `scheduler`, before `c->p = 0`. -/
  | back (p : Fin n)
  /-- At the `panic` that ends `exit`. -/
  | panicked (p : Fin n)
  deriving DecidableEq

/-- The fields of `procs` and `cpus` that scheduling uses, for `m` harts and `n` slots.
`saved p` tells that `p->cont` is where `p` goes on; a switch to `p` uses it up. `child p`
is the process that a `fork` of `p` has allocated and not yet made `RUNNABLE`. -/
structure State (m n : ℕ) where
  state : Fin n → ProcState
  chan : Fin n → Option ℕ
  cont : Fin n → Resume
  saved : Fin n → Bool
  child : Fin n → Option (Fin n)
  slock : Fin n → Option (Fin m)
  cur : Fin m → Option (Fin n)
  pc : Fin m → Pc n

variable {m n : ℕ}

namespace State

def setState (s : State m n) (p : Fin n) (v : ProcState) : State m n :=
  { s with state := Function.update s.state p v }

def setChan (s : State m n) (p : Fin n) (v : Option ℕ) : State m n :=
  { s with chan := Function.update s.chan p v }

def setCont (s : State m n) (p : Fin n) (v : Resume) : State m n :=
  { s with
    cont := Function.update s.cont p v
    saved := Function.update s.saved p true }

def useCont (s : State m n) (p : Fin n) : State m n :=
  { s with saved := Function.update s.saved p false }

def setChild (s : State m n) (p : Fin n) (v : Option (Fin n)) : State m n :=
  { s with child := Function.update s.child p v }

def setSlock (s : State m n) (p : Fin n) (v : Option (Fin m)) : State m n :=
  { s with slock := Function.update s.slock p v }

def setCur (s : State m n) (h : Fin m) (v : Option (Fin n)) : State m n :=
  { s with cur := Function.update s.cur h v }

def goto (s : State m n) (h : Fin m) (pc : Pc n) : State m n :=
  { s with pc := Function.update s.pc h pc }

end State

/-- The process on the hart: the one `c->p` is to name. -/
def Pc.proc : Pc n → Option (Fin n)
  | .scan _ | .test _ => none
  | .chosen p | .resumed p | .running p | .sched p _ | .saved p | .back p
  | .panicked p => some p

/-- The `slock` held. -/
def Pc.slock : Pc n → Option (Fin n)
  | .scan _ | .running _ => none
  | .test p | .chosen p | .resumed p | .sched p _ | .saved p | .back p
  | .panicked p => some p

/-- The process whose kernel stack is in use. -/
def Pc.stack : Pc n → Option (Fin n)
  | .scan _ | .test _ | .chosen _ | .back _ => none
  | .resumed p | .running p | .sched p _ | .saved p | .panicked p => some p

/-- The process that is to be `RUNNING`. -/
def Pc.active : Pc n → Option (Fin n)
  | .chosen p | .resumed p | .running p | .panicked p => some p
  | _ => none

/-- The process whose context is on the hart and nowhere else. -/
def Pc.unsaved : Pc n → Option (Fin n)
  | .resumed p | .running p | .sched p _ | .panicked p => some p
  | _ => none

theorem Pc.proc_of_active {pc : Pc n} {p : Fin n} (active : pc.active = some p) :
    pc.proc = some p := by
  cases pc <;> simp_all [Pc.active, Pc.proc]

theorem Pc.proc_of_unsaved {pc : Pc n} {p : Fin n} (unsaved : pc.unsaved = some p) :
    pc.proc = some p := by
  cases pc <;> simp_all [Pc.unsaved, Pc.proc]

theorem Pc.proc_of_stack {pc : Pc n} {p : Fin n} (stack : pc.stack = some p) :
    pc.proc = some p := by
  cases pc <;> simp_all [Pc.stack, Pc.proc]

/-- Off its `slock` a hart runs the process it names. -/
theorem Pc.active_or_slock {pc : Pc n} {p : Fin n} (proc : pc.proc = some p) :
    pc.active = some p ∨ pc.slock = some p := by
  cases pc <;> simp_all [Pc.active, Pc.slock, Pc.proc]

/-- What a step shows of itself. -/
inductive Event (m n : ℕ) where
  | run (h : Fin m)
  /-- The hart switches into `p->cont`. -/
  | swtch (h : Fin m) (p : Fin n)
  /-- The hart stores `p->cont`. -/
  | save (h : Fin m) (p : Fin n)
  /-- The hart leaves the kernel stack of `p`. -/
  | leave (h : Fin m) (p : Fin n)

variable [NeZero n]

/-- One step of one hart. The process that runs on a hart reads itself from `c->p`; that
this is the process whose stack it runs on is `Inv.cur` below. -/
inductive Step : State m n → Event m n → State m n → Prop where
  | acquire {s : State m n} {h : Fin m} {p : Fin n} (at_ : s.pc h = .scan p)
      (free : s.slock p = none) :
      Step s (.run h) ((s.setSlock p (some h)).goto h (.test p))
  | skip {s : State m n} {h : Fin m} {p : Fin n} (at_ : s.pc h = .test p)
      (unready : s.state p ≠ .runnable) :
      Step s (.run h) ((s.setSlock p none).goto h (.scan (p + 1)))
  | choose {s : State m n} {h : Fin m} {p : Fin n} (at_ : s.pc h = .test p)
      (ready : s.state p = .runnable) :
      Step s (.run h) (((s.setState p .running).setCur h (some p)).goto h (.chosen p))
  | swtch {s : State m n} {h : Fin m} {p : Fin n} (at_ : s.pc h = .chosen p) :
      Step s (.swtch h p) ((s.useCont p).goto h (.resumed p))
  /-- The release in `forkret` or `yield`. -/
  | proceed {s : State m n} {h : Fin m} {p : Fin n} (at_ : s.pc h = .resumed p)
      (caller : s.cont p = .forkret ∨ s.cont p = .yield) :
      Step s (.run h) ((s.setSlock p none).goto h (.running p))
  /-- The end of `sleep`. -/
  | awake {s : State m n} {h : Fin m} {p : Fin n} (at_ : s.pc h = .resumed p)
      (caller : s.cont p = .sleep) :
      Step s (.run h) (((s.setChan p none).setSlock p none).goto h (.running p))
  /-- A return from `sched` in `exit`. -/
  | panic {s : State m n} {h : Fin m} {p : Fin n} (at_ : s.pc h = .resumed p)
      (caller : s.cont p = .exit) : Step s (.run h) (s.goto h (.panicked p))
  | yield {s : State m n} {h : Fin m} {p : Fin n} (at_ : s.pc h = .running p)
      (free : s.slock p = none) :
      Step s (.run h)
        (((s.setSlock p (some h)).setState p .runnable).goto h (.sched p .yield))
  | sleep {s : State m n} {h : Fin m} {p : Fin n} {c : ℕ} (at_ : s.pc h = .running p)
      (free : s.slock p = none) (out : s.child p = none) :
      Step s (.run h) ((((s.setSlock p (some h)).setChan p (some c)).setState p
        .sleeping).goto h (.sched p .sleep))
  | exit {s : State m n} {h : Fin m} {p : Fin n} (at_ : s.pc h = .running p)
      (free : s.slock p = none) (out : s.child p = none) :
      Step s (.run h)
        (((s.setSlock p (some h)).setState p .zombie).goto h (.sched p .exit))
  | save {s : State m n} {h : Fin m} {p : Fin n} {caller : Resume}
      (at_ : s.pc h = .sched p caller) :
      Step s (.save h p) ((s.setCont p caller).goto h (.saved p))
  | leave {s : State m n} {h : Fin m} {p : Fin n} (at_ : s.pc h = .saved p) :
      Step s (.leave h p) (s.goto h (.back p))
  | finish {s : State m n} {h : Fin m} {p : Fin n} (at_ : s.pc h = .back p) :
      Step s (.run h) (((s.setCur h none).setSlock p none).goto h (.scan (p + 1)))
  /-- The turn of `q` in a `wakeup`, called by a process or from an interrupt. -/
  | wakeup {s : State m n} {h : Fin m} {q : Fin n} {c : ℕ} (outside : (s.pc h).slock = none)
      (another : s.cur h ≠ some q) (free : s.slock q = none)
      (asleep : s.state q = .sleeping) (chan : s.chan q = some c) :
      Step s (.run h) (s.setState q .runnable)
  /-- `wait` finds a dead child `q` and frees it. -/
  | reap {s : State m n} {h : Fin m} {p q : Fin n} (at_ : s.pc h = .running p)
      (out : s.child p = none) (free : s.slock q = none) (dead : s.state q = .zombie) :
      Step s (.run h) ((s.setChan q none).setState q .unused)
  /-- `fork` up to the release of the child's `slock`. -/
  | fork {s : State m n} {h : Fin m} {p q : Fin n} (at_ : s.pc h = .running p)
      (out : s.child p = none) (free : s.slock q = none) (unused : s.state q = .unused) :
      Step s (.run h) (((s.setCont q .forkret).setState q .used).setChild p (some q))
  /-- `fork` without the memory for the child: `freeproc`. -/
  | forkFail {s : State m n} {h : Fin m} {p q : Fin n} (at_ : s.pc h = .running p)
      (out : s.child p = none) (free : s.slock q = none) (unused : s.state q = .unused) :
      Step s (.run h) (((s.setCont q .forkret).setChan q none).setState q .unused)
  /-- The last critical section of `fork`: the store is unconditional. -/
  | ready {s : State m n} {h : Fin m} {p q : Fin n} (at_ : s.pc h = .running p)
      (mine : s.child p = some q) (free : s.slock q = none) :
      Step s (.run h) ((s.setState q .runnable).setChild p none)

/-- As `userinit` leaves the table, every hart about to enter the loop of `scheduler`. -/
structure Start (s : State m n) : Prop where
  table : ∀ p, s.state p = .unused ∨
    (s.state p = .runnable ∧ s.cont p = .forkret ∧ s.saved p = true)
  child : ∀ p, s.child p = none
  slock : ∀ p, s.slock p = none
  cur : ∀ h, s.cur h = none
  pc : ∀ h, s.pc h = .scan 0

/-- Who runs, who holds which `slock`, and where each context is. -/
structure Inv (s : State m n) : Prop where
  cur : ∀ h, s.cur h = (s.pc h).proc
  slock : Owned s.slock fun h p => (s.pc h).slock = some p
  one : ∀ h g p, (s.pc h).proc = some p → (s.pc g).proc = some p → h = g
  active : ∀ h p, (s.pc h).active = some p → s.state p = .running
  running : ∀ p, s.state p = .running → ∃ h, (s.pc h).active = some p
  saved : ∀ p, s.state p ≠ .unused → (∀ h, (s.pc h).unsaved ≠ some p) → s.saved p = true
  exiting : ∀ h p, s.pc h = .sched p .exit → s.state p = .zombie
  exited : ∀ p, s.cont p = .exit → s.saved p = true →
    s.state p = .zombie ∨ s.state p = .unused
  resumed : ∀ h p, s.pc h = .resumed p → s.cont p ≠ .exit
  child : ∀ p q, s.child p = some q → s.state q = .used
  parent : ∀ p p' q, s.child p = some q → s.child p' = some q → p = p'

theorem Start.inv {s : State m n} (start : Start s) : Inv s where
  cur := by simp [start.cur, start.pc, Pc.proc]
  slock := by simp [Owned, start.slock, start.pc, Pc.slock]
  one := by simp [start.pc, Pc.proc]
  active := by simp [start.pc, Pc.active]
  running := by
    intro p running
    rcases start.table p with unused | ⟨ready, _⟩
    · simp [unused] at running
    · simp [ready] at running
  saved := by
    intro p used _
    rcases start.table p with unused | ⟨_, _, saved⟩
    · exact absurd unused used
    · exact saved
  exiting := by simp [start.pc]
  exited := by
    intro p exit _
    rcases start.table p with unused | ⟨_, forkret, _⟩
    · exact .inr unused
    · simp [forkret] at exit
  resumed := by simp [start.pc]
  child := by simp [start.child]
  parent := by simp [start.child]

section

attribute [local simp] State.setState State.setChan State.setCont State.useCont
  State.setChild State.setSlock State.setCur State.goto Function.update_apply
attribute [local grind =] Pc.proc Pc.slock Pc.stack Pc.active Pc.unsaved
attribute [local grind →] Pc.proc_of_active Pc.proc_of_unsaved Pc.proc_of_stack
  Pc.active_or_slock

variable {s t : State m n} {e : Event m n}

theorem Step.cur (taken : Step s e t) (inv : Inv s) (h : Fin m) :
    t.cur h = (t.pc h).proc := by
  have cur := inv.cur
  cases taken <;> simp <;> grind

theorem Step.slock (taken : Step s e t) (inv : Inv s) :
    Owned t.slock fun h p => (t.pc h).slock = some p := by
  cases taken with
  | acquire at_ free | yield at_ free | sleep at_ free out | exit at_ free out =>
    refine inv.slock.acquire free ?_
    simp
    grind
  | @skip h p at_ | @proceed h p at_ | @awake h p at_ | @finish h p at_ =>
    refine inv.slock.release (p := h) ?_ ?_
    · simp [at_, Pc.slock]
    · simp
      grind
  | wakeup | reap | fork | forkFail | ready => exact inv.slock
  | _ =>
    refine inv.slock.congr ?_
    simp
    grind

/-- A second hart for `p` could only come from the choice of a `RUNNABLE` process, and
then the first one would hold its `slock`. -/
theorem Step.one (taken : Step s e t) (inv : Inv s) (h g : Fin m) (p : Fin n)
    (first : (t.pc h).proc = some p) (second : (t.pc g).proc = some p) : h = g := by
  have one := inv.one
  have active := inv.active
  have exclusive := @Owned.unique _ _ _ _ inv.slock
  cases taken <;> simp at first second <;> grind

theorem Step.active (taken : Step s e t) (inv : Inv s) (h : Fin m) (p : Fin n)
    (now : (t.pc h).active = some p) : t.state p = .running := by
  have one := inv.one
  have active := inv.active
  have child := inv.child
  have exclusive := @Owned.unique _ _ _ _ inv.slock
  cases taken <;> simp at now ⊢ <;> grind

theorem Step.running (taken : Step s e t) (inv : Inv s) (p : Fin n)
    (now : t.state p = .running) : ∃ h, (t.pc h).active = some p := by
  have one := inv.one
  have active := inv.active
  cases taken with
  | @choose h q at_ ready =>
    by_cases same : p = q
    · exact ⟨h, by simp [same, Pc.active]⟩
    · simp [same] at now
      obtain ⟨g, before⟩ := inv.running p now
      exact ⟨g, by simp; grind⟩
  | _ =>
    simp at now
    obtain ⟨g, before⟩ := inv.running p (by grind)
    exact ⟨g, by simp; grind⟩

theorem Step.saved (taken : Step s e t) (inv : Inv s) (p : Fin n)
    (used : t.state p ≠ .unused) (off : ∀ h, (t.pc h).unsaved ≠ some p) :
    t.saved p = true := by
  have saved := inv.saved
  have child := inv.child
  cases taken with
  | @swtch h q at_ =>
    have here := off h
    simp at *
    grind
  | @save h q caller at_ =>
    by_cases same : p = q
    · simp [same]
    · simp [same] at used off ⊢
      exact saved p used (by grind)
  | _ =>
    simp at *
    grind

theorem Step.exiting (taken : Step s e t) (inv : Inv s) (h : Fin m) (p : Fin n)
    (at_ : t.pc h = .sched p .exit) : t.state p = .zombie := by
  have one := inv.one
  have active := inv.active
  have child := inv.child
  have exiting := inv.exiting
  have exclusive := @Owned.unique _ _ _ _ inv.slock
  have free := @Owned.free _ _ _ _ inv.slock
  cases taken <;> simp at at_ ⊢ <;> grind

theorem Step.exited (taken : Step s e t) (inv : Inv s) (p : Fin n)
    (exit : t.cont p = .exit) (saved : t.saved p = true) :
    t.state p = .zombie ∨ t.state p = .unused := by
  have exiting := inv.exiting
  have exited := inv.exited
  have active := inv.active
  have child := inv.child
  have exclusive := @Owned.unique _ _ _ _ inv.slock
  cases taken <;> simp at exit saved ⊢ <;> grind

theorem Step.resumed (taken : Step s e t) (inv : Inv s) (h : Fin m) (p : Fin n)
    (at_ : t.pc h = .resumed p) : t.cont p ≠ .exit := by
  have resumed := inv.resumed
  have exited := inv.exited
  have active := inv.active
  have saved := inv.saved
  have one := inv.one
  have exclusive := @Owned.unique _ _ _ _ inv.slock
  cases taken <;> simp at at_ ⊢ <;> grind

theorem Step.child (taken : Step s e t) (inv : Inv s) (p q : Fin n)
    (mine : t.child p = some q) : t.state q = .used := by
  have child := inv.child
  have parent := inv.parent
  have active := inv.active
  cases taken <;> simp at mine ⊢ <;> grind

theorem Step.parent (taken : Step s e t) (inv : Inv s) (p p' q : Fin n)
    (one : t.child p = some q) (two : t.child p' = some q) : p = p' := by
  have child := inv.child
  have parent := inv.parent
  cases taken <;> simp at one two ⊢ <;> grind

theorem Inv.step (inv : Inv s) (taken : Step s e t) : Inv t where
  cur := taken.cur inv
  slock := taken.slock inv
  one := taken.one inv
  active := taken.active inv
  running := taken.running inv
  saved := taken.saved inv
  exiting := taken.exiting inv
  exited := taken.exited inv
  resumed := taken.resumed inv
  child := taken.child inv
  parent := taken.parent inv

omit [NeZero n] in
/-- A hart about to switch to `p` is alone with it. -/
theorem Inv.alone (inv : Inv s) {h : Fin m} {p : Fin n} (at_ : s.pc h = .chosen p)
    (g : Fin m) :
    (s.pc g).unsaved ≠ some p ∧ (s.pc g).stack ≠ some p := by
  have only : (s.pc g).proc = some p → g = h := fun proc =>
    inv.one g h p proc (by simp [at_, Pc.proc])
  constructor <;> grind

end

/-- How far the hart that ran `p` last has come. -/
inductive Stage (m : ℕ) where
  | never
  | ran (h : Fin m)
  | saved (h : Fin m)
  | left (h : Fin m)
  deriving DecidableEq

def Stage.next (p : Fin n) (stage : Stage m) : Event m n → Stage m
  | .run _ => stage
  | .swtch h q => if q = p then .ran h else stage
  | .save h q => if q = p ∧ stage = .ran h then .saved h else stage
  | .leave h q => if q = p ∧ stage = .saved h then .left h else stage

/-- Read off the events of a run. -/
def stage (p : Fin n) (past : List (Event m n)) : Stage m :=
  past.foldl (Stage.next p) .never

/-- What the history of `p` says about the harts now. -/
def Stage.Agrees (s : State m n) (p : Fin n) : Stage m → Prop
  | .never | .left _ => ∀ h, (s.pc h).stack ≠ some p
  | .ran h => (s.pc h).unsaved = some p
  | .saved h => s.pc h = .saved p

section

attribute [local simp] State.setState State.setChan State.setCont State.useCont
  State.setChild State.setSlock State.setCur State.goto Function.update_apply
attribute [local grind =] Pc.proc Pc.slock Pc.stack Pc.active Pc.unsaved
attribute [local grind →] Pc.proc_of_unsaved Pc.proc_of_stack

variable {s t : State m n} {e : Event m n}

omit [NeZero n] in
/-- A step that moves no hart onto or off the stack of `p` and saves no context of it. -/
theorem Stage.Agrees.frame {p : Fin n} {stage : Stage m} (agrees : stage.Agrees s p)
    (stack : ∀ h, (t.pc h).stack = some p → (s.pc h).stack = some p)
    (unsaved : ∀ h, (s.pc h).unsaved = some p → (t.pc h).unsaved = some p)
    (saved : ∀ h, s.pc h = .saved p → t.pc h = .saved p) : stage.Agrees t p := by
  cases stage with
  | never => exact fun h on => agrees h (stack h on)
  | left _ => exact fun h on => agrees h (stack h on)
  | ran g => exact unsaved g agrees
  | saved g => exact saved g agrees

theorem Stage.Agrees.step {p : Fin n} {stage : Stage m} (agrees : stage.Agrees s p)
    (inv : Inv s) (taken : Step s e t) : (stage.next p e).Agrees t p := by
  have one := inv.one
  cases taken with
  | @swtch h q at_ =>
    by_cases same : q = p
    · simp [Stage.next, Stage.Agrees, same, Pc.unsaved]
    · simp only [Stage.next, same, if_false]
      exact agrees.frame (by simp; grind) (by simp; grind) (by simp; grind)
  | @save h q caller at_ =>
    by_cases same : q = p
    · subst same
      have mine : ∀ g, (s.pc g).proc = some q → g = h := fun g proc =>
        inv.one g h q proc (by simp [at_, Pc.proc])
      have last : stage = .ran h := by
        cases stage <;> simp only [Stage.Agrees] at agrees <;> grind
      simp [Stage.next, Stage.Agrees, last]
    · simp only [Stage.next, same, false_and, if_false]
      exact agrees.frame (by simp; grind) (by simp; grind) (by simp; grind)
  | @leave h q at_ =>
    by_cases same : q = p
    · subst same
      have mine : ∀ g, (s.pc g).proc = some q → g = h := fun g proc =>
        inv.one g h q proc (by simp [at_, Pc.proc])
      have last : stage = .saved h := by
        cases stage <;> simp only [Stage.Agrees] at agrees <;> grind
      simp [Stage.next, Stage.Agrees, last]
      grind
    · simp only [Stage.next, same, false_and, if_false]
      exact agrees.frame (by simp; grind) (by simp; grind) (by simp; grind)
  | wakeup | reap | fork | forkFail | ready =>
    exact agrees.frame (fun _ => id) (fun _ => id) (fun _ => id)
  | _ => exact agrees.frame (by simp; grind) (by simp; grind) (by simp; grind)

end

theorem Start.tracked {start s : State m n} {past : List (Event m n)} (initial : Start start)
    (run : Trace Step start past s) : Inv s ∧ ∀ p, (stage p past).Agrees s p := by
  refine run.invariant (fun past s => Inv s ∧ ∀ p, (stage p past).Agrees s p)
    ⟨initial.inv, ?_⟩ ?_
  · intro p h
    simp [initial.pc, Pc.stack]
  · rintro past s e t ⟨inv, agrees⟩ taken
    refine ⟨inv.step taken, fun p => ?_⟩
    simpa [stage] using (agrees p).step inv taken

/-- The scheduler gives each process to at most one hart, its `state` tells whether a hart
has it, and a switch goes to a process that was `RUNNABLE`, whose context is saved and
whose stack the hart that ran it last has left. -/
theorem scheduler_correct {start s : State m n} {past : List (Event m n)}
    (initial : Start start) (run : Trace Step start past s) :
    (∀ h g p, s.cur h = some p → s.cur g = some p → h = g) ∧
    (∀ p, s.slock p = none → (s.state p = .running ↔ ∃! h, s.cur h = some p)) ∧
    (∀ h p t, Step s (.swtch h p) t →
      (stage p past = .never ∨ ∃ g, stage p past = .left g) ∧ s.saved p = true ∧
      (∀ g, (s.pc g).stack ≠ some p)) ∧
    (∀ h p t, Step s (.swtch h p) t →
      s.state p ≠ .unused ∧ s.state p ≠ .sleeping ∧ s.state p ≠ .zombie) := by
  obtain ⟨inv, agrees⟩ := initial.tracked run
  refine ⟨?_, ?_, ?_, ?_⟩
  · intro h g p first second
    rw [inv.cur] at first second
    exact inv.one h g p first second
  · intro p free
    constructor
    · intro running
      obtain ⟨h, active⟩ := inv.running p running
      have proc := Pc.proc_of_active active
      refine ⟨h, (inv.cur h).trans proc, ?_⟩
      intro g named
      exact inv.one g h p ((inv.cur g).symm.trans named) proc
    · rintro ⟨h, named, _⟩
      rw [inv.cur] at named
      rcases Pc.active_or_slock named with active | held
      · exact inv.active h p active
      · exact absurd held (inv.slock.free free h)
  · intro h p t switched
    cases switched with
    | swtch at_ =>
      have alone := inv.alone at_
      have running := inv.active h p (by simp [at_, Pc.active])
      refine ⟨?_, inv.saved p (by simp [running]) fun g => (alone g).1, fun g => (alone g).2⟩
      have history := agrees p
      cases last : stage p past with
      | never => exact .inl rfl
      | left g => exact .inr ⟨g, rfl⟩
      | ran g =>
        rw [last] at history
        exact absurd history (alone g).1
      | saved g =>
        rw [last] at history
        exact absurd (congrArg Pc.stack history) (alone g).2
  · intro h p t switched
    cases switched with
    | swtch at_ =>
      have running := inv.active h p (by simp [at_, Pc.active])
      simp [running]

attribute [local instance] neZero_two in
/-- Two harts, and one process besides the empty slots. -/
def boot : State 2 2 where
  state p := if p = 0 then .runnable else .unused
  chan _ := none
  cont _ := .forkret
  saved _ := true
  child _ := none
  slock _ := none
  cur _ := none
  pc _ := .scan 0

theorem boot_start : Start boot where
  table := by decide
  child := fun _ => rfl
  slock := fun _ => rfl
  cur := fun _ => rfl
  pc := fun _ => rfl

/-- Hart 0 runs the process up to a `yield` and hart 1 chooses it next. -/
theorem boot_run : ∃ past s t, Trace Step boot past s ∧ Step s (.swtch 1 0) t ∧
    past = [.run 0, .run 0, .swtch 0 0, .run 0, .run 0, .save 0 0, .leave 0 0, .run 0,
      .run 1, .run 1] := by
  have run := ((((((((((Trace.nil : Trace Step boot [] boot).snoc
    (.acquire (h := 0) (p := 0) rfl rfl)).snoc (.choose (h := 0) (p := 0) rfl rfl)).snoc
    (.swtch (h := 0) (p := 0) rfl)).snoc (.proceed (h := 0) (p := 0) rfl (.inl rfl))).snoc
    (.yield (h := 0) (p := 0) rfl rfl)).snoc (.save (h := 0) (p := 0) rfl)).snoc
    (.leave (h := 0) (p := 0) rfl)).snoc (.finish (h := 0) (p := 0) rfl)).snoc
    (.acquire (h := 1) (p := 0) rfl rfl)).snoc (.choose (h := 1) (p := 0) rfl rfl)
  exact ⟨_, _, _, run, .swtch (h := 1) (p := 0) rfl, rfl⟩

theorem scheduler_correct_boot : ∃ past s t, Trace Step boot past s ∧
    Step s (.swtch 1 0) t ∧ stage 0 past = .left 0 ∧ s.saved 0 = true ∧
    ∀ g, (s.pc g).stack ≠ some 0 := by
  obtain ⟨past, s, t, run, switched, same⟩ := boot_run
  obtain ⟨_, _, alone, _⟩ := scheduler_correct boot_start run
  obtain ⟨_, saved, off⟩ := alone 1 0 t switched
  refine ⟨past, s, t, run, switched, ?_, saved, off⟩
  rw [same]
  decide

end HaloOS.Scheduler
