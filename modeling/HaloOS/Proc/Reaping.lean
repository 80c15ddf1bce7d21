import HaloOS.Kernel.Model
import HaloOS.Lib.Owned
import HaloOS.Lib.Trace

/-! How processes are made, end and are reaped: `fork`, `exit`, `reparent` and `wait` of
`proc.c`, with `sleep`, `wakeup` and the scheduler's part in them. A step runs from one
acquire or release of `wait_lock` or of a `slock` to the next. There is no bound on the
processes that are `RUNNING` at once, so that runs on every number of harts are among the
runs here. `nextPid` does not wrap: a run has fewer forks than an `int` has positive
values. -/

namespace HaloOS.Reaping

open Lib

/-- What `exit` does after a `wakeup`: go on in `reparent` behind slot `k`, or die. -/
inductive After (n : ℕ) where
  | reparent (k : Fin n)
  | die
  deriving DecidableEq

/-- Where a process stands in its calls. -/
inductive Pc (n : ℕ) where
  | user
  /-- In `fork`, with the `slock` of the new process `q`. -/
  | forkFill (q : Fin n)
  /-- In `fork`, before `acquire(&wait_lock)`. -/
  | forkLink (q : Fin n)
  /-- In `fork`, before the last `acquire(&p->slock)`. -/
  | forkReady (q : Fin n)
  /-- In `reparent`, before the turn of slot `k`. -/
  | reparent (k : ℕ)
  /-- In `wakeup(chan)` from `exit`, before the turn of slot `j`. -/
  | wake (chan : Option (Fin n)) (after : After n) (j : ℕ)
  /-- In `wakeup(chan)` from `exit`, with the `slock` of slot `j`. -/
  | visit (chan : Option (Fin n)) (after : After n) (j : Fin n)
  /-- In `exit`, a `ZOMBIE` with both locks. -/
  | zombie
  /-- In the `sched` of `exit`. -/
  | gone
  | dead
  /-- In `wait`, before the turn of slot `k`. -/
  | scan (k : ℕ) (havekids : Bool)
  /-- In `wait`, with the `slock` of the child `k`. -/
  | child (k : Fin n)
  /-- In `wait`, before the last `release(&wait_lock)`. -/
  | reaped
  /-- In `sleep` from `wait`, with both locks, before `release(lk)`. -/
  | sleepRelease
  /-- In `sleep`, before the stores to `chan` and `state`. -/
  | sleepMark
  /-- Switched away from in `sleep`. -/
  | asleep
  /-- Switched back to in `sleep`, the scheduler's `slock` in hand. -/
  | woken
  /-- In `sleep`, before `acquire(lk)`. -/
  | again
  deriving DecidableEq

/-- `p->chan`: nothing, the address of a process, or of something else. -/
inductive Chan (n : ℕ) where
  | null
  | proc (q : Fin n)
  | other (a : ℕ)
  deriving DecidableEq

/-- The channel that a pointer to a process is. -/
def Chan.of : Option (Fin n) → Chan n
  | some q => .proc q
  | none => .null

/-- A slot of `procs`; `status` is the argument of `exit`, and `linked` tells that `fork`
has set `parent` since the slot was last freed. -/
structure Thread (n : ℕ) where
  pc : Pc n := .user
  state : ProcState := .unused
  chan : Chan n := .null
  pid : ℕ := 0
  parent : Option (Fin n) := none
  xstate : ℕ := 0
  status : ℕ := 0
  linked : Bool := false
  deriving DecidableEq

structure State (n : ℕ) where
  nextPid : ℕ := 1
  waitLock : Option (Fin n) := none
  slock : Fin n → Option (Fin n) := fun _ => none
  procs : Fin n → Thread n := fun _ => {}

variable {n : ℕ}

def State.setProc (s : State n) (p : Fin n) (f : Thread n → Thread n) : State n :=
  { s with procs := Function.update s.procs p (f (s.procs p)) }

def State.goto (s : State n) (p : Fin n) (pc : Pc n) : State n :=
  s.setProc p ({ · with pc })

def State.setSlock (s : State n) (k : Fin n) (owner : Option (Fin n)) : State n :=
  { s with slock := Function.update s.slock k owner }

def State.setWait (s : State n) (owner : Option (Fin n)) : State n :=
  { s with waitLock := owner }

section

variable (s : State n) (p q k : Fin n) (f : Thread n → Thread n) (pc : Pc n)
  (owner : Option (Fin n))

@[simp, grind =] theorem State.setProc_nextPid : (s.setProc p f).nextPid = s.nextPid := rfl

@[simp, grind =] theorem State.setProc_waitLock : (s.setProc p f).waitLock = s.waitLock := rfl

@[simp, grind =] theorem State.setProc_slock : (s.setProc p f).slock q = s.slock q := rfl

@[simp, grind =] theorem State.setProc_procs :
    (s.setProc p f).procs q = if q = p then f (s.procs p) else s.procs q := by
  simp [State.setProc, Function.update_apply]

@[simp, grind =] theorem State.goto_nextPid : (s.goto p pc).nextPid = s.nextPid := rfl

@[simp, grind =] theorem State.goto_waitLock : (s.goto p pc).waitLock = s.waitLock := rfl

@[simp, grind =] theorem State.goto_slock : (s.goto p pc).slock q = s.slock q := rfl

@[simp, grind =] theorem State.goto_procs :
    (s.goto p pc).procs q = if q = p then { s.procs p with pc } else s.procs q := by
  simp [State.goto]

@[simp, grind =] theorem State.setSlock_nextPid : (s.setSlock k owner).nextPid = s.nextPid := rfl

@[simp, grind =] theorem State.setSlock_waitLock :
    (s.setSlock k owner).waitLock = s.waitLock := rfl

@[simp, grind =] theorem State.setSlock_procs :
    (s.setSlock k owner).procs q = s.procs q := rfl

@[simp, grind =] theorem State.setSlock_slock :
    (s.setSlock k owner).slock q = if q = k then owner else s.slock q := by
  simp [State.setSlock, Function.update_apply]

@[simp, grind =] theorem State.setWait_nextPid : (s.setWait owner).nextPid = s.nextPid := rfl

@[simp, grind =] theorem State.setWait_waitLock : (s.setWait owner).waitLock = owner := rfl

@[simp, grind =] theorem State.setWait_procs : (s.setWait owner).procs q = s.procs q := rfl

@[simp, grind =] theorem State.setWait_slock : (s.setWait owner).slock q = s.slock q := rfl

end

/-- The body of the loop in `wakeup` for a slot other than the caller's. -/
def Thread.wakeup (c : Option (Fin n)) (r : Thread n) : Thread n :=
  if r.state = .sleeping ∧ r.chan = .of c then { r with state := .runnable } else r

def Thread.freeproc (r : Thread n) : Thread n :=
  { r with pid := 0, chan := .null, parent := none, linked := false, state := .unused }

/-- `wait_lock` is held. -/
def Pc.inner : Pc n → Bool
  | .reparent _ | .wake _ _ _ | .visit _ _ _ | .zombie | .scan _ _ | .child _ | .reaped
  | .sleepRelease => true
  | _ => false

/-- Places where a process holds no spinlock and is not switched away from in `sleep`. -/
def Pc.preemptible : Pc n → Bool
  | .user | .forkLink _ | .forkReady _ | .again => true
  | _ => false

/-- The slot whose `slock` is held by a process `me` at this place. -/
def Pc.slock (me : Fin n) : Pc n → Option (Fin n)
  | .forkFill q => some q
  | .visit _ _ j => some j
  | .child k => some k
  | .zombie | .gone | .sleepRelease | .sleepMark | .woken => some me
  | _ => none

/-- Process `p` holds the `slock` of slot `k`. -/
def State.HoldsSlock (s : State n) (p k : Fin n) : Prop := (s.procs p).pc.slock p = some k

/-- What a step shows of itself. -/
inductive Event (n : ℕ) where
  | run (p : Fin n)
  /-- A process with this pid calls `exit(status)`. -/
  | exit (pid status : ℕ)
  /-- `wait` of `p` finds the child `q`: it returns the pid and stores the status. -/
  | wait (p q : Fin n) (pid status : ℕ)
  /-- `wait` of `p` returns -1. -/
  | childless (p : Fin n)
  deriving DecidableEq

variable (init : Fin n)

/-- One step of one process or of the scheduler. Nobody is killed, and `init` does not
exit. -/
inductive Step : State n → Event n → State n → Prop where
  /-- `fork` calls `allocproc`. -/
  | fork {s : State n} {p q : Fin n} (at_ : (s.procs p).pc = .user)
      (running : (s.procs p).state = .running) (unused : (s.procs q).state = .unused)
      (free : s.slock q = none) :
      Step s (.run p) ((({ s with nextPid := s.nextPid + 1 }.setSlock q (some p)).setProc q
        ({ · with pc := .user, pid := s.nextPid, state := .used })).goto p (.forkFill q))
  /-- `uvmcopy` fails. -/
  | forkFail {s : State n} {p q : Fin n} (at_ : (s.procs p).pc = .forkFill q) :
      Step s (.run p) (((s.setSlock q none).setProc q Thread.freeproc).goto p .user)
  | forkRelease {s : State n} {p q : Fin n} (at_ : (s.procs p).pc = .forkFill q) :
      Step s (.run p) ((s.setSlock q none).goto p (.forkLink q))
  | forkLink {s : State n} {p q : Fin n} (at_ : (s.procs p).pc = .forkLink q)
      (running : (s.procs p).state = .running) (free : s.waitLock = none) :
      Step s (.run p)
        ((s.setProc q ({ · with parent := some p, linked := true })).goto p (.forkReady q))
  | forkReady {s : State n} {p q : Fin n} (at_ : (s.procs p).pc = .forkReady q)
      (running : (s.procs p).state = .running) (free : s.slock q = none) :
      Step s (.run p) ((s.setProc q ({ · with state := .runnable })).goto p .user)
  | exit {s : State n} {p : Fin n} {status : ℕ} (at_ : (s.procs p).pc = .user)
      (running : (s.procs p).state = .running) (other : p ≠ init) (free : s.waitLock = none) :
      Step s (.exit (s.procs p).pid status)
        ((s.setWait (some p)).setProc p ({ · with pc := .reparent 0, status }))
  | reparentSkip {s : State n} {p k : Fin n} (at_ : (s.procs p).pc = .reparent k)
      (other : (s.procs k).parent ≠ some p) : Step s (.run p) (s.goto p (.reparent (k + 1)))
  | reparentMove {s : State n} {p k : Fin n} (at_ : (s.procs p).pc = .reparent k)
      (mine : (s.procs k).parent = some p) :
      Step s (.run p) ((s.setProc k ({ · with parent := some init })).goto p
        (.wake (some init) (.reparent k) 0))
  | reparentDone {s : State n} {p : Fin n} (at_ : (s.procs p).pc = .reparent n) :
      Step s (.run p) (s.goto p (.wake (s.procs p).parent .die 0))
  | wakeSkip {s : State n} {p : Fin n} {c : Option (Fin n)} {after : After n}
      (at_ : (s.procs p).pc = .wake c after p) :
      Step s (.run p) (s.goto p (.wake c after (p + 1)))
  | wakeAcquire {s : State n} {p j : Fin n} {c : Option (Fin n)} {after : After n}
      (at_ : (s.procs p).pc = .wake c after j) (another : j ≠ p) (free : s.slock j = none) :
      Step s (.run p) ((s.setSlock j (some p)).goto p (.visit c after j))
  | wakeVisit {s : State n} {p j : Fin n} {c : Option (Fin n)} {after : After n}
      (at_ : (s.procs p).pc = .visit c after j) :
      Step s (.run p)
        (((s.setSlock j none).setProc j (Thread.wakeup c)).goto p (.wake c after (j + 1)))
  | wakeNext {s : State n} {p k : Fin n} {c : Option (Fin n)}
      (at_ : (s.procs p).pc = .wake c (.reparent k) n) :
      Step s (.run p) (s.goto p (.reparent (k + 1)))
  | die {s : State n} {p : Fin n} {c : Option (Fin n)} (at_ : (s.procs p).pc = .wake c .die n)
      (free : s.slock p = none) :
      Step s (.run p) ((s.setSlock p (some p)).setProc p fun r =>
        { r with pc := .zombie, xstate := r.status, state := .zombie })
  | exitRelease {s : State n} {p : Fin n} (at_ : (s.procs p).pc = .zombie) :
      Step s (.run p) ((s.setWait none).goto p .gone)
  /-- The switch to the scheduler and its `release`. -/
  | exitSched {s : State n} {p : Fin n} (at_ : (s.procs p).pc = .gone) :
      Step s (.run p) ((s.setSlock p none).goto p .dead)
  | wait {s : State n} {p : Fin n} (at_ : (s.procs p).pc = .user)
      (running : (s.procs p).state = .running) (free : s.waitLock = none) :
      Step s (.run p) ((s.setWait (some p)).goto p (.scan 0 false))
  | scanSkip {s : State n} {p k : Fin n} {havekids : Bool}
      (at_ : (s.procs p).pc = .scan k havekids) (other : (s.procs k).parent ≠ some p) :
      Step s (.run p) (s.goto p (.scan (k + 1) havekids))
  | scanAcquire {s : State n} {p k : Fin n} {havekids : Bool}
      (at_ : (s.procs p).pc = .scan k havekids) (mine : (s.procs k).parent = some p)
      (free : s.slock k = none) :
      Step s (.run p) ((s.setSlock k (some p)).goto p (.child k))
  | scanAlive {s : State n} {p k : Fin n} (at_ : (s.procs p).pc = .child k)
      (alive : (s.procs k).state ≠ .zombie) :
      Step s (.run p) ((s.setSlock k none).goto p (.scan (k + 1) true))
  | reap {s : State n} {p k : Fin n} (at_ : (s.procs p).pc = .child k)
      (dead : (s.procs k).state = .zombie) :
      Step s (.wait p k (s.procs k).pid (s.procs k).xstate)
        (((s.setSlock k none).setProc k Thread.freeproc).goto p .reaped)
  | waitReturn {s : State n} {p : Fin n} (at_ : (s.procs p).pc = .reaped) :
      Step s (.run p) ((s.setWait none).goto p .user)
  | waitNone {s : State n} {p : Fin n} (at_ : (s.procs p).pc = .scan n false) :
      Step s (.childless p) ((s.setWait none).goto p .user)
  | sleepAcquire {s : State n} {p : Fin n} (at_ : (s.procs p).pc = .scan n true)
      (free : s.slock p = none) :
      Step s (.run p) ((s.setSlock p (some p)).goto p .sleepRelease)
  | sleepRelease {s : State n} {p : Fin n} (at_ : (s.procs p).pc = .sleepRelease) :
      Step s (.run p) ((s.setWait none).goto p .sleepMark)
  /-- The stores of `sleep`, the switch to the scheduler and its `release`. -/
  | sleepMark {s : State n} {p : Fin n} (at_ : (s.procs p).pc = .sleepMark) :
      Step s (.run p) ((s.setSlock p none).setProc p
        ({ · with pc := .asleep, chan := .proc p, state := .sleeping }))
  /-- The scheduler takes the `slock` and switches to a process inside `sleep`. -/
  | dispatchAsleep {s : State n} {p : Fin n} (at_ : (s.procs p).pc = .asleep)
      (ready : (s.procs p).state = .runnable) (free : s.slock p = none) :
      Step s (.run p) ((s.setSlock p (some p)).setProc p
        ({ · with pc := .woken, state := .running }))
  | sleepReturn {s : State n} {p : Fin n} (at_ : (s.procs p).pc = .woken) :
      Step s (.run p) ((s.setSlock p none).setProc p ({ · with pc := .again, chan := .null }))
  | again {s : State n} {p : Fin n} (at_ : (s.procs p).pc = .again)
      (running : (s.procs p).state = .running) (free : s.waitLock = none) :
      Step s (.run p) ((s.setWait (some p)).goto p (.scan 0 false))
  /-- `yield`, from a timer interrupt. -/
  | yield {s : State n} {p : Fin n} (at_ : (s.procs p).pc.preemptible = true)
      (running : (s.procs p).state = .running) (free : s.slock p = none) :
      Step s (.run p) (s.setProc p ({ · with state := .runnable }))
  /-- `sleep` on another channel. -/
  | sleepOther {s : State n} {p : Fin n} {a : ℕ} (at_ : (s.procs p).pc = .user)
      (running : (s.procs p).state = .running) (free : s.slock p = none) :
      Step s (.run p) (s.setProc p ({ · with chan := .other a, state := .sleeping }))
  /-- `wakeup` of another channel. -/
  | wakeOther {s : State n} {p : Fin n} {a : ℕ} (chan : (s.procs p).chan = .other a)
      (sleeps : (s.procs p).state = .sleeping) (free : s.slock p = none) :
      Step s (.run p) (s.setProc p ({ · with state := .runnable }))
  /-- The scheduler switches to a process outside the `sleep` of `wait`. Only a process
  that slept has a channel to clear. -/
  | dispatch {s : State n} {p : Fin n} (at_ : (s.procs p).pc.preemptible = true)
      (ready : (s.procs p).state = .runnable) (free : s.slock p = none) :
      Step s (.run p) (s.setProc p ({ · with state := .running, chan := .null }))

/-- As `userinit` leaves the table. -/
structure Start (s : State n) : Prop where
  pids : s.nextPid = 2
  waitLock : s.waitLock = none
  slock : ∀ p, s.slock p = none
  first : s.procs init = { state := .runnable, pid := 1 }
  rest : ∀ p, p ≠ init → s.procs p = {}

/-- A process that has been made and has not ended. -/
def Thread.Active (r : Thread n) : Prop :=
  r.state = .sleeping ∨ r.state = .runnable ∨ r.state = .running

/-- Inside `fork` or `wait`, or in `exit` before the end. -/
def Pc.busy : Pc n → Bool
  | .user | .zombie | .gone | .dead => false
  | _ => true

/-- In `exit`, from `acquire(&wait_lock)` on. -/
def Pc.exiting : Pc n → Bool
  | .reparent _ | .wake _ _ _ | .visit _ _ _ | .zombie | .gone => true
  | _ => false

/-- The process that `fork` has made and not yet let go. -/
def Pc.forked : Pc n → Option (Fin n)
  | .forkFill q | .forkLink q | .forkReady q => some q
  | _ => none

def After.cleared : After n → ℕ
  | .reparent k => k + 1
  | .die => n

/-- The process that the `wakeup` of a process with this parent is for. -/
def After.target (parent : Option (Fin n)) : After n → Option (Fin n)
  | .reparent _ => some init
  | .die => parent

/-- The slots below this have been through the loop of `reparent`. -/
def Pc.cleared : Pc n → ℕ
  | .reparent k => k
  | .wake _ after _ | .visit _ after _ => after.cleared
  | .zombie | .gone => n
  | _ => 0

/-- The slots below this have been through the loop of `wait`. -/
def Pc.scanned : Pc n → ℕ
  | .scan k _ => k
  | .child k => k
  | .sleepRelease => n
  | _ => 0

/-- The `wakeup` at this place has not yet come to slot `p`, which it is for. -/
def Pc.Ahead (p : Fin n) : Pc n → Prop
  | .wake c _ j => c = some p ∧ j ≤ p
  | .visit c _ j => c = some p ∧ j ≤ p
  | _ => False

/-- The `wakeup` at this place has been at slot `p`, which it is for. -/
def Pc.Past (p : Fin n) : Pc n → Prop
  | .wake c _ j => c = some p ∧ p < j
  | .visit c _ j => c = some p ∧ p < j
  | _ => False

/-- On the way to sleep in `wait`, or asleep there and not yet marked. -/
def Thread.Waits (r : Thread n) : Prop :=
  r.pc = .sleepRelease ∨ r.pc = .sleepMark ∨ (r.pc = .asleep ∧ r.state = .sleeping)

/-- Who holds what, who is whose parent, and that every waiter with a dead child has a
wakeup coming. -/
structure Inv (s : State n) : Prop where
  inner : ∀ p, s.waitLock = some p ↔ (s.procs p).pc.inner = true
  slock : Owned s.slock s.HoldsSlock
  busy : ∀ p, (s.procs p).pc.busy = true → (s.procs p).Active
  dying : ∀ p, (s.procs p).pc = .zombie ∨ (s.procs p).pc = .gone → (s.procs p).state = .zombie
  alive : (s.procs init).Active
  exiting : ∀ p, (s.procs p).pc.exiting = true → p ≠ init
  forked : ∀ p q, (s.procs p).pc.forked = some q → (s.procs q).state = .used
  forker : ∀ p p' q, (s.procs p).pc.forked = some q → (s.procs p').pc.forked = some q → p = p'
  unused : ∀ p, (s.procs p).state = .unused → (s.procs p).parent = none
  unlinked : ∀ p q, (s.procs p).pc = .forkFill q ∨ (s.procs p).pc = .forkLink q →
    (s.procs q).parent = none
  linked : ∀ p, (s.procs p).linked = true ↔ (s.procs p).parent ≠ none
  parents : ∀ p q, (s.procs q).parent = some p → (s.procs p).Active
  cleared : ∀ p q, q.val < (s.procs p).pc.cleared → (s.procs q).parent ≠ some p
  chan : ∀ p q, (s.procs p).chan = .proc q ↔
    q = p ∧ ((s.procs p).pc = .asleep ∨ (s.procs p).pc = .woken)
  woken : ∀ p, (s.procs p).pc = .woken → (s.procs p).state = .running
  target : ∀ p c after, (∀ j, (s.procs p).pc = .wake c after j →
      c = after.target init (s.procs p).parent) ∧
    ∀ j, (s.procs p).pc = .visit c after j → c = after.target init (s.procs p).parent
  passed : ∀ e p, (s.procs e).pc.Past p → ¬ (s.procs p).Waits
  last : ∀ e p, (s.procs e).pc = .zombie → (s.procs e).parent = some p → ¬ (s.procs p).Waits
  child : ∀ p k, (s.procs p).pc = .child k → (s.procs k).parent = some p
  scanned : ∀ p q, q.val < (s.procs p).pc.scanned → (s.procs q).parent = some p →
    (s.procs q).state ≠ .zombie ∧ ∀ k, (s.procs p).pc ≠ .scan k false
  waits : ∀ p q, (s.procs p).Waits → (s.procs q).parent = some p →
    (s.procs q).state = .zombie → ∃ e, (s.procs e).pc.Ahead p

section

attribute [local grind =] After.cleared After.target Pc.inner Pc.slock Pc.preemptible Pc.busy Pc.exiting Pc.forked
  Pc.cleared Pc.scanned Pc.Ahead Pc.Past Chan.of
attribute [local grind] Thread.Active Thread.Waits State.HoldsSlock Thread.wakeup Thread.freeproc

variable {init} {s t : State n} {e : Event n}

theorem Pc.idle_or (pc : Pc n) : pc = .user ∨ pc = .dead ∨ pc = .zombie ∨ pc = .gone ∨
    pc.busy = true := by
  cases pc <;> simp [Pc.busy]

/-- A slot that is free or being filled is in no call. -/
theorem Inv.idle (inv : Inv init s) (p : Fin n)
    (rest : (s.procs p).state = .unused ∨ (s.procs p).state = .used) :
    (s.procs p).pc = .user ∨ (s.procs p).pc = .dead := by
  have busy := inv.busy p
  have dying := inv.dying p
  rcases (s.procs p).pc.idle_or with user | dead | zombie | gone | inside <;> grind

theorem Step.inner (taken : Step init s e t) (inv : Inv init s) (p : Fin n) :
    t.waitLock = some p ↔ (t.procs p).pc.inner = true := by
  have held := inv.inner
  have idle := inv.idle
  cases taken <;> grind

theorem Step.busy (taken : Step init s e t) (inv : Inv init s) (p : Fin n)
    (now : (t.procs p).pc.busy = true) : (t.procs p).Active := by
  have busy := inv.busy
  have idle := inv.idle
  have forked := inv.forked
  cases taken <;> grind

/-- A child whose `slock` is in the hands of its parent has been switched away from. -/
theorem Inv.laid (inv : Inv init s) (p k : Fin n) (at_ : (s.procs p).pc = .child k) :
    (s.procs k).pc ≠ .zombie ∧ (s.procs k).pc ≠ .gone := by
  have mine : s.HoldsSlock p k := by grind
  have only := @Owned.unique _ _ _ _ inv.slock k p k mine
  constructor <;> grind

theorem Step.dying (taken : Step init s e t) (inv : Inv init s) (p : Fin n)
    (now : (t.procs p).pc = .zombie ∨ (t.procs p).pc = .gone) : (t.procs p).state = .zombie := by
  have dying := inv.dying
  have idle := inv.idle
  have forked := inv.forked
  have laid := inv.laid
  cases taken <;> grind

theorem Step.slock (taken : Step init s e t) (inv : Inv init s) :
    Owned t.slock t.HoldsSlock := by
  cases taken with
  | @fork p q at_ running unused free =>
    have idle := inv.idle q (.inl unused)
    exact inv.slock.acquire free (by grind)
  | wakeAcquire at_ another free => exact inv.slock.acquire free (by grind)
  | die at_ free => exact inv.slock.acquire free (by grind)
  | scanAcquire at_ mine free => exact inv.slock.acquire free (by grind)
  | sleepAcquire at_ free => exact inv.slock.acquire free (by grind)
  | dispatchAsleep at_ ready free => exact inv.slock.acquire free (by grind)
  | @forkFail p q at_ => exact inv.slock.release (p := p) (by grind) (by grind)
  | @forkRelease p q at_ => exact inv.slock.release (p := p) (by grind) (by grind)
  | @wakeVisit p j c after at_ => exact inv.slock.release (p := p) (by grind) (by grind)
  | @exitSched p at_ => exact inv.slock.release (p := p) (by grind) (by grind)
  | @scanAlive p k at_ alive => exact inv.slock.release (p := p) (by grind) (by grind)
  | @reap p k at_ dead => exact inv.slock.release (p := p) (by grind) (by grind)
  | @sleepMark p at_ => exact inv.slock.release (p := p) (by grind) (by grind)
  | @sleepReturn p at_ => exact inv.slock.release (p := p) (by grind) (by grind)
  | _ => exact inv.slock.congr (by grind)

theorem Step.alive (taken : Step init s e t) (inv : Inv init s) : (t.procs init).Active := by
  have alive := inv.alive
  have exiting := inv.exiting
  have forked := inv.forked
  cases taken <;> grind

theorem Step.exiting (taken : Step init s e t) (inv : Inv init s) (p : Fin n)
    (now : (t.procs p).pc.exiting = true) : p ≠ init := by
  have exiting := inv.exiting
  cases taken <;> grind

theorem Step.forker (taken : Step init s e t) (inv : Inv init s) (p p' q : Fin n)
    (one : (t.procs p).pc.forked = some q) (two : (t.procs p').pc.forked = some q) : p = p' := by
  have forked := inv.forked
  have forker := inv.forker
  cases taken <;> grind

theorem Step.unused (taken : Step init s e t) (inv : Inv init s) (p : Fin n)
    (now : (t.procs p).state = .unused) : (t.procs p).parent = none := by
  have unused := inv.unused
  have forked := inv.forked
  cases taken <;> grind

theorem Step.linked (taken : Step init s e t) (inv : Inv init s) (p : Fin n) :
    (t.procs p).linked = true ↔ (t.procs p).parent ≠ none := by
  have linked := inv.linked
  cases taken <;> grind

theorem Step.forked (taken : Step init s e t) (inv : Inv init s) (p q : Fin n)
    (now : (t.procs p).pc.forked = some q) : (t.procs q).state = .used := by
  have forked := inv.forked
  have forker := inv.forker
  have busy := inv.busy
  cases taken <;> grind

/-- Only a process without children ends, and only one that has ended is freed. -/
theorem Step.parents (taken : Step init s e t) (inv : Inv init s) (p q : Fin n)
    (now : (t.procs q).parent = some p) : (t.procs p).Active := by
  have parents := inv.parents
  have alive := inv.alive
  have forked := inv.forked
  cases taken with
  | @die r c at_ free =>
    have childless : ∀ k, (s.procs k).parent ≠ some r :=
      fun k => inv.cleared r k (by simp [at_, Pc.cleared, After.cleared])
    grind
  | _ => grind

theorem Pc.exiting_of_cleared {pc : Pc n} {k : ℕ} (below : k < pc.cleared) :
    pc.exiting = true := by
  cases pc <;> simp_all [Pc.cleared, Pc.exiting]

theorem Step.cleared (taken : Step init s e t) (inv : Inv init s) (p q : Fin n)
    (now : q.val < (t.procs p).pc.cleared) : (t.procs q).parent ≠ some p := by
  have cleared := inv.cleared p
  have other := inv.exiting p
  have exiting := @Pc.exiting_of_cleared _ (s.procs p).pc q
  cases taken <;> grind

theorem Step.chan (taken : Step init s e t) (inv : Inv init s) (p q : Fin n) :
    (t.procs p).chan = .proc q ↔
      q = p ∧ ((t.procs p).pc = .asleep ∨ (t.procs p).pc = .woken) := by
  have chan := inv.chan
  have idle := inv.idle
  have forked := inv.forked
  have busy := inv.busy
  cases taken <;> grind

theorem Step.woken (taken : Step init s e t) (inv : Inv init s) (p : Fin n)
    (now : (t.procs p).pc = .woken) : (t.procs p).state = .running := by
  have woken := inv.woken
  have idle := inv.idle
  have forked := inv.forked
  cases taken <;> grind

/-- Only the holder of `wait_lock` is in a critical section of it. -/
theorem Inv.alone (inv : Inv init s) {p q : Fin n} (one : (s.procs p).pc.inner = true)
    (two : (s.procs q).pc.inner = true) : p = q := by
  have first := (inv.inner p).mpr one
  have second := (inv.inner q).mpr two
  simpa [first] using second

theorem Step.target (taken : Step init s e t) (inv : Inv init s) (p : Fin n)
    (c : Option (Fin n)) (after : After n) :
    (∀ j, (t.procs p).pc = .wake c after j → c = after.target init (t.procs p).parent) ∧
      ∀ j, (t.procs p).pc = .visit c after j → c = after.target init (t.procs p).parent := by
  have target := inv.target p c after
  have alone := @Inv.alone _ _ _ inv p
  have busy := inv.busy p
  have forked := inv.forked
  cases taken <;> grind

theorem Step.unlinked (taken : Step init s e t) (inv : Inv init s) (p q : Fin n)
    (now : (t.procs p).pc = .forkFill q ∨ (t.procs p).pc = .forkLink q) :
    (t.procs q).parent = none := by
  have unlinked := inv.unlinked
  have unused := inv.unused
  have forker := inv.forker p
  cases taken <;> grind

theorem Step.child (taken : Step init s e t) (inv : Inv init s) (p k : Fin n)
    (now : (t.procs p).pc = .child k) : (t.procs k).parent = some p := by
  have child := inv.child p k
  have alone := @Inv.alone _ _ _ inv p
  have unlinked := inv.unlinked
  cases taken <;> grind

theorem Pc.inner_of_scanned {pc : Pc n} {k : ℕ} (below : k < pc.scanned) :
    pc.inner = true := by
  cases pc <;> simp_all [Pc.scanned, Pc.inner]

theorem Step.scanned (taken : Step init s e t) (inv : Inv init s) (p q : Fin n)
    (below : q.val < (t.procs p).pc.scanned) (mine : (t.procs q).parent = some p) :
    (t.procs q).state ≠ .zombie ∧ ∀ k, (t.procs p).pc ≠ .scan k false := by
  have scanned := inv.scanned p q
  have inner := inv.inner p
  have alone := @Inv.alone _ _ _ inv p
  have inside := @Pc.inner_of_scanned _ (s.procs p).pc q
  cases taken with
  | @dispatch r at_ ready free =>
    -- a slot that is switched to stays where it is
    have stays : ∀ k, ((s.setProc r ({ · with state := .running, chan := .null })).procs k).pc =
        (s.procs k).pc := by
      intro k
      rw [State.setProc_procs]
      split <;> simp_all
    rw [stays] at below ⊢
    by_cases here : q = r
    · rw [here, State.setProc_procs, if_pos rfl] at mine ⊢
      exact ⟨by simp, (scanned below (here ▸ mine)).2⟩
    · rw [State.setProc_procs, if_neg here] at mine ⊢
      exact scanned below mine
  | _ =>
    simp only [State.goto_procs, State.setProc_procs, State.setSlock_procs,
      State.setWait_procs] at below mine ⊢
    grind

/-- A walk that moves on from the slot it is for leaves no waiter there: a process on its
way to sleep holds its own `slock`, and one that sleeps in `wait` is marked. -/
theorem Inv.visited (inv : Inv init s) {p k : Fin n} {after : After n}
    (at_ : (s.procs p).pc = .visit (some k) after k) :
    ¬ ((s.procs k).wakeup (some k)).Waits := by
  have mine : s.HoldsSlock p k := by grind
  have own := @Owned.unique _ _ _ _ inv.slock k p k mine
  have chan := inv.chan k k
  rintro (way | way | ⟨asleep, sleeping⟩) <;> grind

theorem Pc.inner_of_past {pc : Pc n} {p : Fin n} (past : pc.Past p) : pc.inner = true := by
  cases pc <;> simp_all [Pc.Past, Pc.inner]

theorem Pc.inner_of_ahead {pc : Pc n} {p : Fin n} (ahead : pc.Ahead p) : pc.inner = true := by
  cases pc <;> simp_all [Pc.Ahead, Pc.inner]

theorem Step.passed (taken : Step init s e t) (inv : Inv init s) (r p : Fin n)
    (past : (t.procs r).pc.Past p) : ¬ (t.procs p).Waits := by
  have passed := inv.passed r p
  have alone := @Inv.alone _ _ _ inv r
  have inside := @Pc.inner_of_past _ (s.procs r).pc p
  cases taken with
  | @wakeVisit q k c after at_ =>
    by_cases here : p = k ∧ c = some k ∧ r = q
    · obtain ⟨rfl, rfl, rfl⟩ := here
      have left := inv.visited at_
      grind
    · grind
  | _ => grind

theorem Step.last (taken : Step init s e t) (inv : Inv init s) (r p : Fin n)
    (at_ : (t.procs r).pc = .zombie) (mine : (t.procs r).parent = some p) :
    ¬ (t.procs p).Waits := by
  have last := inv.last r p
  have passed := inv.passed r p
  have target := inv.target r
  have alone := @Inv.alone _ _ _ inv r
  have inner := inv.inner r
  cases taken <;> grind

/-- A waiter with a dead child before a step that does not pass its slot. -/
theorem Inv.pending (inv : Inv init s) {p q : Fin n} (waits : (s.procs p).Waits)
    (mine : (s.procs q).parent = some p) (dead : (s.procs q).state = .zombie)
    (ahead : ∀ r, (s.procs r).pc.Ahead p → (t.procs r).pc.Ahead p) :
    ∃ r, (t.procs r).pc.Ahead p := by
  obtain ⟨r, walk⟩ := inv.waits p q waits mine dead
  exact ⟨r, ahead r walk⟩

theorem Step.waits (taken : Step init s e t) (inv : Inv init s) (p q : Fin n)
    (waits : (t.procs p).Waits) (mine : (t.procs q).parent = some p)
    (dead : (t.procs q).state = .zombie) : ∃ r, (t.procs r).pc.Ahead p := by
  have forked := inv.forked
  cases taken with
  | @fork r k at_ running unused free =>
    have idle := inv.idle k (.inl unused)
    exact inv.pending (q := q) (by grind) (by grind) (by grind) (by grind)
  | @reparentMove r k at_ mine' =>
    by_cases here : p = init
    · exact ⟨r, by simp [here, Pc.Ahead]⟩
    · exact inv.pending (q := q) (by grind) (by grind) (by grind) (by grind)
  | @wakeSkip r c after at_ =>
    have another : p ≠ r := by
      rintro rfl
      simp [Thread.Waits] at waits
    exact inv.pending (q := q) (by grind) (by grind) (by grind) (by grind)
  | @wakeVisit r k c after at_ =>
    by_cases here : p = k ∧ c = some k
    · obtain ⟨rfl, rfl⟩ := here
      have left := inv.visited at_
      grind
    · exact inv.pending (q := q) (by grind) (by grind) (by grind) (by grind)
  | @die r c at_ free =>
    -- the parent of a process that dies has been woken before
    have passed := inv.passed r p
    have target := inv.target r
    by_cases here : q = r
    · subst here
      grind
    · exact inv.pending (q := q) (by grind) (by grind) (by grind) (by grind)
  | @sleepAcquire r at_ free =>
    have scanned := inv.scanned r q
    have bound := q.isLt
    by_cases here : p = r
    · subst here
      grind
    · exact inv.pending (q := q) (by grind) (by grind) (by grind) (by grind)
  | _ => exact inv.pending (q := q) (by grind) (by grind) (by grind) (by grind)

theorem Inv.step (inv : Inv init s) (taken : Step init s e t) : Inv init t where
  inner := taken.inner inv
  slock := taken.slock inv
  busy := taken.busy inv
  dying := taken.dying inv
  alive := taken.alive inv
  exiting := taken.exiting inv
  forked := taken.forked inv
  forker := taken.forker inv
  unused := taken.unused inv
  unlinked := taken.unlinked inv
  linked := taken.linked inv
  parents := taken.parents inv
  cleared := taken.cleared inv
  chan := taken.chan inv
  woken := taken.woken inv
  target := taken.target inv
  passed := taken.passed inv
  last := taken.last inv
  child := taken.child inv
  scanned := taken.scanned inv
  waits := taken.waits inv

end

theorem Start.inv {s : State n} (start : Start init s) : Inv init s := by
  have rest : ∀ p, s.procs p = if p = init then { state := .runnable, pid := 1 } else {} := by
    intro p
    by_cases here : p = init
    · rw [if_pos here, here, start.first]
    · rw [if_neg here, start.rest p here]
  have user : ∀ p, (s.procs p).pc = .user := by
    intro p
    rw [rest p]
    split <;> rfl
  have orphan : ∀ p, (s.procs p).parent = none := by
    intro p
    rw [rest p]
    split <;> rfl
  constructor
  case inner => simp [start.waitLock, user, Pc.inner]
  case slock => simp [Owned, State.HoldsSlock, start.slock, user, Pc.slock]
  case busy => simp [user, Pc.busy]
  case dying => simp [user]
  case alive => simp [start.first, Thread.Active]
  case exiting => simp [user, Pc.exiting]
  case forked => simp [user, Pc.forked]
  case forker => simp [user, Pc.forked]
  case unused => simp [orphan]
  case unlinked => simp [user]
  case linked =>
    intro p
    rw [orphan p, rest p]
    split <;> simp
  case parents => simp [orphan]
  case cleared => simp [orphan]
  case chan =>
    intro p q
    rw [user p, rest p]
    split <;> simp
  case woken => simp [user]
  case target => simp [user]
  case passed => simp [user, Pc.Past]
  case last => simp [user]
  case child => simp [user]
  case scanned => simp [orphan]
  case waits => simp [orphan]

/-- The pid that a `wait` returns. -/
def Event.returned : Event n → Option ℕ
  | .wait _ _ pid _ => some pid
  | _ => none

/-- What the run so far tells of the processes in the table. -/
structure Tracked (past : List (Event n)) (s : State n) : Prop where
  inv : Inv init s
  pids : ∀ p, (s.procs p).state ≠ .unused → 0 < (s.procs p).pid ∧ (s.procs p).pid < s.nextPid
  distinct : ∀ p q, (s.procs p).state ≠ .unused → (s.procs q).state ≠ .unused →
    (s.procs p).pid = (s.procs q).pid → p = q
  called : ∀ p, (s.procs p).pc.exiting = true →
    .exit (s.procs p).pid (s.procs p).status ∈ past
  ended : ∀ p, (s.procs p).state = .zombie → .exit (s.procs p).pid (s.procs p).xstate ∈ past
  returned : ∀ pid ∈ past.filterMap Event.returned, pid < s.nextPid ∧
    ∀ p, (s.procs p).state ≠ .unused → (s.procs p).pid ≠ pid
  once : (past.filterMap Event.returned).Nodup

section

attribute [local grind =] Pc.busy Pc.exiting Pc.forked Event.returned
attribute [local grind] Thread.Active Thread.wakeup Thread.freeproc

variable {init} {s t : State n} {e : Event n} {past : List (Event n)}

/-- The pids of the table after a step: `fork` hands out the next one, and the other slots
in use keep theirs. -/
theorem Step.numbered (taken : Step init s e t) (inv : Inv init s) :
    (t.nextPid = s.nextPid ∧ ∀ p, (t.procs p).state ≠ .unused →
      (s.procs p).state ≠ .unused ∧ (t.procs p).pid = (s.procs p).pid) ∨
    ∃ q, (s.procs q).state = .unused ∧ t.nextPid = s.nextPid + 1 ∧
      (t.procs q).pid = s.nextPid ∧ e.returned = none ∧
      ∀ p, p ≠ q → (t.procs p).state ≠ .unused →
        (s.procs p).state ≠ .unused ∧ (t.procs p).pid = (s.procs p).pid := by
  have busy := inv.busy
  have forked := inv.forked
  cases taken with
  | @fork r q at_ running unused free =>
    refine .inr ⟨q, unused, rfl, ?_, rfl, fun p other live => ?_⟩ <;> grind
  | _ =>
    refine .inl ⟨rfl, fun p live => ?_⟩
    grind

theorem Tracked.positive (tracked : Tracked init past s) : 0 < s.nextPid := by
  have live : (s.procs init).state ≠ .unused := by
    rcases tracked.inv.alive with state | state | state <;> simp [state]
  exact (tracked.pids init live).1.trans (tracked.pids init live).2

theorem Step.pids (taken : Step init s e t) (tracked : Tracked init past s) (p : Fin n)
    (live : (t.procs p).state ≠ .unused) : 0 < (t.procs p).pid ∧ (t.procs p).pid < t.nextPid := by
  have pids := tracked.pids
  rcases taken.numbered tracked.inv with ⟨next, kept⟩ | ⟨q, unused, next, new, -, kept⟩
  · obtain ⟨lived, same⟩ := kept p live
    rw [next, same]
    exact pids p lived
  · by_cases here : p = q
    · rw [here, new, next]
      exact ⟨tracked.positive, Nat.lt_succ_self _⟩
    · obtain ⟨lived, same⟩ := kept p here live
      rw [next, same]
      exact ⟨(pids p lived).1, (pids p lived).2.trans (Nat.lt_succ_self _)⟩

theorem Step.distinct (taken : Step init s e t) (tracked : Tracked init past s) (p q : Fin n)
    (one : (t.procs p).state ≠ .unused) (two : (t.procs q).state ≠ .unused)
    (same : (t.procs p).pid = (t.procs q).pid) : p = q := by
  have pids := tracked.pids
  have distinct := tracked.distinct p q
  rcases taken.numbered tracked.inv with ⟨-, kept⟩ | ⟨r, -, -, new, -, kept⟩
  · have first := kept p one
    have second := kept q two
    exact distinct first.1 second.1 (by rw [← first.2, same, second.2])
  · -- a new pid is above all others
    have below : ∀ k, k ≠ r → (t.procs k).state ≠ .unused → (t.procs k).pid < s.nextPid := by
      intro k other live
      rw [(kept k other live).2]
      exact (pids k (kept k other live).1).2
    by_cases first : p = r <;> by_cases second : q = r
    · rw [first, second]
    · have bound := below q second two
      rw [← same, first, new] at bound
      exact absurd bound (lt_irrefl _)
    · have bound := below p first one
      rw [same, second, new] at bound
      exact absurd bound (lt_irrefl _)
    · have left := kept p first one
      have right := kept q second two
      exact distinct left.1 right.1 (by rw [← left.2, same, right.2])

/-- The process whose slot is freed has left `exit`. -/
theorem Inv.finished (inv : Inv init s) {p k : Fin n} (at_ : (s.procs p).pc = .child k)
    (dead : (s.procs k).state = .zombie) : (s.procs k).pc.exiting = false := by
  have laid := inv.laid p k at_
  have busy := inv.busy k
  rcases (s.procs k).pc.idle_or with user | gone | zombie | left | inside <;> grind

theorem Step.called (taken : Step init s e t) (tracked : Tracked init past s) (p : Fin n)
    (now : (t.procs p).pc.exiting = true) :
    .exit (t.procs p).pid (t.procs p).status ∈ past ++ [e] := by
  have called := tracked.called p
  have idle := tracked.inv.idle p
  have forked := tracked.inv.forked
  cases taken with
  | @reap r k at_ dead =>
    have finished := tracked.inv.finished at_ dead
    grind
  | _ => grind

theorem Step.ended (taken : Step init s e t) (tracked : Tracked init past s) (p : Fin n)
    (now : (t.procs p).state = .zombie) :
    .exit (t.procs p).pid (t.procs p).xstate ∈ past ++ [e] := by
  have ended := tracked.ended p
  have called := tracked.called p
  cases taken <;> grind

theorem Step.returned (taken : Step init s e t) (tracked : Tracked init past s) (pid : ℕ)
    (member : pid ∈ (past ++ [e]).filterMap Event.returned) : pid < t.nextPid ∧
      ∀ p, (t.procs p).state ≠ .unused → (t.procs p).pid ≠ pid := by
  rw [List.filterMap_append, List.mem_append] at member
  rcases member with before | now
  · obtain ⟨below, gone⟩ := tracked.returned pid before
    rcases taken.numbered tracked.inv with ⟨next, kept⟩ | ⟨q, -, next, new, -, kept⟩
    · refine ⟨next ▸ below, fun p live => ?_⟩
      rw [(kept p live).2]
      exact gone p (kept p live).1
    · refine ⟨by omega, fun p live => ?_⟩
      by_cases here : p = q
      · rw [here, new]
        exact below.ne'
      · rw [(kept p here live).2]
        exact gone p (kept p here live).1
  · cases taken with
    | @reap r k at_ dead =>
      obtain rfl : pid = (s.procs k).pid := by simpa [Event.returned] using now
      refine ⟨(tracked.pids k (by simp [dead])).2, fun p live same => ?_⟩
      have busy := tracked.inv.busy r
      have apart := tracked.distinct p k
      grind
    | _ => simp [Event.returned] at now

theorem Step.once (taken : Step init s e t) (tracked : Tracked init past s) :
    ((past ++ [e]).filterMap Event.returned).Nodup := by
  have once := tracked.once
  have last : (past ++ [e]).filterMap Event.returned =
      past.filterMap Event.returned ++ e.returned.toList := by
    rw [List.filterMap_append]
    cases e <;> rfl
  rw [last]
  cases taken with
  | @reap r k at_ dead =>
    have fresh : (s.procs k).pid ∉ past.filterMap Event.returned :=
      fun known => (tracked.returned _ known).2 k (by simp [dead]) rfl
    change (past.filterMap Event.returned ++ [(s.procs k).pid]).Nodup
    rw [← List.concat_eq_append]
    exact once.concat fresh
  | _ => exact (List.append_nil _).symm ▸ once

theorem Tracked.step (tracked : Tracked init past s) (taken : Step init s e t) :
    Tracked init (past ++ [e]) t where
  inv := tracked.inv.step taken
  pids := taken.pids tracked
  distinct := taken.distinct tracked
  called := taken.called tracked
  ended := taken.ended tracked
  returned := taken.returned tracked
  once := taken.once tracked

end

theorem Start.tracked {s : State n} (start : Start init s) : Tracked init [] s := by
  have first : ∀ p, (s.procs p).state ≠ .unused → p = init := by
    intro p live
    by_contra other
    rw [start.rest p other] at live
    exact live rfl
  constructor
  case inv => exact start.inv
  case pids =>
    intro p live
    rw [first p live, start.first, start.pids]
    exact ⟨Nat.one_pos, Nat.one_lt_two⟩
  case distinct => exact fun p q one two _ => (first p one).trans (first q two).symm
  case called =>
    intro p now
    by_cases here : p = init
    · simp [here, start.first, Pc.exiting] at now
    · simp [start.rest p here, Pc.exiting] at now
  case ended =>
    intro p now
    rw [first p (by simp [now]), start.first] at now
    simp at now
  case returned => simp
  case once => simp

/-- Processes are reaped by their living parents, once each and with the status they
exited with, and no waiter is forgotten. -/
theorem reaping_correct {start s : State n} {past : List (Event n)} (initial : Start init start)
    (run : Trace (Step init) start past s) :
    (∀ q, q ≠ init → (s.procs q).linked = true → ∃ p, (s.procs q).parent = some p ∧
      (s.procs p).state ≠ .unused ∧ (s.procs p).state ≠ .zombie) ∧
    (∀ p q pid status t, Step init s (.wait p q pid status) t →
      0 < pid ∧ .exit pid status ∈ past ∧ (s.procs q).pid = pid ∧
        (s.procs q).parent = some p) ∧
    (past.filterMap Event.returned).Nodup ∧
    (∀ p t, Step init s (.childless p) t → ∀ q, (s.procs q).parent ≠ some p) ∧
    (∀ p q, (s.procs p).state = .sleeping → (s.procs p).chan = .proc p →
      (s.procs q).parent = some p → (s.procs q).state = .zombie →
        ∃ e, (s.procs e).pc.Ahead p) := by
  have tracked := run.invariant (Tracked init) initial.tracked
    fun _ _ _ _ tracked taken => tracked.step taken
  have inv := tracked.inv
  refine ⟨?_, ?_, tracked.once, ?_, ?_⟩
  · intro q _ linked
    obtain ⟨p, parent⟩ := Option.ne_none_iff_exists'.mp ((inv.linked q).mp linked)
    have active := inv.parents p q parent
    refine ⟨p, parent, ?_, ?_⟩ <;> rcases active with state | state | state <;> simp [state]
  · intro p q pid status t taken
    cases taken with
    | reap at_ dead =>
      exact ⟨(tracked.pids q (by simp [dead])).1, tracked.ended q dead, rfl, inv.child p q at_⟩
  · intro p t taken q mine
    cases taken with
    | waitNone at_ =>
      have scanned := inv.scanned p q (by simp [at_, Pc.scanned]) mine
      exact scanned.2 n at_
  · intro p q sleeping chan mine dead
    have asleep : (s.procs p).pc = .asleep := by
      rcases ((inv.chan p p).mp chan).2 with asleep | woken
      · exact asleep
      · simp [inv.woken p woken] at sleeping
    exact inv.waits p q (.inr (.inr ⟨asleep, sleeping⟩)) mine dead

section Sample

attribute [local instance] neZero_two in
/-- The first process in a table of two slots. -/
def alone : State 2 where
  nextPid := 2
  procs p := if p = 0 then { state := .runnable, pid := 1 } else {}

theorem alone_start : Start 0 alone where
  pids := rfl
  waitLock := rfl
  slock := fun _ => rfl
  first := rfl
  rest := fun _ other => if_neg other

/-- The first process forks, its child exits with status 7, and the parent has found it. -/
theorem alone_run : ∃ past s, Trace (Step 0) alone past s ∧
    (s.procs 0).pc = .child 1 ∧ (s.procs 1).state = .zombie ∧ (s.procs 1).pid = 2 ∧
      (s.procs 1).xstate = 7 := by
  refine ⟨_, _, (((((((((((((((((((.nil : Trace (Step 0) alone [] alone).snoc
    (.dispatch (p := 0) rfl rfl rfl)).snoc
    (.fork (p := 0) (q := 1) rfl rfl rfl rfl)).snoc
    (.forkRelease (p := 0) (q := 1) rfl)).snoc
    (.forkLink (p := 0) (q := 1) rfl rfl rfl)).snoc
    (.forkReady (p := 0) (q := 1) rfl rfl rfl)).snoc
    (.dispatch (p := 1) rfl rfl rfl)).snoc
    (@Step.exit _ _ _ 1 7 rfl rfl (by decide) rfl)).snoc
    (.reparentSkip (p := 1) (k := 0) rfl (by decide))).snoc
    (.reparentSkip (p := 1) (k := 1) rfl (by decide))).snoc
    (.reparentDone (p := 1) rfl)).snoc
    (.wakeAcquire (p := 1) (j := 0) rfl (by decide) rfl)).snoc
    (.wakeVisit (p := 1) (j := 0) rfl)).snoc
    (.wakeSkip (p := 1) rfl)).snoc
    (.die (p := 1) rfl rfl)).snoc
    (.exitRelease (p := 1) rfl)).snoc
    (.exitSched (p := 1) rfl)).snoc
    (.wait (p := 0) rfl rfl rfl)).snoc
    (.scanSkip (p := 0) (k := 0) rfl (by decide))).snoc
    (.scanAcquire (p := 0) (k := 1) rfl rfl rfl), rfl, rfl, rfl, rfl⟩

theorem reaping_correct_alone : ∃ past s, Trace (Step 0) alone past s ∧
    (∃ t, Step 0 s (.wait 0 1 2 7) t) ∧ .exit 2 7 ∈ past ∧ (s.procs 1).parent = some 0 := by
  obtain ⟨past, s, run, at_, dead, pid, status⟩ := alone_run
  have taken : Step 0 s _ _ := .reap at_ dead
  rw [pid, status] at taken
  obtain ⟨-, waits, -⟩ := reaping_correct 0 alone_start run
  have found := waits 0 1 2 7 _ taken
  exact ⟨past, s, run, ⟨_, taken⟩, found.2.1, found.2.2.2⟩

end Sample

end HaloOS.Reaping
