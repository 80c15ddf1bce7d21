import HaloOS.Kernel.Model
import HaloOS.Lib.Owned
import HaloOS.Lib.Trace

/-! One sleep lock and the processes that use it: `sleeplock.c` with `sleep`, `wakeup`
and the scheduler's part in them. A step runs from one acquire or release of the inner
spinlock or of a `slock` to the next. There is no bound on the processes that are
`RUNNING` at once, so that runs on every number of harts are among the runs here. -/

namespace HaloOS.SleepLock

open Lib

/-- Where a process stands in its calls on the lock. -/
inductive Pc (n : ℕ) where
  | out
  /-- Before `acquire(&sl->splock)` in `sleep_lock`, or before `acquire(lk)` in `sleep`. -/
  | enter
  /-- Before the test of `sl->locked`. -/
  | test
  /-- In `sleep`, with both locks, before `release(lk)`. -/
  | sleepRelease
  /-- In `sleep`, before the stores to `chan` and `state`. -/
  | sleepMark
  /-- Switched away from in `sleep`. -/
  | asleep
  /-- Switched back to in `sleep`, the scheduler's `slock` in hand. -/
  | woken
  /-- After the return of `sleep_lock`. -/
  | holding
  /-- Before `acquire(&sl->splock)` in `sleep_unlock`. -/
  | unlock
  /-- In `wakeup(sl)`, before the turn of slot `k`. -/
  | wake (k : ℕ)
  /-- In `wakeup(sl)`, with the `slock` of slot `k`. -/
  | visit (k : Fin n)
  deriving DecidableEq

/-- `p->chan`: nothing, the sleep lock, or the address of something else. -/
inductive Chan where
  | null
  | lock
  | other (a : ℕ)
  deriving DecidableEq

structure Thread (n : ℕ) where
  pc : Pc n := .out
  state : ProcState := .unused
  chan : Chan := .null
  pid : ℕ := 0
  deriving DecidableEq

/-- The `struct sleeplock` and the process table. -/
structure State (n : ℕ) where
  locked : Bool := false
  pid : ℕ := 0
  splock : Option (Fin n) := none
  slock : Fin n → Option (Fin n) := fun _ => none
  procs : Fin n → Thread n := fun _ => {}

variable {n : ℕ}

def State.setProc (s : State n) (p : Fin n) (f : Thread n → Thread n) : State n :=
  { s with procs := Function.update s.procs p (f (s.procs p)) }

def State.goto (s : State n) (p : Fin n) (pc : Pc n) : State n :=
  s.setProc p ({ · with pc })

def State.setSlock (s : State n) (k : Fin n) (owner : Option (Fin n)) : State n :=
  { s with slock := Function.update s.slock k owner }

section

variable (s : State n) (p q k : Fin n) (f : Thread n → Thread n) (pc : Pc n)
  (owner : Option (Fin n))

@[simp, grind =] theorem State.setProc_locked : (s.setProc p f).locked = s.locked := rfl

@[simp, grind =] theorem State.setProc_pid : (s.setProc p f).pid = s.pid := rfl

@[simp, grind =] theorem State.setProc_splock : (s.setProc p f).splock = s.splock := rfl

@[simp, grind =] theorem State.setProc_slock : (s.setProc p f).slock q = s.slock q := rfl

@[simp, grind =] theorem State.setProc_procs :
    (s.setProc p f).procs q = if q = p then f (s.procs p) else s.procs q := by
  simp [State.setProc, Function.update_apply]

@[simp, grind =] theorem State.goto_locked : (s.goto p pc).locked = s.locked := rfl

@[simp, grind =] theorem State.goto_pid : (s.goto p pc).pid = s.pid := rfl

@[simp, grind =] theorem State.goto_splock : (s.goto p pc).splock = s.splock := rfl

@[simp, grind =] theorem State.goto_slock : (s.goto p pc).slock q = s.slock q := rfl

@[simp, grind =] theorem State.goto_procs :
    (s.goto p pc).procs q = if q = p then { s.procs p with pc } else s.procs q := by
  simp [State.goto]

@[simp, grind =] theorem State.setSlock_locked :
    (s.setSlock k owner).locked = s.locked := rfl

@[simp, grind =] theorem State.setSlock_pid : (s.setSlock k owner).pid = s.pid := rfl

@[simp, grind =] theorem State.setSlock_splock :
    (s.setSlock k owner).splock = s.splock := rfl

@[simp, grind =] theorem State.setSlock_procs :
    (s.setSlock k owner).procs q = s.procs q := rfl

@[simp, grind =] theorem State.setSlock_slock :
    (s.setSlock k owner).slock q = if q = k then owner else s.slock q := by
  simp [State.setSlock, Function.update_apply]

end

/-- `holdingsleep`, as process `p` evaluates it. -/
def State.holdingsleep (s : State n) (p : Fin n) : Bool :=
  s.locked && s.pid == (s.procs p).pid

/-- The body of the loop in `wakeup` for a slot other than the caller's. -/
def Thread.wakeup (r : Thread n) : Thread n :=
  if r.state = .sleeping ∧ r.chan = .lock then { r with state := .runnable } else r

@[simp, grind =] theorem Thread.wakeup_pc (r : Thread n) : r.wakeup.pc = r.pc := by
  unfold Thread.wakeup
  split <;> rfl

@[simp, grind =] theorem Thread.wakeup_pid (r : Thread n) : r.wakeup.pid = r.pid := by
  unfold Thread.wakeup
  split <;> rfl

@[simp, grind =] theorem Thread.wakeup_chan (r : Thread n) : r.wakeup.chan = r.chan := by
  unfold Thread.wakeup
  split <;> rfl

@[grind =] theorem Thread.wakeup_state (r : Thread n) : r.wakeup.state =
    if r.state = .sleeping ∧ r.chan = .lock then .runnable else r.state := by
  unfold Thread.wakeup
  split <;> rfl

/-- From the return of `sleep_lock` to the stores of `sleep_unlock`. -/
def Pc.between : Pc n → Bool
  | .holding | .unlock => true
  | _ => false

/-- `sl->splock` is held. -/
def Pc.inner : Pc n → Bool
  | .test | .sleepRelease | .wake _ | .visit _ => true
  | _ => false

/-- Places where a process holds no spinlock and is not switched away from in `sleep`. -/
def Pc.preemptible : Pc n → Bool
  | .out | .enter | .holding | .unlock => true
  | _ => false

/-- Places between two calls on the lock. -/
def Pc.elsewhere : Pc n → Bool
  | .out | .holding => true
  | _ => false

/-- The slot whose `slock` is held by a process `me` at this place. -/
def Pc.slock (me : Fin n) : Pc n → Option (Fin n)
  | .sleepRelease | .sleepMark | .woken => some me
  | .visit k => some k
  | _ => none

/-- Process `p` holds the `slock` of slot `k`. -/
def State.HoldsSlock (s : State n) (p k : Fin n) : Prop := (s.procs p).pc.slock p = some k

def Thread.Live (r : Thread n) : Prop := r.state ≠ .unused

/-- What a step shows of itself. -/
inductive Event (n : ℕ) where
  | run (p : Fin n)
  | holdingsleep (p : Fin n) (r : Bool)

/-- One step of one process or of the scheduler. -/
inductive Step : State n → Event n → State n → Prop where
  /-- `sleep_lock` is called. -/
  | call {s : State n} {p : Fin n} (at_ : (s.procs p).pc = .out)
      (running : (s.procs p).state = .running) : Step s (.run p) (s.goto p .enter)
  | acquire {s : State n} {p : Fin n} (at_ : (s.procs p).pc = .enter)
      (running : (s.procs p).state = .running) (free : s.splock = none) :
      Step s (.run p) ({ s with splock := some p }.goto p .test)
  /-- `sl->locked` is 0: take the lock and release the inner one. -/
  | take {s : State n} {p : Fin n} (at_ : (s.procs p).pc = .test)
      (open_ : s.locked = false) :
      Step s (.run p) ({ s with
        locked := true, pid := (s.procs p).pid, splock := none }.goto p .holding)
  /-- `sl->locked` is 1: `sleep` acquires the caller's own `slock`. -/
  | sleepAcquire {s : State n} {p : Fin n} (at_ : (s.procs p).pc = .test)
      (shut : s.locked = true) (free : s.slock p = none) :
      Step s (.run p) ((s.setSlock p (some p)).goto p .sleepRelease)
  | sleepRelease {s : State n} {p : Fin n} (at_ : (s.procs p).pc = .sleepRelease) :
      Step s (.run p) ({ s with splock := none }.goto p .sleepMark)
  /-- The stores of `sleep`, the switch to the scheduler and its `release`. -/
  | sleepMark {s : State n} {p : Fin n} (at_ : (s.procs p).pc = .sleepMark) :
      Step s (.run p) ((s.setSlock p none).setProc p
        ({ · with pc := .asleep, chan := .lock, state := .sleeping }))
  /-- The scheduler takes the `slock` and switches to a process inside `sleep`. -/
  | dispatchAsleep {s : State n} {p : Fin n} (at_ : (s.procs p).pc = .asleep)
      (ready : (s.procs p).state = .runnable) (free : s.slock p = none) :
      Step s (.run p) ((s.setSlock p (some p)).setProc p
        ({ · with pc := .woken, state := .running }))
  | sleepReturn {s : State n} {p : Fin n} (at_ : (s.procs p).pc = .woken) :
      Step s (.run p) ((s.setSlock p none).setProc p
        ({ · with pc := .enter, chan := .null }))
  /-- `sleep_unlock` is called. -/
  | callUnlock {s : State n} {p : Fin n} (at_ : (s.procs p).pc = .holding)
      (running : (s.procs p).state = .running) : Step s (.run p) (s.goto p .unlock)
  | unlock {s : State n} {p : Fin n} (at_ : (s.procs p).pc = .unlock)
      (running : (s.procs p).state = .running) (free : s.splock = none) :
      Step s (.run p)
        ({ s with locked := false, pid := 0, splock := some p }.goto p (.wake 0))
  | wakeSkip {s : State n} {p : Fin n} (at_ : (s.procs p).pc = .wake p) :
      Step s (.run p) (s.goto p (.wake (p + 1)))
  | wakeAcquire {s : State n} {p k : Fin n} (at_ : (s.procs p).pc = .wake k)
      (another : k ≠ p) (free : s.slock k = none) :
      Step s (.run p) ((s.setSlock k (some p)).goto p (.visit k))
  | wakeVisit {s : State n} {p k : Fin n} (at_ : (s.procs p).pc = .visit k) :
      Step s (.run p)
        (((s.setSlock k none).setProc k Thread.wakeup).goto p (.wake (k + 1)))
  | wakeDone {s : State n} {p : Fin n} (at_ : (s.procs p).pc = .wake n) :
      Step s (.run p) ({ s with splock := none }.goto p .out)
  /-- A call of `holdingsleep`. -/
  | holdingsleep {s : State n} {p : Fin n} (at_ : (s.procs p).pc.elsewhere = true)
      (running : (s.procs p).state = .running) (free : s.splock = none) :
      Step s (.holdingsleep p (s.holdingsleep p)) s
  /-- `yield`, from a timer interrupt. -/
  | yield {s : State n} {p : Fin n} (at_ : (s.procs p).pc.preemptible = true)
      (running : (s.procs p).state = .running) (free : s.slock p = none) :
      Step s (.run p) (s.setProc p ({ · with state := .runnable }))
  /-- `sleep` on another channel. -/
  | sleepOther {s : State n} {p : Fin n} {a : ℕ} (at_ : (s.procs p).pc.elsewhere = true)
      (running : (s.procs p).state = .running) (free : s.slock p = none) :
      Step s (.run p) (s.setProc p ({ · with chan := .other a, state := .sleeping }))
  /-- `wakeup` of another channel. -/
  | wakeOther {s : State n} {p : Fin n} {a : ℕ} (chan : (s.procs p).chan = .other a)
      (sleeps : (s.procs p).state = .sleeping) (free : s.slock p = none) :
      Step s (.run p) (s.setProc p ({ · with state := .runnable }))
  /-- The scheduler switches to a process outside the `sleep` on the lock. Only a
  process that slept has a channel to clear. -/
  | dispatch {s : State n} {p : Fin n} (at_ : (s.procs p).pc.preemptible = true)
      (ready : (s.procs p).state = .runnable) (free : s.slock p = none) :
      Step s (.run p) (s.setProc p ({ · with state := .running, chan := .null }))
  | exit {s : State n} {p : Fin n} (at_ : (s.procs p).pc = .out)
      (running : (s.procs p).state = .running) (free : s.slock p = none) :
      Step s (.run p) (s.setProc p ({ · with state := .zombie }))
  /-- `freeproc`, from `wait`. -/
  | reap {s : State n} {p : Fin n} (dead : (s.procs p).state = .zombie)
      (free : s.slock p = none) :
      Step s (.run p) (s.setProc p ({ · with state := .unused, pid := 0, chan := .null }))
  /-- `allocproc`, with a pid that no live process has. -/
  | alloc {s : State n} {p : Fin n} {v : ℕ} (unused : (s.procs p).state = .unused)
      (fresh : ∀ q, (s.procs q).Live → (s.procs q).pid ≠ v) (free : s.slock p = none) :
      Step s (.run p) (s.setProc p ({ · with state := .used, pid := v }))
  /-- The last step of `fork`. -/
  | ready {s : State n} {p : Fin n} (used : (s.procs p).state = .used)
      (free : s.slock p = none) :
      Step s (.run p) (s.setProc p ({ · with state := .runnable }))

/-- The lock as `sleep_initlock` leaves it, no process in a call on it. -/
structure Start (s : State n) : Prop where
  locked : s.locked = false
  pid : s.pid = 0
  splock : s.splock = none
  slock : ∀ p, s.slock p = none
  out : ∀ p, (s.procs p).pc = .out
  chan : ∀ p, (s.procs p).chan ≠ .lock
  pids : ∀ p q, (s.procs p).Live → (s.procs q).Live →
    (s.procs p).pid = (s.procs q).pid → p = q

/-- The wakeup of the walk at this place has not yet come to slot `p`. -/
def Pc.Ahead (p : Fin n) : Pc n → Prop
  | .wake k => k ≤ p
  | .visit k => k ≤ p
  | _ => False

/-- On the way to sleep on the lock, or asleep and not yet marked. -/
def Thread.Waits (r : Thread n) : Prop :=
  r.pc = .sleepRelease ∨ r.pc = .sleepMark ∨ (r.pc = .asleep ∧ r.state = .sleeping)

/-- Who holds what, and that every waiter has the lock taken or a wakeup coming. -/
structure Inv (s : State n) : Prop where
  inner : ∀ p, s.splock = some p ↔ (s.procs p).pc.inner = true
  slock : Owned s.slock s.HoldsSlock
  held : ∀ p, (s.procs p).pc.between = true → s.locked = true ∧ s.pid = (s.procs p).pid
  unique : ∀ p q, (s.procs p).pc.between = true → (s.procs q).pc.between = true → p = q
  owned : s.locked = true → ∃ p, (s.procs p).pc.between = true
  pids : ∀ p q, (s.procs p).Live → (s.procs q).Live →
    (s.procs p).pid = (s.procs q).pid → p = q
  chan : ∀ p, (s.procs p).chan = .lock ↔
    (s.procs p).pc = .asleep ∨ (s.procs p).pc = .woken
  active : ∀ p, (s.procs p).pc ≠ .out → (s.procs p).state = .running ∨
    (s.procs p).state = .runnable ∨ (s.procs p).state = .sleeping
  woken : ∀ p, (s.procs p).pc = .woken → (s.procs p).state = .running
  waits : ∀ p, (s.procs p).Waits → s.locked = true ∨ ∃ q, (s.procs q).pc.Ahead p

theorem Start.inv {s : State n} (start : Start s) : Inv s where
  inner := by simp [start.splock, start.out, Pc.inner]
  slock := by simp [Owned, State.HoldsSlock, start.slock, start.out, Pc.slock]
  held := by simp [start.out, Pc.between]
  unique := by simp [start.out, Pc.between]
  owned := by simp [start.locked]
  pids := start.pids
  chan := by simp [start.chan, start.out]
  active := by simp [start.out]
  woken := by simp [start.out]
  waits := by simp [start.out, Thread.Waits]

section

attribute [local grind =] Pc.between Pc.inner Pc.Ahead Pc.preemptible Pc.elsewhere
attribute [local grind] Thread.Live Thread.Waits State.HoldsSlock

variable {s t : State n} {e : Event n}

@[local grind =]
theorem Pc.slock_eq_some (pc : Pc n) (me k : Fin n) : pc.slock me = some k ↔
    (me = k ∧ (pc = .sleepRelease ∨ pc = .sleepMark ∨ pc = .woken)) ∨ pc = .visit k := by
  cases pc <;> simp [Pc.slock]

theorem Step.inner (taken : Step s e t) (inv : Inv s) (p : Fin n) :
    t.splock = some p ↔ (t.procs p).pc.inner = true := by
  have held := inv.inner
  cases taken <;> grind

theorem Step.slock (taken : Step s e t) (inv : Inv s) : Owned t.slock t.HoldsSlock := by
  cases taken with
  | sleepAcquire at_ shut free =>
    exact inv.slock.acquire free (by grind)
  | @sleepMark p at_ =>
    exact inv.slock.release (p := p) (by grind) (by grind)
  | dispatchAsleep at_ ready free =>
    exact inv.slock.acquire free (by grind)
  | @sleepReturn p at_ =>
    exact inv.slock.release (p := p) (by grind) (by grind)
  | wakeAcquire at_ another free =>
    exact inv.slock.acquire free (by grind)
  | @wakeVisit p k at_ =>
    exact inv.slock.release (p := p) (by grind) (by grind)
  | _ => exact inv.slock.congr (by grind)

theorem Step.held (taken : Step s e t) (inv : Inv s) (p : Fin n)
    (between : (t.procs p).pc.between = true) :
    t.locked = true ∧ t.pid = (t.procs p).pid := by
  have held := inv.held
  have unique := inv.unique
  have active := inv.active
  cases taken <;> grind

theorem Step.unique (taken : Step s e t) (inv : Inv s) (p q : Fin n)
    (one : (t.procs p).pc.between = true) (two : (t.procs q).pc.between = true) :
    p = q := by
  have held := inv.held
  have unique := inv.unique
  cases taken <;> grind

theorem Step.owned (taken : Step s e t) (inv : Inv s) (locked : t.locked = true) :
    ∃ p, (t.procs p).pc.between = true := by
  cases taken with
  | @take p at_ open_ => exact ⟨p, by simp [Pc.between]⟩
  | unlock at_ running free => simp at locked
  | _ =>
    obtain ⟨q, between⟩ := inv.owned locked
    exact ⟨q, by grind⟩

theorem Step.pids (taken : Step s e t) (inv : Inv s) (p q : Fin n)
    (one : (t.procs p).Live) (two : (t.procs q).Live)
    (same : (t.procs p).pid = (t.procs q).pid) : p = q := by
  have pids := inv.pids
  have active := inv.active
  cases taken <;> grind

theorem Step.chan (taken : Step s e t) (inv : Inv s) (p : Fin n) :
    (t.procs p).chan = .lock ↔ (t.procs p).pc = .asleep ∨ (t.procs p).pc = .woken := by
  have chan := inv.chan
  have active := inv.active
  cases taken <;> grind

theorem Step.active (taken : Step s e t) (inv : Inv s) (p : Fin n)
    (inside : (t.procs p).pc ≠ .out) : (t.procs p).state = .running ∨
      (t.procs p).state = .runnable ∨ (t.procs p).state = .sleeping := by
  have active := inv.active
  cases taken <;> grind

theorem Step.woken (taken : Step s e t) (inv : Inv s) (p : Fin n)
    (at_ : (t.procs p).pc = .woken) : (t.procs p).state = .running := by
  have woken := inv.woken
  cases taken <;> grind

/-- A walk that moves on from slot `k` leaves no waiter there: a process on its way to
sleep holds its own `slock`, and one that sleeps on the lock is marked. -/
theorem Inv.visited (inv : Inv s) {p k : Fin n} (at_ : (s.procs p).pc = .visit k) :
    ¬ (s.procs k).wakeup.Waits := by
  have mine : s.HoldsSlock p k := by grind
  have own := @Owned.unique _ _ _ _ inv.slock k p k mine
  have chan := inv.chan k
  rintro (way | way | ⟨asleep, sleeping⟩) <;> grind

/-- A waiter before a step that neither frees the lock nor passes its slot. -/
theorem Inv.pending (inv : Inv s) {p : Fin n} (waits : (s.procs p).Waits)
    (locked : s.locked = true → t.locked = true)
    (ahead : ∀ q, (s.procs q).pc.Ahead p → (t.procs q).pc.Ahead p) :
    t.locked = true ∨ ∃ q, (t.procs q).pc.Ahead p := by
  rcases inv.waits p waits with shut | ⟨q, walk⟩
  · exact .inl (locked shut)
  · exact .inr ⟨q, ahead q walk⟩

theorem Step.waits (taken : Step s e t) (inv : Inv s) (p : Fin n)
    (waits : (t.procs p).Waits) : t.locked = true ∨ ∃ q, (t.procs q).pc.Ahead p := by
  cases taken with
  | take at_ open_ => exact .inl rfl
  | sleepAcquire at_ shut free => exact .inl shut
  | @unlock q at_ running free => exact .inr ⟨q, by simp [Pc.Ahead]⟩
  | @wakeSkip q at_ =>
    have another : p ≠ q := by
      rintro rfl
      simp [Thread.Waits] at waits
    exact inv.pending (by grind) id (by grind)
  | @wakeVisit q k at_ =>
    have passed := inv.visited at_
    have another : p ≠ k := by
      rintro rfl
      grind
    exact inv.pending (by grind) id (by grind)
  | _ => exact inv.pending (by grind) (by grind) (by grind)

theorem Inv.step (inv : Inv s) (taken : Step s e t) : Inv t where
  inner := taken.inner inv
  slock := taken.slock inv
  held := taken.held inv
  unique := taken.unique inv
  owned := taken.owned inv
  pids := taken.pids inv
  chan := taken.chan inv
  active := taken.active inv
  woken := taken.woken inv
  waits := taken.waits inv

end

theorem Start.reachable {start s : State n} (initial : Start start)
    (reached : Reachable Step start s) : Inv s :=
  reached.invariant Inv initial.inv fun _ _ _ inv taken => inv.step taken

/-- `sl->locked` with `sl->pid` of a live process is the mark of the process between its
`sleep_lock` and its `sleep_unlock`. -/
theorem Inv.marks {s : State n} (inv : Inv s) {p : Fin n} (live : (s.procs p).Live) :
    (s.locked = true ∧ s.pid = (s.procs p).pid) ↔ (s.procs p).pc.between = true := by
  constructor
  · rintro ⟨locked, pid⟩
    obtain ⟨q, between⟩ := inv.owned locked
    have inside : (s.procs q).Live := by
      have active := inv.active q (by grind [Pc.between])
      grind [Thread.Live]
    have same : (s.procs p).pid = (s.procs q).pid := by rw [← pid, (inv.held q between).2]
    rw [inv.pids p q live inside same]
    exact between
  · exact inv.held p

/-- The sleep lock is mutually exclusive, its fields name its holder, `holdingsleep` tells
the holder from all others, and no wakeup is lost. -/
theorem sleep_lock_correct {start s : State n} (initial : Start start)
    (reached : Reachable Step start s) :
    (∀ p q, (s.procs p).pc.between = true → (s.procs q).pc.between = true → p = q) ∧
    (s.locked = true ↔ ∃ p, (s.procs p).pc.between = true) ∧
    (∀ p, (s.procs p).Live →
      ((s.locked = true ∧ s.pid = (s.procs p).pid) ↔ (s.procs p).pc.between = true)) ∧
    (∀ p r t, Step s (.holdingsleep p r) t → (r = true ↔ (s.procs p).pc.between = true)) ∧
    (∀ p, (s.procs p).state = .sleeping → (s.procs p).chan = .lock → s.locked = false →
      ∃ q, (s.procs q).pc.Ahead p) := by
  have inv := initial.reachable reached
  refine ⟨inv.unique, ⟨inv.owned, ?_⟩, fun p live => inv.marks live, ?_, ?_⟩
  · rintro ⟨p, between⟩
    exact (inv.held p between).1
  · intro p r t asked
    cases asked with
    | holdingsleep at_ running free =>
      have live : (s.procs p).Live := by simp [Thread.Live, running]
      simpa [State.holdingsleep] using inv.marks live
  · intro p sleeping chan open_
    have asleep : (s.procs p).pc = .asleep := by
      rcases (inv.chan p).mp chan with asleep | woken
      · exact asleep
      · simp [inv.woken p woken] at sleeping
    rcases inv.waits p (.inr (.inr ⟨asleep, sleeping⟩)) with locked | walk
    · simp [open_] at locked
    · exact walk

/-- Two running processes and a free lock. -/
def pair : State 2 where
  procs p := { state := .running, pid := p + 1 }

theorem pair_start : Start pair where
  locked := rfl
  pid := rfl
  splock := rfl
  slock := fun _ => rfl
  out := fun _ => rfl
  chan := by simp [pair]
  pids := by
    intro p q _ _ same
    simpa [pair, Fin.ext_iff] using same

/-- Process 0 takes the lock, process 1 finds it taken and falls asleep, and process 0
is about to look at its slot. -/
theorem pair_run : ∃ s : State 2, Reachable Step pair s ∧ (s.procs 1).state = .sleeping ∧
    (s.procs 1).chan = .lock ∧ s.locked = false := by
  refine ⟨_, ((((((((((Reachable.refl pair).tail (.call (p := 0) rfl rfl)).tail
    (.acquire (p := 0) rfl rfl rfl)).tail (.take (p := 0) rfl rfl)).tail
    (.call (p := 1) rfl rfl)).tail (.acquire (p := 1) rfl rfl rfl)).tail
    (.sleepAcquire (p := 1) rfl rfl rfl)).tail (.sleepRelease (p := 1) rfl)).tail
    (.sleepMark (p := 1) rfl)).tail (.callUnlock (p := 0) rfl rfl)).tail
    (.unlock (p := 0) rfl rfl rfl), rfl, rfl, rfl⟩

theorem sleep_lock_correct_pair : ∃ s : State 2, Reachable Step pair s ∧
    (s.procs 1).state = .sleeping ∧ s.locked = false ∧ ∃ q, (s.procs q).pc.Ahead 1 := by
  obtain ⟨s, reached, sleeping, chan, open_⟩ := pair_run
  obtain ⟨_, _, _, _, woken⟩ := sleep_lock_correct pair_start reached
  exact ⟨s, reached, sleeping, open_, woken 1 sleeping chan open_⟩

end HaloOS.SleepLock
