import HaloOS.Kernel.Model
import HaloOS.Lib.Owned
import HaloOS.Lib.Ring
import HaloOS.Lib.Trace

/-! The transmit queue of the UART, `memlayout.c`: `uartputc` with `sleep` and `wakeup`,
and `uartstart`, run by a writer or by the interrupt handler. A step runs from one acquire
or release of a lock, or one access to a device register, to the next. -/

namespace HaloOS.Uart

open Lib

def UART_TX_BUF_SIZE : ℕ := 32

instance : NeZero UART_TX_BUF_SIZE := ⟨by decide⟩

theorem size_dvd_word : UART_TX_BUF_SIZE ∣ WORD := by decide

/-- Where a process stands in a call of `uartputc(c)`. -/
inductive Pc where
  | out
  /-- Before `acquire(&uart_tx_lock)`, in `uartputc` or at the end of `sleep`. -/
  | enter (c : Byte)
  /-- In the endless loop of a kernel that has panicked. -/
  | spin
  /-- Before the test for a full queue. -/
  | test (c : Byte)
  /-- In `uartstart`. -/
  | start
  /-- In `sleep`, with both locks, before `release(lk)`. -/
  | sleepRelease (c : Byte)
  /-- In `sleep`, before the stores to `chan` and `state`. -/
  | sleepMark (c : Byte)
  /-- Switched away from in `sleep`. -/
  | asleep (c : Byte)
  /-- Switched back to in `sleep`, the scheduler's `slock` in hand. -/
  | woken (c : Byte)
  deriving DecidableEq

/-- Where the one run of `uartstart` under the lock stands. -/
inductive TxPc (n : ℕ) where
  | idle
  /-- Before the test for an empty queue. -/
  | loop
  /-- Before the read of `LSR`. -/
  | status
  /-- `LSR_TX_IDLE` was set. -/
  | take
  /-- In `wakeup(&uart_tx_r)`, before the turn of slot `k`. -/
  | wake (k : ℕ) (c : Byte)
  /-- In `wakeup(&uart_tx_r)`, with the `slock` of slot `k`. -/
  | visit (k : Fin n) (c : Byte)
  /-- Before the write of `THR`. -/
  | write (c : Byte)
  /-- Before the release of the lock. -/
  | done
  deriving DecidableEq

/-- Who runs under `uart_tx_lock`: a process, or the handler of an interrupt that came to
a hart on which `cur` ran. -/
inductive Owner (n : ℕ) where
  | proc (p : Fin n)
  | intr (cur : Option (Fin n))
  deriving DecidableEq

/-- `p->chan`: nothing, `&uart_tx_r`, or the address of something else. -/
inductive Chan where
  | null
  | tx
  | other (a : ℕ)
  deriving DecidableEq

structure Thread where
  pc : Pc := .out
  state : ProcState := .unused
  chan : Chan := .null
  deriving DecidableEq

/-- The queue, the process table and the register traffic. `accepted` are the bytes that
`uartputc` has put into the queue and `sent` those that `uartstart` has written to `THR`.
A `slock` belongs to a process, or to the run of `uartstart` (`some none`). -/
structure State (n : ℕ) where
  buf : Fin UART_TX_BUF_SIZE → Byte := fun _ => 0
  w : ℕ := 0
  r : ℕ := 0
  panicked : Bool := false
  lock : Option (Owner n) := none
  tx : TxPc n := .idle
  slock : Fin n → Option (Option (Fin n)) := fun _ => none
  procs : Fin n → Thread := fun _ => {}
  accepted : List Byte := []
  sent : List Byte := []

variable {n : ℕ}

namespace State

def setProc (s : State n) (p : Fin n) (f : Thread → Thread) : State n :=
  { s with procs := Function.update s.procs p (f (s.procs p)) }

def goto (s : State n) (p : Fin n) (pc : Pc) : State n := s.setProc p ({ · with pc })

def setSlock (s : State n) (k : Fin n) (owner : Option (Option (Fin n))) : State n :=
  { s with slock := Function.update s.slock k owner }

/-- `uart_tx_w == uart_tx_r + UART_TX_BUF_SIZE`. -/
def full (s : State n) : Prop := s.w = (s.r + UART_TX_BUF_SIZE) % WORD

instance (s : State n) : Decidable s.full := inferInstanceAs (Decidable (_ = _))

/-- The stores of `uartputc` into the queue. -/
def put (s : State n) (c : Byte) : State n :=
  { s with
    buf := Function.update s.buf (slotOf UART_TX_BUF_SIZE s.w) c
    w := (s.w + 1) % WORD
    accepted := s.accepted ++ [c] }

/-- The interrupt handler has the hart of process `p`. -/
def Interrupted (s : State n) (p : Fin n) : Prop := s.lock = some (.intr (some p))

end State

/-- The process that `myproc()` names for the owner of the lock. -/
def Owner.cur : Owner n → Option (Fin n)
  | .proc p => some p
  | .intr cur => cur

/-- The body of the loop in `wakeup` for a slot other than the caller's. -/
def Thread.wakeup (r : Thread) : Thread :=
  if r.state = .sleeping ∧ r.chan = .tx then { r with state := .runnable } else r

@[simp, grind =] theorem Thread.wakeup_pc (r : Thread) : r.wakeup.pc = r.pc := by
  unfold Thread.wakeup
  split <;> rfl

@[simp, grind =] theorem Thread.wakeup_chan (r : Thread) : r.wakeup.chan = r.chan := by
  unfold Thread.wakeup
  split <;> rfl

@[grind =] theorem Thread.wakeup_state (r : Thread) : r.wakeup.state =
    if r.state = .sleeping ∧ r.chan = .tx then .runnable else r.state := by
  unfold Thread.wakeup
  split <;> rfl

/-- `uart_tx_lock` is held. -/
def Pc.inner : Pc → Bool
  | .spin | .test _ | .start | .sleepRelease _ => true
  | _ => false

/-- Places without a spinlock where the process is not switched away from in `sleep`. -/
def Pc.preemptible : Pc → Bool
  | .out | .enter _ => true
  | _ => false

/-- The process holds its own `slock`. -/
def Pc.slocked : Pc → Bool
  | .sleepRelease _ | .sleepMark _ | .woken _ => true
  | _ => false

/-- The `slock` of slot `k` is held by a process or by `uartstart`. -/
def State.HoldsSlock (s : State n) : Option (Fin n) → Fin n → Prop
  | some p, k => p = k ∧ (s.procs p).pc.slocked = true
  | none, k => ∃ c, s.tx = .visit k c

/-- What a step shows of itself. -/
inductive Event (n : ℕ) where
  | run
  | accept (p : Fin n) (c : Byte)
  /-- `uartstart` reads the idle bit of `LSR`. -/
  | lsr (idle : Bool)
  /-- `uartstart` writes `THR`. -/
  | thr (c : Byte)

/-- One step of a process, of the interrupt handler or of the scheduler. A process whose
hart runs the handler does not move. -/
inductive Step : State n → Event n → State n → Prop where
  /-- `uartputc(c)` is called. -/
  | call {s : State n} {p : Fin n} {c : Byte} (at_ : (s.procs p).pc = .out)
      (running : (s.procs p).state = .running) (here : ¬ s.Interrupted p) :
      Step s .run (s.goto p (.enter c))
  | acquire {s : State n} {p : Fin n} {c : Byte} (at_ : (s.procs p).pc = .enter c)
      (running : (s.procs p).state = .running) (free : s.lock = none) :
      Step s .run ({ s with lock := some (.proc p) }.goto p
        (if s.panicked then .spin else .test c))
  | sleepAcquire {s : State n} {p : Fin n} {c : Byte} (at_ : (s.procs p).pc = .test c)
      (full : s.full) (free : s.slock p = none) :
      Step s .run ((s.setSlock p (some (some p))).goto p (.sleepRelease c))
  | sleepRelease {s : State n} {p : Fin n} {c : Byte}
      (at_ : (s.procs p).pc = .sleepRelease c) :
      Step s .run ({ s with lock := none }.goto p (.sleepMark c))
  /-- The stores of `sleep`, the switch to the scheduler and its `release`. -/
  | sleepMark {s : State n} {p : Fin n} {c : Byte} (at_ : (s.procs p).pc = .sleepMark c) :
      Step s .run ((s.setSlock p none).setProc p
        ({ · with pc := .asleep c, chan := .tx, state := .sleeping }))
  /-- The scheduler takes the `slock` and switches to a process inside `sleep`. -/
  | dispatchAsleep {s : State n} {p : Fin n} {c : Byte} (at_ : (s.procs p).pc = .asleep c)
      (ready : (s.procs p).state = .runnable) (free : s.slock p = none) :
      Step s .run ((s.setSlock p (some (some p))).setProc p
        ({ · with pc := .woken c, state := .running }))
  | sleepReturn {s : State n} {p : Fin n} {c : Byte} (at_ : (s.procs p).pc = .woken c) :
      Step s .run ((s.setSlock p none).setProc p
        ({ · with pc := .enter c, chan := .null }))
  | accept {s : State n} {p : Fin n} {c : Byte} (at_ : (s.procs p).pc = .test c)
      (room : ¬ s.full) :
      Step s (.accept p c) ({ s.put c with tx := .loop }.goto p .start)
  /-- The interrupt handler acquires the lock, on an idle hart or on that of a process. -/
  | interrupt {s : State n} {cur : Option (Fin n)} (free : s.lock = none)
      (preempts : ∀ p, cur = some p →
        (s.procs p).pc.preemptible = true ∧ (s.procs p).state = .running) :
      Step s .run { s with lock := some (.intr cur), tx := .loop }
  | empty {s : State n} (at_ : s.tx = .loop) (none_ : s.r = s.w) :
      Step s .run { s with tx := .done }
  | nonempty {s : State n} (at_ : s.tx = .loop) (some_ : s.r ≠ s.w) :
      Step s .run { s with tx := .status }
  | lsr {s : State n} {idle : Bool} (at_ : s.tx = .status) :
      Step s (.lsr idle) { s with tx := if idle then .take else .done }
  | take {s : State n} (at_ : s.tx = .take) :
      Step s .run { s with
        r := (s.r + 1) % WORD
        tx := .wake 0 (s.buf (slotOf UART_TX_BUF_SIZE s.r)) }
  | wakeSkip {s : State n} {o : Owner n} {k : Fin n} {c : Byte} (at_ : s.tx = .wake k c)
      (owner : s.lock = some o) (self : o.cur = some k) :
      Step s .run { s with tx := .wake (k + 1) c }
  | wakeAcquire {s : State n} {o : Owner n} {k : Fin n} {c : Byte} (at_ : s.tx = .wake k c)
      (owner : s.lock = some o) (another : o.cur ≠ some k) (free : s.slock k = none) :
      Step s .run { s.setSlock k (some none) with tx := .visit k c }
  | wakeVisit {s : State n} {k : Fin n} {c : Byte} (at_ : s.tx = .visit k c) :
      Step s .run { (s.setSlock k none).setProc k Thread.wakeup with tx := .wake (k + 1) c }
  | wakeDone {s : State n} {c : Byte} (at_ : s.tx = .wake n c) :
      Step s .run { s with tx := .write c }
  | thr {s : State n} {c : Byte} (at_ : s.tx = .write c) :
      Step s (.thr c) { s with tx := .loop, sent := s.sent ++ [c] }
  /-- `uartputc` releases the lock and returns. -/
  | finish {s : State n} {p : Fin n} (at_ : s.tx = .done) (owner : s.lock = some (.proc p)) :
      Step s .run ({ s with lock := none, tx := .idle }.goto p .out)
  /-- The handler releases the lock. -/
  | finishIntr {s : State n} {cur : Option (Fin n)} (at_ : s.tx = .done)
      (owner : s.lock = some (.intr cur)) : Step s .run { s with lock := none, tx := .idle }
  /-- `panic` somewhere in the kernel. -/
  | panic {s : State n} : Step s .run { s with panicked := true }
  | yield {s : State n} {p : Fin n} (at_ : (s.procs p).pc.preemptible = true)
      (running : (s.procs p).state = .running) (here : ¬ s.Interrupted p)
      (free : s.slock p = none) :
      Step s .run (s.setProc p ({ · with state := .runnable }))
  /-- `sleep` on another channel. -/
  | sleepOther {s : State n} {p : Fin n} {a : ℕ} (at_ : (s.procs p).pc = .out)
      (running : (s.procs p).state = .running) (here : ¬ s.Interrupted p)
      (free : s.slock p = none) :
      Step s .run (s.setProc p ({ · with chan := .other a, state := .sleeping }))
  /-- `wakeup` of another channel. -/
  | wakeOther {s : State n} {p : Fin n} {a : ℕ} (chan : (s.procs p).chan = .other a)
      (sleeps : (s.procs p).state = .sleeping) (free : s.slock p = none) :
      Step s .run (s.setProc p ({ · with state := .runnable }))
  /-- The scheduler switches to a process outside the `sleep` of `uartputc`. -/
  | dispatch {s : State n} {p : Fin n} (at_ : (s.procs p).pc.preemptible = true)
      (ready : (s.procs p).state = .runnable) (free : s.slock p = none) :
      Step s .run (s.setProc p ({ · with state := .running, chan := .null }))
  | exit {s : State n} {p : Fin n} (at_ : (s.procs p).pc = .out)
      (running : (s.procs p).state = .running) (here : ¬ s.Interrupted p)
      (free : s.slock p = none) :
      Step s .run (s.setProc p ({ · with state := .zombie }))
  | reap {s : State n} {p : Fin n} (dead : (s.procs p).state = .zombie)
      (free : s.slock p = none) :
      Step s .run (s.setProc p ({ · with state := .unused, chan := .null }))
  | alloc {s : State n} {p : Fin n} (unused : (s.procs p).state = .unused)
      (free : s.slock p = none) :
      Step s .run (s.setProc p ({ · with state := .used }))
  | ready {s : State n} {p : Fin n} (used : (s.procs p).state = .used)
      (free : s.slock p = none) :
      Step s .run (s.setProc p ({ · with state := .runnable }))

/-- After `uartinit`, no process in a call. -/
structure Start (s : State n) : Prop where
  w : s.w = 0
  r : s.r = 0
  lock : s.lock = none
  tx : s.tx = .idle
  slock : ∀ p, s.slock p = none
  out : ∀ p, (s.procs p).pc = .out
  chan : ∀ p, (s.procs p).chan ≠ .tx
  accepted : s.accepted = []
  sent : s.sent = []

/-- The byte taken from the queue and not yet written to `THR`. -/
def TxPc.hand : TxPc n → List Byte
  | .wake _ c | .visit _ c | .write c => [c]
  | _ => []

/-- The wakeup has not yet come to slot `p`. -/
def TxPc.Ahead (p : Fin n) : TxPc n → Prop
  | .wake k _ => k ≤ p
  | .visit k _ => k ≤ p
  | _ => False

/-- On the way to sleep on `&uart_tx_r`, or asleep and not yet marked. -/
def Thread.Waits (r : Thread) : Prop :=
  ∃ c, r.pc = .sleepRelease c ∨ r.pc = .sleepMark c ∨ (r.pc = .asleep c ∧ r.state = .sleeping)

/-- The queue as the list between what was taken and what was accepted. -/
structure Queue (s : State n) (q : List Byte) : Prop where
  ring : RingHolds WORD s.buf s.r s.w q
  room : q.length ≤ UART_TX_BUF_SIZE
  split : s.accepted = s.sent ++ s.tx.hand ++ q
  count : s.r = (s.sent ++ s.tx.hand).length % WORD

/-- Who holds what, and that every waiter has a full queue or a wakeup coming. -/
structure Inv (s : State n) : Prop where
  inner : ∀ p, s.lock = some (.proc p) ↔ (s.procs p).pc.inner = true
  tx : s.tx ≠ .idle ↔ (∃ cur, s.lock = some (.intr cur)) ∨ ∃ p, (s.procs p).pc = .start
  frozen : ∀ p, s.Interrupted p → (s.procs p).pc.preemptible = true ∧
    (s.procs p).state = .running
  slock : Owned s.slock s.HoldsSlock
  chan : ∀ p, (s.procs p).chan = .tx ↔
    ∃ c, (s.procs p).pc = .asleep c ∨ (s.procs p).pc = .woken c
  woken : ∀ p c, (s.procs p).pc = .woken c → (s.procs p).state = .running
  active : ∀ p, (s.procs p).pc ≠ .out → (s.procs p).state = .running ∨
    (s.procs p).state = .runnable ∨ (s.procs p).state = .sleeping
  waits : ∀ p, (s.procs p).Waits → s.full ∨ s.tx.Ahead p
  loaded : s.tx = .status ∨ s.tx = .take → s.r ≠ s.w
  queue : ∃ q, Queue s q

theorem Start.inv {s : State n} (start : Start s) : Inv s where
  inner := by simp [start.lock, start.out, Pc.inner]
  tx := by simp [start.tx, start.lock, start.out]
  frozen := by simp [State.Interrupted, start.lock]
  slock := by
    rintro k (_ | p) <;> simp [State.HoldsSlock, start.slock, start.tx, start.out, Pc.slocked]
  chan := by simp [start.chan, start.out]
  woken := by simp [start.out]
  active := by simp [start.out]
  waits := by simp [start.out, Thread.Waits]
  loaded := by simp [start.tx]
  queue := by
    refine ⟨[], ?_, by simp, by simp [start.accepted, start.sent, start.tx, TxPc.hand], ?_⟩
    · rw [start.r, start.w]
      exact .empty _ _ (by decide)
    · simp [start.r, start.sent, start.tx, TxPc.hand]

section

attribute [local simp] State.setProc State.setSlock State.goto State.put
  Function.update_apply
attribute [local grind =] Pc.inner Pc.preemptible Pc.slocked TxPc.Ahead Owner.cur
attribute [local grind] State.Interrupted State.HoldsSlock Thread.Waits

variable {s t : State n} {e : Event n}

theorem Step.inner (taken : Step s e t) (inv : Inv s) (p : Fin n) :
    t.lock = some (.proc p) ↔ (t.procs p).pc.inner = true := by
  have inner := inv.inner
  have tx := inv.tx
  cases taken <;> simp <;> grind

theorem Step.tx (taken : Step s e t) (inv : Inv s) : t.tx ≠ .idle ↔
    (∃ cur, t.lock = some (.intr cur)) ∨ ∃ p, (t.procs p).pc = .start := by
  have inner := inv.inner
  have tx := inv.tx
  cases taken <;> simp <;> grind

theorem Step.frozen (taken : Step s e t) (inv : Inv s) (p : Fin n)
    (interrupted : t.Interrupted p) :
    (t.procs p).pc.preemptible = true ∧ (t.procs p).state = .running := by
  have inner := inv.inner
  have tx := inv.tx
  have frozen := inv.frozen
  unfold State.Interrupted at interrupted
  cases taken <;> simp at interrupted ⊢ <;> grind

theorem Step.slock (taken : Step s e t) (inv : Inv s) : Owned t.slock t.HoldsSlock := by
  have inner := inv.inner
  have tx := inv.tx
  cases taken with
  | sleepAcquire at_ full free | dispatchAsleep at_ ready free =>
    refine inv.slock.acquire free ?_
    rintro (_ | q) m <;> simp [State.HoldsSlock]
    grind
  | wakeAcquire at_ owner another free =>
    refine inv.slock.acquire free ?_
    rintro (_ | q) m <;> simp [State.HoldsSlock]
    grind
  | @sleepMark p c at_ | @sleepReturn p c at_ =>
    refine inv.slock.release (p := some p) ?_ ?_
    · simp [State.HoldsSlock, at_, Pc.slocked]
    · rintro (_ | q) m <;> simp [State.HoldsSlock]
      grind
  | @wakeVisit k c at_ =>
    refine inv.slock.release (p := none) ?_ ?_
    · simp [State.HoldsSlock, at_]
    · rintro (_ | q) m <;> simp [State.HoldsSlock] <;> grind
  | _ =>
    refine inv.slock.congr ?_
    rintro (_ | q) m <;> simp [State.HoldsSlock] <;> grind

theorem Step.active (taken : Step s e t) (inv : Inv s) (p : Fin n)
    (inside : (t.procs p).pc ≠ .out) : (t.procs p).state = .running ∨
      (t.procs p).state = .runnable ∨ (t.procs p).state = .sleeping := by
  have active := inv.active
  have inner := inv.inner
  cases taken <;> simp at inside ⊢ <;> grind

theorem Step.chan (taken : Step s e t) (inv : Inv s) (p : Fin n) :
    (t.procs p).chan = .tx ↔ ∃ c, (t.procs p).pc = .asleep c ∨ (t.procs p).pc = .woken c := by
  have active := inv.active
  have chan := inv.chan
  have inner := inv.inner
  cases taken <;> simp <;> grind

theorem Step.woken (taken : Step s e t) (inv : Inv s) (p : Fin n) (c : Byte)
    (at_ : (t.procs p).pc = .woken c) : (t.procs p).state = .running := by
  have woken := inv.woken
  cases taken <;> simp at at_ ⊢ <;> grind

/-- A walk that moves on from slot `k` leaves no waiter there: a process on its way to
sleep holds its own `slock`, and one that sleeps on `&uart_tx_r` is marked. -/
theorem Inv.visited (inv : Inv s) {k : Fin n} {c : Byte} (at_ : s.tx = .visit k c) :
    ¬ (s.procs k).wakeup.Waits := by
  have mine : s.HoldsSlock none k := ⟨c, at_⟩
  have own := @Owned.unique _ _ _ _ inv.slock k none (some k) mine
  have chan := inv.chan k
  rintro ⟨c, way | way | ⟨asleep, sleeping⟩⟩ <;> grind

/-- The process that the walk skips does not wait: it runs the walk itself, or its hart
does. -/
theorem Inv.skipped (inv : Inv s) {o : Owner n} {k : Fin n} {c : Byte}
    (at_ : s.tx = .wake k c) (owner : s.lock = some o) (self : o.cur = some k) :
    ¬ (s.procs k).Waits := by
  have inner := inv.inner
  have tx := inv.tx
  have frozen := inv.frozen k
  cases o with
  | proc p => grind
  | intr cur => grind

/-- A waiter before a step that neither makes room nor passes its slot. -/
theorem Inv.pending (inv : Inv s) {p : Fin n} (waits : (s.procs p).Waits)
    (full : s.full → t.full) (ahead : s.tx.Ahead p → t.tx.Ahead p) :
    t.full ∨ t.tx.Ahead p :=
  (inv.waits p waits).imp full ahead

theorem Step.waits (taken : Step s e t) (inv : Inv s) (p : Fin n)
    (waits : (t.procs p).Waits) : t.full ∨ t.tx.Ahead p := by
  have inner := inv.inner
  have tx := inv.tx
  cases taken with
  | sleepAcquire at_ full free => exact .inl full
  | @accept q c at_ room =>
    -- nobody waits: the queue has room and no wakeup is under way
    have still : s.tx = .idle := by grind
    have waited : (s.procs p).Waits := by
      simp at waits
      grind
    rcases inv.waits p waited with full | ahead
    · exact absurd full room
    · simp [still, TxPc.Ahead] at ahead
  | take at_ => exact .inr (by simp [TxPc.Ahead])
  | wakeSkip at_ owner self =>
    have passed := inv.skipped at_ owner self
    exact inv.pending waits id (by grind)
  | @wakeVisit k c at_ =>
    have passed := inv.visited at_
    have another : p ≠ k := by
      rintro rfl
      simp at waits
      exact passed waits
    exact inv.pending (by simpa [another] using waits) id (by grind)
  | _ =>
    refine inv.pending ?_ ?_ ?_
    · simp at waits
      grind
    · simp [State.full]
    · first
        | exact id
        | simp; grind

theorem Step.loaded (taken : Step s e t) (inv : Inv s) (at_ : t.tx = .status ∨ t.tx = .take) :
    t.r ≠ t.w := by
  have inner := inv.inner
  have tx := inv.tx
  have loaded := inv.loaded
  cases taken <;> simp at at_ ⊢ <;> grind

theorem Step.queue (taken : Step s e t) (inv : Inv s) : ∃ q, Queue t q := by
  obtain ⟨q, queue⟩ := inv.queue
  have ring := queue.ring
  have room := queue.room
  have split := queue.split
  have count := queue.count
  have inner := inv.inner
  have tx := inv.tx
  cases taken with
  | @accept p c at_ space =>
    have still : s.tx = .idle := by grind
    have less : q.length < UART_TX_BUF_SIZE := by
      refine lt_of_le_of_ne room fun full => space ?_
      rw [State.full, ring.top_eq, full]
    refine ⟨q ++ [c], ring.push size_dvd_word less c, ?_, ?_, ?_⟩
    · simpa using Nat.succ_le_of_lt less
    · simp [split, still, TxPc.hand]
    · simpa [still, TxPc.hand] using count
  | interrupt free preempts =>
    have still : s.tx = .idle := by grind
    exact ⟨q, ring, room, by simpa [still, TxPc.hand] using split,
      by simpa [still, TxPc.hand] using count⟩
  | take at_ =>
    cases q with
    | nil =>
      exact absurd ((ring.eq_iff (by decide)).mpr rfl) (inv.loaded (.inr at_))
    | cons x rest =>
      obtain ⟨first, popped⟩ := ring.pop size_dvd_word
      rw [List.length_cons] at room
      refine ⟨rest, popped, by omega, ?_, ?_⟩
      · simp [split, at_, TxPc.hand, first]
      · simp [count, at_, TxPc.hand]
  | thr at_ =>
    exact ⟨q, ring, room, by simpa [at_, TxPc.hand] using split,
      by simpa [at_, TxPc.hand] using count⟩
  | sleepMark | sleepReturn | sleepAcquire | dispatchAsleep | call | acquire | sleepRelease
  | panic | yield | sleepOther | wakeOther | dispatch | exit | reap | alloc | ready =>
    exact ⟨q, ring, room, split, count⟩
  | @lsr idle at_ =>
    cases idle <;> exact ⟨q, ring, room, by simpa [at_, TxPc.hand] using split,
      by simpa [at_, TxPc.hand] using count⟩
  | empty at_ | nonempty at_ | wakeSkip at_ | wakeAcquire at_ | wakeVisit at_ | wakeDone at_
  | finish at_ | finishIntr at_ =>
    exact ⟨q, ring, room, by simpa [at_, TxPc.hand] using split,
      by simpa [at_, TxPc.hand] using count⟩

theorem Inv.step (inv : Inv s) (taken : Step s e t) : Inv t where
  inner := taken.inner inv
  tx := taken.tx inv
  frozen := taken.frozen inv
  slock := taken.slock inv
  chan := taken.chan inv
  woken := taken.woken inv
  active := taken.active inv
  waits := taken.waits inv
  loaded := taken.loaded inv
  queue := taken.queue inv

end

/-- Whether the last register access of `uartstart` was a read of `LSR` that found the
idle bit set. -/
def armed (past : List (Event n)) : Bool :=
  past.foldl (fun before e => match e with
    | .lsr idle => idle
    | .thr _ => false
    | _ => before) false

/-- Places between a read of `LSR` that found the idle bit set and the write of `THR`. -/
def TxPc.armed : TxPc n → Bool
  | .take | .wake _ _ | .visit _ _ | .write _ => true
  | _ => false

theorem armed_snoc (past : List (Event n)) (e : Event n) : Uart.armed (past ++ [e]) =
    match e with
    | .lsr idle => idle
    | .thr _ => false
    | _ => Uart.armed past := by
  simp [Uart.armed]

theorem Step.armed {s t : State n} {e : Event n} {past : List (Event n)} (taken : Step s e t)
    (before : s.tx.armed = true → Uart.armed past = true)
    (now : t.tx.armed = true) : Uart.armed (past ++ [e]) = true := by
  rw [armed_snoc]
  cases taken with
  | @lsr idle at_ =>
    cases idle with
    | true => rfl
    | false => simp [TxPc.armed] at now
  | thr at_ => simp [TxPc.armed] at now
  | accept at_ room => simp [TxPc.armed, State.goto, State.setProc] at now
  | interrupt | empty | nonempty => simp [TxPc.armed] at now
  | take at_ | wakeSkip at_ | wakeAcquire at_ | wakeVisit at_ | wakeDone at_ =>
    exact before (by simp [at_, TxPc.armed])
  | finish | finishIntr => simp [TxPc.armed, State.goto, State.setProc] at now
  | _ => exact before now

theorem Start.tracked {start s : State n} {past : List (Event n)} (initial : Start start)
    (run : Trace Step start past s) :
    Inv s ∧ (s.tx.armed = true → Uart.armed past = true) := by
  refine run.invariant (fun past s => Inv s ∧ (s.tx.armed = true → Uart.armed past = true))
    ⟨initial.inv, by simp [initial.tx, TxPc.armed]⟩ ?_
  rintro past s e t ⟨inv, before⟩ taken
  exact ⟨inv.step taken, taken.armed before⟩

/-- The transmit queue delivers the accepted bytes to `THR` in order, never past an idle
bit that was not set, and loses no wakeup. The counters are 64 bits wide: up to `WORD`
bytes they are ordered as numbers, and modulo `WORD` they are ordered for good. -/
theorem uart_tx_correct {start s : State n} {past : List (Event n)} (initial : Start start)
    (run : Trace Step start past s) :
    (s.lock = none → (s.w + WORD - s.r) % WORD ≤ UART_TX_BUF_SIZE ∧
      s.r = s.sent.length % WORD ∧
      (s.accepted.length < WORD →
        s.r ≤ s.w ∧ s.w ≤ s.r + UART_TX_BUF_SIZE ∧ s.sent = s.accepted.take s.r)) ∧
    s.sent <+: s.accepted ∧
    (∀ c t, Step s (.thr c) t → armed past = true) ∧
    (∀ p, (s.procs p).state = .sleeping → (s.procs p).chan = .tx → ¬ s.full →
      s.tx.Ahead p) := by
  obtain ⟨inv, tracked⟩ := initial.tracked run
  obtain ⟨q, queue⟩ := inv.queue
  have size : UART_TX_BUF_SIZE < WORD := by decide
  have room := queue.room
  refine ⟨?_, ?_, ?_, ?_⟩
  · intro free
    have still : s.tx = .idle := by
      by_contra busy
      rcases inv.tx.mp busy with ⟨cur, held⟩ | ⟨p, at_⟩
      · simp [free] at held
      · have held := (inv.inner p).mpr (by simp [at_, Pc.inner])
        simp [free] at held
    have count : s.r = s.sent.length % WORD := by
      simpa [still, TxPc.hand] using queue.count
    have split : s.accepted = s.sent ++ q := by
      simpa [still, TxPc.hand] using queue.split
    refine ⟨?_, count, ?_⟩
    · rw [queue.ring.length_eq (by omega)]
      exact room
    · intro short
      rw [split, List.length_append] at short
      rw [Nat.mod_eq_of_lt (by omega)] at count
      have top : s.w = s.r + q.length := by
        rw [queue.ring.top_eq, Nat.mod_eq_of_lt (by omega)]
      refine ⟨by omega, by omega, ?_⟩
      rw [split, count, List.take_left]
  · rw [queue.split, List.append_assoc]
    exact List.prefix_append _ _
  · intro c t written
    cases written with
    | thr at_ => exact tracked (by simp [at_, TxPc.armed])
  · intro p sleeping chan space
    obtain ⟨c, asleep | woken⟩ := (inv.chan p).mp chan
    · exact (inv.waits p ⟨c, .inr (.inr ⟨asleep, sleeping⟩)⟩).resolve_left space
    · simp [inv.woken p c woken] at sleeping

/-- One running process. -/
def lone : State 1 where
  procs _ := { state := .running }

theorem lone_start : Start lone := by
  constructor <;> simp [lone]

/-- The process sends a byte through the queue. -/
theorem lone_run : ∃ past s, Trace Step lone past s ∧ s.lock = none ∧ s.sent = [7] ∧
    s.accepted = [7] := by
  have run := (((((((((((Trace.nil : Trace Step lone [] lone).snoc
    (.call (p := 0) (c := 7) rfl rfl (by simp [State.Interrupted, lone]))).snoc
    (.acquire (p := 0) (c := 7) rfl rfl rfl)).snoc
    (.accept (p := 0) (c := 7) rfl (by decide))).snoc (.nonempty rfl (by decide))).snoc
    (@Step.lsr _ _ true rfl)).snoc (.take rfl)).snoc
    (.wakeSkip (k := 0) rfl rfl rfl)).snoc (.wakeDone rfl)).snoc (.thr rfl)).snoc
    (.empty rfl (by decide))).snoc (.finish (p := 0) rfl rfl)
  exact ⟨_, _, run, rfl, rfl, rfl⟩

theorem uart_tx_correct_lone : ∃ s, Reachable Step lone s ∧ s.sent = [7] ∧
    s.r ≤ s.w ∧ s.w ≤ s.r + UART_TX_BUF_SIZE ∧ s.sent = s.accepted.take s.r := by
  obtain ⟨past, s, run, free, sent, accepted⟩ := lone_run
  obtain ⟨ordered, _⟩ := uart_tx_correct lone_start run
  exact ⟨s, ⟨past, run⟩, sent, (ordered free).2.2 (by rw [accepted]; decide)⟩

end HaloOS.Uart
