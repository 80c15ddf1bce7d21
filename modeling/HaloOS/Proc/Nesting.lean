import HaloOS.Lib.Owned
import HaloOS.Lib.Trace
import HaloOS.Param

/-! Interrupt nesting: `push_off`, `pop_off`, `acquire` and `release`, `spinlock.c`, and the switches
of `proc.c`. `noff` and `intena` belong to a hart, the nesting to a thread that moves between harts.
A step runs from one access to shared memory or to the interrupt enable bit to the next. -/

namespace HaloOS.Nesting

open Lib

/-- A spinlock: `p->slock`, or the one at another address. -/
inductive Lock (n : ℕ) where
  | slock (p : Fin n)
  | other (a : ℕ)
  deriving DecidableEq

/-- The kernel thread of a process, or the scheduler of a hart. -/
inductive Tid (m n : ℕ) where
  | proc (p : Fin n)
  | sched (h : Fin m)
  deriving DecidableEq

/-- What the body of a call does in turn. -/
inductive Op (n : ℕ) where
  | pushOff
  | popOff
  | acquire (lk : Lock n)
  | release (lk : Lock n)
  /-- `p->state = RUNNABLE` or `SLEEPING`. -/
  | setState
  /-- `sched`, after its `myproc`. -/
  | sched
  /-- `intr_on` or `intr_off`. -/
  | setIntr (on : Bool)
  /-- The test for `RUNNABLE` in `scheduler`, and the switch to `p->cont`. -/
  | swtch (p : Fin n)
  deriving DecidableEq

/-- Where a thread stands in what it does. -/
inductive Pc (n : ℕ) where
  | idle
  /-- In `push_off`, called from `acquire` if a lock is given, with `old` read. -/
  | pushing (old : Bool) (lk : Option (Lock n))
  /-- In `acquire`, before the test of `holdinglock`. -/
  | check (lk : Lock n)
  /-- Before the next `atmswap`. -/
  | spin (lk : Lock n)
  /-- Before `lock->cpu = mycpu()`. -/
  | own (lk : Lock n)
  /-- In `release`, before `lock->locked = 0`. -/
  | unlock (lk : Lock n)
  /-- In `pop_off`. -/
  | popping
  /-- In `sched`, switched away from, with the local `intena`. -/
  | switched (intena : Bool)
  | panicked (message : String)
  deriving DecidableEq

/-- What an interrupt has interrupted. -/
structure Frame (n : ℕ) where
  pc : Pc n
  todo : List (Op n)
  before : Option Bool
  deriving DecidableEq

/-- A thread, with the interrupts it serves. `held`, `pushes` and `depth` count what it has acquired
and pushed and not yet released and popped; `before` is the enable bit as its outermost `push_off`
found it. -/
structure Thread (n : ℕ) where
  pc : Pc n := .idle
  todo : List (Op n) := []
  frames : List (Frame n) := []
  held : List (Lock n) := []
  pushes : ℕ := 0
  depth : ℕ := 0
  before : Option Bool := none
  deriving DecidableEq

/-- `struct cpu` with the interrupt enable bit, and the thread whose stack is in use. -/
structure Hart (m n : ℕ) where
  noff : ℕ := 0
  intena : Bool := false
  sie : Bool := false
  run : Tid m n
  deriving DecidableEq

/-- `locked` names the hart whose `atmswap` found the lock free; `running` is `p->state = RUNNING`,
the other states are not told apart. -/
structure State (m n : ℕ) where
  hart : Fin m → Hart m n
  thread : Tid m n → Thread n
  running : Fin n → Bool
  locked : Lock n → Option (Fin m)
  cpu : Lock n → Option (Fin m)

variable {m n : ℕ}

namespace State

/-- The thread on a hart. -/
def current (s : State m n) (h : Fin m) : Thread n := s.thread (s.hart h).run

/-- A hart and the thread on it change. -/
def put (s : State m n) (h : Fin m) (c : Hart m n) (T : Thread n) : State m n :=
  { s with
    hart := Function.update s.hart h c
    thread := Function.update s.thread (s.hart h).run T }

def goto (s : State m n) (h : Fin m) (pc : Pc n) : State m n :=
  s.put h (s.hart h) { s.current h with pc := pc }

def holdinglock (s : State m n) (h : Fin m) (lk : Lock n) : Prop :=
  (s.locked lk).isSome = true ∧ s.cpu lk = some h

instance (s : State m n) (h : Fin m) (lk : Lock n) : Decidable (s.holdinglock h lk) :=
  inferInstanceAs (Decidable (_ ∧ _))

/-- `old = intr_get()`. -/
def enter (s : State m n) (h : Fin m) (lk : Option (Lock n)) (rest : List (Op n)) : State m n :=
  let T := s.current h
  s.put h (s.hart h) { T with
    pc := .pushing (s.hart h).sie lk
    todo := rest
    before := if T.depth = 0 then some (s.hart h).sie else T.before }

/-- The rest of `push_off`, interrupts being off from its first access on. -/
def pushed (s : State m n) (h : Fin m) (old : Bool) (lk : Option (Lock n)) : State m n :=
  let T := s.current h
  let c := s.hart h
  s.put h
    { c with
      sie := false
      intena := if c.noff = 0 then old else c.intena
      noff := c.noff + 1 }
    { T with
      pc := lk.elim .idle .check
      pushes := if lk = none then T.pushes + 1 else T.pushes
      depth := T.depth + 1 }

/-- `pop_off`. -/
def popped (s : State m n) (h : Fin m) : State m n :=
  let T := s.current h
  let c := s.hart h
  if c.sie = true then s.goto h (.panicked "pop_off - interruptible")
  else if c.noff < 1 then s.goto h (.panicked "pop_off")
  else s.put h
    { c with
      noff := c.noff - 1
      sie := decide (c.noff - 1 = 0) && c.intena }
    { T with
      pc := .idle
      depth := T.depth - 1 }

/-- The tests of `sched`, and the switch to the scheduler of the hart. -/
def leave (s : State m n) (h : Fin m) (p : Fin n) (rest : List (Op n)) : State m n :=
  let c := s.hart h
  if ¬ s.holdinglock h (.slock p) then s.goto h (.panicked "sched holdinglock \n")
  else if s.running p = true then s.goto h (.panicked "sched p.state is Running \n")
  else if c.sie = true then s.goto h (.panicked "sched interruptible")
  else { s with
    hart := Function.update s.hart h { c with run := .sched h }
    thread := Function.update (Function.update s.thread (.proc p)
        { s.thread (.proc p) with
          pc := .switched c.intena
          todo := rest })
      (.sched h) { s.thread (.sched h) with before := none } }

/-- `scheduler` switches to `p` if it is not `RUNNING`. -/
def resume (s : State m n) (h : Fin m) (p : Fin n) (rest : List (Op n)) : State m n :=
  let c := s.hart h
  if s.running p = true then s.put h c { s.current h with todo := rest }
  else { s with
    hart := Function.update s.hart h { c with run := .proc p }
    running := Function.update s.running p true
    thread := Function.update s.thread (s.hart h).run { s.current h with todo := rest } }

/-- The first step of an operation. -/
def start (s : State m n) (h : Fin m) (rest : List (Op n)) : Op n → State m n
  | .pushOff => s.enter h none rest
  | .popOff =>
    let T := s.current h
    s.put h (s.hart h) { T with
      pc := .popping
      todo := rest
      pushes := T.pushes - 1 }
  | .acquire lk => s.enter h (some lk) rest
  | .release lk =>
    let T := s.current h
    if ¬ s.holdinglock h lk then s.goto h (.panicked "release...\n")
    else { s.put h (s.hart h) { T with
        pc := .unlock lk
        todo := rest
        held := T.held.erase lk } with
      cpu := Function.update s.cpu lk none }
  | .setState =>
    match (s.hart h).run with
    | .proc p => { s.put h (s.hart h) { s.current h with todo := rest } with
      running := Function.update s.running p false }
    | .sched _ => s
  | .sched =>
    match (s.hart h).run with
    | .proc p => s.leave h p rest
    | .sched _ => s
  | .setIntr on => s.put h { s.hart h with sie := on } { s.current h with todo := rest }
  | .swtch p => s.resume h p rest

/-- The next step of the thread on a hart, if it does not wait. -/
def advance (s : State m n) (h : Fin m) : Option (State m n) :=
  let T := s.current h
  match T.pc with
  | .idle =>
    match T.todo with
    | [] => none
    | op :: rest => some (s.start h rest op)
  | .pushing old lk => some (s.pushed h old lk)
  | .check lk =>
    some (if s.holdinglock h lk then s.goto h (.panicked "acquire...\n") else s.goto h (.spin lk))
  | .spin lk =>
    if (s.locked lk).isSome = true then none
    else some { s.goto h (.own lk) with locked := Function.update s.locked lk (some h) }
  | .own lk =>
    some { s.put h (s.hart h) { T with
        pc := .idle
        held := lk :: T.held } with
      cpu := Function.update s.cpu lk (some h) }
  | .unlock lk => some { s.goto h .popping with locked := Function.update s.locked lk none }
  | .popping => some (s.popped h)
  | .switched intena =>
    some (s.put h { s.hart h with intena := intena } { T with pc := .idle })
  | .panicked _ => none

end State

/-- The calls that a thread makes. -/
inductive Call (n : ℕ) where
  | pushOff
  | popOff
  | acquire (lk : Lock n)
  | release (lk : Lock n)
  | yield (p : Fin n)
  | sleep (p : Fin n) (lk : Lock n)
  /-- `intr_on` and `intr_off` outside of all this: `usertrap`, `usertrapret` and `scheduler`. -/
  | intr (on : Bool)
  /-- One round of `scheduler`, which finds `p` `RUNNABLE` or not. -/
  | scan (p : Fin n) (ready : Bool)
  deriving DecidableEq

def Call.script : Call n → List (Op n)
  | .pushOff => [.pushOff]
  | .popOff => [.popOff]
  | .acquire lk => [.acquire lk]
  | .release lk => [.release lk]
  | .yield p => [.pushOff, .popOff, .acquire (.slock p), .setState, .pushOff, .popOff, .sched,
      .release (.slock p)]
  | .sleep p lk => [.pushOff, .popOff, .acquire (.slock p), .release lk, .setState, .pushOff, .popOff,
      .sched, .release (.slock p), .acquire lk]
  | .intr on => [.setIntr on]
  | .scan p true => [.acquire (.slock p), .swtch p, .release (.slock p)]
  | .scan p false => [.acquire (.slock p), .release (.slock p)]

/-- Which calls a thread makes where. A release and a `pop_off` match an earlier acquire and
`push_off`, no lock is acquired twice, and `yield` and `sleep` come with no other spinlock than the
one passed; with `strict`, with no `push_off` outstanding either. A scheduler runs its loop, and calls
the rest from interrupts only. -/
def Call.allowed (strict : Bool) (t : Tid m n) (T : Thread n) : Call n → Bool
  | .pushOff => serves
  | .popOff => serves && decide (0 < T.pushes)
  | .acquire lk => serves && decide (lk ∉ T.held)
  | .release lk => serves && decide (lk ∈ T.held)
  | .yield p => decide (t = .proc p ∧ T.held = []) && (!strict || T.pushes == 0)
  | .sleep p lk =>
    decide (t = .proc p ∧ T.held = [lk] ∧ lk ≠ .slock p) && (!strict || T.pushes == 0)
  | .intr on =>
    match t with
    | .proc _ => decide (T.frames = [] ∧ T.held = [] ∧ T.pushes = 0)
    | .sched _ => on && decide (T.frames = [])
  | .scan _ _ =>
    match t with
    | .proc _ => false
    | .sched _ => decide (T.frames = [])
where
  serves : Bool :=
    match t with
    | .proc _ => true
    | .sched _ => decide (T.frames ≠ [])

/-- What a hart does next. -/
inductive Act (n : ℕ) where
  | advance
  | call (c : Call n)
  | interrupt
  /-- The return from an interrupt, `sret` with the `sstatus` of its entry. -/
  | iret
  deriving DecidableEq

def State.next (strict : Bool) (s : State m n) (h : Fin m) : Act n → Option (State m n)
  | .advance => s.advance h
  | .call c =>
    let T := s.current h
    if T.pc = .idle ∧ T.todo = [] ∧ c.allowed strict (s.hart h).run T = true then
      some (s.put h (s.hart h) { T with todo := c.script })
    else none
  | .interrupt =>
    let T := s.current h
    if (s.hart h).sie = true then
      some (s.put h { s.hart h with sie := false } { T with
        pc := .idle
        todo := []
        frames := ⟨T.pc, T.todo, T.before⟩ :: T.frames })
    else none
  | .iret =>
    let T := s.current h
    match T.frames with
    | [] => none
    | f :: frames =>
      if T.pc = .idle ∧ T.todo = [] ∧ T.held = [] ∧ T.pushes = 0 then
        some (s.put h { s.hart h with sie := true } { T with
          pc := f.pc
          todo := f.todo
          frames := frames
          before := f.before })
      else none

def Step (strict : Bool) (s : State m n) (e : Fin m × Act n) (t : State m n) : Prop :=
  s.next strict e.1 e.2 = some t

/-- Every hart enters `scheduler`, no lock is held, and every process is to start in `forkret`, with
its `slock` in hand. -/
structure Start (s : State m n) : Prop where
  noff : ∀ h, (s.hart h).noff = 0
  run : ∀ h, (s.hart h).run = .sched h
  sched : ∀ h, s.thread (.sched h) = {}
  proc : ∀ p, s.thread (.proc p) =
    { todo := [.pushOff, .popOff, .release (.slock p)], held := [.slock p], depth := 1 }
  running : ∀ p, s.running p = false
  locked : ∀ lk, s.locked lk = none
  cpu : ∀ lk, s.cpu lk = none

/-- What a thread holds, as the rest of its call sees it. `marked` tells that its process is no longer
`RUNNING`, and `outer` that it serves no interrupt. -/
structure View (n : ℕ) where
  held : List (Lock n)
  pushes : ℕ
  marked : Bool
  outer : Bool

/-- What an operation finds, if it is not to panic. -/
def Op.ready (t : Tid m n) (v : View n) : Op n → Prop
  | .pushOff => True
  | .popOff => 0 < v.pushes
  | .acquire lk => lk ∉ v.held
  | .release lk => lk ∈ v.held ∧ v.marked = false
  | .setState => ∃ p, t = .proc p ∧ .slock p ∈ v.held
  | .sched => ∃ p, t = .proc p ∧ v.held = [.slock p] ∧ v.pushes = 0 ∧ v.marked = true
  | .setIntr _ => v.held = [] ∧ v.pushes = 0 ∧ v.outer = true
  | .swtch p => (∃ h, t = .sched h) ∧ v.held = [.slock p] ∧ v.pushes = 0 ∧ v.outer = true

/-- What an operation leaves. -/
def Op.after (v : View n) : Op n → View n
  | .pushOff => { v with pushes := v.pushes + 1 }
  | .popOff => { v with pushes := v.pushes - 1 }
  | .acquire lk => { v with held := lk :: v.held }
  | .release lk => { v with held := v.held.erase lk }
  | .setState => { v with marked := true }
  | .sched => { v with marked := false }
  | .setIntr _ => v
  | .swtch _ => v

/-- A thread that is done with a call. Outside of interrupts a scheduler then holds nothing. -/
def Settled (t : Tid m n) (v : View n) : Prop :=
  v.marked = false ∧ ∀ h, t = .sched h → v.outer = true → v.held = [] ∧ v.pushes = 0

/-- Each operation of the rest of a call is ready when its turn comes. -/
def Fits (t : Tid m n) : View n → List (Op n) → Prop
  | v, [] => Settled t v
  | v, op :: ops => op.ready t v ∧ Fits t (op.after v) ops

namespace Pc

/-- The view once the operation under way is done. -/
def view (v : View n) : Pc n → View n
  | .pushing _ none => { v with pushes := v.pushes + 1 }
  | .pushing _ (some lk) | .check lk | .spin lk | .own lk => { v with held := lk :: v.held }
  | _ => v

/-- The lock of an `acquire` or `release` under way. -/
def lock : Pc n → Option (Lock n)
  | .pushing _ (some lk) | .check lk | .spin lk | .own lk | .unlock lk => some lk
  | _ => none

/-- The `push_off` that is neither counted in `pushes` nor in `held`. -/
def extra : Pc n → ℕ
  | .check _ | .spin _ | .own _ | .unlock _ | .popping => 1
  | _ => 0

/-- The lock that is taken and not, or no longer, marked as held. -/
def taken : Pc n → List (Lock n)
  | .own lk | .unlock lk => [lk]
  | _ => []

end Pc

theorem Pc.taken_of_extra {pc : Pc n} (none : pc.extra = 0) : pc.taken = [] := by
  cases pc <;> simp_all [Pc.extra, Pc.taken]

/-- The locks whose word the thread has set. -/
def Thread.owned (T : Thread n) : List (Lock n) := T.pc.taken ++ T.held

def Thread.view (T : Thread n) (marked : Bool) : View n :=
  ⟨T.held, T.pushes, marked, decide (T.frames = [])⟩

/-- An interrupted thread goes on where interrupts were on. -/
structure FrameOk (t : Tid m n) (f : Frame n) : Prop where
  pc : f.pc = .idle ∨ ∃ lk, f.pc = .pushing true lk ∧ f.before = some true
  fits : Fits t (f.pc.view ⟨[], 0, false, true⟩) f.todo

/-- A thread on a hart. -/
structure Live (c : Hart m n) (t : Tid m n) (T : Thread n) (marked : Bool) : Prop where
  noff : c.noff = T.depth
  off : 0 < T.depth → c.sie = false
  intena : 0 < T.depth → (∀ i, T.pc ≠ .switched i) → ∀ b, T.before = some b → c.intena = b
  depth : T.depth = T.pushes + T.held.length + T.pc.extra
  nodup : T.held.Nodup
  apart : ∀ lk, T.pc.lock = some lk → lk ∉ T.held
  old : ∀ old lk, T.pc = .pushing old lk → T.depth = 0 → old = c.sie ∧ T.before = some c.sie
  saved : ∀ i, T.pc = .switched i → (∀ b, T.before = some b → i = b) ∧ 0 < T.depth
  calm : ∀ message, T.pc ≠ .panicked message
  fits : Fits t (T.pc.view (T.view marked)) T.todo
  marked : marked = true → ∃ p, t = .proc p ∧ .slock p ∈ T.held
  frames : ∀ f ∈ T.frames, FrameOk t f
  lone : T.frames.length ≤ 1
  inner : T.frames ≠ [] → (T.depth = 0 → c.sie = false) ∧ (0 < T.depth → T.before = some false)

/-- The thread of `p`, when no hart runs it: its context is that of a `sched`, or of `forkret`. -/
structure Away (T : Thread n) (p : Fin n) : Prop where
  pc : (∃ i, T.pc = .switched i ∧ ∀ b, T.before = some b → i = b) ∨
    (T.pc = .idle ∧ T.frames = [] ∧ T.before = none)
  held : T.held = [.slock p]
  pushes : T.pushes = 0
  depth : T.depth = 1
  fits : Fits (Tid.proc p : Tid m n) (T.view false) T.todo
  frames : ∀ f ∈ T.frames, FrameOk (Tid.proc p : Tid m n) f
  lone : T.frames.length ≤ 1
  inner : T.frames ≠ [] → T.before = some false

/-- The scheduler of `h` while `p` runs there. -/
structure Parked (T : Thread n) (h : Fin m) (p : Fin n) : Prop where
  pc : T.pc = .idle
  held : T.held = [.slock p]
  pushes : T.pushes = 0
  depth : T.depth = 1
  frames : T.frames = []
  fits : Fits (Tid.sched h : Tid m n) (T.view false) T.todo

/-- A process on a hart that is no longer `RUNNING`. -/
def State.marked (s : State m n) : Tid m n → Bool
  | .proc p => !s.running p
  | .sched _ => false

structure Inv (s : State m n) : Prop where
  live : ∀ h, Live (s.hart h) (s.hart h).run (s.current h) (s.marked (s.hart h).run)
  sched : ∀ h g, (s.hart h).run = .sched g → g = h
  one : ∀ h g, (s.hart h).run = (s.hart g).run → h = g
  away : ∀ p, (∀ h, (s.hart h).run ≠ .proc p) → Away (m := m) (s.thread (.proc p)) p ∧ s.running p = false
  parked : ∀ h p, (s.hart h).run = .proc p → Parked (s.thread (.sched h)) h p
  locked : Owned s.locked fun h lk => lk ∈ (s.current h).owned
  cpu : Owned s.cpu fun h lk => lk ∈ (s.current h).held

section Update

variable {s : State m n} {h g : Fin m} {c : Hart m n} {T : Thread n}

@[simp] theorem State.put_hart (s : State m n) (h g : Fin m) (c : Hart m n) (T : Thread n) :
    (s.put h c T).hart g = if g = h then c else s.hart g := by
  by_cases same : g = h
  · subst same
    simp [put]
  · simp [put, same]

@[simp] theorem State.put_running (s : State m n) (h : Fin m) (c : Hart m n) (T : Thread n) :
    (s.put h c T).running = s.running := rfl

@[simp] theorem State.put_locked (s : State m n) (h : Fin m) (c : Hart m n) (T : Thread n) :
    (s.put h c T).locked = s.locked := rfl

@[simp] theorem State.put_cpu (s : State m n) (h : Fin m) (c : Hart m n) (T : Thread n) :
    (s.put h c T).cpu = s.cpu := rfl

theorem State.put_thread {t : Tid m n} (other : t ≠ (s.hart h).run) :
    (s.put h c T).thread t = s.thread t := by
  unfold put
  exact Function.update_of_ne other _ _

theorem Inv.put_current (inv : Inv s) (run : c.run = (s.hart h).run) (g : Fin m) :
    (s.put h c T).current g = if g = h then T else s.current g := by
  unfold State.current
  by_cases same : g = h
  · subst same
    rw [State.put_hart, if_pos rfl, if_pos rfl, run]
    exact Function.update_self _ _ _
  · rw [State.put_hart, if_neg same, if_neg same]
    exact State.put_thread fun both => same (inv.one g h both)

/-- A step that touches its hart, its thread, the state of its own process and the locks. -/
theorem Inv.change (inv : Inv s) (run : c.run = (s.hart h).run) {running : Fin n → Bool}
    {locked cpu : Lock n → Option (Fin m)}
    (same : ∀ p, (s.hart h).run ≠ .proc p → running p = s.running p)
    (live : Live c c.run T ({ s with running := running }.marked c.run))
    (locks : Owned locked fun g lk => lk ∈ (if g = h then T else s.current g).owned)
    (cpus : Owned cpu fun g lk => lk ∈ (if g = h then T else s.current g).held) :
    Inv { s.put h c T with running := running, locked := locked, cpu := cpu } := by
  have harts : ∀ g, ((s.put h c T).hart g).run = (s.hart g).run := by
    intro g
    rw [State.put_hart]
    split
    · rename_i here
      rw [here, run]
    · rfl
  have current := inv.put_current (T := T) run
  refine ⟨fun g => ?_, fun g f at_ => ?_, fun g f both => ?_, fun p off => ?_, fun g p at_ => ?_,
    ?_, ?_⟩
  · change Live ((s.put h c T).hart g) ((s.put h c T).hart g).run ((s.put h c T).current g) _
    rw [current, State.put_hart]
    by_cases here : g = h
    · subst here
      rw [if_pos rfl, if_pos rfl]
      exact live
    · rw [if_neg here, if_neg here]
      have marked : { s with running := running }.marked (s.hart g).run = s.marked (s.hart g).run := by
        cases at_ : (s.hart g).run with
        | proc p =>
          have other : (s.hart h).run ≠ .proc p := fun both => here (inv.one g h (at_.trans both.symm))
          simp only [State.marked, same p other]
        | sched f => rfl
      have old := inv.live g
      rw [← marked] at old
      exact old
  · exact inv.sched g f ((harts g).symm.trans at_)
  · exact inv.one g f (((harts g).symm.trans both).trans (harts f))
  · have before : ∀ g, (s.hart g).run ≠ .proc p := fun g at_ => off g ((harts g).trans at_)
    obtain ⟨away, still⟩ := inv.away p before
    refine ⟨?_, ?_⟩
    · change Away ((s.put h c T).thread (.proc p)) p
      rwa [State.put_thread fun both => before h both.symm]
    · exact (same p (before h)).trans still
  · have before : (s.hart g).run = .proc p := (harts g).symm.trans at_
    change Parked ((s.put h c T).thread (.sched g)) g p
    rw [State.put_thread fun both => ?_]
    · exact inv.parked g p before
    · have here := inv.sched h g both.symm
      rw [here] at before
      rw [before] at both
      cases both
  · refine locks.congr fun g lk => ?_
    change lk ∈ ((s.put h c T).current g).owned ↔ _
    rw [current]
  · refine cpus.congr fun g lk => ?_
    change lk ∈ ((s.put h c T).current g).held ↔ _
    rw [current]

/-- A step that touches its hart and its thread only. -/
theorem Inv.put (inv : Inv s) (run : c.run = (s.hart h).run)
    (live : Live c c.run T (s.marked c.run))
    (owned : ∀ lk, lk ∈ T.owned ↔ lk ∈ (s.current h).owned)
    (held : ∀ lk, lk ∈ T.held ↔ lk ∈ (s.current h).held) : Inv (s.put h c T) := by
  refine inv.change run (fun _ _ => rfl) live (inv.locked.congr fun g lk => ?_)
    (inv.cpu.congr fun g lk => ?_)
  · by_cases here : g = h
    · rw [if_pos here, here]
      exact owned lk
    · rw [if_neg here]
  · by_cases here : g = h
    · rw [if_pos here, here]
      exact held lk
    · rw [if_neg here]

end Update

section Steps

variable {c : Hart m n} {t : Tid m n} {T : Thread n} {marked : Bool} {rest : List (Op n)}
  {lk : Lock n}

/-- The first access of `push_off`. -/
theorem Live.enter (live : Live c t T marked) (idle : T.pc = .idle) {op : Op n}
    (lk : Option (Lock n)) (todo : T.todo = op :: rest)
    (call : op = lk.elim .pushOff .acquire) :
    Live c t { T with
      pc := .pushing c.sie lk
      todo := rest
      before := if T.depth = 0 then some c.sie else T.before } marked := by
  have fits := live.fits
  have depth := live.depth
  rw [todo, idle] at fits
  rw [idle] at depth
  obtain ⟨ready, fits⟩ := fits
  refine ⟨live.noff, live.off, ?_, depth, live.nodup, ?_, ?_, nofun, nofun, ?_, live.marked,
    live.frames, live.lone, ?_⟩
  · intro (deep : 0 < T.depth) _ b found
    refine live.intena deep (by simp [idle]) b ?_
    rwa [if_neg (Nat.ne_of_gt deep)] at found
  · cases lk with
    | none => simp [Pc.lock]
    | some lk =>
      subst call
      intro lk' same
      obtain rfl : lk = lk' := by simpa [Pc.lock] using same
      exact ready
  · intro old lk' same shallow
    obtain ⟨rfl, rfl⟩ := by simpa using same
    exact ⟨rfl, if_pos shallow⟩
  · subst call
    cases lk <;> exact fits
  · intro serving
    refine ⟨(live.inner serving).1, fun (deep : 0 < T.depth) => ?_⟩
    rw [← (live.inner serving).2 deep]
    exact if_neg (by omega)

/-- The rest of `push_off`. -/
theorem Live.pushed (live : Live c t T marked) {old : Bool} {lk : Option (Lock n)}
    (at_ : T.pc = .pushing old lk) :
    Live
      { c with
        sie := false
        intena := if c.noff = 0 then old else c.intena
        noff := c.noff + 1 }
      t
      { T with
        pc := lk.elim .idle .check
        pushes := if lk = none then T.pushes + 1 else T.pushes
        depth := T.depth + 1 } marked := by
  have fits := live.fits
  have depth := live.depth
  have apart := live.apart
  rw [at_] at fits depth apart
  refine ⟨by rw [live.noff], fun _ => rfl, ?_, ?_, live.nodup, ?_, ?_, ?_, ?_, ?_, live.marked,
    live.frames, live.lone, ?_⟩
  · intro _ _ b found
    dsimp only
    rw [live.noff]
    by_cases shallow : T.depth = 0
    · obtain ⟨same, before⟩ := live.old old lk at_ shallow
      rw [if_pos shallow, same]
      exact Option.some.inj (before.symm.trans found)
    · rw [if_neg shallow]
      exact live.intena (by omega) (by simp [at_]) b found
  · cases lk <;> simp [Pc.extra] at depth ⊢ <;> omega
  · cases lk with
    | none => simp [Pc.lock]
    | some lk => exact apart
  · cases lk <;> simp
  · cases lk <;> simp
  · cases lk <;> simp
  · cases lk <;> exact fits
  · intro serving
    obtain ⟨shallow, deep⟩ := live.inner serving
    refine ⟨fun zero => absurd zero (Nat.succ_ne_zero _), fun _ => ?_⟩
    by_cases zero : T.depth = 0
    · exact (live.old old lk at_ zero).2.trans (congrArg some (shallow zero))
    · exact deep (by omega)

/-- A step within `acquire` or `release` that changes no count. -/
theorem Live.goto (live : Live c t T marked) {pc : Pc n} (extra : pc.extra = T.pc.extra)
    (lock : ∀ lk, pc.lock = some lk → T.pc.lock = some lk)
    (view : ∀ v : View n, pc.view v = T.pc.view v) (quiet : ∀ old lk, pc ≠ .pushing old lk)
    (here : ∀ i, pc ≠ .switched i) (there : ∀ i, T.pc ≠ .switched i)
    (calm : ∀ message, pc ≠ .panicked message) : Live c t { T with pc := pc } marked := by
  refine ⟨live.noff, live.off, fun deep _ => live.intena deep there, ?_, live.nodup,
    fun lk wanted => live.apart lk (lock lk wanted), fun old lk at_ => absurd at_ (quiet old lk),
    fun i at_ => absurd at_ (here i), calm, ?_, live.marked, live.frames, live.lone, live.inner⟩
  · rw [live.depth, extra]
  · have fits := live.fits
    rwa [← view] at fits

/-- The end of `acquire`. -/
theorem Live.acquired (live : Live c t T marked) (at_ : T.pc = .own lk) :
    Live c t { T with
      pc := .idle
      held := lk :: T.held } marked := by
  have fits := live.fits
  have depth := live.depth
  rw [at_] at fits depth
  refine ⟨live.noff, live.off, fun deep _ => live.intena deep (by simp [at_]), ?_, ?_, nofun, nofun,
    nofun, nofun, fits, fun gone => ?_, live.frames, live.lone, live.inner⟩
  · simp only [Pc.extra, List.length_cons] at depth ⊢
    omega
  · exact List.nodup_cons.mpr ⟨live.apart lk (by rw [at_]; rfl), live.nodup⟩
  · obtain ⟨p, same, member⟩ := live.marked gone
    exact ⟨p, same, List.mem_cons_of_mem lk member⟩

/-- The start of `release`. -/
theorem Live.release (live : Live c t T marked) (idle : T.pc = .idle)
    (todo : T.todo = .release lk :: rest) :
    lk ∈ T.held ∧ Live c t { T with
      pc := .unlock lk
      todo := rest
      held := T.held.erase lk } marked := by
  have fits := live.fits
  have depth := live.depth
  rw [todo, idle] at fits
  rw [idle] at depth
  obtain ⟨⟨member, unmarked⟩, fits⟩ := fits
  change lk ∈ T.held at member
  have some : 0 < T.held.length := List.length_pos_of_mem member
  refine ⟨member, live.noff, live.off, fun deep _ => live.intena deep (by simp [idle]), ?_,
    live.nodup.erase lk, fun lk' same => ?_, nofun, nofun, nofun, fits, fun gone => ?_,
    live.frames, live.lone, live.inner⟩
  · have length := List.length_erase_of_mem member
    simp only [Pc.extra] at depth ⊢
    rw [length]
    omega
  · obtain rfl : lk = lk' := by simpa [Pc.lock] using same
    exact live.nodup.not_mem_erase
  · rw [gone] at unmarked
    exact nomatch unmarked

/-- `pop_off` is entered. -/
theorem Live.popping (live : Live c t T marked) (idle : T.pc = .idle)
    (todo : T.todo = .popOff :: rest) :
    Live c t { T with
      pc := .popping
      todo := rest
      pushes := T.pushes - 1 } marked := by
  have fits := live.fits
  have depth := live.depth
  rw [todo, idle] at fits
  rw [idle] at depth
  obtain ⟨ready, fits⟩ := fits
  have some : 0 < T.pushes := ready
  refine ⟨live.noff, live.off, fun deep _ => live.intena deep (by simp [idle]), ?_, live.nodup,
    nofun, nofun, nofun, nofun, fits, live.marked, live.frames, live.lone, live.inner⟩
  simp only [Pc.extra] at depth ⊢
  omega

/-- `pop_off` returns: on the way out of the last one the enable bit is the one before. -/
theorem Live.popped (live : Live c t T marked) (at_ : T.pc = .popping) :
    c.sie = false ∧ 1 ≤ c.noff ∧ (T.depth = 1 → ∀ b, T.before = some b → (decide (c.noff - 1 = 0) && c.intena) = b) ∧
    Live
      { c with
        noff := c.noff - 1
        sie := decide (c.noff - 1 = 0) && c.intena }
      t
      { T with
        pc := .idle
        depth := T.depth - 1 } marked := by
  have fits := live.fits
  have depth := live.depth
  rw [at_] at fits depth
  simp only [Pc.extra] at depth
  have deep : 0 < T.depth := by omega
  have intena := live.intena deep (by simp [at_])
  refine ⟨live.off deep, by rw [live.noff]; omega, fun one b found => ?_, by rw [live.noff], fun still => ?_,
    fun _ _ => intena, ?_, live.nodup, nofun, nofun, nofun, nofun, fits, live.marked, live.frames,
    live.lone, fun serving => ⟨fun zero => ?_, fun _ => (live.inner serving).2 deep⟩⟩
  · rw [live.noff, one, intena b found]
    rfl
  · dsimp only at still ⊢
    rw [live.noff, decide_eq_false (by omega)]
    rfl
  · simp only [Pc.extra]
    omega
  · dsimp only
    rw [intena false ((live.inner serving).2 deep), Bool.and_false]

/-- The end of `sched`, on whatever hart. -/
theorem Live.back (live : Live c t T marked) {i : Bool} (at_ : T.pc = .switched i) :
    Live { c with intena := i } t { T with pc := .idle } marked := by
  have fits := live.fits
  have depth := live.depth
  rw [at_] at fits depth
  exact ⟨live.noff, live.off, fun _ _ => (live.saved i at_).1, depth, live.nodup, nofun, nofun,
    nofun, nofun, fits, live.marked, live.frames, live.lone, live.inner⟩

/-- The process gives up `RUNNING`. -/
theorem Live.setState {p : Fin n} (live : Live c (.proc p) T marked) (idle : T.pc = .idle)
    (todo : T.todo = .setState :: rest) : Live c (.proc p) { T with todo := rest } true := by
  have fits := live.fits
  rw [todo, idle] at fits
  obtain ⟨ready, fits⟩ := fits
  refine ⟨live.noff, live.off, live.intena, live.depth, live.nodup, live.apart, live.old, live.saved,
    live.calm, ?_, fun _ => ready, live.frames, live.lone, live.inner⟩
  dsimp only
  rw [idle]
  exact fits

/-- Nothing is held where interrupts may come or be switched. -/
theorem Live.shallow (live : Live c t T marked) (zero : T.depth = 0) :
    T.held = [] ∧ T.pushes = 0 ∧ T.pc.extra = 0 ∧ marked = false := by
  have depth := live.depth
  have none : T.held = [] := List.eq_nil_of_length_eq_zero (by omega)
  refine ⟨none, by omega, by omega, ?_⟩
  by_contra gone
  obtain ⟨p, -, member⟩ := live.marked (by simpa using gone)
  simp [none] at member

theorem Live.setIntr {on : Bool} (live : Live c t T marked) (idle : T.pc = .idle)
    (todo : T.todo = .setIntr on :: rest) :
    Live { c with sie := on } t { T with todo := rest } marked := by
  have fits := live.fits
  have depth := live.depth
  rw [todo, idle] at fits
  rw [idle] at depth
  obtain ⟨⟨none, still, outer⟩, fits⟩ := fits
  have held : T.held = [] := none
  have pushes : T.pushes = 0 := still
  have frames : T.frames = [] := of_decide_eq_true outer
  have zero : T.depth = 0 := by
    rw [depth, held, pushes]
    rfl
  refine ⟨live.noff, fun deep => absurd zero (Nat.ne_of_gt deep), live.intena, live.depth, live.nodup,
    live.apart, fun old lk at_ => ?_, live.saved, live.calm, ?_, live.marked, live.frames, live.lone,
    fun serving => absurd frames serving⟩
  · exact absurd (idle.symm.trans at_) nofun
  · dsimp only
    rw [idle]
    exact fits

/-- A thread between two calls makes the next one. -/
theorem Live.call (live : Live c t T marked) (idle : T.pc = .idle) {script : List (Op n)}
    (fits : Fits t (T.view marked) script) : Live c t { T with todo := script } marked := by
  refine ⟨live.noff, live.off, live.intena, live.depth, live.nodup, live.apart, live.old, live.saved,
    live.calm, ?_, live.marked, live.frames, live.lone, live.inner⟩
  dsimp only
  rw [idle]
  exact fits

theorem Live.interrupt (live : Live c t T marked) (on : c.sie = true) :
    Live { c with sie := false } t { T with
      pc := .idle
      todo := []
      frames := ⟨T.pc, T.todo, T.before⟩ :: T.frames } marked := by
  have zero : T.depth = 0 := by
    by_contra deep
    rw [live.off (by omega)] at on
    exact nomatch on
  obtain ⟨held, pushes, extra, unmarked⟩ := live.shallow zero
  have frames : T.frames = [] := by
    by_contra serving
    rw [(live.inner serving).1 zero] at on
    exact nomatch on
  have fits := live.fits
  rw [Thread.view, held, pushes, unmarked, frames] at fits
  refine ⟨live.noff, fun _ => rfl, fun deep => absurd zero (Nat.ne_of_gt deep), ?_, live.nodup, nofun,
    nofun, nofun, nofun, ?_, live.marked, ?_, ?_, fun _ => ⟨fun _ => rfl, fun deep =>
      absurd zero (Nat.ne_of_gt deep)⟩⟩
  · rw [zero, pushes, held]
    rfl
  · rw [unmarked]
    refine ⟨rfl, fun h _ outer => ?_⟩
    simp [Thread.view, Pc.view] at outer
  · intro f member
    rw [frames, List.mem_singleton] at member
    subst member
    refine ⟨?_, fits⟩
    cases at_ : T.pc with
    | idle => exact .inl rfl
    | pushing old lk =>
      obtain ⟨same, before⟩ := live.old old lk at_ zero
      rw [on] at same before
      exact .inr ⟨lk, by rw [same], before⟩
    | switched i => exact absurd zero (Nat.ne_of_gt (live.saved i at_).2)
    | panicked message => exact absurd at_ (live.calm message)
    | _ =>
      rw [at_] at extra
      simp [Pc.extra] at extra
  · rw [frames]
    simp

theorem Live.iret (live : Live c t T marked) {f : Frame n} {frames : List (Frame n)}
    (serving : T.frames = f :: frames) (idle : T.pc = .idle) (held : T.held = [])
    (pushes : T.pushes = 0) :
    Live { c with sie := true } t { T with
      pc := f.pc
      todo := f.todo
      frames := frames
      before := f.before } marked := by
  have zero : T.depth = 0 := by
    rw [live.depth, held, pushes, idle]
    rfl
  obtain ⟨-, -, -, unmarked⟩ := live.shallow zero
  have lone : frames = [] := by
    have length := live.lone
    rw [serving, List.length_cons] at length
    exact List.eq_nil_of_length_eq_zero (by omega)
  obtain ⟨resumes, fits⟩ := live.frames f (by simp [serving])
  refine ⟨live.noff, fun deep => absurd zero (Nat.ne_of_gt deep), fun deep =>
    absurd zero (Nat.ne_of_gt deep), ?_, live.nodup, ?_, ?_, ?_, ?_, ?_, live.marked, by simp [lone],
    by simp [lone], by simp [lone]⟩
  · rw [zero, pushes, held]
    rcases resumes with same | ⟨lk, same, -⟩ <;> rw [same] <;> rfl
  · simp [held]
  · intro old lk at_ _
    rcases resumes with same | ⟨lk', same, before⟩
    · exact absurd (same.symm.trans at_) nofun
    · obtain ⟨rfl, -⟩ := by simpa using at_.symm.trans same
      exact ⟨rfl, before⟩
  · intro i at_
    rcases resumes with same | ⟨lk', same, -⟩ <;> exact absurd (same.symm.trans at_) nofun
  · intro message at_
    rcases resumes with same | ⟨lk', same, -⟩ <;> exact absurd (same.symm.trans at_) nofun
  · rw [Thread.view, lone, unmarked]
    dsimp only
    rw [held, pushes]
    exact fits

/-- The body of an allowed call finds what it needs at each of its operations. -/
theorem Call.fits {call : Call n} (allowed : call.allowed true t T = true)
    (settled : Settled t (T.view marked)) : Fits t (T.view marked) call.script := by
  obtain ⟨unmarked, free⟩ := settled
  have same : marked = false := unmarked
  subst same
  cases call with
  | scan p ready =>
    cases t with
    | proc q => simp [Call.allowed] at allowed
    | sched h =>
      have frames : T.frames = [] := by simpa [Call.allowed] using allowed
      obtain ⟨held, pushes⟩ := free h rfl (by simp [Thread.view, frames])
      have held' : T.held = [] := held
      have pushes' : T.pushes = 0 := pushes
      cases ready <;>
        simp [Call.script, Fits, Op.ready, Op.after, Thread.view, Settled, held', pushes', frames]
  | yield p =>
    simp only [Call.allowed, Bool.and_eq_true, decide_eq_true_eq, Bool.not_true, Bool.false_or,
      beq_iff_eq] at allowed
    obtain ⟨⟨rfl, held⟩, pushes⟩ := allowed
    simp [Call.script, Fits, Op.ready, Op.after, Thread.view, Settled, held, pushes]
  | sleep p lk =>
    simp only [Call.allowed, Bool.and_eq_true, decide_eq_true_eq, Bool.not_true, Bool.false_or,
      beq_iff_eq] at allowed
    obtain ⟨⟨rfl, held, other⟩, pushes⟩ := allowed
    simp [Call.script, Fits, Op.ready, Op.after, Thread.view, Settled, held, pushes, other, Ne.symm other]
  | intr on =>
    cases t with
    | proc q =>
      simp only [Call.allowed, decide_eq_true_eq] at allowed
      obtain ⟨frames, held, pushes⟩ := allowed
      simp [Call.script, Fits, Op.ready, Op.after, Thread.view, Settled, held, pushes, frames]
    | sched h =>
      simp only [Call.allowed, Bool.and_eq_true, decide_eq_true_eq] at allowed
      obtain ⟨-, frames⟩ := allowed
      obtain ⟨held, pushes⟩ := free h rfl (by simp [Thread.view, frames])
      have held' : T.held = [] := held
      have pushes' : T.pushes = 0 := pushes
      simp [Call.script, Fits, Op.ready, Op.after, Thread.view, Settled, held', pushes', frames]
  | pushOff | popOff | acquire lk | release lk =>
    cases t with
    | proc q =>
      simp_all [Call.allowed, Call.allowed.serves, Call.script, Fits, Op.ready, Op.after, Thread.view,
        Settled]
    | sched h =>
      simp_all [Call.allowed, Call.allowed.serves, Call.script, Fits, Op.ready, Op.after, Thread.view,
        Settled]

end Steps

section Switches

variable {s : State m n} {h : Fin m} {p : Fin n} {rest : List (Op n)}

theorem Inv.holds (inv : Inv s) {lk : Lock n} (held : lk ∈ (s.current h).held) :
    s.holdinglock h lk := by
  have locked := (inv.locked lk h).mpr (List.mem_append_right _ held)
  exact ⟨by rw [locked]; rfl, (inv.cpu lk h).mpr held⟩

theorem Inv.alone (inv : Inv s) {g : Fin m} {lk : Lock n} (here : lk ∈ (s.current h).owned)
    (there : lk ∈ (s.current g).owned) : h = g :=
  inv.locked.unique here there

/-- The harts beside one run neither its process nor its scheduler. -/
theorem Inv.others (inv : Inv s) (run : (s.hart h).run = .proc p) {g : Fin m} (other : g ≠ h) :
    (s.hart g).run ≠ .proc p ∧ (s.hart g).run ≠ .sched h :=
  ⟨fun at_ => other (inv.one g h (at_.trans run.symm)), fun at_ => other (inv.sched g h at_).symm⟩

/-- A process gives its hart back to the scheduler. -/
theorem Inv.leave (inv : Inv s) (run : (s.hart h).run = .proc p) (idle : (s.current h).pc = .idle)
    (todo : (s.current h).todo = .sched :: rest) : Inv (s.leave h p rest) := by
  have live := inv.live h
  have fits := live.fits
  have depth := live.depth
  rw [todo, idle] at fits
  rw [idle] at depth
  obtain ⟨⟨q, same, held, pushes, marked⟩, fits⟩ := fits
  obtain rfl : p = q := by simpa [run] using same
  change (s.current h).held = [.slock p] at held
  change (s.current h).pushes = 0 at pushes
  change s.marked (s.hart h).run = true at marked
  have still : s.running p = false := by simpa [State.marked, run] using marked
  have thread : s.current h = s.thread (.proc p) := by rw [State.current, run]
  have one : (s.current h).depth = 1 := by
    rw [depth, held, pushes]
    rfl
  have off := live.off (by omega)
  have before := live.intena (by omega) (by simp [idle])
  have noff := live.noff
  have parked := inv.parked h p run
  unfold State.leave
  rw [if_neg (not_not.mpr (inv.holds (by simp [held]))), if_neg (by simp [still]),
    if_neg (by simp [off])]
  refine ⟨fun g => ?_, fun g f at_ => ?_, fun g f both => ?_, fun q off' => ?_, fun g q at_ => ?_,
    inv.locked.congr fun g lk => ?_, inv.cpu.congr fun g lk => ?_⟩
  · by_cases here : g = h
    · subst here
      simp only [State.current, Function.update_self]
      refine ⟨by simpa [parked.depth] using noff.trans one, fun _ => off, fun _ _ => nofun, ?_, ?_, ?_,
        ?_, ?_, ?_, ?_, nofun, ?_, ?_, ?_⟩
      · simp [parked.depth, parked.pushes, parked.held, parked.pc, Pc.extra]
      · simp [parked.held]
      · simp [parked.pc, Pc.lock]
      · simp [parked.pc]
      · simp [parked.pc]
      · simp [parked.pc]
      · dsimp only
        rw [parked.pc]
        exact parked.fits
      · simp [parked.frames]
      · simp [parked.frames]
      · simp [parked.frames]
    · obtain ⟨notProc, notSched⟩ := inv.others run here
      simp only [State.current, Function.update_of_ne here, Function.update_of_ne notProc,
        Function.update_of_ne notSched]
      exact inv.live g
  · by_cases here : g = h
    · subst here
      simpa using at_.symm
    · simp only [Function.update_of_ne here] at at_
      exact inv.sched g f at_
  · by_cases here : g = h
    · by_cases there : f = h
      · exact here.trans there.symm
      · subst here
        simp only [Function.update_self, Function.update_of_ne there] at both
        exact absurd both.symm (inv.others run there).2
    · by_cases there : f = h
      · subst there
        simp only [Function.update_self, Function.update_of_ne here] at both
        exact absurd both (inv.others run here).2
      · simp only [Function.update_of_ne here, Function.update_of_ne there] at both
        exact inv.one g f both
  · by_cases mine : q = p
    · subst mine
      refine ⟨?_, still⟩
      simp only [Function.update_of_ne (show Tid.proc q ≠ Tid.sched h by nofun), Function.update_self]
      rw [← thread]
      refine ⟨.inl ⟨_, rfl, before⟩, held, pushes, one, ?_, run ▸ live.frames, live.lone,
        fun serving => (live.inner serving).2 (by omega)⟩
      have left := fits
      rw [run] at left
      simpa [Op.after, Pc.view, Thread.view] using left
    · simp only [Function.update_of_ne (show Tid.proc q ≠ Tid.sched h by nofun),
        Function.update_of_ne (show Tid.proc q ≠ Tid.proc (m := m) p by simpa using mine)]
      refine inv.away q fun g at_ => ?_
      by_cases here : g = h
      · subst here
        rw [run] at at_
        exact mine (by simpa using at_.symm)
      · refine off' g ?_
        simpa only [Function.update_of_ne here] using at_
  · by_cases here : g = h
    · subst here
      simp at at_
    · simp only [Function.update_of_ne here] at at_
      simp only [Function.update_of_ne (show Tid.sched g ≠ Tid.sched (n := n) h by simpa using here),
        Function.update_of_ne (show Tid.sched g ≠ Tid.proc p by nofun)]
      exact inv.parked g q at_
  · by_cases here : g = h
    · subst here
      simp only [State.current, Function.update_self, Thread.owned, parked.pc, parked.held]
      rw [← State.current, idle, held]
    · obtain ⟨notProc, notSched⟩ := inv.others run here
      simp only [State.current, Function.update_of_ne here, Function.update_of_ne notProc,
        Function.update_of_ne notSched]
  · by_cases here : g = h
    · subst here
      simp only [State.current, Function.update_self, parked.held]
      rw [← State.current, held]
    · obtain ⟨notProc, notSched⟩ := inv.others run here
      simp only [State.current, Function.update_of_ne here, Function.update_of_ne notProc,
        Function.update_of_ne notSched]

/-- No hart runs a process whose `slock` the scheduler finds free and that is not `RUNNING`. -/
theorem Inv.absent (inv : Inv s) (sched : (s.hart h).run = .sched h)
    (held : .slock p ∈ (s.current h).held) (still : s.running p = false) (g : Fin m) :
    (s.hart g).run ≠ .proc p := by
  intro at_
  obtain ⟨q, same, member⟩ := (inv.live g).marked (by rw [at_, State.marked, still]; rfl)
  obtain rfl : p = q := by simpa [at_] using same
  have here := inv.alone (List.mem_append_right _ held) (List.mem_append_right _ member)
  rw [here, at_] at sched
  exact nomatch sched

/-- The scheduler switches to a process, or passes over it. -/
theorem Inv.resume (inv : Inv s) (idle : (s.current h).pc = .idle)
    (todo : (s.current h).todo = .swtch p :: rest) : Inv (s.resume h p rest) := by
  have live := inv.live h
  have fits := live.fits
  have depth := live.depth
  rw [todo, idle] at fits
  rw [idle] at depth
  obtain ⟨⟨⟨f, run⟩, held, pushes, outer⟩, fits⟩ := fits
  obtain rfl : f = h := inv.sched h f run
  change (s.current f).held = [.slock p] at held
  change (s.current f).pushes = 0 at pushes
  have frames : (s.current f).frames = [] := of_decide_eq_true outer
  have next : Live (s.hart f) (s.hart f).run { s.current f with todo := rest }
      (s.marked (s.hart f).run) := by
    refine live.call idle ?_
    simpa [Op.after, Pc.view] using fits
  unfold State.resume
  by_cases busy : s.running p = true
  · rw [if_pos busy]
    exact inv.put rfl next (fun _ => Iff.rfl) fun _ => Iff.rfl
  rw [if_neg busy]
  have still : s.running p = false := by simpa using busy
  have gone := inv.absent run (by simp [held]) still
  obtain ⟨away, -⟩ := inv.away p gone
  have one : (s.current f).depth = 1 := by
    rw [depth, held, pushes]
    rfl
  have noff := live.noff
  have off := live.off (by omega)
  have notSched : ∀ g, g ≠ f → (s.hart g).run ≠ .sched f := fun g other at_ =>
    other (inv.sched g f at_).symm
  rw [run]
  refine ⟨fun g => ?_, fun g e at_ => ?_, fun g e both => ?_, fun q off' => ?_, fun g q at_ => ?_,
    inv.locked.congr fun g lk => ?_, inv.cpu.congr fun g lk => ?_⟩
  · by_cases here : g = f
    · subst here
      simp only [State.current, Function.update_self, State.marked,
        Function.update_of_ne (show Tid.proc p ≠ Tid.sched g by nofun)]
      refine ⟨by simpa [away.depth] using noff.trans one, fun _ => off, ?_, ?_, ?_, ?_, ?_, ?_, ?_, ?_,
        nofun, away.frames, away.lone, fun serving => ⟨fun zero => absurd zero (by simp [away.depth]),
        fun _ => away.inner serving⟩⟩
      · intro _ restored b found
        rcases away.pc with ⟨i, saved, -⟩ | ⟨-, -, none⟩
        · exact absurd saved (restored i)
        · exact absurd (none.symm.trans found) nofun
      · rcases away.pc with ⟨i, saved, -⟩ | ⟨fresh, -⟩ <;>
          simp [away.depth, away.pushes, away.held, Pc.extra, *]
      · simp [away.held]
      · rcases away.pc with ⟨i, saved, -⟩ | ⟨fresh, -⟩ <;> simp [Pc.lock, *]
      · rcases away.pc with ⟨i, saved, -⟩ | ⟨fresh, -⟩ <;> simp [*]
      · intro i at_
        rcases away.pc with ⟨j, saved, found⟩ | ⟨fresh, -⟩
        · obtain rfl : i = j := by simpa [saved] using at_.symm
          exact ⟨found, by simp [away.depth]⟩
        · exact absurd (fresh.symm.trans at_) nofun
      · rcases away.pc with ⟨i, saved, -⟩ | ⟨fresh, -⟩ <;> simp [*]
      · have left := away.fits
        rcases away.pc with ⟨i, saved, -⟩ | ⟨fresh, -⟩
        · rw [saved]
          exact left
        · rw [fresh]
          exact left
    · have marked : ∀ t : Tid m n, t ≠ .proc p →
          ({ s with running := Function.update s.running p true } : State m n).marked t = s.marked t := by
        intro t other
        cases t with
        | proc q =>
          have differ : q ≠ p := by simpa using other
          simp [State.marked, differ]
        | sched e => rfl
      have old := inv.live g
      rw [← marked _ (gone g)] at old
      simp only [State.current, Function.update_of_ne here, Function.update_of_ne (notSched g here)]
      exact old
  · by_cases here : g = f
    · subst here
      simp at at_
    · simp only [Function.update_of_ne here] at at_
      exact inv.sched g e at_
  · by_cases here : g = f
    · by_cases there : e = f
      · exact here.trans there.symm
      · subst here
        simp only [Function.update_self, Function.update_of_ne there] at both
        exact absurd both.symm (gone e)
    · by_cases there : e = f
      · subst there
        simp only [Function.update_self, Function.update_of_ne here] at both
        exact absurd both (gone g)
      · simp only [Function.update_of_ne here, Function.update_of_ne there] at both
        exact inv.one g e both
  · have other : q ≠ p := by
      rintro rfl
      exact off' f (by simp)
    obtain ⟨away', still'⟩ := inv.away q fun g at_ => by
      by_cases here : g = f
      · rw [here, run] at at_
        exact nomatch at_
      · exact off' g (by simpa only [Function.update_of_ne here] using at_)
    simp only [Function.update_of_ne (show Tid.proc q ≠ Tid.sched f by nofun),
      Function.update_of_ne other]
    exact ⟨away', still'⟩
  · by_cases here : g = f
    · subst here
      obtain rfl : p = q := by simpa using at_
      simp only [Function.update_self]
      refine ⟨idle, held, pushes, one, frames, ?_⟩
      have left := next.fits
      dsimp only at left
      rw [idle, run] at left
      exact left
    · simp only [Function.update_of_ne here] at at_
      simp only [Function.update_of_ne (show Tid.sched g ≠ Tid.sched (n := n) f by simpa using here)]
      exact inv.parked g q at_
  · by_cases here : g = f
    · subst here
      simp only [State.current, Function.update_self, Thread.owned,
        Function.update_of_ne (show Tid.proc p ≠ Tid.sched g by nofun)]
      rw [← State.current, idle, held, away.held]
      rcases away.pc with ⟨i, saved, -⟩ | ⟨fresh, -⟩
      · rw [saved]
        rfl
      · rw [fresh]
    · simp only [State.current, Function.update_of_ne here, Function.update_of_ne (notSched g here)]
  · by_cases here : g = f
    · subst here
      simp only [State.current, Function.update_self,
        Function.update_of_ne (show Tid.proc p ≠ Tid.sched g by nofun)]
      rw [← State.current, held, away.held]
    · simp only [State.current, Function.update_of_ne here, Function.update_of_ne (notSched g here)]

end Switches

section Runs

variable {s t : State m n} {h : Fin m} {a : Act n} {rest : List (Op n)}

theorem Start.inv (start : Start s) : Inv s where
  live h := by
    have thread : s.current h = {} := by rw [State.current, start.run, start.sched]
    rw [thread, start.run]
    refine ⟨start.noff h, nofun, nofun, rfl, List.nodup_nil, nofun, nofun, nofun, nofun, ?_, nofun,
      nofun, by simp, nofun⟩
    exact ⟨rfl, fun _ _ _ => ⟨rfl, rfl⟩⟩
  sched h g at_ := by simpa [start.run] using at_.symm
  one h g both := by simpa [start.run] using both
  away p _ := by
    refine ⟨?_, start.running p⟩
    rw [start.proc]
    refine ⟨.inr ⟨rfl, rfl, rfl⟩, rfl, rfl, rfl, ?_, by simp, by simp, by simp⟩
    simp [Fits, Op.ready, Op.after, Settled, Thread.view]
  parked h p at_ := by simp [start.run] at at_
  locked := by
    intro lk h
    simp [start.locked, State.current, start.run, start.sched, Thread.owned, Pc.taken]
  cpu := by
    intro lk h
    simp [start.cpu, State.current, start.run, start.sched]

/-- A step within a thread, after which the same locks are taken and held. -/
theorem Inv.goto (inv : Inv s) {pc : Pc n}
    (live : Live (s.hart h) (s.hart h).run { s.current h with pc := pc } (s.marked (s.hart h).run))
    (taken : pc.taken = (s.current h).pc.taken) : Inv (s.goto h pc) := by
  refine inv.put rfl live (fun lk => ?_) fun _ => Iff.rfl
  rw [Thread.owned, Thread.owned, taken]

/-- The first step of an operation that is ready. -/
theorem Inv.start (inv : Inv s) {op : Op n} (idle : (s.current h).pc = .idle)
    (todo : (s.current h).todo = op :: rest) : Inv (s.start h rest op) := by
  have live := inv.live h
  have fits := live.fits
  rw [todo, idle] at fits
  have same : ∀ {T : Thread n}, T.held = (s.current h).held → T.pc.taken = [] → ∀ lk,
      lk ∈ T.owned ↔ lk ∈ (s.current h).owned := by
    intro T held none lk
    rw [Thread.owned, Thread.owned, idle, held, none]
    rfl
  cases op with
  | pushOff =>
    exact inv.put rfl (live.enter idle none todo rfl) (same rfl rfl) fun _ => Iff.rfl
  | acquire lk =>
    exact inv.put rfl (live.enter idle (some lk) todo rfl) (same rfl rfl) fun _ => Iff.rfl
  | popOff => exact inv.put rfl (live.popping idle todo) (same rfl rfl) fun _ => Iff.rfl
  | release lk =>
    obtain ⟨member, next⟩ := live.release idle todo
    unfold State.start
    dsimp only
    rw [if_neg (not_not.mpr (inv.holds member))]
    refine inv.change rfl (fun _ _ => rfl) next (inv.locked.congr fun g lk' => ?_)
      (inv.cpu.release member fun g lk' => ?_)
    · by_cases here : g = h
      · subst here
        rw [if_pos rfl, Thread.owned, Thread.owned, idle]
        simp only [Pc.taken, List.mem_append, List.mem_singleton, List.nil_append,
          live.nodup.mem_erase_iff]
        by_cases this : lk' = lk <;> simp [this, member]
      · rw [if_neg here]
    · by_cases here : g = h
      · subst here
        rw [if_pos rfl]
        simp only [live.nodup.mem_erase_iff]
        tauto
      · simp [here]
  | setState =>
    obtain ⟨⟨p, run, member⟩, -⟩ := fits
    unfold State.start
    rw [run]
    dsimp only
    refine inv.change (c := s.hart h) rfl (fun q other => ?_) ?_
      (inv.locked.congr fun g lk => ?_) (inv.cpu.congr fun g lk => ?_)
    · refine Function.update_of_ne ?_ _ _
      rintro rfl
      exact other run
    · rw [run] at live ⊢
      have next := live.setState idle todo
      simpa [State.marked] using next
    · by_cases here : g = h
      · rw [if_pos here, here]
        exact same rfl (by rw [idle]; rfl) lk
      · rw [if_neg here]
    · by_cases here : g = h
      · rw [if_pos here, here]
      · rw [if_neg here]
  | sched =>
    obtain ⟨⟨p, run, -⟩, -⟩ := fits
    unfold State.start
    rw [run]
    exact inv.leave run idle todo
  | setIntr on =>
    exact inv.put rfl (live.setIntr idle todo) (same rfl (by rw [idle]; rfl)) fun _ => Iff.rfl
  | swtch p => exact inv.resume idle todo

/-- The lock that an `acquire` under way is about to mark has no mark. -/
theorem Inv.unmarked (inv : Inv s) {lk : Lock n} (at_ : (s.current h).pc = .own lk) :
    s.cpu lk = none := by
  by_contra marked
  obtain ⟨g, named⟩ := Option.ne_none_iff_exists'.mp marked
  have there := (inv.cpu lk g).mp named
  have here : lk ∈ (s.current h).owned := by simp [Thread.owned, at_, Pc.taken]
  rw [← inv.alone here (List.mem_append_right _ there)] at there
  exact (inv.live h).apart lk (by rw [at_]; rfl) there

theorem Inv.advance (inv : Inv s) (taken : s.advance h = some t) : Inv t := by
  have live := inv.live h
  unfold State.advance at taken
  dsimp only at taken
  cases at_ : (s.current h).pc with
  | idle =>
    rw [at_] at taken
    cases todo : (s.current h).todo with
    | nil => simp [todo] at taken
    | cons op rest =>
      obtain rfl : s.start h rest op = t := by simpa [todo] using taken
      exact inv.start at_ todo
  | pushing old lk =>
    obtain rfl : s.pushed h old lk = t := by simpa [at_] using taken
    refine inv.put rfl (live.pushed at_) (fun lk' => ?_) fun _ => Iff.rfl
    cases lk <;> simp [Thread.owned, at_, Pc.taken]
  | check lk =>
    have free : ¬ s.holdinglock h lk := fun ⟨_, mine⟩ =>
      live.apart lk (by rw [at_]; rfl) ((inv.cpu lk h).mp mine)
    obtain rfl : s.goto h (.spin lk) = t := by simpa [at_, free] using taken
    exact inv.goto (live.goto (by rw [at_]; rfl) (by simp [at_, Pc.lock])
      (by simp [at_, Pc.view]) nofun nofun (by simp [at_]) nofun) (by rw [at_]; rfl)
  | spin lk =>
    by_cases busy : (s.locked lk).isSome = true
    · simp [at_, busy] at taken
    have free : s.locked lk = none := by simpa using busy
    rw [at_] at taken
    dsimp only at taken
    rw [if_neg busy, Option.some.injEq] at taken
    subst taken
    refine inv.change (c := s.hart h) rfl (fun _ _ => rfl) (live.goto (by rw [at_]; rfl)
        (by simp [at_, Pc.lock]) (by simp [at_, Pc.view]) nofun nofun (by simp [at_]) nofun)
      (inv.locked.acquire free fun g lk' => ?_) (inv.cpu.congr fun g lk' => ?_)
    · by_cases here : g = h
      · subst here
        simp [Thread.owned, at_, Pc.taken, or_comm]
      · simp [here]
    · by_cases here : g = h
      · rw [if_pos here, here]
      · rw [if_neg here]
  | own lk =>
    rw [at_] at taken
    obtain rfl := Option.some.inj taken
    refine inv.change (c := s.hart h) rfl (fun _ _ => rfl) (live.acquired at_)
      (inv.locked.congr fun g lk' => ?_) (inv.cpu.acquire (inv.unmarked at_) fun g lk' => ?_)
    · by_cases here : g = h
      · subst here
        simp [Thread.owned, at_, Pc.taken]
      · rw [if_neg here]
    · by_cases here : g = h
      · subst here
        simp [or_comm]
      · simp [here]
  | unlock lk =>
    rw [at_] at taken
    obtain rfl := Option.some.inj taken
    have apart := live.apart lk (by rw [at_]; rfl)
    have mine : lk ∈ (s.current h).owned := by simp [Thread.owned, at_, Pc.taken]
    refine inv.change (c := s.hart h) rfl (fun _ _ => rfl) (live.goto (by rw [at_]; rfl)
        (by simp [Pc.lock]) (by simp [at_, Pc.view]) nofun nofun (by simp [at_]) nofun)
      (inv.locked.release mine fun g lk' => ?_) (inv.cpu.congr fun g lk' => ?_)
    · by_cases here : g = h
      · subst here
        simp only [if_true, Thread.owned, at_, Pc.taken, List.nil_append, List.mem_append,
          List.mem_singleton, true_and]
        constructor
        · exact fun member => ⟨.inr member, fun this => apart (this ▸ member)⟩
        · exact fun ⟨either, other⟩ => either.resolve_left other
      · simp [here]
    · by_cases here : g = h
      · rw [if_pos here, here]
      · rw [if_neg here]
  | popping =>
    obtain rfl : s.popped h = t := by simpa [at_] using taken
    obtain ⟨off, some, -, next⟩ := live.popped at_
    unfold State.popped
    dsimp only
    rw [if_neg (by simp [off]), if_neg (by omega)]
    refine inv.put rfl next (fun lk => ?_) fun _ => Iff.rfl
    rw [Thread.owned, Thread.owned, at_]
    rfl
  | switched i =>
    rw [at_] at taken
    obtain rfl := Option.some.inj taken
    refine inv.put rfl (live.back at_) (fun lk => ?_) fun _ => Iff.rfl
    rw [Thread.owned, Thread.owned, at_]
    rfl
  | panicked message => exact absurd at_ (live.calm message)

/-- Every step keeps the correspondence between the harts and their threads. -/
theorem Inv.step (inv : Inv s) (taken : Step true s (h, a) t) : Inv t := by
  have live := inv.live h
  unfold Step State.next at taken
  cases a with
  | advance => exact inv.advance taken
  | call c =>
    dsimp only at taken
    split at taken
    · rename_i guard
      obtain ⟨idle, todo, allowed⟩ := guard
      obtain rfl := Option.some.inj taken
      have settled := live.fits
      rw [idle, todo] at settled
      exact inv.put rfl (live.call idle (c.fits allowed settled)) (fun _ => Iff.rfl) fun _ => Iff.rfl
    · exact nomatch taken
  | interrupt =>
    dsimp only at taken
    split at taken
    · rename_i on
      obtain rfl := Option.some.inj taken
      have zero : (s.current h).depth = 0 := by
        by_contra deep
        rw [live.off (by omega)] at on
        exact nomatch on
      refine inv.put rfl (live.interrupt on) (fun lk => ?_) fun _ => Iff.rfl
      rw [Thread.owned, Thread.owned, Pc.taken_of_extra (live.shallow zero).2.2.1]
      rfl
    · exact nomatch taken
  | iret =>
    dsimp only at taken
    split at taken
    · exact nomatch taken
    · rename_i f frames serving
      split at taken
      · rename_i guard
        obtain ⟨idle, -, held, pushes⟩ := guard
        obtain rfl := Option.some.inj taken
        refine inv.put rfl (live.iret serving idle held pushes) (fun lk => ?_) fun _ => Iff.rfl
        rw [Thread.owned, Thread.owned, idle]
        rcases (live.frames f (by simp [serving])).pc with same | ⟨lk', same, -⟩
        · rw [same]
        · rw [same]
          rfl
      · exact nomatch taken

/-- No process goes deeper or comes back, and those below their outermost `push_off` remember the
same enable bit. -/
def Kept (s t : State m n) : Prop :=
  ∀ p, (t.thread (.proc p)).depth = (s.thread (.proc p)).depth ∧
    (0 < (s.thread (.proc p)).depth →
      (t.thread (.proc p)).before = (s.thread (.proc p)).before)

theorem kept_put {c : Hart m n} {T : Thread n} (depth : T.depth = (s.current h).depth)
    (before : 0 < (s.current h).depth → T.before = (s.current h).before) :
    Kept s (s.put h c T) := by
  intro p
  by_cases run : (s.hart h).run = .proc p
  · rw [State.current, run] at depth before
    have thread : (s.put h c T).thread (.proc p) = T := by
      unfold State.put
      rw [run]
      exact Function.update_self _ _ _
    rw [thread]
    exact ⟨depth, before⟩
  · rw [State.put_thread (Ne.symm run)]
    exact ⟨rfl, fun _ => rfl⟩

theorem kept_goto (pc : Pc n) : Kept s (s.goto h pc) := kept_put rfl fun _ => rfl

theorem kept_enter (lk : Option (Lock n)) : Kept s (s.enter h lk rest) :=
  kept_put rfl fun deep => if_neg (Nat.ne_of_gt deep)

theorem kept_leave (p : Fin n) : Kept s (s.leave h p rest) := by
  unfold State.leave
  dsimp only
  split
  · exact kept_goto _
  split
  · exact kept_goto _
  split
  · exact kept_goto _
  intro q
  dsimp only
  rw [Function.update_of_ne (show Tid.proc q ≠ Tid.sched h by nofun)]
  by_cases same : q = p
  · subst same
    rw [Function.update_self]
    exact ⟨rfl, fun _ => rfl⟩
  · rw [Function.update_of_ne (by simpa using same)]
    exact ⟨rfl, fun _ => rfl⟩

theorem kept_resume (p : Fin n) : Kept s (s.resume h p rest) := by
  unfold State.resume
  dsimp only
  split
  · exact kept_put rfl fun _ => rfl
  · exact kept_put (c := s.hart h) (T := { s.current h with todo := rest }) rfl fun _ => rfl

theorem kept_start (op : Op n) : Kept s (s.start h rest op) := by
  cases op with
  | pushOff => exact kept_enter none
  | acquire lk => exact kept_enter (some lk)
  | popOff => exact kept_put rfl fun _ => rfl
  | release lk =>
    unfold State.start
    dsimp only
    split
    · exact kept_goto _
    · exact kept_put (c := s.hart h) rfl fun _ => rfl
  | setState =>
    unfold State.start
    cases (s.hart h).run with
    | proc p => exact kept_put (c := s.hart h) rfl fun _ => rfl
    | sched g => exact fun _ => ⟨rfl, fun _ => rfl⟩
  | sched =>
    unfold State.start
    cases (s.hart h).run with
    | proc p => exact kept_leave p
    | sched g => exact fun _ => ⟨rfl, fun _ => rfl⟩
  | setIntr on => exact kept_put rfl fun _ => rfl
  | swtch p => exact kept_resume p

/-- What a step does to the depths: it is the one end of `push_off` or of `pop_off`, or none
changes. -/
theorem Inv.outcome (inv : Inv s) (taken : Step true s (h, a) t) : Kept s t ∨
    (∃ old lk, (s.current h).pc = .pushing old lk ∧ t = s.pushed h old lk) ∨
    ((s.current h).pc = .popping ∧ t = s.popped h) := by
  unfold Step State.next at taken
  cases a with
  | call c =>
    dsimp only at taken
    split at taken
    · obtain rfl := Option.some.inj taken
      exact .inl (kept_put rfl fun _ => rfl)
    · exact nomatch taken
  | interrupt =>
    dsimp only at taken
    split at taken
    · obtain rfl := Option.some.inj taken
      exact .inl (kept_put rfl fun _ => rfl)
    · exact nomatch taken
  | iret =>
    dsimp only at taken
    split at taken
    · exact nomatch taken
    · split at taken
      · rename_i guard
        obtain ⟨idle, -, held, pushes⟩ := guard
        obtain rfl := Option.some.inj taken
        refine .inl (kept_put rfl fun deep => ?_)
        have zero := (inv.live h).depth
        rw [held, pushes, idle] at zero
        exact absurd zero (Nat.ne_of_gt deep)
      · exact nomatch taken
  | advance =>
    dsimp only [State.advance] at taken
    split at taken
    · split at taken
      · exact nomatch taken
      · obtain rfl := Option.some.inj taken
        exact .inl (kept_start _)
    · rename_i old lk at_
      exact .inr (.inl ⟨old, lk, at_, (Option.some.inj taken).symm⟩)
    · obtain rfl := Option.some.inj taken
      split
      · exact .inl (kept_goto _)
      · exact .inl (kept_goto _)
    · split at taken
      · exact nomatch taken
      · obtain rfl := Option.some.inj taken
        exact .inl (kept_goto _)
    · obtain rfl := Option.some.inj taken
      exact .inl (kept_put (c := s.hart h) rfl fun _ => rfl)
    · obtain rfl := Option.some.inj taken
      exact .inl (kept_goto _)
    · rename_i at_
      exact .inr (.inr ⟨at_, (Option.some.inj taken).symm⟩)
    · obtain rfl := Option.some.inj taken
      exact .inl (kept_put rfl fun _ => rfl)
    · exact nomatch taken

/-- The depth of a process. -/
def State.depth (s : State m n) (p : Fin n) : ℕ := (s.thread (.proc p)).depth

/-- The enable bit that its outermost `push_off` found. -/
def State.before (s : State m n) (p : Fin n) : Option Bool := (s.thread (.proc p)).before

theorem State.put_proc {p : Fin n} {c : Hart m n} {T : Thread n} (run : (s.hart h).run = .proc p) :
    (s.put h c T).thread (.proc p) = T := by
  unfold State.put
  rw [run]
  exact Function.update_self _ _ _

/-- What a step does to the depth of a process: it leaves it, it ends a `push_off` of it, or it ends
a `pop_off` of it. -/
inductive Moves (s t : State m n) (h : Fin m) (p : Fin n) : Prop where
  | stay (depth : t.depth p = s.depth p) (before : 0 < s.depth p → t.before p = s.before p)
  | push (run : (s.hart h).run = .proc p) (depth : t.depth p = s.depth p + 1)
      (outermost : s.depth p = 0 → t.before p = some (s.hart h).sie)
      (before : 0 < s.depth p → t.before p = s.before p)
  | pop (run : (t.hart h).run = .proc p) (depth : s.depth p = t.depth p + 1)
      (last : t.depth p = 0 → ∀ b, s.before p = some b → (t.hart h).sie = b)
      (before : t.before p = s.before p)

theorem Inv.moves (inv : Inv s) (taken : Step true s (h, a) t) (p : Fin n) : Moves s t h p := by
  have live := inv.live h
  rcases inv.outcome taken with kept | ⟨old, lk, at_, rfl⟩ | ⟨at_, rfl⟩
  · exact .stay (kept p).1 (kept p).2
  · by_cases run : (s.hart h).run = .proc p
    · have thread : s.current h = s.thread (.proc p) := by rw [State.current, run]
      unfold State.pushed
      refine .push run ?_ (fun zero => ?_) fun _ => ?_
      · rw [State.depth, State.put_proc run, State.depth, ← thread]
      · rw [State.before, State.put_proc run]
        exact (live.old old lk at_ (by rw [thread]; exact zero)).2
      · rw [State.before, State.put_proc run, State.before, ← thread]
    · unfold State.pushed
      refine .stay ?_ fun _ => ?_
      · rw [State.depth, State.put_thread (Ne.symm run)]
        rfl
      · rw [State.before, State.put_thread (Ne.symm run)]
        rfl
  · obtain ⟨off, some, last, -⟩ := live.popped at_
    unfold State.popped
    dsimp only
    rw [if_neg (by simp [off]), if_neg (by omega)]
    by_cases run : (s.hart h).run = .proc p
    · have thread : s.current h = s.thread (.proc p) := by rw [State.current, run]
      have deep : 0 < (s.current h).depth := by
        rw [← live.noff]
        omega
      refine .pop (by simpa using run) ?_ (fun zero b found => ?_) ?_
      · rw [State.depth, ← thread, State.depth, State.put_proc run]
        exact (Nat.sub_add_cancel deep).symm
      · rw [State.depth, State.put_proc run] at zero
        dsimp only at zero
        simpa using last (by omega) b (by rw [thread]; exact found)
      · rw [State.before, State.put_proc run, State.before, ← thread]
    · refine .stay ?_ fun _ => ?_
      · rw [State.depth, State.put_thread (Ne.symm run)]
        rfl
      · rw [State.before, State.put_thread (Ne.symm run)]
        rfl

/-- No thread has panicked, on a hart or off. -/
theorem Inv.calm (inv : Inv s) (u : Tid m n) (message : String) :
    (s.thread u).pc ≠ .panicked message := by
  by_cases on : ∃ g, (s.hart g).run = u
  · obtain ⟨g, rfl⟩ := on
    exact (inv.live g).calm message
  cases u with
  | proc p =>
    obtain ⟨away, -⟩ := inv.away p fun g at_ => on ⟨g, at_⟩
    rcases away.pc with ⟨i, saved, -⟩ | ⟨fresh, -⟩
    · rw [saved]
      nofun
    · rw [fresh]
      nofun
  | sched g =>
    cases at_ : (s.hart g).run with
    | proc p =>
      rw [(inv.parked g p at_).pc]
      nofun
    | sched f =>
      obtain rfl := inv.sched g f at_
      exact absurd ⟨f, at_⟩ on

theorem Start.invariant {s₀ : State m n} (start : Start s₀)
    (reached : Reachable (Step true) s₀ s) : Inv s :=
  reached.invariant Inv start.inv fun _ _ _ inv taken => inv.step taken

/-- From the end of its outermost `push_off` on, as long as `p` stays below it, the enable bit that
it found is remembered. -/
theorem Inv.below {p : Fin n} {past : List (Fin m × Act n)} (inv : Inv s) (deep : 0 < s.depth p)
    (run : Trace (fun s e t => Step true s e t ∧ 0 < t.depth p) s past t) :
    Inv t ∧ 0 < t.depth p ∧ t.before p = s.before p := by
  refine run.invariant (fun _ t => Inv t ∧ 0 < t.depth p ∧ t.before p = s.before p)
    ⟨inv, deep, rfl⟩ ?_
  rintro _ t ⟨h, a⟩ u ⟨inv, below, same⟩ ⟨taken, still⟩
  refine ⟨inv.step taken, still, ?_⟩
  cases inv.moves taken p with
  | stay _ before => exact (before below).trans same
  | push _ _ _ before => exact (before below).trans same
  | pop _ _ _ before => exact before.trans same

/-- With `yield` and `sleep` called below no `push_off` but that of the lock passed, interrupts are
off wherever a process runs below a `push_off`, nothing panics, and the last `pop_off` restores, on
whatever hart, the enable bit that the outermost `push_off` cleared. -/
theorem interrupts_nest {s₀ : State m n} (start : Start s₀)
    (reached : Reachable (Step true) s₀ s) :
    (∀ h p, (s.hart h).run = .proc p → 0 < s.depth p → (s.hart h).sie = false) ∧
      (∀ u message, (s.thread u).pc ≠ .panicked message) ∧
      ∀ (p : Fin n) (h g : Fin m) (a b : Act n) (past : List (Fin m × Act n)) (t u v : State m n),
        Step true s (h, a) t → s.depth p = 0 → 0 < t.depth p →
        Trace (fun s e t => Step true s e t ∧ 0 < t.depth p) t past u →
        Step true u (g, b) v → v.depth p = 0 →
        (v.hart g).run = .proc p ∧ (v.hart g).sie = (s.hart h).sie := by
  have inv := start.invariant reached
  refine ⟨fun h p run deep => ?_, inv.calm, ?_⟩
  · refine (inv.live h).off ?_
    rw [State.current, run]
    exact deep
  · intro p h g a b past t u v first zero deep between last again
    have found : t.before p = some (s.hart h).sie := by
      cases inv.moves first p with
      | stay depth => omega
      | push _ _ outermost => exact outermost zero
      | pop _ depth => omega
    obtain ⟨inv', below, same⟩ := (inv.step first).below deep between
    cases inv'.moves last p with
    | stay depth => omega
    | push _ depth => omega
    | pop run _ restores => exact ⟨run, restores again _ (same.trans found)⟩

end Runs

/-- What the harts do, one after the other. -/
def run (strict : Bool) : List (Fin m × Act n) → State m n → Option (State m n)
  | [], s => some s
  | (h, a) :: rest, s => (s.next strict h a).bind (run strict rest)

theorem run_reachable {strict : Bool} {script : List (Fin m × Act n)} {s t : State m n}
    (done : run strict script s = some t) : Reachable (Step strict) s t := by
  induction script generalizing s with
  | nil =>
    obtain rfl := Option.some.inj done
    exact .refl s
  | cons e rest ih =>
    obtain ⟨u, taken, done⟩ := Option.bind_eq_some_iff.mp done
    exact ((Reachable.refl s).tail (e := e) taken).trans (ih done)

/-- The harts before their first step. -/
def boot (m n : ℕ) : State m n where
  hart h := { run := .sched h }
  thread
    | .proc p => { todo := [.pushOff, .popOff, .release (.slock p)], held := [.slock p], depth := 1 }
    | .sched _ => {}
  running _ := false
  locked _ := none
  cpu _ := none

theorem boot_start (m n : ℕ) : Start (boot m n) :=
  ⟨fun _ => rfl, fun _ => rfl, fun _ => rfl, fun _ => rfl, fun _ => rfl, fun _ => rfl, fun _ => rfl⟩

/-- `k` steps of what a hart is in. -/
def steps (h : Fin m) (k : ℕ) : List (Fin m × Act n) := List.replicate k (h, .advance)

/-- The one process starts on the first hart. -/
def arrive : List (Fin 2 × Act 1) :=
  (0, .call (.intr true)) :: steps 0 1 ++ (0, .call (.scan 0 true)) :: steps 0 13

/-- Its `yield` below a `push_off`, and its return on the second hart. -/
def stray : List (Fin 2 × Act 1) :=
  arrive ++ (0, .call .pushOff) :: steps 0 2 ++ (0, .call (.yield 0)) :: steps 0 18 ++
    (1, .call (.scan 0 true)) :: steps 1 10

/-- A process that has acquired a lock runs with interrupts off. -/
theorem interrupts_nest_boot : ∃ s : State 2 1, Reachable (Step true) (boot 2 1) s ∧
    (s.hart 0).run = .proc 0 ∧ s.depth 0 = 1 ∧ (s.hart 0).sie = false := by
  have done : ((run true (arrive ++ (0, .call (.acquire (.other 0))) :: steps 0 5) (boot 2 1)).map
      fun s => ((s.hart 0).run, s.depth 0)) = some (.proc 0, 1) := by decide +kernel
  obtain ⟨s, ran, shape⟩ := Option.map_eq_some_iff.mp done
  obtain ⟨runs, depth⟩ := Prod.mk.inj shape
  have reached := run_reachable ran
  exact ⟨s, reached, runs, depth,
    (interrupts_nest (boot_start 2 1) reached).1 0 0 runs (by rw [depth]; decide)⟩

/-- A `yield` below a `push_off` comes back with interrupts on, and the `pop_off` panics. -/
theorem yield_below_push_off : Start (boot 2 1) ∧ (∃ s : State 2 1, Reachable (Step false) (boot 2 1) s ∧
      (s.hart 1).run = .proc 0 ∧ 0 < s.depth 0 ∧ (s.hart 1).sie = true) ∧
    ∃ s : State 2 1, Reachable (Step false) (boot 2 1) s ∧
      (s.thread (.proc 0)).pc = .panicked "pop_off - interruptible" := by
  have stray' : ((run false stray (boot 2 1)).map fun s =>
      ((s.hart 1).run, s.depth 0, (s.hart 1).sie)) = some (.proc 0, 1, true) := by decide +kernel
  have panic : ((run false (stray ++ (1, .call .popOff) :: steps 1 2) (boot 2 1)).map fun s =>
      (s.thread (.proc 0)).pc) = some (.panicked "pop_off - interruptible") := by decide +kernel
  obtain ⟨s, ran, shape⟩ := Option.map_eq_some_iff.mp stray'
  obtain ⟨t, ran', stopped⟩ := Option.map_eq_some_iff.mp panic
  simp only [Prod.mk.injEq] at shape
  obtain ⟨runs, depth, on⟩ := shape
  exact ⟨boot_start 2 1, ⟨s, run_reachable ran, runs, by rw [depth]; decide, on⟩, t, run_reachable ran', stopped⟩

end HaloOS.Nesting
