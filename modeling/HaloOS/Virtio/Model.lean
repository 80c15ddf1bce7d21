import HaloOS.Lib.Ring
import HaloOS.Param
import Mathlib.Data.List.FinRange
import Mathlib.Data.Fintype.Basic

/-! The virtio disk driver of `virt.c`: the descriptor pool, the two rings and the
request code, with the device, the interrupt handler and the sleeping and waking of
the requesting processes. Every acquire and release of a spinlock and every access
to `b->disk` or to a process's state is one step of its own. -/

namespace HaloOS.Virtio

open Lib

/-- The 16-bit ring counters wrap here. -/
def WRAP : ℕ := 65536

theorem num_dvd_wrap : NUM ∣ WRAP := by decide

def VRING_DESC_F_NEXT : ℕ := 1
def VRING_DESC_F_WRITE : ℕ := 2
def VIRTIO_BLK_T_IN : ℕ := 0
def VIRTIO_BLK_T_OUT : ℕ := 1

/-- What the `addr` field of a descriptor points to. -/
inductive DescAddr where
  | null
  | ops (i : Fin NUM)
  | data (b : ℕ)
  | status (i : Fin NUM)
  deriving DecidableEq

/-- `struct virt_desc`. -/
structure Desc where
  addr : DescAddr := .null
  len : ℕ := 0
  flags : ℕ := 0
  next : Fin NUM := 0
  deriving DecidableEq

/-- `struct virt_blk_req`. -/
structure BlkReq where
  type : ℕ := 0
  reserved : ℕ := 0
  sector : ℕ := 0
  deriving DecidableEq

/-- One entry of `disk.info`. -/
structure Info where
  b : Option ℕ := none
  status : ℕ := 0
  deriving DecidableEq

/-- `struct disk`: the driver's tables and the rings it shares with the device.
`devIdx` and `inflight` are the device's own: how far it read the avail ring, and the
chains it took and has not completed. -/
structure Disk where
  desc : Fin NUM → Desc := fun _ => {}
  ring : Fin NUM → Fin NUM := fun _ => 0
  index : ℕ := 0
  used : Fin NUM → Fin NUM := fun _ => 0
  idx : ℕ := 0
  free : Fin NUM → Bool := fun _ => true
  info : Fin NUM → Info := fun _ => {}
  usedIdx : ℕ := 0
  ops : Fin NUM → BlkReq := fun _ => {}
  devIdx : ℕ := 0
  inflight : List (Fin NUM) := []

/-- The local array `idx[3]` of a request. -/
structure Chain where
  head : Fin NUM
  data : Fin NUM
  status : Fin NUM
  deriving DecidableEq

namespace Disk

def setDesc (i : Fin NUM) (f : Desc → Desc) (d : Disk) : Disk :=
  { d with desc := Function.update d.desc i (f (d.desc i)) }

def setInfo (i : Fin NUM) (f : Info → Info) (d : Disk) : Disk :=
  { d with info := Function.update d.info i (f (d.info i)) }

/-- `alloc_desc`: the first free descriptor, no longer free; `none` stands for -1. -/
def allocDesc (d : Disk) : Option (Fin NUM × Disk) :=
  match (List.finRange NUM).find? d.free with
  | some i => some (i, { d with free := Function.update d.free i false })
  | none => none

/-- `free_desc`: a descriptor that is free already is left alone. Its `wakeup` of the
channel `&disk.free[0]` finds nobody, since no process ever sleeps there. -/
def freeDesc (i : Fin NUM) (d : Disk) : Disk :=
  if d.free i then d
  else { d with
    desc := Function.update d.desc i {}
    free := Function.update d.free i true }

/-- `alloc3_desc`: three descriptors, or the ones already taken given back. -/
def alloc3Desc (d : Disk) : Option Chain × Disk :=
  match d.allocDesc with
  | none => (none, d)
  | some (head, d₁) =>
    match d₁.allocDesc with
    | none => (none, freeDesc head d₁)
    | some (data, d₂) =>
      match d₂.allocDesc with
      | none => (none, freeDesc data (freeDesc head d₂))
      | some (status, d₃) => (some ⟨head, data, status⟩, d₃)

/-- `free_chain`: follow the links while `VRING_DESC_F_NEXT` is set. -/
def freeChain : ℕ → Fin NUM → Disk → Disk
  | 0, _, d => d
  | fuel + 1, i, d =>
    if (d.desc i).flags &&& VRING_DESC_F_NEXT ≠ 0 then
      freeChain fuel (d.desc i).next (freeDesc i d)
    else freeDesc i d

/-- The stores of `virt_disk_rw` into the request header and the three descriptors. -/
def fill (b : ℕ) (write : Bool) (c : Chain) (d : Disk) : Disk :=
  let buf0 : BlkReq :=
    { type := if write then VIRTIO_BLK_T_OUT else VIRTIO_BLK_T_IN
      reserved := 0
      sector := b * (BSIZE / 512) }
  let d := { d with ops := Function.update d.ops c.head buf0 }
  let d := d.setDesc c.head fun _ =>
    { addr := .ops c.head, len := 16, flags := VRING_DESC_F_NEXT, next := c.data }
  let d := d.setDesc c.data fun _ =>
    { addr := .data b
      len := BSIZE
      flags := (if write then 0 else VRING_DESC_F_WRITE) ||| VRING_DESC_F_NEXT
      next := c.status }
  let d := d.setInfo c.head ({ · with status := 0xff })
  d.setDesc c.status fun _ =>
    { addr := .status c.head, len := 1, flags := VRING_DESC_F_WRITE, next := 0 }

/-- `disk.avail->ring[disk.avail->index % NUM] = idx[0]`. -/
def setRing (c : Chain) (d : Disk) : Disk :=
  { d with ring := Function.update d.ring (slotOf NUM d.index) c.head }

/-- `disk.avail->index += 1`. -/
def bump (d : Disk) : Disk := { d with index := (d.index + 1) % WRAP }

/-- The device takes the next avail entry. -/
def take (d : Disk) : Disk :=
  { d with
    inflight := d.inflight ++ [d.ring (slotOf NUM d.devIdx)]
    devIdx := (d.devIdx + 1) % WRAP }

/-- The device stores the status byte where the chain's last descriptor says. -/
def storeStatus (h : Fin NUM) (d : Disk) : Disk :=
  match (d.desc (d.desc (d.desc h).next).next).addr with
  | .status i => d.setInfo i ({ · with status := 0 })
  | _ => d

/-- The device finishes a chain it took and puts its head into the used ring. -/
def complete (h : Fin NUM) (d : Disk) : Disk :=
  let d := d.storeStatus h
  { d with
    inflight := d.inflight.erase h
    used := Function.update d.used (slotOf NUM d.idx) h
    idx := (d.idx + 1) % WRAP }

end Disk

/-- `enum procstate`. -/
inductive ProcState where
  | UNUSED | USED | SLEEPING | RUNNABLE | RUNNING | ZOMBIE
  deriving DecidableEq, Repr

/-- Where a process stands in `virt_disk_rw` and in the `sleep` it calls. -/
inductive Pc where
  /-- Not in `virt_disk_rw`. -/
  | idle
  /-- `acquire(&disk.disklock)` -/
  | acquire
  /-- `while (1) if (alloc3_desc(idx) == 0) break;` -/
  | alloc
  | fill (c : Chain)
  /-- `b->disk = 1` -/
  | setDisk (c : Chain)
  /-- `disk.info[idx[0]].b = b` -/
  | setInfo (c : Chain)
  | setRing (c : Chain)
  /-- `disk.avail->index += 1` and the notification. -/
  | bump (c : Chain)
  /-- `while (b->disk == 1)` -/
  | test (c : Chain)
  /-- `acquire(&pc->slock)` in `sleep` -/
  | sleepAcquire (c : Chain)
  /-- `release(lk)` -/
  | sleepRelease (c : Chain)
  /-- `pc->chan = p` -/
  | sleepChan (c : Chain)
  /-- `pc->state = SLEEPING` -/
  | sleepState (c : Chain)
  /-- `sched()`: the scheduler it switches to releases `pc->slock`. -/
  | sched (c : Chain)
  /-- Off the processor. -/
  | asleep (c : Chain)
  /-- `pc->chan = 0`, back on a processor with `pc->slock` held. -/
  | woken (c : Chain)
  /-- `release(&pc->slock)` -/
  | sleepUnlock (c : Chain)
  /-- `acquire(lk)` -/
  | reacquire (c : Chain)
  /-- `disk.info[idx[0]].b = 0` -/
  | clearInfo (c : Chain)
  | freeChain (c : Chain)
  /-- `release(&disk.disklock)` -/
  | release
  deriving DecidableEq

/-- Who holds a process's `slock`: the process (or the scheduler on its behalf), or
the interrupt handler in `wakeup`. -/
inductive Slock where
  | self
  | isr
  deriving DecidableEq

/-- A process, with the arguments of its call in progress. -/
structure Proc where
  state : ProcState := .RUNNING
  chan : Option ℕ := none
  slock : Option Slock := none
  pc : Pc := .idle
  b : ℕ := 0
  write : Bool := false
  deriving DecidableEq

/-- Where `virtio_disk_isr` and the `wakeup` it calls stand. -/
inductive IsrPc where
  | idle
  /-- `while (disk.used_idx != disk.used->idx)` -/
  | test
  | readId
  | readBuf (id : Fin NUM)
  /-- `b->disk = 0` -/
  | clear (b : ℕ)
  /-- `wakeup(b)`: the next process to look at is `q`. -/
  | wake (b q : ℕ)
  /-- `p->slock` is held: test state and channel. -/
  | visit (b q : ℕ)
  /-- `p->state = RUNNABLE` -/
  | mark (b q : ℕ)
  /-- `release(&p->slock)` -/
  | unlock (b q : ℕ)
  /-- `disk.used_idx += 1` -/
  | advance
  /-- `panic("virtio_disk_isr: buf is empty")` -/
  | panicked
  deriving DecidableEq

/-- `n` processes, the driver, and the handler with the process it interrupted. -/
structure State (n : ℕ) where
  disk : Disk := {}
  /-- The `disk` field of each buffer. -/
  busy : ℕ → Bool := fun _ => false
  disklock : Option (Fin n) := none
  procs : Fin n → Proc := fun _ => {}
  isr : IsrPc := .idle
  cur : Option (Fin n) := none

variable {n : ℕ}

def State.setProc (s : State n) (p : Fin n) (f : Proc → Proc) : State n :=
  { s with procs := Function.update s.procs p (f (s.procs p)) }

/-- `p` moves on to `pc`. -/
def State.goto (s : State n) (p : Fin n) (pc : Pc) : State n :=
  s.setProc p ({ · with pc })

@[simp] theorem State.setProc_disk (s : State n) (p : Fin n) (f : Proc → Proc) :
    (s.setProc p f).disk = s.disk := rfl

@[simp] theorem State.setProc_busy (s : State n) (p : Fin n) (f : Proc → Proc) :
    (s.setProc p f).busy = s.busy := rfl

@[simp] theorem State.setProc_disklock (s : State n) (p : Fin n) (f : Proc → Proc) :
    (s.setProc p f).disklock = s.disklock := rfl

@[simp] theorem State.setProc_isr (s : State n) (p : Fin n) (f : Proc → Proc) :
    (s.setProc p f).isr = s.isr := rfl

@[simp] theorem State.setProc_cur (s : State n) (p : Fin n) (f : Proc → Proc) :
    (s.setProc p f).cur = s.cur := rfl

@[simp] theorem State.goto_disk (s : State n) (p : Fin n) (pc : Pc) :
    (s.goto p pc).disk = s.disk := rfl

@[simp] theorem State.goto_busy (s : State n) (p : Fin n) (pc : Pc) :
    (s.goto p pc).busy = s.busy := rfl

@[simp] theorem State.goto_disklock (s : State n) (p : Fin n) (pc : Pc) :
    (s.goto p pc).disklock = s.disklock := rfl

@[simp] theorem State.goto_isr (s : State n) (p : Fin n) (pc : Pc) :
    (s.goto p pc).isr = s.isr := rfl

@[simp] theorem State.goto_cur (s : State n) (p : Fin n) (pc : Pc) :
    (s.goto p pc).cur = s.cur := rfl

/-- Interrupts are enabled where a process holds no spinlock. -/
def Pc.interruptible : Pc → Bool
  | .idle => true
  | .acquire => true
  | .reacquire _ => true
  | _ => false

/-- What a step shows of itself. -/
inductive Label (n : ℕ) where
  | start (p : Fin n) (b : ℕ) (write : Bool)
  | run (p : Fin n)
  /-- The avail index passes the request of `p` on `b` with head `h`. -/
  | submit (p : Fin n) (b : ℕ) (h : Fin NUM)
  | finish (p : Fin n) (b : ℕ)
  | schedule (p : Fin n)
  | take (h : Fin NUM)
  | complete (h : Fin NUM)
  | irq
  | isr
  | clear (b : ℕ)
  /-- The handler is done with the used entry. -/
  | consume (id : Fin NUM)
  deriving DecidableEq

/-- One step of the system. A process whose hart runs the handler does not move. -/
inductive Step : State n → Label n → State n → Prop where
  | start {s : State n} {p : Fin n} {b : ℕ} {write : Bool}
      (at_ : (s.procs p).pc = .idle) (running : (s.procs p).state = .RUNNING)
      (free : s.cur ≠ some p)
      (distinct : ∀ q, (s.procs q).pc ≠ .idle → (s.procs q).b ≠ b) :
      Step s (.start p b write) (s.setProc p ({ · with pc := .acquire, b, write }))
  | acquire {s : State n} {p : Fin n} (at_ : (s.procs p).pc = .acquire)
      (free : s.cur ≠ some p) (unlocked : s.disklock = none) :
      Step s (.run p) ({ s with disklock := some p }.goto p .alloc)
  | alloc {s : State n} {p : Fin n} {c : Chain} (at_ : (s.procs p).pc = .alloc)
      (free : s.cur ≠ some p) (found : s.disk.alloc3Desc.1 = some c) :
      Step s (.run p) ({ s with disk := s.disk.alloc3Desc.2 }.goto p (.fill c))
  | allocRetry {s : State n} {p : Fin n} (at_ : (s.procs p).pc = .alloc)
      (free : s.cur ≠ some p) (failed : s.disk.alloc3Desc.1 = none) :
      Step s (.run p) { s with disk := s.disk.alloc3Desc.2 }
  | fill {s : State n} {p : Fin n} {c : Chain} (at_ : (s.procs p).pc = .fill c)
      (free : s.cur ≠ some p) :
      Step s (.run p) ({ s with
        disk := s.disk.fill (s.procs p).b (s.procs p).write c }.goto p (.setDisk c))
  | setDisk {s : State n} {p : Fin n} {c : Chain} (at_ : (s.procs p).pc = .setDisk c)
      (free : s.cur ≠ some p) :
      Step s (.run p)
        ({ s with busy := Function.update s.busy (s.procs p).b true }.goto p (.setInfo c))
  | setInfo {s : State n} {p : Fin n} {c : Chain} (at_ : (s.procs p).pc = .setInfo c)
      (free : s.cur ≠ some p) :
      Step s (.run p) ({ s with
        disk := s.disk.setInfo c.head ({ · with b := some (s.procs p).b }) }.goto p (.setRing c))
  | setRing {s : State n} {p : Fin n} {c : Chain} (at_ : (s.procs p).pc = .setRing c)
      (free : s.cur ≠ some p) :
      Step s (.run p) ({ s with disk := s.disk.setRing c }.goto p (.bump c))
  | bump {s : State n} {p : Fin n} {c : Chain} (at_ : (s.procs p).pc = .bump c)
      (free : s.cur ≠ some p) :
      Step s (.submit p (s.procs p).b c.head)
        ({ s with disk := s.disk.bump }.goto p (.test c))
  | testBusy {s : State n} {p : Fin n} {c : Chain} (at_ : (s.procs p).pc = .test c)
      (free : s.cur ≠ some p) (waiting : s.busy (s.procs p).b = true) :
      Step s (.run p) (s.goto p (.sleepAcquire c))
  | testDone {s : State n} {p : Fin n} {c : Chain} (at_ : (s.procs p).pc = .test c)
      (free : s.cur ≠ some p) (done : s.busy (s.procs p).b = false) :
      Step s (.run p) (s.goto p (.clearInfo c))
  | sleepAcquire {s : State n} {p : Fin n} {c : Chain}
      (at_ : (s.procs p).pc = .sleepAcquire c)
      (free : s.cur ≠ some p) (unlocked : (s.procs p).slock = none) :
      Step s (.run p) (s.setProc p ({ · with slock := some .self, pc := .sleepRelease c }))
  | sleepRelease {s : State n} {p : Fin n} {c : Chain}
      (at_ : (s.procs p).pc = .sleepRelease c) (free : s.cur ≠ some p) :
      Step s (.run p) ({ s with disklock := none }.goto p (.sleepChan c))
  | sleepChan {s : State n} {p : Fin n} {c : Chain}
      (at_ : (s.procs p).pc = .sleepChan c) (free : s.cur ≠ some p) :
      Step s (.run p)
        (s.setProc p fun r => { r with chan := some r.b, pc := .sleepState c })
  | sleepState {s : State n} {p : Fin n} {c : Chain}
      (at_ : (s.procs p).pc = .sleepState c) (free : s.cur ≠ some p) :
      Step s (.run p) (s.setProc p ({ · with state := .SLEEPING, pc := .sched c }))
  | sched {s : State n} {p : Fin n} {c : Chain}
      (at_ : (s.procs p).pc = .sched c) (free : s.cur ≠ some p) :
      Step s (.run p) (s.setProc p ({ · with slock := none, pc := .asleep c }))
  | schedule {s : State n} {p : Fin n} {c : Chain}
      (at_ : (s.procs p).pc = .asleep c) (runnable : (s.procs p).state = .RUNNABLE)
      (unlocked : (s.procs p).slock = none) :
      Step s (.schedule p)
        (s.setProc p ({ · with slock := some .self, state := .RUNNING, pc := .woken c }))
  | woken {s : State n} {p : Fin n} {c : Chain}
      (at_ : (s.procs p).pc = .woken c) (free : s.cur ≠ some p) :
      Step s (.run p) (s.setProc p ({ · with chan := none, pc := .sleepUnlock c }))
  | sleepUnlock {s : State n} {p : Fin n} {c : Chain}
      (at_ : (s.procs p).pc = .sleepUnlock c) (free : s.cur ≠ some p) :
      Step s (.run p) (s.setProc p ({ · with slock := none, pc := .reacquire c }))
  | reacquire {s : State n} {p : Fin n} {c : Chain}
      (at_ : (s.procs p).pc = .reacquire c)
      (free : s.cur ≠ some p) (unlocked : s.disklock = none) :
      Step s (.run p) ({ s with disklock := some p }.goto p (.test c))
  | clearInfo {s : State n} {p : Fin n} {c : Chain}
      (at_ : (s.procs p).pc = .clearInfo c) (free : s.cur ≠ some p) :
      Step s (.run p) ({ s with
        disk := s.disk.setInfo c.head ({ · with b := none }) }.goto p (.freeChain c))
  | freeChain {s : State n} {p : Fin n} {c : Chain}
      (at_ : (s.procs p).pc = .freeChain c) (free : s.cur ≠ some p) :
      Step s (.run p)
        ({ s with disk := s.disk.freeChain NUM c.head }.goto p .release)
  | release {s : State n} {p : Fin n} (at_ : (s.procs p).pc = .release)
      (free : s.cur ≠ some p) :
      Step s (.finish p (s.procs p).b) ({ s with disklock := none }.goto p .idle)
  | take {s : State n} (published : s.disk.devIdx ≠ s.disk.index) :
      Step s (.take (s.disk.ring (slotOf NUM s.disk.devIdx))) { s with disk := s.disk.take }
  | complete {s : State n} {h : Fin NUM} (taken : h ∈ s.disk.inflight) :
      Step s (.complete h) { s with disk := s.disk.complete h }
  | irq {s : State n} {cur : Option (Fin n)} (idle : s.isr = .idle)
      (interrupted : ∀ p, cur = some p →
        (s.procs p).state = .RUNNING ∧ (s.procs p).pc.interruptible = true) :
      Step s .irq { s with isr := .test, cur }
  | isrTest {s : State n} (at_ : s.isr = .test) (more : s.disk.usedIdx ≠ s.disk.idx) :
      Step s .isr { s with isr := .readId }
  | isrReturn {s : State n} (at_ : s.isr = .test) (none_ : s.disk.usedIdx = s.disk.idx) :
      Step s .isr { s with isr := .idle, cur := none }
  | readId {s : State n} (at_ : s.isr = .readId) :
      Step s .isr { s with isr := .readBuf (s.disk.used (slotOf NUM s.disk.usedIdx)) }
  | readBuf {s : State n} {id : Fin NUM} {b : ℕ} (at_ : s.isr = .readBuf id)
      (found : (s.disk.info id).b = some b) : Step s .isr { s with isr := .clear b }
  | isrPanic {s : State n} {id : Fin NUM} (at_ : s.isr = .readBuf id)
      (empty : (s.disk.info id).b = none) : Step s .isr { s with isr := .panicked }
  | clear {s : State n} {b : ℕ} (at_ : s.isr = .clear b) :
      Step s (.clear b) { s with busy := Function.update s.busy b false, isr := .wake b 0 }
  | wakeSkip {s : State n} {b : ℕ} {q : Fin n} (at_ : s.isr = .wake b q)
      (self : s.cur = some q) : Step s .isr { s with isr := .wake b (q + 1) }
  | wakeAcquire {s : State n} {b : ℕ} {q : Fin n} (at_ : s.isr = .wake b q)
      (other : s.cur ≠ some q) (unlocked : (s.procs q).slock = none) :
      Step s .isr ({ s with isr := .visit b q }.setProc q ({ · with slock := some .isr }))
  | visitSleeper {s : State n} {b : ℕ} {q : Fin n} (at_ : s.isr = .visit b q)
      (sleeping : (s.procs q).state = .SLEEPING ∧ (s.procs q).chan = some b) :
      Step s .isr { s with isr := .mark b q }
  | visitOther {s : State n} {b : ℕ} {q : Fin n} (at_ : s.isr = .visit b q)
      (awake : ¬ ((s.procs q).state = .SLEEPING ∧ (s.procs q).chan = some b)) :
      Step s .isr { s with isr := .unlock b q }
  | mark {s : State n} {b : ℕ} {q : Fin n} (at_ : s.isr = .mark b q) :
      Step s .isr ({ s with isr := .unlock b q }.setProc q ({ · with state := .RUNNABLE }))
  | wakeRelease {s : State n} {b : ℕ} {q : Fin n} (at_ : s.isr = .unlock b q) :
      Step s .isr ({ s with isr := .wake b (q + 1) }.setProc q ({ · with slock := none }))
  | wakeDone {s : State n} {b q : ℕ} (at_ : s.isr = .wake b q) (last : n ≤ q) :
      Step s .isr { s with isr := .advance }
  | advance {s : State n} (at_ : s.isr = .advance) :
      Step s (.consume (s.disk.used (slotOf NUM s.disk.usedIdx)))
        { s with
          isr := .test
          disk := { s.disk with usedIdx := (s.disk.usedIdx + 1) % WRAP } }

/-- After `virtio_disk_init`: everything free, no request, no interrupt. -/
def init (n : ℕ) : State n := {}

end HaloOS.Virtio
