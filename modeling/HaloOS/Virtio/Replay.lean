import HaloOS.Virtio.Model
import HaloOS.Lib.Trace

/-! The step relation as a function of state and label, so that a schedule can be
run. An interrupt is taken on a hart that is not running any of the processes. -/

namespace HaloOS.Virtio

open Lib

variable {n : ℕ}

/-- The next step of process `p` that is neither its submission nor its return. -/
def fireRun (s : State n) (p : Fin n) : Option (State n) :=
  match (s.procs p).pc with
  | .acquire =>
    if s.disklock = none then some ({ s with disklock := some p }.goto p .alloc) else none
  | .alloc =>
    match s.disk.alloc3Desc with
    | (some c, disk) => some ({ s with disk }.goto p (.fill c))
    | (none, disk) => some { s with disk }
  | .fill c =>
    some ({ s with disk := s.disk.fill (s.procs p).b (s.procs p).write c }.goto p (.setDisk c))
  | .setDisk c =>
    some ({ s with busy := Function.update s.busy (s.procs p).b true }.goto p (.setInfo c))
  | .setInfo c =>
    some ({ s with
      disk := s.disk.setInfo c.head ({ · with b := some (s.procs p).b }) }.goto p (.setRing c))
  | .setRing c => some ({ s with disk := s.disk.setRing c }.goto p (.bump c))
  | .test c =>
    if s.busy (s.procs p).b then some (s.goto p (.sleepAcquire c))
    else some (s.goto p (.clearInfo c))
  | .sleepAcquire c =>
    if (s.procs p).slock = none then
      some (s.setProc p ({ · with slock := some .self, pc := .sleepRelease c }))
    else none
  | .sleepRelease c => some ({ s with disklock := none }.goto p (.sleepChan c))
  | .sleepChan c => some (s.setProc p fun r => { r with chan := some r.b, pc := .sleepState c })
  | .sleepState c => some (s.setProc p ({ · with state := .SLEEPING, pc := .sched c }))
  | .sched c => some (s.setProc p ({ · with slock := none, pc := .asleep c }))
  | .woken c => some (s.setProc p ({ · with chan := none, pc := .sleepUnlock c }))
  | .sleepUnlock c => some (s.setProc p ({ · with slock := none, pc := .reacquire c }))
  | .reacquire c =>
    if s.disklock = none then some ({ s with disklock := some p }.goto p (.test c)) else none
  | .clearInfo c =>
    some ({ s with
      disk := s.disk.setInfo c.head ({ · with b := none }) }.goto p (.freeChain c))
  | .freeChain c => some ({ s with disk := s.disk.freeChain NUM c.head }.goto p .release)
  | _ => none

/-- The next internal step of the handler. -/
def fireIsr (s : State n) : Option (State n) :=
  match s.isr with
  | .test =>
    if s.disk.usedIdx = s.disk.idx then some { s with isr := .idle, cur := none }
    else some { s with isr := .readId }
  | .readId => some { s with isr := .readBuf (s.disk.used (slotOf NUM s.disk.usedIdx)) }
  | .readBuf id =>
    match (s.disk.info id).b with
    | some b => some { s with isr := .clear b }
    | none => some { s with isr := .panicked }
  | .wake b q =>
    if inside : q < n then
      if s.cur = some ⟨q, inside⟩ then some { s with isr := .wake b (q + 1) }
      else if (s.procs ⟨q, inside⟩).slock = none then
        some ({ s with isr := .visit b q }.setProc ⟨q, inside⟩ ({ · with slock := some .isr }))
      else none
    else some { s with isr := .advance }
  | .visit b q =>
    if inside : q < n then
      if (s.procs ⟨q, inside⟩).state = .SLEEPING ∧ (s.procs ⟨q, inside⟩).chan = some b then
        some { s with isr := .mark b q }
      else some { s with isr := .unlock b q }
    else none
  | .mark b q =>
    if inside : q < n then
      some ({ s with isr := .unlock b q }.setProc ⟨q, inside⟩ ({ · with state := .RUNNABLE }))
    else none
  | .unlock b q =>
    if inside : q < n then
      some ({ s with isr := .wake b (q + 1) }.setProc ⟨q, inside⟩ ({ · with slock := none }))
    else none
  | _ => none

/-- The state after a labelled step, where the label is possible. -/
def fire (s : State n) : Label n → Option (State n)
  | .start p b write =>
    if (s.procs p).pc = .idle ∧ (s.procs p).state = .RUNNING ∧ s.cur ≠ some p ∧
        ∀ q, (s.procs q).pc ≠ .idle → (s.procs q).b ≠ b then
      some (s.setProc p ({ · with pc := .acquire, b, write }))
    else none
  | .run p => if s.cur = some p then none else fireRun s p
  | .submit p b h =>
    match (s.procs p).pc with
    | .bump c =>
      if s.cur ≠ some p ∧ (s.procs p).b = b ∧ c.head = h then
        some ({ s with disk := s.disk.bump }.goto p (.test c))
      else none
    | _ => none
  | .finish p b =>
    if (s.procs p).pc = .release ∧ s.cur ≠ some p ∧ (s.procs p).b = b then
      some ({ s with disklock := none }.goto p .idle)
    else none
  | .schedule p =>
    match (s.procs p).pc with
    | .asleep c =>
      if (s.procs p).state = .RUNNABLE ∧ (s.procs p).slock = none then
        some (s.setProc p ({ · with slock := some .self, state := .RUNNING, pc := .woken c }))
      else none
    | _ => none
  | .take h =>
    if s.disk.devIdx ≠ s.disk.index ∧ s.disk.ring (slotOf NUM s.disk.devIdx) = h then
      some { s with disk := s.disk.take }
    else none
  | .complete h =>
    if h ∈ s.disk.inflight then some { s with disk := s.disk.complete h } else none
  | .irq => if s.isr = .idle then some { s with isr := .test, cur := none } else none
  | .isr => fireIsr s
  | .clear b =>
    if s.isr = .clear b then
      some { s with busy := Function.update s.busy b false, isr := .wake b 0 }
    else none
  | .consume id =>
    if s.isr = .advance ∧ s.disk.used (slotOf NUM s.disk.usedIdx) = id then
      some { s with
        isr := .test
        disk := { s.disk with usedIdx := (s.disk.usedIdx + 1) % WRAP } }
    else none

private theorem fireRun_sound {s s' : State n} {p : Fin n} (free : s.cur ≠ some p)
    (fired : fireRun s p = some s') : Step s (.run p) s' := by
  unfold fireRun at fired
  split at fired
  case h_1 at_ =>
    split at fired
    · obtain rfl := Option.some.inj fired
      exact .acquire at_ free (by assumption)
    · cases fired
  case h_2 at_ =>
    cases result : s.disk.alloc3Desc with
    | mk found disk =>
      cases found with
      | some c =>
        simp only [result, Option.some.injEq] at fired
        obtain rfl := fired
        have step := Step.alloc (c := c) at_ free (by simp [result])
        simpa [result] using step
      | none =>
        simp only [result, Option.some.injEq] at fired
        obtain rfl := fired
        have step := Step.allocRetry at_ free (by simp [result])
        simpa [result] using step
  case h_3 c at_ => obtain rfl := Option.some.inj fired; exact .fill at_ free
  case h_4 c at_ => obtain rfl := Option.some.inj fired; exact .setDisk at_ free
  case h_5 c at_ => obtain rfl := Option.some.inj fired; exact .setInfo at_ free
  case h_6 c at_ => obtain rfl := Option.some.inj fired; exact .setRing at_ free
  case h_7 c at_ =>
    split at fired
    · obtain rfl := Option.some.inj fired
      exact .testBusy at_ free (by assumption)
    · rename_i idle
      obtain rfl := Option.some.inj fired
      exact .testDone at_ free (by simpa using idle)
  case h_8 c at_ =>
    split at fired
    · obtain rfl := Option.some.inj fired
      exact .sleepAcquire at_ free (by assumption)
    · cases fired
  case h_9 c at_ => obtain rfl := Option.some.inj fired; exact .sleepRelease at_ free
  case h_10 c at_ => obtain rfl := Option.some.inj fired; exact .sleepChan at_ free
  case h_11 c at_ => obtain rfl := Option.some.inj fired; exact .sleepState at_ free
  case h_12 c at_ => obtain rfl := Option.some.inj fired; exact .sched at_ free
  case h_13 c at_ => obtain rfl := Option.some.inj fired; exact .woken at_ free
  case h_14 c at_ => obtain rfl := Option.some.inj fired; exact .sleepUnlock at_ free
  case h_15 c at_ =>
    split at fired
    · obtain rfl := Option.some.inj fired
      exact .reacquire at_ free (by assumption)
    · cases fired
  case h_16 c at_ => obtain rfl := Option.some.inj fired; exact .clearInfo at_ free
  case h_17 c at_ => obtain rfl := Option.some.inj fired; exact .freeChain at_ free
  case h_18 => cases fired

private theorem fireIsr_sound {s s' : State n} (fired : fireIsr s = some s') :
    Step s .isr s' := by
  unfold fireIsr at fired
  split at fired
  case h_1 at_ =>
    split at fired
    · obtain rfl := Option.some.inj fired
      exact .isrReturn at_ (by assumption)
    · obtain rfl := Option.some.inj fired
      exact .isrTest at_ (by assumption)
  case h_2 at_ => obtain rfl := Option.some.inj fired; exact .readId at_
  case h_3 id at_ =>
    split at fired
    · obtain rfl := Option.some.inj fired
      exact .readBuf at_ (by assumption)
    · obtain rfl := Option.some.inj fired
      exact .isrPanic at_ (by assumption)
  case h_4 b q at_ =>
    split at fired
    · rename_i inside
      split at fired
      · obtain rfl := Option.some.inj fired
        exact .wakeSkip (q := ⟨q, inside⟩) at_ (by assumption)
      · split at fired
        · obtain rfl := Option.some.inj fired
          exact .wakeAcquire (q := ⟨q, inside⟩) at_ (by assumption) (by assumption)
        · cases fired
    · obtain rfl := Option.some.inj fired
      exact .wakeDone at_ (by omega)
  case h_5 b q at_ =>
    split at fired
    · rename_i inside
      split at fired
      · obtain rfl := Option.some.inj fired
        exact .visitSleeper (q := ⟨q, inside⟩) at_ (by assumption)
      · obtain rfl := Option.some.inj fired
        exact .visitOther (q := ⟨q, inside⟩) at_ (by assumption)
    · cases fired
  case h_6 b q at_ =>
    split at fired
    · rename_i inside
      obtain rfl := Option.some.inj fired
      exact .mark (q := ⟨q, inside⟩) at_
    · cases fired
  case h_7 b q at_ =>
    split at fired
    · rename_i inside
      obtain rfl := Option.some.inj fired
      exact .wakeRelease (q := ⟨q, inside⟩) at_
    · cases fired
  case h_8 => cases fired

/-- Every fired step is a step of the system. -/
theorem fire_sound {s s' : State n} {l : Label n} (fired : fire s l = some s') :
    Step s l s' := by
  cases l with
  | start p b write =>
    simp only [fire] at fired
    split at fired
    · rename_i enabled
      obtain ⟨at_, running, free, distinct⟩ := enabled
      obtain rfl := Option.some.inj fired
      exact .start at_ running free distinct
    · cases fired
  | run p =>
    simp only [fire] at fired
    split at fired
    · cases fired
    · exact fireRun_sound (by assumption) fired
  | submit p b h =>
    simp only [fire] at fired
    split at fired
    · rename_i c at_
      split at fired
      · rename_i enabled
        obtain ⟨free, rfl, rfl⟩ := enabled
        obtain rfl := Option.some.inj fired
        exact .bump at_ free
      · cases fired
    · cases fired
  | finish p b =>
    simp only [fire] at fired
    split at fired
    · rename_i enabled
      obtain ⟨at_, free, rfl⟩ := enabled
      obtain rfl := Option.some.inj fired
      exact .release at_ free
    · cases fired
  | schedule p =>
    simp only [fire] at fired
    split at fired
    · rename_i c at_
      split at fired
      · rename_i enabled
        obtain rfl := Option.some.inj fired
        exact .schedule at_ enabled.1 enabled.2
      · cases fired
    · cases fired
  | take h =>
    simp only [fire] at fired
    split at fired
    · rename_i enabled
      obtain ⟨published, rfl⟩ := enabled
      obtain rfl := Option.some.inj fired
      exact .take published
    · cases fired
  | complete h =>
    simp only [fire] at fired
    split at fired
    · obtain rfl := Option.some.inj fired
      exact .complete (by assumption)
    · cases fired
  | irq =>
    simp only [fire] at fired
    split at fired
    · obtain rfl := Option.some.inj fired
      exact .irq (by assumption) (by simp)
    · cases fired
  | isr => exact fireIsr_sound fired
  | clear b =>
    simp only [fire] at fired
    split at fired
    · obtain rfl := Option.some.inj fired
      exact .clear (by assumption)
    · cases fired
  | consume id =>
    simp only [fire] at fired
    split at fired
    · rename_i enabled
      obtain ⟨at_, rfl⟩ := enabled
      obtain rfl := Option.some.inj fired
      exact .advance at_
    · cases fired

/-- Run a whole schedule of steps that `allowed` accepts. -/
def replayIn (allowed : State n → State n → Bool) : List (Label n) → State n → Option (State n)
  | [], s => some s
  | l :: rest, s =>
    (fire s l).bind fun t => if allowed s t then replayIn allowed rest t else none

/-- Run a whole schedule. -/
def replay (schedule : List (Label n)) (s : State n) : Option (State n) :=
  replayIn (fun _ _ => true) schedule s

theorem replayIn_trace {allowed : State n → State n → Bool} {schedule : List (Label n)}
    {s s' : State n} (ran : replayIn allowed schedule s = some s') :
    Trace (fun s l t => Step s l t ∧ allowed s t = true) s schedule s' := by
  induction schedule generalizing s with
  | nil =>
    obtain rfl : s = s' := by simpa [replayIn] using ran
    exact .nil
  | cons l rest ih =>
    obtain ⟨mid, fired, later⟩ := Option.bind_eq_some_iff.mp ran
    split at later
    · rename_i accepted
      exact (Trace.single ⟨fire_sound fired, accepted⟩).append (ih later)
    · cases later

theorem replay_trace {schedule : List (Label n)} {s s' : State n}
    (ran : replay schedule s = some s') : Trace Step s schedule s' :=
  (replayIn_trace ran).mono fun _ _ _ step => step.1

end HaloOS.Virtio
