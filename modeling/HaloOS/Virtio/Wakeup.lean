import HaloOS.Virtio.Base
import HaloOS.Virtio.Replay

/-! Lost wakeups. `virtio_disk_isr` clears `b->disk` and walks over the processes
without `disklock`, while `virt_disk_rw` tests `b->disk` and goes to sleep under it: a
process may read 1, be passed over by the walk, and then sleep. A run in which the
walk never passes a process standing in that window loses no wakeup. -/

namespace HaloOS.Virtio

open Lib

/-- From the test of `b->disk` that read 1 to the switch back to the process. -/
def Pc.waiting : Pc → Bool
  | .sleepAcquire _ | .sleepRelease _ | .sleepChan _ | .sleepState _ | .sched _
  | .asleep _ => true
  | _ => false

/-- `b->disk` was read as 1 and `pc->slock` is not yet held. -/
def Pc.inWindow : Pc → Bool
  | .sleepAcquire _ => true
  | _ => false

/-- On the way to sleep, or asleep and not yet marked. -/
def Proc.Waits (r : Proc) : Prop :=
  r.pc.waiting = true ∧ ∀ c, r.pc = .asleep c → r.state = .SLEEPING

/-- The handler is in the `wakeup(b)` that follows its `b->disk = 0` and has not yet
made its test and store on process `p`. -/
def Unvisited (isr : IsrPc) (b p : ℕ) : Prop :=
  match isr with
  | .wake b' q | .visit b' q | .mark b' q => b' = b ∧ q ≤ p
  | .unlock b' q => b' = b ∧ q < p
  | _ => False

variable {n : ℕ}

/-- The handler's next step takes the `slock` of a process that has read `b->disk == 1`
for the very buffer being woken and has not yet taken that lock in `sleep`. -/
def PassesWindow (s s' : State n) : Prop :=
  ∃ q : Fin n, s.isr = .wake (s.procs q).b q ∧ s'.isr = .visit (s.procs q).b q ∧
    (s.procs q).pc.inWindow = true

instance (s s' : State n) : Decidable (PassesWindow s s') := by
  unfold PassesWindow
  infer_instance

/-- The steps that do not fall into the window. -/
def SafeStep (s : State n) (l : Label n) (s' : State n) : Prop :=
  Step s l s' ∧ ¬ PassesWindow s s'

/-- Every process on its way to sleep has its buffer still at the device or the
handler's visit still ahead. -/
structure Alert (s : State n) : Prop where
  waiting : ∀ p, (s.procs p).Waits →
    s.busy (s.procs p).b = true ∨ Unvisited s.isr (s.procs p).b p
  visited : ∀ (p : Fin n) c, s.isr = .visit (s.procs p).b p →
    (s.procs p).pc = .sleepAcquire c → s.busy (s.procs p).b = true

theorem alert_init (n : ℕ) : Alert (init n) where
  waiting := by simp [init, Proc.Waits, Pc.waiting]
  visited := by simp [init]

/-- The frame of a process step: the handler stands still and no buffer is cleared. -/
theorem Alert.move {s s' : State n} (alert : Alert s) (p : Fin n) (r : Proc)
    (procs : s'.procs = Function.update s.procs p r) (isr : s'.isr = s.isr)
    (busy : ∀ b, s.busy b = true → s'.busy b = true)
    (waiting : r.Waits → s'.busy r.b = true ∨ ((s.procs p).Waits ∧ r.b = (s.procs p).b))
    (tested : ∀ c, r.pc = .sleepAcquire c → s'.busy r.b = true) : Alert s' where
  waiting := by
    intro q
    rw [procs, isr]
    by_cases same : q = p
    · subst same
      rw [Function.update_self]
      intro waits
      rcases waiting waits with held | ⟨waited, kept⟩
      · exact .inl held
      · rw [kept]
        exact (alert.waiting q waited).imp_left (busy _)
    · rw [Function.update_of_ne same]
      intro waits
      exact (alert.waiting q waits).imp_left (busy _)
  visited := by
    intro q c
    rw [procs, isr]
    by_cases same : q = p
    · subst same
      rw [Function.update_self]
      intro _ at_
      exact tested c at_
    · rw [Function.update_of_ne same]
      intro visit at_
      exact busy _ (alert.visited q c visit at_)

/-- A process step to a program point outside the window and the sleep. -/
theorem Alert.leave {s s' : State n} (alert : Alert s) (p : Fin n) (r : Proc)
    (procs : s'.procs = Function.update s.procs p r) (isr : s'.isr = s.isr)
    (busy : ∀ b, s.busy b = true → s'.busy b = true) (awake : r.pc.waiting = false) :
    Alert s' := by
  refine alert.move p r procs isr busy ?_ ?_
  · rintro ⟨waits, _⟩
    simp [awake] at waits
  · intro c at_
    simp [at_, Pc.waiting] at awake

/-- A process step inside `sleep`. -/
theorem Alert.deeper {s s' : State n} (alert : Alert s) (p : Fin n) (r : Proc)
    (procs : s'.procs = Function.update s.procs p r) (isr : s'.isr = s.isr)
    (busy : s'.busy = s.busy) (waited : (s.procs p).pc.waiting = true)
    (awake : ∀ c, (s.procs p).pc ≠ .asleep c) (kept : r.b = (s.procs p).b)
    (passed : ∀ c, r.pc ≠ .sleepAcquire c) : Alert s' := by
  refine alert.move p r procs isr (by simp [busy]) ?_ ?_
  · intro _
    exact .inr ⟨⟨waited, fun c at_ => absurd at_ (awake c)⟩, kept⟩
  · intro c at_
    exact absurd at_ (passed c)

/-- The frame of a handler step that clears no buffer. -/
theorem Alert.handle {s s' : State n} (alert : Alert s) (busy : s'.busy = s.busy)
    (pc : ∀ p, (s'.procs p).pc = (s.procs p).pc ∧ (s'.procs p).b = (s.procs p).b)
    (state : ∀ p, (s'.procs p).Waits → (s.procs p).Waits)
    (unvisited : ∀ p, (s'.procs p).Waits → Unvisited s.isr (s.procs p).b p →
      s.busy (s.procs p).b = true ∨ Unvisited s'.isr (s.procs p).b p)
    (visit : ∀ (p : Fin n) c, s'.isr = .visit (s.procs p).b p →
      (s.procs p).pc = .sleepAcquire c → s.busy (s.procs p).b = true) : Alert s' where
  waiting := by
    intro p waits
    rw [(pc p).2, busy]
    rcases alert.waiting p (state p waits) with held | ahead
    · exact .inl held
    · exact unvisited p waits ahead
  visited := by
    intro p c
    rw [(pc p).1, (pc p).2, busy]
    exact visit p c

/-- A handler step that leaves the processes as they are and visits nobody. -/
theorem Alert.jump {s s' : State n} (alert : Alert s) (busy : s'.busy = s.busy)
    (procs : s'.procs = s.procs)
    (unvisited : ∀ p, (s.procs p).Waits → Unvisited s.isr (s.procs p).b p →
      s.busy (s.procs p).b = true ∨ Unvisited s'.isr (s.procs p).b p)
    (visit : ∀ b q, s'.isr ≠ .visit b q) : Alert s' := by
  refine alert.handle busy (by simp [procs]) (by simp [procs]) (by simpa [procs] using unvisited) ?_
  intro p c at_
  exact absurd at_ (visit _ _)

/-- A waiting process whose `slock` the handler holds is in the window or off the
processor. -/
theorem Base.waiting_visited {s : State n} (base : Base s) {q : Fin n}
    (visiting : s.isr.visiting = some q.val) (waits : (s.procs q).pc.waiting = true) :
    (∃ c, (s.procs q).pc = .sleepAcquire c) ∨ ∃ c, (s.procs q).pc = .asleep c := by
  have held := (base.slockIsr q).mpr visiting
  have own : (s.procs q).pc.slocked ≠ true := by
    intro slocked
    have self := (base.procs q).slock.mpr slocked
    rw [held] at self
    cases self
  cases at_ : (s.procs q).pc <;> simp [at_, Pc.waiting, Pc.slocked] at waits own ⊢

theorem Alert.step {s s' : State n} {l : Label n} (base : Base s) (alert : Alert s)
    (step : SafeStep s l s') : Alert s' := by
  obtain ⟨step, safe⟩ := step
  cases step with
  | @start p b write at_ running free distinct =>
    exact alert.leave p _ rfl rfl (fun _ held => held) rfl
  | @acquire p at_ free unlocked => exact alert.leave p _ rfl rfl (fun _ held => held) rfl
  | @alloc p c at_ free found => exact alert.leave p _ rfl rfl (fun _ held => held) rfl
  | allocRetry at_ free failed => exact ⟨alert.waiting, alert.visited⟩
  | @fill p c at_ free => exact alert.leave p _ rfl rfl (fun _ held => held) rfl
  | @setDisk p c at_ free =>
    refine alert.leave p _ rfl rfl ?_ rfl
    intro b held
    by_cases same : b = (s.procs p).b <;> simp [same, held]
  | @setInfo p c at_ free => exact alert.leave p _ rfl rfl (fun _ held => held) rfl
  | @setRing p c at_ free => exact alert.leave p _ rfl rfl (fun _ held => held) rfl
  | @bump p c at_ free => exact alert.leave p _ rfl rfl (fun _ held => held) rfl
  | @testBusy p c at_ free waiting =>
    exact alert.move p _ rfl rfl (fun _ held => held) (fun _ => .inl waiting) (fun _ _ => waiting)
  | @testDone p c at_ free done => exact alert.leave p _ rfl rfl (fun _ held => held) rfl
  | @sleepAcquire p c at_ free unlocked =>
    exact alert.deeper p _ rfl rfl rfl (by simp [at_, Pc.waiting]) (by simp [at_]) rfl (by simp)
  | @sleepRelease p c at_ free =>
    exact alert.deeper p _ rfl rfl rfl (by simp [at_, Pc.waiting]) (by simp [at_]) rfl (by simp)
  | @sleepChan p c at_ free =>
    exact alert.deeper p _ rfl rfl rfl (by simp [at_, Pc.waiting]) (by simp [at_]) rfl (by simp)
  | @sleepState p c at_ free =>
    exact alert.deeper p _ rfl rfl rfl (by simp [at_, Pc.waiting]) (by simp [at_]) rfl (by simp)
  | @sched p c at_ free =>
    exact alert.deeper p _ rfl rfl rfl (by simp [at_, Pc.waiting]) (by simp [at_]) rfl (by simp)
  | @schedule p c at_ runnable unlocked =>
    exact alert.leave p _ rfl rfl (fun _ held => held) rfl
  | @woken p c at_ free => exact alert.leave p _ rfl rfl (fun _ held => held) rfl
  | @sleepUnlock p c at_ free => exact alert.leave p _ rfl rfl (fun _ held => held) rfl
  | @reacquire p c at_ free unlocked => exact alert.leave p _ rfl rfl (fun _ held => held) rfl
  | @clearInfo p c at_ free => exact alert.leave p _ rfl rfl (fun _ held => held) rfl
  | @freeChain p c at_ free => exact alert.leave p _ rfl rfl (fun _ held => held) rfl
  | @release p at_ free => exact alert.leave p _ rfl rfl (fun _ held => held) rfl
  | take published => exact ⟨alert.waiting, alert.visited⟩
  | complete taken => exact ⟨alert.waiting, alert.visited⟩
  | irq idle interrupted => exact alert.jump rfl rfl (by simp [idle, Unvisited]) (by simp)
  | isrTest at_ more => exact alert.jump rfl rfl (by simp [at_, Unvisited]) (by simp)
  | isrReturn at_ none_ => exact alert.jump rfl rfl (by simp [at_, Unvisited]) (by simp)
  | readId at_ => exact alert.jump rfl rfl (by simp [at_, Unvisited]) (by simp)
  | readBuf at_ found => exact alert.jump rfl rfl (by simp [at_, Unvisited]) (by simp)
  | isrPanic at_ empty => exact alert.jump rfl rfl (by simp [at_, Unvisited]) (by simp)
  | advance at_ => exact alert.jump rfl rfl (by simp [at_, Unvisited]) (by simp)
  | @clear b at_ =>
    constructor
    · intro p waits
      by_cases same : (s.procs p).b = b
      · exact .inr ⟨same.symm, Nat.zero_le _⟩
      · left
        rcases alert.waiting p waits with held | ahead
        · simpa [Function.update_of_ne same] using held
        · simp [at_, Unvisited] at ahead
    · simp
  | @wakeSkip b q at_ self =>
    refine alert.jump rfl rfl ?_ (by simp)
    intro p waits ahead
    right
    -- the process the handler skips was interrupted outside `sleep`
    have other : p ≠ q := by
      rintro rfl
      have interrupted := base.cur p self
      cases pc : (s.procs p).pc <;>
        simp [Proc.Waits, pc, Pc.waiting, Pc.interruptible] at interrupted waits
    simp only [at_, Unvisited] at ahead ⊢
    exact ⟨ahead.1, Nat.lt_of_le_of_ne ahead.2 fun same => other (Fin.ext same.symm)⟩
  | @wakeDone b q at_ last =>
    refine alert.jump rfl rfl ?_ (by simp)
    intro p _ ahead
    simp only [at_, Unvisited] at ahead
    exact absurd (Nat.lt_of_lt_of_le p.isLt (last.trans ahead.2)) (lt_irrefl _)
  | @visitSleeper b q at_ sleeping =>
    refine alert.jump rfl rfl ?_ (by simp)
    intro p _ ahead
    simp only [at_, Unvisited] at ahead
    exact .inr ahead
  | @visitOther b q at_ awake =>
    refine alert.jump rfl rfl ?_ (by simp)
    rintro p ⟨waits, asleep⟩ ahead
    simp only [at_, Unvisited] at ahead ⊢
    obtain ⟨rfl, le⟩ := ahead
    by_cases same : p = q
    · subst same
      left
      rcases base.waiting_visited (by simp [at_, IsrPc.visiting]) waits with ⟨c, pc⟩ | ⟨c, pc⟩
      · exact alert.visited p c at_ pc
      · rcases (base.procs p).asleep c pc with found | runnable
        · exact absurd found awake
        · simp [asleep c pc] at runnable
    · exact .inr ⟨rfl, Nat.lt_of_le_of_ne le fun value => same (Fin.ext value.symm)⟩
  | @wakeAcquire b q at_ other unlocked =>
    refine alert.handle rfl ?_ ?_ ?_ ?_
    · intro p
      by_cases same : p = q
      · subst same
        simp [State.setProc]
      · simp [State.setProc, same]
    · intro p
      by_cases same : p = q
      · subst same
        simp [State.setProc, Proc.Waits]
      · simp [State.setProc, same]
    · intro p _ ahead
      simp only [at_, Unvisited] at ahead
      exact .inr ahead
    · intro p c visit pc
      obtain ⟨rfl, same⟩ := IsrPc.visit.inj visit
      obtain rfl := Fin.ext same
      exact absurd ⟨q, at_, rfl, by simp [pc, Pc.inWindow]⟩ safe
  | @mark b q at_ =>
    refine alert.handle rfl ?_ ?_ ?_ (by simp [State.setProc])
    · intro p
      by_cases same : p = q
      · subst same
        simp [State.setProc]
      · simp [State.setProc, same]
    · intro p
      by_cases same : p = q
      · subst same
        obtain ⟨⟨c, asleep⟩, _⟩ := base.marked at_
        simp [State.setProc, Proc.Waits, asleep]
      · simp [State.setProc, same]
    · intro p waits ahead
      by_cases same : p = q
      · subst same
        obtain ⟨⟨c, asleep⟩, _⟩ := base.marked at_
        simp [State.setProc, Proc.Waits, asleep] at waits
      · simp only [at_, Unvisited] at ahead
        exact .inr ⟨ahead.1, Nat.lt_of_le_of_ne ahead.2 fun value => same (Fin.ext value.symm)⟩
  | @wakeRelease b q at_ =>
    refine alert.handle rfl ?_ ?_ ?_ (by simp [State.setProc])
    · intro p
      by_cases same : p = q
      · subst same
        simp [State.setProc]
      · simp [State.setProc, same]
    · intro p
      by_cases same : p = q
      · subst same
        simp [State.setProc, Proc.Waits]
      · simp [State.setProc, same]
    · intro p _ ahead
      simp only [at_, Unvisited] at ahead
      exact .inr ahead

/-- In a run whose steps never pass a process standing in the window, a process that
sleeps on a buffer the device is done with still has the handler's visit ahead. -/
theorem sleeper_unvisited {past : List (Label n)} {s : State n}
    (run : Trace SafeStep (init n) past s) (p : Fin n) (b : ℕ)
    (sleeping : (s.procs p).state = .SLEEPING) (channel : (s.procs p).chan = some b)
    (done : s.busy b = false) : Unvisited s.isr b p := by
  have safe : Base s ∧ Alert s := by
    refine run.invariant (fun _ s => Base s ∧ Alert s) ⟨base_init n, alert_init n⟩ ?_
    rintro _ t l u ⟨base, alert⟩ step
    exact ⟨base.step step.1, alert.step base step⟩
  obtain ⟨base, alert⟩ := safe
  obtain ⟨c, pc⟩ := (base.procs p).sleeping sleeping
  have same : (s.procs p).b = b := by
    rcases pc with pc | pc
    · simpa [channel, eq_comm] using ((base.procs p).sched c pc).2
    · rcases (base.procs p).asleep c pc with ⟨_, chan⟩ | runnable
      · simpa [channel, eq_comm] using chan
      · simp [sleeping] at runnable
  have waits : (s.procs p).Waits := ⟨by rcases pc with pc | pc <;> simp [pc, Pc.waiting], fun _ _ => sleeping⟩
  rcases alert.waiting p waits with busy | ahead
  · simp [same, done] at busy
  · simpa [same] using ahead

attribute [local instance] neZero_one in
/-- Process 0 asks for block 5 and sleeps; the device completes and the handler has just
cleared `b->disk`. -/
def wakeSchedule : List (Label 1) :=
  [.start 0 5 false, .run 0, .run 0, .run 0, .run 0, .run 0, .run 0, .submit 0 5 0, .take 0,
    .run 0, .run 0, .run 0, .run 0, .run 0, .run 0, .complete 0, .irq, .isr, .isr, .isr, .clear 5]

theorem sleeper_unvisited_after_clear :
    ∃ s, Trace SafeStep (init 1) wakeSchedule s ∧ (s.procs 0).state = .SLEEPING ∧
      (s.procs 0).chan = some 5 ∧ s.busy 5 = false ∧ Unvisited s.isr 5 0 := by
  have evaluated : (replayIn (fun s t => !decide (PassesWindow s t)) wakeSchedule (init 1)).any
      (fun s => (s.procs 0).state = .SLEEPING ∧ (s.procs 0).chan = some 5 ∧ s.busy 5 = false) =
      true := by
    decide +kernel
  obtain ⟨s, ran, facts⟩ := (Option.any_eq_true _ _).mp evaluated
  obtain ⟨sleeping, channel, done⟩ := of_decide_eq_true facts
  have run : Trace SafeStep (init 1) wakeSchedule s :=
    (replayIn_trace ran).mono fun _ _ _ step => ⟨step.1, by simpa using step.2⟩
  exact ⟨s, run, sleeping, channel, done, sleeper_unvisited run 0 5 sleeping channel done⟩

attribute [local instance] neZero_one in
/-- The device completes between the test of `b->disk` and `acquire(&pc->slock)`. -/
def lostSchedule : List (Label 1) :=
  [.start 0 5 false, .run 0, .run 0, .run 0, .run 0, .run 0, .run 0, .submit 0 5 0, .take 0,
    .run 0, .complete 0, .irq, .isr, .isr, .isr, .clear 5, .isr, .isr, .isr, .isr, .consume 0,
    .isr, .run 0, .run 0, .run 0, .run 0, .run 0]

/-- The process sleeps on a buffer that is done, and no handler is running. -/
theorem sleeper_lost_after_window :
    ∃ s, Trace Step (init 1) lostSchedule s ∧ (s.procs 0).state = .SLEEPING ∧
      (s.procs 0).chan = some 5 ∧ s.busy 5 = false ∧ ¬ Unvisited s.isr 5 0 := by
  have evaluated : (replay lostSchedule (init 1)).any (fun s => (s.procs 0).state = .SLEEPING ∧
      (s.procs 0).chan = some 5 ∧ s.busy 5 = false ∧ s.isr = .idle) = true := by
    decide +kernel
  obtain ⟨s, ran, facts⟩ := (Option.any_eq_true _ _).mp evaluated
  obtain ⟨sleeping, channel, done, returned⟩ := of_decide_eq_true facts
  exact ⟨s, replay_trace ran, sleeping, channel, done, by simp [returned, Unvisited]⟩

end HaloOS.Virtio
