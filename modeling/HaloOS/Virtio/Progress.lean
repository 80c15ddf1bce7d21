import HaloOS.Virtio.Lifecycle
import HaloOS.Virtio.Wakeup
import Mathlib.Tactic.Ring

/-! Deadlock freedom. `virt_disk_rw` looks for three free descriptors in a loop that
keeps `disklock`, while descriptors come back only from requests that need the lock: a
process that enters with fewer than three of them free never leaves, and nobody else
finishes either. A run in which no process enters so, and no wakeup is lost, can always
be continued until every request is finished. -/

namespace HaloOS.Virtio

open Lib

variable {n : ℕ}

/-- The step takes `disklock` for a new request with fewer than three descriptors free. -/
def Crowds (s s' : State n) : Prop :=
  ∃ p : Fin n, (s.procs p).pc = .acquire ∧ (s'.procs p).pc = .alloc ∧ s.disk.freeSet.card < 3

instance (s s' : State n) : Decidable (Crowds s s') := by
  unfold Crowds
  infer_instance

/-- The steps that neither lose a wakeup nor enter the allocation loop in vain. -/
def GoodStep (s : State n) (l : Label n) (s' : State n) : Prop :=
  Step s l s' ∧ ¬ PassesWindow s s' ∧ ¬ Crowds s s'

/-- Whoever is in the allocation loop finds three descriptors. -/
def Enough (s : State n) : Prop :=
  ∀ p, (s.procs p).pc = .alloc → 3 ≤ s.disk.freeSet.card

/-- Only the holder of `disklock` changes the free map, on its way out of the loop or
out of the function. -/
theorem Step.free {s s' : State n} {l : Label n} (step : Step s l s') :
    s'.disk.free = s.disk.free ∨
      ∃ p, (s'.procs p).pc.locked = true ∧ (s'.procs p).pc ≠ .alloc := by
  cases step with
  | @alloc p c at_ free found =>
    exact .inr ⟨p, by simp [State.goto, State.setProc, Pc.locked]⟩
  | @freeChain p c at_ free =>
    exact .inr ⟨p, by simp [State.goto, State.setProc, Pc.locked]⟩
  | @allocRetry p at_ free failed => exact .inl (Disk.alloc3Desc_none_free failed)
  | complete taken => exact .inl (Disk.complete_free _ _)
  | _ => exact .inl rfl

/-- The step lets `x` into the allocation loop only from `acquire`, out of `virt_disk_rw`
only by its finish, and changes the buffer only between two calls. -/
structure Bounded (s s' : State n) (l : Label n) (x : Fin n) : Prop where
  alloc : (s'.procs x).pc = .alloc → (s.procs x).pc = .alloc ∨ (s.procs x).pc = .acquire
  idle : (s'.procs x).pc = .idle → (s.procs x).pc = .idle ∨ l = .finish x (s.procs x).b
  buffer : (s.procs x).pc ≠ .idle → (s'.procs x).b = (s.procs x).b

private theorem bounded_update {s s' : State n} {l : Label n} (p : Fin n) (r : Proc)
    (procs : s'.procs = Function.update s.procs p r)
    (alloc : r.pc = .alloc → (s.procs p).pc = .alloc ∨ (s.procs p).pc = .acquire)
    (idle : r.pc = .idle → (s.procs p).pc = .idle ∨ l = .finish p (s.procs p).b)
    (buffer : (s.procs p).pc ≠ .idle → r.b = (s.procs p).b) (x : Fin n) :
    Bounded s s' l x := by
  by_cases same : x = p
  · subst same
    constructor <;> simpa [procs]
  · have kept : s'.procs x = s.procs x := by rw [procs, Function.update_of_ne same]
    exact ⟨by rw [kept]; exact .inl, by rw [kept]; exact .inl, fun _ => by rw [kept]⟩

theorem Step.bounded {s s' : State n} {l : Label n} (step : Step s l s') (x : Fin n) :
    Bounded s s' l x := by
  cases step with
  | @start p b write at_ running free distinct =>
    exact bounded_update p _ rfl (by simp) (by simp) (by simp [at_]) x
  | @acquire p at_ free unlocked =>
    exact bounded_update p _ rfl (by simp [at_]) (by simp) (by simp) x
  | @release p at_ free => exact bounded_update p _ rfl (by simp) (by simp) (by simp) x
  | @alloc p c at_ free found
  | @fill p c at_ free | @setDisk p c at_ free | @setInfo p c at_ free | @setRing p c at_ free
  | @bump p c at_ free | @testBusy p c at_ free waiting | @testDone p c at_ free done
  | @sleepAcquire p c at_ free unlocked | @sleepRelease p c at_ free | @sleepChan p c at_ free
  | @sleepState p c at_ free | @sched p c at_ free | @schedule p c at_ runnable unlocked
  | @woken p c at_ free | @sleepUnlock p c at_ free | @reacquire p c at_ free unlocked
  | @clearInfo p c at_ free | @freeChain p c at_ free =>
    exact bounded_update p _ rfl (by simp) (by simp) (by simp) x
  | @wakeAcquire b p at_ other unlocked | @mark b p at_ | @wakeRelease b p at_ =>
    refine bounded_update p _ rfl ?_ ?_ (by simp) x
    · exact .inl
    · exact .inl
  | _ => exact ⟨.inl, .inl, fun _ => rfl⟩

theorem Enough.step {s s' : State n} {l : Label n} (base : Base s) (enough : Enough s)
    (step : Step s l s') (roomy : ¬ Crowds s s') : Enough s' := by
  have base' := base.step step
  intro p now
  have room : 3 ≤ s.disk.freeSet.card := by
    rcases (step.bounded p).alloc now with before | entering
    · exact enough p before
    · by_contra few
      exact roomy ⟨p, entering, now, by omega⟩
  -- whoever changes the free map holds the lock before and after the step, and so does `p`
  have kept : s'.disk.free = s.disk.free := by
    rcases step.free with same | ⟨x, locked, outside⟩
    · exact same
    · obtain rfl := base'.locked_unique (p := p) (by simp [now, Pc.locked]) locked
      exact absurd now outside
  simpa [Disk.freeSet, kept] using room

/-- An upper bound of what the handler does for one used entry. -/
def load (n : ℕ) : ℕ := 40 * n + 40

/-- How many steps of its own a process has before it, given whether `b->disk` is 1. Before
the submission it also carries the work the device and the handler will have with it. -/
def procRank (n : ℕ) (busy : Bool) (r : Proc) : ℕ :=
  match r.pc with
  | .idle => 0
  | .acquire => 3 * load n + 30
  | .alloc => 3 * load n + 29
  | .fill _ => 3 * load n + 28
  | .setDisk _ => 3 * load n + 27
  | .setInfo _ => 3 * load n + 26
  | .setRing _ => 3 * load n + 25
  | .bump _ => 3 * load n + 24
  | .asleep _ => if r.state = .RUNNABLE then (if busy then 24 else 13) else 14
  | .woken _ => if busy then 23 else 12
  | .sleepUnlock _ => if busy then 22 else 11
  | .reacquire _ => if busy then 21 else 10
  | .test _ => if busy then 20 else 9
  | .sleepAcquire _ => 19
  | .sleepRelease _ => 18
  | .sleepChan _ => 17
  | .sleepState _ => 16
  | .sched _ => 15
  | .clearInfo _ => 8
  | .freeChain _ => 7
  | .release => 6

/-- What is left of the handler's pass over the processes and of its loop. -/
def isrRank (n : ℕ) (used : List (Fin NUM)) : IsrPc → ℕ
  | .idle => if used = [] then 0 else 7
  | .test => 6
  | .readId => 5
  | .readBuf _ => 4
  | .clear _ => 3
  | .wake _ q => 40 * (n - q) + 8
  | .visit _ q => 40 * (n - q) + 7
  | .mark _ q => 40 * (n - q) + 6
  | .unlock _ q => 40 * (n - (q + 1)) + 9
  | .advance => 7
  | .panicked => 0

/-- The rank that falls until every request is finished. -/
def State.work (s : State n) (q : Queues) : ℕ :=
  load n * (3 * q.avail.length + 2 * s.disk.inflight.length + q.used.length) +
    isrRank n q.used s.isr +
    ∑ p, procRank n (s.busy (s.procs p).b) (s.procs p)

theorem procRank_busy (n : ℕ) (r : Proc) : procRank n false r ≤ procRank n true r := by
  cases pc : r.pc <;> simp [procRank, pc]
  split <;> simp

theorem procRank_unposted (n : ℕ) {r : Proc} (away : r.pc.posted = false) (b b' : Bool) :
    procRank n b r = procRank n b' r := by
  cases pc : r.pc <;> simp [pc, Pc.posted] at away <;> simp [procRank, pc]

/-- The processes' part of the rank falls with the rank of the one that moves. -/
theorem sum_rank_move {s s' : State n} (p : Fin n) (r : Proc)
    (procs : s'.procs = Function.update s.procs p r)
    (others : ∀ x, x ≠ p → (s.procs x).pc.posted = true →
      s'.busy (s.procs x).b = s.busy (s.procs x).b) :
    ∑ x, procRank n (s'.busy (s'.procs x).b) (s'.procs x) +
        procRank n (s.busy (s.procs p).b) (s.procs p) =
      ∑ x, procRank n (s.busy (s.procs x).b) (s.procs x) + procRank n (s'.busy r.b) r := by
  have same : ∀ x ∈ Finset.univ.erase p, procRank n (s'.busy (s'.procs x).b) (s'.procs x) =
      procRank n (s.busy (s.procs x).b) (s.procs x) := by
    intro x member
    have other : x ≠ p := Finset.ne_of_mem_erase member
    rw [procs, Function.update_of_ne other]
    by_cases posted : (s.procs x).pc.posted = true
    · rw [others x other posted]
    · exact procRank_unposted n (by simpa using posted) _ _
  rw [← Finset.add_sum_erase _ _ (Finset.mem_univ p), Finset.sum_congr rfl same,
    ← Finset.add_sum_erase (a := p) Finset.univ
      (fun x => procRank n (s.busy (s.procs x).b) (s.procs x)) (Finset.mem_univ p)]
  rw [procs, Function.update_self]
  omega

/-- A process step lowers the rank when the process's own rank falls. -/
theorem work_move {s s' : State n} {q : Queues} (p : Fin n) (r : Proc)
    (procs : s'.procs = Function.update s.procs p r) (isr : s'.isr = s.isr)
    (inflight : s'.disk.inflight = s.disk.inflight)
    (others : ∀ x, x ≠ p → (s.procs x).pc.posted = true →
      s'.busy (s.procs x).b = s.busy (s.procs x).b)
    (less : procRank n (s'.busy r.b) r < procRank n (s.busy (s.procs p).b) (s.procs p)) :
    s'.work q < s.work q := by
  have sums := sum_rank_move p r procs others
  simp only [State.work, isr, inflight]
  omega

/-- What the handler and the device do with the processes left alone. -/
theorem work_handle {s s' : State n} {q : Queues} (procs : s'.procs = s.procs)
    (busy : s'.busy = s.busy) (inflight : s'.disk.inflight = s.disk.inflight)
    (less : isrRank n q.used s'.isr < isrRank n q.used s.isr) : s'.work q < s.work q := by
  simp only [State.work, procs, busy, inflight]
  omega

/-- The handler holds the lock of a process that exists. -/
def Ranged (s : State n) : Prop :=
  ∀ x, s.isr.visiting = some x → x < n

theorem Ranged.step {s s' : State n} {l : Label n} (ranged : Ranged s) (step : Step s l s') :
    Ranged s' := by
  intro x visiting
  cases step with
  | @wakeAcquire b q at_ other unlocked | @visitSleeper b q at_ sleeping
  | @visitOther b q at_ awake | @mark b q at_ =>
    obtain rfl : q.val = x := by simpa [IsrPc.visiting] using visiting
    exact q.isLt
  | irq | isrTest | isrReturn | readId | readBuf | isrPanic | clear | wakeSkip | wakeRelease
  | wakeDone | advance => simp [IsrPc.visiting] at visiting
  | _ => exact ranged x visiting

/-- Everything a continuation relies on. -/
structure Ready (s : State n) (q : Queues) : Prop where
  base : Base s
  owned : Owned s
  queued : Queued s q
  alert : Alert s
  enough : Enough s
  ranged : Ranged s

/-- Some step lowers the rank. -/
def Lowers (s : State n) (q : Queues) : Prop :=
  ∃ l s', GoodStep s l s' ∧ ∀ q', Queues.Step q l q' → s'.work q' < s.work q

theorem Queues.Step.quiet_eq {q q' : Queues} {l : Label n} (step : Queues.Step q l q')
    (silent : l.quiet = true) : q' = q := by
  cases step <;> first | rfl | simp [Label.quiet] at silent

theorem goodStep_process {s s' : State n} {l : Label n} (p : Fin n) (r : Proc)
    (step : Step s l s') (procs : s'.procs = Function.update s.procs p r)
    (isr : s'.isr = s.isr) (roomy : r.pc = .alloc → (s.procs p).pc ≠ .acquire) :
    GoodStep s l s' := by
  refine ⟨step, ?_, ?_⟩
  · rintro ⟨x, before, after, _⟩
    rw [isr, before] at after
    cases after
  · rintro ⟨x, before, after, _⟩
    rw [procs] at after
    by_cases same : x = p
    · subst same
      rw [Function.update_self] at after
      exact roomy after before
    · rw [Function.update_of_ne same, before] at after
      cases after

theorem goodStep_handler {s s' : State n} {l : Label n} (step : Step s l s')
    (pc : ∀ p, (s'.procs p).pc = (s.procs p).pc) (safe : ¬ PassesWindow s s') :
    GoodStep s l s' := by
  refine ⟨step, safe, ?_⟩
  rintro ⟨x, before, after, _⟩
  rw [pc, before] at after
  cases after

/-- A step of `p` that keeps rings and `b->disk` and brings it nearer to its end. -/
theorem lowers_process {s s' : State n} {q : Queues} {l : Label n} (p : Fin n) (r : Proc)
    (step : Step s l s') (quiet : l.quiet = true)
    (procs : s'.procs = Function.update s.procs p r) (isr : s'.isr = s.isr)
    (inflight : s'.disk.inflight = s.disk.inflight) (busy : s'.busy = s.busy)
    (b : r.b = (s.procs p).b) (roomy : r.pc = .alloc → (s.procs p).pc ≠ .acquire)
    (less : procRank n (s.busy (s.procs p).b) r <
      procRank n (s.busy (s.procs p).b) (s.procs p)) : Lowers s q := by
  refine ⟨l, s', goodStep_process p r step procs isr roomy, ?_⟩
  intro q' queues
  rw [queues.quiet_eq quiet]
  exact work_move p r procs isr inflight (by simp [busy]) (by rw [busy, b]; exact less)

theorem Base.not_current {s : State n} (base : Base s) {p : Fin n}
    (inside : (s.procs p).pc.interruptible = false) : s.cur ≠ some p := by
  intro current
  have interrupted := base.cur p current
  rw [inside] at interrupted
  cases interrupted

/-- A process that holds its own `slock` can move. -/
theorem Ready.slocked {s : State n} {q : Queues} (ready : Ready s q) {p : Fin n}
    (held : (s.procs p).pc.slocked = true) : Lowers s q := by
  have free : s.cur ≠ some p := by
    apply ready.base.not_current
    cases pc : (s.procs p).pc <;> simp [pc, Pc.slocked] at held <;> rfl
  cases at_ : (s.procs p).pc <;> simp [at_, Pc.slocked] at held
  case sleepRelease c =>
    exact lowers_process p _ (.sleepRelease at_ free) rfl rfl rfl rfl rfl rfl (by simp)
      (by simp [procRank, at_])
  case sleepChan c =>
    exact lowers_process p _ (.sleepChan at_ free) rfl rfl rfl rfl rfl rfl (by simp)
      (by simp [procRank, at_])
  case sleepState c =>
    exact lowers_process p _ (.sleepState at_ free) rfl rfl rfl rfl rfl rfl (by simp)
      (by simp [procRank, at_])
  case sched c =>
    have asleep := ((ready.base.procs p).sched c at_).1
    exact lowers_process p _ (.sched at_ free) rfl rfl rfl rfl rfl rfl (by simp)
      (by simp [procRank, at_, asleep])
  case woken c =>
    exact lowers_process p _ (.woken at_ free) rfl rfl rfl rfl rfl rfl (by simp)
      (by simp [procRank, at_]; split <;> simp)
  case sleepUnlock c =>
    exact lowers_process p _ (.sleepUnlock at_ free) rfl rfl rfl rfl rfl rfl (by simp)
      (by simp [procRank, at_]; split <;> simp)

/-- The submission hands the device's and the handler's work over to the avail ring. -/
theorem work_submit {s s' : State n} {q : Queues} (p : Fin n) (r : Proc) (h : Fin NUM)
    {c : Chain} (procs : s'.procs = Function.update s.procs p r) (pc : r.pc = .test c)
    (isr : s'.isr = s.isr) (inflight : s'.disk.inflight = s.disk.inflight)
    (busy : s'.busy = s.busy) (at_ : (s.procs p).pc = .bump c) :
    s'.work { q with avail := q.avail ++ [h] } < s.work q := by
  have sums := sum_rank_move p _ procs (by simp [busy])
  have before : procRank n (s.busy (s.procs p).b) (s.procs p) = 3 * load n + 24 := by
    simp [procRank, at_]
  have after : procRank n (s'.busy r.b) r ≤ 20 := by
    simp only [procRank, pc]
    split <;> simp
  have share : load n * (3 * (q.avail.length + 1) + 2 * s.disk.inflight.length + q.used.length) =
      load n * (3 * q.avail.length + 2 * s.disk.inflight.length + q.used.length) +
        3 * load n := by
    ring
  simp only [State.work, isr, inflight, List.length_append, List.length_singleton]
  omega

/-- A process that holds `disklock` can move, unless the handler holds its `slock`. -/
theorem Ready.locked {s : State n} {q : Queues} (ready : Ready s q) {p : Fin n}
    (held : (s.procs p).pc.locked = true) (untouched : (s.procs p).slock ≠ some .isr) :
    Lowers s q := by
  have free : s.cur ≠ some p := by
    apply ready.base.not_current
    cases pc : (s.procs p).pc <;> simp [pc, Pc.locked] at held <;> rfl
  cases at_ : (s.procs p).pc <;> simp [at_, Pc.locked] at held
  case alloc =>
    have room := Disk.alloc3Desc_isSome.mpr (ready.enough p at_)
    obtain ⟨c, found⟩ := Option.isSome_iff_exists.mp room
    obtain ⟨_, _, disk⟩ := Disk.alloc3Desc_some found
    exact lowers_process p _ (.alloc at_ free found) rfl rfl rfl (by simp [disk]) rfl rfl (by simp)
      (by simp [procRank, at_])
  case fill c =>
    exact lowers_process p _ (.fill at_ free) rfl rfl rfl rfl rfl rfl (by simp)
      (by simp [procRank, at_])
  case setDisk c =>
    refine ⟨_, _, goodStep_process p _ (.setDisk at_ free) rfl rfl (by simp), ?_⟩
    intro q' queues
    rw [queues.quiet_eq rfl]
    refine work_move p _ rfl rfl rfl ?_ ?_
    · intro x other posted
      have apart : (s.procs x).b ≠ (s.procs p).b := fun same =>
        other (ready.base.buffers x p (Pc.posted_active posted) (by simp [at_]) same)
      simp [apart]
    · simp [procRank, at_]
  case setInfo c =>
    exact lowers_process p _ (.setInfo at_ free) rfl rfl rfl rfl rfl rfl (by simp)
      (by simp [procRank, at_])
  case setRing c =>
    exact lowers_process p _ (.setRing at_ free) rfl rfl rfl rfl rfl rfl (by simp)
      (by simp [procRank, at_])
  case bump c =>
    refine ⟨_, _, goodStep_process p _ (.bump at_ free) rfl rfl (by simp), ?_⟩
    intro q' queues
    cases queues with
    | submit => exact work_submit p _ _ rfl rfl rfl rfl rfl at_
    | quiet silent => simp [Label.quiet] at silent
  case test c =>
    by_cases busy : s.busy (s.procs p).b = true
    · exact lowers_process p _ (.testBusy at_ free busy) rfl rfl rfl rfl rfl rfl (by simp)
        (by simp [procRank, at_, busy])
    · exact lowers_process p _ (.testDone at_ free (by simpa using busy)) rfl rfl rfl rfl rfl rfl
        (by simp) (by simp [procRank, at_, busy])
  case sleepAcquire c =>
    have unlocked : (s.procs p).slock = none := by
      cases lock : (s.procs p).slock with
      | none => rfl
      | some holder =>
        cases holder with
        | self =>
          have own := (ready.base.procs p).slock.mp lock
          simp [at_, Pc.slocked] at own
        | isr => exact absurd lock untouched
    exact lowers_process p _ (.sleepAcquire at_ free unlocked) rfl rfl rfl rfl rfl rfl (by simp)
      (by simp [procRank, at_])
  case sleepRelease c => exact ready.slocked (p := p) (by simp [at_, Pc.slocked])
  case clearInfo c =>
    exact lowers_process p _ (.clearInfo at_ free) rfl rfl rfl rfl rfl rfl (by simp)
      (by simp [procRank, at_])
  case freeChain c =>
    have rings := Disk.freeChain_rings NUM c.head s.disk
    simp only [Disk.rings, Prod.mk.injEq] at rings
    exact lowers_process p _ (.freeChain at_ free) rfl rfl rfl rings.2.2.2.2.2.2 rfl rfl (by simp)
      (by simp [procRank, at_])
  case release =>
    exact lowers_process p _ (.release at_ free) rfl rfl rfl rfl rfl rfl (by simp)
      (by simp [procRank, at_])

/-- The steps of the handler that leave the processes and the rings alone. -/
theorem lowers_handler {s s' : State n} {q : Queues} {l : Label n} (step : Step s l s')
    (quiet : l.quiet = true) (procs : s'.procs = s.procs) (busy : s'.busy = s.busy)
    (inflight : s'.disk.inflight = s.disk.inflight) (visits : ∀ b x, s'.isr ≠ .visit b x)
    (less : isrRank n q.used s'.isr < isrRank n q.used s.isr) : Lowers s q := by
  refine ⟨l, s', goodStep_handler step (by simp [procs]) ?_, ?_⟩
  · rintro ⟨x, _, visit, _⟩
    exact visits _ _ visit
  · intro q' queues
    rw [queues.quiet_eq quiet]
    exact work_handle procs busy inflight less

/-- The steps of the handler that touch the process they visit. -/
theorem lowers_touch {s s' : State n} {q : Queues} {l : Label n} (p : Fin n) (r : Proc)
    (step : Step s l s') (quiet : l.quiet = true)
    (procs : s'.procs = Function.update s.procs p r) (busy : s'.busy = s.busy)
    (inflight : s'.disk.inflight = s.disk.inflight) (pc : r.pc = (s.procs p).pc)
    (safe : ¬ PassesWindow s s')
    (less : isrRank n q.used s'.isr + procRank n (s.busy r.b) r <
      isrRank n q.used s.isr + procRank n (s.busy (s.procs p).b) (s.procs p)) : Lowers s q := by
  refine ⟨l, s', goodStep_handler step ?_ safe, ?_⟩
  · intro x
    rw [procs]
    by_cases same : x = p
    · subst same
      rw [Function.update_self, pc]
    · rw [Function.update_of_ne same]
  · intro q' queues
    rw [queues.quiet_eq quiet]
    have sums := sum_rank_move p r procs (by simp [busy])
    simp only [busy] at sums
    simp only [State.work, busy, inflight]
    omega

theorem work_clear {s : State n} {q : Queues} {h : Fin NUM} {rest : List (Fin NUM)} {b : ℕ}
    (at_ : s.isr = .clear b) (oldest : q.used = h :: rest) :
    ({ s with busy := Function.update s.busy b false, isr := .wake b 0 } : State n).work
      { q with late := [h], used := rest } < s.work q := by
  have sums : ∑ p, procRank n (Function.update s.busy b false (s.procs p).b) (s.procs p) ≤
      ∑ p, procRank n (s.busy (s.procs p).b) (s.procs p) := by
    refine Finset.sum_le_sum ?_
    intro p _
    by_cases same : (s.procs p).b = b
    · cases busy : s.busy (s.procs p).b
      · simp [same]
      · simpa [same] using procRank_busy n (s.procs p)
    · rw [Function.update_of_ne same]
  have share : load n * (3 * q.avail.length + 2 * s.disk.inflight.length + (rest.length + 1)) =
      load n * (3 * q.avail.length + 2 * s.disk.inflight.length + rest.length) + load n := by
    ring
  simp only [State.work, at_, oldest, isrRank, List.length_cons, Nat.sub_zero]
  unfold load at *
  omega

/-- The handler can go on, unless a process has to move first. -/
theorem Ready.handler {s : State n} {q : Queues} (ready : Ready s q) (active : s.isr ≠ .idle)
    (unlocked : ∀ p, (s.procs p).pc.slocked = false) : Lowers s q := by
  have ok := ready.queued.handler
  cases at_ : s.isr with
  | idle => exact absurd at_ active
  | test =>
    by_cases none_ : s.disk.usedIdx = s.disk.idx
    · have empty := (ready.queued.used_nil_iff ready.owned at_).mp none_
      exact lowers_handler (.isrReturn at_ none_) rfl rfl rfl rfl (by simp)
        (by simp [isrRank, at_, empty])
    · exact lowers_handler (.isrTest at_ none_) rfl rfl rfl rfl (by simp) (by simp [isrRank, at_])
  | readId => exact lowers_handler (.readId at_) rfl rfl rfl rfl (by simp) (by simp [isrRank, at_])
  | readBuf id =>
    obtain ⟨p, _, _, known⟩ := ready.queued.oldest_known ready.owned at_
    exact lowers_handler (.readBuf at_ known) rfl rfl rfl rfl (by simp) (by simp [isrRank, at_])
  | clear b =>
    refine ⟨_, _, goodStep_handler (.clear at_) (fun _ => rfl) ?_, ?_⟩
    · rintro ⟨x, _, visit, _⟩
      cases visit
    · intro q' queues
      cases queues with
      | clear _ passed oldest => exact work_clear at_ oldest
      | quiet silent => simp [Label.quiet] at silent
  | wake b x =>
    by_cases last : n ≤ x
    · exact lowers_handler (.wakeDone at_ last) rfl rfl rfl rfl (by simp) (by simp [isrRank, at_])
    · obtain ⟨p, rfl⟩ : ∃ p : Fin n, p.val = x := ⟨⟨x, by omega⟩, rfl⟩
      by_cases self : s.cur = some p
      · exact lowers_handler (.wakeSkip at_ self) rfl rfl rfl rfl (by simp)
          (by simp only [isrRank, at_]; omega)
      · have away : (s.procs p).slock ≠ some .isr := by
          intro held
          have visiting := (ready.base.slockIsr p).mp held
          simp [at_, IsrPc.visiting] at visiting
        by_cases window : (s.procs p).pc.inWindow = true
        -- let the process leave the window before the visit
        · refine ready.locked (p := p) ?_ away
          cases pc : (s.procs p).pc <;> simp [pc, Pc.inWindow] at window
          rfl
        · have open_ : (s.procs p).slock = none := by
            cases lock : (s.procs p).slock with
            | none => rfl
            | some holder =>
              cases holder with
              | self =>
                have own := (ready.base.procs p).slock.mp lock
                simp [unlocked p] at own
              | isr => exact absurd lock away
          refine lowers_touch p _ (.wakeAcquire at_ self open_) rfl rfl rfl rfl rfl ?_ ?_
          · rintro ⟨y, before, _, inside⟩
            rw [at_] at before
            obtain rfl : p = y := Fin.ext (IsrPc.wake.inj before).2
            exact window inside
          · simp [isrRank, at_, procRank, State.setProc]
  | visit b x =>
    obtain ⟨p, rfl⟩ : ∃ p : Fin n, p.val = x :=
      ⟨⟨x, ready.ranged x (by simp [at_, IsrPc.visiting])⟩, rfl⟩
    by_cases sleeping : (s.procs p).state = .SLEEPING ∧ (s.procs p).chan = some b
    · exact lowers_handler (.visitSleeper at_ sleeping) rfl rfl rfl rfl (by simp)
        (by simp [isrRank, at_])
    · exact lowers_handler (.visitOther at_ sleeping) rfl rfl rfl rfl (by simp)
        (by have inside := p.isLt; simp only [isrRank, at_]; omega)
  | mark b x =>
    obtain ⟨p, rfl⟩ : ∃ p : Fin n, p.val = x :=
      ⟨⟨x, ready.ranged x (by simp [at_, IsrPc.visiting])⟩, rfl⟩
    refine lowers_touch p _ (.mark at_) rfl rfl rfl rfl rfl ?_ ?_
    · rintro ⟨y, before, _, _⟩
      rw [at_] at before
      cases before
    · obtain ⟨⟨c, asleep⟩, _⟩ := ready.base.marked at_
      have sleeping := ready.base.mark b p at_
      have inside := p.isLt
      have after : procRank n (s.busy (s.procs p).b)
          { s.procs p with state := .RUNNABLE } ≤ 24 := by
        cases s.busy (s.procs p).b <;> simp [procRank, asleep]
      have before : procRank n (s.busy (s.procs p).b) (s.procs p) = 14 := by
        simp [procRank, asleep, sleeping]
      simp only [State.setProc_isr, isrRank, at_, before]
      refine lt_of_le_of_lt (Nat.add_le_add_left after _) ?_
      omega
  | unlock b x =>
    obtain ⟨p, rfl⟩ : ∃ p : Fin n, p.val = x :=
      ⟨⟨x, ready.ranged x (by simp [at_, IsrPc.visiting])⟩, rfl⟩
    refine lowers_touch p _ (.wakeRelease at_) rfl rfl rfl rfl rfl ?_ ?_
    · rintro ⟨y, before, _, _⟩
      rw [at_] at before
      cases before
    · simp [isrRank, at_, procRank, State.setProc]
  | advance =>
    refine ⟨_, _, goodStep_handler (.advance at_) (fun _ => rfl) ?_, ?_⟩
    · rintro ⟨x, _, visit, _⟩
      cases visit
    · intro q' queues
      have same : q'.avail = q.avail ∧ q'.used = q.used := by
        cases queues <;> exact ⟨rfl, rfl⟩
      simp only [State.work, at_, isrRank, same]
      omega
  | panicked => simp [HandlerOk, at_] at ok

/-- With the handler idle, whatever lies in the rings or with the device can move. -/
theorem Ready.pending {s : State n} {q : Queues} (ready : Ready s q) (idle : s.isr = .idle)
    (some_ : q.avail ++ s.disk.inflight ++ q.used ≠ []) : Lowers s q := by
  have stays : ∀ s' : State n, s'.isr = .idle → ¬ PassesWindow s s' := by
    rintro s' still ⟨x, _, visit, _⟩
    rw [still] at visit
    cases visit
  by_cases used : q.used = []
  · by_cases inflight : s.disk.inflight = []
    · have avail : q.avail ≠ [] := by simpa [used, inflight] using some_
      have published : s.disk.devIdx ≠ s.disk.index := by
        intro same
        have small := ready.queued.small ready.owned
        refine avail ((ready.queued.avail.eq_iff ?_).mp same)
        simp only [WRAP]
        omega
      refine ⟨_, _, goodStep_handler (.take published) (fun _ => rfl) (stays _ idle), ?_⟩
      intro q' queues
      cases queues with
      | @take _ rest oldest =>
        have share : load n * (3 * (rest.length + 1) + 2 * s.disk.inflight.length +
            q.used.length) = load n * (3 * rest.length + 2 * (s.disk.inflight.length + 1) +
              q.used.length) + load n := by
          ring
        simp only [State.work, oldest, Disk.take, List.length_append, List.length_cons,
          List.length_nil, Nat.zero_add]
        unfold load at *
        omega
      | quiet silent => simp [Label.quiet] at silent
    · obtain ⟨h, rest, split⟩ := List.exists_cons_of_ne_nil inflight
      have taken : h ∈ s.disk.inflight := by simp [split]
      refine ⟨_, _, goodStep_handler (.complete taken) (fun _ => rfl) (stays _ idle), ?_⟩
      have rings := s.disk.complete_rings h
      simp only [Disk.rings, Prod.mk.injEq] at rings
      have fewer : (s.disk.complete h).inflight.length + 1 = s.disk.inflight.length := by
        rw [rings.2.2.2.2.2.2, List.length_erase_of_mem taken, split]
        simp
      intro q' queues
      cases queues with
      | complete =>
        have share : load n * (3 * q.avail.length + 2 * ((s.disk.complete h).inflight.length + 1) +
            0) = load n * (3 * q.avail.length + 2 * (s.disk.complete h).inflight.length + 1) +
              load n := by
          ring
        rw [fewer] at share
        simp only [State.work, idle, isrRank, used, List.nil_append, List.length_nil,
          List.length_singleton, List.cons_ne_nil, if_true, if_false]
        unfold load at *
        omega
      | quiet silent => simp [Label.quiet] at silent
  · have step : Step s .irq { s with isr := .test, cur := none } := .irq idle (by simp)
    exact lowers_handler step rfl rfl rfl rfl (by simp) (by simp [isrRank, idle, used])

/-- With nothing pending and the handler idle, a process outside the lock can move or has
finished. -/
theorem Ready.outside {s : State n} {q : Queues} (ready : Ready s q) (idle : s.isr = .idle)
    (empty : q.avail ++ s.disk.inflight ++ q.used = [])
    (unlocked : ∀ p, (s.procs p).pc.locked = false)
    (open_ : ∀ p, (s.procs p).slock = none)
    {p : Fin n} (unfinished : (s.procs p).pc ≠ .idle) : Lowers s q := by
  have cur : s.cur = none := ready.base.idle idle
  have lock : s.disklock = none := by
    cases holder : s.disklock with
    | none => rfl
    | some x =>
      have locked := (ready.base.disklock x).mp holder
      simp [unlocked x] at locked
  have done : ∀ x c, (s.procs x).pc.posted = true → (s.procs x).pc.chain = some c →
      s.busy (s.procs x).b = false := by
    intro x c posted has
    by_contra busy
    have pending : s.pendingHead x = some c.head := by
      simp [State.pendingHead, posted, has, busy]
    have member := (ready.queued.pending c.head).mpr ⟨x, pending⟩
    simp [empty] at member
  by_cases asleep : ∃ x c, (s.procs x).pc = .asleep c ∨ (s.procs x).pc = .reacquire c
  · obtain ⟨x, c, at_ | at_⟩ := asleep
    · have runnable : (s.procs x).state = .RUNNABLE := by
        rcases (ready.base.procs x).asleep c at_ with ⟨sleeping, _⟩ | runnable
        · have waits : (s.procs x).Waits := ⟨by simp [at_, Pc.waiting], fun _ _ => sleeping⟩
          have clear := done x c (by simp [at_, Pc.posted]) (by simp [at_, Pc.chain])
          rcases ready.alert.waiting x waits with busy | ahead
          · simp [clear] at busy
          · simp [idle, Unvisited] at ahead
        · exact runnable
      exact lowers_process x _ (.schedule at_ runnable (open_ x)) rfl rfl rfl rfl rfl rfl (by simp)
        (by simp [procRank, at_, runnable]; split <;> simp)
    · exact lowers_process x _ (.reacquire at_ (by simp [cur]) lock) rfl rfl rfl rfl rfl rfl
        (by simp) (by simp [procRank, at_]; split <;> simp)
  · -- everybody is at the door, so all descriptors are free
    have away : ∀ x, (s.procs x).pc = .idle ∨ (s.procs x).pc = .acquire := by
      intro x
      have outside := unlocked x
      have own := (ready.base.procs x).slock
      rw [open_ x] at own
      push Not at asleep
      have elsewhere := asleep x
      cases pc : (s.procs x).pc <;>
        simp [pc, Pc.locked, Pc.slocked] at outside own elsewhere ⊢
    have free : s.disk.freeSet = Finset.univ := by
      ext i
      simp only [Disk.freeSet, Finset.mem_filter, Finset.mem_univ, true_and, iff_true]
      by_contra used
      obtain ⟨x, c, has, _⟩ := (ready.owned.taken i).mp (by simpa using used)
      rcases away x with at_ | at_ <;> simp [at_, Pc.chain] at has
    have at_ : (s.procs p).pc = .acquire := (away p).resolve_left unfinished
    refine ⟨_, _, ⟨.acquire at_ (by simp [cur]) lock, ?_, ?_⟩, ?_⟩
    · rintro ⟨x, before, _, _⟩
      rw [idle] at before
      cases before
    · rintro ⟨x, _, _, few⟩
      rw [free, Finset.card_univ, Fintype.card_fin] at few
      simp [NUM] at few
    · intro q' queues
      rw [queues.quiet_eq rfl]
      exact work_move p _ rfl rfl rfl (fun _ _ _ => rfl) (by simp [procRank, at_])

/-- As long as a request is unfinished some step lowers the rank. -/
theorem Ready.lowers {s : State n} {q : Queues} (ready : Ready s q)
    (unfinished : ¬ ∀ p, (s.procs p).pc = .idle) : Lowers s q := by
  push Not at unfinished
  obtain ⟨p, unfinished⟩ := unfinished
  by_cases slocked : ∃ x, (s.procs x).pc.slocked = true
  · obtain ⟨x, held⟩ := slocked
    exact ready.slocked held
  push Not at slocked
  have unlocked : ∀ x, (s.procs x).pc.slocked = false := fun x => by simpa using slocked x
  by_cases active : s.isr = .idle
  case neg => exact ready.handler active unlocked
  have open_ : ∀ x, (s.procs x).slock = none := by
    intro x
    cases lock : (s.procs x).slock with
    | none => rfl
    | some holder =>
      cases holder with
      | self =>
        have own := (ready.base.procs x).slock.mp lock
        simp [unlocked x] at own
      | isr =>
        have visiting := (ready.base.slockIsr x).mp lock
        simp [active, IsrPc.visiting] at visiting
  by_cases pending : q.avail ++ s.disk.inflight ++ q.used = []
  case neg => exact ready.pending active pending
  by_cases locked : ∃ x, (s.procs x).pc.locked = true
  · obtain ⟨x, held⟩ := locked
    exact ready.locked held (by simp [open_ x])
  · push Not at locked
    exact ready.outside active pending (fun x => by simpa using locked x) open_ unfinished

theorem Ready.step {s s' : State n} {q : Queues} {l : Label n} (ready : Ready s q)
    (step : GoodStep s l s') : ∃ q', Queues.Step q l q' ∧ Ready s' q' := by
  obtain ⟨taken, safe, roomy⟩ := step
  obtain ⟨q', queues, queued⟩ := ready.queued.step ready.base ready.owned taken
  exact ⟨q', queues, ready.base.step taken, ready.owned.step taken, queued,
    ready.alert.step ready.base ⟨taken, safe⟩, ready.enough.step ready.base taken roomy,
    ready.ranged.step taken⟩

theorem Ready.lowering {s : State n} {q : Queues} (ready : Ready s q)
    (unfinished : ¬ ∀ p, (s.procs p).pc = .idle) :
    ∃ l s' q', GoodStep s l s' ∧ Ready s' q' ∧ s'.work q' < s.work q := by
  obtain ⟨l, s', step, less⟩ := ready.lowers unfinished
  obtain ⟨q', queues, ready'⟩ := ready.step step
  exact ⟨l, s', q', step, ready', less q' queues⟩

theorem ready_run {past : List (Label n)} {s : State n} (run : Trace GoodStep (init n) past s) :
    ∃ q, Ready s q := by
  refine run.invariant (fun _ s => ∃ q, Ready s q) ?_ ?_
  · exact ⟨{}, base_init n, owned_init n, queued_init n, alert_init n, by simp [Enough, init],
      by simp [Ranged, init, IsrPc.visiting]⟩
  · rintro _ s l s' ⟨q, ready⟩ step
    obtain ⟨q', _, ready'⟩ := ready.step step
    exact ⟨q', ready'⟩

/-- A process that ends up outside `virt_disk_rw` has finished its request on the way. -/
theorem finish_of_idle {s s' : State n} {later : List (Label n)} (run : Trace Step s later s')
    {p : Fin n} (unfinished : (s.procs p).pc ≠ .idle) :
    Label.finish p (s.procs p).b ∈ later ∨
      ((s'.procs p).pc ≠ .idle ∧ (s'.procs p).b = (s.procs p).b) := by
  induction run with
  | nil => exact .inr ⟨unfinished, rfl⟩
  | @snoc t u past l earlier last ih =>
    rcases ih with member | ⟨inside, same⟩
    · exact .inl (List.mem_append_left _ member)
    · have bounded := last.bounded p
      by_cases idle : (u.procs p).pc = .idle
      · have finish := (bounded.idle idle).resolve_left inside
        exact .inl (by rw [finish, same]; simp)
      · exact .inr ⟨idle, by rw [bounded.buffer inside, same]⟩

/-- In a run whose steps all keep clear of the crowded pool and of the window, nobody spins
in the allocation loop with fewer than three descriptors free, and every unfinished
request is finished by some continuation. -/
theorem finishes_of_goodRun {past : List (Label n)} {s : State n}
    (run : Trace GoodStep (init n) past s) :
    (∀ p, (s.procs p).pc = .alloc → 3 ≤ s.disk.freeSet.card) ∧
      ∀ p, (s.procs p).pc ≠ .idle →
        ∃ later s', Trace Step s later s' ∧ Label.finish p (s.procs p).b ∈ later := by
  obtain ⟨q, ready⟩ := ready_run run
  refine ⟨ready.enough, ?_⟩
  intro p unfinished
  obtain ⟨later, s', run', idle⟩ := exists_trace_of_rank Ready State.work
    (fun s => ∀ p, (s.procs p).pc = .idle) (fun _ _ => Ready.lowering) ready
  have continued : Trace Step s later s' := run'.mono fun _ _ _ step => step.1
  rcases finish_of_idle continued unfinished with member | ⟨inside, _⟩
  · exact ⟨later, s', continued, member⟩
  · exact absurd (idle p) inside

attribute [local instance] neZero_two in
/-- Two requests at once, one of them asleep and the other about to test. -/
def pairSchedule : List (Label 2) :=
  [.start 0 5 false, .run 0, .run 0, .run 0, .run 0, .run 0, .run 0, .submit 0 5 0,
    .run 0, .run 0, .run 0, .run 0, .run 0, .run 0,
    .start 1 6 true, .run 1, .run 1, .run 1, .run 1, .run 1, .run 1, .submit 1 6 3]

theorem finishes_of_pair :
    ∃ s, Trace GoodStep (init 2) pairSchedule s ∧ (s.procs 0).pc ≠ .idle ∧
      ∃ later s', Trace Step s later s' ∧ Label.finish 0 (s.procs 0).b ∈ later := by
  have evaluated : (replayIn (fun s t => !decide (PassesWindow s t) && !decide (Crowds s t))
      pairSchedule (init 2)).any (fun s => (s.procs 0).pc ≠ .idle) = true := by
    decide +kernel
  obtain ⟨s, ran, facts⟩ := (Option.any_eq_true _ _).mp evaluated
  have unfinished := of_decide_eq_true facts
  have run : Trace GoodStep (init 2) pairSchedule s :=
    (replayIn_trace ran).mono fun _ _ _ step => ⟨step.1, by simpa using step.2⟩
  exact ⟨s, run, unfinished, (finishes_of_goodRun run).2 0 unfinished⟩

/-- `p` is in the allocation loop and will not find three descriptors. -/
structure Stuck (s : State n) (p : Fin n) : Prop where
  base : Base s
  at_ : (s.procs p).pc = .alloc
  few : s.disk.freeSet.card < 3

/-- A process leaves the allocation loop only with three descriptors. -/
theorem Step.alloc_stays {s s' : State n} {l : Label n} (step : Step s l s') {p : Fin n}
    (looping : (s.procs p).pc = .alloc) (few : s.disk.freeSet.card < 3) :
    (s'.procs p).pc = .alloc := by
  cases step with
  | @alloc x c at_ free found =>
    have enough : 3 ≤ s.disk.freeSet.card := Disk.alloc3Desc_isSome.mp (by simp [found])
    omega
  | @start x b write at_ running free distinct | @acquire x at_ free unlocked
  | @fill x c at_ free | @setDisk x c at_ free | @setInfo x c at_ free | @setRing x c at_ free
  | @bump x c at_ free | @testBusy x c at_ free waiting | @testDone x c at_ free done
  | @sleepAcquire x c at_ free unlocked | @sleepRelease x c at_ free | @sleepChan x c at_ free
  | @sleepState x c at_ free | @sched x c at_ free | @schedule x c at_ runnable unlocked
  | @woken x c at_ free | @sleepUnlock x c at_ free | @reacquire x c at_ free unlocked
  | @clearInfo x c at_ free | @freeChain x c at_ free | @release x at_ free =>
    have other : p ≠ x := by
      rintro rfl
      simp [looping] at at_
    simpa [State.goto, State.setProc, other] using looping
  | @wakeAcquire b x at_ other unlocked | @mark b x at_ | @wakeRelease b x at_ =>
    by_cases same : p = x
    · subst same
      simpa [State.setProc] using looping
    · simpa [State.setProc, same] using looping
  | _ => exact looping

/-- Nothing anybody does helps: the lock stays with `p`. -/
theorem Stuck.step {s s' : State n} {l : Label n} {p : Fin n} (stuck : Stuck s p)
    (step : Step s l s') : Stuck s' p := by
  have base' := stuck.base.step step
  have stays := step.alloc_stays stuck.at_ stuck.few
  refine ⟨base', stays, ?_⟩
  rcases step.free with same | ⟨x, locked, outside⟩
  · simpa [Disk.freeSet, same] using stuck.few
  · obtain rfl := base'.locked_unique (p := p) (by simp [stays, Pc.locked]) locked
    exact absurd stays outside

theorem Stuck.no_finish {s s' : State n} {p : Fin n} {b : ℕ} (stuck : Stuck s p)
    (step : Step s (.finish p b) s') : False := by
  generalize label : Label.finish p b = l at step
  cases step with
  | @release x at_ free =>
    obtain rfl := (Label.finish.inj label).1
    simp [stuck.at_] at at_
  | _ => cases label

/-- Two requests hold six descriptors; the third takes the lock. -/
def crowdSchedule : List (Label 3) :=
  [.start 0 5 false, .run 0, .run 0, .run 0, .run 0, .run 0, .run 0, .submit 0 5 0,
    .run 0, .run 0, .run 0,
    .start 1 6 false, .run 1, .run 1, .run 1, .run 1, .run 1, .run 1, .submit 1 6 3,
    .run 1, .run 1, .run 1,
    .start 2 7 false, .run 2]

/-- The third request loops in `virt_disk_rw` with `disklock` held and fewer than three
descriptors free, and every continuation leaves it there. -/
theorem third_request_spins :
    ∃ s, Trace Step (init 3) crowdSchedule s ∧ (s.procs 2).pc = .alloc ∧
      s.disklock = some 2 ∧ s.disk.freeSet.card < 3 ∧
      ∀ later s', Trace Step s later s' →
        (∀ b, Label.finish 2 b ∉ later) ∧ s'.disklock = some 2 := by
  have evaluated : (replay crowdSchedule (init 3)).any
      (fun s => (s.procs 2).pc = .alloc ∧ s.disk.freeSet.card < 3) = true := by
    decide +kernel
  obtain ⟨s, ran, facts⟩ := (Option.any_eq_true _ _).mp evaluated
  obtain ⟨at_, few⟩ := of_decide_eq_true facts
  have run := replay_trace ran
  have base : Base s := run.invariant (fun _ s => Base s) (base_init 3)
    fun _ _ _ _ base step => base.step step
  have stuck : Stuck s 2 := ⟨base, at_, few⟩
  refine ⟨s, run, at_, (base.disklock 2).mpr (by simp [at_, Pc.locked]), few, ?_⟩
  intro later s' run'
  have still : Stuck s' 2 ∧ ∀ b, Label.finish 2 b ∉ later := by
    refine run'.invariant (fun later s => Stuck s 2 ∧ ∀ b, Label.finish 2 b ∉ later)
      ⟨stuck, by simp⟩ ?_
    rintro past t l u ⟨stuck, silent⟩ step
    refine ⟨stuck.step step, ?_⟩
    intro b member
    rcases List.mem_append.mp member with earlier | now
    · exact silent b earlier
    · obtain rfl := List.mem_singleton.mp now
      exact stuck.no_finish step
  exact ⟨still.2, (still.1.base.disklock 2).mpr (by simp [still.1.at_, Pc.locked])⟩

end HaloOS.Virtio
