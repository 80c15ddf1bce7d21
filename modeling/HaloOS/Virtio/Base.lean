import HaloOS.Virtio.Model

/-! Facts about locks, sleeping and the interrupted process that hold in every
state, whatever the device does: who holds `disklock`, who holds each `slock`, and
what a sleeping process has recorded. -/

namespace HaloOS.Virtio

open Lib

/-- The program points at which a process holds `disk.disklock`. -/
def Pc.locked : Pc → Bool
  | .alloc | .fill _ | .setDisk _ | .setInfo _ | .setRing _ | .bump _ | .test _
  | .sleepAcquire _ | .sleepRelease _ | .clearInfo _ | .freeChain _ | .release => true
  | _ => false

/-- The program points at which a process holds its own `slock`. -/
def Pc.slocked : Pc → Bool
  | .sleepRelease _ | .sleepChan _ | .sleepState _ | .sched _ | .woken _
  | .sleepUnlock _ => true
  | _ => false

/-- The process whose `slock` the handler holds. -/
def IsrPc.visiting : IsrPc → Option ℕ
  | .visit _ q | .mark _ q | .unlock _ q => some q
  | _ => none

/-- What a single process's record satisfies at each of its program points. -/
structure Proc.Ok (r : Proc) : Prop where
  slock : r.slock = some .self ↔ r.pc.slocked = true
  sleepState : ∀ c, r.pc = .sleepState c → r.chan = some r.b
  sched : ∀ c, r.pc = .sched c → r.state = .SLEEPING ∧ r.chan = some r.b
  asleep : ∀ c, r.pc = .asleep c →
    (r.state = .SLEEPING ∧ r.chan = some r.b) ∨ r.state = .RUNNABLE
  sleeping : r.state = .SLEEPING → ∃ c, r.pc = .sched c ∨ r.pc = .asleep c

/-- The program points in or next to the sleeping state, where the record says more. -/
def Pc.special : Pc → Bool
  | .sleepState _ | .sched _ | .asleep _ => true
  | _ => false

/-- A move between ordinary program points keeps the record well formed. -/
theorem Proc.Ok.goto {r : Proc} (ok : r.Ok) {pc : Pc} (slocked : pc.slocked = r.pc.slocked)
    (leaving : r.pc.special = false) (entering : pc.special = false) :
    Proc.Ok { r with pc } where
  slock := by simpa [slocked] using ok.slock
  sleepState := by rintro c rfl; simp [Pc.special] at entering
  sched := by rintro c rfl; simp [Pc.special] at entering
  asleep := by rintro c rfl; simp [Pc.special] at entering
  sleeping := by
    intro sleeping
    obtain ⟨c, at_ | at_⟩ := ok.sleeping sleeping <;> simp [at_, Pc.special] at leaving

theorem Proc.Ok.awake {r : Proc} (ok : r.Ok) (ordinary : r.pc.special = false) :
    r.state ≠ .SLEEPING := by
  intro sleeping
  obtain ⟨c, at_ | at_⟩ := ok.sleeping sleeping <;> simp [at_, Pc.special] at ordinary

variable {n : ℕ}

/-- What holds in every reachable state of the system, whatever the device does. -/
structure Base (s : State n) : Prop where
  buffers : ∀ p q, (s.procs p).pc ≠ .idle → (s.procs q).pc ≠ .idle →
    (s.procs p).b = (s.procs q).b → p = q
  disklock : ∀ p, s.disklock = some p ↔ (s.procs p).pc.locked = true
  procs : ∀ p, (s.procs p).Ok
  slockIsr : ∀ p, (s.procs p).slock = some .isr ↔ s.isr.visiting = some p.val
  mark : ∀ b (p : Fin n), s.isr = .mark b p → (s.procs p).state = .SLEEPING
  cur : ∀ p, s.cur = some p → (s.procs p).pc.interruptible = true
  idle : s.isr = .idle → s.cur = none

theorem base_init (n : ℕ) : Base (init n) where
  buffers := by simp [init]
  disklock := by simp [init, Pc.locked]
  procs := by
    intro p
    constructor <;> simp [init, Pc.slocked]
  slockIsr := by simp [init, IsrPc.visiting]
  mark := by simp [init]
  cur := by simp [init]
  idle := by simp [init]

/-- A process the handler is about to mark is asleep, with its lock held by the handler. -/
theorem Base.marked {s : State n} (base : Base s) {b : ℕ} {p : Fin n}
    (at_ : s.isr = .mark b p) :
    (∃ c, (s.procs p).pc = .asleep c) ∧ (s.procs p).slock = some .isr := by
  have locked := (base.slockIsr p).mpr (by simp [at_, IsrPc.visiting])
  obtain ⟨c, sched | asleep⟩ := (base.procs p).sleeping (base.mark b p at_)
  · have self := (base.procs p).slock.mpr (by simp [sched, Pc.slocked])
    simp [locked] at self
  · exact ⟨⟨c, asleep⟩, locked⟩

/-- The frame of every process step: only `p`'s record and `disklock` change among
what `Base` looks at. -/
theorem Base.move {s s' : State n} (base : Base s) (p : Fin n) (r : Proc)
    (procs : s'.procs = Function.update s.procs p r)
    (isr : s'.isr = s.isr) (cur : s'.cur = s.cur)
    (ok : r.Ok)
    (buffer : r.pc ≠ .idle → ((s.procs p).pc ≠ .idle ∧ r.b = (s.procs p).b) ∨
      ∀ q, (s.procs q).pc ≠ .idle → (s.procs q).b ≠ r.b)
    (own : s'.disklock = some p ↔ r.pc.locked = true)
    (others : ∀ q, q ≠ p → (s'.disklock = some q ↔ s.disklock = some q))
    (slock : r.slock = some .isr ↔ (s.procs p).slock = some .isr)
    (unmarked : (∃ c, (s.procs p).pc = .asleep c) → (s.procs p).slock = none)
    (free : s.cur ≠ some p) : Base s' where
  buffers := by
    have fresh : ∀ q, q ≠ p → r.pc ≠ .idle → (s.procs q).pc ≠ .idle → r.b ≠ (s.procs q).b := by
      intro q other active busy same
      rcases buffer active with ⟨active', kept⟩ | distinct
      · exact other (base.buffers q p busy active' (same.symm.trans kept))
      · exact distinct q busy same.symm
    intro q q'
    rw [procs]
    by_cases left : q = p <;> by_cases right : q' = p
    · intro _ _ _
      rw [left, right]
    · subst left
      simp only [Function.update_self, Function.update_of_ne right]
      intro active busy same
      exact absurd same (fresh q' right active busy)
    · subst right
      simp only [Function.update_self, Function.update_of_ne left]
      intro busy active same
      exact absurd same.symm (fresh q left active busy)
    · simp only [Function.update_of_ne left, Function.update_of_ne right]
      exact base.buffers q q'
  disklock := by
    intro q
    rw [procs]
    by_cases same : q = p
    · subst same
      simpa using own
    · rw [Function.update_of_ne same, others q same]
      exact base.disklock q
  procs := by
    intro q
    rw [procs]
    by_cases same : q = p
    · subst same
      simpa using ok
    · rw [Function.update_of_ne same]
      exact base.procs q
  slockIsr := by
    intro q
    rw [procs, isr]
    by_cases same : q = p
    · subst same
      rw [Function.update_self, slock]
      exact base.slockIsr q
    · rw [Function.update_of_ne same]
      exact base.slockIsr q
  mark := by
    intro b q at_
    rw [isr] at at_
    rw [procs]
    by_cases same : q = p
    · subst same
      obtain ⟨asleep, locked⟩ := base.marked at_
      rw [unmarked asleep] at locked
      cases locked
    · rw [Function.update_of_ne same]
      exact base.mark b q at_
  cur := by
    intro q at_
    rw [cur] at at_
    have other : q ≠ p := by rintro rfl; exact free at_
    rw [procs, Function.update_of_ne other]
    exact base.cur q at_
  idle := by
    rw [isr, cur]
    exact base.idle

/-- The frame of every step of the handler and the device: program points, buffers and
`disklock` stay. -/
theorem Base.handle {s s' : State n} (base : Base s)
    (pc : ∀ p, (s'.procs p).pc = (s.procs p).pc ∧ (s'.procs p).b = (s.procs p).b)
    (disklock : s'.disklock = s.disklock)
    (procs : ∀ p, (s'.procs p).Ok)
    (slockIsr : ∀ p, (s'.procs p).slock = some .isr ↔ s'.isr.visiting = some p.val)
    (mark : ∀ b (p : Fin n), s'.isr = .mark b p → (s'.procs p).state = .SLEEPING)
    (cur : ∀ p, s'.cur = some p → (s.procs p).pc.interruptible = true)
    (idle : s'.isr = .idle → s'.cur = none) : Base s' where
  buffers := by
    intro p q
    rw [(pc p).1, (pc p).2, (pc q).1, (pc q).2]
    exact base.buffers p q
  disklock := by
    intro p
    rw [disklock, (pc p).1]
    exact base.disklock p
  procs := procs
  slockIsr := slockIsr
  mark := mark
  cur := by
    intro p at_
    rw [(pc p).1]
    exact cur p at_
  idle := idle

/-- A step of `p` to an ordinary program point that keeps its locks. -/
theorem Base.keep {s s' : State n} (base : Base s) {p : Fin n} {pc : Pc}
    (free : s.cur ≠ some p)
    (procs : s'.procs = (s.goto p pc).procs) (isr : s'.isr = s.isr) (cur : s'.cur = s.cur)
    (disklock : s'.disklock = s.disklock) (locked : pc.locked = (s.procs p).pc.locked)
    (slocked : pc.slocked = (s.procs p).pc.slocked)
    (leaving : (s.procs p).pc.special = false) (entering : pc.special = false)
    (active : (s.procs p).pc ≠ .idle) : Base s' := by
  refine base.move p _ procs isr cur ((base.procs p).goto slocked leaving entering)
    (fun _ => .inl ⟨active, rfl⟩) ?_ (fun _ _ => by rw [disklock]) Iff.rfl ?_ free
  · rw [disklock, base.disklock p, locked]
  · rintro ⟨c, asleep⟩
    simp [asleep, Pc.special] at leaving

/-- A step of the handler that only moves on. -/
theorem Base.jump {s s' : State n} (base : Base s) (procs : s'.procs = s.procs)
    (disklock : s'.disklock = s.disklock) (visiting : s'.isr.visiting = s.isr.visiting)
    (mark : ∀ b (p : Fin n), s'.isr = .mark b p → (s.procs p).state = .SLEEPING)
    (active : s'.isr ≠ .idle) (cur : s'.cur = s.cur) : Base s' := by
  refine base.handle (fun _ => by simp [procs]) disklock (by rw [procs]; exact base.procs) ?_ ?_ ?_
    (fun idle => absurd idle active)
  · intro p
    rw [procs, visiting]
    exact base.slockIsr p
  · rw [procs]
    exact mark
  · rw [cur]
    exact base.cur

/-- A step of the handler that changes the record of the process it visits. -/
theorem Base.touch {s s' : State n} (base : Base s) (q : Fin n) (f : Proc → Proc)
    (procs : s'.procs = (s.setProc q f).procs)
    (kept : (f (s.procs q)).pc = (s.procs q).pc ∧ (f (s.procs q)).b = (s.procs q).b)
    (disklock : s'.disklock = s.disklock) (ok : (f (s.procs q)).Ok)
    (slockIsr : ∀ p, (s'.procs p).slock = some .isr ↔ s'.isr.visiting = some p.val)
    (unmarked : ∀ b p, s'.isr ≠ .mark b p)
    (cur : ∀ p, s'.cur = some p → (s.procs p).pc.interruptible = true)
    (active : s'.isr ≠ .idle) : Base s' := by
  refine base.handle ?_ disklock ?_ slockIsr (fun b p at_ => absurd at_ (unmarked b p)) cur
    (fun idle => absurd idle active)
  · intro p
    rw [procs]
    by_cases same : p = q
    · subst same
      simpa [State.setProc] using kept
    · simp [State.setProc, same]
  · intro p
    rw [procs]
    by_cases same : p = q
    · subst same
      simpa [State.setProc] using ok
    · simpa [State.setProc, same] using base.procs p

/-- Acquiring `disklock` changes its holder for nobody but the new one. -/
private theorem others_acquire {n : ℕ} {p q : Fin n} {lock : Option (Fin n)} (free : lock = none)
    (other : q ≠ p) : some p = some q ↔ lock = some q := by
  simp [free, Ne.symm other]

private theorem others_release {n : ℕ} {p q : Fin n} {lock : Option (Fin n)} (held : lock = some p)
    (other : q ≠ p) : none = some q ↔ lock = some q := by
  simp [held, Ne.symm other]

theorem Base.step {s s' : State n} {l : Label n} (base : Base s) (step : Step s l s') :
    Base s' := by
  cases step with
  | @start p b write at_ running free distinct =>
    have ok := base.procs p
    refine base.move p _ rfl rfl rfl ?_ (fun _ => .inr distinct) ?_ (fun _ _ => Iff.rfl) Iff.rfl
      (by simp [at_]) free
    · constructor <;> simp [ok.slock, at_, Pc.slocked, running]
    · simp [State.setProc, base.disklock p, at_, Pc.locked]
  | @acquire p at_ free unlocked =>
    exact base.move p _ rfl rfl rfl
      ((base.procs p).goto (by simp [at_, Pc.slocked]) (by simp [at_, Pc.special]) rfl)
      (fun _ => .inl ⟨by simp [at_], rfl⟩) (by simp [State.goto, State.setProc, Pc.locked])
      (fun q other => others_acquire unlocked other) Iff.rfl (by simp [at_]) free
  | @allocRetry p at_ free failed =>
    exact base.handle (fun _ => ⟨rfl, rfl⟩) rfl base.procs base.slockIsr base.mark base.cur base.idle
  | @alloc p c at_ free found =>
    exact base.keep free rfl rfl rfl rfl (by simp [at_, Pc.locked]) (by simp [at_, Pc.slocked])
      (by simp [at_, Pc.special]) rfl (by simp [at_])
  | @fill p c at_ free =>
    exact base.keep free rfl rfl rfl rfl (by simp [at_, Pc.locked]) (by simp [at_, Pc.slocked])
      (by simp [at_, Pc.special]) rfl (by simp [at_])
  | @setDisk p c at_ free =>
    exact base.keep free rfl rfl rfl rfl (by simp [at_, Pc.locked]) (by simp [at_, Pc.slocked])
      (by simp [at_, Pc.special]) rfl (by simp [at_])
  | @setInfo p c at_ free =>
    exact base.keep free rfl rfl rfl rfl (by simp [at_, Pc.locked]) (by simp [at_, Pc.slocked])
      (by simp [at_, Pc.special]) rfl (by simp [at_])
  | @setRing p c at_ free =>
    exact base.keep free rfl rfl rfl rfl (by simp [at_, Pc.locked]) (by simp [at_, Pc.slocked])
      (by simp [at_, Pc.special]) rfl (by simp [at_])
  | @bump p c at_ free =>
    exact base.keep free rfl rfl rfl rfl (by simp [at_, Pc.locked]) (by simp [at_, Pc.slocked])
      (by simp [at_, Pc.special]) rfl (by simp [at_])
  | @testBusy p c at_ free waiting =>
    exact base.keep free rfl rfl rfl rfl (by simp [at_, Pc.locked]) (by simp [at_, Pc.slocked])
      (by simp [at_, Pc.special]) rfl (by simp [at_])
  | @testDone p c at_ free done =>
    exact base.keep free rfl rfl rfl rfl (by simp [at_, Pc.locked]) (by simp [at_, Pc.slocked])
      (by simp [at_, Pc.special]) rfl (by simp [at_])
  | @clearInfo p c at_ free =>
    exact base.keep free rfl rfl rfl rfl (by simp [at_, Pc.locked]) (by simp [at_, Pc.slocked])
      (by simp [at_, Pc.special]) rfl (by simp [at_])
  | @freeChain p c at_ free =>
    exact base.keep free rfl rfl rfl rfl (by simp [at_, Pc.locked]) (by simp [at_, Pc.slocked])
      (by simp [at_, Pc.special]) rfl (by simp [at_])
  | @sleepAcquire p c at_ free unlocked =>
    have ok := base.procs p
    have awake := ok.awake (by simp [at_, Pc.special])
    refine base.move p _ rfl rfl rfl ?_ (fun _ => .inl ⟨by simp [at_], rfl⟩) ?_
      (fun _ _ => Iff.rfl) (by simp [unlocked]) (by simp [at_]) free
    · constructor <;> simp [Pc.slocked, awake]
    · simp [State.setProc, base.disklock p, at_, Pc.locked]
  | @sleepRelease p c at_ free =>
    have held := (base.disklock p).mpr (by simp [at_, Pc.locked])
    exact base.move p _ rfl rfl rfl
      ((base.procs p).goto (by simp [at_, Pc.slocked]) (by simp [at_, Pc.special]) rfl)
      (fun _ => .inl ⟨by simp [at_], rfl⟩) (by simp [State.goto, State.setProc, Pc.locked])
      (fun q other => others_release held other) Iff.rfl (by simp [at_]) free
  | @sleepChan p c at_ free =>
    have ok := base.procs p
    have awake := ok.awake (by simp [at_, Pc.special])
    refine base.move p _ rfl rfl rfl ?_ (fun _ => .inl ⟨by simp [at_], rfl⟩) ?_
      (fun _ _ => Iff.rfl) Iff.rfl (by simp [at_]) free
    · constructor <;> simp [ok.slock, at_, Pc.slocked, awake]
    · simp [State.setProc, base.disklock p, at_, Pc.locked]
  | @sleepState p c at_ free =>
    have ok := base.procs p
    refine base.move p _ rfl rfl rfl ?_ (fun _ => .inl ⟨by simp [at_], rfl⟩) ?_
      (fun _ _ => Iff.rfl) Iff.rfl (by simp [at_]) free
    · constructor <;> simp [ok.slock, at_, Pc.slocked, ok.sleepState c at_]
    · simp [State.setProc, base.disklock p, at_, Pc.locked]
  | @sched p c at_ free =>
    have ok := base.procs p
    have held := ok.slock.mpr (by simp [at_, Pc.slocked])
    refine base.move p _ rfl rfl rfl ?_ (fun _ => .inl ⟨by simp [at_], rfl⟩) ?_
      (fun _ _ => Iff.rfl) (by simp [held]) (by simp [at_]) free
    · constructor <;> simp [Pc.slocked, ok.sched c at_]
    · simp [State.setProc, base.disklock p, at_, Pc.locked]
  | @schedule p c at_ runnable unlocked =>
    have free : s.cur ≠ some p := by
      intro current
      have enabled := base.cur p current
      simp [at_, Pc.interruptible] at enabled
    refine base.move p _ rfl rfl rfl ?_ (fun _ => .inl ⟨by simp [at_], rfl⟩) ?_
      (fun _ _ => Iff.rfl) (by simp [unlocked]) (fun _ => unlocked) free
    · constructor <;> simp [Pc.slocked]
    · simp [State.setProc, base.disklock p, at_, Pc.locked]
  | @woken p c at_ free =>
    have ok := base.procs p
    have awake := ok.awake (by simp [at_, Pc.special])
    refine base.move p _ rfl rfl rfl ?_ (fun _ => .inl ⟨by simp [at_], rfl⟩) ?_
      (fun _ _ => Iff.rfl) Iff.rfl (by simp [at_]) free
    · constructor <;> simp [ok.slock, at_, Pc.slocked, awake]
    · simp [State.setProc, base.disklock p, at_, Pc.locked]
  | @sleepUnlock p c at_ free =>
    have ok := base.procs p
    have awake := ok.awake (by simp [at_, Pc.special])
    have held := ok.slock.mpr (by simp [at_, Pc.slocked])
    refine base.move p _ rfl rfl rfl ?_ (fun _ => .inl ⟨by simp [at_], rfl⟩) ?_
      (fun _ _ => Iff.rfl) (by simp [held]) (by simp [at_]) free
    · constructor <;> simp [Pc.slocked, awake]
    · simp [State.setProc, base.disklock p, at_, Pc.locked]
  | @reacquire p c at_ free unlocked =>
    exact base.move p _ rfl rfl rfl
      ((base.procs p).goto (by simp [at_, Pc.slocked]) (by simp [at_, Pc.special]) rfl)
      (fun _ => .inl ⟨by simp [at_], rfl⟩) (by simp [State.goto, State.setProc, Pc.locked])
      (fun q other => others_acquire unlocked other) Iff.rfl (by simp [at_]) free
  | @release p at_ free =>
    have held := (base.disklock p).mpr (by simp [at_, Pc.locked])
    exact base.move p _ rfl rfl rfl
      ((base.procs p).goto (by simp [at_, Pc.slocked]) (by simp [at_, Pc.special]) rfl)
      (fun active => absurd rfl active) (by simp [State.goto, State.setProc, Pc.locked])
      (fun q other => others_release held other) Iff.rfl (by simp [at_]) free
  | take => exact base.handle (fun _ => ⟨rfl, rfl⟩) rfl base.procs base.slockIsr base.mark base.cur base.idle
  | complete =>
    exact base.handle (fun _ => ⟨rfl, rfl⟩) rfl base.procs base.slockIsr base.mark base.cur base.idle
  | irq idle interrupted =>
    refine base.handle (fun _ => ⟨rfl, rfl⟩) rfl base.procs ?_ (by simp) ?_ (by simp)
    · intro p
      rw [base.slockIsr p, idle]
      simp [IsrPc.visiting]
    · intro p current
      exact (interrupted p current).2
  | isrReturn at_ none_ =>
    refine base.handle (fun _ => ⟨rfl, rfl⟩) rfl base.procs ?_ (by simp) (by simp) (by simp)
    intro p
    rw [base.slockIsr p, at_]
    simp [IsrPc.visiting]
  | isrTest at_ more => exact base.jump rfl rfl (by simp [at_, IsrPc.visiting]) (by simp) (by simp) rfl
  | readId at_ => exact base.jump rfl rfl (by simp [at_, IsrPc.visiting]) (by simp) (by simp) rfl
  | readBuf at_ found =>
    exact base.jump rfl rfl (by simp [at_, IsrPc.visiting]) (by simp) (by simp) rfl
  | isrPanic at_ empty =>
    exact base.jump rfl rfl (by simp [at_, IsrPc.visiting]) (by simp) (by simp) rfl
  | clear at_ => exact base.jump rfl rfl (by simp [at_, IsrPc.visiting]) (by simp) (by simp) rfl
  | wakeSkip at_ self =>
    exact base.jump rfl rfl (by simp [at_, IsrPc.visiting]) (by simp) (by simp) rfl
  | wakeDone at_ last =>
    exact base.jump rfl rfl (by simp [at_, IsrPc.visiting]) (by simp) (by simp) rfl
  | advance at_ =>
    exact base.jump rfl rfl (by simp [at_, IsrPc.visiting]) (by simp) (by simp) rfl
  | visitOther at_ awake =>
    exact base.jump rfl rfl (by simp [at_, IsrPc.visiting]) (by simp) (by simp) rfl
  | @visitSleeper b q at_ sleeping =>
    refine base.jump rfl rfl (by simp [at_, IsrPc.visiting]) ?_ (by simp) rfl
    intro b' p next
    have same : q.val = p.val := (IsrPc.mark.inj next).2
    rw [← Fin.ext same]
    exact sleeping.1
  | @wakeAcquire b q at_ other unlocked =>
    have ok := base.procs q
    refine base.touch q ({ · with slock := some .isr }) rfl ⟨rfl, rfl⟩ rfl ?_ ?_ (by simp)
      base.cur (by simp)
    · constructor
      · simpa [unlocked] using ok.slock
      · exact ok.sleepState
      · exact ok.sched
      · exact ok.asleep
      · exact ok.sleeping
    · intro p
      by_cases same : p = q
      · subst same
        simp [State.setProc, IsrPc.visiting]
      · have apart : q.val ≠ p.val := fun value => same (Fin.ext value.symm)
        simp [State.setProc, same, base.slockIsr p, at_, IsrPc.visiting, apart]
  | @mark b q at_ =>
    have ok := base.procs q
    obtain ⟨⟨c, asleep⟩, locked⟩ := base.marked at_
    refine base.touch q ({ · with state := .RUNNABLE }) rfl ⟨rfl, rfl⟩ rfl ?_ ?_ (by simp)
      base.cur (by simp)
    · constructor <;> simp [ok.slock, asleep, Pc.slocked]
    · intro p
      by_cases same : p = q
      · subst same
        simp [State.setProc, locked, IsrPc.visiting]
      · have apart : q.val ≠ p.val := fun value => same (Fin.ext value.symm)
        simp [State.setProc, same, base.slockIsr p, at_, IsrPc.visiting, apart]
  | @wakeRelease b q at_ =>
    have ok := base.procs q
    have locked := (base.slockIsr q).mpr (by simp [at_, IsrPc.visiting])
    refine base.touch q ({ · with slock := none }) rfl ⟨rfl, rfl⟩ rfl ?_ ?_ (by simp)
      base.cur (by simp)
    · constructor
      · simpa [locked] using ok.slock
      · exact ok.sleepState
      · exact ok.sched
      · exact ok.asleep
      · exact ok.sleeping
    · intro p
      by_cases same : p = q
      · subst same
        simp [State.setProc, IsrPc.visiting]
      · have apart : q.val ≠ p.val := fun value => same (Fin.ext value.symm)
        simp [State.setProc, same, base.slockIsr p, at_, IsrPc.visiting, apart]

end HaloOS.Virtio
