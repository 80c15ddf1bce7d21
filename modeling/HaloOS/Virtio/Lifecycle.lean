import HaloOS.Virtio.Queues
import HaloOS.Virtio.Replay

/-! The life of a disk request. The specification is a machine that knows nothing of
rings and descriptors: a buffer's request is submitted, completed by the device, cleared
by the handler and finished by its process, in this order and each once. Every run of
the driver is a run of that machine. -/

namespace HaloOS.Virtio

open Lib

/-- How far the request on a buffer is. -/
inductive ReqStatus where
  | none
  | submitted (h : Fin NUM)
  | completed
  | cleared
  deriving DecidableEq

/-- The labels that do not move any request on. -/
def Label.silent {n : ℕ} : Label n → Bool
  | .submit _ _ _ | .complete _ | .clear _ | .finish _ _ => false
  | _ => true

/-- The specification: what may happen to the requests of the buffers. -/
inductive ReqStep {n : ℕ} : (ℕ → ReqStatus) → Label n → (ℕ → ReqStatus) → Prop where
  | submit {σ : ℕ → ReqStatus} {p : Fin n} {b : ℕ} {h : Fin NUM} (fresh : σ b = .none) :
      ReqStep σ (.submit p b h) (Function.update σ b (.submitted h))
  | complete {σ : ℕ → ReqStatus} {b : ℕ} {h : Fin NUM} (waits : σ b = .submitted h)
      (only : ∀ b', σ b' = .submitted h → b' = b) :
      ReqStep σ (.complete h) (Function.update σ b .completed)
  | clear {σ : ℕ → ReqStatus} {b : ℕ} (done : σ b = .completed) :
      ReqStep σ (.clear b) (Function.update σ b .cleared)
  | finish {σ : ℕ → ReqStatus} {p : Fin n} {b : ℕ} (done : σ b = .cleared) :
      ReqStep σ (.finish p b) (Function.update σ b .none)
  | other {σ : ℕ → ReqStatus} {l : Label n} (silent : l.silent = true) : ReqStep σ l σ

/-- `virt_disk_rw` has seen `b->disk == 0` and cleans up. -/
def Pc.finishing : Pc → Bool
  | .clearInfo _ | .freeChain _ | .release => true
  | _ => false

variable {n : ℕ}

attribute [local instance] descriptors_lawful in
/-- The status of the request of `p`, read off the driver's state. -/
def State.status (s : State n) (used : List (Fin NUM)) (p : Fin n) : ReqStatus :=
  if (s.procs p).pc.finishing then .cleared
  else if (s.procs p).pc.posted then
    match s.pendingHead p with
    | some h => if h ∈ used then .completed else .submitted h
    | none => .cleared
  else .none

/-- The specification's statuses are those of the driver. -/
structure Tracks (s : State n) (used : List (Fin NUM)) (σ : ℕ → ReqStatus) : Prop where
  active : ∀ p, (s.procs p).pc ≠ .idle → σ (s.procs p).b = s.status used p
  absent : ∀ b, (∀ p, (s.procs p).pc ≠ .idle → (s.procs p).b ≠ b) → σ b = .none

theorem tracks_init (n : ℕ) : Tracks (init n) [] (fun _ => .none) where
  active := by simp [init]
  absent := by simp

theorem State.status_congr {s s' : State n} {used used' : List (Fin NUM)} {p : Fin n}
    (finishing : (s'.procs p).pc.finishing = (s.procs p).pc.finishing)
    (posted : (s'.procs p).pc.posted = (s.procs p).pc.posted)
    (heads : s'.pendingHead p = s.pendingHead p)
    (member : ∀ h, s.pendingHead p = some h → (h ∈ used' ↔ h ∈ used)) :
    s'.status used' p = s.status used p := by
  simp only [State.status, finishing, posted, heads]
  split
  · rfl
  · split
    · cases pending : s.pendingHead p with
      | none => rfl
      | some h => simp [member h pending]
    · rfl

/-- The status of a process that stands still, `b->disk` unchanged. -/
theorem State.status_keep {s s' : State n} {used : List (Fin NUM)} {p : Fin n}
    (procs : s'.procs p = s.procs p ∧ s'.busy = s.busy) :
    s'.status used p = s.status used p := by
  obtain ⟨same, busy⟩ := procs
  exact State.status_congr (by rw [same]) (by rw [same])
    (State.pendingHead_congr (by rw [same]) (by rw [same, busy])) (fun _ _ => Iff.rfl)

/-- A status of `submitted` names the head of a pending request. -/
theorem State.status_submitted {s : State n} {used : List (Fin NUM)} {p : Fin n} {h : Fin NUM}
    (status : s.status used p = .submitted h) : s.pendingHead p = some h := by
  unfold State.status at status
  split at status
  · cases status
  · split at status
    · cases pending : s.pendingHead p with
      | none => simp [pending] at status
      | some h' =>
        simp only [pending] at status
        split at status
        · cases status
        · rw [ReqStatus.submitted.inj status]
    · cases status

theorem State.status_pending {s : State n} {p : Fin n} {h : Fin NUM}
    (pending : s.pendingHead p = some h) (used : List (Fin NUM)) :
    s.status used p = if h ∈ used then .completed else .submitted h := by
  obtain ⟨posted, _, _⟩ := State.pendingHead_some pending
  have working : (s.procs p).pc.finishing = false := by
    cases pc : (s.procs p).pc <;> simp [pc, Pc.posted] at posted <;> rfl
  simp [State.status, working, posted, pending]

/-- The frame of every step that moves no request on. -/
theorem Tracks.frame {s s' : State n} {used used' : List (Fin NUM)} {σ : ℕ → ReqStatus}
    (tracks : Tracks s used σ)
    (idle : ∀ p, (s'.procs p).pc ≠ .idle ↔ (s.procs p).pc ≠ .idle)
    (b : ∀ p, (s'.procs p).b = (s.procs p).b)
    (status : ∀ p, (s.procs p).pc ≠ .idle → s'.status used' p = s.status used p) :
    Tracks s' used' σ where
  active := by
    intro p
    rw [idle, b]
    intro running
    rw [tracks.active p running, status p running]
  absent := by
    intro buffer none_
    refine tracks.absent buffer ?_
    intro p running
    rw [← b]
    exact none_ p ((idle p).mpr running)

/-- The frame of a step that moves one request on. -/
theorem Tracks.advance {s s' : State n} {used used' : List (Fin NUM)} {σ : ℕ → ReqStatus}
    (base : Base s) (tracks : Tracks s used σ) (p : Fin n) (running : (s.procs p).pc ≠ .idle)
    (idle : ∀ x, (s'.procs x).pc ≠ .idle ↔ (s.procs x).pc ≠ .idle)
    (b : ∀ x, (s'.procs x).b = (s.procs x).b)
    (status : ∀ x, x ≠ p → (s.procs x).pc ≠ .idle → s'.status used' x = s.status used x) :
    Tracks s' used' (Function.update σ (s.procs p).b (s'.status used' p)) where
  active := by
    intro x
    rw [idle, b]
    intro active
    by_cases same : x = p
    · subst same
      simp
    · have apart : (s.procs x).b ≠ (s.procs p).b :=
        fun equal => same (base.buffers x p active running equal)
      rw [Function.update_of_ne apart, tracks.active x active, status x same active]
  absent := by
    intro buffer none_
    have apart : buffer ≠ (s.procs p).b := by
      rintro rfl
      exact none_ p ((idle p).mpr running) (b p)
    rw [Function.update_of_ne apart]
    refine tracks.absent buffer ?_
    intro x active
    rw [← b]
    exact none_ x ((idle x).mpr active)

/-- A step of `p` that moves no request on. -/
theorem Tracks.keep {s s' : State n} {used : List (Fin NUM)} {σ : ℕ → ReqStatus}
    (tracks : Tracks s used σ) (p : Fin n) (r : Proc)
    (procs : s'.procs = Function.update s.procs p r)
    (active : (s.procs p).pc ≠ .idle) (still : r.pc ≠ .idle) (b : r.b = (s.procs p).b)
    (finishing : r.pc.finishing = (s.procs p).pc.finishing)
    (posted : r.pc.posted = (s.procs p).pc.posted)
    (heads : ∀ x, s'.pendingHead x = s.pendingHead x) : Tracks s' used σ := by
  have pc : ∀ x, x ≠ p → s'.procs x = s.procs x := by
    intro x other
    rw [procs, Function.update_of_ne other]
  have own : s'.procs p = r := by rw [procs, Function.update_self]
  refine tracks.frame ?_ ?_ ?_
  · intro x
    by_cases same : x = p
    · subst same
      simp [own, active, still]
    · rw [pc x same]
  · intro x
    by_cases same : x = p
    · subst same
      rw [own, b]
    · rw [pc x same]
  · intro x _
    by_cases same : x = p
    · subst same
      exact State.status_congr (by rw [own, finishing]) (by rw [own, posted]) (heads x)
        (fun _ _ => Iff.rfl)
    · exact State.status_congr (by rw [pc x same]) (by rw [pc x same]) (heads x) (fun _ _ => Iff.rfl)

/-- A step of the device or the handler that moves no request on. -/
theorem Tracks.handle {s s' : State n} {used : List (Fin NUM)} {σ : ℕ → ReqStatus}
    (tracks : Tracks s used σ)
    (procs : ∀ p, (s'.procs p).pc = (s.procs p).pc ∧ (s'.procs p).b = (s.procs p).b)
    (busy : s'.busy = s.busy) : Tracks s' used σ := by
  refine tracks.frame (fun p => by rw [(procs p).1]) (fun p => (procs p).2) ?_
  intro p _
  exact State.status_congr (by rw [(procs p).1]) (by rw [(procs p).1])
    (State.pendingHead_congr (procs p).1 (by rw [(procs p).2, busy])) (fun _ _ => Iff.rfl)

theorem Tracks.start {s : State n} {used : List (Fin NUM)} {σ : ℕ → ReqStatus}
    (tracks : Tracks s used σ) {p : Fin n} {b : ℕ} (write : Bool)
    (at_ : (s.procs p).pc = .idle) (distinct : ∀ q, (s.procs q).pc ≠ .idle → (s.procs q).b ≠ b) :
    Tracks (s.setProc p ({ · with pc := .acquire, b, write })) used σ where
  active := by
    intro x
    by_cases same : x = p
    · subst same
      intro _
      have fresh := tracks.absent b distinct
      simpa [State.setProc, State.status, Pc.finishing, Pc.posted] using fresh
    · intro running
      rw [State.status_keep (s := s) (by simp [State.setProc, same])]
      simpa [State.setProc, same] using
        tracks.active x (by simpa [State.setProc, same] using running)
  absent := by
    intro buffer none_
    refine tracks.absent buffer ?_
    intro x running
    have other : x ≠ p := by
      rintro rfl
      exact running at_
    simpa [State.setProc, other] using none_ x (by simpa [State.setProc, other] using running)

theorem Tracks.finish {s : State n} {used : List (Fin NUM)} {σ : ℕ → ReqStatus} (base : Base s)
    (tracks : Tracks s used σ) {p : Fin n} (at_ : (s.procs p).pc = .release) :
    σ (s.procs p).b = .cleared ∧ Tracks ({ s with disklock := none }.goto p .idle) used
      (Function.update σ (s.procs p).b .none) := by
  constructor
  · rw [tracks.active p (by simp [at_])]
    simp [State.status, at_, Pc.finishing]
  constructor
  · intro x running
    have other : x ≠ p := by
      rintro rfl
      simp [State.goto, State.setProc] at running
    have before : (s.procs x).pc ≠ .idle := by
      simpa [State.goto, State.setProc, other] using running
    have apart : (s.procs x).b ≠ (s.procs p).b :=
      fun same => other (base.buffers x p before (by simp [at_]) same)
    rw [State.status_keep (s := s) (by simp [State.goto, State.setProc, other])]
    simpa [State.goto, State.setProc, other, apart] using tracks.active x before
  · intro buffer none_
    by_cases same : buffer = (s.procs p).b
    · simp [same]
    · rw [Function.update_of_ne same]
      refine tracks.absent buffer ?_
      intro x running
      by_cases own : x = p
      · subst own
        exact fun equal => same equal.symm
      · simpa [State.goto, State.setProc, own] using
          none_ x (by simpa [State.goto, State.setProc, own] using running)

theorem Tracks.testDone {s : State n} {used : List (Fin NUM)} {σ : ℕ → ReqStatus}
    (tracks : Tracks s used σ) {p : Fin n} {c : Chain} (at_ : (s.procs p).pc = .test c)
    (done : s.busy (s.procs p).b = false) : Tracks (s.goto p (.clearInfo c)) used σ := by
  refine tracks.frame ?_ ?_ ?_
  · intro x
    by_cases same : x = p
    · subst same
      simp [State.goto, State.setProc, at_]
    · simp [State.goto, State.setProc, same]
  · intro x
    by_cases same : x = p
    · subst same
      simp [State.goto, State.setProc]
    · simp [State.goto, State.setProc, same]
  · intro x _
    by_cases same : x = p
    · subst same
      simp [State.status, State.pendingHead, State.goto, State.setProc, at_, done, Pc.finishing,
        Pc.posted]
    · exact State.status_keep (by simp [State.goto, State.setProc, same])

theorem Tracks.submit {s : State n} {q : Queues} {σ : ℕ → ReqStatus} (base : Base s)
    (owned : Owned s) (queued : Queued s q) (tracks : Tracks s q.used σ) {p : Fin n} {c : Chain}
    (at_ : (s.procs p).pc = .bump c) :
    σ (s.procs p).b = .none ∧ Tracks ({ s with disk := s.disk.bump }.goto p (.test c)) q.used
      (Function.update σ (s.procs p).b (.submitted c.head)) := by
  have running : (s.procs p).pc ≠ .idle := by simp [at_]
  have fresh : c.head ∉ q.used := by
    have nodup := (queued.submit base owned at_).nodup
    rw [List.append_assoc, List.append_assoc] at nodup
    have apart := List.disjoint_of_nodup_append (List.nodup_append.mp nodup).2.1
    exact fun member => apart (List.mem_singleton_self _) (List.mem_append_right _ member)
  have pending : ({ s with disk := s.disk.bump }.goto p (.test c)).pendingHead p = some c.head := by
    have marked := queued.marked p (by simp [at_, Pc.marked])
    simp [State.pendingHead, State.goto, State.setProc, Pc.posted, Pc.chain, marked]
  have status := State.status_pending pending q.used
  rw [if_neg fresh] at status
  constructor
  · rw [tracks.active p running]
    simp [State.status, at_, Pc.finishing, Pc.posted]
  rw [← status]
  refine tracks.advance base p running ?_ ?_ ?_
  · intro x
    by_cases same : x = p
    · subst same
      simp [State.goto, State.setProc, at_]
    · simp [State.goto, State.setProc, same]
  · intro x
    by_cases same : x = p
    · subst same
      simp [State.goto, State.setProc]
    · simp [State.goto, State.setProc, same]
  · intro x other _
    exact State.status_keep (by simp [State.goto, State.setProc, other])

/-- A head in the device's hands is that of exactly one submitted request. -/
theorem Tracks.complete {s : State n} {q : Queues} {σ : ℕ → ReqStatus} (base : Base s)
    (owned : Owned s) (queued : Queued s q) (tracks : Tracks s q.used σ) {h : Fin NUM}
    (taken : h ∈ s.disk.inflight) :
    ∃ b, σ b = .submitted h ∧ (∀ b', σ b' = .submitted h → b' = b) ∧
      Tracks { s with disk := s.disk.complete h } (q.used ++ [h])
        (Function.update σ b .completed) := by
  obtain ⟨p, pending⟩ := (queued.pending h).mp
    (List.mem_append_left _ (List.mem_append_right _ taken))
  have fresh : h ∉ q.used := by
    have apart := List.disjoint_of_nodup_append queued.nodup
    exact fun member => apart (List.mem_append_right _ taken) member
  have running := Pc.posted_active (State.pendingHead_some pending).1
  have before := State.status_pending pending q.used
  rw [if_neg fresh] at before
  have after : ({ s with disk := s.disk.complete h } : State n).status (q.used ++ [h]) p =
      .completed := by
    have moved : ({ s with disk := s.disk.complete h } : State n).pendingHead p = some h := pending
    rw [State.status_pending moved, if_pos (by simp)]
  refine ⟨(s.procs p).b, by rw [tracks.active p running, before], ?_, ?_⟩
  · intro b' waits
    by_cases absent : ∀ x, (s.procs x).pc ≠ .idle → (s.procs x).b ≠ b'
    · rw [tracks.absent b' absent] at waits
      cases waits
    · push Not at absent
      obtain ⟨x, active, rfl⟩ := absent
      rw [tracks.active x active] at waits
      rw [owned.pending_unique (State.status_submitted waits) pending]
  · rw [← after]
    refine tracks.advance base p running (fun _ => Iff.rfl) (fun _ => rfl) ?_
    intro x other _
    refine State.status_congr rfl rfl rfl ?_
    intro h' has
    have apart : h' ≠ h := by
      rintro rfl
      exact other (owned.pending_unique has pending)
    simp [apart]

theorem Tracks.clear {s : State n} {q : Queues} {σ : ℕ → ReqStatus} (base : Base s)
    (owned : Owned s) (queued : Queued s q) (tracks : Tracks s q.used σ) {b : ℕ} {id : Fin NUM}
    {rest : List (Fin NUM)} (at_ : s.isr = .clear b) (oldest : q.used = id :: rest) :
    σ b = .completed ∧
      Tracks { s with busy := Function.update s.busy b false, isr := .wake b 0 } rest
        (Function.update σ b .cleared) := by
  have known := queued.handler
  simp only [HandlerOk, at_, oldest, List.head?_cons, Option.some.injEq] at known
  obtain ⟨_, p, rfl, pending, rfl⟩ := known
  obtain ⟨posted, _, _⟩ := State.pendingHead_some pending
  have running := Pc.posted_active posted
  obtain ⟨mine, others⟩ := State.pendingHead_clear base posted rfl
  constructor
  · rw [tracks.active p running, State.status_pending pending, if_pos (by simp [oldest])]
  have after : ({ s with
      busy := Function.update s.busy (s.procs p).b false
      isr := .wake (s.procs p).b 0 } : State n).status rest p = .cleared := by
    simp only [State.status, mine, posted]
    split <;> rfl
  rw [← after]
  refine tracks.advance base p running (fun _ => Iff.rfl) (fun _ => rfl) ?_
  intro x other _
  refine State.status_congr rfl rfl (others x other) ?_
  intro h has
  have apart : h ≠ id := by
    rintro rfl
    exact other (owned.pending_unique has pending)
  simp [oldest, apart]

/-- Every step of the driver is a step of the specification. -/
theorem Tracks.step {s s' : State n} {l : Label n} {q q' : Queues} {σ : ℕ → ReqStatus}
    (base : Base s) (owned : Owned s) (queued : Queued s q) (tracks : Tracks s q.used σ)
    (step : Step s l s') (queues : Queues.Step q l q') :
    ∃ σ', ReqStep σ l σ' ∧ Tracks s' q'.used σ' := by
  have quiet : l.quiet = true → q' = q := by
    intro silent
    cases queues <;> first | rfl | simp [Label.quiet] at silent
  cases step with
  | @start p b write at_ running free distinct =>
    rw [quiet rfl]
    exact ⟨σ, .other rfl, tracks.start write at_ distinct⟩
  | @release p at_ free =>
    rw [quiet rfl]
    obtain ⟨cleared, after⟩ := tracks.finish base at_
    exact ⟨_, .finish cleared, after⟩
  | @bump p c at_ free =>
    cases queues with
    | submit =>
      obtain ⟨fresh, after⟩ := tracks.submit base owned queued at_
      exact ⟨_, .submit fresh, after⟩
    | quiet silent => simp [Label.quiet] at silent
  | @complete h taken =>
    cases queues with
    | complete =>
      obtain ⟨b, waits, only, after⟩ := tracks.complete base owned queued taken
      exact ⟨_, .complete waits only, after⟩
    | quiet silent => simp [Label.quiet] at silent
  | @clear b at_ =>
    cases queues with
    | clear _ passed oldest =>
      obtain ⟨done, after⟩ := tracks.clear base owned queued at_ oldest
      exact ⟨_, .clear done, after⟩
    | quiet silent => simp [Label.quiet] at silent
  | take published =>
    have same : q'.used = q.used := by cases queues <;> rfl
    rw [same]
    exact ⟨σ, .other rfl, tracks.handle (fun _ => ⟨rfl, rfl⟩) rfl⟩
  | advance at_ =>
    have same : q'.used = q.used := by cases queues <;> rfl
    rw [same]
    exact ⟨σ, .other rfl, tracks.handle (fun _ => ⟨rfl, rfl⟩) rfl⟩
  | @setDisk p c at_ free =>
    rw [quiet rfl]
    exact ⟨σ, .other rfl, tracks.keep p _ rfl (by simp [at_]) (by simp) rfl
      (by simp [at_, Pc.finishing]) (by simp [at_, Pc.posted])
      (State.pendingHead_setDisk base at_)⟩
  | @testDone p c at_ free done =>
    rw [quiet rfl]
    exact ⟨σ, .other rfl, tracks.testDone at_ done⟩
  | @acquire p at_ free unlocked | @alloc p c at_ free found =>
    rw [quiet rfl]
    exact ⟨σ, .other rfl, tracks.keep p _ rfl (by simp [at_]) (by simp) rfl
      (by simp [at_, Pc.finishing]) (by simp [at_, Pc.posted])
      (State.pendingHead_update p _ rfl rfl (by simp [at_, Pc.posted]) (by simp [Pc.posted]))⟩
  | @fill p c at_ free | @setInfo p c at_ free | @setRing p c at_ free
  | @clearInfo p c at_ free | @freeChain p c at_ free =>
    rw [quiet rfl]
    exact ⟨σ, .other rfl, tracks.keep p _ rfl (by simp [at_]) (by simp) rfl
      (by simp [at_, Pc.finishing]) (by simp [at_, Pc.posted])
      (State.pendingHead_update p _ rfl rfl (by simp [at_, Pc.posted]) (by simp [Pc.posted]))⟩
  | @testBusy p c at_ free waiting | @sleepAcquire p c at_ free unlocked
  | @sleepRelease p c at_ free | @sleepChan p c at_ free | @sleepState p c at_ free
  | @sched p c at_ free | @schedule p c at_ runnable unlocked | @woken p c at_ free
  | @sleepUnlock p c at_ free | @reacquire p c at_ free unlocked =>
    rw [quiet rfl]
    exact ⟨σ, .other rfl, tracks.keep p _ rfl (by simp [at_]) (by simp) rfl
      (by simp [at_, Pc.finishing]) (by simp [at_, Pc.posted])
      (State.pendingHead_update p _ rfl rfl (by simp [at_, Pc.posted]) (by simp [at_, Pc.chain]))⟩
  | allocRetry | irq | isrTest | isrReturn | readId | readBuf | isrPanic | wakeSkip
  | visitSleeper | visitOther | wakeDone =>
    rw [quiet rfl]
    exact ⟨σ, .other rfl, tracks.handle (fun _ => ⟨rfl, rfl⟩) rfl⟩
  | @wakeAcquire b x at_ other unlocked | @mark b x at_ | @wakeRelease b x at_ =>
    rw [quiet rfl]
    refine ⟨σ, .other rfl, tracks.handle ?_ rfl⟩
    intro p
    by_cases same : p = x
    · subst same
      simp [State.setProc]
    · simp [State.setProc, same]

/-- The heads the driver has published, in order. -/
def submittedHeads (past : List (Label n)) : List (Fin NUM) :=
  past.filterMap fun
    | .submit _ _ h => some h
    | _ => none

/-- The heads the device has taken, in order. -/
def takenHeads (past : List (Label n)) : List (Fin NUM) :=
  past.filterMap fun
    | .take h => some h
    | _ => none

/-- The heads the device has put into the used ring, in order. -/
def completedHeads (past : List (Label n)) : List (Fin NUM) :=
  past.filterMap fun
    | .complete h => some h
    | _ => none

/-- The ids the handler has consumed, in order. -/
def consumedIds (past : List (Label n)) : List (Fin NUM) :=
  past.filterMap fun
    | .consume h => some h
    | _ => none

/-- Nothing is lost between the two ends of either ring. -/
structure Delivered (past : List (Label n)) (q : Queues) : Prop where
  avail : submittedHeads past = takenHeads past ++ q.avail
  used : completedHeads past = consumedIds past ++ (q.late ++ q.used)

theorem Delivered.step {past : List (Label n)} {l : Label n} {q q' : Queues}
    (delivered : Delivered past q) (step : Queues.Step q l q') : Delivered (past ++ [l]) q' := by
  obtain ⟨avail, used⟩ := delivered
  cases step with
  | submit | complete =>
    constructor <;>
      simp_all [submittedHeads, takenHeads, completedHeads, consumedIds]
  | take oldest | clear _ passed oldest | consume oldest =>
    constructor <;>
      simp_all [submittedHeads, takenHeads, completedHeads, consumedIds]
  | quiet silent =>
    cases l <;> simp [Label.quiet] at silent <;>
      constructor <;>
      simpa [submittedHeads, takenHeads, completedHeads, consumedIds] using (by assumption)

/-- Everything known of a run and the state it reaches. -/
structure Sound (past : List (Label n)) (s : State n) (q : Queues) (σ : ℕ → ReqStatus) : Prop where
  base : Base s
  owned : Owned s
  queued : Queued s q
  delivered : Delivered past q
  spec : Trace ReqStep (fun _ => .none) past σ
  tracks : Tracks s q.used σ

theorem sound_run {past : List (Label n)} {s : State n} (run : Trace Step (init n) past s) :
    ∃ q σ, Sound past s q σ := by
  refine run.invariant (fun past s => ∃ q σ, Sound past s q σ) ?_ ?_
  · exact ⟨{}, fun _ => .none, base_init n, owned_init n, queued_init n, ⟨rfl, rfl⟩, .nil,
      tracks_init n⟩
  · rintro past s l s' ⟨q, σ, sound⟩ step
    obtain ⟨q', queues, queued⟩ := sound.queued.step sound.base sound.owned step
    obtain ⟨σ', req, tracks⟩ :=
      sound.tracks.step sound.base sound.owned sound.queued step queues
    exact ⟨q', σ', sound.base.step step, sound.owned.step step, queued,
      sound.delivered.step queues, sound.spec.snoc req, tracks⟩

/-- A step writes the avail ring only at the slot of the avail index and the used ring
only at the slot of the used index. -/
theorem Step.slots {s s' : State n} {l : Label n} (step : Step s l s') :
    (s'.disk.ring = s.disk.ring ∨
      ∃ h, s'.disk.ring = Function.update s.disk.ring (slotOf NUM s.disk.index) h) ∧
    (s'.disk.used = s.disk.used ∨
      ∃ h, s'.disk.used = Function.update s.disk.used (slotOf NUM s.disk.idx) h) := by
  cases step with
  | @setRing p c at_ free => exact ⟨.inr ⟨c.head, rfl⟩, .inl rfl⟩
  | @complete h taken =>
    have rings := s.disk.complete_rings h
    simp only [Disk.rings, Prod.mk.injEq] at rings
    exact ⟨.inl rings.1, .inr ⟨h, rings.2.2.2.1⟩⟩
  | @alloc p c at_ free found =>
    obtain ⟨_, _, disk⟩ := Disk.alloc3Desc_some found
    simp [disk]
  | @allocRetry p at_ free failed =>
    obtain ⟨_, disk, _⟩ := Disk.alloc3Desc_none failed
    simp [disk]
  | @freeChain p c at_ free =>
    have rings := Disk.freeChain_rings NUM c.head s.disk
    simp only [Disk.rings, Prod.mk.injEq] at rings
    exact ⟨.inl rings.1, .inl rings.2.2.2.1⟩
  | _ => exact ⟨.inl rfl, .inl rfl⟩

/-- How many entries lie between two ring counters. -/
def unread (base top : ℕ) : ℕ := (top + WRAP - base) % WRAP

/-- A write at the producer's slot hits no entry the consumer has yet to read. -/
private theorem slot_kept {ring ring' : Fin NUM → Fin NUM} {base top : ℕ} {q : List (Fin NUM)}
    (holds : RingHolds WRAP ring base top q) (small : q.length < NUM)
    (write : ring' = ring ∨ ∃ h, ring' = Function.update ring (slotOf NUM top) h)
    {k : ℕ} (inside : k < unread base top) :
    ring' (slotOf NUM (base + k)) = ring (slotOf NUM (base + k)) := by
  have fits : q.length < WRAP := small.trans (by decide)
  rw [unread, holds.length_eq fits] at inside
  rcases write with rfl | ⟨h, rfl⟩
  · rfl
  · rw [Function.update_of_ne (holds.slot_apart num_dvd_wrap small inside)]

/-- `b->disk` goes from 1 to 0 exactly in the handler's clearing steps. -/
theorem Step.clears {s s' : State n} {l : Label n} {q : Queues} (queued : Queued s q)
    (step : Step s l s') (b : ℕ) :
    l = .clear b ↔ s.busy b = true ∧ s'.busy b = false := by
  cases step with
  | @clear b' at_ =>
    have known := queued.handler
    simp only [HandlerOk, at_] at known
    obtain ⟨_, p, _, pending, rfl⟩ := known
    have busy := (State.pendingHead_some pending).2.1
    constructor
    · intro same
      obtain rfl := Label.clear.inj same
      exact ⟨busy, by simp⟩
    · rintro ⟨before, after⟩
      by_cases same : b = (s.procs p).b
      · rw [same]
      · simp [same, before] at after
  | @setDisk p c at_ free =>
    by_cases same : b = (s.procs p).b <;> simp [same]
  | _ => simp

/-- What the driver promises about the requests, after any run and about its next step. -/
structure Lifecycle (past : List (Label n)) (s : State n) : Prop where
  /-- The free descriptors and the chains of the unfinished requests partition the pool. -/
  free : ∀ i, s.disk.free i = true ↔ ∀ p c, (s.procs p).pc.chain = some c → i ∉ c.toList
  three : ∀ p c, (s.procs p).pc.chain = some c → c.toList.Nodup
  disjoint : ∀ p q c c' i, (s.procs p).pc.chain = some c → (s.procs q).pc.chain = some c' →
    i ∈ c.toList → i ∈ c'.toList → p = q
  /-- No avail slot is overwritten before the device has taken it, and no used entry before
  the handler has consumed it. -/
  availKept : ∀ l s', Step s l s' → ∀ k < unread s.disk.devIdx s.disk.index,
    s'.disk.ring (slotOf NUM (s.disk.devIdx + k)) = s.disk.ring (slotOf NUM (s.disk.devIdx + k))
  usedKept : ∀ l s', Step s l s' → ∀ k < unread s.disk.usedIdx s.disk.idx,
    s'.disk.used (slotOf NUM (s.disk.usedIdx + k)) = s.disk.used (slotOf NUM (s.disk.usedIdx + k))
  /-- What was taken and consumed is what was published and completed, in order. -/
  taken : takenHeads past <+: submittedHeads past
  consumed : consumedIds past <+: completedHeads past
  /-- `virtio_disk_isr: buf is empty` is unreachable. -/
  found : s.isr ≠ .panicked
  /-- The handler's clearing steps are the only ones that reset `b->disk`, and the run goes
  through submission, completion, clearing and finish once for each request. -/
  clears : ∀ l s' b, Step s l s' → (l = .clear b ↔ s.busy b = true ∧ s'.busy b = false)
  requests : ∃ σ, Trace ReqStep (fun _ => .none) past σ
  /-- A failing `alloc3_desc` leaves the free descriptors as they were. -/
  failed : s.disk.alloc3Desc.1 = none → s.disk.alloc3Desc.2.free = s.disk.free

/-- Any number of processes, any interleaving with the device and the handler, and runs of
any length. -/
theorem lifecycle_of_run {past : List (Label n)} {s : State n}
    (run : Trace Step (init n) past s) : Lifecycle past s := by
  obtain ⟨q, σ, sound⟩ := sound_run run
  obtain ⟨base, owned, queued, delivered, spec, _⟩ := sound
  have small := queued.small owned
  have eight : NUM = 8 := rfl
  have late : q.late.length ≤ 1 := by
    rw [queued.late]
    split <;> simp
  constructor
  · intro i
    have taken := owned.taken i
    constructor
    · intro free p c has member
      have used := taken.mpr ⟨p, c, has, member⟩
      simp [free] at used
    · intro outside
      by_contra used
      obtain ⟨p, c, has, member⟩ := taken.mp (by simpa using used)
      exact outside p c has member
  · exact owned.nodup
  · exact owned.disjoint
  · intro l s' step k inside
    exact slot_kept queued.avail (by omega) step.slots.1 inside
  · intro l s' step k inside
    exact slot_kept queued.used (by rw [List.length_append]; omega) step.slots.2 inside
  · exact ⟨q.avail, delivered.avail.symm⟩
  · exact ⟨q.late ++ q.used, delivered.used.symm⟩
  · intro panicked
    have handler := queued.handler
    simp [HandlerOk, panicked] at handler
  · intro l s' b step
    exact step.clears queued b
  · exact ⟨σ, spec⟩
  · exact Disk.alloc3Desc_none_free

attribute [local instance] neZero_two in
/-- Two requests whose completions overtake each other, up to both finishes. -/
def crossedSchedule : List (Label 2) :=
  [.start 0 5 false, .run 0, .run 0, .run 0, .run 0, .run 0, .run 0, .submit 0 5 0,
    .run 0, .run 0, .run 0, .run 0, .run 0, .run 0,
    .start 1 6 true, .run 1, .run 1, .run 1, .run 1, .run 1, .run 1, .submit 1 6 3,
    .take 0, .take 3, .complete 3, .complete 0, .irq,
    .isr, .isr, .isr, .clear 6, .isr, .isr, .isr, .isr, .isr, .isr, .isr, .consume 3,
    .isr, .isr, .isr, .clear 5, .isr, .isr, .isr, .isr, .isr, .isr, .isr, .isr, .consume 0, .isr,
    .run 1, .run 1, .run 1, .finish 1 6,
    .schedule 0, .run 0, .run 0, .run 0, .run 0, .run 0, .run 0, .finish 0 5]

theorem lifecycle_of_crossed : ∃ s, Trace Step (init 2) crossedSchedule s ∧
    Lifecycle crossedSchedule s := by
  have evaluated : (replay crossedSchedule (init 2)).isSome = true := by
    decide +kernel
  obtain ⟨s, ran⟩ := Option.isSome_iff_exists.mp evaluated
  exact ⟨s, replay_trace ran, lifecycle_of_run (replay_trace ran)⟩

end HaloOS.Virtio
