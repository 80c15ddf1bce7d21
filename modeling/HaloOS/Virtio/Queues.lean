import HaloOS.Virtio.Chains
import Mathlib.Algebra.Order.BigOperators.Group.Finset
import Mathlib.Algebra.BigOperators.Group.Finset.Basic

/-! The two rings. Every request whose `b->disk` is still 1 has its head in exactly one
of three places: published in the avail ring, in the device's hands, or in the used ring
before the handler's `b->disk = 0`. Since each of them owns three descriptors there are
at most two, so that neither ring can run over. -/

namespace HaloOS.Virtio

open Lib

/-- The avail index has passed the request and `virt_disk_rw` waits for it. -/
def Pc.posted : Pc → Bool
  | .test _ | .sleepAcquire _ | .sleepRelease _ | .sleepChan _ | .sleepState _ | .sched _
  | .asleep _ | .woken _ | .sleepUnlock _ | .reacquire _ => true
  | _ => false

/-- `b->disk` is 1 and the device does not know yet. -/
def Pc.marked : Pc → Bool
  | .setInfo _ | .setRing _ | .bump _ => true
  | _ => false

/-- The handler has cleared `b->disk` and not yet advanced `used_idx`. -/
def IsrPc.late : IsrPc → Bool
  | .wake _ _ | .visit _ _ | .mark _ _ | .unlock _ _ | .advance => true
  | _ => false

/-- What the rings hold: published and not taken; cleared and not passed by `used_idx`;
completed and not cleared. -/
structure Queues where
  avail : List (Fin NUM) := []
  late : List (Fin NUM) := []
  used : List (Fin NUM) := []

/-- The labels that concern no ring. -/
def Label.quiet {n : ℕ} : Label n → Bool
  | .start _ _ _ | .run _ | .finish _ _ | .schedule _ | .irq | .isr => true
  | _ => false

/-- Both rings as FIFO queues. -/
inductive Queues.Step {n : ℕ} : Queues → Label n → Queues → Prop where
  | submit (q : Queues) (p : Fin n) (b : ℕ) (h : Fin NUM) :
      Step q (.submit p b h) { q with avail := q.avail ++ [h] }
  | take {q : Queues} {h : Fin NUM} {rest : List (Fin NUM)} (oldest : q.avail = h :: rest) :
      Step q (.take h) { q with avail := rest }
  | complete (q : Queues) (h : Fin NUM) : Step q (.complete h) { q with used := q.used ++ [h] }
  | clear {q : Queues} {h : Fin NUM} {rest : List (Fin NUM)} (b : ℕ) (passed : q.late = [])
      (oldest : q.used = h :: rest) : Step q (.clear b) { q with late := [h], used := rest }
  | consume {q : Queues} {h : Fin NUM} (oldest : q.late = [h]) :
      Step q (.consume h) { q with late := [] }
  | quiet (q : Queues) {l : Label n} (silent : l.quiet = true) : Step q l q

variable {n : ℕ}

/-- The head of a request the device or the handler still has to deal with. -/
def State.pendingHead (s : State n) (p : Fin n) : Option (Fin NUM) :=
  if (s.procs p).pc.posted = true ∧ s.busy (s.procs p).b = true then
    (s.procs p).pc.chain.map (·.head)
  else none

theorem State.pendingHead_some {s : State n} {p : Fin n} {h : Fin NUM}
    (pending : s.pendingHead p = some h) :
    (s.procs p).pc.posted = true ∧ s.busy (s.procs p).b = true ∧
      ∃ c, (s.procs p).pc.chain = some c ∧ c.head = h := by
  unfold pendingHead at pending
  split at pending
  · rename_i waits
    exact ⟨waits.1, waits.2, Option.map_eq_some_iff.mp pending⟩
  · cases pending

theorem State.pendingHead_congr {s s' : State n} {p : Fin n}
    (pc : (s'.procs p).pc = (s.procs p).pc)
    (busy : s'.busy (s'.procs p).b = s.busy (s.procs p).b) :
    s'.pendingHead p = s.pendingHead p := by
  simp only [pendingHead, pc, busy]

theorem State.pendingHead_none {s : State n} {p : Fin n}
    (away : (s.procs p).pc.posted = false) : s.pendingHead p = none := by
  simp [pendingHead, away]

theorem Pc.posted_active {pc : Pc} (posted : pc.posted = true) : pc ≠ .idle := by
  rintro rfl
  simp [Pc.posted] at posted

theorem Owned.pending_unique {s : State n} (owned : Owned s) {p q : Fin n} {h : Fin NUM}
    (left : s.pendingHead p = some h) (right : s.pendingHead q = some h) : p = q := by
  obtain ⟨_, _, c, has, rfl⟩ := State.pendingHead_some left
  obtain ⟨_, _, c', has', same⟩ := State.pendingHead_some right
  exact owned.head_unique has has' same.symm

/-- What each program point of the handler knows about the used ring. -/
def HandlerOk (s : State n) (used : List (Fin NUM)) : Prop :=
  match s.isr with
  | .readId => used ≠ []
  | .readBuf id => used.head? = some id
  | .clear b => ∃ id p, used.head? = some id ∧ s.pendingHead p = some id ∧ (s.procs p).b = b
  | .panicked => False
  | _ => True

/-- The invariant of the rings. -/
structure Queued (s : State n) (q : Queues) : Prop where
  avail : RingHolds WRAP s.disk.ring s.disk.devIdx s.disk.index q.avail
  used : RingHolds WRAP s.disk.used s.disk.usedIdx s.disk.idx (q.late ++ q.used)
  nodup : (q.avail ++ s.disk.inflight ++ q.used).Nodup
  pending : ∀ h, h ∈ q.avail ++ s.disk.inflight ++ q.used ↔ ∃ p, s.pendingHead p = some h
  late : q.late.length = if s.isr.late then 1 else 0
  placed : ∀ p c, (s.procs p).pc = .bump c → s.disk.ring (slotOf NUM s.disk.index) = c.head
  marked : ∀ p, (s.procs p).pc.marked = true → s.busy (s.procs p).b = true
  handler : HandlerOk s q.used

theorem queued_init (n : ℕ) : Queued (init n) {} where
  avail := RingHolds.empty WRAP _ (by simp [init, WRAP])
  used := RingHolds.empty WRAP _ (by simp [init, WRAP])
  nodup := by simp [init]
  pending := by simp [init, State.pendingHead, Pc.posted]
  late := by simp [init, IsrPc.late]
  placed := by simp [init]
  marked := by simp [init, Pc.marked]
  handler := by simp [init, HandlerOk]

/-- Every pending request owns three descriptors. -/
theorem Queued.bound {s : State n} {q : Queues} (owned : Owned s) (queued : Queued s q) :
    3 * (q.avail ++ s.disk.inflight ++ q.used).length ≤ NUM := by
  classical
  let owners : Set Chain := { c | ∃ p, (s.procs p).pc.chain = some c }
  have : Nonempty Chain := ⟨⟨0, 0, 0⟩⟩
  have chains : ∀ h ∈ q.avail ++ s.disk.inflight ++ q.used, ∃ c ∈ owners, c.head = h := by
    intro h member
    obtain ⟨p, pending⟩ := (queued.pending h).mp member
    obtain ⟨_, _, c, has, head⟩ := State.pendingHead_some pending
    exact ⟨c, ⟨p, has⟩, head⟩
  choose! chain held head using chains
  have three : ∀ h ∈ q.avail ++ s.disk.inflight ++ q.used, (chain h).toList.toFinset.card = 3 := by
    intro h member
    obtain ⟨p, has⟩ := held h member
    rw [List.toFinset_card_of_nodup (owned.nodup _ _ has)]
    rfl
  have apart : ∀ h ∈ (q.avail ++ s.disk.inflight ++ q.used).toFinset,
      ∀ h' ∈ (q.avail ++ s.disk.inflight ++ q.used).toFinset, h ≠ h' →
        Disjoint (chain h).toList.toFinset (chain h').toList.toFinset := by
    intro h left h' right differ
    obtain ⟨p, has⟩ := held h (List.mem_toFinset.mp left)
    obtain ⟨p', has'⟩ := held h' (List.mem_toFinset.mp right)
    rw [Finset.disjoint_left]
    intro i first second
    obtain rfl := owned.disjoint p p' _ _ i has has' (List.mem_toFinset.mp first)
      (List.mem_toFinset.mp second)
    have equal : chain h = chain h' := Option.some.inj (has.symm.trans has')
    refine differ ?_
    rw [← head h (List.mem_toFinset.mp left), ← head h' (List.mem_toFinset.mp right), equal]
  have total := Finset.card_biUnion apart
  rw [Finset.sum_const_nat fun h member => three h (List.mem_toFinset.mp member),
    List.toFinset_card_of_nodup queued.nodup] at total
  calc 3 * (q.avail ++ s.disk.inflight ++ q.used).length
      = (q.avail ++ s.disk.inflight ++ q.used).length * 3 := Nat.mul_comm _ _
    _ = _ := total.symm
    _ ≤ Fintype.card (Fin NUM) := Finset.card_le_univ _
    _ = NUM := Fintype.card_fin NUM

/-- So there are never more than two. -/
theorem Queued.small {s : State n} {q : Queues} (owned : Owned s) (queued : Queued s q) :
    q.avail.length + s.disk.inflight.length + q.used.length ≤ 2 := by
  have bound := queued.bound owned
  rw [List.length_append, List.length_append] at bound
  have eight : NUM = 8 := rfl
  omega

/-- The rings and their counters. -/
def Disk.rings (d : Disk) :=
  (d.ring, d.index, d.devIdx, d.used, d.idx, d.usedIdx, d.inflight)

theorem Disk.freeChain_rings (fuel : ℕ) (i : Fin NUM) (d : Disk) :
    (freeChain fuel i d).rings = d.rings := by
  have one : ∀ (i : Fin NUM) (d : Disk), (freeDesc i d).rings = d.rings := by
    intro i d
    unfold freeDesc
    split <;> rfl
  induction fuel generalizing i d with
  | zero => rfl
  | succ fuel ih =>
    unfold freeChain
    split
    · rw [ih, one]
    · exact one i d

/-- The frame of every step that touches neither ring. -/
theorem Queued.frame {s s' : State n} {q : Queues} (queued : Queued s q)
    (rings : s'.disk.rings = s.disk.rings)
    (heads : ∀ p, s'.pendingHead p = s.pendingHead p)
    (late : s'.isr.late = s.isr.late)
    (placed : ∀ p c, (s'.procs p).pc = .bump c → (s.procs p).pc = .bump c)
    (marked : ∀ p, (s'.procs p).pc.marked = true → s'.busy (s'.procs p).b = true)
    (handler : HandlerOk s' q.used) : Queued s' q := by
  simp only [Disk.rings, Prod.mk.injEq] at rings
  obtain ⟨ring, index, devIdx, used, idx, usedIdx, inflight⟩ := rings
  constructor
  · rw [ring, index, devIdx]
    exact queued.avail
  · rw [used, idx, usedIdx]
    exact queued.used
  · rw [inflight]
    exact queued.nodup
  · intro h
    simp only [inflight, heads]
    exact queued.pending h
  · rw [late]
    exact queued.late
  · intro p c at_
    rw [ring, index]
    exact queued.placed p c (placed p c at_)
  · exact marked
  · exact handler

/-- The handler's knowledge survives what others do. -/
theorem HandlerOk.mono {s s' : State n} {used used' : List (Fin NUM)} (ok : HandlerOk s used)
    (isr : s'.isr = s.isr)
    (heads : ∀ p h, s.pendingHead p = some h → s'.pendingHead p = some h)
    (b : ∀ p, (s.procs p).pc.posted = true → (s'.procs p).b = (s.procs p).b)
    (first : ∀ id, used.head? = some id → used'.head? = some id) : HandlerOk s' used' := by
  unfold HandlerOk at ok ⊢
  rw [isr]
  split at ok
  · obtain ⟨id, rest, rfl⟩ := List.exists_cons_of_ne_nil ok
    have kept := first id rfl
    rintro rfl
    cases kept
  · exact first _ ok
  · obtain ⟨id, p, oldest, pending, buffer⟩ := ok
    exact ⟨id, p, first id oldest, heads p id pending,
      by rw [b p (State.pendingHead_some pending).1]; exact buffer⟩
  · exact ok
  · trivial

theorem HandlerOk.congr {s s' : State n} {used : List (Fin NUM)} (ok : HandlerOk s used)
    (isr : s'.isr = s.isr) (heads : ∀ p, s'.pendingHead p = s.pendingHead p)
    (b : ∀ p, (s.procs p).pc.posted = true → (s'.procs p).b = (s.procs p).b) :
    HandlerOk s' used :=
  ok.mono isr (fun p h pending => by rw [heads]; exact pending) b fun _ same => same

/-- A step of `p` that keeps `b->disk` and the side of the submission it is on. -/
theorem State.pendingHead_update {s s' : State n} (p : Fin n) (r : Proc)
    (procs : s'.procs = Function.update s.procs p r) (busy : s'.busy = s.busy)
    (posted : r.pc.posted = (s.procs p).pc.posted) (chain : r.pc.posted = true →
      r.pc.chain = (s.procs p).pc.chain ∧ r.b = (s.procs p).b) (x : Fin n) :
    s'.pendingHead x = s.pendingHead x := by
  by_cases same : x = p
  · subst same
    simp only [State.pendingHead, procs, Function.update_self, busy, posted]
    by_cases waits : r.pc.posted = true
    · rw [(chain waits).1, (chain waits).2]
    · simp [← posted, waits]
  · exact State.pendingHead_congr (by rw [procs, Function.update_of_ne same])
      (by rw [procs, Function.update_of_ne same, busy])

/-- A step of `p` that touches neither ring nor `b->disk`. -/
theorem Queued.keep {s s' : State n} {q : Queues} (queued : Queued s q) (p : Fin n) (r : Proc)
    (procs : s'.procs = Function.update s.procs p r) (isr : s'.isr = s.isr)
    (rings : s'.disk.rings = s.disk.rings) (busy : s'.busy = s.busy)
    (posted : r.pc.posted = (s.procs p).pc.posted) (chain : r.pc.posted = true →
      r.pc.chain = (s.procs p).pc.chain ∧ r.b = (s.procs p).b)
    (moves : ∀ c, r.pc ≠ .bump c)
    (marked : r.pc.marked = true → (s.procs p).pc.marked = true ∧ r.b = (s.procs p).b) :
    Queued s' q := by
  have heads := State.pendingHead_update p r procs busy posted chain
  refine queued.frame rings heads (by rw [isr]) ?_ ?_ (queued.handler.congr isr heads ?_)
  · intro x c at_
    rw [procs] at at_
    by_cases same : x = p
    · subst same
      rw [Function.update_self] at at_
      exact absurd at_ (moves c)
    · rwa [Function.update_of_ne same] at at_
  · intro x
    rw [procs, busy]
    by_cases same : x = p
    · subst same
      rw [Function.update_self]
      intro now
      rw [(marked now).2]
      exact queued.marked x (marked now).1
    · rw [Function.update_of_ne same]
      exact queued.marked x
  · intro x waits
    rw [procs]
    by_cases same : x = p
    · subst same
      rw [Function.update_self]
      exact (chain (by rw [posted]; exact waits)).2
    · rw [Function.update_of_ne same]

/-- A step of the handler that touches neither ring nor `b->disk`. -/
theorem Queued.handle {s s' : State n} {q : Queues} (queued : Queued s q)
    (procs : ∀ p, (s'.procs p).pc = (s.procs p).pc ∧ (s'.procs p).b = (s.procs p).b)
    (rings : s'.disk.rings = s.disk.rings) (busy : s'.busy = s.busy)
    (late : s'.isr.late = s.isr.late) (handler : HandlerOk s' q.used) : Queued s' q := by
  refine queued.frame rings ?_ late ?_ ?_ handler
  · intro p
    exact State.pendingHead_congr (procs p).1 (by rw [(procs p).2, busy])
  · intro p c at_
    rwa [(procs p).1] at at_
  · intro p
    rw [(procs p).1, (procs p).2, busy]
    exact queued.marked p

/-- Only one process is inside the lock. -/
theorem Base.locked_unique {s : State n} (base : Base s) {p x : Fin n}
    (left : (s.procs p).pc.locked = true) (right : (s.procs x).pc.locked = true) : x = p := by
  have one := (base.disklock p).mpr left
  have two := (base.disklock x).mpr right
  rw [one] at two
  exact (Option.some.inj two).symm

theorem State.pendingHead_setDisk {s : State n} (base : Base s) {p : Fin n} {c : Chain}
    (at_ : (s.procs p).pc = .setDisk c) (x : Fin n) :
    ({ s with busy := Function.update s.busy (s.procs p).b true }.goto p
      (.setInfo c)).pendingHead x = s.pendingHead x := by
  by_cases same : x = p
  · subst same
    rw [State.pendingHead_none (by simp [State.goto, State.setProc, Pc.posted]),
      State.pendingHead_none (by simp [at_, Pc.posted])]
  · by_cases posted : (s.procs x).pc.posted = true
    · have apart : (s.procs x).b ≠ (s.procs p).b :=
        fun equal => same (base.buffers x p (Pc.posted_active posted) (by simp [at_]) equal)
      exact State.pendingHead_congr (by simp [State.goto, State.setProc, same])
        (by simp [State.goto, State.setProc, same, apart])
    · rw [State.pendingHead_none (by simpa [State.goto, State.setProc, same] using posted),
        State.pendingHead_none (by simpa using posted)]

/-- `b->disk = 1`. -/
theorem Queued.setDisk {s : State n} {q : Queues} (base : Base s) (queued : Queued s q)
    {p : Fin n} {c : Chain} (at_ : (s.procs p).pc = .setDisk c) :
    Queued ({ s with busy := Function.update s.busy (s.procs p).b true }.goto p (.setInfo c))
      q := by
  have heads := State.pendingHead_setDisk base at_
  refine queued.frame rfl heads rfl ?_ ?_ (queued.handler.congr rfl heads ?_)
  · intro x c' bumping
    by_cases same : x = p
    · subst same
      simp [State.goto, State.setProc] at bumping
    · simpa [State.goto, State.setProc, same] using bumping
  · intro x marked
    by_cases same : x = p
    · subst same
      simp [State.goto, State.setProc]
    · have before := queued.marked x (by simpa [State.goto, State.setProc, same] using marked)
      by_cases equal : (s.procs x).b = (s.procs p).b <;>
        simp [State.goto, State.setProc, same, equal, before]
  · intro x _
    by_cases same : x = p
    · subst same
      simp [State.goto, State.setProc]
    · simp [State.goto, State.setProc, same]

/-- The avail slot is written behind everything the device has yet to take. -/
theorem Queued.setRing {s : State n} {q : Queues} (base : Base s) (owned : Owned s)
    (queued : Queued s q) {p : Fin n} {c : Chain} (at_ : (s.procs p).pc = .setRing c) :
    Queued ({ s with disk := s.disk.setRing c }.goto p (.bump c)) q := by
  have room : q.avail.length < NUM := by
    have small := queued.small owned
    have eight : NUM = 8 := rfl
    omega
  have heads : ∀ x, ({ s with disk := s.disk.setRing c }.goto p (.bump c)).pendingHead x =
      s.pendingHead x :=
    State.pendingHead_update p _ rfl rfl (by simp [at_, Pc.posted]) (by simp [Pc.posted])
  constructor
  · exact queued.avail.write_ahead num_dvd_wrap room c.head
  · exact queued.used
  · exact queued.nodup
  · intro h
    simp only [heads]
    exact queued.pending h
  · exact queued.late
  · intro x c' bumping
    by_cases same : x = p
    · subst same
      obtain rfl : c = c' := by simpa [State.goto, State.setProc] using bumping
      simp [State.goto, State.setProc, Disk.setRing]
    · have other : (s.procs x).pc = .bump c' := by
        simpa [State.goto, State.setProc, same] using bumping
      exact absurd (base.locked_unique (p := p) (by simp [at_, Pc.locked])
        (by simp [other, Pc.locked])) same
  · intro x marked
    by_cases same : x = p
    · subst same
      simpa [State.goto, State.setProc] using queued.marked x (by simp [at_, Pc.marked])
    · have before := queued.marked x (by simpa [State.goto, State.setProc, same] using marked)
      simpa [State.goto, State.setProc, same] using before
  · refine queued.handler.congr rfl heads ?_
    intro x _
    by_cases same : x = p
    · subst same
      simp [State.goto, State.setProc]
    · simp [State.goto, State.setProc, same]

/-- The avail index passes the request: its head is published. -/
theorem Queued.submit {s : State n} {q : Queues} (base : Base s) (owned : Owned s)
    (queued : Queued s q) {p : Fin n} {c : Chain} (at_ : (s.procs p).pc = .bump c) :
    Queued ({ s with disk := s.disk.bump }.goto p (.test c))
      { q with avail := q.avail ++ [c.head] } := by
  have own : (s.procs p).pc.chain = some c := by simp [at_, Pc.chain]
  have fresh : ¬ ∃ x, s.pendingHead x = some c.head := by
    rintro ⟨x, pending⟩
    obtain ⟨posted, _, c', has, head⟩ := State.pendingHead_some pending
    obtain rfl := owned.head_unique has own head
    simp [at_, Pc.posted] at posted
  have mine : ({ s with disk := s.disk.bump }.goto p (.test c)).pendingHead p = some c.head := by
    have marked := queued.marked p (by simp [at_, Pc.marked])
    simp [State.pendingHead, State.goto, State.setProc, Pc.posted, Pc.chain, marked]
  have others : ∀ x, x ≠ p →
      ({ s with disk := s.disk.bump }.goto p (.test c)).pendingHead x = s.pendingHead x := by
    intro x other
    exact State.pendingHead_congr (by simp [State.goto, State.setProc, other])
      (by simp [State.goto, State.setProc, other])
  have kept : ∀ x h, s.pendingHead x = some h →
      ({ s with disk := s.disk.bump }.goto p (.test c)).pendingHead x = some h := by
    intro x h pending
    have other : x ≠ p := by
      rintro rfl
      rw [State.pendingHead_none (by simp [at_, Pc.posted])] at pending
      cases pending
    rw [others x other]
    exact pending
  have order : (q.avail ++ [c.head] ++ s.disk.inflight ++ q.used).Perm
      (c.head :: (q.avail ++ s.disk.inflight ++ q.used)) := by
    simp
  constructor
  · exact queued.avail.publish num_dvd_wrap (queued.placed p c at_)
  · exact queued.used
  · refine order.nodup_iff.mpr (List.nodup_cons.mpr ⟨?_, queued.nodup⟩)
    rw [queued.pending]
    exact fresh
  · intro h
    refine order.mem_iff.trans ?_
    rw [List.mem_cons, queued.pending]
    constructor
    · rintro (rfl | ⟨x, pending⟩)
      · exact ⟨p, mine⟩
      · exact ⟨x, kept x h pending⟩
    · rintro ⟨x, pending⟩
      by_cases same : x = p
      · subst same
        rw [mine] at pending
        exact .inl (Option.some.inj pending).symm
      · rw [others x same] at pending
        exact .inr ⟨x, pending⟩
  · exact queued.late
  · intro x c' bumping
    by_cases same : x = p
    · subst same
      simp [State.goto, State.setProc] at bumping
    · have other : (s.procs x).pc = .bump c' := by
        simpa [State.goto, State.setProc, same] using bumping
      exact absurd (base.locked_unique (p := p) (by simp [at_, Pc.locked])
        (by simp [other, Pc.locked])) same
  · intro x marked
    by_cases same : x = p
    · subst same
      simp [State.goto, State.setProc, Pc.marked] at marked
    · have before := queued.marked x (by simpa [State.goto, State.setProc, same] using marked)
      simpa [State.goto, State.setProc, same] using before
  · refine queued.handler.mono rfl kept ?_ (fun _ same => same)
    intro x _
    by_cases same : x = p
    · subst same
      simp [State.goto, State.setProc]
    · simp [State.goto, State.setProc, same]

/-- The device takes the oldest published head. -/
theorem Queued.take {s : State n} {q : Queues} (owned : Owned s) (queued : Queued s q)
    (published : s.disk.devIdx ≠ s.disk.index) :
    ∃ rest, q.avail = s.disk.ring (slotOf NUM s.disk.devIdx) :: rest ∧
      Queued { s with disk := s.disk.take } { q with avail := rest } := by
  have small := queued.small owned
  have nonempty : q.avail ≠ [] := by
    intro empty
    refine published ((queued.avail.eq_iff ?_).mpr empty)
    simp only [WRAP]
    omega
  obtain ⟨h, rest, split⟩ := List.exists_cons_of_ne_nil nonempty
  have holds := queued.avail
  rw [split] at holds
  obtain ⟨slot, later⟩ := holds.pop num_dvd_wrap
  have order : (rest ++ (s.disk.inflight ++ [h]) ++ q.used).Perm
      (q.avail ++ s.disk.inflight ++ q.used) := by
    have moved : (rest ++ s.disk.inflight ++ h :: q.used).Perm
        (h :: (rest ++ s.disk.inflight ++ q.used)) := List.perm_middle
    simpa [split] using moved
  refine ⟨rest, by rw [slot]; exact split, ?_⟩
  constructor
  · exact later
  · exact queued.used
  · simp only [Disk.take, slot]
    exact order.nodup_iff.mpr queued.nodup
  · intro x
    simp only [Disk.take, slot]
    exact order.mem_iff.trans (queued.pending x)
  · exact queued.late
  · exact queued.placed
  · exact queued.marked
  · exact queued.handler.congr rfl (fun _ => rfl) fun _ _ => rfl

theorem Disk.complete_rings (d : Disk) (h : Fin NUM) : (d.complete h).rings =
    (d.ring, d.index, d.devIdx, Function.update d.used (slotOf NUM d.idx) h,
      (d.idx + 1) % WRAP, d.usedIdx, d.inflight.erase h) := by
  simp only [Disk.rings, Disk.complete, Disk.storeStatus]
  split <;> rfl

/-- The device's head lands behind everything the handler has yet to consume. -/
theorem Queued.complete {s : State n} {q : Queues} (owned : Owned s) (queued : Queued s q)
    {h : Fin NUM} (taken : h ∈ s.disk.inflight) :
    Queued { s with disk := s.disk.complete h } { q with used := q.used ++ [h] } := by
  have room : (q.late ++ q.used).length < NUM := by
    have small := queued.small owned
    have late : q.late.length ≤ 1 := by
      rw [queued.late]
      split <;> simp
    have eight : NUM = 8 := rfl
    rw [List.length_append]
    omega
  have order : (q.avail ++ s.disk.inflight.erase h ++ (q.used ++ [h])).Perm
      (q.avail ++ s.disk.inflight ++ q.used) := by
    have moved : (q.avail ++ s.disk.inflight.erase h ++ (q.used ++ [h])).Perm
        (q.avail ++ (h :: s.disk.inflight.erase h) ++ q.used) := by
      have last : (q.avail ++ s.disk.inflight.erase h ++ q.used ++ [h]).Perm
          (h :: (q.avail ++ s.disk.inflight.erase h ++ q.used)) := List.perm_append_singleton ..
      have first : (q.avail ++ h :: (s.disk.inflight.erase h ++ q.used)).Perm
          (h :: (q.avail ++ (s.disk.inflight.erase h ++ q.used))) := List.perm_middle
      simpa using last.trans (by simpa using first.symm)
    exact moved.trans (((List.perm_cons_erase taken).symm.append_left q.avail).append_right q.used)
  have rings := s.disk.complete_rings h
  simp only [Disk.rings, Prod.mk.injEq] at rings
  obtain ⟨ring, index, devIdx, used, idx, usedIdx, inflight⟩ := rings
  constructor
  · simp only [ring, index, devIdx]
    exact queued.avail
  · simp only [used, idx, usedIdx, ← List.append_assoc]
    exact queued.used.push num_dvd_wrap room h
  · simp only [inflight]
    exact order.nodup_iff.mpr queued.nodup
  · intro x
    simp only [inflight]
    exact order.mem_iff.trans (queued.pending x)
  · exact queued.late
  · intro p c at_
    simp only [ring, index]
    exact queued.placed p c at_
  · exact queued.marked
  · refine queued.handler.mono rfl (fun _ _ pending => pending) (fun _ _ => rfl) ?_
    intro id oldest
    simp [List.head?_append, oldest]

/-- `b->disk = 0` ends the waiting of the request on `b` and of no other. -/
theorem State.pendingHead_clear {s : State n} (base : Base s) {p : Fin n} {b : ℕ}
    (posted : (s.procs p).pc.posted = true) (buffer : (s.procs p).b = b) :
    ({ s with busy := Function.update s.busy b false, isr := .wake b 0 } :
        State n).pendingHead p = none ∧
      ∀ x, x ≠ p → ({ s with busy := Function.update s.busy b false, isr := .wake b 0 } :
        State n).pendingHead x = s.pendingHead x := by
  constructor
  · simp [State.pendingHead, buffer]
  · intro x other
    by_cases waits : (s.procs x).pc.posted = true
    · have apart : (s.procs x).b ≠ b := by
        rw [← buffer]
        exact fun same => other (base.buffers x p (Pc.posted_active waits)
          (Pc.posted_active posted) same)
      exact State.pendingHead_congr rfl (by simp [apart])
    · rw [State.pendingHead_none (by simpa using waits), State.pendingHead_none (by simpa using waits)]

/-- The handler clears the buffer of the oldest completed request. -/
theorem Queued.clear {s : State n} {q : Queues} (base : Base s) (owned : Owned s)
    (queued : Queued s q) {b : ℕ} (at_ : s.isr = .clear b) :
    ∃ id rest, q.late = [] ∧ q.used = id :: rest ∧
      Queued { s with busy := Function.update s.busy b false, isr := .wake b 0 }
        { q with late := [id], used := rest } := by
  have known := queued.handler
  simp only [HandlerOk, at_] at known
  obtain ⟨id, p, oldest, pending, buffer⟩ := known
  obtain ⟨rest, split⟩ := List.head?_eq_some_iff.mp oldest
  have empty : q.late = [] := by
    have length := queued.late
    simpa [at_, IsrPc.late] using length
  obtain ⟨posted, _, _⟩ := State.pendingHead_some pending
  obtain ⟨mine, others⟩ := State.pendingHead_clear base posted buffer
  have order : (q.avail ++ s.disk.inflight ++ q.used).Perm
      (id :: (q.avail ++ s.disk.inflight ++ rest)) := by
    rw [split]
    exact List.perm_middle
  have nodup := order.nodup_iff.mp queued.nodup
  rw [List.nodup_cons] at nodup
  refine ⟨id, rest, empty, split, ?_⟩
  constructor
  · exact queued.avail
  · have holds := queued.used
    rwa [empty, split] at holds
  · exact nodup.2
  · intro h
    have before := (order.mem_iff (a := h)).symm.trans (queued.pending h)
    rw [List.mem_cons] at before
    constructor
    · intro member
      obtain ⟨x, has⟩ := before.mp (.inr member)
      have other : x ≠ p := by
        rintro rfl
        rw [pending] at has
        obtain rfl := Option.some.inj has
        exact nodup.1 member
      exact ⟨x, by rw [others x other]; exact has⟩
    · rintro ⟨x, has⟩
      have other : x ≠ p := by
        rintro rfl
        rw [mine] at has
        cases has
      rw [others x other] at has
      rcases before.mpr ⟨x, has⟩ with rfl | member
      · exact absurd (owned.pending_unique has pending) other
      · exact member
  · rfl
  · exact queued.placed
  · intro x marked
    have active : (s.procs x).pc ≠ .idle := by
      intro idle
      simp [idle, Pc.marked] at marked
    have apart : (s.procs x).b ≠ b := by
      rw [← buffer]
      intro same
      obtain rfl := base.buffers x p active (Pc.posted_active posted) same
      cases pc : (s.procs x).pc <;> simp [pc, Pc.marked, Pc.posted] at marked posted
    simpa [apart] using queued.marked x marked
  · simp [HandlerOk]

/-- The handler passes the used entry it has dealt with. -/
theorem Queued.advance {s : State n} {q : Queues} (queued : Queued s q) (at_ : s.isr = .advance) :
    q.late = [s.disk.used (slotOf NUM s.disk.usedIdx)] ∧
      Queued { s with
        isr := .test
        disk := { s.disk with usedIdx := (s.disk.usedIdx + 1) % WRAP } }
        { q with late := [] } := by
  have length : q.late.length = 1 := by simpa [at_, IsrPc.late] using queued.late
  obtain ⟨id, single⟩ := List.length_eq_one_iff.mp length
  have holds := queued.used
  rw [single, List.singleton_append] at holds
  obtain ⟨slot, later⟩ := holds.pop num_dvd_wrap
  refine ⟨by rw [slot]; exact single, ?_⟩
  exact ⟨queued.avail, later, queued.nodup, queued.pending, rfl, queued.placed, queued.marked,
    by simp [HandlerOk]⟩

/-- A request that finds `b->disk == 0` was pending no more. -/
theorem Queued.testDone {s : State n} {q : Queues} (queued : Queued s q) {p : Fin n} {c : Chain}
    (at_ : (s.procs p).pc = .test c) (done : s.busy (s.procs p).b = false) :
    Queued (s.goto p (.clearInfo c)) q := by
  have heads : ∀ x, (s.goto p (.clearInfo c)).pendingHead x = s.pendingHead x := by
    intro x
    by_cases same : x = p
    · subst same
      simp [State.pendingHead, State.goto, State.setProc, Pc.posted, done]
    · exact State.pendingHead_congr (by simp [State.goto, State.setProc, same])
        (by simp [State.goto, State.setProc, same])
  refine queued.frame rfl heads rfl ?_ ?_ (queued.handler.congr rfl heads ?_)
  · intro x c' bumping
    by_cases same : x = p
    · subst same
      simp [State.goto, State.setProc] at bumping
    · simpa [State.goto, State.setProc, same] using bumping
  · intro x marked
    by_cases same : x = p
    · subst same
      simp [State.goto, State.setProc, Pc.marked] at marked
    · have before := queued.marked x (by simpa [State.goto, State.setProc, same] using marked)
      simpa [State.goto, State.setProc, same] using before
  · intro x _
    by_cases same : x = p
    · subst same
      simp [State.goto, State.setProc]
    · simp [State.goto, State.setProc, same]

/-- `used_idx` meets `used->idx` exactly when no completed request waits. -/
theorem Queued.used_nil_iff {s : State n} {q : Queues} (owned : Owned s) (queued : Queued s q)
    (at_ : s.isr = .test) : s.disk.usedIdx = s.disk.idx ↔ q.used = [] := by
  have empty : q.late = [] := by simpa [at_, IsrPc.late] using queued.late
  have holds := queued.used
  rw [empty, List.nil_append] at holds
  refine holds.eq_iff ?_
  have small := queued.small owned
  simp only [WRAP]
  omega

theorem Queued.oldest_used {s : State n} {q : Queues} (queued : Queued s q)
    (at_ : s.isr = .readId) : q.used.head? = some (s.disk.used (slotOf NUM s.disk.usedIdx)) := by
  have known := queued.handler
  simp only [HandlerOk, at_] at known
  obtain ⟨id, rest, split⟩ := List.exists_cons_of_ne_nil known
  have empty : q.late = [] := by simpa [at_, IsrPc.late] using queued.late
  have holds := queued.used
  rw [empty, split, List.nil_append] at holds
  rw [(holds.pop num_dvd_wrap).1, split]
  rfl

/-- The id the handler has read is the head of a pending request, which `disk.info` names. -/
theorem Queued.oldest_known {s : State n} {q : Queues} (owned : Owned s) (queued : Queued s q)
    {id : Fin NUM} (at_ : s.isr = .readBuf id) :
    ∃ p, q.used.head? = some id ∧ s.pendingHead p = some id ∧
      (s.disk.info id).b = some (s.procs p).b := by
  have oldest := queued.handler
  simp only [HandlerOk, at_] at oldest
  have member : id ∈ q.avail ++ s.disk.inflight ++ q.used :=
    List.mem_append_right _ (List.mem_of_mem_head? oldest)
  obtain ⟨p, pending⟩ := (queued.pending id).mp member
  obtain ⟨posted, _, c, has, rfl⟩ := State.pendingHead_some pending
  have known : (s.procs p).pc.known = true := by
    cases pc : (s.procs p).pc <;> simp [pc, Pc.posted] at posted <;> simp [Pc.known, Pc.chain]
  exact ⟨p, oldest, pending, owned.known p c has known⟩

/-- Every step of the system is a step of the two queues. -/
theorem Queued.step {s s' : State n} {l : Label n} {q : Queues} (base : Base s) (owned : Owned s)
    (queued : Queued s q) (step : Step s l s') : ∃ q', Queues.Step q l q' ∧ Queued s' q' := by
  cases step with
  | @setDisk p c at_ free => exact ⟨q, .quiet q rfl, queued.setDisk base at_⟩
  | @setRing p c at_ free => exact ⟨q, .quiet q rfl, queued.setRing base owned at_⟩
  | @bump p c at_ free => exact ⟨_, .submit q p _ _, queued.submit base owned at_⟩
  | take published =>
    obtain ⟨rest, oldest, holds⟩ := queued.take owned published
    exact ⟨_, .take oldest, holds⟩
  | complete taken => exact ⟨_, .complete q _, queued.complete owned taken⟩
  | clear at_ =>
    obtain ⟨id, rest, empty, oldest, holds⟩ := queued.clear base owned at_
    exact ⟨_, .clear _ empty oldest, holds⟩
  | advance at_ =>
    obtain ⟨oldest, holds⟩ := queued.advance at_
    exact ⟨_, .consume oldest, holds⟩
  | @start p b write at_ running free distinct =>
    exact ⟨q, .quiet q rfl, queued.keep p _ rfl rfl rfl rfl (by simp [at_, Pc.posted])
      (by simp [Pc.posted]) (by simp) (by simp [Pc.marked])⟩
  | allocRetry at_ free failed =>
    obtain ⟨desc, disk, _⟩ := Disk.alloc3Desc_none failed
    rw [disk]
    exact ⟨q, .quiet q rfl, queued.handle (fun _ => ⟨rfl, rfl⟩) rfl rfl rfl
      (queued.handler.congr rfl (fun _ => rfl) fun _ _ => rfl)⟩
  | @alloc p c at_ free found =>
    obtain ⟨_, _, disk⟩ := Disk.alloc3Desc_some found
    rw [disk]
    exact ⟨q, .quiet q rfl, queued.keep p _ rfl rfl rfl rfl (by simp [at_, Pc.posted])
      (by simp [Pc.posted]) (by simp) (by simp [Pc.marked])⟩
  | @freeChain p c at_ free =>
    have own : (s.procs p).pc.chain = some c := by simp [at_, Pc.chain]
    obtain ⟨desc, disk, _⟩ := Disk.freeChain_linked
      (owned.linked p c own (by simp [at_, Pc.linked, Pc.chain])) (owned.nodup p c own)
      (fun i member => (owned.taken i).mpr ⟨p, c, own, member⟩)
    rw [disk]
    exact ⟨q, .quiet q rfl, queued.keep p _ rfl rfl rfl rfl (by simp [at_, Pc.posted])
      (by simp [Pc.posted]) (by simp) (by simp [Pc.marked])⟩
  | @acquire p at_ free unlocked | @release p at_ free =>
    exact ⟨q, .quiet q rfl, queued.keep p _ rfl rfl rfl rfl (by simp [at_, Pc.posted])
      (by simp [Pc.posted]) (by simp) (by simp [Pc.marked])⟩
  | @fill p c at_ free | @clearInfo p c at_ free =>
    exact ⟨q, .quiet q rfl, queued.keep p _ rfl rfl rfl rfl (by simp [at_, Pc.posted])
      (by simp [Pc.posted]) (by simp) (by simp [Pc.marked])⟩
  | @setInfo p c at_ free =>
    exact ⟨q, .quiet q rfl, queued.keep p _ rfl rfl rfl rfl (by simp [at_, Pc.posted])
      (by simp [Pc.posted]) (by simp) (by simp [at_, Pc.marked])⟩
  | @testBusy p c at_ free waiting | @sleepAcquire p c at_ free unlocked
  | @sleepRelease p c at_ free | @sleepChan p c at_ free | @sleepState p c at_ free
  | @sched p c at_ free | @schedule p c at_ runnable unlocked | @woken p c at_ free
  | @sleepUnlock p c at_ free | @reacquire p c at_ free unlocked =>
    exact ⟨q, .quiet q rfl, queued.keep p _ rfl rfl rfl rfl (by simp [at_, Pc.posted])
      (by simp [at_, Pc.chain]) (by simp) (by simp [Pc.marked])⟩
  | @testDone p c at_ free done => exact ⟨q, .quiet q rfl, queued.testDone at_ done⟩
  | isrTest at_ more =>
    refine ⟨q, .quiet q rfl, queued.handle (fun _ => ⟨rfl, rfl⟩) rfl rfl
      (by simp [at_, IsrPc.late]) ?_⟩
    simp only [HandlerOk]
    exact fun empty => more ((queued.used_nil_iff owned at_).mpr empty)
  | readId at_ =>
    refine ⟨q, .quiet q rfl, queued.handle (fun _ => ⟨rfl, rfl⟩) rfl rfl
      (by simp [at_, IsrPc.late]) ?_⟩
    simp only [HandlerOk]
    exact queued.oldest_used at_
  | @readBuf id b at_ found =>
    refine ⟨q, .quiet q rfl, queued.handle (fun _ => ⟨rfl, rfl⟩) rfl rfl
      (by simp [at_, IsrPc.late]) ?_⟩
    obtain ⟨p, oldest, pending, known⟩ := queued.oldest_known owned at_
    rw [known] at found
    simp only [HandlerOk]
    exact ⟨id, p, oldest, pending, Option.some.inj found⟩
  | isrPanic at_ empty =>
    obtain ⟨p, _, _, known⟩ := queued.oldest_known owned at_
    simp [known] at empty
  | irq at_ interrupted | isrReturn at_ none_ =>
    exact ⟨q, .quiet q rfl, queued.handle (fun _ => ⟨rfl, rfl⟩) rfl rfl
      (by simp [at_, IsrPc.late]) (by simp [HandlerOk])⟩
  | wakeSkip at_ self | visitSleeper at_ sleeping | visitOther at_ awake | wakeDone at_ last =>
    exact ⟨q, .quiet q rfl, queued.handle (fun _ => ⟨rfl, rfl⟩) rfl rfl
      (by simp [at_, IsrPc.late]) (by simp [HandlerOk])⟩
  | @wakeAcquire b x at_ other unlocked | @mark b x at_ | @wakeRelease b x at_ =>
    refine ⟨q, .quiet q rfl, queued.handle ?_ rfl rfl (by simp [at_, IsrPc.late])
      (by simp [HandlerOk])⟩
    intro p
    by_cases same : p = x
    · subst same
      simp [State.setProc]
    · simp [State.setProc, same]

end HaloOS.Virtio
