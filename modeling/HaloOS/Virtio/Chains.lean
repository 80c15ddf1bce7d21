import HaloOS.Virtio.Base
import HaloOS.Virtio.Pool

/-! Who owns which descriptor. The chains of the requests in progress are disjoint,
together they are exactly the descriptors that are not free, and each chain is linked
and known to the handler for as long as it has to be. -/

namespace HaloOS.Virtio

open Lib

/-- The descriptors a request has taken and not given back. -/
def Pc.chain : Pc → Option Chain
  | .fill c | .setDisk c | .setInfo c | .setRing c | .bump c | .test c | .sleepAcquire c
  | .sleepRelease c | .sleepChan c | .sleepState c | .sched c | .asleep c | .woken c
  | .sleepUnlock c | .reacquire c | .clearInfo c | .freeChain c => some c
  | _ => none

/-- The descriptors are filled in. -/
def Pc.linked : Pc → Bool
  | .fill _ => false
  | pc => pc.chain.isSome

/-- `disk.info` names the buffer. -/
def Pc.known : Pc → Bool
  | .fill _ | .setDisk _ | .setInfo _ | .freeChain _ => false
  | pc => pc.chain.isSome

variable {n : ℕ}

/-- The invariant of the descriptor pool. -/
structure Owned (s : State n) : Prop where
  nodup : ∀ p c, (s.procs p).pc.chain = some c → c.toList.Nodup
  disjoint : ∀ p q c c' i, (s.procs p).pc.chain = some c → (s.procs q).pc.chain = some c' →
    i ∈ c.toList → i ∈ c'.toList → p = q
  taken : ∀ i, s.disk.free i = false ↔ ∃ p c, (s.procs p).pc.chain = some c ∧ i ∈ c.toList
  linked : ∀ p c, (s.procs p).pc.chain = some c → (s.procs p).pc.linked = true → s.disk.Linked c
  known : ∀ p c, (s.procs p).pc.chain = some c → (s.procs p).pc.known = true →
    (s.disk.info c.head).b = some (s.procs p).b

theorem owned_init (n : ℕ) : Owned (init n) where
  nodup := by simp [init, Pc.chain]
  disjoint := by simp [init, Pc.chain]
  taken := by simp [init, Pc.chain]
  linked := by simp [init, Pc.chain]
  known := by simp [init, Pc.chain]

/-- Two requests with the same head descriptor are one. -/
theorem Owned.head_unique {s : State n} (owned : Owned s) {p q : Fin n} {c c' : Chain}
    (left : (s.procs p).pc.chain = some c) (right : (s.procs q).pc.chain = some c')
    (same : c.head = c'.head) : p = q :=
  owned.disjoint p q c c' c.head left right (by simp) (by simp [same])

theorem Disk.Linked.congr {d d' : Disk} {c : Chain} (linked : d.Linked c)
    (same : ∀ i ∈ c.toList, d'.desc i = d.desc i) : d'.Linked c where
  head := by rw [same c.head (by simp)]; exact linked.head
  toData := by rw [same c.head (by simp)]; exact linked.toData
  data := by rw [same c.data (by simp)]; exact linked.data
  toStatus := by rw [same c.data (by simp)]; exact linked.toStatus
  status := by rw [same c.status (by simp)]; exact linked.status

/-- The frame of every step that neither takes nor returns descriptors. -/
theorem Owned.frame {s s' : State n} (owned : Owned s) (free : s'.disk.free = s.disk.free)
    (chain : ∀ p, (s'.procs p).pc.chain = (s.procs p).pc.chain)
    (linked : ∀ p c, (s.procs p).pc.chain = some c → (s'.procs p).pc.linked = true →
      s'.disk.Linked c)
    (known : ∀ p c, (s.procs p).pc.chain = some c → (s'.procs p).pc.known = true →
      (s'.disk.info c.head).b = some (s'.procs p).b) : Owned s' where
  nodup := by
    intro p
    rw [chain]
    exact owned.nodup p
  disjoint := by
    intro p q
    rw [chain, chain]
    exact owned.disjoint p q
  taken := by
    intro i
    simp only [free, chain]
    exact owned.taken i
  linked := by
    intro p
    rw [chain]
    exact linked p
  known := by
    intro p
    rw [chain]
    exact known p

/-- A step of `p` that leaves descriptors and `disk.info` alone. -/
theorem Owned.keep {s s' : State n} (owned : Owned s) (p : Fin n) (r : Proc)
    (procs : s'.procs = Function.update s.procs p r) (free : s'.disk.free = s.disk.free)
    (desc : s'.disk.desc = s.disk.desc) (info : s'.disk.info = s.disk.info)
    (b : r.pc.known = true → r.b = (s.procs p).b)
    (chain : r.pc.chain = (s.procs p).pc.chain) (linked : r.pc.linked = (s.procs p).pc.linked)
    (known : r.pc.known = (s.procs p).pc.known) : Owned s' := by
  refine owned.frame free ?_ ?_ ?_
  · intro q
    rw [procs]
    by_cases eq : q = p
    · subst eq
      simpa using chain
    · rw [Function.update_of_ne eq]
  · intro q c has
    rw [procs]
    by_cases eq : q = p
    · subst eq
      rw [Function.update_self]
      intro now
      exact (owned.linked q c has (linked ▸ now)).congr (by simp [desc])
    · rw [Function.update_of_ne eq]
      intro now
      exact (owned.linked q c has now).congr (by simp [desc])
  · intro q c has
    rw [procs, info]
    by_cases eq : q = p
    · subst eq
      rw [Function.update_self]
      intro now
      rw [b now]
      exact owned.known q c has (known ▸ now)
    · rw [Function.update_of_ne eq]
      exact owned.known q c has

/-- A step of the device or the handler. -/
theorem Owned.handle {s s' : State n} (owned : Owned s)
    (procs : ∀ p, (s'.procs p).pc = (s.procs p).pc ∧ (s'.procs p).b = (s.procs p).b)
    (free : s'.disk.free = s.disk.free) (desc : s'.disk.desc = s.disk.desc)
    (info : ∀ i, (s'.disk.info i).b = (s.disk.info i).b) : Owned s' := by
  refine owned.frame free (fun p => by rw [(procs p).1]) ?_ ?_
  · intro p c has
    rw [(procs p).1]
    intro now
    exact (owned.linked p c has now).congr (by simp [desc])
  · intro p c has
    rw [(procs p).1, (procs p).2, info]
    exact owned.known p c has

theorem Disk.complete_info_b (d : Disk) (h i : Fin NUM) :
    ((d.complete h).info i).b = (d.info i).b := by
  simp only [Disk.complete, Disk.storeStatus]
  split
  · rename_i j _
    by_cases same : i = j
    · subst same
      simp [Disk.setInfo]
    · simp [Disk.setInfo, same]
  · rfl

theorem Disk.complete_free (d : Disk) (h : Fin NUM) : (d.complete h).free = d.free := by
  simp only [Disk.complete, Disk.storeStatus]
  split <;> rfl

theorem Disk.complete_desc (d : Disk) (h : Fin NUM) : (d.complete h).desc = d.desc := by
  simp only [Disk.complete, Disk.storeStatus]
  split <;> rfl

theorem Owned.alloc {s : State n} (owned : Owned s) {p : Fin n} {c : Chain}
    (at_ : (s.procs p).pc = .alloc) (found : s.disk.alloc3Desc.1 = some c) :
    Owned ({ s with disk := s.disk.alloc3Desc.2 }.goto p (.fill c)) := by
  obtain ⟨nodup, free, disk⟩ := Disk.alloc3Desc_some found
  have fresh : ∀ q c' i, (s.procs q).pc.chain = some c' → i ∈ c'.toList → i ∉ c.toList := by
    intro q c' i has member new
    have used := (owned.taken i).mpr ⟨q, c', has, member⟩
    simp [free i new] at used
  rw [disk]
  have chains : ∀ q, ((({ s with disk := { s.disk with
      free := fun i => s.disk.free i && !(c.toList.contains i) } } : State n).goto p
        (.fill c)).procs q).pc.chain = if q = p then some c else (s.procs q).pc.chain := by
    intro q
    by_cases eq : q = p
    · subst eq
      simp [State.goto, State.setProc, Pc.chain]
    · simp [State.goto, State.setProc, eq]
  constructor
  · intro q c' has
    rw [chains] at has
    split at has
    · obtain rfl := Option.some.inj has
      exact nodup
    · exact owned.nodup q c' has
  · intro q q' c₁ c₂ i left right first second
    rw [chains] at left right
    split at left <;> split at right
    · simp_all
    · obtain rfl := Option.some.inj left
      exact absurd first (fresh q' c₂ i right second)
    · obtain rfl := Option.some.inj right
      exact absurd second (fresh q c₁ i left first)
    · exact owned.disjoint q q' c₁ c₂ i left right first second
  · intro i
    simp only [chains]
    constructor
    · intro used
      by_cases new : i ∈ c.toList
      · exact ⟨p, c, by simp, new⟩
      · have before : s.disk.free i = false := by
          simpa [State.goto, State.setProc, new, -Chain.mem_toList] using used
        obtain ⟨q, c', has, member⟩ := (owned.taken i).mp before
        have other : q ≠ p := by
          rintro rfl
          simp [at_, Pc.chain] at has
        exact ⟨q, c', by simpa [other] using has, member⟩
    · rintro ⟨q, c', has, member⟩
      split at has
      · obtain rfl := Option.some.inj has
        simp [State.goto, State.setProc, member, -Chain.mem_toList]
      · have used := (owned.taken i).mpr ⟨q, c', has, member⟩
        simp [State.goto, State.setProc, used]
  · intro q c' has now
    rw [chains] at has
    by_cases eq : q = p
    · subst eq
      simp [State.goto, State.setProc, Pc.linked] at now
    · simp only [eq, if_false] at has
      have linked : (s.procs q).pc.linked = true := by
        simpa [State.goto, State.setProc, eq] using now
      exact (owned.linked q c' has linked).congr (fun _ _ => rfl)
  · intro q c' has now
    rw [chains] at has
    by_cases eq : q = p
    · subst eq
      simp [State.goto, State.setProc, Pc.known] at now
    · simp only [eq, if_false] at has
      have known : (s.procs q).pc.known = true := by
        simpa [State.goto, State.setProc, eq] using now
      simpa [State.goto, State.setProc, eq] using owned.known q c' has known

theorem Owned.freeChain {s : State n} (owned : Owned s) {p : Fin n} {c : Chain}
    (at_ : (s.procs p).pc = .freeChain c) :
    Owned ({ s with disk := s.disk.freeChain NUM c.head }.goto p .release) := by
  have own : (s.procs p).pc.chain = some c := by simp [at_, Pc.chain]
  obtain ⟨desc, disk, kept⟩ := Disk.freeChain_linked
    (owned.linked p c own (by simp [at_, Pc.linked, Pc.chain])) (owned.nodup p c own)
    (fun i member => (owned.taken i).mpr ⟨p, c, own, member⟩)
  rw [disk]
  have chains : ∀ q, ((({ s with disk := { s.disk with
      desc, free := fun i => s.disk.free i || c.toList.contains i } } : State n).goto p
        .release).procs q).pc.chain = if q = p then none else (s.procs q).pc.chain := by
    intro q
    by_cases eq : q = p
    · subst eq
      simp [State.goto, State.setProc, Pc.chain]
    · simp [State.goto, State.setProc, eq]
  have remains : ∀ q c', (if q = p then none else (s.procs q).pc.chain) = some c' →
      q ≠ p ∧ (s.procs q).pc.chain = some c' := by
    intro q c' has
    split at has
    · cases has
    · exact ⟨by assumption, has⟩
  have outside : ∀ q c' i, q ≠ p → (s.procs q).pc.chain = some c' → i ∈ c'.toList →
      i ∉ c.toList := by
    intro q c' i other has member mine
    exact other (owned.disjoint q p c' c i has own member mine)
  constructor
  · intro q c' has
    rw [chains] at has
    exact owned.nodup q c' (remains q c' has).2
  · intro q q' c₁ c₂ i left right
    rw [chains] at left right
    exact owned.disjoint q q' c₁ c₂ i (remains q c₁ left).2 (remains q' c₂ right).2
  · intro i
    simp only [chains]
    constructor
    · intro used
      obtain ⟨before, notMine⟩ : s.disk.free i = false ∧ i ∉ c.toList := by
        simpa [State.goto, State.setProc, -Chain.mem_toList] using used
      obtain ⟨q, c', has, member⟩ := (owned.taken i).mp before
      have other : q ≠ p := by
        rintro rfl
        rw [own] at has
        obtain rfl := Option.some.inj has
        exact notMine member
      exact ⟨q, c', by simpa [other] using has, member⟩
    · rintro ⟨q, c', has, member⟩
      obtain ⟨other, before⟩ := remains q c' has
      have used := (owned.taken i).mpr ⟨q, c', before, member⟩
      have notMine := outside q c' i other before member
      simpa [State.goto, State.setProc, used, -Chain.mem_toList] using notMine
  · intro q c' has now
    rw [chains] at has
    obtain ⟨other, before⟩ := remains q c' has
    have linked : (s.procs q).pc.linked = true := by
      simpa [State.goto, State.setProc, other] using now
    exact (owned.linked q c' before linked).congr
      fun i member => kept i (outside q c' i other before member)
  · intro q c' has now
    rw [chains] at has
    obtain ⟨other, before⟩ := remains q c' has
    have known : (s.procs q).pc.known = true := by
      simpa [State.goto, State.setProc, other] using now
    simpa [State.goto, State.setProc, other] using owned.known q c' before known

/-- A store into `disk.info` at a request's own head leaves the others' entries. -/
theorem Owned.store {s : State n} (owned : Owned s) {p : Fin n} {c : Chain} {pc : Pc}
    (own : (s.procs p).pc.chain = some c) (chain : pc.chain = some c)
    (linked : pc.linked = (s.procs p).pc.linked) (entry : Option ℕ)
    (known : pc.known = true → entry = some (s.procs p).b) :
    Owned ({ s with disk := s.disk.setInfo c.head ({ · with b := entry }) }.goto p pc) := by
  refine owned.frame rfl ?_ ?_ ?_
  · intro q
    by_cases eq : q = p
    · subst eq
      simp [State.goto, State.setProc, chain, own]
    · simp [State.goto, State.setProc, eq]
  · intro q c' has now
    have before : (s.procs q).pc.linked = true := by
      by_cases eq : q = p
      · subst eq
        simpa [State.goto, State.setProc, linked] using now
      · simpa [State.goto, State.setProc, eq] using now
    exact (owned.linked q c' has before).congr fun _ _ => rfl
  · intro q c' has now
    by_cases eq : q = p
    · subst eq
      rw [own] at has
      obtain rfl := Option.some.inj has
      have entered := known (by simpa [State.goto, State.setProc] using now)
      simpa [State.goto, State.setProc, Disk.setInfo] using entered
    · have apart : c'.head ≠ c.head := fun same => eq (owned.head_unique has own same)
      have before : (s.procs q).pc.known = true := by
        simpa [State.goto, State.setProc, eq] using now
      simpa [State.goto, State.setProc, eq, Disk.setInfo, apart] using owned.known q c' has before

theorem Owned.fill {s : State n} (owned : Owned s) {p : Fin n} {c : Chain}
    (at_ : (s.procs p).pc = .fill c) :
    Owned ({ s with
      disk := s.disk.fill (s.procs p).b (s.procs p).write c }.goto p (.setDisk c)) := by
  have own : (s.procs p).pc.chain = some c := by simp [at_, Pc.chain]
  refine owned.frame rfl ?_ ?_ ?_
  · intro q
    by_cases eq : q = p
    · subst eq
      simp [State.goto, State.setProc, at_, Pc.chain]
    · simp [State.goto, State.setProc, eq]
  · intro q c' has now
    by_cases eq : q = p
    · subst eq
      rw [own] at has
      obtain rfl := Option.some.inj has
      exact Disk.linked_fill (owned.nodup q c own) _ _
    · have before : (s.procs q).pc.linked = true := by
        simpa [State.goto, State.setProc, eq] using now
      refine (owned.linked q c' has before).congr ?_
      intro i member
      exact Disk.fill_desc_of_notMem fun mine => eq (owned.disjoint q p c' c i has own member mine)
  · intro q c' has now
    by_cases eq : q = p
    · subst eq
      simp [State.goto, State.setProc, Pc.known] at now
    · have before : (s.procs q).pc.known = true := by
        simpa [State.goto, State.setProc, eq] using now
      simp only [State.goto_disk, Disk.fill_info_b]
      simpa [State.goto, State.setProc, eq] using owned.known q c' has before

theorem Owned.step {s s' : State n} {l : Label n} (owned : Owned s) (step : Step s l s') :
    Owned s' := by
  cases step with
  | @start p b write at_ running free distinct =>
    exact owned.keep p _ rfl rfl rfl rfl (by simp [Pc.known, Pc.chain]) (by simp [at_, Pc.chain])
      (by simp [at_, Pc.linked, Pc.chain]) (by simp [at_, Pc.known, Pc.chain])
  | @acquire p at_ free unlocked =>
    exact owned.keep p _ rfl rfl rfl rfl (fun _ => rfl) (by simp [at_, Pc.chain])
      (by simp [at_, Pc.linked, Pc.chain]) (by simp [at_, Pc.known, Pc.chain])
  | @alloc p c at_ free found => exact owned.alloc at_ found
  | @allocRetry p at_ free failed =>
    obtain ⟨desc, disk, kept⟩ := Disk.alloc3Desc_none failed
    rw [disk]
    refine owned.frame rfl (fun _ => rfl) ?_ owned.known
    intro q c has now
    refine (owned.linked q c has now).congr ?_
    intro i member
    exact kept i ((owned.taken i).mpr ⟨q, c, has, member⟩)
  | @fill p c at_ free => exact owned.fill at_
  | @setDisk p c at_ free =>
    exact owned.keep p _ rfl rfl rfl rfl (fun _ => rfl) (by simp [at_, Pc.chain])
      (by simp [at_, Pc.linked, Pc.chain]) (by simp [at_, Pc.known])
  | @setInfo p c at_ free =>
    exact owned.store (by simp [at_, Pc.chain]) rfl (by simp [at_, Pc.linked, Pc.chain]) _
      (fun _ => rfl)
  | @clearInfo p c at_ free =>
    exact owned.store (by simp [at_, Pc.chain]) rfl (by simp [at_, Pc.linked, Pc.chain]) _
      (by simp [Pc.known])
  | @freeChain p c at_ free => exact owned.freeChain at_
  | @release p at_ free =>
    exact owned.keep p _ rfl rfl rfl rfl (fun _ => rfl) (by simp [at_, Pc.chain])
      (by simp [at_, Pc.linked, Pc.chain]) (by simp [at_, Pc.known, Pc.chain])
  | @setRing p c at_ free | @bump p c at_ free | @testBusy p c at_ free waiting
  | @testDone p c at_ free done | @sleepAcquire p c at_ free unlocked
  | @sleepRelease p c at_ free | @sleepChan p c at_ free | @sleepState p c at_ free
  | @sched p c at_ free | @schedule p c at_ runnable unlocked | @woken p c at_ free
  | @sleepUnlock p c at_ free | @reacquire p c at_ free unlocked =>
    exact owned.keep p _ rfl rfl rfl rfl (fun _ => rfl) (by simp [at_, Pc.chain])
      (by simp [at_, Pc.linked, Pc.chain]) (by simp [at_, Pc.known, Pc.chain])
  | take | irq | isrTest | isrReturn | readId | readBuf | isrPanic | clear | wakeSkip
  | visitSleeper | visitOther | wakeDone | advance =>
    exact owned.handle (fun _ => ⟨rfl, rfl⟩) rfl rfl fun _ => rfl
  | @complete h taken =>
    exact owned.handle (fun _ => ⟨rfl, rfl⟩) (Disk.complete_free _ _) (Disk.complete_desc _ _)
      (Disk.complete_info_b _ _)
  | @wakeAcquire b q at_ other unlocked | @mark b q at_ | @wakeRelease b q at_ =>
    refine owned.handle ?_ rfl rfl fun _ => rfl
    intro p
    by_cases same : p = q
    · subst same
      simp [State.setProc]
    · simp [State.setProc, same]

end HaloOS.Virtio
