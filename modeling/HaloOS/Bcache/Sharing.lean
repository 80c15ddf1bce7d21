import HaloOS.Bcache.Machine
import Mathlib.Data.Fintype.Card

/-! The representation invariant of the buffer cache: the pointers form one ring, a tag
names one buffer, the references are those of the gets that were not released, and the
lock of a buffer belongs to the one process that passed its `sleep_lock`. -/

namespace HaloOS

open Lib

variable {m m' : Machine} {lru : List (Fin NBUF)} {i : Fin NBUF} {g g' : Get} {dev blockno : ℕ}

namespace Machine

/-- The gets of buffer `i` that were not released. -/
def users (m : Machine) (i : Fin NBUF) : ℕ := m.gets.countP (·.buf == i)

/-- Those of them that have its lock. -/
def owners (gets : List Get) (i : Fin NBUF) : ℕ := gets.countP fun g => g.buf == i && g.phase.owns

structure Rep (m : Machine) (lru : List (Fin NBUF)) : Prop where
  ring : m.links.Ring lru
  nodup : lru.Nodup
  complete : ∀ i, i ∈ lru
  tags : ∀ i j, (m.bufs i).dev ≠ 0 → (m.bufs i).dev = (m.bufs j).dev →
    (m.bufs i).blockno = (m.bufs j).blockno → i = j
  counts : ∀ i, (m.bufs i).refcnt = m.users i
  tagged : ∀ g ∈ m.gets, (m.bufs g.buf).dev = g.dev ∧ (m.bufs g.buf).blockno = g.blockno
  owned : ∀ i, owners m.gets i = (m.bufs i).sk.locked.toNat
  owner : ∀ g ∈ m.gets, g.phase.owns = true → (m.bufs g.buf).sk = ⟨true, g.pid⟩
  filled : ∀ g ∈ m.gets, g.phase = .holding ∨ g.phase = .dropping → (m.bufs g.buf).vaild = true

section Scans

theorem length_le (nodup : lru.Nodup) : lru.length < NBUF + 1 := by
  have bound := nodup.length_le_card
  rw [Fintype.card_fin] at bound
  omega

/-- The two scans of `bget` see the whole list. -/
theorem Rep.cached_eq (rep : m.Rep lru) (dev blockno : ℕ) : m.cached dev blockno =
    lru.find? fun r => (m.bufs r).dev == dev && (m.bufs r).blockno == blockno :=
  rep.ring.walk_next (length_le rep.nodup)

theorem Rep.unused_eq (rep : m.Rep lru) :
    m.unused = lru.reverse.find? fun r => (m.bufs r).refcnt == 0 :=
  rep.ring.walk_prev (length_le rep.nodup)

theorem Rep.cached_some (rep : m.Rep lru) (found : m.cached dev blockno = some i) :
    (m.bufs i).dev = dev ∧ (m.bufs i).blockno = blockno := by
  rw [rep.cached_eq] at found
  simpa using List.find?_some found

theorem Rep.cached_none (rep : m.Rep lru) (missing : m.cached dev blockno = none) (i : Fin NBUF) :
    ¬ ((m.bufs i).dev = dev ∧ (m.bufs i).blockno = blockno) := by
  rw [rep.cached_eq] at missing
  simpa using List.find?_eq_none.mp missing i (rep.complete i)

theorem Rep.unused_some (rep : m.Rep lru) (found : m.unused = some i) : (m.bufs i).refcnt = 0 := by
  rw [rep.unused_eq] at found
  simpa using List.find?_some found

/-- Everything the critical section of `bget` can do. -/
theorem Rep.bgetSection_cases (rep : m.Rep lru) (chosen : m.bgetSection dev blockno = some (i, m')) :
    ((m.bufs i).dev = dev ∧ (m.bufs i).blockno = blockno ∧
      m' = m.setBuf i fun b => { b with refcnt := b.refcnt + 1 }) ∨
    ((m.bufs i).refcnt = 0 ∧ (∀ j, ¬ ((m.bufs j).dev = dev ∧ (m.bufs j).blockno = blockno)) ∧
      m' = m.setBuf i fun b => { b with refcnt := 1, vaild := false, dev, blockno }) := by
  unfold bgetSection at chosen
  cases found : m.cached dev blockno with
  | some r =>
    simp only [found, Option.some.injEq, Prod.mk.injEq] at chosen
    obtain ⟨rfl, rfl⟩ := chosen
    obtain ⟨sameDev, sameBlock⟩ := rep.cached_some found
    exact .inl ⟨sameDev, sameBlock, rfl⟩
  | none =>
    cases spare : m.unused with
    | none => simp [found, spare] at chosen
    | some r =>
      simp only [found, spare, Option.some.injEq, Prod.mk.injEq] at chosen
      obtain ⟨rfl, rfl⟩ := chosen
      exact .inr ⟨rep.unused_some spare, rep.cached_none found, rfl⟩

end Scans

section Records

theorem countP_advance {l : List Get} (member : g ∈ l) (g' : Get) (p : Get → Bool) :
    (g' :: l.erase g).countP p + (if p g then 1 else 0) = l.countP p + if p g' then 1 else 0 := by
  have swap := (List.perm_cons_erase member).countP_eq p
  rw [List.countP_cons] at swap ⊢
  omega

theorem countP_erase {l : List Get} (member : g ∈ l) (p : Get → Bool) :
    (l.erase g).countP p + (if p g then 1 else 0) = l.countP p := by
  have swap := (List.perm_cons_erase member).countP_eq p
  rw [List.countP_cons] at swap
  omega

/-- A buffer without references has no gets. -/
theorem Rep.no_users (rep : m.Rep lru) (zero : (m.bufs i).refcnt = 0) : ∀ g ∈ m.gets, g.buf ≠ i := by
  intro g member same
  have none := rep.counts i
  rw [zero, users, eq_comm, List.countP_eq_zero] at none
  exact none g member (by simpa using same)

/-- The holder of a lock is alone with it. -/
theorem Rep.alone_of_owns (rep : m.Rep lru) (member : g ∈ m.gets) (owns : g.phase.owns = true) :
    owners (m.gets.erase g) g.buf = 0 := by
  have split := countP_erase member fun h => h.buf == g.buf && h.phase.owns
  have total := rep.owned g.buf
  have bound := Bool.toNat_le (m.bufs g.buf).sk.locked
  rw [if_pos (by simp [owns])] at split
  unfold owners at total ⊢
  omega

theorem Rep.alone_of_free (rep : m.Rep lru) (member : g ∈ m.gets)
    (free : (m.bufs g.buf).sk.locked = false) : owners (m.gets.erase g) g.buf = 0 := by
  have split := countP_erase member fun h => h.buf == g.buf && h.phase.owns
  have total := rep.owned g.buf
  rw [free, Bool.toNat_false] at total
  unfold owners at total ⊢
  omega

/-- Two processes in the phases with the lock are the same. -/
theorem Rep.owner_unique (rep : m.Rep lru) (one : g ∈ m.gets) (two : g' ∈ m.gets)
    (owns : g.phase.owns = true) (owns' : g'.phase.owns = true) (same : g'.buf = g.buf) : g' = g := by
  by_contra other
  have none := rep.alone_of_owns one owns
  rw [owners, List.countP_eq_zero] at none
  refine none g' ((List.mem_erase_of_ne other).mpr two) ?_
  simp [same, owns']

end Records

/-- A step of one process with one buffer keeps the invariant if it keeps the tag and the
references and leaves the lock as the phase says. -/
theorem Rep.advance (rep : m.Rep lru) (member : g ∈ m.gets) (alone : owners (m.gets.erase g) g.buf = 0)
    {disk : ℕ → Block} {b : Buf} (buf : g'.buf = g.buf) (sameDev : g'.dev = g.dev)
    (sameBlock : g'.blockno = g.blockno) (tagDev : b.dev = (m.bufs g.buf).dev)
    (tagBlock : b.blockno = (m.bufs g.buf).blockno) (refcnt : b.refcnt = (m.bufs g.buf).refcnt)
    (locked : b.sk.locked = g'.phase.owns) (owner : g'.phase.owns = true → b.sk = ⟨true, g'.pid⟩)
    (filled : g'.phase = .holding ∨ g'.phase = .dropping → b.vaild = true)
    (vaild : (m.bufs g.buf).vaild = true → b.vaild = true) :
    Rep { m with disk, bufs := Function.update m.bufs g.buf b, gets := g' :: m.gets.erase g } lru where
  ring := rep.ring
  nodup := rep.nodup
  complete := rep.complete
  tags := by
    have tag : ∀ j, (Function.update m.bufs g.buf b j).dev = (m.bufs j).dev ∧
        (Function.update m.bufs g.buf b j).blockno = (m.bufs j).blockno := by
      intro j
      by_cases here : j = g.buf
      · subst here
        simp [tagDev, tagBlock]
      · simp [here]
    intro j k
    rw [(tag j).1, (tag j).2, (tag k).1, (tag k).2]
    exact rep.tags j k
  counts := by
    intro j
    have moved := countP_advance member g' (·.buf == j)
    rw [buf] at moved
    have same : (Function.update m.bufs g.buf b j).refcnt = (m.bufs j).refcnt := by
      by_cases here : j = g.buf
      · subst here
        simp [refcnt]
      · simp [here]
    have old := rep.counts j
    unfold users at old ⊢
    dsimp only
    omega
  tagged := by
    have tag : ∀ h ∈ m.gets, (Function.update m.bufs g.buf b h.buf).dev = h.dev ∧
        (Function.update m.bufs g.buf b h.buf).blockno = h.blockno := by
      intro h inside
      have old := rep.tagged h inside
      by_cases here : h.buf = g.buf
      · rw [here] at old ⊢
        simpa [tagDev, tagBlock] using old
      · simpa [here] using old
    intro h inside
    rcases List.mem_cons.mp inside with rfl | before
    · rw [buf, sameDev, sameBlock]
      exact tag g member
    · exact tag h (List.mem_of_mem_erase before)
  owned := by
    intro j
    unfold owners at *
    by_cases here : j = g.buf
    · subst here
      dsimp only
      rw [List.countP_cons, alone, Function.update_self, locked, buf]
      cases g'.phase.owns <;> simp
    · have moved := countP_advance member g' fun h => h.buf == j && h.phase.owns
      have away : (g.buf == j) = false := by simpa using fun same => here same.symm
      rw [buf] at moved
      simp only [away, Bool.false_and, Bool.false_eq_true, ↓reduceIte, Nat.add_zero] at moved
      dsimp only
      rw [moved, Function.update_of_ne here]
      exact rep.owned j
  owner := by
    intro h inside owns
    rcases List.mem_cons.mp inside with rfl | before
    · dsimp only
      rw [buf, Function.update_self]
      exact owner owns
    · by_cases here : h.buf = g.buf
      · rw [owners, List.countP_eq_zero] at alone
        exact absurd (by simp [here, owns]) (alone h before)
      · dsimp only
        rw [Function.update_of_ne here]
        exact rep.owner h (List.mem_of_mem_erase before) owns
  filled := by
    intro h inside phase
    rcases List.mem_cons.mp inside with rfl | before
    · dsimp only
      rw [buf, Function.update_self]
      exact filled phase
    · have old := rep.filled h (List.mem_of_mem_erase before) phase
      dsimp only
      by_cases here : h.buf = g.buf
      · rw [here] at old ⊢
        rw [Function.update_self]
        exact vaild old
      · rwa [Function.update_of_ne here]

/-- One more get of a buffer, which keeps its tag or had no user. -/
theorem Rep.admit (rep : m.Rep lru) {b : Buf} (phase : g.phase = .locking)
    (refcnt : b.refcnt = (m.bufs g.buf).refcnt + 1) (sk : b.sk = (m.bufs g.buf).sk)
    (tagDev : b.dev = g.dev) (tagBlock : b.blockno = g.blockno)
    (old : (b.dev = (m.bufs g.buf).dev ∧ b.blockno = (m.bufs g.buf).blockno ∧
        b.vaild = (m.bufs g.buf).vaild) ∨
      ((m.bufs g.buf).refcnt = 0 ∧
        ∀ j, ¬ ((m.bufs j).dev = g.dev ∧ (m.bufs j).blockno = g.blockno))) :
    Rep { m with bufs := Function.update m.bufs g.buf b, gets := g :: m.gets } lru where
  ring := rep.ring
  nodup := rep.nodup
  complete := rep.complete
  tags := by
    dsimp only
    intro j k real sameDev sameBlock
    by_cases left : j = g.buf <;> by_cases right : k = g.buf
    · rw [left, right]
    · subst left
      rw [Function.update_self] at real sameDev sameBlock
      rw [Function.update_of_ne right] at sameDev sameBlock
      rcases old with ⟨keptDev, keptBlock, -⟩ | ⟨-, fresh⟩
      · exact rep.tags g.buf k (keptDev ▸ real) (keptDev ▸ sameDev) (keptBlock ▸ sameBlock)
      · exact absurd ⟨sameDev.symm.trans tagDev, sameBlock.symm.trans tagBlock⟩ (fresh k)
    · subst right
      rw [Function.update_self] at sameDev sameBlock
      rw [Function.update_of_ne left] at real sameDev sameBlock
      rcases old with ⟨keptDev, keptBlock, -⟩ | ⟨-, fresh⟩
      · exact rep.tags j g.buf real (keptDev ▸ sameDev) (keptBlock ▸ sameBlock)
      · exact absurd ⟨sameDev.trans tagDev, sameBlock.trans tagBlock⟩ (fresh j)
    · rw [Function.update_of_ne left] at real sameDev sameBlock
      rw [Function.update_of_ne right] at sameDev sameBlock
      exact rep.tags j k real sameDev sameBlock
  counts := by
    intro j
    have before := rep.counts j
    unfold users at before ⊢
    dsimp only
    rw [List.countP_cons]
    by_cases here : j = g.buf
    · subst here
      simp [refcnt, before]
    · rw [Function.update_of_ne here, before, if_neg (by simpa using fun same => here same.symm),
        Nat.add_zero]
  tagged := by
    dsimp only
    intro h inside
    rcases List.mem_cons.mp inside with rfl | before
    · rw [Function.update_self]
      exact ⟨tagDev, tagBlock⟩
    · have tag := rep.tagged h before
      by_cases here : h.buf = g.buf
      · rcases old with ⟨keptDev, keptBlock, -⟩ | ⟨zero, -⟩
        · rw [here] at tag ⊢
          rw [Function.update_self, keptDev, keptBlock]
          exact tag
        · exact absurd here (rep.no_users zero h before)
      · rwa [Function.update_of_ne here]
  owned := by
    intro j
    have same : (Function.update m.bufs g.buf b j).sk = (m.bufs j).sk := by
      by_cases here : j = g.buf
      · subst here
        simp [sk]
      · simp [here]
    dsimp only
    rw [same, owners, List.countP_cons, phase, ← rep.owned j]
    simp [owners, Phase.owns]
  owner := by
    dsimp only
    intro h inside owns
    rcases List.mem_cons.mp inside with rfl | before
    · rw [phase] at owns
      exact absurd owns (by decide)
    · have held := rep.owner h before owns
      by_cases here : h.buf = g.buf
      · rw [here] at held ⊢
        rw [Function.update_self, sk]
        exact held
      · rwa [Function.update_of_ne here]
  filled := by
    dsimp only
    intro h inside late
    rcases List.mem_cons.mp inside with rfl | before
    · rw [phase] at late
      rcases late with bad | bad <;> exact absurd bad (by decide)
    · have valid := rep.filled h before late
      by_cases here : h.buf = g.buf
      · rcases old with ⟨-, -, kept⟩ | ⟨zero, -⟩
        · rw [here] at valid ⊢
          rw [Function.update_self, kept]
          exact valid
        · exact absurd here (rep.no_users zero h before)
      · rwa [Function.update_of_ne here]

/-- `bget` adds a reference and the record of its caller. -/
theorem Rep.bget (rep : m.Rep lru) {pid : ℕ} (chosen : m.bgetSection dev blockno = some (i, m')) :
    Rep { m' with gets := { pid, buf := i, dev, blockno } :: m'.gets } lru := by
  rcases rep.bgetSection_cases chosen with ⟨sameDev, sameBlock, rfl⟩ | ⟨zero, fresh, rfl⟩
  · exact rep.admit (g := { pid, buf := i, dev, blockno }) rfl rfl rfl sameDev sameBlock
      (.inl ⟨rfl, rfl, rfl⟩)
  · exact rep.admit (g := { pid, buf := i, dev, blockno }) rfl (by simp [zero]) rfl rfl rfl
      (.inr ⟨zero, fresh⟩)

/-- The list after the critical section of `brelease`: an unreferenced buffer goes to the
front. -/
def relink (m : Machine) (i : Fin NBUF) (lru : List (Fin NBUF)) : List (Fin NBUF) :=
  if (m.bufs i).refcnt - 1 = 0 then i :: lru.erase i else lru

/-- The critical section of `brelease` ends a get and relinks its buffer. -/
theorem Rep.drop (rep : m.Rep lru) (member : g ∈ m.gets) (phase : g.phase = .dropping) :
    Rep { m.bunref g.buf with gets := m.gets.erase g } (m.relink g.buf lru) := by
  have fields : ∀ j, ((m.bunref g.buf).bufs j).dev = (m.bufs j).dev ∧
      ((m.bunref g.buf).bufs j).blockno = (m.bufs j).blockno ∧
      ((m.bunref g.buf).bufs j).sk = (m.bufs j).sk ∧
      ((m.bunref g.buf).bufs j).vaild = (m.bufs j).vaild := by
    intro j
    unfold bunref setBuf
    by_cases here : j = g.buf
    · subst here
      dsimp only
      split <;> simp
    · dsimp only
      split <;> simp [here]
  have references : ∀ j, ((m.bunref g.buf).bufs j).refcnt =
      (m.bufs j).refcnt - if g.buf == j then 1 else 0 := by
    intro j
    unfold bunref setBuf
    by_cases here : j = g.buf
    · subst here
      dsimp only
      split <;> simp
    · have other : (g.buf == j) = false := by simpa using fun same => here same.symm
      dsimp only
      split <;> simp [here, other]
  have ringed : (m.bunref g.buf).links.Ring (m.relink g.buf lru) ∧ (m.relink g.buf lru).Nodup ∧
      ∀ j, j ∈ m.relink g.buf lru := by
    unfold bunref relink
    simp only [setBuf, Function.update_self]
    split
    · refine ⟨rep.ring.moveFront rep.nodup (rep.complete _),
        List.nodup_cons.mpr ⟨rep.nodup.not_mem_erase, rep.nodup.erase _⟩, fun j => ?_⟩
      by_cases here : j = g.buf
      · simp [here]
      · simp [List.mem_erase_of_ne here, rep.complete j]
    · exact ⟨rep.ring, rep.nodup, rep.complete⟩
  obtain ⟨ring', nodup', complete'⟩ := ringed
  refine ⟨ring', nodup', complete', ?_, ?_, ?_, ?_, ?_, ?_⟩
  · dsimp only
    intro j k
    rw [(fields j).1, (fields j).2.1, (fields k).1, (fields k).2.1]
    exact rep.tags j k
  · dsimp only
    intro j
    have split := countP_erase member (·.buf == j)
    have before := rep.counts j
    unfold users at before ⊢
    rw [references j]
    dsimp only
    omega
  · dsimp only
    intro h inside
    rw [(fields h.buf).1, (fields h.buf).2.1]
    exact rep.tagged h (List.mem_of_mem_erase inside)
  · dsimp only
    intro j
    have split := countP_erase member fun h => h.buf == j && h.phase.owns
    rw [phase] at split
    rw [(fields j).2.2.1, ← rep.owned j]
    simpa [owners, Phase.owns] using split
  · dsimp only
    intro h inside
    rw [(fields h.buf).2.2.1]
    exact rep.owner h (List.mem_of_mem_erase inside)
  · dsimp only
    intro h inside
    rw [(fields h.buf).2.2.2]
    exact rep.filled h (List.mem_of_mem_erase inside)

theorem fill_eq (m : Machine) (i : Fin NBUF) : m.fill i = { m with
    bufs := Function.update m.bufs i { m.bufs i with
      data := if (m.bufs i).vaild then (m.bufs i).data else m.disk (m.bufs i).blockno
      vaild := true } } := by
  unfold fill
  split
  · rename_i invalid
    simp [setBuf, invalid]
  · rename_i valid
    have kept : (m.bufs i).vaild = true := by simpa using valid
    have same : ({ m.bufs i with data := (m.bufs i).data, vaild := true } : Buf) = m.bufs i := by
      rw [← kept]
    simp only [kept, ↓reduceIte]
    rw [same, Function.update_eq_self]

/-- The list after a step. -/
def order (m : Machine) (lru : List (Fin NBUF)) : BcacheEvent → List (Fin NBUF)
  | .drop g => m.relink g.buf lru
  | _ => lru

/-- Every step keeps the representation. -/
theorem Rep.step {e : BcacheEvent} (rep : m.Rep lru) (taken : BcacheStep m e m') :
    m'.Rep (m.order lru e) := by
  cases taken with
  | bget chosen => exact rep.bget chosen
  | @lock g waiting phase free =>
    exact rep.advance waiting (rep.alone_of_free waiting free) rfl rfl rfl rfl rfl rfl rfl
      (fun _ => rfl) (fun late => by simp at late) id
  | @load g data loading phase returned =>
    have owns : g.phase.owns = true := by rw [phase]; rfl
    have sk := rep.owner g loading owns
    rw [fill_eq]
    refine rep.advance loading (rep.alone_of_owns loading owns) rfl rfl rfl rfl rfl rfl ?_
      (fun _ => sk) (fun _ => rfl) fun _ => rfl
    rw [sk]
    rfl
  | @modify g data holding phase =>
    have owns : g.phase.owns = true := by rw [phase]; rfl
    have sk := rep.owner g holding owns
    refine rep.advance holding (rep.alone_of_owns holding owns) rfl rfl rfl rfl rfl rfl ?_
      (fun _ => sk) (fun _ => rep.filled g holding (.inl phase)) id
    rw [sk, owns]
  | @bwrite g data holding phase checked written =>
    have owns : g.phase.owns = true := by rw [phase]; rfl
    have sk := rep.owner g holding owns
    have kept : Rep { m with
        disk := Function.update m.disk (m.bufs g.buf).blockno (m.bufs g.buf).data
        bufs := Function.update m.bufs g.buf (m.bufs g.buf)
        gets := { g with modified := false } :: m.gets.erase g } lru :=
      rep.advance holding (rep.alone_of_owns holding owns) rfl rfl rfl rfl rfl rfl (by rw [sk, owns])
        (fun _ => sk) (fun _ => rep.filled g holding (.inl phase)) id
    rw [Function.update_eq_self] at kept
    exact kept
  | @unlock g holding phase checked =>
    have owns : g.phase.owns = true := by rw [phase]; rfl
    exact rep.advance holding (rep.alone_of_owns holding owns) rfl rfl rfl rfl rfl rfl rfl
      (fun owns' => by simp [Phase.owns] at owns') (fun _ => rep.filled g holding (.inl phase)) id
  | drop dropping phase => exact rep.drop dropping phase

theorem rep_init (disk : ℕ → Block) : ∃ lru, (init disk).Rep lru := by
  have ringed : ∀ (l done : List (Fin NBUF)) (links : Dlist (Fin NBUF)), links.Ring done →
      (l.reverse ++ done).Nodup →
      (l.foldl (fun links b => links.pushFront b) links).Ring (l.reverse ++ done) := by
    intro l
    induction l with
    | nil => exact fun done links ring _ => ring
    | cons b l ih =>
      intro done links ring nodup
      rw [List.reverse_cons, List.append_assoc, List.singleton_append] at nodup ⊢
      have rest := (List.nodup_append.mp nodup).2.1
      obtain ⟨absent, distinct⟩ := List.nodup_cons.mp rest
      exact ih (b :: done) (links.pushFront b) (ring.pushFront distinct absent) nodup
  have all := ringed (List.finRange NBUF) [] (Dlist.empty _) Dlist.ring_empty
    (by simpa using List.nodup_finRange NBUF)
  refine ⟨(List.finRange NBUF).reverse ++ [], all, by simpa using List.nodup_finRange NBUF,
    by simp, ?_, ?_, ?_, ?_, ?_, ?_⟩ <;> simp [init, users, owners]

/-- What every state of the cache satisfies. -/
structure Consistent (m : Machine) : Prop where
  cycle : m.links.Cycle
  tags : ∀ i j, (m.bufs i).dev ≠ 0 → (m.bufs i).dev = (m.bufs j).dev →
    (m.bufs i).blockno = (m.bufs j).blockno → i = j
  counts : ∀ i, (m.bufs i).refcnt = m.users i

/-- A buffer in use keeps its tag and stays valid. -/
def KeepsUsed (m m' : Machine) : Prop :=
  ∀ i, 0 < (m.bufs i).refcnt → (m'.bufs i).dev = (m.bufs i).dev ∧
    (m'.bufs i).blockno = (m.bufs i).blockno ∧ ((m.bufs i).vaild = true → (m'.bufs i).vaild = true)

theorem Rep.consistent (rep : m.Rep lru) : m.Consistent where
  cycle := rep.ring.cycle rep.complete
  tags := rep.tags
  counts := rep.counts

theorem Rep.keepsUsed {e : BcacheEvent} (rep : m.Rep lru) (taken : BcacheStep m e m') :
    m.KeepsUsed m' := by
  -- a step that stores into one buffer, keeping its tag and validity
  have stored : ∀ (i : Fin NBUF) (f : Buf → Buf), (f (m.bufs i)).dev = (m.bufs i).dev →
      (f (m.bufs i)).blockno = (m.bufs i).blockno →
      ((m.bufs i).vaild = true → (f (m.bufs i)).vaild = true) → m.KeepsUsed (m.setBuf i f) := by
    intro i f sameDev sameBlock kept j _
    by_cases here : j = i
    · subst here
      simpa [setBuf, sameDev, sameBlock] using kept
    · simp [setBuf, here]
  cases taken with
  | bget chosen =>
    rcases rep.bgetSection_cases chosen with ⟨-, -, rfl⟩ | ⟨zero, -, rfl⟩
    · exact stored _ (fun b => { b with refcnt := b.refcnt + 1 }) rfl rfl id
    · intro j used
      have other : j ≠ _ := fun same => absurd used (by rw [same, zero]; exact lt_irrefl 0)
      simp [setBuf, other]
  | @lock g waiting phase free => exact stored _ (fun b => { b with sk := ⟨true, g.pid⟩ }) rfl rfl id
  | @load g data loading phase returned =>
    rw [fill_eq]
    exact stored _ (fun b => { b with
      data := if (m.bufs g.buf).vaild then (m.bufs g.buf).data else m.disk (m.bufs g.buf).blockno
      vaild := true }) rfl rfl fun _ => rfl
  | @modify g data holding phase => exact stored _ (fun b => { b with data }) rfl rfl id
  | bwrite holding phase checked written => exact fun j _ => ⟨rfl, rfl, id⟩
  | unlock holding phase checked =>
    exact stored _ (fun b => { b with sk := sleepUnlock b.sk }) rfl rfl id
  | @drop g dropping phase =>
    intro j used
    have kept := stored g.buf (fun b => { b with refcnt := b.refcnt - 1 }) rfl rfl id j used
    unfold bunref
    dsimp only
    split <;> exact kept

end Machine

/-- The representation of the buffer cache in every state of every run. -/
theorem bcache_consistent (disk : ℕ → Block) (events : List BcacheEvent) (m : Machine)
    (run : Trace BcacheStep (Machine.init disk) events m) :
    m.Consistent ∧ ∀ e m', BcacheStep m e m' → m.KeepsUsed m' := by
  obtain ⟨lru, rep⟩ := run.invariant (fun _ m => ∃ lru, m.Rep lru) (Machine.rep_init disk)
    fun _ _ _ _ ⟨_, rep⟩ taken => ⟨_, rep.step taken⟩
  exact ⟨rep.consistent, fun _ _ taken => rep.keepsUsed taken⟩

/-- The first `bget` finds an unreferenced buffer. -/
theorem exists_bget_init (disk : ℕ → Block) {dev : ℕ} (real : dev ≠ 0) (blockno : ℕ) :
    ∃ i m, (Machine.init disk).bgetSection dev blockno = some (i, m) ∧ (m.bufs i).refcnt = 1 := by
  obtain ⟨lru, rep⟩ := Machine.rep_init disk
  have missing : (Machine.init disk).cached dev blockno = none := by
    cases found : (Machine.init disk).cached dev blockno with
    | none => rfl
    | some i => exact absurd (rep.cached_some found).1.symm real
  cases spare : (Machine.init disk).unused with
  | none =>
    rw [rep.unused_eq, List.find?_eq_none] at spare
    have busy := spare 0 (by simpa using rep.complete 0)
    simp [Machine.init] at busy
  | some i =>
    refine ⟨i, (Machine.init disk).setBuf i fun b => { b with refcnt := 1, vaild := false, dev, blockno },
      ?_, by simp [Machine.setBuf]⟩
    simp [Machine.bgetSection, missing, spare]

theorem bcache_consistent_bget : ∃ (i : Fin NBUF) (m : Machine),
    Trace BcacheStep (Machine.init fun _ _ => 0) [.bget 7 1 45] m ∧ (m.bufs i).refcnt = 1 ∧
      m.Consistent := by
  obtain ⟨i, m, chosen, count⟩ := exists_bget_init (fun _ _ => 0) Nat.one_ne_zero 45
  have run : Trace BcacheStep (Machine.init fun _ _ => 0) [.bget 7 1 45] _ :=
    .single (.bget chosen)
  exact ⟨i, _, run, count, (bcache_consistent _ _ _ run).1⟩

end HaloOS
