import HaloOS.Bcache.Sharing

/-! Which buffer a miss recycles. The list of the cache is never reordered but in
`brelease`, when the last reference to a buffer is given back. Its order is therefore the
order in which the buffers fell idle, those that were never used last. -/

namespace HaloOS

open Lib

variable {m m' : Machine} {lru : List (Fin NBUF)} {i j : Fin NBUF} {e : BcacheEvent}
  {states past : List Machine}

namespace Machine

/-- The references to the buffer fall to zero. -/
def FallsIdle (m m' : Machine) (i : Fin NBUF) : Prop :=
  (m.bufs i).refcnt ≠ 0 ∧ (m'.bufs i).refcnt = 0

instance (m m' : Machine) (i : Fin NBUF) : Decidable (m.FallsIdle m' i) :=
  inferInstanceAs (Decidable (_ ∧ _))

/-- The number of the step by which the buffer last fell idle in a run through these
states, the last one first; 0 if it never did. -/
def idleSince (i : Fin NBUF) : List Machine → ℕ
  | m' :: m :: past => if m.FallsIdle m' i then past.length + 1 else idleSince i (m :: past)
  | _ => 0

theorem idleSince_lt (i : Fin NBUF) (m : Machine) (past : List Machine) :
    idleSince i (m :: past) ≤ past.length := by
  induction past generalizing m with
  | nil => exact le_refl 0
  | cons before past ih =>
    unfold idleSince
    split
    · exact le_refl _
    · exact (ih before).trans (Nat.le_succ _)

/-- Buffer `j` fell idle before `i` did, or neither ever did. -/
def Older (states : List Machine) (i j : Fin NBUF) : Prop :=
  idleSince j states < idleSince i states ∨ idleSince j states = 0 ∧ idleSince i states = 0

/-- Only `brelease` of the last reference makes a buffer idle. -/
theorem Rep.fallsIdle_iff (rep : m.Rep lru) (taken : BcacheStep m e m') :
    m.FallsIdle m' i ↔ ∃ g, e = .drop g ∧ g.buf = i ∧ (m.bufs i).refcnt - 1 = 0 := by
  -- a step that stores into one buffer and keeps its references
  have kept : ∀ (k : Fin NBUF) (f : Buf → Buf), (f (m.bufs k)).refcnt = (m.bufs k).refcnt →
      ((m.setBuf k f).bufs i).refcnt = (m.bufs i).refcnt := by
    intro k f same
    by_cases here : i = k
    · subst here
      simpa [setBuf] using same
    · simp [setBuf, here]
  have still : (m'.bufs i).refcnt = (m.bufs i).refcnt → ¬ m.FallsIdle m' i :=
    fun same idle => idle.1 (same ▸ idle.2)
  cases taken with
  | @bget pid dev blockno k m₁ chosen =>
    refine iff_of_false ?_ (by simp)
    rintro ⟨used, idle⟩
    rcases rep.bgetSection_cases chosen with ⟨-, -, rfl⟩ | ⟨zero, -, rfl⟩
    · by_cases here : i = k
      · subst here
        simp [setBuf] at idle
      · exact used (by simpa [setBuf, here] using idle)
    · by_cases here : i = k
      · exact used (here ▸ zero)
      · exact used (by simpa [setBuf, here] using idle)
  | @lock g waiting phase free =>
    exact iff_of_false (still (kept g.buf (fun b => { b with sk := ⟨true, g.pid⟩ }) rfl)) (by simp)
  | @load g data loading phase returned =>
    refine iff_of_false (still ?_) (by simp)
    rw [fill_eq]
    exact kept g.buf (fun b => { b with
      data := if (m.bufs g.buf).vaild then (m.bufs g.buf).data else m.disk (m.bufs g.buf).blockno
      vaild := true }) rfl
  | @modify g data holding phase =>
    exact iff_of_false (still (kept g.buf (fun b => { b with data }) rfl)) (by simp)
  | bwrite holding phase checked written => exact iff_of_false (still rfl) (by simp)
  | @unlock g holding phase checked =>
    exact iff_of_false (still (kept g.buf (fun b => { b with sk := sleepUnlock b.sk }) rfl)) (by simp)
  | @drop g dropping phase =>
    have counted : (m.bufs g.buf).refcnt ≠ 0 := fun zero => rep.no_users zero g dropping rfl
    have left : ((m.bunref g.buf).bufs i).refcnt =
        if i = g.buf then (m.bufs i).refcnt - 1 else (m.bufs i).refcnt := by
      unfold bunref
      by_cases here : i = g.buf
      · subst here
        dsimp only
        split <;> simp [setBuf]
      · dsimp only
        split <;> simp [setBuf, here]
    unfold FallsIdle
    dsimp only
    rw [left]
    constructor
    · rintro ⟨used, idle⟩
      by_cases here : i = g.buf
      · exact ⟨g, rfl, here.symm, by simpa [here] using idle⟩
      · exact absurd (by simpa [here] using idle) used
    · rintro ⟨h, same, rfl, last⟩
      obtain rfl : g = h := by simpa using same
      exact ⟨counted, by simpa using last⟩

/-- Where a buffer stands in the list says how long it has been idle. -/
def Aged (lru : List (Fin NBUF)) (states : List Machine) : Prop := lru.Pairwise (Older states)

/-- A step after which no buffer has fallen idle. -/
theorem Aged.still (aged : Aged lru (m :: past)) (none : ∀ i, ¬ m.FallsIdle m' i) :
    Aged lru (m' :: m :: past) := by
  refine aged.imp fun {i j} older => ?_
  unfold Older idleSince
  rw [if_neg (none i), if_neg (none j)]
  exact older

/-- The buffer that falls idle is the youngest. -/
theorem Aged.front (aged : Aged lru (m :: past)) (nodup : lru.Nodup)
    (falls : ∀ j, m.FallsIdle m' j ↔ i = j) : Aged (i :: lru.erase i) (m' :: m :: past) := by
  have young : idleSince i (m' :: m :: past) = past.length + 1 := by
    unfold idleSince
    rw [if_pos ((falls i).mpr rfl)]
  have others : ∀ j ∈ lru.erase i, idleSince j (m' :: m :: past) = idleSince j (m :: past) := by
    intro j member
    have other : i ≠ j := by
      rintro rfl
      exact nodup.not_mem_erase member
    conv_lhs => unfold idleSince
    rw [if_neg fun idle => other ((falls j).mp idle)]
  refine List.pairwise_cons.mpr ⟨fun j member => .inl ?_, ?_⟩
  · rw [young, others j member]
    exact Nat.lt_succ_of_le (idleSince_lt j m past)
  · refine (aged.sublist List.erase_sublist).imp_of_mem fun {j k} left right older => ?_
    unfold Older
    rw [others j left, others k right]
    exact older

theorem Aged.step (aged : Aged lru (m :: past)) (rep : m.Rep lru) (taken : BcacheStep m e m') :
    Aged (m.order lru e) (m' :: m :: past) := by
  by_cases last : ∃ g, e = .drop g ∧ (m.bufs g.buf).refcnt - 1 = 0
  · obtain ⟨g, rfl, zero⟩ := last
    unfold order relink
    dsimp only
    rw [if_pos zero]
    refine aged.front rep.nodup fun j => (rep.fallsIdle_iff taken).trans ?_
    constructor
    · rintro ⟨h, same, rfl, -⟩
      obtain rfl : g = h := by simpa using same
      rfl
    · rintro rfl
      exact ⟨g, rfl, rfl, zero⟩
  · have same : m.order lru e = lru := by
      cases e with
      | drop g => exact if_neg fun zero => last ⟨g, rfl, zero⟩
      | _ => rfl
    rw [same]
    refine aged.still fun i idle => ?_
    obtain ⟨g, drop, rfl, zero⟩ := (rep.fallsIdle_iff taken).mp idle
    exact last ⟨g, drop, zero⟩

/-- What every run leaves behind. -/
theorem aged_of_path (disk : ℕ → Block) (path : Path BcacheStep (init disk) states) :
    ∃ m past lru, states = m :: past ∧ m.Rep lru ∧ Aged lru states := by
  refine path.invariant (fun states => ∃ m past lru, states = m :: past ∧ m.Rep lru ∧
    Aged lru states) ?_ ?_
  · obtain ⟨lru, rep⟩ := rep_init disk
    refine ⟨_, _, lru, rfl, rep, ?_⟩
    exact List.pairwise_of_forall fun _ _ => .inr ⟨rfl, rfl⟩
  · rintro m past e m' ⟨_, _, lru, same, rep, aged⟩ taken
    obtain ⟨rfl, rfl⟩ := List.cons.inj same
    exact ⟨m', _, _, rfl, rep.step taken, aged.step rep taken⟩

/-- The scan from `head.prev` stops at the buffer that has been idle longest. -/
theorem Rep.unused_oldest (rep : m.Rep lru) (aged : Aged lru states) (found : m.unused = some i)
    (other : j ≠ i) (idle : (m.bufs j).refcnt = 0) : Older states j i := by
  rw [rep.unused_eq, List.find?_eq_some_iff_append] at found
  obtain ⟨-, back, front, split, busy⟩ := found
  have whole : lru = front.reverse ++ i :: back.reverse := by
    rw [← List.reverse_reverse lru, split]
    simp
  have before : j ∈ front.reverse := by
    have member := rep.complete j
    rw [whole, List.mem_append, List.mem_cons] at member
    rcases member with before | same | behind
    · exact before
    · exact absurd same other
    · exact absurd (busy j (List.mem_reverse.mp behind)) (by simp [idle])
  unfold Aged at aged
  rw [whole, List.pairwise_append] at aged
  exact aged.2.2 j before i List.mem_cons_self

theorem Rep.unused_none_iff (rep : m.Rep lru) : m.unused = none ↔ ∀ i, 0 < (m.bufs i).refcnt := by
  rw [rep.unused_eq, List.find?_eq_none]
  constructor
  · intro busy i
    exact Nat.pos_of_ne_zero (by simpa using busy i (by simpa using rep.complete i))
  · intro busy i _
    simpa using (busy i).ne'

end Machine

/-- A miss recycles the buffer that has been idle longest, and panics if none is idle. -/
theorem bget_recycles_oldest (disk : ℕ → Block) {m : Machine} {past : List Machine}
    (path : Path BcacheStep (Machine.init disk) (m :: past)) {dev blockno : ℕ}
    (miss : ∀ i, ¬ ((m.bufs i).dev = dev ∧ (m.bufs i).blockno = blockno)) :
    (∀ i m', m.bgetSection dev blockno = some (i, m') → (m.bufs i).refcnt = 0 ∧
      (m'.bufs i).dev = dev ∧ (m'.bufs i).blockno = blockno ∧
      ∀ j, j ≠ i → (m.bufs j).refcnt = 0 → Machine.Older (m :: past) j i) ∧
    (m.bgetSection dev blockno = none ↔ ∀ i, 0 < (m.bufs i).refcnt) := by
  obtain ⟨_, _, lru, same, rep, aged⟩ := Machine.aged_of_path disk path
  obtain ⟨rfl, rfl⟩ := List.cons.inj same
  have missing : m.cached dev blockno = none := by
    cases found : m.cached dev blockno with
    | none => rfl
    | some i => exact absurd (rep.cached_some found) (miss i)
  refine ⟨fun i m' chosen => ?_, ?_⟩
  · unfold Machine.bgetSection at chosen
    cases spare : m.unused with
    | none => simp [missing, spare] at chosen
    | some r =>
      simp only [missing, spare, Option.some.injEq, Prod.mk.injEq] at chosen
      obtain ⟨rfl, rfl⟩ := chosen
      exact ⟨rep.unused_some spare, by simp [Machine.setBuf], by simp [Machine.setBuf],
        fun j other idle => rep.unused_oldest aged spare other idle⟩
  · rw [← rep.unused_none_iff]
    unfold Machine.bgetSection
    cases spare : m.unused <;> simp [missing]

/-- With one buffer in use, the next miss takes another one. -/
theorem bget_recycles_oldest_second : ∃ (i j : Fin NBUF) (m m' : Machine),
    Path BcacheStep (Machine.init fun _ _ => 0) [m, Machine.init fun _ _ => 0] ∧
      (m.bufs j).refcnt = 1 ∧ m.bgetSection 1 46 = some (i, m') ∧ i ≠ j := by
  obtain ⟨j, m, chosen, count⟩ := exists_bget_init (fun _ _ => 0) Nat.one_ne_zero 45
  have path : Path BcacheStep (Machine.init fun _ _ => 0)
      [{ m with gets := { pid := 7, buf := j, dev := 1, blockno := 45 } :: m.gets },
        Machine.init fun _ _ => 0] := .snoc .nil (.bget chosen)
  obtain ⟨lru, rep⟩ := Machine.rep_init fun _ _ => 0
  have tags : ∀ k, ¬ ((m.bufs k).dev = 1 ∧ (m.bufs k).blockno = 46) ∧
      (k ≠ j → (m.bufs k).refcnt = 0) := by
    intro k
    rcases rep.bgetSection_cases chosen with ⟨real, -, -⟩ | ⟨-, -, rfl⟩
    · simp [Machine.init] at real
    · by_cases here : k = j
      · simp [Machine.setBuf, here]
      · simp [Machine.setBuf, here, Machine.init]
  obtain ⟨oldest, full⟩ := bget_recycles_oldest _ path fun k => (tags k).1
  cases next : Machine.bgetSection
      { m with gets := { pid := 7, buf := j, dev := 1, blockno := 45 } :: m.gets } 1 46 with
  | none =>
    have spare : ∀ j : Fin NBUF, ∃ k, k ≠ j := by decide
    obtain ⟨k, other⟩ := spare j
    have busy := full.mp next k
    rw [(tags k).2 other] at busy
    cases busy
  | some pair =>
    obtain ⟨i, m'⟩ := pair
    refine ⟨i, j, _, m', path, count, next, ?_⟩
    rintro rfl
    have idle := (oldest i m' next).1
    rw [count] at idle
    cases idle

end HaloOS
