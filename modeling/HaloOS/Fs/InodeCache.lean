import HaloOS.Fs.Model
import HaloOS.Lib.Trace

/-! The inode cache over the runs of its operations. A step is one returning call; a panic
ends the run. The counts are of type `int` and are taken not to overflow. -/

namespace HaloOS

open Lib

variable {s s' : Fs} {i j : Fin INODES} {dev inum me : ℕ}

/-- A call on the inode cache. `iget` tells which entry it returned and whether it filled it;
`store` is an assignment to the fields of a locked inode by its holder. -/
inductive InodeEvent where
  | iget (dev inum : ℕ) (i : Fin INODES) (entered : Bool)
  | idup (i : Fin INODES)
  | ilock (me : ℕ) (i : Fin INODES)
  | iunlock (me : ℕ) (i : Fin INODES)
  | store (i : Fin INODES) (f : Dinode → Dinode)
  | iupdate (me : ℕ) (i : Fin INODES)
  | iput (me : ℕ) (i : Fin INODES)

/-- Only an entry that is in use is duplicated or put. -/
inductive InodeStep : Fs → InodeEvent → Fs → Prop where
  | iget {s s' : Fs} {dev inum : ℕ} {i : Fin INODES} (returns : iget dev inum s = .ok (i, s')) :
      InodeStep s (.iget dev inum i ((s.inodes i).ref == 0)) s'
  | idup {s s' : Fs} {i j : Fin INODES} (used : 1 ≤ (s.inodes i).ref)
      (returns : idup i s = .ok (j, s')) : InodeStep s (.idup i) s'
  | ilock {s s' : Fs} {me : ℕ} {i : Fin INODES} (returns : ilock me (some i) s = .ok ((), s')) :
      InodeStep s (.ilock me i) s'
  | iunlock {s s' : Fs} {me : ℕ} {i : Fin INODES} (returns : iunlock me (some i) s = .ok ((), s')) :
      InodeStep s (.iunlock me i) s'
  | store {s : Fs} {i : Fin INODES} {f : Dinode → Dinode}
      (held : (s.inodes i).splock.locked = true) :
      InodeStep s (.store i f) (s.setInode i fun ip => { ip with din := f ip.din })
  | iupdate {s s' : Fs} {me : ℕ} {i : Fin INODES} (returns : iupdate me i s = .ok ((), s')) :
      InodeStep s (.iupdate me i) s'
  | iput {s s' : Fs} {me : ℕ} {i : Fin INODES} (used : 1 ≤ (s.inodes i).ref)
      (returns : iput me i s = .ok ((), s')) : InodeStep s (.iput me i) s'

/-- The entry stands for this inode. -/
def Fs.Caches (s : Fs) (i : Fin INODES) (dev inum : ℕ) : Prop :=
  0 < (s.inodes i).ref ∧ (s.inodes i).dev = dev ∧ (s.inodes i).inum = inum

@[simp] theorem setInode_self (s : Fs) (i : Fin INODES) (f : Inode → Inode) :
    (s.setInode i f).inodes i = f (s.inodes i) := by
  simp [Fs.setInode]

@[simp] theorem setInode_of_ne (s : Fs) {i j : Fin INODES} (f : Inode → Inode) (other : j ≠ i) :
    (s.setInode i f).inodes j = s.inodes j := by
  simp [Fs.setInode, other]

@[simp] theorem setInode_cache (s : Fs) (i : Fin INODES) (f : Inode → Inode) :
    (s.setInode i f).cache = s.cache := rfl

/-- The entry that the loop of `iget` returns at once. -/
def Fs.held (s : Fs) (dev inum : ℕ) : Option (Fin INODES) := (List.finRange INODES).find? fun i =>
  decide (0 < (s.inodes i).ref) && (s.inodes i).dev == dev && (s.inodes i).inum == inum

/-- The free entry it remembers. -/
def Fs.spare (s : Fs) : Option (Fin INODES) :=
  (List.finRange INODES).find? fun i => (s.inodes i).ref == 0

theorem held_some (found : s.held dev inum = some i) : s.Caches i dev inum := by
  have tag := List.find?_some found
  simp only [Bool.and_eq_true, decide_eq_true_eq, beq_iff_eq] at tag
  exact ⟨tag.1.1, tag.1.2, tag.2⟩

theorem held_none (missing : s.held dev inum = none) (j : Fin INODES) : ¬ s.Caches j dev inum := by
  rintro ⟨used, rfl, rfl⟩
  have absent := List.find?_eq_none.mp missing j (List.mem_finRange j)
  simp [used] at absent

theorem spare_some (found : s.spare = some i) : (s.inodes i).ref = 0 := by
  simpa using List.find?_some found

theorem spare_none (full : s.spare = none) (j : Fin INODES) : (s.inodes j).ref ≠ 0 := by
  simpa using List.find?_eq_none.mp full j (List.mem_finRange j)

theorem iget_run (s : Fs) (dev inum : ℕ) : iget dev inum s = match s.held dev inum, s.spare with
    | some i, _ => .ok (i, s.setInode i fun ip => { ip with ref := ip.ref + 1 })
    | none, some i =>
      .ok (i, s.setInode i fun ip => { ip with dev, inum, ref := 1, vaild := false })
    | none, none => .error (.panic "iget panic") := by
  unfold iget
  rw [bind_run, gets_run]
  cases found : s.held dev inum with
  | some i =>
    unfold Fs.held at found
    simp only [id_eq, found]
    rfl
  | none =>
    unfold Fs.held at found
    cases free : s.spare with
    | some i =>
      unfold Fs.spare at free
      simp only [id_eq, found, free]
      rfl
    | none =>
      unfold Fs.spare at free
      simp only [id_eq, found, free]
      rfl

/-- Everything a returning `iget` can do: one more reference to the entry of the inode, or
the first to a free entry if there is none. -/
theorem iget_ok (returns : iget dev inum s = .ok (i, s')) :
    (s.Caches i dev inum ∧ s' = s.setInode i fun ip => { ip with ref := ip.ref + 1 }) ∨
    ((s.inodes i).ref = 0 ∧ (∀ j, ¬ s.Caches j dev inum) ∧
      s' = s.setInode i fun ip => { ip with dev, inum, ref := 1, vaild := false }) := by
  rw [iget_run] at returns
  cases found : s.held dev inum with
  | some k =>
    simp only [found, Except.ok.injEq, Prod.mk.injEq] at returns
    obtain ⟨rfl, rfl⟩ := returns
    exact .inl ⟨held_some found, rfl⟩
  | none =>
    cases free : s.spare with
    | some k =>
      simp only [found, free, Except.ok.injEq, Prod.mk.injEq] at returns
      obtain ⟨rfl, rfl⟩ := returns
      exact .inr ⟨spare_some free, held_none found, rfl⟩
    | none => simp [found, free] at returns

/-- `iget` stops only where neither the inode nor a free entry is in the cache. -/
theorem iget_error {e : Stop} (stops : iget dev inum s = .error e) :
    e = .panic "iget panic" ∧ (∀ j, (s.inodes j).ref ≠ 0) ∧ ∀ j, ¬ s.Caches j dev inum := by
  rw [iget_run] at stops
  cases found : s.held dev inum with
  | some k => simp [found] at stops
  | none =>
    cases free : s.spare with
    | some k => simp [found, free] at stops
    | none =>
      simp only [found, free, Except.error.injEq] at stops
      exact ⟨stops.symm, spare_none free, held_none found⟩

/-- No entry is loaded in the sense of the flag `vaild`: `ilock` clears it. -/
def Fs.Unvaild (s : Fs) : Prop := ∀ i, (s.inodes i).vaild = false

/-- `iput` of such an entry drops a reference and nothing else. -/
theorem iput_run (unread : (s.inodes i).vaild = false) :
    iput me i s = .ok ((), s.setInode i fun ip => { ip with ref := ip.ref - 1 }) := by
  unfold iput getInode
  rw [bind_run, gets_run]
  dsimp only
  rw [bind_run, onlyIf_run, if_neg (by simp [unread])]
  rfl

/-- What the calls other than `iget`, `idup` and `iput` leave alone. -/
structure Fs.SameEntries (s s' : Fs) : Prop where
  dev : ∀ i, (s'.inodes i).dev = (s.inodes i).dev
  inum : ∀ i, (s'.inodes i).inum = (s.inodes i).inum
  ref : ∀ i, (s'.inodes i).ref = (s.inodes i).ref
  vaild : ∀ i, (s.inodes i).vaild = false → (s'.inodes i).vaild = false

theorem Fs.SameEntries.refl (s : Fs) : s.SameEntries s :=
  ⟨fun _ => rfl, fun _ => rfl, fun _ => rfl, fun _ unread => unread⟩

theorem Fs.SameEntries.trans {s₁ s₂ s₃ : Fs} (first : s₁.SameEntries s₂)
    (second : s₂.SameEntries s₃) : s₁.SameEntries s₃ where
  dev := fun i => (second.dev i).trans (first.dev i)
  inum := fun i => (second.inum i).trans (first.inum i)
  ref := fun i => (second.ref i).trans (first.ref i)
  vaild := fun i unread => second.vaild i (first.vaild i unread)

theorem sameEntries_setInode (s : Fs) (i : Fin INODES) {f : Inode → Inode}
    (dev : (f (s.inodes i)).dev = (s.inodes i).dev) (inum : (f (s.inodes i)).inum = (s.inodes i).inum)
    (ref : (f (s.inodes i)).ref = (s.inodes i).ref)
    (vaild : (s.inodes i).vaild = false → (f (s.inodes i)).vaild = false) :
    s.SameEntries (s.setInode i f) := by
  constructor <;> intro j <;> by_cases here : j = i
  all_goals first
    | (subst here; simpa using by assumption)
    | simp [here]

theorem bio_sameEntries {α : Type} (m : Bio α) (s : Fs) :
    Sat (bio m) s anyStop fun _ s' => s.SameEntries s' := by
  refine Sat.ofOk fun a s' returned => ?_
  obtain ⟨cache, -, rfl⟩ := zoom_ok.mp returned
  exact ⟨fun _ => rfl, fun _ => rfl, fun _ => rfl, fun _ unread => unread⟩

theorem lockInode_sameEntries (me : ℕ) (i : Fin INODES) (s : Fs) :
    Sat (lockInode me i) s anyStop fun _ s' => s.SameEntries s' := by
  unfold Sat lockInode
  cases sleepLock me (s.inodes i).splock with
  | ok splock => exact sameEntries_setInode s i rfl rfl rfl id
  | error e => trivial

theorem ilock_sameEntries (me : ℕ) (i : Fin INODES) (s : Fs) :
    Sat (ilock me (some i)) s anyStop fun _ s' => s.SameEntries s' := by
  unfold ilock
  refine Sat.bind (Sat.gets (Q := fun _ t => s = t) rfl) ?_
  rintro ip _ rfl
  refine Sat.bind (Sat.stopIf (Q := fun _ t => s = t) (fun _ => trivial) fun _ => rfl) ?_
  rintro _ _ rfl
  refine Sat.bind (lockInode_sameEntries me i s) fun _ s₁ same₁ => ?_
  refine Sat.onlyIf (fun _ => ?_) fun _ => same₁
  refine Sat.bind (Sat.gets (Q := fun _ t => s₁ = t) rfl) ?_
  rintro sb _ rfl
  refine Sat.bind (bio_sameEntries _ s₁) fun b s₂ same₂ => ?_
  refine Sat.bind (bio_sameEntries _ s₂) fun data s₃ same₃ => ?_
  refine Sat.bind (Sat.update (Q := fun _ t => s₃.SameEntries t)
    (sameEntries_setInode s₃ i rfl rfl rfl id)) fun _ s₄ same₄ => ?_
  refine Sat.bind (bio_sameEntries _ s₄) fun _ s₅ same₅ => Sat.update ?_
  exact (((same₁.trans same₂).trans same₃).trans same₄).trans
    (same₅.trans (sameEntries_setInode s₅ i rfl rfl rfl fun _ => rfl))

theorem iunlock_sameEntries (me : ℕ) (i : Fin INODES) (s : Fs) :
    Sat (iunlock me (some i)) s anyStop fun _ s' => s.SameEntries s' := by
  unfold iunlock
  refine Sat.bind (Sat.gets (Q := fun _ t => s = t) rfl) ?_
  rintro ip _ rfl
  refine Sat.bind (Sat.stopIf (Q := fun _ t => s = t) (fun _ => trivial) fun _ => rfl) ?_
  rintro _ _ rfl
  exact Sat.update (sameEntries_setInode s i rfl rfl rfl id)

theorem iupdate_sameEntries (me : ℕ) (i : Fin INODES) (s : Fs) :
    Sat (iupdate me i) s anyStop fun _ s' => s.SameEntries s' := by
  unfold iupdate
  refine Sat.bind (Sat.gets (Q := fun _ t => s = t) rfl) ?_
  rintro ip _ rfl
  refine Sat.bind (Sat.gets (Q := fun _ t => s = t) rfl) ?_
  rintro sb _ rfl
  refine Sat.bind (bio_sameEntries _ s) fun b s₁ same₁ => ?_
  refine Sat.bind (bio_sameEntries _ s₁) fun data s₂ same₂ => ?_
  refine Sat.bind (bio_sameEntries _ s₂) fun _ s₃ same₃ => ?_
  refine Sat.bind (bio_sameEntries _ s₃) fun _ s₄ same₄ => ?_
  refine (bio_sameEntries _ s₄).mono fun _ s₅ same₅ => ?_
  exact (((same₁.trans same₂).trans same₃).trans same₄).trans same₅

/-- A live entry is the only one of its inode. -/
structure Fs.EntriesInv (s : Fs) : Prop where
  counts : ∀ i, 0 ≤ (s.inodes i).ref
  unique : ∀ i j dev inum, s.Caches i dev inum → s.Caches j dev inum → i = j
  unvaild : s.Unvaild

/-- The step changes the reference count of one entry, which keeps its inode while it is in
use, and no other entry. -/
structure Fs.Recounts (s : Fs) (i : Fin INODES) (by_ : ℤ) (s' : Fs) : Prop where
  ref : (s'.inodes i).ref = (s.inodes i).ref + by_
  kept : 0 < (s.inodes i).ref →
    (s'.inodes i).dev = (s.inodes i).dev ∧ (s'.inodes i).inum = (s.inodes i).inum
  unvaild : (s.inodes i).vaild = false → (s'.inodes i).vaild = false
  others : ∀ j, j ≠ i → s'.inodes j = s.inodes j
  cache : s'.cache = s.cache

theorem iget_recounts (returns : iget dev inum s = .ok (i, s')) :
    s.Recounts i 1 s' ∧ s'.Caches i dev inum := by
  rcases iget_ok returns with ⟨⟨used, tag⟩, rfl⟩ | ⟨zero, -, rfl⟩
  · refine ⟨⟨by simp, fun _ => by simp, by simp, fun j other => by simp [other], rfl⟩, ?_⟩
    refine ⟨?_, by simpa using tag⟩
    simp only [setInode_self]
    omega
  · refine ⟨⟨by simp [zero], fun used => by omega, by simp, fun j other => by simp [other], rfl⟩, ?_⟩
    simp [Fs.Caches]

theorem idup_recounts (returns : idup i s = .ok (j, s')) : s.Recounts i 1 s' := by
  obtain ⟨_, _, raised, last⟩ := bind_ok.mp returns
  obtain rfl := update_ok.mp raised
  obtain ⟨-, rfl⟩ := pure_ok.mp last
  exact ⟨by simp, fun _ => by simp, by simp, fun k other => by simp [other], rfl⟩

theorem iput_recounts (unread : (s.inodes i).vaild = false) (returns : iput me i s = .ok ((), s')) :
    s.Recounts i (-1) s' := by
  rw [iput_run unread] at returns
  obtain rfl : _ = s' := by simpa using returns
  exact ⟨by simp [sub_eq_add_neg], fun _ => by simp, by simp, fun k other => by simp [other], rfl⟩

/-- One step: only `iget`, `idup` and `iput` touch the counts, of one entry each. -/
theorem InodeStep.effect {e : InodeEvent} (taken : InodeStep s e s') (unvaild : s.Unvaild) :
    s.SameEntries s' ∨
    (∃ dev inum i, HaloOS.iget dev inum s = .ok (i, s')) ∨
    ∃ i by_, 1 ≤ (s.inodes i).ref ∧ -1 ≤ by_ ∧ s.Recounts i by_ s' := by
  cases taken with
  | iget returns => exact .inr (.inl ⟨_, _, _, returns⟩)
  | idup used returns => exact .inr (.inr ⟨_, 1, used, by decide, idup_recounts returns⟩)
  | ilock returns => exact .inl ((ilock_sameEntries _ _ s).ok returns)
  | iunlock returns => exact .inl ((iunlock_sameEntries _ _ s).ok returns)
  | store held => exact .inl (sameEntries_setInode s _ rfl rfl rfl id)
  | iupdate returns => exact .inl ((iupdate_sameEntries _ _ s).ok returns)
  | iput used returns =>
    exact .inr (.inr ⟨_, -1, used, le_refl _, iput_recounts (unvaild _) returns⟩)

theorem Fs.SameEntries.caches_iff (same : s.SameEntries s') (i : Fin INODES) (dev inum : ℕ) :
    s'.Caches i dev inum ↔ s.Caches i dev inum := by
  unfold Fs.Caches
  rw [same.ref, same.dev, same.inum]

/-- An entry that is in use after the step was so before, or is the one just filled. -/
theorem Fs.Recounts.caches {by_ : ℤ} (recounts : s.Recounts i by_ s') (used : 1 ≤ (s.inodes i).ref)
    (cached : s'.Caches j dev inum) : s.Caches j dev inum := by
  by_cases here : j = i
  · subst here
    obtain ⟨-, rfl, rfl⟩ := cached
    obtain ⟨dev, inum⟩ := recounts.kept used
    exact ⟨used, dev.symm, inum.symm⟩
  · unfold Fs.Caches at cached ⊢
    rwa [recounts.others j here] at cached

theorem Fs.EntriesInv.step {e : InodeEvent} (inv : s.EntriesInv) (taken : InodeStep s e s') :
    s'.EntriesInv := by
  rcases taken.effect inv.unvaild with same | ⟨dev, inum, i, returns⟩ | ⟨i, by_, used, low, recounts⟩
  · refine ⟨fun i => same.ref i ▸ inv.counts i, fun i j dev inum one two => ?_,
      fun i => same.vaild i (inv.unvaild i)⟩
    exact inv.unique i j dev inum ((same.caches_iff i dev inum).mp one)
      ((same.caches_iff j dev inum).mp two)
  · obtain ⟨recounts, cached⟩ := iget_recounts returns
    refine ⟨fun j => ?_, fun j k dev' inum' one two => ?_, fun j => ?_⟩
    · by_cases here : j = i
      · have before := inv.counts i
        rw [here, recounts.ref]
        omega
      · rw [recounts.others j here]
        exact inv.counts j
    · -- the entry that `iget` filled has a new inode
      have fresh : ∀ k, k ≠ i → ¬ s'.Caches k dev inum := by
        intro k other known
        have old : s.Caches k dev inum := by
          unfold Fs.Caches at known ⊢
          rwa [recounts.others k other] at known
        rcases iget_ok returns with ⟨hit, -⟩ | ⟨-, none, -⟩
        · exact other (inv.unique k i dev inum old hit)
        · exact none k old
      obtain ⟨-, named, numbered⟩ := cached
      by_cases left : j = i <;> by_cases right : k = i
      · rw [left, right]
      · subst left
        obtain ⟨-, rfl, rfl⟩ := one
        rw [named, numbered] at two
        exact absurd two (fresh k right)
      · subst right
        obtain ⟨-, rfl, rfl⟩ := two
        rw [named, numbered] at one
        exact absurd one (fresh j left)
      · unfold Fs.Caches at one two
        rw [recounts.others j left] at one
        rw [recounts.others k right] at two
        exact inv.unique j k dev' inum' one two
    · by_cases here : j = i
      · rw [here]
        exact recounts.unvaild (inv.unvaild i)
      · rw [recounts.others j here]
        exact inv.unvaild j
  · refine ⟨fun j => ?_, fun j k dev inum one two => ?_, fun j => ?_⟩
    · by_cases here : j = i
      · rw [here, recounts.ref]
        omega
      · rw [recounts.others j here]
        exact inv.counts j
    · exact inv.unique j k dev inum (recounts.caches used one) (recounts.caches used two)
    · by_cases here : j = i
      · rw [here]
        exact recounts.unvaild (inv.unvaild i)
      · rw [recounts.others j here]
        exact inv.unvaild j

/-- After `init_inodecache`. -/
theorem entriesInv_init (fresh : s.inodes = initInodecache) : s.EntriesInv := by
  refine ⟨fun i => ?_, fun i j dev inum cached _ => ?_, fun i => ?_⟩
  · simp [fresh, initInodecache]
  · simp [Fs.Caches, fresh, initInodecache] at cached
  · simp [fresh, initInodecache]

theorem entriesInv_of_run {start : Fs} {past : List InodeEvent} (fresh : start.inodes = initInodecache)
    (run : Trace InodeStep start past s) : s.EntriesInv :=
  run.invariant (fun _ s => s.EntriesInv) (entriesInv_init fresh) fun _ _ _ _ inv taken => inv.step taken

/-- In every run the live entries are of distinct inodes, `iget` returns the entry of the inode
with one more reference, a live entry keeps its inode, and `iget` panics only if it must. -/
theorem inode_cache_unique {start : Fs} {past : List InodeEvent}
    (fresh : start.inodes = initInodecache) (run : Trace InodeStep start past s) :
    (∀ i j, 0 < (s.inodes i).ref → 0 < (s.inodes j).ref → (s.inodes i).dev = (s.inodes j).dev →
      (s.inodes i).inum = (s.inodes j).inum → i = j) ∧
    (∀ dev inum i s', iget dev inum s = .ok (i, s') → (s'.inodes i).dev = dev ∧
      (s'.inodes i).inum = inum ∧ (s'.inodes i).ref = (s.inodes i).ref + 1 ∧
      ∀ j, j ≠ i → s'.inodes j = s.inodes j) ∧
    (∀ e s', InodeStep s e s' → ∀ i, 0 < (s.inodes i).ref →
      (s'.inodes i).dev = (s.inodes i).dev ∧ (s'.inodes i).inum = (s.inodes i).inum) ∧
    (∀ dev inum e, iget dev inum s = .error e → ∀ i, 0 < (s.inodes i).ref ∧
      ¬ ((s.inodes i).dev = dev ∧ (s.inodes i).inum = inum)) := by
  have inv := entriesInv_of_run fresh run
  refine ⟨fun i j left right dev inum => ?_, fun dev inum i s' returns => ?_,
    fun e s' taken i used => ?_, fun dev inum e stops i => ?_⟩
  · exact inv.unique i j _ _ ⟨left, dev, inum⟩ ⟨right, rfl, rfl⟩
  · obtain ⟨recounts, -, named, numbered⟩ := iget_recounts returns
    exact ⟨named, numbered, recounts.ref, recounts.others⟩
  · have kept : ∀ k by_, s.Recounts k by_ s' →
        (s'.inodes i).dev = (s.inodes i).dev ∧ (s'.inodes i).inum = (s.inodes i).inum := by
      intro k by_ recounts
      by_cases here : i = k
      · subst here
        exact recounts.kept used
      · rw [recounts.others i here]
        exact ⟨rfl, rfl⟩
    rcases taken.effect inv.unvaild with same | ⟨dev, inum, k, returns⟩ | ⟨k, by_, -, -, recounts⟩
    · exact ⟨same.dev i, same.inum i⟩
    · exact kept k 1 (iget_recounts returns).1
    · exact kept k by_ recounts
  · obtain ⟨-, full, missing⟩ := iget_error stops
    have used : 0 < (s.inodes i).ref := lt_of_le_of_ne (inv.counts i) (full i).symm
    exact ⟨used, fun tag => missing i ⟨used, tag⟩⟩

/-- A file system that has just been mounted. -/
def freshFs (disk : ℕ → Block) (sb : Superblock) : Fs := ⟨initBcache disk, sb, initInodecache⟩

theorem freshFs_iget (disk : ℕ → Block) (sb : Superblock) (dev inum : ℕ) :
    iget dev inum (freshFs disk sb) = .ok (0, (freshFs disk sb).setInode 0 fun ip =>
      { ip with dev, inum, ref := 1, vaild := false }) := by
  rw [iget_run]
  have missing : (freshFs disk sb).held dev inum = none := by
    simp [Fs.held, freshFs, initInodecache]
  have first : (freshFs disk sb).spare = some 0 := by
    have zero : ∀ i, ((freshFs disk sb).inodes i).ref = 0 := fun _ => rfl
    simp only [Fs.spare, zero]
    decide
  rw [missing, first]

theorem inode_cache_unique_first : ∃ s : Fs,
    Trace InodeStep (freshFs (fun _ _ => 0) mkfsSuperblock) [.iget 1 5 0 true] s ∧
      (s.inodes 0).ref = 1 ∧ ∀ i j, 0 < (s.inodes i).ref → 0 < (s.inodes j).ref →
        (s.inodes i).dev = (s.inodes j).dev → (s.inodes i).inum = (s.inodes j).inum → i = j := by
  have taken : InodeStep (freshFs (fun _ _ => 0) mkfsSuperblock) (.iget 1 5 0 true) _ :=
    .iget (freshFs_iget _ _ 1 5)
  exact ⟨_, .single taken, by simp, (inode_cache_unique rfl (.single taken)).1⟩

end HaloOS
