import HaloOS.Fs.Lookup
import HaloOS.Kernel.Model

/-! The three places that resolve a path. `create` and `exec` skip a leading `/`; `iname`, which `open`
uses, takes it for the root directory and does not look at the rest. -/

namespace HaloOS

open Lib

variable {s s' : Fs} {me : ℕ} {r : Fin INODES} {name : List Byte} {E : Stop → Prop}

/-- The device and the number of the inode that a lookup returned. -/
def Fs.identity (s : Fs) (found : Option (Fin INODES)) : Option (ℕ × ℕ) :=
  found.map fun j => ((s.inodes j).dev, (s.inodes j).inum)

theorem identity_setInode {f : Inode → Inode} (same : ∀ ip, (f ip).dev = ip.dev ∧ (f ip).inum = ip.inum)
    (s : Fs) (i : Fin INODES) (found : Option (Fin INODES)) : (s.setInode i f).identity found = s.identity found := by
  cases found with
  | none => rfl
  | some j =>
    unfold Fs.identity
    by_cases here : j = i
    · subst here
      simp [same]
    · simp [here]

/-- The lookup of `create`, which goes on with the directory locked. -/
def createLookup (me : ℕ) (path : List Byte) : Fio (Fin INODES × Option (Fin INODES)) := do
  let dp ← rooti
  ilock me (some dp)
  let found ← inodeByName me dp (strip path)
  pure (dp, found)

/-- `create` starts with its lookup. -/
theorem create_starts (me : ℕ) (path : List Byte) (type major minor : ℕ) :
    ∃ rest : Fin INODES → Option (Fin INODES) → Fio (Fin INODES),
      create me path type major minor = createLookup me path >>= fun looked => rest looked.1 looked.2 := by
  unfold create createLookup
  simp only [bind_assoc, pure_bind]
  exact ⟨_, rfl⟩

/-- The lookup of `exec`. -/
def execLookup (me : ℕ) (path : List Byte) : Fio (Option (Fin INODES)) := rootsub me (strip path)

theorem exec_starts (L : Layout) (p : Fin NPROC) (path : List Byte) (argv : List (List Byte)) :
    ∃ rest : Proc → Option (Fin INODES) → Kio ℤ,
      exec L p path argv = getProc p >>= fun proc => fio (execLookup proc.pid path) >>= rest proc := by
  unfold exec execLookup
  exact ⟨_, rfl⟩

section Root

/-- The inode of the root directory on the disk. -/
def Fs.rootDinode (s : Fs) : Dinode := Dinode.read (s.cache.disk (IBLOCK ROOTINO s.sb)) (ROOTINO % IPB)

def Fs.rootEntries (s : Fs) : List (List Byte) := dirEntries s.cache.disk s.rootDinode

/-- The number of the inode that the root directory gives for a name. -/
def Fs.rootInum (s : Fs) (name : List Byte) : Option ℕ := (firstNamed name s.rootEntries).map direntInum

/-- The root directory can be looked at: its blocks are there and saved, its lock is free, and two
entries of the inode cache are. -/
structure Fs.RootReady (s : Fs) : Prop where
  dir : Directory s.cache.disk s.rootDinode
  settled : s.Settled ROOTDEV s.cache.disk
    (insert (IBLOCK ROOTINO s.sb) (fileBlocks s.cache.disk s.rootDinode))
  free : ∀ j, s.Caches j ROOTDEV ROOTINO ∨ (s.inodes j).ref = 0 → (s.inodes j).splock.locked = false
  unread : ∀ j, s.Caches j ROOTDEV ROOTINO → (s.inodes j).vaild = false
  room : ∃ j k, j ≠ k ∧ (s.inodes j).ref = 0 ∧ (s.inodes k).ref = 0

/-- After `rooti`. -/
structure Fs.RootHeld (s : Fs) (r : Fin INODES) (s' : Fs) : Prop where
  caches : s'.Caches r ROOTDEV ROOTINO
  free : (s'.inodes r).splock.locked = false
  unread : (s'.inodes r).vaild = false
  room : ∃ j, (s'.inodes j).ref = 0
  cache : s'.cache = s.cache
  sb : s'.sb = s.sb

theorem iget_rootHeld (ready : s.RootReady) : ∃ r s', iget ROOTDEV ROOTINO s = .ok (r, s') ∧ s.RootHeld r s' := by
  obtain ⟨j, k, differ, freej, freek⟩ := ready.room
  obtain ⟨r, s', got⟩ := iget_room ⟨j, freej⟩ ROOTDEV ROOTINO
  refine ⟨r, s', got, iget_caches got, ?_, ?_, ?_, ?_, ?_⟩
  all_goals rcases iget_ok got with ⟨held, rfl⟩ | ⟨zero, -, rfl⟩
  · simpa using ready.free r (.inl held)
  · simpa using ready.free r (.inr zero)
  · simpa using ready.unread r held
  · simp
  · have other : j ≠ r := by
      rintro rfl
      have positive := held.1
      omega
    exact ⟨j, by simpa [other] using freej⟩
  · by_cases here : j = r
    · have other : k ≠ r := fun same => differ (here.trans same.symm)
      exact ⟨k, by simpa [other] using freek⟩
    · exact ⟨j, by simpa [here] using freej⟩
  all_goals rfl

/-- The root directory is locked, and the lookup of a name in it found what it gives. -/
structure RootScanned (me : ℕ) (r : Fin INODES) (want : Option ℕ) (found : Option (Fin INODES)) (s : Fs) : Prop where
  held : holdingsleep me (s.inodes r).splock = true
  referenced : 1 ≤ (s.inodes r).ref
  unread : (s.inodes r).vaild = false
  found : s.identity found = want.map fun n => (ROOTDEV, n)

/-- A further `iget` keeps an entry that is in use, but for its number of references. -/
theorem iget_keeps {dev inum : ℕ} {j : Fin INODES} (got : iget dev inum s = .ok (j, s'))
    (used : 1 ≤ (s.inodes r).ref) :
    (s'.inodes r).splock = (s.inodes r).splock ∧ (s'.inodes r).vaild = (s.inodes r).vaild ∧
      1 ≤ (s'.inodes r).ref := by
  rcases iget_ok got with ⟨-, rfl⟩ | ⟨zero, -, rfl⟩
  · by_cases here : r = j
    · subst here
      simp only [setInode_self]
      exact ⟨trivial, trivial, by omega⟩
    · simp only [setInode_of_ne _ _ here]
      exact ⟨trivial, trivial, used⟩
  · have other : r ≠ j := by
      rintro rfl
      omega
    simp only [setInode_of_ne _ _ other]
    exact ⟨trivial, trivial, used⟩

theorem scan_root (me : ℕ) (name : List Byte) (ready : s.RootReady) (root : s.RootHeld r s') :
    Sat (do ilock me (some r); inodeByName me r name : Fio (Option (Fin INODES))) s' E fun found t =>
      RootScanned me r (s.rootInum name) found t := by
  have settled' : s'.Settled ROOTDEV s.cache.disk
      (insert (IBLOCK ROOTINO s.sb) (fileBlocks s.cache.disk s.rootDinode)) := by
    refine ⟨?_, ?_⟩
    · rw [root.cache]
      exact ready.settled.resting
    · rw [root.cache]
      exact ready.settled.agrees
  obtain ⟨positive, device, number⟩ := root.caches
  refine Sat.bind (ilock_settled settled' device (by decide) (by rw [number, root.sb]; exact .inl rfl) positive
    root.free root.unread) ?_
  rintro _ s₁ ⟨settled₁, sb₁, inodes₁⟩
  rw [number, root.sb] at inodes₁
  have din : (s₁.inodes r).din = s.rootDinode := by
    rw [inodes₁, Function.update_self]
    rfl
  have lock : (s₁.inodes r).splock = ⟨true, me⟩ ∧ (s₁.inodes r).vaild = false ∧ 1 ≤ (s₁.inodes r).ref := by
    rw [inodes₁, Function.update_self]
    exact ⟨rfl, root.unread, positive⟩
  have room : ∃ j, (s₁.inodes j).ref = 0 := by
    obtain ⟨j, zero⟩ := root.room
    have other : j ≠ r := by
      rintro rfl
      omega
    exact ⟨j, by rw [inodes₁, Function.update_of_ne other, zero]⟩
  refine (inodeByName_settled me name settled₁ ?_ (by decide) (by rw [din]; exact ready.dir)
    (by rw [din]; exact fun _ member => .inr member) (.inl room)).mono ?_
  · rw [inodes₁, Function.update_self]
    exact device
  rintro found t ⟨s₂, -, -, inodes₂, outcome⟩
  have entries : (firstNamed name (dirEntries s.cache.disk s.rootDinode)).map direntInum = s.rootInum name :=
    rfl
  rw [din, entries] at outcome
  have lock₂ : (s₂.inodes r).splock = ⟨true, me⟩ ∧ (s₂.inodes r).vaild = false ∧ 1 ≤ (s₂.inodes r).ref := by
    rw [inodes₂]
    exact lock
  cases want : s.rootInum name with
  | none =>
    rw [want] at outcome
    obtain ⟨rfl, rfl⟩ := outcome
    exact ⟨by simp [holdingsleep, lock₂.1], lock₂.2.2, lock₂.2.1, rfl⟩
  | some n =>
    rw [want] at outcome
    obtain ⟨j, rfl, got⟩ := outcome
    obtain ⟨same, unread, used⟩ := iget_keeps got lock₂.2.2
    obtain ⟨-, dev, inum⟩ := iget_caches got
    refine ⟨by simp [holdingsleep, same, lock₂.1], used, unread.trans lock₂.2.1, ?_⟩
    simp [Fs.identity, dev, inum]

/-- `rooti`, `ilock` and `inodeByName` return. -/
theorem root_returns (me : ℕ) (name : List Byte) (ready : s.RootReady) :
    ∃ r s₁ s₂ found t, iget ROOTDEV ROOTINO s = .ok (r, s₁) ∧ ilock me (some r) s₁ = .ok ((), s₂) ∧
      inodeByName me r name s₂ = .ok (found, t) ∧ RootScanned me r (s.rootInum name) found t := by
  obtain ⟨r, s₁, got, root⟩ := iget_rootHeld ready
  have spec : Sat (do ilock me (some r); inodeByName me r name : Fio (Option (Fin INODES))) s₁
      (fun _ => False) _ := scan_root me name ready root
  obtain ⟨found, t, scanned, facts⟩ := spec.returns
  obtain ⟨_, s₂, locked, looked⟩ := bind_ok.mp scanned
  exact ⟨r, s₁, s₂, found, t, got, locked, looked, facts⟩

/-- `iname` of a path without a leading `/`. -/
theorem iname_plain (me : ℕ) (ready : s.RootReady) (plain : name.head? ≠ some slash) :
    ∃ found t, iname me name s = .ok (found, t) ∧
      t.identity found = (s.rootInum name).map fun n => (ROOTDEV, n) := by
  obtain ⟨r, s₁, s₂, found, t, got, locked, looked, facts⟩ := root_returns me name ready
  refine ⟨found, t.setInode r fun ip => { ip with splock := sleepUnlock ip.splock }, ?_, ?_⟩
  · unfold iname
    simp only [bind_run, got, plain, ↓reduceIte, locked, looked]
    rfl
  · refine (identity_setInode ?_ t r found).trans facts.found
    exact fun _ => ⟨rfl, rfl⟩

/-- `iname` of a path with a leading `/` is the root. -/
theorem iname_slash (me : ℕ) (ready : s.RootReady) (rest : List Byte) :
    ∃ found t, iname me (slash :: rest) s = .ok (found, t) ∧ t.identity found = some (ROOTDEV, ROOTINO) := by
  obtain ⟨r, s₁, got, root⟩ := iget_rootHeld ready
  refine ⟨some r, s₁, ?_, ?_⟩
  · unfold iname
    rw [bind_run, got]
    rfl
  · simp [Fs.identity, root.caches.2.1, root.caches.2.2]

theorem createLookup_finds (me : ℕ) (ready : s.RootReady) (path : List Byte) :
    ∃ dp found t, createLookup me path s = .ok ((dp, found), t) ∧
      t.identity found = (s.rootInum (strip path)).map fun n => (ROOTDEV, n) := by
  obtain ⟨r, s₁, s₂, found, t, got, locked, looked, facts⟩ := root_returns me (strip path) ready
  refine ⟨r, found, t, ?_, facts.found⟩
  unfold createLookup rooti
  simp only [bind_run, got, locked, looked]
  rfl

theorem iunlock_run (held : holdingsleep me (s.inodes r).splock = true) (referenced : 1 ≤ (s.inodes r).ref) :
    iunlock me (some r) s = .ok ((), s.setInode r fun ip => { ip with splock := sleepUnlock ip.splock }) := by
  have fine : ¬ (holdingsleep me (s.inodes r).splock = false ∨ (s.inodes r).ref < 1) := by
    simp [held, referenced]
  unfold iunlock getInode unlockInode
  simp only [bind_run, gets_run, stopIf_run, fine, ↓reduceIte, update_run]

theorem rootsub_finds (me : ℕ) (ready : s.RootReady) (name : List Byte) :
    ∃ found t, rootsub me name s = .ok (found, t) ∧
      t.identity found = (s.rootInum name).map fun n => (ROOTDEV, n) := by
  obtain ⟨r, s₁, s₂, found, t, got, locked, looked, facts⟩ := root_returns me name ready
  have unlocked := iunlock_run facts.held facts.referenced
  have dropped : iput me r (t.setInode r fun ip => { ip with splock := sleepUnlock ip.splock }) = .ok ((), _) :=
    iput_run (by simpa using facts.unread)
  refine ⟨found, (t.setInode r fun ip => { ip with splock := sleepUnlock ip.splock }).setInode r
    fun ip => { ip with ref := ip.ref - 1 }, ?_, ?_⟩
  · unfold rootsub rooti iunlockput
    simp only [bind_run, got, locked, looked, unlocked, dropped]
    rfl
  · refine (identity_setInode ?_ _ r found).trans ((identity_setInode ?_ t r found).trans facts.found)
    · exact fun _ => ⟨rfl, rfl⟩
    · exact fun _ => ⟨rfl, rfl⟩

end Root

/-- The three lookups agree: `iname` with and without the `/`, and the ones of `create` and `exec`;
and `/` is the root. -/
structure LookupsAgree (me : ℕ) (name : List Byte) (s : Fs) : Prop where
  iname : ∃ a t a' t', iname me (slash :: name) s = .ok (a, t) ∧ HaloOS.iname me name s = .ok (a', t') ∧
    t.identity a = t'.identity a'
  create : ∃ a t dp a' t', HaloOS.iname me name s = .ok (a, t) ∧
    createLookup me (slash :: name) s = .ok ((dp, a'), t') ∧ t.identity a = t'.identity a'
  exec : ∃ a t a' t', HaloOS.iname me name s = .ok (a, t) ∧
    execLookup me (slash :: name) s = .ok (a', t') ∧ t.identity a = t'.identity a'
  root : ∃ a t, HaloOS.iname me [slash] s = .ok (a, t) ∧ t.identity a = some (ROOTDEV, ROOTINO)

/-- The first agreement alone decides: the two paths of `iname` are the root and the name. -/
theorem LookupsAgree.rootInum (agree : LookupsAgree me name s) (ready : s.RootReady)
    (plain : name.head? ≠ some slash) : s.rootInum name = some ROOTINO := by
  obtain ⟨a, t, opened, first⟩ := iname_slash me ready name
  obtain ⟨b, u, bare, second⟩ := iname_plain me ready plain
  obtain ⟨a', t', b', u', opened', bare', same⟩ := agree.iname
  rw [opened, Except.ok.injEq, Prod.mk.injEq] at opened'
  rw [bare, Except.ok.injEq, Prod.mk.injEq] at bare'
  obtain ⟨rfl, rfl⟩ := opened'
  obtain ⟨rfl, rfl⟩ := bare'
  rw [first, second] at same
  simpa using same.symm

/-- For every root directory and every name that does not start with `/`, the lookups agree exactly
when the directory gives the root itself for the name. -/
theorem lookups_agree_iff (s : Fs) (me : ℕ) (name : List Byte) (ready : s.RootReady)
    (plain : name.head? ≠ some slash) : LookupsAgree me name s ↔ s.rootInum name = some ROOTINO := by
  constructor
  · intro agree
    exact agree.rootInum ready plain
  · intro root
    obtain ⟨a, t, opened, first⟩ := iname_slash me ready name
    obtain ⟨b, u, bare, second⟩ := iname_plain me ready plain
    obtain ⟨dp, c, v, created, third⟩ := createLookup_finds me ready (slash :: name)
    obtain ⟨d, w, ran, fourth⟩ := rootsub_finds me ready (strip (slash :: name))
    refine ⟨⟨a, t, b, u, opened, bare, ?_⟩, ⟨b, u, dp, c, v, bare, created, second.trans third.symm⟩,
      ⟨b, u, d, w, bare, ran, second.trans fourth.symm⟩, iname_slash me ready []⟩
    rw [first, second, root]
    rfl

theorem twoEntries_fits : twoEntries.Fits :=
  ⟨by decide, by decide, by decide, by decide, by decide, fun _ _ => (by decide : 4 < UINT)⟩

theorem smallDir_root (block : Block) : (smallDir block).rootDinode.Same twoEntries := by
  have there : (smallDir block).cache.disk (IBLOCK ROOTINO (smallDir block).sb) = twoEntries.write 1 fun _ => 0 := by
    have place : IBLOCK ROOTINO (smallDir block).sb = 2 := rfl
    rw [place]
    simp [smallDir, initBcache]
  unfold Fs.rootDinode
  rw [there]
  exact Dinode.read_bytes twoEntries_fits fun _ small => Dinode.write_at twoEntries 1 _ small

theorem smallDir_ready (block : Block) : (smallDir block).RootReady where
  dir := (twoEntries_directory _).congr (smallDir_root block).symm
  settled := smallDir_settled block _
  free := by
    intro j _
    by_cases here : j = 0
    · subst here
      rfl
    · simp [smallDir, here]
  unread := by
    intro j _
    by_cases here : j = 0
    · subst here
      rfl
    · simp [smallDir, here]
  room := ⟨1, 2, by decide, rfl, rfl⟩

theorem smallDir_inum (block : Block) (name : List Byte) : (smallDir block).rootInum name =
    (firstNamed name [(List.range 16).map block, (List.range 16).map fun k => block (16 + k)]).map direntInum := by
  have there : (smallDir block).cache.disk 4 = block := by simp [smallDir, initBcache]
  unfold Fs.rootInum Fs.rootEntries
  rw [dirEntries_congr _ (smallDir_root block), dirEntries_two there]

/-- The name `.` is the root with and without the `/`. -/
theorem lookups_agree_dot : LookupsAgree 1 [0x2e] (smallDir dotAndX) :=
  (lookups_agree_iff (smallDir dotAndX) 1 [0x2e] (smallDir_ready _) (by decide)).mpr (by
    rw [smallDir_inum]
    decide)

/-- `open` of `/x` opens the root directory, although `x` is there. -/
theorem iname_ignores_name : (smallDir dotAndX).RootReady ∧ (smallDir dotAndX).rootInum [0x78] = some 7 ∧
    (∃ a t, iname 1 [slash, 0x78] (smallDir dotAndX) = .ok (a, t) ∧ t.identity a = some (ROOTDEV, ROOTINO)) ∧
    ¬ LookupsAgree 1 [0x78] (smallDir dotAndX) := by
  have ready := smallDir_ready dotAndX
  have number : (smallDir dotAndX).rootInum [0x78] = some 7 := by
    rw [smallDir_inum]
    decide
  refine ⟨ready, number, iname_slash 1 ready [0x78], fun agree => ?_⟩
  have root := agree.rootInum ready (by decide)
  rw [number] at root
  exact absurd root (by decide)

end HaloOS
