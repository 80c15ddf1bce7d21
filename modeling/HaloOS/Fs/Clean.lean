import HaloOS.Fs.Layout

/-! Reading through an idle buffer cache: when nobody uses a buffer and every valid one
holds its block, the read paths of `fs.c` return what is on the disk and leave the cache
in the same condition. -/

namespace HaloOS

open Lib

variable {disk : ℕ → Block} {sb : Superblock} {c : Bcache} {s : Fs} {me n : ℕ} {b : Fin NBUF}
  {i : Fin INODES} {E : Stop → Prop}

/-- No buffer is in use, and the valid ones hold what is on the disk. -/
structure Idle (disk : ℕ → Block) (c : Bcache) : Prop where
  wf : c.Wf
  onDisk : c.disk = disk
  free : ∀ i, (c.bufs i).refcnt = 0
  clean : ∀ i, (c.bufs i).vaild = true → (c.bufs i).dev = ROOTDEV ∧
    (c.bufs i).data = disk (c.bufs i).blockno

/-- Buffer `b`, with block `n`, is the only one in use: its release makes the cache idle. -/
structure Lent (disk : ℕ → Block) (me n : ℕ) (b : Fin NBUF) (c : Bcache) : Prop where
  holding : holdingsleep me (c.bufs b).sk = true
  tag : (c.bufs b).vaild = true ∧ (c.bufs b).blockno = n
  idle : Idle disk (unref b (c.setBuf b fun b => { b with sk := sleepUnlock b.sk }))

theorem idle_initBcache (disk : ℕ → Block) : Idle disk (initBcache disk) where
  wf := wf_initBcache disk
  onDisk := rfl
  free := fun _ => rfl
  clean := by simp [initBcache]

theorem Idle.unlocked (idle : Idle disk c) (i : Fin NBUF) : (c.bufs i).sk.locked = false := by
  by_contra locked
  have referenced := idle.wf.held i (by simpa using locked)
  have free := idle.free i
  omega

theorem Idle.block (idle : Idle disk c) (n : ℕ) : c.block ROOTDEV n = disk n := by
  unfold Bcache.block
  cases found : c.lookup ROOTDEV n with
  | none => simp [idle.onDisk]
  | some i =>
    obtain ⟨dev, rfl⟩ := Bcache.lookup_tag found
    cases vaild : (c.bufs i).vaild with
    | false => simp [vaild, idle.onDisk]
    | true => simpa [vaild] using (idle.clean i vaild).2

theorem lockBuf_run {i : Fin NBUF} (free : (c.bufs i).sk.locked = false) :
    lockBuf me i c = .ok ((), c.setBuf i ({ · with sk := ⟨true, me⟩ })) := by
  unfold lockBuf sleepLock
  simp [free]

/-- An idle cache always has a buffer to give. -/
theorem bget_idle (me : ℕ) (idle : Idle disk c) (dev n : ℕ) : ∃ r, bget me dev n c = .ok r := by
  unfold bget
  rw [bind_run, gets_run]
  cases found : c.lookup dev n with
  | some i =>
    simp only [id_eq, found, bind_run, update_run]
    rw [lockBuf_run (by simpa [Bcache.setBuf] using idle.unlocked i)]
    exact ⟨_, rfl⟩
  | none =>
    cases chosen : c.victim with
    | none =>
      have busy := List.find?_eq_none.mp chosen (0 : Fin NBUF) (by simpa using idle.wf.complete 0)
      simp [idle.free 0] at busy
    | some i =>
      simp only [id_eq, found, chosen, bind_run, update_run]
      rw [lockBuf_run (by simpa [Bcache.setBuf] using idle.unlocked i)]
      exact ⟨_, rfl⟩

theorem brelease_run (holding : holdingsleep me (c.bufs b).sk = true) :
    brelease me b c = .ok ((), unref b (c.setBuf b fun b => { b with sk := sleepUnlock b.sk })) := by
  unfold brelease
  simp [bind_run, stopIf_run, holding]

theorem bread_idle (idle : Idle disk c) :
    Sat (bread me ROOTDEV n) c E fun b c' => Lent disk me n b c' ∧ (c'.bufs b).data = disk n := by
  obtain ⟨r, got⟩ := bget_idle me idle ROOTDEV n
  have total : ∃ r, bread me ROOTDEV n c = .ok r := by
    obtain ⟨i, t⟩ := r
    unfold bread
    cases vaild : (t.bufs i).vaild with
    | true => exact ⟨_, by simp [bind_run, got, vaild]; rfl⟩
    | false => exact ⟨_, by simp [bind_run, got, vaild, diskRead]; rfl⟩
  obtain ⟨⟨b, c'⟩, returned⟩ := total
  have wf' := wf_bread idle.wf returned
  obtain ⟨refs, rfl, -, how⟩ := bread_ok returned
  have one : refs = 1 := by
    rcases how with ⟨-, rfl⟩ | ⟨-, -, rfl⟩
    · rw [idle.free b]
    · rfl
  subst one
  rw [idle.block n] at returned wf'
  unfold Sat
  rw [returned]
  have holding : holdingsleep me ((c.setBuf b fun _ => loaded me ROOTDEV n 1 (disk n)).bufs b).sk = true := by
    simp [Bcache.setBuf, loaded, holdingsleep]
  refine ⟨⟨holding, by simp [Bcache.setBuf, loaded], ?_⟩, by simp [Bcache.setBuf, loaded]⟩
  refine ⟨wf_brelease wf' (brelease_run holding), idle.onDisk, fun j => ?_, fun j => ?_⟩
  · by_cases same : j = b
    · subst same
      simp [unref_bufs, Bcache.setBuf, loaded]
    · simpa [unref_bufs, Bcache.setBuf, same] using idle.free j
  · by_cases same : j = b
    · subst same
      simp [unref_bufs, Bcache.setBuf, loaded]
    · simpa [unref_bufs, Bcache.setBuf, same] using idle.clean j

theorem brelease_lent (lent : Lent disk me n b c) : Sat (brelease me b) c E fun _ c' => Idle disk c' := by
  unfold Sat
  rw [brelease_run lent.holding]
  exact lent.idle

/-- A store followed by `bwrite` changes the block on the disk along with the buffer. -/
theorem Lent.write (lent : Lent disk me n b c) (data : Block) :
    Lent (Function.update disk n data) me n b { c.setBuf b ({ · with data }) with
      disk := Function.update c.disk n data } := by
  have idle := lent.idle
  have here : (c.bufs b).blockno = n := lent.tag.2
  have onDisk : c.disk = disk := idle.onDisk
  have same : unref b (({ c.setBuf b ({ · with data }) with
      disk := Function.update c.disk n data } : Bcache).setBuf b fun b => { b with sk := sleepUnlock b.sk }) =
      { (unref b (c.setBuf b fun b => { b with sk := sleepUnlock b.sk })).setBuf b ({ · with data }) with
        disk := Function.update c.disk n data } := by
    simp [unref, Bcache.setBuf]
  refine ⟨by simpa [Bcache.setBuf] using lent.holding, by simpa [Bcache.setBuf] using lent.tag, ?_⟩
  rw [same]
  have wf := wf_setData idle.wf b data
  have own := idle.clean b (by simpa [unref_bufs, Bcache.setBuf] using lent.tag.1)
  have block : ((unref b (c.setBuf b fun b => { b with sk := sleepUnlock b.sk })).bufs b).blockno = n := by
    simpa [unref_bufs, Bcache.setBuf] using here
  generalize unref b (c.setBuf b fun b => { b with sk := sleepUnlock b.sk }) = c₁ at idle wf own block
  have others : ∀ j ≠ b, (c₁.setBuf b ({ · with data })).bufs j = c₁.bufs j := by
    intro j self
    simp [Bcache.setBuf, self]
  have changed : (c₁.setBuf b ({ · with data })).bufs b = { c₁.bufs b with data } := by
    simp [Bcache.setBuf]
  refine ⟨⟨wf.nodup, wf.complete, wf.tags, wf.held⟩, by rw [onDisk], fun j => ?_, fun j => ?_⟩
  · dsimp only
    by_cases self : j = b
    · rw [self, changed]
      exact idle.free b
    · rw [others j self]
      exact idle.free j
  · dsimp only
    by_cases self : j = b
    · intro _
      rw [self, changed, block, Function.update_self]
      exact ⟨own.1, rfl⟩
    · rw [others j self]
      intro valid
      have other := idle.clean j valid
      -- a second valid buffer cannot carry the same tag
      have apart : (c₁.bufs j).blockno ≠ n := fun clash =>
        self (idle.wf.tags j b (by rw [other.1]; decide) (other.1.trans own.1.symm)
          (clash.trans block.symm))
      rw [Function.update_of_ne apart]
      exact other

/-- The kernel between two file system operations. -/
structure Clean (disk : ℕ → Block) (sb : Superblock) (s : Fs) : Prop where
  idle : Idle disk s.cache
  super : s.sb = sb

theorem bio_bread (clean : Clean disk sb s) :
    Sat (bio (bread me ROOTDEV n)) s E fun b s' => Lent disk me n b s'.cache ∧ s'.sb = sb ∧
      s'.inodes = s.inodes ∧ (s'.cache.bufs b).data = disk n :=
  Sat.zoom ((bread_idle clean.idle).mono fun _ _ facts => ⟨facts.1, clean.super, rfl, facts.2⟩)

theorem bio_brelease (lent : Lent disk me n b s.cache) (super : s.sb = sb) :
    Sat (bio (brelease me b)) s E fun _ s' => Clean disk sb s' ∧ s'.inodes = s.inodes :=
  Sat.zoom ((brelease_lent lent).mono fun _ _ idle => ⟨⟨idle, super⟩, rfl⟩)

/-- Between a store into `bp->data` and its `bwrite`. -/
structure Pending (disk : ℕ → Block) (me n : ℕ) (b : Fin NBUF) (data : Block) (c : Bcache) : Prop where
  holding : holdingsleep me (c.bufs b).sk = true
  block : (c.bufs b).blockno = n
  stored : (c.bufs b).data = data
  written : Lent (Function.update disk n data) me n b { c with disk := Function.update c.disk n data }

theorem bio_setData (lent : Lent disk me n b s.cache) (super : s.sb = sb) (data : Block) :
    Sat (bio (setData b data)) s E fun _ s' => Pending disk me n b data s'.cache ∧ s'.sb = sb ∧
      s'.inodes = s.inodes := by
  refine Sat.zoom (Sat.update ⟨⟨?_, ?_, ?_, lent.write data⟩, super, rfl⟩)
  · simpa [Bcache.setBuf] using lent.holding
  · simpa [Bcache.setBuf] using lent.tag.2
  · simp [Bcache.setBuf]

theorem bio_bwrite {data : Block} (pending : Pending disk me n b data s.cache) (super : s.sb = sb) :
    Sat (bio (bwrite me b)) s E fun _ s' => Lent (Function.update disk n data) me n b s'.cache ∧
      s'.sb = sb ∧ s'.inodes = s.inodes := by
  unfold bwrite
  refine Sat.zoom (Sat.bind (Sat.gets (Q := fun a t => s.cache = a ∧ s.cache = t) ⟨rfl, rfl⟩) ?_)
  rintro _ _ ⟨rfl, rfl⟩
  refine Sat.bind (Sat.stopIf (Q := fun _ t => s.cache = t)
    (fun bad => by rw [pending.holding] at bad; cases bad) fun _ => rfl) ?_
  rintro _ _ rfl
  refine Sat.update ⟨?_, super, rfl⟩
  rw [pending.block, pending.stored]
  exact pending.written

theorem bio_bufData {b : Fin NBUF} :
    Sat (bio (bufData b)) s E fun data s' => (s.cache.bufs b).data = data ∧ s = s' :=
  Sat.zoom (Sat.gets ⟨rfl, rfl⟩)

theorem getInode_sat : Sat (getInode i) s E fun ip s' => s.inodes i = ip ∧ s = s' :=
  Sat.gets ⟨rfl, rfl⟩

/-- `readsb` takes the superblock from block 1. -/
theorem readsb_clean (clean : Clean disk sb s) :
    Sat (readsb me ROOTDEV) s E fun _ s' =>
      Clean disk (Superblock.read (disk 1)) s' ∧ s'.inodes = s.inodes := by
  unfold readsb
  refine Sat.bind (bio_bread clean) ?_
  rintro f s₁ ⟨lent, super, inodes, data⟩
  refine Sat.bind bio_bufData ?_
  rintro _ _ ⟨rfl, rfl⟩
  refine Sat.bind (Sat.update (Q := fun _ t => { s₁ with sb := Superblock.read (s₁.cache.bufs f).data } = t)
    rfl) ?_
  rintro _ _ rfl
  refine (bio_brelease (by exact lent) (by rw [data])).mono ?_
  rintro _ s₂ ⟨clean₂, inodes₂⟩
  exact ⟨clean₂, inodes₂.trans inodes⟩

/-- The block that holds block `n` of an inode, 0 if there is none. -/
def mapped (disk : ℕ → Block) (d : Dinode) (n : ℕ) : ℕ :=
  if n < NDIRECT then d.addrs n
  else if d.addrs NDIRECT = 0 then 0
  else u32 (disk (d.addrs NDIRECT)) (4 * (n - NDIRECT))

/-- `bmap` of a block that is there allocates nothing. -/
theorem bmap_clean (me : ℕ) (clean : Clean disk sb s) (dev : (s.inodes i).dev = ROOTDEV) (small : n < MAXFILE)
    (some : mapped disk (s.inodes i).din n ≠ 0) :
    Sat (bmap me i n) s E fun b s' => mapped disk (s.inodes i).din n = b ∧ Clean disk sb s' ∧
      s'.inodes = s.inodes := by
  unfold bmap
  refine Sat.bind getInode_sat ?_
  rintro _ _ ⟨rfl, rfl⟩
  unfold mapped at some ⊢
  by_cases direct : n < NDIRECT
  · simp only [direct, ↓reduceIte] at some ⊢
    rw [if_neg some]
    exact Sat.pure ⟨rfl, clean, rfl⟩
  · have index : n - NDIRECT < NINDIRECT := by
      simp only [MAXFILE] at small
      omega
    simp only [direct, ↓reduceIte] at some ⊢
    by_cases none : (s.inodes i).din.addrs NDIRECT = 0
    · rw [if_pos none] at some
      exact absurd rfl some
    simp only [none, ↓reduceIte, index, dev] at some ⊢
    refine Sat.bind (Sat.pure (Q := fun addr t => (s.inodes i).din.addrs NDIRECT = addr ∧ s = t)
      ⟨rfl, rfl⟩) ?_
    rintro _ _ ⟨rfl, rfl⟩
    refine Sat.bind (bio_bread clean) ?_
    rintro bp s₁ ⟨lent, super, inodes, data⟩
    refine Sat.bind bio_bufData ?_
    rintro _ _ ⟨rfl, rfl⟩
    rw [data, if_neg some]
    refine Sat.bind (bio_brelease lent super) ?_
    rintro _ s₂ ⟨clean₂, inodes₂⟩
    exact Sat.pure ⟨rfl, clean₂, inodes₂.trans inodes⟩

/-- The loop of `readi` for bytes that lie in one block which is there. -/
theorem readiLoop_clean {off len : ℕ} (clean : Clean disk sb s) (dev : (s.inodes i).dev = ROOTDEV)
    (positive : 0 < len) (within : off % BSIZE + len ≤ BSIZE) (small : off / BSIZE < MAXFILE)
    (some : mapped disk (s.inodes i).din (off / BSIZE) ≠ 0) :
    Sat (readiLoop (fun m => m) me i (fun _ _ => Pure.pure true) off len len 0 []) s E fun r s' =>
      Clean disk sb s' ∧ s'.inodes = s.inodes ∧ r = ((len : ℤ), (List.range len).map fun k =>
        disk (mapped disk (s.inodes i).din (off / BSIZE)) (off % BSIZE + k)) := by
  obtain ⟨last, rfl⟩ : ∃ last, len = last + 1 := ⟨len - 1, by omega⟩
  unfold readiLoop
  rw [if_neg (by omega)]
  refine Sat.bind (bmap_clean me clean dev small some) ?_
  rintro _ s₁ ⟨rfl, clean₁, inodes₁⟩
  refine Sat.bind getInode_sat ?_
  rintro _ _ ⟨rfl, rfl⟩
  rw [inodes₁, dev]
  refine Sat.bind (bio_bread clean₁) ?_
  rintro b s₂ ⟨lent, super, inodes₂, data⟩
  refine Sat.bind bio_bufData ?_
  rintro _ _ ⟨rfl, rfl⟩
  rw [data, show min (last + 1 - 0) (BSIZE - off % BSIZE) = last + 1 by omega]
  refine Sat.bind (Sat.pure (Q := fun copied t => copied = true ∧ s₂ = t) ⟨rfl, rfl⟩) ?_
  rintro _ _ ⟨rfl, rfl⟩
  refine Sat.bind (bio_brelease lent super) ?_
  rintro _ s₃ ⟨clean₃, inodes₃⟩
  -- one round has read everything
  have done : ∀ fuel tot bytes (t : Fs), last + 1 ≤ tot → Sat (readiLoop (fun m => m) me i
      (fun _ _ => Pure.pure true) off (last + 1) fuel tot bytes) t E fun r t' =>
        r = (((tot : ℕ) : ℤ), bytes) ∧ t = t' := by
    intro fuel tot bytes t full
    cases fuel with
    | zero => exact Sat.pure ⟨rfl, rfl⟩
    | succ fuel =>
      unfold readiLoop
      rw [if_pos full]
      exact Sat.pure ⟨rfl, rfl⟩
  rw [if_pos rfl]
  refine (done _ _ _ _ (by omega)).mono ?_
  rintro r _ ⟨rfl, rfl⟩
  refine ⟨clean₃, inodes₃.trans (inodes₂.trans inodes₁), ?_⟩
  rw [Nat.zero_add, List.nil_append]

/-- `readi` of bytes that lie in one block which is there. -/
theorem readk_clean {off len : ℕ} (clean : Clean disk sb s) (dev : (s.inodes i).dev = ROOTDEV)
    (positive : 0 < len) (inside : off + len ≤ (s.inodes i).din.size)
    (fits : (s.inodes i).din.size < UINT) (within : off % BSIZE + len ≤ BSIZE)
    (small : off / BSIZE < MAXFILE) (some : mapped disk (s.inodes i).din (off / BSIZE) ≠ 0) :
    Sat (readk me i off len) s E fun r s' => Clean disk sb s' ∧ s'.inodes = s.inodes ∧
      r = ((len : ℤ), (List.range len).map fun k =>
        disk (mapped disk (s.inodes i).din (off / BSIZE)) (off % BSIZE + k)) := by
  unfold readk readi
  refine Sat.bind getInode_sat ?_
  rintro _ _ ⟨rfl, rfl⟩
  have noWrap : (off + len) % UINT = off + len := Nat.mod_eq_of_lt (by omega)
  rw [if_neg (by rw [noWrap]; omega)]
  dsimp only
  rw [if_neg (by omega)]
  exact readiLoop_clean clean dev positive within small some

/-- `iget` of an inode that is not in the cache takes a free entry. -/
theorem iget_free {dev inum : ℕ} (absent : ∀ j, 0 < (s.inodes j).ref → (s.inodes j).dev = dev →
    (s.inodes j).inum ≠ inum) (free : ∃ j, (s.inodes j).ref = 0) :
    Sat (iget dev inum) s E fun i s' => (s.inodes i).ref = 0 ∧
      s.setInode i (fun ip => { ip with dev, inum, ref := 1, vaild := false }) = s' := by
  have missing : (List.finRange INODES).find? (fun i => decide (0 < (s.inodes i).ref) &&
      (s.inodes i).dev == dev && (s.inodes i).inum == inum) = none := by
    rw [List.find?_eq_none]
    intro j _ found
    simp only [Bool.and_eq_true, decide_eq_true_eq, beq_iff_eq] at found
    exact absent j found.1.1 found.1.2 found.2
  unfold iget
  refine Sat.bind (Sat.gets (Q := fun a t => s = a ∧ s = t) ⟨rfl, rfl⟩) ?_
  rintro _ _ ⟨rfl, rfl⟩
  dsimp only
  rw [missing]
  cases chosen : (List.finRange INODES).find? fun i => (s.inodes i).ref == 0 with
  | none =>
    obtain ⟨j, zero⟩ := free
    have busy := List.find?_eq_none.mp chosen j (List.mem_finRange j)
    simp [zero] at busy
  | some i =>
    have zero : (s.inodes i).ref = 0 := by simpa using List.find?_some chosen
    dsimp only
    refine Sat.bind (Sat.update (Q := fun _ t => s.setInode i
      (fun ip => { ip with dev, inum, ref := 1, vaild := false }) = t) rfl) ?_
    rintro _ _ rfl
    exact Sat.pure ⟨zero, rfl⟩

/-- `ilock` of a free inode that was not read yet reads it from its block. -/
theorem ilock_clean (clean : Clean disk sb s) (dev : (s.inodes i).dev = ROOTDEV)
    (referenced : 0 < (s.inodes i).ref) (free : (s.inodes i).splock.locked = false)
    (unread : (s.inodes i).vaild = false) :
    Sat (ilock me (some i)) s E fun _ s' => Clean disk sb s' ∧
      s'.inodes = Function.update s.inodes i { s.inodes i with
        splock := ⟨true, me⟩
        din := Dinode.read (disk (IBLOCK (s.inodes i).inum sb)) ((s.inodes i).inum % IPB) } := by
  unfold ilock
  refine Sat.bind getInode_sat ?_
  rintro _ _ ⟨rfl, rfl⟩
  refine Sat.bind (Sat.stopIf (Q := fun _ t => s = t) (fun bad => by omega) fun _ => rfl) ?_
  rintro _ _ rfl
  have locked : Sat (lockInode me i) s E fun _ t =>
      s.setInode i ({ · with splock := ⟨true, me⟩ }) = t := by
    unfold Sat lockInode sleepLock
    simp [free]
  refine Sat.bind locked ?_
  rintro _ _ rfl
  refine Sat.onlyIf (fun _ => ?_) fun bad => absurd unread bad
  refine Sat.bind (Sat.gets (Q := fun a t => sb = a ∧ s.setInode i ({ · with splock := ⟨true, me⟩ }) = t)
    ⟨clean.super.symm, rfl⟩) ?_
  rintro _ _ ⟨rfl, rfl⟩
  have clean₁ : Clean disk sb (s.setInode i ({ · with splock := ⟨true, me⟩ })) :=
    ⟨clean.idle, clean.super⟩
  rw [dev]
  refine Sat.bind (bio_bread clean₁) ?_
  rintro b s₂ ⟨lent, super, inodes, data⟩
  refine Sat.bind bio_bufData ?_
  rintro _ _ ⟨rfl, rfl⟩
  rw [data]
  unfold setDinode
  refine Sat.bind (Sat.update (Q := fun _ t => s₂.setInode i (fun ip => { ip with din := _ }) = t) rfl) ?_
  rintro _ _ rfl
  refine Sat.bind (bio_brelease (by exact lent) (by exact super)) ?_
  rintro _ s₃ ⟨clean₃, inodes₃⟩
  refine Sat.update ⟨⟨clean₃.idle, clean₃.super⟩, ?_⟩
  simp only [Fs.setInode, inodes₃, inodes, Function.update_self, Function.update_idem]
  rw [← unread]

end HaloOS
