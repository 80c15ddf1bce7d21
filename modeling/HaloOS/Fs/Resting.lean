import HaloOS.Fs.Clean

/-! The buffer cache between two calls. No buffer is in use; some may hold what the disk has not
seen. A block that the cache presents as it is on the disk is presented so until it is written,
whichever buffers are recycled meanwhile. -/

namespace HaloOS

open Lib

variable {c : Bcache} {s : Fs} {me dev n : ℕ} {b : Fin NBUF} {i : Fin INODES} {E : Stop → Prop}

structure Bcache.Resting (c : Bcache) : Prop where
  wf : c.Wf
  free : ∀ i, (c.bufs i).refcnt = 0

/-- Process `me` holds buffer `b` with block `n`, and nobody any other buffer. -/
structure Bcache.OnLoan (me dev n : ℕ) (b : Fin NBUF) (c : Bcache) : Prop where
  wf : c.Wf
  free : ∀ i, i ≠ b → (c.bufs i).refcnt = 0
  refcnt : (c.bufs b).refcnt = 1
  sk : (c.bufs b).sk = ⟨true, me⟩
  vaild : (c.bufs b).vaild = true
  tag : (c.bufs b).dev = dev ∧ (c.bufs b).blockno = n

theorem Bcache.Resting.unlocked (resting : c.Resting) (i : Fin NBUF) : (c.bufs i).sk.locked = false := by
  by_contra locked
  have referenced := resting.wf.held i (by simpa using locked)
  have free := resting.free i
  omega

theorem resting_initBcache (disk : ℕ → Block) : (initBcache disk).Resting := ⟨wf_initBcache disk, fun _ => rfl⟩

/-- A block of the device is presented as before, or falls back to what is on the disk. -/
def Bcache.FallsBack (dev : ℕ) (c c' : Bcache) : Prop :=
  ∀ m, c'.block dev m = c.block dev m ∨ c'.block dev m = c.disk m

theorem bget_resting (me : ℕ) (resting : c.Resting) (dev n : ℕ) : ∃ r, bget me dev n c = .ok r := by
  unfold bget
  rw [bind_run, gets_run]
  cases found : c.lookup dev n with
  | some i =>
    simp only [id_eq, found, bind_run, update_run]
    rw [lockBuf_run (by simpa [Bcache.setBuf] using resting.unlocked i)]
    exact ⟨_, rfl⟩
  | none =>
    cases chosen : c.victim with
    | none =>
      have busy := List.find?_eq_none.mp chosen (0 : Fin NBUF) (by simpa using resting.wf.complete 0)
      simp [resting.free 0] at busy
    | some i =>
      simp only [id_eq, found, chosen, bind_run, update_run]
      rw [lockBuf_run (by simpa [Bcache.setBuf] using resting.unlocked i)]
      exact ⟨_, rfl⟩

theorem bread_total (me : ℕ) (resting : c.Resting) (dev n : ℕ) : ∃ r, bread me dev n c = .ok r := by
  obtain ⟨⟨i, t⟩, got⟩ := bget_resting me resting dev n
  unfold bread
  cases vaild : (t.bufs i).vaild with
  | true => exact ⟨_, by simp [bind_run, got, vaild]; rfl⟩
  | false => exact ⟨_, by simp [bind_run, got, vaild, diskRead]; rfl⟩

/-- `bread` of any block of a device. -/
theorem bread_resting (resting : c.Resting) (real : dev ≠ 0) :
    Sat (bread me dev n) c E fun b c' => c'.OnLoan me dev n b ∧ (c'.bufs b).data = c.block dev n ∧
      c'.disk = c.disk ∧ c.FallsBack dev c' ∧
      ∀ m, c.recycled dev n = none → c'.block dev m = c.block dev m := by
  obtain ⟨⟨b, c'⟩, returned⟩ := bread_total me resting dev n
  have wf' := wf_bread resting.wf returned
  have blocks := block_bread resting.wf returned real
  obtain ⟨refs, rfl, -, how⟩ := bread_ok returned
  have one : refs = 1 := by
    rcases how with ⟨-, rfl⟩ | ⟨-, -, rfl⟩
    · rw [resting.free b]
    · rfl
  subst one
  unfold Sat
  rw [returned]
  refine ⟨⟨wf', fun i other => ?_, ?_, ?_, ?_, ?_⟩, ?_, rfl, fun m => ?_, fun m hit => ?_⟩
  · simpa [Bcache.setBuf, other] using resting.free i
  · simp [Bcache.setBuf, loaded]
  · simp [Bcache.setBuf, loaded]
  · simp [Bcache.setBuf, loaded]
  · simp [Bcache.setBuf, loaded]
  · simp [Bcache.setBuf, loaded]
  · rcases blocks m with same | ⟨-, -, -, -, fallen⟩
    · exact .inl same
    · exact .inr fallen
  · rcases blocks m with same | ⟨chosen, -⟩
    · exact same
    · rw [hit] at chosen
      cases chosen

/-- `brelease` of the one buffer in use. -/
theorem brelease_loan (loan : c.OnLoan me dev n b) (real : dev ≠ 0) :
    Sat (brelease me b) c E fun _ c' => c'.Resting ∧ c'.disk = c.disk ∧
      ∀ m, c'.block dev m = c.block dev m := by
  have returned : brelease me b c =
      .ok ((), unref b (c.setBuf b fun b => { b with sk := sleepUnlock b.sk })) :=
    brelease_run (by simp [loan.sk, holdingsleep])
  have wf' := wf_brelease loan.wf returned
  have blocks := block_brelease loan.wf returned real
  unfold Sat
  rw [returned]
  refine ⟨⟨wf', fun i => ?_⟩, rfl, blocks⟩
  by_cases here : i = b
  · subst here
    simp [unref_bufs, Bcache.setBuf, loan.refcnt]
  · simpa [unref_bufs, Bcache.setBuf, here] using loan.free i here

/-- A store into the buffer in use changes what is presented of its block. -/
theorem setData_loan (loan : c.OnLoan me dev n b) (real : dev ≠ 0) (data : Block) :
    Sat (setData b data) c E fun _ c' => c'.OnLoan me dev n b ∧ (c'.bufs b).data = data ∧
      c'.disk = c.disk ∧ ∀ m, c'.block dev m = if m = n then data else c.block dev m := by
  refine Sat.update ⟨⟨wf_setData loan.wf b data, fun i other => ?_, ?_, ?_, ?_, ?_⟩, ?_, rfl, fun m => ?_⟩
  · simpa [Bcache.setBuf, other] using loan.free i other
  · simpa [Bcache.setBuf] using loan.refcnt
  · simpa [Bcache.setBuf] using loan.sk
  · simpa [Bcache.setBuf] using loan.vaild
  · simpa [Bcache.setBuf] using loan.tag
  · simp [Bcache.setBuf]
  · rw [block_setData loan.wf loan.vaild data real, loan.tag.1, loan.tag.2]
    by_cases here : m = n
    · simp [here]
    · simp [here, Ne.symm here]

/-- `bwrite` stores the block, and what is presented stays. -/
theorem bwrite_loan (loan : c.OnLoan me dev n b) (real : dev ≠ 0) :
    Sat (bwrite me b) c E fun _ c' => c'.OnLoan me dev n b ∧ (c'.bufs b).data = (c.bufs b).data ∧
      c'.disk = Function.update c.disk n (c.bufs b).data ∧ ∀ m, c'.block dev m = c.block dev m := by
  unfold bwrite
  refine Sat.bind (Sat.gets (Q := fun a t => c = a ∧ c = t) ⟨rfl, rfl⟩) ?_
  rintro _ _ ⟨rfl, rfl⟩
  refine Sat.bind (Sat.stopIf (Q := fun _ t => c = t) (fun bad => ?_) fun _ => rfl) ?_
  · simp [holdingsleep, loan.sk] at bad
  rintro _ _ rfl
  refine Sat.update ⟨⟨⟨loan.wf.nodup, loan.wf.complete, loan.wf.tags, loan.wf.held⟩, loan.free,
    loan.refcnt, loan.sk, loan.vaild, loan.tag⟩, rfl, by rw [loan.tag.2], fun m => ?_⟩
  -- the block that changed on the disk is presented from the buffer
  unfold Bcache.block Bcache.lookup
  dsimp only
  cases found : c.lookup dev m with
  | some i =>
    unfold Bcache.lookup at found
    rw [found]
    dsimp only
    by_cases valid : (c.bufs i).vaild
    · rw [if_pos valid, if_pos valid]
    · rw [if_neg valid, if_neg valid]
      refine Function.update_of_ne ?_ _ _
      rintro rfl
      have tag := Bcache.lookup_tag found
      obtain rfl := loan.wf.tags i b (by rwa [tag.1]) (tag.1.trans loan.tag.1.symm) tag.2
      exact valid loan.vaild
  | none =>
    have absent := loan.wf.lookup_none found b
    unfold Bcache.lookup at found
    rw [found]
    refine Function.update_of_ne ?_ _ _
    rintro rfl
    exact absent ⟨loan.tag.1, rfl⟩

section Lifted

/-! The same through the file system state. -/

theorem bio_bread_resting (resting : s.cache.Resting) (real : dev ≠ 0) :
    Sat (bio (bread me dev n)) s E fun b s' => s'.cache.OnLoan me dev n b ∧
      (s'.cache.bufs b).data = s.cache.block dev n ∧ s'.cache.disk = s.cache.disk ∧
      s.cache.FallsBack dev s'.cache ∧ s'.sb = s.sb ∧ s'.inodes = s.inodes :=
  Sat.zoom ((bread_resting resting real).mono fun _ _ ⟨loan, data, disk, back, _⟩ =>
    ⟨loan, data, disk, back, rfl, rfl⟩)

theorem bio_brelease_loan (loan : s.cache.OnLoan me dev n b) (real : dev ≠ 0) :
    Sat (bio (brelease me b)) s E fun _ s' => s'.cache.Resting ∧ s'.cache.disk = s.cache.disk ∧
      (∀ m, s'.cache.block dev m = s.cache.block dev m) ∧ s'.sb = s.sb ∧ s'.inodes = s.inodes :=
  Sat.zoom ((brelease_loan loan real).mono fun _ _ ⟨resting, disk, blocks⟩ =>
    ⟨resting, disk, blocks, rfl, rfl⟩)

theorem bio_setData_loan (loan : s.cache.OnLoan me dev n b) (real : dev ≠ 0) (data : Block) :
    Sat (bio (setData b data)) s E fun _ s' => s'.cache.OnLoan me dev n b ∧
      (s'.cache.bufs b).data = data ∧ s'.cache.disk = s.cache.disk ∧
      (∀ m, s'.cache.block dev m = if m = n then data else s.cache.block dev m) ∧
      s'.sb = s.sb ∧ s'.inodes = s.inodes :=
  Sat.zoom ((setData_loan loan real data).mono fun _ _ ⟨loan', stored, disk, blocks⟩ =>
    ⟨loan', stored, disk, blocks, rfl, rfl⟩)

theorem bio_bwrite_loan (loan : s.cache.OnLoan me dev n b) (real : dev ≠ 0) :
    Sat (bio (bwrite me b)) s E fun _ s' => s'.cache.OnLoan me dev n b ∧
      s'.cache.disk = Function.update s.cache.disk n (s.cache.bufs b).data ∧
      (∀ m, s'.cache.block dev m = s.cache.block dev m) ∧ s'.sb = s.sb ∧ s'.inodes = s.inodes :=
  Sat.zoom ((bwrite_loan loan real).mono fun _ _ ⟨loan', _, disk, blocks⟩ =>
    ⟨loan', disk, blocks, rfl, rfl⟩)

end Lifted

section Settled

/-! Blocks of which the cache presents what is on the disk. -/

variable {V : ℕ → Block} {B : Set ℕ}

/-- The blocks of `B` are presented as `V` has them, and the disk has them too. -/
def Bcache.Agrees (dev : ℕ) (V : ℕ → Block) (B : Set ℕ) (c : Bcache) : Prop :=
  ∀ n ∈ B, c.block dev n = V n ∧ c.disk n = V n

theorem Bcache.Agrees.fallsBack {c' : Bcache} (agrees : c.Agrees dev V B) (back : c.FallsBack dev c')
    (disk : c'.disk = c.disk) : c'.Agrees dev V B := by
  intro n member
  obtain ⟨shown, stored⟩ := agrees n member
  rw [disk]
  refine ⟨?_, stored⟩
  rcases back n with same | fallen
  · rw [same, shown]
  · rw [fallen, stored]

theorem Bcache.Agrees.mono {B' : Set ℕ} (agrees : c.Agrees dev V B') (sub : B ⊆ B') : c.Agrees dev V B :=
  fun n member => agrees n (sub member)

/-- A written block is known afterwards, whether or not it was before. -/
theorem Bcache.Agrees.written {c' : Bcache} {data : Block} (agrees : c.Agrees dev V B)
    (blocks : ∀ m, c'.block dev m = if m = n then data else c.block dev m)
    (disk : c'.disk = Function.update c.disk n data) :
    c'.Agrees dev (Function.update V n data) (insert n B) := by
  intro m member
  rw [blocks, disk]
  by_cases here : m = n
  · simp [here]
  · simpa [here] using agrees m (member.resolve_left here)

structure Fs.Settled (dev : ℕ) (V : ℕ → Block) (B : Set ℕ) (s : Fs) : Prop where
  resting : s.cache.Resting
  agrees : s.cache.Agrees dev V B

/-- Buffer `b` is lent with block `n`; the blocks of `B` are known. -/
structure Fs.Lends (me dev n : ℕ) (b : Fin NBUF) (V : ℕ → Block) (B : Set ℕ) (s : Fs) : Prop where
  loan : s.cache.OnLoan me dev n b
  agrees : s.cache.Agrees dev V B

theorem bread_settled (settled : s.Settled dev V B) (real : dev ≠ 0) (member : n ∈ B) :
    Sat (bio (bread me dev n)) s E fun b s' => s'.Lends me dev n b V B ∧ (s'.cache.bufs b).data = V n ∧
      s'.sb = s.sb ∧ s'.inodes = s.inodes := by
  refine (bio_bread_resting settled.resting real).mono ?_
  rintro b s' ⟨loan, data, disk, back, sb, inodes⟩
  exact ⟨⟨loan, settled.agrees.fallsBack back disk⟩, data.trans (settled.agrees n member).1, sb, inodes⟩

theorem brelease_settled (lends : s.Lends me dev n b V B) (real : dev ≠ 0) :
    Sat (bio (brelease me b)) s E fun _ s' => s'.Settled dev V B ∧ s'.sb = s.sb ∧ s'.inodes = s.inodes := by
  refine (bio_brelease_loan lends.loan real).mono ?_
  rintro _ s' ⟨resting, disk, blocks, sb, inodes⟩
  exact ⟨⟨resting, lends.agrees.fallsBack (fun m => .inl (blocks m)) disk⟩, sb, inodes⟩

/-- A store into a lent buffer, its `bwrite` and its release; the block is known afterwards. -/
theorem store_lent (lends : s.Lends me dev n b V B) (real : dev ≠ 0) (data : Block) :
    Sat (do bio (setData b data); bio (bwrite me b); bio (brelease me b) : Fio Unit) s E fun _ s' =>
      s'.Settled dev (Function.update V n data) (insert n B) ∧ s'.sb = s.sb ∧ s'.inodes = s.inodes := by
  refine Sat.bind (bio_setData_loan lends.loan real data) ?_
  rintro _ s₁ ⟨loan₁, stored, disk₁, blocks₁, sb₁, inodes₁⟩
  refine Sat.bind (bio_bwrite_loan loan₁ real) ?_
  rintro _ s₂ ⟨loan₂, disk₂, blocks₂, sb₂, inodes₂⟩
  have known : s₂.cache.Agrees dev (Function.update V n data) (insert n B) :=
    lends.agrees.written (fun m => (blocks₂ m).trans (blocks₁ m)) (by rw [disk₂, disk₁, stored])
  refine (brelease_settled ⟨loan₂, known⟩ real).mono ?_
  rintro _ s₃ ⟨settled, sb₃, inodes₃⟩
  exact ⟨settled, sb₃.trans (sb₂.trans sb₁), inodes₃.trans (inodes₂.trans inodes₁)⟩

theorem Fs.Settled.mono {B' : Set ℕ} (settled : s.Settled dev V B') (sub : B ⊆ B') : s.Settled dev V B :=
  ⟨settled.resting, settled.agrees.mono sub⟩

theorem store_settled (lends : s.Lends me dev n b V B) (real : dev ≠ 0) (data : Block) :
    Sat (do bio (setData b data); bio (bwrite me b); bio (brelease me b) : Fio Unit) s E fun _ s' =>
      s'.Settled dev (Function.update V n data) B ∧ s'.sb = s.sb ∧ s'.inodes = s.inodes :=
  (store_lent lends real data).mono fun _ _ ⟨settled, sb, inodes⟩ =>
    ⟨settled.mono (Set.subset_insert n B), sb, inodes⟩

theorem iupdate_settled (settled : s.Settled dev V B) (here : (s.inodes i).dev = dev) (real : dev ≠ 0)
    (member : IBLOCK (s.inodes i).inum s.sb ∈ B) :
    Sat (iupdate me i) s E fun _ s' => s'.Settled dev (Function.update V (IBLOCK (s.inodes i).inum s.sb)
      ((s.inodes i).din.write ((s.inodes i).inum % IPB) (V (IBLOCK (s.inodes i).inum s.sb)))) B ∧
      s'.sb = s.sb ∧ s'.inodes = s.inodes := by
  unfold iupdate
  refine Sat.bind getInode_sat ?_
  rintro _ _ ⟨rfl, rfl⟩
  refine Sat.bind (Sat.gets (Q := fun sb t => s.sb = sb ∧ s = t) ⟨rfl, rfl⟩) ?_
  rintro _ _ ⟨rfl, rfl⟩
  rw [here]
  refine Sat.bind (bread_settled settled real member) ?_
  rintro b s₁ ⟨lends, data, sb₁, inodes₁⟩
  refine Sat.bind bio_bufData ?_
  rintro _ _ ⟨rfl, rfl⟩
  rw [data]
  refine (store_settled lends real _).mono ?_
  rintro _ s₂ ⟨settled₂, sb₂, inodes₂⟩
  exact ⟨settled₂, sb₂.trans sb₁, inodes₂.trans inodes₁⟩

/-- `ilock` of a free inode that was not read yet reads it from its block. -/
theorem ilock_settled (settled : s.Settled dev V B) (here : (s.inodes i).dev = dev) (real : dev ≠ 0)
    (member : IBLOCK (s.inodes i).inum s.sb ∈ B) (referenced : 0 < (s.inodes i).ref)
    (free : (s.inodes i).splock.locked = false) (unread : (s.inodes i).vaild = false) :
    Sat (ilock me (some i)) s E fun _ s' => s'.Settled dev V B ∧ s'.sb = s.sb ∧
      s'.inodes = Function.update s.inodes i { s.inodes i with
        splock := ⟨true, me⟩
        din := Dinode.read (V (IBLOCK (s.inodes i).inum s.sb)) ((s.inodes i).inum % IPB) } := by
  unfold ilock
  refine Sat.bind getInode_sat ?_
  rintro _ _ ⟨rfl, rfl⟩
  refine Sat.bind (Sat.stopIf (Q := fun _ t => s = t) (fun bad => by omega) fun _ => rfl) ?_
  rintro _ _ rfl
  have locked : Sat (lockInode me i) s E fun _ t =>
      s.setInode i ({ · with splock := ⟨true, me⟩ }) = t := by
    unfold Sat lockInode sleepLock
    simp [free]
  refine Sat.bind locked ?_
  rintro _ _ rfl
  refine Sat.onlyIf (fun _ => ?_) fun bad => absurd unread bad
  refine Sat.bind (Sat.gets (Q := fun a t => s.sb = a ∧ s.setInode i ({ · with splock := ⟨true, me⟩ }) = t)
    ⟨rfl, rfl⟩) ?_
  rintro _ _ ⟨rfl, rfl⟩
  have settled₁ : (s.setInode i ({ · with splock := ⟨true, me⟩ })).Settled dev V B :=
    ⟨settled.resting, settled.agrees⟩
  rw [here]
  refine Sat.bind (bread_settled settled₁ real member) ?_
  rintro b s₂ ⟨lends, data, sb₂, inodes⟩
  refine Sat.bind bio_bufData ?_
  rintro _ _ ⟨rfl, rfl⟩
  rw [data]
  unfold setDinode
  refine Sat.bind (Sat.update (Q := fun _ t => s₂.setInode i (fun ip => { ip with din := _ }) = t) rfl) ?_
  rintro _ _ rfl
  refine Sat.bind (brelease_settled (V := V) (B := B) ⟨lends.loan, lends.agrees⟩ real) ?_
  rintro _ s₃ ⟨settled₃, sb₃, inodes₃⟩
  refine Sat.update ⟨⟨settled₃.resting, settled₃.agrees⟩, sb₃.trans sb₂, ?_⟩
  simp only [Fs.setInode, inodes₃, inodes, Function.update_self, Function.update_idem]
  rw [← unread]

/-- `bmap` of a block that is there allocates nothing. -/
theorem bmap_settled (me : ℕ) (settled : s.Settled dev V B) (here : (s.inodes i).dev = dev) (real : dev ≠ 0)
    (small : n < MAXFILE) (indirect : ¬ n < NDIRECT → (s.inodes i).din.addrs NDIRECT ∈ B)
    (present : mapped V (s.inodes i).din n ≠ 0) :
    Sat (bmap me i n) s E fun b s' => mapped V (s.inodes i).din n = b ∧ s'.Settled dev V B ∧
      s'.sb = s.sb ∧ s'.inodes = s.inodes := by
  unfold bmap
  refine Sat.bind getInode_sat ?_
  rintro _ _ ⟨rfl, rfl⟩
  unfold mapped at present ⊢
  by_cases direct : n < NDIRECT
  · simp only [direct, ↓reduceIte] at present ⊢
    rw [if_neg present]
    exact Sat.pure ⟨rfl, settled, rfl, rfl⟩
  · have index : n - NDIRECT < NINDIRECT := by
      simp only [MAXFILE] at small
      omega
    simp only [direct, ↓reduceIte] at present ⊢
    by_cases none : (s.inodes i).din.addrs NDIRECT = 0
    · rw [if_pos none] at present
      exact absurd rfl present
    simp only [none, ↓reduceIte, index, here] at present ⊢
    refine Sat.bind (Sat.pure (Q := fun addr t => (s.inodes i).din.addrs NDIRECT = addr ∧ s = t)
      ⟨rfl, rfl⟩) ?_
    rintro _ _ ⟨rfl, rfl⟩
    refine Sat.bind (bread_settled settled real (indirect direct)) ?_
    rintro bp s₁ ⟨lends, data, sb₁, inodes₁⟩
    refine Sat.bind bio_bufData ?_
    rintro _ _ ⟨rfl, rfl⟩
    rw [data, if_neg present]
    refine Sat.bind (brelease_settled lends real) ?_
    rintro _ s₂ ⟨settled₂, sb₂, inodes₂⟩
    exact Sat.pure ⟨rfl, settled₂, sb₂.trans sb₁, inodes₂.trans inodes₁⟩

end Settled

section Rounds

variable {V : ℕ → Block} {B : Set ℕ}

/-- What the rounds of `readi` hand out: the rest of one block, again and again. -/
def rounds (data : Block) (off n : ℕ) : List Byte :=
  (List.range n).map fun k => data (off % BSIZE + k % (BSIZE - off % BSIZE))

/-- The first round and those after it. -/
theorem rounds_eq {data : Block} {off n m : ℕ} (length : min n (BSIZE - off % BSIZE) = m) :
    rounds data off n = (List.range m).map (fun k => data (off % BSIZE + k)) ++ rounds data off (n - m) := by
  have positive : 0 < BSIZE - off % BSIZE := Nat.sub_pos_of_lt (Nat.mod_lt _ (by decide))
  unfold rounds
  generalize BSIZE - off % BSIZE = c at *
  obtain ⟨rest, rfl⟩ : ∃ rest, n = m + rest := ⟨n - m, by omega⟩
  rw [List.range_add, List.map_append, List.map_map, Nat.add_sub_cancel_left]
  congr 1
  · refine List.map_congr_left fun k member => ?_
    have small := List.mem_range.mp member
    rw [Nat.mod_eq_of_lt (a := k) (by omega)]
  · refine List.map_congr_left fun k member => ?_
    -- there is a second round only after a full first one
    have full : m = c := by
      have := List.mem_range.mp member
      omega
    rw [Function.comp_apply, full, Nat.add_mod_left]

theorem rounds_of_block {data : Block} {off n : ℕ} (within : off % BSIZE + n ≤ BSIZE) :
    rounds data off n = (List.range n).map fun k => data (off % BSIZE + k) := by
  refine List.map_congr_left fun k member => ?_
  have small := List.mem_range.mp member
  rw [Nat.mod_eq_of_lt (a := k) (by omega)]

variable {σ : Type} {fs : {α : Type} → Fio α → Exec Stop σ α} (view : σ → Fs) (J : σ → Prop) {t : σ}
  {copyout : ℕ → List Byte → Exec Stop σ Bool} {off : ℕ}

/-- The loop of `readi` for a block that is there, with a destination that takes every copy. The
invariant `J` is kept by the work on the file system and by the copies. -/
theorem readiLoop_settled {d : Dinode} (lifts : ∀ {α : Type} {m : Fio α} {t : σ} {Q : α → Fs → Prop}, J t →
      Sat m (view t) E Q → Sat (fs m) t E fun a t' => Q a (view t') ∧ J t')
    (copies : ∀ t tot bytes, J t → tot + bytes.length ≤ n →
      Sat (copyout tot bytes) t E fun ok t' => ok = true ∧ view t' = view t ∧ J t')
    (real : dev ≠ 0) (small : off / BSIZE < MAXFILE) (indirect : ¬ off / BSIZE < NDIRECT → d.addrs NDIRECT ∈ B)
    (present : mapped V d (off / BSIZE) ≠ 0) (member : mapped V d (off / BSIZE) ∈ B)
    (fuel tot : ℕ) (done : List Byte) (le : tot ≤ n) (enough : n ≤ tot + fuel) (inv : J t)
    (settled : (view t).Settled dev V B) (here : ((view t).inodes i).dev = dev)
    (din : ((view t).inodes i).din = d) :
    Sat (readiLoop fs me i copyout off n fuel tot done) t E fun r t' =>
      r = ((n : ℤ), done ++ rounds (V (mapped V d (off / BSIZE))) off (n - tot)) ∧
      (view t').Settled dev V B ∧ (view t').sb = (view t).sb ∧ (view t').inodes = (view t).inodes ∧ J t' := by
  have positive : 0 < BSIZE - off % BSIZE := Nat.sub_pos_of_lt (Nat.mod_lt _ (by decide))
  induction fuel generalizing t tot done with
  | zero =>
    obtain rfl : tot = n := by omega
    refine Sat.pure ⟨?_, settled, rfl, rfl, inv⟩
    simp [rounds]
  | succ fuel ih =>
    unfold readiLoop
    by_cases full : n ≤ tot
    · obtain rfl : tot = n := by omega
      rw [if_pos full]
      refine Sat.pure ⟨?_, settled, rfl, rfl, inv⟩
      simp [rounds]
    rw [if_neg full]
    refine Sat.bind (lifts inv (bmap_settled me settled here real small (by rwa [din]) (by rwa [din]))) ?_
    rintro _ t₁ ⟨⟨rfl, settled₁, sb₁, inodes₁⟩, inv₁⟩
    rw [din]
    refine Sat.bind (lifts inv₁ getInode_sat) ?_
    rintro _ t₂ ⟨⟨rfl, same₂⟩, inv₂⟩
    rw [same₂] at settled₁ sb₁ inodes₁ ⊢
    have here₂ : ((view t₂).inodes i).dev = dev := by rw [inodes₁, here]
    rw [here₂]
    refine Sat.bind (lifts inv₂ (bread_settled settled₁ real member)) ?_
    rintro b t₃ ⟨⟨lends, data, sb₃, inodes₃⟩, inv₃⟩
    refine Sat.bind (lifts inv₃ bio_bufData) ?_
    rintro _ t₄ ⟨⟨rfl, same₄⟩, inv₄⟩
    rw [data]
    rw [same₄] at lends sb₃ inodes₃
    generalize length : min (n - tot) (BSIZE - off % BSIZE) = m
    refine Sat.bind (copies t₄ tot _ inv₄ (by rw [List.length_map, List.length_range]; omega)) ?_
    rintro _ t₅ ⟨rfl, same₅, inv₅⟩
    rw [← same₅] at lends sb₃ inodes₃
    refine Sat.bind (lifts inv₅ (brelease_settled lends real)) ?_
    rintro _ t₆ ⟨⟨settled₆, sb₆, inodes₆⟩, inv₆⟩
    have inodes : (view t₆).inodes = (view t).inodes := inodes₆.trans (inodes₃.trans inodes₁)
    rw [if_pos rfl]
    refine (ih (tot + m) _ (by omega) (by omega) inv₆ settled₆ (by rw [inodes, here])
      (by rw [inodes, din])).mono ?_
    rintro r t₇ ⟨rfl, settled₇, sb₇, inodes₇, inv₇⟩
    refine ⟨?_, settled₇, sb₇.trans (sb₆.trans (sb₃.trans sb₁)), inodes₇.trans inodes, inv₇⟩
    rw [rounds_eq length, List.append_assoc, Nat.sub_add_eq]

end Rounds

end HaloOS
