import HaloOS.Fs.BlockMap

/-! `bmap` over the buffer cache does what `mapBlock` says, and keeps the block map consistent
exactly when an indirect block that it takes serves as it is. -/

namespace HaloOS

open Lib Mkfs

variable {V : ℕ → Block} {s : Fs} {me k n : ℕ} {H : List (Fin NBUF)} {i : Fin INODES}

/-- What the buffer cache presents. -/
def Fs.shown (s : Fs) : ℕ → Block := s.cache.block ROOTDEV

section Lifted

variable {E : Stop → Prop} {b : Fin NBUF}

/-! The cache operations as the file system calls them: inodes and superblock stay. -/

theorem bio_bread_rest (rest : Rest V me k H s.cache) (room : k + H.length < NBUF)
    (apart : ∀ j ∈ H, (s.cache.bufs j).blockno ≠ n) :
    Sat (bio (bread me ROOTDEV n)) s E fun b s' => b ∉ H ∧ Rest V me k (b :: H) s'.cache ∧
      (s'.cache.bufs b).blockno = n ∧ (s'.cache.bufs b).data = V n ∧
      (∀ j ≠ b, s'.cache.bufs j = s.cache.bufs j) ∧ (∀ m, Near m k s.cache → Near m k s'.cache) ∧
      s'.cache.disk = s.cache.disk ∧ s'.sb = s.sb ∧ s'.inodes = s.inodes := by
  refine Sat.zoom ((bread_rest rest room apart).mono ?_)
  rintro b c' ⟨outside, rest', tag, data, others, disk, -, near⟩
  exact ⟨outside, rest', tag, data, others, near, disk, rfl, rfl⟩

theorem bio_setData_rest (rest : Rest V me k (b :: H) s.cache) (data : Block) :
    Sat (bio (setData b data)) s E fun _ s' =>
      Rest (Function.update V (s.cache.bufs b).blockno data) me k (b :: H) s'.cache ∧
      (s'.cache.bufs b).blockno = (s.cache.bufs b).blockno ∧ (s'.cache.bufs b).data = data ∧
      s'.cache.disk = s.cache.disk ∧ s'.sb = s.sb ∧ s'.inodes = s.inodes := by
  refine Sat.zoom ((setData_rest rest data).mono ?_)
  rintro _ c' ⟨rest', tag, stored, -, disk, -, -⟩
  exact ⟨rest', tag, stored, disk, rfl, rfl⟩

theorem bio_bwrite_rest (rest : Rest V me k (b :: H) s.cache) :
    Sat (bio (bwrite me b)) s E fun _ s' => Rest V me k (b :: H) s'.cache ∧
      s'.cache.disk = Function.update s.cache.disk (s.cache.bufs b).blockno (s.cache.bufs b).data ∧
      s'.sb = s.sb ∧ s'.inodes = s.inodes := by
  refine Sat.zoom ((bwrite_rest rest).mono ?_)
  rintro _ c' ⟨rest', -, -, disk⟩
  exact ⟨rest', disk, rfl, rfl⟩

theorem bio_brelease_rest (rest : Rest V me k (b :: H) s.cache) (outside : b ∉ H) :
    Sat (bio (brelease me b)) s E fun _ s' => Rest V me (k + 1) H s'.cache ∧
      (∀ m, Near m k s.cache → Near m (k + 1) s'.cache) ∧
      s'.cache.disk = s.cache.disk ∧ s'.sb = s.sb ∧ s'.inodes = s.inodes := by
  refine Sat.zoom ((brelease_rest rest outside).mono ?_)
  rintro _ c' ⟨rest', disk, -, -, near⟩
  exact ⟨rest', near, disk, rfl, rfl⟩

/-- `balloc` returns the first free block, or panics when there is none. -/
theorem bio_balloc_rest (rest : Rest V me k H s.cache) (room : k + H.length < NBUF)
    (apart : ∀ j ∈ H, (s.cache.bufs j).blockno ≠ s.sb.bmapstart) (one : s.sb.size ≤ BPB) :
    Sat (bio (balloc me ROOTDEV s.sb)) s
      (fun e => e = .panic "balloc panic...\n" ∧ firstFree s.sb V = none)
      fun r s' => firstFree s.sb V = some r ∧ Rest (taken s.sb V r) me (k + 1) H s'.cache ∧
        (∀ j ∈ H, (s'.cache.bufs j).blockno = (s.cache.bufs j).blockno) ∧
        s'.cache.disk = s.cache.disk ∧ s'.sb = s.sb ∧ s'.inodes = s.inodes := by
  refine Sat.zoom ?_
  cases first : firstFree s.sb V with
  | none =>
    exact ((balloc_full rest room apart one first).weaken fun e panics => ⟨panics, rfl⟩).mono
      fun _ _ never => never.elim
  | some x =>
    refine (balloc_used rest room apart first).mono ?_
    rintro _ c' ⟨rfl, used⟩
    exact ⟨rfl, used.rest, used.tags, used.disk, rfl, rfl⟩

/-- `iupdate` writes the inode into its block, in the cache and on the disk. -/
theorem iupdate_rest (rest : Rest V me k [] s.cache) (room : k < NBUF)
    (dev : (s.inodes i).dev = ROOTDEV) {blk : ℕ} (block : IBLOCK (s.inodes i).inum s.sb = blk) :
    Sat (iupdate me i) s E fun _ s' =>
      Rest (Function.update V blk ((s.inodes i).din.write ((s.inodes i).inum % IPB) (V blk))) me (k + 1) []
        s'.cache ∧
      s'.cache.disk = Function.update s.cache.disk blk
        ((s.inodes i).din.write ((s.inodes i).inum % IPB) (V blk)) ∧
      s'.sb = s.sb ∧ s'.inodes = s.inodes := by
  subst block
  unfold iupdate
  refine Sat.bind getInode_sat ?_
  rintro _ _ ⟨rfl, rfl⟩
  refine Sat.bind (Sat.gets (Q := fun a t => s.sb = a ∧ s = t) ⟨rfl, rfl⟩) ?_
  rintro _ _ ⟨rfl, rfl⟩
  rw [dev]
  refine Sat.bind (bio_bread_rest rest (by simpa using room) (by simp)) ?_
  rintro b s₁ ⟨-, rest₁, tag₁, data₁, -, -, disk₁, sb₁, inodes₁⟩
  refine Sat.bind bio_bufData ?_
  rintro _ _ ⟨rfl, rfl⟩
  rw [data₁]
  refine Sat.bind (bio_setData_rest rest₁ _) ?_
  rintro _ s₂ ⟨rest₂, tag₂, data₂, disk₂, sb₂, inodes₂⟩
  rw [tag₁] at rest₂ tag₂
  refine Sat.bind (bio_bwrite_rest rest₂) ?_
  rintro _ s₃ ⟨rest₃, disk₃, sb₃, inodes₃⟩
  rw [tag₂, data₂, disk₂, disk₁] at disk₃
  refine (bio_brelease_rest rest₃ (by simp)).mono ?_
  rintro _ s₄ ⟨rest₄, -, disk₄, sb₄, inodes₄⟩
  exact ⟨rest₄, disk₄.trans disk₃, sb₄.trans (sb₃.trans (sb₂.trans sb₁)),
    inodes₄.trans (inodes₃.trans (inodes₂.trans inodes₁))⟩

end Lifted

/-- The inode cache after the block addresses of inode `i` changed. -/
def Fs.withDin (s : Fs) (i : Fin INODES) (d : Dinode) : Fin INODES → Inode :=
  Function.update s.inodes i { s.inodes i with din := d }

theorem Fs.withDin_self (s : Fs) (i : Fin INODES) : s.withDin i (s.inodes i).din = s.inodes :=
  Function.update_eq_self i s.inodes

theorem ballocAt_rest (rest : Rest V me k [] s.cache) (room : k < NBUF) (one : s.sb.size ≤ BPB)
    (dev : (s.inodes i).dev = ROOTDEV) (m : ℕ) :
    Sat (ballocAt me i m) s (fun e => e = .panic "balloc panic...\n" ∧ firstFree s.sb V = none)
      fun r s' => firstFree s.sb V = some r ∧ Rest (taken s.sb V r) me (k + 1) [] s'.cache ∧
        s'.cache.disk = s.cache.disk ∧ s'.sb = s.sb ∧
        s'.inodes = s.withDin i ((s.inodes i).din.setAddr m r) := by
  unfold ballocAt
  refine Sat.bind getInode_sat ?_
  rintro _ _ ⟨rfl, rfl⟩
  refine Sat.bind (Sat.gets (Q := fun a t => s.sb = a ∧ s = t) ⟨rfl, rfl⟩) ?_
  rintro _ _ ⟨rfl, rfl⟩
  rw [dev]
  refine Sat.bind (bio_balloc_rest rest (by simpa using room) (by simp) one) ?_
  rintro x s₁ ⟨first, rest₁, -, disk₁, sb₁, inodes₁⟩
  unfold setDinode
  refine Sat.bind (Sat.update (Q := fun _ t => s₁.setInode i _ = t) rfl) ?_
  rintro _ _ rfl
  refine Sat.pure ⟨first, rest₁, disk₁, sb₁, ?_⟩
  simp [Fs.setInode, Fs.withDin, inodes₁, Dinode.setAddr]

/-- What holds after `bmap` returned `r`. -/
def Mapping (V : ℕ → Block) (me k : ℕ) (i : Fin INODES) (n : ℕ) (s : Fs) (r : ℕ) (s' : Fs) : Prop :=
  ∃ d V', mapBlock s.sb V (s.inodes i).din n = some (r, d, V') ∧ Rest V' me k [] s'.cache ∧
    s'.cache.disk = s.cache.disk ∧ s'.sb = s.sb ∧ s'.inodes = s.withDin i d

/-- The part of `bmap` that finds the entry in the indirect block at `addr`. -/
theorem bmap_entry {addr : ℕ} (rest : Rest V me k [] s.cache) (room : k + 1 < NBUF)
    (one : s.sb.size ≤ BPB) (apart : addr ≠ s.sb.bmapstart) :
    Sat (do
        let bp ← bio (bread me ROOTDEV addr)
        let data ← bio (bufData bp)
        let addr := u32 data (4 * n)
        if addr = 0 then do
          let sb ← gets (·.sb)
          let addr ← bio (balloc me ROOTDEV sb)
          let data ← bio (bufData bp)
          bio (setData bp (putU32 (4 * n) addr data))
          bio (brelease me bp)
          pure addr
        else do
          bio (brelease me bp)
          pure addr : Fio ℕ) s
      (fun e => e = .panic "balloc panic...\n" ∧ u32 (V addr) (4 * n) = 0 ∧ firstFree s.sb V = none)
      fun r s' => s'.cache.disk = s.cache.disk ∧ s'.sb = s.sb ∧ s'.inodes = s.inodes ∧
        ((u32 (V addr) (4 * n) = 0 ∧ firstFree s.sb V = some r ∧
            Rest (Function.update (taken s.sb V r) addr (putU32 (4 * n) r (taken s.sb V r addr)))
              me (k + 2) [] s'.cache) ∨
          (u32 (V addr) (4 * n) ≠ 0 ∧ u32 (V addr) (4 * n) = r ∧ Rest V me (k + 2) [] s'.cache)) := by
  refine Sat.bind (bio_bread_rest rest (by simpa using by omega) (by simp)) ?_
  rintro bp s₁ ⟨-, rest₁, tag₁, data₁, -, -, disk₁, sb₁, inodes₁⟩
  refine Sat.bind bio_bufData ?_
  rintro _ _ ⟨rfl, rfl⟩
  rw [data₁]
  dsimp only
  refine Sat.ite (fun empty => ?_) fun found => ?_
  · refine Sat.bind (Sat.gets (Q := fun a t => s₁.sb = a ∧ s₁ = t) ⟨rfl, rfl⟩) ?_
    rintro _ _ ⟨rfl, rfl⟩
    refine Sat.bind ((bio_balloc_rest rest₁ (by simpa using by omega)
      (by simpa [tag₁, sb₁] using apart) (by rwa [sb₁])).weaken ?_) ?_
    · rintro e ⟨panics, full⟩
      exact ⟨panics, empty, sb₁ ▸ full⟩
    rintro x s₂ ⟨first, rest₂, tags₂, disk₂, sb₂, inodes₂⟩
    refine Sat.bind bio_bufData ?_
    rintro _ _ ⟨rfl, rfl⟩
    have tag₂ := (tags₂ bp List.mem_cons_self).trans tag₁
    rw [rest₂.data_of_held List.mem_cons_self, tag₂]
    refine Sat.bind (bio_setData_rest rest₂ _) ?_
    rintro _ s₃ ⟨rest₃, -, -, disk₃, sb₃, inodes₃⟩
    refine Sat.bind (bio_brelease_rest rest₃ (by simp)) ?_
    rintro _ s₄ ⟨rest₄, -, disk₄, sb₄, inodes₄⟩
    rw [tag₂, sb₁] at rest₄
    exact Sat.pure ⟨disk₄.trans (disk₃.trans (disk₂.trans disk₁)), sb₄.trans (sb₃.trans (sb₂.trans sb₁)),
      inodes₄.trans (inodes₃.trans (inodes₂.trans inodes₁)), .inl ⟨empty, sb₁ ▸ first, rest₄⟩⟩
  · refine Sat.bind (bio_brelease_rest rest₁ (by simp)) ?_
    rintro _ s₂ ⟨rest₂, -, disk₂, sb₂, inodes₂⟩
    exact Sat.pure ⟨disk₂.trans disk₁, sb₂.trans sb₁, inodes₂.trans inodes₁,
      .inr ⟨found, rfl, rest₂.mono (Nat.le_succ _)⟩⟩

/-- `bmap` returns what `mapBlock` says, or `balloc` panics on a full image. -/
theorem bmap_spec (rest : Rest V me k [] s.cache) (room : k + 2 < NBUF) (one : s.sb.size ≤ BPB)
    (dev : (s.inodes i).dev = ROOTDEV) (limit : n < MAXFILE)
    (bitmap : bitSet (V s.sb.bmapstart) s.sb.bmapstart = true)
    (apart : (s.inodes i).din.addrs NDIRECT ≠ 0 →
      (s.inodes i).din.addrs NDIRECT ≠ s.sb.bmapstart) :
    Sat (bmap me i n) s
      (fun e => e = .panic "balloc panic...\n" ∧ mapBlock s.sb V (s.inodes i).din n = none)
      (Mapping V me (k + 3) i n s) := by
  unfold bmap
  refine Sat.bind getInode_sat ?_
  rintro _ _ ⟨rfl, rfl⟩
  by_cases direct : n < NDIRECT
  · rw [if_pos direct]
    by_cases none : (s.inodes i).din.addrs n = 0
    · rw [if_pos none]
      refine ((ballocAt_rest rest (by omega) one dev n).weaken ?_).mono ?_
      · rintro e ⟨panics, full⟩
        exact ⟨panics, by simp [mapBlock, direct, none, full]⟩
      · rintro x s' ⟨first, rest', disk', sb', inodes'⟩
        refine ⟨_, _, ?_, rest'.mono (by omega), disk', sb', inodes'⟩
        simp [mapBlock, direct, none, first]
    · rw [if_neg none]
      refine Sat.pure ⟨_, _, ?_, rest.mono (by omega), rfl, rfl, (s.withDin_self i).symm⟩
      simp [mapBlock, direct, none]
  have index : n - NDIRECT < NINDIRECT := by
    simp only [MAXFILE] at limit
    omega
  rw [if_neg direct, if_pos index, dev]
  by_cases none : (s.inodes i).din.addrs NDIRECT = 0
  · rw [if_pos none]
    refine Sat.bind ((ballocAt_rest rest (by omega) one dev NDIRECT).weaken ?_) ?_
    · rintro e ⟨panics, full⟩
      exact ⟨panics, by simp [mapBlock, direct, none, full]⟩
    rintro f s₁ ⟨first, rest₁, disk₁, sb₁, inodes₁⟩
    have free := (firstFree_some first).2.2
    have away : f ≠ s₁.sb.bmapstart := by
      rintro rfl
      rw [sb₁, bitmap] at free
      cases free
    have pointer : ((s.inodes i).din.setAddr NDIRECT f).addrs NDIRECT = f := by simp [Dinode.setAddr]
    refine ((bmap_entry rest₁ (by omega) (by rwa [sb₁]) away).weaken ?_).mono ?_
    · rintro e ⟨panics, empty, full⟩
      rw [sb₁] at full
      exact ⟨panics, by simp [mapBlock, direct, none, first, pointer, empty, full]⟩
    · rintro r s₂ ⟨disk₂, sb₂, inodes₂, ⟨empty, second, rest₂⟩ | ⟨found, rfl, rest₂⟩⟩
      · rw [sb₁] at second rest₂
        refine ⟨_, _, ?_, rest₂, disk₂.trans disk₁, sb₂.trans sb₁, inodes₂.trans inodes₁⟩
        simp [mapBlock, direct, none, first, pointer, empty, second]
      · refine ⟨_, _, ?_, rest₂, disk₂.trans disk₁, sb₂.trans sb₁, inodes₂.trans inodes₁⟩
        simp [mapBlock, direct, none, first, pointer, found]
  · rw [if_neg none]
    refine Sat.bind (Sat.pure (Q := fun a t => (s.inodes i).din.addrs NDIRECT = a ∧ s = t) ⟨rfl, rfl⟩) ?_
    rintro _ _ ⟨rfl, rfl⟩
    refine ((bmap_entry rest (by omega) one (apart none)).weaken ?_).mono ?_
    · rintro e ⟨panics, empty, full⟩
      exact ⟨panics, by simp [mapBlock, direct, none, empty, full]⟩
    · rintro r s₂ ⟨disk₂, sb₂, inodes₂, ⟨empty, second, rest₂⟩ | ⟨found, rfl, rest₂⟩⟩
      · refine ⟨_, _, ?_, rest₂.mono (Nat.le_succ _), disk₂, sb₂, inodes₂.trans (s.withDin_self i).symm⟩
        simp [mapBlock, direct, none, empty, second]
      · refine ⟨_, _, ?_, rest₂.mono (Nat.le_succ _), disk₂, sb₂, inodes₂.trans (s.withDin_self i).symm⟩
        simp [mapBlock, direct, none, found]

section Consistency

variable {r : ℕ} {s' : Fs}

/-- The inode is in use and locked, so that its copy in memory is the current one. -/
def Fs.Loaded (s : Fs) (j : Fin INODES) : Prop :=
  0 < (s.inodes j).ref ∧ (s.inodes j).dev = ROOTDEV ∧ (s.inodes j).splock.locked = true

instance (s : Fs) (j : Fin INODES) : Decidable (s.Loaded j) :=
  inferInstanceAs (Decidable (0 < (s.inodes j).ref ∧ (s.inodes j).dev = ROOTDEV ∧
    (s.inodes j).splock.locked = true))

/-- The inodes of the image as they are now: in memory if locked, else in their block. -/
def Fs.table (s : Fs) (inum : ℕ) : Dinode :=
  if inum < s.sb.ninodes then
    match (List.finRange INODES).find? fun j => s.Loaded j ∧ (s.inodes j).inum = inum with
    | some j => (s.inodes j).din
    | none => Dinode.read (s.shown (IBLOCK inum s.sb)) (inum % IPB)
  else {}

/-- The image has one bitmap block behind the inode blocks, an inode is loaded once, and the
block map is in order. -/
structure Fs.Consistent (s : Fs) : Prop where
  one : s.sb.size ≤ BPB
  area : ∀ inum < s.sb.ninodes, IBLOCK inum s.sb < s.sb.bmapstart
  slots : ∀ j j', s.Loaded j → s.Loaded j' → (s.inodes j).inum = (s.inodes j').inum → j = j'
  sound : MapSound s.sb s.table s.shown

/-- Between two calls: nobody uses a buffer, and the eight that are recycled next are saved. -/
def Fs.Quiet (s : Fs) : Prop := Rest s.shown 0 8 [] s.cache

theorem Fs.Quiet.rest (quiet : s.Quiet) (me : ℕ) : Rest s.shown me 8 [] s.cache :=
  ⟨quiet.wf, quiet.free, by simp, quiet.view, quiet.saved⟩

/-- The presented contents are those of the specification. -/
theorem Rest.shown {c : Bcache} (rest : Rest V me k H c) : c.block ROOTDEV = V := funext rest.view

/-- A loaded inode is the one of the table. -/
theorem Fs.table_loaded (slots : ∀ j j', s.Loaded j → s.Loaded j' →
    (s.inodes j).inum = (s.inodes j').inum → j = j') (loaded : s.Loaded i)
    (inside : (s.inodes i).inum < s.sb.ninodes) : s.table (s.inodes i).inum = (s.inodes i).din := by
  unfold Fs.table
  rw [if_pos inside]
  cases found : (List.finRange INODES).find? fun j => s.Loaded j ∧ (s.inodes j).inum = (s.inodes i).inum with
  | none =>
    have absent := List.find?_eq_none.mp found i (List.mem_finRange i)
    simp [loaded] at absent
  | some j =>
    obtain ⟨there, same⟩ : s.Loaded j ∧ (s.inodes j).inum = (s.inodes i).inum := by
      simpa using List.find?_some found
    rw [slots j i there loaded same]

/-- Loading depends on references and locks only. -/
theorem Fs.loaded_withDin {d : Dinode} (inodes : s'.inodes = s.withDin i d) (j : Fin INODES) :
    (s'.Loaded j ↔ s.Loaded j) ∧ (s'.inodes j).inum = (s.inodes j).inum := by
  unfold Fs.Loaded
  rw [inodes, Fs.withDin]
  by_cases self : j = i
  · subst self
    simp
  · rw [Function.update_of_ne self]
    exact ⟨Iff.rfl, rfl⟩

/-- Changing a loaded inode and no inode block changes its entry of the table. -/
theorem Fs.table_withDin {d : Dinode} (slots : ∀ j j', s.Loaded j → s.Loaded j' →
    (s.inodes j).inum = (s.inodes j').inum → j = j') (loaded : s.Loaded i)
    (inside : (s.inodes i).inum < s.sb.ninodes) (super : s'.sb = s.sb)
    (inodes : s'.inodes = s.withDin i d) :
    s'.table (s.inodes i).inum = d ∧ ∀ inum ≠ (s.inodes i).inum,
      s'.table inum = s.table inum ∨ (s.table inum = Dinode.read (s.shown (IBLOCK inum s.sb)) (inum % IPB) ∧
        s'.table inum = Dinode.read (s'.shown (IBLOCK inum s.sb)) (inum % IPB) ∧ inum < s.sb.ninodes) := by
  have same := Fs.loaded_withDin inodes
  have slots' : ∀ j j', s'.Loaded j → s'.Loaded j' → (s'.inodes j).inum = (s'.inodes j').inum → j = j' := by
    intro j j' one two equal
    rw [(same j).2, (same j').2] at equal
    exact slots j j' ((same j).1.mp one) ((same j').1.mp two) equal
  constructor
  · have here := Fs.table_loaded slots' ((same i).1.mpr loaded) (by rwa [(same i).2, super])
    rw [(same i).2] at here
    rw [here, inodes, Fs.withDin, Function.update_self]
  · intro inum self
    unfold Fs.table
    rw [super]
    by_cases small : inum < s.sb.ninodes
    · rw [if_pos small, if_pos small]
      have search : (fun j => decide (s'.Loaded j ∧ (s'.inodes j).inum = inum)) =
          fun j => decide (s.Loaded j ∧ (s.inodes j).inum = inum) := by
        funext j
        rw [decide_eq_decide, (same j).1, (same j).2]
      rw [search]
      cases found : (List.finRange INODES).find? fun j => decide (s.Loaded j ∧ (s.inodes j).inum = inum) with
      | none => exact .inr ⟨rfl, rfl, small⟩
      | some j =>
        have tag : (s.inodes j).inum = inum := (by simpa using List.find?_some found : _ ∧ _).2
        have other : j ≠ i := by
          rintro rfl
          exact self tag.symm
        left
        dsimp only
        rw [inodes, Fs.withDin, Function.update_of_ne other]
    · rw [if_neg small, if_neg small]
      exact .inl rfl

/-- `bmap` is right: the state is consistent and the block map is as it should be. -/
def BmapRight (s : Fs) (i : Fin INODES) (n r : ℕ) (s' : Fs) : Prop :=
  s'.Consistent ∧ MapsRight s.sb s.table s.shown (s.inodes i).inum n r s'.table s'.shown

/-- The state after the call is the one of `mapBlock`. -/
theorem Mapping.state (mapping : Mapping s.shown me k i n s r s') (consistent : s.Consistent)
    (loaded : s.Loaded i) (inside : (s.inodes i).inum < s.sb.ninodes) :
    ∃ d, mapBlock s.sb s.shown (s.table (s.inodes i).inum) n = some (r, d, s'.shown) ∧
      s'.table = Function.update s.table (s.inodes i).inum d ∧ s'.sb = s.sb ∧
      s'.inodes = s.withDin i d := by
  obtain ⟨d, V', done, rest, -, super, inodes⟩ := mapping
  obtain rfl : s'.shown = V' := rest.shown
  have here := Fs.table_loaded consistent.slots loaded inside
  rw [← here] at done
  refine ⟨d, done, ?_, super, inodes⟩
  obtain ⟨self, others⟩ := Fs.table_withDin consistent.slots loaded inside super inodes
  funext inum
  by_cases equal : inum = (s.inodes i).inum
  · rw [equal, self, Function.update_self]
  · rw [Function.update_of_ne equal]
    rcases others inum equal with same | ⟨before, after, small⟩
    · exact same
    · rw [before, after, mapBlock_below consistent.sound inside done (consistent.area inum small)]

/-- What a run of `bmap` does to a consistent state. -/
theorem bmap_right (me : ℕ) (quiet : s.Quiet) (consistent : s.Consistent) (loaded : s.Loaded i)
    (inside : (s.inodes i).inum < s.sb.ninodes) (limit : n < MAXFILE) :
    Sat (bmap me i n) s (fun e => e = .panic "balloc panic...\n") fun r s' =>
      BmapRight s i n r s' ↔ MapsWhen s.sb s.table s.shown (s.inodes i).inum n := by
  have here := Fs.table_loaded consistent.slots loaded inside
  refine ((bmap_spec (quiet.rest me) (by decide) consistent.one loaded.2.1 limit
    (consistent.sound.metadata _ (le_refl _)) fun present => ?_).weaken fun e facts => facts.1).mono ?_
  · rw [← here] at present ⊢
    exact (consistent.sound.indirect_above inside present).ne'
  rintro r s' mapping
  obtain ⟨d, done, table, super, inodes⟩ := mapping.state consistent loaded inside
  rw [← mapBlock_right_iff consistent.sound inside limit done, ← table]
  refine ⟨fun right => right.2, fun right => ⟨⟨?_, ?_, ?_, ?_⟩, right⟩⟩
  · rw [super]
    exact consistent.one
  · rw [super]
    exact consistent.area
  · intro j j' one two equal
    have same := Fs.loaded_withDin inodes
    rw [(same j).2, (same j').2] at equal
    exact consistent.slots j j' ((same j).1.mp one) ((same j').1.mp two) equal
  · rw [super]
    exact right.sound

end Consistency

section Small

/-! A small image: one inode block, the bitmap and the data blocks from 4 on. -/

def smallSb : Superblock where
  magic := FSMAGIC
  size := 16
  nblocks := 12
  ninodes := 16
  nlog := 0
  logstart := 2
  inodestart := 2
  bmapstart := 3
  dataStart := 4

/-- Inode 1 is loaded with the contents `d`; the cache is empty. -/
def smallFs (disk : ℕ → Block) (d : Dinode) : Fs where
  cache := initBcache disk
  sb := smallSb
  inodes := Function.update (fun _ => {}) 0 { dev := ROOTDEV, inum := 1, ref := 1, splock := ⟨true, 1⟩, din := d }

variable {disk : ℕ → Block} {d : Dinode}

theorem smallFs_shown : (smallFs disk d).shown = disk :=
  funext fun n => block_initBcache disk (by decide) n

theorem smallFs_quiet : (smallFs disk d).Quiet where
  wf := wf_initBcache disk
  free := fun _ _ => rfl
  held := by simp
  view := fun _ => rfl
  saved := by simp [smallFs, initBcache]

theorem smallFs_loaded (j : Fin INODES) : (smallFs disk d).Loaded j ↔ j = 0 := by
  unfold Fs.Loaded smallFs
  dsimp only
  by_cases self : j = 0
  · subst self
    simp
  · simp [self]

/-- With inode block 2 empty, all inodes but the loaded one have no blocks. -/
theorem smallFs_table (empty : disk 2 = fun _ => 0) (inum k : ℕ) :
    ((smallFs disk d).table inum).addrs k = if inum = 1 then d.addrs k else 0 := by
  have slots : ∀ j j', (smallFs disk d).Loaded j → (smallFs disk d).Loaded j' →
      ((smallFs disk d).inodes j).inum = ((smallFs disk d).inodes j').inum → j = j' := by
    intro j j' one two _
    rw [(smallFs_loaded j).mp one, (smallFs_loaded j').mp two]
  by_cases self : inum = 1
  · subst self
    have here := Fs.table_loaded slots ((smallFs_loaded 0).mpr rfl) (by exact (by decide : 1 < 16))
    have tag : ((smallFs disk d).inodes 0).inum = 1 := rfl
    rw [tag] at here
    rw [here, if_pos rfl]
    rfl
  · rw [if_neg self]
    unfold Fs.table
    split
    · rename_i small
      have missing : (List.finRange INODES).find? (fun j =>
          decide ((smallFs disk d).Loaded j ∧ ((smallFs disk d).inodes j).inum = inum)) = none := by
        rw [List.find?_eq_none]
        intro j _ found
        rw [decide_eq_true_eq, smallFs_loaded] at found
        obtain ⟨rfl, tag⟩ := found
        exact self tag.symm
      have block : IBLOCK inum smallSb = 2 := by
        have bound : inum < 16 := small
        simp only [IBLOCK, IPB, smallSb]
        omega
      have super : (smallFs disk d).sb = smallSb := rfl
      rw [missing]
      dsimp only
      rw [super, block, smallFs_shown, empty]
      exact u32_zero
    · rfl

theorem smallFs_consistent (sound : MapSound smallSb (smallFs disk d).table (smallFs disk d).shown) :
    (smallFs disk d).Consistent where
  one := (by decide : smallSb.size ≤ BPB)
  area := by
    intro inum small
    have bound : inum < 16 := small
    simp only [IBLOCK, IPB, smallFs, smallSb]
    omega
  slots := by
    intro j j' one two _
    rw [(smallFs_loaded j).mp one, (smallFs_loaded j').mp two]
  sound := sound

/-- Without blocks there is nothing to put in order. -/
theorem smallFs_empty (empty : disk 2 = fun _ => 0) (metadata : ∀ b ≤ 3, bitSet (disk 3) b = true)
    (none : ∀ k, d.addrs k = 0) : (smallFs disk d).Consistent := by
  have zero : ∀ π : Place, stored (smallFs disk d).table (smallFs disk d).shown π = 0 := by
    have addrs : ∀ inum k, ((smallFs disk d).table inum).addrs k = 0 := by
      intro inum k
      rw [smallFs_table empty, none, ite_self]
    intro π
    cases π with
    | direct j k => exact addrs j k
    | indirect j => exact addrs j NDIRECT
    | entry j k => rw [stored_entry, if_pos (addrs j NDIRECT)]
  refine smallFs_consistent ⟨?_, fun π _ _ present => absurd (zero π) present,
    fun π _ _ _ _ _ present => absurd (zero π) present⟩
  rw [smallFs_shown]
  exact metadata

/-- The first four blocks are marked, and the others are zero. -/
def freshDisk : ℕ → Block := Function.update (fun _ _ => 0) 3 (Function.update (fun _ => 0) 0 0x0f)

/-- The same image, where block 4 still holds the number 7 at offset 4. -/
def staleDisk : ℕ → Block :=
  Function.update freshDisk 4 (Function.update (fun _ => 0) 4 7)

end Small

end HaloOS
