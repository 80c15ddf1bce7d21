import HaloOS.Fs.Clean

/-! Runs of the file system operations and what they leave in the buffer cache. The
operations that neither allocate nor free a block keep every valid buffer equal to its
block on the disk; `balloc` and `bfree` do not. -/

namespace HaloOS

open Lib

variable {disk : ℕ → Block} {sb : Superblock} {s s' : Fs} {me n : ℕ} {i : Fin INODES}

/-- A call of an operation; `bmap` carries the address that it returns. `readi` copies to a
destination that may refuse, and the source of `writei` is readable, since it panics
otherwise. -/
inductive FsEvent where
  | balloc (me b : ℕ)
  | bfree (me b : ℕ)
  | ialloc (me type : ℕ)
  | iupdate (me : ℕ) (i : Fin INODES)
  | bmap (me : ℕ) (i : Fin INODES) (n addr : ℕ)
  | readi (me : ℕ) (i : Fin INODES) (copies : ℕ → List Byte → Bool) (off n : ℕ)
  | writei (me : ℕ) (i : Fin INODES) (src : List Byte) (off : ℕ)
  | itrunc (me : ℕ) (i : Fin INODES)
  | dirlink (me : ℕ) (i : Fin INODES) (path : List Byte) (inum : ℕ)

/-- The operation returns; its inode is one of the root device. -/
def FsStep (s : Fs) : FsEvent → Fs → Prop
  | .balloc me b, s' => bio (balloc me ROOTDEV s.sb) s = .ok (b, s')
  | .bfree me b, s' => bio (bfree me ROOTDEV s.sb b) s = .ok ((), s')
  | .ialloc me type, s' => ∃ r, ialloc me ROOTDEV type s = .ok (r, s')
  | .iupdate me i, s' => (s.inodes i).dev = ROOTDEV ∧ iupdate me i s = .ok ((), s')
  | .bmap me i n addr, s' => (s.inodes i).dev = ROOTDEV ∧ bmap me i n s = .ok (addr, s')
  | .readi me i copies off n, s' => (s.inodes i).dev = ROOTDEV ∧
    ∃ r, readi (fun m => m) me i (fun tot bytes => pure (copies tot bytes)) off n s = .ok (r, s')
  | .writei me i src off, s' => (s.inodes i).dev = ROOTDEV ∧ ∃ r, writei me i src off s = .ok (r, s')
  | .itrunc me i, s' => (s.inodes i).dev = ROOTDEV ∧ itrunc me i s = .ok ((), s')
  | .dirlink me i path inum, s' => (s.inodes i).dev = ROOTDEV ∧ dirlink me i path inum s = .ok ((), s')

/-- Every valid buffer holds its block of the disk. -/
def WriteThrough (c : Bcache) : Prop :=
  ∀ b, (c.bufs b).vaild = true → (c.bufs b).data = c.disk (c.bufs b).blockno

section Condition

/-- Block `n` of the inode is there. -/
def Mapped (s : Fs) (i : Fin INODES) (n : ℕ) : Prop := mapped s.cache.disk (s.inodes i).din n ≠ 0

/-- Entry `k` of the directory is in use. -/
def EntryUsed (s : Fs) (i : Fin INODES) (k : ℕ) : Prop :=
  u16 (s.cache.disk (mapped s.cache.disk (s.inodes i).din (16 * k / BSIZE))) (16 * k % BSIZE) ≠ 0

/-- `b` is the indirect block of an inode in the cache. -/
def Indirect (s : Fs) (b : ℕ) : Prop := ∃ j, (s.inodes j).din.addrs NDIRECT = b ∧ b ≠ 0

def inodeBlock (s : Fs) (i : Fin INODES) : ℕ := IBLOCK (s.inodes i).inum s.sb

/-- The arguments that `writei` accepts. -/
def Accepts (s : Fs) (i : Fin INODES) (len off : ℕ) : Prop :=
  off ≤ (s.inodes i).din.size ∧ off ≤ (off + len) % UINT ∧ off + len ≤ MAXFILE

/-- The call allocates and frees no block, and writes no block that is an indirect block. -/
def NoAlloc (s : Fs) : FsEvent → Prop
  | .balloc _ _ => False
  | .bfree _ _ => False
  | .ialloc _ _ => ∀ inum < s.sb.ninodes, ¬ Indirect s (IBLOCK inum s.sb)
  | .iupdate _ i => ¬ Indirect s (inodeBlock s i)
  | .bmap _ i n _ => Mapped s i n
  | .readi _ i _ off n =>
    off < (s.inodes i).din.size → 0 < n → off ≤ (off + n) % UINT → Mapped s i (off / BSIZE)
  | .writei _ i src off => Accepts s i src.length off → ¬ Indirect s (inodeBlock s i) ∧
    (src ≠ [] → Mapped s i 0 ∧ ¬ Indirect s ((s.inodes i).din.addrs 0))
  | .itrunc _ i => (∀ k ≤ NDIRECT, (s.inodes i).din.addrs k = 0) ∧ ¬ Indirect s (inodeBlock s i)
  | .dirlink _ i _ _ => (∀ k, 16 * k ≤ (s.inodes i).din.size → (∀ j < k, EntryUsed s i j) →
      Mapped s i (16 * k / BSIZE)) ∧
    ¬ Indirect s ((s.inodes i).din.addrs 0) ∧ ¬ Indirect s (inodeBlock s i)

end Condition

/-- No buffer is in use and the valid ones are clean. -/
def AtRest (s : Fs) : Prop := Clean s.cache.disk s.sb s

theorem Clean.atRest (clean : Clean disk sb s) : AtRest s := by
  unfold AtRest
  rw [clean.idle.onDisk, clean.super]
  exact clean

/-- Block addresses stay as they were, in memory and on the disk. -/
structure Kept (s s' : Fs) : Prop where
  addrs : ∀ i, ∀ k ≤ NDIRECT, (s'.inodes i).din.addrs k = (s.inodes i).din.addrs k
  indirect : ∀ b, Indirect s b → s'.cache.disk b = s.cache.disk b

theorem Kept.refl (s : Fs) : Kept s s := ⟨fun _ _ _ => rfl, fun _ _ => rfl⟩

theorem Kept.mapped (kept : Kept s s') (i : Fin INODES) (n : ℕ) :
    mapped s'.cache.disk (s'.inodes i).din n = mapped s.cache.disk (s.inodes i).din n := by
  unfold HaloOS.mapped
  by_cases direct : n < NDIRECT
  · rw [if_pos direct, if_pos direct, kept.addrs i n (le_of_lt direct)]
  · rw [if_neg direct, if_neg direct, kept.addrs i NDIRECT (le_refl _)]
    by_cases none : (s.inodes i).din.addrs NDIRECT = 0
    · rw [if_pos none, if_pos none]
    · rw [if_neg none, if_neg none, kept.indirect _ ⟨i, rfl, none⟩]

/-- The state after an operation that changed nothing but the cache. -/
theorem kept_of_clean (clean : Clean s.cache.disk sb s') (inodes : s'.inodes = s.inodes) :
    Kept s s' ∧ AtRest s' :=
  ⟨⟨fun i k _ => by rw [inodes], fun b _ => by rw [clean.idle.onDisk]⟩, clean.atRest⟩

section Reads

/-- Past the indirect blocks `bmap` panics. -/
theorem bmap_beyond (large : ¬ n < MAXFILE) : Sat (bmap me i n) s anyStop fun _ _ => False := by
  have direct : ¬ n < NDIRECT := by
    simp only [MAXFILE] at large
    omega
  have indirect : ¬ n - NDIRECT < NINDIRECT := by
    simp only [MAXFILE] at large
    omega
  unfold bmap
  refine Sat.bind getInode_sat ?_
  rintro _ _ ⟨rfl, rfl⟩
  rw [if_neg direct, if_neg indirect]
  exact Sat.throw trivial

theorem bmap_settles (clean : Clean disk sb s) (dev : (s.inodes i).dev = ROOTDEV)
    (some : mapped disk (s.inodes i).din n ≠ 0) :
    Sat (bmap me i n) s anyStop fun addr s' => mapped disk (s.inodes i).din n = addr ∧
      Clean disk sb s' ∧ s'.inodes = s.inodes := by
  by_cases small : n < MAXFILE
  · exact bmap_clean me clean dev small some
  · exact (bmap_beyond small).mono fun _ _ bad => bad.elim

theorem readiLoop_settles {copies : ℕ → List Byte → Bool} {off : ℕ} (fuel n tot : ℕ) (done : List Byte)
    (clean : Clean disk sb s) (dev : (s.inodes i).dev = ROOTDEV)
    (some : mapped disk (s.inodes i).din (off / BSIZE) ≠ 0) :
    Sat (readiLoop (fun m => m) me i (fun tot bytes => pure (copies tot bytes)) off n fuel tot done) s
      anyStop fun _ s' => Clean disk sb s' ∧ s'.inodes = s.inodes := by
  induction fuel generalizing s tot done with
  | zero => exact Sat.pure ⟨clean, rfl⟩
  | succ fuel ih =>
    unfold readiLoop
    refine Sat.ite (fun _ => Sat.pure ⟨clean, rfl⟩) fun _ => ?_
    refine Sat.bind (bmap_settles clean dev some) ?_
    rintro _ s₁ ⟨rfl, clean₁, inodes₁⟩
    refine Sat.bind getInode_sat ?_
    rintro _ _ ⟨rfl, rfl⟩
    rw [inodes₁, dev]
    refine Sat.bind (bio_bread clean₁) ?_
    rintro b s₂ ⟨lent, super, inodes₂, data⟩
    refine Sat.bind bio_bufData ?_
    rintro _ _ ⟨rfl, rfl⟩
    dsimp only
    refine Sat.bind (Sat.pure (Q := fun _ t => s₂ = t) rfl) ?_
    rintro copied _ rfl
    refine Sat.bind (bio_brelease lent super) ?_
    rintro _ s₃ ⟨clean₃, inodes₃⟩
    have inodes : s₃.inodes = s.inodes := inodes₃.trans (inodes₂.trans inodes₁)
    refine Sat.ite (fun _ => ?_) fun _ => Sat.pure ⟨clean₃, inodes⟩
    refine (ih _ _ clean₃ (by rwa [inodes]) (by rwa [inodes])).mono ?_
    rintro _ s₄ ⟨clean₄, inodes₄⟩
    exact ⟨clean₄, inodes₄.trans inodes⟩

theorem readi_settles {copies : ℕ → List Byte → Bool} {off : ℕ} (clean : Clean disk sb s)
    (dev : (s.inodes i).dev = ROOTDEV)
    (some : off < (s.inodes i).din.size → 0 < n → off ≤ (off + n) % UINT →
      mapped disk (s.inodes i).din (off / BSIZE) ≠ 0) :
    Sat (readi (fun m => m) me i (fun tot bytes => pure (copies tot bytes)) off n) s anyStop
      fun _ s' => Clean disk sb s' ∧ s'.inodes = s.inodes := by
  unfold readi
  refine Sat.bind getInode_sat ?_
  rintro _ _ ⟨rfl, rfl⟩
  refine Sat.ite (fun _ => Sat.pure ⟨clean, rfl⟩) fun inside => ?_
  dsimp only
  generalize length : (if (s.inodes i).din.size < off + n then (s.inodes i).din.size - off else n) = m
  cases m with
  | zero => exact Sat.pure ⟨clean, rfl⟩
  | succ m =>
    refine readiLoop_settles _ _ _ _ clean dev (some ?_ ?_ (by omega))
    · split at length <;> omega
    · split at length <;> omega

/-- One entry of a directory, as the search of `dirlink` reads it. -/
theorem readk_used {k : ℕ} (clean : Clean disk sb s) (dev : (s.inodes i).dev = ROOTDEV)
    (some : mapped disk (s.inodes i).din (16 * k / BSIZE) ≠ 0) :
    Sat (readk me i (16 * k) 16) s anyStop fun r s' => Clean disk sb s' ∧ s'.inodes = s.inodes ∧
      (r.1 = 16 → direntInum r.2 =
        u16 (disk (mapped disk (s.inodes i).din (16 * k / BSIZE))) (16 * k % BSIZE)) := by
  unfold readk readi
  refine Sat.bind getInode_sat ?_
  rintro _ _ ⟨rfl, rfl⟩
  refine Sat.ite (fun _ => Sat.pure ⟨clean, rfl, fun bad => absurd bad (by decide)⟩) fun inside => ?_
  dsimp only
  generalize length : (if (s.inodes i).din.size < 16 * k + 16 then (s.inodes i).din.size - 16 * k
    else 16) = m
  have bound : m ≤ 16 := by split at length <;> omega
  cases m with
  | zero => exact Sat.pure ⟨clean, rfl, fun bad => absurd bad (by decide)⟩
  | succ m =>
    by_cases small : 16 * k / BSIZE < MAXFILE
    · refine (readiLoop_clean clean dev (by omega) ?_ small some).mono ?_
      · simp only [BSIZE]
        omega
      · rintro _ s' ⟨clean', inodes', rfl⟩
        refine ⟨clean', inodes', fun full => ?_⟩
        have all : m + 1 = 16 := Int.ofNat_inj.mp full
        rw [all]
        rfl
    · unfold readiLoop
      rw [if_neg (by omega)]
      exact Sat.bind (bmap_beyond small) fun _ _ bad => bad.elim

end Reads

section Writes

variable {E : Stop → Prop}

/-- `iupdate` writes its inode block. -/
theorem iupdate_settles (clean : Clean disk sb s) (dev : (s.inodes i).dev = ROOTDEV) :
    Sat (iupdate me i) s E fun _ s' => s'.inodes = s.inodes ∧ ∃ disk', Clean disk' sb s' ∧
      ∀ b ≠ IBLOCK (s.inodes i).inum sb, disk' b = disk b := by
  unfold iupdate
  refine Sat.bind getInode_sat ?_
  rintro _ _ ⟨rfl, rfl⟩
  refine Sat.bind (Sat.gets (Q := fun a t => sb = a ∧ s = t) ⟨clean.super.symm, rfl⟩) ?_
  rintro _ _ ⟨rfl, rfl⟩
  rw [dev]
  refine Sat.bind (bio_bread clean) ?_
  rintro b s₁ ⟨lent, super, inodes₁, data⟩
  refine Sat.bind bio_bufData ?_
  rintro _ _ ⟨rfl, rfl⟩
  refine Sat.bind (bio_setData lent super _) ?_
  rintro _ s₂ ⟨pending, super₂, inodes₂⟩
  refine Sat.bind (bio_bwrite pending super₂) ?_
  rintro _ s₃ ⟨lent₃, super₃, inodes₃⟩
  refine (bio_brelease lent₃ super₃).mono ?_
  rintro _ s₄ ⟨clean₄, inodes₄⟩
  exact ⟨inodes₄.trans (inodes₃.trans (inodes₂.trans inodes₁)), _, clean₄,
    fun b other => Function.update_of_ne other _ _⟩

/-- The search of `ialloc` writes at most one block, one of the inode blocks. -/
theorem iallocFrom_settles {type : ℕ} (count inum : ℕ) (clean : Clean disk sb s) :
    Sat (iallocFrom me ROOTDEV type count inum) s anyStop fun _ s' =>
      (∀ j, (s'.inodes j).din = (s.inodes j).din) ∧ ∃ disk', Clean disk' sb s' ∧
        ∀ b, (∀ k, inum ≤ k → k < inum + count → b ≠ IBLOCK k sb) → disk' b = disk b := by
  induction count generalizing s inum with
  | zero => exact Sat.pure ⟨fun _ => rfl, disk, clean, fun _ _ => rfl⟩
  | succ count ih =>
    unfold iallocFrom
    refine Sat.bind (Sat.gets (Q := fun a t => sb = a ∧ s = t) ⟨clean.super.symm, rfl⟩) ?_
    rintro _ _ ⟨rfl, rfl⟩
    refine Sat.bind (bio_bread clean) ?_
    rintro bp s₁ ⟨lent, super, inodes₁, data⟩
    refine Sat.bind bio_bufData ?_
    rintro _ _ ⟨rfl, rfl⟩
    refine Sat.ite (fun _ => ?_) fun _ => ?_
    · refine Sat.bind (bio_setData lent super _) ?_
      rintro _ s₂ ⟨pending, super₂, inodes₂⟩
      refine Sat.bind (bio_bwrite pending super₂) ?_
      rintro _ s₃ ⟨lent₃, super₃, inodes₃⟩
      refine Sat.bind (bio_brelease lent₃ super₃) ?_
      rintro _ s₄ ⟨clean₄, inodes₄⟩
      have inodes : s₄.inodes = s.inodes := inodes₄.trans (inodes₃.trans (inodes₂.trans inodes₁))
      have entered : Sat (iget ROOTDEV inum) s₄ anyStop fun _ s₅ => s₅.cache = s₄.cache ∧ s₅.sb = s₄.sb ∧
          ∀ j, (s₅.inodes j).din = (s₄.inodes j).din := by
        have dins : ∀ (i : Fin INODES) (f : Inode → Inode), (f (s₄.inodes i)).din = (s₄.inodes i).din →
            ∀ j, ((s₄.setInode i f).inodes j).din = (s₄.inodes j).din := by
          intro i f same j
          by_cases here : j = i
          · subst here
            simp [Fs.setInode, same]
          · simp [Fs.setInode, here]
        unfold iget
        refine Sat.bind (Sat.gets (Q := fun a t => s₄ = a ∧ s₄ = t) ⟨rfl, rfl⟩) ?_
        rintro _ _ ⟨rfl, rfl⟩
        dsimp only
        split
        · exact Sat.bind (Sat.update (Q := fun _ t => t.cache = s₄.cache ∧ t.sb = s₄.sb ∧
            ∀ j, (t.inodes j).din = (s₄.inodes j).din) ⟨rfl, rfl, dins _ _ rfl⟩)
            fun _ _ facts => Sat.pure facts
        · split
          · exact Sat.bind (Sat.update (Q := fun _ t => t.cache = s₄.cache ∧ t.sb = s₄.sb ∧
              ∀ j, (t.inodes j).din = (s₄.inodes j).din) ⟨rfl, rfl, dins _ _ rfl⟩)
              fun _ _ facts => Sat.pure facts
          · exact Sat.throw trivial
      refine Sat.bind entered ?_
      rintro r s₅ ⟨cache₅, super₅, dins₅⟩
      refine Sat.pure ⟨fun j => (dins₅ j).trans (by rw [inodes]), _,
        ⟨cache₅.symm ▸ clean₄.idle, super₅.trans clean₄.super⟩, fun b away => ?_⟩
      exact Function.update_of_ne (away inum (le_refl _) (by omega)) _ _
    · refine Sat.bind (bio_brelease lent super) ?_
      rintro _ s₂ ⟨clean₂, inodes₂⟩
      refine (ih (inum + 1) clean₂).mono ?_
      rintro _ s₃ ⟨dins₃, disk₃, clean₃, kept₃⟩
      refine ⟨fun j => (dins₃ j).trans (by rw [inodes₂, inodes₁]), disk₃, clean₃, fun b away => ?_⟩
      exact kept₃ b fun k low high => away k (by omega) (by omega)

/-- The loop of `writei` over bytes that lie in the first block. -/
theorem writeiLoop_settles {src : List Byte} (fuel tot off : ℕ) (clean : Clean disk sb s)
    (dev : (s.inodes i).dev = ROOTDEV) (first : off + (src.length - tot) ≤ MAXFILE)
    (some : tot < src.length → (s.inodes i).din.addrs 0 ≠ 0) :
    Sat (writeiLoop me i src fuel tot off) s E fun _ s' => s'.inodes = s.inodes ∧
      ∃ disk', Clean disk' sb s' ∧
        ∀ b, (tot < src.length → b ≠ (s.inodes i).din.addrs 0) → disk' b = disk b := by
  induction fuel generalizing s disk tot off with
  | zero => exact Sat.pure ⟨rfl, disk, clean, fun _ _ => rfl⟩
  | succ fuel ih =>
    unfold writeiLoop
    refine Sat.ite (fun _ => Sat.pure ⟨rfl, disk, clean, fun _ _ => rfl⟩) fun more => ?_
    have inside : tot < src.length := by omega
    have zero : off / BSIZE = 0 := by
      simp only [MAXFILE, NDIRECT, NINDIRECT, BSIZE] at *
      omega
    have direct : mapped disk (s.inodes i).din 0 = (s.inodes i).din.addrs 0 := if_pos (by decide)
    rw [zero]
    refine Sat.bind (bmap_clean me clean dev (by decide) (by rw [direct]; exact some inside)) ?_
    rintro _ s₁ ⟨rfl, clean₁, inodes₁⟩
    rw [direct]
    refine Sat.bind getInode_sat ?_
    rintro _ _ ⟨rfl, rfl⟩
    rw [inodes₁, dev]
    refine Sat.bind (bio_bread clean₁) ?_
    rintro bp s₂ ⟨lent, super, inodes₂, data⟩
    refine Sat.bind bio_bufData ?_
    rintro _ _ ⟨rfl, rfl⟩
    dsimp only
    refine Sat.bind (bio_setData lent super _) ?_
    rintro _ s₃ ⟨pending, super₃, inodes₃⟩
    refine Sat.bind (bio_bwrite pending super₃) ?_
    rintro _ s₄ ⟨lent₄, super₄, inodes₄⟩
    refine Sat.bind (bio_brelease lent₄ super₄) ?_
    rintro _ s₅ ⟨clean₅, inodes₅⟩
    have inodes : s₅.inodes = s.inodes :=
      inodes₅.trans (inodes₄.trans (inodes₃.trans (inodes₂.trans inodes₁)))
    refine (ih _ _ clean₅ (by rwa [inodes]) (by omega) fun _ => by rw [inodes]; exact some inside).mono ?_
    rintro _ s₆ ⟨inodes₆, disk₆, clean₆, kept₆⟩
    refine ⟨inodes₆.trans inodes, disk₆, clean₆, fun b away => ?_⟩
    rw [inodes] at kept₆
    rw [kept₆ b fun _ => away inside]
    exact Function.update_of_ne (away inside) _ _

theorem addrs_setInode {f : Inode → Inode} (same : (f (s.inodes i)).din.addrs = (s.inodes i).din.addrs)
    (j : Fin INODES) : ((s.setInode i f).inodes j).din.addrs = (s.inodes j).din.addrs := by
  by_cases here : j = i
  · subst here
    simp [Fs.setInode, same]
  · simp [Fs.setInode, here]

theorem writei_settles {src : List Byte} {off : ℕ} (clean : Clean disk sb s)
    (dev : (s.inodes i).dev = ROOTDEV)
    (some : Accepts s i src.length off → src ≠ [] → (s.inodes i).din.addrs 0 ≠ 0) :
    Sat (writei me i src off) s E fun _ s' =>
      (∀ j, (s'.inodes j).din.addrs = (s.inodes j).din.addrs) ∧ ∃ disk', Clean disk' sb s' ∧
        ∀ b, (Accepts s i src.length off → b ≠ IBLOCK (s.inodes i).inum sb ∧
          (src ≠ [] → b ≠ (s.inodes i).din.addrs 0)) → disk' b = disk b := by
  unfold writei
  refine Sat.bind getInode_sat ?_
  rintro _ _ ⟨rfl, rfl⟩
  refine Sat.ite (fun _ => Sat.pure ⟨fun _ => rfl, disk, clean, fun _ _ => rfl⟩) fun inside => ?_
  refine Sat.ite (fun _ => Sat.pure ⟨fun _ => rfl, disk, clean, fun _ _ => rfl⟩) fun fits => ?_
  have accepts : Accepts s i src.length off := by
    rw [not_or] at inside
    exact ⟨not_lt.mp inside.1, not_lt.mp inside.2, not_lt.mp fits⟩
  have nonempty : 0 < src.length → src ≠ [] := List.ne_nil_of_length_pos
  refine Sat.bind (writeiLoop_settles _ 0 off clean dev (by omega)
    fun more => some accepts (nonempty more)) ?_
  rintro ⟨tot, off'⟩ s₁ ⟨inodes₁, disk₁, clean₁, kept₁⟩
  dsimp only
  refine Sat.bind (Sat.onlyIf (Q := fun _ t => t.cache = s₁.cache ∧ t.sb = s₁.sb ∧
      (t.inodes i).dev = ROOTDEV ∧ (t.inodes i).inum = (s.inodes i).inum ∧
      ∀ j, (t.inodes j).din.addrs = (s.inodes j).din.addrs) (fun _ => Sat.update ?_) fun _ => ?_) ?_
  · refine ⟨rfl, rfl, ?_, ?_, fun j => ?_⟩
    · simp [Fs.setInode, inodes₁, dev]
    · simp [Fs.setInode, inodes₁]
    · rw [addrs_setInode rfl, inodes₁]
  · exact ⟨rfl, rfl, by rwa [inodes₁], by rw [inodes₁], fun j => by rw [inodes₁]⟩
  · rintro _ s₂ ⟨cache₂, super₂, dev₂, inum₂, addrs₂⟩
    have clean₂ : Clean disk₁ sb s₂ := ⟨cache₂ ▸ clean₁.idle, super₂.trans clean₁.super⟩
    refine Sat.bind (iupdate_settles clean₂ dev₂) ?_
    rintro _ s₃ ⟨inodes₃, disk₃, clean₃, kept₃⟩
    refine Sat.pure ⟨fun j => by rw [inodes₃, addrs₂], disk₃, clean₃, fun b away => ?_⟩
    obtain ⟨notInode, notData⟩ := away accepts
    rw [kept₃ b (by rwa [inum₂]), kept₁ b fun more => notData (nonempty more)]

/-- `itrunc` of an inode without blocks writes its inode block. -/
theorem itrunc_settles (clean : Clean disk sb s) (dev : (s.inodes i).dev = ROOTDEV)
    (none : ∀ k ≤ NDIRECT, (s.inodes i).din.addrs k = 0) :
    Sat (itrunc me i) s E fun _ s' =>
      (∀ j, ∀ k ≤ NDIRECT, (s'.inodes j).din.addrs k = (s.inodes j).din.addrs k) ∧
        ∃ disk', Clean disk' sb s' ∧ ∀ b ≠ IBLOCK (s.inodes i).inum sb, disk' b = disk b := by
  have frees : ∀ l : List ℕ, (∀ b ∈ l, b = 0) → Sat (bfreeAll me ROOTDEV l) s E fun _ t => s = t := by
    intro l zero
    induction l with
    | nil => exact Sat.pure rfl
    | cons b rest ih =>
      unfold bfreeAll
      refine Sat.bind (Sat.onlyIf (Q := fun _ t => s = t) (fun bad => absurd (zero b (by simp)) bad)
        fun _ => rfl) ?_
      rintro _ _ rfl
      exact ih fun b' member => zero b' (by simp [member])
  unfold itrunc
  refine Sat.bind getInode_sat ?_
  rintro _ _ ⟨rfl, rfl⟩
  rw [dev]
  refine Sat.bind (frees _ ?_) ?_
  · intro b member
    obtain ⟨k, inside, rfl⟩ := List.mem_map.mp member
    exact none k (le_of_lt (List.mem_range.mp inside))
  rintro _ _ rfl
  refine Sat.bind (Sat.update (Q := fun _ t => s.setInode i (fun ip => { ip with din :=
    { ip.din with addrs := fun k => if k < NDIRECT then 0 else ip.din.addrs k } }) = t) rfl) ?_
  rintro _ _ rfl
  refine Sat.bind (Sat.onlyIf (Q := fun _ t => s.setInode i (fun ip => { ip with din :=
    { ip.din with addrs := fun k => if k < NDIRECT then 0 else ip.din.addrs k } }) = t)
    (fun bad => absurd (none NDIRECT (le_refl _)) bad) fun _ => rfl) ?_
  rintro _ _ rfl
  refine Sat.bind (Sat.update (Q := fun _ t => t.cache = s.cache ∧ t.sb = s.sb ∧
      (t.inodes i).dev = ROOTDEV ∧ (t.inodes i).inum = (s.inodes i).inum ∧
      ∀ j, ∀ k ≤ NDIRECT, (t.inodes j).din.addrs k = (s.inodes j).din.addrs k) ?_) ?_
  · refine ⟨rfl, rfl, by simp [Fs.setInode, dev], by simp [Fs.setInode], fun j k le => ?_⟩
    rw [addrs_setInode rfl]
    by_cases here : j = i
    · subst here
      simp [Fs.setInode, none k le]
    · simp [Fs.setInode, here]
  · rintro _ s₂ ⟨cache₂, super₂, dev₂, inum₂, addrs₂⟩
    have clean₂ : Clean disk sb s₂ := ⟨cache₂ ▸ clean.idle, super₂.trans clean.super⟩
    refine (iupdate_settles clean₂ dev₂).mono ?_
    rintro _ s₃ ⟨inodes₃, disk₃, clean₃, kept₃⟩
    exact ⟨fun j k le => by rw [inodes₃, addrs₂ j k le], disk₃, clean₃, fun b away =>
      kept₃ b (by rwa [inum₂])⟩

end Writes

section Dirlink

/-- The entry that the search of `dirlink` stops at: all entries before it are in use. -/
theorem dirlinkSlot_settles (count k : ℕ) (clean : Clean disk sb s) (onDisk : s.cache.disk = disk)
    (dev : (s.inodes i).dev = ROOTDEV) (last : k + count = ((s.inodes i).din.size + 15) / 16)
    (used : ∀ j < k, EntryUsed s i j)
    (some : ∀ k, 16 * k ≤ (s.inodes i).din.size → (∀ j < k, EntryUsed s i j) →
      Mapped s i (16 * k / BSIZE)) :
    Sat (dirlinkSlot me i count (16 * k)) s anyStop fun off s' => Clean disk sb s' ∧
      s'.inodes = s.inodes ∧ ∃ k, off = 16 * k ∧ ∀ j < k, EntryUsed s i j := by
  induction count generalizing s k with
  | zero => exact Sat.pure ⟨clean, rfl, k, rfl, used⟩
  | succ count ih =>
    have inside : 16 * k ≤ (s.inodes i).din.size := by omega
    have there := some k inside used
    unfold Mapped at there
    rw [onDisk] at there
    unfold dirlinkSlot
    refine Sat.bind (readk_used clean dev there) ?_
    rintro ⟨r, dir⟩ s₁ ⟨clean₁, inodes₁, read⟩
    refine Sat.bind (Sat.stopIf (Q := fun _ t => s₁ = t ∧ r = 16) (fun _ => trivial)
      fun full => ⟨rfl, not_not.mp full⟩) ?_
    rintro _ _ ⟨rfl, full⟩
    refine Sat.ite (fun _ => Sat.pure ⟨clean₁, inodes₁, k, rfl, used⟩) fun busy => ?_
    have same : ∀ j, EntryUsed s₁ i j ↔ EntryUsed s i j := by
      intro j
      unfold EntryUsed
      rw [inodes₁, clean₁.idle.onDisk, onDisk]
    have busy' : EntryUsed s i k := by
      unfold EntryUsed
      rw [onDisk]
      rwa [read full] at busy
    have next : ∀ j < k + 1, EntryUsed s i j := by
      intro j before
      rcases Nat.lt_succ_iff_lt_or_eq.mp before with earlier | rfl
      · exact used j earlier
      · exact busy'
    have rest := ih (k + 1) clean₁ clean₁.idle.onDisk (by rwa [inodes₁]) (by rw [inodes₁]; omega)
      (fun j before => (same j).mpr (next j before))
      (fun k' inside' used' => by
        have found := some k' (by rwa [inodes₁] at inside') fun j before => (same j).mp (used' j before)
        unfold Mapped at found ⊢
        rwa [inodes₁, clean₁.idle.onDisk, ← onDisk])
    refine rest.mono ?_
    rintro off s₂ ⟨clean₂, inodes₂, k', shape, used'⟩
    exact ⟨clean₂, inodes₂.trans inodes₁, k', shape, fun j before => (same j).mp (used' j before)⟩

theorem dirlink_settles {path : List Byte} {inum : ℕ} (clean : Clean disk sb s)
    (onDisk : s.cache.disk = disk) (dev : (s.inodes i).dev = ROOTDEV)
    (some : ∀ k, 16 * k ≤ (s.inodes i).din.size → (∀ j < k, EntryUsed s i j) →
      Mapped s i (16 * k / BSIZE)) :
    Sat (dirlink me i path inum) s anyStop fun _ s' =>
      (∀ j, (s'.inodes j).din.addrs = (s.inodes j).din.addrs) ∧ ∃ disk', Clean disk' sb s' ∧
        ∀ b, b ≠ IBLOCK (s.inodes i).inum sb → b ≠ (s.inodes i).din.addrs 0 → disk' b = disk b := by
  unfold dirlink
  refine Sat.bind getInode_sat ?_
  rintro _ _ ⟨rfl, rfl⟩
  refine Sat.bind (dirlinkSlot_settles _ 0 clean onDisk dev (Nat.zero_add _) (by simp) some) ?_
  rintro _ s₁ ⟨clean₁, inodes₁, k, rfl, used⟩
  have first : Accepts s₁ i (dirent path (inum % SHORT)).length (16 * k) → dirent path (inum % SHORT) ≠ [] →
      (s₁.inodes i).din.addrs 0 ≠ 0 := by
    rintro ⟨inside, -, fits⟩ -
    rw [inodes₁] at inside ⊢
    have there := some k inside used
    have zero : 16 * k / BSIZE = 0 := by
      simp only [MAXFILE, NDIRECT, NINDIRECT, BSIZE] at *
      omega
    unfold Mapped mapped at there
    rwa [zero, if_pos (by decide)] at there
  refine Sat.bind (writei_settles clean₁ (by rwa [inodes₁]) first) ?_
  rintro r s₂ ⟨addrs₂, disk₂, clean₂, kept₂⟩
  rw [inodes₁] at kept₂
  exact Sat.stopIf (fun _ => trivial) fun _ => ⟨fun j => by rw [addrs₂, inodes₁], disk₂, clean₂,
    fun b notInode notData => kept₂ b fun _ => ⟨notInode, fun _ => notData⟩⟩

end Dirlink

section Runs

/-- The state after an operation that wrote no indirect block. -/
theorem kept_of_write {disk' : ℕ → Block} (clean : Clean disk' sb s')
    (addrs : ∀ i, ∀ k ≤ NDIRECT, (s'.inodes i).din.addrs k = (s.inodes i).din.addrs k)
    (away : ∀ b, Indirect s b → disk' b = s.cache.disk b) : Kept s s' ∧ AtRest s' :=
  ⟨⟨addrs, fun b indirect => by rw [clean.idle.onDisk, away b indirect]⟩, clean.atRest⟩

/-- The step lemma. -/
theorem AtRest.step {e : FsEvent} (rest : AtRest s) (kept : NoAlloc s e) (taken : FsStep s e s') :
    Kept s s' ∧ AtRest s' := by
  cases e with
  | balloc me b => exact kept.elim
  | bfree me b => exact kept.elim
  | ialloc me type =>
    obtain ⟨r, returned⟩ := taken
    have spec : Sat (ialloc me ROOTDEV type) s anyStop fun _ s' =>
        (∀ j, (s'.inodes j).din = (s.inodes j).din) ∧ ∃ disk', Clean disk' s.sb s' ∧
          ∀ b, (∀ k, 0 ≤ k → k < 0 + s.sb.ninodes → b ≠ IBLOCK k s.sb) → disk' b = s.cache.disk b := by
      unfold ialloc
      refine Sat.bind (Sat.gets (Q := fun a t => s.sb = a ∧ s = t) ⟨rfl, rfl⟩) ?_
      rintro _ _ ⟨rfl, rfl⟩
      exact iallocFrom_settles _ 0 rest
    obtain ⟨dins, disk', clean, away⟩ := spec.ok returned
    refine kept_of_write clean (fun j k _ => by rw [dins j]) fun b indirect => away b fun k _ below => ?_
    rintro rfl
    exact kept k (by omega) indirect
  | iupdate me i =>
    obtain ⟨dev, returned⟩ := taken
    obtain ⟨inodes, disk', clean, away⟩ := (iupdate_settles rest dev (E := anyStop)).ok returned
    refine kept_of_write clean (fun j k _ => by rw [inodes]) fun b indirect => away b ?_
    rintro rfl
    exact kept indirect
  | bmap me i n addr =>
    obtain ⟨dev, returned⟩ := taken
    obtain ⟨-, clean, inodes⟩ := (bmap_settles rest dev kept).ok returned
    exact kept_of_clean clean inodes
  | readi me i copies off n =>
    obtain ⟨dev, r, returned⟩ := taken
    obtain ⟨clean, inodes⟩ := (readi_settles rest dev kept).ok returned
    exact kept_of_clean clean inodes
  | writei me i src off =>
    obtain ⟨dev, r, returned⟩ := taken
    have direct : mapped s.cache.disk (s.inodes i).din 0 = (s.inodes i).din.addrs 0 := if_pos (by decide)
    obtain ⟨addrs, disk', clean, away⟩ := (writei_settles rest dev (E := anyStop) fun accepts nonempty => by
      rw [← direct]
      exact ((kept accepts).2 nonempty).1).ok returned
    refine kept_of_write clean (fun j k _ => by rw [addrs j]) fun b indirect => away b fun accepts => ?_
    refine ⟨?_, fun nonempty => ?_⟩
    · rintro rfl
      exact (kept accepts).1 indirect
    · rintro rfl
      exact ((kept accepts).2 nonempty).2 indirect
  | itrunc me i =>
    obtain ⟨dev, returned⟩ := taken
    obtain ⟨addrs, disk', clean, away⟩ := (itrunc_settles rest dev kept.1 (E := anyStop)).ok returned
    refine kept_of_write clean addrs fun b indirect => away b ?_
    rintro rfl
    exact kept.2 indirect
  | dirlink me i path inum =>
    obtain ⟨dev, returned⟩ := taken
    obtain ⟨addrs, disk', clean, away⟩ := (dirlink_settles rest rfl dev kept.1).ok returned
    refine kept_of_write clean (fun j k _ => by rw [addrs j]) fun b indirect => away b ?_ ?_
    · rintro rfl
      exact kept.2.2 indirect
    · rintro rfl
      exact kept.2.1 indirect

theorem AtRest.writeThrough (rest : AtRest s) : WriteThrough s.cache :=
  fun b valid => (rest.idle.clean b valid).2

/-- Recycling a buffer of a cache at rest loses nothing. -/
theorem AtRest.recycle (rest : AtRest s) {me n : ℕ} {b : Fin NBUF} {c : Bcache}
    (returned : bread me ROOTDEV n s.cache = .ok (b, c)) (m : ℕ) :
    c.block ROOTDEV m = s.cache.block ROOTDEV m := by
  rcases block_bread rest.idle.wf returned (d := ROOTDEV) (by decide) m with same | ⟨-, -, -, -, fell⟩
  · exact same
  · rw [fell, rest.idle.block]

/-- What the cache loses in no state, and `bmap` in no run. -/
structure Preserved (events : List FsEvent) (s : Fs) : Prop where
  writeThrough : WriteThrough s.cache
  recycle : ∀ me n b c, bread me ROOTDEV n s.cache = .ok (b, c) →
    ∀ m, c.block ROOTDEV m = s.cache.block ROOTDEV m
  bmap : ∀ past me i n addr mid me' addr' rest,
    events = past ++ .bmap me i n addr :: (mid ++ .bmap me' i n addr' :: rest) → addr' = addr

/-- The state between two operations of a file system that just started. -/
def mounted (disk : ℕ → Block) (sb : Superblock) (inodes : Fin INODES → Inode) : Fs :=
  ⟨initBcache disk, sb, inodes⟩

/-- In every run whose operations allocate and free no block, the cache is write-through
and `bmap` returns the same address again. -/
theorem write_through_of_noAlloc (disk : ℕ → Block) (sb : Superblock) (inodes : Fin INODES → Inode)
    (events : List FsEvent) (s : Fs)
    (run : Trace (fun s e s' => NoAlloc s e ∧ FsStep s e s') (mounted disk sb inodes) events s) :
    Preserved events s := by
  have start : AtRest (mounted disk sb inodes) := ⟨idle_initBcache disk, rfl⟩
  -- along a run the address of a block is the one it had at the start
  have constant : ∀ {events : List FsEvent} {s : Fs},
      Trace (fun s e s' => NoAlloc s e ∧ FsStep s e s') (mounted disk sb inodes) events s →
      AtRest s ∧ ∀ i n, mapped s.cache.disk (s.inodes i).din n = mapped disk (inodes i).din n := by
    intro events s run
    refine run.invariant (fun _ s => AtRest s ∧ ∀ i n,
      mapped s.cache.disk (s.inodes i).din n = mapped disk (inodes i).din n) ⟨start, fun _ _ => rfl⟩ ?_
    rintro _ t e u ⟨rest, same⟩ ⟨cond, taken⟩
    obtain ⟨kept, rest'⟩ := rest.step cond taken
    exact ⟨rest', fun i n => (kept.mapped i n).trans (same i n)⟩
  have address : ∀ past me i n addr rest, events = past ++ .bmap me i n addr :: rest →
      addr = mapped disk (inodes i).din n := by
    intro past me i n addr rest split
    obtain ⟨before, after, earlier, ⟨cond, dev, returned⟩, -⟩ := run.split split
    obtain ⟨atRest, same⟩ := constant earlier
    rw [← ((bmap_settles atRest dev cond).ok returned).1, same i n]
  obtain ⟨rest, -⟩ := constant run
  refine ⟨rest.writeThrough, fun _ _ _ _ returned m => rest.recycle returned m, ?_⟩
  intro past me i n addr mid me' addr' later split
  rw [address past me i n addr _ split]
  refine address (past ++ .bmap me i n addr :: mid) me' i n addr' later ?_
  rw [split]
  simp

/-- An inode whose first block is 46. -/
def oneBlock : Inode := { dev := ROOTDEV, inum := 2, ref := 1, din := { type := T_FILE, addrs := fun _ => 46 } }

/-- Two calls of `bmap` for a block that is there. -/
theorem write_through_bmap : ∃ i : Fin INODES,
    Preserved [.bmap 1 i 0 46, .bmap 1 i 0 46]
      (mounted metadataDisk mkfsSuperblock fun _ => oneBlock) := by
  have there : NoAlloc (mounted metadataDisk mkfsSuperblock fun _ => oneBlock)
      (.bmap 1 ⟨0, by decide⟩ 0 46) := by
    change mapped metadataDisk oneBlock.din 0 ≠ 0
    decide
  have taken : FsStep (mounted metadataDisk mkfsSuperblock fun _ => oneBlock)
      (.bmap 1 ⟨0, by decide⟩ 0 46) (mounted metadataDisk mkfsSuperblock fun _ => oneBlock) := ⟨rfl, rfl⟩
  exact ⟨⟨0, by decide⟩, write_through_of_noAlloc metadataDisk mkfsSuperblock (fun _ => oneBlock) _ _
    ((Trace.nil.snoc ⟨there, taken⟩).snoc ⟨there, taken⟩)⟩

/-- One `balloc` leaves a bit set in the cached bitmap that the disk does not have. -/
theorem balloc_not_written : ¬ ∀ (disk : ℕ → Block) (sb : Superblock) (inodes : Fin INODES → Inode)
    (events : List FsEvent) (s : Fs), Trace FsStep (mounted disk sb inodes) events s →
      Preserved events s := by
  intro claim
  have evaluated : ((balloc 1 ROOTDEV mkfsSuperblock (initBcache metadataDisk)).toOption.any fun p =>
      decide (p.1 = 46) && (p.2.bufs 0).vaild &&
        decide ((p.2.bufs 0).data 5 ≠ p.2.disk (p.2.bufs 0).blockno 5)) = true := by
    decide +kernel
  cases result : balloc 1 ROOTDEV mkfsSuperblock (initBcache metadataDisk) with
  | error e => simp [result, Except.toOption] at evaluated
  | ok pair =>
    obtain ⟨r, c⟩ := pair
    simp only [result, Except.toOption, Option.any_some, Bool.and_eq_true,
      decide_eq_true_eq] at evaluated
    obtain ⟨⟨rfl, valid⟩, stale⟩ := evaluated
    have taken : FsStep (mounted metadataDisk mkfsSuperblock fun _ => {}) (.balloc 1 46)
        ⟨c, mkfsSuperblock, fun _ => {}⟩ := by
      change zoom _ _ _ _ = _
      rw [zoom_ok]
      exact ⟨c, result, rfl⟩
    have preserved := claim metadataDisk mkfsSuperblock (fun _ => {}) _ _ (.single taken)
    exact stale (congrFun (preserved.writeThrough 0 valid) 5)

end Runs

end HaloOS
