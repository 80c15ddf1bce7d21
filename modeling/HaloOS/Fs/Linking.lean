import HaloOS.Fs.BitSearch
import HaloOS.Fs.Lookup
import HaloOS.Fs.Writing
import HaloOS.Mkfs.Format
import HaloOS.Util.Strings

/-! The names that `dirlink` stores and `inodeByName` finds. What `writei` accepts of a directory
lies in its first block. -/

namespace HaloOS

open Lib Util

variable {V : ℕ → Block} {B : Set ℕ} {s s' : Fs} {me dev : ℕ} {dp : Fin INODES} {E : Stop → Prop}

section Names

/-- Past its terminator a string reads as zero. -/
theorem padded_cstr (path : List Byte) : padded (cstr path) = cstr path := by
  funext k
  unfold padded
  by_cases all : ∀ j < k, cstr path j ≠ 0
  · rw [if_pos all]
  · rw [if_neg all]
    push Not at all
    obtain ⟨j, below, zero⟩ := all
    have stays : ∀ o, cstr path (j + o) = 0 := by
      intro o
      induction o with
      | zero => exact zero
      | succ o ih => exact Mkfs.cstr_stable path (j + o) ih
    have here := stays (k - j)
    rw [Nat.add_sub_cancel' below.le] at here
    exact here.symm

/-- The name in a `struct dirent` is what `strncpy` leaves in the field, whatever stood there. -/
theorem direntName_strncpy (field : ℕ → Byte) (path : List Byte) (inum : ℕ) {k : ℕ}
    (small : k < DIRSIZ) :
    direntName (dirent path inum) k = strncpy field (cstr path) DIRSIZ k := by
  rw [Mkfs.direntName_dirent, if_pos small, strncpy_at, if_pos small, padded_cstr]

/-- The test of `inodeByName` is that of `strncmp`. -/
theorem strncmpZero_strncmp (p q : ℕ → Byte) (n : ℕ) :
    strncmpZero p q n 0 = true ↔ (strncmp p q n).1 = 0 := by
  rw [strncmpZero_agree, strncmp_zero]
  simp only [Nat.zero_add]
  rfl

/-- An entry bears the names that agree with the one it was stored under. -/
theorem sameName_dirent (name path : List Byte) (inum : ℕ) :
    SameName name (dirent path inum) ↔ Agree (cstr name) (cstr path) DIRSIZ := by
  unfold SameName Agree
  refine forall₂_congr fun k small => ?_
  rw [Mkfs.direntName_dirent, if_pos small]

end Names

section Slot

/-- The search of `dirlink` ends at the first free entry, or behind the last one. -/
theorem dirlinkSlot_settled (count j : ℕ) (settled : s.Settled dev V B) (here : (s.inodes dp).dev = dev)
    (real : dev ≠ 0) (dir : Directory V (s.inodes dp).din)
    (known : fileBlocks V (s.inodes dp).din ⊆ B) (rest : j + count = (s.inodes dp).din.size / 16) :
    Sat (dirlinkSlot me dp count (16 * j)) s E fun off s' =>
      off = 16 * (j + ((List.range' j count).map (dirEntry V (s.inodes dp).din)).findIdx
        fun de => decide (direntInum de = 0)) ∧
      s'.Settled dev V B ∧ s'.sb = s.sb ∧ s'.inodes = s.inodes ∧ (count = 0 → s' = s) := by
  induction count generalizing s j with
  | zero => exact Sat.pure ⟨by simp, settled, rfl, rfl, fun _ => rfl⟩
  | succ count ih =>
    unfold dirlinkSlot
    refine Sat.bind (readk_dirEntry settled here real dir known (by omega)) ?_
    rintro _ s₁ ⟨rfl, settled₁, sb₁, inodes₁⟩
    dsimp only
    refine Sat.bind (Sat.stopIf (Q := fun _ t => s₁ = t) (fun bad => absurd rfl bad) fun _ => rfl) ?_
    rintro _ _ rfl
    rw [List.range'_succ, List.map_cons, List.findIdx_cons]
    by_cases free : direntInum (dirEntry V (s.inodes dp).din j) = 0
    · rw [if_pos free]
      simp only [free, decide_true, cond_true]
      exact Sat.pure ⟨rfl, settled₁, sb₁, inodes₁, fun zero => by cases zero⟩
    · rw [if_neg free, show 16 * j + 16 = 16 * (j + 1) by omega]
      simp only [free, decide_false, cond_false]
      refine (ih (j + 1) settled₁ (by rw [inodes₁, here]) (by rwa [inodes₁]) (by rwa [inodes₁])
        (by rw [inodes₁]; omega)).mono ?_
      rintro off s' ⟨place, settled₂, sb₂, inodes₂, -⟩
      rw [inodes₁] at place
      exact ⟨by rw [place]; omega, settled₂, sb₂.trans sb₁, inodes₂.trans inodes₁,
        fun zero => by cases zero⟩

end Slot

section Storing

variable {src : List Byte} {off : ℕ}

theorem ballocFrom_resting {c : Bcache} (resting : c.Resting) (real : dev ≠ 0) (sb : Superblock)
    (fuel b : ℕ) : Sat (ballocFrom me dev sb fuel b) c anyStop fun _ c' => c'.Resting := by
  induction fuel generalizing b c with
  | zero => exact Sat.throw trivial
  | succ fuel ih =>
    unfold ballocFrom
    refine Sat.ite (fun _ => ?_) fun _ => Sat.throw trivial
    refine Sat.bind (bread_resting resting real) ?_
    rintro bp c₁ ⟨loan, -⟩
    refine Sat.bind (Q := fun _ t => t = c₁) (Sat.gets rfl) ?_
    rintro data _ rfl
    cases ballocBit sb.size b data BPB 0 with
    | some bi =>
      refine Sat.bind (setData_loan loan real _) ?_
      rintro _ c₂ ⟨loan₂, -⟩
      refine Sat.bind (brelease_loan loan₂ real) ?_
      rintro _ c₃ ⟨resting₃, -⟩
      exact Sat.pure resting₃
    | none =>
      refine Sat.bind (brelease_loan loan real) ?_
      rintro _ c₂ ⟨resting₂, -⟩
      exact ih resting₂ (b + BPB)

/-- The inode with `b` for its first block. -/
def Dinode.withFirst (d : Dinode) (b : ℕ) : Dinode := { d with addrs := Function.update d.addrs 0 b }

/-- The first block is there, or `balloc` may allocate it: it reads the bitmap as it is presented,
which marks block 0 and the block `blk`. -/
def Fs.FirstReady (s : Fs) (me dev blk : ℕ) (d : Dinode) : Prop :=
  d.addrs 0 = 0 → BallocKeepsBitmap me dev s.sb (s.sb.size / BPB + 1) 0 s.cache ∧
    s.cache.bit dev s.sb 0 = true ∧ s.cache.bit dev s.sb blk = true

/-- `bmap` of the first block. -/
theorem bmap_first {blk : ℕ} (settled : s.Settled dev V B) (here : (s.inodes dp).dev = dev)
    (real : dev ≠ 0) (ready : s.FirstReady me dev blk (s.inodes dp).din)
    (empty : (s.inodes dp).din.addrs 0 = 0 → B = ∅) (apart : (s.inodes dp).din.addrs 0 ≠ blk) :
    Sat (bmap me dp 0) s anyStop fun b s' => b ≠ 0 ∧ b ≠ blk ∧
      ((s.inodes dp).din.addrs 0 ≠ 0 → b = (s.inodes dp).din.addrs 0) ∧ s'.Settled dev V B ∧
      s'.sb = s.sb ∧ s'.inodes = s.withDin dp ((s.inodes dp).din.withFirst b) := by
  unfold bmap
  refine Sat.bind getInode_sat ?_
  rintro _ _ ⟨rfl, rfl⟩
  rw [if_pos (by decide)]
  refine Sat.ite (fun none => ?_) fun there => ?_
  · obtain ⟨kept, zero, marked⟩ := ready none
    unfold ballocAt
    refine Sat.bind getInode_sat ?_
    rintro _ _ ⟨rfl, rfl⟩
    refine Sat.bind (Sat.gets (Q := fun sb t => s.sb = sb ∧ s = t) ⟨rfl, rfl⟩) ?_
    rintro _ _ ⟨rfl, rfl⟩
    rw [here]
    have allocates := balloc_allocates me real (settled.resting.lendable dev s.sb) kept
    have resting : Sat (balloc me dev s.sb) s.cache anyStop fun _ c' => c'.Resting :=
      ballocFrom_resting settled.resting real s.sb _ 0
    refine Sat.bind (Sat.zoom (Q := fun b t => b ≠ 0 ∧ b ≠ blk ∧ t.cache.Resting ∧ t.sb = s.sb ∧
      t.inodes = s.inodes) (Sat.ofOk fun b c returned => ?_)) ?_
    · have bit := (allocates.ok returned).clear
      refine ⟨?_, ?_, resting.ok returned, rfl, rfl⟩
      · rintro rfl
        rw [zero] at bit
        cases bit
      · rintro rfl
        rw [marked] at bit
        cases bit
    rintro b s₁ ⟨nonzero, other, resting₁, sb₁, inodes₁⟩
    refine Sat.bind (Sat.update (Q := fun _ t => t.cache = s₁.cache ∧ t.sb = s.sb ∧
      t.inodes = s.withDin dp ((s.inodes dp).din.withFirst b)) ⟨rfl, sb₁, ?_⟩) ?_
    · simp only [Fs.setInode, inodes₁]
      rfl
    rintro _ s₂ ⟨cache₂, sb₂, inodes₂⟩
    refine Sat.pure ⟨nonzero, other, fun there => absurd none there, ⟨?_, ?_⟩, sb₂, inodes₂⟩
    · rwa [cache₂]
    · rw [empty none]
      exact fun n member => absurd member (Set.notMem_empty n)
  · have same : (s.inodes dp).din.withFirst ((s.inodes dp).din.addrs 0) = (s.inodes dp).din := by
      unfold Dinode.withFirst
      rw [Function.update_eq_self]
    refine Sat.pure ⟨there, apart, fun _ => rfl, settled, rfl, ?_⟩
    rw [same, s.withDin_self]

/-- The same with more work behind the release. -/
theorem store_lent_then {α : Type} {m : Fio α} {Q : α → Fs → Prop} {n : ℕ} {b : Fin NBUF}
    (lends : s.Lends me dev n b V B) (real : dev ≠ 0) (data : Block)
    (next : ∀ t : Fs, t.Settled dev (Function.update V n data) (insert n B) → t.sb = s.sb →
      t.inodes = s.inodes → Sat m t E Q) :
    Sat (do bio (setData b data); bio (bwrite me b); bio (brelease me b); m) s E Q := by
  have grouped : (do bio (setData b data); bio (bwrite me b); bio (brelease me b); m : Fio α) =
      (do bio (setData b data); bio (bwrite me b); bio (brelease me b) : Fio Unit) >>= fun _ => m := by
    simp only [bind_assoc]
  rw [grouped]
  exact Sat.bind (store_lent lends real data) fun _ t ⟨settled, sb, inodes⟩ => next t settled sb inodes

/-- `iupdate` leaves the blocks that do not hold the inode. -/
theorem iupdate_outside (settled : s.Settled dev V B) (here : (s.inodes dp).dev = dev)
    (real : dev ≠ 0) (outside : IBLOCK (s.inodes dp).inum s.sb ∉ B) :
    Sat (iupdate me dp) s E fun _ s' => s'.Settled dev V B ∧ s'.sb = s.sb ∧ s'.inodes = s.inodes := by
  unfold iupdate
  refine Sat.bind getInode_sat ?_
  rintro _ _ ⟨rfl, rfl⟩
  refine Sat.bind (Sat.gets (Q := fun sb t => s.sb = sb ∧ s = t) ⟨rfl, rfl⟩) ?_
  rintro _ _ ⟨rfl, rfl⟩
  rw [here]
  refine Sat.bind (bio_bread_resting settled.resting real) ?_
  rintro b s₁ ⟨loan, -, disk, back, sb₁, inodes₁⟩
  refine Sat.bind bio_bufData ?_
  rintro data _ ⟨-, rfl⟩
  refine (store_lent ⟨loan, settled.agrees.fallsBack back disk⟩ real _).mono ?_
  rintro _ s₂ ⟨settled₂, sb₂, inodes₂⟩
  refine ⟨⟨settled₂.resting, fun n member => ?_⟩, sb₂.trans sb₁, inodes₂.trans inodes₁⟩
  have other : n ≠ IBLOCK (s.inodes dp).inum s.sb := by
    rintro rfl
    exact outside member
  have known := settled₂.agrees n (Set.mem_insert_of_mem _ member)
  rwa [Function.update_of_ne other] at known

/-- The round of `writei` that stores its whole source in the first block. -/
theorem writeiLoop_block {blk : ℕ} (settled : s.Settled dev V B) (here : (s.inodes dp).dev = dev)
    (real : dev ≠ 0) (ready : s.FirstReady me dev blk (s.inodes dp).din)
    (empty : (s.inodes dp).din.addrs 0 = 0 → B = ∅) (apart : (s.inodes dp).din.addrs 0 ≠ blk)
    (some : src ≠ []) (first : off + src.length ≤ BSIZE) :
    Sat (writeiLoop me dp src src.length 0 off) s anyStop fun r s' =>
      r = (src.length, off + src.length) ∧ ∃ b data, b ≠ 0 ∧ b ≠ blk ∧
      ((s.inodes dp).din.addrs 0 ≠ 0 → b = (s.inodes dp).din.addrs 0) ∧ (b ∈ B → data = V b) ∧
      s'.Settled dev (Function.update V b (patch src off data)) (insert b B) ∧ s'.sb = s.sb ∧
      s'.inodes = s.withDin dp ((s.inodes dp).din.withFirst b) := by
  have positive : 0 < src.length := List.length_pos_iff.mpr some
  obtain ⟨fuel, count⟩ : ∃ fuel, src.length = fuel + 1 := ⟨src.length - 1, by omega⟩
  have zero : off / BSIZE = 0 := Nat.div_eq_of_lt (by omega)
  have inside : off % BSIZE = off := Nat.mod_eq_of_lt (by omega)
  have whole : min (src.length - 0) (BSIZE - off) = src.length := by omega
  rw [count]
  unfold writeiLoop
  rw [if_neg (by omega), zero, inside, whole, ← count]
  refine Sat.bind (bmap_first settled here real ready empty apart) ?_
  rintro b s₁ ⟨nonzero, other, old, settled₁, sb₁, inodes₁⟩
  refine Sat.bind getInode_sat ?_
  rintro _ _ ⟨rfl, rfl⟩
  have dev₁ : (s₁.inodes dp).dev = dev := by
    rw [inodes₁, Fs.withDin, Function.update_self]
    exact here
  rw [dev₁]
  refine Sat.bind (bio_bread_resting settled₁.resting real) ?_
  rintro bp s₂ ⟨loan, shown, disk, back, sb₂, inodes₂⟩
  refine Sat.bind bio_bufData ?_
  rintro _ _ ⟨rfl, rfl⟩
  dsimp only
  rw [shown]
  have stored : (fun o => if off ≤ o ∧ o < off + src.length then src.getD (0 + (o - off)) 0
      else s₁.cache.block dev b o) = patch src off (s₁.cache.block dev b) := by
    funext o
    rw [Nat.zero_add]
    rfl
  rw [stored]
  refine store_lent_then ⟨loan, settled₁.agrees.fallsBack back disk⟩ real _ ?_
  intro t settled₃ sb₃ inodes₃
  rw [Nat.zero_add]
  refine (writeiLoop_done fuel (le_refl _)).mono ?_
  rintro _ _ ⟨rfl, rfl⟩
  exact ⟨rfl, b, _, nonzero, other, old, fun member => (settled₁.agrees b member).1, settled₃,
    sb₃.trans (sb₂.trans sb₁), inodes₃.trans (inodes₂.trans inodes₁)⟩

/-- `writei` into the first block, where it accepts its arguments at all. -/
theorem writei_first {blk : ℕ} (settled : s.Settled dev V B) (here : (s.inodes dp).dev = dev)
    (real : dev ≠ 0) (ready : s.FirstReady me dev blk (s.inodes dp).din)
    (empty : (s.inodes dp).din.addrs 0 = 0 → B = ∅) (apart : (s.inodes dp).din.addrs 0 ≠ blk)
    (block : IBLOCK (s.inodes dp).inum s.sb = blk) (outside : blk ∉ B) (some : src ≠ []) :
    Sat (writei me dp src off) s anyStop fun r s' => r = src.length →
      off + src.length ≤ MAXFILE ∧ ∃ b data, b ≠ 0 ∧
      ((s.inodes dp).din.addrs 0 ≠ 0 → b = (s.inodes dp).din.addrs 0) ∧ (b ∈ B → data = V b) ∧
      s'.Settled dev (Function.update V b (patch src off data)) (insert b B) ∧ s'.sb = s.sb ∧
      s'.inodes = s.withDin dp (((s.inodes dp).din.withFirst b).grown (off + src.length)) := by
  have positive : 0 < src.length := List.length_pos_iff.mpr some
  have limit : MAXFILE ≤ BSIZE := by decide
  unfold writei
  refine Sat.bind getInode_sat ?_
  rintro _ _ ⟨rfl, rfl⟩
  refine Sat.ite (fun _ => Sat.pure fun bad => by omega) fun accepted => ?_
  refine Sat.ite (fun _ => Sat.pure fun bad => by omega) fun small => ?_
  refine Sat.bind (writeiLoop_block settled here real ready empty apart some (by omega)) ?_
  rintro _ s₁ ⟨rfl, b, data, nonzero, other, old, contents, settled₁, sb₁, inodes₁⟩
  dsimp only
  -- the size in memory
  refine Sat.bind (Q := fun _ t => t.cache = s₁.cache ∧ t.sb = s.sb ∧
    t.inodes = s.withDin dp (((s.inodes dp).din.withFirst b).grown (off + src.length)))
    (Sat.onlyIf (fun larger => Sat.update ⟨rfl, sb₁, ?_⟩) fun covered => ⟨rfl, sb₁, ?_⟩) ?_
  · simp only [Fs.setInode, inodes₁, Fs.withDin, Function.update_self, Function.update_idem,
      Dinode.grown, Dinode.withFirst]
    rw [max_eq_right (le_of_lt larger)]
  · have size : ((s.inodes dp).din.withFirst b).size = (s.inodes dp).din.size := rfl
    rw [inodes₁, Dinode.grown, size, max_eq_left (not_lt.mp covered)]
    rfl
  rintro _ s₂ ⟨cache₂, sb₂, inodes₂⟩
  have self : s₂.inodes dp = { s.inodes dp with
      din := ((s.inodes dp).din.withFirst b).grown (off + src.length) } := by
    rw [inodes₂, Fs.withDin, Function.update_self]
  have settled₂ : s₂.Settled dev (Function.update V b (patch src off data)) (insert b B) := by
    refine ⟨?_, ?_⟩
    · rw [cache₂]
      exact settled₁.resting
    · rw [cache₂]
      exact settled₁.agrees
  refine Sat.bind (iupdate_outside settled₂ (by rw [self]; exact here) real ?_) ?_
  · rw [self, sb₂, block]
    rintro (same | member)
    · exact other same.symm
    · exact outside member
  rintro _ s₃ ⟨settled₃, sb₃, inodes₃⟩
  exact Sat.pure fun _ => ⟨by omega, b, data, nonzero, old, contents, settled₃, sb₃.trans sb₂,
    inodes₃.trans inodes₂⟩

end Storing

section Entries

/-- The entries of a directory, as the disk has them. -/
def Fs.entries (s : Fs) (dp : Fin INODES) : List (List Byte) := dirEntries s.cache.disk (s.inodes dp).din

/-- The directory `dp` as `dirlink` needs it: its blocks are there, saved, and none of them twice;
none of them holds its inode; and the first one is there or can be allocated. -/
structure Fs.Linkable (s : Fs) (me : ℕ) (dp : Fin INODES) : Prop where
  real : (s.inodes dp).dev ≠ 0
  dir : Directory s.cache.disk (s.inodes dp).din
  saved : s.Settled (s.inodes dp).dev s.cache.disk (fileBlocks s.cache.disk (s.inodes dp).din)
  single : ∀ n, 0 < n → n * BSIZE < (s.inodes dp).din.size →
    mapped s.cache.disk (s.inodes dp).din n ≠ (s.inodes dp).din.addrs 0
  indirect : NDIRECT * BSIZE < (s.inodes dp).din.size →
    (s.inodes dp).din.addrs NDIRECT ≠ (s.inodes dp).din.addrs 0
  outside : IBLOCK (s.inodes dp).inum s.sb ∉ fileBlocks s.cache.disk (s.inodes dp).din
  apart : (s.inodes dp).din.addrs 0 ≠ IBLOCK (s.inodes dp).inum s.sb
  ready : s.FirstReady me (s.inodes dp).dev (IBLOCK (s.inodes dp).inum s.sb) (s.inodes dp).din

/-- What `dirlink` leaves of a directory `d` with the blocks `V`: the entry `m` is stored in the
first block `b`, which held `data`. -/
structure EntryStored (V : ℕ → Block) (d : Dinode) (entry : List Byte) (m b : ℕ) (data : Block)
    (V' : ℕ → Block) (d' : Dinode) : Prop where
  blocks : V' = Function.update V b (patch entry (16 * m) data)
  inode : d' = (d.withFirst b).grown (16 * m + entry.length)
  some : b ≠ 0
  first : d.addrs 0 ≠ 0 → b = d.addrs 0
  old : b ∈ fileBlocks V d → data = V b
  length : entry.length = 16
  inside : 16 * m + 16 ≤ MAXFILE
  slot : m ≤ d.size / 16

variable {d d' : Dinode} {entry : List Byte} {m b : ℕ} {data : Block} {V' : ℕ → Block}

/-- The first block, if the directory has any entries. -/
theorem Directory.first_block (dir : Directory V d) (some : 0 < d.size) :
    mapped V d 0 = d.addrs 0 ∧ d.addrs 0 ≠ 0 ∧ d.addrs 0 ∈ fileBlocks V d := by
  have direct : mapped V d 0 = d.addrs 0 := if_pos (by decide)
  have present := dir.present 0 (by omega)
  rw [direct] at present
  exact ⟨direct, present, .inr ⟨0, by omega, direct.symm⟩⟩

namespace EntryStored

variable (stored : EntryStored V d entry m b data V' d')

include stored

theorem size_eq : d'.size = max d.size (16 * m + 16) := by
  rw [stored.inode, ← stored.length]
  rfl

theorem mapped_zero : mapped V' d' 0 = b := by
  have first : d'.addrs 0 = b := by
    rw [stored.inode]
    exact Function.update_self 0 b d.addrs
  unfold mapped
  rw [if_pos (by decide), first]

theorem below_of_later {n : ℕ} (later : 0 < n) (below : n * BSIZE < d'.size) : n * BSIZE < d.size := by
  have inside := stored.inside
  have limit : MAXFILE ≤ BSIZE := by decide
  have one : 1 * BSIZE ≤ n * BSIZE := Nat.mul_le_mul_right _ later
  rw [stored.size_eq] at below
  omega

/-- The other blocks are in place. -/
theorem mapped_later (dir : Directory V d) (indirect : NDIRECT * BSIZE < d.size → d.addrs NDIRECT ≠ d.addrs 0)
    {n : ℕ} (later : 0 < n) (below : n * BSIZE < d.size) : mapped V' d' n = mapped V d n := by
  have addrs : ∀ k, 0 < k → d'.addrs k = d.addrs k := fun k positive => by
    rw [stored.inode]
    exact Function.update_of_ne (by omega) _ _
  unfold mapped
  rw [addrs NDIRECT (by decide), addrs n later]
  by_cases direct : n < NDIRECT
  · rw [if_pos direct, if_pos direct]
  · rw [if_neg direct, if_neg direct]
    have least : NDIRECT * BSIZE ≤ n * BSIZE := Nat.mul_le_mul_right _ (by omega)
    have other : d.addrs NDIRECT ≠ b := by
      rw [stored.first (dir.first_block (by omega)).2.1]
      exact indirect (by omega)
    rw [stored.blocks, Function.update_of_ne other]

theorem directory (dir : Directory V d)
    (indirect : NDIRECT * BSIZE < d.size → d.addrs NDIRECT ≠ d.addrs 0) : Directory V' d' := by
  have size := stored.size_eq
  have inside := stored.inside
  have limit : MAXFILE ≤ MAXFILE * BSIZE := by decide
  refine ⟨⟨?_, fun n below => ?_⟩, ?_⟩
  · have bounded := dir.bounded
    omega
  · rcases Nat.eq_zero_or_pos n with rfl | later
    · rw [stored.mapped_zero]
      exact stored.some
    · have before := stored.below_of_later later below
      rw [stored.mapped_later dir indirect later before]
      exact dir.present n before
  · have whole := dir.whole
    omega

theorem fileBlocks_sub (dir : Directory V d)
    (indirect : NDIRECT * BSIZE < d.size → d.addrs NDIRECT ≠ d.addrs 0) :
    fileBlocks V' d' ⊆ insert b (fileBlocks V d) := by
  rintro x (⟨far, rfl⟩ | ⟨n, below, rfl⟩)
  · have before := stored.below_of_later (by decide) far
    have same : d'.addrs NDIRECT = d.addrs NDIRECT := by
      rw [stored.inode]
      exact Function.update_of_ne (show NDIRECT ≠ 0 by decide) b d.addrs
    rw [same]
    exact .inr (.inl ⟨before, rfl⟩)
  · rcases Nat.eq_zero_or_pos n with rfl | later
    · exact .inl stored.mapped_zero
    · have before := stored.below_of_later later below
      rw [stored.mapped_later dir indirect later before]
      exact .inr (.inr ⟨n, before, rfl⟩)

/-- The entry that was stored. -/
theorem dirEntry_self : dirEntry V' d' m = entry := by
  have inside := stored.inside
  have limit : MAXFILE ≤ BSIZE := by decide
  have length := stored.length
  unfold dirEntry
  rw [Nat.div_eq_of_lt (by omega : 16 * m < BSIZE), Nat.mod_eq_of_lt (by omega : 16 * m < BSIZE),
    stored.mapped_zero, stored.blocks, Function.update_self]
  refine List.ext_getElem (by simp [length]) fun k small here => ?_
  have below : k < 16 := by simpa using small
  rw [List.getElem_map, List.getElem_range, patch, if_pos (by omega), Nat.add_sub_cancel_left,
    List.getD_eq_getElem _ _ here]

/-- The entries beside it. -/
theorem dirEntry_other (dir : Directory V d)
    (single : ∀ n, 0 < n → n * BSIZE < d.size → mapped V d n ≠ d.addrs 0)
    (indirect : NDIRECT * BSIZE < d.size → d.addrs NDIRECT ≠ d.addrs 0) {j : ℕ} (other : j ≠ m)
    (below : j < d.size / 16) : dirEntry V' d' j = dirEntry V d j := by
  obtain ⟨direct, present, member⟩ := dir.first_block (by omega)
  have first := stored.first present
  unfold dirEntry
  refine List.map_congr_left fun k small => ?_
  have bound := List.mem_range.mp small
  rcases Nat.eq_zero_or_pos (16 * j / BSIZE) with zero | later
  · rw [zero, stored.mapped_zero, stored.blocks, Function.update_self, direct,
      stored.old (first ▸ member), first]
    have low : 16 * j < BSIZE := Nat.lt_of_div_eq_zero (by decide) zero
    have length := stored.length
    rw [Nat.mod_eq_of_lt low, patch, if_neg (by omega)]
  · have floor := Nat.div_mul_le_self (16 * j) BSIZE
    have before : 16 * j / BSIZE * BSIZE < d.size := by omega
    rw [stored.mapped_later dir indirect later before, stored.blocks, Function.update_of_ne]
    rw [first]
    exact single _ later before

/-- The new entry takes the place of entry `m`, or stands behind the old ones. -/
theorem dirEntries_eq (dir : Directory V d)
    (single : ∀ n, 0 < n → n * BSIZE < d.size → mapped V d n ≠ d.addrs 0)
    (indirect : NDIRECT * BSIZE < d.size → d.addrs NDIRECT ≠ d.addrs 0) :
    dirEntries V' d' = (dirEntries V d).take m ++ entry :: (dirEntries V d).drop (m + 1) := by
  have size := stored.size_eq
  have slot := stored.slot
  have count : d'.size / 16 = max (d.size / 16) (m + 1) := by omega
  have other : ∀ {j}, j ≠ m → j < d.size / 16 → dirEntry V' d' j = dirEntry V d j :=
    stored.dirEntry_other dir single indirect
  unfold dirEntries
  rw [count]
  refine List.ext_getElem (by simp; omega) fun j small here => ?_
  have bound : j < max (d.size / 16) (m + 1) := by simpa using small
  rw [List.getElem_map, List.getElem_range]
  rcases Nat.lt_trichotomy j m with before | rfl | after
  · rw [List.getElem_append_left (by simp; omega), List.getElem_take, List.getElem_map,
      List.getElem_range, other (by omega) (by omega)]
  · rw [List.getElem_append_right (by simp), stored.dirEntry_self]
    simp [Nat.min_eq_left slot]
  · obtain ⟨k, rfl⟩ : ∃ k, j = m + 1 + k := ⟨j - (m + 1), by omega⟩
    rw [List.getElem_append_right (by simp; omega), other (by omega) (by omega)]
    simp [Nat.min_eq_left slot, show m + 1 + k - m = k + 1 by omega]

end EntryStored

variable {path name : List Byte} {inum : ℕ}

/-- A call of `dirlink` that returns has stored its entry. -/
theorem dirlink_stores (linkable : s.Linkable me dp)
    (returned : dirlink me dp path inum s = .ok ((), s')) :
    ∃ b data V', EntryStored s.cache.disk (s.inodes dp).din (dirent path (inum % SHORT))
        ((s.entries dp).findIdx fun de => decide (direntInum de = 0)) b data V' (s'.inodes dp).din ∧
      s'.Settled (s.inodes dp).dev V' (insert b (fileBlocks s.cache.disk (s.inodes dp).din)) ∧
      s'.inodes = s.withDin dp (s'.inodes dp).din := by
  obtain ⟨real, dir, saved, -, -, outside, apart, ready⟩ := linkable
  have whole := dir.whole
  have length : ∀ number, (dirent path number).length = 16 := fun number => by
    simp [dirent, DIRSIZ]
  have spec : Sat (dirlink me dp path inum) s anyStop fun _ s' =>
      ∃ b data V', EntryStored s.cache.disk (s.inodes dp).din (dirent path (inum % SHORT))
        ((s.entries dp).findIdx fun de => decide (direntInum de = 0)) b data V' (s'.inodes dp).din ∧
      s'.Settled (s.inodes dp).dev V' (insert b (fileBlocks s.cache.disk (s.inodes dp).din)) ∧
      s'.inodes = s.withDin dp (s'.inodes dp).din := by
    unfold dirlink
    refine Sat.bind getInode_sat ?_
    rintro _ _ ⟨rfl, rfl⟩
    rw [show ((s.inodes dp).din.size + 15) / 16 = (s.inodes dp).din.size / 16 by omega]
    refine Sat.bind (dirlinkSlot_settled _ 0 saved rfl real dir (fun _ member => member)
      (Nat.zero_add _)) ?_
    rintro off s₁ ⟨place, settled₁, sb₁, inodes₁, same⟩
    rw [Nat.zero_add, ← List.range_eq_range'] at place
    change off = 16 * (s.entries dp).findIdx _ at place
    generalize slot : (s.entries dp).findIdx (fun de => decide (direntInum de = 0)) = m at place ⊢
    have bound : m ≤ (s.inodes dp).din.size / 16 := by
      have le : (s.entries dp).findIdx (fun de => decide (direntInum de = 0)) ≤ _ :=
        List.findIdx_le_length
      rw [slot] at le
      simpa [Fs.entries, dirEntries] using le
    have ready₁ : s₁.FirstReady me (s.inodes dp).dev (IBLOCK (s.inodes dp).inum s.sb)
        (s₁.inodes dp).din := by
      intro none
      rw [inodes₁] at none
      have empty : (s.inodes dp).din.size = 0 := by
        by_contra some
        exact (dir.first_block (Nat.pos_of_ne_zero some)).2.1 none
      rw [same (by rw [empty])]
      exact ready none
    have vacant : (s₁.inodes dp).din.addrs 0 = 0 → fileBlocks s.cache.disk (s.inodes dp).din = ∅ := by
      intro none
      rw [inodes₁] at none
      have empty : (s.inodes dp).din.size = 0 := by
        by_contra some
        exact (dir.first_block (Nat.pos_of_ne_zero some)).2.1 none
      refine Set.eq_empty_iff_forall_notMem.mpr ?_
      rintro x (⟨far, -⟩ | ⟨n, below, -⟩) <;> omega
    refine Sat.bind (writei_first settled₁ (by rw [inodes₁]) real ready₁ vacant (by rw [inodes₁]; exact apart)
      (by rw [inodes₁, sb₁]) outside (List.ne_nil_of_length_pos (by rw [length]; omega))) ?_
    rintro r s₂ written
    by_cases full : r = 16
    · obtain ⟨inside, b, data, some, first, old, settled₂, sb₂, inodes₂⟩ :=
        written (by rw [full, length]; rfl)
      refine Sat.stopIf (fun bad => absurd full bad) fun _ => ?_
      have din : (s₂.inodes dp).din =
          ((s.inodes dp).din.withFirst b).grown (16 * m + (dirent path (inum % SHORT)).length) := by
        rw [inodes₂, Fs.withDin, Function.update_self, inodes₁, place]
      rw [length] at inside
      rw [inodes₁] at first
      refine ⟨b, data, _, ⟨?_, din, some, first, old, length _, by omega, bound⟩, settled₂, ?_⟩
      · rw [place]
      · rw [inodes₂, Fs.withDin, Fs.withDin, Function.update_self, inodes₁]
    · exact Sat.stopIf (fun _ => trivial) fun good => absurd (not_not.mp good) full
  exact spec.ok returned

/-- The entries depend on the blocks of the directory. -/
theorem dirEntries_agree {W : ℕ → Block} (dir : Directory V d)
    (same : ∀ n ∈ fileBlocks V d, W n = V n) : dirEntries W d = dirEntries V d := by
  have blocks : ∀ n, n * BSIZE < d.size → mapped W d n = mapped V d n := by
    intro n below
    unfold mapped
    by_cases direct : n < NDIRECT
    · rw [if_pos direct, if_pos direct]
    · have least : NDIRECT * BSIZE ≤ n * BSIZE := Nat.mul_le_mul_right _ (by omega)
      rw [if_neg direct, if_neg direct, same _ (.inl ⟨by omega, rfl⟩)]
  have whole := dir.whole
  unfold dirEntries dirEntry
  refine List.map_congr_left fun j inside => List.map_congr_left fun k _ => ?_
  have small := List.mem_range.mp inside
  have floor := Nat.div_mul_le_self (16 * j) BSIZE
  have below : 16 * j / BSIZE * BSIZE < d.size := by omega
  rw [blocks _ below, same _ (.inr ⟨_, below, rfl⟩)]

/-- The name `path` is stored in entry `m` of the directory `dp`, in the place of a free entry or
behind the last one. The scan for a name that agrees with it on the first `DIRSIZ` characters ends
there, if not before, and the scan for any other name passes it over. -/
structure NameStored (s s' : Fs) (dp : Fin INODES) (path : List Byte) (inum m : ℕ) : Prop where
  entries : s'.entries dp =
    (s.entries dp).take m ++ dirent path (inum % SHORT) :: (s.entries dp).drop (m + 1)
  free : ∀ de, (s.entries dp)[m]? = some de → direntInum de = 0
  found : ∀ name, Agree (cstr name) (cstr path) DIRSIZ → ∀ me r t,
    inodeByName me dp name s' = .ok (r, t) → t.PointsTo (s.inodes dp).dev
      (some (((firstNamed name ((s.entries dp).take m)).map direntInum).getD (inum % SHORT))) r
  passed : ∀ name, ¬ Agree (cstr name) (cstr path) DIRSIZ → ∀ me r t,
    inodeByName me dp name s' = .ok (r, t) → t.PointsTo (s.inodes dp).dev
      ((firstNamed name ((s.entries dp).take m ++ (s.entries dp).drop (m + 1))).map direntInum) r
  returns : (∃ j, (s.inodes j).ref = 0) → ∀ name me, ∃ r t, inodeByName me dp name s' = .ok (r, t)

/-- The first entry with a name among those around a given entry. -/
theorem firstNamed_around (before after : List (List Byte)) (inum : ℕ) :
    firstNamed name (before ++ dirent path inum :: after) =
      if Agree (cstr name) (cstr path) DIRSIZ then
        some ((firstNamed name before).getD (dirent path inum))
      else firstNamed name (before ++ after) := by
  unfold firstNamed
  rw [List.find?_append, List.find?_cons, List.find?_append]
  by_cases agree : Agree (cstr name) (cstr path) DIRSIZ
  · have same : SameName name (dirent path inum) := (sameName_dirent _ _ _).mpr agree
    rw [if_pos agree]
    simp only [same, decide_true]
    cases before.find? fun de => decide (SameName name de) <;> rfl
  · have differs : ¬ SameName name (dirent path inum) := fun same =>
      agree ((sameName_dirent _ _ _).mp same)
    rw [if_neg agree]
    simp only [differs, decide_false]

theorem dirlink_nameStored (linkable : s.Linkable me dp)
    (returned : dirlink me dp path inum s = .ok ((), s')) : ∃ m, NameStored s s' dp path inum m := by
  obtain ⟨b, data, V', stored, settled, inodes⟩ := dirlink_stores linkable returned
  obtain ⟨real, dir, -, single, indirect, -, -, -⟩ := linkable
  generalize slot : (s.entries dp).findIdx (fun de => decide (direntInum de = 0)) = m at stored
  have dir' := stored.directory dir indirect
  have known := stored.fileBlocks_sub dir indirect
  have dev : (s'.inodes dp).dev = (s.inodes dp).dev := by
    rw [inodes, Fs.withDin, Function.update_self]
  have refs : ∀ j, (s'.inodes j).ref = (s.inodes j).ref := by
    intro j
    rw [inodes]
    unfold Fs.withDin
    by_cases self : j = dp
    · subst self
      rw [Function.update_self]
    · rw [Function.update_of_ne self]
  have entries : s'.entries dp =
      (s.entries dp).take m ++ dirent path (inum % SHORT) :: (s.entries dp).drop (m + 1) := by
    have agree := dirEntries_agree (W := s'.cache.disk) dir' fun n member =>
      (settled.agrees n (known member)).2
    exact agree.trans (stored.dirEntries_eq dir single indirect)
  have shown : dirEntries V' (s'.inodes dp).din =
      (s.entries dp).take m ++ dirent path (inum % SHORT) :: (s.entries dp).drop (m + 1) :=
    stored.dirEntries_eq dir single indirect
  have points : ∀ name me r t, inodeByName me dp name s' = .ok (r, t) →
      t.PointsTo (s.inodes dp).dev
        ((firstNamed name (dirEntries V' (s'.inodes dp).din)).map direntInum) r := by
    intro name me r t found
    have spec : Sat (inodeByName me dp name) s' anyStop _ :=
      inodeByName_settled me name settled dev real dir' known (.inr fun _ => trivial)
    exact (spec.ok found).pointsTo
  refine ⟨m, entries, fun de there => ?_, ?_, ?_, fun room name me => ?_⟩
  · obtain ⟨small, rfl⟩ := List.getElem?_eq_some_iff.mp there
    have clear := List.findIdx_getElem (w := slot ▸ small)
    subst slot
    exact of_decide_eq_true clear
  · intro name agree me r t found
    have target := points name me r t found
    rw [shown, firstNamed_around, if_pos agree, Option.map_some] at target
    have number : direntInum (dirent path (inum % SHORT)) = inum % SHORT :=
      Mkfs.direntInum_dirent path (Nat.mod_lt _ (by decide))
    cases first : firstNamed name ((s.entries dp).take m) with
    | none => simpa [first, number] using target
    | some de => simpa [first] using target
  · intro name differs me r t found
    have target := points name me r t found
    rwa [shown, firstNamed_around, if_neg differs] at target
  · obtain ⟨j, free⟩ := room
    have spec : Sat (inodeByName me dp name) s' (fun _ => False) _ :=
      inodeByName_settled me name settled dev real dir' known (.inl ⟨j, by rw [refs, free]⟩)
    obtain ⟨r, t, got, -⟩ := spec.returns
    exact ⟨r, t, got⟩

end Entries

/-- `strncpy` stores the first `DIRSIZ` characters of a name, padded with zeros, whatever the field
held. `strncmp` reads no byte behind the field, and finds no difference exactly when its string
agrees with the name. `dirlink` stores the one and `inodeByName` tests the other, so the scan of the
directory finds the name under those that agree with it, and under no other. -/
theorem stored_name_found :
    (∀ a b field : ℕ → Byte,
      (∀ k, strncpy field b DIRSIZ k = if k < DIRSIZ then padded b k else field k) ∧
      ((strncmp a (strncpy field b DIRSIZ) DIRSIZ).1 = 0 ↔ Agree a b DIRSIZ) ∧
      ∀ field', ∀ k ∈ (strncmp a field' DIRSIZ).2, k < DIRSIZ) ∧
    (∀ (field : ℕ → Byte) (path : List Byte) (inum : ℕ), ∀ k < DIRSIZ,
      direntName (dirent path inum) k = strncpy field (cstr path) DIRSIZ k) ∧
    (∀ name de : List Byte, strncmpZero (cstr name) (direntName de) DIRSIZ 0 = true ↔
      (strncmp (cstr name) (direntName de) DIRSIZ).1 = 0) ∧
    ∀ (s s' : Fs) (me : ℕ) (dp : Fin INODES) (path : List Byte) (inum : ℕ), s.Linkable me dp →
      dirlink me dp path inum s = .ok ((), s') → ∃ m, NameStored s s' dp path inum m := by
  refine ⟨fun a b field => ⟨strncpy_at field b DIRSIZ, ?_, fun field' => strncmp_reads a field' DIRSIZ⟩,
    fun field path inum k small => direntName_strncpy field path inum small,
    fun name de => strncmpZero_strncmp _ _ _,
    fun s s' me dp path inum linkable returned => dirlink_nameStored linkable returned⟩
  rw [strncmp_zero, agree_strncpy]

/-- `y` is linked into the directory of `.` and `x`. -/
theorem stored_name_found_y : ∃ s' m, dirlink 1 0 [0x79] 9 (smallDir dotAndX) = .ok ((), s') ∧
    NameStored (smallDir dotAndX) s' 0 [0x79] 9 m := by
  have returns : (dirlink 1 0 [0x79] 9 (smallDir dotAndX)).isOk = true := by decide +kernel
  have blocks : ∀ n, 0 < n → ¬ n * BSIZE < twoEntries.size := by
    intro n later below
    simp only [twoEntries, BSIZE] at below
    omega
  have linkable : (smallDir dotAndX).Linkable 1 0 := by
    refine ⟨by decide, twoEntries_directory _, smallDir_settled _ _, fun n later below =>
      absurd below (blocks n later), fun far => absurd far (by decide), ?_, by decide, ?_⟩
    · rintro (⟨far, -⟩ | ⟨n, below, same⟩)
      · exact absurd far (by decide)
      · rcases Nat.eq_zero_or_pos n with rfl | later
        · exact absurd same (by decide)
        · exact blocks n later below
    · exact fun none => absurd none (by decide)
  cases result : dirlink 1 0 [0x79] 9 (smallDir dotAndX) with
  | error e =>
    rw [result] at returns
    cases returns
  | ok pair =>
    obtain ⟨m, stored⟩ := stored_name_found.2.2.2 _ pair.2 1 0 [0x79] 9 linkable result
    exact ⟨pair.2, m, rfl, stored⟩

end HaloOS
