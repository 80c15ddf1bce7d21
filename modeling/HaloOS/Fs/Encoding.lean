import HaloOS.Fs.Resting
import HaloOS.Mkfs.Append

/-! Inodes on the disk. `iupdate` and `ilock` of the kernel and `winode` of the image builder agree on
the block and the slot of an inode and on the order of its fields. -/

namespace HaloOS

open Lib

variable {s : Fs} {me dev inum k : ℕ} {i j : Fin INODES} {d : Dinode} {data : Block}

/-- A slot reads the same when its 64 bytes are. -/
theorem Dinode.read_congr {data' : Block} {slot : ℕ} (same : ∀ o < 64, data' (64 * slot + o) = data (64 * slot + o)) :
    (Dinode.read data' slot).Same (Dinode.read data slot) where
  type := u16_congr fun o small => same o (by omega)
  major := u16_congr fun o small => by
    rw [Nat.add_assoc]
    exact same (2 + o) (by omega)
  minor := u16_congr fun o small => by
    rw [Nat.add_assoc]
    exact same (4 + o) (by omega)
  nlink := u16_congr fun o small => by
    rw [Nat.add_assoc]
    exact same (6 + o) (by omega)
  size := u32_congr fun o small => by
    rw [Nat.add_assoc]
    exact same (8 + o) (by omega)
  addrs := fun k le => u32_congr fun o small => by
    simp only [NDIRECT] at le
    rw [Nat.add_assoc, Nat.add_assoc]
    exact same (12 + (4 * k + o)) (by omega)

theorem Dinode.read_write (fits : d.Fits) (slot : ℕ) (data : Block) :
    (Dinode.read (d.write slot data) slot).Same d :=
  Dinode.read_bytes fits fun _ small => Dinode.write_at d slot data small

/-- Storing inode `inum` keeps what every other number reads, in the same block or another. -/
theorem Dinode.read_update {V : ℕ → Block} {sb : Superblock} (other : k ≠ inum) :
    (Dinode.read (Function.update V (IBLOCK inum sb) (d.write (inum % IPB) (V (IBLOCK inum sb)))
      (IBLOCK k sb)) (k % IPB)).Same (Dinode.read (V (IBLOCK k sb)) (k % IPB)) := by
  by_cases block : IBLOCK k sb = IBLOCK inum sb
  · rw [block, Function.update_self]
    refine Dinode.read_congr fun o small => Dinode.write_of_ne ?_ small
    -- equal blocks and equal slots would make the numbers equal
    simp only [IBLOCK, IPB] at *
    omega
  · rw [Function.update_of_ne block]
    exact Dinode.Same.refl _

/-- The blocks of the inode area. -/
def Superblock.inodeBlocks (sb : Superblock) : Set ℕ := {n | ∃ k < sb.ninodes, n = IBLOCK k sb}

/-- Inode `k` as the buffer cache presents it, and as it is on the disk. -/
def Fs.dinode (s : Fs) (dev k : ℕ) : Dinode := Dinode.read (s.cache.block dev (IBLOCK k s.sb)) (k % IPB)
def Fs.dinodeOnDisk (s : Fs) (k : ℕ) : Dinode := Dinode.read (s.cache.disk (IBLOCK k s.sb)) (k % IPB)

/-- Entry `j` is a reference to inode `inum` that is neither locked nor loaded. -/
structure Fs.Unloaded (s : Fs) (j : Fin INODES) (dev inum : ℕ) : Prop where
  dev : (s.inodes j).dev = dev
  inum : (s.inodes j).inum = inum
  ref : 0 < (s.inodes j).ref
  free : (s.inodes j).splock.locked = false
  unread : (s.inodes j).vaild = false

/-- Every inode block is presented as it is on the disk: `iupdate` and `ialloc`, which alone change
one, write it at once. -/
def Fs.InodesSaved (dev : ℕ) (s : Fs) : Prop := s.Settled dev s.cache.disk s.sb.inodeBlocks

/-- `ilock` of an entry that is not loaded reads what is presented. -/
theorem ilock_unloaded (me : ℕ) (saved : s.InodesSaved dev) (real : dev ≠ 0) (small : inum < s.sb.ninodes)
    (unloaded : s.Unloaded j dev inum) :
    ∃ s', ilock me (some j) s = .ok ((), s') ∧ (s'.inodes j).din = s.dinodeOnDisk inum := by
  have spec : Sat (ilock me (some j)) s (fun _ => False) _ := ilock_settled saved unloaded.dev real
    ⟨_, by rw [unloaded.inum]; exact small, rfl⟩ unloaded.ref unloaded.free unloaded.unread
  obtain ⟨_, s', returned, -, -, inodes⟩ := spec.returns
  refine ⟨s', returned, ?_⟩
  rw [inodes, Function.update_self, unloaded.inum]
  rfl

/-- `iupdate` stores the inode and keeps every other. -/
theorem iupdate_stores (me : ℕ) (saved : s.InodesSaved dev) (real : dev ≠ 0) (here : (s.inodes i).dev = dev)
    (small : (s.inodes i).inum < s.sb.ninodes) (fits : (s.inodes i).din.Fits) :
    ∃ s', iupdate me i s = .ok ((), s') ∧ s'.sb = s.sb ∧ s'.InodesSaved dev ∧
      (s'.dinodeOnDisk (s.inodes i).inum).Same (s.inodes i).din ∧
      ∀ k < s.sb.ninodes, k ≠ (s.inodes i).inum → (s'.dinodeOnDisk k).Same (s.dinodeOnDisk k) := by
  have spec : Sat (iupdate me i) s (fun _ => False) _ := iupdate_settled saved here real ⟨_, small, rfl⟩
  obtain ⟨_, s', returned, settled, super, -⟩ := spec.returns
  have stored : ∀ n ∈ s.sb.inodeBlocks, s'.cache.disk n = Function.update s.cache.disk
      (IBLOCK (s.inodes i).inum s.sb) ((s.inodes i).din.write ((s.inodes i).inum % IPB)
        (s.cache.disk (IBLOCK (s.inodes i).inum s.sb))) n :=
    fun n member => (settled.agrees n member).2
  refine ⟨s', returned, super, ⟨settled.resting, fun n member => ?_⟩, ?_, fun k below other => ?_⟩
  · rw [super] at member
    exact ⟨(settled.agrees n member).1.trans (stored n member).symm, rfl⟩
  · unfold Fs.dinodeOnDisk
    rw [super, stored _ ⟨_, small, rfl⟩, Function.update_self]
    exact Dinode.read_write fits _ _
  · unfold Fs.dinodeOnDisk
    rw [super, stored _ ⟨_, below, rfl⟩]
    exact Dinode.read_update other

theorem Fs.InodesSaved.dinode (saved : s.InodesSaved dev) (small : k < s.sb.ninodes) :
    s.dinode dev k = s.dinodeOnDisk k := by
  unfold Fs.dinode Fs.dinodeOnDisk
  rw [(saved.agrees _ ⟨k, small, rfl⟩).1]

namespace Mkfs

variable {h h' : State}

/-- Inode `k` in the image. -/
def State.dinode (h : State) (k : ℕ) : Dinode := Dinode.read (h.image.data (IBLOCK k sb)) (k % IPB)

theorem sector_inode (small : k < NINODES) : sector (IBLOCK k sb) = IBLOCK k sb := by
  refine sector_eq ?_
  have start : sb.inodestart = 32 := rfl
  simp only [IBLOCK, IPB, NINODES] at *
  omega

/-- `winode` stores the inode and keeps every other. -/
theorem winode_stores (small : inum < NINODES) (fits : d.Fits) (returned : winode inum d h = .ok ((), h')) :
    (h'.dinode inum).Same d ∧ ∀ k < NINODES, k ≠ inum → (h'.dinode k).Same (h.dinode k) := by
  unfold winode rsect wsect at returned
  rw [sector_inode small] at returned
  obtain ⟨buf, _, first, written⟩ := bind_ok.mp returned
  obtain ⟨_, _, got, rest⟩ := bind_ok.mp first
  obtain ⟨rfl, rfl⟩ := gets_ok.mp got
  obtain ⟨_, _, checked, taken⟩ := bind_ok.mp rest
  obtain ⟨-, rfl⟩ := stopIf_ok.mp checked
  obtain ⟨rfl, rfl⟩ := pure_ok.mp taken
  obtain rfl := update_ok.mp written
  refine ⟨?_, fun k _ other => Dinode.read_update other⟩
  unfold State.dinode
  dsimp only
  rw [Function.update_self]
  exact Dinode.read_write fits _ _

end Mkfs

/-- Inodes go through the disk. What `iupdate` stores of an entry is what `ilock` loads into an entry
for the same number that is not loaded, whatever the inode cache holds by then, and the inodes of all
other numbers are kept; what `winode` stores in an image is what the kernel loads from that image. -/
theorem inode_round_trip :
    (∀ (s : Fs) (me : ℕ) (i : Fin INODES), (s.inodes i).dev ≠ 0 → (s.inodes i).inum < s.sb.ninodes →
      (s.inodes i).din.Fits → s.InodesSaved (s.inodes i).dev →
      ∃ s', iupdate me i s = .ok ((), s') ∧
        (∀ (inodes : Fin INODES → Inode) (me' : ℕ) (j : Fin INODES),
          ({ s' with inodes } : Fs).Unloaded j (s.inodes i).dev (s.inodes i).inum →
          ∃ t, ilock me' (some j) { s' with inodes } = .ok ((), t) ∧ (t.inodes j).din.Same (s.inodes i).din) ∧
        ∀ k < s.sb.ninodes, k ≠ (s.inodes i).inum →
          (s'.dinode (s.inodes i).dev k).Same (s.dinode (s.inodes i).dev k) ∧
          (s'.dinodeOnDisk k).Same (s.dinodeOnDisk k)) ∧
    ∀ (h h' : Mkfs.State) (inum : ℕ) (d : Dinode), inum < Mkfs.NINODES → d.Fits →
      Mkfs.winode inum d h = .ok ((), h') →
      (∀ (s : Fs) (dev me : ℕ) (j : Fin INODES), dev ≠ 0 → s.sb = Mkfs.sb → s.cache.disk = h'.image.data →
        s.InodesSaved dev → s.Unloaded j dev inum →
        ∃ t, ilock me (some j) s = .ok ((), t) ∧ (t.inodes j).din.Same d) ∧
      ∀ k < Mkfs.NINODES, k ≠ inum → (h'.dinode k).Same (h.dinode k) := by
  refine ⟨fun s me i real small fits saved => ?_, fun h h' inum d small fits returned => ?_⟩
  · obtain ⟨s', returned, super, saved', own, others⟩ := iupdate_stores me saved real rfl small fits
    have below : (s.inodes i).inum < s'.sb.ninodes := super ▸ small
    refine ⟨s', returned, fun inodes me' j unloaded => ?_, fun k less other => ?_⟩
    · have kept : ({ s' with inodes } : Fs).InodesSaved (s.inodes i).dev := ⟨saved'.resting, saved'.agrees⟩
      obtain ⟨t, locked, din⟩ := ilock_unloaded me' kept real below unloaded
      exact ⟨t, locked, din ▸ own⟩
    · rw [saved.dinode less, saved'.dinode (super ▸ less)]
      exact ⟨others k less other, others k less other⟩
  · obtain ⟨own, others⟩ := Mkfs.winode_stores small fits returned
    refine ⟨fun s dev me j real super disk saved unloaded => ?_, others⟩
    obtain ⟨t, locked, din⟩ := ilock_unloaded me saved real (super ▸ small) unloaded
    refine ⟨t, locked, ?_⟩
    rw [din, Fs.dinodeOnDisk, disk, super]
    exact own

/-- A device in slot 2 of an empty table. -/
def consoleEntry : Inode where
  dev := ROOTDEV
  inum := 2
  ref := 1
  din := { type := T_DEVICE, major := 1, minor := 7, nlink := 1 }

def oneEntry (disk : ℕ → Block) : Fs := ⟨initBcache disk, Mkfs.sb, fun _ => consoleEntry⟩

theorem oneEntry_saved (disk : ℕ → Block) : (oneEntry disk).InodesSaved ROOTDEV :=
  ⟨resting_initBcache disk, fun n _ => ⟨block_initBcache disk (by decide) n, rfl⟩⟩

theorem consoleEntry_fits : consoleEntry.din.Fits :=
  ⟨by decide, by decide, by decide, by decide, by decide, fun _ _ => (by decide : 0 < UINT)⟩

theorem inode_round_trip_console :
    (∃ s' t, iupdate 1 0 (oneEntry fun _ _ => 0) = .ok ((), s') ∧ ilock 1 (some 0) s' = .ok ((), t) ∧
      (t.inodes 0).din.Same consoleEntry.din) ∧
    ∃ h', Mkfs.winode 2 consoleEntry.din { Mkfs.start with image := ⟨Mkfs.FSSIZE, fun _ _ => 0⟩ } = .ok ((), h') ∧
      ∃ t, ilock 1 (some 0) (oneEntry h'.image.data) = .ok ((), t) ∧ (t.inodes 0).din.Same consoleEntry.din := by
  obtain ⟨kernel, image⟩ := inode_round_trip
  constructor
  · obtain ⟨s', returned, loads, -⟩ := kernel (oneEntry fun _ _ => 0) 1 0 (by decide) (by decide)
      consoleEntry_fits (oneEntry_saved _)
    have same : s'.inodes = (oneEntry fun _ _ => 0).inodes := by
      have spec : Sat (iupdate 1 0) (oneEntry fun _ _ => 0) (fun _ => False) _ :=
        iupdate_settled (oneEntry_saved _) rfl (by decide) ⟨2, by decide, rfl⟩
      exact (spec.ok returned).2.2
    obtain ⟨t, locked, loaded⟩ := loads s'.inodes 1 0 (by
      rw [same]
      exact ⟨rfl, rfl, Int.one_pos, rfl, rfl⟩)
    exact ⟨s', t, returned, locked, loaded⟩
  · refine ⟨_, rfl, ?_⟩
    obtain ⟨loads, -⟩ := image { Mkfs.start with image := ⟨Mkfs.FSSIZE, fun _ _ => 0⟩ } _ 2 consoleEntry.din
      (by decide) consoleEntry_fits rfl
    exact loads (oneEntry _) ROOTDEV 1 0 (by decide) rfl rfl (oneEntry_saved _) ⟨rfl, rfl, by decide, rfl, rfl⟩

end HaloOS
