import HaloOS.Fs.InodeCache

/-! What `iput` does for an inode that no directory names any more. The branch that truncates
and frees the inode asks for the flag `vaild`, which no function sets: `ilock` clears it after
the load. -/

namespace HaloOS

open Lib

variable {s s' : Fs} {i : Fin INODES} {me : ℕ} {past : List InodeEvent}

/-- Whether entry `i` was locked, and so loaded, since it entered the cache. -/
def lockedSince (past : List InodeEvent) (i : Fin INODES) : Bool :=
  past.foldl (fun was e => match e with
    | .iget _ _ j entered => if j = i ∧ entered = true then false else was
    | .ilock _ j => was || j == i
    | _ => was) false

/-- Block `b` belongs to the inode, as a data block or as its indirect block. -/
def Fs.References (s : Fs) (i : Fin INODES) (b : ℕ) : Prop :=
  b ≠ 0 ∧ ((∃ k ≤ NDIRECT, (s.inodes i).din.addrs k = b) ∨
    (s.inodes i).din.addrs NDIRECT ≠ 0 ∧ ∃ k < NINDIRECT,
      u32 (s.cache.block (s.inodes i).dev ((s.inodes i).din.addrs NDIRECT)) (4 * k) = b)

/-- In this cache the dinode is free on the disk and the blocks are marked free. -/
structure Fs.FreedIn (s : Fs) (i : Fin INODES) (c : Bcache) : Prop where
  type : (Dinode.read (c.disk (IBLOCK (s.inodes i).inum s.sb)) ((s.inodes i).inum % IPB)).type = 0
  size : (Dinode.read (c.disk (IBLOCK (s.inodes i).inum s.sb)) ((s.inodes i).inum % IPB)).size = 0
  blocks : ∀ b, s.References i b →
    bitSet (c.block (s.inodes i).dev (BBLOCK b s.sb)) (b % BPB) = false

/-- `iput` drops the last reference to a loaded inode without links. -/
def Fs.PutsLast (s : Fs) (past : List InodeEvent) (i : Fin INODES) : Prop :=
  (s.inodes i).ref = 1 ∧ lockedSince past i = true ∧ (s.inodes i).din.nlink = 0

/-- `iput` is right: it frees such an inode, and leaves the disk alone if the inode has links or
other references. -/
structure PutsRight (past : List InodeEvent) (s : Fs) (i : Fin INODES) (s' : Fs) : Prop where
  frees : s.PutsLast past i → s.FreedIn i s'.cache
  keeps : 0 < (s.inodes i).din.nlink ∨ (s.inodes i).ref ≠ 1 → s'.cache.disk = s.cache.disk

/-- In every run `iput` is right exactly where there is nothing to free, or all of it is free
before. -/
theorem iput_right_iff {start : Fs} (fresh : start.inodes = initInodecache)
    (run : Trace InodeStep start past s) (taken : InodeStep s (.iput me i) s') :
    PutsRight past s i s' ↔ (s.PutsLast past i → s.FreedIn i s.cache) := by
  have unvaild := (entriesInv_of_run fresh run).unvaild
  have cache : s'.cache = s.cache := by
    cases taken with
    | iput used returns => exact (iput_recounts (unvaild i) returns).cache
  constructor
  · intro right last
    rw [← cache]
    exact right.frees last
  · intro free
    refine ⟨fun last => ?_, fun _ => by rw [cache]⟩
    rw [cache]
    exact free last

/-- An inode that was never locked is put. -/
theorem iput_right_unlocked : ∃ s s' : Fs,
    Trace InodeStep (freshFs (fun _ _ => 0) mkfsSuperblock) [.iget 1 5 0 true] s ∧
      InodeStep s (.iput 7 0) s' ∧ PutsRight [.iget 1 5 0 true] s 0 s' := by
  obtain ⟨s, entered, used, unread⟩ : ∃ s : Fs,
      InodeStep (freshFs (fun _ _ => 0) mkfsSuperblock) (.iget 1 5 0 true) s ∧
        1 ≤ (s.inodes 0).ref ∧ (s.inodes 0).vaild = false :=
    ⟨_, .iget (freshFs_iget _ _ 1 5), by simp, by simp⟩
  have left : InodeStep s (.iput 7 0) _ := .iput used (iput_run unread)
  refine ⟨s, _, .single entered, left, (iput_right_iff rfl (.single entered) left).mpr ?_⟩
  rintro ⟨-, locked, -⟩
  simp [lockedSince] at locked

/-- A disk with a file as inode 5 that no directory names. -/
def orphanDisk : ℕ → Block :=
  Function.update (fun _ _ => 0) 32 (Function.update (fun _ => 0) 320 2)

def lockOnce (me : ℕ) (i : Fin INODES) : Fio Unit := do
  ilock me (some i)
  iunlock me (some i)

/-- The last reference to a file without links is given back after it was locked, and the file
stays on the disk. -/
theorem iput_leaks : ¬ ∀ (start s s' : Fs) (past : List InodeEvent) (me : ℕ) (i : Fin INODES),
    start.inodes = initInodecache → Trace InodeStep start past s → InodeStep s (.iput me i) s' →
      PutsRight past s i s' := by
  intro claim
  have evaluated : (match iget 1 5 (freshFs orphanDisk mkfsSuperblock) with
      | .error _ => false
      | .ok (i, s₁) => match lockOnce 7 i s₁ with
        | .error _ => false
        | .ok (_, s₂) => i == 0 && (s₂.inodes 0).ref == 1 && (s₂.inodes 0).din.nlink == 0 &&
          (Dinode.read (s₂.cache.disk (IBLOCK (s₂.inodes 0).inum s₂.sb))
            ((s₂.inodes 0).inum % IPB)).type == 2) = true := by
    decide +kernel
  have entered : InodeStep (freshFs orphanDisk mkfsSuperblock) (.iget 1 5 0 true) _ :=
    .iget (freshFs_iget _ _ 1 5)
  rw [freshFs_iget] at evaluated
  generalize (freshFs orphanDisk mkfsSuperblock).setInode 0 _ = s₁ at entered evaluated
  dsimp only at evaluated
  cases locked : lockOnce 7 0 s₁ with
  | error e => simp [locked] at evaluated
  | ok pair =>
    obtain ⟨⟨⟩, s₂⟩ := pair
    simp only [locked, Bool.and_eq_true, beq_iff_eq, beq_self_eq_true, true_and] at evaluated
    obtain ⟨⟨one, orphan⟩, type⟩ := evaluated
    obtain ⟨⟨⟩, s₃, first, second⟩ := bind_ok.mp locked
    have run : Trace InodeStep (freshFs orphanDisk mkfsSuperblock)
        ([.iget 1 5 0 true] ++ [.ilock 7 0] ++ [.iunlock 7 0]) s₂ :=
      ((Trace.single entered).snoc (.ilock first)).snoc (.iunlock second)
    have unread := (entriesInv_of_run rfl run).unvaild 0
    have right := claim _ _ _ _ 7 0 rfl run (.iput (by omega) (iput_run unread))
    have freed := (right.frees ⟨one, by simp [lockedSince], orphan⟩).type
    simp only [setInode_cache] at freed
    omega

end HaloOS
