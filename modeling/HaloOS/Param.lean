import Mathlib.Data.Nat.Notation
import Mathlib.Algebra.NeZero
import Mathlib.Algebra.Order.Ring.Nat

/-! The numeric parameters of the kernel, under the names the headers give them, and
the ways in which a kernel function may fail to return. -/

namespace HaloOS

/-- Why a kernel function does not return to its caller. -/
inductive Stop where
  /-- `panic` with the message the source prints. -/
  | panic (message : String)
  /-- `sleep_lock` on a lock that the caller itself holds. -/
  | deadlock
  /-- `sleep_lock` on a lock that some other process holds. -/
  | blocked
  /-- An access through a null pointer, which the kernel page table does not map. -/
  | fault
  deriving DecidableEq, Repr

abbrev Byte := BitVec 8

/-- Bytes of a disk block. -/
def BSIZE : ℕ := 1024

/-- Buffers of the block cache (`fs.c`). -/
def NBUF : ℕ := 16

instance : NeZero NBUF := ⟨by decide⟩

/-- Entries of the in-memory inode cache. -/
def INODES : ℕ := 32

instance : NeZero INODES := ⟨by decide⟩

/-- The device every file system call names. -/
def ROOTDEV : ℕ := 1

/-- The inode number of the root directory. -/
def ROOTINO : ℕ := 1

/-- Bitmap bits held by one block. -/
def BPB : ℕ := BSIZE * 8

/-- Process table slots. -/
def NPROC : ℕ := 64

instance : NeZero NPROC := ⟨by decide⟩

/-- Descriptors of the disk's virtqueue. -/
def NUM : ℕ := 8

instance : NeZero NUM := ⟨by decide⟩

theorem descriptors_lawful : LawfulBEq (Fin NUM) := inferInstance

theorem neZero_one : NeZero 1 := ⟨Nat.one_ne_zero⟩

theorem neZero_two : NeZero 2 := ⟨Nat.succ_ne_zero 1⟩

/-- `struct superblock`: the geometry of a file system image. -/
structure Superblock where
  magic : ℕ
  size : ℕ
  nblocks : ℕ
  ninodes : ℕ
  nlog : ℕ
  logstart : ℕ
  inodestart : ℕ
  bmapstart : ℕ
  dataStart : ℕ := 0
  deriving DecidableEq, Repr

/-- The bitmap block that holds the bit of block `b`. -/
def BBLOCK (b : ℕ) (sb : Superblock) : ℕ := b / BPB + sb.bmapstart

end HaloOS
