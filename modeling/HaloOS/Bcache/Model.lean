import HaloOS.Lib.Exec
import HaloOS.Param
import Mathlib.Data.List.FinRange

/-! The buffer cache of `fs.c` over the disk it fronts. The doubly linked list
through `bcache.head` is kept as the list of its buffers in `next` order, and the
spinlock `bcache.slock` as the atomicity of each critical section. -/

namespace HaloOS

open Lib

/-- The bytes of a disk block, by offset below `BSIZE`. -/
abbrev Block := ℕ → Byte

/-- `struct sleeplock` without its inner spinlock and name. -/
structure SleepLock where
  locked : Bool := false
  pid : ℕ := 0
  deriving DecidableEq, Repr

/-- `sleep_lock` by process `me`: a lock that is taken puts the caller to sleep. -/
def sleepLock (me : ℕ) (sl : SleepLock) : Except Stop SleepLock :=
  if sl.locked then .error (if sl.pid = me then .deadlock else .blocked)
  else .ok ⟨true, me⟩

/-- `sleep_unlock`, which does not look at who holds the lock. -/
def sleepUnlock (_ : SleepLock) : SleepLock := ⟨false, 0⟩

def holdingsleep (me : ℕ) (sl : SleepLock) : Bool := sl.locked && sl.pid == me

/-- `struct buf`; its list links are the position in `Bcache.lru`. -/
structure Buf where
  vaild : Bool := false
  dev : ℕ := 0
  blockno : ℕ := 0
  sk : SleepLock := {}
  refcnt : ℕ := 0
  data : Block := fun _ => 0

/-- The cache and the disk below it. -/
structure Bcache where
  disk : ℕ → Block
  bufs : Fin NBUF → Buf
  lru : List (Fin NBUF)

namespace Bcache

/-- Replace one buffer. -/
def setBuf (i : Fin NBUF) (f : Buf → Buf) (c : Bcache) : Bcache :=
  { c with bufs := Function.update c.bufs i (f (c.bufs i)) }

/-- The first buffer from `head.next` on that carries the tag. -/
def lookup (c : Bcache) (dev blockno : ℕ) : Option (Fin NBUF) :=
  c.lru.find? fun i => (c.bufs i).dev == dev && (c.bufs i).blockno == blockno

/-- The first unreferenced buffer from `head.prev` backwards. -/
def victim (c : Bcache) : Option (Fin NBUF) :=
  c.lru.reverse.find? fun i => (c.bufs i).refcnt == 0

end Bcache

abbrev Bio := Exec Stop Bcache

/-- `init_bcache`: every buffer is linked in at the head, so the last comes first. -/
def initBcache (disk : ℕ → Block) : Bcache :=
  { disk, bufs := fun _ => {}, lru := (List.finRange NBUF).reverse }

/-- `sleep_lock(&b->sk)`. -/
def lockBuf (me : ℕ) (i : Fin NBUF) : Bio Unit := fun c =>
  match sleepLock me (c.bufs i).sk with
  | .ok sk => .ok ((), c.setBuf i ({ · with sk }))
  | .error e => .error e

/-- `virt_disk_rw(b, 0)`: the device fills the buffer from its block. -/
def diskRead (i : Fin NBUF) : Bio Unit :=
  update fun c => c.setBuf i fun b => { b with data := c.disk b.blockno }

/-- `virt_disk_rw(b, 1)`: the device stores the buffer into its block. -/
def diskWrite (i : Fin NBUF) : Bio Unit :=
  update fun c =>
    { c with disk := Function.update c.disk (c.bufs i).blockno (c.bufs i).data }

def bget (me dev blockno : ℕ) : Bio (Fin NBUF) := do
  let c ← gets id
  match c.lookup dev blockno with
  | some i =>
    update (·.setBuf i fun b => { b with refcnt := b.refcnt + 1 })
    lockBuf me i
    pure i
  | none =>
    match c.victim with
    | some i =>
      update (·.setBuf i fun b => { b with refcnt := 1, vaild := false, dev, blockno })
      lockBuf me i
      pure i
    | none => throw (.panic "bget panic..\n")

def bread (me dev blockno : ℕ) : Bio (Fin NBUF) := do
  let r ← bget me dev blockno
  let vaild ← gets fun c => (c.bufs r).vaild
  onlyIf (vaild = false) do
    diskRead r
    update (·.setBuf r ({ · with vaild := true }))
  pure r

/-- The relinking of `brelease`: an unreferenced buffer moves to the head. -/
def unref (i : Fin NBUF) (c : Bcache) : Bcache :=
  { c.setBuf i fun b => { b with refcnt := b.refcnt - 1 } with
    lru := if (c.bufs i).refcnt - 1 = 0 then i :: c.lru.erase i else c.lru }

def brelease (me : ℕ) (i : Fin NBUF) : Bio Unit := do
  let c ← gets id
  stopIf (holdingsleep me (c.bufs i).sk = false) (.panic "brelease holdingsleep panic\n")
  update (·.setBuf i fun b => { b with sk := sleepUnlock b.sk })
  update (unref i)

def bwrite (me : ℕ) (i : Fin NBUF) : Bio Unit := do
  let c ← gets id
  stopIf (holdingsleep me (c.bufs i).sk = false) (.panic "bwrite")
  diskWrite i

/-- The bytes a buffer holds. -/
def bufData (i : Fin NBUF) : Bio Block := gets fun c => (c.bufs i).data

/-- A store into `b->data` by the holder of the buffer. -/
def setData (i : Fin NBUF) (data : Block) : Bio Unit :=
  update (·.setBuf i ({ · with data }))

end HaloOS
