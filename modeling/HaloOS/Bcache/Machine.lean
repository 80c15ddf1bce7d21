import HaloOS.Bcache.Model
import HaloOS.Lib.Dlist
import HaloOS.Lib.Trace

/-! The buffer cache as its callers share it: the list of buffers with its pointers, and
every process between the `bget` of a buffer and the end of its `brelease`. A step is a
critical section under `bcache.slock`, a change of a buffer's sleep lock, or an access by
its holder. A call on a buffer whose lock the caller does not hold panics, which ends the
run, so only holders take the steps of `bwrite` and `brelease`. -/

namespace HaloOS

open Lib

/-- Where a process is with a buffer that it asked for. -/
inductive Phase where
  /-- in the `sleep_lock` of `bget` -/
  | locking
  /-- in `bread`, with the lock -/
  | loading
  /-- `bread` has returned -/
  | holding
  /-- in `brelease`, after its `sleep_unlock` -/
  | dropping
  deriving DecidableEq

/-- The phases in which the process has the lock of the buffer. -/
def Phase.owns : Phase → Bool
  | .loading | .holding => true
  | .locking | .dropping => false

/-- A `bget` that was not released yet: process `pid` asked for a block and was given a
buffer. `modified` is not in the program: it says that the process stored into `data`
after its last `bwrite`. -/
structure Get where
  pid : ℕ
  buf : Fin NBUF
  dev : ℕ
  blockno : ℕ
  phase : Phase := .locking
  modified : Bool := false
  deriving DecidableEq

structure Machine where
  disk : ℕ → Block
  bufs : Fin NBUF → Buf
  links : Dlist (Fin NBUF)
  gets : List Get

namespace Machine

def setBuf (i : Fin NBUF) (f : Buf → Buf) (m : Machine) : Machine :=
  { m with bufs := Function.update m.bufs i (f (m.bufs i)) }

/-- The record of a process moves on. -/
def advance (g g' : Get) (m : Machine) : Machine := { m with gets := g' :: m.gets.erase g }

/-- The loop of `init_bcache`. -/
def initLinks : Dlist (Fin NBUF) :=
  (List.finRange NBUF).foldl (fun links b => links.pushFront b) (Dlist.empty _)

/-- After `init_bcache`. -/
def init (disk : ℕ → Block) : Machine where
  disk := disk
  bufs := fun _ => {}
  links := initLinks
  gets := []

/-- The first loop of `bget`, from `head.next` on. -/
def cached (m : Machine) (dev blockno : ℕ) : Option (Fin NBUF) :=
  Dlist.walk m.links.next (fun r => (m.bufs r).dev == dev && (m.bufs r).blockno == blockno)
    (NBUF + 1) (m.links.next none)

/-- The second loop of `bget`, from `head.prev` on. -/
def unused (m : Machine) : Option (Fin NBUF) :=
  Dlist.walk m.links.prev (fun r => (m.bufs r).refcnt == 0) (NBUF + 1) (m.links.prev none)

/-- The critical section of `bget`; without a buffer it panics. -/
def bgetSection (m : Machine) (dev blockno : ℕ) : Option (Fin NBUF × Machine) :=
  match m.cached dev blockno with
  | some r => some (r, m.setBuf r fun b => { b with refcnt := b.refcnt + 1 })
  | none =>
    match m.unused with
    | some r => some (r, m.setBuf r fun b => { b with refcnt := 1, vaild := false, dev, blockno })
    | none => none

/-- What `bread` does once `bget` has returned. -/
def fill (i : Fin NBUF) (m : Machine) : Machine :=
  if (m.bufs i).vaild = false then
    m.setBuf i fun b => { b with data := m.disk b.blockno, vaild := true }
  else m

/-- The critical section of `brelease`. -/
def bunref (i : Fin NBUF) (m : Machine) : Machine :=
  let m := m.setBuf i fun b => { b with refcnt := b.refcnt - 1 }
  if (m.bufs i).refcnt = 0 then { m with links := (m.links.unlink i).pushFront i } else m

end Machine

/-- A step of a process; `load` and `bwrite` carry the data that they return and write. -/
inductive BcacheEvent where
  | bget (pid dev blockno : ℕ)
  | lock (g : Get)
  | load (g : Get) (data : Block)
  | modify (g : Get) (data : Block)
  | bwrite (g : Get) (data : Block)
  | unlock (g : Get)
  | drop (g : Get)

open Machine in
inductive BcacheStep (m : Machine) : BcacheEvent → Machine → Prop where
  | bget {pid dev blockno : ℕ} {i : Fin NBUF} {m' : Machine}
      (chosen : m.bgetSection dev blockno = some (i, m')) :
      BcacheStep m (.bget pid dev blockno)
        { m' with gets := { pid, buf := i, dev, blockno } :: m'.gets }
  | lock {g : Get} (waiting : g ∈ m.gets) (phase : g.phase = .locking)
      (free : (m.bufs g.buf).sk.locked = false) :
      BcacheStep m (.lock g)
        ((m.setBuf g.buf fun b => { b with sk := ⟨true, g.pid⟩ }).advance g { g with phase := .loading })
  | load {g : Get} {data : Block} (loading : g ∈ m.gets) (phase : g.phase = .loading)
      (returned : ((m.fill g.buf).bufs g.buf).data = data) :
      BcacheStep m (.load g data) ((m.fill g.buf).advance g { g with phase := .holding })
  | modify {g : Get} {data : Block} (holding : g ∈ m.gets) (phase : g.phase = .holding) :
      BcacheStep m (.modify g data)
        ((m.setBuf g.buf fun b => { b with data }).advance g { g with modified := true })
  | bwrite {g : Get} {data : Block} (holding : g ∈ m.gets) (phase : g.phase = .holding)
      (checked : holdingsleep g.pid (m.bufs g.buf).sk = true) (written : (m.bufs g.buf).data = data) :
      BcacheStep m (.bwrite g data)
        ({ m with disk := Function.update m.disk (m.bufs g.buf).blockno (m.bufs g.buf).data }.advance g
          { g with modified := false })
  | unlock {g : Get} (holding : g ∈ m.gets) (phase : g.phase = .holding)
      (checked : holdingsleep g.pid (m.bufs g.buf).sk = true) :
      BcacheStep m (.unlock g)
        ((m.setBuf g.buf fun b => { b with sk := sleepUnlock b.sk }).advance g
          { g with phase := .dropping })
  | drop {g : Get} (dropping : g ∈ m.gets) (phase : g.phase = .dropping) :
      BcacheStep m (.drop g) { m.bunref g.buf with gets := m.gets.erase g }

end HaloOS
