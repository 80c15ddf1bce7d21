import HaloOS.Fs.Bitmap

/-! The inode layer and directories of `fs.c`, with `create` of `sysfile.c`. The inode
cache and the superblock join the buffer cache in one state; every function takes the
pid of its caller, which is what the sleep locks remember. -/

namespace HaloOS

open Lib

def NDIRECT : ℕ := 12
def NINDIRECT : ℕ := 256
def MAXFILE : ℕ := NDIRECT + NINDIRECT
def DIRSIZ : ℕ := 14

/-- Inodes per block, of 64 bytes each. -/
def IPB : ℕ := 16

def FSMAGIC : ℕ := 0x10203040

def T_DIR : ℕ := 1
def T_FILE : ℕ := 2
def T_DEVICE : ℕ := 3

/-- The range of a `uint` and of a `short`. -/
def UINT : ℕ := 2 ^ 32
def SHORT : ℕ := 2 ^ 16

def IBLOCK (i : ℕ) (sb : Superblock) : ℕ := i / IPB + sb.inodestart

/-- Byte `k` of a little-endian number. -/
def leByte (x k : ℕ) : Byte := BitVec.ofNat 8 (x / 256 ^ k)

/-- A little-endian `short` and `uint` of a block. -/
def u16 (data : Block) (off : ℕ) : ℕ := (data off).toNat + 256 * (data (off + 1)).toNat
def u32 (data : Block) (off : ℕ) : ℕ := u16 data off + 65536 * u16 data (off + 2)

def putU32 (off x : ℕ) (data : Block) : Block := fun k =>
  if off ≤ k ∧ k < off + 4 then leByte x (k - off) else data k

/-- `struct dinode`. -/
structure Dinode where
  type : ℕ := 0
  major : ℕ := 0
  minor : ℕ := 0
  nlink : ℕ := 0
  size : ℕ := 0
  addrs : ℕ → ℕ := fun _ => 0

/-- The dinode in a slot of an inode block. -/
def Dinode.read (data : Block) (slot : ℕ) : Dinode where
  type := u16 data (64 * slot)
  major := u16 data (64 * slot + 2)
  minor := u16 data (64 * slot + 4)
  nlink := u16 data (64 * slot + 6)
  size := u32 data (64 * slot + 8)
  addrs := fun k => u32 data (64 * slot + 12 + 4 * k)

/-- Byte `k` of the 64 bytes of a dinode. -/
def Dinode.byte (d : Dinode) (k : ℕ) : Byte :=
  if k < 2 then leByte d.type k
  else if k < 4 then leByte d.major (k - 2)
  else if k < 6 then leByte d.minor (k - 4)
  else if k < 8 then leByte d.nlink (k - 6)
  else if k < 12 then leByte d.size (k - 8)
  else leByte (d.addrs ((k - 12) / 4)) ((k - 12) % 4)

def Dinode.write (d : Dinode) (slot : ℕ) (data : Block) : Block := fun k =>
  if 64 * slot ≤ k ∧ k < 64 * slot + 64 then d.byte (k - 64 * slot) else data k

/-- `struct inode`, an entry of the inode cache. -/
structure Inode where
  dev : ℕ := 0
  inum : ℕ := 0
  ref : ℤ := 0
  splock : SleepLock := {}
  vaild : Bool := false
  din : Dinode := {}

structure Fs where
  cache : Bcache
  sb : Superblock
  inodes : Fin INODES → Inode

abbrev Fio := Exec Stop Fs

/-- Work on the buffer cache. -/
def bio {α : Type} (m : Bio α) : Fio α := zoom (·.cache) (fun cache s => { s with cache }) m

def Fs.setInode (i : Fin INODES) (f : Inode → Inode) (s : Fs) : Fs :=
  { s with inodes := Function.update s.inodes i (f (s.inodes i)) }

def getInode (i : Fin INODES) : Fio Inode := gets fun s => s.inodes i

/-- A store into the fields of an inode that mirror the disk. -/
def setDinode (i : Fin INODES) (f : Dinode → Dinode) : Fio Unit :=
  update (·.setInode i fun ip => { ip with din := f ip.din })

/-- `init_inodecache`. -/
def initInodecache : Fin INODES → Inode := fun _ => {}

/-- The superblock in the bytes of a block. -/
def Superblock.read (data : Block) : Superblock where
  magic := u32 data 0
  size := u32 data 4
  nblocks := u32 data 8
  ninodes := u32 data 12
  nlog := u32 data 16
  logstart := u32 data 20
  inodestart := u32 data 24
  bmapstart := u32 data 28
  dataStart := u32 data 32

def readsb (me dev : ℕ) : Fio Unit := do
  let f ← bio (bread me dev 1)
  let data ← bio (bufData f)
  update ({ · with sb := Superblock.read data })
  bio (brelease me f)

def initfs (me dev : ℕ) : Fio Unit := do
  readsb me dev
  let sb ← gets (·.sb)
  stopIf (sb.magic ≠ FSMAGIC) (.panic "invalid file system")

/-- `sleep_lock(&i->splock)`. -/
def lockInode (me : ℕ) (i : Fin INODES) : Fio Unit := fun s =>
  match sleepLock me (s.inodes i).splock with
  | .ok splock => .ok ((), s.setInode i ({ · with splock }))
  | .error e => .error e

/-- `sleep_unlock(&i->splock)`. -/
def unlockInode (i : Fin INODES) : Fio Unit :=
  update (·.setInode i fun ip => { ip with splock := sleepUnlock ip.splock })

def idup (i : Fin INODES) : Fio (Fin INODES) := do
  update (·.setInode i fun ip => { ip with ref := ip.ref + 1 })
  pure i

def iget (dev inum : ℕ) : Fio (Fin INODES) := do
  let s ← gets id
  let held := (List.finRange INODES).find? fun i =>
    0 < (s.inodes i).ref && (s.inodes i).dev == dev && (s.inodes i).inum == inum
  match held with
  | some i =>
    update (·.setInode i fun ip => { ip with ref := ip.ref + 1 })
    pure i
  | none =>
    match (List.finRange INODES).find? fun i => (s.inodes i).ref == 0 with
    | some i =>
      update (·.setInode i fun ip => { ip with dev, inum, ref := 1, vaild := false })
      pure i
    | none => throw (.panic "iget panic")

def rooti : Fio (Fin INODES) := iget ROOTDEV ROOTINO

/-- `ilock`; the null pointer is `none`. The flag `vaild` is cleared after the load. -/
def ilock (me : ℕ) : Option (Fin INODES) → Fio Unit
  | none => throw (.panic "ilock")
  | some i => do
    let ip ← getInode i
    stopIf (ip.ref < 1) (.panic "ilock")
    lockInode me i
    onlyIf (ip.vaild = false) do
      let sb ← gets (·.sb)
      let b ← bio (bread me ip.dev (IBLOCK ip.inum sb))
      let data ← bio (bufData b)
      setDinode i fun _ => Dinode.read data (ip.inum % IPB)
      bio (brelease me b)
      update (·.setInode i ({ · with vaild := false }))

def iunlock (me : ℕ) : Option (Fin INODES) → Fio Unit
  | none => throw (.panic "iunlock")
  | some i => do
    let ip ← getInode i
    stopIf (holdingsleep me ip.splock = false ∨ ip.ref < 1) (.panic "iunlock")
    unlockInode i

def iupdate (me : ℕ) (i : Fin INODES) : Fio Unit := do
  let ip ← getInode i
  let sb ← gets (·.sb)
  let b ← bio (bread me ip.dev (IBLOCK ip.inum sb))
  let data ← bio (bufData b)
  bio (setData b (ip.din.write (ip.inum % IPB) data))
  bio (bwrite me b)
  bio (brelease me b)

/-- `bfree` of every block a list of numbers names; 0 stands for none. -/
def bfreeAll (me dev : ℕ) : List ℕ → Fio Unit
  | [] => pure ()
  | b :: rest => do
    onlyIf (b ≠ 0) do
      let sb ← gets (·.sb)
      bio (bfree me dev sb b)
    bfreeAll me dev rest

/-- `itrunc`, which frees only the first `NDIRECT` entries of the indirect block. -/
def itrunc (me : ℕ) (i : Fin INODES) : Fio Unit := do
  let ip ← getInode i
  bfreeAll me ip.dev ((List.range NDIRECT).map ip.din.addrs)
  setDinode i fun d => { d with addrs := fun k => if k < NDIRECT then 0 else d.addrs k }
  onlyIf (ip.din.addrs NDIRECT ≠ 0) do
    let b ← bio (bread me ip.dev (ip.din.addrs NDIRECT))
    let data ← bio (bufData b)
    bfreeAll me ip.dev ((List.range NDIRECT).map fun k => u32 data (4 * k))
    bio (brelease me b)
    bfreeAll me ip.dev [ip.din.addrs NDIRECT]
    setDinode i fun d => { d with addrs := Function.update d.addrs NDIRECT 0 }
  setDinode i ({ · with size := 0 })
  iupdate me i

def iput (me : ℕ) (i : Fin INODES) : Fio Unit := do
  let ip ← getInode i
  onlyIf (ip.ref = 1 ∧ ip.vaild = true ∧ ip.din.nlink = 0) do
    lockInode me i
    itrunc me i
    setDinode i ({ · with type := 0 })
    iupdate me i
    update (·.setInode i ({ · with vaild := false }))
    unlockInode i
  update (·.setInode i fun ip => { ip with ref := ip.ref - 1 })

def iunlockput (me : ℕ) (i : Fin INODES) : Fio Unit := do
  iunlock me (some i)
  iput me i

/-- `balloc(ip->dev)` stored into a block address of the inode. -/
def ballocAt (me : ℕ) (i : Fin INODES) (k : ℕ) : Fio ℕ := do
  let ip ← getInode i
  let sb ← gets (·.sb)
  let addr ← bio (balloc me ip.dev sb)
  setDinode i fun d => { d with addrs := Function.update d.addrs k addr }
  pure addr

def bmap (me : ℕ) (i : Fin INODES) (n : ℕ) : Fio ℕ := do
  let ip ← getInode i
  if n < NDIRECT then
    if ip.din.addrs n = 0 then ballocAt me i n else pure (ip.din.addrs n)
  else if n - NDIRECT < NINDIRECT then do
    let addr ← if ip.din.addrs NDIRECT = 0 then ballocAt me i NDIRECT
      else pure (ip.din.addrs NDIRECT)
    let bp ← bio (bread me ip.dev addr)
    let data ← bio (bufData bp)
    let addr := u32 data (4 * (n - NDIRECT))
    if addr = 0 then do
      let sb ← gets (·.sb)
      let addr ← bio (balloc me ip.dev sb)
      let data ← bio (bufData bp)
      bio (setData bp (putU32 (4 * (n - NDIRECT)) addr data))
      bio (brelease me bp)
      pure addr
    else do
      bio (brelease me bp)
      pure addr
  else throw (.panic "bmap panic...\n")

section Readi

variable {σ : Type} (fs : {α : Type} → Fio α → Exec Stop σ α)

/-- The loop of `readi`. `copyout` is `either_copyout` to `dst + tot`; the bytes handed
to it so far are returned as well. The offset does not move. -/
def readiLoop (me : ℕ) (i : Fin INODES) (copyout : ℕ → List Byte → Exec Stop σ Bool)
    (off n : ℕ) : ℕ → ℕ → List Byte → Exec Stop σ (ℤ × List Byte)
  | 0, tot, done => pure (tot, done)
  | fuel + 1, tot, done =>
    if n ≤ tot then pure (tot, done)
    else do
      let addr ← fs (bmap me i (off / BSIZE))
      let ip ← fs (getInode i)
      let b ← fs (bio (bread me ip.dev addr))
      let data ← fs (bio (bufData b))
      let m := min (n - tot) (BSIZE - off % BSIZE)
      let bytes := (List.range m).map fun k => data (off % BSIZE + k)
      let copied ← copyout tot bytes
      fs (bio (brelease me b))
      if copied then readiLoop me i copyout off n fuel (tot + m) (done ++ bytes)
      else pure (-1, done)

def readi (me : ℕ) (i : Fin INODES) (copyout : ℕ → List Byte → Exec Stop σ Bool)
    (off n : ℕ) : Exec Stop σ (ℤ × List Byte) := do
  let ip ← fs (getInode i)
  if ip.din.size < off ∨ (off + n) % UINT < off then pure (0, [])
  else
    let n := if ip.din.size < off + n then ip.din.size - off else n
    readiLoop fs me i copyout off n n 0 []

end Readi

/-- `readi` into a buffer of the kernel, which ends up holding the returned bytes. -/
def readk (me : ℕ) (i : Fin INODES) (off n : ℕ) : Fio (ℤ × List Byte) :=
  readi (fun m => m) me i (fun _ _ => pure true) off n

/-- The loop of `writei` for a source buffer of the kernel. -/
def writeiLoop (me : ℕ) (i : Fin INODES) (src : List Byte) : ℕ → ℕ → ℕ → Fio (ℕ × ℕ)
  | 0, tot, off => pure (tot, off)
  | fuel + 1, tot, off =>
    if src.length ≤ tot then pure (tot, off)
    else do
      let addr ← bmap me i (off / BSIZE)
      let ip ← getInode i
      let bp ← bio (bread me ip.dev addr)
      let data ← bio (bufData bp)
      let m := min (src.length - tot) (BSIZE - off % BSIZE)
      bio (setData bp fun k => if off % BSIZE ≤ k ∧ k < off % BSIZE + m then
        src.getD (tot + (k - off % BSIZE)) 0 else data k)
      bio (bwrite me bp)
      bio (brelease me bp)
      writeiLoop me i src fuel (tot + m) (off + m)

/-- `writei`, which compares a byte offset with `MAXFILE` blocks. -/
def writei (me : ℕ) (i : Fin INODES) (src : List Byte) (off : ℕ) : Fio ℤ := do
  let ip ← getInode i
  if ip.din.size < off ∨ (off + src.length) % UINT < off then pure (-1)
  else if MAXFILE < off + src.length then pure (-1)
  else do
    let (tot, off) ← writeiLoop me i src src.length 0 off
    onlyIf (ip.din.size < off) (setDinode i ({ · with size := off }))
    iupdate me i
    pure tot

/-- The bytes of a C string, with its terminator from its end on. -/
def cstr (s : List Byte) (k : ℕ) : Byte := (s.takeWhile (· ≠ 0)).getD k 0

/-- `strncmp(p, q, n) == 0`, from place `k` on. -/
def strncmpZero (p q : ℕ → Byte) : ℕ → ℕ → Bool
  | 0, _ => true
  | n + 1, k => if p k ≠ 0 ∧ p k = q k then strncmpZero p q n (k + 1) else p k == q k

/-- The 16 bytes of a `struct dirent`; `strncpy` pads the name with zeros. -/
def dirent (name : List Byte) (inum : ℕ) : List Byte :=
  [leByte inum 0, leByte inum 1] ++ (List.range DIRSIZ).map (cstr name)

def direntInum (de : List Byte) : ℕ := u16 (fun k => de.getD k 0) 0

def direntName (de : List Byte) (k : ℕ) : Byte := de.getD (k + 2) 0

/-- The loop of `inodeByName` for the given number of entries. -/
def inodeByNameLoop (me : ℕ) (i : Fin INODES) (name : List Byte) :
    ℕ → ℕ → Fio (Option (Fin INODES))
  | 0, _ => pure none
  | n + 1, off => do
    let (r, de) ← readk me i off 16
    stopIf (r ≠ 16) (.panic "inodeByName panic...\n")
    if strncmpZero (cstr name) (direntName de) DIRSIZ 0 then do
      let ip ← getInode i
      let found ← iget ip.dev (direntInum de)
      pure (some found)
    else inodeByNameLoop me i name n (off + 16)

def inodeByName (me : ℕ) (i : Fin INODES) (name : List Byte) : Fio (Option (Fin INODES)) := do
  let ip ← getInode i
  inodeByNameLoop me i name ((ip.din.size + 15) / 16) 0

def rootsub (me : ℕ) (name : List Byte) : Fio (Option (Fin INODES)) := do
  let root ← rooti
  ilock me (some root)
  let sub ← inodeByName me root name
  iunlockput me root
  pure sub

def slash : Byte := 0x2f

/-- `iname`: a path that starts with `/` means the root; the reference to the root is
kept in either case. -/
def iname (me : ℕ) (name : List Byte) : Fio (Option (Fin INODES)) := do
  let dp ← iget ROOTDEV ROOTINO
  if name.head? = some slash then pure (some dp)
  else do
    ilock me (some dp)
    let i ← inodeByName me dp name
    unlockInode dp
    pure i

/-- The loop of `ialloc` for the given number of inodes from `inum` on. -/
def iallocFrom (me dev type : ℕ) : ℕ → ℕ → Fio (Option (Fin INODES))
  | 0, _ => pure none
  | n + 1, inum => do
    let sb ← gets (·.sb)
    let bp ← bio (bread me dev (IBLOCK inum sb))
    let data ← bio (bufData bp)
    if (Dinode.read data (inum % IPB)).type = 0 then do
      bio (setData bp (({ type := type } : Dinode).write (inum % IPB) data))
      bio (bwrite me bp)
      bio (brelease me bp)
      let i ← iget dev inum
      pure (some i)
    else do
      bio (brelease me bp)
      iallocFrom me dev type n (inum + 1)

def ialloc (me dev type : ℕ) : Fio (Option (Fin INODES)) := do
  let sb ← gets (·.sb)
  iallocFrom me dev type sb.ninodes 0

/-- The search of `dirlink` for a free entry. -/
def dirlinkSlot (me : ℕ) (dp : Fin INODES) : ℕ → ℕ → Fio ℕ
  | 0, off => pure off
  | n + 1, off => do
    let (r, dir) ← readk me dp off 16
    stopIf (r ≠ 16) (.panic "dirlink panic...\n")
    if direntInum dir = 0 then pure off else dirlinkSlot me dp n (off + 16)

def dirlink (me : ℕ) (dp : Fin INODES) (path : List Byte) (inum : ℕ) : Fio Unit := do
  let ip ← getInode dp
  let off ← dirlinkSlot me dp ((ip.din.size + 15) / 16) 0
  let r ← writei me dp (dirent path (inum % SHORT)) off
  stopIf (r ≠ 16) (.panic "dirlink writei")

/-- A path without its leading `/`. -/
def strip (path : List Byte) : List Byte :=
  if path.head? = some slash then path.tail else path

/-- `create` of `sysfile.c`. The entry that `inodeByName` found is judged by the type its
cache entry happens to hold, and the early return leaves the directory locked. -/
def create (me : ℕ) (path : List Byte) (type major minor : ℕ) : Fio (Fin INODES) := do
  let dp ← rooti
  ilock me (some dp)
  let path := strip path
  let found ← inodeByName me dp path
  let s ← gets id
  match found.filter fun ip => type = T_FILE ∧
      ((s.inodes ip).din.type = T_FILE ∨ (s.inodes ip).din.type = T_DEVICE) with
  | some ip => pure ip
  | none =>
    match ← ialloc me (s.inodes dp).dev type with
    | none => throw (.panic "fs.c create >> ialloc panic..\n")
    | some ip => do
      ilock me (some ip)
      setDinode ip ({ · with major, minor, nlink := 1 })
      iupdate me ip
      let s ← gets id
      onlyIf (type = T_DIR) do
        iupdate me dp
        dirlink me ip [0x2e] (s.inodes ip).inum
        dirlink me ip [0x2e, 0x2e] (s.inodes dp).inum
      dirlink me dp path (s.inodes ip).inum
      iunlockput me dp
      pure ip

end HaloOS
