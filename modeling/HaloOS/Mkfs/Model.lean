import HaloOS.Fs.Layout

/-! The image builder `mkfs.c`. The image is a file of whole blocks that grows when it is
written past its end; `xshort` and `xint` vanish, as numbers are stored byte by byte in
little-endian order. -/

namespace HaloOS.Mkfs

open Lib

def NINODES : ℕ := 200
def FSSIZE : ℕ := 2000
def nlog : ℕ := 30
def nbitmap : ℕ := FSSIZE / (BSIZE * 8) + 1
def ninodeblocks : ℕ := NINODES / IPB + 1
def nmeta : ℕ := 2 + nlog + ninodeblocks + nbitmap

/-- The superblock that `main` fills in. -/
def sb : Superblock where
  magic := FSMAGIC
  size := FSSIZE
  nblocks := FSSIZE - nmeta
  ninodes := NINODES
  nlog := nlog
  logstart := 2
  inodestart := 2 + nlog
  bmapstart := 2 + nlog + ninodeblocks

/-- Ways to end other than `exit(0)`. -/
inductive Abort where
  | die (what : String)
  | assertion
  deriving DecidableEq

/-- The image file: its length in blocks and their contents. -/
structure Image where
  size : ℕ
  data : ℕ → Block

/-- The image and the two counters. `filed` is not in the program: it lists the blocks that
file data was written to. -/
structure State where
  image : Image
  freeinode : ℕ
  freeblock : ℕ
  filed : List ℕ

abbrev Hio := Exec Abort State

/-- The block at file position `sec * BSIZE`, computed as a `uint`. -/
def sector (sec : ℕ) : ℕ := sec * BSIZE % UINT / BSIZE

def wsect (sec : ℕ) (buf : Block) : Hio Unit :=
  update fun s => { s with image :=
    { size := max s.image.size (sector sec + 1)
      data := Function.update s.image.data (sector sec) buf } }

def rsect (sec : ℕ) : Hio Block := do
  let s ← gets id
  stopIf (s.image.size ≤ sector sec) (.die "read")
  pure (s.image.data (sector sec))

def winode (inum : ℕ) (ip : Dinode) : Hio Unit := do
  let buf ← rsect (IBLOCK inum sb)
  wsect (IBLOCK inum sb) (ip.write (inum % IPB) buf)

def rinode (inum : ℕ) : Hio Dinode := do
  let buf ← rsect (IBLOCK inum sb)
  pure (Dinode.read buf (inum % IPB))

def ialloc (type : ℕ) : Hio ℕ := do
  let s ← gets id
  update ({ · with freeinode := s.freeinode + 1 })
  winode s.freeinode { type, nlink := 1 }
  pure s.freeinode

/-- The bitmap with the first `used` bits set. -/
def bitmap (used : ℕ) : Block := (List.range used).foldl setBit fun _ => 0

def balloc (used : ℕ) : Hio Unit := do
  stopIf (BSIZE * 8 ≤ used) .assertion
  wsect sb.bmapstart (bitmap used)

/-- `freeblock++`. -/
def nextBlock : Hio ℕ := do
  let s ← gets id
  update ({ · with freeblock := (s.freeblock + 1) % UINT })
  pure s.freeblock

/-- The part of `iappend` that allocates the indirect block if there is none. -/
def appendIndirect (din : Dinode) : Hio Dinode :=
  if din.addrs NDIRECT = 0 then do
    let b ← nextBlock
    pure { din with addrs := Function.update din.addrs NDIRECT b }
  else pure din

/-- The part of `iappend` that finds or allocates the block of index `fbn`. -/
def appendBlock (din : Dinode) (fbn : ℕ) : Hio (Dinode × ℕ) :=
  if fbn < NDIRECT then
    if din.addrs fbn = 0 then do
      let b ← nextBlock
      pure ({ din with addrs := Function.update din.addrs fbn b }, b)
    else pure (din, din.addrs fbn)
  else do
    let din ← appendIndirect din
    let indirect ← rsect (din.addrs NDIRECT)
    if u32 indirect (4 * (fbn - NDIRECT)) = 0 then do
      let b ← nextBlock
      wsect (din.addrs NDIRECT) (putU32 (4 * (fbn - NDIRECT)) b indirect)
      pure (din, b)
    else pure (din, u32 indirect (4 * (fbn - NDIRECT)))

/-- `bcopy(p, buf + at, p.length)`. -/
def bcopy (p : List Byte) (at_ : ℕ) (buf : Block) : Block := fun k =>
  if at_ ≤ k ∧ k < at_ + p.length then p.getD (k - at_) 0 else buf k

/-- The `wsect` of `iappend` that writes file data. -/
def wdata (sec : ℕ) (buf : Block) : Hio Unit := do
  update fun s => { s with filed := sec :: s.filed }
  wsect sec buf

/-- The loop of `iappend`; the inode stays in memory until it ends. -/
def iappendLoop : ℕ → Dinode → ℕ → List Byte → Hio (Dinode × ℕ)
  | 0, din, off, _ => pure (din, off)
  | fuel + 1, din, off, p =>
    if p = [] then pure (din, off)
    else do
      stopIf (MAXFILE ≤ off / BSIZE) .assertion
      let (din, x) ← appendBlock din (off / BSIZE)
      let n1 := min p.length ((off / BSIZE + 1) * BSIZE - off)
      let buf ← rsect x
      wdata x (bcopy (p.take n1) (off - off / BSIZE * BSIZE) buf)
      iappendLoop fuel din ((off + n1) % UINT) (p.drop n1)

def iappend (inum : ℕ) (p : List Byte) : Hio Unit := do
  let din ← rinode inum
  let (din, off) ← iappendLoop p.length din din.size p
  winode inum { din with size := off }

/-- `src/user/`. -/
def userDir : List Byte := [0x73, 0x72, 0x63, 0x2f, 0x75, 0x73, 0x65, 0x72, 0x2f]

def shortname (arg : List Byte) : List Byte :=
  let name := if arg.take 9 = userDir then arg.drop 9 else arg
  if name.head? = some 0x5f then name.tail else name

/-- An argument of `mkfs` and what the reads from that file return; a file that cannot be
opened has none. -/
structure Input where
  arg : List Byte
  reads : Option (List (List Byte))
  cstring : ∀ b ∈ arg, b ≠ 0
  sized : ∀ chunks ∈ reads, ∀ chunk ∈ chunks, chunk ≠ [] ∧ chunk.length ≤ BSIZE

/-- The loop that appends what is read. -/
def copyFile (inum : ℕ) : List (List Byte) → Hio Unit
  | [] => pure ()
  | chunk :: rest => do
    iappend inum chunk
    copyFile inum rest

/-- The loop of `main` over its arguments. -/
def addFiles (rootino : ℕ) : List Input → Hio Unit
  | [] => pure ()
  | file :: rest => do
    match file.reads with
    | none => throw (.die "open")
    | some chunks => do
      let inum ← ialloc T_FILE
      iappend rootino (dirent (shortname file.arg) inum)
      copyFile inum chunks
      addFiles rootino rest

/-- The loop that writes `n` blocks of zeroes from block `i` on. -/
def zeroLoop : ℕ → ℕ → Hio Unit
  | 0, _ => pure ()
  | n + 1, i => do
    wsect i fun _ => 0
    zeroLoop n (i + 1)

/-- The bytes of `struct superblock`. -/
def sbByte (sb : Superblock) (k : ℕ) : Byte :=
  leByte ([sb.magic, sb.size, sb.nblocks, sb.ninodes, sb.nlog, sb.logstart, sb.inodestart,
    sb.bmapstart, sb.dataStart].getD (k / 4) 0) (k % 4)

/-- What `main` does once the image is zeroed. -/
def build (files : List Input) : Hio Unit := do
  wsect 1 (sbByte sb)
  let rootino ← ialloc T_DIR
  stopIf (rootino ≠ ROOTINO) .assertion
  iappend rootino (dirent [0x2e] rootino)
  iappend rootino (dirent [0x2e, 0x2e] rootino)
  addFiles rootino files
  let din ← rinode rootino
  winode rootino { din with size := (din.size / BSIZE + 1) * BSIZE % UINT }
  let s ← gets id
  balloc s.freeblock

def main (files : List Input) : Hio Unit := do
  zeroLoop FSSIZE 0
  build files

/-- The state in which `main` starts: an empty image. -/
def start : State where
  image := ⟨0, fun _ _ => 0⟩
  freeinode := 1
  freeblock := nmeta
  filed := []

/-- The state in which `mkfs` exits with 0, if it does. -/
def run (files : List Input) : Except Abort State := (main files start).map Prod.snd

end HaloOS.Mkfs
