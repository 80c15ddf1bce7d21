import HaloOS.Fs.Model
import HaloOS.Vm.Model

/-! Processes, open files and the system calls: `proc.c`, `exec.c`, `file.c`, `console.c`
and `sysfile.c`. A call runs to its end or stops; a process that would sleep for good
input (`wait` without a dead child, `read` from an empty console) stops as blocked and
issues the call again later. A live process may always issue a call: the scheduler's
moves between `RUNNABLE` and `RUNNING` are not told apart. -/

namespace HaloOS

open Lib

def NFILE : ℕ := 100

instance : NeZero NFILE := ⟨by decide⟩

def OPENFILE : ℕ := 16
def NDEV : ℕ := 10
def CONSOLE : ℕ := 1
def MAXARG : ℕ := 32
def INPUT_MAX : ℕ := 128

def O_WRONLY : ℕ := 0x001
def O_RDWR : ℕ := 0x002
def O_CREATE : ℕ := 0x200

inductive FdType where
  | none
  | pipe
  | inode
  | device
  deriving DecidableEq

structure File where
  type : FdType := .none
  ref : ℤ := 0
  readable : Bool := false
  writable : Bool := false
  ip : Option (Fin INODES) := none
  off : ℕ := 0
  major : ℕ := 0

inductive ProcState where
  | unused
  | used
  | sleeping
  | runnable
  | running
  | zombie
  deriving DecidableEq

structure Proc where
  state : ProcState := .unused
  pid : ℕ := 0
  killed : Bool := false
  xstate : ℕ := 0
  parent : Option (Fin NPROC) := none
  sz : ℕ := 0
  trapframe : ℕ := 0
  pagetable : ℕ := 0
  openfs : ℕ → Option (Fin NFILE) := fun _ => none
  pwd : Option (Fin INODES) := none

/-- The input ring of the console. -/
structure Console where
  buf : ℕ → Byte := fun _ => 0
  r : ℕ := 0
  w : ℕ := 0
  e : ℕ := 0

structure Kernel where
  fs : Fs
  vm : Vm
  files : Fin NFILE → File
  procs : Fin NPROC → Proc
  initp : Option (Fin NPROC)
  nextPid : ℕ
  cons : Console

abbrev Kio := Exec Stop Kernel

def fio {α : Type} (m : Fio α) : Kio α := zoom (·.fs) (fun fs k => { k with fs }) m
def mio {α : Type} (m : Mio α) : Kio α := zoom (·.vm) (fun vm k => { k with vm }) m

def Kernel.setProc (p : Fin NPROC) (f : Proc → Proc) (k : Kernel) : Kernel :=
  { k with procs := Function.update k.procs p (f (k.procs p)) }

def Kernel.setFile (f : Fin NFILE) (g : File → File) (k : Kernel) : Kernel :=
  { k with files := Function.update k.files f (g (k.files f)) }

def getProc (p : Fin NPROC) : Kio Proc := gets fun k => k.procs p
def setProc (p : Fin NPROC) (f : Proc → Proc) : Kio Unit := update (·.setProc p f)
def getFile (f : Fin NFILE) : Kio File := gets fun k => k.files f
def setFile (f : Fin NFILE) (g : File → File) : Kio Unit := update (·.setFile f g)

section Files

/-! ### `file.c` and `console.c` -/

def filealloc : Kio (Option (Fin NFILE)) := do
  let k ← gets id
  match (List.finRange NFILE).find? fun f => (k.files f).ref == 0 with
  | some f =>
    setFile f ({ · with ref := 1 })
    pure (some f)
  | none => pure none

def fileclose (me : ℕ) : Option (Fin NFILE) → Kio Unit
  | none => throw .fault
  | some f => do
    let ff ← getFile f
    stopIf (ff.ref < 1) (.panic "fileclose f ref < 1")
    if 0 < ff.ref - 1 then setFile f ({ · with ref := ff.ref - 1 })
    else do
      setFile f ({ · with ref := 0, type := .none })
      if ff.type = .inode ∨ ff.type = .device then
        match ff.ip with
        | some ip => fio (iput me ip)
        | none => throw .fault
      else pure ()

def filedup (f : Fin NFILE) : Kio (Fin NFILE) := do
  let file ← getFile f
  stopIf (file.ref < 1) (.panic "filedup | target file ref < 1..")
  setFile f ({ · with ref := file.ref + 1 })
  pure f

/-- The loop of `copyin`; the bytes read go to a buffer of the kernel. -/
def copyinLoop (pagetable : ℕ) : ℕ → ℕ → ℕ → Mio (List Byte)
  | 0, _, _ => pure []
  | fuel + 1, srcva, len =>
    if len = 0 then pure []
    else do
      let va0 := PGROUNDDOWN srcva
      let pa0 ← walkaddr pagetable va0
      stopIf (pa0 = 0) (.panic "copyin:pa0 == 0\n")
      -- the source adds `va0` where it should subtract it
      let n := min ((PGSIZE + 2 * WORD - (srcva + va0)) % WORD) len
      let v ← gets id
      let bytes := (List.range n).map fun k =>
        BitVec.ofNat 8 (Vm.byteOf (v.load (pa0 + (srcva - va0) + k)) ((pa0 + (srcva - va0) + k) % 8))
      let rest ← copyinLoop pagetable fuel (va0 + PGSIZE) (len - n)
      pure (bytes ++ rest)

def copyin (pagetable srcva len : ℕ) : Mio (List Byte) := copyinLoop pagetable len srcva len

/-- The loop of `consolewrite`, byte by byte from `src` on. -/
def consolewriteLoop (pagetable : ℕ) : ℕ → ℕ → Mio Unit
  | 0, _ => pure ()
  | n + 1, src => do
    let _ ← copyin pagetable (src % WORD) 1
    consolewriteLoop pagetable n (src + 1)

def C (x : ℕ) : Byte := BitVec.ofNat 8 (x - 0x40)

/-- The loop of `consoleread` with `n` bytes still wanted; the number left over is
returned. -/
def consolereadLoop (p : Fin NPROC) (target : ℕ) : ℕ → ℕ → Kio ℕ
  | 0, _ => pure 0
  | n + 1, dst => do
    let k ← gets id
    if k.cons.r = k.cons.w then throw .blocked
    else do
      let c := k.cons.buf (k.cons.r % INPUT_MAX)
      update fun k => { k with cons := { k.cons with r := (k.cons.r + 1) % UINT } }
      if c = C 0x44 then do
        onlyIf (n + 1 < target)
          (update fun k => { k with cons := { k.cons with r := (k.cons.r + UINT - 1) % UINT } })
        pure (n + 1)
      else do
        let copied ← mio (copyoutpg (k.procs p).pagetable dst [c])
        if copied = false then pure (n + 1)
        else if c = 0x0a then pure n
        else consolereadLoop p target n ((dst + 1) % WORD)

/-- The keys that `consoleintr` takes back on control-U. -/
def eraseLine : ℕ → Console → Console
  | 0, c => c
  | fuel + 1, c =>
    if c.e ≠ c.w ∧ c.buf ((c.e + UINT - 1) % UINT % INPUT_MAX) ≠ 0x0a then
      eraseLine fuel { c with e := (c.e + UINT - 1) % UINT }
    else c

def consoleintr (key : Byte) (c : Console) : Console :=
  if key = C 0x55 then eraseLine INPUT_MAX c
  else if key = C 0x48 ∨ key = 0x7f then
    if c.e ≠ c.w then { c with e := (c.e + UINT - 1) % UINT } else c
  else if key ≠ 0 ∧ (c.e + UINT - c.r) % UINT < INPUT_MAX then
    let key := if key = 0x0d then 0x0a else key
    let e := (c.e + 1) % UINT
    let buf := Function.update c.buf (c.e % INPUT_MAX) key
    if key = 0x0a ∨ key = C 0x44 ∨ e = (c.r + INPUT_MAX) % UINT then { c with buf, e, w := e }
    else { c with buf, e }
  else c

/-- The value of an `int` given by its 32 bits. -/
def toInt (n : ℕ) : ℤ := (BitVec.ofNat 32 n).toInt

/-- The conversion of a number to `int`. -/
def asInt (r : ℤ) : ℤ := (BitVec.ofInt 32 r).toInt

def fileread (p : Fin NPROC) (f : Fin NFILE) (addr n : ℕ) : Kio ℤ := do
  let file ← getFile f
  if file.readable = false then pure (-1)
  else if file.type = .device then
    if file.major = CONSOLE then do
      let target := (toInt n).toNat
      let left ← consolereadLoop p target target addr
      pure (target - left)
    else pure (-1)
  else if file.type = .inode then do
    let proc ← getProc p
    fio (ilock proc.pid file.ip)
    match file.ip with
    | none => throw .fault
    | some ip => do
      let (tot, _) ← readi fio proc.pid ip
        (fun tot bytes => mio (copyoutpg proc.pagetable ((addr + tot) % WORD) bytes))
        file.off (n % UINT)
      let ret := asInt tot
      onlyIf (0 < ret) (setFile f ({ · with off := (file.off + n) % UINT }))
      fio (iunlock proc.pid (some ip))
      pure ret
  else pure 0

/-- `filewrite`, which does nothing for a file on disk. -/
def filewrite (p : Fin NPROC) (f : Fin NFILE) (addr n : ℕ) : Kio ℤ := do
  let file ← getFile f
  if file.writable = false then pure (-1)
  else match file.type with
    | .pipe => pure 1
    | .device =>
      if file.major = CONSOLE then do
        let proc ← getProc p
        mio (consolewriteLoop proc.pagetable (toInt n).toNat addr)
        pure (toInt n).toNat
      else pure (-1)
    | .inode => pure 0
    | .none => throw (.panic "filewrite")

/-- The bytes of `struct stat`. -/
def statBytes (ip : Inode) : List Byte :=
  (List.range 24).map fun k =>
    if k < 4 then leByte ip.dev k
    else if k < 8 then leByte ip.inum (k - 4)
    else if k < 10 then leByte ip.din.type (k - 8)
    else if k < 12 then leByte ip.din.nlink (k - 10)
    else if k < 16 then 0
    else leByte ip.din.size (k - 16)

def filestat (p : Fin NPROC) (f : Fin NFILE) (addr : ℕ) : Kio ℤ := do
  let file ← getFile f
  if file.type = .inode ∨ file.type = .device then do
    let proc ← getProc p
    fio (ilock proc.pid file.ip)
    match file.ip with
    | none => throw .fault
    | some i => do
      let ip ← fio (getInode i)
      fio (iunlock proc.pid (some i))
      let copied ← mio (copyoutpg proc.pagetable addr (statBytes ip))
      pure (if copied then 0 else -1)
  else pure (-1)

end Files

section Processes

/-! ### `proc.c` -/

variable (L : Layout)

/-- Places of registers in `struct trapframe`. -/
def EPC : ℕ := 24
def SP : ℕ := 48
def A0 : ℕ := 112
def A1 : ℕ := 120

def initcode : List Byte :=
  [0x17, 0x05, 0x00, 0x00, 0x13, 0x05, 0x45, 0x02,
    0x97, 0x05, 0x00, 0x00, 0x93, 0x85, 0x35, 0x02,
    0x93, 0x08, 0x70, 0x00, 0x73, 0x00, 0x00, 0x00,
    0x93, 0x08, 0x20, 0x00, 0x73, 0x00, 0x00, 0x00,
    0xef, 0xf0, 0x9f, 0xff, 0x2f, 0x69, 0x6e, 0x69,
    0x74, 0x00, 0x00, 0x24, 0x00, 0x00, 0x00, 0x00,
    0x00, 0x00, 0x00, 0x00]

/-- `freeproc`: of all the memory of the process only the trapframe is given back. -/
def freeproc (p : Fin NPROC) : Kio Unit := do
  let proc ← getProc p
  onlyIf (proc.trapframe ≠ 0) (mio (kfree L proc.trapframe))
  setProc p ({ · with trapframe := 0, pid := 0, parent := none, killed := false, state := .unused })

def allocproc : Kio (Option (Fin NPROC)) := do
  let k ← gets id
  match (List.finRange NPROC).find? fun p => (k.procs p).state == .unused with
  | none => pure none
  | some p => do
    setProc p ({ · with pid := k.nextPid, state := .used })
    update ({ · with nextPid := k.nextPid + 1 })
    let trapframe ← mio kalloc
    stopIf (trapframe = 0) (.panic "alloc p->trapframe panic...\n")
    setProc p ({ · with trapframe })
    let pagetable ← mio (procPagetable L trapframe)
    setProc p ({ · with pagetable })
    pure (some p)

def userinit : Kio ℤ := do
  let found ← allocproc L
  update ({ · with initp := found })
  match found with
  | none => throw .fault
  | some p => do
    let proc ← getProc p
    mio (uvminit proc.pagetable initcode)
    setProc p ({ · with sz := PGSIZE })
    mio (update (Vm.store (proc.trapframe + EPC) 0))
    mio (update (Vm.store (proc.trapframe + SP) PGSIZE))
    let pwd ← fio rooti
    setProc p ({ · with pwd := some pwd })
    setProc p ({ · with state := .runnable })
    pure 0

/-- `*(p->trapframe) = *(now->trapframe)`, of 36 words. -/
def copyTrapframe (dst src : ℕ) (v : Vm) : Vm :=
  { v with mem := fun w =>
      if dst / 8 ≤ w ∧ w < dst / 8 + 36 then v.mem (src / 8 + (w - dst / 8)) else v.mem w }

/-- The loop of `fork` over the open files, from descriptor `i` on. -/
def dupFiles (now np : Fin NPROC) : ℕ → ℕ → Kio Unit
  | 0, _ => pure ()
  | n + 1, i => do
    let proc ← getProc now
    match proc.openfs i with
    | some f => do
      let f ← filedup f
      setProc np fun p => { p with openfs := Function.update p.openfs i (some f) }
    | none => pure ()
    dupFiles now np n (i + 1)

def fork (now : Fin NPROC) : Kio ℤ := do
  match ← allocproc L with
  | none => pure (-1)
  | some np => do
    let parent ← getProc now
    let child ← getProc np
    let copied ← mio (uvmcopy L parent.pagetable child.pagetable parent.sz)
    if copied = false then do
      freeproc L np
      pure (-1)
    else do
      setProc np ({ · with sz := parent.sz })
      mio (update (copyTrapframe child.trapframe parent.trapframe))
      mio (update (Vm.store (child.trapframe + A0) 0))
      dupFiles now np OPENFILE 0
      match parent.pwd with
      | none => throw .fault
      | some cwd => do
        let pwd ← fio (idup cwd)
        setProc np ({ · with pwd := some pwd })
        setProc np ({ · with parent := some now })
        setProc np ({ · with state := .runnable })
        pure child.pid

def reparent (p : Fin NPROC) : Kio Unit :=
  update fun k => { k with procs := fun q =>
    if (k.procs q).parent = some p then { k.procs q with parent := k.initp } else k.procs q }

/-- The loop of `exit` over the open files, from descriptor `fd` on. -/
def closeFiles (p : Fin NPROC) : ℕ → ℕ → Kio Unit
  | 0, _ => pure ()
  | n + 1, fd => do
    let proc ← getProc p
    match proc.openfs fd with
    | some f => do
      fileclose proc.pid (some f)
      setProc p fun proc => { proc with openfs := Function.update proc.openfs fd none }
    | none => pure ()
    closeFiles p n (fd + 1)

/-- `exit`, up to the switch to the scheduler from which it does not come back. -/
def exit (p : Fin NPROC) (status : ℕ) : Kio ℤ := do
  let initp ← gets (·.initp)
  stopIf (initp = some p) (.panic "init proc exit")
  closeFiles p OPENFILE 0
  let proc ← getProc p
  match proc.pwd with
  | none => throw .fault
  | some pwd => do
    fio (iput proc.pid pwd)
    setProc p ({ · with pwd := none })
    reparent p
    setProc p ({ · with xstate := status, state := .zombie })
    pure 0

/-- `wait`: the first child in the table that is a zombie is taken away. -/
def wait (p : Fin NPROC) (addr : ℕ) : Kio ℤ := do
  let k ← gets id
  let children := (List.finRange NPROC).filter fun q => (k.procs q).parent == some p
  match children.find? fun q => (k.procs q).state == .zombie with
  | some np => do
    let pid := (k.procs np).pid
    onlyIf (addr ≠ 0) do
      let copied ← mio (copyoutpg (k.procs p).pagetable addr
        ((List.range 4).map (leByte (k.procs np).xstate)))
      stopIf (copied = false) (.panic "wait:copyoutpg -1")
    freeproc L np
    pure pid
  | none => if children = [] ∨ (k.procs p).killed = true then pure (-1) else throw .blocked

end Processes

section Exec

/-! ### `exec.c` -/

variable (L : Layout)

def ELF_MAGIC : ℕ := 0x464C457F
def ELF_PROG_LOAD : ℕ := 1

/-- A little-endian number of `n` bytes in a buffer. -/
def field (bytes : List Byte) (off n : ℕ) : ℕ :=
  (List.range n).foldr (fun k rest => (bytes.getD (off + k) 0).toNat + 256 * rest) 0

/-- The loop of `loadseg` for the given number of pages, from byte `i` on. -/
def loadsegLoop (me pagetable va : ℕ) (ip : Fin INODES) (off sz : ℕ) : ℕ → ℕ → Kio Bool
  | 0, _ => pure true
  | pages + 1, i => do
    let pa ← mio (walkaddr pagetable (va + i))
    stopIf (pa = 0) (.panic "loadseg: address should exist")
    let n := min (sz - i) PGSIZE
    let (r, _) ← readi fio me ip
      (fun tot bytes => do
        mio (update (Vm.writeBytes (pa + tot) bytes))
        pure true) ((off + i) % UINT) n
    if r ≠ n then pure false else loadsegLoop me pagetable va ip off sz pages (i + PGSIZE)

def loadseg (me pagetable va : ℕ) (ip : Fin INODES) (off sz : ℕ) : Kio Bool :=
  loadsegLoop me pagetable va ip off sz ((sz + PGSIZE - 1) / PGSIZE) 0

/-- The loop of `exec` over the program headers; it returns the size reached. -/
def loadLoop (me pagetable : ℕ) (ip : Fin INODES) : ℕ → ℕ → ℕ → Kio ℕ
  | 0, _, sz => pure sz
  | n + 1, off, sz => do
    let (r, ph) ← fio (readk me ip off 56)
    stopIf (r ≠ 56) (.panic "readi from proghdr panic...\n")
    if field ph 0 4 ≠ ELF_PROG_LOAD then loadLoop me pagetable ip n ((off + 56) % UINT) sz
    else do
      let vaddr := field ph 16 8
      let filesz := field ph 32 8
      let memsz := field ph 40 8
      stopIf (memsz < filesz) (.panic "exec() ph.memsz < ph.filesz...\n")
      stopIf ((vaddr + memsz) % WORD < vaddr) (.panic "exec() ph.vaddr + ph.memsz < ph.vaddr...\n")
      let sz1 ← mio (uvmalloc L pagetable sz ((vaddr + memsz) % WORD))
      stopIf (sz1 = 0) (.panic "loadseg uvmalloc panic")
      stopIf (vaddr % PGSIZE ≠ 0) (.panic "exec:(ph.vaddr %% PGSIZE) != 0")
      let loaded ← loadseg me pagetable vaddr ip (field ph 8 8) filesz
      stopIf (loaded = false) (.panic "loadseg panic")
      loadLoop me pagetable ip n ((off + 56) % UINT) sz1

/-- `sp -= n; sp -= sp % 16`. -/
def pushStack (sp n : ℕ) : ℕ :=
  let sp := (sp + WORD - n % WORD) % WORD
  sp - sp % 16

/-- The loop of `exec` over the arguments; it returns the stack pointer and `ustack`. -/
def argLoop (pagetable stackbase : ℕ) : List (List Byte) → ℕ → List ℕ → Mio (ℕ × List ℕ)
  | [], sp, ustack => pure (sp, ustack)
  | arg :: rest, sp, ustack => do
    stopIf (MAXARG ≤ ustack.length) (.panic "argc >= MAXARG")
    let sp := pushStack sp (arg.length + 1)
    stopIf (sp < stackbase) (.panic "exec:sp < stackbase")
    let copied ← copyoutpg pagetable sp (arg ++ [0])
    stopIf (copied = false) (.panic "exec:copyout")
    argLoop pagetable stackbase rest sp (ustack ++ [sp])

/-- The part of `exec` that sets up the user stack. A 33rd word of `ustack` would lie
beyond the array. -/
def pushArgs (pagetable stackbase sp : ℕ) (argv : List (List Byte)) : Mio ℕ := do
  let (sp, ustack) ← argLoop pagetable stackbase argv sp []
  stopIf (MAXARG ≤ ustack.length) .fault
  let words := ustack ++ [0]
  let sp := pushStack sp (words.length * 8)
  stopIf (sp < stackbase) (.panic "if(sp < stackbase)")
  let copied ← copyoutpg pagetable sp (words.flatMap fun w => (List.range 8).map (leByte w))
  stopIf (copied = false) (.panic "exec:copyout")
  pure sp

/-- `exec`; an `argv` that is the null pointer has no arguments. -/
def exec (p : Fin NPROC) (path : List Byte) (argv : List (List Byte)) : Kio ℤ := do
  let proc ← getProc p
  let me := proc.pid
  let app ← fio (rootsub me (strip path))
  fio (ilock me app)
  match app with
  | none => throw (.panic "ilock")
  | some app => do
    let pagetable ← mio (procPagetable L proc.trapframe)
    let (r, elf) ← fio (readk me app 0 64)
    stopIf (r ≠ 64) (.panic "readi panic")
    stopIf (field elf 0 4 ≠ ELF_MAGIC) (.panic "ELF MAGIC Panic")
    let sz ← loadLoop L me pagetable app (field elf 56 2) (field elf 32 8 % UINT) 0
    fio (iunlockput me app)
    let sz := PGROUNDUP sz
    let sz1 ← mio (uvmalloc L pagetable sz ((sz + 2 * PGSIZE) % WORD))
    stopIf (sz1 = 0) (.panic "----")
    mio (uvmclear pagetable (sz1 - 2 * PGSIZE))
    let sp ← mio (pushArgs pagetable (sz1 - PGSIZE) sz1 argv)
    mio (update (Vm.store (proc.trapframe + A1) sp))
    setProc p ({ · with pagetable, sz := sz1 })
    mio (update (Vm.store (proc.trapframe + EPC) (field elf 24 8)))
    mio (update (Vm.store (proc.trapframe + SP) sp))
    mio (procFreepagetable L proc.pagetable proc.sz)
    pure 0

end Exec

section Syscalls

/-! ### `sysfile.c`. Arguments are what `argstr` and `argint` have fetched. -/

variable (L : Layout)

/-- The open file that `argfd` finds. -/
def argfd (p : Fin NPROC) (fd : ℕ) : Kio (Option (Fin NFILE)) := do
  let proc ← getProc p
  pure (if fd < OPENFILE then proc.openfs fd else none)

/-- The first free descriptor of the process. -/
def fdalloc (p : Fin NPROC) (f : Fin NFILE) : Kio (Option ℕ) := do
  let proc ← getProc p
  match (List.range OPENFILE).find? fun fd => proc.openfs fd == none with
  | some fd => do
    setProc p fun proc => { proc with openfs := Function.update proc.openfs fd (some f) }
    pure (some fd)
  | none => pure none

def sysRead (p : Fin NPROC) (fd addr n : ℕ) : Kio ℤ := do
  match ← argfd p fd with
  | none => throw (.panic "sys_read param failure\n")
  | some f => fileread p f addr n

def sysWrite (p : Fin NPROC) (fd addr n : ℕ) : Kio ℤ := do
  match ← argfd p fd with
  | none => pure (-1)
  | some f => filewrite p f addr n

def sysFstat (p : Fin NPROC) (fd addr : ℕ) : Kio ℤ := do
  match ← argfd p fd with
  | none => pure (-1)
  | some f => filestat p f addr

def sysClose (p : Fin NPROC) (fd : ℕ) : Kio ℤ := do
  match ← argfd p fd with
  | none => pure (-1)
  | some f => do
    setProc p fun proc => { proc with openfs := Function.update proc.openfs fd none }
    let proc ← getProc p
    fileclose proc.pid (some f)
    pure 0

def sysDup (p : Fin NPROC) (fd : ℕ) : Kio ℤ := do
  match ← argfd p fd with
  | none => pure (-1)
  | some f => do
    match ← fdalloc p f with
    | none => pure (-1)
    | some new => do
      let _ ← filedup f
      pure new

def sysMknod (p : Fin NPROC) (path : List Byte) (major minor : ℕ) : Kio ℤ := do
  let proc ← getProc p
  let ip ← fio (create proc.pid path T_DEVICE (major % SHORT) (minor % SHORT))
  fio (iunlockput proc.pid ip)
  pure 0

/-- The rest of `sys_open`, from `ilock(ip)` on. The failing branch neither unlocks nor
puts the inode. -/
def openInode (p : Fin NPROC) (ip : Fin INODES) (model : ℕ) : Kio ℤ := do
  let proc ← getProc p
  fio (ilock proc.pid (some ip))
  let inode ← fio (getInode ip)
  stopIf (inode.din.type = T_DEVICE ∧ NDEV ≤ inode.din.major) (.panic "open: ip type error\n")
  match ← filealloc with
  | none => do
    fileclose proc.pid none
    pure (-1)
  | some f => do
    match ← fdalloc p f with
    | none => do
      fileclose proc.pid (some f)
      pure (-1)
    | some fd => do
      if inode.din.type = T_DEVICE then
        setFile f ({ · with type := .device, major := inode.din.major })
      else setFile f ({ · with type := .inode, off := 0 })
      setFile f ({ · with
        ip := some ip
        readable := decide (model &&& O_WRONLY = 0)
        writable := decide (model &&& (O_WRONLY ||| O_RDWR) ≠ 0) })
      fio (iunlock proc.pid (some ip))
      pure fd

def sysOpen (p : Fin NPROC) (path : List Byte) (model : ℕ) : Kio ℤ := do
  let proc ← getProc p
  if model &&& O_CREATE ≠ 0 then do
    let ip ← fio (create proc.pid path T_FILE 0 0)
    openInode p ip model
  else do
    match ← fio (iname proc.pid path) with
    | none => pure (-1)
    | some ip => openInode p ip model

/-- `sys_exec`, which passes no arguments on. -/
def sysExec (p : Fin NPROC) (path : List Byte) : Kio ℤ := exec L p path []

end Syscalls

end HaloOS
