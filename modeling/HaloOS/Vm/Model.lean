import HaloOS.Lib.Exec
import HaloOS.Param

/-! Physical memory, the page allocator and the page tables of `vm.c`. Memory is an
array of 64-bit words; page tables, free-list links and user data all live in it. -/

namespace HaloOS

open Lib

def PGSIZE : ℕ := 4096
def KERNELBASE : ℕ := 0x80000000
def PHYSTOP : ℕ := KERNELBASE + 128 * 1024 * 1024
def MAXVA : ℕ := 2 ^ 38
def TRAMPOLINE : ℕ := MAXVA - PGSIZE
def TRAPFRAME : ℕ := TRAMPOLINE - PGSIZE
def KSTACK (p : ℕ) : ℕ := TRAMPOLINE - (p + 1) * 2 * PGSIZE
def UART : ℕ := 0x10000000
def VIRTIO0 : ℕ := 0x10001000
def PLIC : ℕ := 0x0c000000

def PTE_V : ℕ := 1
def PTE_R : ℕ := 2
def PTE_W : ℕ := 4
def PTE_X : ℕ := 8
def PTE_U : ℕ := 16

/-- `uint64` arithmetic wraps here. -/
def WORD : ℕ := 2 ^ 64

def PGROUNDUP (sz : ℕ) : ℕ := (sz + PGSIZE - 1) % WORD / PGSIZE * PGSIZE
def PGROUNDDOWN (a : ℕ) : ℕ := a / PGSIZE * PGSIZE
def PX (level va : ℕ) : ℕ := va / 2 ^ (12 + 9 * level) % 512
def PA2PTE (pa : ℕ) : ℕ := pa / PGSIZE * 1024
def PTE2PA (pte : ℕ) : ℕ := pte / 1024 * PGSIZE % WORD
def PTE_FLAGS (pte : ℕ) : ℕ := pte % 1024

/-- The addresses that the linker script assigns. -/
structure Layout where
  trampoline : ℕ
  etext : ℕ
  end_ : ℕ
  trampoline_aligned : trampoline % PGSIZE = 0
  trampoline_text : KERNELBASE ≤ trampoline ∧ trampoline + PGSIZE ≤ etext
  text_end : etext ≤ end_
  end_le : end_ ≤ PHYSTOP

/-- Physical memory by word index, and `kmem.freelist` (0 is the null pointer). -/
structure Vm where
  mem : ℕ → ℕ
  freelist : ℕ

namespace Vm

/-- The word at an address. -/
def load (a : ℕ) (v : Vm) : ℕ := v.mem (a / 8)

def store (a w : ℕ) (v : Vm) : Vm := { v with mem := Function.update v.mem (a / 8) w }

/-- `memset(pa, c, PGSIZE)`. -/
def memset (pa c : ℕ) (v : Vm) : Vm :=
  { v with mem := fun w =>
      if w / 512 = pa / PGSIZE then c * 0x0101010101010101 else v.mem w }

/-- `memmove(dst, src, PGSIZE)` between two pages. -/
def copyPage (dst src : ℕ) (v : Vm) : Vm :=
  { v with mem := fun w =>
      if w / 512 = dst / PGSIZE then v.mem (src / 8 + w % 512) else v.mem w }

/-- The byte of a word at one of its eight places. -/
def byteOf (w k : ℕ) : ℕ := w / 256 ^ k % 256

/-- `memmove(dst, src, n)` from a kernel buffer with the given bytes. -/
def writeBytes (dst : ℕ) (bytes : List Byte) (v : Vm) : Vm :=
  { v with mem := fun w =>
      if 8 * w + 8 ≤ dst ∨ dst + bytes.length ≤ 8 * w then v.mem w
      else (List.range 8).foldr (fun k rest =>
        (if dst ≤ 8 * w + k ∧ 8 * w + k < dst + bytes.length then
          (bytes.getD (8 * w + k - dst) 0).toNat
        else byteOf (v.mem w) k) + 256 * rest) 0 }

end Vm

abbrev Mio := Exec Stop Vm

variable (L : Layout)

def kfree (pa : ℕ) : Mio Unit := do
  stopIf (pa % PGSIZE ≠ 0 ∨ pa < L.end_ ∨ PHYSTOP ≤ pa) (.panic "kfree")
  update (Vm.memset pa 1)
  update fun v => { v.store pa v.freelist with freelist := pa }

def kalloc : Mio ℕ := do
  let r ← gets (·.freelist)
  onlyIf (r ≠ 0) do
    update fun v => { v with freelist := v.load r }
    update (Vm.memset r 5)
  pure r

/-- The loop of `walk` from `level` downwards. -/
def walkFrom (va : ℕ) (alloc : Bool) : ℕ → ℕ → Mio ℕ
  | 0, pagetable => pure (pagetable + 8 * PX 0 va)
  | level + 1, pagetable => do
    let pte := pagetable + 8 * PX (level + 1) va
    let entry ← gets (Vm.load pte)
    if entry &&& PTE_V ≠ 0 then walkFrom va alloc level (PTE2PA entry)
    else if alloc = false then pure 0
    else do
      let page ← kalloc
      if page = 0 then pure 0
      else do
        update (Vm.memset page 0)
        update (Vm.store pte (PA2PTE page ||| PTE_V))
        walkFrom va alloc level page

/-- `walk`: the address of the leaf entry, 0 where there is none. -/
def walk (pagetable va : ℕ) (alloc : Bool) : Mio ℕ := do
  stopIf (MAXVA ≤ va) (.panic "walk")
  walkFrom va alloc 2 pagetable

/-- The loop of `mappages` for the given number of pages. -/
def mapLoop (pagetable perm : ℕ) : ℕ → ℕ → ℕ → Mio Bool
  | 0, _, _ => pure true
  | n + 1, a, pa => do
    let pte ← walk pagetable a true
    if pte = 0 then pure false
    else do
      let entry ← gets (Vm.load pte)
      stopIf (entry &&& PTE_V ≠ 0) (.panic "mappages: remap")
      update (Vm.store pte (PA2PTE pa ||| perm ||| PTE_V))
      mapLoop pagetable perm n ((a + PGSIZE) % WORD) ((pa + PGSIZE) % WORD)

/-- `mappages`; `true` stands for 0 and `false` for -1. The loop ends where `a` meets
`last`. -/
def mappages (pagetable va size pa perm : ℕ) : Mio Bool := do
  stopIf (size = 0) (.panic "mappages: size")
  let a := PGROUNDDOWN va
  let last := PGROUNDDOWN ((va + size - 1) % WORD)
  mapLoop pagetable perm ((last + WORD - a) % WORD / PGSIZE + 1) a pa

/-- The loop of `uvmunmap` for the given number of pages. -/
def unmapLoop (pagetable : ℕ) (doFree : Bool) : ℕ → ℕ → Mio Unit
  | 0, _ => pure ()
  | n + 1, a => do
    let pte ← walk pagetable a false
    stopIf (pte = 0) (.panic "uvmunmap: walk")
    let entry ← gets (Vm.load pte)
    stopIf (entry &&& PTE_V = 0) (.panic "uvmunmap: not mapped")
    stopIf (PTE_FLAGS entry = PTE_V) (.panic "uvmunmap: not a leaf")
    onlyIf (doFree = true) (kfree L (PTE2PA entry))
    update (Vm.store pte 0)
    unmapLoop pagetable doFree n (a + PGSIZE)

def uvmunmap (pagetable va npages : ℕ) (doFree : Bool) : Mio Unit := do
  stopIf (va % PGSIZE ≠ 0) (.panic "uvmunmap: not aligned")
  unmapLoop L pagetable doFree (((va + npages * PGSIZE) % WORD - va) / PGSIZE) va

def uvmdealloc (pagetable oldsz newsz : ℕ) : Mio ℕ := do
  if oldsz ≤ newsz then pure oldsz
  else do
    onlyIf (PGROUNDUP newsz < PGROUNDUP oldsz)
      (uvmunmap L pagetable (PGROUNDUP newsz)
        ((PGROUNDUP oldsz - PGROUNDUP newsz) / PGSIZE) true)
    pure newsz

/-- The loop of `uvmalloc` for the given number of pages. -/
def allocLoop (pagetable oldsz newsz : ℕ) : ℕ → ℕ → Mio ℕ
  | 0, _ => pure newsz
  | n + 1, a => do
    let mem ← kalloc
    if mem = 0 then do
      let _ ← uvmdealloc L pagetable a oldsz
      pure 0
    else do
      update (Vm.memset mem 0)
      let mapped ← mappages pagetable a PGSIZE mem (PTE_W ||| PTE_X ||| PTE_R ||| PTE_U)
      if mapped then allocLoop pagetable oldsz newsz n (a + PGSIZE)
      else do
        kfree L mem
        let _ ← uvmdealloc L pagetable a oldsz
        pure 0

def uvmalloc (pagetable oldsz newsz : ℕ) : Mio ℕ :=
  if newsz < oldsz then pure oldsz
  else
    let base := PGROUNDUP oldsz
    allocLoop L pagetable base newsz ((newsz - base + PGSIZE - 1) / PGSIZE) base

/-- The loop of `freewalk` over the entries from `i` on. -/
def freeEntries (sub : ℕ → Mio Unit) (pagetable : ℕ) : ℕ → ℕ → Mio Unit
  | 0, _ => pure ()
  | n + 1, i => do
    let pte ← gets (Vm.load (pagetable + 8 * i))
    if pte &&& PTE_V ≠ 0 ∧ pte &&& (PTE_R ||| PTE_W ||| PTE_X) = 0 then do
      sub (PTE2PA pte)
      update (Vm.store (pagetable + 8 * i) 0)
    else stopIf (pte &&& PTE_V ≠ 0) (.panic "freewalk: leaf")
    freeEntries sub pagetable n (i + 1)

/-- `freewalk`; the recursion goes as deep as the kernel stack allows. -/
def freewalk : ℕ → ℕ → Mio Unit
  | 0, _ => throw .fault
  | depth + 1, pagetable => do
    freeEntries (freewalk depth) pagetable 512 0
    kfree L pagetable

/-- Frames of `freewalk` that fit on a kernel stack of one page. -/
def STACKDEPTH : ℕ := 32

def uvmfree (pagetable sz : ℕ) : Mio Unit := do
  onlyIf (0 < sz) (uvmunmap L pagetable 0 (PGROUNDUP sz / PGSIZE) true)
  freewalk L STACKDEPTH pagetable

def procFreepagetable (pagetable sz : ℕ) : Mio Unit := do
  uvmunmap L pagetable TRAMPOLINE 1 false
  uvmunmap L pagetable TRAPFRAME 1 false
  uvmfree L pagetable sz

/-- The loop of `uvmcopy` for the given number of pages. -/
def copyLoop (old new : ℕ) : ℕ → ℕ → Mio Bool
  | 0, _ => pure true
  | n + 1, i => do
    let pte ← walk old i false
    stopIf (pte = 0) (.panic "uvmcopy: pte should exist")
    let entry ← gets (Vm.load pte)
    stopIf (entry &&& PTE_V = 0) (.panic "uvmcopy: page not present")
    let mem ← kalloc
    if mem = 0 then do
      uvmunmap L new 0 (i / PGSIZE) true
      pure false
    else do
      update (Vm.copyPage mem (PTE2PA entry))
      let mapped ← mappages new i PGSIZE mem (PTE_FLAGS entry)
      if mapped then copyLoop old new n (i + PGSIZE)
      else do
        kfree L mem
        uvmunmap L new 0 (i / PGSIZE) true
        pure false

def uvmcopy (old new sz : ℕ) : Mio Bool :=
  copyLoop L old new ((sz + PGSIZE - 1) / PGSIZE) 0

def uvmclear (pagetable va : ℕ) : Mio Unit := do
  let pte ← walk pagetable va false
  stopIf (pte = 0) (.panic "uvmclear")
  update fun v => v.store pte (v.load pte - (v.load pte &&& PTE_U))

def uvmcreate : Mio ℕ := do
  let pagetable ← kalloc
  stopIf (pagetable = 0) (.panic "uvmcreate kalloc panic..\n")
  update (Vm.memset pagetable 0)
  pure pagetable

/-- `proc_pagetable` of `proc.c`: a table with the trampoline and the trapframe. -/
def procPagetable (trapframe : ℕ) : Mio ℕ := do
  let pagetable ← uvmcreate
  stopIf (pagetable = 0) (.panic "proc_pagetable: uvmcreate")
  let mapped ← mappages pagetable TRAMPOLINE PGSIZE L.trampoline (PTE_R ||| PTE_X)
  stopIf (mapped = false) (.panic "------proc_pagetable : trampoline")
  let mapped ← mappages pagetable TRAPFRAME PGSIZE trapframe (PTE_R ||| PTE_W)
  stopIf (mapped = false) (.panic "------proc_pagetable : p->trapframe")
  pure pagetable

/-- `uvminit`, which looks at the result neither of `kalloc` nor of `mappages`. -/
def uvminit (pagetable : ℕ) (src : List Byte) : Mio Unit := do
  stopIf (PGSIZE < src.length) (.panic "inituvm: more than a page")
  let mem ← kalloc
  stopIf (mem = 0) .fault
  update (Vm.memset mem 0)
  let _ ← mappages pagetable 0 PGSIZE mem (PTE_W ||| PTE_R ||| PTE_X ||| PTE_U)
  update (Vm.writeBytes mem src)

def walkaddr (pagetable va : ℕ) : Mio ℕ := do
  if MAXVA ≤ va then pure 0
  else do
    let pte ← walk pagetable va false
    stopIf (pte = 0) (.panic "walkaddr:pte:0")
    let entry ← gets (Vm.load pte)
    stopIf (entry &&& PTE_V = 0) (.panic "walkaddr:PTE_V")
    stopIf (entry &&& PTE_U = 0) (.panic "walkaddr:PTE_U")
    stopIf (PTE2PA entry = 0) (.panic "walkaddr: pa is zero")
    pure (PTE2PA entry)

/-- The loop of `copyoutpg`; every round copies at least one byte. -/
def copyoutLoop (pagetable : ℕ) : ℕ → ℕ → List Byte → Mio Bool
  | 0, _, _ => pure true
  | fuel + 1, dstva, src => do
    if src = [] then pure true
    else do
      let va0 := PGROUNDDOWN dstva
      let pa0 ← walkaddr pagetable va0
      if pa0 = 0 then pure false
      else do
        let n := min (PGSIZE - (dstva - va0)) src.length
        update (Vm.writeBytes (pa0 + (dstva - va0)) (src.take n))
        copyoutLoop pagetable fuel (va0 + PGSIZE) (src.drop n)

/-- `copyoutpg`; `true` stands for 0 and `false` for -1. -/
def copyoutpg (pagetable dstva : ℕ) (src : List Byte) : Mio Bool :=
  copyoutLoop pagetable src.length dstva src

/-- `freerange`, page by page up to `PHYSTOP`. -/
def freeLoop : ℕ → ℕ → Mio Unit
  | 0, _ => pure ()
  | n + 1, p => do
    kfree L p
    freeLoop n (p + PGSIZE)

def freerange (paStart paEnd : ℕ) : Mio Unit :=
  freeLoop L ((paEnd - PGROUNDUP paStart) / PGSIZE) (PGROUNDUP paStart)

def kvmmap (kpg va pa sz perm : ℕ) : Mio Unit := do
  let mapped ← mappages kpg va sz pa perm
  stopIf (mapped = false) (.panic "kvmmap")

/-- `proc_mapstacks` for the processes from `p` on. -/
def procMapstacks (pg : ℕ) : ℕ → ℕ → Mio Unit
  | 0, _ => pure ()
  | n + 1, p => do
    let pa ← kalloc
    stopIf (pa = 0) (.panic "proc_mapstacks kalloc...\n")
    kvmmap pg (KSTACK p) pa PGSIZE (PTE_R ||| PTE_W)
    procMapstacks pg n (p + 1)

def kvmmake : Mio ℕ := do
  let kpg ← kalloc
  stopIf (kpg = 0) .fault
  update (Vm.memset kpg 0)
  kvmmap kpg UART UART PGSIZE (PTE_R ||| PTE_W)
  kvmmap kpg VIRTIO0 VIRTIO0 PGSIZE (PTE_R ||| PTE_W)
  kvmmap kpg PLIC PLIC 0x400000 (PTE_R ||| PTE_W)
  kvmmap kpg KERNELBASE KERNELBASE (L.etext - KERNELBASE) (PTE_R ||| PTE_X)
  kvmmap kpg L.etext L.etext (PHYSTOP - L.etext) (PTE_R ||| PTE_W)
  kvmmap kpg TRAMPOLINE L.trampoline PGSIZE (PTE_R ||| PTE_X)
  procMapstacks kpg NPROC 0
  pure kpg

/-- `kinit`: all memory above the kernel goes to the free list, then the kernel's own
page table is built from it. -/
def kinit : Mio ℕ := do
  freerange L L.end_ PHYSTOP
  kvmmake L

end HaloOS
