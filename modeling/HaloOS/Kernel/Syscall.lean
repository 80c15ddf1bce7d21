import HaloOS.Kernel.Growproc
import HaloOS.Vm.Copyinstr

/-! The way into the kernel: `syscall.c`, the part of `sysfile.c` and `sysproc.c` that fetches
arguments, and what `usertrap` does for a system call. -/

namespace HaloOS

open Lib

def SYS_WRITE : ℕ := 1
def SYS_EXEC : ℕ := 2
def SYS_DUP : ℕ := 3
def SYS_OPEN : ℕ := 4
def SYS_WAIT : ℕ := 5
def SYS_MKNOD : ℕ := 6
def SYS_EXEC2 : ℕ := 7
def SYS_FORK : ℕ := 8
def SYS_READ : ℕ := 9
def SYS_EXIT : ℕ := 10
def SYS_SBRK : ℕ := 11
def SYS_FSTAT : ℕ := 12
def SYS_CLOSE : ℕ := 13

def MAXPATH : ℕ := 128

/-- The place of `a7` in `struct trapframe`. -/
def A7 : ℕ := 168

section Arguments

/-- A word of the trapframe of a process. -/
def trapword (p : Fin NPROC) (off : ℕ) : Kio ℕ := gets fun k => k.vm.load ((k.procs p).trapframe + off)

def setTrapword (p : Fin NPROC) (off x : ℕ) : Kio Unit := do
  let proc ← getProc p
  mio (update (Vm.store (proc.trapframe + off) x))

def argraw (p : Fin NPROC) (n : ℕ) : Kio ℕ := do
  stopIf (6 ≤ n) (.panic "argraw")
  trapword p (A0 + 8 * n)

def argaddr (p : Fin NPROC) (n : ℕ) : Kio ℕ := argraw p n

/-- `argint`: the 32 bits of an `int`. -/
def argint (p : Fin NPROC) (n : ℕ) : Kio ℕ := do
  let raw ← argraw p n
  pure (raw % UINT)

/-- `argstr` with a buffer of `size` bytes: the string without its NUL. -/
def argstr (p : Fin NPROC) (n size : ℕ) : Kio (List Byte) := do
  let addr ← argaddr p n
  let proc ← getProc p
  let (len, buf) ← mio (fetchstr proc.pagetable addr size)
  pure (buf.take len)

end Arguments

namespace Syscall

variable (L : Layout) (p : Fin NPROC)

def sysWrite : Kio ℤ := do
  let fd ← argint p 0
  let n ← argint p 2
  let addr ← argaddr p 1
  HaloOS.sysWrite p fd addr n

def sysRead : Kio ℤ := do
  let fd ← argint p 0
  let n ← argint p 2
  let addr ← argaddr p 1
  HaloOS.sysRead p fd addr n

def sysExec : Kio ℤ := do
  let name ← argstr p 0 MAXPATH
  HaloOS.sysExec L p name

def sysDup : Kio ℤ := do
  let fd ← argint p 0
  HaloOS.sysDup p fd

def sysOpen : Kio ℤ := do
  let path ← argstr p 0 MAXPATH
  let model ← argint p 1
  HaloOS.sysOpen p path model

def sysWait : Kio ℤ := do
  let addr ← argaddr p 0
  wait L p addr

def sysMknod : Kio ℤ := do
  let path ← argstr p 0 MAXPATH
  let major ← argint p 1
  let minor ← argint p 2
  HaloOS.sysMknod p path major minor

def sysFork : Kio ℤ := fork L p

/-- `sys_exit`, up to the `exit` from which it does not come back. -/
def sysExit : Kio ℤ := do
  let n ← argint p 0
  exit p n

def sysSbrk : Kio ℤ := do
  let n ← argint p 0
  let proc ← getProc p
  let grown ← growproc L p (toInt n)
  pure (if grown < 0 then -1 else toInt (proc.sz % UINT))

def sysFstat : Kio ℤ := do
  let fd ← argint p 0
  let st ← argaddr p 1
  HaloOS.sysFstat p fd st

def sysClose : Kio ℤ := do
  let fd ← argint p 0
  HaloOS.sysClose p fd

end Syscall

section Dispatch

variable (L : Layout) (p : Fin NPROC)

/-- The table `syscalls`. -/
def syscalls (num : ℕ) : Option (Kio ℤ) :=
  if num = SYS_WRITE then some (Syscall.sysWrite p)
  else if num = SYS_EXEC ∨ num = SYS_EXEC2 then some (Syscall.sysExec L p)
  else if num = SYS_DUP then some (Syscall.sysDup p)
  else if num = SYS_OPEN then some (Syscall.sysOpen p)
  else if num = SYS_WAIT then some (Syscall.sysWait L p)
  else if num = SYS_MKNOD then some (Syscall.sysMknod p)
  else if num = SYS_FORK then some (Syscall.sysFork L p)
  else if num = SYS_READ then some (Syscall.sysRead p)
  else if num = SYS_EXIT then some (Syscall.sysExit p)
  else if num = SYS_SBRK then some (Syscall.sysSbrk L p)
  else if num = SYS_FSTAT then some (Syscall.sysFstat p)
  else if num = SYS_CLOSE then some (Syscall.sysClose p)
  else none

/-- `syscall`: the result goes to the caller's `a0`. An `int num` that is negative is a number beyond
the table. -/
def syscall : Kio Unit := do
  let a7 ← trapword p A7
  match syscalls L p (a7 % UINT) with
  | some call => do
    let r ← call
    -- `exit` does not come back to the store
    onlyIf (a7 % UINT ≠ SYS_EXIT) (setTrapword p A0 (r % WORD).toNat)
  | none => setTrapword p A0 (WORD - 1)

/-- The part of `usertrap` for an `ecall`, with the `epc` that it has saved. -/
def usertrapEcall : Kio Unit := do
  let proc ← getProc p
  if proc.killed = true then do
    let _ ← exit p (UINT - 1)
    pure ()
  else do
    let epc ← trapword p EPC
    setTrapword p EPC ((epc + 4) % WORD)
    syscall L p

end Dispatch

end HaloOS
