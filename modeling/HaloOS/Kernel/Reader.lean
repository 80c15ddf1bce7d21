import HaloOS.Kernel.Image

/-! The program text of `exec` does not depend on how `readi` works. Here `exec` takes what it reads the
file with as a parameter; with `readi` in its place it is the `exec` of the kernel. -/

namespace HaloOS

open Lib

variable {E : Stop → Prop} {L : Layout}

/-- What `exec` reads a file with: into a variable of its own, and through `copyout` into memory. -/
structure Reader where
  header : (me : ℕ) → (ip : Fin INODES) → (off n : ℕ) → Kio (ℤ × List Byte)
  segment : (me : ℕ) → (ip : Fin INODES) → (copyout : ℕ → List Byte → Kio Bool) → (off n : ℕ) →
    Kio (ℤ × List Byte)

def readiReader : Reader where
  header := fun me ip off n => fio (readk me ip off n)
  segment := readi fio

section Exec

variable (rd : Reader) (L)

def loadsegLoopWith (me pagetable va : ℕ) (ip : Fin INODES) (off sz : ℕ) : ℕ → ℕ → Kio Bool
  | 0, _ => pure true
  | pages + 1, i => do
    let pa ← mio (walkaddr pagetable (va + i))
    stopIf (pa = 0) (.panic "loadseg: address should exist")
    let n := min (sz - i) PGSIZE
    let (r, _) ← rd.segment me ip
      (fun tot bytes => do
        mio (update (Vm.writeBytes (pa + tot) bytes))
        pure true) ((off + i) % UINT) n
    if r ≠ n then pure false else loadsegLoopWith me pagetable va ip off sz pages (i + PGSIZE)

def loadsegWith (me pagetable va : ℕ) (ip : Fin INODES) (off sz : ℕ) : Kio Bool :=
  loadsegLoopWith rd me pagetable va ip off sz ((sz + PGSIZE - 1) / PGSIZE) 0

def loadLoopWith (me pagetable : ℕ) (ip : Fin INODES) : ℕ → ℕ → ℕ → Kio ℕ
  | 0, _, sz => pure sz
  | n + 1, off, sz => do
    let (r, ph) ← rd.header me ip off 56
    stopIf (r ≠ 56) (.panic "readi from proghdr panic...\n")
    if field ph 0 4 ≠ ELF_PROG_LOAD then loadLoopWith me pagetable ip n ((off + 56) % UINT) sz
    else do
      let vaddr := field ph 16 8
      let filesz := field ph 32 8
      let memsz := field ph 40 8
      stopIf (memsz < filesz) (.panic "exec() ph.memsz < ph.filesz...\n")
      stopIf ((vaddr + memsz) % WORD < vaddr) (.panic "exec() ph.vaddr + ph.memsz < ph.vaddr...\n")
      let sz1 ← mio (uvmalloc L pagetable sz ((vaddr + memsz) % WORD))
      stopIf (sz1 = 0) (.panic "loadseg uvmalloc panic")
      stopIf (vaddr % PGSIZE ≠ 0) (.panic "exec:(ph.vaddr %% PGSIZE) != 0")
      let loaded ← loadsegWith rd me pagetable vaddr ip (field ph 8 8) filesz
      stopIf (loaded = false) (.panic "loadseg panic")
      loadLoopWith me pagetable ip n ((off + 56) % UINT) sz1

/-- `exec` before it looks at the arguments: a table with the program and room for the stack, its size,
and the header of the file. -/
def prepareWith (proc : Proc) (path : List Byte) : Kio (ℕ × ℕ × List Byte) := do
  let me := proc.pid
  let app ← fio (rootsub me (strip path))
  fio (ilock me app)
  match app with
  | none => throw (.panic "ilock")
  | some app => do
    let pagetable ← mio (procPagetable L proc.trapframe)
    let (r, elf) ← rd.header me app 0 64
    stopIf (r ≠ 64) (.panic "readi panic")
    stopIf (field elf 0 4 ≠ ELF_MAGIC) (.panic "ELF MAGIC Panic")
    let sz ← loadLoopWith L rd me pagetable app (field elf 56 2) (field elf 32 8 % UINT) 0
    fio (iunlockput me app)
    let sz := PGROUNDUP sz
    let sz1 ← mio (uvmalloc L pagetable sz ((sz + 2 * PGSIZE) % WORD))
    stopIf (sz1 = 0) (.panic "----")
    mio (uvmclear pagetable (sz1 - 2 * PGSIZE))
    pure (pagetable, sz1, elf)

/-- The rest of `exec`. -/
def finishExec (p : Fin NPROC) (proc : Proc) (pagetable sz1 : ℕ) (elf : List Byte) (argv : List (List Byte)) :
    Kio ℤ := do
  let sp ← mio (pushArgs pagetable (sz1 - PGSIZE) sz1 argv)
  mio (update (Vm.store (proc.trapframe + A1) sp))
  setProc p ({ · with pagetable, sz := sz1 })
  mio (update (Vm.store (proc.trapframe + EPC) (field elf 24 8)))
  mio (update (Vm.store (proc.trapframe + SP) sp))
  mio (procFreepagetable L proc.pagetable proc.sz)
  pure 0

def execWith (p : Fin NPROC) (path : List Byte) (argv : List (List Byte)) : Kio ℤ := do
  let proc ← getProc p
  let (pagetable, sz1, elf) ← prepareWith L rd proc path
  finishExec L p proc pagetable sz1 elf argv

theorem loadsegLoop_eq (me pagetable va : ℕ) (ip : Fin INODES) (off sz count i : ℕ) :
    loadsegLoop me pagetable va ip off sz count i =
      loadsegLoopWith readiReader me pagetable va ip off sz count i := by
  induction count generalizing i with
  | zero => rfl
  | succ count ih =>
    unfold loadsegLoop loadsegLoopWith
    simp only [ih]
    rfl

theorem loadLoop_eq (me pagetable : ℕ) (ip : Fin INODES) (count off sz : ℕ) :
    loadLoop L me pagetable ip count off sz = loadLoopWith L readiReader me pagetable ip count off sz := by
  induction count generalizing off sz with
  | zero => rfl
  | succ count ih =>
    unfold loadLoop loadLoopWith loadseg loadsegWith
    simp only [ih, loadsegLoop_eq]
    rfl

/-- With `readi` it is the `exec` of the kernel. -/
theorem exec_eq (p : Fin NPROC) (path : List Byte) (argv : List (List Byte)) :
    exec L p path argv = execWith L readiReader p path argv := by
  unfold exec execWith prepareWith finishExec
  refine bind_congr fun proc => ?_
  simp only [loadLoop_eq, bind_assoc]
  refine bind_congr fun app => bind_congr fun _ => ?_
  cases app with
  | none => rfl
  | some app =>
    simp only [bind_assoc, pure_bind]
    rfl

end Exec

/-- The reader delivers bytes of the file in order: what it reads from a place of an inode satisfies
`ok`. Whatever the copies and the work on the file system keep, it keeps. -/
structure Reader.Delivers (rd : Reader) (E : Stop → Prop) (ok : Fin INODES → ℕ → ℕ → List Byte → Prop) :
    Prop where
  header : ∀ me ip off n k, Sat (rd.header me ip off n) k E fun r k' =>
    (∃ fs, k' = { k with fs }) ∧ (r.1 = n → ok ip off n r.2)
  segment : ∀ me ip copyout off n (I : ℕ → Kernel → Prop) k,
    (∀ tot k fs, I tot k → I tot { k with fs }) →
    (∀ tot bytes k, tot + bytes.length ≤ n → ok ip (off + tot) bytes.length bytes → I tot k →
      Sat (copyout tot bytes) k E fun _ k' => I (tot + bytes.length) k') → I 0 k →
    Sat (rd.segment me ip copyout off n) k E fun r k' => ∃ tot, I tot k' ∧ (r.1 = n → tot = n)

/-- `readi` keeps whatever copying its bytes out and the file system keep. -/
theorem readiReader_delivers (gentle : ∀ e, Gentle e → E e) :
    readiReader.Delivers E fun _ _ _ _ => True := by
  have lift : ∀ {α : Type} {m : Fio α} {I : Kernel → Prop} (k : Kernel), Stops Gentle m →
      (∀ k fs, I k → I { k with fs }) → I k → Sat (fio m) k E fun _ k' => I k' := by
    intro α m I k calm keeps holds
    refine ((calm.sat_zoom k).weaken gentle).mono ?_
    rintro _ _ ⟨fs, rfl⟩
    exact keeps k fs holds
  refine ⟨fun me ip off n k => ?_, fun me ip copyout off n I k keeps copies start => ?_⟩
  · refine (((readk_calm me ip off n).sat_zoom k).weaken gentle).mono ?_
    rintro _ _ ⟨fs, rfl⟩
    exact ⟨⟨fs, rfl⟩, fun _ => trivial⟩
  have loop : ∀ fuel n' tot done k, n' ≤ n → I tot k →
      Sat (readiLoop HaloOS.fio me ip copyout off n' fuel tot done) k E fun r k' =>
        ∃ tot, I tot k' ∧ (r.1 = n → tot = n) := by
    intro fuel
    induction fuel with
    | zero => exact fun _ tot _ _ _ holds => Sat.pure ⟨tot, holds, fun same => by simpa using same⟩
    | succ fuel ih =>
      intro n' tot done k small holds
      unfold readiLoop
      refine Sat.ite (fun _ => Sat.pure ⟨tot, holds, fun same => by simpa using same⟩) fun more => ?_
      refine Sat.bind (lift k (bmap_calm me ip _) (keeps tot) holds) fun addr k₁ holds₁ => ?_
      refine Sat.bind (lift k₁ (.gets _) (keeps tot) holds₁) fun inode k₂ holds₂ => ?_
      refine Sat.bind (lift k₂ (.zoom (bread_calm me _ _)) (keeps tot) holds₂) fun b k₃ holds₃ => ?_
      refine Sat.bind (lift k₃ (.zoom (.gets _)) (keeps tot) holds₃) fun data k₄ holds₄ => ?_
      have length : ((List.range (min (n' - tot) (BSIZE - off % BSIZE))).map
          fun k => data (off % BSIZE + k)).length = min (n' - tot) (BSIZE - off % BSIZE) := by simp
      refine Sat.bind (copies tot _ k₄ (by rw [length]; omega) trivial holds₄) fun copied k₅ holds₅ => ?_
      rw [length] at holds₅
      refine Sat.bind (lift k₅ (.zoom (brelease_calm me b)) (keeps _) holds₅) fun _ k₆ holds₆ => ?_
      exact Sat.ite (fun _ => ih _ _ _ k₆ small holds₆) fun _ =>
        Sat.pure ⟨_, holds₆, fun same => by simp at same⟩
  change Sat (readi fio me ip copyout off n) k E _
  unfold readi
  refine Sat.bind (lift k (.gets _) (keeps 0) start) fun inode k₁ holds => ?_
  refine Sat.ite (fun _ => Sat.pure ⟨0, holds, fun same => by dsimp only at same; omega⟩) fun _ => ?_
  dsimp only
  split
  · exact loop _ _ _ _ k₁ (by omega) holds
  · exact loop _ _ _ _ k₁ (le_refl _) holds

theorem readi_keeps {I : Kernel → Prop} {me : ℕ} {ip : Fin INODES} {copyout : ℕ → List Byte → Kio Bool}
    {off n : ℕ} {k : Kernel} (fsOk : ∀ k fs, I k → I { k with fs })
    (copy : ∀ tot bytes k, tot + bytes.length ≤ n → I k →
      Sat (copyout tot bytes) k Harmless fun _ k' => I k') (start : I k) :
    Sat (readi fio me ip copyout off n) k Harmless fun _ k' => I k' :=
  ((readiReader_delivers fun _ gentle => gentle.1).segment me ip copyout off n (fun _ => I) k (fun _ => fsOk)
    (fun tot bytes k fits _ => copy tot bytes k fits) start).mono fun _ _ ⟨_, kept, _⟩ => kept

end HaloOS
