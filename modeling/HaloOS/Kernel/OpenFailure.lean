import HaloOS.Fs.Locks
import HaloOS.Kernel.Runs

/-! `sys_open` where a table is full. By then the inode has been referenced and locked, and
the branch that reports the failure gives neither back; it also closes the file that
`filealloc` did not return. -/

namespace HaloOS

open Lib

variable {k k' : Kernel} {p : Fin NPROC} {path : List Byte} {model : ℕ} {ip : Fin INODES}

/-- No file or no descriptor of the process is free. -/
def Kernel.Exhausted (k : Kernel) (p : Fin NPROC) : Prop :=
  (∀ f, (k.files f).ref ≠ 0) ∨ ∀ fd < OPENFILE, (k.procs p).openfs fd ≠ none

/-- What a failed `open` should leave as it was. -/
structure Kernel.Restored (k k' : Kernel) (p : Fin NPROC) : Prop where
  files : k'.files = k.files
  openfs : (k'.procs p).openfs = (k.procs p).openfs
  refs : ∀ i, (k'.fs.inodes i).ref = (k.fs.inodes i).ref
  inodeLocks : ∀ i, (k'.fs.inodes i).splock = (k.fs.inodes i).splock
  bufferLocks : ∀ b, (k'.fs.cache.bufs b).sk = (k.fs.cache.bufs b).sk

/-- `sys_open` returns -1 and undoes what it did. -/
def FailsCleanly (k : Kernel) (p : Fin NPROC) (path : List Byte) (model : ℕ) : Prop :=
  ∃ k', sysOpen p path model k = .ok (-1, k') ∧ k.Restored k' p

/-- The inode locks of the kernel that are held stay so. -/
def Kernel.KeepsLocked (k k' : Kernel) : Prop := k.fs.KeepsLocked k'.fs

instance : Std.Refl Kernel.KeepsLocked where
  refl := fun k => refl_of Fs.KeepsLocked k.fs

instance : IsTrans Kernel Kernel.KeepsLocked where
  trans := fun _ _ _ first second => trans_of Fs.KeepsLocked first second

theorem fio_keepsLocked {α : Type} {m : Fio α} (frame : Frames Fs.KeepsLocked m) :
    Frames Kernel.KeepsLocked (fio m) := .zoom frame fun _ _ kept => kept

theorem setFile_keepsLocked (f : Fin NFILE) (g : File → File) :
    Frames Kernel.KeepsLocked (setFile f g) := .update fun k => refl_of Fs.KeepsLocked k.fs

theorem fileclose_keepsLocked (me : ℕ) (f : Fin NFILE) :
    Frames Kernel.KeepsLocked (fileclose me (some f)) := by
  unfold fileclose
  refine .bind (.gets _) fun ff => .bind (.stopIf _) fun _ => .ite (setFile_keepsLocked f _) ?_
  refine .bind (setFile_keepsLocked f _) fun _ => .ite ?_ (.pure _)
  split
  · exact fio_keepsLocked (iput_keepsLocked me _)
  · exact .throw _

theorem filealloc_full (full : ∀ f, (k.files f).ref ≠ 0) : filealloc k = .ok (none, k) := by
  have none : (List.finRange NFILE).find? (fun f => (k.files f).ref == 0) = none := by
    rw [List.find?_eq_none]
    intro f _
    simpa using full f
  unfold filealloc
  rw [bind_run, gets_run]
  simp only [id_eq, none]
  rfl

theorem fdalloc_full (full : ∀ fd < OPENFILE, (k.procs p).openfs fd ≠ none) (f : Fin NFILE) :
    fdalloc p f k = .ok (none, k) := by
  have none : (List.range OPENFILE).find? (fun fd => (k.procs p).openfs fd == none) = none := by
    rw [List.find?_eq_none]
    intro fd member
    simpa using full fd (List.mem_range.mp member)
  unfold fdalloc getProc
  rw [bind_run, gets_run]
  simp only [none]
  rfl

/-- `filealloc` stores into the table of files and nothing else. -/
theorem filealloc_apart (k : Kernel) :
    Sat filealloc k anyStop fun _ k' => k'.fs = k.fs ∧ k'.procs = k.procs := by
  unfold filealloc
  refine Sat.bind (Sat.gets (Q := fun _ s => k = s) rfl) ?_
  rintro _ _ rfl
  split
  · exact Sat.bind (Sat.update (Q := fun _ s => s.fs = k.fs ∧ s.procs = k.procs) ⟨rfl, rfl⟩)
      fun _ _ same => Sat.pure same
  · exact Sat.pure ⟨rfl, rfl⟩

/-- Where a table is full, the rest of `sys_open` stops or leaves the inode locked. -/
theorem openInode_locked {r : ℤ} (full : k.Exhausted p)
    (returned : openInode p ip model k = .ok (r, k')) :
    ¬ k.fs.Locked ip ∧ k'.fs.Locked ip := by
  unfold openInode at returned
  obtain ⟨proc, _, first, rest⟩ := bind_ok.mp returned
  obtain ⟨rfl, rfl⟩ := gets_ok.mp first
  obtain ⟨_, k₁, locking, rest⟩ := bind_ok.mp rest
  obtain ⟨fs₁, taken, rfl⟩ := zoom_ok.mp locking
  obtain ⟨free, held, -⟩ := ilock_ok _ taken
  obtain ⟨inode, k₂, loaded, rest⟩ := bind_ok.mp rest
  obtain ⟨fs₂, read, rfl⟩ := zoom_ok.mp loaded
  obtain ⟨-, rfl⟩ := gets_ok.mp read
  obtain ⟨_, k₃, checked, rest⟩ := bind_ok.mp rest
  obtain ⟨-, rfl⟩ := stopIf_ok.mp checked
  obtain ⟨found, k₄, allocated, rest⟩ := bind_ok.mp rest
  obtain ⟨sameFs, sameProcs⟩ := (filealloc_apart _).ok allocated
  cases found with
  | none =>
    obtain ⟨_, _, closed, -⟩ := bind_ok.mp rest
    cases closed
  | some f =>
    rcases full with files | descriptors
    · rw [filealloc_full (by exact files)] at allocated
      cases allocated
    · obtain ⟨fd, k₅, chosen, rest⟩ := bind_ok.mp rest
      rw [fdalloc_full (by rw [sameProcs]; exact descriptors)] at chosen
      obtain ⟨rfl, rfl⟩ : none = fd ∧ k₄ = k₅ := by simpa using chosen
      obtain ⟨_, k₆, closed, last⟩ := bind_ok.mp rest
      obtain ⟨-, rfl⟩ := pure_ok.mp last
      refine ⟨free, (fileclose_keepsLocked _ f).ok closed ip ?_⟩
      rw [sameFs]
      exact held

/-- A path that resolves, with a table full: some inode that was free is locked at the end. -/
theorem sysOpen_locked {fs : Fs} {r : ℤ} (plain : model &&& O_CREATE = 0)
    (resolves : iname (k.procs p).pid path k.fs = .ok (some ip, fs)) (full : k.Exhausted p)
    (returned : sysOpen p path model k = .ok (r, k')) :
    ¬ k.fs.Locked ip ∧ k'.fs.Locked ip := by
  unfold sysOpen at returned
  obtain ⟨proc, _, first, rest⟩ := bind_ok.mp returned
  obtain ⟨rfl, rfl⟩ := gets_ok.mp first
  rw [if_neg (by simpa using plain)] at rest
  obtain ⟨found, k₁, named, rest⟩ := bind_ok.mp rest
  obtain ⟨fs₁, walked, rfl⟩ := zoom_ok.mp named
  rw [resolves] at walked
  obtain ⟨rfl, rfl⟩ : some ip = found ∧ fs = fs₁ := by simpa using walked
  obtain ⟨free, held⟩ := openInode_locked (k := { k with fs }) full rest
  exact ⟨fun locked => free ((iname_keepsLocked _ path).ok resolves ip locked), held⟩

/-- A failing `open` never undoes what it did. -/
theorem sysOpen_never_clean (k : Kernel) (p : Fin NPROC) (path : List Byte) (model : ℕ)
    (plain : model &&& O_CREATE = 0) (ip : Fin INODES) (fs : Fs)
    (resolves : iname (k.procs p).pid path k.fs = .ok (some ip, fs)) (full : k.Exhausted p) :
    ¬ FailsCleanly k p path model := by
  rintro ⟨k', returned, restored⟩
  obtain ⟨free, held⟩ := sysOpen_locked plain resolves full returned
  refine free ?_
  unfold Fs.Locked at *
  rwa [restored.inodeLocks ip] at held

/-- A process that has opened the root directory with every descriptor. -/
def crowdedKernel : Kernel :=
  { bootKernel 0 with
    fs := { (bootKernel 0).fs with
      inodes := Function.update initInodecache 0 { dev := ROOTDEV, inum := ROOTINO, ref := 2 } }
    files := Function.update (fun _ => {}) 0 { type := .inode, ref := 16, readable := true, ip := some 0 }
    procs := Function.update (fun _ => {}) 0
      { state := .running, pid := 1, openfs := fun _ => some 0, pwd := some 0 } }

theorem crowdedKernel_exhausted : crowdedKernel.Exhausted 0 := .inr (by simp [crowdedKernel])

theorem crowdedKernel_resolves : ∃ fs, iname (crowdedKernel.procs 0).pid [slash] crowdedKernel.fs =
    .ok (some 0, fs) := by
  have evaluated : (match iname (crowdedKernel.procs 0).pid [slash] crowdedKernel.fs with
      | .ok (found, _) => found == some 0
      | .error _ => false) = true := by
    decide +kernel
  split at evaluated
  · rename_i found fs returned
    obtain rfl : found = some 0 := by simpa using evaluated
    exact ⟨fs, returned⟩
  · cases evaluated

theorem sysOpen_never_clean_crowded : ¬ FailsCleanly crowdedKernel 0 [slash] 0 := by
  obtain ⟨fs, resolves⟩ := crowdedKernel_resolves
  exact sysOpen_never_clean crowdedKernel 0 [slash] 0 rfl 0 fs resolves crowdedKernel_exhausted

/-- `open("/", 0)` without a free descriptor returns -1 and keeps the root locked and referenced
once more. -/
theorem sysOpen_leaks : ¬ ∀ (k : Kernel) (p : Fin NPROC) (path : List Byte) (model : ℕ)
    (ip : Fin INODES) (fs : Fs), model &&& O_CREATE = 0 →
      iname (k.procs p).pid path k.fs = .ok (some ip, fs) → k.Exhausted p →
        FailsCleanly k p path model := by
  intro claim
  obtain ⟨fs, resolves⟩ := crowdedKernel_resolves
  obtain ⟨k', returned, restored⟩ := claim _ _ _ 0 0 fs rfl resolves crowdedKernel_exhausted
  have evaluated : outcome (sysOpen 0 [slash] 0) crowdedKernel
      (fun k => ((k.fs.inodes 0).ref, (k.fs.inodes 0).splock)) = some (3, ⟨true, 1⟩) := by
    decide +kernel
  obtain ⟨_, k₁, same, left⟩ := outcome_some evaluated
  rw [returned] at same
  obtain ⟨-, rfl⟩ : _ ∧ k' = k₁ := by simpa using same
  have refs := restored.refs 0
  have three : (k'.fs.inodes 0).ref = 3 := (Prod.ext_iff.mp left).1
  rw [three] at refs
  exact absurd refs (by decide)

end HaloOS
