import HaloOS.Fs.References
import HaloOS.Kernel.Paths
import HaloOS.Kernel.OpenFiles
import Mathlib.Data.Fintype.Sum

/-! References to inodes over whole runs: the `ref` of an entry of the inode cache is the number
of open files and working directories that name it, as long as no call leaves a reference
behind. -/

namespace HaloOS

open Lib

variable {L : Layout} {k k' : Kernel} {p np now : Fin NPROC} {f : Fin NFILE} {owed : Fin INODES → ℤ}

/-- What `create` does when its lookup found nothing. -/
theorem create_refs {s s' : Fs} {me type major minor : ℕ} {path : List Byte} {ip : Fin INODES}
    (absent : ∀ dp found t, createLookup me path s = .ok ((dp, found), t) → found = none)
    (returned : create me path type major minor s = .ok (ip, s')) :
    s.RefsBy (credit (some ip)) s' := by
  unfold create at returned
  obtain ⟨dp, s₁, got, rest⟩ := bind_ok.mp returned
  obtain ⟨_, s₂, locked, rest⟩ := bind_ok.mp rest
  obtain ⟨found, s₃, looked, rest⟩ := bind_ok.mp rest
  have lookup : createLookup me path s = .ok ((dp, found), s₃) :=
    bind_ok.mpr ⟨dp, s₁, got, bind_ok.mpr ⟨_, s₂, locked, bind_ok.mpr ⟨found, s₃, looked, rfl⟩⟩⟩
  obtain rfl := absent dp found s₃ lookup
  obtain ⟨_, _, snapshot, rest⟩ := bind_ok.mp rest
  obtain ⟨rfl, rfl⟩ := gets_ok.mp snapshot
  have root := ((iget_refs _ _ s).ok got).after ((ilock_refs me (some dp)).ok locked)
  have none := (inodeByName_refs me dp _ s₂).ok looked
  obtain ⟨new, s₄, allocated, rest⟩ := bind_ok.mp rest
  have fresh := (ialloc_refs me _ type s₃).ok allocated
  cases new with
  | none => cases rest
  | some ip' =>
    obtain ⟨_, s₅, held, rest⟩ := bind_ok.mp rest
    obtain ⟨_, s₆, stored, rest⟩ := bind_ok.mp rest
    obtain ⟨_, s₇, updated, rest⟩ := bind_ok.mp rest
    obtain ⟨_, _, snapshot, rest⟩ := bind_ok.mp rest
    obtain ⟨-, rfl⟩ := gets_ok.mp snapshot
    obtain ⟨_, s₈, dots, rest⟩ := bind_ok.mp rest
    obtain ⟨_, s₉, linked, rest⟩ := bind_ok.mp rest
    obtain ⟨_, s₁₀, put, rest⟩ := bind_ok.mp rest
    obtain ⟨rfl, rfl⟩ := pure_ok.mp rest
    have filled : s₄.SameRefs s₇ :=
      trans_of Fs.SameRefs ((ilock_refs me (some ip')).ok held)
        (trans_of Fs.SameRefs (sameRefs_of_onlyDin (setDinode_onlyDin ip' _) |>.ok stored)
          (sameRefs_of_onlyDin (iupdate_onlyDin me ip') |>.ok updated))
    have named : s₇.SameRefs s₉ := by
      refine trans_of Fs.SameRefs (Frames.ok (.onlyIf ?_) dots)
        (sameRefs_of_onlyDin (dirlink_onlyDin me dp _ _) |>.ok linked)
      refine .bind (sameRefs_of_onlyDin (iupdate_onlyDin me dp)) fun _ => ?_
      exact .bind (sameRefs_of_onlyDin (dirlink_onlyDin me ip' _ _)) fun _ =>
        sameRefs_of_onlyDin (dirlink_onlyDin me ip' _ _)
    have dropped := (iunlockput_refs me dp s₉).ok put
    refine ((((root.trans none).trans fresh).after (trans_of Fs.SameRefs filled named)).trans
      dropped).congr fun i => ?_
    simp only [credit, reduceCtorEq, ↓reduceIte]
    omega

section Holders

/-- The file refers to an inode. -/
def File.Linked (file : File) : Prop := file.type = .inode ∨ file.type = .device

instance (file : File) : Decidable file.Linked := inferInstanceAs (Decidable (_ ∨ _))

/-- The places that name an inode: the open files and the working directories. -/
def Kernel.holders (k : Kernel) : Fin NFILE ⊕ Fin NPROC → Option (Fin INODES)
  | .inl f => if (k.files f).Linked then (k.files f).ip else none
  | .inr p => (k.procs p).pwd

/-- The reference counts of the inodes are right up to what a call in progress owes. -/
structure Referenced (k : Kernel) (owed : Fin INODES → ℤ) : Prop where
  ref : ∀ i, (k.fs.inodes i).ref = tally k.holders i + owed i
  unread : k.fs.Unvaild
  files : ∀ f, (0 < (k.files f).ref ∧ (k.files f).Linked) ∨
    ((k.files f).ref = 0 ∧ (k.files f).type = .none)
  gone : ∀ p, (k.procs p).state.Dead → (k.procs p).pwd = none

/-- Nothing about references to inodes changes. -/
structure SameHolders (k k' : Kernel) : Prop where
  fs : k.fs.SameRefs k'.fs
  type : ∀ f, (k'.files f).type = (k.files f).type
  ip : ∀ f, (k'.files f).ip = (k.files f).ip
  used : ∀ f, 0 < (k.files f).ref → 0 < (k'.files f).ref
  free : ∀ f, (k.files f).ref = 0 → (k'.files f).ref = 0
  pwd : ∀ p, (k'.procs p).pwd = (k.procs p).pwd
  state : ∀ p, (k'.procs p).state.Dead → (k.procs p).state.Dead

instance : Std.Refl SameHolders where
  refl := fun k => ⟨refl_of Fs.SameRefs k.fs, fun _ => rfl, fun _ => rfl, fun _ => id, fun _ => id,
    fun _ => rfl, fun _ => id⟩

instance : IsTrans Kernel SameHolders where
  trans := fun _ _ _ first second => ⟨trans_of Fs.SameRefs first.fs second.fs,
    fun f => (second.type f).trans (first.type f), fun f => (second.ip f).trans (first.ip f),
    fun f => second.used f ∘ first.used f, fun f => second.free f ∘ first.free f,
    fun p => (second.pwd p).trans (first.pwd p), fun p => first.state p ∘ second.state p⟩

theorem SameHolders.holders (same : SameHolders k k') : k'.holders = k.holders := by
  funext place
  cases place with
  | inl f =>
    have linked : (k'.files f).Linked ↔ (k.files f).Linked := by
      unfold File.Linked
      rw [same.type]
    simp only [Kernel.holders, linked, same.ip]
  | inr p => exact same.pwd p

theorem Referenced.congr (referenced : Referenced k owed) (same : SameHolders k k') :
    Referenced k' owed := by
  obtain ⟨unread, refs⟩ := same.fs referenced.unread
  refine ⟨fun i => ?_, unread, fun f => ?_, fun p dead => ?_⟩
  · rw [refs, add_zero, same.holders]
    exact referenced.ref i
  · unfold File.Linked
    rw [same.type]
    exact (referenced.files f).imp (fun open_ => ⟨same.used f open_.1, open_.2⟩)
      fun closed => ⟨same.free f closed.1, closed.2⟩
  · rw [same.pwd]
    exact referenced.gone p (same.state p dead)

theorem Referenced.owe {owed' : Fin INODES → ℤ} (referenced : Referenced k owed)
    (same : ∀ i, owed i = owed' i) : Referenced k owed' := by
  obtain rfl : owed = owed' := funext same
  exact referenced

theorem Referenced.keep {α : Type} {m : Kio α} (referenced : Referenced k owed)
    (frame : Frames SameHolders m) : Sat m k anyStop fun _ k' => Referenced k' owed :=
  (frame k).mono fun _ _ => referenced.congr

/-- Work of the file system shifts what is owed. -/
theorem Referenced.fio {α : Type} {m : Fio α} {d : α → Fin INODES → ℤ}
    (referenced : Referenced k owed)
    (moves : Sat m k.fs anyStop fun a s => k.fs.RefsBy (d a) s) :
    Sat (fio m) k anyStop fun a k' => Referenced k' (fun i => owed i + d a i) ∧
      k'.procs = k.procs ∧ k'.files = k.files := by
  refine Sat.zoom (moves.mono fun a s moved => ⟨?_, rfl, rfl⟩)
  obtain ⟨unread, refs⟩ := moved referenced.unread
  refine ⟨fun i => ?_, unread, referenced.files, referenced.gone⟩
  have before := referenced.ref i
  have after := refs i
  change (s.inodes i).ref = tally k.holders i + (owed i + d a i)
  omega

/-- Storing into a file shifts what is owed. -/
theorem Referenced.setFile (referenced : Referenced k owed) (g : File → File)
    (entry : (0 < (g (k.files f)).ref ∧ (g (k.files f)).Linked) ∨
      ((g (k.files f)).ref = 0 ∧ (g (k.files f)).type = .none)) :
    Referenced (k.setFile f g) fun i => owed i + credit (k.holders (.inl f)) i -
      credit ((k.setFile f g).holders (.inl f)) i := by
  have moved : (k.setFile f g).holders =
      Function.update k.holders (.inl f) ((k.setFile f g).holders (.inl f)) := by
    funext place
    cases place with
    | inl f' =>
      by_cases here : f' = f
      · subst here
        rw [Function.update_self]
      · rw [Function.update_of_ne (by simpa using here)]
        simp [Kernel.holders, Kernel.setFile, Function.update_of_ne here]
    | inr p => rw [Function.update_of_ne (by simp)]; rfl
  refine ⟨fun i => ?_, referenced.unread, fun f' => ?_, referenced.gone⟩
  · rw [moved, tally_update, Function.update_self]
    have before := referenced.ref i
    change (k.fs.inodes i).ref = _
    unfold credit
    omega
  · by_cases here : f' = f
    · subst here
      simpa [Kernel.setFile] using entry
    · simpa [Kernel.setFile, Function.update_of_ne here] using referenced.files f'

/-- So does changing a working directory. -/
theorem Referenced.setProc (referenced : Referenced k owed) (g : Proc → Proc)
    (gone : (g (k.procs p)).state.Dead → (g (k.procs p)).pwd = none) :
    Referenced (k.setProc p g) fun i => owed i + credit (k.procs p).pwd i -
      credit (g (k.procs p)).pwd i := by
  have moved : (k.setProc p g).holders =
      Function.update k.holders (.inr p) (g (k.procs p)).pwd := by
    funext place
    cases place with
    | inl f => rw [Function.update_of_ne (by simp)]; rfl
    | inr q =>
      by_cases here : q = p
      · subst here
        simp [Kernel.holders]
      · rw [Function.update_of_ne (by simpa using here)]
        simp [Kernel.holders, Function.update_of_ne here]
  refine ⟨fun i => ?_, referenced.unread, referenced.files, fun q dead => ?_⟩
  · rw [moved, tally_update]
    have before := referenced.ref i
    change (k.fs.inodes i).ref = _
    change _ = (tally k.holders i : ℤ) - credit (k.procs p).pwd i + credit _ i + _
    omega
  · by_cases here : q = p
    · subst here
      simp only [setProc_procs, Function.update_self] at dead ⊢
      exact gone dead
    · simp only [setProc_procs, Function.update_of_ne here] at dead ⊢
      exact referenced.gone q dead

end Holders

section Frames

/-! ### Work that has nothing to do with references -/

theorem mio_sameHolders {α : Type} (m : Mio α) : Frames SameHolders (mio m) := by
  refine .ofOk fun k _ k' returned => ?_
  obtain ⟨vm, -, rfl⟩ := zoom_ok.mp returned
  exact ⟨refl_of Fs.SameRefs k.fs, fun _ => rfl, fun _ => rfl, fun _ => id, fun _ => id,
    fun _ => rfl, fun _ => id⟩

theorem fio_sameHolders {α : Type} {m : Fio α} (frame : Frames Fs.SameRefs m) :
    Frames SameHolders (fio m) :=
  .zoom frame fun _ _ same => ⟨same, fun _ => rfl, fun _ => rfl, fun _ => id, fun _ => id,
    fun _ => rfl, fun _ => id⟩

theorem setProc_sameHolders (p : Fin NPROC) {g : Proc → Proc} (pwd : ∀ proc, (g proc).pwd = proc.pwd)
    (state : ∀ proc, (g proc).state.Dead → proc.state.Dead) : Frames SameHolders (setProc p g) := by
  refine .update fun k => ⟨refl_of Fs.SameRefs k.fs, fun _ => rfl, fun _ => rfl, fun _ => id,
    fun _ => id, fun q => ?_, fun q => ?_⟩
  · by_cases here : q = p
    · subst here
      simp [pwd]
    · simp [Function.update_of_ne here]
  · by_cases here : q = p
    · subst here
      simpa using state _
    · simp [Function.update_of_ne here]

/-- A store into a file in use that keeps its inode. -/
theorem SameHolders.setFile {g : File → File} (type : (g (k.files f)).type = (k.files f).type)
    (ip : (g (k.files f)).ip = (k.files f).ip)
    (used : 0 < (k.files f).ref → 0 < (g (k.files f)).ref)
    (free : (k.files f).ref = 0 → (g (k.files f)).ref = 0) : SameHolders k (k.setFile f g) := by
  refine ⟨refl_of Fs.SameRefs k.fs, fun f' => ?_, fun f' => ?_, fun f' => ?_, fun f' => ?_,
    fun _ => rfl, fun _ => id⟩
  all_goals
    by_cases here : f' = f
    · subst here
      simp only [Kernel.setFile, Function.update_self]
      assumption
    · simp [Kernel.setFile, Function.update_of_ne here]

theorem filedup_sameHolders (f : Fin NFILE) : Frames SameHolders (filedup f) := by
  intro k
  unfold filedup
  refine Sat.bind (Sat.gets (Q := fun a s => k.files f = a ∧ k = s) ⟨rfl, rfl⟩) ?_
  rintro _ _ ⟨rfl, rfl⟩
  refine Sat.bind (Sat.stopIf (Q := fun _ s => k = s ∧ 1 ≤ (k.files f).ref) (fun _ => trivial)
    fun used => ⟨rfl, by omega⟩) ?_
  rintro _ _ ⟨rfl, used⟩
  refine Sat.bind (Sat.update (Q := fun _ s => SameHolders k s) (.setFile rfl rfl ?_ ?_))
    fun _ _ same => Sat.pure same
  · intro positive
    change 0 < (k.files f).ref + 1
    omega
  · intro zero
    omega

theorem argfd_sameHolders (p : Fin NPROC) (fd : ℕ) : Frames SameHolders (argfd p fd) :=
  .bind (.gets _) fun _ => .pure _

theorem fdalloc_sameHolders (p : Fin NPROC) (f : Fin NFILE) : Frames SameHolders (fdalloc p f) := by
  unfold fdalloc
  refine .bind (.gets _) fun proc => ?_
  split
  · exact .bind (setProc_sameHolders p (fun _ => rfl) fun _ => id) fun _ => .pure _
  · exact .pure _

theorem sysDup_sameHolders (p : Fin NPROC) (fd : ℕ) : Frames SameHolders (sysDup p fd) := by
  unfold sysDup
  refine .bind (argfd_sameHolders p fd) fun found => ?_
  split
  · exact .pure _
  · refine .bind (fdalloc_sameHolders p _) fun new => ?_
    split
    · exact .pure _
    · exact .bind (filedup_sameHolders _) fun _ => .pure _

theorem dupFiles_sameHolders (now np : Fin NPROC) (count i : ℕ) :
    Frames SameHolders (dupFiles now np count i) := by
  induction count generalizing i with
  | zero => exact .pure _
  | succ count ih =>
    unfold dupFiles
    refine .bind (.gets _) fun proc => ?_
    dsimp only
    split
    · refine .bind (filedup_sameHolders _) fun f => ?_
      exact .bind (setProc_sameHolders np (fun _ => rfl) fun _ => id) fun _ => ih _
    · exact ih _

theorem readi_sameHolders {me : ℕ} {ip : Fin INODES} {copyout : ℕ → List Byte → Kio Bool}
    (copy : ∀ tot bytes, Frames SameHolders (copyout tot bytes)) (off n : ℕ) :
    Frames SameHolders (readi fio me ip copyout off n) :=
  readi_frames me (fun frame => fio_sameHolders (sameRefs_of_onlyDin frame)) copy ip off n

theorem consoleread_sameHolders (p : Fin NPROC) (target n dst : ℕ) :
    Frames SameHolders (consolereadLoop p target n dst) := by
  have ring : ∀ g : Kernel → Console,
      Frames SameHolders (update fun k => { k with cons := g k } : Kio Unit) := by
    intro g
    refine .update fun k => ⟨refl_of Fs.SameRefs k.fs, fun _ => rfl, fun _ => rfl, fun _ => id,
      fun _ => id, fun _ => rfl, fun _ => id⟩
  induction n generalizing dst with
  | zero => exact .pure _
  | succ n ih =>
    unfold consolereadLoop
    refine .bind (.gets _) fun k => .ite (.throw _) (.bind (ring _) fun _ => .ite ?_ ?_)
    · exact .bind (.onlyIf (ring _)) fun _ => .pure _
    · refine .bind (mio_sameHolders _) fun copied => ?_
      exact .ite (.pure _) (.ite (.pure _) (ih _))

theorem fileread_sameHolders (p : Fin NPROC) (f : Fin NFILE) (addr n : ℕ) :
    Frames SameHolders (fileread p f addr n) := by
  unfold fileread
  refine .bind (.gets _) fun file => .ite (.pure _) (.ite (.ite ?_ (.pure _)) (.ite ?_ (.pure _)))
  · exact .bind (consoleread_sameHolders p _ _ _) fun _ => .pure _
  · refine .bind (.gets _) fun proc => .bind (fio_sameHolders (ilock_refs _ _)) fun _ => ?_
    split
    · exact .throw _
    · refine .bind (readi_sameHolders (fun _ _ => mio_sameHolders _) _ _) fun ⟨tot, bytes⟩ => ?_
      refine .bind (.onlyIf (.update fun k => .setFile rfl rfl id id)) fun _ => ?_
      exact .bind (fio_sameHolders (iunlock_refs _ _)) fun _ => .pure _

theorem filewrite_sameHolders (p : Fin NPROC) (f : Fin NFILE) (addr n : ℕ) :
    Frames SameHolders (filewrite p f addr n) := by
  unfold filewrite
  refine .bind (.gets _) fun file => .ite (.pure _) ?_
  split
  · exact .pure _
  · refine .ite (.bind (.gets _) fun proc => ?_) (.pure _)
    exact .bind (mio_sameHolders _) fun _ => .pure _
  · exact .pure _
  · exact .throw _

theorem filestat_sameHolders (p : Fin NPROC) (f : Fin NFILE) (addr : ℕ) :
    Frames SameHolders (filestat p f addr) := by
  unfold filestat
  refine .bind (.gets _) fun file => .ite ?_ (.pure _)
  refine .bind (.gets _) fun proc => .bind (fio_sameHolders (ilock_refs _ _)) fun _ => ?_
  split
  · exact .throw _
  · refine .bind (fio_sameHolders (.gets _)) fun ip => ?_
    refine .bind (fio_sameHolders (iunlock_refs _ _)) fun _ => ?_
    exact .bind (mio_sameHolders _) fun copied => .pure _

theorem loadseg_sameHolders (me pagetable va : ℕ) (ip : Fin INODES) (off sz : ℕ) :
    Frames SameHolders (loadseg me pagetable va ip off sz) := by
  unfold loadseg
  generalize (sz + PGSIZE - 1) / PGSIZE = count, (0 : ℕ) = i
  induction count generalizing i with
  | zero => exact .pure _
  | succ count ih =>
    unfold loadsegLoop
    refine .bind (mio_sameHolders _) fun pa => .bind (.stopIf _) fun _ => ?_
    refine .bind (readi_sameHolders (fun _ _ => ?_) _ _) fun _ => .ite (.pure _) (ih _)
    exact .bind (mio_sameHolders _) fun _ => .pure _

theorem loadLoop_sameHolders (me pagetable : ℕ) (ip : Fin INODES) (count off sz : ℕ) :
    Frames SameHolders (loadLoop L me pagetable ip count off sz) := by
  induction count generalizing off sz with
  | zero => exact .pure _
  | succ count ih =>
    unfold loadLoop
    refine .bind (fio_sameHolders (sameRefs_of_onlyDin (readk_onlyDin me ip _ _))) ?_
    rintro ⟨r, ph⟩
    dsimp only
    generalize field ph 0 4 = type, field ph 8 8 = off', field ph 16 8 = vaddr,
      field ph 32 8 = filesz, field ph 40 8 = memsz
    refine .bind (.stopIf _) fun _ => .ite (ih _ _) ?_
    refine .bind (.stopIf _) fun _ => .bind (.stopIf _) fun _ => ?_
    refine .bind (mio_sameHolders _) fun sz1 => .bind (.stopIf _) fun _ => ?_
    refine .bind (.stopIf _) fun _ => .bind (loadseg_sameHolders _ _ _ _ _ _) fun loaded => ?_
    exact .bind (.stopIf _) fun _ => ih _ _

end Frames

section Calls

variable {fd : ℕ}

/-- The last `fileclose` of a file puts its inode. -/
theorem Referenced.fileclose (referenced : Referenced k owed) (me : ℕ) :
    Sat (fileclose me (some f)) k anyStop fun _ k' => Referenced k' owed ∧ k'.procs = k.procs := by
  unfold HaloOS.fileclose
  refine Sat.bind (Sat.gets (Q := fun a s => k.files f = a ∧ k = s) ⟨rfl, rfl⟩) ?_
  rintro _ _ ⟨rfl, rfl⟩
  refine Sat.bind (Sat.stopIf (Q := fun _ s => k = s ∧ 1 ≤ (k.files f).ref) (fun _ => trivial)
    fun used => ⟨rfl, by omega⟩) ?_
  rintro _ _ ⟨rfl, used⟩
  have linked : (k.files f).Linked := by
    rcases referenced.files f with open_ | closed
    · exact open_.2
    · omega
  refine Sat.ite (fun more => Sat.update ⟨referenced.congr (.setFile rfl rfl ?_ ?_), rfl⟩) fun last => ?_
  · exact fun _ => more
  · intro zero
    omega
  have shut := referenced.setFile (f := f) ({ · with ref := 0, type := .none }) (.inr ⟨rfl, rfl⟩)
  have before : k.holders (.inl f) = (k.files f).ip := if_pos linked
  have after : (k.setFile f ({ · with ref := 0, type := .none })).holders (.inl f) = none := by
    simp [Kernel.holders, Kernel.setFile, File.Linked]
  rw [before, after] at shut
  refine Sat.bind (Sat.update (Q := fun _ s => Referenced s (fun i =>
    owed i + credit (k.files f).ip i - credit none i) ∧ s.procs = k.procs) ⟨shut, rfl⟩) ?_
  rintro _ k₁ ⟨shut, procs⟩
  rw [if_pos (show _ ∨ _ from linked)]
  split
  · rename_i ip named
    refine (shut.fio (iput_refs me ip k₁.fs)).mono ?_
    rintro _ k₂ ⟨put, procs', -⟩
    refine ⟨put.owe fun i => ?_, procs'.trans procs⟩
    simp only [named, credit, reduceCtorEq, ↓reduceIte]
    omega
  · exact Sat.throw trivial

theorem Referenced.sysClose (referenced : Referenced k owed) :
    Sat (sysClose p fd) k anyStop fun _ k' => Referenced k' owed := by
  unfold HaloOS.sysClose
  refine Sat.bind (referenced.keep (argfd_sameHolders p fd)) fun found k₁ referenced₁ => ?_
  cases found with
  | none => exact Sat.pure referenced₁
  | some f =>
    refine Sat.bind (referenced₁.keep (setProc_sameHolders p (fun _ => rfl) fun _ => id)) ?_
    intro _ k₂ referenced₂
    refine Sat.bind (Sat.gets (Q := fun _ s => k₂ = s) rfl) ?_
    rintro proc _ rfl
    exact Sat.bind (referenced₂.fileclose _) fun _ k₃ closed => Sat.pure closed.1

/-- The entry that `filealloc` takes. -/
theorem filealloc_takes (k : Kernel) : Sat filealloc k anyStop fun found k' =>
    (found = none ∧ k' = k) ∨
      ∃ f, found = some f ∧ (k.files f).ref = 0 ∧ k' = k.setFile f ({ · with ref := 1 }) := by
  unfold filealloc
  refine Sat.bind (Sat.gets (Q := fun a s => k = a ∧ k = s) ⟨rfl, rfl⟩) ?_
  rintro _ _ ⟨rfl, rfl⟩
  split
  · rename_i f free
    refine Sat.bind (Sat.update (Q := fun _ s => s = k.setFile f ({ · with ref := 1 })) rfl) ?_
    rintro _ _ rfl
    exact Sat.pure (.inr ⟨f, rfl, by simpa using List.find?_some free, rfl⟩)
  · exact Sat.pure (.inl ⟨rfl, rfl⟩)

/-- `fdalloc` writes a descriptor, and fails only without a free one. -/
theorem fdalloc_takes (p : Fin NPROC) (f : Fin NFILE) (k : Kernel) :
    Sat (fdalloc p f) k anyStop fun found k' =>
      (found = none ∧ ∀ fd < OPENFILE, (k.procs p).openfs fd ≠ none) ∨
        ∃ fd, found = some fd ∧ k' = k.setProc p (Proc.setFd fd (some f)) := by
  unfold fdalloc
  refine Sat.bind (Sat.gets (Q := fun a s => k.procs p = a ∧ k = s) ⟨rfl, rfl⟩) ?_
  rintro _ _ ⟨rfl, rfl⟩
  split
  · rename_i fd free
    refine Sat.bind (Sat.update (Q := fun _ s => s = k.setProc p (Proc.setFd fd (some f))) rfl) ?_
    rintro _ _ rfl
    exact Sat.pure (.inr ⟨fd, rfl, rfl⟩)
  · rename_i full
    refine Sat.pure (.inl ⟨rfl, fun fd small empty => ?_⟩)
    have taken := List.find?_eq_none.mp full fd (List.mem_range.mpr small)
    simp [empty] at taken

theorem setFile_setFile (k : Kernel) (f : Fin NFILE) (g g' : File → File) :
    (k.setFile f g).setFile f g' = k.setFile f (g' ∘ g) := by
  simp [Kernel.setFile]

/-- A free entry is filled in and takes a reference over. -/
theorem Referenced.fill {ip : Fin INODES} {g : File → File} (referenced : Referenced k (credit (some ip)))
    (free : (k.files f).ref = 0) (used : (g (k.files f)).ref = 1) (linked : (g (k.files f)).Linked)
    (named : (g (k.files f)).ip = some ip) : Referenced (k.setFile f g) fun _ => 0 := by
  have shut : ¬ (k.files f).Linked := by
    rcases referenced.files f with ⟨positive, -⟩ | ⟨-, none⟩
    · omega
    · simp [File.Linked, none]
  refine (referenced.setFile g (.inl ⟨by omega, linked⟩)).owe fun i => ?_
  have before : k.holders (.inl f) = none := if_neg shut
  have after : (k.setFile f g).holders (.inl f) = some ip := by
    simp [Kernel.holders, Kernel.setFile, linked, named]
  rw [before, after]
  simp [credit]

/-- The rest of `sys_open`, where a descriptor is free: the file takes the reference over. -/
theorem Referenced.openInode {ip : Fin INODES} {model : ℕ}
    (referenced : Referenced k (credit (some ip)))
    (room : ∃ fd < OPENFILE, (k.procs p).openfs fd = none) :
    Sat (openInode p ip model) k anyStop fun _ k' => Referenced k' fun _ => 0 := by
  unfold HaloOS.openInode
  refine Sat.bind (Sat.gets (Q := fun a s => k.procs p = a ∧ k = s) ⟨rfl, rfl⟩) ?_
  rintro _ _ ⟨rfl, rfl⟩
  refine Sat.bind (referenced.fio ((ilock_refs _ (some ip)) k.fs)) ?_
  rintro _ k₁ ⟨referenced₁, procs₁, files₁⟩
  refine Sat.bind (referenced₁.fio ((getInode_onlyDin ip k₁.fs).mono
    fun _ _ only => only.sameRefs)) ?_
  rintro inode k₂ ⟨referenced₂, procs₂, files₂⟩
  refine Sat.bind (Sat.stopIf (Q := fun _ s => k₂ = s) (fun _ => trivial) fun _ => rfl) ?_
  rintro _ _ rfl
  refine Sat.bind (filealloc_takes k₂) ?_
  rintro _ k₃ (⟨rfl, rfl⟩ | ⟨f, rfl, free, rfl⟩)
  · exact Sat.bind (Q := fun _ _ => False) (Sat.throw trivial) fun _ _ bad => bad.elim
  refine Sat.bind (fdalloc_takes p f _) ?_
  rintro _ k₄ (⟨rfl, full⟩ | ⟨fd, rfl, rfl⟩)
  · obtain ⟨fd, small, empty⟩ := room
    refine absurd empty ?_
    have taken := full fd small
    rwa [show (k₂.setFile f ({ · with ref := 1 })).procs = k.procs from procs₂.trans procs₁] at taken
  have owed₂ : Referenced k₂ (credit (some ip)) := referenced₂.owe fun i => by omega
  have finish : ∀ g g' : File → File, (∀ file, (g file).ref = file.ref ∧ (g file).Linked) →
      (∀ file, (g' file).ref = file.ref ∧ (file.Linked → (g' file).Linked) ∧
        (g' file).ip = some ip) →
      Sat (do
        HaloOS.setFile f g
        HaloOS.setFile f g'
        HaloOS.fio (iunlock (k.procs p).pid (some ip))
        pure fd : Kio ℤ) ((k₂.setFile f ({ · with ref := 1 })).setProc p (Proc.setFd fd (some f)))
        anyStop fun _ k' => Referenced k' fun _ => 0 := by
    intro g g' typed named
    have filled : Referenced (k₂.setFile f (g' ∘ g ∘ ({ · with ref := 1 }))) fun _ => 0 := by
      refine owed₂.fill free ?_ ((named _).2.1 (typed _).2) (named _).2.2
      simp only [Function.comp_apply, (named _).1, (typed _).1]
    rw [← Function.comp_assoc, ← setFile_setFile, ← setFile_setFile] at filled
    refine Sat.bind (Sat.update (Q := fun _ s => s = ((k₂.setFile f ({ · with ref := 1 })).setFile f
      g).setProc p (Proc.setFd fd (some f))) rfl) ?_
    rintro _ _ rfl
    refine Sat.bind (Sat.update (Q := fun _ s => Referenced s fun _ => 0) (filled.congr ?_)) ?_
    · exact (setProc_sameHolders p (g := Proc.setFd fd (some f)) (fun _ => rfl) fun _ => id).ok rfl
    · intro _ k₅ done
      exact Sat.bind (done.keep (fio_sameHolders (iunlock_refs _ _))) fun _ _ last => Sat.pure last
  refine Sat.ite (fun _ => ?_) fun _ => ?_
  · exact finish _ _ (fun file => ⟨rfl, .inr rfl⟩) fun file => ⟨rfl, id, rfl⟩
  · exact finish _ _ (fun file => ⟨rfl, .inl rfl⟩) fun file => ⟨rfl, id, rfl⟩

/-- `sys_open` of the root, the only path that costs no reference more than the file has. -/
theorem Referenced.sysOpen {path : List Byte} {model : ℕ} (referenced : Referenced k fun _ => 0)
    (rooted : path.head? = some slash) (plain : model &&& O_CREATE = 0)
    (room : ∃ fd < OPENFILE, (k.procs p).openfs fd = none) :
    Sat (sysOpen p path model) k anyStop fun _ k' => Referenced k' fun _ => 0 := by
  unfold HaloOS.sysOpen
  refine Sat.bind (Sat.gets (Q := fun a s => k.procs p = a ∧ k = s) ⟨rfl, rfl⟩) ?_
  rintro _ _ ⟨rfl, rfl⟩
  rw [if_neg (not_not.mpr plain)]
  refine Sat.bind (referenced.fio (iname_refs _ rooted k.fs)) ?_
  rintro found k₁ ⟨referenced₁, procs₁, -⟩
  cases found with
  | none => exact Sat.pure (referenced₁.owe fun i => by simp [credit])
  | some ip =>
    refine (referenced₁.owe fun i => zero_add _).openInode ?_
    rwa [procs₁]

/-- `sys_mknod` of a name that the root directory does not have. -/
theorem Referenced.sysMknod {path : List Byte} {major minor : ℕ} (referenced : Referenced k fun _ => 0)
    (absent : ∀ dp found s, createLookup (k.procs p).pid path k.fs = .ok ((dp, found), s) →
      found = none) :
    Sat (sysMknod p path major minor) k anyStop fun _ k' => Referenced k' fun _ => 0 := by
  unfold HaloOS.sysMknod
  refine Sat.bind (Sat.gets (Q := fun a s => k.procs p = a ∧ k = s) ⟨rfl, rfl⟩) ?_
  rintro _ _ ⟨rfl, rfl⟩
  refine Sat.bind (referenced.fio (Sat.ofOk fun ip s returned => create_refs absent returned)) ?_
  rintro ip k₁ ⟨referenced₁, -, -⟩
  refine Sat.bind (referenced₁.fio (iunlockput_refs _ ip k₁.fs)) ?_
  rintro _ k₂ ⟨referenced₂, -, -⟩
  exact Sat.pure (referenced₂.owe fun i => by omega)

end Calls

section Processes

variable {status addr : ℕ}

/-- A process that a call in progress has taken and not given a working directory yet. -/
structure Newborn (k : Kernel) (np : Fin NPROC) : Prop where
  referenced : Referenced k fun _ => 0
  none : (k.procs np).pwd = none
  alive : ¬ (k.procs np).state.Dead

theorem Newborn.keep {α : Type} {m : Kio α} (newborn : Newborn k np) (frame : Frames SameHolders m) :
    Sat m k anyStop fun _ k' => Newborn k' np :=
  (frame k).mono fun _ _ same => ⟨newborn.referenced.congr same, (same.pwd np).trans newborn.none,
    fun dead => newborn.alive (same.state np dead)⟩

/-- `allocproc` takes a free entry of the process table. -/
theorem Referenced.allocproc (referenced : Referenced k fun _ => 0) :
    Sat (allocproc L) k anyStop fun found k' =>
      (found = none ∧ k' = k) ∨ ∃ np, found = some np ∧ Newborn k' np := by
  unfold HaloOS.allocproc
  refine Sat.bind (Sat.gets (Q := fun a s => k = a ∧ k = s) ⟨rfl, rfl⟩) ?_
  rintro _ _ ⟨rfl, rfl⟩
  split
  · exact Sat.pure (.inl ⟨rfl, rfl⟩)
  · rename_i np free
    have unused : (k.procs np).state = .unused := by simpa using List.find?_some free
    have none := referenced.gone np (.inl unused)
    refine Sat.bind (Sat.update (Q := fun _ s => Newborn s np) ⟨?_, ?_, ?_⟩) fun _ k₁ born₁ => ?_
    · exact referenced.congr ((setProc_sameHolders np
        (g := ({ · with pid := k.nextPid, state := .used })) (fun _ => rfl)
        (fun _ dead => by simp [ProcState.Dead] at dead)).ok rfl)
    · simpa using none
    · simp [ProcState.Dead]
    refine Sat.bind (born₁.keep (.update fun s => ?_)) fun _ k₂ born₂ => ?_
    · exact ⟨refl_of Fs.SameRefs s.fs, fun _ => rfl, fun _ => rfl, fun _ => id, fun _ => id,
        fun _ => rfl, fun _ => id⟩
    refine Sat.bind (born₂.keep (mio_sameHolders _)) fun trapframe k₃ born₃ => ?_
    refine Sat.bind (born₃.keep (.stopIf _)) fun _ k₄ born₄ => ?_
    refine Sat.bind (born₄.keep (setProc_sameHolders np (fun _ => rfl) fun _ => id)) fun _ k₅ born₅ => ?_
    refine Sat.bind (born₅.keep (mio_sameHolders _)) fun pagetable k₆ born₆ => ?_
    refine Sat.bind (born₆.keep (setProc_sameHolders np (fun _ => rfl) fun _ => id)) fun _ k₇ born₇ => ?_
    exact Sat.pure (.inr ⟨np, rfl, born₇⟩)

/-- A process without a working directory may be freed. -/
theorem Referenced.freeproc (referenced : Referenced k owed) (none : (k.procs p).pwd = none) :
    Sat (freeproc L p) k anyStop fun _ k' => Referenced k' owed := by
  unfold HaloOS.freeproc
  refine Sat.bind (Sat.gets (Q := fun _ s => k = s) rfl) ?_
  rintro proc _ rfl
  refine Sat.bind (Frames.onlyIf (mio_sameHolders _) k) fun _ k₁ same => ?_
  have none' : (k₁.procs p).pwd = Option.none := (same.pwd p).trans none
  refine Sat.update (((referenced.congr same).setProc _ fun _ => none').owe fun i => ?_)
  exact add_sub_cancel_right _ _

/-- A new process takes a reference over as its working directory. -/
theorem Newborn.setPwd (newborn : Newborn k np) {m : Fio (Fin INODES)}
    (moves : Sat m k.fs anyStop fun a s => k.fs.RefsBy (credit (some a)) s) {rest : Kio ℤ}
    (frame : Frames SameHolders rest) :
    Sat (do
      let pwd ← fio m
      setProc np ({ · with pwd := some pwd })
      rest) k anyStop fun _ k' => Referenced k' fun _ => 0 := by
  refine Sat.bind (newborn.referenced.fio moves) ?_
  rintro pwd k₁ ⟨referenced₁, procs₁, -⟩
  refine Sat.bind (Sat.update (Q := fun _ s => Referenced s fun _ => 0) ?_) fun _ k₂ referenced₂ =>
    referenced₂.keep frame
  have alive := newborn.alive
  rw [← procs₁] at alive
  refine (referenced₁.setProc ({ · with pwd := some pwd }) fun dead => absurd dead alive).owe fun i => ?_
  rw [procs₁, newborn.none]
  simp [credit]

theorem Referenced.userinit (referenced : Referenced k fun _ => 0) :
    Sat (userinit L) k anyStop fun _ k' => Referenced k' fun _ => 0 := by
  unfold HaloOS.userinit
  refine Sat.bind referenced.allocproc ?_
  rintro _ k₁ (⟨rfl, -⟩ | ⟨np, rfl, born₁⟩)
  · exact Sat.bind (Sat.update (Q := fun _ _ => True) trivial) fun _ _ _ => Sat.throw trivial
  refine Sat.bind (born₁.keep (.update fun s => ?_)) fun _ k₂ born₂ => ?_
  · exact ⟨refl_of Fs.SameRefs s.fs, fun _ => rfl, fun _ => rfl, fun _ => id, fun _ => id,
      fun _ => rfl, fun _ => id⟩
  refine Sat.bind (Sat.gets (Q := fun _ s => k₂ = s) rfl) ?_
  rintro proc _ rfl
  refine Sat.bind (born₂.keep (mio_sameHolders _)) fun _ k₃ born₃ => ?_
  refine Sat.bind (born₃.keep (setProc_sameHolders np (fun _ => rfl) fun _ => id)) fun _ k₄ born₄ => ?_
  refine Sat.bind (born₄.keep (mio_sameHolders _)) fun _ k₅ born₅ => ?_
  refine Sat.bind (born₅.keep (mio_sameHolders _)) fun _ k₆ born₆ => ?_
  refine born₆.setPwd (iget_refs _ _ k₆.fs) (.bind (setProc_sameHolders np (fun _ => rfl) ?_)
    fun _ => .pure _)
  intro proc dead
  simp [ProcState.Dead] at dead

theorem Referenced.fork (referenced : Referenced k fun _ => 0) :
    Sat (fork L now) k anyStop fun _ k' => Referenced k' fun _ => 0 := by
  unfold HaloOS.fork
  refine Sat.bind referenced.allocproc ?_
  rintro _ k₁ (⟨rfl, rfl⟩ | ⟨np, rfl, born₁⟩)
  · exact Sat.pure referenced
  refine Sat.bind (Sat.gets (Q := fun _ s => k₁ = s) rfl) ?_
  rintro parent _ rfl
  refine Sat.bind (Sat.gets (Q := fun _ s => k₁ = s) rfl) ?_
  rintro child _ rfl
  refine Sat.bind (born₁.keep (mio_sameHolders _)) fun copied k₂ born₂ => ?_
  refine Sat.ite (fun _ => ?_) fun _ => ?_
  · exact Sat.bind (born₂.referenced.freeproc born₂.none) fun _ _ done => Sat.pure done
  refine Sat.bind (born₂.keep (setProc_sameHolders np (fun _ => rfl) fun _ => id)) fun _ k₃ born₃ => ?_
  refine Sat.bind (born₃.keep (mio_sameHolders _)) fun _ k₄ born₄ => ?_
  refine Sat.bind (born₄.keep (mio_sameHolders _)) fun _ k₅ born₅ => ?_
  refine Sat.bind (born₅.keep (dupFiles_sameHolders now np _ _)) fun _ k₆ born₆ => ?_
  split
  · exact Sat.throw trivial
  · rename_i cwd _
    refine born₆.setPwd ((idup_refs cwd k₆.fs).mono ?_) (.bind (setProc_sameHolders np (fun _ => rfl)
      fun _ => id) fun _ => .bind (setProc_sameHolders np (fun _ => rfl) ?_) fun _ => .pure _)
    · rintro _ _ ⟨rfl, moved⟩
      exact moved
    · intro proc dead
      simp [ProcState.Dead] at dead

theorem Referenced.closeFiles (referenced : Referenced k fun _ => 0) (count fd : ℕ) :
    Sat (closeFiles p count fd) k anyStop fun _ k' => Referenced k' fun _ => 0 := by
  induction count generalizing fd k with
  | zero => exact Sat.pure referenced
  | succ count ih =>
    unfold HaloOS.closeFiles
    refine Sat.bind (Sat.gets (Q := fun _ s => k = s) rfl) ?_
    rintro proc _ rfl
    dsimp only
    split
    · refine Sat.bind (referenced.fileclose _) ?_
      rintro _ k₁ ⟨referenced₁, -⟩
      refine Sat.bind (referenced₁.keep (setProc_sameHolders p (fun _ => rfl) fun _ => id)) ?_
      exact fun _ k₂ referenced₂ => ih referenced₂ _
    · exact ih referenced _

theorem Referenced.exit (referenced : Referenced k fun _ => 0) :
    Sat (exit p status) k anyStop fun _ k' => Referenced k' fun _ => 0 := by
  unfold HaloOS.exit
  refine Sat.bind (Sat.gets (Q := fun _ s => k = s) rfl) ?_
  rintro initp _ rfl
  refine Sat.bind (referenced.keep (.stopIf _)) fun _ k₁ referenced₁ => ?_
  refine Sat.bind (referenced₁.closeFiles _ _) fun _ k₂ referenced₂ => ?_
  refine Sat.bind (Sat.gets (Q := fun a s => k₂.procs p = a ∧ k₂ = s) ⟨rfl, rfl⟩) ?_
  rintro _ _ ⟨rfl, rfl⟩
  split
  · exact Sat.throw trivial
  · rename_i pwd named
    refine Sat.bind (referenced₂.fio (iput_refs _ pwd k₂.fs)) ?_
    rintro _ k₃ ⟨referenced₃, procs₃, -⟩
    refine Sat.bind (Sat.update (Q := fun _ s => Referenced s (fun _ => 0) ∧ (s.procs p).pwd = none)
      ⟨?_, by simp⟩) ?_
    · refine (referenced₃.setProc ({ · with pwd := none }) fun _ => rfl).owe fun i => ?_
      rw [procs₃, named]
      simp [credit]
    rintro _ k₄ ⟨referenced₄, none₄⟩
    refine Sat.bind (Sat.update (Q := fun _ s => Referenced s (fun _ => 0) ∧ (s.procs p).pwd = none)
      ⟨referenced₄.congr ⟨refl_of Fs.SameRefs _, fun _ => rfl, fun _ => rfl, fun _ => id, fun _ => id,
        fun q => ?_, fun q => ?_⟩, ?_⟩) ?_
    · dsimp only
      split <;> rfl
    · dsimp only
      split <;> exact id
    · dsimp only
      split <;> exact none₄
    rintro _ k₅ ⟨referenced₅, none₅⟩
    refine Sat.bind (Sat.update (Q := fun _ s => Referenced s fun _ => 0) ?_) fun _ _ done => Sat.pure done
    refine (referenced₅.setProc _ fun _ => none₅).owe fun i => ?_
    exact add_sub_cancel_right _ _

theorem Referenced.wait (referenced : Referenced k fun _ => 0) :
    Sat (wait L p addr) k anyStop fun _ k' => Referenced k' fun _ => 0 := by
  unfold HaloOS.wait
  refine Sat.bind (Sat.gets (Q := fun a s => k = a ∧ k = s) ⟨rfl, rfl⟩) ?_
  rintro _ _ ⟨rfl, rfl⟩
  dsimp only
  split
  · rename_i np found
    have zombie : (k.procs np).state = .zombie := by simpa using List.find?_some found
    have none := referenced.gone np (.inr zombie)
    refine Sat.bind (Frames.onlyIf (R := SameHolders) (.bind (mio_sameHolders _) fun _ => .stopIf _) k) ?_
    intro _ k₁ same
    refine Sat.bind ((referenced.congr same).freeproc ((same.pwd np).trans none)) ?_
    exact fun _ _ done => Sat.pure done
  · exact Sat.ite (fun _ => Sat.pure referenced) fun _ => Sat.throw trivial

/-- `exec` puts the program again once it is loaded. -/
theorem Referenced.exec {path : List Byte} {argv : List (List Byte)}
    (referenced : Referenced k fun _ => 0) :
    Sat (exec L p path argv) k anyStop fun _ k' => Referenced k' fun _ => 0 := by
  unfold HaloOS.exec
  refine Sat.bind (Sat.gets (Q := fun _ s => k = s) rfl) ?_
  rintro proc _ rfl
  refine Sat.bind (referenced.fio (rootsub_refs _ _ k.fs)) ?_
  rintro found k₁ ⟨referenced₁, -, -⟩
  refine Sat.bind (referenced₁.keep (fio_sameHolders (ilock_refs _ _))) fun _ k₂ referenced₂ => ?_
  cases found with
  | none => exact Sat.throw trivial
  | some app =>
    refine Sat.bind (referenced₂.keep (mio_sameHolders _)) fun pagetable k₃ referenced₃ => ?_
    refine Sat.bind (referenced₃.keep (fio_sameHolders
      (sameRefs_of_onlyDin (readk_onlyDin _ app _ _)))) ?_
    rintro ⟨r, elf⟩ k₄ referenced₄
    dsimp only
    generalize field elf 0 4 = magic, field elf 24 8 = entry, field elf 32 8 = phoff,
      field elf 56 2 = phnum
    refine Sat.bind (referenced₄.keep (.stopIf _)) fun _ k₅ referenced₅ => ?_
    refine Sat.bind (referenced₅.keep (.stopIf _)) fun _ k₆ referenced₆ => ?_
    refine Sat.bind (referenced₆.keep (loadLoop_sameHolders _ _ app _ _ _)) fun sz k₇ referenced₇ => ?_
    refine Sat.bind (referenced₇.fio (iunlockput_refs _ app k₇.fs)) ?_
    rintro _ k₈ ⟨referenced₈, -, -⟩
    have done : Referenced k₈ fun _ => 0 := referenced₈.owe fun i => by omega
    refine done.keep (.bind (mio_sameHolders _) fun sz1 => ?_)
    generalize sz1 - 2 * PGSIZE = guard, sz1 - PGSIZE = base
    refine .bind (.stopIf _) fun _ => .bind (mio_sameHolders _) fun _ => ?_
    refine .bind (mio_sameHolders _) fun sp => .bind (mio_sameHolders _) fun _ => ?_
    refine .bind (setProc_sameHolders p (fun _ => rfl) fun _ => id) fun _ => ?_
    refine .bind (mio_sameHolders _) fun _ => .bind (mio_sameHolders _) fun _ => ?_
    exact .bind (mio_sameHolders _) fun _ => .pure _

end Processes

section Runs

/-- The events of a run with the remaining calls on files. -/
inductive SysEvent where
  | kernel (e : Event)
  | mknod (p : Fin NPROC) (path : List Byte) (major minor : ℕ)
  | read (p : Fin NPROC) (fd addr n : ℕ)
  | write (p : Fin NPROC) (fd addr n : ℕ)
  | fstat (p : Fin NPROC) (fd addr : ℕ)

inductive SysStep (L : Layout) : Kernel → SysEvent → Kernel → Prop where
  | kernel {k k' : Kernel} {e : Event} (step : Step L k e k') : SysStep L k (.kernel e) k'
  | mknod {k k' : Kernel} {r : ℤ} {p : Fin NPROC} {path : List Byte} {major minor : ℕ}
      (ready : (k.procs p).state.Ready) (returns : sysMknod p path major minor k = .ok (r, k')) :
      SysStep L k (.mknod p path major minor) k'
  | read {k k' : Kernel} {r : ℤ} {p : Fin NPROC} {fd addr n : ℕ}
      (ready : (k.procs p).state.Ready) (returns : sysRead p fd addr n k = .ok (r, k')) :
      SysStep L k (.read p fd addr n) k'
  | write {k k' : Kernel} {r : ℤ} {p : Fin NPROC} {fd addr n : ℕ}
      (ready : (k.procs p).state.Ready) (returns : sysWrite p fd addr n k = .ok (r, k')) :
      SysStep L k (.write p fd addr n) k'
  | fstat {k k' : Kernel} {r : ℤ} {p : Fin NPROC} {fd addr : ℕ}
      (ready : (k.procs p).state.Ready) (returns : sysFstat p fd addr k = .ok (r, k')) :
      SysStep L k (.fstat p fd addr) k'

/-- The call leaves no reference behind: `open` is of the root directory by a path that starts
with `/`, without `O_CREATE` and by a process with a free descriptor, and `mknod` is of a name that
is not in the root directory. -/
def Frugal (k : Kernel) : SysEvent → Prop
  | .kernel (.call p (.sysOpen path model)) => path.head? = some slash ∧ model &&& O_CREATE = 0 ∧
      ∃ fd < OPENFILE, (k.procs p).openfs fd = none
  | .mknod p path _ _ => ∀ dp found s,
      createLookup (k.procs p).pid path k.fs = .ok ((dp, found), s) → found = none
  | _ => True

/-- The open files and the working directories that name an inode. -/
def Kernel.inodeUsers (k : Kernel) (i : Fin INODES) : ℕ :=
  (Finset.univ.filter fun f => 0 < (k.files f).ref ∧ (k.files f).ip = some i).card +
    (Finset.univ.filter fun p => (k.procs p).state ≠ .zombie ∧ (k.procs p).pwd = some i).card

theorem Booted.referenced {l : List ℕ} (boot : Booted L k l) (fresh : k.fs.inodes = initInodecache) :
    Referenced k fun _ => 0 where
  ref := by
    intro i
    have unnamed : tally k.holders i = 0 := by
      refine tally_eq_zero.mpr fun place => ?_
      cases place with
      | inl f => simp [Kernel.holders, boot.files, File.Linked]
      | inr p => simp [Kernel.holders, boot.procs]
    simp [unnamed, fresh, initInodecache]
  unread := by
    intro i
    rw [fresh]
    rfl
  files := fun f => .inr (by rw [boot.files]; exact ⟨rfl, rfl⟩)
  gone := fun p _ => by rw [boot.procs]

theorem Referenced.inodeUsers (referenced : Referenced k fun _ => 0) (i : Fin INODES) :
    (k.fs.inodes i).ref = k.inodeUsers i := by
  have files : tally (k.holders ∘ Sum.inl) i =
      (Finset.univ.filter fun f => 0 < (k.files f).ref ∧ (k.files f).ip = some i).card := by
    refine congrArg Finset.card (Finset.filter_congr fun f _ => ?_)
    change (if (k.files f).Linked then (k.files f).ip else none) = some i ↔ _
    rcases referenced.files f with ⟨used, linked⟩ | ⟨free, none⟩
    · rw [if_pos linked]
      simp [used]
    · rw [if_neg (by simp [File.Linked, none])]
      simp [free]
  have procs : tally (k.holders ∘ Sum.inr) i =
      (Finset.univ.filter fun p => (k.procs p).state ≠ .zombie ∧ (k.procs p).pwd = some i).card := by
    refine congrArg Finset.card (Finset.filter_congr fun p _ => ?_)
    change (k.procs p).pwd = some i ↔ _
    refine ⟨fun named => ⟨fun zombie => ?_, named⟩, And.right⟩
    rw [referenced.gone p (.inr zombie)] at named
    cases named
  rw [referenced.ref, tally_sum, files, procs, add_zero]
  rfl

theorem SysStep.referenced {e : SysEvent} (step : SysStep L k e k') (frugal : Frugal k e)
    (referenced : Referenced k fun _ => 0) : Referenced k' fun _ => 0 := by
  cases step with
  | kernel step =>
    cases step with
    | userinit returns => exact referenced.userinit.ok returns
    | @call k' r p c ready returns =>
      cases c with
      | fork => exact referenced.fork.ok returns
      | exec path argv => exact referenced.exec.ok returns
      | exit status => exact referenced.exit.ok returns
      | wait addr => exact referenced.wait.ok returns
      | sysOpen path model =>
        obtain ⟨rooted, plain, room⟩ := frugal
        exact (referenced.sysOpen rooted plain room).ok returns
      | sysDup fd => exact (referenced.keep (sysDup_sameHolders p fd)).ok returns
      | sysClose fd => exact referenced.sysClose.ok returns
    | @sched p s ready next =>
      refine referenced.congr ((setProc_sameHolders p (g := ({ · with state := s })) (fun _ => rfl) ?_).ok rfl)
      exact fun _ dead => absurd dead next.not_dead
  | mknod ready returns => exact (referenced.sysMknod frugal).ok returns
  | @read _ r p fd addr n ready returns =>
    refine (referenced.keep (.bind (argfd_sameHolders p fd) fun found => ?_)).ok returns
    split
    · exact .throw _
    · exact fileread_sameHolders p _ addr n
  | @write _ r p fd addr n ready returns =>
    refine (referenced.keep (.bind (argfd_sameHolders p fd) fun found => ?_)).ok returns
    split
    · exact .pure _
    · exact filewrite_sameHolders p _ addr n
  | @fstat _ r p fd addr ready returns =>
    refine (referenced.keep (.bind (argfd_sameHolders p fd) fun found => ?_)).ok returns
    split
    · exact .pure _
    · exact filestat_sameHolders p _ addr

/-- In every state of a run of frugal calls the `ref` of an inode is the number of open files
and of working directories that name it. -/
theorem inode_refs_right {k₀ : Kernel} {l₀ : List ℕ} {past : List SysEvent} (boot : Booted L k₀ l₀)
    (fresh : k₀.fs.inodes = initInodecache)
    (run : Trace (fun k e k' => SysStep L k e k' ∧ Frugal k e) k₀ past k) :
    ∀ i, (k.fs.inodes i).ref = k.inodeUsers i := by
  have referenced : Referenced k fun _ => 0 :=
    run.invariant (fun _ k => Referenced k fun _ => 0) (boot.referenced fresh)
      fun _ _ _ _ referenced step => step.1.referenced step.2 referenced
  exact referenced.inodeUsers

/-- A machine whose root directory holds `.` and `x`. -/
def dirKernel : Kernel :=
  { bootKernel 15 with fs := { smallDir dotAndX with inodes := initInodecache } }

theorem dirKernel_booted : Booted smallLayout dirKernel (List.range' FIRSTPG 15) :=
  { bootKernel_booted 15 (by decide) with }

/-- The first process opens the root directory. -/
theorem inode_refs_right_root : ∃ k, Trace (fun k e k' => SysStep smallLayout k e k' ∧ Frugal k e)
    dirKernel [.kernel .userinit, .kernel (.call 0 (.sysOpen [slash] 0))] k ∧
      ∀ i, (k.fs.inodes i).ref = k.inodeUsers i := by
  obtain ⟨_, k₁, first, room⟩ := outcome_some (m := Event.userinit.exec smallLayout) (k := dirKernel)
    (f := fun k => (k.procs 0).openfs 0) (b := none) (by decide +kernel)
  obtain ⟨_, k, both, -⟩ := outcome_some
    (m := execAll smallLayout [.userinit, .call 0 (.sysOpen [slash] 0)]) (k := dirKernel)
    (f := fun _ => ()) (b := ()) (by decide +kernel)
  obtain ⟨_, k₁', first', rest⟩ := bind_ok.mp both
  rw [first] at first'
  obtain rfl : k₁ = k₁' := by simpa using first'
  have second : Step smallLayout k₁ (.call 0 (.sysOpen [slash] 0)) k := (execAll_trace rest).of_single
  have run : Trace (fun k e k' => SysStep smallLayout k e k' ∧ Frugal k e) dirKernel
      [.kernel .userinit, .kernel (.call 0 (.sysOpen [slash] 0))] k :=
    (Trace.single ⟨.kernel (Event.exec_step first), trivial⟩).snoc
      ⟨.kernel second, rfl, rfl, 0, by decide, room⟩
  exact ⟨k, run, inode_refs_right dirKernel_booted rfl run⟩

/-- Opening `x` by its name leaves a reference to the root directory behind. -/
theorem inode_refs_leaked : ∃ k i, Trace (SysStep smallLayout) dirKernel
    [.kernel .userinit, .kernel (.call 0 (.sysOpen [0x78] 0))] k ∧
      (k.fs.inodes i).ref = 2 ∧ k.inodeUsers i = 1 := by
  obtain ⟨_, k, returns, counts⟩ := outcome_some
    (m := execAll smallLayout [.userinit, .call 0 (.sysOpen [0x78] 0)]) (k := dirKernel)
    (f := fun k => ((k.fs.inodes 0).ref, k.inodeUsers 0)) (b := (2, 1)) (by decide +kernel)
  obtain ⟨ref, users⟩ := Prod.ext_iff.mp counts
  exact ⟨k, 0, (execAll_trace returns).map _ fun _ _ _ step => .kernel step, ref, users⟩

end Runs

end HaloOS
